import Rah.Limit.EpochCounter
import Rah.Limit.QuotaGroups

/-!
# The windows of a rate limit

`executeLocal` asks the counters of a step's windows in turn and stops at the first one
exceeded; what the windows before it have counted stays. `executeDistributed` asks a
provider that counts requests, and makes up for the weight of a request with a smaller
limit. The limits as they are for the tenant are a parameter.
-/

namespace Rah.Limit.Quota

open Rah.Lib List Function

/-! ## Local counters -/

/-- The arena of a config and the key a request counts under. -/
inductive Counters where
  | tenant (maxTenants numWindows tenantID : Nat)
  | slots (mask : BitVec 32) (key : Text)

def arenaFNV32a (key : Text) : BitVec 32 :=
  key.foldl (fun h c => (h ^^^ c.toBitVec.setWidth 32) * 16777619) 2166136261

/-- The slot of a window; none when it is out of range. -/
def Counters.place : Counters → Nat → Option Nat
  | .tenant maxTenants numWindows tenantID, idx =>
    if tenantID < maxTenants ∧ idx < numWindows then some (tenantID * numWindows + idx) else none
  | .slots mask key, idx =>
    some ((arenaFNV32a key ^^^ BitVec.ofNat 32 idx * 2654435761) &&& mask).toNat

abbrev Slots := Nat → BitVec 64

/-- What a slot says of an epoch. -/
def readCurrent (packed : BitVec 64) (epoch : BitVec 32) : BitVec 32 :=
  if upper packed ≠ epoch then 0 else lower packed

section Local

variable (arena : Option Counters) (now : Nat) (delta : BitVec 32)
  (limitOf : WindowSpec → BitVec 32)

def WindowSpec.epoch (w : WindowSpec) : BitVec 32 := .ofNat 32 (now / w.epochDiv)

/-- The slot a window counts in, if there is one. -/
def counted (w : WindowSpec) : Option Nat := arena.bind (·.place w.idx)

/-- `IncrementBy` for a window. None is a denial, which leaves the slots as they are. -/
def incrementBy (s : Slots) (w : WindowSpec) : Option Slots :=
  match arena with
  | none => some s
  | some a =>
    if limitOf w = 0 then none
    else
      match a.place w.idx with
      | none => some s
      | some i => (Epoch.newCount (limitOf w) ⟨w.epoch now, delta⟩ (s i)).map fun n =>
          Function.update s i (pack (w.epoch now) n)

def executeLocal : List WindowSpec → Slots → Bool × Slots
  | [], s => (false, s)
  | w :: ws, s =>
    match incrementBy arena now delta limitOf s w with
    | none => (true, s)
    | some s => executeLocal ws s

/-- The window is not exceeded. -/
def admits (s : Slots) (w : WindowSpec) : Bool := (incrementBy arena now delta limitOf s w).isSome

variable {arena now delta limitOf} {s s' : Slots} {w : WindowSpec} {ws : List WindowSpec}

/-- A call that is admitted changes the count of its epoch. -/
theorem newCount_ne (h : Epoch.newCount limit c old = some n) : n ≠ readCurrent old c.epoch := by
  have hc : c.charge ≠ 0 := by
    unfold Epoch.Call.charge
    split
    · decide
    · assumption
  unfold Epoch.newCount at h
  unfold readCurrent
  split at h <;> rename_i he <;> split at h <;> cases h
  · rwa [if_pos he]
  · rw [if_neg he]
    intro hn
    exact hc (by simpa using hn)

/-- What an admitted window does. -/
theorem incrementBy_eq (h : incrementBy arena now delta limitOf s w = some s') :
    (counted arena w = none ∧ s = s') ∨ ∃ i n, counted arena w = some i
      ∧ s' = update s i (pack (w.epoch now) n) ∧ n ≠ readCurrent (s i) (w.epoch now) := by
  unfold incrementBy at h
  split at h
  · cases h
    exact .inl ⟨rfl, rfl⟩
  split at h
  · cases h
  split at h <;> rename_i hp
  · cases h
    exact .inl ⟨hp, rfl⟩
  · obtain ⟨n, hn, rfl⟩ := Option.map_eq_some_iff.mp h
    exact .inr ⟨_, n, hp, rfl, newCount_ne hn⟩

/-- A window looks at its own slot only. -/
theorem admits_congr (h : ∀ i, counted arena w = some i → s i = s' i) :
    admits arena now delta limitOf s w = admits arena now delta limitOf s' w := by
  unfold admits incrementBy
  split
  · rfl
  split
  · rfl
  split <;> rename_i hp
  · rfl
  · rw [Option.isSome_map, Option.isSome_map, h _ hp]

theorem executeLocal_frame : ∀ {ws : List WindowSpec} {s : Slots},
    i ∉ ws.filterMap (counted arena) →
    (executeLocal arena now delta limitOf ws s).2 i = s i
  | [], _, _ => rfl
  | w :: ws, s, hi => by
    have hr : i ∉ ws.filterMap (counted arena) := fun hm =>
      hi (by rw [filterMap_cons]; split <;> simp [hm])
    rw [executeLocal]
    split
    · rfl
    rename_i hs
    rw [executeLocal_frame hr]
    obtain ⟨_, rfl⟩ | ⟨j, n, hj, rfl, _⟩ := incrementBy_eq hs
    · rfl
    · refine update_of_ne (fun he => hi ?_) _ _
      rw [filterMap_cons, hj, he]
      exact .head _

/-- With a slot for every window, the step denies if a window is exceeded at its start. -/
theorem executeLocal_denied : ∀ {ws : List WindowSpec} {s : Slots},
    (ws.filterMap (counted arena)).Nodup → (executeLocal arena now delta limitOf ws s).1
      = !ws.all (admits arena now delta limitOf s)
  | [], _, _ => rfl
  | w :: ws, s, hn => by
    rw [filterMap_cons] at hn
    rw [executeLocal, all_cons, admits]
    cases hs : incrementBy arena now delta limitOf s w with
    | none => rfl
    | some s' =>
    rw [Option.isSome_some, Bool.true_and]
    obtain ⟨hnn, rfl⟩ | ⟨i, n, hi, rfl, _⟩ := incrementBy_eq hs
    · rw [hnn] at hn
      exact executeLocal_denied hn
    rw [hi] at hn
    obtain ⟨hf, hn⟩ := nodup_cons.mp hn
    rw [executeLocal_denied hn]
    -- the windows that follow have other slots
    refine congrArg not (Bool.eq_iff_iff.mpr ?_)
    rw [all_eq_true, all_eq_true]
    refine forall₂_congr fun v hv => Bool.eq_iff_iff.mp (admits_congr fun j hj => ?_)
    refine update_of_ne (fun he => hf ?_) _ _
    exact mem_filterMap.mpr ⟨v, hv, he ▸ hj⟩

/-- The counters read the same for every epoch of the windows. -/
def SameReads (now : Nat) (ws : List WindowSpec) (s s' : Slots) : Prop :=
  ∀ i, ∀ w ∈ ws, readCurrent (s' i) (w.epoch now) = readCurrent (s i) (w.epoch now)

theorem sameReads_iff {all : List WindowSpec} : ∀ {ws : List WindowSpec}, ws ⊆ all →
    (ws.filterMap (counted arena)).Nodup → ws.all (admits arena now delta limitOf s) = false →
    (SameReads now all s (executeLocal arena now delta limitOf ws s).2
      ↔ ∀ v ∈ ws.takeWhile (admits arena now delta limitOf s), counted arena v = none)
  | [], _, _, ha => by cases ha
  | w :: ws, hsb, hn, ha => by
    rw [filterMap_cons] at hn
    rw [all_cons] at ha
    rw [executeLocal, takeWhile_cons]
    rw [admits] at ha ⊢
    cases hs : incrementBy arena now delta limitOf s w with
    | none => simp [SameReads]
    | some s' =>
    rw [hs] at ha
    rw [Option.isSome_some, if_pos rfl, forall_mem_cons]
    obtain ⟨hnn, rfl⟩ | ⟨i, n, hi, rfl, hne⟩ := incrementBy_eq hs
    · rw [hnn] at hn
      rw [sameReads_iff (fun _ h => hsb (.tail _ h)) hn ha]
      exact (and_iff_right hnn).symm
    -- the slot of this window stays as it was counted
    rw [hi] at hn
    refine iff_of_false (fun hsm => hne ?_) (fun h => by rw [hi] at h; cases h.1)
    have hr := hsm i w (hsb (.head _))
    rw [executeLocal_frame (nodup_cons.mp hn).1, update_self, readCurrent,
      lower_pack, if_neg (by simp)] at hr
    exact hr

/-- **A denied request consumes nothing exactly if no window is exceeded or none counts before the
first one exceeded.** -/
theorem denied_frame_iff (hnodup : (ws.filterMap (counted arena)).Nodup) :
    ((executeLocal arena now delta limitOf ws s).1 = true →
        SameReads now ws s (executeLocal arena now delta limitOf ws s).2)
      ↔ (∀ w ∈ ws, admits arena now delta limitOf s w = true)
        ∨ ∀ v ∈ ws.takeWhile (admits arena now delta limitOf s), counted arena v = none := by
  rw [executeLocal_denied hnodup, ← List.all_eq_true]
  cases ha : ws.all (admits arena now delta limitOf s) with
  | true => simp
  | false => simpa using sameReads_iff (List.Subset.refl _) hnodup ha

end Local

/-- A second and a minute, at most five and one requests of tenant 0. -/
def secondAndMinute : List WindowSpec := [⟨1, 5, 0⟩, ⟨60, 1, 1⟩]

def runLocal (now : Nat) (s : Slots) : Bool × Slots :=
  executeLocal (some (.tenant 1 2 0)) now 1 (fun w => .ofNat 32 w.limit) secondAndMinute s

/-- The second is used up, and nothing is counted. -/
theorem denied_frame_first : (runLocal 120 fun _ => pack 120 5).1 = true
    ∧ SameReads 120 secondAndMinute (fun _ => pack 120 5) (runLocal 120 fun _ => pack 120 5).2 :=
  ⟨by decide, (denied_frame_iff (by decide)).mpr (.inr (by decide)) (by decide)⟩

/-- The minute is used up, and the second counts a request that is denied. -/
theorem denied_counts_second : (runLocal 120 fun i => if i = 1 then pack 2 1 else 0).1 = true
    ∧ readCurrent 0 120 = 0
    ∧ readCurrent ((runLocal 120 fun i => if i = 1 then pack 2 1 else 0).2 0) 120 = 1 := by
  decide

/-! ## The remote provider -/

/-- The limit the provider is asked with. -/
def scaledLimit (limit delta : Nat) : Nat := if 1 < delta then limit / delta + 1 else limit

/-- The counters of the provider for one key: by the seconds of a window and its epoch. -/
abbrev Counts := Nat × Nat → Nat

/-- `Check` of an exact provider. -/
def Counts.check (k : Counts) (ref : Nat × Nat) (limit : Nat) : Bool × Counts :=
  (k ref + 1 ≤ limit, Function.update k ref (k ref + 1))

section Remote

variable (limitOf : WindowSpec → Nat) (ws : List WindowSpec)

def WindowSpec.ref (w : WindowSpec) (now : Nat) : Nat × Nat := (w.epochDiv, now / w.epochDiv)

def executeDistributed (now delta : Nat) : List WindowSpec → Counts → Bool × Counts
  | [], k => (false, k)
  | w :: ws, k =>
    let r := k.check (w.ref now) (scaledLimit (limitOf w) delta)
    if r.1 then executeDistributed now delta ws r.2 else (true, r.2)

/-- The weights allowed in a sequence of requests, each with its time and weight. -/
def allowedWeight : List (Nat × Nat) → Counts → Nat
  | [], _ => 0
  | (now, delta) :: reqs, k =>
    (if (executeDistributed limitOf now delta ws k).1 then 0 else delta)
      + allowedWeight reqs (executeDistributed limitOf now delta ws k).2

variable {limitOf ws}

theorem le_check (k : Counts) (ref r : Nat × Nat) (limit : Nat) :
    k r ≤ (k.check ref limit).2 r := by
  show k r ≤ update k ref (k ref + 1) r
  rw [update_apply]
  split
  · subst r
    exact Nat.le_succ _
  · exact Nat.le_refl _

/-- No counter goes down; a request that is allowed was counted within the limit of each window. -/
theorem executeDistributed_counts (now delta : Nat) : ∀ (ws : List WindowSpec) (k : Counts),
    (∀ r, k r ≤ (executeDistributed limitOf now delta ws k).2 r)
      ∧ ((executeDistributed limitOf now delta ws k).1 = false → ∀ w ∈ ws,
        k (w.ref now) + 1 ≤ (executeDistributed limitOf now delta ws k).2 (w.ref now)
          ∧ k (w.ref now) + 1 ≤ scaledLimit (limitOf w) delta)
  | [], k => ⟨fun _ => Nat.le_refl _, nofun⟩
  | w :: ws, k => by
    have hle := fun r => le_check k (w.ref now) r (scaledLimit (limitOf w) delta)
    rw [executeDistributed]
    split
    · rename_i hc
      obtain ⟨hm, ha⟩ := executeDistributed_counts now delta ws
        (k.check (w.ref now) (scaledLimit (limitOf w) delta)).2
      refine ⟨fun r => Nat.le_trans (hle r) (hm r), fun hok v hv => ?_⟩
      rcases mem_cons.mp hv with rfl | hv
      · have hs : (k.check (v.ref now) (scaledLimit (limitOf v) delta)).2 (v.ref now)
            = k (v.ref now) + 1 := update_self ..
        exact ⟨hs ▸ hm (v.ref now), of_decide_eq_true hc⟩
      · obtain ⟨h1, h2⟩ := ha hok v hv
        have := hle (v.ref now)
        exact ⟨by omega, by omega⟩
    · exact ⟨hle, nofun⟩

/-- **Requests of weight one never use more than the limit of a window they share.** -/
theorem allowedWeight_le_limit (hw : w ∈ ws) : ∀ (reqs : List (Nat × Nat)) (k : Counts),
    (∀ r ∈ reqs, w.ref r.1 = e ∧ r.2 = 1) → allowedWeight limitOf ws reqs k ≤ limitOf w - k e
  | [], _, _ => Nat.zero_le _
  | (now, delta) :: reqs, k, hr => by
    obtain ⟨⟨he, ho⟩, hr⟩ := List.forall_mem_cons.mp hr
    obtain ⟨hm, ha⟩ := @executeDistributed_counts limitOf now delta ws k
    have ih := allowedWeight_le_limit hw reqs (executeDistributed limitOf now delta ws k).2 hr
    have := hm e
    rw [allowedWeight]
    split
    · omega
    rename_i hok
    have hc := ha (by simpa using hok) w hw
    dsimp only at he ho
    rw [he, scaledLimit, if_neg (by omega)] at hc
    omega

end Remote

/-- Three requests of one minute, each of weight one, for a limit of two. -/
theorem allowedWeight_units :
    allowedWeight (·.limit) [⟨60, 2, 0⟩] [(61, 1), (62, 1), (63, 1)] (fun _ => 0) ≤ 2 :=
  allowedWeight_le_limit (e := (60, 1)) (.head _) _ _ (by decide)

/-- **Weighted requests use more than the limit**: three of weight five for a limit of ten. -/
theorem allowedWeight_fives :
    allowedWeight (·.limit) [⟨60, 10, 0⟩] [(61, 5), (62, 5), (63, 5)] (fun _ => 0) = 15 := by
  decide

end Rah.Limit.Quota
