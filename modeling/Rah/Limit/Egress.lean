import Mathlib.Data.Int.Init
import Rah.Lib.Run

/-!
# The egress limiter

`acquire` reads the clock and counts itself into the window it has read. The bucket of a
resource keeps the window and its count in two atomic words: the caller that finds another
window swaps its own in and then stores a count of one, the others add one.

Any number of callers run at once; a step is one atomic operation of one of them. The clock
never goes back, so a caller starts with an epoch no older than the ones read before it, but
it may be overtaken afterwards. The log holds the calls that have returned, newest first.

Between the swap of a new window and the store of its count the bucket counts for nobody:
what is added there is lost with the store. A caller that loses the race for the swap adds to
whatever window has won it, and one that was overtaken swaps the window back. `Calm` excludes
these three.
-/

namespace Rah.Limit.Egress

open Rah.Lib

/-- The operation a caller is about to do, with the epoch it has read. -/
inductive Pc where
  | idle
  | load (epoch : Int)
  | swap (epoch cur : Int)
  | store (epoch : Int)
  | add (epoch : Int)
  deriving DecidableEq, Repr

/-- A call that has returned, with the epoch it was made in. -/
structure Returned where
  epoch : Int
  granted : Bool
  deriving DecidableEq, Repr

structure State where
  epoch : Int
  count : Int
  /-- The latest epoch a caller has read. -/
  clock : Int
  pc : Nat → Pc
  log : List Returned

/-- A new bucket, when the clock shows `clock`. -/
def init (clock : Int) : State where
  epoch := 0
  count := 0
  clock := clock
  pc := fun _ => .idle
  log := []

def State.goto (s : State) (t : Nat) (pc : Pc) : State :=
  { s with pc := fun u => if u = t then pc else s.pc u }

/-- The caller returns; `acquire` grants when its number is within the limit. -/
def State.returns (s : State) (limit : Int) (t : Nat) (epoch n : Int) : State :=
  { s.goto t .idle with log := ⟨epoch, decide (n ≤ limit)⟩ :: s.log, count := n }

/-- The sum of `count.Add(1)` in 64 bits. -/
def addOne (count : Int) : Int := Int.bmod (count + 1) 18446744073709551616

inductive Act where
  | acquire (t : Nat) (epoch : Int)
  | run (t : Nat)
  deriving DecidableEq, Repr

/-- `countForEpoch`, one atomic operation at a time. -/
def runStep (limit : Int) (s : State) (t : Nat) : Option State :=
  match s.pc t with
  | .idle => none
  | .load epoch =>
    if s.epoch = epoch then some (s.goto t (.add epoch))
    else some (s.goto t (.swap epoch s.epoch))
  | .swap epoch cur =>
    if s.epoch = cur then some { s.goto t (.store epoch) with epoch := epoch }
    else some (s.goto t (.add epoch))
  | .store epoch => some (s.returns limit t epoch 1)
  | .add epoch => some (s.returns limit t epoch (addOne s.count))

def step (limit : Int) (s : State) : Act → Option State
  | .acquire t epoch =>
    if s.pc t = .idle ∧ s.clock ≤ epoch then
      some { s.goto t (.load epoch) with clock := epoch }
    else none
  | .run t => runStep limit s t

/-! ## What was granted -/

/-- The calls of the epoch that were granted. -/
def granted (e : Int) (log : List Returned) : Nat :=
  log.countP (fun r => r.granted ∧ r.epoch = e)

variable {e limit : Int} {s s' : State} {t u : Nat}

theorem granted_other (h : epoch ≠ e) (ok : Bool) (log : List Returned) :
    granted e (⟨epoch, ok⟩ :: log) = granted e log :=
  List.countP_cons_of_neg (by simp [h])

theorem granted_own : granted e (⟨e, decide (n ≤ limit)⟩ :: log) =
      granted e log + if n ≤ limit then 1 else 0 := by
  split
  · rename_i h
    exact List.countP_cons_of_pos (by simp [h])
  · rename_i h
    exact List.countP_cons_of_neg (by simp [h])

/-! ## The operations of a step -/

/-- What a step can be, and the state after it. -/
inductive Op (limit : Int) (s : State) : Act → State → Prop where
  | acquire {t : Nat} {e : Int} : s.pc t = .idle →
      Op limit s (.acquire t e) { s.goto t (.load e) with clock := e }
  /-- A caller goes on to its next operation without touching the bucket. -/
  | move {t : Nat} {pc : Pc} : (∀ e, s.pc t ≠ .store e) → (∀ e, pc ≠ .store e) →
      Op limit s (.run t) (s.goto t pc)
  | swap {t : Nat} {e : Int} : s.pc t = .swap e s.epoch →
      Op limit s (.run t) { s.goto t (.store e) with epoch := e }
  | store {t : Nat} {e : Int} : s.pc t = .store e →
      Op limit s (.run t) (s.returns limit t e 1)
  | add {t : Nat} {e : Int} : s.pc t = .add e →
      Op limit s (.run t) (s.returns limit t e (addOne s.count))

theorem runStep_op (h : runStep limit s t = some s') : Op limit s (.run t) s' := by
  unfold runStep at h
  cases hpc : s.pc t with
  | idle => rw [hpc] at h; exact absurd h (by simp)
  | load e =>
    rw [hpc] at h
    dsimp only at h
    by_cases he : s.epoch = e
    · rw [if_pos he] at h; cases h; exact .move (by simp [hpc]) (by simp)
    · rw [if_neg he] at h; cases h; exact .move (by simp [hpc]) (by simp)
  | swap e cur =>
    rw [hpc] at h
    dsimp only at h
    by_cases he : s.epoch = cur
    · rw [if_pos he] at h
      cases h
      subst he
      exact .swap hpc
    · rw [if_neg he] at h; cases h; exact .move (by simp [hpc]) (by simp)
  | store e => rw [hpc] at h; cases h; exact .store hpc
  | add e => rw [hpc] at h; cases h; exact .add hpc

theorem step_op (h : step limit s a = some s') : Op limit s a s' := by
  cases a with
  | run t => exact runStep_op h
  | acquire t e =>
  dsimp only [step] at h
  by_cases hc : s.pc t = .idle ∧ s.clock ≤ e
  · rw [if_pos hc] at h; cases h; exact .acquire hc.1
  · rw [if_neg hc] at h; cases h

/-! ## The invariant -/

/-- The caller has swapped the epoch in and not yet stored its count. -/
def State.Storing (s : State) (t : Nat) (e : Int) : Prop := s.pc t = .store e

/-- A swap goes forward; an add goes to the caller's own window, after the count of every
swapped window has been stored, and does not overflow. -/
def Pc.Calm (s : State) : Pc → Prop
  | .swap epoch cur => s.epoch = cur → cur < epoch
  | .add epoch => s.epoch = epoch ∧ (∀ u e, ¬ s.Storing u e) ∧ s.count < 9223372036854775807
  | _ => True

def Calm (s : State) : Act → Prop
  | .acquire _ _ => True
  | .run t => (s.pc t).Calm s

structure Inv (limit : Int) (s : State) : Prop where
  /-- Nothing has happened in a window the bucket has not reached. -/
  ahead : ∀ e, s.epoch < e → granted e s.log = 0 ∧ ∀ t, ¬ s.Storing t e
  once : ∀ t u e, s.Storing t e → s.Storing u e → t = u
  fresh : ∀ t e, s.Storing t e → granted e s.log = 0
  bounded : ∀ e, granted e s.log ≤ limit.toNat
  /-- The count covers what its window has granted, or will once it is stored. -/
  counted : (∀ t e, ¬ s.Storing t e) → (granted s.epoch s.log : Int) ≤ s.count
  pending : ∀ t e, s.Storing t e → granted s.epoch s.log ≤ 1
  lower : 0 ≤ s.count

theorem inv_init (limit clock : Int) : Inv limit (init clock) where
  ahead := fun _ _ => ⟨rfl, nofun⟩
  once := nofun
  fresh := nofun
  bounded := fun _ => Nat.zero_le _
  counted := fun _ => Int.le_refl _
  pending := nofun
  lower := Int.le_refl _

theorem addOne_eq (h0 : 0 ≤ count) (h1 : count < 9223372036854775807) :
    addOne count = count + 1 := by
  unfold addOne
  rw [Int.bmod_eq_of_le]
  · omega
  · omega

theorem storing_goto :
    (s.goto t pc).Storing u e ↔ (u = t ∧ pc = .store e) ∨ (u ≠ t ∧ s.Storing u e) := by
  by_cases h : u = t
  · simp [State.Storing, State.goto, h]
  · simp [State.Storing, State.goto, h]

/-- The invariant reads the callers only for who is storing. -/
theorem Inv.congr (h : Inv limit s) (hep : s'.epoch = s.epoch) (hc : s'.count = s.count)
    (hl : s'.log = s.log) (hs : ∀ t e, s'.Storing t e ↔ s.Storing t e) : Inv limit s' where
  ahead := by
    intro e he
    rw [hl]
    obtain ⟨hz, hn⟩ := h.ahead e (hep ▸ he)
    exact ⟨hz, fun t ht => hn t ((hs t e).mp ht)⟩
  once := fun t u e ht hu => h.once t u e ((hs t e).mp ht) ((hs u e).mp hu)
  fresh := by
    intro t e ht
    rw [hl]
    exact h.fresh t e ((hs t e).mp ht)
  bounded := by
    rw [hl]
    exact h.bounded
  counted := by
    intro hn
    rw [hl, hep, hc]
    exact h.counted (fun t e ht => hn t e ((hs t e).mpr ht))
  pending := by
    intro t e ht
    rw [hl, hep]
    exact h.pending t e ((hs t e).mp ht)
  lower := hc ▸ h.lower

theorem storing_goto_of_not (hb : ∀ e, s.pc t ≠ .store e) (ha : ∀ e, pc ≠ .store e)
    (u : Nat) (e : Int) : (s.goto t pc).Storing u e ↔ s.Storing u e := by
  rw [storing_goto]
  constructor
  · rintro (⟨-, hpc⟩ | ⟨-, hu⟩)
    · exact absurd hpc (ha e)
    · exact hu
  · intro hu
    refine .inr ⟨?_, hu⟩
    rintro rfl
    exact hb e hu

theorem inv_swap (h : Inv limit s)
    (hf : s.epoch < e) : Inv limit { s.goto t (.store e) with epoch := e } := by
  have hs : ∀ u x, State.Storing { s.goto t (.store e) with epoch := e } u x →
      (u = t ∧ x = e) ∨ (u ≠ t ∧ s.Storing u x) := by
    intro u x hu
    rcases storing_goto.mp hu with ⟨hut, hx⟩ | hr
    · cases hx
      exact .inl ⟨hut, rfl⟩
    · exact .inr hr
  obtain ⟨hz, hn⟩ := h.ahead e hf
  refine ⟨?_, ?_, ?_, h.bounded, ?_, ?_, h.lower⟩
  · intro x hx
    have hx' : s.epoch < x := Int.lt_trans hf hx
    refine ⟨(h.ahead x hx').1, fun u hu => ?_⟩
    rcases hs u x hu with ⟨-, rfl⟩ | ⟨-, hu⟩
    · exact absurd hx (Int.lt_irrefl _)
    · exact (h.ahead x hx').2 u hu
  · intro u v x hu hv
    -- nobody was storing for the new window, so its only storer is the swapper
    rcases hs u x hu with ⟨hut, hxe⟩ | ⟨-, hu⟩
    · rcases hs v x hv with ⟨hvt, -⟩ | ⟨-, hv⟩
      · rw [hut, hvt]
      · exact absurd (hxe ▸ hv) (hn v)
    · rcases hs v x hv with ⟨-, hxe⟩ | ⟨-, hv⟩
      · exact absurd (hxe ▸ hu) (hn u)
      · exact h.once u v x hu hv
  · intro u x hu
    rcases hs u x hu with ⟨-, rfl⟩ | ⟨-, hu⟩
    · exact hz
    · exact h.fresh u x hu
  · intro hno
    exact absurd (storing_goto.mpr (.inl ⟨rfl, rfl⟩)) (hno t e)
  · intro _ _ _
    exact Nat.le_trans (Nat.le_of_eq hz) (by omega)

theorem storing_returns : (s.returns limit t e n).Storing u x ↔ u ≠ t ∧ s.Storing u x := by
  rw [show (s.returns limit t e n).Storing u x ↔ (s.goto t .idle).Storing u x from Iff.rfl,
    storing_goto]
  simp

theorem inv_store (h : Inv limit s) (ht : s.Storing t e) : Inv limit (s.returns limit t e 1) := by
  have hl : (s.returns limit t e 1).log = ⟨e, decide (1 ≤ limit)⟩ :: s.log := rfl
  -- the window of the store has granted nothing before, and one at most now
  have how : granted e (s.returns limit t e 1).log = if 1 ≤ limit then 1 else 0 := by
    rw [hl, granted_own, h.fresh t e ht, Nat.zero_add]
  have ho : ∀ x, e ≠ x → granted x (s.returns limit t e 1).log = granted x s.log :=
    fun x hx => granted_other hx _ _
  have hon : granted s.epoch (s.returns limit t e 1).log ≤ 1 := by
    by_cases he : e = s.epoch
    · rw [← he, how]
      split <;> omega
    · rw [ho _ he]
      exact h.pending t e ht
  refine ⟨?_, ?_, ?_, ?_, ?_, ?_, show (0 : Int) ≤ 1 by decide⟩
  · intro x hx
    have hne : e ≠ x := by
      rintro rfl
      exact (h.ahead e hx).2 t ht
    rw [ho x hne]
    exact ⟨(h.ahead x hx).1, fun u hu => (h.ahead x hx).2 u (storing_returns.mp hu).2⟩
  · intro u v x hu hv
    exact h.once u v x (storing_returns.mp hu).2 (storing_returns.mp hv).2
  · intro u x hu
    obtain ⟨hut, hu⟩ := storing_returns.mp hu
    have hne : e ≠ x := by
      rintro rfl
      exact hut (h.once u t e hu ht)
    rw [ho x hne]
    exact h.fresh u x hu
  · intro x
    by_cases hx : e = x
    · rw [← hx, how]
      split <;> omega
    · rw [ho x hx]
      exact h.bounded x
  · intro _
    exact Int.ofNat_le.mpr hon
  · intro _ _ _
    exact hon

theorem inv_add (h : Inv limit s) (hn : ∀ u e, ¬ s.Storing u e)
    (hr : s.count < 9223372036854775807) :
    Inv limit (s.returns limit t s.epoch (addOne s.count)) := by
  rw [addOne_eq h.lower hr]
  have hc := h.counted hn
  have hnone' : ∀ u e, ¬ (s.returns limit t s.epoch (s.count + 1)).Storing u e :=
    fun u e hu => hn u e (storing_returns.mp hu).2
  have hl : (s.returns limit t s.epoch (s.count + 1)).log =
      ⟨s.epoch, decide (s.count + 1 ≤ limit)⟩ :: s.log := rfl
  have how : granted s.epoch (s.returns limit t s.epoch (s.count + 1)).log =
      granted s.epoch s.log + if s.count + 1 ≤ limit then 1 else 0 := by
    rw [hl, granted_own]
  have ho : ∀ x, s.epoch ≠ x →
      granted x (s.returns limit t s.epoch (s.count + 1)).log = granted x s.log :=
    fun x hx => granted_other hx _ _
  refine ⟨?_, ?_, ?_, ?_, ?_, ?_, ?_⟩
  · intro x hx
    rw [ho x (Int.ne_of_lt hx)]
    exact ⟨(h.ahead x hx).1, fun u hu => hnone' u x hu⟩
  · intro u _ x hu
    exact absurd hu (hnone' u x)
  · intro u x hu
    exact absurd hu (hnone' u x)
  · intro x
    by_cases hx : s.epoch = x
    · rw [← hx, how]
      have hb := h.bounded s.epoch
      split <;> omega
    · rw [ho x hx]
      exact h.bounded x
  · intro _
    show (granted s.epoch (s.returns limit t s.epoch (s.count + 1)).log : Int) ≤ s.count + 1
    rw [how]
    split <;> omega
  · intro u x hu
    exact absurd hu (hnone' u x)
  · show 0 ≤ s.count + 1
    omega

theorem inv_op (h : Inv limit s) (hcl : Calm s a) (hop : Op limit s a s') : Inv limit s' := by
  cases hop with
  | acquire hpc =>
    exact h.congr rfl rfl rfl (storing_goto_of_not (by simp [hpc]) (by simp))
  | move hb ha => exact h.congr rfl rfl rfl (storing_goto_of_not hb ha)
  | @swap t e hpc =>
    have hc : Pc.Calm s (.swap e s.epoch) := hpc ▸ hcl
    exact inv_swap h (hc rfl)
  | store hpc => exact inv_store h hpc
  | @add t e hpc =>
    have hc : Pc.Calm s (.add e) := hpc ▸ hcl
    obtain ⟨rfl, hn, hr⟩ := hc
    exact inv_add h hn hr

/-- **The limit of a window.** Whatever the interleaving of calm steps, no epoch is granted more
than the limit. -/
theorem granted_le_limit {limit clock : Int} {acts : List Act} {s : State}
    (h : GoodRun (fun s a s' => step limit s a = some s') Calm (init clock) acts s) (e : Int) :
    granted e s.log ≤ limit.toNat := by
  have hi : Inv limit s :=
    h.invariant (fun hi hc hs => inv_op hi hc (step_op hs)) (inv_init limit clock)
  exact hi.bounded e

def Act.caller : Act → Nat
  | .acquire t _ => t
  | .run t => t

/-- The condition of a step as far as the callers below `n` are concerned. -/
def calmAmong (n : Nat) (s : State) (a : Act) : Bool :=
  a.caller < n && match a with
    | .run t => match s.pc t with
      | .swap epoch cur => s.epoch ≠ cur || cur < epoch
      | .add epoch => s.epoch = epoch && s.count < 9223372036854775807
        && (List.range n).all fun u => match s.pc u with
          | .store _ => false
          | _ => true
      | _ => true
    | .acquire _ _ => true

/-- With nobody else at work the callers below `n` are all there is to look at. -/
theorem calm_of_among (hi : ∀ u, n ≤ u → s.pc u = .idle) (h : calmAmong n s a = true) :
    Calm s a := by
  obtain ⟨-, h⟩ := Bool.and_eq_true_iff.mp h
  cases a with
  | acquire t e => trivial
  | run t =>
  show (s.pc t).Calm s
  cases hpc : s.pc t with
  | swap epoch cur => simpa [Pc.Calm, hpc, Decidable.imp_iff_not_or] using h
  | add epoch =>
    simp only [hpc, Bool.and_eq_true, decide_eq_true_eq, List.all_eq_true, List.mem_range] at h
    obtain ⟨⟨he, hlt⟩, hall⟩ := h
    refine ⟨he, fun u e hu => ?_, hlt⟩
    by_cases hun : u < n
    · have hs := hall u hun
      rw [show s.pc u = .store e from hu] at hs
      cases hs
    · rw [State.Storing, hi u (Nat.le_of_not_lt hun)] at hu
      cases hu
  | idle | load | store => trivial

theorem Op.pc_of_ne (h : Op limit s a s') (hu : u ≠ a.caller) : s'.pc u = s.pc u := by
  cases h <;> exact if_neg hu

theorem calm_run_of_among {acts : List Act}
    (hr : acts.foldlM (fun s a => if calmAmong n s a then step limit s a else none) (init clock)
      = some s) :
    GoodRun (fun s a s' => step limit s a = some s') Calm (init clock) acts s := by
  have hidle : ∀ {s s' : State} {a : Act}, (∀ u, n ≤ u → s.pc u = .idle) → calmAmong n s a = true →
      step limit s a = some s' → ∀ u, n ≤ u → s'.pc u = .idle := by
    intro s s' a hi hc hs u hu
    have hlt : a.caller < n := of_decide_eq_true (Bool.and_eq_true_iff.mp hc).1
    rw [(step_op hs).pc_of_ne (by omega)]
    exact hi u hu
  exact GoodRun.strengthen hidle calm_of_among (GoodRun.of_checked hr) fun _ _ => rfl

/-- Two callers come to window 5, whose limit is one. Both load the old window; the second swap
fails, and its caller adds to the count that the first has stored by then. -/
def twoCallers : List Act :=
  [.acquire 0 5, .acquire 1 5, .run 0, .run 1, .run 0, .run 1, .run 0, .run 1]

theorem granted_two_callers : ∃ s,
    GoodRun (fun s a s' => step 1 s a = some s') Calm (init 3) twoCallers s
      ∧ s.log = [⟨5, false⟩, ⟨5, true⟩] ∧ granted 5 s.log ≤ 1 := by
  obtain ⟨s, hr, hl⟩ : ∃ s, twoCallers.foldlM
      (fun s a => if calmAmong 2 s a then step 1 s a else none) (init 3) = some s
      ∧ s.log = [⟨5, false⟩, ⟨5, true⟩] := ⟨_, rfl, rfl⟩
  have hc := calm_run_of_among hr
  exact ⟨s, hc, hl, granted_le_limit hc 5⟩

/-- **A window is granted twice its limit of one**: caller 1 adds to the count of window 5 after
caller 0 has swapped the window in and before it stores its count. -/
theorem granted_exceeds_limit : ∃ s,
    [Act.acquire 0 5, .acquire 1 5, .run 0, .run 0, .run 1, .run 1, .run 0].foldlM
      (step 1) (init 3) = some s ∧ granted 5 s.log = 2 :=
  ⟨_, rfl, rfl⟩

end Rah.Limit.Egress
