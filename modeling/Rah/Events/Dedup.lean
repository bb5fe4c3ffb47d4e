import Rah.Lib.Run
import Mathlib.Logic.Function.Basic

/-!
# Event deduplication in memory

`IsDuplicate` reads the clock, loads the expiry of its key and stores a new one; the
sweeper reads the clock, ranges over the map and deletes what has expired. These are
separate operations, and a step is one of them, of one caller or of the sweeper, for the
one key and window that all calls have here.

Two calls that both load before either stores both report a new event. A sweeper that has
found the key expired deletes what is stored after that, and a call that read the clock
before a delete misses what was deleted. `Alone` excludes these.
-/

namespace Rah.Events

open Rah.Lib Function

/-- The operation a caller is about to do, with the time it has read. -/
inductive Pc where
  | idle
  | load (now : Int)
  | store (now : Int)
  deriving DecidableEq

inductive Sweeper where
  | waiting
  | range (now : Int)
  | delete
  deriving DecidableEq

structure State (n : Nat) where
  seen : Option Int
  now : Int
  pc : Fin n → Pc
  sweeper : Sweeper
  /-- The times read by the calls that reported a new event, newest first. -/
  fresh : List Int

variable {n : Nat} {w : Int} {s s' : State n} {t : Fin n}

def init (now : Int) : State n := ⟨none, now, fun _ => .idle, .waiting, []⟩

def State.goto (s : State n) (t : Fin n) (pc : Pc) : State n :=
  { s with pc := Function.update s.pc t pc }

inductive Act (n : Nat) where
  | tick (d : Nat)
  | call (t : Fin n)
  | run (t : Fin n)
  | sweep

/-- `IsDuplicate` after it has read the clock. -/
def runStep (w : Int) (s : State n) (t : Fin n) : Option (State n) :=
  match s.pc t with
  | .idle => none
  | .load now =>
    if s.seen.any (now < ·) then some (s.goto t .idle) else some (s.goto t (.store now))
  | .store now => some { s.goto t .idle with seen := some (now + w), fresh := now :: s.fresh }

def step (w : Int) (s : State n) : Act n → Option (State n)
  | .tick d => some { s with now := s.now + d }
  | .call t => if s.pc t = .idle then some (s.goto t (.load s.now)) else none
  | .run t => runStep w s t
  | .sweep =>
    match s.sweeper with
    | .waiting => some { s with sweeper := .range s.now }
    | .range now =>
      some { s with sweeper := if s.seen.any (· < now) then .delete else .waiting }
    | .delete => some { s with seen := none, sweeper := .waiting }

/-- No call is under way. -/
def State.Quiet (s : State n) : Prop := ∀ u, s.pc u = .idle

instance : Decidable s.Quiet := inferInstanceAs (Decidable (∀ _, _))

/-- A call starts when no other is under way and the sweeper is not about to delete. The sweeper
looks at the key and deletes it when no call is under way. -/
def Alone (s : State n) : Act n → Prop
  | .call _ => s.Quiet ∧ s.sweeper ≠ .delete
  | .sweep => s.sweeper ≠ .waiting → s.Quiet
  | _ => True

instance (s : State n) : (a : Act n) → Decidable (Alone s a)
  | .call _ => inferInstanceAs (Decidable (_ ∧ _))
  | .sweep => inferInstanceAs (Decidable (_ → _))
  | .tick _ | .run _ => isTrue trivial

/-- At a time, every new event reported before is past its window or covered by the expiry. -/
def Covered (w : Int) (s : State n) (now : Int) : Prop :=
  ∀ x ∈ s.fresh, x + w ≤ now ∨ ∃ e, s.seen = some e ∧ x + w ≤ e

def Pc.Sound (w : Int) (s : State n) : Pc → Prop
  | .idle => True
  | .load now => now ≤ s.now ∧ Covered w s now
  | .store now => now ≤ s.now ∧ ∀ x ∈ s.fresh, x + w ≤ now

def Sweeper.Sound (w : Int) (s : State n) : Sweeper → Prop
  | .waiting => True
  | .range now => now ≤ s.now
  | .delete => s.Quiet ∧ ∀ x ∈ s.fresh, x + w ≤ s.now

structure Inv (w : Int) (s : State n) : Prop where
  apart : s.fresh.Pairwise (fun later earlier => w ≤ later - earlier)
  covered : Covered w s s.now
  /-- At most one call is under way. -/
  call : ∀ u, s.pc u ≠ .idle → (s.pc u).Sound w s ∧ ∀ v, v ≠ u → s.pc v = .idle
  sweeper : s.sweeper.Sound w s

/-- One caller moves while the others are idle. -/
theorem call_goto (hpc : s'.pc = update s.pc t p) (hp : p.Sound w s')
    (ho : ∀ v, v ≠ t → s.pc v = .idle) (u : Fin n) (hu : s'.pc u ≠ .idle) :
    (s'.pc u).Sound w s' ∧ ∀ v, v ≠ u → s'.pc v = .idle := by
  rw [hpc] at hu ⊢
  rcases eq_or_ne u t with rfl | hne
  · rw [update_self]
    exact ⟨hp, fun v hv => by rw [update_of_ne hv, ho v hv]⟩
  · rw [update_of_ne hne] at hu
    exact absurd (ho u hne) hu

/-- A sweeper that is not about to delete has at most read a time. -/
theorem Inv.sweeper_of_ne (h : Inv w s) (hne : s.sweeper ≠ .delete) (hn : s.now = s'.now)
    (hsm : s'.sweeper = s.sweeper) : s'.sweeper.Sound w s' := by
  have hsw := h.sweeper
  rw [hsm]
  cases hs : s.sweeper with
  | waiting => trivial
  | range now => rw [hs] at hsw; exact le_of_le_of_eq hsw hn
  | delete => exact absurd hs hne

theorem inv_tick (h : Inv w s) (d : Nat) : Inv w { s with now := s.now + d } := by
  have hl : s.now ≤ s.now + d := by omega
  refine ⟨h.apart, fun x hx => (h.covered x hx).imp_left fun hle => Int.le_trans hle hl,
    fun u hu => ?_, ?_⟩
  · obtain ⟨hsn, ho⟩ := h.call u hu
    refine ⟨?_, ho⟩
    cases hpc : s.pc u with
    | idle => trivial
    | _ => rw [hpc] at hsn; exact ⟨Int.le_trans hsn.1 hl, hsn.2⟩
  · have hsw := h.sweeper
    cases hs : s.sweeper with
    | waiting => trivial
    | range now => rw [hs] at hsw; exact Int.le_trans hsw hl
    | delete =>
      rw [hs] at hsw
      exact ⟨hsw.1, fun x hx => Int.le_trans (hsw.2 x hx) hl⟩

theorem inv_run (h : Inv w s) (hst : runStep w s t = some s') : Inv w s' := by
  have hc := h.call t
  unfold runStep at hst
  generalize hpc : s.pc t = q at hst hc
  -- the sweeper is not about to delete while a call is under way
  have hsp : q ≠ .idle → s.sweeper ≠ .delete := by
    intro hq hs
    have hsw := h.sweeper
    rw [hs] at hsw
    exact hq (hpc ▸ hsw.1 t)
  cases q with
  | idle => cases hst
  | load now =>
    obtain ⟨⟨hn, hcv⟩, ho⟩ := hc (by simp)
    have hk : ∀ p, p.Sound w s → Inv w (s.goto t p) := by
      intro p hp
      refine ⟨h.apart, h.covered, call_goto rfl ?_ ho, h.sweeper_of_ne (hsp (by simp)) rfl rfl⟩
      cases p <;> exact hp
    dsimp only at hst
    split at hst <;> cases hst <;> rename_i ha
    · exact hk _ trivial
    refine hk _ ⟨hn, fun x hx => ?_⟩
    rcases hcv x hx with hle | ⟨e, he, hle⟩
    · exact hle
    · rw [he] at ha
      simp at ha
      omega
  | store now =>
    obtain ⟨⟨hn, hov⟩, ho⟩ := hc (by simp)
    cases hst
    refine ⟨List.pairwise_cons.mpr ⟨fun x hx => ?_, h.apart⟩, fun x hx => ?_,
      call_goto rfl trivial ho, h.sweeper_of_ne (hsp (by simp)) rfl rfl⟩
    · have := hov x hx
      omega
    · rcases List.mem_cons.mp hx with rfl | hx
      · exact .inr ⟨_, rfl, Int.le_refl _⟩
      · exact .inl (Int.le_trans (hov x hx) hn)

theorem inv_sweep (h : Inv w s) (ha : Alone s .sweep) (hst : step w s .sweep = some s') :
    Inv w s' := by
  have hsw := h.sweeper
  dsimp only [step] at hst
  split at hst <;> cases hst <;> rename_i hs <;> rw [hs] at hsw
  · exact ⟨h.apart, h.covered, h.call, Int.le_refl _⟩
  · refine ⟨h.apart, h.covered, h.call, ?_⟩
    split
    · rename_i now han
      refine ⟨ha (by simp [hs]), fun x hx => ?_⟩
      rcases h.covered x hx with hle | ⟨e, he, hle⟩
      · exact hle
      · have : e < now := by simpa [he] using han
        have : now ≤ s.now := hsw
        dsimp only
        omega
    · trivial
  · -- nobody is under way, and what is deleted had expired
    exact ⟨h.apart, fun x hx => .inl (hsw.2 x hx), fun u hu => absurd (hsw.1 u) hu, trivial⟩

theorem inv_step (h : Inv w s) (ha : Alone s a) (hs : step w s a = some s') : Inv w s' := by
  cases a with
  | tick d =>
    cases hs
    exact inv_tick h d
  | call t =>
    dsimp only [step] at hs
    split at hs <;> cases hs
    exact ⟨h.apart, h.covered, call_goto rfl ⟨Int.le_refl _, h.covered⟩ fun v _ => ha.1 v,
      h.sweeper_of_ne ha.2 rfl rfl⟩
  | run t => exact inv_run h hs
  | sweep => exact inv_sweep h ha hs

/-- **Calls that run alone report one new event in every window.** -/
theorem fresh_apart (w now : Int) (acts : List (Act n)) (s : State n)
    (h : GoodRun (fun s a s' => step w s a = some s') Alone (init now) acts s) :
    s.fresh.Pairwise (fun later earlier => w ≤ later - earlier) := by
  refine (GoodRun.invariant (fun hi hg hs => inv_step hi hg hs) h ?_).apart
  exact ⟨.nil, nofun, fun _ hu => absurd rfl hu, trivial⟩

/-- One call, a sweep after its window, and another call. -/
def sweptBetween : List (Act 1) :=
  [.call 0, .run 0, .run 0, .tick 6, .sweep, .sweep, .sweep, .call 0, .run 0, .run 0]

theorem fresh_sweptBetween : ∃ s,
    GoodRun (fun s a s' => step 5 s a = some s') Alone (init 100) sweptBetween s
      ∧ s.fresh = [106, 100] ∧ s.fresh.Pairwise (fun later earlier => 5 ≤ later - earlier) := by
  obtain ⟨s, hr, hf⟩ : ∃ s, sweptBetween.foldlM
      (fun s a => if Alone s a then step 5 s a else none) (init 100) = some s
      ∧ s.fresh = [106, 100] := ⟨_, rfl, rfl⟩
  have hg := GoodRun.of_checked hr
  exact ⟨s, hg, hf, fresh_apart 5 100 _ s hg⟩

/-- **Two calls at one time both report a new event**: both load before either stores. -/
theorem fresh_twice : ∃ s : State 2, [.call 0, .call 1, .run 0, .run 1, .run 0, .run 1].foldlM
    (step 5) (init 100) = some s ∧ s.fresh = [100, 100] :=
  ⟨_, rfl, rfl⟩

end Rah.Events
