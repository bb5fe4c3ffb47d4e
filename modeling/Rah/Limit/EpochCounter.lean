import Rah.Lib.Run
import Rah.Lib.Halves

/-!
# The fixed-window counter

`counterEpochCASBy` keeps the window it counts and the count in one word,
`[epoch:32 | count:32]`. A call loads the word, decides, and tries to swap in the next
one; when another call has been faster it loads again.

Any number of callers run at once. A state holds the slot and, for every caller, the
atomic operation it is about to do; a step is one such operation, in any order. The log
holds the calls that have returned, newest first.

Two things let more through than the limit. A late caller takes the slot back to a
window that was counted before, and the count of that window starts again. And the
count is added to in 32 bits, so that a large delta takes it past the top to a small
number. `Timely` excludes these two.
-/

namespace Rah.Limit.Epoch

open Rah.Lib

structure Call where
  epoch : BitVec 32
  delta : BitVec 32
  deriving DecidableEq, Repr

/-- A delta of zero counts as one. -/
def Call.charge (c : Call) : BitVec 32 := if c.delta = 0 then 1 else c.delta

/-- A call that has returned `(allowed, remaining)`. -/
structure Returned where
  call : Call
  allowed : Bool
  remaining : BitVec 32
  deriving DecidableEq, Repr

/-- The operation a caller is about to do. -/
inductive Pc where
  | idle
  | load (c : Call)
  | swap (c : Call) (old : BitVec 64) (newCount : BitVec 32)
  deriving DecidableEq, Repr

structure State where
  slot : BitVec 64
  pc : Nat → Pc
  log : List Returned

/-- The slot holds anything, and nobody has called yet. -/
def init (slot : BitVec 64) : State where
  slot := slot
  pc := fun _ => .idle
  log := []

def State.goto (s : State) (t : Nat) (pc : Pc) : State :=
  { s with pc := fun u => if u = t then pc else s.pc u }

/-- The caller returns. -/
def State.returns (s : State) (t : Nat) (r : Returned) : State :=
  { s.goto t .idle with log := r :: s.log }

/-- The count the call would leave in the word it has loaded; none when it is denied. -/
def newCount (limit : BitVec 32) (c : Call) (old : BitVec 64) : Option (BitVec 32) :=
  if upper old ≠ c.epoch then
    -- a new window starts with this call
    if limit < c.charge then none else some c.charge
  else if limit < lower old + c.charge then none
  else some (lower old + c.charge)

def remaining (limit count : BitVec 32) : BitVec 32 := if count < limit then limit - count else 0

/-- What happens next: an idle caller calls, or a caller does its next operation. -/
inductive Act where
  | call (t : Nat) (c : Call)
  | run (t : Nat)
  deriving DecidableEq, Repr

def runStep (limit : BitVec 32) (s : State) (t : Nat) : Option State :=
  match s.pc t with
  | .idle => none
  | .load c =>
    match newCount limit c s.slot with
    | none => some (s.returns t ⟨c, false, 0⟩)
    | some n => some (s.goto t (.swap c s.slot n))
  | .swap c old n =>
    if s.slot = old then
      some { s.returns t ⟨c, true, remaining limit n⟩ with slot := pack c.epoch n }
    else some (s.goto t (.load c))

/-- `counterEpochCASBy`, one atomic operation at a time. -/
def step (limit : BitVec 32) (s : State) : Act → Option State
  | .call t c =>
    if s.pc t = .idle then
      if limit = 0 then some (s.returns t ⟨c, false, 0⟩) else some (s.goto t (.load c))
    else none
  | .run t => runStep limit s t

/-! ## What was admitted -/

/-- The deltas of the calls admitted with the epoch, as the callers gave them. -/
def admitted (e : BitVec 32) : List Returned → Nat
  | [] => 0
  | r :: log => (if r.allowed ∧ r.call.epoch = e then r.call.delta.toNat else 0) + admitted e log

/-- What the admitted calls were counted as. -/
def charged (e : BitVec 32) : List Returned → Nat
  | [] => 0
  | r :: log => (if r.allowed ∧ r.call.epoch = e then r.call.charge.toNat else 0) + charged e log

theorem Call.delta_le_charge (c : Call) : c.delta.toNat ≤ c.charge.toNat := by
  unfold Call.charge
  by_cases h : c.delta = 0
  · rw [h]
    exact Nat.zero_le _
  · rw [if_neg h]

theorem admitted_le_charged (e : BitVec 32) (log : List Returned) :
    admitted e log ≤ charged e log := by
  induction log with
  | nil => exact Nat.le_refl _
  | cons r log ih =>
  unfold admitted charged
  by_cases h : r.allowed ∧ r.call.epoch = e
  · rw [if_pos h, if_pos h]
    exact Nat.add_le_add r.call.delta_le_charge ih
  · rw [if_neg h, if_neg h]
    omega

variable {e limit : BitVec 32} {s s' : State} {t : Nat}

theorem charged_of_none (h : ∀ r ∈ log, r.allowed = true → r.call.epoch ≠ e) :
    charged e log = 0 := by
  induction log with
  | nil => rfl
  | cons r log ih =>
    have hr : ¬ (r.allowed ∧ r.call.epoch = e) := fun hr => h r (.head _) hr.1 hr.2
    rw [charged, if_neg hr, ih (fun r' hr' => h r' (.tail _ hr'))]

@[simp] theorem charged_denied (e : BitVec 32) (c : Call) (n : BitVec 32) (log : List Returned) :
    charged e (⟨c, false, n⟩ :: log) = charged e log := by
  rw [charged, if_neg (by simp), Nat.zero_add]

theorem charged_own :
    charged c.epoch (⟨c, true, n⟩ :: log) = c.charge.toNat + charged c.epoch log := by
  rw [charged, if_pos ⟨rfl, rfl⟩]

theorem charged_other (h : c.epoch ≠ e) (n : BitVec 32) (log : List Returned) :
    charged e (⟨c, true, n⟩ :: log) = charged e log := by
  rw [charged, if_neg (fun h' => h h'.2), Nat.zero_add]

/-! ## The operations of a step -/

/-- What a step can be, and the state after it. -/
inductive Op (limit : BitVec 32) (s : State) : Act → State → Prop where
  | deny {t : Nat} {c : Call} {a : Act} : Op limit s a (s.returns t ⟨c, false, 0⟩)
  | load {t : Nat} {c : Call} {a : Act} : Op limit s a (s.goto t (.load c))
  | count {t : Nat} {c : Call} {n : BitVec 32} : newCount limit c s.slot = some n →
      Op limit s (.run t) (s.goto t (.swap c s.slot n))
  | swap {t : Nat} {c : Call} {n : BitVec 32} : s.pc t = .swap c s.slot n →
      Op limit s (.run t)
        { s.returns t ⟨c, true, remaining limit n⟩ with slot := pack c.epoch n }

theorem runStep_op (h : runStep limit s t = some s') : Op limit s (.run t) s' := by
  unfold runStep at h
  cases hpc : s.pc t with
  | idle => rw [hpc] at h; exact absurd h (by simp)
  | load c =>
    rw [hpc] at h
    dsimp only at h
    cases hn : newCount limit c s.slot with
    | none => rw [hn] at h; cases h; exact .deny
    | some n => rw [hn] at h; cases h; exact .count hn
  | swap c old n =>
    rw [hpc] at h
    dsimp only at h
    split at h
    · rename_i hs
      cases h
      subst hs
      exact .swap hpc
    · cases h
      exact .load

theorem step_op (h : step limit s a = some s') : Op limit s a s' := by
  cases a with
  | run t => exact runStep_op h
  | call t c =>
  dsimp only [step] at h
  by_cases hpc : s.pc t = .idle
  · rw [if_pos hpc] at h
    by_cases hl : limit = 0
    · rw [if_pos hl] at h; cases h; exact .deny
    · rw [if_neg hl] at h; cases h; exact .load
  · rw [if_neg hpc] at h; cases h

/-! ## The invariant -/

/-- A call that is about to swap its word in starts a window only when nothing has been
admitted in it yet, and does not take a running count past the top of its 32 bits. -/
def Pc.Timely (s : State) : Pc → Prop
  | .swap c old _ => s.slot = old →
      (upper old ≠ c.epoch → ∀ r ∈ s.log, r.allowed = true → r.call.epoch ≠ c.epoch) ∧
      (upper old = c.epoch → (lower old).toNat + c.charge.toNat < 4294967296)
  | _ => True

def Timely (s : State) : Act → Prop
  | .call _ _ => True
  | .run t => (s.pc t).Timely s

instance (s : State) : (pc : Pc) → Decidable (pc.Timely s)
  | .idle => isTrue trivial
  | .load _ => isTrue trivial
  | .swap _ _ _ => inferInstanceAs (Decidable (_ → _ ∧ _))

instance (s : State) : (a : Act) → Decidable (Timely s a)
  | .call _ _ => isTrue trivial
  | .run t => inferInstanceAs (Decidable ((s.pc t).Timely s))

structure Inv (limit : BitVec 32) (s : State) : Prop where
  /-- A pending swap was computed from the word it expects. -/
  pending : ∀ t c old n, s.pc t = .swap c old n → newCount limit c old = some n
  bounded : ∀ e, charged e s.log ≤ limit.toNat
  /-- The slot counts everything admitted in its own window. -/
  counted : charged (upper s.slot) s.log ≤ (lower s.slot).toNat

theorem inv_init (limit : BitVec 32) (slot : BitVec 64) : Inv limit (init slot) where
  pending := by intro t c old n h; cases h
  bounded := fun _ => Nat.zero_le _
  counted := Nat.zero_le _

/-- A goto keeps the invariant when what it sets up is computed from the slot. -/
theorem Inv.goto (h : Inv limit s) {pc : Pc}
    (hpc : ∀ c old n, pc = .swap c old n → newCount limit c old = some n) :
    Inv limit (s.goto t pc) where
  pending := by
    intro u c old n hu
    by_cases hut : u = t
    · exact hpc c old n (by simpa [State.goto, hut] using hu)
    · exact h.pending u c old n (by simpa [State.goto, hut] using hu)
  bounded := h.bounded
  counted := h.counted

theorem Inv.idle (h : Inv limit s) (t : Nat) : Inv limit (s.goto t .idle) := h.goto nofun

/-- What an admitted call leaves in the slot is within the limit, and counts the call on top
of what its window had. -/
theorem newCount_counts (h : Inv limit s) (hpc : s.pc t = .swap c s.slot n)
    (hg : Timely s (.run t)) :
    c.charge.toNat + charged c.epoch s.log ≤ n.toNat ∧ n.toNat ≤ limit.toNat := by
  have hn : newCount limit c s.slot = some n := h.pending t c s.slot n hpc
  have ht : Pc.Timely s (.swap c s.slot n) := hpc ▸ hg
  obtain ⟨hf, hr⟩ := ht rfl
  unfold newCount at hn
  by_cases he : upper s.slot = c.epoch
  · rw [if_neg (by simpa using he)] at hn
    by_cases hl : limit < lower s.slot + c.charge
    · rw [if_pos hl] at hn; cases hn
    rw [if_neg hl] at hn
    cases hn
    -- the sum does not wrap, so it is the count and the delta
    have ha : (lower s.slot + c.charge).toNat = (lower s.slot).toNat + c.charge.toNat := by
      exact Nat.mod_eq_of_lt (hr he)
    have hc : charged c.epoch s.log ≤ (lower s.slot).toNat := he ▸ h.counted
    exact ⟨by omega, BitVec.le_def.mp (BitVec.not_lt.mp hl)⟩
  · rw [if_pos he] at hn
    by_cases hl : limit < c.charge
    · rw [if_pos hl] at hn; cases hn
    rw [if_neg hl] at hn
    cases hn
    rw [charged_of_none (hf he)]
    exact ⟨Nat.le_refl _, BitVec.le_def.mp (BitVec.not_lt.mp hl)⟩

theorem inv_op (h : Inv limit s) (hg : Timely s a) (hop : Op limit s a s') : Inv limit s' := by
  cases hop with
  | deny =>
    have hi := h.idle
    exact ⟨(hi _).pending, fun e => by simpa [State.returns] using h.bounded e,
      by simpa [State.returns, State.goto] using h.counted⟩
  | load => exact h.goto nofun
  | count hn =>
    refine h.goto ?_
    rintro c old n h'
    cases h'
    exact hn
  | @swap t c n hpc =>
    obtain ⟨hc, hl⟩ := newCount_counts h hpc hg
    refine ⟨(h.idle t).pending, ?_, ?_⟩
    · intro e
      show charged e (⟨c, true, remaining limit n⟩ :: s.log) ≤ limit.toNat
      by_cases he : c.epoch = e
      · subst he
        rw [charged_own]
        omega
      · rw [charged_other he]
        exact h.bounded e
    · show charged (upper (pack c.epoch n)) (⟨c, true, remaining limit n⟩ :: s.log) ≤
        (lower (pack c.epoch n)).toNat
      rw [upper_pack, lower_pack, charged_own]
      exact hc

/-- **The limit of a window.** Whatever the interleaving of timely steps, the deltas admitted
with one epoch never sum to more than the limit. -/
theorem admitted_le_limit {limit : BitVec 32} {slot : BitVec 64} {acts : List Act} {s : State}
    (h : GoodRun (fun s a s' => step limit s a = some s') Timely (init slot) acts s)
    (e : BitVec 32) : admitted e s.log ≤ limit.toNat := by
  have hi : Inv limit s :=
    h.invariant (fun hi hg hs => inv_op hi hg (step_op hs)) (inv_init limit slot)
  exact Nat.le_trans (admitted_le_charged e s.log) (hi.bounded e)

/-- Two callers load the same word; the slower one loads again. Then the next window starts. -/
def twoWindows : List Act :=
  [.call 0 ⟨1, 2⟩, .call 1 ⟨1, 1⟩, .run 0, .run 1, .run 0, .run 1, .run 1, .run 1,
    .call 0 ⟨2, 3⟩, .run 0, .run 0]

theorem admitted_twoWindows : ∃ s,
    GoodRun (fun s a s' => step 3 s a = some s') Timely (init 0) twoWindows s ∧
    s.log.length = 3 ∧ admitted 1 s.log ≤ 3 := by
  obtain ⟨s, hr, hl⟩ : ∃ s, twoWindows.foldlM
      (fun s a => if Timely s a then step 3 s a else none) (init 0) = some s ∧
      s.log.length = 3 := ⟨_, rfl, rfl⟩
  have hg := GoodRun.of_checked hr
  exact ⟨s, hg, hl, admitted_le_limit hg 1⟩

/-- A whole call of one caller that nobody disturbs. -/
def alone (c : Call) : List Act := [.call 0 c, .run 0, .run 0]

/-- **More than the limit is admitted**: with a limit of one, two calls of window 1, the second
after a call of window 2; with a limit of ten, deltas 1 and 2³² - 1 of one window. -/
theorem admitted_exceeds_limit :
    (∃ s, (alone ⟨1, 1⟩ ++ alone ⟨2, 1⟩ ++ alone ⟨1, 1⟩).foldlM (step 1) (init 0) = some s ∧
      admitted 1 s.log = 2) ∧
    (∃ s, (alone ⟨1, 1⟩ ++ alone ⟨1, 4294967295⟩).foldlM (step 10) (init 0) = some s ∧
      admitted 1 s.log = 4294967296) :=
  ⟨⟨_, rfl, rfl⟩, ⟨_, rfl, rfl⟩⟩

end Rah.Limit.Epoch
