import Rah.Lib.Run
import Rah.Lib.Halves

/-!
# The token bucket

`TokenBucket` keeps the time of its last update and the tokens left in one word,
`[LastUpdate:32 | Tokens:32]`. A call adds the tokens of the seconds that have passed,
up to the burst, and takes one. All of it is 32-bit arithmetic: a refill that wraps only
loses tokens, but a call whose time lies before the last update sees almost 2³² seconds
pass, and finds the bucket full again.

The calls of a sequence run one after the other, so the swap that ends the loop of the
source succeeds at once.
-/

namespace Rah.Limit.Bucket

open Rah.Lib

/-- The tokens a call at `now` finds. -/
def refill (slot : BitVec 64) (rate burst now : BitVec 32) : BitVec 32 :=
  let lastUpdate := upper slot
  let oldTokens := lower slot
  let elapsed := now - lastUpdate
  let full := oldTokens + elapsed * rate
  if full < burst then full else burst

/-- `TokenBucket`: whether the call is allowed, what remains, and the slot after it. -/
def tokenBucket (slot : BitVec 64) (rate burst now : BitVec 32) :
    (Bool × BitVec 32) × BitVec 64 :=
  let newTokens := refill slot rate burst now
  if newTokens < 1 then ((false, 0), slot)
  else ((true, newTokens - 1), pack now (newTokens - 1))

/-- A slot, and the times of the calls it has admitted, newest first. -/
structure State where
  slot : BitVec 64
  times : List (BitVec 32)
  deriving DecidableEq, Repr

def call (rate burst : BitVec 32) (s : State) (now : BitVec 32) : State :=
  let r := tokenBucket s.slot rate burst now
  ⟨r.2, if r.1.1 then now :: s.times else s.times⟩

/-- How many of the times lie in the interval. -/
def within (t₁ t₂ : Nat) (times : List (BitVec 32)) : Nat :=
  times.countP (fun t => t₁ ≤ t.toNat ∧ t.toNat ≤ t₂)

/-- The call does not come from before the last update. -/
def InOrder (s : State) (now : BitVec 32) : Prop := (upper s.slot).toNat ≤ now.toNat

instance (s : State) (now : BitVec 32) : Decidable (InOrder s now) :=
  inferInstanceAs (Decidable (_ ≤ _))

/-! ## One call -/

theorem refill_le_burst (slot : BitVec 64) (rate burst now : BitVec 32) :
    (refill slot rate burst now).toNat ≤ burst.toNat := by
  dsimp only [refill]
  split
  · next h => exact Nat.le_of_lt (BitVec.lt_def.mp h)
  · omega

/-- The word arithmetic of a refill never gives more than the true sum. -/
theorem refill_le (slot : BitVec 64) (rate burst now : BitVec 32)
    (h : (upper slot).toNat ≤ now.toNat) :
    (refill slot rate burst now).toNat ≤
      (lower slot).toNat + rate.toNat * (now.toNat - (upper slot).toNat) := by
  have he : (now - upper slot).toNat = now.toNat - (upper slot).toNat :=
    BitVec.toNat_sub_of_le (BitVec.le_def.mpr h)
  have hp : ((now - upper slot) * rate).toNat ≤ rate.toNat * (now.toNat - (upper slot).toNat) := by
    rw [BitVec.toNat_mul, he, Nat.mul_comm]
    omega
  have hf : (lower slot + (now - upper slot) * rate).toNat ≤
      (lower slot).toNat + rate.toNat * (now.toNat - (upper slot).toNat) := by
    exact Nat.le_trans (Nat.mod_le _ _) (by omega)
  dsimp only [refill]
  split
  · exact hf
  · next hlt => exact Nat.le_trans (BitVec.le_def.mp (BitVec.not_lt.mp hlt)) hf

/-- A call is denied and changes nothing, or it takes one of the tokens it found. -/
theorem call_cases (rate burst : BitVec 32) (s : State) (now : BitVec 32) :
    call rate burst s now = s ∨
    ∃ left : BitVec 32, left.toNat + 1 = (refill s.slot rate burst now).toNat ∧
      call rate burst s now = ⟨pack now left, now :: s.times⟩ := by
  by_cases h : refill s.slot rate burst now < 1
  · have hd : tokenBucket s.slot rate burst now = ((false, 0), s.slot) := by
      dsimp only [tokenBucket]
      rw [if_pos h]
    left
    simp [call, hd]
  have ht : tokenBucket s.slot rate burst now =
      ((true, refill s.slot rate burst now - 1), pack now (refill s.slot rate burst now - 1)) := by
    dsimp only [tokenBucket]
    rw [if_neg h]
  right
  refine ⟨refill s.slot rate burst now - 1, ?_, by simp [call, ht]⟩
  have hp : 1 ≤ refill s.slot rate burst now := BitVec.not_lt.mp h
  have ho : 1 ≤ (refill s.slot rate burst now).toNat := BitVec.le_def.mp hp
  rw [BitVec.toNat_sub_of_le hp]
  exact Nat.sub_add_cancel ho

variable {t₁ t₂ : Nat} {t rate burst now left : BitVec 32} {s : State}

theorem within_cons_of_mem (h1 : t₁ ≤ t.toNat) (h2 : t.toNat ≤ t₂)
    (times : List (BitVec 32)) : within t₁ t₂ (t :: times) = within t₁ t₂ times + 1 :=
  List.countP_cons_of_pos (by simpa using ⟨h1, h2⟩)

theorem within_cons_of_not (h : ¬ (t₁ ≤ t.toNat ∧ t.toNat ≤ t₂))
    (times : List (BitVec 32)) : within t₁ t₂ (t :: times) = within t₁ t₂ times :=
  List.countP_cons_of_neg (by simpa using h)

/-! ## The interval -/

/-- What the bucket has paid out in the interval, as long as it has paid out anything there. -/
structure Paid (rate burst : BitVec 32) (t₁ t₂ : Nat) (s : State) : Prop where
  after : within t₁ t₂ s.times ≠ 0 → t₁ ≤ (upper s.slot).toNat
  /-- What was admitted and what is left were there at `t₁` or came since. -/
  budget : within t₁ t₂ s.times ≠ 0 →
    within t₁ t₂ s.times + (lower s.slot).toNat ≤
      burst.toNat + rate.toNat * ((upper s.slot).toNat - t₁) ∨ t₂ < (upper s.slot).toNat
  bounded : within t₁ t₂ s.times ≤ burst.toNat + rate.toNat * (t₂ - t₁)

theorem paid_start (rate burst : BitVec 32) (t₁ t₂ : Nat) (slot : BitVec 64) :
    Paid rate burst t₁ t₂ ⟨slot, []⟩ where
  after := fun h => absurd rfl h
  budget := fun h => absurd rfl h
  bounded := Nat.zero_le _

section

variable (h : Paid rate burst t₁ t₂ s) (horder : InOrder s now)
include h horder

/-- A call outside the interval leaves its count alone and, if it counts at all, moves the
last update past its end. -/
theorem paid_outside (ho : ¬ (t₁ ≤ now.toNat ∧ now.toNat ≤ t₂)) :
    Paid rate burst t₁ t₂ ⟨pack now left, now :: s.times⟩ := by
  have ha : within t₁ t₂ s.times ≠ 0 → t₁ ≤ now.toNat :=
    fun hne => Nat.le_trans (h.after hne) horder
  constructor
  · rw [within_cons_of_not ho, upper_pack]
    exact ha
  · rw [within_cons_of_not ho, upper_pack]
    intro hne
    exact .inr (by omega)
  · rw [within_cons_of_not ho]
    exact h.bounded

/-- A call inside the interval is paid for by the tokens it found: those left by the last
call in the interval and the refill since, or a full bucket if it is the first one. -/
theorem paid_inside
    (hl : left.toNat + 1 = (refill s.slot rate burst now).toNat) (h1 : t₁ ≤ now.toNat)
    (h2 : now.toNat ≤ t₂) :
    Paid rate burst t₁ t₂ ⟨pack now left, now :: s.times⟩ := by
  have hbd : within t₁ t₂ s.times + 1 + left.toNat ≤
      burst.toNat + rate.toNat * (now.toNat - t₁) := by
    by_cases hne : within t₁ t₂ s.times = 0
    · have hbr := refill_le_burst s.slot rate burst now
      omega
    have hr := refill_le s.slot rate burst now horder
    have ha := h.after hne
    have horder' : (upper s.slot).toNat ≤ now.toNat := horder
    rcases h.budget hne with hb | hp
    · -- the seconds since `t₁` are those up to the last update and those since
      have hs : rate.toNat * (now.toNat - t₁) = rate.toNat * ((upper s.slot).toNat - t₁) +
            rate.toNat * (now.toNat - (upper s.slot).toNat) := by
        rw [← Nat.mul_add]
        congr 1
        omega
      omega
    · omega
  have hg : rate.toNat * (now.toNat - t₁) ≤ rate.toNat * (t₂ - t₁) :=
    Nat.mul_le_mul_left _ (by omega)
  constructor
  · rw [upper_pack]
    exact fun _ => h1
  · rw [within_cons_of_mem h1 h2, upper_pack, lower_pack]
    exact fun _ => .inl hbd
  · rw [within_cons_of_mem h1 h2]
    omega

theorem paid_call : Paid rate burst t₁ t₂ (call rate burst s now) := by
  rcases call_cases rate burst s now with hs | ⟨left, hl, hc⟩
  · rw [hs]
    exact h
  rw [hc]
  by_cases hin : t₁ ≤ now.toNat ∧ now.toNat ≤ t₂
  · exact paid_inside h horder hl hin.1 hin.2
  · exact paid_outside h horder hin

end

/-- **The bound of an interval.** In a sequence of calls none of which comes from before the
last update, an interval admits at most a burst and the refill of its seconds. -/
theorem within_le_burst_add_refill {rate burst : BitVec 32} {slot : BitVec 64}
    {nows : List (BitVec 32)} {s : State}
    (h : GoodRun (fun s now s' => call rate burst s now = s') InOrder ⟨slot, []⟩ nows s)
    (t₁ t₂ : Nat) :
    within t₁ t₂ s.times ≤ burst.toNat + rate.toNat * (t₂ - t₁) := by
  have hp : Paid rate burst t₁ t₂ s :=
    h.invariant (fun hp ho hc => hc ▸ paid_call hp ho) (paid_start rate burst t₁ t₂ slot)
  exact hp.bounded

/-- A bucket of two, refilled by one a second: the third call of a second is denied, and one
is admitted in each of the next two. -/
theorem within_two_seconds : ∃ s,
    GoodRun (fun s now s' => call 1 2 s now = s') InOrder ⟨0, []⟩ [7, 7, 7, 8, 9] s ∧
    within 7 9 s.times = 4 ∧ within 7 9 s.times ≤ 2 + 1 * (9 - 7) := by
  have hr : GoodRun (fun s now s' => call 1 2 s now = s') InOrder ⟨0, []⟩ [7, 7, 7, 8, 9]
      ⟨pack 9 0, [9, 8, 7, 7]⟩ := by
    refine .cons (by decide) rfl ?_
    refine .cons (by decide) rfl ?_
    refine .cons (by decide) rfl ?_
    refine .cons (by decide) rfl ?_
    exact .cons (by decide) rfl (.nil _)
  exact ⟨_, hr, rfl, within_le_burst_add_refill hr 7 9⟩

/-- **A call from the past fills the bucket**: with one token a second and a burst of one, two
calls of second 10 are admitted when one of second 9 comes between them. -/
theorem within_exceeds_burst : within 10 10 ([10, 9, 10].foldl (call 1 1) ⟨0, []⟩).times = 2 := by
  rfl

/-! ## Idle time -/

/-- A slot, the time of its last call and the tokens that call left. -/
structure Idle where
  slot : BitVec 64
  last : BitVec 32
  left : BitVec 32

def Idle.call (rate burst : BitVec 32) (s : Idle) (now : BitVec 32) : Idle :=
  let r := tokenBucket s.slot rate burst now
  ⟨r.2, now, r.1.2⟩

def Idle.InOrder (s : Idle) (now : BitVec 32) : Prop := s.last.toNat ≤ now.toNat

/-- What the last call left is what the slot says for its time, also if the call was refused. -/
def Idle.Due (rate : BitVec 32) (s : Idle) : Prop :=
  lower s.slot + (s.last - upper s.slot) * rate = s.left

theorem due_call (hb : 0 < burst) (s : Idle) (now : BitVec 32) :
    (s.call rate burst now).Due rate := by
  dsimp only [Idle.Due, Idle.call, tokenBucket]
  split
  · next hlt =>
    have hz : refill s.slot rate burst now = 0 := by bv_omega
    dsimp only [refill] at hz
    split at hz
    · exact hz
    · exact absurd hb (by simp [hz])
  · simp

/-- **An idle bucket refills exactly if the sum does not wrap below the burst.** -/
theorem refill_idle_iff {rate burst now : BitVec 32} {nows : List (BitVec 32)} {s : Idle}
    (hburst : 0 < burst)
    (hrun : GoodRun (fun s now s' => s.call rate burst now = s') Idle.InOrder ⟨0, 0, 0⟩ nows s)
    (horder : s.InOrder now) :
    (refill s.slot rate burst now).toNat =
        min burst.toNat (s.left.toNat + rate.toNat * (now.toNat - s.last.toNat))
      ↔ s.left.toNat + rate.toNat * (now.toNat - s.last.toNat) < 4294967296
        ∨ burst.toNat ≤
          (s.left.toNat + rate.toNat * (now.toNat - s.last.toNat)) % 4294967296 := by
  have hl : s.Due rate :=
    hrun.invariant (fun _ _ hc => hc ▸ due_call hburst _ _) (by simp [Idle.Due, lower, upper])
  have hf : lower s.slot + (now - upper s.slot) * rate = s.left + (now - s.last) * rate := by
    rw [← hl]
    grind
  have hn : (s.left + (now - s.last) * rate).toNat =
      (s.left.toNat + rate.toNat * (now.toNat - s.last.toNat)) % 4294967296 := by
    rw [BitVec.toNat_add, BitVec.toNat_mul,
      BitVec.toNat_sub_of_le (BitVec.le_def.mpr horder), Nat.mul_comm]
    omega
  simp only [refill, hf, apply_ite BitVec.toNat, BitVec.lt_def, hn]
  split <;> omega

/-- One token a second, two seconds after a call that left one. -/
theorem refill_idle_second : (refill (pack 7 1) 1 2 9).toNat = 2 := by
  have hr : GoodRun (fun s now s' => s.call 1 2 now = s') Idle.InOrder ⟨0, 0, 0⟩ [7]
      ⟨pack 7 1, 7, 1⟩ := .cons (Nat.zero_le 7) rfl (.nil _)
  have ho : Idle.InOrder ⟨pack 7 1, 7, 1⟩ 9 := Nat.le_add_right 7 2
  exact (refill_idle_iff (by decide) hr ho).mpr (.inl (by decide))

/-- **The sum wraps**: the first call on a zeroed slot finds nothing, although 2³² tokens came. -/
theorem refill_idle_wraps : (refill 0 65536 1 65536).toNat = 0 := by
  rfl

end Rah.Limit.Bucket
