import Rah.Lib.Run
import Mathlib.Data.List.Nodup

/-!
# What a timer service promises

The service knows which timers are pending and in which slot each of them is. A timer is
pending from its scheduling until it is cancelled or its slot is ticked, and a tick fires
exactly the timers pending in its slot.

`FiresOnce` is the promise to a user of the service, read off the log of events alone: a
timer that is not cancelled is fired by the first tick of its slot, once, and by no other.
Every run of the service keeps it, whatever the order of the calls.
-/

namespace Rah.Timer

open Rah.Lib

/-- What is done when a timer fires. -/
inductive Target where
  | body (b : Nat)
  /-- Cancel a request context, if it still has this generation. -/
  | ctx (c gen : Nat)
  deriving DecidableEq, Repr

/-- A timer: its target, and the number of the call that scheduled it. -/
structure FireRef where
  ticket : Nat
  target : Target
  deriving DecidableEq, Repr

/-- What a client sees of one step. -/
inductive Event where
  | scheduled (r : FireRef) (slot : Nat)
  /-- The call could not schedule its timer. -/
  | refused (ticket : Nat)
  | cancelled (ticket : Nat)
  | ticked (slot : Nat) (fired : List FireRef)
  deriving DecidableEq, Repr

/-- A timer that is not cancelled is fired by the first tick of its slot, exactly once. -/
def FiresOnce (log : List Event) : Prop :=
  ∀ r slot before between fired after,
    log = before ++ .scheduled r slot :: (between ++ .ticked slot fired :: after) →
    (∀ f, Event.ticked slot f ∉ between) → Event.cancelled r.ticket ∉ between →
    fired.count r = 1
      ∧ ∀ s f, Event.ticked s f ∈ before ∨ Event.ticked s f ∈ between ∨ Event.ticked s f ∈ after →
        r ∉ f

/-- The pending timers, each with its slot, and the number of the next call. -/
structure Service where
  next : Nat
  pending : FireRef → Option Nat

/-- Nothing is pending. -/
def Service.empty : Service := { next := 0, pending := fun _ => none }

/-- The timer of a new call is pending in the slot. -/
def Service.schedule (p : Service) (r : FireRef) (slot : Nat) : Service :=
  { next := p.next + 1, pending := fun x => if x = r then some slot else p.pending x }

/-- Timers are dropped. -/
def Service.drop (p : Service) (gone : FireRef → Bool) : Service :=
  { p with pending := fun x => if gone x then none else p.pending x }

/-- What a timer service may do: nothing fires early, twice or after it was cancelled. -/
inductive Service.Step : Service → Event → Service → Prop where
  | schedule {p : Service} {r : FireRef} {slot : Nat} : r.ticket = p.next →
      Step p (.scheduled r slot) (p.schedule r slot)
  | refuse {p : Service} : Step p (.refused p.next) { p with next := p.next + 1 }
  | cancel {p : Service} {t : Nat} : Step p (.cancelled t) (p.drop (fun x => x.ticket = t))
  | tick {p : Service} {slot : Nat} {fired : List FireRef} : fired.Nodup →
      (∀ r, r ∈ fired ↔ p.pending r = some slot) →
      Step p (.ticked slot fired) (p.drop (fun x => p.pending x = some slot))

/-- A run of the service by its events. -/
def Service.Run : Service → List Event → Service → Prop := GoodRun Service.Step (fun _ _ => True)

/-- Only numbers that were given out are pending. -/
def Service.Fresh (p : Service) : Prop := ∀ r slot, p.pending r = some slot → r.ticket < p.next

theorem fresh_empty : Service.empty.Fresh := by
  nofun

variable {p p' : Service} {e : Event} {log : List Event} {r : FireRef}

theorem fresh_step (h : p.Fresh) (hs : p.Step e p') : p'.Fresh := by
  intro r slot hr
  cases hs with
  | schedule hn =>
    dsimp only [Service.schedule] at hr ⊢
    split at hr
    · rename_i he
      subst he
      omega
    · exact Nat.lt_succ_of_lt (h r slot hr)
  | refuse => exact Nat.lt_succ_of_lt (h r slot hr)
  | cancel | tick _ _ =>
    dsimp only [Service.drop] at hr
    split at hr
    · cases hr
    · exact h r slot hr

theorem fresh_run (hr : p.Run log p') (h : p.Fresh) : p'.Fresh :=
  GoodRun.invariant (I := Service.Fresh) (fun hf _ hs => fresh_step hf hs) hr h

/-- Nothing is pending that has not been scheduled, and what has been dropped stays so. -/
theorem gone_step (hs : p.Step e p') (ho : r.ticket < p.next) (hg : p.pending r = none) :
    (r.ticket < p'.next ∧ p'.pending r = none) ∧ ∀ s f, e = .ticked s f → r ∉ f := by
  cases hs with
  | schedule hn =>
    refine ⟨⟨Nat.lt_succ_of_lt ho, ?_⟩, by simp⟩
    dsimp only [Service.schedule]
    rw [if_neg]
    · exact hg
    · rintro rfl
      omega
  | refuse => exact ⟨⟨Nat.lt_succ_of_lt ho, hg⟩, by simp⟩
  | cancel => exact ⟨⟨ho, by simp [Service.drop, hg]⟩, by simp⟩
  | tick _ hf =>
    refine ⟨⟨ho, by simp [Service.drop, hg]⟩, ?_⟩
    rintro s f he
    cases he
    rw [hf, hg]
    simp

theorem gone_run (hr : p.Run log p') (ho : r.ticket < p.next) (hg : p.pending r = none) :
    ∀ s f, Event.ticked s f ∈ log → r ∉ f := by
  induction hr with
  | nil => intro s f h; simp at h
  | cons _ hs _ ih =>
  obtain ⟨⟨hold', hgone'⟩, hn⟩ := gone_step hs ho hg
  intro s f h
  rcases List.mem_cons.mp h with h | h
  · exact hn s f h.symm
  · exact ih hold' hgone' s f h

/-- A timer is not fired before it is scheduled. -/
theorem early_run (hrn : p.Run log p') (hfr : p.Fresh) (hl : p'.next ≤ r.ticket) :
    p.next ≤ r.ticket ∧ ∀ s f, Event.ticked s f ∈ log → r ∉ f := by
  induction hrn with
  | nil => exact ⟨hl, fun s f h => by simp at h⟩
  | @cons p p1 _ e _ _ hs _ ih =>
  obtain ⟨hle, hnt⟩ := ih (fresh_step hfr hs) hl
  have hn : p.next ≤ p1.next := by
    cases hs with
    | schedule _ | refuse => exact Nat.le_succ _
    | cancel | tick _ _ => exact Nat.le_refl _
  refine ⟨Nat.le_trans hn hle, fun s f h => ?_⟩
  rcases List.mem_cons.mp h with h | h
  · subst h
    cases hs with
    | tick _ hf =>
      intro hr
      have := hfr r s ((hf r).mp hr)
      omega
  · exact hnt s f h

/-- A timer stays pending until it is cancelled or its slot is ticked. -/
theorem pending_step (hs : p.Step e p') (hfr : p.Fresh) (hp : p.pending r = some slot)
    (hc : e ≠ .cancelled r.ticket) (ht : ∀ f, e ≠ .ticked slot f) :
    p'.pending r = some slot ∧ ∀ s f, e = .ticked s f → r ∉ f := by
  cases hs with
  | schedule hn =>
    refine ⟨?_, by simp⟩
    dsimp only [Service.schedule]
    rw [if_neg]
    · exact hp
    · rintro rfl
      have := hfr r slot hp
      omega
  | refuse => exact ⟨hp, by simp⟩
  | @cancel t =>
    refine ⟨?_, by simp⟩
    have hne : r.ticket ≠ t := fun h => hc (h ▸ rfl)
    simp [Service.drop, hne, hp]
  | @tick s fired _ hf =>
    have hne : slot ≠ s := by
      rintro rfl
      exact ht fired rfl
    refine ⟨by simp [Service.drop, hp, hne], ?_⟩
    rintro s' f he
    cases he
    rw [hf, hp]
    simpa using hne

theorem pending_run (hrn : p.Run log p') (hf : p.Fresh) (hp : p.pending r = some slot)
    (hc : Event.cancelled r.ticket ∉ log) (ht : ∀ f, Event.ticked slot f ∉ log) :
    p'.pending r = some slot ∧ ∀ s f, Event.ticked s f ∈ log → r ∉ f := by
  induction hrn with
  | nil => exact ⟨hp, fun s f h => by simp at h⟩
  | cons _ hs _ ih =>
  simp only [List.mem_cons, not_or] at hc ht
  obtain ⟨hpending', hn⟩ := pending_step hs hf hp (Ne.symm hc.1) (fun f he => (ht f).1 he.symm)
  obtain ⟨hen, hr⟩ := ih (fresh_step hf hs) hpending' hc.2 (fun f => (ht f).2)
  refine ⟨hen, fun s f h => ?_⟩
  rcases List.mem_cons.mp h with h | h
  · exact hn s f h.symm
  · exact hr s f h

/-- **The promise of the service.** -/
theorem firesOnce_of_run (hrn : Service.empty.Run log p) : FiresOnce log := by
  rintro r slot before between fired after rfl ht hc
  obtain ⟨p1, hbf, hr⟩ := GoodRun.split hrn
  cases hr with
  | cons _ hs hr =>
  obtain ⟨p3, hb, hr⟩ := GoodRun.split hr
  have hf1 := fresh_run hbf fresh_empty
  cases hr with
  | cons _ hfr ha =>
  have hf2 := fresh_step hf1 hs
  cases hs with
  | schedule hnw =>
  obtain ⟨_, he⟩ := early_run hbf fresh_empty (Nat.le_of_eq hnw.symm)
  have hin : (p1.schedule r slot).pending r = some slot := by simp [Service.schedule]
  obtain ⟨hp, hm⟩ := pending_run hb hf2 hin hc ht
  have ho := fresh_run hb hf2 r slot hp
  cases hfr with
  | tick hn hf =>
  have hg := gone_run ha (r := r) ho (by simp [Service.drop, hp])
  refine ⟨List.count_eq_one_of_mem hn ((hf r).mpr hp), ?_⟩
  rintro s f (h | h | h)
  · exact he s f h
  · exact hm s f h
  · exact hg s f h

end Rah.Timer
