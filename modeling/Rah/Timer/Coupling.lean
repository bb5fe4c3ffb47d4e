import Rah.Timer.Wheel
import Mathlib.Data.List.Perm.Subperm

/-!
# The wheel and the service

The wheel is related to the service by `Coupled`: every pending timer stands at the slot and
position of its handle with its reference armed, and nothing else is armed or placed. A tick
takes the positions below a count one by one, and an entry that is released - by a tick or by
a cancellation - leaves the relation intact for the others.
-/

namespace Rah.Timer

open Rah.Lib List Wheel

/-! ## Entries -/

/-- The free ring holds unused indices, each once. -/
def FreeOk (w : Wheel) : Prop :=
  ∃ q, w.freeRing.Holds entryBits q ∧ q.Nodup
    ∧ ∀ idx ∈ q, 0 < idx ∧ idx < maxWheelEntries ∧ w.fire idx = none

/-- The wheel holds the pending timers and nothing else, at positions below `lim`. -/
structure Coupled (p : Service) (w : Wheel) (handles : Nat → Option WheelHandle)
    (lim : Nat → Nat) : Prop where
  timer : ∀ r slot, p.pending r = some slot → ∃ idx pos,
    handles r.ticket = some ⟨idx, slot, pos⟩ ∧ w.fire idx = some r ∧ w.cancelled idx = false
      ∧ pos < lim slot ∧ (w.slots slot).buf pos = idx ∧ 0 < idx ∧ idx < maxWheelEntries
  armed : ∀ idx r, w.fire idx = some r → ∃ slot pos,
    p.pending r = some slot ∧ handles r.ticket = some ⟨idx, slot, pos⟩
  placed : ∀ slot pos, pos < lim slot → (w.slots slot).buf pos ≠ 0 → ∃ r,
    w.fire ((w.slots slot).buf pos) = some r
      ∧ handles r.ticket = some ⟨(w.slots slot).buf pos, slot, pos⟩
  free : FreeOk w

variable {p : Service} {w : Wheel} {handles : Nat → Option WheelHandle} {lim : Nat → Nat}
  {r : FireRef} {idx slot pos : Nat}

/-- The entry of an armed reference, in full. -/
theorem Coupled.entry (h : Coupled p w handles lim) (hf : w.fire idx = some r)
    (hh : handles r.ticket = some ⟨idx, slot, pos⟩) :
    p.pending r = some slot ∧ w.cancelled idx = false ∧ pos < lim slot
      ∧ (w.slots slot).buf pos = idx ∧ 0 < idx ∧ idx < maxWheelEntries := by
  obtain ⟨slot', pos', hp, hhandle'⟩ := h.armed idx r hf
  rw [hh] at hhandle'
  obtain ⟨_, rfl, rfl⟩ := hhandle'
  obtain ⟨idx', pos', hhandle'', _, hr⟩ := h.timer r slot hp
  rw [hh] at hhandle''
  obtain ⟨rfl, _, rfl⟩ := hhandle''
  exact ⟨hp, hr⟩

/-- There is always room for an index that is not in the free ring. -/
theorem enqueue_free {r : SeqRing Nat} {q : List Nat} (idx : Nat) (h : r.Holds entryBits q)
    (hn : q.Nodup) (hin : ∀ i ∈ q, 0 < i ∧ i < maxWheelEntries) :
    ∃ r', r.enqueue entryBits idx = some (true, r') ∧ r'.Holds entryBits (q ++ [idx]) := by
  refine SeqRing.enqueue_holds (by decide) h ?_ idx
  have hs : q.Subperm freeIndices := by
    refine hn.subperm (fun i hi => ?_)
    obtain ⟨hp, hlt⟩ := hin i hi
    exact mem_range'_1.mpr ⟨hp, by omega⟩
  have hle := hs.length_le
  rw [freeIndices, length_range'] at hle
  exact Nat.lt_of_le_of_lt hle (by decide)

theorem released_buf : ((w.released slot pos idx free).slots i).buf j
    = if i = slot ∧ j = pos then 0 else (w.slots i).buf j := by
  by_cases hi : i = slot <;>
    simp [released, setSlot, setFire, WheelSlot.setBuf, hi]

@[simp] theorem released_fire :
    (w.released slot pos idx free).fire i = if i = idx then none else w.fire i := rfl

@[simp] theorem released_writePos :
    ((w.released slot pos idx free).slots i).writePos = (w.slots i).writePos := by
  by_cases hi : i = slot <;>
    simp [released, setSlot, setFire, WheelSlot.setBuf, hi]

@[simp] theorem released_posRing :
    ((w.released slot pos idx free).slots i).posRing = (w.slots i).posRing := by
  by_cases hi : i = slot <;>
    simp [released, setSlot, setFire, WheelSlot.setBuf, hi]

theorem drop_eq_some {gone : FireRef → Bool} :
    (p.drop gone).pending r = some slot ↔ gone r = false ∧ p.pending r = some slot := by
  unfold Service.drop
  cases hg : gone r with
  | true | false => simp [hg]

/-- **An entry is released.** Its timer is dropped, and the others stay where they are. -/
theorem Coupled.release (h : Coupled p w handles lim) (hfr : w.fire idx = some r)
    (hhn : handles r.ticket = some ⟨idx, slot, pos⟩) :
    ∃ free, w.release slot pos idx = some (w.released slot pos idx free)
      ∧ Coupled (p.drop (fun x => x = r)) (w.released slot pos idx free) handles lim := by
  obtain ⟨q, hh, hn, hin⟩ := h.free
  obtain ⟨_, _, _, hb, hps, hlt⟩ := h.entry hfr hhn
  have hnw : idx ∉ q := by
    intro hm
    rw [(hin idx hm).2.2] at hfr
    cases hfr
  obtain ⟨free, he, hf⟩ := enqueue_free idx hh hn (fun i hi => ⟨(hin i hi).1, (hin i hi).2.1⟩)
  refine ⟨free, by rw [Wheel.release, he], ?_, ?_, ?_, ?_⟩
  · intro r' slot' hp
    rw [drop_eq_some, decide_eq_false_iff_not] at hp
    obtain ⟨hne, hp⟩ := hp
    obtain ⟨idx', pos', hhandle', hfire', hc, hl, hbuf', hr⟩ := h.timer r' slot' hp
    have hid : idx' ≠ idx := by
      rintro rfl
      exact hne (Option.some.inj (hfire'.symm.trans hfr))
    refine ⟨idx', pos', hhandle', ?_, hc, hl, ?_, hr⟩
    · rw [released_fire, if_neg hid]
      exact hfire'
    rw [released_buf, if_neg]
    · exact hbuf'
    · rintro ⟨rfl, rfl⟩
      exact hid (hbuf'.symm.trans hb)
  · intro idx' r' hfire'
    rw [released_fire] at hfire'
    split at hfire'
    · cases hfire'
    rename_i hid
    obtain ⟨slot', pos', hp, hhandle'⟩ := h.armed idx' r' hfire'
    refine ⟨slot', pos', ?_, hhandle'⟩
    rw [drop_eq_some, decide_eq_false_iff_not]
    refine ⟨?_, hp⟩
    rintro rfl
    rw [hhn, Option.some.injEq, WheelHandle.mk.injEq] at hhandle'
    exact hid hhandle'.1.symm
  · intro slot' pos' hl hne
    rw [released_buf] at hne ⊢
    split at hne
    · exact absurd rfl hne
    rename_i ho
    rw [if_neg ho]
    obtain ⟨r', hfire', hhandle'⟩ := h.placed slot' pos' hl hne
    refine ⟨r', ?_, hhandle'⟩
    rw [released_fire, if_neg]
    · exact hfire'
    -- the entry released stands at its own position only
    intro hid
    rw [hid, hfr, Option.some.injEq] at hfire'
    subst hfire'
    rw [hhn, Option.some.injEq, WheelHandle.mk.injEq] at hhandle'
    exact ho ⟨hhandle'.2.1.symm, hhandle'.2.2.symm⟩
  · refine ⟨q ++ [idx], hf, nodup_append_comm.mp (nodup_cons.mpr ⟨hnw, hn⟩), fun i hi => ?_⟩
    rw [released_fire]
    rcases mem_append.mp hi with hi | hi
    · obtain ⟨h1, h2, h3⟩ := hin i hi
      exact ⟨h1, h2, by rw [h3, ite_self]⟩
    · rw [mem_singleton] at hi
      subst hi
      exact ⟨hps, hlt, if_pos rfl⟩

/-! ## A tick -/

/-- The relation reads the armed references, the flags, the buffers and the free ring. -/
theorem Coupled.congr (h : Coupled p w handles lim) (hf : w'.fire = w.fire)
    (hc : w'.cancelled = w.cancelled) (hfr : w'.freeRing = w.freeRing)
    (hb : ∀ i, (w'.slots i).buf = (w.slots i).buf) : Coupled p w' handles lim := by
  refine ⟨?_, ?_, ?_, ?_⟩
  · intro r slot hp
    rw [hf, hc, hb]
    exact h.timer r slot hp
  · intro idx r hr
    rw [hf] at hr
    exact h.armed idx r hr
  · intro slot pos hl hne
    rw [hb] at hne ⊢
    rw [hf]
    exact h.placed slot pos hl hne
  · unfold FreeOk
    rw [hf, hfr]
    exact h.free

/-- The state of a tick of the slot, when the positions below `i` are done. The ring of the slot
held `q` before. -/
structure Ticking (p : Service) (w₀ : Wheel) (handles : Nat → Option WheelHandle)
    (lim : Nat → Nat) (slot : Nat) (q : List Nat) (i : Nat) (p' : Service) (w : Wheel)
    (fired : List FireRef) : Prop where
  coupled : Coupled p' w handles lim
  done : ∀ j, j < i → (w.slots slot).buf j = 0
  ring : (w.slots slot).posRing.Holds slotBits (q ++ List.range i)
  nodup : fired.Nodup
  next : p'.next = p.next
  /-- The fired timers are those of the slot that are no longer pending. -/
  fired : ∀ r, r ∈ fired ↔ p.pending r = some slot ∧ p'.pending r = none
  /-- No other timer is touched. -/
  kept : ∀ r, p'.pending r = p.pending r ∨ (p.pending r = some slot ∧ p'.pending r = none)
  writePos : ∀ j, (w.slots j).writePos = (w₀.slots j).writePos
  others : ∀ j, j ≠ slot → (w.slots j).posRing = (w₀.slots j).posRing
  current : w.current = w₀.current

section Tick

variable {p : Service} {w₀ : Wheel} {handles : Nat → Option WheelHandle} {lim : Nat → Nat}
  {slot : Nat} {q : List Nat}

/-- The position is given back to the ring. -/
theorem recyclePos_ticking (h : Ticking p w₀ handles lim slot q i p' w fired)
    (hz : (w.slots slot).buf i = 0) (hrm : q.length + i < maxPerSlot) :
    ∃ w', recyclePos slot w i = some w' ∧ Ticking p w₀ handles lim slot q (i + 1) p' w' fired := by
  obtain ⟨ring, he, hr⟩ := SeqRing.enqueue_holds (by decide) h.ring
    (by rw [length_append, length_range]; exact hrm) i
  refine ⟨_, by rw [recyclePos, he], ?_⟩
  have hs : ∀ j, (w.setSlot slot { w.slots slot with posRing := ring }).slots j
      = { w.slots j with posRing := if j = slot then ring else (w.slots j).posRing } := by
    intro j
    by_cases hj : j = slot <;> simp [setSlot, hj]
  refine ⟨h.coupled.congr rfl rfl rfl fun j => by rw [hs], ?_, ?_, h.nodup, h.next, h.fired, h.kept,
    ?_, ?_, h.current⟩
  · intro j hj
    rw [hs]
    rcases Nat.lt_succ_iff_lt_or_eq.mp hj with hlt | rfl
    · exact h.done j hlt
    · exact hz
  · rw [hs, if_pos rfl, range_succ, ← append_assoc]
    exact hr
  · intro j
    rw [hs]
    exact h.writePos j
  · intro j hj
    rw [hs, if_neg hj]
    exact h.others j hj

/-- The entry at a position is fired, if there is one. -/
theorem tickEntry_ticking (h : Ticking p w₀ handles lim slot q i p' w fired) (hi : i < lim slot) :
    ∃ p'' w' fired', tickEntry slot w fired i = some (w', fired')
      ∧ Ticking p w₀ handles lim slot q i p'' w' fired' ∧ (w'.slots slot).buf i = 0 := by
  by_cases hz : (w.slots slot).buf i = 0
  · refine ⟨p', w, fired, ?_, h, hz⟩
    unfold tickEntry
    rw [if_pos hz]
  obtain ⟨r, hf, hh⟩ := h.coupled.placed slot i hi hz
  obtain ⟨hp, hc, _⟩ := h.coupled.entry hf hh
  obtain ⟨free, hrl, hcp⟩ := h.coupled.release hf hh
  -- the timer was pending when the tick began
  have hb : p.pending r = some slot := by
    rcases h.kept r with hk | ⟨hk, _⟩
    · rw [← hk]
      exact hp
    · exact hk
  have hn : r ∉ fired := by
    intro hr
    rw [((h.fired r).mp hr).2] at hp
    cases hp
  have hd : ∀ x, (p'.drop (fun x => x = r)).pending x = if x = r then none else p'.pending x := by
    intro x
    simp [Service.drop]
  refine ⟨p'.drop (fun x => x = r), w.released slot i ((w.slots slot).buf i) free,
    fired ++ [r], ?_, ?_, ?_⟩
  · unfold tickEntry
    rw [if_neg hz, hf]
    rw [hrl, hc]
    rfl
  · refine ⟨hcp, ?_, ?_, ?_, h.next, ?_, ?_, ?_, ?_, h.current⟩
    · intro j hj
      rw [released_buf]
      split
      · rfl
      · exact h.done j hj
    · rw [released_posRing]
      exact h.ring
    · exact nodup_append_comm.mp (nodup_cons.mpr ⟨hn, h.nodup⟩)
    · intro x
      rw [mem_append, hd, h.fired x]
      by_cases hx : x = r
      · subst hx
        simp [hb]
      · simp [hx]
    · intro x
      rw [hd]
      by_cases hx : x = r
      · subst hx
        rw [if_pos rfl]
        exact .inr ⟨hb, rfl⟩
      · rw [if_neg hx]
        exact h.kept x
    · intro j
      rw [released_writePos]
      exact h.writePos j
    · intro j hj
      rw [released_posRing]
      exact h.others j hj
  · rw [released_buf, if_pos ⟨rfl, rfl⟩]

/-- **The loop of a tick.** -/
theorem foldlM_tickPos (hrm : q.length + lim slot ≤ maxPerSlot) (n i : Nat) (hn : i + n = lim slot)
    (h : Ticking p w₀ handles lim slot q i p' w fired) :
    ∃ p'' w' fired', (range' i n).foldlM (tickPos slot) (w, fired) = some (w', fired')
      ∧ Ticking p w₀ handles lim slot q (i + n) p'' w' fired' := by
  induction n generalizing i p' w fired with
  | zero => exact ⟨p', w, fired, rfl, h⟩
  | succ n ih =>
  obtain ⟨p1, w₁, fired1, he, h₁, hz⟩ := tickEntry_ticking h (by omega)
  obtain ⟨w₂, hr, h₂⟩ := recyclePos_ticking h₁ hz (by omega)
  have hp : tickPos slot (w, fired) i = some (w₂, fired1) := by
    rw [tickPos, he]
    dsimp only
    rw [hr]
    rfl
  obtain ⟨p3, w₃, fired3, hl, h₃⟩ := ih (i + 1) (by omega) h₂
  refine ⟨p3, w₃, fired3, ?_, ?_⟩
  · rw [range'_succ, foldlM_cons, hp]
    exact hl
  · rw [show i + (n + 1) = i + 1 + n by omega]
    exact h₃

end Tick

end Rah.Timer
