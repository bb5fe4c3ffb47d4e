import Rah.Timer.Coupling

/-!
# Every timer fires

Each call keeps the relation between the wheel and the service, as long as the calls are
`Calm`. A tick counts fresh positions only, so a timer that was given a recycled position is
not seen by the next tick of its slot, and the fresh positions of the next second run over
it; and a handle whose timer has fired names an entry that may belong to another timer by
now.
-/

namespace Rah.Timer

open Rah.Lib List Option SeqRing Wheel WheelSlot

/-! ## Calls -/

/-- Positions are fresh or recycled: the ring of a slot is empty while its counter is not. -/
def SlotOk (s : WheelSlot) : Prop :=
  s.writePos ≤ maxPerSlot ∧ ∃ q, s.posRing.Holds slotBits q ∧ (q ≠ [] → s.writePos = 0)

theorem SlotOk.congr {s s' : WheelSlot} (h : SlotOk s) (hw : s'.writePos = s.writePos)
    (hr : s'.posRing = s.posRing) : SlotOk s' := by
  rw [SlotOk, hw, hr]
  exact h

/-- The wheel stands for the service. -/
structure Rel (p : Service) (s : State) : Prop where
  next : p.next = s.next
  known : ∀ t h, s.handles t = some h → t < s.next
  coupled : Coupled p s.wheel s.handles (fun i => (s.wheel.slots i).writePos)
  slots : ∀ i, SlotOk (s.wheel.slots i)

variable {p : Service} {w : Wheel} {handles : Nat → Option WheelHandle} {lim : Nat → Nat}
  {s : State} {r : FireRef} {idx slot pos : Nat} {free : SeqRing Nat}

/-- Positions without a pending timer need not be counted. -/
theorem Coupled.relim (h : Coupled p w handles lim)
    (hk : ∀ r slot, p.pending r = some slot → lim' slot = lim slot)
    (hle : ∀ slot, lim' slot ≤ lim slot) : Coupled p w handles lim' := by
  refine ⟨?_, h.armed, ?_, h.free⟩
  · intro r slot hp
    rw [hk r slot hp]
    exact h.timer r slot hp
  · intro slot pos hl hne
    exact h.placed slot pos (Nat.lt_of_lt_of_le hl (hle slot)) hne

/-- A timer without an armed reference is not pending. -/
theorem Coupled.idle (h : Coupled p w handles lim)
    (hno : ∀ hd, handles r.ticket = some hd → w.fire hd.idx ≠ some r) : p.pending r = none := by
  cases hp : p.pending r with
  | none => rfl
  | some slot =>
    obtain ⟨idx, pos, hh, hf, _⟩ := h.timer r slot hp
    exact absurd hf (hno _ hh)

theorem eq_drop {p' : Service} {gone : FireRef → Bool} (hn : p'.next = p.next)
    (hg : ∀ r, gone r = true → p'.pending r = none)
    (hk : ∀ r, gone r = false → p'.pending r = p.pending r) : p' = p.drop gone := by
  obtain ⟨next, pending⟩ := p'
  obtain rfl : next = p.next := hn
  refine congrArg (Service.mk p.next) (funext fun r => ?_)
  cases hr : gone r with
  | true => exact hg r hr
  | false => exact hk r hr

/-- **A tick fires what is pending in its slot.** -/
theorem tick_step (h : Rel p s) :
    ∃ s' e p', s.tick = some s' ∧ p.Step e p' ∧ Rel p' s' ∧ s'.log = s.log ++ [e] := by
  obtain ⟨slot, hsl⟩ : ∃ slot, (s.wheel.current + 1) % wheelSize = slot := ⟨_, rfl⟩
  obtain ⟨hle, q, hq, he⟩ := h.slots slot
  have hrm : q.length + (s.wheel.slots slot).writePos ≤ maxPerSlot := by
    by_cases hnl : q = []
    · rw [hnl, length_nil, Nat.zero_add]
      exact hle
    · obtain ⟨d, hd⟩ := hq
      rw [he hnl]
      exact hd.fits
  -- the wheel the loop starts from
  obtain ⟨w, hw⟩ : ∃ w, { s.wheel with current := slot }.setSlot slot
      { s.wheel.slots slot with writePos := 0 } = w := ⟨_, rfl⟩
  have hs : ∀ i, w.slots i = { s.wheel.slots i with
      writePos := if i = slot then 0 else (s.wheel.slots i).writePos } := by
    intro i
    rw [← hw]
    by_cases hi : i = slot <;> simp [setSlot, hi]
  have hb : Ticking p w s.handles (fun i => (s.wheel.slots i).writePos) slot q 0 p w [] := by
    refine ⟨?_, fun j hj => absurd hj (by omega), ?_, nodup_nil, rfl, ?_,
      fun r => .inl rfl, fun _ => rfl, fun _ _ => rfl, rfl⟩
    · exact h.coupled.congr (by rw [← hw]; rfl) (by rw [← hw]; rfl) (by rw [← hw]; rfl)
        (fun i => by rw [hs])
    · rw [hs, range_zero, append_nil]
      exact hq
    intro r
    simp only [not_mem_nil, false_iff, not_and]
    intro hr
    rw [hr]
    simp
  obtain ⟨p', w', fired, hl, hen⟩ := foldlM_tickPos hrm _ 0 (Nat.zero_add _) hb
  rw [Nat.zero_add] at hen
  -- nothing is left in the slot
  have hn : ∀ r, p.pending r = some slot → p'.pending r = none := by
    intro r hr
    rcases hen.kept r with hk | ⟨_, hk⟩
    · rw [hr] at hk
      obtain ⟨idx, pos, _, _, _, hlm, hat, hp, _⟩ := hen.coupled.timer r slot hk
      rw [hen.done pos hlm] at hat
      omega
    · exact hk
  have hdr : p' = p.drop (fun x => p.pending x = some slot) := by
    refine eq_drop hen.next (fun r hr => hn r (of_decide_eq_true hr)) (fun r hr => ?_)
    exact (hen.kept r).resolve_right (fun hk => of_decide_eq_false hr hk.1)
  have hwr : ∀ i, (w'.slots i).writePos = if i = slot then 0 else (s.wheel.slots i).writePos := by
    intro i
    rw [hen.writePos, hs]
  refine ⟨{ s with wheel := w', log := s.log ++ [.ticked slot fired] }, .ticked slot fired, p', ?_,
    ?_, ⟨hen.next.trans h.next, h.known, ?_, ?_⟩, rfl⟩
  · unfold State.tick wheelTick
    dsimp only
    rw [hsl, hw, range_eq_range', hl]
  · rw [hdr]
    refine .tick hen.nodup (fun r => ?_)
    rw [hen.fired]
    exact ⟨fun hr => hr.1, fun hr => ⟨hr, hn r hr⟩⟩
  · refine hen.coupled.relim ?_ ?_
    · intro r slot' hr
      rw [hwr, if_neg]
      rintro rfl
      have hg := hn r ((hen.kept r).elim (fun hk => hk ▸ hr) And.left)
      rw [hg] at hr
      cases hr
    · intro i
      rw [hwr]
      split <;> omega
  · intro i
    by_cases hi : i = slot
    · subst hi
      have hz : (w'.slots i).writePos = 0 := by rw [hwr, if_pos rfl]
      exact ⟨hz ▸ Nat.zero_le _, _, hen.ring, fun _ => hz⟩
    · exact (h.slots i).congr (by rw [hwr, if_neg hi]) (by rw [hen.others i hi, hs])

/-- Dropping by number drops the one timer that has it. -/
theorem drop_ticket (h : Coupled p w handles lim) (hfr : w.fire idx = some r)
    (hh : handles r.ticket = some ⟨idx, slot, pos⟩) :
    p.drop (fun x => x.ticket = r.ticket) = p.drop (fun x => x = r) := by
  refine eq_drop rfl (fun x hx => ?_) (fun x hx => ?_)
  · simp [Service.drop, of_decide_eq_true hx]
  by_cases ht : x.ticket = r.ticket
  · -- a pending timer with this number would stand at the same entry
    have hn : p.pending x = none := by
      refine h.idle (fun hd hhd hf => of_decide_eq_false hx ?_)
      rw [ht, hh] at hhd
      cases hhd
      exact Option.some.inj (hf.symm.trans hfr)
    simp [Service.drop, hn]
  · simp [Service.drop, ht]

/-- A cancellation that finds no reference changes a flag nobody reads. -/
theorem Coupled.setCancelled (h : Coupled p w handles lim) (hf : w.fire idx = none) :
    Coupled p (w.setCancelled idx true) handles lim := by
  refine ⟨?_, h.armed, h.placed, h.free⟩
  intro r slot hp
  obtain ⟨idx', pos, hh, hfire', hc, hr⟩ := h.timer r slot hp
  refine ⟨idx', pos, hh, hfire', ?_, hr⟩
  have hne : idx' ≠ idx := by
    rintro rfl
    rw [hf] at hfire'
    cases hfire'
  simp [Wheel.setCancelled, hne, hc]

/-- An entry keeps its place when its flag is set and it is released at once. -/
theorem Coupled.cancel (h : Coupled p w handles lim) (hfr : w.fire idx = some r)
    (hh : handles r.ticket = some ⟨idx, slot, pos⟩) :
    ∃ free, (w.setCancelled idx true).release slot pos idx
        = some ((w.setCancelled idx true).released slot pos idx free)
      ∧ Coupled (p.drop (fun x => x = r))
          ((w.setCancelled idx true).released slot pos idx free) handles lim := by
  obtain ⟨free, hr, hc⟩ := h.release hfr hh
  have hs : (w.released slot pos idx free).fire idx = none := by
    rw [released_fire, if_pos rfl]
  refine ⟨free, ?_, hc.setCancelled hs⟩
  unfold Wheel.release at hr ⊢
  cases he : w.freeRing.enqueue entryBits idx with
  | none =>
    rw [he] at hr
    cases hr
  | some r' =>
  rw [he] at hr
  have hf : r'.2 = free := congrArg freeRing (some.inj hr)
  rw [← hf]
  simp only [Wheel.setCancelled, he]

/-- A timer that is not armed is not there to be dropped. -/
theorem Coupled.drop_idle (h : Coupled p w handles lim)
    (hno : ∀ hd r, handles t = some hd → w.fire hd.idx ≠ some r) :
    p.drop (fun x => x.ticket = t) = p := by
  refine (eq_drop rfl (fun r hr => h.idle fun hd hhd => hno hd r ?_) (fun _ _ => rfl)).symm
  rwa [of_decide_eq_true hr] at hhd

/-- A cancellation through a handle, as long as the entry of the handle is not another's. -/
theorem Coupled.cancels (h : Coupled p w handles lim) (hh : handles t = some hd)
    (ho : ∀ r, w.fire hd.idx = some r → r.ticket = t) :
    ∃ w', w.cancel hd = some w' ∧ Coupled (p.drop (fun x => x.ticket = t)) w' handles lim
      ∧ ∀ i, (w'.slots i).writePos = (w.slots i).writePos
        ∧ (w'.slots i).posRing = (w.slots i).posRing := by
  have hsm : (w.setCancelled hd.idx true).fire hd.idx = w.fire hd.idx := rfl
  cases hfr : w.fire hd.idx with
  | none =>
    rw [h.drop_idle (t := t) (fun hd' r hhd hf => by
      cases hh.symm.trans hhd
      rw [hfr] at hf
      cases hf)]
    by_cases hz : hd.idx = 0
    · refine ⟨w, ?_, h, fun _ => ⟨rfl, rfl⟩⟩
      rw [Wheel.cancel, if_pos hz]
    · refine ⟨w.setCancelled hd.idx true, ?_, h.setCancelled hfr, fun _ => ⟨rfl, rfl⟩⟩
      simp only [Wheel.cancel, hz, if_false, hsm, hfr]
  | some r =>
    obtain rfl := ho r hfr
    obtain ⟨free, hrl, hc⟩ := h.cancel hfr hh
    obtain ⟨_, _, _, _, hp, _⟩ := h.entry hfr hh
    have hz : hd.idx ≠ 0 := by omega
    rw [drop_ticket h hfr hh]
    refine ⟨_, ?_, hc, fun _ => ⟨released_writePos, released_posRing⟩⟩
    simp only [Wheel.cancel, hz, if_false, hsm, hfr, hrl]

/-- **A cancellation drops its timer.** -/
theorem cancel_step (h : Rel p s)
    (ho : ∀ hd r, s.handles t = some hd → s.wheel.fire hd.idx = some r → r.ticket = t) :
    ∃ s' e p', step s (.cancel t) = some s' ∧ p.Step e p' ∧ Rel p' s'
      ∧ s'.log = s.log ++ [e] := by
  have hs := Service.Step.cancel (p := p) (t := t)
  cases hh : s.handles t with
  | none =>
    rw [h.coupled.drop_idle (fun hd r hhd => by
      rw [hh] at hhd
      cases hhd)] at hs
    refine ⟨{ s with log := s.log ++ [.cancelled t] }, _, p, ?_, hs,
      ⟨h.next, h.known, h.coupled, h.slots⟩, rfl⟩
    simp only [step, hh]
  | some hd =>
    obtain ⟨w, hw, hc, hk⟩ := h.coupled.cancels hh (fun r => ho hd r hh)
    refine ⟨{ s with wheel := w, log := s.log ++ [.cancelled t] }, _, _, ?_, hs,
      ⟨h.next, h.known, ?_, ?_⟩, rfl⟩
    · simp only [step, hh, hw, map_some]
    · simp only [(hk _).1]
      exact hc
    · exact fun i => (h.slots i).congr (hk i).1 (hk i).2

/-- The wheel with a timer at a position. -/
def Wheel.placed (w : Wheel) (slot : Nat) (s : WheelSlot) (pos idx : Nat) (r : FireRef)
    (free : SeqRing Nat) : Wheel :=
  { ((w.setSlot slot (s.setBuf pos idx)).setCancelled idx false).setFire idx (some r) with
    freeRing := free }

@[simp] theorem placed_fire :
    (w.placed slot sl pos idx r free).fire i = if i = idx then some r else w.fire i := rfl

@[simp] theorem placed_cancelled :
    (w.placed slot sl pos idx r free).cancelled i = if i = idx then false else w.cancelled i := rfl

theorem placed_slots : (w.placed slot sl pos idx r free).slots i
    = if i = slot then sl.setBuf pos idx else w.slots i := rfl

/-- **A timer is placed** at the first position that is not counted yet. -/
theorem Coupled.place (h : Coupled p w handles lim) {q : List Nat} (hn : (idx :: q).Nodup)
    (hin : ∀ i ∈ idx :: q, 0 < i ∧ i < maxWheelEntries ∧ w.fire i = none)
    (hfr : free.Holds entryBits q) (hnw : ∀ t hd, handles t = some hd → t < r.ticket)
    (slot : Nat) {s : WheelSlot} (hb : s.buf = (w.slots slot).buf) :
    Coupled (p.schedule r slot) (w.placed slot s (lim slot) idx r free)
      (fun t => if t = r.ticket then some ⟨idx, slot, lim slot⟩ else handles t)
      (fun i => if i = slot then lim slot + 1 else lim i) := by
  obtain ⟨hps, hlt, hu⟩ := hin idx (by simp)
  have hbuf' : ∀ i j, ((w.placed slot s (lim slot) idx r free).slots i).buf j
      = if i = slot ∧ j = lim slot then idx else (w.slots i).buf j := by
    intro i j
    rw [placed_slots]
    by_cases hi : i = slot
    · subst hi
      simp [setBuf, hb]
    · simp [hi]
  have ho : ∀ r' slot', p.pending r' = some slot' → r'.ticket ≠ r.ticket := by
    intro r' slot' hr'
    obtain ⟨_, _, hh, _⟩ := h.timer r' slot' hr'
    exact Nat.ne_of_lt (hnw _ _ hh)
  refine ⟨?_, ?_, ?_, ?_⟩
  · intro r' slot' hp
    dsimp only [Service.schedule] at hp
    split at hp
    · rename_i hr
      subst hr
      obtain rfl := some.inj hp
      refine ⟨idx, lim slot, if_pos rfl, if_pos rfl, if_pos rfl, ?_, ?_, hps, hlt⟩
      · rw [if_pos rfl]
        omega
      · rw [hbuf', if_pos ⟨rfl, rfl⟩]
    · obtain ⟨idx', pos', hh, hf, hc, hl, hat, hrn⟩ := h.timer r' slot' hp
      have hid : idx' ≠ idx := by
        rintro rfl
        rw [hu] at hf
        cases hf
      refine ⟨idx', pos', ?_, ?_, ?_, ?_, ?_, hrn⟩
      · rw [if_neg (ho r' slot' hp)]
        exact hh
      · rw [placed_fire, if_neg hid]
        exact hf
      · rw [placed_cancelled, if_neg hid]
        exact hc
      · split
        · rename_i hs
          subst hs
          omega
        · exact hl
      · rw [hbuf', if_neg]
        · exact hat
        · rintro ⟨rfl, rfl⟩
          omega
  · intro idx' r' hf
    rw [placed_fire] at hf
    split at hf
    · rename_i hid
      subst hid
      obtain rfl := some.inj hf
      exact ⟨slot, lim slot, by simp [Service.schedule], if_pos rfl⟩
    obtain ⟨slot', pos', hp, hh⟩ := h.armed idx' r' hf
    have hne := ho r' slot' hp
    refine ⟨slot', pos', ?_, by rw [if_neg hne]; exact hh⟩
    dsimp only [Service.schedule]
    rw [if_neg (fun he => hne (congrArg FireRef.ticket he))]
    exact hp
  · intro slot' pos' hl hne
    rw [hbuf'] at hne ⊢
    split
    · rename_i hs
      obtain ⟨rfl, rfl⟩ := hs
      exact ⟨r, if_pos rfl, if_pos rfl⟩
    rename_i hs
    rw [if_neg hs] at hne
    have hlim' : pos' < lim slot' := by
      split at hl
      · rename_i heq
        subst heq
        omega
      · exact hl
    obtain ⟨r', hf, hh⟩ := h.placed slot' pos' hlim' hne
    refine ⟨r', ?_, ?_⟩
    · rw [placed_fire, if_neg]
      · exact hf
      · intro he
        rw [he, hu] at hf
        cases hf
    · rw [if_neg (Nat.ne_of_lt (hnw _ _ hh))]
      exact hh
  · rw [nodup_cons] at hn
    refine ⟨q, hfr, hn.2, fun i hi => ?_⟩
    obtain ⟨h1, h2, h3⟩ := hin i (mem_cons_of_mem _ hi)
    refine ⟨h1, h2, ?_⟩
    rw [placed_fire, if_neg]
    · exact h3
    · rintro rfl
      exact hn.1 hi

/-- **What a scheduling call does** when there is an entry and a position. -/
theorem scheduled_placed (s : State) (r : FireRef) (hs : s.wheel.slotIdx dur = slot)
    (hd : s.wheel.freeRing.dequeue entryBits = some (some idx, free))
    (ht : (s.wheel.slots slot).takePos = some (some pos, t)) (hi : 0 < idx) :
    (s.wheel.schedule r dur).map (s.scheduled r)
      = some { wheel := s.wheel.placed slot t pos idx r free
               next := s.next + 1
               handles := fun t => if t = s.next then some ⟨idx, slot, pos⟩ else s.handles t
               log := s.log ++ [.scheduled r slot] } := by
  rw [schedule, hd]
  dsimp only
  rw [hs, ht]
  rw [map_some, State.scheduled, if_neg (by dsimp only; omega)]
  rfl

/-- Storing the slot that is there changes nothing. -/
theorem setSlot_self (w : Wheel) (i : Nat) : w.setSlot i (w.slots i) = w := by
  have hs : (fun j => if j = i then w.slots i else w.slots j) = w.slots := by
    funext j
    by_cases hj : j = i
    · rw [if_pos hj, hj]
    · rw [if_neg hj]
  unfold setSlot
  rw [hs]

/-- A call that cannot schedule uses up its number. -/
theorem refuse_rel (h : Rel p s) (hc : Coupled p w s.handles (fun i => (w.slots i).writePos))
    (hs : ∀ i, SlotOk (w.slots i)) :
    Rel { p with next := p.next + 1 }
      { s with wheel := w, next := s.next + 1, log := s.log ++ [.refused s.next] } := by
  refine ⟨by rw [h.next], ?_, ⟨hc.timer, hc.armed, hc.placed, hc.free⟩, hs⟩
  intro t hd ht
  exact Nat.lt_succ_of_lt (h.known t hd ht)

/-- **A scheduling call**, when no recycled position is waiting in its slot. -/
theorem schedule_step (r : FireRef) (dur : Int) (h : Rel p s) (htc : r.ticket = s.next)
    (hrn : (s.wheel.slots (s.wheel.slotIdx dur)).posRing.enqPos
      = (s.wheel.slots (s.wheel.slotIdx dur)).posRing.deqPos) :
    ∃ s' e p', (s.wheel.schedule r dur).map (s.scheduled r) = some s' ∧ p.Step e p' ∧ Rel p' s'
      ∧ s'.log = s.log ++ [e] := by
  have hr : p.Step (.refused s.next) { p with next := p.next + 1 } := by
    rw [← h.next]
    exact .refuse
  obtain ⟨q, hq, hn, hin⟩ := h.coupled.free
  cases q with
  | nil =>
    -- the entry pool is exhausted
    refine ⟨_, .refused s.next, _, ?_, hr, refuse_rel h h.coupled h.slots, rfl⟩
    rw [schedule, dequeue_empty (by decide) hq]
    rfl
  | cons idx q =>
  obtain ⟨free, hdq, hf⟩ := dequeue_holds (by decide) hq
  obtain ⟨slot, hs⟩ : ∃ slot, s.wheel.slotIdx dur = slot := ⟨_, rfl⟩
  rw [hs] at hrn
  obtain ⟨hle, qs, hqs, he⟩ := h.slots slot
  obtain rfl := holds_nil_of_pos_eq (by decide) hqs hrn
  have hp := dequeue_empty (by decide) hqs
  have hid := hin idx (by simp)
  by_cases hrm : (s.wheel.slots slot).writePos < maxPerSlot
  · -- a fresh position
    have htk : (s.wheel.slots slot).takePos = some (some (s.wheel.slots slot).writePos,
        { s.wheel.slots slot with writePos := (s.wheel.slots slot).writePos + 1 }) := by
      rw [takePos, hp]
      dsimp only
      rw [if_pos hrm]
    have hnw : ∀ t hd, s.handles t = some hd → t < r.ticket := by
      rw [htc]
      exact h.known
    have hb : { s.wheel.slots slot with
        writePos := (s.wheel.slots slot).writePos + 1 }.buf = (s.wheel.slots slot).buf := rfl
    have hc := h.coupled.place hn hin hf hnw slot hb
    refine ⟨{ wheel := s.wheel.placed slot
                { s.wheel.slots slot with writePos := (s.wheel.slots slot).writePos + 1 }
                (s.wheel.slots slot).writePos idx r free
              next := s.next + 1
              handles := fun t => if t = s.next then
                some ⟨idx, slot, (s.wheel.slots slot).writePos⟩ else s.handles t
              log := s.log ++ [.scheduled r slot] },
      .scheduled r slot, p.schedule r slot, ?_, .schedule (htc.trans h.next.symm), ?_, rfl⟩
    · exact scheduled_placed s r hs hdq htk hid.1
    refine ⟨congrArg (· + 1) h.next, ?_, ?_, ?_⟩
    · intro t hd ht
      dsimp only at ht ⊢
      split at ht
      · omega
      · exact Nat.lt_succ_of_lt (h.known t hd ht)
    · rw [htc] at hc
      refine hc.relim ?_ ?_
      · intro _ i _
        rw [placed_slots]
        split <;> rfl
      intro i
      rw [placed_slots]
      split
      · exact Nat.le_refl _
      · omega
    · intro i
      rw [placed_slots]
      split
      · exact ⟨hrm, [], hqs, fun hne => absurd rfl hne⟩
      · exact h.slots i
  · -- the slot is full
    have htk : (s.wheel.slots slot).takePos = some (none, s.wheel.slots slot) := by
      rw [takePos, hp]
      dsimp only
      rw [if_neg hrm]
    obtain ⟨free', hen, hfree'⟩ := enqueue_free idx hf hn.of_cons
      (fun i hi => ⟨(hin i (by simp [hi])).1, (hin i (by simp [hi])).2.1⟩)
    have hfo : FreeOk { s.wheel with freeRing := free' } := by
      refine ⟨q ++ [idx], hfree', nodup_append_comm.mp hn, fun i hi => hin i ?_⟩
      rw [mem_append, mem_singleton] at hi
      exact mem_cons.mpr hi.symm
    have hrl := refuse_rel h (w := { s.wheel with freeRing := free' })
      ⟨h.coupled.timer, h.coupled.armed, h.coupled.placed, hfo⟩ h.slots
    refine ⟨_, .refused s.next, _, ?_, hr, hrl, rfl⟩
    rw [schedule, hdq]
    dsimp only
    rw [hs, htk]
    dsimp only
    rw [hen, setSlot_self]
    rfl

/-! ## Every sequence of calls -/

/-- No position of the slot waits to be reused when a timer is scheduled, and the entry of a
handle that is cancelled does not belong to another timer. -/
def Calm (s : State) : Act → Prop
  | .scheduleBody _ dur =>
    (s.wheel.slots (s.wheel.slotIdx dur)).posRing.enqPos
      = (s.wheel.slots (s.wheel.slotIdx dur)).posRing.deqPos
  | .scheduleCtx _ _ dur =>
    (s.wheel.slots (s.wheel.slotIdx dur)).posRing.enqPos
      = (s.wheel.slots (s.wheel.slotIdx dur)).posRing.deqPos
  | .cancel t => ∀ hd r, s.handles t = some hd → s.wheel.fire hd.idx = some r → r.ticket = t
  | .tick => True

/-- **A calm call returns**, and the service can do what the wheel has done. -/
theorem calm_step (h : Rel p s) (hc : Calm s a) :
    ∃ s' e p', step s a = some s' ∧ p.Step e p' ∧ Rel p' s' ∧ s'.log = s.log ++ [e] := by
  cases a with
  | scheduleBody body dur => exact schedule_step ⟨s.next, .body body⟩ dur h rfl hc
  | scheduleCtx ctx gen dur => exact schedule_step ⟨s.next, .ctx ctx gen⟩ dur h rfl hc
  | cancel t => exact cancel_step h hc
  | tick => exact tick_step h

theorem holds_pushFree {l q : List Nat} {r : SeqRing Nat} (h : r.Holds entryBits q)
    (hl : q.length + l.length ≤ 2 ^ entryBits) : (l.foldl pushFree r).Holds entryBits (q ++ l) := by
  induction l generalizing q r with
  | nil =>
    rw [append_nil]
    exact h
  | cons i l ih =>
  rw [length_cons] at hl
  obtain ⟨r', he, hr'⟩ := enqueue_holds (by decide) h (by omega) i
  have hr := ih hr' (by
    rw [length_append, length_singleton]
    omega)
  rw [foldl_cons, pushFree, he]
  rwa [append_assoc, singleton_append] at hr

/-- The free ring starts with every index. -/
theorem holds_freeRing (current : Nat) :
    (start current).wheel.freeRing.Holds entryBits freeIndices := by
  have hs := holds_pushFree (l := freeIndices) (holds_new entryBits 0) (by
    rw [freeIndices, length_range']
    decide)
  dsimp only [start, startTimerWheel]
  exact hs

theorem rel_start (current : Nat) : Rel Service.empty (start current) := by
  refine ⟨rfl, ?_, ⟨?_, ?_, ?_, ?_⟩, ?_⟩
  · nofun
  · nofun
  · nofun
  · intro slot pos h
    exact absurd h (Nat.not_lt_zero _)
  · refine ⟨freeIndices, holds_freeRing current, nodup_range', ?_⟩
    intro idx hi
    rw [freeIndices, mem_range'_1] at hi
    refine ⟨hi.1, ?_, rfl⟩
    omega
  · intro i
    exact ⟨Nat.zero_le _, [], holds_new slotBits 0, fun hne => absurd rfl hne⟩

/-! ## A lap without new timers -/

/-- A tick of a slot without fresh positions fires nothing. -/
theorem tick_idle (h : ∀ i, (s.wheel.slots i).writePos = 0) : s.tick = some { s with
      wheel := { s.wheel with current := (s.wheel.current + 1) % wheelSize }
      log := s.log ++ [.ticked ((s.wheel.current + 1) % wheelSize) []] } := by
  obtain ⟨slot, hs⟩ : ∃ slot, (s.wheel.current + 1) % wheelSize = slot := ⟨_, rfl⟩
  have hsm : { s.wheel.slots slot with writePos := 0 } = s.wheel.slots slot := by
    rw [← h slot]
  have hst := setSlot_self { s.wheel with current := slot } slot
  unfold State.tick wheelTick
  dsimp only at hst ⊢
  rw [hs, hsm, hst, h slot]
  rfl

/-- So do many of them, as long as nothing is scheduled. -/
theorem ticks_idle (n : Nat) (h : ∀ i, (s.wheel.slots i).writePos = 0) :
    ∃ s', (replicate n Act.tick).foldlM step s = some s'
      ∧ s'.log = s.log
        ++ (range n).map (fun i => .ticked ((s.wheel.current + i + 1) % wheelSize) []) := by
  induction n generalizing s with
  | zero => exact ⟨s, rfl, (append_nil _).symm⟩
  | succ n ih =>
  obtain ⟨s', hr, hl⟩ := ih (s := { s with
    wheel := { s.wheel with current := (s.wheel.current + 1) % wheelSize }
    log := s.log ++ [.ticked ((s.wheel.current + 1) % wheelSize) []] }) h
  refine ⟨s', ?_, ?_⟩
  · rw [replicate_succ, foldlM_cons, step, tick_idle h]
    exact hr
  rw [hl, range_succ_eq_map, map_cons, List.map_map, append_assoc]
  refine congrArg (fun l => s.log ++ Event.ticked _ [] :: l) (map_congr_left ?_)
  intro i _
  have hm : ((s.wheel.current + 1) % wheelSize + i + 1) % wheelSize
      = (s.wheel.current + (i + 1) + 1) % wheelSize := by
    rw [wheelSize]
    omega
  rw [Function.comp_apply, hm]

/-- A position that holds an armed entry. -/
theorem tickPos_single (slot idx : Nat) (hb : (w.slots slot).buf 0 = idx) (hid : idx ≠ 0)
    (hf : w.fire idx = some r) (hfl : w.cancelled idx = false)
    (hfr : w.freeRing.enqueue entryBits idx = some (b, free))
    (hr : (w.slots slot).posRing.enqueue slotBits 0 = some (b', ring)) :
    tickPos slot (w, []) 0 = some ((w.released slot 0 idx free).setSlot slot
      { (w.released slot 0 idx free).slots slot with posRing := ring }, [r]) := by
  have he : tickEntry slot w [] 0 = some (w.released slot 0 idx free, [r]) := by
    unfold tickEntry release
    rw [hb, if_neg hid, hf]
    rw [hfr, hfl]
    rfl
  rw [tickPos, he]
  dsimp only
  rw [recyclePos, released_posRing, hr]
  rfl

/-- A tick of a slot with one position. -/
theorem tick_single (hs : (s.wheel.current + 1) % wheelSize = slot)
    (hc : (s.wheel.slots slot).writePos = 1)
    (ht : tickPos slot ({ s.wheel with current := slot }.setSlot slot
      { s.wheel.slots slot with writePos := 0 }, []) 0 = some (w, fired)) :
    step s .tick = some { s with wheel := w, log := s.log ++ [.ticked slot fired] } := by
  rw [step, State.tick, hs, wheelTick]
  dsimp only
  rw [hc, range_one, foldlM_cons, ht]
  rfl

/-- A timer of the next second, and its tick: the timer fires, and its position waits in the
ring of the slot. -/
theorem first_second : ∃ s₁ s₂, step (start 0) (.scheduleBody 7 0) = some s₁
    ∧ step s₁ .tick = some s₂
    ∧ s₂.log = [.scheduled ⟨0, .body 7⟩ 1, .ticked 1 [⟨0, .body 7⟩]]
    ∧ s₂.next = 1 ∧ s₂.wheel.current = 1 ∧ (s₂.wheel.slots 1).posRing.Holds slotBits [0]
    ∧ (∀ i, (s₂.wheel.slots i).writePos = 0)
    ∧ ∃ q, s₂.wheel.freeRing.Holds entryBits (2 :: q) := by
  have hin : freeIndices = 1 :: 2 :: range' 3 524285 := by
    rw [freeIndices, maxWheelEntries, range'_succ, range'_succ]
  have hs := holds_freeRing 0
  rw [hin] at hs
  obtain ⟨free, hd, hfree⟩ := dequeue_holds (by decide) hs
  obtain ⟨free', hen, hfree'⟩ := enqueue_holds (by decide) hfree (by
    rw [length_cons, length_range']
    decide) 1
  obtain ⟨ring, hps, hr⟩ := enqueue_holds (by decide) (holds_new slotBits 0) (by decide) 0
  have ht : ((start 0).wheel.slots 1).takePos = some (some 0, ⟨1, new 0, fun _ => 0⟩) := rfl
  have hsl : (start 0).wheel.slotIdx 0 = 1 := rfl
  have hfr := scheduled_placed (start 0) ⟨0, .body 7⟩ hsl hd ht (by decide)
  obtain ⟨s₁, hf, hw, hn, hl⟩ : ∃ s₁, step (start 0) (.scheduleBody 7 0) = some s₁
      ∧ s₁.wheel = (start 0).wheel.placed 1 ⟨1, new 0, fun _ => 0⟩ 0 1 ⟨0, .body 7⟩ free
      ∧ s₁.next = 1 ∧ s₁.log = [.scheduled ⟨0, .body 7⟩ 1] :=
    ⟨_, hfr, rfl, rfl, rfl⟩
  have htk := tickPos_single (w := { s₁.wheel with current := 1 }.setSlot 1
      { s₁.wheel.slots 1 with writePos := 0 }) (r := ⟨0, .body 7⟩) 1 1 (by rw [hw]; rfl) (by decide)
    (by rw [hw]; rfl) (by rw [hw]; rfl) (by rw [hw]; exact hen) (by rw [hw]; exact hps)
  refine ⟨s₁, _, hf, tick_single (by rw [hw]; rfl) (by rw [hw]; rfl) htk, by rw [hl]; rfl, hn, rfl,
    hr, fun i => ?_, _, hfree'⟩
  by_cases hi : i = 1
  · subst hi
    rfl
  · simp only [setSlot, released, setFire, hi, if_false, hw, placed_slots]
    rfl

/-- **Every timer fires.** In every sequence of calm calls, a timer that is not cancelled is fired
by the first tick of its slot, exactly once. -/
theorem firesOnce_of_calm {current : Nat} {acts : List Act} {s : State}
    (h : GoodRun (fun s a s' => step s a = some s') Calm (start current) acts s) :
    FiresOnce s.log := by
  suffices hl : ∃ p, Service.empty.Run s.log p ∧ Rel p s by
    obtain ⟨p, hr, _⟩ := hl
    exact firesOnce_of_run hr
  refine h.invariant (I := fun s : State => ∃ p, Service.empty.Run s.log p ∧ Rel p s) ?_
    ⟨_, .nil _, rel_start current⟩
  rintro s s' a ⟨p, hr, hrl⟩ hc hst
  obtain ⟨s₁, e, p', hstep', hs, hrel', hl⟩ := calm_step hrl hc
  obtain rfl := some.inj (hst.symm.trans hstep')
  refine ⟨p', ?_, hrel'⟩
  rw [hl]
  exact GoodRun.append hr (.cons trivial hs (.nil p'))

theorem firesOnce_next_second : ∃ s,
    GoodRun (fun s a s' => step s a = some s') Calm (start 0) [.scheduleBody 7 0, .tick] s
      ∧ s.log = [.scheduled ⟨0, .body 7⟩ 1, .ticked 1 [⟨0, .body 7⟩]] ∧ FiresOnce s.log := by
  obtain ⟨s₁, s₂, hf, ht, hl, _⟩ := first_second
  have hr : GoodRun (fun s a s' => step s a = some s') Calm (start 0)
      [.scheduleBody 7 0, .tick] s₂ := .cons rfl hf (.cons trivial ht (.nil s₂))
  exact ⟨s₂, hr, hl, firesOnce_of_calm hr⟩

/-- A timer that is given a recycled position is not seen by the tick of its slot. -/
theorem reused_position_missed : ∃ s, ([Act.scheduleBody 7 0, .tick, .scheduleBody 8 4095000000000]
        ++ replicate 4096 Act.tick).foldlM step (start 0) = some s
      ∧ ¬ FiresOnce s.log := by
  obtain ⟨s₁, s₂, hf, ht, hlg, hn, hc, hr, hw, q, hfree⟩ := first_second
  obtain ⟨free, hd, _⟩ := SeqRing.dequeue_holds (by decide) hfree
  obtain ⟨ring, hp, _⟩ := SeqRing.dequeue_holds (by decide) hr
  have hsl : s₂.wheel.slotIdx 4095000000000 = 1 := by
    rw [Wheel.slotIdx, hc]
    decide
  have htk : (s₂.wheel.slots 1).takePos
      = some (some 0, { s₂.wheel.slots 1 with posRing := ring }) := by
    rw [WheelSlot.takePos, hp]
  -- the second timer gets the position of the first
  obtain ⟨s₃, hs, hl₃, hc₃, hw₃⟩ : ∃ s₃, step s₂ (.scheduleBody 8 4095000000000) = some s₃
        ∧ s₃.log = s₂.log ++ [.scheduled ⟨1, .body 8⟩ 1]
        ∧ s₃.wheel.current = 1 ∧ ∀ i, (s₃.wheel.slots i).writePos = 0 := by
    refine ⟨_, scheduled_placed s₂ ⟨s₂.next, .body 8⟩ hsl hd htk (by decide), ?_, hc, ?_⟩
    · rw [hn]
    intro i
    rw [placed_slots]
    split
    · exact hw 1
    · exact hw i
  obtain ⟨s, hlp, hl⟩ := ticks_idle 4096 hw₃
  refine ⟨s, ?_, ?_⟩
  · rw [foldlM_append, foldlM_cons, hf]
    dsimp only [bind_eq_bind, bind_some]
    rw [foldlM_cons, ht]
    dsimp only [bind_eq_bind, bind_some]
    rw [foldlM_cons, hs]
    exact hlp
  · -- the tick of slot 1, a lap later, fires nothing
    intro hfr
    rw [hl₃, hlg, hc₃, range_succ] at hl
    have hm := hfr ⟨1, .body 8⟩ 1 [.scheduled ⟨0, .body 7⟩ 1, .ticked 1 [⟨0, .body 7⟩]]
      ((range 4095).map (fun i => .ticked ((1 + i + 1) % wheelSize) [])) [] [] (by
        rw [hl]
        simp [wheelSize])
      (by
        intro f hmm
        obtain ⟨i, hi, heq⟩ := List.mem_map.mp hmm
        have hlt := mem_range.mp hi
        have hat : (1 + i + 1) % wheelSize = 1 := (Event.ticked.inj heq).1
        rw [wheelSize] at hat
        omega)
      (by
        intro hmm
        obtain ⟨i, _, heq⟩ := List.mem_map.mp hmm
        cases heq)
    exact absurd hm.1 (by decide)

end Rah.Timer
