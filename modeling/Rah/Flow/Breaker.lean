import Rah.Lib.Run
import Mathlib.Logic.Function.Basic

/-!
# The circuit breaker

`CircuitBreakerGateStep` and `RecordCircuitOutcomeStep` share one slot of the arena and
touch it with atomic operations only. A state holds the slot, the clock and, for every
execution, the operation it is about to do; a step is one operation or an advance of the
clock, in any order.

A trip swaps the state to open and stores its time afterwards. A gate that looks in
between sees the time of an older trip and lets its request pass; so does one that found
the open time over and swaps only after the next trip. `Calm` excludes these two, and a
gate that takes the time when the open time it started in is over.
-/

namespace Rah.Flow.Circuit

open Rah.Lib Function

/-- `CBStateClosed`, `CBStateOpen` and `CBStateHalfOpen`. -/
inductive CbState where
  | closed
  | opened
  | halfOpen
  deriving DecidableEq, Repr

structure Config where
  failureThreshold : Int
  successThreshold : Int
  openDurationNs : Int
  fallbackFlowStart : Int

/-- What a gate returns. -/
inductive Out where
  | pass
  | fallback (pc : Int)
  /-- `StopPlan`, with status 503. -/
  | unavailable
  deriving DecidableEq, Repr

def Config.reject (cfg : Config) : Out :=
  if 0 ≤ cfg.fallbackFlowStart then .fallback cfg.fallbackFlowStart else .unavailable

/-- The operation an execution is about to do. A gate remembers whether it started in the open
time of a trip. -/
inductive Pc where
  | idle
  | gateNow (w : Bool)
  | gateTrip (w : Bool) (now : Int)
  | gateSwap (w : Bool)
  | gateReset (w : Bool)
  | addFailure
  | trip (old : CbState)
  | tripNow
  | tripStore (now : Int)
  | zeroFailure
  | addSuccess
  | close
  | closeZero
  | zeroSuccess

structure State (n : Nat) where
  state : CbState
  failureCount : Int
  successCount : Int
  lastTripNs : Int
  now : Int
  pc : Fin n → Pc
  /-- When the state was moved to open, newest first. -/
  trips : List Int
  /-- The gates that have returned: whether they started in an open time, and what they said. -/
  log : List (Bool × Out)

variable {n : Nat} {cfg : Config} {s s' : State n} {t : Fin n} {p q : Pc}

/-- A slot as `Alloc` leaves it. -/
def init (now : Int) : State n := ⟨.closed, 0, 0, 0, now, fun _ => .idle, [], []⟩

/-- The open time of a trip is running. -/
def State.within (cfg : Config) (s : State n) : Bool :=
  s.trips.any (fun trip => s.now < trip + cfg.openDurationNs)

def State.goto (s : State n) (t : Fin n) (p : Pc) : State n :=
  { s with pc := Function.update s.pc t p }

def State.returns (s : State n) (t : Fin n) (w : Bool) (out : Out) : State n :=
  { s.goto t .idle with log := (w, out) :: s.log }

/-- What a recording does first, by the state it has loaded and the outcome. -/
def record : CbState → Bool → Pc
  | .closed, false => .addFailure
  | .closed, true => .zeroFailure
  | .halfOpen, true => .addSuccess
  | .halfOpen, false => .trip .halfOpen
  | .opened, _ => .idle

def runStep (cfg : Config) (s : State n) (t : Fin n) : Option (State n) :=
  match s.pc t with
  | .idle => none
  | .gateNow w => some (s.goto t (.gateTrip w s.now))
  | .gateTrip w now =>
    if cfg.openDurationNs ≤ now - s.lastTripNs then some (s.goto t (.gateSwap w))
    else some (s.returns t w cfg.reject)
  | .gateSwap w =>
    if s.state = .opened then some { s.goto t (.gateReset w) with state := .halfOpen }
    else some (s.returns t w .pass)
  | .gateReset w => some { s.returns t w .pass with successCount := 0 }
  | .addFailure =>
    let fc := s.failureCount + 1
    some { s.goto t (if cfg.failureThreshold ≤ fc then .trip .closed else .idle) with
      failureCount := fc }
  | .trip old =>
    if s.state = old then
      some { s.goto t .tripNow with state := .opened, trips := s.now :: s.trips }
    else some (s.goto t .idle)
  | .tripNow => some (s.goto t (.tripStore s.now))
  | .tripStore now => some { s.goto t .zeroFailure with lastTripNs := now }
  | .zeroFailure => some { s.goto t .idle with failureCount := 0 }
  | .addSuccess =>
    let sc := s.successCount + 1
    some { s.goto t (if cfg.successThreshold ≤ sc then .close else .idle) with successCount := sc }
  | .close =>
    if s.state = .halfOpen then some { s.goto t .closeZero with state := .closed }
    else some (s.goto t .idle)
  | .closeZero => some { s.goto t .zeroSuccess with failureCount := 0 }
  | .zeroSuccess => some { s.goto t .idle with successCount := 0 }

/-- What happens next. An execution starts by loading the state. -/
inductive Act (n : Nat) where
  | tick (ns : Nat)
  | gate (t : Fin n)
  | record (t : Fin n) (isSuccess : Bool)
  | run (t : Fin n)

def step (cfg : Config) (s : State n) : Act n → Option (State n)
  | .tick ns => some { s with now := s.now + ns }
  | .gate t =>
    match s.pc t, s.state with
    | .idle, .opened => some (s.goto t (.gateNow (s.within cfg)))
    | .idle, _ => some (s.returns t (s.within cfg) .pass)
    | _, _ => none
  | .record t isSuccess =>
    match s.pc t with
    | .idle => some (s.goto t (Circuit.record s.state isSuccess))
    | _ => none
  | .run t => runStep cfg s t

/-! ## The condition on steps -/

/-- The execution has tripped the circuit and not stored the time of it. -/
def Pc.storing : Pc → Bool
  | .tripNow => true
  | .tripStore _ => true
  | _ => false

/-- The gate has found the open time over and not swapped the state yet. -/
def Pc.probing : Pc → Bool
  | .gateSwap _ => true
  | _ => false

def Pc.Calm (cfg : Config) (s : State n) : Pc → Prop
  | .gateNow w => w = true → s.within cfg = true
  | .gateTrip _ _ => ∀ u, (s.pc u).storing = false
  | .trip old => s.state = old → ∀ u, (s.pc u).probing = false
  | _ => True

def Calm (cfg : Config) (s : State n) : Act n → Prop
  | .run t => (s.pc t).Calm cfg s
  | _ => True

instance (s : State n) : (p : Pc) → Decidable (p.Calm cfg s)
  | .gateNow _ => inferInstanceAs (Decidable (_ → _))
  | .gateTrip _ _ => inferInstanceAs (Decidable (∀ _, _))
  | .trip _ => inferInstanceAs (Decidable (_ → _))
  | .idle | .gateSwap _ | .gateReset _ | .addFailure | .tripNow | .tripStore _ | .zeroFailure
  | .addSuccess | .close | .closeZero | .zeroSuccess => isTrue trivial

instance (s : State n) : (a : Act n) → Decidable (Calm cfg s a)
  | .tick _ | .gate _ | .record _ _ => isTrue trivial
  | .run t => inferInstanceAs (Decidable ((s.pc t).Calm cfg s))

/-! ## The invariant -/

/-- No gate that started in an open time let its request pass. -/
def Rejecting (log : List (Bool × Out)) : Prop := (true, Out.pass) ∉ log

/-- A trip has happened whose open time is running or whose time is not stored. -/
def State.Shut (cfg : Config) (s : State n) : Prop :=
  s.within cfg = true ∨ ∃ u, (s.pc u).storing = true

/-- What a position says about the trips so far. -/
def Pc.Sound (cfg : Config) (trips : List Int) (now : Int) : Pc → Prop
  | .gateTrip w m => m ≤ now ∧ (w = true → ∃ trip ∈ trips, m < trip + cfg.openDurationNs)
  | .gateSwap w | .gateReset w => w = false
  | .trip old => old ≠ .opened
  | .tripStore m => ∀ trip ∈ trips, trip ≤ m
  | _ => True

structure Inv (cfg : Config) (s : State n) : Prop where
  past : ∀ trip ∈ s.trips, trip ≤ s.now
  stored : (∀ trip ∈ s.trips, trip ≤ s.lastTripNs) ∨ ∃ u, (s.pc u).storing = true
  shut : s.Shut cfg → s.state = .opened ∧ ∀ u, (s.pc u).probing = false
  sound : ∀ u, (s.pc u).Sound cfg s.trips s.now
  log : Rejecting s.log

theorem within_iff : s.within cfg = true ↔ ∃ trip ∈ s.trips, s.now < trip + cfg.openDurationNs := by
  simp [State.within]

/-- What holds of every position holds after a move to a position where it holds. -/
theorem forall_update {P : Pc → Prop} (hp : P p) (h : ∀ u, P (s.pc u)) :
    ∀ u, P (update s.pc t p u) := by
  intro u
  rcases eq_or_ne u t with rfl | hne
  · rwa [update_self]
  · rw [update_of_ne hne]
    exact h u

/-- A move of one execution without a trip or a store of its time. -/
theorem Inv.goto (h : Inv cfg s) (hq : s.pc t = q) (hpc : s'.pc = update s.pc t p)
    (hk : (s'.trips, s'.now, s'.lastTripNs) = (s.trips, s.now, s.lastTripNs))
    (hst : p.storing = q.storing) (hstt : s.Shut cfg → s'.state = s.state)
    (hpr : p.probing = false ∨ ¬ s.Shut cfg) (hp : p.Sound cfg s.trips s.now)
    (hlg : Rejecting s'.log) :
    Inv cfg s' := by
  simp only [Prod.mk.injEq] at hk
  obtain ⟨ht, hn, hl⟩ := hk
  have hsm : ∀ u, (s'.pc u).storing = (s.pc u).storing := by
    intro u
    rw [hpc]
    rcases eq_or_ne u t with rfl | hne
    · rw [update_self, hq, hst]
    · rw [update_of_ne hne]
  have hsh : s'.Shut cfg → s.Shut cfg := by
    rw [State.Shut, State.Shut, within_iff, within_iff, ht, hn]
    simp only [hsm]
    exact id
  refine ⟨by rw [ht, hn]; exact h.past, ?_, fun hs => ?_, ?_, hlg⟩
  · simp only [hsm, ht, hl]
    exact h.stored
  · obtain ⟨ho, hqt⟩ := h.shut (hsh hs)
    refine ⟨(hstt (hsh hs)).trans ho, ?_⟩
    rw [hpc]
    exact forall_update (P := fun p => p.probing = false)
      (hpr.resolve_right fun hnt => hnt (hsh hs)) hqt
  · rw [hpc, ht, hn]
    exact forall_update hp h.sound

/-- A step of the clock. -/
theorem inv_tick (h : Inv cfg s) (ns : Nat) : Inv cfg { s with now := s.now + ns } := by
  refine ⟨fun trip ht => ?_, h.stored, fun hs => h.shut (hs.imp_left ?_), fun u => ?_, h.log⟩
  · have := h.past trip ht
    show trip ≤ s.now + ns
    omega
  · rw [within_iff, within_iff]
    rintro ⟨trip, ht, hlt⟩
    exact ⟨trip, ht, by dsimp only at hlt; omega⟩
  have hu := h.sound u
  cases hpc : s.pc u with
  | gateTrip w m =>
    rw [hpc] at hu
    exact ⟨Int.le_trans hu.1 (Int.le_add_of_nonneg_right (Int.natCast_nonneg ns)), hu.2⟩
  | _ => rw [hpc] at hu; exact hu

/-- The swap to open, while no gate is about to swap. -/
theorem inv_trip (h : Inv cfg s) (hs : s.state ≠ .opened) (hq : ∀ u, (s.pc u).probing = false) :
    Inv cfg { s.goto t .tripNow with state := .opened, trips := s.now :: s.trips } := by
  refine ⟨List.forall_mem_cons.mpr ⟨Int.le_refl _, h.past⟩,
    .inr ⟨t, by simp [State.goto, Pc.storing]⟩,
    fun _ => ⟨rfl, forall_update (P := fun p => p.probing = false) rfl hq⟩,
    forall_update (P := Pc.Sound cfg _ _) trivial fun u => ?_, h.log⟩
  have hu := h.sound u
  cases hpc : s.pc u with
  | gateTrip w m =>
    rw [hpc] at hu
    exact ⟨hu.1, fun hw => (hu.2 hw).imp fun _ hm => ⟨.tail _ hm.1, hm.2⟩⟩
  | tripStore m => exact absurd (h.shut (.inr ⟨u, by rw [hpc]; rfl⟩)).1 hs
  | _ => rw [hpc] at hu; exact hu

/-- The store of a trip's time. -/
theorem inv_store (h : Inv cfg s) (hpc : s.pc t = .tripStore m) :
    Inv cfg { s.goto t .zeroFailure with lastTripNs := m } := by
  have hm : Pc.Sound cfg s.trips s.now (.tripStore m) := hpc ▸ h.sound t
  obtain ⟨ho, hq⟩ := h.shut (.inr ⟨t, by rw [hpc]; rfl⟩)
  exact ⟨h.past, .inl hm, fun _ => ⟨ho, forall_update (P := fun p => p.probing = false) rfl hq⟩,
    forall_update (P := Pc.Sound cfg _ _) trivial h.sound, h.log⟩

theorem inv_run (h : Inv cfg s) (hcalm : (s.pc t).Calm cfg s) (hstep : runStep cfg s t = some s') :
    Inv cfg s' := by
  have hsn := h.sound t
  have hpr : (s.pc t).probing = true → ¬ s.Shut cfg := by
    intro hp hs
    rw [(h.shut hs).2 t] at hp
    cases hp
  have hlog : ∀ {w out}, (w = false ∨ out ≠ .pass) → Rejecting ((w, out) :: s.log) := by
    intro w out hout hmem
    cases hmem with
    | head => simp at hout
    | tail _ hmem => exact h.log hmem
  unfold runStep at hstep
  generalize hpc : s.pc t = q at hstep hcalm hsn hpr
  cases q with
  | idle => cases hstep
  | gateNow w =>
    cases hstep
    exact h.goto hpc rfl rfl rfl (fun _ => rfl) (.inl rfl)
      ⟨Int.le_refl _, fun hw => within_iff.mp (hcalm hw)⟩ h.log
  | gateTrip w now =>
    -- no time of a trip is missing from the slot, so a gate that swaps finds every open time over
    have hl := h.stored.resolve_right fun ⟨u, hu⟩ => by rw [hcalm u] at hu; cases hu
    dsimp only at hstep
    split at hstep <;> cases hstep <;> rename_i hd
    · have ho : ∀ trip ∈ s.trips, trip + cfg.openDurationNs ≤ now := by
        intro trip ht
        have := hl trip ht
        omega
      refine h.goto hpc rfl rfl rfl (fun _ => rfl) (.inr fun hs => ?_) ?_ h.log
      · rcases hs with hs | ⟨u, hu⟩
        · obtain ⟨trip, ht, hlt⟩ := within_iff.mp hs
          have := ho trip ht
          have := hsn.1
          omega
        · rw [hcalm u] at hu
          cases hu
      · refine Bool.eq_false_iff.mpr fun hw => ?_
        obtain ⟨trip, ht, hlt⟩ := hsn.2 hw
        have := ho trip ht
        omega
    · refine h.goto hpc rfl rfl rfl (fun _ => rfl) (.inl rfl) trivial (hlog (.inr ?_))
      unfold Config.reject
      split <;> simp
  | gateSwap w =>
    dsimp only at hstep
    split at hstep <;> cases hstep
    · exact h.goto hpc rfl rfl rfl (fun hs => absurd hs (hpr rfl)) (.inl rfl) hsn h.log
    · exact h.goto hpc rfl rfl rfl (fun _ => rfl) (.inl rfl) trivial (hlog (.inl hsn))
  | gateReset w =>
    cases hstep
    exact h.goto hpc rfl rfl rfl (fun _ => rfl) (.inl rfl) trivial (hlog (.inl hsn))
  | addFailure | addSuccess =>
    cases hstep
    refine h.goto hpc rfl rfl ?_ (fun _ => rfl) ?_ ?_ h.log <;>
      split <;> simp [Pc.storing, Pc.probing, Pc.Sound]
  | trip old =>
    dsimp only at hstep
    split at hstep <;> cases hstep
    · rename_i hold
      exact inv_trip h (hold ▸ hsn) (hcalm hold)
    · exact h.goto hpc rfl rfl rfl (fun _ => rfl) (.inl rfl) trivial h.log
  | tripNow =>
    cases hstep
    exact h.goto hpc rfl rfl rfl (fun _ => rfl) (.inl rfl) h.past h.log
  | tripStore now =>
    cases hstep
    exact inv_store h hpc
  | close =>
    dsimp only at hstep
    split at hstep <;> cases hstep
    · rename_i hh
      refine h.goto hpc rfl rfl rfl (fun hs => ?_) (.inl rfl) trivial h.log
      rw [(h.shut hs).1] at hh
      cases hh
    · exact h.goto hpc rfl rfl rfl (fun _ => rfl) (.inl rfl) trivial h.log
  | zeroFailure | closeZero | zeroSuccess =>
    cases hstep
    exact h.goto hpc rfl rfl rfl (fun _ => rfl) (.inl rfl) trivial h.log

theorem inv_step (h : Inv cfg s) (hc : Calm cfg s a) (hst : step cfg s a = some s') :
    Inv cfg s' := by
  cases a with
  | tick ns =>
    cases hst
    exact inv_tick h ns
  | gate t =>
    dsimp only [step] at hst
    split at hst <;> cases hst <;> rename_i hpc hs
    · exact h.goto hpc rfl rfl rfl (fun _ => rfl) (.inl rfl) trivial h.log
    -- the circuit is not open, so no open time is running
    refine h.goto hpc rfl rfl rfl (fun _ => rfl) (.inl rfl) trivial ?_
    intro hm
    rcases List.mem_cons.mp hm with he | hm
    · exact hs (h.shut (.inl (congrArg Prod.fst he).symm)).1
    · exact h.log hm
  | record t isSuccess =>
    dsimp only [step] at hst
    split at hst <;> cases hst
    rename_i hpc
    refine h.goto hpc rfl rfl ?_ (fun _ => rfl) ?_ ?_ h.log <;>
      cases s.state <;> cases isSuccess <;> simp [Circuit.record, Pc.storing, Pc.probing, Pc.Sound]
  | run t => exact inv_run h hc hst

theorem inv_init (cfg : Config) (now : Int) : Inv cfg (init now : State n) := by
  refine ⟨by simp [init], .inl (by simp [init]), ?_, fun _ => trivial, List.not_mem_nil⟩
  rintro (hw | ⟨u, hu⟩)
  · simp [init, State.within] at hw
  · cases hu

/-- **An opened circuit rejects for its full open time**, in every run of calm steps. -/
theorem rejecting_of_calm (cfg : Config) (now : Int) (acts : List (Act n)) (s : State n)
    (h : GoodRun (fun s a s' => step cfg s a = some s') (Calm cfg) (init now) acts s) :
    Rejecting s.log :=
  (GoodRun.invariant (fun hi hg hs => inv_step hi hg hs) h (inv_init cfg now)).log

/-- The circuit trips and its time is stored; the next gate is sent away. -/
def tripThenGate : List (Act 2) :=
  [.record 0 false, .run 0, .run 0, .run 0, .run 0, .tick 5, .gate 1, .run 1, .run 1]

theorem rejecting_tripThenGate : ∃ s, GoodRun (fun s a s' => step ⟨1, 1, 10, -1⟩ s a = some s')
      (Calm ⟨1, 1, 10, -1⟩) (init 100) tripThenGate s
    ∧ s.log = [(true, .unavailable)] ∧ Rejecting s.log := by
  obtain ⟨s, hr, hl⟩ : ∃ s, tripThenGate.foldlM (fun s a =>
      if Calm ⟨1, 1, 10, -1⟩ s a then step ⟨1, 1, 10, -1⟩ s a else none) (init 100) = some s ∧
      s.log = [(true, .unavailable)] := ⟨_, rfl, rfl⟩
  have hg := GoodRun.of_checked hr
  exact ⟨s, hg, hl, rejecting_of_calm _ 100 tripThenGate s hg⟩

/-- **A circuit that has just opened lets a request pass**: the gate runs between the swap and the
store of the time. -/
theorem fresh_trip_passes : ∃ s : State 2,
    [.record 0 false, .run 0, .run 0, .gate 1, .run 1, .run 1, .run 1, .run 1].foldlM
      (step ⟨1, 1, 10, -1⟩) (init 100) = some s ∧ s.log = [(true, .pass)] :=
  ⟨_, rfl, rfl⟩

end Rah.Flow.Circuit
