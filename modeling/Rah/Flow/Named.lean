import Rah.Flow.Breaker

/-!
# The two circuit breakers

A `NamedCircuit` is a circuit breaker of its own, found by name. It resets its successes when
it leaves half-open, where the slot of the arena resets them when it enters half-open; in
between nobody looks at them. Calls come one after the other here, each at one time, and a
call of the arena runs its operations to the end.
-/

namespace Rah.Flow.Circuit

open Function
open State (goto returns)

structure NamedCircuit where
  state : CbState
  failureCount : Int
  successCount : Int
  lastTripNs : Int
  openDurationNs : Int
  failureThreshold : Int
  successThreshold : Int

/-- `namedCircuits`. -/
abbrev Circuits := String → Option NamedCircuit

def Circuits.put (circuits : Circuits) (name : String) (nc : NamedCircuit) : Circuits :=
  update circuits name (some nc)

def getOrCreateNamedCircuit (circuits : Circuits) (name : String)
    (failureThresh successThresh : Int) (openDurationMs : UInt32) : Circuits :=
  match circuits name with
  | some _ => circuits
  | none => circuits.put name
      ⟨.closed, 0, 0, 0, openDurationMs.toNat * 1000000, failureThresh, successThresh⟩

def isNamedCircuitOpen (circuits : Circuits) (name : String) (now : Int) : Bool × Circuits :=
  match circuits name with
  | none => (false, circuits)
  | some nc =>
    match nc.state with
    | .closed | .halfOpen => (false, circuits)
    | .opened =>
      if nc.openDurationNs ≤ now - nc.lastTripNs then
        (false, circuits.put name { nc with state := .halfOpen })
      else (true, circuits)

def recordNamedCircuitOutcome (circuits : Circuits) (name : String) (success : Bool) (now : Int) :
    (Bool × CbState) × Circuits :=
  match circuits name with
  | none => ((false, .closed), circuits)
  | some nc =>
    match nc.state, success with
    | .closed, false =>
      let fc := nc.failureCount + 1
      if nc.failureThreshold ≤ fc then
        ((true, .opened), circuits.put name
          { nc with state := .opened, lastTripNs := now, failureCount := 0 })
      else ((false, .closed), circuits.put name { nc with failureCount := fc })
    | .closed, true => ((false, .closed), circuits.put name { nc with failureCount := 0 })
    | .halfOpen, true =>
      let sc := nc.successCount + 1
      if nc.successThreshold ≤ sc then
        ((true, .closed), circuits.put name
          { nc with state := .closed, failureCount := 0, successCount := 0 })
      else ((false, .halfOpen), circuits.put name { nc with successCount := sc })
    | .halfOpen, false =>
      ((true, .opened), circuits.put name
        { nc with state := .opened, lastTripNs := now, failureCount := 0, successCount := 0 })
    | .opened, _ => ((false, .opened), circuits)

/-! ## Histories of calls -/

inductive Call where
  | check
  | outcome (success : Bool)

/-- The configuration `Alloc` gives a slot, and where its gate falls back to. -/
def alloc (failureThresh successThresh : Int) (openDurationMs : UInt32)
    (fallbackFlowStart : Int) : Config :=
  ⟨failureThresh, successThresh, openDurationMs.toNat * 1000000, fallbackFlowStart⟩

/-- The operations of a call, up to its end. -/
def settle (cfg : Config) : Nat → State 1 → State 1
  | 0, s => s
  | fuel + 1, s =>
    match runStep cfg s (.last 0) with
    | none => s
    | some s' => settle cfg fuel s'

/-- A call on the slot, some time after the one before. No call has more than five operations
after the load of the state. -/
def serve (cfg : Config) (s : State 1) (call : Nat × Call) : State 1 :=
  let s := { s with now := s.now + call.1 }
  let act := match call.2 with
    | .check => Act.gate (.last 0)
    | .outcome success => Act.record (.last 0) success
  match step cfg s act with
  | none => s
  | some s' => settle cfg 5 s'

/-- The requests the slot has admitted and rejected, newest first. -/
def State.admitted (s : State 1) : List Bool := s.log.map (fun e => e.2 == .pass)

/-- The named circuits, the time, and what the checks have admitted. -/
structure Named where
  circuits : Circuits
  now : Int
  admitted : List Bool

def Named.serve (name : String) (s : Named) (call : Nat × Call) : Named :=
  let now := s.now + call.1
  match call.2 with
  | .check =>
    let r := isNamedCircuitOpen s.circuits name now
    ⟨r.2, now, (!r.1) :: s.admitted⟩
  | .outcome success => ⟨(recordNamedCircuitOutcome s.circuits name success now).2, now, s.admitted⟩

/-! ## The simulation -/

/-- The successes are compared in half-open only. -/
structure Same (cfg : Config) (s : State 1) (nc : NamedCircuit) : Prop where
  idle : s.pc (.last 0) = .idle
  state : nc.state = s.state
  failures : nc.failureCount = s.failureCount
  successes : nc.successCount = if s.state = .halfOpen then s.successCount else 0
  lastTrip : nc.lastTripNs = s.lastTripNs
  config : nc.failureThreshold = cfg.failureThreshold ∧ nc.successThreshold = cfg.successThreshold
    ∧ nc.openDurationNs = cfg.openDurationNs

structure Alike (cfg : Config) (name : String) (s : State 1) (m : Named) : Prop where
  now : m.now = s.now
  admitted : m.admitted = s.admitted
  circuit : ∃ nc, m.circuits name = some nc ∧ Same cfg s nc

variable {cfg : Config} {name : String} {s : State 1} {m : Named} {nc : NamedCircuit}

theorem reject_ne_pass (cfg : Config) : (cfg.reject == .pass) = false := by
  rw [Config.reject]
  split <;> rfl

theorem put_self (circuits : Circuits) (nc : NamedCircuit) : circuits.put name nc name = some nc :=
  update_self ..

theorem Alike.serve (h : Alike cfg name s m) (call : Nat × Call) :
    Alike cfg name (Circuit.serve cfg s call) (m.serve name call) := by
  obtain ⟨ns, call⟩ := call
  obtain ⟨circuits, now, admitted⟩ := m
  obtain ⟨state, fc, sc, trip, now', pc, trips, log⟩ := s
  obtain ⟨hn, ha, nc, hnc, hi, hst, hf, hsu, ht, hft, hth, hd⟩ := h
  obtain ⟨state', fc', sc', trip', dur, ft, st⟩ := nc
  dsimp only at hn ha hnc hi hst hf hsu ht hft hth hd
  subst hn ha hst hf hsu ht hft hth hd
  cases call with
  | check =>
    simp only [Named.serve, isNamedCircuitOpen, hnc, Circuit.serve, step, hi]
    cases state' with
    | closed | halfOpen =>
      simp only [settle, runStep, returns, goto, update_self]
      exact ⟨rfl, rfl, _, hnc, by constructor <;> simp⟩
    | opened =>
    by_cases hle : cfg.openDurationNs ≤ now + ns - trip'
    · simp only [settle, runStep, returns, goto, update_self, hle, if_true]
      exact ⟨rfl, rfl, _, put_self .., by constructor <;> simp⟩
    · simp only [settle, runStep, returns, goto, update_self, hle, if_false]
      refine ⟨rfl, ?_, _, hnc, by constructor <;> simp⟩
      simp [State.admitted, reject_ne_pass]
  | outcome success =>
    simp only [Named.serve, recordNamedCircuitOutcome, hnc, Circuit.serve, step, hi]
    cases state' with
    | opened =>
      simp only [record, settle, runStep, goto, update_self]
      exact ⟨rfl, rfl, _, hnc, by constructor <;> simp⟩
    | closed =>
      cases success with
      | true =>
        simp only [record, settle, runStep, goto, update_self]
        exact ⟨rfl, rfl, _, put_self .., by constructor <;> simp⟩
      | false =>
        by_cases hle : cfg.failureThreshold ≤ fc' + 1 <;>
        · simp only [record, settle, runStep, goto, update_self, hle, if_true, if_false]
          exact ⟨rfl, rfl, _, put_self .., by constructor <;> simp⟩
    | halfOpen =>
      cases success with
      | true =>
        by_cases hle : cfg.successThreshold ≤ sc + 1 <;>
        · simp only [record, settle, runStep, goto, update_self, hle, if_true, if_false]
          exact ⟨rfl, rfl, _, put_self .., by constructor <;> simp⟩
      | false =>
        simp only [record, settle, runStep, goto, update_self, if_true]
        exact ⟨rfl, rfl, _, put_self .., by constructor <;> simp⟩

/-- **The two circuit breakers admit the same requests**, whatever the history of calls on a slot
and on a named circuit with the same parameters, whose name was not in use. -/
theorem named_admits_alike (failureThresh successThresh : Int) (openDurationMs : UInt32)
    (fallbackFlowStart start : Int) (circuits : Circuits) (name : String)
    (calls : List (Nat × Call)) :
    (calls.foldl (serve (alloc failureThresh successThresh openDurationMs fallbackFlowStart))
      (init start)).admitted
      = (calls.foldl (Named.serve name) ⟨getOrCreateNamedCircuit (update circuits name none)
        name failureThresh successThresh openDurationMs, start, []⟩).admitted := by
  let cfg := alloc failureThresh successThresh openDurationMs fallbackFlowStart
  have hrun : ∀ s m, Alike cfg name s m →
      Alike cfg name (calls.foldl (serve cfg) s) (calls.foldl (Named.serve name) m) := by
    induction calls with
    | nil => exact fun _ _ h => h
    | cons call calls ih => exact fun s m h => ih _ _ (h.serve call)
  refine (hrun _ _ ⟨rfl, rfl, ?_⟩).admitted.symm
  rw [getOrCreateNamedCircuit, update_self]
  exact ⟨_, put_self .., by constructor <;> simp [init, cfg, alloc]⟩

end Rah.Flow.Circuit
