import Rah.Lib.Run

/-!
# Batches of events

`Handle`, the function of a window timer and the flush at shutdown each hold the lock from
their beginning to their end, so each is one step. A timer that is stopped too late runs
its function all the same, then or later, and flushes whatever is pending at that time: it
may end a batch that was begun after its own.
-/

namespace Rah.Events.Batching

open Rah.Lib

variable {α : Type}

/-- What a batching executor is configured with; neither number need be positive. -/
structure Config where
  batchSize : Int
  window : Int

/-- The fields under the lock, and the batches that the flow was called with so far. -/
structure State (α : Type) where
  batch : List α := []
  timer : Option Nat := none
  /-- The timers whose function is still to run. -/
  armed : List Nat := []
  /-- The number of the next timer. -/
  next : Nat := 0
  done : Bool := false
  flushed : List (List α) := []

/-- What takes the lock; `inTime` tells whether a timer that is stopped there still runs. -/
inductive Act (α : Type) where
  | handle (payload : α) (inTime : Bool)
  | fire (t : Nat)
  | shutdown (inTime : Bool)

/-- The payload of a call of `Handle`. -/
def Act.payload? : Act α → Option α
  | .handle payload _ => some payload
  | _ => none

/-- `flushLocked`. -/
def State.flushLocked (s : State α) : State α :=
  if s.batch.isEmpty then s
  else { s with batch := [], flushed := s.flushed ++ [s.batch] }

/-- `timer.Stop()`, in time or too late. -/
def stop (timer : Option Nat) (inTime : Bool) (armed : List Nat) : List Nat :=
  if inTime then armed.filter (some · != timer) else armed

/-- `Handle`: the first payload of a batch starts the window timer, the last one stops it. -/
def State.handle (cfg : Config) (s : State α) (payload : α) (inTime : Bool) : State α :=
  let s := { s with batch := s.batch ++ [payload] }
  let s := if s.batch.length = 1 ∧ 0 < cfg.window
    then { s with timer := some s.next, armed := s.next :: s.armed, next := s.next + 1 } else s
  if 0 < cfg.batchSize ∧ cfg.batchSize ≤ s.batch.length
  then State.flushLocked { s with timer := none, armed := stop s.timer inTime s.armed }
  else s

/-- `none` is a timer whose function does not run, or a second shutdown. -/
def step (cfg : Config) (s : State α) : Act α → Option (State α)
  | .handle payload inTime => some (s.handle cfg payload inTime)
  | .fire t => if t ∈ s.armed then some (State.flushLocked { s with armed := s.armed.erase t })
      else none
  | .shutdown inTime =>
    if s.done then none
    else some { s.flushLocked with done := true, armed := stop s.timer inTime s.armed }

def Run (cfg : Config) (acts : List (Act α)) (s : State α) : Prop :=
  GoodRun (fun s a s' => step cfg s a = some s') (fun _ _ => True) {} acts s

/-- What was flushed, and what is pending behind it. -/
def State.stream (s : State α) : List α := s.flushed.flatten ++ s.batch

/-- `size` bounds the pending batch: it may be full only while the lock is held. -/
structure Inv (cfg : Config) (size : Int) (s : State α) : Prop where
  sized : ∀ b ∈ s.flushed, b ≠ [] ∧ (0 < cfg.batchSize → b.length ≤ cfg.batchSize)
  short : 0 < cfg.batchSize → s.batch.length ≤ size

variable {cfg : Config} {s s' : State α}

theorem stream_flushLocked : s.flushLocked.stream = s.stream := by
  unfold State.flushLocked
  split
  · rfl
  · simp [State.stream]

/-- A step adds its payload to the end of the stream, if it has one, and leaves the rest. -/
theorem stream_step {a : Act α} (hst : step cfg s a = some s') :
    s'.stream = s.stream ++ a.payload?.toList := by
  cases a with
  | handle payload inTime =>
    cases hst
    unfold State.handle
    dsimp only
    split
    all_goals
      split
      · rw [stream_flushLocked]
        simp [State.stream, Act.payload?]
      · simp [State.stream, Act.payload?]
  | fire t =>
    obtain ⟨-, hst⟩ := Option.ite_none_right_eq_some.mp hst
    cases hst
    rw [stream_flushLocked]
    simp [State.stream, Act.payload?]
  | shutdown inTime =>
    obtain ⟨-, hst⟩ := Option.ite_none_left_eq_some.mp hst
    cases hst
    have hf := stream_flushLocked (s := s)
    simpa [State.stream, Act.payload?] using hf

/-- A run adds the payloads of its calls of `Handle`, in the order in which they took the lock. -/
theorem stream_run {acts : List (Act α)}
    (h : GoodRun (fun s a s' => step cfg s a = some s') (fun _ _ => True) s acts s') :
    s'.stream = s.stream ++ acts.filterMap Act.payload? := by
  induction h with
  | nil s => simp
  | @cons _ _ _ a _ _ hs _ ih =>
    rw [ih, stream_step hs, List.append_assoc]
    cases hp : a.payload? <;> simp [hp]

theorem Inv.flushLocked (h : Inv cfg cfg.batchSize s) :
    Inv cfg (cfg.batchSize - 1) s.flushLocked := by
  unfold State.flushLocked
  split
  · rename_i hn
    rw [List.isEmpty_iff] at hn
    refine ⟨h.sized, fun hb => ?_⟩
    rw [hn, List.length_nil]
    omega
  · rename_i hn
    refine ⟨fun b hb => ?_, fun hb => ?_⟩
    · rcases List.mem_append.mp hb with hb | hb
      · exact h.sized b hb
      · cases List.mem_singleton.mp hb
        exact ⟨fun he => hn (List.isEmpty_iff.mpr he), h.short⟩
    · show (0 : Int) ≤ _
      omega

theorem Inv.handle (h : Inv cfg (cfg.batchSize - 1) s) (payload : α) (inTime : Bool) :
    Inv cfg (cfg.batchSize - 1) (s.handle cfg payload inTime) := by
  -- the batch has one payload more, and may be full now
  have hs : ∀ timer armed next, Inv cfg cfg.batchSize
      { s with timer := timer, armed := armed, next := next, batch := s.batch ++ [payload] } := by
    refine fun timer armed next => ⟨h.sized, fun hb => ?_⟩
    have := h.short hb
    rw [List.length_append, List.length_singleton]
    omega
  have hk : ∀ {s : State α}, Inv cfg cfg.batchSize s →
      ¬ (0 < cfg.batchSize ∧ cfg.batchSize ≤ s.batch.length) → Inv cfg (cfg.batchSize - 1) s :=
    fun h hf => ⟨h.sized, fun hb => by omega⟩
  unfold State.handle
  dsimp only
  split
  all_goals
    split
    · exact (hs _ _ _).flushLocked
    · exact hk (hs _ _ _) ‹_›

theorem Inv.step (h : Inv cfg (cfg.batchSize - 1) s) (hst : step cfg s a = some s') :
    Inv cfg (cfg.batchSize - 1) s' := by
  have hw : ∀ armed, Inv cfg cfg.batchSize { s with armed := armed } := fun armed =>
    ⟨h.sized, fun hb => by have := h.short hb; dsimp only; omega⟩
  cases a with
  | handle payload inTime =>
    cases hst
    exact h.handle payload inTime
  | fire t =>
    obtain ⟨-, hst⟩ := Option.ite_none_right_eq_some.mp hst
    cases hst
    exact (hw _).flushLocked
  | shutdown inTime =>
    obtain ⟨-, hst⟩ := Option.ite_none_left_eq_some.mp hst
    cases hst
    have hf := (hw s.armed).flushLocked
    exact { hf with }

/-- **The batches part the stream** of the payloads that the run has handled: none is empty, none is
too long, and nothing is lost, repeated or put in another order. -/
theorem batches_partition {acts : List (Act α)} (h : Run cfg acts s) :
    s.flushed.flatten ++ s.batch = acts.filterMap Act.payload?
      ∧ ∀ b ∈ s.flushed, b ≠ [] ∧ (0 < cfg.batchSize → b.length ≤ cfg.batchSize) := by
  have hi : Inv cfg (cfg.batchSize - 1) s :=
    GoodRun.invariant (fun h _ hs => h.step hs) h ⟨by simp, fun hb => by simp; omega⟩
  exact ⟨stream_run h, hi.sized⟩

/-- The timer of a batch that is full is stopped too late, and ends the next one. -/
theorem batches_partition_late : ∃ s : State Nat, Run ⟨2, 1⟩
      [.handle 5 true, .handle 6 false, .handle 7 true, .fire 0] s
    ∧ s.flushed = [[5, 6], [7]] ∧ s.flushed.flatten ++ s.batch = [5, 6, 7] := by
  have hr : Run ⟨2, 1⟩ [.handle 5 true, .handle 6 false, .handle 7 true, .fire 0] _ :=
    GoodRun.of_foldlM rfl
  exact ⟨_, hr, rfl, (batches_partition hr).1⟩

end Rah.Events.Batching
