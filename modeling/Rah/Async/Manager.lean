import Mathlib.Data.List.Nodup
import Mathlib.Logic.Function.Basic
import Rah.Lib.Run

/-!
# Asynchronous jobs

`Submit` puts a job into the store, enqueues its id, waits for a slot of the semaphore and starts a
goroutine that runs the job. `WorkerPoll` takes an id off the queue and runs the job as well, and
nothing else takes ids off it: a job of both is executed twice, and without pollers the queue is
full after 10 000 submits. A run that does not find its job, because it expired, executes nothing.
-/

namespace Rah.Async

open Rah.Lib List Option Function

/-- A call of `runJob`, and whether it holds a slot of the semaphore (a goroutine of `Submit`). -/
abbrev Run := String × Bool

/-- The manager with its `MemoryJobStore` and the calls in progress. -/
structure AsyncManager where
  /-- Jobs of the store, with their `CreatedAt`. -/
  jobs : String → Option Nat
  queue : List String
  semaphore : Nat
  /-- Ids passed to `Submit`. -/
  submitted : List String
  /-- Submits between `Put` and `Enqueue`. -/
  stored : List String
  /-- Submits that wait for the semaphore. -/
  waiting : List String
  /-- Submits that returned nil. -/
  accepted : List String
  /-- For each submit that failed with a full queue, how many submitted jobs had not yet started. -/
  rejections : List Nat
  /-- Runs that have not yet called `Get`. -/
  runs : List Run
  /-- Runs that execute their job. -/
  running : List (Run × Nat)
  /-- Calls of the execute function. -/
  executed : List String

/-- `NewAsyncManager` over `NewMemoryJobStore`. -/
def AsyncManager.new : AsyncManager := ⟨fun _ => none, [], 0, [], [], [], [], [], [], [], []⟩

/-- The capacity of the queue. -/
def queueCapacity : Nat := 10000

inductive Act where
  /-- A submit up to `Put`, at a time. -/
  | put (id : String) (now : Nat)
  | enqueue (id : String)
  /-- The submit gets a slot, starts its goroutine and returns. -/
  | launch (id : String)
  /-- A `WorkerPoll` up to its call of `runJob`. -/
  | poll
  /-- `Get`, and the call of the execute function if there is a job. -/
  | start (r : Run)
  /-- The run stores the result and ends. -/
  | finish (r : Run) (created : Nat)
  /-- `gcLoop` deletes a job. -/
  | expire (id : String) (now : Nat)

def AsyncManager.unstarted (m : AsyncManager) : Nat :=
  (m.submitted.filter (· ∉ m.executed)).length

def AsyncManager.release (m : AsyncManager) (r : Run) : AsyncManager :=
  { m with semaphore := if r.2 then m.semaphore - 1 else m.semaphore }

/-- A step of a manager with `maxWorkers` slots whose jobs live for `ttl`. -/
def AsyncManager.step (maxWorkers ttl : Nat) (m : AsyncManager) : Act → Option AsyncManager
  | .put id now =>
    if id ≠ "" ∧ id ∉ m.submitted then
      some { m with
        jobs := update m.jobs id (some now), stored := id :: m.stored
        submitted := id :: m.submitted }
    else none
  | .enqueue id =>
    if id ∈ m.stored then
      if m.queue.length < queueCapacity then
        some { m with
          queue := m.queue ++ [id], stored := m.stored.erase id, waiting := id :: m.waiting }
      else some { m with stored := m.stored.erase id, rejections := m.unstarted :: m.rejections }
    else none
  | .launch id =>
    if id ∈ m.waiting ∧ m.semaphore < maxWorkers then
      some { m with
        waiting := m.waiting.erase id, semaphore := m.semaphore + 1
        accepted := id :: m.accepted, runs := (id, true) :: m.runs }
    else none
  | .poll =>
    match m.queue with
    | [] => some m
    | id :: queue => some { m with queue, runs := (id, false) :: m.runs }
  | .start r =>
    if r ∈ m.runs then
      match m.jobs r.1 with
      | none => some { m.release r with runs := m.runs.erase r }
      | some created => some { m with
          runs := m.runs.erase r, running := (r, created) :: m.running
          executed := r.1 :: m.executed }
    else none
  | .finish r created =>
    if (r, created) ∈ m.running then
      some { m.release r with
        running := m.running.erase (r, created)
        jobs := update m.jobs r.1 (some created) }
    else none
  | .expire id now =>
    if ∃ created ∈ m.jobs id, created + ttl < now then
      some { m with jobs := update m.jobs id none }
    else none

/-- An accepted job is executed at most once, and once if none of its runs is still to start. -/
def AsyncManager.Once (m : AsyncManager) : Prop :=
  ∀ id ∈ m.accepted, m.executed.count id ≤ 1
    ∧ ((∀ r ∈ m.runs, r.1 ≠ id) → m.executed.count id = 1)

/-- No submit failed with a full queue while fewer jobs than fit the queue had not yet started. -/
def AsyncManager.Roomy (m : AsyncManager) : Prop :=
  ∀ n ∈ m.rejections, queueCapacity ≤ n

/-- No poller takes a job, no job expires before it is executed, and not more jobs are submitted
than fit the queue. -/
def Calm (m : AsyncManager) : Act → Prop
  | .put _ _ => m.submitted.length < queueCapacity
  | .poll => m.queue = []
  | .expire id _ => id ∈ m.executed
  | _ => True

/-- What holds in a calm run: every submit is at one place, and every accepted one has been executed
or has its goroutine. -/
structure Settled (m : AsyncManager) : Prop where
  nodup : m.submitted.Nodup
  place : ∀ id, m.stored.count id + m.waiting.count id + m.accepted.count id ≤ m.submitted.count id
  called : ∀ id, m.executed.count id + m.runs.count (id, true) = m.accepted.count id
  unpolled : ∀ r ∈ m.runs, r.2 = true
  present : ∀ id ∈ m.submitted, id ∉ m.executed → m.jobs id ≠ none
  room : m.queue.length + m.stored.length ≤ m.submitted.length ∧ m.submitted.length ≤ queueCapacity
  rejections : m.rejections = []

variable {m m' : AsyncManager}

/-- Moving an element from one list to another. -/
theorem count_move [DecidableEq α] {x : α} {l : List α} (hx : x ∈ l) (l' : List α) (i : α) :
    (l.erase x).count i + (x :: l').count i = l.count i + l'.count i := by
  grind

theorem Settled.step (h : Settled m) (hcl : Calm m a) (hs : m.step maxWorkers ttl a = some m') :
    Settled m' := by
  cases a with
  | put id now =>
    obtain ⟨⟨-, hn⟩, ⟨⟩⟩ := ite_none_right_eq_some.mp hs
    have hlt : m.submitted.length < queueCapacity := hcl
    have hrm := h.room.1
    exact { h with
      nodup := nodup_cons.mpr ⟨hn, h.nodup⟩
      place := fun i => by have := h.place i; simp only [count_cons]; omega
      present := fun i hi hne => by
        by_cases hid : i = id
        · simp [hid]
        · simpa [update_of_ne hid] using h.present i ((mem_cons.mp hi).resolve_left hid) hne
      room := by simp only [length_cons]; omega }
  | enqueue id =>
    obtain ⟨hm, hs⟩ := ite_none_right_eq_some.mp hs
    have hp := length_pos_of_mem hm
    have hrm := h.room
    rw [if_pos (by omega)] at hs
    cases hs
    exact { h with
      place := fun i => by
        have := h.place i
        have := count_move hm m.waiting i
        dsimp only
        omega
      room := by simp only [length_append, length_erase_of_mem hm, length_singleton]; omega }
  | launch id =>
    obtain ⟨⟨hm, -⟩, ⟨⟩⟩ := ite_none_right_eq_some.mp hs
    exact { h with
      place := fun i => by
        have := h.place i
        have := count_move hm m.accepted i
        dsimp only
        omega
      called := fun i => by
        have := h.called i
        simp only [count_cons, Prod.mk.injEq, beq_iff_eq, and_true]
        omega
      unpolled := forall_mem_cons.mpr ⟨rfl, h.unpolled⟩ }
  | poll =>
    have hnl : m.queue = [] := hcl
    simp only [AsyncManager.step, hnl, some.injEq] at hs
    exact hs ▸ h
  | start r =>
    obtain ⟨hm, hs⟩ := ite_none_right_eq_some.mp hs
    obtain ⟨id, slot⟩ := r
    cases (h.unpolled _ hm : slot = true)
    have hc := count_pos_iff.mpr hm
    have := nodup_iff_count_le_one.mp h.nodup id
    have := h.place id
    have := h.called id
    -- one goroutine is left for the job, so it has not been executed and is still there
    obtain ⟨created, hj⟩ := ne_none_iff_exists'.mp
      (h.present id (count_pos_iff.mp (by omega)) (count_eq_zero.mp (by omega)))
    simp only [hj, some.injEq] at hs
    subst hs
    exact { h with
      called := fun i => by
        have := h.called i
        grind
      unpolled := fun r hr => h.unpolled r (mem_of_mem_erase hr)
      present := fun i hi hne => h.present i hi fun hex => hne (mem_cons_of_mem _ hex) }
  | finish r created =>
    obtain ⟨hm, ⟨⟩⟩ := ite_none_right_eq_some.mp hs
    exact { h with
      present := fun i hi hne => by
        by_cases hid : i = r.1
        · simp [hid]
        · simpa [update_of_ne hid] using h.present i hi hne }
  | expire id now =>
    obtain ⟨hm, ⟨⟩⟩ := ite_none_right_eq_some.mp hs
    have hd : id ∈ m.executed := hcl
    exact { h with
      present := fun i hi hne => by
        have hid : i ≠ id := fun hid => hne (hid ▸ hd)
        simpa [update_of_ne hid] using h.present i hi hne }

theorem Settled.once (h : Settled m) : m.Once := by
  intro id hid
  have := count_pos_iff.mpr hid
  have := nodup_iff_count_le_one.mp h.nodup id
  have := h.place id
  have hc := h.called id
  refine ⟨by omega, fun hn => ?_⟩
  rw [count_eq_zero.mpr fun hm => hn _ hm rfl] at hc
  omega

/-- In every calm run each accepted job is executed exactly once, and no submit fails. -/
theorem calm_executed_once (maxWorkers ttl : Nat) (acts : List Act) (m : AsyncManager)
    (hrun : GoodRun (fun m a m' => m.step maxWorkers ttl a = some m') Calm .new acts m) :
    m.Once ∧ m.Roomy := by
  have h : Settled m := hrun.invariant (fun h hc hs => h.step hc hs)
    ⟨nodup_nil, fun _ => Nat.le_refl _, fun _ => rfl,
     by simp [AsyncManager.new], by simp [AsyncManager.new],
      by simp [AsyncManager.new], rfl⟩
  exact ⟨h.once, by simp [AsyncManager.Roomy, h.rejections]⟩

theorem calm_executed_once_one_job : ∃ m : AsyncManager, m.executed = ["a"] ∧ m.Once ∧ m.Roomy :=
  ⟨_, rfl, calm_executed_once 64 3600 [.put "a" 0, .enqueue "a", .launch "a", .start ("a", true)] _
    (.cons (show 0 < 10000 by decide) rfl
      (.cons trivial rfl (.cons trivial rfl (.cons trivial rfl (.nil _)))))⟩

/-- A poller takes the id of a job whose goroutine has been started, and the job is executed
twice. -/
theorem polled_job_executed_twice :
    ∃ m, [Act.put "a" 0, .enqueue "a", .launch "a", .poll, .start ("a", true),
        .start ("a", false)].foldlM (AsyncManager.step 64 3600) .new = some m
      ∧ "a" ∈ m.accepted ∧ m.executed = ["a", "a"] ∧ ¬ m.Once :=
  ⟨_, rfl, by decide, rfl, fun h => absurd (h "a" (by decide)).1 (by decide)⟩

end Rah.Async
