import Rah.Flow.Executor
import Rah.Lib.Run
import Mathlib.Data.List.Perm.Subperm
import Mathlib.Data.List.Nodup

/-!
# The parallel step

`ParallelStep` forks a context for every branch, lets a worker run each branch table, and
collects one result per branch from a channel until all are in, a mandatory branch has
failed in fail-fast mode, or the timer of the step expires.

A step below is one action of one goroutine: a worker takes its task, executes one
instruction of its table, works out whether its branch has failed, or sends the result; the
collector receives a result, sees its timer, leaves the loop, or returns. The workers and
the timer may be in any order and at any speed.

When the timer expires the collector leaves with what it has. It then fails only if a
mandatory branch is among the failed results it has received, so a branch that is still
running, or whose failure is still in the channel, is taken for a success. `Timely` asks
that this is not the case when the timer is seen; then a step that goes on has hidden
nothing.
-/

namespace Rah.Flow.Parallel

open Rah.Lib List

variable {σ : Type}

inductive BranchMode where
  /-- A failure propagates to the parent. -/
  | fail
  /-- A failure is swallowed. -/
  | ignore
  deriving DecidableEq, Repr

/-- An instruction table; an instruction without action is skipped. -/
abbrev Table (σ : Type) : Type := List (Option (InstructionFunc σ))

/-- The arguments of `ParallelStep`, but for the timeout. -/
structure Plan (σ : Type) where
  subTables : List (Table σ)
  /-- The tables that undo a branch; `none` is the strict mode. -/
  compensateTables : Option (List (Option (Table σ)))
  /-- `none` makes every branch mandatory. -/
  branchModes : Option (List BranchMode)
  failFast : Bool

/-- The number of branches. -/
def Plan.n (p : Plan σ) : Nat := p.subTables.length

def Plan.mode (p : Plan σ) (i : Nat) : BranchMode :=
  match p.branchModes with
  | none => .fail
  | some modes => (modes[i]?).getD .fail

/-- There is a table to undo branch `i` with. -/
def Plan.compensates (p : Plan σ) (i : Nat) : Bool :=
  match p.compensateTables with
  | none => false
  | some tables => ((tables[i]?).getD none).isSome

/-- The context of a branch: a reset one with the slots and the identity of the parent. -/
def acquireBranchCtx (inherit : σ → σ) (parent : Ctx σ) : Ctx σ :=
  { byteSlots := parent.byteSlots, intSlots := parent.intSlots, failed := false,
    responseStatus := parent.responseStatus, activeTx := false, txDepth := 0, calls := [],
    rest := inherit parent.rest }

def stopCancelled : Int := -2

/-- Where the worker of a branch stands. -/
inductive Worker (σ : Type) where
  | submitted (bc : Ctx σ)
  | running (bc : Ctx σ) (state : ExecutionState)
  /-- The branch is over, by the end of its table, a stop, a panic or a cancellation. -/
  | ended (bc : Ctx σ) (panicked : Bool)
  /-- Whether it has failed is known, and the result not yet sent. -/
  | settled (failed : Bool)
  | sent (failed : Bool)

/-- One turn of `executeBranchTable`. A failed stop has no handler to go to here. -/
def branchTurn (table : Table σ) (bc : Ctx σ) (state : ExecutionState) : Worker σ :=
  if 0 ≤ state.pc ∧ state.pc < int16 table.length then
    match table[state.pc.toNat]? with
    | none => .ended bc true
    | some none => .running bc { state with pc := state.next }
    | some (some action) =>
      match action bc state with
      | none => .ended bc true
      | some (nextPC, bc, state) =>
        if nextPC = stopPlan ∨ nextPC = stopCancelled then .ended { bc with failed := true } false
        else .running bc { state with pc := nextPC }
  else .ended bc false

structure BranchResult where
  branchIdx : Nat
  failed : Bool
  committed : Bool
  deriving DecidableEq, Repr

/-- Where the collector stands. -/
inductive Phase where
  | collecting
  /-- Out of the loop, before the compensation. -/
  | collected
  /-- The step has returned `pc`, has set `ctx.Failed` or not, and has undone these branches. -/
  | returned (pc : Int) (failed : Bool) (compensated : List Nat)
  deriving DecidableEq, Repr

structure State (σ : Type) where
  worker : Nat → Worker σ
  /-- The results sent and not yet received, oldest first. -/
  resultCh : List BranchResult
  /-- `cancelCh` is closed. -/
  cancelled : Bool
  results : List BranchResult
  anyHardFailed : Bool
  phase : Phase

/-- All branches are submitted and the collector enters its loop. -/
def start (inherit : σ → σ) (parent : Ctx σ) : State σ where
  worker := fun _ => .submitted (acquireBranchCtx inherit parent)
  resultCh := []
  cancelled := false
  results := []
  anyHardFailed := false
  phase := .collecting

def State.setWorker (s : State σ) (i : Nat) (w : Worker σ) : State σ :=
  { s with worker := fun j => if j = i then w else s.worker j }

inductive Act where
  | take (i : Nat)
  | instr (i : Nat)
  /-- The worker evaluates `failed`; `cancelled` is what it reads from the context. -/
  | settle (i : Nat) (cancelled : Bool)
  | send (i : Nat)
  | receive
  | expire
  | leave
  | finish
  deriving DecidableEq, Repr

/-- The branches to undo, the last collected first. -/
def compensations (p : Plan σ) (results : List BranchResult) : List Nat :=
  ((results.reverse.filter (fun r => r.committed && p.compensates r.branchIdx)).map
    BranchResult.branchIdx)

/-- A mandatory branch has failed. -/
def Plan.hard (p : Plan σ) (r : BranchResult) : Bool :=
  r.failed && decide (p.mode r.branchIdx = .fail)

/-- A worker takes the task of a branch and honours a cancellation before it starts. -/
def takeTask (s : State σ) (i : Nat) : Option (State σ) :=
  match s.worker i with
  | .submitted bc =>
    if s.cancelled then some (s.setWorker i (.ended { bc with failed := true } false))
    else some (s.setWorker i (.running bc { pc := 0, errorHandlerPC := 0 }))
  | _ => none

def runInstr (p : Plan σ) (s : State σ) (i : Nat) : Option (State σ) :=
  match s.worker i, p.subTables[i]? with
  | .running bc state, some table => some (s.setWorker i (branchTurn table bc state))
  | _, _ => none

/-- The worker evaluates `failed`, and cancels the other branches in fail-fast mode. -/
def settle (p : Plan σ) (s : State σ) (i : Nat) (ctxCancelled : Bool) : Option (State σ) :=
  match s.worker i with
  | .ended bc panicked =>
    let failed := panicked || bc.failed || ctxCancelled
    some { s.setWorker i (.settled failed) with
      cancelled := s.cancelled || (p.failFast && failed && decide (p.mode i = .fail)) }
  | _ => none

def sendResult (p : Plan σ) (s : State σ) (i : Nat) : Option (State σ) :=
  match s.worker i with
  | .settled failed =>
    some { s.setWorker i (.sent failed) with
      resultCh := s.resultCh ++ [⟨i, failed, !failed && p.compensates i⟩] }
  | _ => none

/-- The collector takes a result from the channel. -/
def receive (p : Plan σ) (s : State σ) : Option (State σ) :=
  match s.resultCh with
  | [] => none
  | r :: rest =>
    if s.phase = .collecting ∧ s.results.length < p.n then
      let anyHardFailed := s.anyHardFailed || p.hard r
      let stop := p.failFast && anyHardFailed
      some { s with
        resultCh := rest
        results := s.results ++ [r]
        anyHardFailed := anyHardFailed
        cancelled := s.cancelled || stop
        phase := if stop then .collected else .collecting }
    else none

/-- The end of the step: compensation, and the address it returns. -/
def finish (p : Plan σ) (state : ExecutionState) (s : State σ) : State σ :=
  if s.anyHardFailed then
    { s with phase := .returned stopPlan true (compensations p s.results) }
  else { s with phase := .returned state.next false [] }

def step (p : Plan σ) (state : ExecutionState) (s : State σ) : Act → Option (State σ)
  | .take i => if i < p.n then takeTask s i else none
  | .instr i => if i < p.n then runInstr p s i else none
  | .settle i ctxCancelled => if i < p.n then settle p s i ctxCancelled else none
  | .send i => if i < p.n then sendResult p s i else none
  | .receive => receive p s
  | .expire =>
    if s.phase = .collecting ∧ s.results.length < p.n then
      some { s with cancelled := true, phase := .collected }
    else none
  | .leave =>
    if s.phase = .collecting ∧ p.n ≤ s.results.length then some { s with phase := .collected }
    else none
  | .finish => if s.phase = .collected then some (finish p state s) else none

/-! ## What a step can be -/

/-- The worker is past its branch with an outcome that is not a failure. -/
def Worker.Succeeded : Worker σ → Prop
  | .settled failed => failed = false
  | .sent failed => failed = false
  | _ => False

/-- A worker that has neither evaluated its outcome nor sent it. -/
def Worker.Open : Worker σ → Prop
  | .settled _ => False
  | .sent _ => False
  | _ => True

/-- What a step can be, as far as results are concerned. -/
inductive Op (p : Plan σ) (state : ExecutionState) (s : State σ) : Act → State σ → Prop where
  /-- A worker goes on with a branch that is not settled, and may cancel the others. -/
  | work {a : Act} {i : Nat} {w : Worker σ} {cancelled : Bool} : (s.worker i).Open →
      Op p state s a { s.setWorker i w with cancelled := cancelled }
  | send {i : Nat} {failed : Bool} : i < p.n → s.worker i = .settled failed →
      Op p state s (.send i) { s.setWorker i (.sent failed) with
        resultCh := s.resultCh ++ [⟨i, failed, !failed && p.compensates i⟩] }
  | receive {r : BranchResult} {rest : List BranchResult} {cancelled : Bool} {phase : Phase} :
      s.resultCh = r :: rest → s.phase = .collecting →
      (phase = .collecting ∨ (phase = .collected ∧ (s.anyHardFailed || p.hard r) = true)) →
      Op p state s .receive { s with
        resultCh := rest
        results := s.results ++ [r]
        anyHardFailed := s.anyHardFailed || p.hard r
        cancelled := cancelled
        phase := phase }
  | expire : s.phase = .collecting → Op p state s .expire
      { s with cancelled := true, phase := .collected }
  | leave : s.phase = .collecting → p.n ≤ s.results.length → Op p state s .leave
      { s with phase := .collected }
  | finish : s.phase = .collected → Op p state s .finish (finish p state s)

variable {p : Plan σ} {s s' : State σ} {i : Nat} {w : Worker σ} {cancelled : Bool}

theorem step_op (h : step p state s a = some s') : Op p state s a s' := by
  cases a <;> dsimp only [step] at h
  case take i =>
    split at h
    · unfold takeTask at h
      cases hw : s.worker i with
      | submitted bc =>
        rw [hw] at h
        dsimp only at h
        have ho : (s.worker i).Open := by rw [hw]; trivial
        split at h
        · cases h
          exact .work ho
        · cases h
          exact .work ho
      | _ => rw [hw] at h; cases h
    · cases h
  case instr i =>
    split at h
    · unfold runInstr at h
      split at h
      · rename_i bc state' table hw _
        cases h
        exact .work (by rw [hw]; trivial)
      · cases h
    · cases h
  case settle i c =>
    split at h
    · unfold settle at h
      split at h
      · rename_i bc panicked hw
        cases h
        exact .work (by rw [hw]; trivial)
      · cases h
    · cases h
  case send i =>
    split at h
    · rename_i hi
      unfold sendResult at h
      split at h
      · rename_i failed hw
        cases h
        exact .send hi hw
      · cases h
    · cases h
  case receive =>
    unfold receive at h
    split at h
    · cases h
    rename_i r rest hch
    split at h
    · rename_i hc
      cases h
      refine .receive hch hc.1 ?_
      split
      · rename_i hs
        exact .inr ⟨rfl, (Bool.and_eq_true_iff.mp hs).2⟩
      · exact .inl rfl
    · cases h
  case expire =>
    split at h
    · rename_i hc
      cases h
      exact .expire hc.1
    · cases h
  case leave =>
    split at h
    · rename_i hc
      cases h
      exact .leave hc.1 hc.2
    · cases h
  case finish =>
    split at h
    · rename_i hc
      cases h
      exact .finish hc
    · cases h

/-! ## The invariant -/

/-- Every mandatory branch has completed and has not failed. -/
def AllMandatory (p : Plan σ) (s : State σ) : Prop :=
  ∀ i, i < p.n → p.mode i = .fail → (s.worker i).Succeeded

/-- The timer is not seen while a mandatory branch is unfinished or has failed, unless a failure
of one has been received. -/
def Timely (p : Plan σ) (s : State σ) : Act → Prop
  | .expire => s.anyHardFailed = true ∨ AllMandatory p s
  | _ => True

structure Inv (p : Plan σ) (s : State σ) : Prop where
  /-- A result tells what its worker has sent. -/
  sent : ∀ r ∈ s.results ++ s.resultCh,
    r.branchIdx < p.n ∧ s.worker r.branchIdx = .sent r.failed
  once : ((s.results ++ s.resultCh).map BranchResult.branchIdx).Nodup
  hard : s.anyHardFailed = false → ∀ r ∈ s.results, p.mode r.branchIdx = .fail → r.failed = false
  left : s.phase ≠ .collecting → s.anyHardFailed = true ∨ AllMandatory p s
  returned : ∀ pc failed compensated, s.phase = .returned pc failed compensated →
    failed = s.anyHardFailed

theorem inv_start (p : Plan σ) (inherit : σ → σ) (parent : Ctx σ) :
    Inv p (start inherit parent) where
  sent := by intro r hr; simp [start] at hr
  once := nodup_nil
  hard := by intro _ r hr; simp [start] at hr
  left := fun h => absurd rfl h
  returned := by intro _ _ _ h; simp [start] at h

@[simp] theorem setWorker_self (s : State σ) (i : Nat) (w : Worker σ) :
    (s.setWorker i w).worker i = w := by
  simp [State.setWorker]

theorem setWorker_ne (s : State σ) (w : Worker σ) (h : j ≠ i) :
    (s.setWorker i w).worker j = s.worker j := by
  simp [State.setWorker, h]

theorem Worker.Succeeded.not_open (h : w.Succeeded) : ¬ w.Open := by
  cases w <;> simp_all [Worker.Succeeded, Worker.Open]

/-- Work on an unsettled branch changes no branch that has succeeded. -/
theorem allMandatory_setWorker (h : AllMandatory p s) (hw : (s.worker i).Succeeded → w.Succeeded) :
    AllMandatory p (s.setWorker i w) := by
  intro j hj hm
  by_cases hji : j = i
  · subst hji
    rw [setWorker_self]
    exact hw (h j hj hm)
  · rw [setWorker_ne s w hji]
    exact h j hj hm

/-- With as many results as branches, every branch is among them. -/
theorem mem_results_of_full (h : Inv p s) (hf : p.n ≤ s.results.length) (hi : i < p.n) :
    ∃ r ∈ s.results, r.branchIdx = i := by
  have hnd : (s.results.map BranchResult.branchIdx).Nodup := by
    have ha := h.once
    rw [map_append] at ha
    exact ha.of_append_left
  have hs : (s.results.map BranchResult.branchIdx).Subperm (range p.n) := by
    refine hnd.subperm (fun k hk => ?_)
    obtain ⟨r, hr, rfl⟩ := mem_map.mp hk
    exact mem_range.mpr (h.sent r (mem_append_left _ hr)).1
  have hp := hs.perm_of_length_le (by simpa using hf)
  exact mem_map.mp (hp.mem_iff.mpr (mem_range.mpr hi))

/-- All results are in and none is a mandatory failure: the mandatory branches have succeeded. -/
theorem allMandatory_of_full (h : Inv p s) (hf : p.n ≤ s.results.length)
    (hc : s.anyHardFailed = false) : AllMandatory p s := by
  intro i hi hm
  obtain ⟨r, hr, rfl⟩ := mem_results_of_full h hf hi
  rw [(h.sent r (mem_append_left _ hr)).2]
  exact h.hard hc r hr hm

theorem inv_work (h : Inv p s) (ho : (s.worker i).Open) :
    Inv p { s.setWorker i w with cancelled := cancelled } := by
  refine ⟨?_, h.once, h.hard, ?_, h.returned⟩
  · intro r hr
    obtain ⟨hlt, hsn⟩ := h.sent r hr
    refine ⟨hlt, ?_⟩
    have hne : r.branchIdx ≠ i := by
      rintro rfl
      rw [hsn] at ho
      exact ho
    exact (setWorker_ne s w hne).trans hsn
  · intro hp
    rcases h.left hp with hh | ha
    · exact .inl hh
    · exact .inr (allMandatory_setWorker ha (fun hs => absurd ho hs.not_open))

theorem inv_send (h : Inv p s) (hi : i < p.n) (hw : s.worker i = .settled failed) :
    Inv p { s.setWorker i (.sent failed) with
      resultCh := s.resultCh ++ [⟨i, failed, committed⟩] } := by
  -- the branch has not sent before
  have hn : ∀ r ∈ s.results ++ s.resultCh, r.branchIdx ≠ i := by
    rintro r hr rfl
    have hsn := (h.sent r hr).2
    rw [hw] at hsn
    cases hsn
  refine ⟨?_, ?_, h.hard, ?_, h.returned⟩
  · intro r hr
    rw [← append_assoc] at hr
    rcases mem_append.mp hr with ho | hon
    · obtain ⟨hlt, hsn⟩ := h.sent r ho
      exact ⟨hlt, (setWorker_ne s _ (hn r ho)).trans hsn⟩
    · rw [mem_singleton] at hon
      subst hon
      exact ⟨hi, setWorker_self s i _⟩
  · rw [← append_assoc, map_append, nodup_append]
    refine ⟨h.once, by simp, ?_⟩
    intro a ha b hb
    obtain ⟨r, hr, rfl⟩ := mem_map.mp ha
    simp only [map_cons, map_nil, mem_singleton] at hb
    subst hb
    exact hn r hr
  · intro hp
    rcases h.left hp with hh | hal
    · exact .inl hh
    · refine .inr (allMandatory_setWorker hal (fun hs => ?_))
      rw [hw] at hs
      exact hs

theorem inv_receive (h : Inv p s) (hch : s.resultCh = r :: rest) (hp : phase = .collecting
      ∨ (phase = .collected ∧ (s.anyHardFailed || p.hard r) = true)) :
    Inv p { s with
      resultCh := rest
      results := s.results ++ [r]
      anyHardFailed := s.anyHardFailed || p.hard r
      cancelled := cancelled
      phase := phase } := by
  have hm : s.results ++ [r] ++ rest = s.results ++ s.resultCh := by
    rw [hch, append_assoc, singleton_append]
  refine ⟨?_, ?_, ?_, ?_, ?_⟩
  · intro q hq
    rw [hm] at hq
    exact h.sent q hq
  · rw [hm]
    exact h.once
  · intro hcl q hq hmd
    rw [Bool.or_eq_false_iff] at hcl
    rcases mem_append.mp hq with hol | ho
    · exact h.hard hcl.1 q hol hmd
    rw [mem_singleton] at ho
    subst ho
    have hh := hcl.2
    rw [Plan.hard, decide_eq_true hmd, Bool.and_true] at hh
    exact hh
  · intro hl
    rcases hp with hc | ⟨_, hh⟩
    · exact absurd hc hl
    · exact .inl hh
  intro pc failed compensated hr
  rcases hp with hc | ⟨hc, _⟩
  · rw [hc] at hr
    cases hr
  · rw [hc] at hr
    cases hr

theorem inv_finish (state : ExecutionState) (h : Inv p s)
    (hp : s.phase = .collected) : Inv p (finish p state s) := by
  have hl := h.left (by rw [hp]; simp)
  unfold finish
  split
  · rename_i hh
    refine ⟨h.sent, h.once, h.hard, fun _ => .inl hh, ?_⟩
    intro pc failed compensated hr
    cases hr
    exact hh.symm
  · rename_i hc
    refine ⟨h.sent, h.once, h.hard, fun _ => hl, ?_⟩
    intro pc failed compensated hr
    cases hr
    exact (Bool.not_eq_true _ ▸ hc).symm

/-- The collector has left its loop for a reason that keeps the property. -/
theorem inv_leave (h : Inv p s) (hs : s.anyHardFailed = true ∨ AllMandatory p s) :
    Inv p { s with cancelled := cancelled, phase := .collected } := by
  refine ⟨h.sent, h.once, h.hard, fun _ => hs, ?_⟩
  nofun

theorem inv_op (h : Inv p s) (ht : Timely p s a) (hop : Op p state s a s') : Inv p s' := by
  cases hop with
  | work ho => exact inv_work h ho
  | send hi hw => exact inv_send h hi hw
  | receive hch _ hp => exact inv_receive h hch hp
  | expire hp => exact inv_leave h ht
  | leave hp hf =>
    refine inv_leave h ?_
    cases hh : s.anyHardFailed with
    | true => exact .inl rfl
    | false => exact .inr (allMandatory_of_full h hf hh)
  | finish hp => exact inv_finish state h hp

/-- **Nothing mandatory is hidden.** In every run whose timer, if it is seen at all, is seen
timely, a step that returns without failing has every mandatory branch completed and not
failed. -/
theorem allMandatory_of_returned {p : Plan σ} {state : ExecutionState} {inherit : σ → σ}
    {parent : Ctx σ} {acts : List Act} {s : State σ}
    (h : GoodRun (fun s a s' => step p state s a = some s') (Timely p)
      (start inherit parent) acts s)
    {pc : Int} {compensated : List Nat} (hret : s.phase = .returned pc false compensated) :
    AllMandatory p s := by
  have hi : Inv p s :=
    h.invariant (fun hi ht hs => inv_op hi ht (step_op hs)) (inv_start p inherit parent)
  rcases hi.left (by rw [hret]; simp) with hh | ha
  · have hf := hi.returned pc false compensated hret
    rw [hh] at hf
    cases hf
  · exact ha

/-- A mandatory and an optional branch, both without instructions. -/
def twoBranches : Plan Unit where
  subTables := [[], []]
  compensateTables := none
  branchModes := some [.fail, .ignore]
  failFast := false

/-- The timer is seen when the mandatory branch is in and the optional one has not begun. -/
theorem allMandatory_optional_late : ∃ s,
    GoodRun (fun s a s' => step twoBranches ⟨4, 0⟩ s a = some s') (Timely twoBranches)
      (start id freshCtx)
      [.take 0, .instr 0, .settle 0 false, .send 0, .receive, .expire, .finish] s
    ∧ s.phase = .returned 5 false [] ∧ AllMandatory twoBranches s := by
  have hrn : ∃ s, GoodRun (fun s a s' => step twoBranches ⟨4, 0⟩ s a = some s')
      (Timely twoBranches) (start id freshCtx)
      [.take 0, .instr 0, .settle 0 false, .send 0, .receive, .expire, .finish] s
      ∧ s.phase = .returned 5 false [] := by
    refine ⟨_, .cons trivial rfl (.cons trivial rfl (.cons trivial rfl (.cons trivial rfl
      (.cons trivial rfl (.cons (.inr ?_) rfl (.cons trivial rfl (.nil _))))))), rfl⟩
    intro i hi hm
    cases i with
    | zero => rfl
    | succ i =>
      have hlt : i + 1 < 2 := hi
      obtain rfl : i = 0 := by omega
      cases hm
  obtain ⟨s, hg, hr⟩ := hrn
  exact ⟨s, hg, hr, allMandatory_of_returned hg hr⟩

/-- One mandatory branch. -/
def oneBranch : Plan Unit where
  subTables := [[]]
  compensateTables := none
  branchModes := none
  failFast := true

/-- **An unfinished mandatory branch is hidden by the timeout**: the timer is seen before the
branch has begun, and the step goes on at the next address. -/
theorem timeout_hides_branch : ∃ s : State Unit,
    [Act.expire, .finish].foldlM (step oneBranch ⟨4, 0⟩) (start id freshCtx) = some s
    ∧ s.phase = .returned 5 false [] ∧ ¬ AllMandatory oneBranch s := by
  refine ⟨_, rfl, rfl, fun h => ?_⟩
  exact h 0 (by decide) rfl

end Rah.Flow.Parallel
