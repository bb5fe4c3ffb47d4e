import Rah.Flow.Tx

/-!
# When a transaction commits

All calls of the database succeed, and so do all steps. A transaction without another
one in it begins, writes and commits, and its rollback finds nothing open. In a nest the
first commit to run is that of an innermost transaction. It releases the savepoint and
falls through to its rollback, which finds the next outer transaction open and rolls
that one back. So the nest rolls back before anything is committed.
-/

namespace Rah.Flow

open Rah.Lib List Steps DbCall

variable {σ : Type}

/-- Undoes something. -/
def DbCall.IsRollback : DbCall → Prop
  | .rollback => True
  | .rollbackTo _ => True
  | _ => False

def DbCall.write? : DbCall → Option Nat
  | .write w => some w
  | _ => none

/-- Exactly one commit, after the given writes and no others, with nothing undone before it. -/
def CommittedOnce (ws : List Nat) (calls : List DbCall) : Prop :=
  ∃ pre post, calls = pre ++ .commit :: post ∧ .commit ∉ pre ∧ .commit ∉ post
    ∧ pre.filterMap write? = ws ∧ post.filterMap write? = []
    ∧ ∀ call ∈ pre, ¬ call.IsRollback

/-- The calls that the run of `Execute` from the first instruction has made when it ends. -/
def EndsWith (table : List (InstructionFunc σ)) (ctx : Ctx σ) (P : List DbCall → Prop) : Prop :=
  ∃ vs c, Path (turn table) (start ctx 0) vs c ∧ ¬ Running table c ∧ P c.ctx.calls

/-- The instruction succeeds with these writes, and leaves the transaction alone. -/
def Writes (action : InstructionFunc σ) (ws : List Nat) : Prop :=
  ∀ ctx state, ∃ ctx', action ctx state = some (state.next, ctx', state)
    ∧ ctx'.activeTx = ctx.activeTx ∧ ctx'.txDepth = ctx.txDepth
    ∧ ctx'.calls = ctx.calls ++ ws.map .write

/-- Every step succeeds, and these are the writes of all levels, in order. -/
inductive Succeeds : Steps σ → List Nat → Prop where
  | nil : Succeeds .nil []
  | leaf {action : InstructionFunc σ} {rest : Steps σ} {ws ws' : List Nat} :
      Writes action ws → Succeeds rest ws' → Succeeds (.leaf action rest) (ws ++ ws')
  | transaction {dataSource : String} {body rest : Steps σ} {ws ws' : List Nat} :
      Succeeds body ws → Succeeds rest ws' →
      Succeeds (.transaction dataSource body rest) (ws ++ ws')

/-- No transaction among the steps, at any level. -/
def Steps.Flat : Steps σ → Prop
  | .nil => True
  | .leaf _ rest => rest.Flat
  | .transaction _ _ _ => False

/-- How deep transactions are nested. -/
def Steps.nesting : Steps σ → Nat
  | .nil => 0
  | .leaf _ rest => rest.nesting
  | .transaction _ body rest => max (body.nesting + 1) rest.nesting

theorem Steps.nesting_eq_zero_iff (steps : Steps σ) : steps.nesting = 0 ↔ steps.Flat := by
  induction steps with
  | nil => simp [nesting, Flat]
  | leaf _ rest ih => rw [nesting, Flat, ih]
  | transaction _ body rest _ _ =>
    refine iff_of_false ?_ id
    rw [nesting]
    omega

/-- The calls a transaction needs succeed. -/
structure Db.Succeeds (db : Db) (dataSource : String) : Prop where
  pool : db.pools dataSource = true
  begin : ∀ before, db.outcome before .begin = true
  savepoint : ∀ before n, db.outcome before (.savepoint n) = true
  release : ∀ before n, db.outcome before (.release n) = true
  commit : ∀ before, db.outcome before .commit = true

/-! ## Runs of compiled steps -/

section Runs

variable {db : Db} {flow : Steps σ}

variable {base p : Nat} {part : List (Instruction σ × List Nat)} {source dataSource : String}
  {body steps : Steps σ} {enclosing ws above : List Nat} {ctx ctx' : Ctx σ}

/-- An instruction that falls through. -/
theorem turn_falls (db : Db) (state : ExecutionState) (hs : flow.size < 32768)
    (hp : (flow.located 0 [])[p]? = some (instr, enclosing))
    (ha : instr.action db ctx { state with pc := p }
      = some (({ state with pc := p } : ExecutionState).next, ctx', state')) :
    turn (flow.table db) ⟨p, ctx, state⟩
      = some { pc := (p + 1 : Nat), ctx := ctx', state := state' } := by
  rw [turn_located hs hp rfl, ha, next_located hs hp, Option.map_some]
  rw [redirect_of_ne (by unfold stopPlan; omega)]

/-- Steps without a transaction run through, with their writes. -/
theorem flat_run (db : Db) (hsz : flow.size < 32768) (hs : Succeeds steps ws) (hf : steps.Flat)
    (hh : Held flow base (steps.located base enclosing)) (ctx : Ctx σ) (state : ExecutionState) :
    ∃ vs ctx' state', Path (turn (flow.table db)) ⟨base, ctx, state⟩ vs
        ⟨(base + steps.size : Nat), ctx', state'⟩
      ∧ state'.errorHandlerPC = state.errorHandlerPC ∧ ctx'.activeTx = ctx.activeTx
      ∧ ctx'.txDepth = ctx.txDepth ∧ ctx'.calls = ctx.calls ++ ws.map .write := by
  induction hs generalizing base ctx state with
  | nil => exact ⟨[], ctx, state, .nil _, rfl, rfl, rfl, by simp⟩
  | @leaf action rest ws ws' hl _ ih =>
    obtain ⟨ctx₁, hac, ha, hd, hc⟩ := hl ctx { state with pc := base }
    have ht := turn_falls db state hsz hh.head hac
    obtain ⟨vs, ctx₂, state2, hp, heh, ha₂, hd₂, hc₂⟩ :=
      ih hf hh.tail ctx₁ { state with pc := base }
    have he : base + 1 + rest.size = base + (leaf action rest).size := by
      rw [size]
      omega
    rw [he] at hp
    refine ⟨_, ctx₂, state2, .cons ht hp, heh, ha₂.trans ha, hd₂.trans hd, ?_⟩
    rw [hc₂, hc, map_append, append_assoc]
  | transaction _ _ _ _ => exact hf.elim

/-- The rollback of an open transaction undoes something. -/
theorem turn_rollback (db : Db) (hs : flow.size < 32768)
    (hp : (flow.located 0 [])[p]? = some (.rollbackTx, enclosing)) (ctx : Ctx σ)
    (state : ExecutionState) (ha : ctx.activeTx = true) (hd : 1 ≤ ctx.txDepth) :
    ∃ c call, turn (flow.table db) ⟨p, ctx, state⟩ = some c
      ∧ c.ctx.calls = ctx.calls ++ [call] ∧ call.IsRollback := by
  by_cases ho : ctx.txDepth = 1
  · exact ⟨_, _, turn_falls _ _ hs hp (rollbackTx_outer ha ho), rfl, trivial⟩
  · exact ⟨_, _, turn_falls _ _ hs hp (rollbackTx_inner ha (by omega)), rfl, trivial⟩

/-- A `BEGIN_TX` beyond the greatest depth fails, and the executor goes to the error handler. -/
theorem turn_begin_full (db : Db) (hs : flow.size < 32768)
    (hp : (flow.located 0 [])[p]? = some (.beginTx source r, enclosing)) (ctx : Ctx σ)
    (state : ExecutionState) (hm : maxTxDepth ≤ ctx.txDepth) (heh : state.errorHandlerPC ≠ 0) :
    turn (flow.table db) ⟨p, ctx, state⟩
      = some { pc := state.errorHandlerPC, ctx := ctx.fail,
               state := ⟨p, 0⟩ } := by
  rw [turn_located hs hp rfl, Instruction.action, beginTx_full hm, Option.map_some]
  rw [redirect, if_pos ⟨rfl, rfl, heh⟩]

/-- **A nest of transactions rolls back before it commits.** From inside an open transaction,
steps with a transaction among them come to a rollback, and no commit has been made. -/
theorem nested_rolls_back (hdb : db.Succeeds dataSource) (hsz : flow.size < 32768)
    (hs : Succeeds steps ws) (hn : ¬ steps.Flat)
    (hhl : Held flow base (steps.located base enclosing)) (ctx : Ctx σ) (state : ExecutionState)
    (ha : ctx.activeTx = true) (hd : 1 ≤ ctx.txDepth) {h : Nat}
    (heh : state.errorHandlerPC = h) (hps : h ≠ 0)
    (hr : (flow.located 0 [])[h]? = some (.rollbackTx, above)) :
    ∃ vs c calls call, Path (turn (flow.table db)) ⟨base, ctx, state⟩ vs c
      ∧ c.ctx.calls = ctx.calls ++ calls ++ [call] ∧ .commit ∉ calls ∧ call.IsRollback := by
  induction hs generalizing base enclosing ctx state h above with
  | nil => exact absurd trivial hn
  | @leaf action rest ws ws' hl _ ih =>
    obtain ⟨ctx₁, hac, ha₁, hd₁, hc₁⟩ := hl ctx { state with pc := base }
    have ht := turn_falls db state hsz hhl.head hac
    obtain ⟨vs, c, calls, call, hp, hcl, hnt, hc⟩ := ih hn hhl.tail ctx₁
      { state with pc := base } (ha₁.trans ha) (by rw [hd₁]; exact hd) heh hps hr
    refine ⟨_, c, ws.map .write ++ calls, call, .cons ht hp, ?_, ?_, hc⟩
    · rw [hcl, hc₁]
      simp only [append_assoc]
    · simp [hnt]
  | @transaction source body rest ws ws' hbd _ ihBody _ =>
    obtain ⟨hb, hh, hcm, ho⟩ := hhl.transaction
    have hlt := lt_size ho
    rw [int16_of_lt (by omega) (by omega)] at hb
    by_cases hm : ctx.txDepth < maxTxDepth
    · let ctx₁ := { ctx.issue (.savepoint (ctx.txDepth + 1)) with txDepth := ctx.txDepth + 1 }
      have ht₁ := turn_falls db state hsz hb (beginTx_nest hd hm (hdb.savepoint _ _))
      by_cases hf : body.Flat
      · -- an innermost transaction: its commit runs into its rollback
        obtain ⟨vs, ctx₂, state2, hp, _, ha₂, hd₂, hc₂⟩ := flat_run db hsz hbd hf hh ctx₁ _
        have ha₂ : ctx₂.activeTx = true := ha₂.trans ha
        have hd₂ : ctx₂.txDepth = ctx.txDepth + 1 := hd₂
        have ht₃ := turn_falls db state2 hsz hcm
          (commitTx_inner ha₂ (by omega) (hdb.release _ _))
        rw [show base + 1 + body.size + 1 = base + body.size + 2 by omega] at ht₃
        obtain ⟨c, call, ht₄, hc₄, hc⟩ := turn_rollback db hsz ho { ctx₂.issue
          (.release ctx₂.txDepth) with txDepth := ctx₂.txDepth - 1 } _ ha₂ (by dsimp only; omega)
        refine ⟨_, c, .savepoint (ctx.txDepth + 1) :: ws.map .write ++ [.release ctx₂.txDepth],
          call, .cons ht₁ (hp.append (.cons ht₃ (.single ht₄))), ?_, by simp, hc⟩
        simp only [hc₄, hc₂, ctx₁, Ctx.issue, append_assoc, cons_append, nil_append]
      · obtain ⟨vs, c, calls, call, hp, hcl, hnt, hc⟩ := ihBody hf hh ctx₁
          ⟨base, (base + body.size + 2 : Nat)⟩ ha (by dsimp only [ctx₁]; omega) rfl (by omega) ho
        refine ⟨_, c, .savepoint (ctx.txDepth + 1) :: calls, call, .cons ht₁ hp, ?_, by simp [hnt],
          hc⟩
        simp only [hcl, ctx₁, Ctx.issue, append_assoc, cons_append, nil_append]
    · -- too deep: the rollback of the transaction around it
      have ht₁ := turn_begin_full db hsz hb ctx state (by omega) (by omega)
      rw [heh] at ht₁
      obtain ⟨c, call, ht₂, hc₂, hc⟩ := turn_rollback db hsz hr ctx.fail ⟨base, 0⟩ ha hd
      refine ⟨_, c, [], call, .cons ht₁ (.single ht₂), ?_, by simp, hc⟩
      rw [append_nil]
      exact hc₂

/-! ## Calls are never taken back -/

theorem action_calls {instr : Instruction σ} {state state' : ExecutionState}
    (hl : ∀ action, instr = .leaf action → ∃ ws, Writes action ws)
    (h : instr.action db ctx state = some (pc, ctx', state')) : ctx.calls <+: ctx'.calls := by
  cases instr with
  | leaf action =>
    obtain ⟨ws, hw⟩ := hl action rfl
    obtain ⟨ctx₁, ha, _, _, hc⟩ := hw ctx state
    rw [Instruction.action, ha] at h
    cases h
    rw [hc]
    exact prefix_append _ _
  | beginTx source r =>
    rcases beginTx_cases h with ⟨_, _, ⟨_, rfl⟩ | ⟨_, rfl⟩⟩ | ⟨_, _, rfl | ⟨_, rfl⟩⟩
    · exact prefix_append _ _
    · exact prefix_append _ _
    · exact prefix_refl _
    · exact prefix_append _ _
  | commitTx =>
    rcases commitTx_cases h with
      ⟨_, ⟨_, ⟨rfl, _⟩ | ⟨_, rfl⟩ | ⟨_, rfl⟩⟩ | ⟨_, ⟨_, rfl⟩ | ⟨_, _, rfl⟩⟩⟩
    · exact prefix_refl _
    · exact prefix_append _ _
    · exact prefix_append _ _
    · exact (prefix_append _ _).trans (prefix_append _ _)
    · exact (prefix_append _ _).trans (prefix_append _ _)
  | rollbackTx =>
    rcases rollbackTx_cases h with ⟨_, _, ⟨rfl, _⟩ | ⟨_, rfl⟩ | ⟨_, rfl⟩⟩
    · exact prefix_refl _
    · exact prefix_append _ _
    · exact prefix_append _ _

/-- The steps of a flow that succeeds. -/
theorem Succeeds.leaf_writes (hs : Succeeds steps ws)
    (h : (.leaf action, above) ∈ steps.located base enclosing) : ∃ ws', Writes action ws' := by
  induction hs generalizing base enclosing with
  | nil => simp [located] at h
  | leaf hl _ ih =>
    rcases mem_cons.mp h with h | h
    · cases h
      exact ⟨_, hl⟩
    · exact ih h
  | transaction _ _ ihBody ihRest =>
  simp only [located, mem_cons, mem_append, Prod.mk.injEq, reduceCtorEq,
    false_and, false_or] at h
  rcases h with h | h
  · exact ihBody h
  · exact ihRest h

theorem path_calls (hs : Succeeds flow ws) {c c' : Config σ} {vs : List (Config σ)}
    (h : Path (turn (flow.table db)) c vs c') : c.ctx.calls <+: c'.ctx.calls := by
  induction h with
  | nil => exact prefix_refl _
  | cons ht _ ih =>
  obtain ⟨_, i, action, pc, ctx, state, _, ha, hac, rfl⟩ := turn_some ht
  rw [table_eq, getElem?_map, Option.map_eq_some_iff] at ha
  obtain ⟨⟨instr, above⟩, hi, rfl⟩ := ha
  rw [redirect_ctx] at ih
  refine (action_calls ?_ hac).trans ih
  intro action hin
  subst hin
  exact hs.leaf_writes (mem_of_getElem? hi)

/-! ## The whole run -/

/-- What is undone before any commit is undone before the first one. -/
theorem not_committedOnce {calls before : List DbCall} {call : DbCall}
    (hu : before ++ [call] <+: calls) (hn : .commit ∉ before) (hc : call.IsRollback) :
    ¬ CommittedOnce ws calls := by
  intro h
  obtain ⟨pre, post, rfl, _, _, _, _, hp⟩ := h
  obtain ⟨more, hm⟩ := hu
  rw [append_assoc, append_eq_append_iff] at hm
  rcases hm with ⟨as, hpre', heq⟩ | ⟨as, hb, heq⟩
  · cases as with
    | nil =>
      rw [(cons.inj heq).1] at hc
      exact hc
    | cons a as =>
      refine hp call ?_ hc
      rw [hpre', (cons.inj heq).1]
      simp
  · cases as with
    | nil =>
      rw [← (cons.inj heq).1] at hc
      exact hc
    | cons a as =>
      refine hn ?_
      rw [hb, (cons.inj heq).1]
      simp

theorem not_running_end (hs : flow.size < 32768) {c : Config σ} (hpc : c.pc = flow.size) :
    ¬ Running (flow.table db) c := by
  intro h
  have hlt := h.2
  rw [table_length, int16_of_lt (by omega) (by omega)] at hlt
  omega

/-- A transaction without another one in it begins, writes and commits. -/
theorem flat_commits (hdb : db.Succeeds source) (hs : Succeeds body ws) (hf : body.Flat)
    (hsz : (transaction source body .nil).size < 32768) (hd : ctx.txDepth = 0)
    (hcl : ctx.calls = []) :
    EndsWith ((transaction source body .nil).table db) ctx (CommittedOnce ws) := by
  obtain ⟨hb, hbd, hcm, hr⟩ := (Held.all (transaction source body .nil)).transaction
  let ctx₁ := { ctx.issue .begin with activeTx := true, txDepth := 1 }
  have ht₁ := turn_falls db (start ctx 0).state hsz hb (beginTx_open hd hdb.pool (hdb.begin _))
  obtain ⟨vs, ctx₂, state2, hp, _, ha₂, hd₂, hc₂⟩ := flat_run db hsz hs hf hbd ctx₁ _
  have ht₃ := turn_falls db state2 hsz hcm (commitTx_outer ha₂ hd₂ (hdb.commit _))
  rw [show 0 + 1 + body.size + 1 = 0 + body.size + 2 by omega] at ht₃
  have ha₃ : { ctx₂.issue .commit with activeTx := false, txDepth := 0 }.activeTx = false := rfl
  have ht₄ := turn_falls db ⟨(0 + 1 + body.size : Nat), 0⟩ hsz hr (rollbackTx_closed ha₃)
  refine ⟨_, _, .cons ht₁ (hp.append (.cons ht₃ (.single ht₄))), ?_, ?_⟩
  · refine not_running_end hsz ?_
    simp only [size]
    omega
  have hw : ∀ ws : List Nat, (ws.map write).filterMap write? = ws := by
    intro ws
    rw [filterMap_map]
    exact filterMap_some
  refine ⟨.begin :: ws.map .write, [], ?_, by simp, by simp, ?_, rfl, ?_⟩
  · simp only [hc₂, ctx₁, Ctx.issue, hcl]
    rfl
  · exact hw ws
  intro call hc
  rcases mem_cons.mp hc with hc | hc
  · rw [hc]
    exact id
  · obtain ⟨w, _, rfl⟩ := mem_map.mp hc
    exact id

/-- **A transaction whose steps and calls all succeed commits exactly when no other is nested
in it.** -/
theorem commits_iff_not_nested {source : String} (hdb : db.Succeeds source) {body : Steps σ}
    {ws : List Nat} (hs : Succeeds body ws)
    (hsize : (transaction source body .nil).size < 32768) {ctx : Ctx σ}
    (hdepth : ctx.txDepth = 0) (hcalls : ctx.calls = []) :
    EndsWith ((transaction source body .nil).table db) ctx (CommittedOnce ws)
      ↔ (transaction source body .nil).nesting = 1 := by
  have ho : (transaction source body .nil).nesting = 1 ↔ body.Flat := by
    rw [← body.nesting_eq_zero_iff, nesting, nesting]
    omega
  rw [ho]
  refine ⟨?_, fun hf => flat_commits hdb hs hf hsize hdepth hcalls⟩
  intro h
  by_contra hf
  obtain ⟨vs, c, hp, hen, hc⟩ := h
  obtain ⟨hb, hbd, _, hr⟩ := (Held.all (transaction source body .nil)).transaction
  have hlt : body.size + 0 + 3 < 32768 := hsize
  rw [int16_of_lt (by omega) (by omega)] at hb
  let ctx₁ := { ctx.issue .begin with activeTx := true, txDepth := 1 }
  have ht₁ := turn_falls db (start ctx 0).state hsize hb
    (beginTx_open hdepth hdb.pool (hdb.begin _))
  obtain ⟨us, d, calls, call, hpath', hcalls', hn, hcl⟩ :=
    nested_rolls_back hdb hsize hs hf hbd ctx₁
      ⟨(0 : Nat), (0 + body.size + 2 : Nat)⟩ rfl (Int.le_refl 1) rfl (by omega) hr
  -- the run comes through the rollback on its way to the end
  have hu := Path.cons ht₁ hpath'
  obtain ⟨_, _, hrs⟩ := hu.through (P := fun v => ¬ Running _ v)
    (fun v hv h => h (running_of_path hu v hv)) hp hen
  have he := path_calls (.transaction hs .nil) hrs
  simp only [hcalls', ctx₁, Ctx.issue, hcalls] at he
  exact not_committedOnce he (by simp [hn]) hcl hc

end Runs

/-! ## Concrete nests -/

/-- A step that issues one statement. -/
def writeStep (w : Nat) : InstructionFunc Unit :=
  fun ctx state => some (state.next, ctx.issue (.write w), state)

theorem writeStep_writes (w : Nat) : Writes (writeStep w) [w] :=
  fun ctx _ => ⟨ctx.issue (.write w), rfl, rfl, rfl, rfl⟩

theorem goodDb_succeeds (source : String) : goodDb.Succeeds source :=
  ⟨rfl, fun _ => rfl, fun _ _ => rfl, fun _ _ => rfl, fun _ => rfl⟩

theorem commits_single : EndsWith
    ((transaction "db" (.leaf (writeStep 7) .nil) .nil).table goodDb) freshCtx
    (CommittedOnce [7]) :=
  (commits_iff_not_nested (goodDb_succeeds "db") (.leaf (writeStep_writes 7) .nil) (by decide)
    rfl rfl).mpr rfl

/-- Two levels: the inner commit is followed by a rollback of the outer transaction, and
nothing is ever committed. -/
theorem nested_never_commits : EndsWith
    ((transaction "db" (.transaction "db" (.leaf (writeStep 7) .nil) .nil) .nil).table goodDb)
    freshCtx (fun calls => calls
      = [.begin, .savepoint 2, .write 7, .release 2, .rollback] ∧ ¬ CommittedOnce [7] calls) := by
  refine ⟨_, _, .cons rfl (.cons rfl (.cons rfl (.cons rfl (.cons rfl (.cons rfl (.cons rfl
    (.nil _))))))), ?_, rfl, ?_⟩
  · decide
  · have hu : [.begin, .savepoint 2, .write 7, .release 2] ++ [rollback]
        <+: [.begin, .savepoint 2, .write 7, .release 2, .rollback] := prefix_refl _
    exact not_committedOnce hu (by decide) trivial

end Rah.Flow
