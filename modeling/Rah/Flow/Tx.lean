import Rah.Flow.Executor
import Mathlib.Data.List.Basic

/-!
# Transactions

A `transaction` step is compiled as `BEGIN_TX`, its body, `COMMIT_TX` and `ROLLBACK_TX`.
The first two of these instructions fall through to the next address, so a commit is
followed by the rollback of the same step. `BEGIN_TX` arms the error handler with the
address of the rollback; the other two disarm it.

The database is a parameter: which data sources exist, and which calls succeed after
which others. The context keeps the list of the calls made.
-/

namespace Rah.Flow

open List

variable {σ : Type}

/-- The database as the instructions see it. -/
structure Db where
  /-- `atomicPool.Get`: the data source is configured. -/
  pools : String → Bool
  /-- The call succeeds, after the calls made before it. -/
  outcome : List DbCall → DbCall → Bool

/-- A database on which every call succeeds. -/
def goodDb : Db := { pools := fun _ => true, outcome := fun _ _ => true }

def maxTxDepth : Int := 8

def Ctx.issue (ctx : Ctx σ) (call : DbCall) : Ctx σ :=
  { ctx with calls := ctx.calls ++ [call] }

/-- The end of every failing branch. -/
def Ctx.fail (ctx : Ctx σ) : Ctx σ :=
  { ctx with responseStatus := 500, failed := true }

/-- `rah_sp_N` is the savepoint of depth `N`. -/
def beginTx (db : Db) (sourceName : String) (rollbackPC : Int) : InstructionFunc σ :=
  fun ctx state =>
    if ctx.txDepth = 0 then
      if db.pools sourceName then
        if db.outcome ctx.calls .begin then
          some (state.next, { ctx.issue .begin with activeTx := true, txDepth := 1 },
            { state with errorHandlerPC := rollbackPC })
        else some (stopPlan, (ctx.issue .begin).fail, state)
      else some (stopPlan, ctx.fail, state)
    else if ctx.txDepth < maxTxDepth then
      let call := DbCall.savepoint (ctx.txDepth + 1)
      if db.outcome ctx.calls call then
        some (state.next, { ctx.issue call with txDepth := ctx.txDepth + 1 },
          { state with errorHandlerPC := rollbackPC })
      else some (stopPlan, (ctx.issue call).fail, state)
    else some (stopPlan, ctx.fail, state)

def commitTx (db : Db) : InstructionFunc σ :=
  fun ctx state =>
    let state := { state with errorHandlerPC := 0 }
    if ctx.activeTx = false then some (state.next, ctx, state)
    else if ctx.txDepth = 1 then
      if db.outcome ctx.calls .commit then
        some (state.next, { ctx.issue .commit with activeTx := false, txDepth := 0 }, state)
      else
        some (stopPlan,
          { ((ctx.issue .commit).issue .rollback).fail with
            activeTx := false, txDepth := 0 }, state)
    else if ctx.txDepth > 1 then
      let call := DbCall.release ctx.txDepth
      if db.outcome ctx.calls call then
        some (state.next, { ctx.issue call with txDepth := ctx.txDepth - 1 }, state)
      else
        some (stopPlan, { ((ctx.issue call).issue (.rollbackTo ctx.txDepth)).fail with
          txDepth := ctx.txDepth - 1 }, state)
    else some (state.next, ctx, state)

def rollbackTx : InstructionFunc σ :=
  fun ctx state =>
    let state := { state with errorHandlerPC := 0 }
    if ctx.activeTx = false then some (state.next, ctx, state)
    else if ctx.txDepth = 1 then
      some (state.next, { ctx.issue .rollback with activeTx := false, txDepth := 0 }, state)
    else if ctx.txDepth > 1 then
      some (state.next, { ctx.issue (.rollbackTo ctx.txDepth) with txDepth := ctx.txDepth - 1 },
        state)
    else some (state.next, ctx, state)

section Instructions

variable {db : Db} {ctx : Ctx σ} {state : ExecutionState}

variable {sourceName : String} {rollbackPC : Int}

theorem beginTx_open (hd : ctx.txDepth = 0) (hp : db.pools sourceName = true)
    (hok : db.outcome ctx.calls .begin = true) :
    beginTx db sourceName rollbackPC ctx state
      = some (state.next, { ctx.issue .begin with activeTx := true, txDepth := 1 },
          { state with errorHandlerPC := rollbackPC }) := by
  rw [beginTx, if_pos hd, if_pos hp, if_pos hok]

theorem beginTx_nest (hd : 1 ≤ ctx.txDepth) (hm : ctx.txDepth < maxTxDepth)
    (hok : db.outcome ctx.calls (.savepoint (ctx.txDepth + 1)) = true) :
    beginTx db sourceName rollbackPC ctx state
      = some (state.next,
          { ctx.issue (.savepoint (ctx.txDepth + 1)) with txDepth := ctx.txDepth + 1 },
          { state with errorHandlerPC := rollbackPC }) := by
  rw [beginTx, if_neg (by omega), if_pos hm]
  rw [if_pos hok]

theorem beginTx_full (hm : maxTxDepth ≤ ctx.txDepth) :
    beginTx db sourceName rollbackPC ctx state = some (stopPlan, ctx.fail, state) := by
  have hd : ctx.txDepth ≠ 0 := by
    unfold maxTxDepth at hm
    omega
  rw [beginTx, if_neg hd, if_neg (by omega)]

theorem commitTx_outer (ha : ctx.activeTx = true) (hd : ctx.txDepth = 1)
    (hok : db.outcome ctx.calls .commit = true) :
    commitTx db ctx state = some (state.next,
      { ctx.issue .commit with activeTx := false, txDepth := 0 },
      { state with errorHandlerPC := 0 }) := by
  rw [commitTx]
  rw [if_neg (by simp [ha]), if_pos hd, if_pos hok]
  rfl

theorem commitTx_inner (ha : ctx.activeTx = true) (hd : 1 < ctx.txDepth)
    (hok : db.outcome ctx.calls (.release ctx.txDepth) = true) :
    commitTx db ctx state = some (state.next,
      { ctx.issue (.release ctx.txDepth) with txDepth := ctx.txDepth - 1 },
      { state with errorHandlerPC := 0 }) := by
  rw [commitTx]
  rw [if_neg (by simp [ha]), if_neg (by omega), if_pos hd, if_pos hok]
  rfl

theorem rollbackTx_closed (ha : ctx.activeTx = false) :
    rollbackTx ctx state = some (state.next, ctx, { state with errorHandlerPC := 0 }) := by
  rw [rollbackTx]
  rw [if_pos ha]
  rfl

theorem rollbackTx_outer (ha : ctx.activeTx = true) (hd : ctx.txDepth = 1) :
    rollbackTx ctx state = some (state.next,
      { ctx.issue .rollback with activeTx := false, txDepth := 0 },
      { state with errorHandlerPC := 0 }) := by
  rw [rollbackTx]
  rw [if_neg (by simp [ha]), if_pos hd]
  rfl

theorem rollbackTx_inner (ha : ctx.activeTx = true) (hd : 1 < ctx.txDepth) :
    rollbackTx ctx state = some (state.next,
      { ctx.issue (.rollbackTo ctx.txDepth) with txDepth := ctx.txDepth - 1 },
      { state with errorHandlerPC := 0 }) := by
  rw [rollbackTx]
  rw [if_neg (by simp [ha]), if_neg (by omega), if_pos hd]
  rfl

variable {pc : Int} {ctx' : Ctx σ} {state' : ExecutionState}

/-- All that `BEGIN_TX` can do. -/
theorem beginTx_cases (h : beginTx db sourceName rollbackPC ctx state = some (pc, ctx', state')) :
    (pc = state.next ∧ state' = { state with errorHandlerPC := rollbackPC }
      ∧ ((ctx.txDepth = 0 ∧ ctx' = { ctx.issue .begin with activeTx := true, txDepth := 1 })
        ∨ (ctx.txDepth ≠ 0 ∧ ctx'
            = { ctx.issue (.savepoint (ctx.txDepth + 1)) with txDepth := ctx.txDepth + 1 })))
    ∨ (pc = stopPlan ∧ state' = state
      ∧ (ctx' = ctx.fail ∨ ∃ call, ctx' = (ctx.issue call).fail)) := by
  unfold beginTx at h
  split at h
  · rename_i hz
    split at h
    · split at h
      · cases h
        exact .inl ⟨rfl, rfl, .inl ⟨hz, rfl⟩⟩
      · cases h
        exact .inr ⟨rfl, rfl, .inr ⟨.begin, rfl⟩⟩
    · cases h
      exact .inr ⟨rfl, rfl, .inl rfl⟩
  · rename_i hz
    split at h
    · dsimp only at h
      split at h
      · cases h
        exact .inl ⟨rfl, rfl, .inr ⟨hz, rfl⟩⟩
      · cases h
        exact .inr ⟨rfl, rfl, .inr ⟨_, rfl⟩⟩
    · cases h
      exact .inr ⟨rfl, rfl, .inl rfl⟩

/-- All that `COMMIT_TX` can do. -/
theorem commitTx_cases (h : commitTx db ctx state = some (pc, ctx', state')) :
    state' = { state with errorHandlerPC := 0 }
      ∧ ((pc = state.next
          ∧ ((ctx' = ctx ∧ (ctx.activeTx = false ∨ ctx.txDepth < 1))
            ∨ (ctx.txDepth = 1
                ∧ ctx' = { ctx.issue .commit with activeTx := false, txDepth := 0 })
            ∨ (1 < ctx.txDepth
                ∧ ctx' = { ctx.issue (.release ctx.txDepth) with txDepth := ctx.txDepth - 1 })))
        ∨ (pc = stopPlan
          ∧ ((ctx.txDepth = 1
              ∧ ctx' = { ((ctx.issue .commit).issue .rollback).fail with
                  activeTx := false, txDepth := 0 })
            ∨ (ctx.activeTx = true ∧ 1 < ctx.txDepth
              ∧ ctx' = { ((ctx.issue (.release ctx.txDepth)).issue
                  (.rollbackTo ctx.txDepth)).fail with txDepth := ctx.txDepth - 1 })))) := by
  unfold commitTx at h
  dsimp only at h
  split at h
  · rename_i ha
    cases h
    exact ⟨rfl, .inl ⟨rfl, .inl ⟨rfl, .inl ha⟩⟩⟩
  rename_i ha
  split at h
  · rename_i ho
    split at h
    · cases h
      exact ⟨rfl, .inl ⟨rfl, .inr (.inl ⟨ho, rfl⟩)⟩⟩
    · cases h
      exact ⟨rfl, .inr ⟨rfl, .inl ⟨ho, rfl⟩⟩⟩
  · split at h
    · rename_i hm
      split at h
      · cases h
        exact ⟨rfl, .inl ⟨rfl, .inr (.inr ⟨hm, rfl⟩)⟩⟩
      · cases h
        exact ⟨rfl, .inr ⟨rfl, .inr ⟨by simpa using ha, hm, rfl⟩⟩⟩
    · cases h
      exact ⟨rfl, .inl ⟨rfl, .inl ⟨rfl, .inr (by omega)⟩⟩⟩

/-- All that `ROLLBACK_TX` can do. -/
theorem rollbackTx_cases (h : rollbackTx ctx state = some (pc, ctx', state')) :
    pc = state.next ∧ state' = { state with errorHandlerPC := 0 }
      ∧ ((ctx' = ctx ∧ (ctx.activeTx = false ∨ ctx.txDepth < 1))
        ∨ (ctx.txDepth = 1
            ∧ ctx' = { ctx.issue .rollback with activeTx := false, txDepth := 0 })
        ∨ (1 < ctx.txDepth
            ∧ ctx' = { ctx.issue (.rollbackTo ctx.txDepth) with txDepth := ctx.txDepth - 1 })) := by
  unfold rollbackTx at h
  split at h
  · rename_i ha
    cases h
    exact ⟨rfl, rfl, .inl ⟨rfl, .inl ha⟩⟩
  split at h
  · rename_i ho
    cases h
    exact ⟨rfl, rfl, .inr (.inl ⟨ho, rfl⟩)⟩
  split at h
  · rename_i hm
    cases h
    exact ⟨rfl, rfl, .inr (.inr ⟨hm, rfl⟩)⟩
  · cases h
    exact ⟨rfl, rfl, .inl ⟨rfl, .inr (by omega)⟩⟩

end Instructions

/-- A list of steps: a step of one instruction or a transaction, and the steps after it. -/
inductive Steps (σ : Type) where
  | nil
  | leaf (action : InstructionFunc σ) (rest : Steps σ)
  | transaction (dataSource : String) (body rest : Steps σ)

/-- An instruction of the table. -/
inductive Instruction (σ : Type) where
  | leaf (action : InstructionFunc σ)
  | beginTx (sourceName : String) (rollbackPC : Int)
  | commitTx
  | rollbackTx

def Instruction.action (db : Db) : Instruction σ → InstructionFunc σ
  | .leaf action => action
  | .beginTx sourceName rollbackPC => Flow.beginTx db sourceName rollbackPC
  | .commitTx => Flow.commitTx db
  | .rollbackTx => Flow.rollbackTx

/-- The steps, appended to the table. `BEGIN_TX` is emitted first and patched at the end. -/
def compileSteps : List (Instruction σ) → Steps σ → List (Instruction σ)
  | table, .nil => table
  | table, .leaf action rest => compileSteps (table ++ [.leaf action]) rest
  | table, .transaction dataSource body rest =>
    let beginIdx := table.length
    let table := compileSteps (table ++ [.beginTx dataSource 0]) body
    let table := table ++ [.commitTx]
    let rollbackIdx := int16 table.length
    let table := table ++ [.rollbackTx]
    compileSteps (table.set beginIdx (.beginTx dataSource rollbackIdx)) rest

/-- The table a flow is executed from. -/
def Steps.table (db : Db) (steps : Steps σ) : List (InstructionFunc σ) :=
  (compileSteps [] steps).map (Instruction.action db)

/-! ## Where the instructions stand -/

def Steps.size : Steps σ → Nat
  | .nil => 0
  | .leaf _ rest => rest.size + 1
  | .transaction _ body rest => body.size + rest.size + 3

/-- The instructions of the steps from an address on. With each one stand the addresses of the
rollbacks of the transactions it belongs to, the innermost first. -/
def Steps.located (base : Nat) (enclosing : List Nat) : Steps σ → List (Instruction σ × List Nat)
  | .nil => []
  | .leaf action rest => (.leaf action, enclosing) :: rest.located (base + 1) enclosing
  | .transaction dataSource body rest =>
    let rollbackIdx := base + body.size + 2
    (.beginTx dataSource (int16 rollbackIdx), enclosing)
      :: body.located (base + 1) (rollbackIdx :: enclosing)
      ++ (.commitTx, rollbackIdx :: enclosing) :: (.rollbackTx, rollbackIdx :: enclosing)
      :: rest.located (base + body.size + 3) enclosing

theorem Steps.located_length (steps : Steps σ) (base : Nat) (enclosing : List Nat) :
    (steps.located base enclosing).length = steps.size := by
  induction steps generalizing base enclosing with
  | nil => rfl
  | leaf action rest ih => simp only [located, size, length_cons, ih]
  | transaction dataSource body rest ihBody ihRest =>
    simp only [located, size, length_cons, length_append, ihBody, ihRest]
    omega

theorem Steps.lt_size {steps : Steps σ} (hp : (steps.located base enclosing)[p]? = some x) :
    p < steps.size := by
  rw [← steps.located_length base enclosing]
  exact (List.getElem?_eq_some_iff.mp hp).1

/-- **The compiler emits the instructions where they are located.** -/
theorem compileSteps_eq (steps : Steps σ) (table : List (Instruction σ)) (enclosing : List Nat) :
    compileSteps table steps
      = table ++ (steps.located table.length enclosing).map Prod.fst := by
  induction steps generalizing table enclosing with
  | nil => simp [compileSteps, Steps.located]
  | leaf action rest ih =>
    rw [compileSteps, ih _ enclosing, Steps.located]
    simp
  | transaction dataSource body rest ihBody ihRest =>
  rw [compileSteps, ihRest _ enclosing,
    ihBody _ ((table.length + body.size + 2) :: enclosing), Steps.located]
  simp only [append_assoc, cons_append, nil_append, length_append, length_cons, length_map,
    Steps.located_length, length_set, map_cons, map_append]
  rw [set_append_right _ _ (by omega), Nat.sub_self, set_cons_zero]
  simp only [append_assoc, cons_append, append_cancel_left_eq, cons.injEq]
  exact ⟨rfl, rfl⟩

theorem Steps.table_eq (db : Db) (steps : Steps σ) :
    steps.table db = (steps.located 0 []).map (fun x => x.1.action db) := by
  rw [Steps.table, compileSteps_eq steps [] [], nil_append, map_map]
  rfl

theorem Steps.table_length (db : Db) (steps : Steps σ) : (steps.table db).length = steps.size := by
  rw [Steps.table_eq, length_map, Steps.located_length]

/-- The address after an instruction of a flow that 16-bit addresses reach. -/
theorem Steps.next_located {flow : Steps σ} (hs : flow.size < 32768) {p : Nat}
    (hp : (flow.located 0 [])[p]? = some x) (ha : Int) :
    ({ pc := p, errorHandlerPC := ha } : ExecutionState).next = (p + 1 : Nat) := by
  have hlt := Steps.lt_size hp
  rw [ExecutionState.next, int16_of_lt (by dsimp only; omega) (by dsimp only; omega)]
  rfl

/-- An instruction of a flow that 16-bit addresses reach is executed. -/
theorem turn_located {db : Db} {steps : Steps σ} (hs : steps.size < 32768) {p : Nat}
    {instr : Instruction σ} {enclosing : List Nat}
    (hp : (steps.located 0 [])[p]? = some (instr, enclosing)) {c : Config σ} (hpc : c.pc = p) :
    turn (steps.table db) c = (instr.action db c.ctx { c.state with pc := c.pc }).map
      (fun r => redirect r.1 r.2.1 r.2.2) := by
  refine turn_fetch (by rw [Steps.table_length]; exact hs) ?_ hpc
  rw [Steps.table_eq, getElem?_map, hp]
  rfl

section Held

/-- The instructions stand in the flow from an address on. -/
def Held (flow : Steps σ) (base : Nat) (part : List (Instruction σ × List Nat)) : Prop :=
  part <+: (flow.located 0 []).drop base

variable {flow steps : Steps σ} {base p : Nat} {part : List (Instruction σ × List Nat)}
  {source : String} {body : Steps σ} {enclosing : List Nat}

theorem Held.head (h : Held flow base (x :: part)) : (flow.located 0 [])[base]? = some x := by
  obtain ⟨more, hm⟩ := h
  have hg : ((flow.located 0 []).drop base)[0]? = (flow.located 0 [])[base + 0]? := getElem?_drop
  rw [← hm] at hg
  exact hg.symm

theorem Held.append {part' : List (Instruction σ × List Nat)} (h : Held flow base (part ++ part')) :
    Held flow base part ∧ Held flow (base + part.length) part' := by
  refine ⟨(prefix_append _ _).trans h, ?_⟩
  obtain ⟨more, hm⟩ := h
  refine ⟨more, ?_⟩
  rw [← drop_drop, ← hm, append_assoc, drop_left]

theorem Held.tail (h : Held flow base (x :: part)) : Held flow (base + 1) part :=
  (Held.append (show Held flow base ([x] ++ part) from h)).2

/-- Where the four parts of a transaction stand. -/
theorem Held.transaction {rest : Steps σ}
    (h : Held flow base ((Steps.transaction source body rest).located base enclosing)) :
    (flow.located 0 [])[base]?
        = some (.beginTx source (int16 (base + body.size + 2 : Nat)), enclosing)
      ∧ Held flow (base + 1) (body.located (base + 1) ((base + body.size + 2) :: enclosing))
      ∧ (flow.located 0 [])[base + 1 + body.size]?
          = some (.commitTx, (base + body.size + 2) :: enclosing)
      ∧ (flow.located 0 [])[base + body.size + 2]?
          = some (.rollbackTx, (base + body.size + 2) :: enclosing) := by
  obtain ⟨hb, he⟩ := Held.append h.tail
  rw [Steps.located_length] at he
  have hr := he.tail.head
  rw [show base + 1 + body.size + 1 = base + body.size + 2 by omega] at hr
  exact ⟨h.head, hb, he.head, hr⟩

theorem Held.all (flow : Steps σ) : Held flow 0 (flow.located 0 []) := prefix_refl _

/-- A `BEGIN_TX` is the first of a whole transaction. -/
theorem Held.begin_tx (h : Held flow base (steps.located base enclosing))
    (hp : (steps.located base enclosing)[p]? = some (.beginTx source rollbackPC, above)) :
    ∃ body rest : Steps σ, rollbackPC = int16 (base + p + body.size + 2 : Nat)
      ∧ Held flow (base + p) ((Steps.transaction source body rest).located (base + p) above) := by
  induction steps generalizing base enclosing p with
  | nil => simp [Steps.located] at hp
  | leaf action rest ih =>
    cases p with
    | zero => simp [Steps.located] at hp
    | succ p =>
      rw [show base + (p + 1) = base + 1 + p by omega]
      exact ih h.tail hp
  | transaction dataSource body rest ihBody ihRest =>
    have hl := body.located_length (base + 1) ((base + body.size + 2) :: enclosing)
    obtain ⟨hb, he⟩ := Held.append h.tail
    rw [hl] at he
    cases p with
    | zero =>
      cases hp
      exact ⟨body, rest, rfl, h⟩
    | succ p =>
    rw [Steps.located, cons_append, getElem?_cons_succ] at hp
    rw [show base + (p + 1) = base + 1 + p by omega]
    by_cases hlt : p < body.size
    · rw [getElem?_append_left (by omega)] at hp
      exact ihBody hb hp
    rw [getElem?_append_right (by omega), hl] at hp
    obtain ⟨n, rfl⟩ : ∃ n, p = body.size + n := ⟨p - body.size, by omega⟩
    rw [Nat.add_sub_cancel_left] at hp
    rcases n with _ | _ | n
    · simp at hp
    · simp at hp
    have hr := he.tail.tail
    rw [show base + 1 + body.size + 1 + 1 = base + body.size + 3 by omega] at hr
    rw [show base + 1 + (body.size + (n + 1 + 1)) = base + body.size + 3 + n by omega]
    exact ihRest hr hp

end Held

end Rah.Flow
