import Rah.Lib.Path
import Mathlib.Data.Int.Basic

/-!
# The flow executor

A compiled flow is one table of instructions with absolute addresses. The executor runs
the instruction at the program counter, which returns the address of the next one, until
the address leaves the table. An instruction that fails returns `StopPlan`; if an error
handler is armed the executor goes on there instead, once.

Addresses are 16-bit integers, and so is the length of the table the executor compares
them with. A panic of an instruction is `none`.
-/

namespace Rah.Flow

open Rah.Lib

/-- A call on the database connection of a transaction. Savepoints are named by depth. -/
inductive DbCall where
  | begin
  | savepoint (n : Int)
  | release (n : Int)
  | rollbackTo (n : Int)
  | commit
  | rollback
  /-- A statement of a flow step. -/
  | write (w : Nat)
  deriving DecidableEq, Repr

/-- What the modelled instructions use of a request context, and `rest` for all else. -/
structure Ctx (σ : Type) where
  byteSlots : Nat → List UInt8
  intSlots : Nat → Int
  failed : Bool
  responseStatus : Nat
  /-- `ActiveTx` is not nil. -/
  activeTx : Bool
  txDepth : Int
  /-- The database calls made so far, oldest first. -/
  calls : List DbCall
  rest : σ

/-- The control state an instruction sees. -/
structure ExecutionState where
  pc : Int
  errorHandlerPC : Int

def stopPlan : Int := -1

/-- The value of an integer as an `int16`. -/
def int16 (n : Int) : Int := Int.bmod n 65536

/-- `state.PC + 1`. -/
def ExecutionState.next (state : ExecutionState) : Int := int16 (state.pc + 1)

variable {σ : Type}

/-- An instruction returns the next address. -/
def InstructionFunc (σ : Type) : Type :=
  Ctx σ → ExecutionState → Option (Int × Ctx σ × ExecutionState)

/-- Where the executor's loop stands. -/
structure Config (σ : Type) where
  pc : Int
  ctx : Ctx σ
  state : ExecutionState

/-- The loop condition of `Execute`. -/
def Running (table : List (InstructionFunc σ)) (c : Config σ) : Prop :=
  0 ≤ c.pc ∧ c.pc < int16 table.length

instance (table : List (InstructionFunc σ)) (c : Config σ) : Decidable (Running table c) :=
  inferInstanceAs (Decidable (_ ∧ _))

/-- A failed stop goes to the error handler, if one is armed, and disarms it. -/
def redirect (pc : Int) (ctx : Ctx σ) (state : ExecutionState) : Config σ :=
  if pc = stopPlan ∧ ctx.failed = true ∧ state.errorHandlerPC ≠ 0 then
    { pc := state.errorHandlerPC, ctx := ctx, state := { state with errorHandlerPC := 0 } }
  else { pc := pc, ctx := ctx, state := state }

/-- One turn of the loop of `Execute`. -/
def turn (table : List (InstructionFunc σ)) (c : Config σ) : Option (Config σ) :=
  if Running table c then
    match table[c.pc.toNat]? with
    | none => none
    | some action =>
      match action c.ctx { c.state with pc := c.pc } with
      | none => none
      | some (pc, ctx, state) => some (redirect pc ctx state)
  else none

/-- The state `Execute` starts in. -/
def start (ctx : Ctx σ) (startID : Int) : Config σ :=
  { pc := startID, ctx := ctx, state := { pc := 0, errorHandlerPC := 0 } }

/-- A context no instruction has used. -/
def freshCtx : Ctx Unit :=
  { byteSlots := fun _ => [], intSlots := fun _ => 0, failed := false, responseStatus := 0,
    activeTx := false, txDepth := 0, calls := [], rest := () }

/-! ## Addresses -/

theorem int16_of_lt (h0 : 0 ≤ n) (h : n < 32768) : int16 n = n := by
  unfold int16
  rw [Int.bmod_def, Int.emod_eq_of_lt h0 (by omega)]
  rw [if_pos (by omega)]

variable {table : List (InstructionFunc σ)} {c c' : Config σ}

/-- An instruction within a table that 16-bit addresses reach is executed. -/
theorem turn_fetch {action : InstructionFunc σ} (hl : table.length < 32768) {i : Nat}
    (hi : table[i]? = some action) (hpc : c.pc = i) :
    turn table c = (action c.ctx { c.state with pc := c.pc }).map
      (fun r => redirect r.1 r.2.1 r.2.2) := by
  have hlt := (List.getElem?_eq_some_iff.mp hi).1
  have hr : Running table c := by
    refine ⟨by omega, ?_⟩
    rw [int16_of_lt (by omega) (by omega)]
    omega
  unfold turn
  rw [if_pos hr, hpc, Int.toNat_natCast, hi]
  dsimp only
  cases action c.ctx { c.state with pc := (i : Int) } <;> rfl

theorem turn_eq {action : InstructionFunc σ} {pc : Int} {ctx : Ctx σ} {state : ExecutionState}
    (hl : table.length < 32768) {i : Nat} (hi : table[i]? = some action) (hpc : c.pc = i)
    (ha : action c.ctx { c.state with pc := c.pc } = some (pc, ctx, state)) :
    turn table c = some (redirect pc ctx state) := by
  rw [turn_fetch hl hi hpc, ha, Option.map_some]

/-- What a turn has done: it ran the instruction at the program counter. -/
theorem turn_some (h : turn table c = some c') :
    Running table c ∧ ∃ (i : Nat) (action : InstructionFunc σ) (pc : Int) (ctx : Ctx σ)
      (state : ExecutionState), c.pc = i ∧ table[i]? = some action
        ∧ action c.ctx { c.state with pc := c.pc } = some (pc, ctx, state)
        ∧ c' = redirect pc ctx state := by
  unfold turn at h
  split at h
  · rename_i hr
    refine ⟨hr, c.pc.toNat, ?_⟩
    cases ha : table[c.pc.toNat]? with
    | none => simp [ha] at h
    | some action =>
    rw [ha] at h
    dsimp only at h
    cases hac : action c.ctx { c.state with pc := c.pc } with
    | none => simp [hac] at h
    | some r =>
      rw [hac] at h
      have hpc : c.pc = (c.pc.toNat : Int) := (Int.toNat_of_nonneg hr.1).symm
      exact ⟨action, r.1, r.2.1, r.2.2, hpc, rfl, hac, (Option.some.inj h).symm⟩
  · cases h

/-- Every state a path has passed was running. -/
theorem running_of_path (h : Path (turn table) c vs c') : ∀ v ∈ vs, Running table v := by
  induction h with
  | nil => simp
  | cons ht _ ih =>
  intro v hv
  rcases List.mem_cons.mp hv with hv | hv
  · rw [hv]
    exact (turn_some ht).1
  · exact ih v hv

@[simp] theorem redirect_ctx : (redirect pc ctx state).ctx = ctx := by
  unfold redirect
  split <;> rfl

theorem redirect_of_ne (h : pc ≠ stopPlan) :
    redirect pc ctx state = { pc := pc, ctx := ctx, state := state } := by
  unfold redirect
  rw [if_neg (fun hc => h hc.1)]

end Rah.Flow
