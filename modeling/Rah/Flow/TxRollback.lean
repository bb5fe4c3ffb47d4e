import Rah.Flow.Tx

/-!
# When a failure rolls back

The executor keeps one error handler. `BEGIN_TX` arms it; `COMMIT_TX`, `ROLLBACK_TX` and
the handler's own use disarm it, and nothing arms it again for the transaction around.
So a step that fails after an inner transaction has ended finds no handler, and the run
ends there with the outer transaction open.

`rollsBack_of_armed` says what remains: in a run in which every failing step finds the
handler armed, no flow stops by itself in an open transaction and no savepoint fails to be
released, every failure goes to the rollback of an enclosing open transaction, and at the
end nothing is open. The invariant is that the handler, when armed, is the rollback of the
innermost transaction around the program counter, and that no more transactions are open
than there are around it.
-/

namespace Rah.Flow

open Rah.Lib List Steps

variable {σ : Type}

/-- The instruction goes on or stops, and leaves the transaction alone. -/
def Plain (action : InstructionFunc σ) : Prop :=
  ∀ ctx state, ∃ pc ctx', action ctx state = some (pc, ctx', state)
    ∧ (pc = state.next ∨ pc = stopPlan)
    ∧ ctx'.activeTx = ctx.activeTx ∧ ctx'.txDepth = ctx.txDepth

def Steps.AllPlain : Steps σ → Prop
  | .nil => True
  | .leaf action rest => Plain action ∧ rest.AllPlain
  | .transaction _ body rest => body.AllPlain ∧ rest.AllPlain

/-- A step of a transaction's body: not the commit or rollback at its end. -/
def Instruction.InBody : Instruction σ → Prop
  | .leaf _ => True
  | .beginTx _ _ => True
  | .commitTx => False
  | .rollbackTx => False

/-- The rollbacks of the transactions around an address, the innermost first. -/
def Steps.around (flow : Steps σ) (p : Nat) : List Nat :=
  (((flow.located 0 [])[p]?).map Prod.snd).getD []

/-- The instruction at the program counter is in the body of a transaction. It runs and stops,
in this context. -/
structure Stops (db : Db) (flow : Steps σ) (c : Config σ) (p : Nat) (ctx : Ctx σ) : Prop where
  pc : c.pc = p
  inBody : ∃ instr above, (flow.located 0 [])[p]? = some (instr, above) ∧ above ≠ [] ∧ instr.InBody
    ∧ ∃ state, instr.action db c.ctx { c.state with pc := c.pc } = some (stopPlan, ctx, state)

/-- Before a step: if the step is in the body of a transaction and fails, the handler is armed;
if it stops without failing, no transaction is open; and if it commits a nested transaction,
the savepoint is released. -/
structure Armed (db : Db) (flow : Steps σ) (c : Config σ) : Prop where
  fails : ∀ p ctx, Stops db flow c p ctx → ctx.failed = true → c.state.errorHandlerPC ≠ 0
  stops : ∀ p ctx, Stops db flow c p ctx → ctx.failed = false → c.ctx.activeTx = false
  release : ∀ p above, c.pc = (p : Nat) → (flow.located 0 [])[p]? = some (.commitTx, above) →
    1 < c.ctx.txDepth → db.outcome c.ctx.calls (.release c.ctx.txDepth) = true

/-- A failure in the body of a transaction goes to the rollback of an enclosing one that is
still open; and a run that has ended has left nothing open. -/
structure RollsBack (db : Db) (flow : Steps σ) (c : Config σ) : Prop where
  transfer : ∀ p ctx, Stops db flow c p ctx → ctx.failed = true →
    ∃ (c' : Config σ) (r : Nat) (above : List Nat), turn (flow.table db) c = some c' ∧ c'.pc = r
      ∧ r ∈ flow.around p ∧ (flow.located 0 [])[r]? = some (.rollbackTx, above)
      ∧ c'.ctx.activeTx = true ∧ 1 ≤ c'.ctx.txDepth
  closed : ¬ Running (flow.table db) c → c.ctx.activeTx = false ∧ c.ctx.txDepth = 0

/-! ## Where control goes -/

/-- The instructions lead from one nesting to another. -/
inductive Leads : List Nat → List (Instruction σ × List Nat) → List Nat → Prop where
  | nil (e : List Nat) : Leads e [] e
  | leaf {action : InstructionFunc σ} {e e' : List Nat} {xs : List (Instruction σ × List Nat)} :
      Leads e xs e' → Leads e ((.leaf action, e) :: xs) e'
  | begin {source : String} {r : Nat} {e e' : List Nat} {xs : List (Instruction σ × List Nat)} :
      Leads (r :: e) xs e' → Leads e ((.beginTx source (int16 r), e) :: xs) e'
  | commit {r : Nat} {e e' : List Nat} {xs : List (Instruction σ × List Nat)} :
      Leads (r :: e) xs e' → Leads (r :: e) ((.commitTx, r :: e) :: xs) e'
  | rollback {r : Nat} {e e' : List Nat} {xs : List (Instruction σ × List Nat)} :
      Leads e xs e' → Leads (r :: e) ((.rollbackTx, r :: e) :: xs) e'

variable {e e' above : List Nat} {xs : List (Instruction σ × List Nat)} {p : Nat}
  {instr : Instruction σ}

theorem Leads.append (h : Leads e xs e') (h' : Leads e' ys e'') : Leads e (xs ++ ys) e'' := by
  induction h with
  | nil => exact h'
  | leaf _ ih => exact .leaf (ih h')
  | begin _ ih => exact .begin (ih h')
  | commit _ ih => exact .commit (ih h')
  | rollback _ ih => exact .rollback (ih h')

theorem Steps.located_leads (steps : Steps σ) (base : Nat) (enclosing : List Nat) :
    Leads enclosing (steps.located base enclosing) enclosing := by
  induction steps generalizing base enclosing with
  | nil => exact .nil _
  | leaf _ _ ih => exact .leaf (ih _ _)
  | transaction _ _ _ ihBody ihRest =>
    exact .begin ((ihBody _ _).append (.commit (.rollback (ihRest _ _))))

/-- The nesting before and after an instruction. -/
def Instruction.Nests : Instruction σ → List Nat → List Nat → Prop
  | .leaf _, e, e' => e' = e
  | .beginTx _ rollbackPC, e, e' => ∃ r : Nat, rollbackPC = int16 r ∧ e' = r :: e
  | .commitTx, e, e' => e' = e
  | .rollbackTx, e, e' => ∃ r, e = r :: e'

theorem Leads.head (h : Leads e xs e') : ((xs[0]?).map Prod.snd).getD e' = e := by
  cases h <;> rfl

theorem Leads.nests (h : Leads e xs e') (hp : xs[p]? = some (instr, a)) :
    instr.Nests a (((xs[p + 1]?).map Prod.snd).getD e') := by
  induction h generalizing p with
  | nil => simp at hp
  | leaf hr ih | commit hr ih =>
    cases p with
    | zero =>
      cases hp
      exact hr.head
    | succ p => exact ih hp
  | @begin source r e e' xs hr ih =>
    cases p with
    | zero =>
      cases hp
      exact ⟨r, rfl, hr.head⟩
    | succ p => exact ih hp
  | @rollback r e e' xs hr ih =>
    cases p with
    | zero =>
      cases hp
      exact ⟨r, by rw [getElem?_cons_succ, hr.head]⟩
    | succ p => exact ih hp

/-- The next address has the nesting that follows. -/
theorem Steps.around_next (flow : Steps σ) (hp : (flow.located 0 [])[p]? = some (instr, above)) :
    instr.Nests above (flow.around (p + 1)) :=
  (flow.located_leads 0 []).nests hp

theorem Steps.around_eq {flow : Steps σ}
    (hp : (flow.located 0 [])[p]? = some (instr, above)) : flow.around p = above := by
  rw [around, hp]
  rfl

theorem Steps.around_end (flow : Steps σ) (hp : flow.size ≤ p) : flow.around p = [] := by
  rw [around, getElem?_eq_none (by rw [located_length]; exact hp)]
  rfl

/-- A `BEGIN_TX` arms the handler with the address where its `ROLLBACK_TX` stands. -/
theorem Steps.begin_located {flow : Steps σ}
    (hp : (flow.located 0 [])[p]? = some (.beginTx source rollbackPC, above)) :
    ∃ r : Nat, rollbackPC = int16 r ∧ flow.around (p + 1) = r :: above
      ∧ (flow.located 0 [])[r]? = some (.rollbackTx, r :: above) := by
  obtain ⟨body, rest, hr, hh⟩ := (Held.all flow).begin_tx hp
  rw [Nat.zero_add] at hr hh
  refine ⟨p + body.size + 2, hr, ?_, hh.transaction.2.2.2⟩
  have hb := hh.tail
  have hld := (body.located_leads (p + 1) ((p + body.size + 2) :: above)).head
  cases hl : body.located (p + 1) ((p + body.size + 2) :: above) with
  | nil =>
    rw [hl] at hb
    exact around_eq hb.head
  | cons x xs =>
    rw [hl] at hb hld
    exact (around_eq hb.head).trans hld

/-! ## The invariant -/

section Invariant

variable {db : Db} {flow : Steps σ}

/-- A handler that is armed is the rollback of the innermost transaction around the address. -/
def Guarded (flow : Steps σ) (p : Nat) (handler : Int) : Prop :=
  ∃ (r : Nat) (e : List Nat), flow.around p = r :: e ∧ handler = r
    ∧ (flow.located 0 [])[r]? = some (.rollbackTx, r :: e)

/-- At an address of the flow, or at its end. -/
structure AtPlace (flow : Steps σ) (c : Config σ) (p : Nat) : Prop where
  pc : c.pc = p
  inside : p ≤ flow.size
  depth : c.ctx.txDepth ≤ (flow.around p).length
  handler : c.state.errorHandlerPC ≠ 0 →
    1 ≤ c.ctx.txDepth ∧ Guarded flow p c.state.errorHandlerPC

/-- What holds in every state of a run. -/
structure TxInv (flow : Steps σ) (c : Config σ) : Prop where
  nonneg : 0 ≤ c.ctx.txDepth
  active : c.ctx.activeTx = true ↔ 1 ≤ c.ctx.txDepth
  place : (∃ p, AtPlace flow c p) ∨ (c.pc = stopPlan ∧ c.ctx.txDepth = 0)

variable {c c' : Config σ} {p : Nat} {ctx : Ctx σ} {state : ExecutionState} {handler pc : Int}
  {above : List Nat}

theorem TxInv.atPlace (hinv : TxInv flow c) (hpc : c.pc = p) : AtPlace flow c p := by
  rcases hinv.place with ⟨p', hp⟩ | ⟨hs, _⟩
  · have hsm : p' = p := by
      have := hp.pc
      omega
    exact hsm ▸ hp
  · unfold stopPlan at hs
    omega

theorem txInv_start (ha : ctx.activeTx = false) (hd : ctx.txDepth = 0) :
    TxInv flow (start ctx 0) := by
  refine ⟨?_, ?_, .inl ⟨0, rfl, Nat.zero_le _, ?_, ?_⟩⟩
  · show 0 ≤ ctx.txDepth
    omega
  · show ctx.activeTx = true ↔ 1 ≤ ctx.txDepth
    rw [ha, hd]
    decide
  · show ctx.txDepth ≤ _
    omega
  · intro h
    exact absurd rfl h

/-- An instruction that falls through keeps the invariant, if it opens no more transactions than
the next address is nested in and leaves the handler right. -/
theorem txInv_next (hsize : flow.size < 32768) {x : Instruction σ × List Nat}
    (hp : (flow.located 0 [])[p]? = some x) (hn : 0 ≤ ctx.txDepth)
    (ha : ctx.activeTx = true ↔ 1 ≤ ctx.txDepth)
    (hd : ctx.txDepth ≤ (flow.around (p + 1)).length) (hh : state.errorHandlerPC ≠ 0 →
      1 ≤ ctx.txDepth ∧ Guarded flow (p + 1) state.errorHandlerPC) :
    TxInv flow
      (redirect ({ pc := p, errorHandlerPC := handler } : ExecutionState).next ctx state) := by
  rw [next_located hsize hp]
  exact ⟨hn, ha, .inl ⟨p + 1, rfl, lt_size hp, hd, hh⟩⟩

/-- A failure that finds the handler armed goes to the rollback of the innermost transaction. -/
theorem redirect_armed (state : ExecutionState) (hf : ctx.failed = true)
    (har : state.errorHandlerPC ≠ 0) (hg : Guarded flow p state.errorHandlerPC) :
    ∃ (r : Nat) (e : List Nat), redirect stopPlan ctx state
        = { pc := r, ctx := ctx, state := { state with errorHandlerPC := 0 } }
      ∧ flow.around p = r :: e ∧ (flow.located 0 [])[r]? = some (.rollbackTx, r :: e) := by
  obtain ⟨r, e, ha, hh, hr⟩ := hg
  refine ⟨r, e, ?_, ha, hr⟩
  rw [redirect, if_pos ⟨rfl, hf, har⟩, hh]

/-- A step that stops keeps the invariant, if the run is armed. -/
theorem txInv_stop (hinv : TxInv flow c) (ham : Armed db flow c) (hpl : AtPlace flow c p)
    {instr : Instruction σ} (hp : (flow.located 0 [])[p]? = some (instr, above))
    (hb : instr.InBody) (hac : instr.action db c.ctx { c.state with pc := c.pc }
      = some (stopPlan, ctx, { c.state with pc := c.pc })) (ha : ctx.activeTx = c.ctx.activeTx)
    (hd : ctx.txDepth = c.ctx.txDepth) :
    TxInv flow (redirect stopPlan ctx { c.state with pc := c.pc }) := by
  have hn := hinv.nonneg
  have ho : ctx.activeTx = true ↔ 1 ≤ ctx.txDepth := by
    rw [ha, hd]
    exact hinv.active
  by_cases hh : ctx.failed = true ∧ c.state.errorHandlerPC ≠ 0
  · obtain ⟨_, hg⟩ := hpl.handler hh.2
    obtain ⟨r, e, hrd, har, hr⟩ := redirect_armed { c.state with pc := c.pc } hh.1 hh.2 hg
    rw [hrd]
    have hlt := lt_size hr
    refine ⟨by rw [hd]; exact hn, ho, .inl ⟨r, rfl, by omega, ?_, ?_⟩⟩
    · rw [around_eq hr, hd, ← har]
      exact hpl.depth
    · intro h
      exact absurd rfl h
  · rw [redirect, if_neg (fun h => hh h.2)]
    refine ⟨by rw [hd]; exact hn, ho, .inr ⟨rfl, ?_⟩⟩
    rw [hd]
    by_cases hot : above = []
    · -- outside every transaction nothing is open
      have hle := hpl.depth
      rw [around_eq hp, hot, length_nil] at hle
      omega
    have hs : Stops db flow c p ctx := ⟨hpl.pc, instr, above, hp, hot, hb, _, hac⟩
    have hu : ctx.failed = false := by
      rw [← Bool.not_eq_true]
      intro hf
      exact hh ⟨hf, ham.fails p ctx hs hf⟩
    have hc := ham.stops p ctx hs hu
    have := hinv.active
    rw [hc] at this
    have hnt : ¬ 1 ≤ c.ctx.txDepth := fun h => absurd (this.mpr h) (by simp)
    omega

theorem txInv_begin (hsize : flow.size < 32768) (hinv : TxInv flow c) (hpl : AtPlace flow c p)
    {source : String} {rollbackPC : Int}
    (hp : (flow.located 0 [])[p]? = some (.beginTx source rollbackPC, above))
    (hop : (c.ctx.txDepth = 0
          ∧ ctx = { c.ctx.issue .begin with activeTx := true, txDepth := 1 })
      ∨ (c.ctx.txDepth ≠ 0 ∧ ctx
          = { c.ctx.issue (.savepoint (c.ctx.txDepth + 1)) with txDepth := c.ctx.txDepth + 1 })) :
    TxInv flow (redirect ({ pc := p, errorHandlerPC := handler } : ExecutionState).next ctx
      ⟨p, rollbackPC⟩) := by
  obtain ⟨r, hr, ha, hrl⟩ := begin_located hp
  have hlt := lt_size hrl
  rw [int16_of_lt (by omega) (by omega)] at hr
  have hn := hinv.nonneg
  have hd := hpl.depth
  rw [around_eq hp] at hd
  have hg : Guarded flow (p + 1) rollbackPC := ⟨r, above, ha, hr, hrl⟩
  rcases hop with ⟨hz, rfl⟩ | ⟨hz, rfl⟩
  · refine txInv_next hsize hp (by dsimp only; omega) (by simp) ?_ (fun _ => ⟨Int.le_refl 1, hg⟩)
    rw [ha, length_cons]
    dsimp only
    omega
  refine txInv_next hsize hp (by dsimp only; omega) ?_ ?_ (fun _ => ⟨by dsimp only; omega, hg⟩)
  · have ho : c.ctx.activeTx = true := hinv.active.mpr (by omega)
    exact iff_of_true ho (by dsimp only; omega)
  · rw [ha, length_cons]
    dsimp only
    omega

/-- One transaction less is open, if any was. -/
def Closes (ctx ctx' : Ctx σ) : Prop :=
  (ctx' = ctx ∧ (ctx.activeTx = false ∨ ctx.txDepth < 1))
    ∨ (ctx.txDepth = 1 ∧ ctx'.activeTx = false ∧ ctx'.txDepth = 0)
    ∨ (1 < ctx.txDepth ∧ ctx'.activeTx = ctx.activeTx ∧ ctx'.txDepth = ctx.txDepth - 1)

section

variable (hsize : flow.size < 32768) (hinv : TxInv flow c)
include hsize hinv

theorem txInv_closes {x : Instruction σ × List Nat} (hp : (flow.located 0 [])[p]? = some x)
    (hcl : Closes c.ctx ctx) (hdp : c.ctx.txDepth ≤ (flow.around (p + 1)).length + 1) :
    TxInv flow (redirect ({ pc := p, errorHandlerPC := handler } : ExecutionState).next ctx
      ⟨pc, 0⟩) := by
  have hn := hinv.nonneg
  have ha := hinv.active
  have hd : ({ pc := pc, errorHandlerPC := 0 } : ExecutionState).errorHandlerPC ≠ 0 →
      1 ≤ ctx.txDepth ∧ Guarded flow (p + 1) 0 := fun h => absurd rfl h
  rcases hcl with ⟨rfl, hc⟩ | ⟨_, hactive', hdepth'⟩ | ⟨hm, hactive', hdepth'⟩
  · have hz : c.ctx.txDepth < 1 := by
      rcases hc with hc | hlt
      · rw [hc] at ha
        by_contra ho
        exact absurd (ha.mpr (by omega)) (by simp)
      · exact hlt
    exact txInv_next hsize hp hn ha (by omega) hd
  · refine txInv_next hsize hp (by omega) ?_ (by omega) hd
    rw [hactive', hdepth']
    decide
  · refine txInv_next hsize hp (by omega) ?_ (by omega) hd
    exact iff_of_true (hactive'.trans (ha.mpr (by omega))) (by omega)

theorem txInv_commit (har : Armed db flow c)
    (hpl : AtPlace flow c p) (hp : (flow.located 0 [])[p]? = some (.commitTx, above))
    (hac : commitTx db c.ctx { c.state with pc := c.pc } = some (pc, ctx, state)) :
    TxInv flow (redirect pc ctx state) := by
  have hd := hpl.depth
  rw [around_eq hp, ← show flow.around (p + 1) = above from flow.around_next hp] at hd
  obtain ⟨rfl, hc⟩ := commitTx_cases hac
  rcases hc with ⟨rfl, hdn⟩ | ⟨rfl, ⟨ho, rfl⟩ | ⟨ha, hm, rfl⟩⟩
  · rw [hpl.pc]
    refine txInv_closes hsize hinv hp ?_ (by omega)
    rcases hdn with hs | ⟨ho, rfl⟩ | ⟨hm, rfl⟩
    · exact .inl hs
    · exact .inr (.inl ⟨ho, rfl, rfl⟩)
    · exact .inr (.inr ⟨hm, rfl, rfl⟩)
  · -- the outermost commit has failed: it has rolled back
    exact ⟨Int.le_refl 0, by simp, .inr ⟨rfl, rfl⟩⟩
  -- a savepoint that is released does not stop the run
  rw [commitTx_inner ha hm (har.release p above hpl.pc hp hm), hpl.pc, next_located hsize hp] at hac
  have hst := congrArg (fun r => r.map Prod.fst) hac
  simp only [Option.map_some, Option.some.injEq, stopPlan] at hst
  omega

theorem txInv_rollback (hpl : AtPlace flow c p)
    (hp : (flow.located 0 [])[p]? = some (.rollbackTx, above))
    (hac : rollbackTx c.ctx { c.state with pc := c.pc } = some (pc, ctx, state)) :
    TxInv flow (redirect pc ctx state) := by
  have hd := hpl.depth
  obtain ⟨r, ha⟩ := flow.around_next hp
  rw [around_eq hp, ha, length_cons] at hd
  obtain ⟨rfl, rfl, hc⟩ := rollbackTx_cases hac
  rw [hpl.pc]
  refine txInv_closes hsize hinv hp ?_ (by omega)
  rcases hc with hs | ⟨ho, rfl⟩ | ⟨hm, rfl⟩
  · exact .inl hs
  · exact .inr (.inl ⟨ho, rfl, rfl⟩)
  · exact .inr (.inr ⟨hm, rfl, rfl⟩)

end

theorem Steps.AllPlain.plain {steps : Steps σ} (h : steps.AllPlain) {base : Nat}
    {enclosing : List Nat} {action : InstructionFunc σ}
    (hm : (.leaf action, above) ∈ steps.located base enclosing) : Plain action := by
  induction steps generalizing base enclosing with
  | nil => simp [located] at hm
  | leaf action' rest ih =>
    rcases mem_cons.mp hm with hm | hm
    · cases hm
      exact h.1
    · exact ih h.2 hm
  | transaction dataSource body rest ihBody ihRest =>
  simp only [located, mem_cons, mem_append, Prod.mk.injEq, reduceCtorEq,
    false_and, false_or] at hm
  rcases hm with hm | hm
  · exact ihBody h.1 hm
  · exact ihRest h.2 hm

section

variable (hplain : flow.AllPlain) (hsize : flow.size < 32768)
include hplain hsize

/-- **A step of an armed run keeps the invariant.** -/
theorem txInv_step (hinv : TxInv flow c)
    (har : Armed db flow c) (ht : turn (flow.table db) c = some c') :
    TxInv flow c' := by
  obtain ⟨_, p, action, pc, ctx, state, hpc, ha, hac, rfl⟩ := turn_some ht
  rw [table_eq, getElem?_map, Option.map_eq_some_iff] at ha
  obtain ⟨⟨instr, above⟩, hp, rfl⟩ := ha
  have hpl := hinv.atPlace hpc
  cases instr with
  | leaf action =>
    obtain ⟨pc1, ctx1, hac1, hc, ha1, hd1⟩ :=
      hplain.plain (mem_of_getElem? hp) c.ctx { c.state with pc := c.pc }
    rw [Instruction.action, hac1] at hac
    cases hac
    rcases hc with rfl | rfl
    · have hs : flow.around (p + 1) = flow.around p :=
        (flow.around_next hp).trans (around_eq hp).symm
      rw [hpc]
      refine txInv_next hsize hp (by rw [hd1]; exact hinv.nonneg)
        (by rw [ha1, hd1]; exact hinv.active) ?_ ?_
      · rw [hd1, hs]
        exact hpl.depth
      · rw [hd1, Guarded, hs]
        exact hpl.handler
    · exact txInv_stop hinv har hpl hp trivial hac1 ha1 hd1
  | beginTx source rollbackPC =>
    rcases beginTx_cases hac with ⟨rfl, rfl, ho⟩ | ⟨rfl, rfl, hf⟩
    · rw [hpc]
      exact txInv_begin hsize hinv hpl hp ho
    · refine txInv_stop hinv har hpl hp trivial hac ?_ ?_
      · rcases hf with rfl | ⟨_, rfl⟩ <;> rfl
      · rcases hf with rfl | ⟨_, rfl⟩ <;> rfl
  | commitTx => exact txInv_commit hsize hinv har hpl hp hac
  | rollbackTx => exact txInv_rollback hsize hinv hpl hp hac

/-- A step that stops has left the transaction and the handler alone. -/
theorem stop_unchanged {instr : Instruction σ}
    (hp : (flow.located 0 [])[p]? = some (instr, above)) (hb : instr.InBody)
    (hac : instr.action db ctx ⟨p, handler⟩
      = some (stopPlan, ctx', state)) :
    state = ⟨p, handler⟩ ∧ ctx'.activeTx = ctx.activeTx
      ∧ ctx'.txDepth = ctx.txDepth := by
  cases instr with
  | leaf action =>
    obtain ⟨pc, ctx1, ha1, _, ha, hd⟩ := hplain.plain (mem_of_getElem? hp) ctx ⟨p, handler⟩
    rw [Instruction.action, ha1] at hac
    cases hac
    exact ⟨rfl, ha, hd⟩
  | beginTx source rollbackPC =>
    rcases beginTx_cases hac with ⟨hn, _, _⟩ | ⟨_, rfl, hf⟩
    · rw [next_located hsize hp, stopPlan] at hn
      omega
    · rcases hf with rfl | ⟨_, rfl⟩ <;> exact ⟨rfl, rfl, rfl⟩
  | commitTx | rollbackTx => exact hb.elim

/-- **An armed run keeps the invariant.** -/
theorem txInv_path (hinv : TxInv flow c)
    (hp : Path (turn (flow.table db)) c vs c') (ha : ∀ v ∈ vs, Armed db flow v) :
    TxInv flow c' := by
  induction hp with
  | nil => exact hinv
  | cons ht _ ih =>
    exact ih (txInv_step hplain hsize hinv (ha _ (by simp)) ht) (fun v hv => ha v (by simp [hv]))

end

/-- **In an armed run every failure inside a transaction rolls back, and nothing is left open.** -/
theorem rollsBack_of_armed (hplain : flow.AllPlain) (hsize : flow.size < 32768) {ctx : Ctx σ}
    (hactive : ctx.activeTx = false) (hdepth : ctx.txDepth = 0) {c : Config σ}
    {vs : List (Config σ)} (hpath : Path (turn (flow.table db)) (start ctx 0) vs c)
    (harmed : ∀ v ∈ vs ++ [c], Armed db flow v) : RollsBack db flow c := by
  have hinv := txInv_path hplain hsize (txInv_start hactive hdepth) hpath
    (fun v hv => harmed v (by simp [hv]))
  have hl := harmed c (by simp)
  refine ⟨?_, ?_⟩
  · intro p ctx' hs hf
    have hh := hl.fails p ctx' hs hf
    obtain ⟨hpc, instr, above, hp, _, hb, state, hac⟩ := hs
    obtain ⟨ho, hg⟩ := (hinv.atPlace hpc).handler hh
    have ht : turn (flow.table db) c = _ := turn_located hsize hp hpc
    rw [hac, Option.map_some] at ht
    rw [hpc] at hac
    obtain ⟨rfl, hactive', hdepth'⟩ := stop_unchanged hplain hsize hp hb hac
    obtain ⟨r, e, hrd, ha, hr⟩ := redirect_armed { c.state with pc := p } hf hh hg
    rw [hrd] at ht
    refine ⟨_, r, r :: e, ht, rfl, ?_, hr, ?_, ?_⟩
    · rw [ha]
      exact mem_cons_self
    · exact hactive'.trans (hinv.active.mpr ho)
    · exact hdepth'.symm ▸ ho
  · intro he
    have hz : c.ctx.txDepth = 0 := by
      rcases hinv.place with ⟨p, hpl⟩ | ⟨_, hz⟩
      · -- past the last instruction, where nothing is nested
        have hn := hinv.nonneg
        have hsm : flow.size ≤ p := by
          by_contra hlt
          refine he ⟨?_, ?_⟩
          · rw [hpl.pc]
            omega
          · rw [hpl.pc, Steps.table_length, int16_of_lt (by omega) (by omega)]
            omega
        have hle := hpl.depth
        rw [flow.around_end hsm, length_nil] at hle
        omega
      · exact hz
    refine ⟨?_, hz⟩
    rw [← Bool.not_eq_true, hinv.active, hz]
    decide

end Invariant

/-! ## Concrete failures -/

/-- A step that fails. -/
def failStep : InstructionFunc Unit :=
  fun ctx state => some (stopPlan, ctx.fail, state)

theorem failStep_plain : Plain failStep :=
  fun ctx _ => ⟨stopPlan, ctx.fail, rfl, .inr rfl, rfl, rfl⟩

/-- A transaction whose only step fails. -/
def failingFlow : Steps Unit := .transaction "db" (.leaf failStep .nil) .nil

/-- Its state when the step is about to run. -/
def failingConfig : Config Unit :=
  { pc := 1, ctx := { freshCtx.issue .begin with activeTx := true, txDepth := 1 },
    state := { pc := 0, errorHandlerPC := 3 } }

theorem failing_rolls_back : RollsBack goodDb failingFlow failingConfig := by
  have hplain : failingFlow.AllPlain := ⟨⟨failStep_plain, trivial⟩, trivial⟩
  have hpt : Path (turn (failingFlow.table goodDb)) (start freshCtx 0) [start freshCtx 0]
      failingConfig := .single rfl
  refine rollsBack_of_armed hplain (by decide) rfl rfl hpt ?_
  intro v hv
  rcases mem_cons.mp hv with rfl | hv
  · -- outside the transaction
    have ho : ∀ {p : Nat} {ctx : Ctx Unit},
        ¬ Stops goodDb failingFlow (start freshCtx 0) p ctx := by
      intro p ctx h
      obtain ⟨hpc, instr, above, hp, ha, _⟩ := h
      obtain rfl : 0 = p := Int.ofNat_inj.mp hpc
      cases hp
      exact ha rfl
    exact ⟨fun _ _ h => absurd h ho, fun _ _ h => absurd h ho, fun _ _ _ _ _ => rfl⟩
  · obtain rfl := mem_singleton.mp hv
    refine ⟨fun _ _ _ _ => by decide, ?_, fun _ _ _ _ _ => rfl⟩
    intro p ctx h hf
    obtain ⟨hpc, instr, above, hp, _, _, state, hac⟩ := h
    obtain rfl : 1 = p := Int.ofNat_inj.mp hpc
    cases hp
    cases hac
    cases hf

/-- A transaction around another one, both with a step that fails. -/
def twiceFailingFlow : Steps Unit :=
  .transaction "db" (.transaction "db" (.leaf failStep .nil) (.leaf failStep .nil)) .nil

/-- The inner failure rolls back to the savepoint. The outer one finds no handler, and the run
ends with the transaction open. -/
theorem failure_leaves_open : ∃ vs c,
    Path (turn (twiceFailingFlow.table goodDb)) (start freshCtx 0) vs c
      ∧ ¬ Running (twiceFailingFlow.table goodDb) c ∧ c.ctx.activeTx = true ∧ c.ctx.txDepth = 1
      ∧ ¬ RollsBack goodDb twiceFailingFlow c := by
  refine ⟨_, _, .cons rfl (.cons rfl (.cons rfl (.cons rfl (.cons rfl (.nil _))))), by decide,
    rfl, rfl, ?_⟩
  intro h
  exact absurd (h.closed (by decide)).2 (by decide)

end Rah.Flow
