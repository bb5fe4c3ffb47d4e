import Rah.Condition.Readings

/-!
# The gate of a condition

`NewComplexLogicGate` never rejects a condition. A text that `CompileCondition` rejects goes to
an older evaluator, which splits it at white space, keeps the words that are slots and the two
connectives, and runs them from left to right as reverse Polish. What else stands in the text is
dropped without a word: a comparison, an operand that is not known, a parenthesis.

The older evaluator is true when one of the `alternatives` of the kept words has all its slots
filled. No test is lost when these slots alone settle what the text says, whatever comes of the
tests that were dropped. In an accepted text no test may come out wrong on the side that makes the
condition true.
-/

namespace Rah.Condition

open Rah.Lib List Spaced

/-! ## The older evaluator -/

/-- The two connectives of a gate. -/
inductive Junction where
  | and
  | or
  deriving DecidableEq, Repr

/-- How a connective is written. -/
def Junction.text : Junction → Text
  | .and => ['&', '&']
  | .or => ['|', '|']

def Junction.apply : Junction → Bool → Bool → Bool
  | .and, l, r => l && r
  | .or, l, r => l || r

/-- The connective a word is. -/
def junction (word : Text) : Option Junction :=
  if word = Junction.and.text then some .and
  else if word = Junction.or.text then some .or
  else none

/-- An item of the stack: a slot, or `OpAnd` or `OpOr`. -/
inductive Rpn where
  | slot (idx : Nat)
  | op (op : Junction)
  deriving DecidableEq, Repr

/-- `strings.Trim(tok, "()")`. -/
def trimParens (word : Text) : Text :=
  let isParen := fun c => decide (c = '(' ∨ c = ')')
  ((word.dropWhile isParen).reverse.dropWhile isParen).reverse

/-- One word: the items so far, and the connective that waits for an operand. -/
def rpnStep (slotMap : SlotMap) (st : List Rpn × Option Junction) (word : Text) :
    List Rpn × Option Junction :=
  match junction (trimParens word) with
  | some op => (st.1, some op)
  | none =>
    match slotMap (trimParens word) with
    | none => st
    | some idx => (st.1 ++ .slot idx :: (st.2.map Rpn.op).toList, none)

/-- `parseToRPN`: the fields of the condition, with every operator put after its right operand. -/
def parseToRPN (slotMap : SlotMap) (cond : Text) : List Rpn :=
  let cond := trimSpace cond
  if cond = [] then [] else ((fields cond).foldl (rpnStep slotMap) ([], none)).1

/-- One item, on the results so far with the newest first; none is the early return. -/
def rpnEval (ctx : Ctx) : List Bool → Rpn → Option (List Bool)
  | results, .slot idx => some (decide (ctx.slot idx ≠ []) :: results)
  | r :: l :: results, .op op => some (op.apply l r :: results)
  | _, .op _ => none

/-- The first result that is left. -/
def evaluateRPN (ctx : Ctx) (stack : List Rpn) : Bool :=
  match stack.foldlM (rpnEval ctx) [] with
  | none => false
  | some results => results.getLast?.getD false

/-- The function of a condition; no text is rejected. -/
def conditionFunc (compile : Text → Option (Text → Bool)) (slotMap : SlotMap) (condition : Text) :
    ConditionFunc :=
  match compileCondition compile slotMap condition with
  | .ok condFn => condFn
  | .error _ => fun ctx => evaluateRPN ctx (parseToRPN slotMap condition)

/-- The gate: the number of the instruction to go on with. -/
def newComplexLogicGate (compile : Text → Option (Text → Bool)) (slotMap : SlotMap)
    (condition : Text) (thenID elseID : Int) : Ctx → Int :=
  fun ctx => if conditionFunc compile slotMap condition ctx then thenID else elseID

/-! ## What it keeps of a text -/

section Kept

variable {slotMap : SlotMap} {ctx : Ctx} {alts : List (List Nat)}

/-- The slots among the words, each with the connective that was read last since the slot before. -/
def kept (slotMap : SlotMap) : Option Junction → List Text → List (Option Junction × Nat)
  | _, [] => []
  | op, word :: words =>
    match junction (trimParens word) with
    | some op => kept slotMap (some op) words
    | none =>
      match slotMap (trimParens word) with
      | none => kept slotMap op words
      | some idx => (op, idx) :: kept slotMap none words

/-- One more operand from the left: with `&&` every alternative needs its slot too, with `||` it is
an alternative of its own. -/
def Junction.extend : Junction → Nat → List (List Nat) → List (List Nat)
  | .and, idx, alts => alts.map (idx :: ·)
  | .or, idx, alts => [idx] :: alts

/-- A slot without a connective starts a value above the one that counts. -/
def extendAll : List (Option Junction × Nat) → List (List Nat) → List (List Nat)
  | (some op, idx) :: rest, alts => extendAll rest (op.extend idx alts)
  | _, alts => alts

/-- **The alternatives of a text**: the groups of slots whose being filled makes the older evaluator
true. -/
def alternatives (slotMap : SlotMap) (s : Text) : List (List Nat) :=
  match kept slotMap none (fields (trimSpace s)) with
  | (none, idx) :: rest => extendAll rest [[idx]]
  | _ => []

/-- All slots of an alternative are set. -/
def Ctx.Fills (ctx : Ctx) (alt : List Nat) : Prop := ∀ idx ∈ alt, ctx.slot idx ≠ []

/-- An operand and the operator it completes. -/
def rpnItems (k : Option Junction × Nat) : List Rpn := .slot k.2 :: (k.1.map Rpn.op).toList

theorem foldl_rpnStep (words : List Text) : ∀ st, (words.foldl (rpnStep slotMap) st).1
    = st.1 ++ (kept slotMap st.2 words).flatMap rpnItems := by
  induction words with
  | nil => simp [kept]
  | cons word words ih =>
  intro st
  rw [foldl_cons, ih, rpnStep, kept]
  cases junction (trimParens word) with
  | some op => rfl
  | none =>
  cases slotMap (trimParens word) with
  | none => rfl
  | some idx => simp [rpnItems]

theorem eval_items (b : Bool) (results : List Bool) (k : Option Junction × Nat) :
    (rpnItems k).foldlM (rpnEval ctx) (b :: results) = some (match k.1 with
      | none => decide (ctx.slot k.2 ≠ []) :: b :: results
      | some op => op.apply b (decide (ctx.slot k.2 ≠ [])) :: results) := by
  obtain ⟨_ | op, idx⟩ := k <;> rfl

/-- What is under the top of the stack stays there. -/
theorem eval_under (ctx : Ctx) (rest : List (Option Junction × Nat)) : ∀ b results, ∃ top,
    (rest.flatMap rpnItems).foldlM (rpnEval ctx) (b :: results) = some (top ++ results) := by
  induction rest with
  | nil => exact fun b results => ⟨[b], rfl⟩
  | cons k rest ih =>
  intro b results
  rw [flatMap_cons, foldlM_append, eval_items]
  cases k.1 with
  | none =>
    obtain ⟨top, ht⟩ := ih (decide (ctx.slot k.2 ≠ [])) (b :: results)
    exact ⟨top ++ [b], by rw [append_assoc]; exact ht⟩
  | some op => exact ih _ results

theorem Junction.apply_extend (op : Junction) (idx : Nat)
    (hb : b = true ↔ ∃ alt ∈ alts, ctx.Fills alt) :
    op.apply b (decide (ctx.slot idx ≠ [])) = true ↔ ∃ alt ∈ op.extend idx alts, ctx.Fills alt := by
  cases op with
  | and =>
    simp only [apply, extend, Bool.and_eq_true, hb, decide_eq_true_eq, mem_map,
      exists_exists_and_eq_and, Ctx.Fills, forall_mem_cons]
    constructor
    · rintro ⟨⟨alt, ha, hf⟩, hi⟩
      exact ⟨alt, ha, hi, hf⟩
    · rintro ⟨alt, ha, hi, hf⟩
      exact ⟨⟨alt, ha, hf⟩, hi⟩
  | or =>
    simp only [apply, extend, Bool.or_eq_true, hb, decide_eq_true_eq, exists_mem_cons_iff,
      Ctx.Fills, forall_mem_singleton]
    exact or_comm

/-- The value at the bottom of the stack, from left to right. -/
theorem eval_kept (rest : List (Option Junction × Nat)) : ∀ {b alts},
    (b = true ↔ ∃ alt ∈ alts, ctx.Fills alt) →
    ∃ results b', (rest.flatMap rpnItems).foldlM (rpnEval ctx) [b] = some results ∧
      results.getLast? = some b' ∧ (b' = true ↔ ∃ alt ∈ extendAll rest alts, ctx.Fills alt) := by
  induction rest with
  | nil => exact fun hb => ⟨_, _, rfl, rfl, hb⟩
  | cons k rest ih =>
  intro b alts hb
  rw [flatMap_cons, foldlM_append, eval_items]
  obtain ⟨_ | op, idx⟩ := k
  · -- from here on the bottom does not change
    obtain ⟨top, ht⟩ := eval_under ctx rest (decide (ctx.slot idx ≠ [])) [b]
    exact ⟨_, b, ht, getLast?_concat .., hb⟩
  · exact ih (op.apply_extend idx hb)

/-- **When the older evaluator is true.** -/
theorem evaluateRPN_iff (slotMap : SlotMap) (s : Text) (ctx : Ctx) :
    evaluateRPN ctx (parseToRPN slotMap s) = true ↔
      ∃ alt ∈ alternatives slotMap s, ctx.Fills alt := by
  have hp : parseToRPN slotMap s =
      (kept slotMap none (fields (trimSpace s))).flatMap rpnItems := by
    rw [parseToRPN]
    split
    · next he =>
      rw [he]
      rfl
    · exact foldl_rpnStep _ _
  rw [hp, alternatives, evaluateRPN]
  rcases kept slotMap none (fields (trimSpace s)) with _ | ⟨⟨_ | op, idx⟩, rest⟩
  · simp
  · have hb : decide (ctx.slot idx ≠ []) = true ↔ ∃ alt ∈ [[idx]], ctx.Fills alt := by
      simp [Ctx.Fills]
    obtain ⟨results, b, hr, hl, hb'⟩ := eval_kept rest hb
    have he : (((none, idx) :: rest).flatMap rpnItems).foldlM (rpnEval ctx) [] = some results := hr
    rw [he]
    dsimp only
    rw [hl]
    exact hb'
  · -- the first operand has none to its left
    have he : (((some op, idx) :: rest).flatMap rpnItems).foldlM (rpnEval ctx) [] = none := rfl
    rw [he]
    simp

theorem exists_fills (alt : List Nat) : ∃ ctx : Ctx, ctx.Fills alt := by
  have hn : ∃ n, ∀ idx ∈ alt, idx < n := by
    induction alt with
    | nil => exact ⟨0, by simp⟩
    | cons idx alt ih =>
    obtain ⟨n, hn⟩ := ih
    refine ⟨n + idx + 1, forall_mem_cons.mpr ⟨by omega, fun i hi => ?_⟩⟩
    have := hn i hi
    omega
  obtain ⟨n, hn⟩ := hn
  exact ⟨⟨0, [], [], replicate n ['x']⟩, fun idx hi => by simp [Ctx.slot, hn idx hi]⟩

end Kept

/-! ## What the kept slots settle -/

section Settled

variable (compile : Text → Option (Text → Bool)) (slotMap : SlotMap)

/-- The test comes out so wherever the slots are filled. -/
def Atom.Settled (alt : List Nat) (b : Bool) (a : Atom) : Prop :=
  ∀ ctx : Ctx, ctx.Fills alt → a.value compile slotMap ctx = b

/-- The tests that are settled make the expression so, whatever the others are. -/
def Expr.Settled (alt : List Nat) : Bool → Expr → Prop
  | b, .atom a => a.Settled compile slotMap alt b
  | b, .not e => e.Settled alt (!b)
  | true, .and l r => l.Settled alt true ∧ r.Settled alt true
  | false, .and l r => l.Settled alt false ∨ r.Settled alt false
  | true, .or l r => l.Settled alt true ∨ r.Settled alt true
  | false, .or l r => l.Settled alt false ∧ r.Settled alt false

/-- No test stands there twice, and those that are not settled can come out independently. -/
structure Expr.Free (alt : List Nat) (e : Expr) : Prop where
  once : e.atoms.Nodup
  independent : ∀ v : Atom → Bool,
    (∀ a ∈ e.atoms, ¬ a.Settled compile slotMap alt (!v a)) →
      ∃ ctx : Ctx, ctx.Fills alt ∧ ∀ a ∈ e.atoms, a.value compile slotMap ctx = v a

variable {compile slotMap} {alt : List Nat}

theorem Expr.Settled.value_eq {ctx : Ctx} (hf : ctx.Fills alt) : ∀ {e : Expr} {b : Bool},
    e.Settled compile slotMap alt b → e.value compile slotMap ctx = b
  | .atom a, _, h => h ctx hf
  | .not e, b, h => by
    have he : e.value compile slotMap ctx = !b := Settled.value_eq hf h
    change (!e.value compile slotMap ctx) = b
    rw [he, Bool.not_not]
  | .and l r, true, h => by
    change (l.value compile slotMap ctx && r.value compile slotMap ctx) = true
    rw [Settled.value_eq hf h.1, Settled.value_eq hf h.2]
    rfl
  | .and l r, false, h => by
    change (l.value compile slotMap ctx && r.value compile slotMap ctx) = false
    rcases h with h | h
    · rw [Settled.value_eq hf h, Bool.false_and]
    · rw [Settled.value_eq hf h, Bool.and_false]
  | .or l r, true, h => by
    change (l.value compile slotMap ctx || r.value compile slotMap ctx) = true
    rcases h with h | h
    · rw [Settled.value_eq hf h, Bool.true_or]
    · rw [Settled.value_eq hf h, Bool.or_true]
  | .or l r, false, h => by
    change (l.value compile slotMap ctx || r.value compile slotMap ctx) = false
    rw [Settled.value_eq hf h.1, Settled.value_eq hf h.2]
    rfl

/-- Truth values that the filled slots leave open. -/
def Open (compile : Text → Option (Text → Bool)) (slotMap : SlotMap) (alt : List Nat)
    (v : Atom → Bool) (as : List Atom) : Prop :=
  ∀ a ∈ as, ¬ a.Settled compile slotMap alt (!v a)

theorem exists_open (as : List Atom) : ∃ v, Open compile slotMap alt v as := by
  obtain ⟨ctx, hf⟩ := exists_fills alt
  refine ⟨fun a => a.value compile slotMap ctx, fun a _ hs => ?_⟩
  exact absurd (hs ctx hf) (by simp)

/-- Tests of different parts are chosen apart. -/
theorem Open.both {l r : Expr} (hd : (l.atoms ++ r.atoms).Nodup)
    (hv : Open compile slotMap alt v l.atoms) (hw : Open compile slotMap alt w r.atoms) :
    ∃ u, Open compile slotMap alt u (l.atoms ++ r.atoms) ∧ l.eval u = l.eval v ∧
      r.eval u = r.eval w := by
  have hl : ∀ a ∈ l.atoms, (if a ∈ l.atoms then v a else w a) = v a := fun a ha => if_pos ha
  have hr : ∀ a ∈ r.atoms, (if a ∈ l.atoms then v a else w a) = w a :=
    fun a ha => if_neg fun hal => (nodup_append.mp hd).2.2 a hal a ha rfl
  refine ⟨fun a => if a ∈ l.atoms then v a else w a, fun a ha => ?_, Expr.eval_congr hl,
    Expr.eval_congr hr⟩
  rcases mem_append.mp ha with ha | ha
  · dsimp only
    rw [hl a ha]
    exact hv a ha
  · dsimp only
    rw [hr a ha]
    exact hw a ha

/-- **What is not settled can come out the other way.** -/
theorem Expr.exists_eval_ne : ∀ {e : Expr} {b : Bool}, e.atoms.Nodup →
    ¬ e.Settled compile slotMap alt b → ∃ v, Open compile slotMap alt v e.atoms ∧ e.eval v = !b
  | .atom a, b, _, hn => by
    refine ⟨fun _ => !b, fun a' ha => ?_, rfl⟩
    rw [mem_singleton.mp ha, Bool.not_not]
    exact hn
  | .not e, b, hd, hn => by
    obtain ⟨v, hv, he⟩ := exists_eval_ne (e := e) hd hn
    exact ⟨v, hv, by rw [eval, he, Bool.not_not]⟩
  | .and l r, true, hd, hn => by
    obtain ⟨hdl, hdr, _⟩ := nodup_append.mp hd
    rcases not_and_or.mp hn with hn | hn
    · obtain ⟨v, hv, he⟩ := exists_eval_ne hdl hn
      obtain ⟨w, hw⟩ := exists_open r.atoms
      obtain ⟨u, hu, hul, -⟩ := hv.both hd hw
      exact ⟨u, hu, by rw [eval, hul, he]; rfl⟩
    · obtain ⟨v, hv⟩ := exists_open l.atoms
      obtain ⟨w, hw, he⟩ := exists_eval_ne hdr hn
      obtain ⟨u, hu, -, hur⟩ := Open.both hd hv hw
      exact ⟨u, hu, by rw [eval, hur, he]; exact Bool.and_false _⟩
  | .and l r, false, hd, hn => by
    obtain ⟨hdl, hdr, _⟩ := nodup_append.mp hd
    obtain ⟨v, hv, hel⟩ := exists_eval_ne hdl fun h => hn (.inl h)
    obtain ⟨w, hw, her⟩ := exists_eval_ne hdr fun h => hn (.inr h)
    obtain ⟨u, hu, hul, hur⟩ := hv.both hd hw
    exact ⟨u, hu, by rw [eval, hul, hur, hel, her]; rfl⟩
  | .or l r, true, hd, hn => by
    obtain ⟨hdl, hdr, _⟩ := nodup_append.mp hd
    obtain ⟨v, hv, hel⟩ := exists_eval_ne hdl fun h => hn (.inl h)
    obtain ⟨w, hw, her⟩ := exists_eval_ne hdr fun h => hn (.inr h)
    obtain ⟨u, hu, hul, hur⟩ := hv.both hd hw
    exact ⟨u, hu, by rw [eval, hul, hur, hel, her]; rfl⟩
  | .or l r, false, hd, hn => by
    obtain ⟨hdl, hdr, _⟩ := nodup_append.mp hd
    rcases not_and_or.mp hn with hn | hn
    · obtain ⟨v, hv, he⟩ := exists_eval_ne hdl hn
      obtain ⟨w, hw⟩ := exists_open r.atoms
      obtain ⟨u, hu, hul, -⟩ := hv.both hd hw
      exact ⟨u, hu, by rw [eval, hul, he]; rfl⟩
    · obtain ⟨v, hv⟩ := exists_open l.atoms
      obtain ⟨w, hw, he⟩ := exists_eval_ne hdr hn
      obtain ⟨u, hu, -, hur⟩ := Open.both hd hv hw
      exact ⟨u, hu, by rw [eval, hur, he]; exact Bool.or_true _⟩

theorem Expr.Free.settled {e : Expr} (h : e.Free compile slotMap alt)
    (ht : ∀ ctx : Ctx, ctx.Fills alt → e.value compile slotMap ctx = true) :
    e.Settled compile slotMap alt true := by
  by_contra hn
  obtain ⟨v, hv, he⟩ := exists_eval_ne h.once hn
  obtain ⟨ctx, hf, ha⟩ := h.independent v hv
  have hvl : e.value compile slotMap ctx = e.eval v := eval_congr ha
  rw [ht ctx hf, he] at hvl
  cases hvl

end Settled

/-! ## Tests that err on the safe side -/

/-- Where the closure of the test gives `b`, so does the test. Of the closures that are not right,
a comparison with null is safe when the name it looks up has no slot or the variable is unknown,
and a comparison of the method or the path with a number when the closure always compares zero. -/
def Atom.Fair (slotMap : SlotMap) (b : Bool) : Atom → Prop
  | .isNull name negated => (Atom.isNull name negated).Plain slotMap
      ∨ if negated = b then slotMap name = none else resolve slotMap name = .unknown
  | .compare name op n => (Atom.compare name op n).Plain slotMap
      ∨ slotMap (stripSlot name) = none ∧ op.holds 0 n ≠ b
  | _ => True

/-- Under a negation the other side is the safe one. -/
def Expr.Fair (slotMap : SlotMap) : Bool → Expr → Prop
  | b, .atom a => a.Fair slotMap b
  | b, .not e => e.Fair slotMap (!b)
  | b, .and l r => l.Fair slotMap b ∧ r.Fair slotMap b
  | b, .or l r => l.Fair slotMap b ∧ r.Fair slotMap b

section Fair

variable {compile : Text → Option (Text → Bool)} {slotMap : SlotMap} {b : Bool}

theorem resolveIntReader_noStatus
    (hs : resolve slotMap name = .method ∨ resolve slotMap name = .path) (ctx : Ctx) :
    resolveIntReader slotMap name ctx = match slotMap (stripSlot name) with
      | some idx => (parseInt (ctx.slot idx)).1
      | none => 0 := by
  have hst : stripSlot name ≠ statusName := by
    intro he
    rcases hs with hs | hs <;> simp [resolve, he] at hs
  cases h : slotMap (stripSlot name) <;> simp [resolveIntReader, hst, h]

theorem Atom.Fair.value_eq {a : Atom} {ctx : Ctx} (h : a.Fair slotMap b)
    (hc : a.code compile slotMap ctx = b) : a.value compile slotMap ctx = b := by
  cases a with
  | isNull name negated =>
    rcases h with h | h
    · rw [← h.code_eq, hc]
    split at h
    · -- the closure is never so
      next hb =>
      subst hb
      exact absurd hc (by simp [code, nullCheck, h])
    · next hb =>
      change decide ((!(resolve slotMap name).truthy ctx) ≠ negated) = b
      rw [h]
      cases negated <;> cases b <;> first | rfl | exact absurd rfl hb
  | compare name op n =>
    rcases h with h | ⟨hm, hne⟩
    · rw [← h.code_eq, hc]
    rcases @resolveIntReader_eq slotMap name with ⟨hp, -⟩ | ⟨hs, -⟩
    · have hpl : (Atom.compare name op n).Plain slotMap := .inl hp
      rw [← hpl.code_eq, hc]
    · change op.holds (resolveIntReader slotMap name ctx) n = b at hc
      rw [resolveIntReader_noStatus hs, hm] at hc
      exact absurd hc hne
  | truthy name | eqStr name negated s | pred p name arg =>
    rw [← hc]
    exact (Atom.Plain.code_eq (by trivial) ctx).symm

/-- **A fair expression errs on the safe side.** -/
theorem Expr.Fair.value_eq {ctx : Ctx} : ∀ {e : Expr} {b : Bool}, e.Fair slotMap b →
    e.code compile slotMap ctx = b → e.value compile slotMap ctx = b
  | .atom a, _, h, hc => Atom.Fair.value_eq h hc
  | .not e, b, h, hc => by
    have he : e.value compile slotMap ctx = !b :=
      Fair.value_eq h (by rw [← hc]; exact (Bool.not_not _).symm)
    change (!e.value compile slotMap ctx) = b
    rw [he, Bool.not_not]
  | .and l r, true, h, hc => by
    obtain ⟨hl, hr⟩ := Bool.and_eq_true_iff.mp hc
    exact Bool.and_eq_true_iff.mpr ⟨Fair.value_eq h.1 hl, Fair.value_eq h.2 hr⟩
  | .and l r, false, h, hc =>
    Bool.and_eq_false_iff.mpr
      ((Bool.and_eq_false_iff.mp hc).imp (Fair.value_eq h.1) (Fair.value_eq h.2))
  | .or l r, true, h, hc =>
    Bool.or_eq_true_iff.mpr
      ((Bool.or_eq_true_iff.mp hc).imp (Fair.value_eq h.1) (Fair.value_eq h.2))
  | .or l r, false, h, hc => by
    obtain ⟨hl, hr⟩ := Bool.or_eq_false_iff.mp hc
    exact Bool.or_eq_false_iff.mpr ⟨Fair.value_eq h.1 hl, Fair.value_eq h.2 hr⟩

/-- `== null` is never wrongly true: its variable is looked up where it is, or is unknown. -/
theorem fair_of_eq_null (h : ∀ ctx, nullCheck slotMap name false ctx = true →
      (!(resolve slotMap name).truthy ctx) = true) :
    (resolve slotMap name).FoundAt (slotMap name) ∨ resolve slotMap name = .unknown := by
  obtain ⟨k, hk⟩ := exists_nullCheck slotMap name
  have hv := h _ hk
  cases hs : resolve slotMap name with
  | status | method | path => rw [hs] at hv; cases hv
  | unknown => exact .inr rfl
  | slot idx =>
    refine .inl ?_
    -- the request in which only the variable's own slot is filled
    have hn : nullCheck slotMap name false (filled idx) ≠ true := by
      intro hc
      have hv := h _ hc
      rw [hs] at hv
      simp [Source.truthy, Source.text, filled_slot] at hv
    cases hm : slotMap name with
    | none => exact absurd (nullCheck_none hm _) hn
    | some i =>
    by_cases hi : i = idx
    · rw [hi]
      rfl
    · rw [nullCheck_slot hm, filled_slot_ne hi] at hn
      exact absurd rfl hn

/-- `!= null` is never wrongly true: its variable is looked up where it is, or nowhere. -/
theorem fair_of_ne_null (h : ∀ ctx, nullCheck slotMap name true ctx = true →
      (resolve slotMap name).truthy ctx = true) :
    (resolve slotMap name).FoundAt (slotMap name) ∨ slotMap name = none := by
  cases hm : slotMap name with
  | none => exact .inr rfl
  | some i =>
  refine .inl ?_
  -- the request in which only the slot that is looked up is filled
  have hs : ∀ idx, (⟨0, [], [], (filled i).byteSlots⟩ : Ctx).slot idx = (filled i).slot idx :=
    fun _ => rfl
  have hv := h ⟨0, [], [], (filled i).byteSlots⟩ (by simp [nullCheck, hm, hs, filled_slot])
  cases hr : resolve slotMap name with
  | status | method | path | unknown => rw [hr] at hv; cases hv
  | slot idx =>
    rw [hr] at hv
    have hv : (filled i).slot idx ≠ [] := of_decide_eq_true hv
    have hi : idx = i := by
      by_contra hne
      exact hv (filled_slot_ne hne)
    rw [hi]
    rfl

/-- A comparison of the method or the path with a number is wrongly true somewhere, unless it is
always false. -/
theorem fair_of_compare {op : CmpOp} (hd : parseInt digits = (n, true))
    (h : ∀ ctx, op.holds (resolveIntReader slotMap name ctx) n = true →
      op.holds ((resolve slotMap name).int ctx) n = true) :
    (Atom.compare name op n).Fair slotMap true := by
  by_cases hc : op.Constant n
  · exact .inl (.inr hc)
  rcases @resolveIntReader_eq slotMap name with ⟨hne, -⟩ | ⟨hs, -⟩
  · exact .inl (.inl hne)
  obtain ⟨text, ht⟩ := CmpOp.distinguishes hd hc
  have hv : ∀ x slots, op.holds (resolveIntReader slotMap name ⟨0, x, x, slots⟩) n = true →
      op.holds (parseInt x).1 n = true := by
    intro x slots hx
    have hi := h _ hx
    rcases hs with hs | hs <;> rw [hs] at hi <;> exact hi
  simp only [resolveIntReader_noStatus hs] at hv
  refine .inr ?_
  cases hm : slotMap (stripSlot name) with
  | none =>
    rw [hm] at hv
    refine ⟨rfl, fun h0 => ht ?_⟩
    rw [h0]
    exact hv text [] h0
  | some i =>
    -- the slot has one of two texts that the comparison tells apart, the request the other
    rw [hm] at hv
    have hsl : ∀ x y, (⟨0, x, x, replicate i [] ++ [y]⟩ : Ctx).slot i = y := by
      simp [Ctx.slot]
    have hxy : ∀ x y, op.holds (parseInt y).1 n = true → op.holds (parseInt x).1 n = true := by
      intro x y hy
      refine hv x (replicate i [] ++ [y]) ?_
      change op.holds (parseInt (Ctx.slot _ i)).1 n = true
      rw [hsl]
      exact hy
    refine absurd (Bool.eq_iff_iff.mpr ⟨hxy [] text, hxy text []⟩) ht

theorem AtomPrints.fair_of_code_imp {a : Atom} {ts : List Token} (hp : AtomPrints compile a ts)
    (h : ∀ ctx, a.code compile slotMap ctx = true → a.value compile slotMap ctx = true) :
    a.Fair slotMap true := by
  cases hp with
  | truthy | eqStr | pred _ => trivial
  | @isNull name word negated _ =>
    cases negated with
    | false => exact fair_of_eq_null fun ctx hc => by simpa [Atom.value] using h ctx hc
    | true => exact fair_of_ne_null fun ctx hc => by simpa [Atom.value] using h ctx hc
  | compare hd => exact fair_of_compare hd h

end Fair

/-! ## The gate -/

section Gates

variable {compile : Text → Option (Text → Bool)} {slotMap : SlotMap} {s : Text}

/-- The gate takes its branch only when the text, read as an expression, is true. -/
def GateSound (compile : Text → Option (Text → Bool)) (slotMap : SlotMap) (s : Text)
    (thenID elseID : Int) : Prop :=
  ∀ ctx, newComplexLogicGate compile slotMap s thenID elseID ctx = thenID →
    ∃ e, Reads compile slotMap s e ∧ e.value compile slotMap ctx = true

/-- An accepted text has only fair readings; of a rejected one, every alternative of the words that
are kept settles a reading. -/
def Lossless (compile : Text → Option (Text → Bool)) (slotMap : SlotMap) (s : Text) : Prop :=
  match compileCondition compile slotMap s with
  | .ok _ => ∀ e, Reads compile slotMap s e → e.Fair slotMap true
  | .error _ => ∀ alt ∈ alternatives slotMap s,
      ∃ e, Reads compile slotMap s e ∧ e.Settled compile slotMap alt true

/-- The text has one reading at most, and no test of it can stand in for another. -/
def TestsApart (compile : Text → Option (Text → Bool)) (slotMap : SlotMap) (s : Text) : Prop :=
  ∀ e, Reads compile slotMap s e → (∀ e', Reads compile slotMap s e' → e' = e) ∧
    match compileCondition compile slotMap s with
    | .ok _ => trimSpace s ≠ [] ∧ ∃ a, e = .atom a
    | .error _ => ∀ alt ∈ alternatives slotMap s, e.Free compile slotMap alt

theorem gate_eq_then (hi : thenID ≠ elseID) :
    newComplexLogicGate compile slotMap s thenID elseID ctx = thenID ↔
      conditionFunc compile slotMap s ctx = true := by
  exact hi.ite_eq_left_iff

theorem Lossless.sound (h : Lossless compile slotMap s)
    (hg : conditionFunc compile slotMap s ctx = true) :
    ∃ e, Reads compile slotMap s e ∧ e.value compile slotMap ctx = true := by
  rw [conditionFunc] at hg
  rw [Lossless] at h
  cases hc : compileCondition compile slotMap s with
  | ok f =>
    rw [hc] at h hg
    rcases compileCondition_sound hc with ⟨-, rfl⟩ | ⟨e, hr, rfl⟩
    · cases hg
    · exact ⟨e, hr, (h e hr).value_eq hg⟩
  | error err =>
    rw [hc] at h hg
    obtain ⟨alt, ha, hf⟩ := (evaluateRPN_iff slotMap s ctx).mp hg
    obtain ⟨e, hr, hs⟩ := h alt ha
    exact ⟨e, hr, hs.value_eq hf⟩

theorem TestsApart.lossless (h : TestsApart compile slotMap s)
    (hs : ∀ ctx, conditionFunc compile slotMap s ctx = true →
      ∃ e, Reads compile slotMap s e ∧ e.value compile slotMap ctx = true) :
    Lossless compile slotMap s := by
  unfold conditionFunc at hs
  rw [TestsApart] at h
  rw [Lossless]
  cases hc : compileCondition compile slotMap s with
  | ok f =>
    rw [hc] at h hs
    intro e he
    obtain ⟨hu, hne, a, rfl⟩ := h e he
    rcases compileCondition_sound hc with ⟨hb, -⟩ | ⟨e', hr, rfl⟩
    · exact absurd hb hne
    · cases hu e' hr
      obtain ⟨ts, hp, -⟩ := hr
      obtain ⟨ts', ha⟩ := hp.atomPrints rfl
      refine ha.fair_of_code_imp fun ctx hct => ?_
      obtain ⟨e', hr', hv⟩ := hs ctx hct
      cases hu e' hr'
      exact hv
  | error err =>
    rw [hc] at h hs
    intro alt ha
    obtain ⟨ctx, hf⟩ := exists_fills alt
    obtain ⟨e, hr, -⟩ := hs ctx ((evaluateRPN_iff slotMap s ctx).mpr ⟨alt, ha, hf⟩)
    obtain ⟨hu, hfr⟩ := h e hr
    refine ⟨e, hr, (hfr alt ha).settled fun ctx hf => ?_⟩
    obtain ⟨e', hr', hv⟩ := hs ctx ((evaluateRPN_iff slotMap s ctx).mpr ⟨alt, ha, hf⟩)
    rw [hu e' hr'] at hv
    exact hv

/-- **No test is lost** from a lossless text. Where the tests are apart, only from such a one. -/
theorem gate_sound {thenID elseID : Int} (hids : thenID ≠ elseID) :
    (Lossless compile slotMap s → GateSound compile slotMap s thenID elseID) ∧
      (TestsApart compile slotMap s →
        (GateSound compile slotMap s thenID elseID ↔ Lossless compile slotMap s)) := by
  have hl : Lossless compile slotMap s → GateSound compile slotMap s thenID elseID :=
    fun h ctx hg => h.sound ((gate_eq_then hids).mp hg)
  refine ⟨hl, fun ha => ⟨fun hs => ha.lossless fun ctx hc => ?_, hl⟩⟩
  exact hs ctx ((gate_eq_then hids).mpr hc)

theorem settled_of_mem (idx : Nat) (hr : resolve slotMap name = .slot idx) (hi : idx ∈ alt) :
    (Expr.atom (.truthy name)).Settled compile slotMap alt true := by
  intro ctx hf
  change (resolve slotMap name).truthy ctx = true
  rw [hr]
  exact decide_eq_true (hf idx hi)

/-- `(x-a || b) && c || status == 500`: the hyphen sends it to the older evaluator, which groups
from left to right as the text does, and drops an alternative only. -/
def groupedText : Text :=
  ['(', 'x', '-', 'a', ' ', '|', '|', ' ', 'b', ')', ' ', '&', '&', ' ', 'c', ' ', '|', '|', ' ',
    's', 't', 'a', 't', 'u', 's', ' ', '=', '=', ' ', '5', '0', '0']

theorem gate_sound_grouped :
    GateSound (fun _ => none) (slotsOf [['x', '-', 'a'], ['b'], ['c']]) groupedText 1 0 := by
  have hp : Prints (fun _ => none) .or
      (.or (.and (.or (.atom (.truthy ['x', '-', 'a'])) (.atom (.truthy ['b'])))
        (.atom (.truthy ['c']))) (.atom (.compare statusName .eq 500)))
      [.lparen, .ident ['x', '-', 'a'], .or, .ident ['b'], .rparen, .and, .ident ['c'], .or,
        .ident statusName, .eq, .num ['5', '0', '0']] :=
    .or (.conj (.and (.unary (.paren (.or (.conj (.unary (.atom .truthy)))
      (.unary (.atom .truthy))))) (.atom .truthy))) (.unary (.atom (.compare (by decide))))
  have hs := @cons Spells [] ['('] _ .lparen _ (by simp) (.token .lparen)
    (@cons Spells [] ['x', '-', 'a'] _ _ _ (by simp) .name
    (@cons Spells [' '] ['|', '|'] _ .or _ (by simp [isBlank]) (.token .or)
    (@cons Spells [' '] ['b'] _ _ _ (by simp [isBlank]) .name
    (@cons Spells [] [')'] _ .rparen _ (by simp) (.token .rparen)
    (@cons Spells [' '] ['&', '&'] _ .and _ (by simp [isBlank]) (.token .and)
    (@cons Spells [' '] ['c'] _ _ _ (by simp [isBlank]) .name
    (@cons Spells [' '] ['|', '|'] _ .or _ (by simp [isBlank]) (.token .or)
    (@cons Spells [' '] statusName _ _ _ (by simp [isBlank]) .name
    (@cons Spells [' '] ['=', '='] _ .eq _ (by simp [isBlank]) (.token .eq)
    (@cons Spells [' '] ['5', '0', '0'] _ (.num ['5', '0', '0']) _ (by simp [isBlank])
      (.token (.num (by decide))) (@nil Spells [] (by simp))))))))))))
  refine (gate_sound (by decide)).1 fun alt ha => ⟨_, ⟨_, hp, hs, ?_⟩, ?_⟩
  · simp
    decide
  have hal : alternatives (slotsOf [['x', '-', 'a'], ['b'], ['c']]) groupedText
      = [[2, 1], [2, 0]] :=
    by decide
  rw [hal, mem_cons, mem_singleton] at ha
  rcases ha with rfl | rfl
  · exact .inl ⟨.inr (settled_of_mem 1 (by decide) (by simp)),
      settled_of_mem 2 (by decide) (by simp)⟩
  · exact .inl ⟨.inl (settled_of_mem 0 (by decide) (by simp)),
      settled_of_mem 2 (by decide) (by simp)⟩

/-- Every character of a written text is a blank or stands in a token. -/
theorem Spaced.char (h : Spaced W ts s) (hc : c ∈ s) (hb : isBlank c = false) :
    ∃ t ∈ ts, ∃ x, W t x ∧ c ∈ x ∧ ∀ d ∈ x, d ∈ s := by
  induction h with
  | nil hws => rw [hws c hc] at hb; cases hb
  | @cons ws x s t ts hws hx hs ih =>
  rcases mem_append.mp hc with hc | hc
  · rw [hws c hc] at hb
    cases hb
  rcases mem_append.mp hc with hc | hc
  · exact ⟨t, by simp, x, hx, hc, fun d hd => by simp [hd]⟩
  · obtain ⟨t', ht', x', hx', hcx, hsb⟩ := ih hc
    exact ⟨t', by simp [ht'], x', hx', hcx, fun d hd => by simp [hsb d hd]⟩

theorem isIdent_mem (h : isIdent x = true) (hc : c ∈ x) : isIdentChar c = true := by
  cases x with
  | nil => cases hc
  | cons d x =>
  simp only [isIdent, Bool.and_eq_true, all_eq_true] at h
  rcases mem_cons.mp hc with rfl | hc
  · exact isIdentChar_of_start h.1
  · exact h.2 c hc

theorem isNumber_digit (h : isNumber x = true) : ∃ d ∈ x, d.isDigit = true := by
  cases x with
  | nil => cases h
  | cons c x =>
  simp only [isNumber, Bool.and_eq_true, Bool.or_eq_true, all_eq_true, bne_iff_ne] at h
  rcases h.1 with hc | ⟨-, hne⟩
  · exact ⟨c, by simp, hc⟩
  · obtain ⟨d, y, rfl⟩ := exists_cons_of_ne_nil hne
    exact ⟨d, by simp, h.2 d (by simp)⟩

/-- `admin && x-role != null`, where nothing is known of `x-role`. -/
def lostTest : Text :=
  ['a', 'd', 'm', 'i', 'n', ' ', '&', '&', ' ', 'x', '-', 'r', 'o', 'l', 'e', ' ', '!', '=', ' ',
    'n', 'u', 'l', 'l']

/-- **A test is lost**: the text cannot be read, and the gate takes its branch for every request
in which the slot of `admin` is filled. -/
theorem gate_lost_test :
    newComplexLogicGate (fun _ => none) (slotsOf [['a', 'd', 'm', 'i', 'n']]) lostTest 1 0
        ⟨200, [], [], [['y']]⟩ = 1 ∧
      ¬ ∃ e, Reads (fun _ => none) (slotsOf [['a', 'd', 'm', 'i', 'n']]) lostTest e := by
  refine ⟨by decide, ?_⟩
  rintro ⟨e, ts, hp, hs, hnm⟩
  -- the hyphen is part of no token
  obtain ⟨t, ht, x, hx, hh, hsb⟩ := hs.char (c := '-') (by decide) rfl
  have hi : isIdent x = true → False := fun h => absurd (isIdent_mem h hh) (by decide)
  cases hx with
  | name =>
    rcases hnm x ht with h | h
    · exact hi h
    have ha : x = ['a', 'd', 'm', 'i', 'n'] := by
      by_contra hne
      simp [slotsOf, findIdx?_cons, Ne.symm hne] at h
    rw [ha] at hh
    exact absurd hh (by decide)
  | token hw =>
    cases hw with
    | ident h => exact hi h
    | num h =>
      obtain ⟨d, hd, hdg⟩ := isNumber_digit h
      have hn : lostTest.any Char.isDigit = false := by decide
      rw [any_eq_false] at hn
      exact absurd hdg (hn d (hsb d hd))
    | @str str q hq _ =>
      have hqt := hsb q (by simp)
      rcases hq with rfl | rfl <;> exact absurd hqt (by decide)
    | _ => exact absurd hh (by decide)

end Gates

end Rah.Condition
