import Rah.Condition.Parser

/-!
# What a condition says

A condition is an expression over tests of the request, and its text is any printing of it: the
grammar gives `!` precedence over `&&` and `&&` over `||`, and more parentheses than needed are
allowed. `CompileCondition` reads the expression back and evaluates it, with each test as the
parser's closure computes it (`Prints.settles`).

Two kinds of closure do not compute what the test says. A comparison with null looks the name up
as it stands, so with the prefix `slot.` it finds no slot and takes the variable for empty; and
a comparison with a number reads neither the method nor the path.
-/

namespace Rah.Condition

open Rah.Lib List Spaced Token

/-! ## Expressions -/

/-- What a name stands for. -/
inductive Source where
  | status
  | method
  | path
  | slot (idx : Nat)
  | unknown
  deriving DecidableEq, Repr

/-- Where a name is read from. -/
def resolve (slotMap : SlotMap) (name : Text) : Source :=
  let name := stripSlot name
  if name = statusName then .status
  else if name = methodName then .method
  else if name = pathName then .path
  else
    match slotMap name with
    | some idx => .slot idx
    | none => .unknown

/-- The text a source has in a context. -/
def Source.text (ctx : Ctx) : Source → Text
  | .status => itoa ctx.responseStatus
  | .method => ctx.method
  | .path => ctx.path
  | .slot idx => ctx.slot idx
  | .unknown => []

/-- The value as a number; what is not written as one is zero. -/
def Source.int (ctx : Ctx) : Source → Int
  | .status => ctx.responseStatus
  | src => (parseInt (src.text ctx)).1

/-- There is a value. -/
def Source.truthy (ctx : Ctx) : Source → Bool
  | .status => ctx.responseStatus ≠ 0
  | src => src.text ctx ≠ []

/-- A test of the request. -/
inductive Atom where
  | truthy (name : Text)
  | eqStr (name : Text) (negated : Bool) (s : Text)
  | isNull (name : Text) (negated : Bool)
  | compare (name : Text) (op : CmpOp) (n : Int)
  | pred (p : StringPredicate) (name arg : Text)
  deriving DecidableEq, Repr

/-- The expressions of the condition language. -/
inductive Expr where
  | atom (a : Atom)
  | not (e : Expr)
  | and (l r : Expr)
  | or (l r : Expr)
  deriving DecidableEq, Repr

/-- Their meaning, given that of the atoms. -/
def Expr.eval (v : Atom → Bool) : Expr → Bool
  | .atom a => v a
  | .not e => !e.eval v
  | .and l r => l.eval v && r.eval v
  | .or l r => l.eval v || r.eval v

def Expr.atoms : Expr → List Atom
  | .atom a => [a]
  | .not e => e.atoms
  | .and l r => l.atoms ++ r.atoms
  | .or l r => l.atoms ++ r.atoms

theorem Expr.eval_congr {v w : Atom → Bool} : ∀ {e : Expr}, (∀ a ∈ e.atoms, v a = w a) →
    e.eval v = e.eval w
  | .atom a, h => h a (by simp [Expr.atoms])
  | .not e, h => by rw [Expr.eval, Expr.eval, Expr.eval_congr (e := e) h]
  | .and l r, h | .or l r, h => by
    obtain ⟨hl, hr⟩ := forall_mem_append.mp h
    rw [Expr.eval, Expr.eval, Expr.eval_congr hl, Expr.eval_congr hr]

section Values

variable (compile : Text → Option (Text → Bool)) (slotMap : SlotMap)

/-- Whether a test holds. -/
def Atom.value (ctx : Ctx) : Atom → Bool
  | .truthy name => (resolve slotMap name).truthy ctx
  | .eqStr name negated s => ((resolve slotMap name).text ctx = s) ≠ negated
  | .isNull name negated => (!(resolve slotMap name).truthy ctx) ≠ negated
  | .compare name op n => op.holds ((resolve slotMap name).int ctx) n
  | .pred p name arg => (p.test compile arg).any fun test => test ((resolve slotMap name).text ctx)

/-- **The truth value** of an expression. -/
def Expr.value (e : Expr) (ctx : Ctx) : Bool := e.eval (Atom.value compile slotMap ctx)

/-- The closure the parser builds for a test. -/
def Atom.code : Atom → ConditionFunc
  | .truthy name => truthiness slotMap name
  | .eqStr name false s => fun ctx => resolveStringReader slotMap name ctx = s
  | .eqStr name true s => fun ctx => resolveStringReader slotMap name ctx ≠ s
  | .isNull name negated => nullCheck slotMap name negated
  | .compare name op n => fun ctx => op.holds (resolveIntReader slotMap name ctx) n
  | .pred p name arg => fun ctx =>
    (p.test compile arg).any fun test => test (resolveStringReader slotMap name ctx)

/-- What the compiler is to make of an expression. -/
def Expr.code (e : Expr) : ConditionFunc := fun ctx => e.eval fun a => a.code compile slotMap ctx

end Values

/-! ## Printing -/

/-- The operators of the grammar, loosest first. -/
inductive Level where
  | or
  | and
  | unary
  deriving DecidableEq, Repr

/-- The token of an equality or of its negation. -/
def equality (negated : Bool) : Token := if negated then .ne else .eq

/-- The ways an atom is written as tokens. -/
inductive AtomPrints (compile : Text → Option (Text → Bool)) : Atom → List Token → Prop where
  | truthy {name : Text} : AtomPrints compile (.truthy name) [.ident name]
  | eqStr {name s : Text} {negated : Bool} :
      AtomPrints compile (.eqStr name negated s) [.ident name, equality negated, .str s]
  | isNull {name word : Text} {negated : Bool} : word = nullName ∨ word = nilName →
      AtomPrints compile (.isNull name negated) [.ident name, equality negated, .ident word]
  | compare {name digits : Text} {op : CmpOp} {n : Int} : parseInt digits = (n, true) →
      AtomPrints compile (.compare name op n) [.ident name, op.token, .num digits]
  | pred {p : StringPredicate} {name arg : Text} : (p.test compile arg).isSome = true →
      AtomPrints compile (.pred p name arg)
        [.ident p.name, .lparen, .ident name, .comma, .str arg, .rparen]

/-- The printings of an expression at a level of the grammar. -/
inductive Prints (compile : Text → Option (Text → Bool)) : Level → Expr → List Token → Prop where
  | atom {a : Atom} {ts : List Token} : AtomPrints compile a ts → Prints compile .unary (.atom a) ts
  | paren {e : Expr} {ts : List Token} : Prints compile .or e ts →
      Prints compile .unary e (.lparen :: (ts ++ [.rparen]))
  | not {e : Expr} {ts : List Token} : Prints compile .unary e ts →
      Prints compile .unary (.not e) (.not :: ts)
  | unary {e : Expr} {ts : List Token} : Prints compile .unary e ts → Prints compile .and e ts
  | and {l r : Expr} {ts ts' : List Token} : Prints compile .and l ts →
      Prints compile .unary r ts' → Prints compile .and (.and l r) (ts ++ .and :: ts')
  | conj {e : Expr} {ts : List Token} : Prints compile .and e ts → Prints compile .or e ts
  | or {l r : Expr} {ts ts' : List Token} : Prints compile .or l ts →
      Prints compile .and r ts' → Prints compile .or (.or l r) (ts ++ .or :: ts')

/-- The names of a test can be written: they are identifiers, and where a predicate could stand,
not the name of one. -/
def Atom.Named : Atom → Prop
  | .truthy name => isIdent name = true ∧ stringPredicate name = none
  | .eqStr name _ _ => isIdent name = true ∧ stringPredicate name = none
  | .isNull name _ => isIdent name = true ∧ stringPredicate name = none
  | .compare name _ _ => isIdent name = true ∧ stringPredicate name = none
  | .pred _ name _ => isIdent name = true

section Tokens

variable {compile : Text → Option (Text → Bool)} {lv : Level} {e : Expr} {ts : List Token}

theorem Prints.ne_nil (h : Prints compile lv e ts) : ts ≠ [] := by
  induction h with
  | atom ha => cases ha <;> simp
  | paren _ _ | not _ _ | and _ _ _ _ | or _ _ _ _ => simp
  | unary _ ih | conj _ ih => exact ih

/-- A printed expression does not begin with an equals sign. -/
theorem Prints.head_ne_eq (h : Prints compile lv e ts) : ∀ t ∈ ts.head?, t ≠ .eq := by
  have hap : ∀ {ts ts' : List Token}, ts ≠ [] → (∀ t ∈ ts.head?, t ≠ eq) →
      ∀ t ∈ (ts ++ ts').head?, t ≠ eq := by
    intro ts ts' hne hts
    cases ts with
    | nil => exact absurd rfl hne
    | cons t ts => exact hts
  induction h with
  | atom ha => cases ha <;> simp
  | paren _ _ | not _ _ => simp
  | unary _ ih | conj _ ih => exact ih
  | and hl _ ihl _ | or hl _ ihl _ => exact hap hl.ne_nil ihl

theorem AtomPrints.joins (h : AtomPrints compile a ts) : ts.IsChain Joins := by
  cases h with
  | truthy => simp
  | @eqStr name s negated | @isNull name word negated _ =>
    cases negated <;> simp [equality, Joins, isWord]
  | @compare name digits op n _ => cases op <;> simp [CmpOp.token, Joins, isWord]
  | pred _ => simp [Joins, isWord]

/-- **The tokens of a printed expression** stand apart. -/
theorem Prints.joins (h : Prints compile lv e ts) : ts.IsChain Joins := by
  -- an operator joins on both sides
  have hj : ∀ {ts ts' : List Token} {o : Token}, ts.IsChain Joins → ts'.IsChain Joins →
      (∀ t ∈ ts'.head?, t ≠ eq) → o.isWord = false → o ≠ .eq →
      (ts ++ o :: ts').IsChain Joins := by
    intro ts ts' o hts hts' hh hop hne
    rw [isChain_append, isChain_cons]
    refine ⟨hts, ⟨fun t ht => ⟨fun h => ?_, fun h => absurd h (hh t ht)⟩, hts'⟩, ?_⟩
    · rw [hop] at h
      cases h
    · intro t _ t' ht'
      cases ht'
      exact ⟨fun _ => hop, fun h => absurd h hne⟩
  induction h with
  | atom ha => exact ha.joins
  | @paren e ts he ih =>
    have := hj (o := .lparen) isChain_nil (hj ih isChain_nil (by simp) rfl
      (by simp : rparen ≠ .eq)) ?_ rfl (by simp)
    · exact this
    · obtain ⟨t, ts', rfl⟩ := exists_cons_of_ne_nil he.ne_nil
      exact he.head_ne_eq
  | not he ih => exact hj isChain_nil ih he.head_ne_eq rfl (by simp)
  | unary _ ih | conj _ ih => exact ih
  | and _ hr ihl ihr | or _ hr ihl ihr => exact hj ihl ihr hr.head_ne_eq rfl (by simp)

theorem Atom.Named.idents {a : Atom} (h : a.Named) (hp : AtomPrints compile a ts) :
    ∀ name, ident name ∈ ts → isIdent name = true := by
  intro name hn
  cases hp with
  | truthy =>
    simp only [mem_singleton, ident.injEq] at hn
    exact hn ▸ h.1
  | @eqStr _ _ negated =>
    cases negated <;> simp [equality] at hn <;> exact hn ▸ h.1
  | @isNull own word negated hw =>
    have hc : name = own ∨ name = word := by
      cases negated <;> simpa [equality] using hn
    rcases hc with rfl | rfl
    · exact h.1
    · rcases hw with rfl | rfl <;> decide
  | @compare _ _ op _ _ =>
    cases op <;> simp [CmpOp.token] at hn <;> exact hn ▸ h.1
  | @pred p own arg _ =>
    have hc : name = p.name ∨ name = own := by simpa using hn
    rcases hc with rfl | rfl
    · cases p <;> decide
    · exact h

/-- Every name in a printed expression is an identifier. -/
theorem Prints.idents (h : Prints compile lv e ts) (hnm : ∀ a ∈ e.atoms, a.Named) :
    ∀ name, ident name ∈ ts → isIdent name = true := by
  induction h with
  | atom ha => exact (hnm _ (by simp [Expr.atoms])).idents ha
  | paren _ ih | not _ ih => exact fun name hn => ih hnm name (by simpa using hn)
  | unary _ ih | conj _ ih => exact ih hnm
  | and _ _ ihl ihr | or _ _ ihl ihr =>
  obtain ⟨hl, hr⟩ := forall_mem_append.mp hnm
  intro name hn
  simp only [mem_append, mem_cons, reduceCtorEq, false_or] at hn
  rcases hn with hn | hn
  · exact ihl hl name hn
  · exact ihr hr name hn

theorem Spaced.writes {s : Text} (h : Spaced Spells ts s)
    (hi : ∀ name, ident name ∈ ts → isIdent name = true) : Spaced Writes ts s := by
  induction h with
  | nil hws => exact .nil hws
  | @cons ws x s t ts hws hx _ ih =>
  have hx' : Writes t x := by
    cases hx with
    | name => exact .ident (hi x (by simp))
    | token hx => exact hx
  exact .cons hws hx' (ih fun name hn => hi name (by simp [hn]))

end Tokens

/-! ## What the parser consumes -/

section Parser

variable {compile : Text → Option (Text → Bool)} {slotMap : SlotMap}

variable {ts : List Token} {name : Text} {r : ConditionFunc × List Token}

theorem expect_eq (h : expect want ts = .ok ts') : ts = want :: ts' := by
  cases ts with
  | nil => cases h
  | cons t ts =>
  rw [expect] at h
  split at h
  · next ht =>
    cases h
    rw [ht]
  · cases h

theorem expectIdent_eq {r : Text × List Token} (h : expectIdent ts = .ok r) :
    ts = .ident r.1 :: r.2 := by
  unfold expectIdent at h
  split at h
  · cases h
    rfl
  · cases h

theorem expectStr_eq {r : Text × List Token} (h : expectStr ts = .ok r) : ts = .str r.1 :: r.2 := by
  unfold expectStr at h
  split at h
  · cases h
    rfl
  · cases h

theorem stringPredicate_eq (h : stringPredicate name = some p) : name = p.name := by
  unfold stringPredicate at h
  repeat' split at h
  all_goals cases h
  all_goals assumption

theorem parsePredicate_sound (h : parsePredicate compile slotMap p ts = .ok r) :
    ∃ a pre, .ident p.name :: ts = pre ++ r.2 ∧ AtomPrints compile a pre ∧
      r.1 = a.code compile slotMap := by
  obtain ⟨ts1, h1, h⟩ := bind_eq_ok.mp h
  obtain ⟨⟨name, ts2⟩, h2, h⟩ := bind_eq_ok.mp h
  obtain ⟨ts3, h3, h⟩ := bind_eq_ok.mp h
  obtain ⟨⟨arg, ts4⟩, h4, h⟩ := bind_eq_ok.mp h
  obtain ⟨ts5, h5, h⟩ := bind_eq_ok.mp h
  cases ht : p.test compile arg with
  | none =>
    simp only [ht] at h
    cases h
  | some test =>
  simp only [ht] at h
  cases h
  refine ⟨.pred p name arg, [.ident p.name, .lparen, .ident name, .comma, .str arg, .rparen],
    ?_, .pred (by rw [ht]; rfl), ?_⟩
  · rw [expect_eq h1, expectIdent_eq h2, expect_eq h3, expectStr_eq h4, expect_eq h5]
    rfl
  · simp [Atom.code, ht]

theorem parseRHS_sound (h : parseRHS slotMap name op ts = .ok r) :
    ∃ a pre, .ident name :: op.token :: ts = pre ++ r.2 ∧ AtomPrints compile a pre ∧
      r.1 = a.code compile slotMap := by
  unfold parseRHS at h
  split at h
  · next s ts =>
    split at h
    · cases h
      exact ⟨.eqStr name false s, [.ident name, .eq, .str s], rfl, .eqStr, rfl⟩
    · cases h
      exact ⟨.eqStr name true s, [.ident name, .ne, .str s], rfl, .eqStr, rfl⟩
    · cases h
  · next rhs ts =>
    split at h
    · next hw =>
      split at h
      · cases h
        exact ⟨.isNull name false, [.ident name, .eq, .ident rhs], rfl, .isNull hw, rfl⟩
      · cases h
        exact ⟨.isNull name true, [.ident name, .ne, .ident rhs], rfl, .isNull hw, rfl⟩
      · cases h
    · cases h
  · next digits ts =>
    split at h
    · next n hd =>
      cases h
      exact ⟨.compare name op n, [.ident name, op.token, .num digits], rfl, .compare hd, rfl⟩
    · cases h
  · cases h

theorem cmp_token {t : Token} (h : t.cmp = some op) : t = op.token := by
  cases t with
  | eq | ne | lt | le | gt | ge => cases h; rfl
  | _ => cases h

theorem CmpOp.token_ne_eof (op : CmpOp) : op.token ≠ .eof := by cases op <;> simp [CmpOp.token]

theorem parseIdent_sound (h : parseIdent compile slotMap name ts = .ok r) :
    ∃ a pre, .ident name :: ts = pre ++ r.2 ∧ AtomPrints compile a pre ∧
      r.1 = a.code compile slotMap := by
  unfold parseIdent at h
  split at h
  · next p hp =>
    rw [stringPredicate_eq hp]
    exact parsePredicate_sound h
  unfold parseVariable at h
  split at h
  · next op hop =>
    rw [peek_eq (cmp_token hop) op.token_ne_eof]
    exact parseRHS_sound h
  · cases h
    exact ⟨.truthy name, [.ident name], rfl, .truthy, rfl⟩

/-- A parser has consumed a printing of the expression it gives the function of. -/
def Consumes (compile : Text → Option (Text → Bool)) (slotMap : SlotMap) (lv : Level)
    (ts : List Token) (r : ConditionFunc × List Token) : Prop :=
  ∃ e pre, ts = pre ++ r.2 ∧ Prints compile lv e pre ∧ r.1 = e.code compile slotMap

/-- A loop of the parser goes on with the printing of an expression. -/
def Continues (compile : Text → Option (Text → Bool)) (slotMap : SlotMap) (lv : Level)
    (f : ConditionFunc) (ts : List Token) (r : ConditionFunc × List Token) : Prop :=
  ∀ e pre, Prints compile lv e pre → f = e.code compile slotMap →
    ∃ e' more, ts = more ++ r.2 ∧ Prints compile lv e' (pre ++ more) ∧
      r.1 = e'.code compile slotMap

theorem Continues.consumes (hl : Continues compile slotMap lv left.1 left.2 r)
    (hlf : Consumes compile slotMap lv' ts left)
    (hlt : ∀ {e pre}, Prints compile lv' e pre → Prints compile lv e pre) :
    Consumes compile slotMap lv ts r := by
  obtain ⟨e, pre, hpr, hp, hf⟩ := hlf
  obtain ⟨e', more, hm, hprints', hf'⟩ := hl e pre (hlt hp) hf
  exact ⟨e', pre ++ more, by rw [hpr, hm, append_assoc], hprints', hf'⟩

/-- **What the parser consumes** is the expression it evaluates. -/
theorem parse_sound (n : Nat) :
    (∀ ts r, parseOr compile slotMap n ts = .ok r → Consumes compile slotMap .or ts r) ∧
    (∀ f ts r, orLoop compile slotMap n f ts = .ok r → Continues compile slotMap .or f ts r) ∧
    (∀ ts r, parseAnd compile slotMap n ts = .ok r → Consumes compile slotMap .and ts r) ∧
    (∀ f ts r, andLoop compile slotMap n f ts = .ok r → Continues compile slotMap .and f ts r) ∧
    (∀ ts r, parseUnary compile slotMap n ts = .ok r → Consumes compile slotMap .unary ts r) ∧
    (∀ ts r, parsePrimary compile slotMap n ts = .ok r → Consumes compile slotMap .unary ts r) := by
  induction n with
  | zero =>
    refine ⟨?_, ?_, ?_, ?_, ?_, ?_⟩ <;> intros <;> rename_i h <;> cases h
  | succ n ih =>
  obtain ⟨hor, ho, han, ha, hu, hpm⟩ := ih
  refine ⟨fun ts r h => ?_, fun f ts r h => ?_, fun ts r h => ?_, fun f ts r h => ?_,
    fun ts r h => ?_, fun ts r h => ?_⟩
  · obtain ⟨left, hl, h⟩ := bind_eq_ok.mp h
    exact (ho _ _ _ h).consumes (han _ _ hl) .conj
  · rw [orLoop] at h
    split at h
    · next hp =>
      obtain ⟨right, hr, h⟩ := bind_eq_ok.mp h
      obtain ⟨er, tr, htr, hpr, hfr⟩ := han _ _ hr
      intro e pre hpre hf
      obtain ⟨e', more, hm, hprints', hf'⟩ := ho _ _ _ h (.or e er) (pre ++ .or :: tr)
        (.or hpre hpr) (by rw [hf, hfr]; rfl)
      refine ⟨e', .or :: tr ++ more, ?_, by simpa using hprints', hf'⟩
      rw [peek_eq hp (by simp), htr, hm]
      simp
    · cases h
      exact fun e pre hpre hf => ⟨e, [], rfl, by simpa using hpre, hf⟩
  · obtain ⟨left, hl, h⟩ := bind_eq_ok.mp h
    exact (ha _ _ _ h).consumes (hu _ _ hl) .unary
  · rw [andLoop] at h
    split at h
    · next hp =>
      obtain ⟨right, hr, h⟩ := bind_eq_ok.mp h
      obtain ⟨er, tr, htr, hpr, hfr⟩ := hu _ _ hr
      intro e pre hpre hf
      obtain ⟨e', more, hm, hprints', hf'⟩ := ha _ _ _ h (.and e er)
        (pre ++ .and :: tr) (.and hpre hpr) (by rw [hf, hfr]; rfl)
      refine ⟨e', .and :: tr ++ more, ?_, by simpa using hprints', hf'⟩
      rw [peek_eq hp (by simp), htr, hm]
      simp
    · cases h
      exact fun e pre hpre hf => ⟨e, [], rfl, by simpa using hpre, hf⟩
  · rw [parseUnary] at h
    split at h
    · next hp =>
      obtain ⟨inner, hi, h⟩ := bind_eq_ok.mp h
      obtain ⟨e, pre, hpre, hpr, hf⟩ := hu _ _ hi
      cases h
      refine ⟨.not e, .not :: pre, ?_, .not hpr, by rw [hf]; rfl⟩
      rw [peek_eq hp (by simp), hpre]
      rfl
    · exact hpm _ _ h
  · rw [parsePrimary] at h
    split at h
    · next hp =>
      obtain ⟨fn, hfn, h⟩ := bind_eq_ok.mp h
      obtain ⟨rest, hrs, h⟩ := bind_eq_ok.mp h
      obtain ⟨e, pre, hpre, hpr, hf⟩ := hor _ _ hfn
      cases h
      refine ⟨e, .lparen :: (pre ++ [.rparen]), ?_, .paren hpr, hf⟩
      rw [peek_eq hp (by simp), hpre, expect_eq hrs]
      simp
    · split at h
      · next hp =>
        obtain ⟨a, pre, hpre, hat, hf⟩ := parseIdent_sound h
        refine ⟨.atom a, pre, ?_, .atom hat, hf⟩
        rw [peek_eq hp (by simp), hpre]
      · cases h

theorem Consumes.length_lt (h : Consumes compile slotMap lv ts r) : r.2.length < ts.length := by
  obtain ⟨e, pre, hpr, hp, -⟩ := h
  have hps := length_pos_iff.mpr hp.ne_nil
  rw [hpr, length_append]
  omega

theorem expect_ne_fuel (want : Token) (ts : List Token) : expect want ts ≠ .error .fuel := by
  cases ts with
  | nil => simp [expect]
  | cons t ts =>
    rw [expect]
    split <;> simp

theorem parseIdent_ne_fuel (name : Text) (ts : List Token) :
    parseIdent compile slotMap name ts ≠ .error .fuel := by
  unfold parseIdent
  split
  · refine bind_ne_out (expect_ne_fuel _ _) fun ts1 _ => ?_
    refine bind_ne_out (by unfold expectIdent; split <;> simp) fun slot _ => ?_
    refine bind_ne_out (expect_ne_fuel _ _) fun ts2 _ => ?_
    refine bind_ne_out (by unfold expectStr; split <;> simp) fun arg _ => ?_
    refine bind_ne_out (expect_ne_fuel _ _) fun ts3 _ => ?_
    split <;> simp
  · unfold parseVariable
    split
    · unfold parseRHS
      repeat' split
      all_goals simp
    · simp

/-- Four units of fuel a token are enough. -/
theorem parse_ne_fuel (n : Nat) :
    (∀ ts, 4 * ts.length + 4 ≤ n → parseOr compile slotMap n ts ≠ .error .fuel) ∧
    (∀ f ts, 4 * ts.length + 1 ≤ n → orLoop compile slotMap n f ts ≠ .error .fuel) ∧
    (∀ ts, 4 * ts.length + 3 ≤ n → parseAnd compile slotMap n ts ≠ .error .fuel) ∧
    (∀ f ts, 4 * ts.length + 1 ≤ n → andLoop compile slotMap n f ts ≠ .error .fuel) ∧
    (∀ ts, 4 * ts.length + 2 ≤ n → parseUnary compile slotMap n ts ≠ .error .fuel) ∧
    (∀ ts, 4 * ts.length + 1 ≤ n → parsePrimary compile slotMap n ts ≠ .error .fuel) := by
  induction n with
  | zero =>
    refine ⟨?_, ?_, ?_, ?_, ?_, ?_⟩ <;> intros <;> omega
  | succ n ih =>
  obtain ⟨hor, ho, han, ha, hu, hpr⟩ := ih
  obtain ⟨-, -, land, -, lunary, -⟩ := @parse_sound compile slotMap n
  refine ⟨fun ts hn => ?_, fun f ts hn => ?_, fun ts hn => ?_, fun f ts hn => ?_,
    fun ts hn => ?_, fun ts hn => ?_⟩
  · refine bind_ne_out (han ts (by omega)) fun left hl => ho _ _ ?_
    have := (land _ _ hl).length_lt
    omega
  · rw [orLoop]
    split
    · next hp =>
      have h1 := length_of_peek hp (by simp)
      refine bind_ne_out (han _ (by omega)) fun right hr => ho _ _ ?_
      have := (land _ _ hr).length_lt
      omega
    · simp
  · refine bind_ne_out (hu ts (by omega)) fun left hl => ha _ _ ?_
    have := (lunary _ _ hl).length_lt
    omega
  · rw [andLoop]
    split
    · next hp =>
      have h1 := length_of_peek hp (by simp)
      refine bind_ne_out (hu _ (by omega)) fun right hr => ha _ _ ?_
      have := (lunary _ _ hr).length_lt
      omega
    · simp
  · rw [parseUnary]
    split
    · next hp =>
      have h1 := length_of_peek hp (by simp)
      exact bind_ne_out (hu _ (by omega)) fun inner _ => by simp
    · exact hpr ts (by omega)
  · rw [parsePrimary]
    split
    · next hp =>
      have h1 := length_of_peek hp (by simp)
      refine bind_ne_out (hor _ (by omega)) fun fn _ => ?_
      exact bind_ne_out (expect_ne_fuel _ _) fun rest _ => by simp
    · split
      · exact parseIdent_ne_fuel _ _
      · simp

end Parser

/-! ## Reading an expression back -/

section Reading

variable {compile : Text → Option (Text → Bool)} {slotMap : SlotMap}

theorem parseIdent_variable (h : stringPredicate name = none) (ts : List Token) :
    parseIdent compile slotMap name ts = parseVariable slotMap name ts := by
  rw [parseIdent, h]

/-- A test is read back, when no comparison follows it. -/
theorem AtomPrints.parsePrimary (h : AtomPrints compile a ts) (hnm : a.Named)
    (hr : (peek rest).cmp = none) (n : Nat) :
    parsePrimary compile slotMap (n + 1) (ts ++ rest) = .ok (a.code compile slotMap, rest) := by
  cases h with
  | @truthy name =>
    change parseIdent compile slotMap name rest = _
    rw [parseIdent_variable hnm.2, parseVariable, hr]
    rfl
  | @eqStr name s negated =>
    change parseIdent compile slotMap name (equality negated :: .str s :: rest) = _
    rw [parseIdent_variable hnm.2]
    cases negated <;> rfl
  | @isNull name word negated hw =>
    change parseIdent compile slotMap name (equality negated :: .ident word :: rest) = _
    rw [parseIdent_variable hnm.2]
    rcases hw with rfl | rfl <;> cases negated <;> rfl
  | @compare name digits op m hd =>
    change parseIdent compile slotMap name (op.token :: .num digits :: rest) = _
    have hc : (peek (op.token :: .num digits :: rest)).cmp = some op := by cases op <;> rfl
    rw [parseIdent_variable hnm.2, parseVariable, hc]
    dsimp only [tail_cons, parseRHS]
    rw [hd]
    rfl
  | @pred p name arg hs =>
    change parseIdent compile slotMap p.name _ = _
    obtain ⟨test, ht⟩ := Option.isSome_iff_exists.mp hs
    have hn : stringPredicate p.name = some p := by cases p <;> rfl
    rw [parseIdent, hn]
    simp [parsePredicate, expect, expectIdent, expectStr, Except.bind, ht, Atom.code]

/-- What the parser does with a printed expression at a level. The loops of the upper levels go
on with what follows, so there it is enough that they come to a result. -/
def Level.Reads (compile : Text → Option (Text → Bool)) (slotMap : SlotMap) (f : ConditionFunc)
    (ts : List Token) : Level → Prop
  | .unary => ∀ rest, (peek rest).cmp = none →
      Settles (fun n => parseUnary compile slotMap n (ts ++ rest)) (.ok (f, rest))
  | .and => ∀ rest r, (peek rest).cmp = none →
      Settles (fun n => andLoop compile slotMap n f rest) r →
      Settles (fun n => parseAnd compile slotMap n (ts ++ rest)) r
  | .or => ∀ rest r, (peek rest).cmp = none → peek rest ≠ .and →
      Settles (fun n => orLoop compile slotMap n f rest) r →
      Settles (fun n => parseOr compile slotMap n (ts ++ rest)) r

theorem andLoop_settles (h : peek rest ≠ .and) :
    Settles (fun n => andLoop compile slotMap n f rest) (.ok (f, rest)) :=
  Settles.succ (fun n => by rw [andLoop, if_neg h]) (.const _)

theorem orLoop_settles (h : peek rest ≠ .or) :
    Settles (fun n => orLoop compile slotMap n f rest) (.ok (f, rest)) :=
  Settles.succ (fun n => by rw [orLoop, if_neg h]) (.const _)

/-- **A printed expression is read back.** -/
theorem Prints.settles (h : Prints compile lv e ts) (hn : ∀ a ∈ e.atoms, a.Named) :
    lv.Reads compile slotMap (e.code compile slotMap) ts := by
  induction h with
  | @atom a ts ha =>
    intro rest hrs
    have hrd : ∀ n, parsePrimary compile slotMap (n + 1) (ts ++ rest) =
        .ok (a.code compile slotMap, rest) :=
      ha.parsePrimary (hn a (by simp [Expr.atoms])) hrs
    have hnt : peek (ts ++ rest) ≠ .not := by cases ha <;> simp [peek]
    refine .succ (g := fun n => parsePrimary compile slotMap n _) (fun n => ?_)
      (.succ hrd (.const _))
    rw [parseUnary, if_neg hnt]
  | @paren e ts he ih =>
    intro rest hrs
    have hi := ih hn (.rparen :: rest) _ rfl (by simp [peek]) (orLoop_settles (by simp [peek]))
    have hp := hi.bind (f := fun _ fn =>
      (expect .rparen fn.2).bind fun rest => .ok (fn.1, rest)) (.const _)
    rw [cons_append, append_assoc]
    exact .succ (fun n => by rw [parseUnary, if_neg (by simp [peek])])
      (.succ (fun n => by rw [parsePrimary]; rfl) hp)
  | @not e ts he ih =>
    intro rest hrs
    have hi := (ih hn rest hrs).bind (f := fun _ inner =>
      .ok (fun ctx => !inner.1 ctx, inner.2)) (.const _)
    exact .succ (fun n => if_pos rfl) hi
  | unary he ih =>
    intro rest r hrs hlp
    exact .succ (fun n => rfl) ((ih hn rest hrs).bind hlp)
  | @and l r ts ts' hl hr ihl ihr =>
    intro rest res hrs hlp
    obtain ⟨hnl, hnr⟩ := forall_mem_append.mp hn
    have hrg := ihr hnr rest hrs
    rw [append_assoc]
    refine ihl hnl _ res rfl ?_
    exact .succ (fun n => if_pos rfl) (hrg.bind hlp)
  | conj he ih =>
    intro rest r hrs han hlp
    have hlf := ih hn rest _ hrs (andLoop_settles han)
    exact .succ (fun n => rfl) (hlf.bind hlp)
  | @or l r ts ts' hl hr ihl ihr =>
    intro rest res hrs han hlp
    obtain ⟨hnl, hnr⟩ := forall_mem_append.mp hn
    have hrg := ihr hnr rest _ hrs (andLoop_settles han)
    rw [append_assoc]
    refine ihl hnl _ res rfl (by simp [peek]) ?_
    exact .succ (fun n => if_pos rfl) (hrg.bind hlp)

/-- **The text of an expression compiles** to the expression over the parser's closures. -/
theorem compileCondition_code {e : Expr} {ts : List Token} {s : Text}
    (hpr : Prints compile .or e ts) (hs : Spaced Writes ts s)
    (hn : ∀ a ∈ e.atoms, a.Named) :
    compileCondition compile slotMap s = .ok (e.code compile slotMap) := by
  have hp : parseOr compile slotMap (4 * (ts ++ [eof]).length + 4) (ts ++ [.eof]) =
      .ok (e.code compile slotMap, [.eof]) :=
    Extends.eq_of_ne (fun n => (parse_extends n).1 _) ((parse_ne_fuel _).1 _ (by omega))
      (hpr.settles hn [.eof] _ rfl (by simp [peek]) (orLoop_settles (by simp [peek])))
  rw [compileCondition, if_neg (hs.trimSpace_ne_nil hpr.ne_nil),
    tokenize_trimSpace hs hpr.ne_nil hpr.joins]
  simp only [Except.bind, hp]
  rfl

end Reading

/-! ## Tests that compute what they say -/

def minInt : Text :=
  ['-', '9', '2', '2', '3', '3', '7', '2', '0', '3', '6', '8', '5', '4', '7', '7', '5', '8', '0',
    '8']

def maxInt : Text :=
  ['9', '2', '2', '3', '3', '7', '2', '0', '3', '6', '8', '5', '4', '7', '7', '5', '8', '0', '7']

theorem parseInt_minInt : parseInt minInt = (-9223372036854775808, true) := by decide

theorem parseInt_maxInt : parseInt maxInt = (9223372036854775807, true) := by decide

theorem parseInt_range (s : Text) :
    -9223372036854775808 ≤ (parseInt s).1 ∧ (parseInt s).1 ≤ 9223372036854775807 := by
  unfold parseInt
  dsimp only
  repeat' split
  all_goals dsimp only
  all_goals omega

/-- A name that is looked up as it stands is found where the variable is. -/
def Source.FoundAt : Source → Option Nat → Prop
  | .slot idx, found => found = some idx
  | .unknown, found => found = none
  | _, _ => False

/-- All numbers of 64 bits compare the same with this one. -/
def CmpOp.Constant : CmpOp → Int → Prop
  | .lt, n => n = -9223372036854775808
  | .ge, n => n = -9223372036854775808
  | .le, n => n = 9223372036854775807
  | .gt, n => n = 9223372036854775807
  | _, _ => False

/-- A test the parser has the right closure for. -/
def Atom.Plain (slotMap : SlotMap) : Atom → Prop
  | .isNull name _ => (resolve slotMap name).FoundAt (slotMap name)
  | .compare name op n =>
    (resolve slotMap name ≠ .method ∧ resolve slotMap name ≠ .path) ∨ op.Constant n
  | _ => True

section Plain

variable {compile : Text → Option (Text → Bool)} {slotMap : SlotMap}

theorem resolveStringReader_eq :
    resolveStringReader slotMap name ctx = (resolve slotMap name).text ctx := by
  unfold resolveStringReader resolve
  dsimp only
  cases slotMap (stripSlot name) <;> dsimp only <;> repeat' split
  all_goals rfl

theorem truthiness_eq (name : Text) (ctx : Ctx) :
    truthiness slotMap name ctx = (resolve slotMap name).truthy ctx := by
  unfold truthiness resolve
  dsimp only
  cases slotMap (stripSlot name) <;> dsimp only <;> repeat' split
  all_goals rfl

/-- The integer reader knows the status and the slots. The method and the path it takes for
slots, or for variables it does not know. -/
theorem resolveIntReader_eq (name : Text) :
    ((resolve slotMap name ≠ .method ∧ resolve slotMap name ≠ .path) ∧
      ∀ ctx, resolveIntReader slotMap name ctx = (resolve slotMap name).int ctx) ∨
    (resolve slotMap name = .method ∨ resolve slotMap name = .path) ∧
      ∃ text : Ctx → Text, (∀ ctx, ctx.byteSlots = [] → text ctx = []) ∧
        ∀ ctx, resolveIntReader slotMap name ctx = (parseInt (text ctx)).1 := by
  have hsl : ∃ text : Ctx → Text, (∀ ctx, ctx.byteSlots = [] → text ctx = []) ∧
      (stripSlot name ≠ statusName →
        ∀ ctx, resolveIntReader slotMap name ctx = (parseInt (text ctx)).1) := by
    cases hm : slotMap (stripSlot name) with
    | none =>
      refine ⟨fun _ => [], fun _ _ => rfl, fun hs ctx => ?_⟩
      simp [resolveIntReader, hs, hm, parseInt]
    | some idx =>
      refine ⟨fun ctx => ctx.slot idx, fun ctx hc => by simp [Ctx.slot, hc], fun hs ctx => ?_⟩
      simp [resolveIntReader, hs, hm]
  obtain ⟨text, he, ht⟩ := hsl
  by_cases hmt : resolve slotMap name = .method
  · refine .inr ⟨.inl hmt, text, he, ht ?_⟩
    intro hs
    simp [resolve, hs] at hmt
  by_cases hpt : resolve slotMap name = .path
  · refine .inr ⟨.inr hpt, text, he, ht ?_⟩
    intro hs
    simp [resolve, hs] at hpt
  refine .inl ⟨⟨hmt, hpt⟩, fun ctx => ?_⟩
  unfold resolveIntReader
  unfold resolve at hmt hpt ⊢
  by_cases hs : stripSlot name = statusName
  · rw [if_pos hs, if_pos hs]
    rfl
  rw [if_neg hs] at hmt hpt ⊢
  rw [if_neg hs]
  have hm : stripSlot name ≠ methodName := fun hm => hmt (if_pos hm)
  rw [if_neg hm] at hpt ⊢
  have hp : stripSlot name ≠ pathName := fun hp => hpt (if_pos hp)
  rw [if_neg hp]
  cases slotMap (stripSlot name) <;> rfl

/-- A comparison that is not constant tells some number from zero. -/
theorem CmpOp.distinguishes {op : CmpOp} {n : Int} (hd : parseInt digits = (n, true))
    (h : ¬ op.Constant n) : ∃ text, op.holds (parseInt text).1 n ≠ op.holds 0 n := by
  obtain ⟨hm, hmx⟩ := parseInt_range digits
  rw [hd] at hm hmx
  by_contra hall
  simp only [not_exists, ne_eq, not_not] at hall
  -- the number itself, or one of the two ends
  have hn := hall digits
  have hmin := hall minInt
  have hmax := hall maxInt
  rw [hd] at hn
  rw [parseInt_minInt] at hmin
  rw [parseInt_maxInt] at hmax
  cases op <;> simp [CmpOp.holds, CmpOp.Constant] at hm hmx h hn hmin hmax <;> omega

/-- And a constant one does not. -/
theorem CmpOp.Constant.holds_eq {op : CmpOp} (h : op.Constant n) (s s' : Text) :
    op.holds (parseInt s).1 n = op.holds (parseInt s').1 n := by
  obtain ⟨hm, hmx⟩ := parseInt_range s
  obtain ⟨hmin', hmax'⟩ := parseInt_range s'
  cases op with
  | eq | ne => exact h.elim
  | lt | ge | le | gt => cases h; simp [CmpOp.holds]; omega

theorem nullCheck_slot (h : slotMap name = some idx) (ctx : Ctx) :
    nullCheck slotMap name false ctx = decide (ctx.slot idx = []) := by
  simp [nullCheck, h]

theorem nullCheck_none (h : slotMap name = none) (ctx : Ctx) :
    nullCheck slotMap name false ctx = true := by
  simp [nullCheck, h]

/-- Whether a comparison with null is right does not depend on its operator. -/
theorem isNull_code_iff (ctx : Ctx) : (Atom.isNull name negated).code compile slotMap ctx =
        (Atom.isNull name negated).value compile slotMap ctx ↔
      nullCheck slotMap name false ctx = !(resolve slotMap name).truthy ctx := by
  change nullCheck slotMap name negated ctx = decide _ ↔ _
  cases negated with
  | false => simp
  | true => cases h : slotMap name <;> simp [nullCheck, h]

/-- **The closure of a plain test** computes the test. -/
theorem Atom.Plain.code_eq {a : Atom} (h : a.Plain slotMap) (ctx : Ctx) :
    a.code compile slotMap ctx = a.value compile slotMap ctx := by
  cases a with
  | truthy name => exact truthiness_eq name ctx
  | eqStr name negated s =>
    cases negated <;> simp [Atom.code, Atom.value, resolveStringReader_eq]
  | isNull name negated =>
    rw [isNull_code_iff]
    change (resolve slotMap name).FoundAt (slotMap name) at h
    cases hs : resolve slotMap name with
    | slot idx =>
      rw [hs] at h
      rw [nullCheck_slot h]
      by_cases he : ctx.slot idx = [] <;> simp [Source.truthy, Source.text, he]
    | unknown =>
      rw [hs] at h
      rw [nullCheck_none h]
      rfl
    | status | method | path => rw [hs] at h; exact h.elim
  | compare name op n =>
    change op.holds (resolveIntReader slotMap name ctx) n = op.holds _ n
    rcases @resolveIntReader_eq slotMap name with ⟨-, hi⟩ | ⟨hs, text, -, hi⟩
    · rw [hi]
    rcases h with h | h
    · rcases hs with hs | hs
      · exact absurd hs h.1
      · exact absurd hs h.2
    · rw [hi]
      rcases hs with hs | hs <;> rw [hs] <;> exact h.holds_eq _ _
  | pred p name arg => simp only [Atom.code, Atom.value, resolveStringReader_eq]

/-- A request with something in one slot, and in nothing else that is a slot. -/
def filled (idx : Nat) : Ctx := ⟨1, ['x'], ['x'], List.replicate idx [] ++ [['x']]⟩

theorem filled_slot : (filled idx).slot idx = ['x'] := by
  simp [filled, Ctx.slot]

theorem filled_slot_ne (h : i ≠ idx) : (filled idx).slot i = [] := by
  unfold filled Ctx.slot
  rcases Nat.lt_or_gt_of_ne h with hlt | hgt
  · rw [getElem?_append_left (by simpa using hlt), getElem?_replicate_of_lt hlt]
    rfl
  · rw [getElem?_eq_none (by simpa using Nat.succ_le_of_lt hgt)]
    rfl

/-- In a request where only another slot is filled, the closure sees nothing. -/
theorem exists_nullCheck (slotMap : SlotMap) (name : Text) :
    ∃ idx, nullCheck slotMap name false (filled idx) = true := by
  cases hm : slotMap name with
  | none => exact ⟨0, nullCheck_none hm _⟩
  | some i =>
    refine ⟨i + 1, ?_⟩
    rw [nullCheck_slot hm, filled_slot_ne (by omega)]
    rfl

/-- A name that is not looked up where it stands is taken for null when its value is not. -/
theorem foundAt_of_nullCheck (h : ∀ ctx, nullCheck slotMap name false ctx =
    !(resolve slotMap name).truthy ctx) : (resolve slotMap name).FoundAt (slotMap name) := by
  obtain ⟨k, hk⟩ := exists_nullCheck slotMap name
  have hn : (resolve slotMap name).truthy (filled k) ≠ true := by
    intro htr
    rw [h, htr] at hk
    cases hk
  cases hs : resolve slotMap name with
  | status | method | path => rw [hs] at hn; exact absurd rfl hn
  | unknown =>
    cases hm : slotMap name with
    | none => rfl
    | some i =>
      have hf := h (filled i)
      rw [nullCheck_slot hm, filled_slot, hs] at hf
      cases hf
  | slot idx =>
    have ht : (Source.slot idx).truthy (filled idx) = true := by
      simp [Source.truthy, Source.text, filled_slot]
    have hf := h (filled idx)
    rw [hs, ht] at hf
    cases hm : slotMap name with
    | none =>
      rw [nullCheck_none hm] at hf
      cases hf
    | some i =>
    rw [nullCheck_slot hm] at hf
    by_cases hi : i = idx
    · rw [hi]
      rfl
    · rw [filled_slot_ne hi] at hf
      cases hf

/-- The closure of any other test is wrong in some context. -/
theorem AtomPrints.plain_of_code_eq {a : Atom} {ts : List Token} (hp : AtomPrints compile a ts)
    (h : ∀ ctx, a.code compile slotMap ctx = a.value compile slotMap ctx) : a.Plain slotMap := by
  cases hp with
  | truthy | eqStr | pred _ => trivial
  | isNull _ => exact foundAt_of_nullCheck fun ctx => (isNull_code_iff ctx).mp (h ctx)
  | @compare name digits op n hd =>
  by_cases hc : op.Constant n
  · exact .inr hc
  rcases @resolveIntReader_eq slotMap name with ⟨hne, -⟩ | ⟨hs, reads, he, hi⟩
  · exact .inl hne
  -- with no slots, the closure compares zero
  obtain ⟨text, ht⟩ := CmpOp.distinguishes hd hc
  have hct : op.holds (resolveIntReader slotMap name ⟨0, text, text, []⟩) n =
      op.holds ((resolve slotMap name).int ⟨0, text, text, []⟩) n := h ⟨0, text, text, []⟩
  rw [hi, he _ rfl] at hct
  refine absurd ?_ ht
  rcases hs with hs | hs <;> rw [hs] at hct <;> exact hct.symm

end Plain

/-! ## Conditions -/

section Conditions

variable {compile : Text → Option (Text → Bool)} {slotMap : SlotMap} {e : Expr} {s : Text}
  {ts : List Token}

theorem Prints.atomPrints {lv : Level} {a : Atom} (h : Prints compile lv e ts) (he : e = .atom a) :
    ∃ ts', AtomPrints compile a ts' := by
  induction h with
  | atom ha => cases he; exact ⟨_, ha⟩
  | paren _ ih | unary _ ih | conj _ ih => exact ih he
  | not _ _ | and _ _ _ _ | or _ _ _ _ => cases he

/-- **A condition means what it says** when its tests are plain: the text of an expression, with
any blanks, compiles to its truth value. For a condition of a single test that is the exact
condition. -/
theorem compileCondition_value (hprints : Prints compile .or e ts) (hs : Spaced Spells ts s)
    (hnamed : ∀ a ∈ e.atoms, a.Named) :
    ∃ f, compileCondition compile slotMap s = .ok f ∧
      ((∀ a ∈ e.atoms, a.Plain slotMap) → ∀ ctx, f ctx = e.value compile slotMap ctx) ∧
      ∀ a, e = .atom a →
        ((∀ ctx, f ctx = e.value compile slotMap ctx) ↔ a.Plain slotMap) := by
  refine ⟨e.code compile slotMap, compileCondition_code hprints
    (hs.writes (hprints.idents hnamed)) hnamed, ?_, ?_⟩
  · intro hp ctx
    exact Expr.eval_congr fun a ha => (hp a ha).code_eq ctx
  intro a ha
  obtain ⟨ts', hat⟩ := hprints.atomPrints ha
  subst ha
  exact ⟨hat.plain_of_code_eq, fun hp ctx => hp.code_eq ctx⟩

/-- The slots of names, in order. -/
def slotsOf (names : List Text) : SlotMap := fun name => names.findIdx? (· = name)

/-- `!a && path||status >=400`, with a slot for `a`. -/
theorem compileCondition_value_mixed : ∃ f, compileCondition (fun _ => none) (slotsOf [['a']])
        ['!', 'a', ' ', '&', '&', ' ', 'p', 'a', 't', 'h', '|', '|', 's', 't', 'a', 't', 'u', 's',
          ' ', '>', '=', '4', '0', '0'] = .ok f ∧
      ∀ ctx, f ctx = ((!decide (ctx.slot 0 ≠ [])) && decide (ctx.path ≠ []) ||
        decide (400 ≤ ctx.responseStatus)) := by
  have hp : Prints (fun _ => none) .or
      (.or (.and (.not (.atom (.truthy ['a']))) (.atom (.truthy pathName)))
        (.atom (.compare statusName .ge 400)))
      [.not, .ident ['a'], .and, .ident pathName, .or, .ident statusName, .ge,
        .num ['4', '0', '0']] :=
    .or (.conj (.and (.unary (.not (.atom .truthy))) (.atom .truthy)))
      (.unary (.atom (.compare (by decide))))
  have hs := @cons Spells [] ['!'] _ .not _ (by simp) (.token .not)
    (@cons Spells [] ['a'] _ (.ident ['a']) _ (by simp) .name
    (@cons Spells [' '] ['&', '&'] _ .and _ (by simp [isBlank]) (.token .and)
    (@cons Spells [' '] pathName _ (.ident pathName) _ (by simp [isBlank]) .name
    (@cons Spells [] ['|', '|'] _ .or _ (by simp) (.token .or)
    (@cons Spells [] statusName _ (.ident statusName) _ (by simp) .name
    (@cons Spells [' '] ['>', '='] _ .ge _ (by simp [isBlank]) (.token .ge)
    (@cons Spells [] ['4', '0', '0'] _ (.num ['4', '0', '0']) _ (by simp)
      (.token (.num (by decide))) (@nil Spells [] (by simp)))))))))
  obtain ⟨f, hf, hpl, -⟩ := @compileCondition_value (fun _ => none) (slotsOf [['a']]) _ _ _ hp
    hs (by simp [Expr.atoms, Atom.Named, isIdent]; decide)
  refine ⟨f, hf, fun ctx => hpl ?_ ctx⟩
  simp only [Expr.atoms, cons_append, nil_append, forall_mem_cons]
  exact ⟨trivial, trivial, .inl (by decide), by simp⟩

/-- **A comparison with null loses its variable**: `slot.user == null` holds of every request,
also when the slot of `user` is filled. -/
theorem compileCondition_slot_null :
    Prints (fun _ => none) .or (.atom (.isNull (slotPrefix ++ ['u', 's', 'e', 'r']) false))
        [.ident (slotPrefix ++ ['u', 's', 'e', 'r']), .eq, .ident nullName] ∧
      Spaced Spells [.ident (slotPrefix ++ ['u', 's', 'e', 'r']), .eq, .ident nullName]
        ['s', 'l', 'o', 't', '.', 'u', 's', 'e', 'r', ' ', '=', '=', ' ', 'n', 'u', 'l', 'l'] ∧
      (compileCondition (fun _ => none) (slotsOf [['u', 's', 'e', 'r']])
        ['s', 'l', 'o', 't', '.', 'u', 's', 'e', 'r', ' ', '=', '=', ' ', 'n', 'u', 'l', 'l']).map
          (fun f => f ⟨200, [], [], [['b', 'o', 'b']]⟩) = .ok true ∧
      (Expr.atom (.isNull (slotPrefix ++ ['u', 's', 'e', 'r']) false)).value (fun _ => none)
        (slotsOf [['u', 's', 'e', 'r']]) ⟨200, [], [], [['b', 'o', 'b']]⟩ = false := by
  refine ⟨.conj (.unary (.atom (.isNull (.inl rfl)))), ?_, by decide, by decide⟩
  exact @cons Spells [] (slotPrefix ++ ['u', 's', 'e', 'r']) _ _ _ (by simp) .name
    (@cons Spells [' '] ['=', '='] _ .eq _ (by simp [isBlank]) (.token .eq)
    (@cons Spells [' '] nullName _ _ _ (by simp [isBlank]) .name
    (@nil Spells [] (by simp))))

end Conditions

end Rah.Condition
