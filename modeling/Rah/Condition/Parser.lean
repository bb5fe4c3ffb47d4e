import Mathlib.Data.List.Infix
import Rah.Lib.Fuel
import Rah.Condition.Tokens

/-!
# Compiling a condition

`CompileCondition` parses the tokens by recursive descent and builds the function that is
called on every request. The recursion runs on fuel: every round of it consumes a token, so
four rounds a token are enough.
-/

namespace Rah.Condition

open Rah.Lib

/-- The part of the request context a condition reads. -/
structure Ctx where
  responseStatus : Int
  method : Text
  path : Text
  byteSlots : List Text
  deriving DecidableEq, Repr

/-- The names a flow declares and their slots. -/
abbrev SlotMap := Text → Option Nat

/-- A compiled condition. -/
abbrev ConditionFunc := Ctx → Bool

/-- The contents of a slot; nothing when there is no such slot. -/
def Ctx.slot (ctx : Ctx) (idx : Nat) : Text := (ctx.byteSlots[idx]?).getD []

/-! ## Numbers -/

/-- What `strconv.Atoi` makes of the digits of a token. -/
inductive Parsed where
  | number (n : Nat)
  | notANumber
  | outOfRange
  deriving DecidableEq, Repr

/-- `strconv.ParseUint`: a number that leaves 64 bits is reported before what follows is read. -/
def parseUint : Nat → Text → Parsed
  | acc, [] => .number acc
  | acc, c :: cs =>
    if c.isDigit then
      let n := acc * 10 + (c.toNat - 48)
      if n < 18446744073709551616 then parseUint n cs else .outOfRange
    else .notANumber

/-- `strconv.ParseInt` in base 10 and 64 bits: the nearest number, and whether it is exact. -/
def parseInt (s : Text) : Int × Bool :=
  let neg := s.head? = some '-'
  let digits := if neg ∨ s.head? = some '+' then s.tail else s
  if digits = [] then (0, false)
  else
    match parseUint 0 digits with
    | .notANumber => (0, false)
    | .outOfRange => (if neg then -9223372036854775808 else 9223372036854775807, false)
    | .number n =>
      if neg then
        if n ≤ 9223372036854775808 then (-n, true) else (-9223372036854775808, false)
      else if n < 9223372036854775808 then (n, true) else (9223372036854775807, false)

/-- `strconv.Itoa`. -/
def itoa (n : Int) : Text := (toString n).toList

/-! ## Variables -/

/-- The names that are not slots, and the words for an empty value. -/
def statusName : Text := ['s', 't', 'a', 't', 'u', 's']
def methodName : Text := ['m', 'e', 't', 'h', 'o', 'd']
def pathName : Text := ['p', 'a', 't', 'h']
def slotPrefix : Text := ['s', 'l', 'o', 't', '.']
def nullName : Text := ['n', 'u', 'l', 'l']
def nilName : Text := ['n', 'i', 'l']

/-- The name without the prefix that says it is a slot. -/
def stripSlot (name : Text) : Text := (name.dropPrefix? slotPrefix).getD name

section Readers

variable (slotMap : SlotMap)

/-- `resolveStringReader`: the reader of a name as text; an unknown name reads as empty. -/
def resolveStringReader (name : Text) : Ctx → Text :=
  let name := stripSlot name
  if name = statusName then fun ctx => itoa ctx.responseStatus
  else if name = methodName then fun ctx => ctx.method
  else if name = pathName then fun ctx => ctx.path
  else
    match slotMap name with
    | some idx => fun ctx => ctx.slot idx
    | none => fun _ => []

/-- `resolveIntReader`: the reader of a name as a number; what does not parse is 0. -/
def resolveIntReader (name : Text) : Ctx → Int :=
  let name := stripSlot name
  if name = statusName then fun ctx => ctx.responseStatus
  else
    match slotMap name with
    | some idx => fun ctx => (parseInt (ctx.slot idx)).1
    | none => fun _ => 0

/-- A bare name: whether it has a value. -/
def truthiness (name : Text) : ConditionFunc :=
  let name := stripSlot name
  if name = statusName then fun ctx => ctx.responseStatus ≠ 0
  else if name = methodName then fun ctx => ctx.method ≠ []
  else if name = pathName then fun ctx => ctx.path ≠ []
  else
    match slotMap name with
    | some idx => fun ctx => ctx.slot idx ≠ []
    | none => fun _ => false

/-- A comparison with null. The name is looked up as it stands. -/
def nullCheck (name : Text) (negated : Bool) : ConditionFunc :=
  match slotMap name with
  | some idx => fun ctx => (ctx.slot idx = []) ≠ negated
  | none => fun _ => !negated

end Readers

/-! ## Operators and predicates -/

/-- The comparisons. -/
inductive CmpOp where
  | eq
  | ne
  | lt
  | le
  | gt
  | ge
  deriving DecidableEq, Repr

/-- The token of a comparison. -/
def CmpOp.token : CmpOp → Token
  | .eq => .eq
  | .ne => .ne
  | .lt => .lt
  | .le => .le
  | .gt => .gt
  | .ge => .ge

/-- What a comparison says of two numbers. -/
def CmpOp.holds : CmpOp → Int → Int → Bool
  | .eq, a, b => a = b
  | .ne, a, b => a ≠ b
  | .lt, a, b => a < b
  | .le, a, b => a ≤ b
  | .gt, a, b => b < a
  | .ge, a, b => b ≤ a

/-- The comparison a token stands for. -/
def Token.cmp : Token → Option CmpOp
  | .eq => some .eq
  | .ne => some .ne
  | .lt => some .lt
  | .le => some .le
  | .gt => some .gt
  | .ge => some .ge
  | _ => none

/-- The predicates that are called like functions. -/
inductive StringPredicate where
  | contains
  | startsWith
  | endsWith
  | matches_
  deriving DecidableEq, Repr

/-- The name a predicate is called by. -/
def StringPredicate.name : StringPredicate → Text
  | .contains => ['c', 'o', 'n', 't', 'a', 'i', 'n', 's']
  | .startsWith => ['s', 't', 'a', 'r', 't', 's', 'W', 'i', 't', 'h']
  | .endsWith => ['e', 'n', 'd', 's', 'W', 'i', 't', 'h']
  | .matches_ => ['m', 'a', 't', 'c', 'h', 'e', 's']

/-- `isStringPredicate`, with the predicate. -/
def stringPredicate (name : Text) : Option StringPredicate :=
  if name = StringPredicate.contains.name then some .contains
  else if name = StringPredicate.startsWith.name then some .startsWith
  else if name = StringPredicate.endsWith.name then some .endsWith
  else if name = StringPredicate.matches_.name then some .matches_
  else none

/-- The test of a predicate; none for an invalid regular expression. -/
def StringPredicate.test (compile : Text → Option (Text → Bool)) (arg : Text) :
    StringPredicate → Option (Text → Bool)
  | .contains => some (fun s => decide (arg <:+: s))
  | .startsWith => some (fun s => arg.isPrefixOf s)
  | .endsWith => some (fun s => arg.isSuffixOf s)
  | .matches_ => compile arg

/-! ## The parser -/

/-- The token at the front; at the end it is the end. -/
def peek : List Token → Token
  | [] => .eof
  | t :: _ => t

/-- `expect`: the next token has to be this one. -/
def expect (want : Token) : List Token → Except CondError (List Token)
  | [] => .error (.expected want .eof)
  | t :: ts => if t = want then .ok ts else .error (.expected want t)

def expectIdent : List Token → Except CondError (Text × List Token)
  | .ident name :: ts => .ok (name, ts)
  | ts => .error (.expected (.ident []) (peek ts))

def expectStr : List Token → Except CondError (Text × List Token)
  | .str s :: ts => .ok (s, ts)
  | ts => .error (.expected (.str []) (peek ts))

section Parser

-- `compile` is `regexp.Compile`, with `MatchString` of what it gives
variable (compile : Text → Option (Text → Bool)) (slotMap : SlotMap)

/-- A parsing function's answer: the condition and the tokens that are left. -/
abbrev Result := Except CondError (ConditionFunc × List Token)

/-- After the name of a predicate: `(slot, "needle")`. -/
def parsePredicate (p : StringPredicate) (ts : List Token) : Result :=
  (expect .lparen ts).bind fun ts =>
  (expectIdent ts).bind fun slot =>
  (expect .comma slot.2).bind fun ts =>
  (expectStr ts).bind fun arg =>
  (expect .rparen arg.2).bind fun ts =>
  match p.test compile arg.1 with
  | none => .error (.invalidRegex arg.1)
  | some test => .ok (fun ctx => test (resolveStringReader slotMap slot.1 ctx), ts)

/-- After a name and an operator: a string, null or a number. -/
def parseRHS (name : Text) (op : CmpOp) : List Token → Result
  | .str s :: ts =>
    match op with
    | .eq => .ok (fun ctx => resolveStringReader slotMap name ctx = s, ts)
    | .ne => .ok (fun ctx => resolveStringReader slotMap name ctx ≠ s, ts)
    | _ => .error (.invalidOperator op.token)
  | .ident rhs :: ts =>
    if rhs = nullName ∨ rhs = nilName then
      match op with
      | .eq => .ok (nullCheck slotMap name false, ts)
      | .ne => .ok (nullCheck slotMap name true, ts)
      | _ => .error (.invalidOperator op.token)
    else .error (.unsupportedRHS (.ident rhs))
  | .num digits :: ts =>
    match parseInt digits with
    | (n, true) => .ok (fun ctx => op.holds (resolveIntReader slotMap name ctx) n, ts)
    | (_, false) => .error (.invalidNumber digits)
  | ts => .error (.unsupportedRHS (peek ts))

/-- After the name of a variable. -/
def parseVariable (name : Text) (ts : List Token) : Result :=
  match (peek ts).cmp with
  | some op => parseRHS slotMap name op ts.tail
  | none => .ok (truthiness slotMap name, ts)

/-- An identifier is a predicate's name or a variable. -/
def parseIdent (name : Text) (ts : List Token) : Result :=
  match stringPredicate name with
  | some p => parsePredicate compile slotMap p ts
  | none => parseVariable slotMap name ts

mutual

/-- `parseOr`: a disjunction of `parseAnd`s, to the left. -/
def parseOr : Nat → List Token → Result
  | 0, _ => .error .fuel
  | n + 1, ts => (parseAnd n ts).bind fun left => orLoop n left.1 left.2

def orLoop : Nat → ConditionFunc → List Token → Result
  | 0, _, _ => .error .fuel
  | n + 1, left, ts =>
    if peek ts = .or then
      (parseAnd n ts.tail).bind fun right => orLoop n (fun ctx => left ctx || right.1 ctx) right.2
    else .ok (left, ts)

/-- `parseAnd`: a conjunction of `parseUnary`s, to the left. -/
def parseAnd : Nat → List Token → Result
  | 0, _ => .error .fuel
  | n + 1, ts => (parseUnary n ts).bind fun left => andLoop n left.1 left.2

def andLoop : Nat → ConditionFunc → List Token → Result
  | 0, _, _ => .error .fuel
  | n + 1, left, ts =>
    if peek ts = .and then
      (parseUnary n ts.tail).bind fun right =>
        andLoop n (fun ctx => left ctx && right.1 ctx) right.2
    else .ok (left, ts)

/-- `parseUnary`: any number of negations. -/
def parseUnary : Nat → List Token → Result
  | 0, _ => .error .fuel
  | n + 1, ts =>
    if peek ts = .not then
      (parseUnary n ts.tail).bind fun inner => .ok (fun ctx => !inner.1 ctx, inner.2)
    else parsePrimary n ts

/-- `parsePrimary`: a parenthesised expression, or what an identifier starts. -/
def parsePrimary : Nat → List Token → Result
  | 0, _ => .error .fuel
  | n + 1, ts =>
    if peek ts = .lparen then
      (parseOr n ts.tail).bind fun fn =>
      (expect .rparen fn.2).bind fun rest => .ok (fn.1, rest)
    else
      match peek ts with
      | .ident name => parseIdent compile slotMap name ts.tail
      | t => .error (.unexpectedToken t)

end

/-- `CompileCondition`: an empty expression is never true, and no token may be left over. -/
def compileCondition (expr : Text) : Except CondError ConditionFunc :=
  let expr := trimSpace expr
  if expr = [] then .ok (fun _ => false)
  else
    (tokenize expr).bind fun tokens =>
    (parseOr compile slotMap (4 * tokens.length + 4) tokens).bind fun fn =>
    if peek fn.2 = .eof then .ok fn.1 else .error (.trailing (peek fn.2))

end Parser

/-! ## Fuel -/

section Fuel

variable {compile : Text → Option (Text → Bool)} {slotMap : SlotMap}

variable {ts : List Token} {r : ConditionFunc × List Token} {name rest : Text}

theorem peek_eq (h : peek ts = t) (ht : t ≠ .eof) : ts = t :: ts.tail := by
  cases ts with
  | nil => exact absurd h.symm ht
  | cons t' ts => rw [← h]; rfl

theorem length_of_peek (h : peek ts = t) (ht : t ≠ .eof) : ts.tail.length + 1 = ts.length := by
  rw [peek_eq h ht]
  rfl

/-- More fuel changes no result. -/
theorem parse_extends (n : Nat) :
    (∀ ts, Extends .fuel (parseOr compile slotMap n ts) (parseOr compile slotMap (n + 1) ts)) ∧
    (∀ f ts, Extends .fuel (orLoop compile slotMap n f ts) (orLoop compile slotMap (n + 1) f ts)) ∧
    (∀ ts, Extends .fuel (parseAnd compile slotMap n ts) (parseAnd compile slotMap (n + 1) ts)) ∧
    (∀ f ts, Extends .fuel (andLoop compile slotMap n f ts)
      (andLoop compile slotMap (n + 1) f ts)) ∧
    (∀ ts, Extends .fuel (parseUnary compile slotMap n ts)
      (parseUnary compile slotMap (n + 1) ts)) ∧
    (∀ ts, Extends .fuel (parsePrimary compile slotMap n ts)
      (parsePrimary compile slotMap (n + 1) ts)) := by
  induction n with
  | zero =>
    exact ⟨fun _ => .of_out _, fun _ _ => .of_out _, fun _ => .of_out _, fun _ _ => .of_out _,
      fun _ => .of_out _, fun _ => .of_out _⟩
  | succ n ih =>
  obtain ⟨hor, ho, han, ha, hu, hp⟩ := ih
  refine ⟨fun ts => ?_, fun f ts => ?_, fun ts => ?_, fun f ts => ?_, fun ts => ?_, fun ts => ?_⟩
  · exact (han ts).bind fun left => ho left.1 left.2
  · exact ((han ts.tail).bind fun right => ho _ right.2).ite (.refl _)
  · exact (hu ts).bind fun left => ha left.1 left.2
  · exact ((hu ts.tail).bind fun right => ha _ right.2).ite (.refl _)
  · exact ((hu ts.tail).bind fun inner => .refl _).ite (hp ts)
  · exact ((hor ts.tail).bind fun fn => .refl _).ite (.refl _)

end Fuel

end Rah.Condition
