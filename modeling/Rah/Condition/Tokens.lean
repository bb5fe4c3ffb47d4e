import Mathlib.Data.List.Chain
import Rah.Lib.Spaces

/-!
# The tokens of a condition

`tokenize` cuts the text of a condition into tokens. A text is the list of its bytes, each
written as the character of its number, since the code reads bytes: a letter is one of the
first 256 characters.

Written with any blanks between them, tokens are read back as they were, as long as no
token runs into the next one.
-/

namespace Rah.Condition

open Rah.Lib List

/-- The text of a condition. -/
abbrev Text := List Char

/-- `token`: the kinds of the tokenizer, with their texts. -/
inductive Token where
  | ident (name : Text)
  | str (s : Text)
  | num (digits : Text)
  | and
  | or
  | not
  | eq
  | ne
  | lt
  | le
  | gt
  | ge
  | lparen
  | rparen
  | comma
  | eof
  deriving DecidableEq, Repr

/-- The errors of the compiler. -/
inductive CondError where
  | unterminated
  | unexpectedChar (c : Char)
  /-- Another token was expected than the one that stands there. -/
  | expected (want got : Token)
  | invalidRegex (pattern : Text)
  /-- The operator does not compare strings, or not with null. -/
  | invalidOperator (op : Token)
  | invalidNumber (digits : Text)
  | unsupportedRHS (rhs : Token)
  | unexpectedToken (t : Token)
  | trailing (t : Token)
  /-- The model has not been given enough fuel; this is never seen. -/
  | fuel
  deriving DecidableEq, Repr

/-! ## Reading -/

/-- `unicode.IsLetter` of a byte. -/
def isLetter (c : Char) : Bool :=
  c.isAlpha ∨ c = '\xAA' ∨ c = '\xB5' ∨ c = '\xBA' ∨
    (0xC0 ≤ c.toNat ∧ c.toNat ≤ 0xFF ∧ c.toNat ≠ 0xD7 ∧ c.toNat ≠ 0xF7)

/-- What an identifier begins with. -/
def isIdentStart (c : Char) : Bool := c = '_' ∨ isLetter c

/-- What an identifier goes on with; a dot is part of it. -/
def isIdentChar (c : Char) : Bool := c = '_' ∨ c = '.' ∨ isLetter c ∨ c.isDigit

/-- A string literal, up to the next quote of the same kind. -/
def lexString (quote : Char) (rest : Text) : Except CondError (Option Token × Text) :=
  match rest.dropWhile (· ≠ quote) with
  | [] => .error .unterminated
  | _ :: rest' => .ok (some (.str (rest.takeWhile (· ≠ quote))), rest')

/-- The tokens of fixed texts, in the order they are asked for: the first character, the second
one if there is one, and the token. -/
def symbolTable : List (Char × Option Char × Token) :=
  [('&', some '&', .and), ('|', some '|', .or), ('!', some '=', .ne), ('!', none, .not),
    ('=', some '=', .eq), ('=', none, .eq), ('<', some '=', .le), ('<', none, .lt),
    ('>', some '=', .ge), ('>', none, .gt), ('(', none, .lparen), (')', none, .rparen),
    (',', none, .comma)]

/-- A symbol of one or two characters; the table has the longer ones first. -/
def lexSymbol (ch : Char) (rest : Text) : Option (Token × Text) :=
  symbolTable.findSome? fun
    | (c, none, t) => if ch = c then some (t, rest) else none
    | (c, some d, t) => if ch = c ∧ rest.head? = some d then some (t, rest.tail) else none

/-- The token, if any, that begins with a character, and the text after it. -/
def lexOne (ch : Char) (rest : Text) : Except CondError (Option Token × Text) :=
  if isBlank ch then .ok (none, rest)
  else
    match lexSymbol ch rest with
    | some (t, rest') => .ok (some t, rest')
    | none =>
      if ch = '"' ∨ ch = '\'' then lexString ch rest
      else if ch.isDigit ∨ (ch = '-' ∧ rest.head?.any Char.isDigit) then
        .ok (some (.num (ch :: rest.takeWhile Char.isDigit)), rest.dropWhile Char.isDigit)
      else if isIdentStart ch then
        .ok (some (.ident (ch :: rest.takeWhile isIdentChar)), rest.dropWhile isIdentChar)
      else .error (.unexpectedChar ch)

/-- `tokenize`: one token after the other, by fuel. -/
def tokenizeLoop : Nat → Text → Except CondError (List Token)
  | _, [] => .ok [.eof]
  | 0, _ :: _ => .error .fuel
  | n + 1, ch :: rest =>
    match lexOne ch rest with
    | .error e => .error e
    | .ok (none, rest') => tokenizeLoop n rest'
    | .ok (some t, rest') => (tokenizeLoop n rest').map (t :: ·)

/-- Every token is at least one character, so the length of the text is fuel enough. -/
def tokenize (expr : Text) : Except CondError (List Token) := tokenizeLoop expr.length expr

/-! ## Writing -/

/-- The identifiers. -/
def isIdent : Text → Bool
  | [] => false
  | c :: rest => isIdentStart c && rest.all isIdentChar

/-- Digits, with a minus sign before them or not. -/
def isNumber : Text → Bool
  | [] => false
  | c :: rest => (c.isDigit || (c = '-' && rest != [])) && rest.all Char.isDigit

/-- The texts of a token. -/
inductive Writes : Token → Text → Prop where
  | ident {name : Text} : isIdent name = true → Writes (.ident name) name
  | str {s : Text} {q : Char} : q = '"' ∨ q = '\'' → q ∉ s → Writes (.str s) (q :: (s ++ [q]))
  | num {digits : Text} : isNumber digits = true → Writes (.num digits) digits
  | and : Writes .and ['&', '&']
  | or : Writes .or ['|', '|']
  | not : Writes .not ['!']
  | eq : Writes .eq ['=', '=']
  | assign : Writes .eq ['=']
  | ne : Writes .ne ['!', '=']
  | lt : Writes .lt ['<']
  | le : Writes .le ['<', '=']
  | gt : Writes .gt ['>']
  | ge : Writes .ge ['>', '=']
  | lparen : Writes .lparen ['(']
  | rparen : Writes .rparen [')']
  | comma : Writes .comma [',']

/-- The texts of a token, with a name written as it is, also if it is no identifier. -/
inductive Spells : Token → Text → Prop where
  | name {name : Text} : Spells (.ident name) name
  | token {t : Token} {x : Text} : Writes t x → Spells t x

/-- The tokens in order, with any number of blanks before, between and after them. -/
inductive Spaced (W : Token → Text → Prop) : List Token → Text → Prop where
  | nil {ws : Text} : (∀ c ∈ ws, isBlank c = true) → Spaced W [] ws
  | cons {ws x s : Text} {t : Token} {ts : List Token} : (∀ c ∈ ws, isBlank c = true) →
      W t x → Spaced W ts s → Spaced W (t :: ts) (ws ++ (x ++ s))

/-- A character that would be read into the token before it. -/
def runsInto : Token → Char → Bool
  | .ident _, c => isIdentChar c
  | .num _, c => c.isDigit
  | .not, c => c = '='
  | .eq, c => c = '='
  | .lt, c => c = '='
  | .gt, c => c = '='
  | _, _ => false

/-- The second token does not run into the first, however it is written. -/
def Apart (t t' : Token) : Prop := ∀ c x, Writes t' (c :: x) → runsInto t c = false

variable {x rest s : Text} {c : Char} {t : Token} {ts : List Token}

theorem span_of_stop (hx : ∀ c ∈ x, p c = true) (hr : ∀ c ∈ rest.head?, p c = false) :
    (x ++ rest).takeWhile p = x ∧ (x ++ rest).dropWhile p = rest := by
  induction x with
  | nil =>
    cases rest with
    | nil => exact ⟨rfl, rfl⟩
    | cons c rest =>
      have hc := hr c rfl
      simp [hc]
  | cons c x ih =>
    have hc := hx c (by simp)
    obtain ⟨ht, hdr⟩ := ih (fun d hd => hx d (by simp [hd]))
    simp [hc, ht, hdr]

/-! ### Characters -/

theorem isDigit_iff : c.isDigit = true ↔ 48 ≤ c.toNat ∧ c.toNat ≤ 57 := by
  simp [Char.isDigit, UInt32.le_iff_toNat_le]

theorem isAlpha_iff : c.isAlpha = true ↔
    (65 ≤ c.toNat ∧ c.toNat ≤ 90) ∨ (97 ≤ c.toNat ∧ c.toNat ≤ 122) := by
  have hu : c.isUpper = decide (c.val ≥ 'A'.val ∧ c.val ≤ 'Z'.val) := rfl
  have hl : c.isLower = (decide (c.val ≥ 'a'.val) && decide (c.val ≤ 'z'.val)) := rfl
  change (c.isUpper || c.isLower) = true ↔ _
  rw [hu, hl]
  simp [UInt32.le_iff_toNat_le]

/-- The characters that tokens of their own are made of. -/
def symbols : List Char := ['&', '|', '!', '=', '<', '>', '(', ')', ',', '"', '\'', '-']

theorem not_isIdentChar_of_mem (h : c ∈ symbols ∨ isBlank c = true) : isIdentChar c = false := by
  rcases h with h | h
  · simp only [symbols, mem_cons, not_mem_nil, or_false] at h
    rcases h with rfl | rfl | rfl | rfl | rfl | rfl | rfl | rfl | rfl | rfl | rfl | rfl <;> decide
  · rcases isBlank_iff.mp h with rfl | rfl | rfl | rfl <;> decide

theorem isIdentChar_of_start (h : isIdentStart c = true) : isIdentChar c = true := by
  simp only [isIdentStart, isIdentChar, decide_eq_true_eq] at h ⊢
  rcases h with h | h
  · exact .inl h
  · exact .inr (.inr (.inl h))

theorem isIdentChar_of_digit (h : c.isDigit = true) : isIdentChar c = true := by
  simp [isIdentChar, h]

theorem not_digit_of_start (h : isIdentStart c = true) : c.isDigit = false := by
  rw [Bool.eq_false_iff]
  intro hd
  rw [isDigit_iff] at hd
  simp only [isIdentStart, isLetter, decide_eq_true_eq, isAlpha_iff] at h
  rcases h with rfl | h | rfl | rfl | rfl | h
  · exact absurd hd (by decide)
  · omega
  · exact absurd hd (by decide)
  · exact absurd hd (by decide)
  · exact absurd hd (by decide)
  · omega

/-- An identifier character is none of those `lexOne` asks for first. -/
theorem lexOne_of_identChar (h : isIdentChar c = true) (rest : Text) : lexOne c rest =
      if c.isDigit then
        .ok (some (.num (c :: rest.takeWhile Char.isDigit)), rest.dropWhile Char.isDigit)
      else if isIdentStart c then
        .ok (some (.ident (c :: rest.takeWhile isIdentChar)), rest.dropWhile isIdentChar)
      else .error (.unexpectedChar c) := by
  have hbl : isBlank c = false := by
    rw [Bool.eq_false_iff]
    intro hb
    rw [not_isIdentChar_of_mem (.inr hb)] at h
    cases h
  have hs : c ∉ symbols := by
    intro hm
    rw [not_isIdentChar_of_mem (.inl hm)] at h
    cases h
  simp only [symbols, mem_cons, not_or] at hs
  have hn : lexSymbol c rest = none := by simp [lexSymbol, symbolTable, hs]
  simp [lexOne, hbl, hn, hs]

/-! ### Tokens -/

theorem lexOne_ident (h : isIdent (c :: x) = true) (hr : ∀ d ∈ rest.head?, isIdentChar d = false) :
    lexOne c (x ++ rest) = .ok (some (.ident (c :: x)), rest) := by
  simp only [isIdent, Bool.and_eq_true, all_eq_true] at h
  obtain ⟨ht, hd⟩ := span_of_stop h.2 hr
  rw [lexOne_of_identChar (isIdentChar_of_start h.1), ht, hd, if_pos h.1, not_digit_of_start h.1]
  rfl

theorem lexOne_num (h : isNumber (c :: x) = true) (hr : ∀ d ∈ rest.head?, d.isDigit = false) :
    lexOne c (x ++ rest) = .ok (some (.num (c :: x)), rest) := by
  simp only [isNumber, Bool.and_eq_true, Bool.or_eq_true, decide_eq_true_eq, all_eq_true,
    bne_iff_ne] at h
  obtain ⟨ht, hdr⟩ := span_of_stop h.2 hr
  rcases h.1 with hc | ⟨rfl, hx⟩
  · rw [lexOne_of_identChar (isIdentChar_of_digit hc), ht, hdr, if_pos hc]
  -- a minus sign is read only before a digit
  cases x with
  | nil => exact absurd rfl hx
  | cons d x =>
    have hd : d.isDigit = true := h.2 d (by simp)
    simp only [cons_append] at ht hdr
    simp [lexOne, isBlank, lexSymbol, symbolTable, hd, ht, hdr]

theorem lexOne_str (hq : q = '"' ∨ q = '\'') (hs : q ∉ s) :
    lexOne q (s ++ [q] ++ rest) = .ok (some (.str s), rest) := by
  have hst : ∀ d ∈ ([q] ++ rest).head?, decide (d ≠ q) = false := by
    intro d hd
    cases hd
    simp
  have ha : ∀ d ∈ s, decide (d ≠ q) = true := by
    intro d hd
    have hne : d ≠ q := fun h => hs (h ▸ hd)
    simpa using hne
  obtain ⟨ht, hdr⟩ := span_of_stop ha hst
  have hl : lexString q (s ++ ([q] ++ rest)) = .ok (some (.str s), rest) := by
    rw [lexString, ht, hdr]
    rfl
  rw [append_assoc]
  rcases hq with rfl | rfl
  · exact hl
  · exact hl

/-- **A token is read back**, when what follows does not run into it. -/
theorem lexOne_writes (h : Writes t (c :: x)) (hr : ∀ d ∈ rest.head?, runsInto t d = false) :
    lexOne c (x ++ rest) = .ok (some t, rest) := by
  have hn : ∀ d, (∀ e ∈ rest.head?, decide (e = d) = false) → rest.head? ≠ some d := by
    intro d hd hh
    have := hd d hh
    simp at this
  cases h with
  | ident hnm => exact lexOne_ident hnm hr
  | str hq hs => exact lexOne_str hq hs
  | num hdg => exact lexOne_num hdg hr
  | not | lt | gt | assign => simp [lexOne, isBlank, lexSymbol, symbolTable, hn '=' hr]
  | and | or | eq | ne | le | ge | lparen | rparen | comma =>
    simp [lexOne, isBlank, lexSymbol, symbolTable]

theorem Writes.cons {t : Token} {x : Text} (h : Writes t x) : ∃ c x', x = c :: x' := by
  cases h with
  | ident hn =>
    cases x with
    | nil => cases hn
    | cons c x' => exact ⟨c, x', rfl⟩
  | num hd =>
    cases x with
    | nil => cases hd
    | cons c x' => exact ⟨c, x', rfl⟩
  | str _ _ | and | or | not | eq | assign | ne | lt | le | gt | ge | lparen | rparen | comma =>
    exact ⟨_, _, rfl⟩

/-- A blank runs into no token. -/
theorem runsInto_blank (h : isBlank c = true) (t : Token) : runsInto t c = false := by
  cases t with
  | ident n => exact not_isIdentChar_of_mem (.inr h)
  | num d =>
    rw [Bool.eq_false_iff]
    intro hd
    have := isIdentChar_of_digit hd
    rw [not_isIdentChar_of_mem (.inr h)] at this
    cases this
  | not | eq | lt | gt => rcases isBlank_iff.mp h with rfl | rfl | rfl | rfl <;> rfl
  | _ => rfl

/-- What a written list of tokens begins with. -/
theorem Spaced.head (h : Spaced Writes ts s) (hc : c ∈ s.head?) :
    isBlank c = true ∨ ∃ t x, ts.head? = some t ∧ Writes t (c :: x) := by
  cases h with
  | nil hws =>
    cases s with
    | nil => cases hc
    | cons d s => cases hc; exact .inl (hws c (by simp))
  | @cons ws x s' t ts' hws hx hs =>
  cases ws with
  | cons d ws => cases hc; exact .inl (hws c (by simp))
  | nil =>
    obtain ⟨d, x', rfl⟩ := hx.cons
    cases hc
    exact .inr ⟨t, x', rfl, hx⟩

theorem Spaced.not_runsInto (h : Spaced Writes ts s)
    (ht : ∀ t' ∈ ts.head?, Apart t t') : ∀ c ∈ s.head?, runsInto t c = false := by
  intro c hc
  rcases h.head hc with hb | ⟨t', x, ht', hx⟩
  · exact runsInto_blank hb t
  · exact ht t' ht' c x hx

theorem tokenizeLoop_blanks {rest : Text} : ∀ {ws : Text} {n : Nat},
    (∀ c ∈ ws, isBlank c = true) → tokenizeLoop (n + ws.length) (ws ++ rest) = tokenizeLoop n rest
  | [], n, _ => rfl
  | c :: ws, n, h => by
    have hc := h c (by simp)
    rw [length_cons, ← Nat.add_assoc, cons_append, tokenizeLoop]
    simp only [lexOne, hc]
    exact tokenizeLoop_blanks (fun d hd => h d (by simp [hd]))

/-- **Written tokens are read back.** -/
theorem tokenizeLoop_spaced (h : Spaced Writes ts s) (ha : ts.IsChain Apart) (hn : s.length ≤ n) :
    tokenizeLoop n s = .ok (ts ++ [.eof]) := by
  induction h generalizing n with
  | @nil ws hws =>
    obtain ⟨k, rfl⟩ := Nat.exists_eq_add_of_le' hn
    have hb := @tokenizeLoop_blanks [] ws k hws
    rw [append_nil] at hb
    rw [hb]
    cases k <;> rfl
  | @cons ws x s t ts hws hx hs ih =>
    simp only [length_append] at hn
    obtain ⟨c, x', rfl⟩ := hx.cons
    obtain ⟨k, rfl⟩ : ∃ k, n = k + 1 + ws.length := ⟨n - 1 - ws.length, by
      simp only [length_cons] at hn
      omega⟩
    rw [tokenizeLoop_blanks hws, cons_append, tokenizeLoop,
      lexOne_writes hx (hs.not_runsInto ha.rel_head?)]
    dsimp only
    rw [ih ha.tail (by simp only [length_cons] at hn; omega)]
    rfl

/-! ### Tokens that stand apart -/

/-- Tokens that would run together without a blank between them. -/
def Token.isWord : Token → Bool
  | .ident _ => true
  | .num _ => true
  | _ => false

/-- No two words stand together, and an equals sign stands after a word. -/
def Joins (t t' : Token) : Prop :=
  (t.isWord = true → t'.isWord = false) ∧ (t' = .eq → t.isWord = true)

instance (t t' : Token) : Decidable (Joins t t') := inferInstanceAs (Decidable (_ ∧ _))

theorem Writes.symbol (h : Writes t (c :: x)) (ht : t.isWord = false) : c ∈ symbols := by
  cases h with
  | ident _ | num _ => cases ht
  | str hq _ => rcases hq with rfl | rfl <;> decide
  | _ => decide

theorem Writes.equals (h : Writes t ('=' :: x)) : t = .eq := by
  cases h with
  | ident hn =>
    simp only [isIdent, Bool.and_eq_true] at hn
    exact absurd hn.1 (by decide)
  | num hd =>
    simp only [isNumber, Bool.and_eq_true] at hd
    exact absurd hd.1 (by simp [Char.isDigit])
  | str hq _ => rcases hq with hq | hq <;> exact absurd hq (by decide)
  | eq | assign => rfl

theorem Joins.apart (h : Joins t t') : Apart t t' := by
  intro c x hx
  -- after a word, the first character of a symbol
  have hs : t.isWord = true → isIdentChar c = false := fun ht =>
    not_isIdentChar_of_mem (.inl (hx.symbol (h.1 ht)))
  -- after a symbol, anything but an equals sign
  have he : t.isWord = false → decide (c = '=') = false := by
    intro ht
    rw [decide_eq_false_iff_not]
    rintro rfl
    have hw := h.2 hx.equals
    rw [ht] at hw
    cases hw
  cases t with
  | ident _ => exact hs rfl
  | num _ =>
    rw [Bool.eq_false_iff]
    intro hd
    have hi := isIdentChar_of_digit hd
    rw [hs rfl] at hi
    cases hi
  | not | eq | lt | gt => exact he rfl
  | _ => rfl

/-! ### Trimming -/

theorem identChar_not_space : ∀ c ∈ spaceLasts, isIdentChar c = false := by
  have h : spaceLasts.all (fun c => !isIdentChar c) = true := by decide
  simpa only [all_eq_true, Bool.not_eq_true'] using h

theorem symbol_not_space : ∀ c ∈ spaceLasts, c ∉ symbols := by
  have h : spaceLasts.all (fun c => decide (c ∉ symbols)) = true := by decide
  simpa only [all_eq_true, decide_eq_true_eq] using h

theorem second_not_token : ∀ c ∈ spaceSeconds,
    isIdentChar c = false ∧ c ∉ symbols ∧ isBlank c = false := by
  have h : spaceSeconds.all (fun c => decide (isIdentChar c = false ∧ c ∉ symbols ∧
      isBlank c = false)) = true := by decide
  simpa only [all_eq_true, decide_eq_true_eq] using h

theorem not_mem_lasts (h : isIdentChar c = true ∨ c ∈ symbols) : c ∉ spaceLasts := by
  intro hc
  rcases h with h | h
  · rw [identChar_not_space c hc] at h
    cases h
  · exact symbol_not_space c hc h

/-- The first character of a token. -/
theorem Writes.first (h : Writes t (c :: x)) : isIdentChar c = true ∨ c ∈ symbols := by
  cases h with
  | ident hn =>
    simp only [isIdent, Bool.and_eq_true] at hn
    exact .inl (isIdentChar_of_start hn.1)
  | num hd =>
    simp only [isNumber, Bool.and_eq_true, Bool.or_eq_true, decide_eq_true_eq] at hd
    rcases hd.1 with hc | ⟨rfl, -⟩
    · exact .inl (isIdentChar_of_digit hc)
    · exact .inr (by decide)
  | str hq _ => rcases hq with rfl | rfl <;> exact .inr (by decide)
  | and | or | not | eq | assign | ne | lt | le | gt | ge | lparen | rparen | comma =>
    exact .inr (by decide)

/-- And its last one. -/
theorem Writes.last (h : Writes t x) :
    ∃ x' c, x = x' ++ [c] ∧ (isIdentChar c = true ∨ c ∈ symbols) := by
  obtain ⟨c, y, hy⟩ := h.cons
  have ha : ∀ {p : Char → Bool}, (∀ d ∈ x, p d = true) → ∃ x' d, x = x' ++ [d] ∧ p d = true := by
    intro p hp
    have hne : x ≠ [] := by simp [hy]
    exact ⟨x.dropLast, x.getLast hne, (dropLast_append_getLast hne).symm, hp _ (getLast_mem hne)⟩
  cases h with
  | ident hn =>
    rw [hy] at hn
    simp only [isIdent, Bool.and_eq_true, all_eq_true] at hn
    obtain ⟨x', d, hd, hp⟩ := ha (p := isIdentChar) (by
      intro d hd
      rw [hy] at hd
      rcases mem_cons.mp hd with rfl | hd
      · exact isIdentChar_of_start hn.1
      · exact hn.2 d hd)
    exact ⟨x', d, hd, .inl hp⟩
  | num hdg =>
    rw [hy] at hdg
    simp only [isNumber, Bool.and_eq_true, Bool.or_eq_true, all_eq_true, bne_iff_ne] at hdg
    cases y with
    | nil =>
      rcases hdg.1 with hc | ⟨-, hne⟩
      · exact ⟨[], c, hy, .inl (isIdentChar_of_digit hc)⟩
      · exact absurd rfl hne
    | cons d y =>
    have hne : d :: y ≠ [] := by simp
    refine ⟨c :: (d :: y).dropLast, (d :: y).getLast hne, ?_,
      .inl (isIdentChar_of_digit (hdg.2 _ (getLast_mem hne)))⟩
    rw [hy, cons_append, dropLast_append_getLast]
  | @str s q hq _ =>
    exact ⟨q :: s, q, rfl, by rcases hq with rfl | rfl <;> exact .inr (by decide)⟩
  | and => exact ⟨['&'], '&', rfl, .inr (by decide)⟩
  | or => exact ⟨['|'], '|', rfl, .inr (by decide)⟩
  | not => exact ⟨[], '!', rfl, .inr (by decide)⟩
  | eq => exact ⟨['='], '=', rfl, .inr (by decide)⟩
  | assign => exact ⟨[], '=', rfl, .inr (by decide)⟩
  | ne => exact ⟨['!'], '=', rfl, .inr (by decide)⟩
  | lt => exact ⟨[], '<', rfl, .inr (by decide)⟩
  | le => exact ⟨['<'], '=', rfl, .inr (by decide)⟩
  | gt => exact ⟨[], '>', rfl, .inr (by decide)⟩
  | ge => exact ⟨['>'], '=', rfl, .inr (by decide)⟩
  | lparen => exact ⟨[], '(', rfl, .inr (by decide)⟩
  | rparen => exact ⟨[], ')', rfl, .inr (by decide)⟩
  | comma => exact ⟨[], ',', rfl, .inr (by decide)⟩

/-- No written token begins with white space, also with what follows it. -/
theorem Writes.leadingSpace (h : Writes t x) (hs : Spaced Writes ts s) :
    leadingSpace (x ++ s) = none := by
  obtain ⟨c, x', rfl⟩ := h.cons
  refine leadingSpace_eq_none (fun hc => not_mem_lasts h.first (mem_append_left _ hc)) ?_
  intro hl d hd hsc
  -- only an identifier begins with such a letter, and it goes on with an identifier character
  obtain ⟨hid, hsy, hbl⟩ := second_not_token d hsc
  have hx' : ∀ e ∈ x', isIdentChar e = true := by
    cases h with
    | ident hn =>
      simp only [isIdent, Bool.and_eq_true, all_eq_true] at hn
      exact hn.2
    | num hdg =>
      simp only [isNumber, Bool.and_eq_true, all_eq_true] at hdg
      exact fun e he => isIdentChar_of_digit (hdg.2 e he)
    | str hq _ => rcases hq with rfl | rfl <;> exact absurd hl (by decide)
    | _ => exact absurd hl (by decide)
  cases x' with
  | cons e x' =>
    cases hd
    rw [hx' d (by simp)] at hid
    cases hid
  | nil =>
  rcases hs.head hd with hb | ⟨t', y, -, hy⟩
  · rw [hbl] at hb
    cases hb
  rcases hy.first with hi | hi
  · rw [hid] at hi
    cases hi
  · exact hsy hi

section

variable (h : Spaced Writes ts s) (hts : ts ≠ [])
include h hts

/-- The blanks after the last token can be cut off. -/
theorem Spaced.cut :
    ∃ s' c ws, s = s' ++ [c] ++ ws ∧ (∀ d ∈ ws, isBlank d = true) ∧ c ∉ spaceLasts ∧
      Spaced Writes ts (s' ++ [c]) := by
  induction h with
  | nil _ => exact absurd rfl hts
  | @cons ws x s t ts hws hx hs ih =>
  cases ts with
  | nil =>
    obtain ⟨x', c, rfl, hc⟩ := hx.last
    cases hs with
    | nil hs =>
      refine ⟨ws ++ x', c, s, by simp, hs, not_mem_lasts hc, ?_⟩
      have hn := Spaced.cons hws hx (@Spaced.nil Writes [] (by simp))
      simpa using hn
  | cons t' ts =>
    obtain ⟨s', c, ws', rfl, hws', hc, hsp⟩ := ih (by simp)
    refine ⟨ws ++ (x ++ s'), c, ws', by simp, hws', hc, ?_⟩
    have hcn := Spaced.cons hws hx hsp
    simpa using hcn

/-- **Trimming a written text** leaves the same tokens. -/
theorem Spaced.trimSpace : Spaced Writes ts (trimSpace s) := by
  cases h with
  | nil _ => exact absurd rfl hts
  | @cons ws x s t ts hws hx hs =>
  have hf : Spaced Writes (t :: ts) (x ++ s) := @Spaced.cons Writes [] x s t ts (by simp) hx hs
  obtain ⟨s', c, ws', hct, hws', hc, hsp⟩ := hf.cut (by simp)
  have hl := hx.leadingSpace hs
  rw [hct] at hl ⊢
  rw [trimSpace_blanks hl (trailingSpace_eq_none hc) hws hws']
  exact hsp

theorem tokenize_trimSpace
    (hj : ts.IsChain Joins) : tokenize (Lib.trimSpace s) = .ok (ts ++ [.eof]) :=
  tokenizeLoop_spaced (h.trimSpace hts) (hj.imp fun _ _ => Joins.apart) (by omega)

theorem Spaced.trimSpace_ne_nil : Lib.trimSpace s ≠ [] := by
  intro hn
  have := h.trimSpace hts
  rw [hn] at this
  obtain ⟨s', c, ws, hc, -⟩ := this.cut hts
  simp at hc

end

end Rah.Condition
