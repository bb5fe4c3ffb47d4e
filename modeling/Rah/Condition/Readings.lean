import Rah.Lib.Cut
import Rah.Condition.Meaning

/-!
# The reading of an accepted text

The other direction: what `CompileCondition` accepts is the text of an expression. The
tokenizer only ever finds tokens that are written there, and the parser only ever consumes
printings of the expression it builds the function for.
-/

namespace Rah.Condition

open Rah.Lib List

/-! ## Tokens -/

theorem Spaced.blank (h : Spaced W ts s) (hc : isBlank c = true) : Spaced W ts (c :: s) := by
  have hcn : ∀ {ws : Text}, (∀ d ∈ ws, isBlank d = true) → ∀ d ∈ c :: ws, isBlank d = true := by
    intro ws hws d hd
    rcases mem_cons.mp hd with rfl | hd
    · exact hc
    · exact hws d hd
  cases h with
  | nil hws => exact .nil (hcn hws)
  | @cons ws x s t ts hws hx hs => exact @Spaced.cons W (c :: ws) x s t ts (hcn hws) hx hs

theorem lexString_writes (hquote : quote = '"' ∨ quote = '\'') (h : lexString quote rest = .ok r) :
    ∃ t x, r.1 = some t ∧ quote :: rest = x ++ r.2 ∧ Writes t x := by
  unfold lexString at h
  split at h
  · cases h
  next c rest' hd =>
  cases h
  have hc : c = quote := by
    have hnot := head?_dropWhile_not (· ≠ quote) rest
    rw [hd] at hnot
    simpa using hnot
  subst hc
  refine ⟨_, c :: (rest.takeWhile (· ≠ c) ++ [c]), rfl, ?_, .str hquote ?_⟩
  · conv_lhs => rw [← takeWhile_append_dropWhile (p := (· ≠ c)) (l := rest), hd]
    simp
  · intro hmem
    have hall := all_eq_true.mp (all_takeWhile (l := rest) (p := (· ≠ c))) c hmem
    simp at hall

theorem symbolTable_writes : ∀ e ∈ symbolTable, Writes e.2.2 (e.1 :: e.2.1.toList) := by
  simp only [symbolTable, forall_mem_cons]
  exact ⟨.and, .or, .ne, .not, .eq, .assign, .le, .lt, .ge, .gt, .lparen, .rparen, .comma, by simp⟩

theorem lexSymbol_writes (h : lexSymbol ch rest = some r) :
    ∃ x, ch :: rest = x ++ r.2 ∧ Writes r.1 x := by
  obtain ⟨⟨c, second, t⟩, hm, he⟩ := exists_of_findSome?_eq_some h
  have hw := symbolTable_writes _ hm
  cases second with
  | none =>
    dsimp only at he
    split at he
    · next hch =>
      cases he
      exact ⟨[c], by rw [hch]; rfl, hw⟩
    · cases he
  | some d =>
    dsimp only at he
    split at he
    · next hch =>
      cases he
      refine ⟨[c, d], ?_, hw⟩
      rw [hch.1, ← cons_head?_tail (a := d) hch.2]
      rfl
    · cases he

/-- **What the lexer finds is written there.** -/
theorem lexOne_sound (h : lexOne ch rest = .ok r) : (r = (none, rest) ∧ isBlank ch = true) ∨
      ∃ t x, r.1 = some t ∧ ch :: rest = x ++ r.2 ∧ Writes t x := by
  have hsp : ∀ p : Char → Bool, ch :: rest = (ch :: rest.takeWhile p) ++ rest.dropWhile p := by
    intro p
    rw [cons_append, takeWhile_append_dropWhile]
  unfold lexOne at h
  split at h
  · next hb =>
    cases h
    exact .inl ⟨rfl, hb⟩
  refine .inr ?_
  cases hs : lexSymbol ch rest with
  | some r' =>
    rw [hs] at h
    cases h
    obtain ⟨x, hx, hw⟩ := lexSymbol_writes hs
    exact ⟨_, x, rfl, hx, hw⟩
  | none =>
  rw [hs] at h
  dsimp only at h
  split at h
  · next hq => exact lexString_writes hq h
  split at h
  · next hnm =>
    cases h
    refine ⟨_, _, rfl, hsp _, .num ?_⟩
    rw [isNumber, all_takeWhile]
    rcases hnm with hdg | ⟨hm, hn⟩
    · rw [hdg]
      rfl
    cases rest with
    | nil => cases hn
    | cons d rest =>
      have hd : d.isDigit = true := hn
      simp [hm, hd]
  split at h
  · next hst =>
    cases h
    refine ⟨_, _, rfl, hsp _, .ident ?_⟩
    rw [isIdent, hst, all_takeWhile]
    rfl
  · cases h

theorem tokenizeLoop_sound : ∀ {n : Nat} {s : Text} {tokens : List Token},
    tokenizeLoop n s = .ok tokens → ∃ ts, tokens = ts ++ [.eof] ∧ Spaced Writes ts s
  | n, [], tokens, h => by
    have htk : tokens = [.eof] := by cases n <;> cases h <;> rfl
    exact ⟨[], htk, .nil (by simp)⟩
  | 0, _ :: _, _, h => by cases h
  | n + 1, ch :: rest, tokens, h => by
    rw [tokenizeLoop] at h
    cases hl : lexOne ch rest with
    | error e =>
      rw [hl] at h
      cases h
    | ok r =>
    rw [hl] at h
    rcases lexOne_sound hl with ⟨rfl, hb⟩ | ⟨t, x, ht, hx, hw⟩
    · obtain ⟨ts, hts, hs⟩ := tokenizeLoop_sound h
      exact ⟨ts, hts, hs.blank hb⟩
    obtain ⟨o, rest'⟩ := r
    cases ht
    obtain ⟨tokens', htk, hc⟩ := bind_eq_ok.mp
      (show (tokenizeLoop n rest').bind (fun ts => .ok (t :: ts)) = .ok tokens by
        simpa [Except.bind, Except.map] using h)
    cases hc
    obtain ⟨ts, rfl, hs⟩ := tokenizeLoop_sound htk
    refine ⟨t :: ts, rfl, ?_⟩
    rw [hx]
    exact @Spaced.cons Writes [] x rest' t ts (by simp) hw hs

theorem lexOne_ne_fuel (ch : Char) (rest : Text) : lexOne ch rest ≠ .error .fuel := by
  have hs : lexString ch rest ≠ .error .fuel := by
    unfold lexString
    split <;> simp
  unfold lexOne
  split
  · simp
  cases lexSymbol ch rest with
  | some r => simp
  | none =>
  dsimp only
  repeat' split
  · exact hs
  all_goals simp

theorem tokenizeLoop_ne_fuel : ∀ {n : Nat} {s : Text}, s.length ≤ n →
    tokenizeLoop n s ≠ .error .fuel
  | n, [], _ => by cases n <;> simp [tokenizeLoop]
  | 0, _ :: _, hn => absurd hn (by simp)
  | n + 1, ch :: rest, hn => by
    rw [tokenizeLoop]
    cases h : lexOne ch rest with
    | error e =>
      have hne := lexOne_ne_fuel ch rest
      rw [h] at hne
      simpa using hne
    | ok r =>
    obtain ⟨o, rest'⟩ := r
    have hl : rest'.length ≤ rest.length := by
      rcases lexOne_sound h with ⟨heq, -⟩ | ⟨t, x, -, hx, hw⟩
      · cases heq
        omega
      · cases x with
        | nil => cases hw <;> rename_i h <;> cases h
        | cons c y => simp [(cons.inj hx).2]
    have ih : tokenizeLoop n rest' ≠ .error .fuel :=
      tokenizeLoop_ne_fuel (Nat.le_trans hl (Nat.le_of_succ_le_succ hn))
    cases o with
    | none => exact ih
    | some t =>
    dsimp only
    cases hr : tokenizeLoop n rest' with
    | error e =>
      rw [hr] at ih
      simpa [Except.map] using ih
    | ok ts => simp [Except.map]

/-! ## Texts -/

section Texts

variable {compile : Text → Option (Text → Bool)} {slotMap : SlotMap}

/-- **A reading of a text**: an expression it is printed from, around which there may be white
space. A name is an identifier or one that the slot map knows. -/
def Reads (compile : Text → Option (Text → Bool)) (slotMap : SlotMap) (s : Text) (e : Expr) :
    Prop :=
  ∃ ts, Prints compile .or e ts ∧ Spaced Spells ts (trimSpace s) ∧
    ∀ name, Token.ident name ∈ ts → isIdent name = true ∨ (slotMap name).isSome = true

variable {ts : List Token} {s : Text}

theorem Spaced.spells (h : Spaced Writes ts s) : Spaced Spells ts s := by
  induction h with
  | nil hws => exact .nil hws
  | cons hws hx _ ih => exact .cons hws (.token hx) ih

/-- Every token that is written is written in some way. -/
theorem Spaced.mem (h : Spaced W ts s) : ∀ t ∈ ts, ∃ x, W t x := by
  induction h with
  | nil _ => simp
  | @cons ws x s t ts _ hx _ ih =>
  intro t' ht'
  rcases mem_cons.mp ht' with rfl | ht'
  · exact ⟨x, hx⟩
  · exact ih t' ht'

theorem Spaced.eof_not_mem (h : Spaced Writes ts s) : Token.eof ∉ ts := by
  intro hm
  obtain ⟨x, hx⟩ := h.mem _ hm
  cases hx

theorem Spaced.isIdent (h : Spaced Writes ts s) (hn : Token.ident name ∈ ts) :
    isIdent name = true := by
  obtain ⟨x, hx⟩ := h.mem _ hn
  cases hx with
  | ident hi => exact hi

theorem Prints.eof_not_mem (h : Prints compile lv e ts) : Token.eof ∉ ts := by
  induction h with
  | atom ha =>
    cases ha with
    | @eqStr _ _ negated | @isNull _ _ negated _ => cases negated <;> simp [equality]
    | @compare _ _ op _ _ => cases op <;> simp [CmpOp.token]
    | truthy | pred _ => simp
  | paren _ ih | not _ ih => simpa using ih
  | unary _ ih | conj _ ih => exact ih
  | and _ _ ihl ihr | or _ _ ihl ihr => simp [ihl, ihr]

/-- **An accepted text has a reading**, and the compiled function is that expression over the
parser's closures. A blank text compiles to false. -/
theorem compileCondition_sound (h : compileCondition compile slotMap s = .ok f) :
    (trimSpace s = [] ∧ f = fun _ => false) ∨
      ∃ e, Reads compile slotMap s e ∧ f = e.code compile slotMap := by
  rw [compileCondition] at h
  split at h
  · next he =>
    cases h
    exact .inl ⟨he, rfl⟩
  obtain ⟨tokens, ht, hpr⟩ := bind_eq_ok.mp h
  obtain ⟨⟨fn, rest⟩, hfn, hr⟩ := bind_eq_ok.mp hpr
  obtain ⟨ts, rfl, hs⟩ := tokenizeLoop_sound ht
  obtain ⟨e, pre, hpre, hp, hf⟩ := (parse_sound _).1 _ _ hfn
  split at hr
  · next he =>
    cases hr
    -- the parser stopped at the end of the tokens
    have hts : pre = ts := by
      cases rest with
      | nil =>
        rw [append_nil] at hpre
        exact absurd (hpre ▸ (by simp : Token.eof ∈ ts ++ [.eof])) hp.eof_not_mem
      | cons t rest =>
        cases he
        exact ((cut_first hs.eof_not_mem hp.eof_not_mem).mp hpre).1.symm
    subst hts
    exact .inr ⟨e, ⟨pre, hp, hs.spells, fun name hn => .inl (hs.isIdent hn)⟩, hf⟩
  · cases hr

/-- **The fuel is enough** for every text. -/
theorem compileCondition_ne_fuel (expr : Text) :
    compileCondition compile slotMap expr ≠ .error .fuel := by
  unfold compileCondition
  dsimp only
  split
  · simp
  · refine bind_ne_out (tokenizeLoop_ne_fuel (by omega)) fun tokens _ => ?_
    refine bind_ne_out ((parse_ne_fuel _).1 tokens (by omega)) fun fn _ => ?_
    split <;> simp

end Texts

end Rah.Condition
