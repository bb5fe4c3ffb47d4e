import Mathlib.Data.List.Basic

/-!
# White space in texts of bytes

A text is the list of its bytes, each written as the character of its number. White space
is what Unicode calls so, in UTF-8: six characters of one byte and a few longer ones. A text
is trimmed of it at both ends, or split into the fields between.
-/

namespace Rah.Lib

open List

/-- The white space characters, encoded. -/
def spaceRunes : List (List Char) :=
  [[' '], ['\t'], ['\n'], ['\x0b'], ['\x0c'], ['\r'], ['\xC2', '\x85'], ['\xC2', '\xA0'],
    ['\xE1', '\x9A', '\x80'], ['\xE2', '\x80', '\x80'], ['\xE2', '\x80', '\x81'],
    ['\xE2', '\x80', '\x82'], ['\xE2', '\x80', '\x83'], ['\xE2', '\x80', '\x84'],
    ['\xE2', '\x80', '\x85'], ['\xE2', '\x80', '\x86'], ['\xE2', '\x80', '\x87'],
    ['\xE2', '\x80', '\x88'], ['\xE2', '\x80', '\x89'], ['\xE2', '\x80', '\x8A'],
    ['\xE2', '\x80', '\xA8'], ['\xE2', '\x80', '\xA9'], ['\xE2', '\x80', '\xAF'],
    ['\xE2', '\x81', '\x9F'], ['\xE3', '\x80', '\x80']]

/-- The text after a leading white space character. -/
def leadingSpace (s : List Char) : Option (List Char) :=
  spaceRunes.findSome? (fun r => s.dropPrefix? r)

/-- The text before a trailing white space character. -/
def trailingSpace (s : List Char) : Option (List Char) :=
  spaceRunes.findSome? (fun r => s.dropSuffix? r)

/-- Cuts white space characters off, at most as many as given. -/
def trimBy (cut : List Char → Option (List Char)) : Nat → List Char → List Char
  | 0, s => s
  | n + 1, s =>
    match cut s with
    | some s' => trimBy cut n s'
    | none => s

def trimSpace (s : List Char) : List Char :=
  trimBy trailingSpace s.length (trimBy leadingSpace s.length s)

/-- The field that has been read, if it is not empty. -/
def flushField (field : List Char) : List (List Char) := if field = [] then [] else [field]

def fieldsLoop : Nat → List Char → List Char → List (List Char)
  | 0, field, _ => flushField field
  | _ + 1, field, [] => flushField field
  | n + 1, field, c :: rest =>
    match leadingSpace (c :: rest) with
    | some rest' => flushField field ++ fieldsLoop n [] rest'
    | none => fieldsLoop n (field ++ [c]) rest

def fields (s : List Char) : List (List Char) := fieldsLoop s.length [] s

/-! ## Where white space begins and ends -/

def asciiSpaces : List Char := [' ', '\t', '\n', '\x0b', '\x0c', '\r']

/-- The first bytes of the longer characters. -/
def spaceLeads : List Char := ['\xC2', '\xE1', '\xE2', '\xE3']

/-- Their second bytes. -/
def spaceSeconds : List Char := ['\x80', '\x81', '\x85', '\x9A', '\xA0']

/-- The last bytes of all of them. -/
def spaceLasts : List Char :=
  asciiSpaces ++ ['\x80', '\x81', '\x82', '\x83', '\x84', '\x85', '\x86', '\x87', '\x88',
    '\x89', '\x8A', '\x9F', '\xA0', '\xA8', '\xA9', '\xAF']

theorem spaceRunes_first : ∀ r ∈ spaceRunes,
    (∃ c ∈ asciiSpaces, r = [c]) ∨ ∃ a ∈ spaceLeads, ∃ b ∈ spaceSeconds, [a, b] <+: r := by
  have h : spaceRunes.all (fun r => asciiSpaces.any (fun c => r = [c]) ||
      spaceLeads.any (fun a => spaceSeconds.any (fun b => [a, b].isPrefixOf r))) = true := by decide
  simpa only [all_eq_true, Bool.or_eq_true, any_eq_true, decide_eq_true_eq,
    isPrefixOf_iff_prefix] using h

theorem spaceRunes_last : ∀ r ∈ spaceRunes, ∃ c ∈ spaceLasts, [c] <:+ r := by
  have h : spaceRunes.all (fun r => spaceLasts.any (fun c => [c].isSuffixOf r)) = true := by decide
  simpa only [all_eq_true, any_eq_true, isSuffixOf_iff_suffix] using h

variable {c : Char} {s s' : List Char}

theorem leadingSpace_eq_some (h : leadingSpace s = some s') : ∃ r ∈ spaceRunes, s = r ++ s' := by
  obtain ⟨r, hr, hs⟩ := exists_of_findSome?_eq_some h
  obtain ⟨p, rfl, hp⟩ := dropPrefix?_eq_some_iff.mp hs
  exact ⟨r, hr, by rw [eq_of_beq hp]⟩

theorem trailingSpace_eq_some (h : trailingSpace s = some s') : ∃ r ∈ spaceRunes, s = s' ++ r := by
  obtain ⟨r, hr, hs⟩ := exists_of_findSome?_eq_some h
  obtain ⟨p, rfl, hp⟩ := dropSuffix?_eq_some_iff.mp hs
  exact ⟨r, hr, by rw [eq_of_beq hp]⟩

theorem leadingSpace_eq_none (hc : c ∉ asciiSpaces)
    (hs : c ∈ spaceLeads → ∀ d ∈ s.head?, d ∉ spaceSeconds) : leadingSpace (c :: s) = none := by
  refine Option.eq_none_iff_forall_ne_some.mpr fun t ht => ?_
  obtain ⟨r, hr, hp⟩ := leadingSpace_eq_some ht
  rcases spaceRunes_first r hr with ⟨x, hx, rfl⟩ | ⟨a, ha, b, hb, u, rfl⟩
  · cases hp
    exact hc hx
  · cases hp
    exact hs ha b rfl hb

/-- A white space character at the end ends like one of them. -/
theorem spaceRunes_concat (hr : r ∈ spaceRunes) (h : s ++ [c] = s' ++ r) : c ∈ spaceLasts := by
  obtain ⟨d, hd, u, rfl⟩ := spaceRunes_last r hr
  rw [← append_assoc] at h
  obtain ⟨-, hcd⟩ := append_inj' h rfl
  cases hcd
  exact hd

theorem trailingSpace_eq_none (hc : c ∉ spaceLasts) : trailingSpace (s ++ [c]) = none := by
  refine Option.eq_none_iff_forall_ne_some.mpr fun t ht => ?_
  obtain ⟨r, hr, hp⟩ := trailingSpace_eq_some ht
  exact hc (spaceRunes_concat hr hp)

/-! ## Trimming blanks -/

/-- One of the four blanks of program texts. -/
def isBlank (c : Char) : Bool := c = ' ' ∨ c = '\t' ∨ c = '\r' ∨ c = '\n'

theorem isBlank_iff : isBlank c = true ↔ c = ' ' ∨ c = '\t' ∨ c = '\r' ∨ c = '\n' := by
  simp [isBlank]

theorem leadingSpace_blank (h : isBlank c = true) (s : List Char) :
    leadingSpace (c :: s) = some s := by
  rcases isBlank_iff.mp h with rfl | rfl | rfl | rfl <;>
    simp [leadingSpace, spaceRunes, dropPrefix?]

theorem dropSuffix_singleton : (s ++ [c]).dropSuffix? [d] = if c = d then some s else none := by
  simp [dropSuffix?]

theorem trailingSpace_blank (h : isBlank c = true) (s : List Char) :
    trailingSpace (s ++ [c]) = some s := by
  rcases isBlank_iff.mp h with rfl | rfl | rfl | rfl <;>
    simp [trailingSpace, spaceRunes, dropSuffix_singleton]

theorem trimBy_of_none (h : cut s = none) : ∀ n, trimBy cut n s = s
  | 0 => rfl
  | n + 1 => by rw [trimBy, h]

theorem trim_leading (h : leadingSpace s = none) : ∀ {ws : List Char} {n : Nat},
    (∀ c ∈ ws, isBlank c = true) → ws.length ≤ n → trimBy leadingSpace n (ws ++ s) = s
  | [], n, _, _ => trimBy_of_none h n
  | c :: ws, 0, _, hn => absurd hn (by simp)
  | c :: ws, n + 1, hws, hn => by
    rw [cons_append, trimBy, leadingSpace_blank (hws c (by simp))]
    exact trim_leading h (fun d hd => hws d (by simp [hd])) (Nat.le_of_succ_le_succ hn)

theorem trim_trailing {s : List Char} (h : trailingSpace s = none) : ∀ {ws : List Char} {n : Nat},
    (∀ c ∈ ws, isBlank c = true) → ws.length ≤ n →
    trimBy trailingSpace n (s ++ ws.reverse) = s
  | [], n, _, _ => by simpa using trimBy_of_none h n
  | c :: ws, 0, _, hn => absurd hn (by simp)
  | c :: ws, n + 1, hws, hn => by
    rw [reverse_cons, ← append_assoc, trimBy, trailingSpace_blank (hws c (by simp))]
    exact trim_trailing h (fun d hd => hws d (by simp [hd])) (Nat.le_of_succ_le_succ hn)

/-- Blanks around a text are trimmed, and nothing of a text that begins and ends without white
space. -/
theorem trimSpace_blanks (hl : leadingSpace (s ++ ws') = none) (ht : trailingSpace s = none)
    (hws : ∀ c ∈ ws, isBlank c = true) (hws' : ∀ c ∈ ws', isBlank c = true) :
    trimSpace (ws ++ (s ++ ws')) = s := by
  unfold trimSpace
  rw [trim_leading hl hws (by simp)]
  have h := @trim_trailing s ht ws'.reverse (ws ++ (s ++ ws')).length
    (fun c hc => hws' c (by simpa using hc)) (by simp; omega)
  rwa [reverse_reverse] at h

/-! ## What trimming leaves -/

theorem spaceRunes_ne_nil : ∀ r ∈ spaceRunes, r ≠ [] := by
  intro r hr
  rcases spaceRunes_first r hr with ⟨c, -, rfl⟩ | ⟨a, -, b, -, u, rfl⟩
  · exact cons_ne_nil c []
  · exact cons_ne_nil a _

theorem leadingSpace_none_iff : leadingSpace s = none ↔ ∀ r ∈ spaceRunes, ¬ r <+: s := by
  constructor
  · rintro h r hr ⟨t, rfl⟩
    have := findSome?_eq_none_iff.mp h r hr
    rw [dropPrefix?_append_of_beq t (by simp)] at this
    cases this
  · intro h
    refine Option.eq_none_iff_forall_ne_some.mpr fun t ht => ?_
    obtain ⟨r, hr, rfl⟩ := leadingSpace_eq_some ht
    exact h r hr ⟨t, rfl⟩

theorem leadingSpace_of_isPrefix {p : List Char} (hp : p <+: s) (h : leadingSpace s = none) :
    leadingSpace p = none :=
  leadingSpace_none_iff.mpr fun r hr hrp => leadingSpace_none_iff.mp h r hr (hrp.trans hp)

/-- A byte that ends no white space character starts none. -/
theorem leadingSpace_concat (hc : c ∉ spaceLasts)
    (h : leadingSpace s = none) : leadingSpace (s ++ [c]) = none := by
  refine leadingSpace_none_iff.mpr fun r hr hrs => ?_
  rcases prefix_concat_iff.mp hrs with rfl | hrs
  · exact hc (spaceRunes_concat hr (nil_append _).symm)
  · exact leadingSpace_none_iff.mp h r hr hrs

/-- A cut that shortens the text has been made as often as it can be. -/
theorem trimBy_done {cut : List Char → Option (List Char)}
    (hc : ∀ {s s'}, cut s = some s' → s'.length < s.length) (hs : s.length ≤ n) :
    cut (trimBy cut n s) = none := by
  induction n generalizing s with
  | zero =>
    cases h : cut s with
    | none => rw [trimBy, h]
    | some s' => exact absurd (hc h) (by omega)
  | succ n ih =>
  cases h : cut s with
  | none => rw [trimBy_of_none h, h]
  | some s' =>
    rw [trimBy, h]
    exact ih (by have := hc h; omega)

theorem trimBy_trailing_isPrefix (n : Nat) (s : List Char) : trimBy trailingSpace n s <+: s := by
  induction n generalizing s with
  | zero => exact prefix_rfl
  | succ n ih =>
  cases h : trailingSpace s with
  | none => exact (trimBy_of_none h _).symm ▸ prefix_rfl
  | some s' =>
    obtain ⟨r, -, rfl⟩ := trailingSpace_eq_some h
    rw [trimBy, h]
    exact (ih s').trans (prefix_append s' r)

theorem trimSpace_eq_self (hl : leadingSpace s = none)
    (ht : trailingSpace s = none) : trimSpace s = s := by
  rw [trimSpace, trimBy_of_none hl, trimBy_of_none ht]

/-- A trimmed text does not begin with white space. -/
theorem leadingSpace_trimSpace (s : List Char) : leadingSpace (trimSpace s) = none := by
  have hc : ∀ {s s' : List Char}, leadingSpace s = some s' → s'.length < s.length := by
    intro s s' h
    obtain ⟨r, hr, rfl⟩ := leadingSpace_eq_some h
    have := length_pos_iff.mpr (spaceRunes_ne_nil r hr)
    rw [length_append]
    omega
  exact leadingSpace_of_isPrefix (trimBy_trailing_isPrefix _ _) (trimBy_done hc (by omega))

end Rah.Lib
