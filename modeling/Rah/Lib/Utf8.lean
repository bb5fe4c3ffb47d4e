import Mathlib.Data.List.Basic

/-!
# UTF-8 with replacement

A text of bytes is read character by character. A byte at which no character begins stands for
the replacement character U+FFFD. Encoders that write only UTF-8 do this to the texts they are
given (`scrub`): what is in UTF-8 stays, and once is enough.
-/

namespace Rah.Lib.Utf8

open List

/-- How many bytes follow a first byte, and the bounds of the next one. -/
def lead (b : UInt8) : Option (Nat × UInt8 × UInt8) :=
  if b < 0x80 then some (0, 0, 0)
  else if b < 0xC2 then none
  else if b < 0xE0 then some (1, 0x80, 0xBF)
  else if b = 0xE0 then some (2, 0xA0, 0xBF)
  else if b = 0xED then some (2, 0x80, 0x9F)
  else if b < 0xF0 then some (2, 0x80, 0xBF)
  else if b = 0xF0 then some (3, 0x90, 0xBF)
  else if b < 0xF4 then some (3, 0x80, 0xBF)
  else if b = 0xF4 then some (3, 0x80, 0x8F)
  else none

/-- The bytes after the first one continue the character. -/
def continues (lo hi : UInt8) : List UInt8 → Bool
  | [] => true
  | c :: cs => lo ≤ c && c ≤ hi && cs.all fun c => 0x80 ≤ c && c ≤ 0xBF

/-- How many bytes of `s` belong to the character that begins with `b`. -/
def follow (b : UInt8) (s : List UInt8) : Option Nat :=
  (lead b).bind fun (n, lo, hi) =>
    if (s.take n).length = n ∧ continues lo hi (s.take n) then some n else none

/-- Within a character, `k` bytes are left of it. -/
def scrubFrom : Nat → List UInt8 → List UInt8
  | _, [] => []
  | k + 1, b :: s => b :: scrubFrom k s
  | 0, b :: s =>
    match follow b s with
    | some k => b :: scrubFrom k s
    | none => 0xEF :: 0xBF :: 0xBD :: scrubFrom 0 s

def scrub (s : List UInt8) : List UInt8 := scrubFrom 0 s

theorem take_scrubFrom : ∀ (k : Nat) (s : List UInt8), (scrubFrom k s).take k = s.take k
  | 0, _ => rfl
  | _ + 1, [] => rfl
  | k + 1, b :: s => by rw [scrubFrom, take_succ_cons, take_succ_cons, take_scrubFrom k s]

theorem follow_eq_some (h : follow b s = some k) (ht : s'.take k = s.take k) :
    follow b s' = some k := by
  unfold follow at h ⊢
  cases hl : lead b with
  | none =>
    rw [hl] at h
    cases h
  | some l =>
    rw [hl] at h
    dsimp only [Option.bind_some] at h ⊢
    split at h
    · rename_i hc
      cases h
      rw [ht, if_pos hc]
    · cases h

/-- The replacement character is in UTF-8. -/
theorem follow_replacement : follow 0xEF (0xBF :: 0xBD :: s) = some 2 := rfl

theorem scrubFrom_scrubFrom (k : Nat) (s : List UInt8) :
    scrubFrom k (scrubFrom k s) = scrubFrom k s := by
  induction s generalizing k with
  | nil => cases k <;> rfl
  | cons b s ih =>
  cases k with
  | succ k => rw [scrubFrom, scrubFrom, ih]
  | zero =>
  rw [scrubFrom]
  cases hf : follow b s with
  | some k =>
    dsimp only
    rw [scrubFrom, follow_eq_some hf (take_scrubFrom k s)]
    exact congrArg (b :: ·) (ih k)
  | none =>
    dsimp only
    rw [scrubFrom, follow_replacement]
    dsimp only
    rw [scrubFrom, scrubFrom, ih]

theorem scrub_scrub (s : List UInt8) : scrub (scrub s) = scrub s := scrubFrom_scrubFrom 0 s

end Rah.Lib.Utf8
