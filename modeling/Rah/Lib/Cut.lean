import Mathlib.Data.List.Basic

/-!
# Cutting a text at a separator

A text in which a separator stands is cut in one way at its first occurrence, and in one
way at its last.
-/

namespace Rah.Lib

open List

variable {α : Type} {c : α}

theorem cut_first : ∀ {a b s t : List α}, c ∉ a → c ∉ b →
    (a ++ c :: s = b ++ c :: t ↔ a = b ∧ s = t)
  | [], [], s, t, _, _ => by simp
  | [], y :: b, s, t, _, hb => by
    have hy : c ≠ y := fun h => hb (h ▸ mem_cons_self)
    simp [hy]
  | x :: a, [], s, t, ha, _ => by
    have hx : x ≠ c := fun h => ha (h ▸ mem_cons_self)
    simp [hx]
  | x :: a, y :: b, s, t, ha, hb => by
    have ih := @cut_first a b s t (fun h => ha (mem_cons_of_mem x h))
      (fun h => hb (mem_cons_of_mem y h))
    simp only [cons_append, cons.injEq, ih, and_assoc]

theorem cut_last (hs : c ∉ s) (ht : c ∉ t) : a ++ c :: s = b ++ c :: t ↔ a = b ∧ s = t := by
  have hr := @cut_first _ c s.reverse t.reverse a.reverse b.reverse (by simpa using hs)
    (by simpa using ht)
  -- read backwards, the last separator is the first one
  rw [← reverse_inj]
  simpa [and_comm] using hr

end Rah.Lib
