import Mathlib.Data.Nat.Basic

/-!
# Rows in a flat list

The cell in row `t` and column `i` of a table with `stride` columns stands at
`t * stride + i`.
-/

namespace Rah.Lib

theorem rowIdx_lt {t i rows stride : Nat} (ht : t < rows) (hi : i < stride) :
    t * stride + i < rows * stride := by
  have hr : (t + 1) * stride ≤ rows * stride := Nat.mul_le_mul_right _ ht
  rw [Nat.succ_mul] at hr
  omega

/-- A cell has one row and one column. -/
theorem rowIdx_inj {t i t' i' stride : Nat} (hi : i < stride) (hi' : i' < stride)
    (h : t * stride + i = t' * stride + i') : t = t' ∧ i = i' := by
  have hr : t = t' := by
    rcases Nat.lt_trichotomy t t' with hlt | heq | hgt
    · have := rowIdx_lt hlt hi
      omega
    · exact heq
    · have := rowIdx_lt hgt hi'
      omega
  subst hr
  exact ⟨rfl, by omega⟩

end Rah.Lib
