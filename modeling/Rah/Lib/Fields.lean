import Mathlib.Tactic.Positivity

/-!
# Numbers made of bit fields

A word that is put together by shifts and `or` is a sum as long as every field stays below the
fields above it. The fields of such a sum are determined by it.
-/

namespace Rah.Lib

/-- A field below the others is added to them. -/
theorem or_eq_add {a b k : Nat} (hb : b < 2 ^ k) : a * 2 ^ k ||| b = a * 2 ^ k + b := by
  rw [Nat.mul_comm, Nat.two_pow_add_eq_or_of_lt hb]

theorem or_mul (a b k : Nat) : (a ||| b) * 2 ^ k = a * 2 ^ k ||| b * 2 ^ k := by
  rw [← Nat.shiftLeft_eq, ← Nat.shiftLeft_eq, ← Nat.shiftLeft_eq, Nat.shiftLeft_or_distrib]

theorem low_lt (n k : Nat) : n % 2 ^ k < 2 ^ k := Nat.mod_lt _ (by positivity)

theorem split_inj {a a' b b' k : Nat} (hb : b < 2 ^ k) (hb' : b' < 2 ^ k)
    (h : a * 2 ^ k + b = a' * 2 ^ k + b') : a = a' ∧ b = b' := by
  have hmod := congrArg (· % 2 ^ k) h
  simp only [Nat.mul_add_mod', Nat.mod_eq_of_lt hb, Nat.mod_eq_of_lt hb'] at hmod
  subst hmod
  exact ⟨Nat.eq_of_mul_eq_mul_right (by positivity) (Nat.add_right_cancel h), rfl⟩

/-- The four fields of a sum are its own. -/
theorem fields_inj {a b c d a' b' c' d' i j k : Nat} (hb : b < 2 ^ i) (hb' : b' < 2 ^ i)
    (hc : c < 2 ^ j) (hc' : c' < 2 ^ j) (hd : d < 2 ^ k) (hd' : d' < 2 ^ k)
    (h : ((a * 2 ^ i + b) * 2 ^ j + c) * 2 ^ k + d
      = ((a' * 2 ^ i + b') * 2 ^ j + c') * 2 ^ k + d') :
    a = a' ∧ b = b' ∧ c = c' ∧ d = d' := by
  obtain ⟨h, hde⟩ := split_inj hd hd' h
  obtain ⟨h, hce⟩ := split_inj hc hc' h
  obtain ⟨hae, hbe⟩ := split_inj hb hb' h
  exact ⟨hae, hbe, hce, hde⟩

end Rah.Lib
