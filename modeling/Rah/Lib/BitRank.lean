import Mathlib.Data.BitVec
import Mathlib.Data.List.Sort
import Mathlib.Data.List.Nodup

/-!
# Sets of small keys as 64-bit masks

A mask holds a set of keys below 64, one bit each. Counting the bits below a key
gives its *rank*: how many smaller keys the set holds. A table that stores the
entries of a set in ascending order finds the entry of a key at its rank, so the
mask alone replaces a search.

`onesCount` and `bit` are the machine operations. `rank_maskOf` is what a user of
them needs: the count of the masked bits is the number of smaller keys.
-/

namespace Rah.Lib

open List BitVec

/-- The number of set bits of a machine word. -/
def onesCount (x : BitVec 64) : Nat := (List.range 64).countP x.getLsbD

/-- The word with bit `n` set, and zero when `n` is past the word. -/
def bit (n : Nat) : BitVec 64 := 1#64 <<< n

/-- The mask of a list of keys. -/
def maskOf (ks : List Nat) : BitVec 64 := ks.foldl (fun m k => m ||| bit k) 0

@[simp] theorem getLsbD_bit : (bit n).getLsbD i = (decide (i < 64) && decide (i = n)) := by
  unfold bit
  by_cases h : i = n
  · subst h; simp
  by_cases hlt : i < n
  · simp [h, hlt]
  · have : i - n ≠ 0 := by omega
    simp [h, hlt, this]

theorem getLsbD_bit_sub_one (hn : n < 64) : (bit n - 1#64).getLsbD i = decide (i < n) := by
  have hb : (bit n).toNat = 2 ^ n := by
    unfold bit
    rw [toNat_shiftLeft, Nat.shiftLeft_eq, toNat_ofNat]
    have : 2 ^ n < 2 ^ 64 := Nat.pow_lt_pow_right (by omega) hn
    omega
  have hle : (1#64) ≤ bit n := by
    rw [le_def, hb]
    exact Nat.one_le_two_pow
  have hs : (bit n - 1#64).toNat = 2 ^ n - 1 := by
    rw [toNat_sub_of_le hle, hb]
    rfl
  rw [getLsbD, hs, Nat.testBit_two_pow_sub_one]

theorem and_bit_eq_zero_iff (hn : n < 64) : m &&& bit n = 0 ↔ m.getLsbD n = false := by
  constructor
  · intro h
    have hb : (m &&& bit n).getLsbD n = false := by rw [h]; exact getLsbD_zero
    rw [getLsbD_and, getLsbD_bit, decide_eq_true hn] at hb
    simpa only [decide_true, Bool.and_self, Bool.and_true] using hb
  intro h
  apply eq_of_getLsbD_eq
  intro i hi
  by_cases hin : i = n
  · subst hin; simp [h]
  · simp [hin]

theorem getLsbD_foldl_bit (ks : List Nat) (m : BitVec 64) (i : Nat) :
    (ks.foldl (fun m k => m ||| bit k) m).getLsbD i
      = (m.getLsbD i || (decide (i < 64) && decide (i ∈ ks))) := by
  induction ks generalizing m with
  | nil => simp
  | cons k ks ih =>
  rw [foldl_cons, ih]
  by_cases hk : i = k
  · subst hk
    by_cases hi : i < 64 <;> simp [hi]
  · simp [hk]

/-- A bit of the mask of `ks` is set exactly for the keys of `ks`. -/
@[simp] theorem getLsbD_maskOf (ks : List Nat) (i : Nat) :
    (maskOf ks).getLsbD i = (decide (i < 64) && decide (i ∈ ks)) := by
  unfold maskOf
  rw [getLsbD_foldl_bit]
  simp

theorem onesCount_eq_filter (p : Nat → Bool) (h : ∀ i, i < 64 → x.getLsbD i = p i) :
    onesCount x = ((range 64).filter p).length := by
  unfold onesCount
  rw [countP_eq_length_filter]
  congr 1
  apply filter_congr
  intro i hi
  exact h i (mem_range.mp hi)

/-- Two duplicate-free lists with the same members have the same length. -/
private theorem length_eq_of_mem_iff {l1 l2 : List Nat} (h₁ : l1.Nodup) (h₂ : l2.Nodup)
    (h : ∀ a, a ∈ l1 ↔ a ∈ l2) : l1.length = l2.length :=
  ((perm_ext_iff_of_nodup h₁ h₂).mpr h).length_eq

/-- The whole mask counts its keys. -/
theorem onesCount_maskOf {ks : List Nat} (hnd : ks.Nodup) (hlt : ∀ k ∈ ks, k < 64) :
    onesCount (maskOf ks) = ks.length := by
  rw [onesCount_eq_filter (fun i => decide (i ∈ ks))]
  · apply length_eq_of_mem_iff (nodup_range.filter _) hnd
    intro a
    simp only [mem_filter, mem_range, decide_eq_true_eq, and_iff_right_iff_imp]
    exact hlt a
  · intro i hi
    rw [getLsbD_maskOf, decide_eq_true hi, Bool.true_and]

/-- The bits of a word below `b`, counted one by one. -/
theorem onesCount_below {x : BitVec 64} {p : Nat → Bool} (h : ∀ i, i < 64 → x.getLsbD i = p i)
    (hb : b < 64) : onesCount (x &&& (bit b - 1#64)) = ((range b).filter p).length := by
  rw [onesCount_eq_filter (fun i => p i && decide (i < b))]
  · apply length_eq_of_mem_iff (nodup_range.filter _) (nodup_range.filter _)
    intro a
    simp only [mem_filter, mem_range, Bool.and_eq_true, decide_eq_true_eq]
    constructor
    · rintro ⟨_, h1, h2⟩; exact ⟨h2, h1⟩
    · rintro ⟨h1, h2⟩; exact ⟨by omega, h2, h1⟩
  · intro i hi
    rw [getLsbD_and, h i hi, getLsbD_bit_sub_one hb]

/-- **Rank.** The bits of the mask below `b` count the keys smaller than `b`. -/
theorem rank_maskOf {ks : List Nat} (hnd : ks.Nodup) (hb : b < 64) :
    onesCount (maskOf ks &&& (bit b - 1#64)) = (ks.filter (fun k => decide (k < b))).length := by
  have hbt : ∀ i, i < 64 → (maskOf ks).getLsbD i = decide (i ∈ ks) := by
    intro i hi
    rw [getLsbD_maskOf, decide_eq_true hi, Bool.true_and]
  rw [onesCount_below hbt hb]
  apply length_eq_of_mem_iff (nodup_range.filter _) (hnd.filter _)
  intro a
  simp only [mem_filter, mem_range, decide_eq_true_eq]
  exact and_comm

/-- In an ascending list, the entries smaller than the `i`-th are the first `i`. -/
theorem filter_lt_length_of_sorted {ks : List Nat} (hs : ks.Pairwise (· < ·))
    (h : ks[i]? = some b) : (ks.filter (fun k => decide (k < b))).length = i := by
  induction ks generalizing i with
  | nil => simp at h
  | cons k ks ih =>
  rw [pairwise_cons] at hs
  cases i with
  | zero =>
    rw [getElem?_cons_zero, Option.some.injEq] at h
    subst h
    have hn : ks.filter (fun a => decide (a < k)) = [] := by
      rw [filter_eq_nil_iff]
      intro a ha
      have := hs.1 a ha
      simp only [decide_eq_true_eq]; omega
    simp [hn]
  | succ i =>
    have hkb : k < b := hs.1 b (mem_of_getElem? h)
    have := ih hs.2 h
    simp [hkb, this]

end Rah.Lib
