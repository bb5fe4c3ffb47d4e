import Mathlib.Data.BitVec

/-!
# Four 16-bit lanes in a 64-bit word

A word read as four lanes of sixteen bits. `setLane` writes one lane and leaves the
others, `broadcast` puts one value in every lane, and `hasZeroLane` is the usual bit
trick that asks all four lanes at once whether one of them is zero. It never overlooks
a zero lane (`hasZeroLane_of_lane`), which is what a filter needs.
-/

namespace Rah.Lib

def lane (w : BitVec 64) (i : Fin 4) : BitVec 16 := w.extractLsb' (16 * i.val) 16

def setLane (w : BitVec 64) (i : Fin 4) (v : BitVec 16) : BitVec 64 :=
  (w &&& ~~~(0xFFFF#64 <<< (16 * i.val))) ||| (v.setWidth 64 <<< (16 * i.val))

def broadcast (v : BitVec 16) : BitVec 64 := v.setWidth 64 * 0x0001000100010001#64

def hasZeroLane (x : BitVec 64) : Bool :=
  (x - 0x0001000100010001#64) &&& ~~~x &&& 0x8000800080008000#64 != 0#64

theorem lane_zero (i : Fin 4) : lane 0#64 i = 0#16 := by
  unfold lane
  simp

theorem getLsbD_laneMask : (0xFFFF#64).getLsbD m = decide (m < 16) := by
  rw [BitVec.getLsbD_ofNat, show (65535 : Nat) = 2 ^ 16 - 1 from rfl, Nat.testBit_two_pow_sub_one]
  by_cases h : m < 16
  · simp [h, show m < 64 by omega]
  · simp [h]

theorem lane_setLane (w : BitVec 64) (i j : Fin 4) (v : BitVec 16) :
    lane (setLane w i v) j = if j = i then v else lane w j := by
  ext k hk
  have hj : 16 * j.val + k < 64 := by omega
  simp only [lane, setLane, BitVec.getElem_extractLsb', BitVec.getLsbD_or, BitVec.getLsbD_and,
    BitVec.getLsbD_not, BitVec.getLsbD_shiftLeft, getLsbD_laneMask, BitVec.getLsbD_setWidth]
  by_cases hji : j = i
  · subst hji
    have hge : ¬ 16 * j.val + k < 16 * j.val := by omega
    simp [hj, hk, hge, show k < 64 by omega]
  rcases Nat.lt_or_gt_of_ne (fun h => hji (Fin.ext h)) with hlt | hgt
  · simp [hji, hj, show 16 * j.val + k < 16 * i.val by omega]
  · have ho : ¬ 16 * j.val + k - 16 * i.val < 16 := by omega
    rw [BitVec.getLsbD_of_ge v _ (by omega)]
    simp [hji, hj, ho]

theorem lane_toNat : (lane x i).toNat = x.toNat / 2 ^ (16 * i.val) % 65536 := by
  rw [lane, BitVec.extractLsb'_toNat, Nat.shiftRight_eq_div_pow]

theorem lane_broadcast (v : BitVec 16) (i : Fin 4) : lane (broadcast v) i = v := by
  apply BitVec.eq_of_toNat_eq
  have hw : (broadcast v).toNat = v.toNat * 281479271743489 := by
    rw [broadcast, BitVec.toNat_mul, BitVec.toNat_setWidth]
    show v.toNat % 2 ^ 64 * 281479271743489 % 2 ^ 64 = _
    omega
  rw [lane_toNat, hw]
  rcases i with _ | _ | _ | _ | i
  · show v.toNat * 281479271743489 / 1 % 65536 = v.toNat
    omega
  · have : v.toNat * 281479271743489 / 65536 = v.toNat * 4295032833 := by omega
    show v.toNat * 281479271743489 / 65536 % 65536 = v.toNat
    omega
  · have : v.toNat * 281479271743489 / 4294967296 = v.toNat * 65537 := by omega
    show v.toNat * 281479271743489 / 4294967296 % 65536 = v.toNat
    omega
  · have : v.toNat * 281479271743489 / 281474976710656 = v.toNat := by omega
    show v.toNat * 281479271743489 / 281474976710656 % 65536 = v.toNat
    omega
  · omega

/-- A bit that the subtraction sets, that was clear before and that the mask keeps. -/
theorem hasZeroLane_of_bit (i : Fin 4)
    (hset : (x.toNat + 18446462594437808127) % 18446744073709551616
      / 2 ^ (16 * i.val + 15) % 2 = 1) (hclear : x.toNat / 2 ^ (16 * i.val + 15) % 2 = 0) :
    hasZeroLane x = true := by
  have hi : 16 * i.val + 15 < 64 := by omega
  have hbit : ((x - 0x0001000100010001#64) &&& ~~~x &&& 0x8000800080008000#64).getLsbD
      (16 * i.val + 15) = true := by
    have hsub : (x - 0x0001000100010001#64).getLsbD (16 * i.val + 15) = true := by
      rw [← BitVec.testBit_toNat, BitVec.toNat_sub, Nat.testBit_eq_decide_div_mod_eq,
        decide_eq_true_eq, Nat.add_comm]
      exact hset
    have hx : x.getLsbD (16 * i.val + 15) = false := by
      rw [← BitVec.testBit_toNat, Nat.testBit_eq_decide_div_mod_eq, hclear]
      decide
    have hm : (0x8000800080008000#64).getLsbD (16 * i.val + 15) = true := by
      clear hset hclear hsub hx hi
      revert i
      decide
    rw [BitVec.getLsbD_and, BitVec.getLsbD_and, BitVec.getLsbD_not, hsub, hx, hm]
    simp [hi]
  rw [hasZeroLane, bne_iff_ne]
  intro hz
  rw [hz, BitVec.getLsbD_zero] at hbit
  cases hbit

/-- **A zero lane is never overlooked.** -/
theorem hasZeroLane_of_lane (h : lane x i = 0#16) : hasZeroLane x = true := by
  have hz : ∀ j : Fin 4, lane x j = 0#16 ↔ x.toNat / 2 ^ (16 * j.val) % 65536 = 0 := by
    intro j
    rw [← lane_toNat]
    exact ⟨fun h => congrArg BitVec.toNat h, fun h => BitVec.eq_of_toNat_eq h⟩
  -- nothing is borrowed from below the first zero lane, and that lane turns into all ones
  have h0 : lane x 0 = 0#16 ↔ x.toNat / 1 % 65536 = 0 := hz 0
  have h1 : lane x 1 = 0#16 ↔ x.toNat / 65536 % 65536 = 0 := hz 1
  have h2 : lane x 2 = 0#16 ↔ x.toNat / 4294967296 % 65536 = 0 := hz 2
  have h3 : lane x 3 = 0#16 ↔ x.toNat / 281474976710656 % 65536 = 0 := hz 3
  by_cases hz0 : lane x 0 = 0#16
  · rw [h0] at hz0
    exact hasZeroLane_of_bit 0
      (show (x.toNat + 18446462594437808127) % 18446744073709551616 / 32768 % 2 = 1 by omega)
      (show x.toNat / 32768 % 2 = 0 by omega)
  rw [h0] at hz0
  by_cases hz1 : lane x 1 = 0#16
  · rw [h1] at hz1
    exact hasZeroLane_of_bit 1
      (show (x.toNat + 18446462594437808127) % 18446744073709551616 / 2147483648 % 2 = 1 by omega)
      (show x.toNat / 2147483648 % 2 = 0 by omega)
  rw [h1] at hz1
  by_cases hz2 : lane x 2 = 0#16
  · rw [h2] at hz2
    exact hasZeroLane_of_bit 2
      (show (x.toNat + 18446462594437808127) % 18446744073709551616 / 140737488355328 % 2 = 1 by
        omega)
      (show x.toNat / 140737488355328 % 2 = 0 by omega)
  rw [h2] at hz2
  have hz3 : x.toNat / 281474976710656 % 65536 = 0 := by
    rcases i with _ | _ | _ | _ | i
    · exact absurd (h0.mp h) hz0
    · exact absurd (h1.mp h) hz1
    · exact absurd (h2.mp h) hz2
    · exact h3.mp h
    · omega
  exact hasZeroLane_of_bit 3
    (show (x.toNat + 18446462594437808127) % 18446744073709551616 / 9223372036854775808 % 2 = 1 by
      omega)
    (show x.toNat / 9223372036854775808 % 2 = 0 by omega)

end Rah.Lib
