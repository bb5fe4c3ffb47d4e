import Mathlib.Data.BitVec

/-!
# Two 32-bit halves in a 64-bit word

A word that is updated as a whole and read as two numbers of 32 bits.
-/

namespace Rah.Lib

def upper (w : BitVec 64) : BitVec 32 := (w >>> 32).setWidth 32

def lower (w : BitVec 64) : BitVec 32 := (w &&& 0xFFFFFFFF#64).setWidth 32

def pack (hi lo : BitVec 32) : BitVec 64 := (hi.setWidth 64 <<< 32) ||| lo.setWidth 64

@[simp] theorem upper_pack (hi lo : BitVec 32) : upper (pack hi lo) = hi := by
  ext i hi'
  have hge : ¬ 32 + i < 32 := by omega
  -- the bits of `lo` end where those of `hi` begin
  simp [upper, pack, BitVec.getLsbD_ushiftRight, hi', hge, show 32 + i < 64 by omega]

theorem getLsbD_lowerMask : (0xFFFFFFFF#64).getLsbD m = decide (m < 32) := by
  rw [BitVec.getLsbD_ofNat, show (4294967295 : Nat) = 2 ^ 32 - 1 from rfl,
    Nat.testBit_two_pow_sub_one]
  by_cases h : m < 32
  · simp [h, show m < 64 by omega]
  · simp [h]

@[simp] theorem lower_pack (hi lo : BitVec 32) : lower (pack hi lo) = lo := by
  ext i hi'
  simp only [lower, pack, BitVec.getElem_setWidth, BitVec.getLsbD_and, BitVec.getLsbD_or,
    BitVec.getLsbD_shiftLeft, BitVec.getLsbD_setWidth, getLsbD_lowerMask]
  simp [hi', show i < 64 by omega]

end Rah.Lib
