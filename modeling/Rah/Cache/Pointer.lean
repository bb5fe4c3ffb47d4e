import Rah.Cache.Index

/-!
# The packed value of an index entry

`cache_types.go`. The value the index keeps for a tag is one word: the slot's generation (two
bits), its expiry (twelve bits), a type and, for an entry in a slab, the size class, the TTL tier
and the byte offset of the slot. The slab slot points back with a word of its own: the lane and
the low 39 bits of the tag.
-/

namespace Rah.Cache

open BitVec (ofNat)

/-- `packSlabVal`: generation, truncated expiry, type, class, tier and offset in one word. -/
def packSlabVal (gen : BitVec 8) (expTrunc : BitVec 16) (classID tierID : BitVec 8)
    (offset : Word) : Word :=
  ((gen &&& 3#8).setWidth 64 <<< 62) ||| ((expTrunc &&& 0xFFF#16).setWidth 64 <<< 50)
    ||| 0#64 ||| ((classID &&& 3#8).setWidth 64 <<< 46) ||| ((tierID &&& 3#8).setWidth 64 <<< 44)
    ||| (offset &&& 0xFFFFFFFFFFF#64)

/-- The generation, the expiry and the type. -/
def unpack (v : Word) : BitVec 8 × BitVec 16 × Word :=
  ((v >>> 62).setWidth 8, ((v >>> 50) &&& 0xFFF#64).setWidth 16, v &&& 0x3000000000000#64)

/-- The size class, the tier and the offset. -/
def unpackSlab (v : Word) : BitVec 8 × BitVec 8 × Word :=
  (((v >>> 46) &&& 3#64).setWidth 8, ((v >>> 44) &&& 3#64).setWidth 8, v &&& 0xFFFFFFFFFFF#64)

/-- The type of a value that lies in a region. -/
def xValTypeSlabRAM : Word := 0#64

/-- `expTrunc`: twelve bits of the expiry, in units of 32 seconds. -/
def expTrunc (unixSec : BitVec 32) : BitVec 16 := ((unixSec >>> 5) &&& 0xFFF#32).setWidth 16

/-- `expTruncExpired`: the truncated expiry is below the truncated time; both wrap. -/
def expTruncExpired (trunc : BitVec 16) (nowSec : BitVec 32) : Bool := trunc.ult (expTrunc nowSec)

/-! ## The back-pointer -/

/-- The two indexes of a manager. -/
inductive Lane where
  | tiny
  | hash
  deriving DecidableEq

/-- `xPtrLaneTiny` and `xPtrLaneHash`. -/
def Lane.bit : Lane → Word
  | .tiny => 0#64
  | .hash => 1#64 <<< 47

/-- `packXTagRef`: the back reference from a slab entry to its index slot. -/
def packXTagRef (lane : Lane) (shard : BitVec 8) (tag : Word) : Word :=
  lane.bit ||| (shard.setWidth 64 <<< 39) ||| (tag &&& 0x7FFFFFFFFF#64)

/-- The lane in a back reference. -/
def laneOf (sp : Word) : Lane := if (sp >>> 47) &&& 1#64 = 0#64 then .tiny else .hash

/-- The low 39 bits of the tag in a back reference. -/
def tagBits (sp : Word) : Word := sp &&& 0x7FFFFFFFFF#64

/-! ## The fields come back -/

/-- A field of `k` bits, moved up by `s`, fills exactly its window. -/
theorem getLsbD_field (x : BitVec n) (hk : s + k ≤ 64) (i : Nat) :
    ((x &&& ofNat n (2 ^ k - 1)).setWidth 64 <<< s).getLsbD i
      = (decide (s ≤ i) && decide (i < s + k) && x.getLsbD (i - s)) := by
  simp only [BitVec.getLsbD_shiftLeft, BitVec.getLsbD_setWidth, BitVec.getLsbD_and,
    BitVec.getLsbD_ofNat]
  rcases Nat.lt_or_ge i s with hlt | hge
  · simp [hlt, Nat.not_le_of_lt hlt]
  rcases Nat.lt_or_ge i (s + k) with hin | ho
  · have hn : x.getLsbD (i - s) = true → i - s < n := BitVec.lt_of_getLsbD
    simp [hge, hin, Nat.not_lt_of_le hge, show i < 64 by omega, show i - s < 64 by omega,
      show i - s < k by omega]
    exact hn
  · simp [hge, Nat.not_lt_of_le ho, show ¬ i - s < k by omega]

section Fields

variable (gen : BitVec 8) (exp : BitVec 16) (classID tierID : BitVec 8) (offset : Word)

/-- The windows of the five fields. -/
theorem getLsbD_packSlabVal (i : Nat) : (packSlabVal gen exp classID tierID offset).getLsbD i
    = ((decide (62 ≤ i) && decide (i < 64) && gen.getLsbD (i - 62))
      || (decide (50 ≤ i) && decide (i < 62) && exp.getLsbD (i - 50))
      || (decide (46 ≤ i) && decide (i < 48) && classID.getLsbD (i - 46))
      || (decide (44 ≤ i) && decide (i < 46) && tierID.getLsbD (i - 44))
      || (decide (i < 44) && offset.getLsbD i)) := by
  have ho : (offset &&& 0xFFFFFFFFFFF#64).getLsbD i = (decide (i < 44) && offset.getLsbD i) := by
    have := getLsbD_field offset (k := 44) (s := 0) (by decide) i
    simpa using this
  rw [← getLsbD_field gen (k := 2) (s := 62) (by decide),
    ← getLsbD_field exp (k := 12) (s := 50) (by decide),
    ← getLsbD_field classID (k := 2) (s := 46) (by decide),
    ← getLsbD_field tierID (k := 2) (s := 44) (by decide), ← ho]
  simp only [packSlabVal, BitVec.getLsbD_or, BitVec.getLsbD_zero, Bool.or_false]
  rfl

/-- The low bits of a field. -/
theorem getLsbD_and_ones (x : BitVec n) (k i : Nat) :
    (x &&& ofNat n (2 ^ k - 1)).getLsbD i = (decide (i < k) && x.getLsbD i) := by
  rw [BitVec.getLsbD_and, BitVec.getLsbD_ofNat]
  rcases Nat.lt_or_ge i n with hi | hi
  · simp [hi, Bool.and_comm]
  · simp [BitVec.getLsbD_of_ge x i hi]

theorem unpackSlab_packSlabVal : unpackSlab (packSlabVal gen exp classID tierID offset)
    = (classID &&& 3#8, tierID &&& 3#8, offset &&& 0xFFFFFFFFFFF#64) := by
  refine Prod.ext ?_ (Prod.ext ?_ ?_)
  · show ((packSlabVal gen exp classID tierID offset >>> 46)
      &&& ofNat 64 (2 ^ 2 - 1)).setWidth 8 = classID &&& ofNat 8 (2 ^ 2 - 1)
    apply BitVec.eq_of_getLsbD_eq
    intro i hi
    rw [BitVec.getLsbD_setWidth, getLsbD_and_ones, BitVec.getLsbD_ushiftRight, getLsbD_packSlabVal,
      getLsbD_and_ones]
    grind
  · show ((packSlabVal gen exp classID tierID offset >>> 44)
      &&& ofNat 64 (2 ^ 2 - 1)).setWidth 8 = tierID &&& ofNat 8 (2 ^ 2 - 1)
    apply BitVec.eq_of_getLsbD_eq
    intro i hi
    rw [BitVec.getLsbD_setWidth, getLsbD_and_ones, BitVec.getLsbD_ushiftRight, getLsbD_packSlabVal,
      getLsbD_and_ones]
    grind
  · show packSlabVal gen exp classID tierID offset &&& ofNat 64 (2 ^ 44 - 1)
      = offset &&& ofNat 64 (2 ^ 44 - 1)
    apply BitVec.eq_of_getLsbD_eq
    intro i hi
    rw [getLsbD_and_ones, getLsbD_packSlabVal, getLsbD_and_ones]
    grind

end Fields

end Rah.Cache
