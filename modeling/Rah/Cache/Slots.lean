import Rah.Cache.Inherit

/-!
# Slots and the pointers to them

What a write does to a region: it may make the region grow, and it replaces the entry of one slot,
which lies inside the buffer (`Region.Ok`). The pointer that goes to the index says which slot that
is and the last two bits of its generation. `CacheManager.entryAt` is the entry an index value
leads to, as far as the region's check of the generation can tell.
-/

namespace Rah.Cache

open Region CacheManager Function

/-! ## Regions -/

/-- What every region of a reachable manager satisfies. -/
structure Region.Ok (r : Region) : Prop where
  stride : 0 < r.stride
  count : 0 < r.count
  le_max : r.count ≤ r.maxCount
  /-- While the region grows its slots are used in order. -/
  linear : r.count < r.maxCount → r.writeSlot ≤ r.count

theorem newRegion_ok {stride : Nat} (h : 0 < stride) (maxSlots : Nat) :
    (newRegion stride maxSlots).Ok where
  stride := h
  count := (by decide : 0 < 64)
  le_max := Nat.le_max_right ..
  linear := fun _ => Nat.zero_le _

section Region

variable {r : Region}

/-- The bytes that were there are there after a change of size. -/
theorem Region.resize_buf (r : Region) (h : off < min r.count n * r.stride) :
    (r.resize n).buf off = r.buf off :=
  if_pos h

/-- A region that may still grow, and one that may not. -/
theorem Region.ready_cases (r : Region) :
    (r.ready = r ∧ (r.count < r.maxCount → r.writeSlot < r.count * 70 / 100))
    ∨ (r.count < r.maxCount ∧ r.ready = r.resize (min (r.count * 2) r.maxCount)) := by
  rw [ready]
  split
  · rename_i h
    exact .inr ⟨h.2, rfl⟩
  · refine .inl ⟨rfl, fun hlt => ?_⟩
    omega

theorem Region.Ok.ready (h : r.Ok) : r.ready.Ok ∧ r.ready.physSlot < r.ready.count := by
  have hp := h.count
  have hle := h.le_max
  have hl := h.linear
  rcases r.ready_cases with ⟨heq, hs⟩ | ⟨hlt, heq⟩
  · rw [heq]
    refine ⟨h, ?_⟩
    rw [physSlot]
    split
    · exact Nat.lt_of_lt_of_le (Nat.mod_lt _ (by omega)) (by omega)
    · have := hs (by omega)
      omega
  · rw [heq]
    refine ⟨⟨h.stride, ?_, Nat.min_le_right .., ?_⟩, ?_⟩
    · show 0 < min (r.count * 2) r.maxCount
      omega
    · intro _
      show r.writeSlot ≤ min (r.count * 2) r.maxCount
      omega
    show physSlot (r.resize _) < min (r.count * 2) r.maxCount
    show (if min (r.count * 2) r.maxCount ≥ r.maxCount then r.writeSlot % r.maxCount
      else r.writeSlot) < _
    split
    · exact Nat.lt_of_lt_of_le (Nat.mod_lt _ (by omega)) (by omega)
    · omega

theorem Region.Ok.nextOff_lt (h : r.Ok) : r.ready.nextOff < r.ready.bufLen := by
  obtain ⟨hok, hs⟩ := h.ready
  exact Nat.mul_lt_mul_of_pos_right hs hok.stride

/-- Growing keeps the content and the pointers into it. -/
theorem Region.ready_keeps (r : Region) : r.ready.maxCount = r.maxCount
    ∧ (∀ off, off < r.bufLen → off < r.ready.bufLen ∧ r.ready.buf off = r.buf off)
    ∧ (¬ r.count < r.maxCount → r.ready = r) := by
  rcases r.ready_cases with ⟨heq, _⟩ | ⟨hlt, heq⟩
  · rw [heq]
    exact ⟨rfl, fun off h => ⟨h, rfl⟩, fun _ => rfl⟩
  rw [heq]
  have hm : min r.count (min (r.count * 2) r.maxCount) = r.count := by omega
  refine ⟨rfl, fun off h => ⟨?_, ?_⟩, fun hn => absurd hlt hn⟩
  · have hle : r.count ≤ min (r.count * 2) r.maxCount := by omega
    exact Nat.lt_of_lt_of_le h (Nat.mul_le_mul_right _ hle)
  · apply r.resize_buf
    rw [hm]
    exact h

/-- The value is too long for a slot, or the next slot may not be used again. -/
def Region.Refuses (r : Region) (value : Bytes) (canRecycle : Word → Nat → BitVec 8 → Bool) :
    Prop :=
  value.length > r.capacity
    ∨ (r.ready.buf r.ready.nextOff).xSlotPtr ≠ 0
      ∧ canRecycle (r.ready.buf r.ready.nextOff).xSlotPtr r.ready.nextOff r.ready.nextGen = false

/-- What a write can do. -/
theorem Region.write_cases (r : Region) (tenantID : BitVec 16) (keyMid : UInt8) (value : Bytes)
    (ttl : BitVec 32) (canRecycle : Word → Nat → BitVec 8 → Bool) (now : BitVec 32) :
    (r.Refuses value canRecycle
      ∧ ∃ r', r.write tenantID keyMid value ttl canRecycle now = (none, r')
      ∧ (r' = r ∨ r' = r.ready))
    ∨ value.length ≤ r.capacity ∧ ∃ old, r.write tenantID keyMid value ttl canRecycle now
      = (some ⟨r.ready.nextOff, r.ready.nextGen, old⟩,
        r.ready.store
          (newEntry r.ready (r.ready.buf r.ready.nextOff) tenantID keyMid value ttl now)) := by
  rw [write]
  split
  · rename_i hf
    exact .inl ⟨.inl hf, r, rfl, .inl rfl⟩
  rename_i hf
  dsimp only
  split
  · rename_i hu
    exact .inl ⟨.inr hu.2.2, _, rfl, .inr rfl⟩
  · exact .inr ⟨Nat.le_of_not_lt hf, _, rfl⟩

/-- The back-pointer of an entry just written. -/
theorem Region.store_updateXSlotPtr (r : Region) (e : SlabEntry) (sp : Word) :
    (r.store e).updateXSlotPtr r.nextOff sp = r.store e
      ∨ (r.store e).updateXSlotPtr r.nextOff sp = r.store { e with xSlotPtr := sp } := by
  rw [updateXSlotPtr]
  split
  · exact .inl rfl
  have hs : (r.store e).buf r.nextOff = e := update_self ..
  have hi : update (r.store e).buf r.nextOff { e with xSlotPtr := sp }
      = update r.buf r.nextOff { e with xSlotPtr := sp } := update_idem ..
  rw [setEntry, hs, hi]
  exact .inr rfl

end Region

/-! ## Pointers -/

/-- The slot an index value points to: the size class, the tier and the offset. -/
def place (raw : Word) : Nat × Nat × Nat :=
  ((unpackSlab raw).1.toNat, (unpackSlab raw).2.1.toNat, (unpackSlab raw).2.2.toNat)

theorem two_bits (h : n < 4) : (BitVec.ofNat 8 n &&& 3#8).toNat = n := by
  rcases (by omega : n = 0 ∨ n = 1 ∨ n = 2 ∨ n = 3) with rfl | rfl | rfl | rfl <;> rfl

theorem place_slabPtr (w : Written) (expiry : BitVec 32) (hc : classID < 4) (ht : tierID < 4)
    (ho : w.physOff < 17592186044416) :
    place (slabPtr w expiry classID tierID) = (classID, tierID, w.physOff) := by
  rw [place, slabPtr, unpackSlab_packSlabVal, two_bits hc, two_bits ht]
  have ha : (BitVec.ofNat 64 w.physOff &&& 0xFFFFFFFFFFF#64).toNat = w.physOff := by
    rw [BitVec.toNat_and, BitVec.toNat_ofNat, BitVec.toNat_ofNat,
      Nat.mod_eq_of_lt (show w.physOff < 2 ^ 64 by omega)]
    rw [show (0xFFFFFFFFFFF % 2 ^ 64 : Nat) = 2 ^ 44 - 1 from rfl, Nat.and_two_pow_sub_one_eq_mod]
    omega
  rw [ha]

/-- A region's entry at an offset, if it is of the generation. -/
def Region.entryAt (r : Region) (off : Nat) (gen2b : BitVec 8) : Option SlabEntry :=
  if off < r.bufLen ∧ (r.buf off).gen &&& 3 = gen2b then some (r.buf off) else none

theorem Region.entryAt_eq_some {r : Region} {off : Nat} :
    r.entryAt off gen2b = some e ↔ off < r.bufLen ∧ e.gen &&& 3 = gen2b ∧ r.buf off = e := by
  rw [entryAt]
  constructor
  · intro h
    split at h
    · rename_i hc
      cases h
      exact ⟨hc.1, hc.2, rfl⟩
    · cases h
  · intro h
    obtain ⟨hlt, hg, rfl⟩ := h
    exact if_pos ⟨hlt, hg⟩

theorem Region.read_entryAt {r : Region} {off : Nat} {gen2b : BitVec 8} {exp : BitVec 16}
    (h : r.read off gen2b exp keyMid now = some v) :
    ∃ e, r.entryAt off gen2b = some e ∧ e.value = v := by
  rw [read] at h
  split at h
  · cases h
  split at h
  · cases h
  rename_i hl
  dsimp only at h
  split at h
  · cases h
  rename_i hg
  split at h
  · cases h
  split at h
  · cases h
  split at h
  · cases h
  refine ⟨r.buf off, entryAt_eq_some.mpr ⟨?_, not_not.mp hg, rfl⟩, Option.some.inj h⟩
  simp only [entryHeaderSize] at hl
  omega

section Manager

variable {B : Type} {h1 : Key → Word} {cm : CacheManager B}

/-- The entry an index value leads to. -/
def CacheManager.entryAt (cm : CacheManager B) (raw : Word) : Option SlabEntry :=
  (cm.regions (place raw).1 (place raw).2.1).entryAt (place raw).2.2 (unpack raw).1

/-- A read from memory follows an index entry of the key's tag. -/
theorem CacheManager.slabGet_entryAt {key : Key} {now : BitVec 32}
    (h : cm.slabGet h1 key now = some v) :
    ∃ raw e, (cm.idx (tagOf h1 key).1).get (tagOf h1 key).2 = some raw
      ∧ cm.entryAt raw = some e ∧ e.value = v := by
  rw [slabGet] at h
  cases hg : (cm.idx (tagOf h1 key).1).get (tagOf h1 key).2 with
  | none =>
    rw [hg] at h
    cases h
  | some raw =>
  rw [hg] at h
  dsimp only at h
  split at h
  · obtain ⟨e, he, hv⟩ := read_entryAt h
    exact ⟨raw, e, rfl, he, hv⟩
  · cases h

theorem isFree_tagOf (h1 : Key → Word) (key : Key) : isFree (tagOf h1 key).2 = false := by
  have hs : ∀ (tag m : Word), m ≠ iEmpty → m ≠ iTombstone → iTombstone ^^^ m ≠ iEmpty →
      iTombstone ^^^ m ≠ iTombstone →
      isFree (if (if tag = iEmpty then tag ||| m else tag) = iTombstone then
        (if tag = iEmpty then tag ||| m else tag) ^^^ m
        else (if tag = iEmpty then tag ||| m else tag)) = false := by
    intro tag m hm hm' hx hx'
    rw [Bool.eq_false_iff, ne_eq, isFree_iff, not_or]
    by_cases he : tag = iEmpty
    · have hor : tag ||| m = m := by rw [he, iEmpty, BitVec.zero_or]
      rw [if_pos he, hor, if_neg hm']
      exact ⟨hm, hm'⟩
    rw [if_neg he]
    split
    · rename_i ht
      rw [ht]
      exact ⟨hx, hx'⟩
    · rename_i ht
      exact ⟨he, ht⟩
  rw [tagOf]
  split
  · exact hs _ _ (by decide) (by decide) (by decide) (by decide)
  · exact hs _ _ (by decide) (by decide) (by decide) (by decide)

/-! ## Writing to the slab -/

theorem selectIndex_lt (n : Nat) (h : 0 < bounds.length) :
    selectIndex n bounds < bounds.length := by
  rw [selectIndex]
  cases hf : bounds.findIdx? (fun b => decide (n ≤ b)) with
  | none => exact Nat.sub_lt h Nat.one_pos
  | some i => exact (List.findIdx?_eq_some_iff_findIdx_eq.mp hf).1

/-- The region a value goes to, ready for the write. -/
def CacheManager.target (cm : CacheManager B) (value : Bytes) (ttl : BitVec 32) : Region :=
  (cm.regions (cm.selectSizeClass value.length) (cm.selectTTLTier ttl)).ready

/-- The entry that is stored, with its back-pointer. -/
def CacheManager.entryFor (cm : CacheManager B) (key : Key) (value : Bytes) (ttl : BitVec 32)
    (now : Clock) (sp : Word) : SlabEntry :=
  { newEntry (cm.target value ttl) ((cm.target value ttl).buf (cm.target value ttl).nextOff)
      key.tenantID (keyMidOf key) value ttl now.write with xSlotPtr := sp }

theorem CacheManager.entryFor_value (cm : CacheManager B) (key : Key) (ttl : BitVec 32)
    (now : Clock) (sp : Word) (h : value.length < 65536) :
    (cm.entryFor key value ttl now sp).value = value := by
  show (value ++ _).take (value.length % 65536) = value
  rw [Nat.mod_eq_of_lt h, List.take_left]

/-- What a write to the slab changes: one slot of one region, and the index entry of the tag. -/
structure Stored (h1 : Key → Word) (cm : CacheManager B) (key : Key) (value : Bytes)
    (ttl : BitVec 32) (now : Clock) (cm' : CacheManager B) : Prop where
  fits : value.length
    ≤ (cm.regions (cm.selectSizeClass value.length) (cm.selectTTLTier ttl)).capacity
  region : ∃ sp, (sp = 0 ∨ sp = cm.backRef h1 key)
    ∧ cm'.regions = (cm.setRegion (cm.selectSizeClass value.length) (cm.selectTTLTier ttl)
        ((cm.target value ttl).store (cm.entryFor key value ttl now sp))).regions
  index : ∃ w, w.physOff = (cm.target value ttl).nextOff ∧ w.gen = (cm.target value ttl).nextGen
    ∧ cm'.idx = (cm.setIdx (tagOf h1 key).1 ((cm.idx (tagOf h1 key).1).set (tagOf h1 key).2
        (slabPtr w (expiryAt now.put ttl) (cm.selectSizeClass value.length)
          (cm.selectTTLTier ttl)) now.ns)).idx
  config : cm'.sizeClasses = cm.sizeClasses ∧ cm'.ttlTiers = cm.ttlTiers
    ∧ cm'.tenantLimit = cm.tenantLimit
  store : cm'.backend = cm.backend ∧ cm'.asyncQueue = cm.asyncQueue ∧ cm'.inFlight = cm.inFlight

theorem CacheManager.setIdx_forall {P : Lane → InlineIndex → Prop} {idx : InlineIndex}
    (hi : P lane idx) (h : ∀ l, P l (cm.idx l)) (l : Lane) : P l ((cm.setIdx lane idx).idx l) := by
  show P l (if l = lane then idx else cm.idx l)
  split
  · rename_i hl
    exact hl ▸ hi
  · exact h l

theorem CacheManager.setRegion_regions (cm : CacheManager B) (c t : Nat) (r : Region) :
    (cm.setRegion c t r).regions c t = r :=
  if_pos ⟨rfl, rfl⟩

theorem CacheManager.setRegion_idem :
    ((cm.setRegion c t r).setRegion c t r').regions = (cm.setRegion c t r').regions := by
  funext i j
  show (if i = c ∧ j = t then r' else if i = c ∧ j = t then r else cm.regions i j) = _
  split
  · rename_i h
    exact (if_pos h).symm
  · rename_i h
    exact (if_neg h).symm

/-- Accounting touches nothing else. -/
theorem CacheManager.settle_eq (cm : CacheManager B) (old : Option (BitVec 16 × Nat)) :
    ∃ usage, cm.settle old = { cm with tenantUsage := usage } := by
  cases old with
  | none => exact ⟨cm.tenantUsage, rfl⟩
  | some p => exact ⟨_, rfl⟩

/-- The entry goes to the index, and the slot may get its back-pointer. -/
theorem CacheManager.publish_eq (cm : CacheManager B) (h1 : Key → Word) (key : Key) (w : Written)
    (expiry : BitVec 32) (c t : Nat) (ns : Int) :
    ∃ regions, cm.publish h1 key w expiry c t ns
        = { cm.setIdx (tagOf h1 key).1 ((cm.idx (tagOf h1 key).1).set (tagOf h1 key).2
            (slabPtr w expiry c t) ns) with regions := regions }
      ∧ (regions = cm.regions ∨ regions = (cm.setRegion c t
          ((cm.regions c t).updateXSlotPtr w.physOff (cm.backRef h1 key))).regions) := by
  rw [publish]
  split
  · exact ⟨cm.regions, rfl, .inl rfl⟩
  · exact ⟨_, rfl, .inr rfl⟩

/-- **What a write to the slab can do.** -/
theorem CacheManager.slabPut_cases (cm : CacheManager B) (h1 : Key → Word) (key : Key)
    (value : Bytes) (ttl : BitVec 32) (now : Clock) :
    ((cm.regions (cm.selectSizeClass value.length) (cm.selectTTLTier ttl)).Refuses value
        cm.canRecycle
      ∧ ∃ r, cm.slabPut h1 key value ttl now = (none,
          cm.setRegion (cm.selectSizeClass value.length) (cm.selectTTLTier ttl) r)
        ∧ (r = cm.regions (cm.selectSizeClass value.length) (cm.selectTTLTier ttl)
          ∨ r = cm.target value ttl))
    ∨ ∃ ptr cm', cm.slabPut h1 key value ttl now = (some ptr, cm')
      ∧ Stored h1 cm key value ttl now cm' := by
  rw [slabPut]
  rcases write_cases (cm.regions (cm.selectSizeClass value.length) (cm.selectTTLTier ttl))
    key.tenantID (keyMidOf key) value ttl cm.canRecycle now.write with
      ⟨hrf, r, hw, hr⟩ | ⟨hf, old, hw⟩
  · rw [hw]
    exact .inl ⟨hrf, r, rfl, hr⟩
  rw [show ready _ = cm.target value ttl from rfl] at hw
  rw [hw]
  refine .inr ⟨_, _, rfl, ?_⟩
  rw [show newEntry (cm.target value ttl) _ key.tenantID (keyMidOf key) value ttl now.write
    = cm.entryFor key value ttl now 0 from rfl]
  obtain ⟨usage, hus⟩ := settle_eq (cm.setRegion
    (cm.selectSizeClass value.length) (cm.selectTTLTier ttl)
    ((cm.target value ttl).store (cm.entryFor key value ttl now 0))) old
  rw [hus]
  obtain ⟨regions, hp, hrg⟩ := publish_eq { cm.setRegion
    (cm.selectSizeClass value.length) (cm.selectTTLTier ttl)
    ((cm.target value ttl).store (cm.entryFor key value ttl now 0)) with
      tenantUsage := usage } h1 key
    ⟨(cm.target value ttl).nextOff, (cm.target value ttl).nextGen, old⟩ (expiryAt now.put ttl)
    (cm.selectSizeClass value.length) (cm.selectTTLTier ttl) now.ns
  rw [hp]
  refine ⟨hf, ?_, ⟨_, rfl, rfl, rfl⟩, ⟨rfl, rfl, rfl⟩, ⟨rfl, rfl, rfl⟩⟩
  rcases hrg with heq | heq
  · exact ⟨0, .inl rfl, heq⟩
  have hb : regions = (cm.setRegion (cm.selectSizeClass value.length) (cm.selectTTLTier ttl)
      (((cm.target value ttl).store (cm.entryFor key value ttl now 0)).updateXSlotPtr
        (cm.target value ttl).nextOff (cm.backRef h1 key))).regions := by
    refine heq.trans ?_
    show ((cm.setRegion (cm.selectSizeClass value.length) (cm.selectTTLTier ttl)
        ((cm.target value ttl).store (cm.entryFor key value ttl now 0))).setRegion _ _
        (updateXSlotPtr ((cm.setRegion (cm.selectSizeClass value.length)
          (cm.selectTTLTier ttl) ((cm.target value ttl).store
            (cm.entryFor key value ttl now 0))).regions _ _) _ _)).regions = _
    rw [setRegion_idem, setRegion_regions]
    rfl
  rcases (cm.target value ttl).store_updateXSlotPtr (cm.entryFor key value ttl now 0)
    (cm.backRef h1 key) with hu | hu
  · rw [hu] at hb
    exact ⟨0, .inl rfl, hb⟩
  · rw [hu] at hb
    exact ⟨_, .inr rfl, hb⟩

end Manager

end Rah.Cache
