import Rah.Cache.Pointer

/-!
# Slab regions

`regions.go`. A region is one buffer of slots of the same size. It starts with 64 slots, doubles
as it fills, and at its largest it is written round and round; every round has the next
generation. A region that is nearly empty is halved again.

The buffer is given by what stands at each byte offset a slot can begin at: the stride is taken to
be no smaller than a header. The bytes of a slot after its value are never read.
-/

namespace Rah.Cache

abbrev Bytes := List UInt8

/-- The bytes of a slab header, before the value. -/
def entryHeaderSize : Nat := 16

/-- The header of a slot and the bytes behind it. -/
structure SlabEntry where
  expiry : BitVec 32
  gen : BitVec 8
  keyMid : UInt8
  tenantID : BitVec 16
  /-- A `uint16`. -/
  valueLen : Nat
  /-- The back-pointer, zero until the index has its entry. -/
  xSlotPtr : Word
  data : Bytes

/-- A slot that was never written. -/
def SlabEntry.zero : SlabEntry :=
  { expiry := 0, gen := 0, keyMid := 0, tenantID := 0, valueLen := 0, xSlotPtr := 0, data := [] }

/-- The value of an entry, as long as its header says. -/
def SlabEntry.value (e : SlabEntry) : Bytes := e.data.take e.valueLen

/-- `Region`: a ring of equal slots, by the offset of each slot in the buffer. -/
structure Region where
  buf : Nat → SlabEntry
  count : Nat
  stride : Nat
  writeSlot : Nat
  maxCount : Nat
  minCount : Nat

/-- `align8(EntryHeaderSize + sizeClass)`, on a `uint32`. -/
def regionStride (sizeClass : Nat) : Nat :=
  ((entryHeaderSize + sizeClass) % 4294967296 + 7) % 4294967296 / 8 * 8

/-- `newRegion`: 64 slots to begin with, four megabytes where no maximum is configured. -/
def newRegion (stride maxSlots : Nat) : Region :=
  let maxSlots := if maxSlots = 0 then 4194304 / stride else maxSlots
  { buf := fun _ => SlabEntry.zero, count := 64, stride := stride, writeSlot := 0,
    maxCount := max maxSlots 64, minCount := 64 }

/-- The length of the buffer. -/
def Region.bufLen (r : Region) : Nat := r.count * r.stride

/-- The region with the entry at one offset replaced. -/
def Region.setEntry (r : Region) (physOff : Nat) (e : SlabEntry) : Region :=
  { r with buf := Function.update r.buf physOff e }

/-- A buffer of another length with the content of this one. -/
def Region.resize (r : Region) (newCount : Nat) : Region :=
  { r with
    buf := fun off => if off < min r.count newCount * r.stride then r.buf off else SlabEntry.zero
    count := newCount }

/-- The ring doubled, up to its maximum. -/
def Region.grow (r : Region) : Region := r.resize (min (r.count * 2) r.maxCount)

/-- Growth is triggered when 70 % of the slots are used. -/
def Region.ready (r : Region) : Region :=
  if r.writeSlot ≥ r.count * 70 / 100 ∧ r.count < r.maxCount then r.grow else r

/-- The slot the next write goes to, in a region that has grown if it had to. -/
def Region.physSlot (r : Region) : Nat :=
  if r.count ≥ r.maxCount then r.writeSlot % r.maxCount else r.writeSlot

/-- The generation of the next write. -/
def Region.nextGen (r : Region) : BitVec 8 :=
  if r.count ≥ r.maxCount then BitVec.ofNat 8 (r.writeSlot / r.maxCount) else 0

/-- The offset the next write goes to. -/
def Region.nextOff (r : Region) : Nat := r.physSlot * r.stride

/-- The expiry of a write: a TTL of 0 expires at once. -/
def expiryAt (now ttl : BitVec 32) : BitVec 32 := if ttl = 0 then now else now + ttl

/-- What a write tells: where it went, and whose entry was there before. -/
structure Written where
  physOff : Nat
  gen : BitVec 8
  /-- The tenant and the value's length. -/
  old : Option (BitVec 16 × Nat)

/-- The entry that is written. -/
def newEntry (r : Region) (old : SlabEntry) (tenantID : BitVec 16) (keyMid : UInt8) (value : Bytes)
    (ttl now : BitVec 32) : SlabEntry :=
  { expiry := expiryAt now ttl, gen := r.nextGen, keyMid := keyMid, tenantID := tenantID,
    valueLen := value.length % 65536, xSlotPtr := 0,
    data := value ++ old.data.drop value.length }

/-- The entry is put in the next slot. -/
def Region.store (r : Region) (e : SlabEntry) : Region :=
  { r.setEntry r.nextOff e with writeSlot := r.writeSlot + 1 }

/-- The bytes a slot has for its value. -/
def Region.capacity (r : Region) : Nat := r.stride - entryHeaderSize

/-- `none` when the value does not fit or the slot may not be recycled; the region may have grown
in either case. -/
def Region.write (r : Region) (tenantID : BitVec 16) (keyMid : UInt8) (value : Bytes)
    (ttl : BitVec 32) (canRecycle : Word → Nat → BitVec 8 → Bool) (now : BitVec 32) :
    Option Written × Region :=
  if value.length > r.capacity then (none, r)
  else
    let r := r.ready
    let h := r.buf r.nextOff
    if r.count ≥ r.maxCount ∧ h.expiry > 0 ∧ h.xSlotPtr ≠ 0
        ∧ canRecycle h.xSlotPtr r.nextOff r.nextGen = false then (none, r)
    else
      (some { physOff := r.nextOff, gen := r.nextGen,
              old := if h.expiry > 0 then some (h.tenantID, h.valueLen) else none },
        r.store (newEntry r h tenantID keyMid value ttl now))

/-- `Read`: the value at an offset, unless the pointer or the header says it is stale. -/
def Region.read (r : Region) (physOff : Nat) (gen2b : BitVec 8) (exp : BitVec 16) (keyMid : UInt8)
    (now : BitVec 32) : Option Bytes :=
  if expTruncExpired exp now then none
  else if physOff + entryHeaderSize > r.bufLen then none
  else
    let h := r.buf physOff
    if h.gen &&& 3 ≠ gen2b then none
    else if h.expiry < now then none
    else if h.keyMid ≠ keyMid then none
    else if physOff + entryHeaderSize + h.valueLen > r.bufLen then none
    else some h.value

/-- The back reference written into an entry. -/
def Region.updateXSlotPtr (r : Region) (physOff : Nat) (sp : Word) : Region :=
  if physOff + entryHeaderSize > r.bufLen then r
  else r.setEntry physOff { r.buf physOff with xSlotPtr := sp }

/-- A slot whose entry has not expired. -/
def Region.active (r : Region) (now : BitVec 32) (slot : Nat) : Bool :=
  let h := r.buf (slot * r.stride)
  !(h.expiry == 0 || decide (h.expiry < now))

/-- `TryShrink`: a full region with few live entries, all in its lower half, is halved. -/
def Region.tryShrink (r : Region) (shrinkPct : Nat) (now : BitVec 32) : Region :=
  if r.count < r.maxCount ∨ r.maxCount < 2 ∨ r.maxCount ≤ r.minCount then r
  else
    let half := r.maxCount / 2
    let active := (List.range r.count).filter (r.active now)
    if active.any (fun slot => decide (slot ≥ half)) then r
    else if active.length ≥ r.count * shrinkPct / 100 then r
    else { r.resize half with maxCount := half, writeSlot := r.writeSlot % half }

end Rah.Cache
