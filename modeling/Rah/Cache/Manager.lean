import Rah.Cache.Region

/-!
# The cache manager

`cache_manager.go`, with the tags of `hash.go`. A key is found through one of two indices: short
keys have a lossless tag, long ones a hashed one. The entry itself stands in a slab region chosen
by the value's length and its TTL. Every write also goes to a queue. A background writer takes all
that is queued as one batch and has the persistent backend write its jobs, each in a goroutine of
its own; two writes of one key share a temporary file, so that what they leave is open. A job keeps
the slices of its caller, who may change their bytes until the job is written. A read that finds
nothing in memory asks the backend and warms the memory with what it gets.

`h1` is the seeded hash of the runtime. The backend is any implementation of `CacheBackend`. The
clock is read where the source reads it.
-/

namespace Rah.Cache

/-- A tenant and a key of it. -/
structure Key where
  tenantID : BitVec 16
  key : Bytes
  deriving DecidableEq

/-! ## Tags -/

/-- Keys that do not fit a tiny tag: longer than six bytes, or six bytes that are not all ASCII. -/
def isHashLane (key : Bytes) : Bool :=
  decide (key.length > 6) || (key.length == 6 && key.any (fun b => decide (b ≥ 128)))

/-- The byte the slab header keeps to tell colliding keys apart. -/
def middleByte (key : Bytes) : UInt8 := key.getD (key.length / 2) 0

/-- Every byte, cut to the mask, at `width` bits a byte. -/
def packBytes (width : Nat) (mask : Word) : Nat → Bytes → Word
  | _, [] => 0
  | i, b :: bs =>
    ((b.toBitVec.setWidth 64 &&& mask) <<< (i * width)) ||| packBytes width mask (i + 1) bs

/-- `makeTagTiny`: tenant, length and the key's own bytes packed in one word, kept off the two
reserved tags. -/
def makeTagTiny (tenantID : BitVec 16) (key : Bytes) : Word :=
  let n := key.length
  let t := tenantID.setWidth 64
  let tag := if n = 6 then
      (1#64 <<< 63) ||| (t <<< 47) ||| (packBytes 7 0x7F#64 0 key <<< 5) ||| (t &&& 0x1F#64)
    else
      ((BitVec.ofNat 64 n &&& 7#64) <<< 60) ||| (t <<< 44) ||| (packBytes 8 0xFF#64 0 key <<< 4)
        ||| (t &&& 0xF#64)
  let tag := if tag = iEmpty then tag ||| 4#64 else tag
  if tag = iTombstone then tag ^^^ 4#64 else tag

/-- `hashLaneBig16`: sixteen bits from five bytes of the key, mixed with the tenant. -/
def hashLaneBig16 (tID : BitVec 16) (key : Bytes) : BitVec 16 :=
  let ln := key.length
  let r := if ln = 0 then tID else
      let byte := fun i => (key.getD i 0).toBitVec.setWidth 32
      let h := byte 0 ||| (byte (ln - 1) <<< 8)
      let h := h ^^^ ((byte (ln / 2) &&& 0x0F#32) <<< 4)
      let h := h ^^^ ((byte (ln / 4) &&& 0x07#32) <<< 9)
      let h := h ^^^ ((byte (ln * 3 / 4) &&& 0x07#32) <<< 13)
      let h := h ^^^ tID.setWidth 32
      (h ^^^ (h >>> 16)).setWidth 16
  if r = 0 then 1 else r

/-- The tag of the hash lane: 48 bits of the key's hash under the sixteen of `hashLaneBig16`. -/
def hashTag (h1 : Key → Word) (k : Key) : Word :=
  let tag := (h1 k &&& 0x0000FFFFFFFFFFFF#64)
    ||| ((hashLaneBig16 k.tenantID k.key).setWidth 64 <<< 48)
  let tag := if tag = iEmpty then tag ||| (1#64 <<< 48) else tag
  if tag = iTombstone then tag ^^^ (1#64 <<< 48) else tag

/-- The index a key is looked up in, and its tag there. -/
def tagOf (h1 : Key → Word) (k : Key) : Lane × Word :=
  if isHashLane k.key then (.hash, hashTag h1 k) else (.tiny, makeTagTiny k.tenantID k.key)

/-- The middle byte is compared in the hash lane only. -/
def keyMidOf (k : Key) : UInt8 := if isHashLane k.key then middleByte k.key else 0

/-! ## The index and the slab -/

/-- The value still points to this slot in this generation. -/
def pointsAt (v : Word) (physOff : Nat) (gen2b : BitVec 8) : Bool :=
  (unpack v).2.2 == xValTypeSlabRAM && (unpackSlab v).2.2.toNat == physOff && (unpack v).1 == gen2b

/-- The first slot of the node with the tag and such a value. -/
def INode.slotAt (node : INode) (tag : Word) (physOff : Nat) (gen2b : BitVec 8) : Option (Fin 4) :=
  (List.finRange 4).find? (fun i =>
    (node.slots i).tag == tag && pointsAt (node.slots i).val physOff gen2b)

/-- The walk of `isLive`: some slot on the tag's path points at this offset with this generation. -/
def isLiveLoop (p : INodePool) (tag : Word) (physOff : Nat) (gen2b : BitVec 8) :
    Nat → Nat → Nat → Bool
  | 0, _, _ => false
  | visits + 1, nodeIdx, shift =>
    if nodeIdx = 0 then false
    else
      let node := p.nodes nodeIdx
      if (node.slotAt tag physOff gen2b).isSome then true
      else isLiveLoop p tag physOff gen2b visits (node.children (branch tag shift)) (shift + 3)

/-- `isLive`: whether the index still points at a slab entry. -/
def InlineIndex.isLive (idx : InlineIndex) (tag : Word) (physOff : Nat) (gen2b : BitVec 8) : Bool :=
  isLiveLoop idx.pool tag physOff gen2b (iMaxDepth + 1) (idx.root tag) idx.shardBits

/-- The walk of `tombstoneIfMatch`: the matching slot on the path becomes a tombstone. -/
def tombLoop (tag : Word) (physOff : Nat) (gen2b : BitVec 8) :
    Nat → INodePool → Nat → Nat → Option INodePool
  | 0, _, _, _ => none
  | visits + 1, p, nodeIdx, shift =>
    if nodeIdx = 0 then none
    else
      let node := p.nodes nodeIdx
      match node.slotAt tag physOff gen2b with
      | some i => some (p.setNode nodeIdx (node.bury i))
      | none =>
        tombLoop tag physOff gen2b visits p (node.children (branch tag shift)) (shift + 3)

/-- `none` when no entry was found. -/
def InlineIndex.tryTombstone (idx : InlineIndex) (tag : Word) (physOff : Nat) (gen2b : BitVec 8) :
    Option InlineIndex :=
  (tombLoop tag physOff gen2b (iMaxDepth + 1) idx.pool (idx.root tag) idx.shardBits).map
    (fun p => { idx with pool := p })

/-! ## The manager -/

/-- The second level behind the slab, by the operations the manager calls on it. -/
structure CacheBackend (B : Type) where
  /-- The value and its expiry, at a time. -/
  get : B → BitVec 32 → Key → Option (Bytes × BitVec 32)
  /-- Whether the write succeeded. -/
  set : B → Key → Bytes → BitVec 32 → Bool × B
  delete : B → Key → B
  deleteTenant : B → BitVec 16 → B
  sweep : B → BitVec 32 → B

/-- Keeps nothing. -/
def noopBackend : CacheBackend Unit :=
  { get := fun _ _ _ => none, set := fun _ _ _ _ => (true, ()), delete := fun _ _ => (),
    deleteTenant := fun _ _ => (), sweep := fun _ _ => () }

structure WriteJob where
  key : Key
  value : Bytes
  expiry : BitVec 32

/-- A job of the batch that the backend is writing. -/
structure FlyingJob where
  job : WriteJob
  /-- Another write of the key goes on at the same time. -/
  twin : Bool

/-- The capacity of the write queue; a full queue drops the write. -/
def asyncQueueSize : Nat := 2048

/-- `CacheManager`: the regions by size class and TTL tier, the two index lanes, the tenants' usage
and quotas, the write queue and the backend. -/
structure CacheManager (B : Type) where
  sizeClasses : List Nat
  ttlTiers : List Nat
  regions : Nat → Nat → Region
  cleanSlots : Nat → Nat → Nat
  idx : Lane → InlineIndex
  tenantLimit : Nat
  tenantUsage : BitVec 16 → Nat
  backend : B
  asyncQueue : List WriteJob
  /-- What is left of the batch that the background writer took last. -/
  inFlight : List FlyingJob
  shrinkThreshold : Nat

/-- What two writes of one key leave that go on at the same time. -/
structure Torn where
  value : Bytes
  expiry : BitVec 32

/-- What the surroundings decide during one operation: the readings of the clocks, and what is left
of a write that meets another one of its key. -/
structure Clock where
  /-- In `put`. -/
  put : BitVec 32
  /-- In `Region.Write`. -/
  write : BitVec 32
  /-- In `Region.Read` and in `Incr`. -/
  read : BitVec 32
  /-- In the backend's `Get`. -/
  backend : BitVec 32
  /-- Before warming. -/
  warm : BitVec 32
  /-- The nanosecond clock of the index. -/
  ns : Int
  /-- Of the write of `enqueueWrite`. -/
  torn : Torn

/-- `none` is the error on a missing class or tier. A size class for which the stride wraps round to
less than a header, where slots would overlap, has no model. -/
def newCacheManager {B : Type} (totalMemory : Nat) (sizeClasses ttlTiers : List Nat)
    (tenantLimit : Nat) (backend : B) (ns : Int) : Option (CacheManager B) :=
  if sizeClasses.length = 0 ∨ ttlTiers.length = 0 then none
  else if sizeClasses.any (fun s => decide (regionStride s < entryHeaderSize)) then none
  else do
    let idx ← newInlineIndex 0 ns
    let regionMemory := totalMemory / (sizeClasses.length * ttlTiers.length)
    some
      { sizeClasses := sizeClasses, ttlTiers := ttlTiers,
        regions := fun i _ =>
          newRegion (regionStride (sizeClasses.getD i 0))
            (regionMemory / regionStride (sizeClasses.getD i 0)),
        cleanSlots := fun _ _ => 0, idx := fun _ => idx, tenantLimit := tenantLimit,
        tenantUsage := fun _ => 0, backend := backend, asyncQueue := [], inFlight := [],
        shrinkThreshold := 10 }

section Manager

variable {B : Type} (bk : CacheBackend B) (h1 : Key → Word)

/-- The first entry of the list the number does not exceed, or the last. -/
def selectIndex (n : Nat) (bounds : List Nat) : Nat :=
  (bounds.findIdx? (fun b => decide (n ≤ b))).getD (bounds.length - 1)

/-- The first size class the value fits. -/
def CacheManager.selectSizeClass (cm : CacheManager B) (valueLen : Nat) : Nat :=
  selectIndex (valueLen % 4294967296) cm.sizeClasses

/-- The first TTL tier that holds the TTL. -/
def CacheManager.selectTTLTier (cm : CacheManager B) (ttl : BitVec 32) : Nat :=
  selectIndex ttl.toNat cm.ttlTiers

def CacheManager.setRegion (cm : CacheManager B) (ci ti : Nat) (r : Region) : CacheManager B :=
  { cm with regions := fun i j => if i = ci ∧ j = ti then r else cm.regions i j }

def CacheManager.setIdx (cm : CacheManager B) (lane : Lane) (idx : InlineIndex) : CacheManager B :=
  { cm with idx := fun l => if l = lane then idx else cm.idx l }

def CacheManager.addUsage (cm : CacheManager B) (tenantID : BitVec 16) (n : Nat) :
    CacheManager B :=
  let used := (cm.tenantUsage tenantID + n) % 18446744073709551616
  { cm with tenantUsage := Function.update cm.tenantUsage tenantID used }

/-- The atomic subtraction, as an add of the complement. -/
def CacheManager.subUsage (cm : CacheManager B) (tenantID : BitVec 16) (n : Nat) :
    CacheManager B :=
  let used := (cm.tenantUsage tenantID + (18446744073709551616 - n)) % 18446744073709551616
  { cm with tenantUsage := Function.update cm.tenantUsage tenantID used }

/-- `Set` of the backend, alone or beside another write of the key. -/
def CacheBackend.write (b : B) (job : WriteJob) (twin : Bool) (torn : Torn) : Bool × B :=
  if twin then bk.set b job.key torn.value torn.expiry else bk.set b job.key job.value job.expiry

/-- A write of the key begins beside this one. -/
def FlyingJob.meet (key : Key) (j : FlyingJob) : FlyingJob :=
  { j with twin := j.twin || j.job.key == key }

/-- Queued, or written at once when the queue is full. -/
def CacheManager.enqueueWrite (cm : CacheManager B) (key : Key) (value : Bytes)
    (expiry : BitVec 32) (torn : Torn) : Bool × CacheManager B :=
  if cm.asyncQueue.length < asyncQueueSize then
    (true, { cm with asyncQueue := cm.asyncQueue ++ [⟨key, value, expiry⟩] })
  else
    let r := bk.write cm.backend ⟨key, value, expiry⟩ (cm.inFlight.any (fun j => j.job.key == key))
      torn
    (r.1, { cm with backend := r.2, inFlight := cm.inFlight.map (FlyingJob.meet key) })

/-- The slot's old index entry has been tombstoned. -/
def CacheManager.canRecycle (cm : CacheManager B) (sp : Word) (physOff : Nat)
    (gen2b : BitVec 8) : Bool :=
  !(cm.idx (laneOf sp)).isLive (tagBits sp) physOff gen2b

/-- The pointer of an entry just written. -/
def slabPtr (w : Written) (expiry : BitVec 32) (classID tierID : Nat) : Word :=
  packSlabVal (w.gen &&& 3) (expTrunc expiry) (BitVec.ofNat 8 classID) (BitVec.ofNat 8 tierID)
    (BitVec.ofNat 64 w.physOff)

/-- The way back from a slot to the key's index entry. -/
def CacheManager.backRef (cm : CacheManager B) (key : Key) : Word :=
  packXTagRef (tagOf h1 key).1
    (((tagOf h1 key).2 &&& (cm.idx (tagOf h1 key).1).shardMask).setWidth 8) (tagOf h1 key).2

/-- The index gets the entry and the slot the way back to it. -/
def CacheManager.publish (cm : CacheManager B) (key : Key) (w : Written) (expiry : BitVec 32)
    (classID tierID : Nat) (ns : Int) : CacheManager B :=
  let lane := (tagOf h1 key).1
  let tag := (tagOf h1 key).2
  let idx := cm.idx lane
  let sp := cm.backRef h1 key
  let cm := cm.setIdx lane (idx.set tag (slabPtr w expiry classID tierID) ns)
  if sp = 0 then cm
  else cm.setRegion classID tierID ((cm.regions classID tierID).updateXSlotPtr w.physOff sp)

/-- The entry that was evicted is no longer counted. -/
def CacheManager.settle (cm : CacheManager B) : Option (BitVec 16 × Nat) → CacheManager B
  | some (tenantID, valueLen) => cm.subUsage tenantID ((entryHeaderSize + valueLen) % 65536)
  | none => cm

/-- The in-memory part of `put`: `none` when the slab has no place for the value. -/
def CacheManager.slabPut (cm : CacheManager B) (key : Key) (value : Bytes) (ttl : BitVec 32)
    (now : Clock) : Option Word × CacheManager B :=
  let expiry := expiryAt now.put ttl
  let classID := cm.selectSizeClass value.length
  let tierID := cm.selectTTLTier ttl
  let r := (cm.regions classID tierID).write key.tenantID (keyMidOf key) value ttl cm.canRecycle
    now.write
  let cm := cm.setRegion classID tierID r.2
  match r.1 with
  | none => (none, cm)
  | some w =>
    let cm := (cm.settle w.old).publish h1 key w expiry classID tierID now.ns
    (some (slabPtr w expiry classID tierID),
      cm.addUsage key.tenantID (entryHeaderSize + value.length))

/-- The tenant's quota does not allow for one more entry of this size. -/
def CacheManager.overQuota (cm : CacheManager B) (tenantID : BitVec 16) (entrySize : Nat) : Bool :=
  decide (cm.tenantLimit > 0)
    && decide ((cm.tenantUsage tenantID + entrySize) % 18446744073709551616 > cm.tenantLimit)

/-- `Put`: the quota first, then the backend's queue, then the slab and its index. -/
def CacheManager.put (cm : CacheManager B) (key : Key) (value : Bytes) (ttl : BitVec 32)
    (now : Clock) : (Word × Bool) × CacheManager B :=
  if cm.overQuota key.tenantID (entryHeaderSize + value.length) then ((0, false), cm)
  else
    let q := cm.enqueueWrite bk key value (expiryAt now.put ttl) now.torn
    let s := q.2.slabPut h1 key value ttl now
    match s.1 with
    | none => ((0, q.1), s.2)
    | some ptr => ((ptr, true), s.2)

/-- The in-memory part of `Get`. -/
def CacheManager.slabGet (cm : CacheManager B) (key : Key) (now : BitVec 32) : Option Bytes :=
  match (cm.idx (tagOf h1 key).1).get (tagOf h1 key).2 with
  | none => none
  | some rawVal =>
    let (gen2b, exp, typ) := unpack rawVal
    let (classID, tierID, physOff) := unpackSlab rawVal
    if typ = xValTypeSlabRAM ∧ classID.toNat < cm.sizeClasses.length
        ∧ tierID.toNat < cm.ttlTiers.length then
      (cm.regions classID.toNat tierID.toNat).read physOff.toNat gen2b exp (keyMidOf key) now
    else none

/-- What is left of the lifetime. -/
def warmTTL (expiry now : BitVec 32) : BitVec 32 := if expiry > now then expiry - now else 0

/-- `Get`: the slab first; a miss asks the backend and writes the hit back to the slab. -/
def CacheManager.get (cm : CacheManager B) (key : Key) (now : Clock) :
    Option Bytes × CacheManager B :=
  match cm.slabGet h1 key now.read with
  | some val => (some val, cm)
  | none =>
    match bk.get cm.backend now.backend key with
    | none => (none, cm)
    | some (val, expiry) =>
      (some val, (cm.put bk h1 key val (warmTTL expiry now.warm) now).2)

/-- A counter's eight bytes, little endian. -/
def putUint64 (v : Word) : Bytes :=
  (List.range 8).map (fun i => UInt8.ofNat ((v >>> (8 * i)).toNat % 256))

def uint64At : Bytes → Word
  | [] => 0
  | b :: bs => b.toBitVec.setWidth 64 ||| (uint64At bs <<< 8)

/-- The index entry `Incr` follows. -/
def CacheManager.incrPtr (cm : CacheManager B) (key : Key) : Option Word :=
  match (cm.idx (tagOf h1 key).1).get (tagOf h1 key).2 with
  | none => none
  | some rawVal =>
    let (classID, tierID, _) := unpackSlab rawVal
    if (unpack rawVal).2.2 = xValTypeSlabRAM ∧ classID.toNat < cm.sizeClasses.length
        ∧ tierID.toNat < cm.ttlTiers.length then some rawVal
    else none

/-- The key is missing or not a counter. -/
def CacheManager.incrFresh (cm : CacheManager B) (key : Key) (delta : Word) (ttl : BitVec 32)
    (now : Clock) : (Word × Bool) × CacheManager B :=
  let r := cm.put bk h1 key (putUint64 delta) ttl now
  if r.1.2 then ((delta, true), r.2) else ((0, false), r.2)

/-- Whether an entry can be incremented in place: live and eight bytes long. -/
def SlabEntry.isCounter (h : SlabEntry) (now : BitVec 32) : Bool :=
  decide (h.expiry > now) && h.valueLen == 8

/-- The eight bytes are replaced. -/
def SlabEntry.setCounter (h : SlabEntry) (v : Word) : SlabEntry :=
  { h with data := putUint64 v ++ h.data.drop 8 }

/-- `none` is the panic on an offset past the buffer. -/
def CacheManager.incr (cm : CacheManager B) (key : Key) (delta : Word) (ttl : BitVec 32)
    (now : Clock) : Option ((Word × Bool) × CacheManager B) :=
  match cm.incrPtr h1 key with
  | none => some (cm.incrFresh bk h1 key delta ttl now)
  | some rawVal =>
    let (classID, tierID, physOff) := unpackSlab rawVal
    let region := cm.regions classID.toNat tierID.toNat
    if physOff.toNat ≥ region.bufLen then none
    else
      let h := region.buf physOff.toNat
      if h.isCounter now.read then
        let newVal := uint64At (h.data.take 8) + delta
        some ((newVal, true), cm.setRegion classID.toNat tierID.toNat
          (region.setEntry physOff.toNat (h.setCounter newVal)))
      else some (cm.incrFresh bk h1 key delta ttl now)

/-- `Invalidate`: the index forgets the tag and the backend deletes the key. -/
def CacheManager.invalidate (cm : CacheManager B) (key : Key) (ns : Int) : CacheManager B :=
  let lane := (tagOf h1 key).1
  let cm := cm.setIdx lane ((cm.idx lane).delete (tagOf h1 key).2 ns).2
  { cm with backend := bk.delete cm.backend key }

/-- `DeleteTenant`: the usage is reset and the backend told; the index keeps its entries. -/
def CacheManager.deleteTenant (cm : CacheManager B) (tenantID : BitVec 16) : CacheManager B :=
  { cm with
    tenantUsage := Function.update cm.tenantUsage tenantID 0
    backend := bk.deleteTenant cm.backend tenantID }

/-! ## In the background -/

/-- How many slots one sweep of the cleaner visits. -/
def cleanerBatchSize : Nat := 256

/-- One slot of a sweep: the index entry of an expired slot gets a tombstone. -/
def CacheManager.sweepSlot (ci ti : Nat) (now : BitVec 32) (cm : CacheManager B) (slot : Nat) :
    CacheManager B :=
  let r := cm.regions ci ti
  let physOff := slot * r.stride
  let h := r.buf physOff
  if h.expiry = 0 ∨ h.expiry ≥ now ∨ h.xSlotPtr = 0 then cm
  else
    let lane := laneOf h.xSlotPtr
    match (cm.idx lane).tryTombstone (tagBits h.xSlotPtr) physOff (h.gen &&& 3) with
    | some idx => cm.setIdx lane idx
    | none => cm

/-- One batch of the cleaner over one region, from where the last one stopped. -/
def CacheManager.sweepBatch (cm : CacheManager B) (ci ti : Nat) (now : BitVec 32) :
    CacheManager B :=
  let cnt := (cm.regions ci ti).count
  if cnt = 0 then cm
  else
    let start := cm.cleanSlots ci ti
    let cm := ((List.range cleanerBatchSize).map (fun i => (start + i) % cnt)).foldl
      (CacheManager.sweepSlot ci ti now) cm
    { cm with cleanSlots := fun i j =>
        if i = ci ∧ j = ti then (start + cleanerBatchSize) % cnt else cm.cleanSlots i j }

/-- The cleaner's attempt to halve a region. -/
def CacheManager.tryShrink (cm : CacheManager B) (ci ti : Nat) (now : BitVec 32) :
    CacheManager B :=
  cm.setRegion ci ti ((cm.regions ci ti).tryShrink cm.shrinkThreshold now)

/-- The background writer takes all that is queued, once its last batch is written. -/
def CacheManager.drain (cm : CacheManager B) : CacheManager B :=
  if cm.inFlight.isEmpty then
    { cm with
      asyncQueue := []
      inFlight := cm.asyncQueue.map (fun job =>
        ⟨job, decide (1 < (cm.asyncQueue.map WriteJob.key).count job.key)⟩) }
  else cm

/-- The goroutine of the `n`-th job of the batch writes it. -/
def CacheManager.flush (cm : CacheManager B) (n : Nat) (torn : Torn) : CacheManager B :=
  match cm.inFlight[n]? with
  | none => cm
  | some j =>
    { cm with
      inFlight := cm.inFlight.eraseIdx n
      backend := (bk.write cm.backend j.job j.twin torn).2 }

/-- The slices of the job have other bytes. -/
def WriteJob.rewrite (key value : Bytes) (job : WriteJob) : WriteJob :=
  { job with key := { job.key with key := key }, value := value }

/-- A caller writes to the slices it gave to `Put`: those of the `n`-th job of the batch or of the
queue. -/
def CacheManager.rewrite (cm : CacheManager B) (flying : Bool) (n : Nat) (key value : Bytes) :
    CacheManager B :=
  if flying then
    { cm with
      inFlight := cm.inFlight.modify n (fun j => { j with job := j.job.rewrite key value }) }
  else { cm with asyncQueue := cm.asyncQueue.modify n (WriteJob.rewrite key value) }

/-- The cleaner's call to the backend. -/
def CacheManager.backendSweep (cm : CacheManager B) (now : BitVec 32) : CacheManager B :=
  { cm with backend := bk.sweep cm.backend now }

/-! ## Histories -/

/-- Everything that changes a manager: the callers' operations and the background work. -/
inductive CacheOp where
  | put (key : Key) (value : Bytes) (ttl : BitVec 32) (now : Clock)
  | get (key : Key) (now : Clock)
  | incr (key : Key) (delta : Word) (ttl : BitVec 32) (now : Clock)
  | invalidate (key : Key) (ns : Int)
  | deleteTenant (tenantID : BitVec 16)
  | sweep (ci ti : Nat) (now : BitVec 32)
  | shrink (ci ti : Nat) (now : BitVec 32)
  | drain
  | flush (n : Nat) (torn : Torn)
  | rewrite (flying : Bool) (n : Nat) (key value : Bytes)
  | backendSweep (now : BitVec 32)

/-- `none` is a panic. -/
def CacheManager.step (cm : CacheManager B) : CacheOp → Option (CacheManager B)
  | .put key value ttl now => some (cm.put bk h1 key value ttl now).2
  | .get key now => some (cm.get bk h1 key now).2
  | .incr key delta ttl now => (cm.incr bk h1 key delta ttl now).map Prod.snd
  | .invalidate key ns => some (cm.invalidate bk h1 key ns)
  | .deleteTenant tenantID => some (cm.deleteTenant bk tenantID)
  | .sweep ci ti now => some (cm.sweepBatch ci ti now)
  | .shrink ci ti now => some (cm.tryShrink ci ti now)
  | .drain => some cm.drain
  | .flush n torn => some (cm.flush bk n torn)
  | .rewrite flying n key value => some (cm.rewrite flying n key value)
  | .backendSweep now => some (cm.backendSweep bk now)

end Manager

end Rah.Cache
