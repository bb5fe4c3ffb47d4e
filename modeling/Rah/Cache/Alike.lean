import Rah.Cache.Isolation

/-!
# Two managers that differ in other tenants' values

`ManagerAlike` relates two managers that went through the same operations but for the values which
tenants other than `tenant` stored: everything is the same except the bytes of those tenants, in
the slabs, in the queue and in the backend. No decision of the manager is made on a value's bytes,
so every operation keeps the relation; only adding to a counter needs that the counter is the
tenant's own.
-/

namespace Rah.Cache

open Rah.Lib Option CacheManager Function List
open SlabEntry (isCounter value zero)
open CacheManager (backRef subUsage)

variable {B : Type} {bk : CacheBackend B} {h1 : Key → Word} {tenant : BitVec 16}

/-- Values of the same length, the same value for the tenant itself. -/
def ValueAlike (tenant tenantID : BitVec 16) (v v' : Bytes) : Prop :=
  v.length = v'.length ∧ (tenantID = tenant → v = v')

structure EntryAlike (tenant : BitVec 16) (e e' : SlabEntry) : Prop where
  expiry : e'.expiry = e.expiry
  gen : e'.gen = e.gen
  keyMid : e'.keyMid = e.keyMid
  tenantID : e'.tenantID = e.tenantID
  valueLen : e'.valueLen = e.valueLen
  xSlotPtr : e'.xSlotPtr = e.xSlotPtr
  value : e.tenantID = tenant → e'.value = e.value

structure RegionAlike (tenant : BitVec 16) (r r' : Region) : Prop where
  count : r'.count = r.count
  stride : r'.stride = r.stride
  writeSlot : r'.writeSlot = r.writeSlot
  maxCount : r'.maxCount = r.maxCount
  minCount : r'.minCount = r.minCount
  entry : ∀ off, EntryAlike tenant (r.buf off) (r'.buf off)

structure JobAlike (tenant : BitVec 16) (j j' : WriteJob) : Prop where
  key : j'.key = j.key
  expiry : j'.expiry = j.expiry
  value : ValueAlike tenant j.key.tenantID j.value j'.value

structure FlyingAlike (tenant : BitVec 16) (j j' : FlyingJob) : Prop where
  job : JobAlike tenant j.job j'.job
  twin : j'.twin = j.twin

/-- The backends answer alike. -/
def BackendAlike (bk : CacheBackend B) (tenant : BitVec 16) (b b' : B) : Prop :=
  ∀ now key, (bk.get b' now key).map Prod.snd = (bk.get b now key).map Prod.snd
    ∧ ∀ v x v' x', bk.get b now key = some (v, x) → bk.get b' now key = some (v', x') →
      ValueAlike tenant key.tenantID v v'

structure ManagerAlike (bk : CacheBackend B) (tenant : BitVec 16) (cm cm' : CacheManager B) :
    Prop where
  sizeClasses : cm'.sizeClasses = cm.sizeClasses
  ttlTiers : cm'.ttlTiers = cm.ttlTiers
  regions : ∀ c t, RegionAlike tenant (cm.regions c t) (cm'.regions c t)
  cleanSlots : cm'.cleanSlots = cm.cleanSlots
  idx : cm'.idx = cm.idx
  tenantLimit : cm'.tenantLimit = cm.tenantLimit
  tenantUsage : cm'.tenantUsage = cm.tenantUsage
  backend : BackendAlike bk tenant cm.backend cm'.backend
  asyncQueue : Forall₂ (JobAlike tenant) cm.asyncQueue cm'.asyncQueue
  inFlight : Forall₂ (FlyingAlike tenant) cm.inFlight cm'.inFlight
  shrinkThreshold : cm'.shrinkThreshold = cm.shrinkThreshold

/-- A backend that decides nothing on the bytes of a value. -/
structure CacheBackend.Oblivious (bk : CacheBackend B) : Prop where
  set : ∀ {tenant b b' key v v'} expiry, BackendAlike bk tenant b b' →
    ValueAlike tenant key.tenantID v v' →
    (bk.set b' key v' expiry).1 = (bk.set b key v expiry).1
      ∧ BackendAlike bk tenant (bk.set b key v expiry).2 (bk.set b' key v' expiry).2
  delete : ∀ {tenant b b'} key, BackendAlike bk tenant b b' →
    BackendAlike bk tenant (bk.delete b key) (bk.delete b' key)
  deleteTenant : ∀ {tenant b b'} tenantID, BackendAlike bk tenant b b' →
    BackendAlike bk tenant (bk.deleteTenant b tenantID) (bk.deleteTenant b' tenantID)
  sweep : ∀ {tenant b b'} now, BackendAlike bk tenant b b' →
    BackendAlike bk tenant (bk.sweep b now) (bk.sweep b' now)

theorem EntryAlike.refl (tenant : BitVec 16) (e : SlabEntry) : EntryAlike tenant e e :=
  ⟨rfl, rfl, rfl, rfl, rfl, rfl, fun _ => rfl⟩

theorem ValueAlike.refl (tenant tenantID : BitVec 16) (v : Bytes) :
    ValueAlike tenant tenantID v v :=
  ⟨rfl, fun _ => rfl⟩

theorem ManagerAlike.refl (bk : CacheBackend B) (tenant : BitVec 16) (cm : CacheManager B) :
    ManagerAlike bk tenant cm cm := by
  refine ⟨rfl, rfl, fun c t => ⟨rfl, rfl, rfl, rfl, rfl, fun _ => EntryAlike.refl tenant _⟩, rfl,
    rfl, rfl, rfl, fun now key => ⟨rfl, fun v x v' x' h h' => ?_⟩, ?_, ?_, rfl⟩
  · cases some.inj (h.symm.trans h')
    exact ValueAlike.refl ..
  · rw [forall₂_same]
    exact fun j _ => ⟨rfl, rfl, ValueAlike.refl ..⟩
  · rw [forall₂_same]
    exact fun j _ => ⟨⟨rfl, rfl, ValueAlike.refl ..⟩, rfl⟩

/-! ## Regions -/

section Region

variable {r r' : Region}

section

variable (h : RegionAlike tenant r r')
include h

theorem RegionAlike.bufLen : r'.bufLen = r.bufLen := by
  rw [Region.bufLen, h.count, h.stride]
  rfl

theorem RegionAlike.setEntry (off : Nat) (he : EntryAlike tenant e e') :
    RegionAlike tenant (r.setEntry off e) (r'.setEntry off e') := by
  refine { h with entry := fun off' => ?_ }
  show EntryAlike tenant (update r.buf off e off') (update r'.buf off e' off')
  by_cases ho : off' = off
  · subst ho
    rw [update_self, update_self]
    exact he
  · rw [update_of_ne ho, update_of_ne ho]
    exact h.entry off'

theorem RegionAlike.resize (n : Nat) : RegionAlike tenant (r.resize n) (r'.resize n) := by
  refine ⟨rfl, h.stride, h.writeSlot, h.maxCount, h.minCount, fun off => ?_⟩
  show EntryAlike tenant (if off < min r.count n * r.stride then r.buf off else zero)
    (if off < min r'.count n * r'.stride then r'.buf off else zero)
  rw [h.count, h.stride]
  split
  · exact h.entry off
  · exact EntryAlike.refl tenant _

theorem RegionAlike.ready : RegionAlike tenant r.ready r'.ready := by
  rw [Region.ready, Region.ready, h.writeSlot, h.count, h.maxCount]
  split
  · rw [Region.grow, Region.grow, h.count, h.maxCount]
    exact h.resize _
  · exact h

theorem RegionAlike.next : r'.nextOff = r.nextOff ∧ r'.nextGen = r.nextGen := by
  rw [Region.nextOff, Region.physSlot, Region.nextGen, h.count, h.maxCount, h.writeSlot, h.stride]
  exact ⟨rfl, rfl⟩

theorem RegionAlike.updateXSlotPtr (off : Nat) (sp : Word) :
    RegionAlike tenant (r.updateXSlotPtr off sp) (r'.updateXSlotPtr off sp) := by
  rw [Region.updateXSlotPtr, Region.updateXSlotPtr, h.bufLen]
  split
  · exact h
  · have he := h.entry off
    exact h.setEntry off { he with xSlotPtr := rfl }

/-- The bytes of a value do not decide where it goes. -/
theorem RegionAlike.write (keyMid : UInt8) (hv : ValueAlike tenant tenantID v v') (ttl : BitVec 32)
    (canRecycle : Word → Nat → BitVec 8 → Bool) (now : BitVec 32) :
    (r'.write tenantID keyMid v' ttl canRecycle now).1
        = (r.write tenantID keyMid v ttl canRecycle now).1
      ∧ RegionAlike tenant (r.write tenantID keyMid v ttl canRecycle now).2
          (r'.write tenantID keyMid v' ttl canRecycle now).2 := by
  have hr := h.ready
  have he := hr.entry r.ready.nextOff
  obtain ⟨ho, hg⟩ := hr.next
  rw [Region.write, Region.write, Region.capacity, Region.capacity, h.stride, ← hv.1]
  split
  · exact ⟨rfl, h⟩
  dsimp only
  rw [ho, hg, hr.count, hr.maxCount, he.expiry, he.xSlotPtr]
  split
  · exact ⟨rfl, hr⟩
  rw [he.tenantID, he.valueLen]
  refine ⟨rfl, ?_⟩
  have hn : EntryAlike tenant
      (newEntry r.ready (r.ready.buf r.ready.nextOff) tenantID keyMid v ttl now)
      (newEntry r'.ready (r'.ready.buf r.ready.nextOff) tenantID keyMid v' ttl now) := by
    refine ⟨rfl, hg, rfl, rfl, congrArg (· % 65536) hv.1.symm, rfl, fun ht => ?_⟩
    have hs := hv.2 ht
    subst hs
    show (v ++ _).take (v.length % 65536) = (v ++ _).take (v.length % 65536)
    rw [take_append_of_le_length (by omega), take_append_of_le_length (by omega)]
  have hst := hr.setEntry r.ready.nextOff hn
  rw [Region.store, Region.store, ho]
  exact { hst with writeSlot := congrArg (· + 1) hr.writeSlot }

theorem RegionAlike.tryShrink (pct : Nat) (now : BitVec 32) :
    RegionAlike tenant (r.tryShrink pct now) (r'.tryShrink pct now) := by
  have ha : r'.active now = r.active now := by
    funext slot
    rw [Region.active, h.stride, (h.entry (slot * r.stride)).expiry]
    rfl
  rw [Region.tryShrink, Region.tryShrink, h.count, h.maxCount, h.minCount, ha, h.writeSlot]
  split
  · exact h
  dsimp only
  split
  · exact h
  split
  · exact h
  have hs := h.resize (r.maxCount / 2)
  exact ⟨hs.count, hs.stride, rfl, rfl, hs.minCount, hs.entry⟩

/-- Both reads miss, or both give the value of the slot. -/
theorem RegionAlike.read (off : Nat) (gen2b : BitVec 8)
    (exp : BitVec 16) (keyMid : UInt8) (now : BitVec 32) :
    (r.read off gen2b exp keyMid now = none ∧ r'.read off gen2b exp keyMid now = none)
    ∨ (r.entryAt off gen2b = some (r.buf off)
      ∧ r.read off gen2b exp keyMid now = some (r.buf off).value
      ∧ r'.read off gen2b exp keyMid now = some (r'.buf off).value) := by
  have he := h.entry off
  have hrd : r'.read off gen2b exp keyMid now
      = (r.read off gen2b exp keyMid now).map (fun _ => (r'.buf off).value) := by
    rw [Region.read, Region.read, h.bufLen]
    dsimp only
    rw [he.gen, he.expiry, he.keyMid, he.valueLen]
    split
    · rfl
    split
    · rfl
    split
    · rfl
    split
    · rfl
    split
    · rfl
    split
    · rfl
    rfl
  cases hr : r.read off gen2b exp keyMid now with
  | none =>
    rw [hr] at hrd
    exact .inl ⟨rfl, hrd⟩
  | some v =>
  rw [hr] at hrd
  obtain ⟨e, hen, hv⟩ := Region.read_entryAt hr
  obtain ⟨_, _, rfl⟩ := Region.entryAt_eq_some.mp hen
  exact .inr ⟨hen, by rw [hv], hrd⟩

end

end Region

/-! ## The manager -/

section Manager

variable {cm cm' : CacheManager B}

section

variable (h : ManagerAlike bk tenant cm cm')
include h

theorem ManagerAlike.setRegion (c t : Nat) (hr : RegionAlike tenant r r') :
    ManagerAlike bk tenant (cm.setRegion c t r) (cm'.setRegion c t r') := by
  refine { h with regions := fun i j => ?_ }
  show RegionAlike tenant (if i = c ∧ j = t then r else cm.regions i j)
    (if i = c ∧ j = t then r' else cm'.regions i j)
  split
  · exact hr
  · exact h.regions i j

theorem ManagerAlike.setIdx (lane : Lane) (idx : InlineIndex) :
    ManagerAlike bk tenant (cm.setIdx lane idx) (cm'.setIdx lane idx) := by
  refine { h with idx := ?_ }
  show (fun l => if l = lane then idx else cm'.idx l) = fun l => if l = lane then idx else cm.idx l
  rw [h.idx]

theorem ManagerAlike.addUsage (tenantID : BitVec 16)
    (n : Nat) : ManagerAlike bk tenant (cm.addUsage tenantID n) (cm'.addUsage tenantID n) := by
  refine { h with tenantUsage := ?_ }
  rw [CacheManager.addUsage, CacheManager.addUsage, h.tenantUsage]

theorem ManagerAlike.settle
    (old : Option (BitVec 16 × Nat)) : ManagerAlike bk tenant (cm.settle old) (cm'.settle old) := by
  cases old with
  | none => exact h
  | some p =>
    refine { h with tenantUsage := ?_ }
    rw [CacheManager.settle, CacheManager.settle, subUsage, subUsage,
      h.tenantUsage]

theorem ManagerAlike.publish (key : Key) (w : Written) (expiry : BitVec 32) (c t : Nat) (ns : Int) :
    ManagerAlike bk tenant (cm.publish h1 key w expiry c t ns)
      (cm'.publish h1 key w expiry c t ns) := by
  rw [CacheManager.publish, CacheManager.publish, backRef, backRef, h.idx]
  split
  · exact h.setIdx _ _
  · have hi := h.setIdx (tagOf h1 key).1 ((cm.idx (tagOf h1 key).1).set (tagOf h1 key).2
      (slabPtr w expiry c t) ns)
    exact hi.setRegion c t ((hi.regions c t).updateXSlotPtr _ _)

end

variable {key : Key} {v v' : Bytes}

theorem ManagerAlike.slabPut (h : ManagerAlike bk tenant cm cm') (h1 : Key → Word)
    (hv : ValueAlike tenant key.tenantID v v') (ttl : BitVec 32) (now : Clock) :
    (cm'.slabPut h1 key v' ttl now).1 = (cm.slabPut h1 key v ttl now).1
      ∧ ManagerAlike bk tenant (cm.slabPut h1 key v ttl now).2
          (cm'.slabPut h1 key v' ttl now).2 := by
  have hc : cm'.selectSizeClass v'.length = cm.selectSizeClass v.length := by
    rw [selectSizeClass, h.sizeClasses, ← hv.1]
    rfl
  have ht : cm'.selectTTLTier ttl = cm.selectTTLTier ttl := by
    rw [selectTTLTier, h.ttlTiers]
    rfl
  have hrc : cm'.canRecycle = cm.canRecycle := by
    funext sp off gen
    rw [canRecycle, h.idx]
    rfl
  rw [CacheManager.slabPut, CacheManager.slabPut, hc, ht, hrc, ← hv.1]
  obtain ⟨hs, hr⟩ := (h.regions (cm.selectSizeClass v.length)
    (cm.selectTTLTier ttl)).write (keyMidOf key) hv ttl cm.canRecycle now.write
  generalize hw : (cm.regions (cm.selectSizeClass v.length) (cm.selectTTLTier ttl)).write
    key.tenantID (keyMidOf key) v ttl cm.canRecycle now.write = w at hs hr
  have hst := h.setRegion (cm.selectSizeClass v.length) (cm.selectTTLTier ttl) hr
  rw [hs]
  cases w.1 with
  | none => exact ⟨rfl, hst⟩
  | some x => exact ⟨rfl, ((hst.settle x.old).publish key x _ _ _ now.ns).addUsage _ _⟩

/-! ## Jobs -/

section Jobs

variable {job job' : WriteJob} {jobs jobs' : List WriteJob} {flying flying' : List FlyingJob}

theorem CacheBackend.Oblivious.write (hbk : bk.Oblivious) (hb : BackendAlike bk tenant b b')
    (hj : JobAlike tenant job job') (twin : Bool) (torn : Torn) :
    (bk.write b' job' twin torn).1 = (bk.write b job twin torn).1
      ∧ BackendAlike bk tenant (bk.write b job twin torn).2 (bk.write b' job' twin torn).2 := by
  rw [CacheBackend.write, CacheBackend.write, hj.key, hj.expiry]
  split
  · exact hbk.set _ hb (ValueAlike.refl ..)
  · exact hbk.set _ hb hj.value

theorem jobsAlike_keys (h : Forall₂ (JobAlike tenant) jobs jobs') :
    jobs'.map WriteJob.key = jobs.map WriteJob.key := by
  induction h with
  | nil => rfl
  | cons hj _ ih => rw [map_cons, map_cons, hj.key, ih]

theorem flyingAlike_any (h : Forall₂ (FlyingAlike tenant) flying flying') (key : Key) :
    flying'.any (fun j => j.job.key == key) = flying.any (fun j => j.job.key == key) := by
  induction h with
  | nil => rfl
  | cons hj _ ih => rw [any_cons, any_cons, hj.job.key, ih]

theorem FlyingAlike.meet (h : FlyingAlike tenant j j') (key : Key) :
    FlyingAlike tenant (j.meet key) (j'.meet key) := by
  refine ⟨h.job, ?_⟩
  rw [FlyingJob.meet, FlyingJob.meet, h.twin, h.job.key]

theorem JobAlike.rewrite (h : JobAlike tenant job job') (key value : Bytes) :
    JobAlike tenant (job.rewrite key value) (job'.rewrite key value) := by
  refine ⟨?_, h.expiry, ValueAlike.refl ..⟩
  rw [WriteJob.rewrite, WriteJob.rewrite, h.key]

theorem forall₂_modify {R : α → α → Prop} {f : α → α} {l l' : List α} (h : Forall₂ R l l')
    (hf : ∀ a a', R a a' → R (f a) (f a')) (n : Nat) :
    Forall₂ R (l.modify n f) (l'.modify n f) := by
  induction h generalizing n with
  | nil =>
    rw [modify_nil]
    exact .nil
  | cons ha h ih =>
    cases n with
    | zero => exact .cons (hf _ _ ha) h
    | succ n => exact .cons ha (ih n)

end Jobs

section

variable (hbk : bk.Oblivious) (h : ManagerAlike bk tenant cm cm')
  (hv : ValueAlike tenant key.tenantID v v')
include hbk h hv

theorem ManagerAlike.enqueueWrite (expiry : BitVec 32) (torn : Torn) :
    (cm'.enqueueWrite bk key v' expiry torn).1 = (cm.enqueueWrite bk key v expiry torn).1
      ∧ ManagerAlike bk tenant (cm.enqueueWrite bk key v expiry torn).2
          (cm'.enqueueWrite bk key v' expiry torn).2 := by
  have hj : JobAlike tenant ⟨key, v, expiry⟩ ⟨key, v', expiry⟩ := ⟨rfl, rfl, hv⟩
  rw [CacheManager.enqueueWrite, CacheManager.enqueueWrite, h.asyncQueue.length_eq]
  split
  · refine ⟨rfl, { h with asyncQueue := ?_ }⟩
    exact rel_append h.asyncQueue (.cons hj .nil)
  · rw [flyingAlike_any h.inFlight]
    obtain ⟨hok, hb⟩ := hbk.write h.backend hj
      (cm.inFlight.any (fun j => j.job.key == key)) torn
    refine ⟨hok, { h with backend := hb, inFlight := ?_ }⟩
    exact rel_map (fun _ _ hj => hj.meet key) h.inFlight

theorem ManagerAlike.put (ttl : BitVec 32) (now : Clock) :
    (cm'.put bk h1 key v' ttl now).1 = (cm.put bk h1 key v ttl now).1
      ∧ ManagerAlike bk tenant (cm.put bk h1 key v ttl now).2
          (cm'.put bk h1 key v' ttl now).2 := by
  have hqt : cm'.overQuota key.tenantID (entryHeaderSize + v'.length)
      = cm.overQuota key.tenantID (entryHeaderSize + v.length) := by
    rw [overQuota, h.tenantLimit, h.tenantUsage, ← hv.1]
    rfl
  rw [CacheManager.put, CacheManager.put, hqt]
  split
  · exact ⟨rfl, h⟩
  dsimp only
  obtain ⟨hok, hq⟩ := h.enqueueWrite hbk hv (expiryAt now.put ttl) now.torn
  obtain ⟨hsm, hs⟩ := hq.slabPut h1 hv ttl now
  rw [hsm, hok]
  cases ((cm.enqueueWrite bk key v (expiryAt now.put ttl) now.torn).2.slabPut h1 key v ttl
    now).1 with
  | none | some ptr => exact ⟨rfl, hs⟩

end

/-- Both reads from memory miss, or both find the same slot. -/
theorem ManagerAlike.slabGet (h : ManagerAlike bk tenant cm cm') (h1 : Key → Word) (key : Key)
    (now : BitVec 32) :
    (cm.slabGet h1 key now = none ∧ cm'.slabGet h1 key now = none)
    ∨ ∃ raw e e', (cm.idx (tagOf h1 key).1).get (tagOf h1 key).2 = some raw
      ∧ cm.entryAt raw = some e ∧ EntryAlike tenant e e'
      ∧ cm.slabGet h1 key now = some e.value ∧ cm'.slabGet h1 key now = some e'.value := by
  rw [CacheManager.slabGet, CacheManager.slabGet, h.idx]
  cases hg : (cm.idx (tagOf h1 key).1).get (tagOf h1 key).2 with
  | none => exact .inl ⟨rfl, rfl⟩
  | some raw =>
  dsimp only
  rw [h.sizeClasses, h.ttlTiers]
  split
  · have hrg := h.regions (place raw).1 (place raw).2.1
    rcases hrg.read (place raw).2.2 (unpack raw).1 (unpack raw).2.1 (keyMidOf key) now with
      hm | ⟨he, hr, hr'⟩
    · exact .inl hm
    · exact .inr ⟨raw, _, _, rfl, he, hrg.entry _, hr, hr'⟩
  · exact .inl ⟨rfl, rfl⟩

theorem ManagerAlike.drain (h : ManagerAlike bk tenant cm cm') :
    ManagerAlike bk tenant cm.drain cm'.drain := by
  have he : cm'.inFlight.isEmpty = cm.inFlight.isEmpty := by
    rw [Bool.eq_iff_iff, List.isEmpty_iff, List.isEmpty_iff, ← length_eq_zero_iff,
      ← length_eq_zero_iff, h.inFlight.length_eq]
  rw [CacheManager.drain, CacheManager.drain, he, jobsAlike_keys h.asyncQueue]
  split
  · refine { h with asyncQueue := .nil, inFlight := ?_ }
    refine rel_map (fun job job' hj => ⟨hj, ?_⟩) h.asyncQueue
    rw [hj.key]
  · exact h

theorem ManagerAlike.flush (hbk : bk.Oblivious) (h : ManagerAlike bk tenant cm cm') (n : Nat)
    (torn : Torn) : ManagerAlike bk tenant (cm.flush bk n torn) (cm'.flush bk n torn) := by
  have hl := h.inFlight.length_eq
  rw [CacheManager.flush, CacheManager.flush]
  by_cases hn : n < cm.inFlight.length
  · have hn' : n < cm'.inFlight.length := by
      rw [← hl]
      exact hn
    have hj : FlyingAlike tenant cm.inFlight[n] cm'.inFlight[n] := h.inFlight.get hn hn'
    rw [getElem?_eq_getElem hn, getElem?_eq_getElem hn']
    dsimp only
    rw [hj.twin, eraseIdx_eq_take_drop_succ, eraseIdx_eq_take_drop_succ]
    exact { h with
      inFlight := rel_append (forall₂_take n h.inFlight) (forall₂_drop (n + 1) h.inFlight)
      backend := (hbk.write h.backend hj.job _ torn).2 }
  · have hn' : ¬ n < cm'.inFlight.length := by
      rw [← hl]
      exact hn
    rw [getElem?_eq_none (Nat.not_lt.mp hn), getElem?_eq_none (Nat.not_lt.mp hn')]
    exact h

theorem ManagerAlike.rewrite (h : ManagerAlike bk tenant cm cm') (flying : Bool) (n : Nat)
    (key value : Bytes) :
    ManagerAlike bk tenant (cm.rewrite flying n key value) (cm'.rewrite flying n key value) := by
  rw [CacheManager.rewrite, CacheManager.rewrite]
  split
  · have hm := forall₂_modify (f := fun j => { j with job := j.job.rewrite key value }) h.inFlight
      (fun _ _ hj => ⟨hj.job.rewrite key value, hj.twin⟩) n
    exact { h with inFlight := hm }
  · have hm := forall₂_modify h.asyncQueue (fun _ _ hj => hj.rewrite key value) n
    exact { h with asyncQueue := hm }

theorem ManagerAlike.incrFresh (hbk : bk.Oblivious) (h : ManagerAlike bk tenant cm cm')
    (hd : key.tenantID = tenant → delta = delta') (ttl : BitVec 32) (now : Clock) :
    ManagerAlike bk tenant (cm.incrFresh bk h1 key delta ttl now).2
      (cm'.incrFresh bk h1 key delta' ttl now).2 := by
  rw [incrFresh_snd, incrFresh_snd]
  refine (h.put hbk ⟨?_, fun ht => ?_⟩ ttl now).2
  · rw [putUint64_length, putUint64_length]
  · rw [hd ht]

theorem ManagerAlike.sweepSlot (h : ManagerAlike bk tenant cm cm') (ci ti : Nat) (now : BitVec 32)
    (slot : Nat) : ManagerAlike bk tenant (cm.sweepSlot ci ti now slot)
      (cm'.sweepSlot ci ti now slot) := by
  have hr := h.regions ci ti
  have he := hr.entry (slot * (cm.regions ci ti).stride)
  rw [CacheManager.sweepSlot, CacheManager.sweepSlot]
  dsimp only
  rw [hr.stride, he.expiry, he.xSlotPtr, he.gen, h.idx]
  split
  · exact h
  · split
    · exact h.setIdx _ _
    · exact h

theorem ManagerAlike.sweepBatch (h : ManagerAlike bk tenant cm cm') (ci ti : Nat)
    (now : BitVec 32) : ManagerAlike bk tenant (cm.sweepBatch ci ti now)
      (cm'.sweepBatch ci ti now) := by
  rw [CacheManager.sweepBatch, CacheManager.sweepBatch, (h.regions ci ti).count, h.cleanSlots]
  dsimp only
  split
  · exact h
  generalize map _ (range cleanerBatchSize) = slots
  have hs : ManagerAlike bk tenant (slots.foldl (CacheManager.sweepSlot ci ti now) cm)
      (slots.foldl (CacheManager.sweepSlot ci ti now) cm') :=
    foldl_rel h fun slot _ _ _ h => h.sweepSlot ci ti now slot
  refine { hs with cleanSlots := ?_ }
  rw [hs.cleanSlots]

end Manager

/-! ## Operations -/

/-- The same operation, but for the bytes another tenant stores. -/
inductive OpAlike (tenant : BitVec 16) : CacheOp → CacheOp → Prop where
  | put (key : Key) {v v' : Bytes} (ttl : BitVec 32) (now : Clock) :
      ValueAlike tenant key.tenantID v v' →
        OpAlike tenant (.put key v ttl now) (.put key v' ttl now)
  | incr (key : Key) {delta delta' : Word} (ttl : BitVec 32) (now : Clock) :
      (key.tenantID = tenant → delta = delta') →
      OpAlike tenant (.incr key delta ttl now) (.incr key delta' ttl now)
  | same (op : CacheOp) : OpAlike tenant op op

section Steps

variable {K : Set Key} {Seen : Key → Bytes → Prop} {cm cm' cm1 cm1' : CacheManager B}

section

variable (hbk : bk.Oblivious) (hK : Set.InjOn (tagOf h1) K) (hiso : Isolated bk h1 K Seen cm)
  (h : ManagerAlike bk tenant cm cm')
include hbk hK hiso h

/-- **Adding to a counter keeps managers alike** when the counter is the key's own. -/
theorem ManagerAlike.incr (hk : key ∈ K)
    (hd : key.tenantID = tenant → delta = delta') (hf : IncrFits h1 cm key delta ttl now)
    (hr : cm.incr bk h1 key delta ttl now = some r)
    (hr' : cm'.incr bk h1 key delta' ttl now = some r') : ManagerAlike bk tenant r.2 r'.2 := by
  have hp : cm'.incrPtr h1 key = cm.incrPtr h1 key := by
    rw [incrPtr, h.idx, h.sizeClasses, h.ttlTiers]
    rfl
  have hen : ∀ raw, EntryAlike tenant
      ((cm.regions (place raw).1 (place raw).2.1).buf (place raw).2.2)
      ((cm'.regions (place raw).1 (place raw).2.1).buf (place raw).2.2) :=
    fun raw => (h.regions _ _).entry _
  have hcn : ∀ raw, isCounter
      ((cm'.regions (place raw).1 (place raw).2.1).buf (place raw).2.2) now.read
      = isCounter
        ((cm.regions (place raw).1 (place raw).2.1).buf (place raw).2.2) now.read := by
    intro raw
    rw [isCounter, isCounter, (hen raw).expiry, (hen raw).valueLen]
  rcases incr_cases hr with
    ⟨rfl, hno, _⟩ | ⟨raw, e, v, hrw, hlt, rfl, hc, hg, rfl, rfl⟩
  · rcases incr_cases hr' with ⟨rfl, _, _⟩ | ⟨raw, e, v, hrw, _, rfl, hc, _, _, _⟩
    · exact h.incrFresh hbk hd ttl now
    · rw [hp] at hrw
      rw [hcn raw, hno raw hrw] at hc
      cases hc
  rcases incr_cases hr' with
    ⟨rfl, hno, _⟩ | ⟨raw', e', v', hraw', _, rfl, _, _, rfl, rfl⟩
  · have hno := hno raw (hp.trans hrw)
    rw [hcn raw, hc] at hno
    cases hno
  cases some.inj ((hp.symm.trans hraw').symm.trans hrw)
  have he := hen raw
  obtain ⟨⟨owner, ho⟩, _⟩ := hiso
  -- the counter's slot is of the key's own tenant
  obtain ⟨_, htn, _⟩ := ho.entry hK hk (InlineIndex.get_has (isFree_tagOf h1 key) (incrPtr_get hrw))
    (Region.entryAt_eq_some.mpr ⟨hlt, hg hf, rfl⟩)
  rw [isCounter, Bool.and_eq_true, beq_iff_eq] at hc
  generalize (cm.regions (place raw).1 (place raw).2.1).buf (place raw).2.2 = e at *
  refine h.setRegion _ _ ((h.regions _ _).setEntry _ ?_)
  refine { he with value := fun ht => ?_ }
  have ht : e.tenantID = tenant := ht
  have hvl := he.value ht
  rw [value, value, he.valueLen, hc.2] at hvl
  rw [SlabEntry.setCounter_value hc.2, SlabEntry.setCounter_value (he.valueLen.trans hc.2),
    hvl, hd (htn.symm.trans ht)]

/-- **Every step keeps managers alike.** -/
theorem ManagerAlike.step
    (hop : OpAlike tenant op op') (hf : op.Fits bk h1 K cm) (hst : cm.step bk h1 op = some cm1)
    (hstep' : cm'.step bk h1 op' = some cm1') : ManagerAlike bk tenant cm1 cm1' := by
  cases hop with
  | put key ttl now hv =>
    cases hst
    cases hstep'
    exact (h.put hbk hv ttl now).2
  | incr key ttl now hd =>
    obtain ⟨r, hr, rfl⟩ := map_eq_some_iff.mp hst
    obtain ⟨r', hr', rfl⟩ := map_eq_some_iff.mp hstep'
    exact h.incr hbk hK hiso hf.1 hd hf.2 hr hr'
  | same =>
    cases op with
    | put key v ttl now =>
      cases hst
      cases hstep'
      exact (h.put hbk (ValueAlike.refl ..) ttl now).2
    | incr key delta ttl now =>
      obtain ⟨r, hr, rfl⟩ := map_eq_some_iff.mp hst
      obtain ⟨r', hr', rfl⟩ := map_eq_some_iff.mp hstep'
      exact h.incr hbk hK hiso hf.1 (fun _ => rfl) hf.2 hr hr'
    | get key now =>
      cases hst
      cases hstep'
      rw [CacheManager.get, CacheManager.get]
      rcases h.slabGet h1 key now.read with ⟨hn, hn'⟩ | ⟨_, _, _, _, _, _, hs, hs'⟩
      · rw [hn, hn']
        obtain ⟨hx, hv⟩ := h.backend now.backend key
        cases hb : bk.get cm.backend now.backend key with
        | none =>
          rw [hb, map_none, map_eq_none_iff] at hx
          rw [hx]
          exact h
        | some p =>
        rw [hb] at hx
        obtain ⟨p', hp', he⟩ := map_eq_some_iff.mp hx
        rw [hp']
        dsimp only
        rw [he]
        exact (h.put hbk (hv _ _ _ _ hb hp') _ now).2
      · rw [hs, hs']
        exact h
    | invalidate key ns =>
      cases hst
      cases hstep'
      rw [invalidate, invalidate, h.idx]
      exact { h.setIdx (tagOf h1 key).1
        ((cm.idx (tagOf h1 key).1).delete (tagOf h1 key).2 ns).2 with
        backend := hbk.delete key h.backend }
    | deleteTenant tenantID =>
      cases hst
      cases hstep'
      refine { h with backend := hbk.deleteTenant tenantID h.backend, tenantUsage := ?_ }
      rw [deleteTenant, deleteTenant, h.tenantUsage]
    | sweep ci ti now =>
      cases hst
      cases hstep'
      exact h.sweepBatch ci ti now
    | shrink ci ti now =>
      cases hst
      cases hstep'
      rw [tryShrink, tryShrink, h.shrinkThreshold]
      exact h.setRegion ci ti ((h.regions ci ti).tryShrink _ now)
    | drain =>
      cases hst
      cases hstep'
      exact h.drain
    | flush n torn =>
      cases hst
      cases hstep'
      exact h.flush hbk n torn
    | rewrite flying n key value =>
      cases hst
      cases hstep'
      exact h.rewrite flying n key value
    | backendSweep now =>
      cases hst
      cases hstep'
      exact { h with backend := hbk.sweep now h.backend }

end

end Steps

end Rah.Cache
