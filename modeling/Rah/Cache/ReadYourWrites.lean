import Rah.Cache.Tenants
import Rah.Lib.Naming

/-!
# Reading your writes

A value that was put is the one that is read, or none is. Three copies of it may be around: the
slab entry the index leads to, a job in the queue, and the backend's. `Fresh` says that each of
them is the owed value as far as a read can come to it. It is kept by every operation that is
orderly (`CacheOp.Orderly`): a put whose value finds no place in the slab must not leave an older
entry of its key behind, no write may overtake a job of its key, and a read may not fall back on
the backend while such a job is waiting.
-/

namespace Rah.Cache

open Rah.Lib List Function Option
open CacheManager (entryAt setIdx_forall)

/-! ## The index -/

section Index

variable {idx : InlineIndex} {tag : Word}

theorem IndexInv.agrees_get (h : IndexInv idx) : Agrees idx idx.get := fun _ ht v => h.get_iff ht v

/-- After a write the tag has no other entry. -/
theorem IndexInv.set_has (h : IndexInv idx) (hl : isFree tag = false) (hr : idx.pool.Room)
    (hcl : Clear idx tag) (val : Word) (now : Int) : IndexInv (idx.set tag val now)
      ∧ ∀ v, (idx.set tag val now).Has tag v → v = val := by
  obtain ⟨hi, ha⟩ := h.set h.agrees_get hl hr hcl val now
  refine ⟨hi, fun v hv => ?_⟩
  have hm := (ha tag hl v).mpr hv.2
  by_cases hno : NoRoom idx tag
  · -- without room there was no entry, and there is none now
    rw [if_pos hno] at hm
    obtain ⟨a, pos, i, hc⟩ := (h.get_iff hl v).mp hm
    exact absurd (congrArg ISlot.tag hc) (h.absent hl (fun d hd i => (hno d hd i).2) a pos i)
  · rw [if_neg hno, update_self] at hm
    exact (some.inj hm).symm

theorem IndexInv.delete_inv (h : IndexInv idx) (hl : isFree tag = false) (now : Int) :
    IndexInv (idx.delete tag now).2 :=
  (h.delete h.agrees_get hl now).1

theorem IndexInv.tryTombstone (h : IndexInv idx)
    (ht : idx.tryTombstone tag physOff gen2b = some idx') : IndexInv idx' := by
  rw [InlineIndex.tryTombstone, map_eq_some_iff] at ht
  obtain ⟨p', hp', rfl⟩ := ht
  obtain ⟨d, i, hne, rfl⟩ := tombLoop_some idx.shards (idx.shardOf tag) (iMaxDepth + 1) 0 hp'
  obtain ⟨hi, hc⟩ := h.sound.pool.bury hne i
  exact ⟨⟨hi, h.sound.filed.bury hc⟩, h.rooted⟩

end Index

variable {B : Type} {bk : CacheBackend B} {h1 : Key → Word} {K : Set Key}
  {owed : Key → Option Bytes} {cm cm' : CacheManager B}

/-! ## The queue and the backend -/

/-- The jobs of a key that are waiting. -/
def pending (queue : List WriteJob) (key : Key) : List WriteJob :=
  queue.filter (fun job => job.key == key)

/-- The last job of the key has the value; without a job the backend has no other. -/
def Settles (bk : CacheBackend B) (b : B) (queue : List WriteJob) (key : Key) (v : Bytes) : Prop :=
  (∀ job, (pending queue key).getLast? = some job → job.value = v)
    ∧ (pending queue key = [] → ∀ w, bk.Has b key w → w = v)

section Store

variable {b : B} {queue : List WriteJob} {key key' : Key} {v value : Bytes} {expiry : BitVec 32}

theorem pending_append (queue queue' : List WriteJob) (key : Key) :
    pending (queue ++ queue') key = pending queue key ++ pending queue' key :=
  filter_append ..

theorem pending_eq_nil : pending queue key = [] ↔ ∀ job ∈ queue, job.key ≠ key := by
  rw [pending, filter_eq_nil_iff]
  exact forall₂_congr fun job _ => by rw [beq_iff_eq]

theorem pending_append_self : pending (queue ++ [⟨key, value, expiry⟩]) key
      = pending queue key ++ [⟨key, value, expiry⟩] := by
  rw [pending, filter_append]
  congr 1
  exact filter_cons_of_pos (beq_self_eq_true key)

theorem pending_append_ne (h : key' ≠ key) : pending (queue ++ [⟨key, value, expiry⟩]) key'
    = pending queue key' := by
  rw [pending, filter_append, filter_cons_of_neg (by simpa using Ne.symm h)]
  exact append_nil _

/-- A job that joins the queue is the last one. -/
theorem Settles.enqueue_self (bk : CacheBackend B) (b : B) (queue : List WriteJob) (key : Key)
    (value : Bytes) (expiry : BitVec 32) :
    Settles bk b (queue ++ [⟨key, value, expiry⟩]) key value := by
  rw [Settles, pending_append_self]
  refine ⟨fun job hj => ?_, fun hn => absurd hn (by simp)⟩
  rw [getLast?_concat] at hj
  rw [← some.inj hj]

theorem Settles.enqueue_ne (h : Settles bk b queue key' v) (hne : key' ≠ key) :
    Settles bk b (queue ++ [⟨key, value, expiry⟩]) key' v := by
  rw [Settles, pending_append_ne hne]
  exact h

variable (hbk : bk.Lawful) (hok : ∀ b key v expiry, (bk.set b key v expiry).1 = true)

include hbk hok

/-- After a write that succeeded the backend has that value and no other. -/
theorem CacheBackend.Lawful.set_self (hw : bk.Has (bk.set b key value expiry).2 key w) :
    w = value := by
  rcases hbk.set hw with ⟨_, hv⟩ | ⟨hf, _⟩
  · exact hv
  · rw [hok] at hf
    exact absurd (hf rfl) (by decide)

omit hok in
theorem CacheBackend.Lawful.set_ne (hne : key' ≠ key)
    (hw : bk.Has (bk.set b key value expiry).2 key' w) : bk.Has b key' w := by
  rcases hbk.set hw with ⟨heq, _⟩ | ⟨_, hw⟩
  · exact absurd heq hne
  · exact hw

theorem Settles.set_self (hn : pending queue key = []) :
    Settles bk (bk.set b key value expiry).2 queue key value := by
  rw [Settles, hn]
  exact ⟨nofun, fun _ w hw => hbk.set_self hok hw⟩

omit hok in
theorem Settles.set_ne (h : Settles bk b queue key' v) (hne : key' ≠ key) :
    Settles bk (bk.set b key value expiry).2 queue key' v :=
  ⟨h.1, fun hn w hw => h.2 hn w (hbk.set_ne hne hw)⟩

/-- **A job goes to the backend**, and none of its key was before it. -/
theorem Settles.flush (h : Settles bk b (queue ++ job :: queue') key v)
    (hn : ∀ j ∈ queue, j.key ≠ job.key) :
    Settles bk (bk.set b job.key job.value job.expiry).2 (queue ++ queue') key v := by
  by_cases hky : job.key = key
  · subst hky
    have hc : pending (job :: queue') job.key = job :: pending queue' job.key :=
      filter_cons_of_pos (beq_self_eq_true _)
    have hp : pending queue job.key = [] := pending_eq_nil.mpr hn
    rw [Settles, pending_append, hp, hc, nil_append] at h
    cases hr : pending queue' job.key with
    | nil =>
      -- it was the last one, so its value is the owed one
      rw [hr] at h
      rw [← h.1 job rfl]
      exact Settles.set_self hbk hok (by rw [pending_append, hp, hr]; rfl)
    | cons j js =>
      rw [hr] at h
      rw [Settles, pending_append, hp, hr, nil_append]
      exact ⟨h.1, nofun⟩
  · have hc : pending (job :: queue') key = pending queue' key :=
      filter_cons_of_neg (by simpa using hky)
    rw [Settles, pending_append, hc, ← pending_append] at h
    exact Settles.set_ne hbk h (Ne.symm hky)

end Store

/-! ## The invariant -/

/-- Whatever the index leads to for a key is the value owed to it. -/
structure Shown (h1 : Key → Word) (K : Set Key) (owed : Key → Option Bytes)
    (cm : CacheManager B) : Prop where
  owned : ∃ owner, Owned h1 K (fun _ _ => True) owner cm
  index : ∀ lane, IndexInv (cm.idx lane)
  known : ∀ key v, owed key = some v → key ∈ K
  slab : ∀ key v, owed key = some v → ∀ raw e,
    (cm.idx (tagOf h1 key).1).Has (tagOf h1 key).2 raw → cm.entryAt raw = some e → e.value = v

/-- Every copy of a value that a read can come to is the one owed. -/
structure Fresh (bk : CacheBackend B) (h1 : Key → Word) (K : Set Key) (owed : Key → Option Bytes)
    (cm : CacheManager B) : Prop where
  shown : Shown h1 K owed cm
  store : ∀ key v, owed key = some v → Settles bk cm.backend cm.waiting key v
  unmixed : Unmixed cm

theorem Shown.congr (h : Shown h1 K owed cm) (hi : cm'.idx = cm.idx)
    (hr : cm'.regions = cm.regions) (hc : cm'.sizeClasses = cm.sizeClasses)
    (ht : cm'.ttlTiers = cm.ttlTiers) : Shown h1 K owed cm' := by
  obtain ⟨owner, ho⟩ := h.owned
  refine ⟨⟨owner, ho.congr hi hr hc ht⟩, by rw [hi]; exact h.index, h.known, ?_⟩
  intro key v hv raw e hh he
  rw [hi] at hh
  rw [entryAt, hr] at he
  exact h.slab key v hv raw e hh he

theorem Shown.mono (h : Shown h1 K owed cm) (hs : ∀ k v, owed' k = some v → owed k = some v) :
    Shown h1 K owed' cm :=
  ⟨h.owned, h.index, fun k v hv => h.known k v (hs k v hv),
    fun k v hv => h.slab k v (hs k v hv)⟩

/-- Fewer values are owed. -/
theorem Fresh.mono (h : Fresh bk h1 K owed cm) (hs : ∀ k v, owed' k = some v → owed k = some v) :
    Fresh bk h1 K owed' cm :=
  ⟨h.shown.mono hs, fun k v hv => h.store k v (hs k v hv), h.unmixed⟩

theorem of_update_none (hv : update owed key none k = some v) : k ≠ key ∧ owed k = some v := by
  obtain ⟨-, ⟨⟩⟩ | h := update_eq_some hv
  exact h

/-- The key has an entry in memory that may still be read. -/
def CacheManager.Live (h1 : Key → Word) (cm : CacheManager B) (key : Key) : Prop :=
  ∃ raw e, (cm.idx (tagOf h1 key).1).Has (tagOf h1 key).2 raw ∧ cm.entryAt raw = some e

/-- The write of a value leaves no second index entry, and overtakes no job of its key. -/
def WriteOrderly (h1 : Key → Word) (cm : CacheManager B) (key : Key) : Prop :=
  Clear (cm.idx (tagOf h1 key).1) (tagOf h1 key).2
    ∧ (cm.asyncQueue.length < asyncQueueSize ∨ pending cm.waiting key = [])

/-- The slab has no place for the value. -/
def CacheManager.Refuses (cm : CacheManager B) (value : Bytes) (ttl : BitVec 32) : Prop :=
  (cm.regions (cm.selectSizeClass value.length) (cm.selectTTLTier ttl)).Refuses value cm.canRecycle

section Put

variable {key : Key} {value : Bytes} {ttl : BitVec 32} {o : Option Bytes}

theorem Settles.enqueueWrite (hbk : bk.Lawful)
    (hok : ∀ b key v expiry, (bk.set b key v expiry).1 = true)
    (hs : ∀ key v, owed key = some v → Settles bk cm.backend cm.waiting key v)
    (hqf : QueueFits cm key)
    (hr : cm.asyncQueue.length < asyncQueueSize ∨ pending cm.waiting key = [])
    (ho : ∀ v, o = some v → v = value) (expiry : BitVec 32) (torn : Torn) :
    ∀ key' v, update owed key o key' = some v →
      Settles bk (cm.enqueueWrite bk key value expiry torn).2.backend
        (cm.enqueueWrite bk key value expiry torn).2.waiting key' v := by
  intro key' v hu
  have ha : CacheManager.waiting
      { cm with asyncQueue := cm.asyncQueue ++ [⟨key, value, expiry⟩] }
      = cm.waiting ++ [⟨key, value, expiry⟩] := (append_assoc ..).symm
  rcases CacheManager.enqueueWrite_eq bk hqf value expiry torn with ⟨_, _, heq⟩ | ⟨hf, heq⟩ <;>
    rw [heq] <;> obtain ⟨rfl, hv⟩ | ⟨hky, hv⟩ := update_eq_some hu
  · rw [ha, ho v hv]
    exact Settles.enqueue_self ..
  · rw [ha]
    exact (hs key' v hv).enqueue_ne hky
  · exact ho v hv ▸ Settles.set_self hbk hok (hr.resolve_left hf)
  · exact (hs key' v hv).set_ne hbk hky

theorem update_known (hkn : ∀ key v, owed key = some v → key ∈ K) (hk : key ∈ K) :
    ∀ key' v, update owed key o key' = some v → key' ∈ K := by
  intro key' v hv
  obtain ⟨rfl, -⟩ | ⟨-, hv⟩ := update_eq_some hv
  · exact hk
  · exact hkn key' v hv

/-- **A write to the slab shows the new value for its key, and the owed ones for the others.** -/
theorem Shown.slabPut (hK : Set.InjOn (tagOf h1) K) (h : Shown h1 K owed cm) (hk : key ∈ K)
    (hf : value.length
        ≤ (cm.regions (cm.selectSizeClass value.length) (cm.selectTTLTier ttl)).capacity →
      SlabFits h1 cm key value ttl)
    (hcl : Clear (cm.idx (tagOf h1 key).1) (tagOf h1 key).2)
    (ho : ∀ v, o = some v → v = value)
    (hst : cm.Refuses value ttl → ∀ v, o = some v → ∀ raw e,
      (cm.idx (tagOf h1 key).1).Has (tagOf h1 key).2 raw → cm.entryAt raw = some e → e.value = v)
    (now : Clock) :
    Shown h1 K (update owed key o) (cm.slabPut h1 key value ttl now).2 := by
  obtain ⟨owner, how⟩ := h.owned
  have hkn := update_known (o := o) h.known hk
  refine ⟨how.slabPut now hk trivial hf, ?_, hkn, ?_⟩ <;>
    rcases cm.slabPut_cases h1 key value ttl now with ⟨hrf, r, heq, hr⟩ | ⟨ptr, cm', heq, hs⟩ <;>
    rw [heq]
  · exact h.index
  · obtain ⟨w, _, _, hi⟩ := hs.index
    rw [hi]
    exact setIdx_forall (P := fun _ => IndexInv)
      ((h.index _).set_has (isFree_tagOf h1 key) (hf hs.fits).2.2.1 hcl _ now.ns).1 h.index
  · -- nothing was written: what is shown for the key is what was
    intro key' v hu raw e hh he
    have hok := how.regions (cm.selectSizeClass value.length) (cm.selectTTLTier ttl)
    have hkp : (cm.regions (cm.selectSizeClass value.length) (cm.selectTTLTier ttl)).Keeps r := by
      rcases hr with rfl | rfl
      · exact ⟨hok, fun off hin hlt => hin hlt, fun off _ hlt => ⟨hlt, rfl⟩⟩
      · exact hok.keeps_ready
    have hol := how.entryAt_setRegion hkp hh he
    obtain ⟨rfl, hv⟩ | ⟨-, hv⟩ := update_eq_some hu
    · exact hst hrf v hv raw e hh hol
    · exact h.slab key' v hv raw e hh hol
  · intro key' v hu raw e hh he
    obtain ⟨hl, hof, hrm, hot⟩ := hf hs.fits
    obtain ⟨rfl, hv⟩ | ⟨hky, hv⟩ := update_eq_some hu
    · obtain ⟨w, hph, hw, hi⟩ := hs.index
      have hc : cm'.idx (tagOf h1 key').1 = (cm.idx (tagOf h1 key').1).set (tagOf h1 key').2
          (slabPtr w (expiryAt now.put ttl) (cm.selectSizeClass value.length)
            (cm.selectTTLTier ttl)) now.ns := by
        rw [hi]
        exact if_pos rfl
      have hh : (cm'.idx (tagOf h1 key').1).Has (tagOf h1 key').2 raw := hh
      rw [hc] at hh
      have hrw := ((h.index _).set_has (isFree_tagOf h1 key') hrm hcl _ now.ns).2 raw hh
      subst hrw
      obtain ⟨_, sp, rfl⟩ := hs.entryAt_self (how.place_of_written _ hph hof) he
      rw [ho v hv, cm.entryFor_value key' ttl now sp hl]
    · have hne : tagOf h1 key' ≠ tagOf h1 key := fun ht => hky (hK (h.known key' v hv) hk ht)
      rcases hs.has (how.shape _) hrm hh with ⟨ht, _⟩ | hh
      · exact absurd ht hne
      · refine h.slab key' v hv raw e hh (how.entryAt_stored hs hh ?_ he)
        intro hp
        exact hot _ _ raw hh hne hp (hs.entryAt_self hp he).1

/-- **A put, or the warming of a value, keeps what is owed.** -/
theorem Fresh.put (hbk : bk.Lawful) (hok : ∀ b key v expiry, (bk.set b key v expiry).1 = true)
    (hK : Set.InjOn (tagOf h1) K) (h : Fresh bk h1 K owed cm) (hk : key ∈ K)
    (hq : cm.overQuota key.tenantID (entryHeaderSize + value.length) = false)
    (hf : PutFits h1 cm key value ttl) (hor : WriteOrderly h1 cm key)
    (ho : ∀ v, o = some v → v = value)
    (hsl : cm.Refuses value ttl → ∀ v, o = some v → ∀ raw e,
      (cm.idx (tagOf h1 key).1).Has (tagOf h1 key).2 raw → cm.entryAt raw = some e → e.value = v)
    (now : Clock) :
    Fresh bk h1 K (update owed key o) (cm.put bk h1 key value ttl now).2 := by
  rcases cm.put_cases bk h1 key value ttl now with ⟨hov, _⟩ | ⟨_, heq, _⟩
  · rw [hov] at hq
    cases hq
  have hst := Settles.enqueueWrite hbk hok h.store (hf hq).1 hor.2 ho (expiryAt now.put ttl)
    now.torn
  have hum := h.unmixed.enqueueWrite bk (hf hq).1 value (expiryAt now.put ttl) now.torn
  obtain ⟨backend, queue, flying, hcm⟩ :=
    cm.enqueueWrite_slab bk key value (expiryAt now.put ttl) now.torn
  rw [hcm] at hst hum
  rw [heq, hcm]
  have hsh : Shown h1 K owed
      { cm with backend := backend, asyncQueue := queue, inFlight := flying } :=
    h.shown.congr rfl rfl rfl rfl
  have hsp := hsh.slabPut hK hk (hf hq).2 hor.1 ho hsl now
  rcases CacheManager.slabPut_cases
    { cm with backend := backend, asyncQueue := queue, inFlight := flying } h1 key value ttl
    now with ⟨_, r, heq, _⟩ | ⟨ptr, cm', heq, hs⟩
  · rw [heq] at hsp ⊢
    exact ⟨hsp, hst, hum.congr rfl rfl⟩
  · rw [heq] at hsp ⊢
    refine ⟨hsp, ?_, hum.congr hs.store.2.1 hs.store.2.2⟩
    rw [CacheManager.waiting, hs.store.1, hs.store.2.1, hs.store.2.2]
    exact hst

end Put

/-! ## The other steps -/

theorem Shown.setIdx (h : Shown h1 K owed cm) {lane : Lane} (hi : IndexInv idx)
    (hh : ∀ t v, idx.Has t v → (cm.idx lane).Has t v) : Shown h1 K owed (cm.setIdx lane idx) := by
  obtain ⟨owner, ho⟩ := h.owned
  refine ⟨⟨owner, ho.setIdx hi.shape hh⟩,
    setIdx_forall (P := fun _ => IndexInv) hi h.index, h.known, ?_⟩
  intro key v hv raw e hr he
  exact h.slab key v hv raw e (setIdx_forall
    (P := fun l i => ∀ t v, i.Has t v → (cm.idx l).Has t v) hh (fun _ _ _ hv => hv) _ _ _ hr) he

theorem Shown.setRegion (h : Shown h1 K owed cm) (c t : Nat) (hr : (cm.regions c t).Keeps r) :
    Shown h1 K owed (cm.setRegion c t r) := by
  obtain ⟨owner, ho⟩ := h.owned
  exact ⟨⟨owner, ho.setRegion c t hr⟩, h.index, h.known, fun key v hv raw e hh he =>
    h.slab key v hv raw e hh (ho.entryAt_setRegion hr hh he)⟩

/-- A counter is its own key's, so no other key's value changes. -/
theorem Shown.setCounter (hK : Set.InjOn (tagOf h1) K) (h : Shown h1 K owed cm) (hk : key ∈ K)
    (hh : (cm.idx (tagOf h1 key).1).Has (tagOf h1 key).2 raw) (he : cm.entryAt raw = some e)
    (hl : e.valueLen = 8) (v : Word) :
    Shown h1 K (update owed key none) (cm.setCounter raw e v) := by
  obtain ⟨owner, ho⟩ := h.owned
  refine ⟨⟨owner, ho.setCounter hK hk hh he hl trivial⟩, h.index, update_known h.known hk, ?_⟩
  intro key' w hw raw' e' hhas' he'
  obtain ⟨hne, hw⟩ := of_update_none hw
  rcases CacheManager.entryAt_setCounter he he' with ⟨hpl, _, hol⟩ | ⟨_, hol⟩
  · -- two keys that show one slot are the slot's owner
    have how := (ho.entry hK (h.known key' w hw) hhas' hol).1
    rw [hpl] at how
    exact absurd (how.symm.trans (ho.entry hK hk hh he).1) hne
  · exact h.slab key' w hw raw' e' hhas' hol

theorem Shown.sweepSlot (h : Shown h1 K owed cm) (ci ti : Nat) (now : BitVec 32) (slot : Nat) :
    Shown h1 K owed (cm.sweepSlot ci ti now slot) := by
  rw [CacheManager.sweepSlot]
  dsimp only
  split
  · exact h
  split
  · rename_i idx hi
    exact h.setIdx ((h.index _).tryTombstone hi) ((h.index _).shape.tryTombstone hi).2
  · exact h

theorem Fresh.sweepBatch (h : Fresh bk h1 K owed cm) (ci ti : Nat) (now : BitVec 32) :
    Fresh bk h1 K owed (cm.sweepBatch ci ti now) := by
  rw [CacheManager.sweepBatch]
  dsimp only
  split
  · exact h
  generalize map _ (range cleanerBatchSize) = slots
  have hs : Fresh bk h1 K owed (slots.foldl (CacheManager.sweepSlot ci ti now) cm) := by
    refine foldlRecOn slots _ h fun cm h slot _ => ?_
    obtain ⟨hb, hq, hi⟩ := cm.sweepSlot_store ci ti now slot
    refine ⟨h.shown.sweepSlot ci ti now slot, ?_, h.unmixed.congr hq hi⟩
    rw [CacheManager.waiting, hb, hq, hi]
    exact h.store
  exact ⟨hs.shown.congr rfl rfl rfl rfl, hs.store, hs.unmixed.congr rfl rfl⟩

theorem Fresh.drain (h : Fresh bk h1 K owed cm) : Fresh bk h1 K owed cm.drain := by
  have hst : ∀ key v, owed key = some v → Settles bk cm.backend cm.drain.waiting key v := by
    rw [cm.drain_waiting]
    exact h.store
  have hum := h.unmixed.drain
  rw [CacheManager.drain] at hst hum ⊢
  split
  · rename_i he
    rw [if_pos he] at hst hum
    exact ⟨h.shown.congr rfl rfl rfl rfl, hst, hum⟩
  · exact h

/-- A job of the batch is written: the first of its key that is waiting. -/
theorem Fresh.flush (hbk : bk.Lawful) (hok : ∀ b key v expiry, (bk.set b key v expiry).1 = true)
    (h : Fresh bk h1 K owed cm) (n : Nat) (torn : Torn) :
    Fresh bk h1 K owed (cm.flush bk n torn) := by
  have hum := h.unmixed.flush bk n torn
  rcases cm.flush_cases bk n torn with heq | ⟨pre, j, post, hi, heq⟩
  · rw [heq]
    exact h
  rw [heq] at hum ⊢
  refine ⟨h.shown.congr rfl rfl rfl rfl, fun k v hv => ?_, hum⟩
  have hs := h.store k v hv
  have hfl := h.unmixed.flying
  rw [hi, map_append, map_cons, nodup_append] at hfl
  rw [CacheManager.waiting, hi, map_append, map_cons, append_assoc, cons_append] at hs
  rw [h.unmixed.write hi, CacheManager.waiting, map_append, append_assoc]
  refine hs.flush hbk hok (fun job hj => ?_)
  obtain ⟨j', hj', rfl⟩ := mem_map.mp hj
  exact hfl.2.2 _ (mem_map_of_mem hj') _ mem_cons_self

/-! ## Orderly histories -/

/-- What an operation must find, apart from its slot. -/
def CacheOp.Orderly (bk : CacheBackend B) (h1 : Key → Word) (cm : CacheManager B) :
    CacheOp → Prop
  | .put key value ttl _ => WriteOrderly h1 cm key ∧ (cm.Refuses value ttl → ¬ cm.Live h1 key)
  | .get key now => cm.slabGet h1 key now.read = none →
      (bk.get cm.backend now.backend key).isSome →
      Clear (cm.idx (tagOf h1 key).1) (tagOf h1 key).2 ∧ pending cm.waiting key = []
  | .incr key _ _ _ => WriteOrderly h1 cm key
  | _ => True

/-- The operations after which a value put earlier is no longer owed. -/
def CacheOp.Writes (key : Key) : CacheOp → Prop
  | .put k _ _ _ => k = key
  | .incr k _ _ _ => k = key
  | .invalidate k _ => k = key
  | _ => False

/-- What is owed after the operation: a put owes its value when it reports success. -/
def CacheOp.owes (bk : CacheBackend B) (h1 : Key → Word) (cm : CacheManager B)
    (owed : Key → Option Bytes) : CacheOp → Key → Option Bytes
  | .put key value ttl now => Function.update owed key
      (if (cm.put bk h1 key value ttl now).1.2 then some value else none)
  | .incr key _ _ _ => Function.update owed key none
  | .invalidate key _ => Function.update owed key none
  | _ => owed

section Step

variable (hbk : bk.Lawful) (hok : ∀ b key v expiry, (bk.set b key v expiry).1 = true)
  (hK : Set.InjOn (tagOf h1) K)

include hbk hok hK

variable {key : Key} {ttl : BitVec 32}

section

variable (h : Fresh bk h1 K owed cm) (hk : key ∈ K)
include h hk

theorem Fresh.put_owes (hf : PutFits h1 cm key value ttl) (ho : WriteOrderly h1 cm key)
    (hl : cm.Refuses value ttl → ¬ cm.Live h1 key) (now : Clock) :
    Fresh bk h1 K (CacheOp.owes bk h1 cm owed (.put key value ttl now))
      (cm.put bk h1 key value ttl now).2 := by
  rcases cm.put_cases bk h1 key value ttl now with ⟨_, heq⟩ | ⟨hq, _, _⟩
  · rw [CacheOp.owes, heq]
    exact h.mono (fun k v hv => (of_update_none hv).2)
  refine h.put hbk hok hK hk hq hf ho (fun v hv => ?_) ?_ now
  · split at hv
    · exact (some.inj hv).symm
    · cases hv
  · exact fun hr v _ raw e hh he => absurd ⟨raw, e, hh, he⟩ (hl hr)

/-- A write after which nothing is owed to the key. -/
theorem Fresh.put_forget
    (hf : PutFits h1 cm key value ttl) (ho : WriteOrderly h1 cm key) (now : Clock) :
    Fresh bk h1 K (update owed key none) (cm.put bk h1 key value ttl now).2 := by
  rcases cm.put_cases bk h1 key value ttl now with ⟨_, heq⟩ | ⟨hq, _, _⟩
  · rw [heq]
    exact h.mono (fun k v hv => (of_update_none hv).2)
  · exact h.put hbk hok hK hk hq hf ho (fun v hv => absurd hv (by simp))
      (fun _ v hv => absurd hv (by simp)) now

/-- A read brings a value back from the backend: the one owed. -/
theorem Fresh.get (hf : CacheOp.Fits bk h1 K cm (.get key now))
    (ho : CacheOp.Orderly bk h1 cm (.get key now)) :
    Fresh bk h1 K owed (cm.get bk h1 key now).2 := by
  rw [CacheManager.get]
  cases hg : cm.slabGet h1 key now.read with
  | some v => exact h
  | none =>
  cases hb : bk.get cm.backend now.backend key with
  | none => exact h
  | some r =>
  obtain ⟨hc, hp⟩ := ho hg (by rw [hb]; rfl)
  dsimp only
  rcases cm.put_cases bk h1 key r.1 (warmTTL r.2 now.warm) now with ⟨_, heq⟩ | ⟨hq, _, _⟩
  · rw [heq]
    exact h
  rw [← update_eq_self key owed]
  refine h.put hbk hok hK hk hq (hf.2 hg r.1 r.2 hb) ⟨hc, .inr hp⟩
    (fun v hv => ?_) (fun _ => h.shown.slab key) now
  exact ((h.store key v hv).2 hp r.1 ⟨_, _, hb⟩).symm

theorem Fresh.incr (hf : IncrFits h1 cm key delta ttl now) (ho : WriteOrderly h1 cm key)
    (hr : cm.incr bk h1 key delta ttl now = some r) :
    Fresh bk h1 K (update owed key none) r.2 := by
  rcases CacheManager.incr_cases hr with
    ⟨rfl, _, hp⟩ | ⟨raw, e, v, hpt, hlt, hb, hc, hg, _, rfl⟩
  · rw [CacheManager.incrFresh_snd]
    exact h.put_forget hbk hok hK hk (hp hf) ho now
  rw [SlabEntry.isCounter, Bool.and_eq_true, beq_iff_eq] at hc
  refine ⟨h.shown.setCounter hK hk ?_ ?_ hc.2 v, fun k w hw => ?_, h.unmixed.congr rfl rfl⟩
  · exact InlineIndex.get_has (isFree_tagOf h1 key) (CacheManager.incrPtr_get hpt)
  · exact Region.entryAt_eq_some.mpr ⟨hlt, hg hf, hb⟩
  · exact h.store k w (of_update_none hw).2

end

/-- **Every orderly step keeps what is owed.** -/
theorem Fresh.step (h : Fresh bk h1 K owed cm) (hft : op.Fits bk h1 K cm)
    (hor : op.Orderly bk h1 cm) (hst : cm.step bk h1 op = some cm') :
    Fresh bk h1 K (op.owes bk h1 cm owed) cm' := by
  cases op with
  | put key value ttl now =>
    cases hst
    exact h.put_owes hbk hok hK hft.1 hft.2 hor.1 hor.2 now
  | get key now =>
    cases hst
    exact h.get hbk hok hK hft.1 hft hor
  | incr key delta ttl now =>
    obtain ⟨r, hr, rfl⟩ := map_eq_some_iff.mp hst
    exact h.incr hbk hok hK hft.1 hft.2 hor hr
  | invalidate key ns =>
    cases hst
    have hl := isFree_tagOf h1 key
    have hi := h.shown.index (tagOf h1 key).1
    have hsh := h.shown.setIdx (hi.delete_inv hl ns) (hi.shape.delete hl ns).2
    have hf : Fresh bk h1 K owed (cm.invalidate bk h1 key ns) :=
      ⟨hsh.congr rfl rfl rfl rfl, fun k v hv =>
        ⟨(h.store k v hv).1, fun hn w hw => (h.store k v hv).2 hn w (hbk.delete hw)⟩,
      h.unmixed.congr rfl rfl⟩
    exact hf.mono (fun k v hv => (of_update_none hv).2)
  | deleteTenant tenantID =>
    cases hst
    exact ⟨h.shown.congr rfl rfl rfl rfl, fun k v hv =>
      ⟨(h.store k v hv).1, fun hn w hw => (h.store k v hv).2 hn w (hbk.deleteTenant hw)⟩,
      h.unmixed.congr rfl rfl⟩
  | sweep ci ti now =>
    cases hst
    exact h.sweepBatch ci ti now
  | shrink ci ti now =>
    cases hst
    obtain ⟨owner, ho⟩ := h.shown.owned
    exact ⟨h.shown.setRegion ci ti ((ho.regions ci ti).keeps_tryShrink _ now), h.store,
      h.unmixed.congr rfl rfl⟩
  | drain =>
    cases hst
    exact h.drain
  | flush n torn =>
    cases hst
    exact h.flush hbk hok n torn
  | rewrite flying n key value =>
    cases hst
    rw [CacheManager.rewrite_of_fits hft]
    exact h
  | backendSweep now =>
    cases hst
    exact ⟨h.shown.congr rfl rfl rfl rfl, fun k v hv =>
      ⟨(h.store k v hv).1, fun hn w hw => (h.store k v hv).2 hn w (hbk.sweep hw)⟩,
      h.unmixed.congr rfl rfl⟩

/-- A run of operations that fit and are orderly. -/
def OrderlyRun (bk : CacheBackend B) (h1 : Key → Word) (K : Set Key) (cm₀ : CacheManager B)
    (ops : List CacheOp) (cm : CacheManager B) : Prop :=
  GoodRun (fun cm op cm' => cm.step bk h1 op = some cm')
    (fun cm op => op.Fits bk h1 K cm ∧ op.Orderly bk h1 cm) cm₀ ops cm

/-- The value is owed as long as nothing else is written for the key. -/
theorem Fresh.run (h : Fresh bk h1 K owed cm)
    (hkp : ∀ op ∈ ops, ∀ key v, owed key = some v → ¬ op.Writes key)
    (hrn : OrderlyRun bk h1 K cm ops cm') : Fresh bk h1 K owed cm' := by
  induction ops generalizing cm with
  | nil =>
    cases hrn
    exact h
  | cons op ops ih =>
  cases hrn with
  | cons hg hs hr =>
  refine ih ?_ (fun op' hop => hkp op' (mem_cons_of_mem _ hop)) hr
  refine (h.step hbk hok hK hg.1 hg.2 hs).mono (fun k v hv => ?_)
  have hw := hkp op (mem_cons_self ..) k v hv
  cases op with
  | put key value ttl now | incr key delta ttl now | invalidate key ns =>
    rw [CacheOp.owes, update_of_ne (Ne.symm hw)]
    exact hv
  | _ => exact hv

end Step

/-- A new manager owes nothing. -/
theorem newCacheManager_fresh
    (hn : newCacheManager totalMemory sizeClasses ttlTiers tenantLimit b₀ ns = some cm)
    (hc : sizeClasses.length ≤ 4) (ht : ttlTiers.length ≤ 4) (h1 : Key → Word)
    (K : Set Key) : Fresh bk h1 K (fun _ => none) cm := by
  have hi : Isolated bk h1 K _ cm := newCacheManager_isolated hn hc ht h1 K
  obtain ⟨⟨owner, ho⟩, hsr⟩ := hi
  refine ⟨⟨⟨owner, ho.mono (fun _ _ _ => trivial)⟩, ?_, nofun, nofun⟩, nofun, hsr.unmixed⟩
  intro lane
  rw [newCacheManager] at hn
  split at hn
  · cases hn
  split at hn
  · cases hn
  obtain ⟨idx, hid, hcm⟩ := bind_eq_some_iff.mp hn
  cases hcm
  exact (newInlineIndex_inv hid).1

/-- A read gives the value owed, or none. -/
theorem Fresh.get_value (h : Fresh bk h1 K owed cm) (hv : owed key = some v)
    (ho : CacheOp.Orderly bk h1 cm (.get key now)) :
    (cm.get bk h1 key now).1 = none ∨ (cm.get bk h1 key now).1 = some v := by
  rw [CacheManager.get]
  cases hg : cm.slabGet h1 key now.read with
  | some w =>
    obtain ⟨raw, e, hi, he, rfl⟩ := CacheManager.slabGet_entryAt hg
    have hh := InlineIndex.get_has (isFree_tagOf h1 key) hi
    exact .inr (congrArg some (h.shown.slab key v hv raw e hh he))
  | none =>
  cases hb : bk.get cm.backend now.backend key with
  | none => exact .inl rfl
  | some r =>
    obtain ⟨_, hp⟩ := ho hg (by rw [hb]; rfl)
    exact .inr (congrArg some ((h.store key v hv).2 hp r.1 ⟨_, _, hb⟩))

theorem clear_of_absent {idx : InlineIndex} (hl : isFree t = false) (h : ∀ v, ¬ idx.Has t v) :
    Clear idx t :=
  fun _ _ _ ht => absurd ⟨hl, _, _, _, ISlot.ext ht rfl⟩ (h _)

theorem firstPut_orderly :
    CacheOp.Orderly noopBackend noHash smallManager (.put (keyOf false) [1] 60 early) := by
  refine ⟨⟨clear_of_absent (isFree_tagOf ..) (blankIndex_no_entry _), .inr rfl⟩, ?_⟩
  rintro _ ⟨raw, _, hr, _⟩
  exact blankIndex_no_entry _ raw hr

theorem secondPut_orderly :
    CacheOp.Orderly noopBackend noHash firstPut (.put (keyOf true) [2] 60 early) := by
  have hn : ∀ v,
      ¬ (firstPut.idx (tagOf noHash (keyOf true)).1).Has (tagOf noHash (keyOf true)).2 v :=
    fun v hv => absurd (firstPut_has hv).1 (by decide +kernel)
  refine ⟨⟨clear_of_absent (isFree_tagOf ..) hn, .inl ?_⟩, ?_⟩
  · rw [firstPut_stored.store.2.1]
    decide
  · rintro _ ⟨raw, _, hr, _⟩
    exact hn raw hr

end Rah.Cache
