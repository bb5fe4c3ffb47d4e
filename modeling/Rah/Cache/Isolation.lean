import Rah.Cache.Slots

/-!
# Whose value a slot holds

Every slot that an index entry leads to was last written for the key of that entry. That is the
invariant (`Owned`), with a ghost `owner` for each slot. Slots are used again while entries of
other keys still point to them, and a pointer has two bits of the slot's generation; so the
invariant holds as long as no write goes to a slot which an entry of another key takes for its own
(`SlabFits`), and no counter is added to through an entry that is out of date.
-/

namespace Rah.Cache

open Rah.Lib List Function Region Option
open CacheManager (entryAt flush incr incrFresh setIdx_forall setRegion_regions sweepSlot)

variable {B : Type} {bk : CacheBackend B} {h1 : Key → Word} {K : Set Key}
  {Seen Seen' : Key → Bytes → Prop} {owner : Nat × Nat × Nat → Key} {cm cm' : CacheManager B}

/-- Every slot has an owner in the set of keys: an index entry that leads to it is the one of its
owner's tag, and the slot holds the owner's tenant and a value written for it. -/
structure Owned (h1 : Key → Word) (K : Set Key) (Seen : Key → Bytes → Prop)
    (owner : Nat × Nat × Nat → Key) (cm : CacheManager B) : Prop where
  shape : ∀ lane, IndexShape (cm.idx lane)
  regions : ∀ c t, (cm.regions c t).Ok
  classes : 0 < cm.sizeClasses.length ∧ cm.sizeClasses.length ≤ 4
  tiers : 0 < cm.ttlTiers.length ∧ cm.ttlTiers.length ≤ 4
  /-- A region that may still grow has all the slots that are pointed to. -/
  inRange : ∀ lane tag raw, (cm.idx lane).Has tag raw →
    (cm.regions (place raw).1 (place raw).2.1).count
      < (cm.regions (place raw).1 (place raw).2.1).maxCount →
    (place raw).2.2 < (cm.regions (place raw).1 (place raw).2.1).bufLen
  owned : ∀ lane tag raw e, (cm.idx lane).Has tag raw → cm.entryAt raw = some e →
    owner (place raw) ∈ K ∧ tagOf h1 (owner (place raw)) = (lane, tag)
      ∧ e.tenantID = (owner (place raw)).tenantID ∧ Seen (owner (place raw)) e.value

variable {key : Key} {raw tag v delta : Word} {e e' : SlabEntry} {lane : Lane} {r : Region}
  {c t totalMemory tenantLimit : Nat} {value : Bytes} {ttl : BitVec 32}

/-- The entry of a key's tag leads to the key's own slot. -/
theorem Owned.entry (hK : Set.InjOn (tagOf h1) K) (h : Owned h1 K Seen owner cm) (hk : key ∈ K)
    (hh : (cm.idx (tagOf h1 key).1).Has (tagOf h1 key).2 raw) (he : cm.entryAt raw = some e) :
    owner (place raw) = key ∧ e.tenantID = key.tenantID ∧ Seen key e.value := by
  obtain ⟨hm, htg, ht, hs⟩ := h.owned _ _ raw e hh he
  have ho : owner (place raw) = key := hK hm hk htg
  rw [ho] at ht hs
  exact ⟨ho, ht, hs⟩

/-! ## Steps that write no entry -/

theorem Owned.congr (h : Owned h1 K Seen owner cm) (hi : cm'.idx = cm.idx)
    (hr : cm'.regions = cm.regions) (hc : cm'.sizeClasses = cm.sizeClasses)
    (ht : cm'.ttlTiers = cm.ttlTiers) : Owned h1 K Seen owner cm' where
  shape := by rw [hi]; exact h.shape
  regions := by rw [hr]; exact h.regions
  classes := by rw [hc]; exact h.classes
  tiers := by rw [ht]; exact h.tiers
  inRange := by rw [hi, hr]; exact h.inRange
  owned := by
    intro lane tag raw e hh he
    rw [hi] at hh
    rw [CacheManager.entryAt, hr] at he
    exact h.owned lane tag raw e hh he

theorem Owned.mono (h : Owned h1 K Seen owner cm) (hs : ∀ k v, Seen k v → Seen' k v) :
    Owned h1 K Seen' owner cm := by
  refine { h with owned := fun lane tag raw e hh he => ?_ }
  obtain ⟨hk, ht, htn, hv⟩ := h.owned lane tag raw e hh he
  exact ⟨hk, ht, htn, hs _ _ hv⟩

/-- An index loses entries. -/
theorem Owned.setIdx (h : Owned h1 K Seen owner cm) (hs : IndexShape idx)
    (hh : ∀ t v, idx.Has t v → (cm.idx lane).Has t v) :
    Owned h1 K Seen owner (cm.setIdx lane idx) := by
  have hsb := setIdx_forall (P := fun l i => ∀ t v, i.Has t v → (cm.idx l).Has t v) hh
    fun _ _ _ hv => hv
  refine ⟨setIdx_forall (P := fun _ => IndexShape) hs h.shape, h.regions, h.classes,
    h.tiers, ?_, ?_⟩
  · exact fun l t v hv => h.inRange l t v (hsb l t v hv)
  · exact fun l t v e hv he => h.owned l t v e (hsb l t v hv) he

/-- What a change of one region may do when no entry is written. -/
structure Region.Keeps (r r' : Region) : Prop where
  ok : r'.Ok
  inRange : ∀ off, (r.count < r.maxCount → off < r.bufLen) → r'.count < r'.maxCount →
    off < r'.bufLen
  entry : ∀ off, (r.count < r.maxCount → off < r.bufLen) → off < r'.bufLen →
    off < r.bufLen ∧ r'.buf off = r.buf off

theorem Region.Ok.keeps_ready (h : r.Ok) : r.Keeps r.ready := by
  obtain ⟨hm, hb, hf⟩ := r.ready_keeps
  refine ⟨h.ready.1, fun off hin hlt => ?_, fun off hin hlt => ?_⟩
  · by_cases hc : r.count < r.maxCount
    · exact (hb off (hin hc)).1
    · rw [hf hc] at hlt
      exact absurd hlt hc
  · by_cases hc : r.count < r.maxCount
    · exact ⟨hin hc, (hb off (hin hc)).2⟩
    · rw [hf hc] at hlt ⊢
      exact ⟨hlt, rfl⟩

theorem Region.Ok.keeps_tryShrink (h : r.Ok) (pct : Nat) (now : BitVec 32) :
    r.Keeps (r.tryShrink pct now) := by
  have hs : r.Keeps r := ⟨h, fun off hin hlt => hin hlt, fun off _ hlt => ⟨hlt, rfl⟩⟩
  rw [tryShrink]
  split
  · exact hs
  dsimp only
  split
  · exact hs
  split
  · exact hs
  have hh : r.maxCount / 2 ≤ r.count := by omega
  refine ⟨⟨h.stride, ?_, Nat.le_refl _, fun hlt => absurd hlt (Nat.lt_irrefl _)⟩,
    fun off _ hlt => absurd hlt (Nat.lt_irrefl _), fun off _ hlt => ?_⟩
  · show 0 < r.maxCount / 2
    omega
  have hlt : off < r.maxCount / 2 * r.stride := hlt
  refine ⟨Nat.lt_of_lt_of_le hlt (Nat.mul_le_mul_right _ hh), r.resize_buf ?_⟩
  rw [Nat.min_eq_right hh]
  exact hlt

/-- A pointer into a region that may still grow lies inside it. -/
theorem Owned.inRange_at (h : Owned h1 K Seen owner cm) (hh : (cm.idx lane).Has tag raw)
    (hp : (place raw).1 = c ∧ (place raw).2.1 = t) :
    (cm.regions c t).count < (cm.regions c t).maxCount →
      (place raw).2.2 < (cm.regions c t).bufLen := by
  obtain ⟨rfl, rfl⟩ := hp
  exact h.inRange lane tag raw hh

theorem CacheManager.setRegion_ne (cm : CacheManager B) (r : Region) (h : ¬ (i = c ∧ j = t)) :
    (cm.setRegion c t r).regions i j = cm.regions i j :=
  if_neg h

theorem CacheManager.ok_setRegion (hr : r.Ok) (h : ∀ i j, (cm.regions i j).Ok) (i j : Nat) :
    ((cm.setRegion c t r).regions i j).Ok := by
  show (if i = c ∧ j = t then r else cm.regions i j).Ok
  split
  · exact hr
  · exact h i j

/-- The offset lies inside a region that may still grow. -/
def Region.Covers (r : Region) (off : Nat) : Prop := r.count < r.maxCount → off < r.bufLen

theorem CacheManager.covers_setRegion (hr : ∀ off, (cm.regions c t).Covers off → r.Covers off)
    (h : (cm.regions (place raw).1 (place raw).2.1).Covers (place raw).2.2) :
    ((cm.setRegion c t r).regions (place raw).1 (place raw).2.1).Covers (place raw).2.2 := by
  by_cases hat : (place raw).1 = c ∧ (place raw).2.1 = t
  · rw [hat.1, hat.2] at h ⊢
    rw [setRegion_regions]
    exact hr _ h
  · rwa [CacheManager.setRegion_ne _ _ hat]

/-- A change of a region that writes no entry shows none that was not there. -/
theorem Owned.entryAt_setRegion (h : Owned h1 K Seen owner cm) (hr : (cm.regions c t).Keeps r)
    (hh : (cm.idx lane).Has tag raw) (he : (cm.setRegion c t r).entryAt raw = some e) :
    cm.entryAt raw = some e := by
  rw [CacheManager.entryAt] at he ⊢
  by_cases hat : (place raw).1 = c ∧ (place raw).2.1 = t
  · have hen := hr.entry _ (h.inRange_at hh hat)
    rw [hat.1, hat.2, setRegion_regions, entryAt_eq_some] at he
    rw [hat.1, hat.2, entryAt_eq_some]
    obtain ⟨hlt, hg, hb⟩ := he
    obtain ⟨hlt', hs⟩ := hen hlt
    exact ⟨hlt', hg, hs.symm.trans hb⟩
  · rw [CacheManager.setRegion_ne _ _ hat] at he
    exact he

theorem Owned.setRegion (h : Owned h1 K Seen owner cm) (c t : Nat)
    (hr : (cm.regions c t).Keeps r) : Owned h1 K Seen owner (cm.setRegion c t r) := by
  refine ⟨h.shape, CacheManager.ok_setRegion hr.ok h.regions, h.classes, h.tiers, ?_, ?_⟩
  · exact fun lane tag raw hh =>
      CacheManager.covers_setRegion hr.inRange (h.inRange lane tag raw hh)
  · exact fun lane tag raw e hh he =>
      h.owned lane tag raw e hh (h.entryAt_setRegion hr hh he)

/-! ## Writing an entry -/

/-- No write to a slot that an entry of another key takes for its own; the value's length and the
slot's offset fit their fields, and the index finds a node number should it need one. -/
def SlabFits (h1 : Key → Word) (cm : CacheManager B) (key : Key) (value : Bytes)
    (ttl : BitVec 32) : Prop :=
  value.length < 65536 ∧ (cm.target value ttl).nextOff < 17592186044416
    ∧ (cm.idx (tagOf h1 key).1).pool.Room
    ∧ ∀ lane tag raw, (cm.idx lane).Has tag raw → (lane, tag) ≠ tagOf h1 key →
      place raw = (cm.selectSizeClass value.length, cm.selectTTLTier ttl,
        (cm.target value ttl).nextOff) →
      (unpack raw).1 ≠ (cm.target value ttl).nextGen &&& 3

theorem Region.store_entryAt (h : (r.store e).entryAt off gen2b = some e') :
    (off = r.nextOff ∧ e' = e ∧ e.gen &&& 3 = gen2b)
      ∨ (off ≠ r.nextOff ∧ r.entryAt off gen2b = some e') := by
  obtain ⟨hlt, hg, hb⟩ := entryAt_eq_some.mp h
  by_cases ho : off = r.nextOff
  · subst ho
    rw [show (r.store e).buf r.nextOff = e from update_self ..] at hb
    subst hb
    exact .inl ⟨rfl, rfl, hg⟩
  · rw [show (r.store e).buf off = r.buf off from update_of_ne ho ..] at hb
    exact .inr ⟨ho, entryAt_eq_some.mpr ⟨hlt, hg, hb⟩⟩

/-- The slot a write goes to. -/
def CacheManager.nextPlace (cm : CacheManager B) (value : Bytes) (ttl : BitVec 32) :
    Nat × Nat × Nat :=
  (cm.selectSizeClass value.length, cm.selectTTLTier ttl, (cm.target value ttl).nextOff)

section Stored

variable {key : Key} {value : Bytes} {ttl : BitVec 32} {now : Clock}

/-- The entries of the index after a write: the one just written, and old ones. -/
theorem Stored.has (hs : Stored h1 cm key value ttl now cm')
    (hsh : IndexShape (cm.idx (tagOf h1 key).1)) (hr : (cm.idx (tagOf h1 key).1).pool.Room)
    (hv : (cm'.idx lane).Has tag raw) :
    ((lane, tag) = tagOf h1 key ∧ ∃ w : Written, w.physOff = (cm.target value ttl).nextOff
        ∧ w.gen = (cm.target value ttl).nextGen
        ∧ raw = slabPtr w (expiryAt now.put ttl) (cm.selectSizeClass value.length)
          (cm.selectTTLTier ttl))
      ∨ (cm.idx lane).Has tag raw := by
  obtain ⟨w, hp, hw, hi⟩ := hs.index
  rw [hi] at hv
  by_cases hl : lane = (tagOf h1 key).1
  · rw [show (cm.setIdx _ _).idx lane = _ from if_pos hl] at hv
    rcases (hsh.set (isFree_tagOf h1 key) hr _ now.ns).2 tag raw hv with ⟨ht, hrw⟩ | hv
    · exact .inl ⟨Prod.ext hl ht, w, hp, hw, hrw⟩
    · rw [← hl] at hv
      exact .inr hv
  · rw [show (cm.setIdx _ _).idx lane = cm.idx lane from if_neg hl] at hv
    exact .inr hv

theorem Owned.place_of_written (h : Owned h1 K Seen owner cm) (expiry : BitVec 32)
    (hp : w.physOff = (cm.target value ttl).nextOff)
    (ho : (cm.target value ttl).nextOff < 17592186044416) :
    place (slabPtr w expiry (cm.selectSizeClass value.length) (cm.selectTTLTier ttl))
      = cm.nextPlace value ttl := by
  have hc : cm.selectSizeClass value.length < 4 :=
    Nat.lt_of_lt_of_le (selectIndex_lt _ h.classes.1) h.classes.2
  have ht : cm.selectTTLTier ttl < 4 := Nat.lt_of_lt_of_le (selectIndex_lt _ h.tiers.1) h.tiers.2
  rw [place_slabPtr w expiry hc ht (by rw [hp]; exact ho), hp]
  rfl

/-- The slot just written shows the new entry. -/
theorem Stored.entryAt_self (hs : Stored h1 cm key value ttl now cm')
    (hp : place raw = cm.nextPlace value ttl) (he : cm'.entryAt raw = some e) :
    (unpack raw).1 = (cm.target value ttl).nextGen &&& 3
      ∧ ∃ sp, e = cm.entryFor key value ttl now sp := by
  obtain ⟨sp, _, hr⟩ := hs.region
  rw [CacheManager.entryAt, hp, CacheManager.nextPlace, hr, CacheManager.setRegion_regions] at he
  rcases store_entryAt he with ⟨_, rfl, hg⟩ | ⟨hne, _⟩
  · exact ⟨hg.symm, sp, rfl⟩
  · exact absurd rfl hne

/-- Every other slot shows what it did. -/
theorem Owned.entryAt_stored (h : Owned h1 K Seen owner cm)
    (hs : Stored h1 cm key value ttl now cm') (hh : (cm.idx lane).Has tag raw)
    (hp : place raw ≠ cm.nextPlace value ttl) (he : cm'.entryAt raw = some e) :
    cm.entryAt raw = some e := by
  obtain ⟨sp, _, hr⟩ := hs.region
  -- the region grew first
  refine h.entryAt_setRegion (h.regions (cm.selectSizeClass value.length)
    (cm.selectTTLTier ttl)).keeps_ready hh ?_
  rw [CacheManager.entryAt, hr] at he
  rw [CacheManager.entryAt]
  by_cases hat : (place raw).1 = cm.selectSizeClass value.length
      ∧ (place raw).2.1 = cm.selectTTLTier ttl
  · rw [hat.1, hat.2, setRegion_regions] at he
    rw [hat.1, hat.2, setRegion_regions]
    rcases store_entryAt he with ⟨ho, _⟩ | ⟨_, he⟩
    · exact absurd (Prod.ext hat.1 (Prod.ext hat.2 ho)) hp
    · exact he
  · rw [CacheManager.setRegion_ne _ _ hat] at he
    rw [CacheManager.setRegion_ne _ _ hat]
    exact he

/-- **A write makes its key the owner of the slot.** -/
theorem Owned.stored (h : Owned h1 K Seen owner cm) (hk : key ∈ K) (hsn : Seen key value)
    (hf : SlabFits h1 cm key value ttl) (hs : Stored h1 cm key value ttl now cm') :
    Owned h1 K Seen (update owner (cm.nextPlace value ttl) key) cm' := by
  obtain ⟨hl, hof, hrm, ho⟩ := hf
  have hsh := h.shape (tagOf h1 key).1
  have hok := h.regions (cm.selectSizeClass value.length) (cm.selectTTLTier ttl)
  refine ⟨?_, fun i j => ?_, by rw [hs.config.1]; exact h.classes,
    by rw [hs.config.2.1]; exact h.tiers, ?_, ?_⟩
  · obtain ⟨w, _, _, hi⟩ := hs.index
    rw [hi]
    exact setIdx_forall (P := fun _ => IndexShape)
      (hsh.set (isFree_tagOf h1 key) hrm _ now.ns).1 h.shape
  · obtain ⟨sp, _, hr⟩ := hs.region
    rw [hr]
    refine CacheManager.ok_setRegion ?_ h.regions i j
    obtain ⟨hrd, hsl⟩ := hok.ready
    refine { hrd with linear := fun hlt => ?_ }
    have hlt : (cm.target value ttl).count < (cm.target value ttl).maxCount := hlt
    rw [show ready _ = cm.target value ttl from rfl, physSlot, if_neg (by omega)] at hsl
    exact hsl
  · intro lane tag raw hv
    obtain ⟨sp, _, hr⟩ := hs.region
    rw [hr]
    rcases hs.has hsh hrm hv with ⟨_, w, hph, _, rfl⟩ | hv
    · rw [h.place_of_written _ hph hof, CacheManager.nextPlace, setRegion_regions]
      exact fun _ => hok.nextOff_lt
    · exact CacheManager.covers_setRegion hok.keeps_ready.inRange (h.inRange lane tag raw hv)
  · intro lane tag raw e hv he
    by_cases hp : place raw = cm.nextPlace value ttl
    · -- the slot just written: only entries of its key may take it for theirs
      obtain ⟨hg, sp, rfl⟩ := hs.entryAt_self hp he
      have ht : (lane, tag) = tagOf h1 key := by
        rcases hs.has hsh hrm hv with ⟨ht, _⟩ | hv
        · exact ht
        · by_contra hne
          exact ho lane tag raw hv hne hp hg
      rw [hp, update_self]
      refine ⟨hk, ht.symm, rfl, ?_⟩
      rw [cm.entryFor_value key ttl now sp hl]
      exact hsn
    · rw [update_of_ne hp]
      rcases hs.has hsh hrm hv with ⟨_, w, hph, _, rfl⟩ | hv
      · exact absurd (h.place_of_written _ hph hof) hp
      · exact h.owned lane tag raw e hv (h.entryAt_stored hs hv hp he)

end Stored

theorem Owned.slabPut (h : Owned h1 K Seen owner cm) (now : Clock) (hk : key ∈ K)
    (hsn : Seen key value) (hf : value.length
        ≤ (cm.regions (cm.selectSizeClass value.length) (cm.selectTTLTier ttl)).capacity →
      SlabFits h1 cm key value ttl) :
    ∃ owner, Owned h1 K Seen owner (cm.slabPut h1 key value ttl now).2 := by
  have hok := h.regions (cm.selectSizeClass value.length) (cm.selectTTLTier ttl)
  rcases cm.slabPut_cases h1 key value ttl now with ⟨_, r, heq, hr⟩ | ⟨ptr, cm', heq, hs⟩
  · rw [heq]
    refine ⟨owner, h.setRegion _ _ ?_⟩
    rcases hr with rfl | rfl
    · exact ⟨hok, fun off hin hlt => hin hlt, fun off _ hlt => ⟨hlt, rfl⟩⟩
    · exact hok.keeps_ready
  · rw [heq]
    exact ⟨_, h.stored hk hsn (hf hs.fits) hs⟩

/-! ## Adding to a counter in place -/

theorem putUint64_length (v : Word) : (putUint64 v).length = 8 := by
  rw [putUint64, length_map, length_range]

theorem SlabEntry.setCounter_value (h : e.valueLen = 8) (v : Word) :
    (e.setCounter v).value = putUint64 v := by
  show (putUint64 v ++ e.data.drop 8).take e.valueLen = putUint64 v
  rw [h, take_left' (putUint64_length v)]

/-- A counter is set in place. -/
def CacheManager.setCounter (cm : CacheManager B) (raw : Word) (e : SlabEntry) (v : Word) :
    CacheManager B :=
  cm.setRegion (place raw).1 (place raw).2.1
    ((cm.regions (place raw).1 (place raw).2.1).setEntry (place raw).2.2 (e.setCounter v))

/-- What the slots show after a counter was set. -/
theorem CacheManager.entryAt_setCounter (he : cm.entryAt raw = some e)
    (he' : (cm.setCounter raw e v).entryAt raw' = some e') :
    (place raw' = place raw ∧ e' = e.setCounter v ∧ cm.entryAt raw' = some e)
      ∨ (place raw' ≠ place raw ∧ cm.entryAt raw' = some e') := by
  obtain ⟨_, hg, hb⟩ := entryAt_eq_some.mp he
  rw [entryAt] at he'
  by_cases hat : (place raw').1 = (place raw).1 ∧ (place raw').2.1 = (place raw).2.1
  · rw [hat.1, hat.2, show (cm.setCounter raw e v).regions _ _ = _ from
      cm.setRegion_regions (place raw).1 (place raw).2.1 _] at he'
    obtain ⟨hlt, hgen', hbuf'⟩ := entryAt_eq_some.mp he'
    by_cases ho : (place raw').2.2 = (place raw).2.2
    · -- the slot itself: its generation is what it was
      have hpl : place raw' = place raw := Prod.ext hat.1 (Prod.ext hat.2 ho)
      rw [ho, show buf (setEntry _ _ _) (place raw).2.2 = e.setCounter v from
        update_self ..] at hbuf'
      subst hbuf'
      refine .inl ⟨hpl, rfl, ?_⟩
      rw [entryAt, hpl]
      rw [ho] at hlt
      exact entryAt_eq_some.mpr ⟨hlt, hgen', hb⟩
    · rw [show buf (setEntry _ _ _) (place raw').2.2 = _ from update_of_ne ho ..] at hbuf'
      refine .inr ⟨fun heq => ho (congrArg (fun p => p.2.2) heq), ?_⟩
      rw [entryAt, hat.1, hat.2]
      exact entryAt_eq_some.mpr ⟨hlt, hgen', hbuf'⟩
  · rw [show (cm.setCounter raw e v).regions _ _ = _ from CacheManager.setRegion_ne _ _ hat] at he'
    exact .inr ⟨fun heq => hat (by rw [heq]; exact ⟨rfl, rfl⟩), he'⟩

/-- **Only the slot's own key adds to its counter.** -/
theorem Owned.setCounter (h : Owned h1 K Seen owner cm) (hK : Set.InjOn (tagOf h1) K) (hk : key ∈ K)
    (hh : (cm.idx (tagOf h1 key).1).Has (tagOf h1 key).2 raw) (he : cm.entryAt raw = some e)
    (hl : e.valueLen = 8) (hs : Seen key (putUint64 v)) :
    Owned h1 K Seen owner (cm.setCounter raw e v) := by
  obtain ⟨ho, _, _⟩ := h.entry hK hk hh he
  have hok := h.regions (place raw).1 (place raw).2.1
  refine ⟨h.shape, CacheManager.ok_setRegion ?_ h.regions, h.classes, h.tiers, ?_, ?_⟩
  · exact { hok with }
  · exact fun lane tag raw' hv =>
      CacheManager.covers_setRegion (fun _ hc => hc) (h.inRange lane tag raw' hv)
  intro lane tag raw' e' hv he'
  rcases CacheManager.entryAt_setCounter he he' with ⟨hpl, rfl, hol⟩ | ⟨_, hol⟩
  · obtain ⟨hm, ht, htn, _⟩ := h.owned lane tag raw' e hv hol
    refine ⟨hm, ht, htn, ?_⟩
    rw [hpl, ho, SlabEntry.setCounter_value hl]
    exact hs
  · exact h.owned lane tag raw' e' hv hol

/-! ## The backend -/

/-- The backend gives this value for the key, at some time. -/
def CacheBackend.Has (bk : CacheBackend B) (b : B) (key : Key) (v : Bytes) : Prop :=
  ∃ now expiry, bk.get b now key = some (v, expiry)

/-- A backend gives no value that it was not given for the key, and after a write that succeeded
none but that one. -/
structure CacheBackend.Lawful (bk : CacheBackend B) : Prop where
  set : ∀ {b key value expiry key' v}, bk.Has (bk.set b key value expiry).2 key' v →
    (key' = key ∧ v = value)
      ∨ ((key' = key → (bk.set b key value expiry).1 = false) ∧ bk.Has b key' v)
  delete : ∀ {b key key' v}, bk.Has (bk.delete b key) key' v → bk.Has b key' v
  deleteTenant : ∀ {b tenantID key' v}, bk.Has (bk.deleteTenant b tenantID) key' v →
    bk.Has b key' v
  sweep : ∀ {b now key' v}, bk.Has (bk.sweep b now) key' v → bk.Has b key' v

/-- All jobs that are not written yet, the batch before the queue. -/
def CacheManager.waiting (cm : CacheManager B) : List WriteJob :=
  cm.inFlight.map FlyingJob.job ++ cm.asyncQueue

/-- No two writes of one key are in one batch or will be, and none goes on beside another. -/
structure Unmixed (cm : CacheManager B) : Prop where
  alone : ∀ j ∈ cm.inFlight, j.twin = false
  flying : (cm.inFlight.map (fun j => j.job.key)).Nodup
  queued : (cm.asyncQueue.map WriteJob.key).Nodup

/-- The write of a value finds no other write of its key where it goes: in the queue, or in flight
when the queue is full and the value is written at once. -/
def QueueFits (cm : CacheManager B) (key : Key) : Prop :=
  if cm.asyncQueue.length < asyncQueueSize then ∀ job ∈ cm.asyncQueue, job.key ≠ key
  else ∀ j ∈ cm.inFlight, j.job.key ≠ key

/-- A write to the backend leaves the slab alone. -/
theorem CacheManager.enqueueWrite_slab (bk : CacheBackend B) (cm : CacheManager B) (key : Key)
    (value : Bytes) (expiry : BitVec 32) (torn : Torn) : ∃ backend queue flying,
      (cm.enqueueWrite bk key value expiry torn).2
        = { cm with backend := backend, asyncQueue := queue, inFlight := flying } := by
  rw [enqueueWrite]
  split
  · exact ⟨_, _, _, rfl⟩
  · exact ⟨_, _, _, rfl⟩

/-- A write that fits is queued, or it alone goes to the backend. -/
theorem CacheManager.enqueueWrite_eq (bk : CacheBackend B) (hf : QueueFits cm key) (value : Bytes)
    (expiry : BitVec 32) (torn : Torn) :
    (cm.asyncQueue.length < asyncQueueSize ∧ (∀ job ∈ cm.asyncQueue, job.key ≠ key)
      ∧ cm.enqueueWrite bk key value expiry torn
        = (true, { cm with asyncQueue := cm.asyncQueue ++ [⟨key, value, expiry⟩] }))
    ∨ (¬ cm.asyncQueue.length < asyncQueueSize ∧ cm.enqueueWrite bk key value expiry torn
      = ((bk.set cm.backend key value expiry).1,
        { cm with backend := (bk.set cm.backend key value expiry).2 })) := by
  rw [QueueFits] at hf
  by_cases h : cm.asyncQueue.length < asyncQueueSize
  · rw [if_pos h] at hf
    exact .inl ⟨h, hf, if_pos h⟩
  rw [if_neg h] at hf
  refine .inr ⟨h, ?_⟩
  have hn : cm.inFlight.any (fun j => j.job.key == key) = false := by
    rw [List.any_eq_false]
    exact fun j hj => by simpa using hf j hj
  have hm : cm.inFlight.map (FlyingJob.meet key) = cm.inFlight := by
    refine (map_congr_left fun j hj => ?_).trans (map_id _)
    rw [FlyingJob.meet, beq_false_of_ne (hf j hj), Bool.or_false]
    rfl
  rw [enqueueWrite, if_neg h, hn, hm]
  rfl

theorem CacheManager.drain_waiting (cm : CacheManager B) : cm.drain.waiting = cm.waiting := by
  rw [drain]
  split
  · rename_i h
    rw [waiting, waiting, isEmpty_iff.mp h, List.map_map, append_nil]
    exact List.map_id _
  · rfl

theorem CacheManager.flush_cases (bk : CacheBackend B) (cm : CacheManager B) (n : Nat)
    (torn : Torn) : cm.flush bk n torn = cm ∨ ∃ pre j post, cm.inFlight = pre ++ j :: post
      ∧ cm.flush bk n torn = { cm with
        inFlight := pre ++ post
        backend := (bk.write cm.backend j.job j.twin torn).2 } := by
  rw [flush]
  cases hj : cm.inFlight[n]? with
  | none => exact .inl rfl
  | some j =>
  obtain ⟨hn, hj⟩ := List.getElem?_eq_some_iff.mp hj
  refine .inr ⟨cm.inFlight.take n, j, cm.inFlight.drop (n + 1), ?_, ?_⟩
  · rw [← hj, ← drop_eq_getElem_cons hn, take_append_drop]
  · rw [eraseIdx_eq_take_drop_succ]

section Unmixed

variable (h : Unmixed cm)
include h

theorem Unmixed.congr (hq : cm'.asyncQueue = cm.asyncQueue) (hi : cm'.inFlight = cm.inFlight) :
    Unmixed cm' :=
  ⟨by rw [hi]; exact h.alone, by rw [hi]; exact h.flying, by rw [hq]; exact h.queued⟩

theorem Unmixed.enqueueWrite (bk : CacheBackend B) (hf : QueueFits cm key) (value : Bytes)
    (expiry : BitVec 32) (torn : Torn) :
    Unmixed (cm.enqueueWrite bk key value expiry torn).2 := by
  rcases CacheManager.enqueueWrite_eq bk hf value expiry torn with ⟨_, hn, heq⟩ | ⟨_, heq⟩
  · rw [heq]
    refine { h with queued := ?_ }
    rw [map_append, nodup_append]
    refine ⟨h.queued, nodup_singleton _, fun k hk k' hk' => ?_⟩
    obtain ⟨job, hj, rfl⟩ := mem_map.mp hk
    rw [mem_singleton.mp hk']
    exact hn job hj
  · rw [heq]
    exact h.congr rfl rfl

/-- A batch is written by its own goroutines only, one for each key. -/
theorem Unmixed.drain : Unmixed cm.drain := by
  rw [CacheManager.drain]
  split
  · refine ⟨fun j hj => ?_, ?_, nodup_nil⟩
    · obtain ⟨job, _, rfl⟩ := mem_map.mp hj
      exact decide_eq_false (Nat.not_lt.mpr (nodup_iff_count_le_one.mp h.queued job.key))
    · rw [List.map_map]
      exact h.queued
  · exact h

theorem Unmixed.flush (bk : CacheBackend B) (n : Nat) (torn : Torn) :
    Unmixed (cm.flush bk n torn) := by
  rcases cm.flush_cases bk n torn with heq | ⟨pre, j, post, hi, heq⟩
  · rw [heq]
    exact h
  · rw [heq]
    have hs : pre ++ post <+ cm.inFlight := by
      rw [hi]
      exact (Sublist.refl pre).append (sublist_cons_self j post)
    exact ⟨fun j hj => h.alone j (hs.subset hj), h.flying.sublist (hs.map _), h.queued⟩

/-- A job of the batch is written as it is. -/
theorem Unmixed.write (hi : cm.inFlight = pre ++ j :: post) (bk : CacheBackend B) (torn : Torn) :
    bk.write cm.backend j.job j.twin torn
      = bk.set cm.backend j.job.key j.job.value j.job.expiry := by
  have ht : j.twin = false := h.alone j (by rw [hi]; exact mem_append_cons_self)
  rw [ht]
  rfl

end Unmixed

/-- What the backend has, and what is on its way to it. -/
structure Sourced (bk : CacheBackend B) (Seen : Key → Bytes → Prop) (cm : CacheManager B) :
    Prop where
  backend : ∀ key v, bk.Has cm.backend key v → Seen key v
  queue : ∀ job ∈ cm.waiting, Seen job.key job.value
  unmixed : Unmixed cm

section Sourced

variable (h : Sourced bk Seen cm)
include h

theorem Sourced.congr (hb : cm'.backend = cm.backend) (hq : cm'.asyncQueue = cm.asyncQueue)
    (hi : cm'.inFlight = cm.inFlight) : Sourced bk Seen cm' := by
  refine ⟨by rw [hb]; exact h.backend, ?_, h.unmixed.congr hq hi⟩
  rw [CacheManager.waiting, hq, hi]
  exact h.queue

theorem Sourced.enqueueWrite (hbk : bk.Lawful) (hf : QueueFits cm key) (expiry : BitVec 32)
    (torn : Torn) (hs : Seen key value) :
    Sourced bk Seen (cm.enqueueWrite bk key value expiry torn).2 := by
  have hu := h.unmixed.enqueueWrite bk hf value expiry torn
  rcases CacheManager.enqueueWrite_eq bk hf value expiry torn with ⟨_, _, heq⟩ | ⟨_, heq⟩
  · rw [heq] at hu ⊢
    refine ⟨h.backend, fun job hj => ?_, hu⟩
    rw [CacheManager.waiting, ← append_assoc] at hj
    rcases mem_append.mp hj with hj | hj
    · exact h.queue job hj
    · rw [mem_singleton.mp hj]
      exact hs
  · rw [heq] at hu ⊢
    refine ⟨fun k v hv => ?_, h.queue, hu⟩
    rcases hbk.set hv with ⟨rfl, rfl⟩ | ⟨_, hv⟩
    · exact hs
    · exact h.backend k v hv

theorem Sourced.drain : Sourced bk Seen cm.drain := by
  refine ⟨?_, by rw [cm.drain_waiting]; exact h.queue, h.unmixed.drain⟩
  have hb : cm.drain.backend = cm.backend := by
    rw [CacheManager.drain]
    split <;> rfl
  rw [hb]
  exact h.backend

theorem Sourced.flush (hbk : bk.Lawful) (n : Nat) (torn : Torn) :
    Sourced bk Seen (cm.flush bk n torn) := by
  have hu := h.unmixed.flush bk n torn
  rcases cm.flush_cases bk n torn with heq | ⟨pre, j, post, hi, heq⟩
  · rw [heq]
    exact h
  have hq := h.queue
  rw [CacheManager.waiting, hi] at hq
  rw [heq] at hu ⊢
  refine ⟨fun k v hv => ?_, fun job hj => hq job ?_, hu⟩
  · rw [h.unmixed.write hi] at hv
    rcases hbk.set hv with ⟨rfl, rfl⟩ | ⟨_, hv⟩
    · exact hq j.job (by simp)
    · exact h.backend k v hv
  · have hj : job ∈ (pre ++ post).map FlyingJob.job ++ cm.asyncQueue := hj
    rw [map_append, map_cons]
    rw [map_append] at hj
    simp only [mem_append, mem_cons] at hj ⊢
    tauto

end Sourced

/-! ## Steps -/

/-- The write of a `put` fits, if it comes to one. -/
def PutFits (h1 : Key → Word) (cm : CacheManager B) (key : Key) (value : Bytes)
    (ttl : BitVec 32) : Prop :=
  cm.overQuota key.tenantID (entryHeaderSize + value.length) = false →
    QueueFits cm key ∧ (value.length
        ≤ (cm.regions (cm.selectSizeClass value.length) (cm.selectTTLTier ttl)).capacity →
      SlabFits h1 cm key value ttl)

/-- A counter is added to through an entry of the slot's generation. -/
def IncrFits (h1 : Key → Word) (cm : CacheManager B) (key : Key) (delta : Word) (ttl : BitVec 32)
    (now : Clock) : Prop :=
  match cm.incrPtr h1 key with
  | none => PutFits h1 cm key (putUint64 delta) ttl
  | some raw =>
    let h := (cm.regions (place raw).1 (place raw).2.1).buf (place raw).2.2
    if h.isCounter now.read then h.gen &&& 3 = (unpack raw).1
    else PutFits h1 cm key (putUint64 delta) ttl

/-- The operations that stay within the keys and the sizes the invariant is about. -/
def CacheOp.Fits (bk : CacheBackend B) (h1 : Key → Word) (K : Set Key) (cm : CacheManager B) :
    CacheOp → Prop
  | .put key value ttl _ => key ∈ K ∧ PutFits h1 cm key value ttl
  | .get key now => key ∈ K ∧ (cm.slabGet h1 key now.read = none →
      ∀ val expiry, bk.get cm.backend now.backend key = some (val, expiry) →
        PutFits h1 cm key val (warmTTL expiry now.warm))
  | .incr key delta ttl now => key ∈ K ∧ IncrFits h1 cm key delta ttl now
  | .rewrite flying n key value =>
    -- the slices of a job that is not written yet keep their bytes
    ∀ job, (if flying then cm.inFlight[n]?.map FlyingJob.job else cm.asyncQueue[n]?) = some job →
      job.rewrite key value = job
  | _ => True

theorem CacheManager.rewrite_of_fits {key value : Bytes}
    (hf : CacheOp.Fits bk h1 K cm (.rewrite flying n key value)) :
    cm.rewrite flying n key value = cm := by
  have hm : ∀ {α : Type} {f : α → α} (l : List α), (∀ a, l[n]? = some a → f a = a) →
      l.modify n f = l := by
    intro α f l h
    refine ext_getElem? fun i => ?_
    rw [getElem?_modify]
    split
    · rename_i hi
      subst hi
      cases hl : l[n]? with
      | none => rfl
      | some a => exact congrArg some (h a hl)
    · simp
  rw [rewrite]
  cases flying with
  | true =>
    rw [if_pos rfl, hm cm.inFlight]
    intro j hj
    have hr := hf j.job (by rw [if_pos rfl, hj]; rfl)
    rw [hr]
  | false =>
    rw [if_neg nofun, hm cm.asyncQueue]
    exact fun job hj => hf job (by rw [if_neg nofun, hj])

/-- What the operation stored or produced for its key. -/
def CacheOp.produced (bk : CacheBackend B) (h1 : Key → Word) (cm : CacheManager B) :
    CacheOp → List (Key × Bytes)
  | .put key value _ _ => [(key, value)]
  | .incr key delta ttl now =>
    match cm.incr bk h1 key delta ttl now with
    | some (r, _) => [(key, putUint64 (if r.2 then r.1 else delta))]
    | none => []
  | _ => []

/-- Every value in the slab and behind it was seen for its key. -/
def Isolated (bk : CacheBackend B) (h1 : Key → Word) (K : Set Key) (Seen : Key → Bytes → Prop)
    (cm : CacheManager B) : Prop :=
  (∃ owner, Owned h1 K Seen owner cm) ∧ Sourced bk Seen cm

theorem Isolated.mono (h : Isolated bk h1 K Seen cm) (hs : ∀ k v, Seen k v → Seen' k v) :
    Isolated bk h1 K Seen' cm := by
  obtain ⟨⟨owner, ho⟩, hsr⟩ := h
  exact ⟨⟨owner, ho.mono hs⟩, fun k v hv => hs k v (hsr.backend k v hv),
    fun job hj => hs _ _ (hsr.queue job hj), hsr.unmixed⟩

/-- The parts of `put`, in order. -/
theorem CacheManager.put_cases (bk : CacheBackend B) (h1 : Key → Word) (cm : CacheManager B)
    (key : Key) (value : Bytes) (ttl : BitVec 32) (now : Clock) :
    (cm.overQuota key.tenantID (entryHeaderSize + value.length) = true
      ∧ cm.put bk h1 key value ttl now = ((0, false), cm))
    ∨ (cm.overQuota key.tenantID (entryHeaderSize + value.length) = false
      ∧ (cm.put bk h1 key value ttl now).2
        = ((cm.enqueueWrite bk key value (expiryAt now.put ttl) now.torn).2.slabPut h1 key
          value ttl now).2
      ∧ ((cm.put bk h1 key value ttl now).1.2 = true
          ↔ (cm.enqueueWrite bk key value (expiryAt now.put ttl) now.torn).1 = true
            ∨ ((cm.enqueueWrite bk key value (expiryAt now.put ttl) now.torn).2.slabPut
              h1 key value ttl
                now).1.isSome)) := by
  rw [CacheManager.put]
  cases hq : cm.overQuota key.tenantID (entryHeaderSize + value.length) with
  | true => exact .inl ⟨rfl, if_pos rfl⟩
  | false =>
  refine .inr ⟨rfl, ?_⟩
  dsimp only
  cases ((cm.enqueueWrite bk key value (expiryAt now.put ttl) now.torn).2.slabPut h1 key value ttl
    now).1 with
  | none => exact ⟨rfl, by simp⟩
  | some ptr => exact ⟨rfl, by simp⟩

theorem Isolated.put (hbk : bk.Lawful) (h : Isolated bk h1 K Seen cm) (now : Clock) (hk : key ∈ K)
    (hsn : Seen key value) (hf : PutFits h1 cm key value ttl) :
    Isolated bk h1 K Seen (cm.put bk h1 key value ttl now).2 := by
  obtain ⟨⟨owner, ho⟩, hsr⟩ := h
  rcases cm.put_cases bk h1 key value ttl now with ⟨_, heq⟩ | ⟨hq, heq, _⟩
  · rw [heq]
    exact ⟨⟨owner, ho⟩, hsr⟩
  rw [heq]
  have hsrc' := hsr.enqueueWrite hbk (hf hq).1 (expiryAt now.put ttl) now.torn hsn
  obtain ⟨backend, queue, flying, hcm⟩ :=
    cm.enqueueWrite_slab bk key value (expiryAt now.put ttl) now.torn
  rw [hcm] at hsrc' ⊢
  have howned' : Owned h1 K Seen owner
      { cm with backend := backend, asyncQueue := queue, inFlight := flying } :=
    ho.congr rfl rfl rfl rfl
  refine ⟨howned'.slabPut now hk hsn (hf hq).2, ?_⟩
  rcases CacheManager.slabPut_cases
    { cm with backend := backend, asyncQueue := queue, inFlight := flying } h1 key value ttl
    now with ⟨_, r, heq, _⟩ | ⟨ptr, cm', heq, hs⟩
  · rw [heq]
    exact hsrc'.congr rfl rfl rfl
  · rw [heq]
    exact hsrc'.congr hs.store.1 hs.store.2.1 hs.store.2.2

theorem CacheManager.incrPtr_get (h : cm.incrPtr h1 key = some raw) :
    (cm.idx (tagOf h1 key).1).get (tagOf h1 key).2 = some raw := by
  rw [CacheManager.incrPtr] at h
  cases hg : (cm.idx (tagOf h1 key).1).get (tagOf h1 key).2 with
  | none =>
    rw [hg] at h
    cases h
  | some raw' =>
  rw [hg] at h
  dsimp only at h
  split at h
  · exact h
  · cases h

/-- What `incr` can do: a `put`, or an addition in place. -/
theorem CacheManager.incr_cases {now : Clock} {r : (Word × Bool) × CacheManager B}
    (h : cm.incr bk h1 key delta ttl now = some r) :
    (r = cm.incrFresh bk h1 key delta ttl now
      ∧ (∀ raw, cm.incrPtr h1 key = some raw → SlabEntry.isCounter
        ((cm.regions (place raw).1 (place raw).2.1).buf (place raw).2.2) now.read = false)
      ∧ (IncrFits h1 cm key delta ttl now → PutFits h1 cm key (putUint64 delta) ttl))
    ∨ ∃ raw e newVal, cm.incrPtr h1 key = some raw
      ∧ (place raw).2.2 < (cm.regions (place raw).1 (place raw).2.1).bufLen
      ∧ (cm.regions (place raw).1 (place raw).2.1).buf (place raw).2.2 = e
      ∧ e.isCounter now.read = true
      ∧ (IncrFits h1 cm key delta ttl now → e.gen &&& 3 = (unpack raw).1)
      ∧ newVal = uint64At (e.data.take 8) + delta
      ∧ r = ((newVal, true), cm.setCounter raw e newVal) := by
  rw [incr] at h
  rw [IncrFits]
  cases hp : cm.incrPtr h1 key with
  | none =>
    rw [hp] at h
    exact .inl ⟨(some.inj h).symm, nofun, id⟩
  | some raw =>
  rw [hp] at h
  dsimp only at h ⊢
  split at h
  · cases h
  rename_i hlt
  split at h
  · rename_i hc
    refine .inr ⟨raw, _, _, rfl, Nat.lt_of_not_le hlt, rfl, hc, fun hf => ?_, rfl,
      (some.inj h).symm⟩
    have hc : ((cm.regions (place raw).1 (place raw).2.1).buf (place raw).2.2).isCounter
      now.read = true := hc
    rw [if_pos hc] at hf
    exact hf
  · rename_i hc
    refine .inl ⟨(some.inj h).symm, fun raw' hr => ?_, fun hf => ?_⟩
    · cases hr
      exact Bool.eq_false_iff.mpr hc
    have hc : ¬ ((cm.regions (place raw).1 (place raw).2.1).buf (place raw).2.2).isCounter
      now.read = true := hc
    rw [if_neg hc] at hf
    exact hf

theorem CacheManager.incrFresh_snd : (cm.incrFresh bk h1 key delta ttl now).2
      = (cm.put bk h1 key (putUint64 delta) ttl now).2 := by
  rw [incrFresh]
  split <;> rfl

/-- What `incr` produced is what it put or added. -/
theorem CacheManager.incrFresh_value :
    (if (cm.incrFresh bk h1 key delta ttl now).1.2 then (cm.incrFresh bk h1 key delta ttl now).1.1
      else delta) = delta := by
  rw [incrFresh]
  split <;> rfl

theorem Isolated.incr (hbk : bk.Lawful) (hK : Set.InjOn (tagOf h1) K) (h : Isolated bk h1 K Seen cm)
    {now : Clock} {r : (Word × Bool) × CacheManager B} (hk : key ∈ K)
    (hf : IncrFits h1 cm key delta ttl now) (hr : cm.incr bk h1 key delta ttl now = some r)
    (hs : Seen key (putUint64 (if r.1.2 then r.1.1 else delta))) :
    Isolated bk h1 K Seen r.2 := by
  rcases CacheManager.incr_cases hr with
    ⟨rfl, _, hp⟩ | ⟨raw, e, v, hpt, hlt, hb, hc, hg, hv, rfl⟩
  · rw [CacheManager.incrFresh_value] at hs
    rw [CacheManager.incrFresh_snd]
    exact h.put hbk now hk hs (hp hf)
  obtain ⟨⟨owner, ho⟩, hsr⟩ := h
  rw [SlabEntry.isCounter, Bool.and_eq_true, beq_iff_eq] at hc
  refine ⟨⟨owner, ho.setCounter hK hk ?_ ?_ hc.2 hs⟩, hsr.congr rfl rfl rfl⟩
  · exact InlineIndex.get_has (isFree_tagOf h1 key) (CacheManager.incrPtr_get hpt)
  · exact entryAt_eq_some.mpr ⟨hlt, hg hf, hb⟩

theorem Owned.sweepSlot (h : Owned h1 K Seen owner cm) (ci ti : Nat) (now : BitVec 32)
    (slot : Nat) : Owned h1 K Seen owner (cm.sweepSlot ci ti now slot) := by
  rw [CacheManager.sweepSlot]
  dsimp only
  split
  · exact h
  split
  · rename_i idx hi
    obtain ⟨hs, hh⟩ := (h.shape _).tryTombstone hi
    exact h.setIdx hs hh
  · exact h

theorem CacheManager.sweepSlot_store (cm : CacheManager B) (ci ti : Nat) (now : BitVec 32)
    (slot : Nat) : (cm.sweepSlot ci ti now slot).backend = cm.backend
      ∧ (cm.sweepSlot ci ti now slot).asyncQueue = cm.asyncQueue
      ∧ (cm.sweepSlot ci ti now slot).inFlight = cm.inFlight := by
  rw [sweepSlot]
  dsimp only
  split
  · exact ⟨rfl, rfl, rfl⟩
  · split <;> exact ⟨rfl, rfl, rfl⟩

theorem Isolated.sweepBatch (h : Isolated bk h1 K Seen cm) (ci ti : Nat) (now : BitVec 32) :
    Isolated bk h1 K Seen (cm.sweepBatch ci ti now) := by
  rw [CacheManager.sweepBatch]
  dsimp only
  split
  · exact h
  generalize map _ (range cleanerBatchSize) = slots
  have hs : Isolated bk h1 K Seen (slots.foldl (sweepSlot ci ti now) cm) := by
    refine foldlRecOn slots _ h fun cm h slot _ => ?_
    obtain ⟨⟨owner, ho⟩, hsr⟩ := h
    obtain ⟨hb, hq, hi⟩ := cm.sweepSlot_store ci ti now slot
    exact ⟨⟨owner, ho.sweepSlot ci ti now slot⟩, hsr.congr hb hq hi⟩
  obtain ⟨⟨owner, ho⟩, hsr⟩ := hs
  exact ⟨⟨owner, ho.congr rfl rfl rfl rfl⟩, hsr.congr rfl rfl rfl⟩

/-- **Every step that fits keeps every slot with its key.** -/
theorem Isolated.step (hbk : bk.Lawful) (hK : Set.InjOn (tagOf h1) K) (h : Isolated bk h1 K Seen cm)
    (hf : op.Fits bk h1 K cm) (hst : cm.step bk h1 op = some cm')
    (hsn : ∀ kv ∈ op.produced bk h1 cm, Seen kv.1 kv.2) : Isolated bk h1 K Seen cm' := by
  have ⟨⟨owner, ho⟩, hsr⟩ := h
  cases op with
  | put key value ttl now =>
    cases hst
    exact h.put hbk now hf.1 (hsn _ (mem_singleton_self _)) hf.2
  | get key now =>
    cases hst
    rw [CacheManager.get]
    cases hg : cm.slabGet h1 key now.read with
    | some v => exact h
    | none =>
    cases hb : bk.get cm.backend now.backend key with
    | none => exact h
    | some r =>
      exact h.put hbk now hf.1 (h.2.backend key r.1 ⟨_, _, hb⟩) (hf.2 hg r.1 r.2 hb)
  | incr key delta ttl now =>
    obtain ⟨r, hr, rfl⟩ := map_eq_some_iff.mp hst
    have hm : Seen key (putUint64 (if r.1.2 then r.1.1 else delta)) := by
      refine hsn (key, _) ?_
      rw [CacheOp.produced, hr]
      exact mem_singleton_self _
    exact h.incr hbk hK hf.1 hf.2 hr hm
  | invalidate key ns =>
    cases hst
    obtain ⟨hs, hh⟩ := (ho.shape (tagOf h1 key).1).delete (isFree_tagOf h1 key) ns
    refine ⟨⟨owner, (ho.setIdx hs hh).congr rfl rfl rfl rfl⟩, ?_, hsr.queue,
      hsr.unmixed.congr rfl rfl⟩
    exact fun k v hv => hsr.backend k v (hbk.delete hv)
  | deleteTenant tenantID =>
    cases hst
    refine ⟨⟨owner, ho.congr rfl rfl rfl rfl⟩, ?_, hsr.queue, hsr.unmixed.congr rfl rfl⟩
    exact fun k v hv => hsr.backend k v (hbk.deleteTenant hv)
  | sweep ci ti now =>
    cases hst
    exact h.sweepBatch ci ti now
  | shrink ci ti now =>
    cases hst
    exact ⟨⟨owner, ho.setRegion ci ti ((ho.regions ci ti).keeps_tryShrink _ now)⟩,
      hsr.congr rfl rfl rfl⟩
  | drain =>
    cases hst
    refine ⟨⟨owner, ?_⟩, hsr.drain⟩
    rw [CacheManager.drain]
    split
    · exact ho.congr rfl rfl rfl rfl
    · exact ho
  | flush n torn =>
    cases hst
    refine ⟨⟨owner, ?_⟩, hsr.flush hbk n torn⟩
    rcases cm.flush_cases bk n torn with heq | ⟨_, _, _, _, heq⟩
    · rw [heq]
      exact ho
    · rw [heq]
      exact ho.congr rfl rfl rfl rfl
  | rewrite flying n key value =>
    cases hst
    rw [CacheManager.rewrite_of_fits hf]
    exact h
  | backendSweep now =>
    cases hst
    refine ⟨⟨owner, ho.congr rfl rfl rfl rfl⟩, ?_, hsr.queue, hsr.unmixed.congr rfl rfl⟩
    exact fun k v hv => hsr.backend k v (hbk.sweep hv)

/-! ## Histories -/

/-- An operation, and the log of what was stored. -/
def cacheAct (bk : CacheBackend B) (h1 : Key → Word) (s : CacheManager B × List (Key × Bytes))
    (op : CacheOp) : Option (CacheManager B × List (Key × Bytes)) :=
  (s.1.step bk h1 op).map (fun cm => (cm, s.2 ++ op.produced bk h1 s.1))

/-- A history of operations that fit, from a manager and an empty log. -/
def CacheHistory (bk : CacheBackend B) (h1 : Key → Word) (K : Set Key) (cm₀ : CacheManager B)
    (ops : List CacheOp) (cm : CacheManager B) (log : List (Key × Bytes)) : Prop :=
  GoodRun (fun s op s' => cacheAct bk h1 s op = some s') (fun s op => op.Fits bk h1 K s.1)
    (cm₀, []) ops (cm, log)

/-- Logged, or in the backend from the start. -/
def SeenIn (bk : CacheBackend B) (b₀ : B) (log : List (Key × Bytes)) (key : Key) (v : Bytes) :
    Prop :=
  (key, v) ∈ log ∨ bk.Has b₀ key v

theorem newCacheManager_isolated
    (hnw : newCacheManager totalMemory sizeClasses ttlTiers tenantLimit b₀ ns = some cm)
    (hc : sizeClasses.length ≤ 4) (ht : ttlTiers.length ≤ 4) (h1 : Key → Word)
    (K : Set Key) : Isolated bk h1 K (SeenIn bk b₀ []) cm := by
  rw [newCacheManager] at hnw
  split at hnw
  · cases hnw
  rename_i he
  split at hnw
  · cases hnw
  rename_i hs
  obtain ⟨idx, hid, hcm⟩ := bind_eq_some_iff.mp hnw
  cases hcm
  obtain ⟨hin, ha⟩ := newInlineIndex_inv hid
  have hn : ∀ t v, ¬ idx.Has t v := by
    intro t v hv
    have := (ha t hv.1 v).mpr hv.2
    cases this
  have hp : ∀ i, 0 < regionStride (sizeClasses.getD i 0) := by
    intro i
    rw [getD_eq_getElem?_getD]
    cases hi : sizeClasses[i]? with
    | none => exact (by decide : 0 < regionStride 0)
    | some s =>
    by_contra hz
    refine hs (any_eq_true.mpr ⟨s, mem_of_getElem? hi, ?_⟩)
    have : regionStride s = 0 := Nat.eq_zero_of_not_pos hz
    rw [this]
    rfl
  refine ⟨⟨fun _ => ⟨0, []⟩, fun _ => hin.shape, fun c t => newRegion_ok (hp c) _, ?_, ?_, ?_,
    ?_⟩, fun k v hv => .inr hv, nofun, nofun, nodup_nil, nodup_nil⟩
  · exact ⟨Nat.pos_of_ne_zero (fun h => he (.inl h)), hc⟩
  · exact ⟨Nat.pos_of_ne_zero (fun h => he (.inr h)), ht⟩
  · exact fun _ t v hv => absurd hv (hn t v)
  · exact fun _ t v _ hv => absurd hv (hn t v)

theorem cacheHistory_isolated (hbk : bk.Lawful) (hK : Set.InjOn (tagOf h1) K)
    (hn : newCacheManager totalMemory sizeClasses ttlTiers tenantLimit b₀ ns = some cm₀)
    (hc : sizeClasses.length ≤ 4) (ht : ttlTiers.length ≤ 4)
    (hr : CacheHistory bk h1 K cm₀ ops cm log) : Isolated bk h1 K (SeenIn bk b₀ log) cm := by
  refine GoodRun.invariant (I := fun s => Isolated bk h1 K (SeenIn bk b₀ s.2) s.1) ?_
    (show GoodRun _ _ _ _ _ from hr) (newCacheManager_isolated hn hc ht h1 K)
  intro s s' op h hf ha
  obtain ⟨cm', hs, rfl⟩ := map_eq_some_iff.mp ha
  refine Isolated.step hbk hK (h.mono ?_) hf hs ?_
  · exact fun k v hv => hv.imp_left (fun hm => mem_append_left _ hm)
  · exact fun kv hkv => .inl (mem_append_right _ hkv)

/-- A read from memory gives what was stored for its key. -/
theorem Isolated.slabGet (hK : Set.InjOn (tagOf h1) K) (h : Isolated bk h1 K Seen cm) (hk : key ∈ K)
    {now : BitVec 32} {v : Bytes} (hg : cm.slabGet h1 key now = some v) :
    Seen key v := by
  obtain ⟨⟨owner, ho⟩, _⟩ := h
  obtain ⟨raw, e, hi, he, rfl⟩ := CacheManager.slabGet_entryAt hg
  exact (ho.entry hK hk (InlineIndex.get_has (isFree_tagOf h1 key) hi) he).2.2

end Rah.Cache
