import Rah.Cache.Alike

/-!
# Tenants are isolated

What a read from memory gives was stored for the same tenant and key, and what other tenants
stored makes no difference to it, in every history whose writes leave alone the slots other keys
take for their own. Without that condition a slot that is written every 64 puts has the same two
generation bits again after 256 of them.
-/

namespace Rah.Cache

open Rah.Lib List Function CacheManager Region

section Isolation

variable {B : Type} {bk : CacheBackend B} {h1 : Key → Word} {K : Set Key}
  {cm₀ cm cm' : CacheManager B} {ops ops' : List CacheOp} {log : List (Key × Bytes)}

/-- A run without conditions. -/
def CacheRun (bk : CacheBackend B) (h1 : Key → Word) (cm₀ : CacheManager B) (ops : List CacheOp)
    (cm : CacheManager B) : Prop :=
  GoodRun (fun cm op cm' => cm.step bk h1 op = some cm') (fun _ _ => True) cm₀ ops cm

/-- The two runs keep in step, and the first one keeps every slot with its key. -/
def InStep (bk : CacheBackend B) (h1 : Key → Word) (K : Set Key) (tenant : BitVec 16)
    (s : CacheManager B × List (Key × Bytes)) (cm' : CacheManager B) : Prop :=
  Isolated bk h1 K (fun _ _ => True) s.1 ∧ ManagerAlike bk tenant s.1 cm'

theorem cacheHistory_inStep (hbk : bk.Lawful) (hob : bk.Oblivious) (hK : Set.InjOn (tagOf h1) K)
    (hst : Isolated bk h1 K (fun _ _ => True) cm₀)
    (ho : List.Forall₂ (OpAlike tenant) ops ops') (hr : CacheHistory bk h1 K cm₀ ops cm log)
    (hrun' : CacheRun bk h1 cm₀ ops' cm') : InStep bk h1 K tenant (cm, log) cm' := by
  refine GoodRun.lockstep (R := InStep bk h1 K tenant) ?_ ho
    (show GoodRun _ _ _ _ _ from hr) (show GoodRun _ _ _ _ _ from hrun')
    ⟨hst, ManagerAlike.refl bk tenant cm₀⟩
  intro s s' t t' op op' h hop hf ha hstep'
  obtain ⟨cm₁, hs, rfl⟩ := Option.map_eq_some_iff.mp ha
  exact ⟨h.1.step hbk hK hf hs (fun _ _ => trivial), h.2.step hob hK h.1 hop hf hs hstep'⟩

end Isolation

/-! ## Histories of two tenants -/

theorem noopBackend_lawful : noopBackend.Lawful := by
  have hn : ∀ {b key v}, ¬ noopBackend.Has b key v := by
    intro b key v h
    obtain ⟨_, _, h⟩ := h
    exact absurd h (by simp [noopBackend])
  exact ⟨fun h => absurd h hn, fun h => absurd h hn, fun h => absurd h hn, fun h => absurd h hn⟩

theorem noopBackend_oblivious : noopBackend.Oblivious := by
  have ha : ∀ tenant b b', BackendAlike noopBackend tenant b b' :=
    fun _ _ _ _ _ => ⟨rfl, fun _ _ _ _ h => absurd h (by simp [noopBackend])⟩
  exact ⟨fun _ _ _ => ⟨rfl, ha _ _ _⟩, fun _ _ => ha _ _ _, fun _ _ => ha _ _ _,
    fun _ _ => ha _ _ _⟩

/-- All clocks at zero. -/
def early : Clock :=
  { put := 0, write := 0, read := 0, backend := 0, warm := 0, ns := 0, torn := ⟨[], 0⟩ }

/-- The key `a` of tenant 1 or tenant 2. -/
def keyOf (u : Bool) : Key := ⟨if u then 2 else 1, [97]⟩

/-- A tag for the keys that are hashed, which these are not. -/
def noHash : Key → Word := fun _ => 0

/-- The tag of either tenant's key. -/
def tagFor (u : Bool) : Word := (tagOf noHash (keyOf u)).2

/-- One class of eight bytes, one tier, regions of 64 slots. -/
def smallManager : CacheManager Unit :=
  { sizeClasses := [8], ttlTiers := [60],
    regions := fun i _ =>
      newRegion (regionStride ([8].getD i 0)) (24 / regionStride ([8].getD i 0)),
    cleanSlots := fun _ _ => 0, idx := fun _ => blankIndex 8, tenantLimit := 0,
    tenantUsage := fun _ => 0, backend := (), asyncQueue := [], inFlight := [],
    shrinkThreshold := 10 }

theorem smallManager_eq : newCacheManager 24 [8] [60] 0 () 0 = some smallManager := by
  have hs : (newInlineIndex 0 0).isSome := rfl
  obtain ⟨idx, hi⟩ := Option.isSome_iff_exists.mp hs
  rw [newCacheManager, hi, (newInlineIndex_some hi).2]
  rfl

theorem blankIndex_no_entry (t v : Word) : ¬ (blankIndex 8).Has t v := by
  intro hv
  obtain ⟨_, _, _, hc⟩ := hv.2
  exact ne_iEmpty_of_live hv.1 (congrArg ISlot.tag hc).symm

/-! ## Going round a region -/

/-- The root nodes of the two tags. -/
def rootFor (u : Bool) : Nat := if u then 19 else 18

/-- The back-pointers of the two keys. -/
def refFor (u : Bool) : Word := smallManager.backRef noHash (keyOf u)

/-- A node with nothing but one tag's entry, if there is one. -/
def filled (tag : Word) : Option Word → INode
  | none => INode.blank
  | some v => INode.blank.put 0 tag v

/-- The pointer to the slot of the `n`-th write. -/
def ptrAt (n : Nat) : Word := slabPtr ⟨n % 64 * 24, BitVec.ofNat 8 (n / 64), none⟩ 60 0 0

/-- The numbers of the two keys: where their tags lead, and that the back-pointer of an entry has
lost the upper bits of its tag. -/
theorem key_numbers (u : Bool) : iEmpty ≠ tagFor u
    ∧ (List.range' 1 256).getD (tagFor u &&& 255#64).toNat 0 = rootFor u
    ∧ tagFor u ≠ tagBits (refFor u) ∧ iEmpty ≠ tagBits (refFor u)
    ∧ tagBits (refFor u) &&& 255#64 = tagFor u &&& 255#64 ∧ laneOf (refFor u) = .tiny
    ∧ tagFor u ≠ tagFor (!u) := by
  cases u <;> decide +kernel

/-- After `n` writes by the two tenants. -/
structure Round (n : Nat) (ptrs : Bool → Option Word) (cm : CacheManager Unit) : Prop where
  config : cm.sizeClasses = [8] ∧ cm.ttlTiers = [60] ∧ cm.tenantLimit = 0
  shards : (cm.idx .tiny).shards = List.range' 1 256
  mask : (cm.idx .tiny).shardMask = 255#64
  bits : (cm.idx .tiny).shardBits = 8
  nodes : ∀ u, (cm.idx .tiny).pool.nodes (rootFor u) = filled (tagFor u) (ptrs u)
  count : (cm.regions 0 0).count = 64 ∧ (cm.regions 0 0).maxCount = 64
  stride : (cm.regions 0 0).stride = 24
  writeSlot : (cm.regions 0 0).writeSlot = n
  refs : ∀ off, ((cm.regions 0 0).buf off).xSlotPtr = 0
    ∨ ∃ u, ((cm.regions 0 0).buf off).xSlotPtr = refFor u

theorem round_zero : Round 0 (fun _ => none) smallManager := by
  refine ⟨⟨rfl, rfl, rfl⟩, rfl, rfl, rfl, fun _ => rfl, ⟨rfl, rfl⟩, rfl, rfl,
    fun _ => .inl rfl⟩

section Round

variable {n : Nat} {ptrs : Bool → Option Word} {cm : CacheManager Unit}

theorem Round.root (h : Round n ptrs cm) (ht : t &&& 255#64 = tagFor u &&& 255#64) :
    (cm.idx .tiny).root t = rootFor u := by
  rw [InlineIndex.root, InlineIndex.shardOf, h.shards, h.mask, ht]
  exact (key_numbers u).2.1

theorem insertAt_filled :
    insertAt (filled (tagFor u) o) (tagFor u) v = some (filled (tagFor u) (some v)) := by
  have hne : iEmpty ≠ tagFor u := (key_numbers u).1
  cases o with
  | none =>
    exact (if_neg hne).trans (if_pos rfl)
  | some w =>
  show insertLoop (INode.blank.put 0 (tagFor u) w) (tagFor u) v (0 :: _) none = _
  refine (if_pos rfl).trans ?_
  rw [INode.setVal, filled, INode.put, INode.put]
  dsimp only
  rw [update_self, update_idem]

/-- The index never finds the entry that a back-pointer names. -/
theorem Round.not_isLive (h : Round n ptrs cm) (u : Bool) (off : Nat) (gen : BitVec 8) :
    (cm.idx .tiny).isLive (tagBits (refFor u)) off gen = false := by
  obtain ⟨-, -, htag, hempty, hmask, -⟩ := key_numbers u
  have hs : (filled (tagFor u) (ptrs u)).slotAt (tagBits (refFor u)) off gen = none := by
    rw [INode.slotAt, find?_eq_none]
    intro i _
    have ht : ((filled (tagFor u) (ptrs u)).slots i).tag ≠ tagBits (refFor u) := by
      cases ptrs u with
      | none => exact hempty
      | some v =>
      by_cases hi : i = 0
      · subst hi
        exact htag
      · rw [filled, INode.put_slots_ne hi]
        exact hempty
    rw [Bool.and_eq_true, beq_iff_eq]
    exact fun hc => ht hc.1
  have hr : (cm.idx .tiny).root (tagBits (refFor u)) = rootFor u := h.root hmask
  have hch : ∀ b, (filled (tagFor u) (ptrs u)).children b = 0 := by
    intro b
    cases ptrs u <;> rfl
  rw [InlineIndex.isLive, hr, isLiveLoop, if_neg (by cases u <;> decide), h.nodes u]
  dsimp only
  rw [hs, hch]
  rfl

/-- The slot of the `n`-th write has its entry. -/
def Wrote (b : UInt8) (n : Nat) (r : Region) : Prop :=
  ∃ e, r.buf (n % 64 * 24) = e ∧ e.gen = BitVec.ofNat 8 (n / 64) ∧ e.keyMid = 0 ∧ e.expiry = 60
    ∧ e.valueLen = 1 ∧ e.value = [b]

/-- Where the next write goes. -/
theorem Round.aims (h : Round n ptrs cm) (b : UInt8) :
    cm.selectSizeClass [b].length = 0 ∧ cm.selectTTLTier 60 = 0
      ∧ (cm.regions 0 0).ready = cm.regions 0 0 ∧ cm.target [b] 60 = cm.regions 0 0
      ∧ (cm.regions 0 0).nextOff = n % 64 * 24
      ∧ (cm.regions 0 0).nextGen = BitVec.ofNat 8 (n / 64) := by
  have hc : cm.selectSizeClass [b].length = 0 := by
    rw [selectSizeClass, h.config.1]
    rfl
  have htr : cm.selectTTLTier 60 = 0 := by
    rw [selectTTLTier, h.config.2.1]
    rfl
  have hrd : (cm.regions 0 0).ready = cm.regions 0 0 := by
    refine (ready_keeps _).2.2 ?_
    rw [h.count.1, h.count.2]
    decide
  have ho : (cm.regions 0 0).nextOff = n % 64 * 24 := by
    rw [nextOff, physSlot, h.count.1, h.count.2, h.writeSlot, h.stride]
    rfl
  have hg : (cm.regions 0 0).nextGen = BitVec.ofNat 8 (n / 64) := by
    rw [nextGen, h.count.1, h.count.2, h.writeSlot]
    rfl
  exact ⟨hc, htr, hrd, by rw [target, hc, htr, hrd], ho, hg⟩

/-- Every write of the two tenants finds its slot. -/
theorem Round.slabPut (h : Round n ptrs cm) (u : Bool) (b : UInt8) :
    ∃ ptr cm', cm.slabPut noHash (keyOf u) [b] 60 early = (some ptr, cm')
      ∧ Wrote b n (cm'.regions 0 0)
      ∧ Round (n + 1) (update ptrs u (some (ptrAt n))) cm' := by
  obtain ⟨hc, htr, hrd, ht, ho, hg⟩ := h.aims b
  rcases cm.slabPut_cases noHash (keyOf u) [b] 60 early with ⟨hrf, _⟩ | ⟨ptr, cm', heq, hs⟩
  · -- the write is never refused
    rw [hc, htr] at hrf
    rcases hrf with hlen | ⟨hne, hl⟩
    · rw [capacity, h.stride] at hlen
      exact absurd (show 1 > 24 - 16 from hlen) (by decide)
    rw [hrd] at hne hl
    rcases h.refs (cm.regions 0 0).nextOff with hz | ⟨u', hu'⟩
    · exact absurd hz hne
    · rw [hu', canRecycle, (key_numbers u').2.2.2.2.2.1, h.not_isLive] at hl
      cases hl
  · refine ⟨ptr, cm', heq, ?_⟩
    obtain ⟨sp, hsp, hrg⟩ := hs.region
    obtain ⟨w, hp, hw, hi⟩ := hs.index
    have hr : cm'.regions 0 0 = (cm.regions 0 0).store (cm.entryFor (keyOf u) [b] 60 early sp) := by
      rw [hrg, hc, htr, ht]
      rfl
    have hwr : Wrote b n (cm'.regions 0 0) := by
      rw [hr]
      refine ⟨_, (by rw [← ho]; exact update_self ..), ?_, ?_, rfl, rfl,
        cm.entryFor_value (keyOf u) 60 early sp (show 1 < 65536 by decide)⟩
      · rw [← hg, ← ht]
        rfl
      · cases u <;> rfl
    have hpt : slabPtr w (expiryAt early.put 60) (cm.selectSizeClass [b].length)
        (cm.selectTTLTier 60) = ptrAt n := by
      rw [ht] at hp hw
      rw [hc, htr, slabPtr, hp, hw, ho, hg]
      rfl
    have hln : (tagOf noHash (keyOf u)).1 = .tiny := by cases u <;> rfl
    have hst : cm'.idx .tiny = { cm.idx .tiny with
        pool := (cm.idx .tiny).pool.setNode (rootFor u) (filled (tagFor u) (some (ptrAt n))) } := by
      rw [hi, hpt]
      show (cm.idx .tiny).set (tagFor u) (ptrAt n) early.ns = _
      rw [InlineIndex.set, h.root rfl, upsertLoop, h.nodes u, insertAt_filled]
    refine ⟨hwr, ?_, ?_, ?_, ?_, ?_, ?_, ?_, ?_, ?_⟩
    · rw [hs.config.1, hs.config.2.1, hs.config.2.2]
      exact h.config
    · rw [hst]
      exact h.shards
    · rw [hst]
      exact h.mask
    · rw [hst]
      exact h.bits
    · intro u'
      rw [hst]
      by_cases hu : u' = u
      · subst hu
        rw [update_self]
        exact INodePool.setNode_nodes_self ..
      · rw [update_of_ne hu]
        refine (INodePool.setNode_nodes_ne _ _ ?_).trans (h.nodes u')
        revert hu
        cases u <;> cases u' <;> decide
    · rw [hr]
      exact h.count
    · rw [hr]
      exact h.stride
    · rw [hr]
      exact congrArg (· + 1) h.writeSlot
    intro off
    rw [hr]
    by_cases hat : off = (cm.regions 0 0).nextOff
    · rw [show ((cm.regions 0 0).store _).buf off = cm.entryFor (keyOf u) [b] 60 early sp by
        rw [hat]; exact update_self ..]
      refine hsp.imp_right (fun hsp => ⟨u, ?_⟩)
      rw [hsp, backRef, hln, h.mask]
      rfl
    · rw [show ((cm.regions 0 0).store _).buf off = (cm.regions 0 0).buf off from
        update_of_ne hat ..]
      exact h.refs off

theorem Round.put (h : Round n ptrs cm) (u : Bool) (b : UInt8) :
    Wrote b n ((cm.put noopBackend noHash (keyOf u) [b] 60 early).2.regions 0 0)
      ∧ Round (n + 1) (update ptrs u (some (ptrAt n)))
          (cm.put noopBackend noHash (keyOf u) [b] 60 early).2 := by
  rcases cm.put_cases noopBackend noHash (keyOf u) [b] 60 early with ⟨hqt, _⟩ | ⟨_, heq, _⟩
  · rw [overQuota, h.config.2.2] at hqt
    cases hqt
  have hr : Round n ptrs
      (cm.enqueueWrite noopBackend (keyOf u) [b] (expiryAt early.put 60) early.torn).2 := by
    obtain ⟨_, _, _, hq⟩ :=
      cm.enqueueWrite_slab noopBackend (keyOf u) [b] (expiryAt early.put 60) early.torn
    rw [hq]
    exact { h with }
  obtain ⟨ptr, cm', hp, hround'⟩ := hr.slabPut u b
  rw [heq, hp]
  exact hround'

/-- Any number of puts by the second tenant. -/
theorem Round.puts (b : UInt8) (log : List (Key × Bytes)) (k : Nat) (h : Round n ptrs cm) :
    ∃ cm' ptrs', GoodRun (fun s op s' => cacheAct noopBackend noHash s op = some s')
        (fun _ _ => True) (cm, log) (replicate k (.put (keyOf true) [b] 60 early))
        (cm', log ++ replicate k (keyOf true, [b]))
      ∧ Round (n + k) ptrs' cm' ∧ ptrs' false = ptrs false := by
  induction k generalizing log n ptrs cm with
  | zero =>
    refine ⟨cm, ptrs, ?_, h, rfl⟩
    rw [replicate_zero, replicate_zero, append_nil]
    exact .nil _
  | succ k ih =>
  obtain ⟨_, hr⟩ := h.put true b
  obtain ⟨cm', ptrs', hrn, hround', hp⟩ := ih (log ++ [(keyOf true, [b])]) hr
  refine ⟨cm', ptrs', ?_, by rw [Nat.add_comm k 1, ← Nat.add_assoc]; exact hround', hp⟩
  rw [append_assoc] at hrn
  exact .cons trivial rfl hrn

/-- An entry of the first tenant's tag is found at the root. -/
theorem Round.get (h : Round n ptrs cm) (hv : ptrs false = some v) :
    (cm.idx .tiny).get (tagFor false) = some v := by
  have hh : h2AnyMatch (filled (tagFor false) (some v)).h2word (h2ForTag (tagFor false)) = true
      ∧ (filled (tagFor false) (some v)).slotOf (tagFor false) = some 0 := by
    refine ⟨?_, ?_⟩
    · show h2AnyMatch (h2Set 0 0 (h2ForTag (tagFor false))) (h2ForTag (tagFor false)) = true
      exact h2AnyMatch_of_lane (i := 0) (lane_h2Set.trans (if_pos rfl))
    · show find? _ (0 :: _) = _
      rw [find?_cons_of_pos]
      exact beq_self_eq_true (tagFor false)
  rw [InlineIndex.get, h.root (u := false) rfl, getLoop, h.nodes false, hv]
  dsimp only
  rw [if_pos hh.1]
  rfl

end Round

/-! ## One write by each tenant -/

theorem tagOf_keyOf_inj : Set.InjOn (tagOf noHash) (Set.range keyOf) := by
  rintro _ ⟨u, rfl⟩ _ ⟨u', rfl⟩ h
  have ht : tagFor u = tagFor u' := congrArg Prod.snd h
  cases u <;> cases u' <;> [rfl; skip; skip; rfl] <;>
    exact absurd ht (key_numbers _).2.2.2.2.2.2

/-- The first tenant has written its key. -/
def firstPut : CacheManager Unit :=
  (smallManager.put noopBackend noHash (keyOf false) [1] 60 early).2

theorem firstPut_fits : PutFits noHash smallManager (keyOf false) [1] 60 := by
  refine fun _ => ⟨nofun, fun _ => ⟨by decide, show 0 < 17592186044416 by decide,
    show 1 + 1 <<< 8 + 1 < 4294967296 by decide, ?_⟩⟩
  exact fun _ t v hv => absurd hv (blankIndex_no_entry t v)

/-- The write of the first value is queued. -/
def firstQueued : CacheManager Unit :=
  { smallManager with asyncQueue := [⟨keyOf false, [1], 60⟩] }

theorem firstPut_stored : Stored noHash firstQueued (keyOf false) [1] 60 early firstPut := by
  have hz : Round 0 (fun _ => none) firstQueued := { round_zero with }
  obtain ⟨ptr, cm, hp, _⟩ := hz.slabPut false 1
  rcases firstQueued.slabPut_cases noHash (keyOf false) [1] 60 early with
    ⟨_, r, heq, _⟩ | ⟨ptr', cm', heq, hs⟩
  · rw [hp] at heq
    cases heq
  rcases put_cases noopBackend noHash smallManager (keyOf false) [1] 60 early with
    ⟨hqt, _⟩ | ⟨_, hput, _⟩
  · cases hqt
  · have hc : firstPut = cm' := hput.trans (congrArg Prod.snd heq)
    rw [hc]
    exact hs

/-- There is one entry, and it points to the first slot. -/
theorem firstPut_has {lane : Lane} (hv : (firstPut.idx lane).Has tag raw) :
    (lane, tag) = tagOf noHash (keyOf false) ∧ place raw = (0, 0, 0) := by
  have hiso : Isolated noopBackend noHash (Set.range keyOf) _ smallManager :=
    newCacheManager_isolated smallManager_eq (by decide) (by decide) _ _
  obtain ⟨⟨_, ho⟩, _⟩ := hiso
  rcases firstPut_stored.has (ho.shape .tiny) (show 1 + 1 <<< 8 + 1 < 4294967296 by decide) hv with
    ⟨ht, w, hw, _, rfl⟩ | hv
  · have hz : w.physOff = 0 := hw
    refine ⟨ht, ?_⟩
    exact (place_slabPtr w _ (show 0 < 4 by decide) (show 0 < 4 by decide)
      (by rw [hz]; decide)).trans (by rw [hz])
  · exact absurd hv (blankIndex_no_entry tag raw)

/-- The second tenant's value goes to the next slot, to which no entry points. -/
theorem secondPut_fits (b : UInt8) : PutFits noHash firstPut (keyOf true) [b] 60 := by
  have hn : (firstPut.target [b] 60).nextOff = 24 := by
    show (firstPut.target [0] 60).nextOff = 24
    decide +kernel
  refine fun _ => ⟨?_, fun _ => ⟨show 1 < 65536 by decide, ?_, ?_, ?_⟩⟩
  · rw [QueueFits, firstPut_stored.store.2.1]
    decide
  · rw [hn]
    decide
  · show (firstPut.idx .tiny).pool.next + 1 < 4294967296
    decide +kernel
  · intro lane tag raw hv _ hp
    rw [(firstPut_has hv).2, hn] at hp
    cases hp

/-- Each tenant puts a value; the background writer has them written, the second one first. -/
def eachPuts (b : UInt8) : List CacheOp :=
  [.put (keyOf false) [1] 60 early, .put (keyOf true) [b] 60 early, .drain, .flush 1 ⟨[], 0⟩,
    .flush 0 ⟨[], 0⟩]

/-- The second tenant has written the byte, and the backend's queue is drained. -/
def afterEach (b : UInt8) : CacheManager Unit :=
  CacheManager.flush noopBackend (CacheManager.flush noopBackend
    (firstPut.put noopBackend noHash (keyOf true) [b] 60 early).2.drain 1 ⟨[], 0⟩) 0 ⟨[], 0⟩

theorem eachPuts_run (b : UInt8) : CacheRun noopBackend noHash smallManager (eachPuts b)
    (afterEach b) :=
  .cons trivial rfl (.cons trivial rfl (.cons trivial rfl (.cons trivial rfl (.cons trivial rfl
    (.nil _)))))

theorem eachPuts_history (b : UInt8) : CacheHistory noopBackend noHash (Set.range keyOf)
    smallManager (eachPuts b) (afterEach b) [(keyOf false, [1]), (keyOf true, [b])] :=
  .cons ⟨⟨false, rfl⟩, firstPut_fits⟩ rfl (.cons ⟨⟨true, rfl⟩, secondPut_fits b⟩ rfl
    (.cons trivial rfl (.cons trivial rfl (.cons trivial rfl (.nil _)))))

end Rah.Cache
