import Rah.Cache.Walks
import Rah.Lib.Run

/-!
# The inline index is a finite map

The index against the map it stands for. A write to a tag that has no entry is dropped when
every slot on the tag's path, eleven nodes long, is taken; every other operation is the map's
own. That holds along every history in which no write finds a free slot above the entry it
should update: such a write would leave a second copy of the tag further down, which a
later delete or collapse brings back.
-/

namespace Rah.Cache

open Rah.Lib Function List InlineIndex Option INodePool

/-- The invariant of a quiescent index: its pool is sound and every shard has a root. -/
structure IndexInv (idx : InlineIndex) : Prop where
  sound : Sound (onPath idx.shardBits idx.shardMask) idx.shards idx.pool []
  rooted : ∀ tag, idx.root tag ≠ 0

/-- The slots of the node at depth `d` of a tag's path. -/
def InlineIndex.pathCell (idx : InlineIndex) (tag : Word) (d : Nat) (i : Fin 4) : ISlot :=
  idx.pool.cells idx.shards (idx.shardOf tag) (route idx.shardBits tag d) i

/-- Every slot on the tag's path is taken by another entry. -/
def NoRoom (idx : InlineIndex) (tag : Word) : Prop :=
  ∀ d, d < iMaxDepth + 1 → ∀ i, isFree (idx.pathCell tag d i).tag = false
    ∧ (idx.pathCell tag d i).tag ≠ tag

instance (idx : InlineIndex) (tag : Word) : Decidable (NoRoom idx tag) :=
  inferInstanceAs (Decidable (∀ d, d < iMaxDepth + 1 → ∀ _, _))

/-- No slot above the tag's entry, if it has one, is free. -/
def Clear (idx : InlineIndex) (tag : Word) : Prop :=
  ∀ d, d < iMaxDepth + 1 → ∀ i, (idx.pathCell tag d i).tag = tag →
    ∀ d', d' < d → ∀ j, isFree (idx.pathCell tag d' j).tag = false

instance (idx : InlineIndex) (tag : Word) : Decidable (Clear idx tag) :=
  inferInstanceAs (Decidable (∀ d, d < iMaxDepth + 1 → ∀ _, _ → ∀ d', d' < d → ∀ _, _))

/-- The map has the entries of the index. -/
def Agrees (idx : InlineIndex) (m : Word → Option Word) : Prop :=
  ∀ t, isFree t = false → ∀ v, m t = some v ↔ Holds (idx.pool.cells idx.shards) t v

section Operations

variable {idx : InlineIndex} {m : Word → Option Word} {tag : Word}

section

variable (h : IndexInv idx) (hlive : isFree tag = false)
include h hlive

/-- An entry is found on its tag's path. -/
theorem IndexInv.holds_iff (v : Word) :
    Holds (idx.pool.cells idx.shards) tag v ↔ ∃ d i, idx.pathCell tag d i = ⟨tag, v⟩ := by
  refine ⟨fun hv => ?_, fun hv => ?_⟩
  · obtain ⟨a, pos, i, hv⟩ := hv
    have hp := h.sound.filed.placed (a := a) (i := i) (by rw [hv]; exact hlive)
    rw [hv] at hp
    obtain ⟨rfl, hps⟩ := hp
    exact ⟨pos.length, i, by rw [pathCell, ← hps]; exact hv⟩
  · obtain ⟨d, i, hv⟩ := hv
    exact ⟨_, _, i, hv⟩

/-- **A read gives the entry's value.** -/
theorem IndexInv.get_iff (v : Word) :
    idx.get tag = some v ↔ Holds (idx.pool.cells idx.shards) tag v := by
  rw [h.holds_iff hlive]
  have hw := getLoop_iff h.sound.pool (idx.shardOf tag) idx.shardBits hlive ?_ v
    (iMaxDepth + 1) 0 (by omega)
  · refine hw.trans ⟨fun hc => ?_, fun hc => ?_⟩
    · obtain ⟨d, i, _, hc⟩ := hc
      exact ⟨d, i, hc⟩
    · obtain ⟨d, i, hc⟩ := hc
      exact ⟨d, i, Nat.zero_le d, hc⟩
  · intro d i d' i' ht htag'
    obtain ⟨_, hp, hi⟩ := h.sound.filed.once (by rw [ht]; exact hlive) (ht.trans htag'.symm)
    have hl := congrArg length hp
    rw [route_length, route_length] at hl
    exact ⟨hl, hi⟩

/-- A tag that no cell of its path has is nowhere. -/
theorem IndexInv.absent
    (hn : ∀ d, d < iMaxDepth + 1 → ∀ i, (idx.pathCell tag d i).tag ≠ tag) (a : Nat)
    (pos : List (Fin 8)) (i : Fin 4) : (idx.pool.cells idx.shards a pos i).tag ≠ tag := by
  intro ht
  have hc : isFree (idx.pool.cells idx.shards a pos i).tag = false := by
    rw [ht]
    exact hlive
  have hp := h.sound.filed.placed hc
  rw [ht] at hp
  obtain ⟨rfl, hps⟩ := hp
  have hd := h.sound.pool.depth _ _ (h.sound.pool.nodeAt_of_live hc)
  refine hn pos.length (by omega) i ?_
  rw [pathCell, ← hps]
  exact ht

/-- Where a write puts its entry: on the path, in the tag's own slot or in a free one. -/
theorem IndexInv.set_cases (hr : idx.pool.Room) (hcl : Clear idx tag) (val : Word) (now : Int) :
    (NoRoom idx tag ∧ idx.set tag val now = idx)
    ∨ (¬ NoRoom idx tag ∧ ∃ d i, PoolInv idx.shards (idx.set tag val now).pool []
      ∧ CellSet (idx.pool.cells idx.shards) ((idx.set tag val now).pool.cells idx.shards)
          (idx.shardOf tag) (route idx.shardBits tag d) i ⟨tag, val⟩
      ∧ Takes (idx.pool.cells idx.shards) (idx.shardOf tag) (route idx.shardBits tag d) i tag) := by
  have hp := h.sound.pool
  obtain ⟨p', hup, hs⟩ := hp.set_upserted (h.rooted tag) hlive val now
  rw [hs]
  cases hup with
  | update d i hne htg =>
    obtain ⟨hi, hc⟩ := hp.setVal hne htg val
    refine .inr ⟨fun hno => ?_, d, i, hi, hc, .inl htg⟩
    exact (hno d (Nat.lt_succ_of_le (hp.depth_of_tag hlive htg)) i).2 htg
  | place d i hne ht ho hf hfr =>
    have hdp : d < iMaxDepth + 1 := by
      have := hp.depth _ _ hne
      rw [route_length] at this
      omega
    obtain ⟨hi, hc⟩ := hp.put hne hlive hfr val
    refine .inr ⟨fun hno => ?_, d, i, hi, hc, .inr ⟨hf, h.absent hlive ?_⟩⟩
    · exact absurd hf (Bool.eq_false_iff.mp (hno d hdp i).1)
    -- the tag is neither above nor here, and below it would not be clear
    intro d' hd' j htg
    rcases Nat.lt_trichotomy d' d with hlt | heq | hgt
    · exact (ht d' hlt j).2 htg
    · subst heq
      exact ho j htg
    · exact absurd hf (Bool.eq_false_iff.mp (hcl d' hd' j htg d hgt i))
  | child d hd hne ht hz =>
    obtain ⟨i, hi, hc⟩ := hp.addChild hr hne hz (by rw [route_length]; exact hd) hlive val now
    have he : ∀ d', d + 1 ≤ d' → ∀ j, idx.pathCell tag d' j = ⟨iEmpty, 0⟩ :=
      fun d' hle j => hp.cells_of_zero (hp.nodeAt_route_zero hle hz) j
    refine .inr ⟨fun hno => ?_, d + 1, i, hi, hc, .inr ⟨?_, h.absent hlive ?_⟩⟩
    · have := (hno (d + 1) (by omega) i).1
      rw [he (d + 1) (by omega)] at this
      exact absurd isFree_iEmpty (Bool.eq_false_iff.mp this)
    · rw [hp.cells_of_zero hz]
      exact isFree_iEmpty
    intro d' hd' j htg
    rcases Nat.lt_or_ge d' (d + 1) with hlt | hge
    · exact (ht d' hlt j).2 htg
    · rw [he d' hge] at htg
      exact ne_iEmpty_of_live hlive htg.symm
  | drop ht => exact .inl ⟨ht, rfl⟩

end

/-- **A write is the map's write**, or it is dropped for want of room. -/
theorem IndexInv.set (h : IndexInv idx) (hm : Agrees idx m) (hlive : isFree tag = false)
    (hr : idx.pool.Room) (hcl : Clear idx tag) (val : Word) (now : Int) :
    IndexInv (idx.set tag val now) ∧ Agrees (idx.set tag val now)
      (if NoRoom idx tag then m else update m tag (some val)) := by
  rcases h.set_cases hlive hr hcl val now with
    ⟨hno, hs⟩ | ⟨hy, d, i, hi, hc, htk⟩
  · rw [hs, if_pos hno]
    exact ⟨h, hm⟩
  have hp := onPath_route idx.shardBits idx.shardMask tag d
  refine ⟨⟨⟨hi, h.sound.filed.set hc hlive hp htk⟩, h.rooted⟩, ?_⟩
  rw [if_neg hy]
  intro t ht v
  by_cases heq : t = tag
  · subst heq
    rw [update_self, some.injEq, eq_comm]
    exact (Holds.set_self h.sound.filed hc hlive hp htk v).symm
  · rw [update_of_ne heq, hm t ht v]
    exact (Holds.set_ne hc htk ht heq v).symm

theorem Agrees.same (hm : Agrees idx m) (hs : SameEntries idx.shards idx.pool p) :
    Agrees { idx with pool := p } m :=
  fun t ht v => (hm t ht v).trans (hs t ht v).symm

/-- What a delete can do: nothing, or the tag's cell is buried and the nodes above it collapse. -/
theorem PoolInv.delete_cases (h : PoolInv idx.shards idx.pool []) (hl : isFree tag = false)
    (now : Int) :
    ((idx.delete tag now).2 = idx ∧ ∀ d i, (idx.pool.cells idx.shards (idx.shardOf tag)
        (route idx.shardBits tag d) i).tag ≠ tag)
    ∨ ∃ a q i p, (idx.pool.cells idx.shards a q i).tag = tag ∧ PoolInv idx.shards p []
      ∧ CellSet (idx.pool.cells idx.shards) (p.cells idx.shards) a q i ⟨iTombstone, 0⟩
      ∧ p.nodeAt idx.shards a q ≠ 0 ∧ (idx.delete tag now).2 = { idx with
        pool := (collapseUp (q.tails.map (p.nodeAt idx.shards a)) p []).1.recycle
          (collapseUp (q.tails.map (p.nodeAt idx.shards a)) p []).2 now } := by
  unfold InlineIndex.delete
  rcases findPath_cases h (idx.shardOf tag) idx.shardBits hl (iMaxDepth + 1) 0 (by omega) with
    ⟨hf, hn⟩ | ⟨d, i, hne, ht, hf⟩ <;>
    rw [show findPath tag _ idx.pool (idx.root tag) idx.shardBits [] = _ from hf]
  · exact .inl ⟨rfl, fun d i => hn d i d.zero_le⟩
  obtain ⟨hi, hc⟩ := h.bury hne i
  refine .inr ⟨_, _, i, _, ht, hi, hc, ?_⟩
  have hat : ∀ n a, (idx.pool.setNode n ((idx.pool.nodes n).bury i)).nodeAt idx.shards a
      = idx.pool.nodeAt idx.shards a :=
    fun n a => funext fun pos => setNode_nodeAt _ _ n (by rfl) a pos
  rw [hat]
  exact ⟨hne, rfl⟩

/-- **A delete is the map's delete.** -/
theorem IndexInv.delete (h : IndexInv idx) (hm : Agrees idx m) (hlive : isFree tag = false)
    (now : Int) : IndexInv (idx.delete tag now).2
      ∧ Agrees (idx.delete tag now).2 (update m tag none) := by
  rcases h.sound.pool.delete_cases hlive now with ⟨hs, hn⟩ | ⟨a, q, i, p, htg, hi, hc, hne, hs⟩
  · rw [hs]
    refine ⟨h, fun t ht v => ?_⟩
    by_cases heq : t = tag
    · subst heq
      rw [h.holds_iff ht]
      refine ⟨fun hv => absurd hv (by simp), fun hv => ?_⟩
      obtain ⟨d, i, hv⟩ := hv
      exact absurd (congrArg ISlot.tag hv) (hn d i)
    · rw [update_of_ne heq]
      exact hm t ht v
  · obtain ⟨hup, hsm⟩ := collapseUp_spec (onPath_closedUp idx.shardBits idx.shardMask) q
      ⟨hi, h.sound.filed.bury hc⟩ hne
    obtain ⟨hsound', hsame'⟩ := hup.recycle now
    rw [hs]
    refine ⟨⟨hsound', h.rooted⟩, fun t ht v => ?_⟩
    refine Iff.trans ?_ ((hsm.trans hsame') t ht v).symm
    rw [Holds.bury h.sound.filed hc htg ht v]
    by_cases heq : t = tag
    · subst heq
      exact ⟨fun hv => absurd hv (by simp), fun hv => absurd rfl hv.1⟩
    · rw [update_of_ne heq, hm t ht v]
      exact ⟨fun hv => ⟨heq, hv⟩, fun hv => hv.2⟩

end Operations

/-! ## Histories -/

/-- The operations of an index. -/
inductive IndexOp where
  | set (tag val : Word) (now : Int)
  | delete (tag : Word) (now : Int)
  | compactAll (now : Nat → Int)
  | deepCompactAll (now : Nat → Int)

/-- One operation; a deep compaction can fail. -/
def InlineIndex.step (idx : InlineIndex) : IndexOp → Option InlineIndex
  | .set tag val now => some (idx.set tag val now)
  | .delete tag now => some (idx.delete tag now).2
  | .compactAll now => some (idx.compactAll now)
  | .deepCompactAll now => idx.deepCompactAll now

/-- What the operation does to the map; the index is asked only whether it has room. -/
def IndexOp.apply (idx : InlineIndex) (m : Word → Option Word) : IndexOp → Word → Option Word
  | .set tag val _ => if NoRoom idx tag then m else Function.update m tag (some val)
  | .delete tag _ => Function.update m tag none
  | .compactAll _ => m
  | .deepCompactAll _ => m

/-- The tag is not one of the two reserved ones; a write leaves no second copy and finds a node
number should it need one. -/
def IndexOp.Fits (idx : InlineIndex) : IndexOp → Prop
  | .set tag _ _ => isFree tag = false ∧ idx.pool.Room ∧ Clear idx tag
  | .delete tag _ => isFree tag = false
  | .compactAll _ => True
  | .deepCompactAll _ => True

instance (idx : InlineIndex) (op : IndexOp) : Decidable (op.Fits idx) :=
  match op with
  | .set _ _ _ => inferInstanceAs (Decidable (_ ∧ _ < _ ∧ _))
  | .delete _ _ => inferInstanceAs (Decidable (_ = _))
  | .compactAll _ => inferInstanceAs (Decidable True)
  | .deepCompactAll _ => inferInstanceAs (Decidable True)

variable {idx : InlineIndex} {bits : Nat} {now : Int}

/-- **A step that fits is the map's step.** -/
theorem IndexInv.step (h : IndexInv idx) (hm : Agrees idx m) (hf : op.Fits idx) :
    ∃ idx', idx.step op = some idx' ∧ IndexInv idx' ∧ Agrees idx' (op.apply idx m) := by
  have hup := onPath_closedUp idx.shardBits idx.shardMask
  cases op with
  | set tag val now =>
    obtain ⟨hlive, hr, hc⟩ := hf
    exact ⟨_, rfl, h.set hm hlive hr hc val now⟩
  | delete tag now => exact ⟨_, rfl, h.delete hm hf now⟩
  | compactAll now =>
    obtain ⟨hs, hsm⟩ := compactAll_spec hup h.sound now
    exact ⟨_, rfl, ⟨hs, h.rooted⟩, hm.same hsm⟩
  | deepCompactAll now =>
    obtain ⟨p, hp, hs, hsm⟩ := deepCompactAll_spec hup h.sound now
    exact ⟨_, hp, ⟨hs, h.rooted⟩, hm.same hsm⟩

/-- An operation on the index, and what it means for the map. -/
def indexAct (s : InlineIndex × (Word → Option Word)) (op : IndexOp) :
    Option (InlineIndex × (Word → Option Word)) :=
  (s.1.step op).map (fun idx => (idx, op.apply s.1 s.2))

/-- A history of operations that fit, from an index and the empty map. -/
def IndexHistory (idx₀ : InlineIndex) (ops : List IndexOp) (idx : InlineIndex)
    (m : Word → Option Word) : Prop :=
  GoodRun (fun s op s' => indexAct s op = some s') (fun s op => op.Fits s.1)
    (idx₀, fun _ => none) ops (idx, m)

/-! ## A new index -/

/-- The roots are the first node numbers. -/
theorem allocRoots_eq (now : Int) (n : Nat) {p : INodePool} (hr : p.ready = []) (hne : p.next ≠ 0)
    (hlt : p.next + n < 4294967296) :
    allocRoots now n p = (range' p.next n, { p with next := p.next + n }) := by
  induction n generalizing p with
  | zero => rfl
  | succ n ih =>
  have ha : p.alloc now = (p.next, { p with next := p.next + 1 }) := by
    have he : p.ready[p.readyHd]? = none := by rw [hr]; rfl
    rw [alloc, he]
    rw [allocNew, bump, Nat.mod_eq_of_lt (by omega), if_neg hne]
  rw [allocRoots, ha]
  rw [ih (p := { p with next := p.next + 1 }) hr (Nat.succ_ne_zero _)
    (by show p.next + 1 + n < _; omega), range'_succ]
  rw [Nat.add_assoc, Nat.add_comm 1 n]

/-- A new index: blank nodes, the first of them the roots. -/
def blankIndex (bits : Nat) : InlineIndex :=
  { pool := { nodes := fun _ => INode.blank, next := 1 + 1 <<< bits, ready := [], readyHd := 0 },
    shards := List.range' 1 (1 <<< bits), shardMask := BitVec.ofNat 64 (1 <<< bits - 1),
    shardBits := bits }

theorem shards_le (hb : ¬ bits > 20) : 1 <<< bits ≤ 1048576 ∧ 0 < 1 <<< bits := by
  rw [Nat.one_shiftLeft]
  exact ⟨Nat.pow_le_pow_right (by decide) (Nat.le_of_not_lt hb), Nat.two_pow_pos bits⟩

theorem newInlineIndex_some
    (h : newInlineIndex bits now = some idx) : ¬ (if bits = 0 then 8 else bits) > 20
      ∧ idx = blankIndex (if bits = 0 then 8 else bits) := by
  rw [newInlineIndex] at h
  generalize (if bits = 0 then 8 else bits) = b at h ⊢
  by_cases hb : b > 20
  · rw [if_pos hb] at h
    cases h
  obtain ⟨hn, _⟩ := shards_le hb
  rw [if_neg hb, some.injEq, allocRoots_eq now _ rfl (by decide)
    (show 1 + 1 <<< b < 4294967296 by omega)] at h
  exact ⟨hb, h.symm⟩

theorem newInlineIndex_inv
    (h : newInlineIndex bits now = some idx) : IndexInv idx ∧ Agrees idx (fun _ => none) := by
  obtain ⟨hb, rfl⟩ := newInlineIndex_some h
  obtain ⟨hn, hp⟩ := shards_le hb
  rw [blankIndex]
  generalize (1 <<< (if bits = 0 then 8 else bits)) = n at hn hp
  have hr : ∀ a, rootOf (range' 1 n) a = if a < n then 1 + a else 0 := by
    intro a
    rw [rootOf, getD_eq_getElem?_getD]
    by_cases ha : a < n
    · rw [getElem?_range' ha, if_pos ha, Nat.one_mul]
      rfl
    · rw [getElem?_eq_none (by rw [length_range']; omega), if_neg ha]
      rfl
  refine ⟨⟨⟨⟨⟨fun _ => rfl, ?_⟩, ?_, fun _ _ => rfl, ?_, fun _ => INode.tidy_blank 0,
    Nat.le_refl 0, nodup_nil, fun m hm => absurd hm (by simp [waiting])⟩,
    ⟨?_, ?_⟩⟩, ?_⟩, ?_⟩
  · intro a a' p p' hne heq
    cases p with
    | cons b p => exact absurd rfl hne
    | nil =>
    cases p' with
    | cons b p' => exact absurd heq hne
    | nil =>
    have hne : rootOf (range' 1 n) a ≠ 0 := hne
    have heq : rootOf (range' 1 n) a = rootOf (range' 1 n) a' := heq
    rw [hr] at hne heq
    rw [hr] at heq
    refine ⟨?_, rfl⟩
    split at heq
    · split at heq
      · omega
      · omega
    · rename_i ha
      rw [if_neg ha] at hne
      exact absurd rfl hne
  · intro a pos hne
    cases pos with
    | nil => exact Nat.zero_le _
    | cons b pos => exact absurd rfl hne
  · intro a pos
    cases pos with
    | cons b pos => exact Nat.lt_of_lt_of_le Nat.zero_lt_one (Nat.le_add_right 1 n)
    | nil =>
      show rootOf (range' 1 n) a < 1 + n
      rw [hr]
      split <;> omega
  · intro a pos i hlive
    exact absurd isFree_iEmpty (Bool.eq_false_iff.mp hlive)
  · intro a pos i a' pos' i' hlive
    exact absurd isFree_iEmpty (Bool.eq_false_iff.mp hlive)
  · intro tag
    show rootOf (range' 1 n) (tag &&& BitVec.ofNat 64 (n - 1)).toNat ≠ 0
    have hms : (tag &&& BitVec.ofNat 64 (n - 1)).toNat < n := by
      rw [BitVec.toNat_and, BitVec.toNat_ofNat]
      exact Nat.lt_of_le_of_lt Nat.and_le_right (by omega)
    rw [hr, if_pos hms]
    omega
  · intro t ht v
    refine ⟨fun hv => absurd hv (by simp), fun hv => ?_⟩
    obtain ⟨a, pos, i, hv⟩ := hv
    exact absurd (congrArg ISlot.tag hv).symm (ne_iEmpty_of_live ht)

/-- The index stands for the map. -/
def Stands (s : InlineIndex × (Word → Option Word)) : Prop := IndexInv s.1 ∧ Agrees s.1 s.2

theorem stands_step (h : Stands s) (hf : op.Fits s.1) (ha : indexAct s op = some s') :
    Stands s' := by
  obtain ⟨idx', hs, hinv', hm'⟩ := h.1.step h.2 hf
  rw [indexAct, hs, map_some, some.injEq] at ha
  rw [← ha]
  exact ⟨hinv', hm'⟩

/-- **Every history keeps index and map together.** -/
theorem indexHistory_stands (hn : newInlineIndex bits now = some idx₀)
    (hr : IndexHistory idx₀ ops idx m) : Stands (idx, m) := by
  refine GoodRun.invariant ?_ (show GoodRun _ _ _ _ _ from hr) (newInlineIndex_inv hn)
  intro s s' op h hf ha
  exact stands_step h hf ha

/-- **The inline index is a finite map**, but for the writes it has no room for. -/
theorem get_eq_map {bits : Nat} {now : Int} {idx₀ idx : InlineIndex} {ops : List IndexOp}
    {m : Word → Option Word} (hnew : newInlineIndex bits now = some idx₀)
    (hrun : IndexHistory idx₀ ops idx m) :
    (∀ op : IndexOp, op.Fits idx → ∃ idx', idx.step op = some idx')
      ∧ ∀ tag, isFree tag = false → idx.get tag = m tag := by
  obtain ⟨hi, hm⟩ := indexHistory_stands hnew hrun
  refine ⟨fun op hf => ?_, fun tag hlive => ?_⟩
  · obtain ⟨idx', hs, _⟩ := hi.step hm hf
    exact ⟨idx', hs⟩
  · apply ext
    intro v
    rw [hi.get_iff hlive, ← hm tag hlive]

/-- A tag is written, deleted and written again. -/
theorem map_of_rewrite : ∃ idx₀ idx m, newInlineIndex 1 0 = some idx₀
    ∧ IndexHistory idx₀ [.set 2 7 0, .delete 2 0, .set 2 9 0] idx m ∧ idx.get 2 = some 9 := by
  have hn : newInlineIndex 1 0 = some ((newInlineIndex 1 0).get rfl) := (some_get rfl).symm
  have hr : IndexHistory ((newInlineIndex 1 0).get rfl) [.set 2 7 0, .delete 2 0, .set 2 9 0] _ _ :=
    .cons (by decide +kernel) rfl (.cons (by decide +kernel) rfl
      (.cons (by decide +kernel) rfl (.nil _)))
  refine ⟨_, _, _, hn, hr, ?_⟩
  rw [(get_eq_map hn hr).2 2 (by decide)]
  decide +kernel

/-- **No node is shared**: none waits twice to be reused, or while it is in the tree, and none has
two places in the tree. -/
theorem nodes_unshared (hnew : newInlineIndex bits now = some idx₀)
    (hrun : IndexHistory idx₀ ops idx m) : idx.pool.waiting.Nodup
      ∧ (∀ n ∈ idx.pool.waiting, ∀ a pos, idx.pool.nodeAt idx.shards a pos ≠ n)
      ∧ ∀ a pos a' pos', idx.pool.nodeAt idx.shards a pos ≠ 0 →
        idx.pool.nodeAt idx.shards a' pos' = idx.pool.nodeAt idx.shards a pos →
        a' = a ∧ pos' = pos := by
  have hp := (indexHistory_stands hnew hrun).1.sound.pool
  refine ⟨by simpa using hp.nodup, fun n hn => ?_, fun a pos a' pos' => hp.nodeAt_inj⟩
  exact (hp.loose n (by simpa using hn)).2.2

/-- The fifth tag of a path opens a second node, which compaction frees once the tag is gone. -/
theorem nodes_unshared_compacted : ∃ idx₀ idx m, newInlineIndex 1 0 = some idx₀
    ∧ IndexHistory idx₀ [.set 2 7 0, .set 4 7 0, .set 6 7 0, .set 8 7 0, .set 10 7 0, .delete 10 0,
        .compactAll fun _ => 0] idx m
    ∧ idx.pool.waiting = [3] ∧ idx.pool.waiting.Nodup
    ∧ (∀ n ∈ idx.pool.waiting, ∀ a pos, idx.pool.nodeAt idx.shards a pos ≠ n)
    ∧ ∀ a pos a' pos', idx.pool.nodeAt idx.shards a pos ≠ 0 →
      idx.pool.nodeAt idx.shards a' pos' = idx.pool.nodeAt idx.shards a pos →
      a' = a ∧ pos' = pos := by
  have hn : newInlineIndex 1 0 = some ((newInlineIndex 1 0).get rfl) := (some_get rfl).symm
  have hr : IndexHistory ((newInlineIndex 1 0).get rfl) [.set 2 7 0, .set 4 7 0, .set 6 7 0,
      .set 8 7 0, .set 10 7 0, .delete 10 0, .compactAll fun _ => 0] _ _ :=
    .cons (by decide +kernel) rfl (.cons (by decide +kernel) rfl (.cons (by decide +kernel) rfl
      (.cons (by decide +kernel) rfl (.cons (by decide +kernel) rfl (.cons (by decide +kernel) rfl
        (.cons trivial rfl (.nil _)))))))
  exact ⟨_, _, _, hn, hr, by decide +kernel, nodes_unshared hn hr⟩

/-- Tags that share the bits of one path: the eleven nodes on it hold 44 entries, and the next one
is dropped. And an entry that was written a second time, into a free slot above the first copy:
deleting it brings the first copy back. -/
theorem entry_dropped_and_stale : (do
      let idx ← newInlineIndex 1 0
      let idx := (List.range 45).foldl
        (fun idx t => idx.set (BitVec.ofNat 64 ((t + 1) * 1099511627776)) 7 0) idx
      pure (idx.get (BitVec.ofNat 64 (45 * 1099511627776)))) = some none
    ∧ (do
      let idx ← newInlineIndex 1 0
      let idx := [2, 4, 6, 8, 10].foldl (fun idx t => idx.set t 1 0) idx
      let idx := ((idx.delete 2 0).2.set 10 2 0).delete 10 0
      pure (idx.2.get 10)) = some (some 1) := by
  decide +kernel

end Rah.Cache
