import Rah.Cache.Compaction

/-!
# Walks along the path of a tag

Reading, writing and deleting all walk down the path of a tag, three bits of the tag for each
step. Here is what each walk finds: a read finds the tag's entry (`getLoop_iff`), a write stops
at one of four places (`Upserted`), and a delete finds the entry and the nodes above it
(`findPath_cases`).
-/

namespace Rah.Cache

open Rah.Lib

/-- The first branches on a tag's path, the last one first. -/
def route (bits : Nat) (tag : Word) : Nat → List (Fin 8)
  | 0 => []
  | d + 1 => branch tag (bits + 3 * d) :: route bits tag d

/-- The position is on the tag's path. -/
def onPath (bits : Nat) (mask : Word) (tag : Word) (a : Nat) (pos : List (Fin 8)) : Prop :=
  a = (tag &&& mask).toNat ∧ pos = route bits tag pos.length

theorem route_length : (route bits tag d).length = d := by
  induction d with
  | zero => rfl
  | succ d ih => rw [route, List.length_cons, ih]

theorem onPath_closedUp (bits : Nat) (mask : Word) : ClosedUp (onPath bits mask) := by
  intro t a b q h
  exact ⟨h.1, (List.cons.inj h.2).2⟩

theorem onPath_route (bits : Nat) (mask tag : Word) (d : Nat) :
    onPath bits mask tag (tag &&& mask).toNat (route bits tag d) :=
  ⟨rfl, by rw [route_length]⟩

section Walk

variable {roots limbo : List Nat} {p : INodePool} {a bits : Nat} {tag : Word}

/-- Nothing stands below a missing node. -/
theorem PoolInv.nodeAt_route_zero (h : PoolInv roots p limbo) (hle : d ≤ d')
    (hz : p.nodeAt roots a (route bits tag d) = 0) :
    p.nodeAt roots a (route bits tag d') = 0 := by
  induction hle with
  | refl => exact hz
  | step _ ih =>
    rw [route, INodePool.nodeAt_cons, ih, h.blank 0 (.inl rfl)]
    rfl

theorem PoolInv.depth_of_tag (h : PoolInv roots p limbo) (hl : isFree tag = false)
    (ht : (p.cells roots a (route bits tag d) i).tag = tag) : d ≤ iMaxDepth := by
  have := h.depth a _ (h.nodeAt_of_live (i := i) (by rw [ht]; exact hl))
  rw [route_length] at this
  exact this

/-- **What a read finds**, from the node at depth `d` on. -/
theorem getLoop_iff (h : PoolInv roots p limbo) (a bits : Nat) (hl : isFree tag = false)
    (ho : ∀ d i d' i', (p.cells roots a (route bits tag d) i).tag = tag →
      (p.cells roots a (route bits tag d') i').tag = tag → d = d' ∧ i = i') (v : Word)
    (visits d : Nat) (hd : d + visits = iMaxDepth + 1) :
    getLoop p tag visits (p.nodeAt roots a (route bits tag d)) (bits + 3 * d) = some v
      ↔ ∃ d' i, d ≤ d' ∧ p.cells roots a (route bits tag d') i = ⟨tag, v⟩ := by
  induction visits generalizing d with
  | zero =>
    refine ⟨fun hg => absurd hg (by simp [getLoop]), fun hc => ?_⟩
    obtain ⟨d', i, hle, hc⟩ := hc
    have := h.depth_of_tag hl (congrArg ISlot.tag hc)
    omega
  | succ visits ih =>
  rw [getLoop]
  split
  · rename_i hz
    refine ⟨nofun, fun hc => ?_⟩
    obtain ⟨d', i, hle, hc⟩ := hc
    rw [h.cells_of_zero (h.nodeAt_route_zero hle hz)] at hc
    exact absurd (congrArg ISlot.tag hc).symm (ne_iEmpty_of_live hl)
  dsimp only
  rw [(h.tidy _).filter_slotOf hl]
  cases hs : (p.nodes (p.nodeAt roots a (route bits tag d))).slotOf tag with
  | some i =>
    have ht : (p.cells roots a (route bits tag d) i).tag = tag := INode.slotOf_some hs
    refine ⟨fun hg => ⟨d, i, Nat.le_refl d, ISlot.ext ht (Option.some.inj hg)⟩, fun hc => ?_⟩
    · obtain ⟨d', i', _, hc⟩ := hc
      obtain ⟨rfl, rfl⟩ := ho d i d' i' ht (congrArg ISlot.tag hc)
      exact congrArg (fun s => some s.val) hc
  | none =>
  have hn := ih (d + 1) (by omega)
  rw [route, INodePool.nodeAt_cons, Nat.mul_succ, ← Nat.add_assoc] at hn
  rw [hn]
  refine ⟨fun hc => ?_, fun hc => ?_⟩
  · obtain ⟨d', i, hle, hc⟩ := hc
    exact ⟨d', i, Nat.le_of_succ_le hle, hc⟩
  obtain ⟨d', i, hle, hc⟩ := hc
  refine ⟨d', i, Nat.lt_of_le_of_ne hle ?_, hc⟩
  intro heq
  subst heq
  exact INode.slotOf_none hs i (congrArg ISlot.tag hc)

/-! ## Writing -/

/-- All slots of the node at depth `d` are taken by other entries. -/
def Taken (σ : Cells) (a bits : Nat) (tag : Word) (d : Nat) : Prop :=
  ∀ i, isFree (σ a (route bits tag d) i).tag = false ∧ (σ a (route bits tag d) i).tag ≠ tag

/-- How a write ends. -/
inductive Upserted (roots : List Nat) (a bits : Nat) (tag val : Word) (now : Int)
    (p : INodePool) : INodePool → Prop where
  | update (d : Nat) (i : Fin 4) :
      p.nodeAt roots a (route bits tag d) ≠ 0 →
      (p.cells roots a (route bits tag d) i).tag = tag →
      Upserted roots a bits tag val now p (p.setNode (p.nodeAt roots a (route bits tag d))
        ((p.nodes (p.nodeAt roots a (route bits tag d))).setVal i val))
  | place (d : Nat) (i : Fin 4) :
      p.nodeAt roots a (route bits tag d) ≠ 0 →
      (∀ d', d' < d → Taken (p.cells roots) a bits tag d') →
      (∀ j, (p.cells roots a (route bits tag d) j).tag ≠ tag) →
      isFree (p.cells roots a (route bits tag d) i).tag = true →
      (∀ j, j < i → (p.cells roots a (route bits tag d) j).tag ≠ iEmpty) →
      Upserted roots a bits tag val now p (p.setNode (p.nodeAt roots a (route bits tag d))
        ((p.nodes (p.nodeAt roots a (route bits tag d))).put i tag val))
  | child (d : Nat) :
      d < iMaxDepth →
      p.nodeAt roots a (route bits tag d) ≠ 0 →
      (∀ d', d' < d + 1 → Taken (p.cells roots) a bits tag d') →
      p.nodeAt roots a (route bits tag (d + 1)) = 0 →
      Upserted roots a bits tag val now p (p.addChild (p.nodeAt roots a (route bits tag d))
        (branch tag (bits + 3 * d)) tag val now)
  | drop :
      (∀ d, d < iMaxDepth + 1 → Taken (p.cells roots) a bits tag d) →
      Upserted roots a bits tag val now p p

/-- **How a write ends**, from the node at depth `d` on. -/
theorem upsertLoop_cases (h : PoolInv roots p limbo) (a bits : Nat) (hl : isFree tag = false)
    (val : Word) (now : Int) (levels d : Nat) (hd : d + levels = iMaxDepth)
    (hne : p.nodeAt roots a (route bits tag d) ≠ 0)
    (ht : ∀ d', d' < d → Taken (p.cells roots) a bits tag d') :
    Upserted roots a bits tag val now p
      (upsertLoop tag val now levels p (p.nodeAt roots a (route bits tag d)) (bits + 3 * d)) := by
  induction levels generalizing d with
  | zero =>
    rw [upsertLoop]
    rcases insertAt_cases (h.tidy (p.nodeAt roots a (route bits tag d))) hl with
      ⟨i, hi, hin⟩ | ⟨i, ho, hfr, hf, hin⟩ | ⟨hfl, hin⟩
    · rw [hin]
      exact .update d i hne hi
    · rw [hin]
      exact .place d i hne ht ho hfr hf
    rw [hin]
    exact .drop (hd ▸ Nat.forall_lt_succ_right.mpr ⟨ht, hfl⟩)
  | succ levels ih =>
    rw [upsertLoop]
    rcases insertAt_cases (h.tidy (p.nodeAt roots a (route bits tag d))) hl with
      ⟨i, hi, hin⟩ | ⟨i, ho, hfr, hf, hin⟩ | ⟨hfl, hin⟩
    · rw [hin]
      exact .update d i hne hi
    · rw [hin]
      exact .place d i hne ht ho hfr hf
    rw [hin]
    have ht' : ∀ d', d' < d + 1 → Taken (p.cells roots) a bits tag d' :=
      Nat.forall_lt_succ_right.mpr ⟨ht, hfl⟩
    dsimp only
    by_cases hz : (p.nodes (p.nodeAt roots a (route bits tag d))).children
        (branch tag (bits + 3 * d)) = 0
    · rw [if_pos hz]
      exact .child d (by omega) hne ht' hz
    · rw [if_neg hz]
      exact ih (d + 1) (by omega) hz ht'

/-- A write is a walk from the root of the tag's shard. -/
theorem PoolInv.set_upserted {idx : InlineIndex} (h : PoolInv idx.shards idx.pool [])
    (hr : idx.root tag ≠ 0) (hl : isFree tag = false) (val : Word) (now : Int) :
    ∃ p', Upserted idx.shards (idx.shardOf tag) idx.shardBits tag val now idx.pool p'
      ∧ idx.set tag val now = { idx with pool := p' } :=
  ⟨_, upsertLoop_cases h (idx.shardOf tag) idx.shardBits hl val now iMaxDepth 0
    (Nat.zero_add _) hr (fun d' hd' => absurd hd' (by omega)), rfl⟩

/-! ## Deleting -/

/-- **What a delete finds**, from the node at depth `d` on: no entry, or the first one. -/
theorem findPath_cases (h : PoolInv roots p limbo) (a bits : Nat) (hl : isFree tag = false)
    (visits d : Nat) (hd : d + visits = iMaxDepth + 1) :
    (findPath tag visits p (p.nodeAt roots a (route bits tag d)) (bits + 3 * d)
        ((route bits tag d).tails.tail.map (p.nodeAt roots a)) = none
      ∧ ∀ d' i, d ≤ d' → (p.cells roots a (route bits tag d') i).tag ≠ tag)
    ∨ ∃ d' i, p.nodeAt roots a (route bits tag d') ≠ 0
      ∧ (p.cells roots a (route bits tag d') i).tag = tag
      ∧ findPath tag visits p (p.nodeAt roots a (route bits tag d)) (bits + 3 * d)
          ((route bits tag d).tails.tail.map (p.nodeAt roots a))
        = some (p.setNode (p.nodeAt roots a (route bits tag d'))
            ((p.nodes (p.nodeAt roots a (route bits tag d'))).bury i),
          (route bits tag d').tails.map (p.nodeAt roots a)) := by
  induction visits generalizing d with
  | zero =>
    refine .inl ⟨rfl, fun d' i hle ht => ?_⟩
    have := h.depth_of_tag hl ht
    omega
  | succ visits ih =>
  have hp : p.nodeAt roots a (route bits tag d)
      :: (route bits tag d).tails.tail.map (p.nodeAt roots a)
      = (route bits tag d).tails.map (p.nodeAt roots a) := by
    cases route bits tag d <;> simp
  rw [findPath]
  split
  · rename_i hz
    refine .inl ⟨rfl, fun d' i hle ht => ?_⟩
    rw [h.cells_of_zero (h.nodeAt_route_zero hle hz)] at ht
    exact absurd ht.symm (ne_iEmpty_of_live hl)
  rename_i hz
  dsimp only
  cases hs : (p.nodes (p.nodeAt roots a (route bits tag d))).slotOf tag with
  | some i => exact .inr ⟨d, i, hz, INode.slotOf_some hs, by rw [hp]⟩
  | none =>
  have hnx := ih (d + 1) (by omega)
  rw [hp]
  refine hnx.imp_left (fun hn => ⟨hn.1, fun d' i hle => ?_⟩)
  rcases Nat.lt_or_eq_of_le hle with hlt | heq
  · exact hn.2 d' i hlt
  · subst heq
    exact INode.slotOf_none hs i

end Walk

end Rah.Cache
