import Rah.Cache.IndexMap
import Rah.Cache.Manager

/-!
# Nothing appears in the index by itself

The index without its promise that no tag stands twice: all that is left is the forest
(`IndexShape`). What can still be said of every operation is that an entry found afterwards was
there before, or is the one just written (`Inherits`). A read then finds some entry of its tag.
-/

namespace Rah.Cache

open Rah.Lib INodePool

/-- The structural half of the invariant, without where the tags lie. -/
structure IndexShape (idx : InlineIndex) : Prop where
  pool : PoolInv idx.shards idx.pool []
  rooted : ∀ tag, idx.root tag ≠ 0

theorem IndexInv.shape (h : IndexInv idx) : IndexShape idx := ⟨h.sound.pool, h.rooted⟩

/-- The entry is somewhere in the index. -/
def InlineIndex.Has (idx : InlineIndex) (tag val : Word) : Prop :=
  isFree tag = false ∧ Holds (idx.pool.cells idx.shards) tag val

/-- Every entry of `p'` was one of `p`. -/
def Inherits (roots : List Nat) (p p' : INodePool) : Prop :=
  ∀ t, isFree t = false → ∀ v, Holds (p'.cells roots) t v → Holds (p.cells roots) t v

theorem Inherits.trans (h : Inherits roots p1 p2) (h' : Inherits roots p2 p3) :
    Inherits roots p1 p3 :=
  fun t ht v hv => h t ht v (h' t ht v hv)

section Pool

variable {roots limbo detached : List Nat} {p p' : INodePool} {a : Nat} {q : List (Fin 8)}

/-- An entry of a pool that differs in one cell. -/
theorem CellSet.holds (hs : CellSet σ σ' a q i s) (hv : Holds σ' t v) :
    s = ⟨t, v⟩ ∨ Holds σ t v := by
  obtain ⟨a', pos, j, hv⟩ := hv
  by_cases hc : a' = a ∧ pos = q ∧ j = i
  · obtain ⟨rfl, rfl, rfl⟩ := hc
    exact .inl (hs.new.symm.trans hv)
  · rw [hs.rest a' pos j hc] at hv
    exact .inr ⟨a', pos, j, hv⟩

theorem Collapsed.inherits (h : PoolInv roots p limbo) (hc : Collapsed roots p p' a q es node) :
    Inherits roots p p' := by
  intro t ht v hv
  obtain ⟨a', pos, j, hv⟩ := hv
  have hne : p'.nodeAt roots a' pos ≠ 0 := by
    intro hz
    rw [cells, hz, hc.nodes_ne (Ne.symm hc.ne_zero), h.blank 0 (.inl rfl)] at hv
    exact ne_iEmpty_of_live ht (congrArg ISlot.tag hv).symm
  obtain ⟨_, hsm⟩ := hc.nodeAt_of_ne_zero h hne
  rw [cells, hsm] at hv
  by_cases hat : p.nodeAt roots a' pos = p.nodeAt roots a q
  · -- the node that took its children's entries
    rw [hat, hc.pool, setNode_nodes_self] at hv
    rcases hc.filled.source j with hs | ⟨_, hs⟩
    · exact ⟨a', pos, j, by rw [cells, hat, ← hs]; exact hv⟩
    · rw [show node.slots j = ⟨t, v⟩ from hv] at hs
      obtain ⟨_, b, k, hk⟩ := hc.mem_collected.mp hs
      exact ⟨a, b :: q, k, hk⟩
  · rw [hc.nodes_ne hat] at hv
    exact ⟨a', pos, j, hv⟩

theorem collapseUp_inherits (pos : List (Fin 8)) (h : PoolInv roots p freed)
    (hne : p.nodeAt roots a pos ≠ 0) :
    PoolInv roots (collapseUp (pos.tails.map (p.nodeAt roots a)) p freed).1
        (collapseUp (pos.tails.map (p.nodeAt roots a)) p freed).2
      ∧ Inherits roots p (collapseUp (pos.tails.map (p.nodeAt roots a)) p freed).1 := by
  refine collapseUp_rule (R := Inherits roots) id (fun _ _ _ _ => id) Inherits.trans ?_ pos h hne
  intro p p' limbo detached q h hne hc
  obtain ⟨es, node, hcl, hd⟩ := tryCollapse_collapsed h hne hc
  exact ⟨hcl.inv h hd, hcl.inherits h⟩

theorem CellSet.inherits_bury
    (hs : CellSet (p.cells roots) (p'.cells roots) a q i ⟨iTombstone, 0⟩) :
    Inherits roots p p' := by
  intro t ht v hv
  rcases hs.holds hv with heq | hv
  · rw [← show iTombstone = t from congrArg ISlot.tag heq] at ht
    cases ht
  · exact hv

/-! ## Reading -/

theorem getLoop_holds (p : INodePool) (roots : List Nat) (a bits : Nat) (tag : Word)
    (visits d : Nat)
    (h : getLoop p tag visits (p.nodeAt roots a (route bits tag d)) (bits + 3 * d) = some v) :
    Holds (p.cells roots) tag v := by
  induction visits generalizing d with
  | zero => exact absurd h (by simp [getLoop])
  | succ visits ih =>
  rw [getLoop] at h
  split at h
  · cases h
  dsimp only at h
  split at h
  · rename_i i hit
    split at hit
    · have ht := INode.slotOf_some hit
      exact ⟨a, route bits tag d, i, ISlot.ext ht (Option.some.inj h)⟩
    · cases hit
  · have hn := ih (d + 1)
    exact hn h

/-- What the cleaner's walk does: it buries a cell on the tag's path. -/
theorem tombLoop_some (roots : List Nat) (a : Nat) (visits d : Nat)
    (h : tombLoop tag physOff gen2b visits p (p.nodeAt roots a (route bits tag d)) (bits + 3 * d)
      = some p') :
    ∃ d i, p.nodeAt roots a (route bits tag d) ≠ 0
      ∧ p' = p.setNode (p.nodeAt roots a (route bits tag d))
          ((p.nodes (p.nodeAt roots a (route bits tag d))).bury i) := by
  induction visits generalizing d with
  | zero => exact absurd h (by simp [tombLoop])
  | succ visits ih =>
  rw [tombLoop] at h
  split at h
  · cases h
  rename_i hne
  dsimp only at h
  split at h
  · rename_i i hit
    exact ⟨d, i, hne, (Option.some.inj h).symm⟩
  · have hn := ih (d + 1)
    exact hn h

end Pool

/-! ## The operations -/

section Operations

variable {idx : InlineIndex} {tag : Word}

theorem InlineIndex.get_has (hl : isFree tag = false) (h : idx.get tag = some v) : idx.Has tag v :=
  ⟨hl, getLoop_holds idx.pool idx.shards (idx.shardOf tag) idx.shardBits tag (iMaxDepth + 1) 0 h⟩

/-- **A write adds its entry and no other.** -/
theorem IndexShape.set (h : IndexShape idx) (hl : isFree tag = false) (hr : idx.pool.Room)
    (val : Word) (now : Int) : IndexShape (idx.set tag val now)
      ∧ ∀ t v, (idx.set tag val now).Has t v → (t = tag ∧ v = val) ∨ idx.Has t v := by
  obtain ⟨p', hup, hs⟩ := h.pool.set_upserted (h.rooted tag) hl val now
  rw [hs]
  -- every way a write ends leaves a forest with one cell changed, or changes nothing
  have hcs : p' = idx.pool ∨ (PoolInv idx.shards p' [] ∧ ∃ a q i,
      CellSet (idx.pool.cells idx.shards) (p'.cells idx.shards) a q i ⟨tag, val⟩) := by
    cases hup with
    | update d i hne htg =>
      obtain ⟨hi, hc⟩ := h.pool.setVal hne htg val
      exact .inr ⟨hi, _, _, i, hc⟩
    | place d i hne ht ho hfr hf =>
      obtain ⟨hi, hc⟩ := h.pool.put hne hl hf val
      exact .inr ⟨hi, _, _, i, hc⟩
    | child d hd hne ht hz =>
      obtain ⟨i, hi, hc⟩ := h.pool.addChild hr hne hz (by rw [route_length]; exact hd) hl val now
      exact .inr ⟨hi, _, _, i, hc⟩
    | drop ht => exact .inl rfl
  rcases hcs with heq | ⟨hi, a, q, i, hc⟩
  · subst heq
    exact ⟨h, fun t v hv => .inr hv⟩
  refine ⟨⟨hi, h.rooted⟩, fun t v hv => ?_⟩
  rcases hc.holds hv.2 with heq | hol
  · exact .inl ⟨(congrArg ISlot.tag heq).symm, (congrArg ISlot.val heq).symm⟩
  · exact .inr ⟨hv.1, hol⟩

/-- **A delete adds no entry.** -/
theorem IndexShape.delete (h : IndexShape idx) (hl : isFree tag = false) (now : Int) :
    IndexShape (idx.delete tag now).2
      ∧ ∀ t v, (idx.delete tag now).2.Has t v → idx.Has t v := by
  rcases h.pool.delete_cases hl now with ⟨hs, _⟩ | ⟨a, q, i, p, _, hin, hc, hne, hs⟩ <;> rw [hs]
  · exact ⟨h, fun _ _ hv => hv⟩
  obtain ⟨hup, hi⟩ := collapseUp_inherits q hin hne
  obtain ⟨hp, hcl⟩ := hup.recycle now
  refine ⟨⟨hp, h.rooted⟩, fun t v hv => ⟨hv.1, ?_⟩⟩
  have hv' := hv.2
  rw [show cells _ idx.shards = _ from hcl] at hv'
  exact hc.inherits_bury t hv.1 v (hi t hv.1 v hv')

/-- **The cleaner adds no entry.** -/
theorem IndexShape.tryTombstone (h : IndexShape idx)
    (ht : idx.tryTombstone tag physOff gen2b = some idx') :
    IndexShape idx' ∧ ∀ t v, idx'.Has t v → idx.Has t v := by
  rw [InlineIndex.tryTombstone, Option.map_eq_some_iff] at ht
  obtain ⟨p', hp', rfl⟩ := ht
  obtain ⟨d, i, hne, rfl⟩ := tombLoop_some idx.shards (idx.shardOf tag) (iMaxDepth + 1) 0 hp'
  obtain ⟨hi, hc⟩ := h.pool.bury hne i
  exact ⟨⟨hi, h.rooted⟩, fun t v hv => ⟨hv.1, hc.inherits_bury t hv.1 v hv.2⟩⟩

end Operations

end Rah.Cache
