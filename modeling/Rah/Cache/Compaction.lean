import Rah.Lib.Run
import Rah.Cache.Collapse

/-!
# Whole operations made of collapses

The way up after a delete, the reuse of the nodes set free, and the two compactions. Each of
them keeps the index sound and its entries the same.
-/

namespace Rah.Cache

open Rah.Lib List INodePool Tidied

variable {onPath : Word → Nat → List (Fin 8) → Prop} {roots limbo : List Nat}
  {p p' : INodePool} {a : Nat} {q : List (Fin 8)}

/-- **The way up after a delete.** The path is the nodes at `pos` and above it. What a collapse
keeps (`Inv`) and what it does to the pool (`R`) is the same for the whole way. -/
theorem collapseUp_rule {Inv : INodePool → List Nat → Prop} {R : INodePool → INodePool → Prop}
    (hpl : ∀ {p limbo}, Inv p limbo → PoolInv roots p limbo) (hrf : ∀ p, R p p)
    (htr : ∀ {p1 p2 p3}, R p1 p2 → R p2 p3 → R p1 p3)
    (hst : ∀ {p p' : INodePool} {limbo detached : List Nat} {q : List (Fin 8)}, Inv p limbo →
      p.nodeAt roots a q ≠ 0 → p.tryCollapse (p.nodeAt roots a q) = some (p', detached) →
      Inv p' (limbo ++ detached) ∧ R p p')
    (pos : List (Fin 8)) (h : Inv p freed) (hne : p.nodeAt roots a pos ≠ 0) :
    Inv (collapseUp (pos.tails.map (p.nodeAt roots a)) p freed).1
        (collapseUp (pos.tails.map (p.nodeAt roots a)) p freed).2
      ∧ R p (collapseUp (pos.tails.map (p.nodeAt roots a)) p freed).1 := by
  induction pos generalizing p freed with
  | nil => exact ⟨h, hrf _⟩
  | cons b pos ih =>
  have hp : p.nodeAt roots a pos ≠ 0 := (hpl h).separate.addr_above hne
  have hpt : (b :: pos).tails.map (p.nodeAt roots a)
      = p.nodeAt roots a (b :: pos) :: p.nodeAt roots a pos
        :: (pos.tails.map (p.nodeAt roots a)).tail := by
    cases pos <;> simp
  have ht : pos.tails.map (p.nodeAt roots a)
      = p.nodeAt roots a pos :: (pos.tails.map (p.nodeAt roots a)).tail := by
    cases pos <;> simp
  rw [hpt, collapseUp]
  cases hc : p.tryCollapse (p.nodeAt roots a pos) with
  | none => exact ⟨h, hrf _⟩
  | some r =>
  obtain ⟨p', detached⟩ := r
  obtain ⟨es, node, hcl, _⟩ := tryCollapse_collapsed (hpl h) hp hc
  obtain ⟨hi, hr⟩ := hst h hp hc
  -- the nodes above are where they were
  have hs : ∀ t ∈ pos.tails, p.nodeAt roots a t = p'.nodeAt roots a t := by
    intro t hm
    refine (hcl.nodeAt_rest (hpl h) ?_).symm
    intro b' hb'
    have hle := (mem_tails _ _ |>.mp hm).length_le
    rw [hb'.2, length_cons] at hle
    omega
  rw [← ht, map_congr_left hs]
  obtain ⟨hinv', hr'⟩ := ih hi (by
    rw [← hs pos (mem_tails _ _ |>.mpr (suffix_refl pos))]
    exact hp)
  exact ⟨hinv', htr hr hr'⟩

theorem collapseUp_spec (hup : ClosedUp onPath) (pos : List (Fin 8)) {p : INodePool}
    {freed : List Nat} (h : Sound onPath roots p freed) (hne : p.nodeAt roots a pos ≠ 0) :
    Sound onPath roots (collapseUp (pos.tails.map (p.nodeAt roots a)) p freed).1
        (collapseUp (pos.tails.map (p.nodeAt roots a)) p freed).2
      ∧ SameEntries roots p (collapseUp (pos.tails.map (p.nodeAt roots a)) p freed).1 := by
  refine collapseUp_rule (R := SameEntries roots) Sound.pool (fun _ _ _ _ => Iff.rfl)
    SameEntries.trans ?_ pos h hne
  intro p p' limbo detached q h hne hc
  have ht := tryCollapse_tidied hup h hne hc
  exact ⟨ht.sound, ht.same⟩

/-! ## Reuse -/

/-- Stamping nodes changes nothing but their time. -/
theorem stamp_spec (now : Int) (l : List Nat) (p : INodePool) :
    ∃ times : Nat → Int, l.foldl (fun p idx => p.setNode idx { p.nodes idx with freedAt := now }) p
      = { p with nodes := fun n => { p.nodes n with freedAt := times n } }
      ∧ ∀ n, n ∉ l → times n = (p.nodes n).freedAt := by
  induction l generalizing p with
  | nil => exact ⟨fun n => (p.nodes n).freedAt, rfl, fun _ _ => rfl⟩
  | cons m l ih =>
  obtain ⟨times, heq, ht⟩ := ih (p.setNode m { p.nodes m with freedAt := now })
  refine ⟨times, ?_, ?_⟩
  · rw [foldl_cons, heq]
    congr 1
    funext n
    by_cases hn : n = m
    · subst hn
      rw [setNode_nodes_self]
    · rw [setNode_nodes_ne _ _ hn]
  · intro n hn
    rw [mem_cons, not_or] at hn
    rw [ht n hn.2, setNode_nodes_ne _ _ hn.1]

/-- **Nodes set free go to the queue**; the forest stays as it is. -/
theorem PoolInv.freeLater (h : PoolInv roots p limbo) (now : Int) :
    PoolInv roots (p.freeLater limbo now) []
      ∧ (p.freeLater limbo now).cells roots = p.cells roots := by
  obtain ⟨times, heq, ht⟩ := stamp_spec now limbo p
  have hw : ∃ ready hd, p.freeLater limbo now
      = { p with nodes := fun n => { p.nodes n with freedAt := times n },
                 ready := ready, readyHd := hd }
      ∧ hd ≤ ready.length ∧ ready.drop hd = p.waiting ++ limbo := by
    have hdr : (p.ready ++ limbo).drop p.readyHd = p.waiting ++ limbo :=
      drop_append_of_le_length h.queue
    rw [INodePool.freeLater, heq]
    by_cases hhd : p.readyHd > (p.ready ++ limbo).length / 2
    · refine ⟨(p.ready ++ limbo).drop p.readyHd, 0, by simp only [hhd, if_true], Nat.zero_le _, ?_⟩
      rw [drop_zero, hdr]
    · refine ⟨p.ready ++ limbo, p.readyHd, by simp only [hhd, if_false], ?_, hdr⟩
      omega
  obtain ⟨ready, hd, hp, hle, hdr⟩ := hw
  rw [hp]
  refine ⟨⟨h.separate, h.depth, ?_, h.used, ?_, hle, ?_, ?_⟩, rfl⟩
  · intro n hn
    have ho : n ∉ limbo := by
      intro hm
      obtain ⟨hz, hlt, _⟩ := h.loose n (mem_append_right _ hm)
      rcases hn with hn | hn
      · exact hz hn
      · exact absurd hlt (Nat.not_lt.mpr hn)
    show ({ p.nodes n with freedAt := times n } : INode) = INode.blank
    rw [ht n ho]
    exact h.blank n hn
  · exact fun n => ⟨(h.tidy n).h2, (h.tidy n).dense⟩
  · rw [append_nil, waiting, hdr]
    exact h.nodup
  · intro n hn
    rw [append_nil, waiting, hdr] at hn
    exact h.loose n hn

theorem PoolInv.recycle (h : PoolInv roots p limbo) (now : Int) :
    PoolInv roots (p.recycle limbo now) []
      ∧ (p.recycle limbo now).cells roots = p.cells roots := by
  rw [INodePool.recycle]
  split
  · exact h.freeLater now
  have hn : limbo = [] := length_eq_zero_iff.mp (by omega)
  subst hn
  exact ⟨h, rfl⟩

theorem Sound.recycle (h : Sound onPath roots p limbo) (now : Int) :
    Sound onPath roots (p.recycle limbo now) [] ∧ SameEntries roots p (p.recycle limbo now) := by
  obtain ⟨hp, hc⟩ := h.pool.recycle now
  refine ⟨⟨hp, by rw [hc]; exact h.filed⟩, fun t _ v => ?_⟩
  rw [hc]

/-! ## Compaction of one shard -/

/-- A collapse that may be refused. -/
theorem getD_tryCollapse_tidied (hup : ClosedUp onPath) (h : Sound onPath roots p limbo)
    (hne : p.nodeAt roots a q ≠ 0) :
    Tidied onPath roots a q p limbo ((p.tryCollapse (p.nodeAt roots a q)).getD (p, [])).1
      ((p.tryCollapse (p.nodeAt roots a q)).getD (p, [])).2 := by
  cases hc : p.tryCollapse (p.nodeAt roots a q) with
  | none => exact refl h a q
  | some r => exact tryCollapse_tidied hup h hne hc

theorem compactNode_tidied (hup : ClosedUp onPath) (h : Sound onPath roots p limbo) (a : Nat)
    (q : List (Fin 8)) :
    Tidied onPath roots a q p limbo (p.compactNode (p.nodeAt roots a q)).1
      (p.compactNode (p.nodeAt roots a q)).2 := by
  rw [compactNode]
  split
  · exact refl h a q
  · rename_i hz
    exact getD_tryCollapse_tidied hup h hz

/-- The step of the loop over the children. -/
def deepStep (depth nodeIdx : Nat) (r : INodePool × List Nat) (b : Fin 8) :
    Option (INodePool × List Nat) :=
  let childIdx := (r.1.nodes nodeIdx).children b
  if childIdx = 0 then some r
  else (deepCompactNode depth r.1 childIdx).map (fun c => (c.1, r.2 ++ c.2))

/-- **Deep compaction comes to an end and keeps the entries**: the depth it is given covers
every node there is. -/
theorem deepCompactNode_spec (hup : ClosedUp onPath) (depth : Nat) (h : Sound onPath roots p limbo)
    (hd : q.length + depth = iMaxDepth + 1) :
    ∃ r, deepCompactNode depth p (p.nodeAt roots a q) = some r
      ∧ Tidied onPath roots a q p limbo r.1 r.2 := by
  induction depth generalizing p limbo q with
  | zero =>
    have hz : p.nodeAt roots a q = 0 := by
      by_contra hne
      have := h.pool.depth a q hne
      omega
    exact ⟨(p, []), by rw [deepCompactNode, if_pos hz], refl h a q⟩
  | succ depth ih =>
    by_cases hz : p.nodeAt roots a q = 0
    · exact ⟨(p, []), by rw [deepCompactNode, if_pos hz], refl h a q⟩
    -- the children one after the other, each below `q`
    obtain ⟨r, hr, hrt⟩ : ∃ r, foldlM (deepStep depth (p.nodeAt roots a q)) (p, []) (finRange 8)
        = some r ∧ Tidied onPath roots a q p limbo r.1 r.2 := by
      refine foldlM_some (S := INodePool × List Nat)
        (P := fun r => Tidied onPath roots a q p limbo r.1 r.2)
        (refl h a q) fun b _ r hr => ?_
      have hch : (r.1.nodes (p.nodeAt roots a q)).children b = r.1.nodeAt roots a (b :: q) := by
        rw [nodeAt_cons, hr.rest a q (fun hb => not_below_self q hb.2)]
      rw [deepStep, hch]
      by_cases hn : r.1.nodeAt roots a (b :: q) = 0
      · exact ⟨r, if_pos hn, hr⟩
      obtain ⟨c, hc, hct⟩ := ih (q := b :: q) hr.sound (by
        rw [length_cons]
        omega)
      exact ⟨_, by simp only [hn, hc]; rfl, hr.trans hct.mono⟩
    have hnd : r.1.nodeAt roots a q = p.nodeAt roots a q :=
      hrt.rest a q (fun hb => not_below_self q hb.2)
    have hl := getD_tryCollapse_tidied hup hrt.sound (by rw [hnd]; exact hz)
    rw [hnd] at hl
    refine ⟨(_, _), ?_, hrt.trans hl⟩
    rw [deepCompactNode, if_neg hz]
    show (foldlM (deepStep depth (p.nodeAt roots a q)) (p, []) (finRange 8)).bind _ = _
    rw [hr]
    rfl

/-! ## Compaction of all shards -/

theorem mem_shards (h : (r, k) ∈ roots.zipIdx) (p : INodePool) : r = p.nodeAt roots k [] := by
  have := mem_zipIdx_iff_getElem?.mp h
  show r = roots.getD k 0
  rw [getD_eq_getElem?_getD, this]
  rfl

theorem compactAll_spec (hup : ClosedUp onPath) {idx : InlineIndex}
    (h : Sound onPath idx.shards idx.pool []) (now : Nat → Int) :
    Sound onPath idx.shards (idx.compactAll now).pool []
      ∧ SameEntries idx.shards idx.pool (idx.compactAll now).pool := by
  refine foldlRecOn (motive := fun p => Sound onPath idx.shards p []
    ∧ SameEntries idx.shards idx.pool p) _ _ ⟨h, fun _ _ _ => Iff.rfl⟩ fun p hp sh hm => ?_
  have ht := compactNode_tidied hup hp.1 sh.2 []
  rw [← mem_shards hm p] at ht
  obtain ⟨hsn, hsm⟩ := ht.sound.recycle (now sh.2)
  exact ⟨hsn, hp.2.trans (ht.same.trans hsm)⟩

theorem deepCompactAll_spec (hup : ClosedUp onPath) {idx : InlineIndex}
    (h : Sound onPath idx.shards idx.pool []) (now : Nat → Int) :
    ∃ p, idx.deepCompactAll now = some { idx with pool := p }
      ∧ Sound onPath idx.shards p [] ∧ SameEntries idx.shards idx.pool p := by
  obtain ⟨p, hp, hsn, hsm⟩ := foldlM_some (l := idx.shards.zipIdx)
    (P := fun p => Sound onPath idx.shards p [] ∧ SameEntries idx.shards idx.pool p)
    (f := fun p sh => do
      let r ← deepCompactNode (iMaxDepth + 1) p sh.1
      some (r.1.recycle r.2 (now sh.2))) ⟨h, fun _ _ _ => Iff.rfl⟩ fun sh hm p hp => by
    obtain ⟨c, hc, ht⟩ := deepCompactNode_spec (a := sh.2) (q := []) hup (iMaxDepth + 1) hp.1
      (Nat.zero_add _)
    rw [← mem_shards hm p] at hc
    obtain ⟨hsn, hsm⟩ := ht.sound.recycle (now sh.2)
    exact ⟨_, by rw [hc]; rfl, hsn, hp.2.trans (ht.same.trans hsm)⟩
  refine ⟨p, ?_, hsn, hsm⟩
  rw [InlineIndex.deepCompactAll, hp]
  rfl

end Rah.Cache
