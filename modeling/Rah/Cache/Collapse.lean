import Rah.Cache.Cells

/-!
# Collapsing and compaction

A collapse folds the children of a node into it and sets them free. It changes no answer of
the index, and neither does anything that is made of collapses: what follows a delete on its
way up, and the compaction of a shard, shallow or deep.
-/

namespace Rah.Cache

open Rah.Lib List INodePool INode

variable {onPath : Word → Nat → List (Fin 8) → Prop} {roots limbo : List Nat}
  {p p' : INodePool} {a : Nat} {q : List (Fin 8)} {detached : List Nat}

/-- What a collapse that was carried out says. -/
theorem tryCollapse_some (hn : p.nodes 0 = blank)
    (h : p.tryCollapse n = some (p', detached)) :
    ∃ es, es = (finRange 8).flatMap (fun b => (p.nodes (p.child n b)).entries)
      ∧ (∀ b b', p.child (p.child n b) b' = 0)
      ∧ es.length ≤ (finRange 4).countP (fun i => isFree ((p.nodes n).slots i).tag)
      ∧ p' = p.setNode n { fillSlots (p.nodes n) (finRange 4) es with
          children := fun _ => 0 }
      ∧ detached = ((finRange 8).map (p.child n)).filter (· != 0) := by
  rw [tryCollapse] at h
  split at h
  · cases h
  rename_i es hc
  dsimp only at h
  split at h
  · cases h
  rename_i hr
  rw [Option.some.injEq, Prod.mk.injEq] at h
  obtain ⟨hes, hl⟩ := collectChildren_eq (by rw [hn]; exact entries_blank 0)
    (by rw [hn]; exact fun _ => rfl) _ hc
  exact ⟨es, hes, fun b => hl b (mem_finRange b), Nat.le_of_not_lt hr, h.1.symm, h.2.symm⟩

theorem INodePool.prunes (hne : p.nodeAt roots a q ≠ 0)
    (hl : ∀ b b', p.child (p.child (p.nodeAt roots a q) b) b' = 0) {node : INode}
    (hc : ∀ b, node.children b = 0) :
    Prunes (rootOf roots) p.child (p.setNode (p.nodeAt roots a q) node).child a q where
  above := hne
  leaves := hl
  cut := by
    intro b
    show ((p.setNode (p.nodeAt roots a q) node).nodes (p.nodeAt roots a q)).children b = 0
    rw [setNode_nodes_self, hc]
  rest := by
    intro n hn b
    rw [child, setNode_nodes_ne _ _ (show n ≠ p.nodeAt roots a q from hn)]
    rfl

/-- The tags that were collected are all different. -/
theorem Filed.collected_nodup (h : Filed onPath (p.cells roots)) (a : Nat) (q : List (Fin 8)) :
    (((finRange 8).flatMap (fun b =>
      (p.nodes (p.child (p.nodeAt roots a q) b)).entries)).map ISlot.tag).Nodup := by
  rw [map_flatMap, nodup_flatMap]
  have ho : ∀ b i b' j, isFree (p.cells roots a (b :: q) i).tag = false →
      (p.cells roots a (b :: q) i).tag = (p.cells roots a (b' :: q) j).tag → b = b' ∧ i = j := by
    intro b i b' j hl heq
    obtain ⟨_, hp, hij⟩ := h.once hl heq
    exact ⟨(cons.inj hp).1, hij⟩
  refine ⟨fun b _ => entries_nodup (fun i j hl heq => (ho b i b j hl heq).2), ?_⟩
  refine (nodup_finRange 8).imp ?_
  intro b b' hne
  refine disjoint_left.mpr ?_
  intro t ht ht'
  obtain ⟨e, he, rfl⟩ := mem_map.mp ht
  obtain ⟨e', he', heq⟩ := mem_map.mp ht'
  obtain ⟨hl, i, rfl⟩ := mem_entries.mp he
  obtain ⟨_, j, rfl⟩ := mem_entries.mp he'
  exact hne (ho b i b' j hl heq.symm).1

section Collapse

variable {es : List ISlot} {node : INode}

/-- A collapse at a position, as the pool sees it. -/
structure Collapsed (roots : List Nat) (p p' : INodePool) (a : Nat) (q : List (Fin 8))
    (es : List ISlot) (node : INode) : Prop where
  ne_zero : p.nodeAt roots a q ≠ 0
  collected : es
    = (List.finRange 8).flatMap (fun b => (p.nodes (p.child (p.nodeAt roots a q) b)).entries)
  room : es.length
    ≤ (List.finRange 4).countP (fun i => isFree ((p.nodes (p.nodeAt roots a q)).slots i).tag)
  filled : Filled (p.nodes (p.nodeAt roots a q)) (List.finRange 4) es node
  tidy : node.Tidy
  pool : p' = p.setNode (p.nodeAt roots a q) { node with children := fun _ => 0 }
  prunes : Prunes (rootOf roots) p.child p'.child a q

section

variable (h : PoolInv roots p limbo)
include h

theorem tryCollapse_collapsed (hne : p.nodeAt roots a q ≠ 0)
    (hc : p.tryCollapse (p.nodeAt roots a q) = some (p', detached)) :
    ∃ es node, Collapsed roots p p' a q es node
      ∧ detached = ((finRange 8).map (p.child (p.nodeAt roots a q))).filter (· != 0) := by
  obtain ⟨es, hes, hl, hr, hp', hd⟩ := tryCollapse_some (h.blank 0 (.inl rfl)) hc
  have hel : ∀ e ∈ es, isFree e.tag = false := by
    intro e he
    rw [hes, mem_flatMap] at he
    obtain ⟨b, _, he⟩ := he
    exact (mem_entries.mp he).1
  refine ⟨es, fillSlots (p.nodes (p.nodeAt roots a q)) (finRange 4) es,
    ⟨hne, hes, hr, fillSlots_filled _ _ es (nodup_finRange 4), ?_, hp', ?_⟩, hd⟩
  · exact fillSlots_tidy (finRange 4) (h.tidy (p.nodeAt roots a q))
      (pairwise_lt_finRange 4) (fun i hi => absurd (mem_finRange i) hi) hel
  · rw [hp']
    exact prunes hne hl (fun _ => rfl)

theorem Collapsed.nodeAt_cut (hc : Collapsed roots p p' a q es node)
    (b : Fin 8) : p'.nodeAt roots a (b :: q) = 0 :=
  (addr_prune h.separate hc.prunes).1 b

theorem Collapsed.nodeAt_rest (hc : Collapsed roots p p' a q es node)
    (hp : ∀ b, ¬ (a' = a ∧ pos = b :: q)) : p'.nodeAt roots a' pos = p.nodeAt roots a' pos :=
  (addr_prune h.separate hc.prunes).2 a' pos hp

theorem Collapsed.nodeAt_of_ne_zero
    (hc : Collapsed roots p p' a q es node) (hne : p'.nodeAt roots a' pos ≠ 0) :
    (∀ b, ¬ (a' = a ∧ pos = b :: q)) ∧ p'.nodeAt roots a' pos = p.nodeAt roots a' pos := by
  have hp : ∀ b, ¬ (a' = a ∧ pos = b :: q) := by
    intro b hb
    obtain ⟨rfl, rfl⟩ := hb
    exact hne (hc.nodeAt_cut h b)
  exact ⟨hp, hc.nodeAt_rest h hp⟩

end

theorem Collapsed.nodes_ne (hc : Collapsed roots p p' a q es node) (hn : n ≠ p.nodeAt roots a q) :
    p'.nodes n = p.nodes n := by
  rw [hc.pool]
  exact setNode_nodes_ne _ _ hn

/-- **A collapse keeps the pool a forest**, with the detached nodes loose. -/
theorem Collapsed.inv (h : PoolInv roots p limbo) (hc : Collapsed roots p p' a q es node)
    (hd : detached = ((finRange 8).map (p.child (p.nodeAt roots a q))).filter (· != 0)) :
    PoolInv roots p' (limbo ++ detached) := by
  have hnx : p'.next = p.next := by rw [hc.pool]; rfl
  have hw : p'.waiting = p.waiting := by rw [hc.pool]; rfl
  have hmm : ∀ n ∈ detached, ∃ b, n = p.nodeAt roots a (b :: q) ∧ n ≠ 0 := by
    intro n hn
    rw [hd, mem_filter, mem_map] at hn
    obtain ⟨⟨b, _, rfl⟩, hz⟩ := hn
    exact ⟨b, rfl, by simpa using hz⟩
  have hl : ∀ n ∈ p.waiting ++ limbo ++ detached,
      n ≠ 0 ∧ n < p'.next ∧ ∀ a' pos, p'.nodeAt roots a' pos ≠ n := by
    intro n hn
    rw [hnx]
    rcases mem_append.mp hn with hn | hn
    · obtain ⟨hz, hlt, hf⟩ := h.loose n hn
      refine ⟨hz, hlt, fun a' pos heq => ?_⟩
      rw [(hc.nodeAt_of_ne_zero h (heq ▸ hz)).2] at heq
      exact hf a' pos heq
    obtain ⟨b, rfl, hz⟩ := hmm n hn
    refine ⟨hz, h.used a (b :: q), fun a' pos heq => ?_⟩
    obtain ⟨hp, hs⟩ := hc.nodeAt_of_ne_zero h (heq ▸ hz)
    rw [hs] at heq
    exact hp b (h.nodeAt_inj hz heq)
  refine ⟨h.separate.prune hc.prunes, ?_, ?_, ?_, ?_, ?_, ?_, ?_⟩
  · intro a' pos hp
    refine h.depth a' pos ?_
    rw [← (hc.nodeAt_of_ne_zero h hp).2]
    exact hp
  · intro n hn
    rw [hnx] at hn
    rw [hc.nodes_ne ?_]
    · exact h.blank n hn
    intro heq
    rcases hn with hn | hn
    · exact hc.ne_zero (heq.symm.trans hn)
    · exact absurd (h.used a q) (by omega)
  · intro a' pos
    rw [hnx]
    by_cases hz : p'.nodeAt roots a' pos = 0
    · rw [hz]
      exact Nat.lt_of_le_of_lt (by omega) (h.used a q)
    · rw [(hc.nodeAt_of_ne_zero h hz).2]
      exact h.used a' pos
  · intro n
    by_cases hn : n = p.nodeAt roots a q
    · rw [hn, hc.pool, setNode_nodes_self]
      exact ⟨hc.tidy.h2, hc.tidy.dense⟩
    · rw [hc.nodes_ne hn]
      exact h.tidy n
  · rw [hc.pool]
    exact h.queue
  · rw [hw, ← append_assoc, nodup_append]
    refine ⟨h.nodup, ?_, ?_⟩
    · rw [hd, filter_map]
      refine List.Nodup.map_on ?_ ((nodup_finRange 8).filter _)
      intro b hb b' _ heq
      have hz : p.child (p.nodeAt roots a q) b ≠ 0 := by simpa using hb
      have hi := h.nodeAt_inj (show p.nodeAt roots a (b :: q) ≠ 0 from hz)
        (show p.nodeAt roots a (b' :: q) = _ from heq.symm)
      exact (cons.inj hi.2).1.symm
    · intro n hn m hm heq
      subst heq
      obtain ⟨b, hb, _⟩ := hmm n hm
      exact (h.loose n hn).2.2 a (b :: q) hb.symm
  · rw [hw, ← append_assoc]
    exact hl

theorem Collapsed.mem_collected (hc : Collapsed roots p p' a q es node) :
    e ∈ es ↔ isFree e.tag = false ∧ ∃ b j, p.cells roots a (b :: q) j = e := by
  rw [hc.collected, mem_flatMap]
  refine ⟨fun he => ?_, fun he => ?_⟩
  · obtain ⟨b, _, he⟩ := he
    obtain ⟨hl, j, hj⟩ := mem_entries.mp he
    exact ⟨hl, b, j, hj⟩
  · obtain ⟨hl, b, j, hj⟩ := he
    exact ⟨b, mem_finRange b, mem_entries.mpr ⟨hl, j, hj⟩⟩

/-- **A collapse folds the children into the node.** -/
theorem Collapsed.folds (h : PoolInv roots p limbo) (hfl : Filed onPath (p.cells roots))
    (hc : Collapsed roots p p' a q es node) : Folds (p.cells roots) (p'.cells roots) a q := by
  have hsl : ∀ i, p'.cells roots a q i = node.slots i := by
    intro i
    have hp : ∀ b, ¬ (a = a ∧ q = b :: q) := fun b hb => by
      simpa using congrArg length hb.2
    rw [cells, hc.nodeAt_rest h hp, hc.pool, setNode_nodes_self]
  refine ⟨?_, ?_, ?_, ?_, ?_, ?_⟩
  · intro i hl
    rw [hsl]
    exact hc.filled.kept i (.inr hl)
  · intro i
    rw [hsl]
    refine (hc.filled.source i).imp_right (fun hs => ⟨hs.1, ?_⟩)
    exact (hc.mem_collected.mp hs.2).2
  · intro b j hl
    obtain ⟨i, _, hf, hi⟩ := hc.filled.placed hc.room _ (hc.mem_collected.mpr ⟨hl, b, j, rfl⟩)
    exact ⟨i, hf, by rw [hsl, hi]⟩
  · intro i j hi hj hl heq
    rw [hsl] at hl heq
    rw [hsl] at heq
    refine hc.filled.distinct ?_ i j hi hj hl heq
    rw [hc.collected]
    exact hfl.collected_nodup a q
  · intro b i
    rw [cells, hc.nodeAt_cut h b, hc.nodes_ne (Ne.symm hc.ne_zero), h.blank 0 (.inl rfl)]
    exact isFree_iEmpty
  intro a' pos hq hp
  funext i
  rw [cells, hc.nodeAt_rest h hp]
  rw [hc.nodes_ne (fun heq => hq (h.nodeAt_inj hc.ne_zero heq))]
  rfl

end Collapse

/-! ## The state between the collapses of one operation -/

/-- The pool is a forest and its entries are filed. -/
structure Sound (onPath : Word → Nat → List (Fin 8) → Prop) (roots : List Nat) (p : INodePool)
    (limbo : List Nat) : Prop where
  pool : PoolInv roots p limbo
  filed : Filed onPath (p.cells roots)

/-- The pools hold the same entries. -/
def SameEntries (roots : List Nat) (p p' : INodePool) : Prop :=
  ∀ t, isFree t = false → ∀ v, Holds (p'.cells roots) t v ↔ Holds (p.cells roots) t v

theorem SameEntries.trans (h : SameEntries roots p1 p2) (h' : SameEntries roots p2 p3) :
    SameEntries roots p1 p3 :=
  fun t ht v => (h' t ht v).trans (h t ht v)

/-- The position is strictly below `q`. -/
def Below (q pos : List (Fin 8)) : Prop := ∃ b r, pos = r ++ b :: q

/-- Entries may only have moved up. -/
def ClosedUp (onPath : Word → Nat → List (Fin 8) → Prop) : Prop :=
  ∀ t a b q, onPath t a (b :: q) → onPath t a q

/-- What collapses below `q` do: they keep the pool sound, the entries and all the nodes that are
not below `q`, and set some nodes free. -/
structure Tidied (onPath : Word → Nat → List (Fin 8) → Prop) (roots : List Nat) (a : Nat)
    (q : List (Fin 8)) (p : INodePool) (limbo : List Nat) (p' : INodePool) (freed : List Nat) :
    Prop where
  sound : Sound onPath roots p' (limbo ++ freed)
  same : SameEntries roots p p'
  rest : ∀ a' pos, ¬ (a' = a ∧ Below q pos) → p'.nodeAt roots a' pos = p.nodeAt roots a' pos

theorem Tidied.refl (h : Sound onPath roots p limbo) (a : Nat) (q : List (Fin 8)) :
    Tidied onPath roots a q p limbo p [] :=
  ⟨by rw [append_nil]; exact h, fun _ _ _ => Iff.rfl, fun _ _ _ => rfl⟩

theorem Tidied.trans {p1 p2 p3 : INodePool} {f g : List Nat}
    (h : Tidied onPath roots a q p1 limbo p2 f)
    (h' : Tidied onPath roots a q p2 (limbo ++ f) p3 g) :
    Tidied onPath roots a q p1 limbo p3 (f ++ g) where
  sound := by
    rw [← append_assoc]
    exact h'.sound
  same := h.same.trans h'.same
  rest := fun a' pos hp => (h'.rest a' pos hp).trans (h.rest a' pos hp)

theorem Tidied.mono (h : Tidied onPath roots a (b :: q) p limbo p' f) :
    Tidied onPath roots a q p limbo p' f := by
  refine ⟨h.sound, h.same, fun a' pos hp => h.rest a' pos ?_⟩
  intro hb
  obtain ⟨ha, b', r, hr⟩ := hb
  exact hp ⟨ha, b, r ++ [b'], by rw [hr, append_assoc]; rfl⟩

theorem not_below_self (q : List (Fin 8)) : ¬ Below q q := by
  intro hb
  obtain ⟨b, r, hr⟩ := hb
  have := congrArg length hr
  simp only [length_append, length_cons] at this
  omega

theorem tryCollapse_tidied (hup : ClosedUp onPath) (h : Sound onPath roots p limbo)
    (hne : p.nodeAt roots a q ≠ 0)
    (hc : p.tryCollapse (p.nodeAt roots a q) = some (p', detached)) :
    Tidied onPath roots a q p limbo p' detached := by
  obtain ⟨es, node, hcl, hd⟩ := tryCollapse_collapsed h.pool hne hc
  have hf := hcl.folds h.pool h.filed
  refine ⟨⟨hcl.inv h.pool hd, h.filed.fold hf (fun h => hup _ _ _ _ h)⟩,
    fun _ ht v => hf.holds ht v, ?_⟩
  intro a' pos hp
  refine hcl.nodeAt_rest h.pool ?_
  intro b hb
  exact hp ⟨hb.1, b, [], hb.2⟩

end Rah.Cache
