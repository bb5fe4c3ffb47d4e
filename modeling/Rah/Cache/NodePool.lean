import Rah.Cache.Nodes

/-!
# The node pool is a forest

The invariant of the pool (`PoolInv`): from the shard roots the nodes form a forest no deeper
than the limit, no node stands at two positions, no node that waits for its reuse (or is just
about to be put in the queue, `limbo`) can be reached, and what was never handed out is blank.
Every change of the pool is then a change at one position.
-/

namespace Rah.Cache

open Rah.Lib List INodePool INode Function

/-- The root node of a shard. -/
def rootOf (roots : List Nat) (a : Nat) : Nat := roots.getD a 0

/-- The child link of a node, 0 where there is none. -/
def INodePool.child (p : INodePool) (n : Nat) (b : Fin 8) : Nat := (p.nodes n).children b

/-- The node at a position: the shard, and the branches from its root, the last one first. -/
def INodePool.nodeAt (p : INodePool) (roots : List Nat) (a : Nat) (pos : List (Fin 8)) : Nat :=
  addr (rootOf roots) p.child a pos

/-- The nodes in the queue. -/
def INodePool.waiting (p : INodePool) : List Nat := p.ready.drop p.readyHd

/-- The pool's invariant: the shards' trees are separate and not too deep, nodes past the bump
pointer are blank, and the nodes that wait for reuse or are in limbo hang in no tree. -/
structure PoolInv (roots : List Nat) (p : INodePool) (limbo : List Nat) : Prop where
  separate : Separate (rootOf roots) p.child
  depth : ∀ a pos, p.nodeAt roots a pos ≠ 0 → pos.length ≤ iMaxDepth
  blank : ∀ n, n = 0 ∨ p.next ≤ n → p.nodes n = INode.blank
  used : ∀ a pos, p.nodeAt roots a pos < p.next
  tidy : ∀ n, (p.nodes n).Tidy
  queue : p.readyHd ≤ p.ready.length
  nodup : (p.waiting ++ limbo).Nodup
  loose : ∀ n ∈ p.waiting ++ limbo,
    n ≠ 0 ∧ n < p.next ∧ ∀ a pos, p.nodeAt roots a pos ≠ n

section Pool

variable {roots limbo : List Nat} {p : INodePool} {a : Nat} {q : List (Fin 8)}

theorem INodePool.nodeAt_cons :
    p.nodeAt roots a (b :: pos) = (p.nodes (p.nodeAt roots a pos)).children b := rfl

@[simp] theorem INodePool.setNode_nodes_self : (p.setNode n node).nodes n = node := update_self ..

theorem INodePool.setNode_nodes_ne (p : INodePool) (node : INode) (h : m ≠ n) :
    (p.setNode n node).nodes m = p.nodes m :=
  update_of_ne h ..

theorem PoolInv.nodeAt_inj (h : PoolInv roots p limbo) (hne : p.nodeAt roots a q ≠ 0)
    (heq : p.nodeAt roots a' pos = p.nodeAt roots a q) : a' = a ∧ pos = q := by
  obtain ⟨ha, hq⟩ := h.separate.inj hne heq.symm
  exact ⟨ha.symm, hq.symm⟩

/-! ## Writing the slots of a node -/

theorem INodePool.setNode_child (p : INodePool) (n : Nat)
    (hc : node.children = (p.nodes n).children) : (p.setNode n node).child = p.child := by
  funext m b
  by_cases hm : m = n
  · subst hm
    rw [child, setNode_nodes_self, hc]
    rfl
  · rw [child, setNode_nodes_ne _ _ hm]
    rfl

theorem INodePool.setNode_nodeAt (p : INodePool) (roots : List Nat) (n : Nat)
    (hc : node.children = (p.nodes n).children) (a : Nat) (pos : List (Fin 8)) :
    (p.setNode n node).nodeAt roots a pos = p.nodeAt roots a pos := by
  rw [nodeAt, setNode_child p n hc]
  rfl

theorem PoolInv.setNode (h : PoolInv roots p limbo) (hne : p.nodeAt roots a q ≠ 0) {node : INode}
    (hc : node.children = (p.nodes (p.nodeAt roots a q)).children) (ht : node.Tidy) :
    PoolInv roots (p.setNode (p.nodeAt roots a q) node) limbo where
  separate := by
    rw [setNode_child p _ hc]
    exact h.separate
  depth := by
    intro a' pos hp
    rw [setNode_nodeAt p roots _ hc] at hp
    exact h.depth a' pos hp
  blank := by
    intro n hn
    have ho : n ≠ p.nodeAt roots a q := by
      intro heq
      subst heq
      rcases hn with hn | hn
      · exact hne hn
      · exact absurd (h.used a q) (Nat.not_lt.mpr hn)
    rw [setNode_nodes_ne _ _ ho]
    exact h.blank n hn
  used := by
    intro a' pos
    rw [setNode_nodeAt p roots _ hc]
    exact h.used a' pos
  tidy := by
    intro n
    by_cases hn : n = p.nodeAt roots a q
    · rw [hn, setNode_nodes_self]
      exact ht
    · rw [setNode_nodes_ne _ _ hn]
      exact h.tidy n
  queue := h.queue
  nodup := h.nodup
  loose := by
    intro n hn
    obtain ⟨hzero, hlt, hf⟩ := h.loose n hn
    refine ⟨hzero, hlt, fun a' pos => ?_⟩
    rw [setNode_nodeAt p roots _ hc]
    exact hf a' pos

/-! ## Allocating a node -/

/-- The pool may hand out one more node number. -/
def INodePool.Room (p : INodePool) : Prop := p.next + 1 < 4294967296

/-- A node just handed out: it is blank, and nothing that can be reached has changed. -/
structure Allocated (roots : List Nat) (p : INodePool) (m : Nat) (p' : INodePool) : Prop where
  inv : PoolInv roots p' []
  ne_zero : m ≠ 0
  lt_next : m < p'.next
  fresh : ∀ a pos, p.nodeAt roots a pos ≠ m
  notWaiting : m ∉ p'.waiting
  bare : ∃ t, p'.nodes m = { INode.blank with freedAt := t }
  same : ∀ n, n ≠ m → p'.nodes n = p.nodes n
  nodeAt : ∀ a pos, p'.nodeAt roots a pos = p.nodeAt roots a pos

theorem PoolInv.allocNew (h : PoolInv roots p []) (hr : p.Room) :
    Allocated roots p p.allocNew.1 p.allocNew.2 := by
  have hp : p.next ≠ 0 := Nat.ne_of_gt (Nat.lt_of_le_of_lt (by omega) (h.used 0 []))
  have hnx : (p.next + 1) % 4294967296 = p.next + 1 := Nat.mod_eq_of_lt hr
  have ha : p.allocNew = (p.next, { p with next := p.next + 1 }) := by
    rw [INodePool.allocNew, bump, hnx, if_neg hp]
  rw [ha]
  refine ⟨⟨h.separate, h.depth, ?_, ?_, h.tidy, h.queue, h.nodup, ?_⟩, hp,
    Nat.lt_succ_self _, ?_, ?_,
    ⟨0, ?_⟩, fun _ _ => rfl, fun _ _ => rfl⟩
  · intro n hn
    exact h.blank n (hn.imp_right (fun hn => Nat.le_of_succ_le hn))
  · exact fun a pos => Nat.lt_succ_of_lt (h.used a pos)
  · intro n hn
    obtain ⟨hzero, hlt, hf⟩ := h.loose n hn
    exact ⟨hzero, Nat.lt_succ_of_lt hlt, hf⟩
  · exact fun a pos => Nat.ne_of_lt (h.used a pos)
  · intro hmm
    have := (h.loose p.next (mem_append_left _ hmm)).2.1
    omega
  · exact h.blank p.next (.inr (by omega))

theorem PoolInv.alloc (h : PoolInv roots p []) (hrm : p.Room) (now : Int) :
    Allocated roots p (p.alloc now).1 (p.alloc now).2 := by
  rw [INodePool.alloc]
  cases hr : p.ready[p.readyHd]? with
  | none => exact h.allocNew hrm
  | some m =>
  by_cases ho : now - (p.nodes m).freedAt ≥ iGracePeriodNs
  · simp only [ho, if_true]
    -- the queue's first node, blank again
    obtain ⟨hl, hg⟩ := List.getElem?_eq_some_iff.mp hr
    have hw : p.waiting = m :: p.ready.drop (p.readyHd + 1) := by
      rw [waiting, drop_eq_getElem_cons hl, hg]
    have hnp := h.nodup
    rw [hw, append_nil, nodup_cons] at hnp
    have hm := h.loose m (by rw [hw]; simp)
    obtain ⟨hzero, hlt, hf⟩ := hm
    have hs : ∀ a pos b, (INodePool.setNode { p with readyHd := p.readyHd + 1 } m
        (resetNode (p.nodes m))).child (addr (rootOf roots) p.child a pos) b
        = p.child (addr (rootOf roots) p.child a pos) b := by
      intro a pos b
      rw [child, setNode_nodes_ne _ _ (show addr _ _ a pos ≠ m from hf a pos)]
      rfl
    have ha : ∀ a pos, (INodePool.setNode { p with readyHd := p.readyHd + 1 } m
        (resetNode (p.nodes m))).nodeAt roots a pos = p.nodeAt roots a pos :=
      fun a pos => addr_congr hs a pos
    have hnd : ∀ n, n ≠ m → (INodePool.setNode { p with readyHd := p.readyHd + 1 } m
        (resetNode (p.nodes m))).nodes n = p.nodes n :=
      fun n hn => setNode_nodes_ne _ _ hn
    refine ⟨⟨?_, ?_, ?_, ?_, ?_, hl, ?_, ?_⟩, hzero, hlt, hf, hnp.1,
      ⟨(p.nodes m).freedAt, setNode_nodes_self ..⟩, hnd, ha⟩
    · refine h.separate.congr hs (fun b => ?_)
      rw [child, hnd 0 (Ne.symm hzero)]
      exact h.separate.null b
    · intro a pos hp
      rw [ha] at hp
      exact h.depth a pos hp
    · intro n hn
      rw [hnd n ?_]
      · exact h.blank n hn
      intro heq
      subst heq
      rcases hn with hn | hn
      · exact hzero hn
      · exact absurd hlt (Nat.not_lt.mpr hn)
    · intro a pos
      rw [ha]
      exact h.used a pos
    · intro n
      by_cases hn : n = m
      · rw [hn, setNode_nodes_self]
        exact tidy_blank _
      · rw [hnd n hn]
        exact h.tidy n
    · rw [append_nil]
      exact hnp.2
    intro n hn
    rw [append_nil] at hn
    obtain ⟨hzero, hlt, hf⟩ := h.loose n (by
      rw [hw, append_nil]
      exact mem_cons_of_mem _ hn)
    refine ⟨hzero, hlt, fun a pos => ?_⟩
    rw [ha]
    exact hf a pos
  · simp only [ho]
    exact h.allocNew hrm

/-! ## The cells of the forest -/

end Pool

/-- What stands in the slots, by position. -/
abbrev Cells := Nat → List (Fin 8) → Fin 4 → ISlot

/-- The pool seen as slots by shard, position in the tree and number. -/
def INodePool.cells (p : INodePool) (roots : List Nat) : Cells :=
  fun a pos i => (p.nodes (p.nodeAt roots a pos)).slots i

/-- The cells `σ'` are `σ` but for one. -/
structure CellSet (σ σ' : Cells) (a : Nat) (q : List (Fin 8)) (i : Fin 4) (s : ISlot) : Prop where
  new : σ' a q i = s
  rest : ∀ a' pos j, ¬ (a' = a ∧ pos = q ∧ j = i) → σ' a' pos j = σ a' pos j

/-- One slot of the forest is `s` now, and all else is as it was. -/
def Rewritten (roots limbo : List Nat) (p p' : INodePool) (a : Nat) (q : List (Fin 8)) (i : Fin 4)
    (s : ISlot) : Prop :=
  PoolInv roots p' limbo ∧ CellSet (p.cells roots) (p'.cells roots) a q i s

section Cells

variable {roots limbo : List Nat} {p : INodePool} {a : Nat} {q : List (Fin 8)}

theorem PoolInv.cells_of_zero (h : PoolInv roots p limbo) (hzero : p.nodeAt roots a q = 0)
    (i : Fin 4) : p.cells roots a q i = ⟨iEmpty, 0⟩ := by
  rw [cells, hzero, h.blank 0 (.inl rfl)]
  rfl

variable {i : Fin 4} {tag : Word}

section

variable (h : PoolInv roots p limbo)
include h

/-- A live entry stands in a node, which is not too deep. -/
theorem PoolInv.nodeAt_of_live
    (hl : isFree (p.cells roots a q i).tag = false) : p.nodeAt roots a q ≠ 0 := by
  intro hzero
  rw [h.cells_of_zero hzero] at hl
  exact absurd isFree_iEmpty (Bool.eq_false_iff.mp hl)

section

variable (hne : p.nodeAt roots a q ≠ 0)
include hne

/-- **One slot is rewritten**, and the forest stays as it is. -/
theorem PoolInv.rewrite (node : INode) (ht : node.Tidy)
    (hc : node.children = (p.nodes (p.nodeAt roots a q)).children)
    (hr : ∀ j, j ≠ i → node.slots j = (p.nodes (p.nodeAt roots a q)).slots j) :
    Rewritten roots limbo p (p.setNode (p.nodeAt roots a q) node) a q i (node.slots i) := by
  refine ⟨h.setNode hne hc ht, ?_, ?_⟩
  · rw [cells, setNode_nodeAt p roots _ hc, setNode_nodes_self]
  · intro a' pos j hj
    rw [cells, setNode_nodeAt p roots _ hc]
    by_cases heq : p.nodeAt roots a' pos = p.nodeAt roots a q
    · obtain ⟨rfl, rfl⟩ := h.nodeAt_inj hne heq
      rw [setNode_nodes_self]
      exact hr j (fun hji => hj ⟨rfl, rfl, hji⟩)
    · rw [setNode_nodes_ne _ _ heq]
      rfl

/-- The value of a tag's entry is replaced. -/
theorem PoolInv.setVal (ht : (p.cells roots a q i).tag = tag) (val : Word) :
    Rewritten roots limbo p (p.setNode (p.nodeAt roots a q)
      ((p.nodes (p.nodeAt roots a q)).setVal i val)) a q i ⟨tag, val⟩ := by
  have hw := h.rewrite hne ((p.nodes _).setVal i val) (h.tidy _).setVal rfl
    (fun j hj => setVal_slots_ne hj)
  rw [setVal_slots_self, show ((p.nodes _).slots i).tag = tag from ht] at hw
  exact hw

/-- A slot gets a new entry. -/
theorem PoolInv.put (hl : isFree tag = false) (hf : ∀ j, j < i → (p.cells roots a q j).tag ≠ iEmpty)
    (val : Word) :
    Rewritten roots limbo p (p.setNode (p.nodeAt roots a q)
      ((p.nodes (p.nodeAt roots a q)).put i tag val)) a q i ⟨tag, val⟩ := by
  have hw := h.rewrite hne ((p.nodes _).put i tag val) ((h.tidy _).put hl hf) rfl
    (fun j hj => put_slots_ne hj)
  rw [put_slots_self] at hw
  exact hw

/-- An entry becomes a tombstone. -/
theorem PoolInv.bury (i : Fin 4) :
    Rewritten roots limbo p (p.setNode (p.nodeAt roots a q)
      ((p.nodes (p.nodeAt roots a q)).bury i)) a q i ⟨iTombstone, 0⟩ := by
  have hw := h.rewrite hne ((p.nodes _).bury i) ((h.tidy _).bury i) rfl
    (fun j hj => bury_slots_ne hj)
  rw [bury_slots_self] at hw
  exact hw

end

end

/-! ## Adding a child -/

/-- The pool after a new node `m` with the content of `leaf` was hung below the node at `q`,
which becomes `above`. -/
def INodePool.hang (p' : INodePool) (m n : Nat) (leaf above : INode) : INodePool :=
  (p'.setNode m leaf).setNode n above

section Hang

variable {p' : INodePool} {m : Nat} {b : Fin 8} {leaf above : INode}

theorem INodePool.hang_nodes (p' : INodePool) (leaf above : INode) (hne : n ≠ m) :
    (p'.hang m n leaf above).nodes n = above ∧ (p'.hang m n leaf above).nodes m = leaf
      ∧ ∀ k, k ≠ n → k ≠ m → (p'.hang m n leaf above).nodes k = p'.nodes k := by
  refine ⟨setNode_nodes_self .., ?_, fun k hn hm => ?_⟩
  · rw [hang, setNode_nodes_ne _ _ (Ne.symm hne), setNode_nodes_self]
  · rw [hang, setNode_nodes_ne _ _ hn, setNode_nodes_ne _ _ hm]

theorem Allocated.links (hm : Allocated roots p m p') (hne : p.nodeAt roots a q ≠ 0)
    (hzero : p.nodeAt roots a (b :: q) = 0) (hb : ∀ b', leaf.children b' = 0)
    (ha : above.children = update (p.nodes (p.nodeAt roots a q)).children b m) :
    Links (rootOf roots) p.child (p'.hang m (p.nodeAt roots a q) leaf above).child a q b m := by
  obtain ⟨hq, hl, ho⟩ := p'.hang_nodes leaf above (hm.fresh a q)
  refine ⟨hne, hzero, hm.ne_zero, hm.fresh, ?_, ?_, ?_, ?_⟩
  · show ((p'.hang m _ leaf above).nodes (p.nodeAt roots a q)).children b = m
    rw [hq, ha, update_self]
  · intro b'
    rw [child, hl, hb]
  · intro b' hb'
    show ((p'.hang m _ leaf above).nodes (p.nodeAt roots a q)).children b' = _
    rw [hq, ha, update_of_ne hb']
    rfl
  · intro n hn hnm b'
    rw [child, ho n hn hnm, hm.same n hnm]
    rfl

section

variable (h : PoolInv roots p []) (hm : Allocated roots p m p') (hne : p.nodeAt roots a q ≠ 0)
  (hzero : p.nodeAt roots a (b :: q) = 0)
include h hm hne hzero

theorem Allocated.hang_inv
    (hd : q.length < iMaxDepth) (hb : ∀ b', leaf.children b' = 0) (ht : leaf.Tidy)
    (ha : above.children = update (p.nodes (p.nodeAt roots a q)).children b m)
    (htidy' : above.Tidy) : PoolInv roots (p'.hang m (p.nodeAt roots a q) leaf above) [] := by
  have hl := hm.links hne hzero hb ha
  obtain ⟨hnw, hr⟩ := addr_link h.separate hl
  obtain ⟨hq, hlf, ho⟩ := p'.hang_nodes leaf above (hm.fresh a q)
  have hlt : p.nodeAt roots a q < p'.next := by
    rw [← hm.nodeAt]
    exact hm.inv.used a q
  refine ⟨h.separate.link hl, ?_, ?_, ?_, ?_, hm.inv.queue, hm.inv.nodup, ?_⟩
  · intro a' pos hp
    by_cases hat : a' = a ∧ pos = b :: q
    · rw [hat.2]
      exact hd
    · refine h.depth a' pos ?_
      rw [← show _ = p.nodeAt roots a' pos from hr a' pos hat]
      exact hp
  · intro n hn
    rw [ho n ?_ ?_]
    · exact hm.inv.blank n hn
    · intro heq
      rcases hn with hn | hn
      · exact hne (heq.symm.trans hn)
      · exact absurd hlt (Nat.not_lt.mpr (heq ▸ hn))
    · intro heq
      rcases hn with hn | hn
      · exact hm.ne_zero (heq.symm.trans hn)
      · exact absurd hm.lt_next (Nat.not_lt.mpr (heq ▸ hn))
  · intro a' pos
    by_cases hat : a' = a ∧ pos = b :: q
    · obtain ⟨rfl, rfl⟩ := hat
      rw [show INodePool.nodeAt _ roots a' (b :: q) = m from hnw]
      exact hm.lt_next
    · rw [show INodePool.nodeAt _ roots a' pos = _ from hr a' pos hat]
      have := hm.inv.used a' pos
      rw [hm.nodeAt] at this
      exact this
  · intro n
    by_cases hnq : n = p.nodeAt roots a q
    · rw [hnq, hq]
      exact htidy'
    by_cases hnm : n = m
    · rw [hnm, hlf]
      exact ht
    · rw [ho n hnq hnm]
      exact hm.inv.tidy n
  · intro n hn
    obtain ⟨hzero', hlt', hf⟩ := hm.inv.loose n hn
    refine ⟨hzero', hlt', fun a' pos => ?_⟩
    by_cases hat : a' = a ∧ pos = b :: q
    · obtain ⟨rfl, rfl⟩ := hat
      rw [show INodePool.nodeAt _ roots a' (b :: q) = m from hnw]
      intro heq
      subst heq
      rw [append_nil] at hn
      exact hm.notWaiting hn
    · rw [show INodePool.nodeAt _ roots a' pos = _ from hr a' pos hat]
      have := hf a' pos
      rw [hm.nodeAt] at this
      exact this

theorem Allocated.hang_cells (hb : ∀ b', leaf.children b' = 0)
    (ha : above.children = update (p.nodes (p.nodeAt roots a q)).children b m)
    (hs : above.slots = (p.nodes (p.nodeAt roots a q)).slots)
    (he : ∀ j, j ≠ i → leaf.slots j = ⟨iEmpty, 0⟩) :
    CellSet (p.cells roots) ((p'.hang m (p.nodeAt roots a q) leaf above).cells roots) a (b :: q) i
      (leaf.slots i) := by
  obtain ⟨hn, hr⟩ := addr_link h.separate (hm.links hne hzero hb ha)
  obtain ⟨hq, hl, ho⟩ := p'.hang_nodes leaf above (hm.fresh a q)
  refine ⟨?_, ?_⟩
  · rw [cells, show INodePool.nodeAt _ roots a (b :: q) = m from hn, hl]
  intro a' pos j hj
  by_cases hat : a' = a ∧ pos = b :: q
  · obtain ⟨rfl, rfl⟩ := hat
    rw [h.cells_of_zero hzero, cells,
      show INodePool.nodeAt _ roots a' (b :: q) = m from hn, hl]
    exact he j (fun hji => hj ⟨rfl, rfl, hji⟩)
  rw [cells, show INodePool.nodeAt _ roots a' pos = p.nodeAt roots a' pos from
    hr a' pos hat]
  by_cases heq : p.nodeAt roots a' pos = p.nodeAt roots a q
  · rw [cells, heq, hq, hs]
  · rw [ho _ heq (hm.fresh a' pos), hm.same _ (hm.fresh a' pos)]
    rfl

end

end Hang

theorem insertAt_blank (hl : isFree tag = false) (val : Word) (t : Int) :
    ∃ i, insertAt { blank with freedAt := t } tag val
      = some (put { blank with freedAt := t } i tag val)
      ∧ (put { blank with freedAt := t } i tag val).Tidy := by
  rcases insertAt_cases (tidy_blank t) hl with
    ⟨i, hi, _⟩ | ⟨i, _, _, hf, hp⟩ | ⟨hfl, _⟩
  · exact absurd hi.symm (ne_iEmpty_of_live hl)
  · exact ⟨i, hp, (tidy_blank t).put hl hf⟩
  · exact absurd isFree_iEmpty (Bool.eq_false_iff.mp (hfl 0).1)

/-- A child with one entry is hung below a node. -/
theorem PoolInv.addChild (h : PoolInv roots p []) (hr : p.Room) (hne : p.nodeAt roots a q ≠ 0)
    (hzero : p.nodeAt roots a (b :: q) = 0) (hd : q.length < iMaxDepth)
    (hl : isFree tag = false) (val : Word) (now : Int) : ∃ i, Rewritten roots [] p
      (p.addChild (p.nodeAt roots a q) b tag val now) a (b :: q) i ⟨tag, val⟩ := by
  have hm := h.alloc hr now
  rw [INodePool.addChild]
  generalize p.alloc now = r at hm ⊢
  obtain ⟨m, p'⟩ := r
  obtain ⟨t, hb⟩ := hm.bare
  obtain ⟨i, hp, ht⟩ := insertAt_blank hl val t
  have ho : (p'.setNode m (INode.put { INode.blank with freedAt := t } i tag val)).nodes
      (p.nodeAt roots a q) = p.nodes (p.nodeAt roots a q) := by
    rw [setNode_nodes_ne _ _ (hm.fresh a q), hm.same _ (hm.fresh a q)]
  rw [hb, hp, Option.getD_some, ho]
  have htidy' := h.tidy (p.nodeAt roots a q)
  refine ⟨i, hm.hang_inv h hne hzero hd (fun _ => rfl) ht rfl ⟨htidy'.h2, htidy'.dense⟩, ?_⟩
  rw [show (⟨tag, val⟩ : ISlot) = (INode.put { INode.blank with freedAt := t } i tag val).slots i
    from put_slots_self.symm]
  refine hm.hang_cells h hne hzero ?_ ?_ ?_ ?_
  · exact fun _ => rfl
  · rfl
  · rfl
  · exact fun j hj => put_slots_ne hj

end Cells

end Rah.Cache
