import Rah.Validate.Rules

/-!
# Where a rule means what it says

A condition is a tree of compiled checks (`Tree`), and `buildCondNodes` lays it out in
pre-order (`layout`). The index of a composite's first child is taken in the slice the
composite was built in and is not moved when that slice is put into a larger one, so it is
1 wherever the composite stands: a composite below another one takes the root's children
for its own. The walk of a rule is right when no composite stands below another.
-/

namespace Rah.Validate

open List Option

/-! ## The tree of a condition -/

/-- An and/or tree over compiled checks. -/
inductive Tree (P : Type) where
  | leaf (node : CondNode P)
  | composite (kind : CondKind) (children : List (Tree P))

section Trees

variable (host : Host)

mutual

/-- The tree of a condition, its leaves compiled in the order of the text. -/
def treeOf : CondConfig → Pools → Except BuildError (Tree host.Pattern × Pools)
  | .mk op source path check value valueNum inValues children, pools =>
    if isComposite host op children.length then
      match treesOf children pools with
      | .error e => .error e
      | .ok r =>
        if children.isEmpty then .error .indexOutOfRange
        else .ok (.composite (compositeKind host op) r.1, r.2)
    else
      match buildLeaf host source path check value valueNum inValues pools with
      | .error e => .error e
      | .ok r => .ok (.leaf r.1, r.2)

/-- The trees of the children, with the pools they leave. -/
def treesOf : List CondConfig → Pools → Except BuildError (List (Tree host.Pattern) × Pools)
  | [], pools => .ok ([], pools)
  | child :: children, pools =>
    match treeOf child pools with
    | .error e => .error e
    | .ok r =>
      match treesOf children r.2 with
      | .error e => .error e
      | .ok r' => .ok (r.1 :: r'.1, r'.2)

end

mutual

/-- The nodes of a tree in the order of the array. -/
def layout : Tree host.Pattern → List (CondNode host.Pattern)
  | .leaf node => [node]
  | .composite kind children => compositeNode host kind children.length :: layouts children

/-- The trees one after the other. -/
def layouts : List (Tree host.Pattern) → List (CondNode host.Pattern)
  | [] => []
  | t :: ts => layout t ++ layouts ts

end

end Trees

section Value

variable {P : Type}

mutual

/-- The value of the tree, for the values of its leaves. -/
def Tree.value (leaf : CondNode P → Bool) : Tree P → Bool
  | .leaf node => leaf node
  | .composite .condOr children => anyValue leaf children
  | .composite _ children => allValues leaf children

/-- Some child holds. -/
def anyValue (leaf : CondNode P → Bool) : List (Tree P) → Bool
  | [] => false
  | t :: ts => t.value leaf || anyValue leaf ts

/-- Every child holds. -/
def allValues (leaf : CondNode P → Bool) : List (Tree P) → Bool
  | [] => true
  | t :: ts => t.value leaf && allValues leaf ts

end

end Value

section Build

variable {host : Host}

theorem compositeKind_ne_leaf (op : String) : compositeKind host op ≠ .condLeaf := by
  unfold compositeKind
  split <;> simp

theorem treesOf_cons (h : treesOf host (child :: children) pools = .ok r) :
    ∃ r1 r2, treeOf host child pools = .ok r1 ∧ treesOf host children r1.2 = .ok r2
      ∧ r = (r1.1 :: r2.1, r2.2) := by
  rw [treesOf] at h
  split at h
  · cases h
  split at h
  · cases h
  · cases h
    exact ⟨_, _, ‹_›, ‹_›, rfl⟩

theorem treesOf_length : ∀ {children : List CondConfig} {pools : Pools}
    {r : List (Tree host.Pattern) × Pools},
    treesOf host children pools = .ok r → r.1.length = children.length
  | [], pools, r, h => by
    cases h
    rfl
  | child :: children, pools, r, h => by
    obtain ⟨r1, r2, -, hcs, rfl⟩ := treesOf_cons h
    rw [length_cons, length_cons, treesOf_length hcs]

mutual

/-- **The array is the tree in pre-order.** -/
theorem buildCondNodes_eq : ∀ (cc : CondConfig) (pools : Pools), buildCondNodes host cc pools =
      (treeOf host cc pools).map (fun r => (layout host r.1, r.2))
  | .mk op source path check value valueNum inValues children, pools => by
    rw [buildCondNodes, treeOf]
    by_cases hc : isComposite host op children.length = true
    · rw [if_pos hc, if_pos hc, buildChildren_eq children pools]
      cases hts : treesOf host children pools with
      | error e => rfl
      | ok r =>
        by_cases he : children.isEmpty = true
        · simp [Except.map, he]
        · simp [Except.map, he, layout, treesOf_length hts]
    · rw [if_neg hc, if_neg hc]
      cases buildLeaf host source path check value valueNum inValues pools with
      | error e | ok r => rfl

theorem buildChildren_eq : ∀ (children : List CondConfig) (pools : Pools),
    buildChildren host children pools =
      (treesOf host children pools).map (fun r => (layouts host r.1, r.2))
  | [], pools => by
    rfl
  | child :: children, pools => by
    rw [buildChildren, treesOf, buildCondNodes_eq child pools]
    cases treeOf host child pools with
    | error e => rfl
    | ok r =>
    dsimp only [Except.map]
    rw [buildChildren_eq children r.2]
    cases treesOf host children r.2 with
    | error e | ok r' => rfl

end

theorem buildCheck_kind {node : CheckKind → CondNode host.Pattern}
    (hn : ∀ c, (node c).kind = .condLeaf)
    (h : buildCheck host node check value valueNum inValues pools = .ok r) :
    r.1.kind = .condLeaf := by
  unfold buildCheck at h
  dsimp only at h
  repeat' split at h
  all_goals cases h
  all_goals exact hn _

theorem buildLeaf_kind {source path check value : String}
    (h : buildLeaf host source path check value valueNum inValues pools = .ok r) :
    r.1.kind = .condLeaf := by
  unfold buildLeaf at h
  split at h
  · cases h
  · exact buildCheck_kind (fun _ => rfl) h
  · exact buildCheck_kind (fun _ => rfl) h

/-- The condition is an and/or node. -/
def CondConfig.Composite (host : Host) (cc : CondConfig) : Prop :=
  isComposite host cc.op cc.children.length = true

instance (cc : CondConfig) : Decidable (cc.Composite host) := inferInstanceAs (Decidable (_ = true))

theorem treeOf_leaf {cc : CondConfig} {pools : Pools} {r : Tree host.Pattern × Pools}
    (hc : ¬ cc.Composite host) (h : treeOf host cc pools = .ok r) :
    ∃ n : CondNode host.Pattern, n.kind = .condLeaf ∧ r.1 = .leaf n := by
  obtain ⟨op, source, path, check, value, valueNum, inValues, children⟩ := cc
  have hc' : ¬ isComposite host op children.length = true := hc
  rw [treeOf, if_neg hc'] at h
  cases hl : buildLeaf host source path check value valueNum inValues pools with
  | error e => rw [hl] at h; cases h
  | ok r' =>
    rw [hl] at h
    cases h
    exact ⟨r'.1, buildLeaf_kind hl, rfl⟩

theorem treesOf_leaves : ∀ {children : List CondConfig} {pools : Pools}
    {r : List (Tree host.Pattern) × Pools}, (∀ child ∈ children, ¬ child.Composite host) →
    treesOf host children pools = .ok r →
    ∃ ns : List (CondNode host.Pattern), (∀ n ∈ ns, n.kind = .condLeaf) ∧ r.1 = ns.map .leaf
  | [], pools, r, _, h => by
    cases h
    exact ⟨[], by simp, rfl⟩
  | child :: children, pools, r, hf, h => by
    obtain ⟨r1, r2, hc, hcs, rfl⟩ := treesOf_cons h
    obtain ⟨n, hn, hr1⟩ := treeOf_leaf (hf child (by simp)) hc
    obtain ⟨ns, hns, hr2⟩ := treesOf_leaves (fun c hc => hf c (by simp [hc])) hcs
    exact ⟨n :: ns, by simpa using ⟨hn, hns⟩, by simp [hr1, hr2]⟩

theorem layouts_leaves : ∀ ns : List (CondNode host.Pattern), layouts host (ns.map .leaf) = ns
  | [] => rfl
  | n :: ns => by
    rw [map_cons, layouts, layouts_leaves ns]
    rfl

end Build

/-! ## The walk of leaves -/

section Walk

variable {P : Type} {nodes : List (CondNode P)} (leaf : CondNode P → Bool)

theorem anyValue_leaves : ∀ ns : List (CondNode P), anyValue leaf (ns.map .leaf) = ns.any leaf
  | [] => rfl
  | n :: ns => by
    rw [map_cons, anyValue, Tree.value, anyValue_leaves ns, any_cons]

theorem allValues_leaves : ∀ ns : List (CondNode P), allValues leaf (ns.map .leaf) = ns.all leaf
  | [] => rfl
  | n :: ns => by
    rw [map_cons, allValues, Tree.value, allValues_leaves ns, all_cons]

theorem evalNode_leaf {i fuel room : Nat} {n : CondNode P} (hi : nodes[i]? = some n)
    (hn : n.kind = .condLeaf) : evalNode nodes leaf fuel (room + 1) i = some (leaf n) := by
  simp only [evalNode, hi, hn]

theorem nextSiblingIdx_leaf (hi : nodes[i]? = some n) (hn : n.kind = .condLeaf) :
    nextSiblingIdx nodes (fuel + 1) i = some (i + 1) := by
  simp only [nextSiblingIdx, subtreeSize, hi, hn, if_true, map_some]

/-- The loop over the leaves at the end of the array. -/
theorem evalLoop_leaves (fuel room : Nat) : ∀ (rest before : List (CondNode P)),
    nodes = before ++ rest → (∀ n ∈ rest, n.kind = .condLeaf) → ∀ decides : Bool,
    evalLoop nodes (evalNode nodes leaf fuel.succ room.succ) (nextSiblingIdx nodes fuel.succ)
        decides rest.length before.length =
      some (if decides then rest.any leaf else rest.all leaf)
  | [], before, _, _, decides => by cases decides <;> rfl
  | n :: rest, before, hnd, hl, decides => by
    have hi : nodes[before.length]? = some n := by simp [hnd]
    have hn : n.kind = .condLeaf := hl n (by simp)
    have hb : ¬ nodes.length ≤ before.length := by
      rw [hnd, length_append, length_cons]
      omega
    -- the next sibling is the next node, and the rest of the loop starts there
    have hr := evalLoop_leaves fuel room rest (before ++ [n]) (by simp [hnd])
      (fun m hm => hl m (by simp [hm])) decides
    rw [length_append, length_singleton] at hr
    rw [length_cons, evalLoop, if_neg hb, evalNode_leaf leaf hi hn, bind_some,
      nextSiblingIdx_leaf hi hn, bind_some, hr]
    cases decides <;> cases hv : leaf n <;> simp [hv]

end Walk

theorem evalNode_composite {host : Host} {kind : CondKind} {ns : List (CondNode host.Pattern)}
    (leaf : CondNode host.Pattern → Bool) (hk : kind ≠ .condLeaf)
    (hns : ∀ n ∈ ns, n.kind = .condLeaf) (hln : ns.length ≤ 255) (fuel : Nat) :
    evalNode (compositeNode host kind ns.length :: ns) leaf (fuel + 1) 9 0 =
      some ((Tree.composite kind (ns.map .leaf)).value leaf) := by
  have hc : (BitVec.ofNat 8 ns.length).toNat = ns.length := by
    exact Nat.mod_eq_of_lt (by omega)
  have hl := evalLoop_leaves leaf fuel 7 ns [compositeNode host kind ns.length] rfl hns
  cases kind with
  | condLeaf => exact absurd rfl hk
  | condAnd =>
    have h := hl false
    simp only [Bool.false_eq_true, if_false] at h
    rw [evalNode, Tree.value, allValues_leaves, ← h]
    simp [compositeNode, hc]
    exact fun h => (by cases h)
  | condOr =>
    have h := hl true
    simp only [if_true] at h
    rw [evalNode, Tree.value, anyValue_leaves, ← h]
    simp [compositeNode, hc]

/-- **A rule without nesting.** When no and/or node stands below another, the walk of the array
ends and gives the value of the tree. -/
theorem evalNode_eq_value (host : Host) (ctx : Ctx) (cc : CondConfig) (rule : CompiledRule host)
    (hbuild : buildCompiledRule host cc = .ok rule) (hcount : cc.children.length ≤ 255)
    (hflat : cc.Composite host → ∀ child ∈ cc.children, ¬ child.Composite host) :
    ∃ r, treeOf host cc ⟨[], []⟩ = .ok r ∧
      ∀ fuel, evalNode rule.nodes (evalLeaf ctx rule) (fuel + 1) 9 0 =
        some (r.1.value (evalLeaf ctx rule)) := by
  unfold buildCompiledRule at hbuild
  rw [buildCondNodes_eq] at hbuild
  cases ht : treeOf host cc ⟨[], []⟩ with
  | error e => rw [ht] at hbuild; cases hbuild
  | ok r =>
  refine ⟨r, rfl, fun fuel => ?_⟩
  have hnd : rule.nodes = layout host r.1 := by
    rw [ht] at hbuild
    cases hbuild
    rfl
  generalize evalLeaf ctx rule = leaf
  rw [hnd]
  by_cases hc : cc.Composite host
  · obtain ⟨op, source, path, check, value, valueNum, inValues, children⟩ := cc
    have hc' : isComposite host op children.length = true := hc
    rw [treeOf, if_pos hc'] at ht
    cases hts : treesOf host children ⟨[], []⟩ with
    | error e => rw [hts] at ht; cases ht
    | ok r' =>
    rw [hts] at ht
    dsimp only at ht
    split at ht
    · cases ht
    cases ht
    obtain ⟨ns, hns, hr'⟩ := treesOf_leaves (hflat hc) hts
    have hl : ns.length ≤ 255 := by
      rw [← length_map (f := Tree.leaf), ← hr', treesOf_length hts]
      exact hcount
    rw [hr', layout, layouts_leaves, length_map]
    exact evalNode_composite leaf (compositeKind_ne_leaf op) hns hl fuel
  · obtain ⟨n, hn, hr⟩ := treeOf_leaf hc ht
    rw [hr]
    exact evalNode_leaf leaf rfl hn

/-! ## Nested rules -/

/-- The size of a composite that is its own first child is never found. -/
theorem subtreeSize_self {P : Type} {nodes : List (CondNode P)} {i : Nat} {n : CondNode P}
    (hi : nodes[i]? = some n) (hk : n.kind ≠ .condLeaf) (hs : n.childStart.toNat = i)
    {count : Nat} (hc : n.childCount.toNat = count + 1) :
    ∀ fuel, subtreeSize nodes fuel i = none
  | 0 => rfl
  | fuel + 1 => by
    simp only [subtreeSize, hi]
    rw [if_neg hk, hs, hc, sizeLoop, subtreeSize_self hi hk hs hc fuel, bind_none]

/-- Nor is the value of such an or-node: below the depth limit it is false, and then its next
sibling is looked for. -/
theorem evalNode_self {P : Type} {nodes : List (CondNode P)} {i : Nat} {n : CondNode P}
    (hi : nodes[i]? = some n) (hk : n.kind = .condOr) (hs : n.childStart.toNat = i)
    {count : Nat} (hc : n.childCount.toNat = count + 1) (leaf : CondNode P → Bool)
    (fuel : Nat) : ∀ room, evalNode nodes leaf fuel (room + 1) i = none := by
  have hb : ¬ nodes.length ≤ i := by
    intro hle
    rw [getElem?_eq_none hle] at hi
    cases hi
  have hn : nextSiblingIdx nodes fuel i = none := by
    rw [nextSiblingIdx, subtreeSize_self hi (by simp [hk]) hs hc]
    rfl
  intro room
  induction room with
  | zero => simp [evalNode, hi, hk, hs, hc, evalLoop, hb, hn]
  | succ room ih =>
    rw [evalNode]
    simp only [hi, hk, hs, hc, evalLoop, if_neg hb, ih, bind_none]

/-- An or-node whose first child is such a node has no value either. -/
theorem evalNode_above_self {P : Type} {nodes : List (CondNode P)} {n0 n : CondNode P}
    (h0 : nodes[0]? = some n0) (hk0 : n0.kind = .condOr) (hs0 : n0.childStart.toNat = 1)
    {count0 : Nat} (hc0 : n0.childCount.toNat = count0 + 1) (h1 : nodes[1]? = some n)
    (hk : n.kind = .condOr) (hs : n.childStart.toNat = 1) {count : Nat}
    (hc : n.childCount.toNat = count + 1) (leaf : CondNode P → Bool) (fuel room : Nat) :
    evalNode nodes leaf fuel (room + 2) 0 = none := by
  have hb : ¬ nodes.length ≤ 1 := by
    intro hle
    rw [getElem?_eq_none hle] at h1
    cases h1
  rw [evalNode]
  simp only [h0, hk0, hs0, hc0, evalLoop, if_neg hb,
    evalNode_self h1 hk hs hc leaf fuel room, bind_none]

/-- A host for conditions that need no library but the comparison of words. -/
def plainHost : Host where
  Pattern := Empty
  toLower := id
  compile := fun _ => none
  matchString := fun pat _ => nomatch pat
  gjson := fun _ _ => ⟨false, "", 0⟩

/-- The check that a slot is filled. -/
def slotFilled (path : String) : CondConfig := .mk "" "slot" path "exists" "" 0 [] []

/-- A composite without the fields of a leaf. -/
def node (op : String) (children : List CondConfig) : CondConfig := .mk op "" "" "" "" 0 [] children

/-- Slot 0 is filled and slot 1 is empty. -/
def slotCtx : Ctx := ⟨"", "", none, [], 0, ["x", ""]⟩

theorem evalNode_either_slot : ∃ rule r,
    buildCompiledRule plainHost (node "or" [slotFilled "1", slotFilled "0"]) = .ok rule ∧
    treeOf plainHost (node "or" [slotFilled "1", slotFilled "0"]) ⟨[], []⟩ = .ok r ∧
    r.1.value (evalLeaf slotCtx rule) = true ∧
    ∀ fuel, evalNode rule.nodes (evalLeaf slotCtx rule) (fuel + 1) 9 0 =
      some (r.1.value (evalLeaf slotCtx rule)) := by
  obtain ⟨rule, hb, hv⟩ : ∃ rule,
      buildCompiledRule plainHost (node "or" [slotFilled "1", slotFilled "0"]) = .ok rule ∧
      ∀ r, treeOf plainHost (node "or" [slotFilled "1", slotFilled "0"]) ⟨[], []⟩ = .ok r →
        r.1.value (evalLeaf slotCtx rule) = true :=
    ⟨_, rfl, fun r hr => by cases hr; rfl⟩
  obtain ⟨r, ht, hw⟩ := evalNode_eq_value plainHost slotCtx _ rule hb (by decide)
    (fun _ => by simp [node, slotFilled, CondConfig.Composite, CondConfig.children,
      CondConfig.op, isComposite, plainHost])
  exact ⟨rule, r, hb, ht, hv r ht, hw⟩

/-- **A nested rule is not evaluated as written.** `and[and[slot 0 is filled]]` is true, and the
walk gives false. The walk of `or[or[slot 1 is filled]]` does not end. -/
theorem evalNode_nested :
    (∃ rule r, buildCompiledRule plainHost (node "and" [node "and" [slotFilled "0"]]) = .ok rule ∧
      treeOf plainHost (node "and" [node "and" [slotFilled "0"]]) ⟨[], []⟩ = .ok r ∧
      r.1.value (evalLeaf slotCtx rule) = true ∧
      ∀ fuel, evalNode rule.nodes (evalLeaf slotCtx rule) fuel 9 0 = some false) ∧
    (∃ rule, buildCompiledRule plainHost (node "or" [node "or" [slotFilled "1"]]) = .ok rule ∧
      ∀ fuel, evalNode rule.nodes (evalLeaf slotCtx rule) fuel 9 0 = none) := by
  refine ⟨⟨_, _, rfl, rfl, rfl, fun _ => rfl⟩, ⟨_, rfl, fun fuel => ?_⟩⟩
  -- the inner node stands at 1, where its first child should be
  exact evalNode_above_self rfl rfl rfl rfl rfl rfl rfl rfl _ fuel 7

end Rah.Validate
