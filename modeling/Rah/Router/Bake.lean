import Rah.Router.Masks

/-!
# The arena is the tree

Baking lays the tree out breadth first. `Laid` says what comes out for any tree: the
node at an arena index stands for a builder node, its masks hold the child keys they
have bits for, and the children stand next to each other in key order, each laid out in
turn.

The loop is handled by one statement about the queue. Whatever is pending when the
loop starts is laid out when it ends, and nodes that are not pending are left alone;
the children of the task at hand are themselves pending one turn later.

The lookup loop is taken turn by turn (`lookupTurn`), with a log of the children it goes to
(`lookupTrace`); erasing the log gives the loop back. Over the arena of a tree of plain fragments
it computes what the walk over the tree does. The 32-bit offsets and the 16-bit lengths are exact
as long as the prefix bytes fit, which is where the size hypotheses come from.
-/

namespace Rah.Router

open Rah.Lib List BuilderMap BuilderNode
open Option (elim some)

/-- The tree below `n` stands in the arena, with `n` itself at index `j`. The table holds the
whole prefix of every node; a node knows its length modulo the 16 bits. -/
inductive Laid (arena : List RouteNode) (table : List UInt8) : BuilderNode → Nat → Prop where
  | mk {n : BuilderNode} {j : Nat} {node : RouteNode} :
      arena[j]? = some node →
      node.prefixOff.toNat + n.pfx.length ≤ table.length →
      (table.drop node.prefixOff.toNat).take n.pfx.length = n.pfx →
      node.prefixLen = UInt16.ofNat n.pfx.length →
      node.apiId = n.apiId →
      HasMasks node (n.children.sortedKeys.map UInt8.toNat) →
      node.numChildren = UInt16.ofNat n.children.size →
      (∀ (i : Nat) (c : BuilderNode), n.children.kids[i]? = some c →
        node.childIdx.toNat + i < 2 ^ 32) →
      (∀ (i : Nat) (c : BuilderNode), n.children.kids[i]? = some c →
        Laid arena table c (node.childIdx.toNat + i)) →
      Laid arena table n j

variable {n : BuilderNode} {m : BuilderMap} {s : BakeState}

/-! ## One turn of the loop -/

theorem modify_append_of_lt {α : Type} {f : α → α} : ∀ {l1 l2 : List α} {i : Nat},
    i < l1.length → (l1 ++ l2).modify i f = l1.modify i f ++ l2
  | [], _, _, h => absurd h (by simp)
  | _ :: _, _, 0, _ => rfl
  | a :: l1, l2, i + 1, h => by
    rw [cons_append, modify_succ_cons, modify_succ_cons, cons_append,
      modify_append_of_lt (by simpa using h)]

/-- The nodes a list of siblings starts out as, their prefixes from `off` on. -/
def bareNodes : Nat → List BuilderNode → List RouteNode
  | _, [] => []
  | off, c :: cs => bareNode off c :: bareNodes (off + c.pfx.length) cs

theorem bareNodes_length : (bareNodes off cs).length = cs.length := by
  induction cs generalizing off with
  | nil => rfl
  | cons c cs ih => simp [bareNodes, ih]

/-- The `i`-th sibling, and where its prefix lies. -/
theorem bareNodes_getElem? : ∀ {cs : List BuilderNode} (off : Nat) {i : Nat} {c : BuilderNode},
    cs[i]? = some c → ∃ pre post, (cs.map pfx).flatten = pre ++ c.pfx ++ post
      ∧ (bareNodes off cs)[i]? = some (bareNode (off + pre.length) c)
  | [], _, _, _, h => by simp at h
  | d :: cs, off, 0, c, h => by
    rw [getElem?_cons_zero, some.injEq] at h
    subst h
    exact ⟨[], (cs.map pfx).flatten, by simp, by simp [bareNodes]⟩
  | d :: cs, off, i + 1, c, h => by
    rw [getElem?_cons_succ] at h
    obtain ⟨pre, post, h1, h2⟩ := bareNodes_getElem? (off + d.pfx.length) h
    refine ⟨d.pfx ++ pre, post, by simp [h1], ?_⟩
    rw [bareNodes, getElem?_cons_succ, h2, length_append, Nat.add_assoc]

/-- The inner loop of a turn, over any list of keys that all have children. -/
theorem foldl_bakeChild {m : BuilderMap} : ∀ (ks : List UInt8) (s : BakeState),
    idx < s.nodes.length → (∀ b ∈ ks, b ∈ m.keys) →
    ks.foldl (bakeKey m idx) s =
      { nodes := s.nodes.modify idx (fun n => ks.foldl (fun n b => n.setMask b) n)
          ++ bareNodes s.table.length (ks.filterMap m.get?)
        table := s.table ++ ((ks.filterMap m.get?).map pfx).flatten
        queue := s.queue ++ (ks.filterMap m.get?).zipIdx s.nodes.length }
  | [], s, _, _ => by
    have hid : s.nodes.modify idx (fun n => n) = s.nodes := modify_id idx s.nodes
    simp [bareNodes, hid]
  | b :: ks, s, hi, hks => by
    obtain ⟨c, hc⟩ := get?_isSome_iff.mpr (hks b (by simp))
    have hidx' : idx < (bakeChild idx s b c).nodes.length := by
      simp only [bakeChild, length_append, length_modify]; omega
    have hk : bakeKey m idx s b = bakeChild idx s b c := by rw [bakeKey, hc]
    rw [foldl_cons, filterMap_cons_some hc, hk]
    rw [foldl_bakeChild ks _ hidx' (fun b' hb' => hks b' (by simp [hb']))]
    simp only [bakeChild, bareNodes]
    rw [modify_append_of_lt (by simpa using hi), modify_modify_eq]
    simp [Function.comp_def]

theorem BuilderMap.eq_nil_of_size (h : m.size = 0) : m = .nil := by
  cases m with
  | nil => rfl
  | cons key child rest => simp [size] at h

/-- What a turn writes to the node at hand. -/
def bakedNode (n : RouteNode) (m : BuilderMap) (first : Nat) : RouteNode :=
  if m.size = 0 then n
  else m.sortedKeys.foldl (fun n b => n.setMask b)
    { n with childIdx := UInt32.ofNat first, numChildren := UInt16.ofNat m.size }

/-- **One turn.** The node at hand gets its masks and first child, and the children are
appended to arena, table and queue in key order. -/
theorem bakeTask_eq (hi : idx < s.nodes.length) : bakeTask s temp idx =
      { nodes := s.nodes.modify idx (fun n => bakedNode n temp.children s.nodes.length)
          ++ bareNodes s.table.length temp.children.kids
        table := s.table ++ (temp.children.kids.map pfx).flatten
        queue := s.queue ++ temp.children.kids.zipIdx s.nodes.length } := by
  unfold bakeTask bakedNode
  by_cases h : temp.children.size = 0
  · have hid : s.nodes.modify idx (fun n => n) = s.nodes := modify_id idx s.nodes
    simp [eq_nil_of_size h, size, kids, sortedKeys, BuilderMap.keys, bareNodes, hid]
  simp only [h, if_false]
  rw [foldl_bakeChild _ _ (by simpa using hi) (fun b hb => (sortedKeys_perm _).mem_iff.mp hb)]
  simp only [length_modify, kids, modify_modify_eq, Function.comp_def]

theorem bakedNode_bare (n : BuilderNode) (off first : Nat) :
    (bakedNode (bareNode off n) n.children first).prefixOff = UInt32.ofNat off
      ∧ (bakedNode (bareNode off n) n.children first).prefixLen = UInt16.ofNat n.pfx.length
      ∧ (bakedNode (bareNode off n) n.children first).apiId = n.apiId
      ∧ HasMasks (bakedNode (bareNode off n) n.children first)
          (n.children.sortedKeys.map UInt8.toNat)
      ∧ (bakedNode (bareNode off n) n.children first).numChildren = UInt16.ofNat n.children.size
      ∧ (n.children.kids ≠ [] →
          (bakedNode (bareNode off n) n.children first).childIdx = UInt32.ofNat first) := by
  unfold bakedNode
  split
  · rename_i h
    rw [eq_nil_of_size h]
    exact ⟨rfl, rfl, rfl, ⟨rfl, rfl⟩, rfl, fun hne => absurd rfl hne⟩
  · rw [foldl_setMask]
    exact ⟨rfl, rfl, rfl, ⟨rfl, rfl⟩, rfl, fun _ => rfl⟩

/-! ## The whole loop -/

/-- A pending task: its node stands bare in the arena, with its prefix in the table. -/
structure Pending (s : BakeState) (n : BuilderNode) (i : Nat) : Prop where
  filed : n.Filed
  bare : ∃ pre post, s.table = pre ++ n.pfx ++ post ∧ s.nodes[i]? = some (bareNode pre.length n)

/-- What the loop may rely on at the start of every turn. -/
structure Tasks (s : BakeState) : Prop where
  pending : ∀ t ∈ s.queue, Pending s t.1 t.2
  nodup : (s.queue.map Prod.snd).Nodup
  bytes : s.table.length + (s.queue.map (fun t => t.1.children.bytes)).sum < 2 ^ 32
  count : s.nodes.length + (s.queue.map (fun t => t.1.children.count)).sum ≤ 2 ^ 32

theorem Tasks.lt_length (h : Tasks s) (ht : t ∈ s.queue) : t.2 < s.nodes.length := by
  obtain ⟨_, _, _, hn⟩ := (h.pending t ht).bare
  exact (List.getElem?_eq_some_iff.mp hn).1

theorem BuilderNode.bytes_eq (n : BuilderNode) : n.bytes = n.pfx.length + n.children.bytes := by
  obtain ⟨pfx, apiId, children⟩ := n
  rfl

theorem BuilderNode.count_eq (n : BuilderNode) : n.count = n.children.count + 1 := by
  obtain ⟨pfx, apiId, children⟩ := n
  rfl

private theorem sum_map_add {α : Type} (f g : α → Nat) (l : List α) :
    (l.map (fun a => f a + g a)).sum = (l.map f).sum + (l.map g).sum := by
  induction l with
  | nil => rfl
  | cons a l ih => simp only [map_cons, sum_cons, ih]; omega

/-- Prefix bytes of a map: those of the children themselves and those below them. -/
theorem BuilderMap.bytes_split (h : m.Filed) : m.bytes = (m.kids.map pfx).flatten.length
      + (m.kids.map (fun c => c.children.bytes)).sum := by
  rw [bytes_kids h, length_flatten, map_map, ← sum_map_add]
  congr 1
  apply map_congr_left
  intro c _
  exact c.bytes_eq

theorem BuilderMap.count_split (h : m.Filed) :
    m.count = m.kids.length + (m.kids.map (fun c => c.children.count)).sum := by
  have ho : m.kids.length = (m.kids.map (fun _ => 1)).sum := by simp
  rw [count_kids h, ho, ← sum_map_add]
  congr 1
  apply map_congr_left
  intro c _
  rw [c.count_eq]; omega

theorem zipIdx_map_fst_sum (f : BuilderNode → Nat) (cs : List BuilderNode) (k : Nat) :
    ((cs.zipIdx k).map (fun t => f t.1)).sum = (cs.map f).sum := by
  rw [← Function.comp_def f Prod.fst, ← map_map, zipIdx_map_fst]

/-- The state after one turn, with the task taken off the queue. -/
def afterTurn (s : BakeState) (t : BuilderNode × Nat) (queue : List (BuilderNode × Nat)) :
    BakeState :=
  bakeTask { s with queue := queue } t.1 t.2

/-- A turn leaves tasks in order: the old ones untouched, the children bare and pending. -/
theorem tasks_afterTurn (h : Tasks s) (hq : s.queue = t :: queue) :
    Tasks (afterTurn s t queue) := by
  have htm : t ∈ s.queue := by rw [hq]; simp
  have hlt : t.2 < s.nodes.length := h.lt_length htm
  have ht := h.pending t htm
  have hck := filed_children ht.filed
  have heq : afterTurn s t queue = _ := bakeTask_eq (s := { s with queue := queue }) hlt
  have hk : ∀ c ∈ t.1.children.kids, c.Filed := by
    intro c hc
    obtain ⟨b, _, hb⟩ := mem_filterMap.mp hc
    exact ((filed_iff.mp hck).2 b c hb).2
  have hnd := h.nodup
  rw [hq, map_cons, nodup_cons] at hnd
  refine ⟨?_, ?_, ?_, ?_⟩
  · rintro ⟨n, i⟩ hm
    rw [heq] at hm ⊢
    rcases mem_append.mp hm with ho | hn
    · -- an older task: its node is not the one just written
      have hp := h.pending (n, i) (by rw [hq]; exact mem_cons_of_mem _ ho)
      have hne : t.2 ≠ i := by
        intro he
        exact hnd.1 (he ▸ mem_map.mpr ⟨(n, i), ho, rfl⟩)
      obtain ⟨pre, post, h1, h2⟩ := hp.bare
      refine ⟨hp.filed, pre, post ++ (t.1.children.kids.map pfx).flatten, by simp [h1], ?_⟩
      have hi : i < s.nodes.length := (List.getElem?_eq_some_iff.mp h2).1
      rw [getElem?_append_left (by simpa using hi), getElem?_modify_ne _ _ hne]
      exact h2
    · -- a child: appended bare, its prefix at the end of the table
      obtain ⟨hk1, hk2⟩ := mk_mem_zipIdx_iff_le_and_getElem?_sub.mp hn
      obtain ⟨pre, post, h1, h2⟩ := bareNodes_getElem? s.table.length hk2
      refine ⟨hk n (mem_of_getElem? hk2), s.table ++ pre, post, by simp [h1], ?_⟩
      rw [getElem?_append_right (by simpa using hk1)]
      simpa using h2
  · rw [heq]
    simp only [map_append, nodup_append, zipIdx_map_snd]
    refine ⟨hnd.2, nodup_range', ?_⟩
    intro a ha b hb he
    obtain ⟨u, hu, rfl⟩ := mem_map.mp ha
    have := h.lt_length (t := u) (by rw [hq]; exact mem_cons_of_mem _ hu)
    rw [mem_range'_1] at hb
    omega
  · have hb := h.bytes
    rw [hq, map_cons, sum_cons, bytes_split hck] at hb
    rw [heq]
    simp only [length_append, map_append, sum_append]
    rw [zipIdx_map_fst_sum (fun c => c.children.bytes)]
    omega
  · have hc := h.count
    rw [hq, map_cons, sum_cons, count_split hck] at hc
    rw [heq]
    simp only [length_append, length_modify, bareNodes_length, map_append, sum_append]
    rw [zipIdx_map_fst_sum (fun c => c.children.count)]
    omega

/-- What the loop has done when it ends. -/
structure Baked (s s' : BakeState) : Prop where
  done : s'.queue = []
  table : ∃ more, s'.table = s.table ++ more
  fits : s'.table.length < 2 ^ 32
  frame : ∀ i, i < s.nodes.length → (∀ t ∈ s.queue, t.2 ≠ i) → s'.nodes[i]? = s.nodes[i]?
  laid : ∀ t ∈ s.queue, Laid s'.nodes s'.table t.1 t.2

/-- **The loop lays out everything that is pending.** -/
theorem bakeLoop_baked : ∀ (fuel : Nat) (s : BakeState), Tasks s →
    (s.queue.map (fun t => t.1.count)).sum ≤ fuel → Baked s (bakeLoop fuel s)
  | fuel, s, h, hfl => by
    cases hq : s.queue with
    | nil =>
      have hs : bakeLoop fuel s = s := by
        cases fuel with
        | zero => rfl
        | succ fuel => rw [bakeLoop, hq]
      rw [hs]
      have hft := h.bytes
      exact ⟨hq, ⟨[], by simp⟩, by omega, fun _ _ _ => rfl, by rw [hq]; simp⟩
    | cons t queue =>
      cases fuel with
      | zero =>
        rw [hq, map_cons, sum_cons, t.1.count_eq] at hfl
        omega
      | succ fuel =>
      have htm : t ∈ s.queue := by rw [hq]; simp
      have hlt : t.2 < s.nodes.length := h.lt_length htm
      have ht := h.pending t htm
      have hck := filed_children ht.filed
      have heq : afterTurn s t queue = _ := bakeTask_eq (s := { s with queue := queue }) hlt
      have hnd := h.nodup
      rw [hq, map_cons, nodup_cons] at hnd
      have hsm : ((afterTurn s t queue).queue.map (fun t => t.1.count)).sum ≤ fuel := by
        rw [hq, map_cons, sum_cons, t.1.count_eq, count_kids hck] at hfl
        rw [heq]
        simp only [map_append, sum_append]
        rw [zipIdx_map_fst_sum count]
        omega
      have ih := bakeLoop_baked fuel _ (tasks_afterTurn h hq) hsm
      have hl : bakeLoop (fuel + 1) s = bakeLoop fuel (afterTurn s t queue) := by
        rw [bakeLoop, hq]
        rfl
      rw [hl]
      generalize bakeLoop fuel (afterTurn s t queue) = s' at ih ⊢
      rw [heq] at ih
      obtain ⟨hdone, ⟨more, hm⟩, hfits, hframe, hlaid⟩ := ih
      dsimp only at hm hframe hlaid
      -- nodes of the old arena without a task are as this turn has left them
      have hf : ∀ i < s.nodes.length, (∀ u ∈ queue, u.2 ≠ i) → s'.nodes[i]?
          = (s.nodes.modify t.2 fun n => bakedNode n t.1.children s.nodes.length)[i]? := by
        intro i hi hne
        rw [hframe i (by simp; omega) fun u hu => ?_, getElem?_append_left (by simpa using hi)]
        rcases mem_append.mp hu with hu | hu
        · exact hne u hu
        · have := le_snd_of_mem_zipIdx hu
          omega
      refine ⟨hdone, ⟨_, by rw [hm, append_assoc]⟩, hfits, ?_, ?_⟩ <;> rw [hq]
      · intro i hi hne
        rw [hf i hi (fun u hu => hne u (mem_cons_of_mem _ hu)),
          getElem?_modify_ne _ _ (hne t mem_cons_self)]
      intro u hu
      rcases mem_cons.mp hu with rfl | hu
      · -- the task at hand: its node is final, its children are laid out by the rest
        obtain ⟨pre, post, h1, h2⟩ := ht.bare
        have hn : s'.nodes[u.2]?
            = some (bakedNode (bareNode pre.length u.1) u.1.children s.nodes.length) := by
          rw [hf u.2 hlt (fun v hv he => hnd.1 (mem_map.mpr ⟨v, hv, he⟩)), getElem?_modify_eq, h2]
          rfl
        obtain ⟨hb1, hb2, hb3, hb4, hb6, hb5⟩ := bakedNode_bare u.1 pre.length s.nodes.length
        rw [h1] at hm
        have hp : pre.length < 2 ^ 32 := by
          rw [hm] at hfits
          simp only [length_append] at hfits
          omega
        have hof : (UInt32.ofNat pre.length).toNat = pre.length := UInt32.toNat_ofNat_of_lt' hp
        have hcn := h.count
        rw [hq, map_cons, sum_cons, count_split hck] at hcn
        have hch : ∀ i c, u.1.children.kids[i]? = some c → s.nodes.length + i < 2 ^ 32
            ∧ (bakedNode (bareNode pre.length u.1) u.1.children s.nodes.length).childIdx.toNat
              = s.nodes.length := by
          intro i c hc
          have hi := (List.getElem?_eq_some_iff.mp hc).1
          rw [hb5 (ne_nil_of_mem (mem_of_getElem? hc)),
            UInt32.toNat_ofNat_of_lt' (show _ < 2 ^ 32 by omega)]
          omega
        refine Laid.mk hn ?_ ?_ hb2 hb3 hb4 hb6 (fun i c hc => ?_) (fun i c hc => ?_)
        · rw [hb1, hm]
          simp only [length_append]
          omega
        · simp [hb1, hof, hm]
        · rw [(hch i c hc).2]
          exact (hch i c hc).1
        · rw [(hch i c hc).2]
          refine hlaid (c, _) (mem_append_right _ (mk_mem_zipIdx_iff_le_and_getElem?_sub.mpr ?_))
          exact ⟨by omega, by simpa using hc⟩
      · exact hlaid u (mem_append_left _ hu)

theorem bakeInit_tasks (hf : n.Filed) (hb : n.bytes < 2 ^ 32)
    (hc : n.count ≤ 2 ^ 32) : Tasks (bakeInit n) := by
  refine ⟨?_, by simp [bakeInit], ?_, ?_⟩
  · intro t ht
    simp only [bakeInit, mem_singleton] at ht
    subst ht
    exact ⟨hf, [], [], by simp [bakeInit], by simp [bakeInit]⟩
  · rw [n.bytes_eq] at hb
    simpa [bakeInit] using hb
  · rw [n.count_eq] at hc
    simp only [bakeInit, length_singleton, map_cons, map_nil, sum_cons, sum_nil]
    omega

/-- **Baking lays out the tree.** The arena holds the tree with its root at index 0, and the
prefix table stays within the reach of a 32-bit offset. -/
theorem bakeToArena_laid (hf : n.Filed) (hby : n.bytes < 2 ^ 32) (hc : n.count ≤ 2 ^ 32) :
    Laid n.bakeToArena.1 n.bakeToArena.2 n 0 ∧ n.bakeToArena.2.length < 2 ^ 32 := by
  have hb := bakeLoop_baked n.count _ (bakeInit_tasks hf hby hc) (by simp [bakeInit])
  exact ⟨hb.laid (n, 0) (by simp [bakeInit]), hb.fits⟩

/-! ## Lookup over the arena -/

theorem BuilderMap.kids_getElem? {i : Nat} {b : UInt8} (hk : m.sortedKeys[i]? = some b)
    (hg : m.get? b = some c) : m.kids[i]? = some c := by
  have ha : ∀ b ∈ m.sortedKeys, (m.get? b).isSome := by
    intro b hb
    obtain ⟨c, hc⟩ := get?_isSome_iff.mpr (m.sortedKeys_perm.mem_iff.mp hb)
    rw [hc]; rfl
  have hgn : ∀ (ks : List UInt8), (∀ b ∈ ks, (m.get? b).isSome) → ∀ i : Nat, ks[i]? = some b →
      (ks.filterMap m.get?)[i]? = some c := by
    intro ks
    induction ks with
    | nil => intro _ i h; simp at h
    | cons a ks ih =>
    intro hs i h
    obtain ⟨d, hd⟩ := Option.isSome_iff_exists.mp (hs a (by simp))
    rw [filterMap_cons_some hd]
    cases i with
    | zero =>
      rw [getElem?_cons_zero, some.injEq] at h
      subst h
      rw [getElem?_cons_zero, ← hd, hg]
    | succ i =>
      exact ih (fun b hb => hs b (by simp [hb])) i h
  exact hgn _ ha i hk

/-! ## The loop, turn by turn -/

/-- A child the lookup goes to: from which node, for which byte, at which arena index. -/
structure Hop where
  node : RouteNode
  byte : UInt8
  index : UInt32
  deriving DecidableEq, Repr

/-- How one turn of the loop ends. -/
inductive Turn where
  | fault (e : Fault)
  | answer (apiId : UInt32)
  | follow (b : UInt8) (idx : UInt32) (input : List UInt8) (longestMatch : UInt32)

/-- One turn, up to the access to the next node. -/
def lookupTurn (table : List UInt8) (curr : RouteNode) (input : List UInt8)
    (longestMatch : UInt32) : Turn :=
  let lo := curr.prefixOff.toNat
  let hi := (curr.prefixOff + curr.prefixLen.toUInt32).toNat
  if hi < lo ∨ table.length < hi then .fault .sliceOutOfRange
  else
    let pfx := (table.drop lo).take (hi - lo)
    if input.length < pfx.length ∨ input.take pfx.length ≠ pfx then .answer longestMatch
    else
      let input := input.drop pfx.length
      let longestMatch := if curr.apiId ≠ 0 ∧ atBoundary input then curr.apiId else longestMatch
      match input with
      | [] => .answer curr.apiId
      | b :: _ =>
        match curr.findChildIdx b with
        | none => .answer longestMatch
        | some idx => .follow b idx input longestMatch

/-- The lookup loop with the hops it makes. -/
def lookupTrace (arena : List RouteNode) (table : List UInt8) :
    Nat → RouteNode → List UInt8 → UInt32 → List Hop × Except Fault UInt32
  | 0, _, _, _ => ([], .error .outOfFuel)
  | turns + 1, curr, input, longestMatch =>
    match lookupTurn table curr input longestMatch with
    | .fault e => ([], .error e)
    | .answer apiId => ([], .ok apiId)
    | .follow b idx input longestMatch =>
      match arena[idx.toNat]? with
      | none => ([⟨curr, b, idx⟩], .error .indexOutOfRange)
      | some next =>
        (⟨curr, b, idx⟩ :: (lookupTrace arena table turns next input longestMatch).1,
          (lookupTrace arena table turns next input longestMatch).2)

/-- The log changes nothing: without it the trace is the loop. -/
theorem lookupTrace_snd (arena : List RouteNode) (table : List UInt8) : ∀ (turns : Nat)
    (curr : RouteNode) (input : List UInt8) (d : UInt32),
    (lookupTrace arena table turns curr input d).2 = lookupLoop arena table turns curr input d
  | 0, _, _, _ => rfl
  | turns + 1, curr, input, d => by
    rw [lookupTrace, lookupLoop, lookupTurn]
    by_cases hs : (curr.prefixOff + curr.prefixLen.toUInt32).toNat < curr.prefixOff.toNat
        ∨ table.length < (curr.prefixOff + curr.prefixLen.toUInt32).toNat
    · rw [if_pos hs, if_pos hs]
    rw [if_neg hs, if_neg hs]
    generalize (table.drop curr.prefixOff.toNat).take _ = pfx
    by_cases hp : input.length < pfx.length ∨ input.take pfx.length ≠ pfx
    · rw [if_pos hp, if_pos hp]
    rw [if_neg hp, if_neg hp]
    cases input.drop pfx.length with
    | nil => rfl
    | cons b rest =>
    dsimp only
    cases curr.findChildIdx b with
    | none => rfl
    | some idx =>
    dsimp only
    cases arena[idx.toNat]? with
    | none => rfl
    | some next => exact lookupTrace_snd arena table turns next _ _

/-- The lookup of a path, for a number of turns, with its hops. -/
def RahRouter.trace (r : RahRouter) (turns : Nat) (path : List UInt8) :
    List Hop × Except Fault UInt32 :=
  match r.arena with
  | [] => ([], .ok 0)
  | root :: _ => lookupTrace r.arena r.table turns root path 0

theorem RahRouter.trace_snd (r : RahRouter) (path : List UInt8) :
    (r.trace (path.length + 2) path).2 = r.lookup path := by
  unfold RahRouter.trace RahRouter.lookup
  cases r.arena with
  | nil => rfl
  | cons root more => exact lookupTrace_snd _ _ _ _ _ _

/-- The part of a fragment readers compare: its length is kept in 16 bits. -/
def seen (pfx : List UInt8) : List UInt8 := pfx.take (pfx.length % 65536)

/-- The child keys of a node in the order of the arena. -/
def BuilderMap.places (m : BuilderMap) : List Nat := m.sortedKeys.map UInt8.toNat

/-- Readers get this fragment for a node. -/
def Reads (table : List UInt8) (node : RouteNode) (pfx : List UInt8) : Prop :=
  node.prefixOff.toNat ≤ (node.prefixOff + node.prefixLen.toUInt32).toNat
    ∧ (node.prefixOff + node.prefixLen.toUInt32).toNat ≤ table.length
    ∧ (table.drop node.prefixOff.toNat).take
        ((node.prefixOff + node.prefixLen.toUInt32).toNat - node.prefixOff.toNat) = pfx

section Turns

variable {pfx : List UInt8} {node : RouteNode} {b : UInt8} {idx : UInt32}

section

variable (h : Reads table node pfx)
include h

theorem lookupTurn_miss (ha : after pfx input = none) (d : UInt32) :
    lookupTurn table node input d = .answer d := by
  obtain ⟨hlo, hhi, hr⟩ := h
  unfold lookupTurn
  dsimp only
  rw [hr, if_neg (by omega), if_pos]
  by_contra hc
  rw [not_or, not_not] at hc
  refine after_eq_none.mp ha (input.drop pfx.length) ?_
  conv_lhs => rw [← take_append_drop pfx.length input]
  rw [hc.2]

theorem lookupTurn_end (d : UInt32) : lookupTurn table node pfx d = .answer node.apiId := by
  obtain ⟨hlo, hhi, hr⟩ := h
  unfold lookupTurn
  dsimp only
  rw [hr, if_neg (by omega), if_neg (by simp), drop_length]

/-- The fragment matches: the turn goes to the child that the masks name, if there is one. -/
theorem lookupTurn_child (hf : node.findChildIdx b = r) (rest : List UInt8) (d : UInt32) :
    lookupTurn table node (pfx ++ b :: rest) d =
      let m := if node.apiId ≠ 0 ∧ atBoundary (b :: rest) then node.apiId else d
      r.elim (.answer m) (.follow b · (b :: rest) m) := by
  obtain ⟨hlo, hhi, hr⟩ := h
  unfold lookupTurn
  dsimp only
  rw [hr, if_neg (by omega), if_neg (by simp), drop_left]
  cases r <;> simp only [hf, elim]

end

end Turns

/-- The child at a place, with its key. -/
theorem BuilderMap.exists_kid {m : BuilderMap} {i k : Nat} (h : m.places[i]? = some k) :
    ∃ b c, b.toNat = k ∧ m.get? b = some c ∧ m.kids[i]? = some c := by
  rw [places, getElem?_map, Option.map_eq_some_iff] at h
  obtain ⟨b, hb, hk⟩ := h
  have hm := m.sortedKeys_perm.mem_iff.mp (mem_of_getElem? hb)
  obtain ⟨c, hc⟩ := get?_isSome_iff.mpr hm
  exact ⟨b, c, hk, hc, kids_getElem? hb hc⟩

section

variable (h : Laid arena table n j)
include h

/-- A node of the arena reads the part of its fragment that its length counts. -/
theorem Laid.reads (ht : table.length < 2 ^ 32) (hnd : arena[j]? = some node) :
    Reads table node (seen n.pfx) := by
  obtain ⟨hn, hf, hs, hl, _⟩ := h
  obtain rfl := some.inj (hnd.symm.trans hn)
  have hm : node.prefixLen.toNat = n.pfx.length % 65536 := by
    rw [hl]
    exact UInt16.toNat_ofNat'
  have hle : n.pfx.length % 65536 ≤ n.pfx.length := Nat.mod_le _ _
  have hhi : (node.prefixOff + node.prefixLen.toUInt32).toNat
      = node.prefixOff.toNat + n.pfx.length % 65536 := by
    rw [UInt32.toNat_add, UInt16.toNat_toUInt32]
    omega
  refine ⟨by omega, by omega, ?_⟩
  have hc := congrArg (take (n.pfx.length % 65536)) hs
  rw [take_take, Nat.min_eq_left hle] at hc
  rw [hhi, Nat.add_sub_cancel_left]
  exact hc

theorem Laid.exists_node : ∃ node, arena[j]? = some node := by
  obtain ⟨hn, _⟩ := h
  exact ⟨_, hn⟩

/-- The key at the counted place is the byte: its child stands at the index counted for it. -/
theorem Laid.child_at (hnd : arena[j]? = some node) {b : UInt8}
    (hat : n.children.places[place n.children.places b.toNat]? = some b.toNat) :
    ∃ c, n.children.get? b = some c
      ∧ n.children.kids[place n.children.places b.toNat]? = some c
      ∧ (node.childIdx + UInt32.ofNat (place n.children.places b.toNat)).toNat
        = node.childIdx.toNat + place n.children.places b.toNat := by
  obtain ⟨hn, _, _, _, _, _, _, hi, _⟩ := h
  obtain rfl := some.inj (hnd.symm.trans hn)
  obtain ⟨k, c, hk, hg, hkd⟩ := exists_kid hat
  obtain rfl := UInt8.toNat_inj.mp hk
  refine ⟨c, hg, hkd, ?_⟩
  have hf := hi _ c hkd
  rw [UInt32.toNat_add, UInt32.toNat_ofNat_of_lt' (show _ < 2 ^ 32 by omega)]
  omega

theorem Laid.find_child (hnd : arena[j]? = some node) (hf : n.Filed) (b : UInt8) :
    node.findChildIdx b = if standIn b.toNat ∈ n.children.places then
      some (node.childIdx + UInt32.ofNat (place n.children.places b.toNat)) else none := by
  obtain ⟨hn, _, _, _, _, hm, _⟩ := h
  obtain rfl := some.inj (hnd.symm.trans hn)
  exact findChildIdx_eq hm (sortedKeys_pairwise (filed_children hf)) b

/-- **Readers see the tree.** Over an arena with a tree of plain fragments, the lookup loop never
faults on a query below 128: it returns what the walk over the tree does, and goes through the
places of the nodes that walk visits. -/
theorem Laid.lookup_eq (htb : table.length < 2 ^ 32) (turns : Nat) (d : UInt32) (hf : n.Filed)
    (hpl : n.All Plain) (hnd : arena[j]? = some node') (ha : ∀ b ∈ input, b < 128)
    (ht : input.length < turns) (hturns' : n.pfx = [] → input.length + 1 < turns) :
    (lookupTrace arena table turns node' input d).2 = .ok (n.lookup input d)
      ∧ Forall₂ (Laid arena table) (n.visits input)
        (j :: (lookupTrace arena table turns node' input d).1.map (·.index.toNat)) := by
  induction h generalizing node' input turns d with
  | @mk n j node hn hft hsl hln hid hm hnm hix hk ih =>
  obtain rfl := some.inj (hn.symm.trans hnd)
  have hl : Laid arena table n j := Laid.mk hn hft hsl hln hid hm hnm hix hk
  have hs := sortedKeys_pairwise (filed_children hf)
  obtain ⟨hpf, hal⟩ := all_children hpl
  have hr := hl.reads htb hn
  rw [seen, Nat.mod_eq_of_lt hpf.1, take_length] at hr
  obtain ⟨turns, rfl⟩ : ∃ t, turns = t + 1 := ⟨turns - 1, by omega⟩
  obtain ⟨pfx, apiId, children⟩ := n
  rw [lookupTrace, BuilderNode.lookup, BuilderNode.visits]
  simp only [BuilderNode.pfx, BuilderNode.apiId] at hr hid hturns' hal
  subst hid
  cases haf : after pfx input with
  | none =>
    rw [lookupTurn_miss hr haf]
    exact ⟨rfl, .cons hl .nil⟩
  | some rest =>
  obtain rfl := after_eq_some.mp haf
  cases rest with
  | nil =>
    rw [append_nil, lookupTurn_end hr]
    exact ⟨rfl, .cons hl .nil⟩
  | cons b tail =>
  have hb : b.toNat < 128 := UInt8.lt_iff_toNat_lt.mp (ha b (by simp))
  have hfn := hl.find_child hn hf b
  rw [standIn, if_pos hb] at hfn
  simp only [lookup_eq_get?, visits_eq_get?]
  by_cases hmm : b.toNat ∈ (BuilderNode.mk pfx node.apiId children).children.places
  · obtain ⟨c, hg, hkd, hi⟩ := hl.child_at hn (getElem?_place hs hb hmm)
    obtain ⟨child, hc⟩ := (hk _ c hkd).exists_node
    rw [if_pos hmm] at hfn
    have hcn := (kids_perm (filed_children hf)).mem_iff.mp (mem_of_getElem? hkd)
    obtain ⟨hh, hcf⟩ := (filed_iff.mp (filed_children hf)).2 b c hg
    rw [lookupTurn_child hr hfn, show children.get? b = some c from hg]
    simp only [hi, hc, elim, map_cons]
    refine (ih _ c hkd _ _ hcf (all_nodes hal c hcn) hc (fun x hx => ha x (mem_append_right _ hx))
      ?_ (fun h => by simp [h] at hh)).imp_right (.cons hl)
    -- the first turn may consume nothing, every later one does
    rw [length_append] at ht hturns'
    by_cases hp : pfx = []
    · have := hturns' hp
      omega
    · have := length_pos_iff.mpr hp
      omega
  · rw [if_neg hmm] at hfn
    rw [lookupTurn_child hr hfn]
    cases hg : children.get? b with
    | none => exact ⟨rfl, .cons hl .nil⟩
    | some c =>
      have hky := (sortedKeys_perm _).mem_iff.mpr (get?_isSome_iff.mp ⟨c, hg⟩)
      exact absurd (mem_map_of_mem hky) hmm

end

end Rah.Router
