import Rah.SubRouter.Templates

/-!
# The arena lays out the table of nodes

`Laid` ties the two levels together: node `i` of the arena stands for the `i`-th prefix
of the table. Its masks are the first bytes of its static children, its `childIdx` is
where they begin, and its method columns hold what was registered for the prefix. The
registrations keep it, as long as each of them `Fits`.
-/

namespace Rah.SubRouter

open Rah.Lib List
open Rah.Router (slash)

/-- The endpoint a node has for a method column. -/
def SubRouteNode.served (n : SubRouteNode) (m : Fin 5) : Option UInt32 :=
  if n.allowedMethods &&& methodBit m = 0 then none else some (n.endpointIdx m)

/-- The masks of a node hold the first bytes of its static children, all in one half. -/
def HasBytes (n : SubRouteNode) (bytes : List Nat) : Prop :=
  (n.maskHi = 0 ∧ (∀ b ∈ bytes, b < 64) ∧ n.maskLo = maskOf bytes)
    ∨ (n.maskLo = 0 ∧ (∀ b ∈ bytes, 64 ≤ b ∧ b < 128) ∧ n.maskHi = maskOf (bytes.map (· - 64)))

/-- A node of the arena stands for a prefix. -/
structure NodeOk (nodes : List (List Key)) (pre : List Key) (n : SubRouteNode) : Prop where
  /-- A static node knows the length of its segment. -/
  length : ∀ q s, pre = q ++ [.seg s] → n.prefixLen.toNat = s.length
  bytes : HasBytes n ((statics nodes pre).map firstByte)
  ascending : ((statics nodes pre).map firstByte).Pairwise (· < ·)
  childless : statics nodes pre = [] → n.childIdx = 0
  /-- The static children stand in a row. -/
  placed : ∀ (j : Nat) (s : List UInt8), (statics nodes pre)[j]? = some s →
    nodes[n.childIdx.toNat + j]? = some (pre ++ [.seg s])
  hasParam : n.hasParamChild = true ↔ pre ++ [.param] ∈ nodes
  paramAt : pre ++ [.param] ∈ nodes → nodes[n.paramChildIdx.toNat]? = some (pre ++ [.param])

/-- The arena lays out the table, with `info` in the method columns. -/
structure Laid (nodes : List (List Key)) (info : List Key → Fin 5 → Option UInt32)
    (arena : List SubRouteNode) : Prop where
  length : arena.length = nodes.length
  bound : nodes.length ≤ 2 ^ 32
  root : nodes[0]? = some []
  nodup : nodes.Nodup
  closed : ∀ pre k, pre ++ [k] ∈ nodes → pre ∈ nodes
  valid : ∀ pre k, pre ++ [k] ∈ nodes → k.Valid
  fresh : ∀ pre, pre ∉ nodes → ∀ m, info pre m = none
  node : ∀ (i : Nat) pre n, nodes[i]? = some pre → arena[i]? = some n →
    NodeOk nodes pre n ∧ ∀ m, n.served m = info pre m

/-! ## Finding a child -/

/-- One half decides: its mask holds the bytes less an offset, all of them if the byte is one. -/
theorem findChildIdx_half (h : HasBytes n bytes) (char : UInt8) : ∃ off half,
    (n.findChildIdx char = if maskOf half &&& bit (char.toNat - off) = 0 then 0 else n.childIdx
      + UInt32.ofNat (onesCount (maskOf half &&& (bit (char.toNat - off) - 1#64))))
    ∧ (char.toNat - off ∈ half → char.toNat ∈ bytes)
    ∧ (char.toNat ∈ bytes → half = bytes.map (· - off) ∧ ∀ b ∈ bytes, off ≤ b ∧ b - off < 64) := by
  unfold SubRouteNode.findChildIdx
  by_cases hlt : char < 64
  · have hc : char.toNat < 64 := UInt8.lt_iff_toNat_lt.mp hlt
    rw [if_pos hlt]
    rcases h with ⟨_, ha, hlo⟩ | ⟨hlo, ha, _⟩ <;> rw [hlo]
    · exact ⟨0, bytes, rfl, id, fun _ => ⟨by simp, fun b hb => ⟨Nat.zero_le b, ha b hb⟩⟩⟩
    · refine ⟨0, [], rfl, (nomatch ·), fun hm => ?_⟩
      have := ha _ hm
      omega
  · have hc : 64 ≤ char.toNat := Nat.le_of_not_lt hlt
    have hs : (char - 64).toNat = char.toNat - 64 :=
      UInt8.toNat_sub_of_le _ _ (UInt8.le_iff_toNat_le.mpr hc)
    rw [if_neg hlt]
    dsimp only
    rw [hs]
    rcases h with ⟨hhi, ha, _⟩ | ⟨_, ha, hhi⟩ <;> rw [hhi]
    · refine ⟨64, [], rfl, (nomatch ·), fun hm => ?_⟩
      have := ha _ hm
      omega
    refine ⟨64, bytes.map (· - 64), rfl, fun hm => ?_, fun _ => ⟨rfl, fun b hb => ?_⟩⟩
    · obtain ⟨b, hb, he⟩ := mem_map.mp hm
      have := ha b hb
      have hbc : b = char.toNat := by omega
      exact hbc ▸ hb
    · have := ha b hb
      omega

/-- A byte that is not a child's gives no child. -/
theorem findChildIdx_eq_zero (h : HasBytes n bytes) (hn : char.toNat ∉ bytes) :
    n.findChildIdx char = 0 := by
  obtain ⟨off, half, heq, hm, _⟩ := findChildIdx_half h char
  rw [heq, if_pos]
  by_cases h64 : char.toNat - off < 64
  · rw [and_bit_eq_zero_iff h64]
    simp [mt hm hn]
  · -- past the mask the shifted bit is gone
    rw [show bit (char.toNat - off) = 0 from BitVec.shiftLeft_eq_zero (by omega)]
    exact BitVec.and_zero

/-- The `j`-th child's byte finds it `j` places after the first. -/
theorem findChildIdx_of_getElem? (h : HasBytes n bytes) (hs : bytes.Pairwise (· < ·))
    (hj : bytes[j]? = some char.toNat) : n.findChildIdx char = n.childIdx + UInt32.ofNat j := by
  obtain ⟨off, half, heq, _, hall⟩ := findChildIdx_half h char
  have hm : char.toNat ∈ bytes := mem_of_getElem? hj
  obtain ⟨rfl, hb⟩ := hall hm
  have h64 := (hb _ hm).2
  have hs' : (bytes.map (· - off)).Pairwise (· < ·) := by
    rw [pairwise_map]
    refine hs.imp_of_mem fun ha _ hab => ?_
    have := hb _ ha
    omega
  have hj' : (bytes.map (· - off))[j]? = some (char.toNat - off) := by rw [getElem?_map, hj]; rfl
  rw [heq, if_neg, rank_maskOf (hs'.imp fun h => Nat.ne_of_lt h) h64,
    filter_lt_length_of_sorted hs' hj']
  rw [and_bit_eq_zero_iff h64]
  simp [h64, mem_of_getElem? hj']

section Child

variable {nodes : List (List Key)} {info : List Key → Fin 5 → Option UInt32}
variable {arena : List SubRouteNode} {pre : List Key} {n : SubRouteNode}

/-- The node of a prefix. -/
theorem Laid.node_at {i : Nat} (h : Laid nodes info arena) (hi : nodes[i]? = some pre) :
    ∃ n, arena[i]? = some n ∧ NodeOk nodes pre n ∧ ∀ m, n.served m = info pre m := by
  have hlt := (List.getElem?_eq_some_iff.mp hi).1
  rw [← h.length] at hlt
  exact ⟨_, getElem?_eq_getElem hlt, h.node i pre _ hi (getElem?_eq_getElem hlt)⟩

/-- The index of the next node. -/
theorem Laid.next_toNat (h : Laid nodes info arena) (hlt : nodes.length < 2 ^ 32) :
    (UInt32.ofNat arena.length).toNat = nodes.length := by
  rw [h.length]
  exact UInt32.toNat_ofNat_of_lt' hlt

/-- Index 0 is the root, which is nobody's child. -/
theorem Laid.ne_zero {i : Nat} {k : Key} (h : Laid nodes info arena)
    (hp : nodes[i]? = some (pre ++ [k])) : i ≠ 0 := by
  rintro rfl
  rw [h.root] at hp
  simp at hp

/-- A node finds its static child. -/
theorem Laid.findChildIdx_static (h : Laid nodes info arena) (hok : NodeOk nodes pre n)
    {tail : List UInt8} (hin : pre ++ [.seg (char :: tail)] ∈ nodes) :
    n.findChildIdx char ≠ 0
      ∧ nodes[(n.findChildIdx char).toNat]? = some (pre ++ [.seg (char :: tail)]) := by
  obtain ⟨j, hj⟩ := mem_iff_getElem?.mp (mem_statics.mpr hin)
  have hf := findChildIdx_of_getElem? hok.bytes hok.ascending
    (show _ = some char.toNat by rw [getElem?_map, hj]; rfl)
  have hp := hok.placed j _ hj
  have hlt := (List.getElem?_eq_some_iff.mp hp).1
  have hb := h.bound
  have ht : (n.findChildIdx char).toNat = n.childIdx.toNat + j := by
    rw [hf, UInt32.toNat_add, UInt32.toNat_ofNat_of_lt' (show j < 2 ^ 32 by omega)]
    omega
  refine ⟨fun hzr => h.ne_zero hp ?_, by rw [ht]; exact hp⟩
  rw [← ht, hzr]
  rfl

/-- Without a static child for the byte there is no index. -/
theorem NodeOk.findChildIdx_none (h : NodeOk nodes pre n)
    (hn : ∀ x ∈ statics nodes pre, firstByte x ≠ char.toNat) : n.findChildIdx char = 0 := by
  refine findChildIdx_eq_zero h.bytes ?_
  intro hm
  obtain ⟨x, hx, he⟩ := mem_map.mp hm
  exact hn x hx he

end Child

/-! ## Growing -/

theorem getElem?_snoc_iff {α : Type} {l : List α} {x y : α} {i : Nat} :
    (l ++ [x])[i]? = some y ↔ l[i]? = some y ∨ i = l.length ∧ x = y := by
  rcases Nat.lt_trichotomy i l.length with h | rfl | h
  · rw [getElem?_append_left h]
    simp [Nat.ne_of_lt h]
  · simp
  · rw [getElem?_eq_none (by simp; omega), getElem?_eq_none (Nat.le_of_lt h)]
    simp [Nat.ne_of_gt h]

theorem getElem?_snoc {α : Type} {l : List α} {x y : α} {i : Nat} (h : l[i]? = some y) :
    (l ++ [x])[i]? = some y := getElem?_snoc_iff.mpr (.inl h)

/-- A new prefix that is not a static child: only the parameter child is to be right. -/
theorem NodeOk.grow (h : NodeOk nodes pre n) (hq : ∀ s, q ≠ pre ++ [.seg s])
    (hb : b = true ↔ pre ++ [.param] ∈ nodes ++ [q])
    (hp : pre ++ [.param] ∈ nodes ++ [q] → (nodes ++ [q])[idx.toNat]? = some (pre ++ [.param])) :
    NodeOk (nodes ++ [q]) pre { n with hasParamChild := b, paramChildIdx := idx } := by
  have hst : statics (nodes ++ [q]) pre = _ := statics_snoc_of_ne hq
  refine ⟨h.length, by rw [hst]; exact h.bytes, by rw [hst]; exact h.ascending,
    by rw [hst]; exact h.childless, ?_, hb, hp⟩
  rw [hst]
  exact fun j s hj => getElem?_snoc (h.placed j s hj)

/-- A node does not notice a new prefix that is not its child. -/
theorem NodeOk.frame (h : NodeOk nodes pre n) (hq : ∀ k, q ≠ pre ++ [k]) :
    NodeOk (nodes ++ [q]) pre n := by
  have hp : pre ++ [.param] ∈ nodes ++ [q] ↔ pre ++ [.param] ∈ nodes := by simp [(hq _).symm]
  exact h.grow (fun s => hq _) (by rw [hp]; exact h.hasParam)
    fun hin => getElem?_snoc (h.paramAt (hp.mp hin))

/-- The node of a segment of length `len` when it is created. -/
def leafNode (len : UInt16) : SubRouteNode := { prefixLen := len }

/-- A prefix nobody extends, as a node that only knows its length. -/
theorem nodeOk_leaf (hno : ∀ k, pre ++ [k] ∉ nodes)
    (hl : ∀ q s, pre = q ++ [.seg s] → len.toNat = s.length) :
    NodeOk nodes pre (leafNode len) := by
  have hst : statics nodes pre = [] :=
    eq_nil_iff_forall_not_mem.mpr fun s hs => hno _ (mem_statics.mp hs)
  refine ⟨hl, ?_, ?_, fun _ => rfl, ?_, ?_, fun h => absurd h (hno _)⟩
  · rw [hst]
    exact .inl ⟨rfl, by simp, rfl⟩
  · rw [hst]
    exact List.Pairwise.nil
  · rw [hst]
    intro j s hj
    simp at hj
  · exact ⟨fun h => absurd h (by simp [leafNode]), fun h => absurd h (hno _)⟩

section Grow

variable {nodes : List (List Key)} {info : List Key → Fin 5 → Option UInt32}
variable {arena : List SubRouteNode} {i : Nat} {pre : List Key} {n n' : SubRouteNode} {k : Key}

/-- **One new node.** If the parent is right about its new child, the arena still lays out
the table. -/
theorem Laid.extend (h : Laid nodes info arena) (hi : nodes[i]? = some pre)
    (hn : arena[i]? = some n) (hnw : pre ++ [k] ∉ nodes) (hlt : nodes.length < 2 ^ 32)
    (hk : k.Valid) (hl : ∀ s, k = .seg s → len.toNat = s.length)
    (hp : NodeOk (nodes ++ [pre ++ [k]]) pre n') (hsr : ∀ m, n'.served m = n.served m) :
    Laid (nodes ++ [pre ++ [k]]) info ((arena ++ [leafNode len]).set i n') := by
  have hil : i < nodes.length := (List.getElem?_eq_some_iff.mp hi).1
  have hin : ∀ {q : List Key}, q ∈ nodes ++ [pre ++ [k]] ↔ q ∈ nodes ∨ q = pre ++ [k] := by
    intro q
    rw [mem_append, mem_singleton]
  refine ⟨by simp [h.length], by simp; omega, getElem?_snoc h.root, ?_, ?_, ?_, ?_, ?_⟩
  · exact h.nodup.append (nodup_singleton _) (by simpa using hnw)
  · intro q c hq
    rcases hin.mp hq with hq | hq
    · exact hin.mpr (.inl (h.closed q c hq))
    · rw [(append_singleton_inj.mp hq).1]
      exact hin.mpr (.inl (mem_of_getElem? hi))
  · intro q c hq
    rcases hin.mp hq with hq | hq
    · exact h.valid q c hq
    · rw [(append_singleton_inj.mp hq).2]
      exact hk
  · intro q hq
    exact h.fresh q (fun hc => hq (hin.mpr (.inl hc)))
  intro j q nd hj hnd
  rcases getElem?_snoc_iff.mp hj with hj | ⟨rfl, rfl⟩
  · have hjl := (List.getElem?_eq_some_iff.mp hj).1
    by_cases hji : i = j
    · -- the parent
      subst hji
      obtain rfl := Option.some.inj (hi.symm.trans hj)
      rw [getElem?_set_self (by simp [h.length]; omega), Option.some.injEq] at hnd
      subst hnd
      refine ⟨hp, fun m => ?_⟩
      rw [hsr m]
      exact (h.node i pre n hi hn).2 m
    · rw [getElem?_set_ne hji, getElem?_append_left (by rw [h.length]; exact hjl)] at hnd
      obtain ⟨hok, hs⟩ := h.node j q nd hj hnd
      refine ⟨hok.frame ?_, hs⟩
      intro c hc
      obtain ⟨rfl, _⟩ := append_singleton_inj.mp hc
      exact hji ((getElem?_inj hil h.nodup).mp (hi.trans hj.symm))
  · -- the new node
    rw [getElem?_set_ne (by omega), ← h.length, getElem?_concat_length, Option.some.injEq] at hnd
    subst hnd
    refine ⟨nodeOk_leaf ?_ ?_, fun m => ?_⟩
    · intro c hc
      rcases hin.mp hc with hc | hc
      · exact hnw (h.closed _ _ hc)
      · simpa using congrArg List.length hc
    · intro q s he
      exact hl s (append_singleton_inj.mp he).2
    · rw [h.fresh _ hnw m]
      simp [SubRouteNode.served, leafNode]

/-- Earlier siblings of a child that follows them have smaller first bytes in its half. -/
theorem FollowsSibling.below (h : NodeOk nodes pre n) (hf : FollowsSibling nodes pre s) :
    ∀ b ∈ (statics nodes pre).map firstByte, b < firstByte s ∧ SameHalf b (firstByte s) := by
  intro b hb
  have hne : statics nodes pre ≠ [] := fun hn => by simp [hn] at hb
  have hs := getLast?_eq_some_getLast hne
  generalize (statics nodes pre).getLast hne = sib at hs
  obtain ⟨_, hlt, hh⟩ := hf sib hs
  obtain ⟨init, hi⟩ := getLast?_eq_some_iff.mp hs
  have hm : firstByte sib ∈ (statics nodes pre).map firstByte := mem_map_of_mem (by rw [hi]; simp)
  have hle : b ≤ firstByte sib := by
    have has := h.ascending
    rw [hi, map_append, pairwise_append] at has
    rw [hi, map_append, mem_append] at hb
    rcases hb with hb | hb
    · exact Nat.le_of_lt (has.2.2 b hb (firstByte sib) (by simp))
    · simp only [map_cons, map_nil, mem_singleton] at hb
      omega
  refine ⟨by omega, ?_⟩
  unfold SameHalf at hh ⊢
  rcases h.bytes with ⟨_, ha, _⟩ | ⟨_, ha, _⟩
  · have h1 := ha b hb
    have h2 := ha _ hm
    omega
  · have h1 := ha b hb
    omega

/-- The masks of the parent get the new byte. -/
theorem HasBytes.attach (h : HasBytes n bytes)
    (hbl : ∀ b ∈ bytes, b < char.toNat ∧ SameHalf b char.toNat) (hch : char.toNat < 128) :
    HasBytes (n.attach char newIdx) (bytes ++ [char.toNat]) := by
  unfold SameHalf at hbl
  have hm : ∀ b ∈ bytes ++ [char.toNat], b ≤ char.toNat ∧ (b < 64 ↔ char.toNat < 64) := by
    intro b hb
    rcases mem_append.mp hb with hb | hb
    · exact ⟨Nat.le_of_lt (hbl b hb).1, (hbl b hb).2⟩
    · simp [mem_singleton.mp hb]
  -- the masks of a node without a child are those of either half
  have hw : (char.toNat < 64 → n.maskHi = 0 ∧ n.maskLo = maskOf bytes)
      ∧ (64 ≤ char.toNat → n.maskLo = 0 ∧ n.maskHi = maskOf (bytes.map (· - 64))) := by
    cases bytes with
    | nil =>
      rcases h with ⟨hhi, _, hlo⟩ | ⟨hlo, _, hhi⟩
        <;> exact ⟨fun _ => ⟨hhi, hlo⟩, fun _ => ⟨hlo, hhi⟩⟩
    | cons b bytes =>
      have h1 := hbl b mem_cons_self
      rcases h with ⟨hhi, ha, hlo⟩ | ⟨hlo, ha, hhi⟩ <;> have h2 := ha b mem_cons_self
      · exact ⟨fun _ => ⟨hhi, hlo⟩, fun _ => by omega⟩
      · exact ⟨fun _ => by omega, fun _ => ⟨hlo, hhi⟩⟩
  unfold SubRouteNode.attach
  by_cases hlt : char < 64
  · have hc : char.toNat < 64 := UInt8.lt_iff_toNat_lt.mp hlt
    rw [if_pos hlt]
    refine .inl ⟨(hw.1 hc).1, fun b hb => (hm b hb).2.mpr hc, ?_⟩
    rw [(hw.1 hc).2, maskOf, maskOf, foldl_append]
    rfl
  · have hc : 64 ≤ char.toNat := Nat.le_of_not_lt hlt
    rw [if_neg hlt]
    refine .inr ⟨(hw.2 hc).1, fun b hb => ?_, ?_⟩
    · have := hm b hb
      omega
    · rw [(hw.2 hc).2, map_append, maskOf, maskOf, foldl_append,
        UInt8.toNat_sub_of_le char 64 (UInt8.le_iff_toNat_le.mpr hc)]
      rfl

/-- What `attach` leaves alone, and the first-child index it sets. -/
theorem attach_fields (n : SubRouteNode) (char : UInt8) (newIdx : UInt32) :
    (n.attach char newIdx).prefixLen = n.prefixLen
      ∧ (n.attach char newIdx).hasParamChild = n.hasParamChild
      ∧ (n.attach char newIdx).paramChildIdx = n.paramChildIdx
      ∧ (n.attach char newIdx).childIdx = (if n.childIdx = 0 then newIdx else n.childIdx)
      ∧ ∀ m, (n.attach char newIdx).served m = n.served m := by
  unfold SubRouteNode.attach
  split <;> exact ⟨rfl, rfl, rfl, rfl, fun m => rfl⟩

/-- The parent of a new static child. -/
theorem Laid.nodeOk_attach (h : Laid nodes info arena) (hok : NodeOk nodes pre n)
    {tail : List UInt8} (hf : FollowsSibling nodes pre (char :: tail))
    (hc : char < 128) (hi : newIdx.toNat = nodes.length) :
    NodeOk (nodes ++ [pre ++ [.seg (char :: tail)]]) pre (n.attach char newIdx) := by
  have hst := statics_snoc_self nodes pre (char :: tail)
  have hpr : pre ++ [.param] ∈ nodes ++ [pre ++ [.seg (char :: tail)]]
      ↔ pre ++ [.param] ∈ nodes := by simp
  have hbl := hf.below hok
  obtain ⟨hf1, hf2, hf3, hf4, _⟩ := attach_fields n char newIdx
  refine ⟨by rw [hf1]; exact hok.length, ?_, ?_, ?_, ?_, by rw [hf2, hpr]; exact hok.hasParam, ?_⟩
  · rw [hst, map_append]
    exact hok.bytes.attach hbl (UInt8.lt_iff_toNat_lt.mp hc)
  · rw [hst, map_append, pairwise_append]
    refine ⟨hok.ascending, by simp, ?_⟩
    intro a ha b hb
    simp only [map_cons, map_nil, mem_singleton] at hb
    rw [hb]
    exact (hbl a ha).1
  · rw [hst]
    intro he
    simp at he
  · rw [hst, hf4]
    intro j s hj
    by_cases hn : statics nodes pre = []
    · -- the first child
      rw [hn, nil_append] at hj
      rw [if_pos (hok.childless hn), hi]
      cases j with
      | zero =>
        rw [getElem?_cons_zero, Option.some.injEq] at hj
        subst hj
        simp
      | succ j => simp at hj
    · obtain ⟨sib, hs⟩ : ∃ sib, (statics nodes pre).getLast? = some sib :=
        ⟨_, getLast?_eq_some_getLast hn⟩
      have hps := length_pos_iff.mpr hn
      -- the last sibling is the last node, so the new one is the next in the row
      have hl := hok.placed ((statics nodes pre).length - 1) sib
        (by rw [← getLast?_eq_getElem?]; exact hs)
      have hen := (hf sib hs).1
      rw [getLast?_eq_getElem?] at hen
      have hlt := (List.getElem?_eq_some_iff.mp hl).1
      have hrw : n.childIdx.toNat + ((statics nodes pre).length - 1) = nodes.length - 1 :=
        (getElem?_inj hlt h.nodup).mp (hl.trans hen.symm)
      have hzr : n.childIdx ≠ 0 := fun hz =>
        h.ne_zero (hok.placed 0 _ (getElem?_eq_getElem hps)) (by rw [hz]; rfl)
      rw [if_neg hzr]
      rcases getElem?_snoc_iff.mp hj with hj | ⟨rfl, rfl⟩
      · exact getElem?_snoc (hok.placed j s hj)
      · rw [show n.childIdx.toNat + (statics nodes pre).length = nodes.length by omega]
        simp
  · rw [hpr, hf3]
    exact fun hin => getElem?_snoc (hok.paramAt hin)

/-- The parent of a new parameter child. -/
theorem NodeOk.param (hok : NodeOk nodes pre n) (hidx : newIdx.toNat = nodes.length) :
    NodeOk (nodes ++ [pre ++ [.param]]) pre
      { n with hasParamChild := true, paramChildIdx := newIdx } :=
  hok.grow (by simp) (by simp) (by simp [hidx])

end Grow

end Rah.SubRouter
