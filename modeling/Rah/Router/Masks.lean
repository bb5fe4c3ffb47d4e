import Rah.Router.TreeLookup
import Mathlib.Algebra.BigOperators.Group.List.Basic

/-!
# Child lookup by rank

A baked node keeps no child list. It has one bit for each child key, in two masks of
64, and the arena index of its first child; the others follow in key order. The child
for a byte is then found by counting the smaller keys.

This file ties the masks to the child map of a builder node: `kids` lists the children
in the order they are laid out, and `findChildIdx_eq` says which of them counting bits finds
for a byte.
-/

namespace Rah.Router

open Rah.Lib List BuilderMap
open BitVec (ofNat)

/-- The entries of a map, in no particular order. -/
def BuilderMap.nodes : BuilderMap → List BuilderNode
  | .nil => []
  | .cons _ child rest => child :: rest.nodes

/-- The children in the order they are baked. -/
def BuilderMap.kids (m : BuilderMap) : List BuilderNode := m.sortedKeys.filterMap m.get?

mutual

/-- Prefix bytes in a tree. -/
def BuilderNode.bytes : BuilderNode → Nat
  | .mk pfx _ children => pfx.length + children.bytes

def BuilderMap.bytes : BuilderMap → Nat
  | .nil => 0
  | .cons _ child rest => child.bytes + rest.bytes

end

mutual

/-- Every prefix of the tree satisfies `P`. -/
def BuilderNode.All (P : List UInt8 → Prop) : BuilderNode → Prop
  | .mk pfx _ children => P pfx ∧ children.All P

def BuilderMap.All (P : List UInt8 → Prop) : BuilderMap → Prop
  | .nil => True
  | .cons _ child rest => child.All P ∧ rest.All P

end

/-- A fragment the arena can hold: ASCII bytes, and a length that fits 16 bits. -/
def Plain (p : List UInt8) : Prop := p.length < 65536 ∧ ∀ b ∈ p, b < 128

/-! ## Children in key order -/

theorem BuilderMap.keys_filterMap_get? : ∀ {m : BuilderMap}, m.Filed →
    m.keys.filterMap m.get? = m.nodes
  | .nil, _ => rfl
  | .cons key child rest, h => by
    have hs : (cons key child rest).get? key = some child := by
      rw [get?, if_pos rfl]
    have ho : rest.keys.filterMap (cons key child rest).get? = rest.keys.filterMap rest.get? := by
      apply filterMap_congr
      intro b hb
      rw [get?, if_neg]
      intro he
      exact h.2.1 (he ▸ hb)
    rw [keys, filterMap_cons_some hs, ho, keys_filterMap_get? h.2.2.2, nodes]

theorem BuilderMap.sortedKeys_perm (m : BuilderMap) : m.sortedKeys.Perm m.keys :=
  perm_insertionSort _ _

variable {m : BuilderMap} {ks : List Nat} {b i isHi : Nat} {n : RouteNode}

/-- The sorted keys, as numbers, ascend strictly. -/
theorem BuilderMap.sortedKeys_pairwise (h : m.Filed) :
    (m.sortedKeys.map UInt8.toNat).Pairwise (· < ·) := by
  have hle : m.sortedKeys.Pairwise (· ≤ ·) := pairwise_insertionSort _ _
  have hne : m.sortedKeys.Pairwise (· ≠ ·) := (m.sortedKeys_perm.nodup_iff.mpr (filed_iff.mp h).1)
  rw [pairwise_map]
  refine (hle.and hne).imp ?_
  rintro a b ⟨h1, h2⟩
  rw [UInt8.le_iff_toNat_le] at h1
  have : a.toNat ≠ b.toNat := fun he => h2 (UInt8.toNat_inj.mp he)
  omega

theorem BuilderMap.kids_perm (h : m.Filed) : m.kids.Perm m.nodes := by
  rw [← keys_filterMap_get? h]
  exact m.sortedKeys_perm.filterMap _

theorem BuilderMap.bytes_eq : ∀ m : BuilderMap, m.bytes = (m.nodes.map BuilderNode.bytes).sum
  | .nil => rfl
  | .cons _ _ rest => by
    rw [bytes, nodes, map_cons, sum_cons, rest.bytes_eq]

theorem BuilderMap.count_eq : ∀ m : BuilderMap, m.count = (m.nodes.map BuilderNode.count).sum
  | .nil => rfl
  | .cons _ _ rest => by
    rw [count, nodes, map_cons, sum_cons, rest.count_eq]

theorem BuilderMap.bytes_kids (h : m.Filed) : m.bytes = (m.kids.map BuilderNode.bytes).sum := by
  rw [m.bytes_eq, ((kids_perm h).map BuilderNode.bytes).sum_eq]

theorem BuilderMap.count_kids (h : m.Filed) : m.count = (m.kids.map BuilderNode.count).sum := by
  rw [m.count_eq, ((kids_perm h).map BuilderNode.count).sum_eq]

theorem BuilderMap.all_nodes : ∀ {m : BuilderMap}, m.All P → ∀ c ∈ m.nodes, c.All P
  | .nil, _, c, h => by simp [nodes] at h
  | .cons key child rest, ha, c, h => by
    rw [nodes, mem_cons] at h
    rcases h with h | h
    · exact h ▸ ha.1
    · exact all_nodes ha.2 c h

theorem BuilderNode.filed_children {n : BuilderNode} (h : n.Filed) : n.children.Filed := by
  obtain ⟨pfx, apiId, children⟩ := n
  exact h

theorem BuilderNode.all_children {P : List UInt8 → Prop} {n : BuilderNode} (h : n.All P) :
    P n.pfx ∧ n.children.All P := by
  obtain ⟨pfx, apiId, children⟩ := n
  exact h

/-! ## What the masks hold -/

/-- Keys that go to the low mask. -/
def loKeys (ks : List Nat) : List Nat := ks.filter (fun k => decide (k < 64))

/-- Keys that go to the high mask, shifted down. -/
def hiKeys (ks : List Nat) : List Nat :=
  (ks.filter (fun k => decide (64 ≤ k))).map (fun k => k - 64)

/-- Both masks after setting the bits of `ks` one by one. -/
theorem foldl_setMask (ks : List UInt8) (n : RouteNode) : ks.foldl (fun n b => n.setMask b) n =
      { n with
        maskLo := (loKeys (ks.map UInt8.toNat)).foldl (fun m k => m ||| bit k) n.maskLo
        maskHi := (hiKeys (ks.map UInt8.toNat)).foldl (fun m k => m ||| bit k) n.maskHi } := by
  induction ks generalizing n with
  | nil => rfl
  | cons b ks ih =>
  rw [foldl_cons, ih]
  unfold RouteNode.setMask loKeys hiKeys
  by_cases hb : b < 64
  · have h1 : b.toNat < 64 := UInt8.lt_iff_toNat_lt.mp hb
    have h2 : ¬ 64 ≤ b.toNat := by omega
    simp [hb, h1, h2]
  · have h1 : ¬ b.toNat < 64 := fun h => hb (UInt8.lt_iff_toNat_lt.mpr h)
    have h2 : 64 ≤ b.toNat := by omega
    simp [hb, h1, h2]

theorem loKeys_nodup (h : ks.Nodup) : (loKeys ks).Nodup := h.filter _

/-- The two masks a node with child keys `ks` carries. -/
def HasMasks (n : RouteNode) (ks : List Nat) : Prop :=
  n.maskLo = maskOf (loKeys ks) ∧ n.maskHi = maskOf (hiKeys ks)

/-! ## Bytes from 128 on

The masks have no bits for keys from 128 on, and `isHi` is 2 or 3 for such a byte. The product
with the all-ones word is then no longer a choice between the masks: it clears bit 1 - or bit 0 -
of the high mask and takes that one bit from the low mask. So the test is about some smaller key,
and the count of the low mask is added twice or three times. -/

/-- The key behind bit `i` of the word that is tested when `isHi` is 2 or 3. -/
def maskKey (isHi i : Nat) : Nat := if i + 2 = isHi then i else i + 64

/-- The key whose bit is tested for a byte: the byte itself below 128. -/
def standIn (b : Nat) : Nat := if b < 128 then b else maskKey (b / 64) (b % 64)

/-- How many children are skipped for a byte that is taken to be there. -/
def place (ks : List Nat) (b : Nat) : Nat :=
  if b < 128 then (ks.filter (fun k => decide (k < b))).length
  else (loKeys ks).length * (b / 64)
    + ((List.range (b % 64)).filter (fun i => decide (maskKey (b / 64) i ∈ ks))).length

theorem getLsbD_maskLo (hm : HasMasks n ks)
    (hi : i < 64) : n.maskLo.getLsbD i = decide (i ∈ ks) := by
  rw [hm.1, getLsbD_maskOf]
  simp [loKeys, hi]

theorem getLsbD_maskHi (hm : HasMasks n ks)
    (hi : i < 64) : n.maskHi.getLsbD i = decide (i + 64 ∈ ks) := by
  rw [hm.2, getLsbD_maskOf, decide_eq_true hi, Bool.true_and, decide_eq_decide]
  unfold hiKeys
  rw [mem_map]
  constructor
  · rintro ⟨k, hk, he⟩
    rw [mem_filter, decide_eq_true_eq] at hk
    have : k = i + 64 := by omega
    exact this ▸ hk.1
  · intro h
    exact ⟨i + 64, mem_filter.mpr ⟨h, decide_eq_true (by omega)⟩, by omega⟩

/-- The selector takes all bits from the low mask for 0 and from the high mask for 1, and all but
one from the high mask for 2 and 3. -/
theorem getLsbD_selector (h : isHi < 4) (hi : i < 64) :
    ((ofNat 64 isHi) * 0xFFFFFFFFFFFFFFFF#64).getLsbD i
      = decide (isHi ≠ 0 ∧ i + 2 ≠ isHi) := by
  have ha : ∀ (isHi : Fin 4) (i : Fin 64),
      ((ofNat 64 isHi) * 0xFFFFFFFFFFFFFFFF#64).getLsbD i
        = decide ((isHi : Nat) ≠ 0 ∧ (i : Nat) + 2 ≠ isHi) := by decide
  exact ha ⟨isHi, h⟩ ⟨i, hi⟩

/-- Bit `i` of the tested word stands for the key `standIn (64 * isHi + i)`. -/
theorem getLsbD_targetMask (hm : HasMasks n ks) (h : isHi < 4) (hi : i < 64) :
    (n.maskLo &&& ~~~((ofNat 64 isHi) * 0xFFFFFFFFFFFFFFFF#64)
      ||| n.maskHi &&& (ofNat 64 isHi) * 0xFFFFFFFFFFFFFFFF#64).getLsbD i
      = decide (standIn (64 * isHi + i) ∈ ks) := by
  rw [BitVec.getLsbD_or, BitVec.getLsbD_and, BitVec.getLsbD_and, BitVec.getLsbD_not,
    getLsbD_selector h hi, getLsbD_maskLo hm hi, getLsbD_maskHi hm hi]
  have hk : standIn (64 * isHi + i) = if isHi ≠ 0 ∧ i + 2 ≠ isHi then i + 64 else i := by
    unfold standIn maskKey
    grind
  rw [hk]
  split <;> simp [*]

/-- Counting the keys below a bound, from the keys and from the bound. -/
theorem count_range (hnd : ks.Nodup) (m : Nat) :
    ((range m).filter (fun i => decide (i ∈ ks))).length
      = (ks.filter (fun k => decide (k < m))).length := by
  refine Perm.length_eq ((perm_ext_iff_of_nodup (nodup_range.filter _) (hnd.filter _)).mpr ?_)
  intro k
  simp [and_comm]

/-- A place is counted in the two masks. -/
theorem place_eq (hnd : ks.Nodup) (hb : b < 256) : place ks b = (loKeys ks).length * (b / 64)
      + ((range (b % 64)).filter (fun i => decide (standIn (64 * (b / 64) + i) ∈ ks))).length := by
  have hk : ∀ f : Nat → Nat, (∀ i < 64, standIn (64 * (b / 64) + i) = f i) →
      (range (b % 64)).filter (fun i => decide (standIn (64 * (b / 64) + i) ∈ ks))
        = (range (b % 64)).filter (fun i => decide (f i ∈ ks)) := by
    intro f hf
    refine filter_congr fun i hi => ?_
    rw [hf i (by have := mem_range.mp hi; omega)]
  unfold place
  split
  · rw [hk (fun i => 64 * (b / 64) + i) fun i hi => if_pos (by omega), ← count_range hnd]
    rcases (by omega : b / 64 = 0 ∨ b / 64 = 1) with h | h
    · simp [h, Nat.mod_eq_of_lt (show b < 64 by omega)]
    have hlo : (loKeys ks).length = _ := (count_range hnd 64).symm
    rw [hlo, show b = 64 + b % 64 by omega, range_add, filter_append, filter_map, Nat.add_mod_left]
    simp [Function.comp_def]
  · rw [hk (maskKey (b / 64)) fun i hi => ?_]
    rw [standIn, if_neg (by omega)]
    congr 1 <;> omega

/-- Below 128 a byte that is a key stands at its place. -/
theorem getElem?_place (hs : ks.Pairwise (· < ·)) (hb : b < 128)
    (hm : b ∈ ks) : ks[place ks b]? = some b := by
  obtain ⟨i, hi⟩ := mem_iff_getElem?.mp hm
  rw [place, if_pos hb, filter_lt_length_of_sorted hs hi, hi]

/-- A place is at most four words of bits away, so it cannot wrap a 32-bit index. -/
theorem place_lt (hs : ks.Pairwise (· < ·)) (b : UInt8) : place ks b.toNat < 512 := by
  have hb : b.toNat < 256 := b.toNat_lt
  have hnd : ks.Nodup := hs.imp (fun h => Nat.ne_of_lt h)
  have hbn : ∀ m, (ks.filter (fun k => decide (k < m))).length ≤ m := by
    intro m
    have hsb : (ks.filter (fun k => decide (k < m))).Subperm (range m) := by
      refine (hnd.filter _).subperm ?_
      intro k hk
      simpa using (mem_filter.mp hk).2
    simpa using hsb.length_le
  unfold place
  split
  · have := hbn b.toNat
    omega
  have hlo : (loKeys ks).length ≤ 64 := hbn 64
  have hbt := length_filter_le
    (fun i => decide (maskKey (b.toNat / 64) i ∈ ks)) (range (b.toNat % 64))
  rw [length_range] at hbt
  have hd : b.toNat / 64 = 2 ∨ b.toNat / 64 = 3 := by omega
  rcases hd with h | h <;> rw [h] at hbt ⊢ <;> omega

/-- **The child looked up for any byte.** -/
theorem findChildIdx_eq (hm : HasMasks n ks) (hs : ks.Pairwise (· < ·)) (b : UInt8) :
    n.findChildIdx b = if standIn b.toNat ∈ ks then
      some (n.childIdx + UInt32.ofNat (place ks b.toNat)) else none := by
  have hlt : b.toNat < 256 := b.toNat_lt
  have hnd : ks.Nodup := hs.imp (fun h => Nat.ne_of_lt h)
  have ha : b.toNat &&& 63 = b.toNat % 64 := Nat.and_two_pow_sub_one_eq_mod b.toNat 6
  have hsh : b.toNat >>> 6 = b.toNat / 64 := Nat.shiftRight_eq_div_pow _ _
  have hb : b.toNat % 64 < 64 := by omega
  have ho : (ofNat 64 (b.toNat / 64)).toNat = b.toNat / 64 := by
    exact Nat.mod_eq_of_lt (by omega)
  have hl : ∀ k ∈ loKeys ks, k < 64 := by
    intro k hk
    simpa [loKeys] using (mem_filter.mp hk).2
  have hc : onesCount n.maskLo = (loKeys ks).length := by
    rw [hm.1, onesCount_maskOf (loKeys_nodup hnd) hl]
  unfold RouteNode.findChildIdx
  simp only [ha, hsh, ho, hc]
  -- from here on only the bits of the tested word matter
  have ht := fun i (hi : i < 64) =>
    getLsbD_targetMask (i := i) hm (show b.toNat / 64 < 4 by omega) hi
  generalize (n.maskLo &&& ~~~((ofNat 64 (b.toNat / 64)) * 0xFFFFFFFFFFFFFFFF#64)
      ||| n.maskHi &&& (ofNat 64 (b.toNat / 64)) * 0xFFFFFFFFFFFFFFFF#64) = target
    at ht
  have hmm : target &&& bit (b.toNat % 64) = 0 ↔ standIn b.toNat ∉ ks := by
    rw [and_bit_eq_zero_iff hb, ht _ hb, decide_eq_false_iff_not, Nat.div_add_mod]
  by_cases h : standIn b.toNat ∈ ks
  · rw [if_neg (fun he => hmm.mp he h), if_pos h, onesCount_below ht hb, place_eq hnd hlt,
      UInt32.ofNat_add, UInt32.ofNat_mul]
  · rw [if_pos (hmm.mpr h), if_neg h]

end Rah.Router
