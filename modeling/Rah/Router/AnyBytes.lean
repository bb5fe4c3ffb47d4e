import Rah.Router.Routing

/-!
# Lookup on arbitrary bytes

The arena has mask bits for the keys below 128 only. This file asks what the lookup does
with any other byte, in the routes or in the query: whether it stays inside the arena and
the prefix table, and whether the child it goes to is the one the next byte asks for.

`Followable` reads off the builder tree whether all the children that `lookupTrace` logs are
right: at every node on the way of the query, if the bit that is tested for the next byte is
set, then the key at the place counted for it is that byte.

A byte below 128 is tested through its own bit. A byte from 128 on is tested through the bit of
another key, and the place is counted with the low mask taken twice or three times, so the way
of such a query is in general not followable.
-/

namespace Rah.Router

open Rah.Lib List BuilderMap BuilderNode Option RahRouter

/-! ## Safety -/

/-- The hop ends inside the arena, at a child of the node, whose prefix starts with the byte. -/
def Hop.Right (arena : List RouteNode) (table : List UInt8) (h : Hop) : Prop :=
  ∃ (i : Nat) (child : RouteNode), i < h.node.numChildren.toNat
    ∧ h.index.toNat = h.node.childIdx.toNat + i
    ∧ arena[h.index.toNat]? = some child
    ∧ table[child.prefixOff.toNat]? = some h.byte

/-- Every hop is right and nothing was accessed out of range. -/
def Harmless (arena : List RouteNode) (table : List UInt8)
    (t : List Hop × Except Fault UInt32) : Prop :=
  (∀ h ∈ t.1, h.Right arena table) ∧ t.2 ≠ .error .sliceOutOfRange
    ∧ t.2 ≠ .error .indexOutOfRange

/-- The lookup of a path is safe, however many turns it takes. -/
def RahRouter.LookupSafe (r : RahRouter) (path : List UInt8) : Prop :=
  ∀ turns, Harmless r.arena r.table (r.trace turns path)

/-! ## The condition on the tree -/

mutual

/-- At every node the query passes, the place counted for the next byte is its own. -/
def BuilderNode.Followable : BuilderNode → List UInt8 → Prop
  | .mk pfx _ children, input =>
    match after (seen pfx) input with
    | some (b :: rest) =>
      standIn b.toNat ∈ children.places →
        children.places[place children.places b.toNat]? = some b.toNat
          ∧ children.Followable b (b :: rest)
    | _ => True

def BuilderMap.Followable : BuilderMap → UInt8 → List UInt8 → Prop
  | .nil, _, _ => True
  | .cons key child rest, b, input =>
    if key = b then child.Followable input else rest.Followable b input

end

theorem BuilderMap.followable_iff : ∀ {m : BuilderMap} {b : UInt8} {input : List UInt8},
    m.Followable b input ↔ ∀ c, m.get? b = some c → c.Followable input
  | .nil, b, input => by simp [BuilderMap.Followable, get?]
  | .cons key child rest, b, input => by
    rw [BuilderMap.Followable, get?]
    by_cases h : key = b
    · rw [if_pos h, if_pos h]
      simp
    · rw [if_neg h, if_neg h]
      exact followable_iff

theorem BuilderNode.followable_iff {n : BuilderNode} {input : List UInt8} :
    n.Followable input ↔ ∀ b rest, input = seen n.pfx ++ b :: rest →
      standIn b.toNat ∈ n.children.places →
        n.children.places[place n.children.places b.toNat]? = some b.toNat
          ∧ ∀ c, n.children.get? b = some c → c.Followable (b :: rest) := by
  obtain ⟨pfx, apiId, children⟩ := n
  rw [BuilderNode.Followable]
  split
  · rename_i b rest ha
    have hi := after_eq_some.mp ha
    rw [BuilderMap.followable_iff]
    constructor
    · intro h b' rest' he
      obtain ⟨rfl, rfl⟩ := cons.inj (append_cancel_left (hi.symm.trans he))
      exact h
    · intro h
      exact h b rest hi
  · rename_i ha
    refine iff_of_true trivial (fun b rest he => ?_)
    exact absurd (after_eq_some.mpr he) (ha b rest)

/-- The match found so far decides the answer only, not where the turn goes. -/
theorem lookupTurn_default (table : List UInt8) (node : RouteNode) (input : List UInt8)
    (d d' : UInt32) :
    (∃ e, lookupTurn table node input d = .fault e ∧ lookupTurn table node input d' = .fault e)
      ∨ (∃ id id', lookupTurn table node input d = .answer id
          ∧ lookupTurn table node input d' = .answer id')
      ∨ ∃ b idx rest e e', lookupTurn table node input d = .follow b idx rest e
          ∧ lookupTurn table node input d' = .follow b idx rest e' := by
  unfold lookupTurn
  dsimp only
  split
  · exact .inl ⟨_, rfl, rfl⟩
  split
  · exact .inr (.inl ⟨_, _, rfl, rfl⟩)
  split
  · exact .inr (.inl ⟨_, _, rfl, rfl⟩)
  · split
    · exact .inr (.inl ⟨_, _, rfl, rfl⟩)
    · exact .inr (.inr ⟨_, _, _, _, _, rfl, rfl⟩)

section Safety

variable {arena : List RouteNode} {table : List UInt8}

/-- From this node on, the lookup of the input is safe. -/
def SafeFrom (arena : List RouteNode) (table : List UInt8) (node : RouteNode)
    (input : List UInt8) : Prop :=
  ∀ turns d, Harmless arena table (lookupTrace arena table turns node input d)

theorem harmless_cons :
    Harmless arena table (h :: ho, r) ↔ h.Right arena table ∧ Harmless arena table (ho, r) := by
  unfold Harmless
  rw [forall_mem_cons, and_assoc]

theorem harmless_default : ∀ (turns : Nat) (node : RouteNode) (input : List UInt8) (d d' : UInt32),
    Harmless arena table (lookupTrace arena table turns node input d) →
    Harmless arena table (lookupTrace arena table turns node input d')
  | 0, _, _, _, _, h => h
  | turns + 1, node, input, d, d', h => by
    rw [lookupTrace] at h ⊢
    rcases lookupTurn_default table node input d d' with
      ⟨e, h1, h2⟩ | ⟨id, id', h1, h2⟩ | ⟨b, idx, rest, e, e', h1, h2⟩
    · rw [h1] at h
      rw [h2]
      exact h
    · rw [h2]
      exact ⟨by simp, by simp, by simp⟩
    rw [h1] at h
    rw [h2]
    dsimp only at h ⊢
    cases hn : arena[idx.toNat]? with
    | none =>
      rw [hn] at h
      exact h
    | some next =>
      rw [hn] at h
      rw [harmless_cons] at h ⊢
      exact ⟨h.1, harmless_default turns next rest e e' h.2⟩

variable {node : RouteNode} {n : BuilderNode} {j : Nat}

/-- **One turn.** A lookup is safe from a node exactly if the child it goes to, if any, is the
right one and the lookup is safe from there. -/
theorem safeFrom_iff {pfx input : List UInt8} (h : Reads table node pfx) :
    SafeFrom arena table node input ↔ ∀ b rest idx, input = pfx ++ b :: rest →
      node.findChildIdx b = some idx → Hop.Right arena table ⟨node, b, idx⟩
        ∧ ∀ next, arena[idx.toNat]? = some next → SafeFrom arena table next (b :: rest) := by
  constructor
  · rintro hs b rest idx rfl hf
    have ht := lookupTurn_child h hf rest 0
    have ho : ∀ turns, Harmless arena table
        (lookupTrace arena table (turns + 1) node (pfx ++ b :: rest) 0) := fun t => hs (t + 1) 0
    simp only [lookupTrace, ht, Option.elim] at ho
    cases hnx : arena[idx.toNat]? with
    | none =>
      rw [hnx] at ho
      exact absurd rfl (ho 0).2.2
    | some next =>
    rw [hnx] at ho
    simp only [harmless_cons] at ho
    refine ⟨(ho 0).1, ?_⟩
    rintro next' hn turns d
    obtain rfl := some.inj hn
    exact harmless_default turns next _ _ d (ho turns).2
  · intro hst turns d
    cases turns with
    | zero => exact ⟨by simp [lookupTrace], by simp [lookupTrace], by simp [lookupTrace]⟩
    | succ turns =>
    have hl : ∀ id, lookupTurn table node input d = .answer id →
        Harmless arena table (lookupTrace arena table (turns + 1) node input d) := by
      intro id ht
      rw [lookupTrace, ht]
      exact ⟨by simp, by simp, by simp⟩
    cases ha : after pfx input with
    | none => exact hl _ (lookupTurn_miss h ha d)
    | some rest =>
    obtain rfl := after_eq_some.mp ha
    cases rest with
    | nil => exact hl _ (by rw [append_nil]; exact lookupTurn_end h d)
    | cons b rest =>
    cases hf : node.findChildIdx b with
    | none => exact hl _ (lookupTurn_child h hf rest d)
    | some idx =>
    obtain ⟨hr, hs⟩ := hst b rest idx rfl hf
    have hi := hr
    obtain ⟨_, next, _, _, hnx, _⟩ := hi
    rw [lookupTrace, lookupTurn_child h hf rest d]
    simp only [hnx, Option.elim]
    exact harmless_cons.mpr ⟨hr, hs next hnx turns _⟩

/-! ## The laid-out tree -/

theorem BuilderMap.places_length (m : BuilderMap) : m.places.length = m.size := by
  rw [places, length_map, m.sortedKeys_perm.length_eq, m.size_eq]

/-- There are at most as many children as bytes. -/
theorem BuilderMap.size_le {m : BuilderMap} (h : m.Filed) : m.size ≤ 256 := by
  have hnd : m.places.Nodup := (sortedKeys_pairwise h).imp (fun hlt => Nat.ne_of_lt hlt)
  have hs : m.places.Subperm (range 256) := by
    refine hnd.subperm (fun k hk => ?_)
    obtain ⟨b, _, rfl⟩ := mem_map.mp hk
    exact mem_range.mpr b.toNat_lt
  simpa [places_length] using hs.length_le

/-- The table has the first byte of a fragment at the offset of its node. -/
theorem Laid.first_byte {b : UInt8} (h : Laid arena table n j) (hnd : arena[j]? = some node)
    (hh : n.pfx.head? = some b) :
    table[node.prefixOff.toNat]? = some b := by
  obtain ⟨hn, _, hs, _⟩ := h
  obtain rfl := some.inj (hnd.symm.trans hn)
  rw [← hs, head?_take] at hh
  split at hh
  · cases hh
  · rwa [head?_drop] at hh

/-- **A hop is right exactly if the key at the counted place is the byte.** -/
theorem Laid.right_iff (h : Laid arena table n j) (hnd : arena[j]? = some node) (hf : n.Filed)
    (b : UInt8) :
    Hop.Right arena table
        ⟨node, b, node.childIdx + UInt32.ofNat (place n.children.places b.toNat)⟩
      ↔ n.children.places[place n.children.places b.toNat]? = some b.toNat := by
  have hch := fun hat => h.child_at hnd (b := b) hat
  obtain ⟨hn, _, _, _, _, _, hnm, _, hkd⟩ := h
  obtain rfl := some.inj (hnd.symm.trans hn)
  have hc := filed_children hf
  have hs := size_le hc
  rw [← places_length] at hs hnm
  have hnum' : node.numChildren.toNat = n.children.places.length := by
    rw [hnm]
    exact UInt16.toNat_ofNat_of_lt' (show _ < 65536 by omega)
  constructor
  · rintro ⟨i, child, hi, hin, ha, hb⟩
    dsimp only at hi hin ha hb
    rw [hnum'] at hi
    -- the place is too small to wrap around the arena
    have hpi : place n.children.places b.toNat = i := by
      have hp : place n.children.places b.toNat < 512 := place_lt (sortedKeys_pairwise hc) b
      rw [UInt32.toNat_add, UInt32.toNat_ofNat_of_lt' (show _ < 2 ^ 32 by omega)] at hin
      omega
    obtain ⟨k, c, hk, hg, hkid⟩ := exists_kid (getElem?_eq_getElem hi)
    have hh := ((filed_iff.mp hc).2 _ c hg).1
    rw [hin] at ha
    have hkb := (hkd i c hkid).first_byte ha hh
    rw [hb, some.injEq] at hkb
    subst hkb
    rw [hpi, getElem?_eq_getElem hi, ← hk]
  · intro hat
    obtain ⟨c, hg, hkid, hin⟩ := hch hat
    have hh := ((filed_iff.mp hc).2 _ c hg).1
    obtain ⟨child, ha⟩ := (hkd _ c hkid).exists_node
    refine ⟨_, child, ?_, hin, ?_, (hkd _ c hkid).first_byte ha hh⟩
    · rw [hnum']
      exact (List.getElem?_eq_some_iff.mp hat).1
    · rw [hin]
      exact ha

/-- **Safe exactly on followable input.** The induction is over the laid-out tree. -/
theorem Laid.safeFrom_iff (h : Laid arena table n j) (ht : table.length < 2 ^ 32)
    (input : List UInt8) (hf : n.Filed) (hnd : arena[j]? = some node') :
    SafeFrom arena table node' input ↔ n.Followable input := by
  induction h generalizing input node' with
  | @mk n j node hn hft hsl hln hid hm hnm hix hk ih =>
  obtain rfl := some.inj (hn.symm.trans hnd)
  have hl : Laid arena table n j := Laid.mk hn hft hsl hln hid hm hnm hix hk
  have hcf := filed_children hf
  have hfn := hl.find_child hn hf
  -- where the counted place is right, the child there is safe exactly if it is followable
  have hd : ∀ {b : UInt8} (rest : List UInt8),
      n.children.places[place n.children.places b.toNat]? = some b.toNat →
      ∃ c child, n.children.get? b = some c
        ∧ arena[(node.childIdx
            + UInt32.ofNat (place n.children.places b.toNat)).toNat]? = some child
        ∧ (SafeFrom arena table child (b :: rest) ↔ c.Followable (b :: rest)) := by
    intro b rest hat
    obtain ⟨c, hg, hkd, hin⟩ := hl.child_at hn hat
    obtain ⟨child, hc⟩ := (hk _ c hkd).exists_node
    refine ⟨c, child, hg, by rw [hin]; exact hc, ?_⟩
    exact ih _ c hkd (b :: rest) ((filed_iff.mp hcf).2 b c hg).2 hc
  rw [Rah.Router.safeFrom_iff (hl.reads ht hn), BuilderNode.followable_iff]
  constructor
  · intro hst b rest hi hset
    obtain ⟨hr, hsf⟩ := hst b rest _ hi (by rw [hfn, if_pos hset])
    have hat := (hl.right_iff hn hf b).mp hr
    obtain ⟨c, child, hg, hc, hif⟩ := hd rest hat
    refine ⟨hat, fun c' hget' => ?_⟩
    obtain rfl := some.inj (hg.symm.trans hget')
    exact hif.mp (hsf child hc)
  · intro hfl b rest idx hi hs
    rw [hfn] at hs
    split at hs
    · rename_i hset
      obtain rfl := some.inj hs
      obtain ⟨hat, hch⟩ := hfl b rest hi hset
      obtain ⟨c, child, hg, hc, hif⟩ := hd rest hat
      refine ⟨(hl.right_iff hn hf b).mpr hat, fun next hnx => ?_⟩
      obtain rfl := some.inj (hc.symm.trans hnx)
      exact hif.mpr (hch c hg)
    · cases hs

end Safety

/-! ## Every history of additions -/

/-- What holds of the builder after any additions at all. -/
theorem filed_of_adds (adds : List (List UInt8 × UInt32)) :
    (adds.foldl (fun bn route => bn.add route.1 route.2) newBuilder).Filed
      ∧ (adds.foldl (fun bn route => bn.add route.1 route.2) newBuilder).bytes
        ≤ (adds.map (fun route => route.1.length)).sum := by
  induction adds using reverseRecOn with
  | nil => exact ⟨by simp [newBuilder, BuilderNode.Filed, BuilderMap.Filed], Nat.le_refl _⟩
  | append_singleton adds route ih =>
  rw [foldl_append, foldl_cons, foldl_nil]
  refine ⟨filed_add _ _ ih.1, ?_⟩
  have hb := bytes_add
    (adds.foldl (fun bn route => bn.add route.1 route.2) newBuilder) route.1 route.2
  simp only [map_append, map_cons, sum_append, sum_cons]
  omega

/-- **Baking preserves lookups.** After any additions of plain paths, under any ids, the lookup of
a query of such bytes goes through the places of the nodes that the walk over the builder tree
visits, in order, and returns what that walk does. -/
theorem lookup_visits (adds : List (List UInt8 × UInt32)) (hv : ∀ route ∈ adds, Plain route.1)
    (hsize : (adds.map (fun route => route.1.length)).sum < 2 ^ 32) (p : List UInt8)
    (hp : ∀ b ∈ p, b < 128) :
    let n := adds.foldl (fun bn route => bn.add route.1 route.2) newBuilder
    (publish n).lookup p = .ok (n.lookup p 0)
      ∧ Forall₂ (Laid (publish n).arena (publish n).table) (n.visits p)
        (0 :: ((publish n).trace (p.length + 2) p).1.map (·.index.toNat)) := by
  obtain ⟨hf, hb⟩ := filed_of_adds adds
  refine lookup_publish hf (foldlRecOn adds _ ?_ fun _ h route hr => plain_add _ h (hv route hr))
    (by omega) hp
  simp [newBuilder, BuilderNode.All, BuilderMap.All, Plain]

/-- The routes `/a` and `/b`, and the query `/b/c`: two nodes are visited, the arena's first and
its third. -/
theorem lookup_visits_second :
    ∃ arena table, Forall₂ (Laid arena table)
      (((newBuilder.add [47, 97] 1).add [47, 98] 2).visits [47, 98, 47, 99]) [0, 2] :=
  ⟨_, _, (lookup_visits [([47, 97], 1), ([47, 98], 2)] (by simp [Plain]) (by simp) [47, 98, 47, 99]
    (by simp)).2⟩

/-- A published tree: the lookup is safe exactly on followable queries. -/
theorem publish_safe_iff (hf : n.Filed) (hb : n.bytes < 2 ^ 32) (p : List UInt8) :
    (publish n).LookupSafe p ↔ n.Followable p := by
  obtain ⟨hl, ht⟩ := bakeToArena_laid hf hb (count_lt hf hb)
  obtain ⟨root, hr⟩ := hl.exists_node
  rw [← hl.safeFrom_iff ht p hf hr]
  unfold LookupSafe SafeFrom
  simp only [trace_publish hr]
  exact ⟨fun h turns d => harmless_default turns root p 0 d (h turns), fun h turns => h turns 0⟩

/-- On an empty tree there is nothing to follow. -/
theorem followable_newBuilder (p : List UInt8) : newBuilder.Followable p := by
  rw [BuilderNode.followable_iff]
  intro b rest _ hm
  exact absurd hm (by simp [newBuilder, children, places, sortedKeys, BuilderMap.keys])

/-- **Lookup on arbitrary bytes.** Whatever was added - any bytes, empty paths, any ids - as long
as the path bytes fit the 32-bit prefix table, the lookup of any query stays inside arena and
table and goes to the child of the next byte at every step, if and only if the query is
followable. -/
theorem lookupSafe_iff_followable (ops : List Op)
    (hsize : ((history ops).map (fun route => route.1.length)).sum < 2 ^ 32) (p : List UInt8) :
    (run ops).LookupSafe p ↔ (run ops).builder.Followable p := by
  obtain ⟨hf, hb⟩ := filed_of_adds (history ops)
  rw [← run_builder] at hf hb
  by_cases ho : ops = []
  · -- no write yet: there is no arena to read
    subst ho
    refine iff_of_true (fun turns => ?_) (followable_newBuilder p)
    simp [Harmless, run, new, trace]
  · rw [run_published ho]
    exact publish_safe_iff hf (by omega) p

/-- The routes `/a` and `/b`, and the query `/\xc3\xa9`: the bit tested for the byte 195 is that
of the key 67, which no route has, so the lookup stops there. -/
theorem lookupSafe_unused_bit :
    (run [.add [47, 97] 1, .add [47, 98] 2]).LookupSafe [47, 195, 169] := by
  refine (lookupSafe_iff_followable _ (by simp [history, Op.adds]) _).mpr ?_
  rw [BuilderNode.followable_iff]
  intro b rest hinput hset
  obtain ⟨rfl, rfl⟩ := cons.inj (cons.inj hinput).2
  exact absurd hset (by decide)

/-- **A query byte from 128 on leaves the arena.** With the routes `a/` and `aa`, the query
`a\xa1` tests the bit of `a`, counts the low key `/` twice, and reads index 3 of an arena of
three nodes. -/
theorem lookup_leaves_arena : ¬ ∀ (ops : List Op) (p : List UInt8), (run ops).LookupSafe p := by
  intro ha
  have hf : ((run [.add [97, 47] 1, .add [97, 97] 2]).trace 3 [97, 161]).2
      = .error .indexOutOfRange := by decide
  exact (ha [.add [97, 47] 1, .add [97, 97] 2] [97, 161] 3).2.2 hf

end Rah.Router
