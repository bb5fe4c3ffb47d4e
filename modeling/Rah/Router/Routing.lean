import Rah.Router.Bake

/-!
# What the router answers

The abstract router is a list of additions, and a query goes to the longest added
route that is the whole query or a prefix of it up to a slash. `RoutesTo` states
this without mentioning trees or arenas.

The router meets it except on one kind of query: one that ends exactly where two
longer routes part, without being a route itself, although a shorter route covers it.
There the tree has a split node without an api, and the lookup returns that node's
`0` instead of what it had found on the way. `lookup_routesTo_iff` is the exact
statement, for every history of additions whose paths fit the 32-bit prefix table.
-/

namespace Rah.Router

open List BuilderNode
open BuilderMap (addAt size)
open RahRouter (new publish trace)

/-- A write to the router. -/
inductive Op where
  | add (path : List UInt8) (apiId : UInt32)
  /-- The entries of the map in the order they are ranged over. -/
  | addMany (routes : List (List UInt8 × UInt32))

/-- The additions a write makes, in order. -/
def Op.adds : Op → List (List UInt8 × UInt32)
  | .add path apiId => [(path, apiId)]
  | .addMany routes => routes

def RahRouter.apply (r : RahRouter) : Op → RahRouter
  | .add path apiId => r.add path apiId
  | .addMany routes => r.addMany routes

/-- The router after a sequence of writes. -/
def run (ops : List Op) : RahRouter := ops.foldl RahRouter.apply new

/-- All additions of a history, oldest first. -/
def history (ops : List Op) : List (List UInt8 × UInt32) := (ops.map Op.adds).flatten

/-- A route that can be registered: a non-empty ASCII path below 64 KiB with an api. -/
def ValidRoute (route : List UInt8 × UInt32) : Prop :=
  route.1 ≠ [] ∧ Plain route.1 ∧ route.2 ≠ 0

/-- Valid writes. A map has each key once. -/
def Op.Valid (op : Op) : Prop :=
  (∀ route ∈ op.adds, ValidRoute route) ∧ (op.adds.map Prod.fst).Nodup

/-- The id most recently added for a route. -/
def lastAdded (adds : List (List UInt8 × UInt32)) (r : List UInt8) : Option UInt32 :=
  (adds.reverse.find? (fun route => decide (route.1 = r))).map Prod.snd

/-- The route covers the query: all of it, or a part that a slash follows. -/
def Covers (r p : List UInt8) : Prop := p = r ∨ ∃ rest, p = r ++ slash :: rest

/-- `id` is the api of the longest registered route that covers `p`, `0` for none. -/
def RoutesTo (adds : List (List UInt8 × UInt32)) (p : List UInt8) (id : UInt32) : Prop :=
  (∃ r, Covers r p ∧ lastAdded adds r = some id
      ∧ ∀ r', Covers r' p → lastAdded adds r' ≠ none → r'.length ≤ r.length)
    ∨ (id = 0 ∧ ∀ r, Covers r p → lastAdded adds r = none)

/-- The query ends where longer routes part, is no route itself, and is covered by one. -/
def StopsOnSplit (adds : List (List UInt8 × UInt32)) (p : List UInt8) : Prop :=
  lastAdded adds p = none
    ∧ (∃ b₁ r₁ b₂ r₂, b₁ ≠ b₂ ∧ lastAdded adds (p ++ b₁ :: r₁) ≠ none
        ∧ lastAdded adds (p ++ b₂ :: r₂) ≠ none)
    ∧ ∃ r, Covers r p ∧ lastAdded adds r ≠ none

/-! ## The builder after a history -/

/-- The builder is what the additions made of an empty one. -/
theorem run_builder (ops : List Op) :
    (run ops).builder
      = (history ops).foldl (fun bn route => bn.add route.1 route.2) newBuilder := by
  have hgen : ∀ (ops : List Op) (r : RahRouter), (ops.foldl RahRouter.apply r).builder
      = (history ops).foldl (fun bn route => bn.add route.1 route.2) r.builder := by
    intro ops
    induction ops with
    | nil => intro r; rfl
    | cons op ops ih =>
    intro r
    rw [foldl_cons, ih]
    have hone : (r.apply op).builder
        = op.adds.foldl (fun bn route => bn.add route.1 route.2) r.builder := by
      cases op <;> rfl
    rw [hone, history, history, map_cons, flatten_cons, foldl_append]
  exact hgen ops new

/-- After any write the snapshot is the baked builder. -/
theorem run_published (h : ops ≠ []) : run ops = publish (run ops).builder := by
  obtain ⟨op, ops', rfl⟩ : ∃ op ops', ops = ops' ++ [op] :=
    ⟨ops.getLast h, ops.dropLast, (dropLast_append_getLast h).symm⟩
  unfold run
  rw [foldl_append]
  cases op <;> rfl

mutual

theorem BuilderNode.bytes_add : ∀ (n : BuilderNode) (path : List UInt8) (id : UInt32),
    (n.add path id).bytes ≤ n.bytes + path.length
  | .mk pfx apiId children, path, id => by
    obtain ⟨_, _, he⟩ | ⟨common, s, suffix, b, tail, _, rfl, rfl, he⟩ | ⟨s, suffix, rfl, he⟩
      | ⟨b, tail, rfl, he⟩ | ⟨_, he⟩ := add_cases pfx path apiId id children
    all_goals simp only [he, bytes, BuilderMap.bytes, length_append, length_cons]
    case inr.inr.inr.inl =>
      have := BuilderMap.bytes_addAt children b (b :: tail) id
      rw [length_cons] at this
      omega
    all_goals omega

theorem BuilderMap.bytes_addAt : ∀ (m : BuilderMap) (b : UInt8) (path : List UInt8) (id : UInt32),
    (m.addAt b path id).bytes ≤ m.bytes + path.length
  | .nil, b, path, id => by simp [addAt, BuilderMap.bytes, bytes]
  | .cons key child rest, b, path, id => by
    rw [addAt]
    by_cases h : key = b
    · have := BuilderNode.bytes_add child path id
      rw [if_pos h, BuilderMap.bytes, BuilderMap.bytes]
      omega
    · have := BuilderMap.bytes_addAt rest b path id
      rw [if_neg h, BuilderMap.bytes, BuilderMap.bytes]
      omega

end

variable {p r : List UInt8} {adds : List (List UInt8 × UInt32)}

theorem Plain.of_append (h : Plain (p ++ r)) : Plain p ∧ Plain r := by
  obtain ⟨hl, hb⟩ := h
  rw [length_append] at hl
  rw [forall_mem_append] at hb
  exact ⟨⟨by omega, hb.1⟩, by omega, hb.2⟩

mutual

theorem BuilderNode.plain_add : ∀ {n : BuilderNode} {path : List UInt8} (id : UInt32),
    n.All Plain → Plain path → (n.add path id).All Plain
  | .mk pfx apiId children, path, id, hn, hp => by
    obtain ⟨_, _, he⟩ | ⟨common, s, suffix, b, tail, _, rfl, rfl, he⟩ | ⟨s, suffix, rfl, he⟩
      | ⟨b, tail, rfl, he⟩ | ⟨_, he⟩ := add_cases pfx path apiId id children
    all_goals rw [he]
    · exact ⟨hp, hn.2⟩
    · exact ⟨hp.of_append.1, ⟨hn.1.of_append.2, hn.2⟩, ⟨hp.of_append.2, trivial⟩, trivial⟩
    · exact ⟨hp, ⟨hn.1.of_append.2, hn.2⟩, trivial⟩
    · exact ⟨hn.1, BuilderMap.plain_addAt b id hn.2 hp.of_append.2⟩
    · exact hn

theorem BuilderMap.plain_addAt : ∀ {m : BuilderMap} (b : UInt8) {path : List UInt8} (id : UInt32),
    m.All Plain → Plain path → (m.addAt b path id).All Plain
  | .nil, b, path, id, _, hp => by
    exact ⟨⟨hp, trivial⟩, trivial⟩
  | .cons key child rest, b, path, id, hm, hp => by
    rw [addAt]
    split
    · exact ⟨BuilderNode.plain_add id hm.1 hp, hm.2⟩
    · exact ⟨hm.1, BuilderMap.plain_addAt b id hm.2 hp⟩

end

mutual

/-- Below the root every node has a byte of its own. -/
theorem BuilderNode.count_le : ∀ {n : BuilderNode}, n.Filed → n.count ≤ n.children.bytes + 1
  | .mk pfx apiId children, h => by
    rw [BuilderNode.count]
    have := BuilderMap.count_le h
    simp only [BuilderNode.children]
    omega

theorem BuilderMap.count_le : ∀ {m : BuilderMap}, m.Filed → m.count ≤ m.bytes
  | .nil, _ => by simp [BuilderMap.count]
  | .cons key child rest, h => by
    have h1 := BuilderNode.count_le h.2.2.1
    have h2 := BuilderMap.count_le h.2.2.2
    have h3 : child.pfx ≠ [] := by intro he; have := h.1; rw [he] at this; simp at this
    have h4 := length_pos_iff.mpr h3
    rw [BuilderMap.count, BuilderMap.bytes, child.bytes_eq]
    omega

end

/-- The map a list of additions denotes, `0` for absent. -/
def idOf (adds : List (List UInt8 × UInt32)) (r : List UInt8) : UInt32 :=
  (lastAdded adds r).getD 0

theorem lastAdded_snoc :
    lastAdded (adds ++ [route]) r = if r = route.1 then some route.2 else lastAdded adds r := by
  unfold lastAdded
  rw [reverse_append, reverse_singleton, singleton_append, find?_cons]
  by_cases h : r = route.1
  · rw [if_pos h, decide_eq_true h.symm]
    rfl
  · rw [if_neg h, decide_eq_false (Ne.symm h)]

theorem lastAdded_ne_zero (hv : ∀ route ∈ adds, ValidRoute route) : lastAdded adds r ≠ some 0 := by
  intro h
  obtain ⟨route, hf, hid⟩ := Option.map_eq_some_iff.mp h
  exact (hv route (mem_reverse.mp (mem_of_find?_eq_some hf))).2.2 hid

theorem idOf_ne_zero_iff
    (hv : ∀ route ∈ adds, ValidRoute route) : idOf adds r ≠ 0 ↔ lastAdded adds r ≠ none := by
  unfold idOf
  cases h : lastAdded adds r with
  | none => simp
  | some id =>
    simp only [ne_eq, reduceCtorEq, not_false_eq_true, iff_true]
    rintro rfl
    exact lastAdded_ne_zero hv h

/-- What holds of the builder once something was added. -/
structure Built (adds : List (List UInt8 × UInt32)) (n : BuilderNode) : Prop where
  ok : n.Ok
  plain : n.All Plain
  started : n.pfx ≠ [] ∨ n.children.size ≠ 0
  bytes : n.bytes ≤ (adds.map (fun route => route.1.length)).sum
  find : ∀ q, n.find q = idOf adds q

/-- **The builder holds the additions.** -/
theorem built_of_adds : ∀ {adds : List (List UInt8 × UInt32)}, adds ≠ [] →
    (∀ route ∈ adds, ValidRoute route) →
    Built adds (adds.foldl (fun bn route => bn.add route.1 route.2) newBuilder) := by
  intro adds
  induction adds using reverseRecOn with
  | nil => intro h; exact absurd rfl h
  | append_singleton adds route ih =>
  intro _ hv
  obtain ⟨hne, hp, hid⟩ := hv route (by simp)
  rw [foldl_append, foldl_cons, foldl_nil]
  by_cases ha : adds = []
  · subst ha
    have hnw : newBuilder.add route.1 route.2 = .mk route.1 route.2 .nil := by
      simp [newBuilder, add, size]
    rw [foldl_nil, hnw]
    refine ⟨?_, ?_, .inl hne, ?_, ?_⟩
    · simp only [Ok, BuilderMap.Ok, and_true]
      exact fun h => absurd h hid
    · simp only [All, BuilderMap.All, and_true]
      exact hp
    · simp [bytes, BuilderMap.bytes]
    · intro q
      rw [find_leaf, idOf, lastAdded_snoc]
      by_cases hq : q = route.1 <;> simp [hq, lastAdded]
  · have hb := ih ha (fun r hr => hv r (by simp [hr]))
    refine ⟨ok_add hb.ok hb.started hid, plain_add _ hb.plain hp, ?_, ?_, ?_⟩
    · -- the new path is found, so the tree is not the empty one
      by_contra hc
      rw [not_or, not_not] at hc
      have hf : (add _ route.1 route.2).find route.1 = _ := find_add hb.ok hb.started route.1
      rw [if_pos rfl] at hf
      generalize hn : (foldl (fun bn route => bn.add route.1 route.2) newBuilder adds).add
        route.1 route.2 = n at hc hf
      obtain ⟨pfx, apiId, children⟩ := n
      simp only [BuilderNode.children] at hc
      obtain ⟨rfl, hs⟩ := hc
      cases children with
      | cons key child rest => simp [size] at hs
      | nil =>
        rw [find_leaf, if_neg hne] at hf
        exact hid hf.symm
    · have := bytes_add
        (adds.foldl (fun bn route => bn.add route.1 route.2) newBuilder) route.1 route.2
      have := hb.bytes
      simp only [map_append, map_cons, sum_append, sum_cons]
      omega
    · intro q
      rw [find_add hb.ok hb.started q, hb.find q, idOf, idOf, lastAdded_snoc]
      by_cases hq : q = route.1 <;> simp [hq]

/-! ## Lookup against the routes -/

theorem atBoundary_iff : atBoundary rest ↔ rest = [] ∨ ∃ tail, rest = slash :: tail := by
  cases rest with
  | nil | cons b tail => simp [atBoundary]

section

variable (hv : ∀ route ∈ adds, ValidRoute route)
include hv

theorem matches_iff_covers : Matches (idOf adds) p r ↔ Covers r p ∧ lastAdded adds r ≠ none := by
  unfold Matches Covers
  rw [idOf_ne_zero_iff hv, and_comm]
  refine and_congr_left (fun _ => ?_)
  constructor
  · rintro ⟨rest, rfl, hb⟩
    rcases atBoundary_iff.mp hb with rfl | ⟨tail, rfl⟩
    · exact .inl (append_nil r)
    · exact .inr ⟨tail, rfl⟩
  · rintro (rfl | ⟨tail, rfl⟩)
    · exact ⟨[], (append_nil p).symm, rfl⟩
    · exact ⟨slash :: tail, rfl, atBoundary_iff.mpr (.inr ⟨tail, rfl⟩)⟩

theorem longest_iff_routesTo {id : UInt32} : Longest (idOf adds) p 0 id ↔ RoutesTo adds p id := by
  unfold Longest RoutesTo
  simp only [matches_iff_covers hv, not_and, not_not]
  refine or_congr ?_ and_comm
  constructor
  · rintro ⟨r, ⟨hc, hr⟩, rfl, hm⟩
    obtain ⟨id, hid⟩ := Option.ne_none_iff_exists'.mp hr
    exact ⟨r, hc, by rw [idOf, hid]; rfl, fun r' h1 h2 => hm r' ⟨h1, h2⟩⟩
  · rintro ⟨r, hc, hr, hm⟩
    exact ⟨r, ⟨hc, by rw [hr]; simp⟩, by rw [idOf, hr]; rfl, fun r' h => hm r' h.1 h.2⟩

theorem branchPoint_iff :
    BranchPoint (idOf adds) p ↔ ∃ b₁ r₁ b₂ r₂, b₁ ≠ b₂ ∧ lastAdded adds (p ++ b₁ :: r₁) ≠ none
      ∧ lastAdded adds (p ++ b₂ :: r₂) ≠ none := by
  unfold BranchPoint
  simp only [idOf_ne_zero_iff hv]

end

/-- The nodes of a tree fit the arena if its bytes fit the table. -/
theorem BuilderNode.count_lt {n : BuilderNode} (hf : n.Filed) (hb : n.bytes < 2 ^ 32) :
    n.count ≤ 2 ^ 32 := by
  have := count_le hf
  rw [n.bytes_eq] at hb
  omega

/-- Readers start at the root of the published tree. -/
theorem trace_publish (hr : n.bakeToArena.1[0]? = some root) (turns : Nat) (p : List UInt8) :
    (publish n).trace turns p
      = lookupTrace n.bakeToArena.1 n.bakeToArena.2 turns root p 0 := by
  unfold trace publish
  cases ha : n.bakeToArena.1 with
  | nil => simp [ha] at hr
  | cons first more =>
    rw [ha] at hr
    cases hr
    rfl

/-- The lookup on a published tree is the walk over the tree. -/
theorem lookup_publish (hf : n.Filed) (hpl : n.All Plain) (hb : n.bytes < 2 ^ 32)
    (hp : ∀ b ∈ p, b < 128) :
    (publish n).lookup p = .ok (n.lookup p 0)
      ∧ Forall₂ (Laid (publish n).arena (publish n).table) (n.visits p)
        (0 :: ((publish n).trace (p.length + 2) p).1.map (·.index.toNat)) := by
  obtain ⟨hl, ht⟩ := bakeToArena_laid hf hb (count_lt hf hb)
  obtain ⟨root, hr⟩ := hl.exists_node
  rw [← RahRouter.trace_snd, trace_publish hr]
  exact hl.lookup_eq ht _ _ hf hpl hr hp (by omega) (fun _ => by omega)

/-- **Longest-segment-prefix routing, and where it fails.**

For every history of valid writes whose path bytes fit 32 bits and every ASCII query,
the lookup returns, and its answer is the api of the longest covering route if and only
if the query does not stop on a split node. -/
theorem lookup_routesTo_iff (ops : List Op) (hv : ∀ op ∈ ops, op.Valid)
    (hsize : ((history ops).map (fun route => route.1.length)).sum < 2 ^ 32)
    (p : List UInt8) (hp : ∀ b ∈ p, b < 128) :
    ∃ id, (run ops).lookup p = .ok id
      ∧ (RoutesTo (history ops) p id ↔ ¬ StopsOnSplit (history ops) p) := by
  have hrt : ∀ route ∈ history ops, ValidRoute route := by
    intro route hr
    obtain ⟨adds, ha, hr⟩ := mem_flatten.mp hr
    obtain ⟨op, hop, rfl⟩ := mem_map.mp ha
    exact (hv op hop).1 route hr
  by_cases he : history ops = []
  · -- nothing was ever added
    have hn : ∀ r, lastAdded (history ops) r = none := by intro r; rw [he]; rfl
    refine ⟨0, ?_, ?_⟩
    · by_cases hops : ops = []
      · subst hops; rfl
      have hbl := run_builder ops
      rw [he] at hbl
      rw [run_published hops, hbl]
      rw [(lookup_publish (by simp [newBuilder, Filed, BuilderMap.Filed])
        (by simp [newBuilder, All, BuilderMap.All, Plain])
        (by simp [newBuilder, bytes, BuilderMap.bytes]) hp).1]
      cases p <;> simp [newBuilder, BuilderNode.lookup, BuilderMap.lookup, after]
    · refine iff_of_true (.inr ⟨rfl, fun r _ => hn r⟩) ?_
      rintro ⟨_, _, r, _, hr⟩
      exact hr (hn r)
  · have hops : ops ≠ [] := by rintro rfl; exact he rfl
    have hb := built_of_adds he hrt
    rw [← run_builder] at hb
    rw [run_published hops]
    refine ⟨_, (lookup_publish hb.ok.filed hb.plain (Nat.lt_of_le_of_lt hb.bytes hsize) hp).1, ?_⟩
    have hf : (run ops).builder.find = idOf (history ops) := funext hb.find
    have hsp := splitAt_iff (q := p) hb.ok
    rw [hf, branchPoint_iff hrt] at hsp
    have hsl : idOf (history ops) p = 0 ↔ lastAdded (history ops) p = none := by
      rw [← not_iff_not, ← ne_eq, idOf_ne_zero_iff hrt]
    rw [hsl] at hsp
    by_cases hs : (run ops).builder.SplitAt p
    · -- the walk answers `0`: right only if nothing covers the query
      rw [lookup_of_splitAt hs]
      obtain ⟨hnot, hbr⟩ := hsp.mp hs
      constructor
      · rintro (⟨r, hc, hr, _⟩ | ⟨_, hn⟩) ⟨_, _, r', hc', hr'⟩
        · exact lastAdded_ne_zero hrt hr
        · exact hr' (hn r' hc')
      · intro hns
        refine .inr ⟨rfl, fun r hc => ?_⟩
        by_contra hr
        exact hns ⟨hnot, hbr, r, hc, hr⟩
    · have hl := lookup_longest (d := 0) hb.ok hs
      rw [hf, longest_iff_routesTo hrt] at hl
      refine iff_of_true hl ?_
      rintro ⟨hnot, hbr, _⟩
      exact hs (hsp.mpr ⟨hnot, hbr⟩)

/-- The theorem at work: routes `/a` and `/a/b`, query `/a/c`. -/
theorem lookup_sibling_query :
    ∃ id, (run [.add [47, 97] 1, .add [47, 97, 47, 98] 2]).lookup [47, 97, 47, 99] = .ok id
      ∧ (RoutesTo (history [.add [47, 97] 1, .add [47, 97, 47, 98] 2]) [47, 97, 47, 99] id
        ↔ ¬ StopsOnSplit (history [.add [47, 97] 1, .add [47, 97, 47, 98] 2]) [47, 97, 47, 99]) :=
  lookup_routesTo_iff _
    (by simp [Op.Valid, Op.adds, ValidRoute, Plain])
    (by simp [history, Op.adds]) _ (by simp)

/-- **A query that stops on a split node loses its route.** With the routes `/a`, `/a/bc`
and `/a/bd`, the query `/a/b` is below `/a`; the lookup answers `0`. -/
theorem lookup_loses_route_on_split :
    ¬ ∀ (ops : List Op), (∀ op ∈ ops, op.Valid) → ∀ p : List UInt8, (∀ b ∈ p, b < 128) →
      ∃ id, (run ops).lookup p = .ok id ∧ RoutesTo (history ops) p id := by
  intro hal
  obtain ⟨id, hid, hrt⟩ := hal
    [.add [47, 97] 1, .add [47, 97, 47, 98, 99] 2, .add [47, 97, 47, 98, 100] 3]
    (by simp [Op.Valid, Op.adds, ValidRoute, Plain]) [47, 97, 47, 98] (by simp)
  have hz : (run [.add [47, 97] 1, .add [47, 97, 47, 98, 99] 2,
      .add [47, 97, 47, 98, 100] 3]).lookup [47, 97, 47, 98] = .ok 0 := by decide
  rw [hz, Except.ok.injEq] at hid
  subst hid
  rcases hrt with ⟨r, _, hr, _⟩ | ⟨_, hn⟩
  · -- no route was added with the id `0`
    exact lastAdded_ne_zero (by simp [history, Op.adds, ValidRoute, Plain]) hr
  · have ha := hn [47, 97] (.inr ⟨[98], rfl⟩)
    cases ha

end Rah.Router
