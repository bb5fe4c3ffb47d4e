import Rah.Router.Tree

/-!
# Longest-prefix search on the builder tree

The reader's loop, written over the builder tree instead of the arena. It keeps
the api of the last node that ended at a segment boundary and answers with it when
the walk leaves the tree.

The walk ends early when the input is used up: it then answers with the api of the
node it stands on, whatever it had found before. At a node that a split left
behind that answer is `0`. `SplitAt` names those inputs; for every other input the
walk finds the longest route (`lookup_longest`), and `splitAt_iff` says which inputs
they are in terms of the routes alone.
-/

namespace Rah.Router

open List
open BuilderMap (find_eq_get? get? ok_iff size)
open BuilderNode (byChild)

mutual

/-- The lookup loop over the tree. -/
def BuilderNode.lookup : BuilderNode → List UInt8 → UInt32 → UInt32
  | .mk pfx apiId children, input, longestMatch =>
    match after pfx input with
    | none => longestMatch
    | some [] => apiId
    | some (b :: rest) =>
      children.lookup b (b :: rest)
        (if apiId ≠ 0 ∧ atBoundary (b :: rest) then apiId else longestMatch)

def BuilderMap.lookup : BuilderMap → UInt8 → List UInt8 → UInt32 → UInt32
  | .nil, _, _, longestMatch => longestMatch
  | .cons key child rest, b, input, longestMatch =>
    if key = b then child.lookup input longestMatch else rest.lookup b input longestMatch

end

mutual

/-- The nodes that `lookup` visits, in their order. -/
def BuilderNode.visits : BuilderNode → List UInt8 → List BuilderNode
  | .mk pfx apiId children, input =>
    .mk pfx apiId children :: match after pfx input with
      | some (b :: rest) => children.visits b (b :: rest)
      | _ => []

def BuilderMap.visits : BuilderMap → UInt8 → List UInt8 → List BuilderNode
  | .nil, _, _ => []
  | .cons key child rest, b, input =>
    if key = b then child.visits input else rest.visits b input

end

mutual

/-- The input ends exactly at a node that holds no api. -/
def BuilderNode.SplitAt : BuilderNode → List UInt8 → Prop
  | .mk pfx apiId children, input =>
    match after pfx input with
    | none => False
    | some [] => apiId = 0
    | some (b :: rest) => children.SplitAt b (b :: rest)

def BuilderMap.SplitAt : BuilderMap → UInt8 → List UInt8 → Prop
  | .nil, _, _ => False
  | .cons key child rest, b, input =>
    if key = b then child.SplitAt input else rest.SplitAt b input

end

/-- `p` is a registered path that ends at a segment boundary of the input. -/
def Matches (f : List UInt8 → UInt32) (input p : List UInt8) : Prop :=
  f p ≠ 0 ∧ ∃ rest, input = p ++ rest ∧ atBoundary rest

/-- `r` is the api of the longest match, and `dflt` when nothing matches. -/
def Longest (f : List UInt8 → UInt32) (input : List UInt8) (dflt r : UInt32) : Prop :=
  (∃ p, Matches f input p ∧ r = f p ∧ ∀ p', Matches f input p' → p'.length ≤ p.length)
    ∨ ((∀ p, ¬ Matches f input p) ∧ r = dflt)

theorem BuilderMap.lookup_eq_get? :
    ∀ {m : BuilderMap} {b : UInt8} {input : List UInt8} {d : UInt32},
    m.lookup b input d = match m.get? b with | none => d | some child => child.lookup input d
  | .nil, _, _, _ => by rw [BuilderMap.lookup, get?]
  | .cons key child rest, b, input, d => by
    rw [BuilderMap.lookup, get?]
    by_cases h : key = b
    · rw [if_pos h, if_pos h]
    · rw [if_neg h, if_neg h]
      exact BuilderMap.lookup_eq_get?

theorem BuilderMap.visits_eq_get? : ∀ {m : BuilderMap} {b : UInt8} {input : List UInt8},
    m.visits b input = (m.get? b).elim [] (·.visits input)
  | .nil, _, _ => rfl
  | .cons key child rest, b, input => by
    rw [BuilderMap.visits, get?]
    split
    · rfl
    · exact BuilderMap.visits_eq_get?

theorem BuilderMap.splitAt_iff_get? : ∀ {m : BuilderMap} {b : UInt8} {input : List UInt8},
    m.SplitAt b input ↔ ∃ child, m.get? b = some child ∧ child.SplitAt input
  | .nil, _, _ => by simp [BuilderMap.SplitAt, get?]
  | .cons key child rest, b, input => by
    rw [BuilderMap.SplitAt, get?]
    by_cases h : key = b
    · simp [h]
    · rw [if_neg h, if_neg h]
      exact BuilderMap.splitAt_iff_get?

/-- A child holds only paths that start with its key. -/
theorem BuilderNode.head_of_find {n : BuilderNode} {q : List UInt8} (hh : n.pfx.head? = some b)
    (hq : n.find q ≠ 0) : ∃ r, q = b :: r := by
  obtain ⟨pfx, apiId, children⟩ := n
  cases pfx with
  | nil => cases hh
  | cons a pfx =>
    by_contra hne
    refine hq (find_mk_of_ne fun r he => hne ⟨pfx ++ r, ?_⟩)
    rw [he, cons_append, Option.some.inj hh]

/-- What a child holds, its parent holds below its own fragment. -/
theorem BuilderNode.find_child {pfx q : List UInt8} {apiId : UInt32} {children : BuilderMap}
    (hok : children.Ok) (hg : children.get? b = some child) (hq : child.find q ≠ 0) :
    (mk pfx apiId children).find (pfx ++ q) = child.find q := by
  obtain ⟨r, rfl⟩ := head_of_find ((ok_iff.mp hok).2 b child hg).1 hq
  rw [find_mk_append]
  dsimp only
  rw [find_eq_get?, hg]

/-! ## The walk finds the longest route -/

/-- Matches below a node: the node itself, or a match of the child the input goes on with. -/
theorem matches_mk {tail : List UInt8} (hok : children.Ok) :
    Matches (BuilderNode.mk pfx apiId children).find (pfx ++ b :: tail) p ↔
      (p = pfx ∧ apiId ≠ 0 ∧ atBoundary (b :: tail)) ∨
      ∃ child q, p = pfx ++ q ∧ children.get? b = some child
        ∧ Matches child.find (b :: tail) q := by
  constructor
  · rintro ⟨hf, more, he, hb⟩
    by_cases hp : ∃ q, p = pfx ++ q
    · obtain ⟨q, rfl⟩ := hp
      rw [append_assoc, append_cancel_left_eq] at he
      rw [BuilderNode.find_mk_append] at hf
      cases q with
      | nil => exact .inl ⟨append_nil _, hf, he ▸ hb⟩
      | cons c q =>
      obtain ⟨rfl, rfl⟩ := cons.inj he
      dsimp only at hf
      rw [find_eq_get?] at hf
      cases hg : children.get? b with
      | none => rw [hg] at hf; exact absurd rfl hf
      | some child =>
        rw [hg] at hf
        exact .inr ⟨child, b :: q, rfl, rfl, hf, more, rfl, hb⟩
    · exact absurd (BuilderNode.find_mk_of_ne (not_exists.mp hp)) hf
  · rintro (⟨rfl, hid, hb⟩ | ⟨child, q, rfl, hg, hf, more, he, hb⟩)
    · exact ⟨BuilderNode.find_self ▸ hid, _, rfl, hb⟩
    · refine ⟨?_, more, by rw [he, append_assoc], hb⟩
      rw [BuilderNode.find_child hok hg hf]
      exact hf

/-- **The tree walk is longest-prefix search**, as long as it does not stop on a split node. -/
theorem BuilderNode.lookup_longest {n : BuilderNode} {input : List UInt8} {d : UInt32} :
    n.Ok → ¬ n.SplitAt input → Longest n.find input d (n.lookup input d) := by
  induction n using byChild generalizing input d with
  | step pfx apiId children ih =>
  intro hok hns
  rw [lookup]
  rw [SplitAt] at hns
  cases ha : after pfx input with
  | none =>
    -- the input leaves the tree inside this fragment: nothing below matches
    refine .inr ⟨?_, rfl⟩
    rintro p ⟨hf, rest, he, _⟩
    refine hf (find_mk_of_ne (fun q hp => ?_))
    exact after_eq_none.mp ha (q ++ rest) (by rw [he, hp, append_assoc])
  | some rest =>
  rw [ha] at hns
  obtain rfl := after_eq_some.mp ha
  cases rest with
  | nil =>
    -- exact match: this node is the longest candidate
    refine .inl ⟨pfx, ⟨find_self ▸ hns, [], rfl, rfl⟩, find_self.symm, ?_⟩
    rintro p' ⟨_, more, he, _⟩
    have := congrArg length he
    rw [append_nil, length_append] at this
    omega
  | cons b tail =>
    have hnn : (∀ child q, children.get? b = some child → ¬ Matches child.find (b :: tail) q) →
        Longest (mk pfx apiId children).find (pfx ++ b :: tail) d
          (if apiId ≠ 0 ∧ atBoundary (b :: tail) then apiId else d) := by
      intro hn
      by_cases hs : apiId ≠ 0 ∧ atBoundary (b :: tail)
      · refine .inl ⟨pfx, (matches_mk hok.2).mpr (.inl ⟨rfl, hs⟩), ?_, fun p hp => ?_⟩
        · rw [find_self, if_pos hs]
        rcases (matches_mk hok.2).mp hp with ⟨rfl, _⟩ | ⟨child, q, _, hg, hm⟩
        · exact Nat.le_refl _
        · exact absurd hm (hn child q hg)
      · refine .inr ⟨fun p hp => ?_, if_neg hs⟩
        rcases (matches_mk hok.2).mp hp with ⟨_, h⟩ | ⟨child, q, _, hg, hm⟩
        · exact hs h
        · exact hn child q hg hm
    dsimp only at hns ⊢
    rw [BuilderMap.splitAt_iff_get?] at hns
    rw [BuilderMap.lookup_eq_get?]
    cases hg : children.get? b with
    | none => exact hnn fun child q h => nomatch hg.symm.trans h
    | some child =>
    have hc := ((ok_iff.mp hok.2).2 b child hg).2
    rcases ih b child hg hc (fun hs => hns ⟨child, hg, hs⟩) with ⟨q, hm, hr, hmx⟩ | ⟨hn, hr⟩
    · refine .inl ⟨pfx ++ q, (matches_mk hok.2).mpr (.inr ⟨child, q, rfl, hg, hm⟩), ?_,
        fun p hp => ?_⟩
      · rw [find_child hok.2 hg hm.1]
        exact hr
      rcases (matches_mk hok.2).mp hp with ⟨rfl, _⟩ | ⟨c, q', rfl, hg', hm'⟩
      · simp
      · obtain rfl := Option.some.inj (hg.symm.trans hg')
        simpa using hmx q' hm'
    · dsimp only
      rw [hr]
      exact hnn fun c q h => Option.some.inj (hg.symm.trans h) ▸ hn q

/-- On a split node the walk forgets what it had found. -/
theorem BuilderNode.lookup_of_splitAt {n : BuilderNode} {input : List UInt8} {d : UInt32} :
    n.SplitAt input → n.lookup input d = 0 := by
  induction n using byChild generalizing input d with
  | step pfx apiId children ih =>
  intro h
  rw [SplitAt] at h
  rw [lookup]
  cases ha : after pfx input with
  | none => rw [ha] at h; exact h.elim
  | some rest =>
  rw [ha] at h
  cases rest with
  | nil => exact h
  | cons b tail =>
  obtain ⟨child, hg, hs⟩ := BuilderMap.splitAt_iff_get?.mp h
  dsimp only
  rw [BuilderMap.lookup_eq_get?, hg]
  exact ih b child hg hs

/-! ## Split nodes are the branch points of the routes -/

/-- Every canonical tree holds a route. -/
theorem BuilderNode.exists_route {n : BuilderNode} : n.Ok → ∃ q, n.find q ≠ 0 := by
  induction n using byChild with
  | step pfx apiId children ih =>
  intro hok
  by_cases hid : apiId = 0
  · cases children with
    | nil => exact absurd (hok.1 hid) (by simp [size])
    | cons key child rest =>
      have hg : (BuilderMap.cons key child rest).get? key = some child := if_pos rfl
      obtain ⟨q, hq⟩ := ih key child hg hok.2.2.2.1
      exact ⟨pfx ++ q, by rwa [find_child hok.2 hg hq]⟩
  · exact ⟨pfx, find_self ▸ hid⟩

/-- Two routes go on from `q` with different bytes. -/
def BranchPoint (f : List UInt8 → UInt32) (q : List UInt8) : Prop :=
  ∃ b₁ r₁ b₂ r₂, b₁ ≠ b₂ ∧ f (q ++ b₁ :: r₁) ≠ 0 ∧ f (q ++ b₂ :: r₂) ≠ 0

theorem BuilderNode.splitAt_iff {n : BuilderNode} {q : List UInt8} : n.Ok →
    (n.SplitAt q ↔ n.find q = 0 ∧ BranchPoint n.find q) := by
  induction n using byChild generalizing q with
  | step pfx apiId children ih =>
  intro hok
  rw [SplitAt]
  cases ha : after pfx q with
  | none =>
    rw [after_eq_none] at ha
    simp only [false_iff, not_and]
    rintro _ ⟨b₁, r₁, b₂, r₂, hne, h1, h2⟩
    -- both routes pass through this fragment, and so would `q`
    have hpr : ∀ b r, (mk pfx apiId children).find (q ++ b :: r) ≠ 0 →
        ∃ t u, pfx = q ++ t ∧ b :: r = t ++ u := by
      intro b r hf
      by_cases hex : ∃ rest, q ++ b :: r = pfx ++ rest
      · obtain ⟨rest, he⟩ := hex
        rcases append_eq_append_iff.mp he with ⟨t, hp, hr⟩ | ⟨t, hq, _⟩
        · exact ⟨t, rest, hp, hr⟩
        · exact absurd hq (ha t)
      · exact absurd (find_mk_of_ne (not_exists.mp hex)) hf
    obtain ⟨t1, u1, hp1, he1⟩ := hpr b₁ r₁ h1
    obtain ⟨t2, u2, hp2, he2⟩ := hpr b₂ r₂ h2
    obtain rfl : t1 = t2 := append_cancel_left (hp1.symm.trans hp2)
    cases t1 with
    | nil => exact ha [] (by rw [hp1]; simp)
    | cons c t =>
      rw [cons_append, cons.injEq] at he1 he2
      exact hne (he1.1.trans he2.1.symm)
  | some rest =>
    obtain rfl := after_eq_some.mp ha
    cases rest with
    | nil =>
      rw [append_nil, find_self]
      refine ⟨fun h => ⟨h, ?_⟩, fun h => h.1⟩
      -- a node without an api has two children, each with a route of its own
      have hk : ∀ b child, children.get? b = some child →
          ∃ r, (mk pfx apiId children).find (pfx ++ b :: r) ≠ 0 := by
        intro b child hg
        have hc := (ok_iff.mp hok.2).2 b child hg
        obtain ⟨q, hq⟩ := exists_route hc.2
        obtain ⟨r, rfl⟩ := head_of_find hc.1 hq
        exact ⟨r, by rwa [find_child hok.2 hg hq]⟩
      match children, hok, hk with
      | .nil, hok, _ | .cons _ _ .nil, hok, _ => exact absurd (hok.1 h) (by simp [size])
      | .cons k1 c1 (.cons k2 c2 more), hok, hk =>
      have hne : k1 ≠ k2 := fun he => hok.2.2.1 (by simp [BuilderMap.keys, he])
      obtain ⟨r₁, h1⟩ := hk k1 c1 (if_pos rfl)
      obtain ⟨r₂, h2⟩ := hk k2 c2 ((if_neg hne).trans (if_pos rfl))
      exact ⟨k1, r₁, k2, r₂, hne, h1, h2⟩
    | cons b tail =>
      have hfn : ∀ r, (mk pfx apiId children).find (pfx ++ b :: tail ++ r)
          = match children.get? b with | none => 0 | some child => child.find (b :: tail ++ r) := by
        intro r
        rw [append_assoc, find_mk_append]
        exact find_eq_get?
      have h0 := hfn []
      rw [append_nil, append_nil] at h0
      dsimp only
      rw [h0, BuilderMap.splitAt_iff_get?, BranchPoint]
      simp only [hfn]
      cases hg : children.get? b with
      | none => simp
      | some child =>
        simp only [Option.some.injEq, exists_eq_left']
        exact ih b child hg ((ok_iff.mp hok.2).2 b child hg).2

end Rah.Router
