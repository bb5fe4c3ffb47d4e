import Rah.Router.Model

/-!
# What a builder tree contains

A tree denotes a finite map from paths to api ids: `find` follows the fragments
and reads the id at the node that ends exactly at the path. The tree is kept
*canonical* by `add`: children are filed under the first byte of their own prefix,
keys are distinct, and a node without an api has at least two children, since the
only such nodes are the ones a split leaves behind.

`find_add` is the contract of `add`: it changes the map at exactly one path.
-/

namespace Rah.Router

open List BuilderNode Option
open BuilderMap (addAt get? keys)

/-- What is left of `path` after the fragment `pfx`. -/
def after : List UInt8 → List UInt8 → Option (List UInt8)
  | [], path => some path
  | _ :: _, [] => none
  | a :: pfx, b :: path => if a = b then after pfx path else none

variable {pfx path rest : List UInt8}

theorem after_eq_some : after pfx path = some rest ↔ path = pfx ++ rest := by
  induction pfx generalizing path with
  | nil => simp [after]
  | cons a pfx ih =>
  cases path with
  | nil => simp [after]
  | cons b path =>
    by_cases h : a = b
    · subst h; simp [after, ih]
    · simp [after, h, Ne.symm h]

@[simp] theorem after_append : after pfx (pfx ++ rest) = some rest := after_eq_some.mpr rfl

theorem after_eq_none : after pfx path = none ↔ ∀ rest, path ≠ pfx ++ rest := by
  constructor
  · intro h rest he
    rw [after_eq_some.mpr he] at h
    cases h
  · intro h
    cases ha : after pfx path with
    | none => rfl
    | some rest => exact absurd (after_eq_some.mp ha) (h rest)

mutual

/-- The api at exactly this path, `0` for none. -/
def BuilderNode.find : BuilderNode → List UInt8 → UInt32
  | .mk pfx apiId children, path =>
    match after pfx path with
    | none => 0
    | some [] => apiId
    | some (b :: rest) => children.find b (b :: rest)

def BuilderMap.find : BuilderMap → UInt8 → List UInt8 → UInt32
  | .nil, _, _ => 0
  | .cons key child rest, b, path => if key = b then child.find path else rest.find b path

end

mutual

/-- A canonical tree. -/
def BuilderNode.Ok : BuilderNode → Prop
  | .mk _ apiId children => (apiId = 0 → 2 ≤ children.size) ∧ children.Ok

/-- Children are filed under their first byte, under distinct keys. -/
def BuilderMap.Ok : BuilderMap → Prop
  | .nil => True
  | .cons key child rest =>
    child.pfx.head? = some key ∧ key ∉ rest.keys ∧ child.Ok ∧ rest.Ok

end

mutual

/-- The part of being canonical that any additions keep, empty paths and the id `0` included:
every map in the tree files its children under their own first byte. -/
def BuilderNode.Filed : BuilderNode → Prop
  | .mk _ _ children => children.Filed

def BuilderMap.Filed : BuilderMap → Prop
  | .nil => True
  | .cons key child rest =>
    child.pfx.head? = some key ∧ key ∉ rest.keys ∧ child.Filed ∧ rest.Filed

end

/-! ## Common prefixes -/

theorem commonLen_take : ∀ (path pfx : List UInt8),
    path.take (commonLen path pfx) = pfx.take (commonLen path pfx)
  | [], _ => by simp [commonLen]
  | _ :: _, [] => by simp [commonLen]
  | a :: as, b :: bs => by
    unfold commonLen
    split
    · rename_i h
      subst h
      rw [take_succ_cons, take_succ_cons, commonLen_take as bs]
    · rfl

/-- Right after the common part, the two fragments differ. -/
theorem commonLen_maximal : ∀ {path pfx : List UInt8} {a b : UInt8} {as bs : List UInt8},
    path.drop (commonLen path pfx) = a :: as → pfx.drop (commonLen path pfx) = b :: bs → a ≠ b
  | [], _, _, _, _, _, h, _ => by simp [commonLen] at h
  | _ :: _, [], _, _, _, _, _, h => by simp [commonLen] at h
  | x :: xs, y :: ys, a, b, as, bs, h1, h2 => by
    unfold commonLen at h1 h2
    split at h1
    · rename_i hxy
      rw [if_pos hxy] at h2
      exact commonLen_maximal h1 h2
    rename_i hxy
    rw [if_neg hxy] at h2
    rw [drop_zero, cons.injEq] at h1 h2
    rw [← h1.1, ← h2.1]
    exact hxy

/-! ## Maps of children -/

theorem BuilderMap.size_eq : ∀ m : BuilderMap, m.size = m.keys.length
  | .nil => rfl
  | .cons _ _ rest => by simp [BuilderMap.size, keys, rest.size_eq]

theorem BuilderMap.find_eq_get? : ∀ {m : BuilderMap} {b : UInt8} {path : List UInt8},
    m.find b path = match m.get? b with | none => 0 | some child => child.find path
  | .nil, _, _ => by rw [BuilderMap.find, get?]
  | .cons key child rest, b, path => by
    rw [BuilderMap.find, get?]
    by_cases h : key = b
    · rw [if_pos h, if_pos h]
    · rw [if_neg h, if_neg h]
      exact BuilderMap.find_eq_get?

theorem BuilderMap.get?_isSome_iff : ∀ {m : BuilderMap} {b : UInt8},
    (∃ c, m.get? b = some c) ↔ b ∈ m.keys
  | .nil, b => by simp [get?, keys]
  | .cons key child rest, b => by
    rw [get?, keys]
    by_cases h : key = b
    · simp [h]
    · rw [if_neg h, BuilderMap.get?_isSome_iff]
      simp [Ne.symm h]

/-- Adding below a map files the path under its first byte and nowhere else. -/
theorem BuilderMap.keys_addAt : ∀ (m : BuilderMap) (b : UInt8) (path : List UInt8) (id : UInt32),
    (m.addAt b path id).keys = if b ∈ m.keys then m.keys else m.keys ++ [b]
  | .nil, b, path, id => by simp [addAt, keys]
  | .cons key child rest, b, path, id => by
    rw [addAt]
    split
    · rename_i h
      simp [keys, h]
    rename_i h
    rw [keys, keys, BuilderMap.keys_addAt rest b path id]
    by_cases hb : b ∈ rest.keys
    · simp [hb]
    · simp [hb, Ne.symm h]

theorem BuilderMap.size_addAt (m : BuilderMap) (b : UInt8) (path : List UInt8) (id : UInt32) :
    m.size ≤ (m.addAt b path id).size := by
  rw [BuilderMap.size_eq, BuilderMap.size_eq, BuilderMap.keys_addAt]
  split
  · omega
  · simp

/-- The child that a path is added to is the one of its first byte, an empty one if it is new. -/
theorem BuilderMap.get?_addAt : ∀ (m : BuilderMap) (b c : UInt8) (path : List UInt8) (id : UInt32),
    (m.addAt b path id).get? c = if b = c then
      some (((m.get? b).map (·.add path id)).getD (.mk path id .nil)) else m.get? c
  | .nil, b, c, path, id => rfl
  | .cons key child more, b, c, path, id => by
    rw [addAt]
    split
    · rename_i h
      subst h
      simp only [get?]
      split <;> rfl
    rename_i h
    simp only [get?, if_neg h, get?_addAt more b c path id]
    by_cases hc : key = c
    · rw [if_pos hc, if_pos hc, if_neg fun he => h (hc.trans he.symm)]
    · rw [if_neg hc, if_neg hc]

/-- What one map says of its children, whichever property of nodes it goes on with. -/
theorem BuilderMap.entries_iff {Q : BuilderMap → Prop} {R : BuilderNode → Prop} (hn : Q .nil)
    (hcn : ∀ key child rest, Q (.cons key child rest) ↔
      child.pfx.head? = some key ∧ key ∉ rest.keys ∧ R child ∧ Q rest) :
    ∀ m, Q m ↔ m.keys.Nodup ∧ ∀ b child, m.get? b = some child → child.pfx.head? = some b ∧ R child
  | .nil => by simp [hn, keys, get?]
  | .cons key child rest => by
    rw [hcn, entries_iff hn hcn rest, keys, nodup_cons]
    simp only [get?]
    constructor
    · rintro ⟨hh, hk, hr, hnd, hg⟩
      refine ⟨⟨hk, hnd⟩, fun b c h => ?_⟩
      split at h
      · rename_i hb
        exact hb ▸ some.inj h ▸ ⟨hh, hr⟩
      · exact hg b c h
    · rintro ⟨⟨hk, hnd⟩, hg⟩
      have hc := hg key child (if_pos rfl)
      refine ⟨hc.1, hk, hc.2, hnd, fun b c h => hg b c ?_⟩
      rw [if_neg, h]
      rintro rfl
      exact hk (get?_isSome_iff.mp ⟨c, h⟩)

theorem BuilderMap.ok_iff {m : BuilderMap} : m.Ok ↔
    m.keys.Nodup ∧ ∀ b child, m.get? b = some child → child.pfx.head? = some b ∧ child.Ok :=
  entries_iff trivial (fun _ _ _ => .rfl) m

theorem BuilderMap.filed_iff {m : BuilderMap} : m.Filed ↔
    m.keys.Nodup ∧ ∀ b child, m.get? b = some child → child.pfx.head? = some b ∧ child.Filed :=
  entries_iff trivial (fun _ _ _ => .rfl) m

mutual

/-- What a node has if its children do, every node has. -/
theorem BuilderNode.byChild {P : BuilderNode → Prop}
    (step : ∀ pfx apiId children, (∀ b child, get? children b = some child → P child) →
      P (.mk pfx apiId children)) : ∀ n, P n
  | .mk pfx apiId children => step pfx apiId children (children.byChild step)

theorem BuilderMap.byChild {P : BuilderNode → Prop}
    (step : ∀ pfx apiId children, (∀ b child, get? children b = some child → P child) →
      P (.mk pfx apiId children)) : ∀ (m : BuilderMap) b child, m.get? b = some child → P child
  | .nil, _, _, h => nomatch h
  | .cons key child rest, b, c, h => by
    rw [get?] at h
    split at h
    · exact some.inj h ▸ child.byChild step
    · exact rest.byChild step b c h

end

theorem BuilderNode.Ok.filed {n : BuilderNode} : n.Ok → n.Filed := by
  induction n using byChild with
  | step pfx apiId children ih =>
    intro h
    obtain ⟨hnd, hg⟩ := BuilderMap.ok_iff.mp h.2
    exact BuilderMap.filed_iff.mpr ⟨hnd, fun b c hc => ⟨(hg b c hc).1, ih b c hc (hg b c hc).2⟩⟩

/-! ## Adding keeps the tree canonical -/

/-- The shapes of adding `path` at a node with prefix `pfx`. -/
theorem BuilderNode.add_cases (pfx path : List UInt8) (apiId id : UInt32) (children : BuilderMap) :
    (pfx = [] ∧ children.size = 0 ∧ (mk pfx apiId children).add path id = .mk path id children)
    ∨ (∃ common s suffix b tail, b ≠ s ∧ path = common ++ b :: tail ∧ pfx = common ++ s :: suffix
        ∧ (mk pfx apiId children).add path id = .mk common 0
          (.cons s (.mk (s :: suffix) apiId children) (.cons b (.mk (b :: tail) id .nil) .nil)))
    ∨ (∃ s suffix, pfx = path ++ s :: suffix ∧ (mk pfx apiId children).add path id
        = .mk path id (.cons s (.mk (s :: suffix) apiId children) .nil))
    ∨ (∃ b tail, path = pfx ++ b :: tail ∧ (mk pfx apiId children).add path id
        = .mk pfx apiId (children.addAt b (b :: tail) id))
    ∨ (path = pfx ∧ (mk pfx apiId children).add path id = .mk pfx id children) := by
  rw [add]
  split
  · rename_i h
    exact .inl ⟨h.1, h.2, rfl⟩
  refine .inr ?_
  have hp := take_append_drop (commonLen path pfx) path
  have hq := take_append_drop (commonLen path pfx) pfx
  rw [commonLen_take] at hp
  dsimp only
  split
  · rename_i s suffix b tail hs hb
    exact .inl ⟨_, s, suffix, b, tail,
      commonLen_maximal hb hs, by rw [← hb, hp], by rw [← hs, hq], rfl⟩
  · rename_i s suffix hs hb
    rw [hb, append_nil] at hp
    rw [hp, hs] at hq
    exact .inr (.inl ⟨s, suffix, hq.symm, by rw [hp]⟩)
  · rename_i b tail hs hb
    rw [hs, append_nil] at hq
    rw [hq, hb] at hp
    exact .inr (.inr (.inl ⟨b, tail, hp.symm, rfl⟩))
  · rename_i hs hb
    rw [hs, append_nil] at hq
    rw [hb, append_nil, hq] at hp
    exact .inr (.inr (.inr ⟨hp.symm, rfl⟩))

/-- Adding a path at a node with a common first byte keeps that byte first. -/
theorem BuilderNode.head_pfx_add {n : BuilderNode} {id : UInt32} (h : n.pfx.head? = some b) :
    (n.add (b :: rest) id).pfx.head? = some b := by
  obtain ⟨pfx, apiId, children⟩ := n
  obtain ⟨rfl, _⟩ | ⟨common, s, suffix, c, tail, hne, hp, rfl, he⟩ | ⟨s, suffix, rfl, he⟩
    | ⟨c, tail, hp, he⟩ | ⟨hp, he⟩ := add_cases pfx (b :: rest) apiId id children
  · cases h
  · rw [he]
    cases common with
    | nil =>
      obtain ⟨rfl, _⟩ := cons.inj hp
      exact absurd (some.inj h).symm hne
    | cons _ _ => exact h
  all_goals rw [he]; exact h

/-- A path added below a map goes to the child of its first byte. -/
theorem BuilderMap.entries_addAt {R : BuilderNode → Prop} {m : BuilderMap} {id : UInt32}
    (hnd : m.keys.Nodup)
    (hg : ∀ b child, m.get? b = some child → child.pfx.head? = some b ∧ R child)
    (hn : R (.mk (b :: rest) id .nil))
    (ha : ∀ child, m.get? b = some child → R child → R (child.add (b :: rest) id)) :
    (m.addAt b (b :: rest) id).keys.Nodup ∧ ∀ c child,
      (m.addAt b (b :: rest) id).get? c = some child → child.pfx.head? = some c ∧ R child := by
  constructor
  · rw [keys_addAt]
    split
    · exact hnd
    · rename_i hb
      exact hnd.append (nodup_singleton b) (by simpa using hb)
  · intro c child h
    rw [get?_addAt] at h
    split at h
    · rename_i hc
      subst hc
      cases hm : m.get? b with
      | none =>
        rw [hm] at h
        exact some.inj h ▸ ⟨rfl, hn⟩
      | some old =>
        rw [hm] at h
        have ho := hg b old hm
        exact some.inj h ▸ ⟨head_pfx_add ho.1, ha old hm ho.2⟩
    · exact hg c child h

theorem BuilderNode.ok_add {n : BuilderNode} {path : List UInt8} {id : UInt32} :
    n.Ok → n.pfx ≠ [] ∨ n.children.size ≠ 0 → id ≠ 0 → (n.add path id).Ok := by
  induction n using byChild generalizing path with
  | step pfx apiId children ih =>
  intro hok hne hid
  obtain ⟨rfl, hz, _⟩ | ⟨common, s, suffix, b, tail, hbs, _, _, he⟩ | ⟨s, suffix, _, he⟩
    | ⟨b, tail, _, he⟩ | ⟨_, he⟩ := add_cases pfx path apiId id children
  · exact absurd hz (hne.resolve_left (fun h => h rfl))
  all_goals rw [he]
  · refine ⟨fun _ => Nat.le_refl 2, rfl, ?_, hok, rfl, not_mem_nil,
      ⟨fun h => absurd h hid, trivial⟩, trivial⟩
    simpa [BuilderMap.keys] using Ne.symm hbs
  · exact ⟨fun h => absurd h hid, rfl, not_mem_nil, hok, trivial⟩
  · obtain ⟨hnd, hg⟩ := BuilderMap.ok_iff.mp hok.2
    refine ⟨fun h => Nat.le_trans (hok.1 h) (children.size_addAt _ _ _), BuilderMap.ok_iff.mpr ?_⟩
    refine BuilderMap.entries_addAt hnd hg ⟨fun h => absurd h hid, trivial⟩ fun c hc hco => ?_
    refine ih b c hc hco (.inl fun h => ?_) hid
    have hh := (hg b c hc).1
    rw [h] at hh
    cases hh
  · exact ⟨fun h => absurd h hid, hok.2⟩

/-- **Any addition keeps the children filed**, whatever the path and the id. -/
theorem BuilderNode.filed_add {n : BuilderNode} (path : List UInt8) (id : UInt32) :
    n.Filed → (n.add path id).Filed := by
  induction n using byChild generalizing path with
  | step pfx apiId children ih =>
  intro h
  obtain ⟨_, _, he⟩ | ⟨common, s, suffix, b, tail, hbs, _, _, he⟩ | ⟨s, suffix, _, he⟩
    | ⟨b, tail, _, he⟩ | ⟨_, he⟩ := add_cases pfx path apiId id children
  all_goals rw [he]
  · exact h
  · refine ⟨rfl, ?_, h, rfl, not_mem_nil, trivial, trivial⟩
    simpa [BuilderMap.keys] using Ne.symm hbs
  · exact ⟨rfl, not_mem_nil, h, trivial⟩
  · obtain ⟨hnd, hg⟩ := BuilderMap.filed_iff.mp h
    exact BuilderMap.filed_iff.mpr (BuilderMap.entries_addAt hnd hg trivial fun c hc => ih b c hc _)
  · exact h

/-! ## Adding changes the map at one path -/

theorem BuilderNode.find_mk_append (pfx rest : List UInt8) (apiId : UInt32)
    (children : BuilderMap) :
    (mk pfx apiId children).find (pfx ++ rest) =
      match rest with
      | [] => apiId
      | b :: tail => children.find b (b :: tail) := by
  rw [find, after_append]
  cases rest <;> rfl

theorem BuilderNode.find_self {a : UInt32} : (mk pfx a m).find pfx = a := by
  have h := find_mk_append pfx [] a m
  rwa [append_nil] at h

theorem BuilderNode.find_mk_of_ne {apiId : UInt32} {children : BuilderMap}
    (h : ∀ rest, path ≠ pfx ++ rest) : (mk pfx apiId children).find path = 0 := by
  rw [find, after_eq_none.mpr h]

/-- A leaf holds exactly its own path. -/
theorem BuilderNode.find_leaf (pfx q : List UInt8) (id : UInt32) :
    (mk pfx id .nil).find q = if q = pfx then id else 0 := by
  by_cases h : ∃ rest, q = pfx ++ rest
  · obtain ⟨rest, rfl⟩ := h
    rw [find_mk_append]
    cases rest with
    | nil => simp
    | cons b tail => simp [BuilderMap.find]
  · rw [find_mk_of_ne (fun rest he => h ⟨rest, he⟩), if_neg]
    intro he
    exact h ⟨[], by simpa using he⟩

/-- Splitting a prefix does not change the map. -/
theorem BuilderNode.find_split (common pfxRest q : List UInt8) (apiId : UInt32)
    (children : BuilderMap) :
    (mk (common ++ pfxRest) apiId children).find (common ++ q)
      = (mk pfxRest apiId children).find q := by
  have ha : after (common ++ pfxRest) (common ++ q) = after pfxRest q := by
    cases h : after pfxRest q with
    | none =>
      rw [after_eq_none] at h ⊢
      intro rest he
      rw [append_assoc, append_cancel_left_eq] at he
      exact h rest he
    | some rest =>
      rw [after_eq_some] at h ⊢
      rw [h, append_assoc]
  rw [find, find, ha]

theorem BuilderNode.find_nil_cons (apiId : UInt32) (children : BuilderMap) (b : UInt8)
    (tail : List UInt8) :
    (mk [] apiId children).find (b :: tail) = children.find b (b :: tail) := rfl

/-- Below a common part two nodes compare as they do without it. -/
theorem BuilderNode.find_below {a a' id : UInt32} {m m' : BuilderMap} {p r x : List UInt8}
    (hr : path = p ++ r) (hx : pfx = p ++ x)
    (h : ∀ q, (mk [] a m).find q = if q = r then id else (mk x a' m').find q) (q : List UInt8) :
    (mk p a m).find q = if q = path then id else (mk pfx a' m').find q := by
  subst hr hx
  by_cases hq : ∃ t, q = p ++ t
  · obtain ⟨t, rfl⟩ := hq
    have hp := find_split p [] t a m
    rw [append_nil] at hp
    simp only [hp, find_split, h, append_cancel_left_eq]
  · rw [not_exists] at hq
    rw [find_mk_of_ne hq, find_mk_of_ne fun t he => hq (x ++ t) (by rw [he, append_assoc]),
      if_neg (hq r)]

theorem BuilderNode.find_add {n : BuilderNode} {path : List UInt8} {id : UInt32} (hok : n.Ok)
    (hne : n.pfx ≠ [] ∨ n.children.size ≠ 0) (q : List UInt8) :
    (n.add path id).find q = if q = path then id else n.find q := by
  induction n using byChild generalizing path q with
  | step pfx apiId children ih =>
  -- a child holds nothing but paths that start with its key
  have hcn : ∀ {s c suffix t}, s ≠ c → (mk (s :: suffix) apiId children).find (c :: t) = 0 :=
    fun h => find_mk_of_ne fun _ he => h (cons.inj he).1.symm
  obtain ⟨rfl, hz, _⟩ | ⟨common, s, suffix, b, tail, hbs, hp, hx, he⟩ | ⟨s, suffix, hx, he⟩
    | ⟨b, tail, hp, he⟩ | ⟨hp, he⟩ := add_cases pfx path apiId id children
  · exact absurd hz (hne.resolve_left (fun h => h rfl))
  all_goals rw [he]
  · refine find_below hp hx (fun q => ?_) q
    cases q with
    | nil => simp [find, after]
    | cons c t =>
    rw [find_nil_cons, BuilderMap.find, BuilderMap.find, find_leaf]
    by_cases hs : s = c
    · rw [if_pos hs, if_neg fun h => hbs ((cons.inj h).1.symm.trans hs.symm)]
    rw [if_neg hs, hcn hs]
    by_cases hb : b = c
    · rw [if_pos hb]
    · rw [if_neg hb, if_neg fun h => hb (cons.inj h).1.symm, BuilderMap.find]
  · refine find_below (append_nil _).symm hx (fun q => ?_) q
    cases q with
    | nil => rfl
    | cons c t =>
    rw [find_nil_cons, BuilderMap.find, BuilderMap.find, if_neg (cons_ne_nil c t)]
    by_cases hs : s = c
    · rw [if_pos hs]
    · rw [if_neg hs, hcn hs]
  · refine find_below hp (append_nil _).symm (fun q => ?_) q
    cases q with
    | nil => rfl
    | cons c t =>
    rw [find_nil_cons, find_nil_cons, BuilderMap.find_eq_get?, BuilderMap.find_eq_get?,
      BuilderMap.get?_addAt]
    by_cases hb : b = c
    · subst hb
      rw [if_pos rfl]
      cases hg : children.get? b with
      | none => exact find_leaf _ _ _
      | some child =>
      obtain ⟨hh, hc⟩ := (BuilderMap.ok_iff.mp hok.2).2 b child hg
      refine ih b child hg hc (.inl fun h => ?_) _
      rw [h] at hh
      cases hh
    · rw [if_neg hb, if_neg fun h => hb (cons.inj h).1.symm]
  · refine find_below (hp.trans (append_nil _).symm) (append_nil _).symm (fun q => ?_) q
    cases q <;> rfl

end Rah.Router
