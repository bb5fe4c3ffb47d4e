import Rah.SubRouter.Model
import Mathlib.Data.List.Basic

/-!
# Templates and the table of their nodes

What the sub-path router is for, without its arena. A template is a list of keys, a
static segment or a parameter each; a request is a list of segments. A registered
set of templates spans a tree whose nodes are the prefixes of the templates, and a
request walks down it, taking the static child for its segment if there is one and the
parameter child otherwise.

The compiler numbers the nodes in the order it creates them, so the tree is kept here
as the list of its prefixes in that order: `addPath` is what one registration does to
it. `Fits` says that a registration finds or creates the node for each of its prefixes:
children of one node are numbered without a gap, in ascending order of their first
bytes and in one half of the byte range, because that is all their parent records.
-/

namespace Rah.SubRouter

open List

open Rah.Router (slash)

/-- What a template asks of one segment. -/
inductive Key where
  | seg (s : List UInt8)
  | param
  deriving DecidableEq

def keyOf (seg : List UInt8) : Key := if isParam seg then .param else .seg seg

/-- The keys of a template path; a bare path has none. -/
def templateOf (path : List UInt8) : List Key :=
  if segmentsOf path = [[]] then [] else (segmentsOf path).map keyOf

/-- One call of `BakeSubRouter`. -/
structure Registration where
  path : List UInt8
  method : Method
  isStrict : Bool
  apiRateLimitId : UInt16
  endpointRateLimitId : UInt16

def Registration.template (reg : Registration) : List Key := templateOf reg.path

/-- A template for `ANY` is one for every method. -/
def Registration.Serves (reg : Registration) (m : Method) : Prop :=
  reg.method = .any ∨ reg.method = m

/-- A static segment of a template: non-empty ASCII. -/
def Key.Valid : Key → Prop
  | .seg s => s ≠ [] ∧ ∀ b ∈ s, b < 128
  | .param => True

def Registration.Valid (reg : Registration) : Prop := ∀ k ∈ reg.template, k.Valid

/-- The calls of a definition's construction, one after the other. -/
def bakeAll : ApiDefinition → List Registration → Except BakePanic ApiDefinition
  | d, [] => .ok d
  | d, reg :: regs =>
    match bakeSubRouter d reg.path reg.method.name reg.isStrict reg.apiRateLimitId
        reg.endpointRateLimitId with
    | .error e => .error e
    | .ok d => bakeAll d regs

/-- The segment meets the key. -/
def Key.Takes : Key → List UInt8 → Prop
  | .seg x, s => x = s
  | .param, _ => True

/-- The segments match the template one by one. -/
def Matches (t : List Key) (segs : List (List UInt8)) : Prop := List.Forall₂ Key.Takes t segs

/-- The byte ranges of the segments that parameters match, the first segment at `pos`. -/
def paramRanges : Nat → List Key → List (List UInt8) → List (UInt32 × UInt32)
  | pos, .param :: t, s :: segs =>
    (UInt32.ofNat pos, UInt32.ofNat (pos + s.length)) :: paramRanges (pos + s.length + 1) t segs
  | pos, .seg _ :: t, s :: segs => paramRanges (pos + s.length + 1) t segs
  | _, _, _ => []

/-! ## The table of nodes -/

/-- The table after a key below `pre`. -/
def addKey (nodes : List (List Key)) (pre : List Key) (k : Key) : List (List Key) :=
  if pre ++ [k] ∈ nodes then nodes else nodes ++ [pre ++ [k]]

/-- One registration: the prefixes of `pre ++ keys` below `pre`, those not there yet at the end. -/
def addPath : List (List Key) → List Key → List Key → List (List Key)
  | nodes, _, [] => nodes
  | nodes, pre, k :: keys =>
    addPath (addKey nodes pre k) (pre ++ [k]) keys

/-- The nodes a history of registrations makes, the root first. -/
def nodesOf (regs : List Registration) : List (List Key) :=
  regs.foldl (fun nodes reg => addPath nodes [] reg.template) [[]]

/-- The static segment by which `q` is a child of `pre`. -/
def staticBelow (pre q : List Key) : Option (List UInt8) :=
  match q.getLast? with
  | some (.seg s) => if q.dropLast = pre then some s else none
  | _ => none

/-- The static children of `pre`, oldest first. -/
def statics (nodes : List (List Key)) (pre : List Key) : List (List UInt8) :=
  nodes.filterMap (staticBelow pre)

/-- The first byte of a segment. -/
def firstByte (s : List UInt8) : Nat := (s.head?.getD 0).toNat

/-- The two bytes are in the same half of the ASCII range. -/
def SameHalf (a b : Nat) : Prop := a < 64 ↔ b < 64

/-- A new static child comes right after its last sibling, with a larger first byte in
the same half. -/
def FollowsSibling (nodes : List (List Key)) (pre : List Key) (s : List UInt8) : Prop :=
  ∀ sib ∈ (statics nodes pre).getLast?,
    nodes.getLast? = some (pre ++ [.seg sib]) ∧ firstByte sib < firstByte s
      ∧ SameHalf (firstByte sib) (firstByte s)

/-- The compiler finds or creates the right node for a key below `pre`. -/
def FitsKey (nodes : List (List Key)) (pre : List Key) : Key → Prop
  | .seg s => s.length < 65536 ∧ (pre ++ [.seg s] ∉ nodes →
      nodes.length < 2 ^ 32 ∧ FollowsSibling nodes pre s)
  | .param => pre ++ [.param] ∉ nodes ∧ nodes.length < 2 ^ 32

/-- The compiler finds or creates the right node for every prefix. -/
def Fits : List (List Key) → List Key → List Key → Prop
  | _, _, [] => True
  | nodes, pre, k :: keys =>
    FitsKey nodes pre k ∧ Fits (addKey nodes pre k) (pre ++ [k]) keys

/-- The registrations fit one after the other, from the given nodes on. -/
def FitsFrom : List (List Key) → List Registration → Prop
  | _, [] => True
  | nodes, reg :: regs =>
    Fits nodes [] reg.template ∧ FitsFrom (addPath nodes [] reg.template) regs

/-- Every registration of the history fits what the earlier ones made. -/
def FitsAll (regs : List Registration) : Prop := FitsFrom [[]] regs

/-- The walk of a request, from `pre`: the static child first, then the parameter. -/
def walk (nodes : List (List Key)) : List Key → List (List UInt8) → Option (List Key)
  | pre, [] => some pre
  | pre, s :: segs =>
    if pre ++ [.seg s] ∈ nodes then walk nodes (pre ++ [.seg s]) segs
    else if pre ++ [.param] ∈ nodes then walk nodes (pre ++ [.param]) segs
    else none

/-- Wherever the walk comes, a static child with the first byte of the next segment is
the child for that segment. -/
def Clear (nodes : List (List Key)) : List Key → List (List UInt8) → Prop
  | _, [] => True
  | pre, s :: segs =>
    (∀ x ∈ statics nodes pre, firstByte x = firstByte s → x = s)
      ∧ (if pre ++ [.seg s] ∈ nodes then Clear nodes (pre ++ [.seg s]) segs
        else pre ++ [.param] ∈ nodes → Clear nodes (pre ++ [.param]) segs)

/-- No parameter of the template stands beside a static segment equal to the request's. -/
def StaticFirst (nodes : List (List Key)) : List Key → List Key → List (List UInt8) → Prop
  | pre, k :: t, s :: segs =>
    (k = .param → pre ++ [.seg s] ∉ nodes) ∧ StaticFirst nodes (pre ++ [k]) t segs
  | _, _, _ => True

/-! ## The conditions can be evaluated -/

instance (k : Key) : Decidable k.Valid :=
  match k with
  | .seg s =>
    have : Decidable (∀ b ∈ s, b < 128) := List.decidableBAll (fun b : UInt8 => b.toNat < 128) s
    inferInstanceAs (Decidable (s ≠ [] ∧ ∀ b ∈ s, b < 128))
  | .param => inferInstanceAs (Decidable True)

instance (reg : Registration) : Decidable reg.Valid :=
  inferInstanceAs (Decidable (∀ k ∈ reg.template, k.Valid))

instance (nodes : List (List Key)) (pre : List Key) (s : List UInt8) :
    Decidable (FollowsSibling nodes pre s) :=
  inferInstanceAs (Decidable (∀ sib ∈ (statics nodes pre).getLast?,
    nodes.getLast? = some (pre ++ [.seg sib]) ∧ firstByte sib < firstByte s
      ∧ (firstByte sib < 64 ↔ firstByte s < 64)))

instance (nodes : List (List Key)) (pre : List Key) (k : Key) : Decidable (FitsKey nodes pre k) :=
  match k with
  | .seg s => inferInstanceAs (Decidable (s.length < 65536 ∧ (pre ++ [.seg s] ∉ nodes →
      nodes.length < 2 ^ 32 ∧ FollowsSibling nodes pre s)))
  | .param => inferInstanceAs (Decidable (pre ++ [.param] ∉ nodes ∧ nodes.length < 2 ^ 32))

instance decidableFits : ∀ (nodes : List (List Key)) (pre keys : List Key),
    Decidable (Fits nodes pre keys)
  | _, _, [] => inferInstanceAs (Decidable True)
  | nodes, pre, k :: keys =>
    have := decidableFits (addKey nodes pre k) (pre ++ [k]) keys
    inferInstanceAs (Decidable (_ ∧ _))

instance decidableFitsFrom : ∀ (nodes : List (List Key)) (regs : List Registration),
    Decidable (FitsFrom nodes regs)
  | _, [] => inferInstanceAs (Decidable True)
  | nodes, reg :: regs =>
    have := decidableFitsFrom (addPath nodes [] reg.template) regs
    inferInstanceAs (Decidable (_ ∧ _))

instance (regs : List Registration) : Decidable (FitsAll regs) := decidableFitsFrom [[]] regs

instance decidableClear : ∀ (nodes : List (List Key)) (pre : List Key) (segs : List (List UInt8)),
    Decidable (Clear nodes pre segs)
  | _, _, [] => inferInstanceAs (Decidable True)
  | nodes, pre, s :: segs =>
    have : Decidable (Clear nodes (pre ++ [.seg s]) segs) := decidableClear nodes _ segs
    have : Decidable (Clear nodes (pre ++ [.param]) segs) := decidableClear nodes _ segs
    have : Decidable (if pre ++ [.seg s] ∈ nodes then Clear nodes (pre ++ [.seg s]) segs
        else pre ++ [.param] ∈ nodes → Clear nodes (pre ++ [.param]) segs) := inferInstance
    inferInstanceAs (Decidable (_ ∧ _))

/-! ## Facts about the table -/

theorem staticBelow_eq_some : staticBelow pre q = some s ↔ q = pre ++ [.seg s] := by
  unfold staticBelow
  constructor
  · intro h
    split at h
    · rename_i x hx
      obtain ⟨q', rfl⟩ := getLast?_eq_some_iff.mp hx
      split at h
      · rename_i hq
        rw [Option.some.injEq] at h
        rw [dropLast_concat] at hq
        rw [h, hq]
      · cases h
    · cases h
  · rintro rfl
    simp

@[simp] theorem mem_statics : s ∈ statics nodes pre ↔ pre ++ [.seg s] ∈ nodes := by
  unfold statics
  simp only [mem_filterMap, staticBelow_eq_some]
  constructor
  · rintro ⟨q, hq, rfl⟩; exact hq
  · intro h; exact ⟨_, h, rfl⟩

theorem statics_snoc_self (nodes : List (List Key)) (pre : List Key) (s : List UInt8) :
    statics (nodes ++ [pre ++ [.seg s]]) pre = statics nodes pre ++ [s] := by
  unfold statics
  simp [staticBelow_eq_some.mpr]

theorem statics_snoc_of_ne (h : ∀ s, q ≠ pre ++ [.seg s]) :
    statics (nodes ++ [q]) pre = statics nodes pre := by
  unfold statics
  have hn : staticBelow pre q = none := by
    cases hs : staticBelow pre q with
    | none => rfl
    | some s => exact absurd (staticBelow_eq_some.mp hs) (h s)
  simp [hn]

theorem mem_addPath {pre keys q : List Key} :
    q ∈ addPath nodes pre keys ↔ q ∈ nodes ∨ ∃ ks, ks ≠ [] ∧ ks <+: keys ∧ q = pre ++ ks := by
  induction keys generalizing nodes pre with
  | nil =>
    simp only [prefix_nil]
    constructor
    · exact .inl
    · rintro (h | ⟨ks, hne, rfl, _⟩)
      · exact h
      · exact absurd rfl hne
  | cons k keys ih =>
    rw [addPath, ih]
    have hm : q ∈ addKey nodes pre k ↔ q ∈ nodes ∨ q = pre ++ [k] := by
      unfold addKey
      split
      · rename_i h
        exact ⟨.inl, fun h' => h'.elim id (· ▸ h)⟩
      · rw [mem_append, mem_singleton]
    rw [hm, or_assoc]
    refine or_congr_right ?_
    constructor
    · rintro (rfl | ⟨ks, hne, hks, rfl⟩)
      · exact ⟨[k], by simp, by simp, rfl⟩
      · exact ⟨k :: ks, by simp, by simpa using hks, by simp⟩
    rintro ⟨ks, hne, hks, rfl⟩
    cases ks with
    | nil => exact absurd rfl hne
    | cons c ks =>
    rw [cons_prefix_cons] at hks
    obtain ⟨rfl, hks⟩ := hks
    cases ks with
    | nil => exact .inl rfl
    | cons c' ks => exact .inr ⟨c' :: ks, by simp, hks, by simp⟩

/-- The nodes are the prefixes of the registered templates. -/
theorem mem_nodesOf : q ∈ nodesOf regs ↔ q = [] ∨ ∃ reg ∈ regs, q <+: reg.template := by
  unfold nodesOf
  induction regs using reverseRecOn with
  | nil => simp
  | append_singleton regs reg ih =>
  rw [foldl_append, foldl_cons, foldl_nil, mem_addPath, ih]
  constructor
  · rintro ((rfl | ⟨r, hr, hq⟩) | ⟨ks, _, hks, rfl⟩)
    · exact .inl rfl
    · exact .inr ⟨r, by simp [hr], hq⟩
    · exact .inr ⟨reg, by simp, by simpa using hks⟩
  rintro (rfl | ⟨r, hr, hq⟩)
  · exact .inl (.inl rfl)
  rcases mem_append.mp hr with hr | hr
  · exact .inl (.inr ⟨r, hr, hq⟩)
  rw [mem_singleton] at hr
  subst hr
  cases q with
  | nil => exact .inl (.inl rfl)
  | cons k ks => exact .inr ⟨k :: ks, by simp, hq, by simp⟩

theorem nodesOf_snoc : nodesOf (regs ++ [reg]) = addPath (nodesOf regs) [] reg.template := by
  unfold nodesOf
  rw [foldl_append]
  rfl

/-- The walk goes through keys that take the segments. -/
theorem walk_matches (h : walk nodes pre segs = some q) : ∃ t, q = pre ++ t ∧ Matches t segs := by
  induction segs generalizing pre with
  | nil =>
    rw [walk, Option.some.injEq] at h
    exact ⟨[], by simp [h], .nil⟩
  | cons s segs ih =>
    rw [walk] at h
    split at h
    · obtain ⟨t, rfl, ht⟩ := ih h
      exact ⟨.seg s :: t, by simp, .cons rfl ht⟩
    split at h
    · obtain ⟨t, rfl, ht⟩ := ih h
      exact ⟨.param :: t, by simp, .cons trivial ht⟩
    · cases h

/-- The walk ends on a matching template that static segments leave to it. -/
theorem walk_of_staticFirst (hm : Matches t segs) (hin : ∀ ks, ks <+: t → pre ++ ks ∈ nodes)
    (hs : StaticFirst nodes pre t segs) : walk nodes pre segs = some (pre ++ t) := by
  unfold Matches at hm
  induction hm generalizing pre with
  | nil => rw [walk, append_nil]
  | @cons k s t segs hk ht ih =>
    have hn : pre ++ [k] ∈ nodes := hin [k] (by simp)
    have hr : walk nodes (pre ++ [k]) segs = some (pre ++ k :: t) := by
      rw [ih (fun ks hks => ?_) hs.2, append_assoc, singleton_append]
      rw [append_assoc]
      exact hin (k :: ks) (by simpa using hks)
    rw [walk]
    cases k with
    | seg x =>
      obtain rfl : x = s := hk
      rw [if_pos hn, hr]
    | param => rw [if_neg (hs.1 rfl), if_pos hn, hr]

end Rah.SubRouter
