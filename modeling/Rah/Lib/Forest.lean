import Mathlib.Logic.Basic

/-!
# Forests in a node memory

A memory of nodes numbered from 1 (0 stands for "no node"), each with a child in every
direction, and a root for every tree. A *position* is a tree and the directions that lead
from its root to a node; `addr` is the node that stands there. The forest is `Separate`
when no node stands at two positions, and then a write to one node changes what is seen
at one position only: the lemmas below say what hanging in a new leaf (`addr_link`) and
cutting off a row of leaves (`addr_prune`) do to `addr`.
-/

namespace Rah.Lib

variable {α β : Type} {root : α → Nat} {child child' : Nat → β → Nat}

/-- The node at a position. The directions are given last one first. -/
def addr (root : α → Nat) (child : Nat → β → Nat) (a : α) : List β → Nat
  | [] => root a
  | b :: p => child (addr root child a p) b

structure Separate (root : α → Nat) (child : Nat → β → Nat) : Prop where
  null : ∀ b, child 0 b = 0
  inj : ∀ {a a' : α} {p p' : List β}, addr root child a p ≠ 0 →
    addr root child a p = addr root child a' p' → a = a' ∧ p = p'

theorem Separate.addr_above (h : Separate root child) (hne : addr root child a (b :: p) ≠ 0) :
    addr root child a p ≠ 0 := by
  intro hz
  rw [addr, hz, h.null] at hne
  exact hne rfl

/-- Only the children of nodes that stand somewhere matter. -/
theorem addr_congr (hs : ∀ a p b, child' (addr root child a p) b = child (addr root child a p) b)
    (a : α) (p : List β) : addr root child' a p = addr root child a p := by
  induction p with
  | nil => rfl
  | cons b p ih =>
    rw [addr, ih, hs]
    rfl

theorem Separate.congr (h : Separate root child)
    (hs : ∀ a p b, child' (addr root child a p) b = child (addr root child a p) b)
    (hn : ∀ b, child' 0 b = 0) : Separate root child' := by
  refine ⟨hn, ?_⟩
  intro a a' p p' hne heq
  rw [addr_congr hs] at hne heq
  rw [addr_congr hs] at heq
  exact h.inj hne heq

theorem Separate.addr_ne (h : Separate root child) (hne : addr root child a q ≠ 0)
    (hq : ¬ (a' = a ∧ p = q)) : addr root child a' p ≠ addr root child a q := by
  intro heq
  obtain ⟨ha, hp⟩ := h.inj hne heq.symm
  exact hq ⟨ha.symm, hp.symm⟩

/-- A change of the memory that puts `v` at the positions `D`, where nothing was below and
nothing is. -/
theorem addr_change {D : α → List β → Prop} (hn : ∀ a, ¬ D a [])
    (hd : ∀ a p b, D a (b :: p) → ¬ D a p ∧ child' (addr root child a p) b = v)
    (hb : ∀ a p b, D a p → child' v b = child (addr root child a p) b)
    (hr : ∀ a p b, ¬ D a (b :: p) →
      child' (addr root child a p) b = child (addr root child a p) b) :
    (∀ a p, D a p → addr root child' a p = v)
      ∧ ∀ a p, ¬ D a p → addr root child' a p = addr root child a p := by
  simp only [← forall_and]
  intro a p
  induction p with
  | nil => exact ⟨fun h => absurd h (hn a), fun _ => rfl⟩
  | cons b p ih =>
    rw [addr, addr]
    by_cases hp : D a p
    · rw [ih.1 hp]
      exact ⟨fun h => absurd hp (hd a p b h).1, fun _ => hb a p b hp⟩
    · rw [ih.2 hp]
      exact ⟨fun h => (hd a p b h).2, hr a p b⟩

/-! ## Hanging in a leaf -/

section Link

variable {a : α} {q : List β} {b : β} {m : Nat}

/-- The memory `child'` is `child` with the new leaf `m` in direction `b` of the node
at `q`. -/
structure Links (root : α → Nat) (child child' : Nat → β → Nat) (a : α) (q : List β) (b : β)
    (m : Nat) : Prop where
  above : addr root child a q ≠ 0
  vacant : child (addr root child a q) b = 0
  leaf : m ≠ 0
  unused : ∀ a' p, addr root child a' p ≠ m
  new : child' (addr root child a q) b = m
  bare : ∀ b', child' m b' = 0
  others : ∀ b', b' ≠ b → child' (addr root child a q) b' = child (addr root child a q) b'
  rest : ∀ n, n ≠ addr root child a q → n ≠ m → ∀ b', child' n b' = child n b'

theorem addr_link (h : Separate root child) (hl : Links root child child' a q b m) :
    addr root child' a (b :: q) = m ∧ ∀ a' p, ¬ (a' = a ∧ p = b :: q) →
      addr root child' a' p = addr root child a' p := by
  refine (addr_change (D := fun a' p => a' = a ∧ p = b :: q) (by simp) ?_ ?_ ?_).imp_left
    fun hm => hm a _ ⟨rfl, rfl⟩
  · rintro a' p b' ⟨rfl, hp⟩
    obtain ⟨rfl, rfl⟩ := List.cons.inj hp
    exact ⟨fun hp => List.cons_ne_self _ _ hp.2.symm, hl.new⟩
  · rintro a' p b' ⟨rfl, rfl⟩
    rw [hl.bare, addr, hl.vacant, h.null]
  · intro a' p b' hn
    by_cases hq : a' = a ∧ p = q
    · obtain ⟨rfl, rfl⟩ := hq
      exact hl.others b' fun hb => hn ⟨rfl, by rw [hb]⟩
    · exact hl.rest _ (h.addr_ne hl.above hq) (hl.unused a' p) b'

theorem Separate.link (h : Separate root child) (hl : Links root child child' a q b m) :
    Separate root child' := by
  obtain ⟨hn, hr⟩ := addr_link h hl
  refine ⟨fun b' => ?_, ?_⟩
  · rw [hl.rest 0 (Ne.symm hl.above) (Ne.symm hl.leaf), h.null]
  intro a1 a2 p1 p2 hne heq
  by_cases h1 : a1 = a ∧ p1 = b :: q
  · obtain ⟨rfl, rfl⟩ := h1
    by_cases h2 : a2 = a1 ∧ p2 = b :: q
    · exact ⟨h2.1.symm, h2.2.symm⟩
    · rw [hn, hr _ _ h2] at heq
      exact absurd heq.symm (hl.unused _ _)
  · rw [hr _ _ h1] at hne heq
    by_cases h2 : a2 = a ∧ p2 = b :: q
    · obtain ⟨rfl, rfl⟩ := h2
      rw [hn] at heq
      exact absurd heq (hl.unused _ _)
    · rw [hr _ _ h2] at heq
      exact h.inj hne heq

end Link

/-! ## Cutting off a row of leaves -/

section Prune

variable {a : α} {q : List β}

/-- The memory `child'` is `child` without the children, all leaves, of the node at `q`. -/
structure Prunes (root : α → Nat) (child child' : Nat → β → Nat) (a : α) (q : List β) :
    Prop where
  above : addr root child a q ≠ 0
  leaves : ∀ b b', child (child (addr root child a q) b) b' = 0
  cut : ∀ b, child' (addr root child a q) b = 0
  rest : ∀ n, n ≠ addr root child a q → ∀ b, child' n b = child n b

theorem addr_prune (h : Separate root child) (hp : Prunes root child child' a q) :
    (∀ b, addr root child' a (b :: q) = 0) ∧ ∀ a' p, (∀ b, ¬ (a' = a ∧ p = b :: q)) →
      addr root child' a' p = addr root child a' p := by
  refine (addr_change (D := fun a' p => ∃ b, a' = a ∧ p = b :: q) (by simp) ?_ ?_ ?_).imp
    (fun hm b => hm a _ ⟨b, rfl, rfl⟩) fun hm a' p hn => hm a' p (not_exists.mpr hn)
  · rintro a' p b' ⟨b, rfl, hb⟩
    obtain ⟨rfl, rfl⟩ := List.cons.inj hb
    exact ⟨fun ⟨_, hb⟩ => List.cons_ne_self _ _ hb.2.symm, hp.cut b'⟩
  · rintro a' p b' ⟨b, rfl, rfl⟩
    rw [hp.rest 0 (Ne.symm hp.above), h.null, addr, hp.leaves]
  · intro a' p b' hn
    refine hp.rest _ (h.addr_ne hp.above fun hq => hn ⟨b', hq.1, ?_⟩) b'
    rw [hq.2]

theorem Separate.prune (h : Separate root child) (hp : Prunes root child child' a q) :
    Separate root child' := by
  obtain ⟨hc, hr⟩ := addr_prune h hp
  have hs : ∀ {a' p}, addr root child' a' p ≠ 0 → ∀ b, ¬ (a' = a ∧ p = b :: q) := by
    intro a' p hne b hb
    obtain ⟨rfl, rfl⟩ := hb
    exact hne (hc b)
  refine ⟨fun b => ?_, ?_⟩
  · rw [hp.rest 0 (Ne.symm hp.above), h.null]
  intro a1 a2 p1 p2 hne heq
  have h1 := hs hne
  have h2 := hs (heq ▸ hne)
  rw [hr _ _ h1] at hne heq
  rw [hr _ _ h2] at heq
  exact h.inj hne heq

end Prune

end Rah.Lib
