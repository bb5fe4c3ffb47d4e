import Rah.Cache.NodePool

/-!
# The entries of the forest

The index seen as a set of cells, one for each position and slot. `Filed` says where the
entries are: each on the path of its tag, and no tag twice. Under it the cells are a map from
tags to values (`Holds`), and the three ways the cells ever change are changes of that map or
leave it alone: a cell gets an entry, a cell becomes a tombstone, and the entries of a row of
leaves move to the node above them.
-/

namespace Rah.Cache

/-- A live entry stands on its tag's path, and nowhere else. -/
structure Filed (onPath : Word → Nat → List (Fin 8) → Prop) (σ : Cells) : Prop where
  placed : ∀ {a pos i}, isFree (σ a pos i).tag = false → onPath (σ a pos i).tag a pos
  once : ∀ {a pos i a' pos' i'}, isFree (σ a pos i).tag = false →
    (σ a pos i).tag = (σ a' pos' i').tag → a = a' ∧ pos = pos' ∧ i = i'

/-- Some cell has the tag with this value. -/
def Holds (σ : Cells) (tag val : Word) : Prop := ∃ a pos i, σ a pos i = ⟨tag, val⟩

section Cells

variable {onPath : Word → Nat → List (Fin 8) → Prop} {σ σ' : Cells} {a : Nat}
  {q : List (Fin 8)} {i : Fin 4} {tag val : Word}

theorem Filed.holds_unique (h : Filed onPath σ) (hlive : isFree tag = false) (hv : Holds σ tag v)
    (hv' : Holds σ tag v') : v = v' := by
  obtain ⟨a, pos, i, hv⟩ := hv
  obtain ⟨a', pos', i', hv'⟩ := hv'
  have hs : (σ a pos i).tag = (σ a' pos' i').tag := by rw [hv, hv']
  obtain ⟨rfl, rfl, rfl⟩ := h.once (by rw [hv]; exact hlive) hs
  rw [hv] at hv'
  exact congrArg ISlot.val hv'

/-! ## A cell gets an entry -/

/-- The cell has the tag already, or it is free and no cell has the tag. -/
def Takes (σ : Cells) (a : Nat) (q : List (Fin 8)) (i : Fin 4) (tag : Word) : Prop :=
  (σ a q i).tag = tag ∨ isFree (σ a q i).tag = true ∧ ∀ a' pos j, (σ a' pos j).tag ≠ tag

section

variable (h : Filed onPath σ) (hset : CellSet σ σ' a q i ⟨tag, val⟩) (hlive : isFree tag = false)
  (hpath : onPath tag a q) (htakes : Takes σ a q i tag)
include h hset hlive hpath htakes

theorem Filed.set : Filed onPath σ' := by
  -- no other cell has the tag
  have ho : ∀ {a' pos j}, ¬ (a' = a ∧ pos = q ∧ j = i) → (σ a' pos j).tag ≠ tag := by
    intro a' pos j hot heq
    rcases htakes with hs | ⟨_, hn⟩
    · exact hot (h.once (by rw [heq]; exact hlive) (heq.trans hs.symm))
    · exact hn a' pos j heq
  refine ⟨?_, ?_⟩
  · intro a' pos j hl
    by_cases hc : a' = a ∧ pos = q ∧ j = i
    · obtain ⟨rfl, rfl, rfl⟩ := hc
      rw [hset.new]
      exact hpath
    · rw [hset.rest a' pos j hc] at hl ⊢
      exact h.placed hl
  · intro a1 p1 i1 a2 p2 i2 hl heq
    by_cases h1 : a1 = a ∧ p1 = q ∧ i1 = i
    · by_cases h2 : a2 = a ∧ p2 = q ∧ i2 = i
      · obtain ⟨rfl, rfl, rfl⟩ := h1
        obtain ⟨rfl, rfl, rfl⟩ := h2
        exact ⟨rfl, rfl, rfl⟩
      · obtain ⟨rfl, rfl, rfl⟩ := h1
        rw [hset.new, hset.rest _ _ _ h2] at heq
        exact absurd heq.symm (ho h2)
    · rw [hset.rest _ _ _ h1] at hl heq
      by_cases h2 : a2 = a ∧ p2 = q ∧ i2 = i
      · obtain ⟨rfl, rfl, rfl⟩ := h2
        rw [hset.new] at heq
        exact absurd heq (ho h1)
      · rw [hset.rest _ _ _ h2] at heq
        exact h.once hl heq

theorem Holds.set_self (v : Word) : Holds σ' tag v ↔ v = val := by
  have hn : Holds σ' tag val := ⟨a, q, i, hset.new⟩
  refine ⟨fun hv => (h.set hset hlive hpath htakes).holds_unique hlive hv hn, ?_⟩
  intro hv
  subst hv
  exact hn

end

/-- A tag that the cell has neither before nor after keeps its values. -/
theorem CellSet.holds_iff (hset : CellSet σ σ' a q i e) (he : e.tag ≠ t) (ho : (σ a q i).tag ≠ t)
    (v : Word) : Holds σ' t v ↔ Holds σ t v := by
  refine exists_congr fun a' => exists_congr fun pos => exists_congr fun j => ?_
  by_cases hat : a' = a ∧ pos = q ∧ j = i
  · obtain ⟨rfl, rfl, rfl⟩ := hat
    rw [hset.new]
    exact iff_of_false (fun h => he (congrArg ISlot.tag h)) (fun h => ho (congrArg ISlot.tag h))
  · rw [hset.rest _ _ _ hat]

/-- The other tags keep their values. -/
theorem Holds.set_ne (hset : CellSet σ σ' a q i ⟨tag, val⟩) (htakes : Takes σ a q i tag)
    (ht : isFree t = false) (hne : t ≠ tag) (v : Word) : Holds σ' t v ↔ Holds σ t v := by
  refine hset.holds_iff hne.symm (fun heq => ?_) v
  rcases htakes with hs | ⟨hf, _⟩
  · exact hne (heq.symm.trans hs)
  · rw [heq, ht] at hf
    cases hf

/-! ## A cell becomes a tombstone -/

theorem Filed.bury (h : Filed onPath σ) (hset : CellSet σ σ' a q i ⟨iTombstone, 0⟩) :
    Filed onPath σ' := by
  have hcl : ∀ {a' pos j}, isFree (σ' a' pos j).tag = false → ¬ (a' = a ∧ pos = q ∧ j = i) := by
    intro a' pos j hl hc
    obtain ⟨rfl, rfl, rfl⟩ := hc
    rw [hset.new] at hl
    cases hl
  refine ⟨?_, ?_⟩
  · intro a' pos j hl
    have hc := hcl hl
    rw [hset.rest _ _ _ hc] at hl ⊢
    exact h.placed hl
  intro a1 p1 i1 a2 p2 i2 hl heq
  have h1 := hcl hl
  have h2 := hcl (heq ▸ hl)
  rw [hset.rest _ _ _ h1] at hl heq
  rw [hset.rest _ _ _ h2] at heq
  exact h.once hl heq

theorem Holds.bury (h : Filed onPath σ) (hset : CellSet σ σ' a q i ⟨iTombstone, 0⟩)
    (hcl : (σ a q i).tag = tag) (ht : isFree t = false) (v : Word) :
    Holds σ' t v ↔ t ≠ tag ∧ Holds σ t v := by
  have hft : iTombstone ≠ t := by
    intro heq
    rw [← heq] at ht
    cases ht
  by_cases hne : t = tag
  · refine iff_of_false (fun ⟨a', pos, j, hv⟩ => ?_) (fun hv => hv.1 hne)
    by_cases hc : a' = a ∧ pos = q ∧ j = i
    · obtain ⟨rfl, rfl, rfl⟩ := hc
      rw [hset.new] at hv
      exact hft (congrArg ISlot.tag hv)
    · rw [hset.rest _ _ _ hc] at hv
      exact hc (h.once (by rw [hv]; exact ht) (by rw [hv, hcl, hne]))
  · exact (hset.holds_iff hft (fun heq => hne (heq.symm.trans hcl)) v).trans
      (and_iff_right hne).symm

/-! ## A row of leaves is folded into the node above it -/

structure Folds (σ σ' : Cells) (a : Nat) (q : List (Fin 8)) : Prop where
  kept : ∀ i, isFree (σ a q i).tag = false → σ' a q i = σ a q i
  source : ∀ i, σ' a q i = σ a q i
    ∨ isFree (σ a q i).tag = true ∧ ∃ b j, σ a (b :: q) j = σ' a q i
  moved : ∀ b j, isFree (σ a (b :: q) j).tag = false →
    ∃ i, isFree (σ a q i).tag = true ∧ σ' a q i = σ a (b :: q) j
  distinct : ∀ i j, isFree (σ a q i).tag = true → isFree (σ a q j).tag = true →
    isFree (σ' a q i).tag = false → (σ' a q i).tag = (σ' a q j).tag → i = j
  gone : ∀ b i, isFree (σ' a (b :: q) i).tag = true
  rest : ∀ a' pos, ¬ (a' = a ∧ pos = q) → (∀ b, ¬ (a' = a ∧ pos = b :: q)) →
    σ' a' pos = σ a' pos

/-- Where an entry was before the fold. -/
theorem Folds.origin (hf : Folds σ σ' a q) (hlive : isFree (σ' a' pos j).tag = false) :
    (σ a' pos j = σ' a' pos j ∧ ∀ b, ¬ (a' = a ∧ pos = b :: q))
    ∨ (a' = a ∧ pos = q ∧ isFree (σ a q j).tag = true ∧ ∃ b k, σ a (b :: q) k = σ' a' pos j) := by
  have hr : ∀ b, ¬ (a' = a ∧ pos = b :: q) := by
    intro b hb
    obtain ⟨rfl, rfl⟩ := hb
    rw [hf.gone] at hlive
    cases hlive
  by_cases hq : a' = a ∧ pos = q
  · obtain ⟨rfl, rfl⟩ := hq
    rcases hf.source j with hs | ⟨hfr, hs⟩
    · exact .inl ⟨hs.symm, hr⟩
    · exact .inr ⟨rfl, rfl, hfr, hs⟩
  · exact .inl ⟨(congrFun (hf.rest a' pos hq hr) j).symm, hr⟩

theorem Folds.holds (hf : Folds σ σ' a q) (ht : isFree t = false) (v : Word) :
    Holds σ' t v ↔ Holds σ t v := by
  refine ⟨fun hv => ?_, fun hv => ?_⟩
  · obtain ⟨a', pos, j, hv⟩ := hv
    rcases hf.origin (by rw [hv]; exact ht) with ⟨hs, _⟩ | ⟨_, _, _, b, k, hs⟩
    · exact ⟨a', pos, j, hs.trans hv⟩
    · exact ⟨a, b :: q, k, hs.trans hv⟩
  obtain ⟨a', pos, j, hv⟩ := hv
  by_cases hr : ∃ b, a' = a ∧ pos = b :: q
  · obtain ⟨b, rfl, rfl⟩ := hr
    obtain ⟨i, _, hi⟩ := hf.moved b j (by rw [hv]; exact ht)
    exact ⟨a', q, i, hi.trans hv⟩
  · by_cases hq : a' = a ∧ pos = q
    · obtain ⟨rfl, rfl⟩ := hq
      exact ⟨a', pos, j, (hf.kept j (by rw [hv]; exact ht)).trans hv⟩
    · exact ⟨a', pos, j, (congrFun (hf.rest a' pos hq (fun b hb => hr ⟨b, hb⟩)) j).trans hv⟩

theorem Filed.fold (h : Filed onPath σ) (hf : Folds σ σ' a q)
    (hup : ∀ {t b}, onPath t a (b :: q) → onPath t a q) : Filed onPath σ' := by
  refine ⟨?_, ?_⟩
  · intro a' pos j hl
    rcases hf.origin hl with ⟨hs, _⟩ | ⟨rfl, rfl, _, b, k, hs⟩
    · rw [← hs] at hl ⊢
      exact h.placed hl
    · rw [← hs] at hl ⊢
      exact hup (h.placed hl)
  intro a1 p1 i1 a2 p2 i2 hl heq
  have hl2 : isFree (σ' a2 p2 i2).tag = false := heq ▸ hl
  rcases hf.origin hl with ⟨hs1, hr1⟩ | ⟨rfl, rfl, hf1, b1, k1, hs1⟩
  · rcases hf.origin hl2 with ⟨hs2, hr2⟩ | ⟨rfl, rfl, hf2, b2, k2, hs2⟩
    · rw [← hs1] at hl heq
      rw [← hs2] at heq
      exact h.once hl heq
    -- one entry was moved, the other one not
    rw [← hs1] at hl heq
    rw [← hs2] at heq
    obtain ⟨ha, hp, _⟩ := h.once hl heq
    exact absurd ⟨ha, hp⟩ (hr1 b2)
  · rcases hf.origin hl2 with ⟨hs2, hr2⟩ | ⟨rfl, rfl, hf2, b2, k2, hs2⟩
    · rw [← hs1] at hl heq
      rw [← hs2] at heq
      obtain ⟨ha, hp, _⟩ := h.once hl heq
      exact absurd ⟨ha.symm, hp.symm⟩ (hr2 b1)
    · exact ⟨rfl, rfl, hf.distinct i1 i2 hf1 hf2 hl heq⟩

end Cells

end Rah.Cache
