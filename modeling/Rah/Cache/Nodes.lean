import Rah.Cache.Index

/-!
# The slots of one node

What the operations do to a single node. `INode.Tidy` is the invariant every node of the
memory keeps: each H2 group is the one of the slot's entry, so that the filter overlooks
nothing, and no slot is used after an empty one, so that the first empty slot ends a
search. Each operation on a node then has one lemma that says which slots it changes.
-/

namespace Rah.Cache

open Rah.Lib List Function INode

structure INode.Tidy (node : INode) : Prop where
  h2 : ∀ i, lane node.h2word i =
    if isFree (node.slots i).tag then 0 else h2ForTag (node.slots i).tag
  dense : ∀ i j, i < j → (node.slots i).tag = iEmpty → isFree (node.slots j).tag = true

theorem isFree_iff (tag : Word) : isFree tag = true ↔ tag = iEmpty ∨ tag = iTombstone := by
  simp [isFree]

theorem ne_iEmpty_of_live (h : isFree tag = false) : tag ≠ iEmpty := by
  intro heq
  rw [(isFree_iff tag).mpr (.inl heq)] at h
  cases h

theorem isFree_iEmpty : isFree iEmpty = true := by decide

theorem isFree_iTombstone : isFree iTombstone = true := by decide

theorem lane_h2Set : lane (h2Set w i v) j = if j = i then v else lane w j := lane_setLane w i j v

/-- **The filter has no false negatives.** -/
theorem h2AnyMatch_of_lane (h : lane word i = q) : h2AnyMatch word q = true := by
  refine hasZeroLane_of_lane (x := word ^^^ broadcast q) (i := i) ?_
  have hq := lane_broadcast q i
  unfold lane at h hq ⊢
  rw [BitVec.extractLsb'_xor, h, hq, BitVec.xor_self]

theorem INode.tidy_blank (t : Int) : INode.Tidy { blank with freedAt := t } where
  h2 := fun i => by
    rw [show lane blank.h2word i = 0 from lane_zero i]
    rfl
  dense := fun _ _ _ _ => isFree_iEmpty

section Slots

variable {node : INode} {i : Fin 4} {tag val : Word}

@[simp] theorem INode.put_slots_self : (node.put i tag val).slots i = ⟨tag, val⟩ := update_self ..

theorem INode.put_slots_ne (h : j ≠ i) : (node.put i tag val).slots j = node.slots j :=
  update_of_ne h ..

@[simp] theorem INode.setVal_slots_self : (node.setVal i val).slots i = ⟨(node.slots i).tag, val⟩ :=
  update_self ..

theorem INode.setVal_slots_ne (h : j ≠ i) : (node.setVal i val).slots j = node.slots j :=
  update_of_ne h ..

@[simp] theorem INode.bury_slots_self : (node.bury i).slots i = ⟨iTombstone, 0⟩ := update_self ..

theorem INode.bury_slots_ne (h : j ≠ i) : (node.bury i).slots j = node.slots j := update_of_ne h ..

theorem INode.setVal_tag : ((node.setVal i val).slots j).tag = (node.slots j).tag := by
  by_cases h : j = i
  · subst h
    rw [setVal_slots_self]
  · rw [setVal_slots_ne h]

theorem INode.Tidy.put (h : node.Tidy) (hl : isFree tag = false)
    (hf : ∀ a, a < i → (node.slots a).tag ≠ iEmpty) : (node.put i tag val).Tidy where
  h2 := by
    intro j
    show lane (h2Set node.h2word i (h2ForTag tag)) j = _
    rw [lane_h2Set]
    by_cases hj : j = i
    · subst hj
      rw [put_slots_self, if_pos rfl, if_neg (by rw [hl]; decide)]
    · rw [if_neg hj, put_slots_ne hj, h.h2]
  dense := by
    intro a b hab ha
    have hai : a ≠ i := by
      intro heq
      subst heq
      rw [put_slots_self] at ha
      exact ne_iEmpty_of_live hl ha
    rw [put_slots_ne hai] at ha
    have hbi : b ≠ i := by
      intro heq
      subst heq
      exact hf a hab ha
    rw [put_slots_ne hbi]
    exact h.dense a b hab ha

theorem INode.Tidy.setVal (h : node.Tidy) : (node.setVal i val).Tidy where
  h2 := by
    intro j
    rw [setVal_tag]
    exact h.h2 j
  dense := by
    intro a b hab ha
    rw [setVal_tag] at ha ⊢
    exact h.dense a b hab ha

theorem INode.Tidy.bury (h : node.Tidy) (i : Fin 4) : (node.bury i).Tidy where
  h2 := by
    intro j
    show lane (h2Set node.h2word i 0) j = _
    rw [lane_h2Set]
    by_cases hj : j = i
    · subst hj
      rw [bury_slots_self, if_pos rfl, if_pos isFree_iTombstone]
    · rw [if_neg hj, bury_slots_ne hj, h.h2]
  dense := by
    intro a b hab ha
    have hai : a ≠ i := by
      intro heq
      subst heq
      rw [bury_slots_self] at ha
      cases ha
    rw [bury_slots_ne hai] at ha
    by_cases hbi : b = i
    · subst hbi
      rw [bury_slots_self]
      exact isFree_iTombstone
    · rw [bury_slots_ne hbi]
      exact h.dense a b hab ha

/-! ## Finding the slot of a tag -/

theorem INode.slotOf_some (h : node.slotOf tag = some i) : (node.slots i).tag = tag := by
  have := find?_some h
  simpa using this

theorem INode.slotOf_none (h : node.slotOf tag = none) (j : Fin 4) : (node.slots j).tag ≠ tag := by
  have := find?_eq_none.mp h j (mem_finRange j)
  simpa using this

/-- The filter in front of the search changes nothing. -/
theorem INode.Tidy.filter_slotOf (h : node.Tidy) (hlv : isFree tag = false) :
    (if h2AnyMatch node.h2word (h2ForTag tag) then node.slotOf tag else none)
      = node.slotOf tag := by
  cases hs : node.slotOf tag with
  | none => exact ite_self _
  | some i =>
  have ht := slotOf_some hs
  have hl : lane node.h2word i = h2ForTag tag := by
    rw [h.h2 i, ht, if_neg (by rw [hlv]; decide)]
  rw [if_pos (h2AnyMatch_of_lane hl)]

/-! ## Inserting an entry -/

/-- The tag's slot is updated, or a free one is used, or all slots are taken. -/
def INode.Inserts (node : INode) (tag val : Word) (r : Option INode) : Prop :=
  (∃ i, (node.slots i).tag = tag ∧ r = some (node.setVal i val))
    ∨ (∃ i, (∀ j, (node.slots j).tag ≠ tag) ∧ isFree (node.slots i).tag = true
        ∧ (∀ a, a < i → (node.slots a).tag ≠ iEmpty) ∧ r = some (node.put i tag val))
    ∨ ((∀ j, isFree (node.slots j).tag = false ∧ (node.slots j).tag ≠ tag) ∧ r = none)

theorem insertLoop_cases (h : node.Tidy) (hl : isFree tag = false) (l : List (Fin 4))
    (tomb : Option (Fin 4)) (hsr : l.Pairwise (· < ·))
    (hs : ∀ a, a ∉ l → (node.slots a).tag ≠ tag ∧ (node.slots a).tag ≠ iEmpty)
    (htm : ∀ t, tomb = some t → (node.slots t).tag = iTombstone)
    (hnn : tomb = none → ∀ a, a ∉ l → (node.slots a).tag ≠ iTombstone) :
    node.Inserts tag val (insertLoop node tag val l tomb) := by
  induction l generalizing tomb with
  | nil =>
    have ho : ∀ j, (node.slots j).tag ≠ tag := fun j => (hs j (by simp)).1
    cases tomb with
    | some t =>
      refine .inr (.inl ⟨t, ho, ?_, fun a _ => (hs a (by simp)).2, rfl⟩)
      exact (isFree_iff _).mpr (.inr (htm t rfl))
    | none =>
    refine .inr (.inr ⟨fun j => ⟨?_, ho j⟩, rfl⟩)
    rw [Bool.eq_false_iff, Ne, isFree_iff]
    intro hj
    rcases hj with hj | hj
    · exact (hs j (by simp)).2 hj
    · exact hnn rfl j (by simp) hj
  | cons i rest ih =>
    obtain ⟨hi, hr⟩ := pairwise_cons.mp hsr
    rw [insertLoop]
    by_cases htg : (node.slots i).tag = tag
    · exact .inl ⟨i, htg, by simp [htg]⟩
    by_cases he : (node.slots i).tag = iEmpty
    · -- an empty slot: nothing after it is live
      have hb : ∀ a, a < i → a ∉ i :: rest := by
        intro a ha hm
        rcases mem_cons.mp hm with rfl | hm
        · omega
        · exact absurd (hi a hm) (not_lt.mpr (le_of_lt ha))
      refine .inr (.inl ⟨i, ?_, (isFree_iff _).mpr (.inl he),
        fun a ha => (hs a (hb a ha)).2, by rw [if_neg htg, if_pos he]⟩)
      intro j
      rcases lt_trichotomy j i with hj | rfl | hj
      · exact (hs j (hb j hj)).1
      · exact htg
      intro heq
      have hf := h.dense i j hj he
      rw [heq, hl] at hf
      cases hf
    have hseen' : ∀ a, a ∉ rest → (node.slots a).tag ≠ tag ∧ (node.slots a).tag ≠ iEmpty := by
      intro a ha
      by_cases hai : a = i
      · subst hai
        exact ⟨htg, he⟩
      · exact hs a (by simp [hai, ha])
    simp only [htg, he, if_false]
    split
    · rename_i hbr
      refine ih _ hr hseen' ?_ ?_
      · intro t ht
        cases tomb with
        | some t' =>
          exact htm t ht
        | none =>
          cases ht
          exact hbr
      · intro hn
        cases tomb with
        | some t' | none => exact absurd hn (by simp)
    · rename_i hbr
      refine ih tomb hr hseen' htm ?_
      intro hn a ha
      by_cases hai : a = i
      · subst hai
        exact hbr
      · exact hnn hn a (by simp [hai, ha])

/-- What `insertAt` does: it updates the tag's slot, or uses a free one, or finds all slots
taken. -/
theorem insertAt_cases (h : node.Tidy) (hl : isFree tag = false) :
    node.Inserts tag val (insertAt node tag val) :=
  insertLoop_cases h hl _ none (pairwise_lt_finRange 4)
    (fun a ha => absurd (mem_finRange a) ha) nofun
    (fun _ a ha => absurd (mem_finRange a) ha)

end Slots

/-! ## Moving entries -/

/-- The live entries of a node. -/
def INode.entries (node : INode) : List ISlot :=
  ((List.finRange 4).map node.slots).filter (fun s => !isFree s.tag)

theorem INode.mem_entries {node : INode} {e : ISlot} :
    e ∈ node.entries ↔ isFree e.tag = false ∧ ∃ i, node.slots i = e := by
  simp [entries, and_comm]

theorem INode.entries_blank (t : Int) : entries { blank with freedAt := t } = [] := by
  rfl

theorem INode.entries_nodup {node : INode} (h : ∀ i j, isFree (node.slots i).tag = false →
      (node.slots i).tag = (node.slots j).tag → i = j) :
    (node.entries.map ISlot.tag).Nodup := by
  rw [entries, filter_map, map_map]
  refine List.Nodup.map_on ?_ ((nodup_finRange 4).filter _)
  intro i hi j _ heq
  exact h i j (by simpa using hi) heq

theorem collectSlots_eq (l : List (Fin 4)) (h : collectSlots child l live = some es) :
    es = live ++ (l.map child.slots).filter (fun s => !isFree s.tag) := by
  induction l generalizing live with
  | nil =>
    cases h
    simp
  | cons i rest ih =>
  rw [collectSlots] at h
  split at h
  · rename_i hf
    rw [ih h, map_cons, filter_cons_of_neg (by simp [hf])]
  rename_i hf
  split at h
  · cases h
  · rw [ih h, map_cons, filter_cons_of_pos (by simp [hf]), append_assoc]
    rfl

theorem INode.children_of_not_hasChildren {node : INode} (h : ¬ node.hasChildren = true)
    (b : Fin 8) : node.children b = 0 := by
  by_contra hne
  exact h (any_eq_true.mpr ⟨b, mem_finRange b, by simp [hne]⟩)

/-- What was collected are the live entries of the children, and these are leaves. -/
theorem collectChildren_eq (hn : (p.nodes 0).entries = []) (hlf : ∀ b, (p.nodes 0).children b = 0)
    (l : List (Fin 8)) (h : collectChildren p parent l live = some es) :
    es = live ++ l.flatMap (fun b => (p.nodes (parent.children b)).entries)
      ∧ ∀ b ∈ l, ∀ b', (p.nodes (parent.children b)).children b' = 0 := by
  induction l generalizing live with
  | nil =>
    cases h
    simp
  | cons b rest ih =>
  rw [collectChildren] at h
  split at h
  · rename_i hz
    obtain ⟨hes, hl⟩ := ih h
    refine ⟨by rw [hes, flatMap_cons, hz, hn, nil_append], ?_⟩
    intro b1 hb1
    rcases mem_cons.mp hb1 with rfl | hb1
    · rw [hz]
      exact hlf
    · exact hl b1 hb1
  · by_cases hk : (p.nodes (parent.children b)).hasChildren = true
    · simp only [hk] at h
      cases h
    simp only [hk] at h
    cases hc : collectSlots (p.nodes (parent.children b)) (finRange 4) live with
    | none =>
      rw [hc] at h
      cases h
    | some live' =>
    rw [hc] at h
    obtain ⟨hes, hl⟩ := ih h
    refine ⟨?_, ?_⟩
    · rw [hes, collectSlots_eq _ hc, append_assoc]
      rfl
    intro b1 hb1
    rcases mem_cons.mp hb1 with rfl | hb1
    · exact children_of_not_hasChildren hk
    · exact hl b1 hb1

/-- The node `r` is `node` with the entries in its free slots among `l`. -/
structure Filled (node : INode) (l : List (Fin 4)) (es : List ISlot) (r : INode) : Prop where
  kept : ∀ i, i ∉ l ∨ isFree (node.slots i).tag = false → r.slots i = node.slots i
  source : ∀ i, r.slots i = node.slots i ∨ isFree (node.slots i).tag = true ∧ r.slots i ∈ es
  placed : es.length ≤ l.countP (fun i => isFree (node.slots i).tag) →
    ∀ e ∈ es, ∃ i ∈ l, isFree (node.slots i).tag = true ∧ r.slots i = e
  distinct : (es.map ISlot.tag).Nodup → ∀ i j, isFree (node.slots i).tag = true →
    isFree (node.slots j).tag = true → isFree (r.slots i).tag = false →
    (r.slots i).tag = (r.slots j).tag → i = j
  children : r.children = node.children

theorem Filled.self (h : es.length ≤ l.countP (fun i => isFree (node.slots i).tag) → es = []) :
    Filled node l es node := by
  refine ⟨fun _ _ => rfl, fun _ => .inl rfl, fun hln e he => ?_, fun _ i j hi _ hl => ?_, rfl⟩
  · rw [h hln] at he
    cases he
  · rw [hi] at hl
    cases hl

/-- The first slot is free and gets the first entry. -/
theorem Filled.fill (hi : i ∉ rest) (hf : isFree (node.slots i).tag = true)
    (h : Filled (node.put i e.tag e.val) rest es r) : Filled node (i :: rest) (e :: es) r := by
  have hsl : r.slots i = e := (h.kept i (.inl hi)).trans put_slots_self
  have hne : ∀ {j}, j ≠ i → (node.put i e.tag e.val).slots j = node.slots j :=
    fun hj => put_slots_ne hj
  refine ⟨fun j hj => ?_, fun j => ?_, fun hln e' he' => ?_, ?_, h.children⟩
  · have hji : j ≠ i := by
      rintro rfl
      rcases hj with hj | hj
      · exact hj mem_cons_self
      · rw [hf] at hj
        cases hj
    rw [← hne hji]
    refine h.kept j ?_
    rw [hne hji]
    exact hj.imp_left (fun hj hm => hj (mem_cons_of_mem _ hm))
  · by_cases hji : j = i
    · subst hji
      exact .inr ⟨hf, by rw [hsl]; exact mem_cons_self⟩
    · have := h.source j
      rw [hne hji] at this
      exact this.imp_right (fun hj => ⟨hj.1, mem_cons_of_mem _ hj.2⟩)
  · rcases mem_cons.mp he' with rfl | he'
    · exact ⟨i, mem_cons_self, hf, hsl⟩
    have hc : rest.countP (fun j => isFree ((node.put i e.tag e.val).slots j).tag)
        = rest.countP (fun j => isFree (node.slots j).tag) := by
      refine countP_congr (fun j hj => ?_)
      rw [hne (fun heq => hi (heq ▸ hj))]
    rw [countP_cons_of_pos (p := fun i => isFree (node.slots i).tag) hf, length_cons] at hln
    obtain ⟨j, hj, hjf, hje⟩ := h.placed (by rw [hc]; omega) e' he'
    rw [hne (fun heq => hi (heq ▸ hj))] at hjf
    exact ⟨j, mem_cons_of_mem _ hj, hjf, hje⟩
  · intro ht j k hj hk hl heq
    obtain ⟨hfr, ht⟩ := nodup_cons.mp ht
    -- the slot just filled has a tag of its own
    have ho : ∀ {k}, k ≠ i → isFree (node.slots k).tag = true →
        isFree (r.slots k).tag = false → (r.slots k).tag ≠ e.tag := by
      intro k hki hkf hkl htg
      rcases h.source k with hs | ⟨_, hs⟩
      · rw [hs, hne hki, hkf] at hkl
        cases hkl
      · exact hfr (htg ▸ mem_map_of_mem hs)
    by_cases hji : j = i
    · subst hji
      by_contra hjk
      rw [heq] at hl
      rw [hsl] at heq
      exact ho (Ne.symm hjk) hk hl heq.symm
    by_cases hki : k = i
    · subst hki
      rw [hsl] at heq
      exact absurd heq (ho hji hj hl)
    · exact h.distinct ht j k (by rwa [hne hji]) (by rwa [hne hki]) hl heq

/-- The first slot is taken. -/
theorem Filled.skip (hf : ¬ isFree (node.slots i).tag = true) (h : Filled node rest es r) :
    Filled node (i :: rest) es r := by
  refine ⟨fun j hj => ?_, h.source, fun hln e he => ?_, h.distinct, h.children⟩
  · by_cases hji : j = i
    · exact h.kept j (.inr (by simpa [hji] using hf))
    · exact h.kept j (hj.imp_left (fun hj hm => hj (mem_cons_of_mem _ hm)))
  · rw [countP_cons_of_neg (p := fun i => isFree (node.slots i).tag) hf] at hln
    obtain ⟨j, hj, hjs⟩ := h.placed hln e he
    exact ⟨j, mem_cons_of_mem _ hj, hjs⟩

theorem fillSlots_filled (l : List (Fin 4)) (node : INode) (es : List ISlot) (hn : l.Nodup) :
    Filled node l es (fillSlots node l es) := by
  induction l generalizing node es with
  | nil =>
    rw [show fillSlots node [] es = node by cases es <;> rfl]
    exact .self fun h => length_eq_zero_iff.mp (Nat.le_zero.mp h)
  | cons i rest ih =>
  obtain ⟨hi, hr⟩ := nodup_cons.mp hn
  cases es with
  | nil => exact .self fun _ => rfl
  | cons e es =>
  rw [fillSlots]
  split
  · rename_i hf
    exact .fill hi hf (ih _ es hr)
  · rename_i hf
    exact .skip hf (ih node (e :: es) hr)

theorem fillSlots_tidy (l : List (Fin 4)) (h : node.Tidy) (hs : l.Pairwise (· < ·))
    (hu : ∀ a, a ∉ l → (node.slots a).tag ≠ iEmpty) (hl : ∀ e ∈ es, isFree e.tag = false) :
    (fillSlots node l es).Tidy := by
  induction l generalizing node es with
  | nil => cases es <;> exact h
  | cons i rest ih =>
  obtain ⟨hi, hr⟩ := pairwise_cons.mp hs
  cases es with
  | nil => exact h
  | cons e es =>
  have he := hl e (mem_cons_self ..)
  rw [fillSlots]
  split
  · have hb : ∀ a, a < i → a ∉ i :: rest := by
      intro a ha hm
      rcases mem_cons.mp hm with rfl | hm
      · omega
      · exact absurd (hi a hm) (not_lt.mpr (le_of_lt ha))
    refine ih (h.put he (fun a ha => hu a (hb a ha))) hr ?_
      (fun e' he' => hl e' (mem_cons_of_mem _ he'))
    intro a ha
    by_cases hai : a = i
    · subst hai
      rw [put_slots_self]
      exact ne_iEmpty_of_live he
    · rw [put_slots_ne hai]
      exact hu a (by simp [hai, ha])
  · rename_i hf
    refine ih h hr ?_ hl
    intro a ha
    by_cases hai : a = i
    · subst hai
      exact ne_iEmpty_of_live (by simpa using hf)
    · exact hu a (by simp [hai, ha])

end Rah.Cache
