import Mathlib.Data.List.Basic

/-!
# Slices of shared arrays

A slice is the beginning of an array, up to a length. Several slices can share an array, and a write
through one of them is seen through the others. `append` writes behind the end of the slice if the
array has room there, and copies the slice to a new array otherwise.

A slice that is `Behind` another is no longer than the other if they share an array. Appending to
the longer one is not seen through the shorter one. Nothing that is done to an array that is new is
seen through a slice that was there before (`Slice.Valid`).
-/

namespace Rah.Lib

open List

variable {α : Type}

structure Slice where
  array : Nat
  len : Nat
  deriving DecidableEq, Repr

/-- An array, with all of its capacity. -/
def block (m : List (List α)) (i : Nat) : List α := m.getD i []

def view (m : List (List α)) (s : Slice) : List α := (block m s.array).take s.len

structure Slice.Valid (m : List (List α)) (s : Slice) : Prop where
  array_lt : s.array < m.length
  len_le : s.len ≤ (block m s.array).length

/-- There may be more arrays, and those that were there have kept their size. -/
structure Widens (m m' : List (List α)) : Prop where
  length_le : m.length ≤ m'.length
  size_eq : ∀ i < m.length, (block m' i).length = (block m i).length

def Slice.Behind (t s : Slice) : Prop := t.array = s.array → t.len ≤ s.len

/-- The array was not there before. -/
def Slice.Fresh (m : List (List α)) (s : Slice) : Prop := m.length ≤ s.array

/-! ## Operations -/

/-- A new array, and the slice of all of it. -/
def alloc (m : List (List α)) (l : List α) : List (List α) × Slice :=
  (m ++ [l], ⟨m.length, l.length⟩)

/-- The array gets other content. -/
def write (m : List (List α)) (s : Slice) (f : List α → List α) : List (List α) :=
  m.set s.array (f (block m s.array))

/-- `spare` is how much room a new array has left, from the capacity of the old one and the length
that is needed; the room is filled with `zero`. -/
def append (spare : Nat → Nat → Nat) (zero : α) (m : List (List α)) (s : Slice) (xs : List α) :
    List (List α) × Slice :=
  let room := (block m s.array).length
  if s.len + xs.length ≤ room then
    (write m s fun l => l.take s.len ++ xs ++ l.drop (s.len + xs.length),
      ⟨s.array, s.len + xs.length⟩)
  else
    (m ++ [view m s ++ xs ++ List.replicate (spare room (s.len + xs.length)) zero],
      ⟨m.length, s.len + xs.length⟩)

/-! ## What stays -/

section Widens

variable {m m' m'' : List (List α)} {s t : Slice}

theorem Widens.refl (m : List (List α)) : Widens m m := ⟨Nat.le_refl _, fun _ _ => rfl⟩

theorem Widens.trans (h : Widens m m') (h' : Widens m' m'') : Widens m m'' where
  length_le := Nat.le_trans h.length_le h'.length_le
  size_eq i hi := by
    rw [h'.size_eq i (Nat.lt_of_lt_of_le hi h.length_le), h.size_eq i hi]

theorem Slice.Valid.mono (ht : t.Valid m) (h : Widens m m') : t.Valid m' where
  array_lt := Nat.lt_of_lt_of_le ht.array_lt h.length_le
  len_le := by
    rw [h.size_eq _ ht.array_lt]
    exact ht.len_le

theorem Slice.Valid.ne_fresh (ht : t.Valid m) (hs : s.Fresh m) : t.array ≠ s.array :=
  Nat.ne_of_lt (Nat.lt_of_lt_of_le ht.array_lt hs)

theorem Slice.Valid.length_view (ht : t.Valid m) : (view m t).length = t.len := by
  unfold view
  rw [length_take]
  exact Nat.min_eq_left ht.len_le

variable {i : Nat} {f : List α → List α}

theorem block_concat_of_lt (l : List α) (hi : i < m.length) : block (m ++ [l]) i = block m i := by
  unfold block
  simp only [getD_eq_getElem?_getD, getElem?_append_left hi]

theorem block_concat_self : block (m ++ [l]) m.length = l := by
  unfold block
  simp only [getD_eq_getElem?_getD, getElem?_concat_length, Option.getD_some]

theorem widens_concat (l : List α) : Widens m (m ++ [l]) where
  length_le := by
    rw [length_append]
    omega
  size_eq i hi := by rw [block_concat_of_lt l hi]

theorem view_concat (l : List α) (ht : t.Valid m) : view (m ++ [l]) t = view m t := by
  unfold view
  rw [block_concat_of_lt l ht.array_lt]

theorem view_alloc_self : view (alloc m l).1 (alloc m l).2 = l := by
  unfold view alloc
  rw [block_concat_self, take_length]

theorem valid_alloc (l : List α) : (alloc m l).2.Valid (alloc m l).1 := by
  refine ⟨by simp [alloc], ?_⟩
  simp [alloc, block_concat_self]

/-! ### Writing -/

theorem block_write_self (hs : s.array < m.length) :
    block (write m s f) s.array = f (block m s.array) := by
  unfold write block
  rw [getD_eq_getElem?_getD, getElem?_set_self hs, Option.getD_some]

theorem block_write_of_ne (hne : i ≠ s.array) : block (write m s f) i = block m i := by
  unfold write block
  rw [getD_eq_getElem?_getD, getElem?_set_ne (Ne.symm hne), ← getD_eq_getElem?_getD]

theorem widens_write (hf : ∀ l, (f l).length = l.length) : Widens m (write m s f) where
  length_le := Nat.le_of_eq (length_set ..).symm
  size_eq i hi := by
    by_cases h : i = s.array
    · subst h
      rw [block_write_self hi, hf]
    · rw [block_write_of_ne h]

theorem view_write_of_ne (hne : t.array ≠ s.array) : view (write m s f) t = view m t := by
  unfold view
  rw [block_write_of_ne hne]

/-- A write that changes nothing. -/
theorem write_eq_self (hf : f (block m s.array) = block m s.array) : write m s f = m := by
  unfold write
  rw [hf]
  by_cases hs : s.array < m.length
  · unfold block
    rw [getD_eq_getElem?_getD, getElem?_eq_getElem hs, Option.getD_some, set_getElem_self]
  · exact set_eq_of_length_le (by omega)

theorem view_set {v : α} (hs : s.array < m.length) (ht : t.array = s.array) :
    view (write m s fun l => l.set i v) t = (view m t).set i v := by
  unfold view
  rw [ht, block_write_self hs, take_set]

/-- Two slices of an array show the same cells. -/
theorem eq_of_view (ht : t.array = s.array) (hx : (view m t)[i]? = some x)
    (hy : (view m s)[i]? = some y) : x = y := by
  unfold view at hx hy
  rw [ht, getElem?_take] at hx
  rw [getElem?_take] at hy
  split at hx
  · split at hy
    · exact Option.some.inj (hx.symm.trans hy)
    · cases hy
  · cases hx

/-- A cell is given the value it has. -/
theorem write_set_eq_self (h : (view m s)[i]? = some v) : write m s (fun l => l.set i v) = m := by
  obtain ⟨hi, rfl⟩ := List.getElem?_eq_some_iff.mp h
  refine write_eq_self ?_
  simp only [view, getElem_take, set_getElem_self]

/-! ### Appending -/

variable {spare : Nat → Nat → Nat} {zero : α} {xs : List α}

/-- The slice is written over, or copied. -/
theorem append_cases (spare : Nat → Nat → Nat) (zero : α) (m : List (List α)) (s : Slice)
    (xs : List α) :
    (s.len + xs.length ≤ (block m s.array).length
        ∧ (append spare zero m s xs).1
          = write m s (fun l => l.take s.len ++ xs ++ l.drop (s.len + xs.length))
        ∧ (append spare zero m s xs).2 = ⟨s.array, s.len + xs.length⟩)
      ∨ ((block m s.array).length < s.len + xs.length
        ∧ (∃ rest, (append spare zero m s xs).1 = m ++ [view m s ++ xs ++ rest])
        ∧ (append spare zero m s xs).2 = ⟨m.length, s.len + xs.length⟩) := by
  unfold append
  dsimp only
  split
  · rename_i hr
    exact .inl ⟨hr, rfl, rfl⟩
  · rename_i hr
    exact .inr ⟨Nat.lt_of_not_le hr, ⟨_, rfl⟩, rfl⟩

theorem length_overwrite {l : List α} (h : n + xs.length ≤ l.length) :
    (l.take n ++ xs ++ l.drop (n + xs.length)).length = l.length := by
  simp only [length_append, length_take, length_drop]
  omega

theorem widens_append : Widens m (append spare zero m s xs).1 := by
  rcases append_cases spare zero m s xs with ⟨hr, h, -⟩ | ⟨-, ⟨rest, h⟩, -⟩
  · rw [h]
    refine ⟨Nat.le_of_eq (length_set ..).symm, fun i hi => ?_⟩
    by_cases hs : i = s.array
    · subst hs
      rw [block_write_self hi, length_overwrite hr]
    · rw [block_write_of_ne hs]
  · rw [h]
    exact widens_concat _

theorem len_append : (append spare zero m s xs).2.len = s.len + xs.length := by
  rcases append_cases spare zero m s xs with ⟨-, -, h⟩ | ⟨-, -, h⟩ <;> rw [h]

/-- If there is no room, the slice is copied. -/
theorem fresh_append (hr : (block m s.array).length < s.len + xs.length) :
    (append spare zero m s xs).2.Fresh m := by
  rcases append_cases spare zero m s xs with ⟨hle, -, -⟩ | ⟨-, -, h⟩
  · omega
  · rw [h]
    exact Nat.le_refl _

theorem array_append : (append spare zero m s xs).2.array = s.array
    ∨ (append spare zero m s xs).2.Fresh m := by
  rcases append_cases spare zero m s xs with ⟨-, -, h⟩ | ⟨hr, -, -⟩
  · exact .inl (by rw [h])
  · exact .inr (fresh_append hr)

theorem valid_append (hs : s.Valid m) : (append spare zero m s xs).2.Valid
    (append spare zero m s xs).1 := by
  rcases append_cases spare zero m s xs with ⟨hr, h, h'⟩ | ⟨-, ⟨rest, h⟩, h'⟩
  · rw [h, h']
    refine ⟨Nat.lt_of_lt_of_eq hs.array_lt (length_set ..).symm, ?_⟩
    rw [block_write_self hs.array_lt, length_overwrite hr]
    exact hr
  · rw [h, h']
    refine ⟨by simp, ?_⟩
    rw [block_concat_self, length_append, length_append, hs.length_view]
    exact Nat.le_add_right _ _

/-- What a slice behind shows does not change. -/
theorem view_append_behind (ht : t.Valid m) (hb : t.Behind s) :
    view (append spare zero m s xs).1 t = view m t := by
  rcases append_cases spare zero m s xs with ⟨hr, h, -⟩ | ⟨-, ⟨rest, h⟩, -⟩
  · rw [h]
    by_cases hs : t.array = s.array
    · have hl : t.len ≤ s.len := hb hs
      unfold view
      rw [hs, block_write_self (hs ▸ ht.array_lt), append_assoc,
        take_append_of_le_length (by rw [length_take]; omega), take_take,
        Nat.min_eq_left hl]
    · exact view_write_of_ne hs
  · rw [h]
    exact view_concat _ ht

/-- The appended slice is where it was, and longer, or in an array that is new. -/
theorem behind_append (ht : t.Valid m) (hb : t.Behind s) :
    t.Behind (append spare zero m s xs).2 := by
  rcases append_cases spare zero m s xs with ⟨-, -, h⟩ | ⟨-, -, h⟩
  · rw [h]
    intro hs
    exact Nat.le_trans (hb hs) (Nat.le_add_right _ _)
  · rw [h]
    intro hs
    exact absurd hs (Nat.ne_of_lt ht.array_lt)

end Widens

end Rah.Lib
