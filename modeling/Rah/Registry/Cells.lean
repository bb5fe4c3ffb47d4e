import Rah.Lib.Rows
import Rah.Registry.Keys

/-!
# The cells of a store

What a reader sees of a registry is the value of each cell (`view`). Adding a column,
adding rows and interning a value leave every cell as it is; a write changes one.
-/

namespace Rah.Registry

open Rah.Lib List
open Nat (mod_eq_of_lt succ_mul)

/-! ## Migration -/

section Expand

variable {old : PropStore} {rows newStride : Nat}

/-- A cell of the new matrix: that of the old one if it had it, else unset. -/
def migrated (old : PropStore) (rows t i : Nat) : Nat :=
  if t < rows ∧ i < old.stride then (old.matrix[t * old.stride + i]?).getD 0 else 0

variable {start n total : Nat}

theorem copyRow_getElem? (h : copyRow dst start row = some m) :
    m[j]? = if start ≤ j ∧ j < start + row.length then row[j - start]? else dst[j]? := by
  unfold copyRow at h
  split at h
  · obtain rfl := Option.some.inj h
    have ht : (dst.take start).length = start := by
      rw [length_take]
      omega
    by_cases hlo : j < start
    · rw [if_neg (by omega), append_assoc, getElem?_append_left (by omega), getElem?_take_of_lt hlo]
    by_cases hhi : j < start + row.length
    · rw [if_pos ⟨by omega, hhi⟩, append_assoc, getElem?_append_right (by omega), ht,
        getElem?_append_left (by omega)]
    rw [if_neg (by omega), getElem?_append_right (by rw [length_append]; omega), getElem?_drop,
      length_append]
    congr 1
    omega
  · cases h

theorem copyRow_some (h : start + row.length ≤ dst.length) :
    ∃ m, copyRow dst start row = some m ∧ m.length = dst.length := by
  refine ⟨_, if_pos h, ?_⟩
  simp only [length_append, length_take, length_drop]
  omega

section

variable (hlen : old.matrix.length = rows * old.stride) (hle : old.stride ≤ newStride)
include hlen hle

/-- One row is copied. -/
theorem migrateRow_spec (hp : 0 < old.stride) (hn : n < total)
    (hs : total * newStride < 4294967296) (hm : m.length = total * newStride) :
    ∃ m', migrateRow old newStride m n = some m' ∧ m'.length = m.length
      ∧ ∀ t i, i < newStride → m'[t * newStride + i]?
          = if t = n ∧ n < rows ∧ i < old.stride then old.matrix[n * old.stride + i]?
            else m[t * newStride + i]? := by
  have hrw : (n + 1) * newStride ≤ total * newStride := Nat.mul_le_mul_right _ hn
  have ho : (n + 1) * old.stride ≤ (n + 1) * newStride := Nat.mul_le_mul_left _ hle
  rw [succ_mul] at hrw
  rw [succ_mul, succ_mul] at ho
  unfold migrateRow
  dsimp only
  rw [uint32, uint32, uint32, mod_eq_of_lt (show n * old.stride < 4294967296 by omega),
    mod_eq_of_lt (show n * old.stride + old.stride < 4294967296 by omega),
    mod_eq_of_lt (show n * newStride < 4294967296 by omega)]
  by_cases hin : n < rows
  · have he : n * old.stride + old.stride ≤ old.matrix.length := by
      have := Nat.mul_le_mul_right old.stride hin
      rw [succ_mul] at this
      omega
    have hr : ((old.matrix.drop (n * old.stride)).take old.stride).length = old.stride := by
      rw [length_take, length_drop]
      omega
    rw [if_pos he]
    have hf : n * newStride + ((old.matrix.drop (n * old.stride)).take old.stride).length
        ≤ m.length := by
      omega
    obtain ⟨m', hm', hlen'⟩ := copyRow_some hf
    refine ⟨m', hm', hlen', ?_⟩
    intro t i hi
    rw [copyRow_getElem? hm']
    by_cases hc : t = n ∧ n < rows ∧ i < old.stride
    · obtain ⟨rfl, _, hi'⟩ := hc
      rw [if_pos ⟨by omega, by omega⟩, if_pos ⟨rfl, hin, hi'⟩, Nat.add_sub_cancel_left,
        getElem?_take_of_lt hi', getElem?_drop]
    rw [if_neg hc, if_neg]
    intro hrn
    have hcl : i = t * newStride + i - n * newStride ∧ t = n := by
      have hid : t * newStride + i = n * newStride + (t * newStride + i - n * newStride) := by omega
      obtain ⟨h1, h2⟩ := rowIdx_inj hi (by omega) hid
      exact ⟨h2, h1⟩
    exact hc ⟨hcl.2, hin, by omega⟩
  · have hot : ¬ n * old.stride + old.stride ≤ old.matrix.length := by
      have := Nat.mul_le_mul_right old.stride (Nat.le_of_not_lt hin)
      omega
    rw [if_neg hot]
    refine ⟨m, rfl, rfl, ?_⟩
    intro t i _
    rw [if_neg (fun h => hin h.2.1)]

/-- After `n` rows the old cells of these are in the new matrix, and all others are unset. -/
theorem migrate_rows (hp : 0 < old.stride) (hs : total * newStride < 4294967296) (hn : n ≤ total) :
    ∃ m, (range n).foldlM (migrateRow old newStride)
        (replicate (uint32 (total * newStride)) 0) = some m
      ∧ m.length = total * newStride
      ∧ ∀ t < total, ∀ i < newStride,
          m[t * newStride + i]? = some (if t < n then migrated old rows t i else 0) := by
  induction n with
  | zero =>
    refine ⟨_, rfl, ?_, ?_⟩
    · rw [length_replicate, uint32, mod_eq_of_lt hs]
    · intro t ht i hi
      have := rowIdx_lt ht hi
      rw [getElem?_replicate, uint32, mod_eq_of_lt hs, if_pos this, if_neg (by omega)]
  | succ n ih =>
  obtain ⟨m, hm, hml, hcl⟩ := ih (by omega)
  obtain ⟨m', hm', hlen', hcells'⟩ := migrateRow_spec hlen hle hp (show n < total by omega) hs hml
  refine ⟨m', ?_, hlen'.trans hml, ?_⟩
  · rw [range_succ, foldlM_append, hm]
    simpa using hm'
  intro t ht i hi
  rw [hcells' t i hi, hcl t ht i hi]
  by_cases htn : t = n
  · subst htn
    rw [if_pos (Nat.lt_succ_self t), migrated]
    by_cases hc : t < rows ∧ i < old.stride
    · have hid := rowIdx_lt hc.1 hc.2
      rw [← hlen] at hid
      rw [if_pos ⟨rfl, hc⟩, if_pos hc, getElem?_eq_getElem hid]
      rfl
    · rw [if_neg (fun h => hc h.2), if_neg (by omega), if_neg hc]
  · rw [if_neg (fun h => htn h.1)]
    split
    · rw [if_pos (by omega)]
    · rw [if_neg (by omega)]

/-- **A store keeps its cells when it grows.** -/
theorem expandPropStore_spec (hs : total * newStride < 4294967296) :
    ∃ m, expandPropStore old total newStride = some { old with matrix := m, stride := newStride }
      ∧ m.length = total * newStride
      ∧ ∀ t < total, ∀ i < newStride, m[t * newStride + i]? = some (migrated old rows t i) := by
  unfold expandPropStore
  by_cases hp : 0 < old.stride
  · obtain ⟨m, hm, hml, hc⟩ := migrate_rows hlen hle hp hs (Nat.le_refl total)
    refine ⟨m, ?_, hml, ?_⟩
    · dsimp only
      rw [if_pos hp, hm]
      rfl
    · intro t ht i hi
      rw [hc t ht i hi, if_pos ht]
  · refine ⟨replicate (uint32 (total * newStride)) 0, ?_, ?_, ?_⟩
    · dsimp only
      rw [if_neg hp]
      rfl
    · rw [length_replicate, uint32, mod_eq_of_lt hs]
    · intro t ht i hi
      have := rowIdx_lt ht hi
      rw [getElem?_replicate, uint32, mod_eq_of_lt hs, if_pos this, migrated, if_neg (by omega)]

end

end Expand

/-! ## Stores -/

/-- The value number in a cell; zero outside the matrix. -/
def cellOf (store : PropStore) (t i : Nat) : Nat :=
  (store.matrix[t * store.stride + i]?).getD 0

theorem cellOf_insert :
    cellOf (insertIntoPropertiesRadix store key val) t i = cellOf store t i := rfl

/-- The store has these columns and this many rows, and its cells hold numbers below `values`. -/
structure StoreInv (store : PropStore) (rows : Nat) (cols : List Bytes) (values : Nat) : Prop where
  keyed : Keyed store cols
  grid : store.matrix.length = rows * cols.length
  cells : ∀ t i, i < cols.length → cellOf store t i = 0 ∨ cellOf store t i < values

theorem storeInv_empty (rows values : Nat) : StoreInv PropStore.empty rows [] values :=
  ⟨keyed_empty, rfl, nofun⟩

section Store

variable {store : PropStore} {rows values : Nat} {cols : List Bytes}

section

variable (h : StoreInv store rows cols values)
include h

theorem StoreInv.grid_stride : store.matrix.length = rows * store.stride := by
  rw [h.grid, h.keyed.stride]

/-- An index of a 16-bit tenant and a column does not overflow. -/
theorem StoreInv.idx_eq (ht : t < 65536)
    (hi : i < cols.length) : uint32 (t * store.stride + i) = t * store.stride + i := by
  have hf := h.keyed.few
  have hm : t * cols.length ≤ 65535 * 65535 := Nat.mul_le_mul (by omega) (by omega)
  rw [h.keyed.stride, uint32, mod_eq_of_lt (by omega)]

theorem cellOf_migrated (hi : i < cols.length) : migrated store rows t i = cellOf store t i := by
  have hi' : i < store.stride := by
    rw [h.keyed.stride]
    exact hi
  unfold migrated cellOf
  by_cases ht : t < rows
  · rw [if_pos ⟨ht, hi'⟩]
  rw [if_neg (fun hc => ht hc.1), getElem?_eq_none]
  · rfl
  · rw [h.grid_stride]
    have := Nat.mul_le_mul_right store.stride (Nat.le_of_not_lt ht)
    omega

/-- **Growth keeps the cells.** More rows, and columns that are unset. -/
theorem expand_keeps (hle : cols.length ≤ newStride)
    (hr : rows ≤ total) (hs : total * newStride < 4294967296) :
    ∃ m, expandPropStore store total newStride
        = some { store with matrix := m, stride := newStride }
      ∧ m.length = total * newStride
      ∧ ∀ t i, i < newStride → cellOf { store with matrix := m, stride := newStride } t i
          = if i < cols.length then cellOf store t i else 0 := by
  obtain ⟨m, hm, hlen, hc⟩ := expandPropStore_spec h.grid_stride
    (by rw [h.keyed.stride]; exact hle) hs
  refine ⟨m, hm, hlen, ?_⟩
  intro t i hi
  have hcl : cellOf { store with matrix := m, stride := newStride } t i
      = if t < total then migrated store rows t i else 0 := by
    unfold cellOf
    dsimp only
    by_cases ht : t < total
    · rw [hc t ht i hi, if_pos ht]
      rfl
    rw [if_neg ht, getElem?_eq_none]
    · rfl
    · have := Nat.mul_le_mul_right newStride (Nat.le_of_not_lt ht)
      omega
  rw [hcl]
  by_cases hcol : i < cols.length
  · rw [if_pos hcol, ← cellOf_migrated h hcol]
    by_cases ht : t < total
    · rw [if_pos ht]
    · rw [if_neg ht, migrated, if_neg (by omega)]
  · have hn : ¬ (t < rows ∧ i < store.stride) := by
      rw [h.keyed.stride]
      omega
    rw [if_neg hcol, migrated, if_neg hn, ite_self]

/-- More rows for a store. -/
theorem growRows_spec (hr : rows ≤ total) (ht : total < 65536) :
    ∃ store', growRows store total = some store' ∧ StoreInv store' total cols values
      ∧ ∀ t i, i < cols.length → cellOf store' t i = cellOf store t i := by
  unfold growRows
  by_cases hp : store.stride > 0
  · have hf := h.keyed.few
    have hml : total * cols.length ≤ 65535 * 65535 := Nat.mul_le_mul (by omega) (by omega)
    obtain ⟨m, hm, hlen, hc⟩ := expand_keeps h (by omega) hr
      (show total * cols.length < 4294967296 by omega)
    have hs : ∀ t i, i < cols.length →
        cellOf { store with matrix := m, stride := cols.length } t i = cellOf store t i := by
      intro t i hi
      rw [hc t i hi, if_pos hi]
    rw [if_pos hp, h.keyed.stride]
    refine ⟨_, hm, ⟨⟨rfl, h.keyed.keys, h.keyed.pool, hf, h.keyed.names⟩, hlen, ?_⟩, hs⟩
    intro t i hi
    rw [hs t i hi]
    exact h.cells t i hi
  · have hn : cols = [] := by
      rw [h.keyed.stride] at hp
      exact length_eq_zero_iff.mp (by omega)
    subst hn
    rw [if_neg hp]
    refine ⟨store, rfl, ⟨h.keyed, ?_, h.cells⟩, fun _ _ _ => rfl⟩
    rw [h.grid, length_nil, Nat.mul_zero, Nat.mul_zero]

/-- A new column, unset in every row. -/
theorem newColumn_spec (hky : Name key) (hf : cols.length + 1 < 65536) (hr : rows < 65536) :
    ∃ store', expandPropStore store rows (uint32 (store.stride + 1)) = some store'
      ∧ StoreInv (insertIntoPropertiesRadix store' key (uint16 store.stride)) rows (cols ++ [key])
          values
      ∧ ∀ t i, i < cols.length + 1 →
          cellOf (insertIntoPropertiesRadix store' key (uint16 store.stride)) t i
            = if i < cols.length then cellOf store t i else 0 := by
  have hml : rows * (cols.length + 1) ≤ 65535 * 65535 := Nat.mul_le_mul (by omega) (by omega)
  obtain ⟨m, hm, hlen, hc⟩ := expand_keeps h (by omega) (Nat.le_refl rows)
    (show rows * (cols.length + 1) < 4294967296 by omega)
  have hk := h.keyed.insert hky hf m
  rw [h.keyed.stride, uint32, mod_eq_of_lt (by omega), uint16, mod_eq_of_lt (by omega)]
  refine ⟨_, hm, ⟨hk, ?_, ?_⟩, hc⟩
  · rw [length_append]
    exact hlen
  intro t i hi
  rw [length_append] at hi
  rw [cellOf_insert, hc t i hi]
  split
  · rename_i hcl
    exact h.cells t i hcl
  · exact .inl rfl

/-- A write to a cell. -/
theorem setCell_spec (ht : t < rows) (hk : k < cols.length) (hv : v = 0 ∨ v < values) :
    StoreInv { store with matrix := store.matrix.set (t * store.stride + k) v } rows cols values
      ∧ ∀ t' i, i < cols.length →
          cellOf { store with matrix := store.matrix.set (t * store.stride + k) v } t' i
            = if t' = t ∧ i = k then v else cellOf store t' i := by
  have hc : ∀ t' i, i < cols.length →
      cellOf { store with matrix := store.matrix.set (t * store.stride + k) v } t' i
        = if t' = t ∧ i = k then v else cellOf store t' i := by
    intro t' i hi
    have hid := rowIdx_lt ht hk
    rw [← h.grid] at hid
    unfold cellOf
    rw [h.keyed.stride]
    by_cases hs : t' = t ∧ i = k
    · obtain ⟨rfl, rfl⟩ := hs
      rw [if_pos ⟨rfl, rfl⟩, getElem?_set_self hid]
      rfl
    · rw [if_neg hs, getElem?_set_ne]
      intro heq
      obtain ⟨h1, h2⟩ := rowIdx_inj hk hi heq
      exact hs ⟨h1.symm, h2.symm⟩
  refine ⟨⟨⟨h.keyed.stride, h.keyed.keys, h.keyed.pool, h.keyed.few, h.keyed.names⟩, ?_, ?_⟩, hc⟩
  · rw [length_set]
    exact h.grid
  intro t' i hi
  rw [hc t' i hi]
  split
  · exact hv
  · exact h.cells t' i hi

end

end Store

end Rah.Registry
