import Rah.Registry.Model

/-!
# The columns of a store

The radix arena of a store is a list of key names, one for each column, under one root.
A search takes the first child that begins with the byte the name begins with, and no
other. So a name leads to a column only if it is the first of the names that begin with
that byte: `findKeyID_eq`.
-/

namespace Rah.Registry

open List Option

/-- The first column whose name begins like the key. -/
def leader (cols : List Bytes) (key : Bytes) : Option Nat :=
  cols.findIdx? (fun c => c.head? == key.head?)

/-- The column the search finds. -/
def column (cols : List Bytes) (key : Bytes) : Option Nat :=
  match leader cols key with
  | none => none
  | some i => if cols[i]? = some key then some i else none

/-- The arena's nodes for the names, from an offset of the string pool and a column on. -/
def nodesFrom : Nat → Nat → List Bytes → List RegistryNode
  | _, _, [] => []
  | offset, value, key :: keys =>
    { prefixOffset := offset, prefixLen := key.length, childBase := 0, childCount := 0,
      value := value } :: nodesFrom (offset + key.length) (value + 1) keys

/-- The root, with a number of children. -/
def rootNode (childCount : Nat) : RegistryNode :=
  { prefixOffset := 0, prefixLen := 0, childBase := 1, childCount := childCount, value := 0 }

def keysOf (cols : List Bytes) : List RegistryNode :=
  if cols = [] then [] else rootNode cols.length :: nodesFrom 0 0 cols

/-- A name the stores take. -/
structure Name (key : Bytes) : Prop where
  nonempty : key ≠ []
  short : key.length < 65536

/-- The store's columns are these names. -/
structure Keyed (store : PropStore) (cols : List Bytes) : Prop where
  stride : store.stride = cols.length
  keys : store.keys = keysOf cols
  pool : store.stringPool = cols.flatten
  few : cols.length < 65536
  names : ∀ c ∈ cols, Name c

theorem keyed_empty : Keyed PropStore.empty [] := ⟨rfl, rfl, rfl, by decide, by simp⟩

theorem nodesFrom_getElem? (cols : List Bytes) (offset value i : Nat) :
    (nodesFrom offset value cols)[i]? = cols[i]?.map (fun key =>
      { prefixOffset := offset + (cols.take i).flatten.length, prefixLen := key.length,
        childBase := 0, childCount := 0, value := value + i }) := by
  induction cols generalizing offset value i with
  | nil => rfl
  | cons key keys ih =>
  cases i with
  | zero => simp [nodesFrom]
  | succ i =>
    rw [nodesFrom, getElem?_cons_succ, ih, take_succ_cons, flatten_cons, length_append]
    congr 1
    rw [Nat.add_assoc, Nat.add_assoc, Nat.add_comm 1 i]

theorem nodesFrom_append : nodesFrom offset value (cols ++ [key]) = nodesFrom offset value cols ++
      [{ prefixOffset := offset + cols.flatten.length, prefixLen := key.length, childBase := 0,
         childCount := 0, value := value + cols.length }] := by
  induction cols generalizing offset value with
  | nil => rfl
  | cons k keys ih =>
    rw [cons_append, nodesFrom, ih, nodesFrom, flatten_cons, length_append,
      length_cons, cons_append, Nat.add_assoc offset,
      show value + 1 + keys.length = value + (keys.length + 1) by omega]

theorem nodesFrom_length : (nodesFrom offset value cols).length = cols.length := by
  induction cols generalizing offset value with
  | nil => rfl
  | cons key keys ih => rw [nodesFrom, length_cons, ih, length_cons]

/-- The string pool from a name's offset on. -/
theorem flatten_drop (cols : List Bytes) (i : Nat) :
    cols.flatten.drop (cols.take i).flatten.length = (cols.drop i).flatten := by
  have hs : cols.flatten = (cols.take i).flatten ++ (cols.drop i).flatten := by
    rw [← flatten_append, take_append_drop]
  rw [hs, drop_left]

variable {cols names : List Bytes} {key new : Bytes} {i : Nat}

theorem flatten_length_le (hn : ∀ c ∈ cols, Name c) :
    cols.flatten.length ≤ cols.length * 65535 := by
  induction cols with
  | nil => simp
  | cons c cols ih =>
  have hc := (hn c (by simp)).short
  have := ih (fun c' hc' => hn c' (by simp [hc']))
  rw [flatten_cons, length_append, length_cons]
  omega

/-! ## The search -/

section Search

variable {store : PropStore} {cols : List Bytes}

/-- The node of a column, and the name the pool holds for it. -/
theorem Keyed.node (h : Keyed store cols) (hi : cols[i]? = some c) :
    ∃ offset, store.keys[uint32 (1 + i)]? = some
        { prefixOffset := offset, prefixLen := c.length, childBase := 0, childCount := 0,
          value := i }
      ∧ offset + c.length ≤ store.stringPool.length
      ∧ ∃ more, store.stringPool.drop offset = c ++ more := by
  obtain ⟨hlt, hc⟩ := List.getElem?_eq_some_iff.mp hi
  have hf := h.few
  have hne : cols ≠ [] := ne_nil_of_length_pos (by omega)
  have hd : cols.drop i = c :: cols.drop (i + 1) := by
    rw [drop_eq_getElem_cons hlt, hc]
  have hp : store.stringPool.drop (cols.take i).flatten.length
      = c ++ (cols.drop (i + 1)).flatten := by
    rw [h.pool, flatten_drop, hd, flatten_cons]
  refine ⟨(cols.take i).flatten.length, ?_, ?_, _, hp⟩
  · rw [h.keys, keysOf, if_neg hne, uint32, Nat.mod_eq_of_lt (by omega), Nat.add_comm 1 i,
      getElem?_cons_succ, nodesFrom_getElem?, hi, map_some, Nat.zero_add, Nat.zero_add]
  have hl := congrArg length hp
  have hps : 0 < c.length := length_pos_iff.mpr (h.names c (mem_of_getElem? hi)).nonempty
  rw [length_drop, length_append] at hl
  omega

/-- The root's children are searched from the first column on. -/
theorem Keyed.findChild_eq (h : Keyed store cols) (b : UInt8) (hn : n + i = cols.length) :
    findChild store.keys store.stringPool 1 b n i
      = some (((cols.drop i).findIdx? (fun c => c.head? == some b)).map
        (fun j => 1 + (i + j))) := by
  induction n generalizing i with
  | zero =>
    rw [drop_eq_nil_of_le (by omega)]
    rfl
  | succ n ih =>
  have hlt : i < cols.length := by omega
  have hi := getElem?_eq_getElem hlt
  obtain ⟨offset, hnd, hle, more, hm⟩ := h.node hi
  have hnm := (h.names _ (getElem_mem hlt)).nonempty
  rw [drop_eq_getElem_cons hlt, findIdx?_cons, findChild, hnd]
  dsimp only
  cases hc : cols[i] with
  | nil => exact absurd hc hnm
  | cons a rest =>
  have hb : store.stringPool[offset]? = some a := by
    have hg : (store.stringPool.drop offset)[0]? = store.stringPool[offset + 0]? := getElem?_drop
    rw [hm, hc] at hg
    exact hg.symm
  rw [hb]
  dsimp only
  by_cases hab : a = b
  · have hf := h.few
    rw [if_pos hab, if_pos (by simp [hab]), uint32, Nat.mod_eq_of_lt (by omega)]
    rfl
  rw [if_neg hab, if_neg (by simpa using hab), ih (by omega)]
  simp only [Option.map_map]
  congr 2
  funext j
  simp only [Function.comp_apply]
  omega

/-- At the node of a column the search ends: with the column if its name is the whole input. -/
theorem Keyed.findKeyIDLoop_leaf (h : Keyed store cols) (hi : cols[i]? = some c) (input : Bytes) :
    findKeyIDLoop store.keys store.stringPool (fuel + 1) (uint32 (1 + i)) input
      = some (if c = input then some i else none) := by
  obtain ⟨offset, hn, hle, more, hm⟩ := h.node hi
  have hp : (store.stringPool.drop offset).take c.length = c := by
    rw [hm, take_left]
  rw [findKeyIDLoop, hn]
  dsimp only
  rw [uint32, if_neg (by omega), hp]
  split
  · rename_i hl
    rw [if_neg (fun heq => by rw [heq] at hl; omega)]
  by_cases ht : input.take c.length = c
  · rw [if_neg (not_not_intro ht)]
    cases hr : input.drop c.length with
    | nil =>
      have heq : c = input := by
        rw [← take_append_drop c.length input, hr, ht, append_nil]
      rw [if_pos heq]
    | cons b rest =>
    have hne : c ≠ input := by
      intro heq
      rw [heq, drop_length] at hr
      cases hr
    rw [if_neg hne]
    rfl
  · have hne : c ≠ input := by
      intro heq
      rw [heq, take_length] at ht
      exact ht rfl
    rw [if_pos ht, if_neg hne]

/-- **A search finds a name exactly if it is the first that begins with its byte.** -/
theorem Keyed.findKeyID_eq (h : Keyed store cols) (hky : key ≠ []) :
    findKeyID store.keys store.stringPool key = some (column cols key) := by
  by_cases hn : cols = []
  · rw [h.keys, hn]
    rfl
  obtain ⟨b, rest, rfl⟩ := exists_cons_of_ne_nil hky
  have hk : store.keys = rootNode cols.length :: nodesFrom 0 0 cols := by
    rw [h.keys, keysOf, if_neg hn]
  have hl : store.keys.length = cols.length + 1 := by
    rw [hk, length_cons, nodesFrom_length]
  have hr : store.keys[0]? = some (rootNode cols.length) := by
    rw [hk]
    rfl
  have hch := h.findChild_eq b (i := 0) rfl
  rw [findKeyID, if_neg (by simp [hl]), hl, findKeyIDLoop, hr]
  dsimp only [rootNode]
  rw [if_neg (by simp [uint32]), take_zero, length_nil, if_neg (by simp), if_neg (by simp),
    drop_zero]
  dsimp only
  rw [hch, drop_zero]
  unfold column leader
  cases hf : cols.findIdx? (fun c => c.head? == some b) with
  | none => simp [hf]
  | some i =>
  have hi : ∃ c, cols[i]? = some c := by
    obtain ⟨hlt, _⟩ := findIdx?_eq_some_iff_getElem.mp hf
    exact ⟨_, getElem?_eq_getElem hlt⟩
  obtain ⟨c, hc⟩ := hi
  have hlt := (List.getElem?_eq_some_iff.mp hc).1
  have hfw := h.few
  have hid : 1 + (0 + i) = uint32 (1 + i) := by
    rw [uint32]
    omega
  rw [head?_cons, hf, map_some, hid]
  dsimp only
  rw [h.findKeyIDLoop_leaf hc, hc]
  simp only [some.injEq]

end Search

/-! ## New columns -/

/-- The first name that begins like the key. -/
def firstLike (names : List Bytes) (key : Bytes) : Option Bytes :=
  names.find? (fun c => c.head? == key.head?)

theorem column_cons : column (c :: cols) key =
      if c.head? = key.head? then (if c = key then some 0 else none)
      else (column cols key).map (· + 1) := by
  unfold column leader
  rw [findIdx?_cons]
  by_cases hh : c.head? = key.head?
  · rw [if_pos (by simp [hh]), if_pos hh]
    simp
  rw [if_neg (by simp [hh]), if_neg hh]
  cases findIdx? (fun c => c.head? == key.head?) cols with
  | none => rfl
  | some i =>
    simp only [map_some, getElem?_cons_succ]
    split <;> rfl

theorem firstLike_cons :
    firstLike (c :: cols) key = if c.head? = key.head? then some c else firstLike cols key := by
  unfold firstLike
  rw [find?_cons]
  by_cases hh : c.head? = key.head?
  · simp [hh]
  · have hf : (c.head? == key.head?) = false := by simpa using hh
    rw [hf, if_neg hh]

theorem column_eq_none_iff (cols : List Bytes) (key : Bytes) :
    column cols key = none ↔ firstLike cols key ≠ some key := by
  induction cols with
  | nil => simp [column, leader, firstLike]
  | cons c cols ih =>
  rw [column_cons, firstLike_cons]
  by_cases hh : c.head? = key.head?
  · rw [if_pos hh, if_pos hh]
    by_cases heq : c = key <;> simp [heq]
  · rw [if_neg hh, if_neg hh, map_eq_none_iff, ih]

/-- The column found bears the name. -/
theorem column_getElem? (h : column cols key = some i) : cols[i]? = some key := by
  induction cols generalizing i with
  | nil => simp [column, leader] at h
  | cons c cols ih =>
  rw [column_cons] at h
  split at h
  · split at h
    · rename_i heq
      cases h
      rw [heq]
      rfl
    · cases h
  · obtain ⟨j, hj, rfl⟩ := map_eq_some_iff.mp h
    exact ih hj

theorem column_lt (h : column cols key = some i) : i < cols.length :=
  (List.getElem?_eq_some_iff.mp (column_getElem? h)).1

/-- A column found with one more name was there, or is the new one, first of its byte. -/
theorem column_append_cases (h : column (cols ++ [new]) key = some i) :
    column cols key = some i ∨ (i = cols.length ∧ key = new ∧ firstLike cols key = none) := by
  induction cols generalizing i with
  | nil =>
    rw [nil_append, column_cons] at h
    split at h
    · split at h
      · rename_i heq
        cases h
        exact .inr ⟨rfl, heq.symm, rfl⟩
      · cases h
    · simp [column, leader] at h
  | cons c cols ih =>
    rw [cons_append, column_cons] at h
    rw [column_cons, firstLike_cons]
    split at h
    · rename_i hh
      rw [if_pos hh]
      exact .inl h
    rename_i hh
    rw [if_neg hh, if_neg hh]
    obtain ⟨j, hj, rfl⟩ := map_eq_some_iff.mp h
    rcases ih hj with ho | ⟨rfl, hk, hf⟩
    · rw [ho]
      exact .inl rfl
    · exact .inr ⟨rfl, hk, hf⟩

theorem firstLike_congr (h : key.head? = key'.head?) :
    firstLike names key = firstLike names key' := by
  rw [firstLike, firstLike, h]

theorem firstLike_of_mem (h : key ∈ names) :
    firstLike names key ≠ none := by
  intro hn
  have := find?_eq_none.mp hn key h
  exact this (by simp)

theorem firstLike_append :
    firstLike (cols ++ [new]) key = (firstLike cols key).or (firstLike [new] key) := by
  unfold firstLike
  rw [find?_append]

theorem Keyed.insert (h : Keyed store cols) (hk : Name key) (hf : cols.length + 1 < 65536)
    (matrix : List Nat) :
    Keyed (insertIntoPropertiesRadix { store with matrix := matrix, stride := cols.length + 1 } key
      cols.length) (cols ++ [key]) := by
  have hp := flatten_length_le h.names
  have hs := hk.short
  refine ⟨?_, ?_, ?_, ?_, ?_⟩
  · simp [insertIntoPropertiesRadix]
  · have hsm : cols.flatten.length < 4294967296 := by omega
    have hne : cols ++ [key] ≠ [] := by simp
    rw [keysOf, if_neg hne, nodesFrom_append, insertIntoPropertiesRadix]
    rw [h.keys, h.pool, uint32, Nat.mod_eq_of_lt hsm, uint16, uint16,
      Nat.mod_eq_of_lt hs, Nat.mod_eq_of_lt (by omega), Nat.zero_add, Nat.zero_add]
    by_cases hn : cols = []
    · subst hn
      rfl
    rw [keysOf, if_neg hn, if_neg (by simp), cons_append, modify_zero_cons]
    have hcn : uint16 (cols.length + 1) = (cols ++ [key]).length := by
      rw [uint16, Nat.mod_eq_of_lt hf, length_append]
      rfl
    dsimp only [rootNode]
    rw [hcn]
  · simp [insertIntoPropertiesRadix, h.pool]
  · simpa using hf
  intro c hc
  rcases mem_append.mp hc with hc | hc
  · exact h.names c hc
  · rw [mem_singleton.mp hc]
    exact hk

end Rah.Registry
