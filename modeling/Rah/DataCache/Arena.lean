import Rah.Lib.Run
import Mathlib.Data.List.Basic
import Mathlib.Logic.Function.Basic

/-!
# Collections of the data cache

A collection is a slot of the arena pool: columns of fixed-width cells in one buffer, the
rows deleted so far, which are used again last in first out, and a sort index over the
rows. The steps are those of the slot. `AppendVals` and `AppendJSONBatch` are made of
them: a window deletes a row before it appends one, and a full collection that may grow
grows and appends once more.

Where `sort.Slice` leaves rows that compare equal is open. A sort is told the order it ends
in, and it is possible if that is an order the library may leave. No branch reads
`appended`, `order` and `lastSort`, which record what was done.
-/

namespace Rah.DataCache

open List

abbrev Bytes := List UInt8

/-- The kinds of a column. -/
inductive FieldKind where
  | float64 | int64 | stringN | enum
  deriving DecidableEq

/-- A column of the schema. -/
structure FieldDef where
  name : String
  kind : FieldKind
  width : Nat

/-- `BakeSchema` sets the width of all kinds but strings itself. -/
def FieldDef.stride (f : FieldDef) : Nat :=
  match f.kind with
  | .float64 | .int64 => 8
  | .enum => 1
  | .stringN => f.width

/-- What `BakeSchema` lays out. -/
structure Schema where
  fields : List FieldDef
  capacity : Nat

/-- A value of a record; strings and byte slices are both `text`. -/
inductive Value where
  | float64 (bits : BitVec 64)
  | int64 (v : BitVec 64)
  | uint8 (v : UInt8)
  | text (v : Bytes)
  | other

/-- What the processor does with floats. -/
structure Floats where
  toInt64 : BitVec 64 → BitVec 64
  toUint8 : BitVec 64 → UInt8
  lt : BitVec 64 → BitVec 64 → Bool

/-- A word in little endian. -/
def leBytes (v : BitVec 64) : Bytes :=
  (range 8).map (fun j => UInt8.ofNat (v.toNat >>> (8 * j)))

/-- The word of eight bytes. -/
def leWord (cell : Bytes) : BitVec 64 :=
  cell.foldr (fun b w => w <<< 8 ||| BitVec.ofNat 64 b.toNat) 0

/-- The bytes `writeRow` stores; `none` is `ErrBadType`. -/
def encode (fl : Floats) : FieldKind → Value → Option Bytes
  | .float64, .float64 bits => some (leBytes bits)
  | .int64, .int64 v => some (leBytes v)
  | .int64, .float64 bits => some (leBytes (fl.toInt64 bits))
  | .enum, .uint8 v => some [v]
  | .enum, .float64 bits => some [fl.toUint8 bits]
  | .enum, .int64 v => some [UInt8.ofNat v.toNat]
  | .stringN, .text v => some v
  | _, _ => none

section Cells

variable (fl : Floats) (s : Schema)

/-- The width of a column. -/
def Schema.stride (col : Nat) : Nat := (s.fields[col]?.map FieldDef.stride).getD 0

/-- Where a column starts: the columns before it, for every row. -/
def Schema.offset (col : Nat) : Nat :=
  (s.fields.take col).foldl (fun offset f => offset + f.stride * s.capacity) 0

/-- Where a cell starts. -/
def Schema.start (col row : Nat) : Nat := s.offset col + row * s.stride col

def Schema.cell (buf : Nat → UInt8) (col row : Nat) : Bytes :=
  (range (s.stride col)).map (fun j => buf (s.start col row + j))

/-- The cell is zeroed and then gets as much as fits. -/
def Schema.setCell (buf : Nat → UInt8) (col row : Nat) (v : Bytes) : Nat → UInt8 :=
  fun k => if s.start col row ≤ k ∧ k < s.start col row + s.stride col
    then v.getD (k - s.start col row) 0 else buf k

/-- The values of a row from a column on, up to the first that is refused. -/
def Schema.writeFields (row : Nat) :
    List (FieldDef × Value) → Nat → (Nat → UInt8) → (Nat → UInt8) × Bool
  | [], _, buf => (buf, true)
  | (f, v) :: rest, col, buf =>
    match encode fl f.kind v with
    | none => (buf, false)
    | some bytes => writeFields row rest (col + 1) (s.setCell buf col row bytes)

/-- `writeRow`: one value for each column, or nothing is written. -/
def Schema.writeRow (row : Nat) (vals : List Value) (buf : Nat → UInt8) : (Nat → UInt8) × Bool :=
  if vals.length ≠ s.fields.length then (buf, false)
  else s.writeFields fl row (s.fields.zip vals) 0 buf

/-- Row after row, up to the first that fails. -/
def Schema.writeRows : List (Nat × List Value) → (Nat → UInt8) → (Nat → UInt8) × Bool
  | [], buf => (buf, true)
  | (row, vals) :: rest, buf =>
    match s.writeRow fl row vals buf with
    | (buf, true) => writeRows rest buf
    | (buf, false) => (buf, false)

end Cells

/-- `Arena`: the columns, the sorted indices and the freed rows. -/
structure Arena where
  schema : Schema
  buf : Nat → UInt8 := fun _ => 0
  size : Nat := 0
  liveCount : Nat := 0
  freeRows : List Nat := []
  sortByIdx : Option Nat := none
  indices : List Nat
  /-- What was last appended as a row. -/
  appended : Nat → List Value := fun _ => []
  /-- The live rows as they were appended. -/
  order : List Nat := []
  /-- The last sort, its column and whether it was descending, if no row was touched since. -/
  lastSort : Option (Nat × Bool) := none

def initSlot (schema : Schema) : Arena :=
  { schema := schema, indices := range schema.capacity }

section Rows

variable (a : Arena)

/-- A row in use. -/
def Arena.IsLive (r : Nat) : Prop := r < a.size ∧ r ∉ a.freeRows

instance (r : Nat) : Decidable (a.IsLive r) := inferInstanceAs (Decidable (_ ∧ _))

def Arena.liveRows : List Nat := (range a.size).filter (a.IsLive ·)

/-- `Delete`: a live row goes to the free list. -/
def Arena.delete (i : Int) : Arena :=
  if 0 ≤ i ∧ a.IsLive i.toNat then
    { a with
      freeRows := a.freeRows ++ [i.toNat]
      liveCount := a.liveCount - 1
      order := a.order.filter (· != i.toNat) }
  else a

/-- The free rows from the last one on, then new ones. A full arena gets back what was taken,
the other way round. -/
def Arena.allocRows (n : Nat) : Arena × Option (List Nat) :=
  let left := a.freeRows.take (a.freeRows.length - n)
  let reused := (a.freeRows.drop (a.freeRows.length - n)).reverse
  let newNeeded := n - reused.length
  if 0 < newNeeded ∧ a.schema.capacity < a.size + newNeeded then
    ({ a with freeRows := left ++ reused }, none)
  else
    ({ a with freeRows := left, size := a.size + newNeeded, liveCount := a.liveCount + n },
      some (reused ++ range' a.size newNeeded))

/-- `Append` for one record, and `AppendBatch` after its check. A value that is refused gives all
the rows back. -/
def Arena.append (fl : Floats) (allVals : List (List Value)) : Arena :=
  match a.allocRows allVals.length with
  | (a, none) => a
  | (a, some rows) =>
    match a.schema.writeRows fl (rows.zip allVals) a.buf with
    | (buf, true) =>
      { a with
        buf := buf
        order := a.order ++ rows
        appended := (rows.zip allVals).foldl (fun f p => Function.update f p.1 p.2) a.appended }
    | (buf, false) =>
      { a with
        buf := buf
        freeRows := a.freeRows ++ rows
        liveCount := a.liveCount - rows.length }

/-- `AppendBatch`. -/
def Arena.appendBatch (fl : Floats) (allVals : List (List Value)) : Arena :=
  if allVals.any (·.length ≠ a.schema.fields.length) then a else a.append fl allVals

/-- `TrimOldest`: the loop over the rows, with `n` still to delete. -/
def Arena.trimFrom (a : Arena) : List Nat → Nat → Arena
  | [], _ => a
  | _, 0 => a
  | i :: rows, n + 1 =>
    if a.IsLive i then (a.delete i).trimFrom rows n else a.trimFrom rows (n + 1)

/-- `TrimOldest`: the first live rows in order of their number. -/
def Arena.trimOldest (n : Nat) : Arena := a.trimFrom (range a.size) n

/-- `growCollection` once the new capacity is settled. The rows are copied column by column; the
sort index shows what it has `behind` its end, and the new schema has no sort column. -/
def Arena.grow (newCap : Nat) (behind : List Nat) : Arena :=
  let schema := { a.schema with capacity := newCap }
  if newCap ≤ a.schema.capacity then a
  else
    { a with
      schema := schema
      buf := (range a.schema.fields.length ×ˢ range a.size).foldl
        (fun buf p => schema.setCell buf p.1 p.2 (a.schema.cell a.buf p.1 p.2)) (fun _ => 0)
      sortByIdx := none
      indices := (a.indices ++ behind ++ replicate newCap 0).take newCap }

end Rows

/-! ## Sorting and reading -/

/-- The order of two cells of a column. -/
def lessCell (fl : Floats) : FieldKind → Bytes → Bytes → Bool
  | .float64, c, c' => fl.lt (leWord c) (leWord c')
  | .int64, c, c' => compare (leWord c).toInt (leWord c').toInt = .lt
  | .stringN, c, c' | .enum, c, c' => compare c c' = .lt

/-- The comparison `SortBy` hands to `sort.Slice`. -/
def Arena.less (fl : Floats) (a : Arena) (col i j : Nat) : Bool :=
  match a.schema.fields[col]? with
  | none => false
  | some f => lessCell fl f.kind (a.schema.cell a.buf col i) (a.schema.cell a.buf col j)

/-- `less` puts the rows in an order, up to ties. -/
def Orders (less : Nat → Nat → Bool) (rows : List Nat) : Prop :=
  (∀ i ∈ rows, ∀ j ∈ rows, less i j → ¬ less j i)
    ∧ ∀ i ∈ rows, ∀ j ∈ rows, ∀ k ∈ rows, ¬ less j i → ¬ less k j → ¬ less k i

/-- What `sort.Slice` may leave. -/
def Sorts (less : Nat → Nat → Bool) (rows sorted : List Nat) : Prop :=
  sorted.Perm rows ∧ (Orders less rows → sorted.Pairwise (fun i j => ¬ less j i))

instance (less : Nat → Nat → Bool) (rows sorted : List Nat) : Decidable (Sorts less rows sorted) :=
  have : Decidable (Orders less rows) := inferInstanceAs (Decidable (_ ∧ _))
  inferInstanceAs (Decidable (_ ∧ (_ → _)))

/-- `SortBy`, and the reversal for a descending order. -/
def Arena.sortCollection (a : Arena) (col : Nat) (desc : Bool) (sorted : List Nat) : Arena :=
  let indices := sorted ++ a.indices.drop sorted.length
  { a with
    indices := if desc ∧ a.liveCount ≤ indices.length
      then (indices.take a.liveCount).reverse ++ indices.drop a.liveCount else indices
    sortByIdx := some col
    lastSort := some (col, desc) }

/-- The rows that `QueryAll` serialises; `none` is an error. -/
def Arena.queryRows (a : Arena) : Option (List Nat) :=
  if a.sortByIdx.isSome then
    if a.liveCount ≤ a.indices.length then some (a.indices.take a.liveCount) else none
  else some a.liveRows

/-- Neither an infinity nor a NaN: the exponent is not all ones. -/
def isFinite (bits : BitVec 64) : Bool := bits.extractLsb' 52 11 != 2047

/-- The fields of a row with their cells. -/
def Arena.record (a : Arena) (row : Nat) : List (FieldDef × Bytes) :=
  a.schema.fields.zipIdx.map (fun f => (f.1, a.schema.cell a.buf f.2 row))

/-- `json.Marshal` has a text for every value but a float that is not finite. -/
def Representable (record : List (FieldDef × Bytes)) : Prop :=
  ∀ f ∈ record, f.1.kind = .float64 → isFinite (leWord f.2) = true

instance (record : List (FieldDef × Bytes)) : Decidable (Representable record) :=
  inferInstanceAs (Decidable (∀ f ∈ record, f.1.kind = .float64 → isFinite (leWord f.2) = true))

/-- The texts with a comma between them, in brackets. -/
def jsonArray (texts : List Bytes) : Bytes := [91] ++ (texts.intersperse [44]).flatten ++ [93]

/-- `object` is the text `json.Marshal` gives of a record, if it gives one; its error is dropped,
and the record with it. -/
def Arena.serializeArenaJSON (object : List (FieldDef × Bytes) → Bytes) (a : Arena)
    (indices : List Nat) : Bytes :=
  jsonArray (indices.map (fun row =>
    if Representable (a.record row) then object (a.record row) else []))

/-- `QueryAll`: the live rows in the order of the index, as JSON. -/
def Arena.queryAll (object : List (FieldDef × Bytes) → Bytes) (a : Arena) : Option Bytes :=
  a.queryRows.map (a.serializeArenaJSON object)

inductive Op where
  | append (vals : List Value)
  | appendBatch (allVals : List (List Value))
  | delete (i : Int)
  | trimOldest (n : Nat)
  | grow (newCap : Nat) (behind : List Nat)
  | sort (fieldName : String) (desc : Bool) (sorted : List Nat)

/-- `none` is a sort that cannot end in the order it is told. -/
def Arena.step (fl : Floats) (a : Arena) : Op → Option Arena
  | .append vals => some { a.append fl [vals] with lastSort := none }
  | .appendBatch allVals => some { a.appendBatch fl allVals with lastSort := none }
  | .delete i => some { a.delete i with lastSort := none }
  | .trimOldest n => some { a.trimOldest n with lastSort := none }
  | .grow newCap behind => some { a.grow newCap behind with lastSort := none }
  | .sort fieldName desc sorted =>
    match a.schema.fields.findIdx? (·.name = fieldName) with
    | none => some a
    | some col =>
      if Sorts (a.less fl col) a.liveRows sorted then some (a.sortCollection col desc sorted)
      else none

/-- A history of the collection. -/
def History (fl : Floats) (schema : Schema) (ops : List Op) (a : Arena) : Prop :=
  Rah.Lib.GoodRun (fun a op a' => a.step fl op = some a') (fun _ _ => True) (initSlot schema) ops a

end Rah.DataCache
