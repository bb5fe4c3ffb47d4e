import Mathlib.Logic.Basic

/-!
# Decoding Avro to JSON

A compiled program is a list of operations, each with the indices of its children. The decoder
reads values from the source and appends their JSON to the destination; told to skip, it only
reads. A skipped record is decoded in full, into scratch space.

The fuel bounds the depth of the calls and the blocks of an array or a map; `none` is a decoder
that is not done, or an operation that is not there. How a float is printed is a parameter.
-/

namespace Rah.Avro

open List

abbrev Bytes := List UInt8

/-- The kinds of the schema language. -/
inductive AvroKind where
  | null | bool | int | long | float | double | bytes | string | record | enum | array | map
  | union | fixed
  deriving DecidableEq, Repr

/-- Of the flags the decoder reads only `AvroFlagSkip`. -/
structure AvroOp where
  nameOff : Nat
  nameLen : Nat
  kind : AvroKind
  skip : Bool
  param : Nat

/-- A compiled schema: its operations, the names and the children. -/
structure AvroProgram where
  ops : List AvroOp
  slab : Bytes
  symbols : List Bytes
  childOps : List (List Nat)

/-- The children of an operation. -/
def AvroProgram.childOpsFor (p : AvroProgram) (opIdx : Nat) : List Nat :=
  p.childOps.getD opIdx []

/-- A field's name in the slab. -/
def AvroProgram.fieldName (p : AvroProgram) (o : AvroOp) : Bytes :=
  (p.slab.drop o.nameOff).take o.nameLen

/-! ## Integers -/

/-- The loop of `readVarint`; more than ten bytes are refused. -/
def readVarintFrom (u : UInt64) (i : Nat) : Bytes → Option (UInt64 × Bytes)
  | [] => none
  | b :: src =>
    if i ≥ 10 then none
    else
      let u := u ||| ((b &&& 0x7f).toUInt64 <<< UInt64.ofNat (7 * i))
      if b < 0x80 then some (u, src) else readVarintFrom u (i + 1) src

/-- The integer and what is left of the source. -/
def readVarint (src : Bytes) : Option (UInt64 × Bytes) := readVarintFrom 0 0 src

def decodeZigzag (u : UInt64) : Int64 := ((u >>> 1) ^^^ (-(u &&& 1))).toInt64

def readLong (src : Bytes) : Option (Int64 × Bytes) :=
  (readVarint src).map fun r => (decodeZigzag r.1, r.2)

/-- The element at an index read from the source, if there is one. -/
def elementAt (l : List α) (n : Int64) : Option α := if n < 0 then none else l[n.toInt.toNat]?

/-! ## What is appended -/

/-- The bytes of an ASCII text. -/
def ascii (s : String) : Bytes := s.toList.map fun c => UInt8.ofNat c.toNat

def hexNibble (n : UInt8) : UInt8 := if n < 10 then 48 + n else 87 + n

def hex (c : UInt8) : Bytes := [hexNibble (c >>> 4), hexNibble (c &&& 0xf)]

/-- A byte as it stands in a JSON string. -/
def escape (c : UInt8) : Bytes :=
  if c = 34 then ascii "\\\""
  else if c = 92 then ascii "\\\\"
  else if c = 10 then ascii "\\n"
  else if c = 13 then ascii "\\r"
  else if c = 9 then ascii "\\t"
  else if c < 0x20 then ascii "\\u00" ++ hex c
  else [c]

def appendJSONString (s : Bytes) : Bytes := ascii "\"" ++ s.flatMap escape ++ ascii "\""

/-- A byte value as a JSON string of its digits. -/
def appendJSONBytes (b : Bytes) : Bytes := ascii "\"" ++ b.flatMap hex ++ ascii "\""

def appendInt64 (n : Int64) : Bytes := ascii (toString n.toInt)

/-- The separator before every element but the first. -/
def comma (first : Bool) : Bytes := if first then [] else ascii ","

/-! ## Decoders -/

/-- Destination, remaining source, and whether there was no error. -/
structure Out where
  dst : Bytes
  src : Bytes
  ok : Bool
  deriving DecidableEq, Repr

/-- What is left of the input, and whether decoding succeeded. -/
def rest (r : Option Out) : Option (Bytes × Bool) := r.map fun o => (o.src, o.ok)

/-- A decoder that may be told to skip, over destination and source. What it reads does not
depend on either, and it keeps the destination when it skips. -/
structure Decoder where
  run : Bool → Bytes → Bytes → Option Out
  reads : ∀ b b' dst dst' src, rest (run b dst src) = rest (run b' dst' src)
  keeps : ∀ {dst src o}, run true dst src = some o → o.dst = dst

/-- The next step, unless the last one failed. -/
def onward (r : Option Out) (f : Bytes → Bytes → Option Out) : Option Out :=
  match r with
  | some ⟨dst, src, true⟩ => f dst src
  | r => r

theorem rest_onward {f f' : Bytes → Bytes → Option Out}
    (hf : ∀ dst dst' src, rest (f dst src) = rest (f' dst' src)) :
    ∀ {r r' : Option Out}, rest r = rest r' → rest (onward r f) = rest (onward r' f')
  | none, none, _ => rfl
  | some ⟨_, _, false⟩, some ⟨_, _, false⟩, h => h
  | some ⟨dst, src, true⟩, some ⟨dst', _, true⟩, h => by
    cases h
    exact hf dst dst' src

/-- One decoder after the other. -/
def Decoder.andThen (g f : Decoder) : Decoder where
  run skip dst src := onward (g.run skip dst src) (f.run skip)
  reads b b' dst dst' src := rest_onward (f.reads b b') (g.reads b b' dst dst' src)
  keeps h := by
    unfold onward at h
    split at h
    · rename_i hs
      exact (f.keeps h).trans (g.keeps hs)
    · exact g.keeps h

/-- Out of fuel. -/
def notDone : Decoder := ⟨fun _ _ _ => none, fun _ _ _ _ _ => rfl, nofun⟩

/-- `ErrBadWireData`. -/
def fail : Decoder where
  run _ dst src := some ⟨dst, src, false⟩
  reads _ _ _ _ _ := rfl
  keeps h := by
    cases h
    rfl

/-- The next `size` bytes, appended as `text` has them. -/
def decodeFixed (size : Nat) (text : Bytes → Bytes) : Decoder where
  run skip dst src :=
    if src.length < size then fail.run skip dst src
    else some ⟨if skip then dst else dst ++ text (src.take size), src.drop size, true⟩
  reads b b' dst dst' src := by split <;> rfl
  keeps h := by split at h <;> cases h <;> rfl

/-- A decoder that depends on the number read first. -/
def afterLong (f : Int64 → Decoder) : Decoder where
  run skip dst src :=
    match readLong src with
    | none => fail.run skip dst src
    | some (n, src) => (f n).run skip dst src
  reads b b' dst dst' src := by
    cases readLong src with
    | none => rfl
    | some r => exact (f r.1).reads b b' dst dst' r.2
  keeps h := by
    split at h
    · exact fail.keeps h
    · exact (f _).keeps h

/-- A number written as its text. -/
def decodeLong (text : Int64 → Bytes) : Decoder :=
  afterLong fun n => decodeFixed 0 fun _ => text n

/-- A length and as many bytes. -/
def decodeSized (text : Bytes → Bytes) : Decoder :=
  afterLong fun n => if n < 0 then fail else decodeFixed n.toInt.toNat text

/-- The elements of one block. -/
def decodeItems (item : Bool → Decoder) : Nat → Bool → Decoder
  | 0, _ => decodeFixed 0 fun _ => []
  | count + 1, first => (item first).andThen (decodeItems item count false)

/-- The blocks up to an empty one. A block of a negative count gives its size as well. -/
def decodeBlocks (item : Option (Bool → Decoder)) (close : String) : Nat → Bool → Decoder
  | 0, _ => notDone
  | fuel + 1, first => afterLong fun count =>
    if count = 0 then decodeFixed 0 fun _ => ascii close
    else
      let absCount := (if count < 0 then -count else count).toInt.toNat
      let block := match item with
        | none => fail
        | some item => (decodeItems item absCount first).andThen
            (decodeBlocks (some item) close fuel (first && absCount == 0))
      if count < 0 then afterLong fun _ => block else block

section

variable (p : AvroProgram) (value : Nat → AvroOp → Decoder)

/-- The fields of a record; one that fails ends the record. -/
def decodeFields : List Nat → Bool → Bytes → Bytes → Option Out
  | [], _, dst, src => some ⟨dst ++ ascii "\x7d", src, true⟩
  | i :: opIndices, first, dst, src =>
    match p.ops[i]? with
    | none => none
    | some op =>
      let key := comma first ++ appendJSONString (p.fieldName op) ++ ascii ":"
      onward ((value i op).run op.skip (if op.skip then dst else dst ++ key) src)
        (decodeFields opIndices (first && op.skip))

def decodeRecord (opIndices : List Nat) (dst src : Bytes) : Option Out :=
  decodeFields p value opIndices true (dst ++ ascii "\x7b") src

theorem rest_fields (opIndices : List Nat) (first : Bool) (dst dst' src : Bytes) :
    rest (decodeFields p value opIndices first dst src)
      = rest (decodeFields p value opIndices first dst' src) := by
  induction opIndices generalizing first dst dst' src with
  | nil => rfl
  | cons i opIndices ih =>
    unfold decodeFields
    split
    · rfl
    · exact rest_onward (ih _) ((value i _).reads _ _ _ _ src)

/-- A record that is skipped goes to scratch space. -/
def decodeNested (opIdx : Nat) : Decoder where
  run skip dst src :=
    if skip then (decodeRecord p value (p.childOpsFor opIdx) [] src).map ({ · with dst := dst })
    else decodeRecord p value (p.childOpsFor opIdx) dst src
  reads b b' dst dst' src := by
    have hr : ∀ b dst, rest (if b = true
          then (decodeRecord p value (p.childOpsFor opIdx) [] src).map ({ · with dst := dst })
          else decodeRecord p value (p.childOpsFor opIdx) dst src)
        = rest (decodeRecord p value (p.childOpsFor opIdx) [] src) := by
      intro b dst
      cases b with
      | false => exact rest_fields p value _ _ _ _ src
      | true => exact Option.map_map ..
    exact (hr b dst).trans (hr b' dst').symm
  keeps h := by
    obtain ⟨o, _, rfl⟩ := Option.map_eq_some_iff.mp h
    rfl

/-- The value of a child operation. -/
def valueAt (i : Nat) : Decoder :=
  match p.ops[i]? with
  | none => notDone
  | some op => value i op

/-- An array or a map: `lead` comes before each value. -/
def decodeBlocked (lead : Bool → Decoder) (start close : String) (fuel opIdx : Nat) : Decoder :=
  (decodeFixed 0 fun _ => ascii start).andThen (decodeBlocks ((p.childOpsFor opIdx).head?.map
    fun i first => (lead first).andThen (valueAt p value i)) close fuel true)

/-- `decodeArray`: blocks of elements up to an empty one. -/
def decodeArray (fuel opIdx : Nat) : Decoder :=
  decodeBlocked p value (fun first => decodeFixed 0 fun _ => comma first) "[" "]" fuel opIdx

/-- `decodeMap`: blocks of keys and values. -/
def decodeMap (fuel opIdx : Nat) : Decoder :=
  decodeBlocked p value
    (fun first => decodeSized fun key => comma first ++ appendJSONString key ++ ascii ":")
    "\x7b" "\x7d" fuel opIdx

/-- `decodeUnion`: the arm's index, then the arm. -/
def decodeUnion (opIdx : Nat) : Decoder := afterLong fun armIdx =>
  match elementAt (p.childOpsFor opIdx) armIdx with
  | none => fail
  | some i => valueAt p value i

end

/-- `decodeValue`: the kind decides; a composite decodes its children with one less fuel. -/
def decodeValue (appendFloat64 : Nat → Bytes → Bytes) (p : AvroProgram) :
    Nat → Nat → AvroOp → Decoder
  | 0, _, _ => notDone
  | fuel + 1, opIdx, op =>
    let value := decodeValue appendFloat64 p fuel
    match op.kind with
    | .null => decodeFixed 0 fun _ => ascii "null"
    | .bool => decodeFixed 1 fun b => ascii (if b = [0] then "false" else "true")
    | .int | .long => decodeLong appendInt64
    | .float => decodeFixed 4 (appendFloat64 32)
    | .double => decodeFixed 8 (appendFloat64 64)
    | .bytes => decodeSized appendJSONBytes
    | .string => decodeSized appendJSONString
    | .enum => decodeLong fun idx =>
      match elementAt p.symbols idx with
      | none => appendInt64 idx
      | some s => appendJSONString s
    | .fixed => decodeFixed op.param appendJSONBytes
    | .record => decodeNested p value opIdx
    | .array => decodeArray p value fuel opIdx
    | .map => decodeMap p value fuel opIdx
    | .union => decodeUnion p value opIdx

theorem eq_of_rest : ∀ {r r' : Option Out}, rest r = rest r' → (∀ o, r = some o → o.dst = dst) →
    r = r'.map ({ · with dst := dst })
  | none, none, _, _ => rfl
  | some ⟨_, _, _⟩, some ⟨_, _, _⟩, h, hk => by
    cases h
    cases hk _ rfl
    rfl

/-- **Skipping consumes what decoding consumes**: it ends alike, with the same remaining source,
and leaves the destination as it is. -/
theorem decodeValue_skip (appendFloat64 : Nat → Bytes → Bytes) (p : AvroProgram)
    (fuel opIdx : Nat) (op : AvroOp) (dst src : Bytes) :
    (decodeValue appendFloat64 p fuel opIdx op).run true dst src
      = ((decodeValue appendFloat64 p fuel opIdx op).run false dst src).map
        ({ · with dst := dst }) :=
  eq_of_rest (Decoder.reads _ true false dst dst src) fun _ => Decoder.keeps _

/-- An array of two longs, in one block. -/
example : (decodeValue (fun _ b => b)
    ⟨[⟨0, 0, .array, false, 0⟩, ⟨0, 0, .long, false, 0⟩], [], [], [[1]]⟩ 3 0
    ⟨0, 0, .array, false, 0⟩).run false [] [4, 2, 3, 0] = some ⟨ascii "[1,-2]", [], true⟩ := by
  decide +kernel

end Rah.Avro
