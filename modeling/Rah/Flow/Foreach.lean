import Rah.Flow.Executor
import Mathlib.Data.List.Forall2

/-!
# Foreach over a JSON array

A `foreach` step is compiled as a gate, the body, and a jump back to the gate. The gate
keeps the number of the iteration in an integer slot. On the first one it parses the
source and packs the positions of its elements into a byte slot, eight bytes each; on
every one it cuts the element out of the source.

The JSON parser is a parameter: what `gjson` finds in a text, `none` unless it is an
array, and for an array the position and the length of each element.
-/

namespace Rah.Flow

open List

variable {σ : Type}

def Ctx.setSlot (ctx : Ctx σ) (slot : Nat) (v : List UInt8) : Ctx σ :=
  { ctx with byteSlots := fun s => if s = slot then v else ctx.byteSlots s }

def Ctx.setInt (ctx : Ctx σ) (slot : Nat) (v : Int) : Ctx σ :=
  { ctx with intSlots := fun s => if s = slot then v else ctx.intSlots s }

/-- `binary.LittleEndian.PutUint32`. -/
def putUint32 (x : UInt32) : List UInt8 :=
  [UInt8.ofNat x.toNat, UInt8.ofNat (x.toNat / 256), UInt8.ofNat (x.toNat / 65536),
    UInt8.ofNat (x.toNat / 16777216)]

/-- `binary.LittleEndian.Uint32`. -/
def uint32 : List UInt8 → Option UInt32
  | a :: b :: c :: d :: _ => some (UInt32.ofNat
      (a.toNat + 256 * b.toNat + 65536 * c.toNat + 16777216 * d.toNat))
  | _ => none

/-- Start and end of each element, packed. -/
def packIndex (elems : List (Nat × Nat)) : List UInt8 :=
  elems.flatMap (fun e => putUint32 (UInt32.ofNat e.1) ++ putUint32 (UInt32.ofNat (e.1 + e.2)))

/-- The context with the index in place; `none` when there is nothing to iterate over. -/
def ensureIndex (forEach : List UInt8 → Option (List (Nat × Nat))) (ctx : Ctx σ)
    (raw : List UInt8) (indexSlot : Nat) (idx : Int) : Option (Ctx σ) :=
  if idx = 0 then
    match forEach raw with
    | none => none
    | some [] => none
    | some (e :: elems) => some (ctx.setSlot indexSlot (packIndex (e :: elems)))
  else some ctx

/-- `raw[start:end]`. -/
def slice (raw : List UInt8) (start stop : UInt32) : Option (List UInt8) :=
  if start.toNat ≤ stop.toNat ∧ stop.toNat ≤ raw.length then
    some ((raw.drop start.toNat).take (stop.toNat - start.toNat))
  else none

/-- The element at a place of the index. -/
def elementAt (raw index : List UInt8) (idx : Int) : Option (List UInt8) :=
  if idx < 0 then none
  else
    match uint32 (index.drop (idx.toNat * 8)) with
    | none => none
    | some start =>
      match uint32 (index.drop (idx.toNat * 8 + 4)) with
      | none => none
      | some stop => slice raw start stop

def loopGateSlot (forEach : List UInt8 → Option (List (Nat × Nat)))
    (sourceSlot valueSlot indexSlot iterSlot : Nat) (bodyStart exitID : Int) : InstructionFunc σ :=
  fun ctx state =>
    let raw := ctx.byteSlots sourceSlot
    if raw.length = 0 then some (exitID, ctx, state)
    else
      let idx := ctx.intSlots iterSlot
      match ensureIndex forEach ctx raw indexSlot idx with
      | none => some (exitID, ctx, state)
      | some ctx =>
        let index := ctx.byteSlots indexSlot
        if idx ≥ (index.length / 8 : Nat) then
          some (exitID, (ctx.setInt iterSlot 0).setSlot indexSlot [], state)
        else
          match elementAt raw index idx with
          | none => none
          | some item =>
            some (bodyStart, (ctx.setSlot valueSlot item).setInt iterSlot (idx + 1), state)

def loopRepeat (gateID : Int) (iterSlot : Nat) : InstructionFunc σ :=
  fun ctx state => some (gateID, ctx.setInt iterSlot (ctx.intSlots iterSlot + 1), state)

/-! ## The packed index -/

theorem uint32_putUint32 : uint32 (putUint32 x ++ more) = some x := by
  have hx := x.toNat_lt
  simp only [putUint32, cons_append, uint32, Option.some.injEq, UInt8.toNat_ofNat']
  rw [← UInt32.toNat_inj, UInt32.toNat_ofNat']
  omega

theorem packIndex_length : (packIndex elems).length = 8 * elems.length := by
  induction elems with
  | nil => rfl
  | cons e elems ih =>
    rw [packIndex, flatMap_cons, ← packIndex]
    simp only [putUint32, length_append, length_cons, length_nil]
    omega

theorem packIndex_drop (elems : List (Nat × Nat)) (i : Nat) :
    (packIndex elems).drop (i * 8) = packIndex (elems.drop i) := by
  induction i generalizing elems with
  | zero => simp
  | succ i ih =>
  cases elems with
  | nil => simp [packIndex]
  | cons e elems =>
    rw [drop_succ_cons, ← ih elems, packIndex, Nat.succ_mul, Nat.add_comm, ← drop_drop]
    rfl

/-- The texts that the positions cut out of the source. -/
structure ArrayOf (forEach : List UInt8 → Option (List (Nat × Nat))) (raw : List UInt8)
    (texts : List (List UInt8)) : Prop where
  /-- An array has at least its brackets. -/
  nonempty : raw ≠ []
  /-- The parser yields the elements in order, each with its position. -/
  elems : ∃ elems, forEach raw = some elems
    ∧ List.Forall₂ (fun e text => e.1 + e.2 ≤ raw.length ∧ (raw.drop e.1).take e.2 = text)
        elems texts

/-- The index leads to the element. -/
theorem elementAt_packIndex {raw : List UInt8} {elems : List (Nat × Nat)} {i : Nat} {e : Nat × Nat}
    (hi : elems[i]? = some e) (hle : e.1 + e.2 ≤ raw.length) (hl : raw.length < 4294967296) :
    elementAt raw (packIndex elems) i = some ((raw.drop e.1).take e.2) := by
  obtain ⟨hlt, he⟩ := List.getElem?_eq_some_iff.mp hi
  have hd : elems.drop i = e :: elems.drop (i + 1) := by
    rw [drop_eq_getElem_cons hlt, he]
  have hf : (packIndex elems).drop (i * 8) = putUint32 (UInt32.ofNat e.1)
      ++ (putUint32 (UInt32.ofNat (e.1 + e.2)) ++ packIndex (elems.drop (i + 1))) := by
    rw [packIndex_drop, hd, packIndex]
    rfl
  have hs : (packIndex elems).drop (i * 8 + 4) = putUint32 (UInt32.ofNat (e.1 + e.2))
      ++ packIndex (elems.drop (i + 1)) := by
    rw [← drop_drop, hf]
    rfl
  unfold elementAt
  rw [if_neg (by omega), Int.toNat_natCast, hf, uint32_putUint32]
  rw [hs, uint32_putUint32]
  dsimp only
  unfold slice
  rw [UInt32.toNat_ofNat_of_lt' (show e.1 < 2 ^ 32 by omega),
    UInt32.toNat_ofNat_of_lt' (show e.1 + e.2 < 2 ^ 32 by omega), if_pos ⟨by omega, hle⟩,
    Nat.add_sub_cancel_left]

end Rah.Flow
