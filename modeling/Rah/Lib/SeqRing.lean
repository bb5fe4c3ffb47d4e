import Mathlib.Data.Int.Init
import Mathlib.Data.Nat.ModEq

/-!
# A bounded queue in a ring of numbered cells

The queue has one cell for every position modulo a power of two, and each cell carries a
sequence number that tells whether it is free for a position or holds its value. Positions
are 64-bit counters that only grow; the difference of a number and a position is taken as a
signed one. One user at a time is considered, so the loop of an operation runs once; a turn
that would be repeated is `none`.

`Holds` is the meaning of a ring: the values between the two counters, oldest first.
`enqueue_holds` and `dequeue_holds` say that it is a bounded first-in first-out queue.
-/

namespace Rah.Lib

open List UInt64

variable {α : Type}

structure Cell (α : Type) where
  seq : UInt64
  value : α

structure SeqRing (α : Type) where
  enqPos : UInt64
  deqPos : UInt64
  cells : Nat → Cell α

namespace SeqRing

/-- The cell of a position, in a ring of `2 ^ k` cells. -/
def index (k : Nat) (pos : UInt64) : Nat := pos.toNat % 2 ^ k

/-- `int64(seq) - int64(pos)`. -/
def gap (seq pos : UInt64) : Int :=
  Int.bmod ((seq.toNat : Int) - (pos.toNat : Int)) 18446744073709551616

def setCell (r : SeqRing α) (i : Nat) (c : Cell α) : SeqRing α :=
  { r with cells := fun j => if j = i then c else r.cells j }

/-- An empty ring, its cells numbered in order. -/
def new (value : α) : SeqRing α where
  enqPos := 0
  deqPos := 0
  cells := fun i => ⟨UInt64.ofNat i, value⟩

/-- Append a value; `false` when the ring is full. -/
def enqueue (k : Nat) (r : SeqRing α) (v : α) : Option (Bool × SeqRing α) :=
  let pos := r.enqPos
  let diff := gap (r.cells (index k pos)).seq pos
  if diff = 0 then
    some (true, { r.setCell (index k pos) ⟨pos + 1, v⟩ with enqPos := pos + 1 })
  else if diff < 0 then some (false, r)
  else none

/-- Take the oldest value, if there is one. -/
def dequeue (k : Nat) (r : SeqRing α) : Option (Option α × SeqRing α) :=
  let pos := r.deqPos
  let cell := r.cells (index k pos)
  let diff := gap cell.seq (pos + 1)
  if diff = 0 then
    some (some cell.value,
      { r.setCell (index k pos) ⟨pos + UInt64.ofNat (2 ^ k), cell.value⟩ with deqPos := pos + 1 })
  else if diff < 0 then some (none, r)
  else none

/-- The ring holds the queue, its oldest value at position `d`. -/
structure HoldsAt (k : Nat) (r : SeqRing α) (q : List α) (d : Nat) : Prop where
  deq : r.deqPos = UInt64.ofNat d
  enq : r.enqPos = UInt64.ofNat (d + q.length)
  fits : q.length ≤ 2 ^ k
  full : ∀ i v, q[i]? = some v → r.cells ((d + i) % 2 ^ k) = ⟨UInt64.ofNat (d + i + 1), v⟩
  free : ∀ i, q.length ≤ i → i < 2 ^ k → (r.cells ((d + i) % 2 ^ k)).seq = UInt64.ofNat (d + i)

/-- The ring holds the queue. -/
def Holds (k : Nat) (r : SeqRing α) (q : List α) : Prop := ∃ d, HoldsAt k r q d

/-! ## Counters -/

theorem toNat_ofNat : ((ofNat n).toNat : Int) = (n : Int) % 18446744073709551616 := by
  rfl

theorem gap_self : gap (ofNat n) (ofNat n) = 0 := by
  simp [gap]

/-- A number that is behind a position by less than half the range is behind it. -/
theorem gap_behind (hm : 0 < m) (hlt : m ≤ 4611686018427387904) :
    gap (ofNat n) (ofNat (n + m)) = -(m : Int) := by
  unfold gap
  rw [toNat_ofNat, toNat_ofNat, Int.bmod_def]
  split
  · omega
  · omega

variable {k : Nat} {r : SeqRing α} {q : List α}

theorem index_ofNat (hk : k ≤ 62) (n : Nat) : index k (ofNat n) = n % 2 ^ k := by
  exact Nat.mod_mod_of_dvd n (Nat.pow_dvd_pow 2 (by omega))

theorem ofNat_succ : ofNat n + 1 = ofNat (n + 1) := by
  rw [ofNat_add]
  rfl

/-! ## A first-in first-out queue -/

theorem mod_ne (hi : i < 2 ^ k) (hj : j < 2 ^ k) (hne : i ≠ j) :
    (d + i) % 2 ^ k ≠ (d + j) % 2 ^ k := by
  intro h
  have hm : i % 2 ^ k = j % 2 ^ k := Nat.ModEq.add_left_cancel' d h
  rw [Nat.mod_eq_of_lt hi, Nat.mod_eq_of_lt hj] at hm
  exact hne hm

theorem holds_new (k : Nat) (value : α) : Holds k (new value) [] := by
  refine ⟨0, rfl, rfl, Nat.zero_le _, ?_, ?_⟩
  · intro i v h
    simp at h
  · intro i _ hi
    rw [Nat.zero_add, Nat.mod_eq_of_lt hi]
    rfl

/-- Below its capacity the ring takes a value. -/
theorem enqueue_holds (hk : k ≤ 62) (h : Holds k r q) (hr : q.length < 2 ^ k) (v : α) :
    ∃ r', r.enqueue k v = some (true, r') ∧ Holds k r' (q ++ [v]) := by
  obtain ⟨d, hd⟩ := h
  have hin : index k r.enqPos = (d + q.length) % 2 ^ k := by rw [hd.enq, index_ofNat hk]
  have hs := hd.free q.length (by omega) hr
  refine ⟨{ r.setCell ((d + q.length) % 2 ^ k) ⟨ofNat (d + q.length + 1), v⟩ with
    enqPos := ofNat (d + q.length + 1) }, ?_, d, ?_⟩
  · unfold enqueue
    dsimp only
    rw [hin, hs, hd.enq, gap_self, if_pos rfl, ofNat_succ]
  refine ⟨hd.deq, ?_, ?_, ?_, ?_⟩
  · rw [length_append, length_singleton, ← Nat.add_assoc]
  · rw [length_append, length_singleton]
    omega
  · intro i w hi
    have hlt : i < q.length + 1 := by
      simpa using (List.getElem?_eq_some_iff.mp hi).1
    by_cases hl : i = q.length
    · subst hl
      rw [getElem?_concat_length, Option.some.injEq] at hi
      subst hi
      simp only [setCell, if_true]
    · have hi' : i < q.length := by omega
      rw [getElem?_append_left hi'] at hi
      simp only [setCell, if_neg (mod_ne (d := d) (show i < 2 ^ k by omega) hr hl)]
      exact hd.full i w hi
  · intro i hle hi
    rw [length_append, length_singleton] at hle
    have hne : i ≠ q.length := by omega
    simp only [setCell, if_neg (mod_ne (d := d) hi hr hne)]
    exact hd.free i (by omega) hi

/-- The oldest value comes out. -/
theorem dequeue_holds (hk : k ≤ 62) (h : Holds k r (v :: q)) :
    ∃ r', r.dequeue k = some (some v, r') ∧ Holds k r' q := by
  obtain ⟨d, hd⟩ := h
  have hin : index k r.deqPos = (d + 0) % 2 ^ k := by rw [hd.deq, index_ofNat hk]; rfl
  have hc := hd.full 0 v rfl
  have hp : 0 < 2 ^ k := Nat.two_pow_pos k
  have hln : q.length + 1 ≤ 2 ^ k := hd.fits
  refine ⟨{ r.setCell ((d + 0) % 2 ^ k) ⟨ofNat d + ofNat (2 ^ k), v⟩ with
    deqPos := ofNat (d + 1) }, ?_, d + 1, ?_⟩
  · unfold dequeue
    dsimp only
    rw [hin, hc, hd.deq, ofNat_succ, gap_self, if_pos rfl]
  refine ⟨rfl, ?_, by omega, ?_, ?_⟩
  · rw [show d + 1 + q.length = d + (q.length + 1) by omega]
    exact hd.enq
  · intro i w hi
    have hlt := (List.getElem?_eq_some_iff.mp hi).1
    have hne := mod_ne (d := d) (show i + 1 < 2 ^ k by omega) hp (by omega)
    rw [show d + 1 + i = d + (i + 1) by omega]
    simp only [setCell, if_neg hne]
    exact hd.full (i + 1) w hi
  intro i hle hi
  rw [show d + 1 + i = d + (i + 1) by omega]
  by_cases hl : i + 1 = 2 ^ k
  · -- the cell just emptied is free for one lap later
    have hs : (d + (i + 1)) % 2 ^ k = (d + 0) % 2 ^ k := by
      rw [hl, Nat.add_mod_right, Nat.add_zero]
    simp only [setCell, hs, if_true]
    rw [hl, ofNat_add]
  · have hne := mod_ne (d := d) (show i + 1 < 2 ^ k by omega) hp (by omega)
    simp only [setCell, if_neg hne]
    exact hd.free (i + 1) (by simpa using hle) (by omega)

/-- An empty ring has nothing to give. -/
theorem dequeue_empty (hk : k ≤ 62) (h : Holds k r []) : r.dequeue k = some (none, r) := by
  obtain ⟨d, hd⟩ := h
  have hi : index k r.deqPos = (d + 0) % 2 ^ k := by rw [hd.deq, index_ofNat hk]; rfl
  have hs := hd.free 0 (Nat.le_refl _) (by omega)
  unfold dequeue
  dsimp only
  rw [hi, hs, hd.deq, ofNat_succ, Nat.add_zero, gap_behind (by omega) (by omega)]
  rfl

/-- Counters that agree mean an empty ring. -/
theorem holds_nil_of_pos_eq (hk : k ≤ 62) (h : Holds k r q)
    (heq : r.enqPos = r.deqPos) : q = [] := by
  obtain ⟨d, hd⟩ := h
  have hc : 2 ^ k ≤ 2 ^ 62 := Nat.pow_le_pow_right (by omega) hk
  have hf := hd.fits
  rw [hd.enq, hd.deq] at heq
  have hn := congrArg toNat heq
  rw [toNat_ofNat', toNat_ofNat'] at hn
  exact length_eq_zero_iff.mp (by omega)

end SeqRing

end Rah.Lib
