import Rah.DataCache.Content

/-!
# The counters of an arena

`Size` and `LiveCount` are atomic integers of 32 bits, and the numbers of rows are unsigned ones.
An arena whose capacity is below `2 ^ 31` never sees the difference: every call does to it what
the call does to the arena with unbounded counters (`call_counted`), so what holds there holds
here. The `2 ^ 31`-th row makes `Size` negative, and no row is live any more.
-/

namespace Rah.DataCache

open List Schema

/-- An arena as the code keeps it, without what the model records beside it. -/
structure CountedArena where
  schema : Schema
  buf : Nat → UInt8 := fun _ => 0
  size : Int32 := 0
  liveCount : Int32 := 0
  freeRows : List Nat := []

/-- The calls of an arena. -/
inductive Call where
  | append (vals : List Value)
  | appendBatch (allVals : List (List Value))
  | delete (i : Int)
  | reset

namespace CountedArena

variable (c : CountedArena)

/-- A row in use, by the counters. -/
def IsLive (r : Nat) : Prop := (r : Int) < c.size.toInt ∧ r ∉ c.freeRows

/-- `Delete`, with the counter taken down. -/
def delete (i : Int) : CountedArena :=
  if 0 ≤ i ∧ i < c.size.toInt ∧ i.toNat ∉ c.freeRows then
    { c with freeRows := c.freeRows ++ [i.toNat], liveCount := c.liveCount - 1 }
  else c

/-- The sum with the old size is one of `int`; what is stored is cut to 32 bits. -/
def allocRows (n : Nat) : CountedArena × Option (List Nat) :=
  let left := c.freeRows.take (c.freeRows.length - n)
  let reused := (c.freeRows.drop (c.freeRows.length - n)).reverse
  let newNeeded := n - reused.length
  let oldSize := c.size.toInt
  if 0 < newNeeded ∧ c.schema.capacity < oldSize + newNeeded then
    ({ c with freeRows := left ++ reused }, none)
  else
    ({ c with
        freeRows := left
        size := Int32.ofInt (oldSize + newNeeded)
        liveCount := c.liveCount + Int32.ofNat n },
      some (reused ++ (range newNeeded).map (fun (i : Nat) => (UInt32.ofInt (oldSize + i)).toNat)))

/-- `Append` for one record, and `AppendBatch` after its check, with whether it returns no error. -/
def append (fl : Floats) (allVals : List (List Value)) : CountedArena × Bool :=
  match c.allocRows allVals.length with
  | (c, none) => (c, false)
  | (c, some rows) =>
    match c.schema.writeRows fl (rows.zip allVals) c.buf with
    | (buf, true) => ({ c with buf := buf }, true)
    | (buf, false) =>
      ({ c with
          buf := buf
          freeRows := c.freeRows ++ rows
          liveCount := c.liveCount - Int32.ofNat rows.length }, false)

/-- The sort index is not touched, but its column is forgotten. -/
def reset : CountedArena := { c with freeRows := [], size := 0, liveCount := 0 }

/-- The arena after the call, and whether the call returned no error. -/
def call (fl : Floats) : Call → CountedArena × Bool
  | .append vals => c.append fl [vals]
  | .appendBatch allVals =>
    if allVals.any (·.length ≠ c.schema.fields.length) then (c, false) else c.append fl allVals
  | .delete i => (c.delete i, true)
  | .reset => (c.reset, true)

end CountedArena

/-- A new arena after a list of calls. -/
def afterCalls (fl : Floats) (schema : Schema) (calls : List Call) : CountedArena :=
  calls.foldl (fun c x => (c.call fl x).1) { schema := schema }

/-- New rows hold the records, and the rows that were live are live and unchanged. -/
def Adds (fl : Floats) (c c' : CountedArena) (records : List (List Value)) : Prop :=
  ∃ rows, rows.Nodup ∧ (∀ r ∈ rows, ¬ c.IsLive r) ∧ (∀ r, c'.IsLive r ↔ c.IsLive r ∨ r ∈ rows)
    ∧ (∀ r, c.IsLive r → ∀ col, c'.schema.cell c'.buf col r = c.schema.cell c.buf col r)
    ∧ Forall₂ (c'.schema.Holds fl c'.buf) rows records

/-! ## The arena with unbounded counters -/

/-- The same arena with both counters cut to 32 bits. -/
def Arena.counted (a : Arena) : CountedArena :=
  { schema := a.schema, buf := a.buf, size := Int32.ofNat a.size,
    liveCount := Int32.ofNat a.liveCount, freeRows := a.freeRows }

/-- The sort index is not touched, but its column is forgotten. -/
def Arena.reset (a : Arena) : Arena :=
  { a with
    freeRows := []
    size := 0
    liveCount := 0
    sortByIdx := none
    order := []
    lastSort := none }

/-- A call on the arena with unbounded counters. -/
def Arena.call (fl : Floats) (a : Arena) : Call → Arena × Bool
  | .append vals => (a.append fl [vals], a.accepts fl [vals])
  | .appendBatch allVals => (a.appendBatch fl allVals,
      !allVals.any (·.length ≠ a.schema.fields.length) && a.accepts fl allVals)
  | .delete i => (a.delete i, true)
  | .reset => (a.reset, true)

section Counters

variable {a : Arena} {fl : Floats} {schema : Schema}

theorem Sound.call (h : Sound a) (x : Call) : Sound (a.call fl x).1 := by
  cases x with
  | append vals => exact h.append [vals]
  | appendBatch allVals => exact h.appendBatch allVals
  | delete i => exact h.delete i
  | reset => exact ⟨.refl _, rfl, Nat.zero_le _, h.indexed⟩

section Small

variable (h : Sound a) (hcap : a.schema.capacity < 2147483648)
include h hcap

theorem Sound.size_toInt : a.counted.size.toInt = a.size :=
  Int32.toInt_ofNat_of_lt (by have := h.fits; omega)

theorem Sound.counted_isLive : a.counted.IsLive r ↔ a.IsLive r := by
  rw [CountedArena.IsLive, h.size_toInt hcap, Int.ofNat_lt]
  rfl

theorem Sound.delete_counted (i : Int) : a.counted.delete i = (a.delete i).counted := by
  have hg : (0 ≤ i ∧ i < a.counted.size.toInt ∧ i.toNat ∉ a.counted.freeRows)
      ↔ (0 ≤ i ∧ a.IsLive i.toNat) := by
    rw [h.size_toInt hcap, Arena.IsLive]
    constructor <;> rintro ⟨h0, hlt, hf⟩ <;> exact ⟨h0, by omega, hf⟩
  rw [CountedArena.delete, Arena.delete]
  by_cases hl : 0 ≤ i ∧ a.IsLive i.toNat
  · have hpos : 1 ≤ a.liveCount := by
      rw [h.counted]
      exact length_pos_of_mem (h.mem_order.mpr hl.2)
    rw [if_pos (hg.mpr hl), if_pos hl, Arena.counted, Arena.counted, Int32.ofNat_sub _ _ hpos]
    rfl
  · rw [if_neg (fun hc => hl (hg.mp hc)), if_neg hl]

theorem Sound.allocRows_counted (n : Nat) :
    a.counted.allocRows n = ((a.allocRows n).1.counted, (a.allocRows n).2) := by
  have hle := h.fits
  rw [CountedArena.allocRows, Arena.allocRows, h.size_toInt hcap,
    show a.counted.freeRows = a.freeRows from rfl, show a.counted.schema = a.schema from rfl]
  generalize (a.freeRows.drop (a.freeRows.length - n)).reverse = reused
  generalize n - reused.length = m
  by_cases hf : 0 < m ∧ a.schema.capacity < a.size + m
  · rw [if_pos hf, if_pos ⟨hf.1, by omega⟩]
    rfl
  · have hrows : (range m).map (fun (i : Nat) => (UInt32.ofInt ((a.size : Int) + i)).toNat)
        = range' a.size m := by
      rw [range'_eq_map_range]
      refine map_congr_left fun i hi => ?_
      have hlt := mem_range.mp hi
      rw [UInt32.ofInt, UInt32.toNat_ofNat']
      omega
    rw [if_neg hf, if_neg (fun hc => hf ⟨hc.1, by omega⟩), hrows, ← Int.natCast_add,
      Int32.ofInt_eq_ofNat, Arena.counted, Arena.counted, Int32.ofNat_add a.liveCount]

theorem Sound.append_counted (allVals : List (List Value)) :
    a.counted.append fl allVals = ((a.append fl allVals).counted, a.accepts fl allVals) := by
  rw [CountedArena.append, Arena.append, Arena.accepts, h.allocRows_counted hcap]
  rcases ha : a.allocRows allVals.length with ⟨b, _ | rows⟩
  · rfl
  obtain ⟨free, size, rfl, -, -, -⟩ := h.allocRows ha
  dsimp only [Arena.counted]
  rcases a.schema.writeRows fl (rows.zip allVals) a.buf with ⟨buf, _ | _⟩
  · have hback : Int32.ofNat (a.liveCount + rows.length - rows.length)
        = Int32.ofNat (a.liveCount + rows.length) - Int32.ofNat rows.length :=
      Int32.ofNat_sub _ _ (Nat.le_add_left _ _)
    simp only [Option.getD_some, hback]
  · rfl

/-- **A call does to the counters what it does to unbounded ones.** -/
theorem Sound.call_counted (x : Call) :
    a.counted.call fl x = ((a.call fl x).1.counted, (a.call fl x).2) := by
  cases x with
  | append vals => exact h.append_counted hcap [vals]
  | appendBatch allVals =>
    rw [CountedArena.call, Arena.call, Arena.appendBatch, h.append_counted hcap,
      show a.counted.schema = a.schema from rfl]
    cases allVals.any (·.length ≠ a.schema.fields.length) <;> rfl
  | delete i => exact congrArg (·, true) (h.delete_counted hcap i)
  | reset => rfl

end Small

theorem Sound.call_schema (h : Sound a) (x : Call) : (a.call fl x).1.schema = a.schema := by
  have happ : ∀ allVals, (a.append fl allVals).schema = a.schema := fun allVals => by
    obtain ⟨_, _, hs, _⟩ := h.append_rows fl allVals
    exact hs
  cases x with
  | append vals => exact happ [vals]
  | appendBatch allVals =>
    show (a.appendBatch fl allVals).schema = _
    rw [Arena.appendBatch]
    split
    · rfl
    · exact happ allVals
  | delete i =>
    show (a.delete i).schema = _
    rw [Arena.delete]
    split <;> rfl
  | reset => rfl

/-- After any calls the arena is one with unbounded counters, cut to 32 bits. -/
theorem afterCalls_counted (fl : Floats) (hcap : schema.capacity < 2147483648)
    (calls : List Call) :
    ∃ a : Arena, Sound a ∧ a.schema = schema ∧ afterCalls fl schema calls = a.counted := by
  refine foldlRecOn (motive := fun c => ∃ a : Arena, Sound a ∧ a.schema = schema ∧ c = a.counted)
    calls _ ⟨initSlot schema, initSlot_sound schema, rfl, rfl⟩ fun c hc x _ => ?_
  obtain ⟨a, h, hs, rfl⟩ := hc
  rw [h.call_counted (hs ▸ hcap)]
  exact ⟨_, h.call x, (h.call_schema x).trans hs, rfl⟩

/-- A call adds its records if it returns no error, and else nothing. -/
theorem Sound.append_adds (h : Sound a) (hcap : a.schema.capacity < 2147483648)
    (allVals : List (List Value)) : Adds fl a.counted (a.counted.append fl allVals).1
      (if (a.counted.append fl allVals).2 then allVals else []) := by
  obtain ⟨rows, ho, hsc, hk, hw, -⟩ := h.append_rows fl allVals
  have hs : Sound (a.append fl allVals) := h.append allVals
  have hn := nodup_append.mp (ho ▸ hs.nodup)
  rw [h.append_counted hcap]
  have hl' : ∀ r, (a.append fl allVals).counted.IsLive r ↔ r ∈ a.order ++ rows := fun r => by
    rw [hs.counted_isLive (hsc ▸ hcap), ← hs.mem_order, ho]
  have hl : ∀ r, a.counted.IsLive r ↔ r ∈ a.order := fun r => by
    rw [h.counted_isLive hcap, h.mem_order]
  refine ⟨rows, hn.2.1, fun r hr hlv => hn.2.2 r ((hl r).mp hlv) r hr rfl, fun r => ?_,
    fun r hlv col => ?_, ?_⟩
  · rw [hl', hl, mem_append]
  · show (a.append fl allVals).schema.cell _ _ _ = _
    rw [hsc]
    exact hk r ((hl r).mp hlv) col
  · show Forall₂ ((a.append fl allVals).schema.Holds fl _) _ _
    rw [hsc]
    exact hw

theorem Adds.none {c : CountedArena} : Adds fl c c [] :=
  ⟨[], .nil, by simp, by simp, fun _ _ _ => rfl, .nil⟩

/-- **A call adds all its records or none, and touches no row that was live**, whatever calls came
before it, in an arena whose rows 32-bit counters can count. -/
theorem calls_all_or_nothing (fl : Floats) (schema : Schema)
    (hcap : schema.capacity < 2147483648) (calls : List Call) :
    let c := afterCalls fl schema calls
    (c.freeRows.Nodup ∧ (∀ r ∈ c.freeRows, (r : Int) < c.size.toInt)
      ∧ c.size.toInt ≤ c.schema.capacity
      ∧ c.liveCount.toInt = c.size.toInt - c.freeRows.length)
    ∧ (∀ vals, Adds fl c (c.call fl (.append vals)).1
      (if (c.call fl (.append vals)).2 then [vals] else []))
    ∧ ∀ allVals, Adds fl c (c.call fl (.appendBatch allVals)).1
      (if (c.call fl (.appendBatch allVals)).2 then allVals else []) := by
  obtain ⟨a, h, hs, hc⟩ := afterCalls_counted fl hcap calls
  rw [← hs] at hcap
  rw [hc]
  intro c
  have hl := h.shared.length_eq
  rw [length_append, length_range, ← h.counted] at hl
  have hfit := h.fits
  have hlive : c.liveCount.toInt = a.liveCount := Int32.toInt_ofNat_of_lt (by omega)
  refine ⟨⟨?_, fun r hr => ?_, ?_, ?_⟩, fun vals => h.append_adds hcap [vals], fun allVals => ?_⟩
  · exact (nodup_append.mp (h.shared.nodup_iff.mpr nodup_range)).2.1
  · rw [h.size_toInt hcap]
    exact Int.ofNat_lt.mpr (mem_range.mp (h.shared.subset (mem_append_right _ hr)))
  · rw [h.size_toInt hcap]
    exact Int.ofNat_le.mpr hfit
  · rw [hlive, h.size_toInt hcap]
    show (a.liveCount : Int) = a.size - a.freeRows.length
    omega
  · rw [CountedArena.call]
    split
    · exact Adds.none
    · exact h.append_adds hcap allVals

/-- A row is free. A batch of two is refused for the type of its second record, and a batch of one
has the row then. -/
theorem calls_all_or_nothing_refused :
    let c := afterCalls noFloats numbers [.append [.uint8 5], .delete 0]
    (c.call noFloats (.appendBatch [[.uint8 6], [.other]])).2 = false
      ∧ Adds noFloats c (c.call noFloats (.appendBatch [[.uint8 6], [.other]])).1 []
      ∧ Adds noFloats c (c.call noFloats (.appendBatch [[.uint8 6]])).1 [[.uint8 6]] := by
  have h := calls_all_or_nothing noFloats numbers (by decide) [.append [.uint8 5], .delete 0]
  exact ⟨by decide, h.2.2 [[.uint8 6], [.other]], h.2.2 [[.uint8 6]]⟩

end Counters

/-! ## A row too many -/

section TooMany

theorem writeRows_bytes (fl : Floats) {s : Schema} (hs : s.fields = numbers.fields) (v : UInt8) :
    ∀ (ps : List (Nat × List Value)) (buf : Nat → UInt8), (∀ p ∈ ps, p.2 = [.uint8 v]) →
      (s.writeRows fl ps buf).2 = true
  | [], _, _ => rfl
  | (row, vals) :: ps, buf, h => by
    obtain ⟨rfl, ht⟩ := forall_mem_cons.mp h
    have hw : (s.writeRow fl row [.uint8 v] buf).2 = true := by
      rw [writeRow, hs, if_neg (by simp [numbers])]
      rfl
    rw [writeRows]
    rcases hr : s.writeRow fl row [.uint8 v] buf with ⟨buf', ok⟩
    obtain rfl : ok = true := by rw [hr] at hw; exact hw
    exact writeRows_bytes fl hs v ps buf' ht

variable {c : CountedArena}

theorem allocRows_fresh (hfree : c.freeRows = []) (hsize : c.size = 0)
    (hcap : n ≤ c.schema.capacity) : ∃ rows, c.allocRows n
      = ({ c with size := Int32.ofNat n, liveCount := c.liveCount + Int32.ofNat n },
        some rows) := by
  have hroom : ¬ (0 < n ∧ (c.schema.capacity : Int) < n) := by omega
  simp only [CountedArena.allocRows, hfree, hsize, Int32.toInt_zero, take_nil, drop_nil,
    reverse_nil, length_nil, Nat.sub_zero, nil_append, if_neg hroom, Int.zero_add,
    Int32.ofInt_eq_ofNat]
  exact ⟨_, rfl⟩

/-- A batch into a fresh arena with room for it is accepted, however long it is. -/
theorem appendBatch_fresh (fl : Floats) (hs : c.schema.fields = numbers.fields)
    (hfree : c.freeRows = []) (hsize : c.size = 0) (hcap : n ≤ c.schema.capacity) :
    (c.call fl (.appendBatch (replicate n [.uint8 5]))).2 = true
      ∧ (c.call fl (.appendBatch (replicate n [.uint8 5]))).1.size = Int32.ofNat n := by
  have hany : (replicate n [Value.uint8 5]).any (·.length ≠ c.schema.fields.length) = false := by
    rw [any_eq_false]
    intro vals hv
    rw [eq_of_mem_replicate hv, hs]
    simp [numbers]
  obtain ⟨rows, hal⟩ := allocRows_fresh hfree hsize hcap
  have hw := writeRows_bytes fl hs 5 (rows.zip (replicate n [.uint8 5])) c.buf
    (fun p hp => eq_of_mem_replicate (of_mem_zip hp).2)
  rw [CountedArena.call, hany, if_neg Bool.false_ne_true, CountedArena.append, length_replicate,
    hal]
  dsimp only
  rcases hr : c.schema.writeRows fl (rows.zip (replicate n [.uint8 5])) c.buf with ⟨buf, ok⟩
  rw [hr] at hw
  obtain rfl : ok = true := hw
  exact ⟨rfl, rfl⟩

/-- The number of records stays a variable, for no proof should count them. -/
theorem batch_lost (fl : Floats) (n : Nat) (hn : n = 2147483648) :
    let c := afterCalls fl { numbers with capacity := n } []
    let c' := c.call fl (.appendBatch (replicate n [.uint8 5]))
    c'.2 = true ∧ ¬ Adds fl c c'.1 (replicate n [.uint8 5]) := by
  intro c c'
  obtain ⟨hok, hsize⟩ := appendBatch_fresh fl (c := c) rfl rfl rfl (Nat.le_refl n)
  refine ⟨hok, fun ⟨rows, _, _, hlive, _, hrows⟩ => ?_⟩
  have hlen := hrows.length_eq
  rw [length_replicate, hn] at hlen
  obtain ⟨r, hr⟩ := exists_mem_of_length_pos (by omega : 0 < rows.length)
  have hlt := ((hlive r).mpr (.inr hr)).1
  rw [hsize, hn, show (Int32.ofNat 2147483648).toInt = -2147483648 by decide] at hlt
  omega

/-- **A batch of `2 ^ 31` records is accepted and none of them is there**: `Size` is negative. -/
theorem batch_uncounted :
    let c := afterCalls noFloats { numbers with capacity := 2147483648 } []
    let c' := c.call noFloats (.appendBatch (replicate 2147483648 [.uint8 5]))
    c'.2 = true ∧ ¬ Adds noFloats c c'.1 (replicate 2147483648 [.uint8 5]) :=
  batch_lost noFloats 2147483648 rfl

end TooMany

end Rah.DataCache
