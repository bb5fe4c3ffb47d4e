import Rah.DataCache.Rows

/-!
# The content of a collection

The cells of two rows or of two columns do not overlap, whatever the schema and the
capacity, so a call writes only into the rows it has taken. From this follows what a call
leaves of the other rows, what growing leaves of all rows, and that a window keeps the
latest records: the row it evicts is the row it takes next.
-/

namespace Rah.DataCache

open Rah.Lib List Schema

/-! ## Cells -/

section Cells

variable {fl : Floats} {s : Schema} {buf : Nat → UInt8} {row : Nat}

theorem offset_le (h : col < col') : s.offset col + s.stride col * s.capacity ≤ s.offset col' := by
  have hs : ∀ c, s.offset (c + 1) = s.offset c + s.stride c * s.capacity := by
    intro c
    rw [offset, take_add_one, foldl_append, stride]
    cases s.fields[c]? <;> simp [offset]
  induction h with
  | refl => rw [hs]
  | step _ ih =>
    rw [hs]
    omega

/-- Two cells have no byte in common. -/
theorem start_apart (hr : row < s.capacity) (hr' : row' < s.capacity)
    (hne : col ≠ col' ∨ row ≠ row') : s.start col row + s.stride col ≤ s.start col' row'
      ∨ s.start col' row' + s.stride col' ≤ s.start col row := by
  have hrow : ∀ {c r r'}, r < r' → r * s.stride c + s.stride c ≤ r' * s.stride c := by
    intro c r r' h
    rw [← Nat.succ_mul]
    exact Nat.mul_le_mul_right _ h
  have hin : ∀ {c c' r r'}, c < c' → r < s.capacity →
      s.start c r + s.stride c ≤ s.start c' r' := by
    intro c c' r r' hc hr
    have := offset_le (s := s) hc
    have := hrow (c := c) hr
    rw [start, start, Nat.mul_comm (s.stride c)] at *
    omega
  rcases Nat.lt_trichotomy col col' with hc | rfl | hc
  · exact .inl (hin hc hr)
  · rcases Nat.lt_or_gt_of_ne (hne.resolve_left fun h => h rfl) with h | h
    · have := hrow (c := col) h
      exact .inl (by unfold start; omega)
    · have := hrow (c := col) h
      exact .inr (by unfold start; omega)
  · exact .inr (hin hc hr')

/-- What a cell keeps of the bytes: it cuts them or fills up with zeros. -/
def Schema.stored (s : Schema) (col : Nat) (v : Bytes) : Bytes :=
  (range (s.stride col)).map (v.getD · 0)

theorem cell_setCell : s.cell (s.setCell buf col row v) col row = s.stored col v := by
  refine map_congr_left fun j hj => ?_
  have := mem_range.mp hj
  rw [setCell, if_pos (by omega), Nat.add_sub_cancel_left]

theorem cell_setCell_of_ne (hr : row < s.capacity) (hr' : row' < s.capacity)
    (hne : col ≠ col' ∨ row ≠ row') :
    s.cell (s.setCell buf col row v) col' row' = s.cell buf col' row' := by
  refine map_congr_left fun j hj => ?_
  have := mem_range.mp hj
  have := start_apart hr hr' hne
  exact if_neg (by omega)

theorem stored_cell : s.stored col (s.cell buf col row) = s.cell buf col row := by
  refine map_congr_left fun j hj => ?_
  have := mem_range.mp hj
  simp [cell, getD_eq_getElem?_getD, this]

/-- The row holds the record, each value as its column stores it. -/
def Schema.Holds (fl : Floats) (s : Schema) (buf : Nat → UInt8) (row : Nat) (vals : List Value) :
    Prop :=
  vals.length = s.fields.length ∧ ∀ col f v, (s.fields.zip vals)[col]? = some (f, v) →
    ∃ bytes, encode fl f.kind v = some bytes ∧ s.cell buf col row = s.stored col bytes

theorem Schema.Holds.congr (h : s.Holds fl buf row vals)
    (hc : ∀ col, s.cell buf' col row = s.cell buf col row) : s.Holds fl buf' row vals :=
  ⟨h.1, fun col f v hfv => by rw [hc]; exact h.2 col f v hfv⟩

variable (fl)

/-- The values of a row are written from a column on: no other cell changes. -/
theorem writeFields_spec (hr : row < s.capacity) : ∀ (fs : List (FieldDef × Value)) (col : Nat)
    (buf : Nat → UInt8), (∀ col' row', row' < s.capacity → col' < col ∨ row ≠ row' →
        s.cell (s.writeFields fl row fs col buf).1 col' row' = s.cell buf col' row')
      ∧ ((s.writeFields fl row fs col buf).2 = true → ∀ i f v, fs[i]? = some (f, v) →
        ∃ bytes, encode fl f.kind v = some bytes
          ∧ s.cell (s.writeFields fl row fs col buf).1 (col + i) row = s.stored (col + i) bytes)
  | [], _, _ => ⟨fun _ _ _ _ => rfl, fun _ _ _ _ h => by cases h⟩
  | (f, v) :: rest, col, buf => by
    rw [writeFields]
    cases he : encode fl f.kind v with
    | none => exact ⟨fun _ _ _ _ => rfl, fun h => by cases h⟩
    | some bytes =>
    obtain ⟨hk, hw⟩ := writeFields_spec hr rest (col + 1) (s.setCell buf col row bytes)
    refine ⟨fun col' row' hr' hne => ?_, fun hok i f' v' hi => ?_⟩
    · exact (hk col' row' hr' (hne.imp_left (by omega))).trans
        (cell_setCell_of_ne hr hr' (hne.imp_left (by omega)))
    cases i with
    | zero =>
      cases hi
      exact ⟨bytes, he, (hk col row hr (.inl (by omega))).trans cell_setCell⟩
    | succ i =>
      rw [← Nat.add_assoc, Nat.add_right_comm]
      exact hw hok i f' v' hi

theorem writeRow_spec (hr : row < s.capacity) (vals : List Value) (buf : Nat → UInt8) :
    (∀ col r, r < s.capacity → row ≠ r →
        s.cell (s.writeRow fl row vals buf).1 col r = s.cell buf col r)
      ∧ ((s.writeRow fl row vals buf).2 = true →
        s.Holds fl (s.writeRow fl row vals buf).1 row vals) := by
  unfold writeRow
  split
  · exact ⟨fun _ _ _ _ => rfl, fun h => by cases h⟩
  rename_i hl
  obtain ⟨hk, hw⟩ := writeFields_spec fl hr (s.fields.zip vals) 0 buf
  refine ⟨fun col r h hne => hk col r h (.inr hne), fun hok => ⟨not_not.mp hl, fun col f v h => ?_⟩⟩
  have := hw hok col f v h
  rwa [Nat.zero_add] at this

theorem writeRows_spec : ∀ {ps : List (Nat × List Value)} (buf : Nat → UInt8),
    (ps.map Prod.fst).Nodup → (∀ r ∈ ps.map Prod.fst, r < s.capacity) →
    (∀ col r, r < s.capacity → r ∉ ps.map Prod.fst →
        s.cell (s.writeRows fl ps buf).1 col r = s.cell buf col r)
      ∧ ((s.writeRows fl ps buf).2 = true →
        ∀ p ∈ ps, s.Holds fl (s.writeRows fl ps buf).1 p.1 p.2)
  | [], _, _, _ => ⟨fun _ _ _ _ => rfl, fun _ _ h => by cases h⟩
  | (row, vals) :: ps, buf, hn, hlt => by
    obtain ⟨hnr, hn⟩ := nodup_cons.mp hn
    obtain ⟨hr, hlt⟩ := forall_mem_cons.mp hlt
    obtain ⟨hk, hw⟩ := writeRow_spec fl hr vals buf
    rw [writeRows]
    rcases hwr : s.writeRow fl row vals buf with ⟨buf', ok⟩
    rw [hwr] at hk hw
    have hk' : ∀ col r, r < s.capacity → r ∉ ((row, vals) :: ps).map Prod.fst →
        s.cell buf' col r = s.cell buf col r :=
      fun col r h hm => hk col r h fun he => hm (he ▸ mem_cons_self)
    cases ok with
    | false => exact ⟨hk', fun h => by cases h⟩
    | true =>
    obtain ⟨hks, hws⟩ := writeRows_spec buf' hn hlt
    refine ⟨fun col r h hm => (hks col r h fun hm' => hm (mem_cons_of_mem _ hm')).trans
      (hk' col r h hm), fun hok p hp => ?_⟩
    rcases mem_cons.mp hp with rfl | hp
    · exact (hw rfl).congr fun col => hks col row hr hnr
    · exact hws hok p hp

end Cells

/-! ## Appends -/

/-- Whether `Append`, or `AppendBatch` after its check, returns no error. -/
def Arena.accepts (fl : Floats) (a : Arena) (allVals : List (List Value)) : Bool :=
  match a.allocRows allVals.length with
  | (_, none) => false
  | (a, some rows) => (a.schema.writeRows fl (rows.zip allVals) a.buf).2

section Appends

variable {a : Arena}

/-- What an append does to the rows, with the recorded order. -/
theorem Sound.append_rows (h : Sound a) (fl : Floats) (allVals : List (List Value)) :
    ∃ rows, (a.append fl allVals).order = a.order ++ rows
      ∧ (a.append fl allVals).schema = a.schema
      ∧ (∀ r ∈ a.order, ∀ col,
        a.schema.cell (a.append fl allVals).buf col r = a.schema.cell a.buf col r)
      ∧ Forall₂ (a.schema.Holds fl (a.append fl allVals).buf) rows
        (if a.accepts fl allVals then allVals else [])
      ∧ (a.accepts fl allVals = true → (a.allocRows allVals.length).2 = some rows
        ∧ (a.append fl allVals).freeRows = (a.allocRows allVals.length).1.freeRows) := by
  rcases ha : a.allocRows allVals.length with ⟨b, _ | rows⟩
  · obtain ⟨free, size, rfl, -⟩ := h.allocRows ha
    exact ⟨[], by simp [Arena.append, Arena.accepts, ha]⟩
  obtain ⟨free, size, rfl, hp, hf, hl⟩ := h.allocRows ha
  have hm : (rows.zip allVals).map Prod.fst = rows := map_fst_zip (hl rows rfl).le
  have hn := nodup_append.mp (hp.nodup_iff.mpr nodup_range)
  have hn' := nodup_append.mp hn.1
  have hlt : ∀ r ∈ a.order ++ rows, r < a.schema.capacity := fun r hr =>
    (mem_range.mp (hp.subset (mem_append_left _ hr))).trans_le hf
  obtain ⟨hk, hw⟩ := @writeRows_spec fl a.schema (rows.zip allVals) a.buf
    (by rw [hm]; exact hn'.2.1) (by rw [hm]; exact fun r hr => hlt r (mem_append_right _ hr))
  rw [hm] at hk
  have hk' := fun r hr col =>
    hk col r (hlt r (mem_append_left _ hr)) fun hr' => hn'.2.2 r hr r hr' rfl
  rcases hwr : a.schema.writeRows fl (rows.zip allVals) a.buf with ⟨buf, _ | _⟩ <;>
    rw [hwr] at hw hk' <;> simp only [Arena.append, Arena.accepts, ha, hwr]
  · exact ⟨[], by simpa using hk'⟩
  · refine ⟨rows, rfl, trivial, hk', ?_, fun _ => ⟨rfl, trivial⟩⟩
    rw [if_pos trivial]
    exact forall₂_iff_zip.mpr ⟨hl rows rfl, fun hz => hw rfl _ hz⟩

end Appends

/-! ## Growing -/

/-- What `growCollection` reads of a collection, and of the pool and the quotas. -/
structure Growing where
  windowSize : Nat
  maxCap : Nat
  maxBufBytes : Nat
  reserve : Nat → Bool

/-- The capacity doubled, up to the configured maximum. -/
def Growing.newCap (m : Growing) (oldCap : Nat) : Nat :=
  if 0 < m.maxCap ∧ m.maxCap < oldCap * 2 then m.maxCap else oldCap * 2

/-- The bytes of all columns. -/
def Schema.bufSize (s : Schema) : Nat := s.offset s.fields.length

/-- `none` is an error. -/
def Arena.growCollection (a : Arena) (m : Growing) (behind : List Nat) : Option Arena :=
  let oldCap := a.schema.capacity
  let newCap := m.newCap oldCap
  let newSchema := { a.schema with capacity := newCap }
  let addBytes := newSchema.bufSize - a.schema.bufSize
  if 0 < m.windowSize ∨ newCap ≤ oldCap ∨ m.maxBufBytes < newSchema.bufSize then none
  else if 0 < addBytes ∧ m.reserve addBytes = false then none
  else some (a.grow newCap behind)

/-- Cells are written one after the other, each always with the same bytes. -/
theorem cell_foldl_setCell {s : Schema} (g : Nat → Nat → Bytes) (hr : row < s.capacity) :
    ∀ (ps : List (Nat × Nat)) (buf : Nat → UInt8), (∀ p ∈ ps, p.2 < s.capacity) →
      s.cell (ps.foldl (fun buf p => s.setCell buf p.1 p.2 (g p.1 p.2)) buf) col row
        = if (col, row) ∈ ps then s.stored col (g col row) else s.cell buf col row
  | [], _, _ => rfl
  | p :: ps, buf, hlt => by
    obtain ⟨hp, hlt⟩ := forall_mem_cons.mp hlt
    rw [foldl_cons, cell_foldl_setCell g hr ps _ hlt]
    by_cases hm : (col, row) ∈ ps
    · rw [if_pos hm, if_pos (mem_cons_of_mem _ hm)]
    rw [if_neg hm]
    by_cases he : (col, row) = p
    · rw [if_pos (he ▸ mem_cons_self), ← he]
      exact cell_setCell
    · rw [if_neg fun h => (mem_cons.mp h).elim he hm]
      refine cell_setCell_of_ne hp hr ?_
      by_contra hc
      rw [not_or, not_not, not_not] at hc
      exact he (Prod.ext hc.1.symm hc.2.symm)

/-- **Growing keeps every row**, in a buffer where every column has moved. -/
theorem growCollection_keeps (h : History fl schema ops a)
    (hg : a.growCollection m behind = some a') :
    (∀ r, a'.IsLive r ↔ a.IsLive r)
      ∧ (∀ r, a.IsLive r → ∀ col < a.schema.fields.length,
        a'.schema.cell a'.buf col r = a.schema.cell a.buf col r)
      ∧ a'.schema.capacity = if 0 < m.maxCap then min (2 * a.schema.capacity) m.maxCap
        else 2 * a.schema.capacity := by
  have hf := h.sound.fits
  rw [Arena.growCollection] at hg
  dsimp only at hg
  split at hg
  · cases hg
  rename_i hno
  split at hg
  · cases hg
  rw [not_or, not_or] at hno
  rw [Option.some.injEq, Arena.grow, if_neg hno.2.1] at hg
  subst hg
  refine ⟨fun r => .rfl, fun r hl col hc => ?_, ?_⟩
  · have hm : (col, r) ∈ range a.schema.fields.length ×ˢ range a.size :=
      pair_mem_product.mpr ⟨mem_range.mpr hc, mem_range.mpr hl.1⟩
    have hle := Nat.lt_of_not_le hno.2.1
    have hlt : ∀ {r}, r < a.size → r < m.newCap a.schema.capacity := fun h => by omega
    rw [cell_foldl_setCell (a.schema.cell a.buf) (hlt hl.1), if_pos hm]
    · exact stored_cell
    · rintro ⟨c, r⟩ hp
      exact hlt (mem_range.mp (pair_mem_product.mp hp).2)
  · dsimp only
    rw [Growing.newCap]
    split_ifs <;> omega

/-- Two columns of two rows. -/
def pairs : Schema := { fields := [⟨"n", .enum, 1⟩, ⟨"m", .enum, 1⟩], capacity := 2 }

/-- A full collection grows to three rows: its second column has moved and reads the same. -/
theorem growCollection_keeps_pairs : ∃ a a',
    History noFloats pairs [.append [.uint8 5, .uint8 7], .append [.uint8 6, .uint8 8]] a
      ∧ a.growCollection ⟨0, 3, 100, fun _ => true⟩ [] = some a' ∧ a'.schema.capacity = 3
      ∧ a.schema.start 1 1 = 3 ∧ a'.schema.start 1 1 = 4
      ∧ a'.schema.cell a'.buf 1 1 = a.schema.cell a.buf 1 1 ∧ a.schema.cell a.buf 1 1 = [8] := by
  have hr : History noFloats pairs
    [.append [.uint8 5, .uint8 7], .append [.uint8 6, .uint8 8]] _ := GoodRun.of_foldlM rfl
  obtain ⟨-, hk, hc⟩ := growCollection_keeps hr
    (show Arena.growCollection _ ⟨0, 3, 100, fun _ => true⟩ [] = some _ from rfl)
  exact ⟨_, _, hr, rfl, hc, rfl, rfl, hk 1 (by decide) 1 (by decide), rfl⟩

/-! ## Windows -/

/-- A windowed collection. `evalComputed` fills in the computed fields or fails. -/
structure Window where
  windowSize : Nat
  evalComputed : List Value → Option (List Value)

/-- An arena and the head of its ring. -/
structure Slot where
  arena : Arena
  ringHead : BitVec 32 := 0

/-- `AppendVals` of a windowed collection, which never grows, and whether it returns no error. -/
def Slot.appendVals (fl : Floats) (w : Window) (slot : Slot) (vals : List Value) : Slot × Bool :=
  match w.evalComputed vals with
  | none => (slot, false)
  | some vals =>
    let slot := if w.windowSize ≤ slot.arena.liveCount then
      { arena := slot.arena.delete (slot.ringHead.toInt.tmod w.windowSize)
        ringHead := slot.ringHead + 1 } else slot
    ({ slot with arena := slot.arena.append fl [vals] }, slot.arena.accepts fl [vals])

/-- The slot after the records were appended, if each was. -/
def Slot.appends (fl : Floats) (w : Window) (slot : Slot) (records : List (List Value)) :
    Option Slot :=
  records.foldlM (fun slot vals =>
    if (slot.appendVals fl w vals).2 then some (slot.appendVals fl w vals).1 else none) slot

/-- The rows are used in turn, and those of the last `m` records are live. -/
structure Arena.Latest (fl : Floats) (k : Nat) (a : Arena) (records : List (List Value)) (m : Nat) :
    Prop where
  sound : Sound a
  order : a.order = (range' (records.length - m) m).map (· % k)
  held : Forall₂ (a.schema.Holds fl a.buf) a.order (records.drop (records.length - m))

/-- Between two appends. -/
structure Slot.Settled (fl : Floats) (w : Window) (slot : Slot) (records : List (List Value)) :
    Prop where
  latest : slot.arena.Latest fl w.windowSize records (min records.length w.windowSize)
  full : slot.arena.freeRows = []
  head : slot.ringHead = BitVec.ofNat 32 (records.length - w.windowSize)

section Windows

variable {fl : Floats} {w : Window} {a : Arena} {slot : Slot}
  {records : List (List Value)} {k : Nat}

/-- One row is taken: the free one, or the next. -/
theorem allocRows_one (h : a.freeRows = [r] ∨ a.freeRows = [] ∧ a.size = r)
    (hr : (a.allocRows 1).2 = some rows) : rows = [r] ∧ (a.allocRows 1).1.freeRows = [] := by
  rcases h with hf | ⟨hf, rfl⟩ <;> rw [Arena.allocRows, hf] at hr ⊢
  · cases hr
    exact ⟨rfl, rfl⟩
  · split at hr <;> cases hr
    rename_i hc
    rw [if_neg hc]
    exact ⟨rfl, rfl⟩

theorem Arena.Latest.append (h : a.Latest fl k records m) (hm : m ≤ records.length)
    (hok : a.accepts fl [vals] = true) (hf : a.freeRows = [records.length % k]
      ∨ a.freeRows = [] ∧ a.size = records.length % k) :
    (a.append fl [vals]).Latest fl k (records ++ [vals]) (m + 1)
      ∧ (a.append fl [vals]).freeRows = [] := by
  obtain ⟨rows, ho, hsc, hk, hw, hr⟩ := h.sound.append_rows fl [vals]
  obtain ⟨hr, hfr⟩ := hr hok
  obtain ⟨rfl, hn⟩ := allocRows_one hf hr
  rw [if_pos hok] at hw
  have hl : (records ++ [vals]).length - (m + 1) = records.length - m := by simp
  refine ⟨⟨h.sound.append [vals], ?_, ?_⟩, hfr.trans hn⟩ <;> rw [hl]
  · rw [ho, h.order, range'_concat, map_append, map_singleton, Nat.one_mul, Nat.sub_add_cancel hm]
  · rw [hsc, ho, drop_append_of_le_length (Nat.sub_le _ _)]
    refine rel_append (((forall₂_and_left _ _).mpr ⟨hk, h.held⟩).imp fun r vals h => ?_) hw
    exact h.2.congr h.1

/-- A full window gives up the row of its oldest record. -/
theorem Arena.Latest.evict (h : a.Latest fl k records (m + 1)) (hi : records.length = i + (m + 1)) :
    (a.delete (i % k : Nat)).Latest fl k records m
      ∧ (a.delete (i % k : Nat)).freeRows = a.freeRows ++ [i % k] := by
  obtain ⟨hsn, ho, hd⟩ := h
  rw [hi, Nat.add_sub_cancel, range'_succ, map_cons] at ho
  rw [hi, Nat.add_sub_cancel, drop_eq_getElem_cons (by omega), ho] at hd
  have hs := hsn.delete (i % k : Nat)
  have hv := hsn.mem_order.mp (ho ▸ mem_cons_self)
  have hor : a.order.filter (· != i % k) = (range' (i + 1) m).map (· % k) := by
    rw [← hsn.nodup.erase_eq_filter, ho, erase_cons_head]
  have hl : records.length - m = i + 1 := by omega
  rw [Arena.delete, if_pos ⟨Int.natCast_nonneg _, hv⟩] at hs ⊢
  refine ⟨⟨hs, ?_, ?_⟩, rfl⟩ <;> rw [hl] <;> dsimp only <;> rw [Int.toNat_natCast, hor]
  exact (forall₂_cons.mp hd).2

theorem Slot.Settled.appendVals (h : slot.Settled fl w records) (hw : 0 < w.windowSize)
    (hn : records.length < 2147483648) (hok : (slot.appendVals fl w vals).2 = true) :
    ∃ vals', w.evalComputed vals = some vals'
      ∧ (slot.appendVals fl w vals).1.Settled fl w (records ++ [vals']) := by
  unfold Slot.appendVals at hok ⊢
  cases he : w.evalComputed vals with
  | none =>
    rw [he] at hok
    cases hok
  | some vals =>
  rw [he] at hok
  dsimp only at hok ⊢
  refine ⟨vals, rfl, ?_⟩
  obtain ⟨hlt, hfl, hh⟩ := h
  have hc := hlt.sound.counted
  have hsz := hlt.sound.shared.length_eq
  rw [hfl, append_nil, length_range, ← hc] at hsz
  rw [hlt.order, length_map, length_range'] at hc
  have hl : (records ++ [vals]).length = records.length + 1 := length_append
  rw [hc] at hok ⊢
  split at hok <;> rename_i hle
  · rw [if_pos hle]
    obtain ⟨i, hi⟩ : ∃ i, records.length = i + w.windowSize :=
      ⟨records.length - w.windowSize, by omega⟩
    obtain ⟨m, hm⟩ : ∃ m, w.windowSize = m + 1 := ⟨_, (Nat.sub_add_cancel hw).symm⟩
    rw [hi, Nat.add_sub_cancel] at hh
    have hhd : slot.ringHead.toInt.tmod w.windowSize = (i % w.windowSize : Nat) := by
      have hin : (BitVec.ofNat 32 i).toNat = i := Nat.mod_eq_of_lt (by omega)
      rw [hh, BitVec.toInt_eq_toNat_of_lt (by omega), hin, Int.ofNat_tmod]
    rw [hhd] at hok ⊢
    rw [show min records.length w.windowSize = m + 1 by omega] at hlt
    obtain ⟨hlt, hf⟩ := hlt.evict (i := i) (by omega)
    obtain ⟨hlt, hf⟩ :=
      hlt.append (by omega) hok (.inl (by rw [hf, hfl, hi, Nat.add_mod_right]; rfl))
    refine ⟨?_, hf, ?_⟩
    · rwa [hl, show min (records.length + 1) w.windowSize = m + 1 by omega]
    · dsimp only
      rw [hh, hl, show records.length + 1 - w.windowSize = i + 1 by omega, BitVec.ofNat_add]
      rfl
  · rw [if_neg hle]
    obtain ⟨hlt, hf⟩ := hlt.append (by omega) hok
      (.inr ⟨hfl, by rw [Nat.mod_eq_of_lt (by omega)]; omega⟩)
    refine ⟨?_, hf, ?_⟩
    · rwa [hl, show min (records.length + 1) w.windowSize
        = min records.length w.windowSize + 1 by omega]
    · rw [hl, show records.length + 1 - w.windowSize = records.length - w.windowSize by omega]
      exact hh

theorem appends_settled (hw : 0 < w.windowSize) :
    ∀ {todo records : List (List Value)} {slot : Slot},
    slot.Settled fl w records → records.length + todo.length < 2147483648 →
    slot.appends fl w todo = some slot' →
    ∃ done, todo.mapM w.evalComputed = some done ∧ slot'.Settled fl w (records ++ done)
  | [], records, slot, h, _, hr => by
    cases hr
    exact ⟨[], rfl, by rwa [append_nil]⟩
  | vals :: todo, records, slot, h, hn, hr => by
    rw [Slot.appends, foldlM_cons] at hr
    split at hr
    · rename_i hok
      rw [length_cons] at hn
      obtain ⟨v, hv, hs⟩ := h.appendVals hw (by omega) hok
      obtain ⟨done, hd, hs⟩ := appends_settled hw hs (by simp; omega) hr
      exact ⟨v :: done, by simp [hv, hd], by simpa using hs⟩
    · cases hr

/-- **A window holds the latest records**, each in a row of its own. -/
theorem window_latest (hw : 0 < w.windowSize) (hn : records.length < 2147483648)
    (hr : Slot.appends fl w { arena := initSlot schema } records = some slot) :
    ∃ done, records.mapM w.evalComputed = some done ∧ ∃ rows, rows.Perm slot.arena.liveRows
      ∧ Forall₂ (slot.arena.schema.Holds fl slot.arena.buf) rows
        (done.drop (done.length - w.windowSize)) := by
  have hs : Slot.Settled fl w { arena := initSlot schema } [] :=
    ⟨⟨initSlot_sound schema, rfl, .nil⟩, rfl, by simp⟩
  obtain ⟨done, hd, hl, -⟩ := appends_settled hw hs (by simpa using hn) hr
  have hm : [] ++ done = done := rfl
  refine ⟨done, hd, _, hl.sound.liveRows_perm.symm, ?_⟩
  have := hl.held
  rw [hm] at this
  rwa [show done.length - min done.length w.windowSize
    = done.length - w.windowSize by omega] at this

/-- Three records and a window of two. -/
theorem window_latest_three : ∃ slot, Slot.appends noFloats ⟨2, some⟩
      { arena := initSlot numbers } [[.uint8 5], [.uint8 6], [.uint8 7]] = some slot
    ∧ ∃ rows, rows.Perm slot.arena.liveRows
      ∧ Forall₂ (slot.arena.schema.Holds noFloats slot.arena.buf) rows
        [[.uint8 6], [.uint8 7]] := by
  have hr : Slot.appends noFloats ⟨2, some⟩ { arena := initSlot numbers }
    [[.uint8 5], [.uint8 6], [.uint8 7]] = some _ := rfl
  obtain ⟨done, hd, hl⟩ := window_latest (by decide) (by decide) hr
  cases hd
  exact ⟨_, hr, hl⟩

end Windows

end Rah.DataCache
