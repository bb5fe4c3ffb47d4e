import Rah.DataCache.Arena
import Rah.Lib.BitRank

/-!
# The rows of a collection

In every history the recorded order and the free list share out the rows. `TrimOldest`
deletes the live rows with the lowest numbers, but a row that is used again has a low
number and is young. A query under a sort index reads as many of its entries as there are
live rows; these are the live rows only until one is appended or deleted.
-/

namespace Rah.DataCache

open Rah.Lib List

structure Sound (a : Arena) : Prop where
  shared : (a.order ++ a.freeRows).Perm (range a.size)
  counted : a.liveCount = a.order.length
  fits : a.size ≤ a.schema.capacity
  indexed : a.indices.length = a.schema.capacity

section Steps

variable {a a' : Arena} {rows : List Nat} {fl : Floats}

theorem Sound.nodup (h : Sound a) : a.order.Nodup :=
  (nodup_append.mp (h.shared.nodup_iff.mpr nodup_range)).1

theorem Sound.mem_order (h : Sound a) : r ∈ a.order ↔ a.IsLive r := by
  have hm := (h.shared.mem_iff (a := r))
  have ha := (nodup_append.mp (h.shared.nodup_iff.mpr nodup_range)).2.2 r
  rw [mem_append, mem_range] at hm
  exact ⟨fun hr => ⟨hm.mp (.inl hr), fun hf => ha hr r hf rfl⟩,
    fun hr => (hm.mpr hr.1).resolve_right hr.2⟩

theorem mem_liveRows : r ∈ a.liveRows ↔ a.IsLive r := by
  simp only [Arena.liveRows, mem_filter, mem_range, decide_eq_true_eq]
  exact ⟨And.right, fun h => ⟨h.1, h⟩⟩

theorem Sound.liveRows_perm (h : Sound a) : a.liveRows.Perm a.order :=
  (perm_ext_iff_of_nodup (nodup_range.filter _) h.nodup).mpr fun _ =>
    mem_liveRows.trans h.mem_order.symm

theorem Sound.delete (h : Sound a) (i : Int) : Sound (a.delete i) := by
  unfold Arena.delete
  split
  · rename_i hl
    have hi := h.mem_order.mpr hl.2
    refine ⟨?_, ?_, h.fits, h.indexed⟩ <;> rw [← h.nodup.erase_eq_filter]
    · refine Perm.trans ?_ h.shared
      refine (perm_append_comm.trans ?_).trans perm_append_comm
      rw [append_assoc]
      exact (perm_cons_erase hi).symm.append_left _
    · rw [length_erase_of_mem hi, h.counted]
  · exact h

/-- The rows that are taken are neither live nor free. -/
theorem Sound.allocRows (h : Sound a) (ha : a.allocRows n = (b, o)) : ∃ free size,
    b = { a with
      freeRows := free
      size := size
      liveCount := a.liveCount + (o.getD []).length }
      ∧ (a.order ++ o.getD [] ++ free).Perm (range size) ∧ size ≤ a.schema.capacity
      ∧ ∀ rows ∈ o, rows.length = n := by
  have hsp := take_append_drop (a.freeRows.length - n) a.freeRows
  have hl := length_drop (i := a.freeRows.length - n) (l := a.freeRows)
  have hs := h.shared
  have hf := h.fits
  rw [← hsp] at hs
  rw [Arena.allocRows] at ha
  generalize a.freeRows.take (a.freeRows.length - n) = left at *
  generalize a.freeRows.drop (a.freeRows.length - n) = taken at *
  rw [length_reverse] at ha
  split at ha <;> cases ha
  · -- full: what was taken is free again
    refine ⟨_, _, rfl, ?_, hf, fun _ h => by cases h⟩
    simpa using ((taken.reverse_perm.append_left _).append_left _).trans hs
  · have hn : (taken.reverse ++ range' a.size (n - taken.length)).length = n := by
      rw [length_append, length_reverse, length_range']
      omega
    refine ⟨_, _, by rw [Option.getD_some, hn], perm_iff_count.mpr fun r => ?_, by omega,
      fun rows hr => by cases hr; exact hn⟩
    have hr : range (a.size + (n - taken.length))
        = range a.size ++ range' a.size (n - taken.length) := by
      rw [range_eq_range', range_eq_range', ← range'_append_1, Nat.zero_add]
    have := perm_iff_count.mp hs r
    rw [hr, Option.getD_some]
    simp only [count_append, count_reverse] at this ⊢
    omega

theorem Sound.append (h : Sound a) (allVals : List (List Value)) : Sound (a.append fl allVals) := by
  unfold Arena.append
  split <;> rename_i b _ ha <;> obtain ⟨free, size, rfl, hp, hf, -⟩ := h.allocRows ha
  · exact ⟨by simpa using hp, h.counted, hf, h.indexed⟩
  split
  · exact ⟨hp, by rw [length_append, ← h.counted]; rfl, hf, h.indexed⟩
  · refine ⟨?_, by simpa using h.counted, hf, h.indexed⟩
    rw [append_assoc] at hp
    exact (perm_append_comm.append_left _).trans hp

theorem Sound.appendBatch (h : Sound a) (allVals : List (List Value)) :
    Sound (a.appendBatch fl allVals) := by
  unfold Arena.appendBatch
  split
  · exact h
  · exact h.append allVals

theorem Sound.trimFrom : ∀ (rows : List Nat) (n : Nat) {a : Arena}, Sound a →
    Sound (a.trimFrom rows n)
  | [], _, _, h => h
  | _ :: _, 0, _, h => h
  | i :: rows, n + 1, a, h => by
    rw [Arena.trimFrom]
    split
    · exact Sound.trimFrom rows n (h.delete i)
    · exact Sound.trimFrom rows (n + 1) h

theorem Sound.grow (h : Sound a) (newCap : Nat) (behind : List Nat) :
    Sound (a.grow newCap behind) := by
  have hf := h.fits
  unfold Arena.grow
  split
  · exact h
  refine ⟨h.shared, h.counted, ?_, ?_⟩
  · dsimp only
    omega
  · simp only [length_take, length_append, length_replicate]
    omega

/-- A sort index begins with the rows as they were sorted. -/
theorem Sound.sort (h : Sound a) (col : Nat) (desc : Bool) (hp : rows.Perm a.liveRows) :
    Sound (a.sortCollection col desc rows)
      ∧ (a.sortCollection col desc rows).queryRows
        = some (if desc then rows.reverse else rows) := by
  have hl : rows.length = a.liveCount := by
    rw [h.counted, (hp.trans h.liveRows_perm).length_eq]
  have hle : rows.length ≤ a.indices.length := by
    rw [h.indexed, hp.length_eq]
    exact ((length_filter_le _ _).trans (length_range ▸ Nat.le_refl _)).trans h.fits
  have ha : (rows ++ a.indices.drop rows.length).length = a.indices.length := by
    rw [length_append, length_drop]
    omega
  have hi : (a.sortCollection col desc rows).indices
      = (if desc then rows.reverse else rows) ++ a.indices.drop rows.length := by
    rw [Arena.sortCollection, ← hl]
    cases desc
    · rfl
    · rw [if_pos ⟨rfl, ha ▸ hle⟩, take_left, drop_left]
      rfl
  have hs : (if desc then rows.reverse else rows).length = rows.length := by
    cases desc
    · rfl
    · exact length_reverse
  refine ⟨⟨h.shared, h.counted, h.fits, ?_⟩, ?_⟩
  · rw [hi, length_append, hs, ← length_append, ha]
    exact h.indexed
  · rw [Arena.queryRows, hi, length_append, hs, ← length_append, ha,
      if_pos (show (a.sortCollection col desc rows).liveCount ≤ _ from hl ▸ hle)]
    exact congrArg some (take_left' (hs.trans hl))

theorem Sound.step (h : Sound a) (hst : a.step fl op = some a') : Sound a' := by
  have hm : ∀ {a : Arena}, Sound a → Sound { a with lastSort := none } :=
    fun h => { h with }
  cases op with
  | append vals =>
    cases hst
    exact hm (h.append [vals])
  | appendBatch allVals =>
    cases hst
    exact hm (h.appendBatch allVals)
  | delete i =>
    cases hst
    exact hm (h.delete i)
  | trimOldest n =>
    cases hst
    exact hm (.trimFrom _ n h)
  | grow newCap behind =>
    cases hst
    exact hm (h.grow newCap behind)
  | sort fieldName desc sorted =>
    rw [Arena.step] at hst
    split at hst
    · cases hst
      exact h
    split at hst
    · rename_i hs
      cases hst
      exact (h.sort _ desc hs.1).1
    · cases hst

theorem initSlot_sound (schema : Schema) : Sound (initSlot schema) :=
  ⟨.refl _, rfl, Nat.zero_le _, length_range⟩

theorem History.sound (h : History fl schema ops a) : Sound a :=
  GoodRun.invariant (fun h _ hs => h.step hs) h (initSlot_sound schema)

/-! ## Trimming -/

/-- The loop deletes the first live rows it meets. -/
theorem trimFrom_order : ∀ (rows : List Nat) (n : Nat) (a : Arena), rows.Nodup →
    (a.trimFrom rows n).order = a.order.filter (· ∉ (rows.filter (a.IsLive ·)).take n)
  | [], _, a, _ => by simp [Arena.trimFrom]
  | i :: rows, 0, a, _ => by simp [Arena.trimFrom]
  | i :: rows, n + 1, a, hn => by
    obtain ⟨hi, hn⟩ := nodup_cons.mp hn
    rw [Arena.trimFrom]
    split
    · rename_i hl
      have hd : a.delete i = _ := if_pos ⟨Int.natCast_nonneg i, hl⟩
      have ho : rows.filter ((a.delete i).IsLive ·) = rows.filter (a.IsLive ·) := by
        refine filter_congr fun j hj => ?_
        have hne : j ≠ i := fun he => hi (he ▸ hj)
        refine decide_eq_decide.mpr ?_
        simp [hd, Arena.IsLive, hne]
      rw [trimFrom_order rows n _ hn, ho, filter_cons_of_pos (by simpa using hl), hd, filter_filter]
      refine filter_congr fun j _ => ?_
      rw [Bool.eq_iff_iff]
      simp [and_comm]
    · rename_i hl
      rw [trimFrom_order rows (n + 1) a hn, filter_cons_of_neg (by simpa using hl)]

/-- Among ascending rows, the first are those with few below them. -/
theorem mem_take_iff_few {xs : List Nat} (hs : xs.Pairwise (· < ·)) (hr : r ∈ xs) :
    r ∈ xs.take n ↔ (xs.filter (fun k => decide (k < r))).length < n := by
  obtain ⟨i, hi⟩ := mem_iff_getElem?.mp hr
  rw [filter_lt_length_of_sorted hs hi, mem_take_iff_getElem]
  have hlt := (List.getElem?_eq_some_iff.mp hi).1
  constructor
  · rintro ⟨j, hj, he⟩
    have := (getElem?_inj hlt (hs.imp Nat.ne_of_lt)).mp
      (hi.trans (List.getElem?_eq_some_iff.mpr ⟨_, he⟩).symm)
    omega
  · exact fun hlt' => ⟨i, by omega, (List.getElem?_eq_some_iff.mp hi).2⟩

/-- **`TrimOldest` deletes the rows appended first exactly if they are the ones with the lowest
numbers.** -/
theorem trimOldest_exact_iff (h : History fl schema ops a) (n : Nat) :
    (∀ r, r ∈ a.order ↔ a.IsLive r) ∧ ((a.trimOldest n).order = a.order.drop n
      ↔ ∀ i ∈ a.order.take n, ∀ j ∈ a.order.drop n, i < j) := by
  have hsn := h.sound
  have hp := hsn.liveRows_perm
  have hsr : a.liveRows.Pairwise (· < ·) := pairwise_lt_range.filter _
  have hn := hsn.nodup
  rw [← take_append_drop n a.order] at hn
  have ha := (nodup_append.mp hn).2.2
  refine ⟨fun r => hsn.mem_order, ?_⟩
  rw [Arena.trimOldest, trimFrom_order _ _ _ nodup_range]
  show a.order.filter (· ∉ a.liveRows.take n) = _ ↔ _
  have hfw : ∀ r ∈ a.order, r ∈ a.liveRows.take n
      ↔ (a.order.filter (fun k => decide (k < r))).length < n := by
    intro r hr
    rw [mem_take_iff_few hsr (hp.mem_iff.mpr hr), (hp.filter _).length_eq]
  refine ⟨fun hd i hi j hj => ?_, fun hb => ?_⟩
  · have hf : i ∈ a.liveRows.take n := by
      by_contra hnt
      have hin : i ∈ a.order.filter (· ∉ a.liveRows.take n) :=
        mem_filter.mpr ⟨mem_of_mem_take hi, decide_eq_true hnt⟩
      rw [hd] at hin
      exact ha i hi i hin rfl
    have hj' := hj
    rw [← hd, mem_filter, decide_eq_true_eq, ← hp.mem_iff] at hj'
    have hrs : j ∈ a.liveRows.drop n := by
      have hm := hj'.1
      rw [← take_append_drop n a.liveRows] at hm
      exact (mem_append.mp hm).resolve_left hj'.2
    rw [← take_append_drop n a.liveRows] at hsr
    exact (pairwise_append.mp hsr).2.2 i hf j hrs
  · have hs := take_append_drop n a.order
    have hin : ∀ r ∈ a.order.take n, r ∈ a.liveRows.take n := by
      intro r hr
      have hnn : (a.order.drop n).filter (fun k => decide (k < r)) = [] :=
        filter_eq_nil_iff.mpr fun j hj => by simpa using Nat.le_of_lt (hb r hr j hj)
      rw [hfw r (mem_of_mem_take hr), ← hs, filter_append, hnn, append_nil]
      have hl := (length_filter_lt_length_iff_exists (p := fun k => decide (k < r))).mpr
        ⟨r, hr, by simp⟩
      have := length_take_le n a.order
      omega
    have ho : ∀ r ∈ a.order.drop n, r ∉ a.liveRows.take n := by
      intro r hr
      have hal : (a.order.take n).filter (fun k => decide (k < r)) = a.order.take n :=
        filter_eq_self.mpr fun i hi => by simpa using hb i hi r hr
      rw [hfw r (mem_of_mem_drop hr), ← hs, filter_append, hal, length_append, length_take]
      have := length_pos_of_mem hr
      rw [length_drop] at this
      omega
    rw [← hs, filter_append, filter_eq_nil_iff.mpr (fun r hr => by simpa using hin r hr),
      filter_eq_self.mpr (fun r hr => by simpa using ho r hr), nil_append, hs]

/-! ## Queries -/

theorem orders_of_compare {α : Type} [Ord α] [Std.TransOrd α] (key : Nat → α) (rows : List Nat) :
    Orders (fun i j => compare (key i) (key j) = .lt) rows := by
  refine ⟨fun i _ j _ hij hji => ?_, fun i _ j _ k _ hij hjk hik => ?_⟩
  · exact Std.OrientedCmp.not_lt_of_lt (of_decide_eq_true hij) (of_decide_eq_true hji)
  · simp only [decide_eq_true_eq, ← Ordering.isGE_iff_ne_lt] at hij hjk
    exact Ordering.isGE_iff_ne_lt.mp (Std.TransCmp.isGE_trans hjk hij) (of_decide_eq_true hik)

/-- Only floats may compare in no order. -/
theorem less_orders (h : ∀ f, a.schema.fields[col]? = some f → f.kind = .float64 →
    Orders (a.less fl col) rows) : Orders (a.less fl col) rows := by
  cases hf : a.schema.fields[col]? with
  | none =>
    have hl : a.less fl col = fun _ _ => false := by
      funext i j
      rw [Arena.less, hf]
    rw [hl]
    exact ⟨by simp, by simp⟩
  | some f =>
  have hl : a.less fl col = fun i j =>
      lessCell fl f.kind (a.schema.cell a.buf col i) (a.schema.cell a.buf col j) := by
    funext i j
    rw [Arena.less, hf]
  cases hk : f.kind with
  | float64 => exact h f hf hk
  | int64 =>
    rw [hl, hk]
    exact orders_of_compare (fun i => (leWord (a.schema.cell a.buf col i)).toInt) rows
  | stringN | enum =>
    rw [hl, hk]
    exact orders_of_compare (a.schema.cell a.buf col) rows

/-- What a sort leaves until a row is touched. -/
def SortKept (fl : Floats) (a : Arena) : Prop :=
  ∀ col desc, a.lastSort = some (col, desc) → ∃ rows, Sorts (a.less fl col) a.liveRows rows
    ∧ a.queryRows = some (if desc then rows.reverse else rows)

theorem SortKept.step (h : SortKept fl a) (hsn : Sound a) (hst : a.step fl op = some a') :
    SortKept fl a' := by
  cases op with
  | sort fieldName desc sorted =>
    rw [Arena.step] at hst
    split at hst
    · cases hst
      exact h
    split at hst
    · rename_i hs
      cases hst
      intro col' desc' hl
      cases hl
      exact ⟨sorted, hs, (hsn.sort _ desc hs.1).2⟩
    · cases hst
  | _ =>
    cases hst
    nofun

theorem History.kept (h : History fl schema ops a) : SortKept fl a := by
  refine (GoodRun.invariant (I := fun a => Sound a ∧ SortKept fl a)
    (fun h _ hs => ⟨h.1.step hs, h.2.step h.1 hs⟩) h ⟨initSlot_sound schema, fun _ _ hc => ?_⟩).2
  cases hc

theorem serializeArenaJSON_eq (h : ∀ r ∈ rows, Representable (a.record r)) :
    a.serializeArenaJSON object rows = jsonArray (rows.map (fun r => object (a.record r))) := by
  rw [Arena.serializeArenaJSON, map_congr_left (fun r hr => if_pos (h r hr))]

end Steps

/-! ## Rows used again -/

/-- One column of small numbers. -/
def numbers : Schema := { fields := [⟨"n", .enum, 1⟩], capacity := 2 }

def noFloats : Floats := { toInt64 := id, toUint8 := fun _ => 0, lt := fun _ _ => false }

/-- Two records, of which the older one is trimmed. -/
theorem trimOldest_first_row :
    ∃ a, History noFloats numbers [.append [.uint8 5], .append [.uint8 6]] a
      ∧ a.order = [0, 1] ∧ (a.trimOldest 1).order = a.order.drop 1 := by
  have hr : History noFloats numbers [.append [.uint8 5], .append [.uint8 6]] _ :=
    GoodRun.of_foldlM rfl
  exact ⟨_, hr, rfl, (trimOldest_exact_iff hr 1).2.mpr (by decide)⟩

/-- Two records are appended, the older one is trimmed and another one appended in its row. The
next trim takes the new one. -/
theorem trimOldest_takes_youngest : ∃ a, History noFloats numbers
      [.append [.uint8 5], .append [.uint8 6], .trimOldest 1, .append [.uint8 7]] a
    ∧ a.order = [1, 0] ∧ (a.trimOldest 1).order = [1] :=
  ⟨_, GoodRun.of_foldlM rfl, rfl, rfl⟩

/-- The text of a record of `numbers` with a digit, as `{"n":5}`. -/
def digitObject (record : List (FieldDef × Bytes)) : Bytes :=
  [123, 34, 110, 34, 58] ++ record.flatMap (fun f => f.2.map (· + 48)) ++ [125]

end Rah.DataCache
