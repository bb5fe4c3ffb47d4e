import Mathlib.Data.List.Basic

/-!
# Splitting a text into chunks

`splitIntoChunks` of `llm_chunk.go`. The windows start a fixed step apart. A window that does not
reach the end of the text is cut back to its last white space, but the next one starts where it
would have started anyway, so that what lies between can be in no chunk.
-/

namespace Rah.Steps.Chunks

/-- `unicode.IsSpace`. -/
def isSpace (r : Char) : Bool :=
  [9, 10, 11, 12, 13, 32, 133, 160, 5760, 8232, 8233, 8239, 8287, 12288].contains r.toNat
    || (8192 ≤ r.toNat && r.toNat ≤ 8202)

/-- White space at a position of the text. -/
def spaceAt (runes : List Char) (i : Nat) : Bool := (runes[i]?.map isSpace).getD false

/-- The scan from `i` down to the position after `start`. -/
def lastSpace (runes : List Char) (start : Nat) : Nat → Option Nat
  | 0 => none
  | i + 1 =>
    if start < i + 1 then
      if spaceAt runes (i + 1) then some (i + 1) else lastSpace runes start i
    else none

/-- Where the window from `start` is cut. -/
def trimEnd (runes : List Char) (chunkSize start : Nat) : Nat :=
  let stop := if start + chunkSize > runes.length then runes.length else start + chunkSize
  if stop < runes.length then (lastSpace runes start (stop - 1)).getD stop else stop

/-- The loop: the windows from `start` on, each with where it is cut. -/
def windows (runes : List Char) (chunkSize : Nat) {step : Nat} (hstep : 0 < step) (start : Nat) :
    List (Nat × Nat) :=
  if start < runes.length then
    (start, trimEnd runes chunkSize start) :: windows runes chunkSize hstep (start + step)
  else []
termination_by runes.length - start

/-- How far apart the windows start. -/
def stepOf (chunkSize overlap : Nat) : Nat :=
  if chunkSize ≤ overlap then 1 else chunkSize - overlap

theorem stepOf_pos (chunkSize overlap : Nat) : 0 < stepOf chunkSize overlap := by
  unfold stepOf
  split <;> omega

/-- `runes[start:stop]`. -/
def slice (runes : List Char) (w : Nat × Nat) : List Char := (runes.drop w.1).take (w.2 - w.1)

/-- `splitIntoChunks`. -/
def splitIntoChunks (runes : List Char) (chunkSize overlap : Nat) : List (List Char) :=
  if runes.length ≤ chunkSize then [runes]
  else
    let starts := windows runes chunkSize (stepOf_pos chunkSize overlap) 0
    let chunks := (starts.map (slice runes)).filter (· ≠ [])
    if chunks = [] then [runes] else chunks

/-- Where the returned chunks stand in the text. -/
def spans (runes : List Char) (chunkSize overlap : Nat) : List (Nat × Nat) :=
  if runes.length ≤ chunkSize then [(0, runes.length)]
  else windows runes chunkSize (stepOf_pos chunkSize overlap) 0

/-- No text is lost: the chunks are in order and not too long, and a position is in one of them
unless nothing but white space lies between it and the end of a chunk. -/
def Lossless (runes : List Char) (chunkSize : Nat) (chunks : List (Nat × Nat)) : Prop :=
  chunks.Pairwise (fun w v => w.1 < v.1) ∧ (∀ w ∈ chunks, w.2 - w.1 ≤ chunkSize)
    ∧ ∀ p < runes.length, (∃ w ∈ chunks, w.1 ≤ p ∧ p < w.2)
      ∨ ∃ w ∈ chunks, w.2 ≤ p ∧ ∀ q, w.2 ≤ q → q ≤ p → spaceAt runes q = true

/-- The window at `s`, if it has white space to be cut at, has some at or after the last position
before the next window. -/
def Keeps (runes : List Char) (chunkSize step s : Nat) : Prop :=
  (∃ i, s < i ∧ i < s + chunkSize ∧ spaceAt runes i = true) →
    ∃ i, s < i ∧ i < s + chunkSize ∧ spaceAt runes i = true ∧ s + step ≤ i + 1

section Windows

variable {runes : List Char} {size step start s t i j : Nat} {hstep : 0 < step}

/-- The scan finds the last white space between the two positions. -/
theorem lastSpace_some (h : lastSpace runes start i = some j) :
    start < j ∧ j ≤ i ∧ spaceAt runes j = true ∧ ∀ k, j < k → k ≤ i → spaceAt runes k = false := by
  induction i with
  | zero => cases h
  | succ i ih =>
    rw [lastSpace] at h
    split_ifs at h with hs hsp
    · cases h
      exact ⟨hs, Nat.le_refl _, hsp, fun k hk hk' => absurd hk' (by omega)⟩
    · obtain ⟨h₁, h₂, h₃, h₄⟩ := ih h
      refine ⟨h₁, by omega, h₃, fun k hk hk' => ?_⟩
      rcases Nat.lt_or_ge i k with hik | hik
      · rw [show k = i + 1 by omega]
        simpa using hsp
      · exact h₄ k hk hik

theorem lastSpace_none (h : lastSpace runes start i = none) :
    ∀ k, start < k → k ≤ i → spaceAt runes k = false := by
  induction i with
  | zero => intro k hk hk'; omega
  | succ i ih =>
    intro k hk hk'
    rw [lastSpace, if_pos (by omega)] at h
    split_ifs at h with hsp
    rcases Nat.lt_or_ge i k with hik | hik
    · rw [show k = i + 1 by omega]
      simpa using hsp
    · exact ih h k hk hik

/-- A window before the last is cut at its last white space, or is full and has none. -/
theorem trimEnd_inner (hs : s + size < runes.length) :
    (s < trimEnd runes size s ∧ trimEnd runes size s < s + size
        ∧ spaceAt runes (trimEnd runes size s) = true
        ∧ ∀ k, trimEnd runes size s < k → k < s + size → spaceAt runes k = false)
      ∨ trimEnd runes size s = s + size
        ∧ ∀ k, s < k → k < s + size → spaceAt runes k = false := by
  have ht : trimEnd runes size s
      = (lastSpace runes s (s + size - 1)).getD (s + size) := by
    simp only [trimEnd, gt_iff_lt, if_neg (Nat.not_lt.2 (Nat.le_of_lt hs)), if_pos hs]
  cases h : lastSpace runes s (s + size - 1) with
  | some j =>
    rw [h, Option.getD_some] at ht
    obtain ⟨h₁, h₂, h₃, h₄⟩ := lastSpace_some h
    rw [ht]
    exact .inl ⟨h₁, by omega, h₃, fun k hk hk' => h₄ k hk (by omega)⟩
  | none =>
    rw [h, Option.getD_none] at ht
    exact .inr ⟨ht, fun k hk hk' => lastSpace_none h k hk (by omega)⟩

theorem trimEnd_last (hs : runes.length ≤ s + size) :
    trimEnd runes size s = runes.length := by
  simp only [trimEnd]
  split_ifs <;> omega

theorem trimEnd_bounds (hsize : 1 ≤ size) (hs : s < runes.length) :
    s < trimEnd runes size s ∧ trimEnd runes size s ≤ s + size := by
  rcases Nat.lt_or_ge (s + size) runes.length with h | h
  · rcases trimEnd_inner h with h | h <;> omega
  · rw [trimEnd_last h]
    exact ⟨hs, h⟩

/-- The windows stand a step apart. -/
theorem mem_windows {w : Nat × Nat} : w ∈ windows runes size hstep start ↔
    w.2 = trimEnd runes size w.1 ∧ w.1 < runes.length ∧ ∃ k, w.1 = start + k * step := by
  fun_induction windows runes size hstep start with
  | case1 start hlt ih =>
    rw [List.mem_cons, ih]
    constructor
    · rintro (rfl | ⟨ht, hw, k, hk⟩)
      · exact ⟨rfl, hlt, 0, by simp⟩
      · exact ⟨ht, hw, k + 1, by rw [hk, Nat.add_one_mul]; omega⟩
    · rintro ⟨ht, hw, _ | k, hk⟩
      · rw [Nat.zero_mul, Nat.add_zero] at hk
        exact .inl (Prod.ext hk (hk ▸ ht))
      · exact .inr ⟨ht, hw, k, by rw [hk, Nat.add_one_mul]; omega⟩
  | case2 start hge =>
    simp only [List.not_mem_nil, false_iff]
    rintro ⟨_, hw, k, hk⟩
    omega

theorem windows_ordered :
    (windows runes size hstep start).Pairwise (fun w v => w.1 < v.1) := by
  fun_induction windows runes size hstep start with
  | case1 start hlt ih =>
    refine List.pairwise_cons.2 ⟨fun v hv => ?_, ih⟩
    obtain ⟨_, _, k, hk⟩ := mem_windows.1 hv
    rw [hk]
    omega
  | case2 => exact .nil

/-- An earlier window is not cut later. -/
theorem trimEnd_mono (hst : s ≤ t) (ht : t + size < runes.length) :
    trimEnd runes size s ≤ trimEnd runes size t := by
  by_contra hlt
  rcases trimEnd_inner ht with ⟨h₁, _, h₃, h₄⟩ | h <;>
    rcases trimEnd_inner (show s + size < runes.length by omega) with ⟨_, g₂, g₃, _⟩ | ⟨g₁, g₂⟩
  · simp [h₄ (trimEnd runes size s) (by omega) (by omega)] at g₃
  · simp [g₂ (trimEnd runes size t) (by omega) (by omega)] at h₃
  · omega
  · omega

theorem keeps_iff (hs : s + size < runes.length) (hle : step ≤ size) :
    Keeps runes size step s ↔ s + step ≤ trimEnd runes size s + 1 := by
  rcases trimEnd_inner hs with ⟨h₁, h₂, h₃, h₄⟩ | ⟨h, hno⟩
  · refine ⟨fun hk => ?_, fun hk _ => ⟨_, h₁, h₂, h₃, hk⟩⟩
    obtain ⟨i, _, hi, hsp, hlast⟩ := hk ⟨_, h₁, h₂, h₃⟩
    by_contra hlt
    simp [h₄ i (by omega) hi] at hsp
  · refine iff_of_true (fun ⟨i, hi, hi', hsp⟩ => ?_) (by omega)
    simp [hno i hi hi'] at hsp

/-- A window that does not keep what lies before the next one loses the position after its cut. -/
theorem keeps_of_lossless (hle : step ≤ size) {k : Nat}
    (h : Lossless runes size (windows runes size hstep 0))
    (hk : k * step + size < runes.length) : Keeps runes size step (k * step) := by
  rw [keeps_iff hk hle]
  by_contra hgap
  rcases trimEnd_inner hk with ⟨h₁, h₂, h₃, h₄⟩ | h'
  · rcases h.2.2 (trimEnd runes size (k * step) + 1) (by omega) with
      ⟨w, hw, hin⟩ | ⟨w, _, hw, hsp⟩
    · obtain ⟨ht, _, j, hj⟩ := mem_windows.1 hw
      rw [ht, hj, Nat.zero_add] at hin
      have hjk : j ≤ k := by
        by_contra hlt
        have := Nat.mul_le_mul_right step (show k + 1 ≤ j by omega)
        rw [Nat.add_one_mul] at this
        omega
      have := trimEnd_mono (Nat.mul_le_mul_right step hjk) hk
      omega
    · have := hsp _ hw (Nat.le_refl _)
      simp [h₄ (trimEnd runes size (k * step) + 1) (by omega) (by omega)] at this
  · omega

theorem lossless_of_keeps (hle : step ≤ size)
    (h : ∀ k, k * step + size < runes.length → Keeps runes size step (k * step)) :
    Lossless runes size (windows runes size hstep 0) := by
  refine ⟨windows_ordered, fun w hw => ?_, fun p hp => ?_⟩
  · obtain ⟨ht, hw, _⟩ := mem_windows.1 hw
    have := (trimEnd_bounds (Nat.le_trans hstep hle) hw).2
    omega
  -- the last window that starts at or before the position
  · obtain ⟨s, k, rfl, hk, hk'⟩ : ∃ s k, s = k * step ∧ s ≤ p ∧ p < s + step :=
      ⟨_, p / step, rfl, Nat.div_mul_le_self _ _, Nat.lt_div_mul_add hstep⟩
    have hw : (k * step, trimEnd runes size (k * step)) ∈ windows runes size hstep 0 :=
      mem_windows.2 ⟨rfl, by omega, k, by simp⟩
    rcases Nat.lt_or_ge p (trimEnd runes size (k * step)) with hlt | hge
    · exact .inl ⟨_, hw, hk, hlt⟩
    · have hin : k * step + size < runes.length := by
        by_contra hout
        rw [trimEnd_last (by omega)] at hge
        omega
      have hkeep := (keeps_iff hin hle).1 (h k hin)
      rcases trimEnd_inner hin with ⟨_, _, hsp, _⟩ | hfull
      · refine .inr ⟨_, hw, hge, fun q hq hq' => ?_⟩
        rw [show q = trimEnd runes size (k * step) by omega]
        exact hsp
      · omega

end Windows

section Chunks

variable {runes : List Char} {size overlap : Nat}

/-- The chunks returned are the slices of the spans. -/
theorem splitIntoChunks_eq (hsize : 1 ≤ size) :
    splitIntoChunks runes size overlap
      = (spans runes size overlap).map (slice runes) := by
  unfold splitIntoChunks spans
  split
  · simp [slice]
  · generalize hws : windows runes size (stepOf_pos size overlap) 0 = ws
    have hfull : (ws.map (slice runes)).filter (· ≠ []) = ws.map (slice runes) := by
      refine List.filter_eq_self.2 fun c hc => decide_eq_true ?_
      obtain ⟨w, hw, rfl⟩ := List.mem_map.1 hc
      obtain ⟨ht, hlt, _⟩ := mem_windows.1 (hws ▸ hw)
      have := (trimEnd_bounds hsize hlt).1
      simp only [slice, ne_eq, ← List.length_eq_zero_iff, List.length_take, List.length_drop]
      omega
    have hsome : ws ≠ [] := by
      rw [← hws, windows, if_pos (by omega)]
      simp
    simp only [hfull, List.map_eq_nil_iff, if_neg hsome]

/-- **When chunking loses no text.** The chunks are the slices of `spans`. They lose nothing exactly
when every window before the last keeps what lies before the next one. -/
theorem lossless_iff (hsize : 1 ≤ size) :
    splitIntoChunks runes size overlap = (spans runes size overlap).map (slice runes)
      ∧ (Lossless runes size (spans runes size overlap) ↔
        ∀ k, k * stepOf size overlap + size < runes.length →
          Keeps runes size (stepOf size overlap) (k * stepOf size overlap)) := by
  have hle : stepOf size overlap ≤ size := by
    unfold stepOf
    split <;> omega
  refine ⟨splitIntoChunks_eq hsize, ?_⟩
  unfold spans
  split
  · next hshort =>
    refine iff_of_true ⟨by simp, by simpa using hshort, fun p hp => ?_⟩ (fun k hk => by omega)
    exact .inl ⟨(0, runes.length), by simp, by simpa using hp⟩
  · exact ⟨fun h k hk => keeps_of_lossless hle h hk, lossless_of_keeps hle⟩

/-- Three letters in windows of two have no white space to be cut at. -/
theorem lossless_abc : Lossless ['a', 'b', 'c'] 2 (spans ['a', 'b', 'c'] 2 0) := by
  refine (lossless_iff (by decide)).2.2 fun k hk hsp => ?_
  obtain ⟨i, h₁, h₂, h⟩ := hsp
  rw [show stepOf 2 0 = 2 from rfl, List.length_cons, List.length_cons, List.length_cons] at *
  simp only [List.length_nil] at hk
  obtain rfl : i = 1 := by omega
  cases h

/-- The second window of "ab cdef" starts behind the c that the first one was cut before. -/
theorem chunk_loses_letter :
    splitIntoChunks ['a', 'b', ' ', 'c', 'd', 'e', 'f'] 4 0 = [['a', 'b'], ['d', 'e', 'f']]
      ∧ ¬ Lossless ['a', 'b', ' ', 'c', 'd', 'e', 'f'] 4
        (spans ['a', 'b', ' ', 'c', 'd', 'e', 'f'] 4 0) := by
  refine ⟨?_, fun h => ?_⟩
  · simp [splitIntoChunks, windows, trimEnd, lastSpace, spaceAt, isSpace, stepOf, slice]
  · obtain ⟨i, _, hi, h, hlast⟩ :=
      keeps_of_lossless (k := 0) (by decide) h (by decide) ⟨2, by decide⟩
    change i < 4 at hi
    change 4 ≤ i + 1 at hlast
    obtain rfl : i = 3 := by omega
    cases h

end Chunks

end Rah.Steps.Chunks
