import Mathlib.Data.List.Count
import Mathlib.Data.List.Induction
import Mathlib.Logic.Function.Basic

/-!
# The latency estimate

`latencyHist` counts the latencies of a generation in 29 buckets; `p99Ms` adds the buckets up
until 99 of 100 samples are covered, and gives the upper bound of the last one. The counters wrap
at 64 bits, so the estimate is right for fewer than 2⁶³ samples.
-/

namespace Rah.Limit.Latency

open List

/-- Ten buckets of 1 ms, nine of 10 ms, nine of 100 ms and one for 1000 ms and more. -/
def nBuckets : Nat := 29

/-- A number as the `int64` it is stored in. -/
def int64 (n : Int) : Int := n.bmod 18446744073709551616

/-- The bucket that counts a latency of `ms` milliseconds. -/
def bucketFor (ms : Int) : Nat :=
  if ms < 0 then 0
  else if ms < 10 then ms.toNat
  else if ms < 100 then 10 + ((ms - 10) / 10).toNat
  else if ms < 1000 then 19 + ((ms - 100) / 100).toNat
  else 28

/-- The upper bound in milliseconds of bucket `i`, and 9999 for the last one, which has none. -/
def bucketUpperMs (i : Nat) : Int :=
  if i < 10 then i + 1
  else if i < 19 then 10 + (i - 10 + 1) * 10
  else if i < 28 then 100 + (i - 19 + 1) * 100
  else 9999

/-- One generation of the histogram: a counter for each bucket and one for all samples. -/
structure LatencyHist where
  buckets : Nat → Int
  count : Int

/-- A sample adds one to the count and to its bucket. -/
def LatencyHist.record (h : LatencyHist) (ms : Int) : LatencyHist :=
  ⟨Function.update h.buckets (bucketFor ms) (int64 (h.buckets (bucketFor ms) + 1)),
    int64 (h.count + 1)⟩

/-- The loop over the last `n` buckets, from `i` on: it stops at the first one with which the
samples added up reach the threshold. -/
def LatencyHist.cover (h : LatencyHist) (threshold : Int) : Nat → Nat → Int → Int
  | 0, _, _ => 9999
  | n + 1, i, cumulative =>
    if int64 (cumulative + h.buckets i) ≥ threshold then bucketUpperMs i
    else h.cover threshold n (i + 1) (int64 (cumulative + h.buckets i))

def LatencyHist.p99Ms (h : LatencyHist) : Int :=
  if h.count = 0 then 0 else h.cover (h.count - h.count.tdiv 100) nBuckets 0 0

/-- The generation after the samples, which starts with all counters at zero. -/
def recorded (samples : List Int) : LatencyHist :=
  samples.foldl LatencyHist.record ⟨fun _ => 0, 0⟩

/-- The lower bound of a bucket: the upper bound of the one before. -/
def bucketLowerMs : Nat → Int
  | 0 => 0
  | i + 1 => bucketUpperMs i

theorem int64_of_lt {n : Int} (h0 : 0 ≤ n) (h : n < 9223372036854775808) : int64 n = n :=
  Int.bmod_eq_of_le (by omega) (by omega)

/-- Below bucket `i` are exactly the latencies below its lower bound. -/
theorem bucketFor_lt_iff (h0 : 0 ≤ ms) (h1 : ms ≤ 999) (hi : i ≤ 28) :
    bucketFor ms < i ↔ ms < bucketLowerMs i := by
  cases i with
  | zero => simp [bucketLowerMs, h0]
  | succ i =>
    dsimp only [bucketLowerMs]
    unfold bucketFor bucketUpperMs
    split <;> [skip; split] <;> grind

/-- The samples in the buckets below `i`. -/
def below (samples : List Int) (i : Nat) : Nat := samples.countP (bucketFor · < i)

theorem below_le_length (samples : List Int) (i : Nat) : below samples i ≤ samples.length :=
  countP_le_length

theorem below_le_succ (samples : List Int) (i : Nat) : below samples i ≤ below samples (i + 1) :=
  countP_mono_left fun _ _ h => by simpa using Nat.lt_succ_of_lt (of_decide_eq_true h)

/-- As long as no counter overflows, the count is the number of samples and bucket `i` holds those
that are below bucket `i + 1` and not below bucket `i`. -/
theorem recorded_eq {samples : List Int} (hlen : samples.length < 9223372036854775808) (i : Nat) :
    (recorded samples).count = samples.length
      ∧ below samples i + (recorded samples).buckets i = below samples (i + 1) := by
  induction samples using reverseRecOn with
  | nil => simp [recorded, below]
  | append_singleton samples ms ih =>
    simp only [length_append, length_singleton] at hlen
    obtain ⟨hc, hb⟩ := ih (by omega)
    have hle := below_le_length samples (i + 1)
    have hmono := below_le_succ samples i
    have hadd : ∀ j, below (samples ++ [ms]) j
        = below samples j + if bucketFor ms < j then 1 else 0 := by
      intro j
      simp [below, countP_append, countP_cons]
    have hcount : int64 (samples.length + 1) = samples.length + 1 :=
      int64_of_lt (by omega) (by omega)
    rw [hadd, hadd, recorded, foldl_append, ← recorded]
    refine ⟨by simp [LatencyHist.record, hc, hcount], ?_⟩
    simp only [foldl_cons, foldl_nil, LatencyHist.record]
    by_cases hi : i = bucketFor ms
    · subst hi
      rw [Function.update_self, int64_of_lt (by omega) (by omega), if_neg (by omega),
        if_pos (by omega)]
      omega
    · rw [Function.update_of_ne hi]
      by_cases hlt : bucketFor ms < i
      · rw [if_pos hlt, if_pos (by omega)]
        omega
      · rw [if_neg hlt, if_neg (by omega)]
        omega

/-- The bucket the loop stops at is the first one that reaches the threshold. The induction is on
the buckets left; `below samples i` is what the loop has added up when it comes to bucket `i`. -/
theorem cover_spec {samples : List Int} (hlen : samples.length < 9223372036854775808)
    (ha : T ≤ below samples m) (hlt : below samples i < T) (hm : m ≤ n + i) (hi : i ≤ m) :
    ∃ j < m, (recorded samples).cover T n i (below samples i) = bucketUpperMs j
      ∧ T ≤ below samples (j + 1) ∧ below samples j < T := by
  induction n generalizing i with
  | zero =>
    obtain rfl : i = m := by omega
    omega
  | succ n ih =>
    have him : i < m := by
      refine Nat.lt_of_le_of_ne hi fun h => ?_
      subst h
      omega
    have hle := below_le_length samples (i + 1)
    rw [LatencyHist.cover, (recorded_eq hlen i).2, int64_of_lt (by omega) (by omega)]
    split
    · next hge => exact ⟨i, him, rfl, by omega, hlt⟩
    · next hge => exact ih (by omega) (by omega) him

/-- **The estimate bounds the 99th percentile tightly.** At least 99 of 100 samples are below the
bound that `p99Ms` gives, and fewer are below the bucket it belongs to. -/
theorem p99Ms_tight {samples : List Int} (hne : samples ≠ [])
    (hlen : samples.length < 9223372036854775808) (hms : ∀ ms ∈ samples, 0 ≤ ms ∧ ms ≤ 999) :
    ∃ i < 28, (recorded samples).p99Ms = bucketUpperMs i
      ∧ samples.length - samples.length / 100 ≤ samples.countP (· < bucketUpperMs i)
      ∧ samples.countP (· < bucketLowerMs i) < samples.length - samples.length / 100 := by
  have hb : ∀ i, i ≤ 28 → below samples i = samples.countP (· < bucketLowerMs i) := by
    intro i hi
    refine countP_congr fun ms hm => ?_
    simp [bucketFor_lt_iff (hms ms hm).1 (hms ms hm).2 hi]
  have hall : below samples 28 = samples.length := by
    rw [hb 28 (Nat.le_refl _), countP_eq_length]
    intro ms hm
    have := hms ms hm
    simp [bucketLowerMs, bucketUpperMs]
    omega
  have hlt := length_pos_iff.mpr hne
  have hz : below samples 0 = 0 := by simp [below]
  have hT : ((samples.length - samples.length / 100 : Nat) : Int)
      = (samples.length : Int) - (samples.length : Int).tdiv 100 := by
    rw [Int.tdiv_eq_ediv_of_nonneg (by omega)]
    omega
  obtain ⟨i, hi, heq, h1, h2⟩ := cover_spec (T := (samples.length - samples.length / 100 : Nat))
    (n := nBuckets) (i := 0) (m := 28) hlen (by omega) (by omega) (by decide) (by decide)
  rw [hb (i + 1) hi] at h1
  rw [hb i (by omega)] at h2
  refine ⟨i, hi, ?_, by exact_mod_cast h1, by exact_mod_cast h2⟩
  rw [LatencyHist.p99Ms, (recorded_eq hlen 0).1, if_neg (by omega), ← hT, ← heq, hz]
  rfl

theorem p99Ms_third : ∃ i < 28, (recorded [3, 250, 7]).p99Ms = bucketUpperMs i
    ∧ [3, 250, 7].countP (· < bucketLowerMs i) < 3 := by
  obtain ⟨i, hi, h, _, hl⟩ := p99Ms_tight (by decide : [(3 : Int), 250, 7] ≠ []) (by decide)
    (by decide)
  exact ⟨i, hi, h, hl⟩

end Rah.Limit.Latency
