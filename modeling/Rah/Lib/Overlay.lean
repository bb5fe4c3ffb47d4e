import Mathlib.Logic.Function.Basic
import Mathlib.Data.List.Basic

/-!
# Writes to a map

A write is a partial map: where it has a value, the map has that value afterwards. After a list of
writes a key has what the last write that touches it has put there.
-/

namespace Rah.Lib

open List

variable {K V W : Type}

/-- The map after the write. -/
def overlay (c : K → V) (w : K → Option V) : K → V := fun k => (w k).getD (c k)

/-- What the last of the writes that touch the key puts there. -/
def lastWrite (ws : List (K → Option V)) (k : K) : Option V :=
  ws.foldl (fun last w => (w k).or last) none

variable {ws ws' : List (K → Option V)} {k : K}

theorem foldl_or : ws.foldl (fun last w => (w k).or last) last = (lastWrite ws k).or last := by
  induction ws generalizing last with
  | nil => rfl
  | cons w ws ih =>
    rw [lastWrite, foldl_cons, foldl_cons, ih, ih, Option.or_none, Option.or_assoc]

theorem lastWrite_append : lastWrite (ws ++ ws') k = (lastWrite ws' k).or (lastWrite ws k) := by
  rw [lastWrite, foldl_append, foldl_or]
  rfl

theorem lastWrite_cons : lastWrite (w :: ws) k = (lastWrite ws k).or (w k) := by
  rw [lastWrite, foldl_cons, foldl_or, Option.or_none]

theorem foldl_overlay : ws.foldl overlay c k = (lastWrite ws k).getD (c k) := by
  induction ws generalizing c with
  | nil => rfl
  | cons w ws ih =>
    rw [foldl_cons, ih, lastWrite_cons]
    cases lastWrite ws k with
    | none | some v => rfl

/-- Writes that are translated value by value. -/
theorem lastWrite_map (f : V → W) (ws : List (K → Option V)) (k : K) :
    lastWrite (ws.map fun w k => (w k).map f) k
      = (lastWrite ws k).map f := by
  induction ws with
  | nil => rfl
  | cons w ws ih =>
    rw [map_cons, lastWrite_cons, lastWrite_cons, ih]
    cases lastWrite ws k with
    | none | some v => rfl

theorem lastWrite_eq_none : lastWrite ws k = none ↔ ∀ w ∈ ws, w k = none := by
  induction ws with
  | nil => simp [lastWrite]
  | cons w ws ih =>
    rw [lastWrite_cons, Option.or_eq_none_iff, ih, forall_mem_cons, and_comm]

/-- Writes that put the same value there. -/
theorem lastWrite_eq_some (hs : ∀ w ∈ ws, ∀ x, w k = some x → x = v)
    (hsm : ∃ w ∈ ws, w k ≠ none) : lastWrite ws k = some v := by
  induction ws with
  | nil =>
    obtain ⟨w, hw, -⟩ := hsm
    cases hw
  | cons w ws ih =>
  rw [lastWrite_cons]
  by_cases hl : ∃ w ∈ ws, w k ≠ none
  · rw [ih (fun w' hw' => hs w' (mem_cons_of_mem w hw')) hl]
    rfl
  have hn : lastWrite ws k = none :=
    lastWrite_eq_none.mpr fun w' hw' => not_not.mp fun h => hl ⟨w', hw', h⟩
  obtain ⟨w', hw', hne⟩ := hsm
  rcases mem_cons.mp hw' with rfl | hw'
  · obtain ⟨x, hx⟩ := Option.ne_none_iff_exists'.mp hne
    rw [hn, hx, hs w' mem_cons_self x hx]
    rfl
  · exact absurd ⟨w', hw', hne⟩ hl

end Rah.Lib
