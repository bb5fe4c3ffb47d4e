import Mathlib.Data.List.AList
import Rah.Lib.Run

/-!
# Grouping by a key

The elements of a list are filed one after another under a key, each at the end of what is there.
-/

namespace Rah.Lib

open List

variable {A K B : Type} [DecidableEq K]

/-- What is filed under the key. -/
def filed (m : AList (fun _ : K => List B)) (k : K) : List B := (m.lookup k).getD []

def fileUnder (m : AList (fun _ : K => List B)) (k : K) (b : B) : AList (fun _ : K => List B) :=
  m.insert k (filed m k ++ [b])

def groupBy (key : A → K) (val : A → B) (l : List A) : AList (fun _ : K => List B) :=
  l.foldl (fun m a => fileUnder m (key a) (val a)) ∅

variable {m : AList (fun _ : K => List B)} {k k' : K} {b b' : B}

theorem mem_filed_fileUnder :
    b' ∈ filed (fileUnder m k b) k' ↔ b' ∈ filed m k' ∨ k' = k ∧ b' = b := by
  unfold filed fileUnder
  by_cases hk : k' = k
  · subst hk
    simp [filed]
  · simp [hk]

variable {key : A → K} {val : A → B}

theorem mem_filed_groupBy : b ∈ filed (groupBy key val l) k ↔ ∃ a ∈ l, key a = k ∧ val a = b := by
  rw [groupBy, foldl_iff (P := (b ∈ filed · k)) fun m a =>
    mem_filed_fileUnder (k := key a) (b := val a)]
  simp [filed, eq_comm]

theorem mem_keys_groupBy : k ∈ (groupBy key val l).keys ↔ ∃ a ∈ l, key a = k := by
  rw [groupBy, foldl_iff (P := (k ∈ AList.keys ·)) (Q := fun a => k = key a) fun m a => ?_]
  · simp [eq_comm]
  rw [fileUnder, ← AList.mem_keys, AList.mem_insert, AList.mem_keys, or_comm]

end Rah.Lib
