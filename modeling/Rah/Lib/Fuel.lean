import Mathlib.Logic.Basic

/-!
# Computations on fuel

A recursion that runs on fuel gives a certain error when the fuel does not last. More fuel
never changes any other result, and what a recursion does is put together from its parts
with `bind`, so this is shown part by part.
-/

namespace Rah.Lib

variable {ε α β : Type} (out : ε)

/-- The second result is the first one, if the first did not run out. -/
def Extends (r r' : Except ε α) : Prop := r = .error out ∨ r' = r

variable {out}

theorem Extends.refl (r : Except ε α) : Extends out r r := .inr rfl

theorem Extends.of_out (r : Except ε α) : Extends out (.error out) r := .inl rfl

variable {x x' y r : Except ε α} {f : α → Except ε β}

theorem Extends.bind (hx : Extends out x x') (hf : ∀ a, Extends out (f a) (f' a)) :
    Extends out (x.bind f) (x'.bind f') := by
  rcases hx with rfl | rfl
  · exact .inl rfl
  · cases x' with
    | error e => exact .inr rfl
    | ok a => exact hf a

theorem Extends.ite {p : Prop} [Decidable p] (hx : Extends out x x') (hy : Extends out y y') :
    Extends out (if p then x else y) (if p then x' else y') := by
  by_cases h : p
  · rw [if_pos h, if_pos h]
    exact hx
  · rw [if_neg h, if_neg h]
    exact hy

theorem Extends.trans (h : Extends out x y) (h' : Extends out y z) : Extends out x z := by
  rcases h with h | rfl
  · exact .inl h
  · exact h'

/-- A family that each unit of fuel extends is extended by any amount. -/
theorem Extends.le {f : Nat → Except ε α} (h : ∀ n, Extends out (f n) (f (n + 1))) (hnm : n ≤ m) :
    Extends out (f n) (f m) := by
  induction hnm with
  | refl => exact .refl _
  | step _ ih => exact ih.trans (h _)

/-! ## Results with enough fuel -/

/-- From some amount of fuel on, this is the result. -/
def Settles (f : Nat → Except ε α) (r : Except ε α) : Prop := ∃ N, ∀ n, N ≤ n → f n = r

theorem Settles.const (r : Except ε α) : Settles (fun _ => r) r := ⟨0, fun _ _ => rfl⟩

/-- A unit of fuel is spent on a step. -/
theorem Settles.succ {f g : Nat → Except ε α} (hf : ∀ n, f (n + 1) = g n)
    (h : Settles g r) : Settles f r := by
  obtain ⟨N, hN⟩ := h
  refine ⟨N + 1, fun n hn => ?_⟩
  obtain ⟨m, rfl⟩ := Nat.exists_eq_add_of_le' (Nat.le_trans (Nat.le_add_left 1 N) hn)
  rw [hf]
  exact hN m (by omega)

theorem Settles.bind {x : Nat → Except ε α} {f : Nat → α → Except ε β} {a : α} {r : Except ε β}
    (hx : Settles x (.ok a)) (hf : Settles (fun n => f n a) r) :
    Settles (fun n => (x n).bind (f n)) r := by
  obtain ⟨N, hN⟩ := hx
  obtain ⟨M, hM⟩ := hf
  refine ⟨max N M, fun n hn => ?_⟩
  dsimp only
  rw [hN n (by omega)]
  exact hM n (by omega)

/-- A result that did not run out is the result with any fuel that gives one. -/
theorem Extends.eq_of_ne {f : Nat → Except ε α} (h : ∀ n, Extends out (f n) (f (n + 1)))
    (hn : f n ≠ .error out) (hr : Settles f r) : f n = r := by
  obtain ⟨m, hm⟩ := hr
  rcases Extends.le h (Nat.le_max_left n m) with ho | hs
  · exact absurd ho hn
  · rw [← hs]
    exact hm _ (by omega)

theorem bind_eq_ok : x.bind f = .ok b ↔ ∃ a, x = .ok a ∧ f a = .ok b := by
  cases x with
  | error e => exact ⟨fun h => (by cases h), fun ⟨_, h, _⟩ => (by cases h)⟩
  | ok a => exact ⟨fun h => ⟨a, rfl, h⟩, fun ⟨_, h, h'⟩ => by cases h; exact h'⟩

theorem bind_ne_out (hx : x ≠ .error out)
    (hf : ∀ a, x = .ok a → f a ≠ .error out) : x.bind f ≠ .error out := by
  cases x with
  | error e =>
    intro h
    cases h
    exact hx rfl
  | ok a => exact hf a rfl

end Rah.Lib
