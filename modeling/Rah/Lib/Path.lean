import Mathlib.Logic.Basic

/-!
# Paths of a deterministic machine

A machine is a partial step function. A path lists the states it passes, each one
before its step, from a start to an end. Two paths from one state follow the same
states, so the shorter one is where the longer begins.
-/

namespace Rah.Lib

variable {S : Type}

/-- The machine goes from a state through the listed ones to another. -/
inductive Path (step : S → Option S) : S → List S → S → Prop where
  | nil (s : S) : Path step s [] s
  | cons {s s' s'' : S} {vs : List S} :
      step s = some s' → Path step s' vs s'' → Path step s (s :: vs) s''

variable {step : S → Option S}

variable {s s' d e : S} {vs ws : List S}

theorem Path.single (h : step s = some s') : Path step s [s] s' := .cons h (.nil s')

theorem Path.append (h : Path step s vs s') (h' : Path step s' ws s'') :
    Path step s (vs ++ ws) s'' := by
  induction h with
  | nil s => exact h'
  | cons hs _ ih => exact .cons hs (ih h')

/-- The states passed and the end, as one list, begin with the start. -/
theorem Path.cons_eq (h : Path step s vs d) (more : List S) :
    ∃ rest, vs ++ d :: more = s :: rest := by
  cases h with
  | nil => exact ⟨more, rfl⟩
  | cons _ _ => exact ⟨_, rfl⟩

/-- A path to the first state with `P` goes through the end of every path from the same start
that has not met `P`. -/
theorem Path.through {P : S → Prop} (hws : Path step s ws d) (hc : ∀ w ∈ ws, ¬ P w)
    (hvs : Path step s vs e) (he : P e) :
    ∃ us, vs = ws ++ us ∧ Path step d us e := by
  induction hws generalizing vs with
  | nil => exact ⟨vs, rfl, hvs⟩
  | cons hs _ ih =>
  cases hvs with
  | nil => exact absurd he (hc _ (by simp))
  | cons hstep' hr =>
    obtain rfl := Option.some.inj (hs.symm.trans hstep')
    obtain ⟨us, hus, hp⟩ := ih (fun w hw => hc w (by simp [hw])) hr
    exact ⟨us, by rw [hus]; rfl, hp⟩

/-- **Determinism.** From one state, the first arrival at a kind of state is unique. -/
theorem Path.first_unique {P : S → Prop} (hv : Path step s vs d) (hw : Path step s ws e) (hd : P d)
    (he : P e) (hvs : ∀ v ∈ vs, ¬ P v) (hws : ∀ w ∈ ws, ¬ P w) : vs = ws ∧ d = e := by
  obtain ⟨us, rfl, hr⟩ := hw.through hws hv hd
  cases hr with
  | nil => exact ⟨by simp, rfl⟩
  | cons _ _ => exact absurd he (hvs _ (by simp))

end Rah.Lib
