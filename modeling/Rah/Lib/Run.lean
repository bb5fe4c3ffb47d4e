import Mathlib.Logic.Basic
import Mathlib.Data.List.Forall2

/-!
# Runs of a step relation

A run is a chain of labelled steps. `GoodRun` is a run each of whose steps meets a
condition on its label and the state before it; a plain run is one where the condition
asks nothing. An invariant that every such step keeps holds at the end of every such
run, and so in every state the run passes; a relation that pairs of steps keep relates the ends of
two runs.
-/

namespace Rah.Lib

variable {S A : Type}

/-- A run from `s` by the labels to `s'`, each step of it meeting `good`. -/
inductive GoodRun (step : S → A → S → Prop) (good : S → A → Prop) : S → List A → S → Prop where
  | nil (s : S) : GoodRun step good s [] s
  | cons {s s' s'' : S} {a : A} {as : List A} :
      good s a → step s a s' → GoodRun step good s' as s'' → GoodRun step good s (a :: as) s''

variable {step : S → A → S → Prop} {good : S → A → Prop}

/-- **The invariant rule.** -/
theorem GoodRun.invariant {I : S → Prop}
    (hst : ∀ {s s' : S} {a : A}, I s → good s a → step s a s' → I s') :
    ∀ {s s' : S} {as : List A}, GoodRun step good s as s' → I s → I s' := by
  intro s s' as hr h
  induction hr with
  | nil s => exact h
  | cons hg hs _ ih => exact ih (hst h hg hs)

theorem GoodRun.append (h : GoodRun step good s as s') (h' : GoodRun step good s' bs s'') :
    GoodRun step good s (as ++ bs) s'' := by
  induction h with
  | nil s => exact h'
  | cons hg hs _ ih => exact .cons hg hs (ih h')

/-- A run by two lists of labels, one after the other, passes a state in between. -/
theorem GoodRun.split (h : GoodRun step good s (as ++ bs) s'') :
    ∃ s', GoodRun step good s as s' ∧ GoodRun step good s' bs s'' := by
  induction as generalizing s with
  | nil => exact ⟨s, .nil s, h⟩
  | cons a as ih =>
  cases h with
  | cons hg hs hr =>
    obtain ⟨s', h1, h2⟩ := ih hr
    exact ⟨s', .cons hg hs h1, h2⟩

/-- **Two runs in step.** A relation that related labels keep, as long as the first run's steps are
good. -/
theorem GoodRun.lockstep {T C : Type} {stepT : T → C → T → Prop} {goodT : T → C → Prop}
    {R : S → T → Prop} {Rel : A → C → Prop} {t t' : T} {cs : List C}
    (hst : ∀ {s s' : S} {t t' : T} {a : A} {c : C}, R s t → Rel a c → good s a → step s a s' →
      stepT t c t' → R s' t') (hrl : List.Forall₂ Rel as cs) (hrn : GoodRun step good s as s')
    (hr : GoodRun stepT goodT t cs t') (h : R s t) : R s' t' := by
  induction hrn generalizing cs t with
  | nil s =>
    cases hrl
    cases hr
    exact h
  | cons hg hs _ ih =>
  cases hrl with
  | cons hac hrs =>
    cases hr with
    | cons _ ht hr => exact ih hrs hr (hst h hac hg hs ht)

/-- What an invariant adds to the condition of the steps holds along the run as well. -/
theorem GoodRun.strengthen {I : S → Prop} {good' : S → A → Prop} {as : List A} {s s' : S}
    (hst : ∀ {s s' : S} {a : A}, I s → good s a → step s a s' → I s')
    (hg : ∀ {s : S} {a : A}, I s → good s a → good' s a)
    (hr : GoodRun step good s as s') (h : I s) :
    GoodRun step good' s as s' := by
  induction hr with
  | nil s => exact .nil s
  | cons hgood hs _ ih => exact .cons (hg h hgood) hs (ih (hst h hgood hs))

/-- A run can be executed with the condition checked before each step. -/
theorem GoodRun.of_checked [∀ s a, Decidable (good s a)] {f : S → A → Option S} :
    ∀ {as : List A} {s s' : S},
    as.foldlM (fun s a => if good s a then f s a else none) s = some s' →
    GoodRun (fun s a s' => f s a = some s') good s as s'
  | [], s, s', h => by
    cases h
    exact .nil s
  | a :: as, s, s', h => by
    rw [List.foldlM_cons] at h
    obtain ⟨s1, hs, hr⟩ := Option.bind_eq_some_iff.mp h
    split at hs
    · rename_i hg
      exact .cons hg hs (GoodRun.of_checked hr)
    · cases hs

/-- A step function that keeps an invariant and never fails on it can be executed. -/
theorem foldlM_some {P : S → Prop} {f : S → A → Option S} : ∀ {l : List A} {s : S}, P s →
    (∀ a ∈ l, ∀ s, P s → ∃ s', f s a = some s' ∧ P s') → ∃ s', l.foldlM f s = some s' ∧ P s'
  | [], s, h, _ => ⟨s, rfl, h⟩
  | a :: l, s, h, hf => by
    obtain ⟨s1, hs, h1⟩ := hf a (.head _) s h
    rw [List.foldlM_cons, hs]
    exact foldlM_some h1 fun b hb => hf b (.tail _ hb)

/-- What each step adds to is, after all of them, what was there or was added. -/
theorem foldl_iff {P : S → Prop} {Q : A → Prop} (h : ∀ s a, P (f s a) ↔ P s ∨ Q a) :
    ∀ (l : List A) (s : S), P (l.foldl f s) ↔ P s ∨ ∃ a ∈ l, Q a
  | [], s => by simp
  | a :: l, s => by
    rw [List.foldl_cons, foldl_iff h l, h, or_assoc]
    simp

/-- Executing a step function is a run. -/
theorem GoodRun.of_foldlM : ∀ {as : List A} {s s' : S}, as.foldlM f s = some s' →
    GoodRun (fun s a s' => f s a = some s') (fun _ _ => True) s as s'
  | [], s, s', h => by
    cases h
    exact .nil s
  | a :: as, s, s', h => by
    obtain ⟨s1, hs, hr⟩ := Option.bind_eq_some_iff.mp h
    exact .cons trivial hs (GoodRun.of_foldlM hr)

end Rah.Lib
