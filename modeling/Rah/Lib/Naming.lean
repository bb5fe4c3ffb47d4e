import Mathlib.Logic.Function.Basic

/-!
# Names with ids

Some names have an id, and each name belongs to an owner. Ids tell owners apart when two names
that have ids have the same one exactly if they belong to the same owner.
-/

namespace Rah.Lib

open Function

variable {N I O : Type}

def TellsApart (id : N → Option I) (owner : N → O) : Prop :=
  ∀ a b i j, id a = some i → id b = some j → (i = j ↔ owner a = owner b)

/-- Names may lose their ids. -/
theorem TellsApart.mono {id id' : N → Option I} {owner : N → O} (h : TellsApart id owner)
    (hs : ∀ a i, id' a = some i → id a = some i) : TellsApart id' owner :=
  fun a b i j ha hb => h a b i j (hs a i ha) (hs b j hb)

variable [DecidableEq N] {id : N → Option I} {owner : N → O}

/-- A name that has an id after a change was given it by the change or had it before. -/
theorem update_eq_some {o : Option I} (h : update id a o b = some i) :
    (b = a ∧ o = some i) ∨ (b ≠ a ∧ id b = some i) := by
  by_cases hba : b = a
  · rw [hba, update_self] at h
    exact .inl ⟨hba, h⟩
  · rw [update_of_ne hba] at h
    exact .inr ⟨hba, h⟩

/-- A name gets an id that no other name has, for an owner that no other name belongs to. -/
theorem TellsApart.assign (h : TellsApart id owner) {a : N} {i : I} {o : O}
    (hid : ∀ b, b ≠ a → id b ≠ some i) (how : ∀ b j, id b = some j → owner b ≠ o) :
    TellsApart (update id a (some i)) (update owner a o) := by
  intro b c j k hbj hck
  obtain ⟨rfl, ⟨⟩⟩ | ⟨hba, hb⟩ := update_eq_some hbj <;>
    obtain ⟨rfl, ⟨⟩⟩ | ⟨hca, hc⟩ := update_eq_some hck
  · exact ⟨fun _ => rfl, fun _ => rfl⟩
  · rw [update_self, update_of_ne hca]
    refine ⟨fun hik => ?_, fun ho => absurd ho.symm (how c k hc)⟩
    rw [← hik] at hc
    exact absurd hc (hid c hca)
  · rw [update_self, update_of_ne hba]
    refine ⟨fun hik => ?_, fun ho => absurd ho (how b j hb)⟩
    rw [hik] at hb
    exact absurd hb (hid b hba)
  · rw [update_of_ne hba, update_of_ne hca]
    exact h b c j k hb hc

/-- A name becomes one of an owner's. -/
theorem TellsApart.link (h : TellsApart id owner) (a : N) {b : N} {i : I} (hb : id b = some i) :
    TellsApart (update id a (some i)) (update owner a (owner b)) := by
  -- what the name shows after the change, some name showed before
  have hbc : ∀ c j, update id a (some i) c = some j →
      ∃ d, id d = some j ∧ update owner a (owner b) c = owner d := by
    intro c j hc
    obtain ⟨rfl, ⟨⟩⟩ | ⟨hca, hc⟩ := update_eq_some hc
    · exact ⟨b, hb, update_self ..⟩
    · exact ⟨c, hc, update_of_ne hca ..⟩
  intro c d j k hc hd
  obtain ⟨c', hc', hco⟩ := hbc c j hc
  obtain ⟨d', hd', hdo⟩ := hbc d k hd
  rw [hco, hdo]
  exact h c' d' j k hc' hd'

end Rah.Lib
