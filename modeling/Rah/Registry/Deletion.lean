import Rah.Registry.Store

/-!
# What deleting a tenant deletes

`DeleteTenant` deletes the listed keys as they are listed, without the prefix they were
listed by. So the tenant's properties stay, and other keys go if they happen to be called
like the rest of a key of the tenant. Only the aliases key is deleted by its full name.
-/

namespace Rah.Registry.Store

open Rah.Registry List

/-- Every key of the tenant is gone, and nothing else is. -/
def DeletesExactly (B : Backend) (c c' : B.Content) (primary : Bytes) : Prop :=
  (∀ s, B.get c' (tenantKeyPrefix ++ primary ++ [58] ++ s) = none) ∧
  (∀ k, ¬ tenantKeyPrefix ++ primary ++ [58] <+: k → B.get c' k = B.get c k)

/-- `aliases` -/
def aliasesName : Bytes := [97, 108, 105, 97, 115, 101, 115]

theorem get_foldlM_delete {B : Backend} {keys : List Bytes} {c c' : B.Content}
    (h : keys.foldlM B.delete c = some c') (k : Bytes) :
    B.get c' k = if k ∈ keys then none else B.get c k := by
  induction keys generalizing c with
  | nil =>
    cases h
    rw [if_neg (by simp)]
  | cons k0 keys ih =>
    obtain ⟨c1, hd, hr⟩ := Option.bind_eq_some_iff.mp h
    rw [ih hr, B.get_delete hd k]
    by_cases hk : k ∈ keys
    · rw [if_pos hk, if_pos (by simp [hk])]
    · by_cases hk0 : k = k0
      · rw [if_neg hk, if_pos hk0, if_pos (by simp [hk0])]
      · rw [if_neg hk, if_neg hk0, if_neg (by simp [hk, hk0])]

theorem get_deleteTenant {B : Backend} {c c' : B.Content} {primary : Bytes}
    (h : deleteTenant B c primary = some c') (k : Bytes) :
    B.get c' k =
      if k ∈ B.listKeys c (tenantKeyPrefix ++ primary ++ [58])
          ∨ k = tenantKeyPrefix ++ primary ++ [58] ++ aliasesName then none
      else B.get c k := by
  have hk : tenantKeyPrefix ++ primary ++ aliasSuffix =
      tenantKeyPrefix ++ primary ++ [58] ++ aliasesName := by
    rw [append_assoc _ [58]]
    rfl
  have hg := get_foldlM_delete h k
  rw [hk] at hg
  simpa only [mem_append, mem_singleton] using hg

/-- A stored key of the tenant survives unless the prefix stands before it once more in another
stored key, and so on without end. So none but the aliases key can be there. -/
theorem only_aliases_of_all_listed {B : Backend} {c : B.Content} {pre : Bytes} (hp : pre ≠ [])
    (hne : ∀ s, pre ++ s ≠ aliasesName)
    (h : ∀ s, (B.get c (pre ++ s)).isSome = true → s = aliasesName ∨ pre ++ s ∈ B.listKeys c pre)
    (s : Bytes) (hs : (B.get c (pre ++ s)).isSome = true) : s = aliasesName := by
  obtain ⟨bound, hb⟩ : ∃ n, ∀ s ∈ B.listKeys c pre, s.length ≤ n :=
    ⟨(B.listKeys c pre).foldr (fun s n => max s.length n) 0, by
      induction B.listKeys c pre with
      | nil => simp
      | cons x xs ih =>
      intro s hs
      rcases mem_cons.mp hs with rfl | hs
      · exact Nat.le_max_left _ _
      · exact Nat.le_trans (ih s hs) (Nat.le_max_right _ _)⟩
  have hps : 0 < pre.length := length_pos_iff.mpr hp
  -- induct on how much longer a listed key could be
  have key : ∀ n s, bound - s.length < n → (B.get c (pre ++ s)).isSome = true →
      s = aliasesName := by
    intro n
    induction n with
    | zero => intro s hn; omega
    | succ n ih =>
    intro s hn hs
    rcases h s hs with hal | hin
    · exact hal
    have hln : (pre ++ s).length ≤ bound := hb _ hin
    have hst : (B.get c (pre ++ (pre ++ s))).isSome = true :=
      (B.mem_listKeys c pre (pre ++ s)).mp hin
    rw [length_append] at hln
    have hl := ih (pre ++ s) (by rw [length_append]; omega) hst
    exact absurd hl (hne s)
  exact key (bound - s.length + 1) s (by omega) hs

/-- **When a tenant is deleted exactly**: it has no key but its aliases, and no key of the
backend is called `aliases` alone. -/
theorem deleteTenant_exact_iff (B : Backend) (c c' : B.Content) (primary : Bytes)
    (h : deleteTenant B c primary = some c') :
    DeletesExactly B c c' primary ↔
      (∀ s, (B.get c (tenantKeyPrefix ++ primary ++ [58] ++ s)).isSome = true →
        s = aliasesName) ∧
      ((B.get c (tenantKeyPrefix ++ primary ++ [58] ++ aliasesName)).isSome = true →
        B.get c aliasesName = none) := by
  have hgt := get_deleteTenant h
  have hm := B.mem_listKeys c (tenantKeyPrefix ++ primary ++ [58])
  have hne : ∀ s, tenantKeyPrefix ++ primary ++ [58] ++ s ≠ aliasesName := by
    intro s hs
    simp [tenantKeyPrefix, aliasesName] at hs
  constructor
  · rintro ⟨hg, hkp⟩
    constructor
    · refine only_aliases_of_all_listed (by simp [tenantKeyPrefix]) hne ?_
      intro s hs
      have hs' := hg s
      rw [hgt] at hs'
      by_cases hin : tenantKeyPrefix ++ primary ++ [58] ++ s ∈
          B.listKeys c (tenantKeyPrefix ++ primary ++ [58])
      · exact .inr hin
      by_cases hal : tenantKeyPrefix ++ primary ++ [58] ++ s =
          tenantKeyPrefix ++ primary ++ [58] ++ aliasesName
      · exact .inl (append_cancel_left hal)
      · rw [if_neg (not_or.mpr ⟨hin, hal⟩)] at hs'
        rw [hs'] at hs
        cases hs
    · intro hst
      have hb : ¬ tenantKeyPrefix ++ primary ++ [58] <+: aliasesName := fun ⟨s, hs⟩ => hne s hs
      rw [← hkp aliasesName hb, hgt, if_pos (.inl ((hm aliasesName).mpr hst))]
  · rintro ⟨ho, hb⟩
    constructor
    · intro s
      rw [hgt]
      by_cases hs : (B.get c (tenantKeyPrefix ++ primary ++ [58] ++ s)).isSome = true
      · rw [if_pos (.inr (by rw [ho s hs]))]
      · rw [Option.not_isSome_iff_eq_none.mp hs, ite_self]
    intro k hk
    rw [hgt]
    by_cases hin : k ∈ B.listKeys c (tenantKeyPrefix ++ primary ++ [58])
    · -- the only name listed is `aliases`, and no such key is stored
      have hst := (hm k).mp hin
      obtain rfl := ho k hst
      rw [hb hst, ite_self]
    · have hk' : k ≠ tenantKeyPrefix ++ primary ++ [58] ++ aliasesName := by
        rintro rfl
        exact hk (prefix_append _ _)
      rw [if_neg (not_or.mpr ⟨hin, hk'⟩)]

/-- A store with the aliases of tenant `a`. -/
def oneTenant : memory.Content := AList.insert (text (.aliases [97])) [] ∅

theorem deleteTenant_oneTenant : ∃ c', deleteTenant memory oneTenant [97] = some c' ∧
    DeletesExactly memory oneTenant c' [97] := by
  obtain ⟨c', h⟩ : ∃ c', deleteTenant memory oneTenant [97] = some c' := ⟨_, rfl⟩
  refine ⟨c', h, (deleteTenant_exact_iff memory oneTenant c' [97] h).mpr ⟨?_, fun _ => rfl⟩⟩
  intro s hs
  have hk : tenantKeyPrefix ++ [97] ++ [58] ++ s = text (.aliases [97]) := by
    by_contra hne
    have hn : memory.get oneTenant (tenantKeyPrefix ++ [97] ++ [58] ++ s) = none := by
      refine (AList.lookup_insert_ne hne).trans ?_
      exact AList.lookup_empty _
    rw [hn] at hs
    cases hs
  exact append_cancel_left (hk.trans (by rfl))

/-- The URL `x` of tenant `a`, and another key that is called `url:x`. -/
def oneURL : memory.Content :=
  AList.insert (text (.prop .urls [97] [120])) [] (AList.insert [117, 114, 108, 58, 120] [] ∅)

/-- **The wrong key is deleted**: after `DeleteTenant` the tenant still has its URL, and the key
`url:x` is gone. -/
theorem deleteTenant_oneURL : ∃ c', deleteTenant memory oneURL [97] = some c' ∧
    memory.get c' (text (.prop .urls [97] [120])) = some [] ∧
    memory.get oneURL [117, 114, 108, 58, 120] = some [] ∧
    memory.get c' [117, 114, 108, 58, 120] = none :=
  ⟨_, rfl, rfl, rfl, rfl⟩

end Rah.Registry.Store
