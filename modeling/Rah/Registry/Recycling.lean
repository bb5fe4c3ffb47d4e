import Rah.Registry.Vacant

/-!
# A recycled id carries nothing over

A tenant that gets an id another tenant had is seen, in the snapshot it is created in, as a tenant
on a fresh id is: nothing of it is set.
-/

namespace Rah.Registry

open Rah.Lib List RegistryOp
open RegistryManager (alloc_small empty)

/-! ## Creation -/

/-- The tenant an operation creates, with the snapshot it is created in: before the operation's own
properties are stored. -/
def RegistryManager.created (codec : Codec) (rm : RegistryManager) (op : RegistryOp) :
    Option (Nat × TenantRegistry × TenantRates) :=
  match (op.acts codec).head? with
  | some (.create a) =>
    if rm.base.aliasMap a = none then
      (resolveOrCreateTenant rm.base rm.base.activeOrEmpty a).map
        (fun r => (r.1, r.2.2, rm.ratesFor a))
    else none
  | some (.test a) =>
    if rm.base.aliasMap a = none then
      (growFor rm.base.activeOrEmpty rm.testTenantID).map
        (fun reg => (rm.testTenantID, reg, rm.rates.grow rm.testTenantID))
    else none
  | some (.claim a id) =>
    if rm.base.aliasMap a = none then some (id, rm.base.activeOrEmpty, rm.rates) else none
  | _ => none

/-- All that a snapshot shows of a tenant. -/
structure TenantView where
  property : Namespace → Bytes → Option (Option Bytes)
  modifier : TenantRateLimitModifier
  limits : Option TenantRateLimitTable
  override : Nat → Option TenantV2ConfigOverride

def tenantView (t : Nat) (reg : TenantRegistry) (rates : TenantRates) : TenantView :=
  { property := fun ns name => getByKeyName ns reg t name
    modifier := rates.tenantModifiers.getD t .zero
    limits := rates.tenantRateLimits.getD t none
    override := lookupV2Override rates t }

/-- Nothing is set, and no lookup panics. -/
def TenantView.unset : TenantView :=
  { property := fun _ _ => some none, modifier := .zero, limits := none, override := fun _ => none }

theorem unset_of_blank (h : Tracks reg cols p) (ht : t < 65536) (hb : BlankRow reg cols t)
    (hr : RatesUnset rates t) : tenantView t reg rates = .unset := by
  rw [tenantView, hr.modifier, hr.limits,
    show lookupV2Override rates t = fun _ => none from funext hr.lookup]
  congr 1
  funext ns name
  rw [getByKeyName]
  by_cases hn : name = []
  · rw [hn, findKeyID, if_pos (.inr length_nil)]
    rfl
  rw [(h.stores ns).keyed.findKeyID_eq hn]
  cases hcl : column (cols ns) name with
  | none => rfl
  | some k =>
  have hc := hb ns k (column_lt hcl)
  show some (getPropByKeyID (reg.store ns) reg.valuePool t k) = some none
  rw [getPropByKeyID, (h.stores ns).idx_eq ht (column_lt hcl)]
  split
  · rfl
  rename_i hin
  rw [cellOf, getElem?_eq_getElem (by omega)] at hc
  rw [getElem?_eq_getElem (by omega)]
  dsimp only
  rw [if_pos (.inl hc)]

section Created

variable {codec : Codec} {rm rm' : RegistryManager} {r : Roster} {op : RegistryOp} {t : Nat}
  {reg : TenantRegistry} {rates : TenantRates}

/-- **A new tenant has no data**, whatever its id was used for before. -/
theorem created_unset (h : Recycles rm) (hid : IdsInv (rm.ids, r)) (hcl : op.Clean codec rm)
    (hcr : rm.created codec op = some (t, reg, rates)) :
    tenantView t reg rates = .unset := by
  obtain ⟨cols, p, ht, hb⟩ := h.rows
  rw [RegistryManager.created] at hcr
  have hf := hcl.ids
  have hs := hcl.small
  rw [RegistryOp.IdsFit] at hf
  split at hcr
  · rename_i a hh
    rw [hh] at hf
    split at hcr
    · rename_i ha
      have hal := alloc_small h.small (hf _ rfl) ha
      have hv : rm.base.Vacant rm.base.allocTenant.1 := by
        intro b
        have := hid.alloc_vacant ha (hf _ rfl) b
        rw [RegistryManager.ids, Manager.allocTenant_ids] at this
        exact this
      obtain ⟨reg', hg, htracks', _, _, _, hc⟩ := growFor_spec ht hal
      rw [resolveOrCreateTenant_create ha, hg] at hcr
      cases hcr
      refine unset_of_blank htracks' (show rm.base.allocTenant.1 < 65536 by omega)
        (fun ns i hi => ?_) ((h.rates _ hv).ratesFor a)
      rw [hc ns _ i hi]
      exact hb _ hv ns i hi
    · cases hcr
  · rename_i a hh
    rw [hh] at hf hs
    split at hcr
    · have hlt : rm.testTenantID < 65408 := hs _ rfl
      have hv : rm.base.Vacant rm.testTenantID := (hf _ rfl).2
      obtain ⟨reg', hg, htracks', _, _, _, hc⟩ := growFor_spec ht hlt
      rw [hg] at hcr
      cases hcr
      refine unset_of_blank htracks' (by omega) (fun ns i hi => ?_) ((h.rates _ hv).grow _)
      rw [hc ns _ i hi]
      exact hb _ hv ns i hi
    · cases hcr
  · rename_i a id hh
    rw [hh] at hf hs
    split at hcr
    · rename_i ha
      have hlt : id < 65408 := hs _ rfl
      have hv : rm.base.Vacant id := hf _ rfl ha
      cases hcr
      exact unset_of_blank ht (by omega) (hb _ hv) (h.rates _ hv)
    · cases hcr
  · cases hcr

theorem upsert_published (hn : (urls ++ ids ++ metadata).map Prod.fst = [])
    (hs : rm.upsertTenantState (a :: more) urls ids metadata = some rm') :
    (∃ t base, resolveOrCreateTenant rm.base rm.base.activeOrEmpty a
        = some (t, base, rm'.base.activeOrEmpty)) ∧ rm'.rates = rm.ratesFor a := by
  rw [map_eq_nil_iff, append_eq_nil_iff, append_eq_nil_iff] at hn
  obtain ⟨⟨rfl, rfl⟩, rfl⟩ := hn
  obtain ⟨base, hb, rfl⟩ := Option.map_eq_some_iff.mp hs
  rw [upsertTenantState] at hb
  split at hb
  · cases hb
  · rename_i t s1 reg hr
    cases hb
    exact ⟨⟨t, s1, hr⟩, rfl⟩

/-- Without properties of its own, the operation publishes that snapshot. -/
theorem created_published (hn : op.names = []) (hcr : rm.created codec op = some (t, reg, rates))
    (hs : rm.step codec op = some rm') :
    rm'.base.activeOrEmpty = reg ∧ rm'.rates = rates := by
  have hc : ∀ {a : Bytes}, (op.acts codec).head? = some (.create a) →
      (∃ u base, resolveOrCreateTenant rm.base rm.base.activeOrEmpty a
        = some (u, base, rm'.base.activeOrEmpty)) ∧ rm'.rates = rm.ratesFor a →
      rm'.base.activeOrEmpty = reg ∧ rm'.rates = rates := by
    rintro a hh ⟨⟨u, base, hrs⟩, hr⟩
    rw [RegistryManager.created, hh] at hcr
    dsimp only at hcr
    split at hcr
    · rw [hrs] at hcr
      cases hcr
      exact ⟨rfl, hr⟩
    · cases hcr
  cases op with
  | upsert aliases urls ids metadata =>
    cases aliases with
    | nil => exact absurd hcr (by simp [RegistryManager.created, acts])
    | cons a more => exact hc rfl (upsert_published hn hs)
  | addAlias a b =>
    rw [RegistryManager.step, RegistryManager.addAlias] at hs
    split at hs
    · cases hs
    rename_i u base reg' hrs
    cases hs
    exact hc rfl ⟨⟨u, base, hrs⟩, rfl⟩
  | registerTestTenant runID =>
    obtain ⟨reg', hrg, rfl⟩ := Option.map_eq_some_iff.mp hs
    rw [RegistryManager.created, acts] at hcr
    dsimp only [head?_cons] at hcr
    split at hcr
    · rw [hrg] at hcr
      cases hcr
      exact ⟨rfl, rfl⟩
    · cases hcr
  | restoreTenant record =>
    rw [RegistryManager.step, RegistryManager.restoreTenant] at hs
    rw [RegistryManager.created, acts] at hcr
    rw [acts] at hc
    cases hal : record.aliases with
    | nil =>
      rw [hal] at hcr
      cases hcr
    | cons a more =>
    rw [hal] at hs hcr hc
    dsimp only [head?_cons] at hs hcr hc
    by_cases hp : record.persistedID ≠ 0
    · rw [if_pos hp] at hs hcr
      dsimp only at hcr
      split at hcr
      · cases hcr
        obtain ⟨⟨u, base, hrs⟩, hr⟩ := upsert_published hn hs
        obtain ⟨_, id, hid⟩ := rm.base.claim_ids a record.persistedID.toNat rm.nextTestTenantID
        -- the alias is known by now, so nothing is created
        rw [resolveOrCreateTenant, hid] at hrs
        injection hrs with hrs
        rw [RegistryManager.ratesFor, hid] at hr
        exact ⟨(congrArg (·.2.2) hrs).symm.trans (rm.claimed_active a _), hr⟩
      · cases hcr
    · rw [if_neg hp] at hs hc
      exact hc rfl (upsert_published hn hs)
  | applyStorePut rawKey value =>
    rw [RegistryManager.step, RegistryManager.applyStorePut] at hs
    rw [RegistryManager.created, acts] at hcr
    rw [acts] at hc
    rw [names] at hn
    cases hk : parseKey rawKey with
    | none =>
      rw [hk] at hcr
      cases hcr
    | some key =>
    rw [hk] at hs hcr hc hn
    cases key with
    | aliases primary =>
      cases hv : codec.aliases value with
      | none =>
        rw [hv] at hcr
        cases hcr
      | some aliases =>
      rw [hv] at hs hcr hc
      cases aliases with
      | nil => exact absurd hcr (by simp [aliasActs])
      | cons first more =>
      dsimp only [RegistryManager.applyAliases] at hs
      split at hs
      · cases hs
      rename_i u base reg' hrs
      cases hs
      exact hc rfl ⟨⟨u, base, hrs⟩, rfl⟩
    | prop ns primary name => exact absurd hn (by simp)
    | v2Override _ _ | modifier _ | rateLimit _ => exact absurd hcr (by simp)
  | applyStoreDelete rawKey =>
    revert hcr
    rw [RegistryManager.created, acts]
    cases parseKey rawKey with
    | none => exact fun h => by cases h
    | some key => cases key <;> exact fun h => by cases h
  | add _ _ _ _ => exact absurd hn (by simp [names])
  | _ => exact absurd hcr (by simp [RegistryManager.created, acts])

end Created

/-- A history of clean operations from the empty registry. -/
def CleanHistory (codec : Codec) (ops : List RegistryOp) (rm : RegistryManager) (r : Roster) :
    Prop :=
  GoodRun (fun p op p' => registryAct codec p op = some p')
    (fun p op => op.Clean codec p.1) (empty, Roster.empty) ops (rm, r)

theorem recycles_empty : Recycles empty := by
  refine ⟨⟨nofun, nofun⟩, ⟨_, _, tracked_empty.tracks, nofun⟩, fun t _ => ?_⟩
  have hn : ∀ {α : Type} (zero : α), (replicate 128 zero).getD t zero = zero := by
    intro α zero
    rw [getD_eq_getElem?_getD, getElem?_replicate]
    split <;> rfl
  refine ⟨hn _, hn _, fun tbl htb => ?_⟩
  have := (hn none).symm.trans htb
  cases this

theorem cleanHistory_inv (h : CleanHistory codec ops rm r) : IdsInv (rm.ids, r) ∧ Recycles rm := by
  refine GoodRun.invariant (I := fun p => IdsInv (p.1.ids, p.2) ∧ Recycles p.1) ?_
    (show GoodRun _ _ _ _ _ from h) ⟨idsInv_empty, recycles_empty⟩
  intro p p' op hi hc ha
  refine ⟨hi.1.step hc.ids ha, ?_⟩
  obtain ⟨rm', hs, rfl⟩ := Option.map_eq_some_iff.mp ha
  exact hi.2.step hc hs

/-- **A recycled id carries nothing over.** Two histories that create a tenant with the same id show
the same of it: nothing. -/
theorem recycled_id_unset {codec : Codec} {ops ops' : List RegistryOp} {rm rm' : RegistryManager}
    {r r' : Roster} {op op' : RegistryOp} {t : Nat} {reg reg' : TenantRegistry}
    {rates rates' : TenantRates} (h : CleanHistory codec ops rm r)
    (h' : CleanHistory codec ops' rm' r') (hclean : op.Clean codec rm)
    (hclean' : op'.Clean codec rm') (hcreated : rm.created codec op = some (t, reg, rates))
    (hcreated' : rm'.created codec op' = some (t, reg', rates')) :
    tenantView t reg rates = tenantView t reg' rates'
      ∧ tenantView t reg rates = .unset
      ∧ (op.names = [] → ∀ rm₁, rm.step codec op = some rm₁ →
          tenantView t rm₁.base.activeOrEmpty rm₁.rates = .unset) := by
  obtain ⟨hi, hr⟩ := cleanHistory_inv h
  obtain ⟨hids', hrec'⟩ := cleanHistory_inv h'
  have hu := created_unset hr hi hclean hcreated
  have hunset' := created_unset hrec' hids' hclean' hcreated'
  refine ⟨hu.trans hunset'.symm, hu, fun hn rm₁ hs => ?_⟩
  obtain ⟨rfl, rfl⟩ := created_published hn hcreated hs
  exact hu

/-- The alias `a` and another one, or `c` and another one. -/
def firstTenant : RegistryOp := .addAlias [97] [98]

def secondTenant : RegistryOp := .addAlias [99] [100]

/-- Creating a tenant without properties is clean where its second alias is unknown, there are no
columns yet and the counter is low. -/
theorem addAlias_clean (hb : rm.base.aliasMap b = none) (hn : rm.base.nextAvailableTenantID < 61440)
    (hcl : ∀ ns, (rm.base.activeOrEmpty.store ns).stride = 0)
    (hv : rm.base.activeOrEmpty.valuePool = []) :
    (addAlias a b).Clean codec rm := by
  refine ⟨?_, ?_, nofun, fun ns => ?_, ?_, nofun, fun c hc => ?_, fun c hc t ht => ?_⟩
  · intro act ha
    cases ha
    exact fun _ _ => hn
  · intro act ha
    cases ha
    trivial
  · rw [hcl ns]
    exact Nat.zero_lt_succ _
  · rw [hv]
    exact (by decide : 1 + 0 < 4294967296)
  · simp [acts] at hc
  · have hcb : c = b := by simpa [acts, IdAct.moves] using hc
    rw [hcb, hb] at ht
    cases ht

/-- The id 1 is used, freed and used again. -/
theorem id_used_again : ∃ rm r reg rates reg' rates',
    CleanHistory noCodec [firstTenant, .deleteTenant [97]] rm r
      ∧ rm.created noCodec secondTenant = some (1, reg, rates)
      ∧ empty.created noCodec secondTenant = some (1, reg', rates')
      ∧ tenantView 1 reg rates = tenantView 1 reg' rates' := by
  have hf : firstTenant.Clean noCodec empty :=
    addAlias_clean rfl (by decide) (fun _ => rfl) rfl
  have hsecond' : secondTenant.Clean noCodec empty :=
    addAlias_clean rfl (by decide) (fun _ => rfl) rfl
  obtain ⟨rm, r, hr, hb, hn, hcl, hv, reg, rates, hc⟩ : ∃ rm r,
      CleanHistory noCodec [firstTenant, .deleteTenant [97]] rm r
        ∧ rm.base.aliasMap [100] = none ∧ rm.base.nextAvailableTenantID < 61440
        ∧ (∀ ns, (rm.base.activeOrEmpty.store ns).stride = 0)
        ∧ rm.base.activeOrEmpty.valuePool = []
        ∧ ∃ reg rates, rm.created noCodec secondTenant = some (1, reg, rates) := by
    refine ⟨_, _, .cons hf rfl (.cons ?_ rfl (.nil _)), rfl, by decide, fun _ => rfl, rfl, _, _,
      rfl⟩
    refine ⟨fun act hac => ?_, fun act hac => ?_, nofun, fun _ => (by decide : 0 + 0 < 65536),
      by decide, nofun,
      fun a ha t ht => ?_, nofun⟩
    · cases hac
      trivial
    · cases hac
      trivial
    · cases mem_singleton.mp ha
      cases ht
      exact ⟨by decide, by decide, nofun⟩
  exact ⟨rm, r, reg, rates, _, _, hr, hc, rfl,
    (recycled_id_unset hr (.nil _) (addAlias_clean hb hn hcl hv) hsecond' hc
      rfl).1⟩

/-- **A new tenant is blocked** because the tenant that had its id before was. -/
theorem blocked_from_birth :
    ([firstTenant, .setModifier 1 ⟨0, 1⟩, .deleteTenant [97], secondTenant].foldlM
        (RegistryManager.step noCodec) .empty).map
        (fun rm => (rm.base.aliasMap [99], rm.rates.tenantModifiers.getD 1 .zero))
      = some (some 1, ⟨0, 1⟩)
    ∧ ([secondTenant].foldlM (RegistryManager.step noCodec) .empty).map
        (fun rm => (rm.base.aliasMap [99], rm.rates.tenantModifiers.getD 1 .zero))
      = some (some 1, .zero) := by
  decide +kernel

end Rah.Registry
