import Rah.Registry.TenantRows

/-!
# Ids of no tenant have no data

An id that is no alias's has no data: no property of its row is set, and the rate limit tables have
nothing at its place (`Recycles`). Deletion clears the row but not the tables, so this needs a
condition: a tenant that is deleted has no rate limit data left.
-/

namespace Rah.Registry

open Rah.Lib List Option RegistryOp IdAct

/-! ## Ids and liveness -/

/-- Ids whose rows a matrix can have: a new capacity does not overflow. -/
def Ids.Small (s : Ids) : Prop :=
  (∀ a t, s.aliasMap a = some t → t < 65408) ∧ ∀ t ∈ s.freeSlots, t < 65408

/-- An id that does not come from the counter or the free list is small. -/
def IdAct.Small (s : Ids) : IdAct → Prop
  | .test _ => s.testID < 65408
  | .claim _ id => id < 65408
  | _ => True

variable {s : Ids} {t : Nat}

theorem Ids.Small.setAlias (h : s.Small) (a : Bytes) (ht : t < 65408) : (s.setAlias a t).Small := by
  refine ⟨fun b u hb => ?_, h.2⟩
  obtain ⟨rfl, ⟨⟩⟩ | ⟨-, hb⟩ := update_eq_some hb
  · exact ht
  · exact h.1 b u hb

theorem Ids.Small.alloc (h : s.Small) (ha : s.aliasMap a = none) (hfits : (create a).Fits s) :
    s.alloc.1 < 65408 ∧ s.alloc.2.Small := by
  rw [Ids.alloc]
  cases hl : s.freeSlots.getLast? with
  | some t =>
    exact ⟨h.2 t (mem_of_getLast? hl), h.1, fun u hu => h.2 u ((dropLast_sublist _).subset hu)⟩
  | none =>
  have hlt := hfits ha (getLast?_eq_none_iff.mp hl)
  have hr : testTenantRangeStart = 61440 := rfl
  refine ⟨?_, h⟩
  show uint16 s.nextAvailableTenantID < 65408
  rw [uint16]
  omega

theorem Ids.Small.act {s : Ids} (h : s.Small) {act : IdAct} (hfits : act.Fits s)
    (hs : act.Small s) : (s.act act).Small := by
  cases act with
  | create a =>
    rw [Ids.act]
    cases ha : s.aliasMap a with
    | some t => exact h
    | none =>
      obtain ⟨ht, hal⟩ := h.alloc ha hfits
      exact hal.setAlias a ht
  | link a b =>
    rw [Ids.act]
    cases hb : s.aliasMap b with
    | none => exact h
    | some t => exact h.setAlias a (h.1 b t hb)
  | linkNew a b =>
    rw [Ids.act]
    cases ha : s.aliasMap a with
    | some t => exact h
    | none =>
      cases hb : s.aliasMap b with
      | none => exact h
      | some t => exact h.setAlias a (h.1 b t hb)
  | drop a =>
    rw [Ids.act]
    cases ha : s.aliasMap a with
    | none => exact h
    | some t =>
    refine ⟨fun b u hb => ?_, fun u hu => ?_⟩
    · dsimp only at hb
      split at hb
      · cases hb
      · exact h.1 b u hb
    · rcases mem_append.mp hu with hu | hu
      · exact h.2 u hu
      · rw [mem_singleton.mp hu]
        exact h.1 a t ha
  | test a => exact ⟨(h.setAlias a hs).1, h.2⟩
  | claim a id =>
    have hr : (s.reserve id).Small := ⟨h.1, fun u hu => h.2 u (mem_of_mem_erase hu)⟩
    rw [Ids.act]
    cases ha : s.aliasMap a with
    | some t => exact hr
    | none => exact hr.setAlias a hs

theorem Ids.Small.mild (h : s.Small) {acts : List IdAct}
    (hac : ∀ act ∈ acts, act.Mild) : (acts.foldl Ids.act s).Small := by
  refine foldlRecOn acts _ h fun s h act ha => ?_
  have hm := hac act ha
  have hs : act.Small s := by
    cases act with
    | link a b | linkNew a b => trivial
    | _ => exact absurd hm id
  exact h.act (hm.fits s).2 hs

/-- The aliases an action takes from their tenants. -/
def IdAct.moves : IdAct → List Bytes
  | .link a _ => [a]
  | .test a => [a]
  | _ => []

/-- Every other alias keeps its tenant, unless that goes. -/
theorem act_frame {act : IdAct} (hd : ∀ a, act ≠ .drop a) (hc : c ∉ act.moves)
    (h : s.aliasMap c = some t) : (s.act act).aliasMap c = some t := by
  have hst : ∀ (s : Ids) a u, c ≠ a → s.aliasMap c = some t →
      (s.setAlias a u).aliasMap c = some t :=
    fun s a u hne hs => (Function.update_of_ne hne ..).trans hs
  have hne : ∀ a, s.aliasMap a = none → c ≠ a := by
    intro a ha hca
    rw [hca, ha] at h
    cases h
  cases act with
  | create a =>
    rw [Ids.act]
    cases ha : s.aliasMap a with
    | some u => exact h
    | none =>
      refine hst _ a _ (hne a ha) ?_
      rw [Ids.alloc]
      split <;> exact h
  | link a b =>
    rw [Ids.act]
    split
    · exact hst s a _ (fun hca => hc (by rw [hca]; exact mem_singleton_self a)) h
    · exact h
  | linkNew a b =>
    rw [Ids.act]
    cases ha : s.aliasMap a with
    | some u => exact h
    | none =>
      cases s.aliasMap b with
      | none => exact h
      | some u => exact hst s a u (hne a ha) h
  | drop a => exact absurd rfl (hd a)
  | test a => exact hst s a _ (fun hca => hc (by rw [hca]; exact mem_singleton_self a)) h
  | claim a id =>
    rw [Ids.act]
    cases ha : s.aliasMap a with
    | some u => exact h
    | none => exact hst (s.reserve id) a id (hne a ha) h

theorem acts_frame {acts : List IdAct} (hd : ∀ act ∈ acts, ∀ a, act ≠ .drop a)
    (hc : c ∉ acts.flatMap moves) (h : s.aliasMap c = some t) :
    (acts.foldl Ids.act s).aliasMap c = some t := by
  refine foldlRecOn (motive := (Ids.aliasMap · c = some t)) acts _ h fun s h act ha => ?_
  exact act_frame (hd act ha) (fun hm => hc (mem_flatMap_of_mem ha hm)) h

/-! ## Clean operations -/

/-- The names of the properties an operation may give columns to. -/
def RegistryOp.names : RegistryOp → List Bytes
  | .add _ _ name _ => [name]
  | .upsert _ urls ids metadata => (urls ++ ids ++ metadata).map Prod.fst
  | .ensure _ key => [key]
  | .restoreTenant t => (t.serviceURLs ++ t.identifiers ++ t.metadata).map Prod.fst
  | .applyStorePut rawKey _ =>
    match parseKey rawKey with
    | some (.prop _ _ key) => [key]
    | _ => []
  | _ => []

/-- The tenant whose rate limit data an operation sets by id. -/
def RegistryOp.target : RegistryOp → Option Nat
  | .setModifier tenantID _ => some tenantID.toNat
  | .upsertRateLimit tenantID _ _ => some tenantID.toNat
  | .upsertV2 tenantID _ _ => some tenantID.toNat
  | _ => none

/-- What an operation must find so that no data is left behind under an id. -/
structure RegistryOp.Clean (codec : Codec) (rm : RegistryManager) (op : RegistryOp) : Prop where
  ids : op.IdsFit codec rm.ids
  small : ∀ act ∈ (op.acts codec).head?, act.Small rm.ids
  names : ∀ name ∈ op.names, Name name
  columns : ∀ ns, (rm.base.activeOrEmpty.store ns).stride + op.names.length < 65536
  values : max rm.base.activeOrEmpty.valuePool.length 1 + op.names.length < 4294967296
  /-- Rate limit data is set for a tenant there is. -/
  target : ∀ t ∈ op.target, ∃ a, rm.base.aliasMap a = some t
  /-- A tenant that is deleted has no rate limit data left. -/
  unset : ∀ a, .drop a ∈ op.acts codec → ∀ t, rm.base.aliasMap a = some t → RatesUnset rm.rates t
  /-- A tenant does not lose its last alias to another one. -/
  kept : ∀ a ∈ (op.acts codec).flatMap moves, ∀ t, rm.base.aliasMap a = some t →
    ∃ c, c ∉ (op.acts codec).flatMap moves ∧ rm.base.aliasMap c = some t

/-- **An id that is no alias's has no data.** -/
structure Recycles (rm : RegistryManager) : Prop where
  small : rm.ids.Small
  rows : ∃ cols p, Tracks rm.base.activeOrEmpty cols p
    ∧ ∀ t, rm.base.Vacant t → BlankRow rm.base.activeOrEmpty cols t
  rates : ∀ t, rm.base.Vacant t → RatesUnset rm.rates t

section Step

variable {codec : Codec} {rm rm' : RegistryManager} {op : RegistryOp}

theorem step_small (h : rm.ids.Small) (hc : op.Clean codec rm)
    (hs : rm.step codec op = some rm') : rm'.ids.Small := by
  rw [step_ids hs]
  cases ha : op.acts codec with
  | nil => exact h
  | cons first rest =>
  have hh : first ∈ (op.acts codec).head? := by
    rw [ha]
    exact rfl
  exact (h.act (hc.ids first hh) (hc.small first hh)).mild (acts_mild ha).2

/-- A tenant that is there stays, unless it is deleted. -/
theorem step_live (hcl : op.Clean codec rm) (hd : ∀ act ∈ op.acts codec, ∀ a, act ≠ .drop a)
    (hs : rm.step codec op = some rm') {t : Nat} (hv : rm'.base.Vacant t) :
    rm.base.Vacant t := by
  intro a ha
  have hf : ∀ c, c ∉ (op.acts codec).flatMap moves → rm.base.aliasMap c ≠ some t := by
    intro c hc hct
    refine hv c ?_
    have := acts_frame hd hc (show rm.ids.aliasMap c = some t from hct)
    rw [← step_ids hs] at this
    exact this
  by_cases hm : a ∈ (op.acts codec).flatMap moves
  · obtain ⟨c, hc, hct⟩ := hcl.kept a hm t ha
    exact hf c hc hct
  · exact hf a hm ha

end Step

/-! ## Steps -/

section Recycle

variable {codec : Codec} {rm rm' : RegistryManager} {op : RegistryOp}

variable {a value rawKey : Bytes}

theorem RegistryManager.alloc_small (h : rm.ids.Small) (hfits : (create a).Fits rm.ids)
    (ha : rm.base.aliasMap a = none) :
    rm.base.allocTenant.1 < 65408 := by
  have hal := (h.alloc ha hfits).1
  rw [RegistryManager.ids, Manager.allocTenant_ids] at hal
  exact hal

theorem RatesUnset.ratesFor (h : RatesUnset rm.rates t) (a : Bytes) :
    RatesUnset (rm.ratesFor a) t := by
  rw [RegistryManager.ratesFor]
  split
  · exact h
  · exact h.grow _

section

variable (h : Recycles rm)
include h

/-- A step that deletes no tenant. -/
theorem Recycles.next (hs : rm'.ids.Small) (hl : ∀ t, rm'.base.Vacant t → rm.base.Vacant t)
    (hrw : ∀ cols p, Tracks rm.base.activeOrEmpty cols p →
      (∀ ns, (rm.base.activeOrEmpty.store ns).stride = (cols ns).length) →
      RowsKept rm.base cols rm'.base)
    (hr : ∀ t, rm.base.Vacant t → RatesUnset rm.rates t → RatesUnset rm'.rates t) :
    Recycles rm' := by
  obtain ⟨cols, p, htr, hb⟩ := h.rows
  obtain ⟨cols', p', htracks', hk⟩ := hrw cols p htr (fun ns => (htr.stores ns).keyed.stride)
  refine ⟨hs, ⟨cols', p', htracks', fun t ht => ?_⟩, fun t ht => ?_⟩
  · exact hk t ht (hb t (hl t ht))
  · exact hr t (hl t ht) (h.rates t (hl t ht))

/-- A step that changes rate limit data only. -/
theorem Recycles.quiet (hi : rm'.ids = rm.ids) (ha : rm'.base.activeOrEmpty = rm.base.activeOrEmpty)
    (hr : ∀ t, rm.base.Vacant t → RatesUnset rm.rates t → RatesUnset rm'.rates t) :
    Recycles rm' := by
  have hm : rm'.base.aliasMap = rm.base.aliasMap := congrArg Ids.aliasMap hi
  refine h.next (by rw [hi]; exact h.small) (fun t ht a => ?_)
    (fun cols p htr _ => RowsKept.refl htr ha) hr
  rw [← hm]
  exact ht a

theorem Recycles.nameConfig (name : Bytes) : Recycles (rm.nameConfig name) := by
  refine h.quiet (rm.nameConfig_ids name) ?_ ?_
  · rw [RegistryManager.nameConfig]
    split <;> rfl
  · intro t _ hu
    rw [RegistryManager.nameConfig]
    split <;> exact hu

theorem Recycles.upsertConfig (name : Bytes) : Recycles (rm.upsertNamedRateLimitConfig name) := by
  refine h.quiet (rm.upsertNamedRateLimitConfig_ids name) ?_ (fun t _ hu => hu)
  rw [RegistryManager.upsertNamedRateLimitConfig, RegistryManager.nameConfig]
  split <;> rfl

theorem Recycles.overrideByName (a configName : Bytes)
    (r : TenantV2OverrideRecord) : Recycles (rm.overrideByName a configName r) := by
  refine h.quiet (rm.overrideByName_ids a configName r) ?_ (fun t ht hu => ?_)
  · rw [RegistryManager.overrideByName]
    split <;> rfl
  rw [RegistryManager.overrideByName]
  split
  · rename_i ha _
    exact hu.upsertV2 (fun hut => ht a (hut ▸ ha)) _ _
  · exact hu

theorem Recycles.modifyByName (a : Bytes) (r : TenantModifierRecord) :
    Recycles (rm.modifyByName a r) := by
  refine h.quiet (rm.modifyByName_ids a r) ?_ (fun t ht hu => ?_)
  · rw [RegistryManager.modifyByName]
    split <;> rfl
  rw [RegistryManager.modifyByName]
  split
  · rename_i ha
    exact hu.setModifier (fun hut => ht a (hut ▸ ha)) _
  · exact hu

/-- A tenant is deleted. -/
theorem Recycles.deleteTenant (a : Bytes)
    (hun : ∀ t, rm.base.aliasMap a = some t → RatesUnset rm.rates t) :
    Recycles (rm.deleteTenant a) := by
  have hs : (rm.deleteTenant a).ids.Small := by
    rw [RegistryManager.deleteTenant_ids]
    exact h.small.act trivial trivial
  rw [RegistryManager.deleteTenant] at hs ⊢
  cases ha : rm.base.aliasMap a with
  | none => exact h
  | some t =>
  rw [ha] at hs
  have ht := h.small.1 a t ha
  obtain ⟨cols, p, htr, hbl⟩ := h.rows
  obtain ⟨hc, hr⟩ := htr.clear (show t < 65536 by omega)
  have hd : ∀ u, (rm.base.dropTenant t).Vacant u → u = t ∨ rm.base.Vacant u := by
    intro u hu
    by_cases hut : u = t
    · exact .inl hut
    · refine .inr (fun b hb => hu b ?_)
      show (if rm.base.aliasMap b = some t then none else rm.base.aliasMap b) = some u
      rw [if_neg (fun hbt => hut (some.inj (hb.symm.trans hbt))), hb]
  refine ⟨hs, ⟨cols, _, hc, fun u hu => ?_⟩, fun u hu => ?_⟩
  · exact hr u ((hd u hu).imp_right (hbl u))
  rcases hd u hu with hut | hv
  · rw [hut]
    exact hun t ha
  · exact h.rates u hv

end

/-- Only the first action can delete a tenant. -/
theorem no_drop (hh : ∀ a, (op.acts codec).head? ≠ some (.drop a)) :
    ∀ act ∈ op.acts codec, ∀ a, act ≠ .drop a := by
  intro act hac a hd
  cases ha : op.acts codec with
  | nil =>
    rw [ha] at hac
    exact absurd hac not_mem_nil
  | cons first rest =>
  rw [ha] at hac hh
  rcases mem_cons.mp hac with rfl | hr
  · exact hh a (congrArg some hd)
  · have hm := (acts_mild ha).2 act hr
    rw [hd] at hm
    exact hm

section

variable (h : Recycles rm) (hfits : (create a).Fits rm.ids)
include h hfits

/-- The tenant of an alias is resolved, and aliases are linked to it. -/
theorem Recycles.resolve {t : Nat} {base base' : Manager}
    (hr : resolveOrCreateTenant rm.base rm.base.activeOrEmpty a = some (t, base, reg))
    (hs : (rm.resolved a { base' with active := some reg }).ids.Small)
    (hl : ∀ t, Manager.Vacant { base' with active := some reg } t → rm.base.Vacant t) :
    Recycles (rm.resolved a { base' with active := some reg }) := by
  refine h.next hs hl (fun cols p ht _ => ?_) (fun t _ hu => hu.ratesFor a)
  obtain ⟨htracks', _, hbl⟩ := resolve_rows ht (RegistryManager.alloc_small h.small hfits) hr
  exact ⟨cols, p, htracks', fun u _ hb => hbl u hb⟩

theorem Recycles.addProp
    (hn : Name name) (hc : ∀ ns, (rm.base.activeOrEmpty.store ns).stride + 1 < 65536)
    (hv : max rm.base.activeOrEmpty.valuePool.length 1 + 1 < 4294967296)
    (hsm : rm'.ids.Small) (hl : ∀ t, rm'.base.Vacant t → rm.base.Vacant t)
    (hst : rm.addProp ns a name value = some rm') : Recycles rm' := by
  obtain ⟨base, hb, rfl⟩ := map_eq_some_iff.mp hst
  refine h.next hsm hl (fun cols p ht hs => ?_) (fun t _ hu => hu.ratesFor a)
  refine addProp_rows ht (RegistryManager.alloc_small h.small hfits) hn (fun ns => ?_)
    hv (hsm.1 a) hb
  rw [← hs ns]
  exact hc ns

theorem Recycles.upsert (hn : ∀ name ∈ (urls ++ ids ++ metadata).map Prod.fst, Name name)
    (hc : ∀ ns, (rm.base.activeOrEmpty.store ns).stride
      + ((urls ++ ids ++ metadata).map Prod.fst).length < 65536)
    (hv : max rm.base.activeOrEmpty.valuePool.length 1
      + ((urls ++ ids ++ metadata).map Prod.fst).length < 4294967296) (hsm : rm'.ids.Small)
    (hl : ∀ t, rm'.base.Vacant t → rm.base.Vacant t)
    (hst : rm.upsertTenantState (a :: more) urls ids metadata = some rm') : Recycles rm' := by
  obtain ⟨base, hb, rfl⟩ := map_eq_some_iff.mp hst
  refine h.next hsm hl (fun cols p ht hs => ?_) (fun t _ hu => hu.ratesFor a)
  refine upsertTenantState_rows ht (RegistryManager.alloc_small h.small hfits) hn
    (fun ns => ?_) hv (hsm.1 a) hb
  rw [← hs ns]
  exact hc ns

end

/-- The persisted id is reserved and given to its alias. -/
def RegistryManager.claimed (rm : RegistryManager) (a : Bytes) (id : Nat) : RegistryManager :=
  { rm with base := (rm.base.forceAssignTenantID id).seedAlias a id }

theorem RegistryManager.claimed_active (rm : RegistryManager) (a : Bytes) (id : Nat) :
    (rm.claimed a id).base.activeOrEmpty = rm.base.activeOrEmpty := by
  rw [RegistryManager.claimed, Manager.seedAlias]
  split <;> rfl

section

variable (h : Recycles rm)
include h

theorem Recycles.claim {id : Nat} (hfits : (claim a id).Fits rm.ids)
    (hid : (claim a id).Small rm.ids) :
    Recycles (rm.claimed a id) := by
  refine h.next ?_ (fun u hu c hc => hu c ?_)
    (fun cols p ht _ => RowsKept.refl ht (rm.claimed_active a id))
    (fun _ _ hun => hun)
  · rw [show (rm.claimed a id).ids = rm.ids.act (.claim a id) from
      (rm.base.claim_ids a id rm.nextTestTenantID).1]
    exact h.small.act hfits hid
  rw [RegistryManager.claimed, Manager.seedAlias]
  split
  · exact hc
  rename_i hn
  refine (if_neg (fun hca => ?_)).trans hc
  rw [hca] at hc
  exact absurd (hc.symm.trans hn) (by simp)

theorem Recycles.restoreTenant {t : TenantRecord} (hcn : (restoreTenant t).Clean codec rm)
    (hst : rm.restoreTenant t = some rm') : Recycles rm' := by
  have hs := step_small h.small hcn hst
  have hh : ∀ a, ((RegistryOp.restoreTenant t).acts codec).head? ≠ some (.drop a) := by
    intro a
    rw [acts]
    split
    · simp
    · split <;> simp
  have hl := fun u (hu : rm'.base.Vacant u) => step_live hcn (no_drop hh) hst hu
  have hi := hcn.ids
  have hsm := hcn.small
  rw [RegistryOp.IdsFit, acts] at hi
  rw [acts] at hsm
  rw [RegistryManager.restoreTenant] at hst
  cases ha : t.aliases with
  | nil =>
    rw [ha] at hst
    cases hst
    exact h
  | cons a more =>
  rw [ha] at hst hi hsm
  dsimp only at hst hi hsm
  by_cases hp : t.persistedID ≠ 0
  · rw [if_pos hp] at hst hi hsm
    obtain ⟨_, id, hid⟩ := rm.base.claim_ids a t.persistedID.toNat rm.nextTestTenantID
    have hcl := h.claim (hi _ rfl) (hsm _ rfl)
    have hstep' := hst
    obtain ⟨base, hb, rfl⟩ := map_eq_some_iff.mp hstep'
    refine hcl.upsert (fun hn => absurd (hid.symm.trans hn) (by simp)) hcn.names
      (fun ns => ?_) ?_ hs (fun u hu c hc => ?_) hst
    · rw [rm.claimed_active]
      exact hcn.columns ns
    · rw [rm.claimed_active]
      exact hcn.values
    -- the alias keeps the id it was given, and no other alias of the tenant goes
    by_cases hca : c = a
    · subst hca
      exact hu c ((upsertTenantState_ids hb 0).2 u hc)
    refine hl u hu c ?_
    rw [RegistryManager.claimed, Manager.seedAlias] at hc
    split at hc
    · exact hc
    · exact (if_neg hca).symm.trans hc
  · rw [if_neg hp] at hst hi hsm
    exact h.upsert (hi _ rfl) hcn.names hcn.columns hcn.values hs hl hst

theorem Recycles.applyStorePut (hcl : (applyStorePut rawKey value).Clean codec rm)
    (hst : rm.applyStorePut codec rawKey value = some rm') : Recycles rm' := by
  have hs := step_small h.small hcl hst
  have hl := fun hh u (hu : rm'.base.Vacant u) =>
    step_live hcl (no_drop hh) hst hu
  have hi := hcl.ids
  have hn := hcl.names
  have hc := hcl.columns
  have hv := hcl.values
  rw [RegistryOp.IdsFit] at hi
  rw [acts] at hi hl
  rw [names] at hn hc hv
  rw [RegistryManager.applyStorePut] at hst
  cases hk : parseKey rawKey with
  | none =>
    rw [hk] at hst
    cases hst
    exact h
  | some key =>
  rw [hk] at hst hi hl hn hc hv
  cases key with
  | aliases primary =>
    cases hvl : codec.aliases value with
    | none =>
      rw [hvl] at hst
      cases hst
      exact h
    | some aliases =>
    rw [hvl] at hst hi hl
    cases aliases with
    | nil =>
      cases hst
      exact h
    | cons first more =>
    dsimp only [RegistryManager.applyAliases] at hst
    split at hst
    · cases hst
    · rename_i t base reg hr
      cases hst
      exact h.resolve (hi _ rfl) hr hs (hl (fun _ h => by cases h))
  | prop ns primary name =>
    exact h.addProp (hi _ rfl) (hn name (mem_singleton_self _)) hc hv
      hs (hl (fun _ h => by cases h)) hst
  | v2Override a configName =>
    dsimp only at hst
    split at hst
    · cases hst
      exact h
    · cases hst
      exact h.overrideByName a configName _
  | modifier a =>
    dsimp only at hst
    split at hst
    · cases hst
      exact h
    · cases hst
      exact h.modifyByName a _
  | rateLimit name =>
    dsimp only at hst
    split at hst
    · cases hst
      exact h
    · cases hst
      exact h.upsertConfig name

theorem Recycles.zeroProp (hs : rm.zeroProp ns primary key = some rm') : Recycles rm' := by
  have hi := RegistryManager.zeroProp_ids hs
  rw [RegistryManager.zeroProp] at hs
  split at hs
  · cases hs
    exact h
  rename_i t ha
  have ht := h.small.1 primary t ha
  dsimp only at hs
  split at hs
  · cases hs
  · cases hs
    exact h
  rename_i k hf
  split at hs
  · rename_i hin
    cases hs
    exact h.next (by rw [hi]; exact h.small) (fun u hu => hu)
      (fun cols p htr _ => zeroCell_rows htr (by omega) (htr.found hf) hin)
      (fun _ _ hun => hun)
  · cases hs

theorem Recycles.applyStoreDelete (hc : (applyStoreDelete rawKey).Clean codec rm)
    (hs : rm.applyStoreDelete rawKey = some rm') : Recycles rm' := by
  have hun := hc.unset
  rw [acts] at hun
  rw [RegistryManager.applyStoreDelete] at hs
  cases hk : parseKey rawKey with
  | none =>
    rw [hk] at hs
    cases hs
    exact h
  | some key =>
  rw [hk] at hs hun
  cases key with
  | aliases primary =>
    cases hs
    exact h.deleteTenant primary (hun primary (mem_singleton_self _))
  | prop ns primary name => exact h.zeroProp hs
  | v2Override a configName =>
    dsimp only at hs
    split at hs
    · cases hs
      exact h.quiet rfl rfl (fun t _ hu => hu.deleteV2 _ _)
    · cases hs
      exact h
  | modifier a =>
    dsimp only at hs
    split at hs
    · cases hs
      exact h
    split at hs
    · cases hs
      exact h.quiet rfl rfl (fun t _ hu => hu.clearModifier _)
    · cases hs
      exact h
  | rateLimit name =>
    dsimp only at hs
    split at hs
    · cases hs
      exact h
    · cases hs
      exact h.quiet rfl rfl (fun t _ hu => hu)

/-- **Every clean step leaves nothing under an id that is no alias's.** -/
theorem Recycles.step (hcl : op.Clean codec rm)
    (hsp : rm.step codec op = some rm') : Recycles rm' := by
  have hs := step_small h.small hcl hsp
  have hl := fun hh u (hu : rm'.base.Vacant u) =>
    step_live hcl (no_drop hh) hsp hu
  -- data set by id is set for a tenant that is there
  have htg : ∀ t u, op.target = some u → rm.base.Vacant t → u ≠ t := by
    intro t u hu ht hut
    obtain ⟨a, ha⟩ := hcl.target u hu
    exact ht a (hut ▸ ha)
  cases op with
  | add ns a name value =>
    exact h.addProp (hcl.ids _ rfl) (hcl.names name (mem_singleton_self _))
      hcl.columns hcl.values hs (hl (fun _ h => by cases h)) hsp
  | delete ns a name =>
    obtain ⟨base, hbs, rfl⟩ := map_eq_some_iff.mp hsp
    exact h.next hs (hl (fun _ h => by cases h))
      (fun cols p htr _ => deleteProp_rows htr (h.small.1 a) hbs) (fun _ _ hu => hu)
  | upsert aliases urls ids metadata =>
    cases aliases with
    | nil =>
      cases hsp
      exact h
    | cons a more =>
      exact h.upsert (hcl.ids _ rfl) hcl.names hcl.columns hcl.values hs
        (hl (fun _ h => by cases h)) hsp
  | ensure ns key =>
    obtain ⟨r, hr, rfl⟩ := map_eq_some_iff.mp hsp
    refine h.next hs (hl (fun _ h => by cases h)) (fun cols p htr hst => ?_) (fun _ _ hu => hu)
    have hf := hcl.columns ns
    rw [hst ns] at hf
    obtain ⟨reg, k, hrs, htracks', _, _, _, _, _, _, hbl⟩ :=
      resolve_spec htr (hcl.names key (mem_singleton_self _)) hf
    rw [ensureKeyID, hrs] at hr
    cases hr
    exact ⟨_, _, htracks', fun t _ hb => hbl t hb⟩
  | addAlias a b =>
    rw [RegistryManager.step, RegistryManager.addAlias] at hsp
    split at hsp
    · cases hsp
    · rename_i t base reg hres
      cases hsp
      exact h.resolve (hcl.ids _ rfl) hres hs (hl (fun _ h => by cases h))
  | deleteTenant a =>
    cases hsp
    exact h.deleteTenant a (hcl.unset a (mem_singleton_self _))
  | registerTestTenant runID =>
    obtain ⟨reg, hrg, rfl⟩ := map_eq_some_iff.mp hsp
    refine h.next hs (hl (fun _ h => by cases h)) (fun cols p htr _ => ?_)
      (fun t _ hun => hun.grow _)
    obtain ⟨reg', hg, htracks', _, _, _, hc⟩ :=
      growFor_spec htr (show rm.testTenantID < 65408 from hcl.small _ rfl)
    rw [hg] at hrg
    cases hrg
    refine ⟨cols, p, htracks', fun u _ hb ns i hi => ?_⟩
    rw [show Manager.activeOrEmpty _ = reg from rfl, hc ns u i hi]
    exact hb ns i hi
  | deleteTestTenant runID =>
    cases hsp
    exact h.deleteTenant _ (hcl.unset _ (mem_singleton_self _))
  | setModifier tenantID mod =>
    cases hsp
    exact h.quiet rfl rfl (fun t ht hu => hu.setModifier (htg t _ rfl ht) mod)
  | upsertRateLimit tenantID policyID entry =>
    cases hsp
    exact h.quiet rfl rfl (fun t ht hu => hu.upsertRateLimit (htg t _ rfl ht) _ entry)
  | upsertV2 tenantID configID entry =>
    cases hsp
    exact h.quiet rfl rfl (fun t ht hu => hu.upsertV2 (htg t _ rfl ht) _ entry)
  | deleteV2 tenantID configID =>
    cases hsp
    exact h.quiet rfl rfl (fun t _ hu => hu.deleteV2 _ _)
  | upsertConfig name =>
    cases hsp
    exact h.upsertConfig name
  | ensureConfig name =>
    cases hsp
    exact h.nameConfig name
  | restoreTenant t => exact h.restoreTenant hcl hsp
  | restoreOverride a configName r =>
    cases hsp
    exact h.overrideByName a configName r
  | restoreModifier a r =>
    cases hsp
    exact h.modifyByName a r
  | applyStorePut rawKey value => exact h.applyStorePut hcl hsp
  | applyStoreDelete rawKey => exact h.applyStoreDelete hcl hsp

end

end Recycle

end Rah.Registry
