import Rah.Registry.Tenants
import Rah.Lib.Naming
import Rah.Lib.Run

/-!
# Tenants have ids of their own

What the operations do to ids alone: each is a short list of actions on the map of aliases, the
counter, the free list and the test range (`RegistryOp.acts`, `step_ids`). Beside them runs the
roster, which gives every tenant that is created a number never used before and says whose each
alias is. Ids tell tenants apart as long as no action hands out an id that is in use.
-/

namespace Rah.Registry

open Rah.Lib List Option Function RegistryOp
open Manager (linkNew seedAlias)

/-! ## Actions on ids -/

/-- The part of the manager that ids come from. -/
structure Ids where
  aliasMap : Bytes → Option Nat
  nextAvailableTenantID : Nat
  freeSlots : List Nat
  nextTestTenantID : Nat

def Manager.ids (s : Manager) (test : Nat) : Ids :=
  { aliasMap := s.aliasMap, nextAvailableTenantID := s.nextAvailableTenantID,
    freeSlots := s.freeSlots, nextTestTenantID := test }

def RegistryManager.ids (rm : RegistryManager) : Ids := rm.base.ids rm.nextTestTenantID

def Ids.setAlias (s : Ids) (a : Bytes) (t : Nat) : Ids :=
  { s with aliasMap := Function.update s.aliasMap a (some t) }

/-- The next test tenant gets this id. -/
def Ids.testID (s : Ids) : Nat :=
  if s.nextTestTenantID = 0 then testTenantRangeStart else s.nextTestTenantID

inductive IdAct where
  /-- The alias gets a tenant, unless it has one. -/
  | create (a : Bytes)
  /-- The first alias becomes one of the second one's tenant. -/
  | link (a b : Bytes)
  /-- The same, unless it has a tenant. -/
  | linkNew (a b : Bytes)
  /-- The alias's tenant goes. -/
  | drop (a : Bytes)
  | test (a : Bytes)
  /-- The id is reserved, and the alias gets it unless it has a tenant. -/
  | claim (a : Bytes) (id : Nat)

/-- The id is taken from the free list or the counter. -/
def Ids.alloc (s : Ids) : Nat × Ids :=
  match s.freeSlots.getLast? with
  | some t => (t, { s with freeSlots := s.freeSlots.dropLast })
  | none => (uint16 s.nextAvailableTenantID,
      { s with nextAvailableTenantID := uint32 (s.nextAvailableTenantID + 1) })

def Ids.reserve (s : Ids) (id : Nat) : Ids :=
  { s with
    nextAvailableTenantID := max s.nextAvailableTenantID (id + 1)
    freeSlots := s.freeSlots.erase id }

def Ids.act (s : Ids) : IdAct → Ids
  | .create a =>
    match s.aliasMap a with
    | some _ => s
    | none => s.alloc.2.setAlias a s.alloc.1
  | .link a b =>
    match s.aliasMap b with
    | some t => s.setAlias a t
    | none => s
  | .linkNew a b =>
    match s.aliasMap a, s.aliasMap b with
    | none, some t => s.setAlias a t
    | _, _ => s
  | .drop a =>
    match s.aliasMap a with
    | none => s
    | some t =>
      { s with
        aliasMap := fun b => if s.aliasMap b = some t then none else s.aliasMap b
        freeSlots := s.freeSlots ++ [t] }
  | .test a =>
    { s.setAlias a s.testID with
      nextTestTenantID := if s.testID ≥ testTenantRangeEnd then testTenantRangeStart
        else s.testID + 1 }
  | .claim a id =>
    match s.aliasMap a with
    | some _ => s.reserve id
    | none => (s.reserve id).setAlias a id

def linkAll (aliases : List Bytes) (first : Bytes) : List IdAct := aliases.map (.link · first)

/-- The aliases of a record from the datastore. -/
def aliasActs (primary : Bytes) : List Bytes → List IdAct
  | [] => []
  | _ :: more => .create primary :: more.map (.linkNew · primary)

/-- What an operation does to ids. -/
def RegistryOp.acts (codec : Codec) : RegistryOp → List IdAct
  | .add _ a _ _ => [.create a]
  | .upsert [] _ _ _ => []
  | .upsert (a :: more) _ _ _ => .create a :: linkAll more a
  | .addAlias a b => [.create a, .link b a]
  | .deleteTenant a => [.drop a]
  | .registerTestTenant runID => [.test (testAlias runID)]
  | .deleteTestTenant runID => [.drop (testAlias runID)]
  | .restoreTenant t =>
    match t.aliases with
    | [] => []
    | a :: more =>
      (if t.persistedID ≠ 0 then .claim a t.persistedID.toNat else .create a) :: linkAll more a
  | .applyStorePut rawKey value =>
    match parseKey rawKey with
    | some (.aliases primary) =>
      match codec.aliases value with
      | some aliases => aliasActs primary aliases
      | none => []
    | some (.prop _ primary _) => [.create primary]
    | _ => []
  | .applyStoreDelete rawKey =>
    match parseKey rawKey with
    | some (.aliases primary) => [.drop primary]
    | _ => []
  | _ => []

theorem Manager.setAlias_ids (s : Manager) (a : Bytes) (t test : Nat) :
    (s.setAlias a t).ids test = (s.ids test).setAlias a t := by
  rw [Manager.ids]
  congr 1
  funext b
  rw [update_apply]
  rfl

theorem Manager.allocTenant_ids (s : Manager) (test : Nat) :
    (s.ids test).alloc = (s.allocTenant.1, s.allocTenant.2.ids test) := by
  rw [Manager.allocTenant]
  show (match s.freeSlots.getLast? with | some t => _ | none => _) = _
  cases s.freeSlots.getLast? with
  | none | some t => rfl

variable {s s' : Manager} {a name primary : Bytes} {t : Nat} {ns : Namespace}
  {rm rm' : RegistryManager} {codec : Codec} {op : RegistryOp}

/-- Resolving or creating a tenant is the action `create`. -/
theorem resolveOrCreateTenant_ids (h : resolveOrCreateTenant s reg a = some (t, s', reg'))
    (test : Nat) : s'.ids test = (s.ids test).act (.create a) ∧ s'.aliasMap a = some t := by
  rw [resolveOrCreateTenant] at h
  rw [Ids.act, show (s.ids test).aliasMap a = s.aliasMap a from rfl]
  cases ha : s.aliasMap a with
  | some id =>
    rw [ha] at h
    cases h
    exact ⟨rfl, ha⟩
  | none =>
  rw [ha] at h
  dsimp only at h ⊢
  have hs : s' = s.allocTenant.2.setAlias a s.allocTenant.1 ∧ t = s.allocTenant.1 := by
    split at h
    · split at h
      · cases h
        exact ⟨rfl, rfl⟩
      · cases h
    · cases h
      exact ⟨rfl, rfl⟩
  obtain ⟨rfl, rfl⟩ := hs
  rw [Manager.setAlias_ids, Manager.allocTenant_ids]
  exact ⟨rfl, if_pos rfl⟩

theorem Manager.setAlias_same (ha : s.aliasMap a = some t)
    (b : Bytes) : (s.setAlias b t).aliasMap a = some t := by
  show (if a = b then some t else s.aliasMap a) = some t
  rw [ha, ite_self]

theorem Manager.linkNew_same (ha : s.aliasMap a = some t)
    (b : Bytes) : (s.linkNew t b).aliasMap a = some t := by
  rw [linkNew, seedAlias]
  cases s.aliasMap b with
  | some _ => exact ha
  | none => exact s.setAlias_same ha b

/-- Further aliases of a tenant are links to its first one, which it keeps. -/
theorem linkAll_ids (test : Nat) : ∀ (more : List Bytes) {s : Manager}, s.aliasMap a = some t →
      (more.foldl (fun s b => s.setAlias b t) s).ids test
          = (linkAll more a).foldl Ids.act (s.ids test)
        ∧ (more.foldl (fun s b => s.setAlias b t) s).aliasMap a = some t
  | [], _, ha => ⟨rfl, ha⟩
  | b :: more, s, ha => by
    have hac : (s.ids test).act (.link b a) = (s.setAlias b t).ids test := by
      rw [Ids.act, show (s.ids test).aliasMap a = some t from ha, Manager.setAlias_ids]
    obtain ⟨hi, hs⟩ := linkAll_ids test more (s.setAlias_same ha b)
    rw [foldl_cons, hi, ← hac]
    exact ⟨rfl, hs⟩

theorem linkNew_ids (test : Nat) : ∀ (more : List Bytes) {s : Manager}, s.aliasMap a = some t →
      (more.foldl (linkNew t) s).ids test
          = (more.map (IdAct.linkNew · a)).foldl Ids.act (s.ids test)
        ∧ (more.foldl (linkNew t) s).aliasMap a = some t
  | [], _, ha => ⟨rfl, ha⟩
  | b :: more, s, ha => by
    have hac : (s.ids test).act (.linkNew b a) = (s.linkNew t b).ids test := by
      rw [Ids.act, show (s.ids test).aliasMap a = some t from ha,
        show (s.ids test).aliasMap b = s.aliasMap b from rfl, linkNew, seedAlias]
      cases s.aliasMap b with
      | some _ => rfl
      | none => rw [Manager.setAlias_ids]
    obtain ⟨hi, hs⟩ := linkNew_ids test more (s.linkNew_same ha b)
    rw [foldl_cons, hi, ← hac]
    exact ⟨rfl, hs⟩

theorem addProp_ids (h : addProp ns s a name value = some s') (test : Nat) :
    s'.ids test = (s.ids test).act (.create a) := by
  rw [addProp] at h
  split at h
  · cases h
  · rename_i hr
    obtain ⟨reg', _, rfl⟩ := map_eq_some_iff.mp h
    exact (resolveOrCreateTenant_ids hr test).1

/-- The first alias keeps the tenant it has. -/
theorem upsertTenantState_ids (h : upsertTenantState s (a :: more) urls ids metadata = some s')
    (test : Nat) :
    s'.ids test = (linkAll more a).foldl Ids.act ((s.ids test).act (.create a))
      ∧ ∀ t, s.aliasMap a = some t → s'.aliasMap a = some t := by
  rw [upsertTenantState] at h
  split at h
  · cases h
  rename_i t s1 reg hr
  obtain ⟨hi, ha⟩ := resolveOrCreateTenant_ids hr test
  obtain ⟨hl, hs⟩ := linkAll_ids test more ha
  rw [← hi, ← hl]
  split at h
  · cases h
  split at h
  · cases h
  obtain ⟨reg', _, rfl⟩ := map_eq_some_iff.mp h
  refine ⟨rfl, fun u hu => ?_⟩
  rw [resolveOrCreateTenant, hu] at hr
  cases hr
  exact hs

theorem deleteProp_ids (h : deleteProp ns s a name = some s')
    (test : Nat) : s'.ids test = s.ids test := by
  rw [deleteProp] at h
  split at h
  · cases h
    rfl
  dsimp only at h
  split at h
  · cases h
  · cases h
    rfl
  · cases h
    rfl

theorem RegistryManager.deleteTenant_ids (rm : RegistryManager) (a : Bytes) :
    (rm.deleteTenant a).ids = rm.ids.act (.drop a) := by
  rw [RegistryManager.deleteTenant, Ids.act, show rm.ids.aliasMap a = rm.base.aliasMap a from rfl]
  cases rm.base.aliasMap a with
  | none | some t => rfl

theorem Manager.claim_ids (s : Manager) (a : Bytes) (id test : Nat) :
    ((s.forceAssignTenantID id).seedAlias a id).ids test = (s.ids test).act (.claim a id)
      ∧ ∃ t, ((s.forceAssignTenantID id).seedAlias a id).aliasMap a = some t := by
  rw [Ids.act, seedAlias, show (s.ids test).aliasMap a = s.aliasMap a from rfl,
    show (s.forceAssignTenantID id).aliasMap a = s.aliasMap a from rfl]
  cases ha : s.aliasMap a with
  | some t => exact ⟨rfl, t, ha⟩
  | none =>
    rw [Manager.setAlias_ids]
    exact ⟨rfl, id, if_pos rfl⟩

theorem RegistryManager.upsertTenantState_ids {more : List Bytes}
    {urls ids metadata : List (Bytes × Bytes)}
    (h : rm.upsertTenantState (a :: more) urls ids metadata = some rm') :
    rm'.ids = (linkAll more a).foldl Ids.act (rm.ids.act (.create a)) := by
  obtain ⟨base, hb, rfl⟩ := map_eq_some_iff.mp h
  exact (Registry.upsertTenantState_ids hb rm.nextTestTenantID).1

theorem RegistryManager.restoreTenant_ids {t : TenantRecord} (codec : Codec)
    (h : rm.restoreTenant t = some rm') :
    rm'.ids = ((RegistryOp.restoreTenant t).acts codec).foldl Ids.act rm.ids := by
  rw [RegistryManager.restoreTenant] at h
  rw [RegistryOp.acts]
  cases ha : t.aliases with
  | nil =>
    rw [ha] at h
    cases h
    rfl
  | cons a more =>
  rw [ha] at h
  have hi := RegistryManager.upsertTenantState_ids h
  rw [hi, foldl_cons]
  by_cases hp : t.persistedID ≠ 0
  · rw [if_pos hp, if_pos hp]
    obtain ⟨hc, id, hid⟩ := rm.base.claim_ids a t.persistedID.toNat rm.nextTestTenantID
    -- the alias is known by now
    have hcr : (rm.ids.act (.claim a t.persistedID.toNat)).act (.create a)
        = rm.ids.act (.claim a t.persistedID.toNat) := by
      rw [RegistryManager.ids, ← hc]
      rw [Ids.act, show Ids.aliasMap _ a = some id from hid]
    refine congrArg (foldl Ids.act · (linkAll more a)) (Eq.trans ?_ hcr)
    exact congrArg (Ids.act · (.create a)) hc
  · rw [if_neg hp, if_neg hp]

theorem RegistryManager.applyAliases_ids (h : rm.applyAliases primary aliases = some rm') :
    rm'.ids = (aliasActs primary aliases).foldl Ids.act rm.ids := by
  cases aliases with
  | nil =>
    cases h
    rfl
  | cons _ more =>
  rw [RegistryManager.applyAliases] at h
  split at h
  · cases h
  rename_i t base reg hr
  obtain ⟨hi, ha⟩ := resolveOrCreateTenant_ids hr rm.nextTestTenantID
  cases h
  exact (linkNew_ids rm.nextTestTenantID more ha).1.trans (by rw [hi]; rfl)

theorem RegistryManager.zeroProp_ids (h : rm.zeroProp ns primary key = some rm') :
    rm'.ids = rm.ids := by
  rw [RegistryManager.zeroProp] at h
  split at h
  · cases h
    rfl
  dsimp only at h
  split at h
  · cases h
  · cases h
    rfl
  split at h
  · cases h
    rfl
  · cases h

theorem RegistryManager.overrideByName_ids (rm : RegistryManager) (a configName : Bytes)
    (r : TenantV2OverrideRecord) : (rm.overrideByName a configName r).ids = rm.ids := by
  rw [RegistryManager.overrideByName]
  split <;> rfl

theorem RegistryManager.modifyByName_ids (rm : RegistryManager) (a : Bytes)
    (r : TenantModifierRecord) : (rm.modifyByName a r).ids = rm.ids := by
  rw [RegistryManager.modifyByName]
  split <;> rfl

theorem RegistryManager.nameConfig_ids (rm : RegistryManager) (name : Bytes) :
    (rm.nameConfig name).ids = rm.ids := by
  rw [RegistryManager.nameConfig]
  split <;> rfl

theorem RegistryManager.upsertNamedRateLimitConfig_ids (rm : RegistryManager) (name : Bytes) :
    (rm.upsertNamedRateLimitConfig name).ids = rm.ids :=
  rm.nameConfig_ids name

theorem RegistryManager.addAlias_ids (codec : Codec) (h : rm.addAlias a b = some rm') :
    rm'.ids = ((RegistryOp.addAlias a b).acts codec).foldl Ids.act rm.ids := by
  rw [RegistryManager.addAlias] at h
  split at h
  · cases h
  rename_i t base reg hrs
  obtain ⟨hi, ha⟩ := resolveOrCreateTenant_ids hrs rm.nextTestTenantID
  cases h
  exact (linkAll_ids rm.nextTestTenantID [b] ha).1.trans (by rw [hi]; rfl)

theorem RegistryManager.registerTestTenant_ids (codec : Codec)
    (h : rm.registerTestTenant runID = some rm') :
    rm'.ids = ((RegistryOp.registerTestTenant runID).acts codec).foldl Ids.act rm.ids := by
  obtain ⟨reg, _, rfl⟩ := map_eq_some_iff.mp h
  have hs := rm.base.setAlias_ids (testAlias runID) rm.testTenantID rm.nextTestTenantID
  show Ids.mk _ _ _ _ = _
  rw [show (rm.base.setAlias (testAlias runID) rm.testTenantID).aliasMap = _ from
    congrArg Ids.aliasMap hs]
  rfl

/-- A replicated write: the entry of a tenant's aliases and its properties touch ids, the entries of
limits do not. -/
theorem RegistryManager.applyStorePut_ids (h : rm.applyStorePut codec rawKey value = some rm') :
    rm'.ids = ((RegistryOp.applyStorePut rawKey value).acts codec).foldl Ids.act rm.ids := by
  rw [RegistryManager.applyStorePut] at h
  rw [acts]
  cases hk : parseKey rawKey with
  | none =>
    rw [hk] at h
    cases h
    rfl
  | some key =>
  rw [hk] at h
  cases key with
  | aliases primary =>
    cases hv : codec.aliases value with
    | none =>
      rw [hv] at h
      cases h
      rfl
    | some aliases =>
      rw [hv] at h
      exact RegistryManager.applyAliases_ids h
  | prop ns primary name =>
    obtain ⟨base, hb, rfl⟩ := map_eq_some_iff.mp h
    exact addProp_ids hb rm.nextTestTenantID
  | v2Override a configName =>
    dsimp only at h ⊢
    split at h
    · cases h
      rfl
    · cases h
      exact rm.overrideByName_ids a configName _
  | modifier a =>
    dsimp only at h ⊢
    split at h
    · cases h
      rfl
    · cases h
      exact rm.modifyByName_ids a _
  | rateLimit name =>
    dsimp only at h ⊢
    split at h
    · cases h
      rfl
    · cases h
      exact rm.upsertNamedRateLimitConfig_ids name

/-- A replicated delete drops the tenant whose aliases it names, and touches no other id. -/
theorem RegistryManager.applyStoreDelete_ids (codec : Codec)
    (h : rm.applyStoreDelete rawKey = some rm') :
    rm'.ids = ((RegistryOp.applyStoreDelete rawKey).acts codec).foldl Ids.act rm.ids := by
  rw [RegistryManager.applyStoreDelete] at h
  rw [acts]
  cases hk : parseKey rawKey with
  | none =>
    rw [hk] at h
    cases h
    rfl
  | some key =>
  rw [hk] at h
  cases key with
  | aliases primary =>
    cases h
    exact rm.deleteTenant_ids primary
  | prop ns primary name => exact RegistryManager.zeroProp_ids h
  | v2Override a configName | rateLimit name =>
    dsimp only at h
    split at h <;> cases h <;> rfl
  | modifier a =>
    dsimp only at h
    split at h
    · cases h
      rfl
    · split at h <;> cases h <;> rfl

/-- **What a step does to ids**: it plays the acts that its operation stands for, one after the
other. -/
theorem step_ids
    (h : rm.step codec op = some rm') : rm'.ids = (op.acts codec).foldl Ids.act rm.ids := by
  cases op with
  | add ns a name value =>
    obtain ⟨base, hb, rfl⟩ := map_eq_some_iff.mp h
    exact addProp_ids hb rm.nextTestTenantID
  | delete ns a name =>
    obtain ⟨base, hb, rfl⟩ := map_eq_some_iff.mp h
    exact deleteProp_ids hb rm.nextTestTenantID
  | upsert aliases urls ids metadata =>
    cases aliases with
    | nil =>
      cases h
      rfl
    | cons a more => exact RegistryManager.upsertTenantState_ids h
  | ensure ns key =>
    obtain ⟨r, hr, rfl⟩ := map_eq_some_iff.mp h
    obtain ⟨r', _, rfl⟩ := map_eq_some_iff.mp hr
    rfl
  | addAlias a b => exact RegistryManager.addAlias_ids codec h
  | deleteTenant a =>
    cases h
    exact rm.deleteTenant_ids a
  | registerTestTenant runID => exact RegistryManager.registerTestTenant_ids codec h
  | deleteTestTenant runID =>
    cases h
    exact rm.deleteTenant_ids _
  | restoreTenant t => exact RegistryManager.restoreTenant_ids codec h
  | restoreOverride a configName r =>
    cases h
    exact rm.overrideByName_ids a configName r
  | restoreModifier a r =>
    cases h
    exact rm.modifyByName_ids a r
  | ensureConfig name =>
    cases h
    exact rm.nameConfig_ids name
  | upsertConfig name =>
    cases h
    exact rm.upsertNamedRateLimitConfig_ids name
  | applyStorePut rawKey value => exact RegistryManager.applyStorePut_ids h
  | applyStoreDelete rawKey => exact RegistryManager.applyStoreDelete_ids codec h
  | setModifier | upsertRateLimit | upsertV2 | deleteV2 =>
    cases h
    rfl

/-! ## The roster -/

/-- Whose each alias is: tenants are numbered as they are created. -/
structure Roster where
  owner : Bytes → Nat
  created : Nat

def Roster.empty : Roster := { owner := fun _ => 0, created := 0 }

/-- The alias is a new tenant's. -/
def Roster.enter (r : Roster) (a : Bytes) : Roster :=
  { owner := Function.update r.owner a r.created, created := r.created + 1 }

def Roster.link (r : Roster) (a b : Bytes) : Roster :=
  { r with owner := Function.update r.owner a (r.owner b) }

/-- What an action means for the roster. -/
def Roster.act (r : Roster) (s : Ids) : IdAct → Roster
  | .create a => if s.aliasMap a = none then r.enter a else r
  | .link a b => if s.aliasMap b = none then r else r.link a b
  | .linkNew a b => if s.aliasMap a = none ∧ s.aliasMap b ≠ none then r.link a b else r
  | .drop _ => r
  | .test a => r.enter a
  | .claim a _ => if s.aliasMap a = none then r.enter a else r

def track (p : Ids × Roster) (act : IdAct) : Ids × Roster := (p.1.act act, p.2.act p.1 act)

theorem track_foldl_fst (acts : List IdAct) (s : Ids) (r : Roster) :
    (acts.foldl track (s, r)).1 = acts.foldl Ids.act s := by
  induction acts generalizing s r with
  | nil => rfl
  | cons act acts ih => exact ih _ _

/-! ## The invariant -/

/-- The id was handed out, or may be by the test range. -/
def Ids.Used (s : Ids) (t : Nat) : Prop :=
  t ≠ 0 ∧ (t < s.nextAvailableTenantID ∨ testTenantRangeStart ≤ t)

structure IdsInv (p : Ids × Roster) : Prop where
  apart : TellsApart p.1.aliasMap p.2.owner
  entered : ∀ a t, p.1.aliasMap a = some t → p.2.owner a < p.2.created
  live : ∀ a t, p.1.aliasMap a = some t → p.1.Used t ∧ t ∉ p.1.freeSlots
  free : ∀ t ∈ p.1.freeSlots, p.1.Used t
  nodup : p.1.freeSlots.Nodup
  next : 1 ≤ p.1.nextAvailableTenantID
  test : p.1.nextTestTenantID = 0 ∨ testTenantRangeStart ≤ p.1.nextTestTenantID

/-- The id an action hands out is not in use: the counter is below the test range, the next test
id is neither an alias's nor free, and a persisted id is no alias's. -/
def IdAct.Fits (s : Ids) : IdAct → Prop
  | .create a => s.aliasMap a = none → s.freeSlots = [] →
      s.nextAvailableTenantID < testTenantRangeStart
  | .test _ => s.testID ∉ s.freeSlots ∧ ∀ b, s.aliasMap b ≠ some s.testID
  | .claim a id => s.aliasMap a = none → ∀ b, s.aliasMap b ≠ some id
  | _ => True

def IdAct.WellFormed : IdAct → Prop
  | .claim _ id => id ≠ 0
  | _ => True

section Inv

variable {s : Ids} {r : Roster}

section

variable (h : IdsInv (s, r))
include h

/-- An alias gets an id that is neither in use nor free. -/
theorem IdsInv.assign {s' : Ids} {a : Bytes} (hm : s'.aliasMap = update s.aliasMap a (some t))
    (hnw : ∀ b, b ≠ a → s.aliasMap b ≠ some t) (hus : ∀ u, s.Used u → s'.Used u) (ht : s'.Used t)
    (hf : ∀ u ∈ s'.freeSlots, u ∈ s.freeSlots) (hnt : t ∉ s'.freeSlots)
    (hnd : s'.freeSlots.Nodup) (hnx : 1 ≤ s'.nextAvailableTenantID)
    (hts : s'.nextTestTenantID = 0 ∨ testTenantRangeStart ≤ s'.nextTestTenantID) :
    IdsInv (s', r.enter a) := by
  refine ⟨?_, ?_, ?_, fun u hu => hus u (h.free u (hf u hu)), hnd, hnx, hts⟩
  · rw [hm]
    exact h.apart.assign hnw (fun b j hb => Nat.ne_of_lt (h.entered b j hb))
  · intro b u hb
    show update r.owner a r.created b < r.created + 1
    obtain ⟨rfl, -⟩ | ⟨hba, hb⟩ := update_eq_some (hm ▸ hb)
    · rw [update_self]
      omega
    · rw [update_of_ne hba]
      exact Nat.lt_succ_of_lt (h.entered b u hb)
  · intro b u hb
    obtain ⟨rfl, ⟨⟩⟩ | ⟨-, hb⟩ := update_eq_some (hm ▸ hb)
    · exact ⟨ht, hnt⟩
    · obtain ⟨hu, hn⟩ := h.live b u hb
      exact ⟨hus u hu, fun hmm => hn (hf u hmm)⟩

theorem IdsInv.link (a : Bytes) (hb : s.aliasMap b = some t) :
    IdsInv (s.setAlias a t, r.link a b) := by
  have hbc : ∀ c u, (s.setAlias a t).aliasMap c = some u →
      ∃ d, s.aliasMap d = some u ∧ (r.link a b).owner c = r.owner d := by
    intro c u hc
    obtain ⟨rfl, ⟨⟩⟩ | ⟨hca, hc⟩ := update_eq_some hc
    · exact ⟨b, hb, update_self ..⟩
    · exact ⟨c, hc, update_of_ne hca ..⟩
  refine ⟨h.apart.link a hb, fun c u hc => ?_, fun c u hc => ?_, h.free, h.nodup, h.next, h.test⟩
  · obtain ⟨d, hd, ho⟩ := hbc c u hc
    rw [ho]
    exact h.entered d u hd
  · obtain ⟨d, hd, _⟩ := hbc c u hc
    exact h.live d u hd

/-- The id a new tenant gets is no alias's, for free ids are none, and the counter has passed all
others below the test range. -/
theorem IdsInv.alloc_vacant (ha : s.aliasMap a = none)
    (hf : (IdAct.create a).Fits s) (b : Bytes) : s.aliasMap b ≠ some s.alloc.1 := by
  have hr : testTenantRangeStart = 61440 := rfl
  intro hb
  rw [Ids.alloc] at hb
  cases hl : s.freeSlots.getLast? with
  | some t =>
    rw [hl] at hb
    exact (h.live b t hb).2 (mem_of_getLast? hl)
  | none =>
  rw [hl] at hb
  have hlt := hf ha (getLast?_eq_none_iff.mp hl)
  have h16 : uint16 s.nextAvailableTenantID = s.nextAvailableTenantID := Nat.mod_eq_of_lt (by omega)
  obtain ⟨_, hu⟩ := (h.live b _ hb).1
  dsimp only at hu
  omega

theorem IdsInv.create (ha : s.aliasMap a = none)
    (hf : (IdAct.create a).Fits s) : IdsInv (s.alloc.2.setAlias a s.alloc.1, r.enter a) := by
  have hr : testTenantRangeStart = 61440 := rfl
  have hv := h.alloc_vacant ha hf
  rw [Ids.alloc] at hv ⊢
  cases hl : s.freeSlots.getLast? with
  | some t =>
    rw [hl] at hv
    have hm : t ∈ s.freeSlots := mem_of_getLast? hl
    have hn := h.nodup
    rw [← dropLast_append_getLast? t hl, nodup_append] at hn
    refine h.assign rfl (fun b _ => hv b) (fun _ hu => hu) (h.free t hm) ?_ ?_ hn.1 h.next h.test
    · exact fun u hu => (dropLast_sublist _).subset hu
    · exact fun hu => hn.2.2 t hu t (mem_singleton_self t) rfl
  | none =>
    rw [hl] at hv
    have hnl : s.freeSlots = [] := getLast?_eq_none_iff.mp hl
    have hlt := hf ha hnl
    have hp : 1 ≤ s.nextAvailableTenantID := h.next
    have h16 : uint16 s.nextAvailableTenantID = s.nextAvailableTenantID :=
      Nat.mod_eq_of_lt (by omega)
    have h32 : uint32 (s.nextAvailableTenantID + 1) = s.nextAvailableTenantID + 1 :=
      Nat.mod_eq_of_lt (by omega)
    dsimp only at hv ⊢
    rw [h16] at hv
    rw [h16, h32]
    refine h.assign rfl (fun b _ => hv b) (fun u hu => ⟨hu.1, ?_⟩) ⟨?_, ?_⟩ (fun _ hu => hu)
      ?_ h.nodup ?_ h.test
    · exact hu.2.imp_left Nat.lt_succ_of_lt
    · omega
    · exact .inl (Nat.lt_succ_self _)
    · rw [hnl]
      exact not_mem_nil
    · exact Nat.succ_pos _

theorem IdsInv.drop (a : Bytes) : IdsInv (s.act (.drop a), r) := by
  rw [Ids.act]
  cases ha : s.aliasMap a with
  | none => exact h
  | some t =>
  have hs : ∀ b u, (if s.aliasMap b = some t then none else s.aliasMap b) = some u →
      s.aliasMap b = some u ∧ u ≠ t := by
    intro b u hb
    split at hb
    · cases hb
    · rename_i hne
      refine ⟨hb, fun hut => hne ?_⟩
      rw [hb, hut]
  obtain ⟨hus, hn⟩ := h.live a t ha
  refine ⟨h.apart.mono (fun b u hb => (hs b u hb).1),
    fun b u hb => h.entered b u (hs b u hb).1, fun b u hb => ?_, fun u hu => ?_, ?_, h.next,
    h.test⟩
  · obtain ⟨hb, hne⟩ := hs b u hb
    obtain ⟨hu, hf⟩ := h.live b u hb
    refine ⟨hu, fun hm => ?_⟩
    rcases mem_append.mp hm with hm | hm
    · exact hf hm
    · exact hne (mem_singleton.mp hm)
  · rcases mem_append.mp hu with hu | hu
    · exact h.free u hu
    · rw [mem_singleton.mp hu]
      exact hus
  · refine nodup_append.mpr ⟨h.nodup, pairwise_singleton .., ?_⟩
    intro u hu v hv
    rw [mem_singleton.mp hv]
    exact fun hut => hn (hut ▸ hu)

end

theorem Ids.testID_ge (h : s.nextTestTenantID = 0 ∨ testTenantRangeStart ≤ s.nextTestTenantID) :
    testTenantRangeStart ≤ s.testID := by
  rw [Ids.testID]
  split
  · omega
  · exact h.resolve_left (by assumption)

theorem IdsInv.reserve (h : IdsInv (s, r)) (id : Nat) : IdsInv (s.reserve id, r) := by
  have hus : ∀ u, s.Used u → (s.reserve id).Used u := fun u hu =>
    ⟨hu.1, hu.2.imp_left (fun hlt => Nat.lt_of_lt_of_le hlt (Nat.le_max_left ..))⟩
  refine ⟨h.apart, h.entered, fun a t ha => ?_, fun t ht => ?_, h.nodup.erase id, ?_, h.test⟩
  · obtain ⟨hu, hn⟩ := h.live a t ha
    exact ⟨hus t hu, fun hm => hn (mem_of_mem_erase hm)⟩
  · exact hus t (h.free t (mem_of_mem_erase ht))
  · exact Nat.le_trans h.next (Nat.le_max_left ..)

/-- **Every action that fits keeps ids and tenants in step.** -/
theorem IdsInv.act (h : IdsInv (s, r)) {act : IdAct} (hwf : act.WellFormed)
    (hf : act.Fits s) : IdsInv (track (s, r) act) := by
  have hr : testTenantRangeStart = 61440 := rfl
  rw [track]
  cases act with
  | create a =>
    rw [Ids.act, Roster.act]
    cases ha : s.aliasMap a with
    | some t => exact h
    | none => exact h.create ha hf
  | link a b =>
    rw [Ids.act, Roster.act]
    cases hb : s.aliasMap b with
    | none => exact h
    | some t => exact h.link a hb
  | linkNew a b =>
    rw [Ids.act, Roster.act]
    cases ha : s.aliasMap a with
    | some t => exact h
    | none =>
      cases hb : s.aliasMap b with
      | none => exact h
      | some t => exact h.link a hb
  | drop a => exact h.drop a
  | test a =>
    have hge := Ids.testID_ge h.test
    refine h.assign rfl (fun b _ => hf.2 b) (fun _ hu => hu) ⟨?_, .inr hge⟩ (fun _ hu => hu)
      hf.1 h.nodup h.next (.inr ?_)
    · omega
    show testTenantRangeStart ≤ if s.testID ≥ testTenantRangeEnd then _ else s.testID + 1
    split
    · omega
    · exact Nat.le_succ_of_le hge
  | claim a id =>
    rw [Ids.act, Roster.act]
    cases ha : s.aliasMap a with
    | some t => exact h.reserve id
    | none =>
    have hrs := h.reserve id
    refine hrs.assign rfl (fun b _ => hf ha b) (fun _ hu => hu) ⟨hwf, .inl ?_⟩
      (fun _ hu => hu) h.nodup.not_mem_erase hrs.nodup hrs.next hrs.test
    exact Nat.lt_of_lt_of_le (by omega) (Nat.le_max_right ..)

end Inv

/-! ## Histories -/

/-- An action that hands out no id. -/
def IdAct.Mild : IdAct → Prop
  | .link _ _ => True
  | .linkNew _ _ => True
  | _ => False

theorem IdAct.Mild.fits {act : IdAct} (h : act.Mild) (s : Ids) : act.WellFormed ∧ act.Fits s := by
  cases act with
  | link a b | linkNew a b => exact ⟨trivial, trivial⟩
  | _ => exact absurd h id

theorem mild_links (more : List Bytes) (b : Bytes) : ∀ act ∈ linkAll more b, act.Mild := by
  intro act ha
  obtain ⟨a, _, rfl⟩ := mem_map.mp ha
  trivial

/-- Only the first action of an operation can hand out an id. -/
theorem acts_mild {first : IdAct} {rest : List IdAct}
    (h : op.acts codec = first :: rest) : first.WellFormed ∧ ∀ act ∈ rest, act.Mild := by
  have hn : ∀ act ∈ ([] : List IdAct), act.Mild := nofun
  cases op with
  | upsert aliases urls ids metadata =>
    cases aliases with
    | nil => exact absurd h (by simp [acts])
    | cons a more =>
      cases h
      exact ⟨trivial, mild_links more a⟩
  | addAlias a b =>
    cases h
    exact ⟨trivial, mild_links [b] a⟩
  | restoreTenant t =>
    rw [acts] at h
    split at h
    · cases h
    cases h
    refine ⟨?_, mild_links _ _⟩
    split
    · rename_i hp
      exact fun hz => hp (BitVec.eq_of_toNat_eq hz)
    · trivial
  | applyStorePut rawKey value =>
    rw [acts] at h
    split at h
    · split at h
      · rename_i aliases _
        cases aliases with
        | nil => exact absurd h (by simp [aliasActs])
        | cons _ more =>
        cases h
        refine ⟨trivial, fun act ha => ?_⟩
        obtain ⟨a, _, rfl⟩ := mem_map.mp ha
        trivial
      · cases h
    · cases h
      exact ⟨trivial, hn⟩
    · cases h
  | applyStoreDelete rawKey =>
    rw [acts] at h
    split at h
    · cases h
      exact ⟨trivial, hn⟩
    · cases h
  | add _ _ _ _ | deleteTenant _ | registerTestTenant _ | deleteTestTenant _ =>
    cases h
    exact ⟨trivial, hn⟩
  | _ => exact absurd h (by simp [acts])

theorem IdsInv.mild {p : Ids × Roster} (h : IdsInv p) {acts : List IdAct}
    (hac : ∀ act ∈ acts, act.Mild) : IdsInv (acts.foldl track p) :=
  foldlRecOn acts _ h fun p h act ha =>
    have hf := (hac act ha).fits p.1
    h.act hf.1 hf.2

/-- The operation hands out no id that is in use. -/
def RegistryOp.IdsFit (codec : Codec) (s : Ids) (op : RegistryOp) : Prop :=
  ∀ act ∈ (op.acts codec).head?, act.Fits s

/-- An operation, and what it means for the roster. -/
def registryAct (codec : Codec) (p : RegistryManager × Roster) (op : RegistryOp) :
    Option (RegistryManager × Roster) :=
  (p.1.step codec op).map (fun rm => (rm, ((op.acts codec).foldl track (p.1.ids, p.2)).2))

/-- A history from the empty registry in which no operation hands out an id in use. -/
def RegistryHistory (codec : Codec) (ops : List RegistryOp) (rm : RegistryManager) (r : Roster) :
    Prop :=
  GoodRun (fun p op p' => registryAct codec p op = some p')
    (fun p op => op.IdsFit codec p.1.ids) (RegistryManager.empty, Roster.empty) ops (rm, r)

theorem IdsInv.step {p p' : RegistryManager × Roster} (h : IdsInv (p.1.ids, p.2))
    (hf : op.IdsFit codec p.1.ids)
    (hac : registryAct codec p op = some p') : IdsInv (p'.1.ids, p'.2) := by
  obtain ⟨rm, hs, rfl⟩ := map_eq_some_iff.mp hac
  have hp : (rm.ids, ((op.acts codec).foldl track (p.1.ids, p.2)).2)
      = (op.acts codec).foldl track (p.1.ids, p.2) := by
    refine Prod.ext ?_ rfl
    rw [track_foldl_fst]
    exact step_ids hs
  rw [hp]
  cases ha : op.acts codec with
  | nil => exact h
  | cons first rest =>
  obtain ⟨hwf, hm⟩ := acts_mild ha
  refine IdsInv.mild (h.act hwf (hf first ?_)) hm
  rw [ha]
  exact rfl

theorem idsInv_empty : IdsInv (RegistryManager.empty.ids, Roster.empty) := by
  refine ⟨fun a b i j ha => absurd ha (by simp [RegistryManager.ids, RegistryManager.empty,
    Manager.ids, Manager.empty]), ?_, ?_, nofun, nodup_nil,
    Nat.le_refl 1, .inl rfl⟩
  · nofun
  · nofun

theorem registryHistory_inv (h : RegistryHistory codec ops rm r) : IdsInv (rm.ids, r) :=
  GoodRun.invariant (I := fun p => IdsInv (p.1.ids, p.2)) IdsInv.step
    (show GoodRun _ _ _ _ _ from h) idsInv_empty

/-- **Distinct tenants have distinct ids.** Two aliases have the same id exactly if they belong to
the same tenant, and no alias has id 0. -/
theorem tenant_ids_distinct {codec : Codec} {ops : List RegistryOp} {rm : RegistryManager}
    {r : Roster} (h : RegistryHistory codec ops rm r) :
    (∀ a b t u, rm.base.aliasMap a = some t → rm.base.aliasMap b = some u →
        (t = u ↔ r.owner a = r.owner b))
      ∧ ∀ a, rm.base.aliasMap a ≠ some 0 := by
  have hi := registryHistory_inv h
  exact ⟨hi.apart, fun a ha => (hi.live a 0 ha).1.1 rfl⟩

/-- Decoders that refuse everything. -/
def noCodec : Codec :=
  { aliases := fun _ => none, v2Override := fun _ => none, modifier := fun _ => none,
    rateLimit := fun _ => none }

/-- Two tenants are created, and the first alias is not the second one's. -/
theorem two_tenants_distinct : ∃ rm r,
    RegistryHistory noCodec [.addAlias [97] [98], .addAlias [99] [100]] rm r
      ∧ rm.base.aliasMap [97] = some 1 ∧ rm.base.aliasMap [99] = some 2
      ∧ (1 = 2 ↔ r.owner [97] = r.owner [99]) := by
  obtain ⟨rm, r, hr, ha, hc⟩ : ∃ rm r,
      RegistryHistory noCodec [.addAlias [97] [98], .addAlias [99] [100]] rm r
        ∧ rm.base.aliasMap [97] = some 1 ∧ rm.base.aliasMap [99] = some 2 := by
    refine ⟨_, _, .cons ?_ rfl (.cons ?_ rfl (.nil _)), by decide, by decide⟩
    · intro act hac
      cases hac
      exact fun _ _ => by decide
    · intro act hac
      cases hac
      exact fun _ _ => by decide
  exact ⟨rm, r, hr, ha, hc, (tenant_ids_distinct hr).1 _ _ _ _ ha hc⟩

/-- A record of the datastore with one alias and no properties. -/
def recordOf (a : Bytes) (persistedID : BitVec 16) : TenantRecord :=
  { aliases := [a], serviceURLs := [], identifiers := [], metadata := [],
    persistedID := persistedID }

/-- **Two tenants with one id, and a tenant with id 0.** The record without a persisted id takes
the id that the record after it brings; and the counter that has passed id 65535 starts at 0. -/
theorem ids_collide : ((restoreFromSnapshot noCodec .empty
        { rateLimits := [], tenants := [recordOf [97] 0, recordOf [98] 1], v2Overrides := [],
          modifiers := [] }).map (fun rm => (rm.base.aliasMap [97], rm.base.aliasMap [98]))
      = some (some 1, some 1))
    ∧ ((restoreFromSnapshot noCodec .empty
        { rateLimits := [], tenants := [recordOf [97] 65535], v2Overrides := [],
          modifiers := [] }).bind (fun rm => (rm.addAlias [98] [99]).map
            (fun rm => rm.base.aliasMap [98]))
      = some (some 0)) := by
  decide +kernel

end Rah.Registry
