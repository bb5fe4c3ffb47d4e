import Rah.Registry.PropMap

/-!
# Tenants of the registry

The operations that give tenants their ids and take them back, with the rate limit data the
snapshot holds for each tenant. Ids come from a counter, from a list of recycled ids, from a
persisted record and, for test tenants, from a range of their own.

`RegistryManager` adds to the manager of the property stores what these operations read. The alias
table built from the map of aliases, the mirror of the tenants' data, the limits behind the names
of configurations and the writes to the datastore are left out, for nothing here reads them. JSON
values come decoded by a `Codec`.
-/

namespace Rah.Registry

/-! ## Rate limits -/

/-- A tenant's scale and its blocked and disabled flags. -/
structure TenantRateLimitModifier where
  scalePct : BitVec 16
  flags : BitVec 16
  deriving DecidableEq, Repr

def TenantRateLimitModifier.zero : TenantRateLimitModifier := { scalePct := 0, flags := 0 }

/-- A tenant's limits for one policy. -/
structure TenantRateLimitEntry where
  perSec : BitVec 32
  perMin : BitVec 32
  flags : BitVec 16
  deriving DecidableEq, Repr

/-- A tenant's override of one named configuration. -/
structure TenantV2ConfigOverride where
  flags : BitVec 8
  scaleOverridePct : BitVec 16
  windowLimits : List (BitVec 32)
  deriving DecidableEq, Repr

/-- A sparse table of one tenant: ids in ascending order, and their entries. -/
structure OverrideTable (E : Type) where
  ids : List Nat
  entries : List E
  deriving DecidableEq, Repr

abbrev TenantRateLimitTable := OverrideTable TenantRateLimitEntry

abbrev TenantV2OverrideTable := OverrideTable TenantV2ConfigOverride

/-- What a binary search finds: the position, or where the id would go. -/
inductive Search where
  | found (mid : Nat)
  | missing (insertAt : Nat)

/-- The binary search; `hi` is one more than the source's. -/
def search (ids : List Nat) (id : Nat) : Nat → Nat → Nat → Nat → Search
  | 0, _, _, insertAt => .missing insertAt
  | fuel + 1, lo, hi, insertAt =>
    if lo < hi then
      let mid := (lo + hi - 1) / 2
      if ids.getD mid 0 = id then .found mid
      else if ids.getD mid 0 < id then search ids id fuel (mid + 1) hi insertAt
      else search ids id fuel lo mid mid
    else .missing insertAt

section OverrideTable

variable {E : Type}

def OverrideTable.empty : OverrideTable E := { ids := [], entries := [] }

/-- The binary search over the sorted ids. -/
def OverrideTable.search (tbl : OverrideTable E) (id : Nat) : Search :=
  Registry.search tbl.ids id (tbl.ids.length + 1) 0 tbl.ids.length tbl.ids.length

/-- An entry replaced in place, or inserted where the order wants it. -/
def OverrideTable.upsert (tbl : OverrideTable E) (id : Nat) (entry : E) : OverrideTable E :=
  match tbl.search id with
  | .found mid => { tbl with entries := tbl.entries.set mid entry }
  | .missing insertAt =>
    { ids := tbl.ids.insertIdx insertAt id, entries := tbl.entries.insertIdx insertAt entry }

/-- An id and its entry removed. -/
def OverrideTable.remove (tbl : OverrideTable E) (id : Nat) : OverrideTable E :=
  match tbl.search id with
  | .found mid => { ids := tbl.ids.eraseIdx mid, entries := tbl.entries.eraseIdx mid }
  | .missing _ => tbl

/-- The entry of an id. -/
def OverrideTable.find (tbl : OverrideTable E) (id : Nat) : Option E :=
  match tbl.search id with
  | .found mid => tbl.entries[mid]?
  | .missing _ => none

end OverrideTable

/-- The slices of the snapshot that a tenant's id is an index of. -/
structure TenantRates where
  tenantModifiers : List TenantRateLimitModifier
  tenantRateLimits : List (Option TenantRateLimitTable)
  tenantV2Overrides : List (Option TenantV2OverrideTable)

/-- As many as the first snapshot has. -/
def TenantRates.initial : TenantRates :=
  { tenantModifiers := List.replicate 128 .zero, tenantRateLimits := List.replicate 128 none,
    tenantV2Overrides := List.replicate 128 none }

/-- A slice grows to the length that is needed. -/
def growSlice {α : Type} (zero : α) (needed : Nat) (slice : List α) : List α :=
  slice ++ List.replicate (needed - slice.length) zero

/-- The slices grown so that the tenant has a place in each. -/
def TenantRates.grow (rates : TenantRates) (tID : Nat) : TenantRates :=
  { tenantModifiers := growSlice .zero (tID + 1) rates.tenantModifiers
    tenantRateLimits := growSlice none (tID + 1) rates.tenantRateLimits
    tenantV2Overrides := growSlice none (tID + 1) rates.tenantV2Overrides }

def TenantRates.setModifier (rates : TenantRates) (tenantID : Nat)
    (mod : TenantRateLimitModifier) : TenantRates :=
  { rates with
    tenantModifiers := (growSlice .zero (tenantID + 1) rates.tenantModifiers).set tenantID mod }

/-- An entry of the tenant's table, which may be the first one. -/
def upsertEntry {E : Type} (tables : List (Option (OverrideTable E))) (tenantID id : Nat)
    (entry : E) : List (Option (OverrideTable E)) :=
  let tables := growSlice none (tenantID + 1) tables
  let tbl := (tables.getD tenantID none).getD .empty
  tables.set tenantID (some (tbl.upsert id entry))

/-- One policy's entry in a tenant's table. -/
def TenantRates.upsertRateLimit (rates : TenantRates) (tenantID policyID : Nat)
    (entry : TenantRateLimitEntry) : TenantRates :=
  { rates with tenantRateLimits := upsertEntry rates.tenantRateLimits tenantID policyID entry }

/-- One configuration's entry in a tenant's table. -/
def TenantRates.upsertV2 (rates : TenantRates) (tenantID configID : Nat)
    (entry : TenantV2ConfigOverride) : TenantRates :=
  { rates with tenantV2Overrides := upsertEntry rates.tenantV2Overrides tenantID configID entry }

/-- A configuration's entry removed from the tenant's table. -/
def TenantRates.deleteV2 (rates : TenantRates) (tenantID configID : Nat) : TenantRates :=
  match rates.tenantV2Overrides.getD tenantID none with
  | none => rates
  | some tbl =>
    { rates with
      tenantV2Overrides := rates.tenantV2Overrides.set tenantID (some (tbl.remove configID)) }

/-- `LookupV2Override`: the override a request of the tenant meets. -/
def lookupV2Override (rates : TenantRates) (tenantID configID : Nat) :
    Option TenantV2ConfigOverride :=
  match rates.tenantV2Overrides.getD tenantID none with
  | none => none
  | some tbl => tbl.find configID

/-! ## The manager -/

/-- The registry with the rate limits: their tables, their names and the test tenants' counter. -/
structure RegistryManager where
  base : Manager
  nextTestTenantID : Nat
  rates : TenantRates
  rateLimitNames : Bytes → Option Nat
  nextRLConfigID : Nat

def RegistryManager.empty : RegistryManager :=
  { base := .empty, nextTestTenantID := 0, rates := .initial, rateLimitNames := fun _ => none,
    nextRLConfigID := 0 }

/-- The snapshot is stored, with the slices as they are. -/
def RegistryManager.publish (rm : RegistryManager) (rates : TenantRates) : RegistryManager :=
  { rm with base := { rm.base with active := some rm.base.activeOrEmpty }, rates := rates }

/-- The slices after the tenant of an alias was resolved or created. -/
def RegistryManager.ratesFor (rm : RegistryManager) (aliasName : Bytes) : TenantRates :=
  match rm.base.aliasMap aliasName with
  | some _ => rm.rates
  | none => rm.rates.grow rm.base.allocTenant.1

/-- What an operation did that resolves or creates the tenant of the alias. -/
def RegistryManager.resolved (rm : RegistryManager) (aliasName : Bytes) (base : Manager) :
    RegistryManager :=
  { rm with base := base, rates := rm.ratesFor aliasName }

/-- A property added; the tenant's place in the rate slices comes with its id. -/
def RegistryManager.addProp (ns : Namespace) (rm : RegistryManager)
    (aliasName name value : Bytes) : Option RegistryManager :=
  (Registry.addProp ns rm.base aliasName name value).map (rm.resolved aliasName)

/-- `UpsertTenantState`, with the rate slices grown for a new tenant. -/
def RegistryManager.upsertTenantState (rm : RegistryManager) (aliases : List Bytes)
    (serviceURLs identifiers metadata : List (Bytes × Bytes)) : Option RegistryManager :=
  match aliases with
  | [] => some rm
  | aliasName :: more =>
    (Registry.upsertTenantState rm.base (aliasName :: more) serviceURLs identifiers metadata).map
      (rm.resolved aliasName)

/-- `AddAlias`: a second name for a tenant, which is created if it is missing. -/
def RegistryManager.addAlias (rm : RegistryManager) (existingAlias newAlias : Bytes) :
    Option RegistryManager :=
  match resolveOrCreateTenant rm.base rm.base.activeOrEmpty existingAlias with
  | none => none
  | some (tID, base, reg) =>
    some (rm.resolved existingAlias { base.setAlias newAlias tID with active := some reg })

/-! ## Deletion -/

/-- The cells of the row are set to zero, if the matrix has it. -/
def zeroStoreRow (store : PropStore) (tid : Nat) : PropStore :=
  if store.stride = 0 then store
  else
    let start := uint32 (tid * store.stride)
    if uint32 (start + store.stride) > store.matrix.length then store
    else
      { store with
        matrix := (List.range store.stride).foldl (fun m i => m.set (uint32 (start + i)) 0)
          store.matrix }

/-- Every alias of the tenant goes, its rows are cleared and its id can be used again. -/
def Manager.dropTenant (s : Manager) (tID : Nat) : Manager :=
  let reg := s.activeOrEmpty
  { s with
    aliasMap := fun a => if s.aliasMap a = some tID then none else s.aliasMap a
    freeSlots := s.freeSlots ++ [tID]
    active := some { reg with store := fun ns => zeroStoreRow (reg.store ns) tID } }

/-- `DeleteTenant`: rows zeroed, aliases removed, and the id free for reuse. -/
def RegistryManager.deleteTenant (rm : RegistryManager) (aliasName : Bytes) : RegistryManager :=
  match rm.base.aliasMap aliasName with
  | none => rm
  | some tID => { rm with base := rm.base.dropTenant tID }

/-! ## Test tenants -/

def testTenantRangeStart : Nat := 61440

def testTenantRangeEnd : Nat := 65535

/-- The text `__test__` before the id of the run. -/
def testAlias (runID : Bytes) : Bytes := [95, 95, 116, 101, 115, 116, 95, 95] ++ runID

/-- The id of the next test tenant. -/
def RegistryManager.testTenantID (rm : RegistryManager) : Nat :=
  if rm.nextTestTenantID = 0 then testTenantRangeStart else rm.nextTestTenantID

/-- `RegisterTestTenant`: an id from the reserved range, in turn. -/
def RegistryManager.registerTestTenant (rm : RegistryManager) (runID : Bytes) :
    Option RegistryManager :=
  let tID := rm.testTenantID
  let next := if tID ≥ testTenantRangeEnd then testTenantRangeStart else tID + 1
  (growFor rm.base.activeOrEmpty tID).map (fun reg =>
    { rm with
      base := { rm.base.setAlias (testAlias runID) tID with active := some reg }
      nextTestTenantID := next
      rates := rm.rates.grow tID })

/-- A test tenant is deleted like any other, by its alias. -/
def RegistryManager.deleteTestTenant (rm : RegistryManager) (runID : Bytes) : RegistryManager :=
  rm.deleteTenant (testAlias runID)

/-! ## Rate limit operations -/

def RegistryManager.setTenantRateLimitModifier (rm : RegistryManager) (tenantID : BitVec 16)
    (mod : TenantRateLimitModifier) : RegistryManager :=
  rm.publish (rm.rates.setModifier tenantID.toNat mod)

def RegistryManager.upsertTenantRateLimitOverride (rm : RegistryManager)
    (tenantID policyID : BitVec 16) (entry : TenantRateLimitEntry) : RegistryManager :=
  rm.publish (rm.rates.upsertRateLimit tenantID.toNat policyID.toNat entry)

def RegistryManager.upsertTenantV2Override (rm : RegistryManager) (tenantID configID : BitVec 16)
    (entry : TenantV2ConfigOverride) : RegistryManager :=
  rm.publish (rm.rates.upsertV2 tenantID.toNat configID.toNat entry)

def RegistryManager.deleteTenantV2Override (rm : RegistryManager) (tenantID configID : BitVec 16) :
    RegistryManager :=
  { rm with rates := rm.rates.deleteV2 tenantID.toNat configID.toNat }

/-- The id of a named configuration, which it keeps. -/
def RegistryManager.nameConfig (rm : RegistryManager) (name : Bytes) : RegistryManager :=
  match rm.rateLimitNames name with
  | some _ => rm
  | none =>
    let id := uint16 (rm.nextRLConfigID + 1)
    { rm with
      nextRLConfigID := id
      rateLimitNames := fun n => if n = name then some id else rm.rateLimitNames n }

def RegistryManager.upsertNamedRateLimitConfig (rm : RegistryManager) (name : Bytes) :
    RegistryManager :=
  (rm.nameConfig name).publish rm.rates

def RegistryManager.ensureRateLimitV2ID (rm : RegistryManager) (name : Bytes) : RegistryManager :=
  rm.nameConfig name

/-! ## Restoring a snapshot -/

/-- A tenant as the store keeps it. -/
structure TenantRecord where
  aliases : List Bytes
  serviceURLs : List (Bytes × Bytes)
  identifiers : List (Bytes × Bytes)
  metadata : List (Bytes × Bytes)
  /-- Zero for a record without one. -/
  persistedID : BitVec 16

/-- An override as the store keeps it. -/
structure TenantV2OverrideRecord where
  blocked : Bool
  rlDisabled : Bool
  scaleOverridePct : BitVec 16
  windowLimits : List (BitVec 32)

/-- The table entry a record stands for; the flags are packed in bits. -/
def TenantV2OverrideRecord.entry (r : TenantV2OverrideRecord) : TenantV2ConfigOverride :=
  { flags := (if r.blocked then 1 else 0) ||| (if r.rlDisabled then 2 else 0)
    scaleOverridePct := r.scaleOverridePct, windowLimits := r.windowLimits }

/-- A modifier as the store keeps it. -/
structure TenantModifierRecord where
  blocked : Bool
  rlDisabled : Bool
  scalePct : BitVec 16

/-- The modifier a record stands for. -/
def TenantModifierRecord.modifier (r : TenantModifierRecord) : TenantRateLimitModifier :=
  { scalePct := r.scalePct
    flags := (if r.blocked then 1 else 0) ||| (if r.rlDisabled then 2 else 0) }

/-- The counter passes the id, and the id is not free. -/
def Manager.forceAssignTenantID (s : Manager) (id : Nat) : Manager :=
  { s with
    nextAvailableTenantID := max s.nextAvailableTenantID (id + 1)
    freeSlots := s.freeSlots.erase id }

/-- An alias that is not known yet gets the persisted id. -/
def Manager.seedAlias (s : Manager) (aliasName : Bytes) (id : Nat) : Manager :=
  match s.aliasMap aliasName with
  | some _ => s
  | none => s.setAlias aliasName id

/-- A tenant restored from its record, under its first alias. -/
def RegistryManager.restoreTenant (rm : RegistryManager) (t : TenantRecord) :
    Option RegistryManager :=
  match t.aliases with
  | [] => some rm
  | first :: _ =>
    let base := if t.persistedID ≠ 0 then
        (rm.base.forceAssignTenantID t.persistedID.toNat).seedAlias first t.persistedID.toNat
      else rm.base
    { rm with base := base }.upsertTenantState t.aliases t.serviceURLs t.identifiers t.metadata

/-- A modifier or an override of the tenant of an alias, if both names are known. -/
def RegistryManager.overrideByName (rm : RegistryManager) (aliasName configName : Bytes)
    (r : TenantV2OverrideRecord) : RegistryManager :=
  match rm.base.aliasMap aliasName, rm.rateLimitNames configName with
  | some tID, some configID => rm.publish (rm.rates.upsertV2 tID configID r.entry)
  | _, _ => rm

/-- A modifier for the tenant an alias names; an unknown alias is skipped. -/
def RegistryManager.modifyByName (rm : RegistryManager) (aliasName : Bytes)
    (r : TenantModifierRecord) : RegistryManager :=
  match rm.base.aliasMap aliasName with
  | some tID => rm.publish (rm.rates.setModifier tID r.modifier)
  | none => rm

/-! ## Events from the datastore -/

/-- What a key of the datastore is about. -/
inductive StoreKey where
  | aliases (primary : Bytes)
  | prop (ns : Namespace) (primary key : Bytes)
  | v2Override (aliasName configName : Bytes)
  | modifier (aliasName : Bytes)
  | rateLimit (name : Bytes)

/-- The position of the first occurrence. -/
def indexOf (sep : Bytes) : Bytes → Option Nat
  | [] => if sep = [] then some 0 else none
  | b :: rest => if sep.isPrefixOf (b :: rest) then some 0 else (indexOf sep rest).map (· + 1)

/-- The texts before and after the first occurrence. -/
def splitAt? (sep rest : Bytes) : Option (Bytes × Bytes) :=
  (indexOf sep rest).map (fun i => (rest.take i, rest.drop (i + sep.length)))

/-- The text before a suffix. -/
def trimSuffix? (suffix rest : Bytes) : Option Bytes :=
  if suffix.isSuffixOf rest then some (rest.take (rest.length - suffix.length)) else none

/-- `tenant:` -/
def tenantKeyPrefix : Bytes := [116, 101, 110, 97, 110, 116, 58]
/-- `:aliases` -/
def aliasSuffix : Bytes := [58, 97, 108, 105, 97, 115, 101, 115]
/-- `:url:` -/
def urlPropPrefix : Bytes := [58, 117, 114, 108, 58]
/-- `:id:` -/
def idPropPrefix : Bytes := [58, 105, 100, 58]
/-- `:meta:` -/
def metaPropPrefix : Bytes := [58, 109, 101, 116, 97, 58]
/-- `:v2override:` -/
def v2OverridePropPrefix : Bytes := [58, 118, 50, 111, 118, 101, 114, 114, 105, 100, 101, 58]
/-- `:modifier` -/
def modifierSuffix : Bytes := [58, 109, 111, 100, 105, 102, 105, 101, 114]
/-- `rl:` -/
def rateLimitPrefix : Bytes := [114, 108, 58]

/-- The keys under the tenant prefix, tried in the order of the source. -/
def parseTenantKey (rest : Bytes) : Option StoreKey :=
  (trimSuffix? aliasSuffix rest).map .aliases
    <|> (splitAt? urlPropPrefix rest).map (fun p => .prop .urls p.1 p.2)
    <|> (splitAt? idPropPrefix rest).map (fun p => .prop .ids p.1 p.2)
    <|> (splitAt? metaPropPrefix rest).map (fun p => .prop .metadata p.1 p.2)
    <|> (splitAt? v2OverridePropPrefix rest).map (fun p => .v2Override p.1 p.2)
    <|> (trimSuffix? modifierSuffix rest).map .modifier

/-- What a key of the store is about. -/
def parseKey (rawKey : Bytes) : Option StoreKey :=
  if tenantKeyPrefix.isPrefixOf rawKey then parseTenantKey (rawKey.drop tenantKeyPrefix.length)
  else if rateLimitPrefix.isPrefixOf rawKey then
    some (.rateLimit (rawKey.drop rateLimitPrefix.length))
  else none

/-- The decoders of the values; `none` is a value that is refused. -/
structure Codec where
  aliases : Bytes → Option (List Bytes)
  v2Override : Bytes → Option TenantV2OverrideRecord
  modifier : Bytes → Option TenantModifierRecord
  rateLimit : Bytes → Option Unit

/-- An alias that is not known yet becomes one of the tenant's. -/
def Manager.linkNew (tID : Nat) (s : Manager) (aliasName : Bytes) : Manager :=
  s.seedAlias aliasName tID

/-- The alias list of a tenant, as the watcher applies it. -/
def RegistryManager.applyAliases (rm : RegistryManager) (primary : Bytes) (aliases : List Bytes) :
    Option RegistryManager :=
  match aliases with
  | [] => some rm
  | _ :: more =>
    match resolveOrCreateTenant rm.base rm.base.activeOrEmpty primary with
    | none => none
    | some (tID, base, reg) =>
      some (rm.resolved primary { more.foldl (Manager.linkNew tID) base with active := some reg })

/-- `ApplyStorePut`: the effect of a key that another instance wrote. -/
def RegistryManager.applyStorePut (codec : Codec) (rm : RegistryManager) (rawKey value : Bytes) :
    Option RegistryManager :=
  match parseKey rawKey with
  | none => some rm
  | some (.aliases primary) =>
    match codec.aliases value with
    | none => some rm
    | some aliases => rm.applyAliases primary aliases
  | some (.prop ns primary key) => rm.addProp ns primary key value
  | some (.v2Override aliasName configName) =>
    match codec.v2Override value with
    | none => some rm
    | some r => some (rm.overrideByName aliasName configName r)
  | some (.modifier aliasName) =>
    match codec.modifier value with
    | none => some rm
    | some r => some (rm.modifyByName aliasName r)
  | some (.rateLimit name) =>
    match codec.rateLimit value with
    | none => some rm
    | some () => some (rm.upsertNamedRateLimitConfig name)

/-- One cell is set to zero; unlike `deleteProp` this panics on a cell that is not there. -/
def RegistryManager.zeroProp (ns : Namespace) (rm : RegistryManager) (primary key : Bytes) :
    Option RegistryManager :=
  match rm.base.aliasMap primary with
  | none => some rm
  | some tID =>
    let reg := rm.base.activeOrEmpty
    let store := reg.store ns
    match findKeyID store.keys store.stringPool key with
    | none => none
    | some none => some rm
    | some (some kID) =>
      let slot := uint32 (tID * store.stride + kID)
      if slot < store.matrix.length then
        let reg := reg.setStore ns { store with matrix := store.matrix.set slot 0 }
        some { rm with base := { rm.base with active := some reg } }
      else none

/-- `ApplyStoreDelete`: the effect of a key that another instance deleted. -/
def RegistryManager.applyStoreDelete (rm : RegistryManager) (rawKey : Bytes) :
    Option RegistryManager :=
  match parseKey rawKey with
  | none => some rm
  | some (.aliases primary) => some (rm.deleteTenant primary)
  | some (.prop ns primary key) => rm.zeroProp ns primary key
  | some (.v2Override aliasName configName) =>
    match rm.base.aliasMap aliasName, rm.rateLimitNames configName with
    | some tID, some configID => some { rm with rates := rm.rates.deleteV2 tID configID }
    | _, _ => some rm
  | some (.modifier aliasName) =>
    match rm.base.aliasMap aliasName with
    | none => some rm
    | some tID =>
      let rates := { rm.rates with tenantModifiers := rm.rates.tenantModifiers.set tID .zero }
      if tID < rm.rates.tenantModifiers.length then some (rm.publish rates) else some rm
  | some (.rateLimit name) =>
    match rm.rateLimitNames name with
    | none => some rm
    | some _ =>
      let names := fun n => if n = name then none else rm.rateLimitNames n
      some ({ rm with rateLimitNames := names }.publish rm.rates)

/-! ## Histories -/

/-- Everything that changes a manager. -/
inductive RegistryOp where
  | add (ns : Namespace) (aliasName name value : Bytes)
  | delete (ns : Namespace) (aliasName name : Bytes)
  | upsert (aliases : List Bytes) (serviceURLs identifiers metadata : List (Bytes × Bytes))
  | ensure (ns : Namespace) (key : Bytes)
  | addAlias (existingAlias newAlias : Bytes)
  | deleteTenant (aliasName : Bytes)
  | registerTestTenant (runID : Bytes)
  | deleteTestTenant (runID : Bytes)
  | setModifier (tenantID : BitVec 16) (mod : TenantRateLimitModifier)
  | upsertRateLimit (tenantID policyID : BitVec 16) (entry : TenantRateLimitEntry)
  | upsertV2 (tenantID configID : BitVec 16) (entry : TenantV2ConfigOverride)
  | deleteV2 (tenantID configID : BitVec 16)
  | upsertConfig (name : Bytes)
  | ensureConfig (name : Bytes)
  | restoreTenant (t : TenantRecord)
  | restoreOverride (aliasName configName : Bytes) (r : TenantV2OverrideRecord)
  | restoreModifier (aliasName : Bytes) (r : TenantModifierRecord)
  | applyStorePut (rawKey value : Bytes)
  | applyStoreDelete (rawKey : Bytes)

/-- `none` is a panic. -/
def RegistryManager.step (codec : Codec) (rm : RegistryManager) :
    RegistryOp → Option RegistryManager
  | .add ns aliasName name value => rm.addProp ns aliasName name value
  | .delete ns aliasName name =>
    (deleteProp ns rm.base aliasName name).map (fun base => { rm with base := base })
  | .upsert aliases urls ids metadata => rm.upsertTenantState aliases urls ids metadata
  | .ensure ns key =>
    (ensureKeyID ns rm.base key).map (fun r => { rm with base := r.2 })
  | .addAlias existingAlias newAlias => rm.addAlias existingAlias newAlias
  | .deleteTenant aliasName => some (rm.deleteTenant aliasName)
  | .registerTestTenant runID => rm.registerTestTenant runID
  | .deleteTestTenant runID => some (rm.deleteTestTenant runID)
  | .setModifier tenantID mod => some (rm.setTenantRateLimitModifier tenantID mod)
  | .upsertRateLimit tenantID policyID entry =>
    some (rm.upsertTenantRateLimitOverride tenantID policyID entry)
  | .upsertV2 tenantID configID entry => some (rm.upsertTenantV2Override tenantID configID entry)
  | .deleteV2 tenantID configID => some (rm.deleteTenantV2Override tenantID configID)
  | .upsertConfig name => some (rm.upsertNamedRateLimitConfig name)
  | .ensureConfig name => some (rm.ensureRateLimitV2ID name)
  | .restoreTenant t => rm.restoreTenant t
  | .restoreOverride aliasName configName r => some (rm.overrideByName aliasName configName r)
  | .restoreModifier aliasName r => some (rm.modifyByName aliasName r)
  | .applyStorePut rawKey value => rm.applyStorePut codec rawKey value
  | .applyStoreDelete rawKey => rm.applyStoreDelete rawKey

/-- A persisted registry. -/
structure RegistrySnapshot where
  rateLimits : List Bytes
  tenants : List TenantRecord
  v2Overrides : List (Bytes × Bytes × TenantV2OverrideRecord)
  modifiers : List (Bytes × TenantModifierRecord)

/-- The operations `RestoreFromSnapshot` is made of. The lock is free between them. -/
def RegistrySnapshot.ops (snap : RegistrySnapshot) : List RegistryOp :=
  snap.rateLimits.map .upsertConfig ++ snap.tenants.map .restoreTenant
    ++ snap.v2Overrides.map (fun o => .restoreOverride o.1 o.2.1 o.2.2)
    ++ snap.modifiers.map (fun m => .restoreModifier m.1 m.2)

/-- `RestoreFromSnapshot`: the snapshot replayed operation by operation. -/
def restoreFromSnapshot (codec : Codec) (rm : RegistryManager) (snap : RegistrySnapshot) :
    Option RegistryManager :=
  snap.ops.foldlM (RegistryManager.step codec) rm

end Rah.Registry
