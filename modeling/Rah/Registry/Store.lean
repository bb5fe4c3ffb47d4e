import Mathlib.Data.List.AList
import Rah.Lib.Utf8
import Rah.Registry.Tenants

/-!
# The registry's datastore

`TenantRegistryStore` keeps the registry in a flat key-value backend, one entry a key:
`tenant:{alias}:aliases`, `tenant:{alias}:url:{key}` and so on (`StoreKey.text`). At
startup `LoadAll` recovers the entries by listing keys and parsing what it is given.

A backend is any key-value map whose `ListKeys` returns the keys that begin with a prefix,
with the prefix removed, in any order. Audit is off. A write can fail; a read does not.
-/

namespace Rah.Registry.Store

open Rah.Registry Rah.Lib

/-- `RegistryStoreBackend`, with what it means to be a key-value map. -/
structure Backend where
  Content : Type
  empty : Content
  get : Content → Bytes → Option Bytes
  put : Content → Bytes → Bytes → Option Content
  delete : Content → Bytes → Option Content
  listKeys : Content → Bytes → List Bytes
  get_empty : ∀ k, get empty k = none
  get_put : ∀ {c k v c'}, put c k v = some c' →
    ∀ k', get c' k' = if k' = k then some v else get c k'
  get_delete : ∀ {c k c'}, delete c k = some c' →
    ∀ k', get c' k' = if k' = k then none else get c k'
  mem_listKeys : ∀ c p s, s ∈ listKeys c p ↔ (get c (p ++ s)).isSome = true
  nodup_listKeys : ∀ c p, (listKeys c p).Nodup

/-! ## The memory store -/

/-- The keys that begin with the prefix, without it. -/
def listed (keys : List Bytes) (pre : Bytes) : List Bytes := keys.filterMap (·.dropPrefix? pre)

theorem mem_listed : s ∈ listed keys pre ↔ pre ++ s ∈ keys := by
  unfold listed
  rw [List.mem_filterMap]
  constructor
  · rintro ⟨k, hk, hs⟩
    obtain ⟨p, rfl, hp⟩ := List.dropPrefix?_eq_some_iff.mp hs
    rwa [← eq_of_beq hp]
  · intro h
    exact ⟨pre ++ s, h, List.dropPrefix?_append_of_beq s (by simp)⟩

theorem nodup_listed (h : keys.Nodup) (pre : Bytes) : (listed keys pre).Nodup := by
  refine h.filterMap ?_
  intro k k' s hk hk'
  obtain ⟨p, rfl, hp⟩ := List.dropPrefix?_eq_some_iff.mp hk
  obtain ⟨p', rfl, hp'⟩ := List.dropPrefix?_eq_some_iff.mp hk'
  rw [eq_of_beq hp, eq_of_beq hp']

/-- A map in memory; a write needs a key. -/
def memory : Backend where
  Content := AList (fun _ : Bytes => Bytes)
  empty := ∅
  get := fun c k => c.lookup k
  put := fun c k v => if k = [] then none else some (c.insert k v)
  delete := fun c k => if k = [] then none else some (c.erase k)
  listKeys := fun c pre => listed c.keys pre
  get_empty := fun k => AList.lookup_empty k
  get_put := by
    intro c k v c' h k'
    split at h
    · cases h
    · cases h
      split
      · rename_i hkk
        rw [hkk]
        exact AList.lookup_insert c
      · rename_i hkk
        exact AList.lookup_insert_ne hkk
  get_delete := by
    intro c k c' h k'
    split at h
    · cases h
    · cases h
      split
      · rename_i hkk
        rw [hkk]
        exact AList.lookup_erase k c
      · rename_i hkk
        exact AList.lookup_erase_ne hkk
  mem_listKeys := by
    intro c pre s
    rw [mem_listed, AList.lookup_isSome]
    exact AList.mem_keys.symm
  nodup_listKeys := fun c pre => nodup_listed c.nodupKeys pre

/-! ## Records and their encoding -/

/-- A named limit as the store keeps it. -/
structure RateLimitConfig where
  perSec : BitVec 32
  perMin : BitVec 32
  burstFactor : BitVec 16
  flags : BitVec 16
  deriving DecidableEq, Repr

/-- What is kept of a configuration. -/
structure StoredRateLimitConfig where
  perSec : BitVec 32
  perMin : BitVec 32
  burstFactor : BitVec 16
  deriving DecidableEq, Repr

/-- A type with its JSON form. -/
structure Marshals (α : Type) where
  marshal : α → Bytes
  unmarshal : Bytes → Option α
  unmarshal_marshal : ∀ x, unmarshal (marshal x) = some x

/-- The encodings in use. For a list of aliases, what counts is what unmarshalling leaves in the
list, whether it fails or not. A JSON string is in UTF-8: in an alias that is not, the bytes that
are wrong come back as U+FFFD. -/
structure Json where
  marshalAliases : List Bytes → Bytes
  unmarshalAliases : Bytes → List Bytes
  unmarshal_marshalAliases : ∀ l, unmarshalAliases (marshalAliases l) = l.map Utf8.scrub
  rateLimit : Marshals StoredRateLimitConfig
  v2Override : Marshals TenantV2OverrideRecord
  modifier : Marshals TenantModifierRecord

/-! ## Keys and writes -/

/-- The part of a key that says which namespace it is in. -/
def propPrefix : Namespace → Bytes
  | .urls => urlPropPrefix
  | .ids => idPropPrefix
  | .metadata => metaPropPrefix

/-- The key of an entry. -/
def text : StoreKey → Bytes
  | .aliases primary => tenantKeyPrefix ++ primary ++ aliasSuffix
  | .prop ns primary key => tenantKeyPrefix ++ primary ++ propPrefix ns ++ key
  | .v2Override aliasName configName =>
    tenantKeyPrefix ++ aliasName ++ v2OverridePropPrefix ++ configName
  | .modifier aliasName => tenantKeyPrefix ++ aliasName ++ modifierSuffix
  | .rateLimit name => rateLimitPrefix ++ name

section Writes

variable (json : Json) (B : Backend) (c : B.Content)

/-- `PutTenantAliases`, and below it the other writers: one key each. -/
def putTenantAliases (primary : Bytes) (aliases : List Bytes) : Option B.Content :=
  B.put c (text (.aliases primary)) (json.marshalAliases aliases)

def putServiceURL (primary key value : Bytes) : Option B.Content :=
  B.put c (text (.prop .urls primary key)) value

def putIdentifier (primary key value : Bytes) : Option B.Content :=
  B.put c (text (.prop .ids primary key)) value

def putMetadata (primary key value : Bytes) : Option B.Content :=
  B.put c (text (.prop .metadata primary key)) value

def putRateLimitConfig (name : Bytes) (cfg : RateLimitConfig) : Option B.Content :=
  B.put c (text (.rateLimit name))
    (json.rateLimit.marshal ⟨cfg.perSec, cfg.perMin, cfg.burstFactor⟩)

def deleteRateLimitConfig (name : Bytes) : Option B.Content :=
  B.delete c (text (.rateLimit name))

def putModifier (aliasName : Bytes) (r : TenantModifierRecord) : Option B.Content :=
  B.put c (text (.modifier aliasName)) (json.modifier.marshal r)

def putV2Override (aliasName configName : Bytes) (r : TenantV2OverrideRecord) :
    Option B.Content :=
  B.put c (text (.v2Override aliasName configName)) (json.v2Override.marshal r)

def deleteV2Override (aliasName configName : Bytes) : Option B.Content :=
  B.delete c (text (.v2Override aliasName configName))

end Writes

/-! ## Deleting a tenant -/

/-- `DeleteTenant`; `none` is an error, after which some keys may be gone. -/
def deleteTenant (B : Backend) (c : B.Content) (primary : Bytes) : Option B.Content :=
  let keys := B.listKeys c (tenantKeyPrefix ++ primary ++ [58])
  (keys ++ [tenantKeyPrefix ++ primary ++ aliasSuffix]).foldlM B.delete c

/-! ## Startup restore -/

/-- `:tid` -/
def tenantIDSuffix : Bytes := [58, 116, 105, 100]

/-- The decimal number in the data, in 64 bits. -/
def parseID (data : Bytes) : Option Nat :=
  data.foldlM (fun id b =>
    if b < 48 ∨ 57 < b then none
    else some ((id * 10 + (b.toNat - 48)) % 18446744073709551616)) 0

/-- `GetTenantID`; zero when there is none. -/
def getTenantID (B : Backend) (c : B.Content) (primary : Bytes) : BitVec 16 :=
  match (B.get c (tenantKeyPrefix ++ primary ++ tenantIDSuffix)).bind parseID with
  | none => 0
  | some id => if id = 0 ∨ 65535 < id then 0 else BitVec.ofNat 16 id

/-- `url:`, `id:` and `meta:` -/
def propName : Namespace → Bytes
  | .urls => [117, 114, 108, 58]
  | .ids => [105, 100, 58]
  | .metadata => [109, 101, 116, 97, 58]

/-- The properties of one kind among the listed keys. The keys are distinct, so no name is set
twice. -/
def loadProps (B : Backend) (c : B.Content) (pre : Bytes) (ns : Namespace) (keys : List Bytes) :
    List (Bytes × Bytes) :=
  keys.filterMap (fun k =>
    (k.dropPrefix? (propName ns)).bind (fun key =>
      (B.get c (pre ++ k)).map (fun val => (key, val))))

/-- The stored aliases; a tenant without any has its primary one. -/
def loadAliases (json : Json) (B : Backend) (c : B.Content) (primary : Bytes) : List Bytes :=
  let aliases := match B.get c (tenantKeyPrefix ++ primary ++ aliasSuffix) with
    | some data => json.unmarshalAliases data
    | none => []
  if aliases.length = 0 then [primary] else aliases

/-- A tenant gathered from the keys under its prefix. -/
def loadTenantRecord (json : Json) (B : Backend) (c : B.Content) (primary : Bytes) :
    TenantRecord :=
  let pre := tenantKeyPrefix ++ primary ++ [58]
  let keys := B.listKeys c pre
  { aliases := loadAliases json B c primary
    persistedID := getTenantID B c primary
    serviceURLs := loadProps B c pre .urls keys
    identifiers := loadProps B c pre .ids keys
    metadata := loadProps B c pre .metadata keys }

/-- `RegistrySnapshot`, with the names of its records beside them. -/
structure Snapshot where
  rateLimits : List (Bytes × RateLimitConfig)
  tenants : List TenantRecord
  v2Overrides : List (Bytes × Bytes × TenantV2OverrideRecord)
  modifiers : List (Bytes × TenantModifierRecord)

def trimPrefix (s pre : Bytes) : Bytes := (s.dropPrefix? pre).getD s

def trimSuffix (s suf : Bytes) : Bytes := (s.dropSuffix? suf).getD s

/-- The record of a rate limit key, as the scan reads it. -/
def loadRateLimit (json : Json) (B : Backend) (c : B.Content) (k : Bytes) :
    Option (Bytes × RateLimitConfig) :=
  if rateLimitPrefix.isPrefixOf k then
    (B.get c k).bind (fun data =>
      (json.rateLimit.unmarshal data).map (fun r =>
        (trimPrefix k rateLimitPrefix, ⟨r.perSec, r.perMin, r.burstFactor, 0⟩)))
  else none

/-- The primary alias in a key of the tenant scan. -/
def primaryAlias (k : Bytes) : Option Bytes :=
  if aliasSuffix.isSuffixOf k then some (trimSuffix (trimPrefix k tenantKeyPrefix) aliasSuffix)
  else none

/-- The primary aliases of the scan, each one once. -/
def discover (seen : List Bytes) : List Bytes → List Bytes
  | [] => []
  | k :: keys =>
    match primaryAlias k with
    | none => discover seen keys
    | some p => if p ∈ seen then discover seen keys else p :: discover (p :: seen) keys

/-- An override from its key and value; what does not parse is skipped. -/
def loadV2Override (json : Json) (B : Backend) (c : B.Content) (k : Bytes) :
    Option (Bytes × Bytes × TenantV2OverrideRecord) :=
  match (trimPrefix k tenantKeyPrefix).dropInfix? v2OverridePropPrefix with
  | none => none
  | some (aliasName, configName) =>
    if aliasName = [] ∨ configName = [] then none
    else (B.get c k).bind (fun data =>
      (json.v2Override.unmarshal data).map (fun r => (aliasName, configName, r)))

/-- A modifier from its key and value. -/
def loadModifier (json : Json) (B : Backend) (c : B.Content) (k : Bytes) :
    Option (Bytes × TenantModifierRecord) :=
  if modifierSuffix.isSuffixOf k then
    let aliasName := trimSuffix (trimPrefix k tenantKeyPrefix) modifierSuffix
    if aliasName = [] then none
    else (B.get c k).bind (fun data =>
      (json.modifier.unmarshal data).map (fun r => (aliasName, r)))
  else none

/-- `LoadAll`: the snapshot an instance starts from. -/
def loadAll (json : Json) (B : Backend) (c : B.Content) : Snapshot where
  rateLimits := (B.listKeys c rateLimitPrefix).filterMap (loadRateLimit json B c)
  tenants := (discover [] (B.listKeys c tenantKeyPrefix)).map (loadTenantRecord json B c)
  v2Overrides := (B.listKeys c tenantKeyPrefix).filterMap (loadV2Override json B c)
  modifiers := (B.listKeys c tenantKeyPrefix).filterMap (loadModifier json B c)

end Rah.Registry.Store
