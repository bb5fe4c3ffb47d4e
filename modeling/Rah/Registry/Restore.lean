import Mathlib.Data.List.Forall2
import Mathlib.Logic.Equiv.List
import Rah.Lib.Cut
import Rah.Registry.Deletion

/-!
# What a restart recovers

What the datastore is for is a map from entries to values (`Stored`). Every sequence of
writes leaves the backend holding that map, one key an entry (`Holds`), and `LoadAll` should
read it back.

It reads back the tenants and their properties, with three exceptions. A property called
`aliases` looks like the aliases key of another tenant, a tenant called `tenant` has its name cut
off as if it were the prefix of the key space, and an alias that is not in UTF-8 does not survive
its JSON form. The rate limits, overrides and modifiers are all lost: their scans take the listed
names for full keys.
-/

namespace Rah.Registry.Store

open Rah.Registry Rah.Lib List Option

/-! ## The entries -/

deriving instance DecidableEq for StoreKey

/-- The entries that are stored. -/
structure Stored where
  rateLimits : Bytes → Option RateLimitConfig
  aliases : Bytes → Option (List Bytes)
  props : Namespace → Bytes → Bytes → Option Bytes
  v2Overrides : Bytes → Bytes → Option TenantV2OverrideRecord
  modifiers : Bytes → Option TenantModifierRecord

def Stored.empty : Stored where
  rateLimits := fun _ => none
  aliases := fun _ => none
  props := fun _ _ _ => none
  v2Overrides := fun _ _ => none
  modifiers := fun _ => none

/-- A call that writes. -/
inductive Write where
  | putTenantAliases (primary : Bytes) (aliases : List Bytes)
  | putServiceURL (primary key value : Bytes)
  | putIdentifier (primary key value : Bytes)
  | putMetadata (primary key value : Bytes)
  | putModifier (aliasName : Bytes) (r : TenantModifierRecord)
  | putV2Override (aliasName configName : Bytes) (r : TenantV2OverrideRecord)
  | deleteV2Override (aliasName configName : Bytes)
  | putRateLimitConfig (name : Bytes) (cfg : RateLimitConfig)
  | deleteRateLimitConfig (name : Bytes)

def Write.run (json : Json) (B : Backend) (c : B.Content) : Write → Option B.Content
  | .putTenantAliases primary aliases => Store.putTenantAliases json B c primary aliases
  | .putServiceURL primary key value => Store.putServiceURL B c primary key value
  | .putIdentifier primary key value => Store.putIdentifier B c primary key value
  | .putMetadata primary key value => Store.putMetadata B c primary key value
  | .putModifier aliasName r => Store.putModifier json B c aliasName r
  | .putV2Override aliasName configName r => Store.putV2Override json B c aliasName configName r
  | .deleteV2Override aliasName configName => Store.deleteV2Override B c aliasName configName
  | .putRateLimitConfig name cfg => Store.putRateLimitConfig json B c name cfg
  | .deleteRateLimitConfig name => Store.deleteRateLimitConfig B c name

def Stored.setProp (s : Stored) (ns : Namespace) (primary key value : Bytes) : Stored :=
  { s with props := fun ns' a k =>
      if ns' = ns ∧ a = primary ∧ k = key then some value else s.props ns' a k }

def Stored.setOverride (s : Stored) (aliasName configName : Bytes)
    (r : Option TenantV2OverrideRecord) : Stored :=
  { s with v2Overrides := fun a n =>
      if a = aliasName ∧ n = configName then r else s.v2Overrides a n }

def Stored.setRateLimit (s : Stored) (name : Bytes) (cfg : Option RateLimitConfig) : Stored :=
  { s with rateLimits := fun n => if n = name then cfg else s.rateLimits n }

/-- What a write means. -/
def Stored.apply (s : Stored) : Write → Stored
  | .putTenantAliases primary aliases =>
    { s with aliases := fun a => if a = primary then some aliases else s.aliases a }
  | .putServiceURL primary key value => s.setProp .urls primary key value
  | .putIdentifier primary key value => s.setProp .ids primary key value
  | .putMetadata primary key value => s.setProp .metadata primary key value
  | .putModifier aliasName r =>
    { s with modifiers := fun a => if a = aliasName then some r else s.modifiers a }
  | .putV2Override aliasName configName r => s.setOverride aliasName configName (some r)
  | .deleteV2Override aliasName configName => s.setOverride aliasName configName none
  | .putRateLimitConfig name cfg => s.setRateLimit name (some cfg)
  | .deleteRateLimitConfig name => s.setRateLimit name none

/-- The entry a write is about. -/
def Write.key : Write → StoreKey
  | .putTenantAliases primary _ => .aliases primary
  | .putServiceURL primary key _ => .prop .urls primary key
  | .putIdentifier primary key _ => .prop .ids primary key
  | .putMetadata primary key _ => .prop .metadata primary key
  | .putModifier aliasName _ => .modifier aliasName
  | .putV2Override aliasName configName _ => .v2Override aliasName configName
  | .deleteV2Override aliasName configName => .v2Override aliasName configName
  | .putRateLimitConfig name _ => .rateLimit name
  | .deleteRateLimitConfig name => .rateLimit name

section Encoding

variable (json : Json)

def encodeConfig (cfg : RateLimitConfig) : Bytes :=
  json.rateLimit.marshal ⟨cfg.perSec, cfg.perMin, cfg.burstFactor⟩

/-- The bytes a write leaves for its entry. -/
def Write.value : Write → Option Bytes
  | .putTenantAliases _ aliases => some (json.marshalAliases aliases)
  | .putServiceURL _ _ value => some value
  | .putIdentifier _ _ value => some value
  | .putMetadata _ _ value => some value
  | .putModifier _ r => some (json.modifier.marshal r)
  | .putV2Override _ _ r => some (json.v2Override.marshal r)
  | .deleteV2Override _ _ => none
  | .putRateLimitConfig _ cfg => some (encodeConfig json cfg)
  | .deleteRateLimitConfig _ => none

/-- The bytes of an entry. -/
def Stored.bytes (s : Stored) : StoreKey → Option Bytes
  | .aliases a => (s.aliases a).map json.marshalAliases
  | .prop ns a k => s.props ns a k
  | .v2Override a n => (s.v2Overrides a n).map json.v2Override.marshal
  | .modifier a => (s.modifiers a).map json.modifier.marshal
  | .rateLimit n => (s.rateLimits n).map (encodeConfig json)

end Encoding

theorem get_run {json : Json} {B : Backend} {c c' : B.Content} {w : Write}
    (h : w.run json B c = some c') (k : Bytes) :
    B.get c' k = if k = text w.key then w.value json else B.get c k := by
  cases w with
  | deleteV2Override a n | deleteRateLimitConfig n => exact B.get_delete h k
  | putTenantAliases a l | putServiceURL a key v | putIdentifier a key v | putMetadata a key v
  | putModifier a r | putV2Override a n r | putRateLimitConfig n cfg => exact B.get_put h k

theorem bytes_apply (json : Json) (s : Stored) (w : Write) (k : StoreKey) :
    (s.apply w).bytes json k = if k = w.key then w.value json else s.bytes json k := by
  cases w <;> cases k <;>
    simp [Stored.apply, Stored.bytes, Write.key, Write.value, Stored.setProp, Stored.setOverride,
      Stored.setRateLimit] <;> grind

/-! ## The texts of keys -/

/-- The tenant an entry belongs to. -/
def owner : StoreKey → Option Bytes
  | .aliases a => some a
  | .prop _ a _ => some a
  | .v2Override a _ => some a
  | .modifier a => some a
  | .rateLimit _ => none

/-- `v2override:` -/
def overrideName : Bytes := [118, 50, 111, 118, 101, 114, 114, 105, 100, 101, 58]

/-- `modifier` -/
def modifierName : Bytes := [109, 111, 100, 105, 102, 105, 101, 114]

/-- `tenant` -/
def tenantName : Bytes := [116, 101, 110, 97, 110, 116]

/-- What stands after the owner in a key. -/
def leaf : StoreKey → Bytes
  | .aliases _ => aliasesName
  | .prop ns _ key => propName ns ++ key
  | .v2Override _ configName => overrideName ++ configName
  | .modifier _ => modifierName
  | .rateLimit name => name

theorem text_of_owner (h : owner k = some a) : text k = tenantKeyPrefix ++ (a ++ 58 :: leaf k) := by
  cases k with
  | rateLimit n => cases h
  | prop ns a' key =>
    cases h
    cases ns <;> simp [text, leaf, propPrefix, propName, urlPropPrefix, idPropPrefix,
      metaPropPrefix]
  | aliases a' => cases h; simp [text, leaf, aliasSuffix, aliasesName]
  | v2Override a' n => cases h; simp [text, leaf, v2OverridePropPrefix, overrideName]
  | modifier a' => cases h; simp [text, leaf, modifierSuffix, modifierName]

/-- The rest of a key tells which entry of its owner it is. -/
theorem leaf_inj (hk : owner k = some a) (hk' : owner k' = some a) (h : leaf k = leaf k') :
    k = k' := by
  cases k with
  | rateLimit n => cases hk
  | aliases b =>
    cases hk
    cases k' with
    | rateLimit n => cases hk'
    | aliases b' => cases hk'; rfl
    | prop ns b' key => cases ns <;> simp [leaf, aliasesName, propName] at h
    | v2Override b' n => simp [leaf, aliasesName, overrideName] at h
    | modifier b' => simp [leaf, aliasesName, modifierName] at h
  | prop ns b key =>
    cases hk
    cases k' with
    | rateLimit n => cases hk'
    | aliases b' => cases ns <;> simp [leaf, aliasesName, propName] at h
    | prop ns' b' key' =>
      cases hk'
      cases ns <;> cases ns' <;> simp [leaf, propName] at h <;> rw [h]
    | v2Override b' n => cases ns <;> simp [leaf, propName, overrideName] at h
    | modifier b' => cases ns <;> simp [leaf, propName, modifierName] at h
  | v2Override b n =>
    cases hk
    cases k' with
    | rateLimit n => cases hk'
    | aliases b' => simp [leaf, aliasesName, overrideName] at h
    | prop ns' b' key' => cases ns' <;> simp [leaf, propName, overrideName] at h
    | v2Override b' n' =>
      cases hk'
      rw [append_cancel_left h]
    | modifier b' => simp [leaf, overrideName, modifierName] at h
  | modifier b =>
    cases hk
    cases k' with
    | rateLimit n => cases hk'
    | aliases b' => simp [leaf, aliasesName, modifierName] at h
    | prop ns' b' key' => cases ns' <;> simp [leaf, propName, modifierName] at h
    | v2Override b' n' => simp [leaf, overrideName, modifierName] at h
    | modifier b' => cases hk'; rfl

/-- No owner has a colon in its name. -/
def OwnerPlain (k : StoreKey) : Prop := ∀ a, owner k = some a → (58 : UInt8) ∉ a

theorem text_inj (hk : OwnerPlain k) (hk' : OwnerPlain k') (h : text k = text k') : k = k' := by
  cases ho : owner k with
  | none =>
    cases ho' : owner k' with
    | none =>
      cases k <;> cases ho
      cases k' <;> cases ho'
      rw [append_cancel_left h]
    | some a' =>
      cases k <;> cases ho
      rw [text_of_owner ho'] at h
      simp [text, rateLimitPrefix, tenantKeyPrefix] at h
  | some a =>
    rw [text_of_owner ho] at h
    cases ho' : owner k' with
    | none =>
      cases k' <;> cases ho'
      simp [text, rateLimitPrefix, tenantKeyPrefix] at h
    | some a' =>
      rw [text_of_owner ho'] at h
      obtain ⟨rfl, hl⟩ := (cut_first (hk a ho) (hk' a' ho')).mp (append_cancel_left h)
      exact leaf_inj ho ho' hl

/-! ## What the backend holds -/

/-- The names of an entry have no colon. -/
def Plain : StoreKey → Prop
  | .aliases a => (58 : UInt8) ∉ a
  | .prop _ a k => (58 : UInt8) ∉ a ∧ (58 : UInt8) ∉ k
  | .v2Override a n => (58 : UInt8) ∉ a ∧ (58 : UInt8) ∉ n
  | .modifier a => (58 : UInt8) ∉ a
  | .rateLimit n => (58 : UInt8) ∉ n

theorem Plain.owner (h : Plain k) : OwnerPlain k := by
  intro a ha
  cases k with
  | rateLimit n => cases ha
  | aliases b | modifier b => cases ha; exact h
  | prop ns b key | v2Override b n => cases ha; exact h.1

/-- The backend holds the entries, under their keys, and nothing else. -/
structure Holds (json : Json) (B : Backend) (s : Stored) (c : B.Content) : Prop where
  get : ∀ k, OwnerPlain k → B.get c (text k) = s.bytes json k
  only : ∀ t, (B.get c t).isSome = true → ∃ k, OwnerPlain k ∧ t = text k
  plain : ∀ k, (s.bytes json k).isSome = true → Plain k

theorem holds_empty (json : Json) (B : Backend) : Holds json B .empty B.empty where
  get := fun k _ => by cases k <;> exact B.get_empty _
  only := fun t ht => by rw [B.get_empty] at ht; cases ht
  plain := fun k hk => by cases k <;> cases hk

theorem holds_run {json : Json} {B : Backend} {s : Stored} {c c' : B.Content} {w : Write}
    (h : Holds json B s c) (hw : Plain w.key) (hr : w.run json B c = some c') :
    Holds json B (s.apply w) c' := by
  have hg := get_run hr
  constructor
  · intro k hk
    rw [hg, bytes_apply]
    by_cases hkw : k = w.key
    · rw [if_pos hkw, if_pos (by rw [hkw])]
    · rw [if_neg hkw, if_neg (fun ht => hkw (text_inj hk hw.owner ht)), h.get k hk]
  · intro t ht
    rw [hg] at ht
    by_cases htw : t = text w.key
    · exact ⟨w.key, hw.owner, htw⟩
    · rw [if_neg htw] at ht
      exact h.only t ht
  · intro k hk
    rw [bytes_apply] at hk
    by_cases hkw : k = w.key
    · rw [hkw]
      exact hw
    · rw [if_neg hkw] at hk
      exact h.plain k hk

theorem holds_foldlM {ws : List Write} (h : Holds json B s c) (hws : ∀ w ∈ ws, Plain w.key)
    (hrn : ws.foldlM (Write.run json B) c = some c') :
    Holds json B (ws.foldl Stored.apply s) c' := by
  induction ws generalizing s c with
  | nil =>
    cases hrn
    exact h
  | cons w ws ih =>
    obtain ⟨c1, hw, hr⟩ := bind_eq_some_iff.mp hrn
    rw [foldl_cons]
    exact ih (holds_run h (hws w (by simp)) hw) (fun w' hw' => hws w' (by simp [hw'])) hr

section Listings

variable {json : Json} {B : Backend} {s : Stored} {c : B.Content}

/-- What the scan of the tenants lists. -/
theorem mem_tenantKeys (h : Holds json B s c) : t ∈ B.listKeys c tenantKeyPrefix ↔
      ∃ k a, owner k = some a ∧ (s.bytes json k).isSome = true ∧ t = a ++ 58 :: leaf k := by
  rw [B.mem_listKeys]
  constructor
  · intro ht
    obtain ⟨k, hk, hkt⟩ := h.only _ ht
    rw [hkt, h.get k hk] at ht
    cases ho : owner k with
    | none =>
      cases k <;> cases ho
      simp [text, rateLimitPrefix, tenantKeyPrefix] at hkt
    | some a =>
      rw [text_of_owner ho] at hkt
      exact ⟨k, a, ho, ht, append_cancel_left hkt⟩
  · rintro ⟨k, a, ho, hk, rfl⟩
    rw [← text_of_owner ho, h.get k (h.plain k hk).owner]
    exact hk

/-- What stands under the prefix of one tenant. -/
theorem get_own (h : Holds json B s c) (ha : (58 : UInt8) ∉ a)
    (ht : (B.get c (tenantKeyPrefix ++ a ++ [58] ++ t)).isSome = true) :
    ∃ k, owner k = some a ∧ leaf k = t := by
  obtain ⟨k, hk, hkt⟩ := h.only _ ht
  cases ho : owner k with
  | none =>
    cases k <;> cases ho
    simp [text, rateLimitPrefix, tenantKeyPrefix] at hkt
  | some b =>
    rw [text_of_owner ho, append_assoc, append_assoc] at hkt
    obtain ⟨rfl, hl⟩ := (cut_first ha (hk b ho)).mp (append_cancel_left hkt)
    exact ⟨k, ho, hl.symm⟩

theorem get_leaf (h : Holds json B s c) (ho : owner k = some a) (ha : (58 : UInt8) ∉ a) :
    B.get c (tenantKeyPrefix ++ a ++ [58] ++ leaf k) = s.bytes json k := by
  have hp : OwnerPlain k := fun b hb => by
    rw [ho] at hb
    cases hb
    exact ha
  rw [← h.get k hp, text_of_owner ho]
  simp

theorem mem_rateLimitKeys (h : Holds json B s c) (ht : t ∈ B.listKeys c rateLimitPrefix) :
    (58 : UInt8) ∉ t := by
  have hg := (B.mem_listKeys c rateLimitPrefix t).mp ht
  have hrl : B.get c (rateLimitPrefix ++ t) = s.bytes json (.rateLimit t) :=
    h.get (.rateLimit t) nofun
  rw [hrl] at hg
  exact h.plain (.rateLimit t) hg

/-! ## The record of a tenant -/

/-- The aliases of a record; a tenant with none has its primary one. -/
def wanted (a : Bytes) (l : List Bytes) : List Bytes := if l.length = 0 then [a] else l

/-- The aliases that come back. -/
def recovered (a : Bytes) (l : List Bytes) : List Bytes := wanted a (l.map Utf8.scrub)

/-- The record says what is stored for the tenant. -/
structure RecordOf (s : Stored) (a : Bytes) (r : TenantRecord) : Prop where
  aliases : ∃ l, s.aliases a = some l ∧ r.aliases = wanted a l
  persistedID : r.persistedID = 0
  serviceURLs : ∀ k v, (k, v) ∈ r.serviceURLs ↔ s.props .urls a k = some v
  identifiers : ∀ k v, (k, v) ∈ r.identifiers ↔ s.props .ids a k = some v
  metadata : ∀ k v, (k, v) ∈ r.metadata ↔ s.props .metadata a k = some v

theorem mem_loadProps (h : Holds json B s c) (ha : (58 : UInt8) ∉ a) (ns : Namespace)
    (key val : Bytes) :
    (key, val) ∈ loadProps B c (tenantKeyPrefix ++ a ++ [58]) ns
        (B.listKeys c (tenantKeyPrefix ++ a ++ [58])) ↔ s.props ns a key = some val := by
  have hg : B.get c (tenantKeyPrefix ++ a ++ [58] ++ (propName ns ++ key)) = s.props ns a key :=
    get_leaf h (show owner (.prop ns a key) = some a from rfl) ha
  unfold loadProps
  rw [mem_filterMap]
  constructor
  · rintro ⟨k, -, hk⟩
    obtain ⟨key', hd, hky⟩ := bind_eq_some_iff.mp hk
    obtain ⟨val', hv, hpr⟩ := map_eq_some_iff.mp hky
    obtain ⟨p, rfl, hp⟩ := dropPrefix?_eq_some_iff.mp hd
    cases hpr
    rw [eq_of_beq hp, hg] at hv
    exact hv
  · intro hv
    rw [← hg] at hv
    refine ⟨propName ns ++ key, ?_, ?_⟩
    · rw [B.mem_listKeys, hv]
      rfl
    · rw [dropPrefix?_append_of_beq key (by simp), hv]
      rfl

theorem loadAliases_spec (h : Holds json B s c) (hl : s.aliases a = some l) :
    loadAliases json B c a = recovered a l := by
  have hb : s.bytes json (.aliases a) = some (json.marshalAliases l) := by
    rw [Stored.bytes, hl]
    rfl
  have hp : (58 : UInt8) ∉ a := h.plain (.aliases a) (by rw [hb]; rfl)
  have hg : B.get c (text (.aliases a)) = some (json.marshalAliases l) := by
    rw [h.get _ (Plain.owner (k := .aliases a) hp), hb]
  unfold loadAliases
  rw [show tenantKeyPrefix ++ a ++ aliasSuffix = text (.aliases a) from rfl, hg]
  simp only [json.unmarshal_marshalAliases]
  rfl

theorem loadTenantRecord_spec (h : Holds json B s c) (hl : s.aliases a = some l)
    (hv : recovered a l = wanted a l) : RecordOf s a (loadTenantRecord json B c a) := by
  have hb : s.bytes json (.aliases a) = some (json.marshalAliases l) := by
    rw [Stored.bytes, hl]
    rfl
  have hp : (58 : UInt8) ∉ a := h.plain (.aliases a) (by rw [hb]; rfl)
  refine ⟨⟨l, hl, ?_⟩, ?_, mem_loadProps h hp .urls, mem_loadProps h hp .ids,
    mem_loadProps h hp .metadata⟩
  · exact (loadAliases_spec h hl).trans hv
  · -- nothing is stored under the key of the id
    have hn : B.get c (tenantKeyPrefix ++ a ++ tenantIDSuffix) = none := by
      by_contra hs
      have hid : tenantKeyPrefix ++ a ++ tenantIDSuffix =
          tenantKeyPrefix ++ a ++ [58] ++ [116, 105, 100] := by
        rw [append_assoc _ [58]]
        rfl
      rw [hid] at hs
      obtain ⟨k, ho, hlf⟩ := get_own h hp (isSome_iff_ne_none.mpr hs)
      cases k with
      | rateLimit n => cases ho
      | aliases b => simp [leaf, aliasesName] at hlf
      | modifier b => simp [leaf, modifierName] at hlf
      | prop ns b key => cases ns <;> simp [leaf, propName] at hlf
      | v2Override b n => simp [leaf, overrideName] at hlf
    show getTenantID B c a = 0
    unfold getTenantID
    rw [hn]
    rfl

/-! ## The scan of the tenants -/

/-- A key of the scan, cut at its last colon: `{front}:{last}`. -/
def front : StoreKey → Bytes
  | .aliases a => a
  | .prop .urls a _ => a ++ [58, 117, 114, 108]
  | .prop .ids a _ => a ++ [58, 105, 100]
  | .prop .metadata a _ => a ++ [58, 109, 101, 116, 97]
  | .v2Override a _ => a ++ [58, 118, 50, 111, 118, 101, 114, 114, 105, 100, 101]
  | .modifier a => a
  | .rateLimit _ => []

def last : StoreKey → Bytes
  | .aliases _ => aliasesName
  | .prop _ _ key => key
  | .v2Override _ configName => configName
  | .modifier _ => modifierName
  | .rateLimit name => name

theorem append_leaf (h : owner k = some a) : a ++ 58 :: leaf k = front k ++ 58 :: last k := by
  cases k with
  | rateLimit n => cases h
  | aliases b | modifier b => cases h; rfl
  | prop ns b key => cases h; cases ns <;> simp [front, last, leaf, propName]
  | v2Override b n => cases h; simp [front, last, leaf, overrideName]

theorem last_plain (h : Plain k) : (58 : UInt8) ∉ last k := by
  cases k with
  | rateLimit n => exact h
  | aliases b => simp [last, aliasesName]
  | modifier b => simp [last, modifierName]
  | prop ns b key | v2Override b n => exact h.2

/-- Only a tenant called `tenant` has its name cut off. -/
theorem trimPrefix_of_ne (ha : (58 : UInt8) ∉ a) (hne : a ≠ tenantName) :
    trimPrefix (a ++ 58 :: t) tenantKeyPrefix = a ++ 58 :: t := by
  unfold trimPrefix
  cases hd : (a ++ 58 :: t).dropPrefix? tenantKeyPrefix with
  | none => rfl
  | some t' =>
    obtain ⟨p, hp, hpr⟩ := dropPrefix?_eq_some_iff.mp hd
    rw [eq_of_beq hpr] at hp
    exact absurd ((cut_first ha (by simp [tenantName])).mp hp).1 hne

theorem primaryAlias_of_ne (hk : Plain k) (ho : owner k = some a) (hne : a ≠ tenantName) :
    primaryAlias (a ++ 58 :: leaf k) = if last k = aliasesName then some (front k) else none := by
  have hs : aliasSuffix.isSuffixOf (a ++ 58 :: leaf k) = true ↔ last k = aliasesName := by
    rw [isSuffixOf_iff_suffix, append_leaf ho]
    constructor
    · rintro ⟨p, hp⟩
      exact ((cut_last (by simp) (last_plain hk)).mp hp).2.symm
    · intro hl
      exact ⟨front k, by rw [hl]; rfl⟩
  unfold primaryAlias
  by_cases hl : last k = aliasesName
  · rw [if_pos (hs.mpr hl), trimPrefix_of_ne (hk.owner a ho) hne, append_leaf ho, hl]
    have hd : (front k ++ 58 :: aliasesName).dropSuffix? aliasSuffix = some (front k) :=
      dropSuffix?_eq_some_iff.mpr ⟨aliasSuffix, rfl, by simp⟩
    rw [trimSuffix, hd]
    rfl
  · rw [if_neg hl, if_neg (fun h => hl (hs.mp h))]

theorem mem_discover : ∀ {keys seen : List Bytes},
    p ∈ discover seen keys ↔ p ∉ seen ∧ ∃ k ∈ keys, primaryAlias k = some p
  | [], seen => by simp [discover]
  | k :: keys, seen => by
    unfold discover
    cases hk : primaryAlias k with
    | none =>
      rw [mem_discover]
      simp [hk]
    | some q =>
    dsimp only
    split
    · rename_i hq
      simp only [mem_discover, mem_cons, exists_eq_or_imp, hk, some.injEq]
      refine and_congr_right fun hp => (or_iff_right ?_).symm
      rintro rfl
      exact hp hq
    · rename_i hq
      simp only [mem_discover, mem_cons, exists_eq_or_imp, hk, some.injEq, not_or]
      by_cases hpq : p = q
      · subst hpq
        simp [hq]
      · simp [hpq, Ne.symm hpq]

theorem nodup_discover : ∀ (keys seen : List Bytes), (discover seen keys).Nodup
  | [], seen => nodup_nil
  | k :: keys, seen => by
    unfold discover
    cases primaryAlias k with
    | none => exact nodup_discover keys seen
    | some q =>
    dsimp only
    split
    · exact nodup_discover keys seen
    · rw [nodup_cons]
      exact ⟨fun h => (mem_discover.mp h).1 (by simp), nodup_discover keys (q :: seen)⟩

/-- The primary aliases the scan finds are what stands before a last name `aliases`. -/
theorem mem_discover_tenantKeys (h : Holds json B s c) (htn : ∀ k, owner k = some tenantName →
    s.bytes json k = none) {p : Bytes} :
    p ∈ discover [] (B.listKeys c tenantKeyPrefix) ↔
      ∃ k a, owner k = some a ∧ (s.bytes json k).isSome = true ∧ last k = aliasesName ∧
        front k = p := by
  rw [mem_discover]
  constructor
  · rintro ⟨-, t, ht, hp⟩
    obtain ⟨k, a, ho, hk, rfl⟩ := (mem_tenantKeys h).mp ht
    have hne : a ≠ tenantName := by
      rintro rfl
      rw [htn k ho] at hk
      cases hk
    rw [primaryAlias_of_ne (h.plain k hk) ho hne] at hp
    split at hp
    · rename_i hl
      exact ⟨k, a, ho, hk, hl, some.inj hp⟩
    · cases hp
  · rintro ⟨k, a, ho, hk, hl, hf⟩
    have hne : a ≠ tenantName := by
      rintro rfl
      rw [htn k ho] at hk
      cases hk
    refine ⟨by simp, a ++ 58 :: leaf k, (mem_tenantKeys h).mpr ⟨k, a, ho, hk, rfl⟩, ?_⟩
    rw [primaryAlias_of_ne (h.plain k hk) ho hne, if_pos hl, hf]

/-! ## The other scans -/

/-- No listed name of a rate limit begins with the prefix it was listed by. -/
theorem loadAll_rateLimits (h : Holds json B s c) : (loadAll json B c).rateLimits = [] := by
  refine filterMap_eq_nil_iff.mpr ?_
  intro t ht
  have hc := mem_rateLimitKeys h ht
  have hpr : ¬ rateLimitPrefix.isPrefixOf t = true := by
    intro hp
    obtain ⟨t', rfl⟩ := isPrefixOf_iff_prefix.mp hp
    exact hc (by simp [rateLimitPrefix])
  rw [loadRateLimit, if_neg hpr]

/-- A listed tenant key is not a key. -/
theorem get_listed (h : Holds json B s c)
    (htn : ∀ k, owner k = some tenantName → s.bytes json k = none)
    (hrl : ∀ n, s.rateLimits n = none) {t : Bytes} (ht : t ∈ B.listKeys c tenantKeyPrefix) :
    B.get c t = none := by
  obtain ⟨k, a, ho, hk, rfl⟩ := (mem_tenantKeys h).mp ht
  by_contra hs
  obtain ⟨k', hk', htx⟩ := h.only _ (isSome_iff_ne_none.mpr hs)
  cases ho' : owner k' with
  | none =>
    cases k' with
    | rateLimit n =>
      rw [htx, h.get _ hk', Stored.bytes, hrl n] at hs
      exact hs rfl
    | aliases b | prop ns b key | v2Override b n | modifier b => cases ho'
  | some b =>
  rw [text_of_owner ho', show tenantKeyPrefix ++ (b ++ 58 :: leaf k') =
    tenantName ++ 58 :: (b ++ 58 :: leaf k') from rfl] at htx
  obtain ⟨rfl, -⟩ := (cut_first ((h.plain k hk).owner a ho) (by simp [tenantName])).mp htx
  rw [htn k ho] at hk
  cases hk

theorem loadV2Override_of_get (ht : B.get c t = none) : loadV2Override json B c t = none := by
  unfold loadV2Override
  cases (trimPrefix t tenantKeyPrefix).dropInfix? v2OverridePropPrefix with
  | none => rfl
  | some p =>
    dsimp only
    rw [ht, bind_none, ite_self]

theorem loadModifier_of_get (ht : B.get c t = none) : loadModifier json B c t = none := by
  dsimp only [loadModifier]
  rw [ht, bind_none, ite_self, ite_self]

/-! ## What comes back -/

/-- The snapshot is what is stored. The tenants come in any order. -/
structure Exact (s : Stored) (snap : Snapshot) : Prop where
  rateLimits : ∀ n cfg, (n, cfg) ∈ snap.rateLimits ↔ s.rateLimits n = some cfg
  tenants : ∃ primaries : List Bytes, primaries.Nodup ∧
    (∀ a, a ∈ primaries ↔ (s.aliases a).isSome = true) ∧
    (∀ ns a k, (s.props ns a k).isSome = true → a ∈ primaries) ∧
    List.Forall₂ (RecordOf s) primaries snap.tenants
  v2Overrides : ∀ a n r, (a, n, r) ∈ snap.v2Overrides ↔ s.v2Overrides a n = some r
  modifiers : ∀ a r, (a, r) ∈ snap.modifiers ↔ s.modifiers a = some r

/-- Every tenant has its aliases stored. -/
def Owned (json : Json) (s : Stored) : Prop :=
  ∀ k a, owner k = some a → (s.bytes json k).isSome = true → (s.aliases a).isSome = true

/-- What a restart can recover. -/
structure Recoverable (s : Stored) : Prop where
  rateLimits : ∀ n, s.rateLimits n = none
  v2Overrides : ∀ a n, s.v2Overrides a n = none
  modifiers : ∀ a, s.modifiers a = none
  props : ∀ ns a, s.props ns a aliasesName = none
  tenant : s.aliases tenantName = none
  utf8 : ∀ a l, s.aliases a = some l → ∀ x ∈ l, Utf8.scrub x = x

theorem recovered_eq (h : ∀ x ∈ l, Utf8.scrub x = x) : recovered a l = wanted a l := by
  rw [recovered, map_congr_left h, List.map_id']

/-- Some alias is not in UTF-8. -/
def dirty (l : List Bytes) : Bool := l.any fun x => Utf8.scrub x != x

theorem dirty_map_scrub (l : List Bytes) : dirty (l.map Utf8.scrub) = false := by
  simp [dirty, Utf8.scrub_scrub]

theorem wanted_of_mem (h : x ∈ l) : wanted a l = l :=
  if_neg fun h0 => not_mem_nil (length_eq_zero_iff.mp h0 ▸ h)

/-- Only a primary alias that stands in for a missing list comes back as it was. -/
theorem dirty_wanted_of_recovered (h : dirty (recovered a l) = true) :
    dirty (wanted a l) = true := by
  cases l with
  | nil => exact h
  | cons x l =>
    rw [recovered, wanted_of_mem (mem_map_of_mem mem_cons_self), dirty_map_scrub] at h
    cases h

theorem Owned.tenant (howned : Owned json s) (h : s.aliases tenantName = none) (k : StoreKey)
    (ho : owner k = some tenantName) : s.bytes json k = none := by
  by_contra hs
  have := howned k tenantName ho (isSome_iff_ne_none.mpr hs)
  rw [h] at this
  cases this

/-- Where one property is not more frequent than a weaker one, it is the same. -/
theorem imp_of_countP_eq {p q : Bytes → Bool} {l : List Bytes} (hpq : ∀ a ∈ l, p a → q a)
    (h : countP p l = countP q l) : ∀ a ∈ l, q a → p a := by
  induction l with
  | nil => nofun
  | cons b l ih =>
    rw [forall_mem_cons] at hpq ⊢
    have hle := countP_mono_left hpq.2
    rw [countP_cons, countP_cons] at h
    cases hb : p b with
    | true =>
      rw [hb, hpq.1 hb] at h
      exact ⟨fun _ => rfl, ih hpq.2 (by simpa using h)⟩
    | false =>
      cases hq : q b with
      | true =>
        rw [hb, hq] at h
        simp at h
        omega
      | false =>
        rw [hb, hq] at h
        exact ⟨nofun, ih hpq.2 (by simpa using h)⟩

section

variable (h : Holds json B s c) (howned : Owned json s)
include h howned

theorem mem_discover_iff (ht : s.aliases tenantName = none)
    (hv : ∀ a n, s.v2Overrides a n = none) (hp : ∀ ns a, s.props ns a aliasesName = none)
    (a : Bytes) :
    a ∈ discover [] (B.listKeys c tenantKeyPrefix) ↔ (s.aliases a).isSome = true := by
  rw [mem_discover_tenantKeys h (howned.tenant ht)]
  constructor
  · rintro ⟨k, b, ho, hk, hl, rfl⟩
    cases k with
    | rateLimit n => cases ho
    | modifier b' => simp [last, modifierName, aliasesName] at hl
    | aliases b' => exact howned _ b' rfl hk
    | prop ns b' key =>
      rw [show key = aliasesName from hl, Stored.bytes, hp] at hk
      cases hk
    | v2Override b' n =>
      rw [Stored.bytes, hv] at hk
      cases hk
  · intro ha
    refine ⟨.aliases a, a, rfl, ?_, rfl, rfl⟩
    rw [Stored.bytes, isSome_map]
    exact ha

theorem exact_of_recoverable (hr : Recoverable s) : Exact s (loadAll json B c) := by
  have hm := mem_discover_iff h howned hr.tenant hr.v2Overrides hr.props
  have hl := fun {t} => @get_listed _ _ _ _ h (howned.tenant hr.tenant) hr.rateLimits t
  constructor
  · intro n cfg
    rw [loadAll_rateLimits h, hr.rateLimits n]
    simp
  · refine ⟨discover [] (B.listKeys c tenantKeyPrefix), nodup_discover _ _, hm, ?_, ?_⟩
    · intro ns a k hk
      exact (hm a).mpr (howned (.prop ns a k) a rfl hk)
    · refine forall₂_map_right_iff.mpr (forall₂_same.mpr ?_)
      intro a ha
      obtain ⟨l, hl⟩ := isSome_iff_exists.mp ((hm a).mp ha)
      exact loadTenantRecord_spec h hl (recovered_eq (hr.utf8 a l hl))
  · intro a n r
    have hn : (loadAll json B c).v2Overrides = [] :=
      filterMap_eq_nil_iff.mpr (fun t ht => loadV2Override_of_get (hl ht))
    rw [hn, hr.v2Overrides a n]
    simp
  · intro a r
    have hn : (loadAll json B c).modifiers = [] :=
      filterMap_eq_nil_iff.mpr (fun t ht => loadModifier_of_get (hl ht))
    rw [hn, hr.modifiers a]
    simp

/-- A property called `aliases` makes one tenant too many. -/
theorem no_aliases_prop_of_exact
    (ht : s.aliases tenantName = none) (he : Exact s (loadAll json B c)) (ns : Namespace)
    (a : Bytes) : s.props ns a aliasesName = none := by
  by_contra hs
  have hsome' : (s.bytes json (.prop ns a aliasesName)).isSome = true := isSome_iff_ne_none.mpr hs
  obtain ⟨primaries, hn, hpr, -, hr⟩ := he.tenants
  have hm := fun {p} => @mem_discover_tenantKeys _ _ _ _ h (howned.tenant ht) p
  -- the scan finds every tenant, and the front of this property's key besides
  have hf : (front (.prop ns a aliasesName) :: primaries) ⊆
      discover [] (B.listKeys c tenantKeyPrefix) := by
    intro p hp
    rcases mem_cons.mp hp with rfl | hp
    · exact hm.mpr ⟨_, a, rfl, hsome', rfl, rfl⟩
    · refine hm.mpr ⟨.aliases p, p, rfl, ?_, rfl, rfl⟩
      rw [Stored.bytes, isSome_map]
      exact (hpr p).mp hp
  have hnw : front (.prop ns a aliasesName) ∉ primaries := by
    intro hin
    have hal := (hpr _).mp hin
    have hpl := h.plain (.aliases (front (.prop ns a aliasesName)))
      (by rw [Stored.bytes, isSome_map]; exact hal)
    cases ns <;> simp [Plain, front] at hpl
  have hl := (subperm_of_subset (nodup_cons.mpr ⟨hnw, hn⟩) hf).length_le
  have hsm : primaries.length = (discover [] (B.listKeys c tenantKeyPrefix)).length := by
    rw [hr.length_eq, loadAll, length_map]
  rw [length_cons] at hl
  omega

/-- Of an alias that is not in UTF-8 there is no record. The records that come back are as many as
should, and there would be one less with such an alias. -/
theorem utf8_of_exact (ht : s.aliases tenantName = none) (hv : ∀ a n, s.v2Overrides a n = none)
    (hp : ∀ ns a, s.props ns a aliasesName = none) (he : Exact s (loadAll json B c))
    (hl : s.aliases a = some l) : ∀ x ∈ l, Utf8.scrub x = x := by
  intro x hx
  by_contra hne
  obtain ⟨primaries, hn, hpr, -, hr⟩ := he.tenants
  have hm := mem_discover_iff h howned ht hv hp
  have hperm : (discover [] (B.listKeys c tenantKeyPrefix)).Perm primaries :=
    (perm_ext_iff_of_nodup (nodup_discover _ _) hn).mpr fun a => (hm a).trans (hpr a).symm
  let own (a : Bytes) : List Bytes := (s.aliases a).getD []
  have hwant : (loadAll json B c).tenants.map TenantRecord.aliases
      = primaries.map fun a => wanted a (own a) := by
    refine (forall₂_eq_eq_eq ▸ forall₂_map_left_iff.mpr (forall₂_map_right_iff.mpr
      (hr.imp fun a r hra => ?_)) : _ = _).symm
    obtain ⟨l, hl, ha⟩ := hra.aliases
    rw [ha]
    dsimp only [own]
    rw [hl, getD_some]
  have hback : (loadAll json B c).tenants.map TenantRecord.aliases
      = (discover [] (B.listKeys c tenantKeyPrefix)).map fun a => recovered a (own a) := by
    rw [loadAll, List.map_map]
    refine map_congr_left fun a ha => ?_
    obtain ⟨l, hl⟩ := isSome_iff_exists.mp ((hm a).mp ha)
    dsimp only [own]
    rw [hl, getD_some, ← loadAliases_spec h hl]
    rfl
  have hcount := congrArg (countP dirty) (hwant.symm.trans hback)
  rw [(hperm.map _).countP_eq, countP_map, countP_map] at hcount
  have ha : a ∈ primaries := (hpr a).mpr (by rw [hl]; rfl)
  have hd := imp_of_countP_eq (fun a _ => dirty_wanted_of_recovered) hcount.symm a ha
  dsimp only [own, Function.comp_apply] at hd
  rw [hl, getD_some, wanted_of_mem hx, recovered, wanted_of_mem (mem_map_of_mem hx),
    dirty_map_scrub] at hd
  cases hd (any_eq_true.mpr ⟨x, hx, bne_iff_ne.mpr hne⟩)

theorem recoverable_of_exact (htn : s.aliases tenantName = none) (he : Exact s (loadAll json B c)) :
    Recoverable s := by
  have hrl : ∀ n, s.rateLimits n = none := by
    intro n
    refine eq_none_iff_forall_ne_some.mpr (fun cfg hc => ?_)
    have hin := (he.rateLimits n cfg).mpr hc
    rw [loadAll_rateLimits h] at hin
    cases hin
  have hls := fun {t} => @get_listed _ _ _ _ h (howned.tenant htn) hrl t
  have hv : ∀ a n, s.v2Overrides a n = none := by
    intro a n
    refine eq_none_iff_forall_ne_some.mpr (fun r hr => ?_)
    obtain ⟨t, ht, hl⟩ := mem_filterMap.mp ((he.v2Overrides a n r).mpr hr)
    rw [loadV2Override_of_get (hls ht)] at hl
    cases hl
  have hp := no_aliases_prop_of_exact h howned htn he
  refine ⟨hrl, hv, ?_, hp, htn, fun a l hl => utf8_of_exact h howned htn hv hp he hl⟩
  · intro a
    refine eq_none_iff_forall_ne_some.mpr (fun r hr => ?_)
    obtain ⟨t, ht, hl⟩ := mem_filterMap.mp ((he.modifiers a r).mpr hr)
    rw [loadModifier_of_get (hls ht)] at hl
    cases hl

end

end Listings

/-- **What a restart recovers.** After any sequence of writes with plain names, in which every
tenant has its aliases stored, the snapshot is what is stored as long as no rate limit, override
or modifier is, no property is called `aliases`, no tenant is called `tenant` and all aliases are
in UTF-8; and without a tenant of that name, only then. -/
theorem loadAll_exact_iff (json : Json) (B : Backend) (ws : List Write) (c : B.Content)
    (hrun : ws.foldlM (Write.run json B) B.empty = some c) (hplain : ∀ w ∈ ws, Plain w.key)
    (howned : Owned json (ws.foldl Stored.apply .empty)) :
    Recoverable (ws.foldl Stored.apply .empty) ↔
      (ws.foldl Stored.apply .empty).aliases tenantName = none ∧
      Exact (ws.foldl Stored.apply .empty) (loadAll json B c) := by
  have h : Holds json B (ws.foldl Stored.apply .empty) c :=
    holds_foldlM (holds_empty json B) hplain hrun
  constructor
  · intro hr
    exact ⟨hr.tenant, exact_of_recoverable h howned hr⟩
  · rintro ⟨ht, he⟩
    exact recoverable_of_exact h howned ht he

/-! ## An encoding -/

section Unary

open Encodable

/-- The number of a value, in unary. -/
def unary {α : Type} (_ : Encodable α) : Marshals α where
  marshal := fun x => List.replicate (encode x) 0
  unmarshal := fun data => decode data.length
  unmarshal_marshal := by simp

@[reducible] def encodableAliases : Encodable (List Bytes) :=
  ofLeftInverse (fun l => l.map (fun b => b.map UInt8.toNat))
    (fun l => l.map (fun b => b.map UInt8.ofNat)) (by simp [Function.comp_def])

@[reducible] def encodableConfig : Encodable StoredRateLimitConfig :=
  ofLeftInverse (fun r => (r.perSec.toNat, r.perMin.toNat, r.burstFactor.toNat))
    (fun p => ⟨BitVec.ofNat 32 p.1, BitVec.ofNat 32 p.2.1, BitVec.ofNat 16 p.2.2⟩) (by simp)

@[reducible] def encodableOverride : Encodable TenantV2OverrideRecord :=
  ofLeftInverse
    (fun r => (r.blocked, r.rlDisabled, r.scaleOverridePct.toNat,
      r.windowLimits.map BitVec.toNat))
    (fun p => ⟨p.1, p.2.1, BitVec.ofNat 16 p.2.2.1, p.2.2.2.map (BitVec.ofNat 32)⟩)
    (by simp [Function.comp_def])

@[reducible] def encodableModifier : Encodable TenantModifierRecord :=
  ofLeftInverse (fun r => (r.blocked, r.rlDisabled, r.scalePct.toNat))
    (fun p => ⟨p.1, p.2.1, BitVec.ofNat 16 p.2.2⟩) (by simp)

/-- Something that reads back what it has written. -/
def unaryJson : Json where
  marshalAliases := fun l => (unary encodableAliases).marshal (l.map Utf8.scrub)
  unmarshalAliases := fun data => ((unary encodableAliases).unmarshal data).getD []
  unmarshal_marshalAliases := fun l => by rw [(unary encodableAliases).unmarshal_marshal]; rfl
  rateLimit := unary encodableConfig
  v2Override := unary encodableOverride
  modifier := unary encodableModifier

end Unary

/-- Tenant `a` with the URL `x`. -/
def oneURLWrites : List Write :=
  [.putTenantAliases [97] [[97]], .putServiceURL [97] [120] [121]]

theorem loadAll_oneURLWrites : ∃ c,
    oneURLWrites.foldlM (Write.run unaryJson memory) memory.empty = some c ∧
    Exact (oneURLWrites.foldl Stored.apply .empty) (loadAll unaryJson memory c) := by
  obtain ⟨c, hr⟩ : ∃ c, oneURLWrites.foldlM (Write.run unaryJson memory) memory.empty = some c :=
    ⟨_, rfl⟩
  have hp : ∀ w ∈ oneURLWrites, Plain w.key := by
    simp [oneURLWrites, Write.key, Plain]
  have howned : Owned unaryJson (oneURLWrites.foldl Stored.apply .empty) := by
    intro k a ho hk
    cases k <;> cases ho <;>
      simp_all [oneURLWrites, Stored.apply, Stored.bytes, Stored.empty, Stored.setProp]
  have hrc : Recoverable (oneURLWrites.foldl Stored.apply .empty) := by
    constructor <;>
      simp [oneURLWrites, Stored.apply, Stored.empty, Stored.setProp, aliasesName, tenantName]
    rfl
  exact ⟨c, hr, ((loadAll_exact_iff unaryJson memory oneURLWrites c hr hp howned).mp hrc).2⟩

/-- Tenant `a` with a modifier and an override, and the rate limit `r`. -/
def limitWrites : List Write :=
  [.putTenantAliases [97] [[97]], .putModifier [97] ⟨true, false, 0⟩,
    .putV2Override [97] [114] ⟨true, false, 0, []⟩, .putRateLimitConfig [114] ⟨1, 0, 100, 0⟩]

/-- **Rate limits are lost**, with the modifiers and the overrides. -/
theorem loadAll_limitWrites : ∃ c,
    limitWrites.foldlM (Write.run unaryJson memory) memory.empty = some c ∧
    (limitWrites.foldl Stored.apply .empty).rateLimits [114] = some ⟨1, 0, 100, 0⟩ ∧
    (loadAll unaryJson memory c).rateLimits = [] ∧
    (limitWrites.foldl Stored.apply .empty).modifiers [97] = some ⟨true, false, 0⟩ ∧
    (loadAll unaryJson memory c).modifiers = [] ∧
    (limitWrites.foldl Stored.apply .empty).v2Overrides [97] [114] = some ⟨true, false, 0, []⟩ ∧
    (loadAll unaryJson memory c).v2Overrides = [] :=
  ⟨_, rfl, rfl, rfl, rfl, rfl, rfl, rfl⟩

end Rah.Registry.Store
