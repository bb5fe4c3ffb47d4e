import Mathlib.Data.List.Basic
import Mathlib.Data.List.Nodup
import Rah.Lib.Naming
import Rah.Lib.Run

/-!
# The indexes of the API keys

A key record is found in three places: by the hash of the raw key (what the gateway looks up when
it validates a request), by its id, and in the list of its app. `UpsertKey` and `DeleteKey` bring
all three up to date from the record that stood under the id before.

Upserting removes the hash of the record it replaces, but not its app; and it does not ask whether
another key has the hash already. `Allowed` says of a call that neither matters.
-/

namespace Rah.ApiKey

open Rah.Lib List Function

structure APIKeyRecord where
  keyID : UInt32
  appID : UInt32
  keyAlias : String := ""
  keyPrefix : String := ""
  hash : String
  allowedTenants : Option (List UInt16) := none
  scopes : Option (List String) := none
  expiresAt : Int := 0
  enabled : Bool := true
  createdAt : Int := 0
  updatedAt : Int := 0
  deriving DecidableEq, Repr

/-- What a lookup by hash returns. -/
structure APIKeyEntry where
  keyID : UInt32
  appID : UInt32
  keyAlias : String
  enabled : Bool
  allowedTenants : Option (List UInt16)
  scopes : Option (List String)
  expiresAt : Int
  deriving DecidableEq, Repr

def APIKeyRecord.entry (rec : APIKeyRecord) : APIKeyEntry where
  keyID := rec.keyID
  appID := rec.appID
  keyAlias := rec.keyAlias
  enabled := rec.enabled
  allowedTenants := rec.allowedTenants
  scopes := rec.scopes
  expiresAt := rec.expiresAt

/-- `globalKeysByHash`, `globalKeysByID` and `globalKeysByApp`. -/
structure Indexes where
  byHash : String → Option APIKeyEntry
  byID : UInt32 → Option APIKeyRecord
  byApp : UInt32 → List UInt32

def Indexes.empty : Indexes where
  byHash := fun _ => none
  byID := fun _ => none
  byApp := fun _ => []

namespace Indexes

variable (s : Indexes)

def storeHash (hash : String) (entry : APIKeyEntry) : Indexes :=
  { s with byHash := update s.byHash hash (some entry) }

def deleteHash (hash : String) : Indexes :=
  { s with byHash := update s.byHash hash none }

def storeID (keyID : UInt32) (rec : APIKeyRecord) : Indexes :=
  { s with byID := update s.byID keyID (some rec) }

def deleteID (keyID : UInt32) : Indexes :=
  { s with byID := update s.byID keyID none }

/-- The section of `UpsertKey` under `globalKeysByAppMu`. -/
def addToApp (appID keyID : UInt32) : Indexes :=
  if keyID ∈ s.byApp appID then s
  else { s with byApp := update s.byApp appID (s.byApp appID ++ [keyID]) }

/-- The section of `DeleteKey` under `globalKeysByAppMu`. -/
def removeFromApp (appID keyID : UInt32) : Indexes :=
  { s with byApp := update s.byApp appID ((s.byApp appID).erase keyID) }

/-- The hash entry of the record that is replaced goes, if the hash is another one. -/
def dropStale (rec : APIKeyRecord) : Indexes :=
  match s.byID rec.keyID with
  | some old => if old.hash ≠ rec.hash then s.deleteHash old.hash else s
  | none => s

/-- `UpsertKey` from where the record has its time. -/
def storeKey (rec : APIKeyRecord) : Indexes :=
  (((s.dropStale rec).storeHash rec.hash rec.entry).storeID rec.keyID rec).addToApp rec.appID
    rec.keyID

def upsertKey (now : Int) (rec : APIKeyRecord) : Indexes := s.storeKey { rec with updatedAt := now }

def deleteKey (keyID : UInt32) : Indexes :=
  match s.byID keyID with
  | some rec => ((s.deleteHash rec.hash).removeFromApp rec.appID keyID).deleteID keyID
  | none => s.deleteID keyID

def lookupByHash (hash : String) : Option APIKeyEntry := s.byHash hash

def getRecord (keyID : UInt32) : Option APIKeyRecord := s.byID keyID

def listKeysByApp (appID : UInt32) : List APIKeyRecord := (s.byApp appID).filterMap s.byID

end Indexes

inductive Call where
  | upsertKey (now : Int) (rec : APIKeyRecord)
  | deleteKey (keyID : UInt32)
  deriving DecidableEq, Repr

def Indexes.call (s : Indexes) : Call → Indexes
  | .upsertKey now rec => s.upsertKey now rec
  | .deleteKey keyID => s.deleteKey keyID

/-- The indexes after the calls. -/
def Indexes.run (s : Indexes) (calls : List Call) : Indexes := calls.foldl Indexes.call s

/-! ## Agreement -/

/-- The lookup by hash and the list of an app say what the records say. -/
structure Indexes.Agree (s : Indexes) : Prop where
  byHash : ∀ i h, (∃ entry, s.lookupByHash h = some entry ∧ entry.keyID = i)
    ↔ ∃ rec, s.getRecord i = some rec ∧ rec.hash = h
  byApp : ∀ i a rec, rec ∈ s.listKeysByApp a ∧ rec.keyID = i
    ↔ s.getRecord i = some rec ∧ rec.appID = a
  once : ∀ a, ((s.listKeysByApp a).map (·.keyID)).Nodup

/-- Upserting a record whose hash no other key has, and whose key stays with its app. -/
def Allowed (s : Indexes) : Call → Prop
  | .upsertKey _ rec =>
    (∀ i other, s.byID i = some other → i ≠ rec.keyID → other.hash ≠ rec.hash)
      ∧ ∀ old, s.byID rec.keyID = some old → old.appID = rec.appID
  | .deleteKey _ => True

/-! ## What a call does -/

namespace Indexes

variable {s : Indexes} {rec : APIKeyRecord}

theorem addToApp_byHash : (s.addToApp appID keyID).byHash = s.byHash := by
  unfold addToApp
  split <;> rfl

theorem addToApp_byID (appID keyID : UInt32) : (s.addToApp appID keyID).byID = s.byID := by
  unfold addToApp
  split <;> rfl

variable {appID keyID a i : UInt32} {h : String}

theorem mem_addToApp :
    i ∈ (s.addToApp appID keyID).byApp a ↔ i ∈ s.byApp a ∨ (a = appID ∧ i = keyID) := by
  unfold addToApp
  split
  · rename_i hm
    constructor
    · exact .inl
    · rintro (h | ⟨rfl, rfl⟩)
      · exact h
      · exact hm
  · by_cases ha : a = appID
    · subst ha
      simp
    · simp [ha]

theorem nodup_addToApp (h : ∀ a, (s.byApp a).Nodup) (a : UInt32) :
    ((s.addToApp appID keyID).byApp a).Nodup := by
  unfold addToApp
  split
  · exact h a
  rename_i hn
  by_cases ha : a = appID
  · subst ha
    simpa [nodup_append] using ⟨h a, fun i hi he => hn (he ▸ hi)⟩
  · simpa [ha] using h a

theorem dropStale_byID : (s.dropStale rec).byID = s.byID := by
  unfold dropStale
  split
  · split <;> rfl
  · rfl

theorem dropStale_byApp : (s.dropStale rec).byApp = s.byApp := by
  unfold dropStale
  split
  · split <;> rfl
  · rfl

theorem storeKey_byID : (s.storeKey rec).byID = update s.byID rec.keyID (some rec) := by
  rw [storeKey, addToApp_byID]
  unfold storeID storeHash
  rw [dropStale_byID]

theorem storeKey_byHash_self : (s.storeKey rec).byHash rec.hash = some rec.entry := by
  rw [storeKey, addToApp_byHash]
  exact update_self _ _ _

theorem storeKey_byHash_ne (hne : h ≠ rec.hash) :
    (s.storeKey rec).byHash h = (s.dropStale rec).byHash h := by
  rw [storeKey, addToApp_byHash]
  exact update_of_ne hne _ _

/-- The hash of the record that is replaced is gone. -/
theorem dropStale_stale (ho : s.byID rec.keyID = some old) (hne : old.hash ≠ rec.hash) :
    (s.dropStale rec).byHash old.hash = none := by
  rw [dropStale, ho]
  dsimp only
  rw [if_pos hne]
  exact update_self _ _ _

theorem dropStale_other (ho : ∀ old, s.byID rec.keyID = some old → old.hash ≠ h) :
    (s.dropStale rec).byHash h = s.byHash h := by
  unfold dropStale
  split
  · rename_i old hol
    split
    · exact update_of_ne (ho old hol).symm _ _
    · rfl
  · rfl

theorem mem_storeKey_byApp :
    i ∈ (s.storeKey rec).byApp a ↔ i ∈ s.byApp a ∨ (a = rec.appID ∧ i = rec.keyID) := by
  rw [storeKey, mem_addToApp]
  unfold storeID storeHash
  rw [dropStale_byApp]

theorem nodup_storeKey (h : ∀ a, (s.byApp a).Nodup) (a : UInt32) :
    ((s.storeKey rec).byApp a).Nodup := by
  refine nodup_addToApp ?_ a
  unfold storeID storeHash
  rw [dropStale_byApp]
  exact h

theorem deleteID_some (h : (s.deleteID keyID).byID i = some rec) :
    i ≠ keyID ∧ s.byID i = some rec := by
  by_cases hi : i = keyID
  · simp [deleteID, hi] at h
  · simpa [deleteID, hi] using h

theorem deleteHash_some {ha : String} (he : (s.deleteHash ha).byHash h = some entry) :
    h ≠ ha ∧ s.byHash h = some entry := by
  by_cases hh : h = ha
  · simp [deleteHash, hh] at he
  · simpa [deleteHash, hh] using he

theorem mem_removeFromApp (h : ∀ a, (s.byApp a).Nodup) :
    i ∈ (s.removeFromApp appID keyID).byApp a ↔ i ∈ s.byApp a ∧ ¬ (a = appID ∧ i = keyID) := by
  unfold removeFromApp
  by_cases ha : a = appID
  · subst ha
    simp [(h a).mem_erase_iff, and_comm]
  · simp [ha]

theorem nodup_removeFromApp (h : ∀ a, (s.byApp a).Nodup) (a : UInt32) :
    ((s.removeFromApp appID keyID).byApp a).Nodup := by
  unfold removeFromApp
  by_cases ha : a = appID
  · subst ha
    simpa using (h a).erase keyID
  · simpa [ha] using h a

end Indexes

/-! ## The invariant -/

/-- Each record is found by its hash and in the list of its app, and nothing else is. -/
structure Indexes.Consistent (s : Indexes) : Prop where
  id : ∀ {i rec}, s.byID i = some rec → rec.keyID = i
  hash : ∀ {i rec}, s.byID i = some rec → s.byHash rec.hash = some rec.entry
  entry : ∀ {h entry}, s.byHash h = some entry →
    ∃ rec, s.byID entry.keyID = some rec ∧ rec.hash = h
  app : ∀ {i a}, i ∈ s.byApp a ↔ ∃ rec, s.byID i = some rec ∧ rec.appID = a
  nodup : ∀ a, (s.byApp a).Nodup

theorem consistent_empty : Indexes.empty.Consistent where
  id := nofun
  hash := nofun
  entry := nofun
  app := by
    intro i a
    constructor
    · nofun
    · rintro ⟨rec, h, -⟩
      cases h
  nodup := fun _ => nodup_nil

section Consistent

open Indexes

variable {s : Indexes}

theorem Indexes.Consistent.mem_list (h : s.Consistent) {a : UInt32} {rec : APIKeyRecord} :
    rec ∈ s.listKeysByApp a ↔ s.byID rec.keyID = some rec ∧ rec.appID = a := by
  unfold Indexes.listKeysByApp
  rw [mem_filterMap]
  constructor
  · rintro ⟨i, hi, hr⟩
    obtain ⟨rec', hrec', ha⟩ := h.app.mp hi
    rw [hr] at hrec'
    cases hrec'
    rw [h.id hr]
    exact ⟨hr, ha⟩
  · rintro ⟨hr, ha⟩
    exact ⟨rec.keyID, h.app.mpr ⟨rec, hr, ha⟩, hr⟩

/-- A hash names one key. -/
theorem Indexes.Consistent.hash_inj (h : s.Consistent) (hr : s.byID i = some r)
    (hr' : s.byID j = some r') (he : r.hash = r'.hash) : i = j := by
  have hen := h.hash hr
  rw [he, h.hash hr'] at hen
  have hid := congrArg (Option.map APIKeyEntry.keyID) hen
  have hk : r'.keyID = r.keyID := Option.some.inj hid
  rw [h.id hr, h.id hr'] at hk
  exact hk.symm

/-- Consistent indexes agree. -/
theorem Indexes.Consistent.agree (h : s.Consistent) : s.Agree where
  byHash := by
    intro i hash
    constructor
    · rintro ⟨entry, he, rfl⟩
      exact h.entry he
    · rintro ⟨rec, hr, rfl⟩
      exact ⟨rec.entry, h.hash hr, h.id hr⟩
  byApp := by
    intro i a rec
    rw [h.mem_list]
    constructor
    · rintro ⟨hr, rfl⟩
      exact hr
    · rintro ⟨hr, ha⟩
      obtain rfl := h.id hr
      exact ⟨⟨hr, ha⟩, rfl⟩
  once := by
    intro a
    -- the ids of the listed records are ids of the list, in its order
    have hi : ∀ ids : List UInt32, ((ids.filterMap s.byID).map (·.keyID)).Sublist ids := by
      intro ids
      induction ids with
      | nil => exact .slnil
      | cons i ids ih =>
      cases hr : s.byID i with
      | none =>
        rw [filterMap_cons_none hr]
        exact ih.cons i
      | some rec =>
        rw [filterMap_cons_some hr, map_cons, h.id hr]
        exact ih.cons_cons i
    exact (hi (s.byApp a)).nodup (h.nodup a)

/-! ### Upserting -/

section Upsert

variable {rec : APIKeyRecord}

/-- A call that is allowed keeps the indexes consistent. -/
theorem Indexes.Consistent.storeKey (h : s.Consistent)
    (hhs : ∀ i other, s.byID i = some other → i ≠ rec.keyID → other.hash ≠ rec.hash)
    (ha : ∀ old, s.byID rec.keyID = some old → old.appID = rec.appID) :
    (s.storeKey rec).Consistent where
  id := by
    intro i rec' hr
    rw [storeKey_byID] at hr
    obtain ⟨rfl, ⟨⟩⟩ | ⟨-, hr⟩ := update_eq_some hr
    · rfl
    · exact h.id hr
  hash := by
    intro i rec' hr
    rw [storeKey_byID] at hr
    obtain ⟨-, ⟨⟩⟩ | ⟨hi, hr⟩ := update_eq_some hr
    · exact storeKey_byHash_self
    rw [storeKey_byHash_ne (hhs i rec' hr hi), dropStale_other, h.hash hr]
    exact fun old ho he => hi (h.hash_inj hr ho he.symm)
  entry := by
    intro hash entry hen
    rw [storeKey_byID]
    by_cases hh : hash = rec.hash
    · subst hh
      rw [storeKey_byHash_self] at hen
      cases hen
      exact ⟨rec, update_self _ _ _, rfl⟩
    rw [storeKey_byHash_ne hh] at hen
    have hs : ∀ old, s.byID rec.keyID = some old → old.hash ≠ hash := by
      rintro old ho rfl
      rw [dropStale_stale ho hh] at hen
      cases hen
    rw [dropStale_other hs] at hen
    obtain ⟨rec', hr, hhash'⟩ := h.entry hen
    have hi : entry.keyID ≠ rec.keyID := by
      intro he
      rw [he] at hr
      exact hs rec' hr hhash'
    exact ⟨rec', by rw [update_of_ne hi, hr], hhash'⟩
  app := by
    intro i a
    rw [mem_storeKey_byApp, storeKey_byID, h.app]
    by_cases hi : i = rec.keyID
    · subst hi
      rw [update_self]
      constructor
      · rintro (⟨old, ho, rfl⟩ | ⟨rfl, -⟩)
        · exact ⟨rec, rfl, (ha old ho).symm⟩
        · exact ⟨rec, rfl, rfl⟩
      · rintro ⟨rec', hr, rfl⟩
        cases hr
        exact .inr ⟨rfl, rfl⟩
    · rw [update_of_ne hi]
      constructor
      · rintro (hr | ⟨-, he⟩)
        · exact hr
        · exact absurd he hi
      · exact .inl
  nodup := nodup_storeKey h.nodup

/-- If the indexes agree after the call, it was allowed. -/
theorem Indexes.Consistent.allowed_of_agree (h : s.Consistent) (ha : (s.storeKey rec).Agree) :
    (∀ i other, s.byID i = some other → i ≠ rec.keyID → other.hash ≠ rec.hash)
      ∧ ∀ old, s.byID rec.keyID = some old → old.appID = rec.appID := by
  constructor
  · intro i other ho hi he
    -- the hash would have to name both keys
    have hr : (s.storeKey rec).getRecord i = some other := by
      rw [Indexes.getRecord, storeKey_byID, update_of_ne hi, ho]
    obtain ⟨entry, hen, hid⟩ := (ha.byHash i rec.hash).mpr ⟨other, hr, he⟩
    rw [Indexes.lookupByHash, storeKey_byHash_self] at hen
    cases hen
    exact hi hid.symm
  · intro old hol
    -- the key is still in the list of the app it had
    have hr : (s.storeKey rec).byID rec.keyID = some rec := by
      rw [storeKey_byID, update_self]
    have hm : rec ∈ (s.storeKey rec).listKeysByApp old.appID := by
      refine mem_filterMap.mpr ⟨rec.keyID, ?_, hr⟩
      exact mem_storeKey_byApp.mpr (.inl (h.app.mpr ⟨old, hol, rfl⟩))
    exact ((ha.byApp rec.keyID old.appID rec).mp ⟨hm, rfl⟩).2.symm

end Upsert

/-! ### Deleting -/

theorem Indexes.Consistent.deleteKey (h : s.Consistent) (keyID : UInt32) :
    (s.deleteKey keyID).Consistent := by
  cases hr : s.byID keyID with
  | none =>
    have hs : s.deleteKey keyID = s := by
      rw [Indexes.deleteKey, hr]
      show { s with byID := _ } = s
      rw [← hr, update_eq_self]
    rw [hs]
    exact h
  | some rec =>
  have hd : s.deleteKey keyID
      = ((s.deleteHash rec.hash).removeFromApp rec.appID keyID).deleteID keyID := by
    rw [Indexes.deleteKey, hr]
  rw [hd]
  refine ⟨fun hr' => h.id (deleteID_some hr').2, fun hr' => ?_, fun {hash entry} hen => ?_,
    fun {i a} => (mem_removeFromApp (s := s) h.nodup).trans ?_, nodup_removeFromApp h.nodup⟩
  · -- another key has another hash
    obtain ⟨hi, hr'⟩ := deleteID_some hr'
    exact (update_of_ne (fun he => hi (h.hash_inj hr' hr he)) _ _).trans (h.hash hr')
  · obtain ⟨hne, hen⟩ := deleteHash_some (s := s) hen
    obtain ⟨rec', hr', hh⟩ := h.entry hen
    have hi : entry.keyID ≠ keyID := by
      intro he
      rw [he, hr] at hr'
      cases hr'
      exact hne hh.symm
    exact ⟨rec', (update_of_ne hi _ _).trans hr', hh⟩
  rw [h.app]
  constructor
  · rintro ⟨⟨rec', hr', rfl⟩, hn⟩
    have hi : i ≠ keyID := by
      rintro rfl
      rw [hr] at hr'
      cases hr'
      exact hn ⟨rfl, rfl⟩
    exact ⟨rec', (update_of_ne hi _ _).trans hr', rfl⟩
  · rintro ⟨rec', hr', rfl⟩
    obtain ⟨hi, hr'⟩ := deleteID_some hr'
    exact ⟨⟨rec', hr', rfl⟩, fun hb => hi hb.2⟩

/-! ### Runs of calls -/

theorem Indexes.Consistent.call (h : s.Consistent) {call : Call} (ha : Allowed s call) :
    (s.call call).Consistent := by
  cases call with
  | upsertKey now rec => exact h.storeKey ha.1 ha.2
  | deleteKey keyID => exact h.deleteKey keyID

theorem Indexes.Consistent.allowed (h : s.Consistent) {call : Call} (ha : (s.call call).Agree) :
    Allowed s call := by
  cases call with
  | upsertKey now rec =>
    have hs : (s.storeKey { rec with updatedAt := now }).Agree := ha
    have hb := h.allowed_of_agree hs
    exact hb
  | deleteKey keyID => trivial

theorem Indexes.Consistent.agree_iff (h : s.Consistent) (calls : List Call) :
    (∀ before, before <+: calls → (s.run before).Agree)
      ↔ GoodRun (fun s call s' => s' = s.call call) Allowed s calls (s.run calls) := by
  induction calls generalizing s with
  | nil =>
    constructor
    · intro _
      exact .nil s
    · intro _ before hb
      rw [prefix_nil.mp hb]
      exact h.agree
  | cons call calls ih =>
    constructor
    · intro hag
      have ha : Allowed s call := h.allowed (hag [call] ⟨calls, rfl⟩)
      refine .cons ha rfl ((ih (h.call ha)).mp fun before hb => ?_)
      exact hag (call :: before) (cons_prefix_cons.mpr ⟨rfl, hb⟩)
    intro hrn before hb
    cases hrn with
    | cons ha hst hr =>
    subst hst
    cases before with
    | nil => exact h.agree
    | cons call' before =>
      obtain ⟨rfl, hs⟩ := cons_prefix_cons.mp hb
      exact (ih (h.call ha)).mpr hr before hs

end Consistent

/-- **The indexes agree.** They agree after each of the calls exactly if each call, in the indexes
before it, is allowed. -/
theorem agree_iff_allowed (calls : List Call) :
    (∀ before, before <+: calls → (Indexes.empty.run before).Agree)
      ↔ GoodRun (fun s call s' => s' = s.call call) Allowed Indexes.empty calls
        (Indexes.empty.run calls) :=
  consistent_empty.agree_iff calls

/-- Two keys imported with one raw key: the hash finds only the second, and deleting that leaves
the first without a hash entry. -/
theorem shared_hash_disagrees : ∃ first second : APIKeyRecord, first.keyID ≠ second.keyID ∧
      (Indexes.empty.run [.upsertKey 0 first, .upsertKey 0 second]).getRecord first.keyID
        = some first
      ∧ ((Indexes.empty.run [.upsertKey 0 first, .upsertKey 0 second]).lookupByHash first.hash).map
        (·.keyID) = some second.keyID
      ∧ (Indexes.empty.run [.upsertKey 0 first, .upsertKey 0 second,
        .deleteKey second.keyID]).lookupByHash first.hash = none :=
  ⟨{ keyID := 1, appID := 1, hash := "h" }, { keyID := 2, appID := 1, hash := "h" }, by decide,
    by decide, by decide, by decide⟩

end Rah.ApiKey
