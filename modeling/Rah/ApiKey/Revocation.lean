import Rah.ApiKey.Indexes

/-!
# Requests on one key

`updateKey`, `rotateKey` and `revokeKey` each read the record of a key, edit the copy and call
`UpsertKey` or `DeleteKey`. The indexes are concurrent maps without a common lock, so that a step
of the system is one load, store or delete of one request (`advance`). A request that has read the
record before a revocation and writes it afterwards brings the key back.

`Orderly` is the order a lock would impose: no two requests are within `UpsertKey` or `DeleteKey`
at once, and no record is read before a deletion and written after it.
-/

namespace Rah.ApiKey

open Rah.Lib List Function
open Indexes (addToApp_byID deleteKey dropStale empty storeKey upsertKey)

structure UpdateKeyReq where
  keyAlias : Option String := none
  enabled : Option Bool := none
  allowedTenants : Option (List UInt16) := none
  deriving DecidableEq, Repr

/-- The fields that are not nil. -/
def UpdateKeyReq.edit (req : UpdateKeyReq) (rec : APIKeyRecord) : APIKeyRecord :=
  { rec with
    keyAlias := req.keyAlias.getD rec.keyAlias
    enabled := req.enabled.getD rec.enabled
    allowedTenants := req.allowedTenants.orElse fun _ => rec.allowedTenants }

/-- The prefix and the hash of a new raw key. -/
structure Fresh where
  keyPrefix : String
  hash : String
  deriving DecidableEq, Repr

/-- The record `rotateKey` stores. -/
def rotated (now : Int) (fresh : Fresh) (rec : APIKeyRecord) : APIKeyRecord where
  keyID := rec.keyID
  appID := rec.appID
  keyAlias := rec.keyAlias
  keyPrefix := fresh.keyPrefix
  hash := fresh.hash
  allowedTenants := rec.allowedTenants
  createdAt := rec.createdAt
  updatedAt := now

inductive Request where
  /-- `none` for a body that is not JSON. -/
  | updateKey (appID : UInt32) (body : Option UpdateKeyReq)
  /-- `none` if no random bytes can be read. -/
  | rotateKey (appID : UInt32) (fresh : Option Fresh)
  | revokeKey (appID : UInt32)
  deriving DecidableEq, Repr

def Request.appID : Request → UInt32
  | .updateKey appID _ => appID
  | .rotateKey appID _ => appID
  | .revokeKey appID => appID

inductive Reply where
  | written | revoked | appNotFound | keyNotFound | wrongApp | invalidJSON | generateFailed
  deriving DecidableEq, Repr

def Reply.status : Reply → Nat
  | .written => 200
  | .revoked => 200
  | .appNotFound => 404
  | .keyNotFound => 404
  | .wrongApp => 403
  | .invalidJSON => 400
  | .generateFailed => 500

/-- Where a request is: what it accesses next. -/
inductive Phase where
  | getRecord (req : Request)
  /-- `UpsertKey` is called. -/
  | upsert (rec : APIKeyRecord)
  | deleteHash (old : String) (rec : APIKeyRecord)
  | storeHash (rec : APIKeyRecord)
  | storeID (rec : APIKeyRecord)
  | addToApp (rec : APIKeyRecord)
  /-- `DeleteKey` is called. -/
  | delete
  | dropHash (rec : APIKeyRecord)
  | dropApp (rec : APIKeyRecord)
  | dropID
  | finished (reply : Reply)
  deriving DecidableEq, Repr

/-- What the request does with the record it has read. -/
def Request.withRecord (now : Int) : Request → APIKeyRecord → Phase
  | .updateKey _ none, _ => .finished .invalidJSON
  | .updateKey _ (some body), rec => .upsert (body.edit rec)
  | .rotateKey _ none, _ => .finished .generateFailed
  | .rotateKey _ (some fresh), rec => .upsert (rotated now fresh rec)
  | .revokeKey _, _ => .delete

/-- One access of a request on the key `i`. -/
def advance (i : UInt32) (now : Int) (s : Indexes) : Phase → Indexes × Phase
  | .getRecord req =>
    match s.getRecord i with
    | none => (s, .finished .keyNotFound)
    | some rec =>
      if rec.appID ≠ req.appID then (s, .finished .wrongApp) else (s, req.withRecord now rec)
  | .upsert rec =>
    match s.byID rec.keyID with
    | none => (s, .storeHash { rec with updatedAt := now })
    | some old =>
      if old.hash ≠ rec.hash then (s, .deleteHash old.hash { rec with updatedAt := now })
      else (s, .storeHash { rec with updatedAt := now })
  | .deleteHash old rec => (s.deleteHash old, .storeHash rec)
  | .storeHash rec => (s.storeHash rec.hash rec.entry, .storeID rec)
  | .storeID rec => (s.storeID rec.keyID rec, .addToApp rec)
  | .addToApp rec => (s.addToApp rec.appID rec.keyID, .finished .written)
  | .delete =>
    match s.byID i with
    | none => (s, .dropID)
    | some rec => (s, .dropHash rec)
  | .dropHash rec => (s.deleteHash rec.hash, .dropApp rec)
  | .dropApp rec => (s.removeFromApp rec.appID i, .dropID)
  | .dropID => (s.deleteID i, .finished .revoked)
  | .finished reply => (s, .finished reply)

/-! ## Requests alone -/

/-- The accesses one after another, with nothing in between. -/
def advances (i : UInt32) (now : Int) : Nat → Indexes × Phase → Indexes × Phase
  | 0, r => r
  | n + 1, r => advances i now n (advance i now r.1 r.2)

/-- A request alone does what `UpsertKey` does. -/
theorem advances_upsert (i : UInt32) (now : Int) (s : Indexes) (rec : APIKeyRecord) :
    ∃ n, advances i now n (s, .upsert rec) = (s.upsertKey now rec, .finished .written) := by
  cases ho : s.byID rec.keyID with
  | none =>
    refine ⟨4, ?_⟩
    simp [advances, advance, ho, upsertKey, storeKey, dropStale]
  | some old =>
  by_cases hne : old.hash = rec.hash
  · refine ⟨4, ?_⟩
    simp [advances, advance, ho, hne, upsertKey, storeKey, dropStale]
  · refine ⟨5, ?_⟩
    simp [advances, advance, ho, hne, upsertKey, storeKey, dropStale]

/-- And what `DeleteKey` does. -/
theorem advances_delete (i : UInt32) (now : Int) (s : Indexes) :
    ∃ n, advances i now n (s, .delete) = (s.deleteKey i, .finished .revoked) := by
  cases ho : s.byID i with
  | none =>
    refine ⟨2, ?_⟩
    simp [advances, advance, ho, deleteKey]
  | some rec =>
    refine ⟨4, ?_⟩
    simp [advances, advance, ho, deleteKey]

/-! ## Requests side by side -/

structure State where
  indexes : Indexes
  requests : List Phase
  /-- The hashes the key has had. -/
  belonged : List String

inductive Act where
  /-- A request comes in; `GetApp` finds its app or not. -/
  | receive (req : Request) (appFound : Bool)
  | access (n : Nat) (now : Int)
  deriving DecidableEq, Repr

/-- The hash that the access gives to the key. -/
def Phase.gives : Phase → List String
  | .storeHash rec => [rec.hash]
  | _ => []

def step (i : UInt32) (s : State) : Act → Option State
  | .receive req appFound =>
    some { s with
      requests := s.requests ++ [if appFound then .getRecord req else .finished .appNotFound] }
  | .access n now =>
    match s.requests[n]? with
    | none => none
    | some p =>
      some { indexes := (advance i now s.indexes p).1
             requests := s.requests.set n (advance i now s.indexes p).2
             belonged := s.belonged ++ p.gives }

def start (i : UInt32) (s : Indexes) : State where
  indexes := s
  requests := []
  belonged := (s.byID i).toList.map (·.hash)

/-! ## The order a lock would impose -/

/-- Between the load and the last store of `UpsertKey`. -/
def Phase.writing : Phase → Bool
  | .deleteHash _ _ => true
  | .storeHash _ => true
  | .storeID _ => true
  | _ => false

/-- Between the load and the last delete of `DeleteKey`. -/
def Phase.deleting : Phase → Bool
  | .dropHash _ => true
  | .dropApp _ => true
  | .dropID => true
  | _ => false

/-- Going to write a record it has read. -/
def Phase.pending : Phase → Bool
  | .upsert _ => true
  | p => p.writing

/-- No other request is in such a phase. -/
def State.NoOther (s : State) (n : Nat) (phase : Phase → Bool) : Prop :=
  ∀ m p, s.requests[m]? = some p → m ≠ n → phase p = false

/-- An access by which nothing overlaps that must not. -/
def Orderly (s : State) : Act → Prop
  | .receive _ _ => True
  | .access n _ =>
    (∀ req, s.requests[n]? = some (.getRecord req) → (∀ appID, req ≠ .revokeKey appID) →
        s.NoOther n Phase.deleting)
      ∧ (∀ rec, s.requests[n]? = some (.upsert rec) →
        s.NoOther n Phase.writing ∧ s.NoOther n Phase.deleting)
      ∧ (s.requests[n]? = some .delete → s.NoOther n Phase.pending ∧ s.NoOther n Phase.deleting)

/-! ## What an access does -/

/-- The accesses of a request on the key `i`, case by case. -/
inductive Moves (i : UInt32) (s : Indexes) : Phase → Indexes → Phase → Prop where
  | refuse {req : Request} {reply : Reply} : reply ≠ .revoked →
      Moves i s (.getRecord req) s (.finished reply)
  | read {req : Request} {rec rec' : APIKeyRecord} : (∀ appID, req ≠ .revokeKey appID) →
      s.byID i = some rec → rec'.keyID = rec.keyID → Moves i s (.getRecord req) s (.upsert rec')
  | revoke {appID : UInt32} : Moves i s (.getRecord (.revokeKey appID)) s .delete
  | replace {rec rec' old : APIKeyRecord} : rec'.keyID = rec.keyID → s.byID rec.keyID = some old →
      Moves i s (.upsert rec) s (.deleteHash old.hash rec')
  | keep {rec rec' : APIKeyRecord} : rec'.keyID = rec.keyID →
      (∀ old, s.byID rec.keyID = some old → old.hash = rec'.hash) →
      Moves i s (.upsert rec) s (.storeHash rec')
  | deleteHash {old : String} {rec : APIKeyRecord} :
      Moves i s (.deleteHash old rec) (s.deleteHash old) (.storeHash rec)
  | storeHash {rec : APIKeyRecord} :
      Moves i s (.storeHash rec) (s.storeHash rec.hash rec.entry) (.storeID rec)
  | storeID {rec : APIKeyRecord} :
      Moves i s (.storeID rec) (s.storeID rec.keyID rec) (.addToApp rec)
  | addToApp {rec : APIKeyRecord} :
      Moves i s (.addToApp rec) (s.addToApp rec.appID rec.keyID) (.finished .written)
  | absent : s.byID i = none → Moves i s .delete s .dropID
  | found {rec : APIKeyRecord} : s.byID i = some rec → Moves i s .delete s (.dropHash rec)
  | dropHash {rec : APIKeyRecord} :
      Moves i s (.dropHash rec) (s.deleteHash rec.hash) (.dropApp rec)
  | dropApp {rec : APIKeyRecord} :
      Moves i s (.dropApp rec) (s.removeFromApp rec.appID i) .dropID
  | dropID : Moves i s .dropID (s.deleteID i) (.finished .revoked)
  | rest {reply : Reply} : Moves i s (.finished reply) s (.finished reply)

theorem advance_moves (i : UInt32) (now : Int) (s : Indexes) (p : Phase) :
    Moves i s p (advance i now s p).1 (advance i now s p).2 := by
  cases p with
  | getRecord req =>
    dsimp only [advance]
    split
    · exact .refuse (by simp)
    rename_i rec hr
    split
    · exact .refuse (by simp)
    cases req with
    | updateKey appID body =>
      cases body with
      | none => exact .refuse (by simp)
      | some body => exact .read (by simp) hr rfl
    | rotateKey appID fresh =>
      cases fresh with
      | none => exact .refuse (by simp)
      | some fresh => exact .read (by simp) hr rfl
    | revokeKey appID => exact .revoke
  | upsert rec =>
    dsimp only [advance]
    split
    · next ho =>
      refine .keep rfl fun old hold => ?_
      rw [ho] at hold
      cases hold
    rename_i old ho
    split
    · exact .replace rfl ho
    · next hs =>
      refine .keep rfl fun old' hold => ?_
      rw [ho] at hold
      cases hold
      exact not_not.mp hs
  | deleteHash old rec => exact .deleteHash
  | storeHash rec => exact .storeHash
  | storeID rec => exact .storeID
  | addToApp rec => exact .addToApp
  | delete =>
    dsimp only [advance]
    split
    · next hr => exact .absent hr
    · next hr => exact .found hr
  | dropHash rec => exact .dropHash
  | dropApp rec => exact .dropApp
  | dropID => exact .dropID
  | finished reply => exact .rest

/-! ## The invariant -/

def Phase.inside (p : Phase) : Bool := p.writing || p.deleting

/-- The record a request is going to write is one of the key. -/
def Phase.Own (i : UInt32) : Phase → Prop
  | .upsert rec => rec.keyID = i
  | .deleteHash _ rec => rec.keyID = i
  | .storeHash rec => rec.keyID = i
  | .storeID rec => rec.keyID = i
  | _ => True

/-- Only such hashes still find an entry of the key, or an entry at all where the key has had the
hash. -/
def State.Tied (i : UInt32) (s : State) (H : String → Prop) : Prop :=
  ∀ h entry, s.indexes.byHash h = some entry → entry.keyID = i ∨ h ∈ s.belonged → H h

/-- Only the hash of the key's record does. -/
def State.Settled (i : UInt32) (s : State) : Prop :=
  s.Tied i fun h => ∃ rec, s.indexes.byID i = some rec ∧ rec.hash = h

/-- Which hashes do while a request is inside. -/
def State.Fits (i : UInt32) (s : State) : Phase → Prop
  | .deleteHash old _ => s.Tied i (· = old)
  | .storeHash rec => s.Tied i (· = rec.hash)
  | .storeID rec => s.Tied i (· = rec.hash)
  | .dropHash rec => s.indexes.byID i = some rec ∧ s.Tied i (· = rec.hash)
  | _ => s.Tied i fun _ => False

/-- At most one request is inside. -/
def State.Core (i : UInt32) (s : State) : Prop :=
  ((∀ p ∈ s.requests, p.inside = false) ∧ s.Settled i)
    ∨ ∃ n p, s.requests[n]? = some p ∧ p.inside = true ∧ s.Fits i p ∧ s.NoOther n Phase.inside
      ∧ (p.deleting = true → s.NoOther n Phase.pending)

structure State.Inv (i : UInt32) (s : State) : Prop where
  id : ∀ {rec}, s.indexes.byID i = some rec → rec.keyID = i
  own : ∀ p ∈ s.requests, p.Own i
  core : s.Core i
  revoked : .finished .revoked ∈ s.requests →
    s.indexes.byID i = none ∧ ∀ p ∈ s.requests, p.pending = false

section Invariant

variable {i : UInt32} {s s' : State} {n : Nat} {p p' : Phase} {H : String → Prop} {idx : Indexes}

theorem State.Core.inside (h : s.Core i) (hn : s.requests[n]? = some p) (hp : p.inside = true) :
    s.Fits i p ∧ s.NoOther n Phase.inside ∧ (p.deleting = true → s.NoOther n Phase.pending) := by
  rcases h with ⟨hnn, _⟩ | ⟨m, q, hm, hq, hf, ho, hpn⟩
  · rw [hnn p (mem_of_getElem? hn)] at hp
    cases hp
  by_cases hmn : m = n
  · subst hmn
    rw [hm] at hn
    cases hn
    exact ⟨hf, ho, hpn⟩
  · rw [ho n p hn (Ne.symm hmn)] at hp
    cases hp

/-- Nobody is inside, if nobody but a request outside could be, so that only the hash of the key's
record finds an entry of the key. -/
theorem State.Core.tied (h : s.Core i) (hn : s.requests[n]? = some p) (hp : p.inside = false)
    (ho : s.NoOther n Phase.inside)
    (hH : ∀ rec, s.indexes.byID i = some rec → H rec.hash) : s.Tied i H := by
  rcases h with ⟨_, hs⟩ | ⟨m, q, hm, hq, -⟩
  · intro hash entry he hk
    obtain ⟨rec, hr, rfl⟩ := hs hash entry he hk
    exact hH rec hr
  by_cases hmn : m = n
  · subst hmn
    rw [hm] at hn
    cases hn
    rw [hp] at hq
    cases hq
  · rw [ho m q hm hmn] at hq
    cases hq

/-- The requests after an access. -/
theorem getElem?_set_cases {l : List Phase} {m : Nat} {q : Phase}
    (h : (l.set n p')[m]? = some q) : (m = n ∧ q = p') ∨ (m ≠ n ∧ l[m]? = some q) := by
  by_cases hmn : m = n
  · subst hmn
    rw [getElem?_set_self'] at h
    obtain ⟨_, _, rfl⟩ := Option.map_eq_some_iff.mp h
    exact .inl ⟨rfl, rfl⟩
  · rw [getElem?_set_ne (Ne.symm hmn)] at h
    exact .inr ⟨hmn, h⟩

theorem State.NoOther.set (h : s.NoOther m phase) (hs : s'.requests = s.requests.set n p')
    (hp' : n ≠ m → phase p' = false) : s'.NoOther m phase := by
  intro k q hk hkm
  rw [hs] at hk
  rcases getElem?_set_cases hk with ⟨rfl, rfl⟩ | ⟨-, hk⟩
  · exact hp' hkm
  · exact h k q hk hkm

theorem State.NoOther.all (h : s.NoOther n phase) (hs : s'.requests = s.requests.set n p')
    (hp' : phase p' = false) : ∀ q ∈ s'.requests, phase q = false := by
  intro q hq
  rw [hs] at hq
  obtain ⟨m, hm⟩ := mem_iff_getElem?.mp hq
  rcases getElem?_set_cases hm with ⟨-, rfl⟩ | ⟨hmn, hm⟩
  · exact hp'
  · exact h m q hm hmn

/-- A request gets inside, or goes on inside. -/
theorem State.Core.enter (hn : s.requests[n]? = some p) (hs : s'.requests = s.requests.set n p')
    (hp' : p'.inside = true) (hf : s'.Fits i p') (ho : s.NoOther n Phase.inside)
    (hp : p'.deleting = true → s.NoOther n Phase.pending) : s'.Core i := by
  refine .inr ⟨n, p', ?_, hp', hf, ho.set hs (absurd rfl), fun hd => (hp hd).set hs (absurd rfl)⟩
  rw [hs, List.getElem?_set_self (List.getElem?_eq_some_iff.mp hn).1]

/-- A request leaves. -/
theorem State.Core.leave (hs : s'.requests = s.requests.set n p') (hp' : p'.inside = false)
    (ho : s.NoOther n Phase.inside) (hst : s'.Settled i) : s'.Core i :=
  .inl ⟨ho.all hs hp', hst⟩

/-- A request stays outside, and the lookups by hash and id stay as they are. -/
theorem State.Core.outside (h : s.Core i) (hn : s.requests[n]? = some p)
    (hs : s'.requests = s.requests.set n p') (hp : p.inside = false) (hp' : p'.inside = false)
    (hpd : p'.pending = true → s.NoOther n Phase.deleting)
    (hh : s'.indexes.byHash = s.indexes.byHash) (hid : s'.indexes.byID = s.indexes.byID)
    (hb : s'.belonged = s.belonged) : s'.Core i := by
  have ht : ∀ H, s'.Tied i H ↔ s.Tied i H := by
    intro H
    unfold State.Tied
    rw [hh, hb]
  rcases h with ⟨hnn, hst⟩ | ⟨m, q, hm, hq, hf, ho, hdl⟩
  · refine .leave hs hp' (fun m q hm _ => hnn q (mem_of_getElem? hm)) ?_
    unfold State.Settled at hst ⊢
    rw [ht, hid]
    exact hst
  have hmn : m ≠ n := by
    rintro rfl
    rw [hm] at hn
    cases hn
    rw [hp] at hq
    cases hq
  refine .inr ⟨m, q, ?_, hq, ?_, ho.set hs fun _ => hp', fun hd => (hdl hd).set hs fun _ => ?_⟩
  · rw [hs, getElem?_set_ne hmn.symm, hm]
  · cases q <;> simpa only [State.Fits, ht, hid] using hf
  cases hpn : p'.pending with
  | false => rfl
  | true =>
    rw [hpd hpn m q hm hmn] at hd
    cases hd

/-! ### Hashes under the accesses -/

theorem State.Tied.deleteHash (h : s.Tied i H) {ha : String}
    (hh : s'.indexes = s.indexes.deleteHash ha) (hb : s'.belonged = s.belonged) :
    s'.Tied i fun h => H h ∧ h ≠ ha := by
  intro h' entry he hk
  rw [hh] at he
  rw [hb] at hk
  obtain ⟨hne, he⟩ := Indexes.deleteHash_some he
  exact ⟨h h' entry he hk, hne⟩

theorem State.Tied.mono (h : s.Tied i H) (hH : ∀ h, H h → H' h) :
    s.Tied i H' := fun h' entry he hk => hH h' (h h' entry he hk)

/-- The access after which the key has its hash. -/
theorem State.Tied.storeHash {rec : APIKeyRecord} (h : s.Tied i (· = rec.hash))
    (hh : s'.indexes = s.indexes.storeHash rec.hash rec.entry)
    (hb : s'.belonged = s.belonged ++ [rec.hash]) : s'.Tied i (· = rec.hash) := by
  intro h' entry he hk
  by_contra hne
  rw [hh] at he
  have ho : s.indexes.byHash h' = some entry := by
    simpa [Indexes.storeHash, update_of_ne hne] using he
  refine hne (h h' entry ho ?_)
  rw [hb] at hk
  rcases hk with hk | hk
  · exact .inl hk
  · rcases mem_append.mp hk with hk | hk
    · exact .inr hk
    · exact absurd (mem_singleton.mp hk) hne

theorem State.Tied.of_eq (h : s.Tied i H) (hh : s'.indexes.byHash = s.indexes.byHash)
    (hb : s'.belonged = s.belonged) :
    s'.Tied i H := by
  intro h' entry he hk
  rw [hh] at he
  rw [hb] at hk
  exact h h' entry he hk

/-! ### An access keeps the invariant -/

theorem noOther_inside (h : s.NoOther n Phase.writing) (h' : s.NoOther n Phase.deleting) :
    s.NoOther n Phase.inside := by
  intro m q hm hmn
  rw [Phase.inside, h m q hm hmn, h' m q hm hmn]
  rfl

theorem noOther_writing (h : s.NoOther n Phase.pending) : s.NoOther n Phase.writing := by
  intro m q hm hmn
  have hq := h m q hm hmn
  cases q with
  | upsert rec => rfl
  | _ => exact hq

theorem core_access (h : s.Inv i) (hn : s.requests[n]? = some p)
    (hor : Orderly s (.access n now)) (hm : Moves i s.indexes p idx p') :
    State.Core i ⟨idx, s.requests.set n p', s.belonged ++ p.gives⟩ := by
  obtain ⟨hr, hu, hdl⟩ := hor
  cases hm with
  | refuse _ | revoke | rest =>
    exact h.core.outside hn rfl rfl rfl nofun rfl rfl (append_nil _)
  | read hnt _ _ =>
    exact h.core.outside hn rfl rfl rfl (fun _ => hr _ hn hnt) rfl rfl (append_nil _)
  | @replace rec rec' old hk hol =>
    obtain ⟨hw, hd⟩ := hu _ hn
    have ho := noOther_inside hw hd
    rw [show rec.keyID = i from h.own _ (mem_of_getElem? hn)] at hol
    have ht : s.Tied i (· = old.hash) := h.core.tied hn rfl ho fun rec0 hrc => by
      rw [hol] at hrc
      cases hrc
      rfl
    exact .enter hn rfl rfl (ht.of_eq rfl (append_nil _)) ho nofun
  | @keep rec rec' hk hs =>
    obtain ⟨hw, hd⟩ := hu _ hn
    have ho := noOther_inside hw hd
    rw [show rec.keyID = i from h.own _ (mem_of_getElem? hn)] at hs
    exact .enter hn rfl rfl ((h.core.tied hn rfl ho hs).of_eq rfl (append_nil _)) ho
      nofun
  | deleteHash =>
    obtain ⟨hf, ho, -⟩ := h.core.inside hn rfl
    refine .enter hn rfl rfl ((hf.deleteHash rfl (append_nil _)).mono ?_) ho nofun
    rintro hash ⟨heq, hne⟩
    exact absurd heq hne
  | storeHash =>
    obtain ⟨hf, ho, -⟩ := h.core.inside hn rfl
    exact .enter hn rfl rfl (hf.storeHash rfl rfl) ho nofun
  | @storeID rec =>
    obtain ⟨hf, ho, -⟩ := h.core.inside hn rfl
    refine .leave rfl rfl ho (State.Tied.of_eq (hf.mono ?_) rfl (append_nil _))
    rintro hash rfl
    refine ⟨rec, ?_, rfl⟩
    rw [← show rec.keyID = i from h.own _ (mem_of_getElem? hn)]
    exact update_self _ _ _
  | addToApp =>
    exact h.core.outside hn rfl rfl rfl nofun (Indexes.addToApp_byHash ..)
      (addToApp_byID ..) (append_nil _)
  | absent hnn =>
    obtain ⟨hp, hd⟩ := hdl hn
    have ho := noOther_inside (noOther_writing hp) hd
    have ht : s.Tied i fun _ => False := h.core.tied hn rfl ho fun rec hrc => by
      rw [hnn] at hrc
      cases hrc
    exact .enter hn rfl rfl (ht.of_eq rfl (append_nil _)) ho fun _ => hp
  | @found rec hrc =>
    obtain ⟨hp, hd⟩ := hdl hn
    have ho := noOther_inside (noOther_writing hp) hd
    have ht : s.Tied i (· = rec.hash) := h.core.tied hn rfl ho fun rec' hrec' => by
      rw [hrc] at hrec'
      cases hrec'
      rfl
    exact .enter hn rfl rfl ⟨hrc, ht.of_eq rfl (append_nil _)⟩ ho fun _ => hp
  | dropHash =>
    obtain ⟨⟨hrc, hf⟩, ho, hp⟩ := h.core.inside hn rfl
    refine .enter hn rfl rfl ((hf.deleteHash rfl (append_nil _)).mono ?_) ho fun _ => hp rfl
    rintro hash ⟨heq, hne⟩
    exact hne heq
  | dropApp =>
    obtain ⟨hf, ho, hp⟩ := h.core.inside hn rfl
    exact .enter hn rfl rfl (hf.of_eq rfl (append_nil _)) ho fun _ => hp rfl
  | dropID =>
    obtain ⟨hf, ho, -⟩ := h.core.inside hn rfl
    exact .leave rfl rfl ho (State.Tied.of_eq (hf.mono fun _ hno => hno.elim) rfl (append_nil _))

/-- What an access has to do with a record that is gone: it writes one, it has read one, it is the
last of a deletion, or it changes nothing of it. -/
theorem Moves.record {idx' : Indexes} (h : Moves i idx p idx' p') :
    p.pending = true ∨ idx.byID i ≠ none ∨ p = .dropID
      ∨ p'.pending = false ∧ idx'.byID i = idx.byID i := by
  cases h with
  | refuse _ | revoke | absent _ | found _ | dropHash | dropApp | rest =>
    exact .inr (.inr (.inr ⟨rfl, rfl⟩))
  | read _ hr _ => exact .inr (.inl (by rw [hr]; exact Option.some_ne_none _))
  | replace _ _ | keep _ _ | deleteHash | storeHash | storeID => exact .inl rfl
  | addToApp =>
    exact .inr (.inr (.inr ⟨rfl, by rw [addToApp_byID]⟩))
  | dropID => exact .inr (.inr (.inl rfl))

/-- After a revocation there is no record, and nobody is going to write one. -/
theorem revoked_access (h : s.Inv i) (hn : s.requests[n]? = some p)
    (hs : s'.requests = s.requests.set n p') (hmv : Moves i s.indexes p s'.indexes p')
    (hmm : .finished .revoked ∈ s'.requests) :
    s'.indexes.byID i = none ∧ ∀ q ∈ s'.requests, q.pending = false := by
  have hp : p ∈ s.requests := mem_of_getElem? hn

  -- the revocation was there before, or it is this request
  have hb : .finished .revoked ∈ s.requests ∨ p' = .finished .revoked := by
    rw [hs] at hmm
    exact (mem_or_eq_of_mem_set hmm).imp id Eq.symm
  by_cases hl : p = .dropID
  · subst hl
    obtain ⟨-, -, hpn⟩ := h.core.inside hn rfl
    generalize s'.indexes = idx at hmv ⊢
    cases hmv
    exact ⟨update_self _ _ _, (hpn rfl).all hs rfl⟩
  have hr : .finished .revoked ∈ s.requests := by
    rcases hb with hb | rfl
    · exact hb
    generalize s'.indexes = idx at hmv
    cases hmv with
    | refuse hne => exact absurd rfl hne
    | dropID => exact absurd rfl hl
    | rest => exact hp
  obtain ⟨hnn, hpn⟩ := h.revoked hr
  rcases hmv.record with hw | hrd | hd | ⟨hsl, hid⟩
  · rw [hpn p hp] at hw
    cases hw
  · exact absurd hnn hrd
  · exact absurd hd hl
  · exact ⟨hid.trans hnn, State.NoOther.all (fun m q hm _ => hpn q (mem_of_getElem? hm)) hs hsl⟩

theorem own_access (h : s.Inv i) (hp : p.Own i) (hm : Moves i s.indexes p idx p') :
    p'.Own i ∧ ∀ {rec}, idx.byID i = some rec → rec.keyID = i := by
  cases hm with
  | read _ hr hk => exact ⟨hk.trans (h.id hr), h.id⟩
  | replace hk _ | keep hk _ => exact ⟨hk.trans hp, h.id⟩
  | deleteHash | storeHash => exact ⟨hp, h.id⟩
  | @storeID rec =>
    obtain rfl : rec.keyID = i := hp
    refine ⟨trivial, fun {rec'} hr => ?_⟩
    have hs : (s.indexes.storeID rec.keyID rec).byID rec.keyID = some rec := update_self _ _ _
    rw [hs] at hr
    cases hr
    rfl
  | addToApp => exact ⟨trivial, fun hr => h.id (by rwa [addToApp_byID] at hr)⟩
  | dropID => exact ⟨trivial, fun hr => absurd rfl (Indexes.deleteID_some hr).1⟩
  | refuse _ | revoke | absent _ | found _ | dropHash | dropApp | rest => exact ⟨trivial, h.id⟩

/-- A request that comes in is outside. -/
theorem State.Inv.receive (h : s.Inv i) (hp : p.inside = false) (hpd : p.pending = false)
    (how : p.Own i) (hr : p ≠ .finished .revoked) :
    State.Inv i { s with requests := s.requests ++ [p] } := by
  have ho : ∀ {m : Nat} {phase : Phase → Bool}, s.NoOther m phase → phase p = false →
      State.NoOther { s with requests := s.requests ++ [p] } m phase := by
    intro m phase hph hsl k q hk hkm
    rw [getElem?_append] at hk
    split at hk
    · exact hph k q hk hkm
    · rw [mem_singleton.mp (mem_of_getElem? hk)]
      exact hsl
  have hmm : ∀ {q : Phase}, q ∈ s.requests ++ [p] → q ∈ s.requests ∨ q = p := by
    intro q hq
    exact (mem_append.mp hq).imp_right mem_singleton.mp
  refine ⟨h.id, fun q hq => ?_, ?_, fun hrv => ?_⟩
  · rcases hmm hq with hq | rfl
    · exact h.own q hq
    · exact how
  · rcases h.core with ⟨hn, hs⟩ | ⟨m, q, hm, hq, hf, hi, hdl⟩
    · refine .inl ⟨fun q hq => ?_, hs⟩
      rcases hmm hq with hq | rfl
      · exact hn q hq
      · exact hp
    · refine .inr ⟨m, q, ?_, hq, ?_, ho hi hp, fun hd => ho (hdl hd) hpd⟩
      · exact List.getElem?_append_left (List.getElem?_eq_some_iff.mp hm).1 ▸ hm
      · cases q <;> exact hf
  · rcases hmm hrv with hrv | heq
    · obtain ⟨hn, hpn⟩ := h.revoked hrv
      refine ⟨hn, fun q hq => ?_⟩
      rcases hmm hq with hq | rfl
      · exact hpn q hq
      · exact hpd
    · exact absurd heq.symm hr

/-- **The step lemma.** -/
theorem State.Inv.step {a : Act} (h : s.Inv i) (ho : Orderly s a)
    (hs : ApiKey.step i s a = some s') : s'.Inv i := by
  cases a with
  | receive req appFound =>
    cases hs
    cases appFound with
    | true | false => exact h.receive rfl rfl trivial nofun
  | access n now =>
  cases hn : s.requests[n]? with
  | none =>
    rw [ApiKey.step, hn] at hs
    cases hs
  | some p =>
  rw [ApiKey.step, hn] at hs
  have hm := advance_moves i now s.indexes p
  obtain rfl := Option.some.inj hs
  obtain ⟨how, hid⟩ := own_access h (h.own p (mem_of_getElem? hn)) hm
  refine ⟨hid, ?_, core_access h hn ho hm, revoked_access h hn rfl hm⟩
  intro q hq
  rcases mem_or_eq_of_mem_set hq with hq | rfl
  · exact h.own q hq
  · exact how

/-! ## Revocation -/

/-- What is known of the key before the requests: its record is its own, and only the hash of the
record finds an entry of the key. -/
structure KeyAt (i : UInt32) (idx : Indexes) : Prop where
  id : ∀ {rec}, idx.byID i = some rec → rec.keyID = i
  entry : ∀ {h entry}, idx.byHash h = some entry → entry.keyID = i →
    ∃ rec, idx.byID i = some rec ∧ rec.hash = h

theorem Indexes.Consistent.keyAt (h : idx.Consistent) : KeyAt i idx where
  id := h.id
  entry := by
    rintro ha entry he rfl
    exact h.entry he

theorem inv_start (h : KeyAt i idx) : (start i idx).Inv i where
  id := h.id
  own := nofun
  core := by
    refine .inl ⟨nofun, ?_⟩
    rintro ha entry he (hk | hb)
    · exact h.entry he hk
    · obtain ⟨rec, hr, rfl⟩ := mem_map.mp hb
      exact ⟨rec, Option.mem_toList.mp hr, rfl⟩
  revoked := nofun

theorem State.Inv.no_entry (h : s.Inv i) (hrv : .finished .revoked ∈ s.requests) {ha : String}
    {entry : APIKeyEntry} (he : s.indexes.lookupByHash ha = some entry) :
    entry.keyID ≠ i ∧ ha ∉ s.belonged := by
  obtain ⟨hnn, hpn⟩ := h.revoked hrv
  have hf : s.Tied i fun _ => False := by
    rcases h.core with ⟨-, hs⟩ | ⟨n, p, hn, hp, hft, -⟩
    · refine hs.mono ?_
      rintro _ ⟨rec, hr, -⟩
      rw [hnn] at hr
      cases hr
    -- a request inside is another revocation
    have hp' := hpn p (mem_of_getElem? hn)
    cases p with
    | dropHash rec =>
      obtain ⟨hr, -⟩ := hft
      rw [hnn] at hr
      cases hr
    | dropApp rec | dropID => exact hft
    | deleteHash old rec | storeHash rec | storeID rec => cases hp'
    | _ => cases hp
  exact ⟨fun hk => hf ha entry he (.inl hk), fun hb => hf ha entry he (.inr hb)⟩

/-- **Revocation is final.** After an orderly run in which a revocation has completed, no hash finds
an entry of the key, and no hash the key has had finds an entry. -/
theorem lookupByHash_revoked {idx : Indexes} (hstart : KeyAt i idx) {acts : List Act}
    (hrun : GoodRun (fun s a s' => ApiKey.step i s a = some s') Orderly (start i idx) acts s)
    (hrevoked : .finished .revoked ∈ s.requests) {hash : String} {entry : APIKeyEntry}
    (hentry : s.indexes.lookupByHash hash = some entry) :
    entry.keyID ≠ i ∧ hash ∉ s.belonged := by
  have hi := hrun.invariant (I := (·.Inv i)) (fun h ho hs => h.step ho hs) (inv_start hstart)
  exact hi.no_entry hrevoked hentry

end Invariant

/-- The indexes with two keys. -/
def twoKeys : Indexes :=
  (empty.storeKey { keyID := 1, appID := 1, hash := "h" }).storeKey
    { keyID := 2, appID := 1, hash := "g" }

theorem consistent_twoKeys : twoKeys.Consistent := by
  have hone : (empty.storeKey { keyID := 1, appID := 1, hash := "h" }).Consistent :=
    consistent_empty.storeKey nofun nofun
  refine hone.storeKey ?_ ?_
  · intro i other ho hi
    rw [Indexes.storeKey_byID] at ho
    obtain ⟨-, ⟨⟩⟩ | ⟨-, ⟨⟩⟩ := update_eq_some ho
    decide
  · nofun

/-- A request without others is orderly. -/
theorem orderly_alone (h : s.requests = [p]) (now : Int) : Orderly s (.access 0 now) := by
  have ha : ∀ phase : Phase → Bool, s.NoOther 0 phase := by
    intro phase m q hm hne
    rw [h] at hm
    rcases m with - | m
    · exact absurd rfl hne
    · cases hm
  exact ⟨fun _ _ _ => ha _, fun _ _ => ⟨ha _, ha _⟩, fun _ => ⟨ha _, ha _⟩⟩

theorem twoKeys_revoked : ∃ s,
    GoodRun (fun s a s' => ApiKey.step 1 s a = some s') Orderly (start 1 twoKeys)
      [.receive (.revokeKey 1) true, .access 0 5, .access 0 5, .access 0 5, .access 0 5,
        .access 0 5] s
    ∧ .finished .revoked ∈ s.requests
    ∧ ∃ entry, s.indexes.lookupByHash "g" = some entry ∧ entry.keyID ≠ 1 ∧ "g" ∉ s.belonged := by
  have hr : GoodRun (fun s a s' => ApiKey.step 1 s a = some s') Orderly (start 1 twoKeys)
      [.receive (.revokeKey 1) true, .access 0 5, .access 0 5, .access 0 5, .access 0 5,
        .access 0 5] _ :=
    .cons trivial rfl (.cons (orderly_alone rfl 5) rfl (.cons (orderly_alone rfl 5) rfl
      (.cons (orderly_alone rfl 5) rfl (.cons (orderly_alone rfl 5) rfl
        (.cons (orderly_alone rfl 5) rfl (.nil _))))))
  exact ⟨_, hr, by decide, _, rfl, lookupByHash_revoked consistent_twoKeys.keyAt hr (by decide) rfl⟩

/-- An update that has read the record before the revocation brings the key back. -/
theorem update_undoes_revocation : ∃ s,
    [Act.receive (.updateKey 1 (some {})) true, .access 0 5, .receive (.revokeKey 1) true,
        .access 1 6, .access 1 6, .access 1 6, .access 1 6, .access 1 6, .access 0 7,
        .access 0 7].foldlM (ApiKey.step 1) (start 1 twoKeys) = some s
      ∧ .finished .revoked ∈ s.requests
      ∧ (s.indexes.lookupByHash "h").map (·.keyID) = some 1 :=
  ⟨_, rfl, by decide, by decide⟩

end Rah.ApiKey
