import Mathlib.Data.List.AList
import Rah.Lib.Spaces

/-!
# Scoped keys and the memory store

All tenants share one map. What keeps them apart is the text of a key alone: `BuildScopedKey`
puts `tenant:{tenant}:{domain}:` before it, and `ListKeys` returns every key that begins with
`BuildScopedPrefix`. Neither looks for a `:` within the names, so that the scope of one tenant can
lie within the scope of another (`Reaches`).

A Go string is the list of its bytes, each written as the character of its number. A call begins
with `Acquire`, whose outcome depends on the caller's context and not on the store's content.
-/

namespace Rah.Datastore

open Rah.Lib List AList

abbrev Text := List Char

abbrev Bytes := List UInt8

/-! ## Scoped keys -/

/-- The errors of the key builder. -/
inductive KeyError where
  | tenantRequired | domainRequired | keyRequired
  deriving DecidableEq, Repr

/-- The text of the error. -/
def KeyError.text : KeyError → String
  | .tenantRequired => "tenant is required"
  | .domainRequired => "domain is required"
  | .keyRequired => "key is required"

/-- `tenant:{tenant}:{domain}:` -/
def scope (tenant domain : Text) : Text :=
  "tenant:".toList ++ (tenant ++ ':' :: (domain ++ [':']))

/-- `BuildScopedKey`: tenant, domain and key, none of them blank. -/
def buildScopedKey (tenant domain key : Text) : Except KeyError Text :=
  if trimSpace tenant = [] then .error .tenantRequired
  else if trimSpace domain = [] then .error .domainRequired
  else if trimSpace key = [] then .error .keyRequired
  else .ok (scope (trimSpace tenant) (trimSpace domain) ++ trimSpace key)

/-- `BuildScopedPrefix`: the same for a listing. -/
def buildScopedPrefix (tenant domain pre : Text) : Except KeyError Text :=
  if trimSpace tenant = [] then .error .tenantRequired
  else if trimSpace domain = [] then .error .domainRequired
  else if trimSpace pre = [] then .ok (scope (trimSpace tenant) (trimSpace domain))
  else .ok (scope (trimSpace tenant) (trimSpace domain) ++ trimSpace pre)

theorem buildScopedKey_ok (h : buildScopedKey tenant domain key = .ok k) :
    trimSpace domain ≠ [] ∧ trimSpace key ≠ []
      ∧ k = scope (trimSpace tenant) (trimSpace domain) ++ trimSpace key := by
  unfold buildScopedKey at h
  split at h
  · cases h
  split at h
  · cases h
  split at h
  · cases h
  · rename_i hd hk
    cases h
    exact ⟨hd, hk, rfl⟩

theorem buildScopedPrefix_ok (h : buildScopedPrefix tenant domain pre = .ok k) :
    k = scope (trimSpace tenant) (trimSpace domain) ++ trimSpace pre := by
  unfold buildScopedPrefix at h
  split at h
  · cases h
  split at h
  · cases h
  split at h
  · rename_i hp
    cases h
    rw [hp, append_nil]
  · cases h
    rfl

/-! ## The memory store -/

/-- `memoryStore.registry`. -/
abbrev Registry := AList (fun _ : Text => Bytes)

/-- `Put` at the scoped key. -/
def Registry.put (r : Registry) (domain tenant key : Text) (value : Bytes) :
    Except KeyError Registry := do
  let scopedKey ← buildScopedKey tenant domain key
  return r.insert scopedKey value

/-- `Get` at the scoped key. -/
def Registry.get (r : Registry) (domain tenant key : Text) : Except KeyError (Option Bytes) := do
  let scopedKey ← buildScopedKey tenant domain key
  return r.lookup scopedKey

/-- `Delete` at the scoped key. -/
def Registry.delete (r : Registry) (domain tenant key : Text) : Except KeyError Registry := do
  let scopedKey ← buildScopedKey tenant domain key
  return r.erase scopedKey

/-- In the order in which the map is walked. -/
def Registry.listKeys (r : Registry) (domain tenant pre : Text) : Except KeyError (List Text) := do
  let scopedPrefix ← buildScopedPrefix tenant domain pre
  return r.keys.filterMap (·.dropPrefix? scopedPrefix)

/-- The errors of the pool. -/
inductive AcquireError where
  | poolClosed | contextDone
  deriving DecidableEq, Repr

/-- What a client asks. -/
inductive Request where
  | put (key : Text) (value : Bytes)
  | get (key : Text)
  | delete (key : Text)
  | listKeys (pre : Text)
  deriving DecidableEq, Repr

/-- A call of a tenant; `acquire` is the error of `Acquire`, if it fails. -/
structure Call where
  tenant : Text
  request : Request
  acquire : Option AcquireError := none
  deriving DecidableEq, Repr

/-- What it is told. -/
inductive Answer where
  | acquireError (e : AcquireError)
  | keyError (e : KeyError)
  | done
  | found (value : Option Bytes)
  | keys (names : List Text)
  deriving DecidableEq, Repr

/-- What the call returns, and the map after it. -/
def serve (domain : Text) (r : Registry) (call : Call) : Answer × Registry :=
  match call.acquire with
  | some e => (.acquireError e, r)
  | none =>
    match call.request with
    | .put key value =>
      match r.put domain call.tenant key value with
      | .ok r' => (.done, r')
      | .error e => (.keyError e, r)
    | .get key =>
      match r.get domain call.tenant key with
      | .ok value => (.found value, r)
      | .error e => (.keyError e, r)
    | .delete key =>
      match r.delete domain call.tenant key with
      | .ok r' => (.done, r')
      | .error e => (.keyError e, r)
    | .listKeys pre =>
      match r.listKeys domain call.tenant pre with
      | .ok names => (.keys names, r)
      | .error e => (.keyError e, r)

/-- What the tenant's calls among these return. -/
def answersTo (domain tenant : Text) : Registry → List Call → List Answer
  | _, [] => []
  | r, call :: calls =>
    if call.tenant = tenant then
      (serve domain r call).1 :: answersTo domain tenant (serve domain r call).2 calls
    else answersTo domain tenant (serve domain r call).2 calls

/-- The same answer; the order of listed keys is that of a map and says nothing. -/
inductive Answer.Same : Answer → Answer → Prop where
  | refl (a : Answer) : Answer.Same a a
  | keys {names names' : List Text} : names.Perm names' → Answer.Same (.keys names) (.keys names')

/-- Whatever is called by whom, the second tenant is answered as if the first had called nothing. -/
def Isolated (domain first second : Text) : Prop :=
  ∀ (r : Registry) (calls : List Call),
    List.Forall₂ Answer.Same (answersTo domain second r calls)
      (answersTo domain second r (calls.filter (·.tenant ≠ first)))

/-- What calls of a tenant do to the map, and what they answer from it. -/
inductive Effect (domain tenant : Text) : (Registry → Answer × Registry) → Prop where
  | answer (a : Answer) : Effect domain tenant fun r => (a, r)
  | put (key : Text) (value : Bytes) : trimSpace domain ≠ [] →
      Effect domain tenant fun r =>
        (.done, r.insert (scope (trimSpace tenant) (trimSpace domain) ++ trimSpace key) value)
  | get (key : Text) :
      Effect domain tenant fun r =>
        (.found (r.lookup (scope (trimSpace tenant) (trimSpace domain) ++ trimSpace key)), r)
  | delete (key : Text) : trimSpace domain ≠ [] →
      Effect domain tenant fun r =>
        (.done, r.erase (scope (trimSpace tenant) (trimSpace domain) ++ trimSpace key))
  | listKeys (pre : Text) :
      Effect domain tenant fun r =>
        (.keys (r.keys.filterMap
          (·.dropPrefix? (scope (trimSpace tenant) (trimSpace domain) ++ trimSpace pre))), r)

theorem serve_effect (domain : Text) (call : Call) :
    Effect domain call.tenant fun r => serve domain r call := by
  obtain ⟨tenant, request, acquire⟩ := call
  cases acquire with
  | some e => exact .answer (.acquireError e)
  | none =>
  cases request with
  | put key value =>
    cases h : buildScopedKey tenant domain key with
    | error e =>
      simp only [serve, Registry.put, h]
      exact .answer (.keyError e)
    | ok k =>
      obtain ⟨hd, -, rfl⟩ := buildScopedKey_ok h
      simp only [serve, Registry.put, h]
      exact .put key value hd
  | get key =>
    cases h : buildScopedKey tenant domain key with
    | error e =>
      simp only [serve, Registry.get, h]
      exact .answer (.keyError e)
    | ok k =>
      obtain ⟨-, -, rfl⟩ := buildScopedKey_ok h
      simp only [serve, Registry.get, h]
      exact .get key
  | delete key =>
    cases h : buildScopedKey tenant domain key with
    | error e =>
      simp only [serve, Registry.delete, h]
      exact .answer (.keyError e)
    | ok k =>
      obtain ⟨hd, -, rfl⟩ := buildScopedKey_ok h
      simp only [serve, Registry.delete, h]
      exact .delete key hd
  | listKeys pre =>
    cases h : buildScopedPrefix tenant domain pre with
    | error e =>
      simp only [serve, Registry.listKeys, h]
      exact .answer (.keyError e)
    | ok k =>
      obtain rfl := buildScopedPrefix_ok h
      simp only [serve, Registry.listKeys, h]
      exact .listKeys pre

/-! ## Scopes that overlap -/

/-- A key of the first scope can begin with the second scope: the second is a beginning of the
first, or goes on from it with something a key can begin with. -/
def Reaches (first second : Text) : Prop :=
  second <+: first ∨ ∃ rest, first ++ rest = second ∧ leadingSpace rest = none

theorem reaches_of_isPrefix (h : second <+: first ++ trimSpace key) : Reaches first second := by
  obtain ⟨rest, hr⟩ := h
  rcases append_eq_append_iff.mp hr with ⟨t, rfl, -⟩ | ⟨t, rfl, hk⟩
  · exact .inl (prefix_append second t)
  · refine .inr ⟨t, rfl, leadingSpace_of_isPrefix ?_ (leadingSpace_trimSpace key)⟩
    exact hk ▸ prefix_append t rest

/-- If the second scope is within reach, some key of the first begins with it. -/
theorem Reaches.exists_key (h : Reaches first second) :
    ∃ key, trimSpace key = key ∧ key ≠ [] ∧ second <+: first ++ key := by
  have hl : 'x' ∉ spaceLasts := by decide
  have ht : ∀ rest : Text, leadingSpace rest = none →
      trimSpace (rest ++ ['x']) = rest ++ ['x'] := by
    intro rest hr
    exact trimSpace_eq_self (leadingSpace_concat hl hr) (trailingSpace_eq_none hl)
  rcases h with ⟨t, rfl⟩ | ⟨rest, rfl, hr⟩
  · refine ⟨['x'], ht [] rfl, cons_ne_nil _ _, ?_⟩
    rw [append_assoc]
    exact prefix_append _ _
  · refine ⟨rest ++ ['x'], ht rest hr, by simp, ?_⟩
    rw [← append_assoc]
    exact prefix_append _ _

/-! ## Isolation -/

/-- The maps agree on the keys that begin with the scope. -/
def Agree (pre : Text) (r r' : Registry) : Prop :=
  ∀ k, pre <+: k → r.lookup k = r'.lookup k

section Isolation

variable {pre : Text} {r r' : Registry}

section

variable (h : Agree pre r r')
include h

theorem Agree.insert (k : Text) (value : Bytes) :
    Agree pre (r.insert k value) (r'.insert k value) := by
  intro k' hk'
  by_cases hk : k' = k
  · rw [hk, lookup_insert, lookup_insert]
  · rw [lookup_insert_ne hk, lookup_insert_ne hk, h k' hk']

theorem Agree.erase (k : Text) : Agree pre (r.erase k) (r'.erase k) := by
  intro k' hk'
  by_cases hk : k' = k
  · rw [hk, lookup_erase, lookup_erase]
  · rw [lookup_erase_ne hk, lookup_erase_ne hk, h k' hk']

theorem Agree.insert_elsewhere (hk : ¬ pre <+: k) (value : Bytes) :
    Agree pre (r.insert k value) r' := by
  intro k' hk'
  have hne : k' ≠ k := by
    rintro rfl
    exact hk hk'
  rw [lookup_insert_ne hne, h k' hk']

theorem Agree.erase_elsewhere (hk : ¬ pre <+: k) : Agree pre (r.erase k) r' := by
  intro k' hk'
  have hne : k' ≠ k := by
    rintro rfl
    exact hk hk'
  rw [lookup_erase_ne hne, h k' hk']

theorem Agree.mem_keys (hk : pre <+: k) : k ∈ r.keys ↔ k ∈ r'.keys := by
  rw [← AList.mem_keys, ← AList.mem_keys, ← AList.lookup_isSome, ← AList.lookup_isSome, h k hk]

/-- Maps that agree on a scope list the same keys of it. -/
theorem Agree.listed (more : Text) : (r.keys.filterMap (·.dropPrefix? (pre ++ more))).Perm
      (r'.keys.filterMap (·.dropPrefix? (pre ++ more))) := by
  have hi : ∀ k k' s : Text, s ∈ k.dropPrefix? (pre ++ more) →
      s ∈ k'.dropPrefix? (pre ++ more) → k = k' := by
    intro k k' s hk hk'
    obtain ⟨p, rfl, hp⟩ := dropPrefix?_eq_some_iff.mp hk
    obtain ⟨p', rfl, hp'⟩ := dropPrefix?_eq_some_iff.mp hk'
    rw [eq_of_beq hp, eq_of_beq hp']
  have hm : ∀ (q : Registry) (s : Text),
      s ∈ q.keys.filterMap (·.dropPrefix? (pre ++ more)) ↔ pre ++ more ++ s ∈ q.keys := by
    intro q s
    rw [mem_filterMap]
    constructor
    · rintro ⟨k, hk, hs⟩
      obtain ⟨p, rfl, hp⟩ := dropPrefix?_eq_some_iff.mp hs
      rwa [← eq_of_beq hp]
    · intro hk
      exact ⟨_, hk, dropPrefix?_append_of_beq s (by simp)⟩
  refine (perm_ext_iff_of_nodup (r.keys_nodup.filterMap hi)
    (r'.keys_nodup.filterMap hi)).mpr fun s => ?_
  rw [hm, hm]
  exact h.mem_keys ⟨more ++ s, by rw [append_assoc]⟩

end

variable {domain tenant : Text} {f : Registry → Answer × Registry}

/-- The same call keeps maps in agreement. -/
theorem Effect.keeps (hf : Effect domain tenant f) (h : Agree pre r r') :
    Agree pre (f r).2 (f r').2 := by
  cases hf with
  | answer a | get key | listKeys p => exact h
  | put key value _ => exact h.insert _ value
  | delete key _ => exact h.erase _

/-- A tenant is answered the same by maps that agree on its scope. -/
theorem Effect.same (hf : Effect domain tenant f)
    (h : Agree (scope (trimSpace tenant) (trimSpace domain)) r r') : (f r).1.Same (f r').1 := by
  cases hf with
  | answer a => exact .refl a
  | put key value _ | delete key _ => exact .refl _
  | get key =>
    dsimp only
    rw [h _ (prefix_append _ _)]
    exact .refl _
  | listKeys p => exact .keys (h.listed _)

/-- A call of a tenant out of whose reach the scope is changes nothing in it. -/
theorem Effect.elsewhere (hf : Effect domain tenant f) (h : Agree pre r r')
    (hfr : trimSpace domain ≠ [] → ¬ Reaches (scope (trimSpace tenant) (trimSpace domain)) pre) :
    Agree pre (f r).2 r' := by
  cases hf with
  | answer a | get key | listKeys p => exact h
  | put key value hd =>
    exact h.insert_elsewhere (fun hp => hfr hd (reaches_of_isPrefix hp)) value
  | delete key hd =>
    exact h.erase_elsewhere fun hp => hfr hd (reaches_of_isPrefix hp)

variable {first second : Text}

/-- Calls that may not reach the second tenant's scope can be left out. -/
theorem answersTo_filter (hne : trimSpace first ≠ trimSpace second)
    (hfr : trimSpace domain ≠ [] → ¬ Reaches (scope (trimSpace first) (trimSpace domain))
      (scope (trimSpace second) (trimSpace domain)))
    (calls : List Call) (h : Agree (scope (trimSpace second) (trimSpace domain)) r r') :
    List.Forall₂ Answer.Same (answersTo domain second r calls)
      (answersTo domain second r' (calls.filter (·.tenant ≠ first))) := by
  induction calls generalizing r r' with
  | nil => exact .nil
  | cons call calls ih =>
  have hef := serve_effect domain call
  by_cases hf : call.tenant = first
  · -- the call is left out
    have hs : call.tenant ≠ second := fun he => hne (by rw [← hf, he])
    rw [filter_cons_of_neg (by simpa using hf), answersTo, if_neg hs]
    rw [hf] at hef
    exact ih (hef.elsewhere h hfr)
  · rw [filter_cons_of_pos (by simpa using hf), answersTo, answersTo]
    have hn := ih (hef.keeps h)
    split
    · rename_i hs
      rw [hs] at hef
      exact .cons (hef.same h) hn
    · exact hn

/-- If the second scope is within reach, a listing of the second tenant shows a key of the first. -/
theorem Reaches.not_isolated (hf : trimSpace first ≠ []) (hsc : trimSpace second ≠ [])
    (hdm : trimSpace domain ≠ []) (hne : trimSpace first ≠ trimSpace second)
    (h : Reaches (scope (trimSpace first) (trimSpace domain))
      (scope (trimSpace second) (trimSpace domain))) : ¬ Isolated domain first second := by
  obtain ⟨key, ht, hk, rest, hr⟩ := h.exists_key
  intro hi
  have hpt : buildScopedKey first domain key
      = .ok (scope (trimSpace second) (trimSpace domain) ++ rest) := by
    rw [buildScopedKey, if_neg hf, if_neg hdm, ht, if_neg hk, hr]
  have hl : buildScopedPrefix second domain []
      = .ok (scope (trimSpace second) (trimSpace domain)) := by
    rw [buildScopedPrefix, if_neg hsc, if_neg hdm]
    rfl
  have hn : first ≠ second := fun he => hne (by rw [he])
  have hd : (scope (trimSpace second) (trimSpace domain) ++ rest).dropPrefix?
      (scope (trimSpace second) (trimSpace domain)) = some rest :=
    dropPrefix?_append_of_beq rest (by simp)
  -- the first tenant puts the key, the second one lists all of its keys
  have hrn := hi ∅ [⟨first, .put key [], none⟩, ⟨second, .listKeys [], none⟩]
  have hwt : answersTo domain second ∅ [⟨first, .put key [], none⟩, ⟨second, .listKeys [], none⟩]
      = [.keys [rest]] := by
    simp [answersTo, hn, serve, Registry.put, hpt, Registry.listKeys, hl, pure, Except.pure,
      bind, Except.bind, hd]
  have hw : answersTo domain second ∅ ([⟨first, .put key [], none⟩,
      ⟨second, .listKeys [], none⟩].filter (·.tenant ≠ first)) = [.keys []] := by
    simp [answersTo, hn.symm, serve, Registry.listKeys, hl, pure, Except.pure, bind, Except.bind]
  rw [hwt, hw] at hrn
  cases hrn with
  | cons hs _ =>
    cases hs with
    | keys hp => exact absurd hp.length_eq (by simp)

/-- **Isolation of tenants.** Two tenants are isolated in a domain exactly if no key of the first
can begin with the scope of the second. -/
theorem isolated_iff (domain first second : Text) (hfirst : trimSpace first ≠ [])
    (hsecond : trimSpace second ≠ []) (hne : trimSpace first ≠ trimSpace second) :
    Isolated domain first second ↔
      (trimSpace domain ≠ [] → ¬ Reaches (scope (trimSpace first) (trimSpace domain))
        (scope (trimSpace second) (trimSpace domain))) := by
  constructor
  · intro hi hd hr
    exact hr.not_isolated hfirst hsecond hd hne hi
  · intro hf r calls
    exact answersTo_filter hne hf calls fun k _ => rfl

end Isolation

theorem isolated_ab : Isolated "kv".toList "a".toList "b".toList :=
  (isolated_iff "kv".toList "a".toList "b".toList (by decide) (by decide) (by decide)).mpr (by
    rintro - (h | ⟨rest, h, -⟩)
    · revert h
      decide
    · have hne : "tenant:a:kv:".toList ++ rest ≠ "tenant:b:kv:".toList := by simp
      exact hne h)

/-- A key of tenant `a` that is a key of tenant `a:kv:b` as well. -/
theorem colon_crosses_tenants : answersTo "kv".toList "a:kv:b".toList ∅
        [⟨"a".toList, .put "b:kv:k".toList [1], none⟩, ⟨"a:kv:b".toList, .get "k".toList, none⟩]
      = [.found (some [1])]
    ∧ answersTo "kv".toList "a:kv:b".toList ∅ [⟨"a:kv:b".toList, .get "k".toList, none⟩]
      = [.found none] := by
  constructor
  · decide
  · decide

end Rah.Datastore
