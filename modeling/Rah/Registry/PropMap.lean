import Rah.Lib.Run
import Rah.Registry.Cells

/-!
# The registry as a map of properties

What the registry is for is a map: a value for each kind of property, tenant and name
(`Props`). The code's reads give this map for a name that was the first of its byte to be
used, and nothing for every other name: the search for it never succeeds, so every use of
the name makes a new column that no later use finds.
-/

namespace Rah.Registry

open Rah.Lib List Option

/-- The properties as a map. `names` lists the names as they have been used, oldest first. -/
structure Props where
  value : Namespace → Nat → Bytes → Option Bytes
  names : Namespace → List Bytes

def Props.empty : Props := { value := fun _ _ _ => none, names := fun _ => [] }

def Props.touch (p : Props) (ns : Namespace) (key : Bytes) : Props :=
  { p with names := fun ns' => if ns' = ns then p.names ns ++ [key] else p.names ns' }

def Props.put (p : Props) (ns : Namespace) (t : Nat) (key : Bytes) (value : Option Bytes) : Props :=
  { p with value := fun ns' t' k =>
      if ns' = ns ∧ t' = t ∧ k = key then value else p.value ns' t' k }

def Props.set (p : Props) (ns : Namespace) (t : Nat) (key value : Bytes) : Props :=
  (p.touch ns key).put ns t key (some value)

def Props.erase (p : Props) (ns : Namespace) (t : Nat) (key : Bytes) : Props :=
  p.put ns t key none

def Props.setAll (p : Props) (ns : Namespace) (t : Nat) (props : List (Bytes × Bytes)) : Props :=
  props.foldl (fun p kv => p.set ns t kv.1 kv.2) p

/-- An operation of the manager. -/
inductive Op where
  | add (ns : Namespace) (aliasName name value : Bytes)
  | delete (ns : Namespace) (aliasName name : Bytes)
  | upsert (aliases : List Bytes) (serviceURLs identifiers metadata : List (Bytes × Bytes))
  | ensure (ns : Namespace) (key : Bytes)

def step (s : Manager) : Op → Option Manager
  | .add ns aliasName name value => addProp ns s aliasName name value
  | .delete ns aliasName name => deleteProp ns s aliasName name
  | .upsert aliases urls ids metadata => upsertTenantState s aliases urls ids metadata
  | .ensure ns key => (ensureKeyID ns s key).map Prod.snd

/-- The tenant of an alias, or the one it will get. -/
def Manager.tenantOf (s : Manager) (aliasName : Bytes) : Nat :=
  (s.aliasMap aliasName).getD s.allocTenant.1

/-- What an operation means for the map. -/
def Props.apply (p : Props) (s : Manager) : Op → Props
  | .add ns aliasName name value => p.set ns (s.tenantOf aliasName) name value
  | .delete ns aliasName name =>
    match s.aliasMap aliasName with
    | none => p
    | some t => p.erase ns t name
  | .upsert [] _ _ _ => p
  | .upsert (aliasName :: _) urls ids metadata =>
    let t := s.tenantOf aliasName
    ((p.setAll .urls t urls).setAll .ids t ids).setAll .metadata t metadata
  | .ensure ns key => p.touch ns key

/-! ## The correspondence -/

/-- The value of a number in the pool. -/
def valueOf (pool : List Bytes) (vID : Nat) : Option Bytes :=
  if vID = 0 ∨ vID ≥ pool.length then none else pool[vID]?

/-- The registry has these columns, and reads through them as the map says. -/
structure Tracks (reg : TenantRegistry) (cols : Namespace → List Bytes) (p : Props) : Prop where
  stores : ∀ ns, StoreInv (reg.store ns) reg.maxTenants (cols ns) reg.valuePool.length
  rows : 0 < reg.maxTenants ∧ reg.maxTenants < 65536
  /-- Number 0 stands for an unset cell. -/
  unset : reg.valuePool ≠ [] → reg.valuePool[0]? = some []
  values : ∀ ns t k i, column (cols ns) k = some i →
    valueOf reg.valuePool (cellOf (reg.store ns) t i) = p.value ns t k
  names : ∀ ns key, firstLike (cols ns) key = firstLike (p.names ns) key
  seen : ∀ ns t k, p.value ns t k ≠ none → k ∈ p.names ns

/-- The columns once a name has been used. -/
def addCol (cols : Namespace → List Bytes) (ns : Namespace) (key : Bytes) :
    Namespace → List Bytes :=
  fun ns' => if ns' = ns ∧ column (cols ns) key = none then cols ns ++ [key] else cols ns'

theorem setStore_self (reg : TenantRegistry) (ns : Namespace) (store : PropStore) :
    (reg.setStore ns store).store ns = store :=
  if_pos rfl

theorem setStore_ne (reg : TenantRegistry) (store : PropStore) (h : ns' ≠ ns) :
    (reg.setStore ns store).store ns' = reg.store ns' :=
  if_neg h

/-- No property of the tenant is set. -/
def BlankRow (reg : TenantRegistry) (cols : Namespace → List Bytes) (t : Nat) : Prop :=
  ∀ ns i, i < (cols ns).length → cellOf (reg.store ns) t i = 0

theorem resolveOrCreateTenant_create (h : s.aliasMap aliasName = none) (reg : TenantRegistry) :
    resolveOrCreateTenant s reg aliasName = (growFor reg s.allocTenant.1).map
      (fun reg => (s.allocTenant.1, s.allocTenant.2.setAlias aliasName s.allocTenant.1, reg)) := by
  rw [resolveOrCreateTenant, h, growFor]
  dsimp only
  split
  · split <;> rfl
  · rfl

section Tracks

variable {reg : TenantRegistry} {cols : Namespace → List Bytes} {p : Props} {ns : Namespace}
variable {key : Bytes}

variable {i v tID k : Nat}

section

variable (h : Tracks reg cols p)
include h

theorem Tracks.found_names (hc : column (cols ns) key = some i) (key' : Bytes) :
    firstLike (p.names ns ++ [key]) key' = firstLike (p.names ns) key' := by
  rw [firstLike_append]
  cases hf : firstLike (p.names ns) key' with
  | some c => rfl
  | none =>
  have hne : key.head? ≠ key'.head? := by
    intro hh
    have hs : firstLike (cols ns) key = some key := by
      by_contra hn
      rw [(column_eq_none_iff _ _).mpr hn] at hc
      cases hc
    rw [firstLike_congr hh, h.names, hf] at hs
    cases hs
  rw [firstLike_cons, if_neg hne]
  rfl

theorem Tracks.seen_touch (ns : Namespace) (key : Bytes) (ns' : Namespace)
    (t : Nat) (k : Bytes) (hv : p.value ns' t k ≠ none) : k ∈ (p.touch ns key).names ns' := by
  have hm := h.seen ns' t k hv
  rw [Props.touch]
  dsimp only
  by_cases hns : ns' = ns
  · subst hns
    rw [if_pos rfl]
    exact mem_append_left _ hm
  · rw [if_neg hns]
    exact hm

/-- A name in use leads to its column. -/
theorem resolve_found (hk : Name key) (hc : column (cols ns) key = some i) :
    resolveOrCreateKey ns reg key = some (i, reg) ∧ Tracks reg cols (p.touch ns key) := by
  refine ⟨?_, h.stores, h.rows, h.unset, h.values, ?_, h.seen_touch ns key⟩
  · rw [resolveOrCreateKey, resolveOrCreateStoreKey, (h.stores ns).keyed.findKeyID_eq hk.nonempty,
      hc]
  intro ns' key'
  rw [h.names, Props.touch]
  dsimp only
  by_cases hns : ns' = ns
  · subst hns
    rw [if_pos rfl, h.found_names hc]
  · rw [if_neg hns]

/-- A name that leads to no column gets a new one, unset for every tenant. -/
theorem resolve_new (hk : Name key)
    (hfw : (cols ns).length + 1 < 65536) (hcol : column (cols ns) key = none) :
    ∃ reg', resolveOrCreateKey ns reg key = some ((cols ns).length, reg')
      ∧ Tracks reg' (addCol cols ns key) (p.touch ns key)
      ∧ reg'.maxTenants = reg.maxTenants ∧ reg'.valuePool = reg.valuePool
      ∧ (∀ t, cellOf (reg'.store ns) t (cols ns).length = 0)
      ∧ ∀ t, BlankRow reg cols t → BlankRow reg' (addCol cols ns key) t := by
  obtain ⟨store, he, hst, hcl⟩ := newColumn_spec (h.stores ns) hk hfw h.rows.2
  have hki : uint16 (reg.store ns).stride = (cols ns).length := by
    rw [(h.stores ns).keyed.stride, uint16, Nat.mod_eq_of_lt (by omega)]
  have hs : addCol cols ns key ns = cols ns ++ [key] := if_pos ⟨rfl, hcol⟩
  have ho : ∀ ns', ns' ≠ ns → addCol cols ns key ns' = cols ns' :=
    fun ns' hns => if_neg (fun hc => hns hc.1)
  rw [hki] at hst hcl
  refine ⟨reg.setStore ns (insertIntoPropertiesRadix store key (cols ns).length), ?_,
    ⟨?_, h.rows, h.unset, ?_, ?_, h.seen_touch ns key⟩, rfl, rfl, ?_, ?_⟩
  · rw [resolveOrCreateKey, resolveOrCreateStoreKey, (h.stores ns).keyed.findKeyID_eq hk.nonempty,
      hcol]
    dsimp only
    rw [if_neg (show reg.maxTenants ≠ 0 by have := h.rows.1; omega), he, hki]
  · intro ns'
    by_cases hns : ns' = ns
    · subst hns
      rw [hs, setStore_self]
      exact hst
    · rw [ho ns' hns, setStore_ne _ _ hns]
      exact h.stores ns'
  · intro ns' t k i hi
    by_cases hns : ns' = ns
    · subst hns
      rw [hs] at hi
      rw [setStore_self]
      have hlt := column_lt hi
      rw [length_append] at hlt
      rw [hcl t i hlt]
      rcases column_append_cases hi with hol | ⟨rfl, rfl, hf⟩
      · rw [if_pos (column_lt hol)]
        exact h.values ns' t k i hol
      -- a name that no other of its byte came before has no value yet
      rw [if_neg (by omega)]
      have hn : p.value ns' t k = none := by
        by_contra hne
        refine firstLike_of_mem (h.seen ns' t k hne) ?_
        rw [← h.names, hf]
      exact hn.symm
    · rw [ho ns' hns] at hi
      rw [setStore_ne _ _ hns]
      exact h.values ns' t k i hi
  · intro ns' key'
    rw [Props.touch]
    dsimp only
    by_cases hns : ns' = ns
    · subst hns
      rw [hs, if_pos rfl, firstLike_append, firstLike_append, h.names]
    · rw [ho ns' hns, if_neg hns, h.names]
  · intro t
    rw [setStore_self, hcl t _ (by omega), if_neg (Nat.lt_irrefl _)]
  intro t hb ns' i hi
  by_cases hns : ns' = ns
  · subst hns
    rw [hs, length_append] at hi
    rw [setStore_self, hcl t i hi]
    split
    · exact hb ns' i (by assumption)
    · rfl
  · rw [ho ns' hns] at hi
    rw [setStore_ne _ _ hns]
    exact hb ns' i hi

/-- **A use of a name.** The column it gets is the only one the name can lead to later. -/
theorem resolve_spec (hk : Name key) (hf : (cols ns).length + 1 < 65536) :
    ∃ reg' k, resolveOrCreateKey ns reg key = some (k, reg')
      ∧ Tracks reg' (addCol cols ns key) (p.touch ns key)
      ∧ reg'.maxTenants = reg.maxTenants ∧ reg'.valuePool = reg.valuePool
      ∧ (addCol cols ns key ns)[k]? = some key
      ∧ (∀ i, column (addCol cols ns key ns) key = some i → i = k)
      ∧ (column (cols ns) key = none → ∀ t, cellOf (reg'.store ns) t k = 0)
      ∧ (∀ i, column (cols ns) key = some i → i = k)
      ∧ ∀ t, BlankRow reg cols t → BlankRow reg' (addCol cols ns key) t := by
  cases hcl : column (cols ns) key with
  | some i =>
    obtain ⟨hr, ht⟩ := resolve_found h hk hcl
    have hsm : addCol cols ns key = cols := by
      funext ns'
      exact if_neg (fun hc => by rw [hcl] at hc; exact absurd hc.2 (by simp))
    rw [hsm]
    refine ⟨reg, i, hr, ht, rfl, rfl, column_getElem? hcl, ?_, by simp, ?_, fun _ hb => hb⟩
    · intro j hj
      rw [hcl] at hj
      exact (some.inj hj).symm
    · intro j hj
      exact (some.inj hj).symm
  | none =>
    obtain ⟨reg', hr, ht, hm, hp, hu, hb⟩ := resolve_new h hk hf hcl
    have hs : addCol cols ns key ns = cols ns ++ [key] := if_pos ⟨rfl, hcl⟩
    refine ⟨reg', _, hr, ht, hm, hp, ?_, ?_, fun _ => hu, by simp, hb⟩
    · rw [hs]
      simp
    intro i hi
    rw [hs] at hi
    rcases column_append_cases hi with ho | ⟨hi, _, _⟩
    · rw [hcl] at ho
      cases ho
    · exact hi

end

theorem valueOf_append (pool more : List Bytes) (hv : v = 0 ∨ v < pool.length) :
    valueOf (pool ++ more) v = valueOf pool v := by
  unfold valueOf
  by_cases hz : v = 0
  · rw [if_pos (.inl hz), if_pos (.inl hz)]
  · have hlt : v < pool.length := hv.resolve_left hz
    rw [if_neg (by rw [length_append]; omega), if_neg (by omega), getElem?_append_left hlt]

section

variable (h : Tracks reg cols p)
include h

/-- A pool that has only grown reads the same. -/
theorem Tracks.pool_append (more : List Bytes)
    (hu : reg.valuePool ++ more ≠ [] → (reg.valuePool ++ more)[0]? = some []) :
    Tracks { reg with valuePool := reg.valuePool ++ more } cols p := by
  refine ⟨?_, h.rows, hu, ?_, h.names, h.seen⟩
  · intro ns
    refine ⟨(h.stores ns).keyed, (h.stores ns).grid, ?_⟩
    intro t i hi
    rcases (h.stores ns).cells t i hi with hz | hlt
    · exact .inl hz
    · exact .inr (Nat.lt_of_lt_of_le hlt (by rw [length_append]; omega))
  · intro ns t k i hi
    rw [← h.values ns t k i hi]
    exact valueOf_append _ _ ((h.stores ns).cells t i (column_lt hi))

/-- The pool takes a value, once; an empty one has number 0. -/
theorem internValue_spec (value : Bytes) (hr : reg.valuePool.length < 4294967295) :
    ∃ v reg', internValue reg value = (v, reg') ∧ Tracks reg' cols p
      ∧ reg'.store = reg.store ∧ reg'.maxTenants = reg.maxTenants
      ∧ (v = 0 ∨ v < reg'.valuePool.length)
      ∧ valueOf reg'.valuePool v = (if value = [] then none else some value)
      ∧ reg'.valuePool.length ≤ max reg.valuePool.length 1 + 1 := by
  split
  · rename_i hv
    rw [hv]
    exact ⟨0, reg, rfl, h, rfl, rfl, .inl rfl, rfl, by omega⟩
  rename_i hv
  -- the pool with its sentinel
  obtain ⟨pool, hp, h0, hzr, hl⟩ : ∃ pool,
      (if reg.valuePool.length = 0 then [[]] else reg.valuePool) = pool
        ∧ Tracks { reg with valuePool := pool } cols p ∧ pool[0]? = some []
        ∧ pool.length = max reg.valuePool.length 1 := by
    by_cases hn : reg.valuePool = []
    · have hg := h.pool_append [[]] (fun _ => by rw [hn]; rfl)
      rw [hn] at hg ⊢
      exact ⟨_, if_pos rfl, hg, rfl, rfl⟩
    · have hps := length_pos_iff.mpr hn
      exact ⟨_, if_neg (by omega), h, h.unset hn, by omega⟩
  have he : ¬ value.length = 0 := fun hz => hv (length_eq_zero_iff.mp hz)
  unfold internValue
  rw [if_neg he, hp]
  dsimp only
  cases hf : pool.findIdx? (fun existing => existing == value) with
  | some i =>
    obtain ⟨hlt, heq, _⟩ := findIdx?_eq_some_iff_getElem.mp hf
    rw [beq_iff_eq] at heq
    have hgt : pool[i]? = some value := by rw [getElem?_eq_getElem hlt, heq]
    have hne : i ≠ 0 := by
      intro hi
      rw [hi, hzr] at hgt
      exact hv (some.inj hgt).symm
    have hi : uint32 i = i := by rw [uint32, Nat.mod_eq_of_lt (by omega)]
    dsimp only
    rw [hi]
    refine ⟨i, _, rfl, h0, rfl, rfl, .inr hlt, ?_, by dsimp only; omega⟩
    rw [valueOf, if_neg (by dsimp only; omega)]
    exact hgt
  | none =>
    have hi : uint32 pool.length = pool.length := by rw [uint32, Nat.mod_eq_of_lt (by omega)]
    rw [hi]
    have hg := h0.pool_append [value] (fun _ => by
      rw [getElem?_append_left (by dsimp only; omega)]
      exact hzr)
    refine ⟨pool.length, _, rfl, hg, rfl, rfl, .inr (by simp), ?_, ?_⟩
    · rw [valueOf, if_neg (by rw [length_append, length_singleton]; omega)]
      simp
    · rw [length_append, length_singleton]
      omega

/-- A write to the column of a name, the only one it can lead to. -/
theorem Tracks.setCell (ht : tID < reg.maxTenants)
    (hk : (cols ns)[k]? = some key) (hcol : ∀ i, column (cols ns) key = some i → i = k)
    (hv : v = 0 ∨ v < reg.valuePool.length)
    (hsn : valueOf reg.valuePool v ≠ none → key ∈ p.names ns) :
    uint32 (tID * (reg.store ns).stride + k) = tID * (reg.store ns).stride + k
      ∧ tID * (reg.store ns).stride + k < (reg.store ns).matrix.length
      ∧ Tracks (reg.setStore ns { reg.store ns with
            matrix := (reg.store ns).matrix.set (tID * (reg.store ns).stride + k) v }) cols
          (p.put ns tID key (valueOf reg.valuePool v))
      ∧ ∀ t, t ≠ tID ∨ v = 0 → BlankRow reg cols t →
          BlankRow (reg.setStore ns { reg.store ns with
            matrix := (reg.store ns).matrix.set (tID * (reg.store ns).stride + k) v }) cols t := by
  have hkl := (List.getElem?_eq_some_iff.mp hk).1
  obtain ⟨hst, hcl⟩ := setCell_spec (h.stores ns) ht hkl hv
  refine ⟨?_, ?_, ⟨?_, h.rows, h.unset, ?_, h.names, ?_⟩, ?_⟩
  · exact (h.stores ns).idx_eq (by have := h.rows.2; omega) hkl
  · rw [(h.stores ns).grid_stride]
    exact rowIdx_lt ht (by rw [(h.stores ns).keyed.stride]; exact hkl)
  · intro ns'
    by_cases hns : ns' = ns
    · subst hns
      rw [setStore_self]
      exact hst
    · rw [setStore_ne _ _ hns]
      exact h.stores ns'
  · intro ns' t k' i hi
    rw [Props.put]
    dsimp only
    by_cases hns : ns' = ns
    · subst hns
      rw [setStore_self, hcl t i (column_lt hi)]
      by_cases hkk : k' = key
      · subst hkk
        have hik := hcol i hi
        by_cases htt : t = tID
        · rw [if_pos ⟨htt, hik⟩, if_pos ⟨rfl, htt, rfl⟩]
          rfl
        · rw [if_neg (fun hc => htt hc.1), if_neg (fun hc => htt hc.2.1)]
          exact h.values ns' t k' i hi
      · have hik : i ≠ k := by
          intro hik
          have := column_getElem? hi
          rw [hik, hk] at this
          exact hkk (some.inj this).symm
        rw [if_neg (fun hc => hik hc.2), if_neg (fun hc => hkk hc.2.2)]
        exact h.values ns' t k' i hi
    · rw [setStore_ne _ _ hns, if_neg (fun hc => hns hc.1)]
      exact h.values ns' t k' i hi
  · intro ns' t k' hne
    rw [Props.put] at hne
    dsimp only at hne
    split at hne
    · rename_i hs
      obtain ⟨rfl, _, rfl⟩ := hs
      exact hsn hne
    · exact h.seen ns' t k' hne
  · intro t ho hb ns' i hi
    by_cases hns : ns' = ns
    · subst hns
      rw [setStore_self, hcl t i hi]
      split
      · rename_i hat
        exact ho.resolve_left (fun hne => hne hat.1)
      · exact hb ns' i hi
    · rw [setStore_ne _ _ hns]
      exact hb ns' i hi

/-- The index a tenant without a row would write to is beyond the matrix. -/
theorem Tracks.row_lt (ht : tID < 65536) (hk : k < (cols ns).length)
    (hin : uint32 (tID * (reg.store ns).stride + k) < (reg.store ns).matrix.length) :
    tID < reg.maxTenants := by
  rw [(h.stores ns).idx_eq ht hk, (h.stores ns).grid_stride] at hin
  by_contra hge
  have := Nat.mul_le_mul_right (reg.store ns).stride (Nat.le_of_not_lt hge)
  omega

/-- **Setting a property.** It succeeds if and only if the tenant has a row. -/
theorem setProp_spec (hky : Name key) (value : Bytes) (ht : tID < 65536)
    (hf : (cols ns).length + 1 < 65536) (hrm : reg.valuePool.length < 4294967295) :
    (tID < reg.maxTenants → ∃ reg', setProp ns tID reg key value = some reg')
      ∧ ∀ reg', setProp ns tID reg key value = some reg' → tID < reg.maxTenants
        ∧ Tracks reg' (addCol cols ns key) ((p.touch ns key).put ns tID key
            (if value = [] then none else some value))
        ∧ reg'.maxTenants = reg.maxTenants
        ∧ reg'.valuePool.length ≤ max reg.valuePool.length 1 + 1
        ∧ ∀ t ≠ tID, BlankRow reg cols t → BlankRow reg' (addCol cols ns key) t := by
  obtain ⟨reg1, k, hr, h1, hm1, hp1, hk, hcl, _, _, hb1⟩ := resolve_spec h hky hf
  obtain ⟨v, reg2, hi, h2, hs2, hm2, hv, hvl, hl2⟩ :=
    internValue_spec h1 value (by rw [hp1]; exact hrm)
  have hs : key ∈ (p.touch ns key).names ns := by
    rw [Props.touch]
    simp
  have hm : reg2.maxTenants = reg.maxTenants := hm2.trans hm1
  have hst : setProp ns tID reg key value
      = if uint32 (tID * (reg2.store ns).stride + k) < (reg2.store ns).matrix.length then
          some (reg2.setStore ns { reg2.store ns with
            matrix := (reg2.store ns).matrix.set (uint32 (tID * (reg2.store ns).stride + k)) v })
        else none := by
    rw [setProp, hr]
    dsimp only
    rw [hi]
  have hc := fun hrw : tID < reg2.maxTenants =>
    h2.setCell hrw hk hcl hv (fun _ => hs)
  rw [hst]
  constructor
  · intro hrw
    obtain ⟨hid, hin, _⟩ := hc (by rw [hm]; exact hrw)
    rw [hid, if_pos hin]
    exact ⟨_, rfl⟩
  intro reg' hrg
  split at hrg
  · rename_i hin
    have hrw := h2.row_lt ht (List.getElem?_eq_some_iff.mp hk).1 hin
    obtain ⟨hid, _, htr, hbl⟩ := hc hrw
    cases hrg
    rw [hvl] at htr
    rw [hid]
    refine ⟨by rw [← hm]; exact hrw, htr, hm, ?_, fun t hne hb => ?_⟩
    · rw [← hp1]
      exact hl2
    · refine hbl t (.inl hne) ?_
      rw [BlankRow, hs2]
      exact hb1 t hb
  · cases hrg

/-- The same for a value that is not empty and a tenant that has a row. -/
theorem setProp_set (hk : Name key) (hv : value ≠ [])
    (ht : tID < reg.maxTenants) (hf : (cols ns).length + 1 < 65536)
    (hrm : reg.valuePool.length < 4294967295) :
    ∃ reg', setProp ns tID reg key value = some reg'
      ∧ Tracks reg' (addCol cols ns key) (p.set ns tID key value)
      ∧ reg'.maxTenants = reg.maxTenants
      ∧ reg'.valuePool.length ≤ max reg.valuePool.length 1 + 1 := by
  have hr := h.rows.2
  obtain ⟨hs, hsp⟩ := setProp_spec h hk value (show tID < 65536 by omega) hf hrm
  obtain ⟨reg', hst⟩ := hs ht
  obtain ⟨_, htr, hm, hl, _⟩ := hsp reg' hst
  rw [if_neg hv] at htr
  exact ⟨reg', hst, htr, hm, hl⟩

/-- More rows in every store. -/
theorem Tracks.grow (hps : 0 < newMax) (hm : newMax < 65536)
    (hr : reg'.maxTenants = newMax) (hp : reg'.valuePool = reg.valuePool)
    (hs : ∀ ns, StoreInv (reg'.store ns) newMax (cols ns) reg.valuePool.length)
    (hc : ∀ ns t i, i < (cols ns).length →
      cellOf (reg'.store ns) t i = cellOf (reg.store ns) t i) : Tracks reg' cols p := by
  refine ⟨?_, ?_, ?_, ?_, h.names, h.seen⟩
  · rw [hr, hp]
    exact hs
  · rw [hr]
    exact ⟨hps, hm⟩
  · rw [hp]
    exact h.unset
  · intro ns t k i hi
    rw [hp, hc ns t i (column_lt hi)]
    exact h.values ns t k i hi

/-- **A row for a new tenant.** -/
theorem growFor_spec (ht : tID < 65408) :
    ∃ reg', growFor reg tID = some reg' ∧ Tracks reg' cols p ∧ tID < reg'.maxTenants
      ∧ reg.maxTenants ≤ reg'.maxTenants ∧ reg'.valuePool = reg.valuePool
      ∧ ∀ ns t i, i < (cols ns).length →
        cellOf (reg'.store ns) t i = cellOf (reg.store ns) t i := by
  rw [growFor]
  by_cases hg : tID + 1 > reg.maxTenants
  · -- the new row is beyond the matrices
    have hmx : uint16 (tID + 1 + 127) = tID + 128 := by
      rw [uint16, Nat.mod_eq_of_lt (by omega)]
    have hr : reg.maxTenants ≤ tID + 128 := by omega
    obtain ⟨urls, hu, hi, hcu⟩ := growRows_spec (h.stores .urls) hr (by omega)
    obtain ⟨ids, hid, hii, hci⟩ := growRows_spec (h.stores .ids) hr (by omega)
    obtain ⟨metadata, hm, him, hcm⟩ := growRows_spec (h.stores .metadata) hr (by omega)
    rw [if_pos hg, hmx]
    dsimp only
    rw [hu, hid, hm]
    have hc : ∀ ns t i, i < (cols ns).length →
        cellOf
          ((((reg.setStore .urls urls).setStore .ids ids).setStore .metadata metadata).store ns)
          t i = cellOf (reg.store ns) t i := by
      intro ns
      cases ns with
      | urls => exact hcu
      | ids => exact hci
      | metadata => exact hcm
    refine ⟨_, rfl, h.grow (show 0 < tID + 128 by omega) (by omega) rfl rfl ?_ hc,
      show tID < tID + 128 by omega, hr, rfl, hc⟩
    intro ns
    cases ns with
    | urls => exact hi
    | ids => exact hii
    | metadata => exact him
  · rw [if_neg hg]
    exact ⟨reg, rfl, h, by omega, Nat.le_refl _, rfl, fun _ _ _ _ => rfl⟩

/-- **Deleting a property.** -/
theorem deleteCell_spec (ht : tID < reg.maxTenants) (hc : column (cols ns) key = some k) :
    uint32 (tID * (reg.store ns).stride + k) < (reg.store ns).matrix.length
      ∧ Tracks (reg.setStore ns { reg.store ns with
            matrix := (reg.store ns).matrix.set (uint32 (tID * (reg.store ns).stride + k)) 0 }) cols
          (p.erase ns tID key)
      ∧ ∀ t, BlankRow reg cols t → BlankRow (reg.setStore ns { reg.store ns with
          matrix := (reg.store ns).matrix.set (uint32 (tID * (reg.store ns).stride + k)) 0 })
            cols t := by
  have hu : valueOf reg.valuePool 0 = none := if_pos (.inl rfl)
  obtain ⟨hid, hin, htr, hb⟩ := h.setCell ht (column_getElem? hc)
    (fun i hi => by rw [hc] at hi; exact (some.inj hi).symm) (.inl rfl)
    (fun hne => absurd hu hne)
  rw [hid]
  exact ⟨hin, htr, fun t => hb t (.inr rfl)⟩

/-- A name that leads to no column has nothing to delete, if it could have been found. -/
theorem Tracks.erase_missing
    (hc : column (cols ns) key = none) : Tracks reg cols (p.erase ns tID key) := by
  refine ⟨h.stores, h.rows, h.unset, ?_, h.names, ?_⟩
  · intro ns' t k i hi
    rw [Props.erase, Props.put]
    dsimp only
    by_cases hs : ns' = ns ∧ t = tID ∧ k = key
    · obtain ⟨rfl, _, rfl⟩ := hs
      rw [hc] at hi
      cases hi
    · rw [if_neg hs]
      exact h.values ns' t k i hi
  · intro ns' t k hne
    rw [Props.erase, Props.put] at hne
    dsimp only at hne
    split at hne
    · exact absurd rfl hne
    · exact h.seen ns' t k hne

end

theorem addCol_length_le (cols : Namespace → List Bytes) (ns : Namespace) (key : Bytes)
    (ns' : Namespace) :
    (addCol cols ns key ns').length ≤ (cols ns').length + if ns' = ns then 1 else 0 := by
  unfold addCol
  by_cases hns : ns' = ns
  · subst hns
    rw [if_pos rfl]
    split
    · rw [length_append]
      exact Nat.le_refl _
    · omega
  · rw [if_neg (fun hc => hns hc.1), if_neg hns]
    omega

end Tracks

end Rah.Registry
