import Rah.Registry.TenantIds
import Rah.Registry.History

/-!
# A tenant's row and its rate limits

What the operations leave blank: the rate limit tables at a tenant's place (`RatesUnset`), the
property rows of the ids that are no alias's (`RowsKept`), and a row that is cleared
(`zeroStoreRow_spec`).
-/

namespace Rah.Registry

open Rah.Lib List

/-! ## Reads -/

/-- The outer `none` is a panic of the key's lookup. -/
def getByKeyName (ns : Namespace) (reg : TenantRegistry) (tenantID : Nat) (keyName : Bytes) :
    Option (Option Bytes) :=
  (findKeyID (reg.store ns).keys (reg.store ns).stringPool keyName).map (fun key =>
    key.bind (getPropByKeyID (reg.store ns) reg.valuePool tenantID))

def getURLByKeyName (reg : TenantRegistry) (tenantID : Nat) (keyName : Bytes) :
    Option (Option Bytes) :=
  getByKeyName .urls reg tenantID keyName

/-- The tables have nothing for the tenant. -/
structure RatesUnset (rates : TenantRates) (t : Nat) : Prop where
  modifier : rates.tenantModifiers.getD t .zero = .zero
  limits : rates.tenantRateLimits.getD t none = none
  overrides : ∀ tbl, rates.tenantV2Overrides.getD t none = some tbl → tbl.ids = []

section Rates

variable {rates : TenantRates} {t : Nat}

theorem RatesUnset.lookup (h : RatesUnset rates t) (configID : Nat) :
    lookupV2Override rates t configID = none := by
  rw [lookupV2Override]
  cases ht : rates.tenantV2Overrides.getD t none with
  | none => rfl
  | some tbl =>
  have hi := h.overrides tbl ht
  dsimp only
  rw [OverrideTable.find, OverrideTable.search, hi]
  rfl

theorem growSlice_getD {α : Type} (zero : α) (needed : Nat) (slice : List α) (i : Nat) :
    (growSlice zero needed slice).getD i zero = slice.getD i zero := by
  rw [growSlice, getD_eq_getElem?_getD, getD_eq_getElem?_getD, getElem?_append]
  split
  · rfl
  · rename_i hge
    rw [getElem?_replicate, getElem?_eq_none (by omega)]
    split <;> rfl

theorem getD_set_ne {α : Type} (l : List α) (h : j ≠ i) (x zero : α) :
    (l.set j x).getD i zero = l.getD i zero := by
  rw [getD_eq_getElem?_getD, getD_eq_getElem?_getD, getElem?_set_ne h]

theorem upsertEntry_getD_ne {E : Type} (tables : List (Option (OverrideTable E))) (h : u ≠ t)
    (id : Nat) (entry : E) : (upsertEntry tables u id entry).getD t none = tables.getD t none := by
  rw [upsertEntry, getD_set_ne _ h, growSlice_getD]

section

variable (h : RatesUnset rates t)
include h

theorem RatesUnset.grow (u : Nat) : RatesUnset (rates.grow u) t := by
  refine ⟨?_, ?_, fun tbl ht => h.overrides tbl ?_⟩
  · rw [TenantRates.grow, growSlice_getD]
    exact h.modifier
  · rw [TenantRates.grow, growSlice_getD]
    exact h.limits
  · rw [TenantRates.grow, growSlice_getD] at ht
    exact ht

theorem RatesUnset.setModifier (hne : u ≠ t)
    (mod : TenantRateLimitModifier) : RatesUnset (rates.setModifier u mod) t := by
  refine ⟨?_, h.limits, h.overrides⟩
  rw [TenantRates.setModifier, getD_set_ne _ hne, growSlice_getD]
  exact h.modifier

theorem RatesUnset.upsertRateLimit (hne : u ≠ t) (id : Nat)
    (entry : TenantRateLimitEntry) : RatesUnset (rates.upsertRateLimit u id entry) t := by
  refine ⟨h.modifier, ?_, h.overrides⟩
  rw [TenantRates.upsertRateLimit, upsertEntry_getD_ne _ hne]
  exact h.limits

theorem RatesUnset.upsertV2 (hne : u ≠ t) (id : Nat)
    (entry : TenantV2ConfigOverride) : RatesUnset (rates.upsertV2 u id entry) t := by
  refine ⟨h.modifier, h.limits, fun tbl ht => h.overrides tbl ?_⟩
  rw [TenantRates.upsertV2, upsertEntry_getD_ne _ hne] at ht
  exact ht

/-- There is nothing to remove from a table without entries. -/
theorem RatesUnset.deleteV2 (u id : Nat) : RatesUnset (rates.deleteV2 u id) t := by
  rw [TenantRates.deleteV2]
  cases ht : rates.tenantV2Overrides.getD u none with
  | none => exact h
  | some tbl =>
  refine ⟨h.modifier, h.limits, fun tbl' htbl' => ?_⟩
  by_cases hne : u = t
  · subst hne
    have hi := h.overrides tbl ht
    have hs : tbl.remove id = tbl := by
      rw [OverrideTable.remove, OverrideTable.search, hi]
      rfl
    dsimp only at htbl'
    rw [hs, getD_eq_getElem?_getD, getElem?_set] at htbl'
    split at htbl'
    · split at htbl'
      · cases htbl'
        exact hi
      · exact absurd htbl' (by simp)
    · rename_i hc
      exact absurd rfl hc
  · rw [getD_set_ne _ hne] at htbl'
    exact h.overrides tbl' htbl'

theorem RatesUnset.clearModifier (u : Nat) :
    RatesUnset { rates with tenantModifiers := rates.tenantModifiers.set u .zero } t := by
  refine ⟨?_, h.limits, h.overrides⟩
  by_cases hne : u = t
  · subst hne
    rw [getD_eq_getElem?_getD, getElem?_set, if_pos rfl]
    split <;> rfl
  · rw [getD_set_ne _ hne]
    exact h.modifier

end

end Rates

/-! ## Clearing a row -/

theorem foldl_zero_length (start : Nat) (l m : List Nat) :
    (l.foldl (fun m i => m.set (uint32 (start + i)) 0) m).length = m.length := by
  induction l generalizing m with
  | nil => rfl
  | cons i l ih => rw [foldl_cons, ih, length_set]

theorem foldl_zero_getElem? (start : Nat) (m : List Nat) (n : Nat) (hn : start + n ≤ m.length)
    (hs : start + n < 4294967296) (j : Nat) :
    ((range n).foldl (fun m i => m.set (uint32 (start + i)) 0) m)[j]?
      = if start ≤ j ∧ j < start + n then some 0 else m[j]? := by
  induction n with
  | zero =>
    rw [if_neg (by omega)]
    rfl
  | succ n ih =>
  rw [range_succ, foldl_append]
  show (set _ (uint32 (start + n)) 0)[j]? = _
  rw [uint32, getElem?_set, ih (by omega) (by omega), foldl_zero_length]
  split
  · rw [if_pos (by omega), if_pos (by omega)]
  split
  · rw [if_pos (by omega)]
  · rw [if_neg (by omega)]

/-- **A row is cleared.** -/
theorem zeroStoreRow_spec (h : StoreInv store rows cols values) (ht : t < 65536) :
    StoreInv (zeroStoreRow store t) rows cols values
      ∧ ∀ u i, i < cols.length →
        cellOf (zeroStoreRow store t) u i = if u = t then 0 else cellOf store u i := by
  have hs := h.keyed.stride
  have hf : store.stride < 65536 := by
    rw [hs]
    exact h.keyed.few
  have hml : t * store.stride ≤ 65535 * 65535 := Nat.mul_le_mul (by omega) (by omega)
  have hg := h.grid_stride
  rw [zeroStoreRow]
  by_cases hz : store.stride = 0
  · rw [if_pos hz]
    exact ⟨h, fun u i hi => absurd hi (by omega)⟩
  have hst : uint32 (t * store.stride) = t * store.stride := Nat.mod_eq_of_lt (by omega)
  have hsp : uint32 (t * store.stride + store.stride) = t * store.stride + store.stride :=
    Nat.mod_eq_of_lt (by omega)
  rw [if_neg hz]
  rw [hst]
  by_cases hr : t < rows
  · -- the row is there
    have hin : t * store.stride + store.stride ≤ store.matrix.length := by
      rw [hg, ← Nat.succ_mul]
      exact Nat.mul_le_mul_right _ hr
    rw [if_neg (by omega)]
    have hgt := foldl_zero_getElem? (t * store.stride) store.matrix store.stride hin (by omega)
    generalize hm : (range store.stride).foldl _ store.matrix = m at hgt
    have hl : m.length = store.matrix.length := by
      rw [← hm]
      exact foldl_zero_length ..
    have hc : ∀ u i, i < cols.length → cellOf { store with matrix := m } u i
        = if u = t then 0 else cellOf store u i := by
      intro u i hi
      rw [← hs] at hi
      show (m[u * store.stride + i]?).getD 0 = _
      rw [cellOf, hgt]
      by_cases hut : u = t
      · subst hut
        rw [if_pos (by omega), if_pos rfl]
        rfl
      rw [if_neg hut, if_neg]
      intro hat
      have hid : u * store.stride + i
          = t * store.stride + (u * store.stride + i - t * store.stride) := by omega
      exact hut (rowIdx_inj hi (by omega) hid).1
    refine ⟨⟨⟨hs, h.keyed.keys, h.keyed.pool, h.keyed.few, h.keyed.names⟩,
      hl.trans h.grid, fun u i hi => ?_⟩, hc⟩
    rw [hc u i hi]
    split
    · exact .inl rfl
    · exact h.cells u i hi
  · have ho : rows * store.stride ≤ t * store.stride := Nat.mul_le_mul_right _ (by omega)
    rw [if_pos (by omega)]
    refine ⟨h, fun u i hi => ?_⟩
    split
    · rename_i hut
      rw [hut, cellOf, getElem?_eq_none (by omega)]
      rfl
    · rfl

/-- The tenant has no properties. -/
def Props.clear (p : Props) (t : Nat) : Props :=
  { p with value := fun ns u k => if u = t then none else p.value ns u k }

theorem Tracks.clear (h : Tracks reg cols p) (ht : t < 65536) :
    Tracks { reg with store := fun ns => zeroStoreRow (reg.store ns) t } cols (p.clear t)
      ∧ ∀ u, u = t ∨ BlankRow reg cols u →
        BlankRow { reg with store := fun ns => zeroStoreRow (reg.store ns) t } cols u := by
  have hs := fun ns => zeroStoreRow_spec (h.stores ns) ht
  refine ⟨⟨fun ns => (hs ns).1, h.rows, h.unset, ?_, h.names, ?_⟩, ?_⟩
  · intro ns u k i hi
    rw [(hs ns).2 u i (column_lt hi), Props.clear]
    dsimp only
    split
    · exact if_pos (.inl rfl)
    · exact h.values ns u k i hi
  · intro ns u k hne
    rw [Props.clear] at hne
    dsimp only at hne
    split at hne
    · exact absurd rfl hne
    · exact h.seen ns u k hne
  · intro u hu ns i hi
    rw [(hs ns).2 u i hi]
    split
    · rfl
    · exact hu.resolve_left (by assumption) ns i hi

/-! ## Setting properties -/

/-- Up to `n` properties of the tenant were set. -/
structure SetBy (tID n : Nat) (reg : TenantRegistry) (cols : Namespace → List Bytes)
    (reg' : TenantRegistry) (cols' : Namespace → List Bytes) : Prop where
  width : ∀ ns, (cols' ns).length ≤ (cols ns).length + n
  pool : max reg'.valuePool.length 1 ≤ max reg.valuePool.length 1 + n
  blank : ∀ t ≠ tID, BlankRow reg cols t → BlankRow reg' cols' t

theorem SetBy.trans (h : SetBy tID n reg cols reg' cols')
    (h' : SetBy tID m reg' cols' reg'' cols'') :
    SetBy tID (n + m) reg cols reg'' cols'' := by
  refine ⟨fun ns => ?_, ?_, fun t ht hb => h'.blank t ht (h.blank t ht hb)⟩
  · have := h.width ns
    have := h'.width ns
    omega
  · have := h.pool
    have := h'.pool
    omega

section Set

variable {reg reg' : TenantRegistry} {cols : Namespace → List Bytes} {p : Props} {tID : Nat}

theorem setProp_setBy (h : Tracks reg cols p) (hk : Name key) (ht : tID < 65536)
    (hf : ∀ ns, (cols ns).length + 1 < 65536)
    (hr : max reg.valuePool.length 1 + 1 < 4294967296)
    (hs : setProp ns tID reg key value = some reg') :
    ∃ cols' p', Tracks reg' cols' p' ∧ SetBy tID 1 reg cols reg' cols' := by
  obtain ⟨_, htr, _, hl, hb⟩ := (setProp_spec h hk value ht (hf ns) (by omega)).2 reg' hs
  refine ⟨_, _, htr, fun ns' => ?_, by omega, hb⟩
  have := addCol_length_le cols ns key ns'
  split at this <;> omega

theorem setProps_setBy (h : Tracks reg cols p) (hn : ∀ kv ∈ props, Name kv.1) (ht : tID < 65536)
    (hfw : ∀ ns, (cols ns).length + props.length < 65536)
    (hrm : max reg.valuePool.length 1 + props.length < 4294967296)
    (hs : setProps ns tID props reg = some reg') :
    ∃ cols' p', Tracks reg' cols' p' ∧ SetBy tID props.length reg cols reg' cols' := by
  induction props generalizing reg cols p with
  | nil =>
    cases hs
    exact ⟨cols, p, h, fun ns => Nat.le_refl _, Nat.le_refl _, fun _ _ hb => hb⟩
  | cons kv props ih =>
  rw [length_cons] at hfw hrm ⊢
  obtain ⟨reg1, hf, hr⟩ := Option.bind_eq_some_iff.mp hs
  obtain ⟨cols1, p1, h1, hb1⟩ := setProp_setBy h (hn kv (mem_cons_self ..)) ht
    (fun ns => by have := hfw ns; omega) (by omega) hf
  obtain ⟨cols2, p2, h2, hb2⟩ := ih h1 (fun kv' hkv => hn kv' (mem_cons_of_mem _ hkv))
    (fun ns => by have := hfw ns; have := hb1.width ns; omega)
    (by have := hb1.pool; omega) hr
  rw [Nat.add_comm props.length 1]
  exact ⟨cols2, p2, h2, hb1.trans hb2⟩

end Set

/-! ## What the operations do to rows -/

/-- No alias has the id. -/
def Manager.Vacant (s : Manager) (t : Nat) : Prop := ∀ a, s.aliasMap a ≠ some t

/-- The rows of ids that are no alias's at the end stay blank. -/
def RowsKept (s : Manager) (cols : Namespace → List Bytes) (s' : Manager) : Prop :=
  ∃ cols' p', Tracks s'.activeOrEmpty cols' p'
    ∧ ∀ t, s'.Vacant t → BlankRow s.activeOrEmpty cols t → BlankRow s'.activeOrEmpty cols' t

section Rows

variable {s s' : Manager} {cols : Namespace → List Bytes} {p : Props}

theorem RowsKept.refl (h : Tracks s.activeOrEmpty cols p)
    (ha : s'.activeOrEmpty = s.activeOrEmpty) : RowsKept s cols s' :=
  ⟨cols, p, by rw [ha]; exact h, fun t _ hb => by rw [ha]; exact hb⟩

variable {a name : Bytes} {ns : Namespace}

section

variable (h : Tracks s.activeOrEmpty cols p)
  (halloc : s.aliasMap a = none → s.allocTenant.1 < 65408)
include h halloc

theorem resolve_rows (hr : resolveOrCreateTenant s s.activeOrEmpty a = some (t, s1, reg)) :
    Tracks reg cols p ∧ reg.valuePool = s.activeOrEmpty.valuePool
      ∧ ∀ u, BlankRow s.activeOrEmpty cols u → BlankRow reg cols u := by
  cases ha : s.aliasMap a with
  | some id =>
    rw [resolveOrCreateTenant, ha] at hr
    cases hr
    exact ⟨h, rfl, fun _ hb => hb⟩
  | none =>
  obtain ⟨reg', hg, ht, _, _, hp, hc⟩ := growFor_spec h (halloc ha)
  rw [resolveOrCreateTenant_create ha, hg] at hr
  cases hr
  refine ⟨ht, hp, fun u hb ns i hi => ?_⟩
  rw [hc ns u i hi]
  exact hb ns i hi

/-- The tenant of the alias is resolved, and properties are set for it. -/
theorem addProp_rows (hn : Name name) (hf : ∀ ns, (cols ns).length + 1 < 65536)
    (hrm : max s.activeOrEmpty.valuePool.length 1 + 1 < 4294967296)
    (hsm : ∀ t, s'.aliasMap a = some t → t < 65408) (hs : addProp ns s a name value = some s') :
    RowsKept s cols s' := by
  rw [addProp] at hs
  split at hs
  · cases hs
  rename_i t s1 reg hr
  obtain ⟨reg', hst, rfl⟩ := Option.map_eq_some_iff.mp hs
  obtain ⟨h1, hp, hbl⟩ := resolve_rows h halloc hr
  have ha := (resolveOrCreateTenant_ids hr 0).2
  have ht := hsm t ha
  obtain ⟨cols', p', h', hby⟩ := setProp_setBy h1 hn (by omega) hf (by rw [hp]; exact hrm) hst
  exact ⟨cols', p', h', fun u hu hb => hby.blank u (fun hut => hu a (hut ▸ ha)) (hbl u hb)⟩

theorem upsertTenantState_rows (hnm : ∀ name ∈ (urls ++ ids ++ metadata).map Prod.fst, Name name)
    (hf : ∀ ns, (cols ns).length + ((urls ++ ids ++ metadata).map Prod.fst).length < 65536)
    (hr : max s.activeOrEmpty.valuePool.length 1
      + ((urls ++ ids ++ metadata).map Prod.fst).length < 4294967296)
    (hsm : ∀ t, s'.aliasMap a = some t → t < 65408)
    (hs : upsertTenantState s (a :: more) urls ids metadata = some s') : RowsKept s cols s' := by
  simp only [length_map, length_append] at hf hr
  have hn : ∀ kv ∈ urls ++ ids ++ metadata, Name kv.1 := fun kv hkv => hnm kv.1 (mem_map_of_mem hkv)
  rw [upsertTenantState] at hs
  split at hs
  · cases hs
  rename_i t s1 reg hrs
  split at hs
  · cases hs
  rename_i reg1 hs1
  split at hs
  · cases hs
  rename_i reg2 hs2
  obtain ⟨reg3, hs3, rfl⟩ := Option.map_eq_some_iff.mp hs
  obtain ⟨h0, hp, hbl⟩ := resolve_rows h halloc hrs
  have ha := (linkAll_ids 0 more (resolveOrCreateTenant_ids hrs 0).2).2
  have ht := hsm t ha
  rw [← hp] at hr
  obtain ⟨cols1, p1, h1, hb1⟩ := setProps_setBy h0
    (fun kv hkv => hn kv (mem_append_left _ (mem_append_left _ hkv))) (by omega)
    (fun ns => by have := hf ns; omega) (by omega) hs1
  have hp1 := hb1.pool
  obtain ⟨cols2, p2, h2, hb2⟩ := setProps_setBy h1
    (fun kv hkv => hn kv (mem_append_left _ (mem_append_right _ hkv))) (by omega)
    (fun ns => by have := hf ns; have := hb1.width ns; omega) (by omega) hs2
  have hp2 := hb2.pool
  obtain ⟨cols3, p3, h3, hb3⟩ := setProps_setBy h2
    (fun kv hkv => hn kv (mem_append_right _ hkv)) (by omega)
    (fun ns => by have := hf ns; have := hb1.width ns; have := hb2.width ns; omega)
    (by omega) hs3
  have hby := (hb1.trans hb2).trans hb3
  exact ⟨cols3, p3, h3, fun u hu hb => hby.blank u (fun hut => hu a (hut ▸ ha)) (hbl u hb)⟩

end

/-- A name that is found leads to a column. -/
theorem Tracks.found {reg : TenantRegistry} (h : Tracks reg cols p) {k : Nat}
    (hf : findKeyID (reg.store ns).keys (reg.store ns).stringPool name
      = some (some k)) : column (cols ns) name = some k := by
  have hn : name ≠ [] := by
    intro hnl
    rw [hnl, findKeyID, if_pos (.inr length_nil)] at hf
    cases hf
  rw [(h.stores ns).keyed.findKeyID_eq hn] at hf
  exact Option.some.inj hf

/-- A cell is set to zero. -/
theorem zeroCell_rows (h : Tracks s.activeOrEmpty cols p) (ht : t < 65536)
    (hc : column (cols ns) name = some k)
    (hin : uint32 (t * (s.activeOrEmpty.store ns).stride + k)
      < (s.activeOrEmpty.store ns).matrix.length) :
    RowsKept s cols { s with active := some (s.activeOrEmpty.setStore ns
      { s.activeOrEmpty.store ns with
        matrix := (s.activeOrEmpty.store ns).matrix.set
          (uint32 (t * (s.activeOrEmpty.store ns).stride + k)) 0 }) } := by
  obtain ⟨_, htr, hbl⟩ := deleteCell_spec h (h.row_lt ht (column_lt hc) hin) hc
  exact ⟨cols, _, htr, fun u _ hb => hbl u hb⟩

theorem deleteProp_rows (h : Tracks s.activeOrEmpty cols p)
    (hsm : ∀ t, s.aliasMap a = some t → t < 65408)
    (hs : deleteProp ns s a name = some s') : RowsKept s cols s' := by
  rw [deleteProp] at hs
  split at hs
  · cases hs
    exact RowsKept.refl h rfl
  rename_i t ha
  have ht := hsm t ha
  dsimp only at hs
  split at hs
  · cases hs
  · cases hs
    exact RowsKept.refl h rfl
  rename_i k hf
  cases hs
  split
  · rename_i hin
    exact zeroCell_rows h (by omega) (h.found hf) hin
  refine RowsKept.refl h ?_
  show TenantRegistry.setStore _ ns _ = _
  rw [TenantRegistry.setStore]
  congr 1
  funext ns'
  split
  · rename_i hns
    rw [hns]
    rfl
  · rfl

end Rows

end Rah.Registry
