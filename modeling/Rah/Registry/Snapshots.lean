import Rah.Registry.Shared

/-!
# Published snapshots

A published snapshot does not change as long as no operation writes to what it shares with the live
one. `Sound` says which operations are harmless in a state: those that create what was not there,
and those that write what is there already. The writes that are not harmless are those to a cell of
a matrix, to the root of the key radix, to the array of pointers to the tables of overrides, and to
such a table.

`Along` follows an operation from the memory in which it began. What it allocates since is `Fresh`
and not shared with any snapshot that was there.
-/

namespace Rah.Registry.Shared

open Rah.Registry Rah.Lib List Option

/-! ## Operations that are harmless -/

section Sound

variable (rt : Runtime)

/-- A key that is new finds the radix empty, in an array of the operation's own, or without room, so
that it is copied. -/
def KeyApart (h₀ : Heap) (ns : Namespace) (w : Live) (key : Bytes) : Prop :=
  ∀ kID, resolveOrCreateStoreKey (w.content ns) key = some (kID, true) →
    (w.reg.store ns).keys.len = 0 ∨ (w.reg.store ns).keys.Fresh (h₀.stores ns).nodes
      ∨ (block (w.heap.stores ns).nodes (w.reg.store ns).keys.array).length
        ≤ (w.reg.store ns).keys.len

/-- The cell is in a matrix of the operation's own, or it holds the number already, or it is unset
and the number is one that no pool had before. -/
def CellApart (h₀ : Heap) (ns : Namespace) (w : Live) (idx vID : Nat) : Prop :=
  (w.reg.store ns).matrix.Fresh (h₀.stores ns).cells ∨ (w.content ns).matrix[idx]? = some vID
    ∨ (w.content ns).matrix[idx]? = some 0 ∧ w.reg.valuePool.len ≤ vID

def SetApart (h₀ : Heap) (tID : Nat) (w : Live) (p : Namespace × Bytes × Bytes) : Prop :=
  KeyApart h₀ p.1 w p.2.1 ∧ ∀ kID w', resolveOrCreateKey rt p.1 w p.2.1 = some (kID, w') →
    CellApart h₀ p.1 w' (uint32 (tID * (w'.reg.store p.1).stride + kID))
      (internValue rt w' p.2.2).1

/-- One property after the other. -/
def SetsApart (h₀ : Heap) (tID : Nat) : List (Namespace × Bytes × Bytes) → Live → Prop
  | [], _ => True
  | p :: props, w => SetApart rt h₀ tID w p
      ∧ ∀ w', setProp rt tID w p = some w' → SetsApart h₀ tID props w'

def UpdateApart (h₀ : Heap) (ids : Ids) (w : Live) (aliasName : Bytes)
    (props : List (Namespace × Bytes × Bytes)) : Prop :=
  ∀ tID w', resolveOrCreateTenant ids w aliasName = some (tID, w') → SetsApart rt h₀ tID props w'

/-- The cell of the property is unset. -/
def CellClear (ns : Namespace) (ids : Ids) (w : Live) (aliasName name : Bytes) : Prop :=
  ∀ idx, cellOf ns ids w aliasName name = some (some idx) →
    ∀ v ∈ (w.content ns).matrix[idx]?, v = 0

/-- The cells of the tenant's rows are unset. -/
def TenantClear (ids : Ids) (w : Live) (aliasName : Bytes) : Prop :=
  ∀ tID ∈ ids.aliasMap aliasName, ∀ ns, ∀ i < (w.reg.store ns).stride,
    ∀ v ∈ (w.content ns).matrix[uint32 (uint32 (tID * (w.reg.store ns).stride) + i)]?, v = 0

/-- The array of pointers has to grow for the tenant, or is the operation's own and has no table for
the tenant, or the override is there already. -/
def OverrideApart (h₀ : Heap) (w : Live) (tenantID configID : Nat)
    (entry : TenantV2ConfigOverride) : Prop :=
  w.reg.tenantV2Overrides.len ≤ tenantID
    ∨ w.reg.tenantV2Overrides.Fresh h₀.pointers ∧ v2Pointer w.heap w.reg tenantID = none
    ∨ lookupV2Override w.heap w.reg tenantID configID = some entry

def OverrideAbsent (w : Live) (tenantID configID : Nat) : Prop :=
  ∀ tbl ∈ v2Table w.heap w.reg tenantID, ∀ mid, tbl.search configID ≠ .found mid

def PutApart (codec : Codec) (h₀ : Heap) (ids : Ids) (names : Bytes → Option Nat) (w : Live)
    (value : Bytes) : StoreKey → Prop
  | .prop ns primary key => UpdateApart rt h₀ ids w primary [(ns, key, value)]
  | .v2Override aliasName configName => ∀ r ∈ codec.v2Override value,
      ∀ p ∈ named ids names aliasName configName, OverrideApart h₀ w p.1 p.2 r.entry
  | _ => True

def DeleteApart (ids : Ids) (names : Bytes → Option Nat) (w : Live) : StoreKey → Prop
  | .aliases primary => TenantClear ids w primary
  | .prop ns primary key => CellClear ns ids w primary key
  | .v2Override aliasName configName =>
    ∀ p ∈ named ids names aliasName configName, OverrideAbsent w p.1 p.2
  | _ => True

/-- The operation is harmless for the snapshots that are in the memory `h₀` when it begins. -/
def OpApart (codec : Codec) (h₀ : Heap) (ids : Ids) (names : Bytes → Option Nat) (w : Live) :
    RegistryOp → Prop
  | .add ns aliasName name value => UpdateApart rt h₀ ids w aliasName [(ns, name, value)]
  | .delete ns aliasName name => CellClear ns ids w aliasName name
  | .upsert aliases urls props metadata =>
    ∀ first ∈ aliases.head?, UpdateApart rt h₀ ids w first (namedProps urls props metadata)
  | .ensure ns key => KeyApart h₀ ns w key
  | .deleteTenant aliasName => TenantClear ids w aliasName
  | .deleteTestTenant runID => TenantClear ids w (testAlias runID)
  | .upsertV2 tenantID configID entry => OverrideApart h₀ w tenantID.toNat configID.toNat entry
  | .deleteV2 tenantID configID => OverrideAbsent w tenantID.toNat configID.toNat
  | .restoreTenant t =>
    ∀ first ∈ t.aliases.head?, UpdateApart rt h₀ (restoredIds ids t first) w first
      (namedProps t.serviceURLs t.identifiers t.metadata)
  | .restoreOverride aliasName configName r =>
    ∀ p ∈ named ids names aliasName configName, OverrideApart h₀ w p.1 p.2 r.entry
  | .applyStorePut rawKey value =>
    ∀ key ∈ parseKey rawKey, PutApart rt codec h₀ ids names w value key
  | .applyStoreDelete rawKey => ∀ key ∈ parseKey rawKey, DeleteApart ids names w key
  | _ => True

def Sound (codec : Codec) (s : Manager) (a : Act) : Prop :=
  OpApart rt codec s.heap s.ids a.rateLimitNames s.activeOrEmpty a.op

end Sound

/-! ## Stores -/

structure StoreHeap.Widens (a b : StoreHeap) : Prop where
  cells : Lib.Widens a.cells b.cells
  nodes : Lib.Widens a.nodes b.nodes
  bytes : Lib.Widens a.bytes b.bytes

structure PropStore.Valid (a : StoreHeap) (r : PropStore) : Prop where
  matrix : r.matrix.Valid a.cells
  keys : r.keys.Valid a.nodes
  stringPool : r.stringPool.Valid a.bytes

structure PropStore.Behind (o r : PropStore) : Prop where
  keys : o.keys.Behind r.keys
  stringPool : o.stringPool.Behind r.stringPool

/-- A store shows the same in both memories, with a pool of the length. -/
structure PropStore.Alike (len : Nat) (o : PropStore) (a b : StoreHeap) : Prop where
  keys : view b.nodes o.keys = view a.nodes o.keys
  stringPool : view b.bytes o.stringPool = view a.bytes o.stringPool
  cells : ∀ i : Nat, (view b.cells o.matrix)[i]?.bind (visible len)
    = (view a.cells o.matrix)[i]?.bind (visible len)

/-- A store of the copy, in an operation that began with the memory `a`. -/
structure StoreAlong (P : TenantRegistry → Prop) (ns : Namespace) (a : StoreHeap)
    (st : StoreHeap × PropStore) : Prop where
  old : ∀ o, P o → (o.store ns).Valid a
  grown : a.Widens st.1
  valid : st.2.Valid st.1
  behind : ∀ o, P o → (o.store ns).Behind st.2
  alike : ∀ o, P o → (o.store ns).Alike o.valuePool.len a st.1

section Store

variable {P : TenantRegistry → Prop} {ns : Namespace} {a : StoreHeap} {st : StoreHeap × PropStore}

theorem StoreHeap.Widens.trans {b c : StoreHeap} (h : a.Widens b) (h' : b.Widens c) : a.Widens c :=
  ⟨h.cells.trans h'.cells, h.nodes.trans h'.nodes, h.bytes.trans h'.bytes⟩

theorem PropStore.Valid.mono {b : StoreHeap} {r : PropStore} (h : r.Valid a) (he : a.Widens b) :
    r.Valid b :=
  ⟨h.matrix.mono he.cells, h.keys.mono he.nodes, h.stringPool.mono he.bytes⟩

/-- The matrix is copied to an array of its own. -/
theorem StoreAlong.expand (h : StoreAlong P ns a st)
    (hst : expandPropStore st maxTenants newStride = some st') :
    StoreAlong P ns a st' ∧ st'.2.matrix.Fresh a.cells ∧ st'.2.keys = st.2.keys
      ∧ st'.1.nodes = st.1.nodes := by
  obtain ⟨new, -, rfl⟩ := map_eq_some_iff.mp hst
  refine ⟨⟨h.old, ?_, ?_, fun o ho => ⟨(h.behind o ho).keys, (h.behind o ho).stringPool⟩,
    fun o ho => ?_⟩, h.grown.cells.length_le, rfl, rfl⟩
  · exact h.grown.trans ⟨widens_concat _, .refl _, .refl _⟩
  · refine ⟨⟨?_, ?_⟩, h.valid.keys, h.valid.stringPool⟩
    · simp [alloc]
    · simp [alloc, block_concat_self]
  obtain ⟨hk, hp, hc⟩ := h.alike o ho
  have hv : view (st.1.cells ++ [new.matrix]) (o.store ns).matrix
      = view st.1.cells (o.store ns).matrix :=
    view_concat _ ((h.old o ho).matrix.mono h.grown.cells)
  exact ⟨hk, hp, fun i =>
    (congrArg (fun l : List Nat => l[i]?.bind _) hv).trans (hc i)⟩

/-- The root is appended as any node is. -/
theorem rooted_along (rt : Runtime) (h : StoreAlong P ns a st) :
    Lib.Widens st.1.nodes (rooted rt st).1 ∧ (rooted rt st).2.Valid (rooted rt st).1
      ∧ ∀ o, P o → (o.store ns).keys.Behind (rooted rt st).2
        ∧ view (rooted rt st).1 (o.store ns).keys = view st.1.nodes (o.store ns).keys := by
  unfold rooted
  split
  · refine ⟨widens_append, valid_append h.valid.keys, fun o ho => ?_⟩
    have hv := (h.old o ho).keys.mono h.grown.nodes
    exact ⟨behind_append hv (h.behind o ho).keys, view_append_behind hv (h.behind o ho).keys⟩
  · exact ⟨.refl _, h.valid.keys, fun o ho => ⟨(h.behind o ho).keys, rfl⟩⟩

theorem rooted_array (rt : Runtime) :
    (rooted rt st).2.array = st.2.keys.array ∨ (rooted rt st).2.Fresh st.1.nodes := by
  unfold rooted
  split
  · exact array_append
  · exact .inl rfl

variable {key : Bytes} {val : Nat}

/-- The node of a new key goes to the array of the radix or to a new one; it goes to a new one if
the radix was neither empty nor had room. -/
theorem leafed_array (rt : Runtime) (he : a.Widens st.1)
    (hr : Lib.Widens st.1.nodes (rooted rt st).1) :
    (leafed rt st key val).2.array = st.2.keys.array
      ∨ (leafed rt st key val).2.Fresh a.nodes := by
  rcases array_append with hs | hf
  · rcases rooted_array rt with hsame' | hf
    · exact .inl (hs.trans hsame')
    · exact .inr (le_of_le_of_eq (Nat.le_trans he.nodes.length_le hf) hs.symm)
  · exact .inr (Nat.le_trans (he.nodes.trans hr).length_le hf)

theorem leafed_fresh (rt : Runtime) (he : a.Widens st.1) (hl : st.2.keys.len ≠ 0)
    (hr : (block st.1.nodes st.2.keys.array).length ≤ st.2.keys.len) :
    (leafed rt st key val).2.Fresh a.nodes := by
  unfold leafed rooted
  simp only [hl]
  exact Nat.le_trans he.nodes.length_le (fresh_append (Nat.lt_succ_of_le hr))

/-- The root that is written to is not one of an old radix. -/
theorem keys_ne_leafed (rt : Runtime) {o : PropStore} (ho : o.Valid a) (hb : o.Behind st.2)
    (he : a.Widens st.1) (hrt : Lib.Widens st.1.nodes (rooted rt st).1)
    (ha : st.2.keys.len = 0 ∨ st.2.keys.Fresh a.nodes
      ∨ (block st.1.nodes st.2.keys.array).length ≤ st.2.keys.len) :
    o.keys.len = 0 ∨ o.keys.array ≠ (leafed rt st key val).2.array := by
  rcases @leafed_array a st key val rt he hrt with hsm | hf
  · by_cases hl : st.2.keys.len = 0
    · by_cases hs : o.keys.array = st.2.keys.array
      · exact .inl (Nat.le_zero.mp (hl ▸ hb.keys hs))
      · exact .inr (fun h => hs (h.trans hsm))
    right
    rcases ha with h | hf | hr
    · exact absurd h hl
    · rw [hsm]
      exact ho.keys.ne_fresh hf
    · exact ho.keys.ne_fresh (leafed_fresh rt he hl hr)
  · exact .inr (ho.keys.ne_fresh hf)

theorem StoreAlong.insert (rt : Runtime) (h : StoreAlong P ns a st)
    (hap : st.2.keys.len = 0 ∨ st.2.keys.Fresh a.nodes
      ∨ (block st.1.nodes st.2.keys.array).length ≤ st.2.keys.len) :
    StoreAlong P ns a (insertIntoPropertiesRadix rt st key val) := by
  obtain ⟨hrt, hrv, hr⟩ := rooted_along rt h
  have hl : Lib.Widens (rooted rt st).1 (leafed rt st key val).1 := widens_append
  have hw : ∀ l : List RegistryNode, (l.modify 0
      (fun root => { root with childCount := uint16 (root.childCount + 1) })).length = l.length :=
    fun l => length_modify ..
  refine ⟨h.old, ?_, ?_, fun o ho => ⟨?_, ?_⟩, fun o ho => ?_⟩
  · exact h.grown.trans ⟨.refl _, hrt.trans (hl.trans (widens_write hw)), widens_append⟩
  · exact ⟨h.valid.matrix, (valid_append hrv).mono (widens_write hw),
      valid_append h.valid.stringPool⟩
  · exact behind_append ((h.old o ho).keys.mono (h.grown.nodes.trans hrt)) (hr o ho).1
  · exact behind_append ((h.old o ho).stringPool.mono h.grown.bytes) (h.behind o ho).stringPool
  obtain ⟨hk, hp, hc⟩ := h.alike o ho
  have hv := (h.old o ho).keys.mono (h.grown.nodes.trans hrt)
  refine ⟨?_, ?_, hc⟩
  · have ha : view (leafed rt st key val).1 (o.store ns).keys = view a.nodes (o.store ns).keys := by
      rw [leafed, view_append_behind hv (hr o ho).1, (hr o ho).2, hk]
    rcases keys_ne_leafed rt (h.old o ho) (h.behind o ho) h.grown hrt hap with he | hne
    · simp only [view, he, take_zero]
    · exact (view_write_of_ne hne).trans ha
  · exact (view_append_behind ((h.old o ho).stringPool.mono h.grown.bytes)
      (h.behind o ho).stringPool).trans hp

/-- A cell that no old snapshot has, or sees change. -/
theorem StoreAlong.write (h : StoreAlong P ns a st)
    (ha : st.2.matrix.Fresh a.cells ∨ (view st.1.cells st.2.matrix)[idx]? = some vID
      ∨ (view st.1.cells st.2.matrix)[idx]? = some 0 ∧ ∀ o, P o → o.valuePool.len ≤ vID) :
    StoreAlong P ns a
      ({ st.1 with cells := Lib.write st.1.cells st.2.matrix fun l => l.set idx vID }, st.2) := by
  have he : Lib.Widens st.1.cells (Lib.write st.1.cells st.2.matrix fun l => l.set idx vID) :=
    widens_write fun l => length_set ..
  refine ⟨h.old, h.grown.trans ⟨he, .refl _, .refl _⟩,
    ⟨h.valid.matrix.mono he, h.valid.keys, h.valid.stringPool⟩, h.behind, fun o ho => ?_⟩
  obtain ⟨hk, hp, hcl⟩ := h.alike o ho
  by_cases hs : (o.store ns).matrix.array = st.2.matrix.array
  · have hv := @view_set Nat st.1.cells _ _ idx vID h.valid.matrix.array_lt hs
    refine ⟨hk, hp, fun i => ?_⟩
    refine (congrArg (fun l : List Nat => l[i]?.bind _) hv).trans ?_
    rw [← hcl i, getElem?_set]
    split
    · rename_i hi
      subst hi
      cases hol : (view st.1.cells (o.store ns).matrix)[idx]? with
      | none => rw [if_neg (Nat.not_lt.mpr (getElem?_eq_none_iff.mp hol))]
      | some x =>
      rw [if_pos (List.getElem?_eq_some_iff.mp hol).1, bind_some, bind_some]
      rcases ha with hf | hc | ⟨hc, hn⟩
      · exact absurd hs ((h.old o ho).matrix.ne_fresh hf)
      · rw [eq_of_view hs hol hc]
      · -- an unset cell shows nothing, and neither does a number that the pool does not have
        rw [eq_of_view hs hol hc]
        have hl : o.valuePool.len ≤ vID := hn o ho
        simp only [visible, true_or, if_true, if_pos (Or.inr hl)]
    · rfl
  · have hv : view (Lib.write st.1.cells st.2.matrix fun l => l.set idx vID)
        (o.store ns).matrix = view st.1.cells (o.store ns).matrix := view_write_of_ne hs
    exact ⟨hk, hp, fun i => (congrArg (fun l : List Nat => l[i]?.bind _) hv).trans (hcl i)⟩

end Store

/-! ## Operations -/

structure TenantRegistry.Valid (h : Heap) (o : TenantRegistry) : Prop where
  stores : ∀ ns, (o.store ns).Valid (h.stores ns)
  values : o.valuePool.Valid h.values
  pointers : o.tenantV2Overrides.Valid h.pointers
  targets : ∀ p, some p ∈ view h.pointers o.tenantV2Overrides → p < h.tables.length

/-- The pool of values, in an operation that began with the arrays `v₀`. -/
structure PoolAlong (P : TenantRegistry → Prop) (v₀ v : List (List Bytes)) (pool : Slice) :
    Prop where
  old : ∀ o, P o → o.valuePool.Valid v₀
  grown : Lib.Widens v₀ v
  valid : pool.Valid v
  behind : ∀ o, P o → o.valuePool.Behind pool ∧ o.valuePool.len ≤ pool.len
  alike : ∀ o, P o → view v o.valuePool = view v₀ o.valuePool

/-- The pointers to tables; tables that were there are as they were. -/
structure TablesAlong (P : TenantRegistry → Prop) (p₀ p : List (List (Option Nat)))
    (t₀ t : List TenantV2OverrideTable) (pointers : Slice) : Prop where
  old : ∀ o, P o → o.tenantV2Overrides.Valid p₀
  grown : Lib.Widens p₀ p
  tables : t₀ <+: t
  valid : pointers.Valid p
  targets : ∀ i, some i ∈ view p pointers → i < t.length
  alike : ∀ o, P o → view p o.tenantV2Overrides = view p₀ o.tenantV2Overrides

/-- An operation that began with the memory `h₀`; the snapshots in `P` are old. -/
structure Along (P : TenantRegistry → Prop) (h₀ : Heap) (w : Live) : Prop where
  stores : ∀ ns, StoreAlong P ns (h₀.stores ns) (w.heap.stores ns, w.reg.store ns)
  pool : PoolAlong P h₀.values w.heap.values w.reg.valuePool
  tables : TablesAlong P h₀.pointers w.heap.pointers h₀.tables w.heap.tables
    w.reg.tenantV2Overrides

section Operation

variable {P : TenantRegistry → Prop} {h₀ : Heap} {w w' : Live} {ns : Namespace}

theorem Along.setStore (h : Along P h₀ w) (hst : StoreAlong P ns (h₀.stores ns) st) :
    Along P h₀ (w.setStore ns st) := by
  refine ⟨fun ns' => ?_, h.pool, h.tables⟩
  unfold Live.setStore
  by_cases hns : ns' = ns
  · subst hns
    simp only [Function.update_self]
    exact hst
  · simp only [Function.update_of_ne hns]
    exact h.stores ns'

/-! ### Properties -/

theorem Along.resolveOrCreateKey (rt : Runtime) (h : Along P h₀ w) (ha : KeyApart h₀ ns w key)
    (hky : resolveOrCreateKey rt ns w key = some (kID, w')) : Along P h₀ w' := by
  unfold Shared.resolveOrCreateKey at hky
  split at hky
  · cases hky
  · cases hky
    exact h
  rename_i kID' hnw
  split at hky
  · cases hky
  rename_i st hst
  cases hky
  obtain ⟨hst, -, hk, hn⟩ := (h.stores ns).expand hst
  have hw : Along P h₀ { w with reg := { w.reg with maxTenants := w.reg.rows } } :=
    { h with }
  refine hw.setStore (hst.insert rt ?_)
  rw [hk, hn]
  exact ha kID hnw

theorem PoolAlong.append (hp : PoolAlong P h₀.values v pool) :
    PoolAlong P h₀.values (Lib.append spare [] v pool xs).1 (Lib.append spare [] v pool xs).2 := by
  refine ⟨hp.old, hp.grown.trans widens_append, valid_append hp.valid, fun o ho => ?_,
    fun o ho => ?_⟩
  · refine ⟨behind_append ((hp.old o ho).mono hp.grown) (hp.behind o ho).1, ?_⟩
    rw [len_append]
    exact Nat.le_trans (hp.behind o ho).2 (by omega)
  · exact (view_append_behind ((hp.old o ho).mono hp.grown) (hp.behind o ho).1).trans
      (hp.alike o ho)

theorem Along.withSentinel (rt : Runtime) (h : Along P h₀ w) : Along P h₀ (withSentinel rt w) := by
  unfold Shared.withSentinel
  split
  · exact ⟨h.stores, h.pool.append, h.tables⟩
  · exact h

/-- Interning leaves the stores alone, and the pool does not get shorter. -/
theorem Along.internValue (rt : Runtime) (h : Along P h₀ w) (value : Bytes) :
    Along P h₀ (internValue rt w value).2
      ∧ (internValue rt w value).2.heap.stores = w.heap.stores
      ∧ (internValue rt w value).2.reg.store = w.reg.store := by
  have hs := h.withSentinel rt
  have hst : (Shared.withSentinel rt w).heap.stores = w.heap.stores
      ∧ (Shared.withSentinel rt w).reg.store = w.reg.store := by
    unfold Shared.withSentinel
    split <;> exact ⟨rfl, rfl⟩
  unfold Shared.internValue
  split
  · exact ⟨h, rfl, rfl⟩
  dsimp only
  split
  · exact ⟨hs, hst⟩
  · exact ⟨⟨hs.stores, hs.pool.append, hs.tables⟩, hst⟩

theorem Along.setCell (h : Along P h₀ w) (ha : (w.reg.store ns).matrix.Fresh (h₀.stores ns).cells
      ∨ (w.content ns).matrix[idx]? = some vID
      ∨ (w.content ns).matrix[idx]? = some 0 ∧ ∀ o, P o → o.valuePool.len ≤ vID) :
    Along P h₀ (setCell ns w idx vID) :=
  h.setStore ((h.stores ns).write ha)

theorem Along.setProp (rt : Runtime) (h : Along P h₀ w) (ha : SetApart rt h₀ tID w p)
    (hst : setProp rt tID w p = some w') : Along P h₀ w' := by
  unfold Shared.setProp at hst
  split at hst
  · cases hst
  rename_i kID w1 hk
  have h₁ := h.resolveOrCreateKey rt ha.1 hk
  have hc := ha.2 kID w1 hk
  obtain ⟨h₂, hh, hr⟩ := h₁.internValue rt p.2.2
  dsimp only at hst
  split at hst
  · cases hst
    refine h₂.setCell ?_
    rw [Live.content, hh, hr]
    rcases hc with hf | hs | ⟨hu, hn⟩
    · exact .inl hf
    · exact .inr (.inl hs)
    · exact .inr (.inr ⟨hu, fun o ho => Nat.le_trans (h₁.pool.behind o ho).2 hn⟩)
  · cases hst

theorem Along.setProps (rt : Runtime) (h : Along P h₀ w) (ha : SetsApart rt h₀ tID props w)
    (hs : setProps rt tID props w = some w') : Along P h₀ w' := by
  induction props generalizing w with
  | nil =>
    cases hs
    exact h
  | cons p props ih =>
  unfold Shared.setProps at hs
  rw [foldlM_cons] at hs
  obtain ⟨w1, hf, hr⟩ := bind_eq_some_iff.mp hs
  exact ih (h.setProp rt ha.1 hf) (ha.2 w1 hf) hr

/-! ### Tenants -/

theorem Along.growRows (h : Along P h₀ w) (hg : growRows newMax w ns = some w') :
    Along P h₀ w' := by
  unfold Shared.growRows at hg
  split at hg
  · obtain ⟨st, hst, rfl⟩ := map_eq_some_iff.mp hg
    exact h.setStore ((h.stores ns).expand hst).1
  · cases hg
    exact h


variable {needed idx tenantID configID : Nat}

theorem some_mem_growSlice {α : Type} {p : α} {l : List (Option α)}
    (h : some p ∈ growSlice none needed l) : some p ∈ l := by
  rcases mem_append.mp h with h | h
  · exact h
  · cases eq_of_mem_replicate h

/-- The pointers are copied to an array of their own. -/
theorem Along.growPointers (h : Along P h₀ w) (needed : Nat) :
    Along P h₀ (growPointers w needed) := by
  unfold Shared.growPointers
  split
  · refine ⟨h.stores, h.pool, ⟨h.tables.old, h.tables.grown.trans (widens_concat _),
      h.tables.tables,
      valid_alloc _, fun p hp => ?_, fun o ho => ?_⟩⟩
    · dsimp only at hp
      rw [view_alloc_self] at hp
      exact h.tables.targets p (some_mem_growSlice hp)
    · exact (view_concat _ ((h.tables.old o ho).mono h.tables.grown)).trans (h.tables.alike o ho)
  · exact h

theorem Along.growFor (h : Along P h₀ w) {tID : Nat}
    (hg : growFor w tID = some w') : Along P h₀ w' := by
  unfold Shared.growFor at hg
  dsimp only at hg
  have hw : Along P h₀ { w with reg := { w.reg with
      tenantModifiers := max w.reg.tenantModifiers (tID + 1) } } := { h with }
  have hp := hw.growPointers (tID + 1)
  split at hg
  · obtain ⟨w1, hr, rfl⟩ := map_eq_some_iff.mp hg
    have hr := (GoodRun.of_foldlM hr).invariant (I := Along P h₀) (fun h _ hs => h.growRows hs) hp
    exact { hr with }
  · cases hg
    exact hp

theorem Along.resolveOrCreateTenant (h : Along P h₀ w)
    (hr : resolveOrCreateTenant ids w aliasName = some (tID, w')) : Along P h₀ w' := by
  unfold Shared.resolveOrCreateTenant at hr
  split at hr
  · cases hr
    exact h
  · obtain ⟨w1, hg, heq⟩ := map_eq_some_iff.mp hr
    cases heq
    exact h.growFor hg

/-! ### Cells that are unset -/

theorem setCell_eq_self (hc : (w.content ns).matrix[idx]? = some vID) :
    setCell ns w idx vID = w := by
  have hw : Lib.write (w.heap.stores ns).cells (w.reg.store ns).matrix (fun l => l.set idx vID)
      = (w.heap.stores ns).cells := write_set_eq_self hc
  unfold setCell Live.setStore
  rw [hw]
  simp only [Function.update_eq_self]

/-- To clear what is clear changes nothing. -/
theorem zeroCell_eq_self (hv : (w.reg.store ns).matrix.Valid (w.heap.stores ns).cells)
    (hc : ∀ v ∈ (w.content ns).matrix[idx]?, v = 0) : zeroCell ns w idx = w := by
  unfold zeroCell
  split
  · rename_i hi
    refine setCell_eq_self ?_
    have hlt : idx < (w.content ns).matrix.length := Nat.lt_of_lt_of_eq hi hv.length_view.symm
    have hs : (w.content ns).matrix[idx]? = some ((w.content ns).matrix[idx]) :=
      getElem?_eq_getElem hlt
    rw [hs, hc _ hs]
  · rfl

theorem zeroStoreRow_eq_self (hv : (w.reg.store ns).matrix.Valid (w.heap.stores ns).cells)
    (hcl : ∀ i < (w.reg.store ns).stride,
      ∀ v ∈ (w.content ns).matrix[uint32 (uint32 (tID * (w.reg.store ns).stride) + i)]?, v = 0) :
    zeroStoreRow tID w ns = w := by
  unfold zeroStoreRow
  dsimp only
  split
  · rfl
  split
  · rfl
  · refine foldlRecOn (motive := (· = w)) _ _ rfl fun w' hw idx hid => ?_
    obtain ⟨i, hi, rfl⟩ := mem_map.mp hid
    rw [hw, zeroCell_eq_self hv (hcl i (mem_range.mp hi))]

/-! ### Overrides -/

theorem upsert_eq_self {E : Type} {tbl : OverrideTable E} {id : Nat} {entry : E}
    (h : tbl.find id = some entry) : tbl.upsert id entry = tbl := by
  unfold OverrideTable.find at h
  unfold OverrideTable.upsert
  cases hs : tbl.search id with
  | missing i =>
    rw [hs] at h
    cases h
  | found mid =>
    rw [hs] at h
    obtain ⟨hlt, rfl⟩ := List.getElem?_eq_some_iff.mp h
    simp only [set_getElem_self]

/-- An override that is there already. -/
theorem upsertV2_eq_self {entry : TenantV2ConfigOverride}
    (hv : w.reg.tenantV2Overrides.Valid w.heap.pointers)
    (h : lookupV2Override w.heap w.reg tenantID configID = some entry) :
    upsertV2 w tenantID configID entry = w := by
  obtain ⟨tbl, htb, hf⟩ := bind_eq_some_iff.mp h
  obtain ⟨p, hp, hpt⟩ := bind_eq_some_iff.mp htb
  have hlt : tenantID < w.reg.tenantV2Overrides.len := by
    rw [← hv.length_view]
    exact (List.getElem?_eq_some_iff.mp (join_eq_some_iff.mp hp)).1
  have hg : growPointers w (tenantID + 1) = w := if_neg (by omega)
  have ht : w.heap.tables.modify p (fun tbl => tbl.upsert configID entry) = w.heap.tables := by
    refine ext_getElem? fun j => ?_
    rw [getElem?_modify]
    by_cases hj : p = j
    · subst hj
      simp only [hpt]
      exact congrArg some (upsert_eq_self hf)
    · simp only [hj]
      exact id_map _
  unfold upsertV2
  dsimp only
  rw [hg, hp]
  simp only [ht]

/-- A tenant without a table has none after the array has grown. -/
theorem growPointers_nil (hn : v2Pointer w.heap w.reg tenantID = none) :
    v2Pointer (growPointers w needed).heap (growPointers w needed).reg tenantID = none := by
  unfold growPointers
  split
  · unfold v2Pointer at hn ⊢
    rw [view_alloc_self, growSlice, getElem?_append]
    split
    · exact hn
    · rw [getElem?_replicate]
      split <;> rfl
  · exact hn

theorem growPointers_fresh (h : Along P h₀ w) (ha : w.reg.tenantV2Overrides.len ≤ tenantID
      ∨ w.reg.tenantV2Overrides.Fresh h₀.pointers) :
    (growPointers w (tenantID + 1)).reg.tenantV2Overrides.Fresh h₀.pointers := by
  unfold growPointers
  split
  · exact h.tables.grown.length_le
  rename_i hl
  rcases ha with hle | hf
  · omega
  · exact hf

/-- A tenant without a table gets a new one. The pointer goes to an array of the operation's own. -/
theorem Along.newTable (h : Along P h₀ w) (entry : TenantV2ConfigOverride)
    (ha : w.reg.tenantV2Overrides.len ≤ tenantID
      ∨ w.reg.tenantV2Overrides.Fresh h₀.pointers) (hn : v2Pointer w.heap w.reg tenantID = none) :
    Along P h₀ (upsertV2 w tenantID configID entry) := by
  have hw := h.growPointers (tenantID + 1)
  have hf := growPointers_fresh h ha
  unfold upsertV2
  dsimp only
  rw [growPointers_nil hn]
  have hl : ∀ l : List (Option Nat),
      (l.set tenantID (some (Shared.growPointers w (tenantID + 1)).heap.tables.length)).length
        = l.length := fun l => length_set ..
  refine ⟨hw.stores, hw.pool, ⟨hw.tables.old, hw.tables.grown.trans (widens_write hl),
    hw.tables.tables.trans (prefix_append _ _), hw.tables.valid.mono (widens_write hl),
    fun p hp => ?_, fun o ho => ?_⟩⟩
  · rw [view_set hw.tables.valid.array_lt rfl] at hp
    rw [length_append]
    rcases mem_or_eq_of_mem_set hp with hol | hnw
    · exact Nat.lt_succ_of_lt (hw.tables.targets p hol)
    · cases hnw
      exact Nat.lt_succ_self _
  · dsimp only
    exact (view_write_of_ne ((hw.tables.old o ho).ne_fresh hf)).trans (hw.tables.alike o ho)

/-- A tenant without a table gets a new one. The pointer goes to an array of the operation's own. -/
theorem Along.upsertV2 (h : Along P h₀ w) (ha : OverrideApart h₀ w tenantID configID entry) :
    Along P h₀ (upsertV2 w tenantID configID entry) := by
  rcases ha with hl | ⟨hf, hn⟩ | hs
  · refine h.newTable entry (.inl hl) ?_
    unfold v2Pointer
    rw [getElem?_eq_none (Nat.le_trans (Nat.le_of_eq h.tables.valid.length_view) hl)]
    rfl
  · exact h.newTable entry (.inr hf) hn
  · rw [upsertV2_eq_self h.tables.valid hs]
    exact h

theorem deleteTenantV2Override_eq_none (ha : OverrideAbsent w tenantID configID) :
    deleteTenantV2Override w tenantID configID = none := by
  unfold deleteTenantV2Override
  cases ht : v2Table w.heap w.reg tenantID with
  | none => rfl
  | some tbl =>
  rw [map_some]
  cases hs : tbl.search configID with
  | found mid => exact absurd hs (ha tbl ht mid)
  | missing i => rfl

/-! ### What is published -/

variable (rt : Runtime) {ids : Ids} {names : Bytes → Option Nat}

theorem Along.updateTenant (h : Along P h₀ w) (ha : UpdateApart rt h₀ ids w aliasName props)
    (hw : (updateTenant rt ids w aliasName props).map some = some (some w')) : Along P h₀ w' := by
  obtain ⟨w1, hu, hs⟩ := map_eq_some_iff.mp hw
  cases hs
  obtain ⟨⟨tID, w2⟩, hr, hst⟩ := bind_eq_some_iff.mp hu
  exact (h.resolveOrCreateTenant hr).setProps rt (ha tID w2 hr) hst

/-- Without properties there is nothing to write to. -/
theorem updateApart_nil (aliasName : Bytes) : UpdateApart rt h₀ ids w aliasName [] :=
  fun _ _ _ => trivial

section

variable (h : Along P h₀ w)
include h

theorem Along.deleteTenant (hc : TenantClear ids w aliasName)
    (hw : deleteTenant ids w aliasName = some w') : Along P h₀ w' := by
  obtain ⟨tID, ht, rfl⟩ := map_eq_some_iff.mp hw
  have hr (ns : Namespace) : zeroStoreRow tID w ns = w :=
    zeroStoreRow_eq_self (h.stores ns).valid.matrix (hc tID ht ns)
  simp only [foldl_cons, foldl_nil, hr]
  exact h

theorem Along.zeroCell (hc : CellClear ns ids w aliasName name)
    (hcl : cellOf ns ids w aliasName name = some (some idx)) :
    Along P h₀ (zeroCell ns w idx) := by
  rw [zeroCell_eq_self (h.stores ns).valid.matrix (hc idx hcl)]
  exact h

theorem Along.setModifier (tenantID : Nat) : Along P h₀ (Shared.setModifier w tenantID) :=
  { h with }

theorem Along.modifyByName
    (hw : (ids.aliasMap aliasName).map (Shared.setModifier w) = some w') : Along P h₀ w' := by
  obtain ⟨tID, -, rfl⟩ := map_eq_some_iff.mp hw
  exact h.setModifier tID

theorem Along.overrideByName
    (ha : ∀ p ∈ named ids names aliasName configName, OverrideApart h₀ w p.1 p.2 r.entry)
    (hw : overrideByName ids names w aliasName configName r = some w') : Along P h₀ w' := by
  obtain ⟨p, hp, rfl⟩ := map_eq_some_iff.mp hw
  exact h.upsertV2 (ha p hp)

theorem Along.applyStorePut (codec : Codec) (ha : PutApart rt codec h₀ ids names w value key)
    (hw : applyStorePut rt codec ids names w value key = some (some w')) : Along P h₀ w' := by
  cases key with
  | aliases primary =>
    change applyAliases rt ids w primary (codec.aliases value) = some (some w') at hw
    unfold applyAliases at hw
    split at hw
    · exact h.updateTenant rt (updateApart_nil rt primary) hw
    · cases hw
  | prop ns primary key => exact h.updateTenant rt ha hw
  | v2Override aliasName configName =>
    obtain ⟨r, hr, hw⟩ := bind_eq_some_iff.mp (some.inj hw)
    exact h.overrideByName (ha r hr) hw
  | modifier aliasName =>
    obtain ⟨r, -, hw⟩ := bind_eq_some_iff.mp (some.inj hw)
    exact h.modifyByName hw
  | rateLimit name =>
    obtain ⟨u, -, rfl⟩ := map_eq_some_iff.mp (some.inj hw)
    exact h

theorem Along.applyStoreDelete (ha : DeleteApart ids names w key)
    (hw : applyStoreDelete ids names w key = some (some w')) : Along P h₀ w' := by
  cases key with
  | aliases primary => exact h.deleteTenant ha (some.inj hw)
  | prop ns primary key =>
    change zeroProp ns ids w primary key = some (some w') at hw
    unfold zeroProp at hw
    split at hw
    · cases hw
    · cases hw
    rename_i idx hc
    split at hw
    · cases hw
      exact h.zeroCell ha hc
    · cases hw
  | v2Override aliasName configName =>
    obtain ⟨p, hp, hw⟩ := bind_eq_some_iff.mp (some.inj hw)
    rw [deleteTenantV2Override_eq_none (ha p hp)] at hw
    cases hw
  | modifier aliasName =>
    obtain ⟨tID, -, hw⟩ := bind_eq_some_iff.mp (some.inj hw)
    split at hw
    · cases hw
      exact h
    · cases hw
  | rateLimit name =>
    obtain ⟨id, -, rfl⟩ := map_eq_some_iff.mp (some.inj hw)
    exact h

/-- **What a harmless operation publishes** is apart from what was there. -/
theorem Along.work (codec : Codec) (hap : OpApart rt codec h₀ ids names w op)
    (hw : work rt codec ids names w op = some (some w')) : Along P h₀ w' := by
  cases op with
  | add ns aliasName name value => exact h.updateTenant rt hap hw
  | delete ns aliasName name =>
    obtain ⟨found, hc, hf⟩ := map_eq_some_iff.mp hw
    obtain ⟨idx, rfl, rfl⟩ := map_eq_some_iff.mp hf
    exact h.zeroCell hap hc
  | upsert aliases urls props metadata =>
    cases aliases with
    | nil => cases hw
    | cons first more => exact h.updateTenant rt (hap first rfl) hw
  | ensure ns key =>
    obtain ⟨r, hk, hr⟩ := map_eq_some_iff.mp hw
    cases hr
    exact h.resolveOrCreateKey rt hap hk
  | addAlias existingAlias newAlias =>
    exact h.updateTenant rt (updateApart_nil rt existingAlias) hw
  | deleteTenant aliasName | deleteTestTenant runID =>
    exact h.deleteTenant hap (some.inj hw)
  | registerTestTenant runID =>
    obtain ⟨w1, hg, hs⟩ := map_eq_some_iff.mp hw
    cases hs
    exact h.growFor hg
  | setModifier tenantID modifier =>
    cases hw
    exact h.setModifier _
  | upsertRateLimit tenantID policyID entry | upsertConfig name =>
    cases hw
    exact h
  | upsertV2 tenantID configID entry =>
    cases hw
    exact h.upsertV2 hap
  | deleteV2 tenantID configID =>
    have hw := some.inj hw
    rw [deleteTenantV2Override_eq_none hap] at hw
    cases hw
  | ensureConfig name => cases hw
  | restoreTenant t =>
    change restoreTenant rt ids w t = some (some w') at hw
    unfold restoreTenant at hw
    split at hw
    · cases hw
    · rename_i first more ha
      exact h.updateTenant rt (hap first (congrArg List.head? ha)) hw
  | restoreOverride aliasName configName r => exact h.overrideByName hap (some.inj hw)
  | restoreModifier aliasName r => exact h.modifyByName (some.inj hw)
  | applyStorePut rawKey value =>
    change (parseKey rawKey).elim (some none) _ = some (some w') at hw
    cases hk : parseKey rawKey with
    | none =>
      rw [hk] at hw
      cases hw
    | some key =>
      rw [hk] at hw
      exact h.applyStorePut rt codec (hap key hk) hw
  | applyStoreDelete rawKey =>
    change (parseKey rawKey).elim (some none) _ = some (some w') at hw
    cases hk : parseKey rawKey with
    | none =>
      rw [hk] at hw
      cases hw
    | some key =>
      rw [hk] at hw
      exact h.applyStoreDelete (hap key hk) hw

end

end Operation

/-! ## Histories -/

/-- A snapshot shows the same in both memories. -/
structure TenantRegistry.Alike (o : TenantRegistry) (h h' : Heap) : Prop where
  stores : ∀ ns, (o.store ns).Alike o.valuePool.len (h.stores ns) (h'.stores ns)
  values : view h'.values o.valuePool = view h.values o.valuePool
  tables : ∀ tenantID, v2Table h' o tenantID = v2Table h o tenantID

section Alike

variable {o : TenantRegistry} {h h' h'' : Heap}

theorem TenantRegistry.Alike.refl (o : TenantRegistry) (h : Heap) : o.Alike h h :=
  ⟨fun _ => ⟨rfl, rfl, fun _ => rfl⟩, rfl, fun _ => rfl⟩

theorem TenantRegistry.Alike.trans (h₁ : o.Alike h h') (h₂ : o.Alike h' h'') : o.Alike h h'' where
  stores ns :=
    ⟨(h₂.stores ns).keys.trans (h₁.stores ns).keys,
      (h₂.stores ns).stringPool.trans (h₁.stores ns).stringPool,
      fun i => ((h₂.stores ns).cells i).trans ((h₁.stores ns).cells i)⟩
  values := h₂.values.trans h₁.values
  tables t := (h₂.tables t).trans (h₁.tables t)

/-- A property is what its cell shows of the pool. -/
theorem getPropByKeyID_eq (ns : Namespace) (tenantID keyID : Nat)
    (hv : o.valuePool.Valid h.values) :
    getPropByKeyID h o ns tenantID keyID
      = ((view (h.stores ns).cells (o.store ns).matrix)[uint32
          (tenantID * (o.store ns).stride + keyID)]?.bind (visible o.valuePool.len)).bind
        fun vID => (view h.values o.valuePool)[vID]? := by
  unfold getPropByKeyID Registry.getPropByKeyID
  rw [hv.length_view]
  dsimp only [PropStore.content]
  generalize uint32 (tenantID * (o.store ns).stride + keyID) = idx
  cases hc : (view (h.stores ns).cells (o.store ns).matrix)[idx]? with
  | none => exact if_pos (getElem?_eq_none_iff.mp hc)
  | some vID =>
  have hlt : ¬ idx ≥ (view (h.stores ns).cells (o.store ns).matrix).length :=
    Nat.not_le_of_lt (List.getElem?_eq_some_iff.mp hc).1
  simp only [hlt, if_false, bind_some, visible]
  split
  · rfl
  · rfl

theorem TenantRegistry.Alike.lookup (ha : o.Alike h h') (hv : o.valuePool.Valid h.values)
    (hvalid' : o.valuePool.Valid h'.values) (has : Bytes → UInt64) (q : Query) :
    lookup has h' o q = lookup has h o q := by
  cases q with
  | aliasName name => rfl
  | key ns name =>
    refine congrArg Answer.number ?_
    unfold getStoreKeyID
    rw [(ha.stores ns).keys, (ha.stores ns).stringPool]
  | prop ns tenantID keyID =>
    refine congrArg Answer.value ?_
    rw [getPropByKeyID_eq ns _ _ hv, getPropByKeyID_eq ns _ _ hvalid',
      (ha.stores ns).cells, ha.values]
  | v2Override tenantID configID =>
    refine congrArg Answer.override ?_
    unfold lookupV2Override
    rw [ha.tables]

/-- What an operation does not change of an old snapshot is all a lookup sees. -/
theorem Along.alike {P : TenantRegistry → Prop} {w : Live} (hw : Along P h w) (ho : P o)
    (hv : o.Valid h) : o.Alike h w.heap := by
  refine ⟨fun ns => (hw.stores ns).alike o ho, hw.pool.alike o ho, fun tenantID => ?_⟩
  unfold v2Table v2Pointer
  rw [hw.tables.alike o ho]
  cases hp : (view h.pointers o.tenantV2Overrides)[tenantID]?.join with
  | none => rfl
  | some p =>
  -- the tables an old pointer can reach are in front of the new ones
  have hlt : p < h.tables.length := hv.targets p (mem_of_getElem? (join_eq_some_iff.mp hp))
  obtain ⟨more, hm⟩ := hw.tables.tables
  rw [bind_some, bind_some, ← hm, getElem?_append_left hlt]


end Alike

/-- Nothing of the snapshot is longer than what the live one has in the same array. -/
structure TenantRegistry.Behind (o reg : TenantRegistry) : Prop where
  stores : ∀ ns, (o.store ns).Behind (reg.store ns)
  values : o.valuePool.Behind reg.valuePool
  values_len : o.valuePool.len ≤ reg.valuePool.len

/-- The snapshots in `P` are as they were in `h₁`, and behind the live one. -/
structure Manager.Inv (P : TenantRegistry → Prop) (h₁ : Heap) (s : Manager) : Prop where
  start : s.active = none → s.heap = .empty
  valid : ∀ reg, s.active = some reg → reg.Valid s.heap
  old_valid : ∀ o, P o → o.Valid s.heap
  old_alike : ∀ o, P o → o.Alike h₁ s.heap
  old_behind : ∀ o, P o → ∃ reg, s.active = some reg ∧ o.Behind reg

section Manager

variable {P : TenantRegistry → Prop} {h₁ : Heap} {s s' : Manager}

theorem nilSlice_valid {α : Type} : nilSlice.Valid ([[]] : List (List α)) :=
  ⟨Nat.zero_lt_one, Nat.le_refl 0⟩

theorem TenantRegistry.Valid.along {reg : TenantRegistry} {h : Heap} (hr : reg.Valid h)
    (hol : ∀ o, P o → o.Valid h) (hb : ∀ o, P o → o.Behind reg) :
    Along P h ⟨h, reg⟩ where
  stores ns := ⟨fun o ho => (hol o ho).stores ns, ⟨.refl _, .refl _, .refl _⟩, hr.stores ns,
    fun o ho => (hb o ho).stores ns, fun _ _ => ⟨rfl, rfl, fun _ => rfl⟩⟩
  pool := ⟨fun o ho => (hol o ho).values, .refl _, hr.values,
    fun o ho => ⟨(hb o ho).values, (hb o ho).values_len⟩, fun _ _ => rfl⟩
  tables := ⟨fun o ho => (hol o ho).pointers, .refl _, prefix_rfl, hr.pointers,
    hr.targets, fun _ _ => rfl⟩

/-- Where an operation begins. -/
theorem Manager.Inv.along (h : s.Inv P h₁) : Along P s.heap s.activeOrEmpty := by
  unfold activeOrEmpty
  cases ha : s.active with
  | some reg =>
    refine (h.valid reg ha).along h.old_valid fun o ho => ?_
    obtain ⟨reg', hr, hb⟩ := h.old_behind o ho
    cases ha.symm.trans hr
    exact hb
  | none =>
  -- nothing was published yet, so there are no snapshots that are old
  have hn {Q : TenantRegistry → Prop} (o : TenantRegistry) (ho : P o) : Q o := by
    obtain ⟨reg, hr, -⟩ := h.old_behind o ho
    cases ha.symm.trans hr
  rw [h.start ha]
  refine ⟨fun ns => ⟨hn, ⟨.refl _, .refl _, .refl _⟩,
    ⟨nilSlice_valid, nilSlice_valid, nilSlice_valid⟩,
      hn, hn⟩,
    ⟨hn, .refl _, nilSlice_valid, hn, hn⟩,
    ⟨hn, widens_concat _, prefix_rfl, valid_alloc _, fun p hp => ?_, hn⟩⟩
  rw [view_alloc_self] at hp
  cases eq_of_mem_replicate hp

/-- Where it ends. -/
theorem Manager.Inv.publish (h : s.Inv P h₁) {w : Live} (hw : Along P s.heap w) (ids : Ids)
    (aliases : AliasTable) :
    Manager.Inv P h₁ ⟨ids, w.heap, some { w.reg with aliases := aliases }⟩ where
  start ha := by cases ha
  valid reg hr := by
    cases hr
    exact ⟨fun ns => (hw.stores ns).valid, hw.pool.valid, hw.tables.valid, hw.tables.targets⟩
  old_valid o ho := by
    have hv := h.old_valid o ho
    refine ⟨fun ns => (hv.stores ns).mono (hw.stores ns).grown, hv.values.mono hw.pool.grown,
      hv.pointers.mono hw.tables.grown, fun p hp => ?_⟩
    rw [hw.tables.alike o ho] at hp
    exact Nat.lt_of_lt_of_le (hv.targets p hp) hw.tables.tables.length_le
  old_alike o ho := (h.old_alike o ho).trans (hw.alike ho (h.old_valid o ho))
  old_behind o ho := ⟨_, rfl, fun ns => (hw.stores ns).behind o ho, (hw.pool.behind o ho).1,
    (hw.pool.behind o ho).2⟩

/-! ### Every history -/

variable (rt : Runtime)

theorem Manager.Inv.run (codec : Codec) (hr : GoodRun (Step rt codec) (Sound rt codec) s acts s')
    (h : s.Inv P h₁) : s'.Inv P h₁ := by
  refine hr.invariant (I := (·.Inv P h₁)) ?_ h
  intro s s' a h hs hst
  cases hst with
  | publish hw => exact h.publish (h.along.work rt codec hs hw) _ _
  | nothing hw => exact { h with }

theorem empty_inv : Manager.empty.Inv (fun _ => False) h₁ where
  start _ := rfl
  valid _ hr := by cases hr
  old_valid _ ho := ho.elim
  old_alike _ ho := ho.elim
  old_behind _ ho := ho.elim

/-- In a history of harmless operations, what a lookup in a published snapshot gives never
changes. -/
theorem snapshot_unchanged (codec : Codec) (hash : Bytes → UInt64) {before after : List Act}
    {snap : TenantRegistry}
    (hbefore : GoodRun (Step rt codec) (Sound rt codec) .empty before s)
    (hsnap : s.active = some snap) (hafter : GoodRun (Step rt codec) (Sound rt codec) s after s')
    (q : Query) : lookup hash s'.heap snap q = lookup hash s.heap snap q := by
  have he : Manager.empty.Inv (fun _ => False) s.heap := empty_inv
  have hv : snap.Valid s.heap := (he.run rt codec hbefore).valid snap hsnap
  have hp : s.Inv (fun o => o = snap) s.heap := by
    refine ⟨fun hn => ?_, fun reg hr => ?_, fun o ho => ?_, fun o ho => ?_, fun o ho => ?_⟩
    · cases hn.symm.trans hsnap
    · cases hsnap.symm.trans hr
      exact hv
    · subst ho
      exact hv
    · exact .refl o s.heap
    · subst ho
      exact ⟨o, hsnap, fun ns => ⟨fun _ => Nat.le_refl _, fun _ => Nat.le_refl _⟩,
        fun _ => Nat.le_refl _, Nat.le_refl _⟩
  have hen := hp.run rt codec hafter
  exact (hen.old_alike snap rfl).lookup hv.values (hen.old_valid snap rfl).values hash q

end Manager

/-! ## Two histories -/

/-- An array has no room left when it is new. -/
def tight : Runtime where
  spareNodes := fun _ _ => 0
  spareBytes := fun _ _ => 0
  spareValues := fun _ _ => 0

def entryOf (flags : BitVec 8) : TenantV2ConfigOverride :=
  { flags := flags, scaleOverridePct := 0, windowLimits := [] }

def actOf (op : RegistryOp) : Act := ⟨op, .empty, fun _ => none⟩

/-- A modifier is set. -/
def modified : Manager :=
  let w := setModifier Manager.empty.activeOrEmpty (1 : BitVec 16).toNat
  ⟨Manager.empty.ids, w.heap, some { w.reg with aliases := .empty }⟩

/-- The override of a tenant is set. -/
def overridden (s : Manager) (tenantID : BitVec 16) (flags : BitVec 8) : Manager :=
  let w := upsertV2 s.activeOrEmpty tenantID.toNat (7 : BitVec 16).toNat (entryOf flags)
  ⟨s.ids, w.heap, some { w.reg with aliases := .empty }⟩

/-- A modifier is set, and then the first override of a tenant that has no place in the array of
pointers yet. -/
theorem snapshot_unchanged_override : ∃ snap,
    GoodRun (Step tight noCodec) (Sound tight noCodec) .empty
      [actOf (.setModifier 1 .zero)] modified
      ∧ modified.active = some snap
      ∧ GoodRun (Step tight noCodec) (Sound tight noCodec) modified
        [actOf (.upsertV2 128 7 (entryOf 1))] (overridden modified 128 1)
      ∧ lookup (fun _ => 0) (overridden modified 128 1).heap snap (.v2Override 128 7)
        = lookup (fun _ => 0) modified.heap snap (.v2Override 128 7) := by
  have hb : GoodRun (Step tight noCodec) (Sound tight noCodec) .empty
      [actOf (.setModifier 1 .zero)] modified := .cons trivial (.publish rfl) (.nil _)
  have ha : GoodRun (Step tight noCodec) (Sound tight noCodec) modified
      [actOf (.upsertV2 128 7 (entryOf 1))] (overridden modified 128 1) :=
    .cons (.inl (by decide +kernel)) (.publish rfl) (.nil _)
  exact ⟨_, hb, rfl, ha, snapshot_unchanged tight noCodec _ hb rfl ha _⟩

/-- The override of a tenant is set anew, and the snapshot of before shows the new one. -/
theorem override_rewrites_snapshot : ∃ snap,
    GoodRun (Step tight noCodec) (fun _ _ => True) .empty [actOf (.upsertV2 1 7 (entryOf 1))]
        (overridden .empty 1 1)
      ∧ (overridden .empty 1 1).active = some snap
      ∧ Step tight noCodec (overridden .empty 1 1) (actOf (.upsertV2 1 7 (entryOf 2)))
        (overridden (overridden .empty 1 1) 1 2)
      ∧ lookup (fun _ => 0) (overridden .empty 1 1).heap snap (.v2Override 1 7)
        = .override (some (entryOf 1))
      ∧ lookup (fun _ => 0) (overridden (overridden .empty 1 1) 1 2).heap snap (.v2Override 1 7)
        = .override (some (entryOf 2)) :=
  ⟨_, .cons trivial (.publish rfl) (.nil _), rfl, .publish rfl, by decide +kernel,
    by decide +kernel⟩

end Rah.Registry.Shared
