import Rah.Registry.PropMap

/-!
# Histories of the registry

An operation that fits keeps the correspondence between the registry and the map, so every
history of them does (`history_linked`). What a reader gets for a name at the end of a history
is `get_ensure_iff`: the map's value if the name was the first of its byte, and nothing else.
-/

namespace Rah.Registry

open Rah.Lib Manager Option

/-- The registry a manager works on corresponds to the map. -/
structure Tracked (s : Manager) (p : Props) (cols : Namespace → List Bytes) : Prop where
  tracks : Tracks s.activeOrEmpty cols p
  fresh : s.freeSlots = []
  next : s.nextAvailableTenantID ≤ 65408
  aliases : ∀ a t, s.aliasMap a = some t → t < s.activeOrEmpty.maxTenants

theorem tracked_empty : Tracked empty Props.empty (fun _ => []) := by
  refine ⟨⟨?_, by decide, ?_, ?_, fun _ _ => rfl, ?_⟩, rfl, by decide, ?_⟩
  · intro ns
    exact storeInv_empty _ _
  · intro h
    exact absurd rfl h
  · intro ns t k i hi
    exact absurd hi (by simp [column, leader])
  · intro ns t k hne
    exact absurd rfl hne
  · intro a t h
    exact absurd h (by simp [empty])

/-! ## Tenants -/

section Tenants

variable {s : Manager} {p : Props} {cols : Namespace → List Bytes}

/-- **Finding or creating a tenant.** The snapshot has a row for it, and nothing that is stored
changes; its alias leads to it from now on. -/
theorem resolveOrCreateTenant_spec (h : Tracked s p cols)
    (hr : s.aliasMap aliasName = none → s.nextAvailableTenantID < 65408) :
    ∃ s' reg', resolveOrCreateTenant s s.activeOrEmpty aliasName
        = some (s.tenantOf aliasName, s', reg')
      ∧ Tracks reg' cols p ∧ s.tenantOf aliasName < reg'.maxTenants
      ∧ reg'.valuePool = s.activeOrEmpty.valuePool
      ∧ s'.freeSlots = [] ∧ s'.nextAvailableTenantID ≤ 65408
      ∧ s'.aliasMap aliasName = some (s.tenantOf aliasName)
      ∧ ∀ a t, s'.aliasMap a = some t → t < reg'.maxTenants := by
  rw [tenantOf]
  cases hal : s.aliasMap aliasName with
  | some t =>
    rw [resolveOrCreateTenant, hal]
    exact ⟨s, _, rfl, h.tracks, h.aliases _ _ hal, rfl, h.fresh, h.next, hal, h.aliases⟩
  | none =>
  have hn := hr hal
  have hac : s.allocTenant = (s.nextAvailableTenantID,
      { s with nextAvailableTenantID := s.nextAvailableTenantID + 1 }) := by
    rw [allocTenant, h.fresh]
    dsimp only [List.getLast?_nil]
    rw [uint16, Nat.mod_eq_of_lt (by omega), uint32, Nat.mod_eq_of_lt (by omega)]
  rw [resolveOrCreateTenant_create hal, hac]
  obtain ⟨reg', hg, htr, ht, hle, hp, _⟩ := growFor_spec h.tracks hn
  rw [hg]
  refine ⟨_, reg', rfl, htr, ht, hp, h.fresh, hn, if_pos rfl, ?_⟩
  intro a t ha
  rw [setAlias] at ha
  dsimp only at ha
  split at ha
  · cases ha
    exact ht
  · exact Nat.lt_of_lt_of_le (h.aliases a t ha) hle

/-- A map of properties is set, one after another. -/
theorem setProps_spec (h : Tracks reg cols p) (ns : Namespace) (ht : tID < reg.maxTenants)
    (hp : ∀ kv ∈ props, Name kv.1 ∧ kv.2 ≠ []) (hf : (cols ns).length + props.length < 65536)
    (hr : max reg.valuePool.length 1 + props.length < 4294967296) :
    ∃ reg' cols', setProps ns tID props reg = some reg'
      ∧ Tracks reg' cols' (p.setAll ns tID props) ∧ reg'.maxTenants = reg.maxTenants
      ∧ (∀ ns', (cols' ns').length ≤ (cols ns').length + if ns' = ns then props.length else 0)
      ∧ max reg'.valuePool.length 1 ≤ max reg.valuePool.length 1 + props.length := by
  induction props generalizing reg cols p with
  | nil =>
    refine ⟨reg, cols, rfl, h, rfl, ?_, Nat.le_refl _⟩
    intro ns'
    omega
  | cons kv props ih =>
  rw [List.length_cons] at hf hr
  obtain ⟨hn, hv⟩ := hp kv (by simp)
  obtain ⟨reg1, hset, h₁, hm1, hl1⟩ :=
    setProp_set h hn hv ht (show (cols ns).length + 1 < 65536 by omega) (by omega)
  have hc := addCol_length_le cols ns kv.1
  have hs := hc ns
  rw [if_pos rfl] at hs
  obtain ⟨reg2, cols2, hst, h₂, hm2, hc2, hl2⟩ := ih h₁ (by omega)
    (fun kv' hkv' => hp kv' (by simp [hkv'])) (by omega) (by omega)
  refine ⟨reg2, cols2, ?_, h₂, hm2.trans hm1, ?_, by rw [List.length_cons]; omega⟩
  · rw [setProps, List.foldlM_cons, hset]
    exact hst
  intro ns'
  have h1 := hc2 ns'
  have h2 := hc ns'
  rw [List.length_cons]
  by_cases hns : ns' = ns
  · rw [if_pos hns] at h1 h2 ⊢
    omega
  · rw [if_neg hns] at h1 h2 ⊢
    omega

end Tenants

/-! ## Operations -/

/-- The names and values of an operation are such as the stores take. -/
def Op.WellFormed : Op → Prop
  | .add _ _ name value => Name name ∧ value ≠ []
  | .delete _ _ name => Name name
  | .upsert _ urls ids metadata =>
    (∀ kv ∈ urls, Name kv.1 ∧ kv.2 ≠ []) ∧ (∀ kv ∈ ids, Name kv.1 ∧ kv.2 ≠ [])
      ∧ ∀ kv ∈ metadata, Name kv.1 ∧ kv.2 ≠ []
  | .ensure _ key => Name key

/-- The alias of the tenant it may create. -/
def Op.tenant? : Op → Option Bytes
  | .add _ aliasName _ _ => some aliasName
  | .upsert aliases _ _ _ => aliases.head?
  | _ => none

/-- The most columns it can add to a store. -/
def Op.columns : Op → Namespace → Nat
  | .add ns _ _ _, ns' => if ns' = ns then 1 else 0
  | .delete _ _ _, _ => 0
  | .upsert _ urls _ _, .urls => urls.length
  | .upsert _ _ ids _, .ids => ids.length
  | .upsert _ _ _ metadata, .metadata => metadata.length
  | .ensure ns _, ns' => if ns' = ns then 1 else 0

/-- The most values it can add to the pool. -/
def Op.values : Op → Nat
  | .add _ _ _ _ => 1
  | .upsert _ urls ids metadata => urls.length + ids.length + metadata.length
  | _ => 0

/-- The operation is well formed, and there is room for what it may add: tenant ids below
65408, columns that 16 bits number and values that 32 bits number. -/
structure Fits (s : Manager) (op : Op) : Prop where
  wellFormed : op.WellFormed
  tenants : ∀ a, op.tenant? = some a → s.aliasMap a = none → s.nextAvailableTenantID < 65408
  columns : ∀ ns, (s.activeOrEmpty.store ns).stride + op.columns ns < 65536
  values : max s.activeOrEmpty.valuePool.length 1 + op.values < 4294967296

section Step

variable {s : Manager} {p : Props} {cols : Namespace → List Bytes}

theorem Tracked.cols_lt (h : Tracked s p cols) (hf : Fits s op) (ns : Namespace) :
    (cols ns).length + op.columns ns < 65536 := by
  have hc := hf.columns ns
  rw [(h.tracks.stores ns).keyed.stride] at hc
  exact hc

variable {ns : Namespace} {aliasName name : Bytes}

theorem step_add (h : Tracked s p cols) (hft : Fits s (.add ns aliasName name value)) :
    ∃ s', addProp ns s aliasName name value = some s'
      ∧ Tracked s' (p.set ns (s.tenantOf aliasName) name value) (addCol cols ns name)
      ∧ s'.aliasMap aliasName = some (s.tenantOf aliasName)
      ∧ s'.activeOrEmpty.valuePool.length ≤ max s.activeOrEmpty.valuePool.length 1 + 1 := by
  obtain ⟨hn, hvl⟩ := hft.wellFormed
  have hc := h.cols_lt hft ns
  have hv := hft.values
  dsimp only [Op.columns, Op.values] at hc hv
  rw [if_pos rfl] at hc
  obtain ⟨s1, reg1, hr, h₁, ht, hp, hf, hnx, hown, hal⟩ :=
    resolveOrCreateTenant_spec h (hft.tenants aliasName rfl)
  obtain ⟨reg2, hs, h₂, hm, hpool⟩ := setProp_set h₁ hn hvl ht hc (by rw [hp]; omega)
  refine ⟨{ s1 with active := some reg2 }, ?_, ⟨h₂, hf, hnx, ?_⟩, hown, hp ▸ hpool⟩
  · rw [addProp, hr]
    dsimp only
    rw [hs]
    rfl
  · intro a t ha
    show t < reg2.maxTenants
    rw [hm]
    exact hal a t ha

theorem step_delete (h : Tracked s p cols) (hf : Fits s (.delete ns aliasName name)) :
    ∃ s' cols', deleteProp ns s aliasName name = some s'
      ∧ Tracked s' (p.apply s (.delete ns aliasName name)) cols' := by
  have hn : Name name := hf.wellFormed
  unfold deleteProp
  cases ha : s.aliasMap aliasName with
  | none =>
    have hap : p.apply s (.delete ns aliasName name) = p := by
      simp only [Props.apply, ha]
    rw [hap]
    exact ⟨s, cols, rfl, h⟩
  | some t =>
  have hap : p.apply s (.delete ns aliasName name) = p.erase ns t name := by
    simp only [Props.apply, ha]
  have ht := h.aliases aliasName t ha
  dsimp only
  rw [hap]
  rw [(h.tracks.stores ns).keyed.findKeyID_eq hn.nonempty]
  cases hc : column (cols ns) name with
  | none => exact ⟨s, cols, rfl, h.tracks.erase_missing hc, h.fresh, h.next, h.aliases⟩
  | some k =>
  obtain ⟨hin, htr, _⟩ := deleteCell_spec h.tracks ht hc
  dsimp only
  rw [if_pos hin]
  exact ⟨_, cols, rfl, htr, h.fresh, h.next, h.aliases⟩

theorem step_ensure (h : Tracked s p cols) (hf : Fits s (.ensure ns key)) :
    ∃ k reg, ensureKeyID ns s key = some (k, { s with active := some reg })
      ∧ Tracked { s with active := some reg } (p.touch ns key) (addCol cols ns key)
      ∧ (addCol cols ns key ns)[k]? = some key
      ∧ (column (cols ns) key = none → ∀ t, cellOf (reg.store ns) t k = 0)
      ∧ (∀ i, column (cols ns) key = some i → i = k) := by
  have hc := h.cols_lt hf ns
  dsimp only [Op.columns] at hc
  rw [if_pos rfl] at hc
  obtain ⟨reg, k, hr, ht, hm, _, hk, _, hn, ho, _⟩ := resolve_spec h.tracks hf.wellFormed hc
  refine ⟨k, reg, ?_, ⟨ht, h.fresh, h.next, ?_⟩, hk, hn, ho⟩
  · rw [ensureKeyID, hr]
    rfl
  intro a t ha
  show t < reg.maxTenants
  rw [hm]
  exact h.aliases a t ha

/-- Further aliases of a tenant. -/
theorem setAliases_spec (ht : t < rows) (more : List Bytes)
    (hal : ∀ a t, s.aliasMap a = some t → t < rows) :
    ∃ s', more.foldl (fun s a => s.setAlias a t) s = s'
      ∧ (∀ a t, s'.aliasMap a = some t → t < rows) ∧ s'.freeSlots = s.freeSlots
      ∧ s'.nextAvailableTenantID = s.nextAvailableTenantID := by
  induction more generalizing s with
  | nil => exact ⟨s, rfl, hal, rfl, rfl⟩
  | cons a more ih =>
  have hs : ∀ a' t', (s.setAlias a t).aliasMap a' = some t' → t' < rows := by
    intro a' t' ha
    dsimp only [setAlias] at ha
    split at ha
    · have := some.inj ha
      omega
    · exact hal a' t' ha
  exact ih hs

theorem step_upsert (h : Tracked s p cols)
    (hft : Fits s (.upsert (aliasName :: more) urls ids metadata)) :
    ∃ s' cols', upsertTenantState s (aliasName :: more) urls ids metadata = some s'
      ∧ Tracked s' (p.apply s (.upsert (aliasName :: more) urls ids metadata)) cols' := by
  obtain ⟨hu, hi, hm⟩ := hft.wellFormed
  have hc := h.cols_lt hft .urls
  have hci := h.cols_lt hft .ids
  have hcm := h.cols_lt hft .metadata
  have hv := hft.values
  dsimp only [Op.columns, Op.values] at hc hci hcm hv
  obtain ⟨s1, reg1, hr, h₁, ht, hp, hf, hn, -, hal⟩ :=
    resolveOrCreateTenant_spec h (hft.tenants aliasName rfl)
  obtain ⟨reg2, cols2, hs, h₂, hm2, hl2, hp2⟩ := setProps_spec h₁ .urls ht hu hc (by rw [hp]; omega)
  have hI := hl2 .ids
  have hM := hl2 .metadata
  rw [if_neg (by decide)] at hI hM
  obtain ⟨reg3, cols3, hsi, h₃, hm3, hl3, hp3⟩ := setProps_spec h₂ .ids
    (by rw [hm2]; exact ht) hi (by omega) (by rw [hp] at hp2; omega)
  have hM' := hl3 .metadata
  rw [if_neg (by decide)] at hM'
  obtain ⟨reg4, cols4, hsm, h₄, hm4, _, _⟩ := setProps_spec h₃ .metadata
    (by rw [hm3, hm2]; exact ht) hm (by omega) (by rw [hp] at hp2; omega)
  have hmx : reg4.maxTenants = reg1.maxTenants := hm4.trans (hm3.trans hm2)
  obtain ⟨s2, hs2, ha2, hf2, hn2⟩ := setAliases_spec ht more hal
  have htr : Tracked { s2 with active := some reg4 } _ cols4 :=
    ⟨h₄, hf2.trans hf, Nat.le_trans (Nat.le_of_eq hn2) hn, fun a t ha => by
      show t < reg4.maxTenants
      rw [hmx]
      exact ha2 a t ha⟩
  refine ⟨_, cols4, ?_, htr⟩
  unfold upsertTenantState
  dsimp only
  rw [hr]
  dsimp only
  rw [hs2, hs]
  dsimp only
  rw [hsi]
  dsimp only
  rw [hsm]
  rfl

/-- **An operation that fits succeeds, and does what it means for the map.** -/
theorem step_tracked (h : Tracked s p cols) (hf : Fits s op) :
    ∃ s' cols', step s op = some s' ∧ Tracked s' (p.apply s op) cols' := by
  cases op with
  | add ns aliasName name value =>
    obtain ⟨s', hs, ht, -⟩ := step_add h hf
    exact ⟨s', _, hs, ht⟩
  | delete ns aliasName name => exact step_delete h hf
  | upsert aliases urls ids metadata =>
    cases aliases with
    | nil => exact ⟨s, cols, rfl, h⟩
    | cons aliasName more => exact step_upsert h hf
  | ensure ns key =>
  obtain ⟨k, reg, he, ht, _⟩ := step_ensure h hf
  refine ⟨_, _, ?_, ht⟩
  rw [step, he]
  rfl

end Step

/-! ## Reads -/

/-- No other name with the same first byte was used before this one. -/
def Leads (names : List Bytes) (key : Bytes) : Prop :=
  ∀ c, firstLike names key = some c → c = key

/-- An operation on the registry, and what it means for the map. -/
def act (sp : Manager × Props) (op : Op) : Option (Manager × Props) :=
  (step sp.1 op).map (fun s => (s, sp.2.apply sp.1 op))

/-- A history of operations that fit, from the empty registry and the empty map. -/
def History (ops : List Op) (s : Manager) (p : Props) : Prop :=
  GoodRun (fun sp op sp' => act sp op = some sp') (fun sp op => Fits sp.1 op)
    (empty, Props.empty) ops (s, p)

/-- The registry corresponds to the map. -/
def Linked (sp : Manager × Props) : Prop := ∃ cols, Tracked sp.1 sp.2 cols

theorem linked_step (h : Linked sp) (hf : Fits sp.1 op) (ha : act sp op = some sp') :
    Linked sp' := by
  obtain ⟨cols, h⟩ := h
  obtain ⟨s', cols', hs', ht⟩ := step_tracked h hf
  rw [act, hs', map_some, some.injEq] at ha
  rw [← ha]
  exact ⟨cols', ht⟩

/-- **Every history keeps the correspondence.** -/
theorem history_linked (h : History ops s p) : Linked (s, p) := by
  refine GoodRun.invariant ?_ (show GoodRun _ _ _ _ _ from h) ⟨_, tracked_empty⟩
  intro sp sp' op hi hf ha
  exact linked_step hi hf ha

/-- What a read of a column gives. -/
theorem getByKeyID_eq {s : Manager} {p : Props} {cols : Namespace → List Bytes}
    (h : Tracked { s with active := some reg } p cols) (ht : t < 65536)
    (hk : k < (cols ns).length) :
    getByKeyID ns { s with active := some reg } t k
      = valueOf reg.valuePool (cellOf (reg.store ns) t k) := by
  have hs : StoreInv (reg.store ns) reg.maxTenants (cols ns) reg.valuePool.length :=
    h.tracks.stores ns
  have hst : ¬ (reg.store ns).stride = 0 := by
    rw [hs.keyed.stride]
    omega
  unfold getByKeyID getPropByKeyID cellOf
  dsimp only
  rw [if_neg hst, hs.idx_eq ht hk]
  cases hg : (reg.store ns).matrix[t * (reg.store ns).stride + k]? with
  | none => simp [valueOf]
  | some v =>
    have hlt := (List.getElem?_eq_some_iff.mp hg).1
    rw [if_neg (by omega)]
    rfl

/-- **What is read for a name.** The key of a name that has a column is that column, and what is
read there is what the map has; any other name gets a new column, in which there is nothing. -/
theorem getByKeyID_ensure {s : Manager} {p : Props} {cols : Namespace → List Bytes}
    (h : Tracked s p cols) (hf : Fits s (.ensure ns key)) (ht : t < 65536) :
    ∃ k s', ensureKeyID ns s key = some (k, s') ∧ getByKeyID ns s' t k
      = if column (cols ns) key = none then none else p.value ns t key := by
  obtain ⟨k, reg, he, htr, hk, hnew, hown⟩ := step_ensure h hf
  have hkl := (List.getElem?_eq_some_iff.mp hk).1
  refine ⟨k, _, he, ?_⟩
  rw [getByKeyID_eq htr ht hkl]
  cases hcl : column (cols ns) key with
  | some i =>
    obtain rfl := hown i hcl
    have hs : addCol cols ns key ns = cols ns :=
      if_neg (fun hc => by rw [hcl] at hc; exact absurd hc.2 (by simp))
    rw [if_neg (by simp)]
    exact htr.tracks.values ns t key i (by rw [hs]; exact hcl)
  | none =>
    rw [if_pos rfl, hnew hcl t]
    exact if_pos (.inl rfl)

/-- **The stores against the map.** After any history every operation that fits succeeds, and
looking a name up gives what the map has for it exactly when no other name with its first byte
was used before it, or the map has nothing. -/
theorem get_ensure_iff {ops : List Op} {s : Manager} {p : Props} (h : History ops s p) :
    (∀ op, Fits s op → ∃ s', step s op = some s')
      ∧ ∀ ns key, Fits s (.ensure ns key) → ∀ t < 65536,
        ∃ k s', ensureKeyID ns s key = some (k, s')
          ∧ (getByKeyID ns s' t k = p.value ns t key
            ↔ Leads (p.names ns) key ∨ p.value ns t key = none) := by
  obtain ⟨cols, htr⟩ := history_linked h
  refine ⟨?_, ?_⟩
  · intro op hf
    obtain ⟨s', _, hs', _⟩ := step_tracked htr hf
    exact ⟨s', hs'⟩
  intro ns key hf t ht
  obtain ⟨k, s', he, hg⟩ := getByKeyID_ensure htr hf ht
  have hnm := htr.tracks.names ns key
  refine ⟨k, s', he, ?_⟩
  rw [hg]
  split
  · next hcl =>
    refine ⟨fun heq => .inr heq.symm, ?_⟩
    intro hor
    rcases hor with hl | hn
    · by_contra hne
      -- a value was stored, so the name was used, and something leads its byte
      have hm := htr.tracks.seen ns t key (fun hv => hne hv.symm)
      obtain ⟨c, hc⟩ := ne_none_iff_exists'.mp (firstLike_of_mem hm)
      have hck := hl c hc
      rw [hck, ← hnm] at hc
      exact (column_eq_none_iff _ _).mp hcl hc
    · exact hn.symm
  · next hcl =>
    -- the name is the first of its byte
    have hfr : firstLike (cols ns) key = some key := by
      by_contra hn
      exact hcl ((column_eq_none_iff _ _).mpr hn)
    refine iff_of_true rfl (.inl fun c hc => ?_)
    rw [← hnm, hfr] at hc
    exact (some.inj hc).symm

/-- Two identifiers of one tenant, under one name each. -/
def adds (name₁ value₁ name₂ value₂ : Bytes) : List Op :=
  [.add .ids [97] name₁ value₁, .add .ids [97] name₂ value₂]

/-- The columns after them. -/
def colsOf (name₁ name₂ : Bytes) : Namespace → List Bytes :=
  addCol (addCol (fun _ => []) .ids name₁) .ids name₂

/-- The map after them. -/
def propsOf (name₁ value₁ name₂ value₂ : Bytes) : Props :=
  (Props.empty.set .ids 1 name₁ value₁).set .ids 1 name₂ value₂

theorem fits_add {s : Manager} {p : Props} {cols : Namespace → List Bytes} (h : Tracked s p cols)
    (hn : Name name) (hv : value ≠ []) (ht : s.nextAvailableTenantID < 65408 ∨ s.aliasMap a ≠ none)
    (hc : ∀ ns, (cols ns).length ≤ 1) (hp : s.activeOrEmpty.valuePool.length ≤ 2) :
    Fits s (.add .ids a name value) := by
  refine ⟨⟨hn, hv⟩, fun _ ha hnone => ?_, fun ns => ?_, ?_⟩
  · cases ha
    exact ht.resolve_right (fun hne => hne hnone)
  · have hlt := hc ns
    rw [(h.tracks.stores ns).keyed.stride]
    simp only [Op.columns]
    split <;> omega
  · simp only [Op.values]
    omega

/-- They are a history, and afterwards there is room for more names. -/
theorem adds_history (hn₁ : Name name₁) (hv₁ : value₁ ≠ []) (hn₂ : Name name₂) (hv₂ : value₂ ≠ []) :
    ∃ s, History (adds name₁ value₁ name₂ value₂) s (propsOf name₁ value₁ name₂ value₂)
      ∧ (adds name₁ value₁ name₂ value₂).foldlM act (empty, Props.empty)
        = some (s, propsOf name₁ value₁ name₂ value₂)
      ∧ Tracked s (propsOf name₁ value₁ name₂ value₂) (colsOf name₁ name₂)
      ∧ ∀ key, Name key → Fits s (.ensure .ids key) := by
  have hf₁ : Fits empty (.add .ids [97] name₁ value₁) :=
    fits_add tracked_empty hn₁ hv₁ (.inl (by decide)) (fun _ => Nat.zero_le 1) (Nat.zero_le 2)
  obtain ⟨s₁, hs₁, htr₁, hal, hpool₁⟩ := step_add tracked_empty hf₁
  have hlen : ∀ cols name ns, (addCol cols .ids name ns).length ≤ (cols ns).length + 1 := by
    intro cols name ns
    have h := addCol_length_le cols .ids name ns
    split at h <;> omega
  have hf₂ : Fits s₁ (.add .ids [97] name₂ value₂) :=
    fits_add htr₁ hn₂ hv₂ (.inr (by rw [hal]; simp)) (hlen _ name₁) hpool₁
  obtain ⟨s₂, hs₂, htr₂, -, hpool₂⟩ := step_add htr₁ hf₂
  have ht : s₁.tenantOf [97] = 1 := by
    rw [tenantOf, hal]
    rfl
  rw [ht] at htr₂
  have ha₁ : act (empty, Props.empty) (.add .ids [97] name₁ value₁)
      = some (s₁, Props.empty.set .ids 1 name₁ value₁) :=
    map_eq_some_iff.mpr ⟨s₁, hs₁, rfl⟩
  have ha₂ : act (s₁, Props.empty.set .ids 1 name₁ value₁) (.add .ids [97] name₂ value₂)
      = some (s₂, propsOf name₁ value₁ name₂ value₂) :=
    map_eq_some_iff.mpr ⟨s₂, hs₂, by rw [Props.apply, ht]; rfl⟩
  refine ⟨s₂, .cons hf₁ ha₁ (.cons hf₂ ha₂ (.nil _)), ?_, htr₂, fun key hk => ?_⟩
  · rw [adds, List.foldlM_cons, ha₁]
    exact (congrArg (· >>= _) ha₂).trans rfl
  refine ⟨hk, fun _ h => absurd h (by simp [Op.tenant?]), fun ns => ?_, ?_⟩
  · have h₁ := hlen (fun _ => []) name₁ ns
    have h₂ := hlen (addCol (fun _ => []) .ids name₁) name₂ ns
    rw [List.length_nil] at h₁
    rw [(htr₂.tracks.stores ns).keyed.stride]
    simp only [Op.columns]
    split <;> omega
  · simp only [Op.values]
    have hz : empty.activeOrEmpty.valuePool.length = 0 := rfl
    omega

/-- Two names with different first bytes: both are read back, each under its own name. -/
theorem read_two_names : ∃ s p, History (adds [107] [49] [113] [50]) s p
    ∧ ∀ kv ∈ [([107], [49]), ([113], [50])], ∃ k s', ensureKeyID .ids s kv.1 = some (k, s')
      ∧ getByKeyID .ids s' 1 k = some kv.2 := by
  have hk : Name [107] := ⟨by simp, by decide⟩
  have hq : Name [113] := ⟨by simp, by decide⟩
  obtain ⟨s, hr, -, -, hfits⟩ := adds_history hk (List.cons_ne_nil 49 []) hq
    (List.cons_ne_nil 50 [])
  have hread : ∀ key value, Name key →
      (propsOf [107] [49] [113] [50]).value .ids 1 key = some value →
      firstLike ((propsOf [107] [49] [113] [50]).names .ids) key = some key →
      ∃ k s', ensureKeyID .ids s key = some (k, s') ∧ getByKeyID .ids s' 1 k = some value := by
    intro key value hn hv hl
    obtain ⟨k, s', he, hi⟩ := (get_ensure_iff hr).2 .ids key (hfits key hn) 1 (by decide)
    refine ⟨k, s', he, (hi.mpr (.inl fun c hc => ?_)).trans hv⟩
    exact (some.inj (hl.symm.trans hc)).symm
  refine ⟨s, _, hr, ?_⟩
  simp only [List.mem_cons, List.not_mem_nil, or_false, forall_eq_or_imp, forall_eq]
  exact ⟨hread _ _ hk rfl (by decide), hread _ _ hq rfl (by decide)⟩

/-- Two identifiers of one tenant, under the names `ka` and `kb`: the second cannot be read. -/
theorem second_name_unreadable : (do
      let sp ← [Op.add .ids [97] [107, 97] [49], Op.add .ids [97] [107, 98] [50]].foldlM act
        (empty, Props.empty)
      let r ← ensureKeyID .ids sp.1 [107, 98]
      pure (getByKeyID .ids r.2 1 r.1, sp.2.value .ids 1 [107, 98]))
      = some (none, some [50]) := by
  have hb : Name [107, 98] := ⟨by simp, by decide⟩
  obtain ⟨s, -, ha, htr, hfits⟩ := adds_history (show Name [107, 97] from ⟨by simp, by decide⟩)
    (List.cons_ne_nil 49 []) hb (List.cons_ne_nil 50 [])
  obtain ⟨k, s', he, hg⟩ := getByKeyID_ensure htr (hfits _ hb) (show 1 < 65536 by decide)
  rw [if_pos (show column (colsOf [107, 97] [107, 98] .ids) [107, 98] = none by decide)] at hg
  rw [adds] at ha
  simp only [ha, he, hg, bind_some, Option.bind_eq_bind, Option.pure_def]
  rfl

end Rah.Registry
