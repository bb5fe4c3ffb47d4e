import Rah.Registry.Store
import Rah.Registry.History
import Rah.Registry.TenantIds
import Rah.Registry.TenantRows

/-!
# Writes from other instances

The key of a property is alias, kind and name put together; it is read back by searching for
the separators, kind after kind. An alias or a name may contain any of them.
-/

namespace Rah.Registry.Store

open Rah.Registry List RegistryManager

/-! ## The first occurrence -/

theorem splitAt?_cons : splitAt? sep (b :: l) = if sep <+: b :: l
    then some ([], (b :: l).drop sep.length)
    else (splitAt? sep l).map (fun p => (b :: p.1, p.2)) := by
  simp only [splitAt?, indexOf, isPrefixOf_iff_prefix]
  split
  · simp
  · cases indexOf sep l with
    | none => rfl
    | some i => simp [Nat.add_right_comm]

theorem splitAt?_eq_none : ∀ {l : Bytes}, splitAt? sep l = none ↔ ¬ sep <:+: l
  | [] => by simp [splitAt?, indexOf]
  | b :: l => by
    rw [splitAt?_cons, infix_cons_iff, not_or, ← splitAt?_eq_none]
    split <;> simp [*]

theorem splitAt?_eq_some (h : splitAt? sep l = some (p, s)) :
    l = p ++ sep ++ s ∧ ∀ p' s', l = p' ++ sep ++ s' → p.length ≤ p'.length := by
  induction l generalizing p with
  | nil =>
    simp [splitAt?, indexOf] at h
    simp [h]
  | cons b l ih =>
  rw [splitAt?_cons] at h
  split at h
  · rename_i hp
    cases h
    exact ⟨prefix_iff_eq_append.mp hp |>.symm, fun _ _ _ => Nat.zero_le _⟩
  rename_i hp
  obtain ⟨q, hq, he⟩ := Option.map_eq_some_iff.mp h
  cases he
  obtain ⟨hl, hmin⟩ := ih hq
  refine ⟨congrArg (b :: ·) hl, fun p' s' hl' => ?_⟩
  cases p' with
  | nil => exact absurd ⟨s', hl'.symm⟩ hp
  | cons c p' => exact Nat.succ_le_succ (hmin p' s' (cons.inj hl').2)

theorem splitAt?_append : splitAt? sep (a ++ sep ++ name) = some (a, name)
    ↔ ∀ p s, a ++ sep ++ name = p ++ sep ++ s → a.length ≤ p.length := by
  refine ⟨fun h => (splitAt?_eq_some h).2, fun hmin => ?_⟩
  cases h : splitAt? sep (a ++ sep ++ name) with
  | none => exact absurd ⟨a, name, rfl⟩ (splitAt?_eq_none.mp h)
  | some q =>
  obtain ⟨hl, hle⟩ := splitAt?_eq_some h
  have ha := hle _ _ rfl
  have hb := hmin _ _ hl
  rw [append_assoc, append_assoc] at hl
  obtain ⟨rfl, hs⟩ := append_inj hl (by omega)
  rw [append_cancel_left hs]

/-! ## Keys of properties -/

/-- The kinds of property that are looked for first. -/
def earlier : Namespace → List Namespace
  | .urls => []
  | .ids => [.urls]
  | .metadata => [.urls, .ids]

/-- The key of the property does not end like a key of aliases, has no separator of a kind that
is looked for first, and that of its own kind not before the end of the alias. -/
@[mk_iff]
structure ReadsBack (ns : Namespace) (a name : Bytes) : Prop where
  aliases : ¬ aliasSuffix <:+ a ++ propPrefix ns ++ name
  earlier : ∀ k ∈ earlier ns, ¬ propPrefix k <:+: a ++ propPrefix ns ++ name
  first : ∀ p s, a ++ propPrefix ns ++ name = p ++ propPrefix ns ++ s → a.length ≤ p.length

variable {ns : Namespace} {a name value : Bytes} {rm : RegistryManager}

theorem parseKey_prop : parseKey (text (.prop ns a name))
    = parseTenantKey (a ++ propPrefix ns ++ name) := by
  rw [parseKey, if_pos (by simp [text, isPrefixOf_iff_prefix])]
  simp [text]

theorem parseTenantKey_prop_iff : parseTenantKey rest = some (.prop ns a name)
    ↔ ¬ aliasSuffix <:+ rest ∧ (∀ k ∈ earlier ns, ¬ propPrefix k <:+: rest)
      ∧ splitAt? (propPrefix ns) rest = some (a, name) := by
  have ht : ∀ s, trimSuffix? s rest = none ↔ ¬ s <:+ rest := fun s => by
    simp [trimSuffix?, isSuffixOf_iff_suffix]
  cases ns <;> simp [parseTenantKey, Option.or_eq_some_iff, earlier, propPrefix, ht,
    splitAt?_eq_none, and_assoc]

theorem parseKey_prop_iff : parseKey (text (.prop ns a name)) = some (.prop ns a name)
    ↔ ReadsBack ns a name := by
  rw [parseKey_prop, parseTenantKey_prop_iff, splitAt?_append, readsBack_iff]

/-- A decoder that refuses every value. -/
def refusing : Codec := ⟨fun _ => none, fun _ => none, fun _ => none, fun _ => none⟩

/-! ## What a peer does with a key -/

/-- The manager of a peer with its mirror of the tenants' records: for a kind of property, a
tenant and a name, the value. The lists of aliases in the records are left out. -/
structure Peer where
  manager : RegistryManager
  tenantData : Namespace → Nat → Bytes → Option Bytes

def Peer.empty : Peer := { manager := .empty, tenantData := fun _ _ _ => none }

/-- The write of a property, here or for another instance: the snapshot's store, then the record
of the tenant. -/
def Peer.addProp (ns : Namespace) (p : Peer) (aliasName name value : Bytes) : Option Peer :=
  let tID := p.manager.base.tenantOf aliasName
  (p.manager.addProp ns aliasName name value).map (fun rm =>
    { manager := rm
      tenantData := fun ns' t n =>
        if ns' = ns ∧ t = tID ∧ n = name then some value else p.tenantData ns' t n })

/-- `ApplyStorePut` with the records: only the key of a property changes one of them. -/
def Peer.applyStorePut (codec : Codec) (p : Peer) (rawKey value : Bytes) : Option Peer :=
  match parseKey rawKey with
  | some (.prop ns primary key) => p.addProp ns primary key value
  | _ => (p.manager.applyStorePut codec rawKey value).map (fun rm => { p with manager := rm })

/-- The peer has set one property of the tenant the alias has, or gets if it has none, and
nothing else: every other property of every tenant is as it was, in the records and in what the
snapshot serves, and so are the other aliases, the rate limits of every tenant and the rest of
the manager. -/
structure SetsExactly (p p' : Peer) (ns : Namespace) (a name value : Bytes) : Prop where
  tenant : p'.manager.base.aliasMap
    = Function.update p.manager.base.aliasMap a (some (p.manager.base.tenantOf a))
  set : p'.tenantData ns (p.manager.base.tenantOf a) name = some value
  kept : ∀ ns' t n, ¬ (ns' = ns ∧ t = p.manager.base.tenantOf a ∧ n = name) →
    p'.tenantData ns' t n = p.tenantData ns' t n
  served : ∀ q cols, Tracked p.manager.base q cols → Fits p.manager.base (.add ns a name value) →
    ∃ cols', Tracked p'.manager.base (q.set ns (p.manager.base.tenantOf a) name value) cols'
  modifiers : ∀ t, p'.manager.rates.tenantModifiers.getD t .zero
    = p.manager.rates.tenantModifiers.getD t .zero
  limits : ∀ t, p'.manager.rates.tenantRateLimits.getD t none
    = p.manager.rates.tenantRateLimits.getD t none
  overrides : ∀ t, p'.manager.rates.tenantV2Overrides.getD t none
    = p.manager.rates.tenantV2Overrides.getD t none
  rest : p'.manager = { p.manager with base := p'.manager.base, rates := p'.manager.rates }

variable {p p' : Peer}

theorem addProp_aliasMap {s s' : Manager} (h : Registry.addProp ns s a name value = some s') :
    s'.aliasMap = Function.update s.aliasMap a (some (s.tenantOf a)) := by
  have hi := congrArg Ids.aliasMap (addProp_ids h 0)
  rw [Manager.tenantOf]
  cases ha : s.aliasMap a with
  | some t =>
    rw [Option.getD_some, ← ha, Function.update_eq_self]
    simpa [Ids.act, Manager.ids, ha] using hi
  | none =>
    have hal : ((s.ids 0).alloc).1 = s.allocTenant.1
        ∧ ((s.ids 0).alloc).2.aliasMap = s.aliasMap := by
      simp only [Ids.alloc, Manager.allocTenant, Manager.ids]
      cases s.freeSlots.getLast? <;> exact ⟨rfl, rfl⟩
    rw [Ids.act, show (s.ids 0).aliasMap a = none from ha] at hi
    dsimp only [Ids.setAlias] at hi
    rw [hal.1, hal.2] at hi
    exact hi

/-- The slices may grow for a new tenant; what they hold for a tenant stays. -/
theorem ratesFor_getD (rm : RegistryManager) (a : Bytes) (t : Nat) :
    (rm.ratesFor a).tenantModifiers.getD t .zero = rm.rates.tenantModifiers.getD t .zero
      ∧ (rm.ratesFor a).tenantRateLimits.getD t none = rm.rates.tenantRateLimits.getD t none
      ∧ (rm.ratesFor a).tenantV2Overrides.getD t none
        = rm.rates.tenantV2Overrides.getD t none := by
  rw [RegistryManager.ratesFor]
  split
  · exact ⟨rfl, rfl, rfl⟩
  · exact ⟨growSlice_getD .., growSlice_getD .., growSlice_getD ..⟩

theorem Peer.addProp_sets (h : p.addProp ns a name value = some p') :
    SetsExactly p p' ns a name value := by
  obtain ⟨rm, hrm, rfl⟩ := Option.map_eq_some_iff.mp h
  obtain ⟨base, hb, rfl⟩ := Option.map_eq_some_iff.mp hrm
  have hrates := ratesFor_getD p.manager a
  refine ⟨addProp_aliasMap hb, if_pos ⟨rfl, rfl, rfl⟩, fun _ _ _ hn => if_neg hn, ?_,
    fun t => (hrates t).1, fun t => (hrates t).2.1, fun t => (hrates t).2.2, rfl⟩
  intro q cols ht hf
  obtain ⟨s', hs, ht', -⟩ := step_add ht hf
  rw [hb] at hs
  cases hs
  exact ⟨_, ht'⟩

/-- A peer without tenants that has a property after a put has read its key as that property's. -/
theorem parseKey_of_sets {codec : Codec} {rawKey v : Bytes}
    (h : Peer.empty.applyStorePut codec rawKey v = some p)
    (hs : SetsExactly Peer.empty p ns a name value) : parseKey rawKey = some (.prop ns a name) := by
  have hset := hs.set
  rw [Peer.applyStorePut] at h
  split at h
  · rename_i ns' primary key hk
    have hs' := Peer.addProp_sets h
    have ha : Function.update Manager.empty.aliasMap a (some _)
        = Function.update Manager.empty.aliasMap primary (some _) := hs.tenant.symm.trans hs'.tenant
    have hp : a = primary := by
      by_contra hne
      have hc := congrFun ha a
      rw [Function.update_self, Function.update_of_ne hne] at hc
      cases hc
    subst hp
    by_cases hn : ns = ns' ∧ name = key
    · rw [hk, hn.1, hn.2]
    · rw [hs'.kept _ _ _ (fun hc => hn ⟨hc.1, hc.2.2⟩)] at hset
      cases hset
  · obtain ⟨rm', _, rfl⟩ := Option.map_eq_some_iff.mp h
    cases hset

end Rah.Registry.Store
