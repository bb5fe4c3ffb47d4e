import Mathlib.Data.List.AList
import Mathlib.Data.List.Induction
import Rah.Lib.Overlay
import Rah.Lib.Run
import Rah.Datastore.Scoped

/-!
# Batches of writes

The dispatch goroutine of `WriteBatcher` takes a batch of requests out of its inbox, groups the
puts and the deletes by tenant, and then executes all puts, in the order of its maps, before all
deletes. A put that follows a delete of the same key in one batch is undone by it (`Clobbers`).

The inner store is a map from tenant and key to a value. What a value is does not matter here;
it is the bytes of the request, or the slice that has them.
-/

namespace Rah.Datastore

open Rah.Lib List Option AList

variable {V : Type}

/-- `putReq`: a put or a delete. -/
structure PutReq (V : Type) where
  tenant : Text
  key : Text
  value : V
  isDelete : Bool := false
  deriving DecidableEq, Repr

/-- The content of the inner store. -/
abbrev Content (V : Type) := Text × Text → Option V

/-- What a request is about. -/
def PutReq.on (req : PutReq V) : Text × Text := (req.tenant, req.key)

/-- What the request does to the store by itself. -/
def PutReq.write (req : PutReq V) : Text × Text → Option (Option V) := fun tk =>
  if tk = req.on then some (if req.isDelete then none else some req.value) else none

/-- An operation of the inner store. -/
inductive InnerOp (V : Type) where
  | multiPut (tenant : Text) (kvs : AList (fun _ : Text => V))
  | put (tenant key : Text) (value : V)
  | delete (tenant key : Text)

/-- What a call to the store writes at a key: a value, a deletion or nothing. -/
def InnerOp.write : InnerOp V → Text × Text → Option (Option V)
  | .multiPut tenant kvs => fun tk => if tk.1 = tenant then (kvs.lookup tk.2).map some else none
  | .put tenant key value => fun tk => if tk = (tenant, key) then some (some value) else none
  | .delete tenant key => fun tk => if tk = (tenant, key) then some none else none

/-! ## Grouping -/

/-- `putsByTenant` and `deletesByTenant`. -/
structure Groups (V : Type) where
  puts : AList (fun _ : Text => AList (fun _ : Text => V))
  deletes : AList (fun _ : Text => List Text)

/-- The puts of a tenant. -/
def Groups.putsOf (g : Groups V) (tenant : Text) : AList (fun _ : Text => V) :=
  (g.puts.lookup tenant).getD ∅

/-- The deletes of a tenant. -/
def Groups.deletesOf (g : Groups V) (tenant : Text) : List Text := (g.deletes.lookup tenant).getD []

/-- A request sorted in; a later put replaces an earlier one. -/
def Groups.add (g : Groups V) (req : PutReq V) : Groups V :=
  if req.isDelete then
    { g with deletes := g.deletes.insert req.tenant (g.deletesOf req.tenant ++ [req.key]) }
  else
    { g with puts := g.puts.insert req.tenant ((g.putsOf req.tenant).insert req.key req.value) }

/-- The batch, sorted by tenant. -/
def group (batch : List (PutReq V)) : Groups V := batch.foldl Groups.add ⟨∅, ∅⟩

/-- The orders in which the maps of a batch are walked. -/
structure Walk (g : Groups V) where
  tenants : List Text
  keys : Text → List Text
  deletes : List Text
  tenants_perm : tenants.Perm g.puts.keys
  keys_perm : ∀ tenant, (keys tenant).Perm (g.putsOf tenant).keys
  deletes_perm : deletes.Perm g.deletes.keys

/-- The puts of one tenant: one `MultiPut` if the inner store has it. -/
def putOps (multi : Bool) (tenant : Text) (kvs : AList (fun _ : Text => V))
    (keys : List Text) : List (InnerOp V) :=
  if multi then [.multiPut tenant kvs]
  else keys.filterMap fun key => (kvs.lookup key).map (.put tenant key)

/-- What is executed for a batch. -/
def innerOps (multi : Bool) (g : Groups V) (w : Walk g) : List (InnerOp V) :=
  w.tenants.flatMap (fun tenant => putOps multi tenant (g.putsOf tenant) (w.keys tenant))
    ++ w.deletes.flatMap fun tenant => (g.deletesOf tenant).map (.delete tenant)

/-- A batch, and how its maps are walked. -/
structure Batch (V : Type) where
  requests : List (PutReq V)
  walk : Walk (group requests)

/-- The calls a batch makes. -/
def Batch.ops (multi : Bool) (b : Batch V) : List (InnerOp V) :=
  innerOps multi (group b.requests) b.walk

/-- The store after the batch. -/
def Batch.execute (multi : Bool) (c : Content V) (b : Batch V) : Content V :=
  ((b.ops multi).map InnerOp.write).foldl overlay c

/-! ## What a batch writes -/

section Group

variable {g : Groups V} {tk : Text × Text}

/-- The value the batch puts at a key. -/
def Groups.putAt (g : Groups V) (tk : Text × Text) : Option V := (g.putsOf tk.1).lookup tk.2

theorem putsOf_insert : Groups.putsOf { g with puts := g.puts.insert tenant kvs } t
      = if t = tenant then kvs else g.putsOf t := by
  unfold Groups.putsOf
  split
  · rename_i ht
    rw [ht, lookup_insert]
    rfl
  · rename_i ht
    rw [lookup_insert_ne ht]

theorem putAt_add : (g.add req).putAt tk
      = if req.isDelete = false ∧ tk = req.on then some req.value else g.putAt tk := by
  obtain ⟨t, k⟩ := tk
  unfold Groups.add
  cases req.isDelete with
  | true => rfl
  | false =>
  unfold Groups.putAt
  rw [if_neg Bool.false_ne_true]
  rw [putsOf_insert]
  by_cases ht : t = req.tenant
  · subst ht
    rw [if_pos rfl]
    by_cases hk : k = req.key
    · subst hk
      rw [lookup_insert, if_pos ⟨rfl, rfl⟩]
    · rw [lookup_insert_ne hk, if_neg]
      rintro ⟨-, h⟩
      exact hk (congrArg Prod.snd h)
  · rw [if_neg ht, if_neg]
    rintro ⟨-, h⟩
    exact ht (congrArg Prod.fst h)

theorem mem_deletesOf_add : tk.2 ∈ (g.add req).deletesOf tk.1
      ↔ tk.2 ∈ g.deletesOf tk.1 ∨ (req.isDelete = true ∧ tk = req.on) := by
  obtain ⟨t, k⟩ := tk
  unfold Groups.add
  cases req.isDelete with
  | false => simp [Groups.deletesOf]
  | true =>
  by_cases ht : t = req.tenant
  · subst ht
    simp [Groups.deletesOf, lookup_insert, PutReq.on]
  · simp [Groups.deletesOf, lookup_insert_ne ht, PutReq.on, ht]

theorem group_concat : group (batch ++ [req]) = (group batch).add req := by
  unfold group
  rw [foldl_append]
  rfl

/-- A delete of the key is among the requests. -/
def Deletes (batch : List (PutReq V)) (tk : Text × Text) : Prop :=
  ∃ req ∈ batch, req.isDelete = true ∧ req.on = tk

theorem mem_deletesOf_group (batch : List (PutReq V)) :
    tk.2 ∈ (group batch).deletesOf tk.1 ↔ Deletes batch tk := by
  rw [group, foldl_iff (f := Groups.add) (P := (tk.2 ∈ Groups.deletesOf · tk.1)) fun _ _ =>
    mem_deletesOf_add]
  simp [Groups.deletesOf, Deletes, eq_comm (a := tk)]

/-- Without a delete of the key, the puts of the batch put there what the last request does. -/
theorem putAt_group (h : ¬ Deletes batch tk) :
    ((group batch).putAt tk).map some = lastWrite (batch.map PutReq.write) tk := by
  induction batch using reverseRecOn with
  | nil => rfl
  | append_singleton batch req ih =>
  have hb : ¬ Deletes batch tk := fun ⟨r, hr, hd⟩ =>
    h ⟨r, mem_append_left _ hr, hd⟩
  have hs : ¬ (req.isDelete = true ∧ req.on = tk) := fun hd =>
    h ⟨req, mem_append_right _ mem_cons_self, hd⟩
  rw [group_concat, putAt_add, map_append, lastWrite_append, ← ih hb]
  have hl : lastWrite ([req].map PutReq.write) tk = req.write tk := by
    rw [map_singleton, lastWrite_cons]
    rfl
  rw [hl]
  unfold PutReq.write
  by_cases hon : tk = req.on
  · have hp : req.isDelete = false := by
      cases hd : req.isDelete with
      | false => rfl
      | true => exact absurd ⟨hd, hon.symm⟩ hs
    rw [if_pos ⟨hp, hon⟩, if_pos hon, hp]
    rfl
  · rw [if_neg (fun hbt => hon hbt.2), if_neg hon]
    rfl

end Group

section Executed

variable {g : Groups V} {w : Walk g} {multi : Bool} {tk : Text × Text}

theorem mem_putOps {tenant : Text} {kvs : AList (fun _ : Text => V)} {keys : List Text}
    (h : op ∈ putOps multi tenant kvs keys) (hx : op.write tk = some x) :
    tk.1 = tenant ∧ (kvs.lookup tk.2).map some = some x := by
  unfold putOps at h
  cases multi with
  | true =>
    rw [if_pos rfl, mem_singleton] at h
    subst h
    unfold InnerOp.write at hx
    dsimp only at hx
    split at hx
    · rename_i ht
      exact ⟨ht, hx⟩
    · cases hx
  | false =>
    obtain ⟨key, -, hop⟩ := mem_filterMap.mp h
    obtain ⟨value, hv, rfl⟩ := map_eq_some_iff.mp hop
    unfold InnerOp.write at hx
    dsimp only at hx
    split at hx
    · rename_i htk
      subst htk
      rw [hv]
      exact ⟨rfl, hx⟩
    · cases hx

theorem exists_putOps (multi : Bool) (tenant : Text) {key : Text}
    {kvs : AList (fun _ : Text => V)} {keys : List Text}
    (hk : keys.Perm kvs.keys) {value : V} (h : kvs.lookup key = some value) :
    ∃ op ∈ putOps multi tenant kvs keys, op.write (tenant, key) ≠ none := by
  cases multi with
  | true =>
    refine ⟨.multiPut tenant kvs, mem_singleton.mpr rfl, ?_⟩
    unfold InnerOp.write
    dsimp only
    rw [if_pos rfl, h]
    exact some_ne_none _
  | false =>
  have hky : key ∈ keys := by
    rw [hk.mem_iff, ← AList.mem_keys, ← AList.lookup_isSome, h]
    rfl
  refine ⟨.put tenant key value, mem_filterMap.mpr ⟨key, hky, by rw [h]; rfl⟩, ?_⟩
  unfold InnerOp.write
  dsimp only
  rw [if_pos rfl]
  exact some_ne_none _

/-- The puts of a batch put there what was grouped last. -/
theorem lastWrite_puts : lastWrite ((w.tenants.flatMap fun tenant =>
      putOps multi tenant (g.putsOf tenant) (w.keys tenant)).map InnerOp.write) tk
      = (g.putAt tk).map some := by
  cases hp : g.putAt tk with
  | none =>
    refine lastWrite_eq_none.mpr fun f hf => ?_
    obtain ⟨op, hop, rfl⟩ := mem_map.mp hf
    obtain ⟨tenant, -, hop⟩ := mem_flatMap.mp hop
    cases hx : op.write tk with
    | none => rfl
    | some x =>
    obtain ⟨rfl, hv⟩ := mem_putOps hop hx
    rw [Groups.putAt] at hp
    rw [hp] at hv
    cases hv
  | some value =>
    obtain ⟨tenant, key⟩ := tk
    refine lastWrite_eq_some ?_ ?_
    · intro f hf x hx
      obtain ⟨op, hop, rfl⟩ := mem_map.mp hf
      obtain ⟨tenant', -, hop⟩ := mem_flatMap.mp hop
      obtain ⟨rfl, hv⟩ := mem_putOps hop hx
      rw [Groups.putAt] at hp
      rw [hp] at hv
      exact (some.inj hv).symm
    · obtain ⟨op, hop, hne⟩ := exists_putOps multi tenant (w.keys_perm tenant) hp
      refine ⟨op.write, mem_map.mpr ⟨op, mem_flatMap.mpr ⟨tenant, ?_, hop⟩, rfl⟩, hne⟩
      rw [w.tenants_perm.mem_iff, ← AList.mem_keys, ← AList.lookup_isSome]
      -- a tenant without puts has no value here
      cases hk : g.puts.lookup tenant with
      | none =>
        rw [Groups.putAt, Groups.putsOf, hk] at hp
        cases hp
      | some kvs => rfl

theorem lastWrite_deletes : lastWrite ((w.deletes.flatMap fun tenant =>
      (g.deletesOf tenant).map (InnerOp.delete tenant : Text → InnerOp V)).map InnerOp.write) tk
      = if tk.2 ∈ g.deletesOf tk.1 then some (none : Option V) else none := by
  obtain ⟨tenant, key⟩ := tk
  split
  · rename_i hm
    refine lastWrite_eq_some ?_ ?_
    · intro f hf x hx
      obtain ⟨op, hop, rfl⟩ := mem_map.mp hf
      obtain ⟨tenant', -, hop⟩ := mem_flatMap.mp hop
      obtain ⟨key', -, rfl⟩ := mem_map.mp hop
      unfold InnerOp.write at hx
      dsimp only at hx
      split at hx
      · exact (some.inj hx).symm
      · cases hx
    · refine ⟨(InnerOp.delete tenant key : InnerOp V).write, mem_map.mpr ⟨_, mem_flatMap.mpr
        ⟨tenant, ?_, mem_map.mpr ⟨key, hm, rfl⟩⟩, rfl⟩, ?_⟩
      · rw [w.deletes_perm.mem_iff, ← AList.mem_keys, ← AList.lookup_isSome]
        cases hk : g.deletes.lookup tenant with
        | none =>
          rw [Groups.deletesOf, hk] at hm
          cases hm
        | some keys => rfl
      · unfold InnerOp.write
        dsimp only
        rw [if_pos rfl]
        exact some_ne_none _
  · rename_i hm
    refine lastWrite_eq_none.mpr fun f hf => ?_
    obtain ⟨op, hop, rfl⟩ := mem_map.mp hf
    obtain ⟨tenant', -, hop⟩ := mem_flatMap.mp hop
    obtain ⟨key', hkey', rfl⟩ := mem_map.mp hop
    unfold InnerOp.write
    dsimp only
    rw [if_neg]
    intro htk
    cases htk
    exact hm hkey'

end Executed

/-- **What a batch writes**: a deleted key is gone whatever else the batch says of it; for another
key the last request counts. -/
theorem Batch.lastWrite_ops (multi : Bool) (b : Batch V) (tk : Text × Text) :
    (Deletes b.requests tk → lastWrite ((b.ops multi).map InnerOp.write) tk = some none)
      ∧ (¬ Deletes b.requests tk → lastWrite ((b.ops multi).map InnerOp.write) tk
        = lastWrite (b.requests.map PutReq.write) tk) := by
  have ho : lastWrite ((b.ops multi).map InnerOp.write) tk
      = (if tk.2 ∈ (group b.requests).deletesOf tk.1 then some none else none).or
        (((group b.requests).putAt tk).map some) := by
    rw [Batch.ops, innerOps, map_append, lastWrite_append, lastWrite_puts, lastWrite_deletes]
  rw [ho]
  constructor
  · intro hd
    rw [if_pos ((mem_deletesOf_group b.requests).mpr hd)]
    rfl
  · intro hd
    rw [if_neg (fun hm => hd ((mem_deletesOf_group b.requests).mp hm)), putAt_group hd]
    rfl

theorem putAt_group_some (tk : Text × Text) {batch : List (PutReq V)}
    (h : (group batch).putAt tk = some v) :
    ∃ req ∈ batch, req.isDelete = false ∧ req.value = v := by
  induction batch using reverseRecOn with
  | nil => cases h
  | append_singleton batch req ih =>
  rw [group_concat, putAt_add] at h
  split at h
  · rename_i hr
    exact ⟨req, mem_append_right _ mem_cons_self, hr.1, some.inj h⟩
  · obtain ⟨r, hr, hs⟩ := ih h
    exact ⟨r, mem_append_left _ hr, hs⟩

/-- What a batch puts is the value of one of its puts. -/
theorem Batch.put_of_ops {b : Batch V} (hop : op ∈ b.ops multi) (h : op.write tk = some (some v)) :
    ∃ req ∈ b.requests, req.isDelete = false ∧ req.value = v := by
  rcases mem_append.mp hop with hop | hop
  · obtain ⟨tenant, -, hop⟩ := mem_flatMap.mp hop
    obtain ⟨rfl, hv⟩ := mem_putOps hop h
    obtain ⟨v', hv', heq⟩ := map_eq_some_iff.mp hv
    cases heq
    exact putAt_group_some tk hv'
  · obtain ⟨tenant, -, hop⟩ := mem_flatMap.mp hop
    obtain ⟨key, -, rfl⟩ := mem_map.mp hop
    unfold InnerOp.write at h
    dsimp only at h
    split at h <;> cases h

/-! ## Batches against single requests -/

/-- Of the requests for the key in the batch the last is a put, and a delete comes before it. -/
def Clobbers (batch : List (PutReq V)) (tk : Text × Text) : Prop :=
  Deletes batch tk ∧ ∃ before req after, batch = before ++ req :: after ∧ req.on = tk
    ∧ req.isDelete = false ∧ ∀ r ∈ after, r.on ≠ tk

/-- The last batch that has a request for the key clobbers it. -/
def Overtaken : List (Batch V) → Text × Text → Prop
  | [], _ => False
  | b :: batches, tk =>
    Overtaken batches tk
      ∨ Clobbers b.requests tk ∧ ∀ b' ∈ batches, ∀ r ∈ b'.requests, r.on ≠ tk

section Sequential

variable {batch : List (PutReq V)} {tk : Text × Text}

theorem write_eq_none {req : PutReq V} : req.write tk = none ↔ req.on ≠ tk := by
  unfold PutReq.write
  split
  · rename_i h
    simp [h]
  · rename_i h
    simpa using Ne.symm h

theorem lastWrite_requests_eq_none :
    lastWrite (batch.map PutReq.write) tk = none ↔ ∀ r ∈ batch, r.on ≠ tk := by
  rw [lastWrite_eq_none]
  simp only [List.forall_mem_map, write_eq_none]

/-- The last request for a key. -/
theorem lastWrite_requests {before after : List (PutReq V)} {req : PutReq V} (hon : req.on = tk)
    (ha : ∀ r ∈ after, r.on ≠ tk) :
    lastWrite ((before ++ req :: after).map PutReq.write) tk
      = some (if req.isDelete then none else some req.value) := by
  rw [map_append, lastWrite_append, map_cons, lastWrite_cons, lastWrite_requests_eq_none.mpr ha,
    PutReq.write, if_pos hon.symm]
  rfl

theorem exists_last_request (h : ¬ ∀ r ∈ batch, r.on ≠ tk) :
    ∃ before req after, batch = before ++ req :: after ∧ req.on = tk ∧ ∀ r ∈ after, r.on ≠ tk := by
  induction batch with
  | nil => exact absurd nofun h
  | cons req batch ih =>
  by_cases hl : ∀ r ∈ batch, r.on ≠ tk
  · refine ⟨[], req, batch, rfl, ?_, hl⟩
    by_contra hne
    exact h (forall_mem_cons.mpr ⟨hne, hl⟩)
  · obtain ⟨before, req', after, rfl, hon, ha⟩ := ih hl
    exact ⟨req :: before, req', after, rfl, hon, ha⟩

/-- A batch and its requests one by one differ exactly where the batch clobbers. -/
theorem Batch.lastWrite_ops_eq_iff (multi : Bool) (b : Batch V) :
    lastWrite ((b.ops multi).map InnerOp.write) tk = lastWrite (b.requests.map PutReq.write) tk
      ↔ ¬ Clobbers b.requests tk := by
  obtain ⟨hd, ho⟩ := b.lastWrite_ops multi tk
  by_cases hdl : Deletes b.requests tk
  · rw [hd hdl]
    have ht : ¬ ∀ r ∈ b.requests, r.on ≠ tk := by
      intro hn
      obtain ⟨r, hr, -, hon⟩ := hdl
      exact hn r hr hon
    obtain ⟨before, req, after, heq, hon, ha⟩ := exists_last_request ht
    have hl : lastWrite (b.requests.map PutReq.write) tk
        = some (if req.isDelete then none else some req.value) := by
      rw [heq]
      exact lastWrite_requests hon ha
    cases hrq : req.isDelete with
    | true =>
      rw [hrq] at hl
      refine iff_of_true hl.symm ?_
      -- the last request cannot be a put as well
      rintro ⟨-, before', req', after', heq', hon', hp, hafter'⟩
      rw [heq', lastWrite_requests hon' hafter', hp] at hl
      cases hl
    | false =>
      rw [hl, hrq]
      exact iff_of_false nofun fun h => h ⟨hdl, before, req, after, heq, hon, hrq, ha⟩
  · rw [ho hdl]
    exact iff_of_true rfl fun hc => hdl hc.1

theorem Batch.lastWrite_ops_eq_none (multi : Bool) (b : Batch V) :
    lastWrite ((b.ops multi).map InnerOp.write) tk = none ↔ ∀ r ∈ b.requests, r.on ≠ tk := by
  obtain ⟨hd, ho⟩ := b.lastWrite_ops multi tk
  by_cases hdl : Deletes b.requests tk
  · rw [hd hdl]
    refine iff_of_false nofun fun hn => ?_
    obtain ⟨r, hr, -, hon⟩ := hdl
    exact hn r hr hon
  · rw [ho hdl, lastWrite_requests_eq_none]

theorem Overtaken.touched (h : Overtaken batches tk) :
    ¬ ∀ b ∈ batches, ∀ r ∈ b.requests, r.on ≠ tk := by
  intro hn
  induction batches with
  | nil => exact h
  | cons b batches ih =>
    rcases h with hl | ⟨⟨⟨r, hr, -, hon⟩, -⟩, -⟩
    · exact ih hl fun b' hb' => hn b' (mem_cons_of_mem b hb')
    · exact hn b mem_cons_self r hr hon

/-- Writes for each batch touch a key exactly if a request does. -/
theorem lastWrite_flatMap_eq_none
    (hf : ∀ b, lastWrite (f b) tk = none ↔ ∀ r ∈ b.requests, r.on ≠ tk) (batches : List (Batch V)) :
    lastWrite (batches.flatMap f) tk = none ↔ ∀ b ∈ batches, ∀ r ∈ b.requests, r.on ≠ tk := by
  simp only [← hf, lastWrite_eq_none, mem_flatMap]
  constructor
  · exact fun h b hb w hw => h w ⟨b, hb, hw⟩
  · rintro h w ⟨b, hb, hw⟩
    exact h b hb w hw

theorem lastWrite_batches_eq_none (multi : Bool) (batches : List (Batch V)) :
    lastWrite (batches.flatMap fun b => (b.ops multi).map InnerOp.write) tk = none
      ↔ ∀ b ∈ batches, ∀ r ∈ b.requests, r.on ≠ tk :=
  lastWrite_flatMap_eq_none (fun b => b.lastWrite_ops_eq_none multi) batches

theorem lastWrite_sequence_eq_none (batches : List (Batch V)) :
    lastWrite (batches.flatMap fun b => b.requests.map PutReq.write) tk = none
      ↔ ∀ b ∈ batches, ∀ r ∈ b.requests, r.on ≠ tk :=
  lastWrite_flatMap_eq_none (fun _ => lastWrite_requests_eq_none) batches

/-- Batches and their requests one by one differ exactly where a batch overtakes. -/
theorem lastWrite_batches_eq_iff (multi : Bool) (batches : List (Batch V)) :
    lastWrite (batches.flatMap fun b => (b.ops multi).map InnerOp.write) tk
        = lastWrite (batches.flatMap fun b => b.requests.map PutReq.write) tk
      ↔ ¬ Overtaken batches tk := by
  induction batches with
  | nil => exact iff_of_true rfl id
  | cons b batches ih =>
  rw [flatMap_cons, flatMap_cons, lastWrite_append, lastWrite_append]
  by_cases hl : ∀ b' ∈ batches, ∀ r ∈ b'.requests, r.on ≠ tk
  · -- only the first batch has requests for the key
    rw [(lastWrite_batches_eq_none multi batches).mpr hl,
      (lastWrite_sequence_eq_none batches).mpr hl, none_or, none_or,
      b.lastWrite_ops_eq_iff multi]
    refine not_congr ⟨fun h => .inr ⟨h, hl⟩, ?_⟩
    rintro (h | ⟨h, -⟩)
    · exact absurd hl h.touched
    · exact h
  · -- a later batch decides
    obtain ⟨x, hx⟩ := ne_none_iff_exists'.mp (mt (lastWrite_batches_eq_none multi batches).mp hl)
    obtain ⟨y, hy⟩ := ne_none_iff_exists'.mp (mt (lastWrite_sequence_eq_none batches).mp hl)
    rw [hx, hy] at ih ⊢
    rw [some_or, some_or, ih]
    refine not_congr ⟨.inl, ?_⟩
    rintro (h | ⟨-, h⟩)
    · exact h
    · exact absurd h hl

end Sequential

/-- The store after the batches, one after another. -/
def flushAll (multi : Bool) (c : Content V) (batches : List (Batch V)) : Content V :=
  batches.foldl (Batch.execute multi) c

/-- The store after the requests, one by one. -/
def applyAll (c : Content V) (requests : List (PutReq V)) : Content V :=
  (requests.map PutReq.write).foldl overlay c

/-- **Batches against single requests.** The store is the same after the batches and after their
requests one by one, exactly if no batch clobbers a key for which no request comes later. -/
theorem flushAll_eq_applyAll_iff (multi : Bool) (c : Content V) (batches : List (Batch V)) :
    flushAll multi c batches = applyAll c (batches.flatMap Batch.requests)
      ↔ ∀ tk, ¬ Overtaken batches tk := by
  have hf : flushAll multi c batches
      = (batches.flatMap fun b => (b.ops multi).map InnerOp.write).foldl overlay c :=
    (foldl_flatMap ..).symm
  have hr : (batches.flatMap Batch.requests).map PutReq.write
      = batches.flatMap fun b => b.requests.map PutReq.write := map_flatMap
  rw [hf, applyAll, hr, funext_iff]
  refine forall_congr' fun tk => ?_
  rw [foldl_overlay, foldl_overlay, ← lastWrite_batches_eq_iff multi]
  by_cases ht : ∀ b ∈ batches, ∀ r ∈ b.requests, r.on ≠ tk
  · rw [(lastWrite_batches_eq_none multi batches).mpr ht,
      (lastWrite_sequence_eq_none batches).mpr ht]
    exact iff_of_true rfl rfl
  · obtain ⟨x, hx⟩ := ne_none_iff_exists'.mp (mt (lastWrite_batches_eq_none multi batches).mp ht)
    obtain ⟨y, hy⟩ := ne_none_iff_exists'.mp (mt (lastWrite_sequence_eq_none batches).mp ht)
    rw [hx, hy, getD_some, getD_some, some_inj]

/-- The walk in the order of the lists. -/
def Walk.plain (g : Groups V) : Walk g where
  tenants := g.puts.keys
  keys := fun tenant => (g.putsOf tenant).keys
  deletes := g.deletes.keys
  tenants_perm := .refl _
  keys_perm := fun _ => .refl _
  deletes_perm := .refl _

/-- A delete and then a put of one key, in one batch: the key is gone. -/
theorem delete_overtakes_put :
    let requests : List (PutReq Bytes) := [⟨"t".toList, "k".toList, [], true⟩,
      ⟨"t".toList, "k".toList, [1], false⟩]
    flushAll true (fun _ => none) [⟨requests, .plain _⟩] ("t".toList, "k".toList) = none
      ∧ applyAll (fun _ => none) requests ("t".toList, "k".toList) = some [1] := by
  decide

end Rah.Datastore
