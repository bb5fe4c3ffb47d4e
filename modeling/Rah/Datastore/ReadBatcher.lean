import Rah.Lib.Group
import Rah.Datastore.WriteBuffer

/-!
# Batches of reads

`ReadBatcher.Get` looks at the write buffer first. On a miss it sends a request with a channel of
its own to the dispatch goroutine and waits for the response. The goroutine asks the inner store for
each key of a batch once, tenant by tenant, and sends the answer to every channel that waits for it.

A response is a value and whether it was found; there is no place in it for an error. If the inner
store fails for a tenant, all requests of the tenant are answered with "not found".
-/

namespace Rah.Datastore

open Rah.Lib List

/-- A request; `respCh` numbers its channel. -/
structure GetReq where
  tenant : Text
  key : Text
  respCh : Nat
  deriving DecidableEq, Repr

def GetReq.on (req : GetReq) : Text × Text := (req.tenant, req.key)

/-- A response; `none` is the nil slice. -/
structure GetResp where
  value : Option Bytes
  found : Bool
  deriving DecidableEq, Repr

/-- How the inner store answers while a batch is served. With `multi` it has `MultiGet`. -/
structure InnerReads where
  multi : Bool
  get : Text → Text → Except String (Option Bytes)
  multiGet : Text → List Text → Except String (AList (fun _ : Text => Bytes))

/-- The loop over the keys of a tenant for a store without `MultiGet`; an error ends it. -/
def getLoop (get : Text → Except String (Option Bytes)) :
    AList (fun _ : Text => Bytes) → List Text → Except String (AList (fun _ : Text => Bytes))
  | results, [] => .ok results
  | results, k :: keys =>
    match get k with
    | .error e => .error e
    | .ok none => getLoop get results keys
    | .ok (some v) => getLoop get (results.insert k v) keys

def InnerReads.lookup (inner : InnerReads) (tenant : Text) (keys : List Text) :
    Except String (AList (fun _ : Text => Bytes)) :=
  if inner.multi then inner.multiGet tenant keys else getLoop (inner.get tenant) ∅ keys

/-- The response for a key of a tenant. -/
def respond (results : Except String (AList (fun _ : Text => Bytes))) (key : Text) : GetResp :=
  match results with
  | .error _ => ⟨none, false⟩
  | .ok m => ⟨m.lookup key, (m.lookup key).isSome⟩

def keyToChans (batch : List GetReq) : AList (fun _ : Text × Text => List Nat) :=
  groupBy GetReq.on GetReq.respCh batch

/-- The unique keys of each tenant, in the order in which `keyToChans` is walked. -/
def keysByTenant (order : List (Text × Text)) : AList (fun _ : Text => List Text) :=
  groupBy Prod.fst Prod.snd order

/-- A batch, and the orders in which its maps are walked. Each request has its own channel. -/
structure ReadBatch where
  requests : List GetReq
  channels : (requests.map GetReq.respCh).Nodup
  keys : List (Text × Text)
  tenants : List Text
  keys_perm : keys.Perm (keyToChans requests).keys
  tenants_perm : tenants.Perm (keysByTenant keys).keys

/-- What the inner store says for a tenant of the batch. -/
def ReadBatch.results (inner : InnerReads) (b : ReadBatch) (tenant : Text) :
    Except String (AList (fun _ : Text => Bytes)) :=
  inner.lookup tenant (filed (keysByTenant b.keys) tenant)

/-- What is sent, and to which channel. -/
def ReadBatch.messages (inner : InnerReads) (b : ReadBatch) : List (Nat × GetResp) :=
  b.tenants.flatMap fun tenant =>
    (filed (keysByTenant b.keys) tenant).flatMap fun key =>
      (filed (keyToChans b.requests) (tenant, key)).map fun ch =>
        (ch, respond (b.results inner tenant) key)

/-- What a `Get` returns: a value, "not found" without an error, or the error of its context. -/
inductive GetResult where
  | value (v : Option Bytes)
  | absent
  | contextDone
  deriving DecidableEq, Repr

/-- `Get`, from what the buffer says and what is received; `none` if the context is done before. -/
def getResult : Hit Bytes → Option GetResp → GetResult
  | .deleted, _ => .absent
  | .value v, _ => .value (some v)
  | .miss, none => .contextDone
  | .miss, some resp => if resp.found then .value resp.value else .absent

/-- A call of `Get`: if the buffer misses, its request is in the batch, and it receives nothing or
what is sent to its channel. -/
structure Served (inner : InnerReads) (b : ReadBatch) (req : GetReq) (hit : Hit Bytes)
    (received : Option GetResp) : Prop where
  batched : hit = .miss → req ∈ b.requests
  received : ∀ resp ∈ received, (req.respCh, resp) ∈ b.messages inner

/-- The inner store answers without an error that the key is absent. -/
def ReadBatch.AnswersAbsent (inner : InnerReads) (b : ReadBatch) (req : GetReq) : Prop :=
  if inner.multi then ∃ m, b.results inner req.tenant = .ok m ∧ m.lookup req.key = none
  else inner.get req.tenant req.key = .ok none

/-- "Not found" is returned only for what is known to be absent. -/
def ReadBatch.Honest (inner : InnerReads) (b : ReadBatch) : Prop :=
  ∀ req hit received, Served inner b req hit received → getResult hit received = .absent →
    hit = .deleted ∨ b.AnswersAbsent inner req

/-- The inner store fails for a request of the batch. -/
def ReadBatch.Fails (inner : InnerReads) (b : ReadBatch) (req : GetReq) : Prop :=
  if inner.multi then ∃ e, b.results inner req.tenant = .error e
  else ∃ e, inner.get req.tenant req.key = .error e

/-! ## What is sent -/

section Sent

variable {inner : InnerReads} {b : ReadBatch}

theorem ReadBatch.mem_keys : tk ∈ b.keys ↔ ∃ req ∈ b.requests, req.on = tk := by
  rw [b.keys_perm.mem_iff, keyToChans, mem_keys_groupBy]

theorem ReadBatch.mem_filed :
    key ∈ filed (keysByTenant b.keys) tenant ↔ ∃ req ∈ b.requests, req.on = (tenant, key) := by
  rw [← ReadBatch.mem_keys, keysByTenant, mem_filed_groupBy]
  constructor
  · rintro ⟨tk, htk, rfl, rfl⟩
    exact htk
  · exact fun h => ⟨_, h, rfl, rfl⟩

/-- Every request is answered, by the answer for its tenant and key. -/
theorem ReadBatch.mem_messages : (ch, resp) ∈ b.messages inner ↔ ∃ req ∈ b.requests, req.respCh = ch
      ∧ respond (b.results inner req.tenant) req.key = resp := by
  unfold ReadBatch.messages
  simp only [mem_flatMap, mem_map, Prod.mk.injEq]
  constructor
  · rintro ⟨tenant, -, key, -, ch', hch, rfl, rfl⟩
    obtain ⟨req, hr, hon, rfl⟩ := mem_filed_groupBy.mp hch
    cases hon
    exact ⟨req, hr, rfl, rfl⟩
  rintro ⟨req, hr, rfl, rfl⟩
  have hk : req.on ∈ b.keys := ReadBatch.mem_keys.mpr ⟨req, hr, rfl⟩
  refine ⟨req.tenant, ?_, req.key, ReadBatch.mem_filed.mpr ⟨req, hr, rfl⟩, req.respCh, ?_, rfl,
    rfl⟩
  · exact b.tenants_perm.mem_iff.mpr (mem_keys_groupBy.mpr ⟨req.on, hk, rfl⟩)
  · exact mem_filed_groupBy.mpr ⟨req, hr, rfl, rfl⟩

/-- What a request receives is the answer for its own key. -/
theorem ReadBatch.response (hrq : req ∈ b.requests) :
    (req.respCh, resp) ∈ b.messages inner
      ↔ respond (b.results inner req.tenant) req.key = resp := by
  rw [ReadBatch.mem_messages]
  constructor
  · rintro ⟨req', hreq', hch, hr⟩
    rwa [inj_on_of_nodup_map b.channels hreq' hrq hch] at hr
  · exact fun h => ⟨req, hrq, rfl, h⟩

end Sent

/-! ## Failures of the inner store -/

section Failures

variable {get : Text → Except String (Option Bytes)}

/-- The loop fails exactly if the store does for one of the keys. -/
theorem getLoop_error {keys : List Text} :
    (∃ e, getLoop get results keys = .error e) ↔ ∃ k ∈ keys, ∃ e, get k = .error e := by
  induction keys generalizing results with
  | nil =>
    constructor
    · rintro ⟨e, h⟩
      cases h
    · rintro ⟨k, h, -⟩
      cases h
  | cons k keys ih =>
  rw [getLoop]
  cases hk : get k with
  | error e => exact iff_of_true ⟨e, rfl⟩ ⟨k, mem_cons_self, e, hk⟩
  | ok answer =>
  have hm : (∃ k' ∈ k :: keys, ∃ e, get k' = .error e) ↔ ∃ k' ∈ keys, ∃ e, get k' = .error e := by
    constructor
    · rintro ⟨k', hk', e, he⟩
      rcases mem_cons.mp hk' with rfl | hk'
      · rw [hk] at he
        cases he
      · exact ⟨k', hk', e, he⟩
    · rintro ⟨k', hk', he⟩
      exact ⟨k', mem_cons_of_mem k hk', he⟩
  rw [hm]
  cases answer with
  | none | some v => exact ih

/-- If it succeeds without a value for a key, the store has said so. -/
theorem getLoop_ok {keys : List Text} {results m : AList (fun _ : Text => Bytes)}
    (h : getLoop get results keys = .ok m) (hn : m.lookup k = none) :
    results.lookup k = none ∧ (k ∈ keys → get k = .ok none) := by
  induction keys generalizing results with
  | nil =>
    cases h
    exact ⟨hn, nofun⟩
  | cons k' keys ih =>
  rw [getLoop] at h
  cases hk' : get k' with
  | error e =>
    rw [hk'] at h
    cases h
  | ok answer =>
  rw [hk'] at h
  cases answer with
  | none =>
    obtain ⟨hr, hrs⟩ := ih h
    refine ⟨hr, fun hk => ?_⟩
    rcases mem_cons.mp hk with rfl | hk
    · exact hk'
    · exact hrs hk
  | some v =>
  obtain ⟨hr, hrs⟩ := ih h
  have hne : k ≠ k' := by
    rintro rfl
    rw [AList.lookup_insert] at hr
    cases hr
  rw [AList.lookup_insert_ne hne] at hr
  refine ⟨hr, fun hk => ?_⟩
  rcases mem_cons.mp hk with rfl | hk
  · exact absurd rfl hne
  · exact hrs hk

end Failures

section Honest

variable {inner : InnerReads} {b : ReadBatch} {req : GetReq}

/-- A request of a tenant for which the store fails fails, or another one of the tenant does. -/
theorem ReadBatch.fails_of_error (hr : req ∈ b.requests)
    (h : b.results inner req.tenant = .error e) : ∃ req' ∈ b.requests, b.Fails inner req' := by
  unfold ReadBatch.Fails
  cases hm : inner.multi with
  | true => exact ⟨req, hr, e, h⟩
  | false =>
  rw [ReadBatch.results, InnerReads.lookup, hm] at h
  obtain ⟨k, hk, e', he'⟩ := getLoop_error.mp ⟨e, h⟩
  obtain ⟨req', hreq', hon⟩ := ReadBatch.mem_filed.mp hk
  have ht : req'.tenant = req.tenant := congrArg Prod.fst hon
  have hky : req'.key = k := congrArg Prod.snd hon
  exact ⟨req', hreq', e', by rw [ht, hky, he']⟩

/-- If it fails for a request, it does for the tenant. -/
theorem ReadBatch.Fails.results (h : b.Fails inner req) (hr : req ∈ b.requests) :
    ∃ e, b.results inner req.tenant = .error e := by
  unfold ReadBatch.Fails at h
  unfold ReadBatch.results InnerReads.lookup
  cases hm : inner.multi with
  | true =>
    rw [ReadBatch.results, InnerReads.lookup, hm] at h
    exact h
  | false =>
    rw [hm] at h
    exact getLoop_error.mpr ⟨req.key, ReadBatch.mem_filed.mpr ⟨req, hr, rfl⟩, h⟩

theorem ReadBatch.Fails.not_absent (h : b.Fails inner req) : ¬ b.AnswersAbsent inner req := by
  unfold ReadBatch.Fails at h
  unfold ReadBatch.AnswersAbsent
  cases hml : inner.multi with
  | true =>
    rw [hml] at h
    obtain ⟨e, he⟩ := h
    rintro ⟨m, hm, -⟩
    rw [he] at hm
    cases hm
  | false =>
  rw [hml] at h
  obtain ⟨e, he⟩ := h
  rw [he]
  nofun

/-- Without a failure, a missing key is one the store has said to be absent. -/
theorem ReadBatch.absent_of_ok (hr : req ∈ b.requests) (hm : b.results inner req.tenant = .ok m)
    (hn : m.lookup req.key = none) : b.AnswersAbsent inner req := by
  unfold ReadBatch.AnswersAbsent
  cases hml : inner.multi with
  | true => exact ⟨m, hm, hn⟩
  | false =>
    rw [ReadBatch.results, InnerReads.lookup, hml] at hm
    exact (getLoop_ok hm hn).2 (ReadBatch.mem_filed.mpr ⟨req, hr, rfl⟩)

end Honest

/-- **Failures against absence.** "Not found" is returned only for deleted and absent keys, exactly
if the inner store fails for no request of the batch. -/
theorem honest_iff_no_failure (inner : InnerReads) (b : ReadBatch) :
    b.Honest inner ↔ ∀ req ∈ b.requests, ¬ b.Fails inner req := by
  constructor
  · intro hh req hrq hf
    obtain ⟨e, he⟩ := hf.results hrq
    have hsn : (req.respCh, ⟨none, false⟩) ∈ b.messages inner := by
      rw [ReadBatch.response hrq, he]
      rfl
    rcases hh req .miss (some ⟨none, false⟩)
      ⟨fun _ => hrq, fun resp hrs => Option.some.inj hrs ▸ hsn⟩ rfl with hht | ha
    · cases hht
    · exact hf.not_absent ha
  · intro hok req hit received hs hr
    cases hit with
    | deleted => exact .inl rfl
    | value v => cases hr
    | miss =>
    have hrq := hs.batched rfl
    cases received with
    | none => cases hr
    | some resp =>
    have hrs := (ReadBatch.response hrq).mp (hs.received resp rfl)
    cases hm : b.results inner req.tenant with
    | error e =>
      obtain ⟨req', hreq', hf⟩ := ReadBatch.fails_of_error hrq hm
      exact absurd hf (hok req' hreq')
    | ok m =>
    refine .inr (ReadBatch.absent_of_ok hrq hm ?_)
    rw [hm] at hrs
    subst hrs
    unfold getResult respond at hr
    cases hfn : m.lookup req.key with
    | none => rfl
    | some v =>
      simp [hfn] at hr

/-- One request of tenant `t`, on a store that fails. -/
theorem failure_reads_as_absent :
    ∃ (inner : InnerReads) (b : ReadBatch) (req : GetReq) (resp : GetResp),
      req ∈ b.requests ∧ inner.get req.tenant req.key = .error "connection refused"
        ∧ (req.respCh, resp) ∈ b.messages inner ∧ getResult .miss (some resp) = .absent :=
  ⟨⟨false, fun _ _ => .error "connection refused", fun _ _ => .error ""⟩,
    ⟨[⟨['t'], ['k'], 0⟩], by decide, _, _, .refl _, .refl _⟩, ⟨['t'], ['k'], 0⟩, ⟨none, false⟩,
    by decide, rfl, by decide, rfl⟩

end Rah.Datastore
