import Rah.Lib.Cut
import Rah.Lib.Run
import Rah.Datastore.Batcher

/-!
# The write buffer

`writeBuffer` holds what readers may see before the store does: the puts and deletes that have been
marked but not flushed, and the puts of the last batch (`recent`). Calls mark their key and then
send the request, or give up; the dispatch goroutine takes batches, executes them and rotates the
buffer.

When everything has come to rest only `recent` is left, and it holds every put of the last batch,
also of a key that the batch deletes (`Unmixed` excludes it). Keys of the buffer are `tenant`, a NUL
and `key`, so that names with a NUL can share one (`PutReq.NulFree` excludes that).

What is marked, sent and kept is the slice of the call, never a copy: the store is given the bytes
the slice has when it is written, and a reader of the buffer gets those it has when it is read. A
caller that fills its buffer again while `recent` has it changes what readers see (`Free` excludes
that).
-/

namespace Rah.Datastore

open Rah.Lib List Function System

/-- Tenant and key in one, with a NUL between them. -/
def bufferKey (tenant key : Text) : Text := tenant ++ '\x00' :: key

/-- Without a NUL in the names, the key of the buffer names them. -/
theorem bufferKey_inj (ht : '\x00' ∉ tenant) (hk : '\x00' ∉ key)
    (h : bufferKey tenant key = bufferKey tenant' key') : tenant = tenant' ∧ key = key' := by
  have hc := congrArg (count '\x00') h
  simp only [bufferKey, count_append, count_cons_self, count_eq_zero.mpr ht,
    count_eq_zero.mpr hk] at hc
  have ht' : '\x00' ∉ tenant' := count_eq_zero.mp (by omega)
  exact (cut_first ht ht').mp h

/-! ## The buffer -/

/-- A slice, named by the buffer of its caller that it is of. -/
abbrev Slice := Nat

/-- `writeBuffer`: the puts and deletes under way, and the last flush. -/
structure WriteBuffer where
  pending : Text → Option Slice
  deletePending : Text → Bool
  recent : Text → Option Slice

/-- Nothing is under way. -/
def newWriteBuffer : WriteBuffer where
  pending := fun _ => none
  deletePending := fun _ => false
  recent := fun _ => none

/-- What a lookup says; a value is given as its slice, or by its bytes. -/
inductive Hit (V : Type) where
  | miss | deleted | value (v : V)
  deriving DecidableEq, Repr

namespace WriteBuffer

variable (b : WriteBuffer)

/-- What the buffer says of a key. -/
def lookup (key : Text) : Hit Slice :=
  if b.deletePending key then .deleted
  else
    match b.pending key with
    | some v => .value v
    | none =>
      match b.recent key with
      | some v => .value v
      | none => .miss

def setPending (key : Text) (val : Slice) : WriteBuffer :=
  { b with
    deletePending := update b.deletePending key false
    pending := update b.pending key (some val) }

def setDeletePending (key : Text) : WriteBuffer :=
  { b with
    pending := update b.pending key none
    deletePending := update b.deletePending key true }

/-- After a flush: what was flushed is recent and no longer pending. -/
def rotate (flushedKVs : Text → Option Slice) (flushedDeletes : List Text) : WriteBuffer where
  recent := flushedKVs
  pending := fun k => if (flushedKVs k).isSome then none else b.pending k
  deletePending := fun k => if k ∈ flushedDeletes then false else b.deletePending k

/-- Marks dropped, without becoming recent. -/
def remove (keys deletes : List Text) : WriteBuffer :=
  { b with
    pending := fun k => if k ∈ keys then none else b.pending k
    deletePending := fun k => if k ∈ deletes then false else b.deletePending k }

end WriteBuffer

def PutReq.bufKey (req : PutReq Slice) : Text := bufferKey req.tenant req.key

/-- The mark a call makes before it sends. -/
def WriteBuffer.mark (b : WriteBuffer) (req : PutReq Slice) : WriteBuffer :=
  if req.isDelete then b.setDeletePending req.bufKey else b.setPending req.bufKey req.value

/-- What a call does to its mark when it gives up. -/
def WriteBuffer.unmark (b : WriteBuffer) (req : PutReq Slice) : WriteBuffer :=
  if req.isDelete then b.remove [] [req.bufKey] else b.remove [req.bufKey] []

/-- The values of a batch under their keys; the last one counts. -/
def flushedKVs (batch : List (PutReq Slice)) : Text → Option Slice :=
  batch.foldl (fun m req => if req.isDelete then m else update m req.bufKey (some req.value))
    fun _ => none

def putKeys (batch : List (PutReq Slice)) : List Text :=
  (batch.filter fun req => !req.isDelete).map PutReq.bufKey

def deleteKeys (batch : List (PutReq Slice)) : List Text :=
  (batch.filter fun req => req.isDelete).map PutReq.bufKey

/-! ## Calls and the dispatch goroutine -/

/-- Where a `Put` or a `Delete` is. -/
inductive CallPhase where
  | called (req : PutReq Slice)
  | marked (req : PutReq Slice)
  | sent
  | abandoned
  deriving DecidableEq, Repr

/-- Where the dispatch goroutine is. -/
inductive LoopPhase where
  | idle
  | gathering (batch : List (PutReq Slice))
  | executing (batch : List (PutReq Slice)) (todo : List (InnerOp Slice)) (failed : Bool)

/-- The callers, the inbox, the flushing loop and the store. -/
structure System where
  mem : Slice → Bytes
  buf : WriteBuffer
  calls : List CallPhase
  inbox : List (PutReq Slice)
  loop : LoopPhase
  content : Content Bytes

/-- Nothing is under way over a given content. -/
def System.start (content : Content Bytes) : System where
  mem := fun _ => []
  buf := newWriteBuffer
  calls := []
  inbox := []
  loop := .idle
  content := content

/-- What a write puts into the store: the bytes that its slices have now. -/
def resolve (mem : Slice → Bytes) (w : Text × Text → Option (Option Slice)) :
    Text × Text → Option (Option Bytes) :=
  fun tk => (w tk).map (Option.map mem)

/-- The steps of the callers and of the loop. -/
inductive Act where
  | fill (v : Slice) (bytes : Bytes)
  | call (req : PutReq Slice)
  | mark (n : Nat)
  | send (n : Nat)
  | abandon (n : Nat)
  | receive
  | dispatch
  | inner (ok : Bool)
  | finish
  deriving DecidableEq, Repr

/-- One step of a call or of the goroutine. -/
inductive Step (multi : Bool) (maxBatch : Nat) : System → Act → System → Prop where
  | fill {s : System} (v : Slice) (bytes : Bytes) :
      Step multi maxBatch s (.fill v bytes) { s with mem := update s.mem v bytes }
  | call {s : System} (req : PutReq Slice) :
      Step multi maxBatch s (.call req) { s with calls := s.calls ++ [.called req] }
  | mark {s : System} {n : Nat} {req : PutReq Slice} : s.calls[n]? = some (.called req) →
      Step multi maxBatch s (.mark n)
        { s with buf := s.buf.mark req, calls := s.calls.set n (.marked req) }
  | send {s : System} {n : Nat} {req : PutReq Slice} : s.calls[n]? = some (.marked req) →
      s.inbox.length < maxBatch * 4 →
      Step multi maxBatch s (.send n)
        { s with inbox := s.inbox ++ [req], calls := s.calls.set n .sent }
  | abandon {s : System} {n : Nat} {req : PutReq Slice} : s.calls[n]? = some (.marked req) →
      Step multi maxBatch s (.abandon n)
        { s with buf := s.buf.unmark req, calls := s.calls.set n .abandoned }
  | receiveFirst {s : System} {req : PutReq Slice} {rest : List (PutReq Slice)} : s.loop = .idle →
      s.inbox = req :: rest →
      Step multi maxBatch s .receive { s with inbox := rest, loop := .gathering [req] }
  | receiveMore {s : System} {batch : List (PutReq Slice)} {req : PutReq Slice}
      {rest : List (PutReq Slice)} :
      s.loop = .gathering batch → batch.length < maxBatch → s.inbox = req :: rest →
      Step multi maxBatch s .receive { s with inbox := rest, loop := .gathering (batch ++ [req]) }
  | dispatch {s : System} {batch : List (PutReq Slice)} (w : Walk (group batch)) :
      s.loop = .gathering batch → s.inbox = [] ∨ maxBatch ≤ batch.length →
      Step multi maxBatch s .dispatch
        { s with loop := .executing batch (innerOps multi (group batch) w) false }
  | inner {s : System} {batch : List (PutReq Slice)} {op : InnerOp Slice}
      {todo : List (InnerOp Slice)} {failed : Bool}
      (ok : Bool) : s.loop = .executing batch (op :: todo) failed →
      Step multi maxBatch s (.inner ok)
        { s with
          content := if ok then overlay s.content (resolve s.mem op.write) else s.content
          loop := .executing batch todo (failed || !ok) }
  | flushed {s : System} {batch : List (PutReq Slice)} : s.loop = .executing batch [] false →
      Step multi maxBatch s .finish
        { s with buf := s.buf.rotate (flushedKVs batch) (deleteKeys batch), loop := .idle }
  | failed {s : System} {batch : List (PutReq Slice)} : s.loop = .executing batch [] true →
      Step multi maxBatch s .finish
        { s with buf := s.buf.remove (putKeys batch) (deleteKeys batch), loop := .idle }

/-- The inbox is empty, no batch is being processed, and no call is between its mark and sending. -/
structure System.Quiescent (s : System) : Prop where
  inbox : s.inbox = []
  loop : s.loop = .idle
  calls : ∀ req, .marked req ∉ s.calls

/-- The lookup is a miss or says what the store holds. -/
def System.Truthful (s : System) (tenant key : Text) : Prop :=
  s.buf.lookup (bufferKey tenant key) = .miss
    ∨ s.buf.lookup (bufferKey tenant key) = .deleted ∧ s.content (tenant, key) = none
    ∨ ∃ v, s.buf.lookup (bufferKey tenant key) = .value v ∧ s.content (tenant, key) = some (s.mem v)

/-! ## When the buffer tells the truth -/

/-- Keys without the separator. -/
def PutReq.NulFree (req : PutReq Slice) : Prop := '\x00' ∉ req.tenant ∧ '\x00' ∉ req.key

/-- No key of the batch is both put and deleted. -/
def Unmixed (batch : List (PutReq Slice)) : Prop :=
  ∀ r ∈ batch, ∀ r' ∈ batch, r.on = r'.on → r.isDelete = r'.isDelete

/-- The buffer does not keep the slice for readers, or, while a batch is executed, will not keep it
after that batch. -/
def System.Free (s : System) (v : Slice) : Prop :=
  match s.loop with
  | .executing batch _ _ => ∀ req ∈ batch, req.isDelete = false → req.value ≠ v
  | _ => ∀ bk, s.buf.recent bk ≠ some v

/-- Calls without a NUL in their names, batches that do not mix, operations that succeed, and no
slice filled that the buffer keeps. -/
def Sound (s : System) : Act → Prop
  | .fill v _ => s.Free v
  | .call req => req.NulFree
  | .dispatch => ∀ batch, s.loop = .gathering batch → Unmixed batch
  | .inner ok => ok = true
  | _ => True

/-! ### What a flush leaves in the buffer -/

theorem flushedKVs_concat : flushedKVs (batch ++ [req]) = if req.isDelete then flushedKVs batch
      else update (flushedKVs batch) req.bufKey (some req.value) := by
  unfold flushedKVs
  rw [foldl_append]
  rfl

/-- A value comes from a put of the batch. -/
theorem flushedKVs_some (h : flushedKVs batch bk = some v) :
    ∃ req ∈ batch, req.isDelete = false ∧ req.bufKey = bk := by
  induction batch using reverseRecOn with
  | nil => cases h
  | append_singleton batch req ih =>
  rw [flushedKVs_concat] at h
  by_cases hs : req.isDelete = false ∧ req.bufKey = bk
  · exact ⟨req, mem_append_right _ mem_cons_self, hs⟩
  have hb : flushedKVs batch bk = some v := by
    split at h
    · exact h
    rename_i hp
    rwa [update_of_ne] at h
    intro hbk
    exact hs ⟨Bool.not_eq_true _ ▸ hp, hbk.symm⟩
  obtain ⟨r, hr, hrs⟩ := ih hb
  exact ⟨r, mem_append_left _ hr, hrs⟩

theorem flushedKVs_isSome (hm : req ∈ batch) (hp : req.isDelete = false) :
    (flushedKVs batch req.bufKey).isSome = true := by
  induction batch using reverseRecOn with
  | nil => cases hm
  | append_singleton batch r ih =>
  rw [flushedKVs_concat]
  rcases mem_append.mp hm with hm | hm
  · split
    · exact ih hm
    by_cases hbk : req.bufKey = r.bufKey
    · rw [hbk, update_self]
      rfl
    · rw [update_of_ne hbk]
      exact ih hm
  · rw [← mem_singleton.mp hm, if_neg (by rw [hp]; exact Bool.false_ne_true), update_self]
    rfl

/-- Of a key that is not deleted, the buffer keeps what the last request puts. -/
theorem flushedKVs_eq_lastWrite (hn : ∀ r ∈ batch, r.NulFree) (hd : ¬ Deletes batch (tenant, key)) :
    (flushedKVs batch (bufferKey tenant key)).map some
      = lastWrite (batch.map PutReq.write) (tenant, key) := by
  induction batch using reverseRecOn with
  | nil => rfl
  | append_singleton batch req ih =>
  have hb : ¬ Deletes batch (tenant, key) := fun ⟨r, hr, hrs⟩ =>
    hd ⟨r, mem_append_left _ hr, hrs⟩
  have hs : ¬ (req.isDelete = true ∧ req.on = (tenant, key)) := fun h =>
    hd ⟨req, mem_append_right _ mem_cons_self, h⟩
  have hrq : req.NulFree := hn req (mem_append_right _ mem_cons_self)
  have hl : lastWrite ([req].map PutReq.write) (tenant, key) = req.write (tenant, key) := by
    rw [map_singleton, lastWrite_cons]
    rfl
  rw [flushedKVs_concat, map_append, lastWrite_append, hl,
    ← ih (fun r hr => hn r (mem_append_left _ hr)) hb, PutReq.write]
  by_cases hon : req.on = (tenant, key)
  · have hp : req.isDelete = false := by
      cases h : req.isDelete with
      | false => rfl
      | true => exact absurd ⟨h, hon⟩ hs
    have hbk : bufferKey tenant key = req.bufKey := by
      cases hon
      rfl
    rw [if_pos hon.symm, hp, hbk, if_neg Bool.false_ne_true, update_self]
    rfl
  · rw [if_neg (Ne.symm hon), Option.none_or]
    split
    · rfl
    rw [update_of_ne]
    intro hbk
    obtain ⟨ht, hk⟩ := bufferKey_inj hrq.1 hrq.2 hbk.symm
    exact hon (Prod.ext ht hk)

/-! ### The invariant -/

/-- The requests the loop holds. -/
def LoopPhase.batch : LoopPhase → List (PutReq Slice)
  | .idle => []
  | .gathering batch => batch
  | .executing batch _ _ => batch

def CallPhase.req : CallPhase → List (PutReq Slice)
  | .called req => [req]
  | .marked req => [req]
  | _ => []

/-- The request has been marked and not flushed. -/
def System.InFlight (s : System) (req : PutReq Slice) : Prop :=
  .marked req ∈ s.calls ∨ req ∈ s.inbox ∨ req ∈ s.loop.batch

/-- What was flushed last is in the store. -/
def System.Flushed (s : System) : Prop :=
  ∀ bk v, s.buf.recent bk = some v → ∃ tenant key, '\x00' ∉ tenant ∧ '\x00' ∉ key
    ∧ bk = bufferKey tenant key ∧ s.content (tenant, key) = some (s.mem v)

/-- What operations write, with the bytes of now. -/
def writes (mem : Slice → Bytes) (ops : List (InnerOp Slice)) :
    List (Text × Text → Option (Option Bytes)) :=
  (ops.map InnerOp.write).map (resolve mem)

/-- Between batches the last one is in the store; while one is executed, it will be. -/
def System.LoopFits (multi : Bool) (s : System) : LoopPhase → Prop
  | .idle => s.Flushed
  | .gathering _ => s.Flushed
  | .executing batch todo failed => failed = false ∧ Unmixed batch ∧ ∃ w c,
      todo ⊆ Batch.ops multi ⟨batch, w⟩
        ∧ (writes s.mem todo).foldl overlay s.content
          = (writes s.mem (Batch.ops multi ⟨batch, w⟩)).foldl overlay c

/-- The key is marked for a delete, or for a put. -/
def WriteBuffer.Marked (b : WriteBuffer) : Bool → Text → Prop
  | true, bk => b.deletePending bk = true
  | false, bk => (b.pending bk).isSome = true

/-- Every request in the system is free of the separator, and every mark of the buffer stands for a
request that is in flight. -/
structure System.Inv (multi : Bool) (s : System) : Prop where
  called : ∀ p ∈ s.calls, ∀ req ∈ p.req, req.NulFree
  inbox : ∀ req ∈ s.inbox, req.NulFree
  batch : ∀ req ∈ s.loop.batch, req.NulFree
  marks : ∀ {del bk}, s.buf.Marked del bk →
    ∃ req, s.InFlight req ∧ req.isDelete = del ∧ req.bufKey = bk
  loop : s.LoopFits multi s.loop

theorem inv_start (multi : Bool) (content : Content Bytes) : (System.start content).Inv multi where
  called := nofun
  inbox := nofun
  batch := nofun
  marks := by
    intro del bk h
    cases del with
    | true | false => cases h
  loop := nofun

section Invariant

variable {multi : Bool} {maxBatch : Nat} {s s' : System}

variable {b : WriteBuffer} {del : Bool} {bk : Text}

theorem mark_marked (h : (b.mark req).Marked del bk) :
    req.isDelete = del ∧ req.bufKey = bk ∨ b.Marked del bk := by
  by_cases hbk : req.bufKey = bk
  · by_cases hd : req.isDelete = del
    · exact .inl ⟨hd, hbk⟩
    -- a mark of one kind removes the other
    unfold WriteBuffer.mark WriteBuffer.setDeletePending WriteBuffer.setPending at h
    cases del <;> simp_all [WriteBuffer.Marked]
  · refine .inr ?_
    unfold WriteBuffer.mark WriteBuffer.setDeletePending WriteBuffer.setPending at h
    split at h
    · cases del <;> simpa [WriteBuffer.Marked, update_of_ne (Ne.symm hbk)] using h
    · cases del <;> simpa [WriteBuffer.Marked, update_of_ne (Ne.symm hbk)] using h

theorem mark_recent (b : WriteBuffer) (req : PutReq Slice) : (b.mark req).recent = b.recent := by
  unfold WriteBuffer.mark
  split <;> rfl

theorem remove_marked {keys deletes : List Text} (h : (b.remove keys deletes).Marked del bk) :
    b.Marked del bk ∧ bk ∉ (if del then deletes else keys) := by
  unfold WriteBuffer.remove WriteBuffer.Marked at h
  cases del with
  | true | false =>
  dsimp only at h
  split at h
  · cases h
  · rename_i hbk
    exact ⟨h, hbk⟩

theorem unmark_marked (h : (b.unmark req).Marked del bk) :
    b.Marked del bk ∧ ¬ (req.isDelete = del ∧ req.bufKey = bk) := by
  have hu : b.unmark req = b.remove (if req.isDelete then [] else [req.bufKey])
      (if req.isDelete then [req.bufKey] else []) := by
    unfold WriteBuffer.unmark
    split <;> rfl
  rw [hu] at h
  obtain ⟨hm, hbk⟩ := remove_marked h
  refine ⟨hm, ?_⟩
  rintro ⟨rfl, rfl⟩
  split at hbk <;> simp_all

theorem rotate_marked (h : (b.rotate (flushedKVs batch) (deleteKeys batch)).Marked del bk) :
    b.Marked del bk ∧ ∀ req ∈ batch, ¬ (req.isDelete = del ∧ req.bufKey = bk) := by
  unfold WriteBuffer.rotate WriteBuffer.Marked at h
  cases del with
  | true =>
    dsimp only at h
    split at h
    · cases h
    rename_i hbk
    refine ⟨h, ?_⟩
    rintro req hr ⟨hd, rfl⟩
    exact hbk (mem_map.mpr ⟨req, mem_filter.mpr ⟨hr, hd⟩, rfl⟩)
  | false =>
    dsimp only at h
    split at h
    · cases h
    rename_i hbk
    refine ⟨h, ?_⟩
    rintro req hr ⟨hp, rfl⟩
    exact hbk (flushedKVs_isSome hr hp)

theorem unmark_recent (b : WriteBuffer) (req : PutReq Slice) :
    (b.unmark req).recent = b.recent := by
  unfold WriteBuffer.unmark
  split <;> rfl

/-- An element that is not the one replaced stays in the list. -/
theorem mem_set_of_mem {l : List CallPhase} {n : Nat} (hn : l[n]? = some p) (hq : q ∈ l)
    (hne : q ≠ p) : q ∈ l.set n r := by
  obtain ⟨m, hm⟩ := mem_iff_getElem?.mp hq
  refine mem_iff_getElem?.mpr ⟨m, ?_⟩
  rw [getElem?_set_ne, hm]
  rintro rfl
  rw [hn] at hm
  exact hne (Option.some.inj hm).symm

/-- The calls after one of them has gone on. -/
theorem called_set {l : List CallPhase} {n : Nat} (hn : l[n]? = some p)
    (h : ∀ p ∈ l, ∀ req ∈ p.req, req.NulFree) (hrq : ∀ req ∈ q.req, req ∈ p.req) :
    ∀ p ∈ l.set n q, ∀ req ∈ p.req, req.NulFree := by
  intro r hr req hm
  rcases mem_or_eq_of_mem_set hr with hr | rfl
  · exact h r hr req hm
  · exact h p (mem_of_getElem? hn) req (hrq req hm)

/-- Nothing of the store or of what was flushed changes. -/
theorem System.LoopFits.congr {loop : LoopPhase} (h : s.LoopFits multi loop)
    (hr : s'.buf.recent = s.buf.recent) (hc : s'.content = s.content) (hm : s'.mem = s.mem) :
    s'.LoopFits multi loop := by
  cases loop with
  | executing batch todo failed =>
    unfold LoopFits at h ⊢
    rw [hc, hm]
    exact h
  | _ =>
    unfold LoopFits Flushed at h ⊢
    rw [hr, hc, hm]
    exact h

/-- A slice is filled that the operations do not write. -/
theorem writes_update {mem : Slice → Bytes} (h : ∀ op ∈ ops, ∀ tk, op.write tk ≠ some (some v)) :
    writes (update mem v bytes) ops = writes mem ops := by
  rw [writes, writes, map_map, map_map]
  refine map_congr_left fun op hop => funext fun tk => ?_
  dsimp only [comp_apply, resolve]
  cases hw : op.write tk with
  | none => rfl
  | some x =>
  cases x with
  | none => rfl
  | some v' =>
    have hne : v' ≠ v := fun hv => h op hop tk (hv ▸ hw)
    rw [Option.map_some, Option.map_some, Option.map_some, Option.map_some, update_of_ne hne]

theorem System.LoopFits.fill (h : s.LoopFits multi s.loop) (hv : s.Free v) :
    LoopFits multi { s with mem := update s.mem v bytes } s.loop := by
  unfold Free at hv
  cases hl : s.loop with
  | executing batch todo failed =>
    rw [hl] at h hv
    obtain ⟨hf, hu, w, c, hsub, he⟩ := h
    have hne (op) (hop : op ∈ Batch.ops multi ⟨batch, w⟩) (tk) : op.write tk ≠ some (some v) := by
      intro hw
      obtain ⟨req, hr, hp, hval⟩ := Batch.put_of_ops hop hw
      exact hv req hr hp hval
    refine ⟨hf, hu, w, c, hsub, ?_⟩
    rw [writes_update hne, writes_update fun op hop => hne op (hsub hop)]
    exact he
  | _ =>
    rw [hl] at h hv
    intro bk v' hr
    obtain ⟨tenant, key, ht, hk, hbk, hc⟩ := h bk v' hr
    have hne : v' ≠ v := fun heq => hv bk (heq ▸ hr)
    refine ⟨tenant, key, ht, hk, hbk, ?_⟩
    dsimp only
    rw [update_of_ne hne]
    exact hc

/-- A batch that has been executed is in the store. -/
theorem flushed_of_executed (multi : Bool) (w : Walk (group batch)) (mem : Slice → Bytes)
    (c : Content Bytes)
    (hn : ∀ r ∈ batch, r.NulFree) (hu : Unmixed batch) (h : flushedKVs batch bk = some v) :
    ∃ tenant key, '\x00' ∉ tenant ∧ '\x00' ∉ key ∧ bk = bufferKey tenant key
      ∧ (writes mem (Batch.ops multi ⟨batch, w⟩)).foldl overlay c (tenant, key) = some (mem v) := by
  obtain ⟨req, hrq, hp, rfl⟩ := flushedKVs_some h
  obtain ⟨ht, hk⟩ := hn req hrq
  refine ⟨req.tenant, req.key, ht, hk, rfl, ?_⟩
  have hd : ¬ Deletes batch (req.tenant, req.key) := by
    rintro ⟨r, hr, hd, hon⟩
    rw [hu r hr req hrq hon, hp] at hd
    cases hd
  have ho := ((⟨batch, w⟩ : Batch Slice).lastWrite_ops multi (req.tenant, req.key)).2 hd
  have hb := flushedKVs_eq_lastWrite hn hd
  rw [show flushedKVs batch (bufferKey req.tenant req.key) = some v from h] at hb
  have hm := lastWrite_map (Option.map mem) ((Batch.ops multi ⟨batch, w⟩).map InnerOp.write)
    (req.tenant, req.key)
  rw [ho, ← hb] at hm
  have hw : lastWrite (writes mem (Batch.ops multi ⟨batch, w⟩)) (req.tenant, req.key)
      = some (some (mem v)) := hm
  rw [foldl_overlay, hw]
  rfl

/-- At rest the buffer tells the truth. -/
theorem System.Inv.truthful (h : s.Inv multi) (hq : s.Quiescent) (tenant key : Text) :
    s.Truthful tenant key := by
  have hn : ∀ req, ¬ s.InFlight req := by
    rintro req (hcl | hi | hb)
    · exact hq.calls req hcl
    · rw [hq.inbox] at hi
      cases hi
    · rw [hq.loop] at hb
      cases hb
  have hp : s.buf.pending (bufferKey tenant key) = none := by
    refine Option.eq_none_iff_forall_ne_some.mpr fun v hv => ?_
    have hm : s.buf.Marked false (bufferKey tenant key) := by
      rw [WriteBuffer.Marked, hv]
      rfl
    obtain ⟨req, hrq, -⟩ := h.marks hm
    exact hn req hrq
  have hd : s.buf.deletePending (bufferKey tenant key) = false := by
    refine Bool.eq_false_iff.mpr fun hv => ?_
    have hm : s.buf.Marked true (bufferKey tenant key) := hv
    obtain ⟨req, hrq, -⟩ := h.marks hm
    exact hn req hrq
  have hf : s.Flushed := by
    have hl := h.loop
    rwa [hq.loop] at hl
  unfold Truthful WriteBuffer.lookup
  rw [hd, hp]
  cases hr : s.buf.recent (bufferKey tenant key) with
  | none => exact .inl rfl
  | some v =>
    obtain ⟨tenant', key', ht, hk, hbk, hc⟩ := hf _ v hr
    obtain ⟨rfl, rfl⟩ := bufferKey_inj ht hk hbk.symm
    exact .inr (.inr ⟨v, rfl, hc⟩)

/-- The buffer stays as it is, and so do the requests on their way. -/
theorem System.Inv.moved (h : s.Inv multi) {calls : List CallPhase} {inbox : List (PutReq Slice)}
    {mem : Slice → Bytes} {loop : LoopPhase} {content : Content Bytes}
    (hf : ∀ r, s.InFlight r → InFlight ⟨mem, s.buf, calls, inbox, loop, content⟩ r)
    (hm : s.buf.Marked del bk) :
    ∃ req, InFlight ⟨mem, s.buf, calls, inbox, loop, content⟩ req
      ∧ req.isDelete = del ∧ req.bufKey = bk := by
  obtain ⟨r, hr, hrs⟩ := h.marks hm
  exact ⟨r, hf r hr, hrs⟩

/-- A request goes from the inbox to the batch. -/
theorem System.Inv.receive (h : s.Inv multi) (hi : s.inbox = req :: rest) (hf : s.Flushed) :
    Inv multi { s with inbox := rest, loop := .gathering (s.loop.batch ++ [req]) } := by
  have hrq : ∀ r ∈ req :: rest, r.NulFree := by
    rw [← hi]
    exact h.inbox
  refine ⟨h.called, fun r hr => hrq r (mem_cons_of_mem req hr), ?_, h.moved ?_, hf⟩
  · intro r hr
    rcases mem_append.mp hr with hr | hr
    · exact h.batch r hr
    · rw [mem_singleton.mp hr]
      exact hrq req mem_cons_self
  · rintro r (hr | hr | hr)
    · exact .inl hr
    · rw [hi] at hr
      rcases mem_cons.mp hr with rfl | hr
      · exact .inr (.inr (mem_append_right _ (mem_singleton.mpr rfl)))
      · exact .inr (.inl hr)
    · exact .inr (.inr (mem_append_left _ hr))

/-- **The step lemma.** -/
theorem System.Inv.step {a : Act} (h : s.Inv multi) (hsn : Sound s a)
    (hst : Step multi maxBatch s a s') : s'.Inv multi := by
  cases hst with
  | fill v bytes => exact ⟨h.called, h.inbox, h.batch, h.moved fun _ hr => hr, h.loop.fill hsn⟩
  | call req =>
    refine ⟨?_, h.inbox, h.batch, h.moved ?_, h.loop.congr rfl rfl rfl⟩
    · intro p hp r hr
      rcases mem_append.mp hp with hp | hp
      · exact h.called p hp r hr
      · rw [mem_singleton.mp hp] at hr
        rw [mem_singleton.mp hr]
        exact hsn
    · exact fun r hr => hr.imp_left (mem_append_left _)
  | @mark n req hn =>
    refine ⟨called_set hn h.called fun r hr => hr, h.inbox, h.batch, ?_,
      h.loop.congr (mark_recent s.buf req) rfl rfl⟩
    intro del bk hmr
    rcases mark_marked hmr with hs | hmr
    · exact ⟨req, .inl (List.mem_set (List.getElem?_eq_some_iff.mp hn).1 _), hs⟩
    · obtain ⟨r, hr, hrs⟩ := h.marks hmr
      exact ⟨r, hr.imp_left fun hr => mem_set_of_mem hn hr nofun, hrs⟩
  | @send n req hn _ =>
    refine ⟨called_set hn h.called nofun, ?_, h.batch, h.moved ?_, h.loop.congr rfl rfl rfl⟩
    · intro r hr
      rcases mem_append.mp hr with hr | hr
      · exact h.inbox r hr
      · rw [mem_singleton.mp hr]
        exact h.called _ (mem_of_getElem? hn) req (mem_singleton.mpr rfl)
    · rintro r (hr | hr | hr)
      · by_cases heq : r = req
        · exact .inr (.inl (mem_append_right _ (mem_singleton.mpr heq)))
        · exact .inl (mem_set_of_mem hn hr fun hm => heq (CallPhase.marked.inj hm))
      · exact .inr (.inl (mem_append_left _ hr))
      · exact .inr (.inr hr)
  | @abandon n req hn =>
    refine ⟨called_set hn h.called nofun, h.inbox, h.batch, ?_,
      h.loop.congr (unmark_recent s.buf req) rfl rfl⟩
    intro del bk hmr
    obtain ⟨hmr, ho⟩ := unmark_marked hmr
    obtain ⟨r, hr, hrs⟩ := h.marks hmr
    -- the mark is not of the call that gives up, or it would be gone
    have hne : r ≠ req := fun heq => ho (heq ▸ hrs)
    exact ⟨r, hr.imp_left fun hr => mem_set_of_mem hn hr fun hm => hne (CallPhase.marked.inj hm),
      hrs⟩
  | @receiveFirst req rest hl hi | @receiveMore batch req rest hl _ hi =>
    have hf := h.loop
    rw [hl] at hf
    have hrc := h.receive hi hf
    rw [hl] at hrc
    exact hrc
  | @dispatch batch w hl _ =>
    have hb := h.batch
    rw [hl] at hb
    refine ⟨h.called, h.inbox, hb, h.moved ?_, rfl, hsn batch hl, w, s.content,
      fun _ hop => hop, rfl⟩
    intro r hr
    rw [InFlight, hl] at hr
    exact hr
  | @inner batch op todo failed ok hl =>
    obtain rfl : ok = true := hsn
    have hb := h.batch
    have hf := h.loop
    rw [hl] at hb hf
    obtain ⟨rfl, hu, w, c, hsub, he⟩ := hf
    refine ⟨h.called, h.inbox, hb, h.moved ?_, rfl, hu, w, c, fun _ hop => hsub (.tail _ hop), he⟩
    intro r hr
    rw [InFlight, hl] at hr
    exact hr
  | @flushed batch hl =>
    have hb := h.batch
    have hf := h.loop
    rw [hl] at hb hf
    obtain ⟨-, hu, w, c, -, he⟩ := hf
    refine ⟨h.called, h.inbox, nofun, ?_, ?_⟩
    · intro del bk hmr
      obtain ⟨hmr, ho⟩ := rotate_marked hmr
      obtain ⟨r, hr, hrs⟩ := h.marks hmr
      refine ⟨r, ?_, hrs⟩
      rcases hr with hr | hr | hr
      · exact .inl hr
      · exact .inr (.inl hr)
      · rw [hl] at hr
        exact absurd hrs (ho r hr)
    · intro bk v hv
      obtain ⟨tenant, key, ht, hk, hbk, hc⟩ := flushed_of_executed multi w s.mem c hb hu hv
      refine ⟨tenant, key, ht, hk, hbk, ?_⟩
      rw [← he] at hc
      exact hc
  | @failed batch hl =>
    have hf := h.loop
    rw [hl] at hf
    cases hf.1

/-- **The buffer never outlives the truth.** In every state at rest that a sound run reaches, a
lookup is a miss or says what the store holds. -/
theorem truthful_of_sound {content : Content Bytes} {acts : List Act}
    (hrun : GoodRun (Step multi maxBatch) Sound (.start content) acts s) (hquiet : s.Quiescent)
    (tenant key : Text) : s.Truthful tenant key := by
  have hi := hrun.invariant (I := (·.Inv multi)) (fun h hs hst => h.step hs hst)
    (inv_start multi content)
  exact hi.truthful hquiet tenant key

end Invariant

theorem marked_notMem (n m : Nat) (req : PutReq Slice) :
    CallPhase.marked req ∉ replicate n CallPhase.sent ++ replicate m CallPhase.abandoned := by
  intro h
  rcases mem_append.mp h with h | h <;> cases (mem_replicate.mp h).2

/-- A put and a delete of two tenants in one batch; while it is executed a caller fills another
buffer for a put, which gives up in the end. -/
def putRun : List Act :=
  [.fill 0 [1], .call ⟨['t'], ['k'], 0, false⟩, .call ⟨['u'], ['k'], 1, true⟩, .mark 0, .send 0,
    .mark 1, .send 1, .receive, .receive, .dispatch, .inner true, .fill 2 [3], .inner true, .finish,
    .call ⟨['u'], ['k'], 2, false⟩, .mark 2, .abandon 2]

theorem putRun_truthful : ∃ s, GoodRun (Step true 8) Sound (.start fun _ => none) putRun s
    ∧ s.Quiescent ∧ s.buf.lookup (bufferKey ['t'] ['k']) = .value 0 ∧ s.mem 0 = [1]
    ∧ s.Truthful ['t'] ['k'] ∧ s.Truthful ['u'] ['k'] := by
  have hrn : GoodRun (Step true 8) Sound (.start fun _ => none) putRun _ :=
    .cons nofun (.fill ..) <| .cons ⟨by decide, by decide⟩ (.call _) <|
    .cons ⟨by decide, by decide⟩ (.call _) <| .cons trivial (.mark rfl) <|
    .cons trivial (.send rfl (by decide)) <| .cons trivial (.mark rfl) <|
    .cons trivial (.send rfl (by decide)) <| .cons trivial (.receiveFirst rfl rfl) <|
    .cons trivial (.receiveMore rfl (by decide) rfl) <|
    .cons (fun batch hb => by cases hb; unfold Unmixed; decide)
      (.dispatch (.plain _) rfl (.inl rfl)) <|
    .cons rfl (.inner true rfl) <| .cons (by unfold Sound System.Free; decide) (.fill ..) <|
    .cons rfl (.inner true rfl) <| .cons trivial (.flushed rfl) <|
    .cons ⟨by decide, by decide⟩ (.call _) <| .cons trivial (.mark rfl) <|
    .cons trivial (.abandon rfl) (.nil _)
  refine ⟨_, hrn, ?quiet, rfl, rfl, truthful_of_sound hrn ?quiet ['t'] ['k'],
    truthful_of_sound hrn ?quiet ['u'] ['k']⟩
  exact ⟨rfl, rfl, marked_notMem 2 1⟩

/-- A put and a delete of one key in one batch: the buffer still has the value the store has
lost. -/
theorem mixed_batch_outlives : ∃ s, GoodRun (Step true 8) (fun _ _ => True) (.start fun _ => none)
      [.fill 0 [1], .call ⟨['t'], ['k'], 0, false⟩, .call ⟨['t'], ['k'], 1, true⟩, .mark 0, .send 0,
        .mark 1, .send 1, .receive, .receive, .dispatch, .inner true, .inner true, .finish] s
      ∧ s.Quiescent ∧ s.buf.lookup (bufferKey ['t'] ['k']) = .value 0 ∧ s.mem 0 = [1]
      ∧ s.content (['t'], ['k']) = none :=
  ⟨_, .cons trivial (.fill ..) <| .cons trivial (.call _) <| .cons trivial (.call _) <|
    .cons trivial (.mark rfl) <| .cons trivial (.send rfl (by decide)) <|
    .cons trivial (.mark rfl) <| .cons trivial (.send rfl (by decide)) <|
    .cons trivial (.receiveFirst rfl rfl) <| .cons trivial (.receiveMore rfl (by decide) rfl) <|
    .cons trivial (.dispatch (.plain _) rfl (.inl rfl)) <| .cons trivial (.inner true rfl) <|
    .cons trivial (.inner true rfl) <| .cons trivial (.flushed rfl) (.nil _),
    ⟨rfl, rfl, marked_notMem 2 0⟩, rfl, rfl, rfl⟩

end Rah.Datastore
