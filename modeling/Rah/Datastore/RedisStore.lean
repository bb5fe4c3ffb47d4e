import Rah.Lib.Run
import Rah.Datastore.Scoped

/-!
# The Redis store and its deduper

With an `IODeduper` the store remembers, per scoped key, the value and the TTL of the last read or
write. A `Get` of a remembered key does not ask Redis, and a `Put` of what is remembered is not
sent. The deduper has two generations; a rotation drops the older one.

A read is remembered as a write without a TTL, whether the key expires in Redis or not, and a
missing key as the nil slice, which `bytes.Equal` does not tell from an empty value. What is
remembered is the slice and not its bytes: it is the caller's own buffer after a `Put`, and the one
the caller has got after a `Get`, and a caller that writes to it changes what is remembered. These
are the places where a `Put` can be skipped that should not be (`Sound`).

Calls come one after the other, so that `singleflight` runs each read on its own.
-/

namespace Rah.Datastore

open Rah.Lib Option Function

/-! ## Keys -/

/-- `{tenant:<tenant>:<domain>}:<key>` -/
def scopedKey (tenant domain key : Text) : Except KeyError Text :=
  if trimSpace tenant = [] then .error .tenantRequired
  else if trimSpace domain = [] then .error .domainRequired
  else if trimSpace key = [] then .error .keyRequired
  else .ok ("\x7btenant:".toList ++ trimSpace tenant ++ ':' :: trimSpace domain ++ "\x7d:".toList
    ++ trimSpace key)

/-! ## The deduper -/

/-- The buffer behind a slice: one that a caller has made, or that of the n-th answer the client
has read from Redis. -/
inductive Buffer where
  | own (n : Nat)
  | answer (n : Nat)
  deriving DecidableEq, Repr

/-- What the buffers hold. -/
abbrev Memory := Buffer → Bytes

/-- The slice that is remembered; `none` is the nil slice. -/
structure IoEntry where
  val : Option Buffer
  redisTTL : Int
  deriving DecidableEq, Repr

/-- The bytes of a slice; nil has none. -/
def Memory.bytes (mem : Memory) (val : Option Buffer) : Bytes := (val.map mem).getD []

/-- `bytes.Equal`: nil is equal to the empty slice. -/
def bytesEqual (mem : Memory) (a b : Option Buffer) : Bool := mem.bytes a == mem.bytes b

/-- Two generations of entries; `prev` is nil until the first rotation. -/
structure IoShard where
  current : Text → Option IoEntry
  prev : Option (Text → Option IoEntry)

/-- An entry of this generation or of the one before. -/
def IoShard.find (sh : IoShard) (key : Text) : Option IoEntry :=
  match sh.current key with
  | some e => some e
  | none => match sh.prev with
    | some prev => prev key
    | none => none

/-- `ioDeduper`: sixteen shards. -/
structure IODeduper where
  shards : Fin 16 → IoShard

def newIODeduper : IODeduper := ⟨fun _ => ⟨fun _ => none, none⟩⟩

/-- FNV-1a over the bytes of the key, and its lowest four bits. -/
def shardFor (key : Text) : Fin 16 :=
  let h := key.foldl (fun h c => (h ^^^ c.val) * 16777619) (2166136261 : UInt32)
  ⟨(h &&& 15).toNat, Nat.lt_succ_of_le Nat.and_le_right⟩

/-- The ticker: this generation becomes the one before. -/
def IODeduper.rotate (d : IODeduper) : IODeduper :=
  ⟨fun i => ⟨fun _ => none, some (d.shards i).current⟩⟩

/-- What is remembered of a key. -/
def IODeduper.find (d : IODeduper) (key : Text) : Option IoEntry :=
  (d.shards (shardFor key)).find key

/-- A remembered read. -/
def IODeduper.get (d : IODeduper) (key : Text) : Option (Option Buffer) :=
  (d.find key).map IoEntry.val

def IODeduper.modify (d : IODeduper) (key : Text) (f : IoShard → IoShard) : IODeduper :=
  ⟨update d.shards (shardFor key) (f (d.shards (shardFor key)))⟩

/-- A value remembered; the slice is shared with the caller. -/
def IODeduper.store (d : IODeduper) (key : Text) (val : Option Buffer) (redisTTL : Int) :
    IODeduper :=
  d.modify key fun sh =>
    { sh with current := update sh.current key (some ⟨val, redisTTL⟩) }

/-- `shouldSkipWrite`: the same bytes are remembered, with the same time to live. -/
def IODeduper.shouldSkipWrite (d : IODeduper) (mem : Memory) (key : Text) (newVal : Option Buffer)
    (redisTTL : Int) : Bool :=
  match d.find key with
  | some e => e.redisTTL == redisTTL && bytesEqual mem e.val newVal
  | none => false

/-- A key forgotten in both generations. -/
def IODeduper.invalidate (d : IODeduper) (key : Text) : IODeduper :=
  d.modify key fun sh =>
    ⟨update sh.current key none, sh.prev.map fun prev => update prev key none⟩

/-! ## Redis -/

/-- A value, and the time at which it expires if it does. -/
structure RedisEntry where
  value : Bytes
  deadline : Option Int
  deriving DecidableEq, Repr

/-- The deadline has passed. -/
def RedisEntry.Expired (now : Int) (e : RedisEntry) : Prop := ∃ d ∈ e.deadline, d ≤ now

instance (now : Int) (e : RedisEntry) : Decidable (e.Expired now) :=
  inferInstanceAs (Decidable (∃ d ∈ e.deadline, d ≤ now))

/-- The server: its clock and its keys. -/
structure Redis where
  now : Int
  entries : Text → Option RedisEntry

/-- What Redis holds under a key. -/
def Redis.fetch (r : Redis) (key : Text) : Option RedisEntry :=
  (r.entries key).filter fun e => !decide (e.Expired r.now)

/-- The deadline of a value that is set with a TTL other than 0, from the time, the deadline of the
value it replaces and the TTL. -/
abbrev Expiry := Int → Option Int → Int → Option Int

/-- `SET`, with or without an expiry. -/
def Redis.set (expiry : Expiry) (r : Redis) (key : Text) (value : Bytes) (ttl : Int) : Redis :=
  { r with
    entries := update r.entries key (some ⟨value,
      if ttl = 0 then none else expiry r.now ((r.fetch key).bind RedisEntry.deadline) ttl⟩) }

def Redis.del (r : Redis) (key : Text) : Redis :=
  { r with entries := update r.entries key none }

/-! ## The store -/

inductive StoreError where
  | key (e : KeyError)
  | client
  deriving DecidableEq, Repr

/-- A store, the Redis behind it, the memory it shares with its callers, and how many answers the
client has read. The deduper is nil if no window is configured. -/
structure RedisStore where
  domain : Text
  dedup : Option IODeduper
  redis : Redis
  mem : Memory
  answers : Nat

/-- A value remembered, where the deduper is on. -/
def RedisStore.remember (s : RedisStore) (key : Text) (val : Option Buffer) (redisTTL : Int) :
    RedisStore :=
  { s with dedup := s.dedup.map fun d => d.store key val redisTTL }

/-- What the deduper remembers of a key. -/
def RedisStore.remembered (s : RedisStore) (key : Text) : Option IoEntry :=
  s.dedup.bind fun d => d.find key

/-- `Put` and `PutWithTTL`; `up` if Redis executes the command, otherwise the client reports an
error. -/
def RedisStore.write (expiry : Expiry) (s : RedisStore) (up : Bool) (tenant key : Text)
    (value : Option Buffer) (ttl : Int) : Except StoreError Unit × RedisStore :=
  match scopedKey tenant s.domain key with
  | .error e => (.error (.key e), s)
  | .ok k =>
    if s.dedup.any fun d => d.shouldSkipWrite s.mem k value ttl then (.ok (), s)
    else if up then
      (.ok (),
        { s with redis := s.redis.set expiry k (s.mem.bytes value) ttl }.remember k value ttl)
    else (.error .client, s)

def RedisStore.put (expiry : Expiry) (s : RedisStore) (up : Bool) (tenant key : Text)
    (value : Option Buffer) : Except StoreError Unit × RedisStore :=
  s.write expiry up tenant key value 0

def RedisStore.putWithTTL (expiry : Expiry) (s : RedisStore) (up : Bool) (tenant key : Text)
    (value : Option Buffer) (ttl : Int) : Except StoreError Unit × RedisStore :=
  s.write expiry up tenant key value ttl

/-- The client reads an answer into a buffer of its own. -/
def RedisStore.read (s : RedisStore) (key : Text) : Option Buffer × RedisStore :=
  match s.redis.fetch key with
  | none => (none, s)
  | some e =>
    (some (.answer s.answers),
      { s with mem := update s.mem (.answer s.answers) e.value, answers := s.answers + 1 })

/-- The value, nil if there is none, and whether it was found. -/
def RedisStore.get (s : RedisStore) (up : Bool) (tenant key : Text) :
    Except StoreError (Option Buffer × Bool) × RedisStore :=
  match scopedKey tenant s.domain key with
  | .error e => (.error (.key e), s)
  | .ok k =>
    match s.dedup.bind fun d => d.get k with
    | some val => (.ok (val, val.isSome), s)
    | none =>
      if up then
        let r := s.read k
        (.ok (r.1, r.1.isSome), r.2.remember k r.1 0)
      else (.error .client, s)

/-- `Delete`: the key is deleted and then forgotten. -/
def RedisStore.delete (s : RedisStore) (up : Bool) (tenant key : Text) :
    Except StoreError Unit × RedisStore :=
  match scopedKey tenant s.domain key with
  | .error e => (.error (.key e), s)
  | .ok k =>
    if up then
      (.ok (), { s with redis := s.redis.del k, dedup := s.dedup.map fun d => d.invalidate k })
    else (.error .client, s)

/-- A call, a caller that writes to a buffer, a rotation of the deduper, or time that passes. -/
inductive RedisAct where
  | put (up : Bool) (tenant key : Text) (value : Option Buffer)
  | putWithTTL (up : Bool) (tenant key : Text) (value : Option Buffer) (ttl : Int)
  | get (up : Bool) (tenant key : Text)
  | delete (up : Bool) (tenant key : Text)
  | fill (buf : Buffer) (bytes : Bytes)
  | rotate
  | wait (d : Nat)
  deriving DecidableEq, Repr

/-- One act of a client, of the ticker or of the clock. -/
def RedisStore.step (expiry : Expiry) (s : RedisStore) : RedisAct → RedisStore
  | .put up tenant key value => (s.put expiry up tenant key value).2
  | .putWithTTL up tenant key value ttl => (s.putWithTTL expiry up tenant key value ttl).2
  | .get up tenant key => (s.get up tenant key).2
  | .delete up tenant key => (s.delete up tenant key).2
  | .fill buf bytes => { s with mem := update s.mem buf bytes }
  | .rotate => { s with dedup := s.dedup.map IODeduper.rotate }
  | .wait d => { s with redis := { s.redis with now := s.redis.now + d } }

/-- A caller has the buffers it made and the answers it got. -/
def RedisStore.Has (s : RedisStore) (value : Option Buffer) : Prop :=
  ∀ n, value = some (.answer n) → n < s.answers

/-- What a caller hands over or writes to is a buffer it has. -/
def RedisStore.Possible (s : RedisStore) : RedisAct → Prop
  | .put _ _ _ value | .putWithTTL _ _ _ value _ => s.Has value
  | .fill buf _ => s.Has (some buf)
  | _ => True

/-- A store as `New` returns it, with or without a deduper, in front of any Redis. -/
def RedisStore.new (domain : Text) (window : Bool) (redis : Redis) : RedisStore :=
  ⟨domain, if window then some newIODeduper else none, redis, fun _ => [], 0⟩

/-! ## When a put is in Redis -/

/-- A `Get` that asks Redis does not find a value that expires, a `Put` of an empty value does not
meet a remembered miss of a key that Redis does not hold, and a caller does not change the bytes of
a slice that is remembered without a TTL. -/
def RedisStore.Sound (s : RedisStore) : RedisAct → Prop
  | .get up tenant key => up = true → ∀ k, scopedKey tenant s.domain key = .ok k →
      s.remembered k = none → ∀ e ∈ s.redis.fetch k, e.deadline = none
  | .put _ tenant key value => ∀ k, scopedKey tenant s.domain key = .ok k →
      s.mem.bytes value = [] → s.remembered k = some ⟨none, 0⟩ → s.redis.fetch k ≠ none
  | .fill buf bytes => ∀ k, s.remembered k = some ⟨some buf, 0⟩ → bytes = s.mem buf
  | _ => True

/-- What is remembered without a TTL is what Redis holds for good. Only a miss can be remembered of
a key that is not there. -/
def RedisStore.Holds (s : RedisStore) (k : Text) (val : Option Buffer) : Prop :=
  s.redis.fetch k = some ⟨s.mem.bytes val, none⟩ ∨ val = none ∧ s.redis.fetch k = none

/-- The invariant: this is so for all that is remembered, and no answer is remembered before it
has been read. -/
structure RedisStore.Fits (s : RedisStore) : Prop where
  holds : ∀ k val, s.remembered k = some ⟨val, 0⟩ → s.Holds k val
  made : ∀ k n ttl, s.remembered k = some ⟨some (.answer n), ttl⟩ → n < s.answers

/-! ### The deduper -/

section Deduper

variable {d : IODeduper} {mem : Memory} {key key' : Text} {val value : Option Buffer} {ttl : Int}

theorem IODeduper.modify_shards : (d.modify key f).shards
      = update d.shards (shardFor key) (f (d.shards (shardFor key))) := rfl

theorem IODeduper.find_modify_of_find (hf : ∀ sh, (f sh).find key' = sh.find key') :
    (d.modify key f).find key' = d.find key' := by
  unfold IODeduper.find
  by_cases hs : shardFor key' = shardFor key
  · rw [hs, IODeduper.modify_shards, update_self]
    exact hf _
  · rw [IODeduper.modify_shards, update_of_ne hs]

theorem IODeduper.find_modify_self :
    (d.modify key f).find key = (f (d.shards (shardFor key))).find key := by
  unfold IODeduper.find
  rw [IODeduper.modify_shards, update_self]

theorem IODeduper.find_store_self : (d.store key val ttl).find key = some ⟨val, ttl⟩ := by
  rw [IODeduper.store, IODeduper.find_modify_self]
  unfold IoShard.find
  simp only [update_self]

theorem IODeduper.find_store_of_ne (hne : key' ≠ key) :
    (d.store key val ttl).find key' = d.find key' := by
  refine IODeduper.find_modify_of_find fun sh => ?_
  unfold IoShard.find
  simp only [update_of_ne hne]

theorem IODeduper.find_invalidate_self : (d.invalidate key).find key = none := by
  rw [IODeduper.invalidate, IODeduper.find_modify_self]
  unfold IoShard.find
  cases (d.shards (shardFor key)).prev with
  | none => simp only [update_self, map_none]
  | some prev => simp only [update_self, map_some]

theorem IODeduper.find_invalidate_of_ne (hne : key' ≠ key) :
    (d.invalidate key).find key' = d.find key' := by
  refine IODeduper.find_modify_of_find fun sh => ?_
  unfold IoShard.find
  cases sh.prev with
  | none => simp only [update_of_ne hne, map_none]
  | some prev => simp only [update_of_ne hne, map_some]

/-- A rotation forgets, and brings nothing back: what was in the older generation is gone, what it
hid as well. -/
theorem IODeduper.find_of_rotate (h : d.rotate.find key = some e) : d.find key = some e := by
  have hc : (d.shards (shardFor key)).current key = some e := h
  unfold IODeduper.find IoShard.find
  rw [hc]

theorem IODeduper.shouldSkipWrite_iff : d.shouldSkipWrite mem key value ttl = true
      ↔ ∃ old, d.find key = some ⟨old, ttl⟩ ∧ mem.bytes old = mem.bytes value := by
  unfold IODeduper.shouldSkipWrite
  cases hf : d.find key with
  | none =>
    constructor
    · nofun
    · rintro ⟨old, h, -⟩
      cases h
  | some e =>
  simp only [Bool.and_eq_true, beq_iff_eq, bytesEqual]
  constructor
  · rintro ⟨rfl, hv⟩
    exact ⟨e.val, rfl, hv⟩
  · rintro ⟨old, h, hv⟩
    cases h
    exact ⟨rfl, hv⟩

end Deduper

/-! ### Redis -/

section Entries

variable {expiry : Expiry} {r : Redis} {key key' : Text} {value : Bytes} {ttl : Int}

theorem Redis.fetch_set_permanent : (r.set expiry key value 0).fetch key = some ⟨value, none⟩ := by
  refine filter_eq_some_iff.mpr ⟨update_self .., ?_⟩
  have hn : ¬ RedisEntry.Expired r.now ⟨value, none⟩ := fun ⟨d, hd, _⟩ => by cases hd
  simp only [Redis.set, hn, decide_false, Bool.not_false]

theorem Redis.fetch_set_of_ne (hne : key' ≠ key) :
    (r.set expiry key value ttl).fetch key' = r.fetch key' :=
  congrArg (Option.filter _) (update_of_ne hne ..)

theorem Redis.fetch_del_of_ne (hne : key' ≠ key) : (r.del key).fetch key' = r.fetch key' :=
  congrArg (Option.filter _) (update_of_ne hne ..)

/-- A value without a deadline stays. -/
theorem Redis.fetch_permanent_iff {now : Int} : r.fetch key = some ⟨value, none⟩
      ↔ ({ r with now := now } : Redis).fetch key = some ⟨value, none⟩ := by
  have hn (n : Int) : ¬ RedisEntry.Expired n ⟨value, none⟩ := fun ⟨d, hd, _⟩ => by cases hd
  unfold Redis.fetch
  simp only [filter_eq_some_iff, hn]

/-- What is not there does not come back by waiting. -/
theorem Redis.fetch_wait_none {d : Nat} (h : r.fetch key = none) :
    ({ r with now := r.now + d } : Redis).fetch key = none := by
  unfold Redis.fetch at h ⊢
  cases hen : r.entries key with
  | none => rfl
  | some e =>
  rw [hen] at h
  have he : e.Expired r.now := by
    by_contra hn
    simp [Option.filter, hn] at h
  obtain ⟨deadline, hd, hle⟩ := he
  have hs : e.Expired (r.now + d) := ⟨deadline, hd, by omega⟩
  simp [Option.filter, hs]

end Entries

/-! ### Steps -/

section Steps

variable {expiry : Expiry} {s : RedisStore} {up : Bool} {tenant key k : Text}
  {value : Option Buffer} {ttl : Int}

theorem RedisStore.remembered_remember_of_ne (hne : k' ≠ k) :
    (s.remember k value ttl).remembered k' = s.remembered k' := by
  unfold RedisStore.remember RedisStore.remembered
  cases s.dedup with
  | none => rfl
  | some d => exact IODeduper.find_store_of_ne hne

theorem RedisStore.eq_of_remembered_remember (h : (s.remember k value ttl).remembered k = some e) :
    e = ⟨value, ttl⟩ := by
  unfold RedisStore.remember RedisStore.remembered at h
  cases hd : s.dedup with
  | none =>
    rw [hd] at h
    cases h
  | some d =>
  rw [hd] at h
  have hf : (d.store k value ttl).find k = some e := h
  rw [IODeduper.find_store_self] at hf
  exact (some.inj hf).symm

/-- A write is skipped if the same value and TTL are remembered. -/
theorem RedisStore.skips_iff : (s.dedup.any fun d => d.shouldSkipWrite s.mem k value ttl) = true
      ↔ ∃ old, s.remembered k = some ⟨old, ttl⟩ ∧ s.mem.bytes old = s.mem.bytes value := by
  unfold RedisStore.remembered
  cases s.dedup with
  | none =>
    constructor
    · nofun
    · rintro ⟨old, h, -⟩
      cases h
  | some d => exact IODeduper.shouldSkipWrite_iff

/-- A write fails, is skipped, or is sent and remembered. -/
theorem RedisStore.write_cases (s : RedisStore) (expiry : Expiry) (up : Bool) (tenant key : Text)
    (value : Option Buffer) (ttl : Int) :
    (∃ e, s.write expiry up tenant key value ttl = (.error e, s))
      ∨ ∃ k, scopedKey tenant s.domain key = .ok k
        ∧ (s.write expiry up tenant key value ttl = (.ok (), s)
            ∧ (∃ old, s.remembered k = some ⟨old, ttl⟩ ∧ s.mem.bytes old = s.mem.bytes value)
          ∨ s.write expiry up tenant key value ttl = (.ok (), { s with
              redis := s.redis.set expiry k (s.mem.bytes value) ttl }.remember k value ttl)) := by
  unfold RedisStore.write
  cases scopedKey tenant s.domain key with
  | error e => exact .inl ⟨_, rfl⟩
  | ok k =>
  by_cases hs : (s.dedup.any fun d => d.shouldSkipWrite s.mem k value ttl) = true
  · exact .inr ⟨k, rfl, .inl ⟨by simp only [hs, if_true], RedisStore.skips_iff.mp hs⟩⟩
  simp only [hs]
  cases up with
  | true => exact .inr ⟨k, rfl, .inr rfl⟩
  | false => exact .inl ⟨_, rfl⟩

/-- What is remembered of a key fits, when Redis has changed for that key at most. -/
theorem RedisStore.Fits.remember {r : Redis} (h : s.Fits)
    (hr : ∀ k', k' ≠ k → r.fetch k' = s.redis.fetch k')
    (hk : ttl = 0 → RedisStore.Holds { s with redis := r } k value)
    (hm : s.Has value) :
    RedisStore.Fits ({ s with redis := r }.remember k value ttl) := by
  constructor
  · intro k' val hv
    by_cases hne : k' = k
    · subst hne
      cases RedisStore.eq_of_remembered_remember hv
      exact hk rfl
    · rw [RedisStore.remembered_remember_of_ne hne] at hv
      have hh := h.holds k' val hv
      rw [Holds, ← hr k' hne] at hh
      exact hh
  · intro k' n ttl' hv
    by_cases hne : k' = k
    · subst hne
      cases RedisStore.eq_of_remembered_remember hv
      exact hm n rfl
    · rw [RedisStore.remembered_remember_of_ne hne] at hv
      exact h.made k' n ttl' hv

theorem RedisStore.Fits.write (h : s.Fits) (hm : s.Has value) :
    (s.write expiry up tenant key value ttl).2.Fits := by
  rcases s.write_cases expiry up tenant key value ttl with
    ⟨e, hs⟩ | ⟨k, -, ⟨hs, -⟩ | hs⟩ <;> rw [hs]
  · exact h
  · exact h
  · refine h.remember (fun _ hne => Redis.fetch_set_of_ne hne) (fun ht => .inl ?_) hm
    subst ht
    exact Redis.fetch_set_permanent

/-- A read changes nothing, or it asks Redis and remembers what that holds. -/
theorem RedisStore.get_cases (s : RedisStore) (up : Bool) (tenant key : Text) :
    (s.get up tenant key).2 = s
      ∨ ∃ k, up = true ∧ scopedKey tenant s.domain key = .ok k ∧ s.remembered k = none
        ∧ (s.get up tenant key).2 = (s.read k).2.remember k (s.read k).1 0 := by
  unfold RedisStore.get
  cases hk : scopedKey tenant s.domain key with
  | error e => exact .inl rfl
  | ok k =>
  have hg : (s.dedup.bind fun d => d.get k) = (s.remembered k).map IoEntry.val := by
    unfold RedisStore.remembered
    cases s.dedup with
    | none | some d => rfl
  cases hr : s.remembered k with
  | some e =>
    left
    simp only [hg, hr, map_some]
  | none =>
  simp only [hg, hr]
  cases up with
  | false => exact .inl rfl
  | true => exact .inr ⟨k, rfl, rfl, hr, rfl⟩

theorem Memory.bytes_update {mem : Memory} {bytes : Bytes}
    (h : ∀ buf', value = some buf' → buf' = buf →
    bytes = mem buf) : Memory.bytes (update mem buf bytes) value = mem.bytes value := by
  cases value with
  | none => rfl
  | some buf' =>
    by_cases hb : buf' = buf
    · subst hb
      exact (update_self ..).trans (h buf' rfl rfl)
    · exact update_of_ne hb ..

/-- Buffers change whose slices are not remembered without a TTL, or to what they hold. -/
theorem RedisStore.Fits.update_mem (bytes : Bytes) {answers : Nat} (h : s.Fits)
    (hle : s.answers ≤ answers)
    (hf : ∀ k, s.remembered k = some ⟨some buf, 0⟩ → bytes = s.mem buf) :
    RedisStore.Fits { s with mem := update s.mem buf bytes, answers := answers } where
  holds k val hv := by
    rw [Holds, Memory.bytes_update fun buf' hval hb => ?_]
    · exact h.holds k val hv
    · subst hval hb
      exact hf k hv
  made k n ttl hv := lt_of_lt_of_le (h.made k n ttl hv) hle

/-- **The step lemma of a read.** An answer is in a buffer that was not remembered before. -/
theorem RedisStore.Fits.get (h : s.Fits) (hsn : s.Sound (.get up tenant key)) :
    (s.get up tenant key).2.Fits := by
  rcases s.get_cases up tenant key with hs | ⟨k, hup, hky, hf, hg⟩
  · rwa [hs]
  rw [hg, RedisStore.read]
  cases hft : s.redis.fetch k with
  | none => exact h.remember (fun _ _ => rfl) (fun _ => .inr ⟨rfl, hft⟩) nofun
  | some e =>
    have hp : e.deadline = none := hsn hup k hky hf e hft
    have hmem := h.update_mem e.value (Nat.le_succ s.answers) fun k' hk' =>
      absurd (h.made k' s.answers 0 hk') (lt_irrefl _)
    refine hmem.remember (fun _ _ => rfl) (fun _ => .inl ?_) ?_
    · have hb : Memory.bytes (update s.mem (.answer s.answers) e.value)
          (some (.answer s.answers)) = e.value := update_self ..
      rw [hb, ← hp]
      exact hft
    · rintro n hn
      cases hn
      exact Nat.lt_succ_self _

theorem RedisStore.Fits.mono {s' : RedisStore} (h : s.Fits)
    (hr : ∀ k e, s'.remembered k = some e → s.remembered k = some e)
    (ha : s'.answers = s.answers)
    (hf : ∀ k, (s'.remembered k).isSome → ∀ val, s.Holds k val → s'.Holds k val) : s'.Fits where
  holds k val hv := hf k (by rw [hv]; rfl) val (h.holds k val (hr k _ hv))
  made k n ttl hv := ha ▸ h.made k n ttl (hr k _ hv)

theorem RedisStore.Fits.delete (h : s.Fits) : (s.delete up tenant key).2.Fits := by
  unfold RedisStore.delete
  cases hky : scopedKey tenant s.domain key with
  | error e => exact h
  | ok k =>
  cases up with
  | false => exact h
  | true =>
  cases hd : s.dedup with
  | none => exact ⟨nofun, nofun⟩
  | some d =>
  have hfind (k') (e) (hv : (d.invalidate k).find k' = some e) : k' ≠ k ∧ d.find k' = some e := by
    by_cases hk : k' = k
    · rw [hk, IODeduper.find_invalidate_self] at hv
      cases hv
    · rw [IODeduper.find_invalidate_of_ne hk] at hv
      exact ⟨hk, hv⟩
  refine h.mono (fun k' e hv => ?_) rfl fun k' hv val hh => ?_
  · rw [RedisStore.remembered, hd]
    exact (hfind k' e hv).2
  · obtain ⟨e, he⟩ := Option.isSome_iff_exists.mp hv
    have hft : (s.redis.del k).fetch k' = s.redis.fetch k' :=
      Redis.fetch_del_of_ne (hfind k' e he).1
    rw [Holds, ← hft] at hh
    exact hh

theorem RedisStore.Fits.rotate (h : s.Fits) :
    RedisStore.Fits { s with dedup := s.dedup.map IODeduper.rotate } := by
  refine h.mono (fun k e hv => ?_) rfl fun _ _ _ hh => hh
  unfold RedisStore.remembered at hv ⊢
  cases hd : s.dedup with
  | none =>
    rw [hd] at hv
    cases hv
  | some d =>
    rw [hd] at hv
    exact IODeduper.find_of_rotate hv

theorem RedisStore.Fits.wait (h : s.Fits) (d : Nat) :
    RedisStore.Fits { s with redis := { s.redis with now := s.redis.now + d } } := by
  refine h.mono (fun _ _ hv => hv) rfl fun k _ val hh => ?_
  rcases hh with hf | ⟨hn, hf⟩
  · exact .inl (Redis.fetch_permanent_iff.mp hf)
  · exact .inr ⟨hn, Redis.fetch_wait_none hf⟩

/-- **The step lemma.** -/
theorem RedisStore.Fits.step (h : s.Fits) (hp : s.Possible a) (hs : s.Sound a) :
    (s.step expiry a).Fits := by
  cases a with
  | put up tenant key value | putWithTTL up tenant key value ttl => exact h.write hp
  | get up tenant key => exact h.get hs
  | delete up tenant key => exact h.delete
  | fill buf bytes => exact h.update_mem bytes le_rfl hs
  | rotate => exact h.rotate
  | wait d => exact h.wait d

theorem RedisStore.fits_new (domain : Text) (window : Bool) (redis : Redis) :
    (RedisStore.new domain window redis).Fits := by
  cases window with
  | false => exact ⟨nofun, nofun⟩
  | true => exact ⟨nofun, nofun⟩

/-- A put that succeeds was sent, or what is remembered is in Redis. -/
theorem RedisStore.Fits.fetch_of_put (h : s.Fits) (hsn : s.Sound (.put up tenant key value))
    (hp : s.put expiry up tenant key value = (.ok (), s')) :
    ∃ k, scopedKey tenant s.domain key = .ok k
      ∧ s'.redis.fetch k = some ⟨s.mem.bytes value, none⟩ := by
  unfold RedisStore.put at hp
  rcases s.write_cases expiry up tenant key value 0 with
    ⟨e, hs⟩ | ⟨k, hk, ⟨hs, old, ho, hv⟩ | hs⟩ <;> rw [hs] at hp <;> cases hp
  · refine ⟨k, hk, ?_⟩
    rcases h.holds k old ho with hf | ⟨hn, hf⟩
    · rw [hf, hv]
    · subst hn
      exact absurd hf (hsn k hk hv.symm ho)
  · exact ⟨k, hk, Redis.fetch_set_permanent⟩

end Steps

/-- **A successful put is in Redis.** In every history whose steps are sound, right after a sound
`Put` that returns nil Redis holds the value for good. -/
theorem put_fetch_of_sound (expiry : Expiry) (domain : Text) (window : Bool) (redis : Redis)
    {acts : List RedisAct} {s s' : RedisStore}
    (hrun : GoodRun (fun s a s' => s.Possible a ∧ s.step expiry a = s') RedisStore.Sound
      (RedisStore.new domain window redis) acts s)
    {up : Bool} {tenant key : Text} {value : Option Buffer}
    (hsound : s.Sound (.put up tenant key value))
    (hput : s.put expiry up tenant key value = (.ok (), s')) :
    ∃ k, scopedKey tenant s.domain key = .ok k
      ∧ s'.redis.fetch k = some ⟨s.mem.bytes value, none⟩ := by
  have hf : s.Fits := hrun.invariant (fun h hg hs => hs.2 ▸ h.step hs.1 hg)
    (RedisStore.fits_new domain window redis)
  exact hf.fetch_of_put hsound hput

/-- What expires `ttl` after it is set. -/
def afterTTL : Expiry := fun now _ ttl => some (now + ttl)

def emptyRedis : Redis := ⟨0, fun _ => none⟩

def redisRun (acts : List RedisAct) : RedisStore :=
  acts.foldl (RedisStore.step afterTTL) (RedisStore.new ['d'] true emptyRedis)

/-- A value is put from a buffer that is filled again afterwards, read after two rotations, and put
again from another buffer. -/
def reput : List RedisAct :=
  [.fill (.own 0) [1], .put true ['t'] ['k'] (some (.own 0)), .rotate, .rotate, .fill (.own 0) [2],
    .fill (.own 1) [1], .get true ['t'] ['k']]

/-- A put, a read that asks Redis after two rotations, and the same put again. -/
theorem reput_fetch : ∃ s' k,
    (redisRun reput).put afterTTL true ['t'] ['k'] (some (.own 1)) = (.ok (), s')
      ∧ scopedKey ['t'] ['d'] ['k'] = .ok k ∧ s'.redis.fetch k = some ⟨[1], none⟩ := by
  have hr : GoodRun (fun s a s' => s.Possible a ∧ s.step afterTTL a = s') RedisStore.Sound
      (RedisStore.new ['d'] true emptyRedis) reput (redisRun reput) := by
    refine .cons nofun ⟨nofun, rfl⟩ (.cons nofun ⟨nofun, rfl⟩ (.cons trivial ⟨trivial, rfl⟩
      (.cons trivial ⟨trivial, rfl⟩ (.cons nofun ⟨nofun, rfl⟩ (.cons nofun ⟨nofun, rfl⟩
      (.cons ?_ ⟨trivial, rfl⟩ (.nil _)))))))
    intro _ k hk _ e he
    cases hk
    cases he
    rfl
  have hs : (redisRun reput).Sound (.put true ['t'] ['k'] (some (.own 1))) := nofun
  obtain ⟨k, hky, hf⟩ := put_fetch_of_sound afterTTL ['d'] true emptyRedis hr hs rfl
  exact ⟨_, k, rfl, hky, hf⟩

/-- A value is put for a minute. The deduper forgets it, a `Get` remembers it as one without a TTL,
and the `Put` of the same value is skipped: it still expires. -/
theorem skipped_put_expires :
    ∃ s' k, (redisRun [.fill (.own 0) [1], .putWithTTL true ['t'] ['k'] (some (.own 0)) 60, .rotate,
        .rotate, .get true ['t'] ['k']]).put afterTTL true ['t'] ['k'] (some (.own 0))
          = (.ok (), s')
      ∧ scopedKey ['t'] ['d'] ['k'] = .ok k ∧ s'.redis.fetch k = some ⟨[1], some 60⟩ :=
  ⟨_, _, rfl, rfl, rfl⟩

-- An empty value is taken for the miss that is remembered.
example : ∃ s' k, (redisRun [.get true ['t'] ['k']]).put afterTTL true ['t'] ['k'] (some (.own 0))
      = (.ok (), s')
    ∧ scopedKey ['t'] ['d'] ['k'] = .ok k ∧ s'.redis.fetch k = none :=
  ⟨_, _, rfl, rfl, rfl⟩

-- A buffer is filled again after its put: its second put is compared with itself and skipped.
example : ∃ s' k, (redisRun [.fill (.own 0) [1], .put true ['t'] ['k'] (some (.own 0)),
      .fill (.own 0) [2]]).put afterTTL true ['t'] ['k'] (some (.own 0)) = (.ok (), s')
    ∧ scopedKey ['t'] ['d'] ['k'] = .ok k ∧ s'.redis.fetch k = some ⟨[1], none⟩ :=
  ⟨_, _, rfl, rfl, rfl⟩

end Rah.Datastore
