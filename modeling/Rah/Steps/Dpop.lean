import Rah.Lib.Run
import Rah.Steps.Context

/-!
# DPoP proofs and their replay marks

`validate_dpop` checks a proof token and leaves a mark under its `jti` for `MaxAgeSec + 5` seconds;
while the mark can be read the proof is a replay. A proof is timely from `MaxAgeSec` before to
`MaxAgeSec` after its `iat`, twice as long, so that the mark of a proof from the future is gone
before the proof is too old. `Spent` says when it is not.

Decoding, JSON, signatures and hashes are those of a `Jose`.
-/

namespace Rah.Steps

open Rah.Lib Rah.Datastore Int64 Function

/-! ## Proofs -/

/-- The decoded header of a proof; `jwk` is the text of the key it carries. -/
structure DpopProofHeader where
  typ : Text
  alg : Text
  jwk : Text
  deriving DecidableEq

/-- The decoded claims of a proof. -/
structure DpopProofClaims where
  jti : Text
  htm : Text
  htu : Text
  iat : Int64
  ath : Text
  deriving DecidableEq

/-- What the step calls to decode and to verify; `none` is an error. -/
structure Jose (Key : Type) where
  decodeSegment : Text → Option Text
  parseHeader : Text → Option DpopProofHeader
  parseClaims : Text → Option DpopProofClaims
  isSupportedAlg : Text → Bool
  parseEmbeddedJWK : Text → Option Key
  verifyJWTSignature : Text → Text → Text → Key → Bool
  accessTokenHash : Text → Text
  extractCNFJkt : Text → Option Text
  thumbprint : Key → Option Text
  equalFold : Text → Text → Bool

structure DPoPConfig where
  dpopHeader : Text
  maxAgeSec : Int64
  matchQuery : Bool
  requireATH : Bool
  checkCNFJKT : Bool
  onFailureStatus : Int
  onFailureBody : Text
  continueOnFailure : Bool

/-- Indexes into the byte slots; negative ones are not used. -/
structure DPoPSlots where
  accessToken : Int
  result : Int
  cnfJkt : Int

/-- The text before the first dot and the text after it. The first is not empty. -/
def cutSegment (token : Text) : Option (Text × Text) :=
  match token.takeWhile (· ≠ '.'), token.dropWhile (· ≠ '.') with
  | [], _ => none
  | _, [] => none
  | seg, _ :: rest => some (seg, rest)

/-- The decoded header and claims, the input of the signature, and the signature. -/
def splitJWT (decode : Text → Option Text) (token : Text) : Option (Text × Text × Text × Text) := do
  let (header, rest) ← cutSegment token
  let (claims, sigB64) ← cutSegment rest
  let hBytes ← decode header
  let cBytes ← decode claims
  return (hBytes, cBytes, header ++ '.' :: claims, sigB64)

/-- The URI the proof has to name. -/
def requestURI (r : Request) (matchQuery : Bool) : Text :=
  let scheme := if r.tls then "https".toList else "http".toList
  let host := if r.host = [] then r.urlHost else r.host
  let base := scheme ++ "://".toList ++ host ++ r.path
  if matchQuery && r.rawQuery ≠ [] then base ++ '?' :: r.rawQuery else base

def trimRightSlashes (t : Text) : Text := (t.reverse.dropWhile (· = '/')).reverse

/-- The claim and the request's URI, without fragment and trailing slashes. -/
def htuMatches (htu reqURI : Text) : Bool :=
  trimRightSlashes (htu.takeWhile (· ≠ '#')) == trimRightSlashes reqURI

/-- The checks up to `htu`, in their order. -/
def checkProof {Key : Type} (jose : Jose Key) (cfg : DPoPConfig) (ctx : Context) :
    Option (DpopProofClaims × Key) := do
  let request ← ctx.request
  let proofToken := trimSpace (request.header cfg.dpopHeader)
  guard (proofToken ≠ [])
  let (hBytes, cBytes, signingInput, sigB64) ← splitJWT jose.decodeSegment proofToken
  let proofHdr ← jose.parseHeader hBytes
  guard (jose.equalFold proofHdr.typ "dpop+jwt".toList)
  guard (jose.isSupportedAlg proofHdr.alg)
  let proofPub ← jose.parseEmbeddedJWK proofHdr.jwk
  let sigBytes ← jose.decodeSegment sigB64
  guard (jose.verifyJWTSignature proofHdr.alg signingInput sigBytes proofPub)
  let claims ← jose.parseClaims cBytes
  guard (claims.jti ≠ [])
  guard (jose.equalFold claims.htm request.method)
  guard (htuMatches claims.htu (requestURI request cfg.matchQuery))
  return (claims, proofPub)

/-! ## Time and marks -/

/-- A time of the clock in nanoseconds, after 1970 and with a Unix time that is an `int64`. -/
structure Instant where
  ns : Nat
  fits : ns / 1000000000 < 9223372036854775808

def Instant.second (t : Instant) : Int := (t.ns / 1000000000 : Nat)

def Instant.unix (t : Instant) : Int64 := ofInt t.second

/-- The check of `iat`: the age, whichever sign it has, is at most the largest. -/
def timely (maxAgeSec iat now : Int64) : Bool :=
  let age := now - iat
  let age := if age < 0 then -age else age
  !decide (maxAgeSec < age)

/-- A store of marks by tenant and key. A mark can be read until its deadline, one without a
deadline forever. `expiring` if it has `PutWithTTL`. -/
structure ReplayStore where
  expiring : Bool
  marks : Text × Text → Option (Option Int)

/-- Whether a mark is still alive. -/
def ReplayStore.found (st : ReplayStore) (now : Instant) (k : Text × Text) : Bool :=
  match st.marks k with
  | none => false
  | some none => true
  | some (some deadline) => decide ((now.ns : Int) < deadline)

/-- A mark with its time to live. -/
def ReplayStore.mark (st : ReplayStore) (now : Instant) (ttl : Int64) (k : Text × Text) :
    ReplayStore :=
  { st with
    marks := update st.marks k
      (some (if st.expiring then some (now.ns + ttl.toInt) else none)) }

/-- The key a proof's id is marked under. -/
def jtiKey (tenant jti : Text) : Text × Text := (tenant, "jti:".toList ++ jti)

/-- The TTL of a mark, in nanoseconds. -/
def markTTL (maxAgeSec : Int64) : Int64 := (maxAgeSec + 5) * 1000000000

/-- `none` for a replay. Without a store nothing is checked. -/
def replayCheck (cfg : DPoPConfig) (store : Option ReplayStore) (now : Instant)
    (tenant jti : Text) :
    Option (Option ReplayStore) :=
  match store with
  | none => some none
  | some st =>
    if st.found now (jtiKey tenant jti) then none
    else some (some (st.mark now (markTTL cfg.maxAgeSec) (jtiKey tenant jti)))

/-! ## The step -/

/-- What the step does to the plan and the response. `accepted` if the proof is. -/
structure Outcome where
  accepted : Bool
  stopped : Bool
  byteSlots : List Text
  response : Option (Int × Text)

/-- A failed check ends the request, unless the step is told to go on. -/
def stopFail (slots : DPoPSlots) (cfg : DPoPConfig) (ctx : Context) : Outcome :=
  if cfg.continueOnFailure then
    ⟨false, false, setSlot ctx.byteSlots slots.result "false".toList, none⟩
  else ⟨false, true, ctx.byteSlots, some (cfg.onFailureStatus, cfg.onFailureBody)⟩

section Step

variable {Key : Type} (jose : Jose Key) (slots : DPoPSlots) (cfg : DPoPConfig)

/-- The proof is bound to the access token, where there is one. -/
def athMatches (ctx : Context) (claims : DpopProofClaims) : Bool :=
  match slotAt ctx.byteSlots slots.accessToken with
  | none => true
  | some rawToken =>
    if rawToken = [] then true
    else if claims.ath = [] then !cfg.requireATH
    else claims.ath == jose.accessTokenHash rawToken

/-- The access token is bound to the proof's key, where that is checked. -/
def cnfMatches (ctx : Context) (proofPub : Key) : Bool :=
  if cfg.checkCNFJKT then
    match (slotAt ctx.byteSlots slots.accessToken).bind jose.extractCNFJkt with
    | none => true
    | some jkt => if jkt = [] then true else jose.thumbprint proofPub == some jkt
  else true

def succeed (ctx : Context) (proofPub : Key) : Outcome :=
  let byteSlots := setSlot ctx.byteSlots slots.result "true".toList
  ⟨true, false,
    match jose.thumbprint proofPub with
    | some thumbprint => setSlot byteSlots slots.cnfJkt thumbprint
    | none => byteSlots,
    none⟩

/-- The mark is left before the access token is looked at. -/
def validateDPoP (store : Option ReplayStore) (now : Instant) (ctx : Context) :
    Outcome × Option ReplayStore :=
  match checkProof jose cfg ctx with
  | none => (stopFail slots cfg ctx, store)
  | some (claims, proofPub) =>
    if timely cfg.maxAgeSec claims.iat now.unix then
      match replayCheck cfg store now ctx.tenantKey claims.jti with
      | none => (stopFail slots cfg ctx, store)
      | some store' =>
        if athMatches jose slots cfg ctx claims && cnfMatches jose slots cfg ctx proofPub then
          (succeed jose slots ctx proofPub, store')
        else (stopFail slots cfg ctx, store')
    else (stopFail slots cfg ctx, store)

/-! ## Series of executions -/

/-- The store and the time of the last execution. -/
structure Series where
  store : Option ReplayStore
  clock : Instant

/-- An execution, not before the last one. -/
inductive Series.Step : Series → Instant × Context → Series → Prop where
  | exec {s : Series} {now : Instant} {ctx : Context} : s.clock.ns ≤ now.ns →
      Series.Step s (now, ctx) ⟨(validateDPoP jose slots cfg s.store now ctx).2, now⟩

/-- The same proof is presented for the same tenant. -/
def Presents (ctx : Context) (tenant jti : Text) (iat : Int64) : Prop :=
  ctx.tenantKey = tenant
    ∧ ∃ claims proofPub, checkProof jose cfg ctx = some (claims, proofPub)
      ∧ claims.jti = jti ∧ claims.iat = iat

/-- After any further executions the proof is not accepted. -/
def NeverAccepted (s : Series) (tenant jti : Text) (iat : Int64) : Prop :=
  ∀ executions s', GoodRun (Series.Step jose slots cfg) (fun _ _ => True) s executions s' →
    ∀ now ctx, s'.clock.ns ≤ now.ns → Presents jose cfg ctx tenant jti iat →
      (validateDPoP jose slots cfg s'.store now ctx).1.accepted = false

end Step

/-- The first second in which a proof that is accepted can come again with its mark expired. -/
def reopens (maxAgeSec : Int64) (first : Instant) : Int :=
  max first.second ((first.ns + ((maxAgeSec + 5) * 1000000000).toInt) / 1000000000)

/-- From then on the proof is too old. Its age must not pass the range of `int64` either: it would
come out as its own negation, or as a small one. -/
def Spent (maxAgeSec iat : Int64) (first : Instant) : Prop :=
  9223372036854775808 ≤ reopens maxAgeSec first
    ∨ iat.toInt + maxAgeSec.toInt < reopens maxAgeSec first
      ∧ (iat.toInt < 0 → iat.toInt + 9223372036854775808 < reopens maxAgeSec first)
      ∧ maxAgeSec.toInt ≤ iat.toInt + 9223372036854775808

instance (maxAgeSec iat : Int64) (first : Instant) : Decidable (Spent maxAgeSec iat first) :=
  inferInstanceAs (Decidable (_ ∨ _))

/-! ### The window of a proof -/

section Window

variable {maxAgeSec iat : Int64} {t first : Instant}

theorem Instant.second_bounds (t : Instant) :
    0 ≤ t.second ∧ t.second < 9223372036854775808 ∧ t.second * 1000000000 ≤ t.ns
      ∧ (t.ns : Int) < (t.second + 1) * 1000000000 := by
  have := t.fits
  unfold Instant.second
  omega

theorem Instant.toInt_unix (t : Instant) : t.unix.toInt = t.second := by
  obtain ⟨hp, hlt, -⟩ := t.second_bounds
  have hs : size = 18446744073709551616 := rfl
  rw [Instant.unix, toInt_ofInt]
  exact Int.bmod_eq_of_le (by omega) (by omega)

/-- The seconds of a proof: about its `iat`, and where the age passes the range of `int64`. -/
theorem timely_iff (ha : 0 ≤ maxAgeSec.toInt) : timely maxAgeSec iat t.unix = true
      ↔ -maxAgeSec.toInt ≤ t.second - iat.toInt ∧ t.second - iat.toInt ≤ maxAgeSec.toInt
        ∨ t.second - iat.toInt = 9223372036854775808
        ∨ 18446744073709551616 - maxAgeSec.toInt ≤ t.second - iat.toInt := by
  obtain ⟨hp, hlt, -⟩ := t.second_bounds
  have hi := iat.le_toInt
  have hiat' := iat.toInt_lt
  have hs : (t.unix - iat).toInt = Int.bmod (t.second - iat.toInt) 18446744073709551616 := by
    rw [toInt_sub, t.toInt_unix]
  have hn : t.unix - iat < 0 ↔ Int.bmod (t.second - iat.toInt) 18446744073709551616 < 0 := by
    rw [lt_iff_toInt_lt, hs, toInt_zero]
  unfold timely
  rw [Bool.not_eq_true', decide_eq_false_iff_not]
  by_cases h : Int.bmod (t.second - iat.toInt) 18446744073709551616 < 0
  · rw [if_pos (hn.mpr h), lt_iff_toInt_lt, toInt_neg, hs]
    simp only [Int.bmod_def] at h ⊢
    omega
  · rw [if_neg (fun hlt => h (hn.mp hlt)), lt_iff_toInt_lt, hs]
    simp only [Int.bmod_def] at h ⊢
    omega

/-- The times after the mark has expired are those of the seconds from `reopens` on. -/
theorem reopens_le {later : Instant} (hf : first.ns ≤ later.ns)
    (hm : (first.ns : Int) + (markTTL maxAgeSec).toInt ≤ later.ns) :
    reopens maxAgeSec first ≤ later.second := by
  obtain ⟨-, -, -, hl⟩ := later.second_bounds
  obtain ⟨-, -, hs, -⟩ := first.second_bounds
  unfold markTTL at hm
  unfold reopens
  omega

theorem exists_instant (hn : reopens maxAgeSec first ≤ n) (hft : n < 9223372036854775808) :
    ∃ later : Instant, first.ns ≤ later.ns
      ∧ (first.ns : Int) + (markTTL maxAgeSec).toInt ≤ later.ns ∧ later.second = n := by
  obtain ⟨hp, -, -, hf⟩ := first.second_bounds
  unfold reopens at hn
  -- the latest of the beginning of the second, the first time, and the end of the mark
  let ns : Nat := max (max (n * 1000000000) first.ns)
    (first.ns + ((maxAgeSec + 5) * 1000000000).toInt) |>.toNat
  have hns : (ns / 1000000000 : Nat) = n := by
    omega
  refine ⟨⟨ns, by omega⟩, ?_, ?_, hns⟩
  · show first.ns ≤ ns
    omega
  · show (first.ns : Int) + ((maxAgeSec + 5) * 1000000000).toInt ≤ ns
    omega

/-- **The mark outlives the proof.** -/
theorem spent_iff (ha : 0 ≤ maxAgeSec.toInt) (hfr : timely maxAgeSec iat first.unix = true) :
    Spent maxAgeSec iat first
      ↔ ∀ later : Instant, first.ns ≤ later.ns →
        (first.ns : Int) + (markTTL maxAgeSec).toInt ≤ later.ns →
        timely maxAgeSec iat later.unix = false := by
  constructor
  · intro hs later hle hm
    have hr := reopens_le hle hm
    obtain ⟨-, hf, -⟩ := later.second_bounds
    rw [← Bool.not_eq_true, timely_iff ha]
    unfold Spent at hs
    omega
  intro hnv
  by_contra hs
  have hsc : first.second ≤ reopens maxAgeSec first := Int.le_max_left _ _
  rw [timely_iff ha] at hfr
  -- a second from `reopens` on in which the proof is timely
  have hn : ∃ n, reopens maxAgeSec first ≤ n ∧ n < 9223372036854775808
      ∧ (-maxAgeSec.toInt ≤ n - iat.toInt ∧ n - iat.toInt ≤ maxAgeSec.toInt
        ∨ n - iat.toInt = 9223372036854775808
        ∨ 18446744073709551616 - maxAgeSec.toInt ≤ n - iat.toInt) := by
    unfold Spent at hs
    by_cases ho : reopens maxAgeSec first ≤ iat.toInt + maxAgeSec.toInt
    · exact ⟨reopens maxAgeSec first, by omega, by omega, by omega⟩
    · by_cases hp : maxAgeSec.toInt ≤ iat.toInt + 9223372036854775808
      · exact ⟨iat.toInt + 9223372036854775808, by omega, by omega, by omega⟩
      · exact ⟨9223372036854775807, by omega, by omega, by omega⟩
  obtain ⟨n, hr, hf, hw⟩ := hn
  obtain ⟨later, hle, hm, rfl⟩ := exists_instant hr hf
  have hl := hnv later hle hm
  rw [(timely_iff ha).mpr hw] at hl
  cases hl

/-- Within the range of the integers: if its `iat` is at most four seconds ahead. -/
theorem spent_iff_of_small (ha : 0 ≤ maxAgeSec.toInt) (hs : maxAgeSec.toInt ≤ 9223372031)
    (hi : 0 ≤ iat.toInt) (hft : first.second + maxAgeSec.toInt + 5 < 9223372036854775808) :
    Spent maxAgeSec iat first ↔ iat.toInt ≤ first.second + 4 := by
  have hf : (maxAgeSec + 5).toInt = maxAgeSec.toInt + 5 := by
    rw [toInt_add]
    exact Int.bmod_eq_of_le (by simp; omega) (by simp; omega)
  have ht : ((maxAgeSec + 5) * 1000000000).toInt = (maxAgeSec.toInt + 5) * 1000000000 := by
    rw [toInt_mul, hf]
    exact Int.bmod_eq_of_le (by simp; omega) (by simp; omega)
  have hr : reopens maxAgeSec first = first.second + maxAgeSec.toInt + 5 := by
    obtain ⟨-, -, hle, hlt⟩ := first.second_bounds
    unfold reopens
    omega
  unfold Spent
  omega

end Window

/-! ### Executions -/

section Executions

variable {Key : Type} {jose : Jose Key} {slots : DPoPSlots} {cfg : DPoPConfig} {st : ReplayStore}
  {now : Instant} {ctx : Context}

theorem stopFail_accepted : (stopFail slots cfg ctx).accepted = false := by
  unfold stopFail
  split <;> rfl

/-- A proof is accepted if it passes every check and has no mark. -/
theorem accepted_iff (hp : checkProof jose cfg ctx = some (claims, proofPub)) :
    (validateDPoP jose slots cfg (some st) now ctx).1.accepted = true
      ↔ timely cfg.maxAgeSec claims.iat now.unix = true
        ∧ st.found now (jtiKey ctx.tenantKey claims.jti) = false
        ∧ (athMatches jose slots cfg ctx claims && cnfMatches jose slots cfg ctx proofPub)
          = true := by
  rw [validateDPoP, hp]
  by_cases ht : timely cfg.maxAgeSec claims.iat now.unix = true
  · cases hf : st.found now (jtiKey ctx.tenantKey claims.jti) with
    | true => simp [replayCheck, ht, hf, stopFail_accepted]
    | false =>
      simp only [replayCheck, ht, hf]
      by_cases hb : (athMatches jose slots cfg ctx claims
          && cnfMatches jose slots cfg ctx proofPub) = true
      · simp [hb, succeed]
      · simp [hb, stopFail_accepted]
  · simp [ht, stopFail_accepted]

/-- An execution leaves the store as it is, or it leaves a mark. -/
theorem validateDPoP_store : (validateDPoP jose slots cfg (some st) now ctx).2 = some st
      ∨ ∃ k, (validateDPoP jose slots cfg (some st) now ctx).2
        = some (st.mark now (markTTL cfg.maxAgeSec) k) := by
  unfold validateDPoP replayCheck
  cases hp : checkProof jose cfg ctx with
  | none => exact .inl rfl
  | some found =>
  obtain ⟨claims, proofPub⟩ := found
  dsimp only
  split
  · cases st.found now (jtiKey ctx.tenantKey claims.jti) with
    | true => exact .inl rfl
    | false =>
      refine .inr ⟨jtiKey ctx.tenantKey claims.jti, ?_⟩
      simp only [Bool.false_eq_true, if_false]
      split <;> rfl
  · exact .inl rfl

theorem found_iff (h : st.marks k = some (some deadline)) :
    st.found now k = true ↔ (now.ns : Int) < deadline := by
  rw [ReplayStore.found, h]
  exact decide_eq_true_iff

/-- The mark of the first execution is there, or a later one in its place. -/
structure Series.Marked (cfg : DPoPConfig) (first : Instant) (k : Text × Text) (s : Series) :
    Prop where
  clock : first.ns ≤ s.clock.ns
  marked : ∃ st deadline, s.store = some st ∧ st.expiring = true ∧ st.marks k = some (some deadline)
    ∧ (first.ns : Int) + (markTTL cfg.maxAgeSec).toInt ≤ deadline

theorem Series.Marked.step {first : Instant} (h : s.Marked cfg first k)
    (hst : Series.Step jose slots cfg s e s') : s'.Marked cfg first k := by
  cases hst with
  | @exec now ctx hle =>
  obtain ⟨hc, st, deadline, hs, he, hm, hd⟩ := h
  refine ⟨Nat.le_trans hc hle, ?_⟩
  rw [hs]
  rcases @validateDPoP_store Key jose slots cfg st now ctx with hsm | ⟨k', hn⟩
  · exact ⟨st, deadline, hsm, he, hm, hd⟩
  by_cases hk : k = k'
  · -- a mark that is left later ends later
    subst hk
    refine ⟨_, now.ns + (markTTL cfg.maxAgeSec).toInt, hn, he, ?_, by omega⟩
    simp only [ReplayStore.mark, update_self, he, if_true]
  · refine ⟨_, deadline, hn, he, ?_, hd⟩
    simp only [ReplayStore.mark, update_of_ne hk, hm]

/-- After an acceptance the proof has a mark. -/
theorem Series.marked_of_accepted (he : st.expiring = true)
    (hp : checkProof jose cfg ctx = some (claims, proofPub))
    (ha : (validateDPoP jose slots cfg (some st) now ctx).1.accepted = true) :
    (validateDPoP jose slots cfg (some st) now ctx).2
      = some (st.mark now (markTTL cfg.maxAgeSec) (jtiKey ctx.tenantKey claims.jti))
      ∧ (st.mark now (markTTL cfg.maxAgeSec) (jtiKey ctx.tenantKey claims.jti)).marks
          (jtiKey ctx.tenantKey claims.jti)
        = some (some (now.ns + (markTTL cfg.maxAgeSec).toInt)) := by
  obtain ⟨ht, hf, hb⟩ := (accepted_iff hp).mp ha
  constructor
  · rw [validateDPoP, hp]
    simp only [replayCheck, ht, hf, hb, if_true, Bool.false_eq_true, if_false]
  · simp only [ReplayStore.mark, update_self, he, if_true]

end Executions

/-- **A proof is accepted at most once**, exactly if its mark outlives it: whatever is executed
after the first acceptance, the proof is not accepted again. -/
theorem neverAccepted_iff_spent {Key : Type} (jose : Jose Key) (slots : DPoPSlots)
    (cfg : DPoPConfig) (hage : 0 ≤ cfg.maxAgeSec.toInt) (st : ReplayStore)
    (hexpiring : st.expiring = true) (now : Instant) (ctx : Context) (claims : DpopProofClaims)
    (proofPub : Key) (hproof : checkProof jose cfg ctx = some (claims, proofPub))
    (haccepted : (validateDPoP jose slots cfg (some st) now ctx).1.accepted = true) :
    NeverAccepted jose slots cfg ⟨(validateDPoP jose slots cfg (some st) now ctx).2, now⟩
        ctx.tenantKey claims.jti claims.iat
      ↔ Spent cfg.maxAgeSec claims.iat now := by
  obtain ⟨ht, hf, hb⟩ := (accepted_iff hproof).mp haccepted
  obtain ⟨hs, hm⟩ := Series.marked_of_accepted hexpiring hproof haccepted
  rw [spent_iff hage ht, hs]
  constructor
  · intro hn later hle he
    -- the same request once more
    have ha := hn [] _ (.nil _) later ctx hle ⟨rfl, claims, proofPub, hproof, rfl, rfl⟩
    have hg : ReplayStore.found (st.mark now (markTTL cfg.maxAgeSec)
        (jtiKey ctx.tenantKey claims.jti)) later (jtiKey ctx.tenantKey claims.jti) = false := by
      rw [← Bool.not_eq_true, found_iff hm]
      omega
    rw [← Bool.not_eq_true, accepted_iff hproof] at ha
    rw [← Bool.not_eq_true]
    exact fun hl => ha ⟨hl, hg, hb⟩
  · rintro hsp executions s hr later ctx' hle ⟨htn, claims', proofPub', hproof', hj, hi⟩
    obtain ⟨hc, st', deadline, hst', -, hmark', hd⟩ := GoodRun.invariant
      (I := (·.Marked cfg now (jtiKey ctx.tenantKey claims.jti))) (fun h _ hst => h.step hst) hr
      ⟨Nat.le_refl _, _, _, rfl, hexpiring, hm, Int.le_refl _⟩
    rw [hst', ← Bool.not_eq_true, accepted_iff hproof', htn, hj, hi]
    rintro ⟨hl, hg, -⟩
    have he : deadline ≤ later.ns := by
      rw [← Bool.not_eq_true, found_iff hmark'] at hg
      omega
    rw [hsp later (Nat.le_trans hc hle) (by omega)] at hl
    cases hl

/-! ### Two tokens

They have one header and one `jti`; the `iat` of the first is 100 and that of the second is 60. -/

def headerSegment : Text :=
  "eyJ0eXAiOiJkcG9wK2p3dCIsImFsZyI6IkVkRFNBIiwiandrIjp7IngiOiJrIn19".toList

def claimsSegment (iat : Int64) : Text :=
  if iat = 100 then "eyJqdGkiOiJqIiwiaHRtIjoiR0VUIiwiaHR1IjoiaHR0cDovL2gvIiwiaWF0IjoxMDB9".toList
  else "eyJqdGkiOiJqIiwiaHRtIjoiR0VUIiwiaHR1IjoiaHR0cDovL2gvIiwiaWF0Ijo2MH0".toList

def signatureSegment (iat : Int64) : Text := if iat = 100 then "czE".toList else "czI".toList

def signingInput (iat : Int64) : Text := headerSegment ++ '.' :: claimsSegment iat

/-- The token as it stands in the header of the request. -/
def proofToken (iat : Int64) : Text := signingInput iat ++ '.' :: signatureSegment iat

/-- The segments with the texts they encode. -/
def encoded : List (Text × Text) :=
  [(headerSegment,
    "\x7b\"typ\":\"dpop+jwt\",\"alg\":\"EdDSA\",\"jwk\":\x7b\"x\":\"k\"\x7d\x7d".toList),
    (claimsSegment 100,
      "\x7b\"jti\":\"j\",\"htm\":\"GET\",\"htu\":\"http://h/\",\"iat\":100\x7d".toList),
    (claimsSegment 60,
      "\x7b\"jti\":\"j\",\"htm\":\"GET\",\"htu\":\"http://h/\",\"iat\":60\x7d".toList),
    (signatureSegment 100, "s1".toList), (signatureSegment 60, "s2".toList)]

def proofClaims (iat : Int64) : DpopProofClaims :=
  ⟨['j'], "GET".toList, "http://h/".toList, iat, []⟩

/-- The text of the `jwk` in the header. -/
def jwkText : Text := "\x7b\"x\":\"k\"\x7d".toList

/-- The functions on the two tokens: every other text is an error, and a signature is good for its
own input and key only. A key is the text of its `jwk`. -/
def tokenJose : Jose Text where
  decodeSegment := (encoded.lookup ·)
  parseHeader t :=
    if encoded.lookup headerSegment = some t then
      some ⟨"dpop+jwt".toList, "EdDSA".toList, jwkText⟩
    else none
  parseClaims t :=
    if encoded.lookup (claimsSegment 100) = some t then some (proofClaims 100)
    else if encoded.lookup (claimsSegment 60) = some t then some (proofClaims 60)
    else none
  isSupportedAlg alg :=
    (["RS256", "RS384", "RS512", "ES256", "ES384", "ES512", "EdDSA"].map String.toList).contains alg
  parseEmbeddedJWK jwk := if jwk = jwkText then some jwk else none
  verifyJWTSignature alg input sig key := alg == "EdDSA".toList && key == jwkText
    && (input == signingInput 100 && sig == "s1".toList
      || input == signingInput 60 && sig == "s2".toList)
  accessTokenHash t := "hash of ".toList ++ t
  extractCNFJkt := fun _ => none
  thumbprint key := some ("thumbprint of ".toList ++ key)
  equalFold s t := s.map Char.toLower == t.map Char.toLower

/-- Proofs are good for a minute. -/
def minuteConfig : DPoPConfig := ⟨"DPoP".toList, 60, false, false, false, 401, [], false⟩

def noSlots : DPoPSlots := ⟨-1, -1, -1⟩

/-- A request with the token in its `DPoP` header, and no other header. -/
def proofContext (iat : Int64) : Context :=
  ⟨some ⟨fun name => if name = "DPoP".toList then proofToken iat else [],
    "GET".toList, false, ['h'],
    [], ['/'], [], []⟩, ['t'], []⟩

def emptyStore : ReplayStore := ⟨true, fun _ => none⟩

theorem checkProof_hundred :
    checkProof tokenJose minuteConfig (proofContext 100) = some (proofClaims 100, jwkText) := by
  decide +kernel

theorem checkProof_sixty :
    checkProof tokenJose minuteConfig (proofContext 60) = some (proofClaims 60, jwkText) := by
  decide +kernel

/-- A proof that is presented when it is issued. -/
theorem fresh_proof_once : NeverAccepted tokenJose noSlots minuteConfig
      ⟨(validateDPoP tokenJose noSlots minuteConfig (some emptyStore)
        ⟨100000000000, by decide⟩ (proofContext 100)).2, ⟨100000000000, by decide⟩⟩
      ['t'] ['j'] 100 :=
  (neverAccepted_iff_spent tokenJose noSlots minuteConfig (by decide) emptyStore rfl
    ⟨100000000000, by decide⟩ (proofContext 100) (proofClaims 100) jwkText checkProof_hundred
    ((accepted_iff checkProof_hundred).mpr ⟨by decide, rfl, rfl⟩)).mpr
    ((spent_iff_of_small (by decide) (by decide) (by decide) (by decide)).mpr (by decide))

/-- A proof from a minute ahead. Its mark is gone after 65 seconds, and its age is then five. -/
theorem future_proof_twice :
    (validateDPoP tokenJose noSlots minuteConfig (some emptyStore) ⟨0, by decide⟩
        (proofContext 60)).1.accepted = true
      ∧ (validateDPoP tokenJose noSlots minuteConfig
        (validateDPoP tokenJose noSlots minuteConfig (some emptyStore) ⟨0, by decide⟩
          (proofContext 60)).2 ⟨65000000000, by decide⟩ (proofContext 60)).1.accepted = true := by
  have hfirst : (validateDPoP tokenJose noSlots minuteConfig (some emptyStore) ⟨0, by decide⟩
      (proofContext 60)).1.accepted = true :=
    (accepted_iff checkProof_sixty).mpr ⟨by decide, rfl, rfl⟩
  obtain ⟨hstore, hmark⟩ := Series.marked_of_accepted rfl checkProof_sixty hfirst
  refine ⟨hfirst, ?_⟩
  rw [hstore]
  refine (accepted_iff checkProof_sixty).mpr ⟨by decide, ?_, rfl⟩
  rw [← Bool.not_eq_true, found_iff hmark]
  decide

end Rah.Steps
