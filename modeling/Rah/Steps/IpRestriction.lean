import Rah.Steps.Context

/-!
# IP restriction

`ip_restriction` finds the address of the client and looks it up in the configured ranges. With the
default source the `X-Forwarded-For` header counts only if the peer is a trusted proxy. What comes
next is not the peer's address but the `X-Real-IP` header, which is read whether the peer is trusted
or not.

Addresses, ranges and their texts are those of a `Net`.
-/

namespace Rah.Steps

open Rah.Lib Rah.Datastore Option

/-- The calls of `net`, `strings` and `strconv`; `none` is an error or a nil address. -/
structure Net (IP Range : Type) where
  parseIP : Text → Option IP
  splitHostPort : Text → Option Text
  parseCIDR : Text → Option Range
  contains : Range → IP → Bool
  toLower : Text → Text
  atoi : Text → Option Int
  /-- The empty text is not an address. -/
  parseIP_empty : parseIP [] = none

structure IPRestrictionConfig (Range : Type) where
  mode : Text
  cidrs : Text
  source : Text
  onViolationStatus : Int
  onViolationBody : Text
  trustedProxyCIDRs : List Range

section Restriction

variable {IP Range : Type} (net : Net IP Range)

/-- The ranges of a list; what does not parse is left out. -/
def parseCIDRs (raw : Text) : List Range :=
  (raw.splitOn ',').filterMap fun p =>
    if trimSpace p = [] then none else net.parseCIDR (trimSpace p)

/-- From the inputs of the step; one that is missing is empty. -/
def parseIPRestrictionConfig (input : String → Text) : Except String (IPRestrictionConfig Range) :=
  let mode := net.toLower (trimSpace (input "mode"))
  let cidrs := trimSpace (input "cidrs")
  let source := net.toLower (trimSpace (input "source"))
  let mode := if mode = [] then "allow".toList else mode
  if mode ≠ "allow".toList ∧ mode ≠ "deny".toList then
    .error "ip_restriction.mode must be allow or deny"
  else if cidrs = [] then .error "ip_restriction.cidrs is required"
  else
    let status := trimSpace (input "on_violation_status")
    let body := trimSpace (input "on_violation_body")
    .ok {
      mode := mode
      cidrs := cidrs
      source := if source = [] then "header.x-forwarded-for".toList else source
      onViolationStatus := if status = [] then 403 else
        ((net.atoi status).filter fun n => 400 ≤ n ∧ n ≤ 599).getD 403
      onViolationBody := if body = [] then "ip not allowed".toList else body
      trustedProxyCIDRs := parseCIDRs net (trimSpace (input "trusted_proxies")) }

/-- The entry of the header at the index, counted from the end if it is negative. -/
def ipFromXFF (header : Text) (xffIndex : Int) : Text :=
  if header = [] then []
  else
    let parts := header.splitOn ','
    let idx := if xffIndex < 0 then parts.length + xffIndex else xffIndex
    if idx < 0 then [] else (parts[idx.toNat]?.map trimSpace).getD []

/-- The first address of a forwarding header. -/
def firstIPFromHeader (header : Text) : Text := ipFromXFF header 0

/-- Where the address comes from. Any other text is the default. -/
inductive Source where
  | realIP
  | remoteAddr
  | forwardedFor
  deriving DecidableEq, Repr

/-- Where the address is read from. -/
def sourceOf (text : Text) : Source :=
  let source := net.toLower (trimSpace text)
  if source = "header.x-real-ip".toList then .realIP
  else if source = "remote_addr".toList then .remoteAddr
  else .forwardedFor

/-- The address of the direct peer. -/
def peerIP (remoteAddr : Text) : Option IP :=
  (net.splitHostPort remoteAddr).bind fun host => net.parseIP (trimSpace host)

/-- The peer is one of the proxies. -/
def isTrustedProxy (trustedProxyCIDRs : List Range) : Option IP → Bool
  | none => false
  | some peer => trustedProxyCIDRs.any fun cidr => net.contains cidr peer

/-- The address in `X-Real-IP`. -/
def realIP (req : Request) : Option IP :=
  net.parseIP (trimSpace (req.header "X-Real-IP".toList))

/-- `resolveClientIP`: the slot first, then what the source says. -/
def resolveClientIP (byteSlots : List Text) (req : Request) (sourceSlot : Int) (source : Source)
    (trustedProxyCIDRs : List Range) : Option IP :=
  match (slotAt byteSlots sourceSlot).bind fun slot => net.parseIP (trimSpace slot) with
  | some ip => some ip
  | none =>
    match source with
    | .realIP => realIP net req
    | .remoteAddr => peerIP net req.remoteAddr
    | .forwardedFor =>
      let peer := peerIP net req.remoteAddr
      let forwarded := if isTrustedProxy net trustedProxyCIDRs peer then
        net.parseIP (firstIPFromHeader (req.header "X-Forwarded-For".toList)) else none
      forwarded.orElse fun _ => (realIP net req).orElse fun _ => peer

/-- The plan goes on, or it stops with a status, an error code and a body. -/
inductive Decision where
  | next
  | stop (responseStatus errorCode : Int) (body : Text)
  deriving DecidableEq, Repr

/-- An address that could not be resolved is in no range. -/
def blocked (cfg : IPRestrictionConfig Range) (ip : Option IP) : Bool :=
  let modeAllow := cfg.mode == "allow".toList
  match ip with
  | none => modeAllow
  | some ip =>
    let matched := (parseCIDRs net cfg.cidrs).any fun n => net.contains n ip
    (modeAllow && !matched) || (!modeAllow && matched)

/-- The step: the address against the mode's ranges. -/
def ipRestriction (cfg : IPRestrictionConfig Range) (sourceSlot : Int) (byteSlots : List Text)
    (req : Request) : Decision :=
  if blocked net cfg (resolveClientIP net byteSlots req sourceSlot (sourceOf net cfg.source)
      cfg.trustedProxyCIDRs) then
    .stop cfg.onViolationStatus (Int.bmod cfg.onViolationStatus 65536) cfg.onViolationBody
  else .next

/-! ## What an untrusted peer can do -/

/-- Requests from the address are decided alike, whatever their headers are. -/
def DecidedAlike (cfg : IPRestrictionConfig Range) (sourceSlot : Int) (byteSlots : List Text)
    (remoteAddr : Text) : Prop :=
  ∀ r r' : Request, r.remoteAddr = remoteAddr → r'.remoteAddr = remoteAddr →
    ipRestriction net cfg sourceSlot byteSlots r = ipRestriction net cfg sourceSlot byteSlots r'

/-- No address that a header can name is treated in another way than the peer's own. -/
def Indifferent (cfg : IPRestrictionConfig Range) (remoteAddr : Text) : Prop :=
  ∀ text ip, net.parseIP (trimSpace text) = some ip →
    blocked net cfg (some ip) = blocked net cfg (peerIP net remoteAddr)

end Restriction

section Untrusted

variable {IP Range : Type} {net : Net IP Range} {cfg : IPRestrictionConfig Range} {sourceSlot : Int}
  {byteSlots : List Text}

/-- The decision depends on the address only, and two decisions differ if the addresses are not
blocked alike. -/
theorem ipRestriction_eq_iff :
    ipRestriction net cfg sourceSlot byteSlots r = ipRestriction net cfg sourceSlot byteSlots r'
      ↔ blocked net cfg (resolveClientIP net byteSlots r sourceSlot (sourceOf net cfg.source)
          cfg.trustedProxyCIDRs)
        = blocked net cfg (resolveClientIP net byteSlots r' sourceSlot (sourceOf net cfg.source)
          cfg.trustedProxyCIDRs) := by
  unfold ipRestriction
  constructor
  · intro h
    split at h <;> split at h <;> simp_all
  · intro h
    rw [h]

/-- For an untrusted peer, `X-Real-IP` comes before the peer's own address. -/
theorem resolveClientIP_untrusted (hs : sourceSlot < 0)
    (hp : isTrustedProxy net cfg.trustedProxyCIDRs (peerIP net req.remoteAddr) = false) :
    resolveClientIP net byteSlots req sourceSlot .forwardedFor cfg.trustedProxyCIDRs
      = (realIP net req).or (peerIP net req.remoteAddr) := by
  have hn : slotAt byteSlots sourceSlot = none := if_neg (by omega)
  unfold resolveClientIP
  rw [hn]
  simp only [bind_none, hp, Bool.false_eq_true, if_false, orElse_eq_or, none_or]

/-- A request whose only header is `X-Real-IP`. -/
def realIPRequest (remoteAddr text : Text) : Request where
  header := fun name => if name = "X-Real-IP".toList then text else []
  method := "GET".toList
  tls := false
  host := []
  urlHost := []
  path := ['/']
  rawQuery := []
  remoteAddr := remoteAddr

theorem realIP_realIPRequest :
    realIP net (realIPRequest remoteAddr text) = net.parseIP (trimSpace text) := by
  have hh : (realIPRequest remoteAddr text).header "X-Real-IP".toList = text := by
    simp only [realIPRequest, if_true]
  rw [realIP, hh]

end Untrusted

/-- **Untrusted peers.** Without a source slot and with the default source, requests of an untrusted
peer are decided alike exactly if the ranges do not tell the peer from any address that an
`X-Real-IP` header can name. -/
theorem decidedAlike_iff {IP Range : Type} (net : Net IP Range) (cfg : IPRestrictionConfig Range)
    (sourceSlot : Int) (hslot : sourceSlot < 0) (hsource : sourceOf net cfg.source = .forwardedFor)
    (byteSlots : List Text) (remoteAddr : Text)
    (hpeer : isTrustedProxy net cfg.trustedProxyCIDRs (peerIP net remoteAddr) = false) :
    DecidedAlike net cfg sourceSlot byteSlots remoteAddr ↔ Indifferent net cfg remoteAddr := by
  have hrs (r : Request) (hr : r.remoteAddr = remoteAddr) :
      resolveClientIP net byteSlots r sourceSlot (sourceOf net cfg.source) cfg.trustedProxyCIDRs
        = (realIP net r).or (peerIP net remoteAddr) := by
    rw [hsource, ← hr]
    exact resolveClientIP_untrusted hslot (hr ▸ hpeer)
  constructor
  · intro ha text ip hip
    -- the request that names the address, and one without headers
    have h := ipRestriction_eq_iff.mp
      (ha (realIPRequest remoteAddr text) (realIPRequest remoteAddr []) rfl rfl)
    rwa [hrs _ rfl, hrs _ rfl, realIP_realIPRequest, realIP_realIPRequest, hip,
      show trimSpace [] = [] from rfl, net.parseIP_empty, some_or, none_or] at h
  intro hs r r' hr hr'
  have hp (r : Request) (hr : r.remoteAddr = remoteAddr) :
      blocked net cfg (resolveClientIP net byteSlots r sourceSlot (sourceOf net cfg.source)
        cfg.trustedProxyCIDRs) = blocked net cfg (peerIP net remoteAddr) := by
    rw [hrs r hr]
    cases hip : realIP net r with
    | none => rw [none_or]
    | some ip =>
      exact hs _ ip hip
  rw [ipRestriction_eq_iff, hp r hr, hp r' hr']

/-- Addresses are texts of digits, dots and, in the second family, colons. A range of length 0 holds
every address of its family, and any other range here is a single address, as with `/32`. -/
def hostNet : Net Text (Text × Text) where
  parseIP t :=
    if t ≠ [] ∧ t.all (fun c => c.isDigit || c == '.' || c == ':') then some t else none
  splitHostPort t := if ':' ∈ t then some (t.takeWhile (· ≠ ':')) else none
  parseCIDR t :=
    if '/' ∈ t then some (t.takeWhile (· ≠ '/'), (t.dropWhile (· ≠ '/')).drop 1) else none
  contains n ip := if n.2 = ['0'] then ip.contains ':' == n.1.contains ':' else n.1 == ip
  toLower := id
  atoi := fun _ => none
  parseIP_empty := rfl

/-- Both families are allowed as a whole, so that every address passes. -/
def allowAny : IPRestrictionConfig (Text × Text) :=
  ⟨"allow".toList, "0.0.0.0/0, ::/0".toList, "header.x-forwarded-for".toList, 403,
    "ip not allowed".toList, []⟩

theorem allowAny_passes (ip : Text) : blocked hostNet allowAny (some ip) = false := by
  have hr : parseCIDRs hostNet allowAny.cidrs
      = [("0.0.0.0".toList, ['0']), ("::".toList, ['0'])] := by
    decide
  unfold blocked
  rw [hr]
  cases ip.contains ':' <;> simp [hostNet, allowAny]

theorem allowAny_alike : DecidedAlike hostNet allowAny (-1) [] "203.0.113.9:4711".toList :=
  (decidedAlike_iff hostNet allowAny (-1) (by decide) (by decide) [] "203.0.113.9:4711".toList
    (by decide)).mpr fun _ ip _ => by
      rw [allowAny_passes ip]
      exact (allowAny_passes "203.0.113.9".toList).symm

/-- One address is allowed, and no other. -/
def allowOne : IPRestrictionConfig (Text × Text) :=
  ⟨"allow".toList, "10.0.0.1/32".toList, "header.x-forwarded-for".toList, 403,
    "ip not allowed".toList, []⟩

/-- A peer outside the allowed range names an address within. -/
theorem realIP_steers :
    isTrustedProxy hostNet allowOne.trustedProxyCIDRs (peerIP hostNet "203.0.113.9:4711".toList)
        = false
      ∧ ipRestriction hostNet allowOne (-1) [] (realIPRequest "203.0.113.9:4711".toList [])
        = .stop 403 403 "ip not allowed".toList
      ∧ ipRestriction hostNet allowOne (-1) []
        (realIPRequest "203.0.113.9:4711".toList "10.0.0.1".toList) = .next := by
  decide

end Rah.Steps
