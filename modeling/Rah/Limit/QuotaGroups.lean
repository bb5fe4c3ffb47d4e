import Mathlib.Data.List.Nodup
import Rah.Flow.Executor

/-!
# Rate limits by quota group

A dynamic rate limit maps values of a request's slot, the group values, to rate-limit configs.
`emitRLPoliciesIntoTable` numbers the values in sorted order from 1, in 8 bits, and emits one
instruction that assigns the number of the request's value and one check for every value. A check
has the number of its value as a filter and goes on to the next instruction when the request has
another one.

What a check reads is recorded: the override of a config for the tenant, when there is one, and
the counters it asks. The counters themselves, local or remote, are a parameter.
-/

namespace Rah.Limit.Quota

open Rah.Lib Rah.Flow

abbrev Text := List UInt8

/-! ## Checks -/

structure WindowSpec where
  epochDiv : Nat
  limit : Nat
  idx : Nat
  deriving DecidableEq, Repr

/-- How the key of a counter is derived; the kinds a dynamic entry can have. -/
inductive CountBy where
  | tenant
  | ip
  | slot (idx : Option Nat)
  | static (key : Text)
  | global
  deriving DecidableEq, Repr

/-- A `CheckRateLimitV2` of a dynamic entry. It has no weight slot and no token bucket. -/
structure Check where
  configID : BitVec 16
  configName : Text
  countBy : CountBy
  windows : List WindowSpec
  /-- `RemoteRL` is not nil. -/
  remoteRL : Bool
  /-- `NodeCountFn` is not nil. -/
  nodeCount : Bool
  quotaGroupFilter : BitVec 8
  deriving DecidableEq, Repr

structure Modifier where
  scalePct : Int
  blocked : Bool
  rlDisabled : Bool
  deriving DecidableEq, Repr

structure Override where
  blocked : Bool
  disabled : Bool
  scaleOverridePct : Int
  windowLimits : List Nat
  deriving DecidableEq, Repr

/-- The key of a counter: the tenant, or bytes. -/
inductive Key where
  | tenant
  | bytes (key : Text)
  deriving DecidableEq, Repr

/-- A counter: in the arena of a config, or at the remote provider under the config's name. -/
inductive CounterRef where
  | tenant (config : BitVec 16) (tenantID window : Nat)
  | slot (config : BitVec 16) (key : Text) (window : Nat)
  | remote (name : Text) (epochDiv tenantID : Nat) (key : Key)
  deriving DecidableEq, Repr

/-- What a check has consulted. -/
inductive Event where
  | override (config : BitVec 16)
  | counter (ref : CounterRef)
  deriving DecidableEq, Repr

/-- What the checks see at request time. -/
structure Host (κ : Type) where
  modifiers : List Modifier
  v2Override : Nat → BitVec 16 → Option Override
  /-- The arenas that are registered. -/
  tenantArena : BitVec 16 → Bool
  slotArena : BitVec 16 → Bool
  nodes : Int
  now : Nat
  /-- Asks a counter, with the window's epoch and the limit. -/
  increment : κ → CounterRef → Nat → Nat → Bool × κ

/-- What a check reads of the request. -/
structure Request where
  tenantID : Nat
  quotaGroupID : BitVec 8
  clientIP : Text
  byteSlots : Nat → Text

/-- The status a request is denied with, if it is; the counters; and what was consulted. -/
structure Verdict (κ : Type) where
  denied : Option Nat
  counters : κ
  consulted : List Event

def globalCounterKey : Text := [95, 95, 103, 108, 111, 98, 97, 108, 95, 95]

/-- None is the signal to deny: the key is empty. -/
def resolveKey (req : Request) : CountBy → Option Key
  | .tenant => some .tenant
  | .global => some (.bytes globalCounterKey)
  | .static key => some (.bytes key)
  | .ip => if req.clientIP = [] then none else some (.bytes req.clientIP)
  | .slot none => none
  | .slot (some idx) => if req.byteSlots idx = [] then none else some (.bytes (req.byteSlots idx))

/-- The multiplier, in percent; never zero. -/
def multiplier (scalePct : Int) : Nat :=
  if scalePct = 0 then 100 else if 0 < 100 + scalePct then (100 + scalePct).toNat else 1

def applyMultiplier (limit multiplier : Nat) : Nat :=
  if multiplier = 0 ∨ multiplier = 100 then limit
  else
    let v := limit * multiplier / 100
    if v < 1 then 1 else if 4294967295 < v then 4294967295 else v

section Execute

variable {κ : Type} (host : Host κ) (c : Check) (req : Request)

/-- The limit of a window for this tenant. -/
def baseLimit (scalePct : Int) (windowLimits : List Nat) (w : WindowSpec) : Nat :=
  let limit := applyMultiplier w.limit (multiplier scalePct)
  match windowLimits[w.idx]? with
  | some l => if l ≠ 0 then l else limit
  | none => limit

/-- Local counters share the limit among the nodes; the remote provider counts for all. -/
def effectiveLimit (limit : Nat) : Nat :=
  if c.remoteRL = false ∧ c.nodeCount = true ∧ 1 < host.nodes then
    if host.nodes.toNat < limit then limit / host.nodes.toNat else 1
  else limit

/-- The counter of a window; none when its arena is not registered. -/
def counterOf (key : Key) (w : WindowSpec) : Option CounterRef :=
  if c.remoteRL then some (.remote c.configName w.epochDiv req.tenantID key)
  else
    match key with
    | .tenant => if host.tenantArena c.configID then some (.tenant c.configID req.tenantID w.idx)
        else none
    | .bytes k => if host.slotArena c.configID then some (.slot c.configID k w.idx) else none

/-- `executeLocal` and `executeDistributed`: the windows in turn, up to the first one exceeded. -/
def countWindows (key : Key) (limitOf : WindowSpec → Nat) : List WindowSpec → κ → Verdict κ
  | [], k => ⟨none, k, []⟩
  | w :: ws, k =>
    match counterOf host c req key w with
    | none => countWindows key limitOf ws k
    | some ref =>
      let r := host.increment k ref (host.now / w.epochDiv) (limitOf w)
      if r.1 then
        let v := countWindows key limitOf ws r.2
        ⟨v.denied, v.counters, .counter ref :: v.consulted⟩
      else ⟨some 429, r.2, [.counter ref]⟩

/-- The last part of `Execute`: the windows of the config are counted. -/
def count (scalePct : Int) (windowLimits : List Nat) (k : κ) : Verdict κ :=
  match resolveKey req c.countBy with
  | none => ⟨some 429, k, []⟩
  | some key => countWindows host c req key
      (fun w => effectiveLimit host c (baseLimit scalePct windowLimits w)) c.windows k

/-- The quota group filter. -/
def filtered (scalePct : Int) (windowLimits : List Nat) (k : κ) : Verdict κ :=
  if c.quotaGroupFilter ≠ 0 ∧ req.quotaGroupID ≠ c.quotaGroupFilter then ⟨none, k, []⟩
  else count host c req scalePct windowLimits k

/-- The flags of the tenant. -/
def tenantBlocked : Bool := (host.modifiers[req.tenantID]?).any (·.blocked)

def tenantDisabled : Bool := (host.modifiers[req.tenantID]?).any (·.rlDisabled)

/-- `CheckRateLimitV2.Execute`: the flags of the tenant, its override of the config, the filter,
the windows, in this order. -/
def execute (k : κ) : Verdict κ :=
  if tenantBlocked host req then ⟨some 403, k, []⟩
  else if tenantDisabled host req then ⟨none, k, []⟩
  else
    let scalePct := ((host.modifiers[req.tenantID]?).map (·.scalePct)).getD 0
    match host.v2Override req.tenantID c.configID with
    | none => filtered host c req scalePct [] k
    | some ov =>
      let v := if ov.blocked then ⟨some 403, k, []⟩ else if ov.disabled then ⟨none, k, []⟩
        else filtered host c req
          (if ov.scaleOverridePct ≠ 0 then ov.scaleOverridePct else scalePct) ov.windowLimits k
      ⟨v.denied, v.counters, .override c.configID :: v.consulted⟩

/-- Checks in a row, up to the first that denies. -/
def runChecks : List Check → κ → Verdict κ
  | [], k => ⟨none, k, []⟩
  | c :: cs, k =>
    let v := execute host c req k
    match v.denied with
    | some status => ⟨some status, v.counters, v.consulted⟩
    | none =>
      let v' := runChecks cs v.counters
      ⟨v'.denied, v'.counters, v.consulted ++ v'.consulted⟩

end Execute

/-! ## Compilation -/

structure ConfigV2 where
  strict : Bool
  divideByNodes : Bool
  windows : List (Nat × Nat)
  deriving DecidableEq, Repr

/-- What the compiler sees when the flow is baked. -/
structure Bake where
  rateLimitConfigId : Text → Option (BitVec 16)
  rateLimitConfigV2 : Text → Option ConfigV2
  remoteRL : Bool
  instanceCountFn : Bool

/-- A dynamic entry. The mapping has each group value once. -/
structure Dynamic where
  source : Option Nat
  mappings : List (Text × Text)
  countBy : CountBy
  nodup : (mappings.map Prod.fst).Nodup

section Emit

variable (bake : Bake) (entry : Dynamic)

/-- The byte order of texts. -/
def bytesLE : Text → Text → Bool
  | [], _ => true
  | _ :: _, [] => false
  | a :: as, b :: bs => a < b || (a == b && bytesLE as bs)

def Dynamic.sortedKeys : List Text := (entry.mappings.map Prod.fst).mergeSort bytesLE

/-- `uint8(i + 1)`. -/
def groupId (i : Nat) : BitVec 8 := BitVec.ofNat 8 (i + 1)

/-- `groupMap[val]`. -/
def Dynamic.group (val : Text) : Option (BitVec 8) := (entry.sortedKeys.idxOf? val).map groupId

def Dynamic.config (val : Text) : Text := (entry.mappings.lookup val).getD []

/-- The id of a config; zero for one that has none. -/
def Bake.id (name : Text) : BitVec 16 := (bake.rateLimitConfigId name).getD 0

def Bake.windows (name : Text) : List WindowSpec :=
  match bake.rateLimitConfigV2 name with
  | none => []
  | some cfg => cfg.windows.zipIdx.map fun w =>
    { epochDiv := if w.1.1 = 0 then 1 else w.1.1, limit := w.1.2, idx := w.2 }

/-- The check for a config; none for one without a name or windows. -/
def emitCheck (countBy : CountBy) (gid : BitVec 8) (name : Text) : Option Check :=
  if name = [] ∨ bake.windows name = [] then none
  else
    let cfg := bake.rateLimitConfigV2 name
    let remoteRL := cfg.any (·.strict) && bake.remoteRL
    some
      { configID := bake.id name, configName := name, countBy := countBy,
        windows := bake.windows name, remoteRL := remoteRL,
        nodeCount := cfg.any (·.divideByNodes) && !remoteRL && bake.instanceCountFn,
        quotaGroupFilter := gid }

/-- The checks for group values, the first of them with the given index. -/
def emitChecks : Nat → List Text → List Check
  | _, [] => []
  | i, val :: vals =>
    (emitCheck bake entry.countBy (groupId i) (entry.config val)).toList ++ emitChecks (i + 1) vals

def Dynamic.checks : List Check := emitChecks bake entry 0 entry.sortedKeys

/-- The part of the context the instructions use besides the slots. -/
structure Rest (κ : Type) where
  tenantID : Nat
  quotaGroupID : BitVec 8
  clientIP : Text
  counters : κ
  log : List Event

variable {κ : Type}

def requestOf (ctx : Ctx (Rest κ)) : Request :=
  { tenantID := ctx.rest.tenantID, quotaGroupID := ctx.rest.quotaGroupID,
    clientIP := ctx.rest.clientIP, byteSlots := ctx.byteSlots }

/-- The group value of a request; empty when there is none. -/
def Dynamic.value (byteSlots : Nat → Text) : Text :=
  match entry.source with
  | none => []
  | some slot => byteSlots slot

/-- `AssignQuotaGroup`: a value that is not mapped leaves the group as it is. -/
def assigned (ctx : Ctx (Rest κ)) : Ctx (Rest κ) :=
  let val := entry.value ctx.byteSlots
  if val = [] then ctx
  else
    match entry.group val with
    | none => ctx
    | some gid => { ctx with rest := { ctx.rest with quotaGroupID := gid } }

/-- The context after checks. -/
def settled (ctx : Ctx (Rest κ)) (v : Verdict κ) : Ctx (Rest κ) :=
  { ctx with
    responseStatus := v.denied.getD ctx.responseStatus
    rest := { ctx.rest with counters := v.counters, log := ctx.rest.log ++ v.consulted } }

def assignInstr : InstructionFunc (Rest κ) := fun ctx state =>
  some (state.next, assigned entry ctx, state)

def checkInstr (host : Host κ) (c : Check) (nextPC : Nat) : InstructionFunc (Rest κ) :=
  fun ctx state =>
    let v := execute host c (requestOf ctx) ctx.rest.counters
    some (if v.denied.isSome then int16 stopPlan else int16 nextPC, settled ctx v, state)

/-- The instructions of checks that stand from an address on. -/
def checkInstrs (host : Host κ) : Nat → List Check → List (InstructionFunc (Rest κ))
  | _, [] => []
  | pc, c :: cs => checkInstr host c (pc + 1) :: checkInstrs host (pc + 1) cs

/-- `emitRLPoliciesIntoTable` for a dynamic entry, at the end of a table of this length. -/
def emitDynamic (host : Host κ) (base : Nat) : List (InstructionFunc (Rest κ)) :=
  if entry.mappings = [] then []
  else assignInstr entry :: checkInstrs host (base + 1) (entry.checks bake)

end Emit

end Rah.Limit.Quota
