import Rah.Lib.BitRank
import Rah.Router.Model

/-!
# The sub-path router

Below an api's base path, requests are routed by a second arena. `BakeSubRouter`
adds one template and method at a time, creating a node for every segment it does not
find, and `resolveSubPath` walks the arena over the request path.

A node knows nothing of the segment it was created for but its length. It is found
from its parent by the first byte of the segment: the parent keeps one bit per byte
and the index of its first child, and the child is taken to stand as many places
behind it as there are smaller bits. A parameter child is a field of its own.

Panics of the compiler and of the request path are values here. Plans, async modes and
call depths of an endpoint have no part in routing and are left out.
-/

namespace Rah.SubRouter

open Rah.Lib
open Rah.Router (slash)

/-- A node of the sub arena. -/
structure SubRouteNode where
  maskLo : BitVec 64 := 0
  maskHi : BitVec 64 := 0
  childIdx : UInt32 := 0
  numChildren : UInt16 := 0
  prefixLen : UInt16 := 0
  hasParamChild : Bool := false
  paramChildIdx : UInt32 := 0
  allowedMethods : BitVec 8 := 0
  strictMethods : BitVec 8 := 0
  endpointIdx : Fin 5 → UInt32 := fun _ => 0

/-- The index of the child for a byte, `0` for none. -/
def SubRouteNode.findChildIdx (n : SubRouteNode) (char : UInt8) : UInt32 :=
  if char < 64 then
    if n.maskLo &&& bit char.toNat = 0 then 0
    else n.childIdx + UInt32.ofNat (onesCount (n.maskLo &&& (bit char.toNat - 1#64)))
  else
    let char := char - 64
    if n.maskHi &&& bit char.toNat = 0 then 0
    else n.childIdx + UInt32.ofNat (onesCount (n.maskHi &&& (bit char.toNat - 1#64)))

structure Endpoint where
  endpointId : UInt8
  apiRateLimitId : UInt16
  endpointRateLimitId : UInt16

structure ApiDefinition where
  baseRawPath : List UInt8
  aliasPaths : List (List UInt8) := []
  subArena : List SubRouteNode := []
  endpoints : List Endpoint := []

/-- `BakeDefinition`. -/
def bakeDefinition (path : List UInt8) : ApiDefinition := { baseRawPath := path }

/-! ## Methods -/

/-- The methods the router is asked for. -/
inductive Method where
  | get | post | put | delete | any
  deriving DecidableEq, Repr

/-- The text of a method. -/
def Method.name : Method → List UInt8
  | .get => [71, 69, 84]
  | .post => [80, 79, 83, 84]
  | .put => [80, 85, 84]
  | .delete => [68, 69, 76, 69, 84, 69]
  | .any => [65, 78, 89]

/-- The column of a method given when a route is compiled. -/
def methodStringToIdx (m : List UInt8) : Fin 5 :=
  if m = Method.get.name then 0
  else if m = Method.post.name then 1
  else if m = Method.put.name then 2
  else if m = Method.delete.name then 3
  else 4

/-- The column of a request's method, from its first two bytes. -/
def methodToIdx : List UInt8 → Fin 5
  | [] => 4
  | b :: rest =>
    if b = 71 then 0
    else if b = 80 then
      if rest.head? = some 79 then 1
      else if rest.head? = some 85 then 2
      else 4
    else if b = 68 then 3
    else 4

/-- The columns a route for a method is entered in. -/
def columns (methodIdx : Fin 5) (isAny : Bool) : List (Fin 5) :=
  if isAny then [0, 1, 2, 3, 4] else [methodIdx]

def methodBit (m : Fin 5) : BitVec 8 := 1#8 <<< m.val

def boolToMask (val : Bool) (m : Fin 5) : BitVec 8 := if val then methodBit m else 0

/-! ## Compiling -/

inductive BakePanic where
  | endpointLimit
  | duplicateRoute
  | indexOutOfRange
  deriving DecidableEq, Repr

/-- Marks a node as the end of a route for one method. -/
def SubRouteNode.setMethod (node : SubRouteNode) (epIdx : UInt32) (isStrict : Bool) (m : Fin 5) :
    Except BakePanic SubRouteNode :=
  if node.allowedMethods &&& methodBit m ≠ 0 then .error .duplicateRoute
  else .ok { node with
    allowedMethods := node.allowedMethods ||| methodBit m
    strictMethods := node.strictMethods ||| boolToMask isStrict m
    endpointIdx := fun i => if i = m then epIdx else node.endpointIdx i }

/-- Marks a node for its method, for each of the five in turn when it is `ANY`. -/
def SubRouteNode.setMethods (node : SubRouteNode) (epIdx : UInt32) (methodIdx : Fin 5)
    (isAny isStrict : Bool) : Except BakePanic SubRouteNode :=
  if isAny then
    [0, 1, 2, 3, 4].foldlM (fun node m => node.setMethod epIdx isStrict m) node
  else node.setMethod epIdx isStrict methodIdx

def registerTerminal (d : ApiDefinition) (nodeIdx epIdx : UInt32) (methodIdx : Fin 5)
    (isAny isStrict : Bool) : Except BakePanic ApiDefinition :=
  match d.subArena[nodeIdx.toNat]? with
  | none => .error .indexOutOfRange
  | some node =>
    match node.setMethods epIdx methodIdx isAny isStrict with
    | .error e => .error e
    | .ok node => .ok { d with subArena := d.subArena.set nodeIdx.toNat node }

/-- The bookkeeping of a parent that gets a child for `char` at `newIdx`. -/
def SubRouteNode.attach (parent : SubRouteNode) (char : UInt8) (newIdx : UInt32) : SubRouteNode :=
  let parent := if char < 64 then { parent with maskLo := parent.maskLo ||| bit char.toNat }
    else { parent with maskHi := parent.maskHi ||| bit (char - 64).toNat }
  { parent with
    childIdx := if parent.childIdx = 0 then newIdx else parent.childIdx
    numChildren := parent.numChildren + 1 }

/-- Registers at `idx` when the segment is the last one. -/
def registerLast (d : ApiDefinition) (idx : UInt32) (isLast : Bool) (epIdx : UInt32)
    (methodIdx : Fin 5) (isAny isStrict : Bool) : Except BakePanic (ApiDefinition × UInt32) :=
  if isLast then
    match registerTerminal d idx epIdx methodIdx isAny isStrict with
    | .error e => .error e
    | .ok d => .ok (d, idx)
  else .ok (d, idx)

/-- Builds or reuses the static branch for a segment. -/
def compileStaticSegment (d : ApiDefinition) (parentIdx : UInt32) (seg : List UInt8) (isLast : Bool)
    (epIdx : UInt32) (methodIdx : Fin 5) (isAny isStrict : Bool) :
    Except BakePanic (ApiDefinition × UInt32) :=
  match seg with
  | [] => registerLast d parentIdx isLast epIdx methodIdx isAny isStrict
  | char :: _ =>
    match d.subArena[parentIdx.toNat]? with
    | none => .error .indexOutOfRange
    | some parent =>
      let existingIdx := parent.findChildIdx char
      if existingIdx ≠ 0 then registerLast d existingIdx isLast epIdx methodIdx isAny isStrict
      else
        let newIdx := UInt32.ofNat d.subArena.length
        let arena := d.subArena ++ [{ prefixLen := UInt16.ofNat seg.length }]
        let d := { d with subArena := arena.set parentIdx.toNat (parent.attach char newIdx) }
        registerLast d newIdx isLast epIdx methodIdx isAny isStrict

/-- Always a new node: the parent's parameter child is whatever was compiled last. -/
def compileParamSegment (d : ApiDefinition) (parentIdx : UInt32) (seg : List UInt8) (isLast : Bool)
    (epIdx : UInt32) (methodIdx : Fin 5) (isAny isStrict : Bool) :
    Except BakePanic (ApiDefinition × UInt32) :=
  match d.subArena[parentIdx.toNat]? with
  | none => .error .indexOutOfRange
  | some parent =>
    let newIdx := UInt32.ofNat d.subArena.length
    let arena := d.subArena ++ [{ prefixLen := UInt16.ofNat seg.length }]
    let parent := { parent with hasParamChild := true, paramChildIdx := newIdx }
    let d := { d with subArena := arena.set parentIdx.toNat parent }
    registerLast d newIdx isLast epIdx methodIdx isAny isStrict

/-- `{name}`. -/
def isParam (seg : List UInt8) : Bool := seg.head? = some 123 && seg.getLast? = some 125

/-- The loop over the segments of a template. -/
def bakeSegments (epIdx : UInt32) (methodIdx : Fin 5) (isAny isStrict : Bool) :
    ApiDefinition → UInt32 → List (List UInt8) → Except BakePanic ApiDefinition
  | d, _, [] => .ok d
  | d, currIdx, seg :: rest =>
    let isLast := rest.isEmpty
    let next :=
      if isParam seg then compileParamSegment d currIdx seg isLast epIdx methodIdx isAny isStrict
      else compileStaticSegment d currIdx seg isLast epIdx methodIdx isAny isStrict
    match next with
    | .error e => .error e
    | .ok (d, currIdx) => bakeSegments epIdx methodIdx isAny isStrict d currIdx rest

/-- `strings.Trim(path, "/")`. -/
def trimSlashes (path : List UInt8) : List UInt8 :=
  ((path.dropWhile (· == slash)).reverse.dropWhile (· == slash)).reverse

/-- The segments of a template path; a bare path has one empty segment. -/
def segmentsOf (path : List UInt8) : List (List UInt8) :=
  if path = [] ∨ path = [slash] then [[]] else (trimSlashes path).splitOn slash

/-- The endpoint and the root node a registration starts from. -/
def openEndpoint (d : ApiDefinition) (apiRateLimitId endpointRateLimitId : UInt16) :
    ApiDefinition :=
  { d with
    endpoints := d.endpoints ++ [{
      endpointId := UInt8.ofNat d.endpoints.length
      apiRateLimitId := apiRateLimitId
      endpointRateLimitId := endpointRateLimitId }]
    subArena := if d.subArena.length = 0 then [{}] else d.subArena }

/-- Adds a template for a method. -/
def bakeSubRouter (d : ApiDefinition) (path method : List UInt8) (isStrict : Bool)
    (apiRateLimitId endpointRateLimitId : UInt16) : Except BakePanic ApiDefinition :=
  if d.endpoints.length > 255 then .error .endpointLimit
  else
    bakeSegments (UInt32.ofNat d.endpoints.length) (methodStringToIdx method)
      (method = Method.any.name) isStrict
      (openEndpoint d apiRateLimitId endpointRateLimitId) 0 (segmentsOf path)

/-! ## Resolving -/

/-- What routing reads and writes of a request. `params` are the entries of `Match.Params`
below `ParamCount`. -/
structure Ctx where
  method : List UInt8
  path : List UInt8
  params : List (UInt32 × UInt32) := []
  responseStatus : Nat := 0
  endpointId : UInt8 := 0
  apiRateLimitId : UInt16 := 0
  endpointRateLimitId : UInt16 := 0

/-- `len(ctx.Match.Params)`. -/
def maxParams : Nat := 10

inductive ResolveFault where
  | indexOutOfRange
  | outOfFuel
  deriving DecidableEq, Repr

/-- The end of the segment that starts at `pos`. -/
def segmentEnd (relPath : List UInt8) (pos : Nat) : Nat :=
  pos + ((relPath.drop pos).takeWhile (· != slash)).length

/-- One past `pos` when a slash stands there. -/
def skipSlash (relPath : List UInt8) (pos : Nat) : Nat :=
  if relPath[pos]? = some slash then pos + 1 else pos

/-- The walk over the arena: the node reached, or `none` for a 404, with the parameters
recorded on the way. -/
def resolveLoop (arena : List SubRouteNode) (relPath : List UInt8) (baseLen : Nat) :
    Nat → UInt32 → Nat → List (UInt32 × UInt32) →
      Except ResolveFault (Option UInt32 × List (UInt32 × UInt32))
  | 0, _, _, _ => .error .outOfFuel
  | fuel + 1, currIdx, strPos, params =>
    match relPath[strPos]? with
    | none => .ok (some currIdx, params)
    | some char =>
      match arena[currIdx.toNat]? with
      | none => .error .indexOutOfRange
      | some curr =>
        let nextIdx := curr.findChildIdx char
        if nextIdx ≠ 0 then
          match arena[nextIdx.toNat]? with
          | none => .error .indexOutOfRange
          | some next =>
            resolveLoop arena relPath baseLen fuel nextIdx
              (skipSlash relPath (strPos + next.prefixLen.toNat)) params
        else if curr.hasParamChild then
          let stop := segmentEnd relPath strPos
          let params := if params.length < maxParams then
              params ++ [(UInt32.ofNat (baseLen + strPos), UInt32.ofNat (baseLen + stop))]
            else params
          resolveLoop arena relPath baseLen fuel curr.paramChildIdx (skipSlash relPath stop) params
        else .ok (none, params)

/-- The length of the base path the request came in by. -/
def matchedBaseLen (d : ApiDefinition) (path : List UInt8) : Nat :=
  if d.baseRawPath.isPrefixOf path then d.baseRawPath.length
  else
    match d.aliasPaths.find? (fun a => a.isPrefixOf path) with
    | some a => a.length
    | none => 0

/-- The method and trailing-slash checks on the node the walk ended on. -/
def finish (d : ApiDefinition) (ctx : Ctx) (relPath : List UInt8) (nodeIdx : UInt32) :
    Except ResolveFault (Ctx × Option Endpoint) :=
  let mIdx := methodToIdx ctx.method
  match d.subArena[nodeIdx.toNat]? with
  | none => .error .indexOutOfRange
  | some node =>
    if node.allowedMethods &&& methodBit mIdx = 0 then
      .ok ({ ctx with responseStatus := 405 }, none)
    else if node.strictMethods &&& methodBit mIdx ≠ 0 ∧ relPath.getLast? = some slash then
      .ok ({ ctx with responseStatus := 404 }, none)
    else
      match d.endpoints[(node.endpointIdx mIdx).toNat]? with
      | none => .error .indexOutOfRange
      | some ep =>
        .ok ({ ctx with
          endpointId := ep.endpointId
          apiRateLimitId := ep.apiRateLimitId
          endpointRateLimitId := ep.endpointRateLimitId }, some ep)

/-- Stage two of routing: the endpoint of a request below the base path. -/
def resolveSubPath (ctx : Ctx) (d : ApiDefinition) : Except ResolveFault (Ctx × Option Endpoint) :=
  if d.subArena.length = 0 then .ok ({ ctx with responseStatus := 404 }, none)
  else
    let baseLen := matchedBaseLen d ctx.path
    let relPath := ctx.path.drop baseLen
    let strPos := if relPath.head? = some slash then 1 else 0
    match resolveLoop d.subArena relPath baseLen (relPath.length + 1) 0 strPos ctx.params with
    | .error e => .error e
    | .ok (none, params) => .ok ({ ctx with params := params, responseStatus := 404 }, none)
    | .ok (some nodeIdx, params) => finish d { ctx with params := params } relPath nodeIdx

end Rah.SubRouter
