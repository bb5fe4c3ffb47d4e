import Mathlib.Logic.Basic

/-!
# The rules of `validate_route`

A rule's condition is a tree of and/or nodes over checks of the request. `buildCondNodes`
flattens it in pre-order, each composite with the index of its first child and the number
of its children, and `evalNode` walks the flat array: it evaluates a child and then skips
its subtree, whose size `subtreeSize` computes anew.

The library functions the code calls (`gjson`, regular expressions, `strings.ToLower`) are
a parameter. The recursion of `subtreeSize` has no bound of its own, so it runs on fuel and
gives none when the fuel does not last; `room` is what is left to the depth limit of 8.
-/

namespace Rah.Validate

/-- What `gjson` finds at a path. -/
structure JsonResult where
  present : Bool
  text : String
  number : Float

/-- What the rules take from the standard library and from the JSON path reader. -/
structure Host where
  Pattern : Type
  toLower : String → String
  compile : String → Option Pattern
  matchString : Pattern → String → Bool
  gjson : String → String → JsonResult

/-- `condKind`: the composites and the leaf. -/
inductive CondKind where
  | condAnd
  | condOr
  | condLeaf
  deriving DecidableEq, Repr

/-- `sourceKind`: where a leaf reads from. -/
inductive SourceKind where
  | srcReqBody
  | srcRespBody
  | srcReqHeader
  | srcRespHeader
  | srcSlot
  deriving DecidableEq, Repr

/-- `checkKind`: what a leaf asks. -/
inductive CheckKind where
  | checkExists
  | checkMissing
  | checkEq
  | checkNEq
  | checkLt
  | checkGt
  | checkRegex
  | checkIn
  deriving DecidableEq, Repr

/-- `condNode`: a node of the flat array; its children follow it. -/
structure CondNode (P : Type) where
  kind : CondKind
  sourceKind : SourceKind
  check : CheckKind
  pathKey : BitVec 16
  valueStr : BitVec 16
  childStart : BitVec 16
  childCount : BitVec 8
  valueFloat : Float
  compiledPattern : Option P

/-- A condition as it is configured. -/
inductive CondConfig where
  | mk (op source path check value : String) (valueNum : Float) (inValues : List String)
      (children : List CondConfig)

/-- The operator of a configuration, empty at a leaf. -/
def CondConfig.op : CondConfig → String
  | .mk op _ _ _ _ _ _ _ => op

def CondConfig.children : CondConfig → List CondConfig
  | .mk _ _ _ _ _ _ _ children => children

/-! ## Building -/

/-- The errors of the builder. -/
inductive BuildError where
  | unknownSource (source : String)
  | unknownCheck (check : String)
  | regexCompile (pattern : String)
  /-- An and/or node without children: the build panics. -/
  | indexOutOfRange
  deriving DecidableEq, Repr

/-- The strings the nodes refer to. -/
structure Pools where
  paths : List String
  strs : List String

/-- The index of the string in the pool, where it is put if it is not there. -/
def internString (pool : List String) (s : String) : Nat × List String :=
  match pool.findIdx? (· == s) with
  | some i => (i, pool)
  | none => (pool.length, pool ++ [s])

/-- A path's index, at sixteen bits. -/
def Pools.internPath (p : Pools) (s : String) : BitVec 16 × Pools :=
  let r := internString p.paths s
  (BitVec.ofNat 16 r.1, { p with paths := r.2 })

/-- A value's index, at sixteen bits. -/
def Pools.internValue (p : Pools) (s : String) : BitVec 16 × Pools :=
  let r := internString p.strs s
  (BitVec.ofNat 16 r.1, { p with strs := r.2 })

/-- The digits of the text as a number. -/
def slotIndex (path : String) : Nat :=
  path.toList.foldl
    (fun idx ch => if '0' ≤ ch ∧ ch ≤ '9' then idx * 10 + (ch.toNat - 48) else idx) 0

section Build

variable (host : Host)

/-- A source's kind by its name; the request body is the default. -/
def sourceKind (source : String) : Except BuildError SourceKind :=
  let s := host.toLower source
  if s = "req_body" ∨ s = "" then .ok .srcReqBody
  else if s = "resp_body" then .ok .srcRespBody
  else if s = "req_header" then .ok .srcReqHeader
  else if s = "resp_header" then .ok .srcRespHeader
  else if s = "slot" then .ok .srcSlot
  else .error (.unknownSource source)

/-- A leaf with no operand. -/
def leafNode (src : SourceKind) (pathKey : BitVec 16) (check : CheckKind) :
    CondNode host.Pattern where
  kind := .condLeaf
  sourceKind := src
  check := check
  pathKey := pathKey
  valueStr := 0
  childStart := 0
  childCount := 0
  valueFloat := 0
  compiledPattern := none

/-- The check of a leaf, put into the node its source has given. -/
def buildCheck (node : CheckKind → CondNode host.Pattern) (check value : String)
    (valueNum : Float) (inValues : List String) (pools : Pools) :
    Except BuildError (CondNode host.Pattern × Pools) :=
  let c := host.toLower check
  if c = "exists" ∨ c = "" then .ok (node .checkExists, pools)
  else if c = "missing" then .ok (node .checkMissing, pools)
  else if c = "eq" then
    let r := pools.internValue value
    .ok ({ node .checkEq with valueStr := r.1 }, r.2)
  else if c = "neq" then
    let r := pools.internValue value
    .ok ({ node .checkNEq with valueStr := r.1 }, r.2)
  else if c = "lt" then .ok ({ node .checkLt with valueFloat := valueNum }, pools)
  else if c = "gt" then .ok ({ node .checkGt with valueFloat := valueNum }, pools)
  else if c = "regex" then
    match host.compile value with
    | none => .error (.regexCompile value)
    | some pat =>
      let r := pools.internValue value
      .ok ({ node .checkRegex with compiledPattern := some pat, valueStr := r.1 }, r.2)
  else if c = "in" then
    let r := pools.internValue (",".intercalate inValues)
    .ok ({ node .checkIn with valueStr := r.1 }, r.2)
  else .error (.unknownCheck check)

/-- `buildLeaf`: the source, the check and its operand. -/
def buildLeaf (source path check value : String) (valueNum : Float) (inValues : List String)
    (pools : Pools) : Except BuildError (CondNode host.Pattern × Pools) :=
  match sourceKind host source with
  | .error e => .error e
  | .ok .srcSlot =>
    buildCheck host (leafNode host .srcSlot (BitVec.ofNat 16 (slotIndex path))) check value
      valueNum inValues pools
  | .ok src =>
    let r := pools.internPath path
    buildCheck host (leafNode host src r.1) check value valueNum inValues r.2

/-- An and/or node. Its first child stands right behind it in the slice it is built in. -/
def compositeNode (kind : CondKind) (count : Nat) : CondNode host.Pattern where
  kind := kind
  sourceKind := .srcReqBody
  check := .checkExists
  pathKey := 0
  valueStr := 0
  childStart := 1
  childCount := BitVec.ofNat 8 count
  valueFloat := 0
  compiledPattern := none

/-- Whether a node is an and/or node; two children or more make one without an operator. -/
def isComposite (op : String) (count : Nat) : Bool :=
  host.toLower op = "and" ∨ host.toLower op = "or" ∨ (host.toLower op = "" ∧ 1 < count)

/-- Any operator but "or" is a conjunction. -/
def compositeKind (op : String) : CondKind :=
  if host.toLower op = "or" then .condOr else .condAnd

mutual

/-- `buildCondNodes`: a composite, then its children one subtree after the other. -/
def buildCondNodes : CondConfig → Pools →
    Except BuildError (List (CondNode host.Pattern) × Pools)
  | .mk op source path check value valueNum inValues children, pools =>
    if isComposite host op children.length then
      match buildChildren children pools with
      | .error e => .error e
      | .ok r =>
        if children.isEmpty then .error .indexOutOfRange
        else .ok (compositeNode host (compositeKind host op) children.length :: r.1, r.2)
    else
      match buildLeaf host source path check value valueNum inValues pools with
      | .error e => .error e
      | .ok r => .ok ([r.1], r.2)

/-- The loop over the children; the pools are threaded through. -/
def buildChildren : List CondConfig → Pools →
    Except BuildError (List (CondNode host.Pattern) × Pools)
  | [], pools => .ok ([], pools)
  | child :: children, pools =>
    match buildCondNodes child pools with
    | .error e => .error e
    | .ok r =>
      match buildChildren children r.2 with
      | .error e => .error e
      | .ok r' => .ok (r.1 ++ r'.1, r'.2)

end

/-- What a rule is evaluated from. -/
structure CompiledRule where
  nodes : List (CondNode host.Pattern)
  paths : List String
  strings : List String

/-- `buildCompiledRule`: the nodes and the pools of a condition. -/
def buildCompiledRule (when_ : CondConfig) : Except BuildError (CompiledRule host) :=
  match buildCondNodes host when_ ⟨[], []⟩ with
  | .error e => .error e
  | .ok r => .ok ⟨r.1, r.2.paths, r.2.strs⟩

end Build

/-! ## Leaves -/

/-- The part of the request context the checks read. -/
structure Ctx where
  requestBuffer : String
  responseBuffer : String
  /-- The header lookup of the request, if there is one. -/
  requestHeader : Option (String → String)
  responseHeaders : List (String × String)
  resHeaderCount : Nat
  byteSlots : List String

/-- The digits before the point. -/
def digitsOf : Float → List Char → Float × List Char
  | acc, [] => (acc, [])
  | acc, c :: cs =>
    if '0' ≤ c ∧ c ≤ '9' then digitsOf (acc * 10 + Float.ofNat (c.toNat - 48)) cs
    else (acc, c :: cs)

/-- The digits after the point. -/
def fractionOf : Float → Float → List Char → Float
  | acc, _, [] => acc
  | acc, dec, c :: cs =>
    if '0' ≤ c ∧ c ≤ '9' then
      fractionOf (acc + Float.ofNat (c.toNat - 48) * dec) (dec * 0.1) cs
    else acc

/-- `parseFloat64`: sign, digits and fraction; no exponent. -/
def parseFloat64 (s : String) : Float :=
  let neg := s.toList.head? = some '-'
  let r := digitsOf 0 (if neg then s.toList.tail else s.toList)
  let frac := if r.2.head? = some '.' then fractionOf 0 0.1 r.2.tail else 0
  if neg then -(r.1 + frac) else r.1 + frac

/-- The first response header of that name. -/
def findRespHeader (ctx : Ctx) (name : String) : String :=
  match (ctx.responseHeaders.take ctx.resHeaderCount).find? (fun h => h.1 == name) with
  | some h => h.2
  | none => ""

section Leaf

variable {host : Host}

/-- `evalStringCheck`: a check of a header or of a slot. -/
def evalStringCheck (val : String) (node : CondNode host.Pattern) (rule : CompiledRule host) :
    Bool :=
  match node.check with
  | .checkExists => val != ""
  | .checkMissing => val == ""
  | .checkEq => (rule.strings[node.valueStr.toNat]?).any (fun v => val == v)
  | .checkNEq => (rule.strings[node.valueStr.toNat]?).any (fun v => val != v)
  | .checkLt => parseFloat64 val < node.valueFloat
  | .checkGt => node.valueFloat < parseFloat64 val
  | .checkRegex => node.compiledPattern.any (fun pat => host.matchString pat val)
  | .checkIn => (rule.strings[node.valueStr.toNat]?).any (fun v => (v.splitOn ",").contains val)

/-- `evalBodyCheck`: a check of a JSON path; an empty body has nothing. -/
def evalBodyCheck (body path : String) (node : CondNode host.Pattern) (rule : CompiledRule host) :
    Bool :=
  if body = "" then node.check = .checkMissing
  else
    let result := host.gjson body path
    match node.check with
    | .checkExists => result.present
    | .checkMissing => !result.present
    | .checkLt => result.number < node.valueFloat
    | .checkGt => node.valueFloat < result.number
    | _ => evalStringCheck result.text node rule

/-- `evalLeaf`: the check at the leaf's source. -/
def evalLeaf (ctx : Ctx) (rule : CompiledRule host) (node : CondNode host.Pattern) : Bool :=
  let path := (rule.paths[node.pathKey.toNat]?).getD ""
  match node.sourceKind with
  | .srcReqBody => evalBodyCheck ctx.requestBuffer path node rule
  | .srcRespBody => evalBodyCheck ctx.responseBuffer path node rule
  | .srcReqHeader =>
    evalStringCheck ((ctx.requestHeader.map (fun get => get path)).getD "") node rule
  | .srcRespHeader => evalStringCheck (findRespHeader ctx path) node rule
  | .srcSlot => evalStringCheck ((ctx.byteSlots[node.pathKey.toNat]?).getD "") node rule

end Leaf

/-! ## Walking the array -/

section Walk

variable {P : Type} (nodes : List (CondNode P))

/-- The sizes of a number of siblings, from an index on, on top of a size. -/
def sizeLoop (size : Nat → Option Nat) : Nat → Nat → Nat → Option Nat
  | 0, _, acc => some acc
  | c + 1, childIdx, acc =>
    (size childIdx).bind (fun s => sizeLoop size c (childIdx + s) (acc + s))

/-- `subtreeSize`: the nodes of a subtree, counted by walking over its children. -/
def subtreeSize : Nat → Nat → Option Nat
  | 0, _ => none
  | fuel + 1, nodeIdx =>
    match nodes[nodeIdx]? with
    | none => some 0
    | some node =>
      if node.kind = .condLeaf then some 1
      else sizeLoop (subtreeSize fuel) node.childCount.toNat node.childStart.toNat 1

/-- Where the next sibling starts. -/
def nextSiblingIdx (fuel nodeIdx : Nat) : Option Nat :=
  (subtreeSize nodes fuel nodeIdx).map (nodeIdx + ·)

/-- The children of an and/or node in turn, until one has the value that decides. -/
def evalLoop (eval : Nat → Option Bool) (next : Nat → Option Nat) (decides : Bool) :
    Nat → Nat → Option Bool
  | 0, _ => some (!decides)
  | c + 1, childIdx =>
    if nodes.length ≤ childIdx then some false
    else (eval childIdx).bind (fun v =>
      if v = decides then some decides
      else (next childIdx).bind (evalLoop eval next decides c))

/-- `evalNode` at depth `9 - room`. -/
def evalNode (leaf : CondNode P → Bool) (fuel : Nat) : Nat → Nat → Option Bool
  | 0, _ => some false
  | room + 1, nodeIdx =>
    match nodes[nodeIdx]? with
    | none => some false
    | some node =>
      match node.kind with
      | .condAnd => evalLoop nodes (evalNode leaf fuel room) (nextSiblingIdx nodes fuel) false
          node.childCount.toNat node.childStart.toNat
      | .condOr => evalLoop nodes (evalNode leaf fuel room) (nextSiblingIdx nodes fuel) true
          node.childCount.toNat node.childStart.toNat
      | .condLeaf => some (leaf node)

end Walk

end Rah.Validate
