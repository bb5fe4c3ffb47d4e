import Rah.Lib.BitRank

/-!
# The base-path router

Routes live in two forms. Writers work on a tree of `BuilderNode`s, where a route
is added by splitting prefixes. After every write the tree is *baked* into a flat
arena of `RouteNode`s and one table of prefix bytes, and readers walk the arena
only. This file is the router as the gateway runs it: the tree, the breadth-first
bake, and the lookup loop over the arena.

Strings and byte slices are lists of bytes. A Go `map[byte]*BuilderNode` is a list
of entries; nothing below depends on their order, since baking sorts the keys.
Indexing is checked explicitly, so a lookup that would leave the arena or the
table is a `Fault` and not a value.
-/

namespace Rah.Router

open Rah.Lib

/-! ## The builder tree -/

mutual

/-- The flexible node used for adding and splitting. -/
inductive BuilderNode where
  | mk (pfx : List UInt8) (apiId : UInt32) (children : BuilderMap)

/-- The children of a node, by the first byte of their prefix. -/
inductive BuilderMap where
  | nil
  | cons (key : UInt8) (child : BuilderNode) (rest : BuilderMap)

end

/-- The fragment of the path this node stands for. -/
def BuilderNode.pfx : BuilderNode → List UInt8
  | .mk pfx _ _ => pfx

/-- The api registered at this node, `0` for none. -/
def BuilderNode.apiId : BuilderNode → UInt32
  | .mk _ apiId _ => apiId

def BuilderNode.children : BuilderNode → BuilderMap
  | .mk _ _ children => children

/-- `len(children)`. -/
def BuilderMap.size : BuilderMap → Nat
  | .nil => 0
  | .cons _ _ rest => rest.size + 1

def BuilderMap.keys : BuilderMap → List UInt8
  | .nil => []
  | .cons key _ rest => key :: rest.keys

def BuilderMap.get? : BuilderMap → UInt8 → Option BuilderNode
  | .nil, _ => none
  | .cons key child rest, b => if key = b then some child else rest.get? b

def newBuilder : BuilderNode := .mk [] 0 .nil

/-- How many leading bytes two fragments share. -/
def commonLen : List UInt8 → List UInt8 → Nat
  | a :: as, b :: bs => if a = b then commonLen as bs + 1 else 0
  | _, _ => 0

mutual

/-- Register `apiName` at `path`, splitting this node's prefix where they part. -/
def BuilderNode.add : BuilderNode → List UInt8 → UInt32 → BuilderNode
  | .mk pfx apiId children, path, apiName =>
    -- an empty root takes the whole path
    if pfx = [] ∧ children.size = 0 then .mk path apiName children
    else
      let i := commonLen path pfx
      match pfx.drop i, path.drop i with
      | s :: suffix, b :: rest =>
        -- the prefix is split, and `i` being maximal, `b` is a new key next to `s`
        .mk (pfx.take i) 0
          (.cons s (.mk (s :: suffix) apiId children)
            (.cons b (.mk (b :: rest) apiName .nil) .nil))
      | s :: suffix, [] =>
        .mk (pfx.take i) apiName (.cons s (.mk (s :: suffix) apiId children) .nil)
      | [], b :: rest => .mk pfx apiId (children.addAt b (b :: rest) apiName)
      | [], [] => .mk pfx apiName children

/-- Descend into the child for byte `b`, or create it. -/
def BuilderMap.addAt : BuilderMap → UInt8 → List UInt8 → UInt32 → BuilderMap
  | .nil, b, path, apiName => .cons b (.mk path apiName .nil) .nil
  | .cons key child rest, b, path, apiName =>
    if key = b then .cons key (child.add path apiName) rest
    else .cons key child (rest.addAt b path apiName)

end

/-! ## The arena -/

/-- A node of the baked arena. -/
structure RouteNode where
  /-- Offset of the prefix in the prefix table. -/
  prefixOff : UInt32 := 0
  prefixLen : UInt16 := 0
  /-- Child keys 0 to 63. -/
  maskLo : BitVec 64 := 0
  /-- Child keys 64 to 127. -/
  maskHi : BitVec 64 := 0
  /-- Arena index of the first child; the others follow it. -/
  childIdx : UInt32 := 0
  numChildren : UInt16 := 0
  apiId : UInt32 := 0
  deriving DecidableEq, Repr

/-- The arena index of the child for byte `b`, by rank in the two masks. -/
def RouteNode.findChildIdx (n : RouteNode) (b : UInt8) : Option UInt32 :=
  let isHi : BitVec 64 := BitVec.ofNat 64 (b.toNat >>> 6)
  let bitIdx := b.toNat &&& 63
  let all : BitVec 64 := 0xFFFFFFFFFFFFFFFF#64
  let targetMask := (n.maskLo &&& ~~~(isHi * all)) ||| (n.maskHi &&& (isHi * all))
  if targetMask &&& bit bitIdx = 0 then none
  else
    let loCount := onesCount n.maskLo
    let idx := UInt32.ofNat loCount * UInt32.ofNat isHi.toNat
      + UInt32.ofNat (onesCount (targetMask &&& (bit bitIdx - 1#64)))
    some (n.childIdx + idx)

/-! ## Baking -/

/-- The node a builder node starts out as, before its children are laid out. -/
def bareNode (off : Nat) (n : BuilderNode) : RouteNode :=
  { prefixOff := UInt32.ofNat off, prefixLen := UInt16.ofNat n.pfx.length, apiId := n.apiId }

/-- What the breadth-first loop carries: arena, prefix table and pending tasks. -/
structure BakeState where
  nodes : List RouteNode
  table : List UInt8
  queue : List (BuilderNode × Nat)

/-- Set the bit of a child key. A shift past the word leaves the mask as it is. -/
def RouteNode.setMask (n : RouteNode) (b : UInt8) : RouteNode :=
  if b < 64 then { n with maskLo := n.maskLo ||| bit b.toNat }
  else { n with maskHi := n.maskHi ||| bit (b.toNat - 64) }

/-- Append one child of the node at `idx` to arena, table and queue. -/
def bakeChild (idx : Nat) (s : BakeState) (b : UInt8) (child : BuilderNode) : BakeState :=
  { nodes := s.nodes.modify idx (·.setMask b) ++ [bareNode s.table.length child]
    table := s.table ++ child.pfx
    queue := s.queue ++ [(child, s.nodes.length)] }

/-- The body of the loop over the sorted keys. -/
def bakeKey (children : BuilderMap) (idx : Nat) (s : BakeState) (b : UInt8) : BakeState :=
  match children.get? b with
  | some child => bakeChild idx s b child
  | none => s

def BuilderMap.sortedKeys (m : BuilderMap) : List UInt8 := m.keys.insertionSort (· ≤ ·)

/-- One turn of the loop: lay out the children of `temp`, which stands at `idx`. -/
def bakeTask (s : BakeState) (temp : BuilderNode) (idx : Nat) : BakeState :=
  if temp.children.size = 0 then s
  else
    let s' := { s with
      nodes := s.nodes.modify idx fun n =>
        { n with
          childIdx := UInt32.ofNat s.nodes.length
          numChildren := UInt16.ofNat temp.children.size } }
    temp.children.sortedKeys.foldl (bakeKey temp.children idx) s'

def bakeLoop : Nat → BakeState → BakeState
  | 0, s => s
  | fuel + 1, s =>
    match s.queue with
    | [] => s
    | (temp, idx) :: queue => bakeLoop fuel (bakeTask { s with queue := queue } temp idx)

mutual

/-- The number of nodes of a tree, which is the number of turns the bake takes. -/
def BuilderNode.count : BuilderNode → Nat
  | .mk _ _ children => children.count + 1

def BuilderMap.count : BuilderMap → Nat
  | .nil => 0
  | .cons _ child rest => child.count + rest.count

end

def bakeInit (bn : BuilderNode) : BakeState :=
  { nodes := [bareNode 0 bn], table := bn.pfx, queue := [(bn, 0)] }

/-- Lay the tree out breadth first. -/
def BuilderNode.bakeToArena (bn : BuilderNode) : List RouteNode × List UInt8 :=
  let s := bakeLoop bn.count (bakeInit bn)
  (s.nodes, s.table)

/-! ## The router -/

/-- What a reader could run into. -/
inductive Fault where
  | sliceOutOfRange
  | indexOutOfRange
  | outOfFuel
  deriving DecidableEq, Repr

/-- The byte between two segments. -/
def slash : UInt8 := 47

/-- At a segment boundary: the input is used up or goes on with a slash. -/
def atBoundary (input : List UInt8) : Bool := input = [] || input.head? = some slash

/-- The lookup loop. Every turn but the first consumes input. -/
def lookupLoop (arena : List RouteNode) (table : List UInt8) :
    Nat → RouteNode → List UInt8 → UInt32 → Except Fault UInt32
  | 0, _, _, _ => .error .outOfFuel
  | fuel + 1, curr, input, longestMatch =>
    let lo := curr.prefixOff.toNat
    let hi := (curr.prefixOff + curr.prefixLen.toUInt32).toNat
    if hi < lo ∨ table.length < hi then .error .sliceOutOfRange
    else
      let pfx := (table.drop lo).take (hi - lo)
      -- 1. structural match: does the input start with this fragment?
      if input.length < pfx.length ∨ input.take pfx.length ≠ pfx then .ok longestMatch
      else
        let input := input.drop pfx.length
        -- 2. boundary check
        let longestMatch := if curr.apiId ≠ 0 ∧ atBoundary input then curr.apiId else longestMatch
        match input with
        -- 3. exact match exit
        | [] => .ok curr.apiId
        -- 4. the child for the next character
        | b :: _ =>
          match curr.findChildIdx b with
          | none => .ok longestMatch
          | some idx =>
            match arena[idx.toNat]? with
            | none => .error .indexOutOfRange
            | some next => lookupLoop arena table fuel next input longestMatch

/-- The router: the builder tree and the snapshot readers see. -/
structure RahRouter where
  builder : BuilderNode
  arena : List RouteNode
  table : List UInt8

def RahRouter.new : RahRouter := { builder := newBuilder, arena := [], table := [] }

/-- Bake the builder and publish the result. -/
def RahRouter.publish (bn : BuilderNode) : RahRouter :=
  { builder := bn, arena := bn.bakeToArena.1, table := bn.bakeToArena.2 }

def RahRouter.add (r : RahRouter) (path : List UInt8) (apiId : UInt32) : RahRouter :=
  .publish (r.builder.add path apiId)

/-- Add several routes and bake once. The list is the map in the order it is ranged over. -/
def RahRouter.addMany (r : RahRouter) (routes : List (List UInt8 × UInt32)) : RahRouter :=
  .publish (routes.foldl (fun bn route => bn.add route.1 route.2) r.builder)

def RahRouter.lookup (r : RahRouter) (path : List UInt8) : Except Fault UInt32 :=
  match r.arena with
  | [] => .ok 0
  | root :: _ => lookupLoop r.arena r.table (path.length + 2) root path 0

end Rah.Router
