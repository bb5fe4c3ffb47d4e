import Rah.Lib.Lanes
import Rah.Lib.Forest
import Mathlib.Data.List.FinRange
import Mathlib.Logic.Function.Basic

/-!
# The inline index: model

`index_inline.go`. The index maps 64-bit tags to 64-bit values. It is a forest of tries,
one for each shard, whose nodes live in one pool: every node has four inline slots for
entries and eight children. A tag's low bits choose the shard and every three bits after
that a child. An entry stands in the first node of its tag's path that had a slot for it;
deleting it leaves a tombstone, and nodes that have become nearly empty are folded into
their parent (`tryCollapse`) and wait in the pool's queue until they may be used again.

The pool's memory is a function from node numbers: the chunks behind it are all zero when
they are allocated, which is the blank node. The clock enters as an argument.
-/

namespace Rah.Cache

open Rah.Lib List Function

/-- Tags and packed values are 64-bit words. -/
abbrev Word := BitVec 64

/-- How deep a shard's tree grows. -/
def iMaxDepth : Nat := 10

/-- The tag of a slot that was never used. -/
def iEmpty : Word := 0#64

/-- The tag of a slot whose entry was deleted. -/
def iTombstone : Word := BitVec.allOnes 64

/-- How long a freed node is kept from reuse, for the readers that may still see it. -/
def iGracePeriodNs : Int := 10000000

/-- A tag and its packed value. -/
@[ext]
structure ISlot where
  tag : Word
  val : Word
  deriving DecidableEq

/-- `iNode`: four slots, eight children, and the summary word over the tags. -/
structure INode where
  slots : Fin 4 → ISlot
  children : Fin 8 → Nat
  freedAt : Int
  h2word : Word

/-- A node as it comes from the allocator. -/
def INode.blank : INode :=
  { slots := fun _ => ⟨iEmpty, 0⟩, children := fun _ => 0, freedAt := 0, h2word := 0 }

/-- `h2ForTag`: the top sixteen bits of a tag, where 0 is kept for an empty slot. -/
def h2ForTag (tag : Word) : BitVec 16 :=
  let h := (tag >>> 48).setWidth 16
  if h = 0 then 1 else h

/-- One lane of the summary word replaced. -/
def h2Set (word : Word) (i : Fin 4) (v : BitVec 16) : Word :=
  (word &&& ~~~(0xFFFF#64 <<< (16 * i.val))) ||| (v.setWidth 64 <<< (16 * i.val))

/-- `h2AnyMatch`: the zero-lane test on the word xor the query in every lane. -/
def h2AnyMatch (word : Word) (queryH2 : BitVec 16) : Bool :=
  let x := word ^^^ (queryH2.setWidth 64 * 0x0001000100010001#64)
  (x - 0x0001000100010001#64) &&& ~~~x &&& 0x8000800080008000#64 != 0#64

/-- A slot without a live entry. -/
def isFree (tag : Word) : Bool := tag == iEmpty || tag == iTombstone

/-! ## The node pool -/

/-- `iNodePool`: the nodes, the bump pointer and the queue of detached nodes. -/
structure INodePool where
  nodes : Nat → INode
  next : Nat
  /-- Detached nodes, the oldest at `readyHd`. -/
  ready : List Nat
  readyHd : Nat

def INodePool.setNode (p : INodePool) (idx : Nat) (node : INode) : INodePool :=
  { p with nodes := update p.nodes idx node }

/-- A reused node is blank but for the time it was freed. -/
def resetNode (n : INode) : INode := { INode.blank with freedAt := n.freedAt }

/-- `p.next.Add(1) - 1`, on a `uint32`. -/
def INodePool.bump (p : INodePool) : Nat × INodePool :=
  (p.next, { p with next := (p.next + 1) % 4294967296 })

/-- A node that was never used. -/
def INodePool.allocNew (p : INodePool) : Nat × INodePool :=
  if p.bump.1 = 0 then p.bump.2.bump else p.bump

/-- `alloc`: a node whose grace period is over, or a new one. -/
def INodePool.alloc (p : INodePool) (now : Int) : Nat × INodePool :=
  match p.ready[p.readyHd]? with
  | some idx =>
    if now - (p.nodes idx).freedAt ≥ iGracePeriodNs then
      (idx, INodePool.setNode { p with readyHd := p.readyHd + 1 } idx (resetNode (p.nodes idx)))
    else p.allocNew
  | none => p.allocNew

/-- Detached nodes get the time and go to the end of the queue. -/
def INodePool.freeLater (p : INodePool) (indices : List Nat) (now : Int) : INodePool :=
  let stamped := indices.foldl (fun p idx => p.setNode idx { p.nodes idx with freedAt := now }) p
  let ready := p.ready ++ indices
  if p.readyHd > ready.length / 2 then
    { stamped with ready := ready.drop p.readyHd, readyHd := 0 }
  else { stamped with ready := ready }

/-! ## The index -/

/-- `InlineIndex`: one pool and a root for each shard. -/
structure InlineIndex where
  pool : INodePool
  shards : List Nat
  shardMask : Word
  shardBits : Nat

/-- The root nodes of `n` shards. -/
def allocRoots (now : Int) : Nat → INodePool → List Nat × INodePool
  | 0, p => ([], p)
  | n + 1, p =>
    let r := p.alloc now
    let rest := allocRoots now n r.2
    (r.1 :: rest.1, rest.2)

/-- `none` is the panic on too many shard bits. -/
def newInlineIndex (shardBits : Nat) (now : Int) : Option InlineIndex :=
  let shardBits := if shardBits = 0 then 8 else shardBits
  if shardBits > 20 then none
  else
    let numShards := 1 <<< shardBits
    let r := allocRoots now numShards
      { nodes := fun _ => INode.blank, next := 1, ready := [], readyHd := 0 }
    some { pool := r.2, shards := r.1, shardMask := BitVec.ofNat 64 (numShards - 1),
           shardBits := shardBits }

/-- The shard a tag belongs to, by its low bits. -/
def InlineIndex.shardOf (idx : InlineIndex) (tag : Word) : Nat := (tag &&& idx.shardMask).toNat

/-- The root of a tag's shard. -/
def InlineIndex.root (idx : InlineIndex) (tag : Word) : Nat := idx.shards.getD (idx.shardOf tag) 0

/-- The child a tag goes to: the next three bits. -/
def branch (tag : Word) (shift : Nat) : Fin 8 := Fin.ofNat 8 ((tag >>> shift) &&& 7#64).toNat

/-! ## Reading -/

/-- The first slot of a node that holds the tag. -/
def INode.slotOf (node : INode) (tag : Word) : Option (Fin 4) :=
  (finRange 4).find? (fun i => (node.slots i).tag == tag)

/-- At most so many nodes are visited. -/
def getLoop (p : INodePool) (tag : Word) : Nat → Nat → Nat → Option Word
  | 0, _, _ => none
  | visits + 1, nodeIdx, shift =>
    if nodeIdx = 0 then none
    else
      let node := p.nodes nodeIdx
      let hit := if h2AnyMatch node.h2word (h2ForTag tag) then node.slotOf tag else none
      match hit with
      | some i => some (node.slots i).val
      | none => getLoop p tag visits (node.children (branch tag shift)) (shift + 3)

/-- `Get`: the first slot with the tag on its path. -/
def InlineIndex.get (idx : InlineIndex) (tag : Word) : Option Word :=
  getLoop idx.pool tag (iMaxDepth + 1) (idx.root tag) idx.shardBits

/-! ## Writing -/

/-- A slot gets a new entry: its H2 group, its value and its tag. -/
def INode.put (node : INode) (i : Fin 4) (tag val : Word) : INode :=
  { node with
    h2word := h2Set node.h2word i (h2ForTag tag)
    slots := update node.slots i ⟨tag, val⟩ }

/-- A slot's value replaced, under the same tag. -/
def INode.setVal (node : INode) (i : Fin 4) (val : Word) : INode :=
  { node with slots := update node.slots i ⟨(node.slots i).tag, val⟩ }

/-- A slot turned into a tombstone. -/
def INode.bury (node : INode) (i : Fin 4) : INode :=
  { node with
    h2word := h2Set node.h2word i 0
    slots := update node.slots i ⟨iTombstone, 0⟩ }

/-- The slots are tried in order; `tomb` is the first tombstone met. -/
def insertLoop (node : INode) (tag val : Word) : List (Fin 4) → Option (Fin 4) → Option INode
  | [], some tomb => some (node.put tomb tag val)
  | [], none => none
  | i :: rest, tomb =>
    let t := (node.slots i).tag
    if t = tag then some (node.setVal i val)
    else if t = iEmpty then some (node.put i tag val)
    else if t = iTombstone then insertLoop node tag val rest (tomb.or (some i))
    else insertLoop node tag val rest tomb

/-- `none` when all slots are taken by other entries. -/
def insertAt (node : INode) (tag val : Word) : Option INode :=
  insertLoop node tag val (finRange 4) none

/-- The new child has its entry before its parent points to it. -/
def INodePool.addChild (p : INodePool) (nodeIdx : Nat) (b : Fin 8) (tag val : Word) (now : Int) :
    INodePool :=
  let r := p.alloc now
  let child := r.2.nodes r.1
  let p := r.2.setNode r.1 ((insertAt child tag val).getD child)
  let node := p.nodes nodeIdx
  p.setNode nodeIdx { node with children := update node.children b r.1 }

/-- The walk from a node that may go so many levels deeper. -/
def upsertLoop (tag val : Word) (now : Int) : Nat → INodePool → Nat → Nat → INodePool
  | levels, p, nodeIdx, shift =>
    let node := p.nodes nodeIdx
    match insertAt node tag val with
    | some node' => p.setNode nodeIdx node'
    | none =>
      let b := branch tag shift
      let childIdx := node.children b
      match levels with
      | 0 => p
      | levels + 1 =>
        if childIdx = 0 then p.addChild nodeIdx b tag val now
        else upsertLoop tag val now levels p childIdx (shift + 3)

/-- `Set`: an update of the tag's slot, or an insertion into the first free one. -/
def InlineIndex.set (idx : InlineIndex) (tag val : Word) (now : Int) : InlineIndex :=
  { idx with pool := upsertLoop tag val now iMaxDepth idx.pool (idx.root tag) idx.shardBits }

/-! ## Collapsing a node's children into it -/

/-- The live entries of a node, after those already collected; `none` when there are more
than a node holds. -/
def collectSlots (child : INode) : List (Fin 4) → List ISlot → Option (List ISlot)
  | [], live => some live
  | i :: rest, live =>
    let slot := child.slots i
    if isFree slot.tag then collectSlots child rest live
    else if live.length ≥ 4 then none
    else collectSlots child rest (live ++ [slot])

def INode.hasChildren (node : INode) : Bool := (finRange 8).any (node.children · != 0)

/-- The live entries of the children; `none` when a child has children of its own. -/
def collectChildren (p : INodePool) (parent : INode) :
    List (Fin 8) → List ISlot → Option (List ISlot)
  | [], live => some live
  | b :: rest, live =>
    let childIdx := parent.children b
    if childIdx = 0 then collectChildren p parent rest live
    else
      let child := p.nodes childIdx
      if child.hasChildren then none
      else
        match collectSlots child (finRange 4) live with
        | some live => collectChildren p parent rest live
        | none => none

/-- The entries go to the free slots, in order. -/
def fillSlots (node : INode) : List (Fin 4) → List ISlot → INode
  | _, [] => node
  | [], _ => node
  | i :: rest, e :: es =>
    if isFree (node.slots i).tag then fillSlots (node.put i e.tag e.val) rest es
    else fillSlots node rest (e :: es)

/-- `none` when the children stay; else the pool and the detached nodes. -/
def INodePool.tryCollapse (p : INodePool) (parentIdx : Nat) : Option (INodePool × List Nat) :=
  let parent := p.nodes parentIdx
  match collectChildren p parent (finRange 8) [] with
  | none => none
  | some childLive =>
    let freeSlots := (finRange 4).countP (fun i => isFree (parent.slots i).tag)
    if freeSlots < childLive.length then none
    else
      let filled := fillSlots parent (finRange 4) childLive
      let detached := ((finRange 8).map parent.children).filter (· != 0)
      some (p.setNode parentIdx { filled with children := fun _ => 0 }, detached)

/-! ## Deleting -/

/-- The entry of the tag becomes a tombstone. The path is given deepest node first. -/
def findPath (tag : Word) : Nat → INodePool → Nat → Nat → List Nat →
    Option (INodePool × List Nat)
  | 0, _, _, _, _ => none
  | visits + 1, p, nodeIdx, shift, path =>
    if nodeIdx = 0 then none
    else
      let node := p.nodes nodeIdx
      match node.slotOf tag with
      | some i => some (p.setNode nodeIdx (node.bury i), nodeIdx :: path)
      | none =>
        findPath tag visits p (node.children (branch tag shift)) (shift + 3) (nodeIdx :: path)

/-- Collapses into the parent of the path's last node, as long as that succeeds. -/
def collapseUp : List Nat → INodePool → List Nat → INodePool × List Nat
  | _ :: parentIdx :: path, p, freed =>
    match p.tryCollapse parentIdx with
    | some (p, detached) => collapseUp (parentIdx :: path) p (freed ++ detached)
    | none => (p, freed)
  | _, p, freed => (p, freed)

/-- Collapsed nodes wait for their grace period. -/
def INodePool.recycle (p : INodePool) (freed : List Nat) (now : Int) : INodePool :=
  if freed.length > 0 then p.freeLater freed now else p

/-- `Delete`: the slot is buried, and empty nodes are pruned upwards along the path. -/
def InlineIndex.delete (idx : InlineIndex) (tag : Word) (now : Int) : Bool × InlineIndex :=
  match findPath tag (iMaxDepth + 1) idx.pool (idx.root tag) idx.shardBits [] with
  | some (p, path) =>
    let r := collapseUp path p []
    (true, { idx with pool := r.1.recycle r.2 now })
  | none => (false, idx)

/-! ## Compaction -/

/-- `compactNode`: one attempt to collapse a node's children into it. -/
def INodePool.compactNode (p : INodePool) (nodeIdx : Nat) : INodePool × List Nat :=
  if nodeIdx = 0 then (p, []) else (p.tryCollapse nodeIdx).getD (p, [])

/-- Shard after shard; the clock is read once for each. -/
def InlineIndex.compactAll (idx : InlineIndex) (now : Nat → Int) : InlineIndex :=
  { idx with
    pool := idx.shards.zipIdx.foldl (fun p sh =>
      let r := p.compactNode sh.1
      r.1.recycle r.2 (now sh.2)) idx.pool }

/-- Children before their parent. The first argument bounds the depth; `none` is beyond. -/
def deepCompactNode : Nat → INodePool → Nat → Option (INodePool × List Nat)
  | 0, p, nodeIdx => if nodeIdx = 0 then some (p, []) else none
  | depth + 1, p, nodeIdx =>
    if nodeIdx = 0 then some (p, [])
    else do
      let r ← (finRange 8).foldlM (fun (r : INodePool × List Nat) b =>
        let childIdx := (r.1.nodes nodeIdx).children b
        if childIdx = 0 then some r
        else (deepCompactNode depth r.1 childIdx).map (fun c => (c.1, r.2 ++ c.2))) (p, [])
      let c := (r.1.tryCollapse nodeIdx).getD (r.1, [])
      some (c.1, r.2 ++ c.2)

/-- `DeepCompactAll`: every shard's tree collapsed from its leaves up. -/
def InlineIndex.deepCompactAll (idx : InlineIndex) (now : Nat → Int) : Option InlineIndex := do
  let pool ← idx.shards.zipIdx.foldlM (fun p sh => do
    let r ← deepCompactNode (iMaxDepth + 1) p sh.1
    some (r.1.recycle r.2 (now sh.2))) idx.pool
  some { idx with pool := pool }

end Rah.Cache
