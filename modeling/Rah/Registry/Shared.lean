import Rah.Lib.Run
import Rah.Lib.Slices
import Rah.Registry.TenantIds

/-!
# Registry snapshots and the memory they share

A snapshot of the registry is a record of slices and pointers. A manager operation begins with a
shallow copy of the live snapshot and publishes the copy at its end, so that the snapshots share
what the operation did not replace: the matrices, the arenas of the key radix, the pool of values
and the tables of overrides.

The content of a slice is read through the memory (`view`), and an old snapshot is read through the
memory as it is now. Each kind of array has a memory of its own, and so has each kind of property,
for no slice ever moves from one field to another; array 0 is the one of the nil slice. Slices the
lookups do not read are left out, but for the length of `TenantModifiers`; an operation that only
writes to such a slice (`UpsertTenantRateLimit`, `SetRateLimitConfig`) publishes a copy.

Ids of tenants come from the actions of the operation on ids (`RegistryOp.acts`). The alias table of
a new snapshot is built anew and not written to afterwards; which table it is, and which ids the
names of configurations have, is left open (`Act`).
-/

namespace Rah.Registry.Shared

open Rah.Registry Rah.Lib

/-! ## The alias table -/

/-- A slot of the alias table; the name lies in the arena. -/
structure AliasSlot where
  hash : UInt64
  offset : Nat
  len : Nat
  /-- Zero for a free slot. -/
  tenantID : Nat

/-- The open-addressed table a published registry resolves aliases with. -/
structure AliasTable where
  slots : List AliasSlot
  mask : Nat
  stringArena : Bytes

def AliasTable.empty : AliasTable := { slots := [], mask := 0, stringArena := [] }

/-- The probe sequence, by fuel: `none` when it does not come to an end. -/
def AliasTable.lookupLoop (t : AliasTable) (h : UInt64) (aliasName : Bytes) :
    Nat → Nat → Option (Option Nat)
  | 0, _ => none
  | fuel + 1, idx =>
    match t.slots[idx]? with
    | none => none
    | some slot =>
      if slot.tenantID = 0 then some none
      else if slot.hash = h ∧ (t.stringArena.drop slot.offset).take slot.len = aliasName then
        some (some slot.tenantID)
      else t.lookupLoop h aliasName fuel ((idx + 1) &&& t.mask)

/-- The outer `none` is a probe that finds no end, the inner one an alias that is not found. -/
def AliasTable.lookup (hash : Bytes → UInt64) (t : AliasTable) (aliasName : Bytes) :
    Option (Option Nat) :=
  if t.slots.length = 0 then some none
  else t.lookupLoop (hash aliasName) aliasName (t.slots.length + 1)
    (uint32 (hash aliasName).toNat &&& t.mask)

/-! ## Memory and snapshots -/

/-- The arrays of one kind of properties. -/
structure StoreHeap where
  cells : List (List Nat)
  nodes : List (List RegistryNode)
  bytes : List Bytes

/-- The backing arrays that several published registries may share. -/
structure Heap where
  stores : Namespace → StoreHeap
  values : List (List Bytes)
  pointers : List (List (Option Nat))
  tables : List TenantV2OverrideTable

/-- The nil slice, in an array of length 0. -/
def nilSlice : Slice := ⟨0, 0⟩

/-- A heap with the arrays of the nil slices. -/
def Heap.empty : Heap where
  stores := fun _ => ⟨[[]], [[]], [[]]⟩
  values := [[]]
  pointers := [[]]
  tables := []

/-- A property store by its slices. -/
structure PropStore where
  matrix : Slice
  stride : Nat
  keys : Slice
  stringPool : Slice

/-- A published registry: its tables are slices into the heap. -/
structure TenantRegistry where
  aliases : AliasTable
  store : Namespace → PropStore
  valuePool : Slice
  tenantV2Overrides : Slice
  maxTenants : Nat
  tenantModifiers : Nat

/-- What a store holds. -/
def PropStore.content (h : StoreHeap) (r : PropStore) : Registry.PropStore where
  matrix := view h.cells r.matrix
  stride := r.stride
  keys := view h.nodes r.keys
  stringPool := view h.bytes r.stringPool

/-- The copy an operation works on, and the memory. -/
structure Live where
  heap : Heap
  reg : TenantRegistry

/-- What a store's slices hold. -/
def Live.content (w : Live) (ns : Namespace) : Registry.PropStore :=
  (w.reg.store ns).content (w.heap.stores ns)

def Live.setStore (w : Live) (ns : Namespace) (st : StoreHeap × PropStore) : Live where
  heap := { w.heap with stores := Function.update w.heap.stores ns st.1 }
  reg := { w.reg with store := Function.update w.reg.store ns st.2 }

/-! ## Lookups -/

/-- A number that names a value of a pool of the length. -/
def visible (len vID : Nat) : Option Nat := if vID = 0 ∨ vID ≥ len then none else some vID

/-- A property read through the slices. -/
def getPropByKeyID (h : Heap) (reg : TenantRegistry) (ns : Namespace) (tenantID keyID : Nat) :
    Option Bytes :=
  Registry.getPropByKeyID ((reg.store ns).content (h.stores ns)) (view h.values reg.valuePool)
    tenantID keyID

/-- A key's id, found through the slices. -/
def getStoreKeyID (h : Heap) (reg : TenantRegistry) (ns : Namespace) (key : Bytes) :
    Option (Option Nat) :=
  findKeyID (view (h.stores ns).nodes (reg.store ns).keys)
    (view (h.stores ns).bytes (reg.store ns).stringPool) key

/-- The pointer to a tenant's override table, which registries share. -/
def v2Pointer (h : Heap) (reg : TenantRegistry) (tenantID : Nat) : Option Nat :=
  (view h.pointers reg.tenantV2Overrides)[tenantID]?.join

/-- The table of a tenant. -/
def v2Table (h : Heap) (reg : TenantRegistry) (tenantID : Nat) : Option TenantV2OverrideTable :=
  (v2Pointer h reg tenantID).bind fun p => h.tables[p]?

/-- An override read through the pointer. -/
def lookupV2Override (h : Heap) (reg : TenantRegistry) (tenantID configID : Nat) :
    Option TenantV2ConfigOverride :=
  (v2Table h reg tenantID).bind fun tbl => tbl.find configID

/-- What a reader asks a registry it has loaded. -/
inductive Query where
  | aliasName (name : Bytes)
  | key (ns : Namespace) (name : Bytes)
  | prop (ns : Namespace) (tenantID keyID : Nat)
  | v2Override (tenantID configID : Nat)

/-- Numbers carry the panic of their lookup. -/
inductive Answer where
  | number (n : Option (Option Nat))
  | value (v : Option Bytes)
  | override (entry : Option TenantV2ConfigOverride)
  deriving DecidableEq

def lookup (hash : Bytes → UInt64) (h : Heap) (reg : TenantRegistry) : Query → Answer
  | .aliasName name => .number (reg.aliases.lookup hash name)
  | .key ns name => .number (getStoreKeyID h reg ns name)
  | .prop ns tenantID keyID => .value (getPropByKeyID h reg ns tenantID keyID)
  | .v2Override tenantID configID => .override (lookupV2Override h reg tenantID configID)

/-! ## Stores -/

/-- How much room `append` leaves. -/
structure Runtime where
  spareNodes : Nat → Nat → Nat
  spareBytes : Nat → Nat → Nat
  spareValues : Nat → Nat → Nat

/-- The matrix is copied into a new array; the key tree is shared. -/
def expandPropStore (st : StoreHeap × PropStore) (maxTenants newStride : Nat) :
    Option (StoreHeap × PropStore) :=
  (Registry.expandPropStore (st.2.content st.1) maxTenants newStride).map fun new =>
    ({ st.1 with cells := (alloc st.1.cells new.matrix).1 },
      { st.2 with matrix := (alloc st.1.cells new.matrix).2, stride := newStride })

def zeroNode : RegistryNode :=
  { prefixOffset := 0, prefixLen := 0, childBase := 0, childCount := 0, value := 0 }

section Runtime

variable (rt : Runtime)

/-- An empty radix gets its root. -/
def rooted (st : StoreHeap × PropStore) : List (List RegistryNode) × Slice :=
  if st.2.keys.len = 0 then
    append rt.spareNodes zeroNode st.1.nodes st.2.keys [{ zeroNode with childBase := 1 }]
  else (st.1.nodes, st.2.keys)

/-- The node of a new key, behind the others. -/
def leafed (st : StoreHeap × PropStore) (key : Bytes) (val : Nat) :
    List (List RegistryNode) × Slice :=
  append rt.spareNodes zeroNode (rooted rt st).1 (rooted rt st).2
    [{ zeroNode with
      prefixOffset := uint32 st.2.stringPool.len, prefixLen := uint16 key.length
      value := uint16 val }]

/-- The key is appended to the pool and its node to the tree, in place where there is room. -/
def insertIntoPropertiesRadix (st : StoreHeap × PropStore) (key : Bytes) (val : Nat) :
    StoreHeap × PropStore :=
  let pool := append rt.spareBytes 0 st.1.bytes st.2.stringPool key
  let nodes := leafed rt st key val
  -- the root is written to in place
  ({ st.1 with
      bytes := pool.1
      nodes := write nodes.1 nodes.2 fun l => l.modify 0
        (fun root => { root with childCount := uint16 (root.childCount + 1) }) },
    { st.2 with stringPool := pool.2, keys := nodes.2 })

/-- The number of rows of a new matrix. -/
def TenantRegistry.rows (reg : TenantRegistry) : Nat :=
  if reg.maxTenants = 0 then 128 else reg.maxTenants

/-- The id of a key, which is appended when it is missing. -/
def resolveOrCreateKey (ns : Namespace) (w : Live) (key : Bytes) : Option (Nat × Live) :=
  match resolveOrCreateStoreKey (w.content ns) key with
  | none => none
  | some (kID, false) => some (kID, w)
  | some (kID, true) =>
    match expandPropStore (w.heap.stores ns, w.reg.store ns) w.reg.rows
        (uint32 ((w.reg.store ns).stride + 1)) with
    | none => none
    | some st =>
      some (kID, { w with reg := { w.reg with maxTenants := w.reg.rows } }.setStore ns
        (insertIntoPropertiesRadix rt st key kID))

/-- The pool with its sentinel. -/
def withSentinel (w : Live) : Live :=
  if w.reg.valuePool.len = 0 then
    let pool := append rt.spareValues [] w.heap.values w.reg.valuePool [[]]
    ⟨{ w.heap with values := pool.1 }, { w.reg with valuePool := pool.2 }⟩
  else w

/-- A value's index in the pool, to which it is appended. -/
def internValue (w : Live) (value : Bytes) : Nat × Live :=
  if value.length = 0 then (0, w)
  else
    let w := withSentinel rt w
    match (view w.heap.values w.reg.valuePool).findIdx? (fun existing => existing == value) with
    | some i => (uint32 i, w)
    | none =>
      let pool := append rt.spareValues [] w.heap.values w.reg.valuePool [value]
      (uint32 w.reg.valuePool.len,
        ⟨{ w.heap with values := pool.1 }, { w.reg with valuePool := pool.2 }⟩)

/-- A cell is written to in place. -/
def setCell (ns : Namespace) (w : Live) (idx vID : Nat) : Live :=
  w.setStore ns ({ w.heap.stores ns with
    cells := write (w.heap.stores ns).cells (w.reg.store ns).matrix fun l => l.set idx vID },
    w.reg.store ns)

/-- One property of one tenant is set. -/
def setProp (tID : Nat) (w : Live) (p : Namespace × Bytes × Bytes) : Option Live :=
  match resolveOrCreateKey rt p.1 w p.2.1 with
  | none => none
  | some (kID, w) =>
    let (vID, w) := internValue rt w p.2.2
    let idx := uint32 (tID * (w.reg.store p.1).stride + kID)
    if idx < (w.reg.store p.1).matrix.len then some (setCell p.1 w idx vID) else none

/-- A map of properties, in the order in which the source's loop comes upon its keys. -/
def setProps (tID : Nat) (props : List (Namespace × Bytes × Bytes)) (w : Live) : Option Live :=
  props.foldlM (setProp rt tID) w

end Runtime

/-! ## Tenants -/

/-- The rows of a store grow, if it has columns. -/
def growRows (newMax : Nat) (w : Live) (ns : Namespace) : Option Live :=
  if (w.reg.store ns).stride > 0 then
    (expandPropStore (w.heap.stores ns, w.reg.store ns) newMax (w.reg.store ns).stride).map
      (w.setStore ns)
  else some w

/-- The pointers to the tables grow by a copy. -/
def growPointers (w : Live) (needed : Nat) : Live :=
  if needed > w.reg.tenantV2Overrides.len then
    let grown := alloc w.heap.pointers
      (growSlice none needed (view w.heap.pointers w.reg.tenantV2Overrides))
    ⟨{ w.heap with pointers := grown.1 }, { w.reg with tenantV2Overrides := grown.2 }⟩
  else w

/-- The slices and the rows grow for a new tenant. -/
def growFor (w : Live) (tID : Nat) : Option Live :=
  let needed := tID + 1
  let w := growPointers
    { w with reg := { w.reg with tenantModifiers := max w.reg.tenantModifiers needed } } needed
  if needed > w.reg.maxTenants then
    let newMax := uint16 (needed + 127)
    ([.urls, .ids, .metadata].foldlM (growRows newMax) w).map fun w =>
      { w with reg := { w.reg with maxTenants := newMax } }
  else some w

/-- A cell is set to zero, if the matrix has it. -/
def zeroCell (ns : Namespace) (w : Live) (idx : Nat) : Live :=
  if idx < (w.reg.store ns).matrix.len then setCell ns w idx 0 else w

/-- The cells of the row are set to zero, if the matrix has it. -/
def zeroStoreRow (tid : Nat) (w : Live) (ns : Namespace) : Live :=
  let store := w.reg.store ns
  if store.stride = 0 then w
  else
    let start := uint32 (tid * store.stride)
    if uint32 (start + store.stride) > store.matrix.len then w
    else ((List.range store.stride).map fun i => uint32 (start + i)).foldl (zeroCell ns) w

/-! ## Overrides -/

/-- The table is written to in place; a tenant without one gets a pointer to a new one. -/
def upsertV2 (w : Live) (tenantID configID : Nat) (entry : TenantV2ConfigOverride) : Live :=
  let w := growPointers w (tenantID + 1)
  match v2Pointer w.heap w.reg tenantID with
  | some p =>
    { w with heap := { w.heap with
      tables := w.heap.tables.modify p fun tbl => tbl.upsert configID entry } }
  | none =>
    { w with heap := { w.heap with
      tables := w.heap.tables ++ [OverrideTable.empty.upsert configID entry]
      pointers := write w.heap.pointers w.reg.tenantV2Overrides fun l =>
        l.set tenantID (some w.heap.tables.length) } }

/-- An override removed inside the shared table. -/
def deleteV2 (w : Live) (tenantID configID : Nat) : Live :=
  match v2Pointer w.heap w.reg tenantID with
  | some p =>
    { w with heap := { w.heap with
      tables := w.heap.tables.modify p fun tbl => tbl.remove configID } }
  | none => w

/-! ## Operations -/

/-- The manager and the global state it works on. -/
structure Manager where
  ids : Ids
  heap : Heap
  active : Option TenantRegistry

def Manager.empty : Manager := { ids := RegistryManager.empty.ids, heap := .empty, active := none }

/-- The registry a writer starts from. -/
def Manager.activeOrEmpty (s : Manager) : Live :=
  match s.active with
  | some reg => ⟨s.heap, reg⟩
  | none =>
    let pointers := alloc s.heap.pointers (List.replicate 128 none)
    { heap := { s.heap with pointers := pointers.1 }
      reg := { aliases := .empty
               store := fun _ => ⟨nilSlice, 0, nilSlice, nilSlice⟩
               valuePool := nilSlice
               tenantV2Overrides := pointers.2
               maxTenants := 128
               tenantModifiers := 128 } }

/-- The tenant of an alias; a new one gets its rows. -/
def resolveOrCreateTenant (ids : Ids) (w : Live) (aliasName : Bytes) : Option (Nat × Live) :=
  match ids.aliasMap aliasName with
  | some tID => some (tID, w)
  | none => (growFor w ids.alloc.1).map (Prod.mk ids.alloc.1)

/-- The cell of a property, if both names are known; the outer `none` is a panic. -/
def cellOf (ns : Namespace) (ids : Ids) (w : Live) (aliasName name : Bytes) : Option (Option Nat) :=
  match ids.aliasMap aliasName with
  | none => some none
  | some tID => (getStoreKeyID w.heap w.reg ns name).map fun found => found.map fun kID =>
      uint32 (tID * (w.reg.store ns).stride + kID)

/-- The tenant's rows are zeroed in the shared matrices. -/
def deleteTenant (ids : Ids) (w : Live) (aliasName : Bytes) : Option Live :=
  (ids.aliasMap aliasName).map fun tID => [.urls, .ids, .metadata].foldl (zeroStoreRow tID) w

def setModifier (w : Live) (tenantID : Nat) : Live :=
  { w with reg := { w.reg with tenantModifiers := max w.reg.tenantModifiers (tenantID + 1) } }

/-- Nothing is published if there is no such entry. -/
def deleteTenantV2Override (w : Live) (tenantID configID : Nat) : Option Live :=
  match (v2Table w.heap w.reg tenantID).map (OverrideTable.search · configID) with
  | some (.found _) => some (deleteV2 w tenantID configID)
  | _ => none

/-- An operation with what is left open: the alias table of the snapshot it publishes, and the ids
of named configurations. -/
structure Act where
  op : RegistryOp
  aliases : AliasTable
  rateLimitNames : Bytes → Option Nat

/-- The tenant and the configuration of two names. -/
def named (ids : Ids) (names : Bytes → Option Nat) (aliasName configName : Bytes) :
    Option (Nat × Nat) :=
  (ids.aliasMap aliasName).bind fun tID => (names configName).map (Prod.mk tID)

def overrideByName (ids : Ids) (names : Bytes → Option Nat) (w : Live)
    (aliasName configName : Bytes)
    (r : TenantV2OverrideRecord) : Option Live :=
  (named ids names aliasName configName).map fun p => upsertV2 w p.1 p.2 r.entry

/-- The properties of a record, in the order they are written. -/
def namedProps (serviceURLs identifiers metadata : List (Bytes × Bytes)) :
    List (Namespace × Bytes × Bytes) :=
  serviceURLs.map (Prod.mk .urls) ++ identifiers.map (Prod.mk .ids)
    ++ metadata.map (Prod.mk .metadata)

/-- A persisted id is reserved, and given to the first alias. -/
def restoredIds (ids : Ids) (t : TenantRecord) (first : Bytes) : Ids :=
  if t.persistedID ≠ 0 then ids.act (.claim first t.persistedID.toNat) else ids

section Operations

variable (rt : Runtime)

/-- The tenant of an alias is resolved or created, and properties are set. -/
def updateTenant (ids : Ids) (w : Live) (aliasName : Bytes)
    (props : List (Namespace × Bytes × Bytes)) : Option Live :=
  (resolveOrCreateTenant ids w aliasName).bind fun r => setProps rt r.1 props r.2

/-! What the operations publish: the outer `none` is a panic, the inner one nothing. -/

def restoreTenant (ids : Ids) (w : Live) (t : TenantRecord) : Option (Option Live) :=
  match t.aliases with
  | [] => some none
  | first :: _ => (updateTenant rt (restoredIds ids t first) w first
      (namedProps t.serviceURLs t.identifiers t.metadata)).map some

def applyAliases (ids : Ids) (w : Live) (primary : Bytes) :
    Option (List Bytes) → Option (Option Live)
  | some (_ :: _) => (updateTenant rt ids w primary []).map some
  | _ => some none

/-- Unlike in `DeleteServiceURL`, a cell that is not there is a panic. -/
def zeroProp (ns : Namespace) (ids : Ids) (w : Live) (aliasName name : Bytes) :
    Option (Option Live) :=
  match cellOf ns ids w aliasName name with
  | none => none
  | some none => some none
  | some (some idx) =>
    if idx < (w.reg.store ns).matrix.len then some (some (zeroCell ns w idx)) else none

def applyStorePut (codec : Codec) (ids : Ids) (names : Bytes → Option Nat) (w : Live)
    (value : Bytes) : StoreKey → Option (Option Live)
  | .aliases primary => applyAliases rt ids w primary (codec.aliases value)
  | .prop ns primary key => (updateTenant rt ids w primary [(ns, key, value)]).map some
  | .v2Override aliasName configName =>
    some ((codec.v2Override value).bind (overrideByName ids names w aliasName configName))
  | .modifier aliasName =>
    some ((codec.modifier value).bind fun _ => (ids.aliasMap aliasName).map (setModifier w))
  | .rateLimit _ => some ((codec.rateLimit value).map fun _ => w)

def applyStoreDelete (ids : Ids) (names : Bytes → Option Nat) (w : Live) :
    StoreKey → Option (Option Live)
  | .aliases primary => some (deleteTenant ids w primary)
  | .prop ns primary key => zeroProp ns ids w primary key
  | .v2Override aliasName configName =>
    some ((named ids names aliasName configName).bind fun p => deleteTenantV2Override w p.1 p.2)
  | .modifier aliasName =>
    some ((ids.aliasMap aliasName).bind fun tID =>
      if tID < w.reg.tenantModifiers then some w else none)
  | .rateLimit name => some ((names name).map fun _ => w)

/-- What an operation makes of the copy it begins with. -/
def work (codec : Codec) (ids : Ids) (names : Bytes → Option Nat) (w : Live) :
    RegistryOp → Option (Option Live)
  | .add ns aliasName name value => (updateTenant rt ids w aliasName [(ns, name, value)]).map some
  | .delete ns aliasName name =>
    (cellOf ns ids w aliasName name).map fun found => found.map (zeroCell ns w)
  | .upsert aliases urls props metadata =>
    match aliases with
    | [] => some none
    | first :: _ => (updateTenant rt ids w first (namedProps urls props metadata)).map some
  | .ensure ns key => (resolveOrCreateKey rt ns w key).map fun r => some r.2
  | .addAlias existingAlias _ => (updateTenant rt ids w existingAlias []).map some
  | .deleteTenant aliasName => some (deleteTenant ids w aliasName)
  | .registerTestTenant _ => (growFor w ids.testID).map some
  | .deleteTestTenant runID => some (deleteTenant ids w (testAlias runID))
  | .setModifier tenantID _ => some (some (setModifier w tenantID.toNat))
  | .upsertRateLimit _ _ _ => some (some w)
  | .upsertV2 tenantID configID entry =>
    some (some (upsertV2 w tenantID.toNat configID.toNat entry))
  | .deleteV2 tenantID configID =>
    some (deleteTenantV2Override w tenantID.toNat configID.toNat)
  | .upsertConfig _ => some (some w)
  | .ensureConfig _ => some none
  | .restoreTenant t => restoreTenant rt ids w t
  | .restoreOverride aliasName configName r =>
    some (overrideByName ids names w aliasName configName r)
  | .restoreModifier aliasName _ => some ((ids.aliasMap aliasName).map (setModifier w))
  | .applyStorePut rawKey value =>
    (parseKey rawKey).elim (some none) (applyStorePut rt codec ids names w value)
  | .applyStoreDelete rawKey =>
    (parseKey rawKey).elim (some none) (applyStoreDelete ids names w)

/-- What one operation makes of the registry it starts from. -/
def Manager.work (codec : Codec) (s : Manager) (a : Act) : Option (Option Live) :=
  Shared.work rt codec s.ids a.rateLimitNames s.activeOrEmpty a.op

/-- An operation publishes the registry it built, or has nothing to publish. -/
inductive Step (codec : Codec) : Manager → Act → Manager → Prop where
  | publish {s : Manager} {a : Act} {w : Live} : s.work rt codec a = some (some w) →
      Step codec s a
        { ids := (a.op.acts codec).foldl Ids.act s.ids
          heap := w.heap, active := some { w.reg with aliases := a.aliases } }
  | nothing {s : Manager} {a : Act} : s.work rt codec a = some none →
      Step codec s a { s with ids := (a.op.acts codec).foldl Ids.act s.ids }

end Operations

end Rah.Registry.Shared
