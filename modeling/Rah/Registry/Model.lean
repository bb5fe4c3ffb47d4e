import Mathlib.Data.List.Basic

/-!
# The tenant registry's property stores

A registry holds one store for each kind of property: service URLs, identifiers and
metadata. A store is a matrix with a row for each tenant and a column for each key name.
A cell holds the number of a value in a pool that all stores share; zero is an unset cell.
Key names lead to columns through a flat radix arena, whose root has all keys as children.

Manager operations work on a copy of the live registry and publish it at their end. They
are modelled one after another; an operation that panics is `none`. The mirror of the
tenants' data, the alias table and the rate limit tables are left out, for nothing here
reads them.
-/

namespace Rah.Registry

abbrev Bytes := List UInt8

def uint16 (n : Nat) : Nat := n % 65536

def uint32 (n : Nat) : Nat := n % 4294967296

/-- `RegistryNode`: a node of the key tree over the string pool. -/
structure RegistryNode where
  prefixOffset : Nat
  prefixLen : Nat
  childBase : Nat
  childCount : Nat
  value : Nat
  deriving DecidableEq, Repr

/-- One namespace: a matrix of value ids by tenant and key, and the tree of the keys. -/
structure PropStore where
  /-- Row after row. -/
  matrix : List Nat
  stride : Nat
  keys : List RegistryNode
  stringPool : Bytes
  deriving DecidableEq, Repr

def PropStore.empty : PropStore := { matrix := [], stride := 0, keys := [], stringPool := [] }

/-- The kinds of properties. -/
inductive Namespace where
  | urls
  | ids
  | metadata
  deriving DecidableEq, Repr

/-- What a writer builds and publishes: the three stores and the values. -/
structure TenantRegistry where
  store : Namespace → PropStore
  valuePool : List Bytes
  maxTenants : Nat

def TenantRegistry.setStore (reg : TenantRegistry) (ns : Namespace) (store : PropStore) :
    TenantRegistry :=
  { reg with store := fun ns' => if ns' = ns then store else reg.store ns' }

/-- The manager and the global state it works on. -/
structure Manager where
  aliasMap : Bytes → Option Nat
  nextAvailableTenantID : Nat
  freeSlots : List Nat
  active : Option TenantRegistry

/-- The manager before anything was registered; id 0 is not given out. -/
def Manager.empty : Manager :=
  { aliasMap := fun _ => none, nextAvailableTenantID := 1, freeSlots := [], active := none }

/-! ## The key radix -/

/-- The child of a node that begins with the byte. -/
def findChild (nodes : List RegistryNode) (pool : Bytes) (base : Nat) (nextChar : UInt8) :
    Nat → Nat → Option (Option Nat)
  | 0, _ => some none
  | count + 1, i =>
    match nodes[uint32 (base + i)]? with
    | none => none
    | some child =>
      match pool[child.prefixOffset]? with
      | none => none
      | some b =>
        if b = nextChar then some (some (uint32 (base + i)))
        else findChild nodes pool base nextChar count (i + 1)

/-- The loop of `findKeyID`, with the input that is left. -/
def findKeyIDLoop (nodes : List RegistryNode) (pool : Bytes) :
    Nat → Nat → Bytes → Option (Option Nat)
  | 0, _, _ => none
  | fuel + 1, currIdx, input =>
    match nodes[currIdx]? with
    | none => none
    | some node =>
      if uint32 (node.prefixOffset + node.prefixLen) > pool.length then none
      else
        let pfx := (pool.drop node.prefixOffset).take node.prefixLen
        if pfx.length > input.length then some none
        else if input.take pfx.length ≠ pfx then some none
        else
          match input.drop pfx.length with
          | [] => some (some node.value)
          | nextChar :: rest =>
            match findChild nodes pool node.childBase nextChar node.childCount 0 with
            | none => none
            | some none => some none
            | some (some childIdx) => findKeyIDLoop nodes pool fuel childIdx (nextChar :: rest)

/-- The outer `none` is a panic, the inner one a key that is not found. -/
def findKeyID (nodes : List RegistryNode) (pool : Bytes) (input : Bytes) : Option (Option Nat) :=
  if nodes.length = 0 ∨ input.length = 0 then some none
  else findKeyIDLoop nodes pool (nodes.length + 1) 0 input

/-- `insertIntoPropertiesRadix`: the key becomes a child of the root. -/
def insertIntoPropertiesRadix (store : PropStore) (key : Bytes) (val : Nat) : PropStore :=
  let nodes := if store.keys.length = 0 then
      [{ prefixOffset := 0, prefixLen := 0, childBase := 1, childCount := 0, value := 0 }]
    else store.keys
  let newNode := { prefixOffset := uint32 store.stringPool.length, prefixLen := uint16 key.length,
                   childBase := 0, childCount := 0, value := uint16 val }
  { store with
    stringPool := store.stringPool ++ key
    keys := (nodes ++ [newNode]).modify 0
      (fun root => { root with childCount := uint16 (root.childCount + 1) }) }

/-! ## The matrix -/

/-- `copy(dst[start:start+n], src)`, for a source of at least `n` cells. -/
def copyRow (dst : List Nat) (start : Nat) (row : List Nat) : Option (List Nat) :=
  if start + row.length ≤ dst.length then
    some (dst.take start ++ row ++ dst.drop (start + row.length))
  else none

/-- The body of the migration loop. -/
def migrateRow (old : PropStore) (newStride : Nat) (newMatrix : List Nat) (tID : Nat) :
    Option (List Nat) :=
  let oldStart := uint32 (tID * old.stride)
  let newStart := uint32 (tID * newStride)
  if uint32 (oldStart + old.stride) ≤ old.matrix.length then
    copyRow newMatrix newStart ((old.matrix.drop oldStart).take old.stride)
  else some newMatrix

/-- `expandPropStore`: the rows copied into a matrix with a longer stride. -/
def expandPropStore (old : PropStore) (maxTenants newStride : Nat) : Option PropStore :=
  let newMatrix := List.replicate (uint32 (maxTenants * newStride)) 0
  let migrated :=
    if old.stride > 0 then (List.range maxTenants).foldlM (migrateRow old newStride) newMatrix
    else some newMatrix
  migrated.map (fun m => { old with matrix := m, stride := newStride })

/-- The column of a key, and whether it is a new one. -/
def resolveOrCreateStoreKey (store : PropStore) (key : Bytes) : Option (Nat × Bool) :=
  match findKeyID store.keys store.stringPool key with
  | none => none
  | some (some kID) => some (kID, false)
  | some none => some (uint16 store.stride, true)

/-- The id of a key in a namespace, created when it is missing. -/
def resolveOrCreateKey (ns : Namespace) (reg : TenantRegistry) (key : Bytes) :
    Option (Nat × TenantRegistry) :=
  match resolveOrCreateStoreKey (reg.store ns) key with
  | none => none
  | some (kID, false) => some (kID, reg)
  | some (kID, true) =>
    let maxTenants := if reg.maxTenants = 0 then 128 else reg.maxTenants
    match expandPropStore (reg.store ns) maxTenants (uint32 ((reg.store ns).stride + 1)) with
    | none => none
    | some store =>
      some (kID, { reg with maxTenants := maxTenants }.setStore ns
        (insertIntoPropertiesRadix store key kID))

/-! ## Values and tenants -/

/-- `internValue`: a value's index; the empty value is index 0. -/
def internValue (reg : TenantRegistry) (value : Bytes) : Nat × TenantRegistry :=
  if value.length = 0 then (0, reg)
  else
    let pool := if reg.valuePool.length = 0 then [[]] else reg.valuePool
    match pool.findIdx? (fun existing => existing == value) with
    | some i => (uint32 i, { reg with valuePool := pool })
    | none => (uint32 pool.length, { reg with valuePool := pool ++ [value] })

/-- The rows of a store grow, if it has columns. -/
def growRows (store : PropStore) (newMax : Nat) : Option PropStore :=
  if store.stride > 0 then expandPropStore store newMax store.stride else some store

/-- An alias set to a tenant. -/
def Manager.setAlias (s : Manager) (aliasName : Bytes) (tID : Nat) : Manager :=
  { s with aliasMap := fun a => if a = aliasName then some tID else s.aliasMap a }

/-- A free tenant id. -/
def Manager.allocTenant (s : Manager) : Nat × Manager :=
  match s.freeSlots.getLast? with
  | some tID => (tID, { s with freeSlots := s.freeSlots.dropLast })
  | none => (uint16 s.nextAvailableTenantID,
      { s with nextAvailableTenantID := uint32 (s.nextAvailableTenantID + 1) })

/-- The tenant of an alias; a new one gets its rows. -/
def resolveOrCreateTenant (s : Manager) (reg : TenantRegistry) (aliasName : Bytes) :
    Option (Nat × Manager × TenantRegistry) :=
  match s.aliasMap aliasName with
  | some id => some (id, s, reg)
  | none =>
    let (tID, s) := s.allocTenant
    let s := s.setAlias aliasName tID
    let needed := tID + 1
    if needed > reg.maxTenants then
      let newMax := uint16 (needed + 127)
      match growRows (reg.store .urls) newMax, growRows (reg.store .ids) newMax,
          growRows (reg.store .metadata) newMax with
      | some urls, some ids, some metadata =>
        let reg := ((reg.setStore .urls urls).setStore .ids ids).setStore .metadata metadata
        some (tID, s, { reg with maxTenants := newMax })
      | _, _, _ => none
    else some (tID, s, reg)

/-- The rows of the matrices grow for a new tenant. -/
def growFor (reg : TenantRegistry) (tID : Nat) : Option TenantRegistry :=
  let needed := tID + 1
  if needed > reg.maxTenants then
    let newMax := uint16 (needed + 127)
    match growRows (reg.store .urls) newMax, growRows (reg.store .ids) newMax,
        growRows (reg.store .metadata) newMax with
    | some urls, some ids, some metadata =>
      let reg := ((reg.setStore .urls urls).setStore .ids ids).setStore .metadata metadata
      some { reg with maxTenants := newMax }
    | _, _, _ => none
  else some reg

/-- The published registry, or a first one for 128 tenants. -/
def Manager.activeOrEmpty (s : Manager) : TenantRegistry :=
  s.active.getD { store := fun _ => PropStore.empty, valuePool := [], maxTenants := 128 }

/-! ## Operations -/

/-- One property of one tenant is set. -/
def setProp (ns : Namespace) (tID : Nat) (reg : TenantRegistry) (key value : Bytes) :
    Option TenantRegistry :=
  match resolveOrCreateKey ns reg key with
  | none => none
  | some (kID, reg) =>
    let (vID, reg) := internValue reg value
    let store := reg.store ns
    let idx := uint32 (tID * store.stride + kID)
    if idx < store.matrix.length then
      some (reg.setStore ns { store with matrix := store.matrix.set idx vID })
    else none

/-- The writers of a property: tenant, key and value resolved, and the cell written. -/
def addProp (ns : Namespace) (s : Manager) (aliasName name value : Bytes) : Option Manager :=
  match resolveOrCreateTenant s s.activeOrEmpty aliasName with
  | none => none
  | some (tID, s, reg) =>
    (setProp ns tID reg name value).map (fun reg => { s with active := some reg })

def addServiceURL (s : Manager) (aliasName name value : Bytes) : Option Manager :=
  addProp .urls s aliasName name value

def addIdentifier (s : Manager) (aliasName name value : Bytes) : Option Manager :=
  addProp .ids s aliasName name value

def addMeta (s : Manager) (aliasName name value : Bytes) : Option Manager :=
  addProp .metadata s aliasName name value

/-- The deletions of a property: the cell of a known tenant and key is zeroed. -/
def deleteProp (ns : Namespace) (s : Manager) (aliasName name : Bytes) : Option Manager :=
  match s.aliasMap aliasName with
  | none => some s
  | some tID =>
    let reg := s.activeOrEmpty
    let store := reg.store ns
    match findKeyID store.keys store.stringPool name with
    | none => none
    | some none => some s
    | some (some kID) =>
      let idx := uint32 (tID * store.stride + kID)
      let matrix := if idx < store.matrix.length then store.matrix.set idx 0 else store.matrix
      some { s with active := some (reg.setStore ns { store with matrix := matrix }) }

def deleteServiceURL (s : Manager) (aliasName name : Bytes) : Option Manager :=
  deleteProp .urls s aliasName name

def deleteIdentifier (s : Manager) (aliasName name : Bytes) : Option Manager :=
  deleteProp .ids s aliasName name

def deleteMeta (s : Manager) (aliasName name : Bytes) : Option Manager :=
  deleteProp .metadata s aliasName name

/-- A map of properties, in the order in which the source's loop comes upon its keys. -/
def setProps (ns : Namespace) (tID : Nat) (props : List (Bytes × Bytes)) (reg : TenantRegistry) :
    Option TenantRegistry :=
  props.foldlM (fun reg p => setProp ns tID reg p.1 p.2) reg

/-- `UpsertTenantState`: a tenant's aliases and properties in one publication. -/
def upsertTenantState (s : Manager) (aliases : List Bytes)
    (serviceURLs identifiers metadata : List (Bytes × Bytes)) : Option Manager :=
  match aliases with
  | [] => some s
  | aliasName :: more =>
    match resolveOrCreateTenant s s.activeOrEmpty aliasName with
    | none => none
    | some (tID, s, reg) =>
      let s := more.foldl (fun s a => s.setAlias a tID) s
      match setProps .urls tID serviceURLs reg with
      | none => none
      | some reg =>
        match setProps .ids tID identifiers reg with
        | none => none
        | some reg =>
          (setProps .metadata tID metadata reg).map (fun reg => { s with active := some reg })

/-- The `Ensure…KeyID` functions: a key's id, published. -/
def ensureKeyID (ns : Namespace) (s : Manager) (key : Bytes) : Option (Nat × Manager) :=
  (resolveOrCreateKey ns s.activeOrEmpty key).map
    (fun r => (r.1, { s with active := some r.2 }))

def ensureURLKeyID (s : Manager) (key : Bytes) : Option (Nat × Manager) :=
  ensureKeyID .urls s key

def ensureIDKeyID (s : Manager) (key : Bytes) : Option (Nat × Manager) :=
  ensureKeyID .ids s key

def ensureMetaKeyID (s : Manager) (key : Bytes) : Option (Nat × Manager) :=
  ensureKeyID .metadata s key

/-! ## Reads -/

/-- The readers' arithmetic: a cell of the matrix and the value it names. -/
def getPropByKeyID (store : PropStore) (valuePool : List Bytes) (tenantID keyID : Nat) :
    Option Bytes :=
  let matrixIdx := uint32 (tenantID * store.stride + keyID)
  if matrixIdx ≥ store.matrix.length then none
  else
    match store.matrix[matrixIdx]? with
    | none => none
    | some vID => if vID = 0 ∨ vID ≥ valuePool.length then none else valuePool[vID]?

/-- The readers, on what is published. -/
def getByKeyID (ns : Namespace) (s : Manager) (tenantID keyID : Nat) : Option Bytes :=
  match s.active with
  | none => none
  | some reg =>
    if (reg.store ns).stride = 0 then none
    else getPropByKeyID (reg.store ns) reg.valuePool tenantID keyID

def getURLByKeyID (s : Manager) (tenantID keyID : Nat) : Option Bytes :=
  getByKeyID .urls s tenantID keyID

def getIDByKeyID (s : Manager) (tenantID keyID : Nat) : Option Bytes :=
  getByKeyID .ids s tenantID keyID

def getMetaByKeyID (s : Manager) (tenantID keyID : Nat) : Option Bytes :=
  getByKeyID .metadata s tenantID keyID

end Rah.Registry
