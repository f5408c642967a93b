import Mathlib.Data.List.Nodup
import Xlog.Core.Error
import Xlog.Foundation.Loop

/-! The device-resident cache of compiled circuits: an open-addressing table from keys to slots with eviction
of the least recently used entry, and the arrays of the slots. Device arrays are functions of the index,
floats are bit patterns. A ledger records the keys that a run leaves resident.
-/

namespace Xlog.Prob.GpuCache

open Xlog.Core

def u32Size : Nat := 2 ^ 32
def u64Size : Nat := 2 ^ 64
/-- The slot and the flag of a call that is refused. -/
def noSlot : Nat := 2 ^ 32 - 1

structure GpuCircuitCacheConfig where
  numSlots : Nat
  tableSize : Nat
  nodeCap : Nat
  edgeCap : Nat
  levelCap : Nat
  varCap : Nat
  deriving DecidableEq, Repr

/-- The configurations that allocate a cache. -/
structure GpuCircuitCacheConfig.Valid (config : GpuCircuitCacheConfig) : Prop where
  slots : 0 < config.numSlots
  table : config.numSlots ≤ config.tableSize

-- Table

structure TableEntry where
  key : Nat
  slot : Nat
  state : Nat
  lastUsed : Nat
  deriving DecidableEq, Repr

structure CacheTable where
  entries : Nat → TableEntry
  slotStates : Nat → Nat
  clock : Nat

def CacheTable.empty : CacheTable := ⟨fun _ => ⟨0, 0, 0, 0⟩, fun _ => 0, 0⟩

/-- What a lookup returns: the slot, and 0 for a hit, 1 for a claimed slot. The evicted entry
is not visible to the caller.
-/
structure LookupReport where
  slot : Nat
  compileNeeded : Nat
  evicted : Option Nat
  deriving DecidableEq, Repr

section

variable (config : GpuCircuitCacheConfig)

def cacheFindFreeSlot (table : CacheTable) : Option Nat :=
  (List.range config.numSlots).find? fun slot => table.slotStates slot = 0

/-- The oldest live entry so far with its time. -/
def olderEntry (table : CacheTable) (best : Nat × Option Nat) (idx : Nat) : Nat × Option Nat :=
  let entry := table.entries idx
  if entry.state ≠ 0 ∧ entry.lastUsed < best.1 then (entry.lastUsed, some idx) else best

def oldestEntry (table : CacheTable) : Option Nat :=
  ((List.range config.tableSize).foldl (olderEntry table) (u64Size - 1, none)).2

/-- Empties an entry and frees its slot. -/
def CacheTable.evict (table : CacheTable) (idx : Nat) : CacheTable :=
  let entry := table.entries idx
  { table with
    entries := Function.update table.entries idx ⟨0, entry.slot, 0, 0⟩
    slotStates :=
      if entry.slot < config.numSlots then Function.update table.slotStates entry.slot 0
      else table.slotStates }

/-- The evicted entry with its slot. -/
def cacheEvictLruEntry (table : CacheTable) : Option (Nat × Nat) × CacheTable :=
  match oldestEntry config table with
  | none => (none, table)
  | some idx => (some (idx, (table.entries idx).slot), table.evict config idx)

/-- The probed entry; the sum is computed in 32 bits. -/
def probeIndex (start probe : Nat) : Nat :=
  let idx := (start + probe) % u32Size
  if idx ≥ config.tableSize then idx - config.tableSize else idx

def probeIndices (key : Nat) : List Nat :=
  (List.range config.tableSize).map (probeIndex config (key % config.tableSize))

/-- The entry where the loop over the probes ends: an empty one, or the key's. -/
def probeStop (table : CacheTable) (key : Nat) : Option Nat :=
  (probeIndices config key).find? fun idx =>
    decide ((table.entries idx).state = 0 ∨ (table.entries idx).key = key)

def CacheTable.tick (table : CacheTable) : CacheTable :=
  { table with clock := (table.clock + 1) % u64Size }

def CacheTable.install (table : CacheTable) (idx key slot now : Nat) : CacheTable :=
  { table with entries := Function.update table.entries idx ⟨key, slot, 1, now⟩ }

/-- Claims the slot of the oldest entry. The new entry goes where the old one was, or where
the search ended.
-/
def evictAndInstall (table : CacheTable) (place : Option Nat) (key now : Nat)
    : LookupReport × CacheTable :=
  match cacheEvictLruEntry config table with
  | (some (idx, slot), evicted) =>
      if slot = noSlot then (⟨noSlot, noSlot, some idx⟩, evicted)
      else (⟨slot, 1, some idx⟩, evicted.install (place.getD idx) key slot now)
  | (none, same) => (⟨noSlot, noSlot, none⟩, same)

/-- The kernel `cache_lookup_or_insert`. -/
def cacheLookupOrInsert (table : CacheTable) (key : Nat) : LookupReport × CacheTable :=
  if config.tableSize = 0 ∨ config.numSlots = 0 then (⟨noSlot, noSlot, none⟩, table)
  else
    let table := table.tick
    let now := table.clock
    match probeStop config table key with
    | none => evictAndInstall config table none key now
    | some idx =>
        let entry := table.entries idx
        if entry.state = 0 then
          match cacheFindFreeSlot config table with
          | none => evictAndInstall config table (some idx) key now
          | some slot =>
              (⟨slot, 1, none⟩,
                { table with slotStates := Function.update table.slotStates slot 1 }.install
                  idx key slot now)
        else
          (⟨entry.slot, 0, none⟩,
            { table with
              entries := Function.update table.entries idx { entry with lastUsed := now } })

end

-- Slots

/-- The arrays that a slot holds a part of. -/
inductive CircuitArray where
  | nodeType | childOffsets | childIndices | lit | decisionVar | decisionChildFalse
  | decisionChildTrue | levelNodes | levelOffsets | varLogTrue | varLogFalse | freeVarMask
  deriving DecidableEq, Repr

structure CircuitMeta where
  numNodes : Nat
  numLevels : Nat
  root : Nat
  maxVar : Nat
  deriving DecidableEq, Repr

/-- A slot's part of the arrays, beyond the stored elements whatever was there before. -/
structure SlotContents where
  arrays : CircuitArray → Nat → Int
  info : CircuitMeta

def SlotContents.zero : SlotContents := ⟨fun _ _ => 0, ⟨0, 0, 0, 0⟩⟩

/-- A circuit on the device with its actual counts. -/
structure GpuXgcf where
  info : CircuitMeta
  numEdges : Nat
  arrays : CircuitArray → List Int

/-- A circuit read from the disk cache; its weights are stored apart. -/
structure CircuitArtifact where
  info : CircuitMeta
  numEdges : Nat
  arrays : CircuitArray → List Int
  hasFreeVarMask : Bool
  freeVarMask : List Int

structure GpuCircuitCache where
  config : GpuCircuitCacheConfig
  table : CacheTable
  slots : Nat → SlotContents
  hasFreeVarMask : Nat → Bool

structure GpuCircuitCacheHandle where
  slot : Nat
  compileNeeded : Nat
  info : CircuitMeta
  deriving DecidableEq, Repr

/-- The allocated cache; every array starts with zeros. -/
def GpuCircuitCache.new (config : GpuCircuitCacheConfig) : GpuCircuitCache :=
  ⟨config, .empty, fun _ => .zero, fun _ => false⟩

def claimSlot (cache : GpuCircuitCache) (key : Nat)
    : GpuCircuitCacheHandle × GpuCircuitCache :=
  let (report, table) := cacheLookupOrInsert cache.config cache.table key
  (⟨report.slot, report.compileNeeded, ⟨0, 0, 0, 0⟩⟩, { cache with table })

/-- The elements of an array that a circuit uses. -/
def usedCount (info : CircuitMeta) (numEdges : Nat) : CircuitArray → Nat
  | .nodeType | .lit | .decisionVar | .decisionChildFalse | .decisionChildTrue
  | .levelNodes => info.numNodes
  | .childOffsets => info.numNodes + 1
  | .childIndices => numEdges
  | .levelOffsets => info.numLevels + 1
  | .varLogTrue | .varLogFalse | .freeVarMask => info.maxVar + 1

/-- The arrays of the topology, which both ways of storing write. -/
def topologyArrays : List CircuitArray :=
  [.nodeType, .childOffsets, .childIndices, .lit, .decisionVar, .decisionChildFalse,
    .decisionChildTrue, .levelNodes, .levelOffsets]

def weightArrays : List CircuitArray := [.varLogTrue, .varLogFalse]

/-- The kernels `cache_store_*`: the first elements of the slot's part, unless the lookup was
a hit.
-/
def cacheStore (handle : GpuCircuitCacheHandle) (array : CircuitArray) (source : List Int)
    (slots : Nat → SlotContents) : Nat → SlotContents :=
  if handle.compileNeeded = 0 then slots
  else
    let contents := slots handle.slot
    let part := fun i =>
      if i < source.length then source.getD i 0 else contents.arrays array i
    Function.update slots handle.slot
      { contents with arrays := Function.update contents.arrays array part }

def cacheStoreMeta (config : GpuCircuitCacheConfig) (handle : GpuCircuitCacheHandle)
    (slots : Nat → SlotContents) : Nat → SlotContents :=
  if handle.compileNeeded = 0 ∨ handle.slot ≥ config.numSlots then slots
  else Function.update slots handle.slot { slots handle.slot with info := handle.info }

/-- The checks of a circuit against the capacities, in the order of the source. -/
def checkCircuit (config : GpuCircuitCacheConfig) (operation : String) (info : CircuitMeta)
    (numEdges : Nat) (arrays : CircuitArray → List Int) : Result Unit := do
  let refuse (text : String) : Result Unit :=
    .error (.compilation ("GpuCircuitCache " ++ operation ++ ": " ++ text))
  let exceeds (name : String) (value : Nat) (capName : String) (cap : Nat) : Result Unit :=
    if value > cap then
      refuse (name ++ " " ++ value.repr ++ " exceeds " ++ capName ++ " " ++ cap.repr)
    else .ok ()
  if info.numNodes = 0 then refuse "num_nodes must be > 0"
  exceeds "num_nodes" info.numNodes "node_cap" config.nodeCap
  exceeds "num_edges" numEdges "edge_cap" config.edgeCap
  if info.numLevels = 0 then refuse "num_levels must be > 0"
  exceeds "num_levels" info.numLevels "level_cap" config.levelCap
  if info.root ≥ info.numNodes then
    refuse ("root " ++ info.root.repr ++ " out of bounds (num_nodes=" ++ info.numNodes.repr
      ++ ")")
  exceeds "max_var" info.maxVar "var_cap" config.varCap
  if (arrays .childOffsets).length < info.numNodes + 1 then
    refuse ("child_offsets len " ++ (arrays .childOffsets).length.repr ++ " < num_nodes+1 "
      ++ (info.numNodes + 1).repr)
  if (arrays .levelNodes).length < info.numNodes then
    refuse ("level_nodes len " ++ (arrays .levelNodes).length.repr ++ " < num_nodes "
      ++ info.numNodes.repr)
  if (arrays .levelOffsets).length ≠ info.numLevels + 1 then
    refuse ("level_offsets len " ++ (arrays .levelOffsets).length.repr ++ " != num_levels+1 "
      ++ (info.numLevels + 1).repr)

/-- The used part of each array in turn. -/
def storeArrays (handle : GpuCircuitCacheHandle) (names : List CircuitArray) (numEdges : Nat)
    (arrays : CircuitArray → List Int) (slots : Nat → SlotContents) : Nat → SlotContents :=
  names.foldl (fun slots name =>
    cacheStore handle name ((arrays name).take (usedCount handle.info numEdges name)) slots)
    slots

/-- Grids and strides are refused where they leave 32 bits. -/
def checkCounts (config : GpuCircuitCacheConfig) (info : CircuitMeta) (numEdges : Nat)
    : Result Unit :=
  let counts := [info.numNodes + 1, numEdges, info.numLevels + 1, info.maxVar + 1]
  let strides := [config.nodeCap + 1, config.levelCap + 1, config.varCap + 1]
  if strides.all (· < u32Size) && counts.all (· + 255 < u32Size) then .ok ()
  else .error (.compilation "GpuCircuitCache: GPU cache grid overflow")

def storeFromXgcf (cache : GpuCircuitCache) (handle : GpuCircuitCacheHandle) (xgcf : GpuXgcf)
    : Result (GpuCircuitCacheHandle × GpuCircuitCache) := do
  checkCircuit cache.config "store" xgcf.info xgcf.numEdges xgcf.arrays
  checkCounts cache.config xgcf.info xgcf.numEdges
  let handle := { handle with info := xgcf.info }
  let stored :=
    storeArrays handle (topologyArrays ++ weightArrays) xgcf.numEdges xgcf.arrays cache.slots
  .ok (handle, { cache with slots := cacheStoreMeta cache.config handle stored })

def storeFreeVarMask (cache : GpuCircuitCache) (handle : GpuCircuitCacheHandle)
    (mask : List Int) : Result GpuCircuitCache :=
  if mask.length ≠ handle.info.maxVar + 1 then
    .error (.compilation ("GpuCircuitCache free_var_mask len " ++ mask.length.repr
      ++ " != expected " ++ (handle.info.maxVar + 1).repr))
  else if mask.length > cache.config.varCap + 1 then
    .error (.compilation ("GpuCircuitCache free_var_mask len " ++ mask.length.repr
      ++ " exceeds var_cap+1 " ++ (cache.config.varCap + 1).repr))
  else
    .ok { cache with
      slots := cacheStore handle .freeVarMask mask cache.slots
      hasFreeVarMask :=
        if handle.slot < cache.config.numSlots then
          Function.update cache.hasFreeVarMask handle.slot true
        else cache.hasFreeVarMask }

/-- Slices of the artifact that are too short stop the call. -/
def checkSlices (artifact : CircuitArtifact) : Result Unit :=
  if topologyArrays.all fun name =>
      usedCount artifact.info artifact.numEdges name ≤ (artifact.arrays name).length then .ok ()
  else .error (.execution "range end index out of range for slice")

/-- The mask part is cleared before the artifact's mask is written. -/
def restoreFromHostArrays (cache : GpuCircuitCache) (handle : GpuCircuitCacheHandle)
    (artifact : CircuitArtifact) : Result (GpuCircuitCacheHandle × GpuCircuitCache) := do
  checkCircuit cache.config "restore" artifact.info artifact.numEdges artifact.arrays
  checkCounts cache.config artifact.info artifact.numEdges
  checkSlices artifact
  let handle := { handle with info := artifact.info }
  let stored := storeArrays handle topologyArrays artifact.numEdges artifact.arrays cache.slots
  let cleared := cacheStore handle .freeVarMask (List.replicate (cache.config.varCap + 1) 0)
    (cacheStoreMeta cache.config handle stored)
  let hasMask := artifact.hasFreeVarMask && !artifact.freeVarMask.isEmpty
  let masked :=
    if hasMask then
      cacheStore handle .freeVarMask (artifact.freeVarMask.take (artifact.info.maxVar + 1))
        cleared
    else cleared
  .ok (handle, { cache with
    slots := masked
    hasFreeVarMask :=
      if handle.slot < cache.config.numSlots then
        Function.update cache.hasFreeVarMask handle.slot hasMask
      else cache.hasFreeVarMask })

-- Runs

open Xlog.Foundation

-- Ledger

/-- What was stored for a key; an array that was not stored has no elements. -/
structure StoredCircuit where
  info : CircuitMeta
  arrays : CircuitArray → List Int
  mask : Option (List Int)

/-- A key that was inserted and not evicted since. -/
structure Resident where
  key : Nat
  slot : Nat
  lastUse : Nat
  stored : Option StoredCircuit

/-- What follows a miss. A failure leaves anything in the claimed slot. -/
inductive FollowUp where
  | store (xgcf : GpuXgcf) (mask : Option (List Int))
  | restore (artifact : CircuitArtifact)
  | fail (left : SlotContents)

structure CacheCall where
  key : Nat
  followUp : FollowUp

structure CacheRun where
  cache : GpuCircuitCache
  ledger : List Resident
  calls : Nat

/-- The stored parts of some arrays. -/
def storedArrays (names : List CircuitArray) (info : CircuitMeta) (numEdges : Nat)
    (arrays : CircuitArray → List Int) (name : CircuitArray) : List Int :=
  if name ∈ names then (arrays name).take (usedCount info numEdges name) else []

/-- The cache after what follows a miss, with what it stored. -/
def applyFollowUp (cache : GpuCircuitCache) (handle : GpuCircuitCacheHandle)
    : FollowUp → GpuCircuitCache × Option StoredCircuit
  | .store xgcf mask =>
      match storeFromXgcf cache handle xgcf with
      | .error _ => (cache, none)
      | .ok (handle, cache) =>
          let stored := storedArrays (topologyArrays ++ weightArrays) xgcf.info xgcf.numEdges
            xgcf.arrays
          match mask.map (storeFreeVarMask cache handle) with
          | some (.ok masked) => (masked, some ⟨xgcf.info, stored, mask⟩)
          | _ => (cache, some ⟨xgcf.info, stored, none⟩)
  | .restore artifact =>
      match restoreFromHostArrays cache handle artifact with
      | .error _ => (cache, none)
      | .ok (_, cache) =>
          (cache, some ⟨artifact.info,
            storedArrays topologyArrays artifact.info artifact.numEdges artifact.arrays,
            if artifact.hasFreeVarMask && !artifact.freeVarMask.isEmpty then
              some (artifact.freeVarMask.take (artifact.info.maxVar + 1))
            else none⟩)
  | .fail left =>
      ({ cache with
        slots := if handle.compileNeeded = 0 then cache.slots
          else Function.update cache.slots handle.slot left }, none)

/-- The lookup that a call starts with. -/
def CacheRun.report (run : CacheRun) (key : Nat) : LookupReport :=
  (cacheLookupOrInsert run.cache.config run.cache.table key).1

/-- The residents without the evicted one. -/
def dropEvicted (run : CacheRun) (key : Nat) : List Resident :=
  match (run.report key).evicted with
  | none => run.ledger
  | some idx => run.ledger.filter (·.key ≠ (run.cache.table.entries idx).key)

def CacheRun.step (run : CacheRun) (call : CacheCall) : CacheRun :=
  let report := run.report call.key
  let (handle, cache) := claimSlot run.cache call.key
  let ledger := dropEvicted run call.key
  if report.compileNeeded = 0 then
    { cache, calls := run.calls + 1,
      ledger := ledger.map fun resident =>
        if resident.key = call.key then { resident with lastUse := run.calls } else resident }
  else
    let (cache, stored) := applyFollowUp cache handle call.followUp
    { cache, calls := run.calls + 1,
      ledger := if report.compileNeeded = 1 then
          ⟨call.key, report.slot, run.calls, stored⟩ :: ledger
        else ledger }

def CacheRun.start (config : GpuCircuitCacheConfig) : CacheRun := ⟨.new config, [], 0⟩

def runCalls (config : GpuCircuitCacheConfig) (calls : List CacheCall) : CacheRun :=
  calls.foldl CacheRun.step (.start config)

-- Purpose

def CacheTable.Live (table : CacheTable) (idx : Nat) : Prop :=
  (table.entries idx).state ≠ 0

/-- A slot holds what was stored for a key, with the host's mark of its mask. -/
structure HoldsCircuit (cache : GpuCircuitCache) (slot : Nat) (stored : StoredCircuit)
    : Prop where
  info : (cache.slots slot).info = stored.info
  arrays : ∀ name i, i < (stored.arrays name).length
    → (cache.slots slot).arrays name i = (stored.arrays name).getD i 0
  flag : cache.hasFreeVarMask slot = stored.mask.isSome
  mask : ∀ mask, stored.mask = some mask → ∀ i < mask.length,
    (cache.slots slot).arrays .freeVarMask i = mask.getD i 0

/-- The live entries have distinct keys and slots, and the used slots are theirs. -/
structure TableRight (config : GpuCircuitCacheConfig) (table : CacheTable) : Prop where
  keys : ∀ i < config.tableSize, ∀ j < config.tableSize, table.Live i → table.Live j
    → (table.entries i).key = (table.entries j).key → i = j
  slots : ∀ i < config.tableSize, ∀ j < config.tableSize, table.Live i → table.Live j
    → (table.entries i).slot = (table.entries j).slot → i = j
  used : ∀ slot < config.numSlots, table.slotStates slot ≠ 0
    ↔ ∃ i < config.tableSize, table.Live i ∧ (table.entries i).slot = slot

/-- A lookup hits exactly the resident keys, returns their slot with their circuit, and evicts
the least recently used resident when no slot is free.
-/
structure LookupRight (run : CacheRun) (key : Nat) : Prop where
  hit : (run.report key).compileNeeded = 0 ↔ ∃ resident ∈ run.ledger, resident.key = key
  serves : (run.report key).compileNeeded = 0 → ∃ resident ∈ run.ledger, resident.key = key
    ∧ resident.slot = (run.report key).slot
    ∧ ∃ stored, resident.stored = some stored
      ∧ HoldsCircuit run.cache (run.report key).slot stored
  evicts : ∀ idx, (run.report key).evicted = some idx
    → (∀ slot < run.cache.config.numSlots, run.cache.table.slotStates slot ≠ 0)
      ∧ ∃ resident ∈ run.ledger, resident.key = (run.cache.table.entries idx).key
        ∧ ∀ other ∈ run.ledger, resident.lastUse ≤ other.lastUse

/-- Every state of a run and every lookup in it is right. -/
def ServesRight (config : GpuCircuitCacheConfig) (calls : List CacheCall) : Prop :=
  ∀ n ≤ calls.length, TableRight config (runCalls config (calls.take n)).cache.table
    ∧ ∀ call, calls[n]? = some call
      → LookupRight (runCalls config (calls.take n)) call.key

/-- The lookup of a key whose circuit is stored, or of a key that is not resident while a slot
is free and the search meets an empty entry.
-/
def CallFits (run : CacheRun) (key : Nat) : Prop :=
  (∃ resident ∈ run.ledger, resident.key = key ∧ resident.stored.isSome)
  ∨ (∀ resident ∈ run.ledger, resident.key ≠ key)
    ∧ (cacheFindFreeSlot run.cache.config run.cache.table).isSome
    ∧ ∃ idx ∈ probeIndices run.cache.config key, (run.cache.table.entries idx).state = 0

end Xlog.Prob.GpuCache
