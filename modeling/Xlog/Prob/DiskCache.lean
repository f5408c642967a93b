import Xlog.Foundation.ByteReader

/-! The on-disk cache of circuit artifacts: the format of an entry, its parser, and the file-system steps
of the processes that write, read and evict entries of one directory.
-/

namespace Xlog.Prob.DiskCache

open Xlog.Foundation

-- Artifacts

/-- "XLGC". -/
def magicWord : UInt32 := 0x584C4743
def formatVersion : UInt32 := 1
def headerSize : Nat := 60

structure CircuitCacheKey where
  cnfHash : UInt64
  configHash : UInt64
  randomVarsHash : UInt64
  sm : UInt32
  deriving DecidableEq, Repr

structure CircuitArtifact where
  numNodes : UInt32
  numEdges : UInt32
  numLevels : UInt32
  root : UInt32
  maxVar : UInt32
  hasFreeVarMask : Bool
  nodeType : List UInt8
  childOffsets : List UInt32
  childIndices : List UInt32
  lit : List Int32
  decisionVar : List UInt32
  decisionChildFalse : List UInt32
  decisionChildTrue : List UInt32
  levelNodes : List UInt32
  levelOffsets : List UInt32
  freeVarMask : List UInt8
  deriving DecidableEq, Repr

/-- The codes of `XgcfNodeType`. -/
def litNode : UInt8 := 2
def decisionNode : UInt8 := 5

def validNodeType (ty : UInt8) : Bool := ty ≤ decisionNode

-- Topology

/-- Offsets from `prev` on rise and stay within a limit. -/
def offsetsRise (limit : UInt32) : UInt32 → List UInt32 → Bool
  | _, [] => true
  | prev, offset :: offsets =>
      if offset < prev ∨ offset > limit then false else offsetsRise limit offset offsets

def offsetsValid (limit : UInt32) (offsets : List UInt32) : Bool :=
  offsets.head? = some 0 ∧ offsets.getLast? = some limit ∧ offsetsRise limit 0 offsets

namespace CircuitArtifact

def lengthsMatch (artifact : CircuitArtifact) : Bool :=
  artifact.nodeType.length = artifact.numNodes.toNat
  ∧ artifact.childOffsets.length = artifact.numNodes.toNat + 1
  ∧ artifact.childIndices.length = artifact.numEdges.toNat
  ∧ artifact.lit.length = artifact.numNodes.toNat
  ∧ artifact.decisionVar.length = artifact.numNodes.toNat
  ∧ artifact.decisionChildFalse.length = artifact.numNodes.toNat
  ∧ artifact.decisionChildTrue.length = artifact.numNodes.toNat
  ∧ artifact.levelNodes.length = artifact.numNodes.toNat
  ∧ artifact.levelOffsets.length = artifact.numLevels.toNat + 1
  ∧ artifact.freeVarMask.length = artifact.maxVar.toNat + 1

/-- One node, at an index that must be within the arrays. -/
def nodeValid (artifact : CircuitArtifact) (idx : Nat) : Except MemoryFault Bool := do
  let ty ← itemAt artifact.nodeType idx
  if ¬ validNodeType ty then .ok false
  else if ty = litNode then do
    let lit ← itemAt artifact.lit idx
    .ok (lit.toInt.natAbs ≤ artifact.maxVar.toNat)
  else if ty = decisionNode then do
    let decisionVar ← itemAt artifact.decisionVar idx
    if decisionVar > artifact.maxVar then .ok false
    else do
      let childFalse ← itemAt artifact.decisionChildFalse idx
      if childFalse ≥ artifact.numNodes then .ok false
      else do .ok ((← itemAt artifact.decisionChildTrue idx) < artifact.numNodes)
  else .ok true

/-- The nodes from the first on, up to one that is not valid. -/
def nodesValid (artifact : CircuitArtifact) : List Nat → Except MemoryFault Bool
  | [] => .ok true
  | idx :: indices => do
      if ← artifact.nodeValid idx then artifact.nodesValid indices else .ok false

def topologyIsValid (artifact : CircuitArtifact) : Except MemoryFault Bool :=
  if artifact.numNodes = 0 ∨ artifact.numLevels = 0 ∨ artifact.root ≥ artifact.numNodes then
    .ok false
  else if ¬ artifact.lengthsMatch then .ok false
  else if ¬ offsetsValid artifact.numEdges artifact.childOffsets then .ok false
  else if artifact.childIndices.any (· ≥ artifact.numNodes) then .ok false
  else if ¬ offsetsValid artifact.numNodes artifact.levelOffsets then .ok false
  else if artifact.levelNodes.any (· ≥ artifact.numNodes) then .ok false
  else artifact.nodesValid (List.range artifact.numNodes.toNat)

end CircuitArtifact

-- Writing

def u32Bytes (word : UInt32) : List UInt8 := toLe 4 word.toNat

def u64Bytes (word : UInt64) : List UInt8 := toLe 8 word.toNat

def u32sBytes (words : List UInt32) : List UInt8 := words.flatMap u32Bytes

def i32sBytes (words : List Int32) : List UInt8 := words.flatMap fun word => u32Bytes word.toUInt32

/-- The bytes of an entry, field by field. -/
def encode (key : CircuitCacheKey) (artifact : CircuitArtifact) : List UInt8 :=
  u32Bytes magicWord ++ (u32Bytes formatVersion ++ (u64Bytes key.cnfHash
    ++ (u64Bytes key.configHash ++ (u64Bytes key.randomVarsHash ++ (u32Bytes key.sm
    ++ (u32Bytes artifact.numNodes ++ (u32Bytes artifact.numEdges
    ++ (u32Bytes artifact.numLevels ++ (u32Bytes artifact.root ++ (u32Bytes artifact.maxVar
    ++ ([artifact.hasFreeVarMask.toUInt8] ++ ([0, 0, 0]
    ++ (artifact.nodeType ++ (u32sBytes artifact.childOffsets
    ++ (u32sBytes artifact.childIndices ++ (i32sBytes artifact.lit
    ++ (u32sBytes artifact.decisionVar ++ (u32sBytes artifact.decisionChildFalse
    ++ (u32sBytes artifact.decisionChildTrue ++ (u32sBytes artifact.levelNodes
    ++ (u32sBytes artifact.levelOffsets ++ artifact.freeVarMask)))))))))))))))))))))

-- Parsing

/-- `read_u32!` at the cursor. -/
def readU32 (data : List UInt8) (cursor : Nat) : Except MemoryFault (UInt32 × Nat) := do
  let word ← readLe data cursor 4
  .ok (UInt32.ofNat word, ← advance cursor 4)

def readU64 (data : List UInt8) (cursor : Nat) : Except MemoryFault (UInt64 × Nat) := do
  let word ← readLe data cursor 8
  .ok (UInt64.ofNat word, ← advance cursor 8)

/-- `read_u32_vec` at the cursor, which moves on by the size of the table. -/
def readU32Vec (data : List UInt8) (cursor count : Nat)
    : Except MemoryFault (List UInt32 × Nat) := do
  let words ← readLeVec data cursor count 4
  .ok (words.map UInt32.ofNat, ← advance cursor (count * 4))

def readI32Vec (data : List UInt8) (cursor count : Nat)
    : Except MemoryFault (List Int32 × Nat) := do
  let (words, cursor) ← readU32Vec data cursor count
  .ok (words.map UInt32.toInt32, cursor)

def readBytes (data : List UInt8) (cursor count : Nat)
    : Except MemoryFault (List UInt8 × Nat) := do
  let stop ← advance cursor count
  .ok (← slice data cursor stop, stop)

/-- The counts of a header. -/
structure ArtifactHeader where
  numNodes : UInt32
  numEdges : UInt32
  numLevels : UInt32
  root : UInt32
  maxVar : UInt32
  hasFreeVarMask : Bool

def checkedUsize (n : Nat) : Option Nat := if n < usizeLimit then some n else none

/-- The size of an entry with these counts, by checked arithmetic. -/
def expectedTotal (header : ArtifactHeader) : Option Nat := do
  let nodes := header.numNodes.toNat
  let childOffsetsElems ← checkedUsize (nodes + 1)
  let levelOffsetsElems ← checkedUsize (header.numLevels.toNat + 1)
  let freeVarMaskBytes ← checkedUsize (header.maxVar.toNat + 1)
  let childOffsetsBytes ← checkedUsize (childOffsetsElems * 4)
  let childIndicesBytes ← checkedUsize (header.numEdges.toNat * 4)
  let nodeBytes ← checkedUsize (nodes * 4)
  let levelOffsetsBytes ← checkedUsize (levelOffsetsElems * 4)
  [headerSize, nodes, childOffsetsBytes, childIndicesBytes, nodeBytes, nodeBytes, nodeBytes,
    nodeBytes, nodeBytes, levelOffsetsBytes, freeVarMaskBytes].foldlM
    (fun acc part => checkedUsize (acc + part)) 0

def readArrays (data : List UInt8) (header : ArtifactHeader) (cursor : Nat)
    : Except MemoryFault CircuitArtifact := do
  let nodes := header.numNodes.toNat
  let (nodeType, cursor) ← readBytes data cursor nodes
  let (childOffsets, cursor) ← readU32Vec data cursor (nodes + 1)
  let (childIndices, cursor) ← readU32Vec data cursor header.numEdges.toNat
  let (lit, cursor) ← readI32Vec data cursor nodes
  let (decisionVar, cursor) ← readU32Vec data cursor nodes
  let (decisionChildFalse, cursor) ← readU32Vec data cursor nodes
  let (decisionChildTrue, cursor) ← readU32Vec data cursor nodes
  let (levelNodes, cursor) ← readU32Vec data cursor nodes
  let (levelOffsets, cursor) ← readU32Vec data cursor (header.numLevels.toNat + 1)
  let (freeVarMask, _) ← readBytes data cursor (header.maxVar.toNat + 1)
  .ok {
    numNodes := header.numNodes, numEdges := header.numEdges, numLevels := header.numLevels
    root := header.root, maxVar := header.maxVar, hasFreeVarMask := header.hasFreeVarMask
    nodeType, childOffsets, childIndices, lit, decisionVar, decisionChildFalse
    decisionChildTrue, levelNodes, levelOffsets, freeVarMask }

/-- Everything behind a header that belongs to the key. -/
def parseArrays (data : List UInt8) (header : ArtifactHeader) (cursor : Nat)
    : Except MemoryFault (Option CircuitArtifact) :=
  if header.numNodes = 0 ∨ header.numLevels = 0 ∨ header.root ≥ header.numNodes then .ok none
  else
    match expectedTotal header with
    | none => .ok none
    | some total =>
        if data.length < total then .ok none
        else do
          let artifact ← readArrays data header cursor
          .ok (if ← artifact.topologyIsValid then some artifact else none)

/-- Everything behind the key fields. -/
def parseCounts (data : List UInt8) (cursor : Nat)
    : Except MemoryFault (Option CircuitArtifact) := do
  let (numNodes, cursor) ← readU32 data cursor
  let (numEdges, cursor) ← readU32 data cursor
  let (numLevels, cursor) ← readU32 data cursor
  let (root, cursor) ← readU32 data cursor
  let (maxVar, cursor) ← readU32 data cursor
  let mask ← itemAt data cursor
  let cursor ← advance cursor 1
  let cursor ← advance cursor 3
  parseArrays data ⟨numNodes, numEdges, numLevels, root, maxVar, mask ≠ 0⟩ cursor

/-- Everything behind the magic word and the version. -/
def parseKey (data : List UInt8) (key : CircuitCacheKey) (cursor : Nat)
    : Except MemoryFault (Option CircuitArtifact) := do
  let (cnfHash, cursor) ← readU64 data cursor
  let (configHash, cursor) ← readU64 data cursor
  let (randomVarsHash, cursor) ← readU64 data cursor
  let (sm, cursor) ← readU32 data cursor
  if cnfHash ≠ key.cnfHash ∨ configHash ≠ key.configHash
      ∨ randomVarsHash ≠ key.randomVarsHash ∨ sm ≠ key.sm then .ok none
  else parseCounts data cursor

def parseArtifact (data : List UInt8) (key : CircuitCacheKey)
    : Except MemoryFault (Option CircuitArtifact) :=
  if data.length < headerSize then .ok none
  else do
    let (magic, cursor) ← readU32 data 0
    if magic ≠ magicWord then .ok none
    else do
      let (version, cursor) ← readU32 data cursor
      if version ≠ formatVersion then .ok none else parseKey data key cursor

-- The directory

/-- A write under way: its file, and how much of its bytes is written. -/
structure WriteCall where
  key : CircuitCacheKey
  artifact : CircuitArtifact
  file : Nat
  offset : Nat
  deriving DecidableEq, Repr

inductive Phase where
  | idle
  | writing (call : WriteCall)
  | evicting
  deriving DecidableEq, Repr

/-- The directory, the contents of its files and the processes. An entry and its temporary file are named
by the key: the fixed-width digits of a file name tell keys apart.
-/
structure Store where
  entries : CircuitCacheKey → Option Nat
  temporaries : CircuitCacheKey → Option Nat
  contents : Nat → List UInt8
  files : Nat
  phases : Nat → Phase
  requests : List (CircuitCacheKey × CircuitArtifact)

/-- An empty directory and idle processes. -/
def Store.empty : Store := ⟨fun _ => none, fun _ => none, fun _ => [], 0, fun _ => .idle, []⟩

inductive Step where
  /-- A process calls `write_artifact_to`, which creates or truncates the temporary file. -/
  | create (process : Nat) (key : CircuitCacheKey) (artifact : CircuitArtifact)
  /-- It writes some more bytes. -/
  | write (process count : Nat)
  /-- All bytes are written, and it renames the temporary file. -/
  | rename (process : Nat)
  /-- A step of it fails, or it is killed. -/
  | abandon (process : Nat)
  /-- Its write removes an entry because the directory is too large. -/
  | evict (process : Nat) (key : CircuitCacheKey)
  /-- Its write is done. -/
  | finish (process : Nat)
  /-- Some process removes a stale entry, `evict_artifact`. -/
  | evictArtifact (key : CircuitCacheKey)
  deriving DecidableEq, Repr

/-- A file after bytes are written at a position; a gap reads as zeros. -/
def writeAt (content : List UInt8) (position : Nat) (bytes : List UInt8) : List UInt8 :=
  (content ++ List.replicate (position - content.length) 0).take position ++ bytes
  ++ content.drop (position + bytes.length)

namespace Store

variable (store : Store)

def setPhase (process : Nat) (phase : Phase) : Store :=
  { store with phases := fun other => if other = process then phase else store.phases other }

def setContent (file : Nat) (content : List UInt8) : Store :=
  { store with contents := fun other => if other = file then content else store.contents other }

def removeEntry (key : CircuitCacheKey) : Store :=
  { store with entries := fun other => if other = key then none else store.entries other }

/-- `File::create`: an existing file is truncated and keeps its identity. -/
def createTemporary (key : CircuitCacheKey) : Store × Nat :=
  match store.temporaries key with
  | some file => (store.setContent file [], file)
  | none =>
      ({ store.setContent store.files [] with
        temporaries := fun other => if other = key then some store.files
          else store.temporaries other
        files := store.files + 1 }, store.files)

/-- The temporary name now names the entry. -/
def renameTemporary (key : CircuitCacheKey) (file : Nat) : Store :=
  { store with
    entries := fun other => if other = key then some file else store.entries other
    temporaries := fun other => if other = key then none else store.temporaries other }

/-- One step; `none` when it cannot be taken. -/
def step : Step → Option Store
  | .create process key artifact =>
      match store.phases process with
      | .idle =>
          let (created, file) := store.createTemporary key
          some { created.setPhase process (.writing ⟨key, artifact, file, 0⟩) with
            requests := store.requests ++ [(key, artifact)] }
      | .writing _ | .evicting => none
  | .write process count =>
      match store.phases process with
      | .writing call =>
          let bytes := ((encode call.key call.artifact).drop call.offset).take count
          some ((store.setContent call.file
              (writeAt (store.contents call.file) call.offset bytes)).setPhase process
            (.writing { call with offset := call.offset + bytes.length }))
      | .idle | .evicting => none
  | .rename process =>
      match store.phases process with
      | .writing call =>
          if call.offset = (encode call.key call.artifact).length then
            match store.temporaries call.key with
            | some file => some ((store.renameTemporary call.key file).setPhase process .evicting)
            -- another process renamed it before: the write fails
            | none => some (store.setPhase process .idle)
          else none
      | .idle | .evicting => none
  | .abandon process => some (store.setPhase process .idle)
  | .evict process key =>
      match store.phases process with
      | .evicting => some (store.removeEntry key)
      | .idle | .writing _ => none
  | .finish process =>
      match store.phases process with
      | .evicting => some (store.setPhase process .idle)
      | .idle | .writing _ => none
  | .evictArtifact key => some (store.removeEntry key)

def run (steps : List Step) : Option Store := steps.foldlM step store

/-- `read_artifact_from`: the whole file of the entry. -/
def readArtifact (key : CircuitCacheKey) : Except MemoryFault (Option CircuitArtifact) :=
  match store.entries key with
  | none => .ok none
  | some file => parseArtifact (store.contents file) key

end Store

end Xlog.Prob.DiskCache
