import Xlog.Prob.DiskCache

/-! The entry format: the parser takes every byte string without a fault and accepts sound topologies only,
and it reads back what was written.
-/

namespace Xlog.Prob.DiskCache

open Xlog.Foundation

-- Topologies

/-- The arrays are as long as the counts say. -/
structure CircuitArtifact.Shaped (artifact : CircuitArtifact) : Prop where
  nodeType : artifact.nodeType.length = artifact.numNodes.toNat
  childOffsets : artifact.childOffsets.length = artifact.numNodes.toNat + 1
  childIndices : artifact.childIndices.length = artifact.numEdges.toNat
  lit : artifact.lit.length = artifact.numNodes.toNat
  decisionVar : artifact.decisionVar.length = artifact.numNodes.toNat
  decisionChildFalse : artifact.decisionChildFalse.length = artifact.numNodes.toNat
  decisionChildTrue : artifact.decisionChildTrue.length = artifact.numNodes.toNat
  levelNodes : artifact.levelNodes.length = artifact.numNodes.toNat
  levelOffsets : artifact.levelOffsets.length = artifact.numLevels.toNat + 1
  freeVarMask : artifact.freeVarMask.length = artifact.maxVar.toNat + 1

/-- Offsets into an array of a length: from zero up to it, never falling. -/
structure OffsetsInto (limit : UInt32) (offsets : List UInt32) : Prop where
  first : offsets.head? = some 0
  last : offsets.getLast? = some limit
  rise : offsets.Pairwise (· ≤ ·)
  within : ∀ offset ∈ offsets, offset ≤ limit

/-- A node refers to variables and nodes that there are. -/
structure CircuitArtifact.NodeInRange (artifact : CircuitArtifact) (idx : Nat) (ty : UInt8)
    : Prop where
  known : ty ≤ decisionNode
  lit : ty = litNode → ∀ lit, artifact.lit[idx]? = some lit →
    lit.toInt.natAbs ≤ artifact.maxVar.toNat
  decisionVar : ty = decisionNode → ∀ var, artifact.decisionVar[idx]? = some var →
    var ≤ artifact.maxVar
  childFalse : ty = decisionNode → ∀ child, artifact.decisionChildFalse[idx]? = some child →
    child < artifact.numNodes
  childTrue : ty = decisionNode → ∀ child, artifact.decisionChildTrue[idx]? = some child →
    child < artifact.numNodes

/-- All offsets and indices of an artifact are within its arrays. -/
structure CircuitArtifact.Topology (artifact : CircuitArtifact) : Prop where
  counts : artifact.numNodes ≠ 0 ∧ artifact.numLevels ≠ 0
  root : artifact.root < artifact.numNodes
  shaped : artifact.Shaped
  childOffsets : OffsetsInto artifact.numEdges artifact.childOffsets
  childIndices : ∀ child ∈ artifact.childIndices, child < artifact.numNodes
  levelOffsets : OffsetsInto artifact.numNodes artifact.levelOffsets
  levelNodes : ∀ node ∈ artifact.levelNodes, node < artifact.numNodes
  nodes : ∀ (idx : Nat) ty, artifact.nodeType[idx]? = some ty → artifact.NodeInRange idx ty

theorem CircuitArtifact.lengthsMatch_iff {artifact : CircuitArtifact}
    : artifact.lengthsMatch = true ↔ artifact.Shaped := by
  rw [lengthsMatch, decide_eq_true_iff]
  exact ⟨fun ⟨a, b, c, d, e, f, g, h, i, j⟩ => ⟨a, b, c, d, e, f, g, h, i, j⟩,
    fun ⟨a, b, c, d, e, f, g, h, i, j⟩ => ⟨a, b, c, d, e, f, g, h, i, j⟩⟩

/-- The loop over the offsets, by list induction. -/
theorem offsetsRise_iff {limit prev : UInt32} {offsets : List UInt32}
    : offsetsRise limit prev offsets = true
      ↔ (prev :: offsets).Pairwise (· ≤ ·) ∧ ∀ offset ∈ offsets, offset ≤ limit := by
  induction offsets generalizing prev with
  | nil => simp [offsetsRise]
  | cons offset offsets ih =>
      rw [offsetsRise]
      by_cases wrong : offset < prev ∨ offset > limit
      · rw [if_pos wrong]
        simp only [Bool.false_eq_true, false_iff, not_and]
        intro rise within
        obtain low | high := wrong
        · exact UInt32.not_le.mpr low ((List.pairwise_cons.mp rise).1 offset (by simp))
        · exact UInt32.not_le.mpr high (within offset (by simp))
      · rw [if_neg wrong, ih]
        rw [not_or, UInt32.not_lt] at wrong
        obtain ⟨low, high⟩ := wrong
        have high : offset ≤ limit := UInt32.not_lt.mp high
        constructor
        · rintro ⟨rise, within⟩
          refine ⟨List.pairwise_cons.mpr ⟨?_, rise⟩, List.forall_mem_cons.mpr ⟨high, within⟩⟩
          refine List.forall_mem_cons.mpr ⟨low, fun later member => ?_⟩
          exact UInt32.le_trans low ((List.pairwise_cons.mp rise).1 later member)
        · rintro ⟨rise, within⟩
          exact ⟨(List.pairwise_cons.mp rise).2, (List.forall_mem_cons.mp within).2⟩

theorem offsetsValid_iff {limit : UInt32} {offsets : List UInt32}
    : offsetsValid limit offsets = true ↔ OffsetsInto limit offsets := by
  rw [offsetsValid, decide_eq_true_iff, offsetsRise_iff]
  constructor
  · rintro ⟨first, last, rise, within⟩
    exact ⟨first, last, (List.pairwise_cons.mp rise).2, within⟩
  · rintro ⟨first, last, rise, within⟩
    exact ⟨first, last, List.pairwise_cons.mpr ⟨fun _ _ => UInt32.zero_le, rise⟩, within⟩

/-- The check of one node does not leave the arrays. -/
theorem CircuitArtifact.Shaped.nodeValid {artifact : CircuitArtifact} (shaped : artifact.Shaped)
    {idx : Nat} (inside : idx < artifact.numNodes.toNat)
    : ∃ valid, artifact.nodeValid idx = .ok valid
        ∧ (valid = true ↔ ∀ ty, artifact.nodeType[idx]? = some ty →
          artifact.NodeInRange idx ty) := by
  have type_at : idx < artifact.nodeType.length := shaped.nodeType ▸ inside
  have lit_at : idx < artifact.lit.length := shaped.lit ▸ inside
  have var_at : idx < artifact.decisionVar.length := shaped.decisionVar ▸ inside
  have false_at : idx < artifact.decisionChildFalse.length := shaped.decisionChildFalse ▸ inside
  have true_at : idx < artifact.decisionChildTrue.length := shaped.decisionChildTrue ▸ inside
  have only : ∀ {p : UInt8 → Prop}, (∀ ty, artifact.nodeType[idx]? = some ty → p ty)
      ↔ p artifact.nodeType[idx] := by
    intro p
    rw [List.getElem?_eq_getElem type_at]
    exact ⟨fun all => all _ rfl, fun holds ty same => Option.some.inj same ▸ holds⟩
  simp only [CircuitArtifact.nodeValid, itemAt_ok type_at, ok_bind, only]
  generalize artifact.nodeType[idx] = ty
  by_cases known : validNodeType ty = true
  · have known' : ty ≤ decisionNode := by simpa [validNodeType] using known
    rw [if_neg (by simpa using known)]
    by_cases lit : ty = litNode
    · subst lit
      refine ⟨_, by rw [if_pos rfl, itemAt_ok lit_at, ok_bind], ?_⟩
      rw [decide_eq_true_iff]
      constructor
      · have other : litNode ≠ decisionNode := by decide
        refine fun small => ⟨known', fun _ lit same => ?_, fun same => absurd same other,
          fun same => absurd same other, fun same => absurd same other⟩
        rw [List.getElem?_eq_getElem lit_at] at same
        exact Option.some.inj same ▸ small
      · exact fun holds => holds.lit rfl _ (List.getElem?_eq_getElem lit_at)
    · rw [if_neg lit]
      by_cases decision : ty = decisionNode
      · subst decision
        rw [if_pos rfl, itemAt_ok var_at, ok_bind]
        have exact_node : artifact.NodeInRange idx decisionNode
            ↔ artifact.decisionVar[idx] ≤ artifact.maxVar
              ∧ artifact.decisionChildFalse[idx] < artifact.numNodes
              ∧ artifact.decisionChildTrue[idx] < artifact.numNodes := by
          constructor
          · exact fun holds => ⟨holds.decisionVar rfl _ (List.getElem?_eq_getElem var_at),
              holds.childFalse rfl _ (List.getElem?_eq_getElem false_at),
              holds.childTrue rfl _ (List.getElem?_eq_getElem true_at)⟩
          · rintro ⟨var, child_false, child_true⟩
            refine ⟨known', fun same => absurd same lit, fun _ x same => ?_,
              fun _ x same => ?_, fun _ x same => ?_⟩
            · rw [List.getElem?_eq_getElem var_at] at same
              exact Option.some.inj same ▸ var
            · rw [List.getElem?_eq_getElem false_at] at same
              exact Option.some.inj same ▸ child_false
            · rw [List.getElem?_eq_getElem true_at] at same
              exact Option.some.inj same ▸ child_true
        rw [exact_node]
        by_cases var : artifact.decisionVar[idx] > artifact.maxVar
        · exact ⟨false, by rw [if_pos var], by
            simp only [Bool.false_eq_true, false_iff]
            exact fun all => UInt32.not_le.mpr var all.1⟩
        · rw [if_neg var, itemAt_ok false_at, ok_bind]
          by_cases child : artifact.decisionChildFalse[idx] ≥ artifact.numNodes
          · exact ⟨false, by rw [if_pos child], by
              simp only [Bool.false_eq_true, false_iff]
              exact fun all => UInt32.not_lt.mpr child all.2.1⟩
          · refine ⟨_, by rw [if_neg child, itemAt_ok true_at, ok_bind], ?_⟩
            rw [decide_eq_true_iff]
            exact ⟨fun less => ⟨UInt32.not_lt.mp var, UInt32.not_le.mp child, less⟩,
              fun all => all.2.2⟩
      · refine ⟨true, by rw [if_neg decision], iff_of_true rfl ?_⟩
        exact ⟨known', fun same => absurd same lit, fun same => absurd same decision,
          fun same => absurd same decision, fun same => absurd same decision⟩
  · refine ⟨false, by rw [if_pos (by simpa using known)], ?_⟩
    simp only [Bool.false_eq_true, false_iff]
    exact fun holds => known (by simpa [validNodeType] using holds.known)

/-- The loop over the nodes, by list induction. -/
theorem CircuitArtifact.Shaped.nodesValid {artifact : CircuitArtifact}
    (shaped : artifact.Shaped) {indices : List Nat}
    (inside : ∀ idx ∈ indices, idx < artifact.numNodes.toNat)
    : ∃ valid, artifact.nodesValid indices = .ok valid
        ∧ (valid = true ↔ ∀ idx ∈ indices, ∀ ty, artifact.nodeType[idx]? = some ty →
          artifact.NodeInRange idx ty) := by
  induction indices with
  | nil => exact ⟨true, rfl, by simp⟩
  | cons idx indices ih =>
      obtain ⟨first, ran, valid⟩ := shaped.nodeValid (inside idx (by simp))
      rw [CircuitArtifact.nodesValid, ran, ok_bind, List.forall_mem_cons, ← valid]
      cases first with
      | false => exact ⟨false, rfl, by simp⟩
      | true =>
          obtain ⟨rest, ran', valid'⟩ := ih fun i member => inside i (List.mem_cons_of_mem _ member)
          exact ⟨rest, ran', by rw [valid']; simp⟩

/-- The check takes every artifact without a fault and accepts sound topologies only. -/
theorem CircuitArtifact.topologyIsValid_spec (artifact : CircuitArtifact)
    : ∃ valid, artifact.topologyIsValid = .ok valid ∧ (valid = true ↔ artifact.Topology) := by
  rw [topologyIsValid]
  by_cases counts : artifact.numNodes = 0 ∨ artifact.numLevels = 0
      ∨ artifact.root ≥ artifact.numNodes
  · refine ⟨false, by rw [if_pos counts], ?_⟩
    simp only [Bool.false_eq_true, false_iff]
    intro topology
    obtain nodes | levels | root := counts
    · exact topology.counts.1 nodes
    · exact topology.counts.2 levels
    · exact UInt32.not_le.mpr topology.root root
  rw [if_neg counts]
  simp only [not_or, ge_iff_le, UInt32.not_le] at counts
  by_cases lengths : artifact.lengthsMatch = true
  swap
  · exact ⟨false, by rw [if_pos lengths], by
      simpa using fun topology : artifact.Topology =>
        lengths (lengthsMatch_iff.mpr topology.shaped)⟩
  have shaped := lengthsMatch_iff.mp lengths
  rw [if_neg (not_not.mpr lengths)]
  by_cases children : offsetsValid artifact.numEdges artifact.childOffsets = true
  swap
  · exact ⟨false, by rw [if_pos children], by
      simpa using fun topology : artifact.Topology =>
        children (offsetsValid_iff.mpr topology.childOffsets)⟩
  rw [if_neg (not_not.mpr children)]
  by_cases indices : artifact.childIndices.any (· ≥ artifact.numNodes) = true
  · refine ⟨false, by rw [if_pos indices], ?_⟩
    obtain ⟨child, member, high⟩ := List.any_eq_true.mp indices
    simp only [Bool.false_eq_true, false_iff]
    exact fun topology => UInt32.not_lt.mpr (by simpa using high)
      (topology.childIndices child member)
  rw [if_neg indices]
  by_cases levels : offsetsValid artifact.numNodes artifact.levelOffsets = true
  swap
  · exact ⟨false, by rw [if_pos levels], by
      simpa using fun topology : artifact.Topology =>
        levels (offsetsValid_iff.mpr topology.levelOffsets)⟩
  rw [if_neg (not_not.mpr levels)]
  by_cases nodes : artifact.levelNodes.any (· ≥ artifact.numNodes) = true
  · refine ⟨false, by rw [if_pos nodes], ?_⟩
    obtain ⟨node, member, high⟩ := List.any_eq_true.mp nodes
    simp only [Bool.false_eq_true, false_iff]
    exact fun topology => UInt32.not_lt.mpr (by simpa using high)
      (topology.levelNodes node member)
  rw [if_neg nodes]
  obtain ⟨valid, ran, all⟩ := @Shaped.nodesValid artifact shaped
    (List.range artifact.numNodes.toNat) fun idx member => List.mem_range.mp member
  refine ⟨valid, ran, all.trans ⟨fun in_range => ?_, fun topology idx _ => topology.nodes idx⟩⟩
  simp only [List.any_eq_true, decide_eq_true_eq, not_exists, not_and, ge_iff_le,
    UInt32.not_le] at indices nodes
  refine ⟨⟨counts.1, counts.2.1⟩, counts.2.2, shaped, offsetsValid_iff.mp children, indices,
    offsetsValid_iff.mp levels, nodes, fun idx ty found => ?_⟩
  refine in_range idx (List.mem_range.mpr ?_) ty found
  rw [← shaped.nodeType]
  exact (List.getElem?_eq_some_iff.mp found).1

-- Every byte string

/-- The bytes that an entry with these counts takes. -/
def entrySize (header : ArtifactHeader) : Nat :=
  headerSize + header.numNodes.toNat + (header.numNodes.toNat + 1) * 4
  + header.numEdges.toNat * 4 + header.numNodes.toNat * 4 * 5 + (header.numLevels.toNat + 1) * 4
  + (header.maxVar.toNat + 1)

/-- Counts of 32 bits do not overflow sizes of 64 bits. -/
theorem entrySize_lt (header : ArtifactHeader) : entrySize header < usizeLimit := by
  have nodes := header.numNodes.toNat_lt
  have edges := header.numEdges.toNat_lt
  have levels := header.numLevels.toNat_lt
  have vars := header.maxVar.toNat_lt
  simp only [entrySize, headerSize, usizeLimit]
  omega

theorem checkedUsize_eq {n : Nat} (fits : n < usizeLimit) : checkedUsize n = some n :=
  if_pos fits

theorem expectedTotal_eq (header : ArtifactHeader)
    : expectedTotal header = some (entrySize header) := by
  have total := entrySize_lt header
  simp only [entrySize, headerSize] at total
  rw [expectedTotal, checkedUsize_eq (by omega)]
  simp only [Option.bind_eq_bind, Option.bind_some]
  rw [checkedUsize_eq (by omega), Option.bind_some, checkedUsize_eq (by omega),
    Option.bind_some, checkedUsize_eq (by omega), Option.bind_some, checkedUsize_eq (by omega),
    Option.bind_some, checkedUsize_eq (by omega), Option.bind_some, checkedUsize_eq (by omega),
    Option.bind_some]
  simp only [List.foldlM_cons, List.foldlM_nil, headerSize, Option.bind_eq_bind]
  rw [checkedUsize_eq (by omega), Option.bind_some, checkedUsize_eq (by omega),
    Option.bind_some, checkedUsize_eq (by omega), Option.bind_some, checkedUsize_eq (by omega),
    Option.bind_some, checkedUsize_eq (by omega), Option.bind_some, checkedUsize_eq (by omega),
    Option.bind_some, checkedUsize_eq (by omega), Option.bind_some, checkedUsize_eq (by omega),
    Option.bind_some, checkedUsize_eq (by omega), Option.bind_some, checkedUsize_eq (by omega),
    Option.bind_some, checkedUsize_eq (by omega), Option.bind_some]
  refine congrArg some ?_
  rw [entrySize, headerSize]
  omega

section Total

variable {data : List UInt8} {cursor count : Nat}

theorem readU32_total (inside : cursor + 4 ≤ data.length) (fits : cursor + 4 < usizeLimit)
    : ∃ word, readU32 data cursor = .ok (word, cursor + 4) := by
  rw [readU32, readLe_ok inside fits, ok_bind, advance_ok fits, ok_bind]
  exact ⟨_, rfl⟩

theorem readU64_total (inside : cursor + 8 ≤ data.length) (fits : cursor + 8 < usizeLimit)
    : ∃ word, readU64 data cursor = .ok (word, cursor + 8) := by
  rw [readU64, readLe_ok inside fits, ok_bind, advance_ok fits, ok_bind]
  exact ⟨_, rfl⟩

theorem readU32Vec_total (inside : cursor + count * 4 ≤ data.length)
    (fits : cursor + count * 4 < usizeLimit)
    : ∃ words, readU32Vec data cursor count = .ok (words, cursor + count * 4) := by
  rw [readU32Vec, readLeVec_ok inside fits, ok_bind, advance_ok fits, ok_bind]
  exact ⟨_, rfl⟩

theorem readI32Vec_total (inside : cursor + count * 4 ≤ data.length)
    (fits : cursor + count * 4 < usizeLimit)
    : ∃ words, readI32Vec data cursor count = .ok (words, cursor + count * 4) := by
  obtain ⟨words, ran⟩ := readU32Vec_total inside fits
  rw [readI32Vec, ran, ok_bind]
  exact ⟨_, rfl⟩

theorem readBytes_total (inside : cursor + count ≤ data.length)
    (fits : cursor + count < usizeLimit)
    : ∃ bytes, readBytes data cursor count = .ok (bytes, cursor + count) := by
  rw [readBytes, advance_ok fits, ok_bind, slice_ok inside, ok_bind]
  exact ⟨_, rfl⟩

/-- A string of the expected size holds all arrays. -/
theorem readArrays_total {header : ArtifactHeader} (enough : entrySize header ≤ data.length)
    : ∃ artifact, readArrays data header headerSize = .ok artifact := by
  have fits := entrySize_lt header
  simp only [entrySize, headerSize] at enough fits
  obtain ⟨_, ran⟩ := @readBytes_total data headerSize header.numNodes.toNat
    (by rw [headerSize]; omega) (by rw [headerSize]; omega)
  rw [headerSize] at ran
  rw [readArrays, headerSize, ran, ok_bind]
  dsimp only
  obtain ⟨_, ran⟩ := @readU32Vec_total data (60 + header.numNodes.toNat)
    (header.numNodes.toNat + 1) (by omega) (by omega)
  rw [ran, ok_bind]
  dsimp only
  obtain ⟨_, ran⟩ := @readU32Vec_total data
    (60 + header.numNodes.toNat + (header.numNodes.toNat + 1) * 4) header.numEdges.toNat
    (by omega) (by omega)
  rw [ran, ok_bind]
  dsimp only
  generalize start : 60 + header.numNodes.toNat + (header.numNodes.toNat + 1) * 4
    + header.numEdges.toNat * 4 = cursor
  obtain ⟨_, ran⟩ := @readI32Vec_total data cursor header.numNodes.toNat (by omega) (by omega)
  rw [ran, ok_bind]
  dsimp only
  obtain ⟨_, ran⟩ := @readU32Vec_total data (cursor + header.numNodes.toNat * 4)
    header.numNodes.toNat (by omega) (by omega)
  rw [ran, ok_bind]
  dsimp only
  obtain ⟨_, ran⟩ := @readU32Vec_total data
    (cursor + header.numNodes.toNat * 4 + header.numNodes.toNat * 4) header.numNodes.toNat
    (by omega) (by omega)
  rw [ran, ok_bind]
  dsimp only
  generalize behind : cursor + header.numNodes.toNat * 4 + header.numNodes.toNat * 4
    + header.numNodes.toNat * 4 = cursor'
  obtain ⟨_, ran⟩ := @readU32Vec_total data cursor' header.numNodes.toNat (by omega) (by omega)
  rw [ran, ok_bind]
  dsimp only
  obtain ⟨_, ran⟩ := @readU32Vec_total data (cursor' + header.numNodes.toNat * 4)
    header.numNodes.toNat (by omega) (by omega)
  rw [ran, ok_bind]
  dsimp only
  obtain ⟨_, ran⟩ := @readU32Vec_total data
    (cursor' + header.numNodes.toNat * 4 + header.numNodes.toNat * 4)
    (header.numLevels.toNat + 1) (by omega) (by omega)
  rw [ran, ok_bind]
  dsimp only
  obtain ⟨_, ran⟩ := @readBytes_total data
    (cursor' + header.numNodes.toNat * 4 + header.numNodes.toNat * 4
      + (header.numLevels.toNat + 1) * 4)
    (header.maxVar.toNat + 1) (by omega) (by omega)
  rw [ran, ok_bind]
  exact ⟨_, rfl⟩

/-- No fault, and only sound topologies. -/
def Parses (outcome : Except MemoryFault (Option CircuitArtifact)) : Prop :=
  ∃ result, outcome = .ok result ∧ ∀ artifact, result = some artifact → artifact.Topology

theorem parses_none : Parses (.ok none) := ⟨none, rfl, by simp⟩

theorem parseArrays_total (header : ArtifactHeader)
    : Parses (parseArrays data header headerSize) := by
  rw [parseArrays]
  split
  · exact parses_none
  · rw [expectedTotal_eq]
    dsimp only
    by_cases short : data.length < entrySize header
    · rw [if_pos short]
      exact parses_none
    · obtain ⟨artifact, ran⟩ := @readArrays_total data header (Nat.le_of_not_lt short)
      obtain ⟨valid, checked, sound⟩ := artifact.topologyIsValid_spec
      rw [if_neg short, ran, ok_bind, checked, ok_bind]
      refine ⟨_, rfl, fun accepted same => ?_⟩
      cases valid with
      | false => simp at same
      | true =>
          obtain rfl : artifact = accepted := by simpa using same
          exact sound.mp rfl

/-- The parser takes every byte string. -/
theorem parseArtifact_total (data : List UInt8) (key : CircuitCacheKey)
    : Parses (parseArtifact data key) := by
  rw [parseArtifact]
  by_cases short : data.length < headerSize
  · rw [if_pos short]
    exact parses_none
  have enough : 60 ≤ data.length := Nat.le_of_not_lt short
  have limit : (60 : Nat) < usizeLimit := by decide
  obtain ⟨magic, ran⟩ := @readU32_total data 0 (by omega) (by omega)
  rw [if_neg short, ran, ok_bind]
  dsimp only
  split
  · exact parses_none
  obtain ⟨version, ran⟩ := @readU32_total data (0 + 4) (by omega) (by omega)
  rw [ran, ok_bind]
  dsimp only
  split
  · exact parses_none
  rw [parseKey]
  obtain ⟨cnfHash, ran⟩ := @readU64_total data (0 + 4 + 4) (by omega) (by omega)
  rw [ran, ok_bind]
  dsimp only
  obtain ⟨configHash, ran⟩ := @readU64_total data (0 + 4 + 4 + 8) (by omega) (by omega)
  rw [ran, ok_bind]
  dsimp only
  obtain ⟨randomVarsHash, ran⟩ := @readU64_total data (0 + 4 + 4 + 8 + 8) (by omega) (by omega)
  rw [ran, ok_bind]
  dsimp only
  obtain ⟨sm, ran⟩ := @readU32_total data (0 + 4 + 4 + 8 + 8 + 8) (by omega) (by omega)
  rw [ran, ok_bind]
  dsimp only
  split
  · exact parses_none
  rw [parseCounts, show 0 + 4 + 4 + 8 + 8 + 8 + 4 = 36 from rfl]
  obtain ⟨numNodes, ran⟩ := @readU32_total data 36 (by omega) (by omega)
  rw [ran, ok_bind]
  dsimp only
  obtain ⟨numEdges, ran⟩ := @readU32_total data (36 + 4) (by omega) (by omega)
  rw [ran, ok_bind]
  dsimp only
  obtain ⟨numLevels, ran⟩ := @readU32_total data (36 + 4 + 4) (by omega) (by omega)
  rw [ran, ok_bind]
  dsimp only
  obtain ⟨root, ran⟩ := @readU32_total data (36 + 4 + 4 + 4) (by omega) (by omega)
  rw [ran, ok_bind]
  dsimp only
  obtain ⟨maxVar, ran⟩ := @readU32_total data (36 + 4 + 4 + 4 + 4) (by omega) (by omega)
  rw [ran, ok_bind]
  dsimp only
  rw [itemAt_ok (show 36 + 4 + 4 + 4 + 4 + 4 < data.length by omega), ok_bind,
    advance_ok (by omega), ok_bind, advance_ok (by omega), ok_bind]
  exact parseArrays_total _

end Total

-- Reading back

def CircuitArtifact.header (artifact : CircuitArtifact) : ArtifactHeader :=
  ⟨artifact.numNodes, artifact.numEdges, artifact.numLevels, artifact.root, artifact.maxVar,
    artifact.hasFreeVarMask⟩

section ReadBack

variable {data rest : List UInt8} {cursor : Nat}

theorem readU32_at {word : UInt32} (here : At data cursor (u32Bytes word ++ rest))
    (fits : data.length < usizeLimit)
    : readU32 data cursor = .ok (word, cursor + 4) ∧ At data (cursor + 4) rest := by
  have next := here.next
  have room := here.room
  rw [u32Bytes, length_toLe] at next room
  rw [readU32, readLe_at here word.toNat_lt fits, ok_bind, advance_ok (by omega), ok_bind,
    UInt32.ofNat_toNat]
  exact ⟨rfl, next⟩

theorem readU64_at {word : UInt64} (here : At data cursor (u64Bytes word ++ rest))
    (fits : data.length < usizeLimit)
    : readU64 data cursor = .ok (word, cursor + 8) ∧ At data (cursor + 8) rest := by
  have next := here.next
  have room := here.room
  rw [u64Bytes, length_toLe] at next room
  rw [readU64, readLe_at here word.toNat_lt fits, ok_bind, advance_ok (by omega), ok_bind,
    UInt64.ofNat_toNat]
  exact ⟨rfl, next⟩

theorem length_u32sBytes (words : List UInt32) : (u32sBytes words).length = words.length * 4 := by
  rw [u32sBytes, show words.length = (words.map UInt32.toNat).length from (List.length_map _).symm,
    ← length_flatMap_toLe, List.flatMap_map]
  rfl

theorem readU32Vec_at {words : List UInt32} {count : Nat} (exact_count : words.length = count)
    (here : At data cursor (u32sBytes words ++ rest)) (fits : data.length < usizeLimit)
    : readU32Vec data cursor count = .ok (words, cursor + count * 4)
      ∧ At data (cursor + count * 4) rest := by
  subst exact_count
  have next := here.next
  have room := here.room
  rw [length_u32sBytes] at next room
  have table : u32sBytes words = (words.map UInt32.toNat).flatMap (toLe 4) :=
    (List.flatMap_map UInt32.toNat (toLe 4) words).symm
  rw [table] at here
  have read := readLeVec_at here (by
    intro n member
    obtain ⟨word, -, rfl⟩ := List.mem_map.mp member
    exact word.toNat_lt) fits
  rw [List.length_map] at read
  rw [readU32Vec, read, ok_bind, advance_ok (by omega), ok_bind, List.map_map]
  rw [List.map_id'' (f := UInt32.ofNat ∘ UInt32.toNat) fun word => UInt32.ofNat_toNat]
  exact ⟨rfl, next⟩

theorem readI32Vec_at {words : List Int32} {count : Nat} (exact_count : words.length = count)
    (here : At data cursor (i32sBytes words ++ rest)) (fits : data.length < usizeLimit)
    : readI32Vec data cursor count = .ok (words, cursor + count * 4)
      ∧ At data (cursor + count * 4) rest := by
  have table : i32sBytes words = u32sBytes (words.map Int32.toUInt32) :=
    (List.flatMap_map ..).symm
  rw [table] at here
  obtain ⟨read, next⟩ := readU32Vec_at (by rw [List.length_map, exact_count]) here fits
  rw [readI32Vec, read, ok_bind]
  dsimp only
  rw [List.map_map, List.map_id'' (f := UInt32.toInt32 ∘ Int32.toUInt32) Int32.toInt32_toUInt32]
  exact ⟨rfl, next⟩

theorem readBytes_at {bytes : List UInt8} {count : Nat} (exact_count : bytes.length = count)
    (here : At data cursor (bytes ++ rest)) (fits : data.length < usizeLimit)
    : readBytes data cursor count = .ok (bytes, cursor + count)
      ∧ At data (cursor + count) rest := by
  subst exact_count
  obtain ⟨moved, next⟩ := advance_at _ rfl here fits
  rw [readBytes, moved, ok_bind, slice_ok here.room, ok_bind, here.drop, List.take_left]
  exact ⟨rfl, next⟩

theorem readArrays_at {artifact : CircuitArtifact} (shaped : artifact.Shaped)
    (here : At data cursor (artifact.nodeType ++ (u32sBytes artifact.childOffsets
      ++ (u32sBytes artifact.childIndices ++ (i32sBytes artifact.lit
      ++ (u32sBytes artifact.decisionVar ++ (u32sBytes artifact.decisionChildFalse
      ++ (u32sBytes artifact.decisionChildTrue ++ (u32sBytes artifact.levelNodes
      ++ (u32sBytes artifact.levelOffsets ++ artifact.freeVarMask))))))))))
    (fits : data.length < usizeLimit)
    : readArrays data artifact.header cursor = .ok artifact := by
  obtain ⟨nodeType, here⟩ := readBytes_at shaped.nodeType here fits
  obtain ⟨childOffsets, here⟩ := readU32Vec_at shaped.childOffsets here fits
  obtain ⟨childIndices, here⟩ := readU32Vec_at shaped.childIndices here fits
  obtain ⟨lit, here⟩ := readI32Vec_at shaped.lit here fits
  obtain ⟨decisionVar, here⟩ := readU32Vec_at shaped.decisionVar here fits
  obtain ⟨decisionChildFalse, here⟩ := readU32Vec_at shaped.decisionChildFalse here fits
  obtain ⟨decisionChildTrue, here⟩ := readU32Vec_at shaped.decisionChildTrue here fits
  obtain ⟨levelNodes, here⟩ := readU32Vec_at shaped.levelNodes here fits
  obtain ⟨levelOffsets, here⟩ := readU32Vec_at shaped.levelOffsets here fits
  rw [← List.append_nil artifact.freeVarMask] at here
  obtain ⟨freeVarMask, -⟩ := readBytes_at shaped.freeVarMask here fits
  simp only [readArrays, CircuitArtifact.header, nodeType, childOffsets, childIndices, lit,
    decisionVar, decisionChildFalse, decisionChildTrue, levelNodes, levelOffsets, freeVarMask,
    ok_bind]

/-- The bytes that a write produces have the size that the parser expects. -/
theorem length_encode (key : CircuitCacheKey) {artifact : CircuitArtifact}
    (shaped : artifact.Shaped) : (encode key artifact).length = entrySize artifact.header := by
  have i32s : (i32sBytes artifact.lit).length = artifact.lit.length * 4 := by
    rw [show artifact.lit.length = (artifact.lit.map Int32.toUInt32).length from
      (List.length_map _).symm, ← length_u32sBytes, u32sBytes, List.flatMap_map]
    rfl
  simp only [encode, List.length_append, u32Bytes, u64Bytes, length_toLe, length_u32sBytes, i32s,
    List.length_cons, List.length_nil, shaped.nodeType, shaped.childOffsets, shaped.childIndices,
    shaped.lit, shaped.decisionVar, shaped.decisionChildFalse, shaped.decisionChildTrue,
    shaped.levelNodes, shaped.levelOffsets, shaped.freeVarMask, entrySize, headerSize,
    CircuitArtifact.header]
  generalize artifact.numNodes.toNat = nodes
  generalize artifact.numEdges.toNat = edges
  generalize artifact.numLevels.toNat = levels
  generalize artifact.maxVar.toNat = vars
  clear shaped i32s
  ring

/-- Only a sound topology is accepted behind the header. -/
theorem parseArrays_at {artifact : CircuitArtifact}
    (size : entrySize artifact.header ≤ data.length)
    (read : readArrays data artifact.header cursor = .ok artifact)
    : ∃ valid, (valid = true ↔ artifact.Topology)
        ∧ parseArrays data artifact.header cursor
          = .ok (if valid then some artifact else none) := by
  obtain ⟨valid, checked, sound⟩ := artifact.topologyIsValid_spec
  rw [parseArrays]
  by_cases counts : artifact.header.numNodes = 0 ∨ artifact.header.numLevels = 0
      ∨ artifact.header.root ≥ artifact.header.numNodes
  · have unsound : ¬ artifact.Topology := by
      intro topology
      obtain nodes | levels | root := counts
      · exact topology.counts.1 nodes
      · exact topology.counts.2 levels
      · exact UInt32.not_le.mpr topology.root root
    exact ⟨false, iff_of_false (by simp) unsound, by rw [if_pos counts]; rfl⟩
  · refine ⟨valid, sound, ?_⟩
    rw [if_neg counts, expectedTotal_eq]
    dsimp only
    rw [if_neg (Nat.not_lt.mpr size), read, ok_bind, checked, ok_bind]

/-- What is read from the bytes of a write is its artifact, or nothing when the topology is not sound. -/
theorem parseArtifact_encode (key : CircuitCacheKey) {artifact : CircuitArtifact}
    (shaped : artifact.Shaped)
    : ∃ valid, (valid = true ↔ artifact.Topology)
        ∧ parseArtifact (encode key artifact) key
          = .ok (if valid then some artifact else none) := by
  have size := length_encode key shaped
  have fits : (encode key artifact).length < usizeLimit := size ▸ entrySize_lt _
  have long : ¬ (encode key artifact).length < headerSize := by
    rw [size, entrySize]
    omega
  obtain ⟨data, whole⟩ : ∃ data, data = encode key artifact := ⟨_, rfl⟩
  have here : At data 0 (encode key artifact) := whole ▸ At.start _
  rw [← whole] at fits long size ⊢
  rw [encode] at here
  obtain ⟨magic, here⟩ := readU32_at here fits
  obtain ⟨version, here⟩ := readU32_at here fits
  obtain ⟨cnfHash, here⟩ := readU64_at here fits
  obtain ⟨configHash, here⟩ := readU64_at here fits
  obtain ⟨randomVarsHash, here⟩ := readU64_at here fits
  obtain ⟨sm, here⟩ := readU32_at here fits
  obtain ⟨numNodes, here⟩ := readU32_at here fits
  obtain ⟨numEdges, here⟩ := readU32_at here fits
  obtain ⟨numLevels, here⟩ := readU32_at here fits
  obtain ⟨root, here⟩ := readU32_at here fits
  obtain ⟨maxVar, here⟩ := readU32_at here fits
  have mask := itemAt_at here
  obtain ⟨behind_mask, here⟩ := advance_at 1 rfl here fits
  obtain ⟨behind_padding, here⟩ := advance_at 3 rfl here fits
  have arrays := readArrays_at shaped here fits
  obtain ⟨valid, sound, parsed⟩ := parseArrays_at (Nat.le_of_eq size.symm) arrays
  refine ⟨valid, sound, ?_⟩
  have mask_flag : decide (artifact.hasFreeVarMask.toUInt8 ≠ 0) = artifact.hasFreeVarMask := by
    cases artifact.hasFreeVarMask <;> rfl
  rw [parseArtifact, if_neg long, magic, ok_bind]
  dsimp only
  rw [if_neg (not_not.mpr rfl), version, ok_bind]
  dsimp only
  rw [if_neg (not_not.mpr rfl), parseKey, cnfHash, ok_bind]
  dsimp only
  rw [configHash, ok_bind]
  dsimp only
  rw [randomVarsHash, ok_bind]
  dsimp only
  rw [sm, ok_bind]
  dsimp only
  rw [if_neg (by simp), parseCounts, numNodes, ok_bind]
  dsimp only
  rw [numEdges, ok_bind]
  dsimp only
  rw [numLevels, ok_bind]
  dsimp only
  rw [root, ok_bind]
  dsimp only
  rw [maxVar, ok_bind]
  dsimp only
  rw [mask, ok_bind, behind_mask, ok_bind, behind_padding, ok_bind, mask_flag]
  exact parsed

end ReadBack

end Xlog.Prob.DiskCache
