import Xlog.Cuda.SemanticLane

/-! The transition preflight is sufficient: two lanes of a fork, at most two insertions and a
terminal find their slots and generations, whatever the first one leaves behind.
-/

namespace Xlog.Cuda.SemanticGraph

open Xlog.Foundation

-- Lanes

/-- The statement and support of an `insert_support`. -/
structure Insertion where
  polarity : Nat
  statementRecord : Nat
  supportRecord : Nat
  statement : Identity
  support : Identity
  reconstruction : List Nat

/-- What the device asks of the words of an insertion. -/
structure Insertion.WellFormed (insertion : Insertion) : Prop where
  polarity : insertion.polarity = 1 ∨ insertion.polarity = 2
  records : insertion.statementRecord ≤ halfMax ∧ insertion.supportRecord ≤ halfMax
  reconstruction
    : insertion.statementRecord ≠ halfMax → ∀ word ∈ insertion.reconstruction, word = 0

def Insertion.command (insertion : Insertion) (slot generation : Nat) : Command :=
  { operation := .insertSupport
    slot
    generation
    polarity := insertion.polarity
    statementRecord := insertion.statementRecord
    supportRecord := insertion.supportRecord
    statement := insertion.statement
    support := insertion.support
    reconstruction := insertion.reconstruction }

/-- The launch of a host command. -/
def launchHost (digests : Digests) (owner : Nat) (command : Command) (s : Store) : Executed :=
  execute digests s
    { expectedOwner := owner
      abiGeneration
      admission := .hostCommand
      command := some { command with owner } }

/-- Insertions into the candidate with this handle, with the receipt of each. -/
def runInsertions (digests : Digests) (owner slot generation : Nat)
    : List Insertion → Store → Store × List Receipt
  | [], s => (s, [])
  | insertion :: rest, s =>
      let launched := launchHost digests owner (insertion.command slot generation) s
      let (after, receipts) := runInsertions digests owner slot generation rest launched.store
      (after, launched.receipt :: receipts)

structure Lane where
  insertions : List Insertion
  sealing : Bool

def Lane.terminal (lane : Lane) : Operation := if lane.sealing then .seal else .discard

/-- A fork of the root, the insertions of the lane and its terminal. -/
def runLane (digests : Digests) (owner rootSlot rootGeneration : Nat) (lane : Lane) (s : Store)
    : Store × List Receipt :=
  let fork : Command := { operation := .fork, slot := rootSlot, generation := rootGeneration }
  let forked := launchHost digests owner fork s
  let slot := forked.receipt.forkSlot
  let generation := forked.receipt.forkGeneration
  let (inserted, receipts) :=
    runInsertions digests owner slot generation lane.insertions forked.store
  let ended := launchHost digests owner { operation := lane.terminal, slot, generation } inserted
  (ended.store, forked.receipt :: receipts ++ [ended.receipt])

-- Launches of commands

section

variable {digests : Digests} {s : Store} {command : Command} {receipt : Receipt} {owner : Nat}

/-- A host command of the owner runs. -/
theorem launchHost_ok (h : Sound digests s) (operation : command.operation ≠ .initializeArena)
    (hcontrol : s.control.owner = owner)
    : (launchHost digests owner command s).store
        = (runCommand digests s { command with owner } { owner }).1
      ∧ (launchHost digests owner command s).receipt
        = (runCommand digests s { command with owner } { owner }).2 := by
  rw [launchHost, execute]
  dsimp only
  rw [if_neg (by simp), if_neg (not_not.mpr h.capacities), admitLaunch]
  dsimp only
  rw [Task.command, if_neg operation, validateControl_ok h hcontrol rfl]
  dsimp only
  rw [runTask, runAdmitted]
  dsimp only
  rw [if_neg (by simp), if_neg (by simp)]
  refine ⟨rfl, ?_⟩
  split <;> rfl

/-- The control words refuse every other owner. -/
theorem launchHost_owner (h : Sound digests s) (operation : command.operation ≠ .initializeArena)
    (ok : (launchHost digests owner command s).receipt.status = .ok)
    : s.control.owner = owner := by
  rw [launchHost, execute] at ok
  dsimp only at ok
  rw [if_neg (by simp), if_neg (not_not.mpr h.capacities), admitLaunch] at ok
  dsimp only at ok
  rw [Task.command, if_neg operation] at ok
  have hends := @validateControl_ends s { command with owner } { owner } owner
  cases hcheck : validateControl s owner { command with owner } { owner } with
  | error refusal =>
      rw [hcheck] at hends ok
      exact absurd ok hends.status
  | ok _ =>
      rw [hcheck] at hends
      exact hends

end

-- Tables of a lane

/-- The first two free records are not in their last generation. -/
structure Room {α : Type} (records : Nat → Record α) (capacity : Nat) : Prop where
  room : 2 ≤ (freeRecords records capacity).length
  generation
    : ∀ i slot, i < 2 → (freeRecords records capacity)[i]? = some slot
      → (records slot).generation ≠ wordMax

/-- What a lane leaves of a table that it started on. -/
structure AfterTable {α : Type} (base after : Nat → Record α) (capacity : Nat) : Prop where
  room : Reserved base capacity → Room after capacity
  kept
    : ∀ slot, slot < capacity → (base slot).state = .sealed
      → (after slot).generation = (base slot).generation

section

variable {α : Type} {base records after : Nat → Record α} {capacity owner used slot : Nat}

/-- A lane that used one of the two slots finds the other one. -/
theorem LaneTable.findFree (h : LaneTable base records capacity owner used)
    (room : Room base capacity) (hused : used < 2)
    : ∃ slot, SemanticGraph.findFree (fun i => (records i).state) capacity = some slot
        ∧ (records slot).generation ≠ wordMax := by
  have hroom := room.room
  have hlt : used < (freeRecords base capacity).length := by omega
  have hget := List.getElem?_eq_getElem hlt
  have hfound : SemanticGraph.findFree (fun i => (records i).state) capacity
      = some (freeRecords base capacity)[used] := by
    rw [← freeSlots_head?]
    change (freeRecords records capacity).head? = _
    rw [h.free, List.head?_drop, hget]
  refine ⟨_, hfound, ?_⟩
  obtain ⟨hslot, hfree, _⟩ := findFree_some hfound
  rcases h.slot _ hslot with heq | ⟨_, hstaged, _⟩
  · rw [heq]
    exact room.generation used _ hused hget
  · rw [hstaged.1] at hfree
    exact absurd hfree (by simp)

/-- The next lane takes the slots after those that were sealed. -/
theorem LaneTable.sealed (h : LaneTable base records capacity owner used) (hused : used ≤ 2)
    : AfterTable base (fun slot => (records slot).seal owner) capacity := by
  have hgeneration : ∀ slot, slot < capacity →
      ((records slot).seal owner).generation = (base slot).generation := by
    intro slot hslot
    rw [(seal_fields _ _).1]
    rcases h.slot slot hslot with heq | ⟨_, _, heq⟩
    · rw [heq]
    · exact heq
  have hfree : freeRecords (fun slot => (records slot).seal owner) capacity
      = (freeRecords base capacity).drop used := by
    rw [← h.free]
    refine freeSlots_congr fun slot _ => ?_
    dsimp only
    rw [Record.seal]
    split
    · next hstaged => simp [hstaged.1]
    · exact Iff.rfl
  refine ⟨fun reserved => ⟨?_, ?_⟩, fun slot hslot _ => hgeneration slot hslot⟩
  · have := reserved.room
    change 4 ≤ (freeRecords base capacity).length at this
    rw [hfree, List.length_drop]
    omega
  · intro i slot hi hslot
    rw [hfree, List.getElem?_drop] at hslot
    have hmem := mem_freeRecords.mp (List.mem_of_getElem? hslot)
    have hle := reserved.generation (used + i) slot (by omega) hslot
    rw [hgeneration slot hmem.1]
    rw [wordMax] at hle ⊢
    split at hle <;> omega

/-- The next lane takes the slots that were freed again. -/
theorem LaneTable.retired (h : LaneTable base records capacity owner used)
    (unstaged : ∀ slot, slot < capacity → (base slot).state ≠ .staged)
    (bounded : ∀ slot, slot < capacity → (records slot).generation ≤ wordMax
      ∧ ((records slot).state = .staged → (records slot).generation ≠ wordMax))
    : AfterTable base (fun slot => (records slot).retire owner) capacity := by
  have hslot : ∀ slot, slot < capacity →
      (records slot).retire owner = base slot
        ∨ ((base slot).state = .free ∧ ((records slot).retire owner).state = .free
          ∧ ((records slot).retire owner).generation = (base slot).generation + 1) := by
    intro slot hslot
    rcases h.slot slot hslot with heq | ⟨hfree, hstaged, heq⟩
    · refine Or.inl ?_
      rw [heq, Record.retire, if_neg]
      exact fun hstaged => unstaged slot hslot hstaged.1
    · refine Or.inr ⟨hfree, ?_⟩
      rw [Record.retire, if_pos hstaged]
      refine ⟨rfl, ?_⟩
      dsimp only
      rw [bump_eq (bounded slot hslot).1 ((bounded slot hslot).2 hstaged.1), heq]
  have hfree : freeRecords (fun slot => (records slot).retire owner) capacity
      = freeRecords base capacity := by
    refine freeSlots_congr fun slot hlt => ?_
    rcases hslot slot hlt with heq | ⟨hfree, hfree', _⟩
    · dsimp only
      rw [heq]
    · simp [hfree, hfree']
  refine ⟨fun reserved => ⟨?_, ?_⟩, ?_⟩
  · have := reserved.room
    change 4 ≤ (freeRecords base capacity).length at this
    rw [hfree]
    omega
  · intro i slot hi hget
    rw [hfree] at hget
    have hmem := mem_freeRecords.mp (List.mem_of_getElem? hget)
    have hle := reserved.generation i slot (by omega) hget
    rw [if_pos hi] at hle
    rcases hslot slot hmem.1 with heq | ⟨_, _, heq⟩
    · rw [heq]
      rw [wordMax] at hle ⊢
      omega
    · rw [heq]
      rw [wordMax] at hle ⊢
      omega
  · intro slot hlt hsealed
    rcases hslot slot hlt with heq | ⟨hfree, _⟩
    · rw [heq]
    · rw [hsealed] at hfree
      exact absurd hfree (by simp)

end

-- Commands that find their places

section

variable {digests : Digests} {s : Store} {command : Command} {receipt : Receipt}

/-- The places of an insertion are free and can be retired again. -/
structure Placeable (s : Store) (command : Command) : Prop where
  statement
    : ∃ slot, findFree (fun i => (s.statements i).state) s.capacities.statements = some slot
        ∧ (s.statements slot).generation ≠ wordMax
  support
    : ∃ slot, findFree (fun i => (s.supports i).state) s.capacities.supports = some slot
        ∧ (s.supports slot).generation ≠ wordMax
  version
    : ∃ slot, findFree (fun i => (s.versions i).state) s.capacities.versions = some slot
        ∧ (s.versions slot).generation ≠ wordMax
  heads : ∀ slot, s.candidateHeads slot ≠ 0 → (s.statements slot).generation ≠ wordMax
  extents
    : s.candidate.extents.statements < halfMax ∧ s.candidate.extents.supports < halfMax
      ∧ s.candidate.extents.versions < halfMax
  polarity : command.polarity = 1 ∨ command.polarity = 2
  records : command.statementRecord ≤ halfMax ∧ command.supportRecord ≤ halfMax
  reconstruction : command.statementRecord ≠ halfMax → ∀ word ∈ command.reconstruction, word = 0

theorem findFreeOr_ok {α : Type} {records : Nat → Record α} {capacity slot : Nat}
    {refusal : Receipt} (found : findFree (fun i => (records i).state) capacity = some slot)
    : findFreeOr records capacity refusal = .ok slot := by
  rw [findFreeOr, found]

theorem checkAttachment_ok (h : Placeable s command) {a : Attachment}
    (statement : (s.statements a.statementSlot).generation ≠ wordMax)
    (support : (s.supports a.supportSlot).generation ≠ wordMax)
    (version : (s.versions a.versionSlot).generation ≠ wordMax)
    : checkAttachment s command a receipt = .ok () := by
  have hextents := h.extents
  have hpolarity := h.polarity
  rw [checkAttachment]
  dsimp only
  rw [refuseIf_ok statement, ok_bind, refuseIf_ok support, ok_bind, refuseIf_ok version, ok_bind,
    refuseIf_ok (by omega), ok_bind, refuseIf_ok (by omega)]

theorem attachSupport_ok (h : Placeable s command) {existing : Option Nat}
    (found : ∀ slot, existing = some slot → s.candidateHeads slot ≠ 0)
    : ∃ result, attachSupport digests s command existing receipt = .ok result := by
  obtain ⟨statementSlot, hplace, hstatement⟩ :
      ∃ slot, statementPlace s existing receipt = .ok slot
        ∧ (s.statements slot).generation ≠ wordMax := by
    cases existing with
    | none =>
        obtain ⟨slot, hfree, hroom⟩ := h.statement
        exact ⟨slot, findFreeOr_ok hfree, hroom⟩
    | some slot => exact ⟨slot, rfl, h.heads slot (found slot rfl)⟩
  obtain ⟨supportSlot, hsupportFree, hsupport⟩ := h.support
  obtain ⟨versionSlot, hversionFree, hversion⟩ := h.version
  rw [attachSupport, hplace, ok_bind, findFreeOr_ok hsupportFree, ok_bind,
    findFreeOr_ok hversionFree, ok_bind]
  dsimp only
  rw [checkAttachment_ok h hstatement hsupport hversion, ok_bind]
  exact ⟨_, rfl⟩

theorem insertSupport_ok (h : Sound digests s)
    (candidate : s.CandidateValid command.slot command.generation) (placeable : Placeable s command)
    : ∃ result, insertSupport digests s command receipt = .ok result := by
  have hview := (h.live candidate.live).view
  have hrecords := placeable.records
  obtain ⟨existing, hfind, hsome, _⟩ := @findStatement_ok digests s true s.candidateHeads _ receipt
    h.generations hview.lineage command.statement
  have hreconstruction : ¬(command.statementRecord ≠ halfMax
      ∧ ∃ word ∈ command.reconstruction, word ≠ 0) := by
    rintro ⟨hne, word, hmem, hword⟩
    exact hword (placeable.reconstruction hne word hmem)
  rw [insertSupport, validateCandidate_ok candidate, ok_bind, refuseIf_ok (by omega), ok_bind,
    refuseIf_ok hreconstruction, ok_bind, hfind, ok_bind]
  cases existing with
  | none => exact attachSupport_ok placeable (by simp)
  | some slot =>
      obtain ⟨_, hne, _⟩ := hsome slot rfl
      have hsmall : s.candidate.extents.versions + 1 ≤ wordMax := by
        have := hview.bounded.versions
        rw [halfMax] at this
        rw [wordMax]
        omega
      obtain ⟨found, _, hevent, _⟩ := @findEventVersion_ok digests s s.candidateHeads _ receipt
        h.generations hview.lineage hsmall slot hne command.support
      dsimp only
      rw [hevent, ok_bind]
      cases found with
      | none =>
          refine attachSupport_ok placeable fun other hother => ?_
          obtain rfl := Option.some.inj hother
          exact hne
      | some version => exact ⟨_, rfl⟩

end

-- One lane

/-- A store where a lane over the root can start. -/
structure LaneReady (digests : Digests) (s : Store) (slot generation : Nat) : Prop where
  sound : Sound digests s
  free : s.candidate.state = .free
  retirable : s.candidate.generation ≠ wordMax
  root : s.RootValid slot generation
  extents
    : (s.roots slot).extents.statements ≤ halfMax - 2
      ∧ (s.roots slot).extents.supports ≤ halfMax - 2
      ∧ (s.roots slot).extents.versions ≤ halfMax - 2
  roots : 1 ≤ (freeSlots (fun i => (s.roots i).state) s.capacities.roots).length
  statements : Room s.statements s.capacities.statements
  supports : Room s.supports s.capacities.supports
  versions : Room s.versions s.capacities.versions
  heads
    : ∀ i, i < s.capacities.statements → s.rootHeads slot i ≠ 0
      → (s.statements i).generation ≠ wordMax

/-- A lane that is short of its two insertions. -/
structure InLane (digests : Digests) (base s : Store) (slot : Nat) (done : List Event) : Prop
    extends Editing digests base s slot done where
  extents
    : s.candidate.extents.statements ≤ (base.roots slot).extents.statements + done.length
      ∧ s.candidate.extents.supports ≤ (base.roots slot).extents.supports + done.length
      ∧ s.candidate.extents.versions ≤ (base.roots slot).extents.versions + done.length
  heads : ∀ i, s.candidateHeads i ≠ 0 → (s.statements i).generation ≠ wordMax

/-- What a lane leaves. -/
structure AfterLane (digests : Digests) (base s : Store) (slot : Nat) : Prop where
  sound : Sound digests s
  free : s.candidate.state = .free
  generation : s.candidate.generation = base.candidate.generation + 1
  control : s.control = base.control
  capacities : s.capacities = base.capacities
  root : s.roots slot = base.roots slot ∧ s.rootHeads slot = base.rootHeads slot
  roots
    : (freeSlots (fun i => (base.roots i).state) base.capacities.roots).length
      ≤ (freeSlots (fun i => (s.roots i).state) base.capacities.roots).length + 1
  statements : AfterTable base.statements s.statements base.capacities.statements
  supports : AfterTable base.supports s.supports base.capacities.supports
  versions : AfterTable base.versions s.versions base.capacities.versions

section

variable {digests : Digests} {base s : Store} {slot generation : Nat} {done : List Event}
  {command : Command} {receipt : Receipt}

theorem TakenTable.findFree {α : Type} {base records : Nat → Record α}
    {capacity owner count : Nat} (h : TakenTable base records capacity owner count)
    (room : Room base capacity) (hcount : count < 2)
    : ∃ slot, SemanticGraph.findFree (fun i => (records i).state) capacity = some slot
        ∧ (records slot).generation ≠ wordMax := by
  obtain ⟨used, hle, htable⟩ := h
  exact htable.findFree room (Nat.lt_of_le_of_lt hle hcount)

/-- A fork starts the lane. -/
theorem Forks.inLane {result : Store × Receipt} (ready : LaneReady digests base slot generation)
    (forks : Forks base command receipt result) (hslot : command.slot = slot)
    : InLane digests base result.1 slot [] := by
  subst hslot
  have hview := (ready.sound.root _ forks.root.inRoots).view forks.root.isSealed
  have hediting := forks.editing ready.sound
  rw [forks.store] at hediting ⊢
  exact {
    toEditing := hediting
    extents := ⟨Nat.le_refl _, Nat.le_refl _, Nat.le_refl _⟩
    heads := fun i hne => ready.heads i (hview.lineage.inStatements i hne) hne
  }

/-- A lane with fewer than two insertions finds the places of the next one. -/
theorem InLane.placeable (h : InLane digests base s slot done)
    (ready : LaneReady digests base slot generation) (hcount : done.length < 2)
    (polarity : command.polarity = 1 ∨ command.polarity = 2)
    (records : command.statementRecord ≤ halfMax ∧ command.supportRecord ≤ halfMax)
    (reconstruction : command.statementRecord ≠ halfMax → ∀ word ∈ command.reconstruction, word = 0)
    : Placeable s command := by
  have hextents := h.extents
  have hbase := ready.extents
  refine ⟨?_, ?_, ?_, h.heads, ?_, polarity, records, reconstruction⟩
  · rw [h.capacities]
    exact h.statements.findFree ready.statements hcount
  · rw [h.capacities]
    exact h.supports.findFree ready.supports hcount
  · rw [h.capacities]
    exact h.versions.findFree ready.versions hcount
  · rw [halfMax] at *
    omega

theorem InLane.insert {result : Store × Receipt} (h : InLane digests base s slot done)
    (inserts : Inserts digests s command receipt result)
    : InLane digests base result.1 slot ((command.statement, command.support) :: done) := by
  have hextents := h.extents
  have hediting := h.toEditing.insert inserts
  rcases inserts.outcome with ⟨_, heq, _⟩ | ⟨_, _, a, attaches, heq⟩
  · rw [heq] at hediting ⊢
    refine { hediting with extents := ?_, heads := h.heads }
    rw [List.length_cons]
    omega
  · rw [heq] at hediting ⊢
    have hview := (h.sound.live h.live).view
    obtain ⟨hversions, hsupports, hstatements⟩ :=
      @attach_extents digests s command a attaches hview.bounded
    have hnew := Bool.toNat_le a.newStatement
    refine { hediting with extents := ?_, heads := fun i hne => ?_ }
    · rw [List.length_cons]
      omega
    · rw [attach_statements_generation]
      by_cases hi : i = a.statementSlot
      · rw [hi]
        exact attaches.statementGeneration
      · refine h.heads i fun hzero => hne ?_
        exact (Function.update_of_ne hi _ _).trans hzero

theorem LaneReady.unstaged (ready : LaneReady digests base slot generation)
    : (∀ i, i < base.capacities.statements → (base.statements i).state ≠ .staged)
      ∧ (∀ i, i < base.capacities.supports → (base.supports i).state ≠ .staged)
      ∧ ∀ i, i < base.capacities.versions → (base.versions i).state ≠ .staged :=
  ⟨fun i hi => (ready.sound.statement i hi).not_staged ready.free,
    fun i hi => (ready.sound.support i hi).not_staged ready.free,
    fun i hi => (ready.sound.version i hi).not_staged ready.free⟩

theorem InLane.discarded (h : InLane digests base s slot done)
    (ready : LaneReady digests base slot generation)
    : AfterLane digests base s.discarded slot := by
  obtain ⟨hstatements, hsupports, hversions⟩ := ready.unstaged
  have hbump := bump_eq ready.sound.generation.2 ready.retirable
  have htable : ∀ {α : Type} {table records : Nat → Record α} {capacity : Nat},
      TakenTable table records capacity base.candidate.generation done.length →
      (∀ i, i < capacity → (table i).state ≠ .staged) →
      (∀ i, i < capacity → RecordOk s (records i)) →
      AfterTable table (fun i => (records i).retire s.candidate.generation) capacity := by
    intro α table records capacity ⟨used, _, htable⟩ hunstaged hok
    rw [h.generation]
    exact htable.retired hunstaged fun i hi =>
      ⟨(hok i hi).bounded, fun hstaged => ((hok i hi).staged hstaged).2.2⟩
  exact {
    sound := discarded_sound h.sound h.live
    free := rfl
    generation := by
      change bump s.candidate.generation = _
      rw [h.generation, hbump]
    control := h.control
    capacities := h.capacities
    root := ⟨congrFun h.roots.1 slot, congrFun h.roots.2 slot⟩
    roots := by
      change _ ≤ (freeSlots (fun i => (s.roots i).state) _).length + 1
      rw [h.roots.1]
      exact Nat.le_succ _
    statements := htable h.statements hstatements fun i hi =>
      h.sound.statement i (by rwa [h.capacities])
    supports := htable h.supports hsupports fun i hi => h.sound.support i (by rwa [h.capacities])
    versions := htable h.versions hversions fun i hi => h.sound.version i (by rwa [h.capacities])
  }

theorem InLane.sealed {rootSlot : Nat} (h : InLane digests base s slot done)
    (ready : LaneReady digests base slot generation) (hcount : done.length ≤ 2)
    (found : findFree (fun i => (s.roots i).state) s.capacities.roots = some rootSlot)
    : AfterLane digests base (s.sealedAt rootSlot) slot := by
  have hbump := bump_eq ready.sound.generation.2 ready.retirable
  have htable : ∀ {α : Type} {table records : Nat → Record α} {capacity : Nat},
      TakenTable table records capacity base.candidate.generation done.length →
      AfterTable table (fun i => (records i).seal s.candidate.generation) capacity := by
    intro α table records capacity ⟨used, hle, htable⟩
    rw [h.generation]
    exact htable.sealed (Nat.le_trans hle hcount)
  have hne : slot ≠ rootSlot := by
    rintro rfl
    have hfree := (findFree_some found).2.1
    have hsealed := ready.root.isSealed
    rw [h.roots.1, hsealed] at hfree
    exact absurd hfree (by simp)
  obtain ⟨hroot, hheads⟩ := sealedAt_other s hne
  exact {
    sound := sealedAt_sound h.sound h.live rootSlot
    free := rfl
    generation := by
      change bump s.candidate.generation = _
      rw [h.generation, hbump]
    control := h.control
    capacities := h.capacities
    root := ⟨hroot.trans (congrFun h.roots.1 slot), hheads.trans (congrFun h.roots.2 slot)⟩
    roots := by
      have htake := @freeSlots_take _ _ _ (fun i => ((s.sealedAt rootSlot).roots i).state)
        found (by simp [(sealedAt_root s rootSlot).1])
        (fun other hother => by rw [(sealedAt_other s hother).1])
      rw [h.capacities, h.roots.1] at htake
      rw [htake, List.length_drop]
      omega
    statements := htable h.statements
    supports := htable h.supports
    versions := htable h.versions
  }

end

-- Two lanes

section

variable {digests : Digests} {base s : Store} {owner slot generation : Nat} {done : List Event}
  {receipt : Receipt}

/-- A host command that succeeds is launched with its result. -/
theorem launchHost_result {command : Command} {result : Store × Receipt} (h : Sound digests s)
    (operation : command.operation ≠ .initializeArena) (hcontrol : s.control.owner = owner)
    (run : runCommand digests s { command with owner } { owner } = result)
    : (launchHost digests owner command s).store = result.1
      ∧ (launchHost digests owner command s).receipt = result.2 := by
  rw [← run]
  exact launchHost_ok h operation hcontrol

/-- The insertions of a lane succeed, by induction on them. -/
theorem runInsertions_ok (ready : LaneReady digests base slot generation)
    (hcontrol : base.control.owner = owner) {insertions : List Insertion}
    (h : InLane digests base s slot done) (hcount : done.length + insertions.length ≤ 2)
    (wellFormed : ∀ insertion ∈ insertions, insertion.WellFormed)
    : (∃ events, events.length ≤ 2
        ∧ InLane digests base
          (runInsertions digests owner 0 base.candidate.generation insertions s).1 slot events)
      ∧ ∀ receipt ∈ (runInsertions digests owner 0 base.candidate.generation insertions s).2,
          receipt.status = .ok := by
  induction insertions generalizing s done with
  | nil => exact ⟨⟨done, hcount, h⟩, by simp [runInsertions]⟩
  | cons insertion rest ih =>
      rw [List.length_cons] at hcount
      have hformed := wellFormed insertion List.mem_cons_self
      let command : Command :=
        { insertion.command 0 base.candidate.generation with owner }
      have hplaceable : Placeable s command :=
        h.placeable ready (by omega) hformed.polarity hformed.records hformed.reconstruction
      obtain ⟨result, hresult⟩ := @insertSupport_ok digests s command { owner } h.sound
        h.candidateValid hplaceable
      have hinserts := ends_ok (insertSupport_ends h.sound) hresult
      have hrun : runCommand digests s command { owner } = result := by
        rw [runCommand.eq_def]
        change settle s (insertSupport digests s command { owner }) = _
        rw [hresult]
        rfl
      obtain ⟨hstore, hreceipt⟩ := launchHost_result h.sound (by simp [Insertion.command])
        (by rw [h.control]; exact hcontrol) hrun
      rw [runInsertions]
      dsimp only
      rw [hstore, hreceipt]
      obtain ⟨hlane, hstatuses⟩ := ih (h.insert hinserts) (by rw [List.length_cons]; omega)
        fun i hi => wellFormed i (List.mem_cons_of_mem _ hi)
      refine ⟨hlane, fun receipt hmem => ?_⟩
      rcases List.mem_cons.mp hmem with rfl | hmem
      · exact hinserts.receipt.status
      · exact hstatuses receipt hmem

theorem InLane.launchDiscard (h : InLane digests base s slot done)
    (ready : LaneReady digests base slot generation) (hcontrol : s.control.owner = owner)
    : AfterLane digests base
        (launchHost digests owner
          { operation := .discard, slot := 0, generation := base.candidate.generation } s).store slot
      ∧ (launchHost digests owner
          { operation := .discard, slot := 0, generation := base.candidate.generation }
          s).receipt.status = .ok := by
  let command : Command := { operation := .discard, slot := 0, generation := base.candidate.generation }
  obtain ⟨result, hresult⟩ := @discard_ok digests s { command with owner } { owner } h.sound
    h.candidateValid
  have hdiscards := ends_ok discard_ends hresult
  have hrun : runCommand digests s { command with owner } { owner } = result := by
    change settle s (discard s { command with owner } { owner }) = _
    rw [hresult]
    rfl
  obtain ⟨hstore, hreceipt⟩ := launchHost_result h.sound (by simp [command]) hcontrol hrun
  rw [hstore, hreceipt, hdiscards.store, hdiscards.receipt]
  exact ⟨h.discarded ready, rfl⟩

theorem InLane.launchSeal (h : InLane digests base s slot done)
    (ready : LaneReady digests base slot generation) (hcontrol : s.control.owner = owner)
    (hcount : done.length ≤ 2)
    : AfterLane digests base
        (launchHost digests owner
          { operation := .seal, slot := 0, generation := base.candidate.generation } s).store slot
      ∧ (launchHost digests owner
          { operation := .seal, slot := 0, generation := base.candidate.generation }
          s).receipt.status = .ok := by
  let command : Command := { operation := .seal, slot := 0, generation := base.candidate.generation }
  have hroot : ∃ rootSlot, findFree (fun i => (s.roots i).state) s.capacities.roots
      = some rootSlot := by
    rw [h.roots.1, h.capacities, ← freeSlots_head?, ← Option.isSome_iff_exists,
      List.isSome_head?, ← List.length_pos_iff]
    exact ready.roots
  obtain ⟨result, hresult⟩ := @sealCandidate_ok digests s { command with owner } { owner } h.sound
    h.candidateValid h.digest hroot
  have hseals := ends_ok sealCandidate_ends hresult
  have hrun : runCommand digests s { command with owner } { owner } = result := by
    change settle s (sealCandidate s { command with owner } { owner }) = _
    rw [hresult]
    rfl
  obtain ⟨hstore, hreceipt⟩ := launchHost_result h.sound (by simp [command]) hcontrol hrun
  rw [hstore, hreceipt]
  refine ⟨?_, hseals.receipt.status⟩
  rcases hseals.outcome with ⟨_, heq, _⟩ | ⟨_, rootSlot, hfound, heq, _⟩
  · rw [heq]
    exact h.discarded ready
  · rw [heq]
    exact h.sealed ready hcount hfound

theorem InLane.launchTerminal (h : InLane digests base s slot done)
    (ready : LaneReady digests base slot generation) (hcontrol : s.control.owner = owner)
    (hcount : done.length ≤ 2) (lane : Lane)
    : AfterLane digests base
        (launchHost digests owner
          { operation := lane.terminal, slot := 0, generation := base.candidate.generation } s).store
        slot
      ∧ (launchHost digests owner
          { operation := lane.terminal, slot := 0, generation := base.candidate.generation }
          s).receipt.status = .ok := by
  rw [Lane.terminal]
  split
  · exact h.launchSeal ready hcontrol hcount
  · exact h.launchDiscard ready hcontrol

/-- At most two insertions of well-formed supports. -/
structure Lane.WellFormed (lane : Lane) : Prop where
  short : lane.insertions.length ≤ 2
  insertions : ∀ insertion ∈ lane.insertions, insertion.WellFormed

/-- A lane that can start succeeds. -/
theorem runLane_ok (ready : LaneReady digests base slot generation)
    (hcontrol : base.control.owner = owner) {lane : Lane} (wellFormed : lane.WellFormed)
    : AfterLane digests base (runLane digests owner slot generation lane base).1 slot
      ∧ ∀ receipt ∈ (runLane digests owner slot generation lane base).2, receipt.status = .ok := by
  let command : Command := { operation := .fork, slot, generation }
  obtain ⟨result, hresult⟩ := @forkRoot_ok base { command with owner } { owner } ready.root
    ready.free ready.retirable
  have hforks := ends_ok forkRoot_ends hresult
  have hrun : runCommand digests base { command with owner } { owner } = result := by
    change settle base (forkRoot base { command with owner } { owner }) = _
    rw [hresult]
    rfl
  obtain ⟨hstore, hreceipt⟩ := launchHost_result ready.sound (by simp [command]) hcontrol hrun
  have hlane := hforks.inLane ready rfl
  have hslot : result.2.forkSlot = 0 ∧ result.2.forkGeneration = base.candidate.generation := by
    rw [hforks.receipt]
    exact ⟨rfl, rfl⟩
  rw [runLane]
  dsimp only
  rw [hstore, hreceipt, hslot.1, hslot.2]
  obtain ⟨⟨events, hcount, hinserted⟩, hstatuses⟩ := runInsertions_ok ready hcontrol hlane
    (by simpa using wellFormed.short) wellFormed.insertions
  have hcontrol' := congrArg Control.owner hinserted.control
  obtain ⟨hafter, hterminal⟩ := hinserted.launchTerminal ready (hcontrol'.trans hcontrol) hcount
    lane
  refine ⟨hafter, fun receipt hmem => ?_⟩
  rw [List.cons_append] at hmem
  rcases List.mem_cons.mp hmem with rfl | hmem
  · rw [hforks.receipt]
  · rcases List.mem_append.mp hmem with hmem | hmem
    · exact hstatuses receipt hmem
    · rw [List.mem_singleton.mp hmem]
      exact hterminal

theorem Reserved.forLane {α : Type} {records : Nat → Record α} {capacity : Nat}
    (h : Reserved records capacity)
    : Room records capacity := by
  have hroom := h.room
  refine ⟨Nat.le_trans (by decide) hroom, fun i slot hi hslot => ?_⟩
  have hle := h.generation i slot (by omega) hslot
  rw [wordMax] at hle ⊢
  split at hle <;> omega

/-- A preflight readies the store for a lane. -/
theorem Reserves.ready {command : Command} {result : Store × Receipt} (h : Sound digests s)
    (reserves : Reserves s command result)
    : LaneReady digests s command.slot command.generation := by
  have hcandidate := reserves.candidate
  have hroots := reserves.roots
  exact {
    sound := h
    free := reserves.free
    retirable := by
      rw [wordMax] at hcandidate ⊢
      omega
    root := reserves.root
    extents := reserves.extents
    roots := by omega
    statements := reserves.statements.forLane
    supports := reserves.supports.forLane
    versions := reserves.versions.forLane
    heads := reserves.heads
  }

/-- The store after one lane is ready for another one. -/
theorem AfterLane.ready {command : Command} {result : Store × Receipt} (h : Sound digests base)
    (reserves : Reserves base command result) (after : AfterLane digests base s command.slot)
    : LaneReady digests s command.slot command.generation := by
  have hroot := reserves.root
  have hcandidate := reserves.candidate
  have hroots := reserves.roots
  have hafter := after.roots
  have hview := (h.root _ hroot.inRoots).view hroot.isSealed
  refine {
    sound := after.sound
    free := after.free
    retirable := ?_
    root := ⟨?_, ?_, ?_⟩
    extents := ?_
    roots := ?_
    statements := ?_
    supports := ?_
    versions := ?_
    heads := fun i hi hne => ?_
  }
  · rw [after.generation]
    rw [wordMax] at hcandidate ⊢
    omega
  · rw [after.capacities]
    exact hroot.inRoots
  · rw [after.root.1]
    exact hroot.generation
  · rw [after.root.1]
    exact hroot.isSealed
  · rw [after.root.1]
    exact reserves.extents
  · rw [after.capacities]
    omega
  · rw [after.capacities]
    exact after.statements.room reserves.statements
  · rw [after.capacities]
    exact after.supports.room reserves.supports
  · rw [after.capacities]
    exact after.versions.room reserves.versions
  · rw [after.root.2] at hne
    rw [after.capacities] at hi
    have hsealed := accepts_sealed.mp (hview.lineage.statement i hne)
    rw [after.statements.kept i hi hsealed]
    exact reserves.heads i hi hne

end

/-- After a preflight that succeeded, every command of the next two lanes over its root succeeds,
whatever the lanes insert and however each of them ends.
-/
theorem preflightTransition_sufficient {digests : Digests} {s : Store} (h : Reachable digests s)
    {owner slot generation : Nat}
    (ok : (launchHost digests owner
      { operation := .preflightTransition, slot, generation } s).receipt.status = .ok)
    {first second : Lane} (hfirst : first.WellFormed) (hsecond : second.WellFormed)
    : (∀ receipt ∈ (runLane digests owner slot generation first s).2, receipt.status = .ok)
      ∧ ∀ receipt ∈ (runLane digests owner slot generation second
          (runLane digests owner slot generation first s).1).2, receipt.status = .ok := by
  let command : Command := { operation := .preflightTransition, slot, generation }
  have hsound := h.sound
  have hcontrol := launchHost_owner hsound (by simp) ok
  rw [(launchHost_ok hsound (by simp) hcontrol).2] at ok
  have hends := @preflightTransition_ends s { command with owner } { owner }
  change (settle s (preflightTransition s { command with owner } { owner })).2.status = .ok at ok
  cases hresult : preflightTransition s { command with owner } { owner } with
  | error refusal =>
      rw [hresult] at ok hends
      exact absurd ok hends.status
  | ok result =>
      rw [hresult] at hends
      obtain ⟨hafter, hstatuses⟩ := runLane_ok (hends.ready hsound) hcontrol hfirst
      refine ⟨hstatuses, ?_⟩
      exact (runLane_ok (hafter.ready hsound hends) (by rw [hafter.control]; exact hcontrol)
        hsecond).2

def plainInsertion (statement support : Nat) : Insertion :=
  ⟨1, 0, 0, (statement, 0, 0, 0), (support, 0, 0, 0), []⟩

/-- Four slots of each table are enough for two lanes over the empty root. -/
theorem preflightTransition_sufficient_empty
    : let s := initialStore plainDigests ⟨4, 4, 4, 4⟩ 7
      let first : Lane := ⟨[plainInsertion 1 1, plainInsertion 2 1], true⟩
      let second : Lane := ⟨[plainInsertion 1 1, plainInsertion 1 2], false⟩
      (∀ receipt ∈ (runLane plainDigests 7 0 1 first s).2, receipt.status = .ok)
        ∧ ∀ receipt ∈ (runLane plainDigests 7 0 1 second
            (runLane plainDigests 7 0 1 first s).1).2, receipt.status = .ok := by
  have hformed : ∀ statement support, (plainInsertion statement support).WellFormed :=
    fun _ _ => ⟨Or.inl rfl, ⟨Nat.zero_le _, Nat.zero_le _⟩, fun _ _ hmem => absurd hmem (by simp [plainInsertion])⟩
  refine preflightTransition_sufficient (.empty (by decide +kernel) 7) (by decide +kernel)
    ⟨by decide, ?_⟩ ⟨by decide, ?_⟩
  · intro insertion hmem
    rcases List.mem_pair.mp hmem with rfl | rfl <;> exact hformed _ _
  · intro insertion hmem
    rcases List.mem_pair.mp hmem with rfl | rfl <;> exact hformed _ _

end Xlog.Cuda.SemanticGraph
