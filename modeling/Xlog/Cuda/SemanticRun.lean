import Xlog.Cuda.SemanticRetirement
import Xlog.Cuda.SemanticContents

/-! What each command did when it succeeded, and the invariant over every run of launches.
-/

namespace Xlog.Cuda.SemanticGraph

open Xlog.Foundation

-- Commands

/-- The result of a command keeps the status, the owner and the acquisition of its receipt. -/
structure Receipt.Result (receipt result : Receipt) : Prop where
  status : result.status = receipt.status
  owner : result.owner = receipt.owner
  acquiredSlot : result.acquiredSlot = receipt.acquiredSlot
  acquiredGeneration : result.acquiredGeneration = receipt.acquiredGeneration

/-- A fork of a root, with no candidate before it. -/
structure Forks (s : Store) (command : Command) (receipt : Receipt) (result : Store × Receipt)
    : Prop where
  root : s.RootValid command.slot command.generation
  free : s.candidate.state = .free
  retirable : s.candidate.generation ≠ wordMax
  store : result.1 = s.forked command.slot
  receipt
    : result.2 = { receipt with
        forkSlot := 0
        forkGeneration := s.candidate.generation
        extents := (s.roots command.slot).extents }

/-- An insertion into a candidate: the support was there already, or it was attached. -/
structure Inserts (digests : Digests) (s : Store) (command : Command) (receipt : Receipt)
    (result : Store × Receipt) : Prop where
  candidate : s.CandidateValid command.slot command.generation
  receipt : receipt.Result result.2
  outcome
    : (result.2.outcome = .unchanged ∧ result.1 = s
        ∧ s.Holds s.candidateHeads (command.statement, command.support))
      ∨ (result.2.outcome = .inserted
        ∧ ¬s.Holds s.candidateHeads (command.statement, command.support)
        ∧ ∃ a, Attaches s command a ∧ result.1 = attach digests s command a)

/-- The candidate is retired with the records that it staged. -/
structure Discards (s : Store) (command : Command) (receipt : Receipt) (result : Store × Receipt)
    : Prop where
  candidate : s.CandidateValid command.slot command.generation
  store : result.1 = s.discarded
  receipt
    : result.2 = { receipt with
        forkSlot := 0, forkGeneration := s.discarded.candidate.generation }

/-- The candidate counts as much as its base. -/
def Store.Unchanged (s : Store) : Prop :=
  s.candidate.extents.statements = (s.roots s.candidate.baseSlot).extents.statements
    ∧ s.candidate.extents.supports = (s.roots s.candidate.baseSlot).extents.supports
    ∧ s.candidate.extents.versions = (s.roots s.candidate.baseSlot).extents.versions

/-- The candidate is a root in a free slot, or it is discarded when nothing was added. -/
structure Seals (s : Store) (command : Command) (receipt : Receipt) (result : Store × Receipt)
    : Prop where
  candidate : s.CandidateValid command.slot command.generation
  receipt : receipt.Result result.2
  outcome
    : (s.Unchanged ∧ result.1 = s.discarded ∧ result.2.outcome = .unchanged
        ∧ result.2.rootSlot = s.candidate.baseSlot
        ∧ result.2.rootGeneration = s.candidate.baseGeneration)
      ∨ (¬s.Unchanged ∧ ∃ rootSlot,
          findFree (fun slot => (s.roots slot).state) s.capacities.roots = some rootSlot
          ∧ result.1 = s.sealedAt rootSlot ∧ result.2.outcome = .inserted
          ∧ result.2.rootSlot = rootSlot
          ∧ result.2.rootGeneration = (s.roots rootSlot).generation)

/-- The free slots in their order. -/
def freeSlots (state : Nat → RecordState) (capacity : Nat) : List Nat :=
  (List.range capacity).filter fun slot => state slot = .free

/-- Four free slots, the first two with room for two retirements and the others for one. -/
structure Reserved {α : Type} (records : Nat → Record α) (capacity : Nat) : Prop where
  room : 4 ≤ (freeSlots (fun slot => (records slot).state) capacity).length
  generation
    : ∀ i slot, i < 4 → (freeSlots (fun slot => (records slot).state) capacity)[i]? = some slot
      → (records slot).generation ≤ wordMax - if i < 2 then 2 else 1

/-- What a preflight reserved over a root. -/
structure Reserves (s : Store) (command : Command) (result : Store × Receipt) : Prop where
  store : result.1 = s
  root : s.RootValid command.slot command.generation
  free : s.candidate.state = .free
  candidate : s.candidate.generation ≤ wordMax - 2
  extents
    : (s.roots command.slot).extents.statements ≤ halfMax - 2
      ∧ (s.roots command.slot).extents.supports ≤ halfMax - 2
      ∧ (s.roots command.slot).extents.versions ≤ halfMax - 2
  roots : 2 ≤ (freeSlots (fun slot => (s.roots slot).state) s.capacities.roots).length
  statements : Reserved s.statements s.capacities.statements
  supports : Reserved s.supports s.capacities.supports
  versions : Reserved s.versions s.capacities.versions
  heads
    : ∀ slot, slot < s.capacities.statements → s.rootHeads command.slot slot ≠ 0
      → (s.statements slot).generation ≠ wordMax

section

variable {digests : Digests} {s : Store} {command : Command} {receipt : Receipt}

theorem preflightCandidateRetirement_ends
    : Ends receipt.Refusal (fun _ => s.candidate.generation ≠ wordMax)
        (preflightCandidateRetirement s receipt) :=
  refuseIf_ends (refusal_fail (by simp))

theorem forkRoot_ends
    : Ends receipt.Refusal (Forks s command receipt) (forkRoot s command receipt) := by
  rw [forkRoot]
  refine validateRoot_ends.bind fun _ hroot => ?_
  refine (refuseIf_ends (refusal_fail (by simp))).bind fun _ hfree => ?_
  refine preflightCandidateRetirement_ends.bind fun _ hretirable => ?_
  exact ⟨hroot, not_not.mp hfree, hretirable, rfl, rfl⟩

theorem findFreeOr_ends {α : Type} {records : Nat → Record α} {capacity : Nat} {refusal : Receipt}
    (h : receipt.Refusal refusal)
    : Ends receipt.Refusal (fun slot => findFree (fun i => (records i).state) capacity = some slot)
        (findFreeOr records capacity refusal) := by
  rw [findFreeOr]
  split
  · next heq => exact heq
  · exact h

theorem checkAttachment_ends {a : Attachment}
    : Ends receipt.Refusal
        (fun _ => ((s.statements a.statementSlot).generation ≠ wordMax
            ∧ (s.supports a.supportSlot).generation ≠ wordMax
            ∧ (s.versions a.versionSlot).generation ≠ wordMax)
          ∧ (s.candidate.extents.statements ≠ halfMax ∧ s.candidate.extents.supports ≠ halfMax
            ∧ s.candidate.extents.versions ≠ halfMax)
          ∧ (command.polarity = 1 ∨ command.polarity = 2))
        (checkAttachment s command a receipt) := by
  rw [checkAttachment]
  refine (refuseIf_ends (refusal_fail (by simp))).bind fun _ hstatement => ?_
  refine (refuseIf_ends (refusal_fail (by simp))).bind fun _ hsupport => ?_
  refine (refuseIf_ends (refusal_fail (by simp))).bind fun _ hversion => ?_
  refine (refuseIf_ends (refusal_fail (by simp))).bind fun _ hextents => ?_
  refine (refuseIf_ends (refusal_fail (by simp))).mono fun _ hpolarity => ?_
  rw [not_or, not_or] at hextents
  exact ⟨⟨hstatement, hsupport, hversion⟩, hextents, by omega⟩

/-- The statement that an insertion found, by its slot, or that no statement has its identity. -/
def ExistingStatement (s : Store) (command : Command) (existing : Option Nat) : Prop :=
  (∀ slot, existing = some slot
    → s.candidateHeads slot ≠ 0 ∧ (s.statements slot).body = command.statement)
  ∧ (existing = none
    → ∀ slot, s.candidateHeads slot ≠ 0 → (s.statements slot).body ≠ command.statement)

theorem statementPlace_ends {existing : Option Nat}
    : Ends receipt.Refusal
        (fun slot => (existing.isNone = true
            → findFree (fun i => (s.statements i).state) s.capacities.statements = some slot)
          ∧ (existing.isNone = false → existing = some slot))
        (statementPlace s existing receipt) := by
  cases existing with
  | none =>
      refine (findFreeOr_ends (refusal_fail (by simp))).mono fun slot hfree => ?_
      exact ⟨fun _ => hfree, by simp⟩
  | some slot => exact ⟨by simp, fun _ => rfl⟩

theorem attachSupport_ends {existing : Option Nat} (found : ExistingStatement s command existing)
    (records : command.statementRecord ≤ halfMax ∧ command.supportRecord ≤ halfMax)
    (reconstruction : command.statementRecord ≠ halfMax → ∀ word ∈ command.reconstruction, word = 0)
    : Ends receipt.Refusal
        (fun result => receipt.Result result.2 ∧ result.2.outcome = .inserted
          ∧ ∃ a, Attaches s command a ∧ result.1 = attach digests s command a)
        (attachSupport digests s command existing receipt) := by
  rw [attachSupport]
  refine statementPlace_ends.bind fun statementSlot hslot => ?_
  refine (findFreeOr_ends (refusal_fail (by simp))).bind fun supportSlot hsupport => ?_
  refine (findFreeOr_ends (refusal_fail (by simp))).bind fun versionSlot hversion => ?_
  refine checkAttachment_ends.bind fun _ hcheck => ?_
  obtain ⟨⟨hstatement, hsupport', hversion'⟩, hextents, hpolarity⟩ := hcheck
  refine ⟨⟨rfl, rfl, rfl, rfl⟩, rfl, _, ?_, rfl⟩
  exact {
    fresh := fun hnew => ⟨hslot.1 hnew, if_pos hnew⟩
    distinct := fun hnew => found.2 (Option.isNone_iff_eq_none.mp hnew)
    existing := fun hold => by
      have hfound := found.1 _ (hslot.2 hold)
      exact ⟨hfound.1, hfound.2, if_neg (by simp [show existing.isNone = false from hold])⟩
    support := hsupport
    version := hversion
    statementGeneration := hstatement
    supportGeneration := hsupport'
    versionGeneration := hversion'
    extents := hextents
    polarity := hpolarity
    records
    reconstruction
  }

/-- An insertion, in a sound store. -/
theorem insertSupport_ends (h : Sound digests s)
    : Ends receipt.Refusal (Inserts digests s command receipt)
        (insertSupport digests s command receipt) := by
  rw [insertSupport]
  refine validateCandidate_ends.bind fun _ hcandidate => ?_
  refine (refuseIf_ends (refusal_fail (by simp))).bind fun _ hrecords => ?_
  refine (refuseIf_ends (refusal_fail (by simp))).bind fun _ hreconstruction => ?_
  have hview := (h.live hcandidate.live).view
  obtain ⟨existing, hfind, hsome, hnone⟩ := @findStatement_ok digests s true s.candidateHeads _
    receipt h.generations hview.lineage command.statement
  rw [hfind, ok_bind]
  have hrecords' : command.statementRecord ≤ halfMax ∧ command.supportRecord ≤ halfMax := by omega
  have hreconstruction' : command.statementRecord ≠ halfMax
      → ∀ word ∈ command.reconstruction, word = 0 := by
    rw [not_and, not_exists] at hreconstruction
    intro hne word hmem
    by_contra hword
    exact hreconstruction hne word ⟨hmem, hword⟩
  have hattach : ∀ existing, ExistingStatement s command existing →
      ¬s.Holds s.candidateHeads (command.statement, command.support) →
      Ends receipt.Refusal (Inserts digests s command receipt)
        (attachSupport digests s command existing receipt) :=
    fun existing found absent => (attachSupport_ends found hrecords' hreconstruction').mono
      fun _ hresult => ⟨hcandidate, hresult.1, Or.inr ⟨hresult.2.1, absent, hresult.2.2⟩⟩
  cases existing with
  | none =>
      have hdistinct : ∀ slot, s.candidateHeads slot ≠ 0 →
          (s.statements slot).body ≠ command.statement := fun slot hne =>
        hnone rfl slot (Nat.zero_le _) (hview.lineage.inStatements slot hne) hne
      refine hattach none ⟨by simp, fun _ => hdistinct⟩ ?_
      rintro ⟨slot, hne, hbody, _⟩
      exact hdistinct slot hne hbody
  | some slot =>
      obtain ⟨_, hne, hbody⟩ := hsome slot rfl
      have hsmall : s.candidate.extents.versions + 1 ≤ wordMax := by
        have := hview.bounded.versions
        rw [halfMax] at this
        rw [wordMax]
        omega
      obtain ⟨found, versions, hevent, hchain, hfound⟩ := @findEventVersion_ok digests s
        s.candidateHeads _ receipt h.generations hview.lineage hsmall slot hne command.support
      have hholds : s.Holds s.candidateHeads (command.statement, command.support)
          ↔ ∃ version ∈ versions,
            (s.supports (s.versions version).body.supportSlot).body.identity = command.support := by
        rw [hview.lineage.holds_iff hne hbody, hchain.holdsAt_iff]
      dsimp only
      rw [hevent, ok_bind]
      rcases hfound with ⟨rfl, habsent⟩ | ⟨version, hmem, rfl, hidentity⟩
      · refine hattach (some slot) ⟨fun other hother => ?_, by simp⟩ ?_
        · obtain rfl := Option.some.inj hother
          exact ⟨hne, hbody⟩
        · rw [hholds]
          rintro ⟨version, hmem, heq⟩
          exact habsent version hmem heq
      · exact ⟨hcandidate, ⟨rfl, rfl, rfl, rfl⟩,
          Or.inl ⟨rfl, rfl, hholds.mpr ⟨version, hmem, hidentity⟩⟩⟩

theorem refuseExhausted_ends {α : Type} {records : Nat → Record α} {kind capacity owner : Nat}
    : Ends receipt.Refusal (fun _ => True)
        (refuseExhausted records kind capacity owner receipt) := by
  rw [refuseExhausted]
  split
  · trivial
  · exact refusal_fail (by simp)

theorem preflightDiscard_ends
    : Ends receipt.Refusal (fun _ => True) (preflightDiscard s receipt) := by
  rw [preflightDiscard]
  refine preflightCandidateRetirement_ends.bind fun _ _ => ?_
  exact refuseExhausted_ends.bind fun _ _ => refuseExhausted_ends.bind fun _ _ =>
    refuseExhausted_ends

theorem discard_ends
    : Ends receipt.Refusal (Discards s command receipt) (discard s command receipt) := by
  rw [discard]
  refine validateCandidate_ends.bind fun _ hcandidate => ?_
  exact preflightDiscard_ends.bind fun _ _ => ⟨hcandidate, rfl, rfl⟩

theorem sealCandidate_ends
    : Ends receipt.Refusal (Seals s command receipt) (sealCandidate s command receipt) := by
  rw [sealCandidate]
  refine validateCandidate_ends.bind fun _ hcandidate => ?_
  refine preflightCandidateRetirement_ends.bind fun _ _ => ?_
  refine validateRoot_ends.bind fun _ _ => ?_
  by_cases hsame : s.Unchanged
  · rw [if_pos (show _ ∧ _ ∧ _ from hsame)]
    refine (refuseIf_ends (refusal_fail (by simp))).bind fun _ _ => ?_
    refine discard_ends.bind fun result hdiscards => ?_
    obtain ⟨after, discarded⟩ := result
    have hstore := hdiscards.store
    have hreceipt := hdiscards.receipt
    dsimp only at hstore hreceipt
    subst hstore hreceipt
    exact ⟨hcandidate, ⟨rfl, rfl, rfl, rfl⟩, Or.inl ⟨hsame, rfl, rfl, rfl, rfl⟩⟩
  · rw [if_neg (show ¬(_ ∧ _ ∧ _) from hsame)]
    dsimp only
    split
    · exact refusal_fail (by simp)
    · next rootSlot hfree =>
        refine ⟨hcandidate, ⟨rfl, rfl, rfl, rfl⟩, Or.inr ⟨hsame, rootSlot, hfree, rfl, rfl,
          rfl, ?_⟩⟩
        change ((s.sealedAt rootSlot).roots rootSlot).generation = _
        rw [(sealedAt_root s rootSlot).1]

-- Preflight

theorem freeSlots_head? (state : Nat → RecordState) (capacity : Nat)
    : (freeSlots state capacity).head? = findFree state capacity :=
  List.head?_filter

/-- A reservation took the first free slots, by induction on the slots left. -/
theorem reserve_ends {kind capacity limit left slot found : Nat} {state : Nat → RecordState}
    {generation retirements : Nat → Nat}
    : Ends receipt.Refusal
        (fun total => ∃ slots rest,
          (List.range' slot left).filter (fun i => state i = .free) = slots ++ rest
          ∧ total = found + slots.length
          ∧ ∀ i free, slots[i]? = some free → generation free ≤ wordMax - retirements (found + i))
        (reserve kind capacity limit state generation retirements receipt left slot found) := by
  induction left generalizing slot found with
  | zero => exact ⟨[], [], rfl, rfl, by simp⟩
  | succ left ih =>
      rw [reserve, List.range'_succ]
      split
      · exact ⟨[], _, rfl, rfl, by simp⟩
      · split
        · next hused =>
            rw [List.filter_cons_of_neg (by simpa using hused)]
            exact ih
        · next hfree =>
            rw [List.filter_cons_of_pos (by simpa using hfree)]
            refine (refuseIf_ends (refusal_fail (by simp))).bind fun _ hroom => ?_
            refine ih.mono fun total htotal => ?_
            obtain ⟨slots, rest, hslots, hlength, hgeneration⟩ := htotal
            refine ⟨slot :: slots, rest, by rw [hslots]; rfl, ?_, ?_⟩
            · rw [List.length_cons, hlength]
              omega
            · intro i free hi
              cases i with
              | zero =>
                  obtain rfl := Option.some.inj hi
                  exact Nat.le_of_not_lt hroom
              | succ i =>
                  have := hgeneration i free hi
                  rwa [Nat.add_right_comm, Nat.add_assoc] at this

theorem reserveRoots_ends
    : Ends receipt.Refusal
        (fun _ => 2 ≤ (freeSlots (fun slot => (s.roots slot).state) s.capacities.roots).length)
        (reserveRoots s receipt) := by
  rw [reserveRoots]
  refine reserve_ends.bind fun total htotal => ?_
  refine (refuseIf_ends (refusal_fail (by simp))).mono fun _ hfound => ?_
  obtain ⟨slots, rest, hslots, hlength, _⟩ := htotal
  rw [freeSlots, List.range_eq_range', hslots, List.length_append]
  omega

theorem reserveRecords_ends {α : Type} {records : Nat → Record α} {kind capacity : Nat}
    {status : Status} (hstatus : status ≠ .ok)
    : Ends receipt.Refusal (fun _ => Reserved records capacity)
        (reserveRecords records kind capacity status receipt) := by
  rw [reserveRecords]
  refine reserve_ends.bind fun total htotal => ?_
  refine (refuseIf_ends (refusal_fail hstatus)).mono fun _ hfound => ?_
  obtain ⟨slots, rest, hslots, hlength, hgeneration⟩ := htotal
  have hfree : freeSlots (fun slot => (records slot).state) capacity = slots ++ rest := by
    rw [freeSlots, List.range_eq_range', hslots]
  constructor
  · rw [hfree, List.length_append]
    omega
  · intro i slot hi hslot
    rw [hfree, List.getElem?_append_left (by omega)] at hslot
    have := hgeneration i slot hslot
    rwa [Nat.zero_add] at this

theorem validateHead_ends {slot encodedHead : Nat}
    : Ends receipt.Refusal (fun _ => True) (validateHead s slot encodedHead receipt) := by
  rw [validateHead]
  split
  · trivial
  · refine (refuseIf_ends (refusal_fail (by simp))).bind fun _ _ => ?_
    exact (refuseIf_ends (refusal_fail (by simp))).mono fun _ _ => trivial

theorem reserveHeads_ends {heads : Nat → Nat} {left slot : Nat}
    : Ends receipt.Refusal
        (fun _ => ∀ i, slot ≤ i → i < slot + left → heads i ≠ 0
          → (s.statements i).generation ≠ wordMax)
        (reserveHeads s heads receipt left slot) := by
  induction left generalizing slot with
  | zero =>
      intro i hle hlt
      omega
  | succ left ih =>
      rw [reserveHeads]
      split
      · next hzero =>
          refine ih.mono fun _ hrest i hle hlt hne => ?_
          rcases Nat.lt_or_eq_of_le hle with hlt' | rfl
          · exact hrest i hlt' (by omega) hne
          · exact absurd hzero hne
      · refine (refuseIf_ends (refusal_fail (by simp))).bind fun _ _ => ?_
        refine validateHead_ends.bind fun _ _ => ?_
        refine (refuseIf_ends (refusal_fail (by simp))).bind fun _ hroom => ?_
        refine ih.mono fun _ hrest i hle hlt hne => ?_
        rcases Nat.lt_or_eq_of_le hle with hlt' | rfl
        · exact hrest i hlt' (by omega) hne
        · exact hroom

theorem reserveExtents_ends {slot : Nat}
    : Ends receipt.Refusal
        (fun _ => (s.roots slot).extents.statements ≤ halfMax - 2
          ∧ (s.roots slot).extents.supports ≤ halfMax - 2
          ∧ (s.roots slot).extents.versions ≤ halfMax - 2)
        (reserveExtents s slot receipt) := by
  rw [reserveExtents]
  refine (refuseIf_ends (refusal_fail (by simp))).bind fun _ hstatements => ?_
  refine (refuseIf_ends (refusal_fail (by simp))).bind fun _ hsupports => ?_
  refine (refuseIf_ends (refusal_fail (by simp))).mono fun _ hversions => ?_
  exact ⟨Nat.le_of_not_lt hstatements, Nat.le_of_not_lt hsupports, Nat.le_of_not_lt hversions⟩

theorem preflightTransition_ends
    : Ends receipt.Refusal (Reserves s command) (preflightTransition s command receipt) := by
  rw [preflightTransition]
  refine validateRoot_ends.bind fun _ hroot => ?_
  refine (refuseIf_ends (refusal_fail (by simp))).bind fun _ hfree => ?_
  refine (refuseIf_ends (refusal_fail (by simp))).bind fun _ hcandidate => ?_
  refine reserveExtents_ends.bind fun _ hextents => ?_
  refine reserveRoots_ends.bind fun _ hroots => ?_
  refine (reserveRecords_ends (by simp)).bind fun _ hstatements => ?_
  refine (reserveRecords_ends (by simp)).bind fun _ hsupports => ?_
  refine (reserveRecords_ends (by simp)).bind fun _ hversions => ?_
  refine reserveHeads_ends.bind fun _ hheads => ?_
  exact {
    store := rfl
    root := hroot
    free := not_not.mp hfree
    candidate := Nat.le_of_not_lt hcandidate
    extents := hextents
    roots := hroots
    statements := hstatements
    supports := hsupports
    versions := hversions
    heads := fun slot hslot => hheads slot (Nat.zero_le _) (by omega)
  }

-- The invariant over runs

/-- Commands whose success keeps an invariant keep it. -/
theorem settle_sound {allowed : Receipt → Prop} {post : Store × Receipt → Prop}
    {result : Checked (Store × Receipt)} (h : Sound digests s) (ends : Ends allowed post result)
    (sound : ∀ after, post after → Sound digests after.1)
    : Sound digests (settle s result).1 := by
  cases result with
  | error refusal => exact h
  | ok after => exact sound after ends

theorem settleQuery_store (s : Store) (result : Checked Receipt)
    : (settleQuery s result).1 = s := by
  cases result <;> rfl

theorem Inserts.sound {result : Store × Receipt} (h : Sound digests s)
    (inserts : Inserts digests s command receipt result)
    : Sound digests result.1 := by
  rcases inserts.outcome with ⟨_, heq, _⟩ | ⟨_, _, a, hattaches, heq⟩
  · rw [heq]
    exact h
  · rw [heq]
    exact attach_sound h inserts.candidate.live hattaches

theorem Discards.sound {result : Store × Receipt} (h : Sound digests s)
    (discards : Discards s command receipt result)
    : Sound digests result.1 := by
  rw [discards.store]
  exact discarded_sound h discards.candidate.live

theorem Seals.sound {result : Store × Receipt} (h : Sound digests s)
    (seals : Seals s command receipt result)
    : Sound digests result.1 := by
  rcases seals.outcome with ⟨_, heq, _⟩ | ⟨_, rootSlot, _, heq, _⟩
  · rw [heq]
    exact discarded_sound h seals.candidate.live
  · rw [heq]
    exact sealedAt_sound h seals.candidate.live rootSlot

theorem Forks.sound {result : Store × Receipt} (h : Sound digests s)
    (forks : Forks s command receipt result)
    : Sound digests result.1 := by
  rw [forks.store]
  exact forked_sound h forks.root forks.free forks.retirable

theorem runCommand_sound (h : Sound digests s) (command : Command) (receipt : Receipt)
    : Sound digests (runCommand digests s command receipt).1 := by
  have hquery : ∀ result, Sound digests (settleQuery s result).1 := fun result => by
    rw [settleQuery_store]
    exact h
  rw [runCommand.eq_def]
  split
  · exact settle_sound h preflightTransition_ends fun _ reserves => by
      rw [reserves.store]
      exact h
  · exact settle_sound h forkRoot_ends fun _ forks => forks.sound h
  · exact settle_sound h (insertSupport_ends h) fun _ inserts => inserts.sound h
  · exact settle_sound h discard_ends fun _ discards => discards.sound h
  · exact settle_sound h sealCandidate_ends fun _ seals => seals.sound h
  · exact retireRoot_sound h command receipt
  · exact hquery _
  · exact hquery _
  · exact hquery _
  · exact hquery _
  · exact hquery _
  · exact h

theorem runAdmitted_sound (h : Sound digests s) (d : Descriptor) (command : Command)
    (retainRefusal : Bool) (receipt : Receipt)
    : Sound digests (runAdmitted digests d s command retainRefusal receipt).1 := by
  have hrun := runCommand_sound h command receipt
  rw [runAdmitted]
  generalize runCommand digests s command receipt = result at hrun ⊢
  obtain ⟨after, result⟩ := result
  dsimp only at hrun ⊢
  by_cases hcleanup : d.admission = .seal ∧ retainRefusal = false ∧ result.status ≠ .ok
  · rw [if_pos hcleanup]
    exact settle_sound hrun discard_ends fun _ discards => discards.sound hrun
  · rw [if_neg hcleanup]
    cases retainRefusal <;> exact hrun

theorem consumeTruth_store (d : Descriptor) (s : Store) (initial : Option TruthValue)
    (receipt : Receipt)
    : (consumeTruth d s initial receipt).store = s := by
  rw [consumeTruth.eq_def]
  split
  · split_ifs <;> rfl
  · rfl

theorem emptyRootHandle_store (d : Descriptor) (s : Store) (initial : Option ResidentHandle)
    (receipt : Receipt)
    : (emptyRootHandle d s initial receipt).store = s := by
  rw [emptyRootHandle]
  split <;> rfl

theorem runTask_sound (h : Sound digests s) (d : Descriptor) (handle : Option ResidentHandle)
    (truth : Option TruthValue) (receipt : Receipt) (task : Task)
    : Sound digests (runTask digests d s handle truth receipt task).store := by
  cases task with
  | run command retainRefusal => exact runAdmitted_sound h d command retainRefusal receipt
  | emptyRootHandle =>
      rw [runTask, emptyRootHandle_store]
      exact h
  | consumeTruth =>
      rw [runTask, consumeTruth_store]
      exact h
  | materializeDecoded input => exact h

/-- A launch keeps the invariant. -/
theorem execute_sound (h : Sound digests s) (d : Descriptor)
    : Sound digests (execute digests s d).store := by
  rw [execute]
  dsimp only
  split
  · exact h
  · split
    · exact h
    · split
      · exact h
      · split
        · exact initialStore_sound digests h.capacities d.expectedOwner
        · split
          · exact h
          · exact runTask_sound h d _ _ _ _

/-- The stores of all runs of launches from an empty store. -/
inductive Reachable (digests : Digests) : Store → Prop
  | empty {capacities : Capacities} (valid : capacities.Valid) (owner : Nat)
    : Reachable digests (initialStore digests capacities owner)
  | launch {s : Store} (before : Reachable digests s) (d : Descriptor)
    : Reachable digests (execute digests s d).store

/-- The invariant holds in every run, by induction on the launches. -/
theorem Reachable.sound (h : Reachable digests s) : Sound digests s := by
  induction h with
  | empty valid owner => exact initialStore_sound digests valid owner
  | launch _ d ih => exact execute_sound ih d

end

end Xlog.Cuda.SemanticGraph
