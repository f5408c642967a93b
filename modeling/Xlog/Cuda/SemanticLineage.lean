import Mathlib.Data.List.NodupEquivFin
import Mathlib.Data.Finset.Card
import Xlog.Cuda.SemanticCommands
import Xlog.Foundation.Loop

/-! Lineage of the semantic store. A head starts a chain of versions with falling ordinals, each
bound to its statement and support, and the validations of the kernel accept such chains.
-/

namespace Xlog.Cuda.SemanticGraph

open Xlog.Foundation

-- Refusals

/-- A refused receipt keeps the owner and the acquisition of the receipt it was made from. -/
structure Receipt.Refusal (receipt refusal : Receipt) : Prop where
  status : refusal.status ≠ .ok
  owner : refusal.owner = receipt.owner
  acquiredSlot : refusal.acquiredSlot = receipt.acquiredSlot
  acquiredGeneration : refusal.acquiredGeneration = receipt.acquiredGeneration

theorem refusal_fail {receipt : Receipt} {status : Status} (h : status ≠ .ok)
    {kind slot presented current capacity detail : Nat}
    : receipt.Refusal (receipt.fail status kind slot presented current capacity detail) :=
  ⟨h, rfl, rfl, rfl⟩

theorem refuseIf_ok {refused : Prop} [Decidable refused] {receipt : Receipt} (h : ¬refused)
    : refuseIf refused receipt = .ok () :=
  if_neg h

theorem refuseIf_ends {refused : Prop} [Decidable refused] {allowed : Receipt → Prop}
    {receipt : Receipt} (h : allowed receipt)
    : Ends allowed (fun _ => ¬refused) (refuseIf refused receipt) := by
  rw [refuseIf]
  split
  · exact h
  · next hnot => exact hnot

/-- A check that passed, followed by the rest. -/
theorem refuseIf_bind_eq_ok {α : Type} {refused : Prop} [Decidable refused] {receipt : Receipt}
    {next : Unit → Checked α} {a : α}
    : (refuseIf refused receipt >>= next) = .ok a ↔ ¬refused ∧ next () = .ok a := by
  rw [refuseIf]
  split
  · next h => simp [h]
  · next h => simp [h]

-- Chains

/-- The slots that a view may use. -/
structure Slots where
  statement : Nat → Prop
  support : Nat → Prop
  version : Nat → Prop

structure Slots.Within (slots wider : Slots) : Prop where
  statement : ∀ slot, slots.statement slot → wider.statement slot
  support : ∀ slot, slots.support slot → wider.support slot
  version : ∀ slot, slots.version slot → wider.version slot

/-- A version and its support belong to the statement, below a newer ordinal. -/
structure Link (digests : Digests) (s : Store) (slots : Slots) (statementSlot newer slot : Nat)
    : Prop where
  inVersions : slot < s.capacities.versions
  version : slots.version slot
  sameStatement : (s.versions slot).body.statementSlot = statementSlot
  sameGeneration
    : (s.versions slot).body.statementGeneration = (s.statements statementSlot).generation
  inSupports : (s.versions slot).body.supportSlot < s.capacities.supports
  support : slots.support (s.versions slot).body.supportSlot
  supportGeneration
    : (s.supports (s.versions slot).body.supportSlot).generation
      = (s.versions slot).body.supportGeneration
  supportStatement
    : (s.supports (s.versions slot).body.supportSlot).body.statementSlot = statementSlot
  supportStatementGeneration
    : (s.supports (s.versions slot).body.supportSlot).body.statementGeneration
      = (s.statements statementSlot).generation
  positive : 0 < (s.versions slot).body.ordinal
  older : (s.versions slot).body.ordinal < newer
  polarity
    : (s.supports (s.versions slot).body.supportSlot).body.polarity = 1
      ∨ (s.supports (s.versions slot).body.supportSlot).body.polarity = 2
  statementRecord : (s.supports (s.versions slot).body.supportSlot).body.statementRecord ≤ halfMax
  supportRecord : (s.supports (s.versions slot).body.supportSlot).body.supportRecord ≤ halfMax
  reconstruction
    : (s.supports (s.versions slot).body.supportSlot).body.statementRecord ≠ halfMax
      → ∀ word ∈ (s.supports (s.versions slot).body.supportSlot).body.reconstruction, word = 0
  truth
    : (s.versions slot).body.truth
      = s.headTruth (s.versions slot).body.previous
        ||| (s.supports (s.versions slot).body.supportSlot).body.polarity
  identity
    : (s.versions slot).body.identity
      = digests.version (s.headIdentity (s.versions slot).body.previous)
          (s.supports (s.versions slot).body.supportSlot).body.identity
          (s.versions slot).body.truth

/-- The versions from a head on, the newest first. -/
inductive Chain (digests : Digests) (s : Store) (slots : Slots) (statementSlot : Nat)
    : Nat → Nat → List Nat → Prop
  | nil {newer : Nat} : Chain digests s slots statementSlot 0 newer []
  | cons {newer slot : Nat} {rest : List Nat}
    (link : Link digests s slots statementSlot newer slot)
    (older : Chain digests s slots statementSlot (s.versions slot).body.previous
      (s.versions slot).body.ordinal rest)
    : Chain digests s slots statementSlot (slot + 1) newer (slot :: rest)

/-- Every head of a view starts a chain of its statement, and no statement has two heads. -/
structure Heads (digests : Digests) (s : Store) (slots : Slots) (heads : Nat → Nat) (newer : Nat)
    : Prop where
  inStatements : ∀ slot, heads slot ≠ 0 → slot < s.capacities.statements
  statement : ∀ slot, heads slot ≠ 0 → slots.statement slot
  chain : ∀ slot, ∃ versions, Chain digests s slots slot (heads slot) newer versions
  unique
    : ∀ slot other, heads slot ≠ 0 → heads other ≠ 0
      → (s.statements slot).body = (s.statements other).body → slot = other

/-- Some records of one store are those of another one. -/
structure Keeps (s s' : Store) (slots : Slots) : Prop where
  capacities : s'.capacities = s.capacities
  statement : ∀ slot, slots.statement slot
    → (s'.statements slot).generation = (s.statements slot).generation
      ∧ (s'.statements slot).body = (s.statements slot).body
  support : ∀ slot, slots.support slot
    → (s'.supports slot).generation = (s.supports slot).generation
      ∧ (s'.supports slot).body = (s.supports slot).body
  version : ∀ slot, slots.version slot
    → (s'.versions slot).generation = (s.versions slot).generation
      ∧ (s'.versions slot).body = (s.versions slot).body

section

variable {digests : Digests} {s s' : Store} {slots slots' : Slots} {statementSlot : Nat}

theorem Link.mono {newer newer' slot : Nat} (h : Link digests s slots statementSlot newer slot)
    (within : slots.Within slots') (hle : newer ≤ newer')
    : Link digests s slots' statementSlot newer' slot :=
  { h with
    version := within.version _ h.version
    support := within.support _ h.support
    older := Nat.lt_of_lt_of_le h.older hle }

theorem Chain.mono {encoded newer newer' : Nat} {versions : List Nat}
    (h : Chain digests s slots statementSlot encoded newer versions)
    (within : slots.Within slots') (hle : newer ≤ newer')
    : Chain digests s slots' statementSlot encoded newer' versions := by
  induction h generalizing newer' with
  | nil => exact .nil
  | cons link _ ih => exact .cons (link.mono within hle) (ih (Nat.le_refl _))

theorem Slots.Within.refl : slots.Within slots :=
  ⟨fun _ h => h, fun _ h => h, fun _ h => h⟩

theorem Heads.mono {heads : Nat → Nat} {newer newer' : Nat}
    (h : Heads digests s slots heads newer) (within : slots.Within slots') (hle : newer ≤ newer')
    : Heads digests s slots' heads newer' := by
  refine ⟨h.inStatements, fun slot hne => within.statement slot (h.statement slot hne), ?_,
    h.unique⟩
  intro slot
  obtain ⟨versions, hchain⟩ := h.chain slot
  exact ⟨versions, hchain.mono within hle⟩

/-- Truth and identity of a chain are those of its newest version. -/
theorem Chain.head_eq {encoded newer : Nat} {versions : List Nat}
    (h : Chain digests s slots statementSlot encoded newer versions) (keeps : Keeps s s' slots)
    : s'.headTruth encoded = s.headTruth encoded
      ∧ s'.headIdentity encoded = s.headIdentity encoded := by
  cases h with
  | nil => exact ⟨rfl, rfl⟩
  | cons link _ =>
      have hbody := (keeps.version _ link.version).2
      constructor
      · exact congrArg VersionBody.truth hbody
      · exact congrArg VersionBody.identity hbody

theorem Link.frame {newer slot : Nat} (link : Link digests s slots statementSlot newer slot)
    (keeps : Keeps s s' slots)
    (statement : (s'.statements statementSlot).generation = (s.statements statementSlot).generation)
    (truth : s'.headTruth (s.versions slot).body.previous
      = s.headTruth (s.versions slot).body.previous)
    (identity : s'.headIdentity (s.versions slot).body.previous
      = s.headIdentity (s.versions slot).body.previous)
    : Link digests s' slots statementSlot newer slot := by
  have hversion := (keeps.version slot link.version).2
  have hsupport := keeps.support _ link.support
  refine ⟨?_, link.version, ?_, ?_, ?_, ?_, ?_, ?_, ?_, ?_, ?_, ?_, ?_, ?_, ?_, ?_, ?_⟩
  all_goals simp only [keeps.capacities, hversion, hsupport.1, hsupport.2, statement, truth,
    identity]
  exacts [link.inVersions, link.sameStatement, link.sameGeneration, link.inSupports, link.support,
    link.supportGeneration, link.supportStatement, link.supportStatementGeneration, link.positive,
    link.older, link.polarity, link.statementRecord, link.supportRecord, link.reconstruction,
    link.truth, link.identity]

/-- A chain survives in every store that keeps its records. -/
theorem Chain.frame {encoded newer : Nat} {versions : List Nat}
    (h : Chain digests s slots statementSlot encoded newer versions) (keeps : Keeps s s' slots)
    (statement : (s'.statements statementSlot).generation = (s.statements statementSlot).generation)
    : Chain digests s' slots statementSlot encoded newer versions := by
  induction h with
  | nil => exact .nil
  | @cons newer slot rest link older ih =>
      obtain ⟨htruth, hidentity⟩ := older.head_eq keeps
      refine .cons (link.frame keeps statement htruth hidentity) ?_
      rw [(keeps.version slot link.version).2]
      exact ih

theorem Heads.frame {heads : Nat → Nat} {newer : Nat} (h : Heads digests s slots heads newer)
    (keeps : Keeps s s' slots)
    : Heads digests s' slots heads newer := by
  refine ⟨fun slot hne => by rw [keeps.capacities]; exact h.inStatements slot hne, h.statement, ?_,
    fun slot other hne hother => ?_⟩
  · intro slot
    obtain ⟨versions, hchain⟩ := h.chain slot
    by_cases hzero : heads slot = 0
    · rw [hzero]
      exact ⟨[], .nil⟩
    · exact ⟨versions, hchain.frame keeps (keeps.statement slot (h.statement slot hzero)).1⟩
  · rw [(keeps.statement slot (h.statement slot hne)).2,
      (keeps.statement other (h.statement other hother)).2]
    exact h.unique slot other hne hother

/-- Ordinals fall along a chain, by induction on the chain. -/
theorem Chain.ordinal_lt {encoded newer : Nat} {versions : List Nat}
    (h : Chain digests s slots statementSlot encoded newer versions)
    : ∀ slot ∈ versions, (s.versions slot).body.ordinal < newer := by
  induction h with
  | nil => simp
  | cons link _ ih =>
      intro slot hmem
      rcases List.mem_cons.mp hmem with rfl | hmem
      · exact link.older
      · exact Nat.lt_trans (ih slot hmem) link.older

theorem Chain.inVersions {encoded newer : Nat} {versions : List Nat}
    (h : Chain digests s slots statementSlot encoded newer versions)
    : ∀ slot ∈ versions, slot < s.capacities.versions := by
  induction h with
  | nil => simp
  | cons link _ ih =>
      intro slot hmem
      rcases List.mem_cons.mp hmem with rfl | hmem
      · exact link.inVersions
      · exact ih slot hmem

theorem Chain.nodup {encoded newer : Nat} {versions : List Nat}
    (h : Chain digests s slots statementSlot encoded newer versions)
    : versions.Nodup := by
  induction h with
  | nil => exact List.nodup_nil
  | cons _ older ih =>
      refine List.nodup_cons.mpr ⟨fun hmem => ?_, ih⟩
      exact Nat.lt_irrefl _ (older.ordinal_lt _ hmem)

/-- The steps of a walk reach the end of every chain. -/
theorem Chain.length_le {encoded newer : Nat} {versions : List Nat}
    (h : Chain digests s slots statementSlot encoded newer versions)
    : versions.length ≤ s.capacities.versions := by
  have hsub : versions ⊆ List.range s.capacities.versions := fun slot hmem =>
    List.mem_range.mpr (h.inVersions slot hmem)
  have := (List.subperm_of_subset h.nodup hsub).length_le
  rwa [List.length_range] at this

/-- Truth values have two bits. -/
theorem Chain.headTruth_le {encoded newer : Nat} {versions : List Nat}
    (h : Chain digests s slots statementSlot encoded newer versions)
    : s.headTruth encoded ≤ 3 := by
  induction h with
  | nil => exact Nat.zero_le _
  | @cons _ slot _ link _ ih =>
      have hor : ∀ a b : Nat, a ≤ 3 → b ≤ 3 → a ||| b ≤ 3 := by
        intro a b ha hb
        exact Nat.le_of_lt_succ (Nat.or_lt_two_pow (n := 2) (by omega) (by omega))
      have hhead : s.headTruth (slot + 1) = (s.versions slot).body.truth := rfl
      rw [hhead, link.truth]
      apply hor _ _ ih
      rcases link.polarity with hp | hp <;> omega

end

-- Views

/-- A root uses sealed records. The candidate uses the records that it staged too. -/
def Store.Accepts {α : Type} (s : Store) (candidate : Bool) (record : Record α) : Prop :=
  record.state = .sealed ∨ (candidate = true ∧ record.stagedBy s.candidate.generation)

def Store.accepted (s : Store) (candidate : Bool) : Slots where
  statement slot := s.Accepts candidate (s.statements slot)
  support slot := s.Accepts candidate (s.supports slot)
  version slot := s.Accepts candidate (s.versions slot)

/-- Generations count from one. -/
structure Generations (s : Store) : Prop where
  statement : ∀ slot, slot < s.capacities.statements → (s.statements slot).generation ≠ 0
  support : ∀ slot, slot < s.capacities.supports → (s.supports slot).generation ≠ 0
  version : ∀ slot, slot < s.capacities.versions → (s.versions slot).generation ≠ 0

theorem accepts_iff {α : Type} {s : Store} {candidate : Bool} {record : Record α}
    : s.Accepts candidate record ↔ record.state.isLive ∧ ¬s.foreign candidate record := by
  rw [Store.Accepts, Store.foreign, Record.stagedBy]
  cases candidate <;> cases record.state <;> simp [RecordState.isLive]

theorem accepted_within (s : Store) : (s.accepted false).Within (s.accepted true) := by
  have h : ∀ {α : Type} (record : Record α), s.Accepts false record → s.Accepts true record := by
    intro α record h
    rcases h with h | ⟨h, _⟩
    · exact Or.inl h
    · exact absurd h (by decide)
  exact ⟨fun _ => h _, fun _ => h _, fun _ => h _⟩

section

variable {digests : Digests} {s : Store} {candidate : Bool} {heads : Nat → Nat} {newer : Nat}
  {receipt : Receipt}

/-- The version behind a head or link that is not zero. -/
theorem Chain.link {slots : Slots} {statementSlot encoded : Nat} {versions : List Nat}
    (h : Chain digests s slots statementSlot encoded newer versions) (hne : encoded ≠ 0)
    : Link digests s slots statementSlot newer (encoded - 1) := by
  cases h with
  | nil => exact absurd rfl hne
  | cons link _ => exact link

theorem Heads.link {slots : Slots} (h : Heads digests s slots heads newer) {slot : Nat}
    (hne : heads slot ≠ 0)
    : Link digests s slots slot newer (heads slot - 1) := by
  obtain ⟨versions, hchain⟩ := h.chain slot
  exact hchain.link hne

theorem validateHead_ok (generations : Generations s)
    (h : Heads digests s (s.accepted candidate) heads newer) (slot : Nat)
    : validateHead s slot (heads slot) receipt = .ok () := by
  rw [validateHead]
  split
  · rfl
  · next hne =>
      have link := h.link hne
      have hin := h.inStatements slot hne
      have hstatement := (accepts_iff.mp (h.statement slot hne)).1
      have hversion := (accepts_iff.mp link.version).1
      dsimp only
      rw [refuseIf_ok (by have := link.inVersions; omega), ok_bind, refuseIf_ok]
      simp [hstatement, hversion, generations.statement slot hin,
        generations.version _ link.inVersions, link.sameStatement, link.sameGeneration]

theorem validateVersionLink_ok (generations : Generations s) {statementSlot slot : Nat}
    (hin : statementSlot < s.capacities.statements)
    (statement : s.Accepts candidate (s.statements statementSlot))
    (link : Link digests s (s.accepted candidate) statementSlot newer slot)
    : validateVersionLink s statementSlot slot receipt = .ok () := by
  have hstatement := (accepts_iff.mp statement).1
  have hversion := (accepts_iff.mp link.version).1
  have hsupport := (accepts_iff.mp link.support).1
  have hsupports := link.inSupports
  have hversions := link.inVersions
  rw [validateVersionLink]
  dsimp only
  rw [refuseIf_ok (by omega), ok_bind, refuseIf_ok, ok_bind, refuseIf_ok]
  · have hgeneration := generations.support _ hsupports
    rw [link.supportGeneration] at hgeneration
    simp [hsupport, hgeneration, link.supportGeneration, link.supportStatement,
      link.supportStatementGeneration]
  · simp [hstatement, hversion, generations.statement _ hin, generations.version _ hversions,
      link.sameStatement, link.sameGeneration, hsupports]

/-- The body of the walk accepts a link before the rest of its chain. -/
theorem validateChainLink_ok (generations : Generations s) {statementSlot slot : Nat}
    {rest : List Nat} (hin : statementSlot < s.capacities.statements)
    (statement : s.Accepts candidate (s.statements statementSlot))
    (link : Link digests s (s.accepted candidate) statementSlot newer slot)
    (older : Chain digests s (s.accepted candidate) statementSlot
      (s.versions slot).body.previous (s.versions slot).body.ordinal rest)
    : validateChainLink digests s statementSlot candidate newer slot receipt = .ok () := by
  have hversion := (accepts_iff.mp link.version).2
  have hsupport := (accepts_iff.mp link.support).2
  have htruth := older.headTruth_le
  have hversions := link.inVersions
  have hsupports := link.inSupports
  have hlast : ¬(3 < s.headTruth (s.versions slot).body.previous
      ∨ (s.versions slot).body.truth ≠ s.headTruth (s.versions slot).body.previous
        ||| (s.supports (s.versions slot).body.supportSlot).body.polarity
      ∨ (s.versions slot).body.identity ≠ digests.version
        (s.headIdentity (s.versions slot).body.previous)
        (s.supports (s.versions slot).body.supportSlot).body.identity
        (s.headTruth (s.versions slot).body.previous
          ||| (s.supports (s.versions slot).body.supportSlot).body.polarity)) := by
    rw [← link.truth, ← link.identity]
    simp [htruth]
  rw [validateChainLink, validateVersionLink_ok generations hin statement link, ok_bind]
  dsimp only
  rw [refuseIf_ok, ok_bind, refuseIf_ok, ok_bind]
  · split
    · next hne =>
        rw [validateVersionLink_ok generations hin statement (older.link hne), ok_bind,
          refuseIf_ok hlast]
    · rw [refuseIf_ok hlast]
  · rw [not_and, not_exists]
    exact fun hne word hword => hword.2 (link.reconstruction hne word hword.1)
  · have hpositive := link.positive
    have hordinal := link.older
    have hpolarity := link.polarity
    have hrecord := link.statementRecord
    have hrecord' := link.supportRecord
    simp only [hversion, hsupport, generations.version _ hversions,
      generations.support _ hsupports, false_or]
    omega

/-- A walk over a chain gives its versions to the visitor, by induction on the chain. -/
theorem visitLinks_ok {α : Type} (generations : Generations s) {statementSlot encoded steps : Nat}
    {versions : List Nat} (visit : α → Nat → Record VersionBody → Record SupportBody → α)
    (seen : α) (hin : statementSlot < s.capacities.statements)
    (statement : s.Accepts candidate (s.statements statementSlot))
    (h : Chain digests s (s.accepted candidate) statementSlot encoded newer versions)
    (hsteps : versions.length ≤ steps)
    : visitLinks digests s statementSlot candidate visit receipt steps encoded newer seen
      = .ok (versions.foldl (fun seen slot => visit seen slot (s.versions slot)
          (s.supports (s.versions slot).body.supportSlot)) seen) := by
  induction h generalizing steps seen with
  | nil => cases steps <;> simp [visitLinks, refuseIf]
  | @cons newer slot rest link older ih =>
      cases steps with
      | zero => simp at hsteps
      | succ steps =>
          have hcheck : validateChainLink digests s statementSlot candidate newer slot receipt
              = .ok () := validateChainLink_ok generations hin statement link older
          rw [visitLinks, if_neg (Nat.succ_ne_zero _), Nat.add_sub_cancel, hcheck, ok_bind,
            ih _ (by simpa using hsteps)]
          rfl

/-- The last match of a fold is a match, and there is none when nothing matches. -/
theorem foldl_find (matching : Nat → Prop) [DecidablePred matching] (slots : List Nat)
    (found : Option Nat)
    : (slots.foldl (fun found slot => if matching slot then some slot else found) found = found
        ∧ ∀ slot ∈ slots, ¬matching slot)
      ∨ ∃ slot ∈ slots, matching slot
        ∧ slots.foldl (fun found slot => if matching slot then some slot else found) found
          = some slot := by
  induction slots generalizing found with
  | nil => exact Or.inl ⟨rfl, by simp⟩
  | cons slot slots ih =>
      rw [List.foldl_cons]
      by_cases hmatch : matching slot
      · rw [if_pos hmatch]
        rcases ih (some slot) with ⟨hfold, _⟩ | ⟨other, hmem, hother, hfold⟩
        · exact Or.inr ⟨slot, List.mem_cons_self, hmatch, hfold⟩
        · exact Or.inr ⟨other, List.mem_cons_of_mem _ hmem, hother, hfold⟩
      · rw [if_neg hmatch]
        rcases ih found with ⟨hfold, hnone⟩ | ⟨other, hmem, hother, hfold⟩
        · refine Or.inl ⟨hfold, ?_⟩
          intro other hmem
          rcases List.mem_cons.mp hmem with rfl | hmem
          · exact hmatch
          · exact hnone other hmem
        · exact Or.inr ⟨other, List.mem_cons_of_mem _ hmem, hother, hfold⟩

/-- The version that the search for a support of a chain finds. -/
theorem findEventVersion_ok (generations : Generations s)
    (h : Heads digests s (s.accepted true) heads newer) (small : newer ≤ wordMax) {slot : Nat}
    (hne : heads slot ≠ 0) (identity : Identity)
    : ∃ found versions, findEventVersion digests s slot (heads slot) identity receipt = .ok found
        ∧ Chain digests s (s.accepted true) slot (heads slot) newer versions
        ∧ ((found = none ∧ ∀ version ∈ versions,
            (s.supports (s.versions version).body.supportSlot).body.identity ≠ identity)
          ∨ ∃ version ∈ versions, found = some version
            ∧ (s.supports (s.versions version).body.supportSlot).body.identity = identity) := by
  obtain ⟨versions, hchain⟩ := h.chain slot
  have hin := h.inStatements slot hne
  have hstatement := accepts_iff.mp (h.statement slot hne)
  have hwalk := @visitLinks_ok digests s true _ receipt _ generations _ _ _ _
    (fun found slot _ support => if support.body.identity = identity then some slot else found)
    (none : Option Nat) hin (h.statement slot hne) (hchain.mono .refl small) hchain.length_le
  have hrun : findEventVersion digests s slot (heads slot) identity receipt
      = .ok (versions.foldl (fun found version =>
        if (s.supports (s.versions version).body.supportSlot).body.identity = identity
        then some version else found) none) := by
    rw [findEventVersion, visitSupportChain, refuseIf_ok (by omega), ok_bind]
    dsimp only
    rw [refuseIf_ok, ok_bind, hwalk]
    simp [hstatement.1, hstatement.2, generations.statement slot hin]
  rcases foldl_find (fun version =>
    (s.supports (s.versions version).body.supportSlot).body.identity = identity) versions none
    with ⟨hfold, hnone⟩ | ⟨version, hmem, hversion, hfold⟩
  · exact ⟨none, versions, by rw [hrun, hfold], hchain, Or.inl ⟨rfl, hnone⟩⟩
  · exact ⟨some version, versions, by rw [hrun, hfold], hchain,
      Or.inr ⟨version, hmem, rfl, hversion⟩⟩

/-- What a search of a statement may find from a slot on. -/
def FoundStatement (s : Store) (heads : Nat → Nat) (identity : Identity) (first : Nat)
    (found : Option Nat) : Prop :=
  (∀ slot, found = some slot → slot < s.capacities.statements ∧ heads slot ≠ 0
    ∧ (s.statements slot).body = identity)
  ∧ (found = none → ∀ slot, first ≤ slot → slot < s.capacities.statements → heads slot ≠ 0
    → (s.statements slot).body ≠ identity)

theorem findStatement_ok (generations : Generations s)
    (h : Heads digests s (s.accepted candidate) heads newer) (identity : Identity)
    : ∃ found, findStatement s heads identity receipt = .ok found
        ∧ FoundStatement s heads identity 0 found := by
  suffices hfrom : ∀ left slot, slot + left = s.capacities.statements →
      ∃ found, findStatementFrom s heads identity receipt left slot = .ok found
        ∧ FoundStatement s heads identity slot found from
    hfrom _ 0 (Nat.zero_add _)
  intro left
  induction left with
  | zero =>
      intro slot hslot
      refine ⟨none, rfl, by simp, fun _ other hle hlt => ?_⟩
      omega
  | succ left ih =>
      intro slot hslot
      obtain ⟨found, hfound, hsome, hnone⟩ := ih (slot + 1) (by omega)
      rw [findStatementFrom]
      have hskip : (heads slot = 0 ∨ (s.statements slot).body ≠ identity) →
          FoundStatement s heads identity slot found := by
        intro hslot
        refine ⟨hsome, fun hf other hle hlt hne => ?_⟩
        rcases Nat.lt_or_eq_of_le hle with hlt' | rfl
        · exact hnone hf other hlt' hlt hne
        · exact hslot.resolve_left hne
      split
      · next hzero => exact ⟨found, hfound, hskip (Or.inl hzero)⟩
      · next hne =>
          have hstatement := (accepts_iff.mp (h.statement slot hne)).1
          dsimp only
          rw [refuseIf_ok (by simp [hstatement]), ok_bind, validateHead_ok generations h slot,
            ok_bind]
          split
          · next heq =>
              refine ⟨some slot, rfl, ?_, by simp⟩
              intro other hother
              obtain rfl := Option.some.inj hother
              exact ⟨by omega, hne, heq⟩
          · next hdiff => exact ⟨found, hfound, hskip (Or.inr hdiff)⟩

end

-- Free slots

section

variable {state : Nat → RecordState} {capacity slot : Nat}

theorem findFree_some (h : findFree state capacity = some slot)
    : slot < capacity ∧ state slot = .free ∧ ∀ other, other < slot → state other ≠ .free := by
  rw [findFree, List.find?_range_eq_some] at h
  obtain ⟨hfree, hlt, hbefore⟩ := h
  exact ⟨List.mem_range.mp hlt, by simpa using hfree, fun other ho => by simpa using hbefore other ho⟩

end

end Xlog.Cuda.SemanticGraph
