import Xlog.Cuda.SemanticExecute
import Xlog.Cuda.SemanticLineage

/-! The invariant of the semantic store: sealed roots and the candidate have sound lineage, staged
records belong to a live candidate, and generations leave room for every staged record.
-/

namespace Xlog.Cuda.SemanticGraph

open Xlog.Foundation

-- The invariant

/-- A record is staged only by a live candidate, and only a staged one has an owner. -/
structure RecordOk {α : Type} (s : Store) (record : Record α) : Prop where
  positive : record.generation ≠ 0
  bounded : record.generation ≤ wordMax
  notLive : record.state ≠ .live
  unowned : record.state ≠ .staged → record.owner = 0
  staged : record.state = .staged → s.candidate.state = .live
    ∧ record.owner = s.candidate.generation ∧ record.generation ≠ wordMax

structure Extents.Bounded (extents : Extents) : Prop where
  statements : extents.statements ≤ halfMax
  supports : extents.supports ≤ halfMax
  versions : extents.versions ≤ halfMax

/-- The lineage of a view: bounded extents, and chains of ordinals up to the extent. -/
structure ViewOk (digests : Digests) (s : Store) (candidate : Bool) (extents : Extents)
    (heads : Nat → Nat) : Prop where
  bounded : extents.Bounded
  lineage : Heads digests s (s.accepted candidate) heads (extents.versions + 1)

structure RootOk (digests : Digests) (s : Store) (slot : Nat) : Prop where
  bounded : (s.roots slot).generation ≤ wordMax
  state : (s.roots slot).state = .free ∨ (s.roots slot).state = .sealed
  view : (s.roots slot).state = .sealed
    → ViewOk digests s false (s.roots slot).extents (s.rootHeads slot)

/-- The root that a handle names. -/
structure Store.RootValid (s : Store) (slot generation : Nat) : Prop where
  inRoots : slot < s.capacities.roots
  generation : (s.roots slot).generation = generation
  isSealed : (s.roots slot).state = .sealed

structure CandidateLive (digests : Digests) (s : Store) : Prop where
  retirable : s.candidate.generation ≠ wordMax
  base : s.RootValid s.candidate.baseSlot s.candidate.baseGeneration
  view : ViewOk digests s true s.candidate.extents s.candidateHeads

structure Sound (digests : Digests) (s : Store) : Prop where
  capacities : s.capacities.Valid
  magic : s.control.magic = magic
  laidOut : s.control.capacities = s.capacities ∧ s.control.arenaWords = s.capacities.arenaWords
  statement : ∀ slot, slot < s.capacities.statements → RecordOk s (s.statements slot)
  support : ∀ slot, slot < s.capacities.supports → RecordOk s (s.supports slot)
  version : ∀ slot, slot < s.capacities.versions → RecordOk s (s.versions slot)
  root : ∀ slot, slot < s.capacities.roots → RootOk digests s slot
  generation : s.candidate.generation ≠ 0 ∧ s.candidate.generation ≤ wordMax
  state : s.candidate.state = .free ∨ s.candidate.state = .live
  live : s.candidate.state = .live → CandidateLive digests s

section

variable {digests : Digests} {s s' : Store}

theorem Sound.generations (h : Sound digests s) : Generations s :=
  ⟨fun slot hlt => (h.statement slot hlt).positive, fun slot hlt => (h.support slot hlt).positive,
    fun slot hlt => (h.version slot hlt).positive⟩

/-- A view survives where its records are kept and stay acceptable. -/
theorem ViewOk.frame {candidate candidate' : Bool} {extents : Extents} {heads : Nat → Nat}
    (h : ViewOk digests s candidate extents heads) (keeps : Keeps s s' (s.accepted candidate))
    (within : (s.accepted candidate).Within (s'.accepted candidate'))
    : ViewOk digests s' candidate' extents heads :=
  ⟨h.bounded, (h.lineage.frame keeps).mono within (Nat.le_refl _)⟩

/-- Acceptable records that stay where they are. -/
theorem keeps_of_eq {candidate candidate' : Bool} (capacities : s'.capacities = s.capacities)
    (accepts : ∀ {α : Type} (record : Record α), s.Accepts candidate record
      → s'.Accepts candidate' record)
    (statement : ∀ slot, s.Accepts candidate (s.statements slot)
      → s'.statements slot = s.statements slot)
    (support : ∀ slot, s.Accepts candidate (s.supports slot) → s'.supports slot = s.supports slot)
    (version : ∀ slot, s.Accepts candidate (s.versions slot) → s'.versions slot = s.versions slot)
    : Keeps s s' (s.accepted candidate)
      ∧ (s.accepted candidate).Within (s'.accepted candidate') := by
  constructor
  · refine ⟨capacities, fun slot h => ?_, fun slot h => ?_, fun slot h => ?_⟩
    · rw [statement slot h]
      exact ⟨rfl, rfl⟩
    · rw [support slot h]
      exact ⟨rfl, rfl⟩
    · rw [version slot h]
      exact ⟨rfl, rfl⟩
  · refine ⟨fun slot h => ?_, fun slot h => ?_, fun slot h => ?_⟩
    · have := accepts _ h
      rwa [← statement slot h] at this
    · have := accepts _ h
      rwa [← support slot h] at this
    · have := accepts _ h
      rwa [← version slot h] at this

theorem accepts_sealed {α : Type} {record : Record α}
    : s.Accepts false record ↔ record.state = .sealed := by
  simp [Store.Accepts]

theorem bump_eq {generation : Nat} (h : generation ≤ wordMax) (hne : generation ≠ wordMax)
    : bump generation = generation + 1 := by
  rw [wordMax] at h hne
  rw [bump, Nat.mod_eq_of_lt]
  omega

end

-- An empty store

theorem initialStore_sound (digests : Digests) {capacities : Capacities} (h : capacities.Valid)
    (owner : Nat)
    : Sound digests (initialStore digests capacities owner) := by
  have hone : 1 ≤ wordMax := by decide
  have hrecord : ∀ {α : Type} (body : α),
      RecordOk (initialStore digests capacities owner) (emptyRecord body) := by
    intro α body
    refine ⟨Nat.one_ne_zero, hone, ?_, ?_, ?_⟩ <;> simp [emptyRecord]
  refine ⟨h, rfl, ⟨rfl, rfl⟩, fun _ _ => hrecord _, fun _ _ => hrecord _, fun _ _ => hrecord _, ?_,
    ⟨Nat.one_ne_zero, hone⟩, Or.inl rfl, fun hlive => absurd hlive (by simp [initialStore])⟩
  intro slot _
  have hroot : ∀ root, (initialStore digests capacities owner).roots slot = root →
      root.generation = 1 ∧ (root.state = .free ∨ root.state = .sealed)
        ∧ root.extents.Bounded := by
    rintro root rfl
    rw [initialStore]
    dsimp only
    split
    · exact ⟨rfl, Or.inr rfl, Nat.zero_le _, Nat.zero_le _, Nat.zero_le _⟩
    · exact ⟨rfl, Or.inl rfl, Nat.zero_le _, Nat.zero_le _, Nat.zero_le _⟩
  obtain ⟨hgeneration, hstate, hbounded⟩ := hroot _ rfl
  refine ⟨by rw [hgeneration]; exact hone, hstate, fun _ => ⟨hbounded, ?_⟩⟩
  exact ⟨fun _ hne => absurd rfl hne, fun _ hne => absurd rfl hne, fun _ => ⟨[], .nil⟩,
    fun _ _ hne => absurd rfl hne⟩

-- Validation of handles

/-- The candidate that a handle names. -/
structure Store.CandidateValid (s : Store) (slot generation : Nat) : Prop where
  slot : slot = 0
  generation : s.candidate.generation = generation
  live : s.candidate.state = .live

section

variable {s : Store} {slot generation : Nat} {receipt : Receipt}

theorem validateRoot_ends
    : Ends receipt.Refusal (fun _ => s.RootValid slot generation)
        (validateRoot s slot generation receipt) := by
  rw [validateRoot]
  refine (refuseIf_ends (refusal_fail (by simp))).bind fun _ hslot => ?_
  refine (refuseIf_ends (refusal_fail (by simp))).bind fun _ hgeneration => ?_
  refine (refuseIf_ends (refusal_fail (by simp))).mono fun _ hsealed => ?_
  exact ⟨Nat.lt_of_not_le hslot, not_not.mp hgeneration, not_not.mp hsealed⟩

theorem validateRoot_ok (h : s.RootValid slot generation)
    : validateRoot s slot generation receipt = .ok () := by
  have hslot := h.inRoots
  rw [validateRoot, refuseIf_ok (by omega), ok_bind, refuseIf_ok (not_not.mpr h.generation),
    ok_bind, refuseIf_ok (not_not.mpr h.isSealed)]

theorem validateCandidate_ends
    : Ends receipt.Refusal (fun _ => s.CandidateValid slot generation)
        (validateCandidate s slot generation receipt) := by
  rw [validateCandidate]
  refine (refuseIf_ends (refusal_fail (by simp))).bind fun _ hslot => ?_
  refine (refuseIf_ends (refusal_fail (by simp))).bind fun _ hgeneration => ?_
  refine (refuseIf_ends (refusal_fail (by simp))).mono fun _ hlive => ?_
  exact ⟨not_not.mp hslot, not_not.mp hgeneration, not_not.mp hlive⟩

theorem validateCandidate_ok (h : s.CandidateValid slot generation)
    : validateCandidate s slot generation receipt = .ok () := by
  rw [validateCandidate, refuseIf_ok (not_not.mpr h.slot), ok_bind,
    refuseIf_ok (not_not.mpr h.generation), ok_bind, refuseIf_ok (not_not.mpr h.live)]

end

/-- A computation that succeeded met its postcondition. -/
theorem ends_ok {α : Type} {allowed : Receipt → Prop} {post : α → Prop} {x : Checked α} {a : α}
    (h : Ends allowed post x) (ok : x = .ok a)
    : post a := by
  rw [ok] at h
  exact h

end Xlog.Cuda.SemanticGraph
