import Xlog.Cuda.SemanticEffects

/-! Retirement of a root keeps the invariant: the trace marks the lineage of the other roots and of
the candidate, and the sweep frees sealed records without a mark.
-/

namespace Xlog.Cuda.SemanticGraph

open Xlog.Foundation

-- Marks

/-- The record is the other one, or the other one with a mark. -/
def MarkedRecord {α : Type} (record marked : Record α) : Prop :=
  marked = record ∨ marked = record.mark

/-- One store is the other one with more marks. -/
structure Marked (s m : Store) : Prop where
  rest
    : m = { s with statements := m.statements, supports := m.supports, versions := m.versions }
  statement : ∀ slot, MarkedRecord (s.statements slot) (m.statements slot)
  support : ∀ slot, MarkedRecord (s.supports slot) (m.supports slot)
  version : ∀ slot, MarkedRecord (s.versions slot) (m.versions slot)

/-- A record of a view with a mark when it is sealed. -/
def Store.Traces {α : Type} (s : Store) (candidate : Bool) (record : Record α) : Prop :=
  s.Accepts candidate record ∧ (record.state = .sealed → record.owner = 1)

def Store.traced (s : Store) (candidate : Bool) : Slots where
  statement slot := s.Traces candidate (s.statements slot)
  support slot := s.Traces candidate (s.supports slot)
  version slot := s.Traces candidate (s.versions slot)

section

variable {α : Type} {record marked later : Record α}

theorem mark_fields (record : Record α)
    : record.mark.state = record.state ∧ record.mark.generation = record.generation
      ∧ record.mark.body = record.body := by
  rw [Record.mark]
  split <;> exact ⟨rfl, rfl, rfl⟩

theorem mark_mark (record : Record α) : record.mark.mark = record.mark := by
  by_cases h : record.state = .sealed
  · simp [Record.mark, h]
  · simp [Record.mark, h]

theorem MarkedRecord.trans (h : MarkedRecord record marked) (h' : MarkedRecord marked later)
    : MarkedRecord record later := by
  rcases h with rfl | rfl
  · exact h'
  · rcases h' with rfl | rfl
    · exact Or.inr rfl
    · exact Or.inr (mark_mark record)

theorem MarkedRecord.fields (h : MarkedRecord record marked)
    : marked.state = record.state ∧ marked.generation = record.generation
      ∧ marked.body = record.body := by
  rcases h with rfl | rfl
  · exact ⟨rfl, rfl, rfl⟩
  · exact mark_fields record

theorem MarkedRecord.staged (h : MarkedRecord record marked) (hstate : record.state ≠ .sealed)
    : marked = record := by
  rcases h with rfl | rfl
  · rfl
  · rw [Record.mark, if_neg hstate]

/-- A mark stays. -/
theorem MarkedRecord.owner (h : MarkedRecord record marked) (hstate : record.state = .sealed)
    (howner : record.owner = 1)
    : marked.owner = 1 := by
  rcases h with rfl | rfl
  · exact howner
  · rw [Record.mark, if_pos hstate]

theorem MarkedRecord.update {records : Nat → Record α} (slot other : Nat)
    : MarkedRecord (records other) (Function.update records slot (records slot).mark other) := by
  by_cases heq : other = slot
  · rw [heq, Function.update_self]
    exact Or.inr rfl
  · rw [Function.update_of_ne heq]
    exact Or.inl rfl

end

section

variable {digests : Digests} {s m m' : Store} {candidate : Bool} {receipt : Receipt}

theorem Marked.refl (s : Store) : Marked s s :=
  ⟨rfl, fun _ => Or.inl rfl, fun _ => Or.inl rfl, fun _ => Or.inl rfl⟩

theorem Marked.trans (h : Marked s m) (h' : Marked m m') : Marked s m' := by
  refine ⟨?_, fun slot => (h.statement slot).trans (h'.statement slot),
    fun slot => (h.support slot).trans (h'.support slot),
    fun slot => (h.version slot).trans (h'.version slot)⟩
  have hrest := h'.rest
  rw [h.rest] at hrest
  exact hrest

theorem marked_markStatement (s : Store) (slot : Nat) : Marked s (s.markStatement slot) :=
  ⟨rfl, MarkedRecord.update slot, fun _ => Or.inl rfl, fun _ => Or.inl rfl⟩

theorem marked_markVersion (s : Store) (slot : Nat) : Marked s (s.markVersion slot) :=
  ⟨rfl, fun _ => Or.inl rfl, MarkedRecord.update _, MarkedRecord.update slot⟩

theorem Marked.capacities (h : Marked s m) : m.capacities = s.capacities := by
  rw [h.rest]

theorem Marked.sameCandidate (h : Marked s m) : m.candidate = s.candidate := by
  rw [h.rest]

theorem Marked.sameControl (h : Marked s m) : m.control = s.control := by
  rw [h.rest]

theorem Marked.sameHeads (h : Marked s m) : m.candidateHeads = s.candidateHeads := by
  rw [h.rest]

theorem Marked.accepts {α : Type} {record marked : Record α} (h : Marked s m)
    (hr : MarkedRecord record marked) (haccepts : s.Accepts candidate record)
    : m.Accepts candidate marked := by
  rcases haccepts with hsealed | ⟨hcandidate, hstaged⟩
  · exact Or.inl (hr.fields.1.trans hsealed)
  · refine Or.inr ⟨hcandidate, ?_⟩
    rw [hr.staged (by rw [hstaged.1]; simp), h.sameCandidate]
    exact hstaged

/-- Marks keep the records, and keep them acceptable. -/
theorem Marked.keeps (h : Marked s m) (slots : Slots) : Keeps s m slots :=
  ⟨h.capacities, fun slot _ => (h.statement slot).fields.2, fun slot _ => (h.support slot).fields.2,
    fun slot _ => (h.version slot).fields.2⟩

theorem Marked.within (h : Marked s m) (candidate : Bool)
    : (s.accepted candidate).Within (m.accepted candidate) :=
  ⟨fun slot hs => h.accepts (h.statement slot) hs, fun slot hs => h.accepts (h.support slot) hs,
    fun slot hs => h.accepts (h.version slot) hs⟩

theorem Marked.traces {α : Type} {record marked : Record α} (h : Marked s m)
    (hr : MarkedRecord record marked) (htraces : s.Traces candidate record)
    : m.Traces candidate marked := by
  refine ⟨h.accepts hr htraces.1, fun hsealed => ?_⟩
  have hstate := hr.fields.1.symm.trans hsealed
  exact hr.owner hstate (htraces.2 hstate)

theorem Marked.traced_within (h : Marked s m) (candidate : Bool)
    : (s.traced candidate).Within (m.traced candidate) :=
  ⟨fun slot hs => h.traces (h.statement slot) hs, fun slot hs => h.traces (h.support slot) hs,
    fun slot hs => h.traces (h.version slot) hs⟩

/-- A mark traces an acceptable record. -/
theorem traces_mark {α : Type} {record : Record α} (h : Marked s m)
    (haccepts : s.Accepts candidate record)
    : m.Traces candidate record.mark := by
  refine ⟨h.accepts (Or.inr rfl) haccepts, fun hsealed => ?_⟩
  rw [(mark_fields record).1] at hsealed
  rw [Record.mark, if_pos hsealed]

/-- Marking a version traces it with its support. -/
theorem traced_markVersion {slot : Nat} (version : (s.accepted candidate).version slot)
    (support : (s.accepted candidate).support (s.versions slot).body.supportSlot)
    : ((s.markVersion slot).traced candidate).version slot
      ∧ ((s.markVersion slot).traced candidate).support (s.versions slot).body.supportSlot := by
  have hmarked := marked_markVersion s slot
  have hversion : (s.markVersion slot).versions slot = (s.versions slot).mark :=
    Function.update_self _ _ _
  have hsupport : (s.markVersion slot).supports (s.versions slot).body.supportSlot
      = (s.supports (s.versions slot).body.supportSlot).mark := Function.update_self _ _ _
  constructor
  · change Store.Traces _ _ _
    rw [hversion]
    exact traces_mark hmarked version
  · change Store.Traces _ _ _
    rw [hsupport]
    exact traces_mark hmarked support

theorem traced_markStatement {slot : Nat} (statement : (s.accepted candidate).statement slot)
    : ((s.markStatement slot).traced candidate).statement slot := by
  have hstatement : (s.markStatement slot).statements slot = (s.statements slot).mark :=
    Function.update_self _ _ _
  change Store.Traces _ _ _
  rw [hstatement]
  exact traces_mark (marked_markStatement s slot) statement

/-- A chain whose records are all traced. -/
theorem Chain.traced {statementSlot encoded newer : Nat} {versions : List Nat} {slots slots' : Slots}
    (h : Chain digests s slots statementSlot encoded newer versions)
    (version : ∀ slot ∈ versions, slots'.version slot
      ∧ slots'.support (s.versions slot).body.supportSlot)
    : Chain digests s slots' statementSlot encoded newer versions := by
  induction h with
  | nil => exact .nil
  | cons link _ ih =>
      obtain ⟨hversion, hsupport⟩ := version _ List.mem_cons_self
      exact .cons { link with version := hversion, support := hsupport }
        (ih fun slot hmem => version slot (List.mem_cons_of_mem _ hmem))

-- The trace

theorem traceLinks_marked (statementSlot : Nat) (candidate mark : Bool) (receipt : Receipt)
    (steps encoded : Nat) (s : Store)
    : Marked s (traceLinks statementSlot candidate mark receipt steps encoded s).1 := by
  induction steps generalizing encoded s with
  | zero =>
      rw [traceLinks]
      split <;> exact Marked.refl s
  | succ steps ih =>
      rw [traceLinks]
      split
      · exact Marked.refl s
      · dsimp only
        split
        · exact Marked.refl s
        · split
          · exact Marked.refl s
          · refine Marked.trans ?_ (ih _ _)
            split
            · exact marked_markVersion s _
            · exact Marked.refl s

/-- A complete walk traces its chain, by induction on the steps. -/
theorem traceLinks_traced {statementSlot steps encoded newer : Nat} {versions : List Nat}
    (h : Chain digests s (s.accepted candidate) statementSlot encoded newer versions)
    (done : (traceLinks statementSlot candidate true receipt steps encoded s).2 = none)
    : ∀ slot ∈ versions,
        ((traceLinks statementSlot candidate true receipt steps encoded s).1.traced
          candidate).version slot
        ∧ ((traceLinks statementSlot candidate true receipt steps encoded s).1.traced
          candidate).support (s.versions slot).body.supportSlot := by
  induction steps generalizing encoded newer versions s with
  | zero =>
      cases h with
      | nil => simp
      | cons link older => simp [traceLinks] at done
  | succ steps ih =>
      cases h with
      | nil => simp
      | @cons _ slot rest link older =>
          rw [traceLinks, if_neg (Nat.succ_ne_zero slot), Nat.add_sub_cancel] at done ⊢
          dsimp only at done ⊢
          split at done
          · simp at done
          · next hcheck =>
              split at done
              · simp at done
              · next hforeign =>
                  rw [if_neg hforeign]
                  rw [if_pos rfl] at done ⊢
                  have hmarked := marked_markVersion s slot
                  have hlater := (traceLinks_marked statementSlot candidate true receipt steps
                    (s.versions slot).body.previous (s.markVersion slot)).traced_within candidate
                  have hself := traced_markVersion link.version link.support
                  have hold := (older.frame (hmarked.keeps _)
                    (hmarked.statement _).fields.2.1).mono (hmarked.within candidate)
                    (Nat.le_refl _)
                  intro other hmem
                  rcases List.mem_cons.mp hmem with rfl | hmem
                  · exact ⟨hlater.version _ hself.1, hlater.support _ hself.2⟩
                  · have hother := ih hold done other hmem
                    rwa [(hmarked.version other).fields.2.2] at hother

/-- The head of a statement starts a traced chain. -/
def TracedHead (digests : Digests) (s : Store) (candidate : Bool) (heads : Nat → Nat)
    (newer slot : Nat) : Prop :=
  heads slot ≠ 0 → (s.traced candidate).statement slot
    ∧ ∃ versions, Chain digests s (s.traced candidate) slot (heads slot) newer versions

theorem TracedHead.later {heads : Nat → Nat} {newer slot : Nat}
    (h : TracedHead digests m candidate heads newer slot) (marked : Marked m m')
    : TracedHead digests m' candidate heads newer slot := by
  intro hne
  obtain ⟨hstatement, versions, hchain⟩ := h hne
  have hwithin := marked.traced_within candidate
  refine ⟨hwithin.statement slot hstatement, versions, ?_⟩
  exact (hchain.frame (marked.keeps _) (marked.statement slot).fields.2.1).mono hwithin
    (Nat.le_refl _)

theorem traceHeads_marked (heads : Nat → Nat) (candidate mark : Bool) (receipt : Receipt)
    (left slot : Nat) (s : Store)
    : Marked s (traceHeads heads candidate mark receipt left slot s).1 := by
  induction left generalizing slot s with
  | zero => exact Marked.refl s
  | succ left ih =>
      rw [traceHeads]
      split
      · exact ih _ _
      · dsimp only
        split
        · exact Marked.refl s
        · have hstatement : Marked s (if mark = true then s.markStatement slot else s) := by
            split
            · exact marked_markStatement s slot
            · exact Marked.refl s
          have hlinks := traceLinks_marked slot candidate mark receipt s.capacities.versions
            (heads slot) (if mark = true then s.markStatement slot else s)
          split
          · next heq =>
              rw [heq] at hlinks
              exact hstatement.trans hlinks
          · next heq =>
              rw [heq] at hlinks
              exact (hstatement.trans hlinks).trans (ih _ _)

/-- A complete trace of heads traces every head from the slot on, by induction on the slots left. -/
theorem traceHeads_traced {heads : Nat → Nat} {newer left slot : Nat}
    (h : Heads digests s (s.accepted candidate) heads newer)
    (done : (traceHeads heads candidate true receipt left slot s).2 = none)
    : ∀ other, slot ≤ other → other < slot + left
      → TracedHead digests (traceHeads heads candidate true receipt left slot s).1 candidate heads
          newer other := by
  induction left generalizing slot s with
  | zero =>
      intro other hle hlt
      omega
  | succ left ih =>
      intro other hle hlt
      rw [traceHeads] at done ⊢
      split at done
      · next hzero =>
          rw [if_pos hzero]
          rcases Nat.lt_or_eq_of_le hle with hlt' | rfl
          · exact ih h done other hlt' (by omega)
          · exact fun hne => absurd hzero hne
      · next hne =>
          rw [if_neg hne]
          dsimp only at done ⊢
          split at done
          · simp at done
          · next hforeign =>
              rw [if_neg hforeign]
              rw [if_pos rfl] at done ⊢
              have hmarked := marked_markStatement s slot
              have hlinks := traceLinks_marked slot candidate true receipt s.capacities.versions
                (heads slot) (s.markStatement slot)
              obtain ⟨versions, hchain⟩ := h.chain slot
              have hold := (hchain.frame (hmarked.keeps _) (hmarked.statement _).fields.2.1).mono
                (hmarked.within candidate) (Nat.le_refl _)
              have hchainTraced := @traceLinks_traced digests _ candidate receipt slot
                s.capacities.versions _ _ _ hold
              split at done
              · simp at done
              · next after heq =>
                  rw [heq] at hlinks hchainTraced
                  have hafter := hmarked.trans hlinks
                  rcases Nat.lt_or_eq_of_le hle with hlt' | rfl
                  · exact ih ((h.frame (hafter.keeps _)).mono (hafter.within candidate)
                      (Nat.le_refl _)) done other hlt' (by omega)
                  · refine TracedHead.later (m := after) ?_ (traceHeads_marked _ _ _ _ _ _ _)
                    refine fun _ => ⟨hlinks.traced_within candidate |>.statement slot
                      (traced_markStatement (h.statement slot hne)), versions, ?_⟩
                    refine (hold.frame (hlinks.keeps _) (hlinks.statement _).fields.2.1).traced ?_
                    intro version hmem
                    rw [(hlinks.version version).fields.2.2]
                    exact hchainTraced rfl version hmem

theorem Marked.roots (h : Marked s m) : m.roots = s.roots ∧ m.rootHeads = s.rootHeads := by
  rw [h.rest]
  exact ⟨rfl, rfl⟩

/-- Heads that are traced in the store with the marks. -/
theorem Heads.traced {heads : Nat → Nat} {newer : Nat}
    (h : Heads digests s (s.accepted candidate) heads newer) (marked : Marked s m)
    (traced : ∀ slot, slot < s.capacities.statements
      → TracedHead digests m candidate heads newer slot)
    : Heads digests m (m.traced candidate) heads newer := by
  refine ⟨fun slot hne => ?_, fun slot hne => ?_, fun slot => ?_, fun slot other hne hother => ?_⟩
  · rw [marked.capacities]
    exact h.inStatements slot hne
  · exact (traced slot (h.inStatements slot hne) hne).1
  · by_cases hzero : heads slot = 0
    · rw [hzero]
      exact ⟨[], .nil⟩
    · exact (traced slot (h.inStatements slot hzero) hzero).2
  · rw [(marked.statement slot).fields.2.2, (marked.statement other).fields.2.2]
    exact h.unique slot other hne hother

theorem Heads.later {heads : Nat → Nat} {newer : Nat}
    (h : Heads digests m (m.traced candidate) heads newer) (marked : Marked m m')
    : Heads digests m' (m'.traced candidate) heads newer :=
  (h.frame (marked.keeps _)).mono (marked.traced_within candidate) (Nat.le_refl _)

theorem traceRoots_marked (excluded : Option Nat) (mark : Bool) (receipt : Receipt)
    (left slot : Nat) (s : Store)
    : Marked s (traceRoots excluded mark receipt left slot s).1 := by
  induction left generalizing slot s with
  | zero => exact Marked.refl s
  | succ left ih =>
      rw [traceRoots]
      split
      · exact ih _ _
      · split
        · exact Marked.refl s
        · have hheads := traceHeads_marked (s.rootHeads slot) false mark receipt
            s.capacities.statements 0 s
          split
          · next heq =>
              rw [heq] at hheads
              exact hheads
          · next heq =>
              rw [heq] at hheads
              exact hheads.trans (ih _ _)

/-- A complete trace of roots traces every other root, by induction on the slots left. -/
theorem traceRoots_traced {excluded : Option Nat} {left slot : Nat}
    (h : ∀ slot, slot < s.capacities.roots → RootOk digests s slot)
    (range : slot + left = s.capacities.roots)
    (done : (traceRoots excluded true receipt left slot s).2 = none)
    : ∀ other, slot ≤ other → other < s.capacities.roots → (s.roots other).state = .sealed
      → excluded ≠ some other
      → Heads digests (traceRoots excluded true receipt left slot s).1
          ((traceRoots excluded true receipt left slot s).1.traced false) (s.rootHeads other)
          ((s.roots other).extents.versions + 1) := by
  induction left generalizing slot s with
  | zero =>
      intro other hle hlt
      omega
  | succ left ih =>
      intro other hle hlt hsealed hother
      rw [traceRoots] at done ⊢
      split at done
      · next hskip =>
          rw [if_pos hskip]
          rcases Nat.lt_or_eq_of_le hle with hlt' | rfl
          · exact ih h (by omega) done other hlt' hlt hsealed hother
          · rcases hskip with hfree | hexcluded
            · rw [hsealed] at hfree
              exact absurd hfree (by simp)
            · exact absurd hexcluded hother
      · next hskip =>
          rw [if_neg hskip]
          split at done
          · simp at done
          · have hheads := traceHeads_marked (s.rootHeads slot) false true receipt
              s.capacities.statements 0 s
            have htraced := @traceHeads_traced digests s false receipt (s.rootHeads slot)
              ((s.roots slot).extents.versions + 1) s.capacities.statements 0
            split at done
            · simp at done
            · next after heq =>
                rw [heq] at hheads htraced
                have hroots := hheads.roots
                rcases Nat.lt_or_eq_of_le hle with hlt' | rfl
                · have hnext := ih (s := after) ?_ (by rw [hheads.capacities]; omega) done other hlt'
                    (by rw [hheads.capacities]; exact hlt) (by rw [hroots.1]; exact hsealed) hother
                  · rwa [hroots.1, hroots.2] at hnext
                  · intro i hi
                    rw [hheads.capacities] at hi
                    exact (h i hi).frame (by rw [hroots.1]) (by rw [hroots.2]) (hheads.keeps _)
                      (hheads.within false)
                · have hview := ((h slot hlt).view hsealed).lineage
                  refine Heads.later (m := after) ?_ (traceRoots_marked _ _ _ _ _ _)
                  exact hview.traced hheads fun i hi => htraced hview rfl i (Nat.zero_le _)
                    (by omega)

/-- What a complete retirement trace leaves: marks on the lineage of every other view. -/
structure Retained (digests : Digests) (s m : Store) (excluded : Nat) : Prop where
  marked : Marked s m
  root
    : ∀ slot, slot < s.capacities.roots → (s.roots slot).state = .sealed → slot ≠ excluded
      → Heads digests m (m.traced false) (s.rootHeads slot) ((s.roots slot).extents.versions + 1)
  candidate
    : s.candidate.state = .live
      → Heads digests m (m.traced true) s.candidateHeads (s.candidate.extents.versions + 1)

theorem traceRetirementRoots_marked (excluded : Option Nat) (mark : Bool) (receipt : Receipt)
    (s : Store)
    : Marked s (traceRetirementRoots s excluded mark receipt).1 := by
  have hroots := traceRoots_marked excluded mark receipt s.capacities.roots 0 s
  rw [traceRetirementRoots]
  split
  · next heq =>
      rw [heq] at hroots
      exact hroots
  · next heq =>
      rw [heq] at hroots
      split
      · exact hroots
      · split
        · exact hroots
        · exact hroots
        · exact hroots.trans (traceHeads_marked _ _ _ _ _ _ _)

/-- A retirement trace that is complete ends in the trace of the candidate. -/
theorem traceRetirementRoots_done {excluded : Option Nat}
    (done : (traceRetirementRoots s excluded true receipt).2 = none)
    : ∃ m, traceRoots excluded true receipt s.capacities.roots 0 s = (m, none)
        ∧ ((m.candidate.state = .free ∧ traceRetirementRoots s excluded true receipt = (m, none))
          ∨ traceRetirementRoots s excluded true receipt
            = traceHeads m.candidateHeads true true receipt m.capacities.statements 0 m) := by
  rw [traceRetirementRoots] at done ⊢
  split at done
  · simp at done
  · next m heq =>
      refine ⟨m, heq, ?_⟩
      split at done
      · next hfree => exact Or.inl ⟨hfree, if_pos hfree⟩
      · next hlive =>
          rw [if_neg hlive]
          split at done
          · simp at done
          · simp at done
          · exact Or.inr rfl

theorem traceRetirementRoots_retained (h : Sound digests s) {excluded : Nat}
    (done : (traceRetirementRoots s (some excluded) true receipt).2 = none)
    : Retained digests s (traceRetirementRoots s (some excluded) true receipt).1 excluded := by
  obtain ⟨m, hm, hlast⟩ := traceRetirementRoots_done done
  have hroots := traceRoots_marked (some excluded) true receipt s.capacities.roots 0 s
  have htraced := @traceRoots_traced digests s receipt (some excluded) _ _ h.root (Nat.zero_add _)
  rw [hm] at hroots htraced
  have hlater : Marked m (traceRetirementRoots s (some excluded) true receipt).1 := by
    rcases hlast with ⟨_, heq⟩ | heq
    · rw [heq]
      exact Marked.refl m
    · rw [heq]
      exact traceHeads_marked _ _ _ _ _ _ _
  refine ⟨hroots.trans hlater, ?_, fun hlive => ?_⟩
  · intro slot hslot hsealed hne
    exact (htraced rfl slot (Nat.zero_le _) hslot hsealed (by simpa using hne.symm)).later hlater
  · have hcandidate := hroots.sameCandidate
    rcases hlast with ⟨hfree, _⟩ | heq
    · rw [hcandidate, hlive] at hfree
      exact absurd hfree (by simp)
    · have hheads : m.candidateHeads = s.candidateHeads := hroots.sameHeads
      have hview := (h.live hlive).view.lineage
      rw [heq] at done hlater ⊢
      rw [hheads] at done hlater ⊢
      have hframe := (hview.frame (hroots.keeps _)).mono (hroots.within true) (Nat.le_refl _)
      refine hview.traced (hroots.trans hlater) fun slot hslot => ?_
      exact traceHeads_traced hframe done slot (Nat.zero_le _)
        (by rw [hroots.capacities]; omega)

-- The sweep

theorem refuseSealed_ok {α : Type} {records : Nat → Record α} {kind capacity detail : Nat}
    {refused : Nat → Nat → Bool} {status : Status}
    (ok : refuseSealed records kind capacity refused status detail receipt = .ok ())
    : ∀ slot, slot < capacity → (records slot).state = .sealed
      → refused (records slot).owner (records slot).generation = false := by
  intro slot hslot hsealed
  rw [refuseSealed] at ok
  split at ok
  · next heq =>
      rw [findSealed, List.find?_eq_none] at heq
      simpa [hsealed] using heq slot (List.mem_range.mpr hslot)
  · simp at ok

/-- Every sealed record without a mark has room for its retirement. -/
structure Reclaimable (m : Store) : Prop where
  statement : ∀ slot, slot < m.capacities.statements → (m.statements slot).state = .sealed
    → (m.statements slot).owner = 0 → (m.statements slot).generation ≠ wordMax
  support : ∀ slot, slot < m.capacities.supports → (m.supports slot).state = .sealed
    → (m.supports slot).owner = 0 → (m.supports slot).generation ≠ wordMax
  version : ∀ slot, slot < m.capacities.versions → (m.versions slot).state = .sealed
    → (m.versions slot).owner = 0 → (m.versions slot).generation ≠ wordMax

theorem reclaimable_of_ok {status : Status} {detail : Nat}
    (ok : m.refuseSealed (fun owner generation => owner = 0 ∧ generation = wordMax) status detail
      receipt = .ok ())
    : Reclaimable m := by
  rw [Store.refuseSealed] at ok
  obtain ⟨_, hstatement, ok⟩ := bind_eq_ok.mp ok
  obtain ⟨_, hsupport, hversion⟩ := bind_eq_ok.mp ok
  refine ⟨fun slot hslot hsealed howner => ?_, fun slot hslot hsealed howner => ?_,
    fun slot hslot hsealed howner => ?_⟩
  · simpa [howner] using refuseSealed_ok hstatement slot hslot hsealed
  · simpa [howner] using refuseSealed_ok hsupport slot hslot hsealed
  · simpa [howner] using refuseSealed_ok hversion slot hslot hsealed

/-- Traced records survive the sweep without their mark. -/
theorem reclaim_traced {α : Type} {record : Record α} (h : m.Traces candidate record)
    : record.reclaim true = { record with owner := (record.reclaim true).owner }
      ∧ (m.reclaimed true).Accepts candidate (record.reclaim true) := by
  rw [Record.reclaim]
  split
  · next hstate =>
      exact ⟨rfl, h.1⟩
  · next hstate =>
      have hmark := h.2 (not_not.mp hstate)
      rw [if_neg (by simp [hmark])]
      exact ⟨rfl, Or.inl (not_not.mp hstate)⟩

theorem keeps_reclaimed (m : Store) (candidate : Bool)
    : Keeps m (m.reclaimed true) (m.traced candidate)
      ∧ (m.traced candidate).Within ((m.reclaimed true).accepted candidate) := by
  have hkeep : ∀ {α : Type} (record : Record α), m.Traces candidate record →
      (record.reclaim true).generation = record.generation
        ∧ (record.reclaim true).body = record.body := by
    intro α record hr
    rw [(reclaim_traced hr).1]
    exact ⟨rfl, rfl⟩
  exact ⟨⟨rfl, fun _ hs => hkeep _ hs, fun _ hs => hkeep _ hs, fun _ hs => hkeep _ hs⟩,
    ⟨fun _ hs => (reclaim_traced hs).2, fun _ hs => (reclaim_traced hs).2,
      fun _ hs => (reclaim_traced hs).2⟩⟩

/-- An incomplete trace only takes its marks back. -/
theorem reclaim_false {α : Type} {record marked : Record α} (h : MarkedRecord record marked)
    (unowned : record.state ≠ .staged → record.owner = 0)
    : marked.reclaim false = record := by
  have hstate := h.fields.1
  by_cases hsealed : record.state = .sealed
  · have howner := unowned (by rw [hsealed]; simp)
    rw [Record.reclaim, if_neg (by rw [hstate]; exact not_not.mpr hsealed), if_neg (by simp)]
    rcases h with rfl | rfl
    · rw [← howner]
    · rw [Record.mark, if_pos hsealed, ← howner]
  · rw [h.staged hsealed, Record.reclaim, if_pos hsealed]

/-- The sweep of a sound record with room. -/
theorem RecordOk.reclaim {α : Type} {record marked : Record α} (h : RecordOk s record)
    (hr : MarkedRecord record marked)
    (room : marked.state = .sealed → marked.owner = 0 → marked.generation ≠ wordMax)
    : RecordOk s (marked.reclaim true) := by
  obtain ⟨hstate, hgeneration, _⟩ := hr.fields
  rw [Record.reclaim]
  split
  · next hne =>
      rw [hstate] at hne
      rw [hr.staged hne]
      exact h
  · next hsealed =>
      have hpositive := h.positive
      have hbounded := h.bounded
      rw [← hgeneration] at hpositive hbounded
      split
      · next hunmarked =>
          have hbump := bump_eq hbounded (room (not_not.mp hsealed) hunmarked.2)
          have := Nat.lt_of_le_of_ne hbounded (room (not_not.mp hsealed) hunmarked.2)
          refine ⟨?_, ?_, by simp, by simp, by simp⟩
          · rw [hbump]
            exact Nat.succ_ne_zero _
          · rw [hbump]
            exact this
      · exact ⟨hpositive, hbounded, by simp [not_not.mp hsealed], fun _ => rfl,
          by simp [not_not.mp hsealed]⟩

-- Retirement

/-- What a retirement has checked before it writes. -/
structure Retires (s : Store) (slot generation : Nat) : Prop where
  root : s.RootValid slot generation
  notBase : ¬(s.candidate.state = .live ∧ s.candidate.baseSlot = slot
    ∧ s.candidate.baseGeneration = generation)
  room : generation ≠ wordMax

theorem checkRetirement_ok {command : Command}
    (ok : checkRetirement s command receipt = .ok ())
    : Retires s command.slot command.generation := by
  rw [checkRetirement] at ok
  obtain ⟨_, hroot, ok⟩ := bind_eq_ok.mp ok
  obtain ⟨_, _, ok⟩ := bind_eq_ok.mp ok
  obtain ⟨hinactive, ok⟩ := refuseIf_bind_eq_ok.mp ok
  obtain ⟨hroom, _⟩ := refuseIf_bind_eq_ok.mp ok
  rw [not_or, not_or] at hinactive
  have hvalid := ends_ok (@validateRoot_ends s command.slot command.generation receipt) hroot
  exact ⟨hvalid, hinactive.2.2, hroom⟩

theorem markRetirement_ok (h : Sound digests s) {slot : Nat}
    (done : (markRetirement s slot receipt).2 = none)
    : Retained digests s (markRetirement s slot receipt).1 slot
      ∧ Reclaimable (markRetirement s slot receipt).1 := by
  have hretained := @traceRetirementRoots_retained digests s receipt h slot
  rw [markRetirement] at done ⊢
  split at done
  · simp at done
  · next m heq =>
      rw [heq] at hretained
      split at done
      · simp at done
      · next hreclaim =>
          exact ⟨hretained rfl, reclaimable_of_ok hreclaim⟩

theorem markRetirement_marked (slot : Nat) (receipt : Receipt) (s : Store)
    : Marked s (markRetirement s slot receipt).1 := by
  have hmarked := traceRetirementRoots_marked (some slot) true receipt s
  rw [markRetirement]
  split
  · next heq =>
      rw [heq] at hmarked
      exact hmarked
  · next heq =>
      rw [heq] at hmarked
      split <;> exact hmarked

/-- The store after a retirement whose trace left the marks of `m`. -/
def Store.retired (m : Store) (slot : Nat) : Store :=
  { m.reclaimed true with
    roots := Function.update m.roots slot
      { m.roots slot with state := .free, generation := bump (m.roots slot).generation }
    rootHeads := Function.update m.rootHeads slot fun _ => 0 }

theorem retireRoot_eq (digests : Digests) (h : Sound digests s) (command : Command)
    (receipt : Receipt)
    : (retireRoot s command receipt).1 = s
      ∨ (∃ m, Marked s m ∧ (retireRoot s command receipt).1 = m.reclaimed false)
      ∨ ∃ m, Retires s command.slot command.generation ∧ Retained digests s m command.slot
        ∧ Reclaimable m ∧ (retireRoot s command receipt).1 = m.retired command.slot := by
  have hmarked := markRetirement_marked command.slot receipt s
  have hretained := @markRetirement_ok digests s receipt h command.slot
  rw [retireRoot]
  split
  · exact Or.inl rfl
  · next hcheck =>
      split
      · next m _ heq =>
          rw [heq] at hmarked
          exact Or.inr (Or.inl ⟨m, hmarked, rfl⟩)
      · next m heq =>
          rw [heq] at hretained
          exact Or.inr (Or.inr ⟨m, checkRetirement_ok hcheck, (hretained rfl).1, (hretained rfl).2,
            rfl⟩)

/-- Taking marks back is sound. -/
theorem reclaimed_false_sound (h : Sound digests s) (marked : Marked s m)
    : Sound digests (m.reclaimed false) := by
  have hcandidate : (m.reclaimed false).candidate = s.candidate := marked.sameCandidate
  have hcapacities : (m.reclaimed false).capacities = s.capacities := marked.capacities
  have hroots := marked.roots
  have hrecord : ∀ {α : Type} (record : Record α), RecordOk s record →
      RecordOk (m.reclaimed false) record :=
    fun _ hr => hr.frame (by rw [hcandidate]) (by rw [hcandidate])
  have hkeep : ∀ {α : Type} {record marked : Record α}, MarkedRecord record marked →
      (marked.reclaim false).state = record.state
        ∧ (marked.reclaim false).generation = record.generation
        ∧ (marked.reclaim false).body = record.body := by
    intro α record marked hr
    rw [← hr.fields.1, ← hr.fields.2.1, ← hr.fields.2.2, Record.reclaim]
    split
    · exact ⟨rfl, rfl, rfl⟩
    · rw [if_neg (by simp)]
      exact ⟨rfl, rfl, rfl⟩
  have haccepts : ∀ {α : Type} {record marked : Record α} (candidate : Bool),
      MarkedRecord record marked → s.Accepts candidate record →
      (m.reclaimed false).Accepts candidate (marked.reclaim false) := by
    intro α record marked candidate hr hrecord
    rcases hrecord with hsealed | ⟨hcandidate', hstaged⟩
    · exact Or.inl ((hkeep hr).1.trans hsealed)
    · have hstate : record.state ≠ .sealed := by rw [hstaged.1]; simp
      refine Or.inr ⟨hcandidate', ?_⟩
      rw [hr.staged hstate, Record.reclaim, if_pos hstate, hcandidate]
      exact hstaged
  have hkeeps : ∀ candidate, Keeps s (m.reclaimed false) (s.accepted candidate)
      ∧ (s.accepted candidate).Within ((m.reclaimed false).accepted candidate) := by
    intro candidate
    exact ⟨⟨hcapacities, fun slot _ => (hkeep (marked.statement slot)).2,
        fun slot _ => (hkeep (marked.support slot)).2,
        fun slot _ => (hkeep (marked.version slot)).2⟩,
      ⟨fun slot hs => haccepts _ (marked.statement slot) hs,
        fun slot hs => haccepts _ (marked.support slot) hs,
        fun slot hs => haccepts _ (marked.version slot) hs⟩⟩
  refine ⟨?_, ?_, ?_, ?_, ?_, ?_, ?_, ?_, ?_, ?_⟩
  · rw [hcapacities]
    exact h.capacities
  · change m.control.magic = _
    rw [marked.sameControl]
    exact h.magic
  · change m.control.capacities = m.capacities ∧ m.control.arenaWords = m.capacities.arenaWords
    rw [marked.sameControl, marked.capacities]
    exact h.laidOut
  · intro slot hslot
    rw [hcapacities] at hslot
    change RecordOk _ ((m.statements slot).reclaim false)
    rw [reclaim_false (marked.statement slot) (h.statement slot hslot).unowned]
    exact hrecord _ (h.statement slot hslot)
  · intro slot hslot
    rw [hcapacities] at hslot
    change RecordOk _ ((m.supports slot).reclaim false)
    rw [reclaim_false (marked.support slot) (h.support slot hslot).unowned]
    exact hrecord _ (h.support slot hslot)
  · intro slot hslot
    rw [hcapacities] at hslot
    change RecordOk _ ((m.versions slot).reclaim false)
    rw [reclaim_false (marked.version slot) (h.version slot hslot).unowned]
    exact hrecord _ (h.version slot hslot)
  · intro slot hslot
    rw [hcapacities] at hslot
    exact (h.root slot hslot).frame (congrFun hroots.1 slot) (congrFun hroots.2 slot)
      (hkeeps false).1 (hkeeps false).2
  · rw [hcandidate]
    exact h.generation
  · rw [hcandidate]
    exact h.state
  · rw [hcandidate]
    intro hlive
    obtain ⟨hretirable, hbase, hview⟩ := h.live hlive
    have hheads : (m.reclaimed false).candidateHeads = s.candidateHeads := marked.sameHeads
    constructor
    · rw [hcandidate]
      exact hretirable
    · rw [hcandidate]
      refine ⟨?_, ?_, ?_⟩
      · rw [hcapacities]
        exact hbase.inRoots
      · change (m.roots _).generation = _
        rw [hroots.1]
        exact hbase.generation
      · change (m.roots _).state = _
        rw [hroots.1]
        exact hbase.isSealed
    · rw [hcandidate, hheads]
      exact hview.frame (hkeeps true).1 (hkeeps true).2

/-- Chains over traced records survive the sweep. -/
theorem Heads.reclaimed {heads : Nat → Nat} {newer slot : Nat}
    (h : Heads digests m (m.traced candidate) heads newer)
    : Heads digests (m.retired slot) ((m.retired slot).accepted candidate) heads newer := by
  obtain ⟨keeps, within⟩ := keeps_reclaimed m candidate
  have keeps' : Keeps m (m.retired slot) (m.traced candidate) :=
    ⟨keeps.capacities, keeps.statement, keeps.support, keeps.version⟩
  exact (h.frame keeps').mono ⟨within.statement, within.support, within.version⟩ (Nat.le_refl _)

/-- A complete retirement is sound: what the other views use was traced. -/
theorem retired_sound (h : Sound digests s) {slot generation : Nat}
    (retires : Retires s slot generation) (retained : Retained digests s m slot)
    (reclaimable : Reclaimable m)
    : Sound digests (m.retired slot) := by
  have marked := retained.marked
  have hcandidate : (m.retired slot).candidate = s.candidate := marked.sameCandidate
  have hcapacities : (m.retired slot).capacities = s.capacities := marked.capacities
  have hroots := marked.roots
  have hroot : ∀ other, other ≠ slot → (m.retired slot).roots other = s.roots other := by
    intro other hne
    rw [← hroots.1]
    exact Function.update_of_ne hne _ _
  have hrecord : ∀ {α : Type} (record : Record α), RecordOk s record →
      RecordOk (m.retired slot) record :=
    fun _ hr => hr.frame (by rw [hcandidate]) (by rw [hcandidate])
  refine ⟨?_, ?_, ?_, ?_, ?_, ?_, ?_, ?_, ?_, ?_⟩
  · rw [hcapacities]
    exact h.capacities
  · change m.control.magic = _
    rw [marked.sameControl]
    exact h.magic
  · change m.control.capacities = m.capacities ∧ m.control.arenaWords = m.capacities.arenaWords
    rw [marked.sameControl, marked.capacities]
    exact h.laidOut
  · intro other hother
    exact hrecord _ ((h.statement other (by rwa [← hcapacities])).reclaim (marked.statement other)
      (reclaimable.statement other hother))
  · intro other hother
    exact hrecord _ ((h.support other (by rwa [← hcapacities])).reclaim (marked.support other)
      (reclaimable.support other hother))
  · intro other hother
    exact hrecord _ ((h.version other (by rwa [← hcapacities])).reclaim (marked.version other)
      (reclaimable.version other hother))
  · intro other hother
    rw [hcapacities] at hother
    by_cases heq : other = slot
    · subst heq
      have hgeneration := retires.root.generation
      have hbounded := (h.root other hother).bounded
      have hbump := bump_eq hbounded (by rw [hgeneration]; exact retires.room)
      have hfree : (m.retired other).roots other
          = { s.roots other with state := .free, generation := bump (s.roots other).generation } := by
        rw [← hroots.1]
        exact Function.update_self _ _ _
      have := retires.room
      refine ⟨?_, ?_, ?_⟩
      · rw [hfree, hbump]
        change (s.roots other).generation + 1 ≤ wordMax
        omega
      · rw [hfree]
        exact Or.inl rfl
      · rw [hfree]
        simp
    · have hok := h.root other hother
      have hheads : (m.retired slot).rootHeads other = s.rootHeads other := by
        rw [← hroots.2]
        exact Function.update_of_ne heq _ _
      refine ⟨?_, ?_, ?_⟩
      · rw [hroot other heq]
        exact hok.bounded
      · rw [hroot other heq]
        exact hok.state
      · rw [hroot other heq, hheads]
        intro hsealed
        exact ⟨(hok.view hsealed).bounded, (retained.root other hother hsealed heq).reclaimed⟩
  · rw [hcandidate]
    exact h.generation
  · rw [hcandidate]
    exact h.state
  · rw [hcandidate]
    intro hlive
    obtain ⟨hretirable, hbase, hview⟩ := h.live hlive
    have hheads : (m.retired slot).candidateHeads = s.candidateHeads := marked.sameHeads
    have hne : s.candidate.baseSlot ≠ slot := by
      intro heq
      have hgeneration := hbase.generation
      rw [heq, retires.root.generation] at hgeneration
      exact retires.notBase ⟨hlive, heq, hgeneration.symm⟩
    constructor
    · rw [hcandidate]
      exact hretirable
    · rw [hcandidate]
      refine ⟨?_, ?_, ?_⟩
      · rw [hcapacities]
        exact hbase.inRoots
      · rw [hroot _ hne]
        exact hbase.generation
      · rw [hroot _ hne]
        exact hbase.isSealed
    · rw [hcandidate, hheads]
      exact ⟨hview.bounded, (retained.candidate hlive).reclaimed⟩

theorem retireRoot_sound (h : Sound digests s) (command : Command) (receipt : Receipt)
    : Sound digests (retireRoot s command receipt).1 := by
  rcases retireRoot_eq digests h command receipt with
    heq | ⟨m, marked, heq⟩ | ⟨m, retires, retained, reclaimable, heq⟩
  · rw [heq]
    exact h
  · rw [heq]
    exact reclaimed_false_sound h marked
  · rw [heq]
    exact retired_sound h retires retained reclaimable

end

end Xlog.Cuda.SemanticGraph
