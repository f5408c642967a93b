import Xlog.Cuda.SemanticRun

/-! Lanes of the semantic store: a candidate over a base takes free slots in their order, adds its
events to what the base holds, and ends as a root of its own or with the base restored.
-/

namespace Xlog.Cuda.SemanticGraph

open Xlog.Foundation

-- Tables of a lane

/-- Free slots by the records of a table. -/
def freeRecords {α : Type} (records : Nat → Record α) (capacity : Nat) : List Nat :=
  freeSlots (fun slot => (records slot).state) capacity

/-- A lane stages free records in their order and keeps the others. -/
structure LaneTable {α : Type} (base records : Nat → Record α) (capacity owner used : Nat)
    : Prop where
  free : freeRecords records capacity = (freeRecords base capacity).drop used
  slot
    : ∀ slot, slot < capacity → records slot = base slot
      ∨ ((base slot).state = .free ∧ (records slot).stagedBy owner
        ∧ (records slot).generation = (base slot).generation)

/-- A table with some of the slots of a lane taken. -/
def TakenTable {α : Type} (base records : Nat → Record α) (capacity owner count : Nat) : Prop :=
  ∃ used, used ≤ count ∧ LaneTable base records capacity owner used

section

variable {α : Type} {base records : Nat → Record α} {capacity owner used count slot : Nat}

theorem mem_freeSlots {state : Nat → RecordState}
    : slot ∈ freeSlots state capacity ↔ slot < capacity ∧ state slot = .free := by
  simp [freeSlots]

theorem mem_freeRecords : slot ∈ freeRecords records capacity ↔ slot < capacity
    ∧ (records slot).state = .free :=
  mem_freeSlots

theorem freeSlots_congr {state state' : Nat → RecordState}
    (same : ∀ slot, slot < capacity → (state slot = .free ↔ state' slot = .free))
    : freeSlots state capacity = freeSlots state' capacity := by
  refine List.filter_congr fun slot hslot => ?_
  simp [same slot (List.mem_range.mp hslot)]

/-- Taking the first free slot leaves the others. -/
theorem freeSlots_take {state state' : Nat → RecordState}
    (found : findFree state capacity = some slot) (taken : state' slot ≠ .free)
    (rest : ∀ other, other ≠ slot → state' other = state other)
    : freeSlots state' capacity = (freeSlots state capacity).drop 1 := by
  have hnodup : (freeSlots state capacity).Nodup := List.nodup_range.filter _
  have hfilter : freeSlots state' capacity
      = (freeSlots state capacity).filter fun other => other ≠ slot := by
    rw [freeSlots, freeSlots, List.filter_filter]
    refine List.filter_congr fun other _ => ?_
    by_cases heq : other = slot
    · simp [heq, taken]
    · simp [heq, rest other heq]
  rw [← freeSlots_head?] at found
  obtain ⟨others, hothers⟩ := List.head?_eq_some_iff.mp found
  rw [hothers] at hnodup
  rw [hfilter, hothers, List.filter_cons_of_neg (by simp), List.drop_one, List.tail_cons]
  refine List.filter_eq_self.mpr fun other hmem => ?_
  have hne : other ≠ slot := fun heq => (List.nodup_cons.mp hnodup).1 (heq ▸ hmem)
  simpa using hne

theorem LaneTable.refl (base : Nat → Record α) (capacity owner : Nat)
    : LaneTable base base capacity owner 0 :=
  ⟨(List.drop_zero).symm, fun _ _ => Or.inl rfl⟩

theorem LaneTable.stage (h : LaneTable base records capacity owner used)
    (found : SemanticGraph.findFree (fun i => (records i).state) capacity = some slot) (body : α)
    : LaneTable base
        (Function.update records slot { records slot with state := .staged, owner, body })
        capacity owner (used + 1) := by
  obtain ⟨hslot, hfree, _⟩ := findFree_some found
  constructor
  · have hrest := @freeSlots_take capacity slot _ (fun i => ((Function.update records slot
        { records slot with state := .staged, owner, body }) i).state) found
      (by simp) (fun other hne => by simp [Function.update_of_ne hne])
    change freeSlots _ _ = _
    rw [hrest]
    change (freeRecords records capacity).drop 1 = _
    rw [h.free, List.drop_drop]
  · intro other hother
    by_cases heq : other = slot
    · subst heq
      rw [Function.update_self]
      rcases h.slot other hother with hsame | ⟨_, hstaged, _⟩
      · rw [hsame] at hfree ⊢
        exact Or.inr ⟨hfree, ⟨rfl, rfl⟩, rfl⟩
      · rw [hstaged.1] at hfree
        exact absurd hfree (by simp)
    · rw [Function.update_of_ne heq]
      exact h.slot other hother

theorem TakenTable.mono (h : TakenTable base records capacity owner count)
    : TakenTable base records capacity owner (count + 1) := by
  obtain ⟨used, hle, htable⟩ := h
  exact ⟨used, Nat.le_succ_of_le hle, htable⟩

theorem TakenTable.stage (h : TakenTable base records capacity owner count)
    (found : findFree (fun i => (records i).state) capacity = some slot) (body : α)
    : TakenTable base
        (Function.update records slot { records slot with state := .staged, owner, body })
        capacity owner (count + 1) := by
  obtain ⟨used, hle, htable⟩ := h
  exact ⟨used + 1, Nat.succ_le_succ hle, htable.stage found body⟩

end

-- Commands that succeed

section

variable {digests : Digests} {s : Store} {command : Command} {receipt : Receipt} {owner : Nat}

theorem validateControl_ends
    : Ends receipt.Refusal (fun _ => s.control.owner = owner)
        (validateControl s owner command receipt) := by
  rw [validateControl]
  refine (refuseIf_ends (refusal_fail (by simp))).bind fun _ howner => ?_
  refine (refuseIf_ends (refusal_fail (by simp))).bind fun _ _ => ?_
  refine (refuseIf_ends (refusal_fail (by simp))).mono fun _ _ => ?_
  rw [not_or] at howner
  exact not_not.mp howner.2

theorem validateControl_ok (h : Sound digests s) (hcontrol : s.control.owner = owner)
    (hcommand : command.owner = owner)
    : validateControl s owner command receipt = .ok () := by
  rw [validateControl, refuseIf_ok (by simp [h.magic, hcontrol]), ok_bind,
    refuseIf_ok (by simp [h.laidOut.1, h.laidOut.2]), ok_bind, refuseIf_ok (by simp [hcommand])]

theorem refuseExhausted_ok {α : Type} {records : Nat → Record α} {kind capacity owner : Nat}
    (room : ∀ slot, slot < capacity → (records slot).state = .staged
      → (records slot).generation ≠ wordMax)
    : refuseExhausted records kind capacity owner receipt = .ok () := by
  have hnone : findExhausted records capacity owner = none := by
    rw [findExhausted, List.find?_eq_none]
    intro slot hslot hexhausted
    obtain ⟨hstaged, hlast⟩ := of_decide_eq_true hexhausted
    exact room slot (List.mem_range.mp hslot) hstaged.1 hlast
  rw [refuseExhausted, hnone]

/-- A live candidate of a sound store can be discarded. -/
theorem discard_ok (h : Sound digests s)
    (candidate : s.CandidateValid command.slot command.generation)
    : ∃ result, discard s command receipt = .ok result := by
  have hretirable := (h.live candidate.live).retirable
  rw [discard, validateCandidate_ok candidate, ok_bind, preflightDiscard,
    preflightCandidateRetirement, refuseIf_ok hretirable, ok_bind]
  dsimp only
  rw [refuseExhausted_ok fun slot hslot hstaged => ((h.statement slot hslot).staged hstaged).2.2,
    ok_bind,
    refuseExhausted_ok fun slot hslot hstaged => ((h.support slot hslot).staged hstaged).2.2,
    ok_bind,
    refuseExhausted_ok fun slot hslot hstaged => ((h.version slot hslot).staged hstaged).2.2,
    ok_bind]
  exact ⟨_, rfl⟩

/-- A live candidate can be sealed when a root is free and its digest is that of its content. -/
theorem sealCandidate_ok (h : Sound digests s)
    (candidate : s.CandidateValid command.slot command.generation)
    (digest : s.Unchanged
      → s.candidate.extents.digest = (s.roots s.candidate.baseSlot).extents.digest)
    (root : ∃ slot, findFree (fun i => (s.roots i).state) s.capacities.roots = some slot)
    : ∃ result, sealCandidate s command receipt = .ok result := by
  obtain ⟨hretirable, hbase, _⟩ := h.live candidate.live
  obtain ⟨rootSlot, hroot⟩ := root
  obtain ⟨⟨after, discarded⟩, hdiscard⟩ := @discard_ok digests s command receipt h candidate
  rw [sealCandidate, validateCandidate_ok candidate, ok_bind, preflightCandidateRetirement,
    refuseIf_ok hretirable, ok_bind]
  dsimp only
  rw [validateRoot_ok hbase, ok_bind]
  by_cases hsame : s.Unchanged
  · rw [if_pos (show _ ∧ _ ∧ _ from hsame), refuseIf_ok (not_not.mpr (digest hsame)), ok_bind,
      hdiscard, ok_bind]
    exact ⟨_, rfl⟩
  · rw [if_neg (show ¬(_ ∧ _ ∧ _) from hsame), hroot]
    exact ⟨_, rfl⟩

theorem forkRoot_ok (root : s.RootValid command.slot command.generation)
    (free : s.candidate.state = .free) (retirable : s.candidate.generation ≠ wordMax)
    : ∃ result, forkRoot s command receipt = .ok result := by
  rw [forkRoot, validateRoot_ok root, ok_bind, refuseIf_ok (not_not.mpr free), ok_bind,
    preflightCandidateRetirement, refuseIf_ok retirable, ok_bind]
  exact ⟨_, rfl⟩

end

-- Editing

/-- A candidate over a root of a base store, after insertions of the events. -/
structure Editing (digests : Digests) (base s : Store) (slot : Nat) (done : List Event)
    : Prop where
  sound : Sound digests s
  live : s.candidate.state = .live
  generation : s.candidate.generation = base.candidate.generation
  baseSlot : s.candidate.baseSlot = slot
  baseGeneration : s.candidate.baseGeneration = (base.roots slot).generation
  control : s.control = base.control
  capacities : s.capacities = base.capacities
  roots : s.roots = base.roots ∧ s.rootHeads = base.rootHeads
  statements
    : TakenTable base.statements s.statements base.capacities.statements base.candidate.generation
        done.length
  supports
    : TakenTable base.supports s.supports base.capacities.supports base.candidate.generation
        done.length
  versions
    : TakenTable base.versions s.versions base.capacities.versions base.candidate.generation
        done.length
  contents
    : ∀ event, s.Holds s.candidateHeads event
        ↔ base.Holds (base.rootHeads slot) event ∨ event ∈ done
  added
    : (s.candidate.extents = (base.roots slot).extents
        ∧ ∀ event ∈ done, base.Holds (base.rootHeads slot) event)
      ∨ ((base.roots slot).extents.supports < s.candidate.extents.supports
        ∧ ∃ event ∈ done, ¬base.Holds (base.rootHeads slot) event)

/-- The record again, or a free record with a generation and words that are left over. -/
def RestoredRecord {α : Type} (record restored : Record α) : Prop :=
  restored = record
    ∨ (record.state = .free ∧ record.generation ≤ restored.generation
      ∧ restored = { record with generation := restored.generation, body := restored.body })

/-- A store as it was, up to what is left over in free records and in the candidate. -/
structure Restored (s restored : Store) : Prop where
  capacities : restored.capacities = s.capacities
  control : restored.control = s.control
  roots : restored.roots = s.roots ∧ restored.rootHeads = s.rootHeads
  candidate : restored.candidate.state = s.candidate.state
  statement
    : ∀ slot, slot < s.capacities.statements
      → RestoredRecord (s.statements slot) (restored.statements slot)
  support
    : ∀ slot, slot < s.capacities.supports
      → RestoredRecord (s.supports slot) (restored.supports slot)
  version
    : ∀ slot, slot < s.capacities.versions
      → RestoredRecord (s.versions slot) (restored.versions slot)

/-- A store with one more root, which holds the events over those of its base. -/
structure NewRoot (s after : Store) (baseSlot rootSlot : Nat) (events : List Event) : Prop where
  capacities : after.capacities = s.capacities
  control : after.control = s.control
  candidate : after.candidate.state = .free
  free : (s.roots rootSlot).state = .free
  root : after.RootValid rootSlot (s.roots rootSlot).generation
  base : (after.roots rootSlot).base = baseSlot
  others
    : ∀ slot, slot ≠ rootSlot
      → after.roots slot = s.roots slot ∧ after.rootHeads slot = s.rootHeads slot
  contents
    : ∀ event, after.Holds (after.rootHeads rootSlot) event
        ↔ s.Holds (s.rootHeads baseSlot) event ∨ event ∈ events
  statement
    : ∀ slot, slot < s.capacities.statements → (s.statements slot).state ≠ .free
      → after.statements slot = s.statements slot
  support
    : ∀ slot, slot < s.capacities.supports → (s.supports slot).state ≠ .free
      → after.supports slot = s.supports slot
  version
    : ∀ slot, slot < s.capacities.versions → (s.versions slot).state ≠ .free
      → after.versions slot = s.versions slot

section

variable {digests : Digests} {base s : Store} {slot : Nat} {command : Command} {receipt : Receipt}
  {done : List Event}

/-- A fork starts with what the root holds. -/
theorem Forks.editing {result : Store × Receipt} (h : Sound digests base)
    (forks : Forks base command receipt result)
    : Editing digests base result.1 command.slot [] := by
  have hsound := forks.sound h
  have hview := (h.root _ forks.root.inRoots).view forks.root.isSealed
  rw [forks.store] at hsound ⊢
  exact {
    sound := hsound
    live := rfl
    generation := rfl
    baseSlot := rfl
    baseGeneration := rfl
    control := rfl
    capacities := rfl
    roots := ⟨rfl, rfl⟩
    statements := ⟨0, Nat.le_refl 0, .refl _ _ _⟩
    supports := ⟨0, Nat.le_refl 0, .refl _ _ _⟩
    versions := ⟨0, Nat.le_refl 0, .refl _ _ _⟩
    contents := fun event => by
      rw [List.mem_nil_iff, or_false]
      exact hview.lineage.holds_frame (keeps_forked base command.slot).1
    added := Or.inl ⟨rfl, by simp⟩
  }

/-- An attached support takes the next slots and is a new event. -/
theorem Editing.attach {a : Attachment} (h : Editing digests base s slot done)
    (attaches : Attaches s command a)
    (absent : ¬s.Holds s.candidateHeads (command.statement, command.support))
    : Editing digests base (attach digests s command a) slot
        ((command.statement, command.support) :: done) := by
  have hview := (h.sound.live h.live).view
  obtain ⟨_, hsupports, _⟩ := @attach_extents digests s command a attaches hview.bounded
  have hfree := attaches.fresh
  have hsupport := attaches.support
  have hversion := attaches.version
  rw [h.capacities] at hfree hsupport hversion
  have hcontents := h.contents (command.statement, command.support)
  refine {
    sound := attach_sound h.sound h.live attaches
    live := h.live
    generation := h.generation
    baseSlot := h.baseSlot
    baseGeneration := h.baseGeneration
    control := h.control
    capacities := h.capacities
    roots := h.roots
    statements := ?_
    supports := ?_
    versions := ?_
    contents := fun event => ?_
    added := Or.inr ⟨?_, _, List.mem_cons_self, fun hbase => absent (hcontents.mpr (Or.inl hbase))⟩
  }
  · have htable := h.statements
    change TakenTable _ (if a.newStatement = true then _ else _) _ _ _
    split
    · next hnew =>
        rw [← h.generation] at htable ⊢
        exact htable.stage (hfree hnew).1 _
    · exact htable.mono
  · have htable := h.supports
    rw [← h.generation] at htable ⊢
    exact htable.stage hsupport _
  · have htable := h.versions
    rw [← h.generation] at htable ⊢
    exact htable.stage hversion _
  · rw [attach_holds attaches hview, h.contents, List.mem_cons, or_assoc, or_comm (a := event ∈ done)]
  · rw [hsupports]
    rcases h.added with ⟨heq, _⟩ | ⟨hlt, _⟩
    · rw [heq]
      exact Nat.lt_succ_self _
    · exact Nat.lt_succ_of_lt hlt

theorem Editing.insert {result : Store × Receipt} (h : Editing digests base s slot done)
    (inserts : Inserts digests s command receipt result)
    : Editing digests base result.1 slot ((command.statement, command.support) :: done) := by
  rcases inserts.outcome with ⟨_, heq, hholds⟩ | ⟨_, habsent, a, attaches, heq⟩
  · have hcontents := (h.contents _).mp hholds
    rw [heq]
    refine { h with
      statements := h.statements.mono
      supports := h.supports.mono
      versions := h.versions.mono
      contents := fun event => ?_
      added := ?_ }
    · rw [h.contents, List.mem_cons]
      constructor
      · rintro (hbase | hmem)
        · exact Or.inl hbase
        · exact Or.inr (Or.inr hmem)
      · rintro (hbase | rfl | hmem)
        · exact Or.inl hbase
        · exact hcontents
        · exact Or.inr hmem
    · rcases h.added with ⟨hsame, hall⟩ | ⟨hlt, event, hmem, hnot⟩
      · refine Or.inl ⟨hsame, fun event hmem => ?_⟩
        rcases List.mem_cons.mp hmem with rfl | hmem
        · exact hcontents.elim id fun hmem => hall _ hmem
        · exact hall event hmem
      · exact Or.inr ⟨hlt, event, List.mem_cons_of_mem _ hmem, hnot⟩
  · rw [heq]
    exact h.attach attaches habsent

theorem Editing.candidateValid (h : Editing digests base s slot done)
    : s.CandidateValid 0 base.candidate.generation :=
  ⟨rfl, h.generation, h.live⟩

/-- A candidate counts as much as its base when nothing was new. -/
theorem Editing.unchanged_iff (h : Editing digests base s slot done)
    : s.Unchanged ↔ ∀ event ∈ done, base.Holds (base.rootHeads slot) event := by
  rw [Store.Unchanged, h.baseSlot, h.roots.1]
  rcases h.added with ⟨heq, hall⟩ | ⟨hlt, event, hmem, hnot⟩
  · rw [heq]
    exact ⟨fun _ => hall, fun _ => ⟨rfl, rfl, rfl⟩⟩
  · constructor
    · rintro ⟨_, heq, _⟩
      omega
    · exact fun hall => absurd (hall event hmem) hnot

/-- A candidate that counts as much as its base has its digest. -/
theorem Editing.digest (h : Editing digests base s slot done)
    : s.Unchanged → s.candidate.extents.digest = (s.roots s.candidate.baseSlot).extents.digest := by
  rintro ⟨_, hsupports, _⟩
  rw [h.baseSlot, h.roots.1] at hsupports ⊢
  rcases h.added with ⟨heq, _⟩ | ⟨hlt, _⟩
  · rw [heq]
  · omega

/-- A discarded lane restores its base. -/
theorem Editing.discarded (h : Editing digests base s slot done) (sound : Sound digests base)
    (free : base.candidate.state = .free)
    : Restored base s.discarded := by
  have hrecord : ∀ {α : Type} {table records : Nat → Record α} {capacity : Nat},
      TakenTable table records capacity base.candidate.generation done.length →
      (∀ i, i < capacity → RecordOk base (table i)) →
      (∀ i, i < capacity → RecordOk s (records i)) →
      ∀ i, i < capacity →
        RestoredRecord (table i) ((records i).retire s.candidate.generation) := by
    intro α table records capacity ⟨used, _, htable⟩ hbase hok i hi
    rw [h.generation]
    rcases htable.slot i hi with heq | ⟨hfree, hstaged, hgeneration⟩
    · refine Or.inl ?_
      rw [heq, Record.retire, if_neg]
      exact fun hstaged => (hbase i hi).not_staged free hstaged.1
    · refine Or.inr ⟨hfree, ?_, ?_⟩
      · rw [Record.retire, if_pos hstaged]
        dsimp only
        rw [bump_eq (hok i hi).bounded ((hok i hi).staged hstaged.1).2.2, hgeneration]
        exact Nat.le_succ _
      · have howner := (hbase i hi).unowned (by rw [hfree]; simp)
        rw [Record.retire, if_pos hstaged]
        dsimp only
        rw [hfree, howner]
  exact {
    capacities := h.capacities
    control := h.control
    roots := h.roots
    candidate := free.symm
    statement := hrecord h.statements sound.statement fun i hi =>
      h.sound.statement i (by rwa [h.capacities])
    support := hrecord h.supports sound.support fun i hi =>
      h.sound.support i (by rwa [h.capacities])
    version := hrecord h.versions sound.version fun i hi =>
      h.sound.version i (by rwa [h.capacities])
  }

/-- A sealed lane is one more root. -/
theorem Editing.sealed {rootSlot : Nat} (h : Editing digests base s slot done)
    (sound : Sound digests base) (free : base.candidate.state = .free)
    (found : findFree (fun i => (s.roots i).state) s.capacities.roots = some rootSlot)
    : NewRoot base (s.sealedAt rootSlot) slot rootSlot done := by
  have hview := (h.sound.live h.live).view
  obtain ⟨hin, hfree, _⟩ := findFree_some found
  obtain ⟨hroot, hheads⟩ := sealedAt_root s rootSlot
  have hrecord : ∀ {α : Type} {table records : Nat → Record α} {capacity : Nat},
      TakenTable table records capacity base.candidate.generation done.length →
      (∀ i, i < capacity → RecordOk base (table i)) →
      ∀ i, i < capacity → (table i).state ≠ .free →
        (records i).seal s.candidate.generation = table i := by
    intro α table records capacity ⟨used, _, htable⟩ hbase i hi hused
    rcases htable.slot i hi with heq | ⟨hfree, _⟩
    · rw [heq, Record.seal, if_neg]
      exact fun hstaged => (hbase i hi).not_staged free hstaged.1
    · exact absurd hfree hused
  exact {
    capacities := h.capacities
    control := h.control
    candidate := rfl
    free := by rwa [← h.roots.1]
    root := ⟨hin, by rw [hroot, ← h.roots.1], by rw [hroot]⟩
    base := by
      rw [hroot]
      exact h.baseSlot
    others := fun other hne => by
      rw [(sealedAt_other s hne).1, (sealedAt_other s hne).2, h.roots.1, h.roots.2]
      exact ⟨rfl, rfl⟩
    contents := fun event => by
      rw [hheads, hview.lineage.holds_frame (keeps_sealedAt s rootSlot true).1, h.contents]
    statement := hrecord h.statements sound.statement
    support := hrecord h.supports sound.support
    version := hrecord h.versions sound.version
  }

end

/-- Digests that take the first words of what they hash. -/
def plainDigests : Digests where
  support _ support := support.provenance
  version _ support truth := (support.1, truth, 0, 0)
  root digest version _ _ _ := (digest.1 + 1, version.1, 0, 0)

end Xlog.Cuda.SemanticGraph
