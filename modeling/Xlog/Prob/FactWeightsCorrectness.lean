import Xlog.Foundation.Loop
import Xlog.Prob.FactWeightsLayout

/-! Batches of new fact probabilities are all or nothing: a program that can be used is always the one that
its present probabilities would be compiled to, and a program that cannot be used refuses all that its
handles offer.
-/

namespace Xlog.Prob

open Xlog.Core Xlog.Foundation

section

variable {P L : Type} {ops : FactWeightOps P L}

-- Sources that differ in their probabilities

structure SameFacts (source source' : ExactSource P) : Prop where
  leaves : source'.leaves.map (fun leaf => (leaf.var, leaf.atom))
    = source.leaves.map (fun leaf => (leaf.var, leaf.atom))
  choices : source'.choices = source.choices
  evidence : source'.evidence = source.evidence
  maxVar : source'.maxVar = source.maxVar
  varCap : source'.varCap = source.varCap
  witness : source'.witness = source.witness

theorem SameFacts.refl (source : ExactSource P) : SameFacts source source :=
  ⟨rfl, rfl, rfl, rfl, rfl, rfl⟩

theorem SameFacts.trans {first second third : ExactSource P} (h : SameFacts first second)
    (h' : SameFacts second third)
    : SameFacts first third :=
  ⟨h'.leaves.trans h.leaves, h'.choices.trans h.choices, h'.evidence.trans h.evidence,
    h'.maxVar.trans h.maxVar, h'.varCap.trans h.varCap, h'.witness.trans h.witness⟩

theorem sameFacts_setProb (source : ExactSource P) (position : Nat) (prob : P)
    : SameFacts source (source.setProb position prob) where
  leaves := by
    refine List.ext_getElem? fun other => ?_
    simp only [ExactSource.setProb, List.getElem?_map, List.getElem?_modify]
    cases source.leaves[other]? with
    | none => rfl
    | some leaf => by_cases h : position = other <;> simp [h]
  choices := rfl
  evidence := rfl
  maxVar := rfl
  varCap := rfl
  witness := rfl

-- The cells of a batch

variable (ops) in
/-- The tables of a compiled circuit. -/
def compiledWeights (source : ExactSource P) : WeightCell → L :=
  storeWeights ops (source.witness.cacheSlot * varStride source.varCap) source.maxVar
    (buildWeights ops source)

def slotStart (source : ExactSource P) : Nat := source.witness.cacheSlot * varStride source.varCap

variable (ops) in
theorem compiledWeights_cell (source : ExactSource P) {var : Nat} (hvar : var ≤ source.maxVar)
    : compiledWeights ops source (.logTrue, slotStart source + var) = (buildWeights ops source var).1
      ∧ compiledWeights ops source (.logFalse, slotStart source + var)
        = (buildWeights ops source var).2 := by
  simp [compiledWeights, storeWeights, slotStart, hvar]

/-- A change writes two cells of its circuit. -/
theorem Located.writeAll {source : ExactSource P} {change : FactWeightChange P} {position : Nat}
    (h : Located source change position)
    : Foundation.writeAll (compiledWeights ops source)
        (changeWrites ops (slotStart source) FactWeightChange.newProb [change])
      = compiledWeights ops (source.setProb position change.newProb) := by
  obtain ⟨leaf, hleaf, hvar⟩ := h.leaf
  have hset : (source.setProb position change.newProb).leaves[position]?
      = some { leaf with prob := change.newProb } := by
    simp only [ExactSource.setProb, List.getElem?_modify, hleaf]
    simp
  have hnew : Prob.buildWeights ops (source.setProb position change.newProb) change.var
      = factLogWeights ops change.newProb change.evidence :=
    (h.setProb h change.newProb).buildWeights hset
  have hrange : change.var ≤ (source.setProb position change.newProb).maxVar := h.range
  have hcells := compiledWeights_cell ops (source.setProb position change.newProb) hrange
  rw [hnew] at hcells
  funext cell
  obtain ⟨table, index⟩ := cell
  by_cases hcell : index = slotStart source + change.var
  · subst hcell
    cases table with
    | logTrue => exact (by simp [changeWrites, Foundation.writeAll]
        : _ = _).trans hcells.1.symm
    | logFalse => exact (by simp [changeWrites, Foundation.writeAll]
        : _ = _).trans hcells.2.symm
  · have hother : Foundation.writeAll (compiledWeights ops source)
        (changeWrites ops (slotStart source) FactWeightChange.newProb [change]) (table, index)
        = compiledWeights ops source (table, index) := by
      simp [changeWrites, Foundation.writeAll, hcell]
    rw [hother]
    change storeWeights ops (slotStart source) source.maxVar _ (table, index)
      = storeWeights ops (slotStart source) source.maxVar _ (table, index)
    simp only [storeWeights]
    split
    · next hrange =>
      have hne : index - slotStart source ≠ change.var := by
        intro heq
        exact hcell (by omega)
      have hsame : Prob.buildWeights ops (source.setProb position change.newProb)
          (index - slotStart source) = Prob.buildWeights ops source (index - slotStart source) :=
        h.buildWeights_setProb_ne change.newProb hne
      rw [hsame]
    · rfl

theorem changeWrites_cons (slotStart : Nat) (prob : FactWeightChange P → P)
    (change : FactWeightChange P) (changes : List (FactWeightChange P))
    : changeWrites ops slotStart prob (change :: changes)
      = changeWrites ops slotStart prob [change] ++ changeWrites ops slotStart prob changes := by
  simp [changeWrites]

/-- The changes of a batch together lead to the program with all its probabilities. -/
theorem exists_source_of_changes (changes : List (FactWeightChange P)) {source : ExactSource P}
    (h : ∀ change ∈ changes, ∃ position, Located source change position)
    : ∃ source', SameFacts source source'
      ∧ writeAll (compiledWeights ops source)
          (changeWrites ops (slotStart source) FactWeightChange.newProb changes)
        = compiledWeights ops source'
      ∧ changes.foldl commitChange (stablePass Prod.fst source.entries)
        = stablePass Prod.fst source'.entries := by
  induction changes generalizing source with
  | nil => exact ⟨source, .refl source, rfl, rfl⟩
  | cons change changes ih =>
    obtain ⟨⟨position, hlocated⟩, hrest⟩ := List.forall_mem_cons.mp h
    have hset : ∀ other ∈ changes,
        ∃ position', Located (source.setProb position change.newProb) other position' := by
      intro other hother
      obtain ⟨position', hother⟩ := hrest other hother
      exact ⟨position', hother.setProb hlocated change.newProb⟩
    obtain ⟨source', hsame, hweights, hentries⟩ := ih hset
    refine ⟨source', (sameFacts_setProb source position change.newProb).trans hsame, ?_, ?_⟩
    · rw [changeWrites_cons, writeAll_append, hlocated.writeAll]
      exact hweights
    · rw [List.foldl_cons, ← hlocated.commitChange]
      exact hentries

theorem changeWrites_cells (slotStart : Nat) (prob prob' : FactWeightChange P → P)
    (changes : List (FactWeightChange P))
    : (changeWrites ops slotStart prob changes).map Prod.fst
      = (changeWrites ops slotStart prob' changes).map Prod.fst := by
  simp [changeWrites, List.map_flatMap]

/-- A rollback that goes through restores the tables, whatever the failed writes have left. -/
theorem rollback_restores {source : ExactSource P} {changes : List (FactWeightChange P)}
    (h : ∀ change ∈ changes, ∃ position, Located source change position
      ∧ ∃ leaf, source.leaves[position]? = some leaf ∧ leaf.prob = change.oldProb)
    {outcomes : DeviceOutcomes L} {damaged : WeightCell → L}
    (hdamaged : (attemptWrites outcomes.writes 0 (compiledWeights ops source)
      (changeWrites ops (slotStart source) FactWeightChange.newProb changes)).1 = damaged)
    : writeAll damaged (changeWrites ops (slotStart source) FactWeightChange.oldProb changes)
        = compiledWeights ops source := by
  subst hdamaged
  refine writeAll_restores ?_ ?_
  · intro write hwrite
    obtain ⟨change, hchange, hwrite⟩ := List.mem_flatMap.mp hwrite
    obtain ⟨position, hlocated, leaf, hleaf, hprob⟩ := h change hchange
    have hcells := compiledWeights_cell ops source hlocated.range
    rw [hlocated.buildWeights hleaf, hprob] at hcells
    rcases List.mem_pair.mp hwrite with rfl | rfl
    · exact hcells.1
    · exact hcells.2
  · intro cell hcell
    refine attemptWrites_elsewhere fun write hwrite heq => ?_
    have hmem : write.1 ∈ (changeWrites ops (slotStart source) FactWeightChange.newProb changes).map
        Prod.fst := List.mem_map_of_mem hwrite
    rw [changeWrites_cells (slotStart source) _ FactWeightChange.oldProb] at hmem
    obtain ⟨old, hold, hsame⟩ := List.mem_map.mp hmem
    exact hcell old hold (heq.trans hsame.symm)

-- The metadata of a batch

theorem commitChange_getElem? (entries : List (Nat × ProbVarInfo P)) (change : FactWeightChange P)
    (position : Nat)
    : (commitChange entries change)[position]?
      = (fun entry => if change.entryIndex = position then setEntryProb change.newProb entry else entry)
          <$> entries[position]? := by
  rw [commitChange, List.getElem?_modify]

theorem setEntryProb_key (prob : P) (entry : Nat × ProbVarInfo P)
    : (setEntryProb prob entry).1 = entry.1 := by
  obtain ⟨var, info⟩ := entry
  cases info <;> rfl

theorem commitChange_key {entries : List (Nat × ProbVarInfo P)} {change : FactWeightChange P}
    {position : Nat} {entry : Nat × ProbVarInfo P}
    (h : (commitChange entries change)[position]? = some entry)
    : ∃ old, entries[position]? = some old ∧ entry.1 = old.1 := by
  rw [commitChange_getElem?] at h
  obtain ⟨old, hold, rfl⟩ := Option.map_eq_some_iff.mp h
  refine ⟨old, hold, ?_⟩
  split
  · exact setEntryProb_key change.newProb old
  · rfl

theorem LastFact.commit_self {entries : List (Nat × ProbVarInfo P)} {change : FactWeightChange P}
    {prob : P} (h : LastFact entries change.var change.entryIndex prob)
    : LastFact (commitChange entries change) change.var change.entryIndex change.newProb where
  entry := by
    obtain ⟨atom, hentry⟩ := h.entry
    refine ⟨atom, ?_⟩
    rw [commitChange_getElem?, hentry]
    simp [setEntryProb]
  later := by
    intro position entry hless hentry
    obtain ⟨old, hold, hkey⟩ := commitChange_key hentry
    exact hkey ▸ h.later position old hless hold

theorem LastFact.commit_other {entries : List (Nat × ProbVarInfo P)} {change : FactWeightChange P}
    {var index : Nat} {prob oldProb : P} (h : LastFact entries var index prob)
    (hchange : LastFact entries change.var change.entryIndex oldProb) (hne : var ≠ change.var)
    : LastFact (commitChange entries change) var index prob where
  entry := by
    obtain ⟨atom, hentry⟩ := h.entry
    obtain ⟨changed, hchanged⟩ := hchange.entry
    have hindex : change.entryIndex ≠ index := by
      rintro rfl
      rw [hentry] at hchanged
      exact hne (congrArg Prod.fst (Option.some.inj hchanged))
    refine ⟨atom, ?_⟩
    rw [commitChange_getElem?, hentry]
    simp [hindex]
  later := by
    intro position entry hless hentry
    obtain ⟨old, hold, hkey⟩ := commitChange_key hentry
    exact hkey ▸ h.later position old hless hold

/-- The changes of a batch, each about the last entry of a variable of its own. -/
structure Batch (entries : List (Nat × ProbVarInfo P)) (changes : List (FactWeightChange P)) : Prop where
  distinct : changes.Pairwise fun left right => left.var ≠ right.var
  last : ∀ change ∈ changes, LastFact entries change.var change.entryIndex change.oldProb

theorem Batch.tail {entries : List (Nat × ProbVarInfo P)} {change : FactWeightChange P}
    {changes : List (FactWeightChange P)} (h : Batch entries (change :: changes))
    : Batch (commitChange entries change) changes where
  distinct := (List.pairwise_cons.mp h.distinct).2
  last := by
    intro other hother
    have hne := (List.pairwise_cons.mp h.distinct).1 other hother
    exact (h.last other (List.mem_cons_of_mem _ hother)).commit_other
      (h.last change List.mem_cons_self) hne.symm

theorem LastFact.foldl_other {changes : List (FactWeightChange P)}
    {entries : List (Nat × ProbVarInfo P)} {var index : Nat} {prob : P}
    (h : LastFact entries var index prob) (hbatch : Batch entries changes)
    (hne : ∀ change ∈ changes, var ≠ change.var)
    : LastFact (changes.foldl commitChange entries) var index prob := by
  induction changes generalizing entries with
  | nil => exact h
  | cons change changes ih =>
    obtain ⟨hchange, hrest⟩ := List.forall_mem_cons.mp hne
    exact ih (h.commit_other (hbatch.last change List.mem_cons_self) hchange) hbatch.tail hrest

/-- After the batch the metadata of every variable in it has the new probability. -/
theorem Batch.foldl_commitChange {changes : List (FactWeightChange P)}
    {entries : List (Nat × ProbVarInfo P)} (h : Batch entries changes)
    : ∀ change ∈ changes,
        LastFact (changes.foldl commitChange entries) change.var change.entryIndex change.newProb := by
  induction changes generalizing entries with
  | nil => simp
  | cons change changes ih =>
    intro other hother
    rcases List.mem_cons.mp hother with rfl | hother
    · have hfirst := (h.last other List.mem_cons_self).commit_self
      exact hfirst.foldl_other h.tail (List.pairwise_cons.mp h.distinct).1
    · exact ih h.tail other hother

-- Compiled programs

def GpuExactState.slotStart (state : GpuExactState L) : Nat :=
  state.witness.cacheSlot * varStride state.varCap

variable (ops) in
/-- The metadata and both weights of a variable are those of a probability. -/
structure HoldsProb (program : ExactDdnnfProgram P L) (var : Nat) (prob : P) : Prop where
  metadata : ∃ atom, program.probVarMap[var]? = some (.fact atom prob)
  weights : ∃ state, program.gpu = some state
    ∧ state.weights (.logTrue, state.slotStart + var)
      = (factLogWeights ops prob (program.fixedEvidenceByVar var)).1
    ∧ state.weights (.logFalse, state.slotStart + var)
      = (factLogWeights ops prob (program.fixedEvidenceByVar var)).2

theorem LastFact.probVarMap {program : ExactDdnnfProgram P L} {var index : Nat} {prob : P}
    (h : LastFact program.probVarEntries var index prob) (hvar : var < program.probVarMap.length)
    : ∃ atom, program.probVarMap[var]? = some (.fact atom prob) := by
  obtain ⟨atom, hentry⟩ := h.entry
  refine ⟨atom, ?_⟩
  have hlast : rposition (fun entry : Nat × ProbVarInfo P => entry.1 = var) program.probVarEntries
      = some index := by
    refine rposition_of_last hentry (by simp) fun position entry hless hfound => ?_
    simpa using h.later position entry hless hfound
  rw [probVarMap_getElem? program hvar, hlast, Option.elim_some, hentry]
  rfl

/-- The tables of a compiled circuit hold what its metadata say. -/
theorem LastFact.holdsProb {source : ExactSource P} {var index : Nat} {prob : P}
    (h : LastFact (stablePass Prod.fst source.entries) var index prob) (hrange : var ≤ source.maxVar)
    (hvar : var < (compileCircuit ops source).probVarMap.length)
    : HoldsProb ops (compileCircuit ops source) var prob := by
  let change : FactWeightChange P := ⟨index, var, prob, prob, source.evidence var⟩
  have hchange : LastFact (stablePass Prod.fst source.entries) change.var change.entryIndex
      change.oldProb := h
  obtain ⟨position, hlocated, leaf, hleaf, hprob⟩ := hchange.located hrange rfl
  refine ⟨LastFact.probVarMap h hvar, _, rfl, ?_⟩
  have hcells := compiledWeights_cell ops source hrange
  rw [hlocated.buildWeights hleaf, hprob] at hcells
  exact hcells

/-- A compiled program has a circuit unless its count is lifted or nothing is asked of a variable. -/
inductive Compilation (P : Type) where
  | circuit (source : ExactSource P)
  | withoutCircuit (usesCountLift : Bool)

variable (ops) in
def Compilation.program : Compilation P → ExactDdnnfProgram P L
  | .circuit source => compileCircuit ops source
  | .withoutCircuit usesCountLift => compileWithoutCircuit usesCountLift

/-- Compilations that differ in the probabilities of their facts. -/
inductive Compilation.Same : Compilation P → Compilation P → Prop
  | circuit {source source' : ExactSource P} (h : SameFacts source source')
      : Same (.circuit source) (.circuit source')
  | withoutCircuit (usesCountLift : Bool)
      : Same (.withoutCircuit usesCountLift) (.withoutCircuit usesCountLift)

theorem Compilation.Same.refl : (compilation : Compilation P) → compilation.Same compilation
  | .circuit source => .circuit (.refl source)
  | .withoutCircuit usesCountLift => .withoutCircuit usesCountLift

theorem Compilation.Same.trans {first second third : Compilation P} (h : first.Same second)
    (h' : second.Same third)
    : first.Same third := by
  cases h with
  | circuit h =>
    cases h' with
    | circuit h' => exact .circuit (h.trans h')
  | withoutCircuit => exact h'

-- One batch

def ExactDdnnfProgram.Usable (program : ExactDdnnfProgram P L) : Prop :=
  program.ensureUsable = .ok ()

variable (ops) in
/-- What a batch makes of a compiled program. -/
inductive Updated (compilation : Compilation P) (updates : FactUpdates P)
    : ExactDdnnfProgram P L × Result Unit → Prop
  | committed (compilation' : Compilation P) (same : compilation.Same compilation')
      (holds : ∀ update ∈ updates.entries,
        HoldsProb ops (compilation'.program ops) update.1 update.2)
      : Updated compilation updates (compilation'.program ops, .ok ())
  | unchanged (error : XlogError)
      : Updated compilation updates (compilation.program ops, .error error)
  | invalidated (program : ExactDdnnfProgram P L) (error : XlogError) (h : ¬ program.Usable)
      : Updated compilation updates (program, .error error)

/-- The changes that a batch is planned into. -/
structure Planned (ops : FactWeightOps P L) (source : ExactSource P) (updates : FactUpdates P)
    (changes : List (FactWeightChange P)) : Prop where
  batch : Batch (stablePass Prod.fst source.entries) changes
  range : ∀ change ∈ changes, change.var ≤ source.maxVar
    ∧ change.var < (compileCircuit ops source).probVarMap.length
    ∧ change.evidence = source.evidence change.var
  updates : ∀ update ∈ updates.entries,
    ∃ change ∈ changes, change.var = update.1 ∧ change.newProb = update.2

theorem planned_of_mapM {source : ExactSource P} {updates : FactUpdates P}
    {changes : List (FactWeightChange P)}
    (h : updates.entries.mapM
        (planChange ops (compileCircuit ops source) (compileCircuit ops source).probVarMap)
      = .ok changes)
    : Planned ops source updates changes := by
  have hplans := forall₂_of_mapM h
  have hplan {change : FactWeightChange P} (hchange : change ∈ changes)
      : ∃ update, planChange ops (compileCircuit ops source)
          (compileCircuit ops source).probVarMap update = .ok change := by
    obtain ⟨update, -, hupdate⟩ := exists_of_mem_mapM h hchange
    exact ⟨update, hupdate⟩
  refine ⟨⟨?_, fun change hchange => ?_⟩, fun change hchange => ?_, fun update hupdate => ?_⟩
  · have hvars : changes.map FactWeightChange.var = updates.entries.map Prod.fst := by
      have hsame : List.Forall₂ (fun update change => change.var = update.1) updates.entries changes :=
        hplans.imp fun _ _ hupdate => (planChange_ok hupdate).1
      rw [← List.forall₂_eq_eq_eq, List.forall₂_map_left_iff, List.forall₂_map_right_iff]
      exact hsame.flip
    have hsorted : (changes.map FactWeightChange.var).Pairwise (· < ·) := by
      rw [hvars]
      exact List.pairwise_map.mpr updates.sorted
    exact (List.pairwise_map.mp hsorted).imp Nat.ne_of_lt
  · obtain ⟨update, hupdate⟩ := hplan hchange
    exact (planChange_ok hupdate).2.2.2.2.2.2
  · obtain ⟨update, hupdate⟩ := hplan hchange
    obtain ⟨-, -, hrange, hlength, hevidence, -⟩ := planChange_ok hupdate
    exact ⟨hrange, hlength, hevidence⟩
  · obtain ⟨change, hchange, hplanned⟩ := exists_result_of_mapM h hupdate
    obtain ⟨hvar, hprob, -⟩ := planChange_ok hplanned
    exact ⟨change, hchange, hvar, hprob⟩

theorem Planned.located {source : ExactSource P} {updates : FactUpdates P}
    {changes : List (FactWeightChange P)} (h : Planned ops source updates changes)
    : ∀ change ∈ changes, ∃ position, Located source change position
      ∧ ∃ leaf, source.leaves[position]? = some leaf ∧ leaf.prob = change.oldProb :=
  fun change hchange =>
    (h.batch.last change hchange).located (h.range change hchange).1 (h.range change hchange).2.2

/-- The program of a committed batch. -/
theorem SameFacts.committed_eq {source source' : ExactSource P} (h : SameFacts source source')
    {entries : List (Nat × ProbVarInfo P)} (hentries : entries = stablePass Prod.fst source'.entries)
    : { compileCircuit ops source with
        gpu := some {
          weights := compiledWeights ops source'
          varCap := source.varCap
          witness := source.witness
          invalidReason := none }
        probVarEntries := entries } = compileCircuit ops source' := by
  simp [compileCircuit, compiledWeights, hentries, h.evidence, h.maxVar, h.varCap, h.witness]

/-- Whatever becomes of the writes, the batch ends in one of the three ways. -/
theorem Planned.writeChanges {source : ExactSource P} {updates : FactUpdates P}
    {changes : List (FactWeightChange P)} (h : Planned ops source updates changes)
    {state : GpuExactState L} (hstate : (compileCircuit ops source).gpu = some state)
    (outcomes : DeviceOutcomes L)
    : Updated ops (.circuit source) updates
        (writeChanges ops (compileCircuit ops source) state changes outcomes) := by
  cases Option.some.inj hstate
  simp only [Prob.writeChanges]
  split
  · exact .unchanged _
  split
  · next weights hwrites =>
    -- all writes went through
    have hlocated : ∀ change ∈ changes, ∃ position, Located source change position := by
      intro change hchange
      obtain ⟨position, hlocated, -⟩ := h.located change hchange
      exact ⟨position, hlocated⟩
    obtain ⟨source', hsame, hall, hentries⟩ := @exists_source_of_changes P L ops changes source hlocated
    have hweights : weights = compiledWeights ops source' := by
      rw [← hall]
      have hok := attemptWrites_ok (congrArg Prod.snd hwrites)
      rw [hwrites] at hok
      exact hok
    have hlength : (compileCircuit ops source').probVarMap.length
        = (compileCircuit ops source).probVarMap.length := by
      rw [probVarMap_length, probVarMap_length]
      exact congrArg (fun maxVar => if maxVar = 0 then 0 else maxVar + 1) hsame.maxVar
    have hcommitted : Updated ops (.circuit source) updates (compileCircuit ops source', .ok ()) := by
      refine .committed (.circuit source') (.circuit hsame) fun update hupdate => ?_
      obtain ⟨change, hchange, hvar, hprob⟩ := h.updates update hupdate
      obtain ⟨hrange, hbound, -⟩ := h.range change hchange
      have hlast := h.batch.foldl_commitChange change hchange
      rw [hentries] at hlast
      rw [← hvar, ← hprob]
      exact hlast.holdsProb (hsame.maxVar ▸ hrange) (hlength ▸ hbound)
    rw [hweights]
    rw [← hsame.committed_eq hentries] at hcommitted
    exact hcommitted
  · next damaged writeError hwrites =>
    split
    · next weights hrollback =>
      -- the rollback went through
      have hrestored : weights = compiledWeights ops source := by
        have hok := attemptWrites_ok (congrArg Prod.snd hrollback)
        rw [hrollback] at hok
        exact hok.trans (rollback_restores h.located (congrArg Prod.fst hwrites))
      rw [hrestored]
      exact .unchanged writeError
    · exact .invalidated _ _ fun husable => by simp [ExactDdnnfProgram.Usable,
        ExactDdnnfProgram.ensureUsable, GpuExactState.ensureUsable] at husable

variable (ops) in
theorem setFactProbabilities_updated (compilation : Compilation P) (updates : FactUpdates P)
    (outcomes : DeviceOutcomes L)
    : Updated ops compilation updates
        (setFactProbabilities ops (compilation.program ops) updates outcomes) := by
  cases compilation with
  | withoutCircuit usesCountLift => cases usesCountLift <;> exact .unchanged _
  | circuit source =>
    cases hplans : updates.entries.mapM
        (planChange ops (compileCircuit ops source) (compileCircuit ops source).probVarMap) with
    | error error =>
      have hresult : setFactProbabilities ops (compileCircuit ops source) updates outcomes
          = (compileCircuit ops source, .error error) := by
        simp only [setFactProbabilities, hplans]
        rfl
      exact hresult ▸ .unchanged error
    | ok changes =>
      have hplanned := planned_of_mapM hplans
      cases changes with
      | nil =>
        have hresult : setFactProbabilities ops (compileCircuit ops source) updates outcomes
            = (compileCircuit ops source, .ok ()) := by
          simp only [setFactProbabilities, hplans]
          rfl
        refine hresult ▸ .committed (.circuit source) (.refl _) fun update hupdate => ?_
        obtain ⟨change, hchange, -⟩ := hplanned.updates update hupdate
        simp at hchange
      | cons change changes =>
        have hresult : ∃ state, (compileCircuit ops source).gpu = some state
            ∧ setFactProbabilities ops (compileCircuit ops source) updates outcomes
              = writeChanges ops (compileCircuit ops source) state (change :: changes) outcomes := by
          refine ⟨_, rfl, ?_⟩
          simp only [setFactProbabilities, hplans]
          rfl
        obtain ⟨state, hstate, hresult⟩ := hresult
        exact hresult ▸ hplanned.writeChanges hstate outcomes

/-- A batch on an invalid state leaves it as it is. -/
theorem setFactProbabilities_refused {program : ExactDdnnfProgram P L} (h : ¬ program.Usable)
    (updates : FactUpdates P) (outcomes : DeviceOutcomes L)
    : ∃ error, setFactProbabilities ops program updates outcomes = (program, .error error) := by
  simp only [ExactDdnnfProgram.Usable, ExactDdnnfProgram.ensureUsable] at h
  split at h
  · next state hstate =>
    simp only [setFactProbabilities, ExactDdnnfProgram.gpuState, hstate]
    split
    · exact ⟨_, rfl⟩
    · cases husable : state.ensureUsable with
      | error error => exact ⟨error, rfl⟩
      | ok => exact absurd husable h
  · exact absurd rfl h

-- Runs

variable (ops) in
/-- The states of a compiled program under any batches and any failures of the device. -/
inductive ReachedByBatches (compilation : Compilation P) : ExactDdnnfProgram P L → Prop
  | compiled : ReachedByBatches compilation (compilation.program ops)
  | updated {program : ExactDdnnfProgram P L} (h : ReachedByBatches compilation program)
      (updates : FactUpdates P) (outcomes : DeviceOutcomes L)
      : ReachedByBatches compilation (setFactProbabilities ops program updates outcomes).1

/-- A state that can be used is the compilation of its own metadata. -/
theorem ReachedByBatches.fresh {compilation : Compilation P} {program : ExactDdnnfProgram P L}
    (h : ReachedByBatches ops compilation program) (husable : program.Usable)
    : ∃ compilation', compilation.Same compilation' ∧ program = compilation'.program ops := by
  induction h with
  | compiled => exact ⟨compilation, .refl compilation, rfl⟩
  | @updated program h updates outcomes ih =>
    by_cases hbefore : program.Usable
    · obtain ⟨compilation', hsame, rfl⟩ := ih hbefore
      have hupdated := setFactProbabilities_updated ops compilation' updates outcomes
      generalize setFactProbabilities ops (compilation'.program ops) updates outcomes = result
        at hupdated husable
      cases hupdated with
      | committed compilation'' hsame' _ => exact ⟨compilation'', hsame.trans hsame', rfl⟩
      | unchanged error => exact ⟨compilation', hsame, rfl⟩
      | invalidated program error hinvalid => exact absurd husable hinvalid
    · obtain ⟨error, hresult⟩ := setFactProbabilities_refused hbefore updates outcomes
      rw [hresult] at husable
      exact absurd husable hbefore

-- Invalid states

variable (ops) in
/-- All that a handle of a prepared program offers ends in an error, and changes nothing. -/
structure Refuses (state : PreparedConditionedState P L) : Prop where
  updates : ∀ updates outcomes, ∃ error,
    state.setFactProbabilities ops updates outcomes = (state, .error error)
  evaluations : ∀ (R : Type) (run : ExactDdnnfProgram P L → Result R), ∃ error,
    state.evaluate run = .error error
  metadata : ∃ error, state.probVarMap = .error error
  witness : ∃ error, state.circuitWitness = .error error

theorem snapshot_refused {state : PreparedConditionedState P L} (h : ¬ state.exact.Usable)
    : ∃ error, state.snapshot = .error error := by
  cases husable : state.exact.ensureUsable with
  | error error => exact ⟨error, by simp [PreparedConditionedState.snapshot, husable]⟩
  | ok => exact absurd husable h

theorem refuses_of_not_usable {state : PreparedConditionedState P L} (h : ¬ state.exact.Usable)
    : Refuses ops state := by
  obtain ⟨error, hsnapshot⟩ := snapshot_refused h
  exact {
    updates := fun _ _ => ⟨error, by simp [PreparedConditionedState.setFactProbabilities, hsnapshot]⟩
    evaluations := fun _ _ => ⟨error, by simp [PreparedConditionedState.evaluate, hsnapshot]⟩
    metadata := ⟨error, by simp [PreparedConditionedState.probVarMap, hsnapshot]⟩
    witness := ⟨error, hsnapshot⟩ }

-- All or nothing

variable (ops) in
/-- The variable is an independent fact of the program, and the value is a probability. -/
structure Mutable (program : ExactDdnnfProgram P L) (update : Nat × P) : Prop where
  fact : ∃ atom prob, program.probVarMap[update.1]? = some (.fact atom prob)
  probability : ops.isProbability update.2 = true

variable (ops) in
/-- How a batch can end. -/
inductive Outcome (program : ExactDdnnfProgram P L) (updates : FactUpdates P)
    : ExactDdnnfProgram P L × Result Unit → Prop
  | committed (program' : ExactDdnnfProgram P L)
      (holds : ∀ update ∈ updates.entries, HoldsProb ops program' update.1 update.2)
      : Outcome program updates (program', .ok ())
  | unchanged (error : XlogError) : Outcome program updates (program, .error error)
  | invalidated (program' : ExactDdnnfProgram P L) (error : XlogError) (h : ¬ program'.Usable)
      : Outcome program updates (program', .error error)

variable (ops) in
structure AllOrNothing (compilation : Compilation P) (program : ExactDdnnfProgram P L)
    (updates : FactUpdates P) (result : ExactDdnnfProgram P L × Result Unit) : Prop where
  outcome : Outcome ops program updates result
  rejected : (∃ update ∈ updates.entries, ¬ Mutable ops program update)
    → ∃ error, result = (program, .error error)
  fresh : result.1.Usable
    → ∃ compilation', compilation.Same compilation' ∧ result.1 = compilation'.program ops
  refused : ¬ result.1.Usable
    → ∀ state : PreparedConditionedState P L, state.exact = result.1 → Refuses ops state

theorem Updated.outcome {compilation : Compilation P} {updates : FactUpdates P}
    {result : ExactDdnnfProgram P L × Result Unit} (h : Updated ops compilation updates result)
    : Outcome ops (compilation.program ops) updates result := by
  cases h with
  | committed compilation' _ holds => exact .committed _ holds
  | unchanged error => exact .unchanged error
  | invalidated program error hinvalid => exact .invalidated program error hinvalid

/-- One member that cannot be planned stops the batch before the first write. -/
theorem setFactProbabilities_rejected {program : ExactDdnnfProgram P L} {updates : FactUpdates P}
    (h : ∃ update ∈ updates.entries, ¬ Mutable ops program update) (outcomes : DeviceOutcomes L)
    : ∃ error, setFactProbabilities ops program updates outcomes = (program, .error error) := by
  obtain ⟨update, hupdate, hmember⟩ := h
  simp only [setFactProbabilities]
  split
  · exact ⟨_, rfl⟩
  split
  · exact ⟨_, rfl⟩
  split
  · exact ⟨_, rfl⟩
  cases hplans : updates.entries.mapM (planChange ops program program.probVarMap) with
  | error error => exact ⟨error, rfl⟩
  | ok changes =>
    obtain ⟨change, -, hplanned⟩ := exists_result_of_mapM hplans hupdate
    obtain ⟨hvar, -, -, hlength, -, hprobability, hlast⟩ := planChange_ok hplanned
    obtain ⟨atom, hfact⟩ := hlast.probVarMap hlength
    exact absurd ⟨⟨atom, _, hvar ▸ hfact⟩, hprobability⟩ hmember

theorem setFactProbabilities_allOrNothing {compilation : Compilation P}
    {program : ExactDdnnfProgram P L} (h : ReachedByBatches ops compilation program) (updates : FactUpdates P)
    (outcomes : DeviceOutcomes L)
    : AllOrNothing ops compilation program updates
        (setFactProbabilities ops program updates outcomes) where
  outcome := by
    by_cases husable : program.Usable
    · obtain ⟨compilation', -, rfl⟩ := h.fresh husable
      exact (setFactProbabilities_updated ops compilation' updates outcomes).outcome
    · obtain ⟨error, hresult⟩ := setFactProbabilities_refused husable updates outcomes
      exact hresult ▸ .unchanged error
  rejected := fun hmember => setFactProbabilities_rejected hmember outcomes
  fresh := (h.updated updates outcomes).fresh
  refused := fun hinvalid state hstate => refuses_of_not_usable (hstate ▸ hinvalid)

end

-- One fact

/-- Probabilities in percent. -/
def percentOps : FactWeightOps Nat (Option Nat) where
  isProbability prob := prob ≤ 100
  complement prob := 100 - prob
  ln prob := if prob = 0 then none else some prob
  zero := some 100
  negInfinity := none
  display := toString
  displayError := fun _ => "write failed"

def rain : GroundAtom := ⟨"rain", []⟩

def rainSource : ExactSource Nat where
  leaves := [⟨1, rain, 30⟩]
  choices := []
  evidence := fun _ => none
  maxVar := 1
  varCap := 1
  witness := ⟨1, 1, 1, 0, 0, 0⟩

def rainUpdates : FactUpdates Nat := ⟨[(1, 60)], by simp⟩

/-- The second write fails, and so does the first write of the rollback. -/
def brokenDevice : DeviceOutcomes (Option Nat) where
  writes := fun step => if step = 1 then .failed (.kernel "copy") none else .ok
  rollbackWrites := fun _ => .failed (.kernel "copy") (some 60)

theorem setFactProbabilities_allOrNothing_rain
    : ReachedByBatches percentOps (.circuit rainSource) (compileCircuit percentOps rainSource)
      ∧ AllOrNothing percentOps (.circuit rainSource) (compileCircuit percentOps rainSource)
          rainUpdates
          (setFactProbabilities percentOps (compileCircuit percentOps rainSource) rainUpdates
            brokenDevice) :=
  ⟨.compiled, setFactProbabilities_allOrNothing .compiled rainUpdates brokenDevice⟩

/-- After a failed rollback the metadata are still answered, and the tables hold other weights than a
compilation with these metadata.
-/
theorem rain_invalid_answers
    : ∃ program, ReachedByBatches percentOps (.circuit rainSource) program ∧ ¬ program.Usable
      ∧ program.probVarMap = [.other, .fact rain 30]
      ∧ program.gpu.map (fun state => state.weights (.logTrue, 1)) = some (some 60)
      ∧ (compileCircuit percentOps rainSource).gpu.map (fun state => state.weights (.logTrue, 1))
        = some (some 30) := by
  refine ⟨(setFactProbabilities percentOps (compileCircuit percentOps rainSource) rainUpdates
    brokenDevice).1, .updated .compiled rainUpdates brokenDevice, ?_, ?_, ?_, ?_⟩
  · intro husable
    cases husable
  · decide +kernel
  · decide +kernel
  · decide +kernel

end Xlog.Prob
