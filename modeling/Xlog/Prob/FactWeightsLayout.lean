import Xlog.Prob.FactWeights

/-! Where the weight of a fact lives: its entry in the sorted metadata, its leaf, and its cells in the
tables. Another probability of the leaf changes these and nothing else.
-/

namespace Xlog.Prob

open Xlog.Core Xlog.Foundation

-- Last positions

theorem rposition_eq_none {α : Type} {test : α → Bool} {items : List α}
    : rposition test items = none ↔ ∀ item ∈ items, test item = false := by
  induction items with
  | nil => simp [rposition]
  | cons item items ih =>
    cases hrest : rposition test items with
    | some index =>
      have hfound : ¬ ∀ item ∈ items, test item = false := by simp [← ih, hrest]
      simpa [rposition, hrest] using fun _ => by simpa using hfound
    | none => simpa [rposition, hrest] using fun _ => by simpa using ih.mp hrest

theorem rposition_eq_some {α : Type} {test : α → Bool} {items : List α} {index : Nat}
    (h : rposition test items = some index)
    : (∃ item, items[index]? = some item ∧ test item = true)
      ∧ ∀ later item, index < later → items[later]? = some item → test item = false := by
  induction items generalizing index with
  | nil => simp [rposition] at h
  | cons item items ih =>
    cases hrest : rposition test items with
    | some found =>
      simp only [rposition, hrest, Option.some.injEq] at h
      subst h
      obtain ⟨hfound, hlater⟩ := ih hrest
      refine ⟨by simpa using hfound, fun later other hless hother => ?_⟩
      obtain ⟨later, rfl⟩ := Nat.exists_eq_succ_of_ne_zero (Nat.ne_of_gt (Nat.zero_lt_of_lt hless))
      exact hlater later other (Nat.lt_of_succ_lt_succ hless) (by simpa using hother)
    | none =>
      simp only [rposition, hrest] at h
      split at h
      · next htest =>
        cases Option.some.inj h
        refine ⟨⟨item, by simp, htest⟩, fun later other hless hother => ?_⟩
        obtain ⟨later, rfl⟩ := Nat.exists_eq_succ_of_ne_zero (Nat.ne_of_gt hless)
        exact rposition_eq_none.mp hrest other (List.mem_of_getElem? (by simpa using hother))
      · simp at h

theorem rposition_of_last {α : Type} {test : α → Bool} {items : List α} {index : Nat} {item : α}
    (hitem : items[index]? = some item) (htest : test item = true)
    (hlater : ∀ later item, index < later → items[later]? = some item → test item = false)
    : rposition test items = some index := by
  cases hfound : rposition test items with
  | none => simp [rposition_eq_none.mp hfound item (List.mem_of_getElem? hitem)] at htest
  | some found =>
    obtain ⟨⟨other, hother, hpass⟩, hlast⟩ := rposition_eq_some hfound
    rcases Nat.lt_trichotomy index found with hless | rfl | hgreater
    · simp [hlater found other hless hother] at hpass
    · rfl
    · simp [hlast index item hgreater hitem] at htest

section

variable {P L : Type}

/-- The dense map holds the last entry of each variable. -/
theorem foldl_set_getElem? (entries : List (Nat × ProbVarInfo P)) (dense : List (ProbVarInfo P))
    {var : Nat} (hvar : var < dense.length)
    : (entries.foldl (fun dense entry => dense.set entry.1 entry.2) dense)[var]?
      = (rposition (fun entry : Nat × ProbVarInfo P => entry.1 = var) entries).elim dense[var]?
          fun index => entries[index]?.map Prod.snd := by
  induction entries generalizing dense with
  | nil => rfl
  | cons entry entries ih =>
    rw [List.foldl_cons, ih _ (by simpa using hvar)]
    cases hrest : rposition (fun entry : Nat × ProbVarInfo P => entry.1 = var) entries with
    | some index => simp [rposition, hrest]
    | none =>
      by_cases hsame : entry.1 = var
      · simp [rposition, hrest, hsame, hvar]
      · simp [rposition, hrest, hsame]

theorem foldl_set_length (entries : List (Nat × ProbVarInfo P)) (dense : List (ProbVarInfo P))
    : (entries.foldl (fun dense entry => dense.set entry.1 entry.2) dense).length = dense.length := by
  induction entries generalizing dense with
  | nil => rfl
  | cons entry entries ih => rw [List.foldl_cons, ih, List.length_set]

theorem probVarMap_length (program : ExactDdnnfProgram P L)
    : program.probVarMap.length = if program.maxVar = 0 then 0 else program.maxVar + 1 := by
  rw [ExactDdnnfProgram.probVarMap, foldl_set_length, List.length_replicate]

theorem probVarMap_getElem? (program : ExactDdnnfProgram P L) {var : Nat}
    (hvar : var < program.probVarMap.length)
    : program.probVarMap[var]?
      = (rposition (fun entry : Nat × ProbVarInfo P => entry.1 = var) program.probVarEntries).elim
          (some .other) fun index => program.probVarEntries[index]?.map Prod.snd := by
  unfold ExactDdnnfProgram.probVarMap at hvar ⊢
  simp only [foldl_set_length] at hvar
  rw [foldl_set_getElem? _ _ hvar]
  cases rposition (fun entry : Nat × ProbVarInfo P => entry.1 = var) program.probVarEntries with
  | some index => rfl
  | none =>
    rw [List.length_replicate] at hvar
    simp [hvar]

/-- The last entry of the variable is a fact. -/
structure LastFact (entries : List (Nat × ProbVarInfo P)) (var index : Nat) (prob : P) : Prop where
  entry : ∃ atom, entries[index]? = some (var, .fact atom prob)
  later : ∀ position entry, index < position → entries[position]? = some entry → entry.1 ≠ var

variable {ops : FactWeightOps P L}

/-- A planned change is about a variable whose last entry is a fact. -/
theorem planChange_ok {program : ExactDdnnfProgram P L} {update : Nat × P}
    {change : FactWeightChange P} (h : planChange ops program program.probVarMap update = .ok change)
    : change.var = update.1 ∧ change.newProb = update.2 ∧ change.var ≤ program.maxVar
      ∧ change.var < program.probVarMap.length ∧ change.evidence = program.fixedEvidenceByVar change.var
      ∧ ops.isProbability update.2 = true
      ∧ LastFact program.probVarEntries change.var change.entryIndex change.oldProb := by
  obtain ⟨var, newProb⟩ := update
  simp only [planChange] at h
  split at h
  · simp at h
  split at h
  · simp at h
  next hrange =>
  split at h
  · simp at h
  next hprob =>
  split at h
  · next atom prob hdense =>
    split at h
    · next entryIndex hindex =>
      cases Except.ok.inj h
      obtain ⟨hmax, hlength⟩ := not_or.mp hrange
      refine ⟨rfl, rfl, Nat.le_of_not_lt hmax, Nat.lt_of_not_le hlength, rfl, by simpa using hprob, ?_⟩
      rw [probVarMap_getElem? program (Nat.lt_of_not_le hlength)] at hdense
      cases hlast : rposition (fun entry : Nat × ProbVarInfo P => entry.1 = var)
          program.probVarEntries with
      | some index =>
        rw [hlast, Option.elim_some] at hdense
        obtain ⟨⟨entry, hentry, hvar⟩, hlater⟩ := rposition_eq_some hlast
        have hvar : entry.1 = var := of_decide_eq_true hvar
        have hinfo : entry.2 = .fact atom prob := by simpa [hentry] using hdense
        have hfact : entry = (var, .fact atom prob) := Prod.ext hvar hinfo
        -- the last entry is the last fact
        obtain ⟨⟨found, hfound, htest⟩, hlast'⟩ := rposition_eq_some hindex
        simp only [Bool.and_eq_true, decide_eq_true_eq] at htest
        have hle : index ≤ entryIndex := by
          by_contra hless
          have hno := hlast' index entry (Nat.lt_of_not_le hless) hentry
          simp [hfact, ProbVarInfo.isFact] at hno
        have hge : entryIndex ≤ index := by
          by_contra hless
          have hno := hlater entryIndex found (Nat.lt_of_not_le hless) hfound
          simp [htest.1] at hno
        obtain rfl : index = entryIndex := Nat.le_antisymm hle hge
        refine ⟨⟨atom, hfact ▸ hentry⟩, fun position other hless hother => ?_⟩
        simpa using hlater position other hless hother
      | none => simp [hlast] at hdense
    · simp at h
  · simp at h
  · simp at h
  · simp at h

-- The order of the entries

/-- The positions that a stable sort by the keys puts one after the other. -/
def sortedPositions (keys : List Nat) : List Nat :=
  stablePass (fun position => keys.getD position 0) (List.range keys.length)

theorem sortedPositions_nodup (keys : List Nat) : (sortedPositions keys).Nodup :=
  (stablePass_perm _ _).nodup_iff.mpr List.nodup_range

theorem mem_sortedPositions {keys : List Nat} {position : Nat}
    : position ∈ sortedPositions keys ↔ position < keys.length :=
  (stablePass_perm _ _).mem_iff.trans List.mem_range

variable {α : Type}

theorem stablePass_getElem? (items : List (Nat × α)) (index : Nat)
    : (stablePass Prod.fst items)[index]?
      = (sortedPositions (items.map Prod.fst))[index]?.bind fun position => items[position]? := by
  have hitems : items.map some = (List.range items.length).map fun position => items[position]? := by
    refine List.ext_getElem (by simp) fun position hleft hright => ?_
    simp
  let key (item : Option (Nat × α)) : Nat := (item.map Prod.fst).getD 0
  have hkeys : (fun position => (items.map Prod.fst).getD position 0)
      = key ∘ fun position => items[position]? := by
    funext position
    simp [key, List.getD_eq_getElem?_getD]
  have hsorted : (stablePass Prod.fst items).map some
      = (sortedPositions (items.map Prod.fst)).map fun position => items[position]? := by
    calc (stablePass Prod.fst items).map some
      _ = stablePass key (items.map some) := (stablePass_map key some items).symm
      _ = _ := by rw [hitems, stablePass_map, sortedPositions, List.length_map, hkeys]
  have hat := congrArg (fun list => list[index]?) hsorted
  simp only [List.getElem?_map] at hat
  cases hleft : (stablePass Prod.fst items)[index]? <;>
    cases hright : (sortedPositions (items.map Prod.fst))[index]? <;> simp_all

/-- Another value at a position goes where its key stands. -/
theorem stablePass_set {items : List (Nat × α)} {index position : Nat} {item : Nat × α}
    (hindex : (sortedPositions (items.map Prod.fst))[index]? = some position)
    (hkey : items[position]?.map Prod.fst = some item.1)
    : stablePass Prod.fst (items.set position item) = (stablePass Prod.fst items).set index item := by
  have hkeys : (items.set position item).map Prod.fst = items.map Prod.fst := by
    rw [List.map_set]
    refine List.ext_getElem? fun other => ?_
    by_cases hother : position = other
    · subst hother
      simp [List.getElem?_set, ← hkey]
    · rw [List.getElem?_set_ne hother]
  have hposition : position < items.length := by
    simpa using mem_sortedPositions.mp (List.mem_of_getElem? hindex)
  refine List.ext_getElem? fun other => ?_
  rw [stablePass_getElem?, hkeys]
  by_cases hother : index = other
  · subst hother
    have hlength : index < (stablePass Prod.fst items).length := by
      rw [(stablePass_perm _ _).length_eq]
      have hless := (List.getElem?_eq_some_iff.mp hindex).1
      rwa [sortedPositions, (stablePass_perm _ _).length_eq, List.length_range, List.length_map]
        at hless
    rw [hindex, Option.bind_some, List.getElem?_set_self hposition, List.getElem?_set_self hlength]
  · rw [List.getElem?_set_ne hother, stablePass_getElem?]
    cases hentry : (sortedPositions (items.map Prod.fst))[other]? with
    | none => rfl
    | some entry =>
      have hne : position ≠ entry := by
        rintro rfl
        exact hother ((List.getElem?_inj (List.getElem?_eq_some_iff.mp hindex).1
          (sortedPositions_nodup _)).mp (hindex.trans hentry.symm))
      rw [Option.bind_some, Option.bind_some, List.getElem?_set_ne hne]

/-- The sort keeps the order of the entries of one key. -/
theorem sortedPositions_last {keys : List Nat} {index position later : Nat}
    (hindex : (sortedPositions keys)[index]? = some position)
    (hlast : ∀ other entry, index < other → (sortedPositions keys)[other]? = some entry
      → keys[entry]? ≠ keys[position]?)
    (hless : position < later)
    : keys[later]? ≠ keys[position]? := by
  intro hsame
  have hposition : position < keys.length := mem_sortedPositions.mp (List.mem_of_getElem? hindex)
  have hlater : later < keys.length := by
    rw [List.getElem?_eq_getElem hposition] at hsame
    exact (List.getElem?_eq_some_iff.mp hsame).1
  obtain ⟨other, hother⟩ := List.mem_iff_getElem?.mp (mem_sortedPositions.mpr hlater)
  have hsorted : (sortedPositions keys).Pairwise fun a b =>
      keys.getD a 0 < keys.getD b 0 ∨ (keys.getD a 0 = keys.getD b 0 ∧ a < b) :=
    stablePass_pairwise _ List.pairwise_lt_range
  have hkey : keys.getD later 0 = keys.getD position 0 := by
    rw [List.getD_eq_getElem?_getD, List.getD_eq_getElem?_getD, hsame]
  obtain ⟨hi, heq⟩ := List.getElem?_eq_some_iff.mp hindex
  obtain ⟨ho, heq'⟩ := List.getElem?_eq_some_iff.mp hother
  rcases Nat.lt_trichotomy index other with hbefore | rfl | hafter
  · exact hlast other later hbefore hother hsame
  · rw [heq] at heq'
    omega
  · -- an earlier place means an earlier position
    have hordered := List.pairwise_iff_getElem.mp hsorted other index ho hi hafter
    rw [heq, heq', hkey] at hordered
    omega

-- The leaf of a fact

/-- The source with another probability at a leaf. -/
def ExactSource.setProb (source : ExactSource P) (position : Nat) (prob : P) : ExactSource P :=
  { source with leaves := source.leaves.modify position fun leaf => { leaf with prob } }

/-- The leaf that a change is about, which gives its variable its weight. -/
structure Located (source : ExactSource P) (change : FactWeightChange P) (position : Nat) : Prop where
  sorted : (sortedPositions (source.entries.map Prod.fst))[change.entryIndex]? = some position
  leaf : ∃ leaf, source.leaves[position]? = some leaf ∧ leaf.var = change.var
  later : ∀ other leaf, position < other → source.leaves[other]? = some leaf
    → leaf.var ≠ change.var
  choices : ∀ choice ∈ source.choices, choice.var ≠ change.var
  range : change.var ≤ source.maxVar
  evidence : change.evidence = source.evidence change.var

theorem entries_getElem?_leaf (source : ExactSource P) {position : Nat}
    (h : position < source.leaves.length)
    : source.entries[position]? = source.leaves[position]?.map WeightedLeaf.entry := by
  rw [ExactSource.entries, List.getElem?_append_left (by simpa using h), List.getElem?_map]

theorem entries_getElem?_choice (source : ExactSource P) (position : Nat)
    : source.entries[source.leaves.length + position]?
      = source.choices[position]?.map WeightedChoice.entry := by
  rw [ExactSource.entries, List.getElem?_append_right (by simp)]
  simp

/-- The last entry of a variable, when it is a fact, comes from the leaf that counts. -/
theorem LastFact.located {source : ExactSource P} {change : FactWeightChange P}
    (h : LastFact (stablePass Prod.fst source.entries) change.var change.entryIndex change.oldProb)
    (hrange : change.var ≤ source.maxVar)
    (hevidence : change.evidence = source.evidence change.var)
    : ∃ position, Located source change position
      ∧ ∃ leaf, source.leaves[position]? = some leaf ∧ leaf.prob = change.oldProb := by
  obtain ⟨atom, hentry⟩ := h.entry
  rw [stablePass_getElem?] at hentry
  obtain ⟨position, hsorted, hfact⟩ := Option.bind_eq_some_iff.mp hentry
  have hkey : (source.entries.map Prod.fst)[position]? = some change.var := by simp [hfact]
  have hlast (later : Nat) (hless : position < later)
      : (source.entries.map Prod.fst)[later]? ≠ some change.var := by
    rw [← hkey]
    refine sortedPositions_last hsorted ?_ hless
    intro other entry hother hentry' hsame
    have hfound : (stablePass Prod.fst source.entries)[other]? = source.entries[entry]? := by
      rw [stablePass_getElem?, hentry', Option.bind_some]
    rw [hkey, List.getElem?_map] at hsame
    obtain ⟨found, hfound', hvar⟩ := Option.map_eq_some_iff.mp hsame
    exact h.later other found hother (hfound.trans hfound') hvar
  have hposition : position < source.leaves.length := by
    by_contra hge
    obtain ⟨offset, rfl⟩ := Nat.exists_eq_add_of_le (Nat.le_of_not_lt hge)
    rw [entries_getElem?_choice] at hfact
    obtain ⟨choice, -, hchoice⟩ := Option.map_eq_some_iff.mp hfact
    simp [WeightedChoice.entry] at hchoice
  rw [entries_getElem?_leaf source hposition] at hfact
  obtain ⟨leaf, hleaf, heq⟩ := Option.map_eq_some_iff.mp hfact
  obtain ⟨hvar, hinfo⟩ := Prod.mk.inj heq
  refine ⟨position, ⟨hsorted, ⟨leaf, hleaf, hvar⟩, ?_, ?_, hrange, hevidence⟩, leaf, hleaf, ?_⟩
  · intro other later hless hother heq
    refine hlast other hless ?_
    rw [List.getElem?_map, entries_getElem?_leaf source (List.getElem?_eq_some_iff.mp hother).1, hother]
    simp [WeightedLeaf.entry, heq]
  · intro choice hchoice heq
    obtain ⟨offset, hoffset⟩ := List.mem_iff_getElem?.mp hchoice
    refine hlast (source.leaves.length + offset) (by omega) ?_
    rw [List.getElem?_map, entries_getElem?_choice, hoffset]
    simp [WeightedChoice.entry, heq]
  · exact (ProbVarInfo.fact.inj hinfo).2

-- Another probability

theorem modify_eq_set {α : Type} {items : List α} {index : Nat} {item : α}
    (h : items[index]? = some item) (f : α → α)
    : items.modify index f = items.set index (f item) := by
  refine List.ext_getElem? fun other => ?_
  rw [List.getElem?_modify, List.getElem?_set]
  split
  · next hsame =>
    subst hsame
    obtain ⟨hindex, heq⟩ := List.getElem?_eq_some_iff.mp h
    simp [hindex, heq]
  · simp

theorem setProb_entries (source : ExactSource P) {position : Nat} {leaf : WeightedLeaf P}
    (hleaf : source.leaves[position]? = some leaf) (prob : P)
    : (source.setProb position prob).entries
      = source.entries.set position (leaf.var, .fact leaf.atom prob) := by
  have hposition := (List.getElem?_eq_some_iff.mp hleaf).1
  simp only [ExactSource.entries, ExactSource.setProb, modify_eq_set hleaf, List.map_set]
  rw [List.set_append_left _ _ (by simpa using hposition)]
  rfl

theorem setProb_keys (source : ExactSource P) {position : Nat} {leaf : WeightedLeaf P}
    (hleaf : source.leaves[position]? = some leaf) (prob : P)
    : (source.setProb position prob).entries.map Prod.fst = source.entries.map Prod.fst := by
  have hposition := (List.getElem?_eq_some_iff.mp hleaf).1
  have hkey : (source.entries.map Prod.fst)[position]? = some leaf.var := by
    rw [List.getElem?_map, entries_getElem?_leaf source hposition, hleaf]
    rfl
  rw [setProb_entries source hleaf, List.map_set]
  refine List.ext_getElem? fun other => ?_
  by_cases hother : position = other
  · subst hother
    rw [hkey]
    exact List.getElem?_set_self (List.getElem?_eq_some_iff.mp hkey).1
  · rw [List.getElem?_set_ne hother]

theorem Located.commitChange {source : ExactSource P} {change : FactWeightChange P} {position : Nat}
    (h : Located source change position)
    : stablePass Prod.fst (source.setProb position change.newProb).entries
      = commitChange (stablePass Prod.fst source.entries) change := by
  obtain ⟨leaf, hleaf, -⟩ := h.leaf
  have hentry : source.entries[position]? = some leaf.entry := by
    rw [entries_getElem?_leaf source (List.getElem?_eq_some_iff.mp hleaf).1, hleaf]
    rfl
  have hfound : (stablePass Prod.fst source.entries)[change.entryIndex]? = some leaf.entry := by
    rw [stablePass_getElem?, h.sorted, Option.bind_some, hentry]
  rw [setProb_entries source hleaf, stablePass_set h.sorted (by simp [hentry, WeightedLeaf.entry]),
    Prob.commitChange, modify_eq_set hfound]
  rfl

theorem setProb_leaf {source : ExactSource P} {position other : Nat} {prob : P} {leaf : WeightedLeaf P}
    (h : (source.setProb position prob).leaves[other]? = some leaf)
    : ∃ found, source.leaves[other]? = some found ∧ leaf.var = found.var ∧ leaf.atom = found.atom := by
  simp only [ExactSource.setProb, List.getElem?_modify] at h
  obtain ⟨found, hfound, rfl⟩ := Option.map_eq_some_iff.mp h
  refine ⟨found, hfound, ?_⟩
  split <;> exact ⟨rfl, rfl⟩

theorem Located.setProb {source : ExactSource P} {change other : FactWeightChange P}
    {position position' : Nat} (h : Located source change position)
    (hother : Located source other position') (prob : P)
    : Located (source.setProb position' prob) change position := by
  obtain ⟨leaf', hleaf', -⟩ := hother.leaf
  obtain ⟨leaf, hleaf, hvar⟩ := h.leaf
  refine ⟨by rw [setProb_keys source hleaf']; exact h.sorted, ?_, ?_, h.choices, h.range, h.evidence⟩
  · have hset : (source.setProb position' prob).leaves[position]?
        = some (if position' = position then { leaf with prob } else leaf) := by
      simp only [ExactSource.setProb, List.getElem?_modify, hleaf]
      rfl
    refine ⟨_, hset, ?_⟩
    split <;> exact hvar
  · intro later found hless hfound
    obtain ⟨found', hfound', heq, -⟩ := setProb_leaf hfound
    rw [heq]
    exact h.later later found' hless hfound'

-- Weights

theorem fillLeaf_cons (table : Nat → L × L) (leaf : WeightedLeaf P) (leaves : List (WeightedLeaf P))
    : fillLeaf ops table (leaf :: leaves)
      = fillLeaf ops
          (Function.update table leaf.var (ops.ln leaf.prob, ops.ln (ops.complement leaf.prob)))
          leaves :=
  rfl

theorem fillLeaf_congr {table table' : Nat → L × L} {leaves : List (WeightedLeaf P)} {var : Nat}
    (h : table var = table' var)
    : fillLeaf ops table leaves var = fillLeaf ops table' leaves var := by
  induction leaves generalizing table table' with
  | nil => exact h
  | cons leaf leaves ih =>
    refine ih ?_
    simp only [Function.update_apply, h]

theorem fillLeaf_other {table : Nat → L × L} {leaves : List (WeightedLeaf P)} {var : Nat}
    (h : ∀ leaf ∈ leaves, leaf.var ≠ var)
    : fillLeaf ops table leaves var = table var := by
  induction leaves generalizing table with
  | nil => rfl
  | cons leaf leaves ih =>
    obtain ⟨hleaf, hleaves⟩ := List.forall_mem_cons.mp h
    exact (ih hleaves).trans (Function.update_of_ne (Ne.symm hleaf) _ _)

/-- The last leaf of a variable counts. -/
theorem fillLeaf_last {table : Nat → L × L} {leaves : List (WeightedLeaf P)} {position : Nat}
    {leaf : WeightedLeaf P} (hleaf : leaves[position]? = some leaf)
    (hlater : ∀ other later, position < other → leaves[other]? = some later → later.var ≠ leaf.var)
    : fillLeaf ops table leaves leaf.var = (ops.ln leaf.prob, ops.ln (ops.complement leaf.prob)) := by
  induction leaves generalizing table position with
  | nil => simp at hleaf
  | cons first leaves ih =>
    cases position with
    | zero =>
      obtain rfl : first = leaf := by simpa using hleaf
      have hrest : ∀ later ∈ leaves, later.var ≠ first.var := by
        intro later hmem
        obtain ⟨other, hother⟩ := List.mem_iff_getElem?.mp hmem
        exact hlater (other + 1) later (Nat.succ_pos other) (by simpa using hother)
      rw [fillLeaf_cons, fillLeaf_other hrest, Function.update_self]
    | succ position =>
      rw [fillLeaf_cons]
      refine ih (by simpa using hleaf) fun other later hless hother => ?_
      exact hlater (other + 1) later (Nat.succ_lt_succ hless) (by simpa using hother)

theorem fillLeaf_modify_ne {table : Nat → L × L} {leaves : List (WeightedLeaf P)} {position var : Nat}
    {leaf : WeightedLeaf P} (hleaf : leaves[position]? = some leaf) (hvar : var ≠ leaf.var) (prob : P)
    : fillLeaf ops table (leaves.modify position fun leaf => { leaf with prob }) var
      = fillLeaf ops table leaves var := by
  induction leaves generalizing table position with
  | nil => simp
  | cons first leaves ih =>
    cases position with
    | zero =>
      obtain rfl : first = leaf := by simpa using hleaf
      rw [List.modify_zero_cons, fillLeaf_cons, fillLeaf_cons]
      exact fillLeaf_congr (by rw [Function.update_of_ne hvar, Function.update_of_ne hvar])
    | succ position =>
      rw [List.modify_succ_cons, fillLeaf_cons, fillLeaf_cons]
      exact ih (by simpa using hleaf)

theorem fillChoice_congr {table table' : Nat → L × L} {choices : List (WeightedChoice P)} {var : Nat}
    (h : table var = table' var)
    : fillChoice ops table choices var = fillChoice ops table' choices var := by
  induction choices generalizing table table' with
  | nil => exact h
  | cons choice choices ih =>
    refine ih ?_
    simp only [Function.update_apply, h]

theorem fillChoice_other {table : Nat → L × L} {choices : List (WeightedChoice P)} {var : Nat}
    (h : ∀ choice ∈ choices, choice.var ≠ var)
    : fillChoice ops table choices var = table var := by
  induction choices generalizing table with
  | nil => rfl
  | cons choice choices ih =>
    obtain ⟨hchoice, hchoices⟩ := List.forall_mem_cons.mp h
    exact (ih hchoices).trans (Function.update_of_ne (Ne.symm hchoice) _ _)

theorem Located.buildWeights {source : ExactSource P} {change : FactWeightChange P} {position : Nat}
    (h : Located source change position) {leaf : WeightedLeaf P}
    (hleaf : source.leaves[position]? = some leaf)
    : buildWeights ops source change.var = factLogWeights ops leaf.prob change.evidence := by
  obtain ⟨found, hfound, hvar⟩ := h.leaf
  cases Option.some.inj (hleaf.symm.trans hfound)
  have hweights : fillChoice ops (fillLeaf ops (fun _ => (ops.zero, ops.zero)) source.leaves)
      source.choices change.var = (ops.ln leaf.prob, ops.ln (ops.complement leaf.prob)) := by
    rw [fillChoice_other h.choices, ← hvar]
    exact fillLeaf_last hleaf fun other later hless hother => hvar ▸ h.later other later hless hother
  rw [Prob.buildWeights, applyEvidence, h.evidence, hweights]
  rfl

theorem Located.buildWeights_setProb_ne {source : ExactSource P} {change : FactWeightChange P}
    {position : Nat} (h : Located source change position) (prob : P) {var : Nat}
    (hvar : var ≠ change.var)
    : Prob.buildWeights ops (source.setProb position prob) var
      = Prob.buildWeights ops source var := by
  obtain ⟨leaf, hleaf, hsame⟩ := h.leaf
  have hfill : fillChoice ops (fillLeaf ops (fun _ => (ops.zero, ops.zero))
      (source.setProb position prob).leaves) source.choices var
      = fillChoice ops (fillLeaf ops (fun _ => (ops.zero, ops.zero)) source.leaves)
          source.choices var :=
    fillChoice_congr (fillLeaf_modify_ne hleaf (hsame ▸ hvar) prob)
  simp only [Prob.buildWeights, applyEvidence]
  rw [show (source.setProb position prob).choices = source.choices from rfl, hfill]
  rfl

end

end Xlog.Prob
