import Xlog.Induce.NaryLayout

/-! What a layout and a flat relation hold: each pattern, atom and binding of the batch is where the walk
looks for it, and so is each value of a relation.
-/

namespace Xlog.Induce

open Xlog.Foundation

-- Codes

theorem head_code : ∀ i < 8, bindingCode (.head i) &&& JOIN_FLAG = 0
    ∧ (bindingCode (.head i) &&& 0xFF).toNat = i := by
  decide

theorem join_code : ∀ j < 8, bindingCode (.join j) &&& JOIN_FLAG ≠ 0
    ∧ (bindingCode (.join j) &&& 0xFF).toNat = j := by
  decide

/-- The bindings that a layout admits for a head of some arity. -/
def PatternVar.Admitted (headArity : Nat) : PatternVar → Prop
  | .head i => i < headArity
  | .join j => j < NARY_MAX_JOIN_VARS

-- Layouts

namespace NaryPatternBatchLayout

/-- The layout has grown at the ends of its atom and code arrays. -/
structure AtomsExtend (before after : NaryPatternBatchLayout) : Prop where
  slots : before.atomCandidateSlot <+: after.atomCandidateSlot
  arities : before.atomArity <+: after.atomArity
  offsets : before.atomBindingOffset <+: after.atomBindingOffset
  codes : before.bindingCodes <+: after.bindingCodes

theorem AtomsExtend.refl (layout : NaryPatternBatchLayout) : AtomsExtend layout layout :=
  ⟨List.prefix_rfl, List.prefix_rfl, List.prefix_rfl, List.prefix_rfl⟩

theorem AtomsExtend.trans {first second third : NaryPatternBatchLayout}
    (h : AtomsExtend first second) (h' : AtomsExtend second third)
    : AtomsExtend first third where
  slots := h.slots.trans h'.slots
  arities := h.arities.trans h'.arities
  offsets := h.offsets.trans h'.offsets
  codes := h.codes.trans h'.codes

/-- The layout has grown at the ends of all the arrays that a walk reads. -/
structure PatternsExtend (before after : NaryPatternBatchLayout) : Prop where
  atoms : AtomsExtend before after
  bodyOffset : before.bodyOffset <+: after.bodyOffset
  bodyLen : before.bodyLen <+: after.bodyLen

/-- The pattern arrays of two layouts agree. -/
structure SamePatterns (before after : NaryPatternBatchLayout) : Prop where
  headArity : after.headArity = before.headArity
  joinCount : after.joinCount = before.joinCount
  bodyOffset : after.bodyOffset = before.bodyOffset
  bodyLen : after.bodyLen = before.bodyLen

theorem SamePatterns.refl (layout : NaryPatternBatchLayout) : SamePatterns layout layout :=
  ⟨rfl, rfl, rfl, rfl⟩

theorem SamePatterns.trans {first second third : NaryPatternBatchLayout}
    (h : SamePatterns first second) (h' : SamePatterns second third)
    : SamePatterns first third where
  headArity := h'.headArity.trans h.headArity
  joinCount := h'.joinCount.trans h.joinCount
  bodyOffset := h'.bodyOffset.trans h.bodyOffset
  bodyLen := h'.bodyLen.trans h.bodyLen

/-- The atom arrays have one length. -/
structure Aligned (layout : NaryPatternBatchLayout) : Prop where
  arities : layout.atomArity.length = layout.atomCandidateSlot.length
  offsets : layout.atomBindingOffset.length = layout.atomCandidateSlot.length

/-- An atom at its place in the atom arrays, its codes at theirs. -/
structure HoldsAtom (layout : NaryPatternBatchLayout) (headArity index : Nat)
    (atom : BodyAtomPattern) : Prop where
  slot : layout.atomCandidateSlot[index]? = some atom.candidateSlot
  arity : layout.atomArity[index]? = some atom.bindings.length
  codes : ∃ offset, layout.atomBindingOffset[index]? = some offset
    ∧ ∀ k binding, atom.bindings[k]? = some binding →
      layout.bindingCodes[offset + k]? = some (bindingCode binding)
  admitted : ∀ binding ∈ atom.bindings, binding.Admitted headArity

/-- A pattern at its place in the pattern arrays, its atoms at theirs. -/
structure HoldsPattern (layout : NaryPatternBatchLayout) (index : Nat)
    (pattern : NaryRulePattern) : Prop where
  atoms_le : pattern.body.length ≤ NARY_MAX_BODY_ATOMS
  headArity_le : pattern.headArity ≤ NARY_MAX_HEAD_ARITY
  bodyLen : layout.bodyLen[index]? = some pattern.body.length
  body : ∃ offset, layout.bodyOffset[index]? = some offset
    ∧ ∀ k atom, pattern.body[k]? = some atom →
      layout.HoldsAtom pattern.headArity (offset + k) atom

end NaryPatternBatchLayout

open NaryPatternBatchLayout

/-- An entry of a list is an entry of every list that extends it. -/
theorem getElem?_of_prefix {α : Type*} {before after : List α} (grown : before <+: after)
    {index : Nat} {item : α} (found : before[index]? = some item)
    : after[index]? = some item := by
  obtain ⟨more, rfl⟩ := grown
  obtain ⟨within, _⟩ := List.getElem?_eq_some_iff.mp found
  rw [List.getElem?_append_left within, found]

theorem NaryPatternBatchLayout.HoldsAtom.mono {before after : NaryPatternBatchLayout}
    {headArity index : Nat} {atom : BodyAtomPattern}
    (holds : before.HoldsAtom headArity index atom) (grown : before.AtomsExtend after)
    : after.HoldsAtom headArity index atom where
  slot := getElem?_of_prefix grown.slots holds.slot
  arity := getElem?_of_prefix grown.arities holds.arity
  codes := by
    obtain ⟨offset, found, codes⟩ := holds.codes
    exact ⟨offset, getElem?_of_prefix grown.offsets found, fun k binding at_ =>
      getElem?_of_prefix grown.codes (codes k binding at_)⟩
  admitted := holds.admitted

theorem NaryPatternBatchLayout.HoldsPattern.mono {before after : NaryPatternBatchLayout}
    {index : Nat} {pattern : NaryRulePattern} (holds : before.HoldsPattern index pattern)
    (grown : before.PatternsExtend after)
    : after.HoldsPattern index pattern where
  atoms_le := holds.atoms_le
  headArity_le := holds.headArity_le
  bodyLen := getElem?_of_prefix grown.bodyLen holds.bodyLen
  body := by
    obtain ⟨offset, found, atoms⟩ := holds.body
    exact ⟨offset, getElem?_of_prefix grown.bodyOffset found, fun k atom at_ =>
      (atoms k atom at_).mono grown.atoms⟩

/-- The last entry of a list that one entry has made longer. -/
theorem getElem?_concat {α : Type*} {items : List α} {item found : α} {k : Nat}
    (at_ : (items ++ [item])[k]? = some found)
    : items[k]? = some found ∨ k = items.length ∧ found = item := by
  rcases Nat.lt_or_ge k items.length with earlier | last
  · rw [List.getElem?_append_left earlier] at at_
    exact .inl at_
  · rw [List.getElem?_append_right last] at at_
    obtain ⟨within, rfl⟩ := List.getElem?_eq_some_iff.mp at_
    rw [List.length_singleton] at within
    exact .inr ⟨by omega, by simp⟩

theorem countU32_ok {count converted : Nat} (run : countU32 count = .ok converted)
    : converted = count := by
  rw [countU32] at run
  split at run
  · cases run
    rfl
  · cases run

/-- One binding: its code is pushed, and it is one that the layout admits. -/
theorem flattenBinding_ok {p a headArity joins joins' : Nat}
    {layout layout' : NaryPatternBatchLayout} {binding : PatternVar}
    (run : flattenBinding p a headArity (layout, joins) binding = .ok (layout', joins'))
    : binding.Admitted headArity
      ∧ layout' = { layout with
          bindingCodes := layout.bindingCodes ++ [bindingCode binding] } := by
  obtain ⟨counted, check, pushed⟩ := bind_eq_ok.mp run
  cases pushed
  refine ⟨?_, rfl⟩
  cases binding with
  | head i =>
      rw [checkBinding] at check
      split at check
      · cases check
      · exact Nat.lt_of_not_le ‹_›
  | join j =>
      rw [checkBinding] at check
      split at check
      · cases check
      · exact Nat.lt_of_not_le ‹_›

/-- The bindings of an atom push their codes in order. -/
theorem flattenBindings_ok {p a headArity joins joins' : Nat}
    {layout layout' : NaryPatternBatchLayout} {bindings : List PatternVar}
    (run : bindings.foldlM (flattenBinding p a headArity) (layout, joins)
      = .ok (layout', joins'))
    : (∀ binding ∈ bindings, binding.Admitted headArity)
      ∧ layout' = { layout with
          bindingCodes := layout.bindingCodes ++ bindings.map bindingCode } := by
  refine foldlM_inv (flattenBinding p a headArity)
    (fun done state => (∀ binding ∈ done, binding.Admitted headArity)
      ∧ state.1 = { layout with
          bindingCodes := layout.bindingCodes ++ done.map bindingCode })
    bindings (by simp) ?_ run
  rintro done binding ⟨current, count⟩ ⟨next, count'⟩ _ ⟨admitted, rfl⟩ pushed
  obtain ⟨here, rfl⟩ := flattenBinding_ok pushed
  refine ⟨fun other member => ?_, by simp⟩
  rcases List.mem_append.mp member with earlier | last
  · exact admitted other earlier
  · rw [List.mem_singleton.mp last]
    exact here

/-- One atom is put at the end of the atom arrays, its codes at the end of theirs. -/
theorem flattenAtom_ok {p a headArity joins joins' : Nat}
    {layout layout' : NaryPatternBatchLayout} {atom : BodyAtomPattern}
    (aligned : layout.Aligned)
    (run : flattenAtom p headArity (layout, joins) (atom, a) = .ok (layout', joins'))
    : layout'.Aligned ∧ layout.AtomsExtend layout' ∧ layout.SamePatterns layout'
      ∧ layout'.atomCandidateSlot.length = layout.atomCandidateSlot.length + 1
      ∧ layout'.HoldsAtom headArity layout.atomCandidateSlot.length atom := by
  rw [flattenAtom] at run
  dsimp only at run
  split at run
  · cases run
  · obtain ⟨offset, counted, pushed⟩ := bind_eq_ok.mp run
    obtain rfl := countU32_ok counted
    obtain ⟨admitted, rfl⟩ := flattenBindings_ok pushed
    refine ⟨⟨by simp [aligned.arities], by simp [aligned.offsets]⟩,
      ⟨List.prefix_append _ _, List.prefix_append _ _, List.prefix_append _ _,
        List.prefix_append _ _⟩, ⟨rfl, rfl, rfl, rfl⟩, by simp, ?_⟩
    refine ⟨by simp, by simp [← aligned.arities], ?_, admitted⟩
    refine ⟨layout.bindingCodes.length, by simp [← aligned.offsets], fun k binding found => ?_⟩
    rw [List.getElem?_append_right (Nat.le_add_right _ _), Nat.add_sub_cancel_left,
      List.getElem?_map, found]
    rfl

/-- The atoms of a body are put one after another. -/
theorem flattenAtoms_ok {p headArity joins joins' : Nat}
    {layout layout' : NaryPatternBatchLayout} {body : List BodyAtomPattern}
    (aligned : layout.Aligned)
    (run : body.zipIdx.foldlM (flattenAtom p headArity) (layout, joins)
      = .ok (layout', joins'))
    : layout'.Aligned ∧ layout.AtomsExtend layout' ∧ layout.SamePatterns layout'
      ∧ ∀ k atom, body[k]? = some atom →
        layout'.HoldsAtom headArity (layout.atomCandidateSlot.length + k) atom := by
  have inv := foldlM_inv (flattenAtom p headArity)
    (fun done state => state.1.Aligned ∧ layout.AtomsExtend state.1
      ∧ layout.SamePatterns state.1
      ∧ state.1.atomCandidateSlot.length = layout.atomCandidateSlot.length + done.length
      ∧ ∀ k entry, done[k]? = some entry →
        state.1.HoldsAtom headArity (layout.atomCandidateSlot.length + k) entry.1)
    body.zipIdx ⟨aligned, .refl layout, .refl layout, rfl, by simp⟩ ?_ run
  · obtain ⟨aligned', grown, same, _, holds⟩ := inv
    refine ⟨aligned', grown, same, fun k atom at_ => ?_⟩
    exact holds k (atom, k) (by simp [List.getElem?_zipIdx, at_])
  · rintro done ⟨atom, a⟩ ⟨current, count⟩ ⟨next, count'⟩ _ ⟨al, grown, same, length, holds⟩ put
    obtain ⟨al', grown', same', length', here⟩ := flattenAtom_ok al put
    refine ⟨al', grown.trans grown', same.trans same', ?_, fun k entry at_ => ?_⟩
    · simp [length', length, Nat.add_assoc]
    · rcases getElem?_concat at_ with earlier | ⟨rfl, rfl⟩
      · exact (holds k entry earlier).mono grown'
      · exact length ▸ here

/-- One pattern is put at the end of the pattern arrays. -/
theorem flattenPattern_ok {index : Nat} {layout layout' : NaryPatternBatchLayout}
    {entry : NaryRulePattern × Nat} (aligned : layout.Aligned)
    (offsets : layout.bodyOffset.length = index) (lengths : layout.bodyLen.length = index)
    (run : flattenPattern layout entry = .ok layout')
    : layout'.Aligned ∧ layout.PatternsExtend layout'
      ∧ layout'.bodyOffset.length = index + 1 ∧ layout'.bodyLen.length = index + 1
      ∧ layout'.HoldsPattern index entry.1 := by
  obtain ⟨pattern, p⟩ := entry
  rw [flattenPattern] at run
  dsimp only at run
  split at run
  · cases run
  split at run
  · cases run
  split at run
  · cases run
  next _ atoms_le headArity_le =>
    obtain ⟨bodyOffset, counted, rest⟩ := bind_eq_ok.mp run
    obtain rfl := countU32_ok counted
    obtain ⟨bodyLen, counted, rest⟩ := bind_eq_ok.mp rest
    obtain rfl := countU32_ok counted
    obtain ⟨⟨atomsLayout, joins⟩, atoms, finish⟩ := bind_eq_ok.mp rest
    cases finish
    obtain ⟨aligned', grown, same, holds⟩ :=
      flattenAtoms_ok (by exact ⟨aligned.arities, aligned.offsets⟩) atoms
    have bodyOffset := same.bodyOffset
    have bodyLen := same.bodyLen
    dsimp only at bodyOffset bodyLen
    refine ⟨⟨aligned'.arities, aligned'.offsets⟩,
      ⟨⟨grown.slots, grown.arities, grown.offsets, grown.codes⟩, ?_, ?_⟩, ?_, ?_, ?_⟩
    · rw [bodyOffset]
      exact List.prefix_append _ _
    · rw [bodyLen]
      exact List.prefix_append _ _
    · simp [bodyOffset, offsets]
    · simp [bodyLen, lengths]
    · refine ⟨Nat.le_of_not_lt atoms_le, Nat.le_of_not_lt headArity_le,
        by simp [bodyLen, ← lengths], _, by simp [bodyOffset, ← offsets]; rfl,
        fun k atom at_ => ?_⟩
      obtain ⟨slot, arity, codes, admitted⟩ := holds k atom at_
      exact ⟨slot, arity, codes, admitted⟩

/-- Every pattern of a batch is in its layout. -/
theorem flattenPatterns_holds {patterns : List NaryRulePattern}
    {layout : NaryPatternBatchLayout} (run : flattenPatterns patterns = .ok layout) {p : Nat}
    {pattern : NaryRulePattern} (found : patterns[p]? = some pattern)
    : layout.HoldsPattern p pattern := by
  rw [flattenPatterns] at run
  split at run
  · cases run
  have inv := foldlM_inv flattenPattern
    (fun done layout => layout.Aligned
      ∧ layout.bodyOffset.length = done.length ∧ layout.bodyLen.length = done.length
      ∧ ∀ k entry, done[k]? = some entry → layout.HoldsPattern k entry.1)
    patterns.zipIdx ⟨⟨rfl, rfl⟩, rfl, rfl, by simp⟩ ?_ run
  · exact inv.2.2.2 p (pattern, p) (by simp [List.getElem?_zipIdx, found])
  · intro done entry current next _ kept put
    obtain ⟨aligned, offsets, lengths, holds⟩ := kept
    obtain ⟨aligned', grown, offsets', lengths', here⟩ :=
      flattenPattern_ok aligned offsets lengths put
    refine ⟨aligned', by simpa using offsets', by simpa using lengths', fun k other at_ => ?_⟩
    rcases getElem?_concat at_ with earlier | ⟨rfl, rfl⟩
    · exact (holds k other earlier).mono grown
    · exact here

-- Relations

theorem writeAt_some {α : Type} {values values' : List α} {index : Nat} {value : α}
    (run : writeAt values index value = some values')
    : index < values.length ∧ values' = values.set index value := by
  rw [writeAt] at run
  split at run
  · exact ⟨‹_›, (Option.some.inj run).symm⟩
  · cases run

/-- Transposing one row writes its values into its own cells only. -/
theorem writeRow_some {rowCount arity r : Nat} {values values' : List Nat} {row : Row}
    (run : writeRow rowCount arity values (row, r) = some values') (within : r < rowCount)
    : row.length = arity
      ∧ (∀ index, index % rowCount ≠ r → values'[index]? = values[index]?)
      ∧ ∀ k value, row[k]? = some value → values'[k * rowCount + r]? = some value := by
  rw [writeRow] at run
  split at run
  · cases run
  next width =>
    have inv := foldlM_some_inv
      (fun done current => (∀ index, index % rowCount ≠ r → current[index]? = values[index]?)
        ∧ ∀ cell ∈ done, row[cell.2]? = some cell.1
          ∧ current[cell.2 * rowCount + r]? = some cell.1)
      ⟨fun _ _ => rfl, by simp⟩ ?_ run
    · obtain ⟨others, cells⟩ := inv
      refine ⟨not_not.mp width, others, fun k value found => ?_⟩
      exact (cells (value, k) (List.mem_zipIdx_iff_getElem?.mpr found)).2
    · rintro done ⟨value, k⟩ current next member ⟨others, cells⟩ written
      have found : row[k]? = some value := List.mem_zipIdx_iff_getElem?.mp member
      obtain ⟨inside, rfl⟩ := writeAt_some written
      have here : (current.set (k * rowCount + r) value)[k * rowCount + r]? = some value := by
        simp [inside]
      refine ⟨fun index differs => ?_, fun cell done_ => ?_⟩
      · rw [List.getElem?_set_ne, others index differs]
        rintro rfl
        exact differs (Nat.mul_add_mod_of_lt within)
      · rcases List.mem_append.mp done_ with earlier | last
        · obtain ⟨found', held⟩ := cells cell earlier
          refine ⟨found', ?_⟩
          by_cases same : k = cell.2
          · subst same
            rw [found] at found'
            rw [here, found']
          · rw [List.getElem?_set_ne, held]
            intro clash
            exact same (Nat.eq_of_mul_eq_mul_right (by omega) (Nat.add_right_cancel clash))
        · rw [List.mem_singleton.mp last]
          exact ⟨found, here⟩

/-- A flat relation of some rows: its cells are the values of the rows, all of one width. -/
structure FlatRelation.Holds (flat : FlatRelation) (rows : List Row) : Prop where
  rowCount : flat.rowCount = rows.length
  cell : ∀ (r : Nat) row, rows[r]? = some row → ∀ k value, row[k]? = some value →
    flat.values[k * flat.rowCount + r]? = some value

theorem FlatRelation.fromRows_holds {rows : List Row} {arity : Nat} {flat : FlatRelation}
    (run : FlatRelation.fromRows rows arity = some flat)
    : flat.Holds rows := by
  obtain ⟨values, filled, finish⟩ := Option.bind_eq_some_iff.mp run
  split at finish
  · cases finish
    refine ⟨rfl, fun r row found => ?_⟩
    have inv := foldlM_some_inv
      (fun done current => ∀ entry ∈ done, rows[entry.2]? = some entry.1
        ∧ ∀ k value, entry.1[k]? = some value →
          current[k * rows.length + entry.2]? = some value)
      (by simp) ?_ filled
    · exact (inv (row, r) (List.mem_zipIdx_iff_getElem?.mpr found)).2
    · rintro done ⟨row, r⟩ current next member cells written
      have found : rows[r]? = some row := List.mem_zipIdx_iff_getElem?.mp member
      obtain ⟨within, _⟩ := List.getElem?_eq_some_iff.mp found
      obtain ⟨_, others, here⟩ := writeRow_some written within
      intro entry done_
      rcases List.mem_append.mp done_ with earlier | last
      · obtain ⟨found', held⟩ := cells entry earlier
        refine ⟨found', fun k value at_ => ?_⟩
        by_cases same : entry.2 = r
        · subst same
          rw [found] at found'
          cases found'
          exact here k value at_
        · obtain ⟨within', _⟩ := List.getElem?_eq_some_iff.mp found'
          have differs : (k * rows.length + entry.2) % rows.length ≠ r := by
            rw [Nat.mul_add_mod_of_lt within']
            exact same
          rw [others _ differs, held k value at_]
      · rw [List.mem_singleton.mp last]
        exact ⟨found, here⟩
  · cases finish

end Xlog.Induce
