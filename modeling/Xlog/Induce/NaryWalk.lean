import Xlog.Induce.NaryLayoutCorrectness

/-! The iterative walk decides coverage. A row of the walk follows a row of the reference on the joins that
its bound bits select, and a depth that finds nothing gives these joins back.
-/

namespace Xlog.Induce

-- Held joins

/-- The join values whose bits are set. -/
def held (joins : List Nat) (bound : BitVec 32) : Joins :=
  joins.mapIdx fun j value => if bound.getLsbD j then some value else none

@[simp] theorem length_held {joins : List Nat} {bound : BitVec 32}
    : (held joins bound).length = joins.length :=
  List.length_mapIdx

theorem getElem?_held {joins : List Nat} {bound : BitVec 32} {j : Nat}
    : (held joins bound)[j]?
      = joins[j]?.map fun value => if bound.getLsbD j then some value else none :=
  List.getElem?_mapIdx

theorem getLsbD_bit {j k : Nat} (within : j < 32)
    : ((1 : BitVec 32) <<< j).getLsbD k = decide (j = k) := by
  rw [BitVec.getLsbD_shiftLeft]
  by_cases same : j = k
  · subst same
    simp [within]
  · simp [same]
    omega

theorem and_bit_ne_zero_iff {bound : BitVec 32} {j : Nat} (within : j < 32)
    : bound &&& (1 : BitVec 32) <<< j ≠ 0 ↔ bound.getLsbD j = true := by
  constructor
  · intro differs
    by_contra unset
    refine differs (BitVec.eq_of_getLsbD_eq fun k _ => ?_)
    rw [BitVec.getLsbD_and, getLsbD_bit within]
    by_cases same : j = k
    · subst same
      simpa using unset
    · simp [same]
  · intro set zero
    have bit : (bound &&& (1 : BitVec 32) <<< j).getLsbD j = false := by
      rw [zero]
      exact BitVec.getLsbD_zero
    rw [BitVec.getLsbD_and, getLsbD_bit within, set, decide_eq_true rfl] at bit
    cases bit

/-- Bits that are fresh beside one more bit are fresh without it, and so is that bit when unset. -/
theorem and_or_bit_eq_zero {bound added : BitVec 32} {j : Nat} (within : j < 32)
    (unset : bound.getLsbD j = false) (fresh : (bound ||| (1 : BitVec 32) <<< j) &&& added = 0)
    : bound &&& ((1 : BitVec 32) <<< j ||| added) = 0 := by
  refine BitVec.eq_of_getLsbD_eq fun k _ => ?_
  have at_k : ((bound ||| (1 : BitVec 32) <<< j) &&& added).getLsbD k = false := by
    rw [fresh]
    exact BitVec.getLsbD_zero
  rw [BitVec.getLsbD_and, BitVec.getLsbD_or, getLsbD_bit within] at at_k
  rw [BitVec.getLsbD_and, BitVec.getLsbD_or, getLsbD_bit within]
  by_cases same : j = k
  · subst same
    simp [unset]
  · cases set : bound.getLsbD k
    · simp
    · simpa [set, same] using at_k

/-- Clearing bits that were added fresh gives the earlier bits back. -/
theorem or_and_not_eq {bound added : BitVec 32} (fresh : bound &&& added = 0)
    : (bound ||| added) &&& ~~~added = bound := by
  refine BitVec.eq_of_getLsbD_eq fun k within => ?_
  have at_k : (bound &&& added).getLsbD k = false := by
    rw [fresh]
    exact BitVec.getLsbD_zero
  rw [BitVec.getLsbD_and] at at_k
  rw [BitVec.getLsbD_and, BitVec.getLsbD_or, BitVec.getLsbD_not, decide_eq_true within]
  cases set : bound.getLsbD k <;> cases more : added.getLsbD k <;> simp_all

/-- Only the values under set bits are held. -/
theorem held_congr {joins joins' : List Nat} {bound : BitVec 32}
    (length_eq : joins'.length = joins.length)
    (kept : ∀ j, bound.getLsbD j = true → joins'[j]? = joins[j]?)
    : held joins' bound = held joins bound := by
  refine List.ext_getElem? fun j => ?_
  rw [getElem?_held, getElem?_held]
  cases set : bound.getLsbD j with
  | true => rw [kept j set]
  | false =>
      by_cases inside : j < joins.length
      · simp [inside, length_eq]
      · simp [inside, length_eq]

/-- Fewer bits hold fewer joins. -/
theorem held_and {joins joins' : List Nat} {bound : BitVec 32}
    (same : held joins' bound = held joins bound) (mask : BitVec 32)
    : held joins' (bound &&& mask) = held joins (bound &&& mask) := by
  refine List.ext_getElem? fun j => ?_
  have at_j := congrArg (·[j]?) same
  simp only [getElem?_held] at at_j ⊢
  cases set : bound.getLsbD j <;> cases first : joins'[j]? <;> cases second : joins[j]? <;>
    simp_all

/-- A value written under a fresh bit. -/
theorem held_set {joins : List Nat} {bound : BitVec 32} {j value : Nat} (within : j < 32)
    : held (joins.set j value) (bound ||| (1 : BitVec 32) <<< j)
      = (held joins bound).set j (some value) := by
  refine List.ext_getElem? fun k => ?_
  rw [getElem?_held, List.getElem?_set, List.getElem?_set, getElem?_held, BitVec.getLsbD_or,
    getLsbD_bit within]
  by_cases same : j = k
  · subst same
    by_cases inside : j < joins.length <;> simp [inside]
  · simp [same]

-- Rows

/-- A scan that does what a row of the reference does, with the bits it has added. -/
structure RowScan.Follows (scan : RowScan) (result : RowMatch) (joins : List Nat)
    (bound mask : BitVec 32) : Prop where
  matched : scan.matched = result.matched
  joins_eq : held scan.joins scan.bound = result.joins
  added : ∃ added, bound &&& added = 0 ∧ scan.bound = bound ||| added
    ∧ scan.mask = mask ||| added
  kept : ∀ j, bound.getLsbD j = true → scan.joins[j]? = joins[j]?

/-- What the loop over a row reads: the codes of the bindings and the cells of the row. -/
structure AtomView.Reads (view : AtomView) (bindingCodes : List (BitVec 32)) (r start : Nat)
    (row : Row) (bindings : List PatternVar) : Prop where
  codes : ∀ k binding, bindings[k]? = some binding →
    bindingCodes[view.bindingOffset + (start + k)]? = some (bindingCode binding)
  cells : ∀ (k : Nat) value, row[k]? = some value →
    view.relation.values[(start + k) * view.relation.rowCount + r]? = some value

theorem AtomView.Reads.tail {view : AtomView} {bindingCodes : List (BitVec 32)} {r start : Nat}
    {value : Nat} {row : Row} {binding : PatternVar} {bindings : List PatternVar}
    (reads : view.Reads bindingCodes r start (value :: row) (binding :: bindings))
    : view.Reads bindingCodes r (start + 1) row bindings where
  codes k other found := by
    have shifted := reads.codes (k + 1) other found
    rwa [Nat.add_comm k 1, ← Nat.add_assoc start 1 k] at shifted
  cells k other found := by
    have shifted := reads.cells (k + 1) other found
    rwa [Nat.add_comm k 1, ← Nat.add_assoc start 1 k] at shifted

section

variable {bindingCodes : List (BitVec 32)} {tuple : Row} {view : AtomView} {r position value : Nat}
  {rest : List Nat} {joins : List Nat} {bound mask : BitVec 32}

/-- A head position compares its value with the example. -/
theorem matchRow_head {i fixed : Nat} (small : i < 8)
    (cell : view.relation.values[position * view.relation.rowCount + r]? = some value)
    (code : bindingCodes[view.bindingOffset + position]? = some (bindingCode (.head i)))
    (found : tuple[i]? = some fixed)
    : matchRow bindingCodes tuple view r (position :: rest) joins bound mask
      = if fixed ≠ value then some ⟨false, joins, bound, mask⟩
        else matchRow bindingCodes tuple view r rest joins bound mask := by
  obtain ⟨flag, index⟩ := head_code i small
  simp only [matchRow, cell, code, index, flag, found, Option.bind_eq_bind, Option.bind_some,
    ne_eq, not_true_eq_false, if_false]

/-- A join position compares its value with a held one and writes it otherwise. -/
theorem matchRow_join {j old : Nat} (small : j < 8)
    (cell : view.relation.values[position * view.relation.rowCount + r]? = some value)
    (code : bindingCodes[view.bindingOffset + position]? = some (bindingCode (.join j)))
    (found : joins[j]? = some old)
    : matchRow bindingCodes tuple view r (position :: rest) joins bound mask
      = if bound.getLsbD j = true then
          if old ≠ value then some ⟨false, joins, bound, mask⟩
          else matchRow bindingCodes tuple view r rest joins bound mask
        else matchRow bindingCodes tuple view r rest (joins.set j value)
          (bound ||| (1 : BitVec 32) <<< j) (mask ||| (1 : BitVec 32) <<< j) := by
  obtain ⟨flag, index⟩ := join_code j small
  obtain ⟨inside, _⟩ := List.getElem?_eq_some_iff.mp found
  simp only [matchRow, cell, code, index, found, Option.bind_eq_bind, Option.bind_some,
    if_pos flag, and_bit_ne_zero_iff (Nat.lt_trans small (by decide : 8 < 32)), writeAt,
    if_pos inside]

end

/-- The loop over the positions of a row follows the reference, by induction on the bindings. -/
theorem matchRow_follows {bindingCodes : List (BitVec 32)} {tuple : Row} {view : AtomView}
    {r start headArity : Nat} {row : Row} {bindings : List PatternVar} {joins : List Nat}
    {bound mask : BitVec 32} {newlyBound : List Nat}
    (reads : view.Reads bindingCodes r start row bindings)
    (width : row.length = bindings.length) (headArity_le : headArity ≤ NARY_MAX_HEAD_ARITY)
    (arity : tuple.length = headArity) (joinCount : joins.length = NARY_MAX_JOIN_VARS)
    (admitted : ∀ binding ∈ bindings, binding.Admitted headArity)
    : ∃ scan result,
        matchRow bindingCodes tuple view r (List.range' start bindings.length) joins bound mask
          = some scan
        ∧ bindRow tuple (row.zip bindings) (held joins bound) newlyBound = some result
        ∧ scan.Follows result joins bound mask := by
  induction bindings generalizing row start joins bound mask newlyBound with
  | nil =>
      refine ⟨⟨true, joins, bound, mask⟩, ⟨true, held joins bound, newlyBound⟩, rfl, ?_, rfl,
        rfl, ⟨0, by simp⟩, fun _ _ => rfl⟩
      rw [List.zip_nil_right]
      rfl
  | cons binding bindings ih =>
      cases row with
      | nil => cases width
      | cons value row =>
          obtain ⟨here, later⟩ := List.forall_mem_cons.mp admitted
          have width' : row.length = bindings.length := Nat.succ_inj.mp width
          have code := reads.codes 0 binding rfl
          have cell := reads.cells 0 value rfl
          rw [Nat.add_zero] at code cell
          have range : List.range' start (binding :: bindings).length
              = start :: List.range' (start + 1) bindings.length :=
            List.range'_succ
          rw [range, List.zip_cons_cons]
          cases binding with
          | head i =>
              have within : i < tuple.length := arity ▸ here
              have small : i < 8 := Nat.lt_of_lt_of_le within (arity ▸ headArity_le)
              have found : tuple[i]? = some tuple[i] := List.getElem?_eq_getElem within
              rw [matchRow_head small cell code found, bindRow, found, Option.bind_eq_bind,
                Option.bind_some]
              split
              · exact ⟨_, _, rfl, rfl, rfl, rfl, ⟨0, by simp⟩, fun _ _ => rfl⟩
              · exact ih reads.tail width' joinCount later
          | join j =>
              have small : j < 8 := here
              have inside : j < joins.length := joinCount ▸ here
              have found : joins[j]? = some joins[j] := List.getElem?_eq_getElem inside
              rw [matchRow_join small cell code found, bindRow, getElem?_held, found,
                Option.map_some, Option.bind_eq_bind, Option.bind_some]
              cases set : bound.getLsbD j with
              | true =>
                  simp only [if_true]
                  split
                  · exact ⟨_, _, rfl, rfl, rfl, rfl, ⟨0, by simp⟩, fun _ _ => rfl⟩
                  · exact ih reads.tail width' joinCount later
              | false =>
                  have below : j < 32 := Nat.lt_trans small (by decide)
                  simp only [Bool.false_eq_true, if_false]
                  rw [← held_set below]
                  obtain ⟨scan, result, ran, ran', follows⟩ :=
                    @ih (start + 1) row (joins.set j value) (bound ||| (1 : BitVec 32) <<< j)
                      (mask ||| (1 : BitVec 32) <<< j) (newlyBound ++ [j]) reads.tail width'
                      (List.length_set.trans joinCount) later
                  obtain ⟨added, fresh, bound_eq, mask_eq⟩ := follows.added
                  refine ⟨scan, result, ran, ran', follows.matched, follows.joins_eq,
                    ⟨(1 : BitVec 32) <<< j ||| added, ?_, ?_, ?_⟩, fun k bit => ?_⟩
                  · exact and_or_bit_eq_zero below set fresh
                  · rw [bound_eq, BitVec.or_assoc]
                  · rw [mask_eq, BitVec.or_assoc]
                  · rw [follows.kept k (by rw [BitVec.getLsbD_or, bit, Bool.true_or]),
                      List.getElem?_set_ne]
                    rintro rfl
                    exact Bool.false_ne_true (set.symm.trans bit)

/-- Without its own bits a scan holds what was held before. -/
theorem RowScan.Follows.undone {scan : RowScan} {result : RowMatch} {joins : List Nat}
    {bound : BitVec 32} (follows : scan.Follows result joins bound 0)
    (length_eq : scan.joins.length = joins.length)
    : scan.bound &&& ~~~scan.mask = bound
      ∧ held scan.joins bound = held joins bound := by
  obtain ⟨added, fresh, bound_eq, mask_eq⟩ := follows.added
  have mask_eq' : scan.mask = added := mask_eq.trans (by simp)
  refine ⟨?_, held_congr length_eq follows.kept⟩
  rw [bound_eq, mask_eq', or_and_not_eq fresh]

-- Runs

/-- The walk ends with an answer, after some number of turns. -/
def Answers (step : WalkState → Option (Bool ⊕ WalkState)) (state : WalkState) (answer : Bool)
    : Prop :=
  ∃ turns, ∀ fuel, turns ≤ fuel → walk step fuel state = some (some answer)

/-- What one turn gives is the answer or leads to it. -/
def Leads (step : WalkState → Option (Bool ⊕ WalkState)) (next : Option (Bool ⊕ WalkState))
    (answer : Bool) : Prop :=
  next = some (.inl answer) ∨ ∃ state, next = some (.inr state) ∧ Answers step state answer

theorem answers_iff_leads {step : WalkState → Option (Bool ⊕ WalkState)} {state : WalkState}
    {answer : Bool}
    : Answers step state answer ↔ Leads step (step state) answer := by
  constructor
  · rintro ⟨turns, run⟩
    cases stepped : step state with
    | none =>
        have first := run (turns + 1) (Nat.le_succ turns)
        simp [walk, stepped] at first
    | some next =>
        cases next with
        | inl reached =>
            have first := run (turns + 1) (Nat.le_succ turns)
            have same : reached = answer := by simpa [walk, stepped] using first
            exact .inl (same ▸ rfl)
        | inr next =>
            refine .inr ⟨next, rfl, turns, fun fuel enough => ?_⟩
            have later := run (fuel + 1) (Nat.le_succ_of_le enough)
            simpa [walk, stepped] using later
  · rintro (ended | ⟨next, stepped, turns, run⟩)
    · refine ⟨1, fun fuel enough => ?_⟩
      obtain ⟨fuel, rfl⟩ := Nat.exists_eq_succ_of_ne_zero (by omega : fuel ≠ 0)
      simp [walk, ended]
    · refine ⟨turns + 1, fun fuel enough => ?_⟩
      obtain ⟨fuel, rfl⟩ := Nat.exists_eq_succ_of_ne_zero (by omega : fuel ≠ 0)
      simpa [walk, stepped] using run fuel (by omega)

/-- The fixed-size arrays of a walk. -/
structure WalkState.Sized (state : WalkState) : Prop where
  joins : state.joins.length = NARY_MAX_JOIN_VARS
  cursors : state.rowCursor.length = NARY_MAX_BODY_ATOMS
  masks : state.depthMask.length = NARY_MAX_BODY_ATOMS

/-- A later state at one depth that holds what an earlier one did, the depths above untouched. -/
structure WalkState.GivesBack (before after : WalkState) : Prop where
  depth : after.depth = before.depth
  bound : after.bound = before.bound
  joins_eq : held after.joins before.bound = held before.joins before.bound
  cursors : ∀ k < before.depth, after.rowCursor[k]? = before.rowCursor[k]?
  masks : ∀ k < before.depth, after.depthMask[k]? = before.depthMask[k]?
  sized : after.Sized

theorem WalkState.GivesBack.refl {state : WalkState} (sized : state.Sized)
    : state.GivesBack state :=
  ⟨rfl, rfl, rfl, fun _ _ => rfl, fun _ _ => rfl, sized⟩

theorem WalkState.GivesBack.trans {first second third : WalkState}
    (h : first.GivesBack second) (h' : second.GivesBack third)
    : first.GivesBack third where
  depth := h'.depth.trans h.depth
  bound := h'.bound.trans h.bound
  joins_eq := by
    have later := h'.joins_eq
    rw [h.bound] at later
    exact later.trans h.joins_eq
  cursors k above := (h'.cursors k (h.depth ▸ above)).trans (h.cursors k above)
  masks k above := (h'.masks k (h.depth ▸ above)).trans (h.masks k above)
  sized := h'.sized

-- Turns

/-- The view of an atom at some index of a layout, over the rows of its relation. -/
structure AtomView.Shows (view : AtomView) (layout : NaryPatternBatchLayout)
    (flats : List FlatRelation) (index : Nat) (atom : BodyAtomPattern) (rows : List Row)
    : Prop where
  slot : layout.atomCandidateSlot[index]? = some atom.candidateSlot
  relation : flats[atom.candidateSlot]? = some view.relation
  arity : layout.atomArity[index]? = some view.arity
  offset : layout.atomBindingOffset[index]? = some view.bindingOffset
  arity_eq : view.arity = atom.bindings.length
  codes : ∀ k binding, atom.bindings[k]? = some binding →
    layout.bindingCodes[view.bindingOffset + k]? = some (bindingCode binding)
  holds : view.relation.Holds rows

section

variable {layout : NaryPatternBatchLayout} {flats : List FlatRelation} {tuple : Row}
  {offset bodyLen cursor : Nat} {state : WalkState} {atom : BodyAtomPattern} {rows : List Row}
  {view : AtomView} {scan : RowScan}

theorem walkStep_eq (within : state.depth < bodyLen)
    (shown : view.Shows layout flats (offset + state.depth) atom rows)
    (at_cursor : state.rowCursor[state.depth]? = some cursor)
    : walkStep layout offset bodyLen flats tuple state
      = scanRows layout.bindingCodes tuple bodyLen view (rows.length - cursor) state
          >>= fun result => if result.1 then some (.inr result.2) else unwind result.2 := by
  have differs : ¬ state.depth = bodyLen := Nat.ne_of_lt within
  simp only [walkStep, if_neg differs, shown.slot, shown.relation, shown.arity,
    shown.offset, at_cursor, shown.holds.rowCount, Option.bind_eq_bind, Option.bind_some]
  rfl

/-- A depth without rows left is unwound. -/
theorem walkStep_exhausted (within : state.depth < bodyLen)
    (shown : view.Shows layout flats (offset + state.depth) atom rows)
    (at_cursor : state.rowCursor[state.depth]? = some rows.length)
    : walkStep layout offset bodyLen flats tuple state = unwind state := by
  rw [walkStep_eq within shown at_cursor, Nat.sub_self]
  rfl

/-- The state after a row that does not match. -/
def WalkState.advance (state : WalkState) (scan : RowScan) (cursor : Nat) : WalkState :=
  { state with
    joins := scan.joins
    bound := scan.bound &&& ~~~scan.mask
    rowCursor := state.rowCursor.set state.depth (cursor + 1) }

theorem walkStep_unmatched (within : state.depth < bodyLen)
    (shown : view.Shows layout flats (offset + state.depth) atom rows)
    (at_cursor : state.rowCursor[state.depth]? = some cursor) (left : cursor < rows.length)
    (ran : matchRow layout.bindingCodes tuple view cursor (List.range view.arity) state.joins
      state.bound 0 = some scan)
    (unmatched : scan.matched = false)
    : walkStep layout offset bodyLen flats tuple state
      = walkStep layout offset bodyLen flats tuple (state.advance scan cursor) := by
  obtain ⟨inside, _⟩ := List.getElem?_eq_some_iff.mp at_cursor
  have next_cursor : (state.advance scan cursor).rowCursor[state.depth]? = some (cursor + 1) :=
    List.getElem?_set_self inside
  have remaining : rows.length - cursor = (rows.length - (cursor + 1)) + 1 := by omega
  rw [walkStep_eq within shown at_cursor,
    @walkStep_eq layout flats tuple offset bodyLen (cursor + 1) (state.advance scan cursor)
      atom rows view within shown next_cursor,
    remaining, scanRows, at_cursor]
  simp only [Option.bind_eq_bind, Option.bind_some, ran, unmatched, Bool.false_eq_true,
    if_false, writeAt, if_pos inside]
  rfl

/-- The state after a row that matches. -/
def WalkState.deeper (state : WalkState) (bodyLen : Nat) (scan : RowScan) : WalkState where
  joins := scan.joins
  bound := scan.bound
  rowCursor :=
    if state.depth + 1 < bodyLen then state.rowCursor.set (state.depth + 1) 0
    else state.rowCursor
  depthMask := state.depthMask.set state.depth scan.mask
  depth := state.depth + 1

theorem WalkState.Sized.deeper (sized : state.Sized) (bodyLen : Nat) (scan : RowScan)
    (length_eq : scan.joins.length = state.joins.length)
    : (state.deeper bodyLen scan).Sized where
  joins := length_eq.trans sized.joins
  cursors := by
    have cursors := sized.cursors
    by_cases more : state.depth + 1 < bodyLen <;> simpa [WalkState.deeper, more] using cursors
  masks := List.length_set.trans sized.masks

theorem WalkState.deeper_rowCursor_above (state : WalkState) {scan : RowScan} {k : Nat}
    (above : k < state.depth + 1)
    : (state.deeper bodyLen scan).rowCursor[k]? = state.rowCursor[k]? := by
  by_cases more : state.depth + 1 < bodyLen
  · simp only [WalkState.deeper, if_pos more]
    exact List.getElem?_set_ne (Nat.ne_of_gt above)
  · simp only [WalkState.deeper, if_neg more]

theorem walkStep_matched (within : state.depth < bodyLen)
    (bodyLen_le : bodyLen ≤ NARY_MAX_BODY_ATOMS) (sized : state.Sized)
    (shown : view.Shows layout flats (offset + state.depth) atom rows)
    (at_cursor : state.rowCursor[state.depth]? = some cursor) (left : cursor < rows.length)
    (ran : matchRow layout.bindingCodes tuple view cursor (List.range view.arity) state.joins
      state.bound 0 = some scan)
    (matched : scan.matched = true)
    : walkStep layout offset bodyLen flats tuple state
      = some (.inr (state.deeper bodyLen scan)) := by
  have remaining : rows.length - cursor = (rows.length - (cursor + 1)) + 1 := by omega
  have masks := sized.masks
  have cursors := sized.cursors
  have descended : descend bodyLen state scan = some (state.deeper bodyLen scan) := by
    rw [descend, writeAt, if_pos (by omega), Option.bind_eq_bind, Option.bind_some]
    dsimp only
    by_cases more : state.depth + 1 < bodyLen
    · rw [if_pos more, writeAt, if_pos (by omega)]
      simp [WalkState.deeper, more]
    · rw [if_neg more]
      simp [WalkState.deeper, more]
  rw [walkStep_eq within shown at_cursor, remaining, scanRows, at_cursor]
  simp only [Option.bind_eq_bind, Option.bind_some, ran, matched, if_true, descended,
    Option.pure_def]

/-- The state after a depth has been given up. -/
def WalkState.retry (state : WalkState) (depth cursor : Nat) (mask : BitVec 32) : WalkState :=
  { state with
    bound := state.bound &&& ~~~mask
    rowCursor := state.rowCursor.set depth (cursor + 1)
    depth := depth }

theorem unwind_succ {depth : Nat} {mask : BitVec 32} (at_depth : state.depth = depth + 1)
    (at_mask : state.depthMask[depth]? = some mask)
    (at_cursor : state.rowCursor[depth]? = some cursor)
    : unwind state = some (.inr (state.retry depth cursor mask)) := by
  obtain ⟨inside, _⟩ := List.getElem?_eq_some_iff.mp at_cursor
  rw [unwind, at_depth]
  simp only [at_mask, at_cursor, Option.bind_eq_bind, Option.bind_some, writeAt,
    if_pos inside]
  rfl

end

-- Depths

/-- A layout with a pattern at some offset, and flat relations of the candidates that the pattern reads. -/
structure Walkable (layout : NaryPatternBatchLayout) (offset : Nat) (pattern : NaryRulePattern)
    (candidates : List (List Row)) (flats : List FlatRelation) (tuple : Row) : Prop where
  atoms_le : pattern.body.length ≤ NARY_MAX_BODY_ATOMS
  headArity_le : pattern.headArity ≤ NARY_MAX_HEAD_ARITY
  arity : tuple.length = pattern.headArity
  atoms : ∀ k atom, pattern.body[k]? = some atom →
    layout.HoldsAtom pattern.headArity (offset + k) atom
  relations : ∀ atom ∈ pattern.body, ∃ rows flat,
    candidates[atom.candidateSlot]? = some rows ∧ flats[atom.candidateSlot]? = some flat
    ∧ flat.Holds rows ∧ ∀ row ∈ rows, row.length = atom.bindings.length

/-- An atom whose row, under an assignment, is in its relation. -/
def BodyAtomPattern.Satisfied (atom : BodyAtomPattern) (candidates : List (List Row))
    (tuple : Row) (assignment : Nat → Nat) : Prop :=
  ∃ rows, candidates[atom.candidateSlot]? = some rows
    ∧ atom.instantiate tuple assignment ∈ rows

/-- The held joins extend to an assignment that satisfies what is left of a body. -/
def WalkState.Completes (state : WalkState) (candidates : List (List Row)) (tuple : Row)
    (body : List BodyAtomPattern) : Prop :=
  ∃ assignment, Agrees (held state.joins state.bound) assignment
    ∧ ∀ atom ∈ body, atom.Satisfied candidates tuple assignment

section

variable {layout : NaryPatternBatchLayout} {offset : Nat} {pattern : NaryRulePattern}
  {candidates : List (List Row)} {flats : List FlatRelation} {tuple : Row}

theorem Walkable.view (walkable : Walkable layout offset pattern candidates flats tuple)
    {k : Nat} {atom : BodyAtomPattern} (found : pattern.body[k]? = some atom)
    : ∃ (view : AtomView) (rows : List Row),
        candidates[atom.candidateSlot]? = some rows
        ∧ view.Shows layout flats (offset + k) atom rows
        ∧ (∀ row ∈ rows, row.length = atom.bindings.length)
        ∧ ∀ binding ∈ atom.bindings, binding.Admitted pattern.headArity := by
  obtain ⟨slot, arity, ⟨bindingOffset, offset_eq, codes⟩, admitted⟩ := walkable.atoms k atom found
  obtain ⟨rows, flat, rows_eq, flat_eq, holds, widths⟩ :=
    walkable.relations atom (List.mem_of_getElem? found)
  exact ⟨⟨flat, atom.bindings.length, bindingOffset⟩, rows, rows_eq,
    ⟨slot, flat_eq, arity, offset_eq, rfl, codes, holds⟩, widths, admitted⟩

/-- One row of the walk: the scan it does, and what the row says of the held joins. -/
theorem Walkable.scan (walkable : Walkable layout offset pattern candidates flats tuple)
    {state : WalkState} (sized : state.Sized) {atom : BodyAtomPattern} {rows : List Row}
    {view : AtomView} (shown : view.Shows layout flats (offset + state.depth) atom rows)
    (admitted : ∀ binding ∈ atom.bindings, binding.Admitted pattern.headArity) {cursor : Nat}
    {row : Row} (at_cursor : rows[cursor]? = some row)
    (width : row.length = atom.bindings.length)
    : ∃ scan, matchRow layout.bindingCodes tuple view cursor (List.range view.arity) state.joins
          state.bound 0 = some scan
        ∧ scan.joins.length = state.joins.length
        ∧ scan.bound &&& ~~~scan.mask = state.bound
        ∧ held scan.joins state.bound = held state.joins state.bound
        ∧ (scan.matched = true → ∀ assignment,
          Agrees (held scan.joins scan.bound) assignment
          ↔ Agrees (held state.joins state.bound) assignment
            ∧ row = atom.instantiate tuple assignment)
        ∧ (scan.matched = false → ∀ assignment,
          Agrees (held state.joins state.bound) assignment →
          row ≠ atom.instantiate tuple assignment) := by
  have reads : view.Reads layout.bindingCodes cursor 0 row atom.bindings := by
    refine ⟨fun k binding found => ?_, fun k value found => ?_⟩
    · rw [Nat.zero_add]
      exact shown.codes k binding found
    · rw [Nat.zero_add]
      exact shown.holds.cell cursor row at_cursor k value found
  obtain ⟨scan, result, ran, bound, follows⟩ :=
    @matchRow_follows layout.bindingCodes tuple view cursor 0 pattern.headArity row
      atom.bindings state.joins state.bound 0 [] reads width walkable.headArity_le
      walkable.arity sized.joins admitted
  have readable : ∀ pair ∈ row.zip atom.bindings,
      pair.2.Readable tuple (held state.joins state.bound).length := by
    intro pair member
    have here := admitted pair.2 (List.of_mem_zip member).2
    cases binding : pair.2 with
    | head i =>
        rw [binding] at here
        exact Nat.lt_of_lt_of_eq here walkable.arity.symm
    | join j =>
        rw [binding] at here
        rw [length_held, sized.joins]
        exact here
  obtain ⟨result', bound', right⟩ :=
    @bindRow_right tuple (row.zip atom.bindings) (held state.joins state.bound) [] readable
  obtain rfl : result' = result := Option.some.inj (bound'.symm.trans bound)
  have length_eq : scan.joins.length = state.joins.length := by
    have lengths := right.length_eq
    rwa [← follows.joins_eq, length_held, length_held] at lengths
  obtain ⟨cleared, undone⟩ := follows.undone length_eq
  refine ⟨scan, ?_, length_eq, cleared, undone, fun matched assignment => ?_,
    fun unmatched assignment agrees same => ?_⟩
  · rw [shown.arity_eq, List.range_eq_range']
    exact ran
  · rw [follows.joins_eq, right.matched_iff (follows.matched ▸ matched), forall_zip_iff width]
    rfl
  · exact right.unmatched (follows.matched ▸ unmatched) assignment agrees
      ((forall_zip_iff width).mpr same)

/-- What a depth has to do for the walk to answer: true when the held joins complete with one of the rows
left, and otherwise whatever giving the depth up leads to.
-/
structure Continues (step : WalkState → Option (Bool ⊕ WalkState)) (state : WalkState)
    (goal : Prop) (answer : Bool) : Prop where
  completes : goal → answer = true
  fails : ¬ goal → ∀ after, state.GivesBack after → Leads step (unwind after) answer

/-- The held joins complete with one of some rows and an assignment for what follows. -/
def WalkState.CompletesIn (state : WalkState) (candidates : List (List Row)) (tuple : Row)
    (atom : BodyAtomPattern) (rows : List Row) (body : List BodyAtomPattern) : Prop :=
  ∃ assignment, Agrees (held state.joins state.bound) assignment
    ∧ atom.instantiate tuple assignment ∈ rows
    ∧ ∀ atom ∈ body, atom.Satisfied candidates tuple assignment

/-- The rows of one depth, by induction on those left. -/
theorem Walkable.exploreRows (walkable : Walkable layout offset pattern candidates flats tuple)
    {before remaining : List BodyAtomPattern} {atom : BodyAtomPattern}
    (split : pattern.body = before ++ atom :: remaining) {view : AtomView} {rows : List Row}
    (shown : view.Shows layout flats (offset + before.length) atom rows)
    (widths : ∀ row ∈ rows, row.length = atom.bindings.length)
    (admitted : ∀ binding ∈ atom.bindings, binding.Admitted pattern.headArity) {answer : Bool}
    (below : ∀ state : WalkState, state.depth = before.length + 1 → state.Sized →
      (remaining ≠ [] → state.rowCursor[state.depth]? = some 0) →
      Continues (walkStep layout offset pattern.body.length flats tuple) state
        (state.Completes candidates tuple remaining) answer →
      Answers (walkStep layout offset pattern.body.length flats tuple) state answer)
    {done left : List Row} (rows_eq : rows = done ++ left) {state : WalkState}
    (at_depth : state.depth = before.length) (sized : state.Sized)
    (at_cursor : state.rowCursor[state.depth]? = some done.length)
    (continues : Continues (walkStep layout offset pattern.body.length flats tuple) state
      (state.CompletesIn candidates tuple atom left remaining) answer)
    : Answers (walkStep layout offset pattern.body.length flats tuple) state answer := by
  induction left generalizing done state with
  | nil =>
      have within : state.depth < pattern.body.length := by simp [at_depth, split]
      have exhausted : done.length = rows.length := by simp [rows_eq]
      rw [exhausted] at at_cursor
      rw [answers_iff_leads, walkStep_exhausted within (at_depth ▸ shown) at_cursor]
      refine continues.fails ?_ state (.refl sized)
      rintro ⟨_, _, member, _⟩
      cases member
  | cons row left ih =>
      have within : state.depth < pattern.body.length := by simp [at_depth, split]
      have shown : view.Shows layout flats (offset + state.depth) atom rows :=
        at_depth ▸ shown
      have found : rows[done.length]? = some row := by simp [rows_eq]
      have left_lt : done.length < rows.length := by simp [rows_eq]
      have width := widths row (List.mem_of_getElem? found)
      obtain ⟨inside, _⟩ := List.getElem?_eq_some_iff.mp at_cursor
      obtain ⟨scan, ran, length_eq, cleared, undone, matched_iff, unmatched_ne⟩ :=
        walkable.scan sized shown admitted found width
      -- A row that does not help leaves the question to the later rows.
      have next : (∀ assignment, Agrees (held state.joins state.bound) assignment →
          (∀ atom ∈ remaining, atom.Satisfied candidates tuple assignment) →
          row ≠ atom.instantiate tuple assignment) →
          ∀ later : WalkState, state.GivesBack later →
          later.rowCursor[later.depth]? = some (done.length + 1) →
          Answers (walkStep layout offset pattern.body.length flats tuple) later answer := by
        intro useless later back cursor
        have completes_iff : later.CompletesIn candidates tuple atom left remaining
            ↔ state.CompletesIn candidates tuple atom (row :: left) remaining := by
          rw [WalkState.CompletesIn, back.bound, back.joins_eq]
          refine exists_congr fun assignment => and_congr_right fun agrees => ?_
          rw [List.mem_cons]
          constructor
          · rintro ⟨member, rest⟩
            exact ⟨.inr member, rest⟩
          · rintro ⟨same | member, rest⟩
            · exact absurd same.symm (useless assignment agrees rest)
            · exact ⟨member, rest⟩
        have rows_eq' : rows = (done ++ [row]) ++ left := by simp [rows_eq]
        have cursor' : later.rowCursor[later.depth]? = some (done ++ [row]).length := by
          simpa using cursor
        refine ih rows_eq' (back.depth.trans at_depth) back.sized cursor' ⟨?_, ?_⟩
        · exact fun completes => continues.completes (completes_iff.mp completes)
        · intro fails after back'
          exact continues.fails (completes_iff.not.mp fails) after (back.trans back')
      cases matched : scan.matched with
      | false =>
          rw [answers_iff_leads,
            walkStep_unmatched within shown at_cursor left_lt ran matched, ← answers_iff_leads]
          refine next (fun assignment agrees _ => unmatched_ne matched assignment agrees)
            (state.advance scan done.length) ⟨rfl, cleared, undone, fun k above => ?_,
              fun _ _ => rfl, ⟨length_eq.trans sized.joins, ?_, sized.masks⟩⟩ ?_
          · exact List.getElem?_set_ne (Nat.ne_of_gt above)
          · exact List.length_set.trans sized.cursors
          · exact List.getElem?_set_self inside
      | true =>
          rw [answers_iff_leads,
            walkStep_matched within walkable.atoms_le sized shown at_cursor left_lt ran matched]
          have deeper := sized.deeper pattern.body.length scan length_eq
          refine .inr ⟨_, rfl, below _ (congrArg (· + 1) at_depth) deeper (fun more => ?_)
            ⟨?_, ?_⟩⟩
          · have more' : state.depth + 1 < pattern.body.length := by
              have positive := List.length_pos_iff.mpr more
              simp [at_depth, split, positive]
            have cursors := sized.cursors
            have atoms_le := walkable.atoms_le
            simp only [WalkState.deeper, if_pos more']
            exact List.getElem?_set_self (by omega)
          · rintro ⟨assignment, agrees, rest⟩
            obtain ⟨agrees, same⟩ := (matched_iff matched assignment).mp agrees
            exact continues.completes
              ⟨assignment, agrees, same ▸ List.mem_cons_self, rest⟩
          · intro fails after back
            have at_mask : after.depthMask[state.depth]? = some scan.mask := by
              rw [back.masks state.depth (Nat.lt_succ_self _)]
              exact List.getElem?_set_self (by rw [sized.masks, ← sized.cursors]; exact inside)
            have above_cursor : ∀ k < state.depth + 1,
                after.rowCursor[k]? = state.rowCursor[k]? := by
              intro k above
              rw [back.cursors k above]
              exact state.deeper_rowCursor_above above
            have at_cursor' : after.rowCursor[state.depth]? = some done.length :=
              (above_cursor _ (Nat.lt_succ_self _)).trans at_cursor
            rw [unwind_succ back.depth at_mask at_cursor']
            have bound_eq : after.bound &&& ~~~scan.mask = state.bound := by
              rw [back.bound]
              exact cleared
            refine .inr ⟨_, rfl, next (fun assignment agrees rest same => fails
                ⟨assignment, (matched_iff matched assignment).mpr ⟨agrees, same⟩, rest⟩)
              (after.retry state.depth done.length scan.mask)
              ⟨rfl, bound_eq, ?_, fun k above => ?_, fun k above => ?_,
                ⟨back.sized.joins, List.length_set.trans back.sized.cursors,
                  back.sized.masks⟩⟩ ?_⟩
            · have restored := held_and back.joins_eq (~~~scan.mask)
              simp only [WalkState.deeper, cleared] at restored
              exact restored.trans undone
            · exact (List.getElem?_set_ne (Nat.ne_of_gt above)).trans
                (above_cursor k (Nat.lt_succ_of_lt above))
            · refine (back.masks k (Nat.lt_succ_of_lt above)).trans ?_
              exact List.getElem?_set_ne (Nat.ne_of_gt above)
            · obtain ⟨inside', _⟩ := List.getElem?_eq_some_iff.mp at_cursor'
              exact List.getElem?_set_self inside'

/-- A walk from some depth, its cursor at the first row, by induction on what is left of the body: it
answers true when the held joins complete, and gives them back otherwise.
-/
theorem Walkable.explore (walkable : Walkable layout offset pattern candidates flats tuple)
    {before remaining : List BodyAtomPattern} (split : pattern.body = before ++ remaining)
    {state : WalkState} (at_depth : state.depth = before.length) (sized : state.Sized)
    (fresh : remaining ≠ [] → state.rowCursor[state.depth]? = some 0) {answer : Bool}
    (continues : Continues (walkStep layout offset pattern.body.length flats tuple) state
      (state.Completes candidates tuple remaining) answer)
    : Answers (walkStep layout offset pattern.body.length flats tuple) state answer := by
  induction remaining generalizing before state with
  | nil =>
      obtain ⟨assignment, agrees⟩ := exists_agrees (held state.joins state.bound)
      have covered : answer = true := continues.completes ⟨assignment, agrees, by simp⟩
      refine answers_iff_leads.mpr (.inl ?_)
      have done : state.depth = pattern.body.length := by simp [at_depth, split]
      rw [walkStep, if_pos done, covered]
  | cons atom remaining ih =>
      have found : pattern.body[before.length]? = some atom := by simp [split]
      obtain ⟨view, rows, rows_eq, shown, widths, admitted⟩ := walkable.view found
      have completes_iff : state.CompletesIn candidates tuple atom rows remaining
          ↔ state.Completes candidates tuple (atom :: remaining) := by
        refine exists_congr fun assignment => and_congr_right fun _ => ?_
        simp [BodyAtomPattern.Satisfied, rows_eq]
      have start : rows = [] ++ rows := rfl
      refine walkable.exploreRows split shown widths admitted (fun deeper at_depth' sized'
        fresh' continues' => ?_) start at_depth sized (fresh (by simp)) ⟨?_, ?_⟩
      · exact @ih (before ++ [atom]) (by simp [split]) deeper (by simpa using at_depth') sized'
          fresh' continues'
      · exact fun completes => continues.completes (completes_iff.mp completes)
      · exact fun fails => continues.fails (completes_iff.not.mp fails)

end

-- Coverage

theorem sized_start : WalkState.start.Sized :=
  ⟨List.length_replicate, List.length_replicate, List.length_replicate⟩

theorem agrees_start (assignment : Nat → Nat)
    : Agrees (held WalkState.start.joins WalkState.start.bound) assignment := by
  intro j value found
  rw [getElem?_held] at found
  simp [WalkState.start] at found

/-- A walk from the start answers whether some assignment covers the example. -/
theorem Walkable.answers {layout : NaryPatternBatchLayout} {offset : Nat}
    {pattern : NaryRulePattern} {candidates : List (List Row)} {flats : List FlatRelation}
    {tuple : Row} (walkable : Walkable layout offset pattern candidates flats tuple)
    {covered : Bool} (covered_iff : covered = true ↔ pattern.Covers candidates tuple)
    : Answers (walkStep layout offset pattern.body.length flats tuple) .start covered := by
  have completes_iff : WalkState.start.Completes candidates tuple pattern.body
      ↔ pattern.Covers candidates tuple :=
    exists_congr fun assignment => and_iff_right (agrees_start assignment)
  have split : pattern.body = [] ++ pattern.body := rfl
  refine walkable.explore split rfl sized_start (fun _ => rfl)
    ⟨fun completes => covered_iff.mpr (completes_iff.mp completes), fun fails after back => ?_⟩
  have uncovered : covered = false := by
    rw [← Bool.not_eq_true, covered_iff, ← completes_iff]
    exact fails
  have at_start : after.depth = 0 := back.depth
  refine .inl ?_
  rw [unwind, at_start, uncovered]

/-- The flat walk over the layout of a batch ends without an index out of range and agrees with the
recursive reference, which decides coverage.
-/
theorem scorePatternFlat_eq_covers {patterns : List NaryRulePattern}
    {layout : NaryPatternBatchLayout} {candidates : List (List Row)}
    {flats : List FlatRelation} {p : Nat} {pattern : NaryRulePattern} {tuple : Row}
    (flattened : flattenPatterns patterns = .ok layout)
    (transposed : List.Forall₂ (fun rows flat => ∃ arity,
      FlatRelation.fromRows rows arity = some flat) candidates flats)
    (found : patterns[p]? = some pattern)
    (widths : ∀ atom ∈ pattern.body, ∃ rows, candidates[atom.candidateSlot]? = some rows
      ∧ ∀ row ∈ rows, row.length = atom.bindings.length)
    (arity : tuple.length = pattern.headArity)
    : ∃ covered,
        (∃ turns, ∀ fuel, turns ≤ fuel →
          scorePatternFlat layout p flats tuple fuel = some (some covered))
        ∧ covers pattern candidates tuple = some covered
        ∧ (covered = true ↔ pattern.Covers candidates tuple) := by
  obtain ⟨atoms_le, headArity_le, bodyLen, offset, bodyOffset, atoms⟩ :=
    flattenPatterns_holds flattened found
  have heads : ∀ atom ∈ pattern.body, ∀ i, .head i ∈ atom.bindings → i < tuple.length := by
    intro atom member i binding
    obtain ⟨k, at_k⟩ := List.getElem?_of_mem member
    exact arity ▸ (atoms k atom at_k).admitted (.head i) binding
  obtain ⟨covered, ran, covered_iff⟩ := covers_iff heads widths
  have walkable : Walkable layout offset pattern candidates flats tuple := by
    refine ⟨atoms_le, headArity_le, arity, atoms, fun atom member => ?_⟩
    obtain ⟨rows, at_slot, width⟩ := widths atom member
    obtain ⟨inside, rfl⟩ := List.getElem?_eq_some_iff.mp at_slot
    have inside' : atom.candidateSlot < flats.length := transposed.length_eq ▸ inside
    obtain ⟨arity, built⟩ := transposed.get inside inside'
    exact ⟨_, flats[atom.candidateSlot], at_slot, List.getElem?_eq_getElem inside',
      FlatRelation.fromRows_holds built, width⟩
  obtain ⟨turns, run⟩ := walkable.answers covered_iff
  refine ⟨covered, ⟨turns, fun fuel enough => ?_⟩, ran, covered_iff⟩
  rw [scorePatternFlat, bodyOffset, bodyLen]
  exact run fuel enough

/-- `h(X, Y) :- r(X, Z), s(Z, Y)`. -/
def chainPattern : NaryRulePattern where
  headArity := 2
  body := [⟨0, [.head 0, .join 0]⟩, ⟨1, [.join 0, .head 1]⟩]

def chainLayout : NaryPatternBatchLayout where
  headArity := [2]
  joinCount := [1]
  bodyOffset := [0]
  bodyLen := [2]
  atomCandidateSlot := [0, 1]
  atomArity := [2, 2]
  atomBindingOffset := [0, 2]
  bindingCodes := [0, JOIN_FLAG, JOIN_FLAG, 1]

theorem scorePatternFlat_eq_covers_chain
    : ∃ covered,
        (∃ turns, ∀ fuel, turns ≤ fuel →
          scorePatternFlat chainLayout 0 [⟨2, 2, [1, 1, 4, 2]⟩, ⟨2, 1, [2, 3]⟩] [1, 3] fuel
            = some (some covered))
        ∧ covers chainPattern [[[1, 4], [1, 2]], [[2, 3]]] [1, 3] = some covered
        ∧ (covered = true
          ↔ chainPattern.Covers [[[1, 4], [1, 2]], [[2, 3]]] [1, 3]) :=
  @scorePatternFlat_eq_covers [chainPattern] chainLayout [[[1, 4], [1, 2]], [[2, 3]]]
    [⟨2, 2, [1, 1, 4, 2]⟩, ⟨2, 1, [2, 3]⟩] 0 chainPattern [1, 3] rfl
    (.cons ⟨2, rfl⟩ (.cons ⟨2, rfl⟩ .nil)) rfl (by simp [chainPattern]) rfl

end Xlog.Induce
