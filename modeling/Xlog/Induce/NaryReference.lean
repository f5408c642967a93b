import Xlog.Foundation.Loop

/-! N-ary rule patterns and the recursive reference that decides whether a pattern covers an example. A
reference run panics on an index out of range or a row of the wrong width.
-/

namespace Xlog.Induce

-- Patterns

/-- A head position or a join variable, both of them 8-bit words. -/
inductive PatternVar where
  | head (i : Nat)
  | join (j : Nat)
  deriving DecidableEq, Repr

structure BodyAtomPattern where
  candidateSlot : Nat
  bindings : List PatternVar
  deriving DecidableEq, Repr

structure NaryRulePattern where
  headArity : Nat
  body : List BodyAtomPattern
  deriving DecidableEq, Repr

/-- One row of a candidate relation. -/
abbrev Row := List Nat

-- Coverage

/-- What a binding stands for, under an example and an assignment of the join variables. -/
def PatternVar.value (tuple : Row) (assignment : Nat → Nat) : PatternVar → Nat
  | .head i => tuple.getD i 0
  | .join j => assignment j

/-- The row that an atom asks for. -/
def BodyAtomPattern.instantiate (atom : BodyAtomPattern) (tuple : Row) (assignment : Nat → Nat)
    : Row :=
  atom.bindings.map (·.value tuple assignment)

/-- Some assignment of the join variables puts the row of every body atom into its relation. -/
def NaryRulePattern.Covers (pattern : NaryRulePattern) (candidates : List (List Row))
    (tuple : Row) : Prop :=
  ∃ assignment : Nat → Nat, ∀ atom ∈ pattern.body, ∃ rows,
    candidates[atom.candidateSlot]? = some rows ∧ atom.instantiate tuple assignment ∈ rows

-- The reference

/-- The join values found so far. -/
abbrev Joins := List (Option Nat)

/-- What a row does: whether it matches, the joins it leaves and those among them that it has bound. -/
structure RowMatch where
  matched : Bool
  joins : Joins
  newlyBound : List Nat
  deriving DecidableEq, Repr

/-- The loop over the values of a row and their bindings. -/
def bindRow (tuple : Row) : List (Nat × PatternVar) → Joins → List Nat → Option RowMatch
  | [], joins, newlyBound => some ⟨true, joins, newlyBound⟩
  | (value, .head i) :: rest, joins, newlyBound => do
      let fixed ← tuple[i]?
      if fixed ≠ value then some ⟨false, joins, newlyBound⟩
      else bindRow tuple rest joins newlyBound
  | (value, .join j) :: rest, joins, newlyBound => do
      let slot ← joins[j]?
      match slot with
      | some bound =>
          if bound ≠ value then some ⟨false, joins, newlyBound⟩
          else bindRow tuple rest joins newlyBound
      | none => bindRow tuple rest (joins.set j (some value)) (newlyBound ++ [j])

def undo (joins : Joins) (newlyBound : List Nat) : Joins :=
  newlyBound.foldl (fun joins j => joins.set j none) joins

/-- The loop over the rows of a relation, with what is left of the body as a continuation. -/
def satisfyRows (bindings : List PatternVar) (tuple : Row)
    (rest : Joins → Option (Bool × Joins))
    : List Row → Joins → Option (Bool × Joins)
  | [], joins => some (false, joins)
  | row :: rows, joins =>
      if row.length ≠ bindings.length then none
      else do
        let bound ← bindRow tuple (row.zip bindings) joins []
        if bound.matched then do
          let (found, deeper) ← rest bound.joins
          if found then some (true, deeper)
          else satisfyRows bindings tuple rest rows (undo deeper bound.newlyBound)
        else satisfyRows bindings tuple rest rows (undo bound.joins bound.newlyBound)

def satisfy (candidates : List (List Row)) (tuple : Row)
    : List BodyAtomPattern → Joins → Option (Bool × Joins)
  | [], joins => some (true, joins)
  | atom :: rest, joins => do
      let rows ← candidates[atom.candidateSlot]?
      satisfyRows atom.bindings tuple (satisfy candidates tuple rest) rows joins

def countJoin (count : Nat) : PatternVar → Nat
  | .head _ => count
  | .join j => max count (j + 1)

def joinVariableCount (pattern : NaryRulePattern) : Nat :=
  pattern.body.foldl (fun count atom => atom.bindings.foldl countJoin count) 0

def covers (pattern : NaryRulePattern) (candidates : List (List Row)) (tuple : Row)
    : Option Bool := do
  let (covered, _) ←
    satisfy candidates tuple pattern.body
      (List.replicate (joinVariableCount pattern) none)
  return covered

-- Assignments and joins

/-- An assignment that has the join values found so far. -/
def Agrees (joins : Joins) (assignment : Nat → Nat) : Prop :=
  ∀ j value, joins[j]? = some (some value) → assignment j = value

theorem exists_agrees (joins : Joins) : ∃ assignment, Agrees joins assignment :=
  ⟨fun j => ((joins[j]?).getD none).getD 0, fun j value found => by simp [found]⟩

theorem agrees_set {joins : Joins} {j value : Nat} (free : joins[j]? = some none)
    {assignment : Nat → Nat}
    : Agrees (joins.set j (some value)) assignment
      ↔ Agrees joins assignment ∧ assignment j = value := by
  obtain ⟨within, _⟩ := List.getElem?_eq_some_iff.mp free
  simp only [Agrees, List.getElem?_set]
  constructor
  · intro agrees
    refine ⟨fun k found held => agrees k found ?_, agrees j value (by simp [within])⟩
    have other : j ≠ k := by
      rintro rfl
      simp [free] at held
    rw [if_neg other]
    exact held
  · rintro ⟨agrees, rfl⟩ k found held
    split at held
    · next same =>
        subst same
        simpa using held
    · exact agrees k found held

/-- A binding that a run with so many join variables can look up. -/
def PatternVar.Readable (tuple : Row) (joinCount : Nat) : PatternVar → Prop
  | .head i => i < tuple.length
  | .join j => j < joinCount

theorem value_head {tuple : Row} {i fixed : Nat} (found : tuple[i]? = some fixed)
    (assignment : Nat → Nat)
    : (PatternVar.head i).value tuple assignment = fixed := by
  simp [PatternVar.value, List.getD, found]

/-- A row is what its bindings stand for when each value is. -/
theorem forall_zip_iff {bindings : List PatternVar} {row : Row} {tuple : Row}
    {assignment : Nat → Nat} (width : row.length = bindings.length)
    : (∀ pair ∈ row.zip bindings, pair.2.value tuple assignment = pair.1)
      ↔ row = bindings.map (·.value tuple assignment) := by
  induction bindings generalizing row with
  | nil =>
      obtain rfl := List.eq_nil_of_length_eq_zero width
      simp
  | cons binding bindings ih =>
      cases row with
      | nil => cases width
      | cons value row =>
          have width' : row.length = bindings.length := Nat.succ_inj.mp width
          rw [List.zip_cons_cons, List.forall_mem_cons, ih width', List.map_cons,
            List.cons.injEq, eq_comm]

-- Rows of the reference

theorem getElem?_undo {joins : Joins} {newlyBound : List Nat} {k : Nat}
    : (undo joins newlyBound)[k]?
      = if k ∈ newlyBound then joins[k]?.map fun _ => none else joins[k]? := by
  induction newlyBound generalizing joins with
  | nil => simp [undo]
  | cons j newlyBound ih =>
      refine ih.trans ?_
      rw [List.getElem?_set]
      by_cases same : j = k
      · subst same
        by_cases within : j < joins.length <;> simp [within]
      · by_cases member : k ∈ newlyBound <;> simp [same, member, Ne.symm same]

/-- What the loop says of a row: a match narrows the assignments to those that give the row, and undoing
what was bound gives the joins back.
-/
structure RowMatch.Right (result : RowMatch) (tuple : Row) (pairs : List (Nat × PatternVar))
    (before : Joins) (newlyBound : List Nat) : Prop where
  length_eq : result.joins.length = before.length
  matched_iff : result.matched = true → ∀ assignment,
    Agrees result.joins assignment
    ↔ Agrees before assignment
      ∧ ∀ pair ∈ pairs, pair.2.value tuple assignment = pair.1
  unmatched : result.matched = false → ∀ assignment, Agrees before assignment →
    ¬ ∀ pair ∈ pairs, pair.2.value tuple assignment = pair.1
  undone : undo result.joins result.newlyBound = undo before newlyBound

/-- A value that the example or an earlier join has fixed is only compared. -/
theorem RowMatch.Right.cons_fixed {result : RowMatch} {tuple : Row}
    {pairs : List (Nat × PatternVar)} {before : Joins} {newlyBound : List Nat}
    {value : Nat} {binding : PatternVar}
    (fixed : ∀ assignment, Agrees before assignment → binding.value tuple assignment = value)
    (right : result.Right tuple pairs before newlyBound)
    : result.Right tuple ((value, binding) :: pairs) before newlyBound where
  length_eq := right.length_eq
  matched_iff matched assignment := by
    rw [right.matched_iff matched, List.forall_mem_cons]
    constructor
    · rintro ⟨agrees, rest⟩
      exact ⟨agrees, fixed assignment agrees, rest⟩
    · rintro ⟨agrees, _, rest⟩
      exact ⟨agrees, rest⟩
  unmatched unmatched assignment agrees all :=
    right.unmatched unmatched assignment agrees (List.forall_mem_cons.mp all).2
  undone := right.undone

/-- A value that differs from the fixed one ends the row. -/
theorem RowMatch.right_of_differs {tuple : Row} {pairs : List (Nat × PatternVar)}
    {before : Joins} {newlyBound : List Nat} {value : Nat} {binding : PatternVar}
    (differs : ∀ assignment, Agrees before assignment → binding.value tuple assignment ≠ value)
    : RowMatch.Right ⟨false, before, newlyBound⟩ tuple ((value, binding) :: pairs) before
        newlyBound where
  length_eq := rfl
  matched_iff matched := by cases matched
  unmatched _ assignment agrees all :=
    differs assignment agrees (List.forall_mem_cons.mp all).1
  undone := rfl

/-- The loop over a row, by induction on its values. -/
theorem bindRow_right {tuple : Row} {pairs : List (Nat × PatternVar)} {before : Joins}
    {newlyBound : List Nat}
    (readable : ∀ pair ∈ pairs, pair.2.Readable tuple before.length)
    : ∃ result, bindRow tuple pairs before newlyBound = some result
        ∧ result.Right tuple pairs before newlyBound := by
  induction pairs generalizing before newlyBound with
  | nil => exact ⟨_, rfl, rfl, by simp, by simp, rfl⟩
  | cons pair pairs ih =>
      obtain ⟨value, binding⟩ := pair
      obtain ⟨first, later⟩ := List.forall_mem_cons.mp readable
      cases binding with
      | head i =>
          obtain ⟨fixed, found⟩ : ∃ fixed, tuple[i]? = some fixed :=
            ⟨_, List.getElem?_eq_getElem first⟩
          by_cases same : fixed = value
          · obtain ⟨result, run, right⟩ := @ih before newlyBound later
            refine ⟨result, ?_, right.cons_fixed fun assignment _ => ?_⟩
            · simp only [bindRow, found, Option.bind_eq_bind, Option.bind_some, same, ne_eq,
                not_true_eq_false, if_false, run]
            · rw [value_head found, same]
          · refine ⟨_, ?_, RowMatch.right_of_differs fun assignment _ => ?_⟩
            · simp only [bindRow, found, Option.bind_eq_bind, Option.bind_some, ne_eq, same,
                not_false_eq_true, if_true]
            · rw [value_head found]
              exact same
      | join j =>
          have within : j < before.length := first
          have found : before[j]? = some (before[j]) := List.getElem?_eq_getElem within
          cases slot : before[j] with
          | some held =>
              rw [slot] at found
              by_cases same : held = value
              · obtain ⟨result, run, right⟩ := @ih before newlyBound later
                refine ⟨result, ?_, right.cons_fixed fun assignment agrees => ?_⟩
                · simp only [bindRow, found, Option.bind_eq_bind, Option.bind_some, same, ne_eq,
                    not_true_eq_false, if_false, run]
                · exact (agrees j held found).trans same
              · refine ⟨_, ?_, RowMatch.right_of_differs fun assignment agrees => ?_⟩
                · simp only [bindRow, found, Option.bind_eq_bind, Option.bind_some, ne_eq, same,
                    not_false_eq_true, if_true]
                · exact fun equal => same ((agrees j held found).symm.trans equal)
          | none =>
              rw [slot] at found
              obtain ⟨result, run, right⟩ :=
                @ih (before.set j (some value)) (newlyBound ++ [j]) (by simpa using later)
              refine ⟨result, ?_, ?_, fun matched assignment => ?_,
                fun unmatched assignment agrees all => ?_, ?_⟩
              · simp only [bindRow, found, Option.bind_eq_bind, Option.bind_some, run]
              · exact right.length_eq.trans List.length_set
              · rw [right.matched_iff matched, agrees_set found, List.forall_mem_cons, and_assoc]
                rfl
              · obtain ⟨here, rest⟩ := List.forall_mem_cons.mp all
                exact right.unmatched unmatched assignment
                  ((agrees_set found).mpr ⟨agrees, here⟩) rest
              · -- The slot of the join was empty before, so emptying it undoes the binding.
                refine right.undone.trans (List.ext_getElem? fun k => ?_)
                rw [getElem?_undo, getElem?_undo, List.getElem?_set]
                by_cases same : j = k
                · subst same
                  simp [slot, within]
                · simp [same, Ne.symm same]

-- Bodies of the reference

/-- A run over joins of one length that decides whether some assignment with these joins reaches a goal,
and gives the joins back when none does.
-/
def Decides (joinCount : Nat) (goal : (Nat → Nat) → Prop) (run : Joins → Option (Bool × Joins))
    : Prop :=
  ∀ joins : Joins, joins.length = joinCount →
    ∃ found deeper,
      run joins = some (found, deeper)
      ∧ (found = true ↔ ∃ assignment, Agrees joins assignment ∧ goal assignment)
      ∧ (found = false → deeper = joins)

/-- The rows of a relation, by induction on them. -/
theorem satisfyRows_decides {bindings : List PatternVar} {tuple : Row} {joinCount : Nat}
    {goal : (Nat → Nat) → Prop} {rest : Joins → Option (Bool × Joins)}
    (decides : Decides joinCount goal rest)
    (readable : ∀ binding ∈ bindings, binding.Readable tuple joinCount) {rows : List Row}
    (widths : ∀ row ∈ rows, row.length = bindings.length)
    : Decides joinCount
        (fun assignment => bindings.map (·.value tuple assignment) ∈ rows ∧ goal assignment)
        (satisfyRows bindings tuple rest rows) := by
  induction rows with
  | nil => exact fun joins _ => ⟨false, joins, rfl, by simp, fun _ => rfl⟩
  | cons row rows ih =>
      obtain ⟨width, widths⟩ := List.forall_mem_cons.mp widths
      intro joins length
      have zipped : ∀ pair ∈ row.zip bindings, pair.2.Readable tuple joins.length :=
        fun pair member => length ▸ readable _ (List.of_mem_zip member).2
      obtain ⟨bound, ran, right⟩ := @bindRow_right tuple _ joins [] zipped
      obtain ⟨later, laterJoins, laterRan, laterFound, laterKept⟩ := ih widths joins length
      have row_iff := fun assignment => @forall_zip_iff bindings row tuple assignment width
      have step : satisfyRows bindings tuple rest (row :: rows) joins
          = if bound.matched then
              rest bound.joins >>= fun result =>
                if result.1 then some (true, result.2)
                else satisfyRows bindings tuple rest rows (undo result.2 bound.newlyBound)
            else satisfyRows bindings tuple rest rows (undo bound.joins bound.newlyBound) := by
        rw [satisfyRows, if_neg (not_not.mpr width), ran]
        rfl
      have restored : undo bound.joins bound.newlyBound = joins := right.undone
      -- A row that does not help leaves the question to the later rows.
      have later_case : (∀ assignment, Agrees joins assignment → goal assignment →
          row ≠ bindings.map (·.value tuple assignment)) →
          (later = true ↔ ∃ assignment, Agrees joins assignment
            ∧ bindings.map (·.value tuple assignment) ∈ row :: rows ∧ goal assignment) := by
        intro useless
        rw [laterFound]
        refine exists_congr fun assignment => and_congr_right fun agrees => ?_
        rw [List.mem_cons]
        constructor
        · rintro ⟨member, reached⟩
          exact ⟨.inr member, reached⟩
        · rintro ⟨same | member, reached⟩
          · exact absurd same.symm (useless assignment agrees reached)
          · exact ⟨member, reached⟩
      rw [step]
      cases matched : bound.matched with
      | false =>
          refine ⟨later, laterJoins, by simpa [restored] using laterRan, ?_, laterKept⟩
          refine later_case fun assignment agrees _ same => ?_
          exact right.unmatched matched assignment agrees ((row_iff assignment).mpr same)
      | true =>
          have narrowed := right.matched_iff matched
          obtain ⟨found, deeper, restRan, restFound, restKept⟩ :=
            decides bound.joins (right.length_eq.trans length)
          simp only [if_true, restRan, Option.bind_eq_bind, Option.bind_some]
          cases found with
          | true =>
              obtain ⟨assignment, agrees, reached⟩ := restFound.mp rfl
              obtain ⟨agrees, all⟩ := (narrowed assignment).mp agrees
              have same := (row_iff assignment).mp all
              refine ⟨true, deeper, rfl, iff_of_true rfl ⟨assignment, agrees, ?_, reached⟩,
                by simp⟩
              rw [← same]
              exact List.mem_cons_self
          | false =>
              obtain rfl := restKept rfl
              refine ⟨later, laterJoins, by simpa [restored] using laterRan, ?_, laterKept⟩
              refine later_case fun assignment agrees reached same => ?_
              have agrees' := (narrowed assignment).mpr ⟨agrees, (row_iff assignment).mpr same⟩
              exact Bool.false_ne_true (restFound.mpr ⟨assignment, agrees', reached⟩)

/-- Candidate relations that the atoms of a body read: they exist, and their rows have the atoms' arity. -/
def ReadableBody (candidates : List (List Row)) (tuple : Row) (joinCount : Nat)
    (body : List BodyAtomPattern) : Prop :=
  ∀ atom ∈ body,
    (∀ binding ∈ atom.bindings, binding.Readable tuple joinCount)
    ∧ ∃ rows, candidates[atom.candidateSlot]? = some rows
      ∧ ∀ row ∈ rows, row.length = atom.bindings.length

/-- The recursion over a body, by induction on it. -/
theorem satisfy_decides {candidates : List (List Row)} {tuple : Row} {joinCount : Nat}
    {body : List BodyAtomPattern} (readable : ReadableBody candidates tuple joinCount body)
    : Decides joinCount
        (fun assignment => ∀ atom ∈ body, ∃ rows,
          candidates[atom.candidateSlot]? = some rows
          ∧ atom.instantiate tuple assignment ∈ rows)
        (satisfy candidates tuple body) := by
  induction body with
  | nil =>
      intro joins _
      refine ⟨true, joins, rfl, iff_of_true rfl ?_, by simp⟩
      obtain ⟨assignment, agrees⟩ := exists_agrees joins
      exact ⟨assignment, agrees, by simp⟩
  | cons atom body ih =>
      obtain ⟨⟨bindings, rows, found, widths⟩, later⟩ := List.forall_mem_cons.mp readable
      intro joins length
      obtain ⟨covered, deeper, ran, covered_iff, kept⟩ :=
        satisfyRows_decides (ih later) bindings widths joins length
      refine ⟨covered, deeper, ?_, ?_, kept⟩
      · rw [satisfy, found]
        exact ran
      · rw [covered_iff]
        simp [found, BodyAtomPattern.instantiate]

/-- The joins of a pattern are below its count, by induction on its body. -/
theorem join_lt_joinVariableCount {pattern : NaryRulePattern} {atom : BodyAtomPattern}
    (member : atom ∈ pattern.body) {j : Nat} (binding : .join j ∈ atom.bindings)
    : j < joinVariableCount pattern := by
  have bindings_le : ∀ (bindings : List PatternVar) (start : Nat),
      start ≤ bindings.foldl countJoin start
      ∧ ∀ j, .join j ∈ bindings → j < bindings.foldl countJoin start := by
    intro bindings
    induction bindings with
    | nil => simp
    | cons binding bindings ih =>
        intro start
        obtain ⟨least, counted⟩ := ih (countJoin start binding)
        cases binding with
        | head i => exact ⟨least, by simpa using counted⟩
        | join k =>
            have most : max start (k + 1) ≤ (PatternVar.join k :: bindings).foldl countJoin start :=
              least
            refine ⟨by omega, fun j member => ?_⟩
            rcases List.mem_cons.mp member with same | member
            · cases same
              omega
            · exact counted j member
  have body_le : ∀ (body : List BodyAtomPattern) (start : Nat),
      start ≤ body.foldl (fun count atom => atom.bindings.foldl countJoin count) start
      ∧ ∀ atom ∈ body, ∀ j, .join j ∈ atom.bindings →
        j < body.foldl (fun count atom => atom.bindings.foldl countJoin count) start := by
    intro body
    induction body with
    | nil => simp
    | cons atom body ih =>
        intro start
        obtain ⟨first, counted⟩ := bindings_le atom.bindings start
        obtain ⟨least, later⟩ := ih (atom.bindings.foldl countJoin start)
        refine ⟨Nat.le_trans first least, fun other member j binding => ?_⟩
        rcases List.mem_cons.mp member with rfl | member
        · exact Nat.lt_of_lt_of_le (counted j binding) least
        · exact later other member j binding
  exact (body_le pattern.body 0).2 atom member j binding

/-- The reference decides coverage. -/
theorem covers_iff {pattern : NaryRulePattern} {candidates : List (List Row)} {tuple : Row}
    (heads : ∀ atom ∈ pattern.body, ∀ i, .head i ∈ atom.bindings → i < tuple.length)
    (widths : ∀ atom ∈ pattern.body, ∃ rows, candidates[atom.candidateSlot]? = some rows
      ∧ ∀ row ∈ rows, row.length = atom.bindings.length)
    : ∃ covered, covers pattern candidates tuple = some covered
        ∧ (covered = true ↔ pattern.Covers candidates tuple) := by
  have readable : ReadableBody candidates tuple (joinVariableCount pattern) pattern.body := by
    refine fun atom member => ⟨fun binding bound => ?_, widths atom member⟩
    cases binding with
    | head i => exact heads atom member i bound
    | join j => exact join_lt_joinVariableCount member bound
  obtain ⟨covered, deeper, ran, covered_iff, _⟩ :=
    satisfy_decides readable (List.replicate (joinVariableCount pattern) none) (by simp)
  refine ⟨covered, by simp [covers, ran], covered_iff.trans ?_⟩
  refine exists_congr fun assignment => and_iff_right fun j value found => ?_
  simp [List.getElem?_replicate] at found

end Xlog.Induce
