import Mathlib.Data.List.Dedup
import Mathlib.Data.Set.Function
import Mathlib.Data.List.Perm.Subperm
import Xlog.Induce.NaryEnumeration

/-! Canonical patterns: what validation accepts, their lexicographic order, and that renaming the join
variables of a pattern makes exactly one of them.
-/

namespace Xlog.Induce

open Xlog.Core
open Xlog.Foundation

-- Growth

/-- The next free join index after a binding. -/
def PatternVar.raise (next : Nat) : PatternVar → Nat
  | .head _ => next
  | .join j => max next (j + 1)

/-- A binding that a position may take while some join index is the next free one. -/
def PatternVar.Fits (headArity maxJoinVars next : Nat) : PatternVar → Prop
  | .head i => i < headArity
  | .join j => j ≤ next ∧ j < maxJoinVars

/-- Bindings whose joins are numbered in the order of their first appearance. -/
def Grows (headArity maxJoinVars : Nat) : Nat → List PatternVar → Prop
  | _, [] => True
  | next, binding :: rest =>
      binding.Fits headArity maxJoinVars next
      ∧ Grows headArity maxJoinVars (binding.raise next) rest

def raiseAll (next : Nat) (bindings : List PatternVar) : Nat :=
  bindings.foldl PatternVar.raise next

/-- The bindings of a body, left to right. -/
def bodyBindings (body : List BodyAtomPattern) : List PatternVar :=
  body.flatMap (·.bindings)

section

variable {headArity maxJoinVars next : Nat}

theorem grows_append {first second : List PatternVar}
    : Grows headArity maxJoinVars next (first ++ second)
      ↔ Grows headArity maxJoinVars next first
        ∧ Grows headArity maxJoinVars (raiseAll next first) second := by
  induction first generalizing next with
  | nil => simp [Grows, raiseAll]
  | cons binding first ih =>
      rw [List.cons_append, Grows, Grows, ih, and_assoc]
      rfl

theorem raise_le {binding : PatternVar} (fits : binding.Fits headArity maxJoinVars next)
    (next_le : next ≤ maxJoinVars)
    : binding.raise next ≤ maxJoinVars := by
  cases binding with
  | head i => exact next_le
  | join j => exact max_le next_le fits.2

theorem raiseAll_le {bindings : List PatternVar}
    (grows : Grows headArity maxJoinVars next bindings) (next_le : next ≤ maxJoinVars)
    : raiseAll next bindings ≤ maxJoinVars := by
  induction bindings generalizing next with
  | nil => exact next_le
  | cons binding bindings ih => exact ih grows.2 (raise_le grows.1 next_le)

theorem le_raiseAll {bindings : List PatternVar} : next ≤ raiseAll next bindings := by
  induction bindings generalizing next with
  | nil => exact Nat.le_refl next
  | cons binding bindings ih =>
      refine Nat.le_trans ?_ ih
      cases binding with
      | head i => exact Nat.le_refl next
      | join j => exact Nat.le_max_left next (j + 1)

/-- The variables of grown bindings are within their bounds. -/
theorem Grows.bounds {bindings : List PatternVar}
    (grows : Grows headArity maxJoinVars next bindings)
    : (∀ i, .head i ∈ bindings → i < headArity) ∧ ∀ j, .join j ∈ bindings → j < maxJoinVars := by
  induction bindings generalizing next with
  | nil => simp
  | cons binding bindings ih =>
      obtain ⟨heads, joins⟩ := ih grows.2
      refine ⟨fun i member => ?_, fun j member => ?_⟩
      · rcases List.mem_cons.mp member with same | later
        · have fits := grows.1
          rw [← same] at fits
          exact fits
        · exact heads i later
      · rcases List.mem_cons.mp member with same | later
        · have fits := grows.1
          rw [← same] at fits
          exact fits.2
        · exact joins j later

theorem Grows.mono {maxJoinVars' : Nat} {bindings : List PatternVar}
    (grows : Grows headArity maxJoinVars next bindings) (le : maxJoinVars ≤ maxJoinVars')
    : Grows headArity maxJoinVars' next bindings := by
  induction bindings generalizing next with
  | nil => trivial
  | cons binding bindings ih =>
      refine ⟨?_, ih grows.2⟩
      have fits := grows.1
      cases binding with
      | head i => exact fits
      | join j => exact ⟨fits.1, Nat.lt_of_lt_of_le fits.2 le⟩

end

-- Validation

/-- What validation asks of a pattern. -/
structure NaryRulePattern.Canonical (pattern : NaryRulePattern) (candidateArities : List Nat)
    (config : NaryEnumerationConfig) : Prop where
  head_ne : pattern.headArity ≠ 0
  body_ne : pattern.body ≠ []
  body_le : pattern.body.length ≤ config.maxBodyAtoms
  declared : ∀ atom ∈ pattern.body,
    candidateArities[atom.candidateSlot]? = some atom.bindings.length
  grows : Grows pattern.headArity config.maxJoinVars 0 (bodyBindings pattern.body)
  restricted : ∀ i < pattern.headArity, .head i ∈ bodyBindings pattern.body

/-- The head positions bound after a binding. -/
def PatternVar.mark (headBound : List Bool) : PatternVar → List Bool
  | .head i => headBound.set i true
  | .join _ => headBound

def markAll (headBound : List Bool) (bindings : List PatternVar) : List Bool :=
  bindings.foldl PatternVar.mark headBound

@[simp] theorem length_markAll {headBound : List Bool} {bindings : List PatternVar}
    : (markAll headBound bindings).length = headBound.length := by
  induction bindings generalizing headBound with
  | nil => rfl
  | cons binding bindings ih =>
      refine ih.trans ?_
      cases binding with
      | head i => exact List.length_set
      | join j => rfl

/-- A position is bound after some bindings when it was before or is one of them. -/
theorem getElem?_markAll {headBound : List Bool} {bindings : List PatternVar} {i : Nat}
    (within : i < headBound.length)
    : (markAll headBound bindings)[i]? = some true
      ↔ headBound[i]? = some true ∨ .head i ∈ bindings := by
  induction bindings generalizing headBound with
  | nil => simp [markAll]
  | cons binding bindings ih =>
      cases binding with
      | head k =>
          refine (@ih (headBound.set k true) (by simpa using within)).trans ?_
          by_cases same : k = i
          · subst same
            simp [within]
          · simp [same, Ne.symm same]
      | join j => exact (@ih headBound within).trans (by simp)

/-- All head positions are bound when each is among the bindings. -/
theorem all_markAll_iff {headArity : Nat} {bindings : List PatternVar}
    : (∀ i < headArity, (markAll (List.replicate headArity false) bindings)[i]? = some true)
      ↔ ∀ i < headArity, .head i ∈ bindings := by
  refine forall_congr' fun i => imp_congr_right fun within => ?_
  rw [getElem?_markAll (by simpa using within)]
  simp [within]

theorem validateBinding_ok_iff {headArity next : Nat} {config : NaryEnumerationConfig}
    {headBound : List Bool} {binding : PatternVar} {state : Nat × List Bool}
    (next_le : next ≤ config.maxJoinVars)
    : validateBinding headArity config (next, headBound) binding = .ok state
      ↔ binding.Fits headArity config.maxJoinVars next
        ∧ state = (binding.raise next, binding.mark headBound) := by
  have small := config.maxJoinVars_lt
  cases binding with
  | head i =>
      simp only [validateBinding, PatternVar.Fits, PatternVar.raise, PatternVar.mark]
      by_cases outside : headArity ≤ i
      · simp [outside, Nat.not_lt.mpr outside]
      · simp [outside, Nat.lt_of_not_le outside, eq_comm]
  | join j =>
      simp only [validateBinding, PatternVar.Fits, PatternVar.raise, PatternVar.mark]
      rcases Nat.lt_trichotomy next j with later | rfl | earlier
      · simp [later, Nat.not_le.mpr later]
      · by_cases fresh : next < config.maxJoinVars
        · have room : ¬ 256 ≤ next + 1 := by omega
          have bound : ¬ config.maxJoinVars < next + 1 := by omega
          simp [room, bound, fresh, eq_comm]
        · by_cases room : 256 ≤ next + 1
          · simp [room, fresh]
          · have bound : config.maxJoinVars < next + 1 := by omega
            simp [room, bound, fresh]
      · have old : ¬ next < j := Nat.not_lt_of_gt earlier
        have other : ¬ j = next := Nat.ne_of_lt earlier
        have inside : j < config.maxJoinVars := by omega
        have same : max next (j + 1) = next := by omega
        simp [old, other, inside, same, Nat.le_of_lt earlier, eq_comm]

theorem validateBindings_ok_iff {headArity next : Nat} {config : NaryEnumerationConfig}
    {headBound : List Bool} {bindings : List PatternVar} {state : Nat × List Bool}
    (next_le : next ≤ config.maxJoinVars)
    : bindings.foldlM (validateBinding headArity config) (next, headBound) = .ok state
      ↔ Grows headArity config.maxJoinVars next bindings
        ∧ state = (raiseAll next bindings, markAll headBound bindings) := by
  induction bindings generalizing next headBound with
  | nil => simp [Grows, raiseAll, markAll, eq_comm]
  | cons binding bindings ih =>
      rw [List.foldlM_cons, bind_eq_ok]
      constructor
      · rintro ⟨middle, first, rest⟩
        obtain ⟨fits, rfl⟩ := (validateBinding_ok_iff next_le).mp first
        obtain ⟨grows, rfl⟩ := (ih (raise_le fits next_le)).mp rest
        exact ⟨⟨fits, grows⟩, rfl⟩
      · rintro ⟨⟨fits, grows⟩, rfl⟩
        exact ⟨_, (validateBinding_ok_iff next_le).mpr ⟨fits, rfl⟩,
          (ih (raise_le fits next_le)).mpr ⟨grows, rfl⟩⟩

theorem validateAtom_ok_iff {headArity next : Nat} {candidateArities : List Nat}
    {config : NaryEnumerationConfig} {headBound : List Bool} {entry : BodyAtomPattern × Nat}
    {state : Nat × List Bool} (next_le : next ≤ config.maxJoinVars)
    : validateAtom headArity candidateArities config (next, headBound) entry = .ok state
      ↔ candidateArities[entry.1.candidateSlot]? = some entry.1.bindings.length
        ∧ Grows headArity config.maxJoinVars next entry.1.bindings
        ∧ state = (raiseAll next entry.1.bindings, markAll headBound entry.1.bindings) := by
  rw [← validateBindings_ok_iff next_le]
  simp only [validateAtom]
  cases declared : candidateArities[entry.1.candidateSlot]? with
  | none => simp
  | some arity =>
      by_cases same : entry.1.bindings.length = arity
      · simp [same]
      · simp [same, Ne.symm same]

/-- The loop over the atoms, by induction on the body. -/
theorem validateAtoms_ok_iff {headArity next start : Nat} {candidateArities : List Nat}
    {config : NaryEnumerationConfig} {headBound : List Bool} {body : List BodyAtomPattern}
    {state : Nat × List Bool} (next_le : next ≤ config.maxJoinVars)
    : (body.zipIdx start).foldlM (validateAtom headArity candidateArities config)
          (next, headBound) = .ok state
      ↔ (∀ atom ∈ body, candidateArities[atom.candidateSlot]? = some atom.bindings.length)
        ∧ Grows headArity config.maxJoinVars next (bodyBindings body)
        ∧ state = (raiseAll next (bodyBindings body), markAll headBound (bodyBindings body)) := by
  induction body generalizing next headBound start with
  | nil => simp [bodyBindings, Grows, raiseAll, markAll, eq_comm]
  | cons atom body ih =>
      have split : bodyBindings (atom :: body) = atom.bindings ++ bodyBindings body :=
        List.flatMap_cons
      have raised : raiseAll next (bodyBindings (atom :: body))
          = raiseAll (raiseAll next atom.bindings) (bodyBindings body) := by
        rw [split]
        exact List.foldl_append
      have marked : markAll headBound (bodyBindings (atom :: body))
          = markAll (markAll headBound atom.bindings) (bodyBindings body) := by
        rw [split]
        exact List.foldl_append
      rw [List.zipIdx_cons, List.foldlM_cons, bind_eq_ok, raised, marked, split, grows_append,
        List.forall_mem_cons]
      constructor
      · rintro ⟨middle, first, rest⟩
        obtain ⟨declared, grows, rfl⟩ := (validateAtom_ok_iff next_le).mp first
        obtain ⟨declared', grows', rfl⟩ := (ih (raiseAll_le grows next_le)).mp rest
        exact ⟨⟨declared, declared'⟩, ⟨grows, grows'⟩, rfl⟩
      · rintro ⟨⟨declared, declared'⟩, ⟨grows, grows'⟩, rfl⟩
        exact ⟨_, (validateAtom_ok_iff next_le).mpr ⟨declared, grows, rfl⟩,
          (ih (raiseAll_le grows next_le)).mpr ⟨declared', grows', rfl⟩⟩

/-- No head position is found unbound when all are among the bindings. -/
theorem findIdx?_markAll_iff {headArity : Nat} {bindings : List PatternVar}
    : (markAll (List.replicate headArity false) bindings).findIdx? (! ·) = none
      ↔ ∀ i < headArity, .head i ∈ bindings := by
  rw [← all_markAll_iff, List.findIdx?_eq_none_iff]
  constructor
  · intro bound i within
    have inside : i < (markAll (List.replicate headArity false) bindings).length := by
      simpa using within
    have set := bound _ (List.getElem_mem inside)
    rw [List.getElem?_eq_getElem inside]
    simpa using set
  · intro bound marked member
    obtain ⟨i, inside, rfl⟩ := List.getElem_of_mem member
    have set := bound i (by simpa using inside)
    rw [List.getElem?_eq_getElem inside] at set
    simpa using set

/-- Validation accepts the canonical patterns. -/
theorem validate_ok_iff {pattern : NaryRulePattern} {candidateArities : List Nat}
    {config : NaryEnumerationConfig}
    : pattern.validate candidateArities config = .ok ()
      ↔ pattern.Canonical candidateArities config := by
  rw [NaryRulePattern.validate]
  split
  · next zero => exact iff_of_false (by simp) fun canonical => canonical.head_ne zero
  split
  · next empty => exact iff_of_false (by simp) fun canonical => canonical.body_ne empty
  split
  · next long =>
      exact iff_of_false (by simp) fun canonical => Nat.not_lt.mpr canonical.body_le long
  next head_ne body_ne body_le =>
    rw [bind_eq_ok]
    constructor
    · rintro ⟨state, loop, last⟩
      obtain ⟨declared, grows, rfl⟩ := (validateAtoms_ok_iff (Nat.zero_le _)).mp loop
      refine ⟨head_ne, body_ne, Nat.le_of_not_lt body_le, declared, grows, ?_⟩
      refine findIdx?_markAll_iff.mp ?_
      dsimp only at last
      split at last
      · cases last
      · assumption
    · intro canonical
      refine ⟨_, (validateAtoms_ok_iff (Nat.zero_le _)).mpr
        ⟨canonical.declared, canonical.grows, rfl⟩, ?_⟩
      dsimp only
      rw [findIdx?_markAll_iff.mpr canonical.restricted]

-- Order

/-- Head positions come before joins, each by number. -/
def PatternVar.Before : PatternVar → PatternVar → Prop
  | .head i, .head k => i < k
  | .head _, .join _ => True
  | .join _, .head _ => False
  | .join j, .join k => j < k

/-- Atoms by slot, then by bindings. -/
def BodyAtomPattern.Before (first second : BodyAtomPattern) : Prop :=
  first.candidateSlot < second.candidateSlot
  ∨ first.candidateSlot = second.candidateSlot
    ∧ List.Lex PatternVar.Before first.bindings second.bindings

/-- Patterns by body length, then atom by atom. -/
def NaryRulePattern.Before (first second : NaryRulePattern) : Prop :=
  first.body.length < second.body.length
  ∨ first.body.length = second.body.length
    ∧ List.Lex BodyAtomPattern.Before first.body second.body

theorem lex_irrefl {α : Type*} {before : α → α → Prop} (irrefl : ∀ a, ¬ before a a)
    (items : List α)
    : ¬ List.Lex before items items := by
  induction items with
  | nil => intro lex; cases lex
  | cons item items ih =>
      intro lex
      cases lex with
      | rel less => exact irrefl item less
      | cons lex => exact ih lex

theorem not_before_self (pattern : NaryRulePattern) : ¬ pattern.Before pattern := by
  have var_irrefl : ∀ binding : PatternVar, ¬ binding.Before binding := by
    intro binding
    cases binding <;> exact Nat.lt_irrefl _
  have atom_irrefl : ∀ atom : BodyAtomPattern, ¬ atom.Before atom := by
    rintro atom (lt | ⟨_, lex⟩)
    · exact Nat.lt_irrefl _ lt
    · exact lex_irrefl var_irrefl _ lex
  rintro (lt | ⟨_, lex⟩)
  · exact Nat.lt_irrefl _ lt
  · exact lex_irrefl atom_irrefl _ lex

-- The canonical space

section

variable (headArity maxJoinVars : Nat)

/-- The bindings that a position may take, in order. -/
def choices (next : Nat) : List PatternVar :=
  (List.range headArity).map .head ++ (List.range (min (next + 1) maxJoinVars)).map .join

def growBindings : Nat → Nat → List (List PatternVar)
  | 0, _ => [[]]
  | left + 1, next =>
      (choices headArity maxJoinVars next).flatMap fun binding =>
        (growBindings left (binding.raise next)).map (binding :: ·)

/-- The bodies over the first candidates. -/
def growBodies (candidateArities : List Nat) (slots : Nat)
    : Nat → Nat → List (List BodyAtomPattern)
  | 0, _ => [[]]
  | left + 1, next =>
      (List.range slots).flatMap fun slot =>
        (candidateArities[slot]?.toList).flatMap fun arity =>
          (growBindings headArity maxJoinVars arity next).flatMap fun bindings =>
            (growBodies candidateArities slots left (raiseAll next bindings)).map
              (⟨slot, bindings⟩ :: ·)

end

section

variable {headArity maxJoinVars next left : Nat}

theorem mem_choices {binding : PatternVar}
    : binding ∈ choices headArity maxJoinVars next
      ↔ binding.Fits headArity maxJoinVars next := by
  cases binding with
  | head i => simp [choices, PatternVar.Fits]
  | join j =>
      simp only [choices, List.mem_append, List.mem_map, List.mem_range, reduceCtorEq,
        and_false, exists_false, false_or, PatternVar.join.injEq, exists_eq_right,
        PatternVar.Fits]
      omega

theorem pairwise_choices : (choices headArity maxJoinVars next).Pairwise PatternVar.Before := by
  rw [choices, List.pairwise_append, List.pairwise_map, List.pairwise_map]
  refine ⟨List.pairwise_lt_range, List.pairwise_lt_range, fun first head second join => ?_⟩
  obtain ⟨i, _, rfl⟩ := List.mem_map.mp head
  obtain ⟨j, _, rfl⟩ := List.mem_map.mp join
  trivial

theorem mem_growBindings {bindings : List PatternVar}
    : bindings ∈ growBindings headArity maxJoinVars left next
      ↔ bindings.length = left ∧ Grows headArity maxJoinVars next bindings := by
  induction left generalizing next bindings with
  | zero =>
      rw [growBindings, List.mem_singleton, List.length_eq_zero_iff]
      exact ⟨fun empty => ⟨empty, empty ▸ trivial⟩, fun grown => grown.1⟩
  | succ left ih =>
      simp only [growBindings, List.mem_flatMap, List.mem_map, mem_choices]
      constructor
      · rintro ⟨binding, fits, rest, member, rfl⟩
        obtain ⟨length, grows⟩ := ih.mp member
        exact ⟨congrArg (· + 1) length, fits, grows⟩
      · rintro ⟨length, grows⟩
        cases bindings with
        | nil => cases length
        | cons binding rest =>
            exact ⟨binding, grows.1, rest, ih.mpr ⟨Nat.succ_inj.mp length, grows.2⟩, rfl⟩

/-- Lists that begin with ordered items and go on in order are in lexicographic order. -/
theorem pairwise_flatMap_cons {α : Type*} {before : α → α → Prop} {items : List α}
    {rest : α → List (List α)} (ordered : items.Pairwise before)
    (ordered_rest : ∀ item ∈ items, (rest item).Pairwise (List.Lex before))
    : (items.flatMap fun item => (rest item).map (item :: ·)).Pairwise
        (List.Lex before) := by
  rw [List.pairwise_flatMap]
  constructor
  · intro item member
    rw [List.pairwise_map]
    exact (ordered_rest item member).imp fun lex => .cons lex
  · refine ordered.imp fun {first second} less xs xs_mem ys ys_mem => ?_
    obtain ⟨_, _, rfl⟩ := List.mem_map.mp xs_mem
    obtain ⟨_, _, rfl⟩ := List.mem_map.mp ys_mem
    exact .rel less

theorem pairwise_growBindings
    : (growBindings headArity maxJoinVars left next).Pairwise
        (List.Lex PatternVar.Before) := by
  induction left generalizing next with
  | zero => exact List.pairwise_singleton _ _
  | succ left ih => exact pairwise_flatMap_cons pairwise_choices fun _ _ => ih

variable {candidateArities : List Nat} {slots : Nat}

theorem mem_growBodies {body : List BodyAtomPattern}
    : body ∈ growBodies headArity maxJoinVars candidateArities slots left next
      ↔ body.length = left
        ∧ (∀ atom ∈ body, atom.candidateSlot < slots
          ∧ candidateArities[atom.candidateSlot]? = some atom.bindings.length)
        ∧ Grows headArity maxJoinVars next (bodyBindings body) := by
  induction left generalizing next body with
  | zero =>
      rw [growBodies, List.mem_singleton, List.length_eq_zero_iff]
      constructor
      · rintro rfl
        exact ⟨rfl, by simp, trivial⟩
      · exact fun grown => grown.1
  | succ left ih =>
      simp only [growBodies, List.mem_flatMap, List.mem_range, Option.mem_toList,
        List.mem_map, mem_growBindings]
      constructor
      · rintro ⟨slot, within, arity, declared, bindings, ⟨length, grows⟩, rest, member, rfl⟩
        obtain ⟨length', atoms, grows'⟩ := ih.mp member
        refine ⟨congrArg (· + 1) length', List.forall_mem_cons.mpr ⟨⟨within, ?_⟩, atoms⟩, ?_⟩
        · exact length ▸ declared
        · exact grows_append.mpr ⟨grows, grows'⟩
      · rintro ⟨length, atoms, grows⟩
        cases body with
        | nil => cases length
        | cons atom rest =>
            obtain ⟨⟨within, declared⟩, atoms⟩ := List.forall_mem_cons.mp atoms
            obtain ⟨first, later⟩ := grows_append.mp grows
            exact ⟨atom.candidateSlot, within, atom.bindings.length, declared, atom.bindings,
              ⟨rfl, first⟩, rest, ih.mpr ⟨Nat.succ_inj.mp length, atoms, later⟩, rfl⟩

theorem pairwise_growBodies
    : (growBodies headArity maxJoinVars candidateArities slots left next).Pairwise
        (List.Lex BodyAtomPattern.Before) := by
  induction left generalizing next with
  | zero => exact List.pairwise_singleton _ _
  | succ left ih =>
      have atoms_eq : growBodies headArity maxJoinVars candidateArities slots (left + 1) next
          = ((List.range slots).flatMap fun slot =>
              (candidateArities[slot]?.toList).flatMap fun arity =>
                (growBindings headArity maxJoinVars arity next).map
                  (BodyAtomPattern.mk slot)).flatMap fun atom =>
            (growBodies headArity maxJoinVars candidateArities slots left
              (raiseAll next atom.bindings)).map (atom :: ·) := by
        simp only [growBodies, List.flatMap_assoc, List.flatMap_map]
      rw [atoms_eq]
      refine pairwise_flatMap_cons ?_ fun _ _ => ih
      rw [List.pairwise_flatMap]
      constructor
      · intro slot _
        cases candidateArities[slot]? with
        | none => exact List.Pairwise.nil
        | some arity =>
            simp only [Option.toList_some, List.flatMap_singleton, List.pairwise_map]
            exact pairwise_growBindings.imp fun lex => .inr ⟨rfl, lex⟩
      · refine List.pairwise_lt_range.imp fun {first second} less xs xs_mem ys ys_mem => ?_
        simp only [List.mem_flatMap, List.mem_map] at xs_mem ys_mem
        obtain ⟨_, _, _, _, rfl⟩ := xs_mem
        obtain ⟨_, _, _, _, rfl⟩ := ys_mem
        exact .inl less

end

-- Renaming

def PatternVar.rename (names : Nat → Nat) : PatternVar → PatternVar
  | .head i => .head i
  | .join j => .join (names j)

def NaryRulePattern.rename (pattern : NaryRulePattern) (names : Nat → Nat)
    : NaryRulePattern where
  headArity := pattern.headArity
  body := pattern.body.map fun atom =>
    ⟨atom.candidateSlot, atom.bindings.map (·.rename names)⟩

def PatternVar.join? : PatternVar → Option Nat
  | .head _ => none
  | .join j => some j

/-- The join variables of a pattern, at each occurrence. -/
def NaryRulePattern.joins (pattern : NaryRulePattern) : List Nat :=
  (bodyBindings pattern.body).filterMap PatternVar.join?

/-- What validation asks for, with the join variables bounded in number but named at will. -/
structure NaryRulePattern.WithinBounds (pattern : NaryRulePattern) (candidateArities : List Nat)
    (config : NaryEnumerationConfig) : Prop where
  head_ne : pattern.headArity ≠ 0
  body_ne : pattern.body ≠ []
  body_le : pattern.body.length ≤ config.maxBodyAtoms
  declared : ∀ atom ∈ pattern.body,
    candidateArities[atom.candidateSlot]? = some atom.bindings.length
  heads : ∀ i, .head i ∈ bodyBindings pattern.body → i < pattern.headArity
  joins_le : pattern.joins.dedup.length ≤ config.maxJoinVars
  restricted : ∀ i < pattern.headArity, .head i ∈ bodyBindings pattern.body

/-- One pattern is another with its join variables renamed apart. -/
def NaryRulePattern.RenamingOf (renamed pattern : NaryRulePattern) : Prop :=
  ∃ names : Nat → Nat, Set.InjOn names {j | j ∈ pattern.joins}
    ∧ renamed = pattern.rename names

theorem mem_joins {pattern : NaryRulePattern} {j : Nat}
    : j ∈ pattern.joins ↔ .join j ∈ bodyBindings pattern.body := by
  rw [NaryRulePattern.joins, List.mem_filterMap]
  constructor
  · rintro ⟨binding, member, found⟩
    cases binding with
    | head i => cases found
    | join k =>
        cases found
        exact member
  · exact fun member => ⟨.join j, member, rfl⟩

theorem bodyBindings_rename {pattern : NaryRulePattern} {names : Nat → Nat}
    : bodyBindings (pattern.rename names).body
      = (bodyBindings pattern.body).map (·.rename names) := by
  simp [bodyBindings, NaryRulePattern.rename, List.flatMap_map, List.map_flatMap]

/-- Two renamings that number joins in the order of their first appearance agree, by induction on the
bindings: a join not seen before takes the next free number under both.
-/
theorem renamings_agree {headArity maxJoinVars next : Nat} {first second : Nat → Nat}
    {bindings : List PatternVar} {seen : List Nat}
    (first_inj : ∀ j k, (j ∈ seen ∨ .join j ∈ bindings) → (k ∈ seen ∨ .join k ∈ bindings) →
      first j = first k → j = k)
    (second_inj : ∀ j k, (j ∈ seen ∨ .join j ∈ bindings) → (k ∈ seen ∨ .join k ∈ bindings) →
      second j = second k → j = k)
    (agree : ∀ j ∈ seen, first j = second j) (below : ∀ j ∈ seen, first j < next)
    (onto : ∀ number < next, ∃ j ∈ seen, first j = number)
    (first_grows : Grows headArity maxJoinVars next (bindings.map (·.rename first)))
    (second_grows : Grows headArity maxJoinVars next (bindings.map (·.rename second)))
    : ∀ j, .join j ∈ bindings → first j = second j := by
  induction bindings generalizing next seen with
  | nil => simp
  | cons binding bindings ih =>
      cases binding with
      | head i =>
          have later : ∀ j, .join j ∈ bindings → first j = second j := by
            refine ih (fun j k hj hk => ?_) (fun j k hj hk => ?_) agree below onto
              first_grows.2 second_grows.2
            · exact first_inj j k (hj.imp_right (List.mem_cons_of_mem _))
                (hk.imp_right (List.mem_cons_of_mem _))
            · exact second_inj j k (hj.imp_right (List.mem_cons_of_mem _))
                (hk.imp_right (List.mem_cons_of_mem _))
          intro j member
          rcases List.mem_cons.mp member with same | member
          · cases same
          · exact later j member
      | join k =>
          obtain ⟨⟨first_le, _⟩, first_rest⟩ := first_grows
          obtain ⟨⟨second_le, _⟩, second_rest⟩ := second_grows
          have here : ∀ j ∈ seen, j ∈ seen ∨ .join j ∈ PatternVar.join k :: bindings :=
            fun j old => .inl old
          have this_one : k ∈ seen ∨ .join k ∈ PatternVar.join k :: bindings :=
            .inr List.mem_cons_self
          have shrink : ∀ j, (j ∈ k :: seen ∨ .join j ∈ bindings) →
              (j ∈ seen ∨ .join j ∈ PatternVar.join k :: bindings) := by
            rintro j (old | later)
            · rcases List.mem_cons.mp old with rfl | old
              · exact this_one
              · exact here j old
            · exact .inr (List.mem_cons_of_mem _ later)
          have value : first k = second k ∧ (k ∉ seen → first k = next) := by
            by_cases old : k ∈ seen
            · exact ⟨agree k old, fun new => absurd old new⟩
            · have first_new : first k = next := by
                by_contra differs
                obtain ⟨j, old_j, same⟩ := onto (first k) (by omega)
                exact old (first_inj j k (here j old_j) this_one same ▸ old_j)
              have second_new : second k = next := by
                by_contra differs
                obtain ⟨j, old_j, same⟩ := onto (second k) (by omega)
                rw [agree j old_j] at same
                exact old (second_inj j k (here j old_j) this_one same ▸ old_j)
              exact ⟨first_new.trans second_new.symm, fun _ => first_new⟩
          have raised : (PatternVar.join (first k)).raise next
              = (PatternVar.join (second k)).raise next := by rw [value.1]
          have later : ∀ j, .join j ∈ bindings → first j = second j := by
            refine @ih ((PatternVar.join (first k)).raise next) (k :: seen)
              (fun j l hj hl => first_inj j l (shrink j hj) (shrink l hl))
              (fun j l hj hl => second_inj j l (shrink j hj) (shrink l hl)) ?_ ?_ ?_ first_rest
              (raised ▸ second_rest)
            · exact List.forall_mem_cons.mpr ⟨value.1, agree⟩
            · refine List.forall_mem_cons.mpr ⟨?_, fun j old => ?_⟩
              · exact Nat.lt_of_lt_of_le (Nat.lt_succ_self _) (Nat.le_max_right _ _)
              · exact Nat.lt_of_lt_of_le (below j old) (Nat.le_max_left _ _)
            · intro number lt
              by_cases old : number < next
              · obtain ⟨j, old_j, same⟩ := onto number old
                exact ⟨j, List.mem_cons_of_mem _ old_j, same⟩
              · have raise_eq : (PatternVar.join (first k)).raise next
                    = max next (first k + 1) := rfl
                exact ⟨k, List.mem_cons_self, by omega⟩
          intro j member
          rcases List.mem_cons.mp member with same | member
          · cases same
            exact value.1
          · exact later j member

/-- The order of first appearance numbers the joins, by induction on the bindings. -/
theorem exists_order {headArity : Nat} {bindings : List PatternVar} {seen : List Nat}
    (nodup : seen.Nodup) (heads : ∀ i, .head i ∈ bindings → i < headArity)
    : ∃ more : List Nat,
        (seen ++ more).Nodup
        ∧ (∀ j ∈ more, .join j ∈ bindings)
        ∧ (∀ j, .join j ∈ bindings → j ∈ seen ++ more)
        ∧ Grows headArity (seen ++ more).length seen.length
            (bindings.map (·.rename (seen ++ more).idxOf)) := by
  induction bindings generalizing seen with
  | nil => exact ⟨[], by simpa using nodup, by simp, by simp, trivial⟩
  | cons binding bindings ih =>
      have heads' : ∀ i, .head i ∈ bindings → i < headArity :=
        fun i member => heads i (List.mem_cons_of_mem _ member)
      cases binding with
      | head i =>
          obtain ⟨more, distinct, appears, all, grows⟩ := ih nodup heads'
          refine ⟨more, distinct, fun j member => List.mem_cons_of_mem _ (appears j member),
            fun j member => all j ?_, heads i List.mem_cons_self, grows⟩
          rcases List.mem_cons.mp member with same | member
          · cases same
          · exact member
      | join k =>
          by_cases old : k ∈ seen
          · obtain ⟨more, distinct, appears, all, grows⟩ := ih nodup heads'
            have index : (seen ++ more).idxOf k = seen.idxOf k :=
              List.idxOf_append_of_mem old
            have lt : seen.idxOf k < seen.length := List.idxOf_lt_length_iff.mpr old
            have total : seen.length ≤ (seen ++ more).length := by simp
            refine ⟨more, distinct, fun j member => List.mem_cons_of_mem _ (appears j member),
              fun j member => ?_, ⟨?_, ?_⟩, ?_⟩
            · rcases List.mem_cons.mp member with same | member
              · cases same
                exact List.mem_append_left _ old
              · exact all j member
            · exact index.le.trans (Nat.le_of_lt lt)
            · exact index.trans_lt (Nat.lt_of_lt_of_le lt total)
            · have raised : ((PatternVar.join k).rename (seen ++ more).idxOf).raise seen.length
                  = seen.length := by
                simp only [PatternVar.rename, PatternVar.raise, index]
                omega
              rw [raised]
              exact grows
          · have distinct' : (seen ++ [k]).Nodup :=
              List.nodup_append.mpr ⟨nodup, List.nodup_singleton k, by
                intro j member j' single same
                rw [List.mem_singleton.mp single] at same
                exact old (same ▸ member)⟩
            obtain ⟨more, distinct, appears, all, grows⟩ := ih distinct' heads'
            rw [List.append_assoc, List.singleton_append] at distinct all grows
            have index : (seen ++ k :: more).idxOf k = seen.length := by
              rw [List.idxOf_append_of_notMem old, List.idxOf_cons_self, Nat.add_zero]
            refine ⟨k :: more, distinct, ?_, fun j member => ?_, ⟨?_, ?_⟩, ?_⟩
            · exact List.forall_mem_cons.mpr ⟨List.mem_cons_self,
                fun j member => List.mem_cons_of_mem _ (appears j member)⟩
            · rcases List.mem_cons.mp member with same | member
              · cases same
                simp
              · exact all j member
            · exact index.le
            · exact index.trans_lt (by simp)
            · have raised : ((PatternVar.join k).rename (seen ++ k :: more).idxOf).raise
                  seen.length = (seen ++ [k]).length := by
                simp only [PatternVar.rename, PatternVar.raise, index]
                simp
              rw [raised]
              exact grows

/-- A pattern within the bounds is a renaming of exactly one canonical pattern. -/
theorem existsUnique_canonical {pattern : NaryRulePattern} {candidateArities : List Nat}
    {config : NaryEnumerationConfig} (within : pattern.WithinBounds candidateArities config)
    : ∃! canonical : NaryRulePattern,
        canonical.Canonical candidateArities config ∧ canonical.RenamingOf pattern := by
  obtain ⟨order, distinct, appears, all, grows⟩ :=
    @exists_order pattern.headArity (bodyBindings pattern.body) [] List.nodup_nil within.heads
  rw [List.nil_append] at distinct all grows
  have short : order.length ≤ config.maxJoinVars := by
    refine Nat.le_trans ?_ within.joins_le
    refine (List.Nodup.subperm distinct fun j member => ?_).length_le
    exact List.mem_dedup.mpr (mem_joins.mpr (appears j member))
  refine ⟨pattern.rename order.idxOf, ⟨⟨within.head_ne, ?_, ?_, ?_, ?_, ?_⟩, _, ?_, rfl⟩, ?_⟩
  · simpa [NaryRulePattern.rename] using within.body_ne
  · simpa [NaryRulePattern.rename] using within.body_le
  · simpa [NaryRulePattern.rename] using within.declared
  · rw [bodyBindings_rename]
    exact grows.mono short
  · intro i lt
    rw [bodyBindings_rename]
    exact List.mem_map.mpr ⟨.head i, within.restricted i lt, rfl⟩
  · intro j member k member' same
    exact (List.idxOf_inj (all j (mem_joins.mp member))).mp same
  · rintro other ⟨canonical, names, inj, rfl⟩
    have agree : ∀ j, .join j ∈ bodyBindings pattern.body → names j = order.idxOf j := by
      have first_grows := canonical.grows
      rw [bodyBindings_rename] at first_grows
      refine @renamings_agree pattern.headArity config.maxJoinVars 0 names order.idxOf
        (bodyBindings pattern.body) [] ?_ ?_ (by simp) (by simp) (by simp) first_grows
        (grows.mono short)
      · rintro j k (member | member) (member' | member') same
        all_goals first | cases member | cases member' | skip
        exact inj (mem_joins.mpr member) (mem_joins.mpr member') same
      · rintro j k (member | member) (member' | member') same
        all_goals first | cases member | cases member' | skip
        exact (List.idxOf_inj (all j member)).mp same
    have bodies : ∀ atom ∈ pattern.body, ∀ binding ∈ atom.bindings,
        binding.rename names = binding.rename order.idxOf := by
      intro atom member binding member'
      cases binding with
      | head i => rfl
      | join j =>
          exact congrArg PatternVar.join
            (agree j (List.mem_flatMap.mpr ⟨atom, member, member'⟩))
    rw [NaryRulePattern.rename, NaryRulePattern.rename, NaryRulePattern.mk.injEq]
    refine ⟨rfl, List.map_congr_left fun atom member => ?_⟩
    rw [BodyAtomPattern.mk.injEq]
    exact ⟨rfl, List.map_congr_left (bodies atom member)⟩

end Xlog.Induce
