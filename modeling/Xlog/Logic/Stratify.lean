import Mathlib.Data.List.Sort
import Mathlib.Data.String.Basic
import Xlog.Core.Error
import Xlog.Foundation.Tarjan
import Xlog.Logic.Ast

/-! Stratification: the predicate dependency graph, its components in dependency order, the check for cycles
through negation or aggregation, and the numbering of the strata. The graph says which predicate depends
on which, and which of these dependencies ask for a lower stratum.
-/

namespace Xlog.Logic

open Xlog.Core
open Xlog.Foundation

inductive DepType where
  | positive | negative | aggregate
  deriving DecidableEq, Repr

structure DepEdge where
  source : String
  target : String
  depType : DepType
  deriving DecidableEq, Repr

/-- The graph; the adjacency table lists, for each predicate, the positions of its outgoing
edges.
-/
structure DependencyGraph where
  predicates : List String
  edges : List DepEdge
  adjacency : String → List Nat

namespace DependencyGraph

def new : DependencyGraph := ⟨[], [], fun _ => []⟩

def addPredicate (g : DependencyGraph) (name : String) : DependencyGraph :=
  { g with predicates := g.predicates.insert name }

def addEdge (g : DependencyGraph) (edge : DepEdge) : DependencyGraph where
  predicates := (g.predicates.insert edge.source).insert edge.target
  edges := g.edges ++ [edge]
  adjacency := Function.update g.adjacency edge.source
    (g.adjacency edge.source ++ [g.edges.length])

def outgoing (g : DependencyGraph) (pred : String) : List DepEdge :=
  (g.adjacency pred).filterMap fun i => g.edges[i]?

/-- The edge of a body literal of an ordinary rule. -/
def bodyEdge (head : String) : BodyLiteral → Option DepEdge
  | .positive atom => some ⟨head, atom.predicate, .positive⟩
  | .negated atom => some ⟨head, atom.predicate, .negative⟩
  | .epistemic literal => some ⟨head, literal.atom.predicate, .negative⟩
  | .comparison _ | .isExpr _ | .univ _ => none

/-- The further edge of a body literal under an aggregating head. -/
def aggregateEdge (head : String) : BodyLiteral → Option DepEdge
  | .positive atom => some ⟨head, atom.predicate, .aggregate⟩
  | _ => none

/-- The edge of a body literal of a learnable rule: every atom counts as positive. -/
def learnableEdge (head : String) (literal : BodyLiteral) : Option DepEdge :=
  literal.atom.map fun atom => ⟨head, atom.predicate, .positive⟩

/-- Adds the edges of a rule body. -/
def addBody (g : DependencyGraph) (edgeOf : BodyLiteral → Option DepEdge)
    (body : List BodyLiteral) : DependencyGraph :=
  body.foldl (fun g literal =>
    match edgeOf literal with
    | some edge => g.addEdge edge
    | none => g) g

def addRule (g : DependencyGraph) (rule : Rule) : DependencyGraph :=
  let head := rule.head.predicate
  let g := (g.addPredicate head).addBody (bodyEdge head) rule.body
  if rule.hasAggregation then g.addBody (aggregateEdge head) rule.body else g

def addLearnableRule (g : DependencyGraph) (rule : LearnableRule) : DependencyGraph :=
  (g.addPredicate rule.head.predicate).addBody (learnableEdge rule.head.predicate) rule.body

end DependencyGraph

def buildDependencyGraph (program : Program) : DependencyGraph :=
  program.learnableRules.foldl DependencyGraph.addLearnableRule
    (program.rules.foldl DependencyGraph.addRule DependencyGraph.new)

/-- Strongly connected components, dependencies first. -/
def findSccs (g : DependencyGraph) : List (List String) :=
  Tarjan.components (fun pred => (g.outgoing pred).map (·.target))
    (g.predicates.insertionSort (· ≤ ·))

/-- The predicates of a component with a cycle through negation or aggregation. -/
def checkSccForNegationCycle (scc : List String) (g : DependencyGraph) : Option (List String) :=
  match scc with
  | [pred] =>
      if (g.outgoing pred).any fun edge => edge.target = pred ∧ edge.depType ≠ .positive then
        some [pred]
      else none
  | _ =>
      if scc.any fun pred =>
          (g.outgoing pred).any fun edge => edge.target ∈ scc ∧ edge.depType ≠ .positive then
        some scc
      else none

structure Stratum where
  id : Nat
  predicates : List String
  deriving DecidableEq, Repr

/-- The stratum that an edge asks of its source, if its target has one. -/
def requiredStratum (strata : List (String × Nat)) (edge : DepEdge) : Nat :=
  match strata.lookup edge.target with
  | some depStratum =>
      match edge.depType with
      | .positive => depStratum
      | .negative | .aggregate => depStratum + 1
  | none => 0

/-- Numbers one component above everything it depends on. -/
def assignScc (g : DependencyGraph) (state : List (String × Nat) × Nat) (scc : List String)
    : List (String × Nat) × Nat :=
  let minStratum := scc.foldl (fun low pred =>
    (g.outgoing pred).foldl (fun low edge => max low (requiredStratum state.1 edge)) low) 0
  (scc.foldl (fun strata pred => (pred, minStratum) :: strata) state.1,
    max state.2 minStratum)

/-- The strata of a numbering: one per used number, renumbered from zero. -/
def collectStrata (numbering : List (String × Nat)) (maxStratum : Nat) : List Stratum :=
  let empty : List Stratum := (List.range (maxStratum + 1)).map fun id => ⟨id, []⟩
  let strata := numbering.foldl (fun strata entry =>
    strata.modify entry.2 fun s => { s with predicates := s.predicates ++ [entry.1] }) empty
  let sorted := strata.map fun s =>
    { s with predicates := s.predicates.insertionSort (· ≤ ·) }
  (sorted.filter fun s => !s.predicates.isEmpty).mapIdx fun i s => { s with id := i }

def stratify (program : Program) : Result (List Stratum) :=
  let g := buildDependencyGraph program
  let sccs := findSccs g
  match if program.isProbabilisticProfile then none
      else sccs.findSome? (checkSccForNegationCycle · g) with
  | some cycle => .error (.stratificationCycle cycle)
  | none =>
      let numbered := sccs.foldl (assignScc g) ([], 0)
      .ok (collectStrata numbered.1 numbered.2)

-- The dependency graph

-- What the rules say

/-- A negated or modal atom must be settled before the head. -/
def BodyLiteral.isStrict : BodyLiteral → Bool
  | .negated _ | .epistemic _ => true
  | .positive _ | .comparison _ | .isExpr _ | .univ _ => false

/-- Under an aggregating head every body atom must be settled before the head. -/
def Rule.dependsStrictly (rule : Rule) (literal : BodyLiteral) : Bool :=
  literal.isStrict || rule.hasAggregation

def LearnableRule.hasAggregation (rule : LearnableRule) : Bool :=
  rule.head.terms.any Term.isAggregate

/-- Learnable rules read like ordinary ones. -/
def LearnableRule.dependsStrictly (rule : LearnableRule) (literal : BodyLiteral) : Bool :=
  literal.isStrict || rule.hasAggregation

/-- The head of some rule depends on a body atom, strictly or not; which atoms of learnable
rules count as strict is a parameter.
-/
inductive Dependency (learnableStrict : LearnableRule → BodyLiteral → Bool)
    (program : Program) : String → String → Bool → Prop where
  | rule {rule : Rule} {literal : BodyLiteral} {atom : Atom} (hr : rule ∈ program.rules)
      (hl : literal ∈ rule.body) (ha : literal.atom = some atom)
      : Dependency learnableStrict program rule.head.predicate atom.predicate
          (rule.dependsStrictly literal)
  | learnable {rule : LearnableRule} {literal : BodyLiteral} {atom : Atom}
      (hr : rule ∈ program.learnableRules) (hl : literal ∈ rule.body)
      (ha : literal.atom = some atom)
      : Dependency learnableStrict program rule.head.predicate atom.predicate
          (learnableStrict rule literal)

/-- A predicate occurs as the head or in the body of some rule. -/
inductive Program.Mentions (program : Program) : String → Prop where
  | head {rule : Rule} (hr : rule ∈ program.rules) : Mentions program rule.head.predicate
  | body {rule : Rule} {literal : BodyLiteral} {atom : Atom} (hr : rule ∈ program.rules)
      (hl : literal ∈ rule.body) (ha : literal.atom = some atom)
      : Mentions program atom.predicate
  | learnableHead {rule : LearnableRule} (hr : rule ∈ program.learnableRules)
      : Mentions program rule.head.predicate
  | learnableBody {rule : LearnableRule} {literal : BodyLiteral} {atom : Atom}
      (hr : rule ∈ program.learnableRules) (hl : literal ∈ rule.body)
      (ha : literal.atom = some atom) : Mentions program atom.predicate

-- The graph's own invariant

namespace DependencyGraph

/-- The adjacency table is an index of the edges, and every endpoint is a predicate. -/
structure Ok (g : DependencyGraph) : Prop where
  inRange : ∀ pred, ∀ i ∈ g.adjacency pred, i < g.edges.length
  inSync : ∀ pred, g.outgoing pred = g.edges.filter (·.source = pred)
  distinct : g.predicates.Nodup
  endpoints : ∀ edge ∈ g.edges, edge.source ∈ g.predicates ∧ edge.target ∈ g.predicates

theorem Ok.new : Ok new where
  inRange := by simp [DependencyGraph.new]
  inSync := by simp [DependencyGraph.new, outgoing]
  distinct := by simp [DependencyGraph.new]
  endpoints := by simp [DependencyGraph.new]

theorem Ok.addPredicate {g : DependencyGraph} (h : Ok g) (name : String)
    : Ok (g.addPredicate name) where
  inRange := h.inRange
  inSync := h.inSync
  distinct := h.distinct.insert
  endpoints := fun edge he =>
    ⟨List.mem_insert_of_mem (h.endpoints edge he).1,
      List.mem_insert_of_mem (h.endpoints edge he).2⟩

/-- Earlier positions keep their edges when one is appended. -/
theorem outgoing_append {g : DependencyGraph} (edge : DepEdge) {positions : List Nat}
    (inRange : ∀ i ∈ positions, i < g.edges.length)
    : positions.filterMap (fun i => (g.edges ++ [edge])[i]?)
      = positions.filterMap (fun i => g.edges[i]?) :=
  List.filterMap_congr fun i hi => List.getElem?_append_left (inRange i hi)

theorem Ok.addEdge {g : DependencyGraph} (h : Ok g) (edge : DepEdge)
    : Ok (g.addEdge edge) where
  inRange := by
    intro pred i hi
    simp only [DependencyGraph.addEdge, List.length_append, List.length_singleton] at hi ⊢
    by_cases hp : pred = edge.source
    · subst hp
      simp only [Function.update_self, List.mem_append, List.mem_singleton] at hi
      rcases hi with hi | rfl
      · have := h.inRange _ i hi
        omega
      · omega
    · rw [Function.update_of_ne hp] at hi
      have := h.inRange pred i hi
      omega
  inSync := by
    intro pred
    have hold := h.inSync pred
    by_cases hp : pred = edge.source
    · subst hp
      simp only [outgoing, DependencyGraph.addEdge, Function.update_self,
        List.filterMap_append, outgoing_append edge (h.inRange _), List.filter_append] at hold ⊢
      simp [hold]
    · simp only [outgoing, DependencyGraph.addEdge, Function.update_of_ne hp,
        outgoing_append edge (h.inRange _), List.filter_append] at hold ⊢
      simp [hold, Ne.symm hp]
  distinct := h.distinct.insert.insert
  endpoints := by
    intro e he
    simp only [DependencyGraph.addEdge, List.mem_append, List.mem_singleton] at he ⊢
    rcases he with he | rfl
    · exact ⟨List.mem_insert_of_mem (List.mem_insert_of_mem (h.endpoints e he).1),
        List.mem_insert_of_mem (List.mem_insert_of_mem (h.endpoints e he).2)⟩
    · exact ⟨List.mem_insert_of_mem List.mem_insert_self, List.mem_insert_self⟩

/-- The edges and predicates that a part of the program contributes to a graph. -/
structure Adds (g : DependencyGraph) (preds : List String) (added : List DepEdge)
    (g' : DependencyGraph) : Prop where
  ok : Ok g → Ok g'
  edges : g'.edges = g.edges ++ added
  predicates : ∀ x, x ∈ g'.predicates ↔ x ∈ g.predicates ∨ x ∈ preds
    ∨ ∃ edge ∈ added, x = edge.source ∨ x = edge.target

theorem Adds.refl (g : DependencyGraph) : Adds g [] [] g where
  ok := fun h => h
  edges := by simp
  predicates := by simp

theorem Adds.trans {g g' g'' : DependencyGraph} {ps qs : List String} {es fs : List DepEdge}
    (h : Adds g ps es g') (h' : Adds g' qs fs g'')
    : Adds g (ps ++ qs) (es ++ fs) g'' where
  ok := fun hok => h'.ok (h.ok hok)
  edges := by rw [h'.edges, h.edges, List.append_assoc]
  predicates := by
    intro x
    rw [h'.predicates, h.predicates]
    simp only [List.mem_append, or_and_right, exists_or]
    grind

theorem Adds.predicate (g : DependencyGraph) (name : String)
    : Adds g [name] [] (g.addPredicate name) where
  ok := fun h => h.addPredicate name
  edges := by simp [DependencyGraph.addPredicate]
  predicates := by
    intro x
    simp [DependencyGraph.addPredicate, List.mem_insert_iff, or_comm]

theorem Adds.edge (g : DependencyGraph) (edge : DepEdge)
    : Adds g [] [edge] (g.addEdge edge) where
  ok := fun h => h.addEdge edge
  edges := rfl
  predicates := by
    intro x
    simp only [DependencyGraph.addEdge, List.mem_insert_iff, List.not_mem_nil, false_or,
      List.mem_singleton, exists_eq_left]
    tauto

/-- A rule body adds the edges of its literals, by list induction. -/
theorem Adds.body (g : DependencyGraph) (edgeOf : BodyLiteral → Option DepEdge)
    (body : List BodyLiteral)
    : Adds g [] (body.filterMap edgeOf) (g.addBody edgeOf body) := by
  induction body generalizing g with
  | nil => exact .refl g
  | cons literal body ih =>
      cases he : edgeOf literal with
      | none =>
          rw [List.filterMap_cons_none he]
          simpa only [addBody, List.foldl_cons, he] using ih g
      | some edge =>
          rw [List.filterMap_cons_some he]
          simpa only [addBody, List.foldl_cons, he, List.nil_append, List.singleton_append]
            using (Adds.edge g edge).trans (ih (g.addEdge edge))

/-- The edges of one ordinary rule. -/
def ruleEdges (rule : Rule) : List DepEdge :=
  rule.body.filterMap (bodyEdge rule.head.predicate)
  ++ if rule.hasAggregation then rule.body.filterMap (aggregateEdge rule.head.predicate) else []

/-- The edges of one learnable rule. -/
def learnableEdges (rule : LearnableRule) : List DepEdge :=
  rule.body.filterMap (learnableEdge rule.head.predicate)

theorem Adds.rule (g : DependencyGraph) (rule : Rule)
    : Adds g [rule.head.predicate] (ruleEdges rule) (g.addRule rule) := by
  have hbody := (Adds.predicate g rule.head.predicate).trans
    (Adds.body _ (bodyEdge rule.head.predicate) rule.body)
  unfold addRule ruleEdges
  by_cases hagg : rule.hasAggregation
  · simpa only [hagg, if_true, List.nil_append, List.append_nil] using
      hbody.trans (Adds.body _ (aggregateEdge rule.head.predicate) rule.body)
  · simpa only [hagg, Bool.false_eq_true, if_false, List.nil_append, List.append_nil]
      using hbody

theorem Adds.learnableRule (g : DependencyGraph) (rule : LearnableRule)
    : Adds g [rule.head.predicate] (learnableEdges rule) (g.addLearnableRule rule) := by
  simpa only [learnableEdges, addLearnableRule, List.nil_append, List.append_nil] using
    (Adds.predicate g rule.head.predicate).trans
      (Adds.body _ (learnableEdge rule.head.predicate) rule.body)

/-- A list of parts adds what each part adds, by list induction. -/
theorem Adds.all {ι : Type} (add : DependencyGraph → ι → DependencyGraph)
    (preds : ι → List String) (edges : ι → List DepEdge)
    (one : ∀ g part, Adds g (preds part) (edges part) (add g part))
    (parts : List ι) (g : DependencyGraph)
    : Adds g (parts.flatMap preds) (parts.flatMap edges) (parts.foldl add g) := by
  induction parts generalizing g with
  | nil => exact .refl g
  | cons part parts ih =>
      simpa only [List.flatMap_cons, List.foldl_cons] using (one g part).trans (ih (add g part))

end DependencyGraph

open DependencyGraph

/-- The built graph holds the edges of all rules, ordinary rules first. -/
theorem buildDependencyGraph_adds (program : Program)
    : Adds DependencyGraph.new
        (program.rules.flatMap (fun rule => [rule.head.predicate])
          ++ program.learnableRules.flatMap (fun rule => [rule.head.predicate]))
        (program.rules.flatMap ruleEdges ++ program.learnableRules.flatMap learnableEdges)
        (buildDependencyGraph program) :=
  (Adds.all _ _ _ Adds.rule program.rules _).trans
    (Adds.all _ _ _ Adds.learnableRule program.learnableRules _)

theorem buildDependencyGraph_ok (program : Program)
    : (buildDependencyGraph program).Ok :=
  (buildDependencyGraph_adds program).ok Ok.new

theorem mem_edges_iff {program : Program} {edge : DepEdge}
    : edge ∈ (buildDependencyGraph program).edges
      ↔ (∃ rule ∈ program.rules, edge ∈ ruleEdges rule)
        ∨ ∃ rule ∈ program.learnableRules, edge ∈ learnableEdges rule := by
  rw [(buildDependencyGraph_adds program).edges]
  simp [DependencyGraph.new]

/-- The edges of a rule are its dependencies; a strict one has a non-positive edge. -/
theorem mem_ruleEdges {rule : Rule} {edge : DepEdge}
    : edge ∈ ruleEdges rule
      ↔ ∃ literal ∈ rule.body, ∃ atom, literal.atom = some atom
        ∧ edge.source = rule.head.predicate
        ∧ edge.target = atom.predicate
        ∧ (edge.depType = .positive ∧ literal.isStrict = false
          ∨ edge.depType = .negative ∧ literal.isStrict = true
          ∨ edge.depType = .aggregate ∧ literal.isStrict = false
            ∧ rule.hasAggregation = true) := by
  obtain ⟨source, target, depType⟩ := edge
  have hbody : ∀ literal, bodyEdge rule.head.predicate literal = some ⟨source, target, depType⟩
      ↔ ∃ atom, literal.atom = some atom ∧ source = rule.head.predicate
        ∧ target = atom.predicate
        ∧ (depType = .positive ∧ literal.isStrict = false
          ∨ depType = .negative ∧ literal.isStrict = true) := by
    intro literal
    cases literal <;> simp [bodyEdge, BodyLiteral.atom, BodyLiteral.isStrict, eq_comm]
  have hagg : ∀ literal,
      aggregateEdge rule.head.predicate literal = some ⟨source, target, depType⟩
      ↔ ∃ atom, literal.atom = some atom ∧ source = rule.head.predicate
        ∧ target = atom.predicate
        ∧ depType = .aggregate ∧ literal.isStrict = false := by
    intro literal
    cases literal <;> simp [aggregateEdge, BodyLiteral.atom, BodyLiteral.isStrict, eq_comm]
  simp only [ruleEdges, List.mem_append, List.mem_filterMap, hbody]
  constructor
  · intro h
    rcases h with ⟨literal, hl, atom, ha, hs, ht, hkind⟩ | h
    · exact ⟨literal, hl, atom, ha, hs, ht, hkind.imp id .inl⟩
    · split at h
      · next hrule =>
          obtain ⟨literal, hl, he⟩ := List.mem_filterMap.mp h
          obtain ⟨atom, ha, hs, ht, hkind, hstrict⟩ := (hagg literal).mp he
          exact ⟨literal, hl, atom, ha, hs, ht, .inr (.inr ⟨hkind, hstrict, hrule⟩)⟩
      · simp at h
  · intro h
    obtain ⟨literal, hl, atom, ha, hs, ht, hkind⟩ := h
    rcases hkind with hkind | hkind | ⟨hkind, hstrict, hrule⟩
    · exact .inl ⟨literal, hl, atom, ha, hs, ht, .inl hkind⟩
    · exact .inl ⟨literal, hl, atom, ha, hs, ht, .inr hkind⟩
    · right
      rw [if_pos hrule]
      exact List.mem_filterMap.mpr
        ⟨literal, hl, (hagg literal).mpr ⟨atom, ha, hs, ht, hkind, hstrict⟩⟩

theorem mem_learnableEdges {rule : LearnableRule} {edge : DepEdge}
    : edge ∈ learnableEdges rule
      ↔ ∃ literal ∈ rule.body, ∃ atom, literal.atom = some atom
        ∧ edge.source = rule.head.predicate
        ∧ edge.target = atom.predicate
        ∧ edge.depType = .positive := by
  obtain ⟨source, target, depType⟩ := edge
  simp only [learnableEdges, learnableEdge, List.mem_filterMap, Option.map_eq_some_iff,
    DepEdge.mk.injEq]
  constructor
  · intro hgiven
    obtain ⟨literal, hl, atom, ha, hs, ht, hkind⟩ := hgiven
    exact ⟨literal, hl, atom, ha, hs.symm, ht.symm, hkind.symm⟩
  · intro hgiven
    obtain ⟨literal, hl, atom, ha, hs, ht, hkind⟩ := hgiven
    exact ⟨literal, hl, atom, ha, hs.symm, ht.symm, hkind.symm⟩

/-- Learnable rules depend on their body atoms without marks. -/
def unmarked : LearnableRule → BodyLiteral → Bool := fun _ _ => false

/-- The graph's edges are the dependencies of the program. -/
theorem exists_edge_iff {program : Program} {head body : String}
    : (∃ edge ∈ (buildDependencyGraph program).edges,
        edge.source = head ∧ edge.target = body)
      ↔ ∃ strict, Dependency unmarked program head body strict := by
  constructor
  · intro hgiven
    obtain ⟨edge, he, hs, ht⟩ := hgiven
    rcases mem_edges_iff.mp he with ⟨rule, hr, he⟩ | ⟨rule, hr, he⟩
    · obtain ⟨literal, hl, atom, ha, hs', ht', _⟩ := mem_ruleEdges.mp he
      exact ⟨_, hs ▸ ht ▸ hs' ▸ ht' ▸ Dependency.rule hr hl ha⟩
    · obtain ⟨literal, hl, atom, ha, hs', ht', _⟩ := mem_learnableEdges.mp he
      exact ⟨_, hs ▸ ht ▸ hs' ▸ ht' ▸ Dependency.learnable hr hl ha⟩
  · intro hgiven
    obtain ⟨strict, h⟩ := hgiven
    cases h with
    | @rule rule literal atom hr hl ha =>
        cases hstrict : literal.isStrict with
        | false =>
            exact ⟨⟨_, _, .positive⟩, mem_edges_iff.mpr (.inl ⟨rule, hr, mem_ruleEdges.mpr
              ⟨literal, hl, atom, ha, rfl, rfl, .inl ⟨rfl, hstrict⟩⟩⟩), rfl, rfl⟩
        | true =>
            exact ⟨⟨_, _, .negative⟩, mem_edges_iff.mpr (.inl ⟨rule, hr, mem_ruleEdges.mpr
              ⟨literal, hl, atom, ha, rfl, rfl, .inr (.inl ⟨rfl, hstrict⟩)⟩⟩), rfl, rfl⟩
    | @learnable rule literal atom hr hl ha =>
        exact ⟨⟨_, _, .positive⟩, mem_edges_iff.mpr (.inr ⟨rule, hr, mem_learnableEdges.mpr
          ⟨literal, hl, atom, ha, rfl, rfl, rfl⟩⟩), rfl, rfl⟩

/-- The non-positive edges are the strict dependencies. -/
theorem exists_strict_edge_iff {program : Program} {head body : String}
    : (∃ edge ∈ (buildDependencyGraph program).edges,
        edge.source = head ∧ edge.target = body ∧ edge.depType ≠ .positive)
      ↔ Dependency unmarked program head body true := by
  constructor
  · intro hgiven
    obtain ⟨edge, he, hs, ht, hkind⟩ := hgiven
    rcases mem_edges_iff.mp he with ⟨rule, hr, he⟩ | ⟨rule, hr, he⟩
    · obtain ⟨literal, hl, atom, ha, hs', ht', hcase⟩ := mem_ruleEdges.mp he
      have hstrict : rule.dependsStrictly literal = true := by
        simp only [Rule.dependsStrictly, Bool.or_eq_true]
        tauto
      have : Dependency unmarked program _ _ _ := .rule hr hl ha
      rw [hstrict] at this
      exact hs ▸ ht ▸ hs' ▸ ht' ▸ this
    · obtain ⟨literal, hl, atom, ha, hs', ht', hpos⟩ := mem_learnableEdges.mp he
      exact absurd hpos hkind
  · intro h
    generalize hb : true = strict at h
    cases h with
    | @rule rule literal atom hr hl ha =>
        cases hstrict : literal.isStrict with
        | false =>
            have hagg : rule.hasAggregation = true := by
              simpa [Rule.dependsStrictly, hstrict] using hb.symm
            exact ⟨⟨_, _, .aggregate⟩, mem_edges_iff.mpr (.inl ⟨rule, hr, mem_ruleEdges.mpr
              ⟨literal, hl, atom, ha, rfl, rfl, .inr (.inr ⟨rfl, hstrict, hagg⟩)⟩⟩), rfl, rfl,
              by simp⟩
        | true =>
            exact ⟨⟨_, _, .negative⟩, mem_edges_iff.mpr (.inl ⟨rule, hr, mem_ruleEdges.mpr
              ⟨literal, hl, atom, ha, rfl, rfl, .inr (.inl ⟨rfl, hstrict⟩)⟩⟩), rfl, rfl,
              by simp⟩
    | learnable hr hl ha => simp [unmarked] at hb

/-- The graph's predicates are those the rules mention. -/
theorem mem_predicates_iff {program : Program} {pred : String}
    : pred ∈ (buildDependencyGraph program).predicates ↔ program.Mentions pred := by
  have hadds := buildDependencyGraph_adds program
  have hedges : (buildDependencyGraph program).edges
      = program.rules.flatMap ruleEdges ++ program.learnableRules.flatMap learnableEdges :=
    hadds.edges
  rw [hadds.predicates, ← hedges]
  simp only [DependencyGraph.new, List.not_mem_nil, false_or, List.mem_append,
    List.mem_flatMap, List.mem_singleton]
  constructor
  · intro h
    rcases h with (⟨rule, hr, rfl⟩ | ⟨rule, hr, rfl⟩) | ⟨edge, he, hx⟩
    · exact .head hr
    · exact .learnableHead hr
    · rcases mem_edges_iff.mp he with ⟨rule, hr, he⟩ | ⟨rule, hr, he⟩
      · obtain ⟨literal, hl, atom, ha, hs, ht, _⟩ := mem_ruleEdges.mp he
        rcases hx with rfl | rfl
        · rw [hs]
          exact .head hr
        · rw [ht]
          exact .body hr hl ha
      · obtain ⟨literal, hl, atom, ha, hs, ht, _⟩ := mem_learnableEdges.mp he
        rcases hx with rfl | rfl
        · rw [hs]
          exact .learnableHead hr
        · rw [ht]
          exact .learnableBody hr hl ha
  · intro h
    cases h with
    | @head rule hr => exact .inl (.inl ⟨rule, hr, rfl⟩)
    | @learnableHead rule hr => exact .inl (.inr ⟨rule, hr, rfl⟩)
    | body hr hl ha =>
        obtain ⟨edge, he, _, ht⟩ := exists_edge_iff.mpr ⟨_, .rule hr hl ha⟩
        exact .inr ⟨edge, he, .inr ht.symm⟩
    | learnableBody hr hl ha =>
        obtain ⟨edge, he, _, ht⟩ := exists_edge_iff.mpr ⟨_, .learnable hr hl ha⟩
        exact .inr ⟨edge, he, .inr ht.symm⟩

end Xlog.Logic
