import Mathlib.Data.List.Nodup
import Xlog.Logic.Ast

/-! Rule bodies as hypergraphs: variables are the vertices, positive atoms the edges. A rule is
eligible when it can be planned as a multiway join.
-/

namespace Xlog.Logic

-- Hypergraphs

abbrev VertexId := Nat

structure Vertex where
  name : String

/-- A positive body atom: the vertex of every variable position. -/
structure Hyperedge where
  predicate : String
  vertexPositions : List (Option VertexId)

/-- The distinct vertices of an edge, in the order of the positions. -/
def Hyperedge.vertices (edge : Hyperedge) : List VertexId :=
  edge.vertexPositions.reduceOption.foldl
    (fun seen vid => if vid ∈ seen then seen else seen ++ [vid]) []

structure HypergraphRule where
  headPredicate : String
  vertices : List Vertex
  hyperedges : List Hyperedge
  headHasAggregation : Bool
  hasNegation : Bool
  hasIsExpr : Bool
  comparisonCount : Nat
  isFact : Bool

/-- The vertex of a variable, by its name. -/
def vertexOf (vertices : List Vertex) (name : String) : Option VertexId :=
  vertices.findIdx? fun v => v.name = name

def addPosition (s : List (Option VertexId) × List Vertex) (term : Term)
    : List (Option VertexId) × List Vertex :=
  match term with
  | .var name =>
      match vertexOf s.2 name with
      | some vid => (s.1 ++ [some vid], s.2)
      | none => (s.1 ++ [some s.2.length], s.2 ++ [⟨name⟩])
  | .anonymous | .integer _ | .float _ | .string _ | .symbol _ | .aggregate _ | .list _
  | .cons _ _ | .compound _ _ | .predRef _ => (s.1 ++ [none], s.2)

def buildHyperedge (vertices : List Vertex) (atom : Atom) : Hyperedge × List Vertex :=
  let built := atom.terms.foldl addPosition ([], vertices)
  (⟨atom.predicate, built.1⟩, built.2)

namespace HypergraphRule

def addLiteral (hg : HypergraphRule) : BodyLiteral → HypergraphRule
  | .positive atom =>
      let built := buildHyperedge hg.vertices atom
      { hg with hyperedges := hg.hyperedges ++ [built.1], vertices := built.2 }
  | .negated _ | .epistemic _ => { hg with hasNegation := true }
  | .comparison _ | .univ _ => { hg with comparisonCount := hg.comparisonCount + 1 }
  | .isExpr _ => { hg with hasIsExpr := true }

def fromRule (rule : Rule) : HypergraphRule :=
  rule.body.foldl addLiteral
    ⟨rule.head.predicate, [], [], rule.hasAggregation, false, false, 0, rule.isFact⟩

def vertexCount (hg : HypergraphRule) : Nat := hg.vertices.length

end HypergraphRule

-- Eligibility

inductive ExecutorContext where
  | hashFallback | wcojEligible
  deriving DecidableEq

def binaryFallbackKeyLimit : Nat := 4
def wcojEligibleKeyLimit : Nat := 8

def ExecutorContext.joinKeyLimit : ExecutorContext → Nat
  | .hashFallback => binaryFallbackKeyLimit
  | .wcojEligible => wcojEligibleKeyLimit

/-- One reason against a multiway plan. -/
inductive Boundary where
  | groundFact
  | headAggregation
  | bodyNegation
  | bodyIsExpr
  | insufficientPositiveAtoms (positiveCount : Nat)
  | joinKeysExceedBinaryFallbackLimit (context : ExecutorContext) (count limit : Nat)
  deriving DecidableEq

inductive Eligibility where
  | eligible
  | ineligible (boundaries : List Boundary)
  deriving DecidableEq

/-- The number of vertices in two or more edges. -/
def countJoinKeys (hg : HypergraphRule) : Nat :=
  (List.range hg.vertexCount).countP fun vid =>
    2 ≤ hg.hyperedges.countP fun edge => vid ∈ edge.vertices

def analyze (hg : HypergraphRule) (context : ExecutorContext) : Eligibility :=
  let positiveCount := hg.hyperedges.length
  let joinKeyCount := countJoinKeys hg
  let boundaries :=
    (if hg.isFact then [Boundary.groundFact] else [])
    ++ (if hg.headHasAggregation then [.headAggregation] else [])
    ++ (if hg.hasNegation then [.bodyNegation] else [])
    ++ (if hg.hasIsExpr then [.bodyIsExpr] else [])
    ++ (if ¬ hg.isFact ∧ positiveCount < 2 then [.insufficientPositiveAtoms positiveCount] else [])
    ++ (if context.joinKeyLimit < joinKeyCount then
        [.joinKeysExceedBinaryFallbackLimit context joinKeyCount context.joinKeyLimit] else [])
  if boundaries.isEmpty then .eligible else .ineligible boundaries

-- The hypergraph of a rule

def Rule.positiveAtoms (rule : Rule) : List Atom :=
  rule.body.filterMap fun
    | .positive atom => some atom
    | _ => none

/-- A position of an edge names the vertex of its variable. -/
def PositionOf (vertices : List Vertex) (term : Term) (pos : Option VertexId) : Prop :=
  match term with
  | .var name => ∃ vid, pos = some vid ∧ vertices[vid]? = some ⟨name⟩
  | _ => pos = none

def EdgeOf (vertices : List Vertex) (atom : Atom) (edge : Hyperedge) : Prop :=
  List.Forall₂ (PositionOf vertices) atom.terms edge.vertexPositions

/-- The vertices are the variables of the positive atoms, each once. -/
structure IsHypergraphOf (atoms : List Atom) (vertices : List Vertex)
    (edges : List Hyperedge) : Prop where
  distinct : (vertices.map Vertex.name).Nodup
  edges : List.Forall₂ (EdgeOf vertices) atoms edges
  occurs : ∀ v ∈ vertices, ∃ atom ∈ atoms, Term.var v.name ∈ atom.terms

theorem PositionOf.extend {vertices : List Vertex} {term : Term} {pos : Option VertexId}
    (h : PositionOf vertices term pos) (more : List Vertex)
    : PositionOf (vertices ++ more) term pos := by
  cases term with
  | var name =>
      obtain ⟨vid, hpos, hv⟩ := h
      refine ⟨vid, hpos, ?_⟩
      rw [List.getElem?_append_left (List.getElem?_eq_some_iff.mp hv).1, hv]
  | _ => exact h

theorem EdgeOf.extend {vertices : List Vertex} {atom : Atom} {edge : Hyperedge}
    (h : EdgeOf vertices atom edge) (more : List Vertex)
    : EdgeOf (vertices ++ more) atom edge :=
  h.imp fun _ _ hpos => hpos.extend more

theorem vertexOf_eq_some {vertices : List Vertex} {name : String} {vid : VertexId}
    (h : vertexOf vertices name = some vid)
    : vertices[vid]? = some ⟨name⟩ := by
  obtain ⟨hlt, hname, -⟩ := List.findIdx?_eq_some_iff_getElem.mp h
  have heq : vertices[vid] = ⟨name⟩ := by
    cases hv : vertices[vid] with
    | mk other =>
        rw [hv] at hname
        simpa using hname
  rw [List.getElem?_eq_getElem hlt, heq]

theorem vertexOf_eq_none {vertices : List Vertex} {name : String}
    : vertexOf vertices name = none ↔ name ∉ vertices.map Vertex.name := by
  simp [vertexOf, List.findIdx?_eq_none_iff]

/-- A vertex is found by its name. -/
theorem vertexOf_of_getElem? {vertices : List Vertex}
    (distinct : (vertices.map Vertex.name).Nodup) {name : String} {vid : VertexId}
    (h : vertices[vid]? = some ⟨name⟩)
    : vertexOf vertices name = some vid := by
  cases hv : vertexOf vertices name with
  | none =>
      have hm : name ∈ vertices.map Vertex.name :=
        List.mem_map.mpr ⟨⟨name⟩, List.mem_of_getElem? h, rfl⟩
      exact absurd hm (vertexOf_eq_none.mp hv)
  | some other =>
      have ho := vertexOf_eq_some hv
      obtain ⟨hlt, heq⟩ := List.getElem?_eq_some_iff.mp h
      obtain ⟨hlt', heq'⟩ := List.getElem?_eq_some_iff.mp ho
      have hlen : (vertices.map Vertex.name).length = vertices.length := List.length_map _
      have hnames : (vertices.map Vertex.name).get ⟨other, hlen ▸ hlt'⟩
          = (vertices.map Vertex.name).get ⟨vid, hlen ▸ hlt⟩ := by
        simp [heq, heq']
      rw [Fin.mk.inj (List.nodup_iff_injective_get.mp distinct hnames)]

/-- Building one edge adds the new variables of its atom, by induction on the terms. -/
theorem addPosition_foldl (atom : Atom) {vertices : List Vertex}
    (distinct : (vertices.map Vertex.name).Nodup)
    : ∃ more, (atom.terms.foldl addPosition ([], vertices)).2 = vertices ++ more
      ∧ ((vertices ++ more).map Vertex.name).Nodup
      ∧ (∀ v ∈ more, Term.var v.name ∈ atom.terms)
      ∧ List.Forall₂ (PositionOf (vertices ++ more)) atom.terms
          (atom.terms.foldl addPosition ([], vertices)).1 := by
  suffices hfrom : ∀ (done rest : List Term) (s : List (Option VertexId) × List Vertex)
      (more : List Vertex), s.2 = vertices ++ more → (s.2.map Vertex.name).Nodup
      → (∀ v ∈ more, Term.var v.name ∈ done) → List.Forall₂ (PositionOf s.2) done s.1
      → ∃ more, (rest.foldl addPosition s).2 = vertices ++ more
        ∧ ((vertices ++ more).map Vertex.name).Nodup
        ∧ (∀ v ∈ more, Term.var v.name ∈ done ++ rest)
        ∧ List.Forall₂ (PositionOf (vertices ++ more)) (done ++ rest)
            (rest.foldl addPosition s).1 by
    simpa using hfrom [] atom.terms ([], vertices) [] (by simp) distinct (by simp) .nil
  intro done rest
  induction rest generalizing done with
  | nil =>
      intro s more hs hnodup hnew hedge
      rw [hs] at hnodup hedge
      exact ⟨more, hs, hnodup, by simpa using hnew, by simpa using hedge⟩
  | cons term rest ih =>
      intro s more hs hnodup hnew hedge
      have hstep : ∃ more', (addPosition s term).2 = vertices ++ more'
          ∧ ((addPosition s term).2.map Vertex.name).Nodup
          ∧ (∀ v ∈ more', Term.var v.name ∈ done ++ [term])
          ∧ List.Forall₂ (PositionOf (addPosition s term).2) (done ++ [term])
              (addPosition s term).1 := by
        have hkeep : ∀ v ∈ more, Term.var v.name ∈ done ++ [term] :=
          fun v hv => List.mem_append_left _ (hnew v hv)
        cases term with
        | var name =>
            cases hv : vertexOf s.2 name with
            | some vid =>
                refine ⟨more, ?_⟩
                simp only [addPosition, hv]
                exact ⟨hs, hnodup, hkeep, List.rel_append hedge
                  (.cons ⟨vid, rfl, vertexOf_eq_some hv⟩ .nil)⟩
            | none =>
                refine ⟨more ++ [⟨name⟩], ?_⟩
                simp only [addPosition, hv]
                refine ⟨by rw [hs, List.append_assoc], ?_, ?_, ?_⟩
                · rw [List.map_append, List.nodup_append]
                  refine ⟨hnodup, by simp, ?_⟩
                  intro a ha b hb heq
                  obtain rfl : b = name := by simpa using hb
                  exact vertexOf_eq_none.mp hv (heq ▸ ha)
                · intro v hm
                  rcases List.mem_append.mp hm with hm | hm
                  · exact hkeep v hm
                  · obtain rfl := List.mem_singleton.mp hm
                    simp
                · refine List.rel_append (hedge.imp fun _ _ hpos => hpos.extend _) (.cons ?_ .nil)
                  exact ⟨s.2.length, rfl, by simp⟩
        | _ => exact ⟨more, hs, hnodup, hkeep, List.rel_append hedge (.cons rfl .nil)⟩
      obtain ⟨more', hs', hnodup', hnew', hedge'⟩ := hstep
      simpa using ih (done ++ [term]) (addPosition s term) more' hs' hnodup' hnew' hedge'

/-- One more edge. -/
theorem IsHypergraphOf.addEdge {atoms : List Atom} {vertices : List Vertex}
    {edges : List Hyperedge} (h : IsHypergraphOf atoms vertices edges) (atom : Atom)
    : IsHypergraphOf (atoms ++ [atom]) (buildHyperedge vertices atom).2
        (edges ++ [(buildHyperedge vertices atom).1]) := by
  obtain ⟨more, hmore, hnodup, hnew, hedge⟩ := addPosition_foldl atom h.distinct
  constructor
  · simp only [buildHyperedge, hmore]
    exact hnodup
  · simp only [buildHyperedge, hmore]
    exact List.rel_append (h.edges.imp fun _ _ he => he.extend more) (.cons hedge .nil)
  · simp only [buildHyperedge, hmore]
    intro v hv
    rcases List.mem_append.mp hv with hv | hv
    · obtain ⟨other, ho, hm⟩ := h.occurs v hv
      exact ⟨other, List.mem_append_left _ ho, hm⟩
    · exact ⟨atom, by simp, hnew v hv⟩

theorem isHypergraphOf_fromRule (rule : Rule)
    : IsHypergraphOf rule.positiveAtoms (HypergraphRule.fromRule rule).vertices
        (HypergraphRule.fromRule rule).hyperedges := by
  suffices hfrom : ∀ (rest : List BodyLiteral) (atoms : List Atom) (hg : HypergraphRule),
      IsHypergraphOf atoms hg.vertices hg.hyperedges
      → IsHypergraphOf (atoms ++ (Rule.mk rule.head rest).positiveAtoms)
          (rest.foldl HypergraphRule.addLiteral hg).vertices
          (rest.foldl HypergraphRule.addLiteral hg).hyperedges by
    exact hfrom rule.body [] _ ⟨by simp, .nil, by simp⟩
  intro rest
  induction rest with
  | nil =>
      intro atoms hg h
      simpa [Rule.positiveAtoms] using h
  | cons literal rest ih =>
      intro atoms hg h
      cases literal with
      | positive atom =>
          have hnext := ih (atoms ++ [atom]) (hg.addLiteral (.positive atom)) (h.addEdge atom)
          simpa [Rule.positiveAtoms] using hnext
      | _ => exact ih atoms (hg.addLiteral _) h

end Xlog.Logic
