import Xlog.Logic.ReferenceMeaning

/-! The evaluator of one rule finds exactly the rows that the rule derives.
-/

namespace Xlog.Logic

open Xlog.Foundation

-- Matching

/-- The binding gives every vertex the value of its variable. -/
def BindingOf (vertices : List Vertex) (σ : Assignment) (binding : VertexBinding) : Prop :=
  ∀ vid name, vertices[vid]? = some ⟨name⟩ → binding vid = some (σ name)

/-- A row matches when its values do, by induction on the positions. -/
theorem rowMatches_spec {vertices : List Vertex} {σ : Assignment} {binding : VertexBinding}
    (hbinding : BindingOf vertices σ binding) {terms : List Term} {schema : List ScalarType}
    {positions : List PositionSpec} {row : RefRow} (hlen : terms.length = schema.length)
    (hreads : List.Forall₂ (PositionReads vertices) (terms.zip schema) positions)
    (hrow : RowFits schema row)
    : ∃ holds, rowMatches binding positions row = some holds
      ∧ (holds = true ↔ List.Forall₂ (TermMatches σ) terms row) := by
  induction hrow generalizing terms positions with
  | nil =>
      obtain rfl : terms = [] := by simpa using hlen
      cases hreads
      exact ⟨true, rfl, by simp⟩
  | @cons value ty row schema hvalue _ ih =>
      cases terms with
      | nil => simp at hlen
      | cons term terms =>
          rw [List.zip_cons_cons] at hreads
          cases hreads with
          | @cons _ pos _ positions hpos hreads =>
              obtain ⟨holds, hrun, hiff⟩ := ih (by simpa using hlen) hreads
              cases term with
              | var name =>
                  obtain ⟨vid, rfl, hv⟩ := hpos
                  have hb := hbinding vid name hv
                  by_cases heq : σ name = value
                  · refine ⟨holds, ?_, ?_⟩
                    · simp [rowMatches, hb, heq, hrun]
                    · simp [TermMatches, heq, hiff]
                  · refine ⟨false, ?_, ?_⟩
                    · simp [rowMatches, hb, heq]
                    · simp [TermMatches, Ne.symm heq]
              | anonymous =>
                  obtain rfl : pos = .wildcard := hpos
                  exact ⟨holds, hrun, by simp [TermMatches, hiff]⟩
              | integer n =>
                  obtain ⟨c, rfl, hty, hn⟩ := hpos
                  by_cases heq : c = value
                  · refine ⟨holds, ?_, ?_⟩
                    · simp [rowMatches, heq, hrun]
                    · simp [TermMatches, ← heq, hn, hiff]
                  · refine ⟨false, ?_, ?_⟩
                    · simp [rowMatches, heq]
                    · have hne : value.number ≠ some n := fun hnum =>
                        heq (RefValue.eq_of_number (hty.trans hvalue.symm) hn hnum)
                      simp [TermMatches, hne]
              | string s =>
                  obtain rfl : pos = .constant (.symbol s) := hpos
                  by_cases heq : .symbol s = value
                  · refine ⟨holds, ?_, ?_⟩
                    · simp [rowMatches, heq, hrun]
                    · simp [TermMatches, ← heq, hiff]
                  · refine ⟨false, ?_, ?_⟩
                    · simp [rowMatches, heq]
                    · simp [TermMatches, Ne.symm heq]
              | _ => exact hpos.elim

/-- Some row matches, by induction on the rows. -/
theorem hasMatchingRow_iff {vertices : List Vertex} {σ : Assignment} {binding : VertexBinding}
    (hbinding : BindingOf vertices σ binding) {terms : List Term} {schema : List ScalarType}
    {positions : List PositionSpec} (hlen : terms.length = schema.length)
    (hreads : List.Forall₂ (PositionReads vertices) (terms.zip schema) positions)
    {rows : List RefRow} (hrows : ∀ row ∈ rows, RowFits schema row)
    : hasMatchingRow binding positions rows = true
      ↔ ∃ row ∈ rows, List.Forall₂ (TermMatches σ) terms row := by
  induction rows with
  | nil => simp [hasMatchingRow]
  | cons row rows ih =>
      obtain ⟨holds, hrun, hiff⟩ := rowMatches_spec hbinding hlen hreads (hrows row (by simp))
      have hrest := ih fun r hr => hrows r (List.mem_cons_of_mem _ hr)
      cases holds with
      | false =>
          have hno : ¬ List.Forall₂ (TermMatches σ) terms row := fun h => by simpa using hiff.mpr h
          simp [hasMatchingRow, hrun, hrest, hno]
      | true => simp [hasMatchingRow, hrun, hiff.mp rfl]

-- Operands

theorem resolveVertex_of_bound {vertices : List Vertex}
    (distinct : (vertices.map Vertex.name).Nodup) {σ : Assignment} {binding : VertexBinding}
    (hbinding : BindingOf vertices σ binding) {name : String}
    (hbound : name ∈ vertices.map Vertex.name)
    : resolveVertex vertices binding name = .ok (σ name) := by
  obtain ⟨⟨_⟩, hv, rfl⟩ := List.mem_map.mp hbound
  obtain ⟨vid, hget⟩ := List.getElem?_of_mem hv
  rw [resolveVertex, vertexOf_of_getElem? distinct hget, Option.bind_some, hbinding vid _ hget]

/-- The operand of a comparison has the value of its term, and of its type. -/
theorem resolveTermForComparison_spec {vertices : List Vertex}
    (distinct : (vertices.map Vertex.name).Nodup) {σ : Assignment} {binding : VertexBinding}
    (hbinding : BindingOf vertices σ binding) {types : String → ScalarType} {term : Term}
    {ty : ScalarType} (hfits : ValueFits types term ty)
    (hbound : ∀ name, term = .var name → name ∈ vertices.map Vertex.name
      ∧ (σ name).scalarType = types name)
    : Ends (fun _ => False) (fun value => value.scalarType = ty
        ∧ ∀ other, TermValue σ term other ↔ other = value)
        (resolveTermForComparison vertices binding term) := by
  cases term with
  | var name =>
      obtain ⟨hmem, htype⟩ := hbound name rfl
      simp only [resolveTermForComparison, resolveVertex_of_bound distinct hbinding hmem]
      exact ⟨htype.trans hfits, fun other => Iff.rfl⟩
  | integer n => exact ⟨hfits.symm, fun other => Iff.rfl⟩
  | string s => exact ⟨hfits.symm, fun other => Iff.rfl⟩
  | _ => exact hfits.elim

/-- A head argument has the value of its term. -/
theorem projectTerm_spec {vertices : List Vertex}
    (distinct : (vertices.map Vertex.name).Nodup) {σ : Assignment} {binding : VertexBinding}
    (hbinding : BindingOf vertices σ binding) {types : String → ScalarType} {term : Term}
    {ty : ScalarType} (hfits : ValueFits types term ty)
    (hbound : ∀ name, term = .var name → name ∈ vertices.map Vertex.name)
    : Ends (fun _ => False) (fun value => ∀ other, TermValue σ term other ↔ other = value)
        (projectTerm vertices binding term) := by
  cases term with
  | var name =>
      simp only [projectTerm, resolveVertex_of_bound distinct hbinding (hbound name rfl)]
      exact fun other => Iff.rfl
  | integer n => exact fun other => Iff.rfl
  | string s => exact fun other => Iff.rfl
  | _ => exact hfits.elim

theorem applyComparisonOp_spec {left right : RefValue}
    (h : Comparable left.scalarType right.scalarType) (op : CompOp)
    : Ends (fun _ => False) (fun holds => holds = true ↔ Compares op left right)
        (applyComparisonOp left right op) := by
  rcases h with ⟨hl, hr⟩ | ⟨hl, hr⟩ | ⟨hl, hr⟩
  · cases left <;> simp only [RefValue.scalarType, ScalarType.isInteger, reduceCtorEq] at hl <;>
      cases right <;> simp only [RefValue.scalarType, ScalarType.isInteger, reduceCtorEq] at hr <;>
      simp [applyComparisonOp, RefValue.number, Ends, Compares]
  · cases left <;> simp only [RefValue.scalarType, reduceCtorEq] at hl
    cases right <;> simp only [RefValue.scalarType, reduceCtorEq] at hr
    simp [applyComparisonOp, RefValue.number, Ends, Compares]
  · cases left <;> simp only [RefValue.scalarType, reduceCtorEq] at hl
    cases right <;> simp only [RefValue.scalarType, reduceCtorEq] at hr
    simp [applyComparisonOp, RefValue.number, Ends, Compares]

/-- Terms with one value each have one list of values, by induction on the terms. -/
theorem forall₂_iff_eq {σ : Assignment} {terms : List Term} {values others : RefRow}
    (h : List.Forall₂ (fun term value => ∀ other, TermValue σ term other ↔ other = value)
      terms values)
    : List.Forall₂ (TermValue σ) terms others ↔ others = values := by
  induction h generalizing others with
  | nil => simp
  | cons hone _ ih =>
      cases others with
      | nil => simp
      | cons other others => rw [List.forall₂_cons, hone, ih, List.cons.injEq]

/-- The comparisons are those that hold, by induction on their list. -/
theorem comparisonsHold_spec {vertices : List Vertex}
    (distinct : (vertices.map Vertex.name).Nodup) {σ : Assignment} {binding : VertexBinding}
    (hbinding : BindingOf vertices σ binding) {types : String → ScalarType}
    {comparisons : List Comparison}
    (hfits : ∀ cmp ∈ comparisons, ∃ left right,
      ValueFits types cmp.left left ∧ ValueFits types cmp.right right ∧ Comparable left right)
    (hbound : ∀ cmp ∈ comparisons, ∀ name, cmp.left = .var name ∨ cmp.right = .var name
      → name ∈ vertices.map Vertex.name ∧ (σ name).scalarType = types name)
    : Ends (fun _ => False) (fun holds => holds = true ↔ ∀ cmp ∈ comparisons, cmp.Holds σ)
        (comparisonsHold vertices binding comparisons) := by
  induction comparisons with
  | nil => simp [comparisonsHold, Ends]
  | cons cmp rest ih =>
      obtain ⟨tl, tr, hl, hr, hcomp⟩ := hfits cmp (by simp)
      have hcmp : Ends (fun _ => False) (fun holds => holds = true ↔ cmp.Holds σ)
          (evaluateComparison vertices binding cmp) := by
        refine (resolveTermForComparison_spec distinct hbinding hl
          fun name h => hbound cmp (by simp) name (.inl h)).bind fun left hleft => ?_
        refine (resolveTermForComparison_spec distinct hbinding hr
          fun name h => hbound cmp (by simp) name (.inr h)).bind fun right hright => ?_
        obtain ⟨rfl, hleft⟩ := hleft
        obtain ⟨rfl, hright⟩ := hright
        refine (applyComparisonOp_spec hcomp cmp.op).mono fun holds hholds => ?_
        simp [Comparison.Holds, hleft, hright, hholds]
      refine hcmp.bind fun holds hholds => ?_
      cases holds with
      | false =>
          have hno : ¬ cmp.Holds σ := fun h => by simpa using hholds.mpr h
          simp [Ends, hno]
      | true =>
          refine (ih (fun c hc => hfits c (List.mem_cons_of_mem _ hc))
            fun c hc => hbound c (List.mem_cons_of_mem _ hc)).mono fun rest hrest => ?_
          simp [hrest, hholds.mp rfl]

-- Atoms

/-- The relation of an atom can be read: its rows are typed, the constants of the atom have values
at the types of its columns, and these are the expected ones unless it has no rows.
-/
def AtomReady (schemas : String → List ScalarType) (store : RefRelationStore) (atom : Atom)
    : Prop :=
  ∃ relation, store atom.predicate = some relation
    ∧ (∀ row ∈ relation.rows, RowFits relation.schema row)
    ∧ List.Forall₂ ConstantFits atom.terms relation.schema
    ∧ (relation.schema = schemas atom.predicate ∨ relation.rows = [])

structure SpecOf (schemas : String → List ScalarType) (store : RefRelationStore)
    (vertices : List Vertex) (atom : Atom) (spec : AtomSpec) : Prop where
  stored : store atom.predicate = some spec.relation
  rows : ∀ row ∈ spec.relation.rows, RowFits spec.relation.schema row
  length : atom.terms.length = spec.relation.schema.length
  reads : List.Forall₂ (PositionReads vertices) (atom.terms.zip spec.relation.schema)
    spec.positions
  schema : spec.relation.schema = schemas atom.predicate ∨ spec.relation.rows = []

theorem atomSpecOf_spec {schemas : String → List ScalarType} {store : RefRelationStore}
    {vertices : List Vertex} {item : Atom × Hyperedge} (hedge : EdgeOf vertices item.1 item.2)
    (hready : AtomReady schemas store item.1)
    : Ends (fun _ => False) (SpecOf schemas store vertices item.1) (atomSpecOf store item) := by
  obtain ⟨relation, hstored, hrows, hfits, hschema⟩ := hready
  simp only [atomSpecOf, hstored, validateRelationRows_ok hrows, ok_bind, AtomSpec.build]
  rw [if_neg (not_not_intro hfits.length_eq)]
  have hbuild := @positionSpec_buildAll_spec vertices item.1.predicate [] _ _ hedge _ hfits
  refine hbuild.bind fun positions hpositions => ?_
  exact ⟨hstored, hrows, hfits.length_eq, hpositions, hschema⟩

/-- The rows that an assignment needs of an atom. -/
theorem SpecOf.mem_iff {schemas : String → List ScalarType} {store : RefRelationStore}
    {vertices : List Vertex} {atom : Atom} {spec : AtomSpec}
    (h : SpecOf schemas store vertices atom spec) {row : RefRow}
    : row ∈ store.interp atom.predicate ↔ row ∈ spec.relation.rows := by
  simp [RefRelationStore.interp, h.stored]

theorem SpecOf.matches_iff {schemas : String → List ScalarType} {store : RefRelationStore}
    {vertices : List Vertex} {atom : Atom} {spec : AtomSpec}
    (h : SpecOf schemas store vertices atom spec) {σ : Assignment} {binding : VertexBinding}
    (hbinding : BindingOf vertices σ binding)
    : atomHasMatchingRow binding spec = true
      ↔ ∃ row ∈ store.interp atom.predicate, atom.Matches σ row := by
  rw [atomHasMatchingRow, hasMatchingRow_iff hbinding h.length h.reads h.rows]
  simp only [h.mem_iff, Atom.Matches]

theorem specs_all_iff {schemas : String → List ScalarType} {store : RefRelationStore}
    {vertices : List Vertex} {atoms : List Atom} {specs : List AtomSpec}
    (h : List.Forall₂ (SpecOf schemas store vertices) atoms specs) {σ : Assignment}
    {binding : VertexBinding} (hbinding : BindingOf vertices σ binding)
    : specs.all (atomHasMatchingRow binding) = true
      ↔ ∀ atom ∈ atoms, ∃ row ∈ store.interp atom.predicate, atom.Matches σ row := by
  induction h with
  | nil => simp
  | cons hspec _ ih => rw [List.all_cons, Bool.and_eq_true, hspec.matches_iff hbinding, ih,
      List.forall_mem_cons]

/-- Variables that an atom binds have the types of its columns. -/
theorem SpecOf.scalarType {schemas : String → List ScalarType} {store : RefRelationStore}
    {vertices : List Vertex} {atom : Atom} {spec : AtomSpec}
    (h : SpecOf schemas store vertices atom spec) {types : String → ScalarType}
    (hfits : List.Forall₂ (TermFits types) atom.terms (schemas atom.predicate))
    {σ : Assignment} {row : RefRow} (hrow : row ∈ store.interp atom.predicate)
    (hmatches : atom.Matches σ row) {name : String} (hname : Term.var name ∈ atom.terms)
    : (σ name).scalarType = types name := by
  have hm := h.mem_iff.mp hrow
  have hschema := h.schema.resolve_right (List.ne_nil_of_mem hm)
  have hty := hschema ▸ h.rows row hm
  obtain ⟨i, hi, heq⟩ := List.getElem_of_mem hname
  have hir : i < row.length := hmatches.length_eq ▸ hi
  have his : i < (schemas atom.predicate).length := hfits.length_eq ▸ hi
  have hvalue := hmatches.get hi hir
  have htype := (hfits.get hi his).1 name (by simpa using heq)
  have hcell := hty.get hir his
  simp only [List.get_eq_getElem, heq, TermMatches] at hvalue htype hcell
  rw [← hvalue, hcell, htype]

/-- The value of a variable is in the domain of its vertex. -/
theorem SpecOf.mem_domainOf {schemas : String → List ScalarType} {store : RefRelationStore}
    {vertices : List Vertex} (distinct : (vertices.map Vertex.name).Nodup) {atom : Atom}
    {spec : AtomSpec} (h : SpecOf schemas store vertices atom spec) {specs : List AtomSpec}
    (hspec : spec ∈ specs) {σ : Assignment} {row : RefRow}
    (hrow : row ∈ store.interp atom.predicate) (hmatches : atom.Matches σ row) {name : String}
    (hname : Term.var name ∈ atom.terms) {vid : VertexId} (hvid : vertices[vid]? = some ⟨name⟩)
    : σ name ∈ domainOf specs vid := by
  obtain ⟨i, hi, heq⟩ := List.getElem_of_mem hname
  have hir : i < row.length := hmatches.length_eq ▸ hi
  have hiz : i < (atom.terms.zip spec.relation.schema).length := by
    simp [List.length_zip, ← h.length, hi]
  have hip : i < spec.positions.length := h.reads.length_eq ▸ hiz
  have hvalue := hmatches.get hi hir
  have hpos := h.reads.get hiz hip
  simp only [List.get_eq_getElem, heq, TermMatches, List.getElem_zip, PositionReads]
    at hvalue hpos
  obtain ⟨vid', hpos, hv'⟩ := hpos
  have hsame : vid' = vid :=
    Option.some.inj ((vertexOf_of_getElem? distinct hv').symm.trans
      (vertexOf_of_getElem? distinct hvid))
  have hcell : (PositionSpec.vertex vid, σ name) ∈ spec.positions.zip row := by
    have hlt : i < (spec.positions.zip row).length := by simp [List.length_zip, hip, hir]
    have hz : (spec.positions.zip row)[i] = (PositionSpec.vertex vid, σ name) := by
      rw [List.getElem_zip, hpos, hvalue, hsame]
    exact hz ▸ List.getElem_mem hlt
  simp only [domainOf, List.mem_dedup, List.mem_insertionSort, List.mem_flatMap,
    List.mem_filterMap]
  exact ⟨spec, hspec, row, h.mem_iff.mp hrow, _, hcell, if_pos rfl⟩

-- Enumeration

/-- The binding is of an assignment that derives the row. -/
def Yields (rule : Rule) (store : RefRelationStore) (vertices : List Vertex)
    (binding : VertexBinding) (row : RefRow) : Prop :=
  ∃ σ, BindingOf vertices σ binding ∧ rule.BodyHolds store.interp σ
    ∧ List.Forall₂ (TermValue σ) rule.head.terms row

section Rule

variable {schemas : String → List ScalarType} {types : String → ScalarType} {rule : Rule}
variable {store : RefRelationStore} {vertices : List Vertex} {specs : List AtomSpec}

/-- A full assignment adds the row that it derives. -/
theorem finish_spec (hrule : rule.Readable schemas types)
    (distinct : (vertices.map Vertex.name).Nodup)
    (hvars : ∀ name, rule.Binds name → name ∈ vertices.map Vertex.name)
    (hspecs : List.Forall₂ (SpecOf schemas store vertices) rule.positiveAtoms specs)
    {σ : Assignment} {binding : VertexBinding} (hbinding : BindingOf vertices σ binding)
    (results : List RefRow)
    : Ends (fun _ => False) (fun results' => ∀ row, row ∈ results' ↔ row ∈ results
        ∨ rule.BodyHolds store.interp σ ∧ List.Forall₂ (TermValue σ) rule.head.terms row)
        (finish vertices specs rule.comparisons rule.head binding results) := by
  have hall := specs_all_iff hspecs hbinding
  unfold finish
  split
  · rename_i hmatch
    have hatoms := hall.mp hmatch
    have htypes (name : String) (hb : rule.Binds name) : (σ name).scalarType = types name := by
      obtain ⟨atom, ha, hname⟩ := hb
      obtain ⟨row, hrow, hm⟩ := hatoms atom ha
      obtain ⟨i, hi, rfl⟩ := List.getElem_of_mem ha
      have hspec := hspecs.get hi (hspecs.length_eq ▸ hi)
      exact hspec.scalarType (hrule.atoms _ ha) hrow hm hname
    refine (comparisonsHold_spec distinct hbinding hrule.comparisons ?_).bind ?_
    · intro cmp hc name hname
      have hb := hrule.bound name (.inr ⟨cmp, hc, hname⟩)
      exact ⟨hvars name hb, htypes name hb⟩
    · intro holds hholds
      cases holds with
      | false =>
          have hno : ¬ rule.BodyHolds store.interp σ := fun h => by simpa using hholds.mpr h.2
          simp [Ends, hno]
      | true =>
          have hbody : rule.BodyHolds store.interp σ := ⟨hatoms, hholds.mp rfl⟩
          have hhead : Ends (fun _ => False)
              (fun row => ∀ other, List.Forall₂ (TermValue σ) rule.head.terms other ↔ other = row)
              (rule.head.terms.mapM (projectTerm vertices binding)) := by
            have hmap : Ends (fun _ => False) (List.Forall₂
                (fun term value => ∀ other, TermValue σ term other ↔ other = value)
                rule.head.terms) (rule.head.terms.mapM (projectTerm vertices binding)) := by
              refine Ends.mapM fun term ht => ?_
              obtain ⟨ty, hfit⟩ := hrule.head term ht
              refine projectTerm_spec distinct hbinding hfit fun name hname => ?_
              exact hvars name (hrule.bound name (.inl (hname ▸ ht)))
            exact hmap.mono fun row hrow other => forall₂_iff_eq hrow
          refine hhead.bind fun row hrow => ?_
          simp [Ends, hbody, hrow]
  · rename_i hmatch
    have hno : ¬ rule.BodyHolds store.interp σ := fun h => hmatch (hall.mpr h.1)
    simp [Ends, hno]

/-- The assignment that a full binding stands for. -/
def assignmentOf (vertices : List Vertex) (values : VertexId → RefValue) : Assignment :=
  fun name => ((vertexOf vertices name).map values).getD (.bool false)

/-- The binding after the values of some vertices are chosen. -/
def override (binding : VertexBinding) (vids : List VertexId) (values : VertexId → RefValue)
    : VertexBinding :=
  fun vid => if vid ∈ vids then some (values vid) else binding vid

theorem override_cons {binding : VertexBinding} {vid : VertexId} {rest : List VertexId}
    (hnew : vid ∉ rest) (values : VertexId → RefValue) (value : RefValue)
    : override (Function.update binding vid (some value)) rest values
      = override binding (vid :: rest) (Function.update values vid value) := by
  funext other
  by_cases heq : other = vid
  · subst heq
    simp [override, hnew]
  · by_cases hm : other ∈ rest
    · simp [override, hm, heq]
    · simp [override, hm, heq]

theorem bindingOf_override {vids : List VertexId}
    (distinct : (vertices.map Vertex.name).Nodup)
    (hvids : ∀ vid, vid < vertices.length → vid ∈ vids) (values : VertexId → RefValue)
    : BindingOf vertices (assignmentOf vertices values) (override (fun _ => none) vids values) := by
  intro vid name hv
  have hlt := (List.getElem?_eq_some_iff.mp hv).1
  simp [override, hvids vid hlt, assignmentOf, vertexOf_of_getElem? distinct hv]

/-- Enumeration adds the rows of all choices of values from the domains, by induction on the
vertices.
-/
theorem enumerate_spec {comparisons : List Comparison} {head : Atom}
    {yields : VertexBinding → RefRow → Prop} {vids : List VertexId} (hdistinct : vids.Nodup)
    {binding : VertexBinding} {results : List RefRow}
    (hleaf : ∀ values : VertexId → RefValue, ∀ results, Ends (fun _ => False)
      (fun results' => ∀ row, row ∈ results'
        ↔ row ∈ results ∨ yields (override binding vids values) row)
      (finish vertices specs comparisons head (override binding vids values) results))
    : Ends (fun _ => False) (fun results' => ∀ row, row ∈ results' ↔ row ∈ results
        ∨ ∃ values : VertexId → RefValue, (∀ vid ∈ vids, values vid ∈ domainOf specs vid)
          ∧ yields (override binding vids values) row)
        (enumerate vertices specs comparisons head vids binding results) := by
  induction vids generalizing binding results with
  | nil =>
      have hnone (values : VertexId → RefValue) : override binding [] values = binding := by
        funext vid
        simp [override]
      have hdone := hleaf (fun _ => .bool false) results
      rw [hnone] at hdone
      refine hdone.mono fun results' h row => ?_
      have hany : Nonempty RefValue := ⟨.bool false⟩
      simp [h row, hnone]
  | cons vid rest ih =>
      obtain ⟨hnew, hrest⟩ := List.nodup_cons.mp hdistinct
      unfold enumerate
      have hloop : Ends (fun _ => False)
          (fun results' => ∀ row, row ∈ results' ↔ row ∈ results ∨ ∃ value ∈ domainOf specs vid,
            ∃ values : VertexId → RefValue, (∀ vid ∈ rest, values vid ∈ domainOf specs vid)
              ∧ yields (override (Function.update binding vid (some value)) rest values) row)
          ((domainOf specs vid).foldlM (fun results value => enumerate vertices specs comparisons
            head rest (Function.update binding vid (some value)) results) results) := by
        refine Ends.foldlM (fun done results' => ∀ row, row ∈ results' ↔ row ∈ results
          ∨ ∃ value ∈ done, ∃ values : VertexId → RefValue,
            (∀ vid ∈ rest, values vid ∈ domainOf specs vid)
              ∧ yields (override (Function.update binding vid (some value)) rest values) row)
          (by simp) ?_
        intro before value after state _ hstate
        have hone := @ih hrest (Function.update binding vid (some value)) state
          fun values results => by
            rw [override_cons hnew]
            exact hleaf _ results
        refine hone.mono fun results' h row => ?_
        rw [h row, hstate row]
        simp only [List.mem_append, List.mem_singleton, or_and_right, exists_or, exists_eq_left,
          or_assoc]
      refine hloop.mono fun results' h row => ?_
      rw [h row]
      refine or_congr Iff.rfl ⟨?_, ?_⟩
      · rintro ⟨value, hvalue, values, hvalues, hyields⟩
        rw [override_cons hnew] at hyields
        refine ⟨Function.update values vid value, ?_, hyields⟩
        intro other ho
        rcases List.mem_cons.mp ho with rfl | ho
        · simpa using hvalue
        · have hne : other ≠ vid := fun heq => hnew (heq ▸ ho)
          simpa [hne] using hvalues other ho
      · rintro ⟨values, hvalues, hyields⟩
        refine ⟨values vid, hvalues vid (by simp), values,
          fun other ho => hvalues other (List.mem_cons_of_mem _ ho), ?_⟩
        rwa [override_cons hnew, Function.update_eq_self]

/-- The evaluator succeeds on a readable rule whose relations can be read, and returns exactly the
rows that the rule derives.
-/
theorem evaluateRule_spec (hrule : rule.Readable schemas types)
    (heligible : analyze (HypergraphRule.fromRule rule) .hashFallback = .eligible)
    (hready : ∀ atom ∈ rule.positiveAtoms, AtomReady schemas store atom) (order : VariableOrder)
    : Ends (fun _ => False) (fun rows => ∀ row, row ∈ rows ↔ rule.Derives store.interp row)
        (evaluateRule rule store order) := by
  have hhg := isHypergraphOf_fromRule rule
  have hcomputed : ¬ rule.body.any BodyLiteral.isComputed = true := by
    simpa [List.any_eq_true] using hrule.body
  simp only [evaluateRule, heligible, if_neg hcomputed]
  have hspecs : Ends (fun _ => False)
      (List.Forall₂ (SpecOf schemas store (HypergraphRule.fromRule rule).vertices)
        rule.positiveAtoms)
      ((rule.positiveAtoms.zip (HypergraphRule.fromRule rule).hyperedges).mapM
        (atomSpecOf store)) := by
    have hzip : Ends (fun _ => False) (List.Forall₂
        (fun item => SpecOf schemas store (HypergraphRule.fromRule rule).vertices item.1)
        (rule.positiveAtoms.zip (HypergraphRule.fromRule rule).hyperedges))
        ((rule.positiveAtoms.zip (HypergraphRule.fromRule rule).hyperedges).mapM
          (atomSpecOf store)) := by
      refine Ends.mapM fun item hi => atomSpecOf_spec ?_ (hready item.1 (List.of_mem_zip hi).1)
      obtain ⟨i, hlt, rfl⟩ := List.getElem_of_mem hi
      simp only [List.length_zip, lt_inf_iff] at hlt
      rw [List.getElem_zip]
      exact hhg.edges.get hlt.1 hlt.2
    refine hzip.mono fun specs h => ?_
    rw [← List.forall₂_map_left_iff, List.map_fst_zip hhg.edges.length_eq.le] at h
    exact h
  refine hspecs.bind fun specs hspecs => ?_
  have hvars (name : String) (hb : rule.Binds name)
      : name ∈ (HypergraphRule.fromRule rule).vertices.map Vertex.name := by
    obtain ⟨atom, ha, hname⟩ := hb
    obtain ⟨i, hi, rfl⟩ := List.getElem_of_mem ha
    have hedge := hhg.edges.get hi (hhg.edges.length_eq ▸ hi)
    obtain ⟨j, hj, heq⟩ := List.getElem_of_mem hname
    have hpos := hedge.get hj (hedge.length_eq ▸ hj)
    simp only [List.get_eq_getElem, heq, PositionOf] at hpos
    obtain ⟨vid, -, hv⟩ := hpos
    exact List.mem_map.mpr ⟨_, List.mem_of_getElem? hv, rfl⟩
  generalize HypergraphRule.fromRule rule = hg at hhg hspecs hvars
  have hvids (vid : VertexId) : vid ∈ order.order hg ↔ vid < hg.vertices.length := by
    rw [(order.complete hg).mem_iff, List.mem_range, HypergraphRule.vertexCount]
  have hdistinct : (order.order hg).Nodup :=
    (order.complete hg).nodup_iff.mpr List.nodup_range
  have hleaf (values : VertexId → RefValue) (results : List RefRow)
      : Ends (fun _ => False) (fun results' => ∀ row, row ∈ results' ↔ row ∈ results
          ∨ Yields rule store hg.vertices (override (fun _ => none) (order.order hg) values) row)
        (finish hg.vertices specs rule.comparisons rule.head
          (override (fun _ => none) (order.order hg) values) results) := by
    -- the binding knows the assignment on the vertices only
    have hbinding := bindingOf_override hhg.distinct (fun vid hlt => (hvids vid).mpr hlt) values
    have hone := finish_spec hrule hhg.distinct hvars hspecs hbinding results
    cases hrun : finish hg.vertices specs rule.comparisons rule.head
        (override (fun _ => none) (order.order hg) values) results with
    | error e =>
        rw [hrun] at hone
        exact hone
    | ok results' =>
        rw [hrun] at hone
        intro row
        constructor
        · intro hm
          exact ((hone row).mp hm).imp_right fun h => ⟨_, hbinding, h⟩
        · rintro (hm | ⟨σ, hσ, h⟩)
          · exact (hone row).mpr (.inl hm)
          · have hother := finish_spec hrule hhg.distinct hvars hspecs hσ results
            rw [hrun] at hother
            exact (hother row).mpr (.inr h)
  refine (enumerate_spec hdistinct hleaf).bind fun results hresults row => ?_
  rw [mem_sortDedup, hresults row]
  simp only [List.not_mem_nil, false_or]
  constructor
  · rintro ⟨_, -, σ, -, hbody, hhead⟩
    exact ⟨σ, hbody, hhead⟩
  · rintro ⟨σ, hbody, hhead⟩
    refine ⟨fun vid => ((hg.vertices[vid]?).map fun v => σ v.name).getD (.bool false), ?_,
      σ, ?_, hbody, hhead⟩
    · intro vid hvid
      have hlt := (hvids vid).mp hvid
      obtain ⟨atom, ha, hname⟩ := hhg.occurs _ (List.getElem_mem hlt)
      obtain ⟨row, hrow, hm⟩ := hbody.1 atom ha
      obtain ⟨i, hi, rfl⟩ := List.getElem_of_mem ha
      have his := hspecs.length_eq ▸ hi
      have hmem := (hspecs.get hi his).mem_domainOf hhg.distinct (List.getElem_mem his) hrow hm
        hname (List.getElem?_eq_getElem hlt)
      simpa [List.getElem?_eq_getElem hlt] using hmem
    · intro vid name hv
      have hlt := (List.getElem?_eq_some_iff.mp hv).1
      simp [override, (hvids vid).mpr hlt, hv]

end Rule

end Xlog.Logic
