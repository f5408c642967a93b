import Xlog.Ir.Semantics

/-! Plans whose column indices are in range, and the width of the rows they produce.
-/

namespace Xlog.Ir

open Xlog.Logic (ScalarType AggOp)

mutual
/-- The columns an expression reads, with repetitions. -/
def Expr.collectColumns : Expr → List Nat
  | .column index => [index]
  | .const _ => []
  | .compare left _ right => left.collectColumns ++ right.collectColumns
  | .and exprs => Expr.collectColumnsList exprs
  | .or exprs => Expr.collectColumnsList exprs
  | .not expr => expr.collectColumns
  | .binary _ left right => left.collectColumns ++ right.collectColumns
  | .abs expr => expr.collectColumns
  | .cast expr _ => expr.collectColumns
  | .conditional condition thenExpr elseExpr =>
      condition.collectColumns ++ thenExpr.collectColumns ++ elseExpr.collectColumns

def Expr.collectColumnsList : List Expr → List Nat
  | [] => []
  | expr :: exprs => expr.collectColumns ++ Expr.collectColumnsList exprs
end

def ProjectExpr.collectColumns : ProjectExpr → List Nat
  | .column index => [index]
  | .computed expr _ => expr.collectColumns

/-- Every column read is one of the first `width`. -/
def Expr.InRange (width : Nat) (expr : Expr) : Prop :=
  ∀ column ∈ expr.collectColumns, column < width

def ProjectExpr.InRange (width : Nat) (expr : ProjectExpr) : Prop :=
  ∀ column ∈ expr.collectColumns, column < width

section

variable (arity : RelId → Nat)

mutual
/-- Every column index of the plan is in range for its input. -/
def RirNode.WellFormed : RirNode → Prop
  | .unit => True
  | .scan _ => True
  | .filter input predicate => input.WellFormed ∧ predicate.InRange (input.width arity)
  | .project input columns =>
      input.WellFormed ∧ ∀ column ∈ columns, column.InRange (input.width arity)
  | .join left right leftKeys rightKeys _ =>
      left.WellFormed ∧ right.WellFormed
      ∧ leftKeys.length = rightKeys.length
      ∧ (∀ key ∈ leftKeys, key < left.width arity)
      ∧ ∀ key ∈ rightKeys, key < right.width arity
  | .chainJoin _ _ _ _ outputColumns fallback =>
      fallback.WellFormed ∧ fallback.width arity = outputColumns.length
  | .groupBy input keyCols aggs =>
      input.WellFormed
      ∧ (∀ key ∈ keyCols, key < input.width arity)
      ∧ ∀ agg ∈ aggs, agg.1 < input.width arity
  | .union inputs =>
      RirNode.WellFormedList ((RirNode.union inputs).width arity) inputs
  | .distinct input keyCols =>
      input.WellFormed ∧ ∀ key ∈ keyCols, key < input.width arity
  | .diff left right =>
      left.WellFormed ∧ right.WellFormed ∧ right.width arity = left.width arity
  | .fixpoint _ base recursive deltaRel fullRel =>
      base.WellFormed ∧ recursive.WellFormed
      ∧ recursive.width arity = base.width arity
      ∧ arity deltaRel = base.width arity
      ∧ arity fullRel = base.width arity
  | .multiWayJoin _ _ outputColumns fallback _ _ =>
      fallback.WellFormed ∧ fallback.width arity = outputColumns.length
  | .tensorMaskedJoin spec => arity spec.headRelId = spec.headProjection.length

def RirNode.WellFormedList (width : Nat) : List RirNode → Prop
  | [] => True
  | input :: inputs =>
      input.WellFormed ∧ input.width arity = width ∧ RirNode.WellFormedList width inputs
end

end

section

variable {V : Type} (arity : RelId → Nat)

/-- All rows of a relation have the same number of columns. -/
def Relation.HasWidth (width : Nat) (rows : Relation V) : Prop :=
  ∀ row ∈ rows, row.length = width

/-- A database over the declared schemas. -/
def Fits (db : Database V) : Prop := ∀ rel, Relation.HasWidth (arity rel) (db rel)

end

section

variable {V : Type} [DecidableEq V] (scalars : Scalars V) (kernels : Kernels V)
  {arity : RelId → Nat}

omit [DecidableEq V] in
theorem hasWidth_of_subset {rows kept : Relation V} {width : Nat}
    (h : Relation.HasWidth width rows) (sub : kept ⊆ rows)
    : Relation.HasWidth width kept :=
  fun row hr => h row (sub hr)

theorem matching_subset {leftKeys rightKeys : List Nat} {rows : Relation V} {left : Row V}
    : matching leftKeys rightKeys rows left ⊆ rows :=
  List.filter_subset_self _

/-- The rows of an inner or outer join extend a left row to the full width. -/
theorem hasWidth_joinRows (joinType : JoinType) (leftKeys rightKeys : List Nat)
    {left right : Relation V} {leftWidth rightWidth : Nat}
    (hl : Relation.HasWidth leftWidth left) (hr : Relation.HasWidth rightWidth right)
    : Relation.HasWidth
        (match joinType with
          | .inner | .leftOuter => leftWidth + rightWidth
          | .semi | .anti => leftWidth)
        (joinRows scalars joinType leftKeys rightKeys rightWidth left right) := by
  have hpair : ∀ l ∈ left, ∀ row ∈ (matching leftKeys rightKeys right l).map (l ++ ·),
      row.length = leftWidth + rightWidth := by
    intro l hm row hrow
    obtain ⟨r, hmr, rfl⟩ := List.mem_map.mp hrow
    rw [List.length_append, hl l hm, hr r (matching_subset hmr)]
  cases joinType with
  | inner =>
      intro row hrow
      obtain ⟨l, hm, hrow⟩ := List.mem_flatMap.mp hrow
      exact hpair l hm row hrow
  | leftOuter =>
      intro row hrow
      obtain ⟨l, hm, hrow⟩ := List.mem_flatMap.mp hrow
      cases hp : matching leftKeys rightKeys right l with
      | nil =>
          simp only [hp, List.mem_singleton] at hrow
          simp [hrow, hl l hm]
      | cons partner partners =>
          simp only [hp] at hrow
          exact hpair l hm row (by rw [hp]; exact hrow)
  | semi => exact hasWidth_of_subset hl (List.filter_subset_self _)
  | anti => exact hasWidth_of_subset hl (List.filter_subset_self _)

omit [DecidableEq V] in
/-- A database stays over the schemas when a relation is replaced by one of its width. -/
theorem Fits.update {db : Database V} (h : Fits arity db) (rel : RelId) {rows : Relation V}
    (hw : Relation.HasWidth (arity rel) rows)
    : Fits arity (Function.update db rel rows) := by
  intro other
  by_cases ho : other = rel
  · subst ho
    simpa using hw
  · simpa [Function.update_of_ne ho] using h other

/-- The rounds of a fixpoint keep the width of the start, by induction on the limit. -/
theorem hasWidth_fixpointRows {step : Database V → Relation V} {deltaRel fullRel : RelId}
    {db : Database V} {width : Nat} (hdb : Fits arity db) (hd : arity deltaRel = width)
    (hf : arity fullRel = width)
    (hs : ∀ db, Fits arity db → Relation.HasWidth width (step db)) (limit : Nat)
    {full delta : Relation V} (hfull : Relation.HasWidth width full)
    (hdelta : Relation.HasWidth width delta)
    : Relation.HasWidth width
        (fixpointRows step deltaRel fullRel db limit full delta) := by
  induction limit generalizing full delta with
  | zero => exact hfull
  | succ limit ih =>
      have hfits := (hdb.update deltaRel (by rw [hd]; exact hdelta)).update fullRel
        (by rw [hf]; exact hfull)
      have hnew := hasWidth_of_subset (hs _ hfits) (List.filter_subset_self (p := (· ∉ full)) _)
      simp only [fixpointRows]
      split
      · exact hfull
      · refine ih (fun row hrow => ?_) hnew
        rcases List.mem_append.mp hrow with hrow | hrow
        · exact hfull row hrow
        · exact hnew row hrow

/-- The rounds of a fixpoint depend on the step at databases over the schemas only, by
induction on the limit.
-/
theorem fixpointRows_congr {step other : Database V → Relation V} {deltaRel fullRel : RelId}
    {db : Database V} {width : Nat} (hdb : Fits arity db) (hd : arity deltaRel = width)
    (hf : arity fullRel = width) (he : ∀ db, Fits arity db → step db = other db)
    (hs : ∀ db, Fits arity db → Relation.HasWidth width (other db)) (limit : Nat)
    {full delta : Relation V} (hfull : Relation.HasWidth width full)
    (hdelta : Relation.HasWidth width delta)
    : fixpointRows step deltaRel fullRel db limit full delta
      = fixpointRows other deltaRel fullRel db limit full delta := by
  induction limit generalizing full delta with
  | zero => rfl
  | succ limit ih =>
      have hfits := (hdb.update deltaRel (by rw [hd]; exact hdelta)).update fullRel
        (by rw [hf]; exact hfull)
      have hnew := hasWidth_of_subset (hs _ hfits) (List.filter_subset_self (p := (· ∉ full)) _)
      simp only [fixpointRows, he _ hfits]
      split
      · rfl
      · refine ih (fun row hrow => ?_) hnew
        rcases List.mem_append.mp hrow with hrow | hrow
        · exact hfull row hrow
        · exact hnew row hrow

mutual
/-- Every row of a well-formed plan has the plan's width. -/
theorem RirNode.hasWidth_denote {db : Database V}
    (hdb : Fits arity db) (node : RirNode) (wf : node.WellFormed arity)
    : Relation.HasWidth (node.width arity) (node.denote scalars kernels arity db) := by
  cases node with
  | unit => simp [Relation.HasWidth, RirNode.denote, RirNode.width]
  | scan rel => exact hdb rel
  | filter input predicate =>
      simp only [RirNode.WellFormed] at wf
      simp only [RirNode.denote, RirNode.width]
      exact hasWidth_of_subset (input.hasWidth_denote hdb wf.1) (List.filter_subset_self _)
  | project input columns =>
      intro row hrow
      simp only [RirNode.denote] at hrow
      obtain ⟨source, _, rfl⟩ := List.mem_map.mp hrow
      simp [projectRow, RirNode.width]
  | join left right leftKeys rightKeys joinType =>
      simp only [RirNode.WellFormed] at wf
      have h := hasWidth_joinRows scalars joinType leftKeys rightKeys
        (left.hasWidth_denote hdb wf.1) (right.hasWidth_denote hdb wf.2.1)
      cases joinType <;> exact h
  | chainJoin left right leftKey rightKey outputColumns fallback =>
      simp only [RirNode.WellFormed] at wf
      have h := fallback.hasWidth_denote hdb wf.1
      rw [wf.2] at h
      exact h
  | groupBy input keyCols aggs =>
      intro row hrow
      simp only [RirNode.denote, groupRows, List.mem_map, List.mem_dedup] at hrow
      obtain ⟨group, ⟨source, _, rfl⟩, rfl⟩ := hrow
      simp [RirNode.width]
  | union inputs =>
      simp only [RirNode.WellFormed] at wf
      intro row hrow
      simp only [RirNode.denote, List.mem_dedup] at hrow
      exact RirNode.hasWidth_denoteList hdb inputs wf row hrow
  | distinct input keyCols =>
      simp only [RirNode.WellFormed] at wf
      exact hasWidth_of_subset (input.hasWidth_denote hdb wf.1) (kernels.dedup_subset _ _)
  | diff left right =>
      simp only [RirNode.WellFormed] at wf
      exact hasWidth_of_subset (left.hasWidth_denote hdb wf.1) (List.filter_subset_self _)
  | fixpoint sccId base recursive deltaRel fullRel =>
      simp only [RirNode.WellFormed] at wf
      obtain ⟨hb, hr, hw, hd, hf⟩ := wf
      have hbase := base.hasWidth_denote hdb hb
      refine hasWidth_fixpointRows hdb hd hf (fun db' hdb' => ?_) _ hbase hbase
      rw [← hw]
      exact recursive.hasWidth_denote hdb' hr
  | multiWayJoin inputs slotVars outputColumns fallback plan varOrder =>
      simp only [RirNode.WellFormed] at wf
      have h := fallback.hasWidth_denote hdb wf.1
      rw [wf.2] at h
      exact h
  | tensorMaskedJoin spec => exact kernels.tensorMaskedJoin_width spec db

theorem RirNode.hasWidth_denoteList {db : Database V}
    (hdb : Fits arity db) {width : Nat} (inputs : List RirNode)
    (wf : RirNode.WellFormedList arity width inputs)
    : Relation.HasWidth width (RirNode.denoteList scalars kernels arity db inputs) := by
  cases inputs with
  | nil => simp [Relation.HasWidth, RirNode.denoteList]
  | cons input inputs =>
      simp only [RirNode.WellFormedList] at wf
      obtain ⟨hi, hw, hs⟩ := wf
      intro row hrow
      simp only [RirNode.denoteList, List.mem_append] at hrow
      rcases hrow with hrow | hrow
      · rw [← hw]
        exact input.hasWidth_denote hdb hi row hrow
      · exact RirNode.hasWidth_denoteList hdb inputs hs row hrow
end

end

end Xlog.Ir
