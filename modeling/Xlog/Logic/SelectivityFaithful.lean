import Xlog.Logic.PushdownFaithful
import Xlog.Logic.SelectivityRows

/-! The selectivity pass keeps the rows of a body exactly when every atom of the recognised
shape lists its two variables in the direction of the rebuilt body.
-/

namespace Xlog.Logic

open Xlog.Ir Xlog.Foundation

/-- The two bodies have the same head rows on every database over the schemas. -/
def SameRows (arity : RelId → Nat) (body new : RirNode) : Prop :=
  ∀ (V : Type) [DecidableEq V] (scalars : Scalars V) (kernels : Kernels V) (db : Database V),
    Fits arity db → ∀ row : Row V,
      row ∈ new.denote scalars kernels arity db ↔ row ∈ body.denote scalars kernels arity db

/-- The relations a projected join of scans reads, left to right. -/
def joinedRels : RirNode → List RelId
  | .scan rel => [rel]
  | .project input _ => joinedRels input
  | .join left right _ _ _ => joinedRels left ++ joinedRels right
  | _ => []

-- Described bodies

/-- The classes read off the body describe its rows. -/
def DescribedBy (arity : RelId → Nat) (body : RirNode) (read : BodyClasses) (size : Nat)
    : Prop :=
  ∃ pairs heads cls,
    Reads read (joinedRels body) pairs heads cls
    ∧ (joinedRels body).length = size
    ∧ read.heads.length = size
    ∧ ∀ (V : Type) [DecidableEq V] (scalars : Scalars V) (kernels : Kernels V)
        (db : Database V), Fits arity db → ∀ row : Row V,
      row ∈ body.denote scalars kernels arity db ↔ BodyRow db (joinedRels body) pairs heads row

/-- The relations of the edges are relations of the body. -/
theorem DescribedBy.mem_joinedRels {arity : RelId → Nat} {body : RirNode} {read : BodyClasses}
    {size : Nat} {edges : List (Nat × Nat)} {found : List RelId}
    (h : DescribedBy arity body read size) (hinfer : inferRels edges read = some found)
    (hlen : edges.length = size) {rel : RelId} (hr : rel ∈ found)
    : rel ∈ joinedRels body := by
  obtain ⟨pairs, heads, cls, hread, hrels, -, -⟩ := h
  obtain ⟨hfound, hcover, -⟩ :=
    inferRels_spec hinfer (hread.length_eq.trans (hrels.trans hlen.symm))
  obtain ⟨i, hi⟩ := List.mem_iff_getElem?.mp hr
  obtain ⟨atom, hmem, -, hat⟩ := hcover i (hfound ▸ (List.getElem?_eq_some_iff.mp hi).1)
  obtain rfl := Option.some.inj (hi.symm.trans hat)
  obtain ⟨k, hk⟩ := List.mem_iff_getElem?.mp hmem
  rw [hread.atom_eq, Option.map_eq_some_iff] at hk
  obtain ⟨rel, hrel, rfl⟩ := hk
  exact List.mem_of_getElem? hrel

/-- A described canonical body has the rows of its shape. -/
theorem DescribedBy.mem_iff_shapeRow {arity : RelId → Nat} {body : RirNode}
    {read : BodyClasses} {size : Nat} {edges : List (Nat × Nat)} {found : List RelId}
    (h : DescribedBy arity body read size) (hinfer : inferRels edges read = some found)
    (hlen : edges.length = size) (horiented : Oriented edges size)
    (hcanon : Canonical edges read) {V : Type} [DecidableEq V] (scalars : Scalars V)
    (kernels : Kernels V) {db : Database V} (hfits : Fits arity db) (row : Row V)
    : row ∈ body.denote scalars kernels arity db ↔ ShapeRow db edges size found row := by
  obtain ⟨pairs, heads, cls, hread, hrels, hheads, hrows⟩ := h
  rw [hrows V scalars kernels db hfits row]
  subst hheads
  exact bodyRow_iff_shapeRow hread hinfer (hrels.trans hlen.symm) horiented hcanon db row

/-- Two canonical bodies of one shape have the same rows. -/
theorem sameRows_of_canonical {arity : RelId → Nat} {body new : RirNode}
    {read read' : BodyClasses} {size : Nat} {edges : List (Nat × Nat)} {found : List RelId}
    (h : DescribedBy arity body read size) (h' : DescribedBy arity new read' size)
    (hinfer : inferRels edges read = some found) (hinfer' : inferRels edges read' = some found)
    (hlen : edges.length = size) (horiented : Oriented edges size)
    (hcanon : Canonical edges read) (hcanon' : Canonical edges read')
    : SameRows arity body new := by
  intro V _ scalars kernels db hfits row
  rw [h'.mem_iff_shapeRow hinfer' hlen horiented hcanon' scalars kernels hfits row,
    h.mem_iff_shapeRow hinfer hlen horiented hcanon scalars kernels hfits row]

/-- A body with the rows of a canonical one of its shape is canonical, by the database of
the shape's own edges.
-/
theorem canonical_of_sameRows {arity : RelId → Nat} {body new : RirNode}
    {read read' : BodyClasses} {size : Nat} {edges : List (Nat × Nat)} {found : List RelId}
    (h : DescribedBy arity body read size) (h' : DescribedBy arity new read' size)
    (hinfer : inferRels edges read = some found) (hinfer' : inferRels edges read' = some found)
    (hlen : edges.length = size) (horiented : Oriented edges size)
    (hcanon' : Canonical edges read') (hbinary : ∀ rel ∈ joinedRels body, arity rel = 2)
    (hsame : SameRows arity body new)
    : Canonical edges read := by
  have hfits := fits_edgeDatabase arity edges (fun i => (i : Int))
  have hshape := shapeRow_edgeDatabase edges size
    (fun rel hr => hbinary rel (h.mem_joinedRels hinfer hlen hr)) (fun i => (i : Int))
  rw [← h'.mem_iff_shapeRow hinfer' hlen horiented hcanon' intScalars plainKernels hfits,
    hsame Int intScalars plainKernels _ hfits] at hshape
  obtain ⟨pairs, heads, cls, hread, hrels, hheads, hrows⟩ := h
  rw [hrows Int intScalars plainKernels _ hfits] at hshape
  subst hheads
  exact canonical_of_bodyRow hread hinfer (hrels.trans hlen.symm) horiented
    (fun x y hxy => Int.ofNat_inj.mp hxy) hshape

-- Triangles

/-- The matcher's places are the columns' own: its relations have two columns where a key or
a head column lies behind them.
-/
def TrianglePlaces (arity : RelId → Nat) : RirNode → Prop
  | .project (.join (.join (.scan a) (.scan b) _ _ _) (.scan c) _ _ _) columns =>
      arity a = 2 ∧ 2 ≤ arity b ∧ 2 ≤ arity c
      ∧ (arity b = 2 ∨ ∀ column ∈ columns, column.InRange 4)
  | _ => False

theorem triangle_describedBy {arity : RelId → Nat} {body : RirNode} {read : BodyClasses}
    (h : triangleClasses body = some read) (places : TrianglePlaces arity body)
    : DescribedBy arity body read 3 := by
  unfold triangleClasses at h
  split at h
  · next a b lk2 rk2 c lk1 lk1' rk1 rk1' columns =>
      split at h
      · simp at h
      · next hbounds =>
          simp only [not_or, not_le, not_not] at hbounds
          obtain ⟨hcols, hl2, hr2, hl1, hl1', hr1, hr1'⟩ := hbounds
          split at h
          · next inner inner' hj hj' =>
              obtain ⟨rfl, -⟩ := joinedColumn_zero hj
              obtain ⟨rfl, -⟩ := joinedColumn_zero hj'
              obtain ⟨heads, cls, rfl, hread⟩ := bodyClasses_reads h (by
                simp [ac]
                omega)
              obtain ⟨ha, hb, hc, hplace⟩ := places
              refine ⟨_, heads, cls, hread, rfl, ?_, ?_⟩
              · simpa [hread.heads_eq] using hcols
              · intro V _ scalars kernels db hfits row
                refine mem_leftDeepBody scalars kernels arity hfits hl2 hr2 hl1 hl1' hr1 hr1'
                  hread.range ha hb hc (hplace.imp_right ?_)
                intro hin k hk
                exact hin (.column k) (List.mem_map.mpr ⟨k, hk, rfl⟩) k
                  (by simp [ProjectExpr.collectColumns])
          · simp at h
  · simp at h

theorem oriented_triangleEdges : Oriented triangleEdges 3 := by
  constructor <;> simp [triangleEdges]

/-- What the matcher reads off a rebuilt triangle. -/
def rebuiltTriangle (s : TriangleSemantics) : TriangleInnerPair → BodyClasses
  | .sharedY => ⟨[⟨s.relXy, 0, 1⟩, ⟨s.relYz, 1, 3⟩, ⟨s.relXz, 0, 3⟩], [0, 1, 3]⟩
  | .sharedX => ⟨[⟨s.relXy, 0, 1⟩, ⟨s.relXz, 0, 3⟩, ⟨s.relYz, 1, 3⟩], [0, 1, 3]⟩
  | .sharedZ => ⟨[⟨s.relXz, 0, 1⟩, ⟨s.relYz, 2, 1⟩, ⟨s.relXy, 0, 2⟩], [0, 2, 1]⟩

theorem triangleClasses_rebuilt (s : TriangleSemantics) (pair : TriangleInnerPair)
    : triangleClasses (buildTriangleBody s pair) = some (rebuiltTriangle s pair) := by
  have hY : columnClasses 3 [(1, 2), (0, 4), (3, 5)] [.column 0, .column 1, .column 3]
      = some ([0, 1, 1, 3, 0, 3], [0, 1, 3]) := by decide +kernel
  have hX : columnClasses 3 [(0, 2), (1, 4), (3, 5)] [.column 0, .column 1, .column 3]
      = some ([0, 1, 0, 3, 1, 3], [0, 1, 3]) := by decide +kernel
  have hZ : columnClasses 3 [(1, 3), (0, 4), (2, 5)] [.column 0, .column 2, .column 3]
      = some ([0, 1, 2, 1, 0, 2], [0, 2, 1]) := by decide +kernel
  cases pair
  · simp [buildTriangleBody, leftDeepBody, triangleClasses, joinedColumn, ac, bodyClasses, hY,
      classedAtoms, rebuiltTriangle]
  · simp [buildTriangleBody, leftDeepBody, triangleClasses, joinedColumn, ac, bodyClasses, hX,
      classedAtoms, rebuiltTriangle]
  · simp [buildTriangleBody, leftDeepBody, triangleClasses, joinedColumn, ac, bodyClasses, hZ,
      classedAtoms, rebuiltTriangle]

theorem inferRels_rebuiltTriangle (s : TriangleSemantics) (pair : TriangleInnerPair)
    : inferRels triangleEdges (rebuiltTriangle s pair) = some [s.relXy, s.relYz, s.relXz] := by
  cases pair <;> rfl

theorem canonical_rebuiltTriangle (s : TriangleSemantics) (pair : TriangleInnerPair)
    : Canonical triangleEdges (rebuiltTriangle s pair) := by
  cases pair <;> simp [Canonical, rebuiltTriangle, triangleEdges, endpoints]

/-- The relation a rebuilt triangle scans first, before the columns of another one. -/
def TriangleSemantics.firstRel (s : TriangleSemantics) : TriangleInnerPair → RelId
  | .sharedY => s.relXy
  | .sharedX => s.relXy
  | .sharedZ => s.relXz

theorem places_rebuiltTriangle {arity : RelId → Nat} {s : TriangleSemantics}
    {pair : TriangleInnerPair} (hfirst : arity (s.firstRel pair) = 2)
    (hxy : 2 ≤ arity s.relXy) (hyz : 2 ≤ arity s.relYz) (hxz : 2 ≤ arity s.relXz)
    : TrianglePlaces arity (buildTriangleBody s pair) := by
  cases pair <;>
    exact ⟨hfirst, by assumption, by assumption, .inr (by
      simp [ProjectExpr.InRange, ProjectExpr.collectColumns])⟩

/-- The atoms of a triangle are oriented like its edges, and its relations are binary where
the original or the rebuilt body has columns behind them.
-/
def TriangleLinedUp (stats : Stats) (arity : RelId → Nat) (body : RirNode) : Prop :=
  ∃ read s, triangleClasses body = some read ∧ matchAndInferTriangle body = some s
    ∧ Canonical triangleEdges read
    ∧ TrianglePlaces arity body
    ∧ arity (s.firstRel (bestInnerPair stats s)) = 2

theorem matchAndInferTriangle_eq_some {body : RirNode} {s : TriangleSemantics}
    (h : matchAndInferTriangle body = some s)
    : ∃ read, triangleClasses body = some read
      ∧ inferRels triangleEdges read = some [s.relXy, s.relYz, s.relXz] := by
  unfold matchAndInferTriangle at h
  split at h
  · next hm =>
      obtain ⟨read, hread, hinfer⟩ := Option.bind_eq_some_iff.mp hm
      obtain rfl := Option.some.inj h
      exact ⟨read, hread, hinfer⟩
  · simp at h

theorem TrianglePlaces.two_le {arity : RelId → Nat} {body : RirNode}
    (h : TrianglePlaces arity body) {rel : RelId} (hr : rel ∈ joinedRels body)
    : 2 ≤ arity rel := by
  unfold TrianglePlaces at h
  split at h
  · obtain ⟨ha, hb, hc, -⟩ := h
    simp only [joinedRels, List.cons_append, List.nil_append, List.mem_cons,
      List.not_mem_nil, or_false] at hr
    rcases hr with rfl | rfl | rfl
    · exact ha.ge
    · exact hb
    · exact hc
  · exact h.elim

theorem tryReorderTriangle_eq_some {stats : Stats} {body new : RirNode}
    (h : tryReorderTriangle stats body = some new)
    : ∃ s, matchAndInferTriangle body = some s
      ∧ new = buildTriangleBody s (bestInnerPair stats s) := by
  unfold tryReorderTriangle at h
  split at h
  · simp at h
  · next s hs =>
      split at h
      · simp at h
      · simp only [Option.ite_none_left_eq_some, Option.some.injEq] at h
        exact ⟨s, hs, h.2.symm⟩

/-- A rebuilt triangle has the rows of a body that is lined up. -/
theorem TriangleLinedUp.sameRows {stats : Stats} {arity : RelId → Nat} {body : RirNode}
    {s : TriangleSemantics} (h : TriangleLinedUp stats arity body)
    (hs : matchAndInferTriangle body = some s)
    : SameRows arity body (buildTriangleBody s (bestInnerPair stats s)) := by
  obtain ⟨read, s', hread, hs', hcanon, places, hfirst⟩ := h
  obtain rfl := Option.some.inj (hs.symm.trans hs')
  obtain ⟨read', hread', hinfer⟩ := matchAndInferTriangle_eq_some hs
  obtain rfl := Option.some.inj (hread.symm.trans hread')
  have hdesc := triangle_describedBy hread places
  have hwide (rel : RelId) (hr : rel ∈ [s.relXy, s.relYz, s.relXz]) : 2 ≤ arity rel :=
    places.two_le (hdesc.mem_joinedRels hinfer rfl hr)
  have places' := places_rebuiltTriangle hfirst (hwide _ (by simp)) (hwide _ (by simp))
    (hwide _ (by simp))
  exact sameRows_of_canonical hdesc
    (triangle_describedBy (triangleClasses_rebuilt s _) places') hinfer
    (inferRels_rebuiltTriangle s _) rfl oriented_triangleEdges hcanon
    (canonical_rebuiltTriangle s _)

/-- A body over binary relations with the rows of its rebuilt triangle is lined up. -/
theorem triangleLinedUp_of_sameRows {stats : Stats} {arity : RelId → Nat} {body : RirNode}
    {s : TriangleSemantics} (hs : matchAndInferTriangle body = some s)
    (hbinary : ∀ rel ∈ joinedRels body, arity rel = 2)
    (hsame : SameRows arity body (buildTriangleBody s (bestInnerPair stats s)))
    : TriangleLinedUp stats arity body := by
  obtain ⟨read, hread, hinfer⟩ := matchAndInferTriangle_eq_some hs
  have places : TrianglePlaces arity body := by
    unfold triangleClasses at hread
    split at hread
    · simp only [joinedRels, List.cons_append, List.nil_append, List.forall_mem_cons] at hbinary
      obtain ⟨ha, hb, hc, -⟩ := hbinary
      exact ⟨ha, hb.ge, hc.ge, .inl hb⟩
    · simp at hread
  have hdesc := triangle_describedBy hread places
  have hfound (rel : RelId) (hr : rel ∈ [s.relXy, s.relYz, s.relXz]) : arity rel = 2 :=
    hbinary rel (hdesc.mem_joinedRels hinfer rfl hr)
  have hfirst : arity (s.firstRel (bestInnerPair stats s)) = 2 := by
    cases bestInnerPair stats s <;> exact hfound _ (by simp [TriangleSemantics.firstRel])
  have places' := places_rebuiltTriangle hfirst (hfound _ (by simp)).ge (hfound _ (by simp)).ge
    (hfound _ (by simp)).ge
  exact ⟨read, s, hread, hs,
    canonical_of_sameRows hdesc (triangle_describedBy (triangleClasses_rebuilt s _) places')
      hinfer (inferRels_rebuiltTriangle s _) rfl oriented_triangleEdges
      (canonical_rebuiltTriangle s _) hbinary hsame,
    places, hfirst⟩

-- 4-cycles

/-- The matcher's places are the columns' own: all relations but the last are binary. -/
def Cycle4Places (arity : RelId → Nat) : RirNode → Prop
  | .project (.join (.join (.scan a) (.scan b) _ _ _) (.join (.scan c) (.scan d) _ _ _)
      _ _ _) _ =>
      arity a = 2 ∧ arity b = 2 ∧ arity c = 2 ∧ 2 ≤ arity d
  | _ => False

theorem cycle4_describedBy {arity : RelId → Nat} {body : RirNode} {read : BodyClasses}
    (h : cycle4Classes body = some read) (places : Cycle4Places arity body)
    : DescribedBy arity body read 4 := by
  unfold cycle4Classes at h
  split at h
  · next a b ilkL irkL c d ilkR irkR olk olk' ork ork' columns =>
      split at h
      · simp at h
      · next hbounds =>
          simp only [not_or, not_le, not_not] at hbounds
          obtain ⟨hcols, hil, hir, hjl, hjr, hol, hol', hor, hor'⟩ := hbounds
          split at h
          · next left left' right right' hl hl' hr hr' =>
              obtain ⟨rfl, -⟩ := joinedColumn_zero hl
              obtain ⟨rfl, -⟩ := joinedColumn_zero hl'
              obtain rfl : right = ac 2 ork := joinedColumn_two hr
              obtain rfl : right' = ac 2 ork' := joinedColumn_two hr'
              obtain ⟨heads, cls, rfl, hread⟩ := bodyClasses_reads h (by
                simp [ac]
                omega)
              obtain ⟨ha, hb, hc, hd⟩ := places
              refine ⟨_, heads, cls, hread, rfl, ?_, ?_⟩
              · simpa [hread.heads_eq] using hcols
              · intro V _ scalars kernels db hfits row
                exact mem_bushyBody scalars kernels arity hfits hil hir hjl hjr hol hol' hor
                  hor' hread.range ha hb hc hd
          · simp at h
  · simp at h

theorem oriented_cycle4Edges : Oriented cycle4Edges 4 := by
  constructor <;> simp [cycle4Edges]

/-- What the matcher reads off a rebuilt 4-cycle. -/
def rebuiltCycle4 (s : Cycle4Semantics) : Cycle4Grouping → BodyClasses
  | .default =>
      ⟨[⟨s.relWx, 0, 1⟩, ⟨s.relXy, 1, 3⟩, ⟨s.relYz, 3, 5⟩, ⟨s.relZw, 5, 0⟩], [0, 1, 3, 5]⟩
  | .alt =>
      ⟨[⟨s.relXy, 0, 1⟩, ⟨s.relYz, 1, 3⟩, ⟨s.relZw, 3, 5⟩, ⟨s.relWx, 5, 0⟩], [5, 0, 1, 3]⟩

theorem cycle4Classes_rebuilt (s : Cycle4Semantics) (grouping : Cycle4Grouping)
    : cycle4Classes (build4cycleBody s grouping) = some (rebuiltCycle4 s grouping) := by
  have hD : columnClasses 4 [(1, 2), (5, 6), (0, 7), (3, 4)]
      [.column 0, .column 1, .column 3, .column 5]
      = some ([0, 1, 1, 3, 3, 5, 5, 0], [0, 1, 3, 5]) := by decide +kernel
  have hA : columnClasses 4 [(1, 2), (5, 6), (0, 7), (3, 4)]
      [.column 5, .column 0, .column 1, .column 3]
      = some ([0, 1, 1, 3, 3, 5, 5, 0], [5, 0, 1, 3]) := by decide +kernel
  cases grouping
  · simp [build4cycleBody, bushyBody, cycle4Classes, joinedColumn, ac, bodyClasses, hD,
      classedAtoms, rebuiltCycle4]
  · simp [build4cycleBody, bushyBody, cycle4Classes, joinedColumn, ac, bodyClasses, hA,
      classedAtoms, rebuiltCycle4]

theorem inferRels_rebuiltCycle4 (s : Cycle4Semantics) (grouping : Cycle4Grouping)
    : inferRels cycle4Edges (rebuiltCycle4 s grouping)
      = some [s.relWx, s.relXy, s.relYz, s.relZw] := by
  cases grouping <;> rfl

theorem canonical_rebuiltCycle4 (s : Cycle4Semantics) (grouping : Cycle4Grouping)
    : Canonical cycle4Edges (rebuiltCycle4 s grouping) := by
  cases grouping <;> simp [Canonical, rebuiltCycle4, cycle4Edges, endpoints]

/-- The relations a rebuilt 4-cycle scans before the last one. -/
def Cycle4Semantics.leadingRels (s : Cycle4Semantics) : Cycle4Grouping → List RelId
  | .default => [s.relWx, s.relXy, s.relYz]
  | .alt => [s.relXy, s.relYz, s.relZw]

theorem places_rebuiltCycle4 {arity : RelId → Nat} {s : Cycle4Semantics}
    {grouping : Cycle4Grouping} (hleading : ∀ rel ∈ s.leadingRels grouping, arity rel = 2)
    (hwx : 2 ≤ arity s.relWx) (hzw : 2 ≤ arity s.relZw)
    : Cycle4Places arity (build4cycleBody s grouping) := by
  cases grouping <;>
    simp only [Cycle4Semantics.leadingRels, List.forall_mem_cons] at hleading <;>
    exact ⟨hleading.1, hleading.2.1, hleading.2.2.1, by assumption⟩

/-- The atoms of a 4-cycle are oriented like its edges, and all relations but the last of the
original and of the rebuilt body are binary.
-/
def Cycle4LinedUp (stats : Stats) (arity : RelId → Nat) (body : RirNode) : Prop :=
  ∃ read s, cycle4Classes body = some read ∧ matchAndInfer4cycle body = some s
    ∧ Canonical cycle4Edges read
    ∧ Cycle4Places arity body
    ∧ ∀ rel ∈ s.leadingRels (chosenGrouping stats s), arity rel = 2

theorem matchAndInfer4cycle_eq_some {body : RirNode} {s : Cycle4Semantics}
    (h : matchAndInfer4cycle body = some s)
    : ∃ read, cycle4Classes body = some read
      ∧ inferRels cycle4Edges read = some [s.relWx, s.relXy, s.relYz, s.relZw] := by
  unfold matchAndInfer4cycle at h
  split at h
  · next hm =>
      obtain ⟨read, hread, hinfer⟩ := Option.bind_eq_some_iff.mp hm
      obtain rfl := Option.some.inj h
      exact ⟨read, hread, hinfer⟩
  · simp at h

theorem Cycle4Places.two_le {arity : RelId → Nat} {body : RirNode}
    (h : Cycle4Places arity body) {rel : RelId} (hr : rel ∈ joinedRels body)
    : 2 ≤ arity rel := by
  unfold Cycle4Places at h
  split at h
  · obtain ⟨ha, hb, hc, hd⟩ := h
    simp only [joinedRels, List.cons_append, List.nil_append, List.mem_cons,
      List.not_mem_nil, or_false] at hr
    rcases hr with rfl | rfl | rfl | rfl
    · exact ha.ge
    · exact hb.ge
    · exact hc.ge
    · exact hd
  · exact h.elim

theorem tryReorder4cycle_eq_some {stats : Stats} {body new : RirNode}
    (h : tryReorder4cycle stats body = some new)
    : ∃ s, matchAndInfer4cycle body = some s
      ∧ new = build4cycleBody s (chosenGrouping stats s) := by
  unfold tryReorder4cycle at h
  split at h
  · simp at h
  · next s hs =>
      split at h
      · simp at h
      · simp only [Option.ite_none_left_eq_some, Option.some.injEq] at h
        exact ⟨s, hs, h.2.symm⟩

/-- A rebuilt 4-cycle has the rows of a body that is lined up. -/
theorem Cycle4LinedUp.sameRows {stats : Stats} {arity : RelId → Nat} {body : RirNode}
    {s : Cycle4Semantics} (h : Cycle4LinedUp stats arity body)
    (hs : matchAndInfer4cycle body = some s)
    : SameRows arity body (build4cycleBody s (chosenGrouping stats s)) := by
  obtain ⟨read, s', hread, hs', hcanon, places, hleading⟩ := h
  obtain rfl := Option.some.inj (hs.symm.trans hs')
  obtain ⟨read', hread', hinfer⟩ := matchAndInfer4cycle_eq_some hs
  obtain rfl := Option.some.inj (hread.symm.trans hread')
  have hdesc := cycle4_describedBy hread places
  have hwide (rel : RelId) (hr : rel ∈ [s.relWx, s.relXy, s.relYz, s.relZw])
      : 2 ≤ arity rel :=
    places.two_le (hdesc.mem_joinedRels hinfer rfl hr)
  have places' := places_rebuiltCycle4 hleading (hwide _ (by simp)) (hwide _ (by simp))
  exact sameRows_of_canonical hdesc (cycle4_describedBy (cycle4Classes_rebuilt s _) places')
    hinfer (inferRels_rebuiltCycle4 s _) rfl oriented_cycle4Edges hcanon
    (canonical_rebuiltCycle4 s _)

/-- A body over binary relations with the rows of its rebuilt 4-cycle is lined up. -/
theorem cycle4LinedUp_of_sameRows {stats : Stats} {arity : RelId → Nat} {body : RirNode}
    {s : Cycle4Semantics} (hs : matchAndInfer4cycle body = some s)
    (hbinary : ∀ rel ∈ joinedRels body, arity rel = 2)
    (hsame : SameRows arity body (build4cycleBody s (chosenGrouping stats s)))
    : Cycle4LinedUp stats arity body := by
  obtain ⟨read, hread, hinfer⟩ := matchAndInfer4cycle_eq_some hs
  have places : Cycle4Places arity body := by
    unfold cycle4Classes at hread
    split at hread
    · simp only [joinedRels, List.cons_append, List.nil_append, List.forall_mem_cons] at hbinary
      obtain ⟨ha, hb, hc, hd, -⟩ := hbinary
      exact ⟨ha, hb, hc, hd.ge⟩
    · simp at hread
  have hdesc := cycle4_describedBy hread places
  have hfound (rel : RelId) (hr : rel ∈ [s.relWx, s.relXy, s.relYz, s.relZw])
      : arity rel = 2 :=
    hbinary rel (hdesc.mem_joinedRels hinfer rfl hr)
  have hleading : ∀ rel ∈ s.leadingRels (chosenGrouping stats s), arity rel = 2 := by
    intro rel hr
    apply hfound
    cases hg : chosenGrouping stats s <;> rw [hg] at hr <;>
      simp only [Cycle4Semantics.leadingRels, List.mem_cons, List.not_mem_nil,
        or_false] at hr ⊢ <;> tauto
  have places' := places_rebuiltCycle4 hleading (hfound _ (by simp)).ge (hfound _ (by simp)).ge
  exact ⟨read, s, hread, hs,
    canonical_of_sameRows hdesc (cycle4_describedBy (cycle4Classes_rebuilt s _) places')
      hinfer (inferRels_rebuiltCycle4 s _) rfl oriented_cycle4Edges
      (canonical_rebuiltCycle4 s _) hbinary hsame,
    places, hleading⟩

-- The pass

/-- The recognised atoms lie as the rebuilt body takes them to lie. -/
def LinedUp (stats : Stats) (arity : RelId → Nat) (body : RirNode) : Prop :=
  TriangleLinedUp stats arity body ∨ Cycle4LinedUp stats arity body

/-- No body is read as both shapes: a triangle ends in a scan, a 4-cycle in a join. -/
theorem cycle4Classes_of_triangleClasses {body : RirNode} {read read' : BodyClasses}
    (h : triangleClasses body = some read)
    : cycle4Classes body ≠ some read' := by
  unfold triangleClasses at h
  split at h
  · simp [cycle4Classes]
  · simp at h

theorem sameRows_of_linedUp {stats : Stats} {arity : RelId → Nat} {body new : RirNode}
    (h : reorderBody stats body = some new) (hlined : LinedUp stats arity body)
    : SameRows arity body new := by
  rcases Option.or_eq_some_iff.mp h with htri | ⟨-, hcyc⟩
  · obtain ⟨s, hs, rfl⟩ := tryReorderTriangle_eq_some htri
    rcases hlined with hl | hl
    · exact hl.sameRows hs
    · obtain ⟨read, hread, -⟩ := matchAndInferTriangle_eq_some hs
      obtain ⟨read', -, hread', -⟩ := hl
      exact absurd hread' (cycle4Classes_of_triangleClasses hread)
  · obtain ⟨s, hs, rfl⟩ := tryReorder4cycle_eq_some hcyc
    rcases hlined with hl | hl
    · obtain ⟨read', -, hread', -⟩ := hl
      obtain ⟨read, hread, -⟩ := matchAndInfer4cycle_eq_some hs
      exact absurd hread (cycle4Classes_of_triangleClasses hread')
    · exact hl.sameRows hs

/-- The pass keeps the rows of a lined-up body; over binary relations it keeps the rows of no
other body it rewrites.
-/
theorem reorderBody_sameRows (stats : Stats) (arity : RelId → Nat) {body new : RirNode}
    (h : reorderBody stats body = some new)
    : (LinedUp stats arity body → SameRows arity body new)
      ∧ ((∀ rel ∈ joinedRels body, arity rel = 2) → SameRows arity body new →
        LinedUp stats arity body) := by
  refine ⟨sameRows_of_linedUp h, ?_⟩
  intro hbinary hsame
  rcases Option.or_eq_some_iff.mp h with htri | ⟨-, hcyc⟩
  · obtain ⟨s, hs, rfl⟩ := tryReorderTriangle_eq_some htri
    exact .inl (triangleLinedUp_of_sameRows hs hbinary hsame)
  · obtain ⟨s, hs, rfl⟩ := tryReorder4cycle_eq_some hcyc
    exact .inr (cycle4LinedUp_of_sameRows hs hbinary hsame)

/-- Three relations of a hundred rows each, without column statistics. -/
def uniformStats : Stats := ⟨fun _ => some 100, fun _ _ _ _ => 1000⟩

/-- `tri(X, Y, Z) :- e1(X, Y), e2(Y, Z), e3(X, Z)`, joined on the third atom's columns in
reverse.
-/
def forwardTriangle : RirNode :=
  leftDeepBody 1 2 3 1 0 (3, 0) (1, 0) [.column 0, .column 1, .column 3]

theorem matchAndInferTriangle_forwardTriangle
    : matchAndInferTriangle forwardTriangle = some ⟨1, 2, 3⟩ := by
  decide +kernel

theorem reorderBody_sameRows_forwardTriangle
    : SameRows (fun _ => 2) forwardTriangle (buildTriangleBody ⟨1, 2, 3⟩ .sharedY) := by
  have hnew : reorderBody uniformStats forwardTriangle
      = some (buildTriangleBody ⟨1, 2, 3⟩ .sharedY) := by
    have hdiff : sameBody (buildTriangleBody ⟨1, 2, 3⟩ .sharedY) forwardTriangle = false := rfl
    simp [reorderBody, tryReorderTriangle, matchAndInferTriangle_forwardTriangle, uniformStats,
      populatedCard, bestInnerPair, hdiff]
  refine (reorderBody_sameRows uniformStats (fun _ => 2) hnew).1 (.inl ?_)
  refine ⟨⟨[⟨1, 0, 1⟩, ⟨2, 1, 3⟩, ⟨3, 0, 3⟩], [0, 1, 3]⟩, ⟨1, 2, 3⟩, by decide +kernel,
    matchAndInferTriangle_forwardTriangle, ?_, ?_, rfl⟩
  · simp [Canonical, triangleEdges, endpoints]
  · exact ⟨rfl, le_rfl, le_rfl, .inl rfl⟩

/-- `tri(X, Y, Z) :- e1(X, Y), e2(Y, Z), e3(Z, X)`. -/
def backwardTriangle : RirNode :=
  leftDeepBody 1 2 3 1 0 (0, 3) (1, 0) [.column 0, .column 1, .column 3]

/-- One triangle: 0 to 1, 1 to 2 and back from 2 to 0. -/
def oneTriangle : Database Int
  | 1 => [[0, 1]]
  | 2 => [[1, 2]]
  | 3 => [[2, 0]]
  | _ => []

theorem backwardTriangle_loses_rows
    : ¬ ∀ (stats : Stats) (arity : RelId → Nat) (body new : RirNode), body.WellFormed arity →
      reorderBody stats body = some new → SameRows arity body new := by
  intro h
  have hmatch : matchAndInferTriangle backwardTriangle = some ⟨1, 2, 3⟩ := by decide +kernel
  have hdiff : sameBody (buildTriangleBody ⟨1, 2, 3⟩ .sharedY) backwardTriangle = false := rfl
  have hnew : reorderBody uniformStats backwardTriangle
      = some (buildTriangleBody ⟨1, 2, 3⟩ .sharedY) := by
    simp [reorderBody, tryReorderTriangle, hmatch, uniformStats, populatedCard, bestInnerPair,
      hdiff]
  have hwf : backwardTriangle.WellFormed (fun _ => 2) := by
    simp [backwardTriangle, leftDeepBody, RirNode.WellFormed, RirNode.width,
      ProjectExpr.InRange, ProjectExpr.collectColumns]
  have hfits : Fits (fun _ => 2) oneTriangle := by
    intro rel row hr
    unfold oneTriangle at hr
    split at hr <;> simp_all
  have hsame := h uniformStats (fun _ => 2) backwardTriangle _ hwf hnew Int intScalars
    plainKernels oneTriangle hfits [0, 1, 2]
  have hold : backwardTriangle.denote intScalars plainKernels (fun _ => 2) oneTriangle
      = [[0, 1, 2]] := by
    decide +kernel
  have hlost : (buildTriangleBody ⟨1, 2, 3⟩ .sharedY).denote intScalars plainKernels
      (fun _ => 2) oneTriangle = [] := by
    decide +kernel
  rw [hold, hlost] at hsame
  simp at hsame

end Xlog.Logic
