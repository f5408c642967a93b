import Xlog.Foundation.Loop
import Xlog.Foundation.UnionFind
import Xlog.Ir.Semantics

/-! The selectivity pass: a rule body that joins three relations in a triangle or four in a cycle is recognised
by the classes of its join columns, and rebuilt from its relation ids around the join with the smallest
estimate. A body means what its recognised shape means when every atom lists its two variables in the
direction of its edge.
-/

namespace Xlog.Logic

open Xlog.Ir Xlog.Foundation

/-- A statistics snapshot: the registered cardinalities and the estimates computed from them. -/
structure Stats where
  cardinality : RelId → Option Nat
  estimateJoinCardinality : RelId → RelId → List Nat → List Nat → Nat

def populatedCard (stats : Stats) (rel : RelId) : Option Nat :=
  (stats.cardinality rel).filter (0 < ·)

def u64Add (x y : Nat) : Nat := min (x + y) 18446744073709551615

-- Classes of columns

def columnIndex : ProjectExpr → Option Nat
  | .column index => some index
  | .computed _ _ => none

/-- The element of a column of an atom; every atom is taken to have two columns. -/
def ac (atom col : Nat) : Nat := atom * 2 + col

/-- The element of a column of the join of `count` atoms that starts at atom `first`. -/
def joinedColumn (first count k : Nat) : Option Nat :=
  if k < 2 * count then some (ac (first + k / 2) (k % 2)) else none

/-- An atom of a body with the classes of its two columns. -/
structure ClassedAtom where
  rel : RelId
  classes : Nat × Nat
  deriving DecidableEq, Repr

/-- What the matchers read off a body: the atoms, and the class of every head variable. -/
structure BodyClasses where
  atoms : List ClassedAtom
  heads : List Nat
  deriving DecidableEq, Repr

/-- The class of a projected column. -/
def headClass (count : Nat) (parent : List Nat) : ProjectExpr → Option Nat
  | .column k => (joinedColumn 0 count k).map (UnionFind.root parent)
  | .computed _ _ => none

def classedAtoms (roots : List Nat) : Nat → List RelId → List ClassedAtom
  | _, [] => []
  | atom, rel :: rels =>
      ⟨rel, roots.getD (ac atom 0) 0, roots.getD (ac atom 1) 0⟩
        :: classedAtoms roots (atom + 1) rels

/-- The roots of the columns and of the head variables when the keys unite the given columns:
as many classes as atoms, with two columns each, and head variables of distinct classes.
-/
def columnClasses (count : Nat) (pairs : List (Nat × Nat)) (columns : List ProjectExpr)
    : Option (List Nat × List Nat) :=
  let parent := UnionFind.unionAll (UnionFind.singletons (2 * count)) pairs
  let (roots, parent) := UnionFind.findAll parent (List.range (2 * count))
  if roots.eraseDups.length ≠ count ∨ roots.any (roots.count · ≠ 2) then none
  else
    match columns.mapM (headClass count parent) with
    | none => none
    | some heads => if heads.Nodup then some (roots, heads) else none

def bodyClasses (rels : List RelId) (pairs : List (Nat × Nat)) (columns : List ProjectExpr)
    : Option BodyClasses :=
  (columnClasses rels.length pairs columns).map fun classes =>
    ⟨classedAtoms classes.1 0 rels, classes.2⟩

/-- Which of the head variables an atom's columns name. -/
def mentions (heads : List Nat) (classes : Nat × Nat) : List Bool :=
  heads.map fun head => classes.1 == head || classes.2 == head

/-- The edge of the shape that joins exactly these variables. -/
def edgeOf (edges : List (Nat × Nat)) (heads : List Nat) (classes : Nat × Nat) : Option Nat :=
  edges.findIdx? fun edge =>
    (List.range heads.length).map (fun i => i == edge.1 || i == edge.2)
      == mentions heads classes

/-- The relation of every edge; a later atom on the same edge replaces an earlier one. -/
def assignEdges (edges : List (Nat × Nat)) (heads : List Nat)
    : List ClassedAtom → List (Option RelId) → Option (List (Option RelId))
  | [], rels => some rels
  | atom :: atoms, rels =>
      match edgeOf edges heads atom.classes with
      | none => none
      | some edge => assignEdges edges heads atoms (rels.set edge (some atom.rel))

def inferRels (edges : List (Nat × Nat)) (read : BodyClasses) : Option (List RelId) :=
  (assignEdges edges read.heads read.atoms (List.replicate edges.length none)).bind
    fun rels => rels.mapM id

-- Triangles

structure TriangleSemantics where
  relXy : RelId
  relYz : RelId
  relXz : RelId
  deriving DecidableEq, Repr

/-- The edges `xy`, `yz` and `xz` between the head variables. -/
def triangleEdges : List (Nat × Nat) := [(0, 1), (1, 2), (0, 2)]

/-- The classes of a left-deep join of three relations. -/
def triangleClasses : RirNode → Option BodyClasses
  | .project (.join (.join (.scan relInnerL) (.scan relInnerR) [lk2] [rk2] .inner)
      (.scan relThird) [lk1, lk1'] [rk1, rk1'] .inner) columns =>
      if columns.length ≠ 3 ∨ 2 ≤ lk2 ∨ 2 ≤ rk2
          ∨ 4 ≤ lk1 ∨ 4 ≤ lk1' ∨ 2 ≤ rk1 ∨ 2 ≤ rk1' then none
      else
        match joinedColumn 0 2 lk1, joinedColumn 0 2 lk1' with
        | some inner, some inner' =>
            bodyClasses [relInnerL, relInnerR, relThird]
              [(ac 0 lk2, ac 1 rk2), (inner, ac 2 rk1), (inner', ac 2 rk1')] columns
        | _, _ => none
  | _ => none

def matchAndInferTriangle (body : RirNode) : Option TriangleSemantics :=
  match (triangleClasses body).bind (inferRels triangleEdges) with
  | some [relXy, relYz, relXz] => some ⟨relXy, relYz, relXz⟩
  | _ => none

inductive TriangleInnerPair where
  | sharedY | sharedX | sharedZ
  deriving DecidableEq, Repr

/-- Three scans joined left-deep and projected to three columns. -/
def leftDeepBody (relA relB relC : RelId) (lk2 rk2 : Nat) (lk1 rk1 : Nat × Nat)
    (columns : List ProjectExpr) : RirNode :=
  .project (.join (.join (.scan relA) (.scan relB) [lk2] [rk2] .inner) (.scan relC)
    [lk1.1, lk1.2] [rk1.1, rk1.2] .inner) columns

def buildTriangleBody (s : TriangleSemantics) : TriangleInnerPair → RirNode
  | .sharedY =>
      leftDeepBody s.relXy s.relYz s.relXz 1 0 (0, 3) (0, 1) [.column 0, .column 1, .column 3]
  | .sharedX =>
      leftDeepBody s.relXy s.relXz s.relYz 0 0 (1, 3) (0, 1) [.column 0, .column 1, .column 3]
  | .sharedZ =>
      leftDeepBody s.relXz s.relYz s.relXy 1 1 (0, 2) (0, 1) [.column 0, .column 2, .column 3]

/-- The pair with the smallest estimate, the earlier one on a tie. -/
def bestInnerPair (stats : Stats) (s : TriangleSemantics) : TriangleInnerPair :=
  let estY := stats.estimateJoinCardinality s.relXy s.relYz [1] [0]
  let estX := stats.estimateJoinCardinality s.relXy s.relXz [0] [0]
  let estZ := stats.estimateJoinCardinality s.relYz s.relXz [1] [1]
  let best := if estX < estY then (.sharedX, estX) else (TriangleInnerPair.sharedY, estY)
  if estZ < best.2 then .sharedZ else best.1

/-- Whether two projected joins of scans print the same. -/
def sameBody : RirNode → RirNode → Bool
  | .scan rel, .scan rel' => rel == rel'
  | .project input columns, .project input' columns' =>
      sameBody input input' && columns.map columnIndex == columns'.map columnIndex
  | .join left right leftKeys rightKeys joinType,
      .join left' right' leftKeys' rightKeys' joinType' =>
      sameBody left left' && sameBody right right'
        && leftKeys == leftKeys' && rightKeys == rightKeys' && joinType == joinType'
  | _, _ => false

def tryReorderTriangle (stats : Stats) (body : RirNode) : Option RirNode :=
  match matchAndInferTriangle body with
  | none => none
  | some s =>
      if [s.relXy, s.relYz, s.relXz].any fun rel => (populatedCard stats rel).isNone then none
      else
        let candidate := buildTriangleBody s (bestInnerPair stats s)
        if sameBody candidate body then none else some candidate

-- 4-cycles

structure Cycle4Semantics where
  relWx : RelId
  relXy : RelId
  relYz : RelId
  relZw : RelId
  deriving DecidableEq, Repr

/-- The edges `wx`, `xy`, `yz` and `zw` between the head variables. -/
def cycle4Edges : List (Nat × Nat) := [(0, 1), (1, 2), (2, 3), (3, 0)]

/-- The classes of a bushy join of two joined pairs of relations. -/
def cycle4Classes : RirNode → Option BodyClasses
  | .project (.join (.join (.scan relLl) (.scan relLr) [ilkL] [irkL] .inner)
      (.join (.scan relRl) (.scan relRr) [ilkR] [irkR] .inner)
      [olk, olk'] [ork, ork'] .inner) columns =>
      if columns.length ≠ 4 ∨ 2 ≤ ilkL ∨ 2 ≤ irkL ∨ 2 ≤ ilkR ∨ 2 ≤ irkR
          ∨ 4 ≤ olk ∨ 4 ≤ olk' ∨ 4 ≤ ork ∨ 4 ≤ ork' then none
      else
        match joinedColumn 0 2 olk, joinedColumn 0 2 olk',
            joinedColumn 2 2 ork, joinedColumn 2 2 ork' with
        | some left, some left', some right, some right' =>
            bodyClasses [relLl, relLr, relRl, relRr]
              [(ac 0 ilkL, ac 1 irkL), (ac 2 ilkR, ac 3 irkR), (left, right), (left', right')]
              columns
        | _, _, _, _ => none
  | _ => none

def matchAndInfer4cycle (body : RirNode) : Option Cycle4Semantics :=
  match (cycle4Classes body).bind (inferRels cycle4Edges) with
  | some [relWx, relXy, relYz, relZw] => some ⟨relWx, relXy, relYz, relZw⟩
  | _ => none

inductive Cycle4Grouping where
  | default | alt
  deriving DecidableEq, Repr

/-- Two joined pairs of scans, joined on the outer columns and projected to four columns. -/
def bushyBody (relA relB relC relD : RelId) (ilkL irkL ilkR irkR : Nat) (olk ork : Nat × Nat)
    (columns : List ProjectExpr) : RirNode :=
  .project (.join (.join (.scan relA) (.scan relB) [ilkL] [irkL] .inner)
    (.join (.scan relC) (.scan relD) [ilkR] [irkR] .inner)
    [olk.1, olk.2] [ork.1, ork.2] .inner) columns

def build4cycleBody (s : Cycle4Semantics) : Cycle4Grouping → RirNode
  | .default =>
      bushyBody s.relWx s.relXy s.relYz s.relZw 1 0 1 0 (0, 3) (3, 0)
        [.column 0, .column 1, .column 3, .column 5]
  | .alt =>
      bushyBody s.relXy s.relYz s.relZw s.relWx 1 0 1 0 (0, 3) (3, 0)
        [.column 5, .column 0, .column 1, .column 3]

def chosenGrouping (stats : Stats) (s : Cycle4Semantics) : Cycle4Grouping :=
  let estDefault := u64Add (stats.estimateJoinCardinality s.relWx s.relXy [1] [0])
    (stats.estimateJoinCardinality s.relYz s.relZw [1] [0])
  let estAlt := u64Add (stats.estimateJoinCardinality s.relXy s.relYz [1] [0])
    (stats.estimateJoinCardinality s.relZw s.relWx [1] [0])
  if estAlt < estDefault then .alt else .default

def tryReorder4cycle (stats : Stats) (body : RirNode) : Option RirNode :=
  match matchAndInfer4cycle body with
  | none => none
  | some s =>
      if [s.relWx, s.relXy, s.relYz, s.relZw].any fun rel => (populatedCard stats rel).isNone
      then none
      else
        let candidate := build4cycleBody s (chosenGrouping stats s)
        if sameBody candidate body then none else some candidate

-- The pass

/-- The body the pass puts in place of a rule's body, where it rewrites it. -/
def reorderBody (stats : Stats) (body : RirNode) : Option RirNode :=
  (tryReorderTriangle stats body).or (tryReorder4cycle stats body)

-- Classes

theorem joinedColumn_zero {count k column : Nat} (h : joinedColumn 0 count k = some column)
    : column = k ∧ k < 2 * count := by
  unfold joinedColumn at h
  split at h
  · next hk =>
      obtain rfl := Option.some.inj h
      exact ⟨by simp only [ac]; omega, hk⟩
  · simp at h

theorem joinedColumn_two {k column : Nat} (h : joinedColumn 2 2 k = some column)
    : column = ac 2 k := by
  unfold joinedColumn at h
  split at h
  · obtain rfl := Option.some.inj h
    simp only [ac]
    omega
  · simp at h

/-- A projected column with a class is a plain column of the atoms. -/
theorem headClass_eq_some {count head : Nat} {parent : List Nat} {column : ProjectExpr}
    (h : headClass count parent column = some head)
    : ∃ k < 2 * count, column = .column k ∧ head = UnionFind.root parent k := by
  cases column with
  | computed expr type => simp [headClass] at h
  | column k =>
      simp only [headClass, Option.map_eq_some_iff] at h
      obtain ⟨element, hj, rfl⟩ := h
      obtain ⟨rfl, hk⟩ := joinedColumn_zero hj
      exact ⟨element, hk, rfl, rfl⟩

theorem getElem?_classedAtoms (roots : List Nat) (first : Nat) (rels : List RelId) (i : Nat)
    : (classedAtoms roots first rels)[i]?
      = rels[i]?.map fun rel =>
        ⟨rel, roots.getD (ac (first + i) 0) 0, roots.getD (ac (first + i) 1) 0⟩ := by
  induction rels generalizing first i with
  | nil => rfl
  | cons rel rels ih =>
      cases i with
      | zero => rfl
      | succ i =>
          simp only [classedAtoms, List.getElem?_cons_succ, ih]
          rw [Nat.add_assoc, Nat.add_comm 1 i]

theorem length_classedAtoms (roots : List Nat) (first : Nat) (rels : List RelId)
    : (classedAtoms roots first rels).length = rels.length := by
  induction rels generalizing first with
  | nil => rfl
  | cons rel rels ih => simp [classedAtoms, ih]

/-- The classes read off a body: those of the columns its keys unite. -/
structure Reads (read : BodyClasses) (rels : List RelId) (pairs : List (Nat × Nat))
    (heads : List Nat) (cls : Nat → Nat) : Prop where
  agrees : ∀ {V : Type} (v : Nat → V),
    (∀ x, v x = v (cls x)) ↔ ∀ pair ∈ pairs, v pair.1 = v pair.2
  idem : ∀ x, cls (cls x) = cls x
  range : ∀ k ∈ heads, k < 2 * rels.length
  heads_eq : read.heads = heads.map cls
  nodup : read.heads.Nodup
  length_eq : read.atoms.length = rels.length
  atom_eq : ∀ i, read.atoms[i]?
    = rels[i]?.map fun rel => ClassedAtom.mk rel (cls (ac i 0), cls (ac i 1))

theorem bodyClasses_reads {rels : List RelId} {pairs : List (Nat × Nat)}
    {columns : List ProjectExpr} {read : BodyClasses}
    (h : bodyClasses rels pairs columns = some read)
    (range : ∀ pair ∈ pairs, pair.1 < 2 * rels.length ∧ pair.2 < 2 * rels.length)
    : ∃ (heads : List Nat) (cls : Nat → Nat),
        columns = heads.map .column ∧ Reads read rels pairs heads cls := by
  have hforest := UnionFind.forest_unionAll range
  obtain ⟨hroots, -, hroot⟩ := hforest.findAll (List.range (2 * rels.length))
  simp only [bodyClasses, columnClasses, Option.map_eq_some_iff] at h
  obtain ⟨classes, h, rfl⟩ := h
  split at h
  · simp at h
  · split at h
    · simp at h
    · next heads hm =>
        split at h
        · next hn =>
            obtain rfl := Option.some.inj h
            have hfor := forall₂_of_mapM_some hm
            have hcols : ∃ ks : List Nat, columns = ks.map .column
                ∧ (∀ k ∈ ks, k < 2 * rels.length)
                ∧ heads = ks.map (UnionFind.root (UnionFind.unionAll
                  (UnionFind.singletons (2 * rels.length)) pairs)) := by
              clear h hm hn
              induction hfor with
              | nil => exact ⟨[], rfl, by simp, rfl⟩
              | cons hhead _ ih =>
                  obtain ⟨k, hk, rfl, rfl⟩ := headClass_eq_some hhead
                  obtain ⟨ks, rfl, hks, rfl⟩ := ih
                  exact ⟨k :: ks, rfl, by simpa using ⟨hk, hks⟩, by simp [hroot]⟩
            obtain ⟨ks, rfl, hks, rfl⟩ := hcols
            refine ⟨ks, _, rfl, fun v => UnionFind.agrees_unionAll_iff range v,
              hforest.root_root, hks, rfl, hn, length_classedAtoms _ _ _, ?_⟩
            intro i
            rw [getElem?_classedAtoms, hroots]
            cases hi : rels[i]? with
            | none => rfl
            | some rel =>
                have hlt := (List.getElem?_eq_some_iff.mp hi).1
                have h0 : ac i 0 < 2 * rels.length := by simp only [ac]; omega
                have h1 : ac i 1 < 2 * rels.length := by simp only [ac]; omega
                simp [List.getD_eq_getElem?_getD, h0, h1]
        · simp at h

-- Edges

/-- The atom lies on the edge of this index. -/
def OnEdge (edges : List (Nat × Nat)) (heads : List Nat) (atom : ClassedAtom) (i : Nat) : Prop :=
  edgeOf edges heads atom.classes = some i

/-- Assigning atoms to edges keeps the older relations or takes an atom's, by list induction. -/
theorem assignEdges_spec {edges : List (Nat × Nat)} {heads : List Nat}
    {atoms : List ClassedAtom} {start out : List (Option RelId)}
    (h : assignEdges edges heads atoms start = some out)
    : out.length = start.length
      ∧ (∀ atom ∈ atoms, ∃ i, OnEdge edges heads atom i)
      ∧ ∀ i rel, out[i]? = some (some rel) →
        start[i]? = some (some rel) ∨ ∃ atom ∈ atoms, OnEdge edges heads atom i ∧ atom.rel = rel := by
  induction atoms generalizing start with
  | nil =>
      obtain rfl := Option.some.inj h
      exact ⟨rfl, by simp, fun i rel hi => .inl hi⟩
  | cons atom atoms ih =>
      rw [assignEdges] at h
      split at h
      · simp at h
      · next edge hedge =>
          obtain ⟨hlen, hon, hrel⟩ := ih h
          refine ⟨by simpa using hlen, List.forall_mem_cons.mpr ⟨⟨edge, hedge⟩, hon⟩, ?_⟩
          intro i rel hi
          rcases hrel i rel hi with hset | ⟨a, ha, hia, hra⟩
          · rw [List.getElem?_set] at hset
            split at hset
            · next heq =>
                subst heq
                split at hset
                · exact .inr ⟨atom, by simp, hedge, by simpa using hset⟩
                · simp at hset
            · exact .inl hset
          · exact .inr ⟨a, by simp [ha], hia, hra⟩

/-- Every edge has one atom: as many atoms as edges cover all of them. -/
theorem inferRels_spec {edges : List (Nat × Nat)} {read : BodyClasses} {rels : List RelId}
    (h : inferRels edges read = some rels) (hlen : read.atoms.length = edges.length)
    : rels.length = edges.length
      ∧ (∀ i < edges.length, ∃ atom ∈ read.atoms,
        OnEdge edges read.heads atom i ∧ rels[i]? = some atom.rel)
      ∧ ∀ atom ∈ read.atoms, ∃ i, OnEdge edges read.heads atom i ∧ rels[i]? = some atom.rel := by
  simp only [inferRels, Option.bind_eq_some_iff] at h
  obtain ⟨out, ha, hm⟩ := h
  obtain ⟨hout, hon, hrel⟩ := assignEdges_spec ha
  have hfor := forall₂_of_mapM_some hm
  have hsize : rels.length = edges.length := by
    rw [← hfor.length_eq, hout, List.length_replicate]
  have hcover : ∀ i < edges.length, ∃ atom ∈ read.atoms,
      OnEdge edges read.heads atom i ∧ rels[i]? = some atom.rel := by
    intro i hi
    have hr : i < rels.length := by omega
    have ho : i < out.length := by rw [hfor.length_eq]; exact hr
    have hget : out[i]? = some (some rels[i]) := by
      rw [List.getElem?_eq_getElem ho]
      exact congrArg some (hfor.get ho hr)
    rcases hrel i rels[i] hget with hstart | ⟨atom, hmem, hi', hrel'⟩
    · simp [List.getElem?_replicate] at hstart
    · exact ⟨atom, hmem, hi', by rw [List.getElem?_eq_getElem hr, hrel']⟩
  refine ⟨hsize, hcover, ?_⟩
  -- the edge indices of the atoms cover a range of their own length, so they are distinct
  have hnodup : (read.atoms.map fun atom => edgeOf edges read.heads atom.classes).Nodup := by
    have hsub : (List.range edges.length).map some
        ⊆ read.atoms.map fun atom => edgeOf edges read.heads atom.classes := by
      intro x hx
      obtain ⟨i, hi, rfl⟩ := List.mem_map.mp hx
      obtain ⟨atom, hmem, hi', -⟩ := hcover i (List.mem_range.mp hi)
      exact List.mem_map.mpr ⟨atom, hmem, hi'⟩
    have hrange : ((List.range edges.length).map some).Nodup :=
      List.nodup_range.map (Option.some_injective _)
    have hperm := (hrange.subperm hsub).perm_of_length_le (by simp [hlen])
    exact hperm.nodup_iff.mp hrange
  intro atom hatom
  obtain ⟨i, hi⟩ := hon atom hatom
  have hlt : i < edges.length := by
    obtain ⟨hlt, -⟩ := List.findIdx?_eq_some_iff_getElem.mp hi
    exact hlt
  obtain ⟨other, hmem, hi', hr⟩ := hcover i hlt
  have hsame : other = atom :=
    List.inj_on_of_nodup_map hnodup hmem hatom (hi'.trans hi.symm)
  exact ⟨i, hi, hsame ▸ hr⟩

end Xlog.Logic
