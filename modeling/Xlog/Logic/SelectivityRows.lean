import Mathlib.Tactic.IntervalCases
import Xlog.Ir.WellFormed
import Xlog.Logic.Selectivity

/-! The rows of the recognised bodies. A join of binary relations has the rows of the atoms
whose columns satisfy the united pairs; where every atom is oriented like its edge these are
the rows of the shape, whatever the order in which the atoms were joined.
-/

namespace Xlog.Logic

open Xlog.Ir Xlog.Foundation

variable {V : Type}

-- Rows of a shape

/-- Some row of the relation begins with the two values. -/
def HasEdge (db : Database V) (rel : RelId) (x y : V) : Prop :=
  ∃ rest, x :: y :: rest ∈ db rel

/-- A head row of a body: values of the atoms' columns that satisfy the united pairs. -/
def BodyRow (db : Database V) (rels : List RelId) (pairs : List (Nat × Nat))
    (heads : List Nat) (row : Row V) : Prop :=
  ∃ v : Nat → V,
    (∀ i rel, rels[i]? = some rel → HasEdge db rel (v (ac i 0)) (v (ac i 1)))
    ∧ (∀ pair ∈ pairs, v pair.1 = v pair.2)
    ∧ row = heads.map v

/-- A row of a shape: values of the variables with the edges in the relations. -/
def ShapeRow (db : Database V) (edges : List (Nat × Nat)) (size : Nat) (rels : List RelId)
    (row : Row V) : Prop :=
  ∃ w : Nat → V,
    (∀ (i : Nat) rel (edge : Nat × Nat), rels[i]? = some rel → edges[i]? = some edge →
      HasEdge db rel (w edge.1) (w edge.2))
    ∧ row = (List.range size).map w

/-- The classes of an edge's variables. -/
def endpoints (heads : List Nat) (edge : Nat × Nat) : Nat × Nat :=
  (heads.getD edge.1 0, heads.getD edge.2 0)

/-- Every atom lists its two variables in the direction of an edge. -/
def Canonical (edges : List (Nat × Nat)) (read : BodyClasses) : Prop :=
  ∀ atom ∈ read.atoms, atom.classes ∈ edges.map (endpoints read.heads)

/-- The edges join distinct variables, each pair in one direction only. -/
structure Oriented (edges : List (Nat × Nat)) (size : Nat) : Prop where
  lt : ∀ edge ∈ edges, edge.1 < size ∧ edge.2 < size
  irrefl : ∀ edge ∈ edges, edge.1 ≠ edge.2
  asymm : ∀ edge ∈ edges, (edge.2, edge.1) ∉ edges

theorem getD_inj {heads : List Nat} (hn : heads.Nodup) {i j : Nat} (hi : i < heads.length)
    (hj : j < heads.length)
    : heads.getD i 0 = heads.getD j 0 ↔ i = j := by
  simp only [List.getD_eq_getElem?_getD, List.getElem?_eq_getElem hi,
    List.getElem?_eq_getElem hj, Option.getD_some]
  exact hn.getElem_inj_iff

/-- An atom on an edge lists the edge's variables, in one direction or the other. -/
theorem OnEdge.classes {edges : List (Nat × Nat)} {heads : List Nat}
    (hn : heads.Nodup) (horiented : Oriented edges heads.length) {atom : ClassedAtom} {i : Nat}
    (h : OnEdge edges heads atom i)
    : ∃ edge ∈ edges, edges[i]? = some edge
      ∧ (atom.classes = endpoints heads edge ∨ atom.classes = (endpoints heads edge).swap) := by
  obtain ⟨hi, heq, -⟩ := List.findIdx?_eq_some_iff_getElem.mp h
  have hmem := List.getElem_mem hi
  refine ⟨edges[i], hmem, List.getElem?_eq_getElem hi, ?_⟩
  obtain ⟨h1, h2⟩ := horiented.lt _ hmem
  have hne := horiented.irrefl _ hmem
  have hmask := eq_of_beq heq
  have hat (k : Nat) (hk : k < heads.length) (hedge : k = edges[i].1 ∨ k = edges[i].2)
      : atom.classes.1 = heads[k] ∨ atom.classes.2 = heads[k] := by
    have hk' := congrArg (fun mask : List Bool => mask[k]?) hmask
    have htrue : (k == edges[i].1 || k == edges[i].2) = true := by simpa using hedge
    simp only [mentions, List.getElem?_map, List.getElem?_range hk, Option.map_some,
      List.getElem?_eq_getElem hk, htrue, Option.some.injEq] at hk'
    simpa using hk'.symm
  have hdistinct : heads[edges[i].1] ≠ heads[edges[i].2] := by
    rw [Ne, hn.getElem_inj_iff]
    exact hne
  have hends : endpoints heads edges[i] = (heads[edges[i].1], heads[edges[i].2]) := by
    simp [endpoints, List.getD_eq_getElem?_getD, h1, h2]
  rw [hends]
  rcases hat _ h1 (.inl rfl) with hfst | hfst
  · rcases hat _ h2 (.inr rfl) with hsnd | hsnd
    · exact absurd (hfst.symm.trans hsnd) hdistinct
    · exact .inl (Prod.ext hfst hsnd)
  · rcases hat _ h2 (.inr rfl) with hsnd | hsnd
    · exact .inr (Prod.ext hsnd hfst)
    · exact absurd (hfst.symm.trans hsnd) hdistinct

/-- A canonical atom lists the variables of its own edge in the edge's direction. -/
theorem OnEdge.classes_canonical {edges : List (Nat × Nat)} {heads : List Nat}
    (hn : heads.Nodup) (horiented : Oriented edges heads.length) {atom : ClassedAtom} {i : Nat}
    {edge : Nat × Nat} (h : OnEdge edges heads atom i) (hi : edges[i]? = some edge)
    (hcanon : atom.classes ∈ edges.map (endpoints heads))
    : atom.classes = endpoints heads edge := by
  obtain ⟨edge', hmem, hi', hclasses⟩ := h.classes hn horiented
  obtain rfl := Option.some.inj (hi.symm.trans hi')
  rcases hclasses with heq | heq
  · exact heq
  · obtain ⟨other, ho, hends⟩ := List.mem_map.mp hcanon
    have hswap := hends.trans heq
    simp only [endpoints, Prod.swap_prod_mk, Prod.mk.injEq] at hswap
    obtain ⟨h1, h2⟩ := horiented.lt edge hmem
    obtain ⟨ho1, ho2⟩ := horiented.lt other ho
    have hother : other = (edge.2, edge.1) :=
      Prod.ext ((getD_inj hn ho1 h2).mp hswap.1) ((getD_inj hn ho2 h1).mp hswap.2)
    exact absurd (hother ▸ ho) (horiented.asymm edge hmem)

-- Bodies and shapes

/-- The head variables are read off their classes. -/
theorem Reads.map_heads {read : BodyClasses} {rels : List RelId} {pairs : List (Nat × Nat)}
    {heads : List Nat} {cls : Nat → Nat} (hread : Reads read rels pairs heads cls)
    {v : Nat → V} (hv : ∀ x, v x = v (cls x))
    : heads.map v
      = (List.range read.heads.length).map fun i => v (read.heads.getD i 0) := by
  apply List.ext_getElem
  · simp [hread.heads_eq]
  · intro i hi hi'
    simp only [List.length_map] at hi
    simp only [List.getElem_map, List.getElem_range, hread.heads_eq]
    rw [hv, List.getD_eq_getElem?_getD, List.getElem?_map, List.getElem?_eq_getElem hi]
    rfl

/-- A body whose atoms are all oriented like their edges has the rows of its shape. -/
theorem bodyRow_iff_shapeRow {read : BodyClasses} {rels found : List RelId}
    {pairs edges : List (Nat × Nat)} {heads : List Nat} {cls : Nat → Nat}
    (hread : Reads read rels pairs heads cls) (hinfer : inferRels edges read = some found)
    (hlen : rels.length = edges.length) (horiented : Oriented edges read.heads.length)
    (hcanon : Canonical edges read) (db : Database V) (row : Row V)
    : BodyRow db rels pairs heads row ↔ ShapeRow db edges read.heads.length found row := by
  obtain ⟨hfound, hcover, hon⟩ := inferRels_spec hinfer (hread.length_eq.trans hlen)
  constructor
  · intro hbody
    obtain ⟨v, hedges, hpairs, rfl⟩ := hbody
    have hv := (hread.agrees v).mpr hpairs
    refine ⟨fun i => v (read.heads.getD i 0), ?_, hread.map_heads hv⟩
    intro i rel edge hrel hedge
    have hi : i < edges.length := (List.getElem?_eq_some_iff.mp hedge).1
    obtain ⟨atom, hmem, hat, hfrel⟩ := hcover i hi
    obtain rfl := Option.some.inj (hrel.symm.trans hfrel)
    have hclasses := hat.classes_canonical hread.nodup horiented hedge (hcanon atom hmem)
    obtain ⟨k, hk⟩ := List.mem_iff_getElem?.mp hmem
    rw [hread.atom_eq, Option.map_eq_some_iff] at hk
    obtain ⟨rel, hr, rfl⟩ := hk
    simp only [endpoints, Prod.mk.injEq] at hclasses
    simp only [← hclasses.1, ← hclasses.2, ← hv]
    exact hedges k rel hr
  · intro hshape
    obtain ⟨w, hedges, rfl⟩ := hshape
    have hv (x : Nat) : w (read.heads.idxOf (cls x)) = w (read.heads.idxOf (cls (cls x))) := by
      rw [hread.idem]
    have hidx (i : Nat) (hi : i < read.heads.length)
        : read.heads.idxOf (read.heads.getD i 0) = i := by
      rw [List.getD_eq_getElem?_getD, List.getElem?_eq_getElem hi, Option.getD_some]
      exact hread.nodup.idxOf_getElem i hi
    refine ⟨fun x => w (read.heads.idxOf (cls x)), ?_, (hread.agrees _).mp hv, ?_⟩
    · intro k rel hr
      have hk : read.atoms[k]? = some ⟨rel, cls (ac k 0), cls (ac k 1)⟩ := by
        rw [hread.atom_eq, hr]
        rfl
      have hmem := List.mem_iff_getElem?.mpr ⟨k, hk⟩
      obtain ⟨i, hat, hfrel⟩ := hon _ hmem
      obtain ⟨edge, hedge, hi, -⟩ := hat.classes hread.nodup horiented
      have hclasses := hat.classes_canonical hread.nodup horiented hi (hcanon _ hmem)
      simp only [endpoints, Prod.mk.injEq] at hclasses
      obtain ⟨h1, h2⟩ := horiented.lt edge hedge
      have hrow := hedges i rel edge hfrel hi
      simp only [hclasses.1, hclasses.2, hidx _ h1, hidx _ h2]
      exact hrow
    · rw [hread.map_heads hv]
      apply List.map_congr_left
      intro i hi
      have hlt := List.mem_range.mp hi
      have hfix : cls (read.heads.getD i 0) = read.heads.getD i 0 := by
        rw [hread.heads_eq, List.length_map] at hlt
        rw [hread.heads_eq, List.getD_eq_getElem?_getD, List.getElem?_map,
          List.getElem?_eq_getElem hlt]
        exact hread.idem _
      rw [hfix, hidx i hlt]

/-- The edges of a shape as the rows of every binary relation. -/
def edgeDatabase (arity : RelId → Nat) (edges : List (Nat × Nat)) (value : Nat → V)
    : Database V :=
  fun rel => if arity rel = 2 then edges.map fun edge => [value edge.1, value edge.2] else []

theorem fits_edgeDatabase (arity : RelId → Nat) (edges : List (Nat × Nat)) (value : Nat → V)
    : Fits arity (edgeDatabase arity edges value) := by
  intro rel row hr
  unfold edgeDatabase at hr
  split at hr
  · next ha =>
      obtain ⟨edge, -, rfl⟩ := List.mem_map.mp hr
      simpa using ha.symm
  · simp at hr

theorem hasEdge_edgeDatabase {arity : RelId → Nat} {edges : List (Nat × Nat)}
    {value : Nat → V} {rel : RelId} {x y : V}
    : HasEdge (edgeDatabase arity edges value) rel x y
      ↔ arity rel = 2 ∧ ∃ edge ∈ edges, value edge.1 = x ∧ value edge.2 = y := by
  simp only [HasEdge, edgeDatabase]
  split
  · next ha =>
      constructor
      · intro h
        obtain ⟨rest, hr⟩ := h
        obtain ⟨edge, he, heq⟩ := List.mem_map.mp hr
        simp only [List.cons.injEq] at heq
        exact ⟨ha, edge, he, heq.1, heq.2.1⟩
      · intro h
        obtain ⟨-, edge, he, rfl, rfl⟩ := h
        exact ⟨[], List.mem_map.mpr ⟨edge, he, rfl⟩⟩
  · next ha => simp [ha]

theorem shapeRow_edgeDatabase {arity : RelId → Nat} (edges : List (Nat × Nat)) (size : Nat)
    {rels : List RelId} (harity : ∀ rel ∈ rels, arity rel = 2) (value : Nat → V)
    : ShapeRow (edgeDatabase arity edges value) edges size rels
        ((List.range size).map value) := by
  refine ⟨value, ?_, rfl⟩
  intro i rel edge hrel hedge
  exact hasEdge_edgeDatabase.mpr
    ⟨harity rel (List.mem_of_getElem? hrel), edge, List.mem_of_getElem? hedge, rfl, rfl⟩

/-- On the database of its edges, a body with the row of distinct values is canonical. -/
theorem canonical_of_bodyRow {read : BodyClasses} {rels found : List RelId}
    {pairs edges : List (Nat × Nat)} {heads : List Nat} {cls : Nat → Nat}
    (hread : Reads read rels pairs heads cls) (hinfer : inferRels edges read = some found)
    (hlen : rels.length = edges.length) (horiented : Oriented edges read.heads.length)
    {arity : RelId → Nat} {value : Nat → V} (hinj : Function.Injective value)
    (hbody : BodyRow (edgeDatabase arity edges value) rels pairs heads
      ((List.range read.heads.length).map value))
    : Canonical edges read := by
  obtain ⟨v, hedges, hpairs, hrow⟩ := hbody
  have hv := (hread.agrees v).mpr hpairs
  rw [hread.map_heads hv] at hrow
  have hhead (i : Nat) (hi : i < read.heads.length) : v (read.heads.getD i 0) = value i :=
    (List.map_inj_left.mp hrow i (List.mem_range.mpr hi)).symm
  intro atom hmem
  obtain ⟨-, -, hon⟩ := inferRels_spec hinfer (hread.length_eq.trans hlen)
  obtain ⟨i, hat, -⟩ := hon atom hmem
  obtain ⟨edge, hedge, -, hclasses⟩ := hat.classes hread.nodup horiented
  obtain ⟨h1, h2⟩ := horiented.lt edge hedge
  obtain ⟨k, hk⟩ := List.mem_iff_getElem?.mp hmem
  rw [hread.atom_eq, Option.map_eq_some_iff] at hk
  obtain ⟨rel, hr, rfl⟩ := hk
  obtain ⟨-, other, ho, ho1, ho2⟩ := hasEdge_edgeDatabase.mp (hedges k rel hr)
  rw [hv] at ho1 ho2
  rcases hclasses with heq | heq
  · exact List.mem_map.mpr ⟨edge, hedge, heq.symm⟩
  · simp only [endpoints, Prod.swap_prod_mk, Prod.mk.injEq] at heq
    rw [heq.1, hhead _ h2] at ho1
    rw [heq.2, hhead _ h1] at ho2
    have hother : other = (edge.2, edge.1) := Prod.ext (hinj ho1) (hinj ho2)
    exact absurd (hother ▸ ho) (horiented.asymm edge hedge)

-- Denotations

section

variable [DecidableEq V] (scalars : Scalars V)

theorem mem_innerJoin {leftKeys rightKeys : List Nat} {rightWidth : Nat}
    {left right : Relation V} {row : Row V}
    : row ∈ joinRows scalars .inner leftKeys rightKeys rightWidth left right
      ↔ ∃ x ∈ left, ∃ y ∈ right, keysMatch leftKeys rightKeys x y = true ∧ x ++ y = row := by
  simp [joinRows, matching, and_assoc]

/-- Keys that are found match when their values do. -/
theorem keysMatch_iff {leftKeys rightKeys : List Nat} {left right : Row V} {f g : Nat → V}
    (hl : ∀ key ∈ leftKeys, left[key]? = some (f key))
    (hr : ∀ key ∈ rightKeys, right[key]? = some (g key))
    : keysMatch leftKeys rightKeys left right = true
      ↔ ∀ key ∈ leftKeys.zip rightKeys, f key.1 = g key.2 := by
  rw [keysMatch, List.all_eq_true]
  apply forall₂_congr
  intro key hmem
  obtain ⟨h1, h2⟩ := List.of_mem_zip hmem
  rw [hl _ h1, hr _ h2]
  simp

end

/-- The row of an atom: its two columns, then the ones the shape does not name. -/
def atomRow (v : Nat → V) (i : Nat) (rest : Row V) : Row V := v (ac i 0) :: v (ac i 1) :: rest

theorem atomRow_getElem? (v : Nat → V) (i : Nat) (rest : Row V) {k : Nat} (hk : k < 2)
    : (atomRow v i rest)[k]? = some (v (ac i k)) := by
  interval_cases k <;> rfl

/-- Behind an atom of two columns, the columns of two joined atoms are in their places. -/
theorem joined_getElem? (v : Nat → V) (i : Nat) (rest : Row V) {k : Nat} (hk : k < 4)
    : (atomRow v i [] ++ atomRow v (i + 1) rest)[k]? = some (v (ac i k)) := by
  interval_cases k
  · rfl
  · rfl
  · simp [atomRow, ac, Nat.add_mul]
  · simp [atomRow, ac, Nat.add_mul]

/-- The columns behind two joined atoms are in their places when the second has no others. -/
theorem concat_getElem? {v : Nat → V} {rest right : Row V} {size k : Nat}
    (hright : ∀ k < size, right[k]? = some (v (4 + k))) (hk : k < 4 + size)
    (hplace : rest = [] ∨ k < 4)
    : (atomRow v 0 [] ++ atomRow v 1 rest ++ right)[k]? = some (v k) := by
  by_cases hlt : k < 4
  · have hleft := joined_getElem? v 0 rest hlt
    rw [List.getElem?_append_left (List.getElem?_eq_some_iff.mp hleft).1, hleft]
    simp [ac]
  · obtain rfl := hplace.resolve_right hlt
    have hlen : (atomRow v 0 [] ++ atomRow v 1 []).length = 4 := rfl
    rw [List.getElem?_append_right (by omega), hlen, hright (k - 4) (by omega)]
    congr 2
    omega

/-- Rows of at least two columns are the atom rows of their leading values. -/
theorem exists_values (rows : List (Row V)) (fill : V) (h : ∀ row ∈ rows, 2 ≤ row.length)
    : ∃ v : Nat → V, ∀ i row, rows[i]? = some row → row = atomRow v i (row.drop 2) := by
  refine ⟨fun k => (rows.getD (k / 2) []).getD (k % 2) fill, ?_⟩
  intro i row hr
  have hlen := h row (List.mem_of_getElem? hr)
  match row, hlen with
  | x :: y :: rest, _ =>
      have h0 : i * 2 / 2 = i := by omega
      have h1 : (i * 2 + 1) / 2 = i := by omega
      have h2 : (i * 2 + 1) % 2 = 1 := by omega
      simp [atomRow, ac, List.getD_eq_getElem?_getD, h0, h1, h2, hr]

theorem hasEdge_atomRow {db : Database V} {rel : RelId} {v : Nat → V} {i : Nat} {row : Row V}
    (hr : row ∈ db rel) (heq : row = atomRow v i (row.drop 2))
    : HasEdge db rel (v (ac i 0)) (v (ac i 1)) :=
  ⟨row.drop 2, heq ▸ hr⟩

section

variable [DecidableEq V] (scalars : Scalars V) (kernels : Kernels V) (arity : RelId → Nat)
  {db : Database V}

omit [DecidableEq V] in
/-- The projection of the atoms' columns to the head columns. -/
theorem projectRow_atoms {v : Nat → V} {rest right : Row V} {size : Nat} {heads : List Nat}
    (hright : ∀ k < size, right[k]? = some (v (4 + k))) (hheads : ∀ k ∈ heads, k < 4 + size)
    (hplace : rest = [] ∨ ∀ k ∈ heads, k < 4)
    : projectRow scalars (heads.map .column)
        (atomRow v 0 [] ++ atomRow v 1 rest ++ right) = heads.map v := by
  rw [projectRow, List.map_map]
  apply List.map_congr_left
  intro k hk
  have hget := concat_getElem? hright (hheads k hk) (hplace.imp_right (· k hk))
  simp only [Function.comp, ProjectExpr.eval, List.getD_eq_getElem?_getD, hget, Option.getD_some]

theorem keysMatch_leaves {v : Nat → V} (i : Nat) {left right : Nat} (restL restR : Row V)
    (hl : left < 2) (hr : right < 2)
    : keysMatch [left] [right] (atomRow v i restL) (atomRow v (i + 1) restR) = true
      ↔ v (ac i left) = v (ac (i + 1) right) := by
  rw [keysMatch_iff (f := fun k => v (ac i k)) (g := fun k => v (ac (i + 1) k))
    (by simpa using atomRow_getElem? v i restL hl)
    (by simpa using atomRow_getElem? v (i + 1) restR hr)]
  simp

/-- Two keys of the first two atoms against two keys of what follows them. -/
theorem keysMatch_joined {v : Nat → V} {rest right : Row V} {size l l' r r' : Nat}
    (hright : ∀ k < size, right[k]? = some (v (4 + k)))
    (hl : l < 4) (hl' : l' < 4) (hr : r < size) (hr' : r' < size)
    : keysMatch [l, l'] [r, r'] (atomRow v 0 [] ++ atomRow v 1 rest) right = true
      ↔ v l = v (4 + r) ∧ v l' = v (4 + r') := by
  have hleft : ∀ k < 4, (atomRow v 0 [] ++ atomRow v 1 rest)[k]? = some (v k) := by
    intro k hk
    rw [joined_getElem? v 0 rest hk]
    simp [ac]
  rw [keysMatch_iff (f := v) (g := fun k => v (4 + k))
    (by simp [hleft l hl, hleft l' hl']) (by simp [hright r hr, hright r' hr'])]
  simp

/-- A left-deep body over binary relations has the rows its united columns describe; wider
relations are fine where no key or head column lies behind them.
-/
theorem mem_leftDeepBody (hfits : Fits arity db) {a b c : RelId}
    {lk2 rk2 lk1 lk1' rk1 rk1' : Nat} {heads : List Nat} {row : Row V}
    (hl2 : lk2 < 2) (hr2 : rk2 < 2) (hl1 : lk1 < 4) (hl1' : lk1' < 4) (hr1 : rk1 < 2)
    (hr1' : rk1' < 2) (hheads : ∀ k ∈ heads, k < 6)
    (ha : arity a = 2) (hb : 2 ≤ arity b) (hc : 2 ≤ arity c)
    (hplace : arity b = 2 ∨ ∀ k ∈ heads, k < 4)
    : row ∈ (leftDeepBody a b c lk2 rk2 (lk1, lk1') (rk1, rk1')
        (heads.map .column)).denote scalars kernels arity db
      ↔ BodyRow db [a, b, c]
        [(ac 0 lk2, ac 1 rk2), (lk1, ac 2 rk1), (lk1', ac 2 rk1')] heads row := by
  have hlast (v : Nat → V) (rest : Row V)
      : ∀ k < 2, (atomRow v 2 rest)[k]? = some (v (4 + k)) :=
    fun k hk => atomRow_getElem? v 2 rest hk
  -- what the keys and the projection say about rows given by their atoms' values
  have hkeys (v : Nat → V) (restB restC : Row V)
      : keysMatch [lk2] [rk2] (atomRow v 0 []) (atomRow v 1 restB) = true
        ∧ keysMatch [lk1, lk1'] [rk1, rk1'] (atomRow v 0 [] ++ atomRow v 1 restB)
          (atomRow v 2 restC) = true
        ↔ ∀ pair ∈ [(ac 0 lk2, ac 1 rk2), (lk1, ac 2 rk1), (lk1', ac 2 rk1')],
          v pair.1 = v pair.2 := by
    rw [keysMatch_leaves 0 [] restB hl2 hr2,
      keysMatch_joined (hlast v restC) hl1 hl1' hr1 hr1']
    simp [ac]
  simp only [leftDeepBody, RirNode.denote, List.mem_map]
  constructor
  · intro h
    obtain ⟨joined, hj, rfl⟩ := h
    obtain ⟨ab, hab, rc, hrc, hk1, rfl⟩ :=
      (mem_innerJoin scalars).mp hj
    obtain ⟨ra, hra, rb, hrb, hk2, rfl⟩ :=
      (mem_innerJoin scalars).mp hab
    obtain ⟨v, hv⟩ := exists_values [ra, rb, rc] scalars.null (by
      simp [hfits a ra hra, hfits b rb hrb, hfits c rc hrc, ha, hb, hc])
    have hva := hv 0 ra rfl
    have hvb := hv 1 rb rfl
    have hvc := hv 2 rc rfl
    have hdrop : ra.drop 2 = [] := by simp [hfits a ra hra, ha]
    rw [hdrop] at hva
    refine ⟨v, ?_, ?_, ?_⟩
    · intro i rel hi
      match i with
      | 0 => exact Option.some.inj hi ▸ hasEdge_atomRow hra (hv 0 ra rfl)
      | 1 => exact Option.some.inj hi ▸ hasEdge_atomRow hrb hvb
      | 2 => exact Option.some.inj hi ▸ hasEdge_atomRow hrc hvc
    · apply (hkeys v (rb.drop 2) (rc.drop 2)).mp
      rw [← hva, ← hvb, ← hvc]
      exact ⟨hk2, hk1⟩
    · have hpr := projectRow_atoms scalars (hlast v (rc.drop 2)) hheads
        (hplace.imp_left fun h2 => by
          show rb.drop 2 = []
          simp [hfits b rb hrb, h2])
      rwa [← hva, ← hvb, ← hvc] at hpr
  · intro h
    obtain ⟨v, hedges, hpairs, rfl⟩ := h
    obtain ⟨restA, hra⟩ := hedges 0 a rfl
    obtain ⟨restB, hrb⟩ := hedges 1 b rfl
    obtain ⟨restC, hrc⟩ := hedges 2 c rfl
    have hlenA := hfits a _ hra
    have hlenB := hfits b _ hrb
    obtain rfl : restA = [] := by simpa [ha] using hlenA
    obtain ⟨hk2, hk1⟩ := (hkeys v restB restC).mpr hpairs
    refine ⟨_, (mem_innerJoin scalars).mpr
      ⟨_, (mem_innerJoin scalars).mpr
        ⟨_, hra, _, hrb, hk2, rfl⟩, _, hrc, hk1, rfl⟩, ?_⟩
    exact projectRow_atoms scalars (hlast v restC) hheads
      (hplace.imp_left fun h2 => by simpa [h2] using hlenB)

/-- A bushy body of two joined pairs, all binary but the last relation, has the rows its
united columns describe.
-/
theorem mem_bushyBody (hfits : Fits arity db) {a b c d : RelId}
    {ilkL irkL ilkR irkR olk olk' ork ork' : Nat} {heads : List Nat} {row : Row V}
    (hil : ilkL < 2) (hir : irkL < 2) (hjl : ilkR < 2) (hjr : irkR < 2)
    (hol : olk < 4) (hol' : olk' < 4) (hor : ork < 4) (hor' : ork' < 4)
    (hheads : ∀ k ∈ heads, k < 8)
    (ha : arity a = 2) (hb : arity b = 2) (hc : arity c = 2) (hd : 2 ≤ arity d)
    : row ∈ (bushyBody a b c d ilkL irkL ilkR irkR (olk, olk') (ork, ork')
        (heads.map .column)).denote scalars kernels arity db
      ↔ BodyRow db [a, b, c, d]
        [(ac 0 ilkL, ac 1 irkL), (ac 2 ilkR, ac 3 irkR), (olk, ac 2 ork), (olk', ac 2 ork')]
        heads row := by
  have hlast (v : Nat → V) (rest : Row V)
      : ∀ k < 4, (atomRow v 2 [] ++ atomRow v 3 rest)[k]? = some (v (4 + k)) :=
    fun k hk => joined_getElem? v 2 rest hk
  have hkeys (v : Nat → V) (restB restD : Row V)
      : keysMatch [ilkL] [irkL] (atomRow v 0 []) (atomRow v 1 restB) = true
        ∧ keysMatch [ilkR] [irkR] (atomRow v 2 []) (atomRow v 3 restD) = true
        ∧ keysMatch [olk, olk'] [ork, ork'] (atomRow v 0 [] ++ atomRow v 1 restB)
          (atomRow v 2 [] ++ atomRow v 3 restD) = true
        ↔ ∀ pair ∈ [(ac 0 ilkL, ac 1 irkL), (ac 2 ilkR, ac 3 irkR), (olk, ac 2 ork),
          (olk', ac 2 ork')], v pair.1 = v pair.2 := by
    rw [keysMatch_leaves 0 [] restB hil hir, keysMatch_leaves 2 [] restD hjl hjr,
      keysMatch_joined (hlast v restD) hol hol' hor hor']
    simp [ac]
  simp only [bushyBody, RirNode.denote, List.mem_map]
  constructor
  · intro h
    obtain ⟨joined, hj, rfl⟩ := h
    obtain ⟨ab, hab, cd, hcd, hk, rfl⟩ :=
      (mem_innerJoin scalars).mp hj
    obtain ⟨ra, hra, rb, hrb, hkl, rfl⟩ :=
      (mem_innerJoin scalars).mp hab
    obtain ⟨rc, hrc, rd, hrd, hkr, rfl⟩ :=
      (mem_innerJoin scalars).mp hcd
    obtain ⟨v, hv⟩ := exists_values [ra, rb, rc, rd] scalars.null (by
      simp [hfits a ra hra, hfits b rb hrb, hfits c rc hrc, hfits d rd hrd, ha, hb, hc, hd])
    have hva := hv 0 ra rfl
    have hvb := hv 1 rb rfl
    have hvc := hv 2 rc rfl
    have hvd := hv 3 rd rfl
    have hdropA : ra.drop 2 = [] := by simp [hfits a ra hra, ha]
    have hdropB : rb.drop 2 = [] := by simp [hfits b rb hrb, hb]
    have hdropC : rc.drop 2 = [] := by simp [hfits c rc hrc, hc]
    rw [hdropA] at hva
    rw [hdropB] at hvb
    rw [hdropC] at hvc
    refine ⟨v, ?_, ?_, ?_⟩
    · intro i rel hi
      match i with
      | 0 => exact Option.some.inj hi ▸ hasEdge_atomRow hra (hv 0 ra rfl)
      | 1 => exact Option.some.inj hi ▸ hasEdge_atomRow hrb (hv 1 rb rfl)
      | 2 => exact Option.some.inj hi ▸ hasEdge_atomRow hrc (hv 2 rc rfl)
      | 3 => exact Option.some.inj hi ▸ hasEdge_atomRow hrd hvd
    · apply (hkeys v [] (rd.drop 2)).mp
      rw [← hva, ← hvb, ← hvc, ← hvd]
      exact ⟨hkl, hkr, hk⟩
    · have hpr := projectRow_atoms scalars (hlast v (rd.drop 2)) hheads
        (.inl rfl)
      rwa [← hva, ← hvb, ← hvc, ← hvd] at hpr
  · intro h
    obtain ⟨v, hedges, hpairs, rfl⟩ := h
    obtain ⟨restA, hra⟩ := hedges 0 a rfl
    obtain ⟨restB, hrb⟩ := hedges 1 b rfl
    obtain ⟨restC, hrc⟩ := hedges 2 c rfl
    obtain ⟨restD, hrd⟩ := hedges 3 d rfl
    have hlenA := hfits a _ hra
    have hlenB := hfits b _ hrb
    have hlenC := hfits c _ hrc
    obtain rfl : restA = [] := by simpa [ha] using hlenA
    obtain rfl : restB = [] := by simpa [hb] using hlenB
    obtain rfl : restC = [] := by simpa [hc] using hlenC
    obtain ⟨hkl, hkr, hk⟩ := (hkeys v [] restD).mpr hpairs
    refine ⟨_, (mem_innerJoin scalars).mpr
      ⟨_, (mem_innerJoin scalars).mpr ⟨_, hra, _, hrb, hkl, rfl⟩,
        _, (mem_innerJoin scalars).mpr ⟨_, hrc, _, hrd, hkr, rfl⟩,
        hk, rfl⟩, ?_⟩
    exact projectRow_atoms scalars (hlast v restD) hheads (.inl rfl)

end

end Xlog.Logic
