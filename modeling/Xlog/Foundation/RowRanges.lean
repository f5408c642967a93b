import Mathlib.Algebra.BigOperators.Ring.List
import Mathlib.Data.List.Dedup
import Mathlib.Data.List.Sections

/-! Sorted rows as tries: the rows below a key, which is a prefix of them, and the number of ways to choose
one row of each table.
-/

namespace Xlog.Foundation

variable {V : Type*} [DecidableEq V]

/-- The rows that start with the key, without it. -/
def refine (rows : List (List V)) (key : List V) : List (List V) :=
  rows.filterMap fun row =>
    if row.take key.length = key then some (row.drop key.length) else none

theorem mem_refine {rows : List (List V)} {key rest : List V}
    : rest ∈ refine rows key ↔ key ++ rest ∈ rows := by
  simp only [refine, List.mem_filterMap, Option.ite_none_right_eq_some, Option.some.injEq]
  constructor
  · rintro ⟨row, hrow, htake, rfl⟩
    have hsplit := List.take_append_drop key.length row
    rw [htake] at hsplit
    rwa [hsplit]
  · intro hmem
    exact ⟨key ++ rest, hmem, List.take_left, List.drop_left⟩

@[simp] theorem refine_nil (rows : List (List V))
    : refine rows [] = rows := by
  simp [refine]

/-- A key is followed part by part. -/
theorem refine_append (rows : List (List V)) (key key' : List V)
    : refine rows (key ++ key') = refine (refine rows key) key' := by
  unfold refine
  rw [List.filterMap_filterMap]
  refine List.filterMap_congr fun row _ => ?_
  rw [List.length_append, List.take_add, ← List.drop_drop]
  by_cases htake : row.take key.length = key
  · simp [htake]
  · have hno : ¬ row.take key.length ++ (row.drop key.length).take key'.length = key ++ key' := by
      intro happend
      by_cases hlong : key.length ≤ row.length
      · exact htake (List.append_inj happend (List.length_take_of_le hlong)).1
      · have hshort : row.drop key.length = [] := List.drop_eq_nil_of_le (by omega)
        have hlength := congrArg List.length happend
        simp only [hshort, List.take_nil, List.append_nil, List.length_take,
          List.length_append] at hlength
        omega
    simp [htake, hno]

/-- There are as many rows below a key as rows that start with it. -/
theorem length_refine (rows : List (List V)) (key : List V)
    : (refine rows key).length = (rows.filter fun row => row.take key.length = key).length := by
  induction rows with
  | nil => rfl
  | cons row rows ih =>
    unfold refine at ih ⊢
    by_cases htake : row.take key.length = key
    · simp [htake, ih]
    · simp [htake, ih]

/-- The keys of a length that some row starts with, each once. -/
def nextKeys (rows : List (List V)) (length : Nat) : List (List V) :=
  (rows.map (List.take length)).dedup

/-- A key of rows that are long enough is one with rows below it. -/
theorem mem_nextKeys {rows : List (List V)} {length : Nat}
    (hlong : ∀ row ∈ rows, length ≤ row.length) {key : List V}
    : key ∈ nextKeys rows length ↔ key.length = length ∧ refine rows key ≠ [] := by
  simp only [nextKeys, List.mem_dedup, List.mem_map, ne_eq, List.eq_nil_iff_forall_not_mem,
    not_forall, not_not, mem_refine]
  constructor
  · rintro ⟨row, hrow, rfl⟩
    exact ⟨List.length_take_of_le (hlong row hrow), row.drop length,
      by rwa [List.take_append_drop]⟩
  · rintro ⟨rfl, rest, hrow⟩
    exact ⟨key ++ rest, hrow, List.take_left⟩

theorem nodup_nextKeys (rows : List (List V)) (length : Nat)
    : (nextKeys rows length).Nodup :=
  List.nodup_dedup _

-- Choices

theorem lookup_zip_of_not_mem {V : Type*} {columns : List Nat} {v : Nat} (hv : v ∉ columns)
    {row : List V}
    : (columns.zip row).lookup v = none := by
  rw [List.lookup_eq_none_iff]
  intro entry hentry
  exact bne_iff_ne.mpr fun heq => hv (heq ▸ (List.of_mem_zip hentry).1)

/-- The values of distinct columns are found again. -/
theorem map_lookup_zip {V : Type*} {columns : List Nat} {row : List V} (hnodup : columns.Nodup)
    (hlength : columns.length = row.length)
    : columns.map (fun v => (columns.zip row).lookup v) = row.map some := by
  induction columns generalizing row with
  | nil => simp [List.length_eq_zero_iff.mp hlength.symm]
  | cons v columns ih =>
    obtain ⟨hfresh, hnodup⟩ := List.nodup_cons.mp hnodup
    cases row with
    | nil => simp at hlength
    | cons x row =>
      have hrest : columns.map (fun w => ((v :: columns).zip (x :: row)).lookup w)
          = columns.map fun w => (columns.zip row).lookup w := by
        refine List.map_congr_left fun w hw => ?_
        have hne : (w == v) = false := beq_false_of_ne fun heq => hfresh (heq ▸ hw)
        simp [List.lookup_cons, hne]
      rw [List.map_cons, hrest, ih hnodup (by simpa using hlength)]
      simp

theorem lookup_zip_isSome {V : Type*} {columns : List Nat} {row : List V} (hnodup : columns.Nodup)
    (hlength : columns.length = row.length) {v : Nat} (hv : v ∈ columns)
    : ((columns.zip row).lookup v).isSome = true := by
  obtain ⟨x, -, hx⟩ := List.mem_map.mp
    (map_lookup_zip hnodup hlength ▸ List.mem_map_of_mem hv)
  simp [← hx]

/-- One row of each table can be chosen in as many ways as their lengths multiply to. -/
theorem length_sections {α : Type*} (tables : List (List α))
    : (List.sections tables).length = (tables.map List.length).prod := by
  induction tables with
  | nil => rfl
  | cons table tables ih =>
    have hmap : ∀ choice ∈ List.sections tables,
        (table.map fun row => row :: choice).length = table.length :=
      fun choice _ => List.length_map _
    rw [List.sections, List.length_flatMap, List.map_congr_left hmap, List.map_const',
      List.sum_replicate_nat, ih, List.map_cons, List.prod_cons, Nat.mul_comm]

theorem nodup_sections {α : Type*} {tables : List (List α)}
    (h : ∀ table ∈ tables, table.Nodup)
    : (List.sections tables).Nodup := by
  induction tables with
  | nil => exact List.nodup_singleton _
  | cons table tables ih =>
    obtain ⟨htable, htables⟩ := List.forall_mem_cons.mp h
    rw [List.sections, List.nodup_flatMap]
    constructor
    · intro choice _
      exact htable.map fun row row' heq => (List.cons.inj heq).1
    · refine (ih htables).imp fun hne => ?_
      refine List.disjoint_iff_ne.mpr ?_
      intro left hleft right hright heq
      obtain ⟨row, -, rfl⟩ := List.mem_map.mp hleft
      obtain ⟨row', -, rfl⟩ := List.mem_map.mp hright
      exact hne (List.cons.inj heq).2

/-- Values for the columns of several tables can be chosen apart when no column occurs twice. -/
theorem exists_values {V : Type*} [Nonempty V] {tables : List (List Nat × List V)}
    (hnodup : (tables.flatMap Prod.fst).Nodup)
    (hlength : ∀ table ∈ tables, table.1.length = table.2.length)
    : ∃ values : Nat → V, ∀ table ∈ tables, table.1.map values = table.2 := by
  induction tables with
  | nil =>
    obtain ⟨default⟩ := ‹Nonempty V›
    exact ⟨fun _ => default, by simp⟩
  | cons table tables ih =>
    obtain ⟨hfirst, hlength⟩ := List.forall_mem_cons.mp hlength
    rw [List.flatMap_cons, List.nodup_append] at hnodup
    obtain ⟨hcolumns, hrest, hapart⟩ := hnodup
    obtain ⟨values, hvalues⟩ := ih hrest hlength
    refine ⟨fun v => ((table.1.zip table.2).lookup v).getD (values v),
      List.forall_mem_cons.mpr ⟨?_, fun other hother => ?_⟩⟩
    · refine (List.map_inj_right fun _ _ => Option.some.inj).mp ?_
      rw [List.map_map, ← map_lookup_zip hcolumns hfirst]
      refine List.map_congr_left fun v hv => ?_
      obtain ⟨x, hx⟩ := Option.isSome_iff_exists.mp (lookup_zip_isSome hcolumns hfirst hv)
      simp [hx]
    · rw [← hvalues other hother]
      refine List.map_congr_left fun v hv => ?_
      have hno : v ∉ table.1 := fun hmem =>
        hapart v hmem v (List.mem_flatMap.mpr ⟨other, hother, hv⟩) rfl
      rw [lookup_zip_of_not_mem hno]
      rfl

end Xlog.Foundation
