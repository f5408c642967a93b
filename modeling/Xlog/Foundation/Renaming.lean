import Mathlib
import Xlog.Foundation.Loop

/-! Renaming the keys of ordered tables along a table of new names, and the names that the
positions of a list give to its items.
-/

namespace Xlog.Foundation

section Tables

variable {κ : Type*} {ν : Type*} [Ord κ]

/-- The new name of a key; a key without one keeps its own. -/
def nameOf (names : Std.TreeMap κ κ) (key : κ) : κ := names[key]?.getD key

/-- An entry under its key's new name. -/
def renameEntry (names : Std.TreeMap κ κ) (entry : κ × ν) : Option (κ × ν) :=
  names[entry.1]?.map fun name => (name, entry.2)

/-- A table under the new names of its keys; it fails at a key without one. -/
def renameKeys (names : Std.TreeMap κ κ) (table : Std.TreeMap κ ν)
    : Option (Std.TreeMap κ ν) :=
  (table.toList.mapM (renameEntry names)).map fun entries => Std.TreeMap.ofList entries

variable [Std.TransOrd κ] {names : Std.TreeMap κ κ}

theorem getElem?_eq_nameOf {key : κ} (h : key ∈ names)
    : names[key]? = some (nameOf names key) := by
  obtain ⟨name, hname⟩ := Option.isSome_iff_exists.mp (Std.TreeMap.mem_iff_isSome_getElem?.mp h)
  rw [nameOf, hname, Option.getD_some]

variable [Std.LawfulEqOrd κ] {table : Std.TreeMap κ ν}

theorem mem_of_mem_toList {entry : κ × ν} (h : entry ∈ table.toList)
    : entry.1 ∈ table := by
  rw [Std.TreeMap.mem_iff_isSome_getElem?, Std.TreeMap.mem_toList_iff_getElem?_eq_some.mp h]
  rfl

theorem mem_toList_of_mem {key : κ} (h : key ∈ table)
    : (key, table[key]) ∈ table.toList :=
  Std.TreeMap.mem_toList_iff_getElem?_eq_some.mpr (Std.TreeMap.getElem?_eq_some_getElem h)

/-- When every key has a name the renamed table holds the renamed entries. -/
theorem renameKeys_of_named (named : ∀ key ∈ table, key ∈ names)
    : renameKeys names table
      = some (Std.TreeMap.ofList
          (table.toList.map fun entry => (nameOf names entry.1, entry.2))) := by
  have hall : ∀ entry ∈ table.toList,
      renameEntry names entry = some (nameOf names entry.1, entry.2) := by
    intro entry he
    rw [renameEntry, getElem?_eq_nameOf (named entry.1 (mem_of_mem_toList he)), Option.map_some]
  rw [renameKeys, mapM_some _ _ hall, Option.map_some]

/-- Renaming succeeds exactly when every key has a name. -/
theorem isSome_renameKeys
    : (renameKeys names table).isSome ↔ ∀ key ∈ table, key ∈ names := by
  constructor
  · intro h key hkey
    rw [renameKeys, Option.isSome_map] at h
    obtain ⟨results, hresults⟩ := Option.isSome_iff_exists.mp h
    obtain ⟨result, _, hresult⟩ := exists_result_of_mapM_some hresults (mem_toList_of_mem hkey)
    rw [renameEntry, Option.map_eq_some_iff] at hresult
    obtain ⟨name, hname, _⟩ := hresult
    rw [Std.TreeMap.mem_iff_isSome_getElem?, hname]
    rfl
  · intro named
    rw [renameKeys_of_named named]
    rfl

section Renamed

variable [DecidableEq κ] {renamed : Std.TreeMap κ ν}

/-- The keys of a renamed table are the names of the old keys. -/
theorem mem_renameKeys (h : renameKeys names table = some renamed) {name : κ}
    : name ∈ renamed ↔ ∃ key ∈ table, nameOf names key = name := by
  have named := isSome_renameKeys.mp (by rw [h]; rfl)
  rw [renameKeys_of_named named] at h
  obtain rfl := Option.some.inj h
  rw [Std.TreeMap.mem_ofList]
  simp only [List.map_map, List.contains_iff_mem, List.mem_map, Function.comp_apply]
  constructor
  · rintro ⟨entry, he, hname⟩
    exact ⟨entry.1, mem_of_mem_toList he, hname⟩
  · rintro ⟨key, hkey, hname⟩
    exact ⟨(key, table[key]), mem_toList_of_mem hkey, hname⟩

/-- Under distinct names a renamed table finds at a name what the table finds at the key. -/
theorem getElem?_renameKeys (h : renameKeys names table = some renamed)
    (apart : Set.InjOn (nameOf names) {key | key ∈ names}) {key : κ} (hkey : key ∈ names)
    : renamed[nameOf names key]? = table[key]? := by
  have named := isSome_renameKeys.mp (by rw [h]; rfl)
  by_cases hin : key ∈ table
  · rw [renameKeys_of_named named] at h
    obtain rfl := Option.some.inj h
    rw [Std.TreeMap.getElem?_eq_some_getElem hin]
    apply Std.TreeMap.getElem?_ofList_of_mem (k := nameOf names key)
    · exact Std.ReflCmp.compare_self
    · rw [List.pairwise_map]
      apply List.Pairwise.imp_of_mem _ Std.TreeMap.distinct_keys_toList
      intro one two hone htwo hne heq
      apply hne
      rw [Std.LawfulEqCmp.compare_eq_iff_eq] at heq ⊢
      exact apart (named _ (mem_of_mem_toList hone)) (named _ (mem_of_mem_toList htwo)) heq
    · exact List.mem_map.mpr ⟨(key, table[key]), mem_toList_of_mem hin, rfl⟩
  · have hout : nameOf names key ∉ renamed := by
      intro hmem
      obtain ⟨other, hother, heq⟩ := (mem_renameKeys h).mp hmem
      exact hin (apart (named other hother) hkey heq ▸ hother)
    rw [Std.TreeMap.getElem?_eq_none hout, Std.TreeMap.getElem?_eq_none hin]

end Renamed

end Tables

-- Positions as names

/-- The names of the items of a list: their positions, as numbers of a given width. -/
def positionNames (width : Nat) (order : List Nat) : Std.TreeMap Nat Nat :=
  Std.TreeMap.ofList (order.zipIdx.map fun entry => (entry.1, entry.2 % 2 ^ width))

theorem mem_positionNames {width : Nat} {order : List Nat} {item : Nat}
    : item ∈ positionNames width order ↔ item ∈ order := by
  rw [positionNames, Std.TreeMap.mem_ofList, List.map_map]
  simp [Function.comp_def]

/-- Different numbers of a width are at most as many as there are. -/
theorem length_le_of_nodup {width : Nat} {order : List Nat} (distinct : order.Nodup)
    (fits : ∀ item ∈ order, item < 2 ^ width)
    : order.length ≤ 2 ^ width := by
  have hsub : order ⊆ List.range (2 ^ width) := fun item hi => List.mem_range.mpr (fits item hi)
  have hle := (distinct.subperm hsub).length_le
  rwa [List.length_range] at hle

section Positions

variable {width : Nat} {order : List Nat} (distinct : order.Nodup)
  (fits : ∀ item ∈ order, item < 2 ^ width)
include distinct fits

theorem nameOf_positionNames {i : Nat} (hi : i < order.length)
    : nameOf (positionNames width order) order[i] = i := by
  have hlt := length_le_of_nodup distinct fits
  have hfound : (positionNames width order)[order[i]]? = some (i % 2 ^ width) := by
    apply Std.TreeMap.getElem?_ofList_of_mem (k := order[i])
    · exact Std.ReflCmp.compare_self
    · have hkeys : (order.zipIdx.map Prod.fst).Pairwise (· ≠ ·) := by
        rwa [List.zipIdx_map_fst]
      rw [List.pairwise_map] at hkeys ⊢
      exact hkeys.imp fun hne heq => hne (Std.LawfulEqCmp.compare_eq_iff_eq.mp heq)
    · exact List.mem_map.mpr ⟨(order[i], i), List.mk_mem_zipIdx_iff_getElem?.mpr
        (List.getElem?_eq_getElem hi), rfl⟩
  rw [nameOf, hfound, Option.getD_some, Nat.mod_eq_of_lt (by omega)]

/-- The names of distinct items are the positions, each once. -/
theorem bijOn_positionNames
    : Set.BijOn (nameOf (positionNames width order)) {item | item ∈ order}
        (Set.Iio order.length) := by
  have hname := fun i hi => @nameOf_positionNames width order distinct fits i hi
  refine ⟨?_, ?_, ?_⟩
  · intro item hitem
    obtain ⟨i, hi, rfl⟩ := List.mem_iff_getElem.mp hitem
    rw [hname i hi]
    exact hi
  · intro one hone two htwo heq
    obtain ⟨i, hi, rfl⟩ := List.mem_iff_getElem.mp hone
    obtain ⟨j, hj, rfl⟩ := List.mem_iff_getElem.mp htwo
    rw [hname i hi, hname j hj] at heq
    simp only [heq]
  · intro i hi
    exact ⟨order[i], List.getElem_mem hi, hname i hi⟩

end Positions

end Xlog.Foundation
