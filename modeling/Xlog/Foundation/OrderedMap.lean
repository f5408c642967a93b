import Mathlib.Data.List.Sort
import Xlog.Foundation.Assoc

/-! Maps kept as lists in the order of their keys. What they find does not depend on the order.
-/

namespace Xlog.Foundation

variable {κ : Type*} {ν : Type*} [DecidableEq κ]

/-- The value of a key. -/
abbrev findEntry (entries : List (κ × ν)) (key : κ) : Option ν := entries.lookup key

/-- Assign a value to a key: in place when the key is there, else where it belongs. -/
def insertEntry (le : κ → κ → Bool) (entries : List (κ × ν)) (key : κ) (value : ν)
    : List (κ × ν) :=
  if (findEntry entries key).isSome then
    entries.map fun entry => if entry.1 = key then (key, value) else entry
  else entries.orderedInsert (fun a b => le a.1 b.1 = true) (key, value)

/-- Assigning in place changes what the key finds, by list induction. -/
theorem lookup_map_assign {entries : List (κ × ν)} {key : κ} (value : ν)
    (found : (entries.lookup key).isSome) (other : κ)
    : (entries.map fun entry => if entry.1 = key then (key, value) else entry).lookup other
      = if other = key then some value else entries.lookup other := by
  induction entries with
  | nil => simp at found
  | cons head tail ih =>
      obtain ⟨k, v⟩ := head
      by_cases hk : k = key
      · subst hk
        by_cases ho : other = k
        · simp [ho]
        · have hb : (other == k) = false := by simpa using ho
          simp only [List.map_cons, if_true, List.lookup_cons, hb, ho, if_false]
          cases hl : tail.lookup k with
          | some _ =>
              rw [ih (by simp [hl]), if_neg ho]
          | none =>
              rw [List.map_congr_left (g := id), List.map_id]
              intro entry he
              have hne := lookup_eq_none_iff_not_mem.mp hl
              have hek : entry.1 ≠ k :=
                fun h => hne (h ▸ List.mem_map_of_mem (f := Prod.fst) he)
              simp [hek]
      · have hb : (key == k) = false := by simpa using fun h => hk h.symm
        simp only [List.lookup_cons, hb] at found
        simp only [List.map_cons, hk, if_false, List.lookup_cons, ih found]
        by_cases ho : other = k
        · subst ho
          simp [hk]
        · have hb' : (other == k) = false := by simpa using ho
          simp [hb']

/-- A new entry is found by its key only, by list induction. -/
theorem lookup_orderedInsert (le : κ → κ → Bool) {entries : List (κ × ν)} {key : κ} (value : ν)
    (new : entries.lookup key = none) (other : κ)
    : (entries.orderedInsert (fun a b => le a.1 b.1 = true) (key, value)).lookup other
      = if other = key then some value else entries.lookup other := by
  induction entries with
  | nil =>
      by_cases ho : other = key
      · simp [ho]
      · have hb : (other == key) = false := by simpa using ho
        simp [List.lookup_cons, hb, ho]
  | cons head tail ih =>
      obtain ⟨k, v⟩ := head
      have hne : key ≠ k := by
        rintro rfl
        simp at new
      have hb : (key == k) = false := by simpa using hne
      rw [List.lookup_cons, hb] at new
      rw [List.orderedInsert_cons]
      split
      · by_cases ho : other = key
        · simp [ho]
        · have hb' : (other == key) = false := by simpa using ho
          simp [List.lookup_cons, hb', ho]
      · rw [List.lookup_cons, List.lookup_cons, ih new]
        by_cases ho : other = key
        · subst ho
          simp [hb]
        · simp [ho]

theorem lookup_insertEntry (le : κ → κ → Bool) (entries : List (κ × ν)) (key : κ) (value : ν)
    (other : κ)
    : (insertEntry le entries key value).lookup other
      = if other = key then some value else entries.lookup other := by
  unfold insertEntry
  split
  · next found => exact lookup_map_assign value found other
  · next new => exact lookup_orderedInsert le value (Option.not_isSome_iff_eq_none.mp new) other

/-- Assigning keeps the keys distinct. -/
theorem nodup_keys_insertEntry (le : κ → κ → Bool) {entries : List (κ × ν)} (key : κ)
    (value : ν) (distinct : (entries.map Prod.fst).Nodup)
    : ((insertEntry le entries key value).map Prod.fst).Nodup := by
  unfold insertEntry
  split
  · have hkeys : (entries.map fun entry => if entry.1 = key then (key, value) else entry).map
        Prod.fst = entries.map Prod.fst := by
      rw [List.map_map]
      apply List.map_congr_left
      intro entry _
      by_cases hk : entry.1 = key <;> simp [hk]
    rwa [hkeys]
  · next new =>
      have hnew : key ∉ entries.map Prod.fst :=
        lookup_eq_none_iff_not_mem.mp (Option.not_isSome_iff_eq_none.mp new)
      have hperm := (List.perm_orderedInsert (fun a b : κ × ν => le a.1 b.1 = true) (key, value)
        entries).map Prod.fst
      rw [hperm.nodup_iff, List.map_cons]
      exact List.nodup_cons.mpr ⟨hnew, distinct⟩

/-- The entries after an assignment: the assigned one and the old ones of other keys. -/
theorem mem_insertEntry (le : κ → κ → Bool) {entries : List (κ × ν)} {key : κ} {value : ν}
    (distinct : (entries.map Prod.fst).Nodup) {other : κ} {v : ν}
    : (other, v) ∈ insertEntry le entries key value
      ↔ other = key ∧ v = value ∨ other ≠ key ∧ (other, v) ∈ entries := by
  rw [← lookup_eq_some_iff_mem (nodup_keys_insertEntry le key value distinct),
    lookup_insertEntry]
  by_cases ho : other = key
  · simp [ho, eq_comm]
  · simp [ho, lookup_eq_some_iff_mem distinct]

end Xlog.Foundation
