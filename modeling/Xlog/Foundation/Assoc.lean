import Mathlib.Data.List.Nodup
import Mathlib.Data.List.Lookmap

/-! Association lists with distinct keys read as finite maps.
-/

namespace Xlog.Foundation

variable {κ : Type*} {ν : Type*} [DecidableEq κ]

/-- A found entry is an entry of the list, by list induction. -/
theorem mem_of_lookup {entries : List (κ × ν)} {key : κ} {value : ν}
    (h : entries.lookup key = some value)
    : (key, value) ∈ entries := by
  induction entries with
  | nil => simp at h
  | cons head tail ih =>
      obtain ⟨k, v⟩ := head
      by_cases hk : key = k
      · subst hk
        simp only [List.lookup_cons, beq_self_eq_true, Option.some.injEq] at h
        simp [h]
      · have hb : (key == k) = false := by simpa using hk
        simp only [List.lookup_cons, hb] at h
        exact List.mem_cons_of_mem _ (ih h)

/-- With distinct keys every entry is the one its key finds, by list induction. -/
theorem lookup_of_mem {entries : List (κ × ν)} {key : κ} {value : ν}
    (distinct : (entries.map Prod.fst).Nodup) (h : (key, value) ∈ entries)
    : entries.lookup key = some value := by
  induction entries with
  | nil => simp at h
  | cons head tail ih =>
      obtain ⟨k, v⟩ := head
      simp only [List.map_cons, List.nodup_cons] at distinct
      rcases List.mem_cons.mp h with he | hm
      · obtain ⟨rfl, rfl⟩ := Prod.mk.inj he
        simp
      · have hne : key ≠ k := by
          intro he
          exact distinct.1 (he ▸ List.mem_map_of_mem (f := Prod.fst) hm)
        have hb : (key == k) = false := by simpa using hne
        simpa only [List.lookup_cons, hb] using ih distinct.2 hm

/-- With distinct keys lookup and membership say the same. -/
theorem lookup_eq_some_iff_mem {entries : List (κ × ν)} {key : κ} {value : ν}
    (distinct : (entries.map Prod.fst).Nodup)
    : entries.lookup key = some value ↔ (key, value) ∈ entries :=
  ⟨mem_of_lookup, lookup_of_mem distinct⟩

/-- A key is missing exactly when lookup fails, by list induction. -/
theorem lookup_eq_none_iff_not_mem {entries : List (κ × ν)} {key : κ}
    : entries.lookup key = none ↔ key ∉ entries.map Prod.fst := by
  induction entries with
  | nil => simp
  | cons head tail ih =>
      obtain ⟨k, v⟩ := head
      by_cases hk : key = k
      · simp [hk]
      · have hb : (key == k) = false := by simpa using hk
        simp only [List.lookup_cons, hb, ih, List.map_cons, List.mem_cons, hk, false_or]

/-- A key of the list finds some entry. -/
theorem exists_lookup_of_mem_keys {entries : List (κ × ν)} {key : κ}
    (h : key ∈ entries.map Prod.fst)
    : ∃ value, entries.lookup key = some value := by
  cases hl : entries.lookup key with
  | none => exact absurd h (lookup_eq_none_iff_not_mem.mp hl)
  | some value => exact ⟨value, rfl⟩

/-- Dropping a key's entries makes lookup fail there and nowhere else, by list induction. -/
theorem lookup_filter_ne (entries : List (κ × ν)) (key other : κ)
    : (entries.filter (·.1 ≠ key)).lookup other
      = if other = key then none else entries.lookup other := by
  induction entries with
  | nil => simp
  | cons head tail ih =>
      obtain ⟨k, v⟩ := head
      by_cases hk : k = key
      · subst hk
        by_cases ho : other = k
        · simpa [ho] using ih
        · have hb : (other == k) = false := by simpa using ho
          simpa [ho, List.lookup_cons, hb] using ih
      · by_cases ho : other = k
        · simp [ho, hk]
        · have hb : (other == k) = false := by simpa using ho
          simpa [hk, List.lookup_cons, hb] using ih

/-- Lookup after an assignment that moves the key to the end. -/
theorem lookup_filter_ne_append (entries : List (κ × ν)) (key other : κ) (value : ν)
    : (entries.filter (·.1 ≠ key) ++ [(key, value)]).lookup other
      = if other = key then some value else entries.lookup other := by
  rw [List.lookup_append, lookup_filter_ne]
  by_cases ho : other = key
  · simp [ho]
  · have hb : (other == key) = false := by simpa using ho
    simp [ho, List.lookup_cons, hb]

/-- Changing the values by their keys changes what lookup finds, by list induction. -/
theorem lookup_map_snd {ν' : Type*} (entries : List (κ × ν)) (value : κ → ν') (key : κ)
    : (entries.map fun entry => (entry.1, value entry.1)).lookup key
      = (entries.lookup key).map fun _ => value key := by
  induction entries with
  | nil => rfl
  | cons head tail ih =>
      obtain ⟨k, v⟩ := head
      by_cases hk : key = k
      · subst hk
        simp
      · have hb : (key == k) = false := by simpa using hk
        simpa only [List.map_cons, List.lookup_cons, hb] using ih

end Xlog.Foundation
