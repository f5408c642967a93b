import Mathlib.Data.List.Nodup
import Mathlib.Data.List.Pairwise
import Xlog.Foundation.Loop

/-! Items put into numbered buckets: what a bucket holds, and the order of all items bucket by
bucket.
-/

namespace Xlog.Foundation

variable {ι : Type*}

/-- Items with a number are appended to the bucket of that number. -/
def fillBuckets (key : ι → Option Nat) (items : List ι) (count : Nat) : List (List ι) :=
  items.foldl (fun buckets item =>
    match key item with
    | some k => buckets.modify k (· ++ [item])
    | none => buckets) (List.replicate count [])

theorem getElem?_fillBuckets (key : ι → Option Nat) (items : List ι) (count i : Nat)
    : (fillBuckets key items count)[i]?
      = if i < count then some (items.filter (key · = some i)) else none := by
  have hfill := foldl_modify_getElem? key (fun level item => level ++ [item]) items
    (List.replicate count []) i
  simp only [foldl_concat] at hfill
  rw [List.getElem?_replicate] at hfill
  refine hfill.trans ?_
  split
  · simp
  · rfl

/-- A bucket holds the items of its number. -/
theorem mem_of_getElem?_fillBuckets {key : ι → Option Nat} {items : List ι} {count i : Nat}
    {level : List ι} (h : (fillBuckets key items count)[i]? = some level) {item : ι}
    : item ∈ level ↔ item ∈ items ∧ key item = some i := by
  rw [getElem?_fillBuckets] at h
  split at h
  · obtain rfl := Option.some.inj h
    simp
  · simp at h

/-- All items with a number are in some bucket when there are enough buckets. -/
theorem mem_flatten_fillBuckets {key : ι → Option Nat} {items : List ι} {count : Nat}
    (enough : ∀ item ∈ items, ∀ k, key item = some k → k < count) {item : ι}
    : item ∈ (fillBuckets key items count).flatten ↔ item ∈ items ∧ ∃ k, key item = some k := by
  rw [List.mem_flatten]
  constructor
  · rintro ⟨level, hl, hi⟩
    obtain ⟨k, hk⟩ := List.getElem?_of_mem hl
    obtain ⟨hitem, hkey⟩ := (mem_of_getElem?_fillBuckets hk).mp hi
    exact ⟨hitem, k, hkey⟩
  · rintro ⟨hitem, k, hk⟩
    have hget := getElem?_fillBuckets key items count k
    rw [if_pos (enough item hitem k hk)] at hget
    exact ⟨_, List.mem_of_getElem? hget, (mem_of_getElem?_fillBuckets hget).mpr ⟨hitem, hk⟩⟩

/-- Bucket by bucket the numbers do not decrease. -/
theorem pairwise_flatten_fillBuckets (key : ι → Option Nat) (items : List ι) (count : Nat)
    : (fillBuckets key items count).flatten.Pairwise fun a b =>
        ∀ ka kb, key a = some ka → key b = some kb → ka ≤ kb := by
  rw [List.pairwise_flatten]
  constructor
  · intro level hl
    obtain ⟨k, hk⟩ := List.getElem?_of_mem hl
    rw [List.pairwise_iff_forall_sublist]
    intro a b hab ka kb ha hb
    have hmem := hab.subset
    have hka := ((mem_of_getElem?_fillBuckets hk).mp (hmem (by simp : a ∈ [a, b]))).2
    have hkb := ((mem_of_getElem?_fillBuckets hk).mp (hmem (by simp : b ∈ [a, b]))).2
    rw [hka] at ha
    rw [hkb] at hb
    exact Nat.le_of_eq (Option.some.inj (ha.symm.trans hb))
  · rw [List.pairwise_iff_getElem]
    intro i j hi hj hij a ha b hb ka kb hka hkb
    have hia := ((mem_of_getElem?_fillBuckets (List.getElem?_eq_getElem hi)).mp ha).2
    have hjb := ((mem_of_getElem?_fillBuckets (List.getElem?_eq_getElem hj)).mp hb).2
    obtain rfl := Option.some.inj (hia.symm.trans hka)
    obtain rfl := Option.some.inj (hjb.symm.trans hkb)
    exact Nat.le_of_lt hij

theorem nodup_flatten_fillBuckets {key : ι → Option Nat} {items : List ι} (count : Nat)
    (distinct : items.Nodup)
    : (fillBuckets key items count).flatten.Nodup := by
  refine List.nodup_flatten.mpr ⟨?_, ?_⟩
  · intro level hl
    obtain ⟨i, hi⟩ := List.getElem?_of_mem hl
    rw [getElem?_fillBuckets] at hi
    split at hi
    · obtain rfl := Option.some.inj hi
      exact distinct.filter _
    · simp at hi
  · rw [List.pairwise_iff_getElem]
    intro i j hi hj hij item hmi hmj
    have h1 := ((mem_of_getElem?_fillBuckets (List.getElem?_eq_getElem hi)).mp hmi).2
    have h2 := ((mem_of_getElem?_fillBuckets (List.getElem?_eq_getElem hj)).mp hmj).2
    exact Nat.ne_of_lt hij (Option.some.inj (h1.symm.trans h2))

theorem le_foldl_max {values : List Nat} {start value : Nat}
    (h : value ≤ start ∨ value ∈ values)
    : value ≤ values.foldl max start := by
  induction values generalizing start with
  | nil => simpa using h
  | cons head tail ih =>
      refine ih ?_
      rcases h with h | h
      · exact .inl (by omega)
      · rcases List.mem_cons.mp h with rfl | h
        · exact .inl (by omega)
        · exact .inr h

end Xlog.Foundation
