import Mathlib.Data.List.Basic

/-! Open addressing without deletion: a key is searched for along its probe sequence up to
the first place that is empty or holds it.
-/

namespace Xlog.Foundation

variable {ι : Type*} {κ : Type*} [DecidableEq κ]

/-- The first probe that is empty or holds the key. -/
def probeSearch (table : ι → Option κ) (probes : List ι) (key : κ) : Option ι :=
  probes.find? fun i => decide (table i = none ∨ table i = some key)

/-- Every stored key is found where it is stored. -/
def ProbeOrdered (table : ι → Option κ) (probes : κ → List ι) : Prop :=
  ∀ i key, table i = some key → probeSearch table (probes key) key = some i

variable {table : ι → Option κ} {probes : κ → List ι} {key : κ} {i : ι}

omit [DecidableEq κ] in
/-- A search that stops at a place still stops there when fewer places stop it. -/
theorem find?_eq_some_of_imp {p q : ι → Bool} {items : List ι}
    (h : items.find? p = some i) (hi : q i = true) (himp : ∀ x, q x = true → p x = true)
    : items.find? q = some i := by
  obtain ⟨_, before, after, hsplit, hbefore⟩ := List.find?_eq_some_iff_append.mp h
  refine List.find?_eq_some_iff_append.mpr ⟨hi, before, after, hsplit, fun x hx => ?_⟩
  have hnot : p x = false := by simpa using hbefore x hx
  cases hq : q x with
  | false => rfl
  | true => exact absurd (himp x hq) (by simp [hnot])

/-- A search stops at an empty place or at the key. -/
theorem table_of_probeSearch {items : List ι} (h : probeSearch table items key = some i)
    : table i = none ∨ table i = some key := by
  simpa using List.find?_some h

theorem mem_of_probeSearch {items : List ι} (h : probeSearch table items key = some i)
    : i ∈ items :=
  List.mem_of_find?_eq_some h

/-- No key is stored twice. -/
theorem ProbeOrdered.unique (ordered : ProbeOrdered table probes) {j : ι}
    (hi : table i = some key) (hj : table j = some key)
    : i = j :=
  Option.some.inj ((ordered i key hi).symm.trans (ordered j key hj))

/-- Storing a key where its search stopped keeps every key at its place. -/
theorem ProbeOrdered.insert [DecidableEq ι] (ordered : ProbeOrdered table probes)
    (h : probeSearch table (probes key) key = some i) (hempty : table i = none)
    : ProbeOrdered (Function.update table i (some key)) probes := by
  intro j other hj
  by_cases hij : j = i
  · subst hij
    rw [Function.update_self] at hj
    obtain rfl := Option.some.inj hj
    refine find?_eq_some_of_imp h (by simp) fun x hx => ?_
    by_cases hxj : x = j
    · simp [hxj, hempty]
    · simpa [Function.update_of_ne hxj] using hx
  · rw [Function.update_of_ne hij] at hj
    refine find?_eq_some_of_imp (ordered j other hj) (by simp [Function.update_of_ne hij, hj])
      fun x hx => ?_
    by_cases hxi : x = i
    · simp [hxi, hempty]
    · simpa [Function.update_of_ne hxi] using hx

end Xlog.Foundation
