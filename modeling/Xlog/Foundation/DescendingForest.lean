import Mathlib.Logic.Function.Basic

/-! Union-find forests whose parents never lie above their children, so that paths run down to their
roots. Linking a root below itself and shortening a path keep the order, whatever else is going on.
-/

namespace Xlog.Foundation.DescendingForest

variable {n : Nat} {parents : Nat → Nat}

/-- Follow the parents for at most the given number of steps. -/
def climb (parents : Nat → Nat) : Nat → Nat → Nat
  | 0, i => i
  | fuel + 1, i => if parents i = i then i else climb parents fuel (parents i)

/-- The root above an element. -/
def top (parents : Nat → Nat) (i : Nat) : Nat := climb parents i i

/-- No parent of the first elements lies above its child. -/
def Descends (n : Nat) (parents : Nat → Nat) : Prop := ∀ i, i < n → parents i ≤ i

theorem Descends.parent_lt (h : Descends n parents) {i : Nat} (hi : i < n) (hne : parents i ≠ i)
    : parents i < i :=
  Nat.lt_of_le_of_ne (h i hi) hne

/-- Induction along the paths of a forest. -/
theorem Descends.induction (h : Descends n parents) {motive : Nat → Prop}
    (root : ∀ i, i < n → parents i = i → motive i)
    (child : ∀ i, i < n → parents i < i → motive (parents i) → motive i)
    {i : Nat} (hi : i < n) : motive i := by
  induction i using Nat.strongRecOn with
  | _ i ih =>
      by_cases hroot : parents i = i
      · exact root i hi hroot
      · have hlt := h.parent_lt hi hroot
        exact child i hi hlt (ih _ hlt (Nat.lt_trans hlt hi))

theorem climb_of_root {i : Nat} (h : parents i = i) (fuel : Nat) : climb parents fuel i = i := by
  cases fuel with
  | zero => rfl
  | succ fuel => exact if_pos h

@[simp] theorem top_of_root {i : Nat} (h : parents i = i) : top parents i = i :=
  climb_of_root h i

/-- A path below an element is no longer than the element, so more fuel changes nothing. -/
theorem Descends.climb_eq_top (h : Descends n parents) {i : Nat} (hi : i < n)
    : ∀ fuel, i ≤ fuel → climb parents fuel i = top parents i := by
  induction i using Nat.strongRecOn with
  | _ i ih =>
      intro fuel hfuel
      by_cases hroot : parents i = i
      · rw [climb_of_root hroot, top_of_root hroot]
      · have hlt := h.parent_lt hi hroot
        obtain ⟨fuel, rfl⟩ : ∃ more, fuel = more + 1 := ⟨fuel - 1, by omega⟩
        obtain ⟨j, rfl⟩ : ∃ j, i = j + 1 := ⟨i - 1, by omega⟩
        have hthis := ih _ hlt (Nat.lt_trans hlt hi)
        rw [top, climb, climb, if_neg hroot, if_neg hroot, hthis fuel (by omega),
          hthis j (by omega)]

theorem Descends.top_parent (h : Descends n parents) {i : Nat} (hi : i < n)
    : top parents (parents i) = top parents i := by
  by_cases hroot : parents i = i
  · rw [hroot]
  · have hlt := h.parent_lt hi hroot
    obtain ⟨j, rfl⟩ : ∃ j, i = j + 1 := ⟨i - 1, by omega⟩
    change top parents (parents (j + 1)) = climb parents (j + 1) (j + 1)
    rw [climb, if_neg hroot, h.climb_eq_top (Nat.lt_trans hlt hi) j (by omega)]

theorem Descends.top_le (h : Descends n parents) {i : Nat} (hi : i < n) : top parents i ≤ i := by
  refine h.induction (motive := fun i => top parents i ≤ i) ?_ ?_ hi
  · intro i _ hroot
    exact Nat.le_of_eq (top_of_root hroot)
  · intro i hi hlt ih
    rw [h.top_parent hi] at ih
    exact Nat.le_trans ih (Nat.le_of_lt hlt)

theorem Descends.top_lt (h : Descends n parents) {i : Nat} (hi : i < n) : top parents i < n :=
  Nat.lt_of_le_of_lt (h.top_le hi) hi

/-- The path of an element ends at a root. -/
theorem Descends.parents_top (h : Descends n parents) {i : Nat} (hi : i < n)
    : parents (top parents i) = top parents i := by
  refine h.induction (motive := fun i => parents (top parents i) = top parents i) ?_ ?_ hi
  · intro i _ hroot
    rw [top_of_root hroot, hroot]
  · intro i hi _ ih
    rwa [h.top_parent hi] at ih

theorem Descends.top_top (h : Descends n parents) {i : Nat} (hi : i < n)
    : top parents (top parents i) = top parents i :=
  top_of_root (h.parents_top hi)

/-- The roots are the elements above themselves. -/
theorem Descends.root_iff (h : Descends n parents) {i : Nat} (hi : i < n)
    : parents i = i ↔ top parents i = i := by
  constructor
  · intro hroot
    exact top_of_root hroot
  · intro htop
    have := h.parents_top hi
    rwa [htop] at this

/-- A valuation that the parents keep and that is the identity on the roots gives the tops. -/
theorem Descends.top_eq (h : Descends n parents) {f : Nat → Nat}
    (root : ∀ i, i < n → parents i = i → f i = i) (child : ∀ i, i < n → f (parents i) = f i)
    {i : Nat} (hi : i < n) : top parents i = f i := by
  refine h.induction (motive := fun i => top parents i = f i) ?_ ?_ hi
  · intro i hi hroot
    rw [top_of_root hroot, root i hi hroot]
  · intro i hi _ ih
    rw [← h.top_parent hi, ih, child i hi]

-- Links

section Link

variable {lower upper : Nat}

theorem Descends.link (h : Descends n parents) (hlt : lower < upper)
    : Descends n (Function.update parents upper lower) := by
  intro i hi
  by_cases hiu : i = upper
  · subst hiu
    rw [Function.update_self]
    exact Nat.le_of_lt hlt
  · rw [Function.update_of_ne hiu]
    exact h i hi

/-- Linking a root below an element joins its tree to the tree of the element, and no others. -/
theorem Descends.top_link (h : Descends n parents) (hroot : parents upper = upper)
    (hlt : lower < upper) (hupper : upper < n) {i : Nat} (hi : i < n)
    : top (Function.update parents upper lower) i
      = if top parents i = upper then top parents lower else top parents i := by
  have hlower : top parents lower ≠ upper := by
    have := h.top_le (Nat.lt_trans hlt hupper)
    omega
  refine (h.link hlt).top_eq
    (f := fun i => if top parents i = upper then top parents lower else top parents i) ?_ ?_ hi
  · intro i hi hfixed
    have hne : i ≠ upper := by
      rintro rfl
      rw [Function.update_self] at hfixed
      omega
    rw [Function.update_of_ne hne] at hfixed
    simp only [top_of_root hfixed, if_neg hne]
  · intro i hi
    by_cases hiu : i = upper
    · subst hiu
      simp only [Function.update_self, top_of_root hroot, if_true, if_neg hlower]
    · simp only [Function.update_of_ne hiu, h.top_parent hi]

/-- A link joins the two it links. -/
theorem Descends.link_joins (h : Descends n parents) (hroot : parents upper = upper)
    (hlt : lower < upper) (hupper : upper < n)
    : top (Function.update parents upper lower) lower
      = top (Function.update parents upper lower) upper := by
  rw [h.top_link hroot hlt hupper (Nat.lt_trans hlt hupper), h.top_link hroot hlt hupper hupper,
    top_of_root hroot, if_pos rfl, ite_self]

end Link

-- Compressions

theorem Descends.compress (h : Descends n parents) {element : Nat} (helement : element < n)
    : Descends n (Function.update parents element (top parents element)) := by
  intro i hi
  by_cases hie : i = element
  · subst hie
    rw [Function.update_self]
    exact h.top_le helement
  · rw [Function.update_of_ne hie]
    exact h i hi

/-- Pointing an element at its root moves no element to another tree. -/
theorem Descends.top_compress (h : Descends n parents) {element : Nat} (helement : element < n)
    {i : Nat} (hi : i < n)
    : top (Function.update parents element (top parents element)) i = top parents i := by
  refine (h.compress helement).top_eq ?_ ?_ hi
  · intro i _ hfixed
    by_cases hie : i = element
    · subst hie
      rwa [Function.update_self] at hfixed
    · rw [Function.update_of_ne hie] at hfixed
      exact top_of_root hfixed
  · intro i hi
    by_cases hie : i = element
    · subst hie
      rw [Function.update_self, h.top_top helement]
    · rw [Function.update_of_ne hie, h.top_parent hi]

-- Coarser forests

/-- A later forest: what was joined still is, and no root has come back. -/
structure Coarsens (n : Nat) (parents parents' : Nat → Nat) : Prop where
  descends : Descends n parents'
  joined
    : ∀ i j, i < n → j < n → top parents i = top parents j → top parents' i = top parents' j
  child : ∀ i, i < n → parents i ≠ i → parents' i ≠ i

theorem Descends.coarsens_refl (h : Descends n parents) : Coarsens n parents parents :=
  ⟨h, fun _ _ _ _ hjoined => hjoined, fun _ _ hchild => hchild⟩

theorem Descends.coarsens_link (h : Descends n parents) {lower upper : Nat}
    (hroot : parents upper = upper) (hlt : lower < upper) (hupper : upper < n)
    : Coarsens n parents (Function.update parents upper lower) := by
  refine ⟨h.link hlt, ?_, ?_⟩
  · intro i j hi hj hjoined
    rw [h.top_link hroot hlt hupper hi, h.top_link hroot hlt hupper hj, hjoined]
  · intro i _ hchild
    by_cases hiu : i = upper
    · subst hiu
      exact absurd hroot hchild
    · rwa [Function.update_of_ne hiu]

theorem Descends.coarsens_compress (h : Descends n parents) {element : Nat} (helement : element < n)
    : Coarsens n parents (Function.update parents element (top parents element)) := by
  refine ⟨h.compress helement, ?_, ?_⟩
  · intro i j hi hj hjoined
    rw [h.top_compress helement hi, h.top_compress helement hj, hjoined]
  · intro i hi hchild
    by_cases hie : i = element
    · subst hie
      rw [Function.update_self]
      exact fun htop => hchild ((h.root_iff hi).mpr htop)
    · rwa [Function.update_of_ne hie]

end Xlog.Foundation.DescendingForest
