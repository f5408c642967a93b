import Mathlib.Data.Finset.Card

/-! A union-find over a parent table with path compression and without ranks. After any
sequence of unions two elements have the same root exactly when every valuation that agrees
on the united pairs agrees on the two.
-/

namespace Xlog.Foundation.UnionFind

-- The table

/-- The parent of an element; an element outside the table is its own. -/
def parentOf (parent : List Nat) (x : Nat) : Nat := parent.getD x x

/-- Follow the parents for at most the given number of steps. -/
def climb (parent : List Nat) : Nat → Nat → Nat
  | 0, x => x
  | fuel + 1, x => if parentOf parent x = x then x else climb parent fuel (parentOf parent x)

/-- The root above an element; a path is shorter than the table. -/
def root (parent : List Nat) (x : Nat) : Nat := climb parent parent.length x

/-- Point the elements of a path at its root. -/
def compress (top : Nat) : Nat → Nat → List Nat → List Nat
  | 0, _, parent => parent
  | fuel + 1, x, parent =>
      if parentOf parent x = top then parent
      else compress top fuel (parentOf parent x) (parent.set x top)

def find (parent : List Nat) (x : Nat) : Nat × List Nat :=
  (root parent x, compress (root parent x) parent.length x parent)

/-- Link the root of the second element under the root of the first. -/
def union (parent : List Nat) (a b : Nat) : List Nat :=
  let left := find parent a
  let right := find left.2 b
  if left.1 = right.1 then right.2 else right.2.set right.1 left.1

/-- The root of every element, with the compressions of the finds in order. -/
def findAll (parent : List Nat) : List Nat → List Nat × List Nat
  | [] => ([], parent)
  | x :: xs =>
      let found := find parent x
      let rest := findAll found.2 xs
      (found.1 :: rest.1, rest.2)

-- Forests

/-- The parent links stay inside the table and run down some rank, so they end. -/
def Forest (parent : List Nat) : Prop :=
  ∃ rank : Nat → Nat, ∀ x, parentOf parent x ≠ x →
    parentOf parent x < parent.length ∧ rank (parentOf parent x) < rank x

/-- Following parents leads from one element to another. -/
def Reaches (parent : List Nat) : Nat → Nat → Prop :=
  Relation.ReflTransGen fun x y => parentOf parent x = y

theorem lt_length_of_parentOf_ne {parent : List Nat} {x : Nat} (h : parentOf parent x ≠ x)
    : x < parent.length := by
  by_contra hx
  apply h
  simp [parentOf, List.getD_eq_getElem?_getD, List.getElem?_eq_none (Nat.le_of_not_lt hx)]

theorem parentOf_set {parent : List Nat} {x y z : Nat} (hx : x < parent.length)
    : parentOf (parent.set x y) z = if z = x then y else parentOf parent z := by
  simp only [parentOf, List.getD_eq_getElem?_getD, List.getElem?_set]
  by_cases h : x = z
  · subst h
    simp [hx]
  · simp [h, Ne.symm h]

/-- The number of table elements of smaller rank bounds the steps still to climb. -/
private def below (parent : List Nat) (rank : Nat → Nat) (x : Nat) : Nat :=
  ((Finset.range parent.length).filter fun y => rank y < rank x).card

private theorem below_lt {parent : List Nat} {rank : Nat → Nat} {x : Nat}
    (hp : parentOf parent x < parent.length) (hr : rank (parentOf parent x) < rank x)
    : below parent rank (parentOf parent x) < below parent rank x := by
  apply Finset.card_lt_card
  refine ⟨?_, ?_⟩
  · intro y hy
    simp only [Finset.mem_filter, Finset.mem_range] at hy ⊢
    exact ⟨hy.1, hy.2.trans hr⟩
  · intro hsub
    have hmem := hsub (Finset.mem_filter.mpr ⟨Finset.mem_range.mpr hp, hr⟩)
    simp at hmem

private theorem below_le (parent : List Nat) (rank : Nat → Nat) (x : Nat)
    : below parent rank x ≤ parent.length := by
  simpa [below] using Finset.card_filter_le (Finset.range parent.length) fun y => rank y < rank x

theorem climb_reaches (parent : List Nat) (fuel x : Nat)
    : Reaches parent x (climb parent fuel x) := by
  induction fuel generalizing x with
  | zero => exact .refl
  | succ fuel ih =>
      rw [climb]
      split
      · exact .refl
      · exact .head rfl (ih (parentOf parent x))

/-- Climbing ends in a root, by induction on the steps allowed. -/
private theorem parentOf_climb {parent : List Nat} {rank : Nat → Nat}
    (h : ∀ x, parentOf parent x ≠ x →
      parentOf parent x < parent.length ∧ rank (parentOf parent x) < rank x)
    (fuel x : Nat) (hf : below parent rank x ≤ fuel)
    : parentOf parent (climb parent fuel x) = climb parent fuel x := by
  induction fuel generalizing x with
  | zero =>
      by_contra hx
      obtain ⟨hp, hr⟩ := h x hx
      have := below_lt hp hr
      omega
  | succ fuel ih =>
      rw [climb]
      split
      · assumption
      · next hx =>
          obtain ⟨hp, hr⟩ := h x hx
          have := below_lt hp hr
          exact ih _ (by omega)

theorem reaches_root (parent : List Nat) (x : Nat) : Reaches parent x (root parent x) :=
  climb_reaches parent parent.length x

theorem Forest.parentOf_root {parent : List Nat} (h : Forest parent) (x : Nat)
    : parentOf parent (root parent x) = root parent x := by
  obtain ⟨rank, hrank⟩ := h
  exact parentOf_climb hrank parent.length x (below_le parent rank x)

/-- An element that is its own parent reaches only itself. -/
theorem Reaches.eq_of_fixed {parent : List Nat} {x y : Nat} (h : Reaches parent x y)
    (hx : parentOf parent x = x)
    : x = y := by
  induction h with
  | refl => rfl
  | tail _ hstep ih =>
      subst ih
      exact hx.symm.trans hstep

/-- The root is the only root reached, since the path is unique. -/
theorem Forest.root_eq {parent : List Nat} (h : Forest parent) {x y : Nat}
    (hxy : Reaches parent x y) (hy : parentOf parent y = y)
    : root parent x = y := by
  have hunique : Relator.RightUnique fun x y => parentOf parent x = y := by
    intro a b c hb hc
    exact hb.symm.trans hc
  rcases Relation.ReflTransGen.total_of_right_unique hunique (reaches_root parent x) hxy
    with hto | hto
  · exact Reaches.eq_of_fixed hto (h.parentOf_root x)
  · exact (Reaches.eq_of_fixed hto hy).symm

theorem Forest.root_of_fixed {parent : List Nat} (h : Forest parent) {x : Nat}
    (hx : parentOf parent x = x)
    : root parent x = x :=
  h.root_eq .refl hx

theorem Forest.root_root {parent : List Nat} (h : Forest parent) (x : Nat)
    : root parent (root parent x) = root parent x :=
  h.root_of_fixed (h.parentOf_root x)

theorem Forest.root_parentOf {parent : List Nat} (h : Forest parent) (x : Nat)
    : root parent (parentOf parent x) = root parent x := by
  symm
  exact h.root_eq (.head rfl (reaches_root parent (parentOf parent x)))
    (h.parentOf_root (parentOf parent x))

/-- The rank falls along a path, by path induction. -/
private theorem rank_le_of_reaches {parent : List Nat} {rank : Nat → Nat}
    (h : ∀ x, parentOf parent x ≠ x →
      parentOf parent x < parent.length ∧ rank (parentOf parent x) < rank x)
    {x y : Nat} (hxy : Reaches parent x y)
    : x = y ∨ (y < parent.length ∧ rank y < rank x) := by
  induction hxy with
  | refl => exact .inl rfl
  | @tail y z _ hstep ih =>
      by_cases hy : parentOf parent y = y
      · rw [hy] at hstep
        exact hstep ▸ ih
      · obtain ⟨hp, hr⟩ := h y hy
        rw [hstep] at hp hr
        rcases ih with rfl | ⟨-, hlt⟩
        · exact .inr ⟨hp, hr⟩
        · exact .inr ⟨hp, hr.trans hlt⟩

-- Compression

/-- Pointing an element at its root keeps the forest and every root. -/
theorem Forest.set_root {parent : List Nat} (h : Forest parent) {x : Nat}
    (hx : parentOf parent x ≠ x)
    : Forest (parent.set x (root parent x))
      ∧ ∀ z, root (parent.set x (root parent x)) z = root parent z := by
  have hlen := lt_length_of_parentOf_ne hx
  have hne : x ≠ root parent x := by
    intro heq
    exact hx (heq ▸ h.parentOf_root x)
  have hforest : Forest (parent.set x (root parent x)) := by
    obtain ⟨rank, hrank⟩ := h
    refine ⟨rank, ?_⟩
    intro z hz
    rw [parentOf_set hlen] at hz ⊢
    rw [List.length_set]
    split at hz
    · next heq =>
        subst heq
        rw [if_pos rfl]
        exact (rank_le_of_reaches hrank (reaches_root parent z)).resolve_left hne
    · next hzx =>
        rw [if_neg hzx]
        exact hrank z hz
  refine ⟨hforest, ?_⟩
  intro z
  have hfixed : root parent z ≠ x := by
    intro heq
    exact hx (heq ▸ h.parentOf_root z)
  apply hforest.root_eq
  · have hpath := reaches_root parent z
    generalize hr : root parent z = r at hpath hfixed
    induction hpath using Relation.ReflTransGen.head_induction_on with
    | refl => exact .refl
    | @head y y' hstep _ ih =>
        by_cases hy : y = x
        · subst hy
          apply Relation.ReflTransGen.single
          rw [parentOf_set hlen, if_pos rfl]
          exact hr
        · refine .head ?_ (ih ?_)
          · rw [parentOf_set hlen, if_neg hy]
            exact hstep
          · rw [← hstep, h.root_parentOf]
            exact hr
  · rw [parentOf_set hlen, if_neg hfixed]
    exact h.parentOf_root z

@[simp] theorem length_compress (top fuel x : Nat) (parent : List Nat)
    : (compress top fuel x parent).length = parent.length := by
  induction fuel generalizing x parent with
  | zero => rfl
  | succ fuel ih =>
      rw [compress]
      split
      · rfl
      · rw [ih, List.length_set]

/-- Compressing a path keeps the forest and every root, by induction on the path. -/
theorem Forest.compress {parent : List Nat} (h : Forest parent) (fuel x : Nat)
    : Forest (UnionFind.compress (root parent x) fuel x parent)
      ∧ ∀ z, root (UnionFind.compress (root parent x) fuel x parent) z = root parent z := by
  induction fuel generalizing x parent with
  | zero => exact ⟨h, fun _ => rfl⟩
  | succ fuel ih =>
      rw [UnionFind.compress]
      split
      · exact ⟨h, fun _ => rfl⟩
      · next hne =>
          by_cases hx : parentOf parent x = x
          · exact absurd (hx.trans (h.root_of_fixed hx).symm) hne
          · obtain ⟨hf, hr⟩ := h.set_root hx
            have htop : root (parent.set x (root parent x)) (parentOf parent x)
                = root parent x := by
              rw [hr, h.root_parentOf]
            obtain ⟨hf', hr'⟩ := ih hf (parentOf parent x)
            rw [htop] at hf' hr'
            exact ⟨hf', fun z => (hr' z).trans (hr z)⟩

theorem Forest.find {parent : List Nat} (h : Forest parent) (x : Nat)
    : Forest (find parent x).2 ∧ ∀ z, root (UnionFind.find parent x).2 z = root parent z :=
  h.compress parent.length x

/-- Finding all elements gives their roots, by list induction. -/
theorem Forest.findAll {parent : List Nat} (h : Forest parent) (xs : List Nat)
    : (findAll parent xs).1 = xs.map (root parent)
      ∧ Forest (UnionFind.findAll parent xs).2
      ∧ ∀ z, root (UnionFind.findAll parent xs).2 z = root parent z := by
  induction xs generalizing parent with
  | nil => exact ⟨rfl, h, fun _ => rfl⟩
  | cons x xs ih =>
      obtain ⟨hf, hr⟩ := h.find x
      obtain ⟨hroots, hforest, hrest⟩ := ih hf
      refine ⟨?_, hforest, fun z => (hrest z).trans (hr z)⟩
      simp only [UnionFind.findAll, List.map_cons, hroots, List.cons.injEq]
      refine ⟨rfl, ?_⟩
      apply List.map_congr_left
      intro y _
      exact hr y

-- Unions

@[simp] theorem length_find (parent : List Nat) (x : Nat)
    : (find parent x).2.length = parent.length :=
  length_compress _ _ _ _

theorem root_lt {parent : List Nat} (h : Forest parent) {x : Nat} (hx : x < parent.length)
    : root parent x < parent.length := by
  obtain ⟨rank, hrank⟩ := h
  rcases rank_le_of_reaches hrank (reaches_root parent x) with heq | ⟨hlt, -⟩
  · exact heq ▸ hx
  · exact hlt

/-- Linking one root under another moves the elements below it, and no others. -/
theorem Forest.link {parent : List Nat} (h : Forest parent) {left right : Nat}
    (hl : parentOf parent left = left) (hr : parentOf parent right = right)
    (hlt : left < parent.length) (hrt : right < parent.length) (hne : left ≠ right)
    : Forest (parent.set right left)
      ∧ ∀ z, root (parent.set right left) z
        = if root parent z = right then left else root parent z := by
  have hset (z : Nat)
      : parentOf (parent.set right left) z = if z = right then left else parentOf parent z :=
    parentOf_set hrt
  have hforest : Forest (parent.set right left) := by
    have hbelow := h
    obtain ⟨rank, hrank⟩ := h
    -- the linked tree is lifted above the root it now hangs from
    refine ⟨fun z => rank z + if root parent z = right then rank left + 1 else 0, ?_⟩
    intro z hz
    rw [hset] at hz ⊢
    rw [List.length_set]
    split at hz
    · next heq =>
        subst heq
        simp only [if_true, hbelow.root_of_fixed hr, hbelow.root_of_fixed hl, hne, if_false]
        exact ⟨hlt, by omega⟩
    · next hzr =>
        obtain ⟨hp, hrk⟩ := hrank z hz
        simp only [if_neg hzr, hbelow.root_parentOf]
        exact ⟨hp, by omega⟩
  have hleft : root (parent.set right left) left = left := by
    apply hforest.root_of_fixed
    rw [hset, if_neg hne, hl]
  have hstay (z : Nat) (hz : root parent z ≠ right)
      : parentOf (parent.set right left) (root parent z) = root parent z := by
    rw [hset, if_neg hz]
    exact h.parentOf_root z
  have hpath (z : Nat) : Reaches (parent.set right left) z (root parent z) := by
    have hreach := reaches_root parent z
    generalize root parent z = r at hreach ⊢
    induction hreach with
    | refl => exact .refl
    | @tail y y' _ hstep ih =>
        by_cases hy : y = right
        · subst hy
          rwa [← hstep, hr]
        · refine ih.tail ?_
          rw [hset, if_neg hy]
          exact hstep
  refine ⟨hforest, ?_⟩
  intro z
  split
  · next hz =>
      apply hforest.root_eq
      · refine (hpath z).tail ?_
        rw [hset, if_pos hz]
      · rw [hset, if_neg hne, hl]
  · next hz => exact hforest.root_eq (hpath z) (hstay z hz)

/-- A union gives the second class the root of the first. -/
theorem Forest.union {parent : List Nat} (h : Forest parent) {a b : Nat}
    (ha : a < parent.length) (hb : b < parent.length)
    : Forest (union parent a b)
      ∧ (UnionFind.union parent a b).length = parent.length
      ∧ ∀ z, root (UnionFind.union parent a b) z
        = if root parent z = root parent b then root parent a else root parent z := by
  obtain ⟨hfa, hra⟩ := h.find a
  obtain ⟨hfb, hrb⟩ := hfa.find b
  have hroots (z : Nat)
      : root (UnionFind.find (UnionFind.find parent a).2 b).2 z = root parent z :=
    (hrb z).trans (hra z)
  have hsecond : (UnionFind.find (UnionFind.find parent a).2 b).1 = root parent b := hra b
  simp only [UnionFind.union, hsecond]
  rw [show (UnionFind.find parent a).1 = root parent a from rfl]
  have htop (z : Nat) : parentOf (UnionFind.find (UnionFind.find parent a).2 b).2
      (root parent z) = root parent z := by
    rw [← hroots z]
    exact hfb.parentOf_root z
  split
  · next heq =>
      refine ⟨hfb, by simp, ?_⟩
      intro z
      rw [hroots]
      split
      · next hz => rw [hz, heq]
      · rfl
  · next hne =>
      obtain ⟨hforest, hlink⟩ := hfb.link (htop a) (htop b)
        (by simpa using root_lt h ha) (by simpa using root_lt h hb) hne
      refine ⟨hforest, by simp, ?_⟩
      intro z
      rw [hlink, hroots]

/-- Link the larger root under the smaller one. -/
def unionMin (parent : List Nat) (a b : Nat) : List Nat :=
  let left := find parent a
  let right := find left.2 b
  if left.1 = right.1 then right.2
  else right.2.set (max left.1 right.1) (min left.1 right.1)

/-- Such a union gives the class of the larger root the smaller one. -/
theorem Forest.unionMin {parent : List Nat} (h : Forest parent) {a b : Nat}
    (ha : a < parent.length) (hb : b < parent.length)
    : Forest (unionMin parent a b)
      ∧ (UnionFind.unionMin parent a b).length = parent.length
      ∧ ∀ z, root (UnionFind.unionMin parent a b) z
        = if root parent z = max (root parent a) (root parent b)
          then min (root parent a) (root parent b) else root parent z := by
  obtain ⟨hfa, hra⟩ := h.find a
  obtain ⟨hfb, hrb⟩ := hfa.find b
  have hroots (z : Nat)
      : root (UnionFind.find (UnionFind.find parent a).2 b).2 z = root parent z :=
    (hrb z).trans (hra z)
  have hsecond : (UnionFind.find (UnionFind.find parent a).2 b).1 = root parent b := hra b
  simp only [UnionFind.unionMin, hsecond]
  rw [show (UnionFind.find parent a).1 = root parent a from rfl]
  have htop (z : Nat) : parentOf (UnionFind.find (UnionFind.find parent a).2 b).2
      (root parent z) = root parent z := by
    rw [← hroots z]
    exact hfb.parentOf_root z
  have hlta := root_lt h ha
  have hltb := root_lt h hb
  split
  · next heq =>
      refine ⟨hfb, by simp, ?_⟩
      intro z
      rw [hroots, heq, max_self, min_self]
      split
      · next hz => exact hz
      · rfl
  · next hne =>
      rcases Nat.le_total (root parent a) (root parent b) with hle | hle
      · rw [max_eq_right hle, min_eq_left hle]
        obtain ⟨hforest, hlink⟩ := hfb.link (htop a) (htop b) (by simpa using hlta)
          (by simpa using hltb) hne
        exact ⟨hforest, by simp, fun z => by rw [hlink, hroots]⟩
      · rw [max_eq_left hle, min_eq_right hle]
        obtain ⟨hforest, hlink⟩ := hfb.link (htop b) (htop a) (by simpa using hltb)
          (by simpa using hlta) (Ne.symm hne)
        exact ⟨hforest, by simp, fun z => by rw [hlink, hroots]⟩

-- Valuations

variable {V : Type*}

/-- The valuation gives every element the value of its root. -/
def Agrees (parent : List Nat) (v : Nat → V) : Prop := ∀ x, v x = v (root parent x)

/-- A union adds the equality of its two elements. -/
theorem Forest.agrees_union {parent : List Nat} (h : Forest parent) {a b : Nat}
    (ha : a < parent.length) (hb : b < parent.length) (v : Nat → V)
    : Agrees (UnionFind.union parent a b) v ↔ Agrees parent v ∧ v a = v b := by
  obtain ⟨-, -, hroot⟩ := h.union ha hb
  constructor
  · intro hv
    -- an element and its old root have the same new root
    have hold : Agrees parent v := by
      intro x
      rw [hv x, hv (root parent x), hroot, hroot, h.root_root]
    refine ⟨hold, ?_⟩
    rw [hv a, hv b, hroot, hroot, if_pos rfl]
    split <;> rfl
  · intro hv x
    obtain ⟨hold, hab⟩ := hv
    rw [hroot]
    split
    · next hx => rw [hold x, hx, ← hold b, ← hab, ← hold a]
    · exact hold x

/-- The table of singletons. -/
def singletons (size : Nat) : List Nat := List.range size

def unionAll (parent : List Nat) (pairs : List (Nat × Nat)) : List Nat :=
  pairs.foldl (fun parent pair => union parent pair.1 pair.2) parent

theorem parentOf_singletons (size x : Nat) : parentOf (singletons size) x = x := by
  by_cases hx : x < size
  · simp [parentOf, singletons, List.getD_eq_getElem?_getD, hx]
  · have hnone : (List.range size)[x]? = none := List.getElem?_eq_none (by simpa using hx)
    simp [parentOf, singletons, List.getD_eq_getElem?_getD, hnone]

theorem forest_singletons (size : Nat) : Forest (singletons size) :=
  ⟨id, fun x hx => absurd (parentOf_singletons size x) hx⟩

/-- After a list of unions the agreeing valuations are those that respect the pairs, by list
induction.
-/
theorem Forest.unionAll {parent : List Nat} (h : Forest parent) (pairs : List (Nat × Nat))
    (range : ∀ pair ∈ pairs, pair.1 < parent.length ∧ pair.2 < parent.length)
    : Forest (unionAll parent pairs)
      ∧ (UnionFind.unionAll parent pairs).length = parent.length
      ∧ ∀ v : Nat → V, Agrees (UnionFind.unionAll parent pairs) v
        ↔ Agrees parent v ∧ ∀ pair ∈ pairs, v pair.1 = v pair.2 := by
  induction pairs generalizing parent with
  | nil => exact ⟨h, rfl, fun v => by simp [UnionFind.unionAll]⟩
  | cons pair pairs ih =>
      obtain ⟨hp, hrest⟩ := List.forall_mem_cons.mp range
      obtain ⟨hf, hlen, -⟩ := h.union hp.1 hp.2
      obtain ⟨hforest, hlength, hagree⟩ := ih hf (by
        rw [hlen]
        exact hrest)
      refine ⟨hforest, hlength.trans hlen, ?_⟩
      intro v
      refine (hagree v).trans ?_
      rw [h.agrees_union hp.1 hp.2, List.forall_mem_cons, and_assoc]

/-- Starting from singletons, a valuation agrees with the roots exactly when it respects the
united pairs.
-/
theorem agrees_unionAll_iff {size : Nat} {pairs : List (Nat × Nat)}
    (range : ∀ pair ∈ pairs, pair.1 < size ∧ pair.2 < size) (v : Nat → V)
    : Agrees (unionAll (singletons size) pairs) v ↔ ∀ pair ∈ pairs, v pair.1 = v pair.2 := by
  obtain ⟨-, -, hagree⟩ := (forest_singletons size).unionAll (V := V) pairs (by
    simpa [singletons] using range)
  rw [hagree v, and_iff_right]
  intro x
  rw [(forest_singletons size).root_of_fixed (parentOf_singletons size x)]

theorem forest_unionAll {size : Nat} {pairs : List (Nat × Nat)}
    (range : ∀ pair ∈ pairs, pair.1 < size ∧ pair.2 < size)
    : Forest (unionAll (singletons size) pairs) :=
  ((forest_singletons size).unionAll (V := Nat) pairs (by
    simpa [singletons] using range)).1

-- Smallest elements as roots

def unionAllMin (parent : List Nat) (pairs : List (Nat × Nat)) : List Nat :=
  pairs.foldl (fun parent pair => unionMin parent pair.1 pair.2) parent

/-- A forest of the classes of a relation, each below its smallest element. -/
structure Classes (parent : List Nat) (r : Nat → Nat → Prop) : Prop where
  forest : Forest parent
  root_le : ∀ z, root parent z ≤ z
  root_eq_iff : ∀ x y, root parent x = root parent y ↔ Relation.EqvGen r x y

theorem classes_singletons (size : Nat) {r : Nat → Nat → Prop} (none_related : ∀ x y, ¬ r x y)
    : Classes (singletons size) r := by
  have hroot (x : Nat) : root (singletons size) x = x :=
    (forest_singletons size).root_of_fixed (parentOf_singletons size x)
  refine ⟨forest_singletons size, fun z => (hroot z).le, fun x y => ?_⟩
  rw [hroot, hroot]
  constructor
  · intro h
    exact h ▸ .refl x
  · intro h
    induction h with
    | rel x y related => exact absurd related (none_related x y)
    | refl x => rfl
    | symm x y _ ih => exact ih.symm
    | trans x y z _ _ ih ih' => exact ih.trans ih'

/-- The root of an element is related to it. -/
theorem Classes.root_related {parent : List Nat} {r : Nat → Nat → Prop} (h : Classes parent r)
    (x : Nat)
    : Relation.EqvGen r (root parent x) x :=
  (h.root_eq_iff _ _).mp (h.forest.root_root x)

/-- The classes determine the roots, which are their smallest elements. -/
theorem Classes.root_unique {parent other : List Nat} {r : Nat → Nat → Prop}
    (h : Classes parent r) (h' : Classes other r) (x : Nat)
    : root parent x = root other x := by
  have hbelow {parent other : List Nat} (h : Classes parent r) (h' : Classes other r)
      : root parent x ≤ root other x := by
    rw [← (h.root_eq_iff _ _).mpr (h'.root_related x)]
    exact h.root_le _
  exact Nat.le_antisymm (hbelow h h') (hbelow h' h)

/-- A union adds its pair to the relation. -/
theorem Classes.unionMin {parent : List Nat} {r : Nat → Nat → Prop} (h : Classes parent r)
    {a b : Nat} (ha : a < parent.length) (hb : b < parent.length)
    : Classes (UnionFind.unionMin parent a b) (fun x y => r x y ∨ (x = a ∧ y = b)) := by
  obtain ⟨hforest, -, hroot⟩ := h.forest.unionMin ha hb
  have hmono {x y : Nat} (hxy : Relation.EqvGen r x y)
      : Relation.EqvGen (fun x y => r x y ∨ (x = a ∧ y = b)) x y :=
    hxy.mono fun _ _ related => .inl related
  have hpair : Relation.EqvGen (fun x y => r x y ∨ (x = a ∧ y = b))
      (root parent a) (root parent b) :=
    ((hmono (h.root_related a)).trans _ _ _ (.rel _ _ (.inr ⟨rfl, rfl⟩))).trans _ _ _
      (hmono (h.root_related b)).symm
  have hrelated (z : Nat) : Relation.EqvGen (fun x y => r x y ∨ (x = a ∧ y = b))
      (root (UnionFind.unionMin parent a b) z) z := by
    have hold := hmono (h.root_related z)
    rw [hroot]
    split
    · next hmax =>
        rw [hmax] at hold
        refine Relation.EqvGen.trans _ _ _ ?_ hold
        rcases Nat.le_total (root parent a) (root parent b) with hle | hle
        · rw [max_eq_right hle, min_eq_left hle]
          exact hpair
        · rw [max_eq_left hle, min_eq_right hle]
          exact hpair.symm
    · exact hold
  refine ⟨hforest, fun z => ?_, fun x y => ⟨fun heq => ?_, fun hxy => ?_⟩⟩
  · rw [hroot]
    have := h.root_le z
    split <;> omega
  · exact ((hrelated x).symm.trans _ _ _ (heq ▸ hrelated y))
  · induction hxy with
    | rel x y related =>
        rw [hroot, hroot]
        rcases related with related | ⟨rfl, rfl⟩
        · rw [(h.root_eq_iff x y).mpr (.rel _ _ related)]
        · split <;> split <;> omega
    | refl x => rfl
    | symm x y _ ih => exact ih.symm
    | trans x y z _ _ ih ih' => exact ih.trans ih'

/-- Unions of all pairs give the classes that the pairs generate, by list induction. -/
theorem Classes.unionAllMin {parent : List Nat} {r : Nat → Nat → Prop} (h : Classes parent r)
    (pairs : List (Nat × Nat))
    (range : ∀ pair ∈ pairs, pair.1 < parent.length ∧ pair.2 < parent.length)
    : Classes (UnionFind.unionAllMin parent pairs) (fun x y => r x y ∨ (x, y) ∈ pairs) := by
  induction pairs generalizing parent r with
  | nil => simpa [UnionFind.unionAllMin] using h
  | cons pair pairs ih =>
      obtain ⟨⟨ha, hb⟩, hrest⟩ := List.forall_mem_cons.mp range
      have hlength := (h.forest.unionMin ha hb).2.1
      have hall := ih (h.unionMin ha hb) (by rwa [hlength])
      have hsame : (fun x y => (r x y ∨ (x = pair.1 ∧ y = pair.2)) ∨ (x, y) ∈ pairs)
          = fun x y => r x y ∨ (x, y) ∈ pair :: pairs := by
        ext x y
        rw [List.mem_cons, Prod.ext_iff, or_assoc]
      rwa [hsame] at hall

end Xlog.Foundation.UnionFind
