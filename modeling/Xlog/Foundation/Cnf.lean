import Mathlib.Algebra.Order.Ring.Int
import Mathlib.Data.List.Basic

/-! Clause sets over signed integer literals, and the clause schemas that define one
variable as a gate over others. A positive literal is its variable, a negative one its
complement.
-/

namespace Xlog.Foundation.Cnf

abbrev Clause := List Int
abbrev Assignment := Nat → Bool

/-- A literal holds when the sign agrees with its variable's value. -/
def litHolds (a : Assignment) (lit : Int) : Bool :=
  if 0 < lit then a lit.natAbs else !a lit.natAbs

/-- A clause holds when one of its literals does. -/
def ClauseHolds (a : Assignment) (clause : Clause) : Prop :=
  ∃ lit ∈ clause, litHolds a lit = true

/-- A clause set holds when all of its clauses do. -/
def Satisfies (a : Assignment) (clauses : List Clause) : Prop :=
  ∀ clause ∈ clauses, ClauseHolds a clause

/-- Every literal names a variable of the range `1..numVars`. -/
def InRange (numVars : Nat) (clauses : List Clause) : Prop :=
  ∀ clause ∈ clauses, ∀ lit ∈ clause, 1 ≤ lit.natAbs ∧ lit.natAbs ≤ numVars

@[simp] theorem litHolds_ofNat {a : Assignment} {v : Nat} (h : 0 < v)
    : litHolds a (v : Int) = a v := by
  simp [litHolds, h]

@[simp] theorem litHolds_neg {a : Assignment} {v : Nat}
    : litHolds a (-(v : Int)) = !a v := by
  simp [litHolds]

@[simp] theorem clauseHolds_nil {a : Assignment} : ¬ ClauseHolds a [] := by
  simp [ClauseHolds]

@[simp] theorem clauseHolds_cons {a : Assignment} {lit : Int} {clause : Clause}
    : ClauseHolds a (lit :: clause) ↔ litHolds a lit = true ∨ ClauseHolds a clause := by
  simp [ClauseHolds]

@[simp] theorem clauseHolds_append {a : Assignment} {left right : Clause}
    : ClauseHolds a (left ++ right) ↔ ClauseHolds a left ∨ ClauseHolds a right := by
  simp [ClauseHolds, or_and_right, exists_or]

@[simp] theorem satisfies_nil {a : Assignment} : Satisfies a [] := by
  simp [Satisfies]

@[simp] theorem satisfies_cons {a : Assignment} {clause : Clause} {clauses : List Clause}
    : Satisfies a (clause :: clauses) ↔ ClauseHolds a clause ∧ Satisfies a clauses := by
  simp [Satisfies]

@[simp] theorem satisfies_append {a : Assignment} {left right : List Clause}
    : Satisfies a (left ++ right) ↔ Satisfies a left ∧ Satisfies a right := by
  simp [Satisfies, or_imp, forall_and]

/-- Only the variables that occur matter. -/
theorem satisfies_congr {a b : Assignment} {clauses : List Clause}
    (agree : ∀ clause ∈ clauses, ∀ lit ∈ clause, a lit.natAbs = b lit.natAbs)
    : Satisfies a clauses ↔ Satisfies b clauses := by
  have hl : ∀ clause ∈ clauses, ∀ lit ∈ clause, litHolds a lit = litHolds b lit := by
    intro clause hc lit hlit
    simp only [litHolds, agree clause hc lit hlit]
  constructor <;> intro h clause hc <;> obtain ⟨lit, hlit, hv⟩ := h clause hc
  · exact ⟨lit, hlit, by rw [← hl clause hc lit hlit]; exact hv⟩
  · exact ⟨lit, hlit, by rw [hl clause hc lit hlit]; exact hv⟩

-- Gates

/-- `v` is a constant. -/
def constGate (v : Nat) (value : Bool) : List Clause :=
  if value then [[(v : Int)]] else [[-(v : Int)]]

/-- `v` is the complement of `x`. -/
def notGate (v x : Nat) : List Clause :=
  [[(v : Int), (x : Int)], [-(v : Int), -(x : Int)]]

/-- `v` is the conjunction of `xs`. -/
def andGate (v : Nat) (xs : List Nat) : List Clause :=
  xs.map (fun x : Nat => [-(v : Int), (x : Int)]) ++ [xs.map (fun x : Nat => -(x : Int)) ++ [(v : Int)]]

/-- `v` is the disjunction of `xs`. -/
def orGate (v : Nat) (xs : List Nat) : List Clause :=
  xs.map (fun x : Nat => [-(x : Int), (v : Int)]) ++ [-(v : Int) :: xs.map (fun x : Nat => (x : Int))]

/-- `v` is `t` when `x` holds and `f` otherwise. -/
def iteGate (v x f t : Nat) : List Clause :=
  [[-(x : Int), -(t : Int), (v : Int)], [(x : Int), -(f : Int), (v : Int)],
    [-(x : Int), (t : Int), -(v : Int)], [(x : Int), (f : Int), -(v : Int)]]

theorem constGate_mentions {v : Nat} {value : Bool} {clause : Clause}
    (hc : clause ∈ constGate v value) {lit : Int} (hl : lit ∈ clause)
    : lit.natAbs = v := by
  cases value <;> simp_all [constGate]

theorem notGate_mentions {v x : Nat} {clause : Clause} (hc : clause ∈ notGate v x) {lit : Int}
    (hl : lit ∈ clause)
    : lit.natAbs = v ∨ lit.natAbs = x := by
  rcases List.mem_pair.mp hc with rfl | rfl <;> rcases List.mem_pair.mp hl with rfl | rfl <;>
    simp

theorem andGate_mentions {v : Nat} {xs : List Nat} {clause : Clause}
    (hc : clause ∈ andGate v xs) {lit : Int} (hl : lit ∈ clause)
    : lit.natAbs = v ∨ lit.natAbs ∈ xs := by
  rcases List.mem_append.mp hc with hc | hc
  · obtain ⟨y, hy, rfl⟩ := List.mem_map.mp hc
    rcases List.mem_pair.mp hl with rfl | rfl
    · simp
    · exact .inr (by simpa using hy)
  · obtain rfl := List.mem_singleton.mp hc
    rcases List.mem_append.mp hl with hl | hl
    · obtain ⟨y, hy, rfl⟩ := List.mem_map.mp hl
      exact .inr (by simpa using hy)
    · obtain rfl := List.mem_singleton.mp hl
      simp

theorem orGate_mentions {v : Nat} {xs : List Nat} {clause : Clause}
    (hc : clause ∈ orGate v xs) {lit : Int} (hl : lit ∈ clause)
    : lit.natAbs = v ∨ lit.natAbs ∈ xs := by
  rcases List.mem_append.mp hc with hc | hc
  · obtain ⟨y, hy, rfl⟩ := List.mem_map.mp hc
    rcases List.mem_pair.mp hl with rfl | rfl
    · exact .inr (by simpa using hy)
    · simp
  · obtain rfl := List.mem_singleton.mp hc
    rcases List.mem_cons.mp hl with rfl | hl
    · simp
    · obtain ⟨y, hy, rfl⟩ := List.mem_map.mp hl
      exact .inr (by simpa using hy)

theorem iteGate_mentions {v x f t : Nat} {clause : Clause} (hc : clause ∈ iteGate v x f t)
    {lit : Int} (hl : lit ∈ clause)
    : lit.natAbs = v ∨ lit.natAbs = x ∨ lit.natAbs = f ∨ lit.natAbs = t := by
  simp only [iteGate, List.mem_cons, List.not_mem_nil, or_false] at hc
  rcases hc with rfl | rfl | rfl | rfl <;>
    simp only [List.mem_cons, List.not_mem_nil, or_false] at hl <;>
    rcases hl with rfl | rfl | rfl <;> simp

theorem satisfies_constGate {a : Assignment} {v : Nat} {value : Bool} (hv : 0 < v)
    : Satisfies a (constGate v value) ↔ a v = value := by
  cases value <;> simp [constGate, hv]

theorem satisfies_notGate {a : Assignment} {v x : Nat} (hv : 0 < v) (hx : 0 < x)
    : Satisfies a (notGate v x) ↔ a v = !a x := by
  cases ha : a v <;> cases hb : a x <;> simp [notGate, hv, hx, ha, hb]

/-- Two-sided conjunction schema: the short clauses push `v` down, the long one up. -/
theorem satisfies_andGate {a : Assignment} {v : Nat} {xs : List Nat} (hv : 0 < v)
    (hxs : ∀ x ∈ xs, 0 < x)
    : Satisfies a (andGate v xs) ↔ a v = xs.all a := by
  have hshort : Satisfies a (xs.map fun x : Nat => [-(v : Int), (x : Int)])
      ↔ (a v = true → ∀ x ∈ xs, a x = true) := by
    simp only [Satisfies, List.forall_mem_map, clauseHolds_cons, litHolds_neg, clauseHolds_nil,
      or_false, Bool.not_eq_true']
    constructor
    · intro h hav x hx
      simpa [hav, hxs x hx] using h x hx
    · intro h x hx
      cases hav : a v
      · exact .inl rfl
      · exact .inr (by simpa [hxs x hx] using h hav x hx)
  have hlong : ClauseHolds a (xs.map (fun x : Nat => -(x : Int)) ++ [(v : Int)])
      ↔ ((∀ x ∈ xs, a x = true) → a v = true) := by
    simp only [clauseHolds_append, clauseHolds_cons, clauseHolds_nil, or_false,
      litHolds_ofNat hv]
    constructor
    · rintro (⟨lit, hl, hf⟩ | h) hall
      · obtain ⟨x, hx, rfl⟩ := List.mem_map.mp hl
        simp [hall x hx] at hf
      · exact h
    · intro h
      by_cases hall : ∀ x ∈ xs, a x = true
      · exact .inr (h hall)
      · push Not at hall
        obtain ⟨x, hx, hf⟩ := hall
        exact .inl ⟨_, List.mem_map_of_mem hx, by simpa using hf⟩
  simp only [andGate, satisfies_append, satisfies_cons, satisfies_nil, and_true, hshort, hlong]
  have hall : a v = xs.all a ↔ (a v = true ↔ ∀ x ∈ xs, a x = true) := by
    rw [← List.all_eq_true]
    exact Bool.eq_iff_iff
  rw [hall]
  exact ⟨fun h => ⟨h.1, h.2⟩, fun h => ⟨h.mp, h.mpr⟩⟩

/-- Two-sided disjunction schema: the short clauses push `v` up, the long one down. -/
theorem satisfies_orGate {a : Assignment} {v : Nat} {xs : List Nat} (hv : 0 < v)
    (hxs : ∀ x ∈ xs, 0 < x)
    : Satisfies a (orGate v xs) ↔ a v = xs.any a := by
  have hshort : Satisfies a (xs.map fun x : Nat => [-(x : Int), (v : Int)])
      ↔ ((∃ x ∈ xs, a x = true) → a v = true) := by
    simp only [Satisfies, List.forall_mem_map, clauseHolds_cons, litHolds_neg, clauseHolds_nil,
      or_false, Bool.not_eq_true', litHolds_ofNat hv]
    constructor
    · rintro h ⟨x, hx, hax⟩
      simpa [hax] using h x hx
    · intro h x hx
      cases hax : a x
      · exact .inl rfl
      · exact .inr (h ⟨x, hx, hax⟩)
  have hlong : ClauseHolds a (-(v : Int) :: xs.map (fun x : Nat => (x : Int)))
      ↔ (a v = true → ∃ x ∈ xs, a x = true) := by
    simp only [clauseHolds_cons, litHolds_neg, Bool.not_eq_true']
    constructor
    · rintro (h | ⟨lit, hl, ht⟩) hav
      · simp [h] at hav
      · obtain ⟨x, hx, rfl⟩ := List.mem_map.mp hl
        exact ⟨x, hx, by simpa [hxs x hx] using ht⟩
    · intro h
      cases hav : a v
      · exact .inl rfl
      · obtain ⟨x, hx, hax⟩ := h hav
        exact .inr ⟨_, List.mem_map_of_mem hx, by simpa [hxs x hx] using hax⟩
  simp only [orGate, satisfies_append, satisfies_cons, satisfies_nil, and_true, hshort, hlong]
  have hany : a v = xs.any a ↔ (a v = true ↔ ∃ x ∈ xs, a x = true) := by
    rw [← List.any_eq_true]
    exact Bool.eq_iff_iff
  rw [hany]
  exact ⟨fun h => ⟨h.2, h.1⟩, fun h => ⟨h.mpr, h.mp⟩⟩

theorem satisfies_iteGate {a : Assignment} {v x f t : Nat} (hv : 0 < v) (hx : 0 < x)
    (hf : 0 < f) (ht : 0 < t)
    : Satisfies a (iteGate v x f t) ↔ a v = if a x then a t else a f := by
  cases hav : a v <;> cases hax : a x <;> cases hat : a t <;> cases haf : a f <;>
    simp [iteGate, hv, hx, hf, ht, hav, hax, hat, haf]

end Xlog.Foundation.Cnf
