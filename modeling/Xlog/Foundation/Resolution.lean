import Xlog.Foundation.Cnf

/-! Entailment between clauses, and when resolving on a variable is sound: exactly when the
second clause has the variable with one sign only.
-/

namespace Xlog.Foundation.Cnf

/-- Whatever satisfies the premises satisfies the clause. -/
def Entails (premises : List Clause) (clause : Clause) : Prop :=
  ∀ a, Satisfies a premises → ClauseHolds a clause

def Unsatisfiable (clauses : List Clause) : Prop :=
  ∀ a, ¬ Satisfies a clauses

variable {premises : List Clause} {clause left right : Clause} {lit : Int}

theorem entails_of_mem (h : clause ∈ premises) : Entails premises clause :=
  fun _ ha => ha clause h

/-- Entailed premises may be used as if they were given. -/
theorem Entails.cut {lemmas : List Clause} (h : Entails lemmas clause)
    (hlemmas : ∀ lemma' ∈ lemmas, Entails premises lemma')
    : Entails premises clause :=
  fun a ha => h a fun lemma' hmem => hlemmas lemma' hmem a ha

theorem Entails.mono (h : Entails premises left) (hsub : left ⊆ right)
    : Entails premises right := by
  intro a ha
  obtain ⟨lit, hlit, htrue⟩ := h a ha
  exact ⟨lit, hsub hlit, htrue⟩

/-- The empty clause is entailed by unsatisfiable premises only. -/
theorem entails_nil : Entails premises [] ↔ Unsatisfiable premises := by
  simp [Entails, Unsatisfiable]

-- Proper clauses

/-- No literal is zero, and none stands beside its complement. -/
def Proper (clause : Clause) : Prop :=
  ∀ lit ∈ clause, lit ≠ 0 ∧ -lit ∉ clause

theorem litHolds_complement (h : lit ≠ 0) (a : Assignment)
    : litHolds a (-lit) = !litHolds a lit := by
  unfold litHolds
  rcases lt_trichotomy lit 0 with hneg | hzero | hpos
  · simp [hneg, Int.not_lt.mpr hneg.le]
  · exact absurd hzero h
  · simp [hpos, Int.not_lt.mpr hpos.le]

/-- A proper clause can be false while a literal of another variable is true. -/
theorem Proper.exists_false (h : Proper clause)
    (hother : ∀ other ∈ clause, other.natAbs ≠ lit.natAbs)
    : ∃ a, litHolds a lit = true ∧ ∀ other ∈ clause, litHolds a other = false := by
  refine ⟨fun v => if v = lit.natAbs then decide (0 < lit) else decide ((v : Int) ∉ clause),
    ?_, ?_⟩
  · unfold litHolds
    split_ifs with hpos <;> simp [hpos]
  · intro other hmem
    obtain ⟨hzero, hcomplement⟩ := h other hmem
    unfold litHolds
    dsimp only
    rw [if_neg (hother other hmem)]
    split_ifs with hpos
    · have heq : (other.natAbs : Int) = other := Int.natAbs_of_nonneg hpos.le
      simp [heq, hmem]
    · have heq : (other.natAbs : Int) = -other := Int.ofNat_natAbs_of_nonpos (by omega)
      simp [heq, hcomplement]

/-- A proper clause entails just the clauses that contain it. -/
theorem Proper.entails_iff (h : Proper clause) (hsub : left ⊆ clause)
    : Entails [clause] left ↔ clause ⊆ left := by
  constructor
  · intro hentails lit hlit
    by_contra hnot
    have hleft : Proper left := fun other hother =>
      ⟨(h other (hsub hother)).1, fun hcomplement =>
        (h other (hsub hother)).2 (hsub hcomplement)⟩
    have hother : ∀ other ∈ left, other.natAbs ≠ lit.natAbs := by
      intro other hother heq
      rcases Int.natAbs_eq_natAbs_iff.mp heq with rfl | hcomplement
      · exact hnot hother
      · exact (h lit hlit).2 (hcomplement ▸ hsub hother)
    obtain ⟨a, htrue, hfalse⟩ := hleft.exists_false hother
    obtain ⟨other, hmem, hholds⟩ := hentails a (by simpa using ⟨lit, hlit, htrue⟩)
    rw [hfalse other hmem] at hholds
    cases hholds
  · intro hsuper
    exact (entails_of_mem (List.mem_singleton_self clause)).mono hsuper

-- Resolution

/-- The literals of the other variables. -/
def without (v : Nat) (clause : Clause) : Clause :=
  clause.filter (fun lit => lit.natAbs ≠ v)

/-- Both clauses without the variable, whatever signs it has in them. -/
def resolvent (v : Nat) (left right : Clause) : Clause :=
  without v left ++ without v right

@[simp]
theorem mem_without {v : Nat} : lit ∈ without v clause ↔ lit ∈ clause ∧ lit.natAbs ≠ v := by
  simp [without]

theorem mem_resolvent {v : Nat}
    : lit ∈ resolvent v left right ↔ (lit ∈ left ∨ lit ∈ right) ∧ lit.natAbs ≠ v := by
  simp [resolvent, or_and_right]

/-- A clause without a literal of the variable that could hold keeps a true literal. -/
theorem exists_without {a : Assignment} {v : Nat} (hholds : ClauseHolds a clause)
    (hfalse : ∀ other ∈ clause, other.natAbs = v → litHolds a other = false)
    : ∃ other ∈ without v clause, litHolds a other = true := by
  obtain ⟨other, hmem, htrue⟩ := hholds
  refine ⟨other, mem_without.mpr ⟨hmem, ?_⟩, htrue⟩
  intro heq
  rw [hfalse other hmem heq] at htrue
  cases htrue

/-- Resolving a proper clause with one that has the complement is sound, and derives a clause
that is entailed, exactly when the literal itself is not in the second one.
-/
theorem entails_resolvent_iff (hleft : Proper left)
    (hresolvent : Proper (resolvent lit.natAbs left right)) (hlit : lit ∈ left)
    (hcomplement : -lit ∈ right)
    : Entails [left, right] (resolvent lit.natAbs left right) ↔ lit ∉ right := by
  obtain ⟨hzero, hsingle⟩ := hleft lit hlit
  constructor
  · intro hentails htwo
    have hother : ∀ other ∈ resolvent lit.natAbs left right, other.natAbs ≠ lit.natAbs :=
      fun other hmem => (mem_resolvent.mp hmem).2
    obtain ⟨a, htrue, hfalse⟩ := hresolvent.exists_false hother
    have hholds : Satisfies a [left, right] := by
      simpa using ⟨⟨lit, hlit, htrue⟩, ⟨lit, htwo, htrue⟩⟩
    obtain ⟨other, hmem, hother⟩ := hentails a hholds
    rw [hfalse other hmem] at hother
    cases hother
  · intro hnot a ha
    simp only [satisfies_cons, satisfies_nil, and_true] at ha
    have hmine {other : Int} (heq : other.natAbs = lit.natAbs) : other = lit ∨ other = -lit :=
      Int.natAbs_eq_natAbs_iff.mp heq
    cases htrue : litHolds a lit with
    | true =>
        obtain ⟨other, hmem, hother⟩
          := exists_without (v := lit.natAbs) ha.2 (by
            intro other hmem heq
            rcases hmine heq with rfl | rfl
            · exact absurd hmem hnot
            · rw [litHolds_complement hzero, htrue]
              rfl)
        exact ⟨other, List.mem_append_right _ hmem, hother⟩
    | false =>
        obtain ⟨other, hmem, hother⟩
          := exists_without (v := lit.natAbs) ha.1 (by
            intro other hmem heq
            rcases hmine heq with rfl | rfl
            · exact htrue
            · exact absurd hmem hsingle)
        exact ⟨other, List.mem_append_left _ hmem, hother⟩

end Xlog.Foundation.Cnf
