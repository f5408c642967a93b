import Mathlib.Data.Finset.Card
import Xlog.Logic.Foundedness

/-! What a match of a rule's head and a substitution into its body mean, and how deep a search for an
independent support goes.
-/

namespace Xlog.Logic

open Xlog.Foundation Xlog.Ir

-- Ground terms

theorem allGround_iff {terms : List EirTerm}
    : eirTermIsGround.allGround terms = true ↔ ∀ term ∈ terms, eirTermIsGround term = true := by
  induction terms with
  | nil => simp [eirTermIsGround.allGround]
  | cons term terms ih => simp [eirTermIsGround.allGround, ih]

theorem isDefinite_of_ground (term : EirTerm) (h : eirTermIsGround term = true)
    : term.isDefinite = true := by
  induction term using EirTerm.induction with
  | var name => simp [eirTermIsGround] at h
  | anonymous => simp [eirTermIsGround] at h
  | aggregate op name => simp [eirTermIsGround] at h
  | list items ih =>
    have hitems := allGround_iff.mp h
    exact EirTerm.allDefinite_iff.mpr fun item hitem => ih item hitem (hitems item hitem)
  | cons head tail ihHead ihTail =>
    obtain ⟨hhead, htail⟩ := (Bool.and_eq_true _ _).mp h
    exact (Bool.and_eq_true _ _).mpr ⟨ihHead hhead, ihTail htail⟩
  | compound functor args ih =>
    have hargs := allGround_iff.mp h
    exact EirTerm.allDefinite_iff.mpr fun arg harg => ih arg harg (hargs arg harg)
  | _ => rfl

section

variable {V : Type} {A : TermAlgebra V}

theorem forall₂_matches_congr {v w : String → V} {terms others : List EirTerm} {values : List V}
    (h : List.Forall₂ (fun term other => ∀ value, term.Matches A v value ↔ other.Matches A w value)
      terms others)
    : List.Forall₂ (EirTerm.Matches A v) terms values
      ↔ List.Forall₂ (EirTerm.Matches A w) others values := by
  induction h generalizing values with
  | nil => simp
  | cons hterm _ ih =>
    cases values with
    | nil => simp
    | cons value values => rw [List.forall₂_cons, List.forall₂_cons, hterm, ih]

/-- The values of a ground term do not depend on the assignment. -/
theorem matches_of_ground (v w : String → V) (term : EirTerm) (h : eirTermIsGround term = true)
    (value : V)
    : term.Matches A v value ↔ term.Matches A w value := by
  induction term using EirTerm.induction generalizing value with
  | var name => simp [eirTermIsGround] at h
  | anonymous => simp [eirTermIsGround] at h
  | aggregate op name => simp [eirTermIsGround] at h
  | list items ih =>
    have hitems := allGround_iff.mp h
    have hall : List.Forall₂ (fun item other => ∀ value,
        EirTerm.Matches A v item value ↔ EirTerm.Matches A w other value) items items :=
      List.forall₂_same.mpr fun item hitem => ih item hitem (hitems item hitem)
    simp only [EirTerm.Matches, EirTerm.matchesAll_iff, forall₂_matches_congr hall]
  | cons head tail ihHead ihTail =>
    obtain ⟨hhead, htail⟩ := (Bool.and_eq_true _ _).mp h
    simp only [EirTerm.Matches, ihHead hhead, ihTail htail]
  | compound functor args ih =>
    have hargs := allGround_iff.mp h
    have hall : List.Forall₂ (fun arg other => ∀ value,
        EirTerm.Matches A v arg value ↔ EirTerm.Matches A w other value) args args :=
      List.forall₂_same.mpr fun arg harg => ih arg harg (hargs arg harg)
    simp only [EirTerm.Matches, EirTerm.matchesAll_iff, forall₂_matches_congr hall]
  | _ => rfl

theorem EirAtom.Holds.of_ground {v w : String → V} {tuples : Set (GroundAtom V)} {atom : EirAtom}
    (hground : atom.terms.all eirTermIsGround = true) (h : atom.Holds A v tuples)
    : atom.Holds A w tuples := by
  obtain ⟨tuple, htuple, hpredicate, hterms⟩ := h
  have hsame : List.Forall₂ (EirTerm.Matches A v) atom.terms tuple.values
      ↔ List.Forall₂ (EirTerm.Matches A w) atom.terms tuple.values :=
    forall₂_matches_congr <| List.forall₂_same.mpr fun term hterm =>
      matches_of_ground v w term (List.all_eq_true.mp hground term hterm)
  exact ⟨tuple, htuple, hpredicate, hsame.mp hterms⟩

-- Substitution

/-- The assignment gives the replaced variables the values of their terms, and the others theirs. -/
structure Realizes (A : TermAlgebra V) (v : String → V) (substitution : Substitution)
    (w : String → V) : Prop where
  bound : ∀ name term, substitution.lookup name = some term
    → ∀ value, term.Matches A v value ↔ value = w name
  free : ∀ name, substitution.lookup name = none → w name = v name

/-- Definite terms can be realized. -/
theorem exists_realizes (v : String → V) {substitution : Substitution}
    (h : ∀ name term, substitution.lookup name = some term → term.isDefinite = true)
    : ∃ w, Realizes A v substitution w := by
  have hvalue (name : String) : ∃ value : V,
      (∀ term, substitution.lookup name = some term
        → ∀ other, term.Matches A v other ↔ other = value)
      ∧ (substitution.lookup name = none → value = v name) := by
    cases hlookup : substitution.lookup name with
    | none => exact ⟨v name, by simp, fun _ => rfl⟩
    | some term =>
      obtain ⟨value, hvalue⟩ := term.exists_matches_iff (A := A) v (h name term hlookup)
      refine ⟨value, ?_, by simp⟩
      rintro _ ⟨⟩
      exact hvalue
  choose w hbound hfree using hvalue
  exact ⟨w, hbound, hfree⟩

variable {v w : String → V} {substitution : Substitution}

theorem substituteTerms_spec {terms terms' : List EirTerm}
    (hsub : substituteEirTerm.substituteTerms substitution terms = some terms')
    (hterms : ∀ term ∈ terms, ∀ term', substituteEirTerm substitution term = some term'
      → ∀ value, term'.Matches A v value ↔ term.Matches A w value)
    : List.Forall₂ (fun term' term => ∀ value, term'.Matches A v value ↔ term.Matches A w value)
        terms' terms := by
  induction terms generalizing terms' with
  | nil =>
    cases Option.some.inj hsub
    exact .nil
  | cons term terms ih =>
    obtain ⟨hterm, hrest⟩ := List.forall_mem_cons.mp hterms
    simp only [substituteEirTerm.substituteTerms] at hsub
    split at hsub
    · next first rest hfirst hothers =>
      cases Option.some.inj hsub
      exact .cons (hterm first hfirst) (ih hothers hrest)
    · simp at hsub

/-- Substitution commutes with taking values. -/
theorem substituteEirTerm_spec (hreal : Realizes A v substitution w) (term : EirTerm)
    {term' : EirTerm} (hsub : substituteEirTerm substitution term = some term') (value : V)
    : term'.Matches A v value ↔ term.Matches A w value := by
  induction term using EirTerm.induction generalizing term' value with
  | var name =>
    cases Option.some.inj hsub
    cases hlookup : substitution.lookup name with
    | none => simp [EirTerm.Matches, hreal.free name hlookup]
    | some replaced => simpa [EirTerm.Matches] using hreal.bound name replaced hlookup value
  | anonymous => simp [substituteEirTerm] at hsub
  | aggregate op name => simp [substituteEirTerm] at hsub
  | list items ih =>
    obtain ⟨items', hitems, rfl⟩ := Option.map_eq_some_iff.mp hsub
    have hall := substituteTerms_spec hitems fun item hitem _ => ih item hitem
    simp only [EirTerm.Matches, EirTerm.matchesAll_iff, forall₂_matches_congr hall]
  | cons head tail ihHead ihTail =>
    simp only [substituteEirTerm] at hsub
    split at hsub
    · next first rest hfirst hrest =>
      cases Option.some.inj hsub
      simp only [EirTerm.Matches, ihHead hfirst, ihTail hrest]
    · simp at hsub
  | compound functor args ih =>
    obtain ⟨args', hargs, rfl⟩ := Option.map_eq_some_iff.mp hsub
    have hall := substituteTerms_spec hargs fun arg harg _ => ih arg harg
    simp only [EirTerm.Matches, EirTerm.matchesAll_iff, forall₂_matches_congr hall]
  | _ =>
    cases Option.some.inj hsub
    rfl

theorem substituteEirAtom_holds (hreal : Realizes A v substitution w)
    {tuples : Set (GroundAtom V)} {atom atom' : EirAtom}
    (hsub : substituteEirAtom substitution atom = some atom')
    : atom'.Holds A v tuples ↔ atom.Holds A w tuples := by
  obtain ⟨terms', hterms, rfl⟩ := Option.map_eq_some_iff.mp hsub
  have hall := substituteTerms_spec hterms fun term _ _ => substituteEirTerm_spec hreal term
  simp only [EirAtom.Holds, EirAtom.Matches, forall₂_matches_congr hall]

end

-- Heads

/-- A head argument is a variable that stands for the atom's argument, or the argument itself. -/
def HeadTermFits (substitution : Substitution) (headTerm atomTerm : EirTerm) : Prop :=
  (∃ name, headTerm = .var name ∧ substitution.lookup name = some atomTerm)
  ∨ headTerm = atomTerm ∧ headTerm ≠ .anonymous ∧ ∀ name, headTerm ≠ .var name

theorem HeadTermFits.mono {substitution substitution' : Substitution} {headTerm atomTerm : EirTerm}
    (h : HeadTermFits substitution headTerm atomTerm)
    (hmore : ∀ name term, substitution.lookup name = some term
      → substitution'.lookup name = some term)
    : HeadTermFits substitution' headTerm atomTerm := by
  rcases h with ⟨name, rfl, hlookup⟩ | h
  · exact .inl ⟨name, rfl, hmore name _ hlookup⟩
  · exact .inr h

/-- One argument: bindings are kept, and a new one is to the atom's argument. -/
theorem matchHeadTerm_spec {substitution substitution' : Substitution} {headTerm atomTerm : EirTerm}
    (h : matchHeadTerm substitution headTerm atomTerm = some substitution')
    : (∀ name term, substitution.lookup name = some term → substitution'.lookup name = some term)
      ∧ HeadTermFits substitution' headTerm atomTerm
      ∧ ∀ name term, substitution'.lookup name = some term
        → substitution.lookup name = some term ∨ term = atomTerm := by
  unfold matchHeadTerm at h
  split at h
  · next name =>
    split at h
    · next existing hlookup =>
      split at h
      · simp at h
      · next hsame =>
        cases Option.some.inj h
        obtain rfl := not_not.mp hsame
        exact ⟨fun _ _ h => h, .inl ⟨name, rfl, hlookup⟩, fun _ _ h => .inl h⟩
    · next hlookup =>
      cases Option.some.inj h
      refine ⟨?_, .inl ⟨name, rfl, by simp⟩, ?_⟩
      · intro other term hother
        have hne : other ≠ name := by
          rintro rfl
          simp [hlookup] at hother
        simpa [List.lookup_cons, beq_false_of_ne hne] using hother
      · intro other term hother
        by_cases hname : other = name
        · subst hname
          exact .inr (by simpa using hother.symm)
        · exact .inl (by simpa [List.lookup_cons, beq_false_of_ne hname] using hother)
  · simp at h
  · next hvar hanonymous =>
    split at h
    · next hsame =>
      cases Option.some.inj h
      exact ⟨fun _ _ h => h, .inr ⟨hsame, fun heq => hanonymous heq, fun name => hvar name⟩,
        fun _ _ h => .inl h⟩
    · simp at h

theorem matchHeadTerms_spec {substitution substitution' : Substitution}
    {headTerms atomTerms : List EirTerm} (hlength : headTerms.length = atomTerms.length)
    (h : matchHeadTerms substitution headTerms atomTerms = some substitution')
    : (∀ name term, substitution.lookup name = some term → substitution'.lookup name = some term)
      ∧ List.Forall₂ (HeadTermFits substitution') headTerms atomTerms
      ∧ ∀ name term, substitution'.lookup name = some term
        → substitution.lookup name = some term ∨ term ∈ atomTerms := by
  induction headTerms generalizing atomTerms substitution with
  | nil =>
    obtain rfl : atomTerms = [] := by simpa using hlength.symm
    cases Option.some.inj h
    exact ⟨fun _ _ h => h, .nil, fun _ _ h => .inl h⟩
  | cons headTerm headTerms ih =>
    cases atomTerms with
    | nil => simp at hlength
    | cons atomTerm atomTerms =>
      simp only [matchHeadTerms] at h
      split at h
      · next between hfirst =>
        obtain ⟨hkeeps, hfits, hnew⟩ := matchHeadTerm_spec hfirst
        obtain ⟨hkeeps', hfits', hnew'⟩ := ih (by simpa using hlength) h
        refine ⟨fun name term hlookup => hkeeps' name term (hkeeps name term hlookup),
          .cons (hfits.mono hkeeps') hfits', ?_⟩
        intro name term hlookup
        rcases hnew' name term hlookup with hbetween | hmem
        · exact (hnew name term hbetween).imp_right fun heq => by simp [heq]
        · exact .inr (List.mem_cons_of_mem _ hmem)
      · simp at h

structure HeadMatch (head atom : EirAtom) (substitution : Substitution) : Prop where
  predicate : head.predicate = atom.predicate
  terms : List.Forall₂ (HeadTermFits substitution) head.terms atom.terms
  range : ∀ name term, substitution.lookup name = some term → term ∈ atom.terms

theorem headSubstitutionToAtom_spec {head atom : EirAtom} {substitution : Substitution}
    (h : headSubstitutionToAtom head atom = some substitution)
    : HeadMatch head atom substitution := by
  unfold headSubstitutionToAtom at h
  split at h
  · simp at h
  · next hsignature =>
    obtain ⟨hpredicate, harity⟩ := not_or.mp hsignature
    obtain ⟨-, hterms, hrange⟩ := matchHeadTerms_spec (not_not.mp harity) h
    refine ⟨not_not.mp hpredicate, hterms, ?_⟩
    intro name term hlookup
    simpa using hrange name term hlookup

end Xlog.Logic
