import Mathlib

/-! Three-valued meaning of ground rules with negation, over any type of atoms: unfounded
sets, the well-founded model as a least fixpoint, and the alternating iteration towards it.
A partial interpretation is the pair of its true and its false atoms.
-/

namespace Xlog.Foundation

variable {α : Type*}

/-- A ground rule: the head holds when `pos` holds and `neg` fails. -/
structure NormalRule (α : Type*) where
  head : α
  pos : Set α
  neg : Set α

/-- The heads of the rules whose bodies hold: every positive atom true, every negated one
false.
-/
def derived (rules : Set (NormalRule α)) (interp : Set α × Set α) : Set α :=
  { a | ∃ rule ∈ rules, rule.head = a ∧ rule.pos ⊆ interp.1 ∧ rule.neg ⊆ interp.2 }

/-- No rule can support an atom of the set from outside the set. -/
def IsUnfounded (rules : Set (NormalRule α)) (interp : Set α × Set α) (atoms : Set α) : Prop :=
  ∀ rule ∈ rules, rule.head ∈ atoms
    → ∃ a, a ∈ rule.pos ∧ a ∈ interp.2 ∨ a ∈ rule.neg ∧ a ∈ interp.1
        ∨ a ∈ rule.pos ∧ a ∈ atoms

/-- The greatest unfounded set. -/
def unfounded (rules : Set (NormalRule α)) (interp : Set α × Set α) : Set α :=
  { a | ∃ atoms, IsUnfounded rules interp atoms ∧ a ∈ atoms }

theorem derived_mono (rules : Set (NormalRule α)) : Monotone (derived rules) := by
  intro I J h a ha
  obtain ⟨rule, hr, he, hp, hn⟩ := ha
  exact ⟨rule, hr, he, hp.trans h.1, hn.trans h.2⟩

theorem IsUnfounded.mono {rules : Set (NormalRule α)} {I J : Set α × Set α} {atoms : Set α}
    (h : IsUnfounded rules I atoms) (hle : I ≤ J)
    : IsUnfounded rules J atoms := by
  intro rule hr ha
  obtain ⟨a, hp | hn | hs⟩ := h rule hr ha
  · exact ⟨a, .inl ⟨hp.1, hle.2 hp.2⟩⟩
  · exact ⟨a, .inr (.inl ⟨hn.1, hle.1 hn.2⟩)⟩
  · exact ⟨a, .inr (.inr hs)⟩

theorem unfounded_mono (rules : Set (NormalRule α)) : Monotone (unfounded rules) := by
  intro I J h a ha
  obtain ⟨atoms, hu, ha⟩ := ha
  exact ⟨atoms, hu.mono h, ha⟩

theorem IsUnfounded.subset {rules : Set (NormalRule α)} {I : Set α × Set α} {atoms : Set α}
    (h : IsUnfounded rules I atoms)
    : atoms ⊆ unfounded rules I :=
  fun _ ha => ⟨atoms, h, ha⟩

/-- The greatest unfounded set is unfounded: unions of unfounded sets are. -/
theorem isUnfounded_unfounded (rules : Set (NormalRule α)) (I : Set α × Set α)
    : IsUnfounded rules I (unfounded rules I) := by
  intro rule hr ha
  obtain ⟨atoms, hu, ha⟩ := ha
  obtain ⟨a, hp | hn | hs⟩ := hu rule hr ha
  · exact ⟨a, .inl hp⟩
  · exact ⟨a, .inr (.inl hn)⟩
  · exact ⟨a, .inr (.inr ⟨hs.1, hu.subset hs.2⟩)⟩

/-- An atom that no rule derives is unfounded. -/
theorem mem_unfounded_of_no_rule {rules : Set (NormalRule α)} {I : Set α × Set α} {a : α}
    (h : ∀ rule ∈ rules, rule.head ≠ a)
    : a ∈ unfounded rules I :=
  ⟨{a}, fun rule hr ha => absurd ha (h rule hr), rfl⟩

/-- The well-founded operator. -/
def wellFoundedStep (rules : Set (NormalRule α)) : (Set α × Set α) →o (Set α × Set α) where
  toFun I := (derived rules I, unfounded rules I)
  monotone' _ _ h := ⟨derived_mono rules h, unfounded_mono rules h⟩

/-- The well-founded model: its true and its false atoms, all others undefined. -/
def wellFoundedModel (rules : Set (NormalRule α)) : Set α × Set α :=
  (wellFoundedStep rules).lfp

theorem wellFoundedModel_eq (rules : Set (NormalRule α))
    : (derived rules (wellFoundedModel rules), unfounded rules (wellFoundedModel rules))
      = wellFoundedModel rules :=
  (wellFoundedStep rules).map_lfp

/-- Any interpretation that the well-founded operator does not extend bounds the model. -/
theorem wellFoundedModel_le {rules : Set (NormalRule α)} {I : Set α × Set α}
    (htrue : derived rules I ⊆ I.1) (hfalse : unfounded rules I ⊆ I.2)
    : wellFoundedModel rules ≤ I :=
  (wellFoundedStep rules).lfp_le ⟨htrue, hfalse⟩

-- The alternating iteration

/-- One round: add the unfounded atoms to the false ones, then what follows to the true
ones.
-/
def nextStage (rules : Set (NormalRule α)) (I : Set α × Set α) : Set α × Set α :=
  let falses := I.2 ∪ unfounded rules I
  (I.1 ∪ derived rules (I.1, falses), falses)

/-- The iteration from the interpretation that knows nothing. -/
def stage (rules : Set (NormalRule α)) : Nat → Set α × Set α
  | 0 => (∅, ∅)
  | n + 1 => nextStage rules (stage rules n)

theorem stage_le_succ (rules : Set (NormalRule α)) (n : Nat)
    : stage rules n ≤ stage rules (n + 1) :=
  ⟨Set.subset_union_left, Set.subset_union_left⟩

theorem stage_mono (rules : Set (NormalRule α)) : Monotone (stage rules) :=
  monotone_nat_of_le_succ (stage_le_succ rules)

/-- Every stage stays below the model, by induction on the stage. -/
theorem stage_le_model (rules : Set (NormalRule α)) (n : Nat)
    : stage rules n ≤ wellFoundedModel rules := by
  induction n with
  | zero => exact ⟨Set.empty_subset _, Set.empty_subset _⟩
  | succ n ih =>
      have heq := wellFoundedModel_eq rules
      have hfalse : (stage rules (n + 1)).2 ⊆ (wellFoundedModel rules).2 := by
        refine Set.union_subset ih.2 ?_
        calc unfounded rules (stage rules n)
            ⊆ unfounded rules (wellFoundedModel rules) := unfounded_mono rules ih
          _ = (wellFoundedModel rules).2 := congrArg Prod.snd heq
      refine ⟨Set.union_subset ih.1 ?_, hfalse⟩
      calc derived rules ((stage rules n).1, (stage rules (n + 1)).2)
          ⊆ derived rules (wellFoundedModel rules) := derived_mono rules ⟨ih.1, hfalse⟩
        _ = (wellFoundedModel rules).1 := congrArg Prod.fst heq

/-- The false atoms of a stage are one unfounded set, by induction on the stage. -/
theorem stage_succ_snd (rules : Set (NormalRule α)) (n : Nat)
    : (stage rules (n + 1)).2 = unfounded rules (stage rules n) := by
  refine Set.union_eq_self_of_subset_left ?_
  cases n with
  | zero => exact Set.empty_subset _
  | succ n =>
      rw [stage_succ_snd rules n]
      exact unfounded_mono rules (stage_le_succ rules n)

/-- Taking the unfounded atoms for false makes no further atom unfounded. -/
theorem unfounded_union_unfounded (rules : Set (NormalRule α)) (I : Set α × Set α)
    : unfounded rules (I.1, I.2 ∪ unfounded rules I) = unfounded rules I := by
  refine subset_antisymm ?_ (unfounded_mono rules ⟨subset_rfl, Set.subset_union_left⟩)
  suffices hall : IsUnfounded rules I
      (unfounded rules (I.1, I.2 ∪ unfounded rules I) ∪ unfounded rules I) from
    Set.subset_union_left.trans hall.subset
  intro rule hr ha
  rcases ha with ha | ha
  · obtain ⟨a, ⟨hp, hf | hf⟩ | hn | hs⟩ := isUnfounded_unfounded rules _ rule hr ha
    · exact ⟨a, .inl ⟨hp, hf⟩⟩
    · exact ⟨a, .inr (.inr ⟨hp, .inr hf⟩)⟩
    · exact ⟨a, .inr (.inl hn)⟩
    · exact ⟨a, .inr (.inr ⟨hs.1, .inl hs.2⟩)⟩
  · obtain ⟨a, hp | hn | hs⟩ := isUnfounded_unfounded rules _ rule hr ha
    · exact ⟨a, .inl hp⟩
    · exact ⟨a, .inr (.inl hn)⟩
    · exact ⟨a, .inr (.inr ⟨hs.1, .inr hs.2⟩)⟩

/-- A round without new true atoms has reached the model. -/
theorem stage_succ_eq_model {rules : Set (NormalRule α)} {n : Nat}
    (fixed : (stage rules (n + 1)).1 ⊆ (stage rules n).1)
    : stage rules (n + 1) = wellFoundedModel rules := by
  have hsame : (stage rules (n + 1)).1 = (stage rules n).1 :=
    subset_antisymm fixed (stage_le_succ rules n).1
  have hfalse : unfounded rules (stage rules (n + 1)) = (stage rules (n + 1)).2 := by
    calc unfounded rules (stage rules (n + 1))
        = unfounded rules ((stage rules n).1, (stage rules n).2
            ∪ unfounded rules (stage rules n)) := by rw [← hsame]; rfl
      _ = (stage rules (n + 1)).2 := by rw [unfounded_union_unfounded, stage_succ_snd]
  refine le_antisymm (stage_le_model rules (n + 1)) (wellFoundedModel_le ?_ hfalse.subset)
  calc derived rules (stage rules (n + 1))
      = derived rules ((stage rules n).1, (stage rules (n + 1)).2) := by rw [← hsame]
    _ ⊆ (stage rules (n + 1)).1 := Set.subset_union_right

/-- True atoms are not unfounded, by induction on the round that makes them true: the body
of their rule holds, and so no atom of it is unfounded either.
-/
theorem disjoint_stage_succ_right {rules : Set (NormalRule α)} {n : Nat}
    (h : Disjoint (stage rules n).1 (stage rules n).2)
    : Disjoint (stage rules n).1 (stage rules (n + 1)).2 := by
  suffices hround : ∀ m ≤ n, Disjoint (stage rules m).1 (stage rules (n + 1)).2 from
    hround n le_rfl
  intro m
  induction m with
  | zero => exact fun _ => Set.empty_disjoint _
  | succ m ih =>
      intro hm
      refine Set.disjoint_left.mpr fun a ht hf => ?_
      rcases ht with ht | ⟨rule, hr, rfl, hpos, hneg⟩
      · exact Set.disjoint_left.mp (ih (by omega)) ht hf
      · rw [stage_succ_snd] at hf
        have hbelow := (stage_mono rules (by omega : m ≤ n)).1
        have hround := (stage_mono rules hm).2
        obtain ⟨b, hb | hb | hb⟩ := isUnfounded_unfounded rules _ rule hr hf
        · exact Set.disjoint_left.mp h (hbelow (hpos hb.1)) hb.2
        · exact Set.disjoint_left.mp h hb.2 (hround (hneg hb.1))
        · rw [← stage_succ_snd] at hb
          exact Set.disjoint_left.mp (ih (by omega)) (hpos hb.1) hb.2

/-- What follows at a round is not unfounded there. -/
theorem disjoint_stage_succ_left {rules : Set (NormalRule α)} {n : Nat}
    (h : Disjoint (stage rules n).1 (stage rules (n + 1)).2)
    : Disjoint (stage rules (n + 1)).1 (stage rules (n + 1)).2 := by
  refine Set.disjoint_left.mpr fun a ht hf => ?_
  rcases ht with ht | ⟨rule, hr, rfl, hpos, hneg⟩
  · exact Set.disjoint_left.mp h ht hf
  · rw [stage_succ_snd] at hf
    obtain ⟨b, hb | hb | hb⟩ := isUnfounded_unfounded rules _ rule hr hf
    · exact Set.disjoint_left.mp h (hpos hb.1) ((stage_le_succ rules n).2 hb.2)
    · exact Set.disjoint_left.mp h hb.2 (hneg hb.1)
    · rw [← stage_succ_snd] at hb
      exact Set.disjoint_left.mp h (hpos hb.1) hb.2

/-- No atom is both true and false, by induction on the stage. -/
theorem stage_consistent (rules : Set (NormalRule α)) (n : Nat)
    : Disjoint (stage rules n).1 (stage rules n).2 := by
  induction n with
  | zero => exact Set.empty_disjoint _
  | succ n ih => exact disjoint_stage_succ_left (disjoint_stage_succ_right ih)

-- Proofs that the iteration records

/-- A rule is prompt at a round when its body holds there and its head is new. -/
def PromptAt (rules : Set (NormalRule α)) (n : Nat) (rule : NormalRule α) : Prop :=
  rule.head ∉ (stage rules n).1
  ∧ rule.pos ⊆ (stage rules n).1
  ∧ rule.neg ⊆ (stage rules (n + 1)).2

/-- The head of a prompt rule is true from the next round on. -/
theorem PromptAt.head_mem {rules : Set (NormalRule α)} {n : Nat} {rule : NormalRule α}
    (hr : rule ∈ rules) (h : PromptAt rules n rule)
    : rule.head ∈ (stage rules (n + 1)).1 :=
  .inr ⟨rule, hr, rfl, h.2.1, h.2.2⟩

/-- A set holds exactly what the admitted prompt rules of the first rounds derive from it. -/
def PromptlySupported (rules : Set (NormalRule α)) (rounds : Nat)
    (admitted : Set (NormalRule α)) (atoms : Set α) : Prop :=
  ∀ a, a ∈ atoms ↔ ∃ rule ∈ admitted, rule.head = a ∧ rule.pos ⊆ atoms
    ∧ ∃ n < rounds, PromptAt rules n rule

/-- One set at most is promptly supported: the rounds order its atoms, and the proof is by
induction on the round that makes the head true.
-/
theorem PromptlySupported.unique {rules : Set (NormalRule α)} {rounds : Nat}
    {admitted : Set (NormalRule α)} (sub : admitted ⊆ rules) {A B : Set α}
    (hA : PromptlySupported rules rounds admitted A)
    (hB : PromptlySupported rules rounds admitted B)
    : A = B := by
  have hstage : ∀ n, ∀ a ∈ (stage rules n).1, a ∈ A ↔ a ∈ B := by
    intro n
    induction n with
    | zero => exact fun a h => absurd h (Set.notMem_empty a)
    | succ n ih =>
        intro a h
        by_cases hn : a ∈ (stage rules n).1
        · exact ih a hn
        · rw [hA a, hB a]
          refine exists_congr fun rule => and_congr_right fun hr =>
            and_congr_right fun he => and_congr_left fun hprompt => ?_
          obtain ⟨m, _, hm⟩ := hprompt
          -- the head is new at round `m`, so round `m` is not after round `n`
          have hle : m ≤ n := by
            by_contra hlt
            exact hm.1 (he ▸ (stage_mono rules (by omega : n + 1 ≤ m)).1 h)
          have hpos : rule.pos ⊆ (stage rules n).1 :=
            hm.2.1.trans (stage_mono rules hle).1
          exact forall₂_congr fun b hb => ih b (hpos hb)
  ext a
  constructor
  · intro ha
    obtain ⟨rule, hr, he, _, n, _, hn⟩ := (hA a).mp ha
    exact (hstage (n + 1) a (he ▸ hn.head_mem (sub hr))).mp ha
  · intro hb
    obtain ⟨rule, hr, he, _, n, _, hn⟩ := (hB a).mp hb
    exact (hstage (n + 1) a (he ▸ hn.head_mem (sub hr))).mpr hb

/-- The next round adds what its prompt rules derive: their bodies were true before. -/
theorem PromptlySupported.next {rules : Set (NormalRule α)} {n : Nat}
    {admitted : Set (NormalRule α)} {A : Set α} (h : PromptlySupported rules n admitted A)
    : PromptlySupported rules (n + 1) admitted
        (A ∪ { a | ∃ rule ∈ admitted, rule.head = a ∧ rule.pos ⊆ A
          ∧ PromptAt rules n rule }) := by
  intro a
  constructor
  · intro ha
    rcases ha with ha | ⟨rule, hr, he, hp, hn⟩
    · obtain ⟨rule, hr, he, hp, m, hm, hprompt⟩ := (h a).mp ha
      exact ⟨rule, hr, he, hp.trans Set.subset_union_left, m, by omega, hprompt⟩
    · exact ⟨rule, hr, he, hp.trans Set.subset_union_left, n, by omega, hn⟩
  · intro ha
    obtain ⟨rule, hr, he, hp, m, hm, hprompt⟩ := ha
    have hpos : rule.pos ⊆ A := by
      intro b hb
      rcases hp hb with hold | ⟨other, _, rfl, _, hnew⟩
      · exact hold
      · exact absurd ((stage_mono rules (by omega : m ≤ n)).1 (hprompt.2.1 hb)) hnew.1
    rcases Nat.lt_succ_iff_lt_or_eq.mp hm with hlt | rfl
    · exact .inl ((h a).mpr ⟨rule, hr, he, hpos, m, hlt, hprompt⟩)
    · exact .inr ⟨rule, hr, he, hpos, hprompt⟩

/-- No rule is prompt once the model is reached. -/
theorem not_promptAt_of_stage_eq_model {rules : Set (NormalRule α)} {n m : Nat}
    (reached : stage rules n = wellFoundedModel rules) (hle : n ≤ m) {rule : NormalRule α}
    (hr : rule ∈ rules)
    : ¬ PromptAt rules m rule := by
  intro h
  have htrue := (stage_le_model rules (m + 1)).1 (h.head_mem hr)
  rw [← reached] at htrue
  exact h.1 ((stage_mono rules hle).1 htrue)

/-- Rounds after the model is reached support nothing more. -/
theorem PromptlySupported.later {rules : Set (NormalRule α)} {n rounds : Nat}
    {admitted : Set (NormalRule α)} (sub : admitted ⊆ rules) {A : Set α}
    (h : PromptlySupported rules n admitted A)
    (reached : stage rules n = wellFoundedModel rules) (hle : n ≤ rounds)
    : PromptlySupported rules rounds admitted A := by
  intro a
  rw [h a]
  refine exists_congr fun rule => and_congr_right fun hr => and_congr_right fun _ =>
    and_congr_right fun _ => ?_
  constructor
  · intro hn
    obtain ⟨m, hm, hprompt⟩ := hn
    exact ⟨m, by omega, hprompt⟩
  · intro hn
    obtain ⟨m, _, hprompt⟩ := hn
    refine ⟨m, ?_, hprompt⟩
    by_contra hge
    exact not_promptAt_of_stage_eq_model reached (by omega) (sub hr) hprompt

/-- With all rules admitted the true atoms of a stage are promptly supported, by induction on
the stage.
-/
theorem promptlySupported_stage (rules : Set (NormalRule α)) (n : Nat)
    : PromptlySupported rules n rules (stage rules n).1 := by
  induction n with
  | zero =>
      intro a
      simp [stage]
  | succ n ih =>
      convert ih.next using 1
      ext a
      constructor
      · intro h
        by_cases hold : a ∈ (stage rules n).1
        · exact .inl hold
        · obtain ⟨rule, hr, rfl, hp, hn⟩ := h.resolve_left hold
          exact .inr ⟨rule, hr, rfl, hp, hold, hp, hn⟩
      · intro h
        rcases h with h | ⟨rule, hr, rfl, _, hprompt⟩
        · exact (stage_le_succ rules n).1 h
        · exact hprompt.head_mem hr

end Xlog.Foundation
