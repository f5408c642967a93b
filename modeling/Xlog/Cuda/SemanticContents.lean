import Xlog.Cuda.SemanticEffects

/-! What a view of the semantic store holds: the supports on the chains of its statements.
-/

namespace Xlog.Cuda.SemanticGraph

/-- The slots of the versions from a head or link on. -/
def Store.versionsFrom (s : Store) : Nat → Nat → List Nat
  | 0, _ => []
  | steps + 1, encoded =>
      if encoded = 0 then []
      else (encoded - 1) :: s.versionsFrom steps (s.versions (encoded - 1)).body.previous

/-- The identities of a statement and of a support of it. -/
abbrev Event := Identity × Identity

def Store.HoldsAt (s : Store) (encoded : Nat) (support : Identity) : Prop :=
  ∃ version ∈ s.versionsFrom s.capacities.versions encoded,
    (s.supports (s.versions version).body.supportSlot).body.identity = support

/-- The chain of the statement has a version with the support. -/
def Store.Holds (s : Store) (heads : Nat → Nat) (event : Event) : Prop :=
  ∃ slot, heads slot ≠ 0 ∧ (s.statements slot).body = event.1 ∧ s.HoldsAt (heads slot) event.2

section

variable {digests : Digests} {s s' : Store} {slots : Slots} {heads : Nat → Nat}
  {statementSlot encoded newer : Nat} {versions : List Nat}

/-- A walk with enough steps visits the chain, by induction on the chain. -/
theorem Chain.versionsFrom_eq {steps : Nat}
    (h : Chain digests s slots statementSlot encoded newer versions)
    (hsteps : versions.length ≤ steps)
    : s.versionsFrom steps encoded = versions := by
  induction h generalizing steps with
  | nil => cases steps <;> rfl
  | @cons newer slot rest link older ih =>
      cases steps with
      | zero => simp at hsteps
      | succ steps =>
          rw [Store.versionsFrom, if_neg (Nat.succ_ne_zero slot), Nat.add_sub_cancel,
            ih (by simpa using hsteps)]

theorem Chain.holdsAt_iff (h : Chain digests s slots statementSlot encoded newer versions)
    {support : Identity}
    : s.HoldsAt encoded support ↔ ∃ version ∈ versions,
        (s.supports (s.versions version).body.supportSlot).body.identity = support := by
  rw [Store.HoldsAt, h.versionsFrom_eq h.length_le]

/-- The records of a chain are those of the view. -/
theorem Chain.records (h : Chain digests s slots statementSlot encoded newer versions)
    : ∀ version ∈ versions, slots.version version
        ∧ slots.support (s.versions version).body.supportSlot := by
  induction h with
  | nil => simp
  | cons link _ ih =>
      intro version hmem
      rcases List.mem_cons.mp hmem with rfl | hmem
      · exact ⟨link.version, link.support⟩
      · exact ih version hmem

theorem Chain.holdsAt_frame (h : Chain digests s slots statementSlot encoded newer versions)
    (keeps : Keeps s s' slots)
    (statement : (s'.statements statementSlot).generation = (s.statements statementSlot).generation)
    {support : Identity}
    : s'.HoldsAt encoded support ↔ s.HoldsAt encoded support := by
  rw [h.holdsAt_iff, (h.frame keeps statement).holdsAt_iff]
  have hsame : ∀ version ∈ versions,
      (s'.supports (s'.versions version).body.supportSlot).body.identity
        = (s.supports (s.versions version).body.supportSlot).body.identity := by
    intro version hmem
    obtain ⟨hversion, hsupport⟩ := h.records version hmem
    rw [(keeps.version version hversion).2, (keeps.support _ hsupport).2]
  constructor
  · rintro ⟨version, hmem, heq⟩
    exact ⟨version, hmem, (hsame version hmem).symm.trans heq⟩
  · rintro ⟨version, hmem, heq⟩
    exact ⟨version, hmem, (hsame version hmem).trans heq⟩

/-- A view holds the same where its records are kept. -/
theorem Heads.holds_frame (h : Heads digests s slots heads newer) (keeps : Keeps s s' slots)
    {event : Event}
    : s'.Holds heads event ↔ s.Holds heads event := by
  have hslot : ∀ slot, heads slot ≠ 0 →
      ((s'.statements slot).body = event.1 ∧ s'.HoldsAt (heads slot) event.2
        ↔ (s.statements slot).body = event.1 ∧ s.HoldsAt (heads slot) event.2) := by
    intro slot hne
    obtain ⟨versions, hchain⟩ := h.chain slot
    have hstatement := keeps.statement slot (h.statement slot hne)
    rw [hstatement.2, hchain.holdsAt_frame keeps hstatement.1]
  constructor
  · rintro ⟨slot, hne, hholds⟩
    exact ⟨slot, hne, (hslot slot hne).mp hholds⟩
  · rintro ⟨slot, hne, hholds⟩
    exact ⟨slot, hne, (hslot slot hne).mpr hholds⟩

/-- At the only slot with the identity, a view holds what its chain holds. -/
theorem Heads.holds_iff (h : Heads digests s slots heads newer) {slot : Nat} {event : Event}
    (hne : heads slot ≠ 0) (hbody : (s.statements slot).body = event.1)
    : s.Holds heads event ↔ s.HoldsAt (heads slot) event.2 := by
  constructor
  · rintro ⟨other, hother, hbody', hholds⟩
    obtain rfl := h.unique other slot hother hne (hbody'.trans hbody.symm)
    exact hholds
  · exact fun hholds => ⟨slot, hne, hbody, hholds⟩

theorem not_holdsAt_zero {support : Identity} : ¬s.HoldsAt 0 support := by
  rintro ⟨version, hmem, _⟩
  have hnil : ∀ steps, s.versionsFrom steps 0 = [] := fun steps => by cases steps <;> rfl
  rw [hnil] at hmem
  exact absurd hmem (by simp)

/-- The new version carries the support, before what the statement had. -/
theorem attach_holdsAt {command : Command} {a : Attachment} (h : Attaches s command a)
    (view : ViewOk digests s true s.candidate.extents s.candidateHeads) {support : Identity}
    : (attach digests s command a).HoldsAt (a.versionSlot + 1) support
        ↔ command.support = support ∨ s.HoldsAt a.encodedHead support := by
  obtain ⟨keeps, _⟩ := @keeps_attach digests s command a h true
  obtain ⟨versions, hchain⟩ := (attach_view h (h.inStatements view) view).lineage.chain
    a.statementSlot
  rw [show (attach digests s command a).candidateHeads a.statementSlot = a.versionSlot + 1 from
    Function.update_self _ _ _] at hchain
  obtain ⟨_, _, _, _, hversion⟩ := @attach_version digests s command a
  have hold : (attach digests s command a).HoldsAt a.encodedHead support
      ↔ s.HoldsAt a.encodedHead support := by
    have hgeneration := @attach_statements_generation digests s command a a.statementSlot
    cases hnew : a.newStatement with
    | true =>
        rw [(h.fresh hnew).2]
        exact ⟨fun hholds => absurd hholds not_holdsAt_zero,
          fun hholds => absurd hholds not_holdsAt_zero⟩
    | false =>
        obtain ⟨versions, hchain⟩ := view.lineage.chain a.statementSlot
        rw [(h.existing hnew).2.2]
        exact hchain.holdsAt_frame keeps hgeneration
  rw [hchain.holdsAt_iff, ← hold]
  cases hchain with
  | cons link older =>
      rw [hversion] at older
      rw [older.holdsAt_iff]
      simp only [List.mem_cons, exists_eq_or_imp, hversion, attach_support]

/-- An insertion adds its event to what the candidate holds. -/
theorem attach_holds {command : Command} {a : Attachment} (h : Attaches s command a)
    (view : ViewOk digests s true s.candidate.extents s.candidateHeads) {event : Event}
    : (attach digests s command a).Holds (attach digests s command a).candidateHeads event
        ↔ s.Holds s.candidateHeads event ∨ event = (command.statement, command.support) := by
  obtain ⟨keeps, _⟩ := @keeps_attach digests s command a h true
  have hhead : (attach digests s command a).candidateHeads a.statementSlot = a.versionSlot + 1 :=
    Function.update_self _ _ _
  have hbody := @attach_statement_body digests s command a h
  -- the other statements hold what they held
  have hother : ∀ slot, slot ≠ a.statementSlot →
      ((attach digests s command a).candidateHeads slot ≠ 0
          ∧ ((attach digests s command a).statements slot).body = event.1
          ∧ (attach digests s command a).HoldsAt ((attach digests s command a).candidateHeads slot)
            event.2
        ↔ s.candidateHeads slot ≠ 0 ∧ (s.statements slot).body = event.1
          ∧ s.HoldsAt (s.candidateHeads slot) event.2) := by
    intro slot hne
    obtain ⟨versions, hchain⟩ := view.lineage.chain slot
    rw [show (attach digests s command a).candidateHeads slot = s.candidateHeads slot from
      Function.update_of_ne hne _ _, attach_statement_other hne,
      hchain.holdsAt_frame keeps (attach_statements_generation slot)]
  -- an old head of the statement means that it was found
  have hexisting : s.candidateHeads a.statementSlot ≠ 0 → a.newStatement = false := by
    intro hne
    by_contra hnew
    obtain ⟨hfree, _⟩ := h.fresh (by simpa using hnew)
    exact not_accepts_free (findFree_some hfree).2.1 (view.lineage.statement _ hne)
  constructor
  · rintro ⟨slot, hne, hstatement, hholds⟩
    by_cases heq : slot = a.statementSlot
    · subst heq
      rw [hhead, attach_holdsAt h view] at hholds
      rw [hbody] at hstatement
      rcases hholds with hsupport | hold
      · exact Or.inr (Prod.ext hstatement.symm hsupport.symm)
      · cases hnew : a.newStatement with
        | true =>
            rw [(h.fresh hnew).2] at hold
            exact absurd hold not_holdsAt_zero
        | false =>
            obtain ⟨hhead', hbody', hencoded⟩ := h.existing hnew
            rw [hencoded] at hold
            exact Or.inl ⟨_, hhead', hbody'.trans hstatement, hold⟩
    · exact Or.inl ⟨slot, (hother slot heq).mp ⟨hne, hstatement, hholds⟩⟩
  · rintro (⟨slot, hne, hstatement, hholds⟩ | heq)
    · by_cases heq : slot = a.statementSlot
      · subst heq
        obtain ⟨_, hbody', hencoded⟩ := h.existing (hexisting hne)
        refine ⟨a.statementSlot, by rw [hhead]; exact Nat.succ_ne_zero _,
          hbody.trans (hbody'.symm.trans hstatement), ?_⟩
        rw [hhead, attach_holdsAt h view, hencoded]
        exact Or.inr hholds
      · exact ⟨slot, (hother slot heq).mpr ⟨hne, hstatement, hholds⟩⟩
    · rw [heq]
      refine ⟨a.statementSlot, by rw [hhead]; exact Nat.succ_ne_zero _, hbody, ?_⟩
      rw [hhead, attach_holdsAt h view]
      exact Or.inl rfl

end

end Xlog.Cuda.SemanticGraph
