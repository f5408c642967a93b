import Xlog.Cuda.SemanticInvariant

/-! What a fork, an insertion and a terminal write keeps the invariant of the store.
-/

namespace Xlog.Cuda.SemanticGraph

open Xlog.Foundation

-- Frames

section

variable {digests : Digests} {s s' : Store}

/-- A record stays sound while the candidate stays. -/
theorem RecordOk.frame {α : Type} {record : Record α} (h : RecordOk s record)
    (state : s'.candidate.state = s.candidate.state)
    (generation : s'.candidate.generation = s.candidate.generation)
    : RecordOk s' record := by
  refine { h with staged := fun hstaged => ?_ }
  rw [state, generation]
  exact h.staged hstaged

/-- A record that is not staged does not depend on the candidate. -/
theorem RecordOk.of_not_staged {α : Type} {record : Record α} (h : RecordOk s record)
    (hstate : record.state ≠ .staged)
    : RecordOk s' record :=
  { h with staged := fun hstaged => absurd hstaged hstate }

/-- Without a live candidate no record is staged. -/
theorem RecordOk.not_staged {α : Type} {record : Record α} (h : RecordOk s record)
    (free : s.candidate.state = .free)
    : record.state ≠ .staged := by
  intro hstaged
  have hlive := (h.staged hstaged).1
  rw [free] at hlive
  exact absurd hlive (by simp)

theorem RootOk.frame {slot : Nat} (h : RootOk digests s slot) (root : s'.roots slot = s.roots slot)
    (heads : s'.rootHeads slot = s.rootHeads slot) (keeps : Keeps s s' (s.accepted false))
    (within : (s.accepted false).Within (s'.accepted false))
    : RootOk digests s' slot := by
  refine ⟨by rw [root]; exact h.bounded, by rw [root]; exact h.state, ?_⟩
  rw [root, heads]
  exact fun hsealed => (h.view hsealed).frame keeps within

-- Fork

/-- The tables of a store under another candidate. -/
theorem keeps_forked (s : Store) (slot : Nat)
    : Keeps s (s.forked slot) (s.accepted false)
      ∧ (s.accepted false).Within ((s.forked slot).accepted false) := by
  apply keeps_of_eq
  · rfl
  · intro α record h
    exact accepts_sealed.mpr (accepts_sealed.mp h)
  · exact fun _ _ => rfl
  · exact fun _ _ => rfl
  · exact fun _ _ => rfl

theorem forked_sound (h : Sound digests s) {slot generation : Nat}
    (root : s.RootValid slot generation) (free : s.candidate.state = .free)
    (retirable : s.candidate.generation ≠ wordMax)
    : Sound digests (s.forked slot) := by
  obtain ⟨keeps, within⟩ := keeps_forked s slot
  have hview := (h.root slot root.inRoots).view root.isSealed
  have hwider : (s.accepted false).Within ((s.forked slot).accepted true) :=
    ⟨fun i hi => (accepted_within _).statement i (within.statement i hi),
      fun i hi => (accepted_within _).support i (within.support i hi),
      fun i hi => (accepted_within _).version i (within.version i hi)⟩
  refine ⟨h.capacities, h.magic, h.laidOut, ?_, ?_, ?_, ?_, h.generation, Or.inr rfl, fun _ => ?_⟩
  · exact fun i hi => (h.statement i hi).of_not_staged ((h.statement i hi).not_staged free)
  · exact fun i hi => (h.support i hi).of_not_staged ((h.support i hi).not_staged free)
  · exact fun i hi => (h.version i hi).of_not_staged ((h.version i hi).not_staged free)
  · exact fun i hi => (h.root i hi).frame rfl rfl keeps within
  · exact ⟨retirable, ⟨root.inRoots, rfl, root.isSealed⟩, hview.frame keeps hwider⟩

-- Insertion

/-- What an insertion has checked about its places. -/
structure Attaches (s : Store) (command : Command) (a : Attachment) : Prop where
  fresh
    : a.newStatement = true
      → findFree (fun slot => (s.statements slot).state) s.capacities.statements
          = some a.statementSlot
        ∧ a.encodedHead = 0
  distinct
    : a.newStatement = true
      → ∀ slot, s.candidateHeads slot ≠ 0 → (s.statements slot).body ≠ command.statement
  existing
    : a.newStatement = false
      → s.candidateHeads a.statementSlot ≠ 0
        ∧ (s.statements a.statementSlot).body = command.statement
        ∧ a.encodedHead = s.candidateHeads a.statementSlot
  support
    : findFree (fun slot => (s.supports slot).state) s.capacities.supports = some a.supportSlot
  version
    : findFree (fun slot => (s.versions slot).state) s.capacities.versions = some a.versionSlot
  statementGeneration : (s.statements a.statementSlot).generation ≠ wordMax
  supportGeneration : (s.supports a.supportSlot).generation ≠ wordMax
  versionGeneration : (s.versions a.versionSlot).generation ≠ wordMax
  extents
    : s.candidate.extents.statements ≠ halfMax ∧ s.candidate.extents.supports ≠ halfMax
      ∧ s.candidate.extents.versions ≠ halfMax
  polarity : command.polarity = 1 ∨ command.polarity = 2
  records : command.statementRecord ≤ halfMax ∧ command.supportRecord ≤ halfMax
  reconstruction : command.statementRecord ≠ halfMax → ∀ word ∈ command.reconstruction, word = 0

theorem not_accepts_free {α : Type} {candidate : Bool} {record : Record α}
    (h : record.state = .free)
    : ¬s.Accepts candidate record := by
  rw [Store.Accepts, Record.stagedBy, h]
  simp

section

variable {command : Command} {a : Attachment}

/-- The slots that an insertion writes are not used before. -/
theorem keeps_attach (h : Attaches s command a) (candidate : Bool)
    : Keeps s (attach digests s command a) (s.accepted candidate)
      ∧ (s.accepted candidate).Within ((attach digests s command a).accepted candidate) := by
  have hsupport := (findFree_some h.support).2.1
  have hversion := (findFree_some h.version).2.1
  apply keeps_of_eq
  · rfl
  · exact fun record hr => hr
  · intro slot hslot
    change (if a.newStatement then _ else _ : Nat → Record Identity) slot = _
    split
    · next hnew =>
        have hfree := (findFree_some (h.fresh hnew).1).2.1
        rw [Function.update_of_ne]
        rintro rfl
        exact not_accepts_free hfree hslot
    · rfl
  · intro slot hslot
    refine Function.update_of_ne ?_ _ _
    rintro rfl
    exact not_accepts_free hsupport hslot
  · intro slot hslot
    refine Function.update_of_ne ?_ _ _
    rintro rfl
    exact not_accepts_free hversion hslot

theorem attach_statements_generation (slot : Nat)
    : ((attach digests s command a).statements slot).generation = (s.statements slot).generation := by
  change ((if a.newStatement then _ else _ : Nat → Record Identity) slot).generation = _
  split
  · by_cases heq : slot = a.statementSlot
    · rw [heq, Function.update_self]
    · rw [Function.update_of_ne heq]
  · rfl

theorem attach_statement_other {slot : Nat} (hne : slot ≠ a.statementSlot)
    : (attach digests s command a).statements slot = s.statements slot := by
  change (if a.newStatement then _ else _ : Nat → Record Identity) slot = _
  split
  · exact Function.update_of_ne hne _ _
  · rfl

/-- The statement of an insertion has its identity, new or not. -/
theorem attach_statement_body (h : Attaches s command a)
    : ((attach digests s command a).statements a.statementSlot).body = command.statement := by
  change ((if a.newStatement then _ else _ : Nat → Record Identity) a.statementSlot).body = _
  split
  · rw [Function.update_self]
  · next hold => exact (h.existing (by simpa using hold)).2.1

/-- No other statement of the candidate has the identity of an insertion. -/
theorem Attaches.apart (h : Attaches s command a)
    (view : ViewOk digests s true s.candidate.extents s.candidateHeads) {slot : Nat}
    (hne : s.candidateHeads slot ≠ 0) (hslot : slot ≠ a.statementSlot)
    : (s.statements slot).body ≠ command.statement := by
  intro hbody
  cases hnew : a.newStatement with
  | true => exact h.distinct hnew slot hne hbody
  | false =>
      obtain ⟨hhead, hbody', _⟩ := h.existing hnew
      exact hslot (view.lineage.unique slot a.statementSlot hne hhead (hbody.trans hbody'.symm))

theorem attach_support
    : (attach digests s command a).supports a.supportSlot
      = { state := .staged
          generation := (s.supports a.supportSlot).generation
          owner := s.candidate.generation
          body :=
            { statementSlot := a.statementSlot
              statementGeneration := (s.statements a.statementSlot).generation
              polarity := command.polarity
              identity := command.support
              statementRecord := command.statementRecord
              supportRecord := command.supportRecord
              reconstruction := command.reconstruction } } :=
  Function.update_self _ _ _

theorem attach_version
    : ∃ truth ordinal,
        truth = s.headTruth a.encodedHead ||| (if command.polarity = 1 then 1 else 2)
        ∧ ordinal = (attach digests s command a).candidate.extents.versions
        ∧ (attach digests s command a).versions a.versionSlot
          = { state := .staged
              generation := (s.versions a.versionSlot).generation
              owner := s.candidate.generation
              body :=
                { statementSlot := a.statementSlot
                  statementGeneration := (s.statements a.statementSlot).generation
                  supportSlot := a.supportSlot
                  supportGeneration := (s.supports a.supportSlot).generation
                  previous := a.encodedHead
                  truth
                  identity := digests.version (s.headIdentity a.encodedHead) command.support truth
                  ordinal } } :=
  ⟨_, _, rfl, rfl, Function.update_self _ _ _⟩

theorem attach_extents (h : Attaches s command a) (bounded : s.candidate.extents.Bounded)
    : (attach digests s command a).candidate.extents.versions = s.candidate.extents.versions + 1
      ∧ (attach digests s command a).candidate.extents.supports = s.candidate.extents.supports + 1
      ∧ (attach digests s command a).candidate.extents.statements
        = s.candidate.extents.statements + a.newStatement.toNat := by
  have hne := h.extents
  have hb := bounded.statements
  have hb' := bounded.supports
  have hb'' := bounded.versions
  have hnew := Bool.toNat_le a.newStatement
  rw [halfMax] at *
  refine ⟨Nat.mod_eq_of_lt ?_, Nat.mod_eq_of_lt ?_, Nat.mod_eq_of_lt ?_⟩ <;> omega

/-- The new version stands before the chain that its statement had. -/
theorem attach_link (h : Attaches s command a) (bounded : s.candidate.extents.Bounded)
    (truth : (attach digests s command a).headTruth a.encodedHead = s.headTruth a.encodedHead)
    (identity : (attach digests s command a).headIdentity a.encodedHead
      = s.headIdentity a.encodedHead)
    : Link digests (attach digests s command a) ((attach digests s command a).accepted true)
        a.statementSlot ((attach digests s command a).candidate.extents.versions + 1)
        a.versionSlot := by
  obtain ⟨value, ordinal, hvalue, hordinal, hversion⟩ := @attach_version digests s command a
  have hsupport := @attach_support digests s command a
  have hgeneration := @attach_statements_generation digests s command a a.statementSlot
  have hextents := (@attach_extents digests s command a h bounded).1
  have hpolarity : (if command.polarity = 1 then 1 else 2) = command.polarity := by
    have := h.polarity
    split <;> omega
  rw [hpolarity] at hvalue
  have haccepts : ∀ {α : Type} (generation : Nat) (body : α),
      (attach digests s command a).Accepts true
        { state := .staged, generation, owner := s.candidate.generation, body } :=
    fun _ _ => Or.inr ⟨rfl, rfl, rfl⟩
  have hslots : ((attach digests s command a).accepted true).version a.versionSlot
      ∧ ((attach digests s command a).accepted true).support a.supportSlot := by
    constructor
    · change Store.Accepts _ _ _
      rw [hversion]
      exact haccepts _ _
    · change Store.Accepts _ _ _
      rw [hsupport]
      exact haccepts _ _
  refine ⟨(findFree_some h.version).1, hslots.1, ?_, ?_, ?_, ?_, ?_, ?_, ?_, ?_, ?_, ?_, ?_, ?_,
    ?_, ?_, ?_⟩
  all_goals simp only [hversion, hsupport, hgeneration, truth, identity]
  · exact (findFree_some h.support).1
  · exact hslots.2
  · omega
  · omega
  · exact h.polarity
  · exact h.records.1
  · exact h.records.2
  · exact h.reconstruction
  · exact hvalue

/-- The statement of an insertion is the candidate's, staged with it or accepted before. -/
theorem attach_statement_accepted (h : Attaches s command a)
    (view : ViewOk digests s true s.candidate.extents s.candidateHeads)
    : ((attach digests s command a).accepted true).statement a.statementSlot := by
  cases hnew : a.newStatement with
  | true =>
      have hstatement : (attach digests s command a).statements a.statementSlot
          = { s.statements a.statementSlot with
              state := .staged, owner := s.candidate.generation, body := command.statement } := by
        change (if a.newStatement = true then _ else _ : Nat → Record Identity) _ = _
        rw [if_pos hnew, Function.update_self]
      change Store.Accepts _ _ _
      rw [hstatement]
      exact Or.inr ⟨rfl, rfl, rfl⟩
  | false =>
      have hwithin := (@keeps_attach digests s command a h true).2
      exact hwithin.statement _ (view.lineage.statement _ (h.existing hnew).1)

/-- The view of the candidate after an insertion. -/
theorem attach_view (h : Attaches s command a)
    (hin : a.statementSlot < s.capacities.statements)
    (view : ViewOk digests s true s.candidate.extents s.candidateHeads)
    : ViewOk digests (attach digests s command a) true
        (attach digests s command a).candidate.extents
        (attach digests s command a).candidateHeads := by
  obtain ⟨keeps, within⟩ := @keeps_attach digests s command a h true
  have hframe := view.frame keeps within
  obtain ⟨hversions, hsupports, hstatements⟩ := @attach_extents digests s command a h view.bounded
  have hb := view.bounded
  have hheads : ∀ slot, slot ≠ a.statementSlot →
      (attach digests s command a).candidateHeads slot = s.candidateHeads slot :=
    fun slot hne => Function.update_of_ne hne _ _
  have hhead : (attach digests s command a).candidateHeads a.statementSlot = a.versionSlot + 1 :=
    Function.update_self _ _ _
  obtain ⟨older, hold⟩ : ∃ versions, Chain digests s (s.accepted true) a.statementSlot
      a.encodedHead (s.candidate.extents.versions + 1) versions := by
    cases hnew : a.newStatement with
    | true =>
        rw [(h.fresh hnew).2]
        exact ⟨[], .nil⟩
    | false =>
        rw [(h.existing hnew).2.2]
        exact view.lineage.chain _
  obtain ⟨htruth, hidentity⟩ := hold.head_eq keeps
  obtain ⟨value, ordinal, _, hordinal, hversion⟩ := @attach_version digests s command a
  constructor
  · have hne := h.extents
    have hnew := Bool.toNat_le a.newStatement
    have := hb.statements
    have := hb.supports
    have := hb.versions
    exact ⟨by omega, by omega, by omega⟩
  · refine ⟨?_, ?_, ?_, ?_⟩
    · intro slot hne
      by_cases heq : slot = a.statementSlot
      · rw [heq]
        exact hin
      · rw [hheads slot heq] at hne
        exact view.lineage.inStatements slot hne
    · intro slot hne
      by_cases heq : slot = a.statementSlot
      · subst heq
        exact attach_statement_accepted h view
      · rw [hheads slot heq] at hne
        exact within.statement slot (view.lineage.statement slot hne)
    · intro slot
      by_cases heq : slot = a.statementSlot
      · subst heq
        rw [hhead]
        refine ⟨a.versionSlot :: older, .cons (attach_link h hb htruth hidentity) ?_⟩
        rw [hversion]
        refine (hold.frame keeps (attach_statements_generation _)).mono within ?_
        change _ ≤ ordinal
        omega
      · rw [hheads slot heq]
        obtain ⟨versions, hchain⟩ := hframe.lineage.chain slot
        exact ⟨versions, hchain.mono .refl (by omega)⟩
    · have hapart : ∀ slot, slot ≠ a.statementSlot →
          (attach digests s command a).candidateHeads slot ≠ 0 →
          ((attach digests s command a).statements slot).body ≠ command.statement := by
        intro slot heq hne
        rw [hheads slot heq] at hne
        rw [attach_statement_other heq]
        exact h.apart view hne heq
      have hbody := @attach_statement_body digests s command a h
      intro slot other hne hother heq
      by_cases hslot : slot = a.statementSlot
      · subst hslot
        by_contra hdiff
        exact hapart other (Ne.symm hdiff) hother (heq.symm.trans hbody)
      · by_cases hslot' : other = a.statementSlot
        · subst hslot'
          exact absurd (heq.trans hbody) (hapart slot hslot hne)
        · rw [hheads slot hslot] at hne
          rw [hheads other hslot'] at hother
          rw [attach_statement_other hslot, attach_statement_other hslot'] at heq
          exact view.lineage.unique slot other hne hother heq

/-- The statement slot of an insertion exists. -/
theorem Attaches.inStatements (h : Attaches s command a)
    (view : ViewOk digests s true s.candidate.extents s.candidateHeads)
    : a.statementSlot < s.capacities.statements := by
  cases hnew : a.newStatement with
  | true => exact (findFree_some (h.fresh hnew).1).1
  | false => exact view.lineage.inStatements _ (h.existing hnew).1

/-- A free record with room becomes staged. -/
theorem RecordOk.stage {α : Type} {record : Record α} (h : RecordOk s record)
    (live : s.candidate.state = .live) (room : record.generation ≠ wordMax) (body : α)
    : RecordOk s { record with state := .staged, owner := s.candidate.generation, body } :=
  ⟨h.positive, h.bounded, by simp, by simp, fun _ => ⟨live, rfl, room⟩⟩

theorem attach_sound (h : Sound digests s) (live : s.candidate.state = .live)
    (ha : Attaches s command a)
    : Sound digests (attach digests s command a) := by
  have hlive := h.live live
  have hin := ha.inStatements hlive.view
  obtain ⟨keeps, within⟩ := @keeps_attach digests s command a ha false
  have hstage : ∀ {α : Type} (record : Record α) (body : α), RecordOk s record →
      record.generation ≠ wordMax →
      RecordOk (attach digests s command a)
        { record with state := .staged, owner := s.candidate.generation, body } :=
    fun record body hr hroom => (hr.stage live hroom body).frame rfl rfl
  refine ⟨h.capacities, h.magic, h.laidOut, ?_, ?_, ?_, ?_, h.generation, h.state, fun _ => ?_⟩
  · intro slot hslot
    change RecordOk _ ((if a.newStatement = true then _ else _ : Nat → Record Identity) slot)
    split
    · by_cases heq : slot = a.statementSlot
      · rw [heq, Function.update_self]
        exact hstage _ _ (h.statement _ hin) ha.statementGeneration
      · rw [Function.update_of_ne heq]
        exact (h.statement slot hslot).frame rfl rfl
    · exact (h.statement slot hslot).frame rfl rfl
  · intro slot hslot
    by_cases heq : slot = a.supportSlot
    · rw [heq, attach_support]
      exact hstage _ _ (h.support _ (findFree_some ha.support).1) ha.supportGeneration
    · change RecordOk _ (Function.update s.supports a.supportSlot _ slot)
      rw [Function.update_of_ne heq]
      exact (h.support slot hslot).frame rfl rfl
  · intro slot hslot
    by_cases heq : slot = a.versionSlot
    · obtain ⟨_, _, _, _, hversion⟩ := @attach_version digests s command a
      rw [heq, hversion]
      exact hstage _ _ (h.version _ (findFree_some ha.version).1) ha.versionGeneration
    · change RecordOk _ (Function.update s.versions a.versionSlot _ slot)
      rw [Function.update_of_ne heq]
      exact (h.version slot hslot).frame rfl rfl
  · exact fun slot hslot => (h.root slot hslot).frame rfl rfl keeps within
  · have hbase := hlive.base
    exact ⟨hlive.retirable, ⟨hbase.inRoots, hbase.generation, hbase.isSealed⟩,
      attach_view ha hin hlive.view⟩

end

-- Terminals

theorem retire_of_accepts {α : Type} {record : Record α} (h : s.Accepts false record)
    (owner : Nat)
    : record.retire owner = record := by
  rw [Record.retire, if_neg]
  rw [Record.stagedBy, accepts_sealed.mp h]
  simp

/-- A retired record has no owner and a generation below the end. -/
theorem RecordOk.retire {α : Type} {record : Record α} (h : RecordOk s record)
    : RecordOk s' (record.retire s.candidate.generation) := by
  rw [Record.retire]
  split
  · next hstaged =>
      obtain ⟨_, _, hroom⟩ := h.staged hstaged.1
      have hbump := bump_eq h.bounded hroom
      refine ⟨?_, ?_, by simp, by simp, by simp⟩
      · rw [hbump]
        exact Nat.succ_ne_zero _
      · rw [hbump]
        exact Nat.lt_of_le_of_ne h.bounded hroom
  · next hstaged =>
      apply h.of_not_staged
      exact fun hstate => hstaged ⟨hstate, (h.staged hstate).2.1⟩

theorem discarded_sound (h : Sound digests s) (live : s.candidate.state = .live)
    : Sound digests s.discarded := by
  have hretirable := (h.live live).retirable
  have hbump := bump_eq h.generation.2 hretirable
  have hkeeps : Keeps s s.discarded (s.accepted false)
      ∧ (s.accepted false).Within (s.discarded.accepted false) := by
    apply keeps_of_eq
    · rfl
    · exact fun record hr => accepts_sealed.mpr (accepts_sealed.mp hr)
    · exact fun slot hslot => retire_of_accepts hslot _
    · exact fun slot hslot => retire_of_accepts hslot _
    · exact fun slot hslot => retire_of_accepts hslot _
  refine ⟨h.capacities, h.magic, h.laidOut, ?_, ?_, ?_, ?_, ?_, Or.inl rfl, ?_⟩
  · exact fun slot hslot => (h.statement slot hslot).retire
  · exact fun slot hslot => (h.support slot hslot).retire
  · exact fun slot hslot => (h.version slot hslot).retire
  · exact fun slot hslot => (h.root slot hslot).frame rfl rfl hkeeps.1 hkeeps.2
  · change bump s.candidate.generation ≠ 0 ∧ bump s.candidate.generation ≤ wordMax
    have := h.generation.2
    omega
  · exact fun hlive => absurd hlive (by simp [Store.discarded, Store.release])

theorem seal_fields {α : Type} (record : Record α) (owner : Nat)
    : (record.seal owner).generation = record.generation
      ∧ (record.seal owner).body = record.body := by
  rw [Record.seal]
  split <;> exact ⟨rfl, rfl⟩

theorem RecordOk.seal {α : Type} {record : Record α} (h : RecordOk s record)
    : RecordOk s' (record.seal s.candidate.generation) := by
  rw [Record.seal]
  split
  · exact ⟨h.positive, h.bounded, by simp, fun _ => rfl, by simp⟩
  · next hstaged =>
      apply h.of_not_staged
      exact fun hstate => hstaged ⟨hstate, (h.staged hstate).2.1⟩

/-- What the candidate used is sealed. -/
theorem seal_accepted {α : Type} {record : Record α} {candidate : Bool}
    (h : s.Accepts candidate record)
    : (record.seal s.candidate.generation).state = .sealed := by
  rw [Record.seal]
  rcases h with hsealed | ⟨_, hstaged⟩
  · split
    · rfl
    · exact hsealed
  · rw [if_pos hstaged]

theorem keeps_sealedAt (s : Store) (rootSlot : Nat) (candidate : Bool)
    : Keeps s (s.sealedAt rootSlot) (s.accepted candidate)
      ∧ (s.accepted candidate).Within ((s.sealedAt rootSlot).accepted false) := by
  constructor
  · exact ⟨rfl, fun _ _ => seal_fields _ _, fun _ _ => seal_fields _ _, fun _ _ => seal_fields _ _⟩
  · exact ⟨fun _ h => accepts_sealed.mpr (seal_accepted h),
      fun _ h => accepts_sealed.mpr (seal_accepted h),
      fun _ h => accepts_sealed.mpr (seal_accepted h)⟩

theorem sealedAt_root (s : Store) (rootSlot : Nat)
    : (s.sealedAt rootSlot).roots rootSlot
        = ⟨.sealed, (s.roots rootSlot).generation, s.candidate.baseSlot, s.candidate.extents⟩
      ∧ (s.sealedAt rootSlot).rootHeads rootSlot = s.candidateHeads :=
  ⟨Function.update_self _ _ _, Function.update_self _ _ _⟩

/-- The other roots stay. -/
theorem sealedAt_other (s : Store) {rootSlot slot : Nat} (hne : slot ≠ rootSlot)
    : (s.sealedAt rootSlot).roots slot = s.roots slot
      ∧ (s.sealedAt rootSlot).rootHeads slot = s.rootHeads slot :=
  ⟨Function.update_of_ne hne _ _, Function.update_of_ne hne _ _⟩

theorem sealedAt_sound (h : Sound digests s) (live : s.candidate.state = .live) (rootSlot : Nat)
    : Sound digests (s.sealedAt rootSlot) := by
  have hlive := h.live live
  have hbump := bump_eq h.generation.2 hlive.retirable
  obtain ⟨keeps, within⟩ := keeps_sealedAt s rootSlot false
  obtain ⟨keeps', within'⟩ := keeps_sealedAt s rootSlot true
  refine ⟨h.capacities, h.magic, h.laidOut, ?_, ?_, ?_, ?_, ?_, Or.inl rfl, ?_⟩
  · exact fun slot hslot => (h.statement slot hslot).seal
  · exact fun slot hslot => (h.support slot hslot).seal
  · exact fun slot hslot => (h.version slot hslot).seal
  · intro slot hslot
    by_cases heq : slot = rootSlot
    · subst heq
      obtain ⟨hroot, hheads⟩ := sealedAt_root s slot
      refine ⟨by rw [hroot]; exact (h.root slot hslot).bounded, by rw [hroot]; exact Or.inr rfl, ?_⟩
      rw [hroot, hheads]
      exact fun _ => hlive.view.frame keeps' within'
    · obtain ⟨hroot, hheads⟩ := sealedAt_other s heq
      exact (h.root slot hslot).frame hroot hheads keeps within
  · change bump s.candidate.generation ≠ 0 ∧ bump s.candidate.generation ≤ wordMax
    have := h.generation.2
    have := hlive.retirable
    omega
  · exact fun hlive => absurd hlive (by simp [Store.sealedAt, Store.release])

end

end Xlog.Cuda.SemanticGraph
