import Xlog.Cuda.SemanticLane
import Mathlib.Logic.Relation

/-! Handles of roots over a run: they name what they named, or are stale for good.
-/

namespace Xlog.Cuda.SemanticGraph

open Xlog.Foundation

/-- A root in a later store. Its generation is not taken back, and within its generation a sealed
root stays, with the events that its chains hold.
-/
def RootAges (s s' : Store) (slot : Nat) : Prop :=
  (s.roots slot).generation ≤ (s'.roots slot).generation
  ∧ ((s.roots slot).state = .sealed → (s'.roots slot).generation = (s.roots slot).generation
    → s'.roots slot = s.roots slot ∧ s'.rootHeads slot = s.rootHeads slot
      ∧ ∀ event, s'.Holds (s.rootHeads slot) event ↔ s.Holds (s.rootHeads slot) event)

structure Continues (s s' : Store) : Prop where
  capacities : s'.capacities = s.capacities
  root : ∀ slot, slot < s.capacities.roots → RootAges s s' slot

section

variable {digests : Digests} {s s' s'' m : Store}

theorem Continues.refl (s : Store) : Continues s s :=
  ⟨rfl, fun _ _ => ⟨Nat.le_refl _, fun _ _ => ⟨rfl, rfl, fun _ => Iff.rfl⟩⟩⟩

theorem Continues.trans (h : Continues s s') (h' : Continues s' s'') : Continues s s'' := by
  refine ⟨h'.capacities.trans h.capacities, fun slot hslot => ?_⟩
  obtain ⟨hle, hsame⟩ := h.root slot hslot
  obtain ⟨hle', hsame'⟩ := h'.root slot (h.capacities ▸ hslot)
  refine ⟨hle.trans hle', fun hsealed hgeneration => ?_⟩
  have hmiddle := Nat.le_antisymm (hgeneration ▸ hle') hle
  obtain ⟨hroot, hheads, hholds⟩ := hsame hsealed hmiddle
  obtain ⟨hroot', hheads', hholds'⟩ :=
    hsame' (hroot ▸ hsealed) (hgeneration.trans hmiddle.symm)
  rw [hheads] at hheads' hholds'
  exact ⟨hroot'.trans hroot, hheads', fun event => (hholds' event).trans (hholds event)⟩

-- Commands

/-- Sealed records that stay leave the roots over them what they hold. -/
theorem continues_of_keeps (h : Sound digests s) (keeps : Keeps s s' (s.accepted false))
    (root : ∀ slot, (s'.roots slot).generation = (s.roots slot).generation
      ∧ ((s.roots slot).state = .sealed
        → s'.roots slot = s.roots slot ∧ s'.rootHeads slot = s.rootHeads slot))
    : Continues s s' := by
  refine ⟨keeps.capacities, fun slot hslot => ⟨(root slot).1.ge, fun hsealed _ => ?_⟩⟩
  obtain ⟨hroot, hheads⟩ := (root slot).2 hsealed
  exact ⟨hroot, hheads, fun _ => ((h.root slot hslot).view hsealed).lineage.holds_frame keeps⟩

theorem discarded_continues (h : Sound digests s) : Continues s s.discarded := by
  have hkeep : ∀ {α : Type} {record : Record α}, s.Accepts false record →
      (record.retire s.candidate.generation).generation = record.generation
        ∧ (record.retire s.candidate.generation).body = record.body := fun hr =>
    (retire_of_accepts hr _).symm ▸ ⟨rfl, rfl⟩
  exact continues_of_keeps h ⟨rfl, fun _ => hkeep, fun _ => hkeep, fun _ => hkeep⟩
    fun _ => ⟨rfl, fun _ => ⟨rfl, rfl⟩⟩

theorem sealedAt_continues (h : Sound digests s) {rootSlot : Nat}
    (free : (s.roots rootSlot).state = .free)
    : Continues s (s.sealedAt rootSlot) := by
  refine continues_of_keeps h (keeps_sealedAt s rootSlot false).1 fun slot => ?_
  by_cases heq : slot = rootSlot
  · subst heq
    exact ⟨by rw [(sealedAt_root s slot).1], fun hsealed => by simp [free] at hsealed⟩
  · exact ⟨by rw [(sealedAt_other s heq).1], fun _ => sealedAt_other s heq⟩

/-- A retirement frees one root under its next generation; the others were traced. -/
theorem retired_continues (h : Sound digests s) {slot generation : Nat}
    (retires : Retires s slot generation) (retained : Retained digests s m slot)
    : Continues s (m.retired slot) := by
  have marked := retained.marked
  have hroots := marked.roots
  refine ⟨marked.capacities, fun other hother => ?_⟩
  by_cases heq : other = slot
  · subst heq
    have hfree : (m.retired other).roots other
        = { s.roots other with state := .free, generation := bump (s.roots other).generation } := by
      rw [← hroots.1]
      exact Function.update_self _ _ _
    have hbump := bump_eq (h.root other hother).bounded (retires.root.generation ▸ retires.room)
    rw [RootAges, hfree, hbump]
    exact ⟨Nat.le_succ _, fun _ hsame => absurd hsame (Nat.succ_ne_self _)⟩
  · have hroot : (m.retired slot).roots other = s.roots other :=
      hroots.1 ▸ Function.update_of_ne heq _ _
    refine ⟨(congrArg Root.generation hroot).ge, fun hsealed _ =>
      ⟨hroot, hroots.2 ▸ Function.update_of_ne heq _ _, fun event => ?_⟩⟩
    obtain ⟨keeps, _⟩ := keeps_reclaimed m false
    have hswept : Keeps m (m.retired slot) (m.traced false) :=
      ⟨keeps.capacities, keeps.statement, keeps.support, keeps.version⟩
    exact ((retained.root other hother hsealed heq).holds_frame hswept).trans
      (((h.root other hother).view hsealed).lineage.holds_frame (marked.keeps _))

theorem retireRoot_continues (h : Sound digests s) (command : Command) (receipt : Receipt)
    : Continues s (retireRoot s command receipt).1 := by
  rcases retireRoot_eq digests h command receipt with
    heq | ⟨m, marked, heq⟩ | ⟨m, retires, retained, _, heq⟩
  · exact heq.symm ▸ .refl s
  · have hrestored : ∀ {α : Type} {record marked : Record α}, MarkedRecord record marked →
        (marked.reclaim false).generation = record.generation
          ∧ (marked.reclaim false).body = record.body := by
      intro α record marked hr
      rw [← hr.fields.2.1, ← hr.fields.2.2, Record.reclaim]
      split
      · exact ⟨rfl, rfl⟩
      · rw [if_neg (by simp)]
        exact ⟨rfl, rfl⟩
    have hkeeps : Keeps s (m.reclaimed false) (s.accepted false) :=
      ⟨marked.capacities, fun slot _ => hrestored (marked.statement slot),
        fun slot _ => hrestored (marked.support slot),
        fun slot _ => hrestored (marked.version slot)⟩
    rw [heq]
    refine continues_of_keeps h hkeeps fun slot => ⟨?_, fun _ => ⟨?_, ?_⟩⟩
    · exact congrArg Root.generation (congrFun marked.roots.1 slot)
    · exact congrFun marked.roots.1 slot
    · exact congrFun marked.roots.2 slot
  · exact heq.symm ▸ retired_continues h retires retained

theorem settle_continues {allowed : Receipt → Prop} {post : Store × Receipt → Prop}
    {result : Checked (Store × Receipt)} (ends : Ends allowed post result)
    (continues : ∀ after, post after → Continues s after.1)
    : Continues s (settle s result).1 := by
  cases result with
  | error refusal => exact .refl s
  | ok after => exact continues after ends

theorem runCommand_continues (h : Sound digests s) (command : Command) (receipt : Receipt)
    : Continues s (runCommand digests s command receipt).1 := by
  have hquery : ∀ result, Continues s (settleQuery s result).1 := fun result =>
    (settleQuery_store s result).symm ▸ .refl s
  rw [runCommand.eq_def]
  split
  · exact settle_continues preflightTransition_ends fun _ reserves => reserves.store ▸ .refl s
  · exact settle_continues forkRoot_ends fun _ forks =>
      forks.store ▸ continues_of_keeps h (keeps_forked s _).1
        fun _ => ⟨rfl, fun _ => ⟨rfl, rfl⟩⟩
  · refine settle_continues (insertSupport_ends h) fun _ inserts => ?_
    rcases inserts.outcome with ⟨_, heq, _⟩ | ⟨_, _, a, attaches, heq⟩
    · exact heq ▸ .refl s
    · exact heq ▸ continues_of_keeps h (keeps_attach attaches false).1
        fun _ => ⟨rfl, fun _ => ⟨rfl, rfl⟩⟩
  · exact settle_continues discard_ends fun _ discards => discards.store ▸ discarded_continues h
  · refine settle_continues sealCandidate_ends fun _ seals => ?_
    rcases seals.outcome with ⟨_, heq, _⟩ | ⟨_, rootSlot, hfree, heq, _⟩
    · exact heq ▸ discarded_continues h
    · exact heq ▸ sealedAt_continues h (findFree_some hfree).2.1
  · exact retireRoot_continues h command receipt
  · exact hquery _
  · exact hquery _
  · exact hquery _
  · exact hquery _
  · exact hquery _
  · exact .refl s

theorem runAdmitted_continues (h : Sound digests s) (d : Descriptor) (command : Command)
    (retainRefusal : Bool) (receipt : Receipt)
    : Continues s (runAdmitted digests d s command retainRefusal receipt).1 := by
  have hsound := runCommand_sound h command receipt
  have hrun := runCommand_continues h command receipt
  rw [runAdmitted]
  generalize runCommand digests s command receipt = result at hsound hrun ⊢
  obtain ⟨after, result⟩ := result
  by_cases hcleanup : d.admission = .seal ∧ retainRefusal = false ∧ result.status ≠ .ok
  · simp only [if_pos hcleanup]
    exact hrun.trans (settle_continues discard_ends fun _ discards =>
      discards.store ▸ discarded_continues hsound)
  · simp only [if_neg hcleanup]
    cases retainRefusal <;> exact hrun

-- Launches

/-- A launch whose command, where one is admitted, does not lay out the arena again. -/
def Descriptor.KeepsArena (digests : Digests) (d : Descriptor) : Prop :=
  ∀ receipt task, admitLaunch digests d { owner := d.expectedOwner } = .ok (receipt, task)
    → (task.command d).operation ≠ .initializeArena

/-- One launch after another. -/
def Launched (digests : Digests) (s s' : Store) : Prop :=
  ∃ d : Descriptor, d.KeepsArena digests ∧ s' = (execute digests s d).store

theorem Launched.continues (h : Sound digests s) (launched : Launched digests s s')
    : Continues s s' := by
  obtain ⟨d, hkeeps, rfl⟩ := launched
  rw [execute]
  dsimp only
  split
  · exact .refl s
  split
  · exact .refl s
  split
  · exact .refl s
  next receipt task hadmitted =>
  rw [if_neg (hkeeps receipt task hadmitted)]
  split
  · exact .refl s
  cases task with
  | run command retainRefusal => exact runAdmitted_continues h d command retainRefusal receipt
  | emptyRootHandle => exact (emptyRootHandle_store d s _ receipt).symm ▸ .refl s
  | consumeTruth => exact (consumeTruth_store d s _ receipt).symm ▸ .refl s
  | materializeDecoded input => exact .refl s

/-- A run, by induction on its launches. -/
theorem continues_of_run (reachable : Reachable digests s)
    (run : Relation.ReflTransGen (Launched digests) s s')
    : Reachable digests s' ∧ Continues s s' := by
  induction run with
  | refl => exact ⟨reachable, .refl s⟩
  | tail _ launched ih =>
      obtain ⟨d, _, rfl⟩ := id launched
      exact ⟨ih.1.launch d, ih.2.trans (launched.continues ih.1.sound)⟩

/-- The handle names in a later store what it named, or it is not valid there nor in any store
after it.
-/
def HandleKept (digests : Digests) (s s' : Store) (slot generation : Nat) : Prop :=
  (s'.RootValid slot generation ∧ (s'.roots slot).extents = (s.roots slot).extents
    ∧ ∀ event, s'.Holds (s'.rootHeads slot) event ↔ s.Holds (s.rootHeads slot) event)
  ∨ ∀ s'', Relation.ReflTransGen (Launched digests) s' s'' → ¬s''.RootValid slot generation

/-- The handle of a root is kept in every run until the root is retired, and is stale after that. -/
theorem handleKept_of_run {slot generation : Nat} (reachable : Reachable digests s)
    (root : s.RootValid slot generation) (run : Relation.ReflTransGen (Launched digests) s s')
    : HandleKept digests s s' slot generation := by
  obtain ⟨hreachable, hcontinues⟩ := continues_of_run reachable run
  obtain ⟨hle, hsame⟩ := hcontinues.root slot root.inRoots
  have hslot : slot < s'.capacities.roots := hcontinues.capacities ▸ root.inRoots
  by_cases hgeneration : (s'.roots slot).generation = (s.roots slot).generation
  · obtain ⟨hroot, hheads, hholds⟩ := hsame root.isSealed hgeneration
    refine Or.inl ⟨⟨hslot, hgeneration.trans root.generation, hroot ▸ root.isSealed⟩, ?_,
      hheads ▸ hholds⟩
    rw [hroot]
  · refine Or.inr fun s'' hrun hvalid => ?_
    have hlater := ((continues_of_run hreachable hrun).2.root slot hslot).1
    have := root.generation
    have := hvalid.generation
    omega

end

/-- The empty root of a new arena, and a fork of it. -/
theorem handleKept_of_run_forked
    : ∃ s s', s'.candidate.state = .live ∧ HandleKept plainDigests s s' 0 1 := by
  let d : Descriptor :=
    { expectedOwner := 1, abiGeneration, admission := .fork, handle := some ⟨1, rootKind, 0, 1⟩ }
  have hkeeps : d.KeepsArena plainDigests := by
    intro receipt task hadmitted
    cases hadmitted
    decide
  exact ⟨initialStore plainDigests ⟨1, 1, 1, 1⟩ 1, _, rfl, handleKept_of_run (.empty (by decide) 1)
    ⟨Nat.one_pos, rfl, rfl⟩ (.single ⟨d, hkeeps, rfl⟩)⟩

-- Truth

/-- Some support on the chain of the statement has the polarity. -/
def Store.Supported (s : Store) (heads : Nat → Nat) (statement : Identity) (polarity : Nat)
    : Prop :=
  ∃ slot, heads slot ≠ 0 ∧ (s.statements slot).body = statement
    ∧ ∃ version ∈ s.versionsFrom s.capacities.versions (heads slot),
      (s.supports (s.versions version).body.supportSlot).body.polarity = polarity

section

variable {digests : Digests} {s : Store}

/-- The truth behind a head joins the polarities on its chain, by induction on the chain. -/
theorem Chain.testBit_headTruth {slots : Slots} {statementSlot encoded newer : Nat} (bit : Fin 2)
    {versions : List Nat} (h : Chain digests s slots statementSlot encoded newer versions)
    : (s.headTruth encoded).testBit bit ↔ ∃ version ∈ versions,
        (s.supports (s.versions version).body.supportSlot).body.polarity = bit + 1 := by
  induction h with
  | nil => simp [Store.headTruth]
  | @cons newer slot rest link older ih =>
      have hhead : s.headTruth (slot + 1) = (s.versions slot).body.truth := rfl
      have hpolarity : (s.supports (s.versions slot).body.supportSlot).body.polarity.testBit bit
          ↔ (s.supports (s.versions slot).body.supportSlot).body.polarity = bit + 1 := by
        rcases link.polarity with hp | hp
        · rw [hp]
          exact (by decide : ∀ bit : Fin 2, Nat.testBit 1 bit ↔ 1 = bit.val + 1) bit
        · rw [hp]
          exact (by decide : ∀ bit : Fin 2, Nat.testBit 2 bit ↔ 2 = bit.val + 1) bit
      rw [hhead, link.truth, Nat.testBit_or, Bool.or_eq_true, ih, hpolarity, or_comm]
      simp

end

end Xlog.Cuda.SemanticGraph
