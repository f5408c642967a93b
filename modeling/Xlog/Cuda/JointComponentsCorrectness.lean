import Xlog.Cuda.JointComponentsUnion

/-! The compression points every candidate at its root while other threads still walk, and counts the
roots. Planning leaves the components of the candidates of arity two and more.
-/

namespace Xlog.Cuda.JointSolve

open Xlog.Foundation
open Xlog.Foundation.DescendingForest (Descends Coarsens top)

variable {input : PlanInput}

-- Compression

def CompressState.rank : CompressState → Nat
  | .root walk => 3 + walk.weight
  | .store _ => 2
  | .count => 1
  | .returned => 0

/-- What a thread of the compression knows where it stands, given the forest of the union. -/
def Points (input : PlanInput) (before : Memory) (candidate : Nat) (state : CompressState)
    (memory : Memory) : Prop :=
  match state with
  | .root walk => candidate < input.numCandidates ∧ walk.Climbs memory.parents candidate
  | .store root => candidate < input.numCandidates ∧ root = top before.parents candidate
  | .count =>
      candidate < input.numCandidates ∧ top before.parents candidate = candidate
      ∧ memory.parents candidate = top before.parents candidate
  | .returned =>
      candidate < input.numCandidates → memory.parents candidate = top before.parents candidate

/-- The trees are those of the union. -/
structure SameTrees (input : PlanInput) (before memory : Memory) : Prop where
  forest : Forest input memory
  tops
    : ∀ candidate, candidate < input.numCandidates
      → top memory.parents candidate = top before.parents candidate

/-- The memory after a candidate has been pointed at its root. -/
def Memory.point (memory : Memory) (candidate : Nat) : Memory :=
  { memory with
    parents := Function.update memory.parents candidate (top memory.parents candidate) }

def compresses (input : PlanInput) (before : Memory) : Threads.Annotation Memory CompressState where
  memory := SameTrees input before
  own := Points input before

/-- The part of the count that a thread still has to add. -/
def pending (input : PlanInput) (before : Memory) (candidate : Nat) (state : CompressState) : Nat :=
  if candidate < input.numCandidates ∧ top before.parents candidate = candidate
    ∧ state ≠ .returned then 1 else 0

/-- A compression keeps the trees. -/
theorem SameTrees.store {before memory : Memory} (h : SameTrees input before memory)
    {candidate : Nat} (hcandidate : candidate < input.numCandidates)
    : SameTrees input before (memory.point candidate) := by
  refine ⟨h.forest.compress hcandidate, ?_⟩
  intro other hother
  exact (h.forest.top_compress hcandidate hother).trans (h.tops other hother)

/-- A thread that walks or has stored a root knows the same after a compression. -/
theorem Points.store {before memory : Memory} {candidate other : Nat} {state : CompressState}
    (h : Points input before other state memory) (hmemory : SameTrees input before memory)
    (hcandidate : candidate < input.numCandidates)
    : Points input before other state (memory.point candidate) := by
  have hparent (heq : memory.parents other = top before.parents other)
      : (memory.point candidate).parents other = top before.parents other := by
    by_cases hsame : other = candidate
    · subst hsame
      exact (Function.update_self _ _ _).trans (hmemory.tops other hcandidate)
    · exact (Function.update_of_ne hsame _ _).trans heq
  cases state with
  | root walk =>
      exact ⟨h.1, h.2.coarsens h.1 (hmemory.forest.coarsens_compress hcandidate)⟩
  | store root => exact h
  | count => exact ⟨h.1, h.2.1, hparent h.2.2⟩
  | returned => exact fun hother => hparent (h hother)

/-- What a step of the compression does: it lowers its rank, and what it adds to the count it has no
more to add.
-/
structure Compresses (input : PlanInput) (before : Memory) (candidate : Nat)
    (state next : CompressState) (memory memory' : Memory) : Prop where
  sameTrees : SameTrees input before memory'
  points : Points input before candidate next memory'
  others
    : ∀ {other state}, Points input before other state memory
      → Points input before other state memory'
  rank : next.rank < state.rank
  counts
    : memory'.componentCount = memory.componentCount
        ∧ pending input before candidate next = pending input before candidate state
      ∨ memory'.componentCount = (memory.componentCount + 1) % 2 ^ 32
        ∧ pending input before candidate next + 1 = pending input before candidate state

theorem componentCompressStep_compresses {before memory memory' : Memory} {candidate : Nat}
    {state next : CompressState} (hmemory : SameTrees input before memory)
    (hpoints : Points input before candidate state memory)
    (hstep : componentCompressStep candidate state memory = some (next, memory'))
    : Compresses input before candidate state next memory memory' := by
  cases state with
  | returned => exact absurd hstep (by simp [componentCompressStep])
  | root walk =>
      obtain ⟨hcandidate, hclimbs⟩ := hpoints
      cases hload : walk.load memory.parents with
      | some further =>
          rw [componentCompressStep, hload] at hstep
          obtain ⟨rfl, rfl⟩ := Prod.mk.inj (Option.some.inj hstep)
          obtain ⟨hfurther, hlt⟩ := hclimbs.load hmemory.forest hcandidate hload
          refine ⟨hmemory, ⟨hcandidate, hfurther⟩, fun h => h, Nat.add_lt_add_left hlt _,
            .inl ⟨rfl, ?_⟩⟩
          simp [pending]
      | none =>
          rw [componentCompressStep, hload] at hstep
          obtain ⟨rfl, rfl⟩ := Prod.mk.inj (Option.some.inj hstep)
          obtain ⟨_, htop⟩ := hclimbs.load_none hload
          refine ⟨hmemory, ⟨hcandidate, ?_⟩, fun h => h, ?_, .inl ⟨rfl, ?_⟩⟩
          · rw [← hmemory.tops candidate hcandidate, htop]
          · simp only [CompressState.rank]
            omega
          · simp [pending]
  | store root =>
      obtain ⟨hcandidate, rfl⟩ := hpoints
      obtain ⟨rfl, rfl⟩ := Prod.mk.inj (Option.some.inj hstep)
      have htop := hmemory.tops candidate hcandidate
      have hstore : memory.point candidate
          = { memory with
              parents :=
                Function.update memory.parents candidate (top before.parents candidate) } := by
        rw [Memory.point, htop]
      have hparent : (memory.point candidate).parents candidate = top before.parents candidate :=
        (Function.update_self _ _ _).trans htop
      rw [← hstore]
      refine ⟨hmemory.store hcandidate, ?_, fun hother => hother.store hmemory hcandidate, ?_,
        .inl ⟨rfl, ?_⟩⟩
      · split
        · rename_i hroot
          exact ⟨hcandidate, hroot, hparent⟩
        · exact fun _ => hparent
      · split <;> simp [CompressState.rank]
      · split <;> simp_all [pending]
  | count =>
      obtain ⟨hcandidate, htop, hparent⟩ := hpoints
      obtain ⟨rfl, rfl⟩ := Prod.mk.inj (Option.some.inj hstep)
      refine ⟨⟨hmemory.forest, hmemory.tops⟩, fun _ => hparent, ?_, Nat.zero_lt_one,
        .inr ⟨rfl, ?_⟩⟩
      · intro other state hother
        cases state <;> exact hother
      · simp [pending, hcandidate, htop]

theorem compresses_stable (input : PlanInput) (before : Memory)
    : (compresses input before).Stable (componentCompress input) := by
  intro memory memory' candidate state next _ hmemory hpoints hstep
  have hcompresses := componentCompressStep_compresses hmemory hpoints hstep
  exact ⟨hcompresses.sameTrees, hcompresses.points, fun _ _ => hcompresses.others⟩

theorem compresses_start {memory₃ : Memory} (h : Forest input memory₃)
    : (compresses input memory₃).Holds ⟨memory₃, (componentCompress input).start⟩ := by
  refine ⟨⟨h, fun _ _ => rfl⟩, fun candidate => ?_⟩
  change Points input memory₃ candidate
    (if candidate < input.numCandidates then .root (.test candidate) else .returned) memory₃
  split
  · rename_i hcandidate
    exact ⟨hcandidate, Walk.climbs_test _ _⟩
  · rename_i hout
    exact fun hcandidate => absurd hcandidate hout

theorem componentCompress_terminates {memory₃ : Memory} (h : Forest input memory₃)
    : (componentCompress input).Terminates memory₃ := by
  refine Threads.terminates_of_weights (compresses input memory₃).Holds (compresses_start h)
    (fun _ _ hbefore hstep => (compresses_stable input memory₃).step hbefore hstep)
    (fun _ => CompressState.rank) (fun _ _ _ => 0) ?_
  intro memory memory' locals candidate next hholds hstep
  exact .inl (componentCompressStep_compresses hholds.1 (hholds.2 candidate) hstep).rank

theorem componentCompress_forest {memory₃ : Memory} {world : Threads.World Memory CompressState}
    (h : Forest input memory₃) (hreaches : (componentCompress input).Reaches memory₃ world)
    : Forest input world.shared :=
  ((compresses_stable input memory₃).reaches (compresses_start h) hreaches).1.forest

-- The count

/-- The candidates that are roots. -/
def roots (input : PlanInput) (memory : Memory) : Finset Nat :=
  {candidate ∈ Finset.range input.numCandidates | top memory.parents candidate = candidate}

theorem roots_card_lt (input : PlanInput) (memory : Memory) : (roots input memory).card < 2 ^ 32 := by
  have hle := Finset.card_filter_le (Finset.range input.numCandidates)
    (fun candidate => top memory.parents candidate = candidate)
  rw [Finset.card_range] at hle
  exact Nat.lt_of_le_of_lt hle input.numCandidates_lt

/-- At first every root has still to be counted. -/
theorem pending_start (input : PlanInput) (memory : Memory)
    : (componentCompress input).totalWeight (pending input memory) (componentCompress input).start
      = (roots input memory).card := by
  rw [Threads.totalWeight, roots, Finset.card_filter]
  have hsub : Finset.range input.numCandidates
      ⊆ Finset.range (gridThreads input.numCandidates) := by
    intro candidate hcandidate
    exact Finset.mem_range.mpr (lt_gridThreads (Finset.mem_range.mp hcandidate))
  symm
  refine (Finset.sum_subset_zero_on_sdiff hsub ?_ ?_)
  · intro candidate hcandidate
    have hout := (Finset.mem_sdiff.mp hcandidate).2
    rw [Finset.mem_range] at hout
    simp [pending, hout]
  · intro candidate hcandidate
    rw [Finset.mem_range] at hcandidate
    simp [pending, componentCompress, hcandidate]

/-- What is counted and what is still to be counted are the roots. -/
theorem componentCompress_counts {memory₃ : Memory} {world : Threads.World Memory CompressState}
    (h : Forest input memory₃) (hcount : memory₃.componentCount = 0)
    (hreaches : (componentCompress input).Reaches memory₃ world)
    : world.shared.componentCount
        + (componentCompress input).totalWeight (pending input memory₃) world.locals
      = (roots input memory₃).card := by
  have hinv := hreaches.invariant (fun world => (compresses input memory₃).Holds world
    ∧ world.shared.componentCount
        + (componentCompress input).totalWeight (pending input memory₃) world.locals
      = (roots input memory₃).card) ?_ ?_
  · exact hinv.2
  · refine ⟨compresses_start h, ?_⟩
    rw [pending_start, hcount, Nat.zero_add]
  · intro before after hbefore hstep
    refine ⟨(compresses_stable input memory₃).step hbefore.1 hstep, ?_⟩
    cases hstep with
    | @mk memory memory' locals candidate next hlaunched hnext =>
        obtain ⟨hholds, htotal⟩ := hbefore
        have hcounts :=
          (componentCompressStep_compresses hholds.1 (hholds.2 candidate) hnext).counts
        have hupdate := @Threads.totalWeight_update _ _ (componentCompress input)
          (pending input memory₃) locals candidate next hlaunched
        have hlt := roots_card_lt input memory₃
        simp only at htotal hcounts ⊢
        rcases hcounts with ⟨hsame, hpending⟩ | ⟨hadded, hpending⟩
        · omega
        · have hfits : memory.componentCount + 1 < 2 ^ 32 := by omega
          rw [hadded, Nat.mod_eq_of_lt hfits]
          omega

-- The components

/-- The components are those of the roots, one for each. -/
theorem ncard_components {memory : Memory} (h : HasTrees input memory)
    : (components 2 input).ncard = (roots input memory).card := by
  have himage : components 2 input = component 2 input '' (roots input memory : Set Nat) := by
    apply Set.Subset.antisymm
    · rintro _ ⟨candidate, hcandidate, rfl⟩
      have hroot := h.forest.top_lt hcandidate
      have htop := h.forest.top_top hcandidate
      have hlinked := (h.joined_iff hroot hcandidate).mp htop
      refine ⟨top memory.parents candidate, ?_, ?_⟩
      · simpa [roots] using And.intro hroot htop
      · ext other
        exact and_congr_right fun _ => ⟨hlinked.symm.trans, hlinked.trans⟩
    · rintro _ ⟨candidate, hcandidate, rfl⟩
      have hmem : candidate < input.numCandidates
          ∧ top memory.parents candidate = candidate := by simpa [roots] using hcandidate
      exact ⟨candidate, hmem.1, rfl⟩
  have hinjective : Set.InjOn (component 2 input) (roots input memory : Set Nat) := by
    intro left hleft right hright hsame
    have hl : left < input.numCandidates ∧ top memory.parents left = left := by
      simpa [roots] using hleft
    have hr : right < input.numCandidates ∧ top memory.parents right = right := by
      simpa [roots] using hright
    have hmem : right ∈ component 2 input left := by
      rw [hsame]
      exact ⟨hr.1, .refl⟩
    rw [← hl.2, (h.joined_iff hl.1 hr.1).mpr hmem.2, hr.2]
  rw [himage, hinjective.ncard_image, Set.ncard_coe_finset]

theorem componentCompress_leaves {memory₃ memory₄ : Memory} (h : HasTrees input memory₃)
    (hleaves : (componentCompress input).Leaves memory₃ memory₄)
    : HoldsComponents 2 input memory₄ := by
  obtain ⟨locals, hreaches, hfinished⟩ := hleaves
  have hpoints :=
    ((compresses_stable input memory₃).reaches (compresses_start h.forest) hreaches).2
  have hcounts := componentCompress_counts h.forest h.count hreaches
  have hreturned : ∀ candidate, candidate < gridThreads input.numCandidates
      → locals candidate = .returned := by
    intro candidate hlaunched
    have hnone : componentCompressStep candidate (locals candidate) memory₄ = none :=
      hfinished candidate hlaunched
    cases hstate : locals candidate with
    | returned => rfl
    | root walk =>
        rw [hstate] at hnone
        cases hload : walk.load memory₄.parents <;> simp [componentCompressStep, hload] at hnone
    | _ => simp [hstate, componentCompressStep] at hnone
  have hparents : ∀ candidate, candidate < input.numCandidates
      → memory₄.parents candidate = top memory₃.parents candidate := by
    intro candidate hcandidate
    have hknown : Points input memory₃ candidate (locals candidate) memory₄ := hpoints candidate
    rw [hreturned candidate (lt_gridThreads hcandidate)] at hknown
    exact hknown hcandidate
  refine ⟨?_, ?_, ?_⟩
  · intro left right hleft hright
    rw [hparents left hleft, hparents right hright]
    exact h.joined_iff hleft hright
  · intro candidate hcandidate
    rw [hparents candidate hcandidate]
    refine ⟨⟨h.forest.top_lt hcandidate, ?_⟩, ?_⟩
    · exact (h.joined_iff hcandidate (h.forest.top_lt hcandidate)).mp
        (h.forest.top_top hcandidate).symm
    · intro other hother
      rw [(h.joined_iff hcandidate hother.1).mpr hother.2]
      exact h.forest.top_le hother.1
  · have hnothing : (componentCompress input).totalWeight (pending input memory₃) locals = 0 := by
      refine Finset.sum_eq_zero fun candidate hlaunched => ?_
      simp [pending, hreturned candidate (Finset.mem_range.mp hlaunched)]
    rw [ncard_components h, ← hcounts, hnothing]
    rfl

/-- Planning leaves the components of the candidates of arity two and more, under every
interleaving.
-/
theorem plansComponents_two (input : PlanInput) (memory : Memory)
    : PlansComponents 2 input memory where
  planInit_ends := planInit_terminates input memory
  planInit_forest h := fun candidate hcandidate =>
    Nat.le_of_eq ((planInit_leaves h).parents candidate hcandidate)
  entityOwners_ends _ := entityOwners_terminates input _
  entityOwners_forest h hreaches := entityOwners_forest (planInit_leaves h) hreaches
  union_ends h h' := componentUnion_terminates (entityOwners_leaves (planInit_leaves h) h')
  union_forest h h' hreaches :=
    componentUnion_forest (entityOwners_leaves (planInit_leaves h) h') hreaches
  compress_ends h h' h'' := componentCompress_terminates
    (componentUnion_leaves (entityOwners_leaves (planInit_leaves h) h') h'').forest
  compress_forest h h' h'' hreaches := componentCompress_forest
    (componentUnion_leaves (entityOwners_leaves (planInit_leaves h) h') h'').forest hreaches
  compress_components h h' h'' hleaves := componentCompress_leaves
    (componentUnion_leaves (entityOwners_leaves (planInit_leaves h) h') h'') hleaves

/-- Some interleaving of each kernel leaves a memory. -/
theorem exists_planned (input : PlanInput) (memory : Memory)
    : ∃ memory₁ memory₂ memory₃ memory₄, (planInit input).Leaves memory memory₁
      ∧ (entityOwners input).Leaves memory₁ memory₂
      ∧ (componentUnion input).Leaves memory₂ memory₃
      ∧ (componentCompress input).Leaves memory₃ memory₄ := by
  have h := plansComponents_two input memory
  obtain ⟨memory₁, h₁⟩ := h.planInit_ends.leaves
  obtain ⟨memory₂, h₂⟩ := (h.entityOwners_ends h₁).leaves
  obtain ⟨memory₃, h₃⟩ := (h.union_ends h₁ h₂).leaves
  obtain ⟨memory₄, h₄⟩ := (h.compress_ends h₁ h₂ h₃).leaves
  exact ⟨memory₁, memory₂, memory₃, memory₄, h₁, h₂, h₃, h₄⟩

/-- Planning leaves the components for one lowest arity when these are the components for two. -/
theorem plansComponents_iff_linked {lowest : Nat} {memory : Memory}
    : PlansComponents lowest input memory
      ↔ ∀ left right, left < input.numCandidates → right < input.numCandidates
        → (Linked lowest input left right ↔ Linked 2 input left right) := by
  constructor
  · intro h left right hleft hright
    obtain ⟨_, _, _, memory₄, h₁, h₂, h₃, h₄⟩ := exists_planned input memory
    rw [← (h.compress_components h₁ h₂ h₃ h₄).parents_eq_iff left right hleft hright,
      ((plansComponents_two input memory).compress_components h₁ h₂ h₃ h₄).parents_eq_iff
        left right hleft hright]
  · intro hlinked
    have hcomponent : ∀ candidate, candidate < input.numCandidates
        → component lowest input candidate = component 2 input candidate := by
      intro candidate hcandidate
      ext other
      exact and_congr_right fun hother => hlinked candidate other hcandidate hother
    have hcomponents : components lowest input = components 2 input :=
      Set.image_congr fun candidate hcandidate => hcomponent candidate hcandidate
    have h := plansComponents_two input memory
    refine { h with compress_components := fun h₁ h₂ h₃ h₄ => ?_ }
    obtain ⟨hparents, hsmallest, hcount⟩ := h.compress_components h₁ h₂ h₃ h₄
    refine ⟨?_, ?_, ?_⟩
    · intro left right hleft hright
      exact (hparents left right hleft hright).trans (hlinked left right hleft hright).symm
    · intro candidate hcandidate
      rw [hcomponent candidate hcandidate]
      exact hsmallest candidate hcandidate
    · rw [hcomponents, hcount]

/-- A candidate of arity one, within the largest arity, shares its entity with another candidate. -/
def SharesUnary (input : PlanInput) : Prop :=
  ∃ candidate other, candidate ≠ other ∧ input.argumentArities candidate = 1
    ∧ Shares 1 input candidate other

/-- Without such a candidate only candidates of arity two and more are linked to others. -/
theorem linked_one_iff (h : ¬SharesUnary input) {left right : Nat}
    : Linked 1 input left right ↔ Linked 2 input left right := by
  constructor
  · intro hlinked
    induction hlinked with
    | refl => exact .refl
    | @tail middle right _ hshares ih =>
        by_cases heq : middle = right
        · exact heq ▸ ih
        · have hmiddle : input.argumentArities middle ≠ 1 :=
            fun hone => h ⟨middle, right, heq, hone, hshares⟩
          have hright : input.argumentArities right ≠ 1 :=
            fun hone => h ⟨right, middle, Ne.symm heq, hone, hshares.symm⟩
          obtain ⟨entity, hm, hr⟩ := hshares
          refine ih.trans (.single ⟨entity, ⟨hm.1, ?_, hm.2.2⟩, ⟨hr.1, ?_, hr.2.2⟩⟩)
          · have := hm.2.1
            omega
          · have := hr.2.1
            omega
  · intro hlinked
    refine Relation.ReflTransGen.mono ?_ _ _ hlinked
    rintro left right ⟨entity, hl, hr⟩
    exact ⟨entity, ⟨hl.1, Nat.le_of_succ_le hl.2.1, hl.2.2⟩,
      ⟨hr.1, Nat.le_of_succ_le hr.2.1, hr.2.2⟩⟩

/-- A candidate of arity one is linked to no other by candidates of arity two and more. -/
theorem eq_of_linked_two {left right : Nat} (hunary : input.argumentArities left = 1)
    (h : Linked 2 input left right) : left = right := by
  rcases Relation.ReflTransGen.cases_head h with heq | ⟨_, ⟨_, hleft, _⟩, _⟩
  · exact heq
  · have := hleft.2.1
    omega

/-- Planning computes the components of all candidates exactly when no candidate of arity one shares
its entity: the kernels let candidates of arity one share nothing.
-/
theorem plansComponents_iff (input : PlanInput) (memory : Memory)
    : PlansComponents 1 input memory ↔ ¬SharesUnary input := by
  rw [plansComponents_iff_linked]
  constructor
  · rintro hlinked ⟨candidate, other, hne, hunary, hshares⟩
    apply hne
    exact eq_of_linked_two hunary ((hlinked candidate other hshares.left_lt
      hshares.symm.left_lt).mp (.single hshares))
  · intro h left right _ _
    exact linked_one_iff h

/-- Two candidates of arity one that name one entity. -/
def unaryPair : PlanInput where
  numCandidates := 2
  maxArity := 2
  numEntities := 1
  arguments _ := 0
  argumentArities _ := 1
  numCandidates_pos := by decide
  maxArity_pos := by decide
  numEntities_pos := by decide
  numCandidates_lt := by decide
  maxArity_lt := by decide

/-- They share the entity, and planning leaves them apart. -/
theorem not_plansComponents_unaryPair
    : ¬PlansComponents 1 unaryPair ⟨fun _ => 0, fun _ => 0, 0, 0⟩ := by
  intro h
  have hactive (candidate : Nat) (hlt : candidate < 2) : Active 1 unaryPair candidate 0 :=
    ⟨hlt, Nat.le_refl 1, Nat.le_succ 1, Nat.zero_lt_one, 0, Nat.zero_lt_one, rfl⟩
  have hshares : Shares 1 unaryPair 0 1 := ⟨0, hactive 0 (by decide), hactive 1 (by decide)⟩
  have hlinked := (plansComponents_iff_linked.mp h 0 1 (by decide) (by decide)).mp (.single hshares)
  exact absurd (eq_of_linked_two rfl hlinked) (by decide)

end Xlog.Cuda.JointSolve
