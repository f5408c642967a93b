import Xlog.Cuda.JointComponents

/-! The union links only candidates that share an entity, and a thread leaves a role only when its
candidate and the owner of the entity are joined. A thread that loses a compare-and-swap has seen
another thread finish a role, so that the retries end.
-/

namespace Xlog.Cuda.JointSolve

open Xlog.Foundation
open Xlog.Foundation.DescendingForest (Descends Coarsens top)

variable {input : PlanInput}

-- Walks

/-- A walk from an element is still in its tree, and goes on only below a root. -/
structure Walk.Climbs (parents : Nat → Nat) (element : Nat) (walk : Walk) : Prop where
  le : walk.root ≤ element
  joined : top parents walk.root = top parents element
  child : ∀ root, walk = .follow root → parents root ≠ root

/-- The loads that a walk may still take. -/
def Walk.weight : Walk → Nat
  | .test root => 2 * root + 1
  | .follow root => 2 * root

section Climbs

variable {n element : Nat} {parents : Nat → Nat} {walk next : Walk}

theorem Walk.climbs_test (parents : Nat → Nat) (element : Nat)
    : (Walk.test element).Climbs parents element :=
  ⟨Nat.le_refl _, rfl, fun _ h => by cases h⟩

/-- A load goes on in the same tree. -/
theorem Walk.Climbs.load (h : walk.Climbs parents element) (hforest : Descends n parents)
    (helement : element < n) (hload : walk.load parents = some next)
    : next.Climbs parents element ∧ next.weight < walk.weight := by
  obtain ⟨hle, hjoined, hchild⟩ := h
  cases walk with
  | test root =>
      simp only [Walk.load] at hload
      split at hload
      · rename_i hne
        obtain rfl := Option.some.inj hload
        exact ⟨⟨hle, hjoined, fun _ heq => by cases heq; exact hne⟩, Nat.lt_succ_self _⟩
      · contradiction
  | follow root =>
      obtain rfl := Option.some.inj hload
      have hroot : root < n := Nat.lt_of_le_of_lt hle helement
      have hlt := hforest.parent_lt hroot (hchild root rfl)
      refine ⟨⟨Nat.le_trans (Nat.le_of_lt hlt) hle, ?_, fun _ heq => by cases heq⟩, ?_⟩
      · exact (hforest.top_parent hroot).trans hjoined
      · simp only [Walk.weight]
        omega

/-- A walk ends at the root of its tree. -/
theorem Walk.Climbs.load_none (h : walk.Climbs parents element) (hload : walk.load parents = none)
    : parents walk.root = walk.root ∧ top parents element = walk.root := by
  cases walk with
  | test root =>
      have hroot : parents root = root := by
        by_contra hne
        simp [Walk.load, hne] at hload
      exact ⟨hroot, h.joined.symm.trans (DescendingForest.top_of_root hroot)⟩
  | follow root => contradiction

theorem Walk.Climbs.coarsens {parents' : Nat → Nat} (h : walk.Climbs parents element)
    (helement : element < n) (hcoarser : Coarsens n parents parents')
    : walk.Climbs parents' element := by
  have hroot : walk.root < n := Nat.lt_of_le_of_lt h.le helement
  refine ⟨h.le, hcoarser.joined _ _ hroot helement h.joined, ?_⟩
  rintro root rfl
  exact hcoarser.child root hroot (h.child root rfl)

end Climbs

-- Roles

/-- The retry loop of a role: the entity is in range and has its owner. -/
structure Retries (input : PlanInput) (before : Memory) (candidate role owner : Nat) : Prop where
  participates : input.participates candidate = true
  role_lt : role < input.argumentArities candidate
  entity_lt : input.entity candidate role < input.numEntities
  owner_eq : owner = before.entityOwners (input.entity candidate role)
  active : Active 2 input owner (input.entity candidate role)

theorem Retries.candidate_lt {before : Memory} {candidate role owner : Nat}
    (h : Retries input before candidate role owner) : candidate < input.numCandidates :=
  (participates_iff.mp h.participates).1

theorem Retries.owner_lt {before : Memory} {candidate role owner : Nat}
    (h : Retries input before candidate role owner) : owner < input.numCandidates :=
  h.active.1

theorem Retries.linked {before : Memory} {candidate role owner : Nat}
    (h : Retries input before candidate role owner) : Linked 2 input candidate owner :=
  .single ⟨_, active_entity h.participates h.role_lt h.entity_lt, h.active⟩

/-- A candidate is joined to the owners of the entities in its first roles. -/
def JoinedUpTo (input : PlanInput) (before : Memory) (candidate passed : Nat) (memory : Memory)
    : Prop :=
  ∀ role owner, role < passed → Retries input before candidate role owner
    → top memory.parents candidate = top memory.parents owner

/-- The two elements that a link takes are in the trees of the two candidates. -/
def Ends (parents : Nat → Nat) (candidate owner left right : Nat) : Prop :=
  top parents left = top parents candidate ∧ top parents right = top parents owner

/-- What a thread of the union knows where it stands. -/
def Knows (input : PlanInput) (before : Memory) (candidate : Nat) (state : UnionState)
    (memory : Memory) : Prop :=
  match state with
  | .role passed =>
      input.participates candidate = true ∧ JoinedUpTo input before candidate passed memory
  | .candidateRoot role owner walk =>
      Retries input before candidate role owner ∧ JoinedUpTo input before candidate role memory
      ∧ walk.Climbs memory.parents candidate
  | .ownerRoot role owner candidateRoot walk =>
      Retries input before candidate role owner ∧ JoinedUpTo input before candidate role memory
      ∧ candidateRoot < input.numCandidates
      ∧ top memory.parents candidateRoot = top memory.parents candidate
      ∧ walk.Climbs memory.parents owner
  | .link role owner lower upper =>
      Retries input before candidate role owner ∧ JoinedUpTo input before candidate role memory
      ∧ lower < upper ∧ upper < input.numCandidates
      ∧ (Ends memory.parents candidate owner lower upper
        ∨ Ends memory.parents candidate owner upper lower)
  | .returned => input.participates candidate = false

/-- The forest joins only linked candidates, and the owners stay. -/
structure LinksOnly (input : PlanInput) (before memory : Memory) : Prop where
  forest : Forest input memory
  linked : ∀ candidate, candidate < input.numCandidates
    → Linked 2 input candidate (top memory.parents candidate)
  owners : memory.entityOwners = before.entityOwners
  count : memory.componentCount = before.componentCount

def unionJoins (input : PlanInput) (before : Memory) : Threads.Annotation Memory UnionState where
  memory := LinksOnly input before
  own := Knows input before

theorem JoinedUpTo.coarsens {before memory memory' : Memory} {candidate passed : Nat}
    (h : JoinedUpTo input before candidate passed memory)
    (hcoarser : Coarsens input.numCandidates memory.parents memory'.parents)
    : JoinedUpTo input before candidate passed memory' := by
  intro role owner hrole hretries
  exact hcoarser.joined _ _ hretries.candidate_lt hretries.owner_lt (h role owner hrole hretries)

/-- What a thread knows is still so in a coarser forest. -/
theorem Knows.coarsens {before memory memory' : Memory} {candidate : Nat}
    {state : UnionState} (h : Knows input before candidate state memory)
    (hcoarser : Coarsens input.numCandidates memory.parents memory'.parents)
    : Knows input before candidate state memory' := by
  cases state with
  | role passed => exact ⟨h.1, h.2.coarsens hcoarser⟩
  | candidateRoot role owner walk =>
      obtain ⟨hretries, hpassed, hclimbs⟩ := h
      exact ⟨hretries, hpassed.coarsens hcoarser, hclimbs.coarsens hretries.candidate_lt hcoarser⟩
  | ownerRoot role owner candidateRoot walk =>
      obtain ⟨hretries, hpassed, hlt, hroot, hclimbs⟩ := h
      exact ⟨hretries, hpassed.coarsens hcoarser, hlt,
        hcoarser.joined _ _ hlt hretries.candidate_lt hroot,
        hclimbs.coarsens hretries.owner_lt hcoarser⟩
  | link role owner lower upper =>
      obtain ⟨hretries, hpassed, hlt, hupper, hends⟩ := h
      have hlower : lower < input.numCandidates := Nat.lt_trans hlt hupper
      refine ⟨hretries, hpassed.coarsens hcoarser, hlt, hupper, hends.imp ?_ ?_⟩
      · rintro ⟨hl, hu⟩
        exact ⟨hcoarser.joined _ _ hlower hretries.candidate_lt hl,
          hcoarser.joined _ _ hupper hretries.owner_lt hu⟩
      · rintro ⟨hu, hl⟩
        exact ⟨hcoarser.joined _ _ hupper hretries.candidate_lt hu,
          hcoarser.joined _ _ hlower hretries.owner_lt hl⟩
  | returned => exact h

-- Links

theorem LinksOnly.linked_of_joined {before memory : Memory} (h : LinksOnly input before memory)
    {left right : Nat} (hleft : left < input.numCandidates) (hright : right < input.numCandidates)
    (hjoined : top memory.parents left = top memory.parents right) : Linked 2 input left right := by
  have hl := h.linked left hleft
  rw [hjoined] at hl
  exact hl.trans (h.linked right hright).symm

/-- The ends of a link are linked, since the candidate shares an entity with its owner. -/
theorem LinksOnly.linked_of_ends {before memory : Memory} (h : LinksOnly input before memory)
    {candidate role owner left right : Nat} (hretries : Retries input before candidate role owner)
    (hleft : left < input.numCandidates) (hright : right < input.numCandidates)
    (hends : Ends memory.parents candidate owner left right) : Linked 2 input left right :=
  (h.linked_of_joined hleft hretries.candidate_lt hends.1).trans
    (hretries.linked.trans (h.linked_of_joined hretries.owner_lt hright hends.2.symm))

theorem LinksOnly.link {before memory : Memory} (h : LinksOnly input before memory)
    {lower upper : Nat} (hroot : memory.parents upper = upper) (hlt : lower < upper)
    (hupper : upper < input.numCandidates) (hlinked : Linked 2 input lower upper)
    : LinksOnly input before
        { memory with parents := Function.update memory.parents upper lower } := by
  refine ⟨h.forest.link hlt, ?_, h.owners, h.count⟩
  intro candidate hcandidate
  have htop := h.linked candidate hcandidate
  change Linked 2 input candidate (top (Function.update memory.parents upper lower) candidate)
  rw [h.forest.top_link hroot hlt hupper hcandidate]
  split
  · rename_i heq
    rw [heq] at htop
    exact htop.trans (hlinked.symm.trans (h.linked lower (Nat.lt_trans hlt hupper)))
  · exact htop

/-- The compare-and-swap that wins joins the candidate to the owner. -/
theorem joined_of_ends {memory : Memory} (h : Forest input memory)
    {candidate owner lower upper : Nat} (hroot : memory.parents upper = upper) (hlt : lower < upper)
    (hupper : upper < input.numCandidates) (hcandidate : candidate < input.numCandidates)
    (howner : owner < input.numCandidates)
    (hends
      : Ends memory.parents candidate owner lower upper
        ∨ Ends memory.parents candidate owner upper lower)
    : top (Function.update memory.parents upper lower) candidate
      = top (Function.update memory.parents upper lower) owner := by
  have hlower : lower < input.numCandidates := Nat.lt_trans hlt hupper
  have hcoarser := h.coarsens_link hroot hlt hupper
  have hjoins := h.link_joins hroot hlt hupper
  rcases hends with ⟨hl, hu⟩ | ⟨hu, hl⟩
  · rw [← hcoarser.joined _ _ hlower hcandidate hl, hjoins,
      hcoarser.joined _ _ hupper howner hu]
  · rw [← hcoarser.joined _ _ hupper hcandidate hu, ← hjoins,
      hcoarser.joined _ _ hlower howner hl]

/-- A role whose candidate is joined to its owner is passed. -/
theorem JoinedUpTo.succ {before memory : Memory} {candidate role owner : Nat}
    (h : JoinedUpTo input before candidate role memory)
    (hretries : Retries input before candidate role owner)
    (hjoined : top memory.parents candidate = top memory.parents owner)
    : JoinedUpTo input before candidate (role + 1) memory := by
  intro earlier other hearlier hother
  obtain hbefore | rfl := Nat.lt_succ_iff_lt_or_eq.mp hearlier
  · exact h earlier other hbefore hother
  · rwa [hother.owner_eq, ← hretries.owner_eq]

-- Steps

/-- The retries that a lost compare-and-swap can cost. -/
def retryWeight (input : PlanInput) : Nat := 4 * input.numCandidates + 8

/-- The roles that are left to a thread. -/
def UnionState.rank (input : PlanInput) (candidate : Nat) : UnionState → Nat
  | .role passed => input.argumentArities candidate - passed
  | .candidateRoot passed _ _ => input.argumentArities candidate - passed
  | .ownerRoot passed _ _ _ => input.argumentArities candidate - passed
  | .link passed _ _ _ => input.argumentArities candidate - passed
  | .returned => 0

/-- The steps left in a role while no other thread links. A thread that holds an element that is no
root any more has one retry more to come.
-/
def UnionState.weight (input : PlanInput) (memory : Memory) : UnionState → Nat
  | .role _ => retryWeight input
  | .candidateRoot _ _ walk => 2 * input.numCandidates + 4 + walk.weight
  | .ownerRoot _ _ found walk =>
      2 + walk.weight
      + if memory.parents found = found then 0 else retryWeight input
  | .link _ _ _ upper => 1 + if memory.parents upper = upper then 0 else retryWeight input
  | .returned => 0

/-- What a step of the union does: it leaves the memory alone and comes closer to the end of its
role, or it ends a role, possibly with a link.
-/
structure Advances (input : PlanInput) (before : Memory) (candidate : Nat) (state next : UnionState)
    (memory memory' : Memory) : Prop where
  linksOnly : LinksOnly input before memory'
  knows : Knows input before candidate next memory'
  coarsens : Coarsens input.numCandidates memory.parents memory'.parents
  lowers
    : next.rank input candidate < state.rank input candidate
      ∨ memory' = memory ∧ next.rank input candidate = state.rank input candidate
        ∧ next.weight input memory < state.weight input memory

theorem componentUnionStep_advances {before memory memory' : Memory} {candidate : Nat}
    {state next : UnionState} (howners : HasOwners input before)
    (hmemory : LinksOnly input before memory) (hknows : Knows input before candidate state memory)
    (hstep : componentUnionStep input candidate state memory = some (next, memory'))
    : Advances input before candidate state next memory memory' := by
  have hsame := hmemory.forest.coarsens_refl
  cases state with
  | returned => exact absurd hstep (by simp [componentUnionStep])
  | role role =>
      obtain ⟨hparticipates, hpassed⟩ := hknows
      by_cases hrole : role < input.argumentArities candidate
      · rw [componentUnionStep, if_pos hrole] at hstep
        by_cases hentity : input.entity candidate role < input.numEntities
        · have howned := howners.owned (active_entity hparticipates hrole hentity)
          have hne : memory.entityOwners (input.entity candidate role) ≠ noOwner := by
            rw [hmemory.owners]
            exact Nat.ne_of_lt howned
          simp only [if_pos hentity, if_neg hne] at hstep
          obtain ⟨rfl, rfl⟩ := Prod.mk.inj (Option.some.inj hstep)
          have hretries : Retries input before candidate role
              (memory.entityOwners (input.entity candidate role)) := by
            rw [hmemory.owners]
            exact ⟨hparticipates, hrole, hentity, rfl, howners.owners.active _ hentity howned⟩
          have hcandidate := hretries.candidate_lt
          refine ⟨hmemory, ⟨hretries, hpassed, Walk.climbs_test _ _⟩, hsame, .inr ⟨rfl, rfl, ?_⟩⟩
          simp only [UnionState.weight, Walk.weight, retryWeight]
          omega
        · simp only [if_neg hentity] at hstep
          obtain ⟨rfl, rfl⟩ := Prod.mk.inj (Option.some.inj hstep)
          refine ⟨hmemory, ⟨hparticipates, ?_⟩, hsame, .inl ?_⟩
          · intro earlier owner hearlier hretries
            obtain hbefore | rfl := Nat.lt_succ_iff_lt_or_eq.mp hearlier
            · exact hpassed earlier owner hbefore hretries
            · exact absurd hretries.entity_lt hentity
          · simp only [UnionState.rank]
            omega
      · rw [componentUnionStep, if_neg hrole] at hstep
        contradiction
  | candidateRoot role owner walk =>
      obtain ⟨hretries, hpassed, hclimbs⟩ := hknows
      cases hload : walk.load memory.parents with
      | some further =>
          rw [componentUnionStep, hload] at hstep
          obtain ⟨rfl, rfl⟩ := Prod.mk.inj (Option.some.inj hstep)
          obtain ⟨hfurther, hlt⟩ := hclimbs.load hmemory.forest hretries.candidate_lt hload
          exact ⟨hmemory, ⟨hretries, hpassed, hfurther⟩, hsame,
            .inr ⟨rfl, rfl, Nat.add_lt_add_left hlt _⟩⟩
      | none =>
          rw [componentUnionStep, hload] at hstep
          obtain ⟨rfl, rfl⟩ := Prod.mk.inj (Option.some.inj hstep)
          obtain ⟨hroot, htop⟩ := hclimbs.load_none hload
          have howner := hretries.owner_lt
          refine ⟨hmemory, ⟨hretries, hpassed, ?_, ?_, Walk.climbs_test _ _⟩, hsame,
            .inr ⟨rfl, rfl, ?_⟩⟩
          · exact Nat.lt_of_le_of_lt hclimbs.le hretries.candidate_lt
          · exact hclimbs.joined
          · simp only [UnionState.weight, Walk.weight, if_pos hroot]
            omega
  | ownerRoot role owner candidateRoot walk =>
      obtain ⟨hretries, hpassed, hcandidateRoot, htop, hclimbs⟩ := hknows
      cases hload : walk.load memory.parents with
      | some further =>
          rw [componentUnionStep, hload] at hstep
          obtain ⟨rfl, rfl⟩ := Prod.mk.inj (Option.some.inj hstep)
          obtain ⟨hfurther, hlt⟩ := hclimbs.load hmemory.forest hretries.owner_lt hload
          refine ⟨hmemory, ⟨hretries, hpassed, hcandidateRoot, htop, hfurther⟩, hsame,
            .inr ⟨rfl, rfl, ?_⟩⟩
          simp only [UnionState.weight]
          omega
      | none =>
          rw [componentUnionStep, hload] at hstep
          obtain ⟨hroot, howner⟩ := hclimbs.load_none hload
          have hownerRoot : walk.root < input.numCandidates :=
            Nat.lt_of_le_of_lt hclimbs.le hretries.owner_lt
          by_cases hequal : candidateRoot = walk.root
          · simp only [if_pos hequal] at hstep
            obtain ⟨rfl, rfl⟩ := Prod.mk.inj (Option.some.inj hstep)
            have hjoined : top memory.parents candidate = top memory.parents owner := by
              rw [← htop, hequal, hclimbs.joined]
            refine ⟨hmemory, ⟨hretries.participates, hpassed.succ hretries hjoined⟩, hsame,
              .inl ?_⟩
            have hrole := hretries.role_lt
            simp only [UnionState.rank]
            omega
          · simp only [if_neg hequal] at hstep
            by_cases hlt : candidateRoot < walk.root
            · simp only [if_pos hlt] at hstep
              obtain ⟨rfl, rfl⟩ := Prod.mk.inj (Option.some.inj hstep)
              refine ⟨hmemory, ⟨hretries, hpassed, hlt, hownerRoot, .inl ⟨htop, hclimbs.joined⟩⟩,
                hsame, .inr ⟨rfl, rfl, ?_⟩⟩
              simp only [UnionState.weight, if_pos hroot]
              omega
            · simp only [if_neg hlt] at hstep
              obtain ⟨rfl, rfl⟩ := Prod.mk.inj (Option.some.inj hstep)
              refine ⟨hmemory, ⟨hretries, hpassed, by omega, hcandidateRoot,
                .inr ⟨htop, hclimbs.joined⟩⟩, hsame, .inr ⟨rfl, rfl, ?_⟩⟩
              simp only [UnionState.weight]
              omega
  | link role owner lower upper =>
      obtain ⟨hretries, hpassed, hlt, hupper, hends⟩ := hknows
      have hcandidate := hretries.candidate_lt
      by_cases hroot : memory.parents upper = upper
      · rw [componentUnionStep, if_pos hroot] at hstep
        obtain ⟨rfl, rfl⟩ := Prod.mk.inj (Option.some.inj hstep)
        have hcoarser := hmemory.forest.coarsens_link hroot hlt hupper
        have hlinked : Linked 2 input lower upper := by
          have hlower : lower < input.numCandidates := Nat.lt_trans hlt hupper
          rcases hends with hends | hends
          · exact hmemory.linked_of_ends hretries hlower hupper hends
          · exact (hmemory.linked_of_ends hretries hupper hlower hends).symm
        have hjoined := joined_of_ends hmemory.forest hroot hlt hupper hcandidate
          hretries.owner_lt hends
        refine ⟨hmemory.link hroot hlt hupper hlinked, ⟨hretries.participates, ?_⟩, hcoarser,
          .inl ?_⟩
        · exact (hpassed.coarsens hcoarser).succ hretries hjoined
        · have hrole := hretries.role_lt
          simp only [UnionState.rank]
          omega
      · rw [componentUnionStep, if_neg hroot] at hstep
        obtain ⟨rfl, rfl⟩ := Prod.mk.inj (Option.some.inj hstep)
        refine ⟨hmemory, ⟨hretries, hpassed, Walk.climbs_test _ _⟩, hsame, .inr ⟨rfl, rfl, ?_⟩⟩
        simp only [UnionState.weight, Walk.weight, if_neg hroot, retryWeight]
        omega

-- Runs

theorem unionJoins_stable {before : Memory} (howners : HasOwners input before)
    : (unionJoins input before).Stable (componentUnion input) := by
  intro memory memory' candidate state next _ hmemory hknows hstep
  have hadvances := componentUnionStep_advances howners hmemory hknows hstep
  exact ⟨hadvances.linksOnly, hadvances.knows, fun _ _ hother => hother.coarsens hadvances.coarsens⟩

theorem HasOwners.forest {memory : Memory} (h : HasOwners input memory) : Forest input memory :=
  fun candidate hcandidate => Nat.le_of_eq (h.parents candidate hcandidate)

theorem unionJoins_start {memory₂ : Memory} (h : HasOwners input memory₂)
    : (unionJoins input memory₂).Holds ⟨memory₂, (componentUnion input).start⟩ := by
  refine ⟨⟨h.forest, ?_, rfl, rfl⟩, ?_⟩
  · intro candidate hcandidate
    rw [DescendingForest.top_of_root (h.parents candidate hcandidate)]
    exact .refl
  · intro candidate
    change Knows input memory₂ candidate
      (if input.participates candidate then .role 0 else .returned) memory₂
    split
    · rename_i hparticipates
      exact ⟨hparticipates, fun role _ hrole => absurd hrole (Nat.not_lt_zero role)⟩
    · rename_i hout
      exact Bool.eq_false_iff.mpr hout

theorem componentUnion_terminates {memory₂ : Memory} (h : HasOwners input memory₂)
    : (componentUnion input).Terminates memory₂ := by
  refine Threads.terminates_of_weights (unionJoins input memory₂).Holds (unionJoins_start h)
    (fun _ _ hbefore hstep => (unionJoins_stable h).step hbefore hstep)
    (UnionState.rank input) (fun memory _ => UnionState.weight input memory) ?_
  intro memory memory' locals candidate next hholds hstep
  obtain hrank | ⟨rfl, hrank, hweight⟩ :=
    (componentUnionStep_advances h hholds.1 (hholds.2 candidate) hstep).lowers
  · exact .inl hrank
  · exact .inr ⟨hrank, hweight, fun _ _ => Nat.le_refl _⟩

theorem componentUnion_forest {memory₂ : Memory} {world : Threads.World Memory UnionState}
    (h : HasOwners input memory₂) (hreaches : (componentUnion input).Reaches memory₂ world)
    : Forest input world.shared :=
  ((unionJoins_stable h).reaches (unionJoins_start h) hreaches).1.forest

/-- The memory after the union: a forest whose trees are the components. -/
structure HasTrees (input : PlanInput) (memory : Memory) : Prop where
  forest : Forest input memory
  joined_iff
    : ∀ {left right}, left < input.numCandidates → right < input.numCandidates
      → (top memory.parents left = top memory.parents right ↔ Linked 2 input left right)
  count : memory.componentCount = 0

/-- A thread of the union that has ended has passed its roles. -/
theorem joinedUpTo_of_finished {before memory : Memory} {candidate : Nat} {state : UnionState}
    (hparticipates : input.participates candidate = true)
    (hknows : Knows input before candidate state memory)
    (hfinished : componentUnionStep input candidate state memory = none)
    : JoinedUpTo input before candidate (input.argumentArities candidate) memory := by
  cases state with
  | returned => exact absurd (hparticipates.symm.trans hknows) (by decide)
  | role passed =>
      have hend : input.argumentArities candidate ≤ passed := by
        by_contra hlt
        simp only [componentUnionStep, if_pos (Nat.lt_of_not_le hlt)] at hfinished
        split at hfinished
        · split at hfinished <;> contradiction
        · contradiction
      exact fun role owner hrole => hknows.2 role owner (Nat.lt_of_lt_of_le hrole hend)
  | candidateRoot role owner walk =>
      cases hload : walk.load memory.parents <;> simp [componentUnionStep, hload] at hfinished
  | ownerRoot role owner candidateRoot walk =>
      cases hload : walk.load memory.parents <;> simp [componentUnionStep, hload] at hfinished
      split at hfinished <;> contradiction
  | link role owner lower upper =>
      simp only [componentUnionStep] at hfinished
      split at hfinished <;> contradiction

theorem componentUnion_leaves {memory₂ memory₃ : Memory} (h : HasOwners input memory₂)
    (hleaves : (componentUnion input).Leaves memory₂ memory₃) : HasTrees input memory₃ := by
  obtain ⟨locals, hreaches, hfinished⟩ := hleaves
  obtain ⟨hmemory, hknows⟩ := (unionJoins_stable h).reaches (unionJoins_start h) hreaches
  refine ⟨hmemory.forest, ?_, hmemory.count.trans h.count⟩
  -- A candidate that names an entity has been joined to its owner.
  have howner {candidate entity : Nat} (hactive : Active 2 input candidate entity)
      : top memory₃.parents candidate = top memory₃.parents (memory₂.entityOwners entity) := by
    obtain ⟨hparticipates, role, hrole, rfl⟩ := hactive.exists_role
    have hentity := hactive.2.2.2.1
    exact joinedUpTo_of_finished hparticipates (hknows candidate)
      (hfinished candidate (lt_gridThreads hactive.1)) role _ hrole
      ⟨hparticipates, hrole, hentity, rfl, h.owners.active _ hentity (h.owned hactive)⟩
  intro left right hleft hright
  refine ⟨hmemory.linked_of_joined hleft hright, fun hlinked => ?_⟩
  clear hleft hright
  induction hlinked with
  | refl => rfl
  | tail _ hshares ih =>
      obtain ⟨entity, hmiddle, hright⟩ := hshares
      rw [ih, howner hmiddle, howner hright]

end Xlog.Cuda.JointSolve
