import Mathlib.Data.Set.Card
import Xlog.Foundation.DescendingForest
import Xlog.Foundation.Threads

/-! Component planning of the joint constraint solve: four kernels, one launch after the other, that join the
candidates sharing an active argument entity in a union-find over their indices. The initialization
leaves every candidate its own parent; the owner kernel then gives an owner to exactly the entities that
a participating candidate names.
-/

namespace Xlog.Cuda.JointSolve

open Xlog.Foundation

/-- What the planning kernels read: the argument matrix, row by row, the arity column and the sizes.
The sizes are 32-bit words, and an allocated carrier has none that is zero.
-/
structure PlanInput where
  numCandidates : Nat
  maxArity : Nat
  numEntities : Nat
  arguments : Nat → Nat
  argumentArities : Nat → Nat
  numCandidates_pos : 0 < numCandidates
  maxArity_pos : 0 < maxArity
  numEntities_pos : 0 < numEntities
  numCandidates_lt : numCandidates < 2 ^ 32
  maxArity_lt : maxArity < 2 ^ 32

/-- The words that the planning kernels share. -/
structure Memory where
  parents : Nat → Nat
  entityOwners : Nat → Nat
  componentCount : Nat
  fuelSpent : Nat

/-- The owner of an entity that no candidate names. -/
def noOwner : Nat := 0xFFFFFFFF

/-- The threads of a launch over the given number of rows, in blocks of 256. Over 32-bit rows the
index of each thread is a 32-bit word itself.
-/
def gridThreads (rows : Nat) : Nat := (rows + 255) / 256 * 256

/-- The entity in a role of a candidate, read with a 64-bit index. -/
def PlanInput.entity (input : PlanInput) (candidate role : Nat) : Nat :=
  input.arguments ((candidate * input.maxArity + role) % 2 ^ 64)

-- Initialization

/-- The next store of a thread of the initialization. -/
inductive InitState where
  | parent
  | owner
  | count
  | fuel
  | returned
deriving DecidableEq, Repr

def planInitStep (input : PlanInput) (index : Nat) (state : InitState) (memory : Memory)
    : Option (InitState × Memory) :=
  match state with
  | .parent =>
      some (.owner,
        if index < input.numCandidates then
          { memory with parents := Function.update memory.parents index index }
        else memory)
  | .owner =>
      some (.count,
        if index < input.numEntities then
          { memory with entityOwners := Function.update memory.entityOwners index noOwner }
        else memory)
  | .count =>
      if index = 0 then some (.fuel, { memory with componentCount := 0 })
      else some (.returned, memory)
  | .fuel => some (.returned, { memory with fuelSpent := 0 })
  | .returned => none

/-- `joint_component_plan_init` -/
def planInit (input : PlanInput) : Threads Memory InitState where
  count := gridThreads (max input.numCandidates input.numEntities)
  start _ := .parent
  step := planInitStep input

-- Entity owners

/-- The guards before the role loops: the candidate exists and has an arity that takes part. -/
def PlanInput.participates (input : PlanInput) (candidate : Nat) : Bool :=
  candidate < input.numCandidates
  && !(input.argumentArities candidate < 2 || input.maxArity < input.argumentArities candidate)

/-- A thread that is about to look at a role, or that a guard has sent back. -/
inductive OwnersState where
  | role (role : Nat)
  | returned
deriving DecidableEq, Repr

def entityOwnersStep (input : PlanInput) (candidate : Nat) (state : OwnersState) (memory : Memory)
    : Option (OwnersState × Memory) :=
  match state with
  | .role role =>
      if role < input.argumentArities candidate then
        let entity := input.entity candidate role
        some (.role (role + 1),
          if entity < input.numEntities then
            { memory with
              entityOwners := Function.update memory.entityOwners entity
                (min (memory.entityOwners entity) candidate) }
          else memory)
      else none
  | .returned => none

/-- `joint_component_entity_owners` -/
def entityOwners (input : PlanInput) : Threads Memory OwnersState where
  count := gridThreads input.numCandidates
  start candidate := if input.participates candidate then .role 0 else .returned
  step := entityOwnersStep input

-- Roots

/-- The loop of `joint_component_root`, which loads a parent to compare it and once more to go there.
-/
inductive Walk where
  | test (root : Nat)
  | follow (root : Nat)
deriving DecidableEq, Repr

def Walk.root : Walk → Nat
  | .test root => root
  | .follow root => root

/-- One load of the loop; none when the loop ends at its root. -/
def Walk.load (parents : Nat → Nat) : Walk → Option Walk
  | .test root => if parents root ≠ root then some (.follow root) else none
  | .follow root => some (.test (parents root))

-- Union

/-- Where a thread of the union stands in its role loop and in the retry loop of a role. -/
inductive UnionState where
  | role (role : Nat)
  | candidateRoot (role owner : Nat) (walk : Walk)
  | ownerRoot (role owner candidateRoot : Nat) (walk : Walk)
  | link (role owner lower upper : Nat)
  | returned
deriving DecidableEq, Repr

def componentUnionStep (input : PlanInput) (candidate : Nat) (state : UnionState) (memory : Memory)
    : Option (UnionState × Memory) :=
  match state with
  | .role role =>
      if role < input.argumentArities candidate then
        let entity := input.entity candidate role
        if entity < input.numEntities then
          let owner := memory.entityOwners entity
          if owner = noOwner then some (.role (role + 1), memory)
          else some (.candidateRoot role owner (.test candidate), memory)
        else some (.role (role + 1), memory)
      else none
  | .candidateRoot role owner walk =>
      match walk.load memory.parents with
      | some walk => some (.candidateRoot role owner walk, memory)
      | none => some (.ownerRoot role owner walk.root (.test owner), memory)
  | .ownerRoot role owner candidateRoot walk =>
      match walk.load memory.parents with
      | some walk => some (.ownerRoot role owner candidateRoot walk, memory)
      | none =>
          let ownerRoot := walk.root
          if candidateRoot = ownerRoot then some (.role (role + 1), memory)
          else
            let lower := if candidateRoot < ownerRoot then candidateRoot else ownerRoot
            let upper := if candidateRoot < ownerRoot then ownerRoot else candidateRoot
            some (.link role owner lower upper, memory)
  | .link role owner lower upper =>
      -- The compare-and-swap; a thread that loses it looks for both roots again.
      if memory.parents upper = upper then
        some (.role (role + 1),
          { memory with parents := Function.update memory.parents upper lower })
      else some (.candidateRoot role owner (.test candidate), memory)
  | .returned => none

/-- `joint_component_union` -/
def componentUnion (input : PlanInput) : Threads Memory UnionState where
  count := gridThreads input.numCandidates
  start candidate := if input.participates candidate then .role 0 else .returned
  step := componentUnionStep input

-- Compression

inductive CompressState where
  | root (walk : Walk)
  | store (root : Nat)
  | count
  | returned
deriving DecidableEq, Repr

def componentCompressStep (candidate : Nat) (state : CompressState) (memory : Memory)
    : Option (CompressState × Memory) :=
  match state with
  | .root walk =>
      match walk.load memory.parents with
      | some walk => some (.root walk, memory)
      | none => some (.store walk.root, memory)
  | .store root =>
      some (if root = candidate then .count else .returned,
        { memory with parents := Function.update memory.parents candidate root })
  | .count =>
      some (.returned, { memory with componentCount := (memory.componentCount + 1) % 2 ^ 32 })
  | .returned => none

/-- `joint_component_compress` -/
def componentCompress (input : PlanInput) : Threads Memory CompressState where
  count := gridThreads input.numCandidates
  start candidate :=
    if candidate < input.numCandidates then .root (.test candidate) else .returned
  step := componentCompressStep

-- What planning is for

/-- An active argument entity of a candidate whose arity lies between the lowest one and the
largest.
-/
def Active (lowest : Nat) (input : PlanInput) (candidate entity : Nat) : Prop :=
  candidate < input.numCandidates
  ∧ lowest ≤ input.argumentArities candidate
  ∧ input.argumentArities candidate ≤ input.maxArity
  ∧ entity < input.numEntities
  ∧ ∃ role, role < input.argumentArities candidate
    ∧ input.arguments (candidate * input.maxArity + role) = entity

/-- The candidates share an active argument entity. -/
def Shares (lowest : Nat) (input : PlanInput) (left right : Nat) : Prop :=
  ∃ entity, Active lowest input left entity ∧ Active lowest input right entity

/-- A chain of shared entities links the candidates. -/
def Linked (lowest : Nat) (input : PlanInput) : Nat → Nat → Prop :=
  Relation.ReflTransGen (Shares lowest input)

def component (lowest : Nat) (input : PlanInput) (candidate : Nat) : Set Nat :=
  { other | other < input.numCandidates ∧ Linked lowest input candidate other }

def components (lowest : Nat) (input : PlanInput) : Set (Set Nat) :=
  (component lowest input) '' { candidate | candidate < input.numCandidates }

/-- The parents are a forest over the candidates with no parent above its child. -/
def Forest (input : PlanInput) (memory : Memory) : Prop :=
  DescendingForest.Descends input.numCandidates memory.parents

/-- The memory holds the components: the parent of each candidate is the smallest one that it is
linked to, linked candidates have one parent, and the count is that of the components.
-/
structure HoldsComponents (lowest : Nat) (input : PlanInput) (memory : Memory) : Prop where
  parents_eq_iff
    : ∀ left right, left < input.numCandidates → right < input.numCandidates
      → (memory.parents left = memory.parents right ↔ Linked lowest input left right)
  smallest
    : ∀ candidate, candidate < input.numCandidates
      → IsLeast (component lowest input candidate) (memory.parents candidate)
  count : memory.componentCount = (components lowest input).ncard

/-- Planning from a memory, over every interleaving of each of its kernels: no loop goes on forever,
the parents are a forest from the initialization on, and the last kernel leaves the components.
-/
structure PlansComponents (lowest : Nat) (input : PlanInput) (memory : Memory) : Prop where
  planInit_ends : (planInit input).Terminates memory
  planInit_forest : ∀ {memory₁}, (planInit input).Leaves memory memory₁ → Forest input memory₁
  entityOwners_ends
    : ∀ {memory₁}, (planInit input).Leaves memory memory₁ → (entityOwners input).Terminates memory₁
  entityOwners_forest
    : ∀ {memory₁ world}, (planInit input).Leaves memory memory₁
      → (entityOwners input).Reaches memory₁ world → Forest input world.shared
  union_ends
    : ∀ {memory₁ memory₂}, (planInit input).Leaves memory memory₁
      → (entityOwners input).Leaves memory₁ memory₂ → (componentUnion input).Terminates memory₂
  union_forest
    : ∀ {memory₁ memory₂ world}, (planInit input).Leaves memory memory₁
      → (entityOwners input).Leaves memory₁ memory₂
      → (componentUnion input).Reaches memory₂ world → Forest input world.shared
  compress_ends
    : ∀ {memory₁ memory₂ memory₃}, (planInit input).Leaves memory memory₁
      → (entityOwners input).Leaves memory₁ memory₂
      → (componentUnion input).Leaves memory₂ memory₃
      → (componentCompress input).Terminates memory₃
  compress_forest
    : ∀ {memory₁ memory₂ memory₃ world}, (planInit input).Leaves memory memory₁
      → (entityOwners input).Leaves memory₁ memory₂
      → (componentUnion input).Leaves memory₂ memory₃
      → (componentCompress input).Reaches memory₃ world → Forest input world.shared
  compress_components
    : ∀ {memory₁ memory₂ memory₃ memory₄}, (planInit input).Leaves memory memory₁
      → (entityOwners input).Leaves memory₁ memory₂
      → (componentUnion input).Leaves memory₂ memory₃
      → (componentCompress input).Leaves memory₃ memory₄
      → HoldsComponents lowest input memory₄

-- Indices and links

variable {lowest : Nat} {input : PlanInput}

/-- A launch has a thread for each row. -/
theorem lt_gridThreads {rows row : Nat} (h : row < rows) : row < gridThreads rows := by
  rw [gridThreads]
  omega

/-- The index of an argument does not wrap. -/
theorem PlanInput.entity_eq {candidate role : Nat} (hcandidate : candidate < input.numCandidates)
    (hrole : role < input.maxArity)
    : input.entity candidate role = input.arguments (candidate * input.maxArity + role) := by
  have hn := input.numCandidates_lt
  have hm := input.maxArity_lt
  have hrow : (candidate + 1) * input.maxArity ≤ 2 ^ 32 * 2 ^ 32 :=
    Nat.mul_le_mul (by omega) (Nat.le_of_lt hm)
  have hlt : candidate * input.maxArity + role < 2 ^ 64 := by
    rw [Nat.add_mul] at hrow
    omega
  rw [PlanInput.entity, Nat.mod_eq_of_lt hlt]

theorem participates_iff {candidate : Nat}
    : input.participates candidate = true
      ↔ candidate < input.numCandidates ∧ 2 ≤ input.argumentArities candidate
        ∧ input.argumentArities candidate ≤ input.maxArity := by
  simp only [PlanInput.participates, Bool.and_eq_true, Bool.not_eq_true', Bool.or_eq_false_iff,
    decide_eq_true_eq, decide_eq_false_iff_not, Nat.not_lt]

theorem Shares.symm {left right : Nat} (h : Shares lowest input left right)
    : Shares lowest input right left := by
  obtain ⟨entity, hleft, hright⟩ := h
  exact ⟨entity, hright, hleft⟩

theorem Shares.left_lt {left right : Nat} (h : Shares lowest input left right)
    : left < input.numCandidates := by
  obtain ⟨_, hleft, _⟩ := h
  exact hleft.1

theorem Linked.symm {left right : Nat} (h : Linked lowest input left right)
    : Linked lowest input right left := by
  induction h with
  | refl => exact .refl
  | tail _ hshares ih => exact .head hshares.symm ih

theorem Linked.trans {left middle right : Nat} (h : Linked lowest input left middle)
    (h' : Linked lowest input middle right) : Linked lowest input left right :=
  Relation.ReflTransGen.trans h h'

/-- The entities that the role loops of a participating candidate come to are the active ones. -/
theorem active_entity {candidate role : Nat} (h : input.participates candidate = true)
    (hrole : role < input.argumentArities candidate)
    (hentity : input.entity candidate role < input.numEntities)
    : Active 2 input candidate (input.entity candidate role) := by
  obtain ⟨hcandidate, hlow, hhigh⟩ := participates_iff.mp h
  exact ⟨hcandidate, hlow, hhigh, hentity, role, hrole,
    (input.entity_eq hcandidate (Nat.lt_of_lt_of_le hrole hhigh)).symm⟩

theorem Active.exists_role {candidate entity : Nat} (h : Active 2 input candidate entity)
    : input.participates candidate = true
      ∧ ∃ role, role < input.argumentArities candidate ∧ input.entity candidate role = entity := by
  obtain ⟨hcandidate, hlow, hhigh, _, role, hrole, hentity⟩ := h
  refine ⟨participates_iff.mpr ⟨hcandidate, hlow, hhigh⟩, role, hrole, ?_⟩
  rw [input.entity_eq hcandidate (Nat.lt_of_lt_of_le hrole hhigh), hentity]

-- Owners

-- Initialization

def InitState.rank : InitState → Nat
  | .parent => 4
  | .owner => 3
  | .count => 2
  | .fuel => 1
  | .returned => 0

theorem planInit_terminates (input : PlanInput) (memory : Memory)
    : (planInit input).Terminates memory := by
  refine Threads.terminates_of_rank (fun _ => InitState.rank) ?_
  intro shared shared' index state next hstep
  cases state with
  | parent | owner | fuel =>
      obtain ⟨rfl, rfl⟩ := Prod.mk.inj (Option.some.inj hstep)
      decide
  | count =>
      simp only [planInit, planInitStep] at hstep
      split at hstep
      all_goals
        obtain ⟨rfl, rfl⟩ := Prod.mk.inj (Option.some.inj hstep)
        decide
  | returned => exact absurd hstep (by simp [planInit, planInitStep])

/-- What the stores of a thread of the initialization have left behind. -/
def initialized (input : PlanInput) : Threads.Annotation Memory InitState where
  memory _ := True
  own index state memory :=
    (index < input.numCandidates → state ≠ .parent → memory.parents index = index)
    ∧ (index < input.numEntities → state ≠ .parent → state ≠ .owner →
      memory.entityOwners index = noOwner)
    ∧ (index = 0 → state = .fuel ∨ state = .returned → memory.componentCount = 0)

/-- The stores to one row write one value, so that no thread takes back what another has stored. -/
theorem initialized_stable (input : PlanInput)
    : (initialized input).Stable (planInit input) := by
  intro shared shared' index state next _ _ hown hstep
  refine ⟨trivial, ?_⟩
  cases state with
  | parent =>
      obtain ⟨rfl, rfl⟩ := Prod.mk.inj (Option.some.inj hstep)
      split <;> simp_all [initialized, Function.update_apply]
  | owner =>
      obtain ⟨rfl, rfl⟩ := Prod.mk.inj (Option.some.inj hstep)
      split <;> simp_all [initialized, Function.update_apply]
  | count =>
      simp only [planInit, planInitStep] at hstep
      split at hstep
      all_goals
        obtain ⟨rfl, rfl⟩ := Prod.mk.inj (Option.some.inj hstep)
        simp_all [initialized]
  | fuel =>
      obtain ⟨rfl, rfl⟩ := Prod.mk.inj (Option.some.inj hstep)
      simp_all [initialized]
  | returned => exact absurd hstep (by simp [planInit, planInitStep])

/-- The memory after the initialization. -/
structure Initial (input : PlanInput) (memory : Memory) : Prop where
  parents : ∀ candidate, candidate < input.numCandidates → memory.parents candidate = candidate
  owners : ∀ entity, entity < input.numEntities → memory.entityOwners entity = noOwner
  count : memory.componentCount = 0

theorem planInit_leaves {memory memory₁ : Memory} (h : (planInit input).Leaves memory memory₁)
    : Initial input memory₁ := by
  obtain ⟨locals, hreaches, hfinished⟩ := h
  have hstart : (initialized input).Holds ⟨memory, (planInit input).start⟩ :=
    ⟨trivial, fun index => by simp [initialized, planInit]⟩
  have hends := ((initialized_stable input).reaches hstart hreaches).2
  have hreturned : ∀ index, index < max input.numCandidates input.numEntities
      → locals index = .returned := by
    intro index hindex
    have hnone : planInitStep input index (locals index) memory₁ = none :=
      hfinished index (lt_gridThreads hindex)
    cases hstate : locals index with
    | returned => rfl
    | count =>
        rw [hstate] at hnone
        by_cases hzero : index = 0 <;> simp [planInitStep, hzero] at hnone
    | _ => simp [hstate, planInitStep] at hnone
  constructor
  · intro candidate hcandidate
    exact (hends candidate).1 hcandidate (by simp [hreturned candidate (by omega)])
  · intro entity hentity
    have hstate := hreturned entity (by omega)
    exact (hends entity).2.1 hentity (by simp [hstate]) (by simp [hstate])
  · have hpos := input.numCandidates_pos
    exact (hends 0).2.2 rfl (.inr (hreturned 0 (by omega)))

-- Owners

/-- The roles that are left to a thread. -/
def OwnersState.rank (input : PlanInput) (candidate : Nat) : OwnersState → Nat
  | .role passed => input.argumentArities candidate - passed
  | .returned => 0

theorem entityOwners_terminates (input : PlanInput) (memory : Memory)
    : (entityOwners input).Terminates memory := by
  refine Threads.terminates_of_rank (OwnersState.rank input) ?_
  intro shared shared' candidate state next hstep
  cases state with
  | role role =>
      simp only [entityOwners, entityOwnersStep] at hstep
      split at hstep
      · obtain ⟨rfl, _⟩ := Prod.mk.inj (Option.some.inj hstep)
        simp only [OwnersState.rank]
        omega
      · contradiction
  | returned => exact absurd hstep (by simp [entityOwners, entityOwnersStep])

/-- The entity has an owner. -/
def Memory.Owned (memory : Memory) (entity : Nat) : Prop := memory.entityOwners entity < noOwner

/-- The entities of the first roles of a candidate have an owner. -/
def OwnedUpTo (input : PlanInput) (candidate passed : Nat) (memory : Memory) : Prop :=
  ∀ role, role < passed → role < input.argumentArities candidate
    → input.entity candidate role < input.numEntities → memory.Owned (input.entity candidate role)

/-- The owners are participating candidates that name their entity, and the other entities have none.
-/
structure OwnersActive (input : PlanInput) (memory : Memory) : Prop where
  le_noOwner
    : ∀ entity, entity < input.numEntities → memory.entityOwners entity ≤ noOwner
  active
    : ∀ entity, entity < input.numEntities → memory.Owned entity
      → Active 2 input (memory.entityOwners entity) entity

theorem candidate_lt_noOwner {candidate : Nat} (h : candidate < input.numCandidates)
    : candidate < noOwner := by
  have := input.numCandidates_lt
  rw [noOwner]
  omega

/-- The memory after a candidate has offered itself as the owner of an entity. -/
def Memory.offer (memory : Memory) (entity candidate : Nat) : Memory :=
  { memory with
    entityOwners := Function.update memory.entityOwners entity
      (min (memory.entityOwners entity) candidate) }

section Offer

variable {memory : Memory} {entity candidate : Nat}

theorem Memory.Owned.offer {other : Nat} (h : memory.Owned other)
    : (memory.offer entity candidate).Owned other := by
  refine Nat.lt_of_le_of_lt ?_ h
  by_cases heq : other = entity
  · subst heq
    simp [Memory.offer]
  · simp [Memory.offer, Function.update_of_ne heq]

theorem Memory.offer_owned (h : candidate < input.numCandidates)
    : (memory.offer entity candidate).Owned entity := by
  refine Nat.lt_of_le_of_lt ?_ (candidate_lt_noOwner h)
  simp [Memory.offer]

theorem OwnersActive.offer (h : OwnersActive input memory) (hactive : Active 2 input candidate entity)
    : OwnersActive input (memory.offer entity candidate) := by
  have hlt := candidate_lt_noOwner hactive.1
  constructor
  · intro other hother
    by_cases heq : other = entity
    · subst heq
      have : min (memory.entityOwners other) candidate ≤ candidate := Nat.min_le_right _ _
      simp only [Memory.offer, Function.update_self]
      omega
    · simpa only [Memory.offer, Function.update_of_ne heq] using h.le_noOwner other hother
  · intro other hother howned
    by_cases heq : other = entity
    · subst heq
      simp only [Memory.offer, Function.update_self]
      rcases Nat.lt_or_ge (memory.entityOwners other) candidate with hold | hnew
      · rw [Nat.min_eq_left (Nat.le_of_lt hold)]
        exact h.active other hother (Nat.lt_trans hold hlt)
      · rwa [Nat.min_eq_right hnew]
    · simp only [Memory.Owned, Memory.offer, Function.update_of_ne heq] at howned ⊢
      exact h.active other hother howned

end Offer

/-- A loop whose candidate takes part has given owners to what it has passed. -/
def ownersFound (input : PlanInput) (before : Memory) : Threads.Annotation Memory OwnersState where
  memory memory :=
    OwnersActive input memory ∧ memory.parents = before.parents
    ∧ memory.componentCount = before.componentCount
  own candidate state memory :=
    match state with
    | .role passed =>
        input.participates candidate = true ∧ OwnedUpTo input candidate passed memory
    | .returned => input.participates candidate = false

theorem ownersFound_stable (input : PlanInput) (before : Memory)
    : (ownersFound input before).Stable (entityOwners input) := by
  intro shared shared' candidate state next _ hmemory hown hstep
  obtain ⟨howners, hparents, hcount⟩ := hmemory
  cases state with
  | returned => exact absurd hstep (by simp [entityOwners, entityOwnersStep])
  | role role =>
      obtain ⟨hparticipates, hpassed⟩ := hown
      simp only [entityOwners, entityOwnersStep] at hstep
      split at hstep
      · rename_i hrole
        obtain ⟨rfl, rfl⟩ := Prod.mk.inj (Option.some.inj hstep)
        by_cases hentity : input.entity candidate role < input.numEntities
        · rw [if_pos hentity]
          have hactive := active_entity hparticipates hrole hentity
          refine ⟨⟨howners.offer hactive, hparents, hcount⟩, ⟨hparticipates, ?_⟩, ?_⟩
          · intro earlier hearlier hlt hin
            obtain hbefore | rfl := Nat.lt_succ_iff_lt_or_eq.mp hearlier
            · exact (hpassed earlier hbefore hlt hin).offer
            · exact Memory.offer_owned hactive.1
          · intro other state hother
            cases state with
            | returned => exact hother
            | role => exact ⟨hother.1, fun role h h' h'' => (hother.2 role h h' h'').offer⟩
        · rw [if_neg hentity]
          refine ⟨⟨howners, hparents, hcount⟩, ⟨hparticipates, ?_⟩, fun _ _ h => h⟩
          intro earlier hearlier hlt hin
          obtain hbefore | rfl := Nat.lt_succ_iff_lt_or_eq.mp hearlier
          · exact hpassed earlier hbefore hlt hin
          · exact absurd hin hentity
      · contradiction

/-- The memory after the owner kernel: the parents are as they were, and every entity that a
participating candidate names has one of them as its owner.
-/
structure HasOwners (input : PlanInput) (memory : Memory) : Prop where
  parents : ∀ candidate, candidate < input.numCandidates → memory.parents candidate = candidate
  owners : OwnersActive input memory
  owned : ∀ {candidate entity}, Active 2 input candidate entity → memory.Owned entity
  count : memory.componentCount = 0

theorem ownersFound_start {memory₁ : Memory} (h : Initial input memory₁)
    : (ownersFound input memory₁).Holds ⟨memory₁, (entityOwners input).start⟩ := by
  refine ⟨⟨⟨?_, ?_⟩, rfl, rfl⟩, ?_⟩
  · intro entity hentity
    exact Nat.le_of_eq (h.owners entity hentity)
  · intro entity hentity howned
    rw [Memory.Owned, h.owners entity hentity] at howned
    omega
  · intro candidate
    by_cases hparticipates : input.participates candidate = true
    · have hstate : (entityOwners input).start candidate = .role 0 := if_pos hparticipates
      change (ownersFound input memory₁).own candidate ((entityOwners input).start candidate) memory₁
      rw [hstate]
      exact ⟨hparticipates, fun role hrole => absurd hrole (Nat.not_lt_zero role)⟩
    · have hstate : (entityOwners input).start candidate = .returned := if_neg hparticipates
      change (ownersFound input memory₁).own candidate ((entityOwners input).start candidate) memory₁
      rw [hstate]
      exact Bool.eq_false_iff.mpr hparticipates

theorem entityOwners_forest {memory₁ : Memory} {world : Threads.World Memory OwnersState}
    (h : Initial input memory₁) (hreaches : (entityOwners input).Reaches memory₁ world)
    : Forest input world.shared := by
  obtain ⟨⟨_, hparents, _⟩, _⟩ :=
    (ownersFound_stable input memory₁).reaches (ownersFound_start h) hreaches
  intro candidate hcandidate
  rw [hparents, h.parents candidate hcandidate]

theorem entityOwners_leaves {memory₁ memory₂ : Memory} (h : Initial input memory₁)
    (hleaves : (entityOwners input).Leaves memory₁ memory₂) : HasOwners input memory₂ := by
  obtain ⟨locals, hreaches, hfinished⟩ := hleaves
  obtain ⟨⟨howners, hparents, hcount⟩, hown⟩ :=
    (ownersFound_stable input memory₁).reaches (ownersFound_start h) hreaches
  refine ⟨?_, howners, ?_, hcount.trans h.count⟩
  · intro candidate hcandidate
    rw [hparents, h.parents candidate hcandidate]
  · intro candidate entity hactive
    obtain ⟨hparticipates, role, hrole, rfl⟩ := hactive.exists_role
    have hnone : entityOwnersStep input candidate (locals candidate) memory₂ = none :=
      hfinished candidate (lt_gridThreads hactive.1)
    have hstate := hown candidate
    change (ownersFound input memory₁).own candidate (locals candidate) memory₂ at hstate
    cases hlocal : locals candidate with
    | returned =>
        rw [hlocal] at hstate
        exact absurd (hparticipates.symm.trans hstate) (by decide)
    | role passed =>
        rw [hlocal] at hstate hnone
        have hend : ¬passed < input.argumentArities candidate := by
          intro hlt
          simp [entityOwnersStep, hlt] at hnone
        exact hstate.2 role (by omega) hrole hactive.2.2.2.1

end Xlog.Cuda.JointSolve
