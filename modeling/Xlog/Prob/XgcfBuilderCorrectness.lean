import Xlog.Prob.DdnnfMeaning
import Xlog.Prob.XgcfBuilder
import Xlog.Prob.XgcfSmoothing

/-! The conversion keeps the weighted count of circuits that are deterministic and decomposable, along
their edges as well: a repeated literal counts twice on an edge and once in a gate.
-/

namespace Xlog.Prob

open Xlog.Core Xlog.Foundation Xgcf XgcfSmoothBuilder

-- Parts

/-- What a gate may stand for: a value over every semiring, and the variables it may mention. -/
structure CircuitPart : Type 1 where
  value : ∀ (K : Type) [CommSemiring K], (Nat → K) → (Nat → K) → K
  vars : Finset Nat

structure CircuitPart.Stands (part : CircuitPart) (b : XgcfSmoothBuilder) (i : Nat) : Prop where
  lt : i < b.nodes.length
  value : ∀ (K : Type) [CommSemiring K] (wt wf : Nat → K) (values : Nat → K),
    SolvesArena (XgcfNode.value wt wf) b.nodes values → values i = part.value K wt wf
  vars : ∀ below, SolvesArena XgcfNode.vars b.nodes below → below i ⊆ part.vars

theorem CircuitPart.Stands.grows {part : CircuitPart} {b b' : XgcfSmoothBuilder} {i : Nat}
    (h : part.Stands b i) (hgrows : Grows b b')
    : part.Stands b' i where
  lt := hgrows.lt h.lt
  value := fun K _ wt wf values hv => h.value K wt wf values (hv.of_prefix hgrows.nodes)
  vars := fun below hb => h.vars below (hb.of_prefix hgrows.nodes)

def CircuitPart.partsVars (parts : List CircuitPart) : Finset Nat :=
  (parts.map CircuitPart.vars).foldr (· ∪ ·) ∅

def CircuitPart.conj (parts : List CircuitPart) : CircuitPart where
  value := fun K _ wt wf => (parts.map fun part => part.value K wt wf).prod
  vars := partsVars parts

def CircuitPart.disj (parts : List CircuitPart) : CircuitPart where
  value := fun K _ wt wf => (parts.map fun part => part.value K wt wf).sum
  vars := partsVars parts

/-- The part counts in the world. -/
def CircuitPart.InWorld (part : CircuitPart) (world : Nat → Bool) : Prop :=
  part.value Nat (worldTrue world) (worldFalse world) ≠ 0

/-- Gates of existing parts. -/
abbrev StandFor (b : XgcfSmoothBuilder) (parts : List CircuitPart) (gates : List Nat) : Prop :=
  List.Forall₂ (fun part i => part.Stands b i) parts gates

theorem StandFor.lt {b : XgcfSmoothBuilder} {parts : List CircuitPart} {gates : List Nat}
    (h : StandFor b parts gates)
    : ∀ i ∈ gates, i < b.nodes.length := by
  intro i hi
  obtain ⟨k, hk, rfl⟩ := List.getElem_of_mem hi
  exact (h.get (h.length_eq ▸ hk) hk).lt

theorem StandFor.map_value {b : XgcfSmoothBuilder} {parts : List CircuitPart} {gates : List Nat}
    (h : StandFor b parts gates) {K : Type} [CommSemiring K] {wt wf values : Nat → K}
    (hv : SolvesArena (XgcfNode.value wt wf) b.nodes values)
    : gates.map values = parts.map fun part => part.value K wt wf := by
  induction h with
  | nil => rfl
  | cons hstands _ ih => rw [List.map_cons, List.map_cons, ih, hstands.value K wt wf values hv]

theorem StandFor.vars {b : XgcfSmoothBuilder} {parts : List CircuitPart} {gates : List Nat}
    (h : StandFor b parts gates) {below : Nat → Finset Nat}
    (hb : SolvesArena XgcfNode.vars b.nodes below)
    : gates.toFinset.biUnion below ⊆ CircuitPart.partsVars parts := by
  refine Finset.biUnion_subset.mpr fun i hi v hv => ?_
  obtain ⟨k, hk, rfl⟩ := List.getElem_of_mem (List.mem_toFinset.mp hi)
  have hkp : k < parts.length := h.length_eq ▸ hk
  refine DecisionDnnf.mem_foldr_union.mpr ⟨parts[k].vars, ?_, (h.get hkp hk).vars below hb hv⟩
  exact List.mem_map_of_mem (List.getElem_mem hkp)

-- Gates of parts

/-- Parts without common variables share constants only, which are worth their own squares. -/
theorem pushAnd_stands {b : XgcfSmoothBuilder} (hok : b.Ok) {parts : List CircuitPart}
    {gates : List Nat} (h : StandFor b parts gates)
    (apart : parts.Pairwise fun part part' => Disjoint part.vars part'.vars)
    : Ends Overflows (Made b (CircuitPart.conj parts).Stands) (b.pushAnd gates) := by
  obtain ⟨below, hbelow⟩ := exists_solvesArena local_vars hok.back
  have hshared : gates.Pairwise fun i j => i = j → i = b.const0 ∨ i = b.const1 := by
    refine pairwise_of_forall₂ h apart ?_
    rintro part _ part' _ i _ hstands hstands' hapart rfl
    refine hok.constant below hbelow i hstands.lt (Finset.subset_empty.mp ?_)
    rw [← Finset.disjoint_iff_inter_eq_empty.mp hapart]
    exact Finset.subset_inter (hstands.vars below hbelow) (hstands'.vars below hbelow)
  refine (pushAnd_spec hok h.lt).mono fun made hm => ?_
  refine ⟨hm.ok, hm.grows, hm.lt, hm.lt, ?_, ?_⟩
  · intro K _ wt wf values hv
    have hv' := hv.of_prefix hm.grows.nodes
    have hidem : gates.Pairwise fun i j => i = j → values i * values i = values i := by
      refine hshared.imp fun hconst he => ?_
      rcases hconst he with rfl | rfl
      · rw [show values b.const0 = 0 from hv' _ _ hok.const0, mul_zero]
      · rw [show values b.const1 = 1 from hv' _ _ hok.const1, mul_one]
    rw [hm.meaning.value K wt wf values hv, prod_toFinset_of_repeated hidem, h.map_value hv']
    rfl
  · intro below hb
    exact (hm.meaning.vars below hb).trans (h.vars (hb.of_prefix hm.grows.nodes))

/-- Parts that no world gives a count together share gates worth zero only. -/
theorem pushOr_stands {b : XgcfSmoothBuilder} (hok : b.Ok) {parts : List CircuitPart}
    {gates : List Nat} (h : StandFor b parts gates)
    (exclusive : parts.Pairwise fun part part' =>
      ∀ world, ¬ (part.InWorld world ∧ part'.InWorld world))
    (hzero : ∀ part ∈ parts, (∀ world, ¬ part.InWorld world)
      → ∀ (K : Type) [CommSemiring K] (wt wf : Nat → K), part.value K wt wf = 0)
    : Ends Overflows (Made b (CircuitPart.disj parts).Stands) (b.pushOr gates) := by
  have hshared : gates.Pairwise fun i j => i = j
      → ∀ (K : Type) [CommSemiring K] (wt wf : Nat → K) (values : Nat → K),
        SolvesArena (XgcfNode.value wt wf) b.nodes values → values i = 0 := by
    refine pairwise_of_forall₂ h exclusive ?_
    rintro part hpart part' _ i _ hstands hstands' hexclusive rfl K _ wt wf values hv
    have hnever : ∀ world, ¬ part.InWorld world := by
      intro world hworld
      obtain ⟨counts, hcounts⟩ := exists_solvesArena
        (local_value (worldTrue world) (worldFalse world)) hok.back
      have hsame : part.value Nat (worldTrue world) (worldFalse world)
          = part'.value Nat (worldTrue world) (worldFalse world) :=
        (hstands.value Nat _ _ counts hcounts).symm.trans (hstands'.value Nat _ _ counts hcounts)
      exact hexclusive world ⟨hworld, fun hno => hworld (hsame.trans hno)⟩
    rw [hstands.value K wt wf values hv, hzero part hpart hnever]
  refine (pushOr_spec hok h.lt).mono fun made hm => ?_
  refine ⟨hm.ok, hm.grows, hm.lt, hm.lt, ?_, ?_⟩
  · intro K _ wt wf values hv
    have hv' := hv.of_prefix hm.grows.nodes
    have hrepeated : gates.Pairwise fun i j => i = j → values i = 0 :=
      hshared.imp fun hs he => hs he K wt wf values hv'
    rw [hm.meaning.value K wt wf values hv, sum_toFinset_of_repeated hrepeated, h.map_value hv']
    rfl
  · intro below hb
    exact (hm.meaning.vars below hb).trans (h.vars (hb.of_prefix hm.grows.nodes))

def CircuitPart.decision (var : Nat) (partFalse partTrue : CircuitPart) : CircuitPart where
  value := fun K _ wt wf => wf var * partFalse.value K wt wf + wt var * partTrue.value K wt wf
  vars := insert var (partFalse.vars ∪ partTrue.vars)

theorem pushDecision_stands {b : XgcfSmoothBuilder} (hok : b.Ok) {partFalse partTrue : CircuitPart}
    {childFalse childTrue : Nat} (hfalse : partFalse.Stands b childFalse)
    (htrue : partTrue.Stands b childTrue) {var : Nat} (hvar : var ≠ 0)
    : Ends Overflows (Made b (CircuitPart.decision var partFalse partTrue).Stands)
        (b.pushDecision var childFalse childTrue) := by
  refine (pushDecision_spec hok hvar hfalse.lt htrue.lt).mono fun made hmade => ?_
  obtain ⟨hm, -, -⟩ := hmade
  refine ⟨hm.ok, hm.grows, hm.lt, hm.lt, ?_, ?_⟩
  · intro K _ wt wf values hv
    have hv' := hv.of_prefix hm.grows.nodes
    rw [hv _ _ hm.meaning, XgcfNode.value, hfalse.value K wt wf values hv',
      htrue.value K wt wf values hv']
    rfl
  · intro below hb
    have hb' := hb.of_prefix hm.grows.nodes
    rw [hb _ _ hm.meaning]
    exact Finset.insert_subset_insert _
      (Finset.union_subset_union (hfalse.vars below hb') (htrue.vars below hb'))

def CircuitPart.lit (lit : Int) : CircuitPart where
  value := fun _ _ wt wf => litWeight wt wf lit
  vars := {lit.natAbs}

theorem getLitNode_stands {b : XgcfSmoothBuilder} (hok : b.Ok) {lit : Int} (hne : lit ≠ 0)
    : Ends Overflows (Made b (CircuitPart.lit lit).Stands) (b.getLitNode lit) := by
  refine (getLitNode_spec hok hne).mono fun made hm => ?_
  refine ⟨hm.ok, hm.grows, hm.lt, hm.lt, ?_, ?_⟩
  · intro K _ wt wf values hv
    exact hv _ _ hm.meaning
  · intro below hb
    rw [hb _ _ hm.meaning]
    exact subset_rfl

-- Nodes and edges as parts

theorem CircuitPart.Stands.congr {part part' : CircuitPart} {b : XgcfSmoothBuilder} {i : Nat}
    (h : part.Stands b i)
    (hvalue : ∀ (K : Type) [CommSemiring K] (wt wf : Nat → K),
      part.value K wt wf = part'.value K wt wf)
    (hvars : part.vars ⊆ part'.vars)
    : part'.Stands b i where
  lt := h.lt
  value := fun K _ wt wf values hv => (h.value K wt wf values hv).trans (hvalue K wt wf)
  vars := fun below hb => (h.vars below hb).trans hvars

namespace DecisionDnnf

variable (ddnnf : DecisionDnnf)

def nodePart (id : Nat) : CircuitPart where
  value := fun _ _ wt wf => ddnnf.value wt wf id
  vars := ddnnf.vars id

def edgePart (edge : DdnnfEdge) : CircuitPart where
  value := fun _ _ wt wf => ddnnf.edgeValue wt wf edge
  vars := ddnnf.edgeVars edge

/-- Evaluation, with fuel for the nodes below, gives the value of the node. -/
def Evaluates (rank : Nat → Nat) (id : Nat) : Prop :=
  ∀ (K : Type) [CommSemiring K] (wt wf : Nat → K) (fuel : Nat), rank id < fuel
    → ddnnf.evalNode wt wf fuel id = .ok (ddnnf.value wt wf id)

variable {ddnnf} {rank : Nat → Nat}

theorem branches_of_outgoing {id : Nat} {out : List DdnnfEdge}
    (hkind : ddnnf.nodeKind id = some .and ∨ ddnnf.nodeKind id = some .or)
    (hout : outgoingEdges ddnnf.edges id = some out)
    : ddnnf.branches id = out := by
  unfold nodeKind at hkind
  unfold branches edgesBelow
  rcases hkind with hkind | hkind <;> simp [hkind, hout]

/-- A leaf evaluates. -/
theorem Ranked.evaluates_leaf (h : ddnnf.Ranked rank) {id : Nat} (hid : ddnnf.Reachable id)
    (hkind : ddnnf.nodeKind id = some .true ∨ ddnnf.nodeKind id = some .false)
    : ddnnf.Evaluates rank id := by
  intro K _ wt wf fuel hfuel
  obtain ⟨fuel, rfl⟩ := Nat.exists_eq_succ_of_ne_zero (Nat.ne_of_gt (Nat.zero_lt_of_lt hfuel))
  rw [value, h.meaning_eq hid]
  unfold evalNode step
  rcases hkind with hkind | hkind <;> rw [hkind] <;> rfl

/-- A node above nodes that evaluate evaluates. -/
theorem Ranked.evaluates_of_targets (h : ddnnf.Ranked rank) {id : Nat} (hid : ddnnf.Reachable id)
    (hkind : ddnnf.nodeKind id = some .and ∨ ddnnf.nodeKind id = some .or) {out : List DdnnfEdge}
    (hout : outgoingEdges ddnnf.edges id = some out)
    (htargets : ∀ edge ∈ out, ddnnf.Evaluates rank edge.target)
    : ddnnf.Evaluates rank id := by
  have hbranches := branches_of_outgoing hkind hout
  intro K _ wt wf fuel hfuel
  obtain ⟨fuel, rfl⟩ := Nat.exists_eq_succ_of_ne_zero (Nat.ne_of_gt (Nat.zero_lt_of_lt hfuel))
  have hvalues : (out.mapM fun edge => do
      let child ← ddnnf.evalNode wt wf fuel edge.target
      (.ok (litsWeight wt wf edge.lits * child) : Result K))
      = .ok (out.map (ddnnf.edgeValue wt wf)) := by
    refine mapM_ok _ _ _ fun edge hedge => ?_
    have hfalls := h.falls id hid edge (hbranches ▸ hedge)
    rw [htargets edge hedge K wt wf fuel (by omega), ok_bind]
    rfl
  rw [value, h.meaning_eq hid]
  unfold evalNode step
  rcases hkind with hkind | hkind
  · simp only [hkind, hout, hvalues, ok_bind, hbranches]
    rfl
  · simp only [hkind, hout, hvalues, ok_bind, hbranches]
    rfl

/-- A conjunction is worth its edges together. -/
theorem Ranked.nodePart_and (h : ddnnf.Ranked rank) {id : Nat} (hid : ddnnf.Reachable id)
    (hkind : ddnnf.nodeKind id = some .and)
    : ddnnf.nodePart id = CircuitPart.conj ((ddnnf.branches id).map ddnnf.edgePart) := by
  unfold nodePart CircuitPart.conj CircuitPart.partsVars
  rw [CircuitPart.mk.injEq]
  constructor
  · funext K _ wt wf
    rw [value, h.meaning_eq hid, List.map_map]
    simp only [step, hkind]
    rfl
  · rw [vars, h.meaning_eq hid, List.map_map]
    simp only [step, hkind]
    rfl

/-- A disjunction is worth the sum of its edges. -/
theorem Ranked.nodePart_or (h : ddnnf.Ranked rank) {id : Nat} (hid : ddnnf.Reachable id)
    (hkind : ddnnf.nodeKind id = some .or)
    : ddnnf.nodePart id = CircuitPart.disj ((ddnnf.branches id).map ddnnf.edgePart) := by
  unfold nodePart CircuitPart.disj CircuitPart.partsVars
  rw [CircuitPart.mk.injEq]
  constructor
  · funext K _ wt wf
    rw [value, h.meaning_eq hid, List.map_map]
    simp only [step, hkind]
    rfl
  · rw [vars, h.meaning_eq hid, List.map_map]
    simp only [step, hkind]
    rfl

/-- An edge counts in the worlds in which it is true. -/
theorem Ranked.edgePart_inWorld (h : ddnnf.Ranked rank) {id : Nat} (hid : ddnnf.Reachable id)
    {edge : DdnnfEdge} (hedge : edge ∈ ddnnf.branches id) (world : Nat → Bool)
    : (ddnnf.edgePart edge).InWorld world ↔ ddnnf.edgeTruth world edge = true := by
  unfold CircuitPart.InWorld edgePart edgeValue edgeTruth
  rw [mul_ne_zero_iff, litsWeight_world, h.value_world world edge.target (hid.target hedge),
    Bool.and_eq_true]

/-- An edge that counts in no world is worth zero. -/
theorem Ranked.edgePart_zero (h : ddnnf.Ranked rank) (hdec : ddnnf.Decomposable)
    (hedges : ddnnf.EdgesDecomposable) {id : Nat} (hid : ddnnf.Reachable id) {edge : DdnnfEdge}
    (hedge : edge ∈ ddnnf.branches id) (hnever : ∀ world, ¬ (ddnnf.edgePart edge).InWorld world)
    (K : Type) [CommSemiring K] (wt wf : Nat → K)
    : (ddnnf.edgePart edge).value K wt wf = 0 := by
  have hunsat (world : Nat → Bool) : ddnnf.truth world edge.target = false := by
    by_contra htrue
    obtain ⟨other, hother⟩ := h.exists_world_edge hedges hid hedge ⟨world, by simpa using htrue⟩
    exact hnever other ((h.edgePart_inWorld hid hedge other).mpr hother)
  show litsWeight wt wf edge.lits * ddnnf.value wt wf edge.target = 0
  rw [h.value_eq_zero hdec hedges wt wf edge.target (hid.target hedge) hunsat, mul_zero]

end DecisionDnnf

-- Literals

/-- The errors of a conversion whose calls fit the stack. -/
def FitsStack (e : XlogError) : Prop := e ≠ .panic "stack overflow"

theorem Overflows.fitsStack {e : XlogError} (h : Overflows e) : FitsStack e := by
  rcases h with rfl | rfl <;> simp [FitsStack]

/-- Converted nodes evaluate, and their gates stand for them. -/
structure Converted (ddnnf : DecisionDnnf) (rank : Nat → Nat) (b : XgcfBuilder) : Prop where
  gates : b.gates.Ok
  nodes : ∀ id i, (id, i) ∈ b.ddnnfCache
    → (ddnnf.nodePart id).Stands b.gates i ∧ ddnnf.Evaluates rank id

/-- What making a gate for a part leaves behind. -/
structure Converts (ddnnf : DecisionDnnf) (rank : Nat → Nat) (b : XgcfBuilder) (part : CircuitPart)
    (made : Nat × XgcfBuilder) : Prop where
  converted : Converted ddnnf rank made.2
  grows : Grows b.gates made.2.gates
  stands : part.Stands made.2.gates made.1

/-- What making gates for several parts leaves behind. -/
structure ConvertsAll (ddnnf : DecisionDnnf) (rank : Nat → Nat) (b : XgcfBuilder)
    (parts : List CircuitPart) (gates : List Nat) (b' : XgcfBuilder) : Prop where
  converted : Converted ddnnf rank b'
  grows : Grows b.gates b'.gates
  stand : StandFor b'.gates parts gates

section

variable {ddnnf : DecisionDnnf} {rank : Nat → Nat} {b : XgcfBuilder}

/-- New gates leave the converted nodes as they are. -/
theorem Converted.converts (h : Converted ddnnf rank b) {part : CircuitPart}
    {x : Result (Nat × XgcfSmoothBuilder)} (hx : Ends Overflows (Made b.gates part.Stands) x)
    : Ends FitsStack (Converts ddnnf rank b part)
        (x >>= fun made => .ok (made.1, { b with gates := made.2 })) := by
  refine (hx.weaken fun _ => Overflows.fitsStack).bind fun made hmade => ?_
  refine ⟨⟨hmade.ok, fun id i hid => ?_⟩, hmade.grows, hmade.meaning⟩
  obtain ⟨hstands, hevaluates⟩ := h.nodes id i hid
  exact ⟨hstands.grows hmade.grows, hevaluates⟩

theorem Converted.getLitNode (h : Converted ddnnf rank b) (lit : Int)
    : Ends FitsStack (Converts ddnnf rank b (CircuitPart.lit lit)) (b.getLitNode lit) := by
  by_cases hzero : lit = 0
  · subst hzero
    exact fun h => by simp at h
  · exact h.converts (getLitNode_stands h.gates hzero)

/-- The literals of an edge that get a gate: the first occurrence of the dropped one does not. -/
def keptLits (dropLit : Option Int) (dropped : Bool) (lits : List Int) : List Int :=
  if dropped then lits else lits.eraseP fun lit => dropLit = some lit

theorem convertLits_spec (dropLit : Option Int) (dropped : Bool) (h : Converted ddnnf rank b)
    (lits : List Int)
    : Ends FitsStack
        (fun result => ConvertsAll ddnnf rank b ((keptLits dropLit dropped lits).map CircuitPart.lit)
            result.1 result.2.2
          ∧ (result.2.1 = true → dropped = true ∨ ∃ lit ∈ lits, dropLit = some lit))
        (XgcfBuilder.convertLits dropLit dropped b lits) := by
  induction lits generalizing dropped b with
  | nil =>
    have hnone : keptLits dropLit dropped [] = [] := by simp [keptLits]
    refine ⟨⟨h, .refl _, ?_⟩, .inl⟩
    rw [hnone]
    exact .nil
  | cons lit lits ih =>
    unfold XgcfBuilder.convertLits
    split
    · next hdrop =>
      obtain ⟨hdropped, hlit⟩ : dropped = false ∧ dropLit = some lit := by simpa using hdrop
      subst hdropped
      have hkept : keptLits dropLit false (lit :: lits) = keptLits dropLit true lits := by
        simp [keptLits, hlit]
      refine (ih true h).mono fun result hresult => ⟨hkept ▸ hresult.1, fun _ => ?_⟩
      exact .inr ⟨lit, List.mem_cons_self, hlit⟩
    · next hkeep =>
      have hkept : keptLits dropLit dropped (lit :: lits) = lit :: keptLits dropLit dropped lits := by
        unfold keptLits
        split
        · rfl
        · next hdropped =>
          rw [List.eraseP_cons_of_neg (by simpa [hdropped] using hkeep)]
      refine (h.getLitNode lit).bind fun made hmade => ?_
      refine (ih dropped hmade.converted).bind fun result hresult => ?_
      obtain ⟨hall, hdropped⟩ := hresult
      refine ⟨⟨hall.converted, hmade.grows.trans hall.grows, ?_⟩, fun hr => ?_⟩
      · rw [hkept]
        exact .cons (hmade.stands.grows hall.grows) hall.stand
      · exact (hdropped hr).imp id fun hex => hex.imp fun _ hmem =>
          ⟨List.mem_cons_of_mem _ hmem.1, hmem.2⟩

-- Edges

/-- The edge that is left when the first occurrence of a literal is dropped. -/
def DdnnfEdge.without (edge : DdnnfEdge) (dropLit : Option Int) : DdnnfEdge :=
  { edge with lits := keptLits dropLit false edge.lits }

theorem DdnnfEdge.without_none (edge : DdnnfEdge) : edge.without none = edge := by
  have hkept : keptLits none false edge.lits = edge.lits := by
    simp [keptLits, List.eraseP_of_forall_not]
  simp only [DdnnfEdge.without, hkept]

theorem keptLits_sublist (dropLit : Option Int) (lits : List Int)
    : List.Sublist (keptLits dropLit false lits) lits := by
  simp [keptLits, List.eraseP_sublist]

/-- Dropping a literal of the edge drops its weight. -/
theorem edgeValue_without {edge : DdnnfEdge} {lit : Int} (hlit : lit ∈ edge.lits) {K : Type}
    [CommSemiring K] (wt wf : Nat → K)
    : litWeight wt wf lit * ddnnf.edgeValue wt wf (edge.without (some lit))
      = ddnnf.edgeValue wt wf edge := by
  have hkept : keptLits (some lit) false edge.lits = edge.lits.erase lit := by
    simp only [keptLits, List.erase_eq_eraseP, Option.some.injEq]
    rfl
  have hprod : litWeight wt wf lit * litsWeight wt wf (edge.lits.erase lit)
      = litsWeight wt wf edge.lits := by
    unfold litsWeight
    rw [((List.perm_cons_erase hlit).map (litWeight wt wf)).prod_eq, List.map_cons, List.prod_cons]
  unfold DecisionDnnf.edgeValue DdnnfEdge.without
  rw [hkept, ← mul_assoc, hprod]

theorem edgeVars_without (edge : DdnnfEdge) (dropLit : Option Int)
    : ddnnf.edgeVars (edge.without dropLit) ⊆ ddnnf.edgeVars edge := by
  refine Finset.union_subset_union (fun v hv => ?_) subset_rfl
  obtain ⟨lit, hlit, rfl⟩ := List.mem_map.mp (List.mem_toFinset.mp hv)
  exact List.mem_toFinset.mpr (List.mem_map_of_mem ((keptLits_sublist _ _).subset hlit))

theorem litsPart_value (lits : List Int) (K : Type) [CommSemiring K] (wt wf : Nat → K)
    : ((lits.map CircuitPart.lit).map fun part => part.value K wt wf).prod
      = litsWeight wt wf lits := by
  rw [List.map_map]
  rfl

theorem litsPart_vars (lits : List Int)
    : CircuitPart.partsVars (lits.map CircuitPart.lit) = DecisionDnnf.litVars lits := by
  ext v
  simp [CircuitPart.partsVars, DecisionDnnf.mem_foldr_union, DecisionDnnf.litVars, CircuitPart.lit,
    eq_comm]

/-- An edge whose literals are apart from each other and its target is worth them together. -/
theorem pushAnd_edge {gates : XgcfSmoothBuilder} (hok : gates.Ok) {edge : DdnnfEdge}
    (hnodup : (edge.lits.map Int.natAbs).Nodup)
    (hapart : Disjoint (DecisionDnnf.litVars edge.lits) (ddnnf.vars edge.target)) {child : Nat}
    {lits : List Nat} (hchild : (ddnnf.nodePart edge.target).Stands gates child)
    (hlits : StandFor gates (edge.lits.map CircuitPart.lit) lits)
    : Ends Overflows (Made gates (ddnnf.edgePart edge).Stands) (gates.pushAnd (child :: lits)) := by
  have hpairs : (ddnnf.nodePart edge.target :: edge.lits.map CircuitPart.lit).Pairwise
      fun part part' => Disjoint part.vars part'.vars := by
    rw [List.pairwise_cons, List.forall_mem_map, List.pairwise_map]
    constructor
    · intro lit hlit
      have hmem : lit.natAbs ∈ DecisionDnnf.litVars edge.lits :=
        List.mem_toFinset.mpr (List.mem_map_of_mem hlit)
      exact (Finset.disjoint_singleton_right.mpr (Finset.disjoint_left.mp hapart hmem))
    · exact (List.pairwise_map.mp hnodup).imp fun hne => Finset.disjoint_singleton.mpr hne
  refine (pushAnd_stands hok (.cons hchild hlits) hpairs).mono fun made hmade => ?_
  refine ⟨hmade.ok, hmade.grows, hmade.lt, hmade.meaning.congr (fun K _ wt wf => ?_) ?_⟩
  · show ddnnf.value wt wf edge.target * List.prod _ = litsWeight wt wf edge.lits * _
    rw [litsPart_value, mul_comm]
  · show ddnnf.vars edge.target ∪ CircuitPart.partsVars _ ⊆ _ ∪ _
    rw [litsPart_vars, Finset.union_comm]

variable {convert : XgcfBuilder → Nat → Result (Nat × XgcfBuilder)}

/-- The conversion converts the node. -/
def ConvertsNode (ddnnf : DecisionDnnf) (rank : Nat → Nat)
    (convert : XgcfBuilder → Nat → Result (Nat × XgcfBuilder)) (id : Nat) : Prop :=
  ∀ b, Converted ddnnf rank b
    → Ends FitsStack
        (fun made => Converts ddnnf rank b (ddnnf.nodePart id) made ∧ ddnnf.Evaluates rank id)
        (convert b id)

/-- An edge is converted without the literal it should drop, which it has. -/
theorem convertDdnnfEdgeBranch_spec (h : Converted ddnnf rank b) {edge : DdnnfEdge}
    (hconvert : ConvertsNode ddnnf rank convert edge.target)
    (hnodup : (edge.lits.map Int.natAbs).Nodup)
    (hapart : Disjoint (DecisionDnnf.litVars edge.lits) (ddnnf.vars edge.target))
    (dropLit : Option Int)
    : Ends FitsStack
        (fun made => Converts ddnnf rank b (ddnnf.edgePart (edge.without dropLit)) made
          ∧ ddnnf.Evaluates rank edge.target ∧ ∀ lit, dropLit = some lit → lit ∈ edge.lits)
        (XgcfBuilder.convertDdnnfEdgeBranch convert b edge dropLit) := by
  refine (hconvert b h).bind fun child hchild => ?_
  obtain ⟨hchild, hevaluates⟩ := hchild
  refine (convertLits_spec dropLit false hchild.converted edge.lits).bind fun lits hlits => ?_
  obtain ⟨hlits, hdropped⟩ := hlits
  have hsub := keptLits_sublist dropLit edge.lits
  have hpush : Ends FitsStack (Converts ddnnf rank lits.2.2 (ddnnf.edgePart (edge.without dropLit)))
      (lits.2.2.pushAnd (child.1 :: lits.1)) := by
    refine hlits.converted.converts (pushAnd_edge hlits.converted.gates
      ((hsub.map _).nodup hnodup) ?_ (hchild.stands.grows hlits.grows) hlits.stand)
    refine Finset.disjoint_of_subset_left (fun v hv => ?_) hapart
    obtain ⟨lit, hlit, rfl⟩ := List.mem_map.mp (List.mem_toFinset.mp hv)
    exact List.mem_toFinset.mpr (List.mem_map_of_mem (hsub.subset hlit))
  have hgrows := hchild.grows.trans hlits.grows
  cases dropLit with
  | none =>
    refine hpush.mono fun made hmade => ⟨⟨hmade.converted, hgrows.trans hmade.grows, hmade.stands⟩,
      hevaluates, fun _ hsome => by simp at hsome⟩
  | some dropped =>
    dsimp only
    split
    · exact fun h => by simp at h
    · next htrue =>
      refine hpush.mono fun made hmade => ⟨⟨hmade.converted, hgrows.trans hmade.grows,
        hmade.stands⟩, hevaluates, fun lit hsome => ?_⟩
      obtain hfalse | ⟨other, hother, heq⟩ := hdropped (by simpa using htrue)
      · simp at hfalse
      · obtain rfl := Option.some.inj (hsome.symm.trans heq)
        exact hother

-- Nodes

theorem convertBranches_spec (h : Converted ddnnf rank b) {edges : List DdnnfEdge}
    (hconvert : ∀ edge ∈ edges, ConvertsNode ddnnf rank convert edge.target)
    (hapart : ∀ edge ∈ edges, (edge.lits.map Int.natAbs).Nodup
      ∧ Disjoint (DecisionDnnf.litVars edge.lits) (ddnnf.vars edge.target))
    : Ends FitsStack
        (fun made => ConvertsAll ddnnf rank b (edges.map ddnnf.edgePart) made.1 made.2
          ∧ ∀ edge ∈ edges, ddnnf.Evaluates rank edge.target)
        (XgcfBuilder.convertBranches convert b edges) := by
  induction edges generalizing b with
  | nil => exact ⟨⟨h, .refl _, .nil⟩, by simp⟩
  | cons edge edges ih =>
    obtain ⟨hedge, hedges⟩ := List.forall_mem_cons.mp hconvert
    obtain ⟨⟨hnodup, hdisjoint⟩, hapart⟩ := List.forall_mem_cons.mp hapart
    refine (convertDdnnfEdgeBranch_spec h hedge hnodup hdisjoint none).bind fun made hmade => ?_
    obtain ⟨hmade, hevaluates, -⟩ := hmade
    rw [DdnnfEdge.without_none] at hmade
    refine (ih hmade.converted hedges hapart).bind fun result hresult => ?_
    obtain ⟨hall, hrest⟩ := hresult
    exact ⟨⟨hall.converted, hmade.grows.trans hall.grows,
      .cons (hmade.stands.grows hall.grows) hall.stand⟩,
      List.forall_mem_cons.mpr ⟨hevaluates, hrest⟩⟩

variable {id : Nat} {out : List DdnnfEdge}

theorem convertAnd_spec (h : Converted ddnnf rank b) (hrank : ddnnf.Ranked rank)
    (hdec : ddnnf.Decomposable) (hedges : ddnnf.EdgesDecomposable) (hid : ddnnf.Reachable id)
    (hkind : ddnnf.nodeKind id = some .and) (hout : outgoingEdges ddnnf.edges id = some out)
    (hconvert : ∀ edge ∈ out, ConvertsNode ddnnf rank convert edge.target)
    : Ends FitsStack
        (fun made => Converts ddnnf rank b (ddnnf.nodePart id) made ∧ ddnnf.Evaluates rank id)
        (XgcfBuilder.convertAnd convert b out) := by
  have hbranches := DecisionDnnf.branches_of_outgoing (.inl hkind) hout
  refine (convertBranches_spec h hconvert fun edge hedge =>
    hedges id hid edge (hbranches ▸ hedge)).bind fun result hresult => ?_
  obtain ⟨hall, htargets⟩ := hresult
  have hpairs : (out.map ddnnf.edgePart).Pairwise fun part part' => Disjoint part.vars part'.vars :=
    List.pairwise_map.mpr (hbranches ▸ hdec id hid hkind)
  have hmeaning := hrank.nodePart_and hid hkind
  rw [hbranches] at hmeaning
  refine (hall.converted.converts (pushAnd_stands hall.converted.gates hall.stand hpairs)).mono
    fun made hmade => ?_
  exact ⟨⟨hmade.converted, hall.grows.trans hmade.grows, hmeaning ▸ hmade.stands⟩,
    hrank.evaluates_of_targets hid (.inl hkind) hout htargets⟩

theorem convertOr_spec (h : Converted ddnnf rank b) (hrank : ddnnf.Ranked rank)
    (hdec : ddnnf.Decomposable) (hedges : ddnnf.EdgesDecomposable) (hdet : ddnnf.Deterministic)
    (hid : ddnnf.Reachable id) (hkind : ddnnf.nodeKind id = some .or)
    (hout : outgoingEdges ddnnf.edges id = some out)
    (hconvert : ∀ edge ∈ out, ConvertsNode ddnnf rank convert edge.target)
    : Ends FitsStack
        (fun made => Converts ddnnf rank b (ddnnf.nodePart id) made ∧ ddnnf.Evaluates rank id)
        (XgcfBuilder.convertOr convert b out) := by
  have hbranches := DecisionDnnf.branches_of_outgoing (.inr hkind) hout
  have hinside : ∀ edge ∈ out, edge ∈ ddnnf.branches id := fun edge hedge => hbranches ▸ hedge
  refine (convertBranches_spec h hconvert fun edge hedge =>
    hedges id hid edge (hinside edge hedge)).bind fun result hresult => ?_
  obtain ⟨hall, htargets⟩ := hresult
  have hexclusive : (out.map ddnnf.edgePart).Pairwise fun part part' =>
      ∀ world, ¬ (part.InWorld world ∧ part'.InWorld world) := by
    have hpairs := hdet id hid hkind
    rw [hbranches] at hpairs
    refine List.pairwise_map.mpr (hpairs.imp_of_mem fun hmem hmem' hno world hboth => ?_)
    exact hno world ⟨(hrank.edgePart_inWorld hid (hinside _ hmem) world).mp hboth.1,
      (hrank.edgePart_inWorld hid (hinside _ hmem') world).mp hboth.2⟩
  have hzero : ∀ part ∈ out.map ddnnf.edgePart, (∀ world, ¬ part.InWorld world)
      → ∀ (K : Type) [CommSemiring K] (wt wf : Nat → K), part.value K wt wf = 0 := by
    intro part hpart hnever K _ wt wf
    obtain ⟨edge, hedge, rfl⟩ := List.mem_map.mp hpart
    exact hrank.edgePart_zero hdec hedges hid (hinside edge hedge) hnever K wt wf
  have hmeaning := hrank.nodePart_or hid hkind
  rw [hbranches] at hmeaning
  refine (hall.converted.converts
    (pushOr_stands hall.converted.gates hall.stand hexclusive hzero)).mono fun made hmade => ?_
  exact ⟨⟨hmade.converted, hall.grows.trans hmade.grows, hmeaning ▸ hmade.stands⟩,
    hrank.evaluates_of_targets hid (.inr hkind) hout htargets⟩

/-- A decision between two edges, without the literals of its variable, is worth their sum. -/
theorem decision_value {var : Nat} (hvar : var ≠ 0) {edgeTrue edgeFalse : DdnnfEdge}
    (htrue : (var : Int) ∈ edgeTrue.lits) (hfalse : -(var : Int) ∈ edgeFalse.lits) (K : Type)
    [CommSemiring K] (wt wf : Nat → K)
    : wf var * ddnnf.edgeValue wt wf (edgeFalse.without (some (-(var : Int))))
        + wt var * ddnnf.edgeValue wt wf (edgeTrue.without (some (var : Int)))
      = ddnnf.edgeValue wt wf edgeFalse + ddnnf.edgeValue wt wf edgeTrue := by
  have hpositive : litWeight wt wf (var : Int) = wt var := by
    simp [litWeight, Nat.pos_of_ne_zero hvar]
  have hnegative : litWeight wt wf (-(var : Int)) = wf var := by
    simp [litWeight]
  rw [← edgeValue_without htrue, ← edgeValue_without hfalse, hpositive, hnegative]

/-- The edge of the variable's truth first. -/
theorem inferDecisionVar_pair {e0 e1 edgeTrue edgeFalse : DdnnfEdge} {var : Nat}
    (h : inferDecisionVar e0 e1 = .ok (some (var, edgeTrue, edgeFalse)))
    : (edgeTrue = e0 ∧ edgeFalse = e1) ∨ (edgeTrue = e1 ∧ edgeFalse = e0) := by
  obtain ⟨m0, -, h⟩ := bind_eq_ok.mp h
  obtain ⟨m1, -, h⟩ := bind_eq_ok.mp h
  split at h
  · next edge0IsTrue _ =>
    cases edge0IsTrue
    · cases h
      exact .inr ⟨rfl, rfl⟩
    · cases h
      exact .inl ⟨rfl, rfl⟩
  · simp at h

theorem convertDecision_spec (h : Converted ddnnf rank b) (hrank : ddnnf.Ranked rank)
    (hedges : ddnnf.EdgesDecomposable) (hid : ddnnf.Reachable id)
    (hkind : ddnnf.nodeKind id = some .or) {e0 e1 : DdnnfEdge}
    (hout : outgoingEdges ddnnf.edges id = some [e0, e1]) {var : Nat}
    {edgeTrue edgeFalse : DdnnfEdge}
    (hpair : (edgeTrue = e0 ∧ edgeFalse = e1) ∨ (edgeTrue = e1 ∧ edgeFalse = e0))
    (hconvert : ∀ edge ∈ [e0, e1], ConvertsNode ddnnf rank convert edge.target)
    : Ends FitsStack
        (fun made => Converts ddnnf rank b (ddnnf.nodePart id) made ∧ ddnnf.Evaluates rank id)
        (XgcfBuilder.convertDecision convert b var edgeTrue edgeFalse) := by
  have hbranches := DecisionDnnf.branches_of_outgoing (.inr hkind) hout
  have hmemTrue : edgeTrue ∈ [e0, e1] := by
    rcases hpair with ⟨rfl, rfl⟩ | ⟨rfl, rfl⟩ <;> simp
  have hmemFalse : edgeFalse ∈ [e0, e1] := by
    rcases hpair with ⟨rfl, rfl⟩ | ⟨rfl, rfl⟩ <;> simp
  obtain ⟨hnodupTrue, hapartTrue⟩ := hedges id hid edgeTrue (hbranches ▸ hmemTrue)
  obtain ⟨hnodupFalse, hapartFalse⟩ := hedges id hid edgeFalse (hbranches ▸ hmemFalse)
  refine (convertDdnnfEdgeBranch_spec h (hconvert edgeTrue hmemTrue) hnodupTrue hapartTrue _).bind
    fun childTrue hchildTrue => ?_
  obtain ⟨hchildTrue, hevaluatesTrue, hlitTrue⟩ := hchildTrue
  refine (convertDdnnfEdgeBranch_spec hchildTrue.converted (hconvert edgeFalse hmemFalse)
    hnodupFalse hapartFalse _).bind fun childFalse hchildFalse => ?_
  obtain ⟨hchildFalse, hevaluatesFalse, hlitFalse⟩ := hchildFalse
  have hevaluates : ddnnf.Evaluates rank id := by
    refine hrank.evaluates_of_targets hid (.inr hkind) hout ?_
    rcases hpair with ⟨rfl, rfl⟩ | ⟨rfl, rfl⟩
    · simp [hevaluatesTrue, hevaluatesFalse]
    · simp [hevaluatesTrue, hevaluatesFalse]
  by_cases hvar : var = 0
  · subst hvar
    exact fun h => by simp at h
  refine (hchildFalse.converted.converts (pushDecision_stands hchildFalse.converted.gates
    hchildFalse.stands (hchildTrue.stands.grows hchildFalse.grows) hvar)).mono fun made hmade => ?_
  refine ⟨⟨hmade.converted, (hchildTrue.grows.trans hchildFalse.grows).trans hmade.grows, ?_⟩,
    hevaluates⟩
  rw [hrank.nodePart_or hid hkind, hbranches]
  refine hmade.stands.congr (fun K _ wt wf => ?_) ?_
  · refine (decision_value hvar (hlitTrue _ rfl) (hlitFalse _ rfl) K wt wf).trans ?_
    show _ = ddnnf.edgeValue wt wf e0 + (ddnnf.edgeValue wt wf e1 + 0)
    rw [add_zero]
    rcases hpair with ⟨rfl, rfl⟩ | ⟨rfl, rfl⟩
    · exact add_comm _ _
    · rfl
  · show insert var (ddnnf.edgeVars (edgeFalse.without _) ∪ ddnnf.edgeVars (edgeTrue.without _))
      ⊆ ddnnf.edgeVars e0 ∪ (ddnnf.edgeVars e1 ∪ ∅)
    have hboth : insert var (ddnnf.edgeVars (edgeFalse.without (some (-(var : Int))))
        ∪ ddnnf.edgeVars (edgeTrue.without (some (var : Int))))
        ⊆ ddnnf.edgeVars edgeFalse ∪ ddnnf.edgeVars edgeTrue := by
      refine Finset.insert_subset (Finset.mem_union_right _ (Finset.mem_union_left _ ?_))
        (Finset.union_subset_union (edgeVars_without _ _) (edgeVars_without _ _))
      exact List.mem_toFinset.mpr (List.mem_map_of_mem (hlitTrue _ rfl))
    refine hboth.trans ?_
    rw [Finset.union_empty]
    rcases hpair with ⟨rfl, rfl⟩ | ⟨rfl, rfl⟩
    · rw [Finset.union_comm]
    · exact subset_rfl

theorem signMap_ends (lits : List Int)
    : Ends FitsStack (fun _ => True) (signMap lits) := by
  refine Ends.foldlM (fun _ _ => True) trivial fun before lit after signs _ _ => ?_
  unfold insertSign
  dsimp only
  split
  · trivial
  · split
    · exact fun h => by simp at h
    · trivial

theorem inferDecisionVar_ends (e0 e1 : DdnnfEdge)
    : Ends FitsStack (fun found => inferDecisionVar e0 e1 = .ok found) (inferDecisionVar e0 e1) := by
  have hends : Ends FitsStack (fun _ => True) (inferDecisionVar e0 e1) := by
    refine (signMap_ends e0.lits).bind fun m0 _ => (signMap_ends e1.lits).bind fun m1 _ => ?_
    split
    · trivial
    · trivial
  cases hfound : inferDecisionVar e0 e1 with
  | ok found => exact rfl
  | error e =>
    rw [hfound] at hends
    exact hends

theorem convertDisjunction_spec (h : Converted ddnnf rank b) (hrank : ddnnf.Ranked rank)
    (hdec : ddnnf.Decomposable) (hedges : ddnnf.EdgesDecomposable) (hdet : ddnnf.Deterministic)
    (hid : ddnnf.Reachable id) (hkind : ddnnf.nodeKind id = some .or)
    (hout : outgoingEdges ddnnf.edges id = some out)
    (hconvert : ∀ edge ∈ out, ConvertsNode ddnnf rank convert edge.target)
    : Ends FitsStack
        (fun made => Converts ddnnf rank b (ddnnf.nodePart id) made ∧ ddnnf.Evaluates rank id)
        (XgcfBuilder.convertDisjunction convert b out) := by
  unfold XgcfBuilder.convertDisjunction
  split
  · next e0 e1 =>
    refine (inferDecisionVar_ends e0 e1).bind fun found hfound => ?_
    split
    · exact convertDecision_spec h hrank hedges hid hkind hout (inferDecisionVar_pair hfound)
        hconvert
    · exact convertOr_spec h hrank hdec hedges hdet hid hkind hout hconvert
  · exact convertOr_spec h hrank hdec hedges hdet hid hkind hout hconvert

/-- The constants are the gates for the leaves. -/
theorem convertLeaf_spec (h : Converted ddnnf rank b) (hrank : ddnnf.Ranked rank)
    (hid : ddnnf.Reachable id)
    (hkind : ddnnf.nodeKind id = some .true ∨ ddnnf.nodeKind id = some .false) {i : Nat}
    {node : XgcfNode} (hnode : b.gates.nodes[i]? = some node)
    (hvalue : ∀ (K : Type) [CommSemiring K] (wt wf values : Nat → K),
      node.value wt wf values = ddnnf.value wt wf id)
    (hvars : ∀ below, node.vars below = ∅)
    : Ends FitsStack
        (fun made => Converts ddnnf rank b (ddnnf.nodePart id) made ∧ ddnnf.Evaluates rank id)
        (.ok (i, b)) := by
  refine ⟨⟨h, .refl _, (List.getElem?_eq_some_iff.mp hnode).1, fun K _ wt wf values hv => ?_,
    fun below hb => ?_⟩, hrank.evaluates_leaf hid hkind⟩
  · exact (hv i node hnode).trans (hvalue K wt wf values)
  · rw [hb i node hnode, hvars below]
    exact Finset.empty_subset _

theorem convertKind_spec (h : Converted ddnnf rank b) (hrank : ddnnf.Ranked rank)
    (hdec : ddnnf.Decomposable) (hedges : ddnnf.EdgesDecomposable) (hdet : ddnnf.Deterministic)
    (hid : ddnnf.Reachable id) {kind : DdnnfNodeKind} (hkind : ddnnf.nodeKind id = some kind)
    (hconvert : ∀ edge ∈ ddnnf.branches id, ConvertsNode ddnnf rank convert edge.target)
    : Ends FitsStack
        (fun made => Converts ddnnf rank b (ddnnf.nodePart id) made ∧ ddnnf.Evaluates rank id)
        (XgcfBuilder.convertKind convert ddnnf b id kind) := by
  cases kind with
  | true =>
    refine convertLeaf_spec h hrank hid (.inl hkind) h.gates.const1 (fun K _ wt wf values => ?_)
      fun below => rfl
    rw [DecisionDnnf.value, hrank.meaning_eq hid]
    simp only [DecisionDnnf.step, hkind]
    rfl
  | false =>
    refine convertLeaf_spec h hrank hid (.inr hkind) h.gates.const0 (fun K _ wt wf values => ?_)
      fun below => rfl
    rw [DecisionDnnf.value, hrank.meaning_eq hid]
    simp only [DecisionDnnf.step, hkind]
    rfl
  | and =>
    dsimp only [XgcfBuilder.convertKind]
    split
    · exact fun h => by simp at h
    · next out hout =>
      rw [DecisionDnnf.branches_of_outgoing (.inl hkind) hout] at hconvert
      exact convertAnd_spec h hrank hdec hedges hid hkind hout hconvert
  | or =>
    dsimp only [XgcfBuilder.convertKind]
    split
    · exact fun h => by simp at h
    · next out hout =>
      rw [DecisionDnnf.branches_of_outgoing (.inr hkind) hout] at hconvert
      exact convertDisjunction_spec h hrank hdec hedges hdet hid hkind hout hconvert

/-- With fuel for the nodes below, a node is converted into a gate that stands for it. -/
theorem convertDdnnfNode_spec (hrank : ddnnf.Ranked rank) (hdec : ddnnf.Decomposable)
    (hedges : ddnnf.EdgesDecomposable) (hdet : ddnnf.Deterministic) {fuel : Nat}
    (hid : ddnnf.Reachable id) (hfuel : rank id < fuel)
    : ConvertsNode ddnnf rank (XgcfBuilder.convertDdnnfNode ddnnf fuel) id := by
  induction fuel generalizing id with
  | zero => exact absurd hfuel (Nat.not_lt_zero _)
  | succ fuel ih =>
    intro b h
    unfold XgcfBuilder.convertDdnnfNode
    split
    · next idx hcached =>
      obtain ⟨hstands, hevaluates⟩ := h.nodes id idx (mem_of_lookup hcached)
      exact ⟨⟨h, .refl _, hstands⟩, hevaluates⟩
    split
    · exact fun h => by simp at h
    next kind hkind =>
    have htargets : ∀ edge ∈ ddnnf.branches id,
        ConvertsNode ddnnf rank (XgcfBuilder.convertDdnnfNode ddnnf fuel) edge.target := by
      intro edge hedge
      have hfalls := hrank.falls id hid edge hedge
      exact ih (hid.target hedge) (by omega)
    refine (convertKind_spec h hrank hdec hedges hdet hid hkind htargets).bind fun made hmade => ?_
    obtain ⟨hmade, hevaluates⟩ := hmade
    refine ⟨⟨⟨hmade.converted.gates, fun other i hother => ?_⟩, hmade.grows, hmade.stands⟩,
      hevaluates⟩
    rcases List.mem_cons.mp hother with heq | hother
    · cases heq
      exact ⟨hmade.stands, hevaluates⟩
    · exact hmade.converted.nodes other i hother

theorem converted_new : Converted ddnnf rank .new where
  gates := ok_new
  nodes := fun id i h => by simp [XgcfBuilder.new] at h

-- The circuit

/-- The circuit has the value of the decision-DNNF circuit over every semiring, and its levels list
every gate below the root once and after its children.
-/
structure SameCount (ddnnf : DecisionDnnf) (g : Xgcf) : Prop where
  levels : Levels g.nodes g.roots g.levels
  value : ∃ root, g.roots = [root] ∧ ∀ (K : Type) [CommSemiring K] (wt wf : Nat → K),
    ddnnf.evalWmc wt wf = .ok (g.values wt wf root)

theorem fromDdnnf_spec (hrank : ddnnf.Ranked rank) (hdec : ddnnf.Decomposable)
    (hedges : ddnnf.EdgesDecomposable) (hdet : ddnnf.Deterministic)
    : Ends FitsStack (SameCount ddnnf) (Xgcf.fromDdnnf ddnnf) := by
  have hroot : ddnnf.Reachable ddnnf.root := .refl
  have hbound := hrank.bound ddnnf.root hroot
  refine (convertDdnnfNode_spec hrank hdec hedges hdet hroot hbound .new converted_new).bind
    fun made hmade => ?_
  obtain ⟨hmade, hevaluates⟩ := hmade
  dsimp only
  split
  · exact fun h => by simp at h
  have hback := hmade.converted.gates.back
  refine ((levelize_spec hback (List.forall_mem_singleton.mpr hmade.stands.lt)).weaken
    fun _ h => h.elim).bind fun levels hlevels => ?_
  refine ⟨hlevels, made.1, rfl, fun K _ wt wf => ?_⟩
  obtain ⟨values, hvalues⟩ := exists_solvesArena (local_value wt wf) hback
  rw [DecisionDnnf.evalWmc, hevaluates K wt wf _ hbound,
    values_of_solvesArena hlevels hvalues (List.mem_singleton_self _),
    hmade.stands.value K wt wf values hvalues]
  rfl

end

/-- The conversion of a parsed circuit that is deterministic, and decomposable along its edges as well,
keeps its weighted count.
-/
theorem fromDdnnf_sameCount {text : List Char} {ddnnf : DecisionDnnf} {g : Xgcf}
    (hparse : DecisionDnnf.parseStr text = .ok ddnnf) (hdec : ddnnf.Decomposable)
    (hedges : ddnnf.EdgesDecomposable) (hdet : ddnnf.Deterministic)
    (hconvert : Xgcf.fromDdnnf ddnnf = .ok g)
    : SameCount ddnnf g := by
  obtain ⟨rank, hrank⟩ := DecisionDnnf.ranked_of_parseStr hparse
  have hspec := fromDdnnf_spec hrank hdec hedges hdet
  rw [hconvert] at hspec
  exact hspec

def twoStage : DecisionDnnf where
  root := 1
  nodes := [(1, .or), (2, .and), (3, .true)]
  edges := [⟨1, 2, [-1]⟩, ⟨1, 3, [1]⟩, ⟨2, 3, [2]⟩, ⟨2, 3, [-3]⟩]
  maxVar := 3

theorem twoStage_decomposable : twoStage.Decomposable := by
  intro id _ hkind
  have hall : ∀ entry ∈ twoStage.nodes, entry.2 = .and → (twoStage.branches entry.1).Pairwise
      fun edge edge' => Disjoint (twoStage.edgeVars edge) (twoStage.edgeVars edge') := by
    decide +kernel
  exact hall (id, .and) (mem_of_lookup hkind) rfl

theorem twoStage_edgesDecomposable : twoStage.EdgesDecomposable := by
  intro id _ edge hedge
  have hall : ∀ entry ∈ twoStage.nodes, ∀ edge ∈ twoStage.branches entry.1,
      (edge.lits.map Int.natAbs).Nodup
        ∧ Disjoint (DecisionDnnf.litVars edge.lits) (twoStage.vars edge.target) := by
    decide +kernel
  rcases DecisionDnnf.nodeKind_of_mem_branches hedge with hkind | hkind
  · exact hall (id, .and) (mem_of_lookup hkind) edge hedge
  · exact hall (id, .or) (mem_of_lookup hkind) edge hedge

theorem twoStage_deterministic : twoStage.Deterministic := by
  intro id _ hkind
  have hmem := mem_of_lookup hkind
  obtain rfl : id = 1 := by simpa [twoStage] using hmem
  have hbranches : twoStage.branches 1 = [⟨1, 2, [-1]⟩, ⟨1, 3, [1]⟩] := by decide +kernel
  rw [hbranches, List.pairwise_pair]
  intro world hboth
  simp [DecisionDnnf.edgeTruth, DecisionDnnf.litTrue] at hboth
  grind

theorem fromDdnnf_sameCount_twoStage
    : SameCount twoStage
        ⟨[.const0, .const1, .lit 2, .lit (-3), .and [2, 3], .decision 1 4 1], [5],
          [[1, 2, 3], [4], [5]]⟩ :=
  @fromDdnnf_sameCount
    "o 1 0\na 2 0\nt 3 0\n1 2 -1 0\n1 3 1 0\n2 3 2 0\n2 3 -3 0\n".toList twoStage _
    (by decide +kernel) twoStage_decomposable twoStage_edgesDecomposable twoStage_deterministic
    (by decide +kernel)

def repeatedLiteral : DecisionDnnf where
  root := 2
  nodes := [(1, .true), (2, .or)]
  edges := [⟨2, 1, [5, 5]⟩]
  maxVar := 5

/-- The weight of a literal that an edge repeats is squared in the circuit and not in the conversion. -/
theorem repeatedLiteral_miscounts
    : DecisionDnnf.parseStr "t 1 0\no 2 0\n2 1 5 5 0".toList = .ok repeatedLiteral
      ∧ repeatedLiteral.Decomposable ∧ repeatedLiteral.Deterministic
      ∧ Xgcf.fromDdnnf repeatedLiteral = .ok ⟨[.const0, .const1, .lit 5], [2], [[2]]⟩
      ∧ repeatedLiteral.evalWmc (fun _ => (7 : Nat)) (fun _ => 0) = .ok 49
      ∧ (Xgcf.mk [.const0, .const1, .lit 5] [2] [[2]]).values (fun _ => (7 : Nat)) (fun _ => 0) 2 = 7 := by
  refine ⟨by decide +kernel, ?_, ?_, by decide +kernel, by decide +kernel, by decide +kernel⟩
  · intro id _ hkind
    have hmem := mem_of_lookup hkind
    simp [repeatedLiteral] at hmem
  · intro id _ hkind
    have hmem := mem_of_lookup hkind
    obtain rfl : id = 2 := by simpa [repeatedLiteral] using hmem
    have hbranches : repeatedLiteral.branches 2 = [⟨2, 1, [5, 5]⟩] := by decide +kernel
    rw [hbranches]
    exact List.pairwise_singleton _ _

end Xlog.Prob
