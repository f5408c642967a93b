import Xlog.Prob.PirBuilder

/-! What the operations of the builder mean: conjunction, disjunction, decision and negation of
existing nodes, in every world.
-/

namespace Xlog.Prob.PirBuilder

open Xlog.Foundation

-- Normal forms

/-- The tables as a conjunction sees them: listed children of the same kind are conjunctions,
those of the dual kind are disjunctions of earlier nodes.
-/
structure Reads (value : PirNodeId → Bool) (same dual : List (PirNodeId × List PirNodeId))
    (neutral absorbing : PirNodeId) : Prop where
  same : ∀ c sub, (c, sub) ∈ same → value c = sub.all value
  dual : ∀ c sub, (c, sub) ∈ dual → value c = sub.any value ∧ ∀ s ∈ sub, s < c
  neutral : value neutral = true
  absorbing : value absorbing = false

variable {value : PirNodeId → Bool} {same dual : List (PirNodeId × List PirNodeId)}
  {neutral absorbing : PirNodeId}

theorem Reads.all_flatten (h : Reads value same dual neutral absorbing)
    (children : List PirNodeId)
    : (flatten same children).all value = children.all value := by
  rw [flatten, List.all_flatMap]
  congr 1
  funext c
  cases hl : same.lookup c with
  | none => simp
  | some sub => simp [h.same c sub (mem_of_lookup hl)]

theorem Reads.all_filter_ne (h : Reads value same dual neutral absorbing)
    (children : List PirNodeId)
    : (children.filter (· ≠ neutral)).all value = children.all value := by
  rw [Bool.eq_iff_iff, List.all_eq_true, List.all_eq_true]
  constructor
  · intro hall c hc
    by_cases hn : c = neutral
    · rw [hn, h.neutral]
    · exact hall c (by simp [hc, hn])
  · intro hall c hc
    exact hall c (List.mem_filter.mp hc).1

/-- A dropped child follows from a kept one, by induction on the children's numbers. -/
theorem Reads.all_absorb (h : Reads value same dual neutral absorbing)
    (children : List PirNodeId)
    : (absorb dual children).all value = children.all value := by
  rw [Bool.eq_iff_iff, List.all_eq_true, List.all_eq_true]
  constructor
  · intro hall c
    induction c using Nat.strong_induction_on with
    | _ c ih =>
        intro hc
        by_cases hkept : c ∈ absorb dual children
        · exact hall c hkept
        · simp only [absorb, List.mem_filter, hc, true_and] at hkept
          split at hkept
          · next sub hl =>
              obtain ⟨hvalue, hless⟩ := h.dual c sub (mem_of_lookup hl)
              simp only [Bool.not_eq_true', Bool.not_eq_false, List.any_eq_true,
                decide_eq_true_eq] at hkept
              obtain ⟨s, hs, -, hmem⟩ := hkept
              rw [hvalue, List.any_eq_true]
              exact ⟨s, hs, ih s (hless s hs) hmem⟩
          · exact absurd rfl hkept
  · intro hall c hc
    exact hall c (List.mem_filter.mp hc).1

theorem all_sortDedup (children : List PirNodeId)
    : ((children.insertionSort (· ≤ ·)).dedup).all value = children.all value := by
  rw [Bool.eq_iff_iff, List.all_eq_true, List.all_eq_true]
  simp only [List.mem_dedup, List.mem_insertionSort]

/-- A node or a list of children that means the conjunction of the given children. -/
def Amounts (value : PirNodeId → Bool) (bound : Nat) (expected : Bool)
    : PirNodeId ⊕ List PirNodeId → Prop
  | .inl id => id < bound ∧ value id = expected
  | .inr kept => (∀ c ∈ kept, c < bound) ∧ kept.all value = expected

theorem Reads.normalize_spec (h : Reads value same dual neutral absorbing) {bound : Nat}
    (hsame : ∀ c sub, (c, sub) ∈ same → ∀ s ∈ sub, s < bound)
    (hneutral : neutral < bound) (habsorbing : absorbing < bound) {children : List PirNodeId}
    (inside : ∀ c ∈ children, c < bound)
    : Amounts value bound (children.all value)
        (normalize same dual neutral absorbing children) := by
  have hflat : ((flatten same children).filter (· ≠ neutral)).all value = children.all value := by
    rw [h.all_filter_ne, h.all_flatten]
  have hin : ∀ c ∈ (flatten same children).filter (· ≠ neutral), c < bound := by
    intro c hc
    obtain ⟨parent, hp, hc⟩ := List.mem_flatMap.mp (List.mem_filter.mp hc).1
    cases hl : same.lookup parent with
    | none =>
        obtain rfl : c = parent := by simpa [hl] using hc
        exact inside c hp
    | some sub => exact hsame parent sub (mem_of_lookup hl) c (by simpa [hl] using hc)
  unfold normalize
  generalize (flatten same children).filter (· ≠ neutral) = flat at hflat hin ⊢
  simp only
  split
  · next hmem =>
      refine ⟨habsorbing, ?_⟩
      rw [h.absorbing, ← hflat, eq_comm, List.all_eq_false]
      exact ⟨absorbing, hmem, by simp [h.absorbing]⟩
  · next hnot =>
    split
    · exact ⟨hneutral, by rw [← hflat, h.neutral, List.all_nil]⟩
    · next only =>
        exact ⟨hin only (by simp), by rw [← hflat, List.all_cons, List.all_nil, Bool.and_true]⟩
    · -- sorting, deduplication and absorption keep the conjunction
      have hkept : ((if 1 < ((flat.insertionSort (· ≤ ·)).dedup).length
            then absorb dual (flat.insertionSort (· ≤ ·)).dedup
            else (flat.insertionSort (· ≤ ·)).dedup).all value = flat.all value)
          ∧ ∀ c ∈ (if 1 < ((flat.insertionSort (· ≤ ·)).dedup).length
            then absorb dual (flat.insertionSort (· ≤ ·)).dedup
            else (flat.insertionSort (· ≤ ·)).dedup), c < bound := by
        have hsorted (c : PirNodeId) (hc : c ∈ (flat.insertionSort (· ≤ ·)).dedup) : c < bound :=
          hin c (by simpa using hc)
        split
        · refine ⟨by rw [h.all_absorb, all_sortDedup], ?_⟩
          intro c hc
          exact hsorted c (List.mem_filter.mp hc).1
        · exact ⟨all_sortDedup flat, hsorted⟩
      generalize (if 1 < ((flat.insertionSort (· ≤ ·)).dedup).length
        then absorb dual (flat.insertionSort (· ≤ ·)).dedup
        else (flat.insertionSort (· ≤ ·)).dedup) = kept at hkept ⊢
      obtain ⟨hall, hlt⟩ := hkept
      split
      · next only =>
          refine ⟨hlt only (by simp), ?_⟩
          rw [← hflat, ← hall, List.all_cons, List.all_nil, Bool.and_true]
      · exact ⟨hlt, hall.trans hflat⟩

-- Nodes

/-- Pushing a node over existing children keeps references backward. -/
theorem Ok.backward_push {b : PirBuilder} (h : b.Ok) {node : PirNode}
    (inside : ∀ child ∈ node.children, child < b.pir.len)
    : (b.pir.pushNode node).2.Backward := by
  intro id hid child hc
  by_cases hlt : id < b.pir.nodes.length
  · simp only [PirGraph.pushNode, List.getElem_append_left hlt] at hc
    exact h.backward id hlt child hc
  · have hlen : id = b.pir.nodes.length := by
      simp only [PirGraph.pushNode, List.length_append, List.length_singleton] at hid
      omega
    subst hlen
    simp only [PirGraph.pushNode, List.getElem_append_right le_rfl, Nat.sub_self,
      List.getElem_singleton] at hc
    exact inside child hc

/-- A new node, with or without entries in the tables. -/
theorem Ok.grows_push {b : PirBuilder} (h : b.Ok) (node : PirNode)
    (inside : ∀ child ∈ node.children, child < b.pir.len)
    {intern : List (PirNode × PirNodeId)}
    {orChildren andChildren : List (PirNodeId × List PirNodeId)}
    (hintern : ∀ found id, (found, id) ∈ intern →
      (found, id) ∈ b.intern ∨ id = b.pir.len ∧ node = found)
    (hor : ∀ id sub, (id, sub) ∈ orChildren →
      (id, sub) ∈ b.orChildren ∨ id = b.pir.len ∧ node = .or sub)
    (hand : ∀ id sub, (id, sub) ∈ andChildren →
      (id, sub) ∈ b.andChildren ∨ id = b.pir.len ∧ node = .and sub)
    : Grows b { b with
        pir := (b.pir.pushNode node).2
        intern := intern
        orChildren := orChildren
        andChildren := andChildren } := by
  have hkeep {found : PirNode} {id : PirNodeId} (hn : b.pir.node id = some found)
      : (b.pir.pushNode node).2.node id = some found :=
    (PirGraph.node_pushNode_of_lt (PirGraph.node_lt hn)).trans hn
  have hself : (b.pir.pushNode node).2.node b.pir.len = some node := PirGraph.node_pushNode_self
  refine ⟨?_, List.prefix_append _ _, h.sound.extends_pushNode inside, rfl, rfl⟩
  exact {
    backward := h.backward_push inside
    constTrue := hkeep h.constTrue
    constFalse := hkeep h.constFalse
    intern := by
      intro found id hm
      rcases hintern found id hm with hm | ⟨rfl, rfl⟩
      · exact hkeep (h.intern found id hm)
      · exact hself
    orChildren := by
      intro id sub hm
      rcases hor id sub hm with hm | ⟨rfl, rfl⟩
      · exact hkeep (h.orChildren id sub hm)
      · exact hself
    andChildren := by
      intro id sub hm
      rcases hand id sub hm with hm | ⟨rfl, rfl⟩
      · exact hkeep (h.andChildren id sub hm)
      · exact hself }

/-- A new node with its entries in the tables. -/
theorem Ok.made_push {b : PirBuilder} (h : b.Ok) (node : PirNode)
    (inside : ∀ child ∈ node.children, child < b.pir.len)
    {orChildren andChildren : List (PirNodeId × List PirNodeId)}
    (hor : ∀ id sub, (id, sub) ∈ orChildren →
      (id, sub) ∈ b.orChildren ∨ id = b.pir.len ∧ node = .or sub)
    (hand : ∀ id sub, (id, sub) ∈ andChildren →
      (id, sub) ∈ b.andChildren ∨ id = b.pir.len ∧ node = .and sub)
    : Made b (fun w => node.value w (b.pir.eval w))
        (b.pir.len, { b with
          pir := (b.pir.pushNode node).2
          intern := (node, b.pir.len) :: b.intern
          orChildren := orChildren
          andChildren := andChildren }) := by
  refine ⟨h.grows_push node inside ?_ hor hand, by simp, h.sound.eval_pushNode inside⟩
  intro found id hm
  rcases List.mem_cons.mp hm with heq | hm
  · obtain ⟨rfl, rfl⟩ := Prod.mk.inj heq
    exact .inr ⟨rfl, rfl⟩
  · exact .inl hm

/-- A shared node means what its contents mean. -/
theorem Ok.made_shared {b : PirBuilder} (h : b.Ok) {node : PirNode} {id : PirNodeId}
    (hl : b.intern.lookup node = some id)
    : Made b (fun w => node.value w (b.pir.eval w)) (id, b) := by
  have hn := h.intern node id (mem_of_lookup hl)
  exact ⟨.refl h, PirGraph.node_lt hn, h.eval_node hn⟩

theorem getOrPush_spec {b : PirBuilder} (h : b.Ok) (node : PirNode)
    (inside : ∀ child ∈ node.children, child < b.pir.len)
    : Made b (fun w => node.value w (b.pir.eval w)) (b.getOrPush node) := by
  unfold getOrPush
  split
  · next id hl => exact h.made_shared hl
  · exact h.made_push node inside (fun _ _ => .inl) fun _ _ => .inl

theorem lit_spec {b : PirBuilder} (h : b.Ok) (leaf : LeafId)
    : Made b (fun w => w.leaf leaf) (b.lit leaf) :=
  getOrPush_spec h (.lit leaf) (by simp [PirNode.children])

theorem negLit_spec {b : PirBuilder} (h : b.Ok) (leaf : LeafId)
    : Made b (fun w => !w.leaf leaf) (b.negLit leaf) :=
  getOrPush_spec h (.negLit leaf) (by simp [PirNode.children])

theorem decision_spec {b : PirBuilder} (h : b.Ok) {var : ChoiceVarId}
    {childFalse childTrue : PirNodeId} (hf : childFalse < b.pir.len) (ht : childTrue < b.pir.len)
    : Made b (fun w => if w.choice var then b.pir.eval w childTrue else b.pir.eval w childFalse)
        (b.decision var childFalse childTrue) := by
  unfold decision
  split
  · next heq =>
      refine (h.made ht).congr ?_
      intro w
      rw [heq, ite_self]
  · exact getOrPush_spec h (.decision var childFalse childTrue) (by simp [PirNode.children, hf, ht])

/-- The conjunction of existing nodes. -/
theorem and_spec {b : PirBuilder} (h : b.Ok) {children : List PirNodeId}
    (inside : ∀ child ∈ children, child < b.pir.len)
    : Made b (fun w => children.all (b.pir.eval w)) (b.and children) := by
  have hreads (w : World)
      : Reads (b.pir.eval w) b.andChildren b.orChildren b.constTrue b.constFalse := {
    same := fun c sub hm => h.eval_node (h.andChildren c sub hm) w
    dual := fun c sub hm => ⟨h.eval_node (h.orChildren c sub hm) w,
      fun s hs => h.child_lt (h.orChildren c sub hm) hs⟩
    neutral := h.eval_constTrue w
    absorbing := h.eval_constFalse w }
  have hsame : ∀ c sub, (c, sub) ∈ b.andChildren → ∀ s ∈ sub, s < b.pir.len := by
    intro c sub hm s hs
    have hn := h.andChildren c sub hm
    exact (h.child_lt hn hs).trans (PirGraph.node_lt hn)
  have hspec (w : World) := (hreads w).normalize_spec hsame h.constTrue_lt h.constFalse_lt inside
  unfold and
  generalize normalize b.andChildren b.orChildren b.constTrue b.constFalse children = normal
    at hspec ⊢
  cases normal with
  | inl id => exact ⟨.refl h, (hspec ⟨fun _ => false, fun _ => false⟩).1, fun w => (hspec w).2⟩
  | inr kept =>
      have hin := (hspec ⟨fun _ => false, fun _ => false⟩).1
      simp only
      split
      · next id hl => exact (h.made_shared hl).congr fun w => (hspec w).2
      · refine (h.made_push (.and kept) hin (fun _ _ => .inl) ?_).congr fun w => (hspec w).2
        intro id sub hm
        rcases List.mem_cons.mp hm with heq | hm
        · obtain ⟨rfl, rfl⟩ := Prod.mk.inj heq
          exact .inr ⟨rfl, rfl⟩
        · exact .inl hm

/-- The disjunction of existing nodes: a conjunction of the negated values. -/
theorem or_spec {b : PirBuilder} (h : b.Ok) {children : List PirNodeId}
    (inside : ∀ child ∈ children, child < b.pir.len)
    : Made b (fun w => children.any (b.pir.eval w)) (b.or children) := by
  have hany (w : World) (ids : List PirNodeId)
      : ids.any (b.pir.eval w) = !ids.all fun id => !b.pir.eval w id := by
    rw [List.any_eq_not_all_not]
  have hreads (w : World)
      : Reads (fun id => !b.pir.eval w id) b.orChildren b.andChildren b.constFalse
        b.constTrue := {
    same := by
      intro c sub hm
      have hvalue : b.pir.eval w c = sub.any (b.pir.eval w) :=
        h.eval_node (h.orChildren c sub hm) w
      rw [hvalue, hany, Bool.not_not]
    dual := by
      intro c sub hm
      have hvalue : b.pir.eval w c = sub.all (b.pir.eval w) :=
        h.eval_node (h.andChildren c sub hm) w
      refine ⟨?_, fun s hs => h.child_lt (h.andChildren c sub hm) hs⟩
      rw [hvalue, List.all_eq_not_any_not, Bool.not_not]
    neutral := by simp [h]
    absorbing := by simp [h] }
  have hsame : ∀ c sub, (c, sub) ∈ b.orChildren → ∀ s ∈ sub, s < b.pir.len := by
    intro c sub hm s hs
    have hn := h.orChildren c sub hm
    exact (h.child_lt hn hs).trans (PirGraph.node_lt hn)
  have hspec (w : World) := (hreads w).normalize_spec hsame h.constFalse_lt h.constTrue_lt inside
  unfold or
  generalize normalize b.orChildren b.andChildren b.constFalse b.constTrue children = normal
    at hspec ⊢
  cases normal with
  | inl id =>
      refine ⟨.refl h, (hspec ⟨fun _ => false, fun _ => false⟩).1, ?_⟩
      intro w
      rw [hany, ← (hspec w).2, Bool.not_not]
  | inr kept =>
      have hin := (hspec ⟨fun _ => false, fun _ => false⟩).1
      have hkept (w : World) : kept.any (b.pir.eval w) = children.any (b.pir.eval w) := by
        rw [hany, hany, (hspec w).2]
      simp only
      split
      · next id hl => exact (h.made_shared hl).congr fun w => hkept w
      · refine (h.made_push (.or kept) hin ?_ fun _ _ => .inl).congr fun w => hkept w
        intro id sub hm
        rcases List.mem_cons.mp hm with heq | hm
        · obtain ⟨rfl, rfl⟩ := Prod.mk.inj heq
          exact .inr ⟨rfl, rfl⟩
        · exact .inl hm

theorem and_pair_spec {b : PirBuilder} (h : b.Ok) {left right : PirNodeId}
    (hleft : left < b.pir.len) (hright : right < b.pir.len)
    : Made b (fun w => b.pir.eval w left && b.pir.eval w right) (b.and [left, right]) := by
  have hinside : ∀ child ∈ [left, right], child < b.pir.len := by simp [hleft, hright]
  refine (and_spec h hinside).congr ?_
  intro w
  rw [List.all_cons, List.all_cons, List.all_nil, Bool.and_true]

theorem or_pair_spec {b : PirBuilder} (h : b.Ok) {left right : PirNodeId}
    (hleft : left < b.pir.len) (hright : right < b.pir.len)
    : Made b (fun w => b.pir.eval w left || b.pir.eval w right) (b.or [left, right]) := by
  have hinside : ∀ child ∈ [left, right], child < b.pir.len := by simp [hleft, hright]
  refine (or_spec h hinside).congr ?_
  intro w
  rw [List.any_cons, List.any_cons, List.any_nil, Bool.or_false]

-- Negation

/-- The nodes are the negations of existing ones, in order. -/
structure MadeAll (b : PirBuilder) (children : List PirNodeId)
    (made : List PirNodeId × PirBuilder) : Prop where
  grows : Grows b made.2
  negations : List.Forall₂ (fun child neg => neg < made.2.pir.len
    ∧ ∀ w, made.2.pir.eval w neg = !b.pir.eval w child) children made.1

/-- Negating children one after the other, by list induction. -/
theorem negateAll_spec {negate : PirBuilder → PirNodeId → PirNodeId × PirBuilder}
    {children : List PirNodeId} {b : PirBuilder} (h : b.Ok)
    (inside : ∀ child ∈ children, child < b.pir.len)
    (hnegate : ∀ b' : PirBuilder, Grows b b' → ∀ child ∈ children,
      Made b' (fun w => !b'.pir.eval w child) (negate b' child))
    : MadeAll b children (negateAll negate b children) := by
  induction children generalizing b with
  | nil => exact ⟨.refl h, List.Forall₂.nil⟩
  | cons child children ih =>
      obtain ⟨hc, hrest⟩ := List.forall_mem_cons.mp inside
      have hfirst := hnegate b (.refl h) child (by simp)
      have hall := ih hfirst.grows.ok (fun other ho => hfirst.grows.lt (hrest other ho))
        fun b' hb' other ho => hnegate b' (hfirst.grows.trans hb') other (by simp [ho])
      refine ⟨hfirst.grows.trans hall.grows, List.Forall₂.cons ⟨hall.grows.lt hfirst.lt, ?_⟩ ?_⟩
      · intro w
        exact (hall.grows.eval_eq hfirst.lt w).trans (hfirst.eval w)
      · refine (List.forall₂_iff_get).mpr ⟨hall.negations.length_eq, ?_⟩
        intro i hi hi'
        obtain ⟨hlt, heval⟩ := hall.negations.get hi hi'
        refine ⟨hlt, fun w => (heval w).trans ?_⟩
        rw [hfirst.grows.eval_eq (hrest _ (List.get_mem _ _)) w]

theorem MadeAll.lt {b : PirBuilder} {children : List PirNodeId}
    {made : List PirNodeId × PirBuilder} (h : MadeAll b children made)
    : ∀ neg ∈ made.1, neg < made.2.pir.len := by
  intro neg hn
  obtain ⟨i, hi, rfl⟩ := List.getElem_of_mem hn
  exact (h.negations.get (h.negations.length_eq ▸ hi) hi).1

/-- The negations are all true when no child is, by induction on the lists. -/
theorem MadeAll.all {b : PirBuilder} {children : List PirNodeId}
    {made : List PirNodeId × PirBuilder} (h : MadeAll b children made) (w : World)
    : made.1.all (made.2.pir.eval w) = !children.any (b.pir.eval w) := by
  obtain ⟨-, hn⟩ := h
  generalize made.1 = negs at hn ⊢
  induction hn with
  | nil => rfl
  | cons hc _ ih => rw [List.all_cons, List.any_cons, hc.2 w, ih, Bool.not_or]

theorem MadeAll.any {b : PirBuilder} {children : List PirNodeId}
    {made : List PirNodeId × PirBuilder} (h : MadeAll b children made) (w : World)
    : made.1.any (made.2.pir.eval w) = !children.all (b.pir.eval w) := by
  obtain ⟨-, hn⟩ := h
  generalize made.1 = negs at hn ⊢
  induction hn with
  | nil => rfl
  | cons hc _ ih => rw [List.any_cons, List.all_cons, hc.2 w, ih, Bool.not_and]

/-- Negation with enough fuel, by induction on it. -/
theorem negateFuel_spec (fuel : Nat) {b : PirBuilder} (h : b.Ok) {prov : PirNodeId}
    (hlt : prov < b.pir.len) (hfuel : prov < fuel)
    : Made b (fun w => !b.pir.eval w prov) (negateFuel fuel b prov) := by
  induction fuel generalizing b prov with
  | zero => exact absurd hfuel (Nat.not_lt_zero prov)
  | succ fuel ih =>
      obtain ⟨node, hn⟩ := PirGraph.node_of_lt hlt
      have hvalue (w : World) : b.pir.eval w prov = node.value w (b.pir.eval w) := h.eval_node hn w
      have hbelow : ∀ child ∈ node.children, child < prov := fun child hc => h.child_lt hn hc
      have hinside : ∀ child ∈ node.children, child < b.pir.len :=
        fun child hc => (hbelow child hc).trans hlt
      have hchild : ∀ b' : PirBuilder, Grows b b' → ∀ child ∈ node.children,
          Made b' (fun w => !b'.pir.eval w child) (negateFuel fuel b' child) := by
        intro b' hb' child hc
        exact ih hb'.ok (hb'.lt (hinside child hc))
          ((hbelow child hc).trans_le (Nat.le_of_lt_succ hfuel))
      simp only [negateFuel, hn]
      cases node with
      | const value =>
          cases value
          · refine (h.made h.constTrue_lt).congr fun w => ?_
            rw [hvalue, h.eval_constTrue]
            rfl
          · refine (h.made h.constFalse_lt).congr fun w => ?_
            rw [hvalue, h.eval_constFalse]
            rfl
      | lit leaf => exact (negLit_spec h leaf).congr fun w => by rw [hvalue]; rfl
      | negLit leaf =>
          refine (lit_spec h leaf).congr fun w => ?_
          rw [hvalue, PirNode.value, Bool.not_not]
      | and children =>
          have hall := negateAll_spec h hinside hchild
          refine Made.of_grows hall.grows ((or_spec hall.grows.ok hall.lt).congr fun w => ?_)
          rw [hvalue, hall.any w]
          rfl
      | or children =>
          have hall := negateAll_spec h hinside hchild
          refine Made.of_grows hall.grows ((and_spec hall.grows.ok hall.lt).congr fun w => ?_)
          rw [hvalue, hall.all w]
          rfl
      | decision var childFalse childTrue =>
          have hf := hinside childFalse (by simp [PirNode.children])
          have ht := hinside childTrue (by simp [PirNode.children])
          have hfirst := hchild b (.refl h) childFalse (by simp [PirNode.children])
          have hsecond := hchild _ hfirst.grows childTrue (by simp [PirNode.children])
          refine Made.of_grows (hfirst.grows.trans hsecond.grows)
            ((decision_spec hsecond.grows.ok (hsecond.grows.lt hfirst.lt) hsecond.lt).congr
              fun w => ?_)
          rw [hvalue, hsecond.eval w, hsecond.grows.eval_eq hfirst.lt w, hfirst.eval w,
            hfirst.grows.eval_eq ht w, PirNode.value]
          cases w.choice var <;> rfl

/-- The negation of an existing node. -/
theorem negateProvenance_spec {b : PirBuilder} (h : b.Ok) {prov : PirNodeId}
    (hlt : prov < b.pir.len)
    : Made b (fun w => !b.pir.eval w prov) (b.negateProvenance prov) :=
  negateFuel_spec (prov + 1) h hlt (Nat.lt_succ_self prov)

/-- A constant node is worth its constant. -/
theorem eval_of_pirConstValue {b : PirBuilder} (h : b.Ok) {prov : PirNodeId} {value : Bool}
    (hconst : b.pirConstValue prov = some value) (w : World)
    : b.pir.eval w prov = value := by
  unfold pirConstValue at hconst
  split at hconst
  · next found hn =>
      obtain rfl := Option.some.inj hconst
      exact h.eval_node hn w
  · simp at hconst

end Xlog.Prob.PirBuilder
