import Mathlib.Algebra.BigOperators.Ring.Finset
import Xlog.Foundation.Assoc
import Xlog.Prob.XgcfMeaning

/-! What the gates made while smoothing mean. Gates are only appended, so a table that solves
the equations of the finished arena solves those of every stage.
-/

namespace Xlog.Prob

open Xlog.Core Xlog.Foundation

section

variable {α : Type*}

/-- The table satisfies the equation of every gate of the arena. -/
def SolvesArena (step : (Nat → α) → XgcfNode → α) (nodes : List XgcfNode) (table : Nat → α)
    : Prop :=
  ∀ (i : Nat) node, nodes[i]? = some node → table i = step table node

theorem SolvesArena.of_prefix {step : (Nat → α) → XgcfNode → α} {nodes nodes' : List XgcfNode}
    {table : Nat → α} (h : SolvesArena step nodes' table) (grown : nodes <+: nodes')
    : SolvesArena step nodes table := by
  intro i node hi
  obtain ⟨rest, rfl⟩ := grown
  exact h i node (List.getElem?_append_left (List.getElem?_eq_some_iff.mp hi).1 ▸ hi)

/-- An arena whose gates read earlier ones has a table for every local step. -/
theorem exists_solvesArena {step : (Nat → α) → XgcfNode → α} (hlocal : Local step)
    [Nonempty α] {nodes : List XgcfNode}
    (back : ∀ (i : Nat) node, nodes[i]? = some node → ∀ child ∈ node.children, child < i)
    : ∃ table, SolvesArena step nodes table := by
  have hordered : Ordered (fun i => nodes.getD i .const0) (List.range nodes.length) := by
    intro before idx after heq child hc
    rw [List.range_eq_range', List.range'_eq_append_iff] at heq
    obtain ⟨k, hk, rfl, hrest⟩ := heq
    obtain ⟨rfl, hlt, -⟩ := List.range'_eq_cons_iff.mp hrest.symm
    have hidx : 0 + k * 1 < nodes.length := by omega
    simp only [List.getD_eq_getElem?_getD, List.getElem?_eq_getElem hidx, Option.getD_some] at hc
    have hback := back _ _ (List.getElem?_eq_getElem hidx) child hc
    rw [List.mem_range'_1]
    omega
  obtain ⟨table, hsolve⟩ : ∃ table,
      Solves step (fun i => nodes.getD i .const0) (List.range nodes.length) table :=
    ⟨_, solves_foldl hlocal hordered fun _ => Classical.arbitrary α⟩
  refine ⟨table, ?_⟩
  intro i node hi
  have hlt := (List.getElem?_eq_some_iff.mp hi).1
  have heq := hsolve i (List.mem_range.mpr hlt)
  simp only [List.getD_eq_getElem?_getD, hi, Option.getD_some] at heq
  exact heq

end

/-- The gate index or the child table outgrew `u32`. -/
def Overflows (e : XlogError) : Prop :=
  e = .panic "XGCF node index overflow" ∨ e = .panic "XGCF child table overflow"

namespace XgcfSmoothBuilder

/-- The caches name the gates they were made for, gates read earlier ones, and a gate without
variables is a constant.
-/
structure Ok (b : XgcfSmoothBuilder) : Prop where
  const0 : b.nodes[b.const0]? = some .const0
  const1 : b.nodes[b.const1]? = some .const1
  litCache : ∀ literal i, (literal, i) ∈ b.litCache → b.nodes[i]? = some (.lit literal)
  tautologyCache : ∀ var i, (var, i) ∈ b.tautologyCache →
    b.nodes[i]? = some (.decision var b.const1 b.const1)
  back : ∀ (i : Nat) node, b.nodes[i]? = some node → ∀ child ∈ node.children, child < i
  constant : ∀ below, SolvesArena XgcfNode.vars b.nodes below → ∀ i < b.nodes.length,
    below i = ∅ → i = b.const0 ∨ i = b.const1

/-- Gates are only appended, and the constants and the map of old gates stay. -/
structure Grows (b b' : XgcfSmoothBuilder) : Prop where
  nodes : b.nodes <+: b'.nodes
  const0 : b'.const0 = b.const0
  const1 : b'.const1 = b.const1
  oldToNew : b'.oldToNew = b.oldToNew

theorem Grows.refl (b : XgcfSmoothBuilder) : Grows b b := ⟨List.prefix_rfl, rfl, rfl, rfl⟩

theorem Grows.trans {b b' b'' : XgcfSmoothBuilder} (h : Grows b b') (h' : Grows b' b'')
    : Grows b b'' :=
  ⟨h.nodes.trans h'.nodes, h'.const0.trans h.const0, h'.const1.trans h.const1,
    h'.oldToNew.trans h.oldToNew⟩

theorem Grows.node {b b' : XgcfSmoothBuilder} (h : Grows b b') {i : Nat} {node : XgcfNode}
    (hi : b.nodes[i]? = some node)
    : b'.nodes[i]? = some node := by
  obtain ⟨rest, hr⟩ := h.nodes
  rw [← hr, List.getElem?_append_left (List.getElem?_eq_some_iff.mp hi).1, hi]

theorem Grows.lt {b b' : XgcfSmoothBuilder} (h : Grows b b') {i : Nat} (hi : i < b.nodes.length)
    : i < b'.nodes.length :=
  hi.trans_le h.nodes.length_le

theorem ok_new : new.Ok where
  const0 := rfl
  const1 := rfl
  litCache := by simp [new]
  tautologyCache := by simp [new]
  back := by
    intro i node hi
    simp only [new] at hi
    match i with
    | 0 | 1 =>
        obtain rfl := Option.some.inj hi
        simp [XgcfNode.children]
  constant := by
    intro below _ i hi _
    simp only [new, List.length_cons, List.length_nil] at hi ⊢
    omega

/-- What an operation that makes a gate leaves behind. -/
structure Made (b : XgcfSmoothBuilder) (meaning : XgcfSmoothBuilder → Nat → Prop)
    (made : Nat × XgcfSmoothBuilder) : Prop where
  ok : made.2.Ok
  grows : Grows b made.2
  lt : made.1 < made.2.nodes.length
  meaning : meaning made.2 made.1

/-- A gate that reads existing ones and has a variable can be appended. -/
theorem pushBaseNode_spec {b : XgcfSmoothBuilder} (h : b.Ok) (node : XgcfNode)
    (hchildren : ∀ child ∈ node.children, child < b.nodes.length)
    (hvars : ∀ below, SolvesArena XgcfNode.vars b.nodes below → (node.vars below).Nonempty)
    : Ends Overflows
        (fun made => Made b (fun b' i => b'.nodes[i]? = some node) made
          ∧ made.2.litCache = b.litCache ∧ made.2.tautologyCache = b.tautologyCache)
        (b.pushBaseNode node) := by
  unfold pushBaseNode
  split
  · have hgrows : Grows b { b with nodes := b.nodes ++ [node] } :=
      ⟨List.prefix_append _ _, rfl, rfl, rfl⟩
    have hget (i : Nat) (old : XgcfNode)
        (hi : (b.nodes ++ [node])[i]? = some old)
        : b.nodes[i]? = some old ∨ (i = b.nodes.length ∧ old = node) := by
      by_cases hlt : i < b.nodes.length
      · exact .inl (List.getElem?_append_left hlt ▸ hi)
      · rw [List.getElem?_append_right (Nat.le_of_not_lt hlt), List.getElem?_singleton] at hi
        split at hi
        · exact .inr ⟨by omega, (Option.some.inj hi).symm⟩
        · simp at hi
    refine ⟨⟨?_, hgrows, by simp, by simp⟩, rfl, rfl⟩
    exact {
      const0 := hgrows.node h.const0
      const1 := hgrows.node h.const1
      litCache := fun literal i hm => hgrows.node (h.litCache literal i hm)
      tautologyCache := fun var i hm => hgrows.node (h.tautologyCache var i hm)
      back := by
        intro i old hi child hc
        rcases hget i old hi with hold | ⟨rfl, rfl⟩
        · exact h.back i old hold child hc
        · exact hchildren child hc
      constant := by
        intro below hbelow i hi hempty
        have hold := hbelow.of_prefix hgrows.nodes
        by_cases hlt : i < b.nodes.length
        · exact h.constant below hold i hlt hempty
        · simp only [List.length_append, List.length_singleton] at hi
          obtain rfl : i = b.nodes.length := by omega
          have heq := hbelow b.nodes.length node (by simp)
          obtain ⟨v, hv⟩ := hvars below hold
          rw [← heq, hempty] at hv
          simp at hv }
  · exact .inl rfl

/-- A cached or new literal gate. -/
theorem getLitNode_spec {b : XgcfSmoothBuilder} (h : b.Ok) {literal : Int} (hne : literal ≠ 0)
    : Ends Overflows (Made b fun b' i => b'.nodes[i]? = some (.lit literal))
        (b.getLitNode literal) := by
  simp only [getLitNode, hne, if_false]
  split
  · next idx hl =>
      have hnode := h.litCache literal idx (mem_of_lookup hl)
      exact ⟨h, .refl b, (List.getElem?_eq_some_iff.mp hnode).1, hnode⟩
  · refine (pushBaseNode_spec h (.lit literal) (by simp [XgcfNode.children])
      (by simp [XgcfNode.vars])).bind ?_
    intro made hmade
    obtain ⟨hm, hlit, -⟩ := hmade
    refine ⟨?_, ⟨hm.grows.nodes, hm.grows.const0, hm.grows.const1, hm.grows.oldToNew⟩, hm.lt,
      hm.meaning⟩
    exact {
      const0 := hm.ok.const0
      const1 := hm.ok.const1
      litCache := by
        intro l i hi
        rcases List.mem_cons.mp hi with heq | hi
        · obtain ⟨rfl, rfl⟩ := Prod.mk.inj heq
          exact hm.meaning
        · exact hm.grows.node (h.litCache l i (hlit ▸ hi))
      tautologyCache := hm.ok.tautologyCache
      back := hm.ok.back
      constant := hm.ok.constant }

/-- A decision over existing gates. -/
theorem pushDecision_spec {b : XgcfSmoothBuilder} (h : b.Ok) {var childFalse childTrue : Nat}
    (hne : var ≠ 0) (hf : childFalse < b.nodes.length) (ht : childTrue < b.nodes.length)
    : Ends Overflows
        (fun made => Made b
            (fun b' i => b'.nodes[i]? = some (.decision var childFalse childTrue)) made
          ∧ made.2.litCache = b.litCache ∧ made.2.tautologyCache = b.tautologyCache)
        (b.pushDecision var childFalse childTrue) := by
  simp only [pushDecision, hne, if_false]
  exact pushBaseNode_spec h _ (by simp [XgcfNode.children, hf, ht]) (by simp [XgcfNode.vars])

/-- A cached or new tautology. -/
theorem tautologyDecision_spec {b : XgcfSmoothBuilder} (h : b.Ok) {var : Nat} (hne : var ≠ 0)
    : Ends Overflows
        (Made b fun b' i => b'.nodes[i]? = some (.decision var b.const1 b.const1))
        (b.tautologyDecision var) := by
  unfold tautologyDecision
  split
  · next idx hl =>
      have hnode := h.tautologyCache var idx (mem_of_lookup hl)
      exact ⟨h, .refl b, (List.getElem?_eq_some_iff.mp hnode).1, hnode⟩
  · have hlt := (List.getElem?_eq_some_iff.mp h.const1).1
    refine (pushDecision_spec h hne hlt hlt).bind ?_
    intro made hmade
    obtain ⟨hm, -, htaut⟩ := hmade
    refine ⟨?_, ⟨hm.grows.nodes, hm.grows.const0, hm.grows.const1, hm.grows.oldToNew⟩, hm.lt,
      hm.meaning⟩
    exact {
      const0 := hm.ok.const0
      const1 := hm.ok.const1
      litCache := hm.ok.litCache
      tautologyCache := by
        intro v i hi
        rcases List.mem_cons.mp hi with heq | hi
        · obtain ⟨rfl, rfl⟩ := Prod.mk.inj heq
          show made.2.nodes[made.1]? = some (.decision _ made.2.const1 made.2.const1)
          rw [hm.grows.const1]
          exact hm.meaning
        · exact hm.ok.tautologyCache v i (htaut ▸ hi)
      back := hm.ok.back
      constant := hm.ok.constant }

-- Conjunctions and disjunctions

/-- The gate's value is the product over the distinct children. -/
structure Multiplies (children : List Nat) (b : XgcfSmoothBuilder) (i : Nat) : Prop where
  value : ∀ (K : Type) [CommSemiring K] (wt wf : Nat → K) (values : Nat → K),
    SolvesArena (XgcfNode.value wt wf) b.nodes values →
      values i = ∏ child ∈ children.toFinset, values child
  vars : ∀ below, SolvesArena XgcfNode.vars b.nodes below →
    below i ⊆ children.toFinset.biUnion below

/-- The gate's value is the sum over the distinct children. -/
structure Sums (children : List Nat) (b : XgcfSmoothBuilder) (i : Nat) : Prop where
  value : ∀ (K : Type) [CommSemiring K] (wt wf : Nat → K) (values : Nat → K),
    SolvesArena (XgcfNode.value wt wf) b.nodes values →
      values i = ∑ child ∈ children.toFinset, values child
  vars : ∀ below, SolvesArena XgcfNode.vars b.nodes below →
    below i ⊆ children.toFinset.biUnion below

theorem mem_sortDedup {children : List Nat} {child : Nat}
    : child ∈ sortDedup children ↔ child ∈ children := by
  rw [sortDedup, List.mem_dedup, List.mem_insertionSort]

/-- What remains of the children without the neutral one. -/
theorem toFinset_sortDedup (children : List Nat) (neutral : Nat)
    : (sortDedup (children.filter (· ≠ neutral))).toFinset
      = children.toFinset.erase neutral := by
  ext child
  simp [mem_sortDedup, and_comm]

theorem nodup_sortDedup (children : List Nat) : (sortDedup children).Nodup :=
  List.nodup_dedup _

/-- The remaining children are multiplied like all of them. -/
theorem prod_sortDedup {K : Type*} [CommMonoid K] {f : Nat → K} (children : List Nat)
    {neutral : Nat} (hone : f neutral = 1)
    : ((sortDedup (children.filter (· ≠ neutral))).map f).prod
      = ∏ child ∈ children.toFinset, f child := by
  rw [← List.prod_toFinset f (nodup_sortDedup _), toFinset_sortDedup,
    Finset.prod_erase _ hone]

theorem sum_sortDedup {K : Type*} [AddCommMonoid K] {f : Nat → K} (children : List Nat)
    {neutral : Nat} (hzero : f neutral = 0)
    : ((sortDedup (children.filter (· ≠ neutral))).map f).sum
      = ∑ child ∈ children.toFinset, f child := by
  rw [← List.sum_toFinset f (nodup_sortDedup _), toFinset_sortDedup,
    Finset.sum_erase _ hzero]

/-- An existing gate that is not a constant has a variable. -/
theorem Ok.nonempty_below {b : XgcfSmoothBuilder} (h : b.Ok) {below : Nat → Finset Nat}
    (hbelow : SolvesArena XgcfNode.vars b.nodes below) {i : Nat} (hi : i < b.nodes.length)
    (hne0 : i ≠ b.const0) (hne1 : i ≠ b.const1)
    : (below i).Nonempty := by
  rw [Finset.nonempty_iff_ne_empty]
  intro hempty
  exact (h.constant below hbelow i hi hempty).elim hne0 hne1

/-- The conjunction of existing gates. -/
theorem pushAnd_spec {b : XgcfSmoothBuilder} (h : b.Ok) {children : List Nat}
    (hchildren : ∀ child ∈ children, child < b.nodes.length)
    : Ends Overflows (Made b (Multiplies children)) (b.pushAnd children) := by
  have hlt0 := (List.getElem?_eq_some_iff.mp h.const0).1
  have hlt1 := (List.getElem?_eq_some_iff.mp h.const1).1
  have hmem {child : Nat} (hc : child ∈ sortDedup (children.filter (· ≠ b.const1)))
      : child ∈ children ∧ child ≠ b.const1 := by
    simpa [mem_sortDedup] using hc
  have hprod (K : Type) [CommSemiring K] (wt wf : Nat → K) (values : Nat → K)
      (hv : SolvesArena (XgcfNode.value wt wf) b.nodes values) :=
    prod_sortDedup children (hv _ _ h.const1 : values b.const1 = 1)
  unfold pushAnd
  generalize sortDedup (children.filter (· ≠ b.const1)) = kept at hmem hprod ⊢
  split
  · next hzero =>
      refine ⟨h, .refl b, hlt0, ?_, ?_⟩
      · intro K _ wt wf values hv
        have hv0 : values b.const0 = 0 := hv _ _ h.const0
        rw [hv0, Finset.prod_eq_zero (List.mem_toFinset.mpr hzero) hv0]
      · intro below hb
        rw [hb _ _ h.const0]
        exact Finset.empty_subset _
  · next hzero =>
      split
      · refine ⟨h, .refl b, hlt1, ?_, ?_⟩
        · intro K _ wt wf values hv
          rw [← hprod K wt wf values hv]
          exact hv _ _ h.const1
        · intro below hb
          rw [hb _ _ h.const1]
          exact Finset.empty_subset _
      · next only =>
          have hin := (hmem (List.mem_singleton_self only)).1
          refine ⟨h, .refl b, hchildren only hin, ?_, ?_⟩
          · intro K _ wt wf values hv
            rw [← hprod K wt wf values hv]
            simp
          · intro below _
            exact Finset.subset_biUnion_of_mem below (List.mem_toFinset.mpr hin)
      · next hnil _ =>
          have hnonempty (below : Nat → Finset Nat)
              (hb : SolvesArena XgcfNode.vars b.nodes below)
              : ((XgcfNode.and kept).vars below).Nonempty := by
            obtain ⟨first, hf⟩ := List.exists_mem_of_ne_nil kept hnil
            obtain ⟨hin, hne1⟩ := hmem hf
            have hne0 : first ≠ b.const0 := fun he => hzero (he ▸ hin)
            exact (h.nonempty_below hb (hchildren first hin) hne0 hne1).mono
              (Finset.subset_biUnion_of_mem below (List.mem_toFinset.mpr hf))
          refine (pushBaseNode_spec h (.and kept)
            (fun child hc => hchildren child (hmem hc).1) hnonempty).mono ?_
          intro made hmade
          obtain ⟨hm, -, -⟩ := hmade
          refine ⟨hm.ok, hm.grows, hm.lt, ?_, ?_⟩
          · intro K _ wt wf values hv
            rw [hv _ _ hm.meaning, ← hprod K wt wf values (hv.of_prefix hm.grows.nodes)]
            rfl
          · intro below hb
            rw [hb _ _ hm.meaning]
            apply Finset.biUnion_subset_biUnion_of_subset_left
            intro child hc
            exact List.mem_toFinset.mpr (hmem (List.mem_toFinset.mp hc)).1

/-- The disjunction of existing gates. -/
theorem pushOr_spec {b : XgcfSmoothBuilder} (h : b.Ok) {children : List Nat}
    (hchildren : ∀ child ∈ children, child < b.nodes.length)
    : Ends Overflows (Made b (Sums children)) (b.pushOr children) := by
  have hlt0 := (List.getElem?_eq_some_iff.mp h.const0).1
  have hmem {child : Nat} (hc : child ∈ sortDedup (children.filter (· ≠ b.const0)))
      : child ∈ children ∧ child ≠ b.const0 := by
    simpa [mem_sortDedup] using hc
  have hnodup := nodup_sortDedup (children.filter (· ≠ b.const0))
  have hsum (K : Type) [CommSemiring K] (wt wf : Nat → K) (values : Nat → K)
      (hv : SolvesArena (XgcfNode.value wt wf) b.nodes values) :=
    sum_sortDedup children (hv _ _ h.const0 : values b.const0 = 0)
  unfold pushOr
  generalize sortDedup (children.filter (· ≠ b.const0)) = kept at hmem hnodup hsum ⊢
  split
  · refine ⟨h, .refl b, hlt0, ?_, ?_⟩
    · intro K _ wt wf values hv
      rw [← hsum K wt wf values hv]
      exact hv _ _ h.const0
    · intro below hb
      rw [hb _ _ h.const0]
      exact Finset.empty_subset _
  · next only =>
      have hin := (hmem (List.mem_singleton_self only)).1
      refine ⟨h, .refl b, hchildren only hin, ?_, ?_⟩
      · intro K _ wt wf values hv
        rw [← hsum K wt wf values hv]
        simp
      · intro below _
        exact Finset.subset_biUnion_of_mem below (List.mem_toFinset.mpr hin)
  · next hnil hsingle =>
      -- two distinct children are left, so one of them is no constant
      have hnonempty (below : Nat → Finset Nat)
          (hb : SolvesArena XgcfNode.vars b.nodes below)
          : ((XgcfNode.or kept).vars below).Nonempty := by
        have hother : ∃ child ∈ kept, child ≠ b.const1 := by
          by_contra hall
          push Not at hall
          match kept, hnil, hsingle, hall, hnodup with
          | [], hnil, _, _, _ => exact hnil rfl
          | [only], _, hsingle, _, _ => exact hsingle only rfl
          | one :: two :: rest, _, _, hall, hnodup =>
              have h1 := hall one (by simp)
              have h2 := hall two (by simp)
              simp [h1, h2] at hnodup
        obtain ⟨child, hc, hne1⟩ := hother
        obtain ⟨hin, hne0⟩ := hmem hc
        exact (h.nonempty_below hb (hchildren child hin) hne0 hne1).mono
          (Finset.subset_biUnion_of_mem below (List.mem_toFinset.mpr hc))
      refine (pushBaseNode_spec h (.or kept)
        (fun child hc => hchildren child (hmem hc).1) hnonempty).mono ?_
      intro made hmade
      obtain ⟨hm, -, -⟩ := hmade
      refine ⟨hm.ok, hm.grows, hm.lt, ?_, ?_⟩
      · intro K _ wt wf values hv
        rw [hv _ _ hm.meaning, ← hsum K wt wf values (hv.of_prefix hm.grows.nodes)]
        rfl
      · intro below hb
        rw [hb _ _ hm.meaning]
        apply Finset.biUnion_subset_biUnion_of_subset_left
        intro child hc
        exact List.mem_toFinset.mpr (hmem (List.mem_toFinset.mp hc)).1

-- Padding

/-- The gates are the tautologies of the variables, in order. -/
def Tautologies (b : XgcfSmoothBuilder) (vars padding : List Nat) : Prop :=
  List.Forall₂ (fun var i => b.nodes[i]? = some (.decision var b.const1 b.const1)) vars padding

/-- The tautologies of random variables, by list induction. -/
theorem tautologies_spec {isRandomVar : List Bool} {b : XgcfSmoothBuilder} (h : b.Ok)
    {vars : List Nat} (hne : ∀ var ∈ vars, var ≠ 0)
    (hrandom : ∀ var ∈ vars, isRandom isRandomVar var = true)
    : Ends Overflows
        (fun made : List Nat × XgcfSmoothBuilder =>
          made.2.Ok ∧ Grows b made.2 ∧ Tautologies made.2 vars made.1)
        (b.tautologies isRandomVar vars) := by
  induction vars generalizing b with
  | nil => exact ⟨h, .refl b, List.Forall₂.nil⟩
  | cons var vars ih =>
      obtain ⟨hv, hne⟩ := List.forall_mem_cons.mp hne
      obtain ⟨hr, hrandom⟩ := List.forall_mem_cons.mp hrandom
      simp only [tautologies, hr, if_true]
      refine (tautologyDecision_spec h hv).bind ?_
      intro first hfirst
      refine (ih hfirst.ok hne hrandom).bind ?_
      intro rest hrest
      obtain ⟨hok, hgrows, htaut⟩ := hrest
      refine ⟨hok, hfirst.grows.trans hgrows, List.Forall₂.cons ?_ htaut⟩
      rw [hgrows.const1, hfirst.grows.const1]
      exact hgrows.node hfirst.meaning

theorem Tautologies.lt {b : XgcfSmoothBuilder} {vars padding : List Nat}
    (h : Tautologies b vars padding)
    : ∀ i ∈ padding, i < b.nodes.length := by
  intro i hi
  obtain ⟨k, hk, rfl⟩ := List.getElem_of_mem hi
  have hnode := h.get (h.length_eq ▸ hk) hk
  exact (List.getElem?_eq_some_iff.mp hnode).1

/-- A tautology mentions its own variable. -/
theorem Tautologies.exists_var {b : XgcfSmoothBuilder} {vars padding : List Nat}
    (h : Tautologies b vars padding) {i : Nat} (hi : i ∈ padding)
    : ∃ var ∈ vars, b.nodes[i]? = some (.decision var b.const1 b.const1) := by
  obtain ⟨k, hk, rfl⟩ := List.getElem_of_mem hi
  have hlt : k < vars.length := h.length_eq ▸ hk
  exact ⟨vars[k], List.getElem_mem hlt, h.get hlt hk⟩

/-- Distinct variables have distinct tautologies, by induction on the list. -/
theorem Tautologies.nodup {b : XgcfSmoothBuilder} {vars padding : List Nat}
    (h : Tautologies b vars padding) (hnodup : vars.Nodup)
    : padding.Nodup := by
  induction h with
  | nil => exact List.nodup_nil
  | @cons var i vars padding hi hrest ih =>
      obtain ⟨hvar, hnodup⟩ := List.nodup_cons.mp hnodup
      refine List.nodup_cons.mpr ⟨?_, ih hnodup⟩
      intro hm
      obtain ⟨other, ho, hother⟩ := Tautologies.exists_var hrest hm
      rw [hi] at hother
      obtain ⟨rfl, -, -⟩ := XgcfNode.decision.inj (Option.some.inj hother)
      exact hvar ho

/-- Each tautology is worth the sum of its variable's weights, by induction on the list. -/
theorem Tautologies.prod {b : XgcfSmoothBuilder} (hok : b.Ok) {vars padding : List Nat}
    (h : Tautologies b vars padding) {K : Type} [CommSemiring K] {wt wf values : Nat → K}
    (hv : SolvesArena (XgcfNode.value wt wf) b.nodes values)
    : (padding.map values).prod = (vars.map fun v => wt v + wf v).prod := by
  have hone : values b.const1 = 1 := hv _ _ hok.const1
  induction h with
  | nil => rfl
  | @cons var i vars padding hi _ ih =>
      have hvalue : values i = wt var + wf var := by
        rw [hv _ _ hi, XgcfNode.value, hone, mul_one, mul_one, add_comm]
      simp only [List.map_cons, List.prod_cons, hvalue, ih]

/-- The gate's value is the child's times the weights of the missing variables. -/
structure Pads (child : Nat) (missing : List Nat) (b : XgcfSmoothBuilder) (i : Nat) : Prop where
  value : ∀ (K : Type) [CommSemiring K] (wt wf : Nat → K) (values : Nat → K),
    SolvesArena (XgcfNode.value wt wf) b.nodes values →
      values i = values child * ∏ v ∈ missing.toFinset, (wt v + wf v)
  vars : ∀ below, SolvesArena XgcfNode.vars b.nodes below →
    below i ⊆ below child ∪ missing.toFinset

/-- A child padded with random variables that do not occur below it. -/
theorem padMissing_spec {isRandomVar : List Bool} {b : XgcfSmoothBuilder} (h : b.Ok)
    {child : Nat} (hc : child < b.nodes.length) {missing : List Nat}
    (hne : ∀ var ∈ missing, var ≠ 0)
    (hrandom : ∀ var ∈ missing, isRandom isRandomVar var = true) (hnodup : missing.Nodup)
    (hfresh : ∀ below, SolvesArena XgcfNode.vars b.nodes below →
      ∀ var ∈ missing, var ∉ below child)
    : Ends Overflows (Made b (Pads child missing)) (b.padMissing isRandomVar child missing) := by
  unfold padMissing
  split
  · next hempty =>
      obtain rfl := List.isEmpty_iff.mp hempty
      refine ⟨h, .refl b, hc, ?_, ?_⟩
      · intro K _ wt wf values _
        simp
      · intro below _
        exact Finset.subset_union_left
  · refine (tautologies_spec h hne hrandom).bind ?_
    rintro ⟨padding, b'⟩ ⟨hok, hgrows, htaut⟩
    have hlt : ∀ i ∈ child :: padding, i < b'.nodes.length :=
      List.forall_mem_cons.mpr ⟨hgrows.lt hc, htaut.lt⟩
    have hdistinct : (child :: padding).Nodup := by
      refine List.nodup_cons.mpr ⟨?_, htaut.nodup hnodup⟩
      intro hm
      obtain ⟨var, hvar, hnode⟩ := htaut.exists_var hm
      obtain ⟨below, hbelow⟩ := exists_solvesArena local_vars hok.back
      apply hfresh below (hbelow.of_prefix hgrows.nodes) var hvar
      rw [hbelow _ _ hnode]
      exact Finset.mem_insert_self _ _
    refine (pushAnd_spec hok hlt).mono ?_
    intro made hm
    refine ⟨hm.ok, hgrows.trans hm.grows, hm.lt, ?_, ?_⟩
    · intro K _ wt wf values hv
      have hv' := hv.of_prefix hm.grows.nodes
      rw [hm.meaning.value K wt wf values hv, List.prod_toFinset values hdistinct,
        List.map_cons, List.prod_cons, htaut.prod hok hv', List.prod_toFinset _ hnodup]
    · intro below hb
      have hb' := hb.of_prefix hm.grows.nodes
      refine (hm.meaning.vars below hb).trans (Finset.biUnion_subset.mpr ?_)
      intro i hi
      rcases List.mem_cons.mp (List.mem_toFinset.mp hi) with rfl | hi
      · exact Finset.subset_union_left
      · obtain ⟨var, hvar, hnode⟩ := htaut.exists_var hi
        rw [hb' _ _ hnode]
        intro v hv
        have hempty : below b'.const1 = ∅ := hb' _ _ hok.const1
        simp only [XgcfNode.vars, hempty, Finset.union_empty, Finset.mem_insert,
          Finset.notMem_empty, or_false] at hv
        exact Finset.mem_union_right _ (List.mem_toFinset.mpr (hv ▸ hvar))

end XgcfSmoothBuilder

end Xlog.Prob
