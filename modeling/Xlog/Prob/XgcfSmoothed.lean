import Xlog.Prob.XgcfCount
import Xlog.Prob.XgcfGates

/-! Every gate made while smoothing is worth the weighted count of the gate it was made for. The
loop over the levels keeps this for all gates finished so far.
-/

namespace Xlog.Prob

open Xlog.Core Xlog.Foundation Xgcf

-- Repeated children

/-- Two lists related item by item have related pairs, by list induction. -/
theorem pairwise_of_forall₂ {α β : Type*} {related : α → β → Prop} {R : α → α → Prop}
    {S : β → β → Prop} {as : List α} {bs : List β} (h : List.Forall₂ related as bs)
    (pairs : as.Pairwise R)
    (transfer : ∀ a ∈ as, ∀ a' ∈ as, ∀ b b', related a b → related a' b' → R a a' → S b b')
    : bs.Pairwise S := by
  induction h with
  | nil => exact List.Pairwise.nil
  | @cons a b as bs hab hrest ih =>
      obtain ⟨hfirst, pairs⟩ := List.pairwise_cons.mp pairs
      refine List.pairwise_cons.mpr ⟨?_, ?_⟩
      · intro b' hb'
        obtain ⟨k, hk, rfl⟩ := List.getElem_of_mem hb'
        have hlt : k < as.length := hrest.length_eq ▸ hk
        have hmem := List.getElem_mem hlt
        exact transfer a (by simp) _ (List.mem_cons_of_mem _ hmem) b _ hab (hrest.get hlt hk)
          (hfirst _ hmem)
      · apply ih pairs
        intro a ha a' ha'
        exact transfer a (List.mem_cons_of_mem _ ha) a' (List.mem_cons_of_mem _ ha')

/-- An item that occurs twice has the property of equal pairs, by list induction. -/
theorem of_count_ne_one {items : List Nat} {P : Nat → Prop}
    (pairs : items.Pairwise fun a b => a = b → P a) {item : Nat} (hi : item ∈ items)
    (twice : items.count item ≠ 1)
    : P item := by
  induction items with
  | nil => simp at hi
  | cons head items ih =>
      obtain ⟨hfirst, pairs⟩ := List.pairwise_cons.mp pairs
      by_cases hmem : item ∈ items
      · by_cases he : head = item
        · subst he
          exact hfirst head hmem rfl
        · rw [List.count_cons_of_ne he] at twice
          exact ih pairs hmem twice
      · obtain rfl : item = head := (List.mem_cons.mp hi).resolve_right hmem
        rw [List.count_cons_self, List.count_eq_zero_of_not_mem hmem] at twice
        exact absurd rfl twice

/-- Idempotent repetitions do not change a product. -/
theorem prod_toFinset_of_repeated {K : Type*} [CommMonoid K] {f : Nat → K} {items : List Nat}
    (pairs : items.Pairwise fun a b => a = b → f a * f a = f a)
    : ∏ item ∈ items.toFinset, f item = (items.map f).prod := by
  rw [Finset.prod_list_map_count]
  apply Finset.prod_congr rfl
  intro item hi
  have hmem := List.mem_toFinset.mp hi
  by_cases hone : items.count item = 1
  · rw [hone, pow_one]
  · have hidem : IsIdempotentElem (f item) := of_count_ne_one pairs hmem hone
    have hpos := List.count_pos_iff.mpr hmem
    rw [hidem.pow_eq hpos.ne']

/-- Repetitions worth zero do not change a sum. -/
theorem sum_toFinset_of_repeated {K : Type*} [AddCommMonoid K] {f : Nat → K} {items : List Nat}
    (pairs : items.Pairwise fun a b => a = b → f a = 0)
    : ∑ item ∈ items.toFinset, f item = (items.map f).sum := by
  rw [Finset.sum_list_map_count]
  apply Finset.sum_congr rfl
  intro item hi
  by_cases hone : items.count item = 1
  · rw [hone, one_nsmul]
  · have hzero := of_count_ne_one pairs (List.mem_toFinset.mp hi) hone
    rw [hzero, nsmul_zero]

-- Gates

namespace XgcfSmoothBuilder

variable {g : Xgcf} {isRandomVar : List Bool}

/-- The new gate is worth the old gate's count and mentions no other variables. -/
structure Means (g : Xgcf) (isRandomVar : List Bool) (idx : Nat) (b : XgcfSmoothBuilder)
    (i : Nat) : Prop where
  value : ∀ (K : Type) [CommSemiring K] (wt wf : Nat → K) (values : Nat → K),
    SolvesArena (XgcfNode.value wt wf) b.nodes values →
      values i = g.count isRandomVar wt wf idx
  vars : ∀ below, SolvesArena XgcfNode.vars b.nodes below → below i ⊆ g.varsBelow idx

theorem Means.grows {idx i : Nat} {b b' : XgcfSmoothBuilder} (h : Means g isRandomVar idx b i)
    (hgrows : Grows b b')
    : Means g isRandomVar idx b' i where
  value := fun K _ wt wf values hv => h.value K wt wf values (hv.of_prefix hgrows.nodes)
  vars := fun below hb => h.vars below (hb.of_prefix hgrows.nodes)

/-- The new gate is worth the old gate's count over all the given random variables. -/
structure Padded (g : Xgcf) (isRandomVar : List Bool) (all : Finset Nat) (idx : Nat)
    (b : XgcfSmoothBuilder) (i : Nat) : Prop where
  value : ∀ (K : Type) [CommSemiring K] (wt wf : Nat → K) (values : Nat → K),
    SolvesArena (XgcfNode.value wt wf) b.nodes values →
      values i = g.count isRandomVar wt wf idx
        * ∏ v ∈ all \ g.randomBelow isRandomVar idx, (wt v + wf v)
  vars : ∀ below, SolvesArena XgcfNode.vars b.nodes below → below i ⊆ g.varsBelow idx ∪ all

theorem Padded.grows {all : Finset Nat} {idx i : Nat} {b b' : XgcfSmoothBuilder}
    (h : Padded g isRandomVar all idx b i) (hgrows : Grows b b')
    : Padded g isRandomVar all idx b' i where
  value := fun K _ wt wf values hv => h.value K wt wf values (hv.of_prefix hgrows.nodes)
  vars := fun below hb => h.vars below (hb.of_prefix hgrows.nodes)

/-- The gates before the current one are mapped to gates worth their counts. -/
structure Smoothed (g : Xgcf) (isRandomVar : List Bool) (before : List Nat)
    (b : XgcfSmoothBuilder) : Prop where
  ok : b.Ok
  mapped : ∀ idx ∈ before, ∃ i, b.oldToNew idx = some i ∧ i < b.nodes.length
    ∧ Means g isRandomVar idx b i

theorem Smoothed.mapped_ends {before : List Nat} {b : XgcfSmoothBuilder}
    (h : Smoothed g isRandomVar before b) {idx : Nat} (hi : idx ∈ before) (text : String)
    : Ends Overflows (fun i => i < b.nodes.length ∧ Means g isRandomVar idx b i)
        (b.mapped idx text) := by
  obtain ⟨i, hmap, hlt, hmeans⟩ := h.mapped idx hi
  simp only [XgcfSmoothBuilder.mapped, hmap]
  exact ⟨hlt, hmeans⟩

theorem Smoothed.grows {before : List Nat} {b b' : XgcfSmoothBuilder}
    (h : Smoothed g isRandomVar before b) (ok : b'.Ok) (hgrows : Grows b b')
    : Smoothed g isRandomVar before b' where
  ok := ok
  mapped := by
    intro idx hi
    obtain ⟨i, hmap, hlt, hmeans⟩ := h.mapped idx hi
    exact ⟨i, by rw [hgrows.oldToNew, hmap], hgrows.lt hlt, hmeans.grows hgrows⟩

end XgcfSmoothBuilder

/-- No gate has the variable zero below it, by induction over the order. -/
theorem Xgcf.WellFormed.zero_notMem_varsBelow {g : Xgcf} (wf : g.WellFormed) {idx : Nat}
    (hi : idx ∈ g.order)
    : 0 ∉ g.varsBelow idx := by
  refine wf.isOrdered.induction (motive := fun idx => 0 ∉ g.varsBelow idx) ?_ idx hi
  intro idx hi ih
  have hmem := wf.node_mem hi
  rw [wf.varsBelow_eq hi]
  cases hn : g.node idx with
  | const0 | const1 => simp [XgcfNode.vars]
  | lit literal =>
      have hne := wf.lit_ne_zero literal (hn ▸ hmem)
      simp only [XgcfNode.vars, Finset.mem_singleton]
      omega
  | and children | or children =>
      simp only [hn, XgcfNode.children] at ih
      simpa [XgcfNode.vars] using ih
  | decision var childFalse childTrue =>
      have hne := wf.var_ne_zero var childFalse childTrue (hn ▸ hmem)
      simp only [hn, XgcfNode.children, List.mem_cons, List.not_mem_nil, or_false,
        forall_eq_or_imp, forall_eq] at ih
      simp only [XgcfNode.vars, Finset.mem_insert, Finset.mem_union, not_or]
      exact ⟨hne.symm, ih⟩

namespace XgcfSmoothBuilder

variable {g : Xgcf} {isRandomVar : List Bool}

/-- Padding a mapped child with the rest of a larger support. -/
theorem Means.padMissing {b : XgcfSmoothBuilder} (hok : b.Ok) {child i : Nat}
    (h : Means g isRandomVar child b i) (hlt : i < b.nodes.length) {support whole : List Nat}
    (hsupport : IsSupport g isRandomVar child support) (hwhole : Increasing whole)
    {all : Finset Nat} (hall : ∀ v, v ∈ whole ↔ v ∈ all)
    (hrandom : ∀ v ∈ all, v ≠ 0 ∧ isRandom isRandomVar v = true)
    : Ends Overflows (Made b (Padded g isRandomVar all child))
        (b.padMissing isRandomVar i (sortedDifference whole support)) := by
  have hmem (v : Nat) : v ∈ sortedDifference whole support
      ↔ v ∈ all ∧ v ∉ g.randomBelow isRandomVar child := by
    rw [mem_sortedDifference hwhole hsupport.increasing, hall, hsupport.mem_iff]
  have hfinset : (sortedDifference whole support).toFinset
      = all \ g.randomBelow isRandomVar child := by
    ext v
    rw [List.mem_toFinset, hmem, Finset.mem_sdiff]
  have hnodup : (sortedDifference whole support).Nodup :=
    (hwhole.imp fun hab => hab.ne).sublist (sublist_sortedDifference whole support)
  refine (padMissing_spec hok hlt (fun v hv => (hrandom v ((hmem v).mp hv).1).1)
    (fun v hv => (hrandom v ((hmem v).mp hv).1).2) hnodup ?_).mono ?_
  · intro below hb v hv hbelow
    obtain ⟨hin, hnot⟩ := (hmem v).mp hv
    exact hnot (mem_randomBelow.mpr ⟨h.vars below hb hbelow, (hrandom v hin).2⟩)
  · intro made hm
    have hgrown := h.grows hm.grows
    refine ⟨hm.ok, hm.grows, hm.lt, ?_, ?_⟩
    · intro K _ wt wf values hv
      rw [hm.meaning.value K wt wf values hv, hgrown.value K wt wf values hv, hfinset]
    · intro below hb
      refine (hm.meaning.vars below hb).trans ?_
      rw [hfinset]
      exact Finset.union_subset_union (hgrown.vars below hb) Finset.sdiff_subset

/-- The padded children of a disjunction, by list induction. -/
theorem wrapChildren_spec {before : List Nat} {b : XgcfSmoothBuilder}
    (h : Smoothed g isRandomVar before b) {support : Nat → List Nat}
    (hsupport : ∀ idx ∈ g.order, IsSupport g isRandomVar idx (support idx)) {idx : Nat}
    (hi : idx ∈ g.order) (wf : g.WellFormed) {children : List Nat}
    (hin : ∀ child ∈ children, child ∈ before ∧ child ∈ g.order)
    : Ends Overflows
        (fun made : List Nat × XgcfSmoothBuilder => made.2.Ok ∧ Grows b made.2
          ∧ List.Forall₂ (fun child i => i < made.2.nodes.length
            ∧ Padded g isRandomVar (g.randomBelow isRandomVar idx) child made.2 i)
              children made.1)
        (b.wrapChildren isRandomVar support idx children) := by
  have hrandom : ∀ v ∈ g.randomBelow isRandomVar idx,
      v ≠ 0 ∧ isRandom isRandomVar v = true := by
    intro v hv
    obtain ⟨hbelow, hr⟩ := mem_randomBelow.mp hv
    exact ⟨ne_of_mem_of_not_mem hbelow (wf.zero_notMem_varsBelow hi), hr⟩
  induction children generalizing b with
  | nil => exact ⟨h.ok, .refl b, List.Forall₂.nil⟩
  | cons child children ih =>
      obtain ⟨⟨hbefore, horder⟩, hin⟩ := List.forall_mem_cons.mp hin
      simp only [wrapChildren]
      refine (h.mapped_ends hbefore _).bind ?_
      intro i hmapped
      obtain ⟨hlt, hmeans⟩ := hmapped
      refine (hmeans.padMissing h.ok hlt (hsupport child horder) (hsupport idx hi).increasing
        (hsupport idx hi).mem_iff hrandom).bind ?_
      intro first hfirst
      refine (ih (h.grows hfirst.ok hfirst.grows) hin).bind ?_
      intro rest hrest
      obtain ⟨hok, hgrows, hall⟩ := hrest
      exact ⟨hok, hfirst.grows.trans hgrows,
        List.Forall₂.cons ⟨hgrows.lt hfirst.lt, hfirst.meaning.grows hgrows⟩ hall⟩

/-- A conjunction of mapped children: a gate shared by two children without common variables is
a constant.
-/
theorem smoothAnd_spec (wf : g.WellFormed) (hdec : g.Decomposable) {b : XgcfSmoothBuilder}
    (hok : b.Ok) {idx : Nat} (hi : idx ∈ g.order) {children news : List Nat}
    (hn : g.node idx = .and children)
    (hnews : List.Forall₂ (fun child i => i < b.nodes.length ∧ Means g isRandomVar child b i)
      children news)
    : Ends Overflows (Made b (Means g isRandomVar idx)) (b.pushAnd news) := by
  have hlt : ∀ i ∈ news, i < b.nodes.length := by
    intro i hm
    obtain ⟨k, hk, rfl⟩ := List.getElem_of_mem hm
    exact (hnews.get (hnews.length_eq ▸ hk) hk).1
  obtain ⟨below, hbelow⟩ := exists_solvesArena local_vars hok.back
  have hshared : news.Pairwise fun i j => i = j → i = b.const0 ∨ i = b.const1 := by
    refine pairwise_of_forall₂ hnews (hdec idx hi children hn) ?_
    rintro child _ child' _ i _ ⟨hlt, hmeans⟩ ⟨-, hmeans'⟩ hapart rfl
    refine hok.constant below hbelow i hlt (Finset.subset_empty.mp ?_)
    rw [← Finset.disjoint_iff_inter_eq_empty.mp hapart]
    exact Finset.subset_inter (hmeans.vars below hbelow) (hmeans'.vars below hbelow)
  refine (pushAnd_spec hok hlt).mono ?_
  intro made hm
  refine ⟨hm.ok, hm.grows, hm.lt, ?_, ?_⟩
  · intro K _ wt wf' values hv
    have hv' := hv.of_prefix hm.grows.nodes
    have hidem : news.Pairwise fun i j => i = j → values i * values i = values i := by
      refine hshared.imp ?_
      intro i j hconst he
      rcases hconst he with rfl | rfl
      · rw [show values b.const0 = 0 from hv' _ _ hok.const0, mul_zero]
      · rw [show values b.const1 = 1 from hv' _ _ hok.const1, mul_one]
    have hcounts : news.map values = children.map (g.count isRandomVar wt wf') := by
      clear hn hidem hshared hlt hm
      induction hnews with
      | nil => rfl
      | cons hci _ ih =>
          rw [List.map_cons, List.map_cons, ih, hci.2.value K wt wf' values hv']
    rw [hm.meaning.value K wt wf' values hv, prod_toFinset_of_repeated hidem, hcounts,
      wf.count_and hdec hi hn]
  · intro below hb
    have hb' := hb.of_prefix hm.grows.nodes
    refine (hm.meaning.vars below hb).trans (Finset.biUnion_subset.mpr ?_)
    intro i him
    obtain ⟨k, hk, rfl⟩ := List.getElem_of_mem (List.mem_toFinset.mp him)
    have hkc : k < children.length := hnews.length_eq ▸ hk
    refine ((hnews.get hkc hk).2.vars below hb').trans (wf.varsBelow_child hi ?_)
    rw [hn]
    exact List.getElem_mem hkc

/-- A disjunction of padded children: a gate shared by two exclusive children is worth zero. -/
theorem smoothOr_spec (wf : g.WellFormed) (hdec : g.Decomposable) (hdet : g.Deterministic)
    (hfresh : g.FreshDecisions) {b : XgcfSmoothBuilder} (hok : b.Ok) {idx : Nat}
    (hi : idx ∈ g.order) {children wrapped : List Nat} (hn : g.node idx = .or children)
    (hwrapped : List.Forall₂ (fun child i => i < b.nodes.length
      ∧ Padded g isRandomVar (g.randomBelow isRandomVar idx) child b i) children wrapped)
    : Ends Overflows (Made b (Means g isRandomVar idx)) (b.pushOr wrapped) := by
  have hchild (child : Nat) (hc : child ∈ children) : child ∈ (g.node idx).children := by
    rwa [hn]
  have hlt : ∀ i ∈ wrapped, i < b.nodes.length := by
    intro i hm
    obtain ⟨k, hk, rfl⟩ := List.getElem_of_mem hm
    exact (hwrapped.get (hwrapped.length_eq ▸ hk) hk).1
  -- the same gate is true in the same worlds
  have htrue (child i : Nat) (hc : child ∈ children)
      (hpad : Padded g isRandomVar (g.randomBelow isRandomVar idx) child b i)
      (world : Nat → Bool) (values : Nat → Nat)
      (hv : SolvesArena (XgcfNode.value (worldTrue world) (worldFalse world)) b.nodes values)
      : values i ≠ 0 ↔ g.truths world child = true := by
    have hone (v : Nat) : worldTrue world v + worldFalse world v = 1 := by
      unfold worldTrue worldFalse
      split <;> rfl
    have hworld : g.count isRandomVar (worldTrue world) (worldFalse world) child ≠ 0
        ↔ g.truths world child = true :=
      wf.count_world world (wf.isOrdered.children_mem hi (hchild child hc))
    rw [hpad.value Nat _ _ values hv, ← hworld]
    simp [hone]
  have hshared : wrapped.Pairwise fun i j => i = j →
      ∀ (K : Type) [CommSemiring K] (wt wf' : Nat → K) (values : Nat → K),
        SolvesArena (XgcfNode.value wt wf') b.nodes values → values i = 0 := by
    refine pairwise_of_forall₂ hwrapped (hdet idx hi children hn) ?_
    rintro child hc child' hc' i _ ⟨-, hpad⟩ ⟨-, hpad'⟩ hexclusive rfl K _ wt wf' values hv
    have hunsat : ∀ world, g.truths world child = false := by
      intro world
      obtain ⟨counts, hcounts⟩ := exists_solvesArena
        (local_value (worldTrue world) (worldFalse world)) hok.back
      have hone := htrue child i hc hpad world counts hcounts
      have htwo := htrue child' i hc' hpad' world counts hcounts
      rw [Bool.eq_false_iff]
      intro htruth
      exact hexclusive world ⟨htruth, htwo.mp (hone.mpr htruth)⟩
    rw [hpad.value K wt wf' values hv,
      wf.count_eq_zero hdec hfresh (wf.isOrdered.children_mem hi (hchild child hc)) hunsat,
      zero_mul]
  refine (pushOr_spec hok hlt).mono ?_
  intro made hm
  refine ⟨hm.ok, hm.grows, hm.lt, ?_, ?_⟩
  · intro K _ wt wf' values hv
    have hv' := hv.of_prefix hm.grows.nodes
    have hzero : wrapped.Pairwise fun i j => i = j → values i = 0 :=
      hshared.imp fun hs he => hs he K wt wf' values hv'
    have hcounts : wrapped.map values = children.map fun child =>
        g.count isRandomVar wt wf' child
          * ∏ v ∈ g.randomBelow isRandomVar idx \ g.randomBelow isRandomVar child,
            (wt v + wf' v) := by
      clear hn hzero hshared hlt hm htrue hchild
      induction hwrapped with
      | nil => rfl
      | cons hci _ ih =>
          rw [List.map_cons, List.map_cons, ih, hci.2.value K wt wf' values hv']
    rw [hm.meaning.value K wt wf' values hv, sum_toFinset_of_repeated hzero, hcounts,
      wf.count_or hi hn]
  · intro below hb
    have hb' := hb.of_prefix hm.grows.nodes
    refine (hm.meaning.vars below hb).trans (Finset.biUnion_subset.mpr ?_)
    intro i him
    obtain ⟨k, hk, rfl⟩ := List.getElem_of_mem (List.mem_toFinset.mp him)
    have hkc : k < children.length := hwrapped.length_eq ▸ hk
    refine ((hwrapped.get hkc hk).2.vars below hb').trans (Finset.union_subset ?_ ?_)
    · exact wf.varsBelow_child hi (hchild _ (List.getElem_mem hkc))
    · exact Finset.filter_subset _ _

/-- A decision over mapped children, each padded to the support of both. -/
theorem smoothDecision_spec (wf : g.WellFormed) (hfresh : g.FreshDecisions) {before : List Nat}
    {b : XgcfSmoothBuilder} (h : Smoothed g isRandomVar before b) {support : Nat → List Nat}
    (hsupport : ∀ idx ∈ g.order, IsSupport g isRandomVar idx (support idx)) {idx : Nat}
    (hi : idx ∈ g.order) {var childFalse childTrue : Nat}
    (hn : g.node idx = .decision var childFalse childTrue)
    (hchildren : childFalse ∈ before ∧ childTrue ∈ before)
    : Ends Overflows (Made b (Means g isRandomVar idx))
        (b.smoothNode isRandomVar support idx (.decision var childFalse childTrue)) := by
  have hf : childFalse ∈ g.order := wf.isOrdered.children_mem hi (by simp [hn, XgcfNode.children])
  have ht : childTrue ∈ g.order := wf.isOrdered.children_mem hi (by simp [hn, XgcfNode.children])
  obtain ⟨hvf, hvt⟩ := hfresh idx hi var childFalse childTrue hn
  set all := g.randomBelow isRandomVar childFalse ∪ g.randomBelow isRandomVar childTrue with hall
  have hwhole : Increasing (mergeUnionSorted (support childFalse) (support childTrue)) :=
    increasing_mergeUnionSorted (hsupport _ hf).increasing (hsupport _ ht).increasing
  have hmem (v : Nat) : v ∈ mergeUnionSorted (support childFalse) (support childTrue) ↔ v ∈ all := by
    rw [mem_mergeUnionSorted, (hsupport _ hf).mem_iff, (hsupport _ ht).mem_iff, hall,
      Finset.mem_union]
  have hrandom : ∀ v ∈ all, v ≠ 0 ∧ isRandom isRandomVar v = true := by
    intro v hv
    rcases Finset.mem_union.mp hv with hv | hv
    · obtain ⟨hbelow, hr⟩ := mem_randomBelow.mp hv
      exact ⟨ne_of_mem_of_not_mem hbelow (wf.zero_notMem_varsBelow hf), hr⟩
    · obtain ⟨hbelow, hr⟩ := mem_randomBelow.mp hv
      exact ⟨ne_of_mem_of_not_mem hbelow (wf.zero_notMem_varsBelow ht), hr⟩
  have hnot : var ∉ mergeUnionSorted (support childFalse) (support childTrue) := by
    rw [hmem, hall, Finset.mem_union, mem_randomBelow, mem_randomBelow]
    exact fun hv => hv.elim (fun hv => hvf hv.1) fun hv => hvt hv.1
  have hne : var ≠ 0 := wf.var_ne_zero var childFalse childTrue (hn ▸ wf.node_mem hi)
  simp only [smoothNode]
  refine (h.mapped_ends hchildren.1 _).bind ?_
  intro falseNew hfalse
  refine (h.mapped_ends hchildren.2 _).bind ?_
  intro trueNew htrue
  rw [if_neg hnot]
  refine (hfalse.2.padMissing h.ok hfalse.1 (hsupport _ hf) hwhole hmem hrandom).bind ?_
  intro first hfirst
  refine ((htrue.2.grows hfirst.grows).padMissing hfirst.ok (hfirst.grows.lt htrue.1)
    (hsupport _ ht) hwhole hmem hrandom).bind ?_
  intro second hsecond
  refine (pushDecision_spec hsecond.ok hne (hsecond.grows.lt hfirst.lt) hsecond.lt).mono ?_
  intro made hmade
  obtain ⟨hm, -, -⟩ := hmade
  have hpadF := hfirst.meaning.grows (hsecond.grows.trans hm.grows)
  have hpadT := hsecond.meaning.grows hm.grows
  refine ⟨hm.ok, hfirst.grows.trans (hsecond.grows.trans hm.grows), hm.lt, ?_, ?_⟩
  · intro K _ wt wf' values hv
    rw [wf.count_decision hfresh hi hn, ← hpadF.value K wt wf' values hv,
      ← hpadT.value K wt wf' values hv]
    exact hv _ _ hm.meaning
  · intro below hb
    have hvars : g.varsBelow idx
        = insert var (g.varsBelow childFalse ∪ g.varsBelow childTrue) := by
      rw [wf.varsBelow_eq hi, hn]
      rfl
    have hsub : all ⊆ g.varsBelow childFalse ∪ g.varsBelow childTrue :=
      Finset.union_subset_union (Finset.filter_subset _ _) (Finset.filter_subset _ _)
    rw [hb _ _ hm.meaning, hvars]
    apply Finset.insert_subset_insert
    refine Finset.union_subset ((hpadF.vars below hb).trans ?_) ((hpadT.vars below hb).trans ?_)
    · exact Finset.union_subset Finset.subset_union_left hsub
    · exact Finset.union_subset Finset.subset_union_right hsub

/-- One gate of the loop, by cases on the gate. -/
theorem smoothNode_spec (wf : g.WellFormed) (hdec : g.Decomposable) (hdet : g.Deterministic)
    (hfresh : g.FreshDecisions) {before : List Nat} {b : XgcfSmoothBuilder}
    (h : Smoothed g isRandomVar before b) {support : Nat → List Nat}
    (hsupport : ∀ idx ∈ g.order, IsSupport g isRandomVar idx (support idx)) {idx : Nat}
    (hi : idx ∈ g.order) (hchildren : ∀ child ∈ (g.node idx).children, child ∈ before)
    : Ends Overflows (Made b (Means g isRandomVar idx))
        (b.smoothNode isRandomVar support idx (g.node idx)) := by
  have horder : ∀ child ∈ (g.node idx).children, child ∈ g.order :=
    fun child hc => wf.isOrdered.children_mem hi hc
  cases hn : g.node idx with
  | const0 =>
      refine ⟨h.ok, .refl b, (List.getElem?_eq_some_iff.mp h.ok.const0).1, ?_, ?_⟩
      · intro K _ wt wf' values hv
        rw [wf.count_const0 hi hn]
        exact hv _ _ h.ok.const0
      · intro below hb
        rw [hb _ _ h.ok.const0]
        exact Finset.empty_subset _
  | const1 =>
      refine ⟨h.ok, .refl b, (List.getElem?_eq_some_iff.mp h.ok.const1).1, ?_, ?_⟩
      · intro K _ wt wf' values hv
        rw [wf.count_const1 hi hn]
        exact hv _ _ h.ok.const1
      · intro below hb
        rw [hb _ _ h.ok.const1]
        exact Finset.empty_subset _
  | lit literal =>
      have hne := wf.lit_ne_zero literal (hn ▸ wf.node_mem hi)
      refine (getLitNode_spec h.ok hne).mono ?_
      intro made hm
      refine ⟨hm.ok, hm.grows, hm.lt, ?_, ?_⟩
      · intro K _ wt wf' values hv
        rw [wf.count_lit hi hn]
        exact hv _ _ hm.meaning
      · intro below hb
        rw [hb _ _ hm.meaning, wf.varsBelow_eq hi, hn]
        exact Finset.Subset.refl _
  | and children =>
      simp only [hn, XgcfNode.children] at hchildren
      simp only [smoothNode]
      refine (Ends.mapM fun child hc => h.mapped_ends (hchildren child hc) _).bind ?_
      intro news hnews
      exact smoothAnd_spec wf hdec h.ok hi hn hnews
  | or children =>
      simp only [hn, XgcfNode.children] at hchildren horder
      simp only [smoothNode]
      refine (wrapChildren_spec h hsupport hi wf
        fun child hc => ⟨hchildren child hc, horder child hc⟩).bind ?_
      intro wrapped hw
      obtain ⟨hok, hgrows, hall⟩ := hw
      refine (smoothOr_spec wf hdec hdet hfresh hok hi hn hall).mono ?_
      intro made hm
      exact ⟨hm.ok, hgrows.trans hm.grows, hm.lt, hm.meaning⟩
  | decision var childFalse childTrue =>
      refine smoothDecision_spec wf hfresh h hsupport hi hn ?_
      simpa [hn, XgcfNode.children] using hchildren

/-- The whole loop over the levels. -/
theorem smoothSteps_spec (wf : g.WellFormed) (hdec : g.Decomposable) (hdet : g.Deterministic)
    (hfresh : g.FreshDecisions) {support : Nat → List Nat}
    (hsupport : ∀ idx ∈ g.order, IsSupport g isRandomVar idx (support idx))
    : Ends Overflows (Smoothed g isRandomVar g.order)
        (g.order.foldlM (smoothStep isRandomVar support g) .new) := by
  refine Ends.foldlM (Smoothed g isRandomVar) ⟨ok_new, by simp⟩ ?_
  intro before idx after b heq h
  have hi : idx ∈ g.order := by simp [heq]
  unfold smoothStep
  refine (smoothNode_spec wf hdec hdet hfresh h hsupport hi
    (wf.ordered before idx after heq)).bind ?_
  intro made hm
  obtain ⟨hok, hgrows, hlt, hmeans⟩ := hm
  have hgrown := h.grows hok hgrows
  refine ⟨⟨hok.const0, hok.const1, hok.litCache, hok.tautologyCache, hok.back, hok.constant⟩, ?_⟩
  intro other ho
  by_cases he : other = idx
  · subst he
    exact ⟨made.1, by simp, hlt, hmeans.value, hmeans.vars⟩
  · have hb : other ∈ before := by simpa [he] using ho
    obtain ⟨i, hmap, hlt', hmeans'⟩ := hgrown.mapped other hb
    exact ⟨i, by simp [he, hmap], hlt', hmeans'.value, hmeans'.vars⟩

end XgcfSmoothBuilder

end Xlog.Prob
