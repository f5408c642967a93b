import Xlog.Foundation.Buckets
import Xlog.Prob.XgcfSmoothed

/-! Levels of an arena whose gates read earlier ones, and smoothing a circuit: the level table lists every gate
reached once and after its children, and the value of the smoothed circuit is the weighted count of the
old one over the random variables below its root.
-/

namespace Xlog.Prob.Xgcf

open Xlog.Core Xlog.Foundation

/-- Every gate reads earlier ones. -/
def Backward (nodes : List XgcfNode) : Prop :=
  ∀ (i : Nat) node, nodes[i]? = some node → ∀ child ∈ node.children, child < i

/-- A finished gate is in the arena and lies above its finished children. -/
def LevelsOk (nodes : List XgcfNode) (levels : Nat → Option Nat) : Prop :=
  ∀ i lvl, levels i = some lvl → i < nodes.length
    ∧ ∀ child ∈ (nodes.getD i .const0).children, ∃ l, levels child = some l ∧ l < lvl

/-- What a search leaves behind: nothing new on the path, and only gates below the bound are
newly finished.
-/
structure Searched (nodes : List XgcfNode) (bound : Nat) (s s' : LevelTables) : Prop where
  visiting : s'.visiting = s.visiting
  kept : ∀ i lvl, s.levels i = some lvl → s'.levels i = some lvl
  reached : ∀ i lvl, s'.levels i = some lvl → i < bound ∨ s.levels i = some lvl
  ok : LevelsOk nodes s'.levels

theorem Searched.refl {nodes : List XgcfNode} {bound : Nat} {s : LevelTables}
    (h : LevelsOk nodes s.levels)
    : Searched nodes bound s s :=
  ⟨rfl, fun _ _ hi => hi, fun _ _ hi => .inr hi, h⟩

theorem Searched.trans {nodes : List XgcfNode} {bound : Nat} {s s' s'' : LevelTables}
    (h : Searched nodes bound s s') (h' : Searched nodes bound s' s'')
    : Searched nodes bound s s'' where
  visiting := h'.visiting.trans h.visiting
  kept := fun i lvl hi => h'.kept i lvl (h.kept i lvl hi)
  reached := fun i lvl hi => (h'.reached i lvl hi).elim .inl (h.reached i lvl)
  ok := h'.ok

theorem Searched.mono {nodes : List XgcfNode} {bound bound' : Nat} {s s' : LevelTables}
    (h : Searched nodes bound s s') (hle : bound ≤ bound')
    : Searched nodes bound' s s' :=
  ⟨h.visiting, h.kept, fun i lvl hi => (h.reached i lvl hi).imp_left hle.trans_lt', h.ok⟩

/-- The computed level of a finished gate. -/
def Levelled (nodes : List XgcfNode) (s : LevelTables) (idx : Nat)
    (result : Nat × LevelTables) : Prop :=
  Searched nodes (idx + 1) s result.2 ∧ result.2.levels idx = some result.1

/-- The children of a gate are searched one after the other; the level lies above all of them.
-/
theorem aboveChildren_spec {nodes : List XgcfNode}
    {compute : LevelTables → Nat → Result (Nat × LevelTables)} {children : List Nat}
    {bound : Nat} (hbound : ∀ child ∈ children, child < bound) {s : LevelTables}
    (ok : LevelsOk nodes s.levels)
    (hcompute : ∀ t : LevelTables, t.visiting = s.visiting → LevelsOk nodes t.levels →
      ∀ child ∈ children,
        Ends (fun _ : XlogError => False) (Levelled nodes t child) (compute t child))
    : Ends (fun _ : XlogError => False)
        (fun result : Nat × LevelTables => Searched nodes bound s result.2
          ∧ ∀ child ∈ children, ∃ l, result.2.levels child = some l ∧ l < result.1)
        (aboveChildren compute children s) := by
  unfold aboveChildren
  refine (Ends.foldlM (fun before (state : Nat × LevelTables) => Searched nodes bound s state.2
    ∧ ∀ child ∈ before, ∃ l, state.2.levels child = some l ∧ l ≤ state.1)
    ⟨.refl ok, by simp⟩ ?_).bind ?_
  · intro before child after state heq h
    obtain ⟨hs, hbefore⟩ := h
    refine (hcompute state.2 hs.visiting hs.ok child (by simp [heq])).bind ?_
    intro result hresult
    obtain ⟨hs', hlevel⟩ := hresult
    refine ⟨hs.trans (hs'.mono (hbound child (by simp [heq]))), ?_⟩
    intro other ho
    rcases List.mem_append.mp ho with ho | ho
    · obtain ⟨l, hl, hle⟩ := hbefore other ho
      exact ⟨l, hs'.kept other l hl, hle.trans (le_max_left _ _)⟩
    · obtain rfl := List.mem_singleton.mp ho
      exact ⟨result.1, hlevel, le_max_right _ _⟩
  · intro state h
    refine ⟨h.1, ?_⟩
    intro child hc
    obtain ⟨l, hl, hle⟩ := h.2 child hc
    exact ⟨l, hl, Nat.lt_succ_of_le hle⟩

/-- The level of a gate from those of its children, by cases on the gate. -/
theorem nodeLevelOf_spec {nodes : List XgcfNode}
    {compute : LevelTables → Nat → Result (Nat × LevelTables)} {node : XgcfNode}
    {bound : Nat} (hbound : ∀ child ∈ node.children, child < bound) {s : LevelTables}
    (ok : LevelsOk nodes s.levels)
    (hcompute : ∀ t : LevelTables, t.visiting = s.visiting → LevelsOk nodes t.levels →
      ∀ child ∈ node.children,
        Ends (fun _ : XlogError => False) (Levelled nodes t child) (compute t child))
    : Ends (fun _ : XlogError => False)
        (fun result : Nat × LevelTables => Searched nodes bound s result.2
          ∧ ∀ child ∈ node.children, ∃ l, result.2.levels child = some l ∧ l < result.1)
        (nodeLevelOf compute s node) := by
  cases node with
  | const0 | const1 | lit _ => exact ⟨.refl ok, by simp [XgcfNode.children]⟩
  | and children | or children => exact aboveChildren_spec hbound ok hcompute
  | decision var childFalse childTrue =>
      simp only [XgcfNode.children, List.mem_cons, List.not_mem_nil, or_false] at hbound hcompute
      simp only [nodeLevelOf, XgcfNode.children]
      refine (hcompute s rfl ok childFalse (.inl rfl)).bind ?_
      intro first hf
      obtain ⟨hs, hlevelF⟩ := hf
      replace hs := hs.mono (hbound childFalse (.inl rfl))
      refine (hcompute first.2 hs.visiting hs.ok childTrue (.inr rfl)).bind ?_
      intro second ht
      obtain ⟨hs', hlevelT⟩ := ht
      refine ⟨hs.trans (hs'.mono (hbound childTrue (.inr rfl))), ?_⟩
      intro child hc
      simp only [List.mem_cons, List.not_mem_nil, or_false] at hc
      rcases hc with rfl | rfl
      · exact ⟨first.1, hs'.kept _ _ hlevelF, Nat.lt_succ_of_le (le_max_left _ _)⟩
      · exact ⟨second.1, hlevelT, Nat.lt_succ_of_le (le_max_right _ _)⟩

/-- The recursive search succeeds when the gates on the path come later, by induction on the
fuel.
-/
theorem levelOf_spec {nodes : List XgcfNode} (back : Backward nodes) (fuel : Nat)
    (s : LevelTables) (idx : Nat) (hidx : idx < nodes.length) (hfuel : idx < fuel)
    (ok : LevelsOk nodes s.levels) (hpath : ∀ i, s.visiting i = true → idx < i)
    : Ends (fun _ : XlogError => False) (Levelled nodes s idx) (levelOf nodes fuel s idx) := by
  induction fuel generalizing s idx with
  | zero => omega
  | succ fuel ih =>
      rw [levelOf]
      split
      · next lvl hl => exact ⟨.refl ok, hl⟩
      · next hl =>
          have hnot : s.visiting idx = false := by
            rw [Bool.eq_false_iff]
            intro h
            exact absurd (hpath idx h) (lt_irrefl idx)
          simp only [hnot, Bool.false_eq_true, if_false]
          have hnode : nodes[idx]? = some (nodes.getD idx .const0) := by
            rw [List.getD_eq_getElem?_getD, List.getElem?_eq_getElem hidx, Option.getD_some]
          set entered : LevelTables := { s with visiting := Function.update s.visiting idx true }
            with hentered
          have hcompute : ∀ t : LevelTables, t.visiting = entered.visiting →
              LevelsOk nodes t.levels → ∀ child ∈ (nodes.getD idx .const0).children,
                Ends (fun _ : XlogError => False) (Levelled nodes t child)
                  (levelOf nodes fuel t child) := by
            intro t hv hok child hc
            have hlt := back idx _ hnode child hc
            refine ih t child (hlt.trans hidx) (by omega) hok ?_
            intro i hi
            rw [hv, hentered] at hi
            by_cases he : i = idx
            · exact he ▸ hlt
            · simp only [Function.update_of_ne he] at hi
              exact hlt.trans (hpath i hi)
          refine (nodeLevelOf_spec (back idx _ hnode) (s := entered) ok hcompute).bind ?_
          intro result h
          obtain ⟨hs, habove⟩ := h
          have hkept (i lvl : Nat) (hi : result.2.levels i = some lvl) (hne : i ≠ idx)
              : Function.update result.2.levels idx (some result.1) i = some lvl := by
            rw [Function.update_of_ne hne, hi]
          have hnew (lvl : Nat) : result.2.levels idx ≠ some lvl := by
            intro hi
            rcases hs.reached idx lvl hi with hlt | hold
            · exact lt_irrefl idx hlt
            · exact absurd (hl.symm.trans hold) (by simp)
          refine ⟨⟨?_, ?_, ?_, ?_⟩, Function.update_self _ _ _⟩
          · simp only [hs.visiting, hentered]
            rw [Function.update_idem, ← hnot, Function.update_eq_self]
          · intro i lvl hi
            refine hkept i lvl (hs.kept i lvl hi) ?_
            rintro rfl
            exact hnew lvl (hs.kept i lvl hi)
          · intro i lvl hi
            by_cases he : i = idx
            · exact .inl (by omega)
            · simp only [Function.update_of_ne he] at hi
              exact (hs.reached i lvl hi).imp_left fun hlt => by omega
          · intro i lvl hi
            by_cases he : i = idx
            · subst he
              simp only [Function.update_self, Option.some.injEq] at hi
              subst hi
              refine ⟨hidx, ?_⟩
              intro child hc
              obtain ⟨l, hcl, hlt⟩ := habove child hc
              exact ⟨l, hkept child l hcl (back i _ hnode child hc).ne, hlt⟩
            · simp only [Function.update_of_ne he] at hi
              obtain ⟨hlt, hchildren⟩ := hs.ok i lvl hi
              refine ⟨hlt, ?_⟩
              intro child hc
              obtain ⟨l, hcl, hlt⟩ := hchildren child hc
              exact ⟨l, hkept child l hcl (fun hce => hnew l (hce ▸ hcl)), hlt⟩

/-- The level table lists every gate it reached once and after its children, and the roots. -/
structure Levels (nodes : List XgcfNode) (roots : List Nat) (levels : List (List Nat))
    : Prop where
  distinct : levels.flatten.Nodup
  inside : ∀ idx ∈ levels.flatten, idx < nodes.length
  ordered : Ordered (fun idx => nodes.getD idx .const0) levels.flatten
  roots : ∀ root ∈ roots, root ∈ levels.flatten

/-- On an arena whose gates read earlier ones the levels are computed. -/
theorem levelize_spec {nodes : List XgcfNode} (back : Backward nodes) {roots : List Nat}
    (inside : ∀ root ∈ roots, root < nodes.length)
    : Ends (fun _ : XlogError => False) (Levels nodes roots) (levelize nodes roots) := by
  unfold levelize
  refine (Ends.foldlM (fun before (s : LevelTables) => s.visiting = (fun _ => false)
    ∧ LevelsOk nodes s.levels ∧ ∀ root ∈ before, ∃ lvl, s.levels root = some lvl)
    ⟨rfl, fun _ _ h => absurd h (by simp), by simp⟩ ?_).bind ?_
  · intro before root after s heq h
    obtain ⟨hvisiting, hok, hbefore⟩ := h
    have hroot := inside root (by simp [heq])
    refine (levelOf_spec back _ s root hroot (by omega) hok (by simp [hvisiting])).bind ?_
    intro result hresult
    obtain ⟨hs, hlevel⟩ := hresult
    refine ⟨hs.visiting.trans hvisiting, hs.ok, ?_⟩
    intro other ho
    rcases List.mem_append.mp ho with ho | ho
    · obtain ⟨lvl, hl⟩ := hbefore other ho
      exact ⟨lvl, hs.kept other lvl hl⟩
    · obtain rfl := List.mem_singleton.mp ho
      exact ⟨result.1, hlevel⟩
  intro s h
  obtain ⟨-, hok, hroots⟩ := h
  set maxLevel := ((List.range nodes.length).filterMap s.levels).foldl max 0
  show Levels nodes roots (fillBuckets s.levels (List.range nodes.length) (maxLevel + 1))
  have henough : ∀ idx ∈ List.range nodes.length, ∀ lvl, s.levels idx = some lvl →
      lvl < maxLevel + 1 := by
    intro idx hi lvl hl
    exact Nat.lt_succ_of_le (le_foldl_max (.inr (List.mem_filterMap.mpr ⟨idx, hi, hl⟩)))
  have hmem (idx : Nat)
      : idx ∈ (fillBuckets s.levels (List.range nodes.length) (maxLevel + 1)).flatten
        ↔ ∃ lvl, s.levels idx = some lvl := by
    rw [mem_flatten_fillBuckets henough, List.mem_range]
    constructor
    · exact And.right
    · rintro ⟨lvl, hl⟩
      exact ⟨(hok idx lvl hl).1, lvl, hl⟩
  refine ⟨nodup_flatten_fillBuckets _ List.nodup_range, ?_, ?_, ?_⟩
  · intro idx hi
    obtain ⟨lvl, hl⟩ := (hmem idx).mp hi
    exact (hok idx lvl hl).1
  · intro before idx after heq child hc
    obtain ⟨lvl, hl⟩ := (hmem idx).mp (by simp [heq])
    obtain ⟨low, hlow, hlt⟩ := (hok idx lvl hl).2 child hc
    have hchild := (hmem child).mpr ⟨low, hlow⟩
    have hsorted := pairwise_flatten_fillBuckets s.levels (List.range nodes.length) (maxLevel + 1)
    rw [heq] at hchild hsorted
    rcases List.mem_append.mp hchild with hb | hb
    · exact hb
    · -- a child from the gate on would be at least as high
      exfalso
      rcases List.mem_cons.mp hb with rfl | hb
      · obtain rfl := Option.some.inj (hl.symm.trans hlow)
        exact lt_irrefl _ hlt
      · have hrest := (List.pairwise_append.mp hsorted).2.1
        have hle := (List.pairwise_cons.mp hrest).1 child hb lvl low hl hlow
        omega
  · intro root hr
    exact (hmem root).mpr (hroots root hr)

-- Smoothing

open XgcfSmoothBuilder

variable {g : Xgcf} {isRandomVar : List Bool}

/-- A circuit read off an arena has the values of the arena. -/
theorem values_of_solvesArena {nodes : List XgcfNode} {roots : List Nat}
    {levels : List (List Nat)} (h : Levels nodes roots levels) {K : Type*} [CommSemiring K]
    {wt wf values : Nat → K} (hv : SolvesArena (XgcfNode.value wt wf) nodes values) {root : Nat}
    (hr : root ∈ roots)
    : (Xgcf.mk nodes roots levels).values wt wf root = values root := by
  have hsolve : Solves (XgcfNode.value wt wf) (fun idx => nodes.getD idx .const0)
      levels.flatten values := by
    intro idx hi
    have hlt := h.inside idx hi
    apply hv idx
    show nodes[idx]? = some (nodes.getD idx .const0)
    rw [List.getD_eq_getElem?_getD, List.getElem?_eq_getElem hlt, Option.getD_some]
  exact Solves.unique (local_value wt wf) h.ordered
    (solves_foldl (local_value wt wf) h.ordered _) hsolve root (h.roots root hr)

/-- The refusal of a vector that does not cover the circuit's variables. -/
def TooShort (g : Xgcf) (isRandomVar : List Bool) (e : XlogError) : Prop :=
  ∃ maxVar, maxVarInCircuit g = .ok maxVar ∧ isRandomVar.length ≤ maxVar
    ∧ e = .compilation
      s!"XGCF smoothing expects is_random_var len >= {maxVar + 1}, got {isRandomVar.length}"

/-- No literal and no decision is without a variable, so the largest one is found. -/
theorem WellFormed.maxVarInCircuit_ends (wf : g.WellFormed)
    : Ends (fun _ : XlogError => False) (fun maxVar : Nat => maxVarInCircuit g = .ok maxVar)
        (maxVarInCircuit g) := by
  have hends : Ends (fun _ : XlogError => False) (fun _ : Nat => True) (maxVarInCircuit g) := by
    unfold maxVarInCircuit
    refine (Ends.foldlM (fun _ _ => True) trivial ?_).bind ?_
    · intro before node after maxVar heq _
      cases node with
      | lit literal =>
          simp only [wf.lit_ne_zero literal (by simp [heq]), if_false]
          trivial
      | const0 | const1 | and _ | or _ | decision _ _ _ => trivial
    · intro litMax _
      refine Ends.foldlM (fun _ _ => True) trivial ?_
      intro before node after maxVar heq _
      cases node with
      | decision var childFalse childTrue =>
          simp only [wf.var_ne_zero var childFalse childTrue (by simp [heq]), if_false]
          trivial
      | const0 | const1 | and _ | or _ | lit _ => trivial
  cases hrun : maxVarInCircuit g with
  | ok maxVar => exact rfl
  | error e =>
      rw [hrun] at hends
      exact hends

/-- The new root against the old one: the weighted count over the random variables below it, to
which every branch of a disjunction or decision contributes its own count times the sums of the
weights of the variables that only its siblings mention.
-/
structure Counts (g : Xgcf) (isRandomVar : List Bool) {K : Type} [CommSemiring K]
    (wt wf : Nat → K) (s : Xgcf) (old new : Nat) : Prop where
  count : s.values wt wf new = g.weightedCount wt wf (g.randomBelow isRandomVar old) old
  or : ∀ children, g.node old = .or children →
    s.values wt wf new = (children.map fun child =>
      g.weightedCount wt wf (g.randomBelow isRandomVar child) child
        * ∏ v ∈ g.randomBelow isRandomVar old \ g.randomBelow isRandomVar child,
          (wt v + wf v)).sum
  decision : ∀ var childFalse childTrue, g.node old = .decision var childFalse childTrue →
    s.values wt wf new
      = wf var * (g.weightedCount wt wf (g.randomBelow isRandomVar childFalse) childFalse
          * ∏ v ∈ g.randomBelow isRandomVar childTrue \ g.randomBelow isRandomVar childFalse,
            (wt v + wf v))
        + wt var * (g.weightedCount wt wf (g.randomBelow isRandomVar childTrue) childTrue
          * ∏ v ∈ g.randomBelow isRandomVar childFalse \ g.randomBelow isRandomVar childTrue,
            (wt v + wf v))

/-- A value equal to the count of a gate splits over the branches of the gate. -/
theorem WellFormed.counts_of_count (h : g.WellFormed) (hfresh : g.FreshDecisions) {K : Type}
    [CommSemiring K] {wt wf : Nat → K} {s : Xgcf} {old new : Nat} (hi : old ∈ g.order)
    (hcount : s.values wt wf new = g.count isRandomVar wt wf old)
    : Counts g isRandomVar wt wf s old new where
  count := hcount.trans (h.count_eq hi)
  or := by
    intro children hn
    rw [hcount, h.count_or hi hn]
    refine congrArg List.sum (List.map_congr_left ?_)
    intro child hc
    rw [h.count_eq (h.isOrdered.children_mem hi (by simpa [hn, XgcfNode.children] using hc))]
  decision := by
    intro var childFalse childTrue hn
    have hf : childFalse ∈ g.order := h.isOrdered.children_mem hi (by simp [hn, XgcfNode.children])
    have ht : childTrue ∈ g.order := h.isOrdered.children_mem hi (by simp [hn, XgcfNode.children])
    rw [hcount, h.count_decision hfresh hi hn, h.count_eq hf, h.count_eq ht,
      Finset.union_sdiff_left, Finset.union_sdiff_right]

/-- On a decomposable and deterministic circuit the smoothed circuit counts the models of every
root over its random variables.
-/
theorem smoothRandomVars_counts (h : g.WellFormed) (hdec : g.Decomposable)
    (hdet : g.Deterministic) (hfresh : g.FreshDecisions) (isRandomVar : List Bool) {K : Type}
    [CommSemiring K] (wt wf : Nat → K)
    : Ends (fun e => Overflows e ∨ TooShort g isRandomVar e)
        (fun s => List.Forall₂ (Counts g isRandomVar wt wf s) g.roots s.roots)
        (g.smoothRandomVars isRandomVar) := by
  unfold smoothRandomVars
  refine (h.maxVarInCircuit_ends.weaken fun _ => False.elim).bind ?_
  intro maxVar hmax
  split
  · next hshort => exact .inr ⟨maxVar, hmax, hshort, rfl⟩
  · refine ((h.computeRandomSupport_spec isRandomVar).weaken fun _ => False.elim).bind ?_
    intro support hsupport
    unfold smooth
    refine (Ends.weaken (smoothSteps_spec h hdec hdet hfresh hsupport) fun _ => .inl).bind ?_
    intro b hb
    split
    · exact .inl (.inr rfl)
    · refine (Ends.weaken (Ends.mapM fun root hr =>
        hb.mapped_ends (h.roots root hr) _) fun _ => .inl).bind ?_
      intro roots hroots
      have hinside : ∀ root ∈ roots, root < b.nodes.length := by
        intro root hr
        obtain ⟨k, hk, rfl⟩ := List.getElem_of_mem hr
        exact (hroots.get (hroots.length_eq ▸ hk) hk).1
      refine (Ends.weaken (levelize_spec hb.ok.back hinside) fun _ => False.elim).bind ?_
      intro levels hlevels
      obtain ⟨values, hv⟩ := exists_solvesArena (local_value wt wf) hb.ok.back
      refine (List.forall₂_iff_get).mpr ⟨hroots.length_eq, ?_⟩
      intro k hk hk'
      refine h.counts_of_count hfresh (h.roots _ (List.getElem_mem hk)) ?_
      exact (values_of_solvesArena hlevels hv (List.getElem_mem hk')).trans
        ((hroots.get hk hk').2.value K wt wf values hv)

-- Circuits

/-- A level table can be checked entry by entry. -/
theorem ordered_of_take {node : Nat → XgcfNode} {order : List Nat}
    (h : ∀ (i : Fin order.length), ∀ child ∈ (node order[i]).children, child ∈ order.take i)
    : Ordered node order := by
  intro before idx after heq child hc
  subst heq
  have hi : before.length < (before ++ idx :: after).length := by simp
  have hchild := h ⟨before.length, hi⟩ child (by simpa using hc)
  simpa using hchild

/-- Children of a conjunction without a common random variable, which is less than
decomposability.
-/
def RandomDecomposable (g : Xgcf) (isRandomVar : List Bool) : Prop :=
  ∀ idx ∈ g.order, ∀ children, g.node idx = .and children →
    children.Pairwise fun a b =>
      Disjoint (g.randomBelow isRandomVar a) (g.randomBelow isRandomVar b)

/-- `(x1 ∧ x2) ∨ ¬x1`, with a branch that misses `x2`. -/
def guarded : Xgcf where
  nodes := [.lit 1, .lit 2, .lit (-1), .and [0, 1], .or [3, 2]]
  roots := [4]
  levels := [[0, 1, 2], [3], [4]]

/-- `x1 ∨ x1`. -/
def repeatedOr : Xgcf where
  nodes := [.lit 1, .or [0, 0]]
  roots := [1]
  levels := [[0], [1]]

/-- `x1 ∧ x1`. -/
def repeatedAnd : Xgcf where
  nodes := [.lit 1, .and [0, 0]]
  roots := [1]
  levels := [[0], [1]]

theorem guarded_wellFormed : guarded.WellFormed where
  distinct := by decide
  inside := by decide
  ordered := ordered_of_take (by decide)
  roots := by decide
  lit_ne_zero := by simp [guarded]
  var_ne_zero := by simp [guarded]

theorem repeatedOr_wellFormed : repeatedOr.WellFormed where
  distinct := by decide
  inside := by decide
  ordered := ordered_of_take (by decide)
  roots := by decide
  lit_ne_zero := by simp [repeatedOr]
  var_ne_zero := by simp [repeatedOr]

theorem repeatedAnd_wellFormed : repeatedAnd.WellFormed where
  distinct := by decide
  inside := by decide
  ordered := ordered_of_take (by decide)
  roots := by decide
  lit_ne_zero := by simp [repeatedAnd]
  var_ne_zero := by simp [repeatedAnd]

theorem guarded_counts
    : Ends (fun e => Overflows e ∨ TooShort guarded [false, true, true] e)
        (fun s => List.Forall₂
          (Counts guarded [false, true, true] (fun _ => (2 : ℚ)) (fun _ => 3) s) guarded.roots
          s.roots)
        (guarded.smoothRandomVars [false, true, true]) := by
  have hnode (idx : Nat) (hi : idx ∈ guarded.order)
      : guarded.node idx = .and [0, 1] ∧ idx = 3 ∨ guarded.node idx = .or [3, 2] ∧ idx = 4
        ∨ ∃ literal, guarded.node idx = .lit literal := by
    simp only [order, guarded, List.flatten_cons, List.flatten_nil, List.append_nil,
      List.cons_append, List.nil_append, List.mem_cons, List.not_mem_nil, or_false] at hi
    rcases hi with rfl | rfl | rfl | rfl | rfl
    · exact .inr (.inr ⟨1, rfl⟩)
    · exact .inr (.inr ⟨2, rfl⟩)
    · exact .inr (.inr ⟨-1, rfl⟩)
    · exact .inl ⟨rfl, rfl⟩
    · exact .inr (.inl ⟨rfl, rfl⟩)
  refine smoothRandomVars_counts guarded_wellFormed ?_ ?_ ?_ _ _ _
  · intro idx hi children hn
    rcases hnode idx hi with ⟨h, -⟩ | ⟨h, -⟩ | ⟨_, h⟩
    · obtain rfl := XgcfNode.and.inj (h.symm.trans hn)
      decide
    · simp [h] at hn
    · simp [h] at hn
  · intro idx hi children hn
    rcases hnode idx hi with ⟨h, -⟩ | ⟨h, -⟩ | ⟨_, h⟩
    · simp [h] at hn
    · obtain rfl := XgcfNode.or.inj (h.symm.trans hn)
      simp only [List.pairwise_cons, List.mem_cons, List.not_mem_nil, or_false, forall_eq,
        List.Pairwise.nil, and_true, IsEmpty.forall_iff, implies_true]
      intro world ⟨hboth, hnot⟩
      have h3 : guarded.truths world 3 = (world 1 && (world 2 && true)) := rfl
      have h2 : guarded.truths world 2 = !world 1 := rfl
      rw [h3] at hboth
      rw [h2] at hnot
      simp_all
    · simp [h] at hn
  · intro idx hi var childFalse childTrue hn
    rcases hnode idx hi with ⟨h, -⟩ | ⟨h, -⟩ | ⟨_, h⟩
    · simp [h] at hn
    · simp [h] at hn
    · simp [h] at hn

/-- Equal children are merged: a repeated child of a disjunction counts once, and so does a
literal of a variable that is not random under a conjunction.
-/
theorem smoothRandomVars_merges
    : (repeatedOr.WellFormed ∧ repeatedOr.RandomDecomposable [false, true]
        ∧ repeatedOr.FreshDecisions
        ∧ ∃ s, repeatedOr.smoothRandomVars [false, true] = .ok s ∧ s.roots = [2]
          ∧ s.values (fun _ => (2 : ℚ)) (fun _ => 1) 2 = 2
          ∧ repeatedOr.weightedCount (fun _ => (2 : ℚ)) (fun _ => 1)
            (repeatedOr.randomBelow [false, true] 1) 1 = 4)
      ∧ repeatedAnd.WellFormed ∧ repeatedAnd.RandomDecomposable [false, false]
        ∧ repeatedAnd.FreshDecisions ∧ repeatedAnd.Deterministic
        ∧ ∃ s, repeatedAnd.smoothRandomVars [false, false] = .ok s ∧ s.roots = [2]
          ∧ s.values (fun _ => (2 : ℚ)) (fun _ => 1) 2 = 2
          ∧ repeatedAnd.weightedCount (fun _ => (2 : ℚ)) (fun _ => 1)
            (repeatedAnd.randomBelow [false, false] 1) 1 = 4 := by
  have hor (idx : Nat) (hi : idx ∈ repeatedOr.order)
      : repeatedOr.node idx = .lit 1 ∨ repeatedOr.node idx = .or [0, 0] := by
    simp only [order, repeatedOr, List.flatten_cons, List.flatten_nil, List.append_nil,
      List.cons_append, List.nil_append, List.mem_cons, List.not_mem_nil, or_false] at hi
    rcases hi with rfl | rfl
    · exact .inl rfl
    · exact .inr rfl
  have hand (idx : Nat) (hi : idx ∈ repeatedAnd.order)
      : repeatedAnd.node idx = .lit 1 ∨ repeatedAnd.node idx = .and [0, 0] := by
    simp only [order, repeatedAnd, List.flatten_cons, List.flatten_nil, List.append_nil,
      List.cons_append, List.nil_append, List.mem_cons, List.not_mem_nil, or_false] at hi
    rcases hi with rfl | rfl
    · exact .inl rfl
    · exact .inr rfl
  refine ⟨⟨repeatedOr_wellFormed, ?_, ?_, _, rfl, rfl, by decide +kernel, by decide +kernel⟩,
    repeatedAnd_wellFormed, ?_, ?_, ?_, _, rfl, rfl, by decide +kernel, by decide +kernel⟩
  · intro idx hi children hn
    rcases hor idx hi with h | h <;> simp [h] at hn
  · intro idx hi var childFalse childTrue hn
    rcases hor idx hi with h | h <;> simp [h] at hn
  · intro idx hi children hn
    rcases hand idx hi with h | h
    · simp [h] at hn
    · obtain rfl := XgcfNode.and.inj (h.symm.trans hn)
      decide
  · intro idx hi var childFalse childTrue hn
    rcases hand idx hi with h | h <;> simp [h] at hn
  · intro idx hi children hn
    rcases hand idx hi with h | h <;> simp [h] at hn

end Xlog.Prob.Xgcf
