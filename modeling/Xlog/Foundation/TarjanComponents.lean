import Xlog.Foundation.Tarjan

/-! The search lists every strongly connected component once, dependencies first: closing a
vertex either keeps it open below an older vertex or pops exactly its component.
-/

namespace Xlog.Foundation.Tarjan

variable {α : Type*}
variable {succ : α → List α} {gray : α → Prop} {s t : State α} {vertex : α}

-- Closing a vertex

/-- A scanned vertex with the part of the stack above it. -/
structure Scanned (succ : α → List α) (gray : α → Prop) (s : State α) (vertex : α)
    (above : List α) (t : State α) : Prop where
  scan : Scanning succ gray s vertex (succ vertex) t
  stack : t.stack = above ++ vertex :: s.stack
  bound : ∀ x ∈ above, ∀ y ∈ succ x, y ∈ s.stack → t.lowlinks vertex ≤ s.index y

variable {above : List α}

theorem Scanned.index_vertex (h : Scanned succ gray s vertex above t)
    : t.index vertex = s.nextIndex :=
  index_eq h.scan.index

theorem Scanned.index_above (h : Scanned succ gray s vertex above t) {x : α} (hx : x ∈ above)
    : s.nextIndex < t.index x := by
  have hs := h.scan.inv.sorted
  rw [h.stack] at hs
  rw [← h.index_vertex]
  exact (List.pairwise_append.mp hs).2.2 x hx vertex (by simp)

theorem Scanned.index_below (h : Scanned succ gray s vertex above t) {x : α}
    (hx : x ∈ s.stack)
    : t.index x < s.nextIndex := by
  have hs := h.scan.inv.sorted
  rw [h.stack] at hs
  rw [← h.index_vertex]
  exact (List.pairwise_cons.mp (List.pairwise_append.mp hs).2.1).1 x hx

theorem Scanned.mem_stack (h : Scanned succ gray s vertex above t) {x : α}
    : x ∈ t.stack ↔ x ∈ above ++ [vertex] ∨ x ∈ s.stack := by
  rw [h.stack]
  simp [or_assoc]

/-- The part above an old stack has only newer indices. -/
theorem Scanned.index_component (h : Scanned succ gray s vertex above t) {x : α}
    (hx : x ∈ above ++ [vertex])
    : s.nextIndex ≤ t.index x := by
  rcases List.mem_append.mp hx with hx | hx
  · exact (h.index_above hx).le
  · obtain rfl := List.mem_singleton.mp hx
    exact h.index_vertex.ge

theorem Scanned.not_old (h : Scanned succ gray s vertex above t) {x : α}
    (hx : x ∈ above ++ [vertex])
    : x ∉ s.stack := by
  intro hs
  have h1 := h.index_component hx
  have h2 := h.index_below hs
  omega

/-- All successors of a vertex above the old stack were discovered. -/
theorem Scanned.successors (h : Scanned succ gray s vertex above t) (hs : Inv succ gray s)
    {x y : α} (hx : x ∈ above ++ [vertex]) (hy : y ∈ succ x)
    : t.Visited y := by
  by_cases hv : x = vertex
  · subst hv
    exact (h.scan.done y hy).1
  · refine h.scan.inv.black x (h.scan.inv.stack_visited (h.mem_stack.mpr (.inl hx))) ?_ y hy
    rintro (hg | he)
    · exact h.not_old hx (hs.grayStack x hg)
    · exact hv he

/-- A vertex that reaches below itself stays on the stack. -/
theorem Scanned.keep (h : Scanned succ gray s vertex above t) (hs : Inv succ gray s)
    (low : t.lowlinks vertex < s.nextIndex)
    : Inv succ gray t ∧ Searched succ s vertex t := by
  have hinv := h.scan.inv
  obtain ⟨x₀, hx₀, hi₀, hr₀⟩ := h.scan.low
  have hmem : vertex ∈ t.stack := h.mem_stack.mpr (.inl (by simp))
  refine ⟨?_, ?_⟩
  · exact {
      sorted := hinv.sorted
      below := hinv.below
      onStack := hinv.onStack
      visited := hinv.visited
      components := hinv.components
      apart := hinv.apart
      grayStack := fun x hx => hinv.grayStack x (.inl hx)
      black := by
        intro x hx hg y hy
        by_cases hv : x = vertex
        · subst hv
          exact (h.scan.done y hy).1
        · exact hinv.black x hx (fun hor => hor.elim hg hv) y hy
      chain := hinv.chain
      anchored := by
        intro x hx
        obtain ⟨p, hp, hle, hr⟩ := hinv.anchored x hx
        rcases hp with hp | rfl
        · exact ⟨p, hp, hle, hr⟩
        · -- the anchor of what the vertex reaches lies strictly below it
          obtain ⟨q, hq, hqle, hqr⟩ := hinv.anchored x₀ hx₀
          have hlt : t.index q < t.index p := by
            rw [h.index_vertex]
            omega
          rcases hq with hq | rfl
          · exact ⟨q, hq, by omega, hr.trans (hr₀.trans hqr)⟩
          · omega }
  · exact {
      stack := by
        refine ⟨above ++ [vertex], by simp [h.stack], ?_⟩
        intro x hx y hy hys
        rcases List.mem_append.mp hx with hx | hx
        · exact h.bound x hx y hy hys
        · obtain rfl := List.mem_singleton.mp hx
          exact (h.scan.done y hy).2 hys
      kept := h.scan.kept
      found := visited_of_some h.scan.index
      next := h.scan.next.le
      low := by
        intro _
        rcases h.mem_stack.mp hx₀ with hx | hx
        · have := h.index_component hx
          omega
        · exact ⟨x₀, hx, by rw [← h.scan.index_of (hs.stack_visited hx), hi₀], hr₀⟩
      closed := fun hnot => absurd hmem hnot
      reached := h.scan.reached }

/-- When the vertex is a root, an edge from above the old stack stays there or leads to a
finished component.
-/
theorem Scanned.edge_cases (h : Scanned succ gray s vertex above t) (hs : Inv succ gray s)
    (root : t.lowlinks vertex = s.nextIndex) {x y : α} (hx : x ∈ above ++ [vertex])
    (hy : y ∈ succ x)
    : y ∈ above ++ [vertex] ∨ y ∈ t.components.flatten := by
  rcases (h.scan.inv.visited y).mp (h.successors hs hx hy) with hm | hm
  · rcases h.mem_stack.mp hm with hm | hm
    · exact .inl hm
    · have hlt : s.index y < s.nextIndex := hs.below y (hs.stack_visited hm)
      have hle : t.lowlinks vertex ≤ s.index y := by
        rcases List.mem_append.mp hx with hx | hx
        · exact h.bound x hx y hy hm
        · obtain rfl := List.mem_singleton.mp hx
          exact (h.scan.done y hy).2 hm
      omega
  · exact .inr hm

/-- What a root reaches is in its part of the stack or finished, by path induction. -/
theorem Scanned.reach_cases (h : Scanned succ gray s vertex above t) (hs : Inv succ gray s)
    (root : t.lowlinks vertex = s.nextIndex) {y : α} (hp : Reach succ vertex y)
    : y ∈ above ++ [vertex] ∨ y ∈ t.components.flatten := by
  induction hp with
  | refl => exact .inl (by simp)
  | tail _ he ih =>
      rcases ih with hx | hx
      · exact h.edge_cases hs root hx he
      · exact .inr (h.scan.inv.components.closed hx he)

/-- The part of the stack above a root, with the root, is a strongly connected component. -/
theorem Scanned.isComponent (h : Scanned succ gray s vertex above t) (hs : Inv succ gray s)
    (root : t.lowlinks vertex = s.nextIndex)
    : IsComponent succ (above ++ [vertex]) := by
  have hinv := h.scan.inv
  have hmem : vertex ∈ t.stack := h.mem_stack.mpr (.inl (by simp))
  refine ⟨vertex, by simp, fun x => ⟨fun hx => ?_, fun ⟨hto, hfrom⟩ => ?_⟩⟩
  · have hxs : x ∈ t.stack := h.mem_stack.mpr (.inl hx)
    have hdown : Reach succ vertex x :=
      hinv.chain vertex hmem x hxs (by rw [h.index_vertex]; exact h.index_component hx)
    refine ⟨hdown, ?_⟩
    obtain ⟨p, hp, _, hr⟩ := hinv.anchored x hxs
    rcases hp with hp | rfl
    · -- an older anchor would be reachable from the root
      have hold := hs.grayStack p hp
      rcases h.reach_cases hs root (hdown.trans hr) with hc | hc
      · exact absurd hold (h.not_old hc)
      · exact absurd hc (hinv.apart p (h.mem_stack.mpr (.inr hold)))
    · exact hr
  · rcases h.reach_cases hs root hto with hc | hc
    · exact hc
    · exact absurd (hinv.components.reach_closed hc hfrom) (hinv.apart vertex hmem)

section Close

variable [DecidableEq α]

/-- Popping stops at the root, by induction on what is above it. -/
theorem popTo_append (root : α) (above below : List α) (h : root ∉ above)
    : popTo root (above ++ root :: below) = (above ++ [root], below) := by
  induction above with
  | nil => simp [popTo]
  | cons x above ih =>
      obtain ⟨hne, hnot⟩ := not_or.mp (mt List.mem_cons.mpr h)
      simp [popTo, Ne.symm hne, ih hnot]

/-- Closing a root pops its component and restores the old stack. -/
theorem Scanned.pop (h : Scanned succ gray s vertex above t) (hs : Inv succ gray s)
    (root : t.lowlinks vertex = s.nextIndex)
    : Inv succ gray (t.close vertex) ∧ Searched succ s vertex (t.close vertex) := by
  have hinv := h.scan.inv
  have hfresh : vertex ∉ above := fun hm => absurd (h.index_above hm)
    (by rw [h.index_vertex]; exact lt_irrefl _)
  have hclose : t.close vertex = { t with
      stack := s.stack
      onStack := fun x => if x ∈ above ++ [vertex] then false else t.onStack x
      components := t.components ++ [above ++ [vertex]] } := by
    simp only [State.close, h.scan.index, root, if_true, h.stack,
      popTo_append vertex above s.stack hfresh]
  have hsub : ∀ x ∈ s.stack, x ∈ t.stack := fun x hx => h.mem_stack.mpr (.inr hx)
  have hnot : vertex ∉ s.stack := h.not_old (by simp)
  rw [hclose]
  refine ⟨?_, ?_⟩
  · exact {
      sorted := by
        have hso := hinv.sorted
        rw [h.stack] at hso
        exact (List.pairwise_cons.mp (List.pairwise_append.mp hso).2.1).2
      below := hinv.below
      onStack := by
        intro x
        by_cases hx : x ∈ above ++ [vertex]
        · simp only [hx, if_true, Bool.false_eq_true, false_iff]
          exact h.not_old hx
        · simp only [hx, if_false, hinv.onStack, h.mem_stack, false_or]
      visited := by
        intro x
        have hv := hinv.visited x
        rw [h.mem_stack] at hv
        simp only [List.flatten_append, List.flatten_cons, List.flatten_nil, List.append_nil]
        rw [List.mem_append (s := t.components.flatten)]
        exact hv.trans (by tauto)
      components := by
        refine .snoc hinv.components (h.isComponent hs root) ?_ ?_ ?_
        · have hso := hinv.sorted
          have hn : t.stack.Nodup := hso.imp fun {x y} hlt he => by
            rw [he] at hlt
            exact lt_irrefl _ hlt
          rw [h.stack, List.append_cons] at hn
          exact (List.nodup_append.mp hn).1
        · exact fun x hx => hinv.apart x (h.mem_stack.mpr (.inl hx))
        · exact fun x hx y hy => h.edge_cases hs root hx hy
      apart := by
        intro x hx hc
        simp only [List.flatten_append, List.flatten_cons, List.flatten_nil,
          List.append_nil] at hc
        rcases List.mem_append.mp hc with hc | hc
        · exact hinv.apart x (hsub x hx) hc
        · exact h.not_old hc hx
      grayStack := hs.grayStack
      black := by
        intro x hx hg y hy
        by_cases hv : x = vertex
        · subst hv
          exact (h.scan.done y hy).1
        · exact hinv.black x hx (fun hor => hor.elim hg hv) y hy
      chain := fun x hx y hy hle => hinv.chain x (hsub x hx) y (hsub y hy) hle
      anchored := by
        intro x hx
        obtain ⟨p, hp, hle, hr⟩ := hinv.anchored x (hsub x hx)
        rcases hp with hp | rfl
        · exact ⟨p, hp, hle, hr⟩
        · have h1 := h.index_below hx
          have h2 : t.index p = s.nextIndex := h.index_vertex
          have h3 : t.index p ≤ t.index x := hle
          omega }
  · exact {
      stack := ⟨[], rfl, by simp⟩
      kept := h.scan.kept
      found := visited_of_some h.scan.index
      next := h.scan.next.le
      low := fun hm => absurd hm hnot
      closed := fun _ => root.ge
      reached := h.scan.reached }

/-- Closing a fully scanned vertex ends its search. -/
theorem Scanning.close (h : Scanning succ gray s vertex (succ vertex) t)
    (hs : Inv succ gray s)
    : Inv succ gray (t.close vertex) ∧ Searched succ s vertex (t.close vertex) := by
  obtain ⟨above, hstack, hbound⟩ := h.stack
  have hscanned : Scanned succ gray s vertex above t := ⟨h, hstack, hbound⟩
  rcases h.lowLe.lt_or_eq with hlt | heq
  · have hkeep : t.close vertex = t := by
      simp only [State.close, h.index, Option.some.injEq]
      rw [if_neg (by omega)]
    rw [hkeep]
    exact hscanned.keep hs hlt
  · exact hscanned.pop hs heq

end Close

-- The whole search

/-- How many vertices are still undiscovered. -/
def unvisited (vertices : List α) (s : State α) : Nat :=
  (vertices.filter fun x => (s.indices x).isNone).length

theorem unvisited_lt {vertices : List α} (grow : ∀ x, s.Visited x → t.Visited x)
    (hv : vertex ∈ vertices) (new : ¬ s.Visited vertex) (found : t.Visited vertex)
    : unvisited vertices t < unvisited vertices s := by
  have hfilter : vertices.filter (fun x => (t.indices x).isNone)
      = (vertices.filter fun x => (s.indices x).isNone).filter
          fun x => (t.indices x).isNone := by
    rw [List.filter_filter]
    refine List.filter_congr fun x _ => ?_
    cases hs : s.indices x with
    | none => simp
    | some n =>
        have := grow x (visited_of_some hs)
        obtain ⟨m, hm⟩ := Option.isSome_iff_exists.mp this
        simp [hm]
  rw [unvisited, hfilter, unvisited, List.length_filter_lt_length_iff_exists]
  refine ⟨vertex, List.mem_filter.mpr ⟨hv, by simp [not_visited_iff.mp new]⟩, ?_⟩
  obtain ⟨m, hm⟩ := Option.isSome_iff_exists.mp found
  simp [hm]

/-- Between searches no vertex is gray, so the stack is empty. -/
theorem Inv.stack_nil (h : Inv succ (fun _ => False) s) : s.stack = [] := by
  by_contra hne
  obtain ⟨x, hx⟩ := List.exists_mem_of_ne_nil _ hne
  obtain ⟨p, hp, _⟩ := h.anchored x hx
  exact hp

section Search

variable [DecidableEq α]

/-- A search with fuel for the undiscovered vertices keeps the invariant, by induction on
the fuel and the scan's loop rule.
-/
theorem strongconnect_spec {vertices : List α}
    (closed : ∀ x ∈ vertices, ∀ y ∈ succ x, y ∈ vertices) (fuel : Nat) (gray : α → Prop)
    (s : State α) (vertex : α) (hs : Inv succ gray s) (new : ¬ s.Visited vertex)
    (reach : ∀ p, gray p → Reach succ p vertex) (hv : vertex ∈ vertices)
    (hfuel : unvisited vertices s ≤ fuel)
    : Inv succ gray (strongconnect succ fuel s vertex)
      ∧ Searched succ s vertex (strongconnect succ fuel s vertex) := by
  induction fuel generalizing gray s vertex with
  | zero =>
      have : vertex ∈ vertices.filter fun x => (s.indices x).isNone :=
        List.mem_filter.mpr ⟨hv, by simp [not_visited_iff.mp new]⟩
      have := List.length_pos_of_mem this
      simp only [unvisited] at hfuel
      omega
  | succ fuel ih =>
      have hscan := foldl_inv (scan (strongconnect succ fuel) vertex)
        (fun seen t => Scanning succ gray s vertex seen t) (succ vertex) (s.enter vertex)
        (hs.enter new reach) (by
          intro seen w t hw h
          refine h.scan hs hw fun hnew => ?_
          refine ih _ t w h.inv hnew ?_ (closed vertex hv w hw) ?_
          · rintro p (hp | rfl)
            · exact (reach p hp).tail hw
            · exact .single hw
          · have := unvisited_lt (fun x hx => h.visited_of hx) hv new
              (visited_of_some h.index)
            omega)
      exact hscan.close hs

/-- The search over a successor-closed vertex list returns the strongly connected
components of exactly these vertices, dependencies first.
-/
theorem components_spec (succ : α → List α) (vertices : List α)
    (closed : ∀ x ∈ vertices, ∀ y ∈ succ x, y ∈ vertices)
    : Components succ (components succ vertices)
      ∧ ∀ x, x ∈ (components succ vertices).flatten ↔ x ∈ vertices := by
  have hclosed : ∀ x ∈ vertices, ∀ y, Reach succ x y → y ∈ vertices := by
    intro x hx y hp
    induction hp with
    | refl => exact hx
    | tail _ he ih => exact closed _ ih _ he
  have hloop := foldl_inv (fun s vertex =>
      if (s.indices vertex).isNone then strongconnect succ vertices.length s vertex else s)
    (fun seen s => Inv succ (fun _ => False) s
      ∧ (∀ x ∈ seen, s.Visited x) ∧ ∀ x, s.Visited x → x ∈ vertices)
    vertices State.init
    (by
      have hnone : ∀ x : α, ¬ (State.init : State α).Visited x := fun x => by
        simp [State.Visited, State.init]
      refine ⟨?_, by simp, fun x hx => absurd hx (hnone x)⟩
      exact {
        sorted := .nil
        below := fun x hx => absurd hx (hnone x)
        onStack := by simp [State.init]
        visited := fun x => by simp [State.init, State.Visited]
        components := .nil
        apart := by simp [State.init]
        grayStack := by simp
        black := fun x hx => absurd hx (hnone x)
        chain := by simp [State.init]
        anchored := by simp [State.init] })
    (by
      rintro seen v s hv ⟨hinv, hseen, hin⟩
      have hsplit : ∀ t : State α, (∀ x, s.Visited x → t.Visited x) → t.Visited v →
          ∀ x ∈ seen ++ [v], t.Visited x := by
        intro t hgrow hfound x hx
        rcases List.mem_append.mp hx with hx | hx
        · exact hgrow x (hseen x hx)
        · obtain rfl := List.mem_singleton.mp hx
          exact hfound
      cases hi : s.indices v with
      | none =>
          simp only [Option.isNone_none, if_true]
          obtain ⟨hinv', hfound⟩ := strongconnect_spec closed vertices.length (fun _ => False) s v
            hinv (not_visited_iff.mpr hi) (by simp) hv (List.length_filter_le _ _)
          refine ⟨hinv', hsplit _ (fun x hx => hfound.visited_of hx) hfound.found, ?_⟩
          intro x hx
          rcases hfound.reached x hx with hx | hx
          · exact hin x hx
          · exact hclosed v hv x hx
      | some n =>
          simp only [Option.isNone_some, Bool.false_eq_true, if_false]
          exact ⟨hinv, hsplit s (fun _ hx => hx) (visited_of_some hi), hin⟩)
  obtain ⟨hinv, hseen, hin⟩ := hloop
  refine ⟨hinv.components, fun x => ?_⟩
  have hv := hinv.visited x
  simp only [hinv.stack_nil, List.not_mem_nil, false_or] at hv
  exact hv.symm.trans ⟨hin x, hseen x⟩

end Search

/-- No vertex is listed twice, by induction on the component list. -/
theorem Components.nodup {cs : List (List α)} (h : Components succ cs)
    : cs.flatten.Nodup := by
  induction h with
  | nil => simp
  | snoc _ _ distinct fresh _ ih =>
      simp only [List.flatten_append, List.flatten_cons, List.flatten_nil, List.append_nil]
      exact List.nodup_append.mpr
        ⟨ih, distinct, fun x hx y hy he => fresh y hy (he ▸ hx)⟩

/-- Every listed component is a strongly connected component. -/
theorem Components.isComponent {cs : List (List α)} (h : Components succ cs)
    {component : List α} (hc : component ∈ cs)
    : IsComponent succ component := by
  induction h with
  | nil => simp at hc
  | snoc _ strong _ _ _ ih =>
      rcases List.mem_append.mp hc with hc | hc
      · exact ih hc
      · obtain rfl := List.mem_singleton.mp hc
        exact strong

/-- Two listed vertices share a component exactly when each reaches the other. -/
theorem Components.share_iff {cs : List (List α)} (h : Components succ cs) {x y : α}
    (hx : x ∈ cs.flatten)
    : (∃ component ∈ cs, x ∈ component ∧ y ∈ component) ↔ Reach succ x y ∧ Reach succ y x := by
  constructor
  · intro shared
    obtain ⟨component, hc, hxc, hyc⟩ := shared
    obtain ⟨root, _, hroot⟩ := h.isComponent hc
    obtain ⟨to_x, from_x⟩ := (hroot x).mp hxc
    obtain ⟨to_y, from_y⟩ := (hroot y).mp hyc
    exact ⟨from_x.trans to_y, from_y.trans to_x⟩
  · intro both
    obtain ⟨component, hc, hxc⟩ := List.mem_flatten.mp hx
    obtain ⟨root, _, hroot⟩ := h.isComponent hc
    obtain ⟨to_x, from_x⟩ := (hroot x).mp hxc
    exact ⟨component, hc, hxc,
      (hroot y).mpr ⟨to_x.trans both.1, both.2.trans from_x⟩⟩

/-- An edge between two components leads to the one listed earlier, by induction on the list. -/
theorem Components.edge_earlier {cs : List (List α)} (h : Components succ cs)
    {i j : Nat} {source target : List α} (hi : cs[i]? = some source) (hj : cs[j]? = some target)
    {x y : α} (hx : x ∈ source) (hy : y ∈ target) (he : y ∈ succ x) (ne : i ≠ j)
    : j < i := by
  induction h generalizing i j with
  | nil => simp at hi
  | @snoc before component earlier _ _ fresh edges ih =>
      have range_i := (List.getElem?_eq_some_iff.mp hi).1
      have range_j := (List.getElem?_eq_some_iff.mp hj).1
      rw [List.length_append, List.length_singleton] at range_i range_j
      rcases Nat.lt_or_ge i before.length with old_i | new_i
      · rw [List.getElem?_append_left old_i] at hi
        rcases Nat.lt_or_ge j before.length with old_j | new_j
        · rw [List.getElem?_append_left old_j] at hj
          exact ih hi hj ne
        · -- earlier components are closed under edges, so the target is not the new one
          rw [List.getElem?_append_right new_j,
            show j - before.length = 0 by omega] at hj
          obtain rfl : component = target := by simpa using hj
          have listed := List.mem_flatten.mpr ⟨source, List.mem_of_getElem? hi, hx⟩
          exact absurd (earlier.closed listed he) (fresh y hy)
      · omega

end Xlog.Foundation.Tarjan
