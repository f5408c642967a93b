import Xlog.Foundation.Loop
import Mathlib.Data.List.Nodup
import Mathlib.Order.Lattice

/-! Tarjan's strongly connected components over a successor function: depth-first search
with discovery indices, low links and a stack of vertices whose component is still open.
-/

namespace Xlog.Foundation.Tarjan

variable {α : Type*}

/-- The search state; the head of the stack is its top. -/
structure State (α : Type*) where
  nextIndex : Nat
  stack : List α
  indices : α → Option Nat
  lowlinks : α → Nat
  onStack : α → Bool
  components : List (List α)

def State.init : State α :=
  ⟨0, [], fun _ => none, fun _ => 0, fun _ => false, []⟩

section Algorithm

variable [DecidableEq α]

/-- Discover a vertex. -/
def State.enter (s : State α) (vertex : α) : State α :=
  { s with
    indices := Function.update s.indices vertex (some s.nextIndex)
    lowlinks := Function.update s.lowlinks vertex s.nextIndex
    nextIndex := s.nextIndex + 1
    stack := vertex :: s.stack
    onStack := Function.update s.onStack vertex true }

/-- Lower the low link of a vertex. -/
def State.lower (s : State α) (vertex : α) (low : Nat) : State α :=
  { s with lowlinks := Function.update s.lowlinks vertex (min (s.lowlinks vertex) low) }

/-- Pop up to and including the root: the popped component and the remaining stack. -/
def popTo (root : α) : List α → List α × List α
  | [] => ([], [])
  | member :: stack =>
      if member = root then ([member], stack)
      else (member :: (popTo root stack).1, (popTo root stack).2)

/-- Pop the component of a vertex that is its root. -/
def State.close (s : State α) (vertex : α) : State α :=
  if s.indices vertex = some (s.lowlinks vertex) then
    let popped := popTo vertex s.stack
    { s with
      stack := popped.2
      onStack := fun x => if x ∈ popped.1 then false else s.onStack x
      components := s.components ++ [popped.1] }
  else s

/-- Follow one edge: search an undiscovered successor, or note one that is on the stack. -/
def scan (search : State α → α → State α) (vertex : α) (s : State α) (successor : α)
    : State α :=
  match s.indices successor with
  | none =>
      let s := search s successor
      s.lower vertex (s.lowlinks successor)
  | some index => if s.onStack successor then s.lower vertex index else s

/-- Search from one vertex; the fuel bounds the recursion depth. -/
def strongconnect (succ : α → List α) : Nat → State α → α → State α
  | 0, s, _ => s
  | fuel + 1, s, vertex =>
      ((succ vertex).foldl (scan (strongconnect succ fuel) vertex) (s.enter vertex)).close vertex

/-- Search from every vertex not discovered before. -/
def components (succ : α → List α) (vertices : List α) : List (List α) :=
  (vertices.foldl (fun s vertex =>
    if (s.indices vertex).isNone then strongconnect succ vertices.length s vertex else s)
    State.init).components

end Algorithm

-- What is computed

/-- One vertex reaches another along successors. -/
def Reach (succ : α → List α) : α → α → Prop :=
  Relation.ReflTransGen fun x y => y ∈ succ x

/-- The vertices mutually reachable with one of their own. -/
def IsComponent (succ : α → List α) (component : List α) : Prop :=
  ∃ root ∈ component, ∀ x, x ∈ component ↔ Reach succ root x ∧ Reach succ x root

/-- Components listed dependencies first: every edge stays inside its component or leads to
an earlier one.
-/
inductive Components (succ : α → List α) : List (List α) → Prop where
  | nil : Components succ []
  | snoc {before : List (List α)} {component : List α} (earlier : Components succ before)
      (strong : IsComponent succ component) (distinct : component.Nodup)
      (fresh : ∀ x ∈ component, x ∉ before.flatten)
      (edges : ∀ x ∈ component, ∀ y ∈ succ x, y ∈ component ∨ y ∈ before.flatten)
      : Components succ (before ++ [component])

theorem Components.closed {succ : α → List α} {cs : List (List α)} (h : Components succ cs)
    {x y : α} (hx : x ∈ cs.flatten) (hy : y ∈ succ x)
    : y ∈ cs.flatten := by
  induction h with
  | nil => simp at hx
  | snoc _ _ _ _ edges ih =>
      simp only [List.flatten_append, List.flatten_cons, List.flatten_nil, List.append_nil,
        List.mem_append] at hx ⊢
      rcases hx with hx | hx
      · exact .inl (ih hx)
      · exact (edges x hx y hy).symm

/-- Nothing outside finished components is reachable from inside, by path induction. -/
theorem Components.reach_closed {succ : α → List α} {cs : List (List α)}
    (h : Components succ cs) {x y : α} (hx : x ∈ cs.flatten) (hp : Reach succ x y)
    : y ∈ cs.flatten := by
  induction hp with
  | refl => exact hx
  | tail _ he ih => exact h.closed ih he

-- The invariant

def State.Visited (s : State α) (x : α) : Prop :=
  (s.indices x).isSome = true

def State.index (s : State α) (x : α) : Nat :=
  (s.indices x).getD 0

/-- The state between two steps of the search; the gray vertices are those whose search is
still running.
-/
structure Inv (succ : α → List α) (gray : α → Prop) (s : State α) : Prop where
  sorted : s.stack.Pairwise fun x y => s.index y < s.index x
  below : ∀ x, s.Visited x → s.index x < s.nextIndex
  onStack : ∀ x, s.onStack x = true ↔ x ∈ s.stack
  visited : ∀ x, s.Visited x ↔ x ∈ s.stack ∨ x ∈ s.components.flatten
  components : Components succ s.components
  apart : ∀ x ∈ s.stack, x ∉ s.components.flatten
  grayStack : ∀ x, gray x → x ∈ s.stack
  black : ∀ x, s.Visited x → ¬ gray x → ∀ y ∈ succ x, s.Visited y
  chain : ∀ x ∈ s.stack, ∀ y ∈ s.stack, s.index x ≤ s.index y → Reach succ x y
  anchored : ∀ x ∈ s.stack, ∃ p, gray p ∧ s.index p ≤ s.index x ∧ Reach succ x p

/-- What a finished search from a vertex leaves behind. -/
structure Searched (succ : α → List α) (s : State α) (vertex : α) (s' : State α) : Prop where
  stack : ∃ new, s'.stack = new ++ s.stack
    ∧ ∀ x ∈ new, ∀ y ∈ succ x, y ∈ s.stack → s'.lowlinks vertex ≤ s.index y
  kept : ∀ x, s.Visited x → s'.indices x = s.indices x ∧ s'.lowlinks x = s.lowlinks x
  found : s'.Visited vertex
  next : s.nextIndex ≤ s'.nextIndex
  low : vertex ∈ s'.stack → ∃ x ∈ s.stack, s.index x = s'.lowlinks vertex ∧ Reach succ vertex x
  closed : vertex ∉ s'.stack → s.nextIndex ≤ s'.lowlinks vertex
  reached : ∀ x, s'.Visited x → s.Visited x ∨ Reach succ vertex x

/-- The search from a vertex after some of its successors were followed. -/
structure Scanning (succ : α → List α) (gray : α → Prop) (s : State α) (vertex : α)
    (done : List α) (t : State α) : Prop where
  fresh : ¬ s.Visited vertex
  inv : Inv succ (fun x => gray x ∨ x = vertex) t
  stack : ∃ new, t.stack = new ++ vertex :: s.stack
    ∧ ∀ x ∈ new, ∀ y ∈ succ x, y ∈ s.stack → t.lowlinks vertex ≤ s.index y
  kept : ∀ x, s.Visited x → t.indices x = s.indices x ∧ t.lowlinks x = s.lowlinks x
  index : t.indices vertex = some s.nextIndex
  next : s.nextIndex < t.nextIndex
  lowLe : t.lowlinks vertex ≤ s.nextIndex
  low : ∃ x ∈ t.stack, t.index x = t.lowlinks vertex ∧ Reach succ vertex x
  done : ∀ w ∈ done, t.Visited w ∧ (w ∈ s.stack → t.lowlinks vertex ≤ s.index w)
  reached : ∀ x, t.Visited x → s.Visited x ∨ Reach succ vertex x

variable {succ : α → List α} {gray : α → Prop} {s t : State α} {vertex : α} {seen : List α}

theorem not_visited_iff {x : α} : ¬ s.Visited x ↔ s.indices x = none := by
  simp [State.Visited]

theorem index_eq {n : Nat} {x : α} (h : s.indices x = some n) : s.index x = n := by
  simp [State.index, h]

theorem visited_of_some {n : Nat} {x : α} (h : s.indices x = some n) : s.Visited x := by
  simp [State.Visited, h]

theorem Inv.stack_visited (h : Inv succ gray s) {x : α} (hx : x ∈ s.stack) : s.Visited x :=
  (h.visited x).mpr (.inl hx)

theorem Scanning.visited_of (h : Scanning succ gray s vertex seen t) {x : α}
    (hx : s.Visited x)
    : t.Visited x := by
  rw [State.Visited, (h.kept x hx).1]
  exact hx

theorem Scanning.index_of (h : Scanning succ gray s vertex seen t) {x : α}
    (hx : s.Visited x)
    : t.index x = s.index x := by
  rw [State.index, (h.kept x hx).1]
  rfl

theorem Searched.visited_of (h : Searched succ s vertex t) {x : α} (hx : s.Visited x)
    : t.Visited x := by
  rw [State.Visited, (h.kept x hx).1]
  exact hx

theorem Searched.index_of (h : Searched succ s vertex t) {x : α} (hx : s.Visited x)
    : t.index x = s.index x := by
  rw [State.index, (h.kept x hx).1]
  rfl

theorem Scanning.stack_of (h : Scanning succ gray s vertex seen t) {x : α}
    (hx : x ∈ s.stack)
    : x ∈ t.stack := by
  obtain ⟨new, hstack, _⟩ := h.stack
  simp [hstack, hx]

section Steps

variable [DecidableEq α]

/-- Discovering an undiscovered vertex that all gray vertices reach keeps the invariant and
starts its scan.
-/
theorem Inv.enter (h : Inv succ gray s) (new : ¬ s.Visited vertex)
    (reach : ∀ p, gray p → Reach succ p vertex)
    : Scanning succ gray s vertex [] (s.enter vertex) := by
  have hne : ∀ x, s.Visited x → x ≠ vertex := fun x hx he => new (he ▸ hx)
  have hidx : ∀ x, x ≠ vertex → (s.enter vertex).indices x = s.indices x :=
    fun x hx => Function.update_of_ne hx _ _
  have hself : (s.enter vertex).indices vertex = some s.nextIndex := Function.update_self ..
  have hindex : ∀ x, s.Visited x → (s.enter vertex).index x = s.index x := by
    intro x hx
    simp only [State.index, hidx x (hne x hx)]
  have hvis : ∀ x, (s.enter vertex).Visited x ↔ x = vertex ∨ s.Visited x := by
    intro x
    by_cases hx : x = vertex
    · simp [hx, visited_of_some hself]
    · simp [State.Visited, hidx x hx, hx]
  have hstack : ∀ x, x ∈ (s.enter vertex).stack ↔ x = vertex ∨ x ∈ s.stack :=
    fun x => List.mem_cons
  have hbelow : ∀ x ∈ s.stack, (s.enter vertex).index x < s.nextIndex := by
    intro x hx
    rw [hindex x (h.stack_visited hx)]
    exact h.below x (h.stack_visited hx)
  refine {
    fresh := new
    inv := {
      sorted := ?_, below := ?_, onStack := ?_, visited := ?_, components := h.components
      apart := ?_, grayStack := ?_, black := ?_, chain := ?_, anchored := ?_ }
    stack := ⟨[], rfl, by simp⟩
    kept := fun x hx => ⟨hidx x (hne x hx), Function.update_of_ne (hne x hx) _ _⟩
    index := hself
    next := Nat.lt_succ_self _
    lowLe := (Function.update_self vertex s.nextIndex s.lowlinks).le
    low := ⟨vertex, List.mem_cons_self, ?_, .refl⟩
    done := by simp
    reached := fun x hx => ((hvis x).mp hx).symm.imp_right fun he => by rw [he]; exact .refl }
  · refine List.pairwise_cons.mpr ⟨?_, ?_⟩
    · intro x hx
      rw [index_eq hself]
      exact hbelow x hx
    · refine h.sorted.imp_of_mem fun {x y} hx hy hlt => ?_
      rwa [hindex x (h.stack_visited hx), hindex y (h.stack_visited hy)]
  · intro x hx
    rcases (hvis x).mp hx with rfl | hx
    · rw [index_eq hself]
      exact Nat.lt_succ_self _
    · rw [hindex x hx]
      exact (h.below x hx).trans (Nat.lt_succ_self _)
  · intro x
    rw [hstack]
    by_cases hx : x = vertex
    · simp [hx, State.enter]
    · rw [show (s.enter vertex).onStack x = s.onStack x from Function.update_of_ne hx _ _,
        h.onStack]
      simp [hx]
  · intro x
    rw [hvis, hstack, h.visited, or_assoc]
    rfl
  · intro x hx
    rcases (hstack x).mp hx with rfl | hx
    · exact fun hc => new ((h.visited x).mpr (.inr hc))
    · exact h.apart x hx
  · rintro x (hx | rfl)
    · exact (hstack x).mpr (.inr (h.grayStack x hx))
    · exact (hstack x).mpr (.inl rfl)
  · intro x hx hgray y hy
    rcases (hvis x).mp hx with rfl | hx
    · exact absurd (.inr rfl) hgray
    · exact (hvis y).mpr (.inr (h.black x hx (fun hg => hgray (.inl hg)) y hy))
  · intro x hx y hy hle
    rcases (hstack y).mp hy with rfl | old
    · rcases (hstack x).mp hx with rfl | hx
      · exact .refl
      · obtain ⟨p, hp, _, hxp⟩ := h.anchored x hx
        exact hxp.trans (reach p hp)
    · rcases (hstack x).mp hx with rfl | hx
      · have := hbelow y old
        rw [index_eq hself] at hle
        omega
      · rw [hindex x (h.stack_visited hx), hindex y (h.stack_visited old)] at hle
        exact h.chain x hx y old hle
  · intro x hx
    rcases (hstack x).mp hx with rfl | hx
    · exact ⟨x, .inr rfl, le_rfl, .refl⟩
    · obtain ⟨p, hp, hle, hxp⟩ := h.anchored x hx
      refine ⟨p, .inl hp, ?_, hxp⟩
      rwa [hindex p (h.stack_visited (h.grayStack p hp)), hindex x (h.stack_visited hx)]
  · rw [index_eq hself]
    exact (Function.update_self vertex s.nextIndex s.lowlinks).symm

/-- Lowering the vertex's low link to that of something it reaches on the stack. -/
theorem Scanning.lower (h : Scanning succ gray s vertex seen t) {low : Nat} {w : α}
    (visited : t.Visited w)
    (old : w ∈ s.stack → low ≤ s.index w)
    (reach : low < t.lowlinks vertex → ∃ x ∈ t.stack, t.index x = low ∧ Reach succ vertex x)
    : Scanning succ gray s vertex (seen ++ [w]) (t.lower vertex low) := by
  have hlow : (t.lower vertex low).lowlinks vertex = min (t.lowlinks vertex) low :=
    Function.update_self ..
  obtain ⟨new, hstack, hbound⟩ := h.stack
  exact {
    fresh := h.fresh
    inv := ⟨h.inv.sorted, h.inv.below, h.inv.onStack, h.inv.visited, h.inv.components,
      h.inv.apart, h.inv.grayStack, h.inv.black, h.inv.chain, h.inv.anchored⟩
    stack := ⟨new, hstack, fun x hx y hy hys => by
      rw [hlow]
      exact (min_le_left _ _).trans (hbound x hx y hy hys)⟩
    kept := fun x hx => ⟨(h.kept x hx).1, by
      have hne : x ≠ vertex := fun he => h.fresh (he ▸ hx)
      rw [← (h.kept x hx).2]
      exact Function.update_of_ne hne _ _⟩
    index := h.index
    next := h.next
    lowLe := by
      rw [hlow]
      exact (min_le_left _ _).trans h.lowLe
    low := by
      rw [hlow]
      rcases lt_or_ge low (t.lowlinks vertex) with hlt | hge
      · rw [min_eq_right hlt.le]
        exact reach hlt
      · rw [min_eq_left hge]
        exact h.low
    done := by
      intro x hx
      rw [hlow]
      rcases List.mem_append.mp hx with hx | hx
      · exact ⟨(h.done x hx).1, fun hs => (min_le_left _ _).trans ((h.done x hx).2 hs)⟩
      · obtain rfl := List.mem_singleton.mp hx
        exact ⟨visited, fun hs => (min_le_right _ _).trans (old hs)⟩
    reached := h.reached }

/-- A search from a successor extends the scan of the vertex. -/
theorem Scanning.search (h : Scanning succ gray s vertex seen t) (hs : Inv succ gray s)
    {w : α} {t' : State α} (edge : w ∈ succ vertex) (new : ¬ t.Visited w)
    (inv : Inv succ (fun x => gray x ∨ x = vertex) t') (found : Searched succ t w t')
    : Scanning succ gray s vertex (seen ++ [w]) (t'.lower vertex (t'.lowlinks w)) := by
  have hself : t.Visited vertex := visited_of_some h.index
  obtain ⟨fresh, hfresh, hfbound⟩ := found.stack
  obtain ⟨above, hstack, hbound⟩ := h.stack
  have hold : ∀ y ∈ s.stack, t.index y = s.index y :=
    fun y hy => h.index_of (hs.stack_visited hy)
  have hlow : (t'.lower vertex (t'.lowlinks w)).lowlinks vertex
      = min (t.lowlinks vertex) (t'.lowlinks w) := by
    rw [← (found.kept vertex hself).2]
    exact Function.update_self ..
  exact {
    fresh := h.fresh
    inv := ⟨inv.sorted, inv.below, inv.onStack, inv.visited, inv.components, inv.apart,
      inv.grayStack, inv.black, inv.chain, inv.anchored⟩
    stack := by
      refine ⟨fresh ++ above, ?_, ?_⟩
      · rw [show (t'.lower vertex (t'.lowlinks w)).stack = t'.stack from rfl, hfresh, hstack,
          List.append_assoc]
      · intro x hx y hy hys
        rw [hlow]
        rcases List.mem_append.mp hx with hx | hx
        · refine (min_le_right _ _).trans ?_
          rw [← hold y hys]
          exact hfbound x hx y hy (h.stack_of hys)
        · exact (min_le_left _ _).trans (hbound x hx y hy hys)
    kept := fun x hx => by
      have hne : x ≠ vertex := fun he => h.fresh (he ▸ hx)
      have hx' := found.kept x (h.visited_of hx)
      refine ⟨hx'.1.trans (h.kept x hx).1, ?_⟩
      rw [← (h.kept x hx).2, ← hx'.2]
      exact Function.update_of_ne hne _ _
    index := ((found.kept vertex hself).1).trans h.index
    next := h.next.trans_le found.next
    lowLe := by
      rw [hlow]
      exact (min_le_left _ _).trans h.lowLe
    low := by
      rw [hlow]
      rcases lt_or_ge (t'.lowlinks w) (t.lowlinks vertex) with hlt | hge
      · rw [min_eq_right hlt.le]
        by_cases hw : w ∈ t'.stack
        · obtain ⟨x, hx, hxi, hxr⟩ := found.low hw
          refine ⟨x, by simp [State.lower, hfresh, hx], ?_, .head edge hxr⟩
          rw [← hxi]
          exact found.index_of (h.inv.stack_visited hx)
        · -- a popped successor's low link lies above everything discovered before it
          have hc := found.closed hw
          have hl := h.lowLe
          have hn := h.next
          omega
      · rw [min_eq_left hge]
        obtain ⟨x, hx, hxi, hxr⟩ := h.low
        refine ⟨x, by simp [State.lower, hfresh, hx], ?_, hxr⟩
        rw [← hxi]
        exact found.index_of (h.inv.stack_visited hx)
    done := by
      intro x hx
      rw [hlow]
      rcases List.mem_append.mp hx with hx | hx
      · exact ⟨found.visited_of (h.done x hx).1,
          fun hxs => (min_le_left _ _).trans ((h.done x hx).2 hxs)⟩
      · obtain rfl := List.mem_singleton.mp hx
        exact ⟨found.found, fun hxs => absurd (h.visited_of (hs.stack_visited hxs)) new⟩
    reached := by
      intro x hx
      rcases found.reached x hx with hx | hx
      · exact h.reached x hx
      · exact .inr (.head edge hx) }

/-- Following one edge extends the scan, whatever the successor's state. -/
theorem Scanning.scan (h : Scanning succ gray s vertex seen t) (hs : Inv succ gray s)
    {search : State α → α → State α} {w : α} (edge : w ∈ succ vertex)
    (found : ¬ t.Visited w →
      Inv succ (fun x => gray x ∨ x = vertex) (search t w) ∧ Searched succ t w (search t w))
    : Scanning succ gray s vertex (seen ++ [w]) (scan search vertex t w) := by
  cases hw : t.indices w with
  | none =>
      have hnew := not_visited_iff.mpr hw
      obtain ⟨hinv, hfound⟩ := found hnew
      simp only [Tarjan.scan, hw]
      exact h.search hs edge hnew hinv hfound
  | some index =>
      have hvis := visited_of_some hw
      simp only [Tarjan.scan, hw]
      split
      · next hon =>
          have hstack := (h.inv.onStack w).mp hon
          have hidx := index_eq hw
          refine h.lower hvis ?_ fun _ => ⟨w, hstack, hidx, .single edge⟩
          intro hws
          rw [← h.index_of (hs.stack_visited hws), hidx]
      · next hoff =>
          have hnot : w ∉ t.stack := fun hm => hoff ((h.inv.onStack w).mpr hm)
          obtain ⟨new, hstack, hbound⟩ := h.stack
          exact { h with
            done := by
              intro x hx
              rcases List.mem_append.mp hx with hx | hx
              · exact h.done x hx
              · obtain rfl := List.mem_singleton.mp hx
                exact ⟨hvis, fun hxs => absurd (h.stack_of hxs) hnot⟩ }

end Steps

end Xlog.Foundation.Tarjan
