import Xlog.Cuda.ConstraintGraph
import Xlog.Foundation.TreeDecomposition

/-! The width bound of the elimination. Eliminating a variable makes its neighbours a clique, so a tree
decomposition of what is left has a bag to hang a leaf with the variable and its neighbours from.
-/

namespace Xlog.Cuda.ConstraintGraph

open Xlog.Foundation

namespace Adjacency

-- Rounds

/-- Each variable left is a neighbour of its neighbours, which are left too. -/
def Symmetric (adj : Adjacency) : Prop :=
  ∀ u ∈ adj.keys, ∀ w ∈ adj.neighbors u, w ∈ adj.keys ∧ w ≠ u ∧ u ∈ adj.neighbors w

/-- What the fill edges leave of the neighbours of a variable. -/
def filled (v : Nat) (neighbors : List Nat) (n : Nat) (set : Finset Nat) : Finset Nat :=
  neighbors.foldl (fun set m => if m ≠ n then insert m set else set) (set.erase v)

theorem mem_filled {v n w : Nat} {neighbors : List Nat} {set : Finset Nat}
    : w ∈ filled v neighbors n set ↔ (w ∈ set ∧ w ≠ v) ∨ (w ∈ neighbors ∧ w ≠ n) := by
  have loop : ∀ start : Finset Nat,
      w ∈ neighbors.foldl (fun set m => if m ≠ n then insert m set else set) start
      ↔ w ∈ start ∨ (w ∈ neighbors ∧ w ≠ n) := by
    induction neighbors with
    | nil => simp
    | cons m neighbors ih =>
        intro start
        rw [List.foldl_cons, ih]
        by_cases same : m = n
        · subst same
          simp only [ne_eq, not_true_eq_false, if_false, List.mem_cons]
          tauto
        · rw [if_pos same, Finset.mem_insert, List.mem_cons]
          constructor
          · rintro ((rfl | old) | ⟨member, other⟩)
            · exact .inr ⟨.inl rfl, same⟩
            · exact .inl old
            · exact .inr ⟨.inr member, other⟩
          · rintro (old | ⟨rfl | member, other⟩)
            · exact .inl (.inr old)
            · exact .inl (.inl rfl)
            · exact .inr ⟨member, other⟩
  rw [filled, loop, Finset.mem_erase, and_comm (a := w ≠ v)]

/-- The fill edges at neighbours that are all left, by induction on them. -/
theorem foldlM_fill {v : Nat} {neighbors rest : List Nat} {adj : Adjacency} (nodup : rest.Nodup)
    (left : ∀ n ∈ rest, n ∈ adj.keys)
    : rest.foldlM (fill v neighbors) adj
      = some ⟨adj.keys, fun u =>
          if u ∈ rest then filled v neighbors u (adj.neighbors u) else adj.neighbors u⟩ := by
  induction rest generalizing adj with
  | nil => rfl
  | cons n rest ih =>
      obtain ⟨first, later⟩ := List.forall_mem_cons.mp left
      obtain ⟨fresh, nodup⟩ := List.nodup_cons.mp nodup
      have one : fill v neighbors adj n
          = some ⟨adj.keys, Function.update adj.neighbors n
              (filled v neighbors n (adj.neighbors n))⟩ := by
        rw [fill, getMut, if_pos first]
        rfl
      have looped := @ih ⟨adj.keys, Function.update adj.neighbors n
        (filled v neighbors n (adj.neighbors n))⟩ nodup later
      rw [List.foldlM_cons, one, Option.bind_eq_bind, Option.bind_some, looped]
      congr 2
      funext u
      by_cases same : u = n
      · subst same
        simp [fresh]
      · simp [same]

/-- A round removes a variable that is left, and makes its neighbours a clique. -/
structure Round (adj : Adjacency) (v : Nat) (rest : Adjacency) : Prop where
  left : v ∈ adj.keys
  keys_eq : rest.keys = adj.keys.filter (· ≠ v)
  mem_neighbors : ∀ u w, w ∈ rest.neighbors u ↔
    if u ∈ adj.neighbors v then (w ∈ adj.neighbors u ∧ w ≠ v) ∨ (w ∈ adj.neighbors v ∧ w ≠ u)
    else w ∈ adj.neighbors u

theorem Symmetric.eliminateOne {adj : Adjacency} (symmetric : adj.Symmetric)
    (nonempty : adj.keys ≠ [])
    : ∃ v rest, adj.eliminateOne = some ((adj.neighbors v).card, rest) ∧ Round adj v rest := by
  obtain ⟨v, least⟩ : ∃ v, adj.minDegree = some v :=
    Option.ne_none_iff_exists'.mp fun none => nonempty (List.argmin_eq_none.mp none)
  have left : v ∈ adj.keys := List.argmin_mem least
  have inside : ∀ n ∈ (adj.neighbors v).sort (· ≤ ·), n ∈ adj.keys :=
    fun n member => (symmetric v left n ((Finset.mem_sort _).mp member)).1
  refine ⟨v, ⟨adj.keys.filter (· ≠ v), fun u =>
    if u ∈ (adj.neighbors v).sort (· ≤ ·) then
      filled v ((adj.neighbors v).sort (· ≤ ·)) u (adj.neighbors u)
    else adj.neighbors u⟩, ?_, ⟨left, rfl, ?_⟩⟩
  · rw [Adjacency.eliminateOne, least, Option.bind_eq_bind, Option.bind_some]
    dsimp only
    rw [foldlM_fill (Finset.sort_nodup _ _) inside, Option.bind_eq_bind, Option.bind_some,
      Finset.length_sort]
    rfl
  · intro u w
    simp only [Finset.mem_sort]
    split
    · rw [mem_filled, Finset.mem_sort]
    · rfl

theorem Round.symmetric {adj rest : Adjacency} {v : Nat} (round : Round adj v rest)
    (symmetric : adj.Symmetric)
    : rest.Symmetric := by
  intro u hu w hw
  rw [round.keys_eq, List.mem_filter] at hu ⊢
  have other : u ≠ v := by simpa using hu.2
  rw [round.mem_neighbors] at hw ⊢
  have at_v := symmetric v round.left
  have at_u := symmetric u hu.1
  split at hw
  · next near =>
      rcases hw with ⟨member, different⟩ | ⟨member, different⟩
      · obtain ⟨left, distinct, back⟩ := at_u w member
        refine ⟨⟨left, by simpa using different⟩, distinct, ?_⟩
        split
        · exact .inl ⟨back, other⟩
        · exact back
      · obtain ⟨left, distinct, _⟩ := at_v w member
        refine ⟨⟨left, by simpa using distinct⟩, different, ?_⟩
        rw [if_pos member]
        exact .inr ⟨near, different.symm⟩
  · next far =>
      obtain ⟨left, distinct, back⟩ := at_u w hw
      have different : w ≠ v := by
        rintro rfl
        exact far back
      refine ⟨⟨left, by simpa using different⟩, distinct, ?_⟩
      split
      · exact .inl ⟨back, other⟩
      · exact back

-- Width

/-- The graph on the variables that are left has a tree decomposition of some width whose bags contain
every clique.
-/
def Decomposes (adj : Adjacency) (width : Nat) : Prop :=
  ∃ decomposition :
      TreeDecomposition adj.keys.toFinset (fun u w => w ∈ adj.neighbors u) width,
    decomposition.CoversCliques

theorem decomposes_of_no_keys {adj : Adjacency} (none_left : adj.keys = []) (width : Nat)
    : adj.Decomposes width := by
  unfold Decomposes
  rw [none_left]
  exact ⟨(TreeDecomposition.empty _).widen (Nat.zero_le _),
    ⟨TreeDecomposition.coversCliques_empty.covered⟩⟩

/-- A round widens the decomposition of what it leaves to the degree of the variable it removes. -/
theorem Round.decomposes {adj rest : Adjacency} {v width : Nat} (round : Round adj v rest)
    (symmetric : adj.Symmetric) (degree : (adj.neighbors v).card ≤ width)
    (decomposes : rest.Decomposes width)
    : adj.Decomposes width := by
  obtain ⟨decomposition, covers⟩ := decomposes
  have at_v := symmetric v round.left
  have keys : insert v rest.keys.toFinset = adj.keys.toFinset := by
    ext u
    simp only [round.keys_eq, Finset.mem_insert, List.mem_toFinset, List.mem_filter]
    by_cases same : u = v
    · simp [same, round.left]
    · simp [same]
  have fresh : v ∉ rest.keys.toFinset := by simp [round.keys_eq]
  have inside : adj.neighbors v ⊆ rest.keys.toFinset := by
    intro w member
    obtain ⟨left, different, _⟩ := at_v w member
    simp [round.keys_eq, left, different]
  have clique : ∀ u ∈ adj.neighbors v, ∀ w ∈ adj.neighbors v, u ≠ w → w ∈ rest.neighbors u := by
    intro u hu w hw different
    rw [round.mem_neighbors, if_pos hu]
    exact .inr ⟨hw, different.symm⟩
  obtain ⟨t, within⟩ := covers.covered _ inside clique
  have left_keys {u : Nat} (member : u ∈ rest.keys.toFinset) : u ∈ adj.keys ∧ u ≠ v := by
    simpa [round.keys_eq] using member
  have at_vertex : ∀ u ∈ rest.keys.toFinset,
      u ∈ adj.neighbors v ∨ v ∈ adj.neighbors u → u ∈ adj.neighbors v := by
    rintro u member (near | near)
    · exact near
    · exact (symmetric u (left_keys member).1 v near).2.2
  have kept : ∀ u ∈ rest.keys.toFinset, ∀ w ∈ rest.keys.toFinset,
      w ∈ adj.neighbors u → w ∈ rest.neighbors u := by
    intro u hu w hw near
    rw [round.mem_neighbors]
    split
    · exact .inl ⟨near, (left_keys hw).2⟩
    · exact near
  unfold Decomposes
  rw [← keys]
  exact ⟨_, covers.extend fresh inside degree at_vertex kept t within⟩

/-- The elimination ends, and no unwrap in it fails, by induction on the fuel. -/
theorem Symmetric.eliminate {adj : Adjacency} (symmetric : adj.Symmetric) {fuel : Nat}
    (enough : adj.keys.length ≤ fuel) (start : Nat)
    : ∃ width, adj.eliminate fuel start = some width ∧ start ≤ width ∧ adj.Decomposes width := by
  induction fuel generalizing adj start with
  | zero =>
      have none_left : adj.keys = [] := List.eq_nil_of_length_eq_zero (Nat.le_zero.mp enough)
      exact ⟨start, by simp [Adjacency.eliminate, none_left], le_rfl,
        decomposes_of_no_keys none_left start⟩
  | succ fuel ih =>
      by_cases none_left : adj.keys = []
      · exact ⟨start, by simp [Adjacency.eliminate, none_left], le_rfl,
          decomposes_of_no_keys none_left start⟩
      · obtain ⟨v, rest, one, round⟩ := symmetric.eliminateOne none_left
        have fewer : rest.keys.length < adj.keys.length := by
          rw [round.keys_eq]
          exact List.length_filter_lt_length_iff_exists.mpr ⟨v, round.left, by simp⟩
        obtain ⟨width, eliminated, least, decomposes⟩ :=
          ih (round.symmetric symmetric) (by omega) (max start (adj.neighbors v).card)
        refine ⟨width, ?_, (le_max_left _ _).trans least,
          round.decomposes symmetric ((le_max_right _ _).trans least) decomposes⟩
        simp only [Adjacency.eliminate, List.isEmpty_iff, none_left, if_false, one,
          Option.bind_eq_bind, Option.bind_some, eliminated]

-- Edges

/-- The adjacency of edges between variables, by induction on the edges. -/
theorem foldlM_connect {adj : Adjacency} {edges : List (Nat × Nat)}
    (inside : ∀ edge ∈ edges, edge.1 ∈ adj.keys ∧ edge.2 ∈ adj.keys)
    : ∃ connected,
        edges.foldlM connect adj = some connected
        ∧ connected.keys = adj.keys
        ∧ ∀ u w, w ∈ connected.neighbors u
          ↔ w ∈ adj.neighbors u ∨ (u, w) ∈ edges ∨ (w, u) ∈ edges := by
  induction edges generalizing adj with
  | nil => exact ⟨adj, rfl, rfl, by simp⟩
  | cons edge edges ih =>
      obtain ⟨⟨first, second⟩, later⟩ := List.forall_mem_cons.mp inside
      obtain ⟨a, b⟩ := edge
      obtain ⟨one, joined, keys, neighbors⟩ : ∃ one, adj.connect (a, b) = some one
          ∧ one.keys = adj.keys
          ∧ ∀ u w, w ∈ one.neighbors u
            ↔ w ∈ adj.neighbors u ∨ (u = a ∧ w = b) ∨ (u = b ∧ w = a) := by
        let once := Function.update adj.neighbors a (insert b (adj.neighbors a))
        refine ⟨⟨adj.keys, Function.update once b (insert a (once b))⟩, ?_, rfl, fun u w => ?_⟩
        · rw [connect, getMut, if_pos first, Option.bind_eq_bind, Option.bind_some, getMut,
            if_pos second]
        · simp only [once, Function.update_apply]
          grind
      have later' : ∀ edge ∈ edges, edge.1 ∈ one.keys ∧ edge.2 ∈ one.keys := by rwa [keys]
      obtain ⟨connected, looped, keys', neighbors'⟩ := ih later'
      refine ⟨connected, ?_, keys'.trans keys, fun u w => ?_⟩
      · rw [List.foldlM_cons, joined, Option.bind_eq_bind, Option.bind_some, looped]
      · rw [neighbors', neighbors]
        simp only [List.mem_cons, Prod.mk.injEq]
        tauto

end Adjacency

/-- The bound of edges between distinct variables is the width of a tree decomposition. -/
theorem eliminationWidthBound_some {vars : List Nat} {edges : List (Nat × Nat)}
    (inside : ∀ edge ∈ edges, edge.1 ∈ vars ∧ edge.2 ∈ vars ∧ edge.1 ≠ edge.2)
    : ∃ width,
        eliminationWidthBound vars edges = some width
        ∧ Nonempty (TreeDecomposition vars.toFinset
            (fun u w => (u, w) ∈ edges ∨ (w, u) ∈ edges) width) := by
  obtain ⟨adj, connected, keys, neighbors⟩ :=
    @Adjacency.foldlM_connect ⟨vars, fun _ => ∅⟩ edges
      fun edge member => ⟨(inside edge member).1, (inside edge member).2.1⟩
  have symmetric : adj.Symmetric := by
    intro u hu w hw
    rw [keys]
    rw [neighbors] at hw ⊢
    rcases hw with none | hw | hw
    · simp at none
    · exact ⟨(inside _ hw).2.1, (inside _ hw).2.2.symm, .inr (.inr hw)⟩
    · exact ⟨(inside _ hw).1, (inside _ hw).2.2, .inr (.inl hw)⟩
  obtain ⟨width, eliminated, _, decomposition, _⟩ :=
    symmetric.eliminate (Nat.le_of_eq (congrArg List.length keys)) 0
  refine ⟨width, ?_, ?_⟩
  · rw [eliminationWidthBound, connected, Option.bind_eq_bind, Option.bind_some]
    exact eliminated
  · have same : (fun u w => w ∈ adj.neighbors u) = fun u w => (u, w) ∈ edges ∨ (w, u) ∈ edges := by
      ext u w
      simp [neighbors]
    rw [keys, same] at decomposition
    exact ⟨decomposition⟩

end Xlog.Cuda.ConstraintGraph
