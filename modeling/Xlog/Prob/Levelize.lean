import Xlog.Core.Error
import Xlog.Foundation.Assoc
import Xlog.Foundation.Buckets
import Xlog.Prob.Pir

/-! Dependency-first levels of the nodes reachable from a root set, by depth-first search
with a set of nodes being visited and a table of finished levels.
-/

namespace Xlog.Prob

open Xlog.Core
open Xlog.Foundation

/-- Search state: the nodes on the current path and the finished levels. -/
structure LevelState where
  visiting : List PirNodeId
  levels : List (PirNodeId × Nat)

namespace PirGraph

/-- One more than the highest child, the children computed in order. -/
def aboveChildren (compute : LevelState → PirNodeId → Result (Nat × LevelState))
    (children : List PirNodeId) (s : LevelState) : Result (Nat × LevelState) := do
  let (maxChild, s) ← children.foldlM (fun (maxChild, s) child => do
    let (childLvl, s) ← compute s child
    return (max maxChild childLvl, s)) (0, s)
  return (maxChild + 1, s)

/-- The level of a node, its children computed first. -/
def nodeLevel (compute : LevelState → PirNodeId → Result (Nat × LevelState))
    (s : LevelState) : PirNode → Result (Nat × LevelState)
  | .const _ | .lit _ | .negLit _ => .ok (0, s)
  | .and children | .or children => aboveChildren compute children s
  | .decision _ childFalse childTrue => do
      let (lf, s) ← compute s childFalse
      let (lt, s) ← compute s childTrue
      return (max lf lt + 1, s)

/-- The recursive search; the fuel bounds the depth of the call stack. -/
def computeLevel (g : PirGraph) : Nat → LevelState → PirNodeId → Result (Nat × LevelState)
  | 0, _, _ => .error (.panic "stack overflow")
  | fuel + 1, s, id =>
      match s.levels.lookup id with
      | some lvl => .ok (lvl, s)
      | none =>
          if id ∈ s.visiting then
            .error (.compilation s!"Cycle detected while levelizing PIR at node PirNodeId({id})")
          else
            let entered := { s with visiting := id :: s.visiting }
            match g.node id with
            | none =>
                .error (.compilation s!"Invalid PIR node id while levelizing: PirNodeId({id})")
            | some node => do
                let (lvl, s) ← nodeLevel (computeLevel g fuel) entered node
                return (lvl, ⟨s.visiting.erase id, (id, lvl) :: s.levels⟩)

/-- Groups the nodes reachable from the roots into dependency-first levels. -/
def levelize (g : PirGraph) (roots : List PirNodeId) : Result (List (List PirNodeId)) := do
  let s ← roots.foldlM (fun s root => do
    let (_, s) ← g.computeLevel (g.len + 1) s root
    return s) ⟨[], []⟩
  let maxLevel := (s.levels.map Prod.snd).foldl max 0
  let ids := (s.levels.map Prod.fst).insertionSort (· ≤ ·)
  return ids.foldl (fun buckets id =>
    match s.levels.lookup id with
    | some lvl => buckets.modify lvl (· ++ [id])
    | none => buckets) (List.replicate (maxLevel + 1) [])

-- The search

/-- The finished table: distinct nodes of the arena, each above all of its children. -/
structure LevelsOk (g : PirGraph) (levels : List (PirNodeId × Nat)) : Prop where
  distinct : (levels.map Prod.fst).Nodup
  lower : ∀ id lvl, (id, lvl) ∈ levels → ∀ child, g.Edge id child →
    ∃ childLvl, (child, childLvl) ∈ levels ∧ childLvl < lvl

/-- What a successful search from `id` leaves behind: the path restored, earlier levels
kept, `id` finished, and nothing entered that `id` does not depend on.
-/
structure Levelled (g : PirGraph) (s : LevelState) (id : PirNodeId) (lvl : Nat)
    (s' : LevelState) : Prop where
  visiting : s'.visiting = s.visiting
  ok : LevelsOk g s'.levels
  kept : s.levels ⊆ s'.levels
  done : (id, lvl) ∈ s'.levels
  reached : ∀ low l, (low, l) ∈ s'.levels →
    (low, l) ∈ s.levels ∨ Relation.ReflTransGen g.Edge id low

/-- The children searched so far, all of them finished at `maxLvl` or lower. -/
structure ChildrenDone (g : PirGraph) (s : LevelState) (done : List PirNodeId) (maxLvl : Nat)
    (s' : LevelState) : Prop where
  visiting : s'.visiting = s.visiting
  ok : LevelsOk g s'.levels
  kept : s.levels ⊆ s'.levels
  finished : ∀ child ∈ done, ∃ l, (child, l) ∈ s'.levels ∧ l ≤ maxLvl
  reached : ∀ low l, (low, l) ∈ s'.levels →
    (low, l) ∈ s.levels ∨ ∃ child ∈ done, Relation.ReflTransGen g.Edge child low

theorem ChildrenDone.start {g : PirGraph} {s : LevelState} (ok : LevelsOk g s.levels)
    : ChildrenDone g s [] 0 s where
  visiting := rfl
  ok := ok
  kept := fun _ h => h
  finished := by simp
  reached := fun _ _ h => .inl h

/-- Searching one more child extends what is done. -/
theorem ChildrenDone.step {g : PirGraph} {s t t' : LevelState} {done : List PirNodeId}
    {maxLvl lvl : Nat} {child : PirNodeId} (h : ChildrenDone g s done maxLvl t)
    (hc : Levelled g t child lvl t')
    : ChildrenDone g s (done ++ [child]) (max maxLvl lvl) t' where
  visiting := hc.visiting.trans h.visiting
  ok := hc.ok
  kept := fun _ hx => hc.kept (h.kept hx)
  finished := by
    intro c hm
    rcases List.mem_append.mp hm with hm | hm
    · obtain ⟨l, hl, hle⟩ := h.finished c hm
      exact ⟨l, hc.kept hl, by omega⟩
    · obtain rfl := List.mem_singleton.mp hm
      exact ⟨lvl, hc.done, by omega⟩
  reached := by
    intro low l hl
    rcases hc.reached low l hl with hl | hp
    · rcases h.reached low l hl with hl | ⟨c, hm, hp⟩
      · exact .inl hl
      · exact .inr ⟨c, List.mem_append_left _ hm, hp⟩
    · exact .inr ⟨child, by simp, hp⟩

/-- A node is levelled strictly above its children when each of them can be searched from
any state on the same path, by the node's kind.
-/
theorem nodeLevel_spec {g : PirGraph}
    {compute : LevelState → PirNodeId → Result (Nat × LevelState)} {s : LevelState}
    {node : PirNode} (ok : LevelsOk g s.levels)
    (search : ∀ t, t.visiting = s.visiting → LevelsOk g t.levels → ∀ child ∈ node.children,
      ∃ lvl t', compute t child = .ok (lvl, t') ∧ Levelled g t child lvl t')
    : ∃ lvl s' maxLvl,
        nodeLevel compute s node = .ok (lvl, s')
        ∧ ChildrenDone g s node.children maxLvl s'
        ∧ (node.children ≠ [] → maxLvl < lvl) := by
  have hmany : ∀ children, children = node.children → ∃ s' maxLvl,
      aboveChildren compute children s = .ok (maxLvl + 1, s')
      ∧ ChildrenDone g s children maxLvl s' := by
    rintro children rfl
    obtain ⟨⟨maxLvl, s'⟩, hrun, hdone⟩ := foldlM_ok
      (fun ((maxChild, s) : Nat × LevelState) child => do
        let (childLvl, s) ← compute s child
        return (max maxChild childLvl, s))
      (fun done state => ChildrenDone g s done state.1 state.2)
      node.children (0, s) (.start ok) (by
        intro done child ⟨maxLvl, t⟩ hc hinv
        obtain ⟨lvl, t', hcomp, hlev⟩ := search t hinv.visiting hinv.ok child hc
        exact ⟨(max maxLvl lvl, t'), by simp [hcomp], hinv.step hlev⟩)
    refine ⟨s', maxLvl, ?_, hdone⟩
    simp only [aboveChildren, hrun]
    rfl
  cases node with
  | const _ | lit _ | negLit _ =>
      exact ⟨0, s, 0, rfl, .start ok, fun h => absurd rfl h⟩
  | and children | or children =>
      obtain ⟨s', maxLvl, hrun, hdone⟩ := hmany children rfl
      exact ⟨_, s', maxLvl, hrun, hdone, fun _ => by omega⟩
  | decision var childFalse childTrue =>
      obtain ⟨lf, t, hf, hlf⟩ := search s rfl ok childFalse (by simp [PirNode.children])
      have hfirst := (ChildrenDone.start ok).step hlf
      obtain ⟨lt, t', ht, hlt⟩ :=
        search t hlf.visiting hlf.ok childTrue (by simp [PirNode.children])
      refine ⟨max lf lt + 1, t', max lf lt, by simp [nodeLevel, hf, ht], ?_, fun _ => by omega⟩
      simpa only [PirNode.children, Nat.zero_max, List.nil_append, List.cons_append]
        using hfirst.step hlt

/-- The state a search may start in: a path of the arena above `id`. -/
structure Entry (g : PirGraph) (s : LevelState) (id : PirNodeId) : Prop where
  distinct : s.visiting.Nodup
  inside : ∀ high ∈ s.visiting, high < g.len
  above : ∀ high ∈ s.visiting, Relation.TransGen g.Edge high id
  ok : LevelsOk g s.levels

/-- On an acyclic graph the path never closes, so the search succeeds whenever the fuel
covers the nodes not yet on it, by induction on the fuel.
-/
theorem computeLevel_spec {g : PirGraph} (acyclic : Acyclic g.Edge) (wf : g.WellFormed)
    (fuel : Nat) (s : LevelState) (id : PirNodeId) (hid : id < g.len) (he : Entry g s id)
    (hfuel : g.len + 1 ≤ fuel + s.visiting.length)
    : ∃ lvl s', g.computeLevel fuel s id = .ok (lvl, s') ∧ Levelled g s id lvl s' := by
  induction fuel generalizing s id with
  | zero =>
      have hle : s.visiting.length ≤ g.len := by
        have hsub : s.visiting ⊆ List.range g.len :=
          fun x hx => List.mem_range.mpr (he.inside x hx)
        simpa using (he.distinct.subperm hsub).length_le
      omega
  | succ fuel ih =>
      cases hl : s.levels.lookup id with
      | some lvl =>
          refine ⟨lvl, s, by simp only [computeLevel, hl], rfl, he.ok, fun _ h => h,
            mem_of_lookup hl, fun _ _ h => .inl h⟩
      | none =>
          have hnot : id ∉ s.visiting := fun hm => acyclic id (he.above id hm)
          obtain ⟨node, hnode⟩ := node_of_lt hid
          let entered : LevelState := { s with visiting := id :: s.visiting }
          have hedge : ∀ child ∈ node.children, g.Edge id child :=
            fun child hc => ⟨node, hnode, hc⟩
          -- a child of `id` is searched with `id` on the path
          have hchild : ∀ t : LevelState, t.visiting = entered.visiting → LevelsOk g t.levels →
              ∀ child ∈ node.children, ∃ lvl t',
                g.computeLevel fuel t child = .ok (lvl, t') ∧ Levelled g t child lvl t' := by
            intro t hv hok child hc
            refine ih t child (wf.child_lt (hedge child hc)) ⟨?_, ?_, ?_, hok⟩ ?_
            · rw [hv]
              exact List.nodup_cons.mpr ⟨hnot, he.distinct⟩
            · rw [hv]
              intro high hh
              rcases List.mem_cons.mp hh with rfl | hh
              · exact hid
              · exact he.inside high hh
            · rw [hv]
              intro high hh
              rcases List.mem_cons.mp hh with rfl | hh
              · exact .single (hedge child hc)
              · exact (he.above high hh).tail (hedge child hc)
            · rw [hv]
              simp only [entered, List.length_cons]
              omega
          obtain ⟨lvl, t, maxLvl, hrun, hdone, habove⟩ := nodeLevel_spec (s := entered) he.ok hchild
          -- the finished entries are below the path, so `id` itself is not among them
          have hfresh : id ∉ t.levels.map Prod.fst := by
            intro hm
            obtain ⟨⟨low, l⟩, hmem, rfl⟩ := List.mem_map.mp hm
            rcases hdone.reached low l hmem with hold | ⟨child, hc, hp⟩
            · exact lookup_eq_none_iff_not_mem.mp hl (List.mem_map_of_mem (f := Prod.fst) hold)
            · exact acyclic low (.head' (hedge child hc) hp)
          refine ⟨lvl, ⟨t.visiting.erase id, (id, lvl) :: t.levels⟩, ?_, ?_⟩
          · simp only [computeLevel, hl, hnot, if_false, hnode]
            rw [show ({ s with visiting := id :: s.visiting } : LevelState) = entered from rfl,
              hrun]
            rfl
          · exact {
              visiting := by simp [hdone.visiting, entered]
              ok := {
                distinct := by simpa using ⟨by simpa using hfresh, hdone.ok.distinct⟩
                lower := by
                  intro high l hm child hedgeHigh
                  rcases List.mem_cons.mp hm with heq | hm
                  · obtain ⟨rfl, rfl⟩ := Prod.mk.inj heq
                    obtain ⟨node', hnode', hc⟩ := hedgeHigh
                    obtain rfl : node = node' := Option.some.inj (hnode.symm.trans hnode')
                    obtain ⟨cl, hcl, hle⟩ := hdone.finished child hc
                    have := habove (List.ne_nil_of_mem hc)
                    exact ⟨cl, List.mem_cons_of_mem _ hcl, by omega⟩
                  · obtain ⟨cl, hcl, hlt⟩ := hdone.ok.lower high l hm child hedgeHigh
                    exact ⟨cl, List.mem_cons_of_mem _ hcl, hlt⟩ }
              kept := fun _ hx => List.mem_cons_of_mem _ (hdone.kept hx)
              done := by simp
              reached := by
                intro low l hm
                rcases List.mem_cons.mp hm with heq | hm
                · obtain ⟨rfl, rfl⟩ := Prod.mk.inj heq
                  exact .inr .refl
                · rcases hdone.reached low l hm with hold | ⟨child, hc, hp⟩
                  · exact .inl hold
                  · exact .inr (.head (hedge child hc) hp) }

-- The levels

/-- The finished table lists exactly what the roots depend on. -/
structure TableOk (g : PirGraph) (roots : List PirNodeId) (s : LevelState) : Prop where
  visiting : s.visiting = []
  ok : LevelsOk g s.levels
  started : ∀ root ∈ roots, root ∈ s.levels.map Prod.fst
  reached : ∀ id lvl, (id, lvl) ∈ s.levels → g.Reachable roots id

/-- The search from every root succeeds, by the loop rule over the roots. -/
theorem roots_spec {g : PirGraph} (acyclic : Acyclic g.Edge) (wf : g.WellFormed)
    {roots : List PirNodeId} (inside : ∀ root ∈ roots, root < g.len)
    : ∃ s,
        roots.foldlM (fun s root => do
          let (_, s) ← g.computeLevel (g.len + 1) s root
          return s) ⟨[], []⟩ = .ok s
        ∧ TableOk g roots s := by
  refine foldlM_ok _ (fun done s => TableOk g done s) roots _ ?_ ?_
  · exact ⟨rfl, ⟨by simp, by simp⟩, by simp, by simp⟩
  · intro done root s hr h
    have hentry : Entry g s root := ⟨by simp [h.visiting], by simp [h.visiting],
      by simp [h.visiting], h.ok⟩
    obtain ⟨lvl, s', hrun, hlev⟩ :=
      computeLevel_spec acyclic wf (g.len + 1) s root (inside root hr) hentry (by omega)
    refine ⟨s', by simp [hrun], hlev.visiting.trans h.visiting, hlev.ok, ?_, ?_⟩
    · intro r hm
      rcases List.mem_append.mp hm with hm | hm
      · obtain ⟨⟨r, l⟩, hl, rfl⟩ := List.mem_map.mp (h.started r hm)
        exact List.mem_map_of_mem (f := Prod.fst) (hlev.kept hl)
      · obtain rfl := List.mem_singleton.mp hm
        exact List.mem_map_of_mem (f := Prod.fst) hlev.done
    · intro id l hm
      rcases hlev.reached id l hm with hold | hp
      · obtain ⟨r, hr, hp⟩ := h.reached id l hold
        exact ⟨r, List.mem_append_left _ hr, hp⟩
      · exact ⟨root, by simp, hp⟩

/-- Everything the roots depend on is in the table, by path induction. -/
theorem TableOk.mem_iff {g : PirGraph} {roots : List PirNodeId} {s : LevelState}
    (h : TableOk g roots s) {id : PirNodeId}
    : id ∈ s.levels.map Prod.fst ↔ g.Reachable roots id := by
  constructor
  · intro hm
    obtain ⟨⟨id, lvl⟩, hl, rfl⟩ := List.mem_map.mp hm
    exact h.reached id lvl hl
  · rintro ⟨root, hr, hp⟩
    induction hp with
    | refl => exact h.started root hr
    | tail _ he ih =>
        obtain ⟨⟨high, lvl⟩, hl, rfl⟩ := List.mem_map.mp ih
        obtain ⟨low, hlow, _⟩ := h.ok.lower high lvl hl _ he
        exact List.mem_map_of_mem (f := Prod.fst) hlow

/-- Levels partition what the roots depend on, and every node lies strictly above the
nodes it reads.
-/
structure Levels (g : PirGraph) (roots : List PirNodeId) (levels : List (List PirNodeId))
    : Prop where
  distinct : levels.flatten.Nodup
  complete : ∀ id, id ∈ levels.flatten ↔ g.Reachable roots id
  ordered : ∀ (i : Nat) level, levels[i]? = some level → ∀ id ∈ level, ∀ child,
    g.Edge id child → ∃ (j : Nat) (low : List PirNodeId),
      j < i
      ∧ levels[j]? = some low
      ∧ child ∈ low

/-- On a well-formed acyclic graph `levelize` succeeds and returns such levels. -/
theorem levelize_spec {g : PirGraph} (acyclic : Acyclic g.Edge) (wf : g.WellFormed)
    {roots : List PirNodeId} (inside : ∀ root ∈ roots, root < g.len)
    : ∃ levels, g.levelize roots = .ok levels ∧ Levels g roots levels := by
  obtain ⟨s, hrun, h⟩ := roots_spec acyclic wf inside
  simp only [levelize, hrun, ok_bind]
  refine ⟨_, rfl, ?_⟩
  set ids := (s.levels.map Prod.fst).insertionSort (· ≤ ·)
  set maxLevel := (s.levels.map Prod.snd).foldl max 0
  have hperm : ids.Perm (s.levels.map Prod.fst) := List.perm_insertionSort _ _
  have hlook {id : PirNodeId} {lvl : Nat} : s.levels.lookup id = some lvl ↔ (id, lvl) ∈ s.levels :=
    ⟨mem_of_lookup, lookup_of_mem h.ok.distinct⟩
  have henough : ∀ id ∈ ids, ∀ lvl, s.levels.lookup id = some lvl → lvl < maxLevel + 1 := by
    intro id _ lvl hl
    exact Nat.lt_succ_of_le
      (le_foldl_max (.inr (List.mem_map_of_mem (f := Prod.snd) (hlook.mp hl))))
  have hids {id : PirNodeId} {lvl : Nat} (hm : (id, lvl) ∈ s.levels) : id ∈ ids :=
    hperm.mem_iff.mpr (List.mem_map_of_mem (f := Prod.fst) hm)
  show Levels g roots (fillBuckets (fun id => s.levels.lookup id) ids (maxLevel + 1))
  refine ⟨nodup_flatten_fillBuckets _ (hperm.nodup_iff.mpr h.ok.distinct), ?_, ?_⟩
  · intro id
    rw [← h.mem_iff, mem_flatten_fillBuckets henough, hperm.mem_iff]
    constructor
    · exact And.left
    · intro hm
      obtain ⟨⟨id, lvl⟩, hl, rfl⟩ := List.mem_map.mp hm
      exact ⟨hm, lvl, hlook.mpr hl⟩
  · intro i level hl id hid child he
    have hlevel := ((mem_of_getElem?_fillBuckets hl).mp hid).2
    obtain ⟨childLvl, hc, hlt⟩ := h.ok.lower id i (hlook.mp hlevel) child he
    have hget := getElem?_fillBuckets (fun id => s.levels.lookup id) ids (maxLevel + 1) childLvl
    rw [if_pos (henough child (hids hc) childLvl (hlook.mpr hc))] at hget
    exact ⟨childLvl, _, hlt, hget,
      (mem_of_getElem?_fillBuckets hget).mpr ⟨hids hc, hlook.mpr hc⟩⟩

end PirGraph

end Xlog.Prob
