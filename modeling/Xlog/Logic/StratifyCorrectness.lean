import Xlog.Foundation.Assoc
import Xlog.Foundation.TarjanComponents
import Xlog.Logic.Stratify

/-! Stratification is sound and complete: it fails exactly on cycles through a strict
dependency, and otherwise numbers every predicate above all it depends on.
-/

namespace Xlog.Logic

open Xlog.Core
open Xlog.Foundation
open DependencyGraph

/-- One predicate depends on another. -/
def DependsOn (learnableStrict : LearnableRule → BodyLiteral → Bool) (program : Program)
    (head body : String) : Prop :=
  ∃ strict, Dependency learnableStrict program head body strict

/-- Some strict dependency lies on a cycle. -/
def HasStrictCycle (learnableStrict : LearnableRule → BodyLiteral → Bool)
    (program : Program) : Prop :=
  ∃ head body,
    Dependency learnableStrict program head body true
    ∧ Relation.ReflTransGen (DependsOn learnableStrict program) body head

/-- Strata numbered from zero, none empty, that hold every predicate once and put every head
at or above its body atoms, strictly above the strict ones.
-/
structure Stratification (learnableStrict : LearnableRule → BodyLiteral → Bool)
    (program : Program) (strata : List Stratum) : Prop where
  ids : strata.map (·.id) = List.range strata.length
  nonempty : ∀ stratum ∈ strata, stratum.predicates ≠ []
  once : (strata.flatMap (·.predicates)).Nodup
  complete : ∀ pred, pred ∈ strata.flatMap (·.predicates) ↔ program.Mentions pred
  ordered : ∀ head body strict, Dependency learnableStrict program head body strict →
    ∀ high ∈ strata, ∀ low ∈ strata, head ∈ high.predicates → body ∈ low.predicates →
      low.id ≤ high.id ∧ (strict = true → low.id < high.id)

/-- Stratification fails exactly on strict cycles and otherwise returns a stratification. -/
structure StratifyCorrect (learnableStrict : LearnableRule → BodyLiteral → Bool)
    (program : Program) : Prop where
  fails_iff : (∃ e, stratify program = .error e) ↔ HasStrictCycle learnableStrict program
  strata : ∀ strata, stratify program = .ok strata →
    Stratification learnableStrict program strata

-- Components

/-- The targets of a predicate's outgoing edges. -/
def successors (g : DependencyGraph) (pred : String) : List String :=
  (g.outgoing pred).map (·.target)

theorem DependencyGraph.Ok.mem_outgoing {g : DependencyGraph} (h : g.Ok) {pred : String}
    {edge : DepEdge}
    : edge ∈ g.outgoing pred ↔ edge ∈ g.edges ∧ edge.source = pred := by
  simp [h.inSync]

theorem DependencyGraph.Ok.mem_successors {g : DependencyGraph} (h : g.Ok) {x y : String}
    : y ∈ successors g x ↔ ∃ edge ∈ g.edges, edge.source = x ∧ edge.target = y := by
  simp only [successors, List.mem_map, h.mem_outgoing]
  constructor
  · intro hmem
    obtain ⟨e, ⟨he, hs⟩, ht⟩ := hmem
    exact ⟨e, he, hs, ht⟩
  · intro hedge
    obtain ⟨e, he, hs, ht⟩ := hedge
    exact ⟨e, ⟨he, hs⟩, ht⟩

/-- The components of a graph, dependencies first, cover exactly its predicates. -/
theorem findSccs_spec {g : DependencyGraph} (h : g.Ok)
    : Tarjan.Components (successors g) (findSccs g)
      ∧ ∀ pred, pred ∈ (findSccs g).flatten ↔ pred ∈ g.predicates := by
  have hperm := List.perm_insertionSort (· ≤ ·) g.predicates
  have hspec := Tarjan.components_spec (successors g)
    (g.predicates.insertionSort (· ≤ ·)) (by
      intro x _ y hy
      obtain ⟨edge, he, _, ht⟩ := h.mem_successors.mp hy
      exact hperm.mem_iff.mpr (ht ▸ (h.endpoints edge he).2))
  exact ⟨hspec.1, fun pred => (hspec.2 pred).trans hperm.mem_iff⟩

/-- A component has a cycle through negation or aggregation when a non-positive edge stays
inside it.
-/
def BadEdge (g : DependencyGraph) (scc : List String) : Prop :=
  ∃ edge ∈ g.edges, edge.source ∈ scc ∧ edge.target ∈ scc ∧ edge.depType ≠ .positive

theorem checkSccForNegationCycle_isSome {g : DependencyGraph} (h : g.Ok) (scc : List String)
    : (checkSccForNegationCycle scc g).isSome = true ↔ BadEdge g scc := by
  have hany : (scc.any fun pred => (g.outgoing pred).any fun edge =>
      edge.target ∈ scc ∧ edge.depType ≠ .positive) = true ↔ BadEdge g scc := by
    simp only [List.any_eq_true, h.mem_outgoing, decide_eq_true_eq, BadEdge]
    constructor
    · intro hmem
      obtain ⟨x, hx, e, ⟨he, hs⟩, ht, hk⟩ := hmem
      exact ⟨e, he, hs ▸ hx, ht, hk⟩
    · intro hedge
      obtain ⟨e, he, hs, ht, hk⟩ := hedge
      exact ⟨e.source, hs, e, ⟨he, rfl⟩, ht, hk⟩
  unfold checkSccForNegationCycle
  split
  · next pred =>
      rw [← hany]
      simp only [List.any_cons, List.any_nil, Bool.or_false, List.mem_singleton]
      split
      · next hc => simpa using hc
      · next hc => simpa using hc
  · rw [← hany]
    split
    · next hc => simpa using hc
    · next hc => simpa using hc

/-- Reachability in the graph is dependency in the program, by path induction. -/
theorem reach_iff {program : Program} {x y : String}
    : Tarjan.Reach (successors (buildDependencyGraph program)) x y
      ↔ Relation.ReflTransGen (DependsOn unmarked program) x y := by
  have hstep : (fun a b => b ∈ successors (buildDependencyGraph program) a)
      = DependsOn unmarked program := by
    funext a b
    rw [(buildDependencyGraph_ok program).mem_successors, exists_edge_iff]
    rfl
  rw [Tarjan.Reach, hstep]

/-- Checking the edges inside each component finds every strict cycle. -/
theorem badEdge_iff_hasStrictCycle (program : Program)
    : (∃ scc ∈ findSccs (buildDependencyGraph program),
        BadEdge (buildDependencyGraph program) scc)
      ↔ HasStrictCycle unmarked program := by
  have hok := buildDependencyGraph_ok program
  obtain ⟨hcomp, hcover⟩ := findSccs_spec hok
  constructor
  · intro hgiven
    obtain ⟨scc, hscc, edge, he, hs, ht, hk⟩ := hgiven
    obtain ⟨root, _, hroot⟩ := hcomp.isComponent hscc
    refine ⟨edge.source, edge.target,
      exists_strict_edge_iff.mp ⟨edge, he, rfl, rfl, hk⟩, reach_iff.mp ?_⟩
    exact ((hroot _).mp ht).2.trans ((hroot _).mp hs).1
  · intro hgiven
    obtain ⟨head, body, hdep, hpath⟩ := hgiven
    obtain ⟨edge, he, rfl, rfl, hk⟩ := exists_strict_edge_iff.mpr hdep
    obtain ⟨scc, hscc, hs⟩ := List.mem_flatten.mp ((hcover _).mpr (hok.endpoints edge he).1)
    obtain ⟨root, _, hroot⟩ := hcomp.isComponent hscc
    obtain ⟨hto, hfrom⟩ := (hroot _).mp hs
    refine ⟨scc, hscc, edge, he, hs, (hroot _).mpr ⟨?_, ?_⟩, hk⟩
    · exact hto.tail (hok.mem_successors.mpr ⟨edge, he, rfl, rfl⟩)
    · exact (reach_iff.mpr hpath).trans hfrom

-- The numbering

/-- The numbering of the components done so far. -/
structure Numbered (g : DependencyGraph) (done : List (List String))
    (state : List (String × Nat) × Nat) : Prop where
  keys : ∀ x, x ∈ state.1.map Prod.fst ↔ x ∈ done.flatten
  distinct : (state.1.map Prod.fst).Nodup
  bound : ∀ x n, (x, n) ∈ state.1 → n ≤ state.2
  ordered : ∀ edge ∈ g.edges, edge.source ∈ done.flatten → ∃ high low,
    (edge.source, high) ∈ state.1
    ∧ (edge.target, low) ∈ state.1
    ∧ low ≤ high
    ∧ (edge.depType ≠ .positive → low < high)

/-- A nested maximum bounds the start and every value. -/
theorem le_foldl_foldl_max {ι κ : Type} (inner : ι → List κ) (value : κ → Nat)
    (items : List ι) (start : Nat)
    : start ≤ items.foldl (fun low i => (inner i).foldl (fun low k => max low (value k)) low)
        start
      ∧ ∀ i ∈ items, ∀ k ∈ inner i, value k
        ≤ items.foldl (fun low i => (inner i).foldl (fun low k => max low (value k)) low)
            start := by
  have hinner : ∀ (ks : List κ) (low : Nat),
      low ≤ ks.foldl (fun low k => max low (value k)) low
      ∧ ∀ k ∈ ks, value k ≤ ks.foldl (fun low k => max low (value k)) low := by
    intro ks
    induction ks with
    | nil => simp
    | cons k ks ih =>
        intro low
        obtain ⟨hlow, hval⟩ := ih (max low (value k))
        refine ⟨(le_max_left _ _).trans hlow, ?_⟩
        intro k' hk'
        rcases List.mem_cons.mp hk' with rfl | hk'
        · exact (le_max_right _ _).trans hlow
        · exact hval k' hk'
  induction items generalizing start with
  | nil => simp
  | cons i items ih =>
      obtain ⟨hlow, hval⟩ := hinner (inner i) start
      obtain ⟨hstart, hrest⟩ :=
        ih ((inner i).foldl (fun low k => max low (value k)) start)
      refine ⟨hlow.trans hstart, ?_⟩
      intro j hj k hk
      rcases List.mem_cons.mp hj with rfl | hj
      · exact (hval k hk).trans hstart
      · exact hrest j hj k hk

theorem foldl_cons_pair (scc : List String) (n : Nat) (strata : List (String × Nat))
    : scc.foldl (fun strata pred => (pred, n) :: strata) strata
      = scc.reverse.map (·, n) ++ strata := by
  induction scc generalizing strata with
  | nil => simp
  | cons pred scc ih => simp [ih]

/-- Numbering one more component without a bad edge keeps the order. -/
theorem Numbered.step {g : DependencyGraph} (h : g.Ok) {done : List (List String)}
    {state : List (String × Nat) × Nat} (hn : Numbered g done state) {scc : List String}
    (distinct : scc.Nodup) (fresh : ∀ x ∈ scc, x ∉ done.flatten)
    (edges : ∀ x ∈ scc, ∀ y ∈ successors g x, y ∈ scc ∨ y ∈ done.flatten)
    (good : ¬ BadEdge g scc)
    : Numbered g (done ++ [scc]) (assignScc g state scc) := by
  set number := scc.foldl (fun low pred => (g.outgoing pred).foldl
    (fun low edge => max low (requiredStratum state.1 edge)) low) 0 with hnumber
  have hstate : assignScc g state scc
      = (scc.reverse.map (·, number) ++ state.1, max state.2 number) := by
    simp only [assignScc, foldl_cons_pair, ← hnumber]
  have hreq : ∀ edge ∈ g.edges, edge.source ∈ scc → requiredStratum state.1 edge ≤ number :=
    fun edge he hs => (le_foldl_foldl_max g.outgoing (requiredStratum state.1) scc 0).2
      edge.source hs edge (h.mem_outgoing.mpr ⟨he, rfl⟩)
  have hnew : ∀ x ∈ scc, (x, number) ∈ scc.reverse.map (·, number) ++ state.1 := fun x hx =>
    List.mem_append_left _ (List.mem_map.mpr ⟨x, List.mem_reverse.mpr hx, rfl⟩)
  have hflat : ∀ x, x ∈ (done ++ [scc]).flatten ↔ x ∈ done.flatten ∨ x ∈ scc := by
    intro x
    simp only [List.flatten_append, List.flatten_cons, List.flatten_nil, List.append_nil,
      List.mem_append]
  rw [hstate]
  refine ⟨?_, ?_, ?_, ?_⟩
  · intro x
    rw [hflat, ← hn.keys]
    simp [Function.comp_def, or_comm]
  · have hmap : (scc.reverse.map (·, number) ++ state.1).map Prod.fst
        = scc.reverse ++ state.1.map Prod.fst := by
      simp [Function.comp_def]
    rw [hmap]
    refine List.nodup_append.mpr ⟨List.nodup_reverse.mpr distinct, hn.distinct, ?_⟩
    intro x hx y hy he
    exact fresh x (List.mem_reverse.mp hx) ((hn.keys x).mp (he ▸ hy))
  · intro x n hx
    rcases List.mem_append.mp hx with hx | hx
    · obtain ⟨_, _, he⟩ := List.mem_map.mp hx
      obtain ⟨_, rfl⟩ := Prod.mk.inj he
      exact le_max_right _ _
    · exact (hn.bound x n hx).trans (le_max_left _ _)
  · intro edge he hs
    rcases (hflat _).mp hs with hs | hs
    · obtain ⟨high, low, hh, hl, hle, hlt⟩ := hn.ordered edge he hs
      exact ⟨high, low, List.mem_append_right _ hh, List.mem_append_right _ hl, hle, hlt⟩
    · rcases edges edge.source hs edge.target (h.mem_successors.mpr ⟨edge, he, rfl, rfl⟩)
        with ht | ht
      · -- an edge inside the component is positive, and both ends get the same number
        refine ⟨number, number, hnew _ hs, hnew _ ht, le_rfl, ?_⟩
        exact fun hk => absurd ⟨edge, he, hs, ht, hk⟩ good
      · obtain ⟨low, hl⟩ := exists_lookup_of_mem_keys ((hn.keys _).mpr ht)
        have hr := hreq edge he hs
        refine ⟨number, low, hnew _ hs, List.mem_append_right _ (mem_of_lookup hl), ?_, ?_⟩
        · simp only [requiredStratum, hl] at hr
          split at hr <;> omega
        · intro hk
          simp only [requiredStratum, hl] at hr
          split at hr
          · next hpos => exact absurd hpos hk
          · omega
          · omega

/-- Numbering the components in order keeps the invariant, by induction on the component
list.
-/
theorem numbered_components {g : DependencyGraph} (h : g.Ok) {sccs : List (List String)}
    (hcomp : Tarjan.Components (successors g) sccs) (good : ∀ scc ∈ sccs, ¬ BadEdge g scc)
    : Numbered g sccs (sccs.foldl (assignScc g) ([], 0)) := by
  induction hcomp with
  | nil => exact ⟨by simp, by simp, by simp, by simp⟩
  | @snoc before scc _ _ distinct fresh edges ih =>
      rw [List.foldl_append]
      exact (ih fun s hs => good s (List.mem_append_left _ hs)).step h distinct fresh edges
        (good scc (by simp))

-- The strata

/-- The predicates with a number, in numbering order. -/
def membersOf (numbering : List (String × Nat)) (n : Nat) : List String :=
  (numbering.filter (·.2 = n)).map Prod.fst

theorem mem_membersOf {numbering : List (String × Nat)} {n : Nat} {x : String}
    : x ∈ membersOf numbering n ↔ (x, n) ∈ numbering := by
  simp [membersOf]

/-- The used strata before renumbering. -/
def usedStrata (numbering : List (String × Nat)) (maxStratum : Nat) : List Stratum :=
  ((List.range (maxStratum + 1)).map fun n =>
    ⟨n, (membersOf numbering n).insertionSort (· ≤ ·)⟩).filter fun s => !s.predicates.isEmpty

/-- Draining the numbering into buckets lists the members of each number. -/
theorem collectStrata_eq (numbering : List (String × Nat)) (maxStratum : Nat)
    : collectStrata numbering maxStratum
      = (usedStrata numbering maxStratum).mapIdx fun i s => { s with id := i } := by
  have hbuckets : (numbering.foldl (fun strata entry =>
        strata.modify entry.2 fun s => { s with predicates := s.predicates ++ [entry.1] })
        ((List.range (maxStratum + 1)).map fun id => ⟨id, []⟩) : List Stratum)
      = (List.range (maxStratum + 1)).map fun n => ⟨n, membersOf numbering n⟩ := by
    have hput : ∀ (entries : List (String × Nat)) (s : Stratum),
        entries.foldl (fun s entry => { s with predicates := s.predicates ++ [entry.1] }) s
          = { s with predicates := s.predicates ++ entries.map Prod.fst } := by
      intro entries
      induction entries with
      | nil => simp
      | cons entry entries ih => simp [ih]
    refine List.ext_getElem? fun i => ?_
    have hfill := foldl_modify_getElem? (fun entry : String × Nat => some entry.2)
      (fun (s : Stratum) entry => { s with predicates := s.predicates ++ [entry.1] }) numbering
      ((List.range (maxStratum + 1)).map fun id => ⟨id, []⟩) i
    simp only [hput] at hfill
    refine hfill.trans ?_
    rcases lt_or_ge i (maxStratum + 1) with hlt | hge
    · simp [List.getElem?_range hlt, membersOf]
    · have hnone : (List.range (maxStratum + 1))[i]? = none :=
        List.getElem?_eq_none (by simpa using hge)
      simp [hnone]
  simp only [collectStrata, hbuckets, usedStrata, List.map_map, Function.comp_def]

theorem mem_usedStrata {numbering : List (String × Nat)} {maxStratum : Nat} {s : Stratum}
    (hs : s ∈ usedStrata numbering maxStratum)
    : s.predicates ≠ []
      ∧ s.predicates = (membersOf numbering s.id).insertionSort (· ≤ ·) := by
  obtain ⟨hm, hne⟩ := List.mem_filter.mp hs
  obtain ⟨n, _, rfl⟩ := List.mem_map.mp hm
  exact ⟨by simpa using hne, rfl⟩

theorem mem_of_mem_usedStrata {numbering : List (String × Nat)} {maxStratum : Nat}
    {s : Stratum} (hs : s ∈ usedStrata numbering maxStratum) {x : String}
    : x ∈ s.predicates ↔ (x, s.id) ∈ numbering := by
  rw [(mem_usedStrata hs).2, (List.perm_insertionSort _ _).mem_iff, mem_membersOf]

theorem usedStrata_sorted (numbering : List (String × Nat)) (maxStratum : Nat)
    : (usedStrata numbering maxStratum).Pairwise fun s t => s.id < t.id := by
  refine List.Pairwise.filter _ (List.pairwise_map.mpr ?_)
  exact List.pairwise_lt_range

/-- A numbered predicate is in some used stratum. -/
theorem exists_usedStratum {numbering : List (String × Nat)} {maxStratum n : Nat}
    {x : String} (hx : (x, n) ∈ numbering) (hle : n ≤ maxStratum)
    : ∃ s ∈ usedStrata numbering maxStratum, x ∈ s.predicates := by
  have hmem : x ∈ (membersOf numbering n).insertionSort (· ≤ ·) :=
    (List.perm_insertionSort _ _).mem_iff.mpr (mem_membersOf.mpr hx)
  refine ⟨⟨n, (membersOf numbering n).insertionSort (· ≤ ·)⟩, List.mem_filter.mpr ⟨?_, ?_⟩, hmem⟩
  · exact List.mem_map.mpr ⟨n, List.mem_range.mpr (by omega), rfl⟩
  · simp only [Bool.not_eq_true', List.isEmpty_eq_false_iff]
    exact List.ne_nil_of_mem hmem

/-- Renumbering the used strata keeps their order, so an ordered numbering becomes a
stratification.
-/
theorem Numbered.stratification {program : Program} {sccs : List (List String)}
    {state : List (String × Nat) × Nat}
    (h : Numbered (buildDependencyGraph program) sccs state)
    (cover : ∀ pred, pred ∈ sccs.flatten ↔ pred ∈ (buildDependencyGraph program).predicates)
    : Stratification unmarked program (collectStrata state.1 state.2) := by
  set used := usedStrata state.1 state.2 with hused
  have hcollect : collectStrata state.1 state.2 = used.mapIdx fun i s => { s with id := i } :=
    collectStrata_eq state.1 state.2
  have hsorted := usedStrata_sorted state.1 state.2
  rw [← hused] at hsorted
  have hpreds : (used.mapIdx fun i s => ({ s with id := i } : Stratum)).map (·.predicates)
      = used.map (·.predicates) := by
    refine List.ext_getElem (by simp) fun i h1 h2 => by simp
  have hflat : (used.mapIdx fun i s => ({ s with id := i } : Stratum)).flatMap (·.predicates)
      = used.flatMap (·.predicates) := by
    rw [List.flatMap_def, hpreds, List.flatMap_def]
  have hkey : ∀ {x a b}, (x, a) ∈ state.1 → (x, b) ∈ state.1 → a = b := fun ha hb =>
    Option.some.inj ((lookup_of_mem h.distinct ha).symm.trans (lookup_of_mem h.distinct hb))
  rw [hcollect]
  refine ⟨?_, ?_, ?_, ?_, ?_⟩
  · refine List.ext_getElem (by simp) fun i h1 h2 => by simp
  · intro s hs
    obtain ⟨i, hi, rfl⟩ := List.mem_mapIdx.mp hs
    exact (mem_usedStrata (List.getElem_mem hi)).1
  · rw [hflat, List.flatMap_def]
    refine List.nodup_flatten.mpr ⟨?_, ?_⟩
    · intro preds hp
      obtain ⟨s, hs, rfl⟩ := List.mem_map.mp hp
      rw [(mem_usedStrata hs).2, (List.perm_insertionSort _ _).nodup_iff]
      exact (List.filter_sublist.map Prod.fst).nodup h.distinct
    · rw [List.pairwise_map]
      refine hsorted.imp_of_mem fun {s t} hs ht hlt x hxs hxt => ?_
      have := hkey ((mem_of_mem_usedStrata hs).mp hxs) ((mem_of_mem_usedStrata ht).mp hxt)
      omega
  · intro pred
    rw [hflat, ← mem_predicates_iff, ← cover, ← h.keys]
    constructor
    · intro hp
      obtain ⟨s, hs, hx⟩ := List.mem_flatMap.mp hp
      exact List.mem_map_of_mem (f := Prod.fst) ((mem_of_mem_usedStrata hs).mp hx)
    · intro hp
      obtain ⟨⟨x, n⟩, hm, rfl⟩ := List.mem_map.mp hp
      obtain ⟨s, hs, hx⟩ := exists_usedStratum hm (h.bound x n hm)
      exact List.mem_flatMap.mpr ⟨s, hs, hx⟩
  · intro head body strict hdep high hh low hl hhead hbody
    obtain ⟨i, hi, rfl⟩ := List.mem_mapIdx.mp hh
    obtain ⟨j, hj, rfl⟩ := List.mem_mapIdx.mp hl
    have hhi := (mem_of_mem_usedStrata (List.getElem_mem hi)).mp hhead
    have hlo := (mem_of_mem_usedStrata (List.getElem_mem hj)).mp hbody
    have hmono : i < j → used[i].id < used[j].id := fun hlt =>
      List.pairwise_iff_getElem.mp hsorted i j hi hj hlt
    have hmono' : j < i → used[j].id < used[i].id := fun hlt =>
      List.pairwise_iff_getElem.mp hsorted j i hj hi hlt
    have hnumbers : ∀ edge ∈ (buildDependencyGraph program).edges, edge.source = head →
        edge.target = body →
        used[j].id ≤ used[i].id ∧ (edge.depType ≠ .positive → used[j].id < used[i].id) := by
      rintro edge he rfl rfl
      obtain ⟨a, b, ha, hb, hle, hlt⟩ := h.ordered edge he
        ((cover _).mpr ((buildDependencyGraph_ok program).endpoints edge he).1)
      rw [hkey hhi ha, hkey hlo hb]
      exact ⟨hle, hlt⟩
    refine ⟨?_, ?_⟩
    · obtain ⟨edge, he, hs, ht⟩ := exists_edge_iff.mpr ⟨strict, hdep⟩
      have := (hnumbers edge he hs ht).1
      show j ≤ i
      by_contra hlt
      have := hmono (by omega)
      omega
    · rintro rfl
      obtain ⟨edge, he, hs, ht, hk⟩ := exists_strict_edge_iff.mpr hdep
      have := (hnumbers edge he hs ht).2 hk
      show j < i
      by_contra hge
      rcases Nat.lt_or_eq_of_le (not_lt.mp hge) with hlt | rfl
      · have := hmono hlt
        omega
      · omega

-- Soundness and completeness

/-- For a deterministic program, stratification fails exactly on cycles through a negated,
modal or aggregated dependency of an ordinary rule, and otherwise returns a stratification.
-/
theorem stratify_correct (program : Program)
    (deterministic : program.isProbabilisticProfile = false)
    : StratifyCorrect unmarked program := by
  have hok := buildDependencyGraph_ok program
  obtain ⟨hcomp, hcover⟩ := findSccs_spec hok
  have hcycle := badEdge_iff_hasStrictCycle program
  cases hfind : (findSccs (buildDependencyGraph program)).findSome?
      (checkSccForNegationCycle · (buildDependencyGraph program)) with
  | some cycle =>
      have herr : stratify program = .error (.stratificationCycle cycle) := by
        simp only [stratify, deterministic, Bool.false_eq_true, if_false, hfind]
      obtain ⟨scc, hscc, hsome⟩ := List.exists_of_findSome?_eq_some hfind
      have hbad := (checkSccForNegationCycle_isSome hok scc).mp (by simp [hsome])
      refine ⟨⟨fun _ => hcycle.mp ⟨scc, hscc, hbad⟩, fun _ => ⟨_, herr⟩⟩, ?_⟩
      intro strata hs
      rw [herr] at hs
      simp at hs
  | none =>
      have hgood : ∀ scc ∈ findSccs (buildDependencyGraph program),
          ¬ BadEdge (buildDependencyGraph program) scc := by
        intro scc hscc hbad
        have hnone := List.findSome?_eq_none_iff.mp hfind scc hscc
        have := (checkSccForNegationCycle_isSome hok scc).mpr hbad
        simp [hnone] at this
      have hrun : stratify program = .ok (collectStrata
          ((findSccs (buildDependencyGraph program)).foldl
            (assignScc (buildDependencyGraph program)) ([], 0)).1
          ((findSccs (buildDependencyGraph program)).foldl
            (assignScc (buildDependencyGraph program)) ([], 0)).2) := by
        simp only [stratify, deterministic, Bool.false_eq_true, if_false, hfind]
      refine ⟨⟨?_, ?_⟩, ?_⟩
      · intro hgiven
        obtain ⟨e, he⟩ := hgiven
        rw [hrun] at he
        simp at he
      · intro hc
        obtain ⟨scc, hscc, hbad⟩ := hcycle.mpr hc
        exact absurd hbad (hgood scc hscc)
      · intro strata hs
        rw [hrun] at hs
        obtain rfl := Except.ok.inj hs
        exact (numbered_components hok hcomp hgood).stratification hcover

/-- A negated atom: `p :- q, not r.` and `r :- q.` -/
def negatedRules : Program :=
  { Program.empty with rules := [
      ⟨⟨"p", []⟩, [.positive ⟨"q", []⟩, .negated ⟨"r", []⟩]⟩,
      ⟨⟨"r", []⟩, [.positive ⟨"q", []⟩]⟩] }

theorem stratify_correct_negatedRules : StratifyCorrect unmarked negatedRules :=
  stratify_correct negatedRules (by decide)

example : stratify negatedRules = .ok [⟨0, ["q", "r"]⟩, ⟨1, ["p"]⟩] := by decide

/-- A learnable rule whose head occurs negated in its body. -/
def learnableNegation : Program :=
  { Program.empty with learnableRules := [
      ⟨"mask", ⟨"p", []⟩, [.positive ⟨"q", []⟩, .negated ⟨"p", []⟩]⟩] }

/-- Counting the marks of learnable rules, stratification misses a cycle: it accepts a
learnable rule that depends on its own negated head.
-/
theorem learnableNegation_not_correct
    : learnableNegation.isProbabilisticProfile = false
      ∧ ¬ StratifyCorrect LearnableRule.dependsStrictly learnableNegation := by
  refine ⟨by decide, fun h => ?_⟩
  have hcycle : HasStrictCycle LearnableRule.dependsStrictly learnableNegation :=
    ⟨"p", "p", @Dependency.learnable _ learnableNegation
      ⟨"mask", ⟨"p", []⟩, [.positive ⟨"q", []⟩, .negated ⟨"p", []⟩]⟩ (.negated ⟨"p", []⟩)
      ⟨"p", []⟩ (by simp [learnableNegation]) (by simp) rfl, .refl⟩
  obtain ⟨e, he⟩ := h.fails_iff.mpr hcycle
  have hrun : (stratify learnableNegation).toBool = true := by decide
  rw [he] at hrun
  simp [Except.toBool] at hrun

end Xlog.Logic
