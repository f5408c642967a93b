import Xlog.Gpu.WfsMeaning

/-! What the transforms keep of a body: the positive atoms and the other literals stay, each negated atom is
dropped or reads a frozen relation. The names of the frozen relations are new, and negation over them
reads the store they were filled from.
-/

namespace Xlog.Gpu

open Xlog.Core Xlog.Foundation Xlog.Logic

-- Literals

theorem transformWfsLiteral_eq_positive {negation : WfsNegationTransform}
    {literal : BodyLiteral} {atom : Atom}
    : transformWfsLiteral negation literal = .ok (some (.positive atom))
      ↔ literal = .positive atom := by
  cases literal with
  | negated other =>
      cases negation with
      | drop => simp [transformWfsLiteral]
      | rename names schemas =>
          cases hname : names.lookup other.predicate <;> simp [transformWfsLiteral, hname]
  | positive | epistemic | comparison | isExpr | univ =>
      cases negation <;> simp [transformWfsLiteral]

/-- A literal that is no atom comes from itself. -/
theorem transformWfsLiteral_eq_builtin {negation : WfsNegationTransform}
    {literal image : BodyLiteral} (builtin : image.ordinaryAtom = none)
    : transformWfsLiteral negation literal = .ok (some image) ↔ literal = image := by
  cases literal with
  | negated other =>
      have hne : BodyLiteral.negated other ≠ image := by
        rintro rfl
        simp [BodyLiteral.ordinaryAtom] at builtin
      cases negation with
      | drop => simp [transformWfsLiteral, hne]
      | rename names schemas =>
          cases hname : names.lookup other.predicate with
          | none => simp [transformWfsLiteral, hname, hne]
          | some name =>
              simp only [transformWfsLiteral, hname, Except.ok.injEq, Option.some.injEq, hne,
                iff_false]
              rintro rfl
              simp [BodyLiteral.ordinaryAtom] at builtin
  | positive | epistemic | comparison | isExpr | univ =>
      cases negation <;> simp [transformWfsLiteral]

/-- A negated literal comes from a negated one. -/
theorem transformWfsLiteral_eq_negated {negation : WfsNegationTransform}
    {literal : BodyLiteral} {fixed : Atom}
    (h : transformWfsLiteral negation literal = .ok (some (.negated fixed)))
    : ∃ atom, literal = .negated atom := by
  cases literal with
  | negated other => exact ⟨other, rfl⟩
  | positive | epistemic | comparison | isExpr | univ =>
      cases negation <;> simp [transformWfsLiteral] at h

/-- A negated literal is dropped, or reads the relation its name stands for. -/
theorem transformWfsLiteral_negated {negation : WfsNegationTransform} {atom : Atom}
    {image : Option BodyLiteral} (h : transformWfsLiteral negation (.negated atom) = .ok image)
    : image = none ∧ negation = .drop
      ∨ ∃ names schemas name, negation = .rename names schemas
        ∧ names.lookup atom.predicate = some name
        ∧ image = some (.negated (fixedAtom name atom)) := by
  cases negation with
  | drop => exact .inl ⟨by simpa [transformWfsLiteral] using h.symm, rfl⟩
  | rename names schemas =>
      cases hname : names.lookup atom.predicate with
      | none => simp [transformWfsLiteral, hname] at h
      | some name =>
          simp only [transformWfsLiteral, hname, Except.ok.injEq] at h
          exact .inr ⟨names, schemas, name, rfl, hname, h.symm⟩

-- Bodies

theorem mem_transformWfsBody {body body' : List BodyLiteral} {negation : WfsNegationTransform}
    (h : transformWfsBody body negation = .ok body') {image : BodyLiteral}
    : image ∈ body'
      ↔ ∃ literal ∈ body, transformWfsLiteral negation literal = .ok (some image) := by
  obtain ⟨images, hmap, heq⟩ := bind_eq_ok.mp h
  cases heq
  constructor
  · intro hmem
    obtain ⟨entry, hentry, hsome⟩ := List.mem_filterMap.mp hmem
    obtain ⟨literal, hliteral, hrun⟩ := exists_of_mem_mapM hmap hentry
    exact ⟨literal, hliteral, by rw [hrun]; exact congrArg _ hsome⟩
  · intro hex
    obtain ⟨literal, hliteral, hrun⟩ := hex
    obtain ⟨entry, hentry, hrun'⟩ := exists_result_of_mapM hmap hliteral
    rw [hrun] at hrun'
    cases hrun'
    exact List.mem_filterMap.mpr ⟨_, hentry, rfl⟩

/-- A body and its transform. -/
structure BodyImage (negation : WfsNegationTransform) (body body' : List BodyLiteral)
    : Prop where
  positive : ∀ atom, .positive atom ∈ body' ↔ .positive atom ∈ body
  negated : ∀ fixed, .negated fixed ∈ body' ↔ ∃ atom, .negated atom ∈ body
    ∧ transformWfsLiteral negation (.negated atom) = .ok (some (.negated fixed))
  total : ∀ atom, .negated atom ∈ body
    → ∃ image, transformWfsLiteral negation (.negated atom) = .ok image
  kept : ∀ literal ∈ body, literal.ordinaryAtom = none → literal ∈ body'
  added : ∀ literal ∈ body', literal.ordinaryAtom = none
    → literal ∈ body ∨ literal = unitLiteral

theorem transformWfsBody_image {body body' : List BodyLiteral}
    {negation : WfsNegationTransform} (h : transformWfsBody body negation = .ok body')
    : BodyImage negation body body' where
  positive atom := by
    simp [mem_transformWfsBody h, transformWfsLiteral_eq_positive]
  negated fixed := by
    rw [mem_transformWfsBody h]
    constructor
    · intro hex
      obtain ⟨literal, hmem, hrun⟩ := hex
      obtain ⟨atom, rfl⟩ := transformWfsLiteral_eq_negated hrun
      exact ⟨atom, hmem, hrun⟩
    · intro hex
      obtain ⟨atom, hmem, hrun⟩ := hex
      exact ⟨_, hmem, hrun⟩
  total atom hmem := by
    obtain ⟨images, hmap, _⟩ := bind_eq_ok.mp h
    obtain ⟨image, _, hrun⟩ := exists_result_of_mapM hmap hmem
    exact ⟨image, hrun⟩
  kept literal hmem builtin :=
    (mem_transformWfsBody h).mpr ⟨literal, hmem, (transformWfsLiteral_eq_builtin builtin).mpr rfl⟩
  added literal hmem builtin := by
    obtain ⟨other, hother, hrun⟩ := (mem_transformWfsBody h).mp hmem
    cases (transformWfsLiteral_eq_builtin builtin).mp hrun
    exact .inl hother

/-- A unit in place of an empty body is read as the empty body. -/
theorem BodyImage.unit {negation : WfsNegationTransform} {body : List BodyLiteral}
    (h : BodyImage negation body [])
    : BodyImage negation body [unitLiteral] where
  positive atom := by
    have := h.positive atom
    simpa [unitLiteral] using this
  negated fixed := by
    have := h.negated fixed
    simpa [unitLiteral] using this
  total := h.total
  kept literal hmem builtin := absurd (h.kept literal hmem builtin) List.not_mem_nil
  added literal hmem _ := .inr (List.mem_singleton.mp hmem)

theorem wfsTransformRule_image {negation : WfsNegationTransform} {rule rule' : Rule}
    (h : wfsTransformRule negation rule = .ok rule')
    : rule'.head = rule.head ∧ BodyImage negation rule.body rule'.body := by
  obtain ⟨body, hbody, heq⟩ := bind_eq_ok.mp h
  cases heq
  have himage := transformWfsBody_image hbody
  refine ⟨rfl, ?_⟩
  show BodyImage negation rule.body
    (if (!rule.isFact && body.isEmpty) = true then [unitLiteral] else body)
  by_cases hempty : (!rule.isFact && body.isEmpty) = true
  · rw [if_pos hempty]
    have hnil : body = [] := List.isEmpty_iff.mp (Bool.and_eq_true_iff.mp hempty).2
    exact BodyImage.unit (hnil ▸ himage)
  · rwa [if_neg hempty]

theorem wfsTransformConstraint_image {negation : WfsNegationTransform}
    {constraint constraint' : Constraint}
    (h : wfsTransformConstraint negation constraint = .ok constraint')
    : constraint'.authoredIndex = constraint.authoredIndex
      ∧ BodyImage negation constraint.body constraint'.body := by
  obtain ⟨body, hbody, heq⟩ := bind_eq_ok.mp h
  cases heq
  exact ⟨rfl, transformWfsBody_image hbody⟩

-- Firing

section

variable {V : Type} (reading : Reading V)

/-- No tuple of a negated atom is in the set. -/
def Open (assignment : reading.Assignment) (body : List BodyLiteral)
    (frozen : Set (GroundAtom V)) : Prop :=
  ∀ atom, .negated atom ∈ body → ∀ a, Stands reading assignment atom a → a ∉ frozen

/-- An instance of the rule with this head and these positive atoms is in force. -/
def Fires (rule : Rule) (frozen : Set (GroundAtom V)) (head : GroundAtom V)
    (pos : Set (GroundAtom V)) : Prop :=
  ∃ assignment, Stands reading assignment rule.head head
    ∧ (∀ atom, .positive atom ∈ rule.body → ∃ a ∈ pos, Stands reading assignment atom a)
    ∧ (∀ a ∈ pos, ∃ atom, .positive atom ∈ rule.body ∧ Stands reading assignment atom a)
    ∧ BuiltinsHold reading assignment rule.body
    ∧ Open reading assignment rule.body frozen

theorem Fires.exists_instance {rule : Rule} {frozen : Set (GroundAtom V)} {head : GroundAtom V}
    {pos : Set (GroundAtom V)} (h : Fires reading rule frozen head pos)
    : ∃ g ∈ instances reading rule, g.head = head ∧ g.pos = pos ∧ Disjoint g.neg frozen := by
  obtain ⟨assignment, hhead, hmatched, honly, hbuiltins, hopen⟩ := h
  refine ⟨⟨head, pos, _⟩, ⟨assignment, hhead, hmatched, honly, rfl, hbuiltins⟩, rfl, rfl, ?_⟩
  refine Set.disjoint_left.mpr fun a ha hfrozen => ?_
  obtain ⟨atom, hmem, hstands⟩ := ha
  exact hopen atom hmem a hstands hfrozen

theorem fires_of_instance {rule : Rule} {frozen : Set (GroundAtom V)}
    {g : NormalRule (GroundAtom V)} (h : g ∈ instances reading rule)
    (hdisjoint : Disjoint g.neg frozen)
    : Fires reading rule frozen g.head g.pos := by
  obtain ⟨assignment, hhead, hbody⟩ := h
  refine ⟨assignment, hhead, hbody.matched, hbody.only, hbody.builtins, ?_⟩
  intro atom hmem a hstands
  refine Set.disjoint_left.mp hdisjoint ?_
  rw [hbody.negated]
  exact ⟨atom, hmem, hstands⟩

/-- A body holds in a set of atoms, its negated atoms against a fixed set. -/
def BodyDerives (atoms frozen : Set (GroundAtom V)) (assignment : reading.Assignment)
    (body : List BodyLiteral) : Prop :=
  BuiltinsHold reading assignment body
  ∧ (∀ atom, .positive atom ∈ body → ∃ a ∈ atoms, Stands reading assignment atom a)
  ∧ Open reading assignment body frozen

/-- The least model of rules and facts: the facts, and the heads of the rules whose bodies hold
in it.
-/
theorem mem_consequences_iff {rules : List Rule} {facts frozen : Set (GroundAtom V)}
    {a : GroundAtom V}
    : a ∈ consequences (groundRules reading rules facts) frozen
      ↔ a ∈ facts ∨ ∃ rule ∈ rules, ∃ assignment, Stands reading assignment rule.head a
        ∧ BodyDerives reading (consequences (groundRules reading rules facts) frozen) frozen
          assignment rule.body := by
  constructor
  · intro h
    obtain ⟨g, hg, rfl, hpos, hneg⟩ := exists_rule_of_mem_consequences h
    rcases hg with ⟨rule, hrule, hg⟩ | ⟨b, hb, rfl⟩
    · obtain ⟨assignment, hhead, hmatched, _, hbuiltins, hopen⟩ :=
        fires_of_instance reading hg hneg
      refine .inr ⟨rule, hrule, assignment, hhead, hbuiltins, fun atom hatom => ?_, hopen⟩
      obtain ⟨b, hb, hstands⟩ := hmatched atom hatom
      exact ⟨b, hpos hb, hstands⟩
    · exact .inl hb
  · intro h
    rcases h with ha | ⟨rule, hrule, assignment, hhead, hbuiltins, hmatched, hopen⟩
    · have hfact : (⟨a, ∅, ∅⟩ : NormalRule (GroundAtom V)) ∈ groundRules reading rules facts :=
        .inr ⟨a, ha, rfl⟩
      exact head_mem_consequences hfact (Set.empty_subset _) (Set.empty_disjoint _)
    · have hfires : Fires reading rule frozen a
          { b | b ∈ consequences (groundRules reading rules facts) frozen
            ∧ ∃ atom, .positive atom ∈ rule.body ∧ Stands reading assignment atom b } := by
        refine ⟨assignment, hhead, fun atom hatom => ?_, fun b hb => hb.2, hbuiltins, hopen⟩
        obtain ⟨b, hb, hstands⟩ := hmatched atom hatom
        exact ⟨b, ⟨hb, atom, hatom, hstands⟩, hstands⟩
      obtain ⟨g, hg, rfl, hpos, hneg⟩ := hfires.exists_instance
      exact head_mem_consequences (.inl ⟨rule, hrule, hg⟩) (hpos ▸ fun b hb => hb.1) hneg

/-- How a transform's negated literals read a store, in place of the source's ones reading a
frozen set.
-/
structure ReadsFrozen (source : Program) (negation : WfsNegationTransform)
    (frozen store : Set (GroundAtom V)) : Prop where
  dropped : negation = .drop → frozen = ∅
  renamed : ∀ atom ∈ source.atoms, ∀ fixed,
    transformWfsLiteral negation (.negated atom) = .ok (some (.negated fixed))
    → ∀ assignment, (∀ a, Stands reading assignment atom a → a ∉ frozen)
      ↔ ∀ a, Stands reading assignment fixed a → a ∉ store

variable {reading} {source : Program} {negation : WfsNegationTransform}
  {frozen store : Set (GroundAtom V)} {body body' : List BodyLiteral}

theorem BodyImage.open_iff (h : BodyImage negation body body')
    (reads : ReadsFrozen reading source negation frozen store)
    (within : ∀ atom, .negated atom ∈ body → atom ∈ source.atoms)
    (assignment : reading.Assignment)
    : Open reading assignment body' store ↔ Open reading assignment body frozen := by
  constructor
  · intro hopen atom hmem
    obtain ⟨image, hrun⟩ := h.total atom hmem
    rcases transformWfsLiteral_negated hrun with ⟨_, hdrop⟩ | ⟨_, _, name, _, _, rfl⟩
    · rw [reads.dropped hdrop]
      exact fun _ _ => Set.notMem_empty _
    · exact (reads.renamed atom (within atom hmem) _ hrun assignment).mpr
        (hopen _ ((h.negated _).mpr ⟨atom, hmem, hrun⟩))
  · intro hopen fixed hmem
    obtain ⟨atom, hatom, hrun⟩ := (h.negated fixed).mp hmem
    exact (reads.renamed atom (within atom hatom) fixed hrun assignment).mp (hopen atom hatom)

theorem BodyImage.builtinsHold_iff (h : BodyImage negation body body')
    {assignment : reading.Assignment} (unit : reading.literal assignment unitLiteral)
    : BuiltinsHold reading assignment body' ↔ BuiltinsHold reading assignment body := by
  constructor
  · exact fun hall literal hmem builtin =>
      hall literal (h.kept literal hmem builtin) builtin
  · intro hall literal hmem builtin
    rcases h.added literal hmem builtin with hold | rfl
    · exact hall literal hold builtin
    · exact unit

/-- A rule fires exactly when its transform does. -/
theorem fires_image_iff {rule rule' : Rule} (hhead : rule'.head = rule.head)
    (h : BodyImage negation rule.body rule'.body)
    (reads : ReadsFrozen reading source negation frozen store)
    (within : ∀ atom, .negated atom ∈ rule.body → atom ∈ source.atoms)
    (unit : ∀ assignment, reading.literal assignment unitLiteral) {head : GroundAtom V}
    {pos : Set (GroundAtom V)}
    : Fires reading rule' store head pos ↔ Fires reading rule frozen head pos := by
  refine exists_congr fun assignment => ?_
  rw [hhead, h.builtinsHold_iff (unit assignment), h.open_iff reads within assignment]
  simp only [h.positive]

end

-- Names

theorem suffixedName_injective (start pred : String)
    : Function.Injective (suffixedName start pred) := by
  intro left right h
  simpa [suffixedName, String.append_left_inj, String.append_right_inj, Nat.repr_inj] using h

/-- The chosen name is free: more suffixes are tried than names are taken. -/
theorem freshName_notMem (reserved : List String) (start pred : String)
    : freshName reserved start pred ∉ reserved := by
  unfold freshName
  split
  · have hsome : ∃ name ∈ (List.range (reserved.length + 1)).map (suffixedName start pred),
        name ∉ reserved := by
      by_contra hall
      push Not at hall
      have hnodup : ((List.range (reserved.length + 1)).map (suffixedName start pred)).Nodup :=
        List.nodup_range.map (suffixedName_injective start pred)
      have hlength := (hnodup.subperm hall).length_le
      simp at hlength
    obtain ⟨name, hmem, hfree⟩ := hsome
    cases hfind : ((List.range (reserved.length + 1)).map (suffixedName start pred)).find?
      (· ∉ reserved) with
    | none => exact absurd hfree (by simpa using List.find?_eq_none.mp hfind name hmem)
    | some found => simpa using List.find?_some hfind
  · assumption

theorem freshName_eq_append (reserved : List String) (start pred : String)
    : ∃ rest, freshName reserved start pred = start ++ "_" ++ rest := by
  unfold freshName
  split
  · cases hfind : ((List.range (reserved.length + 1)).map (suffixedName start pred)).find?
      (· ∉ reserved) with
    | none => exact ⟨pred, rfl⟩
    | some found =>
        obtain ⟨suffix, _, rfl⟩ := List.mem_map.mp (List.mem_of_find?_eq_some hfind)
        exact ⟨suffix.repr ++ "_" ++ pred, by simp [suffixedName, String.append_assoc]⟩
  · exact ⟨pred, rfl⟩

/-- The names given so far are distinct and reserved. -/
structure NamesGiven (start : String) (state : List String × List (String × String))
    : Prop where
  reserved : ∀ entry ∈ state.2, entry.2 ∈ state.1
  distinct : (state.2.map Prod.snd).Nodup
  named : ∀ entry ∈ state.2, ∃ rest, entry.2 = start ++ "_" ++ rest

theorem NamesGiven.add {start : String} {state : List String × List (String × String)}
    (h : NamesGiven start state) (pred : String)
    : NamesGiven start (addFixedName start state pred) where
  reserved entry hmem := by
    rcases List.mem_append.mp hmem with hmem | hmem
    · exact List.mem_cons_of_mem _ (h.reserved entry hmem)
    · rw [List.mem_singleton.mp hmem]
      exact List.mem_cons_self
  distinct := by
    have hfresh := freshName_notMem state.1 start pred
    simp only [addFixedName, List.map_append, List.map_cons, List.map_nil]
    refine List.Nodup.append h.distinct (List.nodup_singleton _) ?_
    refine List.disjoint_singleton.mpr fun hmem => ?_
    obtain ⟨entry, hentry, heq⟩ := List.mem_map.mp hmem
    exact hfresh (heq ▸ h.reserved entry hentry)
  named entry hmem := by
    rcases List.mem_append.mp hmem with hmem | hmem
    · exact h.named entry hmem
    · rw [List.mem_singleton.mp hmem]
      exact freshName_eq_append state.1 start pred

theorem NamesGiven.foldl {start : String} (predicates : List String)
    {state : List String × List (String × String)} (h : NamesGiven start state)
    : NamesGiven start (predicates.foldl (addFixedName start) state)
      ∧ (predicates.foldl (addFixedName start) state).2.map Prod.fst
        = state.2.map Prod.fst ++ predicates := by
  induction predicates generalizing state with
  | nil => exact ⟨h, by simp⟩
  | cons pred predicates ih =>
      obtain ⟨hgiven, hkeys⟩ := ih (h.add pred)
      refine ⟨hgiven, ?_⟩
      rw [List.foldl_cons, hkeys]
      simp [addFixedName]

/-- The frozen relations of a program: one for each predicate, under distinct names. -/
theorem wfsFixedNames_spec (program : Program) (predicates : List String) (start : String)
    : ((wfsFixedNames program predicates start).map Prod.fst = predicates)
      ∧ ((wfsFixedNames program predicates start).map Prod.snd).Nodup
      ∧ ∀ entry ∈ wfsFixedNames program predicates start,
        ∃ rest, entry.2 = start ++ "_" ++ rest := by
  have hstart : NamesGiven start (program.predicates.map PredDecl.name, []) :=
    ⟨by simp, by simp, by simp⟩
  obtain ⟨hgiven, hkeys⟩ := hstart.foldl predicates
  exact ⟨by simpa [wfsFixedNames] using hkeys, hgiven.distinct, hgiven.named⟩

theorem wfsNegatedPredicates_nodup (program : Program)
    : (wfsNegatedPredicates program).Nodup :=
  (List.perm_insertionSort _ _).nodup_iff.mpr (List.nodup_dedup _)

-- Filling

section

variable {V Plan : Type} (context : GpuContext V Plan)

theorem exists_gpuCloneOrEmpty {schemas : Schemas} {target : String} {schema : Schema}
    (h : schemas target = some schema) (sourceName : String) (store : RelationStore V)
    : ∃ buffer, gpuCloneOrEmpty context schemas sourceName target store = .ok buffer := by
  simp only [gpuCloneOrEmpty, h, Option.some_or]
  cases store sourceName with
  | none => exact ⟨_, rfl⟩
  | some buffer =>
      dsimp only
      split
      · split <;> exact ⟨_, rfl⟩
      · exact ⟨_, rfl⟩

/-- Filling frozen relations succeeds and leaves the other relations as they were, by list
induction.
-/
theorem addFixedRelations_spec (pass : GpuOrdinaryPass Plan)
    (entries : List (String × String × RelationStore V))
    (distinct : (entries.map (·.2.1)).Nodup)
    (declared : ∀ entry ∈ entries, ∃ schema, pass.schemas entry.2.1 = some schema)
    (store : RelationStore V)
    : ∃ out, addFixedRelations context pass entries store = .ok out
      ∧ (∀ name, name ∉ entries.map (·.2.1) → out name = store name)
      ∧ ∀ entry ∈ entries, ∃ buffer, out entry.2.1 = some buffer
        ∧ gpuCloneOrEmpty context pass.schemas entry.1 entry.2.1 entry.2.2 = .ok buffer := by
  induction entries generalizing store with
  | nil => exact ⟨store, rfl, fun _ _ => rfl, by simp⟩
  | cons entry entries ih =>
      obtain ⟨schema, hschema⟩ := declared entry List.mem_cons_self
      obtain ⟨buffer, hbuffer⟩ :=
        exists_gpuCloneOrEmpty context hschema entry.1 entry.2.2
      simp only [List.map_cons, List.nodup_cons] at distinct
      obtain ⟨out, hrun, hother, hfilled⟩ := ih distinct.2
        (fun e he => declared e (List.mem_cons_of_mem _ he)) (store.put entry.2.1 buffer)
      refine ⟨out, ?_, ?_, ?_⟩
      · simp only [addFixedRelations, List.foldlM_cons, hbuffer, ok_bind]
        exact hrun
      · intro name hname
        simp only [List.map_cons, List.mem_cons, not_or] at hname
        rw [hother name hname.2, RelationStore.put, Function.update_of_ne hname.1]
      · intro e he
        rcases List.mem_cons.mp he with rfl | he
        · refine ⟨buffer, ?_, hbuffer⟩
          rw [hother _ distinct.1, RelationStore.put, Function.update_self]
        · exact hfilled e he

-- Reading

/-- The unit tuple is in a nullary relation exactly when it has a row. -/
theorem nil_mem_rows_iff {buffer : Buffer V} (nullary : buffer.schema.arity = 0)
    : [] ∈ buffer.rows ↔ buffer.rows.card ≠ 0 := by
  rw [Finset.card_ne_zero]
  constructor
  · exact fun h => ⟨[], h⟩
  · intro h
    obtain ⟨row, hrow⟩ := h
    have hlength := buffer.width row hrow
    rw [nullary] at hlength
    exact List.length_eq_zero_iff.mp hlength ▸ hrow

/-- A frozen relation of a nullary predicate has the marker exactly when the predicate
holds.
-/
theorem mem_unitFixed_iff {schemas : Schemas} {source fixed : String} {schema : Schema}
    {origin store : RelationStore V} {buffer : Buffer V} (target : schemas fixed = some schema)
    (unary : schema.arity = 1)
    (nullary : ∀ original, origin source = some original → original.schema.arity = 0)
    (filled : gpuCloneOrEmpty context schemas source fixed origin = .ok buffer)
    (held : store fixed = some buffer) (row : List V)
    : (fixed, row) ∈ atomsOf store ↔ row = [context.marker] ∧ (source, []) ∈ atomsOf origin := by
  have hstore : (fixed, row) ∈ atomsOf store ↔ row ∈ buffer.rows := by
    simp [atomsOf, held]
  rw [hstore]
  simp only [gpuCloneOrEmpty, target, Option.some_or] at filled
  cases horiginal : origin source with
  | none =>
      simp only [horiginal, Except.ok.injEq] at filled
      subst filled
      simp [Buffer.empty, atomsOf, horiginal]
  | some original =>
      have hzero := nullary original horiginal
      simp only [horiginal, hzero, unary, and_self, dite_true] at filled
      have hmem : (source, []) ∈ atomsOf origin ↔ original.rows.card ≠ 0 := by
        rw [← nil_mem_rows_iff hzero]
        simp [atomsOf, horiginal]
      rw [hmem]
      split at filled
      · cases filled
        simp [Buffer.empty, *]
      · cases filled
        simp [Buffer.unit, *]

/-- A frozen relation of another predicate has its rows. -/
theorem mem_clonedFixed_iff {schemas : Schemas} {source fixed : String} {schema : Schema}
    {origin store : RelationStore V} {buffer : Buffer V} (target : schemas fixed = some schema)
    (columns : ∀ original, origin source = some original → original.schema.arity ≠ 0)
    (filled : gpuCloneOrEmpty context schemas source fixed origin = .ok buffer)
    (held : store fixed = some buffer) (row : List V)
    : (fixed, row) ∈ atomsOf store ↔ (source, row) ∈ atomsOf origin := by
  have hstore : (fixed, row) ∈ atomsOf store ↔ row ∈ buffer.rows := by
    simp [atomsOf, held]
  rw [hstore]
  simp only [gpuCloneOrEmpty, target, Option.some_or] at filled
  cases horiginal : origin source with
  | none =>
      simp only [horiginal, Except.ok.injEq] at filled
      subst filled
      simp [Buffer.empty, atomsOf, horiginal]
  | some original =>
      have hne := columns original horiginal
      simp only [horiginal, hne, false_and, dite_false, Except.ok.injEq] at filled
      subst filled
      simp [atomsOf, horiginal]

/-- The number of columns of a frozen relation. -/
def fixedColumns (columns : Nat) : Nat := if columns = 0 then 1 else columns

/-- A frozen relation is filled with rows of its own columns. -/
theorem gpuCloneOrEmpty_arity {schemas : Schemas} {source fixed : String} {schema : Schema}
    {origin : RelationStore V} {buffer : Buffer V} {columns : Nat}
    (target : schemas fixed = some schema) (fixedArity : schema.arity = fixedColumns columns)
    (original : ∀ buffer, origin source = some buffer → buffer.schema.arity = columns)
    (filled : gpuCloneOrEmpty context schemas source fixed origin = .ok buffer)
    : buffer.schema.arity = schema.arity := by
  simp only [gpuCloneOrEmpty, target, Option.some_or] at filled
  cases horiginal : origin source with
  | none =>
      simp only [horiginal, Except.ok.injEq] at filled
      subst filled
      rfl
  | some kept =>
      have hkept := original kept horiginal
      simp only [horiginal] at filled
      by_cases hzero : columns = 0
      · have hunit : kept.schema.arity = 0 ∧ schema.arity = 1 := by
          simp [hkept, fixedArity, fixedColumns, hzero]
        simp only [hunit, and_self, dite_true] at filled
        split at filled <;> cases filled <;> rfl
      · have hunit : ¬ (kept.schema.arity = 0 ∧ schema.arity = 1) := by
          simp [hkept, hzero]
        simp only [hunit, dite_false, Except.ok.injEq] at filled
        subst filled
        simp [hkept, fixedArity, fixedColumns, hzero]

/-- Negation over the frozen relation reads the store it was filled from. -/
theorem fixedAtom_reads {reading : Reading V} {schemas : Schemas} {fixed : String} {atom : Atom}
    {schema : Schema} {origin store : RelationStore V} {buffer : Buffer V}
    (units : ReadsUnit reading context) (target : schemas fixed = some schema)
    (columns : schema.arity = fixedColumns atom.terms.length)
    (original : ∀ buffer, origin atom.predicate = some buffer
      → buffer.schema.arity = atom.terms.length)
    (filled : gpuCloneOrEmpty context schemas atom.predicate fixed origin = .ok buffer)
    (held : store fixed = some buffer) (assignment : reading.Assignment)
    : (∀ a, Stands reading assignment atom a → a ∉ atomsOf origin)
      ↔ ∀ a, Stands reading assignment (fixedAtom fixed atom) a → a ∉ atomsOf store := by
  by_cases hzero : atom.terms.length = 0
  · have hnil : atom.terms = [] := List.length_eq_zero_iff.mp hzero
    rw [hzero] at columns original
    have hmem := mem_unitFixed_iff context target columns original filled held
    constructor
    · intro hall a hstands hin
      obtain ⟨name, row⟩ := a
      obtain rfl : name = fixed := hstands.1
      exact hall _ ⟨rfl, by simp [hnil]⟩ ((hmem row).mp hin).2
    · intro hall a hstands hin
      obtain ⟨name, row⟩ := a
      obtain rfl : name = atom.predicate := hstands.1
      obtain rfl : row = [] := by simpa [hnil] using hstands.2
      refine hall (fixed, [context.marker]) ⟨rfl, ?_⟩ ((hmem _).mpr ⟨rfl, hin⟩)
      simpa [fixedAtom, hnil] using units.marker assignment
  · have hcons : atom.terms.isEmpty = false := by
      simpa [List.length_eq_zero_iff] using hzero
    have hmem := mem_clonedFixed_iff context target
      (fun b hb => by rw [original b hb]; exact hzero) filled held
    have hterms : (fixedAtom fixed atom).terms = atom.terms := by simp [fixedAtom, hcons]
    constructor
    · intro hall a hstands hin
      obtain ⟨name, row⟩ := a
      obtain rfl : name = fixed := hstands.1
      exact hall (atom.predicate, row) ⟨rfl, hterms ▸ hstands.2⟩ ((hmem row).mp hin)
    · intro hall a hstands hin
      obtain ⟨name, row⟩ := a
      obtain rfl : name = atom.predicate := hstands.1
      exact hall (fixed, row) ⟨rfl, by rw [hterms]; exact hstands.2⟩ ((hmem row).mpr hin)

end

end Xlog.Gpu
