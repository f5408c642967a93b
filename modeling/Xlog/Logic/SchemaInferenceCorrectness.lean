import Xlog.Logic.SchemaInference

/-! What schema inference computes, and what it leaves to the gate. The types are those that the base relations
reach through the rules; where no rule types a variable two ways, no order of rules or atoms matters.
-/

namespace Xlog.Logic

open Xlog.Foundation

-- The types that the rules give

/-- The variable stands at an argument of a positive atom of the body. -/
structure Occurs (rule : Rule) (name : String) (atom : Atom) (index : Nat) : Prop where
  body : .positive atom ∈ rule.body
  arg : atom.terms[index]? = some (.var name)

def baseColumnType (base : RefRelationStore) (predicate : String) (index : Nat)
    : Option ScalarType :=
  (base predicate).bind fun relation => relation.schema[index]?

/-- The types that the rules carry from the base relations to the columns of their heads. -/
inductive Typed (rules : RuleGroups) (base : RefRelationStore)
    : String → Nat → ScalarType → Prop where
  | ofBase {group : String × List Rule} {rule : Rule} {column : Nat} {name : String}
      {atom : Atom} {index : Nat} {ty : ScalarType} (hgroup : group ∈ rules)
      (hrule : rule ∈ group.2) (hhead : rule.head.terms[column]? = some (Term.var name))
      (occurs : Occurs rule name atom index)
      (stored : baseColumnType base atom.predicate index = some ty)
      : Typed rules base group.1 column ty
  | ofRule {group : String × List Rule} {rule : Rule} {column : Nat} {name : String}
      {atom : Atom} {index : Nat} {ty : ScalarType} (hgroup : group ∈ rules)
      (hrule : rule ∈ group.2) (hhead : rule.head.terms[column]? = some (Term.var name))
      (occurs : Occurs rule name atom index)
      (derived : baseColumnType base atom.predicate index = none)
      (known : Typed rules base atom.predicate index ty)
      : Typed rules base group.1 column ty

/-- A type of a column that a body can read. -/
def Known (rules : RuleGroups) (base : RefRelationStore) (predicate : String) (index : Nat)
    (ty : ScalarType) : Prop :=
  baseColumnType base predicate index = some ty
    ∨ baseColumnType base predicate index = none ∧ Typed rules base predicate index ty

/-- No rule's body can type a variable two ways. -/
def Unambiguous (rules : RuleGroups) (base : RefRelationStore) : Prop :=
  ∀ group ∈ rules, ∀ rule ∈ group.2, ∀ name first (i : Nat) second (j : Nat) firstType secondType,
    Occurs rule name first i → Occurs rule name second j
    → Known rules base first.predicate i firstType
    → Known rules base second.predicate j secondType → firstType = secondType

/-- The type that a body reads under the schemas. -/
abbrev ReadType (base : RefRelationStore) (schemas : InferredSchemas) (atom : Atom)
    (index : Nat) (ty : ScalarType) : Prop :=
  columnTypeOf base schemas atom index false = some ty

/-- The schemas give the column the type. -/
def HoldsType (schemas : InferredSchemas) (predicate : String) (column : Nat) (ty : ScalarType)
    : Prop :=
  ∃ schema, schemas predicate = some schema ∧ schema[column]? = some (some ty)

/-- No rule's body reads two types for a variable. -/
def OneReading (rules : RuleGroups) (base : RefRelationStore) (schemas : InferredSchemas) : Prop :=
  ∀ group ∈ rules, ∀ rule ∈ group.2, ∀ name first (i : Nat) second (j : Nat) firstType secondType,
    Occurs rule name first i → Occurs rule name second j
    → ReadType base schemas first i firstType → ReadType base schemas second j secondType
    → firstType = secondType

/-- A variable that its rule's body types has that type wherever it stands in positive atoms of the
body and in the head.
-/
structure ClosedUnder (rules : RuleGroups) (base : RefRelationStore) (schemas : InferredSchemas)
    : Prop where
  body : OneReading rules base schemas
  head : ∀ group ∈ rules, ∀ rule ∈ group.2, ∀ name atom (index column : Nat) ty,
    Occurs rule name atom index → ReadType base schemas atom index ty
    → rule.head.terms[column]? = some (.var name) → HoldsType schemas group.1 column ty

/-- The heads of a predicate that have arguments have the same number of them. -/
def UniformHeads (rules : RuleGroups) : Prop :=
  ∀ group ∈ rules, ∀ rule ∈ group.2,
    rule.head.terms ≠ [] → headArity group.2 = some rule.head.terms.length

theorem Typed.of_known {rules : RuleGroups} {base : RefRelationStore}
    {group : String × List Rule} {rule : Rule} {column : Nat} {name : String} {atom : Atom}
    {index : Nat} {ty : ScalarType} (hgroup : group ∈ rules) (hrule : rule ∈ group.2)
    (hhead : rule.head.terms[column]? = some (Term.var name)) (occurs : Occurs rule name atom index)
    (known : Known rules base atom.predicate index ty)
    : Typed rules base group.1 column ty := by
  rcases known with stored | ⟨derived, known⟩
  · exact .ofBase hgroup hrule hhead occurs stored
  · exact .ofRule hgroup hrule hhead occurs derived known

-- The type read for a variable

section Reading

variable {rules : RuleGroups} {base : RefRelationStore} {schemas : InferredSchemas}
variable {rule : Rule} {atom : Atom} {name : String} {index : Nat} {ty : ScalarType}

theorem readType_iff
    : ReadType base schemas atom index ty
      ↔ baseColumnType base atom.predicate index = some ty
        ∨ baseColumnType base atom.predicate index = none
          ∧ HoldsType schemas atom.predicate index ty := by
  have hjoin (schema : List (Option ScalarType)) :
      schema[index]?.join = some ty ↔ schema[index]? = some (some ty) := by
    cases schema[index]? <;> simp
  have hderived :
      ((schemas atom.predicate).bind fun schema => schema[index]?.join) = some ty
        ↔ HoldsType schemas atom.predicate index ty := by
    simp only [Option.bind_eq_some_iff, hjoin, HoldsType]
  unfold ReadType columnTypeOf
  rw [if_neg Bool.false_ne_true, Option.or_eq_some_iff, hderived, baseColumnType]

/-- The variable has a type exactly when some atom gives it one, and then it is such a type. -/
theorem variableType_eq_some {columnType : Atom → Nat → Bool → Option ScalarType}
    {negated : Bool} (h : atom.variableType name negated columnType = some ty)
    : ∃ index, atom.terms[index]? = some (.var name)
      ∧ columnType atom index negated = some ty := by
  obtain ⟨⟨term, i⟩, hmem, hty⟩ := List.exists_of_findSome?_eq_some h
  cases term with
  | var found =>
      simp only [Option.ite_none_right_eq_some] at hty
      obtain ⟨rfl, hty⟩ := hty
      exact ⟨i, List.mem_zipIdx_iff_getElem?.mp hmem, hty⟩
  | _ => cases hty

theorem variableType_isSome {columnType : Atom → Nat → Bool → Option ScalarType}
    (harg : atom.terms[index]? = some (.var name)) (hty : columnType atom index false = some ty)
    : (atom.variableType name false columnType).isSome := by
  rw [Atom.variableType, List.isSome_findSome?]
  exact List.any_eq_true.mpr
    ⟨(.var name, index), List.mem_zipIdx_iff_getElem?.mpr harg, by simp [hty]⟩

theorem inferredHeadVariableType_eq_some
    (h : rule.inferredHeadVariableType name (columnTypeOf base schemas) = some ty)
    : ∃ atom index, Occurs rule name atom index ∧ ReadType base schemas atom index ty := by
  obtain ⟨literal, hmem, hty⟩ := List.exists_of_findSome?_eq_some h
  cases literal with
  | positive atom =>
      obtain ⟨index, harg, hread⟩ := variableType_eq_some hty
      exact ⟨atom, index, ⟨hmem, harg⟩, hread⟩
  | negated atom =>
      obtain ⟨index, -, hread⟩ := variableType_eq_some hty
      simp [columnTypeOf] at hread
  | _ => cases hty

theorem inferredHeadVariableType_isSome (occurs : Occurs rule name atom index)
    (hread : ReadType base schemas atom index ty)
    : (rule.inferredHeadVariableType name (columnTypeOf base schemas)).isSome := by
  rw [Rule.inferredHeadVariableType, List.isSome_findSome?]
  exact List.any_eq_true.mpr
    ⟨.positive atom, occurs.body, variableType_isSome occurs.arg hread⟩

end Reading

-- One column

/-- The schemas have the shape of the first ones, and types that the rules give. -/
structure Inferred (rules : RuleGroups) (base : RefRelationStore) (schemas : InferredSchemas)
    : Prop where
  shape : ∀ predicate,
    (schemas predicate).map List.length = (initialSchemas rules predicate).map List.length
  sound : ∀ predicate column ty,
    HoldsType schemas predicate column ty → Typed rules base predicate column ty

/-- The column has the type that the body gives its variable, if the schema has the column. -/
def Settled (base : RefRelationStore) (predicate : String) (rule : Rule)
    (schemas : InferredSchemas) (column : Term × Nat) : Prop :=
  ∀ name ty schema slot, column.1 = .var name
    → rule.inferredHeadVariableType name (columnTypeOf base schemas) = some ty
    → schemas predicate = some schema → schema[column.2]? = some slot → slot = some ty

/-- What a column's step can do. -/
inductive ColumnOutcome (base : RefRelationStore) (predicate : String) (rule : Rule)
    (ruleIndex : Nat) (state : InferenceState) (column : Term × Nat)
    : Except InferenceError InferenceState → Prop where
  | settled (h : Settled base predicate rule state.schemas column)
      : ColumnOutcome base predicate rule ruleIndex state column (.ok state)
  | typed {name : String} {ty : ScalarType} {schema : List (Option ScalarType)}
      (origins : String → Nat → Option Nat) (head : column.1 = .var name)
      (derived : rule.inferredHeadVariableType name (columnTypeOf base state.schemas) = some ty)
      (known : state.schemas predicate = some schema) (slot : schema[column.2]? = some none)
      : ColumnOutcome base predicate rule ruleIndex state column
          (.ok
            { schemas :=
                Function.update state.schemas predicate (some (schema.set column.2 (some ty)))
              origins := origins
              changed := true })
  | conflict {name : String} {ty existing : ScalarType} {schema : List (Option ScalarType)}
      (first : Nat) (head : column.1 = .var name)
      (derived : rule.inferredHeadVariableType name (columnTypeOf base state.schemas) = some ty)
      (known : state.schemas predicate = some schema)
      (slot : schema[column.2]? = some (some existing)) (differ : existing ≠ ty)
      : ColumnOutcome base predicate rule ruleIndex state column
          (.error (.conflictingPredicateColumnType
            ⟨predicate, column.2, first, existing, ruleIndex, ty⟩))
  | missing (unknown : state.schemas predicate = none)
      : ColumnOutcome base predicate rule ruleIndex state column (.error .panicked)

section Column

variable {rules : RuleGroups} {base : RefRelationStore} {predicate : String} {rule : Rule}
variable {ruleIndex : Nat} {state next : InferenceState} {column : Term × Nat}

theorem inferColumn_outcome
    : ColumnOutcome base predicate rule ruleIndex state column
        (inferColumn base predicate rule ruleIndex state column) := by
  unfold inferColumn
  split
  · next name hhead =>
    split
    · next hnone =>
      refine .settled fun found ty schema slot hvar hty => ?_
      obtain rfl := Term.var.inj (hhead.symm.trans hvar)
      exact absurd hty (by simp [hnone])
    · next ty hderived =>
      split
      · next hunknown => exact .missing hunknown
      · next schema hknown =>
        split
        · next hpast =>
          refine .settled fun found ty schema' slot _ _ hschema hslot => ?_
          obtain rfl := Option.some.inj (hknown.symm.trans hschema)
          exact absurd hslot (by simp [hpast])
        · next hslot => exact .typed _ hhead hderived hknown hslot
        · next existing hslot =>
          split
          · next heq =>
            subst heq
            refine .settled fun found ty schema' slot hvar hty hschema hslot' => ?_
            obtain rfl := Term.var.inj (hhead.symm.trans hvar)
            obtain rfl := Option.some.inj (hderived.symm.trans hty)
            obtain rfl := Option.some.inj (hknown.symm.trans hschema)
            exact Option.some.inj (hslot'.symm.trans hslot)
          · next hne => exact .conflict _ hhead hderived hknown hslot hne
  · next hother =>
    exact .settled fun name _ _ _ hvar => absurd hvar (hother name)

/-- The columns without a type. -/
def untyped (rules : RuleGroups) (schemas : InferredSchemas) : Nat :=
  (rules.map fun group => ((schemas group.1).getD []).countP Option.isNone).sum

/-- A change leaves fewer columns without a type. -/
structure Advances (rules : RuleGroups) (before after : InferenceState) : Prop where
  untyped_le : untyped rules after.schemas ≤ untyped rules before.schemas
  progress : after.changed = true
    → before.changed = true ∨ untyped rules after.schemas < untyped rules before.schemas

theorem Advances.refl (state : InferenceState)
    : Advances rules state state :=
  ⟨Nat.le_refl _, Or.inl⟩

theorem Advances.trans {before middle after : InferenceState} (h : Advances rules before middle)
    (h' : Advances rules middle after)
    : Advances rules before after := by
  refine ⟨h'.untyped_le.trans h.untyped_le, fun hchanged => ?_⟩
  rcases h'.progress hchanged with hmiddle | hlt
  · exact (h.progress hmiddle).imp_right h'.untyped_le.trans_lt
  · exact .inr (hlt.trans_le h.untyped_le)

theorem untyped_update {schemas : InferredSchemas} {schema : List (Option ScalarType)}
    {index : Nat} (ty : ScalarType) (hkey : predicate ∈ rules.map Prod.fst)
    (known : schemas predicate = some schema) (slot : schema[index]? = some none)
    : untyped rules (Function.update schemas predicate (some (schema.set index (some ty))))
      < untyped rules schemas := by
  obtain ⟨hlt, hslot⟩ := List.getElem?_eq_some_iff.mp slot
  have hpos : 0 < schema.countP Option.isNone :=
    List.countP_pos_iff.mpr ⟨none, List.mem_of_getElem? slot, rfl⟩
  have hcount : (schema.set index (some ty)).countP Option.isNone
      = schema.countP Option.isNone - 1 := by
    rw [List.countP_set hlt, hslot]
    rfl
  have hless : (schema.set index (some ty)).countP Option.isNone
      < schema.countP Option.isNone := by omega
  obtain ⟨group, hgroup, rfl⟩ := List.mem_map.mp hkey
  refine List.sum_lt_sum _ _ (fun other _ => ?_) ⟨group, hgroup, ?_⟩
  · by_cases heq : other.1 = group.1
    · rw [heq, Function.update_self, known]
      exact hless.le
    · rw [Function.update_of_ne heq]
  · rw [Function.update_self, known]
    exact hless

/-- The error names a column and two types that the rules give it. -/
def IsTypeConflict (rules : RuleGroups) (base : RefRelationStore) : InferenceError → Prop
  | .conflictingPredicateColumnType c =>
      Typed rules base c.predicate c.column c.firstType
      ∧ Typed rules base c.predicate c.column c.secondType ∧ c.firstType ≠ c.secondType
  | .panicked => False

theorem Inferred.known {schemas : InferredSchemas} (h : Inferred rules base schemas)
    {atom : Atom} {index : Nat} {ty : ScalarType} (hread : ReadType base schemas atom index ty)
    : Known rules base atom.predicate index ty := by
  rcases readType_iff.mp hread with stored | ⟨derived, holds⟩
  · exact .inl stored
  · exact .inr ⟨derived, h.sound _ _ _ holds⟩

/-- The type that inference derives for a head variable is one that the rules give its column. -/
theorem Inferred.typed_head {schemas : InferredSchemas} (h : Inferred rules base schemas)
    {group : String × List Rule} (hgroup : group ∈ rules) (hrule : rule ∈ group.2) {name : String}
    {ty : ScalarType} (hcolumn : column ∈ rule.head.terms.zipIdx) (head : column.1 = .var name)
    (derived : rule.inferredHeadVariableType name (columnTypeOf base schemas) = some ty)
    : Typed rules base group.1 column.2 ty := by
  obtain ⟨atom, index, occurs, hread⟩ := inferredHeadVariableType_eq_some derived
  have hhead : rule.head.terms[column.2]? = some (.var name) := by
    rw [← head]
    exact List.mem_zipIdx_iff_getElem?.mp hcolumn
  exact .of_known hgroup hrule hhead occurs (h.known hread)

theorem Inferred.update {schemas : InferredSchemas} (h : Inferred rules base schemas)
    {schema : List (Option ScalarType)} {index : Nat} {ty : ScalarType}
    (known : schemas predicate = some schema) (slot : schema[index]? = some none)
    (typed : Typed rules base predicate index ty)
    : Inferred rules base
        (Function.update schemas predicate (some (schema.set index (some ty)))) := by
  refine ⟨fun other => ?_, fun other column ty' holds => ?_⟩
  · rw [← h.shape other]
    by_cases heq : other = predicate
    · subst heq
      simp [known]
    · rw [Function.update_of_ne heq]
  · obtain ⟨schema', hschema, hslot⟩ := holds
    by_cases heq : other = predicate
    · subst heq
      rw [Function.update_self] at hschema
      obtain rfl := Option.some.inj hschema
      by_cases hi : index = column
      · subst hi
        obtain ⟨hlt, -⟩ := List.getElem?_eq_some_iff.mp slot
        rw [List.getElem?_set_self hlt] at hslot
        obtain rfl := Option.some.inj (Option.some.inj hslot)
        exact typed
      · rw [List.getElem?_set_ne hi] at hslot
        exact h.sound _ _ _ ⟨schema, known, hslot⟩
    · rw [Function.update_of_ne heq] at hschema
      exact h.sound _ _ _ ⟨schema', hschema, hslot⟩

theorem inferColumn_ends {group : String × List Rule} (hgroup : group ∈ rules)
    (hrule : rule ∈ group.2) (hcolumn : column ∈ rule.head.terms.zipIdx)
    (h : Inferred rules base state.schemas) (hkeys : (initialSchemas rules group.1).isSome)
    : Ends (IsTypeConflict rules base)
        (fun next => Inferred rules base next.schemas ∧ Advances rules state next)
        (inferColumn base group.1 rule ruleIndex state column) := by
  have houtcome := @inferColumn_outcome base group.1 rule ruleIndex state column
  generalize inferColumn base group.1 rule ruleIndex state column = outcome at houtcome
  cases houtcome with
  | settled _ => exact ⟨h, .refl state⟩
  | @typed name ty schema origins head derived known slot =>
      have hless := untyped_update ty (List.mem_map_of_mem hgroup) known slot
      have hty := h.typed_head hgroup hrule hcolumn head derived
      exact ⟨h.update known slot hty, hless.le, fun _ => .inr hless⟩
  | conflict first head derived known slot differ =>
      exact ⟨h.sound _ _ _ ⟨_, known, slot⟩, h.typed_head hgroup hrule hcolumn head derived, differ⟩
  | missing unknown =>
      have hshape := h.shape group.1
      rw [unknown] at hshape
      obtain ⟨schema, hschema⟩ := Option.isSome_iff_exists.mp hkeys
      simp [hschema] at hshape

/-- A step that leaves the flag off changes nothing and finds its column settled. -/
theorem inferColumn_quiet (run : inferColumn base predicate rule ruleIndex state column = .ok next)
    (quiet : next.changed = false)
    : next = state ∧ Settled base predicate rule state.schemas column := by
  have houtcome := @inferColumn_outcome base predicate rule ruleIndex state column
  rw [run] at houtcome
  cases houtcome with
  | settled h => exact ⟨rfl, h⟩
  | typed => cases quiet

end Column

-- The first schemas

theorem foldl_initial_of_not_mem {rules : RuleGroups} {predicate : String}
    (h : predicate ∉ rules.map Prod.fst) (start : InferredSchemas)
    : rules.foldl insertInitialSchema start predicate = start predicate := by
  induction rules generalizing start with
  | nil => rfl
  | cons group rules ih =>
      obtain ⟨hne, hrest⟩ := not_or.mp (mt List.mem_cons.mpr h)
      rw [List.foldl_cons, ih hrest, insertInitialSchema, Function.update_of_ne hne]

theorem foldl_initial_of_mem {rules : RuleGroups} (keys : (rules.map Prod.fst).Nodup)
    {group : String × List Rule} (hgroup : group ∈ rules) (start : InferredSchemas)
    : rules.foldl insertInitialSchema start group.1
      = some (List.replicate ((headArity group.2).getD 0) none) := by
  induction rules generalizing start with
  | nil => cases hgroup
  | cons first rules ih =>
      obtain ⟨hfirst, hrest⟩ := List.nodup_cons.mp keys
      rw [List.foldl_cons]
      rcases List.mem_cons.mp hgroup with rfl | hgroup
      · rw [foldl_initial_of_not_mem hfirst, insertInitialSchema, Function.update_self]
      · exact ih hrest hgroup _

section Initial

variable {rules : RuleGroups} {base : RefRelationStore} {group : String × List Rule}

theorem initialSchemas_of_mem (keys : (rules.map Prod.fst).Nodup) (hgroup : group ∈ rules)
    : initialSchemas rules group.1
      = some (List.replicate ((headArity group.2).getD 0) none) :=
  foldl_initial_of_mem keys hgroup _

theorem initialSchemas_of_not_mem {predicate : String} (h : predicate ∉ rules.map Prod.fst)
    : initialSchemas rules predicate = none :=
  foldl_initial_of_not_mem h _

theorem inferred_initial (keys : (rules.map Prod.fst).Nodup)
    : Inferred rules base (initialSchemas rules) := by
  refine ⟨fun _ => rfl, fun predicate column ty holds => ?_⟩
  obtain ⟨schema, hschema, hslot⟩ := holds
  by_cases hkey : predicate ∈ rules.map Prod.fst
  · obtain ⟨group, hgroup, rfl⟩ := List.mem_map.mp hkey
    rw [initialSchemas_of_mem keys hgroup] at hschema
    obtain rfl := Option.some.inj hschema
    cases List.eq_of_mem_replicate (List.mem_of_getElem? hslot)
  · rw [initialSchemas_of_not_mem hkey] at hschema
    cases hschema

theorem untyped_initial (keys : (rules.map Prod.fst).Nodup)
    : untyped rules (initialSchemas rules) = totalColumns rules := by
  refine congrArg List.sum (List.map_congr_left fun group hgroup => ?_)
  rw [initialSchemas_of_mem keys hgroup, Option.getD_some, List.countP_replicate]
  rfl

end Initial

-- Rounds

/-- A loop whose quiet steps change nothing, and find their item settled, changes nothing if it ends
quiet, and all items are settled, by list induction.
-/
theorem foldlM_settled {ε : Type} {α σ : Type} {body : σ → α → Except ε σ} (quiet : σ → Prop)
    (settled : σ → α → Prop) {items : List α} {state last : σ}
    (step : ∀ item ∈ items, ∀ state next, body state item = .ok next → quiet next
      → next = state ∧ settled state item)
    (run : items.foldlM body state = .ok last) (hquiet : quiet last)
    : last = state ∧ ∀ item ∈ items, settled state item := by
  induction items generalizing state with
  | nil =>
      obtain rfl : state = last := by simpa using run
      exact ⟨rfl, by simp⟩
  | cons item items ih =>
      rw [List.foldlM_cons] at run
      obtain ⟨middle, hbody, hrest⟩ := bind_eq_ok.mp run
      obtain ⟨hitem, hitems⟩ := List.forall_mem_cons.mp step
      obtain ⟨rfl, hsettled⟩ := ih hitems hrest
      obtain ⟨rfl, hhead⟩ := hitem _ _ hbody hquiet
      exact ⟨rfl, List.forall_mem_cons.mpr ⟨hhead, hsettled⟩⟩

/-- A check of the items that failed failed on one, by list induction. -/
theorem exists_of_forM_error {ε : Type} {α : Type} {body : α → Except ε PUnit} {items : List α}
    {error : ε} (run : items.forM body = .error error)
    : ∃ item ∈ items, body item = .error error := by
  induction items with
  | nil => cases run
  | cons item items ih =>
      rw [List.forM] at run
      cases hbody : body item with
      | error other =>
          rw [hbody, error_bind] at run
          exact ⟨item, List.mem_cons_self, hbody.trans run⟩
      | ok _ =>
          rw [hbody, ok_bind] at run
          obtain ⟨found, hmem, hfound⟩ := ih run
          exact ⟨found, List.mem_cons_of_mem _ hmem, hfound⟩

/-- Every column of every head is settled. -/
def AllSettled (rules : RuleGroups) (base : RefRelationStore) (schemas : InferredSchemas) : Prop :=
  ∀ group ∈ rules, ∀ rule ∈ group.2, ∀ column ∈ rule.head.terms.zipIdx,
    Settled base group.1 rule schemas column

section Rounds

variable {rules : RuleGroups} {base : RefRelationStore} {state next : InferenceState}

theorem inferRule_quiet {predicate : String} {entry : Rule × Nat}
    (run : inferRule base predicate state entry = .ok next) (quiet : next.changed = false)
    : next = state
      ∧ ∀ column ∈ entry.1.head.terms.zipIdx,
        Settled base predicate entry.1 state.schemas column :=
  foldlM_settled (·.changed = false)
    (fun state column => Settled base predicate entry.1 state.schemas column)
    (fun _ _ _ _ hrun hquiet => inferColumn_quiet hrun hquiet) run quiet

theorem inferGroup_quiet {group : String × List Rule}
    (run : inferGroup base state group = .ok next) (quiet : next.changed = false)
    : next = state
      ∧ ∀ entry ∈ group.2.zipIdx, ∀ column ∈ entry.1.head.terms.zipIdx,
        Settled base group.1 entry.1 state.schemas column :=
  foldlM_settled (·.changed = false)
    (fun state entry => ∀ column ∈ entry.1.head.terms.zipIdx,
      Settled base group.1 entry.1 state.schemas column)
    (fun _ _ _ _ hrun hquiet => inferRule_quiet hrun hquiet) run quiet

theorem round_quiet (run : rules.foldlM (inferGroup base) state = .ok next)
    (quiet : next.changed = false)
    : next = state ∧ AllSettled rules base state.schemas := by
  obtain ⟨heq, hsettled⟩ := foldlM_settled (·.changed = false)
    (fun state group => ∀ entry ∈ group.2.zipIdx, ∀ column ∈ entry.1.head.terms.zipIdx,
      Settled base group.1 entry.1 state.schemas column)
    (fun _ _ _ _ hrun hquiet => inferGroup_quiet hrun hquiet) run quiet
  refine ⟨heq, fun group hgroup rule hrule => ?_⟩
  obtain ⟨i, hi⟩ := List.getElem?_of_mem hrule
  exact hsettled group hgroup (rule, i) (List.mem_zipIdx_iff_getElem?.mpr hi)

/-- A round's loops keep the schemas typed by the rules and leave no more columns untyped. -/
theorem foldlM_advances {α : Type}
    {body : InferenceState → α → Except InferenceError InferenceState} {items : List α} (h : Inferred rules base state.schemas)
    (step : ∀ item ∈ items, ∀ state, Inferred rules base state.schemas
      → Ends (IsTypeConflict rules base)
          (fun next => Inferred rules base next.schemas ∧ Advances rules state next)
          (body state item))
    : Ends (IsTypeConflict rules base)
        (fun next => Inferred rules base next.schemas ∧ Advances rules state next)
        (items.foldlM body state) := by
  refine Ends.foldlM (fun _ next => Inferred rules base next.schemas ∧ Advances rules state next)
    ⟨h, .refl state⟩ ?_
  intro before item after middle heq hmiddle
  obtain ⟨hinferred, hadvances⟩ := hmiddle
  refine (step item (by simp [heq]) middle hinferred).mono ?_
  intro last hlast
  exact ⟨hlast.1, hadvances.trans hlast.2⟩

theorem round_ends (keys : (rules.map Prod.fst).Nodup) (h : Inferred rules base state.schemas)
    : Ends (IsTypeConflict rules base)
        (fun next => Inferred rules base next.schemas ∧ Advances rules state next)
        (rules.foldlM (inferGroup base) state) := by
  refine foldlM_advances h fun group hgroup state h => ?_
  refine foldlM_advances h fun entry hentry state h => ?_
  refine foldlM_advances h fun column hcolumn state h => ?_
  have hrule := List.mem_of_getElem? (List.mem_zipIdx_iff_getElem?.mp hentry)
  exact inferColumn_ends hgroup hrule hcolumn h (by simp [initialSchemas_of_mem keys hgroup])

/-- The outcome of inference: the last round changed nothing. -/
structure Converged (rules : RuleGroups) (base : RefRelationStore)
    (outcome : InferredSchemas × Bool) : Prop where
  converged : outcome.2 = true
  inferred : Inferred rules base outcome.1
  settled : AllSettled rules base outcome.1

/-- With more rounds left than columns without a type, some round changes nothing, by induction on
the rounds.
-/
theorem inferRounds_ends (keys : (rules.map Prod.fst).Nodup) {rounds : Nat}
    {schemas : InferredSchemas} {origins : String → Nat → Option Nat}
    (h : Inferred rules base schemas) (enough : untyped rules schemas < rounds)
    : Ends (IsTypeConflict rules base) (Converged rules base)
        (inferRounds rules base rounds schemas origins) := by
  induction rounds generalizing schemas origins with
  | zero => omega
  | succ rounds ih =>
      rw [inferRounds]
      have hround := @round_ends rules base ⟨schemas, origins, false⟩ keys h
      cases hrun : rules.foldlM (inferGroup base) ⟨schemas, origins, false⟩ with
      | error error =>
          rw [hrun] at hround
          exact hround
      | ok next =>
          rw [hrun] at hround
          obtain ⟨hinferred, hadvances⟩ := hround
          rw [ok_bind]
          split
          · next hchanged =>
            refine ih hinferred ?_
            have hlt := (hadvances.progress hchanged).resolve_left (by simp)
            exact Nat.lt_of_lt_of_le hlt (Nat.le_of_lt_succ enough)
          · next hquiet =>
            obtain ⟨rfl, hsettled⟩ := round_quiet hrun (Bool.eq_false_iff.mpr hquiet)
            exact ⟨rfl, hinferred, hsettled⟩

theorem inferToFixpoint_ends (keys : (rules.map Prod.fst).Nodup)
    : Ends (IsTypeConflict rules base) (Converged rules base) (inferToFixpoint rules base) :=
  inferRounds_ends keys (inferred_initial keys)
    (by rw [untyped_initial keys]; exact Nat.lt_succ_self _)

theorem inferSccPredicateSchemas_ends (keys : (rules.map Prod.fst).Nodup)
    : Ends (IsTypeConflict rules base)
        (fun schemas => Inferred rules base schemas ∧ AllSettled rules base schemas)
        (inferSccPredicateSchemas rules base) :=
  (inferToFixpoint_ends keys).bind fun _ h => ⟨h.inferred, h.settled⟩

end Rounds

-- Closed schemas

section Closed

variable {rules : RuleGroups} {base : RefRelationStore} {schemas : InferredSchemas}
variable {group : String × List Rule} {rule : Rule} {name : String} {column : Nat}

/-- A head's column lies in the predicate's schema. -/
theorem Inferred.exists_slot (h : Inferred rules base schemas)
    (keys : (rules.map Prod.fst).Nodup) (uniform : UniformHeads rules) (hgroup : group ∈ rules)
    (hrule : rule ∈ group.2) {term : Term} (hhead : rule.head.terms[column]? = some term)
    : ∃ schema slot, schemas group.1 = some schema ∧ schema[column]? = some slot := by
  obtain ⟨hlt, -⟩ := List.getElem?_eq_some_iff.mp hhead
  have hne : rule.head.terms ≠ [] := List.ne_nil_of_length_pos (Nat.zero_lt_of_lt hlt)
  have hshape := h.shape group.1
  rw [initialSchemas_of_mem keys hgroup, uniform group hgroup rule hrule hne] at hshape
  obtain ⟨schema, hschema, hlength⟩ := Option.map_eq_some_iff.mp hshape
  rw [Option.getD_some, List.length_replicate] at hlength
  exact ⟨schema, schema[column], hschema, List.getElem?_eq_getElem (hlength ▸ hlt)⟩

/-- A head's variable that the body types has the type of its first typed occurrence. -/
theorem AllSettled.head (settled : AllSettled rules base schemas)
    (h : Inferred rules base schemas) (keys : (rules.map Prod.fst).Nodup)
    (uniform : UniformHeads rules) (one : OneReading rules base schemas) (hgroup : group ∈ rules)
    (hrule : rule ∈ group.2) (hhead : rule.head.terms[column]? = some (.var name)) {atom : Atom}
    {index : Nat} {ty : ScalarType} (occurs : Occurs rule name atom index)
    (hread : ReadType base schemas atom index ty)
    : HoldsType schemas group.1 column ty := by
  obtain ⟨derived, hderived⟩ :=
    Option.isSome_iff_exists.mp (inferredHeadVariableType_isSome occurs hread)
  obtain ⟨first, i, hfirst, hreads⟩ := inferredHeadVariableType_eq_some hderived
  obtain rfl := one group hgroup rule hrule name _ _ _ _ _ _ hfirst occurs hreads hread
  obtain ⟨schema, slot, hschema, hslot⟩ := h.exists_slot keys uniform hgroup hrule hhead
  have hcolumn : (Term.var name, column) ∈ rule.head.terms.zipIdx :=
    List.mem_zipIdx_iff_getElem?.mpr hhead
  obtain rfl :=
    settled group hgroup rule hrule _ hcolumn name _ schema slot rfl hderived hschema hslot
  exact ⟨schema, hschema, hslot⟩

/-- Settled schemas hold every type that the rules give, by induction on how they give it. -/
theorem AllSettled.complete (settled : AllSettled rules base schemas)
    (h : Inferred rules base schemas) (keys : (rules.map Prod.fst).Nodup)
    (uniform : UniformHeads rules) (one : OneReading rules base schemas) {predicate : String}
    {ty : ScalarType} (typed : Typed rules base predicate column ty)
    : HoldsType schemas predicate column ty := by
  induction typed with
  | ofBase hgroup hrule hhead occurs stored =>
      have hread : ReadType base schemas _ _ _ := readType_iff.mpr (.inl stored)
      exact settled.head h keys uniform one hgroup hrule hhead occurs hread
  | ofRule hgroup hrule hhead occurs derived _ ih =>
      have hread := readType_iff.mpr (.inr ⟨derived, ih⟩)
      exact settled.head h keys uniform one hgroup hrule hhead occurs hread

theorem Unambiguous.oneReading (unambiguous : Unambiguous rules base)
    (h : Inferred rules base schemas)
    : OneReading rules base schemas :=
  fun group hgroup rule hrule name first i second j _ _ hfirst hsecond hread hread' =>
    unambiguous group hgroup rule hrule name first i second j _ _ hfirst hsecond (h.known hread)
      (h.known hread')

/-- The settled schemas are closed exactly when no body can type a variable two ways. -/
theorem AllSettled.closedUnder_iff (settled : AllSettled rules base schemas)
    (h : Inferred rules base schemas) (keys : (rules.map Prod.fst).Nodup)
    (uniform : UniformHeads rules)
    : ClosedUnder rules base schemas ↔ Unambiguous rules base := by
  constructor
  · intro closed group hgroup rule hrule name first i second j _ _ hfirst hsecond known known'
    have hread {atom : Atom} {index : Nat} {ty : ScalarType}
        (known : Known rules base atom.predicate index ty) :
        ReadType base schemas atom index ty :=
      readType_iff.mpr (known.imp_right fun ⟨derived, typed⟩ =>
        ⟨derived, settled.complete h keys uniform closed.body typed⟩)
    exact closed.body group hgroup rule hrule name first i second j _ _ hfirst hsecond
      (hread known) (hread known')
  · intro unambiguous
    have one := unambiguous.oneReading h
    exact ⟨one, fun group hgroup rule hrule name atom index column ty occurs hread hhead =>
      settled.head h keys uniform one hgroup hrule hhead occurs hread⟩

end Closed

-- Other orders

/-- The same rule but for the order of its body. -/
structure SameRule (rule rule' : Rule) : Prop where
  head : rule.head = rule'.head
  body : rule.body.Perm rule'.body

/-- The same rules but for the order of each group and of the bodies. -/
def Reordered (rules rules' : RuleGroups) : Prop :=
  List.Forall₂ (fun group group' =>
    group.1 = group'.1
    ∧ ∃ shuffled, group.2.Perm shuffled ∧ List.Forall₂ SameRule shuffled group'.2) rules rules'

/-- Each rule of one group is one of the other. -/
structure SameGroup (group group' : String × List Rule) : Prop where
  key : group.1 = group'.1
  left : ∀ rule ∈ group.2, ∃ rule' ∈ group'.2, SameRule rule rule'
  right : ∀ rule' ∈ group'.2, ∃ rule ∈ group.2, SameRule rule rule'

section Orders

variable {rules rules' : RuleGroups} {base : RefRelationStore} {schemas schemas' : InferredSchemas}
variable {group group' : String × List Rule} {rule rule' : Rule}

theorem SameRule.symm (h : SameRule rule rule')
    : SameRule rule' rule :=
  ⟨h.head.symm, h.body.symm⟩

theorem SameGroup.symm (h : SameGroup group group')
    : SameGroup group' group :=
  ⟨h.key.symm, fun rule hrule => (h.right rule hrule).imp fun _ ⟨hmem, hsame⟩ => ⟨hmem, hsame.symm⟩,
    fun rule hrule => (h.left rule hrule).imp fun _ ⟨hmem, hsame⟩ => ⟨hmem, hsame.symm⟩⟩

theorem Reordered.same (h : Reordered rules rules')
    : List.Forall₂ SameGroup rules rules' := by
  refine h.imp fun group group' ⟨hkey, shuffled, hperm, hsame⟩ => ⟨hkey, fun rule hrule => ?_, ?_⟩
  · obtain ⟨i, hlt, rfl⟩ := List.getElem_of_mem (hperm.mem_iff.mp hrule)
    have hlt' : i < group'.2.length := hsame.length_eq ▸ hlt
    exact ⟨group'.2[i], List.getElem_mem hlt', hsame.get hlt hlt'⟩
  · intro rule hrule
    obtain ⟨i, hlt', rfl⟩ := List.getElem_of_mem hrule
    have hlt : i < shuffled.length := hsame.length_eq ▸ hlt'
    exact ⟨shuffled[i], hperm.mem_iff.mpr (List.getElem_mem hlt), hsame.get hlt hlt'⟩

theorem exists_sameGroup (same : List.Forall₂ SameGroup rules rules') (hgroup : group ∈ rules)
    : ∃ group' ∈ rules', SameGroup group group' := by
  obtain ⟨i, hlt, rfl⟩ := List.getElem_of_mem hgroup
  have hlt' : i < rules'.length := same.length_eq ▸ hlt
  exact ⟨rules'[i], List.getElem_mem hlt', same.get hlt hlt'⟩

theorem sameGroups_symm (same : List.Forall₂ SameGroup rules rules')
    : List.Forall₂ SameGroup rules' rules :=
  same.flip.imp fun _ _ h => h.symm

theorem keys_same (same : List.Forall₂ SameGroup rules rules')
    : rules.map Prod.fst = rules'.map Prod.fst :=
  List.forall₂_eq_eq_eq ▸ (List.forall₂_map_left_iff.mpr
    (List.forall₂_map_right_iff.mpr (same.imp fun _ _ h => h.key)))

theorem Occurs.same {name : String} {atom : Atom} {index : Nat}
    (occurs : Occurs rule name atom index) (same : SameRule rule rule')
    : Occurs rule' name atom index :=
  ⟨same.body.mem_iff.mp occurs.body, occurs.arg⟩

/-- The rules give the same types in any order, by induction on how they give one. -/
theorem Typed.same (same : List.Forall₂ SameGroup rules rules') {predicate : String}
    {column : Nat} {ty : ScalarType} (typed : Typed rules base predicate column ty)
    : Typed rules' base predicate column ty := by
  induction typed with
  | @ofBase group rule column name atom index ty hgroup hrule hhead occurs stored =>
      obtain ⟨group', hgroup', hsame⟩ := exists_sameGroup same hgroup
      obtain ⟨rule', hrule', hsameRule⟩ := hsame.left rule hrule
      rw [hsame.key]
      exact .ofBase hgroup' hrule' (hsameRule.head ▸ hhead) (occurs.same hsameRule) stored
  | @ofRule group rule column name atom index ty hgroup hrule hhead occurs derived _ ih =>
      obtain ⟨group', hgroup', hsame⟩ := exists_sameGroup same hgroup
      obtain ⟨rule', hrule', hsameRule⟩ := hsame.left rule hrule
      rw [hsame.key]
      exact .ofRule hgroup' hrule' (hsameRule.head ▸ hhead) (occurs.same hsameRule) derived ih

theorem Unambiguous.same (same : List.Forall₂ SameGroup rules rules')
    (h : Unambiguous rules base)
    : Unambiguous rules' base := by
  intro group' hgroup' rule' hrule' name first i second j _ _ hfirst hsecond known known'
  obtain ⟨group, hgroup, hsame⟩ := exists_sameGroup (sameGroups_symm same) hgroup'
  obtain ⟨rule, hrule, hsameRule⟩ := hsame.left rule' hrule'
  have hknown {predicate : String} {index : Nat} {ty : ScalarType}
      (known : Known rules' base predicate index ty) : Known rules base predicate index ty :=
    known.imp_right fun ⟨derived, typed⟩ => ⟨derived, typed.same (sameGroups_symm same)⟩
  exact h group hgroup rule hrule name first i second j _ _ (hfirst.same hsameRule)
    (hsecond.same hsameRule) (hknown known) (hknown known')

theorem headArity_same (hsame : SameGroup group group')
    (uniform : ∀ rule ∈ group.2, rule.head.terms ≠ []
      → headArity group.2 = some rule.head.terms.length)
    : headArity group'.2 = headArity group.2 := by
  cases hfind : group'.2.find? fun rule => ¬ rule.head.terms.isEmpty with
  | none =>
      have hempty' := List.find?_eq_none.mp hfind
      have hempty : group.2.find? (fun rule => ¬ rule.head.terms.isEmpty) = none := by
        refine List.find?_eq_none.mpr fun rule hrule => ?_
        obtain ⟨rule', hrule', hsameRule⟩ := hsame.left rule hrule
        rw [hsameRule.head]
        exact hempty' rule' hrule'
      rw [headArity, headArity, hfind, hempty]
  | some rule' =>
      have hne' := List.find?_some hfind
      obtain ⟨rule, hrule, hsameRule⟩ := hsame.right rule' (List.mem_of_find?_eq_some hfind)
      have hne : rule.head.terms ≠ [] := by
        rw [hsameRule.head]
        simpa using hne'
      rw [uniform rule hrule hne, headArity, hfind, hsameRule.head]
      rfl

theorem UniformHeads.same (same : List.Forall₂ SameGroup rules rules')
    (uniform : UniformHeads rules)
    : UniformHeads rules' := by
  intro group' hgroup' rule' hrule' hne
  obtain ⟨group, hgroup, hsame⟩ := exists_sameGroup (sameGroups_symm same) hgroup'
  obtain ⟨rule, hrule, hsameRule⟩ := hsame.left rule' hrule'
  rw [headArity_same hsame.symm (uniform group hgroup), hsameRule.head]
  exact uniform group hgroup rule hrule (hsameRule.head ▸ hne)

theorem initialSchemas_same (same : List.Forall₂ SameGroup rules rules')
    (uniform : UniformHeads rules)
    : initialSchemas rules' = initialSchemas rules := by
  unfold initialSchemas
  generalize (fun _ => none : InferredSchemas) = start
  induction same generalizing start with
  | nil => rfl
  | @cons group group' rules rules' hsame _ ih =>
      obtain ⟨hgroup, hrest⟩ := List.forall_mem_cons.mp uniform
      have hinsert : insertInitialSchema start group' = insertInitialSchema start group := by
        rw [insertInitialSchema, insertInitialSchema, headArity_same hsame hgroup, hsame.key]
      rw [List.foldl_cons, List.foldl_cons, hinsert]
      exact ih hrest _

/-- Schemas of one shape that hold the same types are equal. -/
theorem schemas_ext
    (hshape : ∀ predicate,
      (schemas predicate).map List.length = (schemas' predicate).map List.length)
    (hholds : ∀ predicate column ty,
      HoldsType schemas predicate column ty ↔ HoldsType schemas' predicate column ty)
    : schemas = schemas' := by
  funext predicate
  have hlength := hshape predicate
  cases hschema : schemas predicate with
  | none =>
      rw [hschema, Option.map_none] at hlength
      exact (Option.map_eq_none_iff.mp hlength.symm).symm
  | some schema =>
      rw [hschema] at hlength
      obtain ⟨schema', hschema', hlen⟩ := Option.map_eq_some_iff.mp hlength.symm
      rw [hschema']
      refine congrArg some (List.ext_getElem hlen.symm fun i hlt hlt' => Option.ext fun ty => ?_)
      have h := hholds predicate i ty
      simp only [HoldsType, hschema, hschema', Option.some.injEq, exists_eq_left',
        List.getElem?_eq_getElem hlt, List.getElem?_eq_getElem hlt'] at h
      exact h

/-- A successful inference succeeds with the same schemas in every other order. -/
theorem inferSccPredicateSchemas_same (keys : (rules.map Prod.fst).Nodup)
    (uniform : UniformHeads rules) (unambiguous : Unambiguous rules base)
    (same : List.Forall₂ SameGroup rules rules')
    (run : inferSccPredicateSchemas rules base = .ok schemas)
    : inferSccPredicateSchemas rules' base = .ok schemas := by
  have hends := @inferSccPredicateSchemas_ends rules base keys
  have hends' := @inferSccPredicateSchemas_ends rules' base (keys_same same ▸ keys)
  rw [run] at hends
  obtain ⟨hinferred, hsettled⟩ := hends
  have hcomplete {predicate : String} {column : Nat} {ty : ScalarType} :=
    @AllSettled.complete rules base schemas column hsettled hinferred keys uniform
      (unambiguous.oneReading hinferred) predicate ty
  cases hrun : inferSccPredicateSchemas rules' base with
  | error error =>
      rw [hrun] at hends'
      cases error with
      | panicked => exact hends'.elim
      | conflictingPredicateColumnType c =>
          obtain ⟨hfirst, hsecond, hne⟩ := hends'
          obtain ⟨schema, hschema, hslot⟩ := hcomplete (hfirst.same (sameGroups_symm same))
          obtain ⟨schema', hschema', hslot'⟩ := hcomplete (hsecond.same (sameGroups_symm same))
          obtain rfl := Option.some.inj (hschema.symm.trans hschema')
          exact absurd (Option.some.inj (Option.some.inj (hslot.symm.trans hslot'))) hne
  | ok schemas' =>
      rw [hrun] at hends'
      obtain ⟨hinferred', hsettled'⟩ := hends'
      refine congrArg Except.ok (schemas_ext (fun predicate => ?_) fun predicate column ty => ?_)
      · rw [hinferred'.shape, hinferred.shape, initialSchemas_same same uniform]
      · constructor
        · intro holds
          exact hcomplete ((hinferred'.sound _ _ _ holds).same (sameGroups_symm same))
        · intro holds
          exact hsettled'.complete hinferred' (keys_same same ▸ keys) (uniform.same same)
            ((unambiguous.same same).oneReading hinferred') ((hinferred.sound _ _ _ holds).same same)

end Orders

-- The planner and the evaluator

section Planning

variable {rules : RuleGroups} {base : RefRelationStore} {inferred : InferredSchemas}
variable {rule : Rule} {order : VariableOrder} {config : FixpointConfig}

/-- The planner marks a rule as multiway exactly when the rule passes the typed gate. -/
theorem planSccRule_isMultiway_iff
    : (∃ plan, planSccRule base inferred rule = .ok plan ∧ plan.isMultiway = true)
      ↔ typedGateWithInference rule base inferred = .ok () := by
  unfold planSccRule typedGateWithInference
  cases deriveVertexTypesWithInference rule base inferred with
  | error conflict => simp
  | ok vertexTypes =>
      cases hanalyze : analyzeTyped (HypergraphRule.fromRule rule) vertexTypes .hashFallback with
      | eligible => simp [hanalyze, RulePlan.isMultiway]
      | ineligible boundaries => simp [hanalyze, RulePlan.isMultiway]

/-- Every rule of the component passes the gate. -/
def AllPass (rules : RuleGroups) (base : RefRelationStore) (inferred : InferredSchemas) : Prop :=
  ∀ group ∈ rules, ∀ rule ∈ group.2, typedGateWithInference rule base inferred = .ok ()

theorem planSccGroups_eligible_iff
    : (∃ plans, rules.mapM (planSccGroup base inferred) = .ok plans
        ∧ ∀ group ∈ plans, ∀ plan ∈ group.2, plan.isMultiway = true)
      ↔ AllPass rules base inferred := by
  constructor
  · rintro ⟨plans, hplans, hmultiway⟩ group hgroup rule hrule
    obtain ⟨planned, hplanned, hrun⟩ := exists_result_of_mapM hplans hgroup
    obtain ⟨groupPlans, hgroupPlans, heq⟩ := bind_eq_ok.mp hrun
    obtain rfl := Except.ok.inj heq
    obtain ⟨plan, hplan, hrun⟩ := exists_result_of_mapM hgroupPlans hrule
    exact planSccRule_isMultiway_iff.mp ⟨plan, hrun, hmultiway _ hplanned plan hplan⟩
  · intro hpass
    have hgroup (group) (hgroup : group ∈ rules) :
        ∃ planned, planSccGroup base inferred group = .ok planned := by
      obtain ⟨plans, hplans⟩ := exists_mapM_ok_iff.mpr fun rule hrule =>
        (planSccRule_isMultiway_iff.mpr (hpass group hgroup rule hrule)).imp fun _ h => h.1
      exact ⟨(group.1, plans), by rw [planSccGroup, hplans, ok_bind]; rfl⟩
    obtain ⟨plans, hplans⟩ := exists_mapM_ok_iff.mpr hgroup
    refine ⟨plans, hplans, fun planned hplanned plan hplan => ?_⟩
    obtain ⟨group, hmem, hrun⟩ := exists_of_mem_mapM hplans hplanned
    obtain ⟨groupPlans, hgroupPlans, heq⟩ := bind_eq_ok.mp hrun
    obtain rfl := Except.ok.inj heq
    obtain ⟨rule, hrule, hplanRule⟩ := exists_of_mem_mapM hgroupPlans hplan
    obtain ⟨plan', hplan', hmultiway⟩ := planSccRule_isMultiway_iff.mpr (hpass group hmem rule hrule)
    obtain rfl := Except.ok.inj (hplanRule.symm.trans hplan')
    exact hmultiway

theorem gateRule_eq_ok {predicate : String} {entry : Rule × Nat}
    : gateRule base inferred predicate entry = .ok ()
      ↔ typedGateWithInference entry.1 base inferred = .ok () := by
  unfold gateRule
  split <;> simp [*]

theorem gateRules_eq_ok
    : gateRules base inferred rules = .ok () ↔ AllPass rules base inferred := by
  unfold gateRules
  rw [forM_eq_ok]
  refine forall₂_congr fun group _ => ?_
  rw [forM_eq_ok]
  constructor
  · intro h rule hrule
    obtain ⟨i, hi⟩ := List.getElem?_of_mem hrule
    exact gateRule_eq_ok.mp (h (rule, i) (List.mem_zipIdx_iff_getElem?.mpr hi))
  · intro h entry hentry
    exact gateRule_eq_ok.mpr (h _ (List.mem_of_getElem? (List.mem_zipIdx_iff_getElem?.mp hentry)))

/-- The gates fail with errors of the gate alone. -/
theorem gateRules_error {error : TypedSccError}
    (h : gateRules base inferred rules = .error error)
    : ∃ predicate ruleIndex source, error = .gate predicate ruleIndex source := by
  obtain ⟨group, -, hgroup⟩ := exists_of_forM_error h
  obtain ⟨entry, -, hentry⟩ := exists_of_forM_error hgroup
  unfold gateRule at hentry
  split at hentry
  · exact ⟨_, _, _, (Except.error.inj hentry).symm⟩
  · cases hentry

theorem evaluateStructurally_ne_gate {predicate : String} {ruleIndex : Nat}
    {source : TypedGateError}
    : evaluateStructurally rules base order config ≠ .error (.gate predicate ruleIndex source) := by
  unfold evaluateStructurally
  split <;> simp

theorem checkRuleHeads_eq_ok (grouped : misgrouped rules = false)
    : checkRuleHeads rules = .ok () := by
  refine forM_eq_ok.mpr fun group hgroup => forM_eq_ok.mpr fun entry hentry => ?_
  have hrule := List.mem_of_getElem? (List.mem_zipIdx_iff_getElem?.mp hentry)
  have hhead : entry.1.head.predicate = group.1 := by
    have hany := List.any_eq_false.mp grouped group hgroup
    have hne := List.any_eq_false.mp (Bool.eq_false_iff.mpr hany) entry.1 hrule
    simpa using hne
  rw [checkRuleHead, if_neg (not_not.mpr hhead)]

/-- The component's rules are all multiway for the planner exactly when the evaluator goes on to
evaluate them.
-/
theorem planSccRules_eligible_iff (grouped : misgrouped rules = false)
    (keys : (rules.map Prod.fst).Nodup)
    : (∃ plans, planSccRules rules base = .ok plans
        ∧ ∀ group ∈ plans, ∀ plan ∈ group.2, plan.isMultiway = true)
      ↔ evaluateSccFixpointTyped rules base order config
        = evaluateStructurally rules base order config := by
  have hends := @inferSccPredicateSchemas_ends rules base keys
  unfold planSccRules evaluateSccFixpointTyped
  rw [checkRuleHeads_eq_ok grouped, ok_bind, grouped, if_neg Bool.false_ne_true]
  cases hinfer : inferSccPredicateSchemas rules base with
  | error error =>
      rw [hinfer] at hends
      cases error with
      | conflictingPredicateColumnType conflict =>
          simp [evaluateStructurally_ne_gate.symm]
      | panicked => exact hends.elim
  | ok inferred =>
      rw [planSccGroups_eligible_iff, ← gateRules_eq_ok]
      dsimp only
      cases hgate : gateRules base inferred rules with
      | ok _ => simp
      | error error =>
          obtain ⟨predicate, ruleIndex, source, rfl⟩ := gateRules_error hgate
          simp [evaluateStructurally_ne_gate.symm]

end Planning

-- The component as a whole

/-- Inference ends within its rounds or at two types that the rules give one column. Where no body can
type a variable two ways, and only there, its schemas are closed, and then every order of rules and atoms
infers them; and the evaluator goes on to evaluate a component exactly when the planner would run all of
its rules as multiway joins.
-/
theorem inferSccPredicateSchemas_spec {rules : RuleGroups} (base : RefRelationStore)
    (keys : (rules.map Prod.fst).Nodup)
    : Ends (IsTypeConflict rules base) (Converged rules base) (inferToFixpoint rules base)
      ∧ (UniformHeads rules →
        ∀ schemas, inferSccPredicateSchemas rules base = .ok schemas
          → (ClosedUnder rules base schemas ↔ Unambiguous rules base))
      ∧ (UniformHeads rules → Unambiguous rules base →
        ∀ rules', Reordered rules rules' →
          ∀ schemas, inferSccPredicateSchemas rules base = .ok schemas
            ↔ inferSccPredicateSchemas rules' base = .ok schemas)
      ∧ (∀ inferred rule,
        (∃ plan, planSccRule base inferred rule = .ok plan ∧ plan.isMultiway = true)
          ↔ typedGateWithInference rule base inferred = .ok ())
      ∧ (misgrouped rules = false →
        ∀ order config,
          (∃ plans, planSccRules rules base = .ok plans
            ∧ ∀ group ∈ plans, ∀ plan ∈ group.2, plan.isMultiway = true)
          ↔ evaluateSccFixpointTyped rules base order config
            = evaluateStructurally rules base order config) := by
  refine ⟨inferToFixpoint_ends keys, fun uniform schemas run => ?_,
    fun uniform unambiguous rules' reordered schemas => ?_, fun _ _ => planSccRule_isMultiway_iff,
    fun grouped _ _ => planSccRules_eligible_iff grouped keys⟩
  · have hends := @inferSccPredicateSchemas_ends rules base keys
    rw [run] at hends
    exact hends.2.closedUnder_iff hends.1 keys uniform
  · have same := reordered.same
    constructor
    · exact inferSccPredicateSchemas_same keys uniform unambiguous same
    · exact inferSccPredicateSchemas_same (keys_same same ▸ keys) (uniform.same same)
        (unambiguous.same same) (sameGroups_symm same)

/-- A recursive predicate over one relation, with its base type. -/
def closureRules : RuleGroups :=
  [("path",
    [⟨⟨"path", [.var "X", .var "Y"]⟩, [.positive ⟨"edge", [.var "X", .var "Y"]⟩]⟩,
      ⟨⟨"path", [.var "X", .var "Z"]⟩,
        [.positive ⟨"path", [.var "X", .var "Y"]⟩, .positive ⟨"edge", [.var "Y", .var "Z"]⟩]⟩])]

def edgeRelations : RefRelationStore :=
  Function.update (fun _ => none) "edge" (some ⟨[.u32, .u32], []⟩)

theorem edgeColumnType {predicate : String} {index : Nat} {ty : ScalarType}
    (stored : baseColumnType edgeRelations predicate index = some ty)
    : ty = .u32 := by
  obtain ⟨relation, hrelation, hindex⟩ := Option.bind_eq_some_iff.mp stored
  by_cases hedge : predicate = "edge"
  · subst hedge
    rw [edgeRelations, Function.update_self] at hrelation
    obtain rfl := Option.some.inj hrelation
    simpa using List.mem_of_getElem? hindex
  · rw [edgeRelations, Function.update_of_ne hedge] at hrelation
    cases hrelation

theorem typed_closure {predicate : String} {column : Nat} {ty : ScalarType}
    (typed : Typed closureRules edgeRelations predicate column ty)
    : ty = .u32 := by
  induction typed with
  | ofBase _ _ _ _ stored => exact edgeColumnType stored
  | ofRule _ _ _ _ _ _ ih => exact ih

theorem unambiguous_closure
    : Unambiguous closureRules edgeRelations := by
  intro _ _ _ _ _ _ _ _ _ _ _ _ _ known known'
  have hu32 {predicate : String} {index : Nat} {ty : ScalarType}
      (known : Known closureRules edgeRelations predicate index ty) : ty = .u32 :=
    known.elim edgeColumnType fun ⟨_, typed⟩ => typed_closure typed
  rw [hu32 known, hu32 known']

theorem uniformHeads_closure
    : UniformHeads closureRules := by
  simp [UniformHeads, closureRules, headArity]

theorem inferSccPredicateSchemas_spec_closure
    : Ends (IsTypeConflict closureRules edgeRelations) (Converged closureRules edgeRelations)
        (inferToFixpoint closureRules edgeRelations)
      ∧ (∃ schemas, inferSccPredicateSchemas closureRules edgeRelations = .ok schemas
        ∧ ClosedUnder closureRules edgeRelations schemas)
      ∧ ∀ rules', Reordered closureRules rules' → ∀ schemas,
        inferSccPredicateSchemas closureRules edgeRelations = .ok schemas
          ↔ inferSccPredicateSchemas rules' edgeRelations = .ok schemas := by
  obtain ⟨hends, hclosed, horder, -, -⟩ :=
    @inferSccPredicateSchemas_spec closureRules edgeRelations (by decide)
  refine ⟨hends, ⟨_, rfl, ?_⟩, horder uniformHeads_closure unambiguous_closure⟩
  exact (hclosed uniformHeads_closure _ rfl).mpr unambiguous_closure

/-- The first of two rules for `p` joins relations whose columns have different types. -/
def clashingRules : RuleGroups :=
  [("p",
    [⟨⟨"p", [.var "X"]⟩, [.positive ⟨"a", [.var "X"]⟩, .positive ⟨"b", [.var "X"]⟩]⟩,
      ⟨⟨"p", [.var "X"]⟩, [.positive ⟨"a", [.var "X"]⟩]⟩])]

def swappedRules : RuleGroups :=
  [("p",
    [⟨⟨"p", [.var "X"]⟩, [.positive ⟨"b", [.var "X"]⟩, .positive ⟨"a", [.var "X"]⟩]⟩,
      ⟨⟨"p", [.var "X"]⟩, [.positive ⟨"a", [.var "X"]⟩]⟩])]

def clashingRelations : RefRelationStore :=
  Function.update (Function.update (fun _ => none) "a" (some ⟨[.u32], []⟩)) "b"
    (some ⟨[.symbol], []⟩)

theorem clashingRules_reordered
    : Reordered clashingRules swappedRules :=
  .cons ⟨rfl, _, .refl _, .cons ⟨rfl, .swap _ _ _⟩ (.cons ⟨rfl, .refl _⟩ .nil)⟩ .nil

/-- The order of one body decides whether inference succeeds, and where it does its schemas are not
closed.
-/
theorem not_inference_orderIndependent
    : Reordered clashingRules swappedRules
      ∧ (∃ schemas, inferSccPredicateSchemas clashingRules clashingRelations = .ok schemas
        ∧ ¬ ClosedUnder clashingRules clashingRelations schemas)
      ∧ ∃ error, inferSccPredicateSchemas swappedRules clashingRelations = .error error := by
  refine ⟨clashingRules_reordered, ⟨_, rfl, fun closed => ?_⟩, _, rfl⟩
  have hclash := closed.body _ (List.mem_singleton_self _) _ List.mem_cons_self "X" ⟨"a", [.var "X"]⟩
    0 ⟨"b", [.var "X"]⟩ 0 .u32 .symbol ⟨by simp, rfl⟩ ⟨by simp, rfl⟩ rfl rfl
  cases hclash

end Xlog.Logic
