import Xlog.Logic.MagicSets

/-! In `auto` mode the rewriting rejects a program exactly when it would apply but for a demanded call
without a bound argument: that failure does not look at the mode.
-/

namespace Xlog.Logic

open Xlog.Core Xlog.Foundation

-- Recursive predicates

/-- A rule for the one predicate reads the other. -/
def Calls (rules : List Rule) (pred other : String) : Prop :=
  ∃ rule ∈ rules, rule.head.predicate = pred ∧ other ∈ rule.bodyPredicates

theorem mem_dependencies {rules : List Rule} {pred other : String}
    : other ∈ dependencies rules pred ↔ Calls rules pred other := by
  simp only [dependencies, List.mem_flatMap, List.mem_filter, decide_eq_true_eq, Calls, and_assoc]

/-- A predicate that is found is reached from the stack, by induction on the fuel. -/
theorem reaches_sound {rules : List Rule} {target : String} {fuel : Nat}
    {pending seen : List String} (found : reaches rules target fuel pending seen = true)
    : ∃ pred ∈ pending, Relation.ReflTransGen (Calls rules) pred target := by
  induction fuel generalizing pending seen with
  | zero => cases pending <;> simp [reaches] at found
  | succ fuel ih =>
      cases pending with
      | nil => simp [reaches] at found
      | cons pred pending =>
          rw [reaches] at found
          split at found
          · exact ⟨pred, by simp, by simp_all [Relation.ReflTransGen.refl]⟩
          · split at found
            · obtain ⟨later, member, path⟩ := ih found
              exact ⟨later, List.mem_cons_of_mem _ member, path⟩
            · obtain ⟨later, member, path⟩ := ih found
              obtain called | waiting := List.mem_append.mp member
              · exact ⟨pred, by simp, .head (mem_dependencies.mp called) path⟩
              · exact ⟨later, List.mem_cons_of_mem _ waiting, path⟩

/-- What the calls of the predicates not seen yet can still push. -/
def unseenCalls (rules : List Rule) (seen : List String) : Nat :=
  ((rules.filter (·.head.predicate ∉ seen)).flatMap Rule.bodyPredicates).length

/-- Looking at a new predicate pushes its calls once, by list induction. -/
theorem unseenCalls_cons (rules : List Rule) {pred : String} {seen : List String}
    (new : pred ∉ seen)
    : unseenCalls rules (pred :: seen) + (dependencies rules pred).length
      = unseenCalls rules seen := by
  induction rules with
  | nil => rfl
  | cons rule rules ih =>
      simp only [unseenCalls, dependencies, List.filter_cons, List.mem_cons] at ih ⊢
      by_cases same : rule.head.predicate = pred
      · subst same
        simp only [true_or, not_true_eq_false, decide_false, new, not_false_eq_true, decide_true,
          if_true, Bool.false_eq_true, if_false, List.flatMap_cons, List.length_append]
        omega
      · by_cases known : rule.head.predicate ∈ seen
        · simpa only [same, known, false_or, not_true_eq_false, decide_false,
            Bool.false_eq_true, if_false] using ih
        · simp only [same, known, false_or, not_false_eq_true, decide_true, decide_false,
            if_true, Bool.false_eq_true, if_false, List.flatMap_cons,
            List.length_append]
          omega

/-- A search that does not find the target ends with a closed set of predicates without it, by induction
on the fuel.
-/
theorem reaches_closed {rules : List Rule} {target : String} {fuel : Nat}
    {pending seen : List String} (lost : reaches rules target fuel pending seen = false)
    (enough : pending.length + unseenCalls rules seen ≤ fuel) (absent : target ∉ seen)
    (closed : ∀ pred ∈ seen, ∀ other, Calls rules pred other → other ∈ seen ++ pending)
    : ∃ final : List String, target ∉ final ∧ seen ++ pending ⊆ final
        ∧ ∀ pred ∈ final, ∀ other, Calls rules pred other → other ∈ final := by
  induction fuel generalizing pending seen with
  | zero =>
      obtain rfl : pending = [] := List.length_eq_zero_iff.mp (by omega)
      rw [List.append_nil] at closed ⊢
      exact ⟨seen, absent, List.Subset.refl _, closed⟩
  | succ fuel ih =>
      cases pending with
      | nil =>
          rw [List.append_nil] at closed ⊢
          exact ⟨seen, absent, List.Subset.refl _, closed⟩
      | cons pred pending =>
          rw [reaches] at lost
          split at lost
          · cases lost
          · rename_i other_pred
            split at lost
            · rename_i known
              have kept : seen ++ pred :: pending ⊆ seen ++ pending := by
                intro name member
                simp only [List.mem_append, List.mem_cons] at member ⊢
                obtain old | rfl | waiting := member
                · exact .inl old
                · exact .inl known
                · exact .inr waiting
              obtain ⟨final, missing, inside, final_closed⟩ := ih lost
                (by rw [List.length_cons] at enough; omega) absent
                fun pred' member other called => kept (closed pred' member other called)
              exact ⟨final, missing, fun _ member => inside (kept member), final_closed⟩
            · rename_i new
              have pushed := unseenCalls_cons rules new
              obtain ⟨final, missing, inside, final_closed⟩ := ih lost
                (by rw [List.length_cons] at enough; rw [List.length_append]; omega)
                (by simpa using ⟨Ne.symm other_pred, absent⟩)
                (by
                  intro pred' member other called
                  simp only [List.mem_cons, List.mem_append] at member ⊢
                  obtain rfl | old := member
                  · exact .inr (.inl (mem_dependencies.mpr called))
                  · have := closed pred' old other called
                    simp only [List.mem_append, List.mem_cons] at this
                    tauto)
              refine ⟨final, missing, fun name member => inside ?_, final_closed⟩
              simp only [List.mem_append, List.mem_cons] at member ⊢
              tauto

/-- By path induction. -/
theorem mem_of_path {rules : List Rule} {final : List String}
    (closed : ∀ pred ∈ final, ∀ other, Calls rules pred other → other ∈ final) {pred target : String}
    (path : Relation.ReflTransGen (Calls rules) pred target) (start : pred ∈ final)
    : target ∈ final := by
  induction path with
  | refl => exact start
  | tail _ called ih => exact closed _ ih _ called

/-- The predicates with rules that reach themselves. -/
theorem mem_recursivePredicates {rules : List Rule} {pred : String}
    : pred ∈ recursivePredicates rules ↔ Relation.TransGen (Calls rules) pred pred := by
  have all_calls : unseenCalls rules [] = (rules.flatMap Rule.bodyPredicates).length := by
    simp [unseenCalls]
  rw [recursivePredicates, List.mem_filter]
  constructor
  · rintro ⟨-, found⟩
    obtain ⟨first, called, path⟩ := reaches_sound found
    exact .head' (mem_dependencies.mp called) path
  · intro cycle
    obtain ⟨first, called, path⟩ := Relation.TransGen.head'_iff.mp cycle
    refine ⟨?_, ?_⟩
    · obtain ⟨rule, member, same, -⟩ := called
      exact List.mem_map.mpr ⟨rule, member, same⟩
    · by_contra lost
      obtain ⟨final, missing, inside, closed⟩ := reaches_closed (Bool.eq_false_iff.mpr lost)
        (by rw [all_calls]) (by simp) (by simp)
      refine missing ?_
      exact mem_of_path closed path (inside (by simpa using mem_dependencies.mpr called))

-- Calls

section Closure

variable {targets : List String} {rules : List Rule} {seeds : List Seed}
variable {bound : List String} {body : List BodyLiteral}

/-- A call of a target predicate, what is bound in it, and the literals before it. -/
structure CallSite where
  atom : Atom
  pattern : List Bool
  earlier : List BodyLiteral

def CallSite.adornment (site : CallSite) : Adornment := ⟨site.atom.predicate, site.pattern⟩

/-- The calls of target predicates in a body. -/
def callSites (targets : List String) (bound : List String) (earlier : List BodyLiteral)
    : List BodyLiteral → List CallSite
  | [] => []
  | .positive atom :: body =>
      (if atom.predicate ∈ targets then [⟨atom, atomAdornment atom bound, earlier⟩] else [])
      ++ callSites targets (bound ++ Term.variablesList atom.terms) (earlier ++ [.positive atom]) body
  | .comparison _ :: body | .epistemic _ :: body | .isExpr _ :: body | .negated _ :: body
  | .univ _ :: body => callSites targets bound earlier body

def Adornment.isBound (adornment : Adornment) : Bool := adornment.pattern.any id

/-- The calls that a rule makes under an adornment of its head. -/
def ruleSites (targets : List String) (rule : Rule) (adornment : Adornment) : List CallSite :=
  callSites targets (headBoundVariables rule.head adornment.pattern)
    [.positive (magicAtomFor rule.head adornment.pattern)] rule.body

def ruleCalls (targets : List String) (rule : Rule) (adornment : Adornment) : List Adornment :=
  (ruleSites targets rule adornment).map CallSite.adornment

/-- An adornment that evaluating the seeds needs. -/
inductive Demanded (targets : List String) (rules : List Rule) (seeds : List Seed)
    : Adornment → Prop
  | seed {seed} (member : seed ∈ seeds) : Demanded targets rules seeds ⟨seed.pred, seed.pattern⟩
  | call {adornment rule called} (caller : Demanded targets rules seeds adornment)
    (member : rule ∈ rules) (same : rule.head.predicate = adornment.pred)
    (call : called ∈ ruleCalls targets rule adornment) (bound : called.isBound = true)
    : Demanded targets rules seeds called

/-- A rule of a demanded predicate calls a target without a bound argument. -/
def DemandsUnboundCall (targets : List String) (rules : List Rule) (seeds : List Seed) : Prop :=
  ∃ adornment rule called, Demanded targets rules seeds adornment ∧ rule ∈ rules
  ∧ rule.head.predicate = adornment.pred ∧ called ∈ ruleCalls targets rule adornment
  ∧ called.isBound = false

theorem callPattern_cases (atom : Atom) (bound : List String)
    : (Adornment.isBound ⟨atom.predicate, atomAdornment atom bound⟩ = true
        ∧ callPattern atom bound = .ok (atomAdornment atom bound))
      ∨ (Adornment.isBound ⟨atom.predicate, atomAdornment atom bound⟩ = false
        ∧ ∃ error, callPattern atom bound = .error error) := by
  rw [callPattern, Adornment.isBound]
  dsimp only
  cases (atomAdornment atom bound).any id with
  | false => exact .inr ⟨rfl, _, rfl⟩
  | true => exact .inl ⟨rfl, rfl⟩

/-- Discovery finds the calls and fails on one without a bound argument, by induction on the body. -/
theorem discoverBodyAdornments_ends (targets bound : List String) (earlier body : List BodyLiteral)
    : Ends (fun _ => ∃ site ∈ callSites targets bound earlier body, site.adornment.isBound = false)
        (fun discovered => discovered
            = (callSites targets bound earlier body).map CallSite.adornment
          ∧ ∀ called ∈ discovered, called.isBound = true)
        (discoverBodyAdornments targets bound body) := by
  induction body generalizing bound earlier with
  | nil => exact ⟨rfl, nofun⟩
  | cons literal body ih =>
      cases literal with
      | positive atom =>
          rw [discoverBodyAdornments, callSites]
          by_cases target : atom.predicate ∈ targets
          · rw [if_pos target, if_pos target]
            obtain ⟨any, found⟩ | ⟨none, error, failed⟩ := callPattern_cases atom bound
            · rw [found, ok_bind, ok_bind]
              refine ((ih _ (earlier ++ [.positive atom])).weaken ?_).bind ?_
              · exact fun _ ⟨site, member, unbound⟩ =>
                  ⟨site, List.mem_append_right _ member, unbound⟩
              · rintro rest ⟨rfl, bounds⟩
                exact ⟨rfl, List.forall_mem_append.mpr ⟨by simpa using any, bounds⟩⟩
            · rw [failed]
              exact ⟨_, List.mem_append_left _ (List.mem_singleton_self _), none⟩
          · rw [if_neg target, if_neg target, ok_bind]
            exact (ih _ _).bind fun rest post => post
      | comparison | epistemic | isExpr | negated | univ => exact ih bound earlier

/-- The rule that a call demands its arguments by. -/
def CallSite.demands (site : CallSite) : List Rule :=
  if isTrivial site.earlier (magicAtomFor site.atom site.pattern) then []
  else [⟨magicAtomFor site.atom site.pattern, site.earlier⟩]

theorem propagateCalls_eq {earlier : List BodyLiteral}
    (bounds : ∀ site ∈ callSites targets bound earlier body, site.adornment.isBound = true)
    : propagateCalls targets bound earlier body
      = .ok ((callSites targets bound earlier body).flatMap CallSite.demands) := by
  induction body generalizing bound earlier with
  | nil => rfl
  | cons literal body ih =>
      cases literal with
      | positive atom =>
          rw [callSites, List.forall_mem_append] at bounds
          rw [propagateCalls, callSites, List.flatMap_append]
          by_cases target : atom.predicate ∈ targets
          · rw [if_pos target] at bounds
            rw [if_pos target, if_pos target]
            obtain ⟨-, found⟩ | ⟨none, -⟩ := callPattern_cases atom bound
            · rw [found, ok_bind, ok_bind, ih bounds.2, List.flatMap_singleton]
              rfl
            · cases (bounds.1 _ (List.mem_singleton_self _)).symm.trans none
          · rw [if_neg target, if_neg target, ok_bind, ih bounds.2]
            rfl
      | comparison | epistemic | isExpr | negated | univ => exact ih bounds

-- Ordered sets

theorem mem_insertOrdered {α : Type} [DecidableEq α] {le : α → α → Bool} {items : List α}
    {item other : α}
    : other ∈ insertOrdered le items item ↔ other = item ∨ other ∈ items := by
  rw [insertOrdered]
  split
  · exact ⟨.inr, fun either => either.elim (fun same => same ▸ ‹item ∈ items›) id⟩
  · exact List.mem_orderedInsert _

theorem nodup_insertOrdered {α : Type} [DecidableEq α] {le : α → α → Bool} {items : List α}
    {item : α} (distinct : items.Nodup)
    : (insertOrdered le items item).Nodup := by
  rw [insertOrdered]
  split
  · exact distinct
  · exact (List.perm_orderedInsert _ _ _).nodup_iff.mpr (List.nodup_cons.mpr ⟨‹_›, distinct⟩)

/-- Some adornments came in, and the flag says whether there were any. -/
structure Grown (start : List Adornment) (state : Bool × List Adornment) : Prop where
  subset : start ⊆ state.2
  distinct : state.2.Nodup
  still : state.1 = false → state.2 = start
  more : state.1 = true → start.length < state.2.length

theorem Grown.length_le {start : List Adornment} {state : Bool × List Adornment}
    (grown : Grown start state)
    : start.length ≤ state.2.length := by
  cases changed : state.1 with
  | false => rw [grown.still changed]
  | true => exact Nat.le_of_lt (grown.more changed)

theorem Grown.extend {start : List Adornment} {state : Bool × List Adornment}
    (grown : Grown start state) (discovered : List Adornment)
    : Grown start (extendAdornments state discovered)
      ∧ ∀ adornment, adornment ∈ (extendAdornments state discovered).2
        ↔ adornment ∈ discovered ∨ adornment ∈ state.2 := by
  induction discovered generalizing state with
  | nil => exact ⟨grown, by simp [extendAdornments]⟩
  | cons new discovered ih =>
      have step : Grown start (state.1 || new ∉ state.2,
          insertOrdered Adornment.le state.2 new) := by
        refine ⟨fun a member => mem_insertOrdered.mpr (.inr (grown.subset member)),
          nodup_insertOrdered grown.distinct, fun unchanged => ?_, fun changed => ?_⟩
        · obtain ⟨before, known⟩ : state.1 = false ∧ new ∈ state.2 := by simpa using unchanged
          exact (if_pos known).trans (grown.still before)
        · by_cases known : new ∈ state.2
          · rw [insertOrdered, if_pos known]
            exact grown.more (by simpa [known] using changed)
          · rw [insertOrdered, if_neg known, List.orderedInsert_length]
            exact Nat.lt_succ_of_le grown.length_le
      obtain ⟨grown', members⟩ := ih step
      refine ⟨grown', fun a => (members a).trans ?_⟩
      rw [mem_insertOrdered, List.mem_cons]
      tauto

-- The closure

theorem mem_adornedRules {adornments : List Adornment} {adornment : Adornment} {rule : Rule}
    : (adornment, rule) ∈ adornedRules rules adornments
      ↔ adornment ∈ adornments ∧ rule ∈ rules ∧ rule.head.predicate = adornment.pred := by
  simp only [adornedRules, List.mem_flatMap, List.mem_map, List.mem_filter, decide_eq_true_eq,
    Prod.mk.injEq]
  constructor
  · rintro ⟨_, member, _, found, rfl, rfl⟩
    exact ⟨member, found⟩
  · rintro ⟨member, found⟩
    exact ⟨_, member, _, found, rfl, rfl⟩

/-- Every call of the rules from some adornments has a bound argument and is among others. -/
def CallsWithin (targets : List String) (sites : List (Adornment × Rule))
    (adornments : List Adornment)
    : Prop :=
  ∀ site ∈ sites, ∀ called ∈ ruleCalls targets site.2 site.1,
    called.isBound = true ∧ called ∈ adornments

/-- What a round does to demanded adornments: a fold over the rules of the snapshot. -/
theorem expandRound_ends {adornments : List Adornment} (distinct : adornments.Nodup)
    (demanded : ∀ adornment ∈ adornments, Demanded targets rules seeds adornment)
    : Ends (fun _ => DemandsUnboundCall targets rules seeds)
        (fun state => Grown adornments state
          ∧ (∀ adornment ∈ state.2, Demanded targets rules seeds adornment)
          ∧ (∀ adornment ∈ state.2, adornment ∈ adornments
            ∨ ∃ rule ∈ rules, ∃ caller, adornment ∈ ruleCalls targets rule caller)
          ∧ CallsWithin targets (adornedRules rules adornments) state.2)
        (expandRound targets rules adornments) := by
  refine Ends.foldlM (fun before state => Grown adornments state
      ∧ (∀ adornment ∈ state.2, Demanded targets rules seeds adornment)
      ∧ (∀ adornment ∈ state.2, adornment ∈ adornments
        ∨ ∃ rule ∈ rules, ∃ caller, adornment ∈ ruleCalls targets rule caller)
      ∧ CallsWithin targets before state.2)
    ⟨⟨List.Subset.refl _, distinct, fun _ => rfl, nofun⟩, demanded, fun _ => .inl, nofun⟩ ?_
  rintro before ⟨adornment, rule⟩ after state split ⟨grown, all_demanded, origin, within⟩
  have site : (adornment, rule) ∈ adornedRules rules adornments := by
    rw [split]
    simp
  obtain ⟨member, known, same⟩ := mem_adornedRules.mp site
  have caller := demanded adornment member
  refine ((discoverBodyAdornments_ends targets _
    [.positive (magicAtomFor rule.head adornment.pattern)] rule.body).weaken ?_).bind ?_
  · exact fun _ ⟨site, call, unbound⟩ =>
      ⟨adornment, rule, _, caller, known, same, List.mem_map_of_mem call, unbound⟩
  · rintro discovered ⟨rfl, bounds⟩
    obtain ⟨grown', members⟩ := grown.extend (ruleCalls targets rule adornment)
    refine ⟨grown', fun a found => ?_, fun a found => ?_, fun site found called call => ?_⟩
    · obtain new | old := (members a).mp found
      · exact .call caller known same new (bounds a new)
      · exact all_demanded a old
    · obtain new | old := (members a).mp found
      · exact .inr ⟨rule, known, adornment, new⟩
      · exact origin a old
    · obtain earlier | here := List.mem_append.mp found
      · obtain ⟨any, inside⟩ := within site earlier called call
        exact ⟨any, (members called).mpr (.inr inside)⟩
      · obtain rfl := List.mem_singleton.mp here
        exact ⟨bounds called call, (members called).mpr (.inl call)⟩

theorem mem_allPatterns (pattern : List Bool) : pattern ∈ allPatterns pattern.length := by
  induction pattern with
  | nil => simp [allPatterns]
  | cons bound pattern ih =>
      refine List.mem_flatMap.mpr ⟨pattern, ih, ?_⟩
      cases bound <;> simp

/-- Calls have one of the adornments of their literals, by induction on the body. -/
theorem mem_literalAdornments {rule : Rule} (member : rule ∈ rules) {caller called : Adornment}
    (call : called ∈ ruleCalls targets rule caller)
    : called ∈ literalAdornments rules := by
  obtain ⟨site, found, rfl⟩ := List.mem_map.mp call
  rw [ruleSites] at found
  clear call
  refine List.mem_flatMap.mpr ⟨rule, member, ?_⟩
  generalize headBoundVariables rule.head caller.pattern = bound at found
  generalize [BodyLiteral.positive (magicAtomFor rule.head caller.pattern)] = earlier at found
  generalize rule.body = body at found ⊢
  induction body generalizing bound earlier with
  | nil => cases found
  | cons literal body ih =>
      rw [List.flatMap_cons, List.mem_append]
      cases literal with
      | positive atom =>
          obtain here | later := List.mem_append.mp found
          · split at here
            · obtain rfl := List.mem_singleton.mp here
              refine .inl (List.mem_map.mpr ⟨_, ?_, rfl⟩)
              simpa [atomAdornment] using mem_allPatterns (atomAdornment atom bound)
            · cases here
          · exact .inr (ih _ _ later)
      | comparison | epistemic | isExpr | negated | univ => exact .inr (ih _ _ found)

/-- The rounds end with a set that is closed under calls, by induction on the fuel: each round but the
last finds one of the finitely many adornments of the literals.
-/
theorem expandRounds_ends {start : List Adornment} {fuel : Nat} {adornments : List Adornment}
    (distinct : adornments.Nodup) (inside : start ⊆ adornments)
    (demanded : ∀ adornment ∈ adornments, Demanded targets rules seeds adornment)
    (origin : ∀ adornment ∈ adornments,
      adornment ∈ start ∨ adornment ∈ literalAdornments rules)
    (enough : start.length + (literalAdornments rules).length < adornments.length + fuel)
    : Ends (fun _ => DemandsUnboundCall targets rules seeds)
        (fun final => start ⊆ final ∧ CallsWithin targets (adornedRules rules final) final)
        (expandRounds targets rules fuel adornments) := by
  induction fuel generalizing adornments with
  | zero =>
      have small : adornments.length ≤ (start ++ literalAdornments rules).length :=
        (List.subperm_of_subset distinct fun a member =>
          List.mem_append.mpr (origin a member)).length_le
      rw [List.length_append] at small
      omega
  | succ fuel ih =>
      refine (expandRound_ends distinct demanded).bind ?_
      rintro ⟨changed, next⟩ ⟨grown, all_demanded, found, within⟩
      cases changed with
      | false =>
          obtain rfl : next = adornments := grown.still rfl
          exact ⟨inside, within⟩
      | true =>
          refine ih grown.distinct (fun a member => grown.subset (inside member)) all_demanded
            (fun a member => ?_) ?_
          · obtain old | ⟨rule, known, caller, call⟩ := found a member
            · exact origin a old
            · exact .inr (mem_literalAdornments known call)
          · have more := grown.more rfl
            dsimp only at more
            omega

theorem initialAdornments_spec (seeds : List Seed)
    : (initialAdornments seeds).Nodup
      ∧ ∀ adornment, adornment ∈ initialAdornments seeds
        ↔ ∃ seed ∈ seeds, adornment = ⟨seed.pred, seed.pattern⟩ := by
  suffices from_any : ∀ out : List Adornment, out.Nodup →
      (seeds.foldl (fun out seed =>
        insertOrdered Adornment.le out ⟨seed.pred, seed.pattern⟩) out).Nodup
      ∧ ∀ adornment, adornment ∈ seeds.foldl (fun out seed =>
          insertOrdered Adornment.le out ⟨seed.pred, seed.pattern⟩) out
        ↔ adornment ∈ out ∨ ∃ seed ∈ seeds, adornment = ⟨seed.pred, seed.pattern⟩ by
    simpa [initialAdornments] using from_any [] List.nodup_nil
  induction seeds with
  | nil => exact fun out distinct => ⟨distinct, by simp⟩
  | cons seed seeds ih =>
      intro out distinct
      obtain ⟨distinct', members⟩ := ih _ (nodup_insertOrdered distinct)
      refine ⟨distinct', fun a => (members a).trans ?_⟩
      simp only [mem_insertOrdered, List.mem_cons, exists_eq_or_imp]
      tauto

/-- The closure fails exactly when a demanded call has no bound argument. -/
theorem expandAdornments_cases (targets : List String) (rules : List Rule) (seeds : List Seed)
    : (DemandsUnboundCall targets rules seeds
        ∧ ∃ error, expandAdornments targets rules (initialAdornments seeds) = .error error)
      ∨ (¬ DemandsUnboundCall targets rules seeds
        ∧ ∃ final, expandAdornments targets rules (initialAdornments seeds) = .ok final
          ∧ initialAdornments seeds ⊆ final
          ∧ CallsWithin targets (adornedRules rules final) final) := by
  obtain ⟨distinct, members⟩ := initialAdornments_spec seeds
  have ends := @expandRounds_ends targets rules seeds (initialAdornments seeds)
    ((literalAdornments rules).length + 1) (initialAdornments seeds) distinct
    (List.Subset.refl _)
    (by
      intro adornment member
      obtain ⟨seed, known, rfl⟩ := (members adornment).mp member
      exact .seed known)
    (fun _ => .inl) (by omega)
  rw [expandAdornments]
  generalize expandRounds targets rules _ (initialAdornments seeds) = outcome at ends ⊢
  cases outcome with
  | error error => exact .inl ⟨ends, error, rfl⟩
  | ok final =>
      obtain ⟨inside, within⟩ := ends
      have closed : ∀ adornment, Demanded targets rules seeds adornment → adornment ∈ final := by
        intro adornment demanded
        induction demanded with
        | seed known => exact inside ((members _).mpr ⟨_, known, rfl⟩)
        | call _ known same call _ ih =>
            exact (within _ (mem_adornedRules.mpr ⟨ih, known, same⟩) _ call).2
      refine .inr ⟨?_, final, rfl, inside, within⟩
      rintro ⟨adornment, rule, called, demanded, known, same, call, unbound⟩
      have site := mem_adornedRules.mpr ⟨closed adornment demanded, known, same⟩
      rw [(within _ site _ call).1] at unbound
      cases unbound

end Closure

-- The pass

def seedRules (seeds : List Seed) : List Rule :=
  seeds.map fun seed => ⟨⟨magicPredicate seed.pred seed.pattern, seed.terms⟩, []⟩

/-- The rules that the calls demand their arguments by. -/
def demandRules (targets : List String) (rules : List Rule) (adornments : List Adornment)
    : List Rule :=
  (adornedRules rules adornments).flatMap fun site =>
    (ruleSites targets site.2 site.1).flatMap CallSite.demands

def guardedRules (rules : List Rule) (adornments : List Adornment) : List Rule :=
  (adornedRules rules adornments).map fun (adornment, rule) =>
    ⟨rule.head, .positive (magicAtomFor rule.head adornment.pattern) :: rule.body⟩

/-- Rules whose calls all have bound arguments are rewritten. -/
theorem rewriteRules_eq (text : DebugText) {rules : List Rule} {targets : List String}
    {adornments : List Adornment} (seeds : List Seed)
    (within : CallsWithin targets (adornedRules rules adornments) adornments)
    : rewriteRules text rules targets adornments seeds
      = .ok (rules.filter (·.head.predicate ∉ targets)
        ++ ((seedRules seeds ++ demandRules targets rules adornments).foldl
          (pushUniqueRule text) ([], [])).1
        ++ guardedRules rules adornments) := by
  have generates : ∀ (sites : List (Adornment × Rule)) seeded,
      (∀ site ∈ sites, ∀ called ∈ ruleCalls targets site.2 site.1, called.isBound = true) →
      sites.foldlM (fun out (adornment, rule) => do
        .ok ((← propagationRules targets rule adornment.pattern).foldl (pushUniqueRule text) out))
        seeded
      = (Except.ok ((sites.flatMap fun site =>
          (ruleSites targets site.2 site.1).flatMap CallSite.demands).foldl
            (pushUniqueRule text) seeded) : Result (List Rule × List String)) := by
    intro sites
    induction sites with
    | nil => exact fun seeded _ => rfl
    | cons site sites ih =>
        intro seeded bounds
        rw [List.forall_mem_cons] at bounds
        rw [List.foldlM_cons, List.flatMap_cons, List.foldl_append, ← ih _ bounds.2]
        obtain ⟨adornment, rule⟩ := site
        dsimp only
        rw [propagationRules, propagateCalls_eq fun site call =>
          bounds.1 _ (List.mem_map_of_mem call), ok_bind, ok_bind]
        rfl
  have generated := generates (adornedRules rules adornments) (seeds.foldl (fun out seed =>
      pushUniqueRule text out ⟨⟨magicPredicate seed.pred seed.pattern, seed.terms⟩, []⟩) ([], []))
    fun site member called call => (within site member called call).1
  rw [List.foldl_append, seedRules, List.foldl_map]
  exact congrArg (· >>= _) generated

/-- Nothing speaks against the rewriting but a demanded call without a bound argument. -/
structure RejectedShape (text : DebugText) (program : Program) : Prop where
  seeded : collectQuerySeeds text program ≠ []
  deterministic : program.isProbabilisticProfile = false
  supported
    : unsupportedTargetReasons program.rules ((collectQuerySeeds text program).map Seed.pred)
      (recursivePredicates program.rules) = []
  unbound
    : DemandsUnboundCall ((collectQuerySeeds text program).map Seed.pred) program.rules
      (collectQuerySeeds text program)

/-- The rewriting applies, or it declines and leaves the program as it is. -/
def AppliesOrDeclines (text : DebugText) (program : Program) : Prop :=
  ∃ rewrite, rewriteMagicSets text program = .ok rewrite
  ∧ (rewrite.report.status = .applied
    ∨ rewrite.report.status = .declined ∧ rewrite.program = program)

theorem appliesOrDeclines_iff (text : DebugText) {program : Program}
    (auto : program.directives.magicSets = some .auto)
    : AppliesOrDeclines text program ↔ ¬ RejectedShape text program := by
  have enabled : rewriteMagicSets text program = rewriteEnabled text program .auto := by
    rw [rewriteMagicSets, auto]
  have declined : ∀ {reasons}, rewriteEnabled text program .auto
      = declineOrError program .auto reasons → AppliesOrDeclines text program :=
    fun same => ⟨_, enabled.trans same, .inr ⟨rfl, rfl⟩⟩
  rw [rewriteEnabled] at enabled declined
  by_cases empty : (collectQuerySeeds text program).isEmpty = true
  · rw [if_pos empty] at declined
    exact iff_of_true (declined rfl) fun shape => shape.seeded (List.isEmpty_iff.mp empty)
  rw [if_neg empty] at enabled declined
  by_cases probabilistic : program.isProbabilisticProfile = true
  · rw [if_pos probabilistic] at declined
    exact iff_of_true (declined rfl) fun shape => by simp [shape.deterministic] at probabilistic
  rw [if_neg probabilistic] at enabled declined
  by_cases reasons : unsupportedTargetReasons program.rules
      ((collectQuerySeeds text program).map Seed.pred) (recursivePredicates program.rules) ≠ []
  · rw [if_pos reasons] at declined
    exact iff_of_true (declined rfl) fun shape => reasons shape.supported
  rw [if_neg reasons] at enabled
  obtain ⟨unbound, error, failed⟩ | ⟨none, final, found, -, within⟩ := expandAdornments_cases
    ((collectQuerySeeds text program).map Seed.pred) program.rules (collectQuerySeeds text program)
  · rw [failed] at enabled
    refine iff_of_false ?_ (not_not.mpr ⟨?_, by simpa using probabilistic, not_not.mp reasons, unbound⟩)
    · rintro ⟨rewrite, ran, -⟩
      cases enabled.symm.trans ran
    · exact fun same => empty (List.isEmpty_iff.mpr same)
  · rw [found, ok_bind, rewriteRules_eq text (collectQuerySeeds text program) within,
      ok_bind] at enabled
    exact iff_of_true ⟨_, enabled, .inl rfl⟩ fun shape => none shape.unbound

/-- Paths by a recursive call in front of an edge, from one source. -/
def callFirstProgram : Program :=
  { Program.empty with
    rules := [⟨⟨"path", [.var "X", .var "Y"]⟩, [.positive ⟨"edge", [.var "X", .var "Y"]⟩]⟩,
      ⟨⟨"path", [.var "X", .var "Y"]⟩, [.positive ⟨"path", [.var "Z", .var "Y"]⟩,
        .positive ⟨"edge", [.var "X", .var "Z"]⟩]⟩]
    queries := [⟨⟨"path", [.integer 1, .var "Y"]⟩⟩]
    directives := { Directives.default with magicSets := some .auto } }

def reprText : DebugText := ⟨fun terms => (repr terms).pretty, fun rule => (repr rule).pretty⟩

theorem appliesOrDeclines_iff_callFirstProgram
    : AppliesOrDeclines reprText callFirstProgram ↔ ¬ RejectedShape reprText callFirstProgram :=
  appliesOrDeclines_iff reprText rfl

theorem auto_rejects_callFirstProgram
    : ¬ ∀ text program, program.directives.magicSets = some .auto →
        AppliesOrDeclines text program := by
  intro never
  obtain ⟨rewrite, ran, -⟩ := never reprText callFirstProgram rfl
  have rejected : (rewriteMagicSets reprText callFirstProgram).isOk = false := by decide +kernel
  rw [ran] at rejected
  cases rejected

end Xlog.Logic
