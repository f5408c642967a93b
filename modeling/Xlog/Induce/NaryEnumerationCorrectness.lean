import Xlog.Induce.NaryCanonical

/-! The enumeration visits the nodes of the canonical search in order and keeps its range-restricted bodies.
It gives the canonical space of the candidates that it counts in 32 bits, or refuses at one of its bounds.
-/

namespace Xlog.Induce

open Xlog.Core
open Xlog.Foundation

-- Loops

/-- Loops whose bodies agree on the items agree, by list induction. -/
theorem foldlM_congr_mem {α σ : Type} {items : List α} {first second : σ → α → Result σ}
    (same : ∀ item ∈ items, ∀ state, first state item = second state item) (state : σ)
    : items.foldlM first state = items.foldlM second state := by
  induction items generalizing state with
  | nil => rfl
  | cons item items ih =>
      obtain ⟨here, later⟩ := List.forall_mem_cons.mp same
      rw [List.foldlM_cons, List.foldlM_cons, here state]
      exact bind_congr fun state => ih later state

/-- A loop over the items of items is a loop of loops, by list induction. -/
theorem foldlM_flatMap {α β σ : Type} {items : List α} {inner : α → List β}
    {body : σ → β → Result σ} (state : σ)
    : (items.flatMap inner).foldlM body state
      = items.foldlM (fun state item => (inner item).foldlM body state) state := by
  induction items generalizing state with
  | nil => rfl
  | cons item items ih =>
      rw [List.flatMap_cons, List.foldlM_append, List.foldlM_cons]
      exact bind_congr fun state => ih state

-- Counters

/-- No watermark overflows while the joins are within their bound. -/
theorem raiseNext_foldlM {bindings : List PatternVar} {next maxJoinVars : Nat}
    (bound : maxJoinVars < 256) (joins : ∀ j, .join j ∈ bindings → j < maxJoinVars)
    : bindings.foldlM raiseNext next = .ok (raiseAll next bindings) := by
  induction bindings generalizing next with
  | nil => rfl
  | cons binding bindings ih =>
      have later := @ih (binding.raise next) fun j member => joins j (List.mem_cons_of_mem _ member)
      have first : raiseNext next binding = .ok (binding.raise next) := by
        cases binding with
        | head i => rfl
        | join j =>
            have lt := joins j List.mem_cons_self
            have room : j + 1 < 256 := by omega
            rw [raiseNext, incrU8, if_pos room]
            rfl
      rw [List.foldlM_cons, first, ok_bind, later]
      rfl

theorem nextJoinIndex_eq {body : List BodyAtomPattern} {headArity maxJoinVars : Nat}
    (bound : maxJoinVars < 256) (grows : Grows headArity maxJoinVars 0 (bodyBindings body))
    : nextJoinIndex body = .ok (raiseAll 0 (bodyBindings body)) := by
  rw [nextJoinIndex, ← raiseNext_foldlM bound grows.bounds.2, bodyBindings, foldlM_flatMap]

/-- No head position is out of range while the heads are within the arity. -/
theorem markHead_foldlM {bindings : List PatternVar} {headBound : List Bool}
    (heads : ∀ i, .head i ∈ bindings → i < headBound.length)
    : bindings.foldlM markHead headBound = .ok (markAll headBound bindings) := by
  induction bindings generalizing headBound with
  | nil => rfl
  | cons binding bindings ih =>
      have first : markHead headBound binding = .ok (binding.mark headBound) := by
        cases binding with
        | head i =>
            rw [markHead, if_pos (heads i List.mem_cons_self)]
            rfl
        | join j => rfl
      have length : (binding.mark headBound).length = headBound.length :=
        @length_markAll headBound [binding]
      have later := @ih (binding.mark headBound) fun i member =>
        length ▸ heads i (List.mem_cons_of_mem _ member)
      rw [List.foldlM_cons, first, ok_bind, later]
      rfl

/-- The bindings of a body that bind every head position. -/
def rangeRestricted (headArity : Nat) (body : List BodyAtomPattern) : Bool :=
  (List.range headArity).all fun i => decide (.head i ∈ bodyBindings body)

theorem rangeRestricted_iff {headArity : Nat} {body : List BodyAtomPattern}
    : rangeRestricted headArity body = true
      ↔ ∀ i < headArity, .head i ∈ bodyBindings body := by
  simp [rangeRestricted]

theorem keepBody_eq {headArity : Nat} {candidateArities : List Nat}
    {config : NaryEnumerationConfig} {body : List BodyAtomPattern} {search : Search}
    (heads : ∀ i, .head i ∈ bodyBindings body → i < headArity)
    : keepBody headArity candidateArities config body search
      = if rangeRestricted headArity body then
          keepPattern headArity candidateArities config body search
        else .ok search := by
  have marks : body.foldlM (fun headBound atom => atom.bindings.foldlM markHead headBound)
        (List.replicate headArity false)
      = .ok (markAll (List.replicate headArity false) (bodyBindings body)) := by
    rw [← markHead_foldlM (by simpa using heads), bodyBindings, foldlM_flatMap]
  have all_iff : (markAll (List.replicate headArity false) (bodyBindings body)).all id
      = rangeRestricted headArity body := by
    rw [Bool.eq_iff_iff, rangeRestricted_iff, ← findIdx?_markAll_iff,
      List.findIdx?_eq_none_iff]
    simp
  rw [keepBody, marks, ok_bind, all_iff]

-- Events

/-- What a search does at one moment. -/
inductive SearchEvent where
  | visit
  | keep (body : List BodyAtomPattern)
  deriving DecidableEq, Repr

section

variable (headArity : Nat) (candidateArities : List Nat) (config : NaryEnumerationConfig)

def bindingEvents (slot : Nat) (next : List BodyAtomPattern → Nat → List SearchEvent)
    (body : List BodyAtomPattern) (joinsUsed : Nat)
    : Nat → List PatternVar → List SearchEvent
  | 0, bindings =>
      .visit :: next (body ++ [⟨slot, bindings⟩]) (raiseAll joinsUsed bindings)
  | left + 1, bindings =>
      .visit :: (choices headArity config.maxJoinVars (raiseAll joinsUsed bindings)).flatMap
        fun binding => bindingEvents slot next body joinsUsed left (bindings ++ [binding])

def bodyEvents : Nat → List BodyAtomPattern → Nat → List SearchEvent
  | 0, body, _ => .visit :: if rangeRestricted headArity body then [.keep body] else []
  | left + 1, body, joinsUsed =>
      .visit :: (List.range (candidateArities.length % 4294967296)).flatMap fun slot =>
        (candidateArities[slot]?.toList).flatMap fun arity =>
          bindingEvents headArity config slot (bodyEvents left) body joinsUsed arity []

/-- What the search does when nothing bounds it. -/
def searchEvents : List SearchEvent :=
  if candidateArities = [] then []
  else
    (List.range' 1 config.maxBodyAtoms).flatMap fun bodyLen =>
      bodyEvents headArity candidateArities config bodyLen [] 0

/-- One event against the bounds. -/
def play (search : Search) : SearchEvent → Result Search
  | .visit => chargeNode config search
  | .keep body => keepPattern headArity candidateArities config body search

end

/-- A partial body in canonical form with its next free join index. -/
def Tracks (headArity maxJoinVars : Nat) (body : List BodyAtomPattern) (joinsUsed : Nat)
    : Prop :=
  Grows headArity maxJoinVars 0 (bodyBindings body)
  ∧ joinsUsed = raiseAll 0 (bodyBindings body)

section

variable {headArity : Nat} {candidateArities : List Nat} {config : NaryEnumerationConfig}

theorem Tracks.atom {body : List BodyAtomPattern} {joinsUsed : Nat}
    {bindings : List PatternVar} (tracks : Tracks headArity config.maxJoinVars body joinsUsed)
    (slot : Nat)
    (grows : Grows headArity config.maxJoinVars joinsUsed bindings)
    : Tracks headArity config.maxJoinVars (body ++ [⟨slot, bindings⟩])
        (raiseAll joinsUsed bindings) := by
  obtain ⟨before, rfl⟩ := tracks
  have split : bodyBindings (body ++ [⟨slot, bindings⟩]) = bodyBindings body ++ bindings := by
    simp [bodyBindings]
  refine ⟨split ▸ grows_append.mpr ⟨before, grows⟩, ?_⟩
  rw [split]
  exact List.foldl_append.symm

/-- The bindings of an atom play their events, by induction on the positions left. -/
theorem enumerateBindings_eq {slot joinsUsed left : Nat} {body : List BodyAtomPattern}
    {next : List BodyAtomPattern → Nat → Search → Result Search}
    {nextEvents : List BodyAtomPattern → Nat → List SearchEvent}
    (next_eq : ∀ body joinsUsed search, Tracks headArity config.maxJoinVars body joinsUsed →
      next body joinsUsed search
        = (nextEvents body joinsUsed).foldlM (play headArity candidateArities config) search)
    (tracks : Tracks headArity config.maxJoinVars body joinsUsed) {bindings : List PatternVar}
    (grows : Grows headArity config.maxJoinVars joinsUsed bindings) (search : Search)
    : enumerateBindings headArity config slot next body joinsUsed left bindings search
      = (bindingEvents headArity config slot nextEvents body joinsUsed left bindings).foldlM
          (play headArity candidateArities config) search := by
  have bound := config.maxJoinVars_lt
  induction left generalizing bindings search with
  | zero =>
      have tracks' := tracks.atom slot grows
      rw [enumerateBindings, bindingEvents, List.foldlM_cons]
      refine bind_congr fun search => ?_
      have introduced := nextJoinIndex_eq bound tracks'.1
      rw [← tracks'.2] at introduced
      have joins_eq : max joinsUsed (raiseAll joinsUsed bindings)
          = raiseAll joinsUsed bindings := Nat.max_eq_right le_raiseAll
      simp only [introduced, ok_bind, joins_eq]
      exact next_eq _ _ search tracks'
  | succ left ih =>
      have step : ∀ binding ∈ choices headArity config.maxJoinVars (raiseAll joinsUsed bindings),
          ∀ search, enumerateBindings headArity config slot next body joinsUsed left
              (bindings ++ [binding]) search
            = (bindingEvents headArity config slot nextEvents body joinsUsed left
                (bindings ++ [binding])).foldlM (play headArity candidateArities config)
                search := by
        intro binding member search
        have one : Grows headArity config.maxJoinVars (raiseAll joinsUsed bindings) [binding] :=
          ⟨mem_choices.mp member, trivial⟩
        exact ih (grows_append.mpr ⟨grows, one⟩) search
      have watermark : bindingsJoinWatermark bindings joinsUsed
          = .ok (raiseAll joinsUsed bindings) :=
        raiseNext_foldlM bound grows.bounds.2
      have reachable : min (min (max joinsUsed (raiseAll joinsUsed bindings) + 1) 255)
            config.maxJoinVars
          = min (raiseAll joinsUsed bindings + 1) config.maxJoinVars := by
        have joins_eq : max joinsUsed (raiseAll joinsUsed bindings)
            = raiseAll joinsUsed bindings := Nat.max_eq_right le_raiseAll
        rw [joins_eq]
        omega
      rw [enumerateBindings, bindingEvents, List.foldlM_cons]
      refine bind_congr fun search => ?_
      rw [foldlM_flatMap, ← foldlM_congr_mem step, choices, List.foldlM_append,
        List.foldlM_map, watermark]
      refine bind_congr fun search => ?_
      simp only [ok_bind, reachable]
      rw [List.foldlM_map]

/-- The bodies of one length play their events, by induction on the atoms left. -/
theorem enumerateBodies_eq {left joinsUsed : Nat} {body : List BodyAtomPattern}
    (tracks : Tracks headArity config.maxJoinVars body joinsUsed) (search : Search)
    : enumerateBodies headArity candidateArities config left body joinsUsed search
      = (bodyEvents headArity candidateArities config left body joinsUsed).foldlM
          (play headArity candidateArities config) search := by
  induction left generalizing body joinsUsed search with
  | zero =>
      rw [enumerateBodies, bodyEvents, List.foldlM_cons]
      refine bind_congr fun search => ?_
      rw [keepBody_eq tracks.1.bounds.1]
      split
      · rw [List.foldlM_cons]
        exact (bind_pure _).symm
      · rfl
  | succ left ih =>
      rw [enumerateBodies, bodyEvents, List.foldlM_cons]
      refine bind_congr fun search => ?_
      rw [foldlM_flatMap]
      refine foldlM_congr_mem (fun slot member search => ?_) search
      have counted := List.mem_range.mp member
      have within : slot < candidateArities.length :=
        Nat.lt_of_lt_of_le counted (Nat.mod_le _ _)
      rw [List.getElem?_eq_getElem within, Option.toList_some, List.flatMap_singleton]
      have start : Grows headArity config.maxJoinVars joinsUsed [] := trivial
      exact enumerateBindings_eq (fun body joinsUsed search tracks => ih tracks search) tracks
        start search

/-- The enumeration plays the events of the search. -/
theorem enumeratePatterns_eq (head_ne : headArity ≠ 0)
    : enumeratePatterns headArity candidateArities config
      = (searchEvents headArity candidateArities config).foldlM
            (play headArity candidateArities config) ⟨[], 0⟩
          >>= fun search => pure search.out := by
  rw [enumeratePatterns, if_neg head_ne, searchEvents]
  split
  · rfl
  · have start : Tracks headArity config.maxJoinVars [] 0 := ⟨trivial, rfl⟩
    rw [foldlM_flatMap,
      ← foldlM_congr_mem fun bodyLen _ search => enumerateBodies_eq start search]

-- What is kept

def SearchEvent.kept? : SearchEvent → Option (List BodyAtomPattern)
  | .visit => none
  | .keep body => some body

/-- The bodies kept among some events. -/
def kept (events : List SearchEvent) : List (List BodyAtomPattern) :=
  events.filterMap SearchEvent.kept?

@[simp] theorem kept_nil : kept [] = [] := rfl

@[simp] theorem kept_visit {events : List SearchEvent} : kept (.visit :: events) = kept events :=
  rfl

@[simp] theorem kept_keep {body : List BodyAtomPattern} {events : List SearchEvent}
    : kept (.keep body :: events) = body :: kept events :=
  rfl

theorem kept_flatMap {α : Type} {items : List α} {inner : α → List SearchEvent}
    : kept (items.flatMap inner) = items.flatMap fun item => kept (inner item) :=
  List.filterMap_flatMap

theorem kept_bindingEvents {slot joinsUsed left : Nat} {body : List BodyAtomPattern}
    {next : List BodyAtomPattern → Nat → List SearchEvent} {bindings : List PatternVar}
    : kept (bindingEvents headArity config slot next body joinsUsed left bindings)
      = (growBindings headArity config.maxJoinVars left (raiseAll joinsUsed bindings)).flatMap
          fun more => kept (next (body ++ [⟨slot, bindings ++ more⟩])
            (raiseAll joinsUsed (bindings ++ more))) := by
  induction left generalizing bindings with
  | zero => simp [bindingEvents, growBindings]
  | succ left ih =>
      have first : kept (bindingEvents headArity config slot next body joinsUsed (left + 1)
            bindings)
          = kept ((choices headArity config.maxJoinVars (raiseAll joinsUsed bindings)).flatMap
              fun binding => bindingEvents headArity config slot next body joinsUsed left
                (bindings ++ [binding])) := rfl
      have raised : ∀ binding, raiseAll joinsUsed (bindings ++ [binding])
          = binding.raise (raiseAll joinsUsed bindings) := by
        intro binding
        exact List.foldl_append
      rw [first, kept_flatMap, growBindings, List.flatMap_assoc]
      refine List.flatMap_congr fun binding _ => ?_
      rw [ih, raised, List.flatMap_map]
      simp only [List.append_assoc, List.singleton_append]

theorem kept_bodyEvents {left joinsUsed : Nat} {body : List BodyAtomPattern}
    : kept (bodyEvents headArity candidateArities config left body joinsUsed)
      = ((growBodies headArity config.maxJoinVars candidateArities
          (candidateArities.length % 4294967296) left joinsUsed).map (body ++ ·)).filter
            (rangeRestricted headArity) := by
  induction left generalizing body joinsUsed with
  | zero =>
      rw [bodyEvents, growBodies]
      cases restricted : rangeRestricted headArity body <;>
        simp [restricted]
  | succ left ih =>
      have first : kept (bodyEvents headArity candidateArities config (left + 1) body joinsUsed)
          = kept ((List.range (candidateArities.length % 4294967296)).flatMap fun slot =>
              (candidateArities[slot]?.toList).flatMap fun arity =>
                bindingEvents headArity config slot
                  (bodyEvents headArity candidateArities config left) body joinsUsed arity
                  []) := rfl
      rw [first, kept_flatMap, growBodies, List.map_flatMap, List.filter_flatMap]
      refine List.flatMap_congr fun slot _ => ?_
      rw [kept_flatMap, List.map_flatMap, List.filter_flatMap]
      refine List.flatMap_congr fun arity _ => ?_
      rw [kept_bindingEvents, List.map_flatMap, List.filter_flatMap]
      refine List.flatMap_congr fun bindings _ => ?_
      rw [ih, List.map_map, List.nil_append]
      refine congrArg (List.filter _) (List.map_congr_left fun rest _ => ?_)
      simp

variable (headArity candidateArities config) in
/-- The patterns over the candidates that are counted, in order. -/
def countedSpace : List NaryRulePattern :=
  (List.range' 1 config.maxBodyAtoms).flatMap fun bodyLen =>
    ((growBodies headArity config.maxJoinVars candidateArities
      (candidateArities.length % 4294967296) bodyLen 0).filter
        (rangeRestricted headArity)).map (NaryRulePattern.mk headArity)

theorem kept_searchEvents
    : (kept (searchEvents headArity candidateArities config)).map (NaryRulePattern.mk headArity)
      = countedSpace headArity candidateArities config := by
  rw [searchEvents, countedSpace]
  split
  · next empty =>
      have none_kept : ∀ bodyLen ∈ List.range' 1 config.maxBodyAtoms,
          ((growBodies headArity config.maxJoinVars candidateArities
            (candidateArities.length % 4294967296) bodyLen 0).filter
              (rangeRestricted headArity)).map (NaryRulePattern.mk headArity) = [] := by
        intro bodyLen member
        obtain ⟨bodyLen, rfl⟩ := Nat.exists_eq_succ_of_ne_zero
          (Nat.ne_of_gt (List.mem_range'_1.mp member).1)
        simp [growBodies, empty]
      rw [List.flatMap_eq_nil_iff.mpr none_kept]
      rfl
  · rw [kept_flatMap, List.map_flatMap]
    refine List.flatMap_congr fun bodyLen _ => ?_
    rw [kept_bodyEvents]
    simp

theorem mem_countedSpace (head_ne : headArity ≠ 0) {pattern : NaryRulePattern}
    : pattern ∈ countedSpace headArity candidateArities config
      ↔ pattern.headArity = headArity ∧ pattern.Canonical candidateArities config
        ∧ ∀ atom ∈ pattern.body, atom.candidateSlot < candidateArities.length % 4294967296 := by
  simp only [countedSpace, List.mem_flatMap, List.mem_map, List.mem_filter, mem_growBodies,
    rangeRestricted_iff, List.mem_range'_1]
  constructor
  · rintro ⟨bodyLen, ⟨long, short⟩, body, ⟨⟨length, atoms, grows⟩, restricted⟩, rfl⟩
    refine ⟨rfl, ⟨head_ne, ?_, ?_, fun atom member => (atoms atom member).2, grows, restricted⟩,
      fun atom member => (atoms atom member).1⟩
    · exact List.ne_nil_of_length_pos (length ▸ long)
    · exact Nat.le_trans (Nat.le_of_eq length) (by omega)
  · rintro ⟨rfl, canonical, counted⟩
    have positive := List.length_pos_iff.mpr canonical.body_ne
    have body_le := canonical.body_le
    refine ⟨pattern.body.length, ⟨positive, by omega⟩, pattern.body,
      ⟨⟨rfl, fun atom member => ?_, canonical.grows⟩, canonical.restricted⟩, rfl⟩
    exact ⟨counted atom member, canonical.declared atom member⟩

theorem pairwise_countedSpace
    : (countedSpace headArity candidateArities config).Pairwise NaryRulePattern.Before := by
  rw [countedSpace, List.pairwise_flatMap]
  constructor
  · intro bodyLen _
    rw [List.pairwise_map]
    refine (pairwise_growBodies.filter _).imp_of_mem fun {first second} one two lex => ?_
    have length := (mem_growBodies.mp (List.mem_filter.mp one).1).1
    have length' := (mem_growBodies.mp (List.mem_filter.mp two).1).1
    exact .inr ⟨length.trans length'.symm, lex⟩
  · refine (List.pairwise_lt_range' 1).imp fun {first second} less xs xs_mem ys ys_mem => ?_
    obtain ⟨_, one, rfl⟩ := List.mem_map.mp xs_mem
    obtain ⟨_, two, rfl⟩ := List.mem_map.mp ys_mem
    have length := (mem_growBodies.mp (List.mem_filter.mp one).1).1
    have length' := (mem_growBodies.mp (List.mem_filter.mp two).1).1
    refine .inl ?_
    rw [length, length']
    exact less

theorem nodup_countedSpace : (countedSpace headArity candidateArities config).Nodup := by
  refine List.Pairwise.imp ?_ pairwise_countedSpace
  rintro first second before rfl
  exact not_before_self first before

-- Bounds

variable (config) in
/-- The bounds leave room for some more events. -/
def Affords (search : Search) (events : List SearchEvent) : Prop :=
  search.out.length + (kept events).length ≤ config.maxPatterns
  ∧ (search.nodes + events.count .visit ≤ config.maxTraversalNodes
    ∨ config.maxTraversalNodes + 1 = 18446744073709551616)

/-- Events run to their end when the bounds afford them and end in a refusal otherwise, by induction on
the events.
-/
theorem play_foldlM {events : List SearchEvent} {search : Search}
    (out_le : search.out.length ≤ config.maxPatterns)
    (nodes_le : search.nodes ≤ config.maxTraversalNodes)
    : (Affords config search events ∧ ∃ nodes,
        events.foldlM (play headArity candidateArities config) search
          = .ok ⟨search.out ++ (kept events).map (NaryRulePattern.mk headArity), nodes⟩)
      ∨ (¬ Affords config search events ∧ ∃ message,
        events.foldlM (play headArity candidateArities config) search
          = .error (.execution message)) := by
  have patterns_lt := config.maxPatterns_lt
  have nodes_lt := config.maxTraversalNodes_lt
  induction events generalizing search with
  | nil =>
      refine .inl ⟨⟨by simpa using out_le, .inl (by simpa using nodes_le)⟩, search.nodes, ?_⟩
      simp
  | cons event events ih =>
      rw [List.foldlM_cons]
      cases event with
      | visit =>
          rw [play, chargeNode]
          by_cases exceeds : config.maxTraversalNodes
              < (search.nodes + 1) % 18446744073709551616
          · rw [if_pos exceeds]
            refine .inr ⟨fun affords => ?_, _, rfl⟩
            have room := affords.2
            rw [List.count_cons_self] at room
            omega
          · rw [if_neg exceeds, ok_bind]
            have affords_iff : Affords config search (.visit :: events)
                ↔ Affords config { search with
                    nodes := (search.nodes + 1) % 18446744073709551616 } events := by
              simp only [Affords, kept_visit, List.count_cons_self]
              omega
            rw [affords_iff]
            exact @ih { search with nodes := (search.nodes + 1) % 18446744073709551616 } out_le
              (Nat.le_of_not_lt exceeds)
      | keep body =>
          have same : search.out.length % 4294967296 = search.out.length :=
            Nat.mod_eq_of_lt (Nat.lt_of_le_of_lt out_le patterns_lt)
          rw [play, keepPattern, same]
          by_cases exceeds : config.maxPatterns ≤ search.out.length
          · rw [if_pos exceeds]
            refine .inr ⟨fun affords => ?_, _, rfl⟩
            have room := affords.1
            rw [kept_keep, List.length_cons] at room
            omega
          · rw [if_neg exceeds, ok_bind]
            have affords_iff : Affords config search (.keep body :: events)
                ↔ Affords config { search with out := search.out ++ [⟨headArity, body⟩] }
                    events := by
              simp only [Affords, kept_keep, List.length_cons, List.length_append,
                List.length_nil, List.count_cons, reduceCtorEq, beq_iff_eq, if_false]
              omega
            rw [affords_iff, kept_keep, List.map_cons]
            have later := @ih { search with out := search.out ++ [⟨headArity, body⟩] }
              (by simp; omega) nodes_le
            simpa using later

variable (headArity candidateArities config) in
/-- The nodes that the search visits when nothing bounds it. -/
def searchNodes : Nat :=
  (searchEvents headArity candidateArities config).count .visit

variable (headArity candidateArities config) in
/-- A bound is exceeded: there are more patterns to keep, or more nodes to visit. The largest node budget
is none, since the counter wraps.
-/
def ExceedsBounds : Prop :=
  config.maxPatterns < (countedSpace headArity candidateArities config).length
  ∨ config.maxTraversalNodes < searchNodes headArity candidateArities config
    ∧ config.maxTraversalNodes + 1 ≠ 18446744073709551616

/-- The enumeration gives the counted space or refuses at a bound. -/
theorem enumeratePatterns_cases (head_ne : headArity ≠ 0)
    : (¬ ExceedsBounds headArity candidateArities config
        ∧ enumeratePatterns headArity candidateArities config
          = .ok (countedSpace headArity candidateArities config))
      ∨ (ExceedsBounds headArity candidateArities config
        ∧ ∃ message, enumeratePatterns headArity candidateArities config
          = .error (.execution message)) := by
  have exceeds_iff : ExceedsBounds headArity candidateArities config
      ↔ ¬ Affords config ⟨[], 0⟩ (searchEvents headArity candidateArities config) := by
    rw [ExceedsBounds, Affords, ← kept_searchEvents, List.length_map, searchNodes]
    simp only [List.length_nil]
    omega
  rw [exceeds_iff, not_not, enumeratePatterns_eq head_ne]
  rcases @play_foldlM headArity candidateArities config
    (searchEvents headArity candidateArities config) ⟨[], 0⟩ (Nat.zero_le _) (Nat.zero_le _)
    with ⟨affords, nodes, run⟩ | ⟨refused, message, run⟩
  · refine .inl ⟨affords, ?_⟩
    rw [run, ← kept_searchEvents]
    rfl
  · refine .inr ⟨refused, message, ?_⟩
    rw [run]
    rfl

end

-- Exactness

/-- Slots are 32-bit words. -/
def NaryRulePattern.Representable (pattern : NaryRulePattern) : Prop :=
  ∀ atom ∈ pattern.body, atom.candidateSlot < 4294967296

/-- A pattern of some head arity that validation accepts. -/
structure NaryRulePattern.Accepted (pattern : NaryRulePattern) (headArity : Nat)
    (candidateArities : List Nat) (config : NaryEnumerationConfig) : Prop where
  representable : pattern.Representable
  headArity_eq : pattern.headArity = headArity
  valid : pattern.validate candidateArities config = .ok ()

/-- The enumeration gives exactly the accepted patterns, each once and in order, which rename every pattern
within the bounds in one way, and it refuses at a bound only.
-/
structure EnumerationExact (headArity : Nat) (candidateArities : List Nat)
    (config : NaryEnumerationConfig) : Prop where
  members : ∀ patterns, enumeratePatterns headArity candidateArities config = .ok patterns →
    ∀ pattern : NaryRulePattern,
      pattern ∈ patterns ↔ pattern.Accepted headArity candidateArities config
  nodup : ∀ patterns, enumeratePatterns headArity candidateArities config = .ok patterns →
    patterns.Nodup
  ordered : ∀ patterns, enumeratePatterns headArity candidateArities config = .ok patterns →
    patterns.Pairwise NaryRulePattern.Before
  renamed : ∀ patterns, enumeratePatterns headArity candidateArities config = .ok patterns →
    ∀ pattern : NaryRulePattern, pattern.Representable → pattern.headArity = headArity →
      pattern.WithinBounds candidateArities config →
      ∃! canonical : NaryRulePattern,
        canonical ∈ patterns ∧ canonical.RenamingOf pattern
  refuses : ∀ error, enumeratePatterns headArity candidateArities config = .error error →
    (∃ message, error = .execution message)
    ∧ ((∃ members : List NaryRulePattern, members.Nodup
        ∧ (∀ pattern ∈ members, pattern.Accepted headArity candidateArities config)
        ∧ config.maxPatterns < members.length)
      ∨ config.maxTraversalNodes < searchNodes headArity candidateArities config)

/-- The enumeration is exact when a bound is exceeded or no accepted pattern names a slot past the 32-bit
count of the candidates, and only then.
-/
theorem enumeratePatterns_exact_iff {headArity : Nat} {candidateArities : List Nat}
    {config : NaryEnumerationConfig} (head_ne : headArity ≠ 0)
    : EnumerationExact headArity candidateArities config
      ↔ ExceedsBounds headArity candidateArities config
        ∨ ∀ pattern : NaryRulePattern, pattern.Accepted headArity candidateArities config →
          ∀ atom ∈ pattern.body,
            atom.candidateSlot < candidateArities.length % 4294967296 := by
  have counted_accepted : ∀ pattern ∈ countedSpace headArity candidateArities config,
      pattern.Accepted headArity candidateArities config := by
    intro pattern member
    obtain ⟨head_eq, canonical, counted⟩ := (mem_countedSpace head_ne).mp member
    refine ⟨fun atom atom_mem => ?_, head_eq, validate_ok_iff.mpr canonical⟩
    exact Nat.lt_trans (counted atom atom_mem) (Nat.mod_lt _ (by decide))
  constructor
  · intro exactness
    rcases @enumeratePatterns_cases headArity candidateArities config head_ne
      with ⟨_, run⟩ | ⟨exceeds, _⟩
    · refine .inr fun pattern accepted => ?_
      have member := (exactness.members _ run pattern).mpr accepted
      exact ((mem_countedSpace head_ne).mp member).2.2
    · exact .inl exceeds
  · intro condition
    -- Of the condition only the part about slots matters where there is a result.
    have result : ∀ patterns,
        enumeratePatterns headArity candidateArities config = .ok patterns →
        patterns = countedSpace headArity candidateArities config
        ∧ ∀ pattern : NaryRulePattern,
          pattern ∈ patterns ↔ pattern.Accepted headArity candidateArities config := by
      intro patterns run
      rcases @enumeratePatterns_cases headArity candidateArities config head_ne
        with ⟨within, run'⟩ | ⟨_, message, run'⟩
      · have same : patterns = countedSpace headArity candidateArities config :=
          Except.ok.inj (run.symm.trans run')
        refine ⟨same, fun pattern => same ▸ ⟨counted_accepted pattern, fun accepted => ?_⟩⟩
        exact (mem_countedSpace head_ne).mpr ⟨accepted.headArity_eq,
          validate_ok_iff.mp accepted.valid, condition.resolve_left within pattern accepted⟩
      · cases run.symm.trans run'
    refine ⟨fun patterns run => (result patterns run).2, fun patterns run => ?_,
      fun patterns run => ?_, fun patterns run pattern representable head_eq within => ?_,
      fun error run => ?_⟩
    · exact (result patterns run).1 ▸ nodup_countedSpace
    · exact (result patterns run).1 ▸ pairwise_countedSpace
    · obtain ⟨canonical, ⟨is_canonical, names⟩, unique⟩ := existsUnique_canonical within
      have members := (result patterns run).2
      refine ⟨canonical, ⟨(members canonical).mpr ⟨?_, ?_, validate_ok_iff.mpr is_canonical⟩,
        names⟩, fun other ⟨member, names'⟩ => ?_⟩
      · obtain ⟨_, _, rfl⟩ := names
        intro atom member
        obtain ⟨original, original_mem, rfl⟩ := List.mem_map.mp member
        exact representable original original_mem
      · obtain ⟨_, _, rfl⟩ := names
        exact head_eq
      · exact unique other ⟨validate_ok_iff.mp ((members other).mp member).valid, names'⟩
    · rcases @enumeratePatterns_cases headArity candidateArities config head_ne
        with ⟨_, run'⟩ | ⟨exceeds, message, run'⟩
      · cases run.symm.trans run'
      · refine ⟨⟨message, Except.error.inj (run.symm.trans run')⟩, ?_⟩
        rcases exceeds with many | ⟨visits, _⟩
        · exact .inl ⟨_, nodup_countedSpace, counted_accepted, many⟩
        · exact .inr visits

/-- Bounds for one-atom bodies without joins. -/
def oneAtomConfig : NaryEnumerationConfig where
  maxBodyAtoms := 1
  maxJoinVars := 0
  maxPatterns := 10
  maxTraversalNodes := 100
  maxBodyAtoms_lt := by decide
  maxJoinVars_lt := by decide
  maxPatterns_lt := by decide
  maxTraversalNodes_lt := by decide

theorem enumeratePatterns_exact_one
    : EnumerationExact 1 [1] oneAtomConfig
      ↔ ExceedsBounds 1 [1] oneAtomConfig
        ∨ ∀ pattern : NaryRulePattern, pattern.Accepted 1 [1] oneAtomConfig →
          ∀ atom ∈ pattern.body, atom.candidateSlot < [1].length % 4294967296 :=
  enumeratePatterns_exact_iff Nat.one_ne_zero

/-- A count of candidates that is zero in 32 bits leaves nothing to enumerate. -/
theorem enumeratePatterns_wrapped {candidateArities : List Nat} (nonempty : candidateArities ≠ [])
    (wrapped : candidateArities.length % 4294967296 = 0)
    : enumeratePatterns 1 candidateArities oneAtomConfig = .ok [] := by
  have bodies : ∀ search : Search,
      enumerateBodies 1 candidateArities oneAtomConfig 1 [] 0 search
        = chargeNode oneAtomConfig search := by
    intro search
    rw [enumerateBodies, wrapped]
    exact bind_pure _
  have lengths : List.range' 1 oneAtomConfig.maxBodyAtoms = [1] := rfl
  rw [enumeratePatterns, if_neg Nat.one_ne_zero, if_neg nonempty, lengths, List.foldlM_cons, bodies]
  rfl

/-- With `2^32` unary candidates the enumeration gives no pattern, and `h(X) :- r0(X)` is one. -/
theorem not_enumerationExact_wrapped
    : ¬ EnumerationExact 1 (List.replicate 4294967296 1) oneAtomConfig := by
  intro exactness
  have counted : (List.replicate 4294967296 1).length % 4294967296 = 0 := by
    rw [List.length_replicate]
  have nonempty : List.replicate 4294967296 1 ≠ [] := by
    rw [Ne, List.replicate_eq_nil_iff]
    decide
  have declared : (List.replicate 4294967296 1)[0]? = some 1 := by
    rw [List.getElem?_replicate, if_pos (by decide)]
  have empty := enumeratePatterns_wrapped nonempty counted
  refine List.not_mem_nil ((exactness.members [] empty ⟨1, [⟨0, [.head 0]⟩]⟩).mpr ⟨?_, rfl, ?_⟩)
  · simp [NaryRulePattern.Representable]
  · refine validate_ok_iff.mpr ⟨Nat.one_ne_zero, by simp, Nat.le_refl 1, ?_, ?_, ?_⟩
    · rw [List.forall_mem_singleton]
      exact declared
    · exact ⟨Nat.one_pos, trivial⟩
    · intro i lt
      rw [Nat.lt_one_iff.mp lt]
      exact List.mem_cons_self

end Xlog.Induce
