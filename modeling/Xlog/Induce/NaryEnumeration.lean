import Xlog.Core.Error
import Xlog.Induce.NaryReference

/-! Validation and enumeration of n-ary rule patterns. The enumeration is two mutual searches, over the
atoms of a body and over the bindings of an atom; the second takes the rest of the first as its last step.
-/

namespace Xlog.Induce

open Xlog.Core

-- Bounds

/-- The bounds of one request, within their machine words. -/
structure NaryEnumerationConfig where
  maxBodyAtoms : Nat
  maxJoinVars : Nat
  maxPatterns : Nat
  maxTraversalNodes : Nat
  maxBodyAtoms_lt : maxBodyAtoms < 256
  maxJoinVars_lt : maxJoinVars < 256
  maxPatterns_lt : maxPatterns < 4294967296
  maxTraversalNodes_lt : maxTraversalNodes < 18446744073709551616

/-- `x + 1` on `u8`. -/
def incrU8 (x : Nat) : Result Nat :=
  if x + 1 < 256 then .ok (x + 1) else .error (.panic "attempt to add with overflow")

-- Validation

/-- One binding: the next join number and the head positions bound so far. -/
def validateBinding (headArity : Nat) (config : NaryEnumerationConfig)
    (state : Nat × List Bool)
    : PatternVar → Result (Nat × List Bool)
  | .head i =>
      if headArity ≤ i then
        .error (.type
          s!"nary pattern: head position {i} out of range for head arity {headArity}")
      else .ok (state.1, state.2.set i true)
  | .join j =>
      let nextJoin := state.1
      if nextJoin < j then
        let earlier := j - 1
        .error (.type
          s!"nary pattern: join variable z{j} appears before z{earlier} — join numbering must be dense in first-appearance order")
      else if j = nextJoin then
        if 256 ≤ nextJoin + 1 then
          .error (.type
            "nary pattern: join variable count exceeds                                      the representable range")
        else
          let count := nextJoin + 1
          let bound := config.maxJoinVars
          if bound < count then
            .error (.type
              s!"nary pattern: {count} join variables exceed max_join_vars {bound}")
          else .ok (count, state.2)
      else .ok state

def validateAtom (headArity : Nat) (candidateArities : List Nat)
    (config : NaryEnumerationConfig) (state : Nat × List Bool) (entry : BodyAtomPattern × Nat)
    : Result (Nat × List Bool) :=
  let (atom, atomIndex) := entry
  let slot := atom.candidateSlot
  let positions := atom.bindings.length
  match candidateArities[slot]? with
  | none =>
      let candidates := candidateArities.length
      .error (.type
        s!"nary pattern: body atom {atomIndex} names candidate slot {slot} but only {candidates} candidates exist")
  | some declared =>
      if positions ≠ declared then
        .error (.type
          s!"nary pattern: body atom {atomIndex} binds {positions} positions but candidate slot {slot} declares arity {declared}")
      else atom.bindings.foldlM (validateBinding headArity config) state

def NaryRulePattern.validate (pattern : NaryRulePattern) (candidateArities : List Nat)
    (config : NaryEnumerationConfig) : Result Unit :=
  let atoms := pattern.body.length
  let bound := config.maxBodyAtoms
  if pattern.headArity = 0 then
    .error (.type "nary pattern: head arity must be at least 1")
  else if pattern.body = [] then
    .error (.type "nary pattern: body must carry at least one atom")
  else if bound < atoms then
    .error (.type s!"nary pattern: body has {atoms} atoms but max_body_atoms is {bound}")
  else do
    let state ←
      pattern.body.zipIdx.foldlM (validateAtom pattern.headArity candidateArities config)
        (0, List.replicate pattern.headArity false)
    match state.2.findIdx? (! ·) with
    | some unbound => .error (.unsafeVariable s!"h{unbound}")
    | none => .ok ()

-- Enumeration

/-- The patterns kept so far and the search nodes visited. -/
structure Search where
  out : List NaryRulePattern
  nodes : Nat
  deriving DecidableEq, Repr

/-- The 64-bit counter wraps. -/
def chargeNode (config : NaryEnumerationConfig) (search : Search) : Result Search :=
  let nodes := (search.nodes + 1) % 18446744073709551616
  if config.maxTraversalNodes < nodes then
    let budget := config.maxTraversalNodes
    let atoms := config.maxBodyAtoms
    let joins := config.maxJoinVars
    .error (.execution
      s!"nary enumeration: search exceeded max_traversal_nodes {budget} (max_body_atoms {atoms}, max_join_vars {joins}); the pattern space is larger than the work budget — narrow the request or raise the bound explicitly, the engine never truncates silently")
  else .ok { search with nodes := nodes }

/-- A join raises the next free index past itself. -/
def raiseNext (next : Nat) : PatternVar → Result Nat
  | .head _ => .ok next
  | .join j => do
      let above ← incrU8 j
      return max next above

def nextJoinIndex (body : List BodyAtomPattern) : Result Nat :=
  body.foldlM (fun next atom => atom.bindings.foldlM raiseNext next) 0

def bindingsJoinWatermark (bindings : List PatternVar) (joinsUsed : Nat) : Result Nat :=
  bindings.foldlM raiseNext joinsUsed

def markHead (headBound : List Bool) : PatternVar → Result (List Bool)
  | .head i =>
      if i < headBound.length then .ok (headBound.set i true)
      else .error (.panic "index out of bounds")
  | .join _ => .ok headBound

def keepPattern (headArity : Nat) (candidateArities : List Nat) (config : NaryEnumerationConfig)
    (body : List BodyAtomPattern) (search : Search) : Result Search :=
  if config.maxPatterns ≤ search.out.length % 4294967296 then
    let patterns := config.maxPatterns
    let candidates := candidateArities.length
    let atoms := config.maxBodyAtoms
    let joins := config.maxJoinVars
    .error (.execution
      s!"nary enumeration: pattern space exceeds max_patterns {patterns} (head_arity {headArity}, {candidates} candidates, max_body_atoms {atoms}, max_join_vars {joins}); raise the bound explicitly or narrow the request — the engine never truncates silently")
  else .ok { search with out := search.out ++ [⟨headArity, body⟩] }

/-- A body of full length is kept when it is range restricted. -/
def keepBody (headArity : Nat) (candidateArities : List Nat) (config : NaryEnumerationConfig)
    (body : List BodyAtomPattern) (search : Search) : Result Search := do
  let headBound ←
    body.foldlM (fun headBound atom => atom.bindings.foldlM markHead headBound)
      (List.replicate headArity false)
  if headBound.all id then keepPattern headArity candidateArities config body search
  else .ok search

/-- The bindings of one atom, by the positions left; `next` searches on from the atom. -/
def enumerateBindings (headArity : Nat) (config : NaryEnumerationConfig) (slot : Nat)
    (next : List BodyAtomPattern → Nat → Search → Result Search) (body : List BodyAtomPattern)
    (joinsUsed : Nat)
    : Nat → List PatternVar → Search → Result Search
  | 0, bindings, search => do
      let search ← chargeNode config search
      let body := body ++ [⟨slot, bindings⟩]
      let introduced ← nextJoinIndex body
      next body (max joinsUsed introduced) search
  | left + 1, bindings, search => do
      let search ← chargeNode config search
      let search ←
        (List.range headArity).foldlM
          (fun search head =>
            enumerateBindings headArity config slot next body joinsUsed left
              (bindings ++ [.head head]) search) search
      let watermark ← bindingsJoinWatermark bindings joinsUsed
      let introducedSoFar := max joinsUsed watermark
      let reachable := min (min (introducedSoFar + 1) 255) config.maxJoinVars
      (List.range reachable).foldlM
        (fun search join =>
          enumerateBindings headArity config slot next body joinsUsed left
            (bindings ++ [.join join]) search) search

/-- The bodies of one length, by the atoms left. The candidates are counted in 32 bits. -/
def enumerateBodies (headArity : Nat) (candidateArities : List Nat)
    (config : NaryEnumerationConfig)
    : Nat → List BodyAtomPattern → Nat → Search → Result Search
  | 0, body, _, search => do
      let search ← chargeNode config search
      keepBody headArity candidateArities config body search
  | left + 1, body, joinsUsed, search => do
      let search ← chargeNode config search
      (List.range (candidateArities.length % 4294967296)).foldlM
        (fun search slot =>
          match candidateArities[slot]? with
          | none => .error (.panic "index out of bounds")
          | some arity =>
              enumerateBindings headArity config slot
                (enumerateBodies headArity candidateArities config left) body joinsUsed arity []
                search) search

def enumeratePatterns (headArity : Nat) (candidateArities : List Nat)
    (config : NaryEnumerationConfig) : Result (List NaryRulePattern) :=
  if headArity = 0 then
    .error (.type "nary enumeration: head arity must be at least 1")
  else if candidateArities = [] then .ok []
  else do
    let search ←
      (List.range' 1 config.maxBodyAtoms).foldlM
        (fun search bodyLen =>
          enumerateBodies headArity candidateArities config bodyLen [] 0 search) ⟨[], 0⟩
    return search.out

end Xlog.Induce
