import Xlog.Core.Error
import Xlog.Foundation.Modality
import Xlog.Logic.Ast

/-! Nested modal chains: the parser folds a chain of epistemic operators over one atom into a single
epistemic literal, from the operator next to the atom and the parity of the negations.
-/

namespace Xlog.Logic

open Xlog.Core
open Xlog.Foundation

-- Building the literal

/-- A token of a chain by the grammar rule it matched; for the atom, what `buildAtom` makes of it. -/
inductive ChainToken where
  | notKw
  | epistemicOp (text : String)
  | atom (built : Result Atom)
  | other (rule : String)

/-- The state of the walk along a chain. -/
structure ChainWalk where
  ops : List EpistemicOp
  negBeforeOp : List Bool
  atomPair : Option (Result Atom)
  pendingNot : Bool
  negBeforeAtom : Bool

def ChainWalk.start : ChainWalk := ⟨[], [], none, false, false⟩

def EpistemicOp.parse (text : String) : Result EpistemicOp :=
  if text = "know" then .ok .know
  else if text = "possible" then .ok .possible
  else .error (.parse s!"Unknown epistemic operator: {text}")

/-- A `not` negates the operator or the atom that follows it. -/
def ChainWalk.read (walk : ChainWalk) : ChainToken → Result ChainWalk
  | .notKw => .ok { walk with pendingNot := true }
  | .epistemicOp text => do
      let op ← EpistemicOp.parse text
      .ok { walk with
        ops := walk.ops ++ [op]
        negBeforeOp := walk.negBeforeOp ++ [walk.pendingNot]
        pendingNot := false }
  | .atom built => .ok { walk with
      negBeforeAtom := walk.pendingNot
      pendingNot := false
      atomPair := some built }
  | .other rule => .error (.parse s!"Unexpected token in nested modal chain: {rule}")

def EpistemicOp.dualize : EpistemicOp → EpistemicOp
  | .know => .possible
  | .possible => .know

def buildNestedModalChain (tokens : List ChainToken) : Result EpistemicLiteral := do
  let walk ← tokens.foldlM ChainWalk.read .start
  match walk.atomPair with
  | none => .error (.parse "Missing atom in nested modal chain")
  | some built =>
      if walk.ops.length < 2 then
        .error (.parse "Nested modal chain must contain at least two epistemic operators")
      else
        match walk.ops.getLast? with
        | none => .error (.parse "Empty modal chain")
        | some innermost => do
            let op := if walk.negBeforeAtom then innermost.dualize else innermost
            let negated := walk.negBeforeOp.foldl (· ^^ ·) walk.negBeforeAtom
            .ok ⟨op, negated, ← built⟩

-- Chains

/-- An operator of a chain with the negation before it. -/
structure ChainLink where
  negated : Bool
  op : EpistemicOp
  deriving DecidableEq, Repr

/-- A chain that the grammar accepts: two or more operators over an atom, each part with or without a
negation before it.
-/
structure NestedModalChain where
  links : List ChainLink
  nested : 2 ≤ links.length
  negatedAtom : Bool
  atom : Atom

def EpistemicOp.keyword : EpistemicOp → String
  | .know => "know"
  | .possible => "possible"

def notTokens (negated : Bool) : List ChainToken :=
  if negated then [.notKw] else []

def ChainLink.tokens (link : ChainLink) : List ChainToken :=
  notTokens link.negated ++ [.epistemicOp link.op.keyword]

def NestedModalChain.tokens (chain : NestedModalChain) : List ChainToken :=
  chain.links.flatMap ChainLink.tokens ++ notTokens chain.negatedAtom ++ [.atom (.ok chain.atom)]

theorem EpistemicOp.parse_keyword (op : EpistemicOp)
    : EpistemicOp.parse op.keyword = .ok op := by
  cases op <;> decide

/-- Reading an optional `not` leaves it pending. -/
theorem read_notTokens {walk : ChainWalk} (negated : Bool) (settled : walk.pendingNot = false)
    : (notTokens negated).foldlM ChainWalk.read walk
      = .ok { walk with pendingNot := negated } := by
  cases negated with
  | false =>
      obtain ⟨ops, negBeforeOp, atomPair, pendingNot, negBeforeAtom⟩ := walk
      subst settled
      rfl
  | true => rfl

/-- One link adds its operator and its sign. -/
theorem read_link {walk : ChainWalk} (link : ChainLink) (settled : walk.pendingNot = false)
    : link.tokens.foldlM ChainWalk.read walk
      = .ok { walk with
          ops := walk.ops ++ [link.op]
          negBeforeOp := walk.negBeforeOp ++ [link.negated]
          pendingNot := false } := by
  rw [ChainLink.tokens, List.foldlM_append, read_notTokens link.negated settled]
  change (ChainWalk.read _ _ >>= fun walk => pure walk) = _
  rw [ChainWalk.read, EpistemicOp.parse_keyword]
  rfl

/-- The links add all operators and signs in order, by induction on the links. -/
theorem read_links {walk : ChainWalk} (links : List ChainLink)
    (settled : walk.pendingNot = false)
    : (links.flatMap ChainLink.tokens).foldlM ChainWalk.read walk
      = .ok { walk with
          ops := walk.ops ++ links.map ChainLink.op
          negBeforeOp := walk.negBeforeOp ++ links.map ChainLink.negated
          pendingNot := false } := by
  induction links generalizing walk with
  | nil =>
      obtain ⟨ops, negBeforeOp, atomPair, pendingNot, negBeforeAtom⟩ := walk
      subst settled
      simp only [List.flatMap_nil, List.foldlM_nil, List.map_nil, List.append_nil]
      rfl
  | cons link links ih =>
      rw [List.flatMap_cons, List.foldlM_append, read_link link settled]
      refine (ih rfl).trans ?_
      simp only [List.map_cons, List.append_assoc, List.singleton_append]

/-- What the parser makes of a chain: the operator next to the atom, turned into its dual by a
negation of the atom, and the parity of all negations.
-/
theorem buildNestedModalChain_tokens (chain : NestedModalChain) {innermost : EpistemicOp}
    (last : (chain.links.map ChainLink.op).getLast? = some innermost)
    : buildNestedModalChain chain.tokens = .ok {
        op := if chain.negatedAtom then innermost.dualize else innermost
        negated := (chain.links.map ChainLink.negated).foldl (· ^^ ·) chain.negatedAtom
        atom := chain.atom } := by
  have walked : chain.tokens.foldlM ChainWalk.read .start
      = .ok ⟨chain.links.map ChainLink.op, chain.links.map ChainLink.negated,
          some (.ok chain.atom), false, chain.negatedAtom⟩ := by
    rw [NestedModalChain.tokens, List.foldlM_append, List.foldlM_append, read_links _ rfl]
    change ((notTokens chain.negatedAtom).foldlM ChainWalk.read _ >>= _) = _
    rw [read_notTokens _ rfl]
    simp [ChainWalk.start, ChainWalk.read, bind, Except.bind, pure, Except.pure]
  have enough : ¬ (chain.links.map ChainLink.op).length < 2 := by
    rw [List.length_map]
    exact Nat.not_lt.mpr chain.nested
  simp only [buildNestedModalChain, walked, bind, Except.bind, if_neg enough, last]

-- Truth

/-- A world decides every atom. -/
abbrev World := Atom → Prop

/-- What knowing and holding possible ask of the worlds. -/
def EpistemicOp.modality : EpistemicOp → Modality
  | .know => .box
  | .possible => .diamond

@[simp] theorem EpistemicOp.modality_dualize (op : EpistemicOp)
    : op.dualize.modality = op.modality.dual := by
  cases op <;> rfl

/-- The truth of the operators from one on, over a formula, at a world. -/
def linksTruth (frame : Frame World) (formula : World → Prop) : List ChainLink → World → Prop
  | [] => formula
  | link :: links => fun _ =>
      Modality.Signed link.negated
        (link.op.modality.Holds frame (linksTruth frame formula links))

def NestedModalChain.Truth (chain : NestedModalChain) (frame : Frame World) : World → Prop :=
  linksTruth frame (fun world => Modality.Signed chain.negatedAtom (world chain.atom)) chain.links

def EpistemicLiteral.Truth (literal : EpistemicLiteral) (frame : Frame World) : Prop :=
  Modality.Signed literal.negated
    (literal.op.modality.Holds frame fun world => world literal.atom)

/-- All operators but the last only pass on its value and their signs, by induction on the links. -/
theorem linksTruth_iff (frame : Frame World) (formula : World → Prop) {links : List ChainLink}
    {innermost : EpistemicOp} (last : (links.map ChainLink.op).getLast? = some innermost)
    (world : World)
    : linksTruth frame formula links world
      ↔ Modality.Signed ((links.map ChainLink.negated).foldr (· ^^ ·) false)
          (innermost.modality.Holds frame formula) := by
  induction links generalizing world with
  | nil => simp at last
  | cons link links ih =>
      rw [linksTruth, List.map_cons, List.foldr_cons]
      cases links with
      | nil =>
          obtain rfl : link.op = innermost := by simpa using last
          rw [List.map_nil, List.foldr_nil, Bool.xor_false]
          exact Iff.rfl
      | cons next rest =>
          have passed := ih (by simpa using last)
          rw [← Modality.signed_signed]
          refine Modality.signed_congr _ ?_
          exact (Modality.holds_congr frame _ passed).trans (Modality.holds_const frame _ _)

theorem foldl_xor (signs : List Bool) (start : Bool)
    : signs.foldl (· ^^ ·) start = (signs.foldr (· ^^ ·) false ^^ start) := by
  induction signs generalizing start with
  | nil => simp
  | cons sign signs ih =>
      rw [List.foldl_cons, List.foldr_cons, ih]
      cases sign <;> cases start <;> cases signs.foldr (· ^^ ·) false <;> rfl

/-- Collapsing a chain keeps its truth value in every non-empty set of worlds, read at any world. -/
theorem buildNestedModalChain_sound (chain : NestedModalChain)
    : ∃ literal, buildNestedModalChain chain.tokens = .ok literal
        ∧ literal.atom = chain.atom
        ∧ ∀ (frame : Frame World) (world : World),
            chain.Truth frame world ↔ literal.Truth frame := by
  have some_op : chain.links.map ChainLink.op ≠ [] := by
    have nested := chain.nested
    intro empty
    rw [List.map_eq_nil_iff.mp empty] at nested
    simp at nested
  have last := List.getLast?_eq_some_getLast some_op
  refine ⟨_, buildNestedModalChain_tokens chain last, rfl, fun frame world => ?_⟩
  rw [NestedModalChain.Truth, linksTruth_iff frame _ last]
  refine (Modality.signed_congr _ (Modality.holds_signed frame _ chain.negatedAtom _)).trans ?_
  rw [Modality.signed_signed, EpistemicLiteral.Truth, foldl_xor]
  cases chain.negatedAtom with
  | false => exact Iff.rfl
  | true => simp

end Xlog.Logic
