import Mathlib.Data.Set.Basic

/-! Global modalities: truth in every world and truth in some world of a non-empty set. Their values do
not depend on the world they are read at, so a modality over a modality says nothing new, and a
negation passes through a modality by turning it into the other one.
-/

namespace Xlog.Foundation

/-- A non-empty set of worlds. -/
structure Frame (ω : Type*) where
  worlds : Set ω
  inhabited : worlds.Nonempty

inductive Modality where
  | box | diamond
  deriving DecidableEq, Repr

namespace Modality

variable {ω : Type*}

/-- The modality that a negation turns this one into. -/
def dual : Modality → Modality
  | .box => .diamond
  | .diamond => .box

/-- The truth of a modal formula, the same at every world. -/
def Holds (frame : Frame ω) (modality : Modality) (formula : ω → Prop) : Prop :=
  match modality with
  | .box => ∀ world ∈ frame.worlds, formula world
  | .diamond => ∃ world ∈ frame.worlds, formula world

/-- A proposition behind an optional negation. -/
def Signed (negated : Bool) (p : Prop) : Prop :=
  if negated then ¬ p else p

@[simp] theorem signed_false (p : Prop) : Signed false p = p := rfl

@[simp] theorem signed_true (p : Prop) : Signed true p = ¬ p := rfl

/-- Two signs are one, by parity. -/
theorem signed_signed (outer inner : Bool) (p : Prop)
    : Signed outer (Signed inner p) ↔ Signed (outer ^^ inner) p := by
  cases outer <;> cases inner <;> simp

theorem signed_congr (negated : Bool) {p q : Prop} (same : p ↔ q)
    : Signed negated p ↔ Signed negated q := by
  rw [propext same]

theorem holds_congr (frame : Frame ω) (modality : Modality) {formula formula' : ω → Prop}
    (same : ∀ world, formula world ↔ formula' world)
    : modality.Holds frame formula ↔ modality.Holds frame formula' := by
  rw [show formula = formula' from funext fun world => propext (same world)]

/-- A modality keeps what does not depend on the world; some world is needed for both. -/
theorem holds_const (frame : Frame ω) (modality : Modality) (p : Prop)
    : modality.Holds frame (fun _ => p) ↔ p := by
  obtain ⟨world, member⟩ := frame.inhabited
  cases modality with
  | box => exact ⟨fun holds => holds world member, fun holds _ _ => holds⟩
  | diamond => exact ⟨fun ⟨_, _, holds⟩ => holds, fun holds => ⟨world, member, holds⟩⟩

/-- A negation passes through a modality to its dual. -/
theorem holds_signed (frame : Frame ω) (modality : Modality) (negated : Bool)
    (formula : ω → Prop)
    : modality.Holds frame (fun world => Signed negated (formula world))
      ↔ Signed negated ((if negated then modality.dual else modality).Holds frame formula) := by
  cases negated with
  | false => exact Iff.rfl
  | true => cases modality <;> simp [Holds, dual]

end Modality

end Xlog.Foundation
