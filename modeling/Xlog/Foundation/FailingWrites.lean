import Mathlib.Data.List.Basic

/-! Writes to the cells of a table, each of which can fail and then leave anything in its cell. Writing
back what the touched cells held restores the table, whatever the failures left.
-/

namespace Xlog.Foundation

variable {κ α ε : Type} [DecidableEq κ]

/-- What becomes of one write. -/
inductive WriteOutcome (ε α : Type) where
  | ok
  | failed (error : ε) (left : α)

def writeAll (table : κ → α) (writes : List (κ × α)) : κ → α :=
  writes.foldl (fun table write => Function.update table write.1 write.2) table

/-- The writes in order up to the first failure. -/
def attemptWrites (outcomes : Nat → WriteOutcome ε α) (step : Nat) (table : κ → α)
    : List (κ × α) → (κ → α) × Option ε
  | [] => (table, none)
  | write :: writes =>
      match outcomes step with
      | .ok => attemptWrites outcomes (step + 1) (Function.update table write.1 write.2) writes
      | .failed error left => (Function.update table write.1 left, some error)

variable {outcomes : Nat → WriteOutcome ε α} {step : Nat} {table original : κ → α}
variable {writes : List (κ × α)}

theorem attemptWrites_ok (h : (attemptWrites outcomes step table writes).2 = none)
    : (attemptWrites outcomes step table writes).1 = writeAll table writes := by
  induction writes generalizing step table with
  | nil => rfl
  | cons write writes ih =>
    simp only [attemptWrites] at h ⊢
    split
    · next hok =>
      rw [hok] at h
      exact ih h
    · next hfailed => simp [hfailed] at h

/-- No other cell is touched. -/
theorem attemptWrites_elsewhere {cell : κ} (h : ∀ write ∈ writes, cell ≠ write.1)
    : (attemptWrites outcomes step table writes).1 cell = table cell := by
  induction writes generalizing step table with
  | nil => rfl
  | cons write writes ih =>
    obtain ⟨hwrite, hwrites⟩ := List.forall_mem_cons.mp h
    simp only [attemptWrites]
    split
    · rw [ih hwrites, Function.update_of_ne hwrite]
    · exact Function.update_of_ne hwrite _ _

/-- Writes of what a table held restore it where it was touched. -/
theorem writeAll_restores (hwrites : ∀ write ∈ writes, original write.1 = write.2)
    (helsewhere : ∀ cell, (∀ write ∈ writes, cell ≠ write.1) → table cell = original cell)
    : writeAll table writes = original := by
  induction writes generalizing table with
  | nil => exact funext fun cell => helsewhere cell (by simp)
  | cons write writes ih =>
    obtain ⟨hwrite, hrest⟩ := List.forall_mem_cons.mp hwrites
    have hupdated : ∀ cell, (∀ write ∈ writes, cell ≠ write.1)
        → Function.update table write.1 write.2 cell = original cell := by
      intro cell hcell
      by_cases hsame : cell = write.1
      · rw [hsame, Function.update_self, hwrite]
      · rw [Function.update_of_ne hsame]
        exact helsewhere cell (List.forall_mem_cons.mpr ⟨hsame, hcell⟩)
    exact ih hrest hupdated

theorem writeAll_append (table : κ → α) (writes rest : List (κ × α))
    : writeAll table (writes ++ rest) = writeAll (writeAll table writes) rest :=
  List.foldl_append ..

end Xlog.Foundation
