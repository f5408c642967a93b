import Mathlib
import Xlog.Foundation.Loop

/-! Numbers as little-endian bytes, and reading them back from a byte string with checked bounds: an index
outside the string and a position beyond the machine's range are faults.
-/

namespace Xlog.Foundation

-- Little-endian numbers

def toLe : Nat → Nat → List UInt8
  | 0, _ => []
  | width + 1, n => UInt8.ofNat n :: toLe width (n / 256)

def fromLe : List UInt8 → Nat
  | [] => 0
  | byte :: bytes => byte.toNat + 256 * fromLe bytes

@[simp] theorem length_toLe (width n : Nat) : (toLe width n).length = width := by
  induction width generalizing n with
  | zero => rfl
  | succ width ih => simp [toLe, ih]

/-- The bytes of a number in range give it back, by induction on the width. -/
theorem fromLe_toLe {width n : Nat} (fits : n < 256 ^ width) : fromLe (toLe width n) = n := by
  induction width generalizing n with
  | zero =>
      rw [Nat.pow_zero, Nat.lt_one_iff] at fits
      simp [toLe, fromLe, fits]
  | succ width ih =>
      rw [Nat.pow_succ] at fits
      have rest : n / 256 < 256 ^ width := (Nat.div_lt_iff_lt_mul (by decide)).mpr fits
      rw [toLe, fromLe, ih rest, UInt8.toNat_ofNat']
      exact Nat.mod_add_div n 256

-- Reading

inductive MemoryFault where
  | outOfBounds
  | overflow
  deriving DecidableEq, Repr

/-- The number of `usize` values. -/
def usizeLimit : Nat := 18446744073709551616

/-- Unchecked addition: an overflow is a fault. -/
def advance (position count : Nat) : Except MemoryFault Nat :=
  if position + count < usizeLimit then .ok (position + count) else .error .overflow

/-- Indexing. -/
def itemAt {α : Type} (items : List α) (i : Nat) : Except MemoryFault α :=
  match items[i]? with
  | some item => .ok item
  | none => .error .outOfBounds

def slice (data : List UInt8) (start stop : Nat) : Except MemoryFault (List UInt8) :=
  if start ≤ stop ∧ stop ≤ data.length then .ok ((data.drop start).take (stop - start))
  else .error .outOfBounds

/-- One number, byte by byte. -/
def readLe (data : List UInt8) (position width : Nat) : Except MemoryFault Nat := do
  let bytes ← (List.range width).mapM fun i => do itemAt data (← advance position i)
  .ok (fromLe bytes)

/-- Several numbers behind each other. -/
def readLeVec (data : List UInt8) (offset count width : Nat) : Except MemoryFault (List Nat) :=
  (List.range count).mapM fun i => do readLe data (← advance offset (i * width)) width

theorem advance_ok {position count : Nat} (fits : position + count < usizeLimit)
    : advance position count = .ok (position + count) :=
  if_pos fits

theorem itemAt_ok {α : Type} {items : List α} {i : Nat} (inside : i < items.length)
    : itemAt items i = .ok items[i] := by
  rw [itemAt, List.getElem?_eq_getElem inside]

theorem slice_ok {data : List UInt8} {start count : Nat} (inside : start + count ≤ data.length)
    : slice data start (start + count) = .ok ((data.drop start).take count) := by
  rw [slice, if_pos ⟨Nat.le_add_right .., inside⟩, Nat.add_sub_cancel_left]

theorem map_range_eq_take (data : List UInt8) {position width : Nat}
    (inside : position + width ≤ data.length)
    : (List.range width).map (fun i => data.getD (position + i) 0)
      = (data.drop position).take width := by
  refine List.ext_getElem (by simp; omega) fun i small small' => ?_
  simp only [List.length_map, List.length_range] at small
  simp [List.getElem?_eq_getElem (show position + i < data.length by omega)]

theorem readLe_ok {data : List UInt8} {position width : Nat}
    (inside : position + width ≤ data.length) (fits : position + width < usizeLimit)
    : readLe data position width = .ok (fromLe ((data.drop position).take width)) := by
  have bytes := mapM_ok (fun i => do itemAt data (← advance position i))
    (fun i => data.getD (position + i) 0) (List.range width) (by
      intro i small
      rw [List.mem_range] at small
      have near : position + i < data.length := by omega
      rw [advance_ok (by omega), ok_bind, itemAt_ok near]
      simp [List.getElem?_eq_getElem near])
  rw [readLe, bytes, ok_bind, map_range_eq_take data inside]

theorem readLeVec_ok {data : List UInt8} {offset count width : Nat}
    (inside : offset + count * width ≤ data.length) (fits : offset + count * width < usizeLimit)
    : readLeVec data offset count width
      = .ok ((List.range count).map fun i =>
          fromLe ((data.drop (offset + i * width)).take width)) := by
  refine mapM_ok _ _ _ fun i small => ?_
  rw [List.mem_range] at small
  have near : offset + i * width + width ≤ offset + count * width := by
    have := Nat.mul_le_mul_right width (Nat.succ_le_of_lt small)
    rw [Nat.succ_mul] at this
    omega
  rw [advance_ok (by omega), ok_bind, readLe_ok (by omega) (by omega)]

-- Reading what was written

/-- What stands from a position on. -/
structure At (data : List UInt8) (position : Nat) (rest : List UInt8) : Prop where
  drop : data.drop position = rest
  inside : position ≤ data.length

variable {data bytes rest : List UInt8} {position : Nat}

theorem At.start (data : List UInt8) : At data 0 data := ⟨List.drop_zero, Nat.zero_le _⟩

theorem At.room (here : At data position (bytes ++ rest))
    : position + bytes.length ≤ data.length := by
  have lengths := congrArg List.length here.drop
  have inside := here.inside
  rw [List.length_drop, List.length_append] at lengths
  omega

theorem At.next (here : At data position (bytes ++ rest))
    : At data (position + bytes.length) rest where
  drop := by rw [← List.drop_drop, here.drop, List.drop_left]
  inside := here.room

theorem itemAt_at {byte : UInt8} (here : At data position ([byte] ++ rest))
    : itemAt data position = .ok byte := by
  have found : data[position]? = some byte := by
    rw [← Nat.add_zero position, ← List.getElem?_drop, here.drop]
    rfl
  rw [itemAt, found]

theorem advance_at (count : Nat) (exact_count : bytes.length = count)
    (here : At data position (bytes ++ rest)) (fits : data.length < usizeLimit)
    : advance position count = .ok (position + count) ∧ At data (position + count) rest := by
  subst exact_count
  exact ⟨advance_ok (Nat.lt_of_le_of_lt here.room fits), here.next⟩

theorem readLe_at {width n : Nat} (here : At data position (toLe width n ++ rest))
    (small : n < 256 ^ width) (fits : data.length < usizeLimit)
    : readLe data position width = .ok n := by
  have room := here.room
  rw [length_toLe] at room
  rw [readLe_ok room (by omega), here.drop, List.take_left' (length_toLe width n),
    fromLe_toLe small]

/-- The table of some numbers is as many bytes as they take, by list induction. -/
theorem length_flatMap_toLe (width : Nat) (numbers : List Nat)
    : (numbers.flatMap (toLe width)).length = numbers.length * width := by
  induction numbers with
  | nil => simp
  | cons n numbers ih =>
      rw [List.flatMap_cons, List.length_append, ih, length_toLe, List.length_cons, Nat.succ_mul,
        Nat.add_comm]

/-- The numbers of a written table, by list induction. -/
theorem readLeVec_at {width : Nat} {numbers : List Nat}
    (here : At data position (numbers.flatMap (toLe width) ++ rest))
    (small : ∀ n ∈ numbers, n < 256 ^ width) (fits : data.length < usizeLimit)
    : readLeVec data position numbers.length width = .ok numbers := by
  have room := here.room
  rw [length_flatMap_toLe] at room
  rw [readLeVec_ok room (by omega)]
  congr 1
  clear room
  induction numbers generalizing position with
  | nil => rfl
  | cons n numbers ih =>
      rw [List.flatMap_cons, List.append_assoc] at here
      have later := here.next
      rw [length_toLe] at later
      rw [List.length_cons, List.range_succ_eq_map, List.map_cons, List.map_map]
      congr 1
      · rw [Nat.zero_mul, Nat.add_zero, here.drop, List.take_left' (length_toLe width n),
          fromLe_toLe (small n (by simp))]
      · refine Eq.trans (List.map_congr_left fun i _ => ?_)
          (ih later fun n member => small n (List.mem_cons_of_mem _ member))
        rw [Function.comp_apply, Nat.succ_mul, Nat.add_assoc, Nat.add_comm width]

end Xlog.Foundation
