import Mathlib.Data.List.Nodup
import Xlog.Foundation.Loop
import Xlog.Solve.ProofCheck

/-! What the stamped map makes of a replay. Whatever the order of the threads, a buffer ends up
with the literals of the resolvent, each variable once.
-/

namespace Xlog.Solve

open Xlog.Foundation Xlog.Foundation.Cnf

variable {stamp scratchCap pivotVar : Nat} {state state' : MergeState} {lit : Int}

-- The stamped map

/-- The entries of the current stamp are those of the literals in the buffer. -/
structure Filled (stamp : Nat) (map : Nat → Nat) (out : List Int) : Prop where
  bounded : ∀ v, map v / 4 ≤ stamp
  entry : ∀ lit ∈ out, lit ≠ 0 ∧ map lit.natAbs = stamp * 4 + litSign lit
  current : ∀ v, map v / 4 = stamp → ∃ lit ∈ out, lit.natAbs = v
  nodup : (out.map Int.natAbs).Nodup

theorem litSign_lt (lit : Int) : litSign lit < 4 := by
  unfold litSign
  split_ifs <;> omega

/-- A literal is its variable and its sign. -/
theorem eq_of_litSign {other : Int} (hvar : other.natAbs = lit.natAbs)
    (hsign : litSign other = litSign lit)
    : other = lit := by
  unfold litSign at hsign
  split_ifs at hsign <;> omega

theorem entry_mod (stamp : Nat) (lit : Int) : (stamp * 4 + litSign lit) % 4 = litSign lit := by
  have hlt := litSign_lt lit
  omega

theorem entry_div (stamp : Nat) (lit : Int) : (stamp * 4 + litSign lit) / 4 = stamp := by
  have hlt := litSign_lt lit
  omega

theorem Filled.fresh {map : Nat → Nat} (h : ∀ v, map v / 4 ≤ stamp)
    : Filled (stamp + 1) map [] := by
  refine ⟨fun v => (h v).trans (Nat.le_succ _), by simp, ?_, by simp⟩
  intro v hv
  have hle := h v
  omega

/-- A map entry of the current stamp tells the literal. -/
theorem Filled.mem_iff {map : Nat → Nat} {out : List Int} (h : Filled stamp map out)
    : (map lit.natAbs / 4 = stamp ∧ map lit.natAbs % 4 = litSign lit) ↔ lit ∈ out := by
  constructor
  · rintro ⟨hstamp, hsign⟩
    obtain ⟨other, hmem, hvar⟩ := h.current _ hstamp
    have hentry := (h.entry other hmem).2
    rw [hvar] at hentry
    rw [hentry, entry_mod] at hsign
    exact eq_of_litSign hvar hsign ▸ hmem
  · intro hmem
    rw [(h.entry lit hmem).2]
    exact ⟨entry_div _ _, entry_mod _ _⟩

/-- The buffer is a proper clause: one entry has one sign. -/
theorem Filled.proper {map : Nat → Nat} {out : List Int} (h : Filled stamp map out)
    : Proper out := by
  intro lit hmem
  obtain ⟨hzero, hentry⟩ := h.entry lit hmem
  refine ⟨hzero, fun hcomplement => ?_⟩
  have hother := (h.entry _ hcomplement).2
  rw [Int.natAbs_neg, hentry] at hother
  unfold litSign at hother
  split_ifs at hother <;> omega

theorem Filled.out_nodup {map : Nat → Nat} {out : List Int} (h : Filled stamp map out)
    : out.Nodup :=
  List.Nodup.of_map _ h.nodup

/-- A new variable gets its entry. -/
theorem Filled.insert {map : Nat → Nat} {out : List Int} (h : Filled stamp map out)
    (hzero : lit ≠ 0) (hstamp : map lit.natAbs / 4 ≠ stamp)
    : Filled stamp (Function.update map lit.natAbs (stamp * 4 + litSign lit))
        (out ++ [lit]) := by
  have hnew : ∀ other ∈ out, other.natAbs ≠ lit.natAbs := by
    intro other hmem heq
    rw [← heq, (h.entry other hmem).2, entry_div] at hstamp
    exact hstamp rfl
  refine ⟨?_, ?_, ?_, ?_⟩
  · intro v
    rcases eq_or_ne v lit.natAbs with rfl | hne
    · rw [Function.update_self, entry_div]
    · rw [Function.update_of_ne hne]
      exact h.bounded v
  · intro other hmem
    rcases List.mem_append.mp hmem with hold | hlit
    · rw [Function.update_of_ne (hnew other hold)]
      exact h.entry other hold
    · cases List.mem_singleton.mp hlit
      rw [Function.update_self]
      exact ⟨hzero, rfl⟩
  · intro v hv
    rcases eq_or_ne v lit.natAbs with rfl | hne
    · exact ⟨lit, by simp, rfl⟩
    · rw [Function.update_of_ne hne] at hv
      obtain ⟨other, hmem, hvar⟩ := h.current v hv
      exact ⟨other, List.mem_append_left _ hmem, hvar⟩
  · rw [List.map_append, List.nodup_append]
    refine ⟨h.nodup, by simp, ?_⟩
    intro a ha b hb
    obtain ⟨other, hmem, rfl⟩ := List.mem_map.mp ha
    cases List.mem_singleton.mp hb
    exact hnew other hmem

/-- An inserted literal is in the buffer afterwards, and nothing else is new. -/
theorem insertLit_filled (h : Filled stamp state.map state.out) (hzero : lit ≠ 0)
    (hinsert : state.insertLit stamp scratchCap lit = some state')
    : Filled stamp state'.map state'.out
      ∧ (∀ other, other ∈ state'.out ↔ other ∈ state.out ∨ other = lit)
      ∧ state'.curPos = state.curPos ∧ state'.curNeg = state.curNeg
      ∧ state'.reasonPos = state.reasonPos ∧ state'.reasonNeg = state.reasonNeg := by
  unfold MergeState.insertLit at hinsert
  dsimp only at hinsert
  split_ifs at hinsert with hstamp hsign hfull
  · cases hinsert
    have hmem : lit ∈ state.out := h.mem_iff.mp ⟨hstamp, by omega⟩
    refine ⟨h, ?_, rfl, rfl, rfl, rfl⟩
    intro other
    constructor
    · exact .inl
    · rintro (hold | rfl)
      · exact hold
      · exact hmem
  · cases hinsert
    exact ⟨h.insert hzero hstamp, by simp, rfl, rfl, rfl, rfl⟩

-- Phases

theorem load_filled {item : MergeItem} (h : Filled stamp state.map state.out)
    (hload : state.load stamp scratchCap item = some state')
    : Filled stamp state'.map state'.out
      ∧ (∀ other, other ∈ state'.out ↔ other ∈ state.out ∨ other = item.lit)
      ∧ state'.curPos = state.curPos ∧ state'.curNeg = state.curNeg
      ∧ state'.reasonPos = state.reasonPos ∧ state'.reasonNeg = state.reasonNeg := by
  unfold MergeState.load at hload
  split_ifs at hload with hrange
  exact insertLit_filled h (by omega) hload

/-- Loading a clause in any order leaves its literals. -/
theorem loadAll_filled {map : Nat → Nat} {items : List MergeItem}
    (hmap : ∀ v, map v / 4 ≤ stamp)
    (hrun
      : items.foldlM (MergeState.load (stamp + 1) scratchCap) { map := map } = some state)
    : Filled (stamp + 1) state.map state.out
      ∧ ∀ lit, lit ∈ state.out ↔ ∃ item ∈ items, item.lit = lit := by
  refine foldlM_some_inv
    (fun done (state : MergeState) =>
      Filled (stamp + 1) state.map state.out
      ∧ ∀ lit, lit ∈ state.out ↔ ∃ item ∈ done, item.lit = lit)
    ⟨Filled.fresh hmap, by simp⟩ ?_ hrun
  rintro done item state state' - ⟨hfilled, hmem⟩ hload
  obtain ⟨hfilled', hmem', -⟩ := load_filled hfilled hload
  refine ⟨hfilled', fun lit => ?_⟩
  rw [hmem', hmem]
  constructor
  · rintro (⟨other, hother, heq⟩ | rfl)
    · exact ⟨other, List.mem_append_left _ hother, heq⟩
    · exact ⟨item, by simp, rfl⟩
  · rintro ⟨other, hother, heq⟩
    rcases List.mem_append.mp hother with hold | hnew
    · exact .inl ⟨other, hold, heq⟩
    · cases List.mem_singleton.mp hnew
      exact .inr heq.symm

/-- The pivot literals that were seen, by their sign and by the clause they came from. -/
structure Flagged (pivotVar : Nat) (done : List MergeItem) (state : MergeState) : Prop where
  curPos
    : state.curPos = true
      ↔ ∃ item ∈ done, item.lit.natAbs = pivotVar ∧ item.ofReason = false ∧ 0 < item.lit
  curNeg
    : state.curNeg = true
      ↔ ∃ item ∈ done, item.lit.natAbs = pivotVar ∧ item.ofReason = false ∧ ¬ 0 < item.lit
  reasonPos
    : state.reasonPos = true
      ↔ ∃ item ∈ done, item.lit.natAbs = pivotVar ∧ item.ofReason = true ∧ 0 < item.lit
  reasonNeg
    : state.reasonNeg = true
      ↔ ∃ item ∈ done, item.lit.natAbs = pivotVar ∧ item.ofReason = true ∧ ¬ 0 < item.lit

/-- An item of another variable raises no flag. -/
theorem Flagged.other {done : List MergeItem} {item : MergeItem} (h : Flagged pivotVar done state)
    (hvar : item.lit.natAbs ≠ pivotVar)
    (hflags
      : state'.curPos = state.curPos ∧ state'.curNeg = state.curNeg
        ∧ state'.reasonPos = state.reasonPos ∧ state'.reasonNeg = state.reasonNeg)
    : Flagged pivotVar (done ++ [item]) state' := by
  obtain ⟨hcurPos, hcurNeg, hreasonPos, hreasonNeg⟩ := hflags
  constructor
  · rw [hcurPos, h.curPos]
    simp [or_and_right, exists_or, hvar]
  · rw [hcurNeg, h.curNeg]
    simp [or_and_right, exists_or, hvar]
  · rw [hreasonPos, h.reasonPos]
    simp [or_and_right, exists_or, hvar]
  · rw [hreasonNeg, h.reasonNeg]
    simp [or_and_right, exists_or, hvar]

/-- The flags that the check asks for come from a literal and its complement. -/
theorem Flagged.clash {items : List MergeItem} (h : Flagged pivotVar items state)
    (hok : state.pivotOk = true)
    : ∃ item ∈ items, ∃ other ∈ items,
        item.lit.natAbs = pivotVar ∧ item.ofReason = false ∧ other.ofReason = true
        ∧ other.lit = -item.lit := by
  rcases (Bool.or_eq_true _ _).mp hok with hpos | hneg
  · obtain ⟨hcur, hreason⟩ := (Bool.and_eq_true _ _).mp hpos
    obtain ⟨item, hitem, hvar, hsource, hsign⟩ := h.curPos.mp hcur
    obtain ⟨other, hother, hvar', hsource', hsign'⟩ := h.reasonNeg.mp hreason
    exact ⟨item, hitem, other, hother, hvar, hsource, hsource', by omega⟩
  · obtain ⟨hcur, hreason⟩ := (Bool.and_eq_true _ _).mp hneg
    obtain ⟨item, hitem, hvar, hsource, hsign⟩ := h.curNeg.mp hcur
    obtain ⟨other, hother, hvar', hsource', hsign'⟩ := h.reasonPos.mp hreason
    exact ⟨item, hitem, other, hother, hvar, hsource, hsource', by omega⟩

/-- Merging two clauses in any order leaves their literals of the other variables, and tells
with which signs each had the pivot.
-/
theorem mergeAll_filled {map : Nat → Nat} {items : List MergeItem}
    (hmap : ∀ v, map v / 4 ≤ stamp)
    (hrun
      : items.foldlM (MergeState.merge (stamp + 1) scratchCap pivotVar) { map := map }
        = some state)
    : Filled (stamp + 1) state.map state.out
      ∧ (∀ lit,
          lit ∈ state.out ↔ (∃ item ∈ items, item.lit = lit) ∧ lit.natAbs ≠ pivotVar)
      ∧ Flagged pivotVar items state := by
  refine foldlM_some_inv
    (fun done (state : MergeState) =>
      Filled (stamp + 1) state.map state.out
      ∧ (∀ lit, lit ∈ state.out ↔ (∃ item ∈ done, item.lit = lit) ∧ lit.natAbs ≠ pivotVar)
      ∧ Flagged pivotVar done state)
    ⟨Filled.fresh hmap, by simp, by constructor <;> simp⟩ ?_ hrun
  rintro done item state state' - ⟨hfilled, hmem, hflagged⟩ hmerge
  unfold MergeState.merge at hmerge
  split_ifs at hmerge with hpivot
  · cases hmerge
    refine ⟨hfilled, fun lit => ?_, ?_⟩
    · rw [hmem]
      constructor
      · rintro ⟨⟨other, hother, heq⟩, hne⟩
        exact ⟨⟨other, List.mem_append_left _ hother, heq⟩, hne⟩
      · rintro ⟨⟨other, hother, heq⟩, hne⟩
        rcases List.mem_append.mp hother with hold | hnew
        · exact ⟨⟨other, hold, heq⟩, hne⟩
        · cases List.mem_singleton.mp hnew
          exact absurd (heq ▸ hpivot) hne
    · constructor
      · simp [hflagged.curPos, or_and_right, exists_or, hpivot]
      · simp [hflagged.curNeg, or_and_right, exists_or, hpivot]
      · simp [hflagged.reasonPos, or_and_right, exists_or, hpivot]
      · simp [hflagged.reasonNeg, or_and_right, exists_or, hpivot]
  · obtain ⟨hfilled', hmem', hflags⟩ := load_filled hfilled hmerge
    refine ⟨hfilled', fun lit => ?_, hflagged.other hpivot hflags⟩
    rw [hmem', hmem]
    constructor
    · rintro (⟨⟨other, hother, heq⟩, hne⟩ | rfl)
      · exact ⟨⟨other, List.mem_append_left _ hother, heq⟩, hne⟩
      · exact ⟨⟨item, by simp, rfl⟩, hpivot⟩
    · rintro ⟨⟨other, hother, heq⟩, hne⟩
      rcases List.mem_append.mp hother with hold | hnew
      · exact .inl ⟨⟨other, hold, heq⟩, hne⟩
      · cases List.mem_singleton.mp hnew
        exact .inr heq.symm

-- The replay of a clause

namespace ProofInput

variable (input : ProofInput) {schedule : Schedule} {block block' : BlockState}
  {i conflictClause steps : Nat}

/-- The clause that a proof has derived after some of its steps. -/
def replayed (i conflictClause : Nat) : Nat → Clause
  | 0 => input.getClause conflictClause
  | s + 1 =>
      resolvent (input.pivotVar i s) (replayed i conflictClause s)
        (input.getClause (input.reasonClause i s))

/-- The block's buffer is this clause, under the current stamp. -/
structure Holds (block : BlockState) (clause : Clause) : Prop where
  filled : Filled block.stamp block.map block.cur
  mem : ∀ lit, lit ∈ block.cur ↔ lit ∈ clause

variable {input}

theorem Holds.proper {clause : Clause} (h : Holds block clause) : Proper clause := by
  intro lit hmem
  obtain ⟨hzero, hcomplement⟩ := h.filled.proper lit ((h.mem lit).mpr hmem)
  exact ⟨hzero, fun hother => hcomplement ((h.mem _).mpr hother)⟩

theorem fetchClause_ok {id : Nat} {clause : Clause} (h : input.fetchClause id = some clause)
    : clause = input.getClause id := by
  unfold fetchClause at h
  dsimp only at h
  split_ifs at h
  cases h
  rfl

@[simp]
theorem mem_asItems {ofReason : Bool} {clause : List Int} {item : MergeItem}
    : item ∈ asItems ofReason clause ↔ item.ofReason = ofReason ∧ item.lit ∈ clause := by
  obtain ⟨source, lit⟩ := item
  simp only [asItems, List.mem_map, MergeItem.mk.injEq]
  constructor
  · rintro ⟨other, hmem, rfl, rfl⟩
    exact ⟨rfl, hmem⟩
  · rintro ⟨rfl, hmem⟩
    exact ⟨lit, hmem, rfl, rfl⟩

theorem loadConflict_holds (hmap : ∀ v, block.map v / 4 ≤ block.stamp)
    (h : input.loadConflict schedule i conflictClause block = some block')
    : Holds block' (input.getClause conflictClause) := by
  unfold loadConflict at h
  split_ifs at h with hstamp
  obtain ⟨clause, hfetch, hrest⟩ := Option.bind_eq_some_iff.mp h
  obtain ⟨state, hload, hpure⟩ := Option.bind_eq_some_iff.mp hrest
  cases hpure
  obtain ⟨hfilled, hmem⟩ := loadAll_filled hmap hload
  refine ⟨hfilled, fun lit => ?_⟩
  rw [hmem, fetchClause_ok hfetch]
  constructor
  · rintro ⟨item, hitem, rfl⟩
    exact (mem_asItems.mp ((schedule.perm _ _ _).mem_iff.mp hitem)).2
  · intro hlit
    exact ⟨⟨false, lit⟩, (schedule.perm _ _ _).mem_iff.mpr (mem_asItems.mpr ⟨rfl, hlit⟩), rfl⟩

/-- A step has its reason among the earlier clauses, finds the pivot with opposite signs, and
leaves the resolvent.
-/
theorem replayStep_holds {clause : Clause} {s : Nat} (hblock : Holds block clause)
    (h : input.replayStep schedule i block s = some block')
    : input.reasonClause i s < u32 (input.numClauses + i)
      ∧ (∃ lit : Int, lit.natAbs = input.pivotVar i s ∧ lit ∈ clause
        ∧ -lit ∈ input.getClause (input.reasonClause i s))
      ∧ Holds block'
          (resolvent (input.pivotVar i s) clause
            (input.getClause (input.reasonClause i s))) := by
  unfold replayStep at h
  dsimp only at h
  split_ifs at h with hstamp hnone hrange
  obtain ⟨reason, hfetch, hrest⟩ := Option.bind_eq_some_iff.mp h
  obtain ⟨state, hmerge, hrest⟩ := Option.bind_eq_some_iff.mp hrest
  split_ifs at hrest with hpivot
  cases hrest
  cases fetchClause_ok hfetch
  obtain ⟨hfilled, hmem, hflagged⟩ := mergeAll_filled hblock.filled.bounded hmerge
  have hitem (item : MergeItem)
      : item ∈ schedule.order i (s + 1)
            (asItems false block.cur
              ++ asItems true (input.getClause (input.reasonClause i s)))
        ↔ item.ofReason = false ∧ item.lit ∈ clause
          ∨ item.ofReason = true ∧ item.lit ∈ input.getClause (input.reasonClause i s) := by
    rw [(schedule.perm _ _ _).mem_iff, List.mem_append, mem_asItems, mem_asItems, hblock.mem]
  refine ⟨by omega, ?_, hfilled, fun lit => ?_⟩
  · obtain ⟨item, hin, other, hother, hvar, hsource, hsource', hcomplement⟩
      := hflagged.clash (by simpa using hpivot)
    refine ⟨item.lit, hvar, ?_, ?_⟩
    · rcases (hitem item).mp hin with ⟨-, hcur⟩ | ⟨hreason, -⟩
      · exact hcur
      · rw [hsource] at hreason
        cases hreason
    · rcases (hitem other).mp hother with ⟨hcur, -⟩ | ⟨-, hreason⟩
      · rw [hsource'] at hcur
        cases hcur
      · exact hcomplement ▸ hreason
  · rw [hmem, mem_resolvent]
    constructor
    · rintro ⟨⟨item, hin, rfl⟩, hne⟩
      rcases (hitem item).mp hin with ⟨-, hcur⟩ | ⟨-, hreason⟩
      · exact ⟨.inl hcur, hne⟩
      · exact ⟨.inr hreason, hne⟩
    · rintro ⟨hcur | hreason, hne⟩
      · exact ⟨⟨⟨false, lit⟩, (hitem _).mpr (.inl ⟨rfl, hcur⟩), rfl⟩, hne⟩
      · exact ⟨⟨⟨true, lit⟩, (hitem _).mpr (.inr ⟨rfl, hreason⟩), rfl⟩, hne⟩

/-- An accepted replay: each step resolves two earlier clauses, and the stored clause has as
many literals as the derived one, all of them literals of it.
-/
structure Replayed (input : ProofInput) (i conflictClause steps : Nat) : Prop where
  header : input.header i = some (conflictClause, steps)
  conflict : conflictClause < u32 (input.numClauses + i)
  reason : ∀ s < steps, input.reasonClause i s < u32 (input.numClauses + i)
  pivot
    : ∀ s < steps, ∃ lit : Int,
        lit.natAbs = input.pivotVar i s ∧ lit ∈ input.replayed i conflictClause s
        ∧ -lit ∈ input.getClause (input.reasonClause i s)
  proper : ∀ s ≤ steps, Proper (input.replayed i conflictClause s)
  stored
    : ∃ cur : List Int,
        cur.Nodup ∧ (∀ lit, lit ∈ cur ↔ lit ∈ input.replayed i conflictClause steps)
        ∧ (input.learned.clause i).length = cur.length ∧ input.learned.clause i ⊆ cur

/-- The steps done so far were accepted, and the buffer is the clause they derive. -/
structure Replaying (input : ProofInput) (i conflictClause done : Nat) (block : BlockState)
    : Prop where
  holds : Holds block (input.replayed i conflictClause done)
  reason : ∀ s < done, input.reasonClause i s < u32 (input.numClauses + i)
  pivot
    : ∀ s < done, ∃ lit : Int,
        lit.natAbs = input.pivotVar i s ∧ lit ∈ input.replayed i conflictClause s
        ∧ -lit ∈ input.getClause (input.reasonClause i s)
  proper : ∀ s ≤ done, Proper (input.replayed i conflictClause s)

theorem Replaying.start (h : Holds block (input.getClause conflictClause))
    : Replaying input i conflictClause 0 block := by
  refine ⟨h, by simp, by simp, ?_⟩
  intro s hs
  cases Nat.le_zero.mp hs
  exact h.proper

theorem Replaying.step {done : Nat} (h : Replaying input i conflictClause done block)
    (hstep : input.replayStep schedule i block done = some block')
    : Replaying input i conflictClause (done + 1) block' := by
  obtain ⟨hrange, hpivot, hholds⟩ := replayStep_holds h.holds hstep
  refine ⟨hholds, ?_, ?_, ?_⟩
  · intro s hs
    rcases Nat.lt_succ_iff_lt_or_eq.mp hs with hlt | rfl
    · exact h.reason s hlt
    · exact hrange
  · intro s hs
    rcases Nat.lt_succ_iff_lt_or_eq.mp hs with hlt | rfl
    · exact h.pivot s hlt
    · exact hpivot
  · intro s hs
    rcases Nat.lt_or_eq_of_le hs with hlt | rfl
    · exact h.proper s (Nat.le_of_lt_succ hlt)
    · exact hholds.proper

/-- The stored literals that match the map are in the buffer. -/
theorem matchesStored_ok {clause : Clause} (hblock : Holds block clause)
    (h : input.matchesStored i block = true)
    : (input.learned.clause i).length = block.cur.length
      ∧ input.learned.clause i ⊆ block.cur := by
  simp only [matchesStored, Bool.and_eq_true, decide_eq_true_eq, List.all_eq_true] at h
  obtain ⟨hlength, hall⟩ := h
  refine ⟨hlength, fun lit hlit => ?_⟩
  obtain ⟨⟨⟨-, -⟩, hstamp⟩, hsign⟩ := hall lit hlit
  exact hblock.filled.mem_iff.mp ⟨hstamp, hsign⟩

/-- A clause whose replay succeeds was replayed, and leaves the map under its stamp. -/
theorem replayClause_ok (hmap : ∀ v, block.map v / 4 ≤ block.stamp)
    (h : input.replayClause schedule block i = some block')
    : (∃ conflictClause steps, Replayed input i conflictClause steps)
      ∧ ∀ v, block'.map v / 4 ≤ block'.stamp := by
  obtain ⟨⟨conflictClause, steps⟩, hheader, hrest⟩ := Option.bind_eq_some_iff.mp h
  dsimp only at hrest
  split_ifs at hrest with hrange
  obtain ⟨loaded, hload, hrest⟩ := Option.bind_eq_some_iff.mp hrest
  obtain ⟨last, hsteps, hrest⟩ := Option.bind_eq_some_iff.mp hrest
  split_ifs at hrest with hmatches
  cases hrest
  have hreplaying : Replaying input i conflictClause steps block' := by
    refine foldlM_range_inv (fun done block => Replaying input i conflictClause done block)
      (.start (loadConflict_holds hmap hload)) ?_ hsteps
    intro done block block' _ hdone hstep
    exact hdone.step hstep
  obtain ⟨hlength, hsub⟩ := matchesStored_ok hreplaying.holds hmatches
  refine ⟨⟨conflictClause, steps, hheader, by omega, hreplaying.reason, hreplaying.pivot,
    hreplaying.proper, ?_⟩, hreplaying.holds.filled.bounded⟩
  exact ⟨block'.cur, hreplaying.holds.filled.out_nodup, hreplaying.holds.mem, hlength, hsub⟩

end ProofInput

end Xlog.Solve
