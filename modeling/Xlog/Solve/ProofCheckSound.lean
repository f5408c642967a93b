import Xlog.Solve.ProofCheckReplay

/-! When an accepted refutation is one. The replay drops the pivot from the reason clause with
both signs, and compares a stored clause by the number of its literals, so both clauses must
have their literals once for the check to mean what it says.
-/

namespace Xlog.Solve.ProofInput

open Xlog.Foundation Xlog.Foundation.Cnf

variable {input : ProofInput} {schedule : Schedule} {i j : Nat}

-- Dependencies

/-- The proof of a learned clause names this clause. -/
inductive Names (input : ProofInput) (i : Nat) : Nat → Prop
  | conflict {conflictClause steps} (h : input.header i = some (conflictClause, steps))
    : Names input i conflictClause
  | reason {conflictClause steps s} (h : input.header i = some (conflictClause, steps))
      (hs : s < steps)
    : Names input i (input.reasonClause i s)

/-- The proof of a learned clause uses this learned clause. -/
def Uses (input : ProofInput) (i j : Nat) : Prop :=
  ∃ id, Names input i id ∧ input.numClauses ≤ id ∧ j = sub32 id input.numClauses

/-- The learned clauses that the final one depends on. -/
inductive DependsOn (input : ProofInput) : Nat → Prop
  | last : DependsOn input (input.learnedCount - 1)
  | uses {i j : Nat} (h : DependsOn input i) (huses : Uses input i j) : DependsOn input j

theorem markClause_ok {needed needed' : Nat → Bool} {id : Nat}
    (h : input.markClause needed id = some needed')
    : needed' j = true
      ↔ needed j = true ∨ input.numClauses ≤ id ∧ j = sub32 id input.numClauses := by
  unfold markClause at h
  dsimp only at h
  split_ifs at h with hbase hlid
  · cases h
    constructor
    · exact .inl
    · rintro (hold | ⟨hle, -⟩)
      · exact hold
      · omega
  · cases h
    rcases eq_or_ne j (sub32 id input.numClauses) with rfl | hne
    · rw [Function.update_self]
      exact ⟨fun _ => .inr ⟨by omega, rfl⟩, fun _ => rfl⟩
    · simp [hne]

/-- A turn of the scan marks what the proof of a needed clause uses. -/
theorem markTurn_ok {needed needed' : Nat → Bool} (h : input.markTurn needed i = some needed')
    : needed i = false ∧ needed' = needed
      ∨ needed i = true ∧ ∀ j, needed' j = true ↔ needed j = true ∨ Uses input i j := by
  unfold markTurn at h
  split_ifs at h with hneeded
  · cases h
    exact .inl ⟨hneeded, rfl⟩
  · obtain ⟨⟨conflictClause, steps⟩, hheader, hrest⟩ := Option.bind_eq_some_iff.mp h
    obtain ⟨marked, hconflict, hreasons⟩ := Option.bind_eq_some_iff.mp hrest
    refine .inr ⟨by simpa using hneeded, ?_⟩
    have hfold
      : ∀ j, needed' j = true
          ↔ marked j = true
            ∨ ∃ s < steps, input.numClauses ≤ input.reasonClause i s
              ∧ j = sub32 (input.reasonClause i s) input.numClauses := by
      refine foldlM_range_inv
        (fun done (needed : Nat → Bool) =>
          ∀ j, needed j = true
            ↔ marked j = true
              ∨ ∃ s < done, input.numClauses ≤ input.reasonClause i s
                ∧ j = sub32 (input.reasonClause i s) input.numClauses)
        (by simp) ?_ hreasons
      intro done before after _ hbefore hmark j
      unfold markReason at hmark
      split_ifs at hmark with htrap
      rw [markClause_ok hmark, hbefore, or_assoc]
      refine or_congr_right ⟨?_, ?_⟩
      · rintro (⟨s, hs, huse⟩ | huse)
        · exact ⟨s, by omega, huse⟩
        · exact ⟨done, Nat.lt_succ_self _, huse⟩
      · rintro ⟨s, hs, huse⟩
        rcases Nat.lt_succ_iff_lt_or_eq.mp hs with hlt | rfl
        · exact .inl ⟨s, hlt, huse⟩
        · exact .inr huse
    intro j
    rw [hfold, markClause_ok hconflict, or_assoc]
    refine or_congr_right ⟨?_, ?_⟩
    · rintro (⟨hle, rfl⟩ | ⟨s, hs, hle, rfl⟩)
      · exact ⟨_, .conflict hheader, hle, rfl⟩
      · exact ⟨_, .reason hheader hs, hle, rfl⟩
    · rintro ⟨id, hnames, hle, rfl⟩
      cases hnames with
      | conflict h =>
          cases hheader.symm.trans h
          exact .inl ⟨hle, rfl⟩
      | reason h hs =>
          cases hheader.symm.trans h
          exact .inr ⟨_, hs, hle, rfl⟩

theorem markFrom_mono {n : Nat} {needed last : Nat → Bool}
    (h : input.markFrom n needed = some last) (hj : needed j = true)
    : last j = true := by
  induction n generalizing needed with
  | zero =>
      cases h
      exact hj
  | succ n ih =>
      obtain ⟨marked, hturn, hrest⟩ := Option.bind_eq_some_iff.mp h
      refine ih hrest ?_
      rcases markTurn_ok hturn with ⟨-, rfl⟩ | ⟨-, hmarked⟩
      · exact hj
      · exact (hmarked j).mpr (.inl hj)

/-- What is marked in the end was marked before, or a marked clause below uses it. -/
theorem markFrom_source {n : Nat} {needed last : Nat → Bool}
    (h : input.markFrom n needed = some last) (hj : last j = true)
    : needed j = true ∨ ∃ k < n, last k = true ∧ Uses input k j := by
  induction n generalizing needed with
  | zero =>
      cases h
      exact .inl hj
  | succ n ih =>
      obtain ⟨marked, hturn, hrest⟩ := Option.bind_eq_some_iff.mp h
      rcases ih hrest with hmarked | ⟨k, hk, huses⟩
      · rcases markTurn_ok hturn with ⟨-, rfl⟩ | ⟨hneeded, hiff⟩
        · exact .inl hmarked
        · rcases (hiff j).mp hmarked with hold | huses
          · exact .inl hold
          · have hlast := markFrom_mono hrest ((hiff n).mpr (.inl hneeded))
            exact .inr ⟨n, Nat.lt_succ_self _, hlast, huses⟩
      · exact .inr ⟨k, by omega, huses⟩

/-- When no marked clause uses itself or a later one, one reverse scan closes the marks. -/
theorem markFrom_closed {n : Nat} {needed last : Nat → Bool}
    (h : input.markFrom n needed = some last)
    (hbelow : ∀ k < n, last k = true → ∀ j, Uses input k j → j < k) {k : Nat} (hk : k < n)
    (hlast : last k = true) (huses : Uses input k j)
    : last j = true := by
  induction n generalizing needed with
  | zero => exact absurd hk (Nat.not_lt_zero _)
  | succ n ih =>
      obtain ⟨marked, hturn, hrest⟩ := Option.bind_eq_some_iff.mp h
      have hbelow' : ∀ k < n, last k = true → ∀ j, Uses input k j → j < k :=
        fun k hk => hbelow k (by omega)
      rcases Nat.lt_succ_iff_lt_or_eq.mp hk with hlt | rfl
      · exact ih hrest hbelow' hlt
      · have hmarked : marked k = true := by
          rcases markFrom_source hrest hlast with hmarked | ⟨other, hother, hneeded, huses'⟩
          · exact hmarked
          · have hlt := hbelow other (by omega) hneeded k huses'
            omega
        rcases markTurn_ok hturn with ⟨hfalse, rfl⟩ | ⟨-, hiff⟩
        · rw [hfalse] at hmarked
          cases hmarked
        · exact markFrom_mono hrest ((hiff j).mpr (.inr huses))

-- Accepted inputs

/-- The clause numbers fit the signed numbers of `sat_get_clause`. -/
def InRange (input : ProofInput) : Prop :=
  input.numClauses + input.learnedCount ≤ 2 ^ 31

instance : Decidable input.InRange :=
  inferInstanceAs (Decidable (_ ≤ _))

theorem u32_of_lt {n : Nat} (h : n < 2 ^ 32) : u32 n = n :=
  Nat.mod_eq_of_lt h

theorem sub32_of_le {a b : Nat} (hle : b ≤ a) (ha : a < 2 ^ 32) : sub32 a b = a - b := by
  unfold sub32
  rw [u32_of_lt (by omega : b < 2 ^ 32)]
  unfold u32
  omega

theorem toInt32_of_lt {n : Nat} (h : n < 2 ^ 31) : toInt32 n = n := by
  unfold toInt32
  rw [u32_of_lt (by omega), if_pos h]

/-- An earlier clause is a clause of the formula or an earlier learned clause. -/
theorem getClause_of_lt (hrange : input.InRange) (hi : i < input.learnedCount) {id : Nat}
    (hid : id < u32 (input.numClauses + i))
    : (id < input.numClauses ∧ input.getClause id = input.base.clause id)
      ∨ ∃ j, input.numClauses ≤ id ∧ j = sub32 id input.numClauses ∧ j < i
        ∧ input.getClause id = input.learned.clause j := by
  unfold InRange at hrange
  rw [u32_of_lt (by omega)] at hid
  unfold getClause
  rw [toInt32_of_lt (by omega), toInt32_of_lt (by omega), u32_of_lt (by omega)]
  by_cases hbase : id < input.numClauses
  · rw [if_pos (by exact_mod_cast hbase)]
    exact .inl ⟨hbase, rfl⟩
  · rw [if_neg (by exact_mod_cast hbase)]
    refine .inr ⟨_, by omega, rfl, ?_, rfl⟩
    rw [sub32_of_le (by omega) (by omega)]
    omega

/-- What an accepted input shows: the clauses that the final one depends on were all replayed,
and the final one is empty.
-/
structure Accepted (input : ProofInput) : Prop where
  count : 0 < input.learnedCount
  last : input.learned.clause (input.learnedCount - 1) = []
  lt : ∀ i, DependsOn input i → i < input.learnedCount
  replayed
    : ∀ i, DependsOn input i → ∃ conflictClause steps, Replayed input i conflictClause steps

/-- A replayed clause names earlier clauses only. -/
theorem Replayed.names {conflictClause steps id : Nat}
    (h : Replayed input i conflictClause steps) (hnames : Names input i id)
    : id < u32 (input.numClauses + i) := by
  cases hnames with
  | conflict hheader =>
      cases h.header.symm.trans hheader
      exact h.conflict
  | reason hheader hs =>
      cases h.header.symm.trans hheader
      exact h.reason _ hs

/-- A block that does not fail has replayed each of its needed clauses. -/
theorem checkBlock_replayed {needed : Nat → Bool} {blockIdx : Nat}
    (h : (input.checkBlock schedule needed blockIdx).isSome) (hi : i < input.learnedCount)
    (hblock : i % input.gridDim = blockIdx) (hneeded : needed i = true)
    : ∃ conflictClause steps, Replayed input i conflictClause steps := by
  obtain ⟨last, hrun⟩ := Option.isSome_iff_exists.mp h
  have hinv
    : (∀ v, last.map v / 4 ≤ last.stamp)
      ∧ ∀ k ∈ (List.range input.learnedCount).filter fun i => i % input.gridDim = blockIdx,
          needed k = true → ∃ conflictClause steps, Replayed input k conflictClause steps := by
    refine foldlM_some_inv
      (fun done (block : BlockState) =>
        (∀ v, block.map v / 4 ≤ block.stamp)
        ∧ ∀ k ∈ done, needed k = true
            → ∃ conflictClause steps, Replayed input k conflictClause steps)
      ⟨by simp, by simp⟩ ?_ hrun
    rintro done k block block' - ⟨hmap, hdone⟩ hturn
    unfold checkTurn at hturn
    split_ifs at hturn with hskip
    · cases hturn
      refine ⟨hmap, fun other hother hneeded => ?_⟩
      rcases List.mem_append.mp hother with hold | hnew
      · exact hdone other hold hneeded
      · cases List.mem_singleton.mp hnew
        rw [hskip] at hneeded
        cases hneeded
    · obtain ⟨hreplayed, hmap'⟩ := replayClause_ok hmap hturn
      refine ⟨hmap', fun other hother hneeded => ?_⟩
      rcases List.mem_append.mp hother with hold | hnew
      · exact hdone other hold hneeded
      · cases List.mem_singleton.mp hnew
        exact hreplayed
  exact hinv.2 i (by simp [hi, hblock]) hneeded

/-- An input that passes both kernels is accepted. -/
theorem accepted_of_accepts (h : input.accepts schedule = true)
    (hgate : input.compileNeeded ≠ 0) (hrange : input.InRange)
    : Accepted input := by
  unfold accepts at h
  cases hmark : input.markNeeded with
  | none =>
      rw [hmark] at h
      cases h
  | some needed =>
      rw [hmark] at h
      simp only [proofCheck, hgate, if_false, Bool.and_eq_true, certificateOk,
        decide_eq_true_eq, List.all_eq_true, List.mem_range] at h
      obtain ⟨⟨⟨hcount, hcap⟩, hlast⟩, hblocks⟩ := h
      have hneeded : ∀ i < input.learnedCount, needed i = true
          → ∃ conflictClause steps, Replayed input i conflictClause steps := fun i hi =>
        checkBlock_replayed (hblocks _ (Nat.mod_lt _ input.gridDim_pos)) hi rfl
      have hbelow : ∀ k < input.learnedCount, needed k = true
          → ∀ j, Uses input k j → j < k := by
        rintro k hk hmarked j ⟨id, hnames, hle, rfl⟩
        obtain ⟨conflictClause, steps, hreplayed⟩ := hneeded k hk hmarked
        rcases getClause_of_lt hrange hk (hreplayed.names hnames) with
          ⟨hlt, -⟩ | ⟨j, -, rfl, hj, -⟩
        · omega
        · exact hj
      have hscan
        : input.markFrom input.learnedCount
            (Function.update (fun _ => false) (input.learnedCount - 1) true)
          = some needed := by
        unfold markNeeded at hmark
        rwa [if_neg hgate, if_neg hcount, if_neg (by omega)] at hmark
      have hdepends
        : ∀ i, DependsOn input i → i < input.learnedCount ∧ needed i = true := by
        intro i hdepends
        induction hdepends with
        | last =>
            refine ⟨by omega, markFrom_mono hscan ?_⟩
            rw [Function.update_self]
        | uses hdepends huses ih =>
            obtain ⟨hlt, hmarked⟩ := ih
            exact ⟨(hbelow _ hlt hmarked _ huses).trans hlt,
              markFrom_closed hscan hbelow hlt hmarked huses⟩
      refine ⟨by omega, ?_, fun i hi => (hdepends i hi).1, fun i hi =>
        hneeded i (hdepends i hi).1 (hdepends i hi).2⟩
      unfold InRange at hrange
      simp only [ClauseArena.clause]
      rw [u32_of_lt (by omega), Nat.sub_add_cancel (by omega), hlast]
      rfl

-- Entailment

/-- Each step of a needed proof derives a clause that its premises entail, and the stored clause
follows from the derived one.
-/
def StepsEntailed (input : ProofInput) : Prop :=
  ∀ i, DependsOn input i → ∀ conflictClause steps,
    input.header i = some (conflictClause, steps)
    → (∀ s < steps,
        Entails [input.replayed i conflictClause s, input.getClause (input.reasonClause i s)]
          (input.replayed i conflictClause (s + 1)))
      ∧ Entails [input.replayed i conflictClause steps] (input.learned.clause i)

/-- No needed stored clause repeats a literal, and no needed step resolves with a clause that
has the pivot with both signs.
-/
def Clean (input : ProofInput) : Prop :=
  ∀ i, DependsOn input i → ∀ conflictClause steps,
    input.header i = some (conflictClause, steps)
    → (∀ s < steps,
        ¬ ((input.pivotVar i s : Int) ∈ input.getClause (input.reasonClause i s)
          ∧ -(input.pivotVar i s : Int) ∈ input.getClause (input.reasonClause i s)))
      ∧ (input.learned.clause i).Nodup

/-- The premises of needed proofs are entailed, so the needed clauses are, by induction on the
number of the clause.
-/
theorem Accepted.learned_entailed (h : Accepted input) (hrange : input.InRange)
    (hsteps : input.StepsEntailed) (hi : DependsOn input i)
    : Entails input.formula (input.learned.clause i) := by
  induction i using Nat.strong_induction_on with
  | _ i ih =>
      obtain ⟨conflictClause, steps, hreplayed⟩ := h.replayed i hi
      obtain ⟨hderived, hstored⟩ := hsteps i hi _ _ hreplayed.header
      have hnamed : ∀ id, Names input i id → Entails input.formula (input.getClause id) := by
        intro id hnames
        rcases getClause_of_lt hrange (h.lt i hi) (hreplayed.names hnames) with
          ⟨hlt, heq⟩ | ⟨j, hle, hj, hlt, heq⟩
        · rw [heq]
          exact entails_of_mem (List.mem_map.mpr ⟨id, List.mem_range.mpr hlt, rfl⟩)
        · rw [heq]
          exact ih j hlt (.uses hi ⟨id, hnames, hle, hj⟩)
      have hall : ∀ s ≤ steps, Entails input.formula (input.replayed i conflictClause s) := by
        intro s hs
        induction s with
        | zero => exact hnamed _ (.conflict hreplayed.header)
        | succ s ihs =>
            refine (hderived s hs).cut ?_
            intro premise hpremise
            rcases List.mem_pair.mp hpremise with rfl | rfl
            · exact ihs (by omega)
            · exact hnamed _ (.reason hreplayed.header hs)
      refine hstored.cut ?_
      intro premise hpremise
      cases List.mem_singleton.mp hpremise
      exact hall steps (le_refl _)

/-- A step of an accepted replay is sound unless its reason has both signs of the pivot. -/
theorem Replayed.step_entailed_iff {conflictClause steps s : Nat}
    (h : Replayed input i conflictClause steps) (hs : s < steps)
    : Entails [input.replayed i conflictClause s, input.getClause (input.reasonClause i s)]
          (input.replayed i conflictClause (s + 1))
      ↔ ¬ ((input.pivotVar i s : Int) ∈ input.getClause (input.reasonClause i s)
          ∧ -(input.pivotVar i s : Int) ∈ input.getClause (input.reasonClause i s)) := by
  obtain ⟨lit, hvar, hcur, hcomplement⟩ := h.pivot s hs
  have hproper : Proper (resolvent lit.natAbs (input.replayed i conflictClause s)
      (input.getClause (input.reasonClause i s))) := by
    rw [hvar]
    exact h.proper (s + 1) hs
  have hiff := entails_resolvent_iff (h.proper s hs.le) hproper hcur hcomplement
  rw [hvar] at hiff
  refine hiff.trans (not_congr ?_)
  rw [← hvar]
  rcases Int.natAbs_eq lit with heq | heq
  · rw [← heq]
    exact ⟨fun hlit => ⟨hlit, hcomplement⟩, fun hboth => hboth.1⟩
  · have hneg : (lit.natAbs : Int) = -lit := by omega
    rw [hneg, neg_neg]
    exact ⟨fun hlit => ⟨hcomplement, hlit⟩, fun hboth => hboth.2⟩

/-- The stored clause follows from the derived one unless it repeats a literal. -/
theorem Replayed.stored_entailed_iff {conflictClause steps : Nat}
    (h : Replayed input i conflictClause steps)
    : Entails [input.replayed i conflictClause steps] (input.learned.clause i)
      ↔ (input.learned.clause i).Nodup := by
  obtain ⟨cur, hnodup, hmem, hlength, hsub⟩ := h.stored
  have hstored : input.learned.clause i ⊆ input.replayed i conflictClause steps :=
    fun lit hlit => (hmem lit).mp (hsub hlit)
  have hiff := (h.proper steps (le_refl _)).entails_iff hstored
  rw [hiff]
  constructor
  · intro hsuper
    have hsubperm : List.Subperm cur (input.learned.clause i) :=
      List.subperm_of_subset hnodup fun lit hlit => hsuper ((hmem lit).mp hlit)
    exact (hsubperm.perm_of_length_le hlength.le).nodup_iff.mp hnodup
  · intro hstored lit hlit
    have hsubperm : List.Subperm (input.learned.clause i) cur :=
      List.subperm_of_subset hstored hsub
    exact (hsubperm.perm_of_length_le hlength.ge).mem_iff.mpr ((hmem lit).mpr hlit)

/-- What acceptance is meant to show. -/
structure Verified (input : ProofInput) : Prop where
  unsatisfiable : Unsatisfiable input.formula
  entailed : input.StepsEntailed
  replayed
    : ∀ i, DependsOn input i → ∃ conflictClause steps, Replayed input i conflictClause steps

/-- Acceptance shows it exactly on the clean inputs. -/
theorem verified_iff_clean (h : input.accepts schedule = true) (hgate : input.compileNeeded ≠ 0)
    (hrange : input.InRange)
    : Verified input ↔ Clean input := by
  have haccepted := accepted_of_accepts h hgate hrange
  have hiff : StepsEntailed input ↔ Clean input := by
    constructor
    · intro hsteps i hi conflictClause steps hheader
      obtain ⟨conflictClause', steps', hreplayed⟩ := haccepted.replayed i hi
      cases hreplayed.header.symm.trans hheader
      obtain ⟨hderived, hstored⟩ := hsteps i hi _ _ hheader
      exact ⟨fun s hs => (hreplayed.step_entailed_iff hs).mp (hderived s hs),
        hreplayed.stored_entailed_iff.mp hstored⟩
    · intro hclean i hi conflictClause steps hheader
      obtain ⟨conflictClause', steps', hreplayed⟩ := haccepted.replayed i hi
      cases hreplayed.header.symm.trans hheader
      obtain ⟨hpivots, hnodup⟩ := hclean i hi _ _ hheader
      exact ⟨fun s hs => (hreplayed.step_entailed_iff hs).mpr (hpivots s hs),
        hreplayed.stored_entailed_iff.mpr hnodup⟩
  constructor
  · intro hverified
    exact hiff.mp hverified.entailed
  · intro hclean
    have hsteps := hiff.mpr hclean
    refine ⟨?_, hsteps, haccepted.replayed⟩
    have hlast := haccepted.learned_entailed hrange hsteps .last
    rw [haccepted.last] at hlast
    exact entails_nil.mp hlast

/-- One base clause and its resolution with a second one to the empty clause. -/
def refutation (offsets : List Nat) (lits : List Int) : ProofInput where
  compileNeeded := 1
  base := ⟨fun i => offsets.getD i 0, fun i => lits.getD i 0⟩
  numClauses := 2
  learned := ⟨fun _ => 0, fun _ => 0⟩
  learnedCount := 1
  proofOffsets := fun i => [0, 4].getD i 0
  proofData := fun i => [0, 1, 1, 1].getD i 0
  neededCap := 1
  scratchCap := 2
  gridDim := 1
  gridDim_pos := Nat.one_pos

/-- The clauses `x` and `not x`. -/
theorem verified_iff_clean_refutation
    : (refutation [0, 1, 2] [1, -1]).accepts .inOrder = true
      ∧ (Verified (refutation [0, 1, 2] [1, -1])
        ↔ Clean (refutation [0, 1, 2] [1, -1])) := by
  have haccepts : (refutation [0, 1, 2] [1, -1]).accepts .inOrder = true := by
    decide +kernel
  exact ⟨haccepts, verified_iff_clean haccepts (by decide) (by decide)⟩

/-- The clauses `x or y` and `not x`, where the second proof uses a stored `x or x`. -/
def weakened : ProofInput where
  compileNeeded := 1
  base := ⟨fun i => [0, 2, 3].getD i 0, fun i => [1, 2, -1].getD i 0⟩
  numClauses := 2
  learned := ⟨fun i => [0, 2, 2].getD i 0, fun i => [1, 1].getD i 0⟩
  learnedCount := 2
  proofOffsets := fun i => [0, 2, 6].getD i 0
  proofData := fun i => [0, 0, 2, 1, 1, 1].getD i 0
  neededCap := 2
  scratchCap := 3
  gridDim := 1
  gridDim_pos := Nat.one_pos

/-- Two satisfiable formulas whose refutations are accepted. The first one is `x` with the clause
`x or not x`.
-/
theorem not_unsatisfiable_of_accepts
    : ((refutation [0, 1, 3] [1, 1, -1]).accepts .inOrder = true
        ∧ InRange (refutation [0, 1, 3] [1, 1, -1])
        ∧ ¬ Unsatisfiable (refutation [0, 1, 3] [1, 1, -1]).formula)
      ∧ weakened.accepts .inOrder = true ∧ InRange weakened
      ∧ ¬ Unsatisfiable weakened.formula := by
  refine ⟨⟨by decide +kernel, by decide, ?_⟩, by decide +kernel, by decide, ?_⟩
  · intro hunsat
    refine hunsat (fun _ => true) ?_
    have hformula : (refutation [0, 1, 3] [1, 1, -1]).formula = [[1], [1, -1]] := by
      decide +kernel
    rw [hformula]
    simp [litHolds]
  · intro hunsat
    refine hunsat (fun v => v = 2) ?_
    have hformula : weakened.formula = [[1, 2], [-1]] := by
      decide +kernel
    rw [hformula]
    simp [litHolds]

end Xlog.Solve.ProofInput
