import Xlog.Foundation.LinearProbing
import Xlog.Prob.GpuCircuitCacheSlots

/-! While every miss finds a free slot and no key without a circuit is looked up, the cache
serves every key its own circuit.
-/

namespace Xlog.Prob.GpuCache

open Xlog.Core Xlog.Foundation

-- Table

/-- The key of a live entry. -/
def CacheTable.liveKey (table : CacheTable) (idx : Nat) : Option Nat :=
  if (table.entries idx).state = 0 then none else some (table.entries idx).key

section

variable {config : GpuCircuitCacheConfig} {table : CacheTable} {key idx slot : Nat}

theorem liveKey_eq_some
    : table.liveKey idx = some key ↔ table.Live idx ∧ (table.entries idx).key = key := by
  unfold CacheTable.liveKey CacheTable.Live
  split <;> simp [*]

theorem liveKey_eq_none : table.liveKey idx = none ↔ (table.entries idx).state = 0 := by
  unfold CacheTable.liveKey
  split <;> simp [*]

/-- The kernel's loop is the search along the probed entries. -/
theorem probeStop_eq
    : probeStop config table key
      = probeSearch table.liveKey (probeIndices config key) key := by
  unfold probeSearch probeStop
  congr 1
  funext idx
  rw [decide_eq_decide, liveKey_eq_none, liveKey_eq_some]
  unfold CacheTable.Live
  tauto

/-- Probed entries lie in the table, also where the 32-bit sum wraps around. -/
theorem lt_of_mem_probeIndices (h : idx ∈ probeIndices config key)
    : idx < config.tableSize := by
  obtain ⟨probe, hprobe, rfl⟩ := List.mem_map.mp h
  have hprobe := List.mem_range.mp hprobe
  have hstart : key % config.tableSize < config.tableSize := Nat.mod_lt _ (by omega)
  have hsum := Nat.mod_le (key % config.tableSize + probe) u32Size
  unfold probeIndex
  dsimp only
  split <;> omega

/-- What holds of the table as long as nothing was evicted. -/
structure TableInv (config : GpuCircuitCacheConfig) (table : CacheTable) : Prop where
  ordered : ProbeOrdered table.liveKey (probeIndices config)
  inside : ∀ i, table.Live i → i < config.tableSize ∧ (table.entries i).slot < config.numSlots
  slots : ∀ i j, table.Live i → table.Live j
    → (table.entries i).slot = (table.entries j).slot → i = j
  used : ∀ slot < config.numSlots, table.slotStates slot ≠ 0
    ↔ ∃ i, table.Live i ∧ (table.entries i).slot = slot

theorem TableInv.unique (inv : TableInv config table) {i j : Nat} (hi : table.Live i)
    (hj : table.Live j) (hkey : (table.entries i).key = (table.entries j).key)
    : i = j :=
  inv.ordered.unique (liveKey_eq_some.mpr ⟨hi, hkey⟩) (liveKey_eq_some.mpr ⟨hj, rfl⟩)

theorem TableInv.right (inv : TableInv config table) : TableRight config table where
  keys _ _ _ _ hi hj hkey := inv.unique hi hj hkey
  slots i _ j _ hi hj hslot := inv.slots i j hi hj hslot
  used slot hslot := by
    rw [inv.used slot hslot]
    constructor
    · rintro ⟨i, hi, hs⟩
      exact ⟨i, (inv.inside i hi).1, hi, hs⟩
    · rintro ⟨i, _, hi, hs⟩
      exact ⟨i, hi, hs⟩

theorem TableInv.empty : TableInv config .empty where
  ordered i key h := by simp [CacheTable.liveKey, CacheTable.empty] at h
  inside i h := absurd rfl h
  slots i _ h := absurd rfl h
  used slot _ := by
    constructor
    · exact fun h => absurd rfl h
    · rintro ⟨i, hi, _⟩
      exact absurd rfl hi

-- Lookups

/-- A hit: the entry is used now, and nothing else changes. -/
structure Hit (table table' : CacheTable) (key idx : Nat) (report : LookupReport) : Prop where
  live : table.Live idx
  found : (table.entries idx).key = key
  answer : report = ⟨(table.entries idx).slot, 0, none⟩
  entries : ∀ i, (table'.entries i).key = (table.entries i).key
    ∧ (table'.entries i).slot = (table.entries i).slot
    ∧ (table'.entries i).state = (table.entries i).state
  slotStates : table'.slotStates = table.slotStates

/-- A miss that claims a free slot for an empty entry. -/
structure Claim (config : GpuCircuitCacheConfig) (table table' : CacheTable) (key idx : Nat)
    (report : LookupReport) : Prop where
  stop : probeSearch table.liveKey (probeIndices config key) key = some idx
  vacant : (table.entries idx).state = 0
  free : report.slot < config.numSlots
  unused : table.slotStates report.slot = 0
  answer : report = ⟨report.slot, 1, none⟩
  entries : ∃ now, table'.entries = Function.update table.entries idx ⟨key, report.slot, 1, now⟩
  slotStates : table'.slotStates = Function.update table.slotStates report.slot 1

theorem Hit.liveKey {table' : CacheTable} {report : LookupReport}
    (h : Hit table table' key idx report)
    : table'.liveKey = table.liveKey := by
  funext i
  obtain ⟨hkey, _, hstate⟩ := h.entries i
  simp only [CacheTable.liveKey, hkey, hstate]

theorem Hit.live_iff {table' : CacheTable} {report : LookupReport}
    (h : Hit table table' key idx report) (i : Nat)
    : table'.Live i ↔ table.Live i := by
  unfold CacheTable.Live
  rw [(h.entries i).2.2]

theorem Hit.inv {table' : CacheTable} {report : LookupReport}
    (h : Hit table table' key idx report) (inv : TableInv config table)
    : TableInv config table' where
  ordered := h.liveKey ▸ inv.ordered
  inside i hi := by
    rw [(h.entries i).2.1]
    exact inv.inside i ((h.live_iff i).mp hi)
  slots i j hi hj hslot := by
    rw [(h.entries i).2.1, (h.entries j).2.1] at hslot
    exact inv.slots i j ((h.live_iff i).mp hi) ((h.live_iff j).mp hj) hslot
  used slot hslot := by
    rw [h.slotStates, inv.used slot hslot]
    constructor
    · rintro ⟨i, hi, hs⟩
      exact ⟨i, (h.live_iff i).mpr hi, (h.entries i).2.1.trans hs⟩
    · rintro ⟨i, hi, hs⟩
      exact ⟨i, (h.live_iff i).mp hi, (h.entries i).2.1.symm.trans hs⟩

section

variable {table' : CacheTable} {report : LookupReport}
  (h : Claim config table table' key idx report)

include h

theorem Claim.entry : ∃ now, table'.entries idx = ⟨key, report.slot, 1, now⟩ := by
  obtain ⟨now, hentries⟩ := h.entries
  exact ⟨now, by rw [hentries, Function.update_self]⟩

theorem Claim.entry_of_ne {i : Nat} (hi : i ≠ idx) : table'.entries i = table.entries i := by
  obtain ⟨now, hentries⟩ := h.entries
  rw [hentries, Function.update_of_ne hi]

theorem Claim.live_iff (i : Nat) : table'.Live i ↔ i = idx ∨ table.Live i := by
  by_cases hi : i = idx
  · subst hi
    obtain ⟨now, hentry⟩ := h.entry
    simp [CacheTable.Live, hentry]
  · simp [CacheTable.Live, h.entry_of_ne hi, hi]

theorem Claim.liveKey : table'.liveKey = Function.update table.liveKey idx (some key) := by
  funext i
  by_cases hi : i = idx
  · subst hi
    obtain ⟨now, hentry⟩ := h.entry
    simp [CacheTable.liveKey, hentry]
  · simp [CacheTable.liveKey, h.entry_of_ne hi, hi]

/-- No live entry has the claimed slot. -/
theorem Claim.slot_ne (inv : TableInv config table) {i : Nat} (hi : table.Live i)
    : (table.entries i).slot ≠ report.slot := by
  intro hslot
  exact (inv.used report.slot h.free).mpr ⟨i, hi, hslot⟩ h.unused

theorem Claim.inv (inv : TableInv config table)
    : TableInv config table' where
  ordered := h.liveKey ▸ inv.ordered.insert h.stop (liveKey_eq_none.mpr h.vacant)
  inside i hi := by
    by_cases hne : i = idx
    · subst hne
      obtain ⟨now, hentry⟩ := h.entry
      exact ⟨lt_of_mem_probeIndices (mem_of_probeSearch h.stop), by
        rw [hentry]
        exact h.free⟩
    · rw [h.entry_of_ne hne]
      exact inv.inside i (((h.live_iff i).mp hi).resolve_left hne)
  slots i j hi hj hslot := by
    obtain ⟨now, hentry⟩ := h.entry
    by_cases hi' : i = idx <;> by_cases hj' : j = idx
    · rw [hi', hj']
    · rw [hi', hentry, h.entry_of_ne hj'] at hslot
      exact absurd hslot.symm (h.slot_ne inv (((h.live_iff j).mp hj).resolve_left hj'))
    · rw [hj', hentry, h.entry_of_ne hi'] at hslot
      exact absurd hslot (h.slot_ne inv (((h.live_iff i).mp hi).resolve_left hi'))
    · rw [h.entry_of_ne hi', h.entry_of_ne hj'] at hslot
      exact inv.slots i j (((h.live_iff i).mp hi).resolve_left hi')
        (((h.live_iff j).mp hj).resolve_left hj') hslot
  used slot hslot := by
    obtain ⟨now, hentry⟩ := h.entry
    rw [h.slotStates]
    by_cases hs : slot = report.slot
    · subst hs
      simp only [Function.update_self, ne_eq, one_ne_zero, not_false_eq_true, true_iff]
      exact ⟨idx, (h.live_iff idx).mpr (.inl rfl), by rw [hentry]⟩
    · rw [Function.update_of_ne hs, inv.used slot hslot]
      constructor
      · rintro ⟨i, hi, hslot'⟩
        have hne : i ≠ idx := fun hne => hi (hne ▸ h.vacant)
        exact ⟨i, (h.live_iff i).mpr (.inr hi), by rw [h.entry_of_ne hne, hslot']⟩
      · rintro ⟨i, hi, hslot'⟩
        have hne : i ≠ idx := by
          rintro rfl
          rw [hentry] at hslot'
          exact hs hslot'.symm
        rw [h.entry_of_ne hne] at hslot'
        exact ⟨i, ((h.live_iff i).mp hi).resolve_left hne, hslot'⟩

end

/-- A lookup of a live key hits its entry. -/
theorem hit_of_live (valid : config.Valid) (inv : TableInv config table)
    (hlive : table.Live idx) (hkey : (table.entries idx).key = key)
    : Hit table (cacheLookupOrInsert config table key).2 key idx
        (cacheLookupOrInsert config table key).1 := by
  have hsearch := inv.ordered idx key (liveKey_eq_some.mpr ⟨hlive, hkey⟩)
  have hsizes : ¬ (config.tableSize = 0 ∨ config.numSlots = 0) := by
    have := valid.slots
    have := valid.table
    omega
  have hstop : probeStop config table.tick key = some idx := probeStop_eq.trans hsearch
  have hrun : cacheLookupOrInsert config table key
      = (⟨(table.entries idx).slot, 0, none⟩,
        { table.tick with
          entries := Function.update table.entries idx
            { table.entries idx with lastUsed := table.tick.clock } }) := by
    unfold cacheLookupOrInsert
    rw [if_neg hsizes]
    simp only [hstop]
    exact if_neg hlive
  rw [hrun]
  refine ⟨hlive, hkey, rfl, fun i => ?_, rfl⟩
  by_cases hi : i = idx
  · subst hi
    simp
  · simp [Function.update_of_ne hi]

/-- A lookup of another key claims a free slot, if there is one and the search meets an empty
entry.
-/
theorem exists_claim (valid : config.Valid)
    (absent : ∀ i, table.Live i → (table.entries i).key ≠ key)
    (hfree : (cacheFindFreeSlot config table).isSome)
    (hempty : ∃ idx ∈ probeIndices config key, (table.entries idx).state = 0)
    : ∃ idx, Claim config table (cacheLookupOrInsert config table key).2 key idx
        (cacheLookupOrInsert config table key).1 := by
  have hsizes : ¬ (config.tableSize = 0 ∨ config.numSlots = 0) := by
    have := valid.slots
    have := valid.table
    omega
  obtain ⟨slot, hslot⟩ := Option.isSome_iff_exists.mp hfree
  obtain ⟨idx, hsearch⟩ : ∃ idx,
      probeSearch table.liveKey (probeIndices config key) key = some idx := by
    obtain ⟨idx, hmem, hstate⟩ := hempty
    refine Option.isSome_iff_exists.mp (List.find?_isSome.mpr ⟨idx, hmem, ?_⟩)
    simp [liveKey_eq_none.mpr hstate]
  have hvacant : (table.entries idx).state = 0 := by
    rcases table_of_probeSearch hsearch with hnone | hsome
    · exact liveKey_eq_none.mp hnone
    · obtain ⟨hlive, hkey⟩ := liveKey_eq_some.mp hsome
      exact absurd hkey (absent idx hlive)
  have hstop : probeStop config table.tick key = some idx := probeStop_eq.trans hsearch
  have hrun : cacheLookupOrInsert config table key
      = (⟨slot, 1, none⟩,
        { table.tick with
          entries := Function.update table.entries idx ⟨key, slot, 1, table.tick.clock⟩
          slotStates := Function.update table.slotStates slot 1 }) := by
    unfold cacheLookupOrInsert
    rw [if_neg hsizes]
    have hfree' : cacheFindFreeSlot config table.tick = some slot := hslot
    have hvacant' : (table.tick.entries idx).state = 0 := hvacant
    simp only [hstop, hvacant', if_true, hfree']
    rfl
  have hfound := List.find?_some hslot
  have hrange := List.mem_range.mp (List.mem_of_find?_eq_some hslot)
  rw [hrun]
  exact ⟨idx, hsearch, hvacant, hrange, by simpa using hfound, rfl, ⟨_, rfl⟩, rfl⟩

end

-- Runs

/-- What holds of a run as long as every call fits: the ledger lists the live entries, their
slots hold what was stored, and a slot that was never claimed has no mask.
-/
structure RunInv (config : GpuCircuitCacheConfig) (run : CacheRun) : Prop where
  sized : run.cache.config = config
  table : TableInv config run.cache.table
  listed : ∀ key slot, (∃ resident ∈ run.ledger, resident.key = key ∧ resident.slot = slot)
    ↔ ∃ i, run.cache.table.Live i ∧ (run.cache.table.entries i).key = key
      ∧ (run.cache.table.entries i).slot = slot
  holds : ∀ resident ∈ run.ledger, ∀ stored, resident.stored = some stored
    → HoldsCircuit run.cache resident.slot stored
  unmarked : ∀ slot, run.cache.table.slotStates slot = 0
    → run.cache.hasFreeVarMask slot = false

theorem RunInv.start (config : GpuCircuitCacheConfig) : RunInv config (.start config) where
  sized := rfl
  table := .empty
  listed key slot := by
    constructor
    · rintro ⟨_, hmem, _⟩
      cases hmem
    · rintro ⟨i, hi, _⟩
      exact absurd rfl hi
  holds _ hmem := by cases hmem
  unmarked _ _ := rfl

section

variable {config : GpuCircuitCacheConfig} {run : CacheRun} {key : Nat}

/-- A resident is a live entry with its slot. -/
theorem RunInv.exists_live (inv : RunInv config run) {resident : Resident}
    (hmem : resident ∈ run.ledger)
    : ∃ i, run.cache.table.Live i ∧ (run.cache.table.entries i).key = resident.key
      ∧ (run.cache.table.entries i).slot = resident.slot :=
  (inv.listed resident.key resident.slot).mp ⟨resident, hmem, rfl, rfl⟩

/-- The lookup of a resident key hits its entry. -/
theorem RunInv.exists_hit (inv : RunInv config run) (valid : config.Valid)
    {resident : Resident} (hmem : resident ∈ run.ledger) (hkey : resident.key = key)
    : ∃ i, Hit run.cache.table
        (cacheLookupOrInsert run.cache.config run.cache.table key).2 key i (run.report key)
      ∧ (run.report key).slot = resident.slot := by
  obtain ⟨i, hlive, hentry, hslot⟩ := inv.exists_live hmem
  have hit := hit_of_live valid inv.table hlive (hentry.trans hkey)
  rw [← inv.sized] at hit
  refine ⟨i, hit, ?_⟩
  have hanswer : run.report key = ⟨(run.cache.table.entries i).slot, 0, none⟩ := hit.answer
  rw [hanswer, hslot]

/-- The lookup of a key that is not resident claims a free slot. -/
theorem RunInv.exists_claim (inv : RunInv config run) (valid : config.Valid)
    (absent : ∀ resident ∈ run.ledger, resident.key ≠ key)
    (hfree : (cacheFindFreeSlot run.cache.config run.cache.table).isSome)
    (hempty : ∃ idx ∈ probeIndices run.cache.config key,
      (run.cache.table.entries idx).state = 0)
    : ∃ i, Claim config run.cache.table
        (cacheLookupOrInsert run.cache.config run.cache.table key).2 key i
        (run.report key) := by
  have habsent (i : Nat) (hi : run.cache.table.Live i)
      : (run.cache.table.entries i).key ≠ key := by
    intro hkey
    obtain ⟨resident, hmem, hresident, _⟩ := (inv.listed key _).mpr ⟨i, hi, hkey, rfl⟩
    exact absent resident hmem hresident
  unfold CacheRun.report
  rw [inv.sized] at hfree hempty ⊢
  exact GpuCache.exists_claim valid habsent hfree hempty

/-- A call that fits gets the right answer. -/
theorem RunInv.lookupRight (inv : RunInv config run) (valid : config.Valid)
    (fits : CallFits run key)
    : LookupRight run key := by
  rcases fits with ⟨resident, hmem, hkey, hstored⟩ | ⟨absent, hfree, hempty⟩
  · obtain ⟨i, hit, hslot⟩ := inv.exists_hit valid hmem hkey
    obtain ⟨stored, hstored⟩ := Option.isSome_iff_exists.mp hstored
    refine ⟨?_, fun _ => ⟨resident, hmem, hkey, hslot.symm, stored, hstored, ?_⟩, ?_⟩
    · rw [hit.answer]
      exact ⟨fun _ => ⟨resident, hmem, hkey⟩, fun _ => rfl⟩
    · rw [hslot]
      exact inv.holds resident hmem stored hstored
    · intro idx hevicted
      rw [hit.answer] at hevicted
      cases hevicted
  · obtain ⟨i, claim⟩ := inv.exists_claim valid absent hfree hempty
    refine ⟨?_, fun hhit => ?_, ?_⟩
    · rw [claim.answer]
      constructor
      · exact fun h => absurd h one_ne_zero
      · rintro ⟨resident, hmem, hkey⟩
        exact absurd hkey (absent resident hmem)
    · rw [claim.answer] at hhit
      exact absurd hhit one_ne_zero
    · intro idx hevicted
      rw [claim.answer] at hevicted
      cases hevicted

-- Steps

/-- A hit changes when its entry was used. -/
theorem RunInv.step_hit (inv : RunInv config run) {call : CacheCall} {i : Nat}
    (hit : Hit run.cache.table
      (cacheLookupOrInsert run.cache.config run.cache.table call.key).2 call.key i
      (run.report call.key))
    : RunInv config (run.step call) := by
  have hledger : dropEvicted run call.key = run.ledger := by
    unfold dropEvicted
    rw [hit.answer]
  have hzero : (run.report call.key).compileNeeded = 0 := by rw [hit.answer]
  have hstep : run.step call
      = { cache := { run.cache with
            table := (cacheLookupOrInsert run.cache.config run.cache.table call.key).2 }
          calls := run.calls + 1
          ledger := run.ledger.map fun resident =>
            if resident.key = call.key then { resident with lastUse := run.calls }
            else resident } := by
    unfold CacheRun.step
    simp only [hzero, if_true, hledger]
    rfl
  have hsame (resident : Resident)
      : (if resident.key = call.key then { resident with lastUse := run.calls }
          else resident).key = resident.key
        ∧ (if resident.key = call.key then { resident with lastUse := run.calls }
          else resident).slot = resident.slot
        ∧ (if resident.key = call.key then { resident with lastUse := run.calls }
          else resident).stored = resident.stored := by
    split <;> exact ⟨rfl, rfl, rfl⟩
  rw [hstep]
  refine ⟨inv.sized, hit.inv inv.table, fun key slot => ?_, fun resident hmem stored h => ?_,
    fun slot hslot => inv.unmarked slot (hit.slotStates ▸ hslot)⟩
  · constructor
    · rintro ⟨resident, hmem, hkey, hslot⟩
      obtain ⟨old, hold, rfl⟩ := List.mem_map.mp hmem
      rw [(hsame old).1] at hkey
      rw [(hsame old).2.1] at hslot
      obtain ⟨j, hlive, hj⟩ := (inv.listed key slot).mp ⟨old, hold, hkey, hslot⟩
      exact ⟨j, (hit.live_iff j).mpr hlive, (hit.entries j).1.trans hj.1,
        (hit.entries j).2.1.trans hj.2⟩
    · rintro ⟨j, hlive, hkey, hslot⟩
      obtain ⟨old, hold, hresident⟩ := (inv.listed key slot).mpr
        ⟨j, (hit.live_iff j).mp hlive, (hit.entries j).1.symm.trans hkey,
          (hit.entries j).2.1.symm.trans hslot⟩
      exact ⟨_, List.mem_map_of_mem hold, (hsame old).1.trans hresident.1,
        (hsame old).2.1.trans hresident.2⟩
  · obtain ⟨old, hold, rfl⟩ := List.mem_map.mp hmem
    rw [(hsame old).2.2] at h
    rw [(hsame old).2.1]
    have hholds := inv.holds old hold stored h
    exact ⟨hholds.info, hholds.arrays, hholds.flag, hholds.mask⟩

/-- A claim adds its key; what follows writes to the claimed slot, which no other key has. -/
theorem RunInv.step_claim (inv : RunInv config run) {call : CacheCall} {i : Nat}
    (claim : Claim config run.cache.table
      (cacheLookupOrInsert run.cache.config run.cache.table call.key).2 call.key i
      (run.report call.key))
    : RunInv config (run.step call) := by
  have hledger : dropEvicted run call.key = run.ledger := by
    unfold dropEvicted
    rw [claim.answer]
  have hone : (run.report call.key).compileNeeded = 1 := by rw [claim.answer]
  let handle : GpuCircuitCacheHandle :=
    ⟨(run.report call.key).slot, (run.report call.key).compileNeeded, ⟨0, 0, 0, 0⟩⟩
  let claimed : GpuCircuitCache :=
    { run.cache with
      table := (cacheLookupOrInsert run.cache.config run.cache.table call.key).2 }
  have hstep : run.step call
      = { cache := (applyFollowUp claimed handle call.followUp).1
          calls := run.calls + 1
          ledger := ⟨call.key, (run.report call.key).slot, run.calls,
            (applyFollowUp claimed handle call.followUp).2⟩ :: run.ledger } := by
    unfold CacheRun.step
    simp only [hone, one_ne_zero, if_false, if_true, hledger]
    rfl
  have honly : OnlySlot handle.slot claimed (applyFollowUp claimed handle call.followUp).1 :=
    applyFollowUp_onlySlot call.followUp
  have hclaimed : handle.compileNeeded ≠ 0 := by
    have : handle.compileNeeded = 1 := hone
    omega
  have hresident (resident : Resident) (hmem : resident ∈ run.ledger)
      : resident.slot ≠ handle.slot := by
    obtain ⟨j, hlive, _, hslot⟩ := inv.exists_live hmem
    rw [← hslot]
    exact claim.slot_ne inv.table hlive
  rw [hstep]
  refine ⟨honly.config.trans inv.sized, honly.table ▸ claim.inv inv.table,
    fun key slot => ?_, fun resident hmem stored h => ?_, fun slot hslot => ?_⟩
  · obtain ⟨now, hentry⟩ := claim.entry
    rw [honly.table]
    constructor
    · rintro ⟨resident, hmem, hkey, hslot⟩
      cases List.mem_cons.mp hmem with
      | inl hnew =>
          subst hnew
          exact ⟨i, (claim.live_iff i).mpr (.inl rfl), by rw [hentry]; exact hkey,
            by rw [hentry]; exact hslot⟩
      | inr hold =>
          obtain ⟨j, hlive, hj⟩ := (inv.listed key slot).mp ⟨resident, hold, hkey, hslot⟩
          have hne : j ≠ i := fun hne => hlive (hne ▸ claim.vacant)
          exact ⟨j, (claim.live_iff j).mpr (.inr hlive), by
            rw [claim.entry_of_ne hne]
            exact hj⟩
    · rintro ⟨j, hlive, hkey, hslot⟩
      by_cases hne : j = i
      · subst hne
        rw [hentry] at hkey hslot
        exact ⟨_, List.mem_cons_self, hkey, hslot⟩
      · rw [claim.entry_of_ne hne] at hkey hslot
        obtain ⟨resident, hmem, hold⟩ := (inv.listed key slot).mpr
          ⟨j, ((claim.live_iff j).mp hlive).resolve_left hne, hkey, hslot⟩
        exact ⟨resident, List.mem_cons_of_mem _ hmem, hold⟩
  · cases List.mem_cons.mp hmem with
    | inl hnew =>
        subst hnew
        have hslot : handle.slot < claimed.config.numSlots := inv.sized.symm ▸ claim.free
        have hunmarked : claimed.hasFreeVarMask handle.slot = false :=
          inv.unmarked _ claim.unused
        exact applyFollowUp_holds hclaimed hslot hunmarked call.followUp h
    | inr hold =>
        have hholds := inv.holds resident hold stored h
        refine honly.holdsCircuit (hresident resident hold) ?_
        exact ⟨hholds.info, hholds.arrays, hholds.flag, hholds.mask⟩
  · rw [honly.table] at hslot
    have hne : slot ≠ handle.slot := by
      rintro rfl
      rw [claim.slotStates, Function.update_self] at hslot
      exact absurd hslot one_ne_zero
    rw [claim.slotStates, Function.update_of_ne hne] at hslot
    exact (honly.flags slot hne).trans (inv.unmarked slot hslot)

/-- A call that fits keeps the invariant. -/
theorem RunInv.step (inv : RunInv config run) (valid : config.Valid) {call : CacheCall}
    (fits : CallFits run call.key)
    : RunInv config (run.step call) := by
  rcases fits with ⟨resident, hmem, hkey, _⟩ | ⟨absent, hfree, hempty⟩
  · obtain ⟨i, hit, _⟩ := inv.exists_hit valid hmem hkey
    exact inv.step_hit hit
  · obtain ⟨i, claim⟩ := inv.exists_claim valid absent hfree hempty
    exact inv.step_claim claim

end

/-- Every call of a run fits its state. -/
def AllFit (config : GpuCircuitCacheConfig) (calls : List CacheCall) : Prop :=
  ∀ n call, calls[n]? = some call → CallFits (runCalls config (calls.take n)) call.key

/-- Runs of fitting calls keep the invariant, by induction on the number of calls. -/
theorem runInv_take {config : GpuCircuitCacheConfig} (valid : config.Valid)
    {calls : List CacheCall} (fits : AllFit config calls) (n : Nat) (hn : n ≤ calls.length)
    : RunInv config (runCalls config (calls.take n)) := by
  induction n with
  | zero => exact .start config
  | succ n ih =>
      have hlt : n < calls.length := hn
      have hstep : runCalls config (calls.take (n + 1))
          = (runCalls config (calls.take n)).step calls[n] := by
        rw [List.take_succ_eq_append_getElem hlt, runCalls, List.foldl_append]
        rfl
      rw [hstep]
      exact (ih hlt.le).step valid (fits n _ (List.getElem?_eq_getElem hlt))

/-- A run all of whose calls fit serves every key its own circuit. -/
theorem servesRight_of_allFit {config : GpuCircuitCacheConfig} (valid : config.Valid)
    {calls : List CacheCall} (fits : AllFit config calls)
    : ServesRight config calls := by
  intro n hn
  have inv := runInv_take valid fits n hn
  exact ⟨inv.table.right, fun call hcall => inv.lookupRight valid (fits n call hcall)⟩

/-- A circuit of constants with one level. -/
def constantCircuit (numNodes : Nat) : GpuXgcf where
  info := ⟨numNodes, 1, 0, 0⟩
  numEdges := 0
  arrays
    | .childOffsets => List.replicate (numNodes + 1) 0
    | .childIndices => []
    | .levelOffsets => [0, numNodes]
    | .varLogTrue | .varLogFalse | .freeVarMask => [0]
    | _ => List.replicate numNodes 0

def storeCall (key numNodes : Nat) : CacheCall := ⟨key, .store (constantCircuit numNodes) none⟩

def cacheConfig (numSlots tableSize : Nat) : GpuCircuitCacheConfig :=
  ⟨numSlots, tableSize, 8, 16, 8, 8⟩

/-- Two keys that collide, and a failed compilation, with a slot for each. -/
def fittingCalls : List CacheCall :=
  [storeCall 5 1, storeCall 9 2, ⟨6, .fail .zero⟩, storeCall 9 3]

theorem fittingCalls_servesRight : ServesRight (cacheConfig 3 4) fittingCalls := by
  refine servesRight_of_allFit ⟨by decide, by decide⟩ fun n call h => ?_
  rcases n with _ | _ | _ | _ | n
  · cases h
    exact .inr ⟨by decide +kernel, by decide +kernel, by decide +kernel⟩
  · cases h
    exact .inr ⟨by decide +kernel, by decide +kernel, by decide +kernel⟩
  · cases h
    exact .inr ⟨by decide +kernel, by decide +kernel, by decide +kernel⟩
  · cases h
    exact .inl (by decide +kernel)
  · cases h

/-- Three keys for one slot, then the second key again. -/
def evictingCalls : List CacheCall :=
  [storeCall 0 1, storeCall 2 2, storeCall 4 3, storeCall 2 2]

/-- The evicted slot is free for the next miss, and the second key is served the circuit of
the third.
-/
theorem evictingCalls_not_servesRight : ¬ ServesRight (cacheConfig 1 2) evictingCalls := by
  intro h
  have hlookup := (h 3 (by decide)).2 (storeCall 2 2) rfl
  obtain ⟨resident, hmem, hkey, _, stored, hstored, hholds⟩ :=
    hlookup.serves (by decide +kernel)
  have hledger : ∀ resident ∈ (runCalls (cacheConfig 1 2) (evictingCalls.take 3)).ledger,
      resident.key = 2 → resident.stored.map (·.info.numNodes) = some 2 := by
    decide +kernel
  have hnodes : ((runCalls (cacheConfig 1 2) (evictingCalls.take 3)).cache.slots
      ((runCalls (cacheConfig 1 2) (evictingCalls.take 3)).report 2).slot).info.numNodes
      = 3 := by
    decide +kernel
  have htwo := hledger resident hmem hkey
  rw [hstored, Option.map_some, Option.some.injEq] at htwo
  have hthree : stored.info.numNodes = 3 := by
    rw [← hholds.info]
    exact hnodes
  omega

end Xlog.Prob.GpuCache
