import Xlog.Prob.GpuCircuitCache

/-! What storing a circuit writes: its own arrays in its own slot and nothing else.
-/

namespace Xlog.Prob.GpuCache

open Xlog.Core Xlog.Foundation

section

variable {handle : GpuCircuitCacheHandle} {slots : Nat → SlotContents} {array : CircuitArray}
  {source : List Int}

-- One array

theorem cacheStore_of_ne {slot : Nat} (h : slot ≠ handle.slot)
    : cacheStore handle array source slots slot = slots slot := by
  unfold cacheStore
  split
  · rfl
  · exact Function.update_of_ne h _ _

/-- The stored elements of the array. -/
theorem cacheStore_elements (slots : Nat → SlotContents)
    (claimed : handle.compileNeeded ≠ 0) {i : Nat}
    (hi : i < source.length)
    : (cacheStore handle array source slots handle.slot).arrays array i = source.getD i 0 := by
  simp [cacheStore, claimed, hi]

theorem cacheStore_arrays_of_ne {other : CircuitArray} (h : other ≠ array)
    : (cacheStore handle array source slots handle.slot).arrays other
      = (slots handle.slot).arrays other := by
  unfold cacheStore
  split
  · rfl
  · simp [Function.update_of_ne h]

theorem cacheStore_info
    : (cacheStore handle array source slots handle.slot).info = (slots handle.slot).info := by
  unfold cacheStore
  split
  · rfl
  · simp

theorem cacheStoreMeta_of_ne {config : GpuCircuitCacheConfig} {slot : Nat}
    (h : slot ≠ handle.slot)
    : cacheStoreMeta config handle slots slot = slots slot := by
  unfold cacheStoreMeta
  split
  · rfl
  · exact Function.update_of_ne h _ _

theorem cacheStoreMeta_arrays (config : GpuCircuitCacheConfig)
    (handle : GpuCircuitCacheHandle) (slots : Nat → SlotContents)
    : (cacheStoreMeta config handle slots handle.slot).arrays = (slots handle.slot).arrays := by
  unfold cacheStoreMeta
  split
  · rfl
  · simp

theorem cacheStoreMeta_info {config : GpuCircuitCacheConfig}
    (handle : GpuCircuitCacheHandle) (slots : Nat → SlotContents)
    (claimed : handle.compileNeeded ≠ 0) (hslot : handle.slot < config.numSlots)
    : (cacheStoreMeta config handle slots handle.slot).info = handle.info := by
  simp [cacheStoreMeta, claimed, Nat.not_le.mpr hslot]

-- All arrays

variable {names : List CircuitArray} {numEdges : Nat} {arrays : CircuitArray → List Int}

theorem storeArrays_of_ne {slot : Nat} (h : slot ≠ handle.slot)
    : storeArrays handle names numEdges arrays slots slot = slots slot := by
  induction names generalizing slots with
  | nil => rfl
  | cons name names ih => exact ih.trans (cacheStore_of_ne h)

theorem storeArrays_arrays_of_notMem {name : CircuitArray} (h : name ∉ names)
    : (storeArrays handle names numEdges arrays slots handle.slot).arrays name
      = (slots handle.slot).arrays name := by
  induction names generalizing slots with
  | nil => rfl
  | cons head names ih =>
      obtain ⟨hhead, hnames⟩ := not_or.mp (mt List.mem_cons.mpr h)
      exact (ih hnames).trans (cacheStore_arrays_of_ne hhead)

/-- Each named array has its used elements, by induction on the names. -/
theorem storeArrays_elements (handle : GpuCircuitCacheHandle)
    (claimed : handle.compileNeeded ≠ 0) (distinct : names.Nodup)
    {name : CircuitArray} {i : Nat}
    (hi : i < (storedArrays names handle.info numEdges arrays name).length)
    : (storeArrays handle names numEdges arrays slots handle.slot).arrays name i
      = (storedArrays names handle.info numEdges arrays name).getD i 0 := by
  induction names generalizing slots with
  | nil => simp [storedArrays] at hi
  | cons head names ih =>
      obtain ⟨hnotMem, hnodup⟩ := List.nodup_cons.mp distinct
      by_cases hname : name ∈ names
      · have hstored : storedArrays (head :: names) handle.info numEdges arrays name
            = storedArrays names handle.info numEdges arrays name := by
          simp [storedArrays, hname]
        rw [hstored] at hi ⊢
        exact ih hnodup hi
      · by_cases hhead : name = head
        · subst hhead
          have hstored : storedArrays (name :: names) handle.info numEdges arrays name
              = (arrays name).take (usedCount handle.info numEdges name) := by
            simp [storedArrays]
          rw [hstored] at hi ⊢
          exact (congrFun (storeArrays_arrays_of_notMem hname) i).trans
            (cacheStore_elements _ claimed hi)
        · simp [storedArrays, hname, hhead] at hi

end

-- Follow-ups

/-- Only the claimed slot changes. -/
structure OnlySlot (slot : Nat) (cache cache' : GpuCircuitCache) : Prop where
  config : cache'.config = cache.config
  table : cache'.table = cache.table
  slots : ∀ other ≠ slot, cache'.slots other = cache.slots other
  flags : ∀ other ≠ slot, cache'.hasFreeVarMask other = cache.hasFreeVarMask other

theorem OnlySlot.refl {slot : Nat} (cache : GpuCircuitCache) : OnlySlot slot cache cache :=
  ⟨rfl, rfl, fun _ _ => rfl, fun _ _ => rfl⟩

theorem OnlySlot.trans {slot : Nat} {first second third : GpuCircuitCache}
    (h₁ : OnlySlot slot first second) (h₂ : OnlySlot slot second third)
    : OnlySlot slot first third where
  config := h₂.config.trans h₁.config
  table := h₂.table.trans h₁.table
  slots other hne := (h₂.slots other hne).trans (h₁.slots other hne)
  flags other hne := (h₂.flags other hne).trans (h₁.flags other hne)

/-- A circuit in another slot is not touched. -/
theorem OnlySlot.holdsCircuit {slot other : Nat} {cache cache' : GpuCircuitCache}
    {stored : StoredCircuit} (h : OnlySlot slot cache cache') (hne : other ≠ slot)
    (holds : HoldsCircuit cache other stored)
    : HoldsCircuit cache' other stored := by
  have hslots := h.slots other hne
  exact ⟨by rw [hslots, holds.info], by rw [hslots]; exact holds.arrays,
    by rw [h.flags other hne, holds.flag], by rw [hslots]; exact holds.mask⟩

section

variable {cache cache' : GpuCircuitCache} {handle handle' : GpuCircuitCacheHandle}

theorem update_flag_of_ne {flags : Nat → Bool} {slot other count : Nat} {flag : Bool}
    (h : other ≠ slot)
    : (if slot < count then Function.update flags slot flag else flags) other
      = flags other := by
  split
  · exact Function.update_of_ne h _ _
  · rfl

theorem storeFromXgcf_onlySlot {xgcf : GpuXgcf}
    (h : storeFromXgcf cache handle xgcf = .ok (handle', cache'))
    : OnlySlot handle.slot cache cache' := by
  obtain ⟨_, _, h⟩ := bind_eq_ok.mp h
  obtain ⟨_, _, h⟩ := bind_eq_ok.mp h
  cases h
  refine ⟨rfl, rfl, fun other hne => ?_, fun _ _ => rfl⟩
  have hne' : other ≠ ({ handle with info := xgcf.info } : GpuCircuitCacheHandle).slot := hne
  dsimp only
  rw [cacheStoreMeta_of_ne hne', storeArrays_of_ne hne']

theorem storeFreeVarMask_onlySlot {mask : List Int}
    (h : storeFreeVarMask cache handle mask = .ok cache')
    : OnlySlot handle.slot cache cache' := by
  unfold storeFreeVarMask at h
  split at h
  · cases h
  split at h
  · cases h
  cases h
  exact ⟨rfl, rfl, fun other hne => cacheStore_of_ne hne,
    fun other hne => update_flag_of_ne hne⟩

theorem restoreFromHostArrays_onlySlot {artifact : CircuitArtifact}
    (h : restoreFromHostArrays cache handle artifact = .ok (handle', cache'))
    : OnlySlot handle.slot cache cache' := by
  obtain ⟨_, _, h⟩ := bind_eq_ok.mp h
  obtain ⟨_, _, h⟩ := bind_eq_ok.mp h
  obtain ⟨_, _, h⟩ := bind_eq_ok.mp h
  cases h
  refine ⟨rfl, rfl, fun other hne => ?_, fun other hne => update_flag_of_ne hne⟩
  have hne' : other ≠ ({ handle with info := artifact.info } : GpuCircuitCacheHandle).slot :=
    hne
  dsimp only
  split
  · rw [cacheStore_of_ne hne', cacheStore_of_ne hne', cacheStoreMeta_of_ne hne',
      storeArrays_of_ne hne']
  · rw [cacheStore_of_ne hne', cacheStoreMeta_of_ne hne', storeArrays_of_ne hne']

/-- After a miss the claimed slot alone changes. -/
theorem applyFollowUp_onlySlot (followUp : FollowUp)
    : OnlySlot handle.slot cache (applyFollowUp cache handle followUp).1 := by
  cases followUp with
  | store xgcf mask =>
      cases hstore : storeFromXgcf cache handle xgcf with
      | error _ =>
          simp only [applyFollowUp, hstore]
          exact .refl cache
      | ok result =>
          have hslot : result.1.slot = handle.slot := by
            obtain ⟨_, _, h⟩ := bind_eq_ok.mp hstore
            obtain ⟨_, _, h⟩ := bind_eq_ok.mp h
            cases h
            rfl
          have hstored := storeFromXgcf_onlySlot hstore
          cases mask with
          | none =>
              simp only [applyFollowUp, hstore, Option.map_none]
              exact hstored
          | some mask =>
              cases hmask : storeFreeVarMask result.2 result.1 mask with
              | error _ =>
                  simp only [applyFollowUp, hstore, Option.map_some, hmask]
                  exact hstored
              | ok masked =>
                  simp only [applyFollowUp, hstore, Option.map_some, hmask]
                  exact hstored.trans (hslot ▸ storeFreeVarMask_onlySlot hmask)
  | restore artifact =>
      cases hrestore : restoreFromHostArrays cache handle artifact with
      | error _ =>
          simp only [applyFollowUp, hrestore]
          exact .refl cache
      | ok result =>
          simp only [applyFollowUp, hrestore]
          exact restoreFromHostArrays_onlySlot hrestore
  | fail left =>
      refine ⟨rfl, rfl, fun other hne => ?_, fun _ _ => rfl⟩
      simp only [applyFollowUp]
      split
      · rfl
      · exact Function.update_of_ne hne _ _

-- Stored circuits

theorem topologyArrays_nodup : topologyArrays.Nodup := by decide

theorem storedNames_nodup : (topologyArrays ++ weightArrays).Nodup := by decide

variable (claimed : handle.compileNeeded ≠ 0) (hslot : handle.slot < cache.config.numSlots)

include claimed hslot

/-- A stored circuit is in its slot; the host's mark of the mask is the one from before. -/
theorem storeFromXgcf_holds {xgcf : GpuXgcf}
    (unmarked : cache.hasFreeVarMask handle.slot = false)
    (h : storeFromXgcf cache handle xgcf = .ok (handle', cache'))
    : HoldsCircuit cache' handle.slot
        ⟨xgcf.info, storedArrays (topologyArrays ++ weightArrays) xgcf.info xgcf.numEdges
          xgcf.arrays, none⟩ := by
  obtain ⟨_, _, h⟩ := bind_eq_ok.mp h
  obtain ⟨_, _, h⟩ := bind_eq_ok.mp h
  cases h
  let stored : GpuCircuitCacheHandle := { handle with info := xgcf.info }
  refine ⟨cacheStoreMeta_info stored _ claimed hslot, fun name i hi => ?_, unmarked,
    fun _ hnone => by cases hnone⟩
  exact (congrFun (congrFun (cacheStoreMeta_arrays cache.config stored _) name) i).trans
    (storeArrays_elements stored claimed storedNames_nodup hi)

/-- A mask is added to the circuit in the slot. -/
theorem storeFreeVarMask_holds {mask : List Int} {stored : StoredCircuit}
    (holds : HoldsCircuit cache handle.slot stored)
    (unmasked : stored.arrays .freeVarMask = [])
    (h : storeFreeVarMask cache handle mask = .ok cache')
    : HoldsCircuit cache' handle.slot { stored with mask := some mask } := by
  unfold storeFreeVarMask at h
  split at h
  · cases h
  split at h
  · cases h
  cases h
  refine ⟨cacheStore_info.trans holds.info, fun name i hi => ?_, by simp,
    fun other hother i hi => ?_⟩
  · have hname : name ≠ .freeVarMask := by
      rintro rfl
      simp [unmasked] at hi
    exact (congrFun (cacheStore_arrays_of_ne hname) i).trans (holds.arrays name i hi)
  · obtain rfl := Option.some.inj hother
    exact cacheStore_elements _ claimed hi

/-- A restored circuit is in its slot with its mask. -/
theorem restoreFromHostArrays_holds {artifact : CircuitArtifact}
    (h : restoreFromHostArrays cache handle artifact = .ok (handle', cache'))
    : HoldsCircuit cache' handle.slot
        ⟨artifact.info,
          storedArrays topologyArrays artifact.info artifact.numEdges artifact.arrays,
          if artifact.hasFreeVarMask && !artifact.freeVarMask.isEmpty then
            some (artifact.freeVarMask.take (artifact.info.maxVar + 1))
          else none⟩ := by
  obtain ⟨_, _, h⟩ := bind_eq_ok.mp h
  obtain ⟨_, _, h⟩ := bind_eq_ok.mp h
  obtain ⟨_, _, h⟩ := bind_eq_ok.mp h
  cases h
  let stored : GpuCircuitCacheHandle := { handle with info := artifact.info }
  -- the mask is written after the topology, to an array of its own
  have hbefore (slots : Nat → SlotContents) (source : List Int) (name : CircuitArray)
      (hname : name ≠ .freeVarMask)
      : (cacheStore stored .freeVarMask source slots handle.slot).arrays name
        = (slots handle.slot).arrays name :=
    cacheStore_arrays_of_ne hname
  have htopology (name : CircuitArray) (i : Nat)
      (hi : i < (storedArrays topologyArrays artifact.info artifact.numEdges artifact.arrays
        name).length)
      : name ≠ .freeVarMask
        ∧ (cacheStoreMeta cache.config stored (storeArrays stored topologyArrays
            artifact.numEdges artifact.arrays cache.slots) handle.slot).arrays name i
          = (storedArrays topologyArrays artifact.info artifact.numEdges artifact.arrays
            name).getD i 0 := by
    constructor
    · rintro rfl
      simp [storedArrays, topologyArrays] at hi
    · exact (congrFun (congrFun (cacheStoreMeta_arrays cache.config stored _) name) i).trans
        (storeArrays_elements stored claimed topologyArrays_nodup hi)
  have hinfo := cacheStoreMeta_info stored (storeArrays stored topologyArrays
    artifact.numEdges artifact.arrays cache.slots) claimed hslot
  cases hasMask : artifact.hasFreeVarMask && !artifact.freeVarMask.isEmpty with
  | false =>
      refine ⟨cacheStore_info.trans hinfo, fun name i hi => ?_,
        by simp [hslot], fun _ hnone => by cases hnone⟩
      obtain ⟨hname, helement⟩ := htopology name i hi
      exact (congrFun (hbefore _ _ name hname) i).trans helement
  | true =>
      refine ⟨cacheStore_info.trans
          (cacheStore_info.trans hinfo), fun name i hi => ?_,
        by simp [hslot], fun other hother i hi => ?_⟩
      · obtain ⟨hname, helement⟩ := htopology name i hi
        exact (congrFun (hbefore _ _ name hname) i).trans
          ((congrFun (hbefore _ _ name hname) i).trans helement)
      · obtain rfl := Option.some.inj hother
        exact cacheStore_elements _ claimed hi

/-- What a follow-up reports as stored, the slot holds. -/
theorem applyFollowUp_holds (unmarked : cache.hasFreeVarMask handle.slot = false)
    (followUp : FollowUp) {stored : StoredCircuit}
    (h : (applyFollowUp cache handle followUp).2 = some stored)
    : HoldsCircuit (applyFollowUp cache handle followUp).1 handle.slot stored := by
  cases followUp with
  | store xgcf mask =>
      cases hstore : storeFromXgcf cache handle xgcf with
      | error _ => simp [applyFollowUp, hstore] at h
      | ok result =>
          have hholds := storeFromXgcf_holds claimed hslot unmarked hstore
          have hresult : result.1.slot = handle.slot ∧ result.1.compileNeeded ≠ 0
              ∧ result.2.config = cache.config := by
            obtain ⟨_, _, hrun⟩ := bind_eq_ok.mp hstore
            obtain ⟨_, _, hrun⟩ := bind_eq_ok.mp hrun
            cases hrun
            exact ⟨rfl, claimed, rfl⟩
          obtain ⟨hsame, hclaimed, hconfig⟩ := hresult
          cases mask with
          | none =>
              simp only [applyFollowUp, hstore, Option.map_none, Option.some.injEq] at h ⊢
              exact h ▸ hholds
          | some mask =>
              cases hmask : storeFreeVarMask result.2 result.1 mask with
              | error _ =>
                  simp only [applyFollowUp, hstore, Option.map_some, hmask,
                    Option.some.injEq] at h ⊢
                  exact h ▸ hholds
              | ok masked =>
                  simp only [applyFollowUp, hstore, Option.map_some, hmask,
                    Option.some.injEq] at h ⊢
                  subst h
                  rw [← hsame] at hholds ⊢
                  refine storeFreeVarMask_holds hclaimed ?_ hholds ?_ hmask
                  · rw [hsame, hconfig]
                    exact hslot
                  · simp [storedArrays, topologyArrays, weightArrays]
  | restore artifact =>
      cases hrestore : restoreFromHostArrays cache handle artifact with
      | error _ => simp [applyFollowUp, hrestore] at h
      | ok result =>
          simp only [applyFollowUp, hrestore, Option.some.injEq] at h ⊢
          subst h
          exact restoreFromHostArrays_holds claimed hslot hrestore
  | fail left => simp [applyFollowUp] at h

end

end Xlog.Prob.GpuCache
