import Xlog.Prob.DiskCacheFormat

/-! Interleaved writers and readers of one cache directory. All writers of a key share one temporary name,
so a read is whole when no write of a key starts while another one is under way.
-/

namespace Xlog.Prob.DiskCache

open Xlog.Foundation

variable {store next : Store} {key : CircuitCacheKey} {artifact : CircuitArtifact}

-- Orderly runs

/-- A write starts when no other process is between its creation of the same temporary file and the
rename, and its arrays are as long as its counts.
-/
def Store.Orderly (store : Store) : Step → Prop
  | .create _ key artifact =>
      artifact.Shaped ∧ ∀ process call, store.phases process = .writing call → call.key ≠ key
  | .write .. | .rename _ | .abandon _ | .evict .. | .finish _ | .evictArtifact _ => True

def Store.OrderlyRun : Store → List Step → Prop
  | _, [] => True
  | store, step :: steps =>
      store.Orderly step ∧ ∀ next, store.step step = some next → next.OrderlyRun steps

-- The invariant

/-- A write under way owns its temporary file, which holds what it has written. -/
structure Store.Owns (store : Store) (call : WriteCall) : Prop where
  named : store.temporaries call.key = some call.file
  content
    : store.contents call.file = (encode call.key call.artifact).take call.offset
  offset : call.offset ≤ (encode call.key call.artifact).length
  shaped : call.artifact.Shaped
  requested : (call.key, call.artifact) ∈ store.requests

/-- Entries are whole, and each temporary file has one name and at most one writer. -/
structure Store.Whole (store : Store) : Prop where
  owns : ∀ process call, store.phases process = .writing call → store.Owns call
  single
    : ∀ process other call call', store.phases process = .writing call →
      store.phases other = .writing call' → call.key = call'.key → process = other
  temporary : ∀ key file, store.temporaries key = some file → file < store.files
  apart
    : ∀ key other file, store.temporaries key = some file →
      store.temporaries other = some file → key = other
  behind : ∀ key other file, store.temporaries key = some file → store.entries other ≠ some file
  entry : ∀ key file, store.entries key = some file → file < store.files
  whole
    : ∀ key file, store.entries key = some file → ∃ artifact, artifact.Shaped
      ∧ (key, artifact) ∈ store.requests ∧ store.contents file = encode key artifact

theorem Store.whole_empty : Store.empty.Whole where
  owns _ _ writing := nomatch writing
  single _ _ _ _ writing := nomatch writing
  temporary _ _ named := nomatch named
  apart _ _ _ named := nomatch named
  behind _ _ _ named := nomatch named
  entry _ _ named := nomatch named
  whole _ _ named := nomatch named

-- The steps

theorem Store.Owns.congr {call : WriteCall} (owns : store.Owns call)
    (named : next.temporaries call.key = store.temporaries call.key)
    (content : next.contents call.file = store.contents call.file)
    (requests : store.requests ⊆ next.requests)
    : next.Owns call where
  named := named.trans owns.named
  content := content.trans owns.content
  offset := owns.offset
  shaped := owns.shaped
  requested := requests owns.requested

/-- A process that stops writing gives its temporary file up. -/
theorem Store.Whole.setPhase (whole : store.Whole) (process : Nat) {phase : Phase}
    (quiet : ∀ call, phase ≠ .writing call)
    : (store.setPhase process phase).Whole := by
  have before : ∀ {other call}, (store.setPhase process phase).phases other = .writing call →
      store.phases other = .writing call := by
    intro other call writing
    simp only [Store.setPhase] at writing
    split at writing
    · exact absurd writing (quiet call)
    · exact writing
  exact {
    owns := fun other call writing =>
      (whole.owns other call (before writing)).congr rfl rfl (List.Subset.refl _)
    single := fun other other' call call' writing writing' =>
      whole.single other other' call call' (before writing) (before writing')
    temporary := whole.temporary
    apart := whole.apart
    behind := whole.behind
    entry := whole.entry
    whole := whole.whole }

theorem Store.removeEntry_some {other : CircuitCacheKey} {file : Nat}
    (named : (store.removeEntry key).entries other = some file)
    : store.entries other = some file := by
  simp only [Store.removeEntry] at named
  split at named
  · cases named
  · exact named

theorem Store.Whole.removeEntry (whole : store.Whole) (key : CircuitCacheKey)
    : (store.removeEntry key).Whole where
  owns other call writing :=
    (whole.owns other call writing).congr rfl rfl (List.Subset.refl _)
  single := whole.single
  temporary := whole.temporary
  apart := whole.apart
  behind other other' file named removed :=
    whole.behind other other' file named (Store.removeEntry_some removed)
  entry other file named := whole.entry other file (Store.removeEntry_some named)
  whole other file named := whole.whole other file (Store.removeEntry_some named)

theorem writeAt_take {bytes : List UInt8} {offset : Nat} (inside : offset ≤ bytes.length)
    (count : Nat)
    : writeAt (bytes.take offset) offset ((bytes.drop offset).take count)
      = bytes.take (offset + ((bytes.drop offset).take count).length) := by
  have size : (bytes.take offset).length = offset := by
    rw [List.length_take, Nat.min_eq_left inside]
  have behind : (bytes.take offset).drop (offset + ((bytes.drop offset).take count).length) = [] :=
    List.drop_eq_nil_of_le (by rw [size]; omega)
  rw [writeAt, behind, size, Nat.sub_self, List.replicate_zero, List.append_nil, List.append_nil,
    List.take_take, Nat.min_self, List.take_add, List.length_take, ← List.take_eq_take_min]

/-- After a write of some bytes at the writer's offset. -/
def Store.wrote (store : Store) (process : Nat) (call : WriteCall) (bytes : List UInt8) : Store :=
  (store.setContent call.file (writeAt (store.contents call.file) call.offset bytes)).setPhase
    process (.writing { call with offset := call.offset + bytes.length })

/-- The next bytes of a write go behind those that it has written. -/
theorem Store.Whole.write (whole : store.Whole) {process : Nat} {call : WriteCall}
    (writing : store.phases process = .writing call) {bytes : List UInt8} {count : Nat}
    (chunk : bytes = ((encode call.key call.artifact).drop call.offset).take count)
    : (store.wrote process call bytes).Whole := by
  have owns := whole.owns process call writing
  have before : ∀ {other call'},
      (if other = process then Phase.writing { call with offset := call.offset + bytes.length }
        else store.phases other) = .writing call' →
        (other = process ∧ call' = { call with offset := call.offset + bytes.length })
        ∨ (other ≠ process ∧ store.phases other = .writing call') := by
    intro other call' writing'
    split at writing'
    · exact .inl ⟨‹_›, (Phase.writing.inj writing').symm⟩
    · exact .inr ⟨‹_›, writing'⟩
  refine ⟨fun other call' writing' => ?_, fun other other' call₁ call₂ writing₁ writing₂ same => ?_,
    whole.temporary, whole.apart, whole.behind, whole.entry, fun other file named => ?_⟩
  · obtain ⟨rfl, rfl⟩ | ⟨different, earlier⟩ := before writing'
    · refine ⟨owns.named, (if_pos rfl).trans ?_, ?_, owns.shaped, owns.requested⟩
      · rw [owns.content, chunk]
        exact writeAt_take owns.offset count
      · have room := owns.offset
        simp only [chunk, List.length_take, List.length_drop]
        omega
    · have owns' := whole.owns other call' earlier
      refine owns'.congr rfl (if_neg fun same => different ?_) (List.Subset.refl _)
      have named := owns'.named
      rw [same] at named
      exact whole.single other process call' call earlier writing
        (whole.apart call'.key call.key call.file named owns.named)
  · obtain ⟨rfl, rfl⟩ | ⟨-, earlier₁⟩ := before writing₁
    · obtain ⟨rfl, rfl⟩ | ⟨-, earlier₂⟩ := before writing₂
      · rfl
      · exact whole.single other other' call call₂ writing earlier₂ same
    · obtain ⟨rfl, rfl⟩ | ⟨-, earlier₂⟩ := before writing₂
      · exact whole.single other other' call₁ call earlier₁ writing same
      · exact whole.single other other' call₁ call₂ earlier₁ earlier₂ same
  · obtain ⟨artifact, shaped, requested, content⟩ := whole.whole other file named
    refine ⟨artifact, shaped, requested, (if_neg ?_).trans content⟩
    rintro rfl
    exact whole.behind call.key other call.file owns.named named

/-- A finished temporary file becomes the entry of its key. -/
theorem Store.Whole.rename (whole : store.Whole) {process : Nat} {call : WriteCall}
    (writing : store.phases process = .writing call)
    (finished : call.offset = (encode call.key call.artifact).length)
    : ((store.renameTemporary call.key call.file).setPhase process .evicting).Whole := by
  have owns := whole.owns process call writing
  have before : ∀ {other call'},
      ((store.renameTemporary call.key call.file).setPhase process .evicting).phases other
        = .writing call' → store.phases other = .writing call' ∧ call'.key ≠ call.key := by
    intro other call' writing'
    simp only [Store.renameTemporary, Store.setPhase] at writing'
    split at writing'
    · cases writing'
    · rename_i different
      refine ⟨writing', fun same => different ?_⟩
      exact whole.single other process call' call writing' writing same
  have temporary : ∀ {other file},
      (store.renameTemporary call.key call.file).temporaries other = some file →
        store.temporaries other = some file ∧ other ≠ call.key := by
    intro other file named
    simp only [Store.renameTemporary] at named
    split at named
    · cases named
    · exact ⟨named, ‹_›⟩
  have entry : ∀ {other file},
      (store.renameTemporary call.key call.file).entries other = some file →
        (other = call.key ∧ file = call.file) ∨ store.entries other = some file := by
    intro other file named
    simp only [Store.renameTemporary] at named
    split at named
    · exact .inl ⟨‹_›, (Option.some.inj named).symm⟩
    · exact .inr named
  refine ⟨fun other call' writing' => ?_, fun other other' call₁ call₂ writing₁ writing₂ => ?_,
    fun other file named => whole.temporary other file (temporary named).1,
    fun other other' file named named' =>
      whole.apart other other' file (temporary named).1 (temporary named').1,
    fun other other' file named behind => ?_, fun other file named => ?_,
    fun other file named => ?_⟩
  · obtain ⟨earlier, different⟩ := before writing'
    refine (whole.owns other call' earlier).congr ?_ rfl (List.Subset.refl _)
    exact if_neg different
  · exact whole.single other other' call₁ call₂ (before writing₁).1 (before writing₂).1
  · obtain ⟨earlier, different⟩ := temporary named
    obtain ⟨-, rfl⟩ | old := entry behind
    · exact different (whole.apart other call.key call.file earlier owns.named)
    · exact whole.behind other other' file earlier old
  · obtain ⟨-, rfl⟩ | old := entry named
    · exact whole.temporary call.key call.file owns.named
    · exact whole.entry other file old
  · obtain ⟨rfl, rfl⟩ | old := entry named
    · refine ⟨call.artifact, owns.shaped, owns.requested, owns.content.trans ?_⟩
      rw [finished, List.take_length]
    · exact whole.whole other file old

/-- After the start of a write. -/
def Store.started (store created : Store) (process : Nat) (key : CircuitCacheKey)
    (artifact : CircuitArtifact) (file : Nat) : Store :=
  { created.setPhase process (.writing ⟨key, artifact, file, 0⟩) with
    requests := store.requests ++ [(key, artifact)] }

/-- The temporary file of a key is empty and has no other name. -/
structure Store.Created (store created : Store) (key : CircuitCacheKey) (file : Nat) : Prop where
  named : created.temporaries key = some file
  others : ∀ other, other ≠ key → created.temporaries other = store.temporaries other
  fresh : created.contents file = []
  contents : ∀ other, other ≠ file → created.contents other = store.contents other
  entries : created.entries = store.entries
  phases : created.phases = store.phases
  files : store.files ≤ created.files ∧ file < created.files
  apart : ∀ other, other ≠ key → store.temporaries other ≠ some file
  behind : ∀ other, store.entries other ≠ some file

theorem Store.Whole.created (whole : store.Whole) (key : CircuitCacheKey)
    : store.Created (store.createTemporary key).1 key (store.createTemporary key).2 := by
  rw [Store.createTemporary]
  split
  · rename_i file named
    refine ⟨named, fun _ _ => rfl, if_pos rfl, fun other different => if_neg different, rfl, rfl,
      ⟨Nat.le_refl _, whole.temporary key file named⟩, fun other different named' => ?_,
      fun other => whole.behind key other file named⟩
    exact different (whole.apart other key file named' named)
  · refine ⟨if_pos rfl, fun other different => if_neg different, if_pos rfl,
      fun other different => if_neg different, rfl, rfl,
      ⟨Nat.le_succ _, Nat.lt_succ_self _⟩, fun other _ named => ?_, fun other named => ?_⟩
    · exact Nat.lt_irrefl _ (whole.temporary other _ named)
    · exact Nat.lt_irrefl _ (whole.entry other _ named)

/-- A write starts with an empty file that no other process uses. -/
theorem Store.Whole.create (whole : store.Whole) {process : Nat} {created : Store} {file : Nat}
    (shaped : artifact.Shaped)
    (free : ∀ other call, store.phases other = .writing call → call.key ≠ key)
    (made : store.Created created key file)
    : (store.started created process key artifact file).Whole := by
  have before : ∀ {other call},
      (if other = process then Phase.writing ⟨key, artifact, file, 0⟩ else created.phases other)
        = .writing call →
        (other = process ∧ call = ⟨key, artifact, file, 0⟩)
        ∨ (store.phases other = .writing call ∧ call.key ≠ key) := by
    intro other call writing
    rw [made.phases] at writing
    split at writing
    · exact .inl ⟨‹_›, (Phase.writing.inj writing).symm⟩
    · exact .inr ⟨writing, free other call writing⟩
  have temporary : ∀ {other file'}, created.temporaries other = some file' →
      (other = key ∧ file' = file) ∨ (other ≠ key ∧ store.temporaries other = some file') := by
    intro other file' named
    by_cases same : other = key
    · subst same
      exact .inl ⟨rfl, Option.some.inj (named.symm.trans made.named)⟩
    · exact .inr ⟨same, made.others other same ▸ named⟩
  have entry : ∀ {other file'}, created.entries other = some file' →
      store.entries other = some file' := by
    intro other file' named
    exact made.entries ▸ named
  refine ⟨fun other call writing => ?_, fun other other' call₁ call₂ writing₁ writing₂ same => ?_,
    fun other file' named => ?_, fun other other' file' named named' => ?_,
    fun other other' file' named behind => ?_, fun other file' named => ?_,
    fun other file' named => ?_⟩
  · obtain ⟨rfl, rfl⟩ | ⟨earlier, different⟩ := before writing
    · exact ⟨made.named, made.fresh, Nat.zero_le _, shaped, List.mem_append_right _ (by simp)⟩
    · have owns := whole.owns other call earlier
      refine owns.congr (made.others call.key different) (made.contents call.file ?_)
        (List.subset_append_left _ _)
      rintro rfl
      exact made.apart call.key different owns.named
  · obtain ⟨rfl, rfl⟩ | ⟨earlier₁, different₁⟩ := before writing₁
    · obtain ⟨rfl, rfl⟩ | ⟨-, different₂⟩ := before writing₂
      · rfl
      · exact absurd same.symm different₂
    · obtain ⟨rfl, rfl⟩ | ⟨earlier₂, -⟩ := before writing₂
      · exact absurd same different₁
      · exact whole.single other other' call₁ call₂ earlier₁ earlier₂ same
  · obtain ⟨-, rfl⟩ | ⟨-, earlier⟩ := temporary named
    · exact made.files.2
    · exact Nat.lt_of_lt_of_le (whole.temporary other file' earlier) made.files.1
  · obtain ⟨rfl, rfl⟩ | ⟨different, earlier⟩ := temporary named
    · obtain ⟨rfl, -⟩ | ⟨different, earlier⟩ := temporary named'
      · rfl
      · exact absurd earlier (made.apart other' different)
    · obtain ⟨rfl, rfl⟩ | ⟨-, earlier'⟩ := temporary named'
      · exact absurd earlier (made.apart other different)
      · exact whole.apart other other' file' earlier earlier'
  · obtain ⟨-, rfl⟩ | ⟨-, earlier⟩ := temporary named
    · exact made.behind other' (entry behind)
    · exact whole.behind other other' file' earlier (entry behind)
  · exact Nat.lt_of_lt_of_le (whole.entry other file' (entry named)) made.files.1
  · obtain ⟨artifact', shaped', requested, content⟩ := whole.whole other file' (entry named)
    refine ⟨artifact', shaped', List.mem_append_left _ requested, ?_⟩
    refine (made.contents file' ?_).trans content
    rintro rfl
    exact made.behind other (entry named)

/-- What a step can do. -/
inductive Store.Stepped (store : Store) : Step → Store → Prop
  | create {process key artifact}
    : store.Stepped (.create process key artifact)
        (store.started (store.createTemporary key).1 process key artifact
          (store.createTemporary key).2)
  | write {process count call} {bytes : List UInt8}
    (writing : store.phases process = .writing call)
    (chunk : bytes = ((encode call.key call.artifact).drop call.offset).take count)
    : store.Stepped (.write process count) (store.wrote process call bytes)
  | rename {process call file} (writing : store.phases process = .writing call)
    (finished : call.offset = (encode call.key call.artifact).length)
    (named : store.temporaries call.key = some file)
    : store.Stepped (.rename process)
        ((store.renameTemporary call.key file).setPhase process .evicting)
  | settle {step process} : store.Stepped step (store.setPhase process .idle)
  | remove {step key} : store.Stepped step (store.removeEntry key)

theorem Store.stepped {step : Step} (took : store.step step = some next)
    : store.Stepped step next := by
  cases step with
  | create process key artifact =>
      rw [Store.step] at took
      split at took
      · exact Option.some.inj took ▸ .create
      · cases took
      · cases took
  | write process count =>
      rw [Store.step] at took
      split at took
      · exact Option.some.inj took ▸ .write ‹_› rfl
      · cases took
      · cases took
  | rename process =>
      rw [Store.step] at took
      split at took
      · split at took
        · split at took
          · exact Option.some.inj took ▸ .rename ‹_› ‹_› ‹_›
          · exact Option.some.inj took ▸ .settle
        · cases took
      · cases took
      · cases took
  | abandon process => exact Option.some.inj took ▸ .settle
  | evict process key =>
      rw [Store.step] at took
      split at took
      · exact Option.some.inj took ▸ .remove
      · cases took
      · cases took
  | finish process =>
      rw [Store.step] at took
      split at took
      · exact Option.some.inj took ▸ .settle
      · cases took
      · cases took
  | evictArtifact key => exact Option.some.inj took ▸ .remove

theorem Store.Whole.step (whole : store.Whole) {step : Step} (orderly : store.Orderly step)
    (stepped : store.Stepped step next)
    : next.Whole := by
  cases stepped with
  | create => exact whole.create orderly.1 orderly.2 (whole.created _)
  | write writing chunk => exact whole.write writing chunk
  | rename writing finished named =>
      obtain rfl := Option.some.inj ((whole.owns _ _ writing).named.symm.trans named)
      exact whole.rename writing finished
  | settle => exact whole.setPhase _ nofun
  | remove => exact whole.removeEntry _

/-- A request comes from the start of a write. -/
theorem Store.Stepped.requests {step : Step} (stepped : store.Stepped step next)
    (requested : (key, artifact) ∈ next.requests)
    : (key, artifact) ∈ store.requests ∨ ∃ process, step = .create process key artifact := by
  cases stepped with
  | create =>
      obtain old | new := List.mem_append.mp requested
      · exact .inl old
      · obtain ⟨rfl, rfl⟩ := Prod.mk.inj (List.mem_singleton.mp new)
        exact .inr ⟨_, rfl⟩
  | write | rename | settle | remove => exact .inl requested

-- The runs

/-- By induction on the steps; the invariant carries it. -/
theorem Store.Whole.run (whole : store.Whole) {steps : List Step}
    (orderly : store.OrderlyRun steps) (ran : store.run steps = some next)
    : next.Whole := by
  induction steps generalizing store with
  | nil =>
      obtain rfl := Option.some.inj ran
      exact whole
  | cons step steps ih =>
      obtain ⟨after, stepped, ran⟩ := Option.bind_eq_some_iff.mp ran
      exact ih (whole.step orderly.1 (Store.stepped stepped)) (orderly.2 after stepped) ran

theorem Store.run_requests {steps : List Step} (ran : store.run steps = some next)
    (requested : (key, artifact) ∈ next.requests)
    : (key, artifact) ∈ store.requests ∨ ∃ process, .create process key artifact ∈ steps := by
  induction steps generalizing store with
  | nil =>
      obtain rfl := Option.some.inj ran
      exact .inl requested
  | cons step steps ih =>
      obtain ⟨after, stepped, ran⟩ := Option.bind_eq_some_iff.mp ran
      obtain old | ⟨process, member⟩ := ih ran
      · obtain older | ⟨process, rfl⟩ := (Store.stepped stepped).requests old
        · exact .inl older
        · exact .inr ⟨process, List.mem_cons_self ..⟩
      · exact .inr ⟨process, List.mem_cons_of_mem _ member⟩

/-- A read of whole entries finds nothing or one requested artifact. -/
theorem Store.Whole.readArtifact (whole : store.Whole) (key : CircuitCacheKey)
    : store.readArtifact key = .ok none
      ∨ ∃ artifact, (key, artifact) ∈ store.requests
        ∧ store.readArtifact key = .ok (some artifact) := by
  rw [Store.readArtifact]
  split
  · exact .inl rfl
  · rename_i file named
    obtain ⟨artifact, shaped, requested, content⟩ := whole.whole key file named
    obtain ⟨valid, -, read⟩ := parseArtifact_encode key shaped
    rw [content, read]
    cases valid with
    | false => exact .inl rfl
    | true => exact .inr ⟨artifact, requested, rfl⟩

-- A write that runs alone

theorem Store.run_append (store : Store) (first second : List Step)
    : store.run (first ++ second) = (store.run first).bind fun after => after.run second :=
  List.foldlM_append

theorem Store.createTemporary_named (store : Store) (key : CircuitCacheKey)
    : (store.createTemporary key).1.temporaries key = some (store.createTemporary key).2
      ∧ (store.createTemporary key).1.contents (store.createTemporary key).2 = [] := by
  rw [Store.createTemporary]
  split
  · exact ⟨‹_›, if_pos rfl⟩
  · exact ⟨if_pos rfl, if_pos rfl⟩

/-- Writes of any sizes, by induction on them, up to the end of the bytes. -/
theorem Store.Owns.writes {process : Nat} {call : WriteCall} (owns : store.Owns call)
    (writing : store.phases process = .writing call) (counts : List Nat)
    : ∃ after call', store.run (counts.map (.write process)) = some after
        ∧ after.phases process = .writing call' ∧ after.Owns call' ∧ call'.key = call.key
        ∧ call'.artifact = call.artifact
        ∧ min (call.offset + counts.sum) (encode call.key call.artifact).length ≤ call'.offset := by
  induction counts generalizing store call with
  | nil => exact ⟨store, call, rfl, writing, owns, rfl, rfl, by simp⟩
  | cons count counts ih =>
      generalize chunk : ((encode call.key call.artifact).drop call.offset).take count = bytes
      have stepped : store.step (.write process count)
          = some (store.wrote process call bytes) := by
        rw [Store.step, writing]
        dsimp only
        rw [chunk, Store.wrote]
      have size : bytes.length
          = min count ((encode call.key call.artifact).length - call.offset) := by
        rw [← chunk, List.length_take, List.length_drop]
      have room := owns.offset
      obtain ⟨after, call', ran, writing', owns', same_key, same_artifact, reached⟩ :=
        @ih (store.wrote process call bytes) { call with offset := call.offset + bytes.length }
          ⟨owns.named, by
            refine (if_pos rfl).trans ?_
            rw [owns.content, ← chunk]
            exact writeAt_take owns.offset count, by dsimp only; omega, owns.shaped,
            owns.requested⟩ (if_pos rfl)
      refine ⟨after, call', ?_, writing', owns', same_key, same_artifact, ?_⟩
      · exact Option.bind_eq_some_iff.mpr ⟨_, stepped, ran⟩
      · dsimp only at reached
        rw [List.sum_cons]
        omega

/-- Removals of other entries, by induction on them. -/
theorem Store.run_evict {process : Nat} (evicting : store.phases process = .evicting)
    {evicted : List CircuitCacheKey} (others : ∀ other ∈ evicted, other ≠ key)
    : ∃ after, store.run (evicted.map (.evict process)) = some after
        ∧ after.phases process = .evicting ∧ after.entries key = store.entries key
        ∧ after.contents = store.contents := by
  induction evicted generalizing store with
  | nil => exact ⟨store, rfl, evicting, rfl, rfl⟩
  | cons other evicted ih =>
      have stepped : store.step (.evict process other) = some (store.removeEntry other) := by
        rw [Store.step, evicting]
      obtain ⟨after, ran, phase, entry, contents⟩ := @ih (store.removeEntry other) evicting
        fun later member => others later (List.mem_cons_of_mem _ member)
      refine ⟨after, Option.bind_eq_some_iff.mpr ⟨_, stepped, ran⟩, phase, entry.trans ?_, contents⟩
      exact if_neg (others other (by simp)).symm

/-- The steps of one write without another process between them. -/
def writeAlone (process : Nat) (key : CircuitCacheKey) (artifact : CircuitArtifact)
    (counts : List Nat) (evicted : List CircuitCacheKey) : List Step :=
  .create process key artifact :: (counts.map (.write process)
    ++ .rename process :: (evicted.map (.evict process) ++ [.finish process]))

/-- It is read back, from whatever store it starts in. -/
theorem Store.readArtifact_writeAlone {process : Nat} (idle : store.phases process = .idle)
    (sound : artifact.Topology) {counts : List Nat}
    (enough : (encode key artifact).length ≤ counts.sum) {evicted : List CircuitCacheKey}
    (others : ∀ other ∈ evicted, other ≠ key)
    : ∃ after, store.run (writeAlone process key artifact counts evicted) = some after
        ∧ after.readArtifact key = .ok (some artifact) := by
  obtain ⟨named, fresh⟩ := store.createTemporary_named key
  generalize made : store.createTemporary key = created at named fresh
  have stepped : store.step (.create process key artifact)
      = some (store.started created.1 process key artifact created.2) := by
    rw [Store.step, idle, made]
    rfl
  obtain ⟨written, call, ran, writing, owns, same_key, same_artifact, reached⟩ :=
    @Store.Owns.writes
      (store.started created.1 process key artifact created.2) process
      ⟨key, artifact, created.2, 0⟩
      ⟨named, fresh, Nat.zero_le _, sound.shaped, List.mem_append_right _ (by simp)⟩
      (if_pos rfl) counts
  have finished : call.offset = (encode call.key call.artifact).length := by
    have room := owns.offset
    rw [same_key, same_artifact] at room ⊢
    dsimp only at reached room ⊢
    omega
  have renamed : written.step (.rename process)
      = some ((written.renameTemporary call.key call.file).setPhase process .evicting) := by
    rw [Store.step, writing]
    dsimp only
    rw [if_pos finished, owns.named]
  generalize renamed_store
    : (written.renameTemporary call.key call.file).setPhase process .evicting = entered at renamed
  have phase : entered.phases process = .evicting := renamed_store ▸ if_pos rfl
  have entry : entered.entries key = some call.file := by
    rw [← renamed_store, ← show call.key = key from same_key]
    exact if_pos rfl
  have content : entered.contents call.file = encode key artifact := by
    rw [← show call.key = key from same_key, ← show call.artifact = artifact from same_artifact,
      ← renamed_store]
    refine owns.content.trans ?_
    rw [finished, List.take_length]
  obtain ⟨kept, evictions, evicting, same_entry, same_contents⟩ := Store.run_evict phase others
  have done : kept.step (.finish process) = some (kept.setPhase process .idle) := by
    rw [Store.step, evicting]
  obtain ⟨valid, accepted, read⟩ := parseArtifact_encode key sound.shaped
  refine ⟨kept.setPhase process .idle, ?_, ?_⟩
  · refine Option.bind_eq_some_iff.mpr ⟨_, stepped, ?_⟩
    rw [← Store.run, Store.run_append, ran, Option.bind_some]
    refine Option.bind_eq_some_iff.mpr ⟨entered, renamed, ?_⟩
    rw [← Store.run, Store.run_append, evictions, Option.bind_some]
    exact Option.bind_eq_some_iff.mpr ⟨_, done, rfl⟩
  · have entry' : (kept.setPhase process .idle).entries key = some call.file :=
      same_entry.trans entry
    have content' : (kept.setPhase process .idle).contents call.file = encode key artifact :=
      (congrFun same_contents call.file).trans content
    rw [Store.readArtifact, entry']
    dsimp only
    rw [content', read, if_pos (accepted.mpr sound)]

-- The cache

/-- In an orderly run every read is nothing or the artifact of one write, a write that runs alone is read
back, and the parser takes every byte string.
-/
theorem readArtifact_orderly {steps : List Step} {store : Store}
    (orderly : Store.empty.OrderlyRun steps) (ran : Store.empty.run steps = some store)
    : (∀ key, store.readArtifact key = .ok none
        ∨ ∃ process artifact, .create process key artifact ∈ steps
          ∧ store.readArtifact key = .ok (some artifact))
      ∧ (∀ (store : Store) process key (artifact : CircuitArtifact) (counts : List Nat) evicted,
        store.phases process = .idle → artifact.Topology →
        (encode key artifact).length ≤ counts.sum → (∀ other ∈ evicted, other ≠ key) →
        ∃ after, store.run (writeAlone process key artifact counts evicted) = some after
          ∧ after.readArtifact key = .ok (some artifact))
      ∧ ∀ data key, Parses (parseArtifact data key) := by
  refine ⟨fun key => ?_,
    fun store process key artifact counts evicted idle sound enough others =>
      Store.readArtifact_writeAlone idle sound enough others,
    parseArtifact_total⟩
  have whole := Store.whole_empty.run orderly ran
  obtain nothing | ⟨artifact, requested, read⟩ := whole.readArtifact key
  · exact .inl nothing
  · obtain none_before | ⟨process, member⟩ := Store.run_requests ran requested
    · cases none_before
    · exact .inr ⟨process, artifact, member, read⟩

def smallKey : CircuitCacheKey := ⟨1, 2, 3, 89⟩

/-- One node without children. -/
def smallArtifact (lit : Int32) (decisionVar : UInt32) : CircuitArtifact :=
  ⟨1, 0, 1, 0, 0, false, [0], [0, 0], [], [lit], [decisionVar], [0], [0], [0], [0, 1], [0]⟩

theorem smallArtifact_topology : (smallArtifact 1 1).Topology := by
  obtain ⟨valid, ran, sound⟩ := (smallArtifact 1 1).topologyIsValid_spec
  exact sound.mp (Except.ok.inj (ran.symm.trans (by decide)))

def smallSteps : List Step := [.create 0 smallKey (smallArtifact 1 1), .write 0 98, .rename 0]

theorem readArtifact_orderly_smallSteps
    : ∃ store, Store.empty.run smallSteps = some store
      ∧ (store.readArtifact smallKey = .ok none
        ∨ ∃ process artifact, .create process smallKey artifact ∈ smallSteps
          ∧ store.readArtifact smallKey = .ok (some artifact))
      ∧ ∃ after,
        Store.empty.run (writeAlone 0 smallKey (smallArtifact 1 1) [60, 38] []) = some after
        ∧ after.readArtifact smallKey = .ok (some (smallArtifact 1 1)) := by
  have orderly : Store.empty.OrderlyRun smallSteps :=
    ⟨⟨smallArtifact_topology.shaped, nofun⟩,
      fun _ _ => ⟨trivial, fun _ _ => ⟨trivial, fun _ _ => trivial⟩⟩⟩
  obtain ⟨store, ran⟩ : ∃ store, Store.empty.run smallSteps = some store := ⟨_, rfl⟩
  obtain ⟨reads, alone, -⟩ := readArtifact_orderly orderly ran
  exact ⟨store, ran, reads smallKey, alone Store.empty 0 smallKey (smallArtifact 1 1) [60, 38] [] rfl
    smallArtifact_topology (by decide) nofun⟩

/-- Two writers of a key in one temporary file: what is read is neither artifact. -/
theorem readArtifact_mixed
    : ¬ ∀ steps store, Store.empty.run steps = some store → ∀ key,
        store.readArtifact key = .ok none
        ∨ ∃ process artifact, .create process key artifact ∈ steps
          ∧ store.readArtifact key = .ok (some artifact) := by
  intro never
  have mixed : (Store.empty.run [.create 0 smallKey (smallArtifact 1 1),
      .create 1 smallKey (smallArtifact 2 2), .write 1 98, .write 0 73, .rename 1]).map
        (·.readArtifact smallKey) = some (.ok (some (smallArtifact 1 2))) := by
    decide +kernel
  obtain ⟨store, ran, read⟩ := Option.map_eq_some_iff.mp mixed
  obtain nothing | ⟨process, artifact, member, read'⟩ := never _ store ran smallKey
  · rw [read] at nothing
    cases nothing
  · obtain rfl : smallArtifact 1 2 = artifact :=
      Option.some.inj (Except.ok.inj (read.symm.trans read'))
    simp only [List.mem_cons, Step.create.injEq, reduceCtorEq, or_false, List.not_mem_nil] at member
    obtain ⟨-, -, same⟩ | ⟨-, -, same⟩ := member
    · exact absurd same (by decide)
    · exact absurd same (by decide)

end Xlog.Prob.DiskCache
