import Mathlib.Data.List.Forall2

/-! Rules for `Except` computations: peeling a bind apart, and an invariant rule for loops
over a list that either always succeed or are known to have succeeded.
-/

namespace Xlog.Foundation

universe u

variable {ε : Type*} {α β σ : Type u}

/-- A successful bind is a success of both parts. -/
theorem bind_eq_ok {x : Except ε α} {f : α → Except ε β} {b : β}
    : (x >>= f) = .ok b ↔ ∃ a, x = .ok a ∧ f a = .ok b := by
  cases x with
  | error e => simp [bind, Except.bind]
  | ok a => simp [bind, Except.bind]

@[simp] theorem ok_bind {a : α} {f : α → Except ε β}
    : ((.ok a : Except ε α) >>= f) = f a :=
  rfl

@[simp] theorem error_bind {e : ε} {f : α → Except ε β}
    : ((.error e : Except ε α) >>= f) = .error e :=
  rfl

@[simp] theorem pure_eq_ok {a : α}
    : (pure a : Except ε α) = .ok a :=
  rfl

/-- A loop whose body succeeds under an invariant on the items done so far succeeds and
ends in the invariant for all items, by list induction.
-/
theorem foldlM_ok (body : σ → α → Except ε σ) (inv : List α → σ → Prop) (items : List α)
    (state : σ) (start : inv [] state)
    (step : ∀ done item state,
      item ∈ items → inv done state
      → ∃ state', body state item = .ok state' ∧ inv (done ++ [item]) state')
    : ∃ state', items.foldlM body state = .ok state' ∧ inv items state' := by
  suffices hfrom : ∀ done state, inv done state →
      ∃ state', items.foldlM body state = .ok state' ∧ inv (done ++ items) state' by
    simpa using hfrom [] state start
  clear start state
  induction items with
  | nil => exact fun done state h => ⟨state, rfl, by simpa using h⟩
  | cons head tail ih =>
      intro done state h
      obtain ⟨mid, hb, hm⟩ := step done head state (by simp) h
      obtain ⟨last, hl, hinv⟩ :=
        ih (fun d i s hi => step d i s (List.mem_cons_of_mem _ hi)) (done ++ [head]) mid hm
      refine ⟨last, ?_, by simpa using hinv⟩
      simp only [List.foldlM_cons, hb, ok_bind]
      exact hl

/-- A loop that succeeded kept every invariant its body keeps, by list induction. -/
theorem foldlM_inv (body : σ → α → Except ε σ) (inv : List α → σ → Prop) (items : List α)
    {state last : σ} (start : inv [] state)
    (step : ∀ done item state state',
      item ∈ items → inv done state → body state item = .ok state'
      → inv (done ++ [item]) state')
    (run : items.foldlM body state = .ok last)
    : inv items last := by
  suffices hfrom : ∀ done state, inv done state → items.foldlM body state = .ok last →
      inv (done ++ items) last by
    simpa using hfrom [] state start run
  clear start run state
  induction items with
  | nil =>
      intro done state h run
      obtain rfl : state = last := by simpa using run
      simpa using h
  | cons head tail ih =>
      intro done state h run
      simp only [List.foldlM_cons, bind_eq_ok] at run
      obtain ⟨mid, hb, hl⟩ := run
      have hm := step done head state mid (by simp) h hb
      have hlast := ih (fun d i s s' hi => step d i s s' (List.mem_cons_of_mem _ hi))
        (done ++ [head]) mid hm hl
      simpa using hlast

/-- A pure loop keeps every invariant its body keeps, by list induction. -/
theorem foldl_inv {α : Type*} {σ : Type*} (body : σ → α → σ) (inv : List α → σ → Prop)
    (items : List α) (state : σ) (start : inv [] state)
    (step : ∀ done item state,
      item ∈ items → inv done state → inv (done ++ [item]) (body state item))
    : inv items (items.foldl body state) := by
  suffices hfrom : ∀ done state, inv done state →
      inv (done ++ items) (items.foldl body state) by
    simpa using hfrom [] state start
  clear start state
  induction items with
  | nil => exact fun done state h => by simpa using h
  | cons head tail ih =>
      intro done state h
      have hlast := ih (fun d i s hi => step d i s (List.mem_cons_of_mem _ hi))
        (done ++ [head]) (body state head) (step done head state (by simp) h)
      simpa using hlast

/-- Appending items one by one appends them all. -/
theorem foldl_concat {ι : Type*} (items start : List ι)
    : items.foldl (fun done item => done ++ [item]) start = start ++ items := by
  induction items generalizing start with
  | nil => simp
  | cons item items ih => simp [ih]

/-- Putting items into numbered buckets gives each bucket the items of its number in order,
by list induction.
-/
theorem foldl_modify_getElem? {ι : Type*} {β : Type*} (key : ι → Option Nat)
    (put : β → ι → β) (items : List ι) (buckets : List β) (i : Nat)
    : (items.foldl (fun buckets item =>
        match key item with
        | some k => buckets.modify k (put · item)
        | none => buckets) buckets)[i]?
      = buckets[i]?.map fun b => (items.filter (key · = some i)).foldl put b := by
  induction items generalizing buckets with
  | nil => simp
  | cons item items ih =>
      rw [List.foldl_cons, ih]
      cases hk : key item with
      | none => simp [hk]
      | some k =>
          by_cases hi : k = i
          · subst hi
            simp [hk, Function.comp_def]
          · simp [hk, hi]

/-- A map whose body always succeeds collects the pure results, by list induction. -/
theorem mapM_ok (body : α → Except ε β) (value : α → β) (items : List α)
    (h : ∀ item ∈ items, body item = .ok (value item))
    : items.mapM body = .ok (items.map value) := by
  induction items with
  | nil => rfl
  | cons head tail ih =>
      rw [List.mapM_cons, h head (by simp), ok_bind,
        ih fun i hi => h i (List.mem_cons_of_mem _ hi)]
      rfl

/-- A map that succeeded ran its body on every item, by list induction. -/
theorem forall₂_of_mapM {body : α → Except ε β} {items : List α} {results : List β}
    (h : items.mapM body = .ok results)
    : List.Forall₂ (fun item result => body item = .ok result) items results := by
  induction items generalizing results with
  | nil =>
      obtain rfl : [] = results := by simpa using h
      exact .nil
  | cons head tail ih =>
      rw [List.mapM_cons] at h
      obtain ⟨b, hb, h⟩ := bind_eq_ok.mp h
      obtain ⟨bs, hbs, h⟩ := bind_eq_ok.mp h
      obtain rfl : b :: bs = results := by simpa using h
      exact .cons hb (ih hbs)

/-- Every result of a successful map comes from some item. -/
theorem exists_of_mem_mapM {body : α → Except ε β} {items : List α} {results : List β}
    (h : items.mapM body = .ok results) {result : β} (hr : result ∈ results)
    : ∃ item ∈ items, body item = .ok result := by
  obtain ⟨i, hlt, rfl⟩ := List.getElem_of_mem hr
  have hf := forall₂_of_mapM h
  have hlen := hf.length_eq
  exact ⟨items[i], List.getElem_mem _, hf.get (hlen ▸ hlt) hlt⟩

/-- Every item of a successful map has a result. -/
theorem exists_result_of_mapM {body : α → Except ε β} {items : List α} {results : List β}
    (h : items.mapM body = .ok results) {item : α} (hi : item ∈ items)
    : ∃ result ∈ results, body item = .ok result := by
  obtain ⟨i, hlt, rfl⟩ := List.getElem_of_mem hi
  have hf := forall₂_of_mapM h
  have hlen := hf.length_eq
  exact ⟨results[i], List.getElem_mem _, hf.get hlt (hlen ▸ hlt)⟩

/-- A map succeeds exactly when its body does on every item, by list induction. -/
theorem exists_mapM_ok_iff {body : α → Except ε β} {items : List α}
    : (∃ results, items.mapM body = .ok results) ↔ ∀ item ∈ items, ∃ result, body item = .ok result := by
  constructor
  · rintro ⟨results, h⟩ item hi
    obtain ⟨result, _, hr⟩ := exists_result_of_mapM h hi
    exact ⟨result, hr⟩
  · intro h
    induction items with
    | nil => exact ⟨[], rfl⟩
    | cons head tail ih =>
        obtain ⟨hhead, htail⟩ := List.forall_mem_cons.mp h
        obtain ⟨result, hr⟩ := hhead
        obtain ⟨results, hrs⟩ := ih htail
        exact ⟨result :: results, by rw [List.mapM_cons, hr, ok_bind, hrs]; rfl⟩

/-- A check of every item passes when each item does, by list induction. -/
theorem forM_eq_ok {body : α → Except ε PUnit} {items : List α}
    : items.forM body = .ok ⟨⟩ ↔ ∀ item ∈ items, body item = .ok ⟨⟩ := by
  induction items with
  | nil => simp
  | cons head tail ih =>
      rw [List.forM, bind_eq_ok, List.forall_mem_cons, ← ih]
      exact ⟨fun ⟨_, hh, ht⟩ => ⟨hh, ht⟩, fun ⟨hh, ht⟩ => ⟨_, hh, ht⟩⟩

-- Outcomes

/-- The computation succeeds with the postcondition or fails with an allowed error. -/
def Ends (allowed : ε → Prop) (post : α → Prop) : Except ε α → Prop
  | .ok a => post a
  | .error e => allowed e

theorem Ends.mono {allowed : ε → Prop} {post post' : α → Prop} {x : Except ε α}
    (h : Ends allowed post x) (weaker : ∀ a, post a → post' a)
    : Ends allowed post' x := by
  cases x with
  | ok a => exact weaker a h
  | error e => exact h

theorem Ends.weaken {allowed allowed' : ε → Prop} {post : α → Prop} {x : Except ε α}
    (h : Ends allowed post x) (more : ∀ e, allowed e → allowed' e)
    : Ends allowed' post x := by
  cases x with
  | ok a => exact h
  | error e => exact more e h

/-- Sequential composition. -/
theorem Ends.bind {allowed : ε → Prop} {post : α → Prop} {post' : β → Prop} {x : Except ε α}
    {f : α → Except ε β} (h : Ends allowed post x) (next : ∀ a, post a → Ends allowed post' (f a))
    : Ends allowed post' (x >>= f) := by
  cases x with
  | ok a => exact next a h
  | error e => exact h

/-- A loop keeps an invariant on the items before the current one, by list induction. -/
theorem Ends.foldlM {allowed : ε → Prop} {body : σ → α → Except ε σ} (inv : List α → σ → Prop)
    {items : List α} {state : σ} (start : inv [] state)
    (step : ∀ before item after state, items = before ++ item :: after → inv before state →
      Ends allowed (inv (before ++ [item])) (body state item))
    : Ends allowed (inv items) (items.foldlM body state) := by
  suffices hfrom : ∀ rest before state, items = before ++ rest → inv before state →
      Ends allowed (inv items) (rest.foldlM body state) from
    hfrom items [] state rfl start
  intro rest
  induction rest with
  | nil =>
      intro before state heq h
      obtain rfl : items = before := by simpa using heq
      exact h
  | cons item rest ih =>
      intro before state heq h
      rw [List.foldlM_cons]
      refine (step before item rest state heq h).bind ?_
      intro state' h'
      exact ih (before ++ [item]) state' (by simpa using heq) h'

/-- A map that ends well on every item gives a result for each, by list induction. -/
theorem Ends.mapM {allowed : ε → Prop} {body : α → Except ε β} {post : α → β → Prop}
    {items : List α} (step : ∀ item ∈ items, Ends allowed (post item) (body item))
    : Ends allowed (List.Forall₂ post items) (items.mapM body) := by
  induction items with
  | nil => exact List.Forall₂.nil
  | cons item items ih =>
      rw [List.mapM_cons]
      refine (step item (by simp)).bind ?_
      intro result hr
      refine (ih fun i hi => step i (List.mem_cons_of_mem _ hi)).bind ?_
      intro results hrs
      exact List.Forall₂.cons hr hrs

/-- A `mapM` whose partial function has a value on every item collects the values, by list induction.
-/
theorem mapM_some {body : α → Option β} (value : α → β) (items : List α)
    (h : ∀ item ∈ items, body item = some (value item))
    : items.mapM body = some (items.map value) := by
  induction items with
  | nil => rfl
  | cons head tail ih =>
      rw [List.mapM_cons, h head (by simp), ih fun i hi => h i (List.mem_cons_of_mem _ hi)]
      rfl

/-- A successful `mapM` of partial functions gives a result for each item, by list induction. -/
theorem forall₂_of_mapM_some {body : α → Option β} {items : List α} {results : List β}
    (h : items.mapM body = some results)
    : List.Forall₂ (fun item result => body item = some result) items results := by
  induction items generalizing results with
  | nil =>
      obtain rfl : results = [] := by simpa using h.symm
      exact .nil
  | cons head tail ih =>
      simp only [List.mapM_cons, Option.pure_def, Option.bind_eq_bind,
        Option.bind_eq_some_iff] at h
      obtain ⟨first, hf, rest, hr, heq⟩ := h
      obtain rfl := Option.some.inj heq
      exact .cons hf (ih hr)

/-- Every item of a successful `mapM` of partial functions has a result. -/
theorem exists_result_of_mapM_some {body : α → Option β} {items : List α} {results : List β}
    (h : items.mapM body = some results) {item : α} (hi : item ∈ items)
    : ∃ result ∈ results, body item = some result := by
  obtain ⟨i, hlt, rfl⟩ := List.getElem_of_mem hi
  have hf := forall₂_of_mapM_some h
  have hlen := hf.length_eq
  exact ⟨results[i], List.getElem_mem _, hf.get hlt (hlen ▸ hlt)⟩

/-- A loop over optional results that succeeded kept every invariant its body keeps, by list
induction.
-/
theorem foldlM_some_inv {body : σ → α → Option σ} (inv : List α → σ → Prop) {items : List α}
    {state last : σ} (start : inv [] state)
    (step : ∀ done item state state',
      item ∈ items → inv done state → body state item = some state'
      → inv (done ++ [item]) state')
    (run : items.foldlM body state = some last)
    : inv items last := by
  suffices hfrom : ∀ done state, inv done state → items.foldlM body state = some last
      → inv (done ++ items) last by
    simpa using hfrom [] state start run
  clear start run state
  induction items with
  | nil =>
      intro done state h run
      cases run
      simpa using h
  | cons head tail ih =>
      intro done state h run
      rw [List.foldlM_cons] at run
      obtain ⟨middle, hbody, hrest⟩ := Option.bind_eq_some_iff.mp run
      have hmiddle := step done head state middle (List.mem_cons_self ..) h hbody
      have hlast
        := ih (fun done item state state' hmem => step done item state state'
            (List.mem_cons_of_mem _ hmem)) (done ++ [head]) middle hmiddle hrest
      simpa using hlast

/-- A loop whose steps keep an invariant and fail by a condition of their item alone succeeds
exactly when every item meets the condition, by list induction.
-/
theorem isSome_foldlM_iff {body : σ → α → Option σ} (inv : σ → Prop) {allowed : α → Prop}
    (keeps : ∀ state item next, inv state → body state item = some next → inv next)
    (runs : ∀ state item, inv state → ((body state item).isSome ↔ allowed item))
    (items : List α) {state : σ} (start : inv state)
    : (items.foldlM body state).isSome ↔ ∀ item ∈ items, allowed item := by
  induction items generalizing state with
  | nil => simp
  | cons head tail ih =>
      rw [List.foldlM_cons, List.forall_mem_cons, ← runs state head start]
      cases hbody : body state head with
      | none => simp
      | some next => simpa using ih (keeps state head next start hbody)

/-- A counting loop that succeeded kept every invariant its body keeps, by induction on the
bound.
-/
theorem foldlM_range_inv {σ : Type} {body : σ → Nat → Option σ} (inv : Nat → σ → Prop)
    {bound : Nat} {state last : σ} (start : inv 0 state)
    (step : ∀ k state state', k < bound → inv k state → body state k = some state'
      → inv (k + 1) state')
    (run : (List.range bound).foldlM body state = some last)
    : inv bound last := by
  induction bound generalizing last with
  | zero =>
      cases run
      exact start
  | succ bound ih =>
      rw [List.range_succ, List.foldlM_append] at run
      obtain ⟨middle, hbefore, hbody⟩ := Option.bind_eq_some_iff.mp run
      rw [List.foldlM_cons] at hbody
      obtain ⟨next, hbody, hpure⟩ := Option.bind_eq_some_iff.mp hbody
      cases hpure
      have hmiddle := ih (fun k state state' hk => step k state state' (by omega)) hbefore
      exact step bound middle last (Nat.lt_succ_self _) hmiddle hbody

end Xlog.Foundation
