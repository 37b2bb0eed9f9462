import Mathlib.Control.Monad.Basic

/-!
# Computations that do not depend on how their state is kept

Several states may stand for one thing.  `Yields inv x post` says that the
computation `x` gives the same value, one meeting `post`, from every state that
meets `inv`, and leaves such a state.
-/

namespace Exav

variable {σ α β : Type} {inv : σ → Prop}

/-- One value, meeting `post`, whichever state meeting `inv` is read. -/
def Yields (inv : σ → Prop) (x : StateM σ α) (post : α → Prop) : Prop :=
  ∃ a, post a ∧ ∀ s, inv s → (x.run s).1 = a ∧ inv (x.run s).2

namespace Yields

theorem pure {post : α → Prop} (a : α) (met : post a) :
    Yields inv (Pure.pure a) post :=
  ⟨a, met, fun _ here => ⟨rfl, here⟩⟩

theorem bind {x : StateM σ α} {f : α → StateM σ β} {mid : α → Prop}
    {post : β → Prop} (first : Yields inv x mid)
    (rest : ∀ a, mid a → Yields inv (f a) post) : Yields inv (x >>= f) post := by
  obtain ⟨a, reached, from_x⟩ := first
  obtain ⟨b, met, from_f⟩ := rest a reached
  refine ⟨b, met, fun s here => ?_⟩
  obtain ⟨value, kept⟩ := from_x s here
  have run_bind : (x >>= f).run s = (f (x.run s).1).run (x.run s).2 := rfl
  rw [run_bind, value]
  exact from_f _ kept

theorem weaken {x : StateM σ α} {post post' : α → Prop}
    (yields : Yields inv x post) (weaker : ∀ a, post a → post' a) :
    Yields inv x post' := by
  obtain ⟨a, met, from_x⟩ := yields
  exact ⟨a, weaker a met, from_x⟩

theorem ite {c : Prop} [Decidable c] {x y : StateM σ α} {post : α → Prop}
    (yes : c → Yields inv x post) (no : ¬c → Yields inv y post) :
    Yields inv (if c then x else y) post := by
  split
  · next holds => exact yes holds
  · next fails => exact no fails

theorem meets {x : StateM σ α} {post : α → Prop} (yields : Yields inv x post)
    {s : σ} (here : inv s) : post (x.run s).1 := by
  obtain ⟨a, met, from_x⟩ := yields
  rw [(from_x s here).1]
  exact met

end Yields

end Exav

/-!
## Traversals a visitor may stop

A routine that hands items to a callback until the callback asks to stop is
the list of items it would hand over together with `visitAll`, which runs a
state-passing callback over that list.  The lemmas below say that such a run
depends on the list only up to splitting an item into pieces the callback
treats alike.
-/

namespace Exav.Visit

/-- Run `step` over the items in order, stopping at the first one for which it
returns `false`.  The Boolean says whether the end of the list was reached. -/
def visitAll {σ α : Type} (step : σ → α → σ × Bool) : σ → List α → σ × Bool
  | state, [] => (state, true)
  | state, item :: items =>
      match step state item with
      | (next, true) => visitAll step next items
      | (next, false) => (next, false)

section

variable {σ α β : Type} {step : σ → α → σ × Bool}

@[simp] theorem visitAll_nil (state : σ) :
    visitAll step state [] = (state, true) :=
  rfl

theorem visitAll_cons (state : σ) (item : α) (items : List α) :
    visitAll step state (item :: items) =
      if (step state item).2 then visitAll step (step state item).1 items
      else ((step state item).1, false) := by
  rw [visitAll]
  rcases result : step state item with ⟨next, go⟩
  cases go <;> simp

@[simp] theorem visitAll_singleton (state : σ) (item : α) :
    visitAll step state [item] = step state item := by
  rw [visitAll_cons]
  rcases result : step state item with ⟨next, go⟩
  cases go <;> simp

/-- Two consecutive stretches are run one after the other. -/
theorem visitAll_append (state : σ) (front back : List α) :
    visitAll step state (front ++ back) =
      if (visitAll step state front).2 then
        visitAll step (visitAll step state front).1 back
      else ((visitAll step state front).1, false) := by
  induction front generalizing state with
  | nil => simp
  | cons item items ih =>
      rw [List.cons_append, visitAll_cons, visitAll_cons]
      by_cases go : (step state item).2 = true
      · simp only [go, if_true]
        exact ih _
      · simp [go]

theorem visitAll_flatMap {pieces : β → List α} {whole : σ → β → σ × Bool}
    {items : List β} (split : ∀ item ∈ items, ∀ state,
      whole state item = visitAll step state (pieces item)) (state : σ) :
    visitAll whole state items = visitAll step state (items.flatMap pieces) := by
  induction items generalizing state with
  | nil => rfl
  | cons item items ih =>
      have rest := ih fun later member => split later (by simp [member])
      rw [List.flatMap_cons, visitAll_append, visitAll_cons,
        ← split item (by simp) state]
      by_cases go : (whole state item).2 = true
      · simp only [go, if_true]
        exact rest _
      · simp [go]

theorem visitAll_map {make : β → α} (state : σ) (items : List β) :
    visitAll step state (items.map make) =
      visitAll (fun state item => step state (make item)) state items := by
  induction items generalizing state with
  | nil => rfl
  | cons item items ih =>
      rw [List.map_cons, visitAll_cons, visitAll_cons, ih]

/-- Steps that agree while an invariant holds run alike. -/
theorem visitAll_congr {other : σ → α → σ × Bool} {motive : σ → Prop}
    {items : List α}
    (agree : ∀ item ∈ items, ∀ state, motive state →
      step state item = other state item)
    (keeps : ∀ item ∈ items, ∀ state, motive state →
      motive (step state item).1)
    {state : σ} (start : motive state) :
    visitAll step state items = visitAll other state items := by
  induction items generalizing state with
  | nil => rfl
  | cons item items ih =>
      have next := keeps item (by simp) state start
      rw [visitAll_cons, visitAll_cons, ← agree item (by simp) state start,
        ih (fun later member => agree later (by simp [member]))
          (fun later member => keeps later (by simp [member])) next]

theorem visitAll_induct {motive : σ → Prop} {items : List α}
    (keeps : ∀ item ∈ items, ∀ state, motive state →
      motive (step state item).1)
    {state : σ} (start : motive state) :
    motive (visitAll step state items).1 := by
  induction items generalizing state with
  | nil => exact start
  | cons item items ih =>
      have next := keeps item (by simp) state start
      rw [visitAll_cons]
      split
      · exact ih (fun later member => keeps later (by simp [member])) next
      · exact next

end

end Exav.Visit
