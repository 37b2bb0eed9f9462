import Mathlib.Init

/-!
# Computations that call operations

A computation calls operations one after another, each as the answers to the
ones before it decide.  States that answer every operation alike answer every
computation alike.
-/

namespace Exav.Calls

universe u

/-- A computation over operations that each say the type of their answer. -/
inductive Prog (Op : Type → Type u) (α : Type) : Type (max 1 u) where
  | done (result : α)
  | call {β : Type} (op : Op β) (next : β → Prog Op α)

variable {Op : Type → Type u} {α S T : Type}

/-- Run a computation on a state. -/
def Prog.run (act : (β : Type) → Op β → S → β × S) : Prog Op α → S → α × S
  | .done result, s => (result, s)
  | .call op next, s => (next (act _ op s).1).run act (act _ op s).2

/-- On related states an operation gives the same answer, and leaves related
states. -/
def Simulates (act : (β : Type) → Op β → S → β × S)
    (spec : (β : Type) → Op β → T → β × T) (related : S → T → Prop) : Prop :=
  ∀ (β : Type) (op : Op β) (s : S) (t : T), related s t →
    (act β op s).1 = (spec β op t).1 ∧
      related (act β op s).2 (spec β op t).2

theorem Simulates.run {act : (β : Type) → Op β → S → β × S}
    {spec : (β : Type) → Op β → T → β × T} {related : S → T → Prop}
    (simulates : Simulates act spec related) (prog : Prog Op α) {s : S} {t : T}
    (start : related s t) :
    (prog.run act s).1 = (prog.run spec t).1 ∧
      related (prog.run act s).2 (prog.run spec t).2 := by
  induction prog generalizing s t with
  | done result => exact ⟨rfl, start⟩
  | call op next ih =>
      obtain ⟨same, kept⟩ := simulates _ op s t start
      rw [Prog.run, Prog.run, ← same]
      exact ih _ kept

end Exav.Calls
