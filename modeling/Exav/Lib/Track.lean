import Mathlib.Order.Defs.Unbundled

/-!
# Tracking a state

A computation over a state tracks a relation when, from any state, it ends in a
related one.  For a relation that is reflexive and transitive, computations
that track it compose.
-/

namespace Exav

variable {σ α β : Type}

def Tracks (related : σ → σ → Prop) (run : StateM σ α) : Prop :=
  ∀ s, related s (run s).2

theorem get_then (next : σ → StateM σ α) (s : σ) :
    (get >>= next : StateM σ α) s = next s s :=
  rfl

theorem bind_then (run : StateM σ α) (next : α → StateM σ β) (s : σ) :
    (run >>= next) s = next (run s).1 (run s).2 :=
  rfl

namespace Tracks

variable {related : σ → σ → Prop}

theorem look {next : σ → StateM σ β}
    (next' : ∀ s, related s (next s s).2) : Tracks related (get >>= next) :=
  fun s => next' s

theorem get {next : σ → StateM σ β} (each : ∀ s, Tracks related (next s)) :
    Tracks related (get >>= next) :=
  fun s => each s s

theorem ite {c : Prop} [Decidable c] {yes no : StateM σ α}
    (holds : Tracks related yes) (fails : Tracks related no) :
    Tracks related (if c then yes else no) := by
  by_cases h : c
  · rw [if_pos h]
    exact holds
  · rw [if_neg h]
    exact fails

section

variable [order : IsPreorder σ related]

theorem pure (a : α) : Tracks related (pure a : StateM σ α) :=
  fun s => order.refl s

theorem bind {run : StateM σ α} {next : α → StateM σ β}
    (first : Tracks related run) (second : ∀ a, Tracks related (next a)) :
    Tracks related (run >>= next) :=
  fun s => order.trans _ _ _ (first s) (second (run s).1 (run s).2)

theorem mapM {run : β → StateM σ α} (each : ∀ b, Tracks related (run b))
    (items : List β) : Tracks related (items.mapM run) := by
  induction items with
  | nil =>
      rw [List.mapM_nil]
      exact pure []
  | cons item items ih =>
      rw [List.mapM_cons]
      apply bind (each item)
      intro a
      apply bind ih
      intro rest
      exact pure (a :: rest)

theorem forM {run : β → StateM σ PUnit} (each : ∀ b, Tracks related (run b))
    (items : List β) : Tracks related (items.forM run) := by
  induction items with
  | nil => exact pure PUnit.unit
  | cons item items ih =>
      change Tracks related (run item >>= fun _ => items.forM run)
      exact bind (each item) fun _ => ih

end

end Tracks

end Exav
