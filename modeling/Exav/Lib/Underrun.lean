import Mathlib.Init

/-!
# Readers of a text that may be cut

A reader over some state takes a text when, wherever the text stands, it gives
the text's value and leaves what stands behind it.  A reader is tame when every
success lowers a measure of the state and, on a state cut short, it does what it
does on the whole one or finds that it has run out.
-/

namespace Exav.Underrun

variable {σ τ ε α β : Type}

def Takes (stands : σ → List τ → Prop) (run : StateT σ (Except ε) α)
    (text : List τ) (a : α) : Prop :=
  ∀ s more, stands s (text ++ more) → ∃ after,
    run s = .ok (a, after) ∧ stands after more

section

variable {stands : σ → List τ → Prop} {run : StateT σ (Except ε) α}
  {next : α → StateT σ (Except ε) β} {text behind : List τ} {a : α} {b : β}

theorem Takes.pure (a : α) :
    Takes stands (pure a : StateT σ (Except ε) α) [] a :=
  fun s _ standing => ⟨s, rfl, standing⟩

theorem Takes.bind (first : Takes stands run text a)
    (second : Takes stands (next a) behind b) :
    Takes stands (run >>= next) (text ++ behind) b := by
  intro s more standing
  rw [List.append_assoc] at standing
  obtain ⟨middle, ran, standing⟩ := first s _ standing
  obtain ⟨after, went, standing⟩ := second middle more standing
  refine ⟨after, ?_, standing⟩
  change ((run s).bind fun p => next p.1 p.2) = _
  rw [ran]
  exact went

theorem Takes.last (first : Takes stands run text a)
    (second : Takes stands (next a) [] b) :
    Takes stands (run >>= next) text b := by
  have both := first.bind second
  rwa [List.append_nil] at both

end

/-- The reader lowers the measure by `least` whenever it succeeds, and a cut
state makes no other difference to it than to be too short. -/
structure Tame (cut : σ → σ) (short : ε) (measure : σ → Nat) (least : Nat)
    (run : StateT σ (Except ε) α) : Prop where
  spends : ∀ s a after, run s = .ok (a, after) → measure after + least ≤ measure s
  cuts : ∀ s, run (cut s) = .error short ∨
    run (cut s) = (run s).map fun p => (p.1, cut p.2)

section

variable {cut : σ → σ} {short : ε} {measure : σ → Nat} {least more : Nat}
  {run : StateT σ (Except ε) α} {next : α → StateT σ (Except ε) β}

theorem Tame.pure (a : α) :
    Tame cut short measure 0 (pure a : StateT σ (Except ε) α) where
  spends := by
    rintro s _ _ ⟨⟩
    exact Nat.le_refl _
  cuts _ := .inr rfl

theorem Tame.fail (e : ε) :
    Tame cut short measure least (fun _ => .error e : StateT σ (Except ε) α) where
  spends := nofun
  cuts _ := .inr rfl

theorem Tame.mono (tame : Tame cut short measure more run)
    (fewer : least ≤ more) : Tame cut short measure least run where
  spends s a after ran := by
    have spent := tame.spends s a after ran
    omega
  cuts := tame.cuts

theorem Tame.bind (first : Tame cut short measure least run)
    (second : ∀ a, Tame cut short measure 0 (next a)) :
    Tame cut short measure least (run >>= next) where
  spends s b after ran := by
    change ((run s).bind fun p => next p.1 p.2) = .ok (b, after) at ran
    cases went : run s with
    | error e =>
        rw [went] at ran
        cases ran
    | ok p =>
        rw [went] at ran
        have before := first.spends s p.1 p.2 went
        have behind := (second p.1).spends p.2 b after ran
        omega
  cuts s := by
    change ((run (cut s)).bind fun p => next p.1 p.2) = _ ∨
      ((run (cut s)).bind fun p => next p.1 p.2) =
        ((run s).bind fun p => next p.1 p.2).map _
    rcases first.cuts s with ran | ran
    · left
      rw [ran]
      rfl
    · rw [ran]
      cases run s with
      | error e => exact .inr rfl
      | ok p => exact (second p.1).cuts p.2

theorem Tame.ite {p : Prop} [Decidable p] {run other : StateT σ (Except ε) α}
    (yes : p → Tame cut short measure least run)
    (no : ¬ p → Tame cut short measure least other) :
    Tame cut short measure least (if p then run else other) := by
  by_cases holds : p
  · rw [if_pos holds]
    exact yes holds
  · rw [if_neg holds]
    exact no holds

end

end Exav.Underrun
