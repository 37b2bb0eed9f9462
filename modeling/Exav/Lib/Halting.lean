import Mathlib.Logic.Function.Iterate
import Mathlib.Order.Basic

/-!
# Loops that end

A loop takes a state on until it is over.  Where a measure falls with each step
the loop ends, within the measure of the state it starts from, and every state
it goes through ends where it does.
-/

namespace Exav

variable {σ : Type}

/-- A step of a loop, the states that it stops in, and what falls until it
does. -/
structure Loop (σ : Type) where
  next : σ → σ
  ended : σ → Bool
  measure : σ → Nat

namespace Loop

variable (loop : Loop σ)

/-- The state after so many steps, fewer where the loop is over. -/
def runFor : Nat → σ → σ
  | 0, s => s
  | n + 1, s => if loop.ended s then s else runFor n (loop.next s)

/-- The state a loop ends in. -/
def final (s : σ) : σ :=
  loop.runFor (loop.measure s) s

def Falls : Prop :=
  ∀ s, loop.ended s = false → loop.measure (loop.next s) < loop.measure s

section

variable {loop}

theorem runFor_over {s : σ} (excess : loop.ended s = true) (n : Nat) :
    loop.runFor n s = s := by
  cases n with
  | zero => rfl
  | succ n => rw [runFor, if_pos excess]

theorem final_over {s : σ} (excess : loop.ended s = true) : loop.final s = s :=
  runFor_over excess _

theorem runFor_enough (falls : loop.Falls) {n m : Nat} {s : σ}
    (enough : loop.measure s ≤ n) (more : loop.measure s ≤ m) :
    loop.runFor n s = loop.runFor m s := by
  induction n generalizing m s with
  | zero =>
      by_cases excess : loop.ended s = true
      · rw [runFor_over excess, runFor_over excess]
      · have less := falls s (Bool.eq_false_iff.mpr excess)
        omega
  | succ n ih =>
      by_cases excess : loop.ended s = true
      · rw [runFor_over excess, runFor_over excess]
      · have less := falls s (Bool.eq_false_iff.mpr excess)
        cases m with
        | zero => omega
        | succ m =>
            rw [runFor, runFor, if_neg excess, if_neg excess]
            exact ih (by omega) (by omega)

theorem final_next (falls : loop.Falls) {s : σ} (excess : loop.ended s = false) :
    loop.final (loop.next s) = loop.final s := by
  have less := falls s excess
  have stepped : loop.final s = loop.runFor (loop.measure s + 1) s :=
    runFor_enough falls (Nat.le_refl _) (Nat.le_succ _)
  rw [stepped, runFor, if_neg (Bool.eq_false_iff.mp excess)]
  exact runFor_enough falls (Nat.le_refl _) (by omega)

theorem over_final (falls : loop.Falls) (s : σ) :
    loop.ended (loop.final s) = true := by
  induction measured : loop.measure s using Nat.strongRecOn
    generalizing s with
  | ind n ih =>
      by_cases excess : loop.ended s = true
      · rw [final_over excess]
        exact excess
      · have going := Bool.eq_false_iff.mpr excess
        rw [← final_next falls going]
        exact ih _ (measured ▸ falls s going) _ rfl

theorem final_keeps (P : σ → Prop)
    (step : ∀ s, loop.ended s = false → P s → P (loop.next s)) {s : σ}
    (holds : P s) : P (loop.final s) := by
  have run : ∀ n s, P s → P (loop.runFor n s) := by
    intro n
    induction n with
    | zero => exact fun _ holds => holds
    | succ n ih =>
        intro s holds
        rw [runFor]
        split
        · exact holds
        · rename_i going
          exact ih _ (step s (Bool.eq_false_iff.mpr going) holds)
  exact run _ s holds

theorem final_iterate (s : σ) : ∃ n, loop.final s = loop.next^[n] s := by
  apply final_keeps (fun t => ∃ n, t = loop.next^[n] s)
  · rintro t - ⟨n, rfl⟩
    exact ⟨n + 1, (Function.iterate_succ_apply' loop.next n s).symm⟩
  · exact ⟨0, rfl⟩

end

end Loop

end Exav
