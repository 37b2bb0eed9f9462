import Mathlib.Data.List.DropRight

/-!
# Trimming

What is left of a list without the values at its end that satisfy a predicate,
and what trimming does to lists that end alike.
-/

namespace Exav.Trim

variable {α : Type} {p q : α → Bool}

theorem rdropWhile_congr {l : List α} (same : ∀ x ∈ l, p x = q x) :
    l.rdropWhile p = l.rdropWhile q := by
  induction l using List.reverseRecOn with
  | nil => rfl
  | append_singleton l x ih =>
      rw [List.rdropWhile_concat, List.rdropWhile_concat,
        same x (List.mem_append_right _ (List.mem_singleton_self x)),
        ih fun y member => same y (List.mem_append_left _ member)]

/-- A first value that stays keeps what is behind it apart. -/
theorem rdropWhile_cons {x : α} (stays : p x = false) (l : List α) :
    (x :: l).rdropWhile p = x :: l.rdropWhile p := by
  induction l using List.reverseRecOn with
  | nil =>
      rw [List.rdropWhile_singleton, if_neg (stays ▸ Bool.false_ne_true),
        List.rdropWhile_nil]
  | append_singleton l y ih =>
      rw [← List.cons_append, List.rdropWhile_concat, List.rdropWhile_concat, ih]
      split <;> rfl

theorem rdropWhile_append_replicate {x : α} (trimmed : p x = true)
    (l : List α) (n : Nat) :
    (l ++ List.replicate n x).rdropWhile p = l.rdropWhile p := by
  induction n with
  | zero => rw [List.replicate_zero, List.append_nil]
  | succ n ih =>
      rw [List.replicate_succ', ← List.append_assoc,
        List.rdropWhile_concat_pos _ _ _ trimmed, ih]

theorem exists_replicate [DecidableEq α] (x : α) (l : List α) :
    ∃ n, l = l.rdropWhile (· == x) ++ List.replicate n x := by
  induction l using List.reverseRecOn with
  | nil => exact ⟨0, rfl⟩
  | append_singleton l y ih =>
      by_cases same : y = x
      · obtain ⟨n, split⟩ := ih
        refine ⟨n + 1, ?_⟩
        have trimmed : (y == x) = true := beq_iff_eq.mpr same
        rw [List.rdropWhile_concat_pos (· == x) l y trimmed,
          List.replicate_succ', ← List.append_assoc, ← split, same]
      · refine ⟨0, ?_⟩
        have stays : ¬ (y == x) = true := mt beq_iff_eq.mp same
        rw [List.rdropWhile_concat_neg (· == x) l y stays,
          List.replicate_zero, List.append_nil]

end Exav.Trim
