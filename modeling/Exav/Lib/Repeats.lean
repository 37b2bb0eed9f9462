import Mathlib.Data.List.Basic

/-!
# Entries that repeat

A tally counts the entries of a run, each in a counter of one width.  A repeat
filter marks the slot of an entry it has seen and marks it again the next time;
entries may share a slot.  Entries that occur twice pass the filter, so tallying
what passes differs from tallying everything only at entries that occur once.
-/

namespace Exav.Repeats

section

variable {κ : Type} [DecidableEq κ]

/-- Count one more of `k`, unless its counter is full. -/
def bump (bound : Nat) (counts : κ → Nat) (k : κ) : Option (κ → Nat) :=
  if counts k + 1 < bound then
    some (Function.update counts k (counts k + 1))
  else none

/-- Count a run of entries. -/
def tally (bound : Nat) (counts : κ → Nat) (keys : List κ) :
    Option (κ → Nat) :=
  keys.foldlM (bump bound) counts

theorem tally_cons {bound : Nat} {counts : κ → Nat} {k : κ} {keys : List κ} :
    tally bound counts (k :: keys) =
      (bump bound counts k).bind fun counts => tally bound counts keys :=
  List.foldlM_cons

private theorem update_count (counts : κ → Nat) (k : κ) (keys : List κ)
    (j : κ) :
    Function.update counts k (counts k + 1) j + keys.count j =
      counts j + (k :: keys).count j := by
  by_cases same : j = k
  · subst same
    rw [Function.update_self, List.count_cons_self]
    omega
  · rw [Function.update_of_ne same, List.count_cons_of_ne (Ne.symm same)]

theorem tally_eq {bound : Nat} {counts : κ → Nat} {keys : List κ} :
    tally bound counts keys =
      if ∀ k ∈ keys, counts k + keys.count k < bound then
        some fun k => counts k + keys.count k
      else none := by
  induction keys generalizing counts with
  | nil => simp [tally]
  | cons k keys ih =>
      rw [tally_cons, bump]
      by_cases room : counts k + 1 < bound
      · rw [if_pos room, Option.bind_some, ih]
        simp only [update_count]
        have same : (∀ j ∈ keys, counts j + (k :: keys).count j < bound) ↔
            ∀ j ∈ k :: keys, counts j + (k :: keys).count j < bound := by
          constructor
          · intro fits j member
            rcases List.mem_cons.mp member with rfl | later
            · by_cases again : j ∈ keys
              · exact fits j again
              · rw [List.count_cons_self, List.count_eq_zero_of_not_mem again]
                exact room
            · exact fits j later
          · intro fits j later
            exact fits j (List.mem_cons_of_mem _ later)
        simp only [same]
      · rw [if_neg room, Option.bind_none, if_neg]
        intro fits
        have here := fits k List.mem_cons_self
        rw [List.count_cons_self] at here
        omega

end

/-! ## The filter -/

section

variable {κ σ : Type} [DecidableEq σ]

/-- Mark an entry's slot, the second time apart from the first. -/
def mark (slot : κ → σ) (seen : (σ → Bool) × (σ → Bool)) (k : κ) :
    (σ → Bool) × (σ → Bool) :=
  if seen.1 (slot k) then (seen.1, Function.update seen.2 (slot k) true)
  else (Function.update seen.1 (slot k) true, seen.2)

def repeats (slot : κ → σ) (keys : List κ) : σ → Bool :=
  (keys.foldl (mark slot) (fun _ => false, fun _ => false)).2

private theorem mark_kept (slot : κ → σ) {seen : (σ → Bool) × (σ → Bool)}
    (k : κ) {s : σ} :
    (seen.1 s = true → (mark slot seen k).1 s = true) ∧
      (seen.2 s = true → (mark slot seen k).2 s = true) := by
  unfold mark
  by_cases same : s = slot k <;> split <;> simp [same]

private theorem marks_kept (slot : κ → σ) {seen : (σ → Bool) × (σ → Bool)}
    (keys : List κ) {s : σ} (marked : seen.2 s = true) :
    (keys.foldl (mark slot) seen).2 s = true := by
  induction keys generalizing seen with
  | nil => exact marked
  | cons k keys ih => exact ih ((mark_kept slot k).2 marked)

private theorem mark_once (slot : κ → σ) (seen : (σ → Bool) × (σ → Bool))
    (k : κ) : (mark slot seen k).1 (slot k) = true := by
  unfold mark
  split
  case isTrue marked => exact marked
  case isFalse fresh => simp

private theorem marks_again (slot : κ → σ) {seen : (σ → Bool) × (σ → Bool)}
    {keys : List κ} {k : κ} (marked : seen.1 (slot k) = true)
    (member : k ∈ keys) :
    (keys.foldl (mark slot) seen).2 (slot k) = true := by
  induction keys generalizing seen with
  | nil => cases member
  | cons j keys ih =>
      rw [List.foldl_cons]
      rcases List.mem_cons.mp member with rfl | later
      · apply marks_kept
        simp [mark, marked]
      · exact ih ((mark_kept slot j).1 marked) later

variable [DecidableEq κ]

private theorem marks_twice (slot : κ → σ) (seen : (σ → Bool) × (σ → Bool))
    {keys : List κ} {k : κ} (twice : 2 ≤ keys.count k) :
    (keys.foldl (mark slot) seen).2 (slot k) = true := by
  induction keys generalizing seen with
  | nil => simp at twice
  | cons j keys ih =>
      rw [List.foldl_cons]
      by_cases same : j = k
      · subst same
        rw [List.count_cons_self] at twice
        have again : j ∈ keys := List.count_pos_iff.mp (by omega)
        exact marks_again slot (mark_once slot seen j) again
      · rw [List.count_cons_of_ne same] at twice
        exact ih _ twice

/-- An entry that occurs twice passes the filter, whatever shares its slot. -/
theorem repeats_of_two_le (slot : κ → σ) {keys : List κ} {k : κ}
    (twice : 2 ≤ keys.count k) : repeats slot keys (slot k) = true :=
  marks_twice slot _ twice

/-! ## Tallying what passes -/

/-- Two counts that differ at most in whether there is one at all. -/
def Alike (a b : Nat) : Prop :=
  max a 1 = max b 1

/-- A filter that passes every entry that occurs twice changes a tally only
between none and one. -/
theorem tally_filter {bound : Nat} {keys : List κ} {passes : κ → Bool}
    (two : 2 ≤ bound) (kept : ∀ k, 2 ≤ keys.count k → passes k = true) :
    Option.Rel (fun some_counts counts => ∀ k, Alike (some_counts k) (counts k))
      (tally bound (fun _ => 0) (keys.filter passes))
      (tally bound (fun _ => 0) keys) := by
  have counted (k : κ) : Alike ((keys.filter passes).count k) (keys.count k) ∧
      (2 ≤ keys.count k → (keys.filter passes).count k = keys.count k) := by
    cases pass : passes k with
    | true =>
        have same := List.count_filter (l := keys) pass
        exact ⟨congrArg (max · 1) same, fun _ => same⟩
    | false =>
        have dropped : (keys.filter passes).count k = 0 := by
          apply List.count_eq_zero_of_not_mem
          intro member
          rw [List.mem_filter, pass] at member
          cases member.2
        have rare : ¬2 ≤ keys.count k := by
          intro twice
          rw [kept k twice] at pass
          cases pass
        refine ⟨?_, fun twice => absurd twice rare⟩
        unfold Alike
        omega
  have fits : (∀ k ∈ keys.filter passes,
        0 + (keys.filter passes).count k < bound) ↔
      ∀ k ∈ keys, 0 + keys.count k < bound := by
    constructor
    · intro small k member
      by_cases twice : 2 ≤ keys.count k
      · have passed := small k (List.mem_filter.mpr ⟨member, kept k twice⟩)
        rwa [(counted k).2 twice] at passed
      · omega
    · intro small k member
      have whole := small k (List.mem_of_mem_filter member)
      exact Nat.lt_of_le_of_lt (Nat.add_le_add_left
        (List.Sublist.count_le k List.filter_sublist) 0) whole
  rw [tally_eq, tally_eq]
  simp only [fits]
  split
  · refine .some ?_
    intro k
    simpa using (counted k).1
  · exact .none

end

end Exav.Repeats
