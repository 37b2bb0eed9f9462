import Exav.Source.Views

/-!
# First occurrences in texts put together

Where a marker stands first in a text that is put together of parts is settled
part by part, as long as the marker does not start in what comes before it.
-/

namespace Exav

open Exav.Source (memmem)

variable {pat front gap text : Bytes}

theorem occursAt_append_right (front rest pat : Bytes) (q : Nat) :
    occursAt (front ++ rest) pat (front.length + q) = occursAt rest pat q := by
  rw [occursAt, occursAt, window, window, List.drop_length_add_append]

theorem occursAt_append_left {q : Nat} (fits : q + pat.length ≤ text.length)
    (rest : Bytes) : occursAt (text ++ rest) pat q = occursAt text pat q := by
  rw [occursAt, occursAt, window, window,
    List.drop_append_of_le_length (by omega),
    List.take_append_of_le_length (by rw [List.length_drop]; omega)]

/-- The marker stands nowhere in a text. -/
def Unmarked (pat text : Bytes) : Prop :=
  ∀ q, occursAt text pat q = false

/-- The marker behind a text is the first. -/
def OnlyBehind (pat gap : Bytes) : Prop :=
  ∀ q < gap.length, occursAt (gap ++ pat) pat q = false

/-- The marker does not start in a text, whatever follows it. -/
def NeverStarts (pat front : Bytes) : Prop :=
  ∀ rest, ∀ q < front.length, occursAt (front ++ rest) pat q = false

instance : Decidable (OnlyBehind pat gap) := by
  unfold OnlyBehind
  infer_instance

theorem unmarked_of_forall_lt (filled : pat ≠ [])
    (absent : ∀ q < text.length, occursAt text pat q = false) :
    Unmarked pat text := by
  intro q
  by_cases inside : q < text.length
  · exact absent q inside
  · rw [Bool.eq_false_iff]
    intro occurs
    have positive := List.length_pos_iff.mpr filled
    have fits := occursAt_fits occurs filled
    omega

theorem OnlyBehind.memmem (filled : pat ≠ []) (only : OnlyBehind pat gap)
    (rest : Bytes) : memmem (gap ++ (pat ++ rest)) pat = some gap.length := by
  have here : occursAt (gap ++ (pat ++ rest)) pat gap.length = true := by
    rw [← Nat.add_zero gap.length, occursAt_append_right, occursAt, window,
      List.drop_zero, List.take_left, beq_self_eq_true]
  have earlier : ∀ q < gap.length,
      occursAt (gap ++ (pat ++ rest)) pat q = false := by
    intro q before
    rw [← List.append_assoc, occursAt_append_left
      (by rw [List.length_append]; omega)]
    exact only q before
  have fits := occursAt_fits here filled
  rw [Source.memmem]
  cases found : Exav.find (gap ++ (pat ++ rest)) pat 0
      (gap ++ (pat ++ rest)).length with
  | none =>
      have absent := find_eq_none found gap.length (Nat.zero_le _) fits fits
      rw [here] at absent
      cases absent
  | some q =>
      obtain ⟨_, _, occurs, first⟩ := find_eq_some found
      rcases Nat.lt_trichotomy q gap.length with before | same | after
      · rw [earlier q before] at occurs
        cases occurs
      · rw [same]
      · rw [first gap.length (Nat.zero_le _) after] at here
        cases here

theorem Unmarked.memmem (absent : Unmarked pat text) :
    memmem text pat = none := by
  cases found : Source.memmem text pat with
  | none => rfl
  | some q =>
      obtain ⟨_, _, occurs, _⟩ := find_eq_some found
      rw [absent q] at occurs
      cases occurs

/-! ## Texts in which a marker does not start -/

theorem neverStarts_nil (pat : Bytes) : NeverStarts pat [] :=
  fun _ _ inside => absurd inside (Nat.not_lt_zero _)

theorem NeverStarts.append {back : Bytes} (first : NeverStarts pat front)
    (second : NeverStarts pat back) : NeverStarts pat (front ++ back) := by
  intro rest q inside
  rw [List.append_assoc]
  by_cases early : q < front.length
  · exact first (back ++ rest) q early
  · obtain ⟨p, rfl⟩ := Nat.exists_eq_add_of_le (Nat.le_of_not_lt early)
    rw [occursAt_append_right]
    rw [List.length_append] at inside
    exact second rest p (by omega)

theorem neverStarts_of_ne {b first : UInt8} {pat : Bytes} (other : b ≠ first) :
    NeverStarts (first :: pat) [b] := by
  intro rest q inside
  obtain rfl : q = 0 := by
    rw [List.length_singleton] at inside
    omega
  rw [Bool.eq_false_iff]
  intro occurs
  have same := occursAt_iff_getElem?.mp occurs 0 (Nat.zero_lt_succ _)
  exact other (Option.some.inj same)

theorem neverStarts_of_not_mem {first : UInt8} {pat : Bytes}
    (absent : first ∉ front) : NeverStarts (first :: pat) front := by
  induction front with
  | nil => exact neverStarts_nil _
  | cons b front ih =>
      rw [List.mem_cons, not_or] at absent
      exact (neverStarts_of_ne (Ne.symm absent.1)).append (ih absent.2)

theorem NeverStarts.onlyBehind (never : NeverStarts pat front)
    (only : OnlyBehind pat gap) : OnlyBehind pat (front ++ gap) := by
  intro q inside
  rw [List.append_assoc]
  by_cases early : q < front.length
  · exact never (gap ++ pat) q early
  · obtain ⟨p, rfl⟩ := Nat.exists_eq_add_of_le (Nat.le_of_not_lt early)
    rw [occursAt_append_right]
    rw [List.length_append] at inside
    exact only p (by omega)

theorem NeverStarts.unmarked (never : NeverStarts pat front)
    (absent : Unmarked pat text) : Unmarked pat (front ++ text) := by
  intro q
  by_cases early : q < front.length
  · exact never text q early
  · obtain ⟨p, rfl⟩ := Nat.exists_eq_add_of_le (Nat.le_of_not_lt early)
    rw [occursAt_append_right]
    exact absent p

end Exav
