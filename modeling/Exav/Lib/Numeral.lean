import Mathlib.Data.Nat.Digits.Lemmas

/-!
# Numbers written in digits

The number some digits write, the most significant first, is `Nat.ofDigits` of
them reversed.  A reader that multiplies, adds and gives up at a bound reads
it, and so does one that goes backwards by powers of the radix, for which the
digits past the bound matter only in being zero or not.
-/

namespace Exav.Numeral

/-- Read digits forwards, giving up once the number reaches `bound`. -/
def parse (radix bound : Nat) (digits : List Nat) : Option Nat :=
  digits.foldl (fun value digit =>
    value.bind fun value =>
      if value * radix + digit < bound then some (value * radix + digit)
      else none) (some 0)

theorem ofDigits_snoc (radix : Nat) (digits : List Nat) (digit : Nat) :
    Nat.ofDigits radix (digits ++ [digit]) =
      Nat.ofDigits radix digits + digit * radix ^ digits.length := by
  rw [Nat.ofDigits_append, Nat.ofDigits_singleton, Nat.mul_comm]

/-- Reading gives up just when the number is too large. -/
theorem parse_eq {radix bound : Nat} (some_radix : 0 < radix)
    (some_bound : 0 < bound) (digits : List Nat) :
    parse radix bound digits =
      if Nat.ofDigits radix digits.reverse < bound then
        some (Nat.ofDigits radix digits.reverse)
      else none := by
  induction digits using List.reverseRecOn with
  | nil => simp [parse, some_bound]
  | append_singleton digits digit ih =>
      have step : parse radix bound (digits ++ [digit]) =
          (parse radix bound digits).bind fun value =>
            if value * radix + digit < bound then some (value * radix + digit)
            else none := by
        rw [parse, List.foldl_append, parse]
        rfl
      have number : Nat.ofDigits radix (digits ++ [digit]).reverse =
          Nat.ofDigits radix digits.reverse * radix + digit := by
        rw [List.reverse_append, List.reverse_singleton, List.singleton_append,
          Nat.ofDigits_cons, Nat.mul_comm, Nat.add_comm]
      rw [step, ih, number]
      by_cases small : Nat.ofDigits radix digits.reverse < bound
      · rw [if_pos small, Option.bind_some]
      · have grows := Nat.le_mul_of_pos_right
          (Nat.ofDigits radix digits.reverse) some_radix
        rw [if_neg small, Option.bind_none, if_neg (by omega)]

/-- The lowest digits of a number that they are enough to write write it. -/
theorem ofDigits_take {radix count : Nat} {digits : List Nat}
    (small : Nat.ofDigits radix digits < radix ^ count) :
    Nat.ofDigits radix (digits.take count) = Nat.ofDigits radix digits := by
  by_cases short : digits.length ≤ count
  · rw [List.take_of_length_le short]
  · have whole : Nat.ofDigits radix digits =
        Nat.ofDigits radix (digits.take count) +
          radix ^ count * Nat.ofDigits radix (digits.drop count) := by
      conv_lhs => rw [← List.take_append_drop count digits]
      rw [Nat.ofDigits_append, List.length_take, Nat.min_eq_left (by omega)]
    have none_above : Nat.ofDigits radix (digits.drop count) = 0 := by
      by_contra some_above
      have large := Nat.le_mul_of_pos_right (radix ^ count)
        (Nat.pos_of_ne_zero some_above)
      omega
    rw [whole, none_above, Nat.mul_zero, Nat.add_zero]

end Exav.Numeral
