import Mathlib.Data.List.Basic

/-!
# Output up to a cap

An output that grows is cut off at a cap once it is past it.  Nothing that comes
later is missed by this, so only the output as a whole counts.
-/

namespace Exav.Capped

variable {α : Type}

/-- An output up to the cap, and whether there is more. -/
def capped (cap : Nat) (all : List α) : List α × Bool :=
  if all.length > cap then (all.take cap, true) else (all, false)

/-- Stop once there is more than the cap, or go on. -/
def push (cap : Nat) (out : List α) (next : List α → List α × Bool) :
    List α × Bool :=
  if out.length > cap then (out.take cap, true) else next out

theorem capped_of_le {cap : Nat} {all : List α} (within : all.length ≤ cap) :
    capped cap all = (all, false) :=
  if_neg (Nat.not_lt.mpr within)

/-- What is cut off before the end is what is cut off in the end. -/
theorem capped_append {cap : Nat} {out : List α} (past : cap < out.length)
    (rest : List α) : capped cap (out ++ rest) = (out.take cap, true) := by
  have longer : cap < (out ++ rest).length := by
    rw [List.length_append]
    omega
  rw [capped, if_pos longer,
    List.take_append_of_le_length (Nat.le_of_lt past)]

theorem push_eq {cap : Nat} {out rest : List α}
    {next : List α → List α × Bool}
    (onwards : out.length ≤ cap → next out = capped cap (out ++ rest)) :
    push cap out next = capped cap (out ++ rest) := by
  by_cases past : out.length > cap
  · rw [push, if_pos past, capped_append past]
  · rw [push, if_neg past]
    exact onwards (Nat.le_of_not_lt past)

end Exav.Capped
