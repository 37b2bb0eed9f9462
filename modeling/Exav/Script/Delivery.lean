import Exav.Lib.Visit
import Exav.Script.Lexer

/-!
# How a script is delivered

A scan reads the same for a text in memory and for a source that holds the same
bytes, and takes no place before the one it starts at.
-/

namespace Exav.Script

def Text.Holds (data : Bytes) : Text → Prop
  | .mem held => held = data
  | .source src buf base =>
      src.len = data.length ∧
      (∀ off len, src.window off len = window data off len) ∧
      ∃ len, buf = window data base len

variable {data : Bytes}

namespace Text

theorem Holds.len_eq {text : Text} (holds : text.Holds data) :
    text.len = data.length := by
  cases text with
  | mem held =>
      have same : held = data := holds
      simp [len, same]
  | source src buf base => exact holds.1

theorem byte_yields (i : Nat) :
    Yields (Holds data) (byte i) (fun _ => True) := by
  refine ⟨data[i]?.getD 0, trivial, fun text holds => ?_⟩
  cases text with
  | mem held =>
      have same : held = data := holds
      subst same
      exact ⟨rfl, rfl⟩
  | source src buf base =>
      obtain ⟨len_eq, window_eq, len, buf_eq⟩ := holds
      have run_eq : (byte i).run (source src buf base) =
          if i < base ∨ i - base ≥ buf.length then
            ((src.window (i - behind) (chunk + behind))[i - (i - behind)]?.getD 0,
              source src (src.window (i - behind) (chunk + behind)) (i - behind))
          else (buf[i - base]?.getD 0, source src buf base) := by
        simp only [byte, StateT.run_bind, StateT.run_get, pure_bind]
        split <;> rfl
      rw [run_eq]
      split
      · refine ⟨?_, len_eq, window_eq, _, window_eq _ _⟩
        have inside : i - (i - behind) < chunk + behind := by
          simp only [chunk, behind]
          omega
        have here : i - behind + (i - (i - behind)) = i := by
          omega
        rw [window_eq, getElem?_window _ inside, here]
      · next held =>
          refine ⟨?_, len_eq, window_eq, len, buf_eq⟩
          have short : buf.length ≤ len := by
            rw [buf_eq, length_window]
            exact Nat.min_le_left _ _
          have inside : i - base < len := by
            omega
          have here : base + (i - base) = i := by
            omega
          rw [buf_eq, getElem?_window _ inside, here]

theorem range_yields (first stop : Nat) :
    Yields (Holds data) (range first stop) (fun _ => True) := by
  refine ⟨window data (min first (min stop data.length))
    (min stop data.length - min first (min stop data.length)), trivial,
    fun text holds => ?_⟩
  cases text with
  | mem held =>
      have same : held = data := holds
      subst same
      exact ⟨rfl, rfl⟩
  | source src buf base =>
      have kept := holds
      obtain ⟨len_eq, window_eq, len, buf_eq⟩ := holds
      simp only [range, StateT.run_bind, StateT.run_get, pure_bind]
      split
      · next inside =>
          refine ⟨?_, kept⟩
          have short : buf.length ≤ len := by
            rw [buf_eq, length_window]
            exact Nat.min_le_left _ _
          have fits : min first (min stop src.len) - base +
              (min stop src.len - min first (min stop src.len)) ≤ len := by
            omega
          have here : base + (min first (min stop src.len) - base) =
              min first (min stop src.len) := by
            omega
          rw [StateT.run_pure]
          change window buf _ _ = _
          rw [buf_eq, window_window data fits, here, len_eq]
      · refine ⟨?_, kept⟩
        rw [StateT.run_pure]
        change src.window _ _ = _
        rw [window_eq, len_eq]

end Text

/-! ## Literals -/

theorem skipWhile_yields (n : Nat) (test : UInt8 → Bool) (rounds i : Nat) :
    Yields (Text.Holds data) (skipWhile n test rounds i) (i ≤ ·) := by
  induction rounds generalizing i with
  | zero => exact .pure i le_rfl
  | succ rounds ih =>
      refine .ite (fun _ => ?_) (fun _ => .pure i le_rfl)
      refine .bind (Text.byte_yields i) (fun b _ => ?_)
      refine .ite (fun _ => ?_) (fun _ => .pure i le_rfl)
      exact (ih (i + 1)).weaken (fun j _ => by omega)

theorem blockCommentEnd_yields (n rounds i : Nat) (inside : i ≤ n) :
    Yields (Text.Holds data) (blockCommentEnd n rounds i) (i ≤ ·) := by
  have ends : i ≤ min (i + 2) n := by
    omega
  induction rounds generalizing i with
  | zero => exact .pure _ ends
  | succ rounds ih =>
      refine .ite (fun more => ?_) (fun _ => .pure _ ends)
      refine .bind (Text.byte_yields i) (fun b _ => ?_)
      refine .bind (Text.byte_yields (i + 1)) (fun next _ => ?_)
      refine .ite (fun _ => .pure _ ends) (fun _ => ?_)
      have later := ih (i + 1) (by omega) (by omega)
      exact later.weaken (fun j _ => by omega)

end Exav.Script
