import Exav.Unpack.Prescan
import Exav.Unpack.UuencodeFiles

/-!
# The terminator of a uuencoded file

Read a byte at a time, whatever pieces they come in, a line is remembered by its
first four bytes, its length and where its text ends.  This decides whether it is
the last one as its bytes do.
-/

namespace Exav.Unpack

def EndsBody (base64 : Bool) (line : Bytes) : Bool :=
  if base64 then [0x3D, 0x3D, 0x3D, 0x3D] <+: trimAscii line
  else trimAscii line = endLine

/-! ## Trimming -/

theorem trimAsciiStart_concat (line : Bytes) (b : UInt8) :
    trimAsciiStart (line ++ [b]) =
      if trimAsciiStart line = [] then
        if isAsciiWhitespace b then [] else [b]
      else trimAsciiStart line ++ [b] := by
  unfold trimAsciiStart
  rw [List.dropWhile_append]
  simp only [List.isEmpty_iff, List.dropWhile_cons, List.dropWhile_nil]

theorem trimAscii_concat {line : Bytes} {b : UInt8}
    (white : isAsciiWhitespace b = true) :
    trimAscii (line ++ [b]) = trimAscii line := by
  unfold trimAscii
  rw [trimAsciiStart_concat, if_pos white]
  by_cases empty : trimAsciiStart line = []
  · rw [if_pos empty, empty]
  · rw [if_neg empty, List.rdropWhile_concat_pos _ _ _ white]

theorem trimAscii_stripCr (line : Bytes) :
    trimAscii (stripCr line) = trimAscii line := by
  unfold stripCr
  split
  · rename_i last
    have split : line = line.dropLast ++ [0x0D] :=
      (List.dropLast_append_getLast? 0x0D last).symm
    conv => rhs; rw [split]
    exact (trimAscii_concat (by decide)).symm
  · rfl

theorem prefix_rdropWhile {p text : Bytes} (stays : p.rdropWhile isAsciiWhitespace = p)
    (starts : p <+: text) : p <+: text.rdropWhile isAsciiWhitespace := by
  obtain ⟨rest, rfl⟩ := starts
  induction rest using List.reverseRecOn with
  | nil =>
      rw [List.append_nil, stays]
  | append_singleton rest b ih =>
      rw [← List.append_assoc, List.rdropWhile_concat]
      split
      · exact ih
      · rw [List.append_assoc]
        exact List.prefix_append _ _

/-! ## A line -/

structure Remembers (t : Terminator) (line : Bytes) : Prop where
  inside : 0x0A ∉ line
  four : t.first.length = 4
  blank : trimAsciiStart line = [] → t.inText = false
  text : trimAsciiStart line ≠ [] → t.inText = true ∧
    t.pos = (trimAsciiStart line).length ∧
    t.first.take (min 4 t.pos) = (trimAsciiStart line).take (min 4 t.pos) ∧
    t.lastText + 1 =
      ((trimAsciiStart line).rdropWhile isAsciiWhitespace).length

variable {t : Terminator} {line : Bytes}

theorem Remembers.step (remembers : Remembers t line) {b : UInt8}
    (other : b ≠ 0x0A) : Remembers (t.step b) (line ++ [b]) := by
  have inside : 0x0A ∉ line ++ [b] := by
    intro member
    rcases List.mem_append.mp member with early | last
    · exact remembers.inside early
    · exact other (List.mem_singleton.mp last).symm
  have four := remembers.four
  unfold Terminator.step
  by_cases empty : trimAsciiStart line = []
  · rw [if_neg (by rw [remembers.blank empty]; exact Bool.false_ne_true)]
    by_cases white : isAsciiWhitespace b = true
    · have same : trimAsciiStart (line ++ [b]) = [] := by
        rw [trimAsciiStart_concat, if_pos empty, if_pos white]
      rw [if_pos white]
      exact ⟨inside, four, fun _ => remembers.blank empty,
        fun text => absurd same text⟩
    · have same : trimAsciiStart (line ++ [b]) = [b] := by
        rw [trimAsciiStart_concat, if_pos empty, if_neg white]
      rw [if_neg white]
      refine ⟨inside, ?_, ?_, ?_⟩
      · rw [List.length_set]
        exact four
      · intro nothing
        rw [same] at nothing
        cases nothing
      · intro _
        rw [same]
        refine ⟨rfl, rfl, ?_, ?_⟩
        · cases split : t.first with
          | nil =>
              rw [split] at four
              cases four
          | cons c first => rfl
        · rw [List.rdropWhile_singleton, if_neg white]
          rfl
  · obtain ⟨inText, pos, first, lastText⟩ := remembers.text empty
    have same : trimAsciiStart (line ++ [b]) = trimAsciiStart line ++ [b] := by
      rw [trimAsciiStart_concat, if_neg empty]
    rw [if_pos inText]
    refine ⟨inside, ?_, ?_, ?_⟩
    · show (if t.pos < 4 then t.first.set t.pos b else t.first).length = 4
      split
      · rw [List.length_set]
        exact four
      · exact four
    · intro nothing
      rw [same] at nothing
      exact absurd nothing
        (List.append_ne_nil_of_right_ne_nil _ (List.cons_ne_nil _ _))
    · intro _
      rw [same]
      refine ⟨inText, ?_, ?_, ?_⟩
      · rw [List.length_append, ← pos]
        rfl
      · show (if t.pos < 4 then t.first.set t.pos b else t.first).take
            (min 4 (t.pos + 1)) =
          (trimAsciiStart line ++ [b]).take (min 4 (t.pos + 1))
        by_cases few : t.pos < 4
        · have whole : (trimAsciiStart line ++ [b]).take (t.pos + 1) =
              trimAsciiStart line ++ [b] := by
            apply List.take_of_length_le
            rw [List.length_append, pos]
            exact Nat.le_refl _
          rw [Nat.min_eq_right (Nat.le_of_lt few), pos, List.take_length,
            ← pos] at first
          rw [if_pos few, Nat.min_eq_right few, whole, List.take_add_one,
            List.take_set_of_le (Nat.le_refl _), first,
            List.getElem?_set_self (by omega)]
          rfl
        · have four_of : min 4 (t.pos + 1) = 4 := by omega
          rw [Nat.min_eq_left (Nat.not_lt.mp few)] at first
          rw [if_neg few, four_of, first, List.take_append_of_le_length]
          omega
      · show (if isAsciiWhitespace b then t.lastText else t.pos) + 1 = _
        rw [List.rdropWhile_concat]
        split
        · exact lastText
        · rw [List.length_append, ← pos]
          rfl

theorem Remembers.first_eq (remembers : Remembers t line)
    (text : trimAsciiStart line ≠ []) {n : Nat} (few : n ≤ 4)
    (inside : n ≤ (trimAsciiStart line).length) :
    t.first.take n = (trimAsciiStart line).take n := by
  obtain ⟨_, pos, first, _⟩ := remembers.text text
  have taken := congrArg (List.take n) first
  rwa [List.take_take, List.take_take, Nat.min_eq_left (by omega)] at taken

theorem Remembers.found_endLine (remembers : Remembers t line) :
    t.endLine.found = (t.found || EndsBody t.base64 line) := by
  have start : trimAscii line =
      (trimAsciiStart line).rdropWhile isAsciiWhitespace := rfl
  unfold Terminator.endLine EndsBody
  dsimp only
  rw [start]
  by_cases empty : trimAsciiStart line = []
  · rw [remembers.blank empty, if_neg Bool.false_ne_true, empty,
      List.rdropWhile_nil]
    cases t.base64 <;> simp [endLine]
  · obtain ⟨inText, pos, _, lastText⟩ := remembers.text empty
    have shorter : (trimAsciiStart line).rdropWhile isAsciiWhitespace <+:
        trimAsciiStart line := List.rdropWhile_prefix _ _
    rw [if_pos inText]
    congr 1
    cases t.base64 with
    | true =>
        rw [if_pos rfl, if_pos rfl, decide_eq_decide]
        constructor
        · rintro ⟨enough, first⟩
          have taken := remembers.first_eq empty (Nat.le_refl 4) (pos ▸ enough)
          rw [first] at taken
          apply prefix_rdropWhile (by decide)
          rw [List.prefix_iff_eq_take]
          exact taken
        · intro starts
          have within := starts.trans shorter
          have enough := within.length_le
          have taken := remembers.first_eq empty (Nat.le_refl 4) enough
          have whole : t.first.take 4 = t.first :=
            List.take_of_length_le (Nat.le_of_eq remembers.four)
          refine ⟨pos ▸ enough, ?_⟩
          rw [← whole, taken]
          exact (List.prefix_iff_eq_take.mp within).symm
    | false =>
        rw [if_neg Bool.false_ne_true, if_neg Bool.false_ne_true,
          decide_eq_decide]
        have same := List.prefix_iff_eq_take.mp shorter
        have longer := shorter.length_le
        constructor
        · rintro ⟨last, first⟩
          rw [last] at lastText
          rw [same, ← lastText, ← first]
          exact (remembers.first_eq empty (by decide) (by omega)).symm
        · intro ends
          have three : (endLine : Bytes).length = 3 := rfl
          rw [ends, three] at lastText longer
          rw [ends, three] at same
          refine ⟨by omega, ?_⟩
          rw [remembers.first_eq empty (by decide) longer]
          exact same.symm

theorem Remembers.endLine (remembers : Remembers t line) :
    Remembers t.endLine [] where
  inside := List.not_mem_nil
  four := remembers.four
  blank := fun _ => rfl
  text := fun text => absurd rfl text

/-! ## Pieces -/

theorem remembers_new (base64 : Bool) : Remembers (.new base64) [] where
  inside := List.not_mem_nil
  four := rfl
  blank := fun _ => rfl
  text := fun text => absurd rfl text

theorem splitLines_line {line : Bytes} (inside : 0x0A ∉ line) :
    splitLines line = [line] := by
  induction line with
  | nil => rfl
  | cons b line ih =>
      have other : b ≠ 0x0A := fun same => inside (same ▸ .head _)
      rw [splitLines, if_neg other, ih fun member => inside (.tail _ member)]

/-- What comes of feeding a piece after a line that is begun: the search stops
at a line that ends a body, or it remembers the line it is in. -/
theorem Remembers.feed (remembers : Remembers t line) (pending : t.found = false)
    (data : Bytes) :
    (t.feed data).1.base64 = t.base64 ∧
      match t.feed data with
      | (t', true) => t'.found = true ∧ ∀ more,
          (splitLines (line ++ data ++ more)).any (EndsBody t.base64) = true
      | (t', false) => t'.found = false ∧ ∃ line', Remembers t' line' ∧
          ∀ more, (splitLines (line ++ data ++ more)).any (EndsBody t.base64) =
            (splitLines (line' ++ more)).any (EndsBody t.base64) := by
  induction data generalizing t line with
  | nil =>
      refine ⟨rfl, pending, line, remembers, ?_⟩
      intro more
      rw [List.append_nil]
  | cons b data ih =>
      rw [Terminator.feed]
      by_cases ends : b = 0x0A
      · subst ends
        have found := remembers.found_endLine
        have split : ∀ more, splitLines (line ++ 0x0A :: data ++ more) =
            line :: splitLines (data ++ more) := by
          intro more
          rw [List.append_assoc, List.cons_append,
            splitLines_append remembers.inside]
        rw [pending, Bool.false_or] at found
        rw [if_pos rfl]
        dsimp only
        by_cases last : t.endLine.found = true
        · rw [if_pos last]
          refine ⟨rfl, last, ?_⟩
          intro more
          rw [split, List.any_cons, ← found, last, Bool.true_or]
        · rw [if_neg last]
          have again := ih remembers.endLine (Bool.eq_false_iff.mpr last)
          have lost : EndsBody t.base64 line = false := by
            rw [← found]
            exact Bool.eq_false_iff.mpr last
          simp only [split, List.any_cons, lost, Bool.false_or]
          exact again
      · rw [if_neg ends]
        have split : ∀ more, line ++ b :: data ++ more =
            line ++ [b] ++ data ++ more := by
          intro more
          rw [List.append_assoc line [b], List.singleton_append]
        have base64 : (t.step b).base64 = t.base64 := by
          unfold Terminator.step
          split
          · rfl
          · split <;> rfl
        have stays : (t.step b).found = t.found := by
          unfold Terminator.step
          split
          · rfl
          · split <;> rfl
        have again := ih (remembers.step ends) (stays.trans pending)
        simp only [split, base64] at again ⊢
        exact again

theorem Remembers.feedAll (remembers : Remembers t line)
    (pending : t.found = false) (pieces : List Bytes) :
    (t.feedAll pieces).finish =
      (splitLines (line ++ pieces.flatten)).any (EndsBody t.base64) := by
  induction pieces generalizing t line with
  | nil =>
      rw [List.flatten_nil, List.append_nil, splitLines_line remembers.inside,
        List.any_cons, List.any_nil, Bool.or_false, Terminator.feedAll,
        Terminator.finish, remembers.found_endLine, pending, Bool.false_or]
  | cons piece pieces ih =>
      obtain ⟨base64, fed⟩ := remembers.feed pending piece
      rw [Terminator.feedAll, List.flatten_cons, ← List.append_assoc]
      rcases step : t.feed piece with ⟨t', stop⟩
      rw [step] at base64 fed
      cases stop with
      | true =>
          obtain ⟨found, all⟩ := fed
          rw [all]
          show t'.endLine.found = true
          unfold Terminator.endLine
          dsimp only
          rw [found, Bool.true_or, ite_self]
      | false =>
          obtain ⟨found, line', remembers', same⟩ := fed
          rw [same, ih remembers' found, base64]

theorem endsBody_stripCr (base64 : Bool) (line : Bytes) :
    EndsBody base64 (stripCr line) = EndsBody base64 line := by
  unfold EndsBody
  rw [trimAscii_stripCr]

theorem terminator_pieces (base64 : Bool) (pieces : List Bytes) :
    ((Terminator.new base64).feedAll pieces).finish =
      (uuLines pieces.flatten).any (EndsBody base64) := by
  have lines : EndsBody base64 ∘ stripCr = EndsBody base64 :=
    funext (endsBody_stripCr base64)
  rw [(remembers_new base64).feedAll rfl, List.nil_append, uuLines,
    List.any_map, lines]
  rfl

end Exav.Unpack
