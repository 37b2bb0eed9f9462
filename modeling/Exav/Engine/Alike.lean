import Exav.Engine.Unlimited

/-!
# How far a program reads

A step of an element goes no further than the element's width, and a program no
further than the sum of its widths.  Backward, an element of one width leads
from each place it can end at to one place it can start at.
-/

namespace Exav.Engine

open Exav.Interval Exav.Visit

/-! ## One element -/

section

variable {buf : Bytes} {nocase : Bool} {toks : List Elem} {d lo hi top : Nat}

private theorem le_foldl_max (lengths : List Nat) (start : Nat) :
    start ≤ lengths.foldl max start ∧
      ∀ l ∈ lengths, l ≤ lengths.foldl max start := by
  induction lengths generalizing start with
  | nil => simp
  | cons first rest ih =>
      obtain ⟨above, bounded⟩ := ih (max start first)
      rw [List.foldl_cons]
      refine ⟨by omega, ?_⟩
      intro l member
      rcases List.mem_cons.mp member with rfl | later
      · omega
      · exact bounded l later

theorem steps_bounded {tok : Elem} {p q w : Nat}
    (formed : tok.WellFormed) (steps : tok.Steps buf nocase p q)
    (width : maxWidth tok = some w) : q ≤ p + w := by
  have widest {α : Type} {opts : List (List α)} {o : List α}
      (member : o ∈ opts) :
      o.length ≤ (opts.map List.length).foldl max 0 :=
    (le_foldl_max _ 0).2 o.length (List.mem_map.mpr ⟨o, member, rfl⟩)
  cases tok with
  | bytes b =>
      cases width
      exact ((Elem.steps_bytes_iff formed).mp steps).1.le
  | anyByte =>
      cases width
      exact (Elem.steps_anyByte_iff.mp steps).1.le
  | hiNibble h =>
      cases width
      exact (Elem.steps_hiNibble_iff.mp steps).1.le
  | loNibble l =>
      cases width
      exact (Elem.steps_loNibble_iff.mp steps).1.le
  | gap min max => exact (Elem.steps_gap_iff.mp steps).2.1 w width
  | alt opts neg =>
      cases width
      cases neg with
      | false =>
          obtain ⟨o, member, here, _⟩ := Elem.steps_alt_iff.mp steps
          have bounded := widest member
          omega
      | true =>
          obtain ⟨nonempty, equalWidths⟩ := formed
          obtain ⟨l, _, widths⟩ := equalWidths rfl
          obtain ⟨o, member⟩ := List.exists_mem_of_ne_nil opts nonempty
          have here := ((Elem.steps_neg_iff nonempty widths).mp steps).1
          have bounded := widest member
          rw [widths o member] at bounded
          omega
  | altMasked opts =>
      cases width
      obtain ⟨o, member, here, _⟩ := Elem.steps_altMasked_iff.mp steps
      have bounded := widest member
      omega

/-! ## Whole programs -/

/-- One step of the sum that `maxTotalWidth` makes. -/
private def addWidth (sum : Nat) (tok : Elem) : Option Nat := do
  let w ← maxWidth tok
  if sum + w ≤ usizeMax then some (sum + w) else none

private theorem addWidth_eq_some {sum w : Nat} {tok : Elem} :
    addWidth sum tok = some w ↔
      ∃ first, maxWidth tok = some first ∧ sum + first ≤ usizeMax ∧
        w = sum + first := by
  unfold addWidth
  cases maxWidth tok with
  | none => simp
  | some first =>
      by_cases fits : sum + first ≤ usizeMax
      · simp [fits, eq_comm]
      · simp [fits]

/-- A sum that fits from further on fits from before, by as much less. -/
private theorem foldlM_addWidth {start extra w : Nat}
    (total : toks.foldlM addWidth (start + extra) = some w) :
    ∃ rest, toks.foldlM addWidth start = some rest ∧ w = rest + extra := by
  induction toks generalizing start with
  | nil =>
      cases total
      exact ⟨start, rfl, rfl⟩
  | cons tok toks ih =>
      rw [List.foldlM_cons] at total ⊢
      obtain ⟨next, added, rest⟩ := Option.bind_eq_some_iff.mp total
      obtain ⟨first, width, fits, rfl⟩ := addWidth_eq_some.mp added
      rw [Nat.add_right_comm] at rest
      obtain ⟨sum, tail, same⟩ := ih rest
      have head : addWidth start tok = some (start + first) :=
        addWidth_eq_some.mpr ⟨first, width, by omega, rfl⟩
      refine ⟨sum, ?_, same⟩
      rw [head]
      exact tail

theorem maxTotalWidth_cons {tok : Elem} {w : Nat}
    (total : maxTotalWidth (tok :: toks) = some w) :
    ∃ first rest, maxWidth tok = some first ∧
      maxTotalWidth toks = some rest ∧ w = first + rest := by
  have folded : (tok :: toks).foldlM addWidth 0 = some w := total
  rw [List.foldlM_cons] at folded
  obtain ⟨next, added, tail⟩ := Option.bind_eq_some_iff.mp folded
  obtain ⟨first, width, _, rfl⟩ := addWidth_eq_some.mp added
  obtain ⟨rest, alone, rfl⟩ := foldlM_addWidth tail
  exact ⟨first, rest, width, alone, Nat.add_comm rest first⟩

/-! ## Backward -/

theorem setContains_iff {ivs : List Interval} {p : Nat}
    (separated : Separated ivs) (proper : Proper ivs) :
    setContains ivs p = true ↔ Covers ivs p := by
  rw [setContains]
  cases found : greatestIn ivs p p with
  | none =>
      have absent := (greatestIn_eq_none_iff separated proper).mp found p le_rfl
        le_rfl
      simp [absent]
  | some position =>
      obtain ⟨lower, upper, member, _⟩ :=
        greatestIn_eq_some separated proper found
      rw [show position = p by omega] at member
      simp [member]

/-- The elements one consumed length of which decides where they start. -/
def SinglePath : Elem → Prop
  | .bytes _ | .anyByte | .hiNibble _ | .loNibble _ | .alt _ true => True
  | _ => False

theorem stepBack_single {tok : Elem} (need : List Interval)
    {p q : Nat} (single : SinglePath tok) (formed : tok.WellFormed)
    (steps : tok.Steps buf nocase p q) :
    stepBack buf nocase tok need q = some p := by
  cases tok with
  | bytes b =>
      obtain ⟨rfl, occurs⟩ := (Elem.steps_bytes_iff formed).mp steps
      rw [occursAt_haystack] at occurs
      simp [stepBack, occurs]
  | anyByte =>
      obtain ⟨rfl, _⟩ := Elem.steps_anyByte_iff.mp steps
      simp [stepBack]
  | hiNibble h =>
      obtain ⟨rfl, _, same⟩ := Elem.steps_hiNibble_iff.mp steps
      simp [stepBack, same]
  | loNibble l =>
      obtain ⟨rfl, _, same⟩ := Elem.steps_loNibble_iff.mp steps
      simp [stepBack, same]
  | alt opts neg =>
      cases neg with
      | false => exact single.elim
      | true =>
          obtain ⟨nonempty, equalWidths⟩ := formed
          obtain ⟨l, positive, widths⟩ := equalWidths rfl
          have first : (opts.head?.map List.length).getD 0 = l := by
            cases opts with
            | nil => exact (nonempty rfl).elim
            | cons o opts => exact widths o (by simp)
          obtain ⟨rfl, _, differs⟩ :=
            (Elem.steps_neg_iff nonempty widths).mp steps
          have apart : (opts.any fun o =>
              bytesEq o (window buf p l) nocase) = false := by
            rw [List.any_eq_false]
            intro o member equal
            have here := differs o member
            rw [occursAt_haystack, widths o member] at here
            rw [bytesEq_iff] at equal
            rw [bytesEq_iff.mpr equal.symm] at here
            cases here
          have misfit : ¬(l = 0 ∨ p + l < l) := by omega
          simp only [stepBack, first, misfit, if_false, Nat.add_sub_cancel,
            apart, Bool.false_eq_true]
  | _ => exact single.elim

/-- What the backward pass makes of the sets of the forward pass. -/
def backFrom (buf : Bytes) (nocase : Bool) (stop : Nat)
    (sets : List (Elem × List Interval) × List Interval) : Option Nat :=
  if setContains sets.2 stop then stepsBack buf nocase sets.1 stop else none

/-- One more element in front is one more step back at the end. -/
theorem backFrom_cons (buf : Bytes) (nocase : Bool) (tok : Elem) (need : List Interval) (stop : Nat)
    (sets : Option (List (Elem × List Interval) × List Interval)) :
    (sets.map fun (steps, last) => ((tok, need) :: steps, last)).bind
        (backFrom buf nocase stop) =
      (sets.bind (backFrom buf nocase stop)).bind
        (stepBack buf nocase tok need) := by
  cases sets with
  | none => rfl
  | some sets =>
      obtain ⟨steps, last⟩ := sets
      simp only [Option.map_some, Option.bind_some, backFrom]
      split <;> rfl

end

end Exav.Engine
