import Exav.Engine.Alike
import Exav.Engine.GapSplit

/-!
# The backward walk finds the starts there are

A start that `gapSplitMatchBackward` answers is the start of a derivation that
ends at the given position, and where no reachable set was cut off it answers
whenever there is one.
-/

namespace Exav.Engine

open Exav.Interval

section

variable {buf : Bytes} {nocase : Bool}

theorem stepBack_sound {tok : Elem} {need : List Interval} {cur p : Nat}
    (formed : tok.WellFormed) (reachable : Reachable buf need)
    (inside : cur ≤ buf.length)
    (back : stepBack buf nocase tok need cur = some p) :
    tok.Steps buf nocase p cur := by
  cases tok with
  | bytes b =>
      obtain ⟨fits, same⟩ := Option.ite_none_left_eq_some.mp back
      cases same
      simp only [not_or, Nat.not_lt, Bool.not_eq_true,
        Bool.not_eq_false'] at fits
      refine (Elem.steps_bytes_iff formed).mpr ⟨by omega, ?_⟩
      rw [occursAt_haystack]
      exact fits.2
  | anyByte =>
      obtain ⟨fits, same⟩ := Option.ite_none_left_eq_some.mp back
      cases same
      exact Elem.steps_anyByte_iff.mpr ⟨by omega, by omega⟩
  | hiNibble h =>
      obtain ⟨fits, same⟩ := Option.ite_none_left_eq_some.mp back
      cases same
      simp only [not_or, not_not] at fits
      exact Elem.steps_hiNibble_iff.mpr ⟨by omega, by omega, fits.2⟩
  | loNibble l =>
      obtain ⟨fits, same⟩ := Option.ite_none_left_eq_some.mp back
      cases same
      simp only [not_or, not_not] at fits
      exact Elem.steps_loNibble_iff.mpr ⟨by omega, by omega, fits.2⟩
  | gap min max =>
      obtain ⟨fits, found⟩ := Option.ite_none_left_eq_some.mp back
      obtain ⟨lower, upper, _⟩ :=
        greatestIn_eq_some reachable.separated reachable.proper found
      refine Elem.steps_gap_iff.mpr ⟨by omega, ?_, inside⟩
      intro m bound
      cases bound
      rw [Option.getD_some] at lower fits
      omega
  | alt opts neg =>
      cases neg with
      | false =>
          obtain ⟨o, found, same⟩ := Option.map_eq_some_iff.mp back
          have holds := List.find?_some found
          simp only [Bool.and_eq_true, decide_eq_true_eq] at holds
          refine Elem.steps_alt_iff.mpr ⟨o, List.mem_of_find?_eq_some found,
            by omega, inside, ?_⟩
          rw [occursAt_haystack, ← same]
          exact holds.1.2
      | true =>
          obtain ⟨nonempty, equalWidths⟩ := formed
          obtain ⟨l, positive, widths⟩ := equalWidths rfl
          have first : (opts.head?.map List.length).getD 0 = l := by
            cases opts with
            | nil => exact (nonempty rfl).elim
            | cons o opts => exact widths o (by simp)
          simp only [stepBack, first] at back
          obtain ⟨fits, rest⟩ := Option.ite_none_left_eq_some.mp back
          obtain ⟨differs, same⟩ := Option.ite_none_left_eq_some.mp rest
          cases same
          refine (Elem.steps_neg_iff nonempty widths).mpr
            ⟨by omega, inside, ?_⟩
          intro o member
          rw [Bool.eq_false_iff]
          intro occurs
          rw [occursAt_haystack, widths o member, bytesEq_iff] at occurs
          exact differs (List.any_eq_true.mpr
            ⟨o, member, bytesEq_iff.mpr occurs.symm⟩)
  | altMasked opts =>
      obtain ⟨o, found, same⟩ := Option.map_eq_some_iff.mp back
      have holds := List.find?_some found
      simp only [Bool.and_eq_true, decide_eq_true_eq] at holds
      refine Elem.steps_altMasked_iff.mpr ⟨o, List.mem_of_find?_eq_some found,
        by omega, inside, ?_⟩
      rw [← same]
      exact holds.1.2

theorem stepBack_complete {tok : Elem} {need : List Interval} {cur : Nat}
    (formed : tok.WellFormed) (reachable : Reachable buf need)
    (led : tok.Image buf nocase (Covers need) cur) :
    ∃ p, stepBack buf nocase tok need cur = some p ∧ Covers need p := by
  have contains_iff (p : Nat) : setContains need p = true ↔ Covers need p :=
    setContains_iff reachable.separated reachable.proper
  obtain ⟨p, source, steps⟩ := led
  -- A branch that leads here is tried, so one is found.
  have branch {α : Type} {opts : List (List α)} {test : List α → Bool}
      {o : List α} (member : o ∈ opts) (width : cur = p + o.length)
      (holds : test o = true) :
      ∃ p, (opts.find? fun o => cur ≥ o.length && test o &&
        setContains need (cur - o.length)).map (fun o => cur - o.length) =
          some p ∧ Covers need p := by
    have here : cur - o.length = p := by omega
    have taken : (decide (cur ≥ o.length) && test o &&
        setContains need (cur - o.length)) = true := by
      simp only [Bool.and_eq_true, decide_eq_true_eq, contains_iff, here]
      exact ⟨⟨by omega, holds⟩, source⟩
    have some : (opts.find? fun o => cur ≥ o.length && test o &&
        setContains need (cur - o.length)).isSome = true :=
      List.find?_isSome.mpr ⟨o, member, taken⟩
    obtain ⟨chosen, found⟩ := Option.isSome_iff_exists.mp some
    have good := List.find?_some found
    simp only [Bool.and_eq_true, contains_iff] at good
    exact ⟨cur - chosen.length, by rw [found, Option.map_some], good.2⟩
  have single (path : SinglePath tok) :
      ∃ p, stepBack buf nocase tok need cur = some p ∧ Covers need p :=
    ⟨p, stepBack_single need path formed steps, source⟩
  cases tok with
  | bytes b => exact single trivial
  | anyByte => exact single trivial
  | hiNibble h => exact single trivial
  | loNibble l => exact single trivial
  | gap min max =>
      obtain ⟨lower, upper, _⟩ := Elem.steps_gap_iff.mp steps
      have bounds : min ≤ Min.min (max.getD cur) cur ∧
          cur - Min.min (max.getD cur) cur ≤ p ∧ p ≤ cur - min := by
        cases max with
        | none =>
            rw [Option.getD_none]
            omega
        | some max =>
            have short := upper max rfl
            rw [Option.getD_some]
            omega
      have fits : ¬min > Min.min (max.getD cur) cur := by omega
      simp only [stepBack, fits, if_false]
      cases found : greatestIn need (cur - Min.min (max.getD cur) cur)
          (cur - min) with
      | none =>
          exact absurd source ((greatestIn_eq_none_iff reachable.separated
            reachable.proper).mp found p bounds.2.1 bounds.2.2)
      | some position =>
          exact ⟨position, rfl, (greatestIn_eq_some reachable.separated
            reachable.proper found).2.2.1⟩
  | alt opts neg =>
      cases neg with
      | true => exact single trivial
      | false =>
          obtain ⟨o, member, width, _, occurs⟩ := Elem.steps_alt_iff.mp steps
          refine branch member width ?_
          rw [show cur - o.length = p by omega, ← occursAt_haystack]
          exact occurs
  | altMasked opts =>
      obtain ⟨o, member, width, _, holds⟩ :=
        Elem.steps_altMasked_iff.mp steps
      refine branch member width ?_
      rw [show cur - o.length = p by omega]
      exact holds

/-- The walk back ends at the start of a derivation. -/
theorem backFrom_sound {program : List Elem} {cur : List Interval}
    {stop p : Nat} {pools : Pools} (formed : ∀ tok ∈ program, tok.WellFormed)
    (reachable : Reachable buf cur) (valid : pools.occ.Valid buf)
    (inside : stop ≤ buf.length)
    (back : (forwardSets buf nocase program cur pools).1.bind
      (backFrom buf nocase stop) = some p) :
    Derives buf nocase program p stop := by
  induction program generalizing cur pools p with
  | nil =>
      obtain ⟨_, same⟩ := Option.ite_none_right_eq_some.mp back
      cases same
      exact .nil inside
  | cons tok program ih =>
      have tokFormed := formed tok (by simp)
      have step := advance_spec nocase tokFormed reachable valid
      rw [forwardSets] at back
      split at back
      · cases back
      · split at back
        · cases back
        · rw [backFrom_cons] at back
          obtain ⟨q, later, here⟩ := Option.bind_eq_some_iff.mp back
          have tail := ih (fun later member => formed later (by simp [member]))
            step.reachable step.valid later
          have head := stepBack_sound tokFormed reachable
            (tail.ordered.trans inside) here
          exact .cons head tail

theorem forwardSets_whole {program : List Elem} {cur : List Interval}
    {pools : Pools} (formed : ∀ tok ∈ program, tok.WellFormed)
    (reachable : Reachable buf cur) (valid : pools.occ.Valid buf)
    (whole : (forwardSets buf nocase program cur pools).2.truncated = false) :
    pools.truncated = false := by
  induction program generalizing cur pools with
  | nil => exact whole
  | cons tok program ih =>
      have tokFormed := formed tok (by simp)
      have step := advance_spec nocase tokFormed reachable valid
      rw [forwardSets] at whole
      split at whole
      · exact whole
      · split at whole
        · cases whole
        · have next := ih (fun later member => formed later (by simp [member]))
            step.reachable step.valid whole
          rw [← Bool.not_eq_true] at next ⊢
          exact fun flagged => next (step.flagged flagged)

/-- A walk back that is not cut off finds a start when there is one. -/
theorem backFrom_complete {program : List Elem} {cur : List Interval}
    {stop p : Nat} {pools : Pools} (formed : ∀ tok ∈ program, tok.WellFormed)
    (reachable : Reachable buf cur) (valid : pools.occ.Valid buf)
    (whole : (forwardSets buf nocase program cur pools).2.truncated = false)
    (source : Covers cur p) (derivation : Derives buf nocase program p stop) :
    ∃ p, (forwardSets buf nocase program cur pools).1.bind
      (backFrom buf nocase stop) = some p ∧ Covers cur p := by
  induction program generalizing cur pools p with
  | nil =>
      cases derivation
      have here := (setContains_iff reachable.separated
        reachable.proper).mpr source
      exact ⟨_, if_pos here, source⟩
  | cons tok program ih =>
      obtain ⟨q, head, tail⟩ := Derives.cons_iff.mp derivation
      have tokFormed := formed tok (by simp)
      have restFormed : ∀ later ∈ program, later.WellFormed :=
        fun later member => formed later (by simp [member])
      have step := advance_spec nocase tokFormed reachable valid
      have upright := (Upright.cons_iff.mp derivation.upright).1
      have nonempty : cur.isEmpty = false := by
        cases cur with
        | nil => exact (covers_nil p source).elim
        | cons _ _ => rfl
      rw [forwardSets] at whole ⊢
      simp only [nonempty, Bool.false_eq_true, if_false] at whole ⊢
      split at whole
      case isTrue => cases whole
      case isFalse left =>
        have unflagged :=
          forwardSets_whole restFormed step.reachable step.valid whole
        have next : Covers (advance buf nocase tok cur pools).1 q :=
          step.complete unflagged q (Elem.Image.spreads ⟨p, source, head⟩)
        obtain ⟨later, found, covered⟩ :=
          ih restFormed step.reachable step.valid whole next tail
        have led := (step.sound later covered).image upright
        obtain ⟨p, back, here⟩ := stepBack_complete tokFormed reachable led
        refine ⟨p, ?_, here⟩
        have goes := backFrom_cons buf nocase tok cur stop
          (forwardSets buf nocase program (advance buf nocase tok cur pools).1
            (advance buf nocase tok cur pools).2).1
        rw [found, Option.bind_some, back] at goes
        simpa only [left, Bool.false_eq_true, if_false] using goes

/-- A derivation is no longer than its elements are wide. -/
theorem Derives.bounded {program : List Elem} {p stop w : Nat}
    (formed : ∀ tok ∈ program, tok.WellFormed)
    (derivation : Derives buf nocase program p stop)
    (total : maxTotalWidth program = some w) : stop ≤ p + w := by
  induction derivation generalizing w with
  | nil => exact Nat.le_add_right _ w
  | cons head tail ih =>
      obtain ⟨first, rest, width, later, rfl⟩ := maxTotalWidth_cons total
      have here := steps_bounded (formed _ (by simp)) head width
      have there := ih (fun tok member => formed tok (by simp [member])) later
      omega

/-- A start answered is that of a derivation, and without a cut-off there is an
answer whenever there is a derivation. -/
theorem gapSplitMatchBackward_spec {program : List Elem} {stop : Nat}
    {pools : Pools} (nocase : Bool) (formed : ∀ tok ∈ program, tok.WellFormed)
    (inside : stop ≤ buf.length) (valid : pools.occ.Valid buf) :
    let result := gapSplitMatchBackward buf nocase program stop pools
    (∀ p, result.1 = some p → Derives buf nocase program p stop) ∧
      (result.2.truncated = false → ∀ p, Derives buf nocase program p stop →
        result.1.isSome = true) := by
  have reachable := reachable_interval (leftmostStart_le program stop) inside
  rw [gapSplitMatchBackward]
  split
  case isTrue empty =>
    subst empty
    refine ⟨?_, fun _ _ _ => rfl⟩
    intro p same
    cases same
    exact .nil inside
  case isFalse =>
    refine ⟨?_, ?_⟩
    · intro p back
      exact backFrom_sound formed reachable valid inside back
    · intro whole p derivation
      have near : leftmostStart program stop ≤ p := by
        rw [leftmostStart]
        cases total : maxTotalWidth program with
        | none => exact Nat.zero_le p
        | some w =>
            have bounded := derivation.bounded formed total
            dsimp only
            omega
      have source : Covers [(leftmostStart program stop, stop)] p := by
        simpa using ⟨near, derivation.ordered⟩
      obtain ⟨found, back, _⟩ := backFrom_complete formed reachable valid whole
        source derivation
      exact Option.isSome_iff_exists.mpr ⟨found, back⟩

end

end Exav.Engine
