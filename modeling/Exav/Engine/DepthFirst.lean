import Exav.Engine.Backward

/-!
# The walk the backward simulator replaces

A walk from right to left tries what the last element may have consumed one
choice after another, and takes up the elements before it from each.  The first
choice that succeeds is the first that is reachable from some start, and that is
the one the simulator steps back to.
-/

namespace Exav.Engine

open Exav.Interval Exav.Visit

section

variable (buf : Bytes) (nocase : Bool)

/-- Where one element may start that ends at `stop`, in the order they are
tried: the shortest gap first, the earliest option first. -/
def choices (tok : Elem) (stop : Nat) : List Nat :=
  match tok with
  | .bytes b =>
      if stop < b.length ∨
          !bytesEq (window buf (stop - b.length) b.length) b nocase then []
      else [stop - b.length]
  | .anyByte => if stop = 0 then [] else [stop - 1]
  | .hiNibble h =>
      if stop = 0 ∨ byteAt buf (stop - 1) >>> 4 ≠ h then [] else [stop - 1]
  | .loNibble l =>
      if stop = 0 ∨ byteAt buf (stop - 1) &&& 0x0f ≠ l then [] else [stop - 1]
  | .gap min max =>
      let hi := Min.min (max.getD stop) stop
      if min > hi then []
      else (List.range' min (hi - min + 1)).map fun g => stop - g
  | .altMasked opts =>
      opts.filterMap fun o =>
        if stop ≥ o.length &&
            maskedEq o (window buf (stop - o.length) o.length) nocase then
          some (stop - o.length)
        else none
  | .alt opts true =>
      let l := (opts.head?.map List.length).getD 0
      if l = 0 ∨ stop < l then []
      else if opts.any fun o => bytesEq o (window buf (stop - l) l) nocase then
        []
      else [stop - l]
  | .alt opts false =>
      opts.filterMap fun o =>
        if stop ≥ o.length &&
            bytesEq (window buf (stop - o.length) o.length) o nocase then
          some (stop - o.length)
        else none

/-- Walk back over elements, the last one first. -/
def walkBack : List Elem → Nat → Option Nat
  | [], stop => some stop
  | tok :: before, stop =>
      (choices buf nocase tok stop).findSome? (walkBack before)

/-- Match `toks` ending exactly at `stop` and return the pattern start. -/
def matchBackward (toks : List Elem) (stop : Nat) : Option Nat :=
  walkBack buf nocase toks.reverse stop

end

section

variable {buf : Bytes} {nocase : Bool}

theorem findSome?_eq_find? {α β : Type} {f : α → Option β} {good : α → Bool}
    {items : List α} (known : ∀ a ∈ items, good a = (f a).isSome) :
    items.findSome? f = (items.find? good).bind f := by
  induction items with
  | nil => rfl
  | cons a items ih =>
      have here := known a (by simp)
      rw [List.findSome?_cons, List.find?_cons]
      cases found : f a with
      | none =>
          rw [found, Option.isSome_none] at here
          rw [here]
          exact ih fun b member => known b (by simp [member])
      | some b =>
          rw [found, Option.isSome_some] at here
          rw [here, Option.bind_some, found]

/-! ## One element -/

theorem mem_oneBack_iff (good : Nat → Prop) [DecidablePred good] {p stop : Nat}
    (inside : stop ≤ buf.length) :
    p ∈ (if stop = 0 ∨ ¬good (stop - 1) then [] else [stop - 1]) ↔
      stop = p + 1 ∧ p < buf.length ∧ good p := by
  split
  · rename_i misfit
    simp only [List.not_mem_nil, false_iff]
    rintro ⟨width, within, same⟩
    have back : stop - 1 = p := by omega
    rw [back] at misfit
    exact misfit.elim (by omega) fun differs => differs same
  · rename_i fits
    simp only [not_or, not_not] at fits
    rw [List.mem_singleton]
    constructor
    · intro same
      subst same
      exact ⟨by omega, by omega, fits.2⟩
    · intro steps
      omega

theorem mem_choices_iff {tok : Elem} {p stop : Nat} (formed : tok.WellFormed)
    (inside : stop ≤ buf.length) :
    p ∈ choices buf nocase tok stop ↔ tok.Steps buf nocase p stop := by
  cases tok with
  | bytes b =>
      rw [Elem.steps_bytes_iff formed, occursAt_haystack]
      simp only [choices]
      split
      · rename_i misfit
        simp only [List.not_mem_nil, false_iff]
        rintro ⟨width, occurs⟩
        have back : stop - b.length = p := by omega
        rw [back, occurs] at misfit
        simp only [Bool.not_true, Bool.false_eq_true, or_false] at misfit
        omega
      · rename_i fits
        simp only [not_or, Nat.not_lt, Bool.not_eq_true,
          Bool.not_eq_false'] at fits
        rw [List.mem_singleton]
        constructor
        · intro same
          subst same
          exact ⟨by omega, fits.2⟩
        · intro steps
          omega
  | anyByte =>
      rw [Elem.steps_anyByte_iff]
      simp only [choices]
      split
      · simp only [List.not_mem_nil, false_iff]
        omega
      · rw [List.mem_singleton]
        omega
  | hiNibble h =>
      rw [Elem.steps_hiNibble_iff]
      exact mem_oneBack_iff (fun q => byteAt buf q >>> 4 = h) inside
  | loNibble l =>
      rw [Elem.steps_loNibble_iff]
      exact mem_oneBack_iff (fun q => byteAt buf q &&& 0x0f = l) inside
  | gap min max =>
      rw [Elem.steps_gap_iff]
      simp only [choices]
      split
      · rename_i empty
        simp only [List.not_mem_nil, false_iff]
        rintro ⟨lower, upper, -⟩
        cases max with
        | none =>
            rw [Option.getD_none] at empty
            omega
        | some max =>
            have short := upper max rfl
            rw [Option.getD_some] at empty
            omega
      · rename_i fits
        rw [List.mem_map]
        constructor
        · rintro ⟨g, member, same⟩
          rw [List.mem_range'_1] at member
          refine ⟨by omega, ?_, inside⟩
          rintro m ⟨⟩
          rw [Option.getD_some] at member fits
          omega
        · rintro ⟨lower, upper, -⟩
          refine ⟨stop - p, ?_, by omega⟩
          rw [List.mem_range'_1]
          cases max with
          | none =>
              rw [Option.getD_none] at fits ⊢
              omega
          | some max =>
              have short := upper max rfl
              rw [Option.getD_some] at fits ⊢
              omega
  | altMasked opts =>
      rw [Elem.steps_altMasked_iff]
      simp only [choices]
      rw [List.mem_filterMap]
      constructor
      · rintro ⟨o, member, chosen⟩
        obtain ⟨holds, same⟩ := Option.ite_none_right_eq_some.mp chosen
        simp only [Bool.and_eq_true, decide_eq_true_eq] at holds
        cases same
        exact ⟨o, member, by omega, inside, holds.2⟩
      · rintro ⟨o, member, width, -, holds⟩
        have back : stop - o.length = p := by omega
        refine ⟨o, member, ?_⟩
        rw [back, holds, Bool.and_true, if_pos (by simpa using (by omega))]
  | alt opts neg =>
      cases neg with
      | false =>
          rw [Elem.steps_alt_iff]
          simp only [choices]
          rw [List.mem_filterMap]
          constructor
          · rintro ⟨o, member, chosen⟩
            obtain ⟨holds, same⟩ := Option.ite_none_right_eq_some.mp chosen
            simp only [Bool.and_eq_true, decide_eq_true_eq] at holds
            cases same
            refine ⟨o, member, by omega, inside, ?_⟩
            rw [occursAt_haystack]
            exact holds.2
          · rintro ⟨o, member, width, -, occurs⟩
            have back : stop - o.length = p := by omega
            rw [occursAt_haystack] at occurs
            refine ⟨o, member, ?_⟩
            rw [back, occurs, Bool.and_true, if_pos (by simpa using (by omega))]
      | true =>
          obtain ⟨nonempty, equalWidths⟩ := formed
          obtain ⟨l, positive, widths⟩ := equalWidths rfl
          have first : (opts.head?.map List.length).getD 0 = l := by
            cases opts with
            | nil => exact (nonempty rfl).elim
            | cons o opts => exact widths o (by simp)
          have any_iff (q : Nat) : (opts.any fun o =>
              bytesEq o (window buf q l) nocase) = true ↔
              ¬ ∀ o ∈ opts, occursAt (haystack nocase buf)
                (haystack nocase o) q = false := by
            rw [List.any_eq_true]
            constructor
            · rintro ⟨o, member, equal⟩ differs
              have here := differs o member
              rw [occursAt_haystack, widths o member,
                bytesEq_iff.mpr (bytesEq_iff.mp equal).symm] at here
              cases here
            · intro some'
              simp only [not_forall, Bool.not_eq_false] at some'
              obtain ⟨o, member, occurs⟩ := some'
              rw [occursAt_haystack, widths o member] at occurs
              exact ⟨o, member, bytesEq_iff.mpr (bytesEq_iff.mp occurs).symm⟩
          rw [Elem.steps_neg_iff nonempty widths]
          simp only [choices]
          rw [first]
          split
          · simp only [List.not_mem_nil, false_iff]
            omega
          · split
            · rename_i fits excluded
              simp only [List.not_mem_nil, false_iff]
              rintro ⟨width, -, differs⟩
              have back : stop - l = p := by omega
              rw [back] at excluded
              exact (any_iff p).mp excluded differs
            · rename_i fits differs
              rw [List.mem_singleton]
              constructor
              · intro same
                subst same
                refine ⟨by omega, inside, ?_⟩
                by_contra some'
                exact differs ((any_iff _).mpr some')
              · intro steps
                omega

/-! ## The whole walk -/

/-- Where the elements may start, the last one first, in the order the walk
comes to them. -/
def walks (buf : Bytes) (nocase : Bool) : List Elem → Nat → List Nat
  | [], stop => [stop]
  | tok :: before, stop =>
      (choices buf nocase tok stop).flatMap (walks buf nocase before)

theorem walkBack_eq_head? (before : List Elem) (stop : Nat) :
    walkBack buf nocase before stop = (walks buf nocase before stop).head? := by
  induction before generalizing stop with
  | nil => rfl
  | cons tok before ih =>
      have same : walkBack buf nocase before =
          fun q => (walks buf nocase before q).head? := funext ih
      rw [walkBack, walks, List.head?_flatMap, same]

/-- What stands before all of the elements is walked last. -/
theorem walks_append (later : List Elem) (tok : Elem) (stop : Nat) :
    walks buf nocase (later ++ [tok]) stop =
      (walks buf nocase later stop).flatMap (choices buf nocase tok) := by
  induction later generalizing stop with
  | nil => simp [walks]
  | cons last later ih =>
      have same : walks buf nocase (later ++ [tok]) = fun q =>
          (walks buf nocase later q).flatMap (choices buf nocase tok) :=
        funext ih
      rw [List.cons_append, walks, walks, List.flatMap_assoc, same]

theorem mem_walks_iff {program : List Elem} {p stop : Nat}
    (formed : ∀ tok ∈ program, tok.WellFormed) (inside : stop ≤ buf.length) :
    p ∈ walks buf nocase program.reverse stop ↔
      Derives buf nocase program p stop := by
  induction program generalizing p with
  | nil =>
      rw [List.reverse_nil, walks, List.mem_singleton]
      constructor
      · intro same
        subst same
        exact .nil inside
      · intro derivation
        cases derivation
        rfl
  | cons tok program ih =>
      have tail (q : Nat) := ih (p := q)
        fun later member => formed later (by simp [member])
      rw [List.reverse_cons, walks_append, List.mem_flatMap, Derives.cons_iff]
      constructor
      · rintro ⟨q, member, chosen⟩
        have derivation := (tail q).mp member
        have within := derivation.ordered.trans inside
        exact ⟨q, (mem_choices_iff (formed tok (by simp)) within).mp chosen,
          derivation⟩
      · rintro ⟨q, steps, derivation⟩
        have within := derivation.ordered.trans inside
        exact ⟨q, (tail q).mpr derivation,
          (mem_choices_iff (formed tok (by simp)) within).mpr steps⟩

theorem matchBackward_isSome_iff {program : List Elem} {stop : Nat}
    (formed : ∀ tok ∈ program, tok.WellFormed) (inside : stop ≤ buf.length) :
    (matchBackward buf nocase program stop).isSome = true ↔
      ∃ p, Derives buf nocase program p stop := by
  rw [matchBackward, walkBack_eq_head?, List.isSome_head?, ne_eq,
    List.eq_nil_iff_forall_not_mem, not_forall_not]
  exact exists_congr fun p => mem_walks_iff formed inside

/-! ## The step back is the first choice in the set -/

/-- An element one consumed length of which decides where it starts has no
second choice. -/
theorem choices_single {tok : Elem} (need : List Interval) {cur : Nat}
    (single : SinglePath tok) :
    choices buf nocase tok cur =
      (stepBack buf nocase tok need cur).toList := by
  cases tok with
  | alt opts neg =>
      cases neg with
      | false => exact single.elim
      | true =>
          simp only [choices, stepBack]
          split
          · rfl
          · split <;> rfl
  | gap min max => exact single.elim
  | altMasked opts => exact single.elim
  | _ =>
      simp only [choices, stepBack]
      split <;> rfl

theorem find?_options {α : Type} {opts : List (List α)}
    {taken : List α → Bool} {inSet : Nat → Bool} {cur : Nat} :
    (opts.filterMap fun o =>
        if taken o then some (cur - o.length) else none).find? inSet =
      (opts.find? fun o => taken o && inSet (cur - o.length)).map
        fun o => cur - o.length := by
  induction opts with
  | nil => rfl
  | cons o opts ih =>
      rw [List.filterMap_cons, List.find?_cons]
      cases choose : taken o with
      | false => simpa using ih
      | true =>
          cases lands : inSet (cur - o.length) with
          | false => simpa [lands] using ih
          | true => simp [lands]

theorem stepBack_eq_find? {tok : Elem} {need : List Interval} {cur : Nat}
    (formed : tok.WellFormed) (reachable : Reachable buf need)
    (led : tok.Image buf nocase (Covers need) cur) :
    stepBack buf nocase tok need cur =
      (choices buf nocase tok cur).find? (setContains need) := by
  have contains_iff (p : Nat) : setContains need p = true ↔ Covers need p :=
    setContains_iff reachable.separated reachable.proper
  obtain ⟨p, source, steps⟩ := led
  have single (path : SinglePath tok) :
      stepBack buf nocase tok need cur =
        (choices buf nocase tok cur).find? (setContains need) := by
    rw [choices_single need path, stepBack_single need path formed steps]
    simp [(contains_iff p).mpr source]
  cases tok with
  | bytes b => exact single trivial
  | anyByte => exact single trivial
  | hiNibble h => exact single trivial
  | loNibble l => exact single trivial
  | gap min max =>
      simp only [stepBack, choices]
      split
      · rfl
      · rename_i fits
        rw [List.find?_map]
        have short : Min.min (max.getD cur) cur ≤ cur := Nat.min_le_right _ _
        set hi := Min.min (max.getD cur) cur
        cases found : greatestIn need (cur - hi) (cur - min) with
        | none =>
            have missed := (greatestIn_eq_none_iff reachable.separated
              reachable.proper).mp found
            rw [eq_comm, Option.map_eq_none_iff, List.find?_eq_none]
            intro g member
            rw [List.mem_range'_1] at member
            rw [Function.comp_apply, contains_iff]
            exact missed (cur - g) (by omega) (by omega)
        | some q =>
            obtain ⟨lower, upper, covered, greatest⟩ :=
              greatestIn_eq_some reachable.separated reachable.proper found
            have first : (List.range' min (hi - min + 1)).find?
                (setContains need ∘ fun g => cur - g) = some (cur - q) := by
              rw [List.find?_range'_eq_some]
              refine ⟨?_, ?_, ?_⟩
              · rw [Function.comp_apply, contains_iff]
                rwa [show cur - (cur - q) = q by omega]
              · rw [List.mem_range'_1]
                omega
              · intro g lower' before
                rw [Function.comp_apply, Bool.not_eq_true', Bool.eq_false_iff,
                  ne_eq, contains_iff]
                intro there
                have below := greatest (cur - g) (by omega) there
                omega
            rw [first, Option.map_some, show cur - (cur - q) = q by omega]
  | alt opts neg =>
      cases neg with
      | true => exact single trivial
      | false => exact find?_options.symm
  | altMasked opts => exact find?_options.symm

/-! ## The whole way back -/

theorem backFrom_eq_find? {program : List Elem} {cur : List Interval}
    {stop : Nat} {pools : Pools} (formed : ∀ tok ∈ program, tok.WellFormed)
    (upright : Upright program) (reachable : Reachable buf cur)
    (valid : pools.occ.Valid buf) (inside : stop ≤ buf.length)
    (whole : (forwardSets buf nocase program cur pools).2.truncated = false) :
    (forwardSets buf nocase program cur pools).1.bind
        (backFrom buf nocase stop) =
      (walks buf nocase program.reverse stop).find? (setContains cur) := by
  induction program generalizing cur pools with
  | nil =>
      cases here : setContains cur stop with
      | false => simp [forwardSets, backFrom, walks, here]
      | true => simp [forwardSets, backFrom, walks, here, stepsBack]
  | cons tok program ih =>
      obtain ⟨tokUpright, restUpright⟩ := Upright.cons_iff.mp upright
      have tokFormed := formed tok (by simp)
      have restFormed : ∀ later ∈ program, later.WellFormed :=
        fun later member => formed later (by simp [member])
      have step := advance_spec nocase tokFormed reachable valid
      rw [forwardSets] at whole ⊢
      split at whole
      case isTrue empty =>
        rw [if_pos empty]
        rw [List.isEmpty_iff] at empty
        subst empty
        rw [Option.bind_none, eq_comm, List.find?_eq_none]
        intro q _
        rw [setContains_iff reachable.separated reachable.proper]
        exact covers_nil q
      case isFalse nonempty =>
        split at whole
        case isTrue => cases whole
        case isFalse left =>
          rw [if_neg nonempty, if_neg left]
          have unflagged :=
            forwardSets_whole restFormed step.reachable step.valid whole
          rw [backFrom_cons, ih restFormed restUpright step.reachable
            step.valid whole, List.reverse_cons, walks_append,
            List.find?_flatMap]
          -- A position is in the next set when a choice from it lands in this.
          have known : ∀ q ∈ walks buf nocase program.reverse stop,
              setContains (advance buf nocase tok cur pools).1 q =
                ((choices buf nocase tok q).find?
                  (setContains cur)).isSome := by
            intro q member
            have derivation := (mem_walks_iff restFormed inside).mp member
            have within := derivation.ordered.trans inside
            rw [Bool.eq_iff_iff, setContains_iff step.reachable.separated
              step.reachable.proper, List.find?_isSome]
            constructor
            · intro covered
              obtain ⟨p, source, steps⟩ :=
                (step.sound q covered).image tokUpright
              exact ⟨p, (mem_choices_iff tokFormed within).mpr steps,
                (setContains_iff reachable.separated reachable.proper).mpr
                  source⟩
            · rintro ⟨p, chosen, source⟩
              exact step.complete unflagged q (Elem.Image.spreads
                ⟨p, (setContains_iff reachable.separated
                  reachable.proper).mp source,
                  (mem_choices_iff tokFormed within).mp chosen⟩)
          rw [findSome?_eq_find? known]
          cases found : (walks buf nocase program.reverse stop).find?
              (setContains (advance buf nocase tok cur pools).1) with
          | none => rfl
          | some q =>
              have covered := (setContains_iff step.reachable.separated
                step.reachable.proper).mp (List.find?_some found)
              exact stepBack_eq_find? tokFormed reachable
                ((step.sound q covered).image tokUpright)

theorem Derives.leftmostStart_le {program : List Elem} {p stop : Nat}
    (formed : ∀ tok ∈ program, tok.WellFormed)
    (derivation : Derives buf nocase program p stop) :
    leftmostStart program stop ≤ p := by
  rw [leftmostStart]
  cases total : maxTotalWidth program with
  | none => exact Nat.zero_le p
  | some w =>
      have bounded := derivation.bounded formed total
      dsimp only
      omega

/-- Where no reachable set is cut off, the simulator answers the start the walk
finds first, and it answers whenever there is a derivation. -/
theorem gapSplitMatchBackward_eq {program : List Elem} {stop : Nat}
    {pools : Pools} (formed : ∀ tok ∈ program, tok.WellFormed)
    (inside : stop ≤ buf.length) (valid : pools.occ.Valid buf)
    (whole : (gapSplitMatchBackward buf nocase program stop
      pools).2.truncated = false) :
    (gapSplitMatchBackward buf nocase program stop pools).1 =
        matchBackward buf nocase program stop ∧
      ((gapSplitMatchBackward buf nocase program stop pools).1.isSome = true ↔
        ∃ p, Derives buf nocase program p stop) := by
  have some_iff := @matchBackward_isSome_iff buf nocase program stop formed inside
  suffices same : (gapSplitMatchBackward buf nocase program stop pools).1 =
      matchBackward buf nocase program stop from
    ⟨same, by rw [same]; exact some_iff⟩
  by_cases upright : Upright program
  · have reachable :=
      reachable_interval (Engine.leftmostStart_le program stop) inside
    rw [gapSplitMatchBackward] at whole ⊢
    split
    case isTrue empty =>
      subst empty
      rfl
    case isFalse nonempty =>
      rw [if_neg nonempty] at whole
      have back := backFrom_eq_find? formed upright reachable valid inside whole
      refine Eq.trans back ?_
      rw [matchBackward, walkBack_eq_head?]
      -- Every start the walk comes to is in the set the simulator began with.
      cases starts : walks buf nocase program.reverse stop with
      | nil => rfl
      | cons p later =>
          have derivation := (mem_walks_iff formed inside).mp
            (starts ▸ List.mem_cons_self : p ∈ walks buf nocase
              program.reverse stop)
          have source : Covers [(leftmostStart program stop, stop)] p := by
            simpa using ⟨derivation.leftmostStart_le formed,
              derivation.ordered⟩
          rw [List.find?_cons_of_pos ((setContains_iff reachable.separated
            reachable.proper).mpr source), List.head?_cons]
  · have noWalk : matchBackward buf nocase program stop = none := by
      rw [← Option.not_isSome_iff_eq_none, some_iff]
      rintro ⟨p, derivation⟩
      exact upright derivation.upright
    rw [noWalk, Option.eq_none_iff_forall_ne_some]
    intro p answer
    exact upright ((gapSplitMatchBackward_spec nocase formed inside valid).1 p
      answer).upright

/-- A gap before a literal, walked back from its end. -/
theorem gapSplitMatchBackward_eq_gap :
    (gapSplitMatchBackward [0x78, 0x61] false [.gap 0 (some 2), .bytes [0x61]]
        2 (Pools.new .unlimited)).1 =
      matchBackward [0x78, 0x61] false [.gap 0 (some 2), .bytes [0x61]] 2 := by
  refine (gapSplitMatchBackward_eq ?_ (by decide) (Pools.valid_new _ _)
    (by decide)).1
  simp [Elem.WellFormed]

/-! ## More positions than a set holds -/

/-- The pattern `*6?` `?c` looks for. -/
def crowdedElems : List Elem := [.gap 0 none, .hiNibble 6, .loNibble 0x0c]

/-- `k` pairs of a hit and a miss before the one pair that matches. -/
def crowded (k : Nat) : Bytes :=
  (List.replicate k [0x60, 0x00]).flatten ++ [0x60, 0x0c]

theorem length_crowded (k : Nat) : (crowded k).length = 2 * k + 2 := by
  simp [crowded]
  omega

theorem crowded_succ (k : Nat) :
    crowded (k + 1) = 0x60 :: 0x00 :: crowded k := by
  simp [crowded, List.replicate_succ]

theorem crowded_even {k i : Nat} (within : i ≤ k) :
    byteAt (crowded k) (2 * i) = 0x60 := by
  induction k generalizing i with
  | zero =>
      rw [Nat.le_zero.mp within]
      rfl
  | succ k ih =>
      rw [byteAt_eq, crowded_succ]
      cases i with
      | zero => rfl
      | succ i =>
          rw [Nat.mul_succ, List.getElem?_cons_succ, List.getElem?_cons_succ,
            ← byteAt_eq]
          exact ih (by omega)

theorem crowded_odd {k i : Nat} (within : i < k) :
    byteAt (crowded k) (2 * i + 1) = 0x00 := by
  induction k generalizing i with
  | zero => exact absurd within (Nat.not_lt_zero i)
  | succ k ih =>
      rw [byteAt_eq, crowded_succ, List.getElem?_cons_succ]
      cases i with
      | zero => rfl
      | succ i =>
          rw [Nat.mul_succ, List.getElem?_cons_succ, ← byteAt_eq]
          exact ih (by omega)

theorem crowded_last (k : Nat) : byteAt (crowded k) (2 * k + 1) = 0x0c := by
  induction k with
  | zero => rfl
  | succ k ih =>
      rw [byteAt_eq, crowded_succ, Nat.mul_succ, List.getElem?_cons_succ,
        List.getElem?_cons_succ, ← byteAt_eq]
      exact ih

theorem push_apart {room : Nat} {ivs : List Interval} {lo hi : Nat}
    (apart : ∀ iv ∈ ivs, iv.2 + 1 < lo) :
    push room ivs lo hi =
      if room ≤ ivs.length then none else some ((lo, hi) :: ivs) := by
  cases ivs with
  | nil => simp [push]
  | cons newest older =>
      have far := apart newest (by simp)
      rw [push, if_neg (by omega)]

theorem visitAll_pairs {test : Nat → Bool} {k : Nat}
    (hits : ∀ i < k, test (2 * i) = true)
    (misses : ∀ i < k, test (2 * i + 1) = false) (room : k ≤ maxReach) :
    ∃ s : Progress,
      visitAll (fun s q => if test q then reachPush s (q + 1, q + 1)
          else (s, true)) ⟨[], .unlimited, false⟩ (List.range' 0 (2 * k)) =
        (s, true) ∧
      s.out.length = k ∧ ∀ iv ∈ s.out, iv.2 < 2 * k := by
  induction k with
  | zero => exact ⟨_, rfl, rfl, by simp⟩
  | succ k ih =>
      obtain ⟨s, run, full, below⟩ := ih (fun i within => hits i (by omega))
        (fun i within => misses i (by omega)) (by omega)
      have two : List.range' 0 (2 * (k + 1)) =
          List.range' 0 (2 * k) ++ [2 * k, 2 * k + 1] := by
        rw [Nat.mul_succ, ← List.range'_append_1, Nat.zero_add]
        rfl
      have pushed : push maxReach s.out (2 * k + 1) (2 * k + 1) =
          some ((2 * k + 1, 2 * k + 1) :: s.out) := by
        rw [push_apart (fun iv member => by have := below iv member; omega),
          full, if_neg (by omega)]
      refine ⟨⟨(2 * k + 1, 2 * k + 1) :: s.out, s.budget, s.truncated⟩,
        ?_, ?_, ?_⟩
      · rw [two, visitAll_append, run]
        simp [visitAll_cons, hits k (by omega), misses k (by omega), reachPush,
          pushed]
      · rw [List.length_cons, full]
      · intro iv member
        rcases List.mem_cons.mp member with newest | older
        · rw [newest]
          dsimp only
          omega
        · have := below iv older
          omega

theorem pushMatches_full {test : Nat → Bool} {p : Nat}
    (hits : ∀ i ≤ maxReach, test (2 * i) = true)
    (misses : ∀ i < maxReach, test (2 * i + 1) = false)
    (covered : Covers (pushMatches test 1 0 (2 * maxReach + 1)
      ⟨[], .unlimited, false⟩).1.out p) :
    p < 2 * maxReach := by
  obtain ⟨s, run, full, below⟩ := visitAll_pairs
    (fun i within => hits i (Nat.le_of_lt within)) misses le_rfl
  have two : positions (0, 2 * maxReach + 1) =
      List.range' 0 (2 * maxReach) ++ [2 * maxReach, 2 * maxReach + 1] := by
    rw [positions, Nat.sub_zero,
      show 2 * maxReach + 1 + 1 = 2 * maxReach + 2 from rfl,
      ← List.range'_append_1, Nat.zero_add]
    rfl
  have refused : push maxReach s.out (2 * maxReach + 1) (2 * maxReach + 1) =
      none := by
    rw [push_apart (fun iv member => by have := below iv member; omega), full,
      if_pos le_rfl]
  have ends : (pushMatches test 1 0 (2 * maxReach + 1)
      ⟨[], .unlimited, false⟩).1.out = s.out := by
    rw [pushMatches, two, visitAll_append, run]
    simp only [if_true, visitAll_cons, hits maxReach le_rfl, reachPush, refused,
      Bool.false_eq_true, if_false]
    rfl
  rw [ends] at covered
  obtain ⟨iv, member, _, upper⟩ := covered
  exact upper.trans_lt (below iv member)

theorem bind_backFrom_cons {tok : Elem} {program : List Elem}
    {cur : List Interval} {stop p : Nat} {pools : Pools}
    (answer : (forwardSets buf nocase (tok :: program) cur pools).1.bind
      (backFrom buf nocase stop) = some p) :
    ∃ q, (forwardSets buf nocase program (advance buf nocase tok cur pools).1
      (advance buf nocase tok cur pools).2).1.bind
        (backFrom buf nocase stop) = some q := by
  rw [forwardSets] at answer
  split at answer
  · cases answer
  · split at answer
    · cases answer
    · rw [backFrom_cons] at answer
      obtain ⟨q, later, -⟩ := Option.bind_eq_some_iff.mp answer
      exact ⟨q, later⟩

theorem charge_out (cost : Nat) (outcome : Progress × Bool) :
    (charge cost outcome).1.out = outcome.1.out := by
  rw [charge]
  split <;> rfl

/-- The last of `maxReach + 1` pairs is not gone into. -/
theorem advance_crowded {k : Nat} {pools : Pools} (full : k = maxReach)
    (free : pools.budget = .unlimited) :
    ¬Covers (advance (crowded k) false (.hiNibble 6) [(0, 2 * k + 2)]
      pools).1 (2 * k + 1) := by
  have length := length_crowded k
  have whole : Reachable (crowded k) [(0, 2 * k + 2)] :=
    reachable_interval (Nat.zero_le _) (by omega)
  have adds : AddsAll ((Elem.hiNibble 6).Image (crowded k) false
      (Covers [(0, 2 * k + 2)])) ⟨[], .unlimited, false⟩
      (advanceClass (crowded k) (.hiNibble 6) [(0, 2 * k + 2)]
        ⟨[], .unlimited, false⟩) :=
    advanceClass_adds trivial (show (6 : UInt8) < 16 by decide) whole.proper
  have visited : (advanceClass (crowded k) (.hiNibble 6)
      [(0, 2 * k + 2)] ⟨[], .unlimited, false⟩).out =
      (pushMatches (fun q => byteAt (crowded k) q &&& (0xf0 : UInt8) ==
        (6 : UInt8) <<< 4) 1 0 (2 * k + 1) ⟨[], .unlimited, false⟩).1.out := by
    have inside : ¬0 ≥ 2 * k + 2 := by omega
    have last : Min.min (2 * k + 2) (2 * k + 2 - 1) = 2 * k + 1 := by omega
    rw [advanceClass, visitAll_singleton]
    simp only [classStep, length, inside, last, if_false,
      Budget.isZero_unlimited, Bool.false_eq_true, charge_out, Progress.spend,
      Budget.spend_unlimited]
  intro covered
  rw [advance] at covered
  dsimp only at covered
  rw [free, coalesce_covers (adds.proper proper_nil), visited, full] at covered
  have low := pushMatches_full ?_ ?_ covered
  · omega
  · intro i within
    rw [crowded_even within]
    decide
  · intro i within
    rw [crowded_odd within]
    decide

/-- The last pair is a match that is not found. -/
theorem gapSplitMatchBackward_crowded :
    (∃ p, Derives (crowded maxReach) false crowdedElems p
        (2 * maxReach + 2)) ∧
      (gapSplitMatchBackward (crowded maxReach) false crowdedElems
        (2 * maxReach + 2) (Pools.new .unlimited)).1 = none := by
  obtain ⟨k, full⟩ : ∃ k, k = maxReach := ⟨_, rfl⟩
  rw [← full]
  have length := length_crowded k
  have whole : Reachable (crowded k) [(0, 2 * k + 2)] :=
    reachable_interval (Nat.zero_le _) (by omega)
  refine ⟨⟨2 * k, ?_⟩, ?_⟩
  · refine .cons (q := 2 * k) ?_ (.cons (q := 2 * k + 1) ?_
      (.cons (q := 2 * k + 2) ?_ (.nil (by omega))))
    · exact Elem.steps_gap_iff.mpr ⟨le_rfl, by simp, by omega⟩
    · refine Elem.steps_hiNibble_iff.mpr ⟨rfl, by omega, ?_⟩
      rw [crowded_even le_rfl]
      decide
    · refine Elem.steps_loNibble_iff.mpr ⟨rfl, by omega, ?_⟩
      rw [crowded_last]
      decide
  · rw [Option.eq_none_iff_forall_ne_some]
    intro p answer
    have gapSet : (advance (crowded k) false (.gap 0 none)
        [(0, 2 * k + 2)] (Pools.new .unlimited)) =
        ([(0, 2 * k + 2)], Pools.new .unlimited) := by
      simp [advance, advanceGap, gapWindow, length, coalesce, merge]
    rw [gapSplitMatchBackward, if_neg (by simp [crowdedElems])] at answer
    obtain ⟨q, answer⟩ := bind_backFrom_cons answer
    obtain ⟨q, answer⟩ := bind_backFrom_cons answer
    obtain ⟨q, answer⟩ := bind_backFrom_cons answer
    obtain ⟨contains, -⟩ := Option.ite_none_right_eq_some.mp answer
    have start : leftmostStart crowdedElems (2 * k + 2) = 0 := rfl
    rw [start, gapSet] at contains
    have sixFormed : (Elem.hiNibble 6).WellFormed :=
      show (6 : UInt8) < 16 by decide
    have twelveFormed : (Elem.loNibble 0x0c).WellFormed :=
      show (0x0c : UInt8) < 16 by decide
    have high := advance_spec false sixFormed whole
      (Pools.valid_new .unlimited (crowded k))
    have low := advance_spec false twelveFormed high.reachable high.valid
    rw [setContains_iff low.reachable.separated low.reachable.proper]
      at contains
    obtain ⟨p, covered, steps⟩ := (low.sound _ contains).image id
    have before := (Elem.steps_loNibble_iff.mp steps).1
    rw [show p = 2 * k + 1 by omega] at covered
    exact advance_crowded full rfl covered

end

end Exav.Engine
