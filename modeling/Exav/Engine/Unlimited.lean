import Exav.Engine.Reach

/-!
# Matching without a step budget

With no budget to run out, what a verification answers depends on the object
and the program only: neither on what the memo holds nor on what earlier
verifications flagged.  `Pools.Free` is the invariant, and each routine of the
simulator is shown to give the answer it gives on fresh pools.
-/

namespace Exav.Engine

open Exav.Interval Exav.Visit

/-- Pools with no step budget, whose memo is true of `buf`. -/
structure Pools.Free (buf : Bytes) (pools : Pools) : Prop where
  budget : pools.budget = .unlimited
  valid : pools.occ.Valid buf

theorem Pools.free_new (buf : Bytes) : (Pools.new .unlimited).Free buf :=
  ⟨rfl, OccCache.valid_withCap _ buf⟩

/-- `result`, drawn from `pools`, answers as `alone`, drawn from fresh pools, and
raises the flag in the same cases. -/
structure AsFresh {α : Type} (buf : Bytes) (pools : Pools)
    (result alone : α × Pools) : Prop where
  answer : result.1 = alone.1
  free : result.2.Free buf
  flag : result.2.truncated = (pools.truncated || alone.2.truncated)

/-- What follows on from the pools a routine leaves also answers as fresh. -/
theorem AsFresh.next {α β : Type} {buf : Bytes} {pools : Pools}
    {result alone : α × Pools} {rest : Pools → β × Pools}
    (first : AsFresh buf pools result alone) (aloneFree : alone.2.Free buf)
    (fresh : ∀ pools, pools.Free buf →
      AsFresh buf pools (rest pools) (rest (Pools.new .unlimited))) :
    AsFresh buf pools (rest result.2) (rest alone.2) := by
  have here := fresh result.2 first.free
  have there := fresh alone.2 aloneFree
  refine ⟨here.answer.trans there.answer.symm, here.free, ?_⟩
  rw [here.flag, there.flag, first.flag, Bool.or_assoc]

theorem AsFresh.map {α β : Type} {buf : Bytes} {pools : Pools}
    {result alone : α × Pools} (first : AsFresh buf pools result alone)
    (f : α → β) :
    AsFresh buf pools (f result.1, result.2) (f alone.1, alone.2) :=
  ⟨congrArg f first.answer, first.free, first.flag⟩

theorem Pools.Free.same {α : Type} {buf : Bytes} {pools : Pools}
    (free : pools.Free buf) (answer : α) :
    AsFresh buf pools (answer, pools) (answer, Pools.new .unlimited) :=
  ⟨rfl, free, by simp [Pools.new]⟩

/-! ## Pushing run by run or start by start -/

@[simp] theorem reachPush_budget (s : Progress) (iv : Interval) :
    (reachPush s iv).1.budget = s.budget := by
  rw [reachPush]
  split <;> rfl

@[simp] theorem spend_unlimited {s : Progress} (free : s.budget = .unlimited)
    (cost : Nat) : s.spend cost = s := by
  rw [Progress.spend, free, Budget.spend_unlimited, ← free]

theorem reachStarts_unlimited {l : Nat} {s : Progress} {iv : Interval}
    (free : s.budget = .unlimited) :
    reachStarts l s iv = reachPush s (iv.1 + l, iv.2 + l) := by
  rw [reachStarts, free]

theorem reachPush_positions {lo hi : Nat} (ordered : lo ≤ hi) (s : Progress) :
    reachPush s (lo, hi) =
      visitAll (fun s p => reachPush s (p, p)) s (positions (lo, hi)) := by
  induction hi, ordered using Nat.le_induction with
  | base => rw [positions_singleton, visitAll_singleton]
  | succ hi ordered ih =>
      rw [positions_split (by omega : lo ≤ hi + 1) (Nat.le_succ hi),
        positions_singleton, visitAll_append, ← ih, reachPush, reachPush,
        push_split maxReach s.out ordered (Nat.lt_succ_self hi)]
      cases first : push maxReach s.out lo hi with
      | none => rfl
      | some out =>
          obtain ⟨later, second⟩ := push_continues ordered first (hi + 1)
          simp only [Option.bind_some, Nat.succ_eq_add_one, second, if_true,
            visitAll_singleton, reachPush]

/-- Only the starts count, not how they are cut into runs. -/
theorem visitAll_reachPush_positions {l : Nat} (s : Progress)
    {ivs : List Interval} (proper : Proper ivs) :
    visitAll (fun s iv => reachPush s (iv.1 + l, iv.2 + l)) s ivs =
      visitAll (fun s q => reachPush s (q + l, q + l)) s
        (ivs.flatMap positions) := by
  refine visitAll_flatMap ?_ s
  intro iv member s
  have ordered := proper iv member
  rw [reachPush_positions (by omega), positions_shift, visitAll_map]

theorem visitAll_reachStarts_positions {l : Nat} {s : Progress}
    {ivs : List Interval} (free : s.budget = .unlimited)
    (proper : Proper ivs) :
    visitAll (reachStarts l) s ivs =
      visitAll (fun s q => reachPush s (q + l, q + l)) s
        (ivs.flatMap positions) := by
  have pushes : visitAll (reachStarts l) s ivs =
      visitAll (fun s iv => reachPush s (iv.1 + l, iv.2 + l)) s ivs :=
    visitAll_congr (motive := fun s : Progress => s.budget = .unlimited)
      (fun _ _ _ => reachStarts_unlimited)
      (fun iv _ s free => by rw [reachStarts_unlimited free]; simpa) free
  rw [pushes, visitAll_reachPush_positions s proper]

section

variable {buf : Bytes} {nocase : Bool}

theorem visitAll_reachStarts_free {l : Nat} {s : Progress}
    {ivs : List Interval} (free : s.budget = .unlimited) :
    (visitAll (reachStarts l) s ivs).1.budget = .unlimited :=
  visitAll_induct (motive := fun s : Progress => s.budget = .unlimited)
    (fun iv _ s free => by rw [reachStarts_unlimited free]; simpa) free

/-- The memo is transparent: it answers as the direct search does. -/
theorem advanceLiteralMemo_eq {needle : Bytes} {cur : List Interval}
    {s : Progress} {occ : OccCache} (fits : needle.length ≤ buf.length)
    (proper : Proper cur) (free : s.budget = .unlimited)
    (valid : occ.Valid buf) :
    (advanceLiteralMemo buf nocase needle cur s occ).1 =
      advanceLiteralDirect buf nocase needle cur s := by
  induction cur generalizing s occ with
  | nil => rfl
  | cons iv cur ih =>
      obtain ⟨ordered, restProper⟩ := (proper_cons iv cur).mp proper
      have zero : s.budget.isZero = false := by rw [free]; rfl
      rw [advanceLiteralMemo]
      split_ifs with past empty
      · rw [ih restProper free valid, advanceLiteralDirect,
          advanceLiteralDirect]
        simp only [visitAll_cons, past, if_true]
      · rw [zero] at empty
        cases empty
      · have inside : min iv.2 (buf.length - needle.length) +
            needle.length ≤ buf.length := by omega
        have haystackInside : min iv.2 (buf.length - needle.length) +
            (haystack nocase needle).length ≤
              (haystack nocase buf).length := by
          simpa only [length_haystack] using inside
        have visited := OccCache.visit_spec nocase valid
          (by omega : iv.1 ≤ min iv.2 (buf.length - needle.length)) inside
        cases answer : occ.visit buf needle nocase iv.1
            (min iv.2 (buf.length - needle.length)) with
        | mk occ found =>
            rw [answer] at visited
            cases found with
            | none => rfl
            | some runs =>
                obtain ⟨runsProper, starts⟩ := visited.2 runs rfl
                have same : visitAll (reachStarts needle.length) (s.spend 1)
                    runs = visitAll (reachStarts needle.length) (s.spend 1)
                      (occurrenceRuns (haystack nocase buf)
                        (haystack nocase needle) iv.1
                        (min iv.2 (buf.length - needle.length))) := by
                  rw [spend_unlimited free,
                    visitAll_reachStarts_positions free runsProper,
                    visitAll_reachStarts_positions free
                      (occurrenceRuns_proper iv.1 haystackInside),
                    starts, occurrenceRuns_positions haystackInside]
                have restFree : (visitAll (reachStarts needle.length)
                    (s.spend 1) runs).1.budget = .unlimited := by
                  rw [spend_unlimited free]
                  exact visitAll_reachStarts_free free
                rw [advanceLiteralDirect]
                simp only [visitAll_cons, past, zero, if_false,
                  Bool.false_eq_true, ← same]
                cases outcome : visitAll (reachStarts needle.length)
                    (s.spend 1) runs with
                | mk next go =>
                    rw [outcome] at restFree
                    cases go with
                    | true => exact ih restProper restFree visited.1
                    | false => rfl

/-! ## The budget is never spent -/

private theorem flag_free {s : Progress} (free : s.budget = .unlimited) :
    s.flag.budget = .unlimited :=
  free

theorem advanceLiteralDirect_free {needle : Bytes} {cur : List Interval}
    {s : Progress} (free : s.budget = .unlimited) :
    (advanceLiteralDirect buf nocase needle cur s).budget = .unlimited := by
  refine visitAll_induct (motive := fun s : Progress => s.budget = .unlimited)
    ?_ free
  intro iv _ s free
  split_ifs
  · exact free
  · exact flag_free free
  · rw [spend_unlimited free]
    exact visitAll_reachStarts_free free

theorem pushMatches_free {test : Nat → Bool} {w lo qmax : Nat}
    {s : Progress} (free : s.budget = .unlimited) :
    (pushMatches test w lo qmax s).1.budget = .unlimited := by
  refine visitAll_induct (motive := fun s : Progress => s.budget = .unlimited)
    ?_ free
  intro q _ s free
  split
  · simpa using free
  · exact free

theorem charge_unlimited {outcome : Progress × Bool}
    (free : outcome.1.budget = .unlimited) (cost : Nat) :
    charge cost outcome = outcome := by
  obtain ⟨s, go⟩ := outcome
  cases go with
  | true => exact Prod.ext (spend_unlimited free cost) rfl
  | false => rfl

theorem maskedBranch_free {iv : Interval} {s : Progress}
    {branch : List (UInt8 × UInt8)} (free : s.budget = .unlimited) :
    (maskedBranch buf nocase iv s branch).1.budget = .unlimited := by
  rw [maskedBranch]
  split_ifs
  · simpa using free
  · exact free
  · exact free
  · exact flag_free free
  · rw [charge_unlimited (pushMatches_free free)]
    exact pushMatches_free free

theorem maskedBranches_free {iv : Interval} {s : Progress}
    {opts : List (List (UInt8 × UInt8))} (free : s.budget = .unlimited) :
    (visitAll (maskedBranch buf nocase iv) s opts).1.budget = .unlimited :=
  visitAll_induct (motive := fun s : Progress => s.budget = .unlimited)
    (fun _ _ _ free => maskedBranch_free free) free

theorem advanceMaskedAlt_free {opts : List (List (UInt8 × UInt8))}
    {cur : List Interval} {s : Progress} (free : s.budget = .unlimited) :
    (advanceMaskedAlt buf nocase opts cur s).budget = .unlimited := by
  refine visitAll_induct (motive := fun s : Progress => s.budget = .unlimited)
    ?_ free
  intro iv _ s free
  split
  · exact free
  · exact maskedBranches_free free

theorem classStep_free {tok : Elem} {iv : Interval} {s : Progress}
    (free : s.budget = .unlimited) :
    (classStep buf tok s iv).1.budget = .unlimited := by
  rw [classStep]
  split_ifs
  · exact free
  · exact flag_free free
  · rw [spend_unlimited free]
    cases tok with
    | anyByte => simpa using free
    | hiNibble h =>
        dsimp only
        rw [charge_unlimited (pushMatches_free free)]
        exact pushMatches_free free
    | loNibble l =>
        dsimp only
        rw [charge_unlimited (pushMatches_free free)]
        exact pushMatches_free free
    | _ => exact free

theorem advanceClass_free {tok : Elem} {cur : List Interval} {s : Progress}
    (free : s.budget = .unlimited) :
    (advanceClass buf tok cur s).budget = .unlimited :=
  visitAll_induct (motive := fun s : Progress => s.budget = .unlimited)
    (fun _ _ _ free => classStep_free free) free

theorem excludedEnds_free {opts : List Bytes} {l lo qmax : Nat}
    {s : Progress} {outcome : Progress × Bool}
    (made : excludedEnds buf nocase opts l lo qmax s = outcome)
    (free : s.budget = .unlimited) : outcome.1.budget = .unlimited := by
  subst made
  refine visitAll_induct (motive := fun s : Progress => s.budget = .unlimited)
    ?_ free
  intro o _ s free
  refine visitAll_induct (motive := fun s : Progress => s.budget = .unlimited)
    ?_ free
  intro iv _ s free
  simpa using free

theorem negAltStep_free {opts : List Bytes} {l : Nat} {iv : Interval}
    {s : Progress} (free : s.budget = .unlimited) :
    (negAltStep buf nocase opts l s iv).1.budget = .unlimited := by
  rw [negAltStep]
  split_ifs
  · exact free
  · exact flag_free free
  · rw [spend_unlimited free]
    split
    case h_1 e outcome =>
      have excludedFree : e.budget = .unlimited :=
        excludedEnds_free outcome free
      exact excludedFree
    case h_2 e outcome =>
      have excludedFree : e.budget = .unlimited :=
        excludedEnds_free outcome free
      refine visitAll_induct
        (motive := fun s : Progress => s.budget = .unlimited) ?_ ?_
      · intro iv _ s free
        simpa using free
      · rw [spend_unlimited excludedFree]
        exact excludedFree

theorem advanceNegAlt_free {opts : List Bytes} {cur : List Interval}
    {s : Progress} (free : s.budget = .unlimited) :
    (advanceNegAlt buf nocase opts cur s).budget = .unlimited := by
  rw [advanceNegAlt]
  split
  · exact free
  · exact visitAll_induct
      (motive := fun s : Progress => s.budget = .unlimited)
      (fun _ _ _ free => negAltStep_free free) free

/-! ## One element -/

theorem advanceLiteral_eq {needle : Bytes} {cur : List Interval}
    {s : Progress} {occ : OccCache} (proper : Proper cur)
    (free : s.budget = .unlimited) (valid : occ.Valid buf) :
    (advanceLiteral buf nocase needle cur s occ).1 =
      if needle.length = 0 ∨ needle.length > buf.length then s
      else advanceLiteralDirect buf nocase needle cur s := by
  rw [advanceLiteral]
  split
  · rfl
  case isFalse misfit =>
    exact advanceLiteralMemo_eq (by omega) proper free valid

theorem advanceLiteral_free {needle : Bytes} {cur : List Interval}
    {s : Progress} {occ : OccCache} (proper : Proper cur)
    (free : s.budget = .unlimited) (valid : occ.Valid buf) :
    (advanceLiteral buf nocase needle cur s occ).1.budget = .unlimited := by
  rw [advanceLiteral_eq proper free valid]
  split
  · exact free
  · exact advanceLiteralDirect_free free

private theorem branches_free {cur : List Interval} (nocase : Bool)
    (opts : List Bytes) {s : Progress} {occ other : OccCache} (reachable : Reachable buf cur)
    (free : s.budget = .unlimited) (valid : occ.Valid buf)
    (otherValid : other.Valid buf) :
    (opts.foldl (advanceBranch buf nocase cur) (s, occ)).1 =
        (opts.foldl (advanceBranch buf nocase cur) (s, other)).1 ∧
      (opts.foldl (advanceBranch buf nocase cur) (s, occ)).1.budget =
        .unlimited := by
  induction opts generalizing s occ other with
  | nil => exact ⟨rfl, free⟩
  | cons o opts ih =>
      have after {occ : OccCache} (valid : occ.Valid buf) :
          (advanceBranch buf nocase cur (s, occ) o).2.Valid buf :=
        (advanceBranch_adds nocase o reachable valid).2
      have same : (advanceBranch buf nocase cur (s, occ) o).1 =
          (advanceBranch buf nocase cur (s, other) o).1 := by
        rw [advanceBranch, advanceBranch]
        split
        · rfl
        · rw [advanceLiteral_eq reachable.proper free valid,
            advanceLiteral_eq reachable.proper free otherValid]
      have nextFree : (advanceBranch buf nocase cur (s, occ) o).1.budget =
          .unlimited := by
        rw [advanceBranch]
        split
        · exact free
        · exact advanceLiteral_free reachable.proper free valid
      simp only [List.foldl_cons]
      have rest := ih nextFree (after valid) (after otherValid)
      rw [Prod.mk.eta, same, Prod.mk.eta] at rest
      exact rest

/-- Without a budget one element answers as on fresh pools, and raises the flag
in the same cases. -/
theorem advance_free {tok : Elem} {cur : List Interval} {pools : Pools}
    (nocase : Bool) (formed : tok.WellFormed) (reachable : Reachable buf cur)
    (free : pools.Free buf) :
    AsFresh buf pools (advance buf nocase tok cur pools)
      (advance buf nocase tok cur (Pools.new .unlimited)) := by
  have kept := (advance_spec nocase formed reachable free.valid).valid
  obtain ⟨budget, truncated, occ⟩ := pools
  obtain ⟨unspent, valid⟩ := free
  dsimp only at unspent valid
  subst unspent
  have freshValid : OccCache.new.Valid buf := OccCache.valid_withCap _ buf
  cases tok with
  | bytes b =>
      have same : (advanceLiteral buf nocase b cur ⟨[], .unlimited, false⟩
          occ).1 = (advanceLiteral buf nocase b cur ⟨[], .unlimited, false⟩
            OccCache.new).1 := by
        rw [advanceLiteral_eq reachable.proper rfl valid,
          advanceLiteral_eq reachable.proper rfl freshValid]
      refine ⟨congrArg (fun s : Progress => coalesce s.out) same,
        ⟨advanceLiteral_free reachable.proper rfl valid, kept⟩, ?_⟩
      simp only [advance, Pools.new, same, Bool.false_or]
  | alt opts neg =>
      cases neg with
      | false =>
          have start : (Progress.mk [] .unlimited false).budget =
              .unlimited := rfl
          obtain ⟨same, unspent⟩ :=
            branches_free nocase opts reachable start valid freshValid
          refine ⟨congrArg (fun s : Progress => coalesce s.out) same, ⟨unspent, kept⟩, ?_⟩
          simp only [advance, Pools.new, same, Bool.false_or]
      | true => exact ⟨rfl, ⟨advanceNegAlt_free rfl, valid⟩, by
          simp [advance, Pools.new]⟩
  | altMasked opts => exact ⟨rfl, ⟨advanceMaskedAlt_free rfl, valid⟩, by
      simp [advance, Pools.new]⟩
  | gap min max => exact ⟨rfl, ⟨rfl, valid⟩, by simp [advance, Pools.new]⟩
  | anyByte => exact ⟨rfl, ⟨advanceClass_free rfl, valid⟩, by
      simp [advance, Pools.new]⟩
  | hiNibble h => exact ⟨rfl, ⟨advanceClass_free rfl, valid⟩, by
      simp [advance, Pools.new]⟩
  | loNibble l => exact ⟨rfl, ⟨advanceClass_free rfl, valid⟩, by
      simp [advance, Pools.new]⟩

/-! ## Whole programs -/

theorem isZero_free {pools : Pools} (free : pools.Free buf) :
    pools.budget.isZero = false := by
  rw [free.budget]
  rfl

/-- What follows on from one step, wherever the step can stand, answers as from
fresh pools. -/
theorem advance_next {α : Type} {tok : Elem} {cur : List Interval}
    {pools : Pools} {run : List Interval → Pools → α × Pools} (nocase : Bool)
    (formed : tok.WellFormed) (reachable : Reachable buf cur)
    (free : pools.Free buf)
    (rest : ∀ {next pools}, Reachable buf next → pools.Free buf →
      AsFresh buf pools (run next pools) (run next (Pools.new .unlimited))) :
    AsFresh buf pools
      (run (advance buf nocase tok cur pools).1
        (advance buf nocase tok cur pools).2)
      (run (advance buf nocase tok cur (Pools.new .unlimited)).1
        (advance buf nocase tok cur (Pools.new .unlimited)).2) := by
  have freshFree := Pools.free_new buf
  have step := advance_free nocase formed reachable free
  have next := (advance_spec nocase formed reachable freshFree.valid).reachable
  rw [step.answer]
  exact step.next (advance_free nocase formed reachable freshFree).free
    fun _ free => rest next free

theorem simulate_free {toks : List Elem} {cur : List Interval} {pools : Pools}
    (nocase : Bool) (formed : ∀ tok ∈ toks, tok.WellFormed)
    (reachable : Reachable buf cur) (free : pools.Free buf) :
    AsFresh buf pools (simulate buf nocase toks cur pools)
      (simulate buf nocase toks cur (Pools.new .unlimited)) := by
  induction toks generalizing cur pools with
  | nil => exact free.same _
  | cons tok toks ih =>
      rw [simulate, simulate]
      simp only [isZero_free free, isZero_free (Pools.free_new buf),
        Bool.false_eq_true, if_false]
      split
      · exact free.same _
      · exact advance_next nocase (formed tok (by simp)) reachable free
          (ih fun later member => formed later (by simp [member]))

theorem gapSplitMatch_free {toks : List Elem} {pos : Nat} {pools : Pools}
    (nocase : Bool) (formed : ∀ tok ∈ toks, tok.WellFormed)
    (inside : pos ≤ buf.length) (free : pools.Free buf) :
    AsFresh buf pools (gapSplitMatch buf nocase toks pos pools)
      (gapSplitMatch buf nocase toks pos (Pools.new .unlimited)) :=
  simulate_free nocase formed (reachable_interval le_rfl inside) free

theorem forwardSets_free {toks : List Elem} {cur : List Interval}
    {pools : Pools} (nocase : Bool) (formed : ∀ tok ∈ toks, tok.WellFormed)
    (reachable : Reachable buf cur) (free : pools.Free buf) :
    AsFresh buf pools (forwardSets buf nocase toks cur pools)
      (forwardSets buf nocase toks cur (Pools.new .unlimited)) := by
  induction toks generalizing cur pools with
  | nil => exact free.same _
  | cons tok toks ih =>
      have rest := advance_next nocase (formed tok (by simp)) reachable free
        (ih fun later member => formed later (by simp [member]))
      rw [forwardSets, forwardSets]
      simp only [isZero_free free, isZero_free (Pools.free_new buf),
        Bool.false_eq_true, if_false]
      split
      · exact free.same _
      · exact rest.map (Option.map fun sets =>
          ((tok, cur) :: sets.1, sets.2))

theorem gapSplitMatchBackward_free {toks : List Elem} {stop : Nat}
    {pools : Pools} (nocase : Bool) (formed : ∀ tok ∈ toks, tok.WellFormed)
    (inside : stop ≤ buf.length) (free : pools.Free buf) :
    AsFresh buf pools (gapSplitMatchBackward buf nocase toks stop pools)
      (gapSplitMatchBackward buf nocase toks stop (Pools.new .unlimited)) := by
  rw [gapSplitMatchBackward, gapSplitMatchBackward]
  split
  · exact free.same _
  · have sets := forwardSets_free nocase formed
      (reachable_interval (leftmostStart_le toks stop) inside) free
    exact sets.map fun found => found.bind fun sets =>
      if setContains sets.2 stop then stepsBack buf nocase sets.1 stop else none

end

end Exav.Engine
