import Mathlib
import Exav.Engine.Runs

/-!
# The memo beside the direct search

Through the memo a literal is advanced over the runs of the direct search, cut
where a block ends.  A start is charged the same in either; only a run that
the full set refuses tells them apart, as the direct search has charged all of
it and the memo the piece in the first block.
-/

namespace Exav.Engine

open Exav.Interval Exav.Visit

/-! ## Charging a run by pieces -/

def runSize (run : Interval) : Nat :=
  run.2 - run.1 + 1

theorem push_refused {room : Nat} {ivs : List Interval} {lo hi : Nat}
    (refused : push room ivs lo hi = none) (other : Nat) :
    push room ivs lo other = none := by
  cases ivs with
  | nil =>
      simp only [push] at refused ⊢
      split at refused
      case isTrue full => rw [if_pos full]
      case isFalse => cases refused
  | cons newest older =>
      simp only [push] at refused ⊢
      split at refused
      case isTrue => cases refused
      case isFalse apart =>
        rw [if_neg apart]
        split at refused
        case isTrue full => rw [if_pos full]
        case isFalse => cases refused

theorem reachStarts_fits {l left : Nat} {s : Progress} {run : Interval}
    (spare : s.budget = .steps left) (fits : runSize run ≤ left) :
    reachStarts l s run = reachPush
      ⟨s.out, .steps (left - runSize run), s.truncated⟩
      (run.1 + l, run.2 + l) := by
  unfold runSize at fits
  simp [reachStarts, spare, fits, Progress.spend, Budget.spend, runSize]

theorem reachStarts_short {l left : Nat} {s : Progress} {run : Interval}
    (spare : s.budget = .steps left) (short : left < runSize run) :
    reachStarts l s run =
      ((reachPush ⟨s.out, .steps 0, true⟩
        (run.1 + l, run.1 + left + l)).1, false) := by
  unfold runSize at short
  have dry : ¬run.2 - run.1 + 1 ≤ left := by omega
  simp [reachStarts, spare, dry, ← Nat.add_assoc]

theorem reachStarts_refused {l : Nat} {s : Progress} {run : Interval}
    (refused : push maxReach s.out (run.1 + l) (run.2 + l) = none) :
    reachStarts l s run =
      (⟨s.out, s.budget.spend (runSize run), true⟩, false) := by
  have always := push_refused refused
  unfold reachStarts
  cases spare : s.budget with
  | unlimited => simp [reachPush, always, Progress.flag, spare, Budget.spend]
  | steps left =>
      dsimp only
      split
      case isTrue =>
        simp [reachPush, always, Progress.flag, Progress.spend, spare, runSize]
      case isFalse short =>
        have nothing : left - runSize run = 0 := by
          unfold runSize
          omega
        simp [reachPush, always, Progress.flag, Budget.spend, nothing]

/-- A run the set takes is charged alike in two pieces. -/
theorem reachStarts_split {l lo mid hi : Nat} {s : Progress}
    (lower : lo ≤ mid) (upper : mid < hi) {out : List Interval}
    (taken : push maxReach s.out (lo + l) (hi + l) = some out) :
    reachStarts l s (lo, hi) =
      if (reachStarts l s (lo, mid)).2 then
        reachStarts l (reachStarts l s (lo, mid)).1 (mid + 1, hi)
      else ((reachStarts l s (lo, mid)).1, false) := by
  have split (stop : Nat) (past : mid < stop) :
      push maxReach s.out (lo + l) (stop + l) =
        (push maxReach s.out (lo + l) (mid + l)).bind fun pushed =>
          push maxReach pushed (mid + 1 + l) (stop + l) := by
    rw [push_split maxReach s.out (by omega : lo + l ≤ mid + l)
      (by omega : mid + l < stop + l),
      show mid + l + 1 = mid + 1 + l by omega]
  obtain ⟨front, first⟩ : ∃ front,
      push maxReach s.out (lo + l) (mid + l) = some front := by
    cases first : push maxReach s.out (lo + l) (mid + l) with
    | none =>
        rw [split hi upper, first] at taken
        cases taken
    | some front => exact ⟨front, rfl⟩
  have second (stop : Nat) (past : mid < stop) :
      push maxReach s.out (lo + l) (stop + l) =
        push maxReach front (mid + 1 + l) (stop + l) := by
    rw [split stop past, first]
    rfl
  have goesOn (stop : Nat) : ∃ later,
      push maxReach front (mid + 1 + l) (stop + l) = some later := by
    rw [show mid + 1 + l = mid + l + 1 by omega]
    exact push_continues (by omega) first (stop + l)
  cases spare : s.budget with
  | unlimited =>
      have started : reachStarts l s (lo, mid) =
          (⟨front, .unlimited, s.truncated⟩, true) := by
        rw [reachStarts_unlimited spare, reachPush]
        simp only [first, spare]
      obtain ⟨later, taken⟩ := goesOn hi
      rw [started, reachStarts_unlimited spare]
      simp only [if_true]
      rw [reachStarts_unlimited rfl, reachPush, reachPush, second hi upper]
      simp only [taken, spare]
  | steps left =>
      by_cases part : runSize (lo, mid) ≤ left
      · have started : reachStarts l s (lo, mid) =
            (⟨front, .steps (left - runSize (lo, mid)), s.truncated⟩,
              true) := by
          rw [reachStarts_fits spare part, reachPush]
          simp only [first]
        rw [started]
        simp only [if_true]
        by_cases fits : runSize (lo, hi) ≤ left
        · have later : runSize (mid + 1, hi) ≤ left - runSize (lo, mid) := by
            unfold runSize at *
            omega
          have total : left - runSize (lo, mid) - runSize (mid + 1, hi) =
              left - runSize (lo, hi) := by
            unfold runSize at *
            omega
          obtain ⟨after, taken⟩ := goesOn hi
          rw [reachStarts_fits spare fits, reachStarts_fits rfl later, total,
            reachPush, reachPush, second hi upper]
          simp only [taken]
        · have later : left - runSize (lo, mid) < runSize (mid + 1, hi) := by
            unfold runSize at *
            omega
          have stop : mid + 1 + (left - runSize (lo, mid)) = lo + left := by
            unfold runSize at *
            omega
          have past : mid < lo + left := by
            unfold runSize at part
            omega
          rw [reachStarts_short spare (by omega),
            reachStarts_short rfl later]
          dsimp only
          obtain ⟨after, taken⟩ := goesOn (lo + left)
          rw [stop, reachPush, reachPush, second _ past]
          simp only [taken]
      · have short : left < runSize (lo, hi) := by
          unfold runSize at *
          omega
        rw [reachStarts_short spare short,
          reachStarts_short spare (by omega)]
        rfl

/-- A run that lets the search go on was taken by the set and paid. -/
theorem reachStarts_done {l : Nat} {s : Progress} {run : Interval}
    (done : (reachStarts l s run).2 = true) :
    ∃ out, push maxReach s.out (run.1 + l) (run.2 + l) = some out ∧
      reachStarts l s run =
        (⟨out, s.budget.spend (runSize run), s.truncated⟩, true) := by
  cases taken : push maxReach s.out (run.1 + l) (run.2 + l) with
  | none =>
      rw [reachStarts_refused taken] at done
      cases done
  | some out =>
      refine ⟨out, rfl, ?_⟩
      cases spare : s.budget with
      | unlimited =>
          rw [reachStarts_unlimited spare, reachPush]
          simp only [taken, spare, Budget.spend]
      | steps left =>
          by_cases fits : runSize run ≤ left
          · rw [reachStarts_fits spare fits, reachPush]
            simp only [taken, Budget.spend]
          · rw [reachStarts_short spare (by omega)] at done
            cases done

theorem visitAll_pieces {border : Nat → Prop} {l : Nat} {s : Progress}
    {pieces : List Interval} {run : Interval} (proper : Proper pieces)
    (cut : pieces.Pairwise (Cut border)) (ordered : run.1 ≤ run.2)
    (same : pieces.flatMap positions = positions run) {out : List Interval}
    (taken : push maxReach s.out (run.1 + l) (run.2 + l) = some out) :
    visitAll (reachStarts l) s pieces = reachStarts l s run := by
  induction pieces generalizing run s out with
  | nil =>
      rw [positions_eq_cons ordered] at same
      cases same
  | cons head more ih =>
      obtain ⟨start, _, whole | ⟨early, _⟩⟩ :=
        first_piece proper cut ordered same
      · rw [whole.1, whole.2, visitAll_singleton]
      · obtain ⟨headOrdered, moreProper⟩ := (proper_cons head more).mp proper
        have headIs : head = (run.1, head.2) := Prod.ext start rfl
        have rest : more.flatMap positions = positions (head.2 + 1, run.2) := by
          have parts : positions run = positions (run.1, head.2) ++
              positions (head.2 + 1, run.2) :=
            positions_split (by omega) (by omega)
          rw [List.flatMap_cons, headIs, parts] at same
          exact List.append_cancel_left same
        have split : reachStarts l s (run.1, run.2) = _ :=
          reachStarts_split (by omega : run.1 ≤ head.2) early taken
        rw [← headIs] at split
        rw [visitAll_cons]
        refine Eq.trans ?_ split.symm
        by_cases done : (reachStarts l s head).2 = true
        · rw [if_pos done, if_pos done]
          obtain ⟨next, pushed, result⟩ := reachStarts_done done
          obtain ⟨later, continues⟩ :=
            push_continues (by omega) pushed (run.2 + l)
          rw [result]
          apply ih moreProper (List.pairwise_cons.mp cut).2 (by
            dsimp only
            omega) rest
          rw [show head.2 + 1 + l = head.2 + l + 1 by omega]
          exact continues
        · rw [if_neg done, if_neg done]

/-! ## Advances the memo does not show in -/

/-- Add intervals in order. -/
def pushAll (room : Nat) (out ivs : List Interval) : Option (List Interval) :=
  ivs.foldlM (fun out iv => push room out iv.1 iv.2) out

def inBlock (run : Interval) : Interval :=
  (run.1, min run.2 ((run.1 / occBlock + 1) * occBlock - 1))

/-- A run that the full set refuses ends in its block, or the budget ends with
its part there. -/
def SteadyRuns (l : Nat) : List Interval → Budget → List Interval → Prop
  | _, _, [] => True
  | out, budget, run :: runs =>
      match push maxReach out (run.1 + l) (run.2 + l) with
      | none =>
          budget.spend (runSize run) = budget.spend (runSize (inBlock run))
      | some out => SteadyRuns l out (budget.spend (runSize run)) runs

/-- The runs by which `runs`, of one interval each, are taken and paid: as
`SteadyRuns` after the unit each interval costs. -/
def SteadyIntervals (l : Nat) :
    List Interval → Budget → List (List Interval) → Prop
  | _, _, [] => True
  | out, budget, runs :: rest =>
      SteadyRuns l out (budget.spend 1) runs ∧
        ∀ next, pushAll maxReach out (runs.map fun run =>
            (run.1 + l, run.2 + l)) = some next →
          SteadyIntervals l next
            (budget.spend (1 + (runs.map runSize).sum)) rest

theorem visitAll_runs {l : Nat} {s : Progress} {runs pieces : List Interval}
    (separated : Separated runs) (runsProper : Proper runs)
    (proper : Proper pieces) (cut : pieces.Pairwise (Cut (occBlock ∣ ·)))
    (blocks : ∀ piece ∈ pieces,
      ∃ b, b * occBlock ≤ piece.1 ∧ piece.2 < (b + 1) * occBlock)
    (same : pieces.flatMap positions = runs.flatMap positions)
    (steady : SteadyRuns l s.out s.budget runs) :
    visitAll (reachStarts l) s pieces = visitAll (reachStarts l) s runs := by
  induction runs generalizing pieces s with
  | nil =>
      cases pieces with
      | nil => rfl
      | cons piece pieces =>
          have ordered := ((proper_cons piece pieces).mp proper).1
          rw [List.flatMap_cons, positions_eq_cons ordered] at same
          cases same
  | cons run runs ih =>
      obtain ⟨ordered, laterProper⟩ := (proper_cons run runs).mp runsProper
      obtain ⟨apart, laterSeparated⟩ := List.pairwise_cons.mp separated
      have beyond : ∀ p ∈ runs.flatMap positions, run.2 + 1 < p := by
        intro p member
        obtain ⟨later, inRuns, within⟩ := List.mem_flatMap.mp member
        have bounds := mem_positions.mp within
        have gap := apart later inRuns
        omega
      rw [List.flatMap_cons] at same
      obtain ⟨front, back, rfl, inFront, inBack⟩ :=
        pieces_of_head proper ordered beyond same
      have frontProper : Proper front := fun piece member =>
        proper piece (List.mem_append_left _ member)
      have backProper : Proper back := fun piece member =>
        proper piece (List.mem_append_right _ member)
      obtain ⟨frontCut, backCut, _⟩ := List.pairwise_append.mp cut
      rw [visitAll_append, visitAll_cons]
      rw [SteadyRuns] at steady
      cases taken : push maxReach s.out (run.1 + l) (run.2 + l) with
      | some out =>
          rw [taken] at steady
          rw [visitAll_pieces frontProper frontCut ordered inFront taken]
          by_cases done : (reachStarts l s run).2 = true
          · rw [if_pos done, if_pos done]
            obtain ⟨next, pushed, result⟩ := reachStarts_done done
            rw [taken] at pushed
            cases pushed
            rw [result]
            exact ih laterSeparated laterProper backProper backCut
              (fun piece member =>
                blocks piece (List.mem_append_right _ member)) inBack steady
          · rw [if_neg done, if_neg done]
      | none =>
          rw [taken] at steady
          cases front with
          | nil =>
              rw [positions_eq_cons ordered] at inFront
              cases inFront
          | cons head more =>
              obtain ⟨start, _, shape⟩ :=
                first_piece frontProper frontCut ordered inFront
              have paid : s.budget.spend (runSize head) =
                  s.budget.spend (runSize run) := by
                rcases shape with whole | ⟨early, border⟩
                · rw [whole.1]
                · rw [steady]
                  obtain ⟨b, least, most⟩ := blocks head (by simp)
                  have positive : 0 < occBlock := by decide
                  have headOrdered :=
                    ((proper_cons head more).mp frontProper).1
                  have block : run.1 / occBlock = b :=
                    Nat.div_eq_of_lt_le (by omega) (by omega)
                  obtain ⟨k, stop⟩ := border
                  have last : k = b + 1 := by
                    have above : occBlock * b < occBlock * k := by
                      rw [Nat.mul_comm]
                      omega
                    have below : occBlock * k ≤ occBlock * (b + 1) := by
                      rw [← stop, Nat.mul_comm]
                      omega
                    have exceeds := Nat.lt_of_mul_lt_mul_left above
                    have atMost := Nat.le_of_mul_le_mul_left below positive
                    omega
                  rw [last, Nat.mul_comm] at stop
                  have part : head = inBlock run := by
                    rw [inBlock, block]
                    exact Prod.ext start (by dsimp only; omega)
                  rw [part]
              have refused : push maxReach s.out (head.1 + l) (head.2 + l) =
                  none := by
                rw [start]
                exact push_refused taken _
              rw [visitAll_cons, reachStarts_refused refused,
                reachStarts_refused taken, paid]
              rfl

theorem spend_add (budget : Budget) (first second : Nat) :
    budget.spend (first + second) = (budget.spend first).spend second := by
  cases budget with
  | unlimited => rfl
  | steps left => simp [Budget.spend, Nat.sub_sub]

theorem visitAll_done {l : Nat} {s : Progress} {runs : List Interval}
    (done : (visitAll (reachStarts l) s runs).2 = true) :
    ∃ out, pushAll maxReach s.out
        (runs.map fun run => (run.1 + l, run.2 + l)) = some out ∧
      (visitAll (reachStarts l) s runs).1 =
        ⟨out, s.budget.spend (runs.map runSize).sum, s.truncated⟩ := by
  induction runs generalizing s with
  | nil =>
      refine ⟨s.out, rfl, ?_⟩
      cases spare : s.budget <;> simp [Budget.spend, ← spare]
  | cons run runs ih =>
      rw [visitAll_cons] at done ⊢
      by_cases first : (reachStarts l s run).2 = true
      · rw [if_pos first] at done ⊢
        obtain ⟨next, pushed, result⟩ := reachStarts_done first
        rw [result] at done ⊢
        obtain ⟨out, rest, state⟩ := ih done
        refine ⟨out, ?_, ?_⟩
        · rw [pushAll, List.map_cons, List.foldlM_cons, pushed]
          exact rest
        · rw [state, List.map_cons, List.sum_cons, spend_add]
      · rw [if_neg first] at done
        cases done

section

variable {buf : Bytes} {nocase : Bool}

def startRuns (buf : Bytes) (nocase : Bool) (needle : Bytes)
    (cur : List Interval) : List (List Interval) :=
  (cur.filter fun iv => iv.1 ≤ buf.length - needle.length).map fun iv =>
    occurrenceRuns (haystack nocase buf) (haystack nocase needle) iv.1
      (min iv.2 (buf.length - needle.length))

theorem advanceLiteralMemo_steady {needle : Bytes} {cur : List Interval}
    {s : Progress} {occ : OccCache} (filled : needle ≠ [])
    (fits : needle.length ≤ buf.length) (proper : Proper cur)
    (verbatim : occ.Verbatim buf)
    (steady : SteadyIntervals needle.length s.out s.budget
      (startRuns buf nocase needle cur)) :
    (advanceLiteralMemo buf nocase needle cur s occ).1 =
        advanceLiteralDirect buf nocase needle cur s ∧
      (advanceLiteralMemo buf nocase needle cur s occ).2.Verbatim buf := by
  induction cur generalizing s occ with
  | nil => exact ⟨rfl, verbatim⟩
  | cons iv cur ih =>
      obtain ⟨ordered, restProper⟩ := (proper_cons iv cur).mp proper
      rw [advanceLiteralMemo]
      by_cases past : iv.1 > buf.length - needle.length
      · have skipped : startRuns buf nocase needle (iv :: cur) =
            startRuns buf nocase needle cur := by
          rw [startRuns, List.filter_cons_of_neg (by simpa using past)]
          rfl
        rw [skipped] at steady
        rw [if_pos past, advanceLiteralDirect]
        simp only [visitAll_cons, past, if_true]
        exact ih restProper verbatim steady
      · rw [if_neg past]
        by_cases empty : s.budget.isZero = true
        · rw [if_pos empty, advanceLiteralDirect]
          simp only [visitAll_cons, past, empty, if_false, if_true,
            Bool.false_eq_true]
          exact ⟨trivial, verbatim⟩
        · rw [if_neg empty]
          have inside : min iv.2 (buf.length - needle.length) +
              needle.length ≤ buf.length := by omega
          have haystackInside : min iv.2 (buf.length - needle.length) +
              (haystack nocase needle).length ≤
                (haystack nocase buf).length := by
            simpa only [length_haystack] using inside
          have here : startRuns buf nocase needle (iv :: cur) =
              occurrenceRuns (haystack nocase buf) (haystack nocase needle)
                iv.1 (min iv.2 (buf.length - needle.length)) ::
                startRuns buf nocase needle cur := by
            rw [startRuns, List.filter_cons_of_pos (by simpa using past)]
            rfl
          rw [here] at steady
          obtain ⟨steadyHere, steadyLater⟩ := steady
          have visited := OccCache.visit_spec nocase verbatim.valid
            (by omega : iv.1 ≤ min iv.2 (buf.length - needle.length)) inside
          have cutAt := @OccCache.visit_verbatim _ _ _ nocase iv.1 _ verbatim
            filled inside
          cases answer : occ.visit buf needle nocase iv.1
              (min iv.2 (buf.length - needle.length)) with
          | mk occ found =>
              rw [answer] at visited cutAt
              cases found with
              | none => exact ⟨rfl, cutAt.1⟩
              | some pieces =>
                  obtain ⟨piecesProper, starts⟩ := visited.2 pieces rfl
                  obtain ⟨cut, blocks⟩ := cutAt.2 pieces rfl
                  have same := visitAll_runs (s := s.spend 1)
                    (occurrenceRuns_separated (haystack_ne_nil filled)
                      haystackInside)
                    (occurrenceRuns_proper iv.1 haystackInside) piecesProper
                    cut blocks
                    (starts.trans
                      (occurrenceRuns_positions haystackInside).symm)
                    steadyHere
                  rw [advanceLiteralDirect]
                  simp only [visitAll_cons, past, empty, if_false,
                    Bool.false_eq_true]
                  rw [same]
                  cases outcome : visitAll (reachStarts needle.length)
                      (s.spend 1) (occurrenceRuns (haystack nocase buf)
                        (haystack nocase needle) iv.1
                        (min iv.2 (buf.length - needle.length))) with
                  | mk next go =>
                      cases go with
                      | false => exact ⟨rfl, cutAt.1⟩
                      | true =>
                          obtain ⟨out, pushed, state⟩ :=
                            visitAll_done (by rw [outcome])
                          rw [outcome] at state
                          dsimp only at state
                          apply ih restProper cutAt.1
                          rw [state]
                          have paid : (s.spend 1).budget.spend
                              ((occurrenceRuns (haystack nocase buf)
                                (haystack nocase needle) iv.1
                                (min iv.2 (buf.length - needle.length))).map
                                  runSize).sum = s.budget.spend (1 +
                              ((occurrenceRuns (haystack nocase buf)
                                (haystack nocase needle) iv.1
                                (min iv.2 (buf.length - needle.length))).map
                                  runSize).sum) :=
                            (spend_add s.budget 1 _).symm
                          rw [paid]
                          exact steadyLater out pushed

end

/-! ## Sequences of advances -/

/-- One literal advance over an object: the literal fits the object, and no
interval is empty. -/
structure LiteralAdvance (buf : Bytes) where
  needle : Bytes
  nocase : Bool
  cur : List Interval
  start : Progress
  filled : needle ≠ []
  fits : needle.length ≤ buf.length
  proper : Proper cur

namespace LiteralAdvance

variable {buf : Bytes}

/-- The advance by a search per interval. -/
def direct (adv : LiteralAdvance buf) : Progress :=
  advanceLiteralDirect buf adv.nocase adv.needle adv.cur adv.start

def memo (adv : LiteralAdvance buf) (occ : OccCache) : Progress × OccCache :=
  advanceLiteral buf adv.nocase adv.needle adv.cur adv.start occ

/-- Every run of starts that the full set refuses ends in the block it starts
in, or the budget ends with its part there. -/
def Steady (adv : LiteralAdvance buf) : Prop :=
  SteadyIntervals adv.needle.length adv.start.out adv.start.budget
    (startRuns buf adv.nocase adv.needle adv.cur)

def runMemo : List (LiteralAdvance buf) → OccCache → List Progress
  | [], _ => []
  | adv :: advs, occ =>
      let (s, occ) := adv.memo occ
      s :: runMemo advs occ

theorem memo_steady (adv : LiteralAdvance buf) (steady : adv.Steady)
    {occ : OccCache} (verbatim : occ.Verbatim buf) :
    (adv.memo occ).1 = adv.direct ∧ (adv.memo occ).2.Verbatim buf := by
  have positive := List.length_pos_iff.mpr adv.filled
  have fits := adv.fits
  rw [memo, advanceLiteral, if_neg (by omega)]
  exact advanceLiteralMemo_steady adv.filled fits adv.proper verbatim steady

theorem runMemo_eq {advs : List (LiteralAdvance buf)} {occ : OccCache}
    (verbatim : occ.Verbatim buf) (steady : ∀ adv ∈ advs, adv.Steady) :
    runMemo advs occ = advs.map direct := by
  induction advs generalizing occ with
  | nil => rfl
  | cons adv advs ih =>
      obtain ⟨same, next⟩ := adv.memo_steady (steady adv (by simp)) verbatim
      have rest := ih next fun later member => steady later (by simp [member])
      change (adv.memo occ).1 :: runMemo advs (adv.memo occ).2 = _
      rw [List.map_cons, same, rest]

/-- The memo does not show in a sequence of steady advances. -/
theorem runMemo_direct (cap : Nat) (advs : List (LiteralAdvance buf))
    (steady : ∀ adv ∈ advs, adv.Steady) :
    runMemo advs (OccCache.withCap cap) = advs.map direct :=
  runMemo_eq (OccCache.verbatim_withCap cap buf) steady

/-- Two advances over `abab`, the second answered from the memo. -/
theorem runMemo_direct_abab :
    @runMemo [0x61, 0x62, 0x61, 0x62]
        [⟨[0x61], false, [(0, 3)], ⟨[], .steps 10, false⟩, by decide,
          by decide, by simp [Proper]⟩,
         ⟨[0x61], false, [(1, 3)], ⟨[], .steps 2, false⟩, by decide,
          by decide, by simp [Proper]⟩]
        (OccCache.withCap 100) =
      [advanceLiteralDirect [0x61, 0x62, 0x61, 0x62] false [0x61] [(0, 3)]
          ⟨[], .steps 10, false⟩,
        advanceLiteralDirect [0x61, 0x62, 0x61, 0x62] false [0x61] [(1, 3)]
          ⟨[], .steps 2, false⟩] := by
  apply runMemo_direct
  intro adv member
  have first : startRuns [0x61, 0x62, 0x61, 0x62] false [0x61] [(0, 3)] =
      [[(0, 0), (2, 2)]] := by decide
  have second : startRuns [0x61, 0x62, 0x61, 0x62] false [0x61] [(1, 3)] =
      [[(2, 2)]] := by decide
  simp only [List.mem_cons, List.not_mem_nil, or_false] at member
  rcases member with rfl | rfl
  · simp [Steady, first, SteadyIntervals, SteadyRuns, push, maxReach]
  · simp [Steady, second, SteadyIntervals, SteadyRuns, push, maxReach]

end LiteralAdvance

/-! ## A refused run across a block -/

/-- `k` pairs of `ab`, then `a` for longer than a block. -/
def pairsThenRun (k : Nat) : Bytes :=
  (List.replicate k [0x61, 0x62]).flatten ++
    List.replicate (occBlock + 1) 0x61

private theorem length_pairs (k : Nat) :
    (List.replicate k ([0x61, 0x62] : Bytes)).flatten.length = 2 * k := by
  simp [Nat.mul_comm]

private theorem getElem?_pairs {k p : Nat} (inside : p < 2 * k) :
    (List.replicate k ([0x61, 0x62] : Bytes)).flatten[p]? =
      some (if p % 2 = 0 then 0x61 else 0x62) := by
  induction k generalizing p with
  | zero => omega
  | succ k ih =>
      rw [List.replicate_succ, List.flatten_cons]
      match p with
      | 0 => rfl
      | 1 => rfl
      | p + 2 =>
          have rest := @ih p (by omega)
          simpa using rest

theorem length_pairsThenRun (k : Nat) :
    (pairsThenRun k).length = 2 * k + occBlock + 1 := by
  rw [pairsThenRun, List.length_append, length_pairs, List.length_replicate]
  omega

/-- The starts of `a`, as runs. -/
def pairRuns (k : Nat) : List Interval :=
  (List.range k).map fun i => (2 * i, 2 * i)

theorem pairRuns_separated (k : Nat) :
    Separated (pairRuns k ++ [(2 * k, 2 * k + occBlock)]) := by
  refine List.pairwise_append.mpr ⟨?_, List.pairwise_singleton _ _, ?_⟩
  · rw [pairRuns, List.pairwise_map]
    refine List.pairwise_lt_range.imp ?_
    intro i j before
    dsimp only
    omega
  · intro run member last inLast
    obtain ⟨i, inRange, rfl⟩ := List.mem_map.mp member
    rw [List.mem_singleton.mp inLast]
    have bound := List.mem_range.mp inRange
    dsimp only
    omega

theorem pairRuns_proper (k : Nat) :
    Proper (pairRuns k ++ [(2 * k, 2 * k + occBlock)]) := by
  intro run member
  rcases List.mem_append.mp member with inPairs | inLast
  · obtain ⟨i, _, rfl⟩ := List.mem_map.mp inPairs
    exact le_rfl
  · rw [List.mem_singleton.mp inLast]
    exact Nat.le_add_right _ _

private theorem occursAt_pairsThenRun {k q : Nat} :
    occursAt (pairsThenRun k) [0x61] q = true ↔
      (∃ i < k, q = 2 * i) ∨ 2 * k ≤ q ∧ q ≤ 2 * k + occBlock := by
  have one : occursAt (pairsThenRun k) [0x61] q = true ↔
      (pairsThenRun k)[q]? = some 0x61 := by
    rw [occursAt_iff_getElem?]
    constructor
    · intro agree
      simpa using agree 0 (by decide)
    · intro here i below
      obtain rfl : i = 0 := by
        have bound : i < 1 := below
        omega
      simpa using here
  rw [one, pairsThenRun]
  by_cases early : q < 2 * k
  · rw [List.getElem?_append_left (by rwa [length_pairs]),
      getElem?_pairs early]
    constructor
    · intro same
      left
      split at same
      case isTrue even => exact ⟨q / 2, by omega, by omega⟩
      case isFalse => exact absurd same (by decide)
    · rintro (⟨i, _, rfl⟩ | ⟨late, _⟩)
      · simp
      · omega
  · rw [List.getElem?_append_right (by rw [length_pairs]; omega),
      length_pairs, List.getElem?_replicate]
    constructor
    · intro same
      right
      split at same
      case isTrue inside => exact ⟨by omega, by omega⟩
      case isFalse => cases same
    · rintro (⟨i, bound, rfl⟩ | ⟨_, inside⟩)
      · omega
      · rw [if_pos (by omega)]

theorem occurrenceRuns_pairsThenRun (k : Nat) :
    occurrenceRuns (pairsThenRun k) [0x61] 0 (2 * k + occBlock) =
      pairRuns k ++ [(2 * k, 2 * k + occBlock)] := by
  have inside : 2 * k + occBlock + ([0x61] : Bytes).length ≤
      (pairsThenRun k).length := by
    rw [length_pairsThenRun]
    exact le_rfl
  refine separated_eq (occurrenceRuns_proper 0 inside) (pairRuns_proper k)
    (occurrenceRuns_separated (by decide) inside) (pairRuns_separated k) ?_
  rw [occurrenceRuns_positions inside]
  refine List.Pairwise.eq_of_mem_iff (r := (· < ·))
    (occurrences_increasing ..) (pairRuns_separated k).increasing ?_
  intro q
  rw [mem_occurrences, occursAt_pairsThenRun, List.flatMap_append,
    List.mem_append, List.flatMap_singleton, mem_positions]
  constructor
  · rintro ⟨_, most, ⟨i, bound, rfl⟩ | late⟩
    · left
      exact List.mem_flatMap.mpr ⟨(2 * i, 2 * i),
        List.mem_map.mpr ⟨i, List.mem_range.mpr bound, rfl⟩, by simp⟩
    · exact Or.inr late
  · rintro (inPairs | late)
    · obtain ⟨run, member, within⟩ := List.mem_flatMap.mp inPairs
      obtain ⟨i, inRange, rfl⟩ := List.mem_map.mp member
      have bound := List.mem_range.mp inRange
      have bounds := mem_positions.mp within
      dsimp only at bounds
      exact ⟨by omega, by omega, Or.inl ⟨i, bound, by omega⟩⟩
    · exact ⟨by omega, late.2, Or.inr late⟩

def pairEnds (k : Nat) : List Interval :=
  ((List.range k).map fun i => (2 * i + 1, 2 * i + 1)).reverse

private theorem pairEnds_succ (k : Nat) :
    pairEnds (k + 1) = (2 * k + 1, 2 * k + 1) :: pairEnds k := by
  simp [pairEnds, List.range_succ]

private theorem length_pairEnds (k : Nat) : (pairEnds k).length = k := by
  simp [pairEnds]

/-- The ends of pairs are apart: each is taken while there is room. -/
private theorem push_pairEnds (room k hi : Nat) :
    push room (pairEnds k) (2 * k + 1) hi =
      if room ≤ k then none else some ((2 * k + 1, hi) :: pairEnds k) := by
  cases k with
  | zero =>
      by_cases full : room = 0
      · simp [pairEnds, push, full]
      · simp [pairEnds, push, full]
  | succ k =>
      have apart : ¬(2 * k + 1 ≤ 2 * (k + 1) + 1 ∧
          2 * (k + 1) + 1 ≤ 2 * k + 1 + 1) := by omega
      rw [pairEnds_succ, push, if_neg apart, List.length_cons,
        length_pairEnds]

theorem visitAll_pairRuns {k left : Nat} {flag : Bool} (room : k ≤ maxReach)
    (rich : k ≤ left) :
    visitAll (reachStarts 1) ⟨[], .steps left, flag⟩ (pairRuns k) =
      (⟨pairEnds k, .steps (left - k), flag⟩, true) := by
  induction k with
  | zero => rfl
  | succ k ih =>
      have before := ih (by omega) (by omega)
      have one : runSize (2 * k, 2 * k) = 1 := by simp [runSize]
      have fits : runSize (2 * k, 2 * k) ≤ left - k := by omega
      have taken := push_pairEnds maxReach k (2 * k + 1)
      rw [if_neg (by omega)] at taken
      have step : reachStarts 1 ⟨pairEnds k, .steps (left - k), flag⟩
          (2 * k, 2 * k) =
            (⟨pairEnds (k + 1), .steps (left - (k + 1)), flag⟩, true) := by
        rw [reachStarts_fits rfl fits, reachPush]
        dsimp only
        rw [taken, one, pairEnds_succ, Nat.sub_sub]
      have runs : pairRuns (k + 1) = pairRuns k ++ [(2 * k, 2 * k)] := by
        simp [pairRuns, List.range_succ]
      rw [runs, visitAll_append, before]
      simp only [if_true]
      rw [visitAll_singleton, step]

theorem steadyRuns_of_done {l : Nat} {s : Progress} {runs : List Interval}
    (done : (visitAll (reachStarts l) s runs).2 = true) :
    SteadyRuns l s.out s.budget runs := by
  induction runs generalizing s with
  | nil => trivial
  | cons run runs ih =>
      rw [visitAll_cons] at done
      by_cases first : (reachStarts l s run).2 = true
      · rw [if_pos first] at done
        obtain ⟨next, pushed, result⟩ := reachStarts_done first
        rw [result] at done
        rw [SteadyRuns, pushed]
        exact ih done
      · rw [if_neg first] at done
        cases done

/-- Two blocks' worth of a refused run: the direct search charges it whole, a
search over its pieces the first piece. -/
theorem visitAll_across {k left : Nat} (full : maxReach = k)
    (aligned : occBlock ∣ 2 * k) (rich : k + occBlock + 1 ≤ left)
    {pieces : List Interval} (proper : Proper pieces)
    (cut : pieces.Pairwise (Cut (occBlock ∣ ·)))
    (blocks : ∀ piece ∈ pieces,
      ∃ b, b * occBlock ≤ piece.1 ∧ piece.2 < (b + 1) * occBlock)
    (same : pieces.flatMap positions =
      (pairRuns k ++ [(2 * k, 2 * k + occBlock)]).flatMap positions) :
    visitAll (reachStarts 1) ⟨[], .steps left, false⟩
        (pairRuns k ++ [(2 * k, 2 * k + occBlock)]) =
        (⟨pairEnds k, .steps (left - k - (occBlock + 1)), true⟩, false) ∧
      visitAll (reachStarts 1) ⟨[], .steps left, false⟩ pieces =
        (⟨pairEnds k, .steps (left - k - occBlock), true⟩, false) := by
  have positive : 0 < occBlock := by decide
  have pairsDone : visitAll (reachStarts 1) ⟨[], .steps left, false⟩
      (pairRuns k) = (⟨pairEnds k, .steps (left - k), false⟩, true) :=
    visitAll_pairRuns full.ge (by omega)
  have refused (hi : Nat) : push maxReach (pairEnds k) (2 * k + 1) hi =
      none := by
    rw [push_pairEnds, if_pos full.le]
  obtain ⟨pairsSeparated, _, gaps⟩ :=
    List.pairwise_append.mp (pairRuns_separated k)
  have pairsProper : Proper (pairRuns k) := fun run member =>
    pairRuns_proper k run (List.mem_append_left _ member)
  constructor
  · have last : runSize (2 * k, 2 * k + occBlock) = occBlock + 1 := by
      simp [runSize]
    rw [visitAll_append, pairsDone]
    simp only [if_true]
    rw [visitAll_singleton, reachStarts_refused (refused _), last]
    rfl
  · rw [List.flatMap_append, List.flatMap_singleton] at same
    obtain ⟨front, back, rfl, inFront, inBack⟩ :=
      pieces_of_front proper pairsProper pairsSeparated (by
        intro run member p within
        have gap := gaps run member _ (List.mem_singleton_self _)
        have bounds := mem_positions.mp within
        dsimp only at gap bounds
        omega) same
    obtain ⟨frontCut, backCut, _⟩ := List.pairwise_append.mp cut
    have frontDone := visitAll_runs (s := ⟨[], .steps left, false⟩) (l := 1)
      pairsSeparated pairsProper
      (fun piece member => proper piece (List.mem_append_left _ member))
      frontCut
      (fun piece member => blocks piece (List.mem_append_left _ member))
      inFront (steadyRuns_of_done (by rw [pairsDone]))
    rw [visitAll_append, frontDone, pairsDone]
    simp only [if_true]
    cases back with
    | nil =>
        rw [positions_eq_cons (by dsimp only; omega)] at inBack
        cases inBack
    | cons head more =>
        have backProper : Proper (head :: more) := fun piece member =>
          proper piece (List.mem_append_right _ member)
        have ordered := ((proper_cons head more).mp backProper).1
        obtain ⟨start, _, shape⟩ := first_piece backProper backCut
          (by dsimp only; omega) inBack
        dsimp only at start shape
        obtain ⟨b, least, most⟩ := blocks head (by simp)
        obtain ⟨j, pairs⟩ := aligned
        have next : (b + 1) * occBlock = b * occBlock + occBlock :=
          Nat.succ_mul b occBlock
        have size : runSize head = occBlock := by
          rcases shape with ⟨rfl, _⟩ | ⟨early, i, border⟩
          · dsimp only at most
            omega
          · have above : occBlock * j < occBlock * i := by omega
            have below : occBlock * i ≤ occBlock * (j + 1) := by
              rw [Nat.mul_succ]
              omega
            have exceeds := Nat.lt_of_mul_lt_mul_left above
            have atMost := Nat.le_of_mul_le_mul_left below positive
            obtain rfl : i = j + 1 := by omega
            rw [Nat.mul_succ] at border
            unfold runSize
            omega
        have refusedHead : push maxReach (pairEnds k) (head.1 + 1)
            (head.2 + 1) = none := by
          rw [start]
          exact refused _
        rw [visitAll_cons, reachStarts_refused refusedHead, size]
        rfl

/-- A search that stops in what the memo hands over first ends there. -/
theorem advanceLiteralMemo_stopped {buf needle : Bytes} {nocase : Bool}
    {iv : Interval} {ivs pieces : List Interval} {s next : Progress}
    {occ : OccCache} (starts : ¬iv.1 > buf.length - needle.length)
    (spare : s.budget.isZero = false)
    (answer : (occ.visit buf needle nocase iv.1
      (min iv.2 (buf.length - needle.length))).2 = some pieces)
    (stopped : visitAll (reachStarts needle.length) (s.spend 1) pieces =
      (next, false)) :
    (advanceLiteralMemo buf nocase needle (iv :: ivs) s occ).1 = next := by
  rw [advanceLiteralMemo, if_neg starts, spare, if_neg (by decide)]
  cases visited : occ.visit buf needle nocase iv.1
      (min iv.2 (buf.length - needle.length)) with
  | mk cache found =>
      rw [visited] at answer
      dsimp only at answer
      subst answer
      dsimp only
      rw [stopped]

theorem advanceLiteral_across {k left cap : Nat} (full : maxReach = k)
    (aligned : occBlock ∣ 2 * k) (rich : k + occBlock + 2 ≤ left)
    (filled : 0 < cap)
    (room : (OccCache.blockRange 0 (2 * k + occBlock)).length *
      (occBlock + occBlockCost) ≤ cap) :
    (advanceLiteral (pairsThenRun k) false [0x61] [(0, 2 * k + occBlock)]
        ⟨[], .steps left, false⟩ (OccCache.withCap cap)).1.budget =
        .steps (left - 1 - k - occBlock) ∧
      (advanceLiteralDirect (pairsThenRun k) false [0x61]
        [(0, 2 * k + occBlock)] ⟨[], .steps left, false⟩).budget =
        .steps (left - 1 - k - (occBlock + 1)) := by
  have length := length_pairsThenRun k
  have one : ([0x61] : Bytes).length = 1 := rfl
  have lastStart : (pairsThenRun k).length - ([0x61] : Bytes).length =
      2 * k + occBlock := by omega
  have inside : 2 * k + occBlock + ([0x61] : Bytes).length ≤
      (pairsThenRun k).length := by omega
  have plain (v : Bytes) : haystack false v = v := rfl
  have state : Progress.spend ⟨[], .steps left, false⟩ 1 =
      ⟨[], .steps (left - 1), false⟩ := rfl
  have spare : (Budget.steps left).isZero = false := by
    simp only [Budget.isZero, beq_eq_false_iff_ne]
    omega
  obtain ⟨pieces, answer⟩ : ∃ runs, ((OccCache.withCap cap).visit
      (pairsThenRun k) [0x61] false 0 (2 * k + occBlock)).2 = some runs :=
    OccCache.visit_fresh false (by omega) filled room
  obtain ⟨proper, starts⟩ := (OccCache.visit_spec false
    (OccCache.verbatim_withCap cap (pairsThenRun k)).valid (Nat.zero_le _)
    inside).2 pieces answer
  obtain ⟨cut, blocks⟩ := (OccCache.visit_verbatim false
    (OccCache.verbatim_withCap cap (pairsThenRun k)) (by decide)
    inside).2 pieces answer
  have same : pieces.flatMap positions =
      (pairRuns k ++ [(2 * k, 2 * k + occBlock)]).flatMap positions := by
    rw [← occurrenceRuns_pairsThenRun, occurrenceRuns_positions inside]
    exact starts
  obtain ⟨direct, memo⟩ := @visitAll_across k (left - 1) full aligned
    (by omega) pieces proper cut blocks same
  constructor
  · rw [advanceLiteral, if_neg (by omega)]
    rw [advanceLiteralMemo_stopped (by rw [lastStart]; exact Nat.not_lt_zero _)
      spare (by rw [lastStart, Nat.min_self]; exact answer)
      (by rw [one, state, memo])]
  · rw [advanceLiteralDirect, lastStart, visitAll_singleton]
    dsimp only
    rw [if_neg (by omega), spare, if_neg (by decide), Nat.min_self]
    rw [one, state, plain, plain, occurrenceRuns_pairsThenRun, direct]

/-- On pairs of `ab` that fill the set, then `a` across the end of a block, the
budgets left differ. -/
theorem advanceLiteral_charges_less :
    (advanceLiteral (pairsThenRun maxReach) false [0x61]
        [(0, 2 * maxReach + occBlock)] ⟨[], .steps 4000000, false⟩
        OccCache.new).1.budget = .steps 2885887 ∧
      (advanceLiteralDirect (pairsThenRun maxReach) false [0x61]
        [(0, 2 * maxReach + occBlock)]
        ⟨[], .steps 4000000, false⟩).budget = .steps 2885886 := by
  have reach : maxReach = 1048576 := rfl
  have block : occBlock = 65536 := rfl
  have cost : occBlockCost = 4 := rfl
  have most : maxOccTotal = 4000000 := rfl
  have blocks : (OccCache.blockRange 0 (2 * maxReach + occBlock)).length =
      34 := by
    rw [OccCache.blockRange, List.length_range', reach, block]
  have result := @advanceLiteral_across maxReach 4000000 maxOccTotal rfl
    ⟨32, by rw [reach, block]⟩ (by omega) (by omega)
    (by rw [blocks, block, cost, most]; decide)
  have memo : 4000000 - 1 - maxReach - occBlock = 2885887 := by omega
  have direct : 4000000 - 1 - maxReach - (occBlock + 1) = 2885886 := by omega
  rw [memo, direct] at result
  rw [OccCache.new]
  exact result

end Exav.Engine
