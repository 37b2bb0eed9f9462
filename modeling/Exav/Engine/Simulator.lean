import Exav.Engine.Elem
import Exav.Engine.Occurrences

/-!
# The interval simulator

Verification advances a set of reachable positions, held as intervals, across
the elements of a program one at a time.  `gapSplitMatch` asks whether anything
stays reachable; `gapSplitMatchBackward` keeps the set before every element and
walks back through them from a fixed end.  Both draw on pools shared by the
whole scan: a step budget, the truncation flag and the memo of occurrences.
-/

namespace Exav.Engine

open Exav.Interval Exav.Visit

/-! ## Pools -/

inductive Budget where
  | steps (left : Nat)
  | unlimited
  deriving DecidableEq

namespace Budget

def isZero : Budget → Bool
  | steps left => left == 0
  | unlimited => false

/-- Saturating subtraction. -/
def spend (cost : Nat) : Budget → Budget
  | steps left => steps (left - cost)
  | unlimited => unlimited

@[simp] theorem isZero_unlimited : isZero unlimited = false := rfl

@[simp] theorem spend_unlimited (cost : Nat) :
    spend cost unlimited = unlimited := rfl

end Budget

/-- What every verification of a scan draws on. -/
structure Pools where
  budget : Budget
  truncated : Bool
  occ : OccCache

/-- The pools a scan starts with. -/
def Pools.new (budget : Budget) : Pools where
  budget := budget
  truncated := false
  occ := OccCache.new

/-- A reachable set under construction, newest interval first. -/
structure Progress where
  out : List Interval
  budget : Budget
  truncated : Bool

namespace Progress

def flag (s : Progress) : Progress :=
  { s with truncated := true }

def spend (s : Progress) (cost : Nat) : Progress :=
  { s with budget := s.budget.spend cost }

end Progress

/-- Most intervals one reachable set holds. -/
def maxReach : Nat := 2 ^ 20

/-- Add `lo..=hi`; refused, with the scan flagged, when the set is full. -/
def reachPush (s : Progress) (iv : Interval) : Progress × Bool :=
  match push maxReach s.out iv.1 iv.2 with
  | some out => ({ s with out := out }, true)
  | none => (s.flag, false)

/-- The needle starts `iv` make the positions `l` further on reachable, for one
unit each: a start is kept, then the search stops once the pool is empty. -/
def reachStarts (l : Nat) (s : Progress) (iv : Interval) : Progress × Bool :=
  let count := iv.2 - iv.1 + 1
  match s.budget with
  | .unlimited => reachPush s (iv.1 + l, iv.2 + l)
  | .steps left =>
      if count ≤ left then
        reachPush (s.spend count) (iv.1 + l, iv.2 + l)
      else
        let kept := left + 1
        let s := { s with budget := .steps 0, truncated := true }
        ((reachPush s (iv.1 + l, iv.1 + kept - 1 + l)).1, false)

/-! ## One element -/

section

variable (buf : Bytes) (nocase : Bool)

/-- `advanceLiteral` with a search per interval. -/
def advanceLiteralDirect (needle : Bytes) (cur : List Interval)
    (s : Progress) : Progress :=
  let lastStart := buf.length - needle.length
  let step (s : Progress) (iv : Interval) :=
    if iv.1 > lastStart then (s, true)
    else if s.budget.isZero then (s.flag, false)
    else
      visitAll (reachStarts needle.length) (s.spend 1)
        (occurrenceRuns (haystack nocase buf) (haystack nocase needle) iv.1
          (min iv.2 lastStart))
  (visitAll step s cur).1

/-- The search over intervals that `advanceLiteral` makes through the memo,
falling back to the direct search where a token is not memoised. -/
def advanceLiteralMemo (needle : Bytes) :
    List Interval → Progress → OccCache → Progress × OccCache
  | [], s, occ => (s, occ)
  | iv :: ivs, s, occ =>
      let lastStart := buf.length - needle.length
      if iv.1 > lastStart then advanceLiteralMemo needle ivs s occ
      else if s.budget.isZero then (s.flag, occ)
      else
        match occ.visit buf needle nocase iv.1 (min iv.2 lastStart) with
        | (occ, none) =>
            (advanceLiteralDirect buf nocase needle (iv :: ivs) s, occ)
        | (occ, some runs) =>
            match visitAll (reachStarts needle.length) (s.spend 1) runs with
            | (s, true) => advanceLiteralMemo needle ivs s occ
            | (s, false) => (s, occ)

def advanceLiteral (needle : Bytes) (cur : List Interval) (s : Progress)
    (occ : OccCache) : Progress × OccCache :=
  if needle.length = 0 ∨ needle.length > buf.length then (s, occ)
  else advanceLiteralMemo buf nocase needle cur s occ

/-- Advance across one branch of an alternation.  An empty branch consumes
nothing: every position stays reachable. -/
def advanceBranch (cur : List Interval) (state : Progress × OccCache)
    (o : Bytes) : Progress × OccCache :=
  let (s, occ) := state
  if o = [] then ({ s with out := cur.reverse ++ s.out }, occ)
  else advanceLiteral buf nocase o cur s occ

/-- Push the end of every start in `lo..=qmax` that passes `test`. -/
def pushMatches (test : Nat → Bool) (w lo qmax : Nat) (s : Progress) :
    Progress × Bool :=
  visitAll
    (fun s q => if test q then reachPush s (q + w, q + w) else (s, true))
    s (positions (lo, qmax))

/-- A search that was not stopped is charged `cost`. -/
def charge (cost : Nat) (outcome : Progress × Bool) : Progress × Bool :=
  if outcome.2 then (outcome.1.spend cost, true) else outcome

def maskedBranch (iv : Interval) (s : Progress)
    (branch : List (UInt8 × UInt8)) : Progress × Bool :=
  let n := buf.length
  let w := branch.length
  let qmax := min iv.2 (n - w)
  if w = 0 then reachPush s (iv.1, min iv.2 n)
  else if w > n then (s, true)
  else if iv.1 > qmax then (s, true)
  else if s.budget.isZero then (s.flag, false)
  else charge (qmax - iv.1 + 1) (pushMatches
    (fun q => maskedEq branch (window buf q w) nocase) w iv.1 qmax s)

/-- Advance over an alternation whose branches carry nibble wildcards. -/
def advanceMaskedAlt (opts : List (List (UInt8 × UInt8)))
    (cur : List Interval) (s : Progress) : Progress :=
  let step (s : Progress) (iv : Interval) :=
    if iv.1 > buf.length then (s, true)
    else visitAll (maskedBranch buf nocase iv) s opts
  (visitAll step s cur).1

/-- Advance one interval over a single-byte class. -/
def classStep (elem : Elem) (s : Progress) (iv : Interval) :
    Progress × Bool :=
  let n := buf.length
  let qmax := min iv.2 (n - 1)
  let testEach (mask want : UInt8) (s : Progress) :=
    charge (qmax - iv.1 + 1)
      (pushMatches (fun q => byteAt buf q &&& mask == want) 1 iv.1 qmax s)
  if iv.1 ≥ n then (s, true)
  else if s.budget.isZero then (s.flag, false)
  else
    let s := s.spend 1
    match elem with
    | .anyByte => reachPush s (iv.1 + 1, qmax + 1)
    | .hiNibble h => testEach 0xf0 (h <<< 4) s
    | .loNibble l => testEach 0x0f l s
    -- `advanceClass` only handles single-byte classes.
    | _ => (s, true)

/-- Advance a reachable set across a single-byte class. -/
def advanceClass (elem : Elem) (cur : List Interval) (s : Progress) :
    Progress :=
  (visitAll (classStep buf elem) s cur).1

/-- The ends of the windows from `lo..=qmax` that do match an option, held in
`out` for the while. -/
def excludedEnds (opts : List Bytes) (l lo qmax : Nat) (s : Progress) :
    Progress × Bool :=
  visitAll
    (fun s opt =>
      visitAll (fun s iv => reachPush s (iv.1 + l, iv.2 + l)) s
        (occurrenceRuns (haystack nocase buf) (haystack nocase opt) lo qmax))
    { s with out := [] } opts

/-- Advance one interval across a negated alternation of options of length
`l`: past every window but those that do match an option. -/
def negAltStep (opts : List Bytes) (l : Nat) (s : Progress) (iv : Interval) :
    Progress × Bool :=
  let lastStart := buf.length - l
  let qmax := min iv.2 lastStart
  if iv.1 > lastStart then (s, true)
  else if s.budget.isZero then (s.flag, false)
  else
    match excludedEnds buf nocase opts l iv.1 qmax (s.spend 1) with
    | (e, false) => ({ e with out := s.out }, false)
    | (e, true) =>
        let excluded := coalesce e.out
        let holes := (excluded.map fun iv => iv.2 - iv.1 + 1).sum
        visitAll reachPush { e.spend holes with out := s.out }
          (carve excluded (iv.1 + l) (qmax + l))

/-- Advance a reachable set across a negated alternation, whose options share
one length. -/
def advanceNegAlt (opts : List Bytes) (cur : List Interval) (s : Progress) :
    Progress :=
  let l := (opts.head?.map List.length).getD 0
  if l = 0 ∨ l > buf.length then s
  else (visitAll (negAltStep buf nocase opts l) s cur).1

/-- One interval widened by a gap, in an object of `n` bytes. -/
def gapWindow (min : Nat) (max : Option Nat) (n : Nat) (iv : Interval) :
    Option Interval :=
  let newlo := iv.1 + min
  let newhi := match max with
    | some m => Min.min (iv.2 + m) n
    | none => n
  if newlo ≤ n ∧ newlo ≤ newhi then some (newlo, newhi) else none

/-- Advance a reachable set across a variable gap, in an object of `n` bytes. -/
def advanceGap (cur : List Interval) (min : Nat) (max : Option Nat) (n : Nat) :
    List Interval :=
  coalesce (cur.filterMap (gapWindow min max n))

/-- Advance a reachable set across one element.  The flag is only ever raised,
so what this element raises is joined to it at the end. -/
def advance (tok : Elem) (cur : List Interval) (pools : Pools) :
    List Interval × Pools :=
  let start : Progress := ⟨[], pools.budget, false⟩
  let finish (s : Progress) (occ : OccCache) : List Interval × Pools :=
    (coalesce s.out, ⟨s.budget, pools.truncated || s.truncated, occ⟩)
  match tok with
  | .bytes b =>
      let (s, occ) := advanceLiteral buf nocase b cur start pools.occ
      finish s occ
  | .alt opts false =>
      let (s, occ) :=
        opts.foldl (advanceBranch buf nocase cur) (start, pools.occ)
      finish s occ
  | .alt opts true => finish (advanceNegAlt buf nocase opts cur start) pools.occ
  | .altMasked opts =>
      finish (advanceMaskedAlt buf nocase opts cur start) pools.occ
  | .gap min max => (advanceGap cur min max buf.length, pools)
  | .anyByte | .hiNibble _ | .loNibble _ =>
      finish (advanceClass buf tok cur start) pools.occ

/-! ## Forward -/

/-- Advance `cur` across `toks` and say whether anything is left. -/
def simulate : List Elem → List Interval → Pools → Bool × Pools
  | [], cur, pools => (!cur.isEmpty, pools)
  | tok :: toks, cur, pools =>
      if cur.isEmpty then (false, pools)
      else if pools.budget.isZero then
        (false, { pools with truncated := true })
      else
        let (next, pools) := advance buf nocase tok cur pools
        simulate toks next pools

/-- Decide whether `toks` matches `buf` starting at `pos`. -/
def gapSplitMatch (toks : List Elem) (pos : Nat) (pools : Pools) :
    Bool × Pools :=
  simulate buf nocase toks [(pos, pos)] pools

/-! ## Backward -/

/-- The most bytes one element consumes, or `none` when that is unbounded. -/
def maxWidth : Elem → Option Nat
  | .bytes b => some b.length
  | .anyByte | .hiNibble _ | .loNibble _ => some 1
  | .gap _ max => max
  | .alt opts _ => some ((opts.map List.length).foldl max 0)
  | .altMasked opts => some ((opts.map List.length).foldl max 0)

/-- Sum of the elements' maximum byte widths, or `none` when one of them can
consume an unbounded run or the sum overflows. -/
def maxTotalWidth (toks : List Elem) : Option Nat :=
  toks.foldlM
    (fun sum tok => do
      let w ← maxWidth tok
      if sum + w ≤ usizeMax then some (sum + w) else none)
    0

/-- Membership test on a sorted, separated set. -/
def setContains (ivs : List Interval) (p : Nat) : Bool :=
  (greatestIn ivs p p).isSome

/-- The forward pass: each element with the set it is entered from, and the set
after the last. -/
def forwardSets : List Elem → List Interval → Pools →
    Option (List (Elem × List Interval) × List Interval) × Pools
  | [], cur, pools => (some ([], cur), pools)
  | tok :: toks, cur, pools =>
      if cur.isEmpty then (none, pools)
      else if pools.budget.isZero then
        (none, { pools with truncated := true })
      else
        let (next, pools) := advance buf nocase tok cur pools
        let (sets, pools) := forwardSets toks next pools
        (sets.map fun (steps, last) => ((tok, cur) :: steps, last), pools)

/-- Step back over one element from `cur`: the first choice the backtracking
walk would have taken that lands in `need`. -/
def stepBack (tok : Elem) (need : List Interval) (cur : Nat) : Option Nat :=
  match tok with
  | .bytes b =>
      if cur < b.length ∨
          !bytesEq (window buf (cur - b.length) b.length) b nocase then none
      else some (cur - b.length)
  | .anyByte => if cur = 0 then none else some (cur - 1)
  | .hiNibble h =>
      if cur = 0 ∨ byteAt buf (cur - 1) >>> 4 ≠ h then none
      else some (cur - 1)
  | .loNibble l =>
      if cur = 0 ∨ byteAt buf (cur - 1) &&& 0x0f ≠ l then none
      else some (cur - 1)
  | .alt opts true =>
      let l := (opts.head?.map List.length).getD 0
      if l = 0 ∨ cur < l then none
      else if opts.any fun o => bytesEq o (window buf (cur - l) l) nocase then
        none
      else some (cur - l)
  | .gap min max =>
      -- The shortest gap is the greatest reachable position.
      let hi := Min.min (max.getD cur) cur
      if min > hi then none else greatestIn need (cur - hi) (cur - min)
  | .alt opts false =>
      (opts.find? fun o => cur ≥ o.length &&
        bytesEq (window buf (cur - o.length) o.length) o nocase &&
          setContains need (cur - o.length)).map fun o => cur - o.length
  | .altMasked opts =>
      (opts.find? fun o => cur ≥ o.length &&
        maskedEq o (window buf (cur - o.length) o.length) nocase &&
          setContains need (cur - o.length)).map fun o => cur - o.length

/-- The backward pass, from the last element to the first. -/
def stepsBack (steps : List (Elem × List Interval)) (stop : Nat) : Option Nat :=
  steps.foldr
    (fun (tok, need) cur => cur.bind (stepBack buf nocase tok need)) (some stop)

/-- The leftmost start of what ends at `stop`: it sits no further left than
everything the elements can consume. -/
def leftmostStart (toks : List Elem) (stop : Nat) : Nat :=
  match maxTotalWidth toks with
  | some w => stop - w
  | none => 0

/-- Match `toks` ending exactly at `stop` and return the pattern start. -/
def gapSplitMatchBackward (toks : List Elem) (stop : Nat) (pools : Pools) :
    Option Nat × Pools :=
  if toks = [] then (some stop, pools)
  else
    let (sets, pools) :=
      forwardSets buf nocase toks [(leftmostStart toks stop, stop)] pools
    (sets.bind fun (steps, last) =>
      if setContains last stop then stepsBack buf nocase steps stop else none,
      pools)

end

end Exav.Engine
