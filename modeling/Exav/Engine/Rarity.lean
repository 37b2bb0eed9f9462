import Mathlib.Data.List.Destutter
import Mathlib.Data.List.Sort
import Exav.Bytes
import Exav.Lib.Repeats

/-!
# How common a literal is

The grams of two to four bytes of the literals of a set are counted, each once
for a literal, and a literal is as common as its rarest gram.  A large set is
counted in two passes, of which the first finds the grams that repeat, through
slots that grams may share.
-/

namespace Exav.Engine

/-! ## Grams -/

/-- A gram's key: its bytes folded, tagged with the length. -/
def gramKey (g : Bytes) : UInt64 :=
  g.foldl (fun (v : UInt64) b => (v <<< 8) ||| (fold b).toUInt64) 0 |||
    (UInt64.ofNat g.length <<< 56)

/-- The windows of `n` bytes of a literal. -/
def windowsOf (n : Nat) (lit : Bytes) : List Bytes :=
  (List.range (lit.length + 1 - n)).map fun i => window lit i n

/-- Every gram of `lit` to credit while counting. -/
def countGramsOf (lit : Bytes) : List UInt64 :=
  (((List.range' 2 3).flatMap fun n => (windowsOf n lit).map gramKey).insertionSort
    (· ≤ ·)).destutter (· ≠ ·)

/-- The grams credited by a set of literals, literal by literal. -/
def credited (lits : List Bytes) : List UInt64 :=
  lits.flatMap countGramsOf

/-! ## Counts -/

/-- How many literals contain each gram. -/
structure GramStats where
  counts : UInt64 → Nat

/-- Literal count from which the repeat filter is worth its fixed cost. -/
def filterMinBodies : Nat := 100000

/-- A gram's slot in the repeat filter's bitsets of `2 ^ 28` bits. -/
def seenSlot (k : UInt64) : UInt64 :=
  (k * 0x9E3779B97F4A7C15) >>> 36

namespace GramStats

def countAll (lits : List Bytes) : Option GramStats :=
  (Repeats.tally (2 ^ 32) (fun _ => 0) (credited lits)).map mk

section

variable {σ : Type} [DecidableEq σ]

def countRepeats (slot : UInt64 → σ) (lits : List Bytes) : Option GramStats :=
  let twice := Repeats.repeats slot (credited lits)
  (Repeats.tally (2 ^ 32) (fun _ => 0)
    ((credited lits).filter fun k => twice (slot k))).map mk

/-- Count grams over every literal, of which there are about `literals`. -/
def buildBy (threshold : Nat) (slot : UInt64 → σ) (literals : Nat)
    (lits : List Bytes) : Option GramStats :=
  if literals < threshold then countAll lits else countRepeats slot lits

end

def build (literals : Nat) (lits : List Bytes) : Option GramStats :=
  buildBy filterMinBodies seenSlot literals lits

/-- How many literals contain `lit`, bounded above. -/
def popularity (s : GramStats) (lit : Bytes) : Nat :=
  if lit.length < 2 then 0
  else
    ((windowsOf (min lit.length 4) lit).map fun g =>
      s.counts (gramKey g)).min?.getD 0

end GramStats

/-! ## Scores -/

/-- The order of magnitude of a count, none for the counts 0 and 1. -/
def log2Floor (c : Nat) : Int :=
  if c ≤ 1 then 0 else Nat.log2 c

/-- The distinct bytes of `b`, in the order they are first seen. -/
def distinctOf (b : Bytes) : Bytes :=
  b.foldl (fun seen x => if x ∈ seen then seen else seen ++ [x]) []

/-- How rare `b` should be from its bytes alone. -/
def structural (b : Bytes) : Int :=
  match (distinctOf b).length with
  | 0 | 1 => 1
  | 2 => (min 3 b.length : Nat)
  | _ => b.length

/-- Selectivity of a candidate anchor, higher is rarer. -/
def anchorScore (b : Bytes) (stats : Option GramStats) : Int :=
  structural b - match stats with
    | none => 0
    | some s => log2Floor (s.popularity b)

/-- How plain a byte is. -/
def plainness (b : UInt8) : Nat :=
  if b = 0x00 then 3
  else if b = 0xff then 2
  else if b = 32 ∨ b = 10 ∨ b = 13 ∨ b = 9 ∨ b = 0x90 ∨ b = 0xcc then 1
  else 0

/-- What looking a window of anchor bytes up at every position is expected to
cost. -/
def windowCost (w : Bytes) (stats : GramStats) : Int × Nat :=
  (log2Floor (stats.popularity w),
    (w.map plainness).sum + w.length - (distinctOf w).length)

/-- What the counts are read for. -/
def scores (b : Bytes) (stats : GramStats) : Int × Int × (Int × Nat) :=
  (log2Floor (stats.popularity b), anchorScore b (some stats),
    windowCost b stats)

/-! ## The repeat filter -/

/-- Counts that tell grams of one literal from absent ones differently. -/
def GramStats.Alike (s t : GramStats) : Prop :=
  ∀ k, Repeats.Alike (s.counts k) (t.counts k)

private theorem min_alike {f g : Bytes → Nat} {items : List Bytes}
    (alike : ∀ item, Repeats.Alike (f item) (g item)) {a b : Nat}
    (first : Repeats.Alike a b) :
    Repeats.Alike ((items.map f).foldl min a) ((items.map g).foldl min b) := by
  induction items generalizing a b with
  | nil => exact first
  | cons item items ih =>
      apply ih
      have here := alike item
      unfold Repeats.Alike at here first ⊢
      omega

theorem popularity_alike {s t : GramStats} (alike : s.Alike t)
    (lit : Bytes) : Repeats.Alike (s.popularity lit) (t.popularity lit) := by
  unfold GramStats.popularity
  split
  · rfl
  · cases windowsOf (min lit.length 4) lit with
    | nil => rfl
    | cons g windows =>
        simp only [List.map_cons, List.min?_cons', Option.getD_some]
        exact min_alike (fun g => alike (gramKey g)) (alike (gramKey g))

theorem log2Floor_alike {a b : Nat} (alike : Repeats.Alike a b) :
    log2Floor a = log2Floor b := by
  unfold Repeats.Alike at alike
  unfold log2Floor
  by_cases few : a ≤ 1
  · rw [if_pos few, if_pos (by omega)]
  · have same : a = b := by omega
    rw [same]

theorem scores_alike {s t : GramStats} (alike : s.Alike t) (b : Bytes) :
    scores b s = scores b t := by
  have same := log2Floor_alike (popularity_alike alike b)
  simp only [scores, anchorScore, windowCost, same]

/-- Whichever way the grams are counted, and wherever the filter's slots
collide, every byte string is scored alike. -/
theorem build_scores {σ : Type} [DecidableEq σ] (threshold : Nat)
    (slot : UInt64 → σ) (literals : Nat) (lits : List Bytes) (b : Bytes) :
    (GramStats.countRepeats slot lits).map (scores b) =
        (GramStats.countAll lits).map (scores b) ∧
      (GramStats.buildBy threshold slot literals lits).map (scores b) =
        (GramStats.countAll lits).map (scores b) := by
  have filtered : (GramStats.countRepeats slot lits).map (scores b) =
      (GramStats.countAll lits).map (scores b) := by
    have related := @Repeats.tally_filter UInt64 _ (2 ^ 32) (credited lits)
      (fun k => Repeats.repeats slot (credited lits) (slot k)) (by decide)
      fun _ twice => Repeats.repeats_of_two_le slot twice
    unfold GramStats.countRepeats GramStats.countAll
    dsimp only
    revert related
    generalize Repeats.tally (2 ^ 32) (fun _ => 0) ((credited lits).filter _) =
      some_counts
    generalize Repeats.tally (2 ^ 32) (fun _ => 0) (credited lits) = all_counts
    intro related
    cases related with
    | none => rfl
    | some alike => exact congrArg some (scores_alike alike b)
  refine ⟨filtered, ?_⟩
  unfold GramStats.buildBy
  split
  · rfl
  · exact filtered

end Exav.Engine
