import Exav.Engine.Parse
import Exav.Engine.Reach

/-!
# The simulator decides the pattern language

`gapSplitMatch` answers whether a program spreads anywhere from its start.
Where no gap has its bounds the wrong way round that is whether a derivation
exists; an inverted gap is crossed from any stretch of positions long enough,
although no segment of the object fits it.
-/

namespace Exav.Engine

open Exav.Interval

section

variable {buf : Bytes} {nocase : Bool}

/-- Where a whole program leads from a set of positions. -/
def spreadAll (buf : Bytes) (nocase : Bool) :
    List Elem → (Nat → Prop) → Nat → Prop
  | [], positions => positions
  | tok :: toks, positions =>
      spreadAll buf nocase toks (tok.Spreads buf nocase positions)

/-- No gap of the program has its bounds the wrong way round. -/
def Upright (toks : List Elem) : Prop :=
  ∀ tok ∈ toks, ¬tok.Inverted

theorem Upright.cons_iff {tok : Elem} {toks : List Elem} :
    Upright (tok :: toks) ↔ ¬tok.Inverted ∧ Upright toks := by
  simp [Upright]

instance (toks : List Elem) : Decidable (Upright toks) :=
  inferInstanceAs (Decidable (∀ tok ∈ toks, ¬tok.Inverted))

theorem spreadAll_mono {toks : List Elem} {positions wider : Nat → Prop}
    (subset : ∀ p, positions p → wider p) {q : Nat}
    (spread : spreadAll buf nocase toks positions q) :
    spreadAll buf nocase toks wider q := by
  induction toks generalizing positions wider with
  | nil => exact subset q spread
  | cons tok toks ih => exact ih (fun _ inner => inner.mono subset) spread

/-- Nothing is reached from nowhere. -/
theorem spreadAll_empty {toks : List Elem} {positions : Nat → Prop}
    (empty : ∀ p, ¬positions p) (q : Nat) :
    ¬spreadAll buf nocase toks positions q := by
  induction toks generalizing positions with
  | nil => exact empty q
  | cons tok toks ih =>
      refine ih ?_
      intro p spread
      cases tok with
      | gap min max =>
          obtain ⟨lo, hi, ordered, run, _⟩ := spread
          exact empty lo (run lo le_rfl ordered)
      | _ =>
          obtain ⟨start, member, _⟩ := spread
          exact empty start member

theorem Derives.spreadAll {toks : List Elem} {positions : Nat → Prop}
    {p r : Nat} (derivation : Derives buf nocase toks p r)
    (member : positions p) : spreadAll buf nocase toks positions r := by
  induction derivation generalizing positions with
  | nil => exact member
  | cons head tail ih => exact ih (Elem.Image.spreads ⟨_, member, head⟩)

/-- A derivation crosses no inverted gap. -/
theorem Derives.upright {toks : List Elem} {p r : Nat}
    (derivation : Derives buf nocase toks p r) : Upright toks := by
  induction derivation with
  | nil => simp [Upright]
  | @cons elem elems p q r head tail ih =>
      refine Upright.cons_iff.mpr ⟨?_, ih⟩
      intro inverted
      cases elem with
      | gap min max =>
          cases max with
          | none => exact inverted
          | some max =>
              have wrong : max < min := inverted
              obtain ⟨lower, upper, _⟩ := Elem.steps_gap_iff.mp head
              have bounded := upper max rfl
              omega
      | _ => exact inverted

theorem derives_of_spreadAll {toks : List Elem} {positions : Nat → Prop}
    (upright : Upright toks) (inside : ∀ p, positions p → p ≤ buf.length)
    {r : Nat} (spread : spreadAll buf nocase toks positions r) :
    ∃ p, positions p ∧ Derives buf nocase toks p r := by
  induction toks generalizing positions with
  | nil => exact ⟨r, spread, .nil (inside r spread)⟩
  | cons tok toks ih =>
      obtain ⟨headUpright, tailUpright⟩ := Upright.cons_iff.mp upright
      obtain ⟨q, spreads, tail⟩ :=
        ih tailUpright (fun _ inner => inner.inside) spread
      obtain ⟨p, member, head⟩ := spreads.image headUpright
      exact ⟨p, member, .cons head tail⟩

/-- The simulator answers whether the program spreads anywhere; it may miss
that only after flagging the scan. -/
theorem simulate_spec {toks : List Elem} {cur : List Interval} {pools : Pools}
    (nocase : Bool) (formed : ∀ tok ∈ toks, tok.WellFormed)
    (reachable : Reachable buf cur) (valid : pools.occ.Valid buf) :
    let result := simulate buf nocase toks cur pools
    result.2.occ.Valid buf ∧
      (pools.truncated = true → result.2.truncated = true) ∧
      (result.1 = true → ∃ q, spreadAll buf nocase toks (Covers cur) q) ∧
      (result.1 = false → result.2.truncated = false →
        ∀ q, ¬spreadAll buf nocase toks (Covers cur) q) := by
  induction toks generalizing cur pools with
  | nil =>
      refine ⟨valid, id, ?_, ?_⟩
      · intro left
        refine reachable.proper.covers_iff_ne_nil.mpr ?_
        rintro rfl
        cases left
      · intro none _ q covered
        have some := reachable.proper.covers_iff_ne_nil.mp ⟨q, covered⟩
        simp [simulate, some] at none
  | cons tok toks ih =>
      have tokFormed := formed tok (by simp)
      have toksFormed : ∀ later ∈ toks, later.WellFormed :=
        fun later member => formed later (by simp [member])
      rw [simulate]
      split_ifs with empty exhausted
      · refine ⟨valid, id, by simp, ?_⟩
        intro _ _
        apply spreadAll_empty
        rw [List.isEmpty_iff.mp empty]
        exact covers_nil
      · exact ⟨valid, fun _ => rfl, by simp, by simp⟩
      · have step := advance_spec nocase tokFormed reachable valid
        cases outcome : advance buf nocase tok cur pools with
        | mk next rest =>
            rw [outcome] at step
            obtain ⟨restValid, restFlagged, found, missed⟩ :=
              ih toksFormed step.reachable step.valid
            refine ⟨restValid, restFlagged ∘ step.flagged, ?_, ?_⟩
            · intro matched
              obtain ⟨q, spread⟩ := found matched
              exact ⟨q, spreadAll_mono step.sound spread⟩
            · intro unmatched whole q spread
              have unflagged : rest.truncated = false := by
                by_contra flag
                rw [restFlagged (by simpa using flag)] at whole
                cases whole
              exact missed unmatched whole q
                (spreadAll_mono (step.complete unflagged) spread)

theorem covers_point (pos : Nat) : Covers [(pos, pos)] = (· = pos) := by
  funext p
  simp only [covers_cons, covers_nil, or_false, eq_iff_iff]
  omega

/-- `gapSplitMatch` answers for the language: a match is a derivation from
`pos`, and an unflagged miss means there is none. -/
def Decides (buf : Bytes) (nocase : Bool) (toks : List Elem) (pos : Nat)
    (pools : Pools) : Prop :=
  let result := gapSplitMatch buf nocase toks pos pools
  (result.1 = true → ∃ r, Derives buf nocase toks pos r) ∧
    (result.1 = false → result.2.truncated = false →
      ¬∃ r, Derives buf nocase toks pos r)

/-- The answer is for the language whenever no gap is inverted, and also where
the program spreads nowhere; when the search is not cut off these are the only
cases. -/
theorem gapSplitMatch_decides_iff {toks : List Elem} {pos : Nat}
    {pools : Pools} (formed : ∀ tok ∈ toks, tok.WellFormed)
    (inside : pos ≤ buf.length) (valid : pools.occ.Valid buf) :
    ((Upright toks ∨ ∀ q, ¬spreadAll buf nocase toks (· = pos) q) →
        Decides buf nocase toks pos pools) ∧
      ((gapSplitMatch buf nocase toks pos pools).2.truncated = false →
        Decides buf nocase toks pos pools →
          Upright toks ∨ ∀ q, ¬spreadAll buf nocase toks (· = pos) q) := by
  obtain ⟨_, _, found, missed⟩ :=
    simulate_spec nocase formed (reachable_interval le_rfl inside) valid
  rw [covers_point] at found missed
  constructor
  · intro condition
    refine ⟨?_, ?_⟩
    · intro matched
      obtain ⟨r, spread⟩ := found matched
      rcases condition with upright | nowhere
      · obtain ⟨p, rfl, derivation⟩ := derives_of_spreadAll upright
          (by rintro p rfl; exact inside) spread
        exact ⟨r, derivation⟩
      · exact (nowhere r spread).elim
    · rintro unmatched whole ⟨r, derivation⟩
      exact missed unmatched whole r (derivation.spreadAll rfl)
  · intro whole decides
    cases answer : (gapSplitMatch buf nocase toks pos pools).1 with
    | true =>
        obtain ⟨r, derivation⟩ := decides.1 answer
        exact Or.inl derivation.upright
    | false => exact Or.inr (missed answer whole)

theorem Pools.valid_new (budget : Budget) (buf : Bytes) :
    (Pools.new budget).occ.Valid buf :=
  OccCache.valid_withCap _ buf

/-- A gap before a literal, found. -/
theorem gapSplitMatch_decides_gap :
    Decides [0x78, 0x61] false [.gap 0 (some 2), .bytes [0x61]] 0
      (Pools.new .unlimited) := by
  refine (gapSplitMatch_decides_iff ?_ (by decide) (Pools.valid_new _ _)).1
    (Or.inl (by decide))
  simp [Elem.WellFormed]

/-- On `xxxaa` the body `{-2}{3-1}6161` is matched from the start, although
its second gap fits no segment. -/
theorem gapSplitMatch_inverted :
    ∃ toks,
      parseElems "\x7b-2\x7d\x7b3-1\x7d6161".toList = some toks ∧
        ¬Decides [0x78, 0x78, 0x78, 0x61, 0x61] false toks 0
          (Pools.new .unlimited) := by
  refine ⟨[.gap 0 (some 2), .gap 3 (some 1), .bytes [0x61, 0x61]],
    by decide, ?_⟩
  intro decides
  have matched : (gapSplitMatch [0x78, 0x78, 0x78, 0x61, 0x61] false
      [.gap 0 (some 2), .gap 3 (some 1), .bytes [0x61, 0x61]] 0
      (Pools.new .unlimited)).1 = true := by
    decide
  obtain ⟨r, derivation⟩ := decides.1 matched
  exact absurd derivation.upright (by decide)

end

end Exav.Engine
