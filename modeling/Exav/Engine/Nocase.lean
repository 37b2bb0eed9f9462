import Exav.Engine.GapSplit

/-!
# Matching without regard to case

The case-insensitive modifier is meant to widen what a program matches.
Literals keep their matches under folding and so do single-byte classes, which
test the bytes as they are.  A masked branch folds a value of which it compares
some bits only: `FoldKept` says of one of its bytes that the fold loses no
match, which `4?` and `5?` fail.
-/

namespace Exav.Engine

open Exav.Interval Exav.Visit

/-- Whatever byte a masked one matches, it matches folded as well. -/
def FoldKept (pair : UInt8 × UInt8) : Prop :=
  ∀ b, b &&& pair.2 = pair.1 &&& pair.2 →
    fold b &&& pair.2 = fold pair.1 &&& pair.2

/-- The program negates no alternation. -/
def Positive (toks : List Elem) : Prop :=
  ∀ opts, .alt opts true ∉ toks

def MaskedBytes (toks : List Elem) (pair : UInt8 × UInt8) : Prop :=
  ∃ opts, .altMasked opts ∈ toks ∧ ∃ o ∈ opts, pair ∈ o

/-! ## Masked bytes -/

theorem maskedEq_nocase {branch : List (UInt8 × UInt8)} {hay : Bytes}
    (kept : ∀ pair ∈ branch, FoldKept pair)
    (equal : maskedEq branch hay false = true) :
    maskedEq branch hay true = true := by
  simp only [maskedEq, Bool.and_eq_true, List.all_eq_true, beq_iff_eq]
    at equal ⊢
  refine ⟨equal.1, ?_⟩
  rintro ⟨⟨v, m⟩, b⟩ member
  have same := equal.2 _ member
  simp only [Bool.false_eq_true, if_false] at same
  simp only [if_true]
  exact kept (v, m) (List.of_mem_zip member).1 b same

theorem maskedNibble_cases {c : Char} {pair : UInt8 × UInt8}
    (read : maskedNibble c = some pair) :
    pair = (0, 0) ∨ ∃ h < 16, pair = (h, 0xf) := by
  unfold maskedNibble at read
  split at read
  · cases read
    exact Or.inl rfl
  · obtain ⟨h, digit, rfl⟩ := Option.map_eq_some_iff.mp read
    exact Or.inr ⟨h, nibble_lt digit, rfl⟩

theorem foldKept_whole (v : UInt8) : FoldKept (v, 0xff) := by
  have whole : ∀ b : UInt8, b &&& 0xff = b := by
    apply forall_byte
    decide +kernel
  intro b same
  simp only [whole] at same ⊢
  rw [same]

theorem foldKept_low (l : UInt8) : FoldKept (l, 0xf) := by
  have low : ∀ b, fold b &&& 0xf = b &&& 0xf := by
    apply forall_byte
    decide +kernel
  intro b same
  simpa only [low] using same

/-- The letters are among the bytes that start with a 4 or a 5, with others
that have no case. -/
theorem foldKept_high {h : UInt8} (digit : h < 16) :
    FoldKept (h <<< 4, 0xf0) ↔ h ≠ 4 ∧ h ≠ 5 := by
  constructor
  · intro kept
    constructor
    · rintro rfl
      exact absurd (kept 0x41 (by decide)) (by decide)
    · rintro rfl
      exact absurd (kept 0x5b (by decide)) (by decide)
  · have outside : ∀ h < (16 : UInt8), h ≠ 4 ∧ h ≠ 5 →
        ∀ n : Fin 256,
          UInt8.ofNat n &&& (0xf0 : UInt8) = h <<< 4 &&& (0xf0 : UInt8) →
            fold (UInt8.ofNat n) &&& (0xf0 : UInt8) =
              fold (h <<< 4) &&& (0xf0 : UInt8) := by
      apply forall_byte
      decide +kernel
    intro apart
    exact forall_byte (outside h digit apart)

/-- Of the masked bytes that are written down, folding loses matches of `4?`
and `5?` alone. -/
theorem foldKept_iff {text : List Char} {pairs : List (UInt8 × UInt8)}
    (read : decodeMaskedHex text = some pairs) {pair : UInt8 × UInt8}
    (member : pair ∈ pairs) :
    FoldKept pair ↔ pair ≠ (0x40, 0xf0) ∧ pair ≠ (0x50, 0xf0) := by
  induction text using decodeMaskedHex.induct generalizing pairs with
  | case1 =>
      cases read
      cases member
  | case2 => cases read
  | case3 a b rest ih =>
      simp only [decodeMaskedHex, Option.bind_eq_bind, Option.bind_eq_some_iff,
        Option.pure_def, Option.some.injEq] at read
      obtain ⟨hi, first, lo, second, later, readLater, rfl⟩ := read
      have highMask : (0xf : UInt8) <<< 4 = 0xf0 := by decide
      have wholeMask : (0xf0 : UInt8) ||| 0xf = 0xff := by decide
      rcases List.mem_cons.mp member with rfl | inLater
      · rcases maskedNibble_cases first with rfl | ⟨h, digit, rfl⟩ <;>
          rcases maskedNibble_cases second with rfl | ⟨l, -, rfl⟩
        · have kept : FoldKept (0, 0) := by
            intro b _
            simp
          simpa using kept
        · simpa using foldKept_low l
        · have high : FoldKept (h <<< 4, 0xf0) ↔ h ≠ 4 ∧ h ≠ 5 :=
            foldKept_high digit
          have named : ∀ h < (16 : UInt8),
              (h <<< 4 = 0x40 ↔ h = 4) ∧ (h <<< 4 = 0x50 ↔ h = 5) := by
            apply forall_byte
            decide +kernel
          simpa [named h digit, highMask] using high
        · simpa [highMask, wholeMask] using foldKept_whole (h <<< 4 ||| l)
      · exact ih readLater inLater

/-! ## Programs -/

theorem bytesEq_nocase {a b : Bytes} (equal : bytesEq a b false = true) :
    bytesEq a b true = true := by
  rw [bytesEq_iff] at equal ⊢
  exact congrArg lower equal

section

variable {buf : Bytes} {toks : List Elem}

theorem Elem.Steps.nocase {tok : Elem} {p q : Nat}
    (positive : ∀ opts, tok ≠ .alt opts true)
    (kept : ∀ pair, MaskedBytes [tok] pair → FoldKept pair)
    (steps : tok.Steps buf false p q) : tok.Steps buf true p q := by
  refine ⟨steps.ordered, steps.inside, ?_⟩
  have admits := steps.admits
  cases tok with
  | bytes b => exact bytesEq_nocase admits
  | anyByte => exact admits
  | hiNibble h => exact admits
  | loNibble l => exact admits
  | gap min max => exact admits
  | alt opts neg =>
      cases neg with
      | true => exact absurd rfl (positive opts)
      | false =>
          obtain ⟨o, member, equal⟩ := admits
          exact ⟨o, member, bytesEq_nocase equal⟩
  | altMasked opts =>
      obtain ⟨o, member, equal⟩ := admits
      refine ⟨o, member, maskedEq_nocase ?_ equal⟩
      intro pair inside
      exact kept pair ⟨opts, by simp, o, member, inside⟩

theorem Elem.Spreads.nocase {tok : Elem} {positions : Nat → Prop} {q : Nat}
    (positive : ∀ opts, tok ≠ .alt opts true)
    (kept : ∀ pair, MaskedBytes [tok] pair → FoldKept pair)
    (spreads : tok.Spreads buf false positions q) :
    tok.Spreads buf true positions q := by
  cases tok with
  | gap min max => exact spreads
  | _ =>
      obtain ⟨p, member, steps⟩ := spreads
      exact ⟨p, member, steps.nocase positive kept⟩

theorem spreadAll_nocase {positions : Nat → Prop} (positive : Positive toks)
    (kept : ∀ pair, MaskedBytes toks pair → FoldKept pair) {q : Nat}
    (spread : spreadAll buf false toks positions q) :
    spreadAll buf true toks positions q := by
  induction toks generalizing positions with
  | nil => exact spread
  | cons tok toks ih =>
      have later := ih (fun opts member => positive opts (by simp [member]))
        (by
          rintro pair ⟨opts, member, inside⟩
          exact kept pair ⟨opts, by simp [member], inside⟩) spread
      rw [spreadAll]
      refine spreadAll_mono ?_ later
      intro p spreads
      apply spreads.nocase
      · rintro opts rfl
        exact positive opts (by simp)
      · rintro pair ⟨opts, member, inside⟩
        have same : .altMasked opts = tok := by simpa using member
        exact kept pair ⟨opts, by simp [same], inside⟩

/-- The search under `nocase` finds what the case-sensitive one finds, unless
it is cut off. -/
theorem gapSplitMatch_nocase (formed : ∀ tok ∈ toks, tok.WellFormed)
    (positive : Positive toks)
    (kept : ∀ pair, MaskedBytes toks pair → FoldKept pair) {pos : Nat}
    (inside : pos ≤ buf.length) {pools others : Pools}
    (valid : pools.occ.Valid buf) (otherValid : others.occ.Valid buf)
    (matched : (gapSplitMatch buf false toks pos pools).1 = true) :
    (gapSplitMatch buf true toks pos others).1 = true ∨
      (gapSplitMatch buf true toks pos others).2.truncated = true := by
  have reachable : Reachable buf [(pos, pos)] :=
    reachable_interval le_rfl inside
  obtain ⟨_, _, found, _⟩ := simulate_spec false formed reachable valid
  obtain ⟨_, _, _, missed⟩ := simulate_spec true formed reachable otherValid
  obtain ⟨q, spread⟩ := found matched
  by_contra lost
  simp only [not_or, Bool.not_eq_true] at lost
  exact missed lost.1 lost.2 q (spreadAll_nocase positive kept spread)

end

theorem gapSplitMatch_masked_lost {v m b : UInt8}
    (same : b &&& m = v &&& m) (lost : fold b &&& m ≠ fold v &&& m) :
    (gapSplitMatch [b] false [.altMasked [[(v, m)]]] 0
        (Pools.new .unlimited)).1 = true ∧
      (gapSplitMatch [b] true [.altMasked [[(v, m)]]] 0
        (Pools.new .unlimited)).1 = false ∧
      (gapSplitMatch [b] true [.altMasked [[(v, m)]]] 0
        (Pools.new .unlimited)).2.truncated = false := by
  have sensitive : maskedEq [(v, m)] (window [b] 0 1) false = true := by
    simp [maskedEq, window, same]
  have folded : maskedEq [(v, m)] (window [b] 0 1) true = false := by
    simp [maskedEq, window, lost]
  refine ⟨?_, ?_, ?_⟩
  · simp [gapSplitMatch, simulate, advance, advanceMaskedAlt, maskedBranch,
      pushMatches, positions, charge, Pools.new, sensitive, Progress.spend,
      reachPush, push, maxReach, coalesce, merge]
  · simp [gapSplitMatch, simulate, advance, advanceMaskedAlt, maskedBranch,
      pushMatches, positions, charge, Pools.new, folded, Progress.spend,
      coalesce]
  · simp [gapSplitMatch, simulate, advance, advanceMaskedAlt, maskedBranch,
      pushMatches, positions, charge, Pools.new, folded, Progress.spend,
      coalesce]

/-- What a program matches it matches without regard to case, whatever the
programs with masked bytes among `allowed`, exactly where folding loses no
match of these bytes. -/
theorem gapSplitMatch_nocase_iff (allowed : UInt8 × UInt8 → Prop) :
    (∀ toks, (∀ tok ∈ toks, tok.WellFormed) → Positive toks →
        (∀ pair, MaskedBytes toks pair → allowed pair) →
      ∀ buf pos, pos ≤ buf.length → ∀ pools others : Pools,
        pools.occ.Valid buf → others.occ.Valid buf →
        (gapSplitMatch buf false toks pos pools).1 = true →
          (gapSplitMatch buf true toks pos others).1 = true ∨
            (gapSplitMatch buf true toks pos others).2.truncated = true) ↔
      ∀ pair, allowed pair → FoldKept pair := by
  constructor
  · rintro widens ⟨v, m⟩ member b same
    by_contra lost
    obtain ⟨matched, unmatched, whole⟩ := gapSplitMatch_masked_lost same lost
    have found := widens [.altMasked [[(v, m)]]] (by simp [Elem.WellFormed])
      (by simp [Positive])
      (by
        rintro pair ⟨opts, inProgram, o, inOpts, inBranch⟩
        cases (by simpa using inProgram : opts = [[(v, m)]])
        cases (by simpa using inOpts : o = [(v, m)])
        cases (by simpa using inBranch : pair = (v, m))
        exact member)
      [b] 0 (by simp) _ _ (Pools.valid_new .unlimited _)
      (Pools.valid_new .unlimited _) matched
    rw [unmatched, whole] at found
    simp at found
  · intro kept toks formed positive within buf pos inside pools others valid
      otherValid matched
    exact gapSplitMatch_nocase formed positive
      (fun pair masked => kept pair (within pair masked)) inside valid
      otherValid matched

/-- `(4?|00)` matches `A`, but not without regard to case. -/
theorem gapSplitMatch_nocase_lost :
    ∃ toks, parseElems "(4?|00)".toList = some toks ∧ Positive toks ∧
      (gapSplitMatch [0x41] false toks 0 (Pools.new .unlimited)).1 = true ∧
      (gapSplitMatch [0x41] true toks 0 (Pools.new .unlimited)).1 = false ∧
      (gapSplitMatch [0x41] true toks 0
        (Pools.new .unlimited)).2.truncated = false := by
  refine ⟨[.altMasked [[(0x40, 0xf0)], [(0x00, 0xff)]]], by decide,
    by simp [Positive], by decide, by decide,
    by decide⟩

end Exav.Engine
