import Exav.Views.Layout

/-!
# Layouts that the view tells apart

Where a token leaves a quote or a comment open, or a line comment runs past its
end, blanks can be chosen so that what stands in a comment reaches the view.
-/

namespace Exav.Views

/-- From two views that end alike, the same is written behind both. -/
theorem squeezed_behind (out out' : Bytes) (alike : out.getLast? = out'.getLast?)
    (pending : Bool) (kept : Bytes) :
    ∃ behind, (squeezed ⟨out, pending⟩ kept).out = out ++ behind ∧
      (squeezed ⟨out', pending⟩ kept).out = out' ++ behind := by
  induction kept generalizing out out' pending with
  | nil => exact ⟨[], by simp [squeezed], by simp [squeezed]⟩
  | cons b kept ih =>
      change ∃ behind, (squeezed (squeeze b _) kept).out = _ ∧
        (squeezed (squeeze b _) kept).out = _
      by_cases isWhite : isAsciiWhitespace b = true
      · rw [squeeze, if_pos isWhite, squeeze, if_pos isWhite]
        exact ih out out' alike true
      · have dark : isAsciiWhitespace b = false := by simpa using isWhite
        rw [squeeze_dark dark, squeeze_dark dark, ← alike]
        have written (more : Bytes) (some : more ≠ []) :
            ∃ behind, (squeezed ⟨out ++ more, false⟩ kept).out = out ++ behind ∧
              (squeezed ⟨out' ++ more, false⟩ kept).out = out' ++ behind := by
          obtain ⟨behind, left, right⟩ :=
            ih (out ++ more) (out' ++ more)
              (by rw [List.getLast?_append_of_ne_nil _ some,
                List.getLast?_append_of_ne_nil _ some]) false
          exact ⟨more ++ behind, by rw [left, List.append_assoc],
            by rw [right, List.append_assoc]⟩
        dsimp only
        split
        · exact written _ (by simp)
        · exact written _ (by simp)

/-- One semicolon or two. -/
def filler (twice : Bool) : Bytes :=
  if twice then [59, 59] else [59]

theorem squeezed_filler (before behind : Bytes) :
    (squeezed ⟨[], false⟩ (before ++ filler true ++ behind)).out ≠
      (squeezed ⟨[], false⟩ (before ++ filler false ++ behind)).out := by
  have once (view : Squeezed) : squeeze 59 view = ⟨view.out ++ [59], false⟩ := by
    rw [squeeze_dark (by decide), if_neg (by simp [show isWord (fold 59) = false
      by decide])]
    rfl
  rw [squeezed_append, squeezed_append, squeezed_append, squeezed_append]
  generalize squeezed ⟨[], false⟩ before = view
  change (squeezed (squeeze 59 (squeeze 59 view)) behind).out ≠
    (squeezed (squeeze 59 view) behind).out
  rw [once, once]
  obtain ⟨more, left, right⟩ := squeezed_behind (view.out ++ [59] ++ [59])
    (view.out ++ [59]) (by simp) false behind
  dsimp only
  rw [left, right]
  intro same
  have length := congrArg List.length same
  simp only [List.length_append, List.length_cons, List.length_nil] at length
  omega

def Tells (mode : Mode) (blanks : Bool → List Blank) : Prop :=
  ∃ before behind mode', ∀ twice,
    mode.kept ((blanks twice).flatMap Blank.bytes) =
      before ++ filler twice ++ behind ∧
    mode.after ((blanks twice).flatMap Blank.bytes) = mode'

theorem Tells.differ {before behind : Bytes} {blanks : Bool → List Blank}
    (tells : Tells (Mode.outside.after before) blanks) :
    (javascript.run (.mem
      (before ++ ((blanks true).flatMap Blank.bytes ++ behind)))).1 ≠
      (javascript.run (.mem
        (before ++ ((blanks false).flatMap Blank.bytes ++ behind)))).1 := by
  obtain ⟨first, last, mode, both⟩ := tells
  have strip (twice : Bool) : Mode.outside.strip
      (before ++ ((blanks twice).flatMap Blank.bytes ++ behind)) =
        (Mode.outside.kept before ++ first) ++ filler twice ++
          (last ++ mode.strip behind) := by
    rw [Mode.strip_append, Mode.strip_append, (both twice).1, (both twice).2]
    simp only [List.append_assoc]
  rw [javascript_mem, javascript_mem, strip, strip]
  exact squeezed_filler _ _

/-! ## Blanks for each mode -/

def space : Blank := .white 32 (by decide)

theorem not_closed (twice : Bool) : ¬ [42, 47] <:+: 10 :: filler twice := by
  cases twice <;> decide

/-- Told apart inside quotes and in a line comment. -/
def blockProbe (twice : Bool) : Blank :=
  .block (10 :: filler twice) (not_closed twice)

/-- Told apart in a block comment. -/
def lineProbe (twice : Bool) : Blank :=
  .line (42 :: 47 :: filler twice) .lf (by cases twice <;> decide +kernel)

def bareCr : Blank := .line [] .cr (by simp)

def Mode.Marked : Mode → Prop
  | .quoted q | .escaped q => q = 39 ∨ q = 34 ∨ q = 96
  | _ => True

theorem Mode.Marked.next {mode : Mode} (marked : mode.Marked) (b : UInt8) :
    (mode.next b).Marked := by
  have opens : (Mode.opens b).Marked := by
    unfold Mode.opens
    split_ifs with mark
    · exact mark
    · trivial
    · trivial
  cases mode with
  | outside => exact opens
  | slash =>
      simp only [Mode.next]
      split_ifs
      · trivial
      · trivial
      · exact opens
  | quoted q =>
      simp only [Mode.next]
      split_ifs
      · exact marked
      · trivial
      · exact marked
  | escaped q => exact marked
  | block | star | line =>
      simp only [Mode.next]
      split_ifs <;> trivial

theorem Mode.Marked.after {mode : Mode} (marked : mode.Marked) (bytes : Bytes) :
    (mode.after bytes).Marked := by
  induction bytes generalizing mode with
  | nil => exact marked
  | cons b bytes ih => exact ih (marked.next b)

theorem tells_quoted {q : UInt8} (mark : q = 39 ∨ q = 34 ∨ q = 96) :
    Tells (.quoted q) (fun twice => [space, blockProbe twice, space]) ∧
      Tells (.escaped q) (fun twice => [space, blockProbe twice, space]) := by
  constructor <;>
    refine ⟨[32, 47, 42, 10], [42, 47, 32], .quoted q, fun twice => ?_⟩ <;>
    rcases mark with rfl | rfl | rfl <;> cases twice <;> exact ⟨rfl, rfl⟩

theorem tells_line :
    Tells .line (fun twice => [space, blockProbe twice, space]) := by
  refine ⟨[10], [42, 47, 32], .outside, fun twice => ?_⟩
  cases twice <;> exact ⟨rfl, rfl⟩

theorem tells_block :
    Tells .block (fun twice => [space, lineProbe twice, space]) ∧
      Tells .star (fun twice => [space, lineProbe twice, space]) := by
  constructor <;> refine ⟨[32], [10, 32], .outside, fun twice => ?_⟩ <;>
    cases twice <;> exact ⟨rfl, rfl⟩

theorem tells_slash :
    Tells .slash (fun twice => [blockProbe twice, space]) := by
  refine ⟨[10], [42, 47, 32], .outside, fun twice => ?_⟩
  cases twice <;> exact ⟨rfl, rfl⟩

theorem tells_outside :
    Tells .outside (fun twice => [bareCr, blockProbe twice, space]) := by
  refine ⟨[10], [42, 47, 32], .outside, fun twice => ?_⟩
  cases twice <;> exact ⟨rfl, rfl⟩

/-! ## Layouts around a token -/

def spaced (tokens : List Token) : List Item :=
  tokens.map fun t => ⟨t, [space]⟩

theorem tokens_spaced (tokens : List Token) :
    (spaced tokens).map Item.token = tokens := by
  simp [spaced, Function.comp_def]

variable {style : Style}

theorem fits_spaced_append (tokens : List Token) {items : List Item}
    (fits : Fits style items) : Fits style (spaced tokens ++ items) := by
  induction tokens with
  | nil => exact fits
  | cons t tokens ih =>
      refine ⟨by simp, fun _ => .inr ?_, ?_, ih⟩
      · simp [OpensComment, space, Blank.bytes]
      · simp [space, Blank.Allowed]

theorem fits_spaced (tokens : List Token) : Fits style (spaced tokens) := by
  have nothing : Fits style [] := trivial
  simpa using fits_spaced_append tokens nothing

theorem after_spaced {tokens : List Token} (steady : ∀ t ∈ tokens, t.Steady) :
    Mode.outside.after ((spaced tokens).flatMap Item.bytes) = .outside := by
  induction tokens with
  | nil => rfl
  | cons t tokens ih =>
      have bytes_eq : (spaced (t :: tokens)).flatMap Item.bytes =
          t.bytes ++ ([32] ++ (spaced tokens).flatMap Item.bytes) := by
        simp [spaced, Item.bytes, space, Blank.bytes]
      have here : t.mode.after [32] = .outside := by
        rcases steady t List.mem_cons_self with outside | slash
        · rw [outside]
          rfl
        · rw [slash]
          rfl
      rw [bytes_eq, Mode.after_append, Mode.after_append]
      change ((t.mode.after [32]).after _) = _
      rw [here]
      exact ih fun u member => steady u (List.mem_cons_of_mem t member)

theorem not_sameView {before after : List Token} {t : Token}
    (steady : ∀ u ∈ before, u.Steady) {blanks : Bool → List Blank}
    (tells : Tells t.mode blanks)
    (allowed : ∀ twice, ∀ blank ∈ blanks twice, blank.Allowed style)
    (nonempty : ∀ twice, blanks twice ≠ [])
    (apart : t.bytes.getLast? = some 47 → ∀ twice bytes,
      t.isRegex ∧ style.touching = true ∨
        ¬ OpensComment ((blanks twice).flatMap Blank.bytes ++ bytes)) :
    ¬ SameView style (before ++ t :: after) := by
  intro same
  let script (twice : Bool) : Script :=
    ⟨[], spaced before ++ ⟨t, blanks twice⟩ :: spaced after⟩
  have lays (twice : Bool) :
      (script twice).Lays style (before ++ t :: after) := by
    refine ⟨by simp [script, Script.tokens, tokens_spaced], by simp [script],
      fits_spaced_append before ?_⟩
    exact ⟨fun none => absurd none (nonempty twice), fun ended => apart ended twice _,
      allowed twice, fits_spaced after⟩
  have bytes_eq (twice : Bool) : (script twice).bytes =
      ((spaced before).flatMap Item.bytes ++ t.bytes) ++
        ((blanks twice).flatMap Blank.bytes ++
          (spaced after).flatMap Item.bytes) := by
    simp [script, Script.bytes, Item.bytes]
  have mode_eq : Mode.outside.after
      ((spaced before).flatMap Item.bytes ++ t.bytes) = t.mode := by
    rw [Mode.after_append, after_spaced steady]
    rfl
  have told : Tells (Mode.outside.after
      ((spaced before).flatMap Item.bytes ++ t.bytes)) blanks := by
    rw [mode_eq]
    exact tells
  have viewed := same _ _ (lays true) (lays false)
  rw [bytes_eq, bytes_eq] at viewed
  exact told.differ viewed

/-! ## The condition -/

theorem steady_of_sameView {tokens : List Token}
    (same : SameView style tokens) : ∀ t ∈ tokens, t.Steady := by
  by_contra unsteady
  have found : (tokens.find? fun t => !decide t.Steady).isSome := by
    simpa [List.find?_isSome] using unsteady
  obtain ⟨t, first⟩ := Option.isSome_iff_exists.mp found
  obtain ⟨open_, before, after, rfl, steady⟩ :=
    List.find?_eq_some_iff_append.mp first
  have unsteadyHere : ¬ t.Steady := by simpa using open_
  have steadyBefore : ∀ u ∈ before, u.Steady := by simpa using steady
  have outsideMarked : Mode.outside.Marked := trivial
  have marked : t.mode.Marked := outsideMarked.after t.bytes
  have viaBlock (tells : Tells t.mode fun twice => [space, blockProbe twice, space]) :
      False := by
    refine not_sameView steadyBefore tells ?_ (by simp) ?_ same
    · simp [space, blockProbe, Blank.Allowed]
    · exact fun _ _ _ => .inr (by simp [OpensComment, space, Blank.bytes])
  have viaLine (tells : Tells t.mode fun twice => [space, lineProbe twice, space]) :
      False := by
    refine not_sameView steadyBefore tells ?_ (by simp) ?_ same
    · simp [space, lineProbe, Blank.Allowed]
    · exact fun _ _ _ => .inr (by simp [OpensComment, space, Blank.bytes])
  cases mode : t.mode with
  | outside => exact unsteadyHere (.inl mode)
  | slash => exact unsteadyHere (.inr mode)
  | quoted q =>
      have mark : (Mode.quoted q).Marked := mode ▸ marked
      exact viaBlock (mode ▸ (tells_quoted mark).1)
  | escaped q =>
      have mark : (Mode.escaped q).Marked := mode ▸ marked
      exact viaBlock (mode ▸ (tells_quoted mark).2)
  | line => exact viaBlock (mode ▸ tells_line)
  | block => exact viaLine (mode ▸ tells_block.1)
  | star => exact viaLine (mode ▸ tells_block.2)

theorem lineFeed_of_sameView {tokens : List Token}
    (same : SameView style tokens) : style.bareCr = false := by
  by_contra isBareCr
  have bareCr_true : style.bareCr = true := by simpa using isBareCr
  let blanks (twice : Bool) : List Blank := [bareCr, blockProbe twice, space]
  have lays (twice : Bool) :
      (Script.mk (blanks twice) (spaced tokens)).Lays style tokens := by
    refine ⟨tokens_spaced tokens, ?_, fits_spaced tokens⟩
    simp [blanks, bareCr, blockProbe, space, Blank.Allowed, bareCr_true]
  have bytes_eq (twice : Bool) : (Script.mk (blanks twice) (spaced tokens)).bytes =
      [] ++ ((blanks twice).flatMap Blank.bytes ++
        (spaced tokens).flatMap Item.bytes) := rfl
  have told : Tells (Mode.outside.after []) blanks := tells_outside
  have viewed := same _ _ (lays true) (lays false)
  rw [bytes_eq, bytes_eq] at viewed
  exact told.differ viewed

theorem sound_of_sameView {tokens : List Token}
    (same : SameView style tokens) : Sound style tokens where
  steady := steady_of_sameView same
  lineFeed := lineFeed_of_sameView same
  apart touching t member isRegex := by
    intro slash
    obtain ⟨before, after, rfl⟩ := List.append_of_mem member
    have steady := steady_of_sameView same
    refine not_sameView (fun u inside => steady u (List.mem_append_left _ inside))
      (slash ▸ tells_slash) ?_ (by simp) ?_ same
    · simp [blockProbe, space, Blank.Allowed]
    · exact fun _ _ _ => .inl ⟨isRegex, touching⟩

/-- Layouts in one style have one view, and every view is the one of the bytes
however they are delivered, just when the style and the tokens are sound. -/
theorem javascript_sameView_iff (style : Style) (tokens : List Token) :
    (SameView style tokens ∧ ∀ data, Delivered data) ↔ Sound style tokens :=
  ⟨fun same => sound_of_sameView same.1, fun sound => ⟨sound.sameView, delivered⟩⟩

/-- The regexp literal that holds one quotation mark. -/
def quoteRegex : Token :=
  .regex (.char (.byte 34)) [] [] (by decide)
    (by simp [RegexPart.WellFormed, Char8.Before]) (by simp)

/-- After a quote in a regexp, what stands in a comment is in view. -/
theorem not_sameView_quoteRegex :
    ¬ SameView ⟨false, false⟩ [quoteRegex] := by
  intro same
  have lays (twice : Bool) :
      (Script.mk [] [⟨quoteRegex, [space, blockProbe twice]⟩]).Lays ⟨false, false⟩
        [quoteRegex] := by
    refine ⟨rfl, by simp, by simp, fun _ => .inr ?_, ?_, trivial⟩
    · simp [OpensComment, space, Blank.bytes]
    · simp [space, blockProbe, Blank.Allowed]
  exact absurd (same _ _ (lays true) (lays false)) (by decide)

end Exav.Views
