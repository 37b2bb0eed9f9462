import Exav.Lib.Literal
import Exav.Views.Stripper

/-!
# Scripts and their layouts

A script is a run of tokens with blanks before, between and after them: white
bytes and comments.  Two words stay apart, and no blank makes a comment opener
of a division sign.
-/

set_option maxRecDepth 8192

namespace Exav.Views

/-! ## Tokens -/

def isQuote (b : UInt8) : Bool :=
  b = 39 || b = 34 || b = 96

/-- A byte that is neither blank, a quote nor a slash. -/
def isPlain (b : UInt8) : Bool :=
  !isAsciiWhitespace b && !isQuote b && b != 47

/-- A part of a template literal: a character, or code to be evaluated. -/
inductive Part where
  | char (c : Char8)
  | code (bytes : Bytes)

def Part.bytes : Part → Bytes
  | char c => c.bytes
  | code bytes => [36, 123] ++ bytes ++ [125]

inductive Token where
  | plain (first : UInt8) (rest : Bytes)
      (isPlain : isPlain first ∧ ∀ b ∈ rest, isPlain b)
  | divide
  | divideAssign
  | string (quote : UInt8) (body : List Char8)
      (isQuote : quote = 39 ∨ quote = 34) (closes : ∀ c ∈ body, c.Before quote)
  | template (parts : List Part)
      (closes : ∀ c, Part.char c ∈ parts → c.Before 96)
  | regex (first : RegexPart) (rest : List RegexPart) (flags : Bytes)
      (notComment : first ≠ .char (.byte 42))
      (closes : ∀ part ∈ first :: rest, part.WellFormed)
      (areFlags : ∀ b ∈ flags, isWord b)

namespace Token

def bytes : Token → Bytes
  | plain first rest _ => first :: rest
  | divide => [47]
  | divideAssign => [47, 61]
  | string quote body _ _ => quote :: body.flatMap Char8.bytes ++ [quote]
  | template parts _ => 96 :: parts.flatMap Part.bytes ++ [96]
  | regex first rest flags _ _ _ =>
      47 :: (first :: rest).flatMap RegexPart.bytes ++ 47 :: flags

def isRegex : Token → Bool
  | regex .. => true
  | _ => false

def mode (t : Token) : Mode :=
  Mode.outside.after t.bytes

/-- Read on its own, the token leaves no quote and no comment open. -/
def Steady (t : Token) : Prop :=
  t.mode = .outside ∨ t.mode = .slash

instance (t : Token) : Decidable t.Steady :=
  inferInstanceAs (Decidable (_ ∨ _))

end Token

/-! ## Blanks -/

inductive LineEnd where
  | lf
  | cr
  | crlf
  deriving DecidableEq

def LineEnd.bytes : LineEnd → Bytes
  | lf => [10]
  | cr => [13]
  | crlf => [13, 10]

/-- What may stand between two tokens. -/
inductive Blank where
  | white (b : UInt8) (isWhite : isAsciiWhitespace b)
  | block (body : Bytes) (opened : ¬ [42, 47] <:+: body)
  | line (body : Bytes) (ending : LineEnd)
      (oneLine : ∀ b ∈ body, b ≠ 10 ∧ b ≠ 13)

def Blank.bytes : Blank → Bytes
  | white b _ => [b]
  | block body _ => [47, 42] ++ body ++ [42, 47]
  | line body ending _ => [47, 47] ++ body ++ ending.bytes

/-- What a layout may hold: line comments that a carriage return alone ends,
and a comment, slash or asterisk right after a regexp's closing slash. -/
structure Style where
  bareCr : Bool
  touching : Bool

def Blank.Allowed (style : Style) : Blank → Prop
  | line _ .cr _ => style.bareCr = true
  | _ => True

/-! ## Scripts -/

structure Item where
  token : Token
  blanks : List Blank

def Item.bytes (item : Item) : Bytes :=
  item.token.bytes ++ item.blanks.flatMap Blank.bytes

/-- What comes after a slash makes a comment opener of it. -/
def OpensComment (bytes : Bytes) : Prop :=
  bytes.head? = some 42 ∨ bytes.head? = some 47

/-- A layout of the tokens: a blank is between two words, and a slash does not
open a comment. -/
def Fits (style : Style) : List Item → Prop
  | [] => True
  | item :: items =>
      (item.blanks = [] →
        ¬ (item.token.bytes.getLast?.any isWord ∧
          (items.flatMap Item.bytes).head?.any isWord)) ∧
      (item.token.bytes.getLast? = some 47 →
        item.token.isRegex ∧ style.touching = true ∨
          ¬ OpensComment (item.blanks.flatMap Blank.bytes ++
            items.flatMap Item.bytes)) ∧
      (∀ blank ∈ item.blanks, blank.Allowed style) ∧
      Fits style items

structure Script where
  lead : List Blank
  items : List Item

namespace Script

def tokens (script : Script) : List Token :=
  script.items.map Item.token

def bytes (script : Script) : Bytes :=
  script.lead.flatMap Blank.bytes ++ script.items.flatMap Item.bytes

structure Lays (style : Style) (tokens : List Token) (script : Script) :
    Prop where
  tokens : script.tokens = tokens
  lead : ∀ blank ∈ script.lead, blank.Allowed style
  fits : Fits style script.items

end Script

def SameView (style : Style) (tokens : List Token) : Prop :=
  ∀ script script' : Script, script.Lays style tokens →
    script'.Lays style tokens →
      (javascript.run (.mem script.bytes)).1 =
        (javascript.run (.mem script'.bytes)).1

/-!
## The view of a script's tokens

Blanks are white in what the stripper keeps, as long as it is outside when they
start, so the view of a script is the view of its tokens with a blank before
each.
-/

namespace Mode

/-! ## What is kept of a token -/

theorem strip_append (mode : Mode) (first second : Bytes) :
    mode.strip (first ++ second) =
      mode.kept first ++ (mode.after first).strip second := by
  rw [strip, kept_append, after_append, strip, List.append_assoc]

theorem after_chars {q : UInt8} {chars : List Char8}
    (closes : ∀ c ∈ chars, c.Before q) :
    (quoted q).after (chars.flatMap Char8.bytes) = quoted q := by
  induction chars with
  | nil => rfl
  | cons c chars ih =>
      have stays : (quoted q).after c.bytes = quoted q := by
        have here := closes c List.mem_cons_self
        cases c with
        | byte b =>
            simp only [Char8.bytes, after_cons, after_nil, next]
            rw [if_neg here.2, if_neg here.1]
        | escape b => rfl
      rw [List.flatMap_cons, after_append, stays]
      exact ih fun later member => closes later (List.mem_cons_of_mem c member)

theorem after_quoted {q : UInt8} (mark : q = 39 ∨ q = 34 ∨ q = 96)
    {chars : List Char8} (closes : ∀ c ∈ chars, c.Before q) :
    outside.after (q :: chars.flatMap Char8.bytes ++ [q]) = outside := by
  have opened : outside.next q = quoted q := by
    rw [next, opens, if_pos mark]
  have notEscape : q ≠ 92 := by
    rcases mark with rfl | rfl | rfl <;> decide
  rw [List.cons_append, after_cons, opened, after_append, after_chars closes,
    after_cons, after_nil, next, if_neg notEscape, if_pos rfl]

theorem after_plain {bytes : Bytes} (plain : ∀ b ∈ bytes, isPlain b) :
    outside.after bytes = outside := by
  induction bytes with
  | nil => rfl
  | cons b bytes ih =>
      have here := plain b List.mem_cons_self
      simp only [isPlain, isQuote, Bool.and_eq_true, Bool.not_eq_true',
        Bool.or_eq_false_iff, decide_eq_false_iff_not, bne_iff_ne] at here
      have stays : outside.next b = outside := by
        simp [next, opens, here]
      rw [after_cons, stays]
      exact ih fun later member => plain later (List.mem_cons_of_mem b member)

theorem slash_of_next {mode : Mode} {b : UInt8} (slash : mode.next b = .slash) :
    b = 47 := by
  cases mode with
  | quoted _ | block | star | line =>
      simp only [next] at slash
      split_ifs at slash
  | escaped _ => cases slash
  | outside | slash =>
      simp only [next, opens] at slash
      split_ifs at slash <;> assumption

theorem strip_last {mode : Mode} {b : UInt8}
    (steady : mode.next b = .outside ∨ mode.next b = .slash) :
    ∃ init c, mode.strip [b] = init ++ [c] ∧
      (c = b ∨ isAsciiWhitespace c = true) := by
  rw [strip_cons, strip_nil]
  rcases steady with outside | slash
  · rw [outside]
    cases mode with
    | outside =>
        have notSlash : b ≠ 47 := by
          rintro rfl
          cases outside
        exact ⟨[], b, by simp [emits, flush, notSlash], .inl rfl⟩
    | slash =>
        have kept : ¬ (b = 42 ∨ b = 47) := by
          rintro (rfl | rfl) <;> cases outside
        exact ⟨[47], b, by simp [emits, flush, kept], .inl rfl⟩
    | quoted _ | escaped _ => exact ⟨[], b, rfl, .inl rfl⟩
    | block =>
        simp only [next] at outside
        split_ifs at outside
    | star =>
        have closes : b = 47 := by
          by_contra open_
          rw [next, if_neg open_] at outside
          split_ifs at outside
        exact ⟨[], 32, by simp [emits, flush, closes], .inr rfl⟩
    | line =>
        have feed : b = 10 := by
          by_contra inside
          simp [next, inside] at outside
        exact ⟨[], 10, by simp [emits, flush, feed], .inr rfl⟩
  · refine ⟨mode.emits b, b, ?_, .inl rfl⟩
    rw [slash, flush, slash_of_next slash]

end Mode

namespace Token

variable {t : Token}

def keeps (t : Token) : Bytes :=
  Mode.outside.strip t.bytes

theorem last_of_slash (slash : t.mode = .slash) :
    t.bytes.getLast? = some 47 := by
  rcases List.eq_nil_or_concat t.bytes with empty | ⟨init, b, split⟩
  · rw [mode, empty] at slash
    cases slash
  · rw [List.concat_eq_append] at split
    rw [mode, split, Mode.after_append] at slash
    rw [split, List.getLast?_concat, Mode.slash_of_next slash]

/-- A token that is neither a regexp nor a template with code in it. -/
def Simple : Token → Prop
  | template parts _ => ∃ chars : List Char8, parts = chars.map .char
  | regex .. => False
  | _ => True

/-- Only a regexp or a template with code in it can leave the stripper
inside. -/
theorem Simple.steady (simple : t.Simple) : t.Steady := by
  cases t with
  | plain first rest isPlain =>
      exact .inl (Mode.after_plain (List.forall_mem_cons.mpr isPlain))
  | divide => exact .inr rfl
  | divideAssign => exact .inl rfl
  | string quote body isQuote closes =>
      exact .inl (Mode.after_quoted (isQuote.imp_right .inl) closes)
  | template parts closes =>
      obtain ⟨chars, rfl⟩ := simple
      have same : (chars.map Part.char).flatMap Part.bytes =
          chars.flatMap Char8.bytes := List.flatMap_map ..
      refine .inl ?_
      rw [mode, bytes, same]
      exact Mode.after_quoted (.inr (.inr rfl)) fun c member =>
        closes c (List.mem_map_of_mem member)
  | regex => exact simple.elim

theorem Steady.strip (steady : t.Steady) {bytes : Bytes}
    (apart : t.mode = .slash → ¬ OpensComment bytes) :
    Mode.outside.strip (t.bytes ++ bytes) =
      t.keeps ++ Mode.outside.strip bytes := by
  have end_eq : t.keeps = Mode.outside.kept t.bytes ++ t.mode.flush := rfl
  rw [Mode.strip_append, end_eq, List.append_assoc]
  change _ ++ t.mode.strip bytes = _
  rcases steady with outside | slash
  · rw [outside]
    rfl
  · have closed := apart slash
    rw [slash, Mode.strip_slash (fun star => closed (.inl star))
      (fun twice => closed (.inr twice))]
    rfl

theorem Steady.last (steady : t.Steady) :
    ∃ init c, t.keeps = init ++ [c] ∧
      (t.bytes.getLast? = some c ∨ isAsciiWhitespace c = true) := by
  rcases List.eq_nil_or_concat t.bytes with empty | ⟨front, b, split⟩
  · exact absurd empty (by cases t <;> simp [bytes])
  · rw [List.concat_eq_append] at split
    rw [Steady, mode, split, Mode.after_append] at steady
    obtain ⟨init, c, last, is_last⟩ := Mode.strip_last steady
    refine ⟨Mode.outside.kept front ++ init, c, ?_, ?_⟩
    · rw [keeps, split, Mode.strip_append, last, List.append_assoc]
    · rw [split, List.getLast?_concat]
      exact is_last.imp_left fun same => congrArg some same.symm

theorem kept_first {first : UInt8} {rest : Bytes}
    (opens : first = 47 → ¬ OpensComment rest) :
    ∃ kept, Mode.outside.strip (first :: rest) = first :: kept := by
  by_cases mark : first = 39 ∨ first = 34 ∨ first = 96
  · exact ⟨_, Mode.strip_quote mark rest⟩
  · exact ⟨_, Mode.strip_plain mark
      (fun ⟨slash, star⟩ => opens slash (.inl star))
      (fun ⟨slash, twice⟩ => opens slash (.inr twice))⟩

theorem starts (t : Token) :
    ∃ first rest kept, t.bytes = first :: rest ∧ t.keeps = first :: kept ∧
      isAsciiWhitespace first = false := by
  have start {first : UInt8} {rest : Bytes} (split : t.bytes = first :: rest)
      (opens : first = 47 → ¬ OpensComment rest)
      (dark : isAsciiWhitespace first = false) :
      ∃ first rest kept, t.bytes = first :: rest ∧ t.keeps = first :: kept ∧
        isAsciiWhitespace first = false := by
    obtain ⟨kept, same⟩ := kept_first opens
    exact ⟨first, rest, kept, split, by rw [keeps, split, same], dark⟩
  cases t with
  | plain first rest isPlain =>
      have plain := isPlain.1
      simp only [Views.isPlain, Bool.and_eq_true, Bool.not_eq_true', bne_iff_ne]
        at plain
      exact start rfl (fun slash => absurd slash plain.2) plain.1.1
  | divide => exact start rfl (fun _ => by simp [OpensComment]) (by decide)
  | divideAssign => exact start rfl (fun _ => by simp [OpensComment]) (by decide)
  | string quote body isQuote _ =>
      refine start rfl (fun slash => ?_) ?_
      · rcases isQuote with rfl | rfl <;> cases slash
      · rcases isQuote with rfl | rfl <;> decide
  | template parts _ =>
      exact start rfl (fun slash => absurd slash (by decide)) (by decide)
  | regex first rest flags notComment closes _ =>
      refine start rfl (fun _ => ?_) (by decide)
      have wellFormed := closes first List.mem_cons_self
      cases first with
      | cls chars => simp [OpensComment, RegexPart.bytes]
      | char c =>
          cases c with
          | escape b => simp [OpensComment, RegexPart.bytes, Char8.bytes]
          | byte b =>
              have notSlash : b ≠ 47 := wellFormed.1.1
              have notStar : b ≠ 42 := fun same => notComment (by rw [same])
              simp [OpensComment, RegexPart.bytes, Char8.bytes, notSlash, notStar]

end Token

/-! ## What is kept of blanks -/

def White (bytes : Bytes) : Prop :=
  ∀ b ∈ bytes, isAsciiWhitespace b = true

theorem Mode.block_inside {body : Bytes} (opened : ¬ [42, 47] <:+: body)
    {mode : Mode}
    (inside : mode = .block ∨ mode = .star ∧ body.head? ≠ some 47) :
    mode.kept body = [] ∧ (mode.after body = .block ∨ mode.after body = .star) := by
  induction body generalizing mode with
  | nil => exact ⟨kept_nil mode, inside.imp_right And.left⟩
  | cons b body ih =>
      have later : ¬ [42, 47] <:+: body := fun found =>
        opened (found.trans (List.suffix_cons b body).isInfix)
      have next_eq : mode.next b = (if b = 42 then .star else .block) ∧
          mode.emits b = [] := by
        rcases inside with rfl | ⟨rfl, first⟩
        · exact ⟨rfl, rfl⟩
        · have notSlash : b ≠ 47 := fun same => first (congrArg some same)
          exact ⟨by rw [next, if_neg notSlash], by rw [emits, if_neg notSlash]⟩
      rw [kept_cons, after_cons, next_eq.1, next_eq.2, List.nil_append]
      apply ih later
      by_cases asterisk : b = 42
      · rw [if_pos asterisk]
        refine .inr ⟨rfl, fun slash => ?_⟩
        obtain ⟨rest, rfl⟩ := List.head?_eq_some_iff.mp slash
        exact opened ⟨[], rest, by rw [asterisk]; rfl⟩
      · rw [if_neg asterisk]
        exact .inl rfl

theorem Mode.line_inside {body : Bytes} (oneLine : ∀ b ∈ body, b ≠ 10) :
    Mode.line.kept body = [] ∧ Mode.line.after body = .line := by
  induction body with
  | nil => exact ⟨rfl, rfl⟩
  | cons b body ih =>
      have inside := oneLine b List.mem_cons_self
      rw [kept_cons, after_cons, next, emits, if_neg inside, if_neg inside]
      exact ih fun c member => oneLine c (List.mem_cons_of_mem b member)

theorem white_not_mark {b : UInt8} (isWhite : isAsciiWhitespace b = true) :
    ¬ (b = 39 ∨ b = 34 ∨ b = 96) ∧ b ≠ 47 := by
  constructor
  · rintro (rfl | rfl | rfl) <;> cases isWhite
  · rintro rfl
    cases isWhite

theorem Blank.kept {style : Style} (lineFeed : style.bareCr = false)
    {blank : Blank} (allowed : blank.Allowed style) :
    (∃ white, Mode.outside.kept blank.bytes = white ∧ white ≠ [] ∧ White white) ∧
      Mode.outside.after blank.bytes = .outside := by
  cases blank with
  | white b isWhite =>
      obtain ⟨notMark, notSlash⟩ := white_not_mark isWhite
      refine ⟨⟨[b], by simp [Blank.bytes, Mode.emits, notSlash], by simp,
        by simpa [White] using isWhite⟩, ?_⟩
      simp [Blank.bytes, Mode.next, Mode.opens, notMark, notSlash]
  | block body opened =>
      obtain ⟨nothing, open_⟩ := Mode.block_inside opened (.inl rfl)
      have closes : (Mode.block.after body).kept [42, 47] = [32] ∧
          (Mode.block.after body).after [42, 47] = .outside := by
        rcases open_ with block | star
        · rw [block]
          exact ⟨rfl, rfl⟩
        · rw [star]
          exact ⟨rfl, rfl⟩
      refine ⟨⟨[32], ?_, by simp, by simp [White, isAsciiWhitespace]⟩, ?_⟩
      · rw [Blank.bytes, Mode.kept_append, Mode.kept_append, Mode.after_append]
        change ([] ++ Mode.block.kept body) ++ _ = _
        rw [nothing]
        exact closes.1
      · rw [Blank.bytes, Mode.after_append, Mode.after_append]
        exact closes.2
  | line body ending oneLine =>
      obtain ⟨nothing, inside⟩ :=
        Mode.line_inside fun b member => (oneLine b member).1
      have closes : Mode.line.kept ending.bytes = [10] ∧
          Mode.line.after ending.bytes = .outside := by
        cases ending with
        | lf | crlf => exact ⟨rfl, rfl⟩
        | cr => exact absurd (lineFeed.symm.trans allowed) (by simp)
      refine ⟨⟨[10], ?_, by simp, by simp [White, isAsciiWhitespace]⟩, ?_⟩
      · rw [Blank.bytes, Mode.kept_append, Mode.kept_append, Mode.after_append]
        change ([] ++ Mode.line.kept body) ++ (Mode.line.after body).kept _ = _
        rw [nothing, inside]
        exact closes.1
      · rw [Blank.bytes, Mode.after_append, Mode.after_append]
        change (Mode.line.after body).after _ = _
        rw [inside]
        exact closes.2

theorem Blank.strip_all {style : Style} (lineFeed : style.bareCr = false)
    {blanks : List Blank} (allowed : ∀ blank ∈ blanks, blank.Allowed style)
    (bytes : Bytes) :
    ∃ white, White white ∧ (white = [] → blanks = []) ∧
      Mode.outside.strip (blanks.flatMap Blank.bytes ++ bytes) =
        white ++ Mode.outside.strip bytes := by
  induction blanks with
  | nil => exact ⟨[], by simp [White], fun _ => rfl, rfl⟩
  | cons blank blanks ih =>
      obtain ⟨rest, restWhite, _, same⟩ :=
        ih fun b member => allowed b (List.mem_cons_of_mem blank member)
      obtain ⟨⟨first, kept, some, firstWhite⟩, outside⟩ :=
        Blank.kept lineFeed (allowed blank List.mem_cons_self)
      refine ⟨first ++ rest, ?_, ?_, ?_⟩
      · intro b member
        exact (List.mem_append.mp member).elim (firstWhite b) (restWhite b)
      · intro empty
        exact absurd (List.append_eq_nil_iff.mp empty).1 some
      · rw [List.flatMap_cons, List.append_assoc, Mode.strip_append, kept,
          outside, same, List.append_assoc]

/-! ## The view -/

theorem squeezed_append (view : Squeezed) (first second : Bytes) :
    squeezed view (first ++ second) = squeezed (squeezed view first) second :=
  List.foldl_append

theorem squeezed_white {white : Bytes} (isWhite : White white) (some : white ≠ [])
    (view : Squeezed) : squeezed view white = ⟨view.out, true⟩ := by
  have drop (b : UInt8) (view : Squeezed) (here : isAsciiWhitespace b = true) :
      squeeze b view = ⟨view.out, true⟩ := by
    rw [squeeze, if_pos here]
  induction white generalizing view with
  | nil => exact absurd rfl some
  | cons b white ih =>
      change squeezed (squeeze b view) white = _
      rw [drop b view (isWhite b List.mem_cons_self)]
      cases white with
      | nil => rfl
      | cons c white =>
          exact ih (fun b member => isWhite b (List.mem_cons_of_mem _ member))
            (by simp) _

@[simp] theorem isWord_fold (b : UInt8) : isWord (fold b) = isWord b := by
  revert b
  apply forall_byte
  decide

/-- Nothing changes if whitespace was dropped before `b`. -/
def Apart (view : Squeezed) (b : UInt8) : Prop :=
  view.pendingWs = true ∨ ¬ (view.out.getLast?.any isWord ∧ isWord b)

theorem squeeze_dark {b : UInt8} (dark : isAsciiWhitespace b = false)
    (view : Squeezed) :
    squeeze b view =
      if view.pendingWs && view.out.getLast?.any isWord && isWord (fold b) then
        ⟨view.out ++ [32, fold b], false⟩
      else ⟨view.out ++ [fold b], false⟩ := by
  rw [squeeze, if_neg (by rw [dark]; simp)]

theorem squeeze_apart {view : Squeezed} {b : UInt8} (apart : Apart view b)
    (dark : isAsciiWhitespace b = false) :
    squeeze b view = squeeze b ⟨view.out, true⟩ := by
  rw [squeeze_dark dark, squeeze_dark dark]
  rcases apart with pending | free
  · rw [pending]
  · have alone : (view.out.getLast?.any isWord && isWord (fold b)) = false := by
      simpa using free
    rw [Bool.and_assoc, Bool.and_assoc, alone, Bool.and_false, Bool.and_false]

theorem Token.squeezed_keeps (t : Token) {view : Squeezed}
    (apart : ∀ b, t.bytes.head? = some b → Apart view b) :
    squeezed view t.keeps = squeezed ⟨view.out, true⟩ t.keeps := by
  obtain ⟨first, rest, kept, split, keeps, dark⟩ := t.starts
  rw [keeps]
  change squeezed (squeeze first view) kept = squeezed (squeeze first _) kept
  rw [squeeze_apart (apart first (by rw [split]; rfl)) dark]

theorem Token.Steady.squeezed_last {t : Token} (steady : t.Steady)
    (view : Squeezed) :
    (squeezed view t.keeps).pendingWs = true ∨
      (squeezed view t.keeps).out.getLast? = t.bytes.getLast?.map fold := by
  obtain ⟨init, c, keeps, is_last⟩ := steady.last
  have last : squeezed view t.keeps = squeeze c (squeezed view init) := by
    rw [keeps, squeezed_append]
    rfl
  rw [last]
  by_cases isWhite : isAsciiWhitespace c = true
  · exact .inl (by rw [squeeze, if_pos isWhite])
  · right
    rw [is_last.resolve_right isWhite, squeeze_dark (by simpa using isWhite)]
    split <;> simp

def tokensView (out : Bytes) : List Token → Bytes
  | [] => out
  | t :: ts => tokensView (squeezed ⟨out, true⟩ t.keeps).out ts

/-- Neither these tokens nor a layout in this style leave the stripper inside
where a token ends or run it into a token. -/
structure Sound (style : Style) (tokens : List Token) : Prop where
  lineFeed : style.bareCr = false
  steady : ∀ t ∈ tokens, t.Steady
  apart : style.touching = true → ∀ t ∈ tokens, t.isRegex = true →
    t.mode ≠ .slash

theorem Sound.tail {style : Style} {t : Token} {tokens : List Token}
    (sound : Sound style (t :: tokens)) : Sound style tokens where
  lineFeed := sound.lineFeed
  steady u member := sound.steady u (List.mem_cons_of_mem t member)
  apart touching u member := sound.apart touching u (List.mem_cons_of_mem t member)

theorem Sound.view_eq {style : Style} {items : List Item}
    (sound : Sound style (items.map Item.token)) (fits : Fits style items)
    (view : Squeezed)
    (apart : ∀ b, (items.flatMap Item.bytes).head? = some b → Apart view b) :
    (squeezed view (Mode.outside.strip (items.flatMap Item.bytes))).out =
      tokensView view.out (items.map Item.token) := by
  induction items generalizing view with
  | nil => rfl
  | cons item items ih =>
      obtain ⟨words, slash, allowed, fitsRest⟩ := fits
      have steady : item.token.Steady := sound.steady _ List.mem_cons_self
      have notOpened : item.token.mode = .slash →
          ¬ OpensComment (item.blanks.flatMap Blank.bytes ++
            items.flatMap Item.bytes) := by
        intro ended
        refine (slash (Token.last_of_slash ended)).resolve_left ?_
        rintro ⟨isRegex, touching⟩
        exact sound.apart touching _ List.mem_cons_self isRegex ended
      obtain ⟨white, isWhite, empty, blanks⟩ :=
        Blank.strip_all sound.lineFeed allowed (items.flatMap Item.bytes)
      have strip : Mode.outside.strip ((item :: items).flatMap Item.bytes) =
          item.token.keeps ++
            (white ++ Mode.outside.strip (items.flatMap Item.bytes)) := by
        rw [List.flatMap_cons, Item.bytes, List.append_assoc,
          steady.strip notOpened, blanks]
      have first : squeezed view item.token.keeps =
          squeezed ⟨view.out, true⟩ item.token.keeps := by
        apply Token.squeezed_keeps
        intro b head
        obtain ⟨c, rest, _, split, _⟩ := item.token.starts
        apply apart
        rw [split] at head
        rw [List.flatMap_cons, Item.bytes, List.append_assoc, split]
        exact head
      rw [strip, squeezed_append, squeezed_append, List.map_cons, tokensView,
        ← first]
      have out_eq : (squeezed (squeezed view item.token.keeps) white).out =
          (squeezed view item.token.keeps).out := by
        by_cases none : white = []
        · rw [none]
          rfl
        · rw [squeezed_white isWhite none]
      rw [← out_eq]
      apply ih sound.tail fitsRest
      intro b head
      by_cases none : white = []
      · have together := words (empty none)
        rw [none]
        rcases steady.squeezed_last view with pending | last
        · exact .inl pending
        · right
          change ¬ ((squeezed view item.token.keeps).out.getLast?.any isWord = true ∧ _)
          rw [head] at together
          rw [last]
          simpa [Option.any_map, Function.comp_def] using together
      · exact .inl (by rw [squeezed_white isWhite none])

theorem Sound.sameView {style : Style} {tokens : List Token}
    (sound : Sound style tokens) : SameView style tokens := by
  have view_eq (script : Script) (lays : script.Lays style tokens) :
      (javascript.run (.mem script.bytes)).1 = tokensView [] tokens := by
    obtain ⟨white, isWhite, _, blanks⟩ :=
      Blank.strip_all sound.lineFeed lays.lead (script.items.flatMap Item.bytes)
    have out_eq : (squeezed ⟨[], false⟩ white).out = [] := by
      by_cases none : white = []
      · rw [none]
        rfl
      · rw [squeezed_white isWhite none]
    have same := lays.tokens
    rw [Script.tokens] at same
    have rest := Sound.view_eq (same.symm ▸ sound) lays.fits
      (squeezed ⟨[], false⟩ white) (fun b _ => .inr (by rw [out_eq]; simp))
    rw [javascript_mem, Script.bytes, blanks, squeezed_append, rest, out_eq, same]
  intro script script' lays lays'
  rw [view_eq script lays, view_eq script' lays']

end Exav.Views
