import Exav.Yara.Guarded

/-!
# What the guard refuses

A source is refused just when some point of it is too deep, if no comment stands
between `=` or `matches` and a regular expression, no division follows text that
ends in `matches`, and no string's name has a word of the language after digits.
Each of the three can hide what follows it.
-/

namespace Exav.Yara

set_option maxRecDepth 2048

open Script (ascii isDigit)

variable {before rest : Bytes} {g : Guard}

/-! ## Between lexemes -/

theorem not_refuses_lastComment {comment : Option Bytes}
    (oneLine : ∀ body ∈ comment, ∀ b ∈ body, b ≠ 10) (fits : ¬ g.Exceeds) :
    ¬ Refuses (run before (lastComment comment) g) := by
  have ended {e : String} :
      (Except.ok () : Except String Unit) ≠ .error e := by
    intro same
    cases same
  cases comment with
  | none => exact fun ⟨_, refused⟩ => ended refused
  | some body =>
      rintro ⟨e, refused⟩
      have read : countAt before 47 (47 :: body) g =
          .ok (lineRest (47 :: body), g.toCount) := rfl
      have past : (47 :: body).length ≤ lineRest (47 :: body) := by
        rw [lineRest, List.findIdx_eq_length_of_false]
        · omega
        · intro b member
          rcases List.mem_cons.mp member with rfl | inBody
          · decide
          · simpa using oneLine body rfl b inBody
      change run before (47 :: 47 :: body) g = _ at refused
      rw [run, List.length_cons, checkFrom, read] at refused
      simp only [bind, Except.bind] at refused
      rw [if_neg (Nat.not_lt.mpr (not_exceeds fits).2),
        List.drop_of_length_le past] at refused
      exact ended refused

theorem exists_prefix_cons (k : Count) (l : Lexeme) (lexemes : List Lexeme) :
    (∃ read, read <+: l :: lexemes ∧ (read.foldl Lexeme.count k).Exceeds) ↔
      k.Exceeds ∨ ∃ read, read <+: lexemes ∧
        (read.foldl Lexeme.count (l.count k)).Exceeds := by
  constructor
  · rintro ⟨read, starts, exceeds⟩
    rcases List.prefix_cons_iff.mp starts with rfl | ⟨more, rfl, starts'⟩
    · exact .inl exceeds
    · exact .inr ⟨more, starts', exceeds⟩
  · rintro (exceeds | ⟨read, starts, exceeds⟩)
    · exact ⟨[], List.nil_prefix, exceeds⟩
    · exact ⟨l :: read, List.prefix_cons_inj l |>.mpr starts, exceeds⟩

theorem gap_last (gap : Gap) : gap.bytes.getLast?.any isSigil = false := by
  cases gap with
  | white b isWhite =>
      have notSigil (b : UInt8) : isAsciiWhitespace b = true → isSigil b = false := by
        revert b
        apply forall_byte
        decide
      simpa [Gap.bytes] using notSigil b isWhite
  | block body opened =>
      rw [Gap.bytes, List.getLast?_append_of_ne_nil _ (by simp)]
      rfl
  | line body oneLine =>
      rw [Gap.bytes, List.getLast?_append_of_ne_nil _ (by simp)]
      rfl

theorem gaps_last {gaps : List Gap} (some : gaps ≠ []) (bytes : Bytes) :
    (bytes ++ gaps.flatMap Gap.bytes).getLast?.any isSigil = false := by
  rcases List.eq_nil_or_concat gaps with none | ⟨init, gap, rfl⟩
  · exact absurd none some
  · have nonempty : gap.bytes ≠ [] := by cases gap <;> simp [Gap.bytes]
    rw [List.concat_eq_append, List.flatMap_append, List.flatMap_singleton,
      ← List.append_assoc, List.getLast?_append_of_ne_nil _ nonempty]
    exact gap_last gap

/-- Only a lexeme that goes on can end like the start of a name. -/
theorem Lexeme.open_of_last (l : Lexeme)
    (sigil : l.bytes.getLast?.any isSigil = true) : l.Open := by
  cases l with
  | word | named => trivial
  | operator b _ => simpa [Lexeme.bytes, Lexeme.Open] using sigil
  | digit b isDigit =>
      have notSigil := (digit_byte b isDigit).2.2.2.2.1
      simp [Lexeme.bytes, notSigil] at sigil
  | other b isOther =>
      have notSigil := (other_byte b isOther).2.2.2.2.1
      simp [Lexeme.bytes, notSigil] at sigil
  | opening b opens =>
      rcases opens with rfl | rfl <;> simp [Lexeme.bytes, isSigil] at sigil
  | closing b closes =>
      rcases closes with rfl | rfl <;> simp [Lexeme.bytes, isSigil] at sigil
  | divide | comma => simp [Lexeme.bytes, isSigil] at sigil
  | string | regexp =>
      rw [Lexeme.bytes, List.getLast?_append_of_ne_nil _ (by simp)] at sigil
      cases sigil

theorem white_bytes {gaps : List Gap} (white : ∀ gap ∈ gaps, gap.isWhite = true) :
    ∀ b ∈ gaps.flatMap Gap.bytes, isAsciiWhitespace b = true := by
  intro b member
  obtain ⟨gap, inGaps, inGap⟩ := List.mem_flatMap.mp member
  cases gap with
  | white c isWhite =>
      rw [List.mem_singleton.mp inGap]
      exact isWhite
  | block | line => cases white _ inGaps

theorem matches_before {white : Bytes}
    (isWhite : ∀ b ∈ white, isAsciiWhitespace b = true) (bytes : Bytes) :
    (ascii "matches").isSuffixOf
      ((bytes ++ ascii "matches" ++ white).rdropWhile isAsciiWhitespace) = true := by
  have dropped : (bytes ++ ascii "matches" ++ white).rdropWhile isAsciiWhitespace =
      (bytes ++ ascii "matches").rdropWhile isAsciiWhitespace := by
    rw [List.rdropWhile, List.rdropWhile, List.reverse_append,
      List.dropWhile_append_of_pos fun b member =>
        isWhite b (List.mem_reverse.mp member)]
  have kept : (bytes ++ ascii "matches").rdropWhile isAsciiWhitespace =
      bytes ++ ascii "matches" := by
    rw [List.rdropWhile_eq_self_iff]
    intro nonempty
    have last : (bytes ++ ascii "matches").getLast nonempty = 115 := by
      rw [List.getLast_append_of_ne_nil _ (by decide)]
      rfl
    rw [last]
    decide
  rw [dropped, kept, List.isSuffixOf_iff_suffix]
  exact List.suffix_append bytes _

/-! ## Whole sources -/

theorem startsRegexp_iff (l : Lexeme) :
    l.StartsRegexp ↔ l.IsEqual ∨ l.bytes = ascii "matches" ∧ ∃ first tail starts
      isWord, l = .word first tail starts isWord := by
  cases l with
  | word first tail starts isWord =>
      exact ⟨fun same => .inr ⟨same, first, tail, starts, isWord, rfl⟩,
        fun either => either.elim False.elim And.left⟩
  | operator b isOperator =>
      exact ⟨.inl, fun either => either.resolve_right fun ⟨_, _, _, _, _, same⟩ => by
        cases same⟩
  | _ =>
      exact ⟨False.elim, fun either => either.elim id fun ⟨_, _, _, _, _, same⟩ => by
        cases same⟩

/-- What the guard knows where a piece starts. -/
structure Stands (before : Bytes) (prev : UInt8) (pieces : List Piece)
    (tail : Bytes) : Prop where
  name : before.getLast?.any isSigil = true →
    ∀ b ∈ (pieces.flatMap Piece.bytes ++ tail).head?, isWordByte b = false
  regexp : ∀ piece ∈ pieces.head?, piece.lexeme.isRegexp = true →
    regexMayStart before prev = true
  divide : ∀ piece ∈ pieces.head?, piece.lexeme = .divide → prev ≠ 61

theorem Stands.fine {prev : UInt8} {piece : Piece} {pieces : List Piece}
    {tail : Bytes} (stands : Stands before prev (piece :: pieces) tail)
    (reads : Reads tail (piece :: pieces))
    (notMatching : ¬ Matching before (piece :: pieces))
    (notNumbered : ¬ piece.lexeme.Numbered) :
    Fine before
      (piece.gaps.flatMap Gap.bytes ++ (pieces.flatMap Piece.bytes ++ tail)) prev
      piece.lexeme := by
  obtain ⟨ends, opens, _, _⟩ := reads
  obtain ⟨l, gaps⟩ := piece
  cases l with
  | word first rest starts isWord =>
      refine ⟨?_, ends trivial⟩
      by_contra sigil
      have clash := stands.name (by simpa using sigil) first rfl
      rw [wordByte_of_start first starts] at clash
      cases clash
  | named => exact ⟨ends trivial, notNumbered⟩
  | divide =>
      refine ⟨opens rfl, ?_⟩
      have notEqual : prev ≠ 61 := stands.divide _ rfl rfl
      have notSuffix : ¬ ascii "matches" <:+ before.rdropWhile isAsciiWhitespace :=
        fun suffix => notMatching (.inl ⟨rfl, suffix⟩)
      rw [← List.isSuffixOf_iff_suffix] at notSuffix
      simp [regexMayStart, notEqual, notSuffix]
  | regexp => exact stands.regexp _ rfl rfl
  | digit | operator | opening | closing | comma | other | string => trivial

theorem Stands.next {piece : Piece} {pieces : List Piece}
    {tail : Bytes} (reads : Reads tail (piece :: pieces))
    (notCommented : ¬ Commented (piece :: pieces)) {prevLexeme prevGaps : UInt8}
    (equal : prevLexeme = 61 ↔ piece.lexeme.IsEqual)
    (white : (∀ gap ∈ piece.gaps, gap.isWhite = true) → prevGaps = prevLexeme)
    (stays : prevGaps = 61 → prevLexeme = 61) :
    Stands (before ++ piece.bytes) prevGaps pieces tail where
  name := by
    intro sigil
    by_cases none : piece.gaps = []
    · have isOpen : piece.lexeme.Open := by
        apply Lexeme.open_of_last
        have nonempty : piece.lexeme.bytes ≠ [] := by
          cases piece.lexeme <;> simp [Lexeme.bytes]
        rw [Piece.bytes, none, List.flatMap_nil, List.append_nil,
          List.getLast?_append_of_ne_nil _ nonempty] at sigil
        exact sigil
      have ends := reads.1 isOpen
      rw [none] at ends
      exact ends
    · rw [Piece.bytes, ← List.append_assoc, gaps_last none] at sigil
      cases sigil
  regexp := by
    intro next head isRegexp
    have allWhite : ∀ gap ∈ piece.gaps, gap.isWhite = true := by
      intro gap member
      by_contra comment
      exact notCommented (.inl ⟨next, head, isRegexp, gap, member,
        by simpa using comment⟩)
    have starts := (reads.2.2.1 next head).1 isRegexp
    rcases (startsRegexp_iff _).mp starts with isEqual | ⟨word, _⟩
    · rw [white allWhite, regexMayStart, equal.mpr isEqual]
      rfl
    · have suffix := matches_before (white_bytes allWhite) before
      rw [← word] at suffix
      rw [regexMayStart, Piece.bytes, ← List.append_assoc, ← word, suffix,
        Bool.or_true]
  divide := by
    intro next head isDivide isEqual
    have notStarts := (reads.2.2.1 next head).2 isDivide
    exact notStarts ((startsRegexp_iff _).mpr (.inl (equal.mp (stays isEqual))))

theorem refuses_pieces {pieces : List Piece} {comment : Option Bytes}
    (oneLine : ∀ body ∈ comment, ∀ b ∈ body, b ≠ 10) (fits : ¬ g.Exceeds)
    (reads : Reads (lastComment comment) pieces)
    (stands : Stands before g.prev pieces (lastComment comment))
    (notCommented : ¬ Commented pieces) (notMatching : ¬ Matching before pieces)
    (notNumbered : ∀ piece ∈ pieces, ¬ piece.lexeme.Numbered) :
    Refuses (run before (pieces.flatMap Piece.bytes ++ lastComment comment) g) ↔
      ∃ read, read <+: pieces.map Piece.lexeme ∧
        (read.foldl Lexeme.count g.toCount).Exceeds := by
  induction pieces generalizing before g with
  | nil =>
      constructor
      · intro refused
        exact absurd refused (not_refuses_lastComment oneLine fits)
      · rintro ⟨read, starts, exceeds⟩
        rw [List.prefix_nil.mp starts] at exceeds
        exact absurd exceeds fits
  | cons piece pieces ih =>
      have fine := stands.fine reads notMatching
        (notNumbered piece List.mem_cons_self)
      obtain ⟨prevLexeme, first, equal⟩ := refuses_lexeme piece.lexeme fits fine
      rw [List.map_cons, exists_prefix_cons, or_iff_right fits,
        List.flatMap_cons, Piece.bytes, List.append_assoc, List.append_assoc, first]
      by_cases exceeds : (piece.lexeme.count g.toCount).Exceeds
      · exact ⟨fun _ => ⟨[], List.nil_prefix, exceeds⟩, fun _ => .inl exceeds⟩
      rw [or_iff_right exceeds]
      obtain ⟨prevGaps, gaps, white, stays⟩ :=
        @refuses_gaps (before ++ piece.lexeme.bytes)
          (pieces.flatMap Piece.bytes ++ lastComment comment)
          ⟨piece.lexeme.count g.toCount, prevLexeme⟩ piece.gaps exceeds
      rw [gaps, List.append_assoc]
      exact @ih (before ++ piece.bytes) ⟨piece.lexeme.count g.toCount, prevGaps⟩
        exceeds reads.2.2.2 (.next reads notCommented equal white stays)
        (fun later => notCommented (.inr later))
        (fun later => notMatching (.inr later))
        (fun next member => notNumbered next (List.mem_cons_of_mem _ member))

theorem refuses_iff_tooDeep {source : Source} (plain : source.Of ⟨false, false, false⟩) :
    Refuses (checkParenDepth source.bytes) ↔ TooDeep source.lexemes := by
  have fits : ¬ Count.start.Exceeds := by decide
  obtain ⟨prev, gaps, _, stays⟩ :=
    @refuses_gaps [] (source.pieces.flatMap Piece.bytes ++
      lastComment source.comment) ⟨.start, 0⟩ source.lead fits
  have stands : Stands (source.lead.flatMap Gap.bytes) prev source.pieces
      (lastComment source.comment) := by
    refine ⟨?_, ?_, ?_⟩
    · intro sigil
      by_cases none : source.lead = []
      · rw [none] at sigil
        cases sigil
      · have last := gaps_last none []
        rw [List.nil_append, sigil] at last
        cases last
    · intro piece head isRegexp
      rw [source.first piece head] at isRegexp
      cases isRegexp
    · intro _ _ _ equal
      exact absurd (stays equal) (by decide)
  change Refuses (run [] source.bytes ⟨.start, 0⟩) ↔ _
  rw [Source.bytes, gaps]
  exact @refuses_pieces _ ⟨.start, prev⟩ _ _ source.oneLine fits source.reads stands
    (fun commented => Bool.noConfusion (plain.commented commented))
    (fun matching => Bool.noConfusion (plain.matching matching))
    (fun piece member numbered => Bool.noConfusion
      (plain.numbered ⟨piece.lexeme, List.mem_map_of_mem member, numbered⟩))

/-! ## What can be hidden -/

/-- Groups opened one in another, one more than the guard admits. -/
def nested (b : UInt8) (opens : b = 40 ∨ b = 91) : List Piece :=
  List.replicate 11 ⟨.opening b opens, []⟩

theorem reads_nested (b : UInt8) (opens : b = 40 ∨ b = 91) :
    Reads [] (nested b opens) := by
  simp [nested, List.replicate, Reads, Lexeme.Open, Lexeme.isRegexp]

theorem ends_before {bytes : Bytes} {c : UInt8} (head : bytes.head? = some c)
    (dark : isWordByte c = false) : ∀ b ∈ bytes.head?, isWordByte b = false := by
  intro b member
  rw [head] at member
  rw [← Option.some.inj member]
  exact dark

theorem quote_notComment : RegexPart.char (.byte 34) ≠ .char (.byte 42) := by
  decide

/-- `=`, a comment, a regular expression that holds a quote, and what nests too
deep after it. -/
def commentedSource : Source where
  lead := []
  pieces := ⟨.operator 61 (by decide), [.block [] (by decide)]⟩ ::
    ⟨.regexp (.char (.byte 34)) [] quote_notComment (by decide), []⟩ ::
    nested 40 (.inl rfl)
  comment := none
  reads := by
    refine ⟨fun _ => ends_before (c := 47) rfl (by decide), by simp,
      by simp [Lexeme.StartsRegexp], ?_⟩
    refine ⟨False.elim, by simp, ?_, reads_nested 40 (.inl rfl)⟩
    simp [nested, List.replicate, Lexeme.isRegexp]
  first := by simp [Lexeme.isRegexp]
  oneLine := by simp

/-- A division of a name that ends in `matches`. -/
def matchingSource : Source where
  lead := []
  pieces := ⟨.word 97 (ascii "matches") (by decide) (by decide), []⟩ ::
    ⟨.divide, []⟩ :: nested 40 (.inl rfl)
  comment := none
  reads := by
    refine ⟨fun _ => ends_before (c := 47) rfl (by decide), by simp, ?_, ?_⟩
    · simp [Lexeme.isRegexp, Lexeme.StartsRegexp, ascii]
    have opensNothing : (some 40 : Option UInt8) ≠ some 42 ∧
        (some 40 : Option UInt8) ≠ some 47 := by decide
    refine ⟨False.elim, fun _ => opensNothing, ?_, reads_nested 40 (.inl rfl)⟩
    simp [nested, List.replicate, Lexeme.isRegexp]
  first := by simp [Lexeme.isRegexp]
  oneLine := by simp

/-- In a condition, the count of the string `$1rule`. -/
def numberedSource : Source where
  lead := []
  pieces := ⟨.word 99 (ascii "ondition") (by decide) (by decide),
      [.white 32 (by decide)]⟩ ::
    ⟨.named 35 (ascii "1rule") (by decide) (by decide), []⟩ ::
    nested 91 (.inr rfl)
  comment := none
  reads := by
    refine ⟨fun _ => ends_before (c := 32) rfl (by decide), by simp,
      by simp [Lexeme.isRegexp], ?_⟩
    refine ⟨fun _ => ends_before (c := 91) rfl (by decide), by simp, ?_,
      reads_nested 91 (.inr rfl)⟩
    simp [nested, List.replicate, Lexeme.isRegexp]
  first := by simp [Lexeme.isRegexp]
  oneLine := by simp

/-- The guard is not right about a source: what nests too deep in it is hidden. -/
def Hides (source : Source) : Prop :=
  ¬ (Refuses (checkParenDepth source.bytes) ↔ TooDeep source.lexemes)

theorem hides_of {source : Source} (passes : checkParenDepth source.bytes = .ok ())
    (deep : (source.lexemes.foldl Lexeme.count .start).Exceeds) : Hides source := by
  intro right
  obtain ⟨e, refused⟩ := right.mpr ⟨_, List.prefix_rfl, deep⟩
  rw [passes] at refused
  cases refused

theorem hides_commentedSource : Hides commentedSource :=
  hides_of (by decide) (by decide)

theorem hides_matchingSource : Hides matchingSource :=
  hides_of (by decide) (by decide)

theorem hides_numberedSource : Hides numberedSource :=
  hides_of (by decide) (by decide)

section

variable {p q : Piece} {before : Bytes} {b : UInt8} {opens : b = 40 ∨ b = 91}

theorem not_commented_nested (plain : q.lexeme.isRegexp = false) :
    ¬ Commented (p :: q :: nested b opens) := by
  have other : (Lexeme.opening b opens).isRegexp = false := rfl
  simp [nested, List.replicate, Commented, plain, other]

theorem not_matching_nested (first : p.lexeme ≠ .divide)
    (second : q.lexeme ≠ .divide) : ¬ Matching before (p :: q :: nested b opens) := by
  simp [nested, List.replicate, Matching, first, second]

theorem not_numbered_nested (first : ¬ p.lexeme.Numbered)
    (second : ¬ q.lexeme.Numbered) :
    ¬ ∃ l ∈ (p :: q :: nested b opens).map Piece.lexeme, l.Numbered := by
  have other : ¬ (Lexeme.opening b opens).Numbered := id
  simp [nested, first, second, other]

end

variable {kinds : Kinds}

theorem commentedSource_of (commented : kinds.commented = true) :
    commentedSource.Of kinds where
  commented _ := commented
  matching found := absurd found (not_matching_nested nofun nofun)
  numbered found := absurd found (not_numbered_nested id id)

theorem matchingSource_of (matching : kinds.matching = true) :
    matchingSource.Of kinds where
  commented found := absurd found (not_commented_nested rfl)
  matching _ := matching
  numbered found := absurd found (not_numbered_nested id id)

theorem numberedSource_of (numbered : kinds.numbered = true) :
    numberedSource.Of kinds where
  commented found := absurd found (not_commented_nested rfl)
  matching found := absurd found (not_matching_nested nofun nofun)
  numbered _ := numbered

end Exav.Yara
