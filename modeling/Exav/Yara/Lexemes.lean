import Mathlib.Data.List.DropRight
import Exav.Script.Lexer
import Exav.Lib.Literal

/-!
# The guard before the parser

The parser of rules recurses on parentheses and on chains of operators, so a
source is refused before it is parsed when it nests or chains too much.  The
guard reads the source byte by byte and skips what stands in strings, comments
and regular expressions.
-/

namespace Exav.Yara

open Script (ascii isAlpha isDigit)

def maxParenDepth : Nat := 10

def maxOpChain : Nat := 256

/-- Words of a condition that are operators. -/
def opWords : List Bytes :=
  ["not", "defined", "contains", "icontains", "startswith", "istartswith",
    "endswith", "iendswith", "iequals", "matches"].map ascii

def isAsciiWhitespace (b : UInt8) : Bool :=
  b = 32 || b = 9 || b = 10 || b = 12 || b = 13

def isWordByte (b : UInt8) : Bool :=
  isAlpha b || isDigit b || b = 95

def startsWord (b : UInt8) : Bool :=
  isAlpha b || b = 95

def isOperator (b : UInt8) : Bool :=
  [60, 62, 61, 33, 45, 43, 42, 37, 38, 124, 94, 126].contains b

/-- The bytes before the name of a string. -/
def isSigil (b : UInt8) : Bool :=
  b = 36 || b = 35 || b = 64 || b = 33

/-! ## What is counted -/

/-- How many operators are chained, and for each open group, innermost first,
how many were when it was opened. -/
structure Count where
  opened : List Nat
  ops : Nat
  inCondition : Bool

namespace Count

def start : Count := ⟨[], 0, false⟩

/-- The chain that a group goes back to. -/
def chain (k : Count) : Nat :=
  k.opened.head?.getD 0

def opening (b : UInt8) (k : Count) : Count :=
  if b = 40 ∨ k.inCondition then { k with opened := k.ops :: k.opened } else k

/-- The group is one operand of the chain it sits in. -/
def closing (b : UInt8) (k : Count) : Count :=
  if b = 41 ∨ k.inCondition then
    { k with
      opened := k.opened.tail
      ops := if k.inCondition then (k.opened.head?.map (· + 1)).getD k.ops
        else k.ops }
  else k

def comma (k : Count) : Count :=
  { k with ops := k.chain }

def operator (k : Count) : Count :=
  if k.inCondition then { k with ops := k.ops + 1 } else k

def word (word : Bytes) (k : Count) : Count :=
  if word = ascii "rule" then { k with inCondition := false }
  else if word = ascii "condition" then { k with inCondition := true, ops := 0 }
  else if k.inCondition ∧ (word = ascii "and" ∨ word = ascii "or") then
    { k with ops := k.chain }
  else if k.inCondition ∧ word ∈ opWords then { k with ops := k.ops + 1 }
  else k

end Count

/-! ## The guard -/

/-- What is counted, and the last byte that was not whitespace. -/
structure Guard extends Count where
  prev : UInt8

/-- Bytes up to the end of a string, its closing quote included. -/
def stringRest : Bytes → Nat
  | [] => 0
  | [_] => 1
  | b :: c :: bytes =>
      if b = 34 then 1
      else if b = 92 then 2 + stringRest bytes
      else 1 + stringRest (c :: bytes)

def lineRest (bytes : Bytes) : Nat :=
  bytes.findIdx (· = 10) + 1

def blockRest : Bytes → Nat
  | [] => 0
  | [_] => 1
  | b :: c :: bytes =>
      if b = 42 ∧ c = 47 then 2 else 1 + blockRest (c :: bytes)

/-- Bytes up to the end of a regular expression. -/
def regexRest (inClass : Bool) : Bytes → Nat
  | [] => 0
  | [_] => 1
  | b :: c :: bytes =>
      if !inClass ∧ b = 47 then 1
      else if b = 92 then 2 + regexRest inClass bytes
      else
        1 + regexRest (if b = 91 then true else if b = 93 then false else inClass)
          (c :: bytes)

/-- A regular expression follows `=` or `matches`. -/
def regexMayStart (before : Bytes) (prev : UInt8) : Bool :=
  prev = 61 ||
    (ascii "matches").isSuffixOf (before.rdropWhile isAsciiWhitespace)

/-- What is counted at the byte `c`, and how many of the bytes after it are
skipped.  An operator of a condition can be a slash. -/
def countAt (before : Bytes) (c : UInt8) (rest : Bytes) (g : Guard) :
    Except String (Nat × Count) :=
  if c = 34 then .ok (stringRest rest, g.toCount)
  else if c = 47 ∧ rest.head? = some 47 then .ok (lineRest rest, g.toCount)
  else if c = 47 ∧ rest.head? = some 42 then
    .ok (1 + blockRest rest.tail, g.toCount)
  else if c = 47 ∧ regexMayStart before g.prev then
    .ok (regexRest false rest, g.toCount)
  else if c = 40 ∨ c = 91 then
    let k := g.opening c
    if k.opened.length > maxParenDepth ∧ (c = 40 ∨ g.inCondition) then
      .error "parentheses nested more than 10 deep"
    else .ok (0, k)
  else if c = 41 ∨ c = 93 then .ok (0, g.closing c)
  else if c = 44 then .ok (0, g.comma)
  else if startsWord c then
    let tail := rest.takeWhile isWordByte
    if before.getLast?.any isSigil then .ok (tail.length, g.toCount)
    else .ok (tail.length, g.word (c :: tail))
  else if isOperator c || c = 47 then .ok (0, g.operator)
  else .ok (0, g.toCount)

def checkFrom : (rounds : Nat) → (before rest : Bytes) → Guard →
    Except String Unit
  | 0, _, _, _ => .ok ()
  | _, _, [], _ => .ok ()
  | rounds + 1, before, c :: rest, g => do
      let (skipped, k) ← countAt before c rest g
      if k.ops > maxOpChain then
        .error "more than 256 operators chained in one expression"
      else
        checkFrom rounds (before ++ c :: rest.take skipped) (rest.drop skipped)
          ⟨k, if isAsciiWhitespace c then g.prev else c⟩

/-- Refuse a source nested too deep or with too many chained operators. -/
def checkParenDepth (src : Bytes) : Except String Unit :=
  checkFrom src.length [] src ⟨.start, 0⟩

/-!
## The text of rules

A source of rules is a run of lexemes with blanks after each.  What it nests and
chains is counted lexeme by lexeme: strings, regular expressions and comments
count for nothing.
-/

open Script (ascii isDigit)

/-! ## Lexemes -/

/-- A byte that stands for nothing the guard knows. -/
def isOther (b : UInt8) : Bool :=
  !isAsciiWhitespace b && !isWordByte b && !isOperator b && !isSigil b &&
    !([34, 47, 40, 41, 91, 93, 44] : List UInt8).contains b

inductive Lexeme where
  | word (first : UInt8) (rest : Bytes) (starts : startsWord first)
      (isWord : ∀ b ∈ rest, isWordByte b)
  | named (sigil : UInt8) (name : Bytes) (isSigil : isSigil sigil)
      (isWord : ∀ b ∈ name, isWordByte b)
  | digit (b : UInt8) (isDigit : isDigit b)
  | operator (b : UInt8) (isOperator : isOperator b)
  | divide
  | opening (b : UInt8) (isOpening : b = 40 ∨ b = 91)
  | closing (b : UInt8) (isClosing : b = 41 ∨ b = 93)
  | comma
  | other (b : UInt8) (isOther : isOther b)
  | string (body : List Char8) (closes : ∀ c ∈ body, c.Before 34)
  | regexp (first : RegexPart) (rest : List RegexPart)
      (notComment : first ≠ .char (.byte 42))
      (closes : ∀ part ∈ first :: rest, part.WellFormed)

namespace Lexeme

def bytes : Lexeme → Bytes
  | word first rest _ _ => first :: rest
  | named sigil name _ _ => sigil :: name
  | digit b _ | operator b _ | opening b _ | closing b _ | other b _ => [b]
  | divide => [47]
  | comma => [44]
  | string body _ => 34 :: body.flatMap Char8.bytes ++ [34]
  | regexp first rest _ _ =>
      47 :: (first :: rest).flatMap RegexPart.bytes ++ [47]

/-- The lexeme would go on with a letter or a digit. -/
def Open : Lexeme → Prop
  | word .. | named .. => True
  | operator b _ => isSigil b = true
  | _ => False

def isRegexp : Lexeme → Bool
  | regexp .. => true
  | _ => false

/-- A slash after the lexeme starts a regular expression. -/
def StartsRegexp : Lexeme → Prop
  | word first rest _ _ => first :: rest = ascii "matches"
  | operator b _ => b = 61
  | _ => False

def count (k : Count) : Lexeme → Count
  | word first rest _ _ => k.word (first :: rest)
  | named sigil _ _ _ => if isOperator sigil then k.operator else k
  | operator _ _ | divide => k.operator
  | opening b _ => k.opening b
  | closing b _ => k.closing b
  | comma => k.comma
  | digit .. | other .. | string .. | regexp .. => k

end Lexeme

/-- Deeper than the guard admits, or more chained. -/
def Count.Exceeds (k : Count) : Prop :=
  k.opened.length > maxParenDepth ∨ k.ops > maxOpChain

instance (k : Count) : Decidable k.Exceeds :=
  inferInstanceAs (Decidable (_ ∨ _))

def TooDeep (lexemes : List Lexeme) : Prop :=
  ∃ read, read <+: lexemes ∧ (read.foldl Lexeme.count .start).Exceeds

/-! ## Blanks -/

inductive Gap where
  | white (b : UInt8) (isWhite : isAsciiWhitespace b)
  | block (body : Bytes) (opened : ¬ [42, 47] <:+: body)
  | line (body : Bytes) (oneLine : ∀ b ∈ body, b ≠ 10)

def Gap.bytes : Gap → Bytes
  | white b _ => [b]
  | block body _ => [47, 42] ++ body ++ [42, 47]
  | line body _ => [47, 47] ++ body ++ [10]

def Gap.isWhite : Gap → Bool
  | white .. => true
  | _ => false

/-! ## Sources -/

/-- A lexeme and the blanks after it. -/
structure Piece where
  lexeme : Lexeme
  gaps : List Gap

def Piece.bytes (piece : Piece) : Bytes :=
  piece.lexeme.bytes ++ piece.gaps.flatMap Gap.bytes

/-- The bytes are read as these lexemes: names and words end, a division opens
no comment, and regular expressions are where a slash starts one. -/
def Reads (tail : Bytes) : List Piece → Prop
  | [] => True
  | piece :: pieces =>
      let after := piece.gaps.flatMap Gap.bytes ++
        (pieces.flatMap Piece.bytes ++ tail)
      (piece.lexeme.Open → ∀ b ∈ after.head?, isWordByte b = false) ∧
      (piece.lexeme = .divide → after.head? ≠ some 42 ∧ after.head? ≠ some 47) ∧
      (∀ next ∈ pieces.head?,
        (next.lexeme.isRegexp = true → piece.lexeme.StartsRegexp) ∧
        (next.lexeme = .divide → ¬ piece.lexeme.StartsRegexp)) ∧
      Reads tail pieces

/-- A line comment that the end of the source ends. -/
def lastComment (comment : Option Bytes) : Bytes :=
  (comment.map ([47, 47] ++ ·)).getD []

structure Source where
  lead : List Gap
  pieces : List Piece
  comment : Option Bytes
  reads : Reads (lastComment comment) pieces
  first : ∀ piece ∈ pieces.head?, piece.lexeme.isRegexp = false
  oneLine : ∀ body ∈ comment, ∀ b ∈ body, b ≠ 10

namespace Source

def bytes (source : Source) : Bytes :=
  source.lead.flatMap Gap.bytes ++
    (source.pieces.flatMap Piece.bytes ++ lastComment source.comment)

def lexemes (source : Source) : List Lexeme :=
  source.pieces.map Piece.lexeme

end Source

/-! ## Kinds of sources -/

/-- What a source may hold: a comment between `=` or `matches` and a regular
expression, a division after text that ends in `matches`, and the name of a
string in which a word of the language stands after digits. -/
structure Kinds where
  commented : Bool
  matching : Bool
  numbered : Bool

/-- The words that the guard knows. -/
def keywords : List Bytes :=
  ["rule", "condition", "and", "or"].map ascii ++ opWords

def Commented : List Piece → Prop
  | [] => False
  | piece :: pieces =>
      (∃ next ∈ pieces.head?, next.lexeme.isRegexp = true ∧
        ∃ gap ∈ piece.gaps, gap.isWhite = false) ∨
      Commented pieces

def Matching (before : Bytes) : List Piece → Prop
  | [] => False
  | piece :: pieces =>
      (piece.lexeme = .divide ∧
        ascii "matches" <:+ before.rdropWhile isAsciiWhitespace) ∨
      Matching (before ++ piece.bytes) pieces

def Lexeme.Numbered : Lexeme → Prop
  | named _ name _ _ =>
      (∃ b ∈ name.head?, isDigit b = true) ∧ name.dropWhile isDigit ∈ keywords
  | _ => False

structure Source.Of (kinds : Kinds) (source : Source) : Prop where
  commented : Commented source.pieces → kinds.commented = true
  matching : Matching (source.lead.flatMap Gap.bytes) source.pieces →
    kinds.matching = true
  numbered : (∃ l ∈ source.lexemes, l.Numbered) → kinds.numbered = true

end Exav.Yara
