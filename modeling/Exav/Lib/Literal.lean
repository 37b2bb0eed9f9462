import Exav.Bytes

/-!
# Literals with escapes

A literal is written as characters up to a closing byte.  A backslash takes the
byte after it along, and in a regexp a class is left only by its own bracket.
-/

namespace Exav

/-- A character of a literal: a byte, or a backslash and the byte after it. -/
inductive Char8 where
  | byte (b : UInt8)
  | escape (b : UInt8)
  deriving DecidableEq

def Char8.bytes : Char8 → Bytes
  | byte b => [b]
  | escape b => [92, b]

/-- A character that does not close what `stop` closes. -/
def Char8.Before (stop : UInt8) : Char8 → Prop
  | byte b => b ≠ stop ∧ b ≠ 92
  | escape _ => True

instance (stop : UInt8) (c : Char8) : Decidable (c.Before stop) := by
  cases c <;> unfold Char8.Before <;> infer_instance

/-- A part of a regexp literal: a character, or a class, in which a slash does
not end the literal. -/
inductive RegexPart where
  | char (c : Char8)
  | cls (chars : List Char8)
  deriving DecidableEq

def RegexPart.bytes : RegexPart → Bytes
  | char c => c.bytes
  | cls chars => [91] ++ chars.flatMap Char8.bytes ++ [93]

def RegexPart.WellFormed : RegexPart → Prop
  | char c => c.Before 47 ∧ c ≠ .byte 91
  | cls chars => ∀ c ∈ chars, c.Before 93

instance (part : RegexPart) : Decidable part.WellFormed := by
  cases part <;> unfold RegexPart.WellFormed <;> infer_instance

end Exav
