import Exav.Bytes

/-!
# Text

The characters of a byte string.  A strict reading fails at the first part that
is not UTF-8, a lossy one puts the replacement character there.
-/

namespace Exav

def between (low high b : UInt8) : Bool :=
  low ≤ b && b ≤ high

/-- How many bytes follow a first byte, what the second may be, and the bits
the first one gives. -/
def utf8Lead (b : UInt8) : Option (Nat × UInt8 × UInt8 × Nat) :=
  if between 0xC2 0xDF b then some (1, 0x80, 0xBF, b.toNat % 32)
  else if b = 0xE0 then some (2, 0xA0, 0xBF, 0)
  else if b = 0xED then some (2, 0x80, 0x9F, 13)
  else if between 0xE1 0xEF b then some (2, 0x80, 0xBF, b.toNat % 16)
  else if b = 0xF0 then some (3, 0x90, 0xBF, 0)
  else if between 0xF1 0xF3 b then some (3, 0x80, 0xBF, b.toNat % 8)
  else if b = 0xF4 then some (3, 0x80, 0x8F, 4)
  else none

/-- The character bytes start with, or none for an invalid part, and how many
bytes it takes. -/
def utf8Step (b : UInt8) (bytes : Bytes) : Option Char × Nat :=
  if b < 0x80 then (some (Char.ofNat b.toNat), 1)
  else
    match utf8Lead b with
    | none => (none, 1)
    | some (more, low, high, bits) =>
        let valid := match bytes with
          | [] => []
          | second :: rest =>
              if between low high second then
                second :: (rest.take (more - 1)).takeWhile (between 0x80 0xBF)
              else []
        if valid.length = more then
          (some (Char.ofNat (valid.foldl (fun n b => n * 64 + b.toNat % 64)
            bits)), more + 1)
        else (none, valid.length + 1)

/-- The characters of some bytes, with none for each invalid part. -/
def utf8Chars : (rounds : Nat) → Bytes → List (Option Char)
  | 0, _ => []
  | _, [] => []
  | rounds + 1, b :: bytes =>
      let (c, taken) := utf8Step b bytes
      c :: utf8Chars rounds (bytes.drop (taken - 1))

def fromUtf8 (bytes : Bytes) : Option (List Char) :=
  (utf8Chars bytes.length bytes).mapM id

def fromUtf8Lossy (bytes : Bytes) : String :=
  String.ofList ((utf8Chars bytes.length bytes).map (·.getD '\uFFFD'))

/-- UTF-16 as text, with what is no character replaced. -/
def fromUtf16Lossy : List Nat → List Char
  | [] => []
  | u :: units =>
      if u < 0xD800 ∨ 0xE000 ≤ u then Char.ofNat u :: fromUtf16Lossy units
      else if u < 0xDC00 then
        match units with
        | [] => [Char.ofNat 0xFFFD]
        | w :: others =>
            if 0xDC00 ≤ w ∧ w < 0xE000 then
              Char.ofNat (0x10000 + (u - 0xD800) * 0x400 + (w - 0xDC00)) ::
                fromUtf16Lossy others
            else Char.ofNat 0xFFFD :: fromUtf16Lossy (w :: others)
      else Char.ofNat 0xFFFD :: fromUtf16Lossy units

end Exav
