import Exav.Bytes

/-!
# The text of a script

A script is read byte by byte, from memory or from a source through a window
that slides over it.  White space and block comments are scanned over.
-/

namespace Exav.Script

/-! ## Text -/

/-- An object read a stretch at a time. -/
structure Source where
  len : Nat
  window : (off len : Nat) → Bytes

def chunk : Nat := 1024 * 1024

/-- Bytes kept before a chunk's start. -/
def behind : Nat := 128

/-- Text a lexer reads: in memory, or from a source with what was read last of
it and where that starts. -/
inductive Text where
  | mem (data : Bytes)
  | source (src : Source) (buf : Bytes) (base : Nat)

namespace Text

def len : Text → Nat
  | mem data => data.length
  | source src _ _ => src.len

/-- The byte at `i`. -/
def byte (i : Nat) : StateM Text UInt8 := do
  match ← get with
  | mem data => pure (data[i]?.getD 0)
  | source src buf base =>
      if i < base ∨ i - base ≥ buf.length then
        let base := i - behind
        let buf := src.window base (chunk + behind)
        set (source src buf base)
        pure (buf[i - base]?.getD 0)
      else pure (buf[i - base]?.getD 0)

/-- The bytes from `first` to `stop`, clamped to the object. -/
def range (first stop : Nat) : StateM Text Bytes := do
  match ← get with
  | mem data =>
      let stop := min stop data.length
      let first := min first stop
      pure (Exav.window data first (stop - first))
  | source src buf base =>
      let stop := min stop src.len
      let first := min first stop
      if first ≥ base ∧ stop - base ≤ buf.length then
        pure (Exav.window buf (first - base) (stop - first))
      else pure (src.window first (stop - first))

end Text

/-! ## Bytes and code points -/

def ascii (s : String) : Bytes :=
  s.toList.map fun c => UInt8.ofNat c.toNat

def isDigit (b : UInt8) : Bool :=
  48 ≤ b && b ≤ 57

def isAlpha (b : UInt8) : Bool :=
  65 ≤ b && b ≤ 90 || 97 ≤ b && b ≤ 122

def toDigit (radix : Nat) (b : UInt8) : Option Nat :=
  let value :=
    if isDigit b then some (b.toNat - 48)
    else if 97 ≤ b ∧ b ≤ 102 then some (b.toNat - 87)
    else if 65 ≤ b ∧ b ≤ 70 then some (b.toNat - 55)
    else none
  value.filter (· < radix)

/-! ## Literals -/

/-- Past the bytes from `i` that pass a test. -/
def skipWhile (n : Nat) (test : UInt8 → Bool) :
    (rounds i : Nat) → StateM Text Nat
  | 0, i => pure i
  | rounds + 1, i =>
      if i < n then do
        let b ← Text.byte i
        if test b then skipWhile n test rounds (i + 1) else pure i
      else pure i

/-- Whether `b` is at `i`, before the end `n`. -/
def isAt (n i : Nat) (b : UInt8) : StateM Text Bool :=
  if i < n then do pure ((← Text.byte i) = b) else pure false

/-- Past a block comment whose opening ends at `i`. -/
def blockCommentEnd (n : Nat) : (rounds i : Nat) → StateM Text Nat
  | 0, i => pure (min (i + 2) n)
  | rounds + 1, i =>
      if i + 1 < n then do
        if (← Text.byte i) = 42 ∧ (← Text.byte (i + 1)) = 47 then
          pure (min (i + 2) n)
        else blockCommentEnd n rounds (i + 1)
      else pure (min (i + 2) n)

end Exav.Script
