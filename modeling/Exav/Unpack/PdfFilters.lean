import Exav.Bytes
import Exav.Lib.Capped

/-!
# PDF stream filters

The decoders of a PDF stream other than Flate.  Each stops at the first byte
past a cap, and leaves what it has decoded where its input is malformed.
-/

set_option maxRecDepth 8192

namespace Exav.Unpack.PdfFilters

/-- What is decoded, and whether it was cut off. -/
abbrev Decoded := Bytes × Bool

/-- Stop once there is more than the cap, or go on. -/
abbrev pushCapped (cap : Nat) (out : Bytes) (next : Bytes → Decoded) : Decoded :=
  Capped.push cap out next

/-! ## Hex -/

def nibble (b : UInt8) : Option UInt8 :=
  if 48 ≤ b ∧ b ≤ 57 then some (b - 48)
  else if 97 ≤ b ∧ b ≤ 102 then some (b - 97 + 10)
  else if 65 ≤ b ∧ b ≤ 70 then some (b - 65 + 10)
  else none

/-- A digit that is left over is the high one of a byte. -/
def finishHex (cap : Nat) (hi : Option UInt8) (out : Bytes) : Decoded :=
  match hi with
  | none => (out, false)
  | some h => pushCapped cap (out ++ [h <<< 4]) fun out => (out, false)

def asciiHexFrom (cap : Nat) : Option UInt8 → Bytes → Bytes → Decoded
  | hi, out, [] => finishHex cap hi out
  | hi, out, b :: data =>
      if b = 0x3E then finishHex cap hi out
      else
        match nibble b with
        -- White space and anything else is passed over.
        | none => asciiHexFrom cap hi out data
        | some n =>
            match hi with
            | none => asciiHexFrom cap (some n) out data
            | some h =>
                pushCapped cap (out ++ [(h <<< 4) ||| n]) fun out =>
                  asciiHexFrom cap none out data

def asciiHexDecode (data : Bytes) (cap : Nat) : Decoded :=
  asciiHexFrom cap none [] data

/-! ## Base 85 -/

def isSpace (b : UInt8) : Bool :=
  b == 0x20 || b == 0x09 || b == 0x0D || b == 0x0A || b == 0x0C || b == 0

/-- Skip a leading `<~`, which white space may stand before. -/
def skipFrame (data : Bytes) : Bytes :=
  match data.dropWhile isSpace with
  | 0x3C :: 0x7E :: rest => rest
  | _ => data

def groupValue (group : List UInt8) : UInt32 :=
  group.foldl (fun val g => val * 85 + g.toUInt32) 0

def toBeBytes (val : UInt32) : Bytes :=
  [(val >>> 24).toUInt8, (val >>> 16).toUInt8, (val >>> 8).toUInt8, val.toUInt8]

/-- A last group of two digits at least is padded, and gives a byte less. -/
def finish85 (cap : Nat) (group : List UInt8) (out : Bytes) : Decoded :=
  if group.length ≥ 2 then
    let padded := group ++ List.replicate (5 - group.length) 84
    let bytes := toBeBytes (groupValue padded)
    pushCapped cap (out ++ bytes.take (group.length - 1)) fun out => (out, false)
  else (out, false)

def ascii85From (cap : Nat) : List UInt8 → Bytes → Bytes → Decoded
  | group, out, [] => finish85 cap group out
  | group, out, b :: data =>
      if b = 0x7E then
        if data.head? = some 0x3E then finish85 cap group out
        else ascii85From cap group out data
      else if b = 0x7A ∧ group = [] then
        pushCapped cap (out ++ [0, 0, 0, 0]) fun out =>
          ascii85From cap [] out data
      else if 0x21 ≤ b ∧ b ≤ 0x75 then
        let group := group ++ [b - 0x21]
        if group.length = 5 then
          pushCapped cap (out ++ toBeBytes (groupValue group)) fun out =>
            ascii85From cap [] out data
        else ascii85From cap group out data
      else ascii85From cap group out data

def ascii85Decode (data : Bytes) (cap : Nat) : Decoded :=
  ascii85From cap [] [] (skipFrame data)

/-! ## Run lengths -/

/-- Copy `n` bytes, and go on behind them. -/
def copyRun (cap : Nat) (next : Bytes → Bytes → Decoded) :
    (n : Nat) → Bytes → Bytes → Decoded
  | 0, out, data => next out data
  | _ + 1, out, [] => (out, false)
  | n + 1, out, b :: data =>
      pushCapped cap (out ++ [b]) fun out => copyRun cap next n out data

/-- Repeat a byte `n` times, and go on. -/
def repeatRun (cap : Nat) (b : UInt8) (next : Bytes → Decoded) :
    (n : Nat) → Bytes → Decoded
  | 0, out => next out
  | n + 1, out =>
      pushCapped cap (out ++ [b]) fun out => repeatRun cap b next n out

def repeatNext (cap : Nat) (next : Bytes → Bytes → Decoded) (n : Nat)
    (out : Bytes) : Bytes → Decoded
  | [] => (out, false)
  | b :: data => repeatRun cap b (fun out => next out data) n out

def runLengthFrom (cap : Nat) : (rounds : Nat) → Bytes → Bytes → Decoded
  | 0, out, _ => (out, false)
  | _ + 1, out, [] => (out, false)
  | rounds + 1, out, length :: data =>
      if length = 128 then (out, false)
      else if length < 128 then
        copyRun cap (runLengthFrom cap rounds) (length.toNat + 1) out data
      else
        repeatNext cap (runLengthFrom cap rounds) (257 - length.toNat) out data

def runLengthDecode (data : Bytes) (cap : Nat) : Decoded :=
  runLengthFrom cap (data.length + 1) [] data

/-! ## LZW -/

def clearCode : Nat := 256

def eod : Nat := 257

def maxEntries : Nat := 4096

def bitsOfByte (b : UInt8) : List Bool :=
  (List.range 8).map fun i => (b >>> (7 - UInt8.ofNat i)) &&& 1 == 1

def bitsOf (data : Bytes) : List Bool :=
  data.flatMap bitsOfByte

def codeOf (bits : List Bool) : Nat :=
  bits.foldl (fun code bit => code * 2 + bit.toNat) 0

/-- The table behind a clear: every byte, and no strings for the two codes that
are not data. -/
def reset : List Bytes :=
  (List.range 256).map (fun i => [UInt8.ofNat i]) ++ [[], []]

structure Lzw where
  dict : List Bytes
  codeWidth : Nat
  prev : Option Nat
  out : Bytes

/-- The string of a code that is in the table, or that its own string defines. -/
def entryOf (dict : List Bytes) (prev : Option Nat) (code : Nat) :
    Option (Option Bytes) :=
  if code < dict.length then dict[code]?.map some
  else if code = dict.length then
    match prev with
    | some p =>
        if p < dict.length then
          dict[p]?.map fun e => some (e ++ e.head?.toList)
        else some none
    | none => some none
  else some none

/-- The entry that a string completes.  Its first byte is looked up. -/
def addEntry (dict : List Bytes) (prev : Option Nat) (entry : Bytes) :
    Option (List Bytes) :=
  match prev with
  | some p =>
      if p < dict.length ∧ dict.length < maxEntries then do
        let old ← dict[p]?
        let first ← entry[0]?
        some (dict ++ [old ++ [first]])
      else some dict
  | none => some dict

/-- The width of the next code. -/
def bump (early : Nat) (width : Nat) (dict : List Bytes) : Nat :=
  if width < 12 ∧ dict.length + 1 + early ≥ 2 ^ width then width + 1 else width

/-- The codes of what is left of the bits.  `none` is an index out of bounds. -/
def lzwFrom (early cap : Nat) : (rounds : Nat) → Lzw → List Bool →
    Option Decoded
  | 0, s, _ => some (s.out, false)
  | rounds + 1, s, bits =>
      if bits.length < s.codeWidth then some (s.out, false)
      else
        let code := codeOf (bits.take s.codeWidth)
        let bits := bits.drop s.codeWidth
        if code = eod then some (s.out, false)
        else if code = clearCode then
          lzwFrom early cap rounds ⟨reset, 9, none, s.out⟩ bits
        else
          match entryOf s.dict s.prev code with
          | none => none
          -- Malformed.
          | some none => some (s.out, false)
          | some (some entry) =>
              let out := s.out ++ entry
              if out.length > cap then some (out.take cap, true)
              else
                match addEntry s.dict s.prev entry with
                | none => none
                | some dict =>
                    lzwFrom early cap rounds
                      ⟨dict, bump early s.codeWidth dict, some code, out⟩ bits

/-- Each code takes a bit at least. -/
def lzwDecode (data : Bytes) (earlyChange : Bool) (cap : Nat) : Option Decoded :=
  let bits := bitsOf data
  lzwFrom (if earlyChange then 1 else 0) cap (bits.length + 1)
    ⟨reset, 9, none, []⟩ bits

/-!
## Text filters read back

Whatever is cut off, a filter decodes to what it decodes to without a cap.  Hex
in any case and layout, base 85 with or without its frame and abbreviations, and
run lengths cut in any way decode to the bytes they stand for.
-/

open Exav.Capped

variable {cap : Nat} {out : Bytes}

theorem pushCapped_done (out : Bytes) :
    pushCapped cap out (fun out => (out, false)) = capped cap out := by
  have whole : pushCapped cap out (fun out => (out, false)) =
      capped cap (out ++ []) :=
    push_eq fun within => by
      rw [List.append_nil, capped_of_le within]
  rwa [List.append_nil] at whole

/-! ## Hex -/

/-- Digits in pairs, with a zero for one that is missing. -/
def ofNibbles : List UInt8 → Bytes
  | hi :: lo :: ns => ((hi <<< 4) ||| lo) :: ofNibbles ns
  | [hi] => [hi <<< 4]
  | [] => []

/-- Digits as text, with white space anywhere, and `>` or nothing behind. -/
inductive HexText : List UInt8 → Bytes → Prop where
  | nil : HexText [] []
  | eod (rest : Bytes) : HexText [] (0x3E :: rest)
  | space {ns : List UInt8} {text : Bytes} (b : UInt8) (blank : isSpace b = true)
      (more : HexText ns text) : HexText ns (b :: text)
  | digit {ns : List UInt8} {text : Bytes} (b n : UInt8)
      (digit : nibble b = some n) (more : HexText ns text) :
      HexText (n :: ns) (b :: text)

def nibblesOf (bytes : Bytes) : List UInt8 :=
  bytes.flatMap fun b : UInt8 => [b >>> 4, b &&& 0x0F]

/-- Bytes in hex.  A last digit of zero may be left out. -/
def EncodesHex (bytes text : Bytes) : Prop :=
  ∃ ns, HexText ns text ∧ (ns = nibblesOf bytes ∨ ns ++ [0] = nibblesOf bytes)

theorem nibble_space {b : UInt8} (blank : isSpace b = true) :
    nibble b = none ∧ b ≠ 0x3E := by
  revert b
  apply forall_byte
  decide

theorem nibble_ne_eod {b n : UInt8} (digit : nibble b = some n) : b ≠ 0x3E := by
  rintro rfl
  cases digit

theorem asciiHexFrom_text {ns : List UInt8} {text : Bytes}
    (spelled : HexText ns text) (hi : Option UInt8) (out : Bytes)
    (within : out.length ≤ cap) :
    asciiHexFrom cap hi out text =
      capped cap (out ++ ofNibbles (hi.toList ++ ns)) := by
  have finished : ∀ hi out, out.length ≤ cap → finishHex cap hi out =
      capped cap (out ++ ofNibbles (hi.toList ++ [])) := by
    intro hi out within
    cases hi with
    | none =>
        rw [finishHex, Option.toList_none, List.append_nil, ofNibbles,
          List.append_nil, capped_of_le within]
    | some h => exact pushCapped_done (out ++ [h <<< 4])
  induction spelled generalizing hi out with
  | nil => exact finished hi out within
  | eod rest =>
      rw [asciiHexFrom, if_pos rfl]
      exact finished hi out within
  | space b blank more ih =>
      obtain ⟨skipped, other⟩ := nibble_space blank
      rw [asciiHexFrom, if_neg other, skipped]
      exact ih hi out within
  | @digit ns text b n digit more ih =>
      rw [asciiHexFrom, if_neg (nibble_ne_eod digit), digit]
      cases hi with
      | none => exact ih (some n) out within
      | some h =>
          have split : out ++ ofNibbles ((some h).toList ++ n :: ns) =
              (out ++ [(h <<< 4) ||| n]) ++ ofNibbles ns := by
            rw [List.append_assoc]
            rfl
          rw [split]
          exact push_eq fun room => ih none _ room

theorem length_nibblesOf (bytes : Bytes) :
    (nibblesOf bytes).length = 2 * bytes.length := by
  induction bytes with
  | nil => rfl
  | cons b bytes ih =>
      change (nibblesOf bytes).length + 1 + 1 = 2 * (bytes.length + 1)
      rw [ih]
      omega

theorem ofNibbles_nibblesOf (bytes : Bytes) :
    ofNibbles (nibblesOf bytes) = bytes := by
  induction bytes with
  | nil => rfl
  | cons b bytes ih =>
      have joined : ((b >>> 4) <<< 4) ||| (b &&& 0x0F) = b := by
        revert b
        apply forall_byte
        decide
      change (((b >>> 4) <<< 4) ||| (b &&& 0x0F)) :: ofNibbles (nibblesOf bytes) = _
      rw [joined, ih]

theorem ofNibbles_zero {ns : List UInt8} (odd : ns.length % 2 = 1) :
    ofNibbles (ns ++ [0]) = ofNibbles ns := by
  induction ns using ofNibbles.induct with
  | case1 hi lo ns ih =>
      rw [List.length_cons, List.length_cons] at odd
      rw [List.cons_append, List.cons_append, ofNibbles, ofNibbles,
        ih (by omega)]
  | case2 hi =>
      change [(hi <<< 4) ||| 0] = [hi <<< 4]
      rw [UInt8.or_zero]
  | case3 => cases odd

theorem asciiHexDecode_eq {bytes text : Bytes} (encodes : EncodesHex bytes text)
    (cap : Nat) : asciiHexDecode text cap = capped cap bytes := by
  obtain ⟨ns, spelled, whole⟩ := encodes
  have same : ofNibbles ns = bytes := by
    rcases whole with rfl | whole
    · exact ofNibbles_nibblesOf bytes
    · have even := length_nibblesOf bytes
      rw [← whole, List.length_append, List.length_singleton] at even
      rw [← ofNibbles_zero (by omega), whole, ofNibbles_nibblesOf]
  have decoded := asciiHexFrom_text spelled none [] (Nat.zero_le cap)
  rw [Option.toList_none, List.nil_append, List.nil_append, same] at decoded
  exact decoded

/-! ## Run lengths -/

/-- Bytes in runs that are copied or repeated, and the end marker or nothing
behind. -/
inductive EncodesRuns : Bytes → Bytes → Prop where
  | nil : EncodesRuns [] []
  | eod (rest : Bytes) : EncodesRuns [] (128 :: rest)
  | copied {bytes text : Bytes} (chunk : Bytes) (some : 1 ≤ chunk.length)
      (few : chunk.length ≤ 128) (more : EncodesRuns bytes text) :
      EncodesRuns (chunk ++ bytes)
        (UInt8.ofNat (chunk.length - 1) :: (chunk ++ text))
  | repeated {bytes text : Bytes} (b : UInt8) (n : Nat) (two : 2 ≤ n)
      (few : n ≤ 128) (more : EncodesRuns bytes text) :
      EncodesRuns (List.replicate n b ++ bytes)
        (UInt8.ofNat (257 - n) :: b :: text)

theorem copyRun_eq {next : Bytes → Bytes → Decoded} (chunk text all : Bytes)
    (within : out.length ≤ cap)
    (onwards : ∀ out : Bytes, out.length ≤ cap →
      next out text = capped cap (out ++ all)) :
    copyRun cap next chunk.length out (chunk ++ text) =
      capped cap (out ++ (chunk ++ all)) := by
  induction chunk generalizing out with
  | nil => exact onwards out within
  | cons b chunk ih =>
      have split : out ++ (b :: chunk ++ all) = (out ++ [b]) ++ (chunk ++ all) := by
        rw [List.append_assoc]
        rfl
      have step : copyRun cap next (b :: chunk).length out (b :: chunk ++ text) =
          pushCapped cap (out ++ [b]) fun out =>
            copyRun cap next chunk.length out (chunk ++ text) := rfl
      rw [split, step]
      exact push_eq fun room => ih room

theorem repeatRun_eq {next : Bytes → Decoded} (b : UInt8) (n : Nat) (all : Bytes)
    (within : out.length ≤ cap)
    (onwards : ∀ out : Bytes, out.length ≤ cap →
      next out = capped cap (out ++ all)) :
    repeatRun cap b next n out =
      capped cap (out ++ (List.replicate n b ++ all)) := by
  induction n generalizing out with
  | zero => exact onwards out within
  | succ n ih =>
      have split : out ++ (List.replicate (n + 1) b ++ all) =
          (out ++ [b]) ++ (List.replicate n b ++ all) := by
        rw [List.append_assoc]
        rfl
      rw [split]
      exact push_eq fun room => ih room

theorem runLengthFrom_text {bytes text : Bytes} (encodes : EncodesRuns bytes text)
    {rounds : Nat} (enough : text.length < rounds) (within : out.length ≤ cap) :
    runLengthFrom cap rounds out text = capped cap (out ++ bytes) := by
  have none : (out, false) = capped cap (out ++ []) := by
    rw [List.append_nil, capped_of_le within]
  induction encodes generalizing rounds out with
  | nil =>
      cases rounds with
      | zero => exact none
      | succ rounds => exact none
  | eod rest =>
      cases rounds with
      | zero => exact none
      | succ rounds => rw [runLengthFrom, if_pos rfl, none]
  | @copied bytes text chunk some few more ih =>
      obtain ⟨rounds, rfl⟩ : ∃ r, rounds = r + 1 :=
        Nat.exists_eq_succ_of_ne_zero (by omega)
      have value : (UInt8.ofNat (chunk.length - 1)).toNat = chunk.length - 1 := by
        rw [UInt8.toNat_ofNat']
        omega
      have low : UInt8.ofNat (chunk.length - 1) < 128 := by
        rw [UInt8.lt_iff_toNat_lt, value]
        exact Nat.lt_of_lt_of_le (by omega) (Nat.le_refl 128)
      have data : UInt8.ofNat (chunk.length - 1) ≠ 128 :=
        fun same => absurd (same ▸ low) (by decide)
      have count : chunk.length - 1 + 1 = chunk.length := by omega
      rw [List.length_cons, List.length_append] at enough
      rw [runLengthFrom, if_neg data, if_pos low, value, count]
      apply copyRun_eq chunk text bytes within
      intro out room
      exact ih (by omega) room (by rw [List.append_nil, capped_of_le room])
  | @repeated bytes text b n two few more ih =>
      obtain ⟨rounds, rfl⟩ : ∃ r, rounds = r + 1 :=
        Nat.exists_eq_succ_of_ne_zero (by omega)
      have value : (UInt8.ofNat (257 - n)).toNat = 257 - n := by
        rw [UInt8.toNat_ofNat']
        omega
      have high : ¬ UInt8.ofNat (257 - n) < 128 := by
        rw [UInt8.lt_iff_toNat_lt, value]
        exact Nat.not_lt.mpr (show 128 ≤ 257 - n by omega)
      have data : UInt8.ofNat (257 - n) ≠ 128 := by
        intro same
        have equal := congrArg UInt8.toNat same
        rw [value] at equal
        change 257 - n = 128 at equal
        omega
      have count : 257 - (257 - n) = n := by omega
      rw [List.length_cons, List.length_cons] at enough
      rw [runLengthFrom, if_neg data, if_neg high]
      rw [value, count]
      apply repeatRun_eq b n bytes within
      intro out room
      exact ih (by omega) room (by rw [List.append_nil, capped_of_le room])

theorem runLengthDecode_eq {bytes text : Bytes}
    (encodes : EncodesRuns bytes text) (cap : Nat) :
    runLengthDecode text cap = capped cap bytes :=
  runLengthFrom_text encodes (Nat.lt_succ_self _) (Nat.zero_le cap)

/-!
## Base 85 read back

Four bytes are five digits, or one letter if they are zero; up to three bytes
that are left over are a digit more than they are bytes.
-/

/-! ## Encodings -/

/-- The number of some bytes, the first the highest. -/
def wordOf (bytes : Bytes) : Nat :=
  bytes.foldl (fun n b => n * 256 + b.toNat) 0

/-- The five digits of a number, the highest first. -/
def digits85 (n : Nat) : List UInt8 :=
  [UInt8.ofNat (n / 85 / 85 / 85 / 85 % 85), UInt8.ofNat (n / 85 / 85 / 85 % 85),
    UInt8.ofNat (n / 85 / 85 % 85), UInt8.ofNat (n / 85 % 85),
    UInt8.ofNat (n % 85)]

def char85 (digit : UInt8) : UInt8 := digit + 0x21

inductive Chars85 : Bytes → Bytes → Prop where
  | done : Chars85 [] []
  | zeros {bytes chars : Bytes} (more : Chars85 bytes chars) :
      Chars85 (0 :: 0 :: 0 :: 0 :: bytes) (0x7A :: chars)
  | group {bytes chars : Bytes} (a b c d : UInt8) (more : Chars85 bytes chars) :
      Chars85 (a :: b :: c :: d :: bytes)
        ((digits85 (wordOf [a, b, c, d])).map char85 ++ chars)
  | last (bytes : Bytes) (some : 1 ≤ bytes.length) (few : bytes.length ≤ 3) :
      Chars85 bytes (((digits85 (wordOf
        (bytes ++ List.replicate (4 - bytes.length) 0))).take
          (bytes.length + 1)).map char85)

/-- Characters as text, with white space anywhere, and `~>` or nothing behind. -/
inductive Spaced85 : Bytes → Bytes → Prop where
  | done : Spaced85 [] []
  | eod (rest : Bytes) : Spaced85 [] (0x7E :: 0x3E :: rest)
  | space {chars text : Bytes} (b : UInt8) (blank : isSpace b = true)
      (more : Spaced85 chars text) : Spaced85 chars (b :: text)
  | char {chars text : Bytes} (c : UInt8) (more : Spaced85 chars text) :
      Spaced85 (c :: chars) (c :: text)

/-- Bytes in base 85, with the frame or without. -/
def Encodes85 (bytes text : Bytes) : Prop :=
  ∃ chars body, Chars85 bytes chars ∧ Spaced85 chars body ∧
    (text = body ∨ ∃ blanks : Bytes, (∀ b ∈ blanks, isSpace b = true) ∧
      text = blanks ++ 0x3C :: 0x7E :: body)

/-! ## Numbers -/

theorem toNat_groupValue (a b c d e : UInt8) :
    (groupValue [a, b, c, d, e]).toNat =
      ((((a.toNat * 85 + b.toNat) * 85 + c.toNat) * 85 + d.toNat) * 85 +
        e.toNat) % 2 ^ 32 := by
  simp [groupValue, UInt32.toNat_add, UInt32.toNat_mul]

theorem toBeBytes_eq {val : UInt32} {a b c d : UInt8}
    (value : val.toNat = ((a.toNat * 256 + b.toNat) * 256 + c.toNat) * 256 +
      d.toNat) : toBeBytes val = [a, b, c, d] := by
  have lowA := a.toNat_lt
  have lowB := b.toNat_lt
  have lowC := c.toNat_lt
  have lowD := d.toNat_lt
  have first : (val >>> 24).toUInt8 = a := by
    apply UInt8.toNat_inj.mp
    simp [UInt32.toNat_shiftRight, Nat.shiftRight_eq_div_pow, value]
    omega
  have second : (val >>> 16).toUInt8 = b := by
    apply UInt8.toNat_inj.mp
    simp [UInt32.toNat_shiftRight, Nat.shiftRight_eq_div_pow, value]
    omega
  have third : (val >>> 8).toUInt8 = c := by
    apply UInt8.toNat_inj.mp
    simp [UInt32.toNat_shiftRight, Nat.shiftRight_eq_div_pow, value]
    omega
  have fourth : val.toUInt8 = d := by
    apply UInt8.toNat_inj.mp
    simp [value]
  rw [toBeBytes, first, second, third, fourth]

theorem toNat_digit (n : Nat) : (UInt8.ofNat (n % 85)).toNat = n % 85 := by
  rw [UInt8.toNat_ofNat']
  omega

theorem wordOf_four (a b c d : UInt8) :
    wordOf [a, b, c, d] =
      ((a.toNat * 256 + b.toNat) * 256 + c.toNat) * 256 + d.toNat := by
  simp [wordOf]

/-- The digits of a number, put together from the highest on. -/
theorem digits_value {n : Nat} (small : n < 2 ^ 32) :
    n / 85 / 85 / 85 / 85 % 85 * 85 + n / 85 / 85 / 85 % 85 =
        n / 85 / 85 / 85 ∧
      n / 85 / 85 / 85 * 85 + n / 85 / 85 % 85 = n / 85 / 85 ∧
      n / 85 / 85 * 85 + n / 85 % 85 = n / 85 ∧
      n / 85 * 85 + n % 85 = n := by
  have top : n / 85 / 85 / 85 / 85 < 85 := by omega
  refine ⟨?_, Nat.div_add_mod' _ _, Nat.div_add_mod' _ _, Nat.div_add_mod' _ _⟩
  rw [Nat.mod_eq_of_lt top, Nat.div_add_mod']

theorem toBeBytes_digits85 (a b c d : UInt8) :
    toBeBytes (groupValue (digits85 (wordOf [a, b, c, d]))) = [a, b, c, d] := by
  have lowA := a.toNat_lt
  have lowB := b.toNat_lt
  have lowC := c.toNat_lt
  have lowD := d.toNat_lt
  have small : wordOf [a, b, c, d] < 2 ^ 32 := by
    rw [wordOf_four]
    omega
  obtain ⟨four, three, two, one⟩ := digits_value small
  apply toBeBytes_eq
  rw [digits85, toNat_groupValue]
  simp only [toNat_digit]
  rw [four, three, two, one, Nat.mod_eq_of_lt small, wordOf_four]

theorem take_toBeBytes_three {val : UInt32} {a b c : UInt8}
    (value : val.toNat / 256 = (a.toNat * 256 + b.toNat) * 256 + c.toNat) :
    (toBeBytes val).take 3 = [a, b, c] := by
  have low : (UInt8.ofNat (val.toNat % 256)).toNat = val.toNat % 256 := by
    rw [UInt8.toNat_ofNat']
    omega
  have whole : toBeBytes val = [a, b, c, UInt8.ofNat (val.toNat % 256)] := by
    apply toBeBytes_eq
    rw [low, ← value, Nat.div_add_mod']
  rw [whole]
  rfl

theorem take_toBeBytes_two {val : UInt32} {a b : UInt8}
    (value : val.toNat / 256 / 256 = a.toNat * 256 + b.toNat) :
    (toBeBytes val).take 2 = [a, b] := by
  have low : (UInt8.ofNat (val.toNat / 256 % 256)).toNat =
      val.toNat / 256 % 256 := by
    rw [UInt8.toNat_ofNat']
    omega
  have three : (toBeBytes val).take 3 =
      [a, b, UInt8.ofNat (val.toNat / 256 % 256)] := by
    apply take_toBeBytes_three
    rw [low, ← value, Nat.div_add_mod']
  have two := congrArg (List.take 2) three
  simpa [List.take_take] using two

theorem take_toBeBytes_one {val : UInt32} {a : UInt8}
    (value : val.toNat / 256 / 256 / 256 = a.toNat) :
    (toBeBytes val).take 1 = [a] := by
  have low : (UInt8.ofNat (val.toNat / 256 / 256 % 256)).toNat =
      val.toNat / 256 / 256 % 256 := by
    rw [UInt8.toNat_ofNat']
    omega
  have two : (toBeBytes val).take 2 =
      [a, UInt8.ofNat (val.toNat / 256 / 256 % 256)] := by
    apply take_toBeBytes_two
    rw [low, ← value, Nat.div_add_mod']
  have one := congrArg (List.take 1) two
  simpa [List.take_take] using one

/-- Padding with the highest digit is rounding up, and by less than what the
digits that are missing are worth. -/
theorem padded_bounds (n : Nat) :
    (n ≤ ((n / 85 / 85 / 85 * 85 + 84) * 85 + 84) * 85 + 84 ∧
      ((n / 85 / 85 / 85 * 85 + 84) * 85 + 84) * 85 + 84 < n + 85 ^ 3) ∧
    (n ≤ (n / 85 / 85 * 85 + 84) * 85 + 84 ∧
      (n / 85 / 85 * 85 + 84) * 85 + 84 < n + 85 ^ 2) ∧
    (n ≤ n / 85 * 85 + 84 ∧ n / 85 * 85 + 84 < n + 85) := by
  omega

/-- A number that is rounded up by less than the low bytes are worth has the
same high bytes. -/
theorem rounded_div {n v high low : Nat} (zeros : n = high * low)
    (lower : n ≤ v) (upper : v < n + low) : v / low = high := by
  have more : v < low * (high + 1) := by
    rw [Nat.mul_add, Nat.mul_one, Nat.mul_comm, ← zeros]
    exact upper
  rw [zeros, Nat.mul_comm] at lower
  exact Nat.div_eq_of_lt_le (by rwa [Nat.mul_comm]) (by rwa [Nat.mul_comm])

theorem toBeBytes_padded {bytes : Bytes} (some : 1 ≤ bytes.length)
    (few : bytes.length ≤ 3) :
    (toBeBytes (groupValue ((digits85 (wordOf
        (bytes ++ List.replicate (4 - bytes.length) 0))).take
          (bytes.length + 1) ++
      List.replicate (4 - bytes.length) 84))).take bytes.length = bytes := by
  have most : (84 : UInt8).toNat = 84 := rfl
  have zero : (0 : UInt8).toNat = 0 := rfl
  match bytes, some, few with
  | [a], _, _ =>
      have low := a.toNat_lt
      have number := wordOf_four a 0 0 0
      rw [zero] at number
      have zeros : wordOf [a, 0, 0, 0] = a.toNat * (256 * 256 * 256) := by
        rw [number]
        omega
      obtain ⟨four, three, two, one⟩ :=
        digits_value (n := wordOf [a, 0, 0, 0]) (by omega)
      obtain ⟨lower, upper⟩ := (padded_bounds (wordOf [a, 0, 0, 0])).1
      apply take_toBeBytes_one
      change (groupValue
        [UInt8.ofNat (wordOf [a, 0, 0, 0] / 85 / 85 / 85 / 85 % 85),
          UInt8.ofNat (wordOf [a, 0, 0, 0] / 85 / 85 / 85 % 85),
          84, 84, 84]).toNat / 256 / 256 / 256 = _
      rw [toNat_groupValue]
      simp only [toNat_digit, most]
      rw [four, Nat.mod_eq_of_lt (by omega), Nat.div_div_eq_div_mul,
        Nat.div_div_eq_div_mul]
      exact rounded_div zeros lower (Nat.lt_trans upper (by omega))
  | [a, b], _, _ =>
      have lowA := a.toNat_lt
      have lowB := b.toNat_lt
      have number := wordOf_four a b 0 0
      rw [zero] at number
      have zeros : wordOf [a, b, 0, 0] =
          (a.toNat * 256 + b.toNat) * (256 * 256) := by
        rw [number]
        omega
      obtain ⟨four, three, two, one⟩ :=
        digits_value (n := wordOf [a, b, 0, 0]) (by omega)
      obtain ⟨lower, upper⟩ := (padded_bounds (wordOf [a, b, 0, 0])).2.1
      apply take_toBeBytes_two
      change (groupValue
        [UInt8.ofNat (wordOf [a, b, 0, 0] / 85 / 85 / 85 / 85 % 85),
          UInt8.ofNat (wordOf [a, b, 0, 0] / 85 / 85 / 85 % 85),
          UInt8.ofNat (wordOf [a, b, 0, 0] / 85 / 85 % 85),
          84, 84]).toNat / 256 / 256 = _
      rw [toNat_groupValue]
      simp only [toNat_digit, most]
      rw [four, three, Nat.mod_eq_of_lt (by omega), Nat.div_div_eq_div_mul]
      exact rounded_div zeros lower (Nat.lt_trans upper (by omega))
  | [a, b, c], _, _ =>
      have lowA := a.toNat_lt
      have lowB := b.toNat_lt
      have lowC := c.toNat_lt
      have number := wordOf_four a b c 0
      rw [zero] at number
      have zeros : wordOf [a, b, c, 0] =
          ((a.toNat * 256 + b.toNat) * 256 + c.toNat) * 256 := by
        rw [number, Nat.add_zero]
      obtain ⟨four, three, two, one⟩ :=
        digits_value (n := wordOf [a, b, c, 0]) (by omega)
      obtain ⟨lower, upper⟩ := (padded_bounds (wordOf [a, b, c, 0])).2.2
      apply take_toBeBytes_three
      change (groupValue
        [UInt8.ofNat (wordOf [a, b, c, 0] / 85 / 85 / 85 / 85 % 85),
          UInt8.ofNat (wordOf [a, b, c, 0] / 85 / 85 / 85 % 85),
          UInt8.ofNat (wordOf [a, b, c, 0] / 85 / 85 % 85),
          UInt8.ofNat (wordOf [a, b, c, 0] / 85 % 85), 84]).toNat / 256 = _
      rw [toNat_groupValue]
      simp only [toNat_digit, most]
      rw [four, three, two, Nat.mod_eq_of_lt (by omega)]
      exact rounded_div zeros lower (Nat.lt_trans upper (by omega))

/-! ## Characters -/

def tail85 (group : List UInt8) : Bytes :=
  if group.length ≥ 2 then
    (toBeBytes (groupValue
      (group ++ List.replicate (5 - group.length) 84))).take (group.length - 1)
  else []

def plain85 : List UInt8 → Bytes → Bytes
  | group, [] => tail85 group
  | group, c :: chars =>
      if c = 0x7A ∧ group = [] then [0, 0, 0, 0] ++ plain85 [] chars
      else if 0x21 ≤ c ∧ c ≤ 0x75 then
        if (group ++ [c - 0x21]).length = 5 then
          toBeBytes (groupValue (group ++ [c - 0x21])) ++ plain85 [] chars
        else plain85 (group ++ [c - 0x21]) chars
      else plain85 group chars

theorem finish85_eq {cap : Nat} {group : List UInt8} {out : Bytes}
    (within : out.length ≤ cap) :
    finish85 cap group out = capped cap (out ++ tail85 group) := by
  rw [finish85, tail85]
  by_cases enough : group.length ≥ 2
  · rw [if_pos enough, if_pos enough]
    exact pushCapped_done _
  · rw [if_neg enough, if_neg enough, List.append_nil, capped_of_le within]

theorem isSpace_other {b : UInt8} (blank : isSpace b = true) :
    b ≠ 0x7E ∧ b ≠ 0x7A ∧ ¬0x21 ≤ b := by
  revert b
  apply forall_byte
  decide

theorem ascii85From_text {cap : Nat} {chars text : Bytes}
    (spaced : Spaced85 chars text) (real : ∀ c ∈ chars, c ≠ 0x7E)
    (group : List UInt8) (out : Bytes) (within : out.length ≤ cap) :
    ascii85From cap group out text =
      capped cap (out ++ plain85 group chars) := by
  induction spaced generalizing group out with
  | done => exact finish85_eq within
  | eod rest =>
      have eod : (0x3E :: rest).head? = some 0x3E := rfl
      rw [ascii85From, if_pos rfl, if_pos eod]
      exact finish85_eq within
  | space b blank more ih =>
      obtain ⟨notEnd, notZeros, notDigit⟩ := isSpace_other blank
      rw [ascii85From, if_neg notEnd, if_neg fun zeros => notZeros zeros.1,
        if_neg fun digit => notDigit digit.1]
      exact ih real group out within
  | @char chars text c more ih =>
      have others : ∀ c ∈ chars, c ≠ 0x7E := fun c inside =>
        real c (List.mem_cons_of_mem _ inside)
      rw [ascii85From, if_neg (real c List.mem_cons_self), plain85]
      by_cases zeros : c = 0x7A ∧ group = []
      · rw [if_pos zeros, if_pos zeros, ← List.append_assoc]
        exact push_eq fun room => ih others [] _ room
      · rw [if_neg zeros, if_neg zeros]
        by_cases digit : 0x21 ≤ c ∧ c ≤ 0x75
        · rw [if_pos digit, if_pos digit]
          by_cases full : (group ++ [c - 0x21]).length = 5
          · rw [if_pos full, if_pos full, ← List.append_assoc]
            exact push_eq fun room => ih others [] _ room
          · rw [if_neg full, if_neg full]
            exact ih others _ out within
        · rw [if_neg digit, if_neg digit]
          exact ih others group out within

theorem char85_range {d : UInt8} (small : d < 85) :
    0x21 ≤ char85 d ∧ char85 d ≤ 0x75 ∧ char85 d - 0x21 = d := by
  revert d
  apply forall_byte
  decide

theorem digits85_small {n : Nat} {d : UInt8} (inside : d ∈ digits85 n) :
    d < 85 := by
  have small : ∀ m, UInt8.ofNat (m % 85) < 85 := by
    intro m
    rw [UInt8.lt_iff_toNat_lt, toNat_digit]
    exact Nat.mod_lt _ (by decide)
  rw [digits85] at inside
  simp only [List.mem_cons, List.not_mem_nil, or_false] at inside
  rcases inside with rfl | rfl | rfl | rfl | rfl <;> exact small _

theorem plain85_digit {group : List UInt8} {d : UInt8} (small : d < 85)
    (chars : Bytes) :
    plain85 group (char85 d :: chars) =
      if (group ++ [d]).length = 5 then
        toBeBytes (groupValue (group ++ [d])) ++ plain85 [] chars
      else plain85 (group ++ [d]) chars := by
  obtain ⟨lower, upper, back⟩ := char85_range small
  have notZeros : ¬(char85 d = 0x7A ∧ group = []) := by
    rintro ⟨zeros, _⟩
    rw [zeros] at upper
    exact absurd upper (by decide)
  rw [plain85, if_neg notZeros, if_pos ⟨lower, upper⟩, back]

theorem plain85_digits (digits : List UInt8) (small : ∀ d ∈ digits, d < 85)
    (group : List UInt8) (few : group.length + digits.length < 5)
    (chars : Bytes) :
    plain85 group (digits.map char85 ++ chars) =
      plain85 (group ++ digits) chars := by
  induction digits generalizing group with
  | nil => rw [List.map_nil, List.nil_append, List.append_nil]
  | cons d digits ih =>
      rw [List.length_cons] at few
      have notFull : ¬(group ++ [d]).length = 5 := by
        rw [List.length_append, List.length_singleton]
        omega
      rw [List.map_cons, List.cons_append,
        plain85_digit (small d List.mem_cons_self), if_neg notFull,
        ih (fun d inside => small d (List.mem_cons_of_mem _ inside)) _ (by
          rw [List.length_append, List.length_singleton]
          omega), List.append_assoc]
      rfl

theorem plain85_group (n : Nat) (chars : Bytes) :
    plain85 [] ((digits85 n).map char85 ++ chars) =
      toBeBytes (groupValue (digits85 n)) ++ plain85 [] chars := by
  have small := fun d => digits85_small (n := n) (d := d)
  rw [digits85] at small ⊢
  have split := plain85_digits
    [UInt8.ofNat (n / 85 / 85 / 85 / 85 % 85),
      UInt8.ofNat (n / 85 / 85 / 85 % 85), UInt8.ofNat (n / 85 / 85 % 85),
      UInt8.ofNat (n / 85 % 85)]
    (fun d inside => small d (List.mem_append_left [_] inside)) []
    (Nat.lt_succ_self 4)
    (char85 (UInt8.ofNat (n % 85)) :: chars)
  refine split.trans ?_
  rw [plain85_digit (small _ (List.mem_append_right [_, _, _, _]
    List.mem_cons_self))]
  rfl

theorem chars85_plain {bytes chars : Bytes} (encoded : Chars85 bytes chars) :
    plain85 [] chars = bytes := by
  induction encoded with
  | done => rfl
  | zeros more ih =>
      rw [plain85, if_pos ⟨rfl, rfl⟩, ih]
      rfl
  | group a b c d more ih =>
      rw [plain85_group, toBeBytes_digits85, ih]
      rfl
  | last bytes some few =>
      have few' : ((digits85 (wordOf (bytes ++
          List.replicate (4 - bytes.length) 0))).take
            (bytes.length + 1)).length = bytes.length + 1 := by
        rw [List.length_take, digits85]
        change min _ 5 = _
        omega
      have split := plain85_digits ((digits85 (wordOf (bytes ++
        List.replicate (4 - bytes.length) 0))).take (bytes.length + 1))
        (fun d inside => digits85_small (List.mem_of_mem_take inside)) []
        (by
          rw [few', List.length_nil]
          omega) []
      rw [List.append_nil] at split
      have enough : bytes.length + 1 ≥ 2 := by omega
      have missing : 5 - (bytes.length + 1) = 4 - bytes.length := by omega
      rw [split, List.nil_append, plain85, tail85, few', if_pos enough, missing,
        Nat.add_sub_cancel]
      exact toBeBytes_padded some few

theorem chars85_range {bytes chars : Bytes} (encoded : Chars85 bytes chars) :
    ∀ c ∈ chars, c ≠ 0x7E ∧ isSpace c = false := by
  have digit : ∀ {n : Nat} {c : UInt8}, c ∈ (digits85 n).map char85 →
      c ≠ 0x7E ∧ isSpace c = false := by
    intro n c inside
    obtain ⟨d, member, rfl⟩ := List.mem_map.mp inside
    have all : ∀ d : UInt8, d < 85 →
        char85 d ≠ 0x7E ∧ isSpace (char85 d) = false := by
      apply forall_byte
      decide
    exact all d (digits85_small member)
  induction encoded with
  | done => exact fun c inside => absurd inside List.not_mem_nil
  | zeros more ih =>
      intro c inside
      rcases List.mem_cons.mp inside with rfl | inside
      · decide
      · exact ih c inside
  | group a b c d more ih =>
      intro e inside
      rcases List.mem_append.mp inside with inside | inside
      · exact digit inside
      · exact ih e inside
  | last bytes some few =>
      intro c inside
      rw [List.map_take] at inside
      exact digit (List.mem_of_mem_take inside)

theorem chars85_length {bytes chars : Bytes} (encoded : Chars85 bytes chars)
    (c : UInt8) (one : chars = [c]) : c = 0x7A := by
  cases encoded with
  | done => cases one
  | zeros more =>
      cases one
      rfl
  | group a b c d more => cases one
  | last bytes some few =>
      have length := congrArg List.length one
      rw [List.length_map, List.length_take, digits85] at length
      change min _ 5 = 1 at length
      omega

/-- Text without the frame never looks as if it had one. -/
theorem spaced85_unframed {chars body rest : Bytes}
    (spaced : Spaced85 chars body)
    (real : ∀ c ∈ chars, c ≠ 0x7E ∧ isSpace c = false)
    (framed : body.dropWhile isSpace = 0x3C :: 0x7E :: rest) :
    chars = [0x3C] := by
  induction spaced with
  | done => cases framed
  | eod rest => cases framed
  | space b blank more ih =>
      rw [List.dropWhile_cons_of_pos blank] at framed
      exact ih real framed
  | @char chars text c more ih =>
      have solid := (real c List.mem_cons_self).2
      rw [List.dropWhile_cons_of_neg (by rw [solid]; exact Bool.false_ne_true)]
        at framed
      obtain ⟨rfl, rfl⟩ := List.cons.inj framed
      cases more with
      | eod rest => rfl
      | space b blank more => cases blank
      | char c more =>
          exact absurd rfl
            (real _ (List.mem_cons_of_mem _ List.mem_cons_self)).1

theorem skipFrame_framed {blanks body : Bytes}
    (blank : ∀ b ∈ blanks, isSpace b = true) :
    skipFrame (blanks ++ 0x3C :: 0x7E :: body) = body := by
  have dropped : (blanks ++ 0x3C :: 0x7E :: body).dropWhile isSpace =
      0x3C :: 0x7E :: body := by
    rw [List.dropWhile_append_of_pos blank]
    rfl
  rw [skipFrame, dropped]
  rfl

theorem ascii85Decode_eq {bytes text : Bytes} (encodes : Encodes85 bytes text)
    (cap : Nat) : ascii85Decode text cap = capped cap bytes := by
  obtain ⟨chars, body, encoded, spaced, layout⟩ := encodes
  have real := chars85_range encoded
  have skipped : skipFrame text = body := by
    rcases layout with rfl | ⟨blanks, blank, rfl⟩
    · rw [skipFrame]
      split
      · rename_i rest framed
        have one := spaced85_unframed spaced real framed
        exact absurd (chars85_length encoded _ one) (by decide)
      · rfl
    · exact skipFrame_framed blank
  rw [ascii85Decode, skipped,
    ascii85From_text spaced (fun c inside => (real c inside).1) [] []
      (Nat.zero_le cap), List.nil_append, chars85_plain encoded]

end Exav.Unpack.PdfFilters
