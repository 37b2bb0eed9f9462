import Exav.Unpack.PdfFilters

/-!
# LZW read back

The encoder's codes stand for strings of its table, which the decoder completes
one code later.  What lengths the codes have is a schedule, and the decoder reads
back whatever is written in a schedule that agrees with its own; it widens a code
earlier than the format does.
-/

namespace Exav.Unpack.PdfFilters

set_option maxRecDepth 2048

open Exav.Capped

/-! ## Encodings -/

def codeBits : (width : Nat) → (code : Nat) → List Bool
  | 0, _ => []
  | width + 1, code => codeBits width (code / 2) ++ [code % 2 == 1]

/-- The table with the string that the next one completes. -/
def tableWith (table : List Bytes) (prev : Option Bytes) (s : Bytes) :
    List Bytes :=
  match prev with
  | some p =>
      if table.length < maxEntries then table ++ [p ++ s.take 1] else table
  | none => table

/-- Bytes as codes of strings, each of them in the table with the string before
completed, with clear codes anywhere.  No more than `most` codes stand for
strings between one clear and the next; `count` of them are behind. -/
inductive Written (length : Nat → Nat) (most : Nat) :
    (table : List Bytes) → (prev : Option Bytes) → (count : Nat) → Bytes →
      List Bool → Prop where
  | eod {table : List Bytes} {prev : Option Bytes} {count : Nat} :
      Written length most table prev count [] (codeBits (length count) eod)
  | clear {table : List Bytes} {prev : Option Bytes} {count : Nat}
      {bytes : Bytes} {bits : List Bool}
      (more : Written length most reset none 0 bytes bits) :
      Written length most table prev count bytes
        (codeBits (length count) clearCode ++ bits)
  | string {table : List Bytes} {prev : Option Bytes} {count : Nat}
      {bytes : Bytes} {bits : List Bool} (s : Bytes) (code : Nat)
      (room : count < most) (solid : s ≠ [])
      (entry : (tableWith table prev s)[code]? = some s)
      (fits : code < 2 ^ length count)
      (more : Written length most (tableWith table prev s) (some s) (count + 1)
        bytes bits) :
      Written length most table prev count (s ++ bytes)
        (codeBits (length count) code ++ bits)

/-- Bytes as codes with anything behind them. -/
def EncodesLzw (length : Nat → Nat) (most : Nat) (bytes text : Bytes) : Prop :=
  ∃ bits rest, bitsOf text = bits ++ rest ∧
    Written length most reset none 0 bytes bits

def earlyOf (earlyChange : Bool) : Nat := if earlyChange then 1 else 0

/-- The length of the code behind `count` of them: longer once entry 511 is in
the encoder's table, or one code later. -/
def codeLength (earlyChange : Bool) (count : Nat) : Nat :=
  if 258 + count + earlyOf earlyChange ≤ 512 then 9
  else if 258 + count + earlyOf earlyChange ≤ 1024 then 10
  else if 258 + count + earlyOf earlyChange ≤ 2048 then 11
  else 12

def readLength (earlyChange : Bool) (count : Nat) : Nat :=
  if 258 + count + earlyOf earlyChange < 512 then 9
  else if 258 + count + earlyOf earlyChange < 1024 then 10
  else if 258 + count + earlyOf earlyChange < 2048 then 11
  else 12

/-! ## Codes -/

theorem length_codeBits (width code : Nat) :
    (codeBits width code).length = width := by
  induction width generalizing code with
  | zero => rfl
  | succ width ih =>
      rw [codeBits, List.length_append, ih]
      rfl

theorem codeOf_append (bits : List Bool) (bit : Bool) :
    codeOf (bits ++ [bit]) = codeOf bits * 2 + bit.toNat := by
  rw [codeOf, List.foldl_append]
  rfl

theorem codeOf_codeBits {width code : Nat} (fits : code < 2 ^ width) :
    codeOf (codeBits width code) = code := by
  induction width generalizing code with
  | zero =>
      rw [Nat.pow_zero] at fits
      obtain rfl : code = 0 := by omega
      rfl
  | succ width ih =>
      rw [Nat.pow_succ] at fits
      have bit : (code % 2 == 1).toNat = code % 2 := by
        rcases Nat.mod_two_eq_zero_or_one code with even | odd
        · rw [even]
          rfl
        · rw [odd]
          rfl
      rw [codeBits, codeOf_append, ih (by omega), bit]
      omega

theorem take_codeBits (width code : Nat) (bits : List Bool) :
    (codeBits width code ++ bits).take width = codeBits width code :=
  List.take_left' (length_codeBits width code)

theorem drop_codeBits (width code : Nat) (bits : List Bool) :
    (codeBits width code ++ bits).drop width = bits :=
  List.drop_left' (length_codeBits width code)

/-- Where a table of the decoder's next length stands. -/
theorem readLength_cases (earlyChange : Bool) (count : Nat) :
    readLength earlyChange count = 9 ∧
        258 + count + earlyOf earlyChange < 512 ∨
      readLength earlyChange count = 10 ∧
        512 ≤ 258 + count + earlyOf earlyChange ∧
        258 + count + earlyOf earlyChange < 1024 ∨
      readLength earlyChange count = 11 ∧
        1024 ≤ 258 + count + earlyOf earlyChange ∧
        258 + count + earlyOf earlyChange < 2048 ∨
      readLength earlyChange count = 12 ∧
        2048 ≤ 258 + count + earlyOf earlyChange := by
  by_cases nine : 258 + count + earlyOf earlyChange < 512
  · exact .inl ⟨if_pos nine, nine⟩
  · by_cases ten : 258 + count + earlyOf earlyChange < 1024
    · exact .inr (.inl ⟨(if_neg nine).trans (if_pos ten), Nat.not_lt.mp nine, ten⟩)
    · by_cases eleven : 258 + count + earlyOf earlyChange < 2048
      · exact .inr (.inr (.inl
          ⟨(if_neg nine).trans ((if_neg ten).trans (if_pos eleven)),
            Nat.not_lt.mp ten, eleven⟩))
      · exact .inr (.inr (.inr
          ⟨(if_neg nine).trans ((if_neg ten).trans (if_neg eleven)),
            Nat.not_lt.mp eleven⟩))

theorem readLength_wide (earlyChange : Bool) (count : Nat) :
    9 ≤ readLength earlyChange count := by
  rcases readLength_cases earlyChange count with
    ⟨length, _⟩ | ⟨length, _⟩ | ⟨length, _⟩ | ⟨length, _⟩ <;> omega

theorem special_fits {width : Nat} (wide : 9 ≤ width) :
    eod < 2 ^ width ∧ clearCode < 2 ^ width := by
  have least : 2 ^ 9 ≤ 2 ^ width := Nat.pow_le_pow_right (by decide) wide
  rw [eod, clearCode]
  omega

/-- The width of the next code is that of a table a string larger. -/
theorem bump_readLength (earlyChange : Bool) (count : Nat) {dict : List Bytes}
    (length : dict.length = min maxEntries (258 + count)) :
    bump (earlyOf earlyChange) (readLength earlyChange count) dict =
      readLength earlyChange (count + 1) := by
  have small : earlyOf earlyChange ≤ 1 := by
    rw [earlyOf]
    split <;> decide
  rw [maxEntries] at length
  have next := readLength_cases earlyChange (count + 1)
  rw [bump]
  rcases readLength_cases earlyChange count with
    ⟨now, _⟩ | ⟨now, _, _⟩ | ⟨now, _, _⟩ | ⟨now, _⟩ <;>
  · rw [now]
    split <;> omega

/-! ## The table -/

inductive Behind (table : List Bytes) :
    Option Bytes → Option Nat → (count : Nat) → Prop where
  | clear (length : table.length = 258) : Behind table none none 0
  | string {p : Bytes} {code count : Nat} (entry : table[code]? = some p)
      (solid : p ≠ []) (length : table.length = min maxEntries (258 + count)) :
      Behind table (some p) (some code) (count + 1)

variable {table : List Bytes} {prev : Option Bytes} {prevCode : Option Nat}
  {count : Nat}

theorem length_reset : reset.length = 258 := by
  rw [reset, List.length_append, List.length_map, List.length_range]
  rfl

theorem lt_of_entry {code : Nat} {s : Bytes} (entry : table[code]? = some s) :
    code < table.length :=
  (List.getElem?_eq_some_iff.mp entry).1

theorem Behind.length_le (behind : Behind table prev prevCode count) :
    table.length ≤ 258 + (count - 1) := by
  cases behind with
  | clear length => exact Nat.le_of_eq length
  | string entry solid length =>
      rw [length]
      exact Nat.min_le_right _ _

theorem length_tableWith (behind : Behind table prev prevCode count) (s : Bytes) :
    (tableWith table prev s).length = min maxEntries (258 + count) := by
  rw [maxEntries]
  cases behind with
  | clear length => exact length
  | string entry solid length =>
      rw [maxEntries] at length
      change (if table.length < maxEntries then _ else table).length = _
      rw [maxEntries]
      split
      · rw [List.length_append, List.length_singleton]
        omega
      · omega

theorem starts_tableWith {extra : List Bytes} (starts : table = reset ++ extra)
    (prev : Option Bytes) (s : Bytes) :
    ∃ extra, tableWith table prev s = reset ++ extra := by
  unfold tableWith
  split
  · split
    · exact ⟨extra ++ [_], by rw [starts, List.append_assoc]⟩
    · exact ⟨extra, starts⟩
  · exact ⟨extra, starts⟩

theorem code_ne_special {extra : List Bytes} (starts : table = reset ++ extra)
    {code : Nat} {s : Bytes} (entry : table[code]? = some s) (solid : s ≠ []) :
    code ≠ eod ∧ code ≠ clearCode := by
  have empty : ∀ special : Nat, reset[special]? = some ([] : Bytes) →
      table[special]? = some ([] : Bytes) := by
    intro special empty
    rw [starts, List.getElem?_append_left (lt_of_entry empty), empty]
  constructor
  · rintro rfl
    rw [empty eod (by decide)] at entry
    exact solid (Option.some.inj entry).symm
  · rintro rfl
    rw [empty clearCode (by decide)] at entry
    exact solid (Option.some.inj entry).symm

theorem entryOf_tableWith (behind : Behind table prev prevCode count)
    {code : Nat} {s : Bytes}
    (entry : (tableWith table prev s)[code]? = some s) :
    entryOf table prevCode code = some (some s) := by
  have known : ∀ {code : Nat}, table[code]? = some s →
      entryOf table prevCode code = some (some s) := by
    intro code entry
    unfold entryOf
    rw [if_pos (lt_of_entry entry), entry]
    rfl
  cases behind with
  | clear length => exact known entry
  | @string p old count before solid length =>
      change (if table.length < maxEntries then table ++ [p ++ s.take 1]
        else table)[code]? = some s at entry
      by_cases room : table.length < maxEntries
      · rw [if_pos room] at entry
        by_cases below : code < table.length
        · rw [List.getElem?_append_left below] at entry
          exact known entry
        · -- The code is the one its own string defines.
          have bound := lt_of_entry entry
          rw [List.length_append, List.length_singleton] at bound
          obtain rfl : code = table.length := by omega
          rw [List.getElem?_append_right (Nat.le_refl _), Nat.sub_self] at entry
          have whole : p ++ s.take 1 = s := Option.some.inj entry
          have head : s.take 1 = p.head?.toList := by
            cases p with
            | nil => exact absurd rfl solid
            | cons b p =>
                rw [← whole]
                rfl
          unfold entryOf
          rw [if_neg below, if_pos rfl]
          change (if old < table.length then _ else _) = _
          rw [if_pos (lt_of_entry before), before, Option.map_some, ← head, whole]
      · rw [if_neg room] at entry
        exact known entry

theorem addEntry_tableWith (behind : Behind table prev prevCode count)
    {s : Bytes} (solid : s ≠ []) :
    addEntry table prevCode s = some (tableWith table prev s) := by
  cases behind with
  | clear length => rfl
  | @string p old count before solid' length =>
      have inside := lt_of_entry before
      change (if old < table.length ∧ table.length < maxEntries then _ else _) =
        some (if table.length < maxEntries then _ else _)
      by_cases room : table.length < maxEntries
      · rw [if_pos ⟨inside, room⟩, if_pos room, before]
        cases s with
        | nil => exact absurd rfl solid
        | cons b s => rfl
      · rw [if_neg fun both => room both.2, if_neg room]

theorem behind_tableWith (behind : Behind table prev prevCode count)
    {code : Nat} {s : Bytes} (solid : s ≠ [])
    (entry : (tableWith table prev s)[code]? = some s) :
    Behind (tableWith table prev s) (some s) (some code) (count + 1) :=
  .string entry solid (length_tableWith behind s)

/-! ## Codes read back -/

section Read

variable {earlyChange : Bool} {cap : Nat} {length : Nat → Nat} {most : Nat}

theorem lzwFrom_code {rounds : Nat} {s : Lzw} {code : Nat} {bits : List Bool}
    (fits : code < 2 ^ s.codeWidth) :
    lzwFrom (earlyOf earlyChange) cap (rounds + 1) s
        (codeBits s.codeWidth code ++ bits) =
      if code = eod then some (s.out, false)
      else if code = clearCode then
        lzwFrom (earlyOf earlyChange) cap rounds ⟨reset, 9, none, s.out⟩ bits
      else
        match entryOf s.dict s.prev code with
        | none => none
        | some none => some (s.out, false)
        | some (some entry) =>
            if (s.out ++ entry).length > cap then
              some ((s.out ++ entry).take cap, true)
            else
              match addEntry s.dict s.prev entry with
              | none => none
              | some dict =>
                  lzwFrom (earlyOf earlyChange) cap rounds
                    ⟨dict, bump (earlyOf earlyChange) s.codeWidth dict,
                      some code, s.out ++ entry⟩ bits := by
  have long : ¬(codeBits s.codeWidth code ++ bits).length < s.codeWidth := by
    rw [List.length_append, length_codeBits]
    omega
  have read := lzwFrom.eq_2 (earlyOf earlyChange) cap s
    (codeBits s.codeWidth code ++ bits) rounds
  rw [if_neg long] at read
  simp only [take_codeBits, drop_codeBits, codeOf_codeBits fits] at read
  exact read

theorem lzwFrom_string {rounds code : Nat} {s out : Bytes} {bits : List Bool}
    {extra : List Bytes} (starts : table = reset ++ extra)
    (behind : Behind table prev prevCode count) (solid : s ≠ [])
    (entry : (tableWith table prev s)[code]? = some s)
    (fits : code < 2 ^ readLength earlyChange count) :
    lzwFrom (earlyOf earlyChange) cap (rounds + 1)
        ⟨table, readLength earlyChange count, prevCode, out⟩
        (codeBits (readLength earlyChange count) code ++ bits) =
      if (out ++ s).length > cap then some ((out ++ s).take cap, true)
      else
        lzwFrom (earlyOf earlyChange) cap rounds
          ⟨tableWith table prev s, readLength earlyChange (count + 1), some code,
            out ++ s⟩ bits := by
  obtain ⟨extra', starts'⟩ := starts_tableWith starts prev s
  obtain ⟨notEod, notClear⟩ := code_ne_special starts' entry solid
  rw [lzwFrom_code fits, if_neg notEod, if_neg notClear]
  simp only [entryOf_tableWith behind entry, addEntry_tableWith behind solid]
  rw [bump_readLength earlyChange count (length_tableWith behind s)]

theorem lzwFrom_written {bytes : Bytes} {bits : List Bool}
    (agrees : ∀ count ≤ most, length count = readLength earlyChange count)
    (written : Written length most table prev count bytes bits)
    {extra : List Bytes} (starts : table = reset ++ extra)
    (behind : Behind table prev prevCode count) (reached : count ≤ most)
    (rest : List Bool) {rounds : Nat}
    (enough : (bits ++ rest).length < rounds) {out : Bytes}
    (within : out.length ≤ cap) :
    lzwFrom (earlyOf earlyChange) cap rounds
        ⟨table, readLength earlyChange count, prevCode, out⟩ (bits ++ rest) =
      some (capped cap (out ++ bytes)) := by
  induction written generalizing extra prevCode rounds out with
  | @eod table prev count =>
      obtain ⟨rounds, rfl⟩ : ∃ left, rounds = left + 1 := ⟨rounds - 1, by omega⟩
      have special := (special_fits (readLength_wide earlyChange count)).1
      rw [agrees count reached, lzwFrom_code special, if_pos rfl, List.append_nil,
        capped_of_le within]
  | @clear table prev count bytes bits more ih =>
      obtain ⟨rounds, rfl⟩ : ∃ left, rounds = left + 1 := ⟨rounds - 1, by omega⟩
      have special := (special_fits (readLength_wide earlyChange count)).2
      have fresh : readLength earlyChange 0 = 9 := by
        cases earlyChange <;> rfl
      rw [List.append_assoc, List.length_append, length_codeBits,
        agrees count reached] at enough
      have wide := readLength_wide earlyChange count
      rw [agrees count reached, List.append_assoc, lzwFrom_code special,
        if_neg (by decide), if_pos rfl, ← fresh]
      exact ih (List.append_nil reset).symm (.clear length_reset) (Nat.zero_le most)
        (by omega) within
  | @string table prev count bytes bits s code room solid entry fits more ih =>
      obtain ⟨rounds, rfl⟩ : ∃ left, rounds = left + 1 := ⟨rounds - 1, by omega⟩
      obtain ⟨extra', starts'⟩ := starts_tableWith starts prev s
      rw [agrees count reached] at fits
      rw [List.append_assoc, List.length_append, length_codeBits,
        agrees count reached] at enough
      have wide := readLength_wide earlyChange count
      rw [agrees count reached, List.append_assoc,
        lzwFrom_string starts behind solid entry fits, ← List.append_assoc]
      by_cases past : (out ++ s).length > cap
      · rw [if_pos past, capped_append past]
      · rw [if_neg past]
        exact ih starts' (behind_tableWith behind solid entry) room (by omega)
          (Nat.le_of_not_lt past)

theorem lzwDecode_written {bytes text : Bytes}
    (agrees : ∀ count ≤ most, length count = readLength earlyChange count)
    (encodes : EncodesLzw length most bytes text) (cap : Nat) :
    lzwDecode text earlyChange cap = some (capped cap bytes) := by
  obtain ⟨bits, rest, whole, written⟩ := encodes
  have fresh : readLength earlyChange 0 = 9 := by
    cases earlyChange <;> rfl
  rw [lzwDecode, whole, ← fresh]
  exact lzwFrom_written agrees written (List.append_nil reset).symm
    (.clear length_reset) (Nat.zero_le most) rest (Nat.lt_succ_self _)
    (Nat.zero_le cap)

end Read

/-! ## Every input -/

structure Solid (dict : List Bytes) (prev : Option Nat) : Prop where
  entries : ∀ (code : Nat) (s : Bytes), dict[code]? = some s →
    code ≠ eod → code ≠ clearCode → s ≠ []
  before : ∀ code, prev = some code → code ≠ eod ∧ code ≠ clearCode

theorem solid_reset : Solid reset none where
  entries code s entry notEod notClear := by
    have below := lt_of_entry entry
    rw [length_reset] at below
    rw [eod] at notEod
    rw [clearCode] at notClear
    have byte : code < 256 := by omega
    rw [reset, List.getElem?_append_left (by
      rwa [List.length_map, List.length_range]), List.getElem?_map,
      List.getElem?_range byte] at entry
    cases entry
    exact List.cons_ne_nil _ _
  before code before := by cases before

namespace Solid

variable {dict : List Bytes} {prev : Option Nat}

theorem entryOf_ne_none (prev : Option Nat) (code : Nat) :
    entryOf dict prev code ≠ none := by
  unfold entryOf
  split
  · rename_i below
    rw [List.getElem?_eq_getElem below]
    exact Option.some_ne_none _
  · split
    · split
      · split
        · rename_i below
          rw [List.getElem?_eq_getElem below]
          exact Option.some_ne_none _
        · exact Option.some_ne_none _
      · exact Option.some_ne_none _
    · exact Option.some_ne_none _

theorem entryOf_ne_nil (solid : Solid dict prev) {code : Nat} {s : Bytes}
    (notEod : code ≠ eod) (notClear : code ≠ clearCode)
    (entry : entryOf dict prev code = some (some s)) : s ≠ [] := by
  unfold entryOf at entry
  split at entry
  · obtain ⟨w, found, same⟩ := Option.map_eq_some_iff.mp entry
    cases same
    exact solid.entries code _ found notEod notClear
  · split at entry
    · split at entry
      · rename_i old
        split at entry
        · obtain ⟨w, found, same⟩ := Option.map_eq_some_iff.mp entry
          cases same
          obtain ⟨oldEod, oldClear⟩ := solid.before old rfl
          have some := solid.entries old _ found oldEod oldClear
          exact fun empty => some (List.append_eq_nil_iff.mp empty).1
        · cases entry
      · cases entry
    · cases entry

theorem addEntry (solid : Solid dict prev) {code : Nat} {s : Bytes}
    (some : s ≠ []) (notEod : code ≠ eod) (notClear : code ≠ clearCode) :
    ∃ next, addEntry dict prev s = Option.some next ∧
      Solid next (Option.some code) := by
  have before : ∀ next, Option.some code = Option.some next →
      next ≠ eod ∧ next ≠ clearCode := by
    rintro _ ⟨⟩
    exact ⟨notEod, notClear⟩
  unfold PdfFilters.addEntry
  split
  · rename_i old
    split
    · rename_i both
      obtain ⟨b, s, rfl⟩ := List.exists_cons_of_ne_nil some
      rw [List.getElem?_eq_getElem both.1]
      refine ⟨_, rfl, ?_, before⟩
      intro other w entry otherEod otherClear
      by_cases below : other < dict.length
      · rw [List.getElem?_append_left below] at entry
        exact solid.entries other w entry otherEod otherClear
      · rw [List.getElem?_append_right (Nat.not_lt.mp below)] at entry
        have bound := lt_of_entry entry
        rw [List.length_singleton] at bound
        rw [Nat.lt_one_iff.mp bound] at entry
        cases entry
        exact List.append_ne_nil_of_right_ne_nil _ (List.cons_ne_nil _ _)
    · exact ⟨dict, rfl, solid.entries, before⟩
  · exact ⟨dict, rfl, solid.entries, before⟩

end Solid

theorem lzwFrom_ne_none (early cap rounds : Nat) {s : Lzw}
    (solid : Solid s.dict s.prev) (bits : List Bool) :
    lzwFrom early cap rounds s bits ≠ none := by
  induction rounds generalizing s bits with
  | zero => exact Option.some_ne_none _
  | succ rounds ih =>
      unfold lzwFrom
      split
      · exact Option.some_ne_none _
      · dsimp only
        split
        · exact Option.some_ne_none _
        · rename_i notEod
          split
          · exact ih solid_reset _
          · rename_i notClear
            split
            · rename_i missing
              exact absurd missing (Solid.entryOf_ne_none _ _)
            · exact Option.some_ne_none _
            · rename_i entry found
              split
              · exact Option.some_ne_none _
              · have some := solid.entryOf_ne_nil notEod notClear found
                obtain ⟨next, added, kept⟩ := solid.addEntry some notEod notClear
                rw [added]
                exact ih kept _

/-- The decoder never indexes outside its table or into an empty entry. -/
theorem lzwDecode_ne_none (text : Bytes) (earlyChange : Bool) (cap : Nat) :
    lzwDecode text earlyChange cap ≠ none :=
  lzwFrom_ne_none _ _ _ solid_reset _

/-! ## How many codes -/

theorem readLength_codeLength {earlyChange : Bool} {most : Nat}
    (few : most + earlyOf earlyChange ≤ 253) :
    ∀ count ≤ most,
      codeLength earlyChange count = readLength earlyChange count := by
  intro count upto
  have small : 258 + count + earlyOf earlyChange < 512 := by omega
  rw [codeLength, readLength, if_pos small, if_pos (Nat.le_of_lt small)]

def packed : List Bool → Bytes
  | a :: b :: c :: d :: e :: f :: g :: h :: bits =>
      UInt8.ofNat (codeOf [a, b, c, d, e, f, g, h]) :: packed bits
  | [] => []
  | bits =>
      [UInt8.ofNat (codeOf (bits ++ List.replicate (8 - bits.length) false))]

theorem bitsOfByte_codeOf {bits : List Bool} (eight : bits.length = 8) :
    bitsOfByte (UInt8.ofNat (codeOf bits)) = bits := by
  have all : ∀ a b c d e f g h : Bool,
      bitsOfByte (UInt8.ofNat (codeOf [a, b, c, d, e, f, g, h])) =
        [a, b, c, d, e, f, g, h] := by
    decide
  match bits, eight with
  | [a, b, c, d, e, f, g, h], _ => exact all a b c d e f g h

theorem bitsOf_packed (bits : List Bool) :
    ∃ rest, bitsOf (packed bits) = bits ++ rest := by
  induction bits using packed.induct with
  | case1 a b c d e f g h bits ih =>
      obtain ⟨rest, whole⟩ := ih
      rw [bitsOf] at whole
      refine ⟨rest, ?_⟩
      rw [packed, bitsOf, List.flatMap_cons, bitsOfByte_codeOf rfl, whole]
      rfl
  | case2 => exact ⟨[], rfl⟩
  | case3 bits short some =>
      have few : bits.length ≤ 8 := by
        by_contra many
        match bits, Nat.not_le.mp many with
        | a :: b :: c :: d :: e :: f :: g :: h :: bits, _ =>
            exact short a b c d e f g h bits rfl
      refine ⟨List.replicate (8 - bits.length) false, ?_⟩
      have eight : (bits ++ List.replicate (8 - bits.length) false).length = 8 := by
        rw [List.length_append, List.length_replicate]
        omega
      rw [packed, bitsOf, List.flatMap_singleton, bitsOfByte_codeOf eight]
      · exact short
      · exact some

def literalBits (bytes : Bytes) : List Bool :=
  bytes.flatMap fun b : UInt8 => codeBits 9 b.toNat

/-- As many different bytes as fill the table that far, and one more behind a
clear. -/
def crowded (count : Nat) : Bytes :=
  (List.range count).map UInt8.ofNat

def crowdedBits (count : Nat) : List Bool :=
  codeBits 9 clearCode ++ (literalBits (crowded count) ++
    (codeBits 9 clearCode ++ (literalBits [7] ++ codeBits 9 eod)))

theorem reset_byte (b : UInt8) : reset[b.toNat]? = some [b] := by
  have small : b.toNat < 256 := b.toNat_lt
  rw [reset, List.getElem?_append_left (by simpa using small), List.getElem?_map,
    List.getElem?_range small, Option.map_some, UInt8.ofNat_toNat]

theorem entry_byte {table extra : List Bytes} (starts : table = reset ++ extra)
    (b : UInt8) : table[b.toNat]? = some [b] := by
  have known : b.toNat < reset.length := lt_of_entry (reset_byte b)
  rw [starts, List.getElem?_append_left known, reset_byte]

theorem written_literals {length : Nat → Nat} {most : Nat} {more : Bytes}
    {bits : List Bool} (bytes : Bytes) {table extra : List Bytes}
    {prev : Option Bytes} {count : Nat} (starts : table = reset ++ extra)
    (room : count + bytes.length ≤ most)
    (nine : ∀ at_ < count + bytes.length, length at_ = 9)
    (behind : ∀ table prev,
      Written length most table prev (count + bytes.length) more bits) :
    Written length most table prev count (bytes ++ more)
      (literalBits bytes ++ bits) := by
  induction bytes generalizing table extra prev count with
  | nil => exact behind table prev
  | cons b bytes ih =>
      obtain ⟨extra', starts'⟩ := starts_tableWith starts prev [b]
      have shift : count + (b :: bytes).length = count + 1 + bytes.length := by
        rw [List.length_cons]
        omega
      rw [shift] at room nine behind
      have width := nine count (by omega)
      have entry := entry_byte starts' b
      have fits : b.toNat < 2 ^ length count := by
        rw [width]
        exact Nat.lt_trans b.toNat_lt (by decide)
      have head := Written.string [b] b.toNat (by omega) (List.cons_ne_nil b [])
        entry fits (ih starts' room nine behind)
      rw [width] at head
      have split : literalBits (b :: bytes) ++ bits =
          codeBits 9 b.toNat ++ (literalBits bytes ++ bits) := by
        rw [literalBits, List.flatMap_cons, List.append_assoc]
        rfl
      rw [split]
      exact head

theorem written_crowded {earlyChange : Bool} {most count : Nat}
    (some : 1 ≤ most) (room : count ≤ most)
    (few : count + earlyOf earlyChange ≤ 254) :
    Written (codeLength earlyChange) most reset none 0 (crowded count ++ [7])
      (crowdedBits count) := by
  have nine : ∀ at_ ≤ count, codeLength earlyChange at_ = 9 := fun at_ upto =>
    if_pos (by omega)
  have first : codeLength earlyChange 0 = 9 := nine 0 (Nat.zero_le _)
  have length : (crowded count).length = count := by
    rw [crowded, List.length_map, List.length_range]
  have second : codeLength earlyChange 1 = 9 := by
    cases earlyChange <;> rfl
  have last : Written (codeLength earlyChange) most reset none 0 [7]
      (literalBits [7] ++ codeBits 9 eod) := by
    refine written_literals [7] (List.append_nil reset).symm some ?_ ?_
    · intro at_ below
      obtain rfl : at_ = 0 := by
        change at_ < 1 at below
        omega
      exact first
    · intro table prev
      rw [← second]
      exact .eod
  have middle : Written (codeLength earlyChange) most reset none 0
      (crowded count ++ [7]) (literalBits (crowded count) ++
        (codeBits 9 clearCode ++ (literalBits [7] ++ codeBits 9 eod))) := by
    refine written_literals (crowded count) (List.append_nil reset).symm ?_ ?_ ?_
    · rwa [length, Nat.zero_add]
    · rw [length, Nat.zero_add]
      exact fun at_ below => nine at_ (Nat.le_of_lt below)
    · intro table prev
      have cleared : Written (codeLength earlyChange) most table prev count [7]
          (codeBits (codeLength earlyChange count) clearCode ++ _) := .clear last
      rw [nine count (Nat.le_refl _)] at cleared
      rwa [length, Nat.zero_add]
  have whole : Written (codeLength earlyChange) most reset none 0
      (crowded count ++ [7]) (codeBits (codeLength earlyChange 0) clearCode ++ _) :=
    .clear middle
  rw [first] at whole
  exact whole

theorem encodesLzw_crowded {earlyChange : Bool} {most : Nat}
    (many : 254 ≤ most + earlyOf earlyChange) :
    EncodesLzw (codeLength earlyChange) most
      (crowded (254 - earlyOf earlyChange) ++ [7])
      (packed (crowdedBits (254 - earlyOf earlyChange))) := by
  have small : earlyOf earlyChange ≤ 1 := by
    cases earlyChange <;> decide
  obtain ⟨rest, whole⟩ :=
    bitsOf_packed (crowdedBits (254 - earlyOf earlyChange))
  exact ⟨_, rest, whole, written_crowded (by omega) (by omega) (by omega)⟩

theorem length_literalBits (bytes : Bytes) :
    (literalBits bytes).length = 9 * bytes.length := by
  induction bytes with
  | nil => rfl
  | cons b bytes ih =>
      have split : literalBits (b :: bytes) =
          codeBits 9 b.toNat ++ literalBits bytes := rfl
      rw [split, List.length_append, length_codeBits, ih, List.length_cons]
      omega

theorem lzwFrom_literals {earlyChange : Bool} {cap : Nat} (bytes : Bytes)
    {table extra : List Bytes} {prev : Option Bytes} {prevCode : Option Nat}
    {count : Nat} (starts : table = reset ++ extra)
    (behind : Behind table prev prevCode count)
    (nine : ∀ at_ < count + bytes.length, readLength earlyChange at_ = 9)
    (tail : List Bool) (rounds : Nat) {out : Bytes}
    (room : out.length + bytes.length ≤ cap) :
    ∃ table' prev' prevCode',
      Behind table' prev' prevCode' (count + bytes.length) ∧
        lzwFrom (earlyOf earlyChange) cap (rounds + bytes.length)
            ⟨table, readLength earlyChange count, prevCode, out⟩
            (literalBits bytes ++ tail) =
          lzwFrom (earlyOf earlyChange) cap rounds
            ⟨table', readLength earlyChange (count + bytes.length), prevCode',
              out ++ bytes⟩ tail := by
  induction bytes generalizing table extra prev prevCode count out with
  | nil =>
      refine ⟨table, prev, prevCode, behind, ?_⟩
      rw [List.append_nil]
      rfl
  | cons b bytes ih =>
      obtain ⟨extra', starts'⟩ := starts_tableWith starts prev [b]
      have shift : count + (b :: bytes).length = count + 1 + bytes.length := by
        rw [List.length_cons]
        omega
      have roundsShift : rounds + (b :: bytes).length =
          rounds + bytes.length + 1 := rfl
      rw [shift] at nine ⊢
      have width := nine count (by omega)
      have fits : b.toNat < 2 ^ readLength earlyChange count := by
        rw [width]
        exact Nat.lt_trans b.toNat_lt (by decide)
      have entry := entry_byte starts' b
      rw [List.length_cons] at room
      have short : (out ++ [b]).length + bytes.length ≤ cap := by
        rw [List.length_append, List.length_singleton]
        omega
      obtain ⟨table', prev', prevCode', stands, onwards⟩ :=
        ih starts' (behind_tableWith behind (List.cons_ne_nil b []) entry) nine
          short
      refine ⟨table', prev', prevCode', stands, ?_⟩
      have split : literalBits (b :: bytes) ++ tail =
          codeBits (readLength earlyChange count) b.toNat ++
            (literalBits bytes ++ tail) := by
        rw [literalBits, List.flatMap_cons, List.append_assoc, width]
        rfl
      rw [split, roundsShift,
        lzwFrom_string starts behind (List.cons_ne_nil b []) entry fits,
        if_neg (by omega), onwards, List.append_assoc]
      rfl

/-- The clear is read a bit too long, as a code that is not in the table yet. -/
theorem lzwDecode_crowded (earlyChange : Bool) :
    lzwDecode (packed (crowdedBits (254 - earlyOf earlyChange))) earlyChange 300 =
      some (crowded (254 - earlyOf earlyChange), false) := by
  have small : earlyOf earlyChange ≤ 1 := by
    cases earlyChange <;> decide
  generalize many : 254 - earlyOf earlyChange = count
  obtain ⟨rest, whole⟩ := bitsOf_packed (crowdedBits count)
  have length : (crowded count).length = count := by
    rw [crowded, List.length_map, List.length_range]
  have nine : ∀ at_ < 0 + (crowded count).length,
      readLength earlyChange at_ = 9 := by
    intro at_ below
    exact if_pos (by omega)
  have ten : readLength earlyChange (0 + (crowded count).length) = 10 := by
    rw [readLength, if_neg (by omega), if_pos (by omega)]
  have fresh : readLength earlyChange 0 = 9 := by
    cases earlyChange <;> rfl
  have bits := length_literalBits (crowded count)
  have long : (crowded count).length + 2 ≤ (crowdedBits count ++ rest).length := by
    rw [crowdedBits]
    simp only [List.length_append, bits, length_codeBits]
    omega
  obtain ⟨rounds, enough⟩ : ∃ rounds, (crowdedBits count ++ rest).length + 1 =
      rounds + 1 + (crowded count).length + 1 :=
    ⟨(crowdedBits count ++ rest).length - 1 - (crowded count).length, by omega⟩
  have room : ([] : Bytes).length + (crowded count).length ≤ 300 := by
    rw [List.length_nil]
    omega
  obtain ⟨table, prev, prevCode, behind, onwards⟩ := lzwFrom_literals
    (crowded count) (List.append_nil reset).symm (.clear length_reset) nine
    (codeBits 9 clearCode ++ (literalBits [7] ++ codeBits 9 eod) ++ rest)
    (rounds + 1) room
  have cleared : crowdedBits count ++ rest = codeBits 9 clearCode ++
      (literalBits (crowded count) ++
        (codeBits 9 clearCode ++ (literalBits [7] ++ codeBits 9 eod) ++ rest)) := by
    rw [crowdedBits]
    simp only [List.append_assoc]
  -- Ten bits that begin with the clear code.
  have misread : codeBits 9 clearCode ++ (literalBits [7] ++ codeBits 9 eod) ++
      rest = codeBits 10 512 ++
        (((literalBits [7]).drop 1 ++ codeBits 9 eod) ++ rest) := by
    rw [← List.append_assoc (codeBits 10 512)]
    rfl
  have missing : entryOf table prevCode 512 = some none := by
    have upto := behind.length_le
    unfold entryOf
    rw [if_neg (by omega), if_neg (by omega)]
  rw [lzwDecode, whole]
  change lzwFrom (earlyOf earlyChange) 300 ((crowdedBits count ++ rest).length + 1)
    ⟨reset, 9, none, []⟩ (crowdedBits count ++ rest) = _
  rw [enough, cleared, lzwFrom_code (s := ⟨reset, 9, none, []⟩)
    (special_fits (Nat.le_refl 9)).2, if_neg (by decide), if_pos rfl]
  rw [fresh, ten, misread] at onwards
  have fits : 512 < 2 ^ 10 := by decide
  rw [misread, onwards, lzwFrom_code (s := ⟨table, 10, prevCode, _⟩) fits,
    if_neg (by decide), if_neg (by decide), missing]
  rfl

/-! ## The filters -/

def ReadsBack (encodes : Bytes → Bytes → Prop)
    (decode : Bytes → Nat → Option Decoded) : Prop :=
  ∀ bytes text, encodes bytes text → ∀ cap,
    decode text cap = some (capped cap bytes)

/-- Whatever the number of codes, what is written in the lengths that are read
comes back. -/
theorem readsBack_readLength (earlyChange : Bool) (most : Nat) :
    ReadsBack (EncodesLzw (readLength earlyChange) most)
      fun text cap => lzwDecode text earlyChange cap :=
  fun _ _ encodes cap => lzwDecode_written (fun _ _ => rfl) encodes cap

theorem readsBack_lzw_iff (earlyChange : Bool) (most : Nat) :
    (ReadsBack (EncodesLzw (codeLength earlyChange) most)
        fun text cap => lzwDecode text earlyChange cap) ↔
      most + earlyOf earlyChange ≤ 253 := by
  constructor
  · intro reads
    by_cases few : most + earlyOf earlyChange ≤ 253
    · exact few
    · have back := (lzwDecode_crowded earlyChange).symm.trans
        (reads _ _ (encodesLzw_crowded (by omega)) 300)
      cases earlyChange <;> exact absurd back (by decide)
  · intro few bytes text encodes cap
    exact lzwDecode_written (readLength_codeLength few) encodes cap

/-- The filters read back whatever is written, LZW as long as no more than 253
codes, or one less, stand between two clears. -/
theorem filters_readBack (earlyChange : Bool) (most : Nat) :
    (ReadsBack EncodesHex fun text cap => some (asciiHexDecode text cap)) ∧
      (ReadsBack Encodes85 fun text cap => some (ascii85Decode text cap)) ∧
      (ReadsBack EncodesRuns fun text cap => some (runLengthDecode text cap)) ∧
      ((ReadsBack (EncodesLzw (codeLength earlyChange) most)
        fun text cap => lzwDecode text earlyChange cap) ↔
          most + earlyOf earlyChange ≤ 253) ∧
      ∀ (text : Bytes) (cap : Nat), lzwDecode text earlyChange cap ≠ none := by
  refine ⟨?_, ?_, ?_, readsBack_lzw_iff earlyChange most,
    fun text cap => lzwDecode_ne_none text earlyChange cap⟩
  · exact fun _ _ encodes cap => congrArg some (asciiHexDecode_eq encodes cap)
  · exact fun _ _ encodes cap => congrArg some (ascii85Decode_eq encodes cap)
  · exact fun _ _ encodes cap => congrArg some (runLengthDecode_eq encodes cap)

/-- In an early change the clear behind 253 codes is read a bit too long, and
the byte that follows is lost. -/
theorem lzwDecode_widened :
    EncodesLzw (codeLength true) 253 (crowded 253 ++ [7])
        (packed (crowdedBits 253)) ∧
      lzwDecode (packed (crowdedBits 253)) true 300 =
        some (crowded 253, false) :=
  ⟨encodesLzw_crowded (Nat.le_refl _), lzwDecode_crowded true⟩

end Exav.Unpack.PdfFilters
