import Exav.Bytes
import Exav.Lib.Decode
import Exav.Lib.Fields

/-!
# Unix `compress`

Codes are read least significant bit first, nine bits wide at first and wider as
the table fills, in groups of eight: where the width changes, the writer pads to
the next group.  Entries are chains in two parallel arrays, which a table clear
leaves as they are.
-/

namespace Exav.Unpack

open Exav.Decode

/-! ## Reading codes -/

def initWidth : Nat := 9

def maxWidthLimit : Nat := 16

def clearCode : Nat := 256

def firstFree : Nat := 257

/-- Where the next code is: its width, its first bit, and the place that groups
are measured from. -/
structure Cursor where
  width : Nat
  bitpos : Nat
  base : Nat

/-- The number in `w` bits from `pos` on, least significant bit first, of the
codes behind the three bytes of the header. -/
def bitsAt (data : Bytes) : (w pos : Nat) → Nat
  | 0, _ => 0
  | w + 1, pos =>
      (byteAt data (3 + pos / 8)).toNat / 2 ^ (pos % 8) % 2 +
        2 * bitsAt data w (pos + 1)

namespace Cursor

def start : Cursor where
  width := initWidth
  bitpos := 0
  base := 0

/-- Skip to the next group of eight codes, from which groups are then
measured. -/
def alignToGroup (c : Cursor) : Cursor :=
  let group := c.width * 8
  let pos := c.base + (c.bitpos - c.base + group - 1) / group * group
  { c with bitpos := pos, base := pos }

/-- Widen before reading, as the writer does once the table has `next`
entries. -/
def widen (c : Cursor) (maxWidth next : Nat) : Cursor :=
  if c.width < maxWidth ∧ 2 ^ c.width ≤ next then
    let c := c.alignToGroup
    { c with width := c.width + 1 }
  else c

def readCode (c : Cursor) (data : Bytes) (totalBits : Nat) :
    Option (Nat × Cursor) :=
  if totalBits < c.bitpos + c.width then none
  else
    some (bitsAt data c.width c.bitpos, { c with bitpos := c.bitpos + c.width })

def clear (c : Cursor) : Cursor :=
  { c.alignToGroup with width := initWidth }

end Cursor

/-! ## The decoder -/

/-- A decoder over a whole file, header included.  Entry `c` extends entry
`prefixOf c` by the byte `suffix c`; both arrays have room for `2 ^ maxWidth`
entries. -/
structure Lzw where
  data : Bytes
  maxWidth : Nat
  blockMode : Bool
  prefixOf : Nat → Nat
  suffix : Nat → UInt8
  next : Nat
  prev : Option Nat
  cursor : Cursor
  totalBits : Nat

namespace Lzw

def tableCap (s : Lzw) : Nat := 2 ^ s.maxWidth

/-- The decoder of a file, if its header is usable. -/
def new (data : Bytes) : Option Lzw :=
  if data.length < 3 then none
  else
    let flags := (byteAt data 2).toNat
    let maxWidth := flags % 32
    let blockMode := decide (128 ≤ flags)
    if maxWidth < initWidth ∨ maxWidthLimit < maxWidth then none
    else
      some {
        data, maxWidth, blockMode
        prefixOf := fun _ => 0
        suffix := fun _ => 0
        next := if blockMode then firstFree else clearCode
        prev := none
        cursor := .start
        totalBits := (data.length - 3) * 8 }

/-- Start over with an empty table. -/
def clear (s : Lzw) : Lzw :=
  { s with cursor := s.cursor.clear, next := firstFree, prev := none }

/-- The next code that is not a table clear.  Every round reads on, so there are
no more of them than bits. -/
def codeFrom : (rounds : Nat) → Lzw → Option Nat × Lzw
  | 0, s => (none, s)
  | rounds + 1, s =>
      let cursor := s.cursor.widen s.maxWidth s.next
      match cursor.readCode s.data s.totalBits with
      | none => (none, { s with cursor })
      | some (code, cursor) =>
          if s.blockMode ∧ code = clearCode then
            codeFrom rounds { s with cursor }.clear
          else (some code, { s with cursor })

def nextCode (s : Lzw) : Option Nat × Lzw :=
  s.codeFrom (s.totalBits + 1)

/-- Walk the chain of `cur`, at most `left` entries of it, in front of `out`. -/
def walk (s : Lzw) : (left cur : Nat) → Bytes → Option Bytes
  | 0, cur, out => if cur < 256 then some (UInt8.ofNat cur :: out) else none
  | left + 1, cur, out =>
      if cur < 256 then some (UInt8.ofNat cur :: out)
      else if s.tableCap ≤ cur then none
      else s.walk left (s.prefixOf cur) (s.suffix cur :: out)

def firstByte (s : Lzw) : (left c : Nat) → UInt8
  | 0, c => if c < 256 then UInt8.ofNat c else 0
  | left + 1, c =>
      if c < 256 then UInt8.ofNat c
      else if s.tableCap ≤ c then 0
      else s.firstByte left (s.prefixOf c)

/-- The string of a code.  One that is no entry is taken for the entry being
defined. -/
def expand (s : Lzw) (code : Nat) : Option Bytes :=
  if s.next ≤ code then
    s.prev.bind fun p =>
      s.walk (s.tableCap + 1) p [s.firstByte (s.tableCap + 1) p]
  else s.walk (s.tableCap + 1) code []

def define (s : Lzw) (code : Nat) (out : Bytes) : Lzw :=
  match s.prev with
  | some p =>
      if s.next < s.tableCap then
        { s with
          prefixOf := Function.update s.prefixOf s.next p
          suffix := Function.update s.suffix s.next (out.head?.getD 0)
          next := s.next + 1
          prev := some code }
      else { s with prev := some code }
  | none => { s with prev := some code }

def step (s : Lzw) : Stepped Unit UInt8 × Lzw :=
  match s.nextCode with
  | (none, s) => (.ended, s)
  | (some code, s) =>
      match s.expand code with
      | none => (.failed (), s)
      | some out => (.emitted out, s.define code out)

end Lzw

/-! ## Reading what is decoded -/

/-- Decoded bytes are staged, and handed out from there. -/
structure LzwReader where
  lzw : Lzw
  staged : Bytes
  taken : Nat
  done : Bool

def malformedZ : String := "malformed Unix compress (.Z) stream"

def stageBytes : Nat := 4096

namespace LzwReader

/-- The content of a file, if its header is usable. -/
def new (data : Bytes) : Option LzwReader :=
  (Lzw.new data).map fun lzw =>
    { lzw, staged := [], taken := 0, done := false }

/-- Stage strings until there are enough bytes.  Every string has a byte at
least, so there are no more of them. -/
def stageFrom : (rounds : Nat) → LzwReader → Except String Unit × LzwReader
  | 0, r => (.ok (), r)
  | rounds + 1, r =>
      if r.staged.length < stageBytes then
        match r.lzw.step with
        | (.emitted out, lzw) =>
            stageFrom rounds { r with lzw, staged := r.staged ++ out }
        | (.ended, lzw) => (.ok (), { r with lzw, done := true })
        | (.failed (), lzw) => (.error malformedZ, { r with lzw })
      else (.ok (), r)

/-- Stage more, if all that was is handed out and there may be more.  What
comes of it is not empty unless nothing is left, so once is enough. -/
def refill (r : LzwReader) : Except String Unit × LzwReader :=
  if r.taken = r.staged.length ∧ !r.done then
    stageFrom stageBytes { r with staged := [], taken := 0 }
  else (.ok (), r)

/-- Up to `size` decoded bytes. -/
def read (r : LzwReader) (size : Nat) : Except String Bytes × LzwReader :=
  match r.refill with
  | (.error e, r) => (.error e, r)
  | (.ok (), r) =>
      let n := min (r.staged.length - r.taken) size
      (.ok (window r.staged r.taken n), { r with taken := r.taken + n })

end LzwReader

/-!
## A table of strings

`Strings` is LZW as `compress` describes it: a code stands for a string, and
each code defines the next one as the string before it and its own first byte.
The codes are digits of one long number, in segments of one width that start at
groups of eight.  A decoder `Follows` it while the chains in its arrays spell
the strings of the table, whatever else is left in them.
-/

open Exav.Decode Exav.Fields

/-! ## The codes -/

/-- Codes of one width: the byte they start at, behind the header, and how many
have been read. -/
structure Segment where
  width : Nat
  start : Nat
  codes : Nat

namespace Segment

def first : Segment where
  width := initWidth
  start := 0
  codes := 0

/-- The segment behind the groups of eight that this one has begun. -/
def followedBy (g : Segment) (width : Nat) : Segment where
  width := width
  start := g.start + (g.codes + 7) / 8 * g.width
  codes := 0

def bit (g : Segment) : Nat := 8 * g.start + g.codes * g.width

/-- The segment of the next code, for a table of `next` entries. -/
def grow (g : Segment) (maxWidth next : Nat) : Segment :=
  if g.width < maxWidth ∧ 2 ^ g.width ≤ next then g.followedBy (g.width + 1)
  else g

def code (g : Segment) (input : Bytes) : Option Nat :=
  if g.bit + g.width ≤ 8 * input.length then
    some (ofLe input / 2 ^ g.bit % 2 ^ g.width)
  else none

def read (g : Segment) : Segment := { g with codes := g.codes + 1 }

def cursor (g : Segment) : Cursor where
  width := g.width
  bitpos := g.bit
  base := 8 * g.start

@[simp] theorem width_cursor (g : Segment) : g.cursor.width = g.width := rfl

@[simp] theorem bitpos_cursor (g : Segment) : g.cursor.bitpos = g.bit := rfl

theorem cursor_first : first.cursor = Cursor.start := rfl

end Segment

theorem groups_mul {width : Nat} (wide : 0 < width) (codes : Nat) :
    (codes * width + width * 8 - 1) / (width * 8) * (width * 8) =
      8 * ((codes + 7) / 8 * width) := by
  have groups : (codes * width + width * 8 - 1) / (width * 8) =
      (codes + 7) / 8 := by
    have ceil : ∀ n, 0 < n → (codes * width + n - 1) / width / 8 =
        (codes * width + n - 1) / (width * 8) := by
      intro n _
      rw [Nat.div_div_eq_div_mul]
    have inner : (codes * width + width * 8 - 1) / width = codes + 7 := by
      rw [Nat.div_eq_iff wide]
      constructor
      · rw [Nat.add_mul]
        omega
      · rw [Nat.add_mul]
        omega
    rw [← ceil _ (by omega), inner]
  rw [groups]
  calc (codes + 7) / 8 * (width * 8) = (codes + 7) / 8 * width * 8 := by
        rw [Nat.mul_assoc]
    _ = 8 * ((codes + 7) / 8 * width) := Nat.mul_comm _ _

theorem alignToGroup_cursor {g : Segment} (wide : 0 < g.width) :
    g.cursor.alignToGroup = { (g.followedBy g.width).cursor with
      width := g.width } := by
  have past : 8 * g.start + g.codes * g.width - 8 * g.start =
      g.codes * g.width := Nat.add_sub_cancel_left _ _
  unfold Cursor.alignToGroup
  simp only [Segment.bit, past, groups_mul wide, Segment.followedBy,
    Segment.cursor, Nat.zero_mul, Nat.add_zero, Nat.mul_add]

theorem widen_cursor {g : Segment} (wide : 0 < g.width) (maxWidth next : Nat) :
    g.cursor.widen maxWidth next = (g.grow maxWidth next).cursor := by
  unfold Cursor.widen Segment.grow
  rw [Segment.width_cursor]
  split
  · rw [alignToGroup_cursor wide]
    rfl
  · rfl

theorem clear_cursor {g : Segment} (wide : 0 < g.width) :
    g.cursor.clear = (g.followedBy initWidth).cursor := by
  unfold Cursor.clear
  rw [alignToGroup_cursor wide]
  simp only [Segment.cursor, Segment.bit, Segment.followedBy, Nat.zero_mul]

/-! ### Digits -/

theorem ofLe_div_mod (bytes : Bytes) (k : Nat) :
    ofLe bytes / 256 ^ k % 256 = (bytes[k]?.getD 0).toNat := by
  induction k generalizing bytes with
  | zero =>
      cases bytes with
      | nil => rfl
      | cons b bytes =>
          have small : b.toNat < 256 := b.toNat_lt
          rw [Nat.pow_zero, Nat.div_one, ofLe, Nat.add_mul_mod_self_left,
            Nat.mod_eq_of_lt small]
          rfl
  | succ k ih =>
      cases bytes with
      | nil => simp [ofLe]
      | cons b bytes =>
          have small : b.toNat < 256 := b.toNat_lt
          have shift : ofLe (b :: bytes) / 256 ^ (k + 1) =
              ofLe bytes / 256 ^ k := by
            rw [Nat.pow_succ, Nat.mul_comm, ← Nat.div_div_eq_div_mul, ofLe,
              Nat.add_mul_div_left _ _ (by decide), Nat.div_eq_of_lt small,
              Nat.zero_add]
          rw [shift, ih, List.getElem?_cons_succ]

theorem ofLe_bit (bytes : Bytes) (pos : Nat) :
    ofLe bytes / 2 ^ pos % 2 =
      (bytes[pos / 8]?.getD 0).toNat / 2 ^ (pos % 8) % 2 := by
  have parts : 2 ^ pos = 256 ^ (pos / 8) * 2 ^ (pos % 8) := by
    have byte : (256 : Nat) = 2 ^ 8 := rfl
    rw [byte, ← Nat.pow_mul, ← Nat.pow_add, Nat.div_add_mod]
  have low : ∀ n r : Nat, r < 8 → n % 256 / 2 ^ r % 2 = n / 2 ^ r % 2 := by
    intro n r small
    have fits : (256 : Nat) = 2 ^ r * 2 ^ (8 - r) := by
      rw [← Nat.pow_add, Nat.add_sub_cancel' (Nat.le_of_lt small)]
    have even : 2 ^ (8 - r) = 2 * 2 ^ (7 - r) := by
      rw [← Nat.pow_succ']
      congr 1
      omega
    rw [fits, Nat.mod_mul_right_div_self, even, Nat.mod_mul_right_mod]
  rw [parts, ← Nat.div_div_eq_div_mul, ← ofLe_div_mod,
    low _ _ (Nat.mod_lt _ (by decide))]

theorem bitsAt_eq (data : Bytes) (width pos : Nat) :
    bitsAt data width pos = ofLe (data.drop 3) / 2 ^ pos % 2 ^ width := by
  induction width generalizing pos with
  | zero => rw [bitsAt, Nat.pow_zero, Nat.mod_one]
  | succ width ih =>
      have bit : (byteAt data (3 + pos / 8)).toNat / 2 ^ (pos % 8) % 2 =
          ofLe (data.drop 3) / 2 ^ pos % 2 := by
        rw [ofLe_bit, byteAt_eq, List.getElem?_drop]
      have split : ∀ n, n % 2 ^ (width + 1) = n % 2 + 2 * (n / 2 % 2 ^ width) := by
        intro n
        rw [Nat.pow_succ', Nat.mod_mul]
      rw [bitsAt, bit, ih, split, Nat.div_div_eq_div_mul, Nat.pow_succ]

theorem readCode_cursor (g : Segment) (data : Bytes) :
    g.cursor.readCode data ((data.length - 3) * 8) =
      (g.code (data.drop 3)).map (·, g.read.cursor) := by
  have next : g.read.cursor =
      { g.cursor with bitpos := g.cursor.bitpos + g.cursor.width } := by
    simp only [Segment.read, Segment.cursor, Segment.bit, Nat.succ_mul,
      Nat.add_assoc]
  unfold Cursor.readCode Segment.code
  rw [bitsAt_eq, List.length_drop, next, Segment.width_cursor,
    Segment.bitpos_cursor, Nat.mul_comm 8]
  by_cases short : (data.length - 3) * 8 < g.bit + g.width
  · rw [if_pos short, if_neg (Nat.not_le_of_lt short)]
    rfl
  · rw [if_neg short, if_pos (Nat.not_lt.mp short)]
    rfl

/-! ## The decoder -/

structure Strings where
  input : Bytes
  maxWidth : Nat
  blockMode : Bool
  table : List Bytes
  prev : Option Bytes
  segment : Segment

namespace Strings

/-- The decoder of a file: the header gives the greatest width and whether a
code clears the table. -/
def new (file : Bytes) : Option Strings :=
  if file.length < 3 then none
  else
    let flags := (byteAt file 2).toNat
    if flags % 32 < initWidth ∨ maxWidthLimit < flags % 32 then none
    else
      some {
        input := file.drop 3
        maxWidth := flags % 32
        blockMode := decide (128 ≤ flags)
        table := []
        prev := none
        segment := .first }

def first (t : Strings) : Nat := if t.blockMode then firstFree else clearCode

def next (t : Strings) : Nat := t.first + t.table.length

def clear (t : Strings) : Strings :=
  { t with segment := t.segment.followedBy initWidth, table := [], prev := none }

def codeFrom : (rounds : Nat) → Strings → Option Nat × Strings
  | 0, t => (none, t)
  | rounds + 1, t =>
      let segment := t.segment.grow t.maxWidth t.next
      match segment.code t.input with
      | none => (none, { t with segment })
      | some code =>
          if t.blockMode ∧ code = clearCode then
            codeFrom rounds { t with segment := segment.read }.clear
          else (some code, { t with segment := segment.read })

def nextCode (t : Strings) : Option Nat × Strings :=
  t.codeFrom (8 * t.input.length + 1)

def entry (t : Strings) (code : Nat) : Option Bytes :=
  if code < 256 then some [UInt8.ofNat code]
  else if code < t.first then none
  else t.table[code - t.first]?

/-- The string of a code, which may be the one being defined. -/
def expand (t : Strings) (code : Nat) : Option Bytes :=
  if code = t.next then t.prev.map fun w => w ++ w.take 1 else t.entry code

def define (t : Strings) (out : Bytes) : Strings :=
  match t.prev with
  | some w =>
      if t.next < 2 ^ t.maxWidth then
        { t with table := t.table ++ [w ++ out.take 1], prev := some out }
      else { t with prev := some out }
  | none => { t with prev := some out }

def step (t : Strings) : Stepped Unit UInt8 × Strings :=
  match t.nextCode with
  | (none, t) => (.ended, t)
  | (some code, t) =>
      match t.expand code with
      | none => (.failed (), t)
      | some out => (.emitted out, t.define out)

/-- The next code, after a string to extend, is above the one that it would
define. -/
def Jumps (t : Strings) : Prop :=
  ∃ code after, t.nextCode = (some code, after) ∧ after.prev.isSome ∧
    after.next < code

end Strings

/-! ## Chains -/

/-- The chain of a code goes down, and spells a string. -/
inductive Spells (prefixOf : Nat → Nat) (suffix : Nat → UInt8) :
    Nat → Bytes → Prop where
  | byte {code : Nat} (low : code < 256) :
      Spells prefixOf suffix code [UInt8.ofNat code]
  | entry {code : Nat} {w : Bytes} (high : 256 ≤ code)
      (below : prefixOf code < code)
      (front : Spells prefixOf suffix (prefixOf code) w) :
      Spells prefixOf suffix code (w ++ [suffix code])

namespace Spells

variable {prefixOf : Nat → Nat} {suffix : Nat → UInt8} {code : Nat} {w : Bytes}

theorem ne_nil (spells : Spells prefixOf suffix code w) : w ≠ [] := by
  cases spells with
  | byte => exact List.cons_ne_nil _ _
  | entry => exact List.append_ne_nil_of_right_ne_nil _ (List.cons_ne_nil _ _)

theorem update (spells : Spells prefixOf suffix code w) {at_ : Nat}
    (below : code < at_) (p : Nat) (b : UInt8) :
    Spells (Function.update prefixOf at_ p) (Function.update suffix at_ b)
      code w := by
  induction spells with
  | byte low => exact .byte low
  | @entry code w high down _ ih =>
      have other : code ≠ at_ := Nat.ne_of_lt below
      have same : Function.update prefixOf at_ p code = prefixOf code :=
        Function.update_of_ne other _ _
      have last : Function.update suffix at_ b code = suffix code :=
        Function.update_of_ne other _ _
      rw [← last]
      apply Spells.entry high
      · rw [same]
        exact down
      · rw [same]
        exact ih (Nat.lt_trans down below)

/-- The entry being defined spells the string before and one byte. -/
theorem define (spells : Spells prefixOf suffix code w) {at_ : Nat}
    (below : code < at_) (high : 256 ≤ at_) (b : UInt8) :
    Spells (Function.update prefixOf at_ code) (Function.update suffix at_ b)
      at_ (w ++ [b]) := by
  have extended : Spells (Function.update prefixOf at_ code)
      (Function.update suffix at_ b)
      (Function.update prefixOf at_ code at_) w := by
    rw [Function.update_self]
    exact spells.update below code b
  have down : Function.update prefixOf at_ code at_ < at_ := by
    rw [Function.update_self]
    exact below
  have last := Spells.entry high down extended
  rwa [Function.update_self] at last

end Spells

namespace Lzw

theorem walk_spelled {s : Lzw} {code : Nat} {w : Bytes}
    (spells : Spells s.prefixOf s.suffix code w) (inside : code < s.tableCap)
    {left : Nat} (enough : code < 256 + left) (out : Bytes) :
    s.walk left code out = some (w ++ out) := by
  induction spells generalizing left out with
  | byte low =>
      cases left with
      | zero => exact if_pos low
      | succ left => exact if_pos low
  | @entry code w high below _ ih =>
      cases left with
      | zero => exact absurd enough (Nat.not_lt.mpr high)
      | succ left =>
          rw [walk, if_neg (Nat.not_lt.mpr high),
            if_neg (Nat.not_le.mpr inside),
            ih (Nat.lt_trans below inside) (by omega), List.append_assoc]
          rfl

theorem firstByte_spelled {s : Lzw} {code : Nat} {w : Bytes}
    (spells : Spells s.prefixOf s.suffix code w) (inside : code < s.tableCap)
    {left : Nat} (enough : code < 256 + left) :
    w.head? = some (s.firstByte left code) := by
  induction spells generalizing left with
  | byte low =>
      cases left with
      | zero => exact congrArg some (if_pos low).symm
      | succ left => exact congrArg some (if_pos low).symm
  | @entry code w high below front ih =>
      cases left with
      | zero => exact absurd enough (Nat.not_lt.mpr high)
      | succ left =>
          rw [firstByte, if_neg (Nat.not_lt.mpr high),
            if_neg (Nat.not_le.mpr inside),
            ← ih (Nat.lt_trans below inside) (by omega)]
          exact List.head?_append_of_ne_nil w front.ne_nil

theorem walk_cap {s : Lzw} {code : Nat} {w : Bytes}
    (spells : Spells s.prefixOf s.suffix code w) (inside : code < s.tableCap)
    (out : Bytes) : s.walk (s.tableCap + 1) code out = some (w ++ out) := by
  apply walk_spelled spells inside
  omega

theorem firstByte_cap {s : Lzw} {code : Nat} {w : Bytes}
    (spells : Spells s.prefixOf s.suffix code w) (inside : code < s.tableCap) :
    w.head? = some (s.firstByte (s.tableCap + 1) code) := by
  apply firstByte_spelled spells inside
  omega

end Lzw

end Exav.Unpack
