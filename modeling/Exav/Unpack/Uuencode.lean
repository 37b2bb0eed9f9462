import Exav.Daemon.Session
import Exav.Unpack.Budget
import Exav.Lib.Trim

/-!
# uuencode

A file stands between a `begin` and an `end` line.  A line of data is its length
and groups of four characters for three bytes; a space and a backtick both stand
for zero.  A body in Base64 has a line of `====` at its end.
-/

namespace Exav.Unpack

open Exav.Daemon (isWhitespace trim)

/-! ## Lines of data -/

/-- Decode one character. -/
def uuDec (c : UInt8) : UInt8 := (c - 0x20) &&& 0x3F

/-- The three bytes of four characters. -/
def uuGroup (c0 c1 c2 c3 : UInt8) : Bytes :=
  [c0 <<< 2 ||| c1 >>> 4, c1 <<< 4 ||| c2 >>> 2, c2 <<< 6 ||| c3]

/-- The groups of a line from `i` on, until `want` bytes are there or the line
is exhausted.  Missing trailing characters decode as zero. -/
def uuGroups (body : Bytes) : (rounds i want : Nat) → Bytes
  | 0, _, _ => []
  | rounds + 1, i, want =>
      if want = 0 then []
      else
        let char := fun j => uuDec (body[i + j]?.getD 0x20)
        let group := (uuGroup (char 0) (char 1) (char 2) (char 3)).take want
        if body.length < i + 4 then group
        else group ++ uuGroups body rounds (i + 4) (want - 3)

def decodeUuLine (line out : Bytes) : Bytes :=
  match line with
  | [] => out
  | c :: body => out ++ uuGroups body (uuDec c).toNat 0 (uuDec c).toNat

/-! ## Lines of text -/

def isAsciiWhitespace (b : UInt8) : Bool :=
  b == 0x20 || b == 0x09 || b == 0x0A || b == 0x0C || b == 0x0D

def trimAsciiStart (b : Bytes) : Bytes := b.dropWhile isAsciiWhitespace

def trimAscii (b : Bytes) : Bytes :=
  (trimAsciiStart b).rdropWhile isAsciiWhitespace

def splitLines : Bytes → List Bytes
  | [] => [[]]
  | b :: data =>
      if b = 0x0A then [] :: splitLines data
      else
        match splitLines data with
        | [] => [[b]]
        | line :: rest => (b :: line) :: rest

def stripCr (line : Bytes) : Bytes :=
  if line.getLast? = some 0x0D then line.dropLast else line

def uuLines (data : Bytes) : List Bytes := (splitLines data).map stripCr

def beginBase64 : Bytes :=
  [0x62, 0x65, 0x67, 0x69, 0x6E, 0x2D, 0x62, 0x61, 0x73, 0x65, 0x36, 0x34, 0x20]

def beginClassic : Bytes := [0x62, 0x65, 0x67, 0x69, 0x6E, 0x20]

def endLine : Bytes := [0x65, 0x6E, 0x64]

def beginOf (line : Bytes) : Option (Bool × Bytes) :=
  let trimmed := trimAsciiStart line
  if beginBase64 <+: trimmed then some (true, trimmed.drop beginBase64.length)
  else if beginClassic <+: trimmed then
    some (false, trimmed.drop beginClassic.length)
  else none

/-- The file name behind the mode, without its path. -/
def parseBeginName (rest : Bytes) : String :=
  let s := trim (fromUtf8Lossy rest).toList
  let name := (s.dropWhile fun c => !isWhitespace c).drop 1
  let bar := fun c => c == '/' || c == '\\' || c == '\x00'
  let name := ((trim name).dropWhile bar).rdropWhile bar
  let base := trim (name.rtakeWhile fun c => !(c == '/' || c == '\\'))
  if base.isEmpty then "uudecoded.bin" else String.ofList base

/-! ## Members -/

def overUuBudget (name : String) : LimitHit :=
  .new s!"uuencode member '{name}' exceeds budget"

/-- A classic body: every line up to `end`, a line that is blank or of no bytes,
or the last; and the lines behind it. -/
def classicBody (name : String) (cap : Nat) :
    List Bytes → Bytes → Except LimitHit Bytes × List Bytes
  | [], out => (.ok out, [])
  | line :: rest, out =>
      let t := trimAscii line
      if t = endLine ∨ t = [] ∨ uuDec (byteAt t 0) = 0 then (.ok out, rest)
      else
        let out := decodeUuLine t out
        if cap < out.length then (.error (overUuBudget name), rest)
        else classicBody name cap rest out

/-- The characters of a body in Base64. -/
def base64Chars (name : String) (cap : Nat) :
    List Bytes → Bytes → Except LimitHit Bytes × List Bytes
  | [], b64 => (.ok b64, [])
  | line :: rest, b64 =>
      let t := trimAscii line
      if [0x3D, 0x3D, 0x3D, 0x3D] <+: t then (.ok b64, rest)
      else
        let b64 := b64 ++ t.filter fun b => !isAsciiWhitespace b
        if cap * 2 + 64 < b64.length then (.error (overUuBudget name), rest)
        else base64Chars name cap rest b64

section

variable (decode64 : Bytes → Except String Bytes)

def base64Body (name : String) (cap : Nat) (lines : List Bytes) :
    Except LimitHit Bytes × List Bytes :=
  match base64Chars name cap lines [] with
  | (.error hit, rest) => (.error hit, rest)
  | (.ok b64, rest) =>
      match decode64 b64 with
      | .error e => (.error (.malformed s!"uuencode base64: {e}"), rest)
      | .ok out =>
          if cap < out.length then (.error (overUuBudget name), rest)
          else (.ok out, rest)

/-- The members that a visitor that wants all of them is given, and the budget
left or what stopped it. -/
def extractUuLines : (rounds : Nat) → List Bytes → Budget →
    List Entry × Except LimitHit Budget
  | 0, _, b => ([], .ok b)
  | _ + 1, [], b => ([], .ok b)
  | rounds + 1, line :: rest, b =>
      match beginOf line with
      | none => extractUuLines rounds rest b
      | some (base64, header) =>
          let name := parseBeginName header
          match b.countEntry with
          | .error hit => ([], .error hit)
          | .ok b =>
              match b.reserve with
              | .error hit => ([], .error hit)
              | .ok cap =>
                  match if base64 then base64Body decode64 name cap rest
                    else classicBody name cap rest [] with
                  | (.error hit, _) => ([], .error hit)
                  | (.ok out, rest) =>
                      let (entries, result) :=
                        extractUuLines rounds rest (b.commit out.length)
                      (.new name out :: entries, result)

/-- The members of a text.  Each takes a line at least. -/
def extractUuencode (data : Bytes) (b : Budget) :
    List Entry × Except LimitHit Budget :=
  extractUuLines decode64 (uuLines data).length (uuLines data) b

end

/-!
## Texts of files

A file is written as lines of at most 63 bytes, six bits a character.  A reader
may have stripped the blanks at the end of a line, which in a line of data stand
for zeros; `decodeUuLine` gives at most one group for what is missing.
-/

open Exav.Trim

/-! ## Characters -/

/-- A character for six bits: a space or a backtick for zero. -/
def CharOf (v : Nat) (c : UInt8) : Prop :=
  v < 64 ∧ (c = UInt8.ofNat (v + 0x20) ∨ v = 0 ∧ c = 0x60)

/-- The sextets of three bytes. -/
def sextets (a b c : UInt8) : List Nat :=
  [a.toNat / 4, a.toNat % 4 * 16 + b.toNat / 16,
    b.toNat % 16 * 4 + c.toNat / 64, c.toNat % 64]

/-- The sextets of a line, padded with zeros to whole groups. -/
def lineSextets : Bytes → List Nat
  | [] => []
  | [a] => sextets a 0 0
  | [a, b] => sextets a b 0
  | a :: b :: c :: data => sextets a b c ++ lineSextets data

structure LineOf (data line : Bytes) : Prop where
  some_bytes : data ≠ []
  short : data.length < 64
  text : List.Forall₂ CharOf (data.length :: lineSextets data) line

/-- A line as it is found: blanks at its end may have been stripped. -/
def Stripped (line shown : Bytes) : Prop :=
  ∃ blanks, line = shown ++ List.replicate blanks 0x20

theorem uuDec_of_lt : ∀ v < 64, uuDec (UInt8.ofNat (v + 0x20)) = UInt8.ofNat v := by
  decide

theorem CharOf.uuDec_eq {v : Nat} {c : UInt8} (char : CharOf v c) :
    uuDec c = UInt8.ofNat v := by
  obtain ⟨small, rfl | ⟨rfl, rfl⟩⟩ := char
  · exact uuDec_of_lt v small
  · decide

theorem CharOf.toNat_uuDec {v : Nat} {c : UInt8} (char : CharOf v c) :
    (uuDec c).toNat = v := by
  rw [char.uuDec_eq, UInt8.toNat_ofNat']
  have small := char.1
  omega

/-- Of the characters, only the space is white. -/
theorem whitespace_of_lt : ∀ v < 64,
    isAsciiWhitespace (UInt8.ofNat (v + 0x20)) = (v == 0) := by
  decide

theorem CharOf.whitespace {v : Nat} {c : UInt8} (char : CharOf v c) :
    isAsciiWhitespace c = (c == 0x20) := by
  obtain ⟨small, rfl | ⟨rfl, rfl⟩⟩ := char
  · rw [whitespace_of_lt v small]
    revert v
    decide
  · decide

/-! ## Groups -/

theorem or_shifted {a b k : Nat} (small : b < 2 ^ k) :
    UInt8.ofNat (a * 2 ^ k) ||| UInt8.ofNat b = UInt8.ofNat (a * 2 ^ k + b) := by
  rw [← UInt8.ofNat_or, Nat.mul_comm, ← Nat.two_pow_add_eq_or_of_lt small]

theorem ofNat_shiftLeft (x : Nat) (k : UInt8) :
    UInt8.ofNat x <<< k = UInt8.ofNat (x * 2 ^ (k.toNat % 8)) := by
  apply UInt8.toNat_inj.mp
  rw [UInt8.toNat_shiftLeft, UInt8.toNat_ofNat', UInt8.toNat_ofNat',
    Nat.shiftLeft_eq]
  exact Nat.mod_mul_mod ..

theorem ofNat_shiftRight {y : Nat} (small : y < 256) (k : UInt8) :
    UInt8.ofNat y >>> k = UInt8.ofNat (y / 2 ^ (k.toNat % 8)) := by
  apply UInt8.toNat_inj.mp
  rw [UInt8.toNat_shiftRight, UInt8.toNat_ofNat', UInt8.toNat_ofNat',
    Nat.shiftRight_eq_div_pow, Nat.mod_eq_of_lt small,
    Nat.mod_eq_of_lt (Nat.lt_of_le_of_lt (Nat.div_le_self _ _) small)]

/-- Of a number shifted up only the lower bits are left. -/
theorem ofNat_mod_mul (x : Nat) {low high : Nat} (byte : low * high = 256) :
    UInt8.ofNat (x * high) = UInt8.ofNat (x % low * high) := by
  apply UInt8.toNat_inj.mp
  rw [UInt8.toNat_ofNat', UInt8.toNat_ofNat', show 2 ^ 8 = low * high from byte.symm,
    Nat.mul_mod_mul_right, Nat.mul_mod_mul_right, Nat.mod_mod]

theorem group_first : ∀ x < 64, ∀ y < 64,
    (UInt8.ofNat x <<< 2 ||| UInt8.ofNat y >>> 4) =
      UInt8.ofNat (x * 4 + y / 16) := by
  intro x _ y upper
  rw [ofNat_shiftLeft, ofNat_shiftRight (by omega)]
  exact or_shifted (k := 2) (show y / 16 < 2 ^ 2 by omega)

theorem group_second : ∀ x < 64, ∀ y < 64,
    (UInt8.ofNat x <<< 4 ||| UInt8.ofNat y >>> 2) =
      UInt8.ofNat (x % 16 * 16 + y / 4) := by
  intro x _ y upper
  rw [ofNat_shiftLeft, ofNat_shiftRight (by omega)]
  change UInt8.ofNat (x * 16) ||| UInt8.ofNat (y / 4) = _
  rw [ofNat_mod_mul x (show 16 * 16 = 256 from rfl)]
  exact or_shifted (k := 4) (show y / 4 < 2 ^ 4 by omega)

theorem group_third : ∀ x < 64, ∀ y < 64,
    (UInt8.ofNat x <<< 6 ||| UInt8.ofNat y) =
      UInt8.ofNat (x % 4 * 64 + y) := by
  intro x _ y upper
  rw [ofNat_shiftLeft]
  change UInt8.ofNat (x * 64) ||| UInt8.ofNat y = _
  rw [ofNat_mod_mul x (show 4 * 64 = 256 from rfl)]
  exact or_shifted (k := 6) upper

/-- A group gives back its three bytes. -/
theorem uuGroup_sextets (a b c : UInt8) :
    uuGroup (UInt8.ofNat (a.toNat / 4))
      (UInt8.ofNat (a.toNat % 4 * 16 + b.toNat / 16))
      (UInt8.ofNat (b.toNat % 16 * 4 + c.toNat / 64))
      (UInt8.ofNat (c.toNat % 64)) = [a, b, c] := by
  have a_small : a.toNat < 256 := a.toNat_lt
  have b_small : b.toNat < 256 := b.toNat_lt
  have c_small : c.toNat < 256 := c.toNat_lt
  have first : a.toNat / 4 * 4 + (a.toNat % 4 * 16 + b.toNat / 16) / 16 =
      a.toNat := by omega
  have second : (a.toNat % 4 * 16 + b.toNat / 16) % 16 * 16 +
      (b.toNat % 16 * 4 + c.toNat / 64) / 4 = b.toNat := by omega
  have third : (b.toNat % 16 * 4 + c.toNat / 64) % 4 * 64 + c.toNat % 64 =
      c.toNat := by omega
  unfold uuGroup
  rw [group_first _ (by omega) _ (by omega),
    group_second _ (by omega) _ (by omega),
    group_third _ (by omega) _ (by omega), first, second, third,
    UInt8.ofNat_toNat, UInt8.ofNat_toNat, UInt8.ofNat_toNat]

theorem uuGroups_zero (body : Bytes) (rounds i : Nat) :
    uuGroups body rounds i 0 = [] := by
  cases rounds <;> rfl

/-- The characters that a line has from `i` on, where missing ones are
spaces. -/
def ReadsAs (body : Bytes) (i : Nat) (text : Bytes) : Prop :=
  ∀ j, body[i + j]?.getD 0x20 = text[j]?.getD 0x20

theorem ReadsAs.skip {body text : Bytes} {i : Nat} {c0 c1 c2 c3 : UInt8}
    (reads : ReadsAs body i (c0 :: c1 :: c2 :: c3 :: text)) :
    ReadsAs body (i + 4) text := by
  intro j
  have here := reads (j + 4)
  rw [← Nat.add_assoc, Nat.add_right_comm] at here
  exact here

theorem uuGroups_group {body text : Bytes} {rounds i want : Nat}
    {a b c : UInt8} {data : Bytes}
    (text_of : List.Forall₂ CharOf (sextets a b c ++ lineSextets data) text)
    (reads : ReadsAs body i text) (wanted : 0 < want) :
    ∃ text', List.Forall₂ CharOf (lineSextets data) text' ∧
      ReadsAs body (i + 4) text' ∧
      uuGroups body (rounds + 1) i want = ([a, b, c] : Bytes).take want ++
        if body.length < i + 4 then []
        else uuGroups body rounds (i + 4) (want - 3) := by
  cases text_of with
  | cons h0 text_of =>
      cases text_of with
      | cons h1 text_of =>
          cases text_of with
          | cons h2 text_of =>
              cases text_of with
              | cons h3 text_of =>
                  refine ⟨_, text_of, reads.skip, ?_⟩
                  have group := uuGroup_sextets a b c
                  rw [← h0.uuDec_eq, ← h1.uuDec_eq, ← h2.uuDec_eq,
                    ← h3.uuDec_eq] at group
                  have some_left : want ≠ 0 := Nat.ne_of_gt wanted
                  rw [uuGroups, if_neg some_left]
                  dsimp only
                  rw [reads 0, reads 1, reads 2, reads 3]
                  dsimp only [List.getElem?_cons_zero,
                    List.getElem?_cons_succ, Option.getD_some]
                  rw [group]
                  split
                  · rw [List.append_nil]
                  · rfl

theorem uuGroups_eq {data body text : Bytes} {rounds i : Nat}
    (enough : data.length ≤ rounds) (inside : i ≤ body.length)
    (text_of : List.Forall₂ CharOf (lineSextets data) text)
    (reads : ReadsAs body i text) :
    uuGroups body rounds i data.length =
      data.take (3 * ((body.length - i) / 4 + 1)) := by
  have some_taken : 3 ≤ 3 * ((body.length - i) / 4 + 1) := by omega
  induction data using lineSextets.induct generalizing rounds i text with
  | case1 =>
      rw [List.length_nil, uuGroups_zero, List.take_nil]
  | case2 a =>
      obtain ⟨rounds, rfl⟩ : ∃ r, rounds = r + 1 :=
        Nat.exists_eq_succ_of_ne_zero (Nat.ne_of_gt enough)
      obtain ⟨_, _, _, group⟩ := @uuGroups_group body text rounds i 1 a 0 0 []
        text_of reads Nat.one_pos
      have whole : ([a] : Bytes).take (3 * ((body.length - i) / 4 + 1)) = [a] :=
        List.take_of_length_le (Nat.le_trans (Nat.le_add_left 1 2) some_taken)
      rw [List.length_singleton, group, uuGroups_zero, ite_self,
        List.append_nil, whole]
      rfl
  | case3 a b =>
      obtain ⟨rounds, rfl⟩ : ∃ r, rounds = r + 1 :=
        Nat.exists_eq_succ_of_ne_zero
          (Nat.ne_of_gt (Nat.lt_of_lt_of_le Nat.zero_lt_two enough))
      obtain ⟨_, _, _, group⟩ := @uuGroups_group body text rounds i 2 a b 0 []
        text_of reads Nat.two_pos
      have two : ([a, b] : Bytes).length = 2 := rfl
      have whole : ([a, b] : Bytes).take (3 * ((body.length - i) / 4 + 1)) =
          [a, b] :=
        List.take_of_length_le (Nat.le_trans (Nat.le_add_left 2 1) some_taken)
      rw [two, group, uuGroups_zero, ite_self, List.append_nil, whole]
      rfl
  | case4 a b c data ih =>
      have three : (a :: b :: c :: data).length = data.length + 3 := rfl
      rw [three] at enough ⊢
      obtain ⟨rounds, rfl⟩ : ∃ r, rounds = r + 1 :=
        Nat.exists_eq_succ_of_ne_zero (by omega)
      obtain ⟨text', text_of', reads', group⟩ :=
        @uuGroups_group body text rounds i (data.length + 3) a b c data
          text_of reads (Nat.succ_pos _)
      have all : ([a, b, c] : Bytes).take (data.length + 3) = [a, b, c] :=
        List.take_of_length_le (Nat.le_add_left 3 _)
      rw [group, all, Nat.add_sub_cancel]
      by_cases last : body.length < i + 4
      · have once : (body.length - i) / 4 = 0 := by omega
        rw [if_pos last, once]
        rfl
      · have again : (body.length - i) / 4 = (body.length - (i + 4)) / 4 + 1 := by
          omega
        have taken : 3 * ((body.length - i) / 4 + 1) =
            3 * ((body.length - (i + 4)) / 4 + 1) + 3 := by omega
        rw [if_neg last, taken,
          ih (by omega) (Nat.not_lt.mp last) text_of' reads' (by omega)]
        rfl

/-! ## Lines -/

def isBlank (c : UInt8) : Bool := c == 0x20

def withoutBlanks (line : Bytes) : Bytes := line.rdropWhile isBlank

/-- No more than four spaces stand at the end of a line. -/
def FewBlanks (line : Bytes) : Prop :=
  line.length ≤ (withoutBlanks line).length + 4

instance (line : Bytes) : Decidable (FewBlanks line) :=
  inferInstanceAs (Decidable (_ ≤ _))

theorem length_lineSextets (data : Bytes) :
    (lineSextets data).length = (data.length + 2) / 3 * 4 := by
  induction data using lineSextets.induct with
  | case1 => rfl
  | case2 a => simp [lineSextets, sextets]
  | case3 a b => simp [lineSextets, sextets]
  | case4 a b c data ih =>
      have four : (lineSextets (a :: b :: c :: data)).length =
          (lineSextets data).length + 4 := rfl
      have three : (a :: b :: c :: data).length = data.length + 3 := rfl
      rw [four, three, ih]
      omega

def lineBytes (data line : Bytes) : Bytes :=
  data.take (3 * (((withoutBlanks line).length - 1) / 4 + 1))

theorem length_lineBytes_le (data line : Bytes) :
    (lineBytes data line).length ≤ data.length := by
  rw [lineBytes, List.length_take]
  exact Nat.min_le_right _ _

namespace LineOf

variable {data line : Bytes}

theorem split (line_of : LineOf data line) : ∃ c body, line = c :: body ∧
    CharOf data.length c ∧ isBlank c = false ∧
    List.Forall₂ CharOf (lineSextets data) body := by
  rcases line_of with ⟨some_bytes, short, text⟩
  cases text with
  | @cons _ c _ body char text =>
      refine ⟨c, body, rfl, char, ?_, text⟩
      apply Bool.eq_false_iff.mpr
      intro blank
      have zero := char.toNat_uuDec
      rw [eq_of_beq blank] at zero
      have none_left : data.length = 0 := zero.symm
      exact some_bytes (List.length_eq_zero_iff.mp none_left)

theorem whitespace (line_of : LineOf data line) {c : UInt8}
    (member : c ∈ line) : isAsciiWhitespace c = isBlank c := by
  obtain ⟨v, _, char⟩ : ∃ v, v ∈ data.length :: lineSextets data ∧
      CharOf v c := by
    have text := line_of.text
    generalize data.length :: lineSextets data = vs at text
    clear line_of
    induction text with
    | nil => cases member
    | @cons v d vs line char text ih =>
        rcases List.mem_cons.mp member with rfl | later
        · exact ⟨v, .head _, char⟩
        · obtain ⟨v', inside, char'⟩ := ih later
          exact ⟨v', .tail _ inside, char'⟩
  exact char.whitespace

/-- Whatever blanks a line was found with, trimming leaves the same. -/
theorem trimAscii_shown (line_of : LineOf data line) {shown : Bytes}
    (stripped : Stripped line shown) :
    trimAscii shown = withoutBlanks line := by
  obtain ⟨blanks, split⟩ := stripped
  have all : ∀ c ∈ shown, isAsciiWhitespace c = isBlank c := by
    intro c member
    apply line_of.whitespace
    rw [split]
    exact List.mem_append_left _ member
  have start : trimAsciiStart shown = shown := by
    cases shown with
    | nil => rfl
    | cons c shown =>
        obtain ⟨c', body, same, _, visible, _⟩ := line_of.split
        rw [same] at split
        have first : c' = c := (List.cons.inj split).1
        have black : isAsciiWhitespace c = false := by
          rw [all c (.head _), ← first]
          exact visible
        rw [trimAsciiStart, List.dropWhile_cons_of_neg]
        rw [black]
        exact Bool.false_ne_true
  rw [trimAscii, start, rdropWhile_congr all, withoutBlanks, split,
    rdropWhile_append_replicate rfl]

theorem length_line (line_of : LineOf data line) :
    line.length = (data.length + 2) / 3 * 4 + 1 := by
  rw [← line_of.text.length_eq, List.length_cons, length_lineSextets]

theorem plain (line_of : LineOf data line) : 0x0A ∉ line ∧ 0x0D ∉ line := by
  constructor
  · intro member
    cases line_of.whitespace member
  · intro member
    cases line_of.whitespace member

theorem decodeUuLine (line_of : LineOf data line) (out : Bytes) :
    decodeUuLine (withoutBlanks line) out = out ++ lineBytes data line := by
  obtain ⟨c, body, rfl, char, visible, text⟩ := line_of.split
  have kept : withoutBlanks (c :: body) = c :: withoutBlanks body :=
    rdropWhile_cons visible body
  obtain ⟨blanks, whole⟩ : ∃ n,
      body = withoutBlanks body ++ List.replicate n 0x20 :=
    exists_replicate 0x20 body
  have reads : ReadsAs (withoutBlanks body) 0 body := by
    intro j
    have cut : body[j]? =
        (withoutBlanks body ++ List.replicate blanks 0x20)[j]? :=
      congrArg (·[j]?) whole
    rw [Nat.zero_add, cut]
    by_cases inside : j < (withoutBlanks body).length
    · rw [List.getElem?_append_left inside]
    · rw [List.getElem?_eq_none_iff.mpr (Nat.not_lt.mp inside),
        List.getElem?_append_right (Nat.not_lt.mp inside),
        List.getElem?_replicate]
      split <;> rfl
  rw [lineBytes, kept, Exav.Unpack.decodeUuLine, char.toNat_uuDec,
    uuGroups_eq (Nat.le_refl _) (Nat.zero_le _) text reads]
  rfl

theorem lineBytes_eq_iff (line_of : LineOf data line) :
    lineBytes data line = data ↔ FewBlanks line := by
  have length := line_of.length_line
  have some_bytes : 0 < data.length := List.length_pos_iff.mpr line_of.some_bytes
  obtain ⟨c, body, same, _, visible, _⟩ := line_of.split
  have first : 1 ≤ (withoutBlanks line).length := by
    have kept : withoutBlanks line = c :: withoutBlanks body := by
      rw [same]
      exact rdropWhile_cons visible body
    rw [kept]
    exact Nat.succ_pos _
  rw [lineBytes, List.take_eq_self_iff, FewBlanks, length]
  omega

end LineOf

end Exav.Unpack
