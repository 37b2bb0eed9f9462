import Exav.Unpack.Budget

/-!
# RTF objects

An RTF file is a tree of groups of control words, control symbols and text.  An
embedded object is written as hex digits in a destination, among which other
groups and words may stand.  The lexer is what is left of the file.
-/

set_option maxRecDepth 8192

namespace Exav.Unpack.Rtf

/-- One token of an RTF file. -/
inductive Tok where
  | opened
  | closed
  | word (name : Bytes) (param : Option Int)
  | hex (value : UInt8)
  | sym (c : UInt8)
  | text (bytes : Bytes)
  deriving DecidableEq

def isAsciiAlphabetic (c : UInt8) : Bool :=
  (65 ≤ c && c ≤ 90) || (97 ≤ c && c ≤ 122)

def isAsciiDigit (c : UInt8) : Bool :=
  48 ≤ c && c ≤ 57

/-- A byte that plain text goes on with. -/
def isPlain (c : UInt8) : Bool :=
  !(c == 0x7B || c == 0x7D || c == 0x5C || c == 0x0D || c == 0x0A)

/-- Numeric value of a hex digit. -/
def hexNibble (b : UInt8) : Option UInt8 :=
  if 48 ≤ b ∧ b ≤ 57 then some (b - 48)
  else if 97 ≤ b ∧ b ≤ 102 then some (b - 97 + 10)
  else if 65 ≤ b ∧ b ≤ 70 then some (b - 65 + 10)
  else none

/-- Parameters are kept small enough to reckon with. -/
def clampParam (v : Int) : Int :=
  max (-100000000) (min v 100000000)

def decimal (digits : Bytes) : Nat :=
  digits.foldl (fun v d => v * 10 + (d.toNat - 48)) 0

def parameter (s : Bytes) : Option Int × Bytes :=
  let neg := s.head? = some 0x2D
  let ds := if neg then s.tail else s
  let digits := (ds.take 11).takeWhile isAsciiDigit
  if digits = [] then (none, s)
  else
    let v : Int := decimal digits
    (some (clampParam (if neg then -v else v)), ds.drop digits.length)

/-- A control word: up to 32 letters, its parameter, and one space. -/
def controlWord (s : Bytes) : Tok × Bytes :=
  let name := (s.take 32).takeWhile isAsciiAlphabetic
  let (param, rest) := parameter (s.drop name.length)
  (.word name param, if rest.head? = some 0x20 then rest.tail else rest)

def parWord : Bytes := [0x70, 0x61, 0x72]

/-- `\'` and two digits. -/
def hexSymbol (s : Bytes) : Tok × Bytes :=
  match s with
  | hi :: lo :: rest =>
      match hexNibble hi, hexNibble lo with
      | some a, some b => (.hex (a * 16 + b), rest)
      | _, _ => (.hex 0, s)
  | _ => (.hex 0, s)

/-- What a backslash starts. -/
def control : Bytes → Tok × Bytes
  | [] => (.text [], [])
  | c :: rest =>
      if isAsciiAlphabetic c then controlWord (c :: rest)
      else if c = 0x27 then hexSymbol rest
      -- A backslash before a line break is a paragraph end.
      else if c = 0x0D ∨ c = 0x0A then (.word parWord none, rest)
      else (.sym c, rest)

/-- The next token, and what is left behind it.  Line breaks are passed over. -/
def nextTok : Bytes → Option (Tok × Bytes)
  | [] => none
  | c :: rest =>
      if c = 0x7B then some (.opened, rest)
      else if c = 0x7D then some (.closed, rest)
      else if c = 0x0D ∨ c = 0x0A then nextTok rest
      else if c = 0x5C then some (control rest)
      else some (.text (c :: rest.takeWhile isPlain), rest.dropWhile isPlain)

/-! ## Objects -/

/-- The bytes decoded so far, and a digit whose pair is still to come. -/
structure Pairs where
  hi : Option UInt8
  out : Bytes
  deriving DecidableEq

def Pairs.push (p : Pairs) (v : UInt8) : Pairs :=
  match p.hi with
  | none => ⟨some v, p.out⟩
  | some h => ⟨none, p.out ++ [(h <<< 4) ||| v]⟩

def Pairs.text (p : Pairs) (text : Bytes) : Pairs :=
  (text.filterMap hexNibble).foldl Pairs.push p

/-- Groups are counted in 32 bits, and one too many is an overflow. -/
def depthEnd : Nat := 2 ^ 31

/-- What is decoded of a destination: its bytes, what is left from its end on,
and what is left behind the brace that closes it. -/
structure Decoded where
  bytes : Bytes
  stop : Bytes
  behind : Bytes
  deriving DecidableEq

/-- Decode a destination up to the brace that closes it, or the end of the file;
none if its groups nest too deep. -/
def decodeFrom : (rounds depth : Nat) → Pairs → Bytes → Option Decoded
  | 0, _, p, _ => some ⟨p.out, [], []⟩
  | rounds + 1, depth, p, s =>
      match nextTok s with
      | none => some ⟨p.out, [], []⟩
      | some (.opened, rest) =>
          if depth + 1 ≥ depthEnd then none
          else decodeFrom rounds (depth + 1) p rest
      | some (.closed, rest) =>
          if depth = 1 then some ⟨p.out, s, rest⟩
          else decodeFrom rounds (depth - 1) p rest
      | some (.text text, rest) => decodeFrom rounds depth (p.text text) rest
      -- Control words and symbols hold no digits of the object.
      | some (.word _ _, rest) => decodeFrom rounds depth p rest
      | some (.hex _, rest) => decodeFrom rounds depth p rest
      | some (.sym _, rest) => decodeFrom rounds depth p rest

/-- The object of the destination that starts here.  Each token takes a byte at
least. -/
def decodeObject (s : Bytes) : Option Decoded :=
  decodeFrom (s.length + 1) 1 ⟨none, []⟩ s

/-! ## Members -/

/-- What ends an extraction early. -/
inductive Stop where
  | limit (hit : LimitHit)
  | overflow
  deriving DecidableEq

abbrev Result := List Entry × Except Stop Budget

def overBudget : LimitHit :=
  .new "rtf object exceeds budget"

def isUpper (b : UInt8) : Bool :=
  65 ≤ b && b ≤ 90

/-- Hand an object over, and go on with what is left of the budget. -/
def emitBytes (index : Nat) (bytes : Bytes) (more : Budget → Result)
    (b : Budget) : Result :=
  match b.spend overBudget bytes.length with
  | .error hit => ([], .error (.limit hit))
  | .ok b =>
      (.new s!"rtf-object-{index}" bytes :: (more b).1, (more b).2)

/-- Hand an object over, behind its digits in lower case if some are not. -/
def emitObject (index : Nat) (hex bytes : Bytes) (more : Budget → Result)
    (b : Budget) : Result :=
  if hex.any isUpper then
    match b.countEntry with
    | .error hit => ([], .error (.limit hit))
    | .ok b =>
        match b.reserve with
        | .error hit => ([], .error (.limit hit))
        | .ok cap =>
            if hex.length ≤ cap then
              let rest := emitBytes index bytes more (b.commit hex.length)
              (.new s!"rtf-objdata-hex-{index}" (lower hex) :: rest.1, rest.2)
            else emitBytes index bytes more b
  else emitBytes index bytes more b

/-- `objdata` and `datastore` -/
def isObject (name : Bytes) : Bool :=
  name == [0x6F, 0x62, 0x6A, 0x64, 0x61, 0x74, 0x61] ||
    name == [0x64, 0x61, 0x74, 0x61, 0x73, 0x74, 0x6F, 0x72, 0x65]

/-- The members of what is left of a file, `index` being there already. -/
def extractFrom : (rounds : Nat) → (s : Bytes) → (index : Nat) → Budget → Result
  | 0, _, _, b => ([], .ok b)
  | rounds + 1, s, index, b =>
      match nextTok s with
      | none => ([], .ok b)
      | some (tok, rest) =>
          match tok with
          | .word name _ =>
              if isObject name then
                match decodeObject rest with
                | none => ([], .error .overflow)
                | some d =>
                    let hex := rest.take (rest.length - d.stop.length)
                    if d.bytes.isEmpty then extractFrom rounds d.behind index b
                    else
                      emitObject (index + 1) hex d.bytes
                        (extractFrom rounds d.behind (index + 1)) b
              else extractFrom rounds rest index b
          | _ => extractFrom rounds rest index b

/-- `{\rtf` -/
def rtfStart : Bytes := [0x7B, 0x5C, 0x72, 0x74, 0x66]

def extractRtf (data : Bytes) (b : Budget) : Result :=
  if rtfStart.isPrefixOf data then extractFrom (data.length + 1) data 0 b
  else ([], .ok b)

/-!
## RTF files byte by byte

A token takes a byte at least, so files come to an end.  Text may be cut into
tokens anywhere, so the scanner and the decoder can be followed byte by byte
through text and line breaks, and word by word elsewhere.
-/

/-! ## Tokens -/

theorem length_parameter_le (s : Bytes) : (parameter s).2.length ≤ s.length := by
  unfold parameter
  dsimp only
  split_ifs <;> simp only [List.length_drop, List.length_tail] <;> omega

theorem length_controlWord_le (s : Bytes) :
    (controlWord s).2.length + ((s.take 32).takeWhile isAsciiAlphabetic).length ≤
      s.length := by
  have name : ((s.take 32).takeWhile isAsciiAlphabetic).length ≤ s.length :=
    (List.takeWhile_prefix _).length_le.trans (by
      rw [List.length_take]
      omega)
  have rest := length_parameter_le
    (s.drop ((s.take 32).takeWhile isAsciiAlphabetic).length)
  rw [List.length_drop] at rest
  unfold controlWord
  dsimp only
  split_ifs
  · rw [List.length_tail]
    omega
  · omega

theorem length_hexSymbol_le (s : Bytes) : (hexSymbol s).2.length ≤ s.length := by
  unfold hexSymbol
  split
  · split
    · exact (Nat.le_succ _).trans (Nat.le_succ _)
    · exact Nat.le_refl _
  · exact Nat.le_refl _

theorem length_control_le (s : Bytes) : (control s).2.length ≤ s.length := by
  unfold control
  cases s with
  | nil => exact Nat.le_refl _
  | cons c rest =>
      dsimp only
      split_ifs
      · have word := length_controlWord_le (c :: rest)
        omega
      · have symbol := length_hexSymbol_le rest
        rw [List.length_cons]
        omega
      · exact Nat.le_succ _
      · exact Nat.le_succ _

theorem nextTok_shorter {s rest : Bytes} {tok : Tok}
    (next : nextTok s = some (tok, rest)) : rest.length < s.length := by
  induction s with
  | nil => cases next
  | cons c s ih =>
      rw [List.length_cons]
      unfold nextTok at next
      split_ifs at next
      · cases next
        exact Nat.lt_succ_self _
      · cases next
        exact Nat.lt_succ_self _
      · exact (ih next).trans (Nat.lt_succ_self _)
      · have shorter := length_control_le s
        rw [Option.some.inj next] at shorter
        exact Nat.lt_succ_of_le shorter
      · cases next
        exact Nat.lt_succ_of_le (List.dropWhile_suffix _).length_le

/-! ## The decoder -/

/-- More rounds than bytes change nothing. -/
theorem decodeFrom_enough {n m depth : Nat} {p : Pairs} {s : Bytes}
    (enough : s.length < n) (also : s.length < m) :
    decodeFrom n depth p s = decodeFrom m depth p s := by
  induction n generalizing m depth p s with
  | zero => exact absurd enough (Nat.not_lt_zero _)
  | succ n ih =>
      obtain ⟨m, rfl⟩ : ∃ r, m = r + 1 :=
        Nat.exists_eq_succ_of_ne_zero (by omega)
      rw [decodeFrom, decodeFrom]
      cases next : nextTok s with
      | none => rfl
      | some found =>
          obtain ⟨tok, rest⟩ := found
          have shorter := nextTok_shorter next
          have same : ∀ depth p, decodeFrom n depth p rest =
              decodeFrom m depth p rest :=
            fun depth p => ih (by omega) (by omega)
          cases tok <;> simp only [same]

def core (d : Decoded) : Bytes × Bytes :=
  (d.bytes, d.behind)

def decodeAt (depth : Nat) (p : Pairs) (s : Bytes) : Option (Bytes × Bytes) :=
  (decodeFrom (s.length + 1) depth p s).map core

theorem decodeFrom_core {n depth : Nat} {p : Pairs} {s : Bytes}
    (enough : s.length < n) :
    (decodeFrom n depth p s).map core = decodeAt depth p s := by
  rw [decodeAt, decodeFrom_enough enough (Nat.lt_succ_self _)]

theorem decodeAt_eq (depth : Nat) (p : Pairs) (s : Bytes) :
    decodeAt depth p s =
      match nextTok s with
      | none => some (p.out, [])
      | some (.opened, rest) =>
          if depth + 1 ≥ depthEnd then none else decodeAt (depth + 1) p rest
      | some (.closed, rest) =>
          if depth = 1 then some (p.out, rest) else decodeAt (depth - 1) p rest
      | some (.text text, rest) => decodeAt depth (p.text text) rest
      | some (_, rest) => decodeAt depth p rest := by
  rw [decodeAt, decodeFrom]
  cases next : nextTok s with
  | none => rfl
  | some found =>
      obtain ⟨tok, rest⟩ := found
      have shorter := nextTok_shorter next
      cases tok with
      | opened =>
          dsimp only
          split
          · rfl
          · exact decodeFrom_core shorter
      | closed =>
          dsimp only
          split
          · rfl
          · exact decodeFrom_core shorter
      | text text => exact decodeFrom_core shorter
      | word name param => exact decodeFrom_core shorter
      | hex value => exact decodeFrom_core shorter
      | sym c => exact decodeFrom_core shorter

variable (depth : Nat) (p : Pairs) (s : Bytes)

theorem decodeAt_open : decodeAt depth p (0x7B :: s) =
    if depth + 1 ≥ depthEnd then none else decodeAt (depth + 1) p s := by
  rw [decodeAt_eq]
  rfl

theorem decodeAt_close : decodeAt depth p (0x7D :: s) =
    if depth = 1 then some (p.out, s) else decodeAt (depth - 1) p s := by
  rw [decodeAt_eq]
  rfl

theorem nextTok_lineBreak {b : UInt8} (ends : b = 0x0D ∨ b = 0x0A) (s : Bytes) :
    nextTok (b :: s) = nextTok s := by
  rcases ends with rfl | rfl
  · rfl
  · rfl

theorem decodeAt_lineBreak {b : UInt8} (ends : b = 0x0D ∨ b = 0x0A) :
    decodeAt depth p (b :: s) = decodeAt depth p s := by
  rw [decodeAt_eq, nextTok_lineBreak ends, ← decodeAt_eq]

theorem nextTok_plain {c : UInt8} (plain : isPlain c = true) (s : Bytes) :
    nextTok (c :: s) =
      some (.text (c :: s.takeWhile isPlain), s.dropWhile isPlain) := by
  have other : c ≠ 0x7B ∧ c ≠ 0x7D ∧ ¬ (c = 0x0D ∨ c = 0x0A) ∧ c ≠ 0x5C := by
    revert c
    apply forall_byte
    decide
  rw [nextTok, if_neg other.1, if_neg other.2.1, if_neg other.2.2.1,
    if_neg other.2.2.2]

theorem text_cons (c : UInt8) (t : Bytes) :
    p.text (c :: t) = (p.text [c]).text t := by
  unfold Pairs.text
  rw [← List.singleton_append, List.filterMap_append, List.foldl_append]

theorem decodeAt_plain {c : UInt8} (plain : isPlain c = true) :
    decodeAt depth p (c :: s) = decodeAt depth (p.text [c]) s := by
  rw [decodeAt_eq, nextTok_plain plain]
  dsimp only
  rw [text_cons]
  cases s with
  | nil => rfl
  | cons d s =>
      by_cases further : isPlain d = true
      · rw [decodeAt_eq depth _ (d :: s), nextTok_plain further,
          List.takeWhile_cons_of_pos further, List.dropWhile_cons_of_pos further]
      · rw [List.takeWhile_cons_of_neg further,
          List.dropWhile_cons_of_neg further]
        rfl

theorem decodeAt_control {tok : Tok} {rest : Bytes}
    (next : control s = (tok, rest))
    (kind : (∃ name param, tok = .word name param) ∨ (∃ v, tok = .hex v) ∨
      ∃ c, tok = .sym c) :
    decodeAt depth p (0x5C :: s) = decodeAt depth p rest := by
  have found : nextTok (0x5C :: s) = some (tok, rest) := by
    rw [← next]
    rfl
  rw [decodeAt_eq, found]
  rcases kind with ⟨name, param, rfl⟩ | ⟨v, rfl⟩ | ⟨c, rfl⟩
  · rfl
  · rfl
  · rfl

/-! ## The scanner -/

theorem decodeFrom_behind {n depth : Nat} {p : Pairs} {s : Bytes} {d : Decoded}
    (decoded : decodeFrom n depth p s = some d) : d.behind.length ≤ s.length := by
  induction n generalizing depth p s with
  | zero =>
      cases decoded
      exact Nat.zero_le _
  | succ n ih =>
      rw [decodeFrom] at decoded
      cases next : nextTok s with
      | none =>
          rw [next] at decoded
          cases decoded
          exact Nat.zero_le _
      | some found =>
          obtain ⟨tok, rest⟩ := found
          have shorter := nextTok_shorter next
          have onwards : ∀ {depth p}, decodeFrom n depth p rest = some d →
              d.behind.length ≤ s.length :=
            fun same => (ih same).trans (Nat.le_of_lt shorter)
          rw [next] at decoded
          cases tok with
          | opened =>
              dsimp only at decoded
              split at decoded
              · cases decoded
              · exact onwards decoded
          | closed =>
              dsimp only at decoded
              split at decoded
              · cases decoded
                exact Nat.le_of_lt shorter
              · exact onwards decoded
          | text text => exact onwards decoded
          | word name param => exact onwards decoded
          | hex value => exact onwards decoded
          | sym c => exact onwards decoded

/-- More rounds than bytes change nothing. -/
theorem extractFrom_enough {n m : Nat} {s : Bytes} (enough : s.length < n)
    (also : s.length < m) : extractFrom n s = extractFrom m s := by
  funext index b
  induction n generalizing m s index b with
  | zero => exact absurd enough (Nat.not_lt_zero _)
  | succ n ih =>
      obtain ⟨m, rfl⟩ : ∃ r, m = r + 1 :=
        Nat.exists_eq_succ_of_ne_zero (by omega)
      rw [extractFrom, extractFrom]
      cases next : nextTok s with
      | none => rfl
      | some found =>
          obtain ⟨tok, rest⟩ := found
          have shorter := nextTok_shorter next
          have same : ∀ {behind : Bytes}, behind.length ≤ rest.length →
              ∀ index, extractFrom n behind index =
                extractFrom m behind index := by
            intro behind within index
            funext b
            exact ih (by omega) (by omega) index b
          cases tok with
          | word name param =>
              dsimp only
              split
              · cases decoded : decodeObject rest with
                | none => rfl
                | some d =>
                    have within := decodeFrom_behind decoded
                    dsimp only
                    rw [same within, same within]
              · rw [same (Nat.le_refl _)]
          | opened => exact congrFun (same (Nat.le_refl _) index) b
          | closed => exact congrFun (same (Nat.le_refl _) index) b
          | text text => exact congrFun (same (Nat.le_refl _) index) b
          | hex value => exact congrFun (same (Nat.le_refl _) index) b
          | sym c => exact congrFun (same (Nat.le_refl _) index) b

def scan (s : Bytes) : Nat → Budget → Result :=
  extractFrom (s.length + 1) s

theorem extractFrom_scan {n : Nat} {s : Bytes} (enough : s.length < n) :
    extractFrom n s = scan s :=
  extractFrom_enough enough (Nat.lt_succ_self _)

theorem scan_pass {s rest : Bytes} {tok : Tok} (next : nextTok s = some (tok, rest))
    (other : ∀ name param, tok ≠ .word name param) : scan s = scan rest := by
  funext index b
  have shorter := nextTok_shorter next
  rw [scan, extractFrom, next]
  cases tok with
  | word name param => exact absurd rfl (other name param)
  | opened => exact congrFun (congrFun (extractFrom_scan shorter) index) b
  | closed => exact congrFun (congrFun (extractFrom_scan shorter) index) b
  | text text => exact congrFun (congrFun (extractFrom_scan shorter) index) b
  | hex value => exact congrFun (congrFun (extractFrom_scan shorter) index) b
  | sym c => exact congrFun (congrFun (extractFrom_scan shorter) index) b

theorem scan_open : scan (0x7B :: s) = scan s :=
  scan_pass rfl nofun

theorem scan_close : scan (0x7D :: s) = scan s :=
  scan_pass rfl nofun

theorem scan_lineBreak {b : UInt8} (ends : b = 0x0D ∨ b = 0x0A) :
    scan (b :: s) = scan s := by
  funext index left
  have longer : s.length < (b :: s).length := Nat.lt_succ_self _
  rw [scan, extractFrom, nextTok_lineBreak ends,
    ← extractFrom_scan (Nat.lt_succ_of_lt longer), extractFrom]

theorem scan_plain {c : UInt8} (plain : isPlain c = true) :
    scan (c :: s) = scan s := by
  rw [scan_pass (nextTok_plain plain s) nofun]
  cases s with
  | nil => rfl
  | cons d s =>
      by_cases further : isPlain d = true
      · rw [scan_pass (nextTok_plain further s) nofun,
          List.dropWhile_cons_of_pos further]
      · rw [List.dropWhile_cons_of_neg further]

theorem scan_symbol {tok : Tok} {rest : Bytes} (next : control s = (tok, rest))
    (other : ∀ name param, tok ≠ .word name param) :
    scan (0x5C :: s) = scan rest := by
  have found : nextTok (0x5C :: s) = some (tok, rest) := by
    rw [← next]
    rfl
  exact scan_pass found other

theorem scan_word {name rest : Bytes} {param : Option Int}
    (next : control s = (.word name param, rest))
    (plain : isObject name = false) : scan (0x5C :: s) = scan rest := by
  have found : nextTok (0x5C :: s) = some (.word name param, rest) := by
    rw [← next]
    rfl
  funext index b
  rw [scan, extractFrom, found]
  dsimp only
  rw [plain, if_neg Bool.false_ne_true,
    extractFrom_scan (nextTok_shorter found)]

section

variable {s : Bytes} {name rest : Bytes} {param : Option Int}

theorem scan_object (next : control s = (.word name param, rest))
    (object : isObject name = true) (index : Nat) (b : Budget) :
    scan (0x5C :: s) index b =
      match decodeObject rest with
      | none => ([], .error .overflow)
      | some d =>
          if d.bytes.isEmpty then scan d.behind index b
          else
            emitObject (index + 1) (rest.take (rest.length - d.stop.length))
              d.bytes (scan d.behind (index + 1)) b := by
  have found : nextTok (0x5C :: s) = some (.word name param, rest) := by
    rw [← next]
    rfl
  have shorter := nextTok_shorter found
  rw [scan, extractFrom, found]
  dsimp only
  rw [if_pos object]
  cases decoded : decodeObject rest with
  | none => rfl
  | some d =>
      have behind := decodeFrom_behind decoded
      dsimp only
      rw [extractFrom_scan (by omega)]

theorem scan_object_overflow (next : control s = (.word name param, rest))
    (object : isObject name = true)
    (deep : decodeAt 1 ⟨none, []⟩ rest = none) :
    scan (0x5C :: s) = fun _ _ => ([], .error .overflow) := by
  have none : decodeObject rest = none := Option.map_eq_none_iff.mp deep
  funext index b
  rw [scan_object next object, none]

theorem scan_object_empty {behind : Bytes}
    (next : control s = (.word name param, rest))
    (object : isObject name = true)
    (empty : decodeAt 1 ⟨none, []⟩ rest = some ([], behind)) :
    scan (0x5C :: s) = scan behind := by
  obtain ⟨d, decoded, same⟩ := Option.map_eq_some_iff.mp empty
  obtain ⟨bytes, rfl⟩ := Prod.mk.inj same
  have decoded : decodeObject rest = some d := decoded
  funext index b
  rw [scan_object next object, decoded]
  dsimp only
  rw [bytes, List.isEmpty_nil, if_pos rfl]

theorem scan_object_bytes {bytes behind : Bytes}
    (next : control s = (.word name param, rest))
    (object : isObject name = true)
    (whole : decodeAt 1 ⟨none, []⟩ rest = some (bytes, behind))
    (filled : bytes ≠ []) :
    ∃ hex, scan (0x5C :: s) = fun index =>
      emitObject (index + 1) hex bytes (scan behind (index + 1)) := by
  obtain ⟨d, decoded, same⟩ := Option.map_eq_some_iff.mp whole
  obtain ⟨rfl, rfl⟩ := Prod.mk.inj same
  have decoded : decodeObject rest = some d := decoded
  refine ⟨rest.take (rest.length - d.stop.length), ?_⟩
  funext index b
  rw [scan_object next object, decoded]
  dsimp only
  rw [List.isEmpty_eq_false_iff.mpr filled, if_neg Bool.false_ne_true]

end

/-!
## RTF documents as trees

A document is a sequence of groups, control words, symbols, text and line
breaks.  What the decoder makes of a destination are the hex digits of all text
in it, and the scanner comes by the destinations that stand in no other.
-/

/-! ## Control words and symbols -/

structure Word where
  name : Bytes
  param : Option (Bool × Bytes)
  space : Bool

namespace Word

def paramBytes : Option (Bool × Bytes) → Bytes
  | none => []
  | some (neg, digits) => (if neg then [0x2D] else []) ++ digits

def spaceBytes (space : Bool) : Bytes :=
  if space then [0x20] else []

/-- A word behind its backslash. -/
def bytes (w : Word) : Bytes :=
  w.name ++ (paramBytes w.param ++ spaceBytes w.space)

structure Formed (w : Word) : Prop where
  some : w.name ≠ []
  short : w.name.length ≤ 32
  letters : ∀ c ∈ w.name, isAsciiAlphabetic c = true
  digits : ∀ neg ds, w.param = .some (neg, ds) →
    ds ≠ [] ∧ ds.length ≤ 11 ∧ ∀ c ∈ ds, isAsciiDigit c = true

/-- What follows a word does not belong to it. -/
def Stops (w : Word) (s : Bytes) : Prop :=
  w.space = false → ∀ c, s.head? = some c →
    c ≠ 0x20 ∧ isAsciiDigit c = false ∧
      (w.param = none → isAsciiAlphabetic c = false ∧ c ≠ 0x2D)

def value : Option (Bool × Bytes) → Option Int
  | none => none
  | some (neg, ds) =>
      some (clampParam (if neg then -(decimal ds : Int) else decimal ds))

end Word

/-- What is taken of a text that goes on with something else. -/
theorem takeWhile_take_append {p : UInt8 → Bool} {a b : Bytes} {n : Nat}
    (fits : a.length ≤ n) (all : ∀ c ∈ a, p c = true)
    (other : ∀ c, b.head? = some c → p c = false) :
    ((a ++ b).take n).takeWhile p = a := by
  rw [List.take_append, List.take_of_length_le fits,
    List.takeWhile_append_of_pos all]
  cases b with
  | nil => simp
  | cons c b =>
      have stop := other c rfl
      cases n - a.length with
      | zero => simp
      | succ k => simp [stop]

theorem isAsciiDigit_letter {c : UInt8} (digit : isAsciiDigit c = true) :
    isAsciiAlphabetic c = false ∧ c ≠ 0x2D ∧ c ≠ 0x20 := by
  revert c
  apply forall_byte
  decide

theorem parameter_word {w : Word} (formed : w.Formed) {s : Bytes}
    (stops : w.Stops s) :
    parameter (Word.paramBytes w.param ++ (Word.spaceBytes w.space ++ s)) =
      (Word.value w.param, Word.spaceBytes w.space ++ s) := by
  have behind : ∀ c, (Word.spaceBytes w.space ++ s).head? = some c →
      isAsciiDigit c = false ∧ (w.param = none → c ≠ 0x2D) := by
    intro c first
    cases space : w.space with
    | true =>
        rw [space] at first
        cases first
        exact ⟨rfl, fun _ => by decide⟩
    | false =>
        rw [space] at first
        obtain ⟨-, digit, plain⟩ := stops space c first
        exact ⟨digit, fun none => (plain none).2⟩
  unfold parameter
  dsimp only
  cases param : w.param with
  | none =>
      have unsigned : ¬ (Word.spaceBytes w.space ++ s).head? = some 0x2D :=
        fun sign => (behind _ sign).2 param rfl
      have none := takeWhile_take_append (a := []) (Nat.zero_le 11) nofun
        fun c first => (behind c first).1
      rw [List.nil_append] at none
      rw [Word.paramBytes, List.nil_append, if_neg unsigned, none, if_pos rfl]
      rfl
  | some pair =>
      obtain ⟨neg, ds⟩ := pair
      obtain ⟨some, short, all⟩ := formed.digits neg ds param
      have taken := takeWhile_take_append short all fun c first =>
        (behind c first).1
      cases neg with
      | true =>
          rw [Word.paramBytes, if_pos rfl, List.append_assoc,
            List.singleton_append, List.head?_cons, if_pos rfl, List.tail_cons,
            taken, if_neg some, List.drop_left]
          rfl
      | false =>
          obtain ⟨d, ds, rfl⟩ := List.exists_cons_of_ne_nil some
          have unsigned : ¬ (Word.paramBytes (.some (false, d :: ds)) ++
              (Word.spaceBytes w.space ++ s)).head? = .some 0x2D := by
            intro sign
            exact (isAsciiDigit_letter (all d (.head _))).2.1
              (Option.some.inj sign)
          simp only [if_neg unsigned]
          rw [Word.paramBytes, if_neg Bool.false_ne_true,
            List.nil_append, taken, if_neg some, List.drop_left]
          rfl

theorem Word.Stops.letter {w : Word} (formed : w.Formed) {s : Bytes}
    (stops : w.Stops s) (c : UInt8)
    (first : (paramBytes w.param ++ (spaceBytes w.space ++ s)).head? = some c) :
    isAsciiAlphabetic c = false := by
  cases param : w.param with
  | none =>
      rw [param] at first
      cases space : w.space with
      | true =>
          rw [space] at first
          cases first
          rfl
      | false =>
          rw [space] at first
          exact ((stops space c first).2.2 param).1
  | some pair =>
      obtain ⟨neg, ds⟩ := pair
      obtain ⟨some, -, all⟩ := formed.digits neg ds param
      obtain ⟨d, ds, rfl⟩ := List.exists_cons_of_ne_nil some
      rw [param] at first
      cases neg with
      | true =>
          cases first
          rfl
      | false =>
          cases first
          exact (isAsciiDigit_letter (all c (.head _))).1

theorem control_word {w : Word} (formed : w.Formed) {s : Bytes}
    (stops : w.Stops s) :
    control (w.bytes ++ s) = (.word w.name (Word.value w.param), s) := by
  have split : w.bytes ++ s =
      w.name ++ (Word.paramBytes w.param ++ (Word.spaceBytes w.space ++ s)) := by
    rw [Word.bytes, List.append_assoc, List.append_assoc]
  have name := takeWhile_take_append formed.short formed.letters
    (Word.Stops.letter formed stops)
  have word : control (w.bytes ++ s) = controlWord (w.bytes ++ s) := by
    obtain ⟨c, letters, same⟩ := List.exists_cons_of_ne_nil formed.some
    have letter := formed.letters c (same ▸ .head _)
    rw [split, same, List.cons_append, control, if_pos letter]
  rw [word, split]
  unfold controlWord
  dsimp only
  rw [name, List.drop_left, parameter_word formed stops]
  dsimp only
  cases space : w.space with
  | true => rfl
  | false =>
      have unspaced : ¬ s.head? = some 0x20 :=
        fun blank => (stops space _ blank).1 rfl
      rw [Word.spaceBytes, if_neg Bool.false_ne_true, List.nil_append,
        if_neg unspaced]

inductive Symbol where
  | hex (hi lo : UInt8)
  | other (c : UInt8)

namespace Symbol

def bytes : Symbol → Bytes
  | hex hi lo => [0x27, hi, lo]
  | other c => [c]

def Formed : Symbol → Prop
  | hex hi lo => (hexNibble hi).isSome ∧ (hexNibble lo).isSome
  | other c => isAsciiAlphabetic c = false ∧ c ≠ 0x27

end Symbol

/-- A symbol is read as one token, and starts no object. -/
theorem control_symbol {c : Symbol} (formed : c.Formed) (s : Bytes) :
    ∃ tok, control (c.bytes ++ s) = (tok, s) ∧
      (tok = .word parWord none ∨ (∃ v, tok = .hex v) ∨ ∃ b, tok = .sym b) := by
  cases c with
  | hex hi lo =>
      obtain ⟨a, high⟩ := Option.isSome_iff_exists.mp formed.1
      obtain ⟨b, low⟩ := Option.isSome_iff_exists.mp formed.2
      refine ⟨.hex (a * 16 + b), ?_, .inr (.inl ⟨_, rfl⟩)⟩
      change hexSymbol (hi :: lo :: s) = _
      rw [hexSymbol, high, low]
  | other c =>
      rw [Symbol.bytes, List.singleton_append, control,
        if_neg (by rw [formed.1]; exact Bool.false_ne_true), if_neg formed.2]
      by_cases ends : c = 0x0D ∨ c = 0x0A
      · rw [if_pos ends]
        exact ⟨_, rfl, .inl rfl⟩
      · rw [if_neg ends]
        exact ⟨_, rfl, .inr (.inr ⟨c, rfl⟩)⟩

theorem decodeAt_symbol {c : Symbol} (formed : c.Formed) (depth : Nat) (p : Pairs)
    (s : Bytes) :
    decodeAt depth p (0x5C :: (c.bytes ++ s)) = decodeAt depth p s := by
  obtain ⟨tok, next, kind⟩ := control_symbol formed s
  apply decodeAt_control _ _ _ next
  rcases kind with word | hex | sym
  · exact .inl ⟨_, _, word⟩
  · exact .inr (.inl hex)
  · exact .inr (.inr sym)

theorem scan_symbols {c : Symbol} (formed : c.Formed) (s : Bytes) :
    scan (0x5C :: (c.bytes ++ s)) = scan s := by
  obtain ⟨tok, next, kind⟩ := control_symbol formed s
  rcases kind with rfl | ⟨v, rfl⟩ | ⟨b, rfl⟩
  · exact scan_word _ next rfl
  · exact scan_symbol _ next nofun
  · exact scan_symbol _ next nofun

/-! ## Documents -/

/-- What stands in a group, or in a document as a whole. -/
inductive Body where
  | done
  | group (inner rest : Body)
  | word (w : Word) (rest : Body)
  | symbol (c : Symbol) (rest : Body)
  | text (t : Bytes) (rest : Body)
  | lineBreak (b : UInt8) (rest : Body)

namespace Body

def print : Body → Bytes
  | done => []
  | group inner rest => 0x7B :: (inner.print ++ 0x7D :: rest.print)
  | word w rest => 0x5C :: (w.bytes ++ rest.print)
  | symbol c rest => 0x5C :: (c.bytes ++ rest.print)
  | text t rest => t ++ rest.print
  | lineBreak b rest => b :: rest.print

/-- Every part is well formed, and stands apart from what follows it. -/
def Fine : Body → (after : Bytes) → Prop
  | done, _ => True
  | group inner rest, after =>
      inner.Fine (0x7D :: (rest.print ++ after)) ∧ rest.Fine after
  | word w rest, after =>
      w.Formed ∧ w.Stops (rest.print ++ after) ∧ rest.Fine after
  | symbol c rest, after => c.Formed ∧ rest.Fine after
  | text t rest, after => (∀ c ∈ t, isPlain c = true) ∧ rest.Fine after
  | lineBreak b rest, after => (b = 0x0D ∨ b = 0x0A) ∧ rest.Fine after

/-- The hex digits of all text. -/
def allDigits : Body → List UInt8
  | done => []
  | group inner rest => inner.allDigits ++ rest.allDigits
  | word _ rest => rest.allDigits
  | symbol _ rest => rest.allDigits
  | text t rest => t.filterMap hexNibble ++ rest.allDigits
  | lineBreak _ rest => rest.allDigits

/-- How deep groups nest. -/
def deepest : Body → Nat
  | done => 0
  | group inner rest => max (inner.deepest + 1) rest.deepest
  | word _ rest => rest.deepest
  | symbol _ rest => rest.deepest
  | text _ rest => rest.deepest
  | lineBreak _ rest => rest.deepest

end Body

/-- The state behind some digits. -/
def Pairs.digits (p : Pairs) (ns : List UInt8) : Pairs :=
  ns.foldl Pairs.push p

theorem Pairs.digits_append (p : Pairs) (ns ms : List UInt8) :
    p.digits (ns ++ ms) = (p.digits ns).digits ms :=
  List.foldl_append

theorem decodeAt_text {t : Bytes} (plain : ∀ c ∈ t, isPlain c = true)
    (depth : Nat) (p : Pairs) (s : Bytes) :
    decodeAt depth p (t ++ s) =
      decodeAt depth (p.digits (t.filterMap hexNibble)) s := by
  induction t generalizing p with
  | nil => rfl
  | cons c t ih =>
      rw [List.cons_append, decodeAt_plain _ _ _ (plain c (.head _)),
        ih fun d member => plain d (.tail _ member)]
      change decodeAt depth ((p.text [c]).text t) s =
        decodeAt depth (p.text (c :: t)) s
      rw [← text_cons]

theorem scan_text {t : Bytes} (plain : ∀ c ∈ t, isPlain c = true) (s : Bytes) :
    scan (t ++ s) = scan s := by
  induction t with
  | nil => rfl
  | cons c t ih =>
      rw [List.cons_append, scan_plain _ (plain c (.head _)),
        ih fun d member => plain d (.tail _ member)]

theorem decodeAt_print {body : Body} {after : Bytes} (fine : body.Fine after)
    {depth : Nat} (inside : 0 < depth) (low : depth < depthEnd) (p : Pairs) :
    decodeAt depth p (body.print ++ after) =
      if depth + body.deepest < depthEnd then
        decodeAt depth (p.digits body.allDigits) after
      else none := by
  induction body generalizing after depth p with
  | done =>
      rw [Body.deepest, Nat.add_zero, if_pos low]
      rfl
  | group inner rest first second =>
      obtain ⟨own, others⟩ := fine
      have split : (Body.group inner rest).print ++ after =
          0x7B :: (inner.print ++ 0x7D :: (rest.print ++ after)) := by
        rw [Body.print, List.cons_append, List.append_assoc, List.cons_append]
      rw [split, decodeAt_open, Body.deepest, Body.allDigits,
        Pairs.digits_append]
      by_cases deep : depth + 1 ≥ depthEnd
      · rw [if_pos deep, if_neg (by omega)]
      · rw [if_neg deep, first own (Nat.succ_pos _) (by omega)]
        by_cases within : depth + 1 + inner.deepest < depthEnd
        · rw [if_pos within, decodeAt_close, if_neg (by omega),
            Nat.succ_sub_one, second others inside low]
          by_cases fits : depth + rest.deepest < depthEnd
          · rw [if_pos fits, if_pos (by omega)]
          · rw [if_neg fits, if_neg (by omega)]
        · rw [if_neg within, if_neg (by omega)]
  | word w rest ih =>
      obtain ⟨formed, stops, others⟩ := fine
      rw [Body.print, List.cons_append, List.append_assoc,
        decodeAt_control _ _ _ (control_word formed stops) (.inl ⟨_, _, rfl⟩)]
      exact ih others inside low p
  | symbol c rest ih =>
      rw [Body.print, List.cons_append, List.append_assoc,
        decodeAt_symbol fine.1]
      exact ih fine.2 inside low p
  | text t rest ih =>
      rw [Body.print, List.append_assoc, decodeAt_text fine.1,
        ih fine.2 inside low, Body.allDigits, Pairs.digits_append]
      rfl
  | lineBreak b rest ih =>
      rw [Body.print, List.cons_append, decodeAt_lineBreak _ _ _ fine.1]
      exact ih fine.2 inside low p

end Exav.Unpack.Rtf
