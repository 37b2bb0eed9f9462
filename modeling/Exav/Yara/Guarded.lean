import Exav.Yara.Lexemes

/-!
# The guard reads lexemes

One round of the guard takes one lexeme or one blank, so a source is refused
just when some point of it is too deep, as long as the guard sees where each
regular expression starts and does not take a string's name for a word.
-/

namespace Exav.Yara

open Script (ascii isAlpha isDigit)

/-! ## Rounds -/

theorem checkFrom_rounds {rounds rounds' : Nat} {rest : Bytes}
    (enough : rest.length ≤ rounds) (enough' : rest.length ≤ rounds')
    (before : Bytes) (g : Guard) :
    checkFrom rounds before rest g = checkFrom rounds' before rest g := by
  induction rounds generalizing rounds' before rest g with
  | zero =>
      rw [List.length_eq_zero_iff.mp (Nat.le_zero.mp enough)]
      cases rounds' <;> rfl
  | succ rounds ih =>
      cases rest with
      | nil => cases rounds' <;> rfl
      | cons c rest =>
          obtain ⟨more, rfl⟩ :=
            Nat.exists_eq_add_of_le' (Nat.le_trans (Nat.le_add_left 1 _) enough')
          have shorter (skipped : Nat) : (rest.drop skipped).length ≤ rest.length := by
            rw [List.length_drop]
            omega
          rw [checkFrom, checkFrom]
          cases countAt before c rest g with
          | error e => rfl
          | ok read =>
              have next : ∀ before g,
                  checkFrom rounds before (rest.drop read.1) g =
                    checkFrom more before (rest.drop read.1) g :=
                ih ((shorter _).trans (Nat.le_of_succ_le_succ enough))
                  ((shorter _).trans (Nat.le_of_succ_le_succ enough'))
              simp only [next, bind, Except.bind]

def run (before rest : Bytes) (g : Guard) : Except String Unit :=
  checkFrom rest.length before rest g

/-- The byte the guard remembers after a round. -/
def prevAfter (c prev : UInt8) : UInt8 :=
  if isAsciiWhitespace c then prev else c

theorem run_skip {before body rest : Bytes} {c : UInt8} {g : Guard} {k : Count}
    (read : countAt before c (body ++ rest) g = .ok (body.length, k)) :
    run before (c :: body ++ rest) g =
      if k.ops > maxOpChain then
        .error "more than 256 operators chained in one expression"
      else run (before ++ c :: body) rest ⟨k, prevAfter c g.prev⟩ := by
  rw [run, List.cons_append, List.length_cons, checkFrom, read]
  simp only [bind, Except.bind, List.take_left, List.drop_left]
  split
  · rfl
  · exact checkFrom_rounds (by simp) le_rfl _ _

theorem run_refuse {before rest : Bytes} {c : UInt8} {g : Guard} {e : String}
    (read : countAt before c rest g = .error e) :
    run before (c :: rest) g = .error e := by
  rw [run, List.length_cons, checkFrom, read]
  rfl

/-! ## What is skipped -/

theorem stringRest_plain {b : UInt8} (quote : b ≠ 34) (backslash : b ≠ 92)
    (bytes : Bytes) : stringRest (b :: bytes) = 1 + stringRest bytes := by
  cases bytes with
  | nil => rfl
  | cons c bytes => rw [stringRest, if_neg quote, if_neg backslash]

theorem stringRest_chars {body : List Char8} (closes : ∀ c ∈ body, c.Before 34)
    (rest : Bytes) :
    stringRest (body.flatMap Char8.bytes ++ 34 :: rest) =
      (body.flatMap Char8.bytes).length + 1 := by
  induction body with
  | nil => cases rest <;> rfl
  | cons c body ih =>
      have later := ih fun c member => closes c (List.mem_cons_of_mem _ member)
      have inside := closes c List.mem_cons_self
      rw [List.flatMap_cons, List.append_assoc, List.length_append]
      cases c with
      | byte b =>
          change stringRest (b :: (body.flatMap Char8.bytes ++ 34 :: rest)) =
            1 + _ + 1
          rw [stringRest_plain inside.1 inside.2, later]
          omega
      | escape b =>
          change 2 + stringRest (body.flatMap Char8.bytes ++ 34 :: rest) = 2 + _ + 1
          rw [later]
          omega

theorem lineRest_body {body : Bytes} (oneLine : ∀ b ∈ body, b ≠ 10)
    (rest : Bytes) : lineRest (47 :: body ++ 10 :: rest) = body.length + 2 := by
  have found : (47 :: body ++ 10 :: rest).findIdx (· = 10) = body.length + 1 := by
    rw [List.findIdx_append, if_neg]
    · simp [List.findIdx_cons, Nat.add_comm]
    · intro inside
      obtain ⟨b, member, feed⟩ := List.findIdx_lt_length.mp inside
      rcases List.mem_cons.mp member with rfl | inBody
      · simp at feed
      · exact oneLine b inBody (by simpa using feed)
  rw [lineRest, found]

theorem blockRest_body {body : Bytes} (opened : ¬ [42, 47] <:+: body)
    (rest : Bytes) : blockRest (body ++ 42 :: 47 :: rest) = body.length + 2 := by
  induction body with
  | nil => rfl
  | cons b body ih =>
      have later := ih fun found =>
        opened (found.trans (List.suffix_cons b body).isInfix)
      cases body with
      | nil =>
          change (if b = 42 ∧ (42 : UInt8) = 47 then 2 else 1 + _) = _
          rw [if_neg (by simp), List.length_singleton]
          rw [List.nil_append] at later
          rw [later]
          rfl
      | cons c body =>
          have open_ : ¬ (b = 42 ∧ c = 47) := by
            rintro ⟨rfl, rfl⟩
            exact opened ⟨[], body, rfl⟩
          change (if b = 42 ∧ c = 47 then 2 else 1 + blockRest (c :: _)) = _
          rw [if_neg open_]
          change 1 + blockRest (c :: body ++ _) = _
          rw [later]
          simp only [List.length_cons]
          omega

theorem regexRest_plain {inClass : Bool} {b : UInt8}
    (slash : inClass = true ∨ b ≠ 47) (backslash : b ≠ 92) (bytes : Bytes) :
    regexRest inClass (b :: bytes) =
      1 + regexRest (if b = 91 then true else if b = 93 then false else inClass)
        bytes := by
  have open_ : ¬ (!inClass ∧ b = 47) := by
    rcases slash with inside | other
    · simp [inside]
    · simp [other]
  cases bytes with
  | nil => rfl
  | cons c bytes => rw [regexRest, if_neg open_, if_neg backslash]

theorem regexRest_class {chars : List Char8} (closes : ∀ c ∈ chars, c.Before 93)
    (rest : Bytes) :
    regexRest true (chars.flatMap Char8.bytes ++ 93 :: rest) =
      (chars.flatMap Char8.bytes).length + 1 + regexRest false rest := by
  induction chars with
  | nil =>
      change regexRest true (93 :: rest) = _
      rw [regexRest_plain (.inl rfl) (by decide)]
      rfl
  | cons c chars ih =>
      have later := ih fun c member => closes c (List.mem_cons_of_mem _ member)
      have inside := closes c List.mem_cons_self
      rw [List.flatMap_cons, List.append_assoc, List.length_append]
      cases c with
      | byte b =>
          have stays : (if b = 91 then true else if b = 93 then false else true) =
              true := by
            rw [if_neg inside.1]
            simp
          change regexRest true (b :: (chars.flatMap Char8.bytes ++ 93 :: rest)) =
            1 + _ + 1 + _
          rw [regexRest_plain (.inl rfl) inside.2, stays, later]
          omega
      | escape b =>
          change regexRest true
            (92 :: b :: (chars.flatMap Char8.bytes ++ 93 :: rest)) = 2 + _ + 1 + _
          rw [regexRest, if_neg (by simp), if_pos rfl, later]
          omega

theorem regexRest_parts {parts : List RegexPart}
    (closes : ∀ part ∈ parts, part.WellFormed) (rest : Bytes) :
    regexRest false (parts.flatMap RegexPart.bytes ++ 47 :: rest) =
      (parts.flatMap RegexPart.bytes).length + 1 := by
  induction parts with
  | nil => cases rest <;> rfl
  | cons part parts ih =>
      have later := ih fun part member => closes part (List.mem_cons_of_mem _ member)
      have inside := closes part List.mem_cons_self
      rw [List.flatMap_cons, List.append_assoc, List.length_append]
      cases part with
      | cls chars =>
          have bytes_eq : (RegexPart.cls chars).bytes ++
              (parts.flatMap RegexPart.bytes ++ 47 :: rest) =
              91 :: (chars.flatMap Char8.bytes ++
                93 :: (parts.flatMap RegexPart.bytes ++ 47 :: rest)) := by
            simp [RegexPart.bytes]
          rw [bytes_eq, regexRest_plain (.inr (by decide)) (by decide),
            if_pos rfl, regexRest_class inside, later]
          simp only [RegexPart.bytes, List.length_append, List.length_singleton]
          omega
      | char c =>
          cases c with
          | byte b =>
              have stays : (if b = 91 then true else if b = 93 then false
                  else false) = false := by
                have notClass : b ≠ 91 := fun same => inside.2 (by rw [same])
                rw [if_neg notClass]
                simp
              change regexRest false
                (b :: (parts.flatMap RegexPart.bytes ++ 47 :: rest)) = 1 + _ + 1
              rw [regexRest_plain (.inr inside.1.1) inside.1.2, stays, later]
              omega
          | escape b =>
              change regexRest false
                (92 :: b :: (parts.flatMap RegexPart.bytes ++ 47 :: rest)) =
                  2 + _ + 1
              rw [regexRest, if_neg (by simp), if_pos rfl, later]
              omega

/-! ## Kinds of bytes -/

/-- A byte that the guard takes alone, for what it is. -/
def isSpecial (b : UInt8) : Bool :=
  ([34, 47, 40, 91, 41, 93, 44] : List UInt8).contains b

theorem kinds_byte (b : UInt8) :
    (isAsciiWhitespace b = true →
      isSpecial b = false ∧ startsWord b = false ∧ isOperator b = false) ∧
    (isDigit b = true →
      isSpecial b = false ∧ startsWord b = false ∧ isOperator b = false ∧
        isAsciiWhitespace b = false ∧ isSigil b = false ∧ b ≠ 61) ∧
    (isOperator b = true →
      isSpecial b = false ∧ startsWord b = false ∧
        isAsciiWhitespace b = false) ∧
    (isOther b = true →
      isSpecial b = false ∧ startsWord b = false ∧ isOperator b = false ∧
        isAsciiWhitespace b = false ∧ isSigil b = false ∧ b ≠ 61) ∧
    (isSigil b = true →
      isSpecial b = false ∧ startsWord b = false ∧
        isAsciiWhitespace b = false ∧ b ≠ 61) ∧
    (isWordByte b = true →
      isSpecial b = false ∧ isAsciiWhitespace b = false ∧ isSigil b = false ∧
        b ≠ 61 ∧ (startsWord b = true ∨ isDigit b = true)) ∧
    (startsWord b = true → isWordByte b = true) := by
  revert b
  apply forall_byte
  decide +kernel

theorem white_byte (b : UInt8) : isAsciiWhitespace b = true →
    isSpecial b = false ∧ startsWord b = false ∧ isOperator b = false :=
  (kinds_byte b).1

theorem digit_byte (b : UInt8) : isDigit b = true →
    isSpecial b = false ∧ startsWord b = false ∧ isOperator b = false ∧
      isAsciiWhitespace b = false ∧ isSigil b = false ∧ b ≠ 61 :=
  (kinds_byte b).2.1

theorem operator_byte (b : UInt8) : isOperator b = true →
    isSpecial b = false ∧ startsWord b = false ∧ isAsciiWhitespace b = false :=
  (kinds_byte b).2.2.1

theorem other_byte (b : UInt8) : isOther b = true →
    isSpecial b = false ∧ startsWord b = false ∧ isOperator b = false ∧
      isAsciiWhitespace b = false ∧ isSigil b = false ∧ b ≠ 61 :=
  (kinds_byte b).2.2.2.1

theorem sigil_byte (b : UInt8) : isSigil b = true →
    isSpecial b = false ∧ startsWord b = false ∧ isAsciiWhitespace b = false ∧
      b ≠ 61 :=
  (kinds_byte b).2.2.2.2.1

theorem word_byte (b : UInt8) : isWordByte b = true →
    isSpecial b = false ∧ isAsciiWhitespace b = false ∧ isSigil b = false ∧
      b ≠ 61 ∧ (startsWord b = true ∨ isDigit b = true) :=
  (kinds_byte b).2.2.2.2.2.1

theorem wordByte_of_start (b : UInt8) : startsWord b = true →
    isWordByte b = true :=
  (kinds_byte b).2.2.2.2.2.2

/-! ## One round -/

variable {before rest : Bytes} {g : Guard}

theorem countAt_special {c : UInt8} (special : isSpecial c = false) :
    countAt before c rest g =
      if startsWord c then
        let tail := rest.takeWhile isWordByte
        if before.getLast?.any isSigil then .ok (tail.length, g.toCount)
        else .ok (tail.length, g.word (c :: tail))
      else .ok (0, if isOperator c then g.operator else g.toCount) := by
  have others : c ≠ 34 ∧ c ≠ 47 ∧ c ≠ 40 ∧ c ≠ 91 ∧ c ≠ 41 ∧ c ≠ 93 ∧
      c ≠ 44 := by
    simpa [isSpecial] using special
  obtain ⟨quote, slash, paren, bracket, close, closeBracket, comma⟩ := others
  simp only [countAt, quote, slash, paren, bracket, close, closeBracket, comma,
    if_false, false_and, or_self]
  split
  · rfl
  · by_cases operator : isOperator c = true
    · simp [operator]
    · simp [operator]

theorem countAt_alone {c : UInt8} (special : isSpecial c = false)
    (notWord : startsWord c = false) :
    countAt before c rest g =
      .ok (0, if isOperator c then g.operator else g.toCount) := by
  rw [countAt_special special, if_neg (by simp [notWord])]

def Refuses (x : Except String Unit) : Prop :=
  ∃ e, x = .error e

theorem refuses_skip (body : Bytes) {c : UInt8} {k : Count}
    (read : countAt before c (body ++ rest) g = .ok (body.length, k)) :
    Refuses (run before (c :: body ++ rest) g) ↔
      k.ops > maxOpChain ∨
        Refuses (run (before ++ c :: body) rest ⟨k, prevAfter c g.prev⟩) := by
  rw [run_skip read]
  by_cases excess : k.ops > maxOpChain
  · rw [if_pos excess]
    exact ⟨fun _ => .inl excess, fun _ => ⟨_, rfl⟩⟩
  · rw [if_neg excess]
    exact ⟨.inr, fun either => either.resolve_left excess⟩

theorem not_exceeds {k : Count} (fits : ¬ k.Exceeds) :
    k.opened.length ≤ maxParenDepth ∧ k.ops ≤ maxOpChain := by
  simpa [Count.Exceeds] using fits

theorem refuses_skip_same (body : Bytes) {c : UInt8} (fits : ¬ g.Exceeds)
    (read : countAt before c (body ++ rest) g = .ok (body.length, g.toCount)) :
    Refuses (run before (c :: body ++ rest) g) ↔
      Refuses (run (before ++ c :: body) rest
        ⟨g.toCount, prevAfter c g.prev⟩) := by
  rw [refuses_skip body read]
  exact or_iff_right (Nat.not_lt.mpr (not_exceeds fits).2)

/-! ## Blanks -/

theorem refuses_gap (gap : Gap) (fits : ¬ g.Exceeds) :
    Refuses (run before (gap.bytes ++ rest) g) ↔
      Refuses (run (before ++ gap.bytes) rest
        ⟨g.toCount, if gap.isWhite then g.prev else 47⟩) := by
  cases gap with
  | white b isWhite =>
      obtain ⟨special, notWord, notOperator⟩ := white_byte b isWhite
      have read : countAt before b ([] ++ rest) g = .ok (0, g.toCount) := by
        rw [countAt_alone special notWord, notOperator]
        rfl
      rw [Gap.bytes, refuses_skip_same [] fits read, prevAfter,
        if_pos isWhite]
      rfl
  | block body opened =>
      have read : countAt before 47 ((42 :: body ++ [42, 47]) ++ rest) g =
          .ok ((42 :: body ++ [42, 47]).length, g.toCount) := by
        have skipped : 1 + blockRest (body ++ [42, 47] ++ rest) =
            (42 :: body ++ [42, 47]).length := by
          rw [List.append_assoc]
          change 1 + blockRest (body ++ 42 :: 47 :: rest) = _
          rw [blockRest_body opened]
          simp only [List.length_append, List.length_cons, List.length_nil]
          omega
        rw [← skipped]
        rfl
      exact refuses_skip_same _ fits read
  | line body oneLine =>
      have read : countAt before 47 ((47 :: body ++ [10]) ++ rest) g =
          .ok ((47 :: body ++ [10]).length, g.toCount) := by
        have skipped : lineRest (47 :: body ++ [10] ++ rest) =
            (47 :: body ++ [10]).length := by
          rw [List.append_assoc]
          change lineRest (47 :: body ++ 10 :: rest) = _
          rw [lineRest_body oneLine]
          simp
        rw [← skipped]
        rfl
      exact refuses_skip_same _ fits read

theorem refuses_gaps {gaps : List Gap} (fits : ¬ g.Exceeds) :
    ∃ prev, (Refuses (run before (gaps.flatMap Gap.bytes ++ rest) g) ↔
        Refuses (run (before ++ gaps.flatMap Gap.bytes) rest ⟨g.toCount, prev⟩)) ∧
      ((∀ gap ∈ gaps, gap.isWhite = true) → prev = g.prev) ∧
      (prev = 61 → g.prev = 61) := by
  induction gaps generalizing before g with
  | nil => exact ⟨g.prev, by simp, fun _ => rfl, id⟩
  | cons gap gaps ih =>
      obtain ⟨prev, same, white, equals⟩ :=
        @ih (before ++ gap.bytes)
          ⟨g.toCount, if gap.isWhite then g.prev else 47⟩ fits
      refine ⟨prev, ?_, ?_, ?_⟩
      · rw [List.flatMap_cons, List.append_assoc, refuses_gap gap fits, same,
          List.append_assoc]
      · intro all
        rw [white fun gap member => all gap (List.mem_cons_of_mem _ member)]
        exact if_pos (all gap List.mem_cons_self)
      · intro equal
        have here := equals equal
        dsimp only at here
        split at here
        · exact here
        · cases here

/-! ## Lexemes -/

/-- What a round needs to take the lexeme for what it is. -/
def Fine (before rest : Bytes) (prev : UInt8) : Lexeme → Prop
  | .word .. => before.getLast?.any isSigil = false ∧
      ∀ b ∈ rest.head?, isWordByte b = false
  | .named sigil name isSigil isWord =>
      (∀ b ∈ rest.head?, isWordByte b = false) ∧
        ¬ (Lexeme.named sigil name isSigil isWord).Numbered
  | .divide => (rest.head? ≠ some 42 ∧ rest.head? ≠ some 47) ∧
      regexMayStart before prev = false
  | .regexp .. => regexMayStart before prev = true
  | _ => True

theorem exceeds_iff {k : Count} (shallow : k.opened.length ≤ maxParenDepth) :
    k.Exceeds ↔ k.ops > maxOpChain :=
  or_iff_right (Nat.not_lt.mpr shallow)

theorem refuses_alone {c : UInt8} {k : Count}
    (read : countAt before c rest g = .ok (0, k))
    (shallow : k.opened.length ≤ maxParenDepth) :
    Refuses (run before ([c] ++ rest) g) ↔
      k.Exceeds ∨
        Refuses (run (before ++ [c]) rest ⟨k, prevAfter c g.prev⟩) := by
  rw [exceeds_iff shallow]
  exact refuses_skip [] read

theorem takeWhile_word {tail : Bytes} (isWord : ∀ b ∈ tail, isWordByte b = true)
    (ends : ∀ b ∈ rest.head?, isWordByte b = false) :
    (tail ++ rest).takeWhile isWordByte = tail := by
  rw [List.takeWhile_append_of_pos isWord]
  cases rest with
  | nil => simp
  | cons b rest => simp [ends b rfl]

theorem count_word_of_not_mem {word : Bytes} (unknown : word ∉ keywords)
    (k : Count) : k.word word = k := by
  simp only [keywords, List.mem_append, List.map_cons, List.map_nil,
    List.mem_cons, List.not_mem_nil, or_false, not_or] at unknown
  obtain ⟨⟨rule, condition, and_, or_⟩, operator⟩ := unknown
  simp [Count.word, rule, condition, and_, or_, operator]

/-- The letters and digits of a string's name count for nothing. -/
theorem refuses_name {name : Bytes} (fits : ¬ g.Exceeds)
    (isWord : ∀ b ∈ name, isWordByte b = true)
    (ends : ∀ b ∈ rest.head?, isWordByte b = false)
    (skipped : (∃ b ∈ name.head?, startsWord b = true) →
      before.getLast?.any isSigil = true ∨ name ∉ keywords)
    (later : (∃ b ∈ name.head?, isDigit b = true) →
      name.dropWhile isDigit ∉ keywords) :
    ∃ prev, (Refuses (run before (name ++ rest) g) ↔
        Refuses (run (before ++ name) rest ⟨g.toCount, prev⟩)) ∧
      (prev = 61 → g.prev = 61) := by
  induction name generalizing before g with
  | nil => exact ⟨g.prev, by simp, id⟩
  | cons b name ih =>
      obtain ⟨special, dark, notSigil, notEqual, kind⟩ :=
        word_byte b (isWord b List.mem_cons_self)
      have isWordTail : ∀ c ∈ name, isWordByte c = true := fun c member =>
        isWord c (List.mem_cons_of_mem b member)
      have prev_eq : prevAfter b g.prev = b := by
        rw [prevAfter, dark]
        rfl
      by_cases starts : startsWord b = true
      · have read : countAt before b (name ++ rest) g =
            .ok (name.length, g.toCount) := by
          rw [countAt_special special, if_pos starts,
            takeWhile_word isWordTail ends]
          dsimp only
          rcases skipped ⟨b, rfl, starts⟩ with sigil | unknown
          · rw [if_pos sigil]
          · rw [count_word_of_not_mem unknown, ite_self]
        refine ⟨b, ?_, fun equal => absurd equal notEqual⟩
        rw [refuses_skip_same name fits read, prev_eq]
      · have digit : isDigit b = true := kind.resolve_left starts
        have read : countAt before b ([] ++ (name ++ rest)) g =
            .ok (0, g.toCount) := by
          rw [countAt_alone special (by simpa using starts),
            (digit_byte b digit).2.2.1]
          rfl
        have drop_eq : (b :: name).dropWhile isDigit = name.dropWhile isDigit := by
          rw [List.dropWhile_cons, if_pos digit]
        have unknown := later ⟨b, rfl, digit⟩
        rw [drop_eq] at unknown
        obtain ⟨prev, same, equals⟩ :=
          @ih (before ++ [b]) ⟨g.toCount, b⟩ fits isWordTail
            (by
              rintro ⟨c, head, startsHere⟩
              right
              cases name with
              | nil => cases head
              | cons d name =>
                  cases head
                  have notDigit : isDigit c = false := by
                    by_contra isDigitHere
                    have clash := (digit_byte c (by simpa using isDigitHere)).2.1
                    rw [startsHere] at clash
                    cases clash
                  rw [List.dropWhile_cons, notDigit] at unknown
                  exact unknown)
            (fun _ => unknown)
        refine ⟨prev, ?_, fun equal => absurd (equals equal) notEqual⟩
        have first := refuses_skip_same [] fits read
        rw [prev_eq] at first
        rw [List.cons_append]
        refine first.trans (same.trans ?_)
        rw [List.append_assoc]
        rfl

namespace Count

@[simp] theorem operator_opened (k : Count) : k.operator.opened = k.opened := by
  unfold operator
  split <;> rfl

@[simp] theorem word_opened (k : Count) (word : Bytes) :
    (k.word word).opened = k.opened := by
  unfold Count.word
  split_ifs <;> rfl

theorem closing_opened (k : Count) (b : UInt8) :
    (k.closing b).opened.length ≤ k.opened.length := by
  unfold closing
  split
  · simp
  · exact le_rfl

end Count

theorem countAt_opening {c : UInt8} (opens : c = 40 ∨ c = 91)
    (fits : ¬ g.Exceeds) :
    countAt before c rest g =
      if (g.opening c).opened.length > maxParenDepth then
        .error "parentheses nested more than 10 deep"
      else .ok (0, g.opening c) := by
  have here : (g.opening c).opened.length > maxParenDepth →
      c = 40 ∨ g.inCondition = true := by
    intro deep
    by_contra neither
    rw [Count.opening, if_neg neither] at deep
    exact absurd (not_exceeds fits).1 (by omega)
  have condition : ((g.opening c).opened.length > maxParenDepth ∧
      (c = 40 ∨ g.inCondition = true)) =
      ((g.opening c).opened.length > maxParenDepth) :=
    propext ⟨And.left, fun deep => ⟨deep, here deep⟩⟩
  have arm : countAt before c rest g =
      if (g.opening c).opened.length > maxParenDepth ∧
          (c = 40 ∨ g.inCondition = true) then
        .error "parentheses nested more than 10 deep"
      else .ok (0, g.opening c) := by
    rcases opens with rfl | rfl <;> rfl
  rw [arm]
  simp only [condition]

/-- A regular expression does not start like a comment. -/
theorem head_regexp {first : RegexPart} {tail : List RegexPart}
    (notComment : first ≠ .char (.byte 42))
    (closes : ∀ part ∈ first :: tail, part.WellFormed) (bytes : Bytes) :
    (first.bytes ++ bytes).head? ≠ some 47 ∧
      (first.bytes ++ bytes).head? ≠ some 42 := by
  have inside := closes first List.mem_cons_self
  cases first with
  | cls chars => simp [RegexPart.bytes]
  | char c =>
      cases c with
      | escape b => simp [RegexPart.bytes, Char8.bytes]
      | byte b =>
          have notSlash : b ≠ 47 := inside.1.1
          have notStar : b ≠ 42 := fun same => notComment (by rw [same])
          simp [RegexPart.bytes, Char8.bytes, notSlash, notStar]

/-- The lexeme is `=` itself. -/
def Lexeme.IsEqual : Lexeme → Prop
  | operator b _ => b = 61
  | _ => False

theorem refuses_lexeme (l : Lexeme) (fits : ¬ g.Exceeds)
    (fine : Fine before rest g.prev l) :
    ∃ prev, (Refuses (run before (l.bytes ++ rest) g) ↔
        (l.count g.toCount).Exceeds ∨
          Refuses (run (before ++ l.bytes) rest ⟨l.count g.toCount, prev⟩)) ∧
      (prev = 61 ↔ l.IsEqual) := by
  have shallow := (not_exceeds fits).1
  have shallowAfter : g.operator.opened.length ≤ maxParenDepth := by
    rw [Count.operator_opened]
    exact shallow
  -- A lexeme that counts nothing.
  have nothing {prev : UInt8} {bytes : Bytes}
      (same : Refuses (run before (bytes ++ rest) g) ↔
        Refuses (run (before ++ bytes) rest ⟨g.toCount, prev⟩)) :
      Refuses (run before (bytes ++ rest) g) ↔ g.Exceeds ∨
        Refuses (run (before ++ bytes) rest ⟨g.toCount, prev⟩) := by
    rw [same]
    exact (or_iff_right fits).symm
  cases l with
  | word first tail starts isWord =>
      obtain ⟨notSigil, ends⟩ := fine
      obtain ⟨special, dark, _, notEqual, _⟩ :=
        word_byte first (wordByte_of_start first starts)
      have read : countAt before first (tail ++ rest) g =
          .ok (tail.length, g.word (first :: tail)) := by
        rw [countAt_special special, if_pos starts, takeWhile_word isWord ends]
        dsimp only
        rw [if_neg (by simp [notSigil])]
      refine ⟨prevAfter first g.prev, ?_, ?_⟩
      · rw [Lexeme.count, exceeds_iff (by rw [Count.word_opened]; exact shallow)]
        exact refuses_skip tail read
      · rw [prevAfter, dark]
        exact ⟨fun equal => absurd equal notEqual, False.elim⟩
  | named sigil name sigilByte isWord =>
      obtain ⟨ends, notNumbered⟩ := fine
      obtain ⟨special, notWord, dark, notEqual⟩ := sigil_byte sigil sigilByte
      have read : countAt before sigil (name ++ rest) g =
          .ok (0, (Lexeme.named sigil name sigilByte isWord).count g.toCount) :=
        countAt_alone special notWord
      have shallowHere : ((Lexeme.named sigil name sigilByte isWord).count
          g.toCount).opened.length ≤ maxParenDepth := by
        rw [Lexeme.count]
        split
        · exact shallowAfter
        · exact shallow
      have round := refuses_alone read shallowHere
      rw [prevAfter, dark] at round
      generalize (Lexeme.named sigil name sigilByte isWord).count g.toCount = k
        at round
      by_cases exceeds : k.Exceeds
      · refine ⟨sigil, ?_, ⟨fun equal => absurd equal notEqual, False.elim⟩⟩
        exact ⟨fun _ => .inl exceeds, fun _ => round.mpr (.inl exceeds)⟩
      · have sigilBefore : (before ++ [sigil]).getLast?.any isSigil = true := by
          simp [sigilByte]
        obtain ⟨prev, same, equals⟩ :=
          @refuses_name (before ++ [sigil]) rest ⟨k, sigil⟩ name exceeds isWord ends
            (fun _ => .inl sigilBefore)
            (fun digit keyword => notNumbered ⟨digit, keyword⟩)
        refine ⟨prev, ?_, ⟨fun equal => absurd (equals equal) notEqual,
          False.elim⟩⟩
        refine round.trans (or_congr_right (same.trans ?_))
        rw [List.append_assoc]
        rfl
  | digit b isDigit =>
      obtain ⟨special, notWord, notOperator, dark, _, notEqual⟩ :=
        digit_byte b isDigit
      refine ⟨b, nothing ?_, ⟨fun equal => absurd equal notEqual, False.elim⟩⟩
      have read : countAt before b ([] ++ rest) g = .ok (0, g.toCount) := by
        rw [countAt_alone special notWord, notOperator]
        rfl
      have round := refuses_skip_same [] fits read
      rw [prevAfter, dark] at round
      exact round
  | operator b isOperator =>
      obtain ⟨special, notWord, dark⟩ := operator_byte b isOperator
      refine ⟨b, ?_, Iff.rfl⟩
      have read : countAt before b rest g = .ok (0, g.operator) := by
        rw [countAt_alone special notWord, isOperator]
        rfl
      have round := refuses_alone read shallowAfter
      rw [prevAfter, dark] at round
      exact round
  | divide =>
      obtain ⟨⟨notBlock, notLine⟩, notRegexp⟩ := fine
      refine ⟨47, ?_, ⟨fun equal => absurd equal (by decide), False.elim⟩⟩
      have read : countAt before 47 rest g = .ok (0, g.operator) := by
        simp [countAt, notBlock, notLine, notRegexp, startsWord, isAlpha]
      exact refuses_alone read shallowAfter
  | opening b opens =>
      have dark : isAsciiWhitespace b = false ∧ b ≠ 61 := by
        rcases opens with rfl | rfl <;> decide
      refine ⟨b, ?_, ⟨fun equal => absurd equal dark.2, False.elim⟩⟩
      have arm : countAt before b rest g = _ := countAt_opening opens fits
      by_cases deep : (g.opening b).opened.length > maxParenDepth
      · rw [if_pos deep] at arm
        exact ⟨fun _ => .inl (.inl deep), fun _ => ⟨_, run_refuse arm⟩⟩
      · rw [if_neg deep] at arm
        have round := refuses_alone arm (Nat.not_lt.mp deep)
        rw [prevAfter, dark.1] at round
        exact round
  | closing b closes =>
      have dark : isAsciiWhitespace b = false ∧ b ≠ 61 := by
        rcases closes with rfl | rfl <;> decide
      refine ⟨b, ?_, ⟨fun equal => absurd equal dark.2, False.elim⟩⟩
      have arm : countAt before b rest g = .ok (0, g.closing b) := by
        rcases closes with rfl | rfl <;> rfl
      have round := refuses_alone arm ((Count.closing_opened _ b).trans shallow)
      rw [prevAfter, dark.1] at round
      exact round
  | comma =>
      refine ⟨44, ?_, ⟨fun equal => absurd equal (by decide), False.elim⟩⟩
      exact refuses_alone rfl shallow
  | other b isOther =>
      obtain ⟨special, notWord, notOperator, dark, _, notEqual⟩ :=
        other_byte b isOther
      refine ⟨b, nothing ?_, ⟨fun equal => absurd equal notEqual, False.elim⟩⟩
      have read : countAt before b ([] ++ rest) g = .ok (0, g.toCount) := by
        rw [countAt_alone special notWord, notOperator]
        rfl
      have round := refuses_skip_same [] fits read
      rw [prevAfter, dark] at round
      exact round
  | string body closes =>
      refine ⟨34, nothing ?_, ⟨fun equal => absurd equal (by decide), False.elim⟩⟩
      have read : countAt before 34 ((body.flatMap Char8.bytes ++ [34]) ++ rest) g =
          .ok ((body.flatMap Char8.bytes ++ [34]).length, g.toCount) := by
        have skipped : stringRest ((body.flatMap Char8.bytes ++ [34]) ++ rest) =
            (body.flatMap Char8.bytes ++ [34]).length := by
          rw [List.append_assoc]
          change stringRest (_ ++ 34 :: rest) = _
          rw [stringRest_chars closes, List.length_append, List.length_singleton]
        rw [← skipped]
        rfl
      exact refuses_skip_same _ fits read
  | regexp first tail notComment closes =>
      refine ⟨47, nothing ?_, ⟨fun equal => absurd equal (by decide), False.elim⟩⟩
      have starts : regexMayStart before g.prev = true := fine
      have read : countAt before 47
          (((first :: tail).flatMap RegexPart.bytes ++ [47]) ++ rest) g =
          .ok (((first :: tail).flatMap RegexPart.bytes ++ [47]).length,
            g.toCount) := by
        have skipped : regexRest false
            (((first :: tail).flatMap RegexPart.bytes ++ [47]) ++ rest) =
            ((first :: tail).flatMap RegexPart.bytes ++ [47]).length := by
          rw [List.append_assoc]
          change regexRest false (_ ++ 47 :: rest) = _
          rw [regexRest_parts closes, List.length_append, List.length_singleton]
        obtain ⟨notLine, notBlock⟩ := head_regexp notComment closes
          (((tail.flatMap RegexPart.bytes) ++ [47]) ++ rest)
        have head_eq : ((first :: tail).flatMap RegexPart.bytes ++ [47]) ++ rest =
            first.bytes ++ ((tail.flatMap RegexPart.bytes ++ [47]) ++ rest) := by
          simp
        rw [← skipped, countAt, if_neg (by decide), if_neg, if_neg, if_pos]
        · exact ⟨rfl, starts⟩
        · rw [head_eq]
          exact fun block => notBlock block.2
        · rw [head_eq]
          exact fun line => notLine line.2
      exact refuses_skip_same _ fits read

end Exav.Yara
