import Mathlib
import Exav.Unpack.Volume

/-!
# The names of a set's volumes

The name of any volume is made from the pattern of one.  It parses as that volume
of that set unless the number takes a digit too many for the scheme, or the name
falls in the pattern of another; and a name is the one made of its own number
when it is written in lower case.
-/

namespace Exav.Volume

/-! ## Names made -/

/-- The widest field that is formatted; a wider one ends the program. -/
def maxWidth : Nat := 65535

/-- A number in decimal, filled up with zeros. -/
def padded (width n : Nat) : Name :=
  List.replicate (width - (Nat.toDigits 10 n).length) '0' ++ Nat.toDigits 10 n

def formatted (width n : Nat) : Option Name :=
  if width ≤ maxWidth then some (padded width n) else none

/-- One more; a sum past the greatest number ends the program. -/
def checkedSucc (n : Nat) : Option Nat :=
  if n < usizeMax then some (n + 1) else none

/-- What follows the stem in the name of a volume. -/
def Scheme.suffixAt (scheme : Scheme) (index : Nat) : Option Name :=
  match scheme with
  | .rarPart width => do
      let digits ← formatted width (← checkedSucc index)
      some (".part".toList ++ digits ++ ".rar".toList)
  | .rarOld =>
      if index = 0 then some ".rar".toList
      else if index ≤ 100 then some ('.' :: 'r' :: padded 2 (index - 1))
      else none
  | .numberedSuffix baseExt width => do
      let digits ← formatted width (← checkedSucc index)
      some ('.' :: baseExt ++ '.' :: digits)
  | .zipSplit => do
      let n ← checkedSucc index
      some ('.' :: 'z' :: padded 2 n)

def VolumeName.nameAt (v : VolumeName) (index : Nat) : Option Name :=
  (v.scheme.suffixAt index).map (v.stem ++ ·)

/-! ## Digits -/

def value (digits : Name) : Nat := Nat.ofDigitChars 10 digits 0

theorem parseNumber_eq (digits : Name) :
    parseNumber digits =
      if value digits ≤ usizeMax then some (value digits) else none := by
  have same : digits.foldl (fun n c => n * 10 + (c.toNat - '0'.toNat)) 0 =
      value digits := by
    rw [value, Nat.ofDigitChars_eq_foldl]
    congr 1
    funext n c
    rw [Nat.mul_comm]
  rw [parseNumber, same]

theorem value_padded (width n : Nat) : value (padded width n) = n := by
  rw [value, padded, Nat.ofDigitChars_append, Nat.ofDigitChars_replicate_zero,
    Nat.mul_zero, Nat.ofDigitChars_ten_toDigits]

theorem isDigit_padded {width n : Nat} {c : Char} (member : c ∈ padded width n) :
    c.isDigit = true := by
  rcases List.mem_append.mp member with zero | digit
  · rw [List.eq_of_mem_replicate zero]
    rfl
  · exact Nat.isDigit_of_mem_toDigits (by decide) (by decide) digit

theorem all_padded (width n : Nat) : (padded width n).all Char.isDigit = true :=
  List.all_eq_true.mpr fun _ member => isDigit_padded member

theorem padded_ne_nil (width n : Nat) : padded width n ≠ [] :=
  List.append_ne_nil_of_right_ne_nil _ Nat.toDigits_ne_nil

theorem length_padded {width n : Nat} (some : 0 < width)
    (small : n < 10 ^ width) : (padded width n).length = width := by
  have fits := (Nat.length_toDigits_le_iff (by decide) some).mpr small
  rw [padded, List.length_append, List.length_replicate]
  omega

theorem lt_length_padded {width n : Nat} (some : 0 < width)
    (large : 10 ^ width ≤ n) : width < (padded width n).length := by
  have long := mt (Nat.length_toDigits_le_iff (b := 10) (n := n) (by decide)
    some).mp (Nat.not_lt.mpr large)
  rw [padded, List.length_append]
  omega

theorem value_cons (c : Char) (digits : Name) :
    value (c :: digits) =
      10 ^ digits.length * (c.toNat - 48) + value digits := by
  rw [value, Nat.ofDigitChars_cons, Nat.ofDigitChars_eq_ofDigitChars_zero,
    Nat.mul_zero, Nat.zero_add]
  rfl

theorem digit_bounds {c : Char} (digit : c.isDigit = true) :
    48 ≤ c.toNat ∧ c.toNat ≤ 57 := by
  rw [Char.isDigit, Bool.and_eq_true, decide_eq_true_eq, decide_eq_true_eq] at digit
  exact ⟨digit.1, digit.2⟩

theorem value_lt {digits : Name} (all : ∀ c ∈ digits, c.isDigit = true) :
    value digits < 10 ^ digits.length := by
  induction digits with
  | nil => exact Nat.one_pos
  | cons c digits ih =>
      have rest := ih fun d member => all d (List.mem_cons_of_mem _ member)
      have bounds := digit_bounds (all c List.mem_cons_self)
      have top : 10 ^ digits.length * (c.toNat - 48) ≤ 10 ^ digits.length * 9 :=
        Nat.mul_le_mul_left _ (by omega)
      rw [value_cons, List.length_cons, Nat.pow_succ]
      omega

theorem digits_ext {a b : Name} (allA : ∀ c ∈ a, c.isDigit = true)
    (allB : ∀ c ∈ b, c.isDigit = true) (length : a.length = b.length)
    (same : value a = value b) : a = b := by
  induction a generalizing b with
  | nil => exact (List.length_eq_zero_iff.mp length.symm).symm
  | cons c a ih =>
      cases b with
      | nil => cases length
      | cons d b =>
          have long : a.length = b.length := Nat.succ.inj length
          have restA := fun e member => allA e (List.mem_cons_of_mem c member)
          have restB := fun e member => allB e (List.mem_cons_of_mem d member)
          have smallA := value_lt restA
          have smallB := value_lt restB
          have boundsC := digit_bounds (allA c List.mem_cons_self)
          have boundsD := digit_bounds (allB d List.mem_cons_self)
          rw [value_cons, value_cons, ← long] at same
          rw [← long] at smallB
          have some : 0 < 10 ^ a.length := Nat.pow_pos (by decide)
          have tops := congrArg (· / 10 ^ a.length) same
          simp only [Nat.mul_add_div some, Nat.div_eq_of_lt smallA,
            Nat.div_eq_of_lt smallB] at tops
          have first : c = d := Char.ext (UInt32.toNat_inj.mp (by
            change c.toNat = d.toNat
            omega))
          subst first
          rw [ih restA restB long (by omega)]

theorem padded_value {digits : Name} (some : digits ≠ [])
    (all : digits.all Char.isDigit = true) :
    padded digits.length (value digits) = digits := by
  have each := List.all_eq_true.mp all
  exact digits_ext (fun _ member => isDigit_padded member) each
    (length_padded (List.length_pos_iff.mpr some) (value_lt each))
    (value_padded _ _)

/-! ## Lower case -/

@[simp] theorem length_toAsciiLowercase (name : Name) :
    (toAsciiLowercase name).length = name.length :=
  List.length_map _

@[simp] theorem toAsciiLowercase_append (a b : Name) :
    toAsciiLowercase (a ++ b) = toAsciiLowercase a ++ toAsciiLowercase b :=
  List.map_append

theorem toLower_of_digit {c : Char} (digit : c.isDigit = true) : c.toLower = c := by
  have bounds := digit_bounds digit
  rw [Char.toLower, dif_neg]
  rintro ⟨above, -⟩
  have least : 65 ≤ c.toNat := above
  omega

theorem toAsciiLowercase_digits {digits : Name}
    (all : digits.all Char.isDigit = true) : toAsciiLowercase digits = digits := by
  have each := List.all_eq_true.mp all
  calc toAsciiLowercase digits
    _ = digits.map id :=
        List.map_congr_left fun c member => toLower_of_digit (each c member)
    _ = digits := List.map_id digits

theorem toLower_toLower (c : Char) : c.toLower.toLower = c.toLower := by
  apply Char.ext
  unfold Char.toLower
  grind

theorem toAsciiLowercase_idem (name : Name) :
    toAsciiLowercase (toAsciiLowercase name) = toAsciiLowercase name := by
  rw [toAsciiLowercase, toAsciiLowercase, List.map_map]
  exact List.map_congr_left fun c _ => toLower_toLower c

theorem isAlphanum_toLower {c : Char} (alnum : c.isAlphanum = true) :
    c.toLower.isAlphanum = true := by
  unfold Char.toLower
  split
  next upper =>
    have least : (97 : UInt32) ≤ c.val + 32 := by grind
    have most : c.val + 32 ≤ (122 : UInt32) := by grind
    simp [Char.isAlphanum, Char.isAlpha, Char.isLower, least, most]
  next => exact alnum

theorem all_isAlphanum_toAsciiLowercase {name : Name}
    (all : name.all Char.isAlphanum = true) :
    (toAsciiLowercase name).all Char.isAlphanum = true := by
  rw [List.all_eq_true] at all ⊢
  intro c member
  obtain ⟨d, inside, rfl⟩ := List.mem_map.mp member
  exact isAlphanum_toLower (all d inside)

/-! ## Where a name is cut -/

theorem rsplitAt_last {letters after : Name} (bare : '.' ∉ letters)
    (last : '.' ∉ after) (before : Name) :
    rsplitAt ('.' :: letters) (before ++ '.' :: (letters ++ after)) =
      some (before, after) := by
  have nothing {name : Name} (dots : '.' ∉ name) :
      rsplitAt ('.' :: letters) name = none := by
    induction name with
    | nil => rfl
    | cons c name ih =>
        rw [List.mem_cons, not_or] at dots
        have other : ('.' == c) = false := beq_eq_false_iff_ne.mpr dots.1
        rw [rsplitAt, ih dots.2]
        simp [List.isPrefixOf, other]
  induction before with
  | nil =>
      have rest : rsplitAt ('.' :: letters) (letters ++ after) = none :=
        nothing (by simp [bare, last])
      have here : ('.' :: letters).isPrefixOf ('.' :: (letters ++ after)) = true :=
        List.isPrefixOf_iff_prefix.mpr ⟨after, rfl⟩
      rw [List.nil_append, rsplitAt, rest]
      dsimp only
      rw [if_pos here, List.length_cons, List.drop_succ_cons, List.drop_left]
  | cons c before ih => rw [List.cons_append, rsplitAt, ih]

theorem eq_of_rsplitAt {pat name before after : Name}
    (cut : rsplitAt pat name = some (before, after)) :
    name = before ++ (pat ++ after) := by
  induction name generalizing before with
  | nil => cases cut
  | cons c name ih =>
      rw [rsplitAt] at cut
      cases rest : rsplitAt pat name with
      | some pair =>
          rw [rest] at cut
          cases cut
          rw [ih rest, List.cons_append]
      | none =>
          rw [rest] at cut
          dsimp only at cut
          split_ifs at cut with here
          cases cut
          obtain ⟨after, whole⟩ := List.isPrefixOf_iff_prefix.mp here
          rw [← whole, List.drop_left, List.nil_append]

theorem stripSuffix_append (front suffix : Name) :
    stripSuffix suffix (front ++ suffix) = some front := by
  have here : suffix.isSuffixOf (front ++ suffix) = true :=
    List.isSuffixOf_iff_suffix.mpr ⟨front, rfl⟩
  rw [stripSuffix, if_pos here, List.length_append, Nat.add_sub_cancel,
    List.take_left]

theorem eq_of_stripSuffix {suffix name front : Name}
    (cut : stripSuffix suffix name = some front) : name = front ++ suffix := by
  rw [stripSuffix] at cut
  split_ifs at cut with here
  obtain ⟨before, rfl⟩ := List.isSuffixOf_iff_suffix.mp here
  rw [List.length_append, Nat.add_sub_cancel, List.take_left] at cut
  cases cut
  rfl

/-- What ends in a digit does not end in `.rar`. -/
theorem stripSuffix_digits {digits : Name} (some : digits ≠ [])
    (all : digits.all Char.isDigit = true) (front : Name) :
    stripSuffix ".rar".toList (front ++ digits) = none := by
  rw [stripSuffix, if_neg]
  intro here
  obtain ⟨before, whole⟩ := List.isSuffixOf_iff_suffix.mp here
  have lasts := congrArg List.getLast? whole
  rw [List.getLast?_append_of_ne_nil _ some, List.getLast?_append_of_ne_nil _ (by
    decide)] at lasts
  have member : 'r' ∈ digits := List.mem_of_getLast? lasts.symm
  exact absurd (List.all_eq_true.mp all _ member) (by decide)

/-! ## The parse of a name that is made -/

variable {stem base digits : Name} {n index : Nat}

theorem no_dot (all : digits.all Char.isDigit = true) : '.' ∉ digits :=
  fun member => absurd (List.all_eq_true.mp all _ member) (by decide)

theorem take_stem (stem rest : Name) :
    (stem ++ rest).take (toAsciiLowercase stem).length = stem := by
  rw [length_toAsciiLowercase, List.take_left]

theorem parse_rarPart (some : digits ≠ []) (all : digits.all Char.isDigit = true)
    (number : value digits = index + 1) (fits : index + 1 ≤ usizeMax) :
    parse (stem ++ (".part".toList ++ digits ++ ".rar".toList)) =
      .some ⟨stem, index, .rarPart digits.length⟩ := by
  have lower : toAsciiLowercase
      (stem ++ (".part".toList ++ digits ++ ".rar".toList)) =
      (toAsciiLowercase stem ++ (".part".toList ++ digits)) ++ ".rar".toList := by
    simp only [toAsciiLowercase_append, toAsciiLowercase_digits all,
      List.append_assoc]
    rfl
  have cut : rsplitAt ".part".toList
      (toAsciiLowercase stem ++ (".part".toList ++ digits)) =
      .some (toAsciiLowercase stem, digits) :=
    @rsplitAt_last "part".toList _ (by decide) (no_dot all) _
  simp only [parse]
  rw [lower, stripSuffix_append]
  simp only [parseRar]
  rw [cut]
  dsimp only
  rw [if_pos ⟨some, all⟩, parseNumber_eq, number, if_pos fits]
  change Option.some (VolumeName.mk _ index _) = _
  rw [take_stem]

/-- Whether what stands before `.rar` ends in `.part` and digits. -/
def EndsInPart (lower : Name) : Prop :=
  ∃ before digits, rsplitAt ".part".toList lower = .some (before, digits) ∧
    digits ≠ [] ∧ digits.all Char.isDigit = true

/-- The bare `.rar` is the first volume unless it is a numbered part. -/
theorem parse_rar (stem : Name) :
    (¬ EndsInPart (toAsciiLowercase stem) ∧
      parse (stem ++ ".rar".toList) = .some ⟨stem, 0, .rarOld⟩) ∨
    (EndsInPart (toAsciiLowercase stem) ∧
      ∀ v, parse (stem ++ ".rar".toList) = .some v → ∃ width,
        v.scheme = .rarPart width) := by
  have lower : toAsciiLowercase (stem ++ ".rar".toList) =
      toAsciiLowercase stem ++ ".rar".toList := toAsciiLowercase_append _ _
  simp only [parse]
  rw [lower, stripSuffix_append]
  simp only [parseRar, take_stem]
  cases cut : rsplitAt ".part".toList (toAsciiLowercase stem) with
  | none =>
      left
      refine ⟨?_, rfl⟩
      rintro ⟨before, digits, found, -⟩
      rw [cut] at found
      cases found
  | some pair =>
      dsimp only
      split_ifs with part
      · right
        refine ⟨⟨_, _, cut, part⟩, fun v made => ?_⟩
        obtain ⟨m, -, made⟩ := Option.bind_eq_some_iff.mp made
        obtain ⟨i, -, made⟩ := Option.bind_eq_some_iff.mp made
        cases made
        exact ⟨_, rfl⟩
      · left
        refine ⟨?_, rfl⟩
        rintro ⟨before, digits, found, some, all⟩
        rw [cut] at found
        cases found
        exact part ⟨some, all⟩

theorem parse_letter {letter : Char} (plain : letter.toLower = letter)
    (bare : letter ≠ '.') (some : digits ≠ [])
    (all : digits.all Char.isDigit = true) :
    parse (stem ++ '.' :: letter :: digits) =
      parseExt (stem ++ '.' :: letter :: digits) (toAsciiLowercase stem)
        (letter :: digits) := by
  have lower : toAsciiLowercase (stem ++ '.' :: letter :: digits) =
      toAsciiLowercase stem ++ '.' :: ([] ++ letter :: digits) := by
    rw [toAsciiLowercase_append]
    change _ ++ '.' :: letter.toLower :: toAsciiLowercase digits = _
    rw [plain, toAsciiLowercase_digits all]
    rfl
  have apart : toAsciiLowercase stem ++ '.' :: ([] ++ letter :: digits) =
      (toAsciiLowercase stem ++ ['.', letter]) ++ digits := by simp
  have after : '.' ∉ letter :: digits := by
    rw [List.mem_cons, not_or]
    exact ⟨bare.symm, no_dot all⟩
  have strip := stripSuffix_digits some all (toAsciiLowercase stem ++ ['.', letter])
  have cut := rsplitAt_last List.not_mem_nil after (toAsciiLowercase stem)
  simp only [parse]
  rw [lower, apart, strip, ← apart, cut]
  rfl

theorem twoDigits_self {letter : Char} (two : digits.length = 2)
    (all : digits.all Char.isDigit = true) :
    twoDigits letter (letter :: digits) = some digits :=
  if_pos ⟨rfl, two, all⟩

theorem twoDigits_other {letter c : Char}
    (other : ¬ (c = letter ∧ digits.length = 2)) :
    twoDigits letter (c :: digits) = none := by
  rw [twoDigits, if_neg fun same => other ⟨same.1, same.2.1⟩]

theorem parse_rarOld (two : digits.length = 2)
    (all : digits.all Char.isDigit = true) :
    parse (stem ++ '.' :: 'r' :: digits) =
      some ⟨stem, value digits + 1, .rarOld⟩ := by
  have nonempty : digits ≠ [] := by
    rintro rfl
    cases two
  have small := value_lt (List.all_eq_true.mp all)
  rw [two] at small
  rw [parse_letter rfl (by decide) nonempty all, parseExt, twoDigits_self two all]
  dsimp only
  rw [parseNumber_eq, if_pos (by unfold usizeMax; omega), take_stem]
  rfl

theorem parse_zipSplit (all : digits.all Char.isDigit = true)
    (number : value digits = index + 1) (two : digits.length = 2) :
    parse (stem ++ '.' :: 'z' :: digits) = some ⟨stem, index, .zipSplit⟩ := by
  have nonempty : digits ≠ [] := by
    rintro rfl
    cases two
  have small := value_lt (List.all_eq_true.mp all)
  rw [two] at small
  have other : twoDigits 'r' ('z' :: digits) = none :=
    twoDigits_other fun same => absurd same.1 (by decide)
  rw [parse_letter rfl (by decide) nonempty all, parseExt, other]
  dsimp only
  rw [twoDigits_self two all]
  dsimp only
  rw [parseNumber_eq, if_pos (by unfold usizeMax; omega), take_stem, number]
  rfl

theorem parse_zipSplit_long (all : digits.all Char.isDigit = true)
    (long : 2 < digits.length) :
    parse (stem ++ '.' :: 'z' :: digits) = none := by
  have nonempty : digits ≠ [] := by
    rintro rfl
    exact absurd long (by decide)
  have old : twoDigits 'r' ('z' :: digits) = none :=
    twoDigits_other fun same => absurd same.1 (by decide)
  have zip : twoDigits 'z' ('z' :: digits) = none :=
    twoDigits_other fun same => absurd same.2 (by omega)
  rw [parse_letter rfl (by decide) nonempty all, parseExt, old]
  dsimp only
  rw [zip]
  exact if_neg fun same => absurd same.2 (by simp)

theorem parse_numberedSuffix (nonempty : base ≠ [])
    (alnum : base.all Char.isAlphanum = true) (two : 2 ≤ digits.length)
    (all : digits.all Char.isDigit = true) (number : value digits = index + 1)
    (fits : index + 1 ≤ usizeMax) :
    parse (stem ++ '.' :: base ++ '.' :: digits) =
      some ⟨stem, index,
        .numberedSuffix (toAsciiLowercase base) digits.length⟩ := by
  have some : digits ≠ [] := by
    rintro rfl
    exact absurd two (by decide)
  have lower : toAsciiLowercase (stem ++ '.' :: base ++ '.' :: digits) =
      (toAsciiLowercase stem ++ '.' :: toAsciiLowercase base ++ ['.']) ++
        digits := by
    simp only [toAsciiLowercase_append, List.append_assoc]
    change _ ++ ('.' :: _ ++ ('.' :: toAsciiLowercase digits)) = _
    rw [toAsciiLowercase_digits all]
    rfl
  have strip := stripSuffix_digits some all
    (toAsciiLowercase stem ++ '.' :: toAsciiLowercase base ++ ['.'])
  have apart : (toAsciiLowercase stem ++ '.' :: toAsciiLowercase base ++ ['.']) ++
      digits = (toAsciiLowercase stem ++ '.' :: toAsciiLowercase base) ++
        '.' :: ([] ++ digits) := by simp
  have cut := rsplitAt_last List.not_mem_nil (no_dot all)
    (toAsciiLowercase stem ++ '.' :: toAsciiLowercase base)
  have alnums := all_isAlphanum_toAsciiLowercase alnum
  have within : '.' ∉ toAsciiLowercase base := fun member =>
    absurd (List.all_eq_true.mp alnums _ member) (by decide)
  have again := rsplitAt_last List.not_mem_nil within (toAsciiLowercase stem)
  rw [List.nil_append] at again
  have letters (letter : Char) (notDigit : letter.isDigit = false) :
      twoDigits letter digits = none := by
    cases digits with
    | nil => rfl
    | cons c digits =>
        refine twoDigits_other fun same => ?_
        have digit := List.all_eq_true.mp all c List.mem_cons_self
        rw [same.1, notDigit] at digit
        cases digit
  have filled : ¬ (toAsciiLowercase base = [] ∨
      (!(toAsciiLowercase base).all Char.isAlphanum) = true) := by
    rw [alnums]
    rintro (empty | no)
    · exact nonempty (List.map_eq_nil_iff.mp empty)
    · cases no
  simp only [parse]
  rw [lower, strip, apart, cut]
  change parseExt _ _ digits = _
  rw [parseExt, letters 'r' (by decide)]
  dsimp only
  rw [letters 'z' (by decide)]
  dsimp only
  rw [if_pos ⟨two, all⟩, parseNumber_eq, number, if_pos fits, again]
  change (if _ then _ else _ : Option VolumeName) = _
  rw [if_neg filled]
  change Option.some (VolumeName.mk _ index _) = _
  rw [List.append_assoc, take_stem]

/-! ## What a parsed name is made of -/

/-- What is known of a scheme that a name was parsed to. -/
def Scheme.Plain : Scheme → Prop
  | .numberedSuffix base width =>
      base ≠ [] ∧ base.all Char.isAlphanum = true ∧ 2 ≤ width
  | _ => True

def Scheme.width : Scheme → Nat
  | .rarPart width => width
  | .numberedSuffix _ width => width
  | _ => 2

/-- The name is the stem and, in lower case, the ending of its own number. -/
structure Made (name : Name) (v : VolumeName) : Prop where
  plain : v.scheme.Plain
  stem : v.stem = name.take v.stem.length
  ending : v.scheme.suffixAt v.index =
    if v.scheme.width ≤ maxWidth then
      some (toAsciiLowercase (name.drop v.stem.length))
    else none

theorem made_of {name before ending : Name} {scheme : Scheme}
    (lower : toAsciiLowercase name = before ++ ending) (plain : scheme.Plain)
    (suffix : scheme.suffixAt index =
      if scheme.width ≤ maxWidth then some ending else none) :
    Made name ⟨name.take before.length, index, scheme⟩ := by
  have within : before.length ≤ name.length := by
    rw [← length_toAsciiLowercase name, lower, List.length_append]
    exact Nat.le_add_right _ _
  have length : (name.take before.length).length = before.length :=
    List.length_take_of_le within
  have rest : toAsciiLowercase (name.drop before.length) = ending := by
    rw [toAsciiLowercase, List.map_drop, ← toAsciiLowercase, lower,
      List.drop_left]
  refine ⟨plain, ?_, ?_⟩
  · dsimp only
    rw [length]
  · dsimp only
    rw [length, rest, suffix]

theorem parsed_number (read : (parseNumber digits).bind checkedPred = some index) :
    value digits = index + 1 ∧ index + 1 ≤ usizeMax := by
  rw [parseNumber_eq] at read
  split_ifs at read with fits
  · cases number : value digits with
    | zero =>
        rw [number] at read
        cases read
    | succ n =>
        rw [number] at read fits
        cases read
        exact ⟨rfl, fits⟩
  · cases read

theorem formatted_digits (some : digits ≠ [])
    (all : digits.all Char.isDigit = true) (number : value digits = index + 1)
    (fits : index + 1 ≤ usizeMax) :
    (checkedSucc index).bind (formatted digits.length) =
      if digits.length ≤ maxWidth then .some digits else none := by
  rw [checkedSucc, if_pos (Nat.lt_of_succ_le fits)]
  change formatted digits.length (index + 1) = _
  rw [formatted, ← number, padded_value some all]

theorem made_parseRar {name rest : Name} {v : VolumeName}
    (lower : toAsciiLowercase name = rest ++ ".rar".toList)
    (parsed : parseRar name rest = some v) : Made name v := by
  have old : Made name ⟨name.take rest.length, 0, .rarOld⟩ :=
    made_of lower trivial rfl
  rw [parseRar] at parsed
  cases cut : rsplitAt ".part".toList rest with
  | none =>
      rw [cut] at parsed
      cases parsed
      exact old
  | some pair =>
      obtain ⟨before, digits⟩ := pair
      rw [cut] at parsed
      dsimp only at parsed
      split_ifs at parsed with part
      · obtain ⟨some, all⟩ := part
        obtain ⟨index, read, made⟩ := Option.bind_eq_some_iff.mp
          ((Option.bind_assoc _ _ _).trans parsed)
        cases made
        obtain ⟨number, fits⟩ := parsed_number read
        have suffix : (Scheme.rarPart digits.length).suffixAt index =
            ((checkedSucc index).bind (formatted digits.length)).bind fun made =>
              .some (".part".toList ++ made ++ ".rar".toList) :=
          (Option.bind_assoc _ _ _).symm
        rw [formatted_digits some all number fits] at suffix
        have whole : toAsciiLowercase name =
            before ++ (".part".toList ++ digits ++ ".rar".toList) := by
          rw [lower, eq_of_rsplitAt cut, List.append_assoc, List.append_assoc]
        refine made_of whole trivial ?_
        rw [suffix, Scheme.width]
        split_ifs <;> rfl
      · cases parsed
        exact old

theorem made_twoDigits {letter : Char} {ext : Name}
    (read : twoDigits letter ext = some digits) :
    ext = letter :: digits ∧ digits.length = 2 ∧
      digits.all Char.isDigit = true := by
  cases ext with
  | nil => cases read
  | cons c ext =>
      rw [twoDigits] at read
      split_ifs at read with same
      cases read
      exact ⟨by rw [same.1], same.2⟩

theorem padded_two (two : digits.length = 2)
    (all : digits.all Char.isDigit = true) : padded 2 (value digits) = digits := by
  rw [← two]
  refine padded_value ?_ all
  rintro rfl
  cases two

theorem made_parseExt {name stem ext : Name} {v : VolumeName}
    (lower : toAsciiLowercase name = stem ++ '.' :: ext)
    (parsed : parseExt name stem ext = some v) : Made name v := by
  rw [parseExt] at parsed
  cases old : twoDigits 'r' ext with
  | some digits =>
      rw [old] at parsed
      obtain ⟨rfl, two, all⟩ := made_twoDigits old
      have small := value_lt (List.all_eq_true.mp all)
      rw [two] at small
      dsimp only at parsed
      rw [parseNumber_eq, if_pos (by unfold usizeMax; omega)] at parsed
      cases parsed
      refine made_of lower trivial ?_
      rw [Scheme.suffixAt, if_neg (Nat.succ_ne_zero _), if_pos (by omega),
        Nat.add_sub_cancel, padded_two two all]
      rfl
  | none =>
      rw [old] at parsed
      dsimp only at parsed
      cases zip : twoDigits 'z' ext with
      | some digits =>
          rw [zip] at parsed
          obtain ⟨rfl, two, all⟩ := made_twoDigits zip
          obtain ⟨index, read, made⟩ := Option.bind_eq_some_iff.mp
            ((Option.bind_assoc _ _ _).trans parsed)
          cases made
          obtain ⟨number, fits⟩ := parsed_number read
          refine made_of lower trivial ?_
          rw [Scheme.suffixAt, checkedSucc, if_pos (Nat.lt_of_succ_le fits)]
          change some ('.' :: 'z' :: padded 2 (index + 1)) = _
          rw [← number, padded_two two all]
          rfl
      | none =>
          rw [zip] at parsed
          dsimp only at parsed
          split_ifs at parsed with numbered
          obtain ⟨n, number, parsed⟩ := Option.bind_eq_some_iff.mp parsed
          obtain ⟨⟨base, baseExt⟩, cut, parsed⟩ :=
            Option.bind_eq_some_iff.mp parsed
          dsimp only at parsed
          split_ifs at parsed with filled
          obtain ⟨index, pred, made⟩ := Option.bind_eq_some_iff.mp parsed
          cases made
          rw [not_or] at filled
          have some : ext ≠ [] := by
            rintro rfl
            exact absurd numbered.1 (by decide)
          obtain ⟨number, fits⟩ := parsed_number (by
            rw [number]
            exact pred)
          have suffix : (Scheme.numberedSuffix baseExt ext.length).suffixAt index =
              ((checkedSucc index).bind (formatted ext.length)).bind fun made =>
                .some ('.' :: baseExt ++ '.' :: made) :=
            (Option.bind_assoc _ _ _).symm
          rw [formatted_digits some numbered.2 number fits] at suffix
          have whole : toAsciiLowercase name =
              base ++ ('.' :: baseExt ++ '.' :: ext) := by
            rw [lower, eq_of_rsplitAt cut, List.append_assoc]
            rfl
          refine made_of whole
            ⟨filled.1, by simpa using filled.2, numbered.1⟩ ?_
          rw [suffix, Scheme.width]
          split_ifs <;> rfl

theorem made_parse {name : Name} {v : VolumeName} (parsed : parse name = some v) :
    Made name v := by
  simp only [parse] at parsed
  cases strip : stripSuffix ".rar".toList (toAsciiLowercase name) with
  | some rest =>
      rw [strip] at parsed
      exact made_parseRar (eq_of_stripSuffix strip) parsed
  | none =>
      rw [strip] at parsed
      obtain ⟨⟨stem, ext⟩, cut, parsed⟩ := Option.bind_eq_some_iff.mp parsed
      exact made_parseExt (eq_of_rsplitAt cut) parsed

/-! ## Names and numbers -/

def Names (v : VolumeName) (index : Nat) : Prop :=
  ∀ made, v.nameAt index = some made → ∃ w, parse made = some w ∧
    w.sameSetAs v = true ∧ w.index = index

def Expressible (v : VolumeName) (index : Nat) : Prop :=
  match v.scheme with
  | .rarOld => index = 0 → ¬ EndsInPart (toAsciiLowercase v.stem)
  | .zipSplit => index < 99 ∨ usizeMax ≤ index
  | _ => True

theorem eqIgnoreAsciiCase_self (name : Name) : eqIgnoreAsciiCase name name = true :=
  beq_self_eq_true _

theorem checkedSucc_eq_some {n next : Nat} (more : checkedSucc n = some next) :
    next = n + 1 ∧ n + 1 ≤ usizeMax := by
  rw [checkedSucc] at more
  split_ifs at more with fits
  cases more
  exact ⟨rfl, fits⟩

theorem formatted_eq_some {width n : Nat} {digits : Name}
    (made : formatted width n = some digits) : digits = padded width n := by
  rw [formatted] at made
  split_ifs at made
  cases made
  rfl

theorem names_iff {v : VolumeName} (plain : v.scheme.Plain) (index : Nat) :
    Names v index ↔ Expressible v index := by
  obtain ⟨stem, own, scheme⟩ := v
  have same := eqIgnoreAsciiCase_self stem
  cases scheme with
  | rarPart width =>
      refine iff_of_true (fun made named => ?_) trivial
      obtain ⟨ending, suffix, rfl⟩ := Option.map_eq_some_iff.mp named
      obtain ⟨next, more, suffix⟩ := Option.bind_eq_some_iff.mp suffix
      obtain ⟨rfl, fits⟩ := checkedSucc_eq_some more
      obtain ⟨digits, made, suffix⟩ := Option.bind_eq_some_iff.mp suffix
      cases formatted_eq_some made
      cases suffix
      refine ⟨_, parse_rarPart (padded_ne_nil _ _) (all_padded _ _)
        (value_padded _ _) fits, ?_, rfl⟩
      rw [VolumeName.sameSetAs, same]
      rfl
  | numberedSuffix base width =>
      obtain ⟨nonempty, alnum, two⟩ := plain
      refine iff_of_true (fun made named => ?_) trivial
      obtain ⟨ending, suffix, rfl⟩ := Option.map_eq_some_iff.mp named
      obtain ⟨next, more, suffix⟩ := Option.bind_eq_some_iff.mp suffix
      obtain ⟨rfl, fits⟩ := checkedSucc_eq_some more
      obtain ⟨digits, made, suffix⟩ := Option.bind_eq_some_iff.mp suffix
      cases formatted_eq_some made
      cases suffix
      have long : 2 ≤ (padded width (index + 1)).length := by
        rw [padded, List.length_append, List.length_replicate]
        omega
      refine ⟨_, (congrArg parse (List.append_assoc _ _ _).symm).trans
        (parse_numberedSuffix nonempty alnum long (all_padded _ _)
          (value_padded _ _) fits), ?_, rfl⟩
      rw [VolumeName.sameSetAs, same, Bool.true_and]
      change (toAsciiLowercase (toAsciiLowercase base) == _) = true
      rw [toAsciiLowercase_idem]
      exact beq_self_eq_true _
  | rarOld =>
      by_cases first : index = 0
      · subst first
        rcases parse_rar stem with ⟨bare, parsed⟩ | ⟨part, parsed⟩
        · refine iff_of_true (fun made named => ?_) fun _ => bare
          cases named
          refine ⟨_, parsed, ?_, rfl⟩
          rw [VolumeName.sameSetAs, same]
          rfl
        · refine iff_of_false (fun names => ?_) fun fits => fits rfl part
          obtain ⟨w, made, set, -⟩ := names _ rfl
          obtain ⟨width, scheme⟩ := parsed w made
          rw [VolumeName.sameSetAs, scheme, Bool.and_false] at set
          cases set
      · refine iff_of_true (fun made named => ?_) fun zero => absurd zero first
        obtain ⟨ending, suffix, rfl⟩ := Option.map_eq_some_iff.mp named
        rw [Scheme.suffixAt, if_neg first] at suffix
        split_ifs at suffix with few
        cases suffix
        refine ⟨_, parse_rarOld (length_padded (by decide) (by omega))
          (all_padded _ _), ?_, ?_⟩
        · rw [VolumeName.sameSetAs, same]
          rfl
        · dsimp only
          rw [value_padded]
          omega
  | zipSplit =>
      by_cases past : usizeMax ≤ index
      · refine iff_of_true (fun made named => ?_) (.inr past)
        obtain ⟨ending, suffix, rfl⟩ := Option.map_eq_some_iff.mp named
        obtain ⟨next, more, -⟩ := Option.bind_eq_some_iff.mp suffix
        have fits := (checkedSucc_eq_some more).2
        omega
      · have named : VolumeName.nameAt ⟨stem, own, .zipSplit⟩ index =
            some (stem ++ '.' :: 'z' :: padded 2 (index + 1)) := by
          rw [VolumeName.nameAt, Scheme.suffixAt, checkedSucc,
            if_pos (Nat.not_le.mp past)]
          rfl
        by_cases few : index < 99
        · refine iff_of_true (fun made also => ?_) (.inl few)
          cases named.symm.trans also
          refine ⟨_, parse_zipSplit (all_padded _ _) (value_padded _ _)
            (length_padded (by decide) (by omega)), ?_, rfl⟩
          rw [VolumeName.sameSetAs, same]
          rfl
        · refine iff_of_false (fun names => ?_) fun fits =>
            fits.elim few past
          obtain ⟨w, made, -⟩ := names _ named
          rw [parse_zipSplit_long (all_padded _ _)
            (lt_length_padded (by decide) (by omega))] at made
          cases made

/-- What comes after the stem is in lower case and not too wide. -/
def Written (name : Name) (v : VolumeName) : Prop :=
  v.scheme.width ≤ maxWidth ∧
    toAsciiLowercase (name.drop v.stem.length) = name.drop v.stem.length

theorem nameAt_own {name : Name} {v : VolumeName} (made : Made name v) :
    v.nameAt v.index = some name ↔ Written name v := by
  have whole : name = v.stem ++ name.drop v.stem.length := by
    conv_lhs => rw [← List.take_append_drop v.stem.length name, ← made.stem]
  rw [VolumeName.nameAt, made.ending, Written]
  by_cases fits : v.scheme.width ≤ maxWidth
  · rw [if_pos fits, Option.map_some, Option.some_inj]
    constructor
    · intro same
      exact ⟨fits, List.append_cancel_left (same.trans whole)⟩
    · rintro ⟨-, same⟩
      rw [same, ← whole]
  · rw [if_neg fits]
    exact iff_of_false nofun fun written => fits written.1

/-- The names made from a volume's name parse as the volumes they are made for
just when the number can be written so, and its own number gives the name back
just when it is written in lower case. -/
theorem names_and_numbers {name : Name} {v : VolumeName}
    (parsed : parse name = some v) (index : Nat) :
    (Names v index ↔ Expressible v index) ∧
      (v.nameAt v.index = some name ↔ Written name v) :=
  ⟨names_iff (made_parse parsed).plain index, nameAt_own (made_parse parsed)⟩

theorem names_and_numbers_first :
    Names ⟨"a".toList, 0, .rarPart 1⟩ 1 ∧
      VolumeName.nameAt ⟨"a".toList, 0, .rarPart 1⟩ 0 =
        some "a.part1.rar".toList :=
  have parsed : parse "a.part1.rar".toList = some ⟨"a".toList, 0, .rarPart 1⟩ := by
    decide
  have both := names_and_numbers parsed 1
  ⟨both.1.mpr trivial, both.2.mpr ⟨by decide, by decide⟩⟩

/-- The hundredth volume of a split ZIP has a name that is no volume. -/
theorem names_hundredth :
    ¬ ∀ (name : Name) (v : VolumeName), parse name = some v →
      (∀ index, Names v index) ∧ v.nameAt v.index = some name := by
  intro always
  obtain ⟨names, -⟩ := always "a.z01".toList ⟨"a".toList, 0, .zipSplit⟩
    (by decide)
  obtain ⟨w, parsed, -⟩ := names 99 "a.z100".toList (by decide)
  have none : parse "a.z100".toList = none := by decide
  rw [none] at parsed
  cases parsed

end Exav.Volume
