import Exav.Lib.Copies
import Exav.Yara.Matcher

/-!
# Wide regexps

A `wide` regexp is searched for through its syntax tree, rewritten so that every
byte it takes is followed by a zero.  A tree matches a stretch of a text from one
position to another; the positions of the wide text that stand for positions of
the text are the even ones.
-/

namespace Exav.Yara

/-- An assertion on the Unicode characters around a position. -/
inductive UnicodeLook where
  | word
  | wordNegate
  | wordStart
  | wordEnd
  | wordStartHalf
  | wordEndHalf

/-- An assertion that takes no byte. -/
inductive Look where
  | startText
  | endText
  | startLf
  | endLf
  | startCrlf
  | endCrlf
  | wordAscii
  | wordAsciiNegate
  | wordStartAscii
  | wordEndAscii
  | wordStartHalfAscii
  | wordEndHalfAscii
  | unicode (look : UnicodeLook)

/-- A class of bytes or of characters, as ranges with both ends included. -/
inductive Class where
  | bytes (ranges : List (UInt8 × UInt8))
  | unicode (ranges : List (Char × Char))

/-- The syntax tree of a regexp. -/
inductive Hir where
  | empty
  | literal (bytes : Bytes)
  | cls (set : Class)
  | look (look : Look)
  | repetition (min : Nat) (max : Option Nat) (greedy : Bool) (sub : Hir)
  | capture (index : Nat) (name : Option String) (sub : Hir)
  | concat (subs : List Hir)
  | alternation (subs : List Hir)

def widen (bytes : Bytes) : Bytes :=
  bytes.flatMap fun b => [b, 0]

mutual

/-- A syntax tree in its wide form.  The smart constructors, which simplify a
tree without changing what it matches, are plain constructors here. -/
def widenHir : Hir → Hir
  | .empty => .empty
  | .literal bytes => .literal (widen bytes)
  | .cls set => .concat [.cls set, .literal [0]]
  | .look look => .look look
  | .repetition min max greedy sub => .repetition min max greedy (widenHir sub)
  | .capture index name sub => .capture index name (widenHir sub)
  | .concat subs => .concat (widenEach subs)
  | .alternation subs => .alternation (widenEach subs)

def widenEach : List Hir → List Hir
  | [] => []
  | sub :: subs => widenHir sub :: widenEach subs

end

mutual

/-- A tree and the trees in it. -/
def Hir.subtrees : Hir → List Hir
  | .repetition min max greedy sub =>
      .repetition min max greedy sub :: sub.subtrees
  | .capture index name sub => .capture index name sub :: sub.subtrees
  | .concat subs => .concat subs :: Hir.subtreesEach subs
  | .alternation subs => .alternation subs :: Hir.subtreesEach subs
  | leaf => [leaf]

def Hir.subtreesEach : List Hir → List Hir
  | [] => []
  | sub :: subs => sub.subtrees ++ Hir.subtreesEach subs

end

/-! ## What a tree matches -/

def wordByte (b : UInt8) : Bool :=
  isWord b || b == 95

def byteBefore (text : Bytes) (pos : Nat) : Option UInt8 :=
  if pos = 0 then none else text[pos - 1]?

def wordBefore (text : Bytes) (pos : Nat) : Bool :=
  (byteBefore text pos).any wordByte

def wordAfter (text : Bytes) (pos : Nat) : Bool :=
  text[pos]?.any wordByte

section

variable (unicode : UnicodeLook → Bytes → Nat → Bool)

/-- Whether an assertion holds at a position.  The assertions on characters are
the ones of the library. -/
def Look.holds (text : Bytes) (pos : Nat) : Look → Bool
  | .startText => pos == 0
  | .endText => pos == text.length
  | .startLf => (byteBefore text pos).all (· == 10)
  | .endLf => text[pos]?.all (· == 10)
  | .startCrlf =>
      match byteBefore text pos with
      | none => true
      | some b => b == 10 || b == 13 && text[pos]? != some 10
  | .endCrlf =>
      match text[pos]? with
      | none => true
      | some b => b == 13 || b == 10 && byteBefore text pos != some 13
  | .wordAscii => wordBefore text pos != wordAfter text pos
  | .wordAsciiNegate => wordBefore text pos == wordAfter text pos
  | .wordStartAscii => !wordBefore text pos && wordAfter text pos
  | .wordEndAscii => wordBefore text pos && !wordAfter text pos
  | .wordStartHalfAscii => !wordBefore text pos
  | .wordEndHalfAscii => !wordAfter text pos
  | .unicode look => unicode look text pos

def Class.Takes (taken : Bytes) : Class → Prop
  | .bytes ranges => ∃ b, (∃ r ∈ ranges, r.1 ≤ b ∧ b ≤ r.2) ∧ taken = [b]
  | .unicode ranges =>
      ∃ c, (∃ r ∈ ranges, r.1 ≤ c ∧ c ≤ r.2) ∧ taken = String.utf8EncodeChar c

/-- `taken` stands in the text from one position to the other. -/
def Consumes (text taken : Bytes) (start stop : Nat) : Prop :=
  taken <+: text.drop start ∧ stop = start + taken.length

mutual

def Hir.Matches (text : Bytes) : Hir → Nat → Nat → Prop
  | .empty => (· = ·)
  | .literal bytes => Consumes text bytes
  | .cls set => fun start stop =>
      ∃ taken, set.Takes taken ∧ Consumes text taken start stop
  | .look check => fun start stop =>
      start = stop ∧ check.holds unicode text start = true
  | .repetition min max _ sub => fun start stop =>
      ∃ n, (min ≤ n ∧ ∀ most ∈ max, n ≤ most) ∧
        times (sub.Matches text) n start stop
  | .capture _ _ sub => sub.Matches text
  | .concat subs => Hir.MatchesAll text subs
  | .alternation subs => Hir.MatchesAny text subs

def Hir.MatchesAll (text : Bytes) : List Hir → Nat → Nat → Prop
  | [] => (· = ·)
  | sub :: subs => Relation.Comp (sub.Matches text) (Hir.MatchesAll text subs)

def Hir.MatchesAny (text : Bytes) : List Hir → Nat → Nat → Prop
  | [] => fun _ _ => False
  | sub :: subs => fun start stop =>
      sub.Matches text start stop ∨ Hir.MatchesAny text subs start stop

end

def Hir.WidensExactly (hir : Hir) : Prop :=
  ∀ (text : Bytes) (start stop : Nat), start ≤ text.length →
    ((widenHir hir).Matches unicode (widen text) (2 * start) (2 * stop) ↔
      hir.Matches unicode text start stop)

/-! ## Trees that widen exactly -/

/-- The assertions that do not look at the byte before, which is a zero in the
wide text. -/
def Look.Plain : Look → Prop
  | .startText | .endText | .endLf | .wordEndHalfAscii => True
  | .unicode look => ∀ (text : Bytes) (pos : Nat), pos ≤ text.length →
      unicode look (widen text) (2 * pos) = unicode look text pos
  | _ => False

def Class.Plain : Class → Prop
  | .bytes _ => True
  | .unicode ranges => ∀ r ∈ ranges, r.1 ≤ r.2 → r.2.toNat < 128

/-- The tree itself, when it is an assertion or a class, is a plain one. -/
def Hir.PlainLeaf : Hir → Prop
  | .look check => check.Plain unicode
  | .cls set => set.Plain
  | _ => True

/-- Nothing in the tree is read off the zeros of the wide text. -/
def Hir.Plain (hir : Hir) : Prop :=
  ∀ sub ∈ hir.subtrees, sub.PlainLeaf unicode

end

/-!
## The wide form of a regexp

The wide text holds the text at its even positions and zeros at the others.  A
tree in its wide form copies the tree from position to position, as long as its
assertions do not look back and its classes take one byte; the other assertions
and classes differ on some text.
-/

/-! ## The wide text -/

@[simp] theorem widen_nil : widen [] = [] := rfl

@[simp] theorem widen_cons (b : UInt8) (text : Bytes) :
    widen (b :: text) = b :: 0 :: widen text := rfl

@[simp] theorem length_widen (text : Bytes) :
    (widen text).length = 2 * text.length := by
  induction text with
  | nil => rfl
  | cons b text ih =>
      rw [widen_cons, List.length_cons, List.length_cons, ih, List.length_cons]
      omega

theorem drop_widen (text : Bytes) (pos : Nat) :
    (widen text).drop (2 * pos) = widen (text.drop pos) := by
  induction text generalizing pos with
  | nil => simp
  | cons b text ih =>
      cases pos with
      | zero => rfl
      | succ pos => exact ih pos

theorem widen_prefix_iff {taken text : Bytes} :
    widen taken <+: widen text ↔ taken <+: text := by
  induction taken generalizing text with
  | nil => simp
  | cons b taken ih =>
      cases text with
      | nil => simp
      | cons b' text => simp [List.cons_prefix_cons, ih]

theorem getElem?_widen (text : Bytes) (pos : Nat) :
    (widen text)[2 * pos]? = text[pos]? := by
  induction text generalizing pos with
  | nil => simp
  | cons b text ih =>
      cases pos with
      | zero => rfl
      | succ pos => exact ih pos

/-! ## What is taken -/

theorem consumes_append (text first second : Bytes) :
    Relation.Comp (Consumes text first) (Consumes text second) =
      Consumes text (first ++ second) := by
  funext start stop
  apply propext
  constructor
  · rintro ⟨middle, ⟨⟨rest, split⟩, rfl⟩, next, rfl⟩
    refine ⟨?_, by rw [List.length_append, Nat.add_assoc]⟩
    rw [← List.drop_drop, ← split, List.drop_left] at next
    obtain ⟨tail, rfl⟩ := next
    exact ⟨tail, by rw [← split, List.append_assoc]⟩
  · rintro ⟨⟨rest, split⟩, rfl⟩
    rw [List.append_assoc] at split
    refine ⟨start + first.length, ⟨⟨_, split⟩, rfl⟩, ⟨rest, ?_⟩, ?_⟩
    · rw [← List.drop_drop, ← split, List.drop_left]
    · rw [List.length_append, Nat.add_assoc]

theorem consumes_widen (text taken : Bytes) :
    Copies (· ≤ text.length) (2 * ·) (Consumes (widen text) (widen taken))
      (Consumes text taken) where
  stays {start stop} within := by
    rintro ⟨stands, rfl⟩
    have fits := stands.length_le
    rw [List.length_drop] at fits
    omega
  reaches {start} within stop := by
    unfold Consumes
    rw [drop_widen, widen_prefix_iff, length_widen, ← Nat.mul_add]
    constructor
    · rintro ⟨stands, rfl⟩
      exact ⟨start + taken.length, rfl, stands, rfl⟩
    · rintro ⟨_, rfl, stands, rfl⟩
      exact ⟨stands, rfl⟩

theorem Class.Plain.widen_eq {set : Class} (plain : set.Plain) {taken : Bytes}
    (takes : set.Takes taken) : taken ++ [0] = widen taken := by
  cases set with
  | bytes ranges =>
      obtain ⟨b, _, rfl⟩ := takes
      rfl
  | unicode ranges =>
      obtain ⟨c, ⟨r, member, above, below⟩, rfl⟩ := takes
      have last : r.2.toNat < 128 := plain r member (Char.le_trans above below)
      have small : c.toNat ≤ r.2.toNat := below
      have single : c.val.toNat ≤ 0x7f := by
        change c.toNat ≤ 0x7f
        omega
      rw [String.utf8EncodeChar, if_pos single]
      rfl

theorem Class.Plain.copies {set : Class} (plain : set.Plain) (text : Bytes) :
    Copies (· ≤ text.length) (2 * ·)
      (Relation.Comp
        (fun start stop =>
          ∃ taken, set.Takes taken ∧ Consumes (widen text) taken start stop)
        (Consumes (widen text) [0]))
      (fun start stop =>
        ∃ taken, set.Takes taken ∧ Consumes text taken start stop) := by
  have spread : Relation.Comp
      (fun start stop =>
        ∃ taken, set.Takes taken ∧ Consumes (widen text) taken start stop)
      (Consumes (widen text) [0]) =
      fun start stop => ∃ taken, set.Takes taken ∧
        Consumes (widen text) (taken ++ [0]) start stop := by
    funext start stop
    simp only [← consumes_append, Relation.Comp]
    apply propext
    constructor
    · rintro ⟨middle, ⟨taken, takes, first⟩, zero⟩
      exact ⟨taken, takes, middle, first, zero⟩
    · rintro ⟨taken, takes, middle, first, zero⟩
      exact ⟨middle, ⟨taken, takes, first⟩, zero⟩
  rw [spread]
  refine Copies.choice fun taken takes => ?_
  rw [plain.widen_eq takes]
  exact consumes_widen text taken

/-! ## Assertions -/

variable {unicode : UnicodeLook → Bytes → Nat → Bool}

theorem Look.Plain.holds_widen {check : Look} (plain : check.Plain unicode)
    {text : Bytes} {pos : Nat} (within : pos ≤ text.length) :
    check.holds unicode (widen text) (2 * pos) =
      check.holds unicode text pos := by
  cases check with
  | startText =>
      show (2 * pos == 0) = (pos == 0)
      rw [Bool.eq_iff_iff, beq_iff_eq, beq_iff_eq]
      omega
  | endText =>
      show (2 * pos == (widen text).length) = (pos == text.length)
      rw [length_widen, Bool.eq_iff_iff, beq_iff_eq, beq_iff_eq]
      omega
  | endLf =>
      show (widen text)[2 * pos]?.all _ = text[pos]?.all _
      rw [getElem?_widen]
  | wordEndHalfAscii =>
      show (!(widen text)[2 * pos]?.any wordByte) = !text[pos]?.any wordByte
      rw [getElem?_widen]
  | unicode look => exact plain text pos within
  | _ => exact plain.elim

/-! ## Trees -/

mutual

theorem Hir.Plain.copies (text : Bytes) :
    (hir : Hir) → (∀ sub ∈ hir.subtrees, sub.PlainLeaf unicode) →
      Copies (· ≤ text.length) (2 * ·)
        ((widenHir hir).Matches unicode (widen text))
        (hir.Matches unicode text)
  | .empty, _ => Copies.eq
  | .literal bytes, _ => consumes_widen text bytes
  | .cls set, plain => by
      have leaf : set.Plain := plain (.cls set) List.mem_cons_self
      have copies := leaf.copies text
      simpa only [widenHir, Hir.Matches, Hir.MatchesAll, Relation.comp_eq]
        using copies
  | .look check, plain => by
      have leaf : check.Plain unicode := plain (.look check) List.mem_cons_self
      exact Copies.check fun pos within => by rw [leaf.holds_widen within]
  | .repetition min max greedy sub, plain => by
      have copies := Hir.Plain.copies text sub fun t member =>
        plain t (List.mem_cons_of_mem _ member)
      exact Copies.choice fun n _ => copies.repeated n
  | .capture index name sub, plain =>
      Hir.Plain.copies text sub fun t member =>
        plain t (List.mem_cons_of_mem _ member)
  | .concat subs, plain =>
      Hir.Plain.copies_all text subs fun t member =>
        plain t (List.mem_cons_of_mem _ member)
  | .alternation subs, plain =>
      Hir.Plain.copies_any text subs fun t member =>
        plain t (List.mem_cons_of_mem _ member)

theorem Hir.Plain.copies_all (text : Bytes) :
    (subs : List Hir) → (∀ sub ∈ Hir.subtreesEach subs, sub.PlainLeaf unicode) →
      Copies (· ≤ text.length) (2 * ·)
        (Hir.MatchesAll unicode (widen text) (widenEach subs))
        (Hir.MatchesAll unicode text subs)
  | [], _ => Copies.eq
  | sub :: subs, plain =>
      (Hir.Plain.copies text sub fun t member =>
        plain t (List.mem_append_left _ member)).comp
        (Hir.Plain.copies_all text subs fun t member =>
          plain t (List.mem_append_right _ member))

theorem Hir.Plain.copies_any (text : Bytes) :
    (subs : List Hir) → (∀ sub ∈ Hir.subtreesEach subs, sub.PlainLeaf unicode) →
      Copies (· ≤ text.length) (2 * ·)
        (Hir.MatchesAny unicode (widen text) (widenEach subs))
        (Hir.MatchesAny unicode text subs)
  | [], _ => Copies.nothing
  | sub :: subs, plain =>
      (Hir.Plain.copies text sub fun t member =>
        plain t (List.mem_append_left _ member)).or
        (Hir.Plain.copies_any text subs fun t member =>
          plain t (List.mem_append_right _ member))

end

mutual

theorem Hir.subtrees_trans : (hir : Hir) → {sub leaf : Hir} →
    sub ∈ hir.subtrees → leaf ∈ sub.subtrees → leaf ∈ hir.subtrees
  | .empty, _, _, member, inSub
  | .literal _, _, _, member, inSub
  | .cls _, _, _, member, inSub
  | .look _, _, _, member, inSub => by
      rw [List.mem_singleton.mp member] at inSub
      exact inSub
  | .repetition min max greedy hir, _, _, member, inSub => by
      rcases List.mem_cons.mp member with rfl | below
      · exact inSub
      · exact List.mem_cons_of_mem _ (Hir.subtrees_trans hir below inSub)
  | .capture index name hir, _, _, member, inSub => by
      rcases List.mem_cons.mp member with rfl | below
      · exact inSub
      · exact List.mem_cons_of_mem _ (Hir.subtrees_trans hir below inSub)
  | .concat subs, _, _, member, inSub => by
      rcases List.mem_cons.mp member with rfl | below
      · exact inSub
      · exact List.mem_cons_of_mem _ (Hir.subtreesEach_trans subs below inSub)
  | .alternation subs, _, _, member, inSub => by
      rcases List.mem_cons.mp member with rfl | below
      · exact inSub
      · exact List.mem_cons_of_mem _ (Hir.subtreesEach_trans subs below inSub)

theorem Hir.subtreesEach_trans : (subs : List Hir) → {sub leaf : Hir} →
    sub ∈ Hir.subtreesEach subs → leaf ∈ sub.subtrees →
      leaf ∈ Hir.subtreesEach subs
  | [], _, _, member, _ => absurd member List.not_mem_nil
  | hir :: subs, _, _, member, inSub => by
      rcases List.mem_append.mp member with here | later
      · exact List.mem_append_left _ (Hir.subtrees_trans hir here inSub)
      · exact List.mem_append_right _ (Hir.subtreesEach_trans subs later inSub)

end

/-! ## Leaves that are not plain -/

theorem Look.widens_iff (check : Look) :
    (Hir.look check).WidensExactly unicode ↔
      ∀ (text : Bytes) (pos : Nat), pos ≤ text.length →
        check.holds unicode (widen text) (2 * pos) =
          check.holds unicode text pos := by
  constructor
  · intro exact text pos within
    have same := exact text pos pos within
    simp only [widenHir, Hir.Matches, true_and] at same
    exact Bool.eq_iff_iff.mpr same
  · intro agrees text start stop within
    simp only [widenHir, Hir.Matches, agrees text start within]
    constructor
    · rintro ⟨same, holds⟩
      exact ⟨by omega, holds⟩
    · rintro ⟨rfl, holds⟩
      exact ⟨rfl, holds⟩

/-- Each of the assertions that look back goes wrong after the first byte of
one of these texts. -/
theorem Look.plain_of_widens {check : Look}
    (exact : (Hir.look check).WidensExactly unicode) : check.Plain unicode := by
  have agrees := (Look.widens_iff check).mp exact
  have letters := agrees [97, 98] 1 (by decide)
  have letter := agrees [97] 1 (by decide)
  have lineFeed := agrees [10] 1 (by decide)
  have lineEnd := agrees [13, 10] 1 (by decide)
  have letterIsWord : wordByte 97 = true := by decide
  have otherIsWord : wordByte 98 = true := by decide
  have zeroIsNot : wordByte 0 = false := by decide
  cases check with
  | startText | endText | endLf | wordEndHalfAscii => trivial
  | unicode look => exact agrees
  | startLf | startCrlf => simp [holds, byteBefore] at lineFeed
  | endCrlf => simp [holds, byteBefore] at lineEnd
  | wordAscii | wordAsciiNegate | wordStartAscii =>
      simp [holds, wordBefore, wordAfter, byteBefore, letterIsWord,
        otherIsWord, zeroIsNot] at letters
  | wordEndAscii | wordStartHalfAscii =>
      simp [holds, wordBefore, wordAfter, byteBefore, letterIsWord,
        zeroIsNot] at letter

theorem second_byte_ne_zero {c : Char} {first : UInt8} {rest : Bytes} :
    String.utf8EncodeChar c ≠ first :: 0 :: rest := by
  have high (n : Nat) (bound : n < 64) : UInt8.ofNat (n + 128) ≠ 0 := by
    intro zero
    have value := congrArg UInt8.toNat zero
    rw [UInt8.toNat_ofNat_of_lt' (by rw [UInt8.size]; omega)] at value
    simp at value
  intro same
  unfold String.utf8EncodeChar at same
  dsimp only at same
  split_ifs at same
  · simp at same
  all_goals
    have second := (List.cons.inj (List.cons.inj same).2).1
    exact high _ (Nat.mod_lt _ (by decide)) second

theorem encoded_of_large {c : Char} (large : ¬ c.toNat < 128) :
    ∃ first second rest, String.utf8EncodeChar c = first :: second :: rest := by
  unfold String.utf8EncodeChar
  dsimp only
  rw [if_neg (by change ¬ c.toNat ≤ 0x7f; omega)]
  split_ifs
  all_goals exact ⟨_, _, _, rfl⟩

/-- A character of more than one byte stands in no wide text, where it would
take an even number of bytes with the zero after it. -/
theorem Class.plain_of_widens {set : Class}
    (exact : (Hir.cls set).WidensExactly unicode) : set.Plain := by
  cases set with
  | bytes ranges => trivial
  | unicode ranges =>
      intro r member ordered
      by_contra large
      have taken : (Hir.cls (.unicode ranges)).Matches unicode
          (String.utf8EncodeChar r.2) 0 (String.utf8EncodeChar r.2).length :=
        ⟨_, ⟨r.2, ⟨r, member, ordered, Char.le_refl r.2⟩, rfl⟩,
          List.prefix_rfl, (Nat.zero_add _).symm⟩
      have wide := (exact _ 0 _ (Nat.zero_le _)).mpr taken
      simp only [widenHir, Hir.Matches, Hir.MatchesAll, Relation.comp_eq] at wide
      obtain ⟨middle, ⟨_, ⟨c, _, rfl⟩, stands, rfl⟩, _, length⟩ := wide
      obtain ⟨first, second, rest, text⟩ := encoded_of_large large
      obtain ⟨after, split⟩ := stands
      rw [text] at split length
      match encoded : String.utf8EncodeChar c with
      | [] | [_] =>
          rw [encoded] at length
          simp only [List.length_cons, List.length_nil] at length
          omega
      | head :: zero :: tail =>
          rw [encoded] at split
          have isZero : zero = 0 := (List.cons.inj (List.cons.inj split).2).1
          exact second_byte_ne_zero (isZero ▸ encoded)

/-- Every tree in `hir` has an exact wide form just when nothing in it is read
off the zeros. -/
theorem widenHir_exact_iff (unicode : UnicodeLook → Bytes → Nat → Bool)
    (hir : Hir) :
    (∀ sub ∈ hir.subtrees, sub.WidensExactly unicode) ↔ hir.Plain unicode := by
  constructor
  · intro exact sub member
    cases sub with
    | look check => exact Look.plain_of_widens (exact _ member)
    | cls set => exact Class.plain_of_widens (exact _ member)
    | _ => trivial
  · intro plain sub member text start stop within
    have copies := Hir.Plain.copies text sub fun leaf inSub =>
      plain leaf (Hir.subtrees_trans hir member inSub)
    exact copies.at_places (fun _ _ => Nat.mul_left_cancel (by decide)) within

/-- Between two letters the wide text has a word boundary and the text none. -/
theorem not_widensExactly_boundary :
    ¬ (Hir.look .wordAscii).WidensExactly (fun _ _ _ => false) := by
  intro exact
  have wide : (widenHir (Hir.look .wordAscii)).Matches (fun _ _ _ => false)
      (widen [97, 98]) (2 * 1) (2 * 1) := ⟨rfl, by decide⟩
  have plain := (exact [97, 98] 1 1 (by decide)).mp wide
  exact absurd plain.2 (by decide)

end Exav.Yara
