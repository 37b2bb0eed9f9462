import Exav.Unpack.Uuencode

/-!
# Files read back

The text of some files, as they are written one behind the other, is read line by
line.  Each file comes out whole exactly if none of its lines has more than four
spaces at its end.
-/

namespace Exav.Unpack

/-! ## Texts -/

/-- A file as it stands in a text: what follows `begin ` on its line, and its
lines in full and as they are found. -/
structure UuFile where
  header : Bytes
  chunks : List Bytes
  lines : List Bytes
  shown : List Bytes
  last : Bytes

namespace UuFile

def data (f : UuFile) : Bytes := f.chunks.flatten

/-- The lines of a file.  The last but one is of no bytes. -/
def text (f : UuFile) : List Bytes :=
  (beginClassic ++ f.header) :: (f.shown ++ [f.last, endLine])

structure Formed (f : UuFile) : Prop where
  header : 0x0A ∉ f.header
  lines : List.Forall₂ LineOf f.chunks f.lines
  shown : List.Forall₂ Stripped f.lines f.shown
  last : ∃ c, CharOf 0 c ∧ Stripped [c] f.last

def FewBlanks (f : UuFile) : Prop := ∀ line ∈ f.lines, Unpack.FewBlanks line

end UuFile

/-- Lines with their endings, each a line feed or a carriage return and one. -/
inductive Ended : List Bytes → Bytes → Prop where
  | nil : Ended [] []
  | line {line : Bytes} {rest : List Bytes} {ending text : Bytes}
      (ends : ending = [0x0A] ∨ ending = [0x0D, 0x0A])
      (more : Ended rest text) : Ended (line :: rest) (line ++ ending ++ text)

theorem Ended.lineFeeds (lines : List Bytes) :
    Ended lines (lines.map (· ++ [0x0A])).flatten := by
  induction lines with
  | nil => exact .nil
  | cons line lines ih => exact .line (.inl rfl) ih

/-- A line as it is read: one that ends in a carriage return loses it. -/
def Seen (line seen : Bytes) : Prop := seen = line ∨ seen = stripCr line

theorem splitLines_append {line : Bytes} (inside : 0x0A ∉ line) (data : Bytes) :
    splitLines (line ++ 0x0A :: data) = line :: splitLines data := by
  induction line with
  | nil => rfl
  | cons b line ih =>
      have other : b ≠ 0x0A := fun same => inside (same ▸ .head _)
      rw [List.cons_append, splitLines, if_neg other,
        ih fun member => inside (.tail _ member)]

theorem stripCr_append (line : Bytes) : stripCr (line ++ [0x0D]) = line := by
  rw [stripCr, List.getLast?_concat, if_pos rfl, List.dropLast_concat]

theorem stripCr_of_not_mem {line : Bytes} (plain : 0x0D ∉ line) :
    stripCr line = line := by
  unfold stripCr
  split
  · rename_i last
    exact absurd (List.mem_of_getLast? last) plain
  · rfl

theorem Seen.eq_of_not_mem {line seen : Bytes} (same : Seen line seen)
    (plain : 0x0D ∉ line) : seen = line := by
  rcases same with same | same
  · exact same
  · exact same.trans (stripCr_of_not_mem plain)

theorem Ended.uuLines {lines : List Bytes} {text : Bytes}
    (ended : Ended lines text) (inside : ∀ line ∈ lines, 0x0A ∉ line) :
    ∃ seen, uuLines text = seen ++ [[]] ∧ List.Forall₂ Seen lines seen := by
  induction ended with
  | nil => exact ⟨[], rfl, .nil⟩
  | @line line rest ending text ends _ ih =>
      have here : 0x0A ∉ line := inside line (.head _)
      obtain ⟨seen, split, all⟩ := ih fun l member => inside l (.tail _ member)
      rcases ends with rfl | rfl
      · refine ⟨stripCr line :: seen, ?_, .cons (.inr rfl) all⟩
        rw [Unpack.uuLines, List.append_assoc, List.singleton_append,
          splitLines_append here, List.map_cons, ← Unpack.uuLines, split]
        rfl
      · have both : 0x0A ∉ line ++ [0x0D] := by
          intro member
          rcases List.mem_append.mp member with early | late
          · exact here early
          · cases List.mem_singleton.mp late
        have pair : line ++ [0x0D, 0x0A] ++ text =
            (line ++ [0x0D]) ++ 0x0A :: text := by
          simp only [List.append_assoc, List.cons_append, List.nil_append]
        refine ⟨line :: seen, ?_, .cons (.inl rfl) all⟩
        rw [Unpack.uuLines, pair, splitLines_append both, List.map_cons,
          stripCr_append, ← Unpack.uuLines, split]
        rfl

/-! ## Bodies -/

/-- What the lines of a file are decoded to. -/
def bodyBytes (chunks lines : List Bytes) : Bytes :=
  (List.zipWith lineBytes chunks lines).flatten

theorem bodyBytes_cons (data line : Bytes) (chunks lines : List Bytes) :
    bodyBytes (data :: chunks) (line :: lines) =
      lineBytes data line ++ bodyBytes chunks lines := rfl

theorem length_bodyBytes_le {chunks lines : List Bytes}
    (texts : List.Forall₂ LineOf chunks lines) :
    (bodyBytes chunks lines).length ≤ chunks.flatten.length := by
  induction texts with
  | nil => exact Nat.le_refl _
  | @cons data line chunks lines _ _ ih =>
      rw [bodyBytes_cons, List.flatten_cons, List.length_append,
        List.length_append]
      exact Nat.add_le_add (length_lineBytes_le data line) ih

theorem bodyBytes_eq_iff {chunks lines : List Bytes}
    (texts : List.Forall₂ LineOf chunks lines) :
    bodyBytes chunks lines = chunks.flatten ↔
      ∀ line ∈ lines, FewBlanks line := by
  induction texts with
  | nil => exact iff_of_true rfl fun line member => by cases member
  | @cons data line chunks lines line_of texts ih =>
      rw [bodyBytes_cons, List.flatten_cons, List.forall_mem_cons,
        ← line_of.lineBytes_eq_iff, ← ih]
      constructor
      · intro same
        have lengths := congrArg List.length same
        rw [List.length_append, List.length_append] at lengths
        have first := length_lineBytes_le data line
        have others := length_bodyBytes_le texts
        exact List.append_inj same (by omega)
      · rintro ⟨first, others⟩
        rw [first, others]

theorem LineOf.not_last {data line : Bytes} (line_of : LineOf data line) :
    ¬ (withoutBlanks line = endLine ∨ withoutBlanks line = [] ∨
      uuDec (byteAt (withoutBlanks line) 0) = 0) := by
  obtain ⟨c, body, rfl, char, visible, _⟩ := line_of.split
  have kept : withoutBlanks (c :: body) = c :: withoutBlanks body :=
    Trim.rdropWhile_cons visible body
  have value := char.toNat_uuDec
  have some_bytes : 0 < data.length :=
    List.length_pos_iff.mpr line_of.some_bytes
  rw [kept]
  rintro (last | nothing | zero)
  · have first : c = 0x65 := (List.cons.inj last).1
    obtain ⟨small, same | same⟩ := char
    · have code := congrArg UInt8.toNat (same.symm.trans first)
      rw [UInt8.toNat_ofNat'] at code
      have letter : (0x65 : UInt8).toNat = 101 := rfl
      omega
    · cases same.2.symm.trans first
  · cases nothing
  · have here : byteAt (c :: withoutBlanks body) 0 = c := rfl
    rw [here] at zero
    rw [zero] at value
    have none_left : 0 = data.length := value
    omega

theorem last_ends {c : UInt8} {last : Bytes} (char : CharOf 0 c)
    (stripped : Stripped [c] last) :
    trimAscii last = [] ∨ uuDec (byteAt (trimAscii last) 0) = 0 := by
  obtain ⟨blanks, split⟩ := stripped
  cases last with
  | nil => exact .inl rfl
  | cons d last =>
      obtain ⟨same, nothing⟩ := List.cons.inj split
      obtain ⟨rfl, _⟩ := List.append_eq_nil_iff.mp nothing.symm
      subst same
      obtain ⟨_, rfl | ⟨_, rfl⟩⟩ := char <;> decide

theorem classicBody_eq {name : String} {cap : Nat}
    {chunks lines shown : List Bytes} {last : Bytes} {rest : List Bytes}
    {out : Bytes} (texts : List.Forall₂ LineOf chunks lines)
    (stripped : List.Forall₂ Stripped lines shown)
    (ends : ∃ c, CharOf 0 c ∧ Stripped [c] last)
    (fits : out.length + chunks.flatten.length ≤ cap) :
    classicBody name cap (shown ++ last :: rest) out =
      (.ok (out ++ bodyBytes chunks lines), rest) := by
  induction texts generalizing shown out with
  | nil =>
      cases stripped
      obtain ⟨c, char, blank⟩ := ends
      rw [List.nil_append, classicBody]
      dsimp only
      rw [if_pos (.inr (last_ends char blank)), bodyBytes, List.zipWith_nil_left,
        List.flatten_nil, List.append_nil]
  | @cons data line chunks lines line_of texts ih =>
      cases stripped with
      | @cons _ found _ shown blank stripped =>
          have trimmed := line_of.trimAscii_shown blank
          have more := length_lineBytes_le data line
          rw [List.flatten_cons, List.length_append] at fits
          rw [List.cons_append, classicBody]
          dsimp only
          rw [trimmed, if_neg line_of.not_last, line_of.decodeUuLine, if_neg,
            ih stripped, bodyBytes_cons, List.append_assoc]
          · rw [List.length_append]
            omega
          · rw [List.length_append]
            omega

/-! ## Files -/

theorem Stripped.subset {line shown : Bytes} (stripped : Stripped line shown)
    {c : UInt8} (member : c ∈ shown) : c ∈ line := by
  obtain ⟨blanks, rfl⟩ := stripped
  exact List.mem_append_left _ member

theorem shown_plain {chunks lines shown : List Bytes}
    (texts : List.Forall₂ LineOf chunks lines)
    (stripped : List.Forall₂ Stripped lines shown) :
    ∀ line ∈ shown, 0x0A ∉ line ∧ 0x0D ∉ line := by
  induction texts generalizing shown with
  | nil =>
      cases stripped
      exact fun line member => by cases member
  | cons line_of _ ih =>
      cases stripped with
      | cons blank stripped =>
          rw [List.forall_mem_cons]
          exact ⟨⟨mt blank.subset line_of.plain.1,
            mt blank.subset line_of.plain.2⟩, ih stripped⟩

theorem seen_eq {lines seen : List Bytes}
    (plain : ∀ line ∈ lines, 0x0A ∉ line ∧ 0x0D ∉ line)
    (all : List.Forall₂ Seen lines seen) : seen = lines := by
  induction all with
  | nil => rfl
  | cons same _ ih =>
      rw [List.forall_mem_cons] at plain
      rw [same.eq_of_not_mem plain.1.2, ih plain.2]

namespace UuFile.Formed

variable {f : UuFile}

theorem plain (formed : f.Formed) :
    ∀ line ∈ f.shown ++ [f.last, endLine], 0x0A ∉ line ∧ 0x0D ∉ line := by
  intro line member
  rcases List.mem_append.mp member with data | final
  · exact shown_plain formed.lines formed.shown line data
  · obtain ⟨c, char, stripped⟩ := formed.last
    have others : 0x0A ∉ [c] ∧ 0x0D ∉ [c] := by
      obtain ⟨_, rfl | ⟨_, rfl⟩⟩ := char <;> decide
    rw [List.mem_cons, List.mem_singleton] at final
    rcases final with rfl | rfl
    · exact ⟨mt stripped.subset others.1, mt stripped.subset others.2⟩
    · decide

theorem text_lines (formed : f.Formed) : ∀ line ∈ f.text, 0x0A ∉ line := by
  rw [text, List.forall_mem_cons]
  refine ⟨?_, fun line member => (formed.plain line member).1⟩
  intro member
  rcases List.mem_append.mp member with early | late
  · revert early
    decide
  · exact formed.header late

theorem seen (formed : f.Formed) {seen : List Bytes}
    (all : List.Forall₂ Seen f.text seen) : ∃ header,
      seen = (beginClassic ++ header) :: (f.shown ++ [f.last, endLine]) := by
  cases all with
  | @cons _ first _ others same all =>
      rw [seen_eq formed.plain all]
      rcases same with rfl | rfl
      · exact ⟨f.header, rfl⟩
      · unfold stripCr
        split
        · rename_i last
          cases split : f.header with
          | nil =>
              rw [split] at last
              cases last
          | cons b header =>
              refine ⟨(b :: header).dropLast, ?_⟩
              rw [List.dropLast_append_of_ne_nil (List.cons_ne_nil b header)]
        · exact ⟨f.header, rfl⟩

end UuFile.Formed

theorem beginOf_classic (header : Bytes) :
    beginOf (beginClassic ++ header) = some (false, header) := by
  have black : isAsciiWhitespace 0x62 = false := by decide
  have start : trimAsciiStart (beginClassic ++ header) =
      beginClassic ++ header := by
    rw [trimAsciiStart, beginClassic, List.cons_append,
      List.dropWhile_cons_of_neg]
    rw [black]
    exact Bool.false_ne_true
  have other : ¬ beginBase64 <+: beginClassic ++ header := by
    rintro ⟨more, same⟩
    have sixth := congrArg (·[5]?) same
    cases sixth
  unfold beginOf
  rw [start]
  dsimp only
  rw [if_neg other, if_pos (List.prefix_append _ _), List.drop_left]

theorem beginOf_end : beginOf endLine = none := by decide

theorem beginOf_nil : beginOf [] = none := by decide

theorem forall₂_append_left {α β : Type} {R : α → β → Prop} {l₁ l₂ : List α}
    {l : List β} (all : List.Forall₂ R (l₁ ++ l₂) l) :
    ∃ m₁ m₂, l = m₁ ++ m₂ ∧ List.Forall₂ R l₁ m₁ ∧ List.Forall₂ R l₂ m₂ := by
  induction l₁ generalizing l with
  | nil => exact ⟨[], l, rfl, .nil, all⟩
  | cons x l₁ ih =>
      cases all with
      | cons first all =>
          obtain ⟨m₁, m₂, rfl, left, right⟩ := ih all
          exact ⟨_ :: m₁, m₂, rfl, .cons first left, right⟩

section

variable (decode64 : Bytes → Except String Bytes)

theorem extractUuLines_file {f : UuFile} (formed : f.Formed)
    {header : Bytes} {rest : List Bytes} {rounds cap : Nat}
    {b counted : Budget} (count : b.countEntry = .ok counted)
    (room : counted.reserve = .ok cap) (fits : f.data.length ≤ cap) :
    extractUuLines decode64 (rounds + 2)
        ((beginClassic ++ header) :: (f.shown ++ [f.last, endLine]) ++ rest) b =
      let body := bodyBytes f.chunks f.lines
      let (entries, result) :=
        extractUuLines decode64 rounds rest (counted.commit body.length)
      (.new (parseBeginName header) body :: entries, result) := by
  have within : ([] : Bytes).length + f.chunks.flatten.length ≤ cap := by
    rw [List.length_nil, Nat.zero_add]
    exact fits
  have lines : (beginClassic ++ header) :: (f.shown ++ [f.last, endLine]) ++
      rest = (beginClassic ++ header) ::
        (f.shown ++ f.last :: (endLine :: rest)) := by
    rw [List.cons_append, List.append_assoc]
    rfl
  rw [lines, extractUuLines, beginOf_classic]
  dsimp only
  rw [count]
  dsimp only
  rw [room]
  dsimp only
  rw [if_neg Bool.false_ne_true,
    classicBody_eq formed.lines formed.shown formed.last within]
  dsimp only
  rw [extractUuLines, beginOf_end, List.nil_append]

theorem membersOf_cons (e : Entry)
    (result : List Entry × Except LimitHit Budget) (data : Bytes)
    (files : List Bytes) :
    membersOf (e :: result.1, result.2) = some (data :: files) ↔
      e.data = data ∧ membersOf result = some files := by
  obtain ⟨entries, left⟩ := result
  unfold membersOf
  cases left with
  | error hit => exact iff_of_false nofun fun both => by cases both.2
  | ok b =>
      dsimp only
      rw [Option.some.injEq, Option.some.injEq, List.map_cons,
        List.cons.injEq]

/-- Files come out whole exactly if no line has more than a few blanks at its
end. -/
theorem extractUuLines_files {files : List UuFile}
    (formed : ∀ f ∈ files, f.Formed) {seen : List Bytes}
    (all : List.Forall₂ Seen (files.flatMap UuFile.text) seen)
    {rounds : Nat} (enough : seen.length < rounds) {b : Budget}
    (admits : b.Admits (files.map UuFile.data)) :
    membersOf (extractUuLines decode64 rounds (seen ++ [[]]) b) =
        some (files.map UuFile.data) ↔
      ∀ f ∈ files, f.FewBlanks := by
  induction files generalizing seen rounds b with
  | nil =>
      cases all
      obtain ⟨rounds, rfl⟩ : ∃ r, rounds = r + 1 :=
        Nat.exists_eq_succ_of_ne_zero (Nat.ne_of_gt enough)
      apply iff_of_true _ fun f member => by cases member
      rw [List.nil_append, extractUuLines, beginOf_nil]
      cases rounds <;> rfl
  | cons f files ih =>
      rw [List.flatMap_cons] at all
      obtain ⟨own, others, rfl, mine, theirs⟩ := forall₂_append_left all
      rw [List.forall_mem_cons] at formed
      obtain ⟨header, rfl⟩ := formed.1.seen mine
      obtain ⟨counted, cap, count, room, fits, admits⟩ := admits
      obtain ⟨rounds, rfl⟩ : ∃ r, rounds = r + 2 := by
        rw [List.length_append, List.length_cons, List.length_append] at enough
        exact ⟨rounds - 2, by omega⟩
      have enough : others.length < rounds := by
        rw [List.length_append, List.length_cons, List.length_append] at enough
        have two : [f.last, endLine].length = 2 := rfl
        omega
      rw [List.append_assoc, extractUuLines_file decode64 formed.1 count room
        fits]
      dsimp only
      rw [List.map_cons, membersOf_cons, List.forall_mem_cons]
      have whole : bodyBytes f.chunks f.lines = f.data ↔ f.FewBlanks :=
        bodyBytes_eq_iff formed.1.lines
      show bodyBytes f.chunks f.lines = f.data ∧ _ ↔ _
      rw [whole]
      apply and_congr_right
      intro few
      rw [whole.mpr few]
      exact ih formed.2 theirs enough admits

/-- The files of a text come out of it, in order, exactly if no line has more
than four spaces at its end. -/
theorem extractUuencode_iff {files : List UuFile}
    (formed : ∀ f ∈ files, f.Formed) {text : Bytes}
    (ended : Ended (files.flatMap UuFile.text) text) {b : Budget}
    (admits : b.Admits (files.map UuFile.data)) :
    membersOf (extractUuencode decode64 text b) =
        some (files.map UuFile.data) ↔
      ∀ f ∈ files, f.FewBlanks := by
  have inside : ∀ line ∈ files.flatMap UuFile.text, 0x0A ∉ line := by
    intro line member
    obtain ⟨f, file, line_of⟩ := List.mem_flatMap.mp member
    exact (formed f file).text_lines line line_of
  obtain ⟨seen, lines, all⟩ := ended.uuLines inside
  rw [extractUuencode, lines]
  apply extractUuLines_files decode64 formed all _ admits
  rw [List.length_append]
  exact Nat.lt_succ_self _

end

/-- Six bytes of zero. -/
def uuZeros (zero : UInt8) : UuFile where
  header := [0x36, 0x34, 0x34, 0x20, 0x78]
  chunks := [[0, 0, 0, 0, 0, 0]]
  lines := [0x26 :: List.replicate 8 zero]
  shown := [0x26 :: List.replicate 8 zero]
  last := [zero]

theorem uuZeros_formed {zero : UInt8} (char : CharOf 0 zero) :
    (uuZeros zero).Formed where
  header := by
    have plain : 0x0A ∉ ([0x36, 0x34, 0x34, 0x20, 0x78] : Bytes) := by decide
    exact plain
  lines := by
    have all : List.Forall₂ CharOf (List.replicate 8 0)
        (List.replicate 8 zero) := by
      simp only [List.replicate, List.forall₂_cons, List.Forall₂.nil, char,
        and_self]
    exact .cons ⟨by decide, by decide, .cons ⟨by decide, .inl rfl⟩ all⟩ .nil
  shown := .cons ⟨0, (List.append_nil _).symm⟩ .nil
  last := ⟨zero, char, 0, (List.append_nil _).symm⟩

def uuZerosText (zero : UInt8) : Bytes :=
  ((uuZeros zero).text.map (· ++ [0x0A])).flatten

theorem uuZeros_ended (zero : UInt8) :
    Ended ([uuZeros zero].flatMap UuFile.text) (uuZerosText zero) := by
  have one : [uuZeros zero].flatMap UuFile.text = (uuZeros zero).text := by
    rw [List.flatMap_cons, List.flatMap_nil, List.append_nil]
  rw [one]
  exact .lineFeeds _

def uuBudget : Budget := .new ⟨10, 100, 100⟩

theorem uuZeros_admitted (zero : UInt8) :
    uuBudget.Admits ([uuZeros zero].map UuFile.data) :=
  ⟨_, 100, rfl, rfl, Nat.le_of_ble_eq_true rfl, trivial⟩

theorem extractUuencode_backticks :
    membersOf (extractUuencode .ok (uuZerosText 0x60) uuBudget) =
      some [[0, 0, 0, 0, 0, 0]] :=
  (extractUuencode_iff .ok
    (List.forall_mem_singleton.mpr (uuZeros_formed ⟨by decide, .inr ⟨rfl, rfl⟩⟩))
    (uuZeros_ended 0x60) (uuZeros_admitted 0x60)).mpr
    (List.forall_mem_singleton.mpr (List.forall_mem_singleton.mpr (by decide)))

/-- Written with spaces, the file comes out as three bytes. -/
theorem extractUuencode_spaces :
    (uuZeros 0x20).Formed ∧
      Ended ([uuZeros 0x20].flatMap UuFile.text) (uuZerosText 0x20) ∧
      uuBudget.Admits ([uuZeros 0x20].map UuFile.data) ∧
      membersOf (extractUuencode .ok (uuZerosText 0x20) uuBudget) =
        some [[0, 0, 0]] ∧
      [uuZeros 0x20].map UuFile.data = [[0, 0, 0, 0, 0, 0]] :=
  ⟨uuZeros_formed ⟨by decide, .inl rfl⟩, uuZeros_ended 0x20,
    uuZeros_admitted 0x20, by decide, rfl⟩

end Exav.Unpack
