import Exav.Unpack.Binhex

/-!
# Forks read back

The forks of a file come out whole as far as the header, the forks and the code
they are written in are within the bytes that the budget allows for one member.
-/

namespace Exav.Unpack

set_option maxRecDepth 8192

open Exav.Carve (be16 be32)

/-! ## Files -/

/-- A number in four bytes, the highest first. -/
def ofBe32 (n : Nat) : Bytes :=
  [.ofNat (n / 2 ^ 24), .ofNat (n / 2 ^ 16), .ofNat (n / 2 ^ 8), .ofNat n]

/-- A file of two forks. -/
structure BinhexFile where
  name : Bytes
  version : UInt8
  info : Bytes
  headerCrc : Bytes
  data : Bytes
  dataCrc : Bytes
  rsrc : Bytes
  rsrcCrc : Bytes
  name_short : name.length < 2 ^ 8
  info_length : info.length = 10
  headerCrc_length : headerCrc.length = 2
  data_short : data.length < 2 ^ 32
  dataCrc_length : dataCrc.length = 2
  rsrc_short : rsrc.length < 2 ^ 32

namespace BinhexFile

/-- What stands before the lengths of the forks. -/
def front (f : BinhexFile) : Bytes :=
  UInt8.ofNat f.name.length :: (f.name ++ f.version :: f.info)

def header (f : BinhexFile) : Bytes :=
  f.front ++ (ofBe32 f.data.length ++ (ofBe32 f.rsrc.length ++ f.headerCrc))

def bytes (f : BinhexFile) : Bytes :=
  f.header ++ (f.data ++ (f.dataCrc ++ (f.rsrc ++ f.rsrcCrc)))

theorem length_front (f : BinhexFile) : f.front.length = f.name.length + 12 := by
  rw [front, List.length_cons, List.length_append, List.length_cons,
    f.info_length]

theorem length_header (f : BinhexFile) :
    f.header.length = f.name.length + 22 := by
  simp only [header, ofBe32, List.length_append, List.length_cons,
    List.length_nil, f.length_front, f.headerCrc_length]

/-- Where the resource fork stands. -/
def rsrcAt (f : BinhexFile) : Nat := f.header.length + f.data.length + 2

end BinhexFile

/-- The text of a file in a code: the marker, and the code between two
colons. -/
structure BinhexText (f : BinhexFile) (code text : Bytes) : Prop where
  rle : Rle [] code f.bytes
  framed : ∃ before between stream after : Bytes,
    text = before ++ (binhexMarker ++ (between ++
      0x3A :: (stream ++ 0x3A :: after))) ∧
    (∀ q < before.length, occursAt text binhexMarker q = false) ∧
    0x3A ∉ between ∧ Written code stream

/-! ## The stream -/

theorem binhexChar_ne_colon (v : Nat) : binhexChar v ≠ 0x3A := by
  by_cases inside : v < 64
  · revert v
    decide
  · have length : binhexAlphabet.length = 64 := rfl
    rw [binhexChar, byteAt_eq, List.getElem?_eq_none (by omega)]
    decide

theorem Written.no_colon {code stream : Bytes} (written : Written code stream) :
    0x3A ∉ stream := by
  intro member
  have kept : 0x3A ∈ stream.filter fun c => !isLineBreak c :=
    List.mem_filter.mpr ⟨member, by decide⟩
  rw [written] at kept
  obtain ⟨v, _, same⟩ := List.mem_map.mp kept
  exact binhexChar_ne_colon v same

theorem findIdx?_colon {between : Bytes} (inside : 0x3A ∉ between)
    (rest : Bytes) :
    (between ++ 0x3A :: rest).findIdx? (· == 0x3A) = some between.length := by
  induction between with
  | nil => rfl
  | cons b between ih =>
      have other : (b == 0x3A) = false :=
        beq_false_of_ne fun same => inside (same ▸ .head _)
      rw [List.cons_append, List.findIdx?_cons, other,
        ih fun member => inside (.tail _ member)]
      rfl

theorem takeWhile_colon {stream : Bytes} (inside : 0x3A ∉ stream)
    (rest : Bytes) :
    (stream ++ 0x3A :: rest).takeWhile (· != 0x3A) = stream := by
  rw [List.takeWhile_append_of_pos, List.takeWhile_cons_of_neg (by decide),
    List.append_nil]
  intro b member
  rw [bne_iff_ne]
  exact fun same => inside (same ▸ member)

theorem find_first {before needle rest : Bytes}
    (first : ∀ q < before.length,
      occursAt (before ++ (needle ++ rest)) needle q = false) :
    find (before ++ (needle ++ rest)) needle 0
      (before ++ (needle ++ rest)).length = some before.length := by
  have here : occursAt (before ++ (needle ++ rest)) needle before.length :=
    beq_iff_eq.mpr (by rw [window, List.drop_left, List.take_left])
  have fits : before.length + needle.length ≤
      (before ++ (needle ++ rest)).length := by
    rw [List.length_append, List.length_append]
    omega
  cases found : find (before ++ (needle ++ rest)) needle 0
      (before ++ (needle ++ rest)).length with
  | none =>
      have absent := find_eq_none found before.length (Nat.zero_le _) fits fits
      exact absurd (here.symm.trans absent) Bool.noConfusion
  | some q =>
      obtain ⟨_, _, occurs, earlier⟩ := find_eq_some found
      rcases Nat.lt_trichotomy q before.length with below | rfl | above
      · exact absurd (occurs.symm.trans (first q below)) Bool.noConfusion
      · rfl
      · have absent := earlier before.length (Nat.zero_le _) above
        exact absurd (here.symm.trans absent) Bool.noConfusion

theorem BinhexText.stream {f : BinhexFile} {code text : Bytes}
    (framed : BinhexText f code text) : ∃ stream,
      binhexStream text = some stream ∧ Written code stream := by
  obtain ⟨before, between, stream, after, rfl, first, inside, written⟩ :=
    framed.framed
  refine ⟨stream, ?_, written⟩
  have behind : (before ++ (binhexMarker ++ (between ++
      0x3A :: (stream ++ 0x3A :: after)))).drop
        (before.length + binhexMarker.length) =
      between ++ 0x3A :: (stream ++ 0x3A :: after) := by
    rw [← List.drop_drop, List.drop_left, List.drop_left]
  rw [binhexStream, find_first first]
  dsimp only
  rw [behind, findIdx?_colon inside]
  dsimp only
  rw [← List.drop_drop, ← List.drop_drop, behind, List.drop_left,
    List.drop_one, List.tail_cons, takeWhile_colon written.no_colon]

/-! ## The header -/

theorem be32_ofBe32 {n : Nat} (small : n < 2 ^ 32) (front back : Bytes) :
    be32 (front ++ (ofBe32 n ++ back)) front.length = n := by
  have there : ∀ i b, (ofBe32 n)[i]? = some b →
      byteAt (front ++ (ofBe32 n ++ back)) (front.length + i) = b := by
    intro i b stands
    rw [byteAt_eq, List.getElem?_append_right (Nat.le_add_right _ i),
      Nat.add_sub_cancel_left, List.getElem?_append_left, stands]
    · rfl
    · exact (List.getElem?_eq_some_iff.mp stands).1
  have first := there 0 _ rfl
  rw [Nat.add_zero] at first
  unfold be32 be16
  rw [first, there 1 _ rfl, there 2 _ rfl, Nat.add_assoc, there 3 _ rfl]
  simp only [UInt8.toNat_ofNat']
  omega

variable {f : BinhexFile}

theorem binhexHeader_eq (f : BinhexFile) (tail : Bytes) :
    (binhexHeader (f.header ++ tail)).dataLen = f.data.length ∧
      (binhexHeader (f.header ++ tail)).rsrcLen = f.rsrc.length ∧
      (binhexHeader (f.header ++ tail)).stop = f.header.length := by
  have short := f.name_short
  have length := f.length_header
  have nameLen : (byteAt (f.header ++ tail) 0).toNat = f.name.length := by
    have first : byteAt (f.header ++ tail) 0 = UInt8.ofNat f.name.length := rfl
    rw [first, UInt8.toNat_ofNat']
    exact Nat.mod_eq_of_lt short
  have nameEnd : min (1 + f.name.length) (f.header ++ tail).length =
      1 + f.name.length := by
    rw [List.length_append]
    omega
  have place : 1 + f.name.length + 1 + 4 + 4 + 2 = f.front.length := by
    rw [f.length_front]
    omega
  have dataLen : be32 (f.header ++ tail) f.front.length = f.data.length := by
    rw [BinhexFile.header, List.append_assoc, List.append_assoc]
    exact be32_ofBe32 f.data_short _ _
  have rsrcLen : be32 (f.header ++ tail) (f.front.length + 4) =
      f.rsrc.length := by
    have next : f.front.length + 4 =
        (f.front ++ ofBe32 f.data.length).length := by
      rw [List.length_append]
      rfl
    rw [next, BinhexFile.header, List.append_assoc, List.append_assoc,
      ← List.append_assoc f.front, List.append_assoc (ofBe32 _)]
    exact be32_ofBe32 f.rsrc_short _ _
  unfold binhexHeader
  dsimp only
  rw [nameLen, nameEnd, place]
  refine ⟨dataLen, rsrcLen, ?_⟩
  rw [f.length_front, length]

/-! ## Handing over -/

def Budget.place (b : Budget) (fork : Bytes) : Option Budget :=
  match b.countEntry with
  | .error _ => none
  | .ok counted =>
      match counted.reserve with
      | .error _ => none
      | .ok cap =>
          if fork.length ≤ cap then some (counted.commit fork.length) else none

/-- The contents to hand over, and whether every fork fits: an empty resource
fork is none, and nothing is handed over from one that does not fit on. -/
def handed (b : Budget) (data rsrc : Bytes) : List Bytes × Bool :=
  match b.place data with
  | none => ([], false)
  | some b =>
      if rsrc = [] then ([data], true)
      else
        match b.place rsrc with
        | none => ([data], false)
        | some _ => ([data, rsrc], true)

def outcome (result : List Entry × Except LimitHit Budget) : List Bytes × Bool :=
  (result.1.map Entry.data, result.2.isOk)

theorem spendFork_eq (exceeds : LimitHit) (fork : Bytes) (b : Budget) :
    (spendFork exceeds fork b).toOption = b.place fork := by
  unfold spendFork Budget.place
  cases b.countEntry with
  | error hit => rfl
  | ok counted =>
      dsimp only
      cases counted.reserve with
      | error hit => rfl
      | ok cap =>
          dsimp only
          by_cases fits : fork.length ≤ cap
          · rw [if_pos fits, if_neg (Nat.not_lt.mpr fits)]
            rfl
          · rw [if_neg fits, if_pos (Nat.not_le.mp fits)]
            rfl

theorem window_beyond {bytes : Bytes} {start : Nat}
    (beyond : bytes.length ≤ start) (n : Nat) : window bytes start n = [] := by
  rw [window, List.drop_eq_nil_of_le beyond, List.take_nil]

theorem window_clamp (bytes : Bytes) (start n : Nat) :
    window bytes (min start bytes.length)
        (min (min start bytes.length + n) bytes.length -
          min start bytes.length) = window bytes start n := by
  rcases Nat.le_total start bytes.length with inside | beyond
  · rw [Nat.min_eq_left inside, window, window, List.take_eq_take_iff,
      List.length_drop]
    omega
  · rw [Nat.min_eq_right beyond, window_beyond (Nat.le_refl _),
      window_beyond beyond]

theorem outcome_binhexForks (bytes : Bytes) (b : Budget) :
    outcome (binhexForks bytes b) =
      let header := binhexHeader bytes
      handed b (window bytes header.stop header.dataLen)
        (window bytes (header.stop + header.dataLen + 2) header.rsrcLen) := by
  unfold binhexForks
  dsimp only
  generalize binhexHeader bytes = header
  have dataEnd : min (min header.stop bytes.length + header.dataLen)
      bytes.length = min (header.stop + header.dataLen) bytes.length := by
    omega
  have rsrcStart : min (min (header.stop + header.dataLen) bytes.length + 2)
      bytes.length = min (header.stop + header.dataLen + 2) bytes.length := by
    omega
  have data := window_clamp bytes header.stop header.dataLen
  have rsrc := window_clamp bytes (header.stop + header.dataLen + 2)
    header.rsrcLen
  rw [dataEnd] at data
  rw [dataEnd, rsrcStart, data, rsrc]
  have nonempty : min (header.stop + header.dataLen + 2) bytes.length <
      min (min (header.stop + header.dataLen + 2) bytes.length +
        header.rsrcLen) bytes.length ↔
      window bytes (header.stop + header.dataLen + 2) header.rsrcLen ≠ [] := by
    rw [← List.length_pos_iff, length_window]
    omega
  generalize window bytes header.stop header.dataLen = dataFork at *
  generalize window bytes (header.stop + header.dataLen + 2) header.rsrcLen =
    rsrcFork at *
  unfold handed
  rw [← spendFork_eq dataForkExceeds]
  cases spendFork dataForkExceeds dataFork b with
  | error hit => rfl
  | ok b =>
      dsimp only [Except.toOption]
      by_cases empty : rsrcFork = []
      · rw [if_neg (mt nonempty.mp (not_not.mpr empty)), if_pos empty]
        rfl
      · rw [if_pos (nonempty.mpr empty), if_neg empty,
          ← spendFork_eq rsrcForkExceeds]
        cases spendFork rsrcForkExceeds rsrcFork b with
        | error hit => rfl
        | ok b => rfl

/-! ## What is kept -/

section

variable {kept whole : Bytes}

theorem take_of_near (near : kept.dropLast <+: whole) {n : Nat}
    (inside : n < kept.length) : kept.take n = whole.take n := by
  obtain ⟨others, rfl⟩ := near
  rw [List.take_append_of_le_length, List.dropLast_eq_take, List.take_take]
  · congr 1
    omega
  · rw [List.length_dropLast]
    omega

/-- A part is kept exactly if everything up to its end is. -/
theorem window_of_near (near : kept.dropLast <+: whole) {start : Nat}
    {part : Bytes} (there : window whole start part.length = part)
    (some_of_it : part ≠ []) :
    window kept start part.length = part ↔
      kept.take (start + part.length) = whole.take (start + part.length) := by
  have split : ∀ bytes : Bytes, bytes.take (start + part.length) =
      bytes.take start ++ window bytes start part.length :=
    fun bytes => List.take_add
  constructor
  · intro same
    have length := congrArg List.length same
    have positive := List.length_pos_iff.mpr some_of_it
    rw [length_window] at length
    rw [split, split, same, there, take_of_near near (by omega)]
  · intro same
    have cut : ∀ bytes : Bytes, window bytes start part.length =
        (bytes.take (start + part.length)).drop start := by
      intro bytes
      rw [window, List.drop_take, Nat.add_sub_cancel_left]
    rw [cut, same, ← cut, there]

end

theorem outcome_of_near {kept : Bytes} (near : kept.dropLast <+: f.bytes)
    (some_kept : kept ≠ []) (b : Budget) :
    outcome (binhexForks kept b) =
      handed b (window kept f.header.length f.data.length)
        (window kept f.rsrcAt f.rsrc.length) := by
  rw [outcome_binhexForks]
  dsimp only
  by_cases inside : f.header.length < kept.length
  · have starts : f.header <+: kept := by
      have first := take_of_near near inside
      rw [BinhexFile.bytes, List.take_left] at first
      exact first ▸ List.take_prefix _ _
    obtain ⟨tail, rfl⟩ := starts
    obtain ⟨dataLen, rsrcLen, stop⟩ := binhexHeader_eq f tail
    rw [dataLen, rsrcLen, stop]
    rfl
  · have short := Nat.not_lt.mp inside
    have stop : kept.length ≤ (binhexHeader kept).stop := by
      have positive := List.length_pos_iff.mpr some_kept
      have nameLen : 1 < kept.length →
          (byteAt kept 0).toNat = f.name.length := by
        intro two
        have first := take_of_near near two
        have same : byteAt kept 0 = UInt8.ofNat f.name.length := by
          rw [byteAt, window, List.drop_zero, first]
          rfl
        rw [same, UInt8.toNat_ofNat', Nat.mod_eq_of_lt f.name_short]
      rw [f.length_header] at short
      show kept.length ≤ min (1 + (byteAt kept 0).toNat) kept.length + 1 + 4 +
        4 + 2 + 4 + 4 + 2
      by_cases two : 1 < kept.length
      · rw [nameLen two]
        omega
      · omega
    rw [window_beyond stop, window_beyond (by omega), window_beyond short,
      window_beyond (by rw [BinhexFile.rsrcAt]; omega)]

/-- The bytes that are kept within a cap. -/
def binhexCap (cap : Nat) : Nat := min (cap + 1) u64Max

/-- The code, cut to what is read of it within a cap, stands for the first `n`
bytes of the whole, and there is room for these. -/
def Reaches (cap : Nat) (code whole : Bytes) (n : Nat) : Prop :=
  n ≤ binhexCap cap ∧ ∃ shown, Shows [] (code.take (binhexCap cap)) shown ∧
    whole.take n <+: shown

/-- The code stands for more than `n` bytes within a cap. -/
def Passes (cap : Nat) (code : Bytes) (n : Nat) : Prop :=
  n < binhexCap cap ∧ ∃ shown, Shows [] (code.take (binhexCap cap)) shown ∧
    n < shown.length

structure Kept (cap : Nat) (code whole kept : Bytes) : Prop where
  some_kept : kept ≠ []
  small : kept.length ≤ cap + 1
  near : kept.dropLast <+: whole
  reaches : ∀ n ≤ whole.length,
    Reaches cap code whole n ↔ kept.take n = whole.take n
  passes : ∀ n, Passes cap code n ↔ n < kept.length

theorem Rle.kept {code whole : Bytes} (rle : Rle [] code whole)
    (some_code : code ≠ []) (cap : Nat) :
    Kept cap code whole
      (rle90Expand (code.take (binhexCap cap)) (binhexCap cap)) := by
  have positive : 0 < binhexCap cap := by
    have room : 0 < u64Max := by decide
    exact Nat.lt_min.mpr ⟨Nat.succ_pos cap, room⟩
  have small : binhexCap cap ≤ cap + 1 := Nat.min_le_left _ _
  obtain ⟨shown, shows, near⟩ := rle.cut (binhexCap cap)
  have only : ∀ {other}, Shows [] (code.take (binhexCap cap)) other →
      other.take (binhexCap cap) = shown.take (binhexCap cap) := by
    intro other shows'
    rw [← shows'.rle90Expand positive, shows.rle90Expand positive]
  rw [shows.rle90Expand positive]
  refine ⟨?_, ?_, ?_, ?_, ?_⟩
  · have some_shown := shows.ne_nil (by
      rw [ne_eq, List.take_eq_nil_iff, not_or]
      exact ⟨Nat.ne_of_gt positive, some_code⟩)
    rw [ne_eq, List.take_eq_nil_iff, not_or]
    exact ⟨Nat.ne_of_gt positive, some_shown⟩
  · rw [List.length_take]
    omega
  · refine List.IsPrefix.trans ?_ near
    rw [List.dropLast_eq_take, List.dropLast_eq_take, List.take_take,
      List.length_take]
    apply List.take_prefix_take_left
    omega
  · intro n inside
    constructor
    · rintro ⟨fits, other, shows', starts⟩
      have same := List.prefix_iff_eq_take.mp starts
      have length : (whole.take n).length = n := by
        rw [List.length_take, Nat.min_eq_left inside]
      rw [length] at same
      rw [← only shows', List.take_take, Nat.min_eq_left fits]
      exact same.symm
    · intro same
      have length := congrArg List.length same
      rw [List.length_take, List.length_take, List.length_take] at length
      refine ⟨by omega, shown, shows, ?_⟩
      rw [← same]
      exact (List.take_prefix _ _).trans (List.take_prefix _ _)
  · intro n
    constructor
    · rintro ⟨fits, other, shows', longer⟩
      rw [← only shows', List.length_take]
      omega
    · intro longer
      rw [List.length_take] at longer
      exact ⟨by omega, shown, shows, by omega⟩

/-! ## Both forks -/

theorem BinhexFile.window_data (f : BinhexFile) :
    window f.bytes f.header.length f.data.length = f.data := by
  rw [window, bytes, List.drop_left, List.take_left]

theorem BinhexFile.window_rsrc (f : BinhexFile) :
    window f.bytes f.rsrcAt f.rsrc.length = f.rsrc := by
  have front : f.rsrcAt = (f.header ++ (f.data ++ f.dataCrc)).length := by
    rw [rsrcAt, List.length_append, List.length_append, f.dataCrc_length,
      Nat.add_assoc]
  have split : f.bytes = (f.header ++ (f.data ++ f.dataCrc)) ++
      (f.rsrc ++ f.rsrcCrc) := by
    simp only [bytes, List.append_assoc]
  rw [window, split, front, List.drop_left, List.take_left]

theorem BinhexFile.length_bytes (f : BinhexFile) :
    f.rsrcAt + f.rsrc.length ≤ f.bytes.length := by
  simp only [rsrcAt, bytes, List.length_append, f.dataCrc_length]
  omega

theorem Budget.reserve_of_countEntry {b counted : Budget}
    (count : b.countEntry = .ok counted) : counted.reserve = b.reserve := by
  unfold countEntry at count
  split at count
  · cases count
  · cases count
    rfl

theorem Budget.place_eq {b counted : Budget} {cap : Nat} {fork : Bytes}
    (count : b.countEntry = .ok counted) (room : b.reserve = .ok cap)
    (fits : fork.length ≤ cap) :
    b.place fork = some (counted.commit fork.length) := by
  rw [place, count]
  dsimp only
  rw [reserve_of_countEntry count, room]
  exact if_pos fits

/-- After a fork that leaves room for more than the header, there is room. -/
theorem Budget.reserve_commit {b : Budget} {cap n : Nat}
    (room : b.reserve = .ok cap) (less : n < cap) :
    ∃ left, (b.commit n).reserve = .ok left ∧ cap - n ≤ left := by
  unfold reserve at room ⊢
  dsimp only [commit] at room ⊢
  split at room
  · cases room
  · have same : min (b.limits.maxExtractedBytes - b.totalOut)
        b.limits.maxBufferBytes = cap := Except.ok.inj room
    rw [if_neg (by omega)]
    exact ⟨_, rfl, by omega⟩

/-- When both forks come out, or the limit that is in the way of one is hit:
a fork is within the reservation, and so are the header before it and the code
up to its end. -/
def BinhexFile.Survives (f : BinhexFile) (code : Bytes) (b : Budget) : Prop :=
  match b.countEntry, b.reserve with
  | .ok counted, .ok cap =>
      f.data.length ≤ cap ∧
        if f.rsrc = [] then
          f.data = [] ∨
            Reaches cap code f.bytes (f.header.length + f.data.length)
        else
          let counted := counted.commit f.data.length
          match counted.countEntry with
          | .error _ => Passes cap code f.rsrcAt
          | .ok _ => (counted.place f.rsrc).isSome ∧
              Reaches cap code f.bytes (f.rsrcAt + f.rsrc.length)
  | _, _ => True

section

variable {code kept : Bytes} {b counted : Budget} {cap : Nat}

/-- A fork behind the header is never over the reservation. -/
theorem Kept.window_small (keeps : Kept cap code f.bytes kept)
    (start n : Nat) : (window kept start n).length + start ≤ cap + 1 ∨
      window kept start n = [] := by
  have small := keeps.small
  by_cases beyond : kept.length ≤ start
  · exact .inr (window_beyond beyond n)
  · left
    rw [length_window]
    omega

theorem Kept.data_eq_iff (keeps : Kept cap code f.bytes kept) :
    window kept f.header.length f.data.length = f.data ↔ f.data = [] ∨
      Reaches cap code f.bytes (f.header.length + f.data.length) := by
  have inside := f.length_bytes
  unfold BinhexFile.rsrcAt at inside
  by_cases empty : f.data = []
  · rw [empty]
    exact iff_of_true (List.take_zero) (.inl rfl)
  · rw [window_of_near keeps.near f.window_data empty,
      keeps.reaches _ (by omega), or_iff_right empty]

theorem Kept.rsrc_eq_iff (keeps : Kept cap code f.bytes kept)
    (some_rsrc : f.rsrc ≠ []) :
    window kept f.rsrcAt f.rsrc.length = f.rsrc ↔
      Reaches cap code f.bytes (f.rsrcAt + f.rsrc.length) := by
  rw [window_of_near keeps.near f.window_rsrc some_rsrc,
    keeps.reaches _ f.length_bytes]

/-- The data fork is whole where anything of the resource fork is. -/
theorem Kept.data_of_passes (keeps : Kept cap code f.bytes kept)
    (passes : f.rsrcAt < kept.length) :
    window kept f.header.length f.data.length = f.data := by
  have before : f.header.length + f.data.length < kept.length := by
    unfold BinhexFile.rsrcAt at passes
    omega
  have inside := f.length_bytes
  unfold BinhexFile.rsrcAt at inside
  rw [keeps.data_eq_iff, keeps.reaches _ (by omega)]
  exact .inr (take_of_near keeps.near before)

theorem Kept.handed_rsrc (keeps : Kept cap code f.bytes kept)
    (count : b.countEntry = .ok counted) (room : b.reserve = .ok cap)
    (fits : f.data.length ≤ cap) (some_rsrc : f.rsrc ≠ [])
    (passes : f.rsrcAt < kept.length) :
    handed b f.data (window kept f.rsrcAt f.rsrc.length) =
        handed b f.data f.rsrc ↔
      match (counted.commit f.data.length).countEntry with
      | .error _ => Passes cap code f.rsrcAt
      | .ok _ => ((counted.commit f.data.length).place f.rsrc).isSome ∧
          Reaches cap code f.bytes (f.rsrcAt + f.rsrc.length) := by
  have positive := List.length_pos_iff.mpr some_rsrc
  have some_fork : window kept f.rsrcAt f.rsrc.length ≠ [] := by
    rw [← List.length_pos_iff, length_window]
    omega
  have placed := Budget.place_eq count room fits
  have step : ∀ rsrc : Bytes, rsrc ≠ [] → handed b f.data rsrc =
      match (counted.commit f.data.length).place rsrc with
      | none => ([f.data], false)
      | some _ => ([f.data, rsrc], true) := by
    intro rsrc some_rsrc
    rw [handed, placed]
    exact if_neg some_rsrc
  rw [step _ some_fork, step _ some_rsrc]
  cases count' : (counted.commit f.data.length).countEntry with
  | error hit =>
      have full : ∀ fork, (counted.commit f.data.length).place fork = none := by
        intro fork
        rw [Budget.place, count']
      rw [full, full]
      exact iff_of_true rfl ((keeps.passes _).mpr passes)
  | ok counted' =>
      have small := keeps.small
      have length := f.length_header
      have at_ : f.rsrcAt = f.header.length + f.data.length + 2 := rfl
      obtain ⟨left, room', enough⟩ := Budget.reserve_commit
        ((Budget.reserve_of_countEntry count).trans room)
        (show f.data.length < cap by omega)
      have within : (window kept f.rsrcAt f.rsrc.length).length ≤ left := by
        rcases keeps.window_small f.rsrcAt f.rsrc.length with less | empty
        · omega
        · exact absurd empty some_fork
      rw [Budget.place_eq count' room' within]
      cases (counted.commit f.data.length).place f.rsrc with
      | none => exact iff_of_false nofun nofun
      | some after =>
          dsimp only [Option.isSome]
          rw [and_iff_right rfl, ← keeps.rsrc_eq_iff some_rsrc]
          constructor
          · intro same
            exact (List.cons.inj (List.cons.inj (Prod.ext_iff.mp same).1).2).1
          · intro same
            rw [same]

theorem Kept.handed_iff (keeps : Kept cap code f.bytes kept)
    (room : b.reserve = .ok cap) :
    handed b (window kept f.header.length f.data.length)
        (window kept f.rsrcAt f.rsrc.length) = handed b f.data f.rsrc ↔
      f.Survives code b := by
  unfold BinhexFile.Survives
  cases count : b.countEntry with
  | error hit =>
      have full : ∀ fork, b.place fork = none := by
        intro fork
        rw [Budget.place, count]
      unfold handed
      rw [full, full]
      exact iff_of_true rfl trivial
  | ok counted =>
      rw [room]
      dsimp only
      have length := f.length_header
      have within : (window kept f.header.length f.data.length).length ≤
          cap := by
        rcases keeps.window_small f.header.length f.data.length with
          less | empty
        · omega
        · rw [empty]
          exact Nat.zero_le cap
      have placed := Budget.place_eq count room within
      by_cases fits : f.data.length ≤ cap
      · rw [and_iff_right fits]
        have placed' := Budget.place_eq count room fits
        by_cases empty : f.rsrc = []
        · have none_kept : window kept f.rsrcAt f.rsrc.length = [] := by
            rw [empty]
            exact List.take_zero
          rw [if_pos empty, ← keeps.data_eq_iff, none_kept, empty, handed,
            handed, placed, placed']
          dsimp only
          rw [if_pos rfl, if_pos rfl]
          constructor
          · intro same
            exact (List.cons.inj (Prod.ext_iff.mp same).1).1
          · intro same
            rw [same]
        · rw [if_neg empty]
          by_cases passes : f.rsrcAt < kept.length
          · rw [keeps.data_of_passes passes]
            exact keeps.handed_rsrc count room fits empty passes
          · -- Nothing of the resource fork is kept, and no limit is hit.
            have none_kept : window kept f.rsrcAt f.rsrc.length = [] :=
              window_beyond (Nat.not_lt.mp passes) _
            have positive := List.length_pos_iff.mpr empty
            apply iff_of_false
            · rw [none_kept, handed, handed, placed, placed']
              dsimp only
              rw [if_pos rfl, if_neg empty]
              split
              · intro same
                cases (Prod.ext_iff.mp same).2
              · intro same
                cases (List.cons.inj (Prod.ext_iff.mp same).1).2
            · split
              · rw [keeps.passes]
                exact passes
              · rintro ⟨_, reached⟩
                have same := (keeps.reaches _ f.length_bytes).mp reached
                have lengths := congrArg List.length same
                have inside := f.length_bytes
                rw [List.length_take, List.length_take] at lengths
                omega
      · have refused : b.place f.data = none := by
          rw [Budget.place, count]
          dsimp only
          rw [Budget.reserve_of_countEntry count, room]
          exact if_neg fits
        apply iff_of_false
        · unfold handed
          rw [placed, refused]
          dsimp only
          split
          · exact nofun
          · split
            · exact nofun
            · exact nofun
        · exact fun both => fits both.1

end

/-- The forks of a file come out whole, as far as they fit, exactly if the
header and the code are within what is reserved for a fork as well. -/
theorem extractBinhex_iff {code text : Bytes} (framed : BinhexText f code text)
    (b : Budget) :
    outcome (extractBinhex text b) = handed b f.data f.rsrc ↔
      f.Survives code b := by
  obtain ⟨stream, found, written⟩ := framed.stream
  rw [extractBinhex, found]
  dsimp only
  cases room : b.reserve with
  | error hit =>
      have refused : b.place f.data = none := by
        unfold Budget.place
        cases count : b.countEntry with
        | error hit => rfl
        | ok counted =>
            dsimp only
            rw [Budget.reserve_of_countEntry count, room]
      apply iff_of_true
      · rw [handed, refused]
        rfl
      · unfold BinhexFile.Survives
        rw [room]
        cases b.countEntry <;> trivial
  | ok cap =>
      have some_code : code ≠ [] := by
        rintro rfl
        have nothing := framed.rle
        generalize whole : f.bytes = bytes at nothing
        cases nothing
        cases whole
      have positive : 0 < binhexCap cap := by
        have enough : 0 < u64Max := by decide
        exact Nat.lt_min.mpr ⟨Nat.succ_pos cap, enough⟩
      have keeps := framed.rle.kept some_code cap
      dsimp only
      rw [← binhexCap, written.sixbitDecode positive,
        if_neg keeps.some_kept, outcome_of_near keeps.near keeps.some_kept]
      exact keeps.handed_iff room

/-- A file of one letter, with thirty bytes in its data fork. -/
def binhexOne : BinhexFile where
  name := [0x61]
  version := 0
  info := List.replicate 10 0
  headerCrc := [0, 0]
  data := List.replicate 30 7
  dataCrc := [0, 0]
  rsrc := []
  rsrcCrc := [0, 0]
  name_short := by decide
  info_length := rfl
  headerCrc_length := rfl
  data_short := by decide
  dataCrc_length := rfl
  rsrc_short := by decide

def binhexOneChars : Bytes := (codeSextets binhexOne.bytes).map binhexChar

def binhexOneText : Bytes :=
  binhexMarker ++ ([0x29, 0x0A] ++ 0x3A :: (binhexOneChars ++ [0x3A]))

theorem binhexOne_rle : Rle [] binhexOne.bytes binhexOne.bytes :=
  rle_plain (by decide) []

theorem binhexOne_text : BinhexText binhexOne binhexOne.bytes binhexOneText where
  rle := binhexOne_rle
  framed := ⟨[], [0x29, 0x0A], binhexOneChars, [], rfl, nofun, by decide,
    by decide⟩

theorem extractBinhex_whole :
    outcome (extractBinhex binhexOneText (.new ⟨10, 100, 100⟩)) =
      ([List.replicate 30 7], true) :=
  (extractBinhex_iff binhexOne_text (.new ⟨10, 100, 100⟩)).mpr
    ⟨by decide, .inr ⟨by decide, _, .inl binhexOne_rle, List.take_prefix _ _⟩⟩

/-- With thirty bytes left, the thirty of the fork come out as eight. -/
theorem extractBinhex_shortened :
    BinhexText binhexOne binhexOne.bytes binhexOneText ∧
      handed (.new ⟨10, 30, 30⟩) binhexOne.data binhexOne.rsrc =
        ([List.replicate 30 7], true) ∧
      outcome (extractBinhex binhexOneText (.new ⟨10, 30, 30⟩)) =
        ([List.replicate 8 7], true) :=
  ⟨binhexOne_text, by decide, by decide⟩

end Exav.Unpack
