import Exav.Carve.Search
import Exav.Unpack.EmitStream
import Exav.Unpack.Uuencode

/-!
# BinHex

A file of two forks, packed by RLE90 and then written six bits a character
between two colons.  What is decoded of it is bounded by the budget before the
header is read, and every length is clamped to the bytes that are there.
-/

namespace Exav.Unpack

open Exav.Carve (be32)

/-- `(This file must be converted with BinHex` -/
def binhexMarker : Bytes :=
  [0x28, 0x54, 0x68, 0x69, 0x73, 0x20, 0x66, 0x69, 0x6C, 0x65, 0x20, 0x6D, 0x75,
    0x73, 0x74, 0x20, 0x62, 0x65, 0x20, 0x63, 0x6F, 0x6E, 0x76, 0x65, 0x72, 0x74,
    0x65, 0x64, 0x20, 0x77, 0x69, 0x74, 0x68, 0x20, 0x42, 0x69, 0x6E, 0x48, 0x65,
    0x78]

/-- The 64 characters, each at the value it stands for. -/
def binhexAlphabet : Bytes :=
  [0x21, 0x22, 0x23, 0x24, 0x25, 0x26, 0x27, 0x28, 0x29, 0x2A, 0x2B, 0x2C, 0x2D,
    0x30, 0x31, 0x32, 0x33, 0x34, 0x35, 0x36, 0x38, 0x39, 0x40, 0x41, 0x42, 0x43,
    0x44, 0x45, 0x46, 0x47, 0x48, 0x49, 0x4A, 0x4B, 0x4C, 0x4D, 0x4E, 0x50, 0x51,
    0x52, 0x53, 0x54, 0x55, 0x56, 0x58, 0x59, 0x5A, 0x5B, 0x60, 0x61, 0x62, 0x63,
    0x64, 0x65, 0x66, 0x68, 0x69, 0x6A, 0x6B, 0x6C, 0x6D, 0x70, 0x71, 0x72]

def rleMarker : UInt8 := 0x90

/-- The value of a character, and `0xFF` for one outside the alphabet. -/
def decodeTable (c : UInt8) : UInt8 :=
  match binhexAlphabet.findIdx? (· == c) with
  | some i => UInt8.ofNat i
  | none => 0xFF

/-! ## Six bits a character -/

def sixbitFrom (cap : Nat) : Bytes → UInt32 → Nat → Bytes → Bytes
  | [], _, _, out => out
  | c :: stream, acc, nbits, out =>
      let v := decodeTable c
      if v = 0xFF then sixbitFrom cap stream acc nbits out
      else
        let acc := acc <<< 6 ||| v.toUInt32
        if nbits + 6 < 8 then sixbitFrom cap stream acc (nbits + 6) out
        else
          let nbits := nbits + 6 - 8
          let out := out ++ [(acc >>> UInt32.ofNat nbits).toUInt8]
          if cap ≤ out.length then out else sixbitFrom cap stream acc nbits out

/-- The bytes of a stream.  What is not in the alphabet is skipped. -/
def sixbitDecode (stream : Bytes) (cap : Nat) : Bytes :=
  sixbitFrom cap stream 0 0 []

/-! ## Runs -/

def pushRun (cap : Nat) (last : UInt8) : Nat → Bytes → Bytes
  | 0, out => out
  | more + 1, out =>
      let out := out ++ [last]
      if cap ≤ out.length then out else pushRun cap last more out

def markerAdds (cap : Nat) (count : UInt8) (out : Bytes) : Bytes :=
  if count = 0 then out ++ [rleMarker]
  else
    match out.getLast? with
    | some last => pushRun cap last (count.toNat - 1) out
    | none => out

def rle90From (cap : Nat) : Bytes → Bytes → Bytes
  | [], out => out
  | b :: [], out => if b = rleMarker then markerAdds cap 0 out else out ++ [b]
  | b :: n :: input, out =>
      if b = rleMarker then
        let out := markerAdds cap n out
        if cap ≤ out.length then out else rle90From cap input out
      else
        let out := out ++ [b]
        if cap ≤ out.length then out else rle90From cap (n :: input) out

/-- Expand runs: a byte, a marker and a count stand for that many of the byte,
a marker and zero for the marker itself. -/
def rle90Expand (input : Bytes) (cap : Nat) : Bytes :=
  rle90From cap input []

/-! ## Forks -/

structure BinhexHeader where
  name : String
  dataLen : Nat
  rsrcLen : Nat
  stop : Nat

def binhexHeader (bytes : Bytes) : BinhexHeader :=
  let nameEnd := min (1 + (byteAt bytes 0).toNat) bytes.length
  let name := fromUtf8Lossy (window bytes 1 (nameEnd - 1))
  -- A version byte, the type, the creator and the flags.
  let p := nameEnd + 1 + 4 + 4 + 2
  { name := if name = "" then "binhex-data" else name
    dataLen := be32 bytes p
    rsrcLen := be32 bytes (p + 4)
    stop := p + 4 + 4 + 2 }

def dataForkExceeds : LimitHit := .new "binhex data fork exceeds budget"

def rsrcForkExceeds : LimitHit := .new "binhex resource fork exceeds budget"

def spendFork (exceeds : LimitHit) (fork : Bytes) (b : Budget) :
    Except LimitHit Budget :=
  match b.countEntry with
  | .error hit => .error hit
  | .ok b =>
      match b.reserve with
      | .error hit => .error hit
      | .ok cap =>
          if cap < fork.length then .error exceeds
          else .ok (b.commit fork.length)

/-- The forks that a visitor that wants all of them is given, and the budget
left or what stopped it. -/
def binhexForks (bytes : Bytes) (b : Budget) :
    List Entry × Except LimitHit Budget :=
  let len := bytes.length
  let header := binhexHeader bytes
  let dataStart := min header.stop len
  let dataEnd := min (dataStart + header.dataLen) len
  let dataFork := window bytes dataStart (dataEnd - dataStart)
  match spendFork dataForkExceeds dataFork b with
  | .error hit => ([], .error hit)
  | .ok b =>
      let data := Entry.new header.name dataFork
      let rsrcStart := min (dataEnd + 2) len
      let rsrcEnd := min (rsrcStart + header.rsrcLen) len
      if rsrcStart < rsrcEnd then
        let rsrcFork := window bytes rsrcStart (rsrcEnd - rsrcStart)
        match spendFork rsrcForkExceeds rsrcFork b with
        | .error hit => ([data], .error hit)
        | .ok b => ([data, .new (header.name ++ ".rsrc") rsrcFork], .ok b)
      else ([data], .ok b)

/-- Where the encoded stream stands: between the first colon after the marker
and the next one. -/
def binhexStream (data : Bytes) : Option Bytes :=
  let markerAt := match find data binhexMarker 0 data.length with
    | some p => p + binhexMarker.length
    | none => 0
  match (data.drop markerAt).findIdx? (· == 0x3A) with
  | none => none
  | some relOpen =>
      some ((data.drop (markerAt + relOpen + 1)).takeWhile (· != 0x3A))

def extractBinhex (data : Bytes) (b : Budget) :
    List Entry × Except LimitHit Budget :=
  match binhexStream data with
  | none => ([], .ok b)
  | some stream =>
      match b.reserve with
      | .error hit => ([], .error hit)
      | .ok cap =>
          let cap := min (cap + 1) u64Max
          let raw := sixbitDecode stream cap
          let bytes := rle90Expand raw cap
          if bytes = [] then ([], .ok b) else binhexForks bytes b

/-!
## BinHex codes

A code is written as characters of six bits, with line breaks anywhere, and
stands for its bytes by runs.  Both are read back as far as there is room; a code
that is cut inside a run shows one byte that may be wrong.
-/

/-! ## Characters -/

/-- The sextets of a code; a last group of one or two bytes is padded with zero
bits to a whole sextet. -/
def codeSextets : Bytes → List Nat
  | [] => []
  | [a] => (sextets a 0 0).take 2
  | [a, b] => (sextets a b 0).take 3
  | a :: b :: c :: data => sextets a b c ++ codeSextets data

/-- The character for six bits. -/
def binhexChar (v : Nat) : UInt8 := byteAt binhexAlphabet v

def isLineBreak (c : UInt8) : Bool := c == 0x0A || c == 0x0D

theorem decodeTable_binhexChar : ∀ v < 64,
    decodeTable (binhexChar v) = UInt8.ofNat v := by
  decide

theorem decodeTable_lineBreak {c : UInt8} (ends : isLineBreak c = true) :
    decodeTable c = 0xFF := by
  rcases Bool.or_eq_true_iff.mp ends with feed | ret
  · rw [eq_of_beq feed]
    decide
  · rw [eq_of_beq ret]
    decide

theorem sixbitFrom_filter (cap : Nat) (stream : Bytes) (acc : UInt32)
    (nbits : Nat) (out : Bytes) :
    sixbitFrom cap stream acc nbits out =
      sixbitFrom cap (stream.filter fun c => !isLineBreak c) acc nbits out := by
  induction stream generalizing acc nbits out with
  | nil => rfl
  | cons c stream ih =>
      by_cases ends : isLineBreak c = true
      · rw [List.filter_cons_of_neg (by rw [ends]; decide), ← ih, sixbitFrom]
        dsimp only
        rw [if_pos (decodeTable_lineBreak ends)]
      · rw [List.filter_cons_of_pos (by simpa using ends), sixbitFrom,
          sixbitFrom]
        simp only [ih]

/-- The bits that are read and not yet given. -/
def Pending (acc : UInt32) (nbits p : Nat) : Prop :=
  acc.toNat % 2 ^ nbits = p

theorem toNat_shifted (acc : UInt32) {v : Nat} (small : v < 64) :
    (acc <<< 6 ||| (UInt8.ofNat v).toUInt32).toNat =
      (acc.toNat * 64 + v) % 2 ^ 32 := by
  have low : v % 2 ^ 8 = v % 2 ^ 32 := by omega
  have six : (6 : UInt32).toNat % 32 = 6 := rfl
  have low_bits : v < 2 ^ 6 := small
  have shifted : acc.toNat * 64 + v = acc.toNat <<< 6 ||| v := by
    rw [← Nat.shiftLeft_add_eq_or_of_lt low_bits, Nat.shiftLeft_eq]
  rw [UInt32.toNat_or, UInt32.toNat_shiftLeft, UInt8.toNat_toUInt32,
    UInt8.toNat_ofNat', six, low, ← Nat.or_mod_two_pow, shifted]

theorem Pending.shifted {acc : UInt32} {nbits p v : Nat}
    (pending : Pending acc nbits p) (few : nbits ≤ 6) (small : v < 64) :
    Pending (acc <<< 6 ||| (UInt8.ofNat v).toUInt32) (nbits + 6)
      (p * 64 + v) := by
  have six : 2 ^ (nbits + 6) = 2 ^ nbits * 64 := Nat.pow_add 2 nbits 6
  have inside : 2 ^ (nbits + 6) ∣ 2 ^ 32 := Nat.pow_dvd_pow 2 (by omega)
  have parts := Nat.div_add_mod acc.toNat (2 ^ nbits)
  have least : p < 2 ^ nbits := pending ▸ Nat.mod_lt _ (Nat.two_pow_pos nbits)
  rw [pending] at parts
  have whole : acc.toNat * 64 + v =
      p * 64 + v + 2 ^ nbits * 64 * (acc.toNat / 2 ^ nbits) := by
    rw [Nat.mul_right_comm]
    omega
  rw [Pending, toNat_shifted acc small, Nat.mod_mod_of_dvd _ inside, six, whole,
    Nat.add_mul_mod_self_left, Nat.mod_eq_of_lt (by omega)]

theorem ofNat_ne_invalid {v : Nat} (small : v < 64) : UInt8.ofNat v ≠ 0xFF := by
  intro same
  have value := congrArg UInt8.toNat same
  rw [UInt8.toNat_ofNat'] at value
  have last : (0xFF : UInt8).toNat = 255 := rfl
  omega

theorem sixbitFrom_wait {cap v : Nat} (small : v < 64) (stream : Bytes)
    (acc : UInt32) (out : Bytes) : ∃ acc', Pending acc' 6 v ∧
      sixbitFrom cap (binhexChar v :: stream) acc 0 out =
        sixbitFrom cap stream acc' 6 out := by
  have start : Pending acc 0 0 := Nat.mod_one _
  have pending := start.shifted (Nat.zero_le 6) small
  have all : 0 * 64 + v = v := by omega
  rw [all] at pending
  refine ⟨_, pending, ?_⟩
  rw [sixbitFrom]
  dsimp only
  rw [decodeTable_binhexChar v small, if_neg (ofNat_ne_invalid small),
    if_pos (by decide)]

theorem eq_take_of_full {cap : Nat} {out : Bytes} {b : UInt8}
    (room : out.length < cap) (full : cap ≤ (out ++ [b]).length)
    (rest : Bytes) : out ++ [b] = (out ++ b :: rest).take cap := by
  have length : cap = (out ++ [b]).length := by
    rw [List.length_append, List.length_singleton] at full ⊢
    omega
  have split : out ++ b :: rest = out ++ [b] ++ rest := by
    rw [List.append_assoc, List.singleton_append]
  rw [split, length, List.take_left]

theorem sixbitFrom_push {cap nbits p v : Nat} {acc : UInt32} {b : UInt8}
    {stream out rest : Bytes} (room : out.length < cap)
    (pending : Pending acc (nbits + 2) p) (few : nbits ≤ 4) (small : v < 64)
    (byte : (p * 64 + v) / 2 ^ nbits = b.toNat)
    (more : ∀ acc', Pending acc' nbits ((p * 64 + v) % 2 ^ nbits) →
      (out ++ [b]).length < cap →
      sixbitFrom cap stream acc' nbits (out ++ [b]) =
        (out ++ [b] ++ rest).take cap) :
    sixbitFrom cap (binhexChar v :: stream) acc (nbits + 2) out =
      (out ++ b :: rest).take cap := by
  have shifted := pending.shifted (by omega) small
  have left : nbits + 2 + 6 - 8 = nbits := by omega
  have octet : 2 ^ (nbits + 2 + 6) = 2 ^ nbits * 2 ^ 8 := Nat.pow_add 2 nbits 8
  have given : ((acc <<< 6 ||| (UInt8.ofNat v).toUInt32) >>>
      UInt32.ofNat nbits).toUInt8 = b := by
    have amount : (UInt32.ofNat nbits).toNat % 32 = nbits := by
      rw [UInt32.toNat_ofNat']
      omega
    apply UInt8.toNat_inj.mp
    rw [UInt32.toNat_toUInt8, UInt32.toNat_shiftRight, amount,
      Nat.shiftRight_eq_div_pow, ← Nat.mod_mul_right_div_self, ← octet, shifted,
      byte]
  have pending' : Pending (acc <<< 6 ||| (UInt8.ofNat v).toUInt32) nbits
      ((p * 64 + v) % 2 ^ nbits) := by
    rw [← shifted, Pending, octet, Nat.mod_mul_right_mod]
  rw [sixbitFrom]
  dsimp only
  rw [decodeTable_binhexChar v small, if_neg (ofNat_ne_invalid small),
    if_neg (by omega), left, given]
  split
  · rename_i full
    exact eq_take_of_full room full rest
  · rename_i more_room
    rw [more _ pending' (Nat.not_le.mp more_room), List.append_assoc,
      List.singleton_append]

section

variable {cap : Nat} {stream out rest : Bytes}

/-- The first byte of a group comes of its first two characters. -/
theorem sixbitFrom_first (room : out.length < cap) (acc : UInt32)
    (a b : UInt8)
    (more : ∀ acc', Pending acc' 4 (b.toNat / 16) → (out ++ [a]).length < cap →
      sixbitFrom cap stream acc' 4 (out ++ [a]) =
        (out ++ [a] ++ rest).take cap) :
    sixbitFrom cap (binhexChar (a.toNat / 4) ::
        binhexChar (a.toNat % 4 * 16 + b.toNat / 16) :: stream) acc 0 out =
      (out ++ a :: rest).take cap := by
  have a_small : a.toNat < 256 := a.toNat_lt
  have b_small : b.toNat < 256 := b.toNat_lt
  obtain ⟨acc, pending, first⟩ := @sixbitFrom_wait cap (a.toNat / 4)
    (by omega) (binhexChar (a.toNat % 4 * 16 + b.toNat / 16) :: stream) acc out
  have left : (a.toNat / 4 * 64 + (a.toNat % 4 * 16 + b.toNat / 16)) % 2 ^ 4 =
      b.toNat / 16 := by omega
  refine first.trans (sixbitFrom_push room pending (Nat.le_refl 4) (by omega)
    (by omega) ?_)
  rw [left]
  exact more

theorem sixbitFrom_second (room : out.length < cap) {acc : UInt32}
    (b c : UInt8) (pending : Pending acc 4 (b.toNat / 16))
    (more : ∀ acc', Pending acc' 2 (c.toNat / 64) → (out ++ [b]).length < cap →
      sixbitFrom cap stream acc' 2 (out ++ [b]) =
        (out ++ [b] ++ rest).take cap) :
    sixbitFrom cap (binhexChar (b.toNat % 16 * 4 + c.toNat / 64) :: stream)
        acc 4 out =
      (out ++ b :: rest).take cap := by
  have b_small : b.toNat < 256 := b.toNat_lt
  have c_small : c.toNat < 256 := c.toNat_lt
  have left : (b.toNat / 16 * 64 + (b.toNat % 16 * 4 + c.toNat / 64)) % 2 ^ 2 =
      c.toNat / 64 := by omega
  refine sixbitFrom_push room pending (by omega) (by omega) (by omega) ?_
  rw [left]
  exact more

theorem sixbitFrom_third (room : out.length < cap) {acc : UInt32}
    (c : UInt8) (pending : Pending acc 2 (c.toNat / 64))
    (more : ∀ acc', (out ++ [c]).length < cap →
      sixbitFrom cap stream acc' 0 (out ++ [c]) =
        (out ++ [c] ++ rest).take cap) :
    sixbitFrom cap (binhexChar (c.toNat % 64) :: stream) acc 2 out =
      (out ++ c :: rest).take cap := by
  have c_small : c.toNat < 256 := c.toNat_lt
  exact sixbitFrom_push room pending (Nat.zero_le 4) (by omega) (by omega)
    fun acc' _ => more acc'

theorem sixbitFrom_nil (room : out.length < cap) (acc : UInt32) (nbits : Nat) :
    sixbitFrom cap [] acc nbits out = (out ++ []).take cap := by
  rw [List.append_nil, List.take_of_length_le (Nat.le_of_lt room)]
  rfl

theorem sixbitFrom_chars (code : Bytes) (acc : UInt32)
    (room : out.length < cap) :
    sixbitFrom cap ((codeSextets code).map binhexChar) acc 0 out =
      (out ++ code).take cap := by
  induction code using codeSextets.induct generalizing acc out with
  | case1 => exact sixbitFrom_nil room acc 0
  | case2 a =>
      exact sixbitFrom_first room acc a 0 fun acc _ room =>
        sixbitFrom_nil room acc 4
  | case3 a b =>
      exact sixbitFrom_first room acc a b fun acc pending room =>
        sixbitFrom_second room b 0 pending fun acc _ room =>
          sixbitFrom_nil room acc 2
  | case4 a b c data ih =>
      exact sixbitFrom_first room acc a b fun acc pending room =>
        sixbitFrom_second room b c pending fun acc pending room =>
          sixbitFrom_third room c pending fun acc room => ih acc room

end

def Written (code stream : Bytes) : Prop :=
  (stream.filter fun c => !isLineBreak c) = (codeSextets code).map binhexChar

instance (code stream : Bytes) : Decidable (Written code stream) :=
  inferInstanceAs (Decidable (_ = _))

theorem Written.sixbitDecode {code stream : Bytes} (written : Written code stream)
    {cap : Nat} (room : 0 < cap) :
    sixbitDecode stream cap = code.take cap := by
  rw [Unpack.sixbitDecode, sixbitFrom_filter, written,
    sixbitFrom_chars code 0 room, List.nil_append]

/-! ## Runs -/

/-- What a code stands for, after what is there before it. -/
inductive Rle : Bytes → Bytes → Bytes → Prop where
  | nil (out : Bytes) : Rle out [] out
  | byte {b : UInt8} {out code whole : Bytes} (plain : b ≠ rleMarker)
      (more : Rle (out ++ [b]) code whole) : Rle out (b :: code) whole
  | marker {out code whole : Bytes} (more : Rle (out ++ [rleMarker]) code whole) :
      Rle out (rleMarker :: 0 :: code) whole
  | run {last count : UInt8} {out code whole : Bytes}
      (after : out.getLast? = some last) (some_of_it : count ≠ 0)
      (more : Rle (out ++ List.replicate (count.toNat - 1) last) code whole) :
      Rle out (rleMarker :: count :: code) whole

/-- What a code that may end inside a run shows: a marker without its count
stands for itself. -/
def Shows (out code shown : Bytes) : Prop :=
  Rle out code shown ∨ ∃ start whole, code = start ++ [rleMarker] ∧
    Rle out start whole ∧ shown = whole ++ [rleMarker]

theorem Shows.cons {out out' token code shown : Bytes}
    (first : ∀ code whole, Rle out' code whole → Rle out (token ++ code) whole)
    (shows : Shows out' code shown) : Shows out (token ++ code) shown := by
  rcases shows with rle | ⟨start, whole, rfl, rle, rfl⟩
  · exact .inl (first _ _ rle)
  · exact .inr ⟨token ++ start, whole, (List.append_assoc _ _ _).symm,
      first _ _ rle, rfl⟩

theorem Rle.starts {out code whole : Bytes} (rle : Rle out code whole) :
    out <+: whole := by
  induction rle with
  | nil out => exact List.prefix_rfl
  | byte _ _ ih => exact (List.prefix_append _ _).trans ih
  | marker _ ih => exact (List.prefix_append _ _).trans ih
  | run _ _ _ ih => exact (List.prefix_append _ _).trans ih

theorem rle_plain {code : Bytes} (plain : rleMarker ∉ code) (out : Bytes) :
    Rle out code (out ++ code) := by
  induction code generalizing out with
  | nil =>
      rw [List.append_nil]
      exact .nil out
  | cons b code ih =>
      have more := ih (fun member => plain (.tail _ member)) (out ++ [b])
      rw [List.append_assoc, List.singleton_append] at more
      exact .byte (fun same => plain (same ▸ .head _)) more

theorem Rle.cut {out code whole : Bytes} (rle : Rle out code whole) (n : Nat) :
    ∃ shown, Shows out (code.take n) shown ∧ shown.dropLast <+: whole := by
  have nothing : ∀ {out whole : Bytes}, out <+: whole →
      ∃ shown, Shows out [] shown ∧ shown.dropLast <+: whole :=
    fun starts => ⟨_, .inl (.nil _), (List.dropLast_prefix _).trans starts⟩
  have half : ∀ {out whole : Bytes}, out <+: whole →
      ∃ shown, Shows out [rleMarker] shown ∧ shown.dropLast <+: whole := by
    intro out whole starts
    refine ⟨out ++ [rleMarker], .inr ⟨[], out, rfl, .nil out, rfl⟩, ?_⟩
    rw [List.dropLast_concat]
    exact starts
  induction rle generalizing n with
  | nil out =>
      rw [List.take_nil]
      exact nothing List.prefix_rfl
  | @byte b out code whole plain more ih =>
      cases n with
      | zero => exact nothing (Rle.byte plain more).starts
      | succ n =>
          obtain ⟨shown, shows, near⟩ := ih n
          exact ⟨shown, @Shows.cons out _ [b] _ _ (fun _ _ => .byte plain) shows,
            near⟩
  | @marker out code whole more ih =>
      match n with
      | 0 => exact nothing more.marker.starts
      | 1 => exact half more.marker.starts
      | n + 2 =>
          obtain ⟨shown, shows, near⟩ := ih n
          exact ⟨shown, @Shows.cons out _ [rleMarker, 0] _ _ (fun _ _ => .marker)
            shows, near⟩
  | @run last count out code whole after some_of_it more ih =>
      match n with
      | 0 => exact nothing (more.run after some_of_it).starts
      | 1 => exact half (more.run after some_of_it).starts
      | n + 2 =>
          obtain ⟨shown, shows, near⟩ := ih n
          exact ⟨shown, @Shows.cons out _ [rleMarker, count] _ _
            (fun _ _ => .run after some_of_it) shows, near⟩

theorem Shows.ne_nil {code shown : Bytes} (shows : Shows [] code shown)
    (some_code : code ≠ []) : shown ≠ [] := by
  rcases shows with rle | ⟨start, whole, _, _, rfl⟩
  · cases rle with
    | nil => exact absurd rfl some_code
    | byte _ more =>
        exact List.ne_nil_of_mem (more.starts.subset (.head _))
    | marker more =>
        exact List.ne_nil_of_mem (more.starts.subset (.head _))
    | run after _ _ => cases after
  · exact List.append_ne_nil_of_right_ne_nil _ (List.cons_ne_nil _ _)

theorem pushRun_eq {cap : Nat} (last : UInt8) (more : Nat) {out : Bytes}
    (room : out.length < cap) :
    pushRun cap last more out =
      (out ++ List.replicate more last).take cap := by
  induction more generalizing out with
  | zero =>
      rw [List.replicate_zero, List.append_nil,
        List.take_of_length_le (Nat.le_of_lt room)]
      rfl
  | succ more ih =>
      rw [pushRun, List.replicate_succ]
      split
      · rename_i full
        exact eq_take_of_full room full _
      · rename_i more_room
        rw [ih (Nat.not_le.mp more_room), List.append_assoc,
          List.singleton_append]

theorem rle90_token {cap : Nat} {input full whole other : Bytes}
    (starts : full <+: whole)
    (more : full.length < cap → rle90From cap input full =
      if cap ≤ whole.length then whole.take cap else other) :
    (if cap ≤ (full.take cap).length then full.take cap
      else rle90From cap input (full.take cap)) =
      if cap ≤ whole.length then whole.take cap else other := by
  rw [List.length_take]
  by_cases room : full.length < cap
  · rw [if_neg (by omega), List.take_of_length_le (Nat.le_of_lt room)]
    exact more room
  · have longer := starts.length_le
    obtain ⟨others, rfl⟩ := starts
    rw [if_pos (by omega), if_pos (by omega),
      List.take_append_of_le_length (Nat.not_lt.mp room)]

theorem take_concat {cap : Nat} {out : Bytes} (room : out.length < cap)
    (b : UInt8) : (out ++ [b]).take cap = out ++ [b] := by
  apply List.take_of_length_le
  rw [List.length_append]
  exact room

theorem Rle.rle90From {out code whole : Bytes} (rle : Rle out code whole)
    {cap : Nat} (room : out.length < cap) (rest : Bytes) :
    rle90From cap (code ++ rest) out =
      if cap ≤ whole.length then whole.take cap
      else rle90From cap rest whole := by
  induction rle with
  | nil out =>
      rw [if_neg (Nat.not_le.mpr room), List.nil_append]
  | @byte b out code whole plain more ih =>
      have step : ∀ input, Unpack.rle90From cap (b :: input) out =
          if cap ≤ ((out ++ [b]).take cap).length then (out ++ [b]).take cap
          else Unpack.rle90From cap input ((out ++ [b]).take cap) := by
        intro input
        rw [take_concat room]
        cases input with
        | nil =>
            have one : Unpack.rle90From cap [b] out = out ++ [b] :=
              if_neg plain
            have none_left : Unpack.rle90From cap [] (out ++ [b]) =
                out ++ [b] := rfl
            rw [one, none_left, ite_self]
        | cons n input =>
            rw [Unpack.rle90From, if_neg plain]
      rw [List.cons_append, step]
      exact rle90_token more.starts ih
  | @marker out code whole more ih =>
      have added : markerAdds cap 0 out = (out ++ [rleMarker]).take cap := by
        rw [take_concat room]
        rfl
      rw [List.cons_append, List.cons_append, Unpack.rle90From, if_pos rfl,
        added]
      exact rle90_token more.starts ih
  | @run last count out code whole after some_of_it more ih =>
      have added : markerAdds cap count out =
          (out ++ List.replicate (count.toNat - 1) last).take cap := by
        rw [markerAdds, if_neg some_of_it, after]
        exact pushRun_eq last _ room
      rw [List.cons_append, List.cons_append, Unpack.rle90From, if_pos rfl,
        added]
      exact rle90_token more.starts ih

theorem Shows.rle90Expand {code shown : Bytes} (shows : Shows [] code shown)
    {cap : Nat} (room : 0 < cap) : rle90Expand code cap = shown.take cap := by
  rcases shows with rle | ⟨start, whole, rfl, rle, rfl⟩
  · have expanded := rle.rle90From room []
    rw [List.append_nil] at expanded
    rw [Unpack.rle90Expand, expanded]
    split
    · rfl
    · rename_i short
      rw [List.take_of_length_le (Nat.le_of_not_le short)]
      rfl
  · rw [Unpack.rle90Expand, rle.rle90From room]
    split
    · rename_i full
      rw [List.take_append_of_le_length full]
    · rename_i short
      rw [take_concat (Nat.not_le.mp short)]
      rfl

end Exav.Unpack
