import Exav.Unpack.Budget
import Exav.Lib.Marker

/-!
# Encoded scripts

A blob holds a script whose bytes are substituted by one of three columns of a
table, which column being told by the place of a byte, and a few of which are
written as escapes.  Blobs are found by the marker before them and end at the
terminator behind them.
-/

namespace Exav.Unpack.Screnc

open Exav.Source (memmem)

/-- `#@~^` -/
def marker : Bytes := [0x23, 0x40, 0x7E, 0x5E]

/-- `^#~@` -/
def terminator : Bytes := [0x5E, 0x23, 0x7E, 0x40]

/-- Bytes between the marker and the body: a length and `==`. -/
def headerExtra : Nat := 6 + 2

/-- Bytes between the body and the terminator: a checksum and `==`. -/
def footerLen : Nat := 6 + 2

/-- The column of the table by the place of a byte. -/
def combination : List Nat := [
  0, 1, 2, 0, 1, 2, 1, 2, 2, 1, 2, 1, 0, 2, 1, 2,
  0, 2, 1, 2, 0, 0, 1, 2, 2, 1, 0, 2, 1, 2, 2, 1,
  0, 0, 2, 1, 2, 1, 2, 0, 2, 0, 0, 1, 2, 0, 2, 1,
  0, 2, 1, 2, 0, 0, 1, 2, 2, 0, 0, 1, 2, 0, 2, 1]

/-- The three bytes of a script that a byte of a body stands for. -/
def decodeTable : List (List UInt8) := [
  [0x00, 0x00, 0x00], [0x00, 0x00, 0x00], [0x00, 0x00, 0x00], [0x00, 0x00, 0x00],
  [0x00, 0x00, 0x00], [0x00, 0x00, 0x00], [0x00, 0x00, 0x00], [0x00, 0x00, 0x00],
  [0x00, 0x00, 0x00], [0x57, 0x6e, 0x7b], [0x4a, 0x4c, 0x41], [0x0b, 0x0b, 0x0b],
  [0x0c, 0x0c, 0x0c], [0x4a, 0x4c, 0x41], [0x0e, 0x0e, 0x0e], [0x0f, 0x0f, 0x0f],
  [0x10, 0x10, 0x10], [0x11, 0x11, 0x11], [0x12, 0x12, 0x12], [0x13, 0x13, 0x13],
  [0x14, 0x14, 0x14], [0x15, 0x15, 0x15], [0x16, 0x16, 0x16], [0x17, 0x17, 0x17],
  [0x18, 0x18, 0x18], [0x19, 0x19, 0x19], [0x1a, 0x1a, 0x1a], [0x1b, 0x1b, 0x1b],
  [0x1c, 0x1c, 0x1c], [0x1d, 0x1d, 0x1d], [0x1e, 0x1e, 0x1e], [0x1f, 0x1f, 0x1f],
  [0x2e, 0x2d, 0x32], [0x47, 0x75, 0x30], [0x7a, 0x52, 0x21], [0x56, 0x60, 0x29],
  [0x42, 0x71, 0x5b], [0x6a, 0x5e, 0x38], [0x2f, 0x49, 0x33], [0x26, 0x5c, 0x3d],
  [0x49, 0x62, 0x58], [0x41, 0x7d, 0x3a], [0x34, 0x29, 0x35], [0x32, 0x36, 0x65],
  [0x5b, 0x20, 0x39], [0x76, 0x7c, 0x5c], [0x72, 0x7a, 0x56], [0x43, 0x7f, 0x73],
  [0x38, 0x6b, 0x66], [0x39, 0x63, 0x4e], [0x70, 0x33, 0x45], [0x45, 0x2b, 0x6b],
  [0x68, 0x68, 0x62], [0x71, 0x51, 0x59], [0x4f, 0x66, 0x78], [0x09, 0x76, 0x5e],
  [0x62, 0x31, 0x7d], [0x44, 0x64, 0x4a], [0x23, 0x54, 0x6d], [0x75, 0x43, 0x71],
  [0x4a, 0x4c, 0x41], [0x7e, 0x3a, 0x60], [0x4a, 0x4c, 0x41], [0x5e, 0x7e, 0x53],
  [0x40, 0x4c, 0x40], [0x77, 0x45, 0x42], [0x4a, 0x2c, 0x27], [0x61, 0x2a, 0x48],
  [0x5d, 0x74, 0x72], [0x22, 0x27, 0x75], [0x4b, 0x37, 0x31], [0x6f, 0x44, 0x37],
  [0x4e, 0x79, 0x4d], [0x3b, 0x59, 0x52], [0x4c, 0x2f, 0x22], [0x50, 0x6f, 0x54],
  [0x67, 0x26, 0x6a], [0x2a, 0x72, 0x47], [0x7d, 0x6a, 0x64], [0x74, 0x39, 0x2d],
  [0x54, 0x7b, 0x20], [0x2b, 0x3f, 0x7f], [0x2d, 0x38, 0x2e], [0x2c, 0x77, 0x4c],
  [0x30, 0x67, 0x5d], [0x6e, 0x53, 0x7e], [0x6b, 0x47, 0x6c], [0x66, 0x34, 0x6f],
  [0x35, 0x78, 0x79], [0x25, 0x5d, 0x74], [0x21, 0x30, 0x43], [0x64, 0x23, 0x26],
  [0x4d, 0x5a, 0x76], [0x52, 0x5b, 0x25], [0x63, 0x6c, 0x24], [0x3f, 0x48, 0x2b],
  [0x7b, 0x55, 0x28], [0x78, 0x70, 0x23], [0x29, 0x69, 0x41], [0x28, 0x2e, 0x34],
  [0x73, 0x4c, 0x09], [0x59, 0x21, 0x2a], [0x33, 0x24, 0x44], [0x7f, 0x4e, 0x3f],
  [0x6d, 0x50, 0x77], [0x55, 0x09, 0x3b], [0x53, 0x56, 0x55], [0x7c, 0x73, 0x69],
  [0x3a, 0x35, 0x61], [0x5f, 0x61, 0x63], [0x65, 0x4b, 0x50], [0x46, 0x58, 0x67],
  [0x58, 0x3b, 0x51], [0x31, 0x57, 0x49], [0x69, 0x22, 0x4f], [0x6c, 0x6d, 0x46],
  [0x5a, 0x4d, 0x68], [0x48, 0x25, 0x7c], [0x27, 0x28, 0x36], [0x5c, 0x46, 0x70],
  [0x3d, 0x4a, 0x6e], [0x24, 0x32, 0x7a], [0x79, 0x41, 0x2f], [0x37, 0x3d, 0x5f],
  [0x60, 0x5f, 0x4b], [0x51, 0x4f, 0x5a], [0x20, 0x42, 0x2c], [0x36, 0x65, 0x57]]

/-- The byte an escape stands for, by what follows the `@`. -/
def unescape (b : UInt8) : Option UInt8 :=
  if b = 0x26 then some 0x0A
  else if b = 0x23 then some 0x0D
  else if b = 0x2A then some 0x3E
  else if b = 0x21 then some 0x3C
  else if b = 0x24 then some 0x40
  else none

/-- A byte that is substituted: a tab, or one of 0x20..0x7F other than `<`, `>`
and `@`. -/
def decodable (ch : UInt8) : Bool :=
  (ch == 9 || ch > 31) && ch != 60 && ch != 62 && ch != 64

/-- The table's byte for `ch` in a column. -/
def substituted (combo : Nat) (ch : UInt8) : UInt8 :=
  (decodeTable[ch.toNat]?.getD [])[combo]?.getD 0

def combo (idx : Nat) : Nat :=
  combination[idx % 64]?.getD 0

/-- What a byte stands for at the place `idx`. -/
def plainOf (idx : Nat) (ch : UInt8) : UInt8 :=
  if ch < 128 ∧ decodable ch then substituted (combo idx) ch else ch

/-- The place behind a byte: only those below 128 are counted. -/
def nextIdx (idx : Nat) (ch : UInt8) : Nat :=
  if ch < 128 then idx + 1 else idx

/-- The bytes of a body from the place `idx` on. -/
def decodeFrom (idx : Nat) : Bytes → Bytes
  | [] => []
  | [b] => [plainOf idx b]
  | b :: c :: rest =>
      match if b = 0x40 then unescape c else none with
      | some ch => plainOf idx ch :: decodeFrom (nextIdx idx ch) rest
      | none => plainOf idx b :: decodeFrom (nextIdx idx b) (c :: rest)

def decodeBody (body : Bytes) : Bytes :=
  decodeFrom 0 body

def overBudget : LimitHit :=
  .new "screnc decoded output exceeds budget"

/-- The members from `searchFrom` on.  A blob that is broken or empty is passed
over by its marker. -/
def extractFrom (data : Bytes) : (rounds searchFrom : Nat) → Budget →
    List Entry × Except LimitHit Budget
  | 0, _, b => ([], .ok b)
  | rounds + 1, searchFrom, b =>
      match memmem (data.drop searchFrom) marker with
      | none => ([], .ok b)
      | some rel =>
          let markerPos := searchFrom + rel
          let searchFrom := markerPos + marker.length
          let bodyStart := markerPos + marker.length + headerExtra
          if bodyStart ≥ data.length then extractFrom data rounds searchFrom b
          else
            match memmem (data.drop bodyStart) terminator with
            | none => extractFrom data rounds searchFrom b
            | some termRel =>
                let termPos := bodyStart + termRel
                if termPos < bodyStart + footerLen then
                  extractFrom data rounds searchFrom b
                else
                  let body := window data bodyStart
                    (termPos - footerLen - bodyStart)
                  if body.isEmpty then extractFrom data rounds searchFrom b
                  else
                    let decoded := decodeBody body
                    if decoded.isEmpty then extractFrom data rounds searchFrom b
                    else
                      emitThen overBudget (.new "screnc-decoded" decoded) b
                        (extractFrom data rounds
                          (termPos + terminator.length))

/-- The members of all blobs.  Each takes its marker at least. -/
def extractScrenc (data : Bytes) (b : Budget) :
    List Entry × Except LimitHit Budget :=
  extractFrom data (data.length + 1) 0 b

/-!
## Encoded scripts read back

A script is encoded byte by byte, and what it is encoded to is decoded to it at
every place.  An encoded script ends at the first terminator as long as it does
not hold one itself, so blobs in a row come out one by one.
-/

/-! ## The encoder -/

/-- What follows the `@` of a byte that is written as an escape. -/
def escapeOf (c : UInt8) : Option UInt8 :=
  if c = 0x0A then some 0x26
  else if c = 0x0D then some 0x23
  else if c = 0x3E then some 0x2A
  else if c = 0x3C then some 0x21
  else if c = 0x40 then some 0x24
  else none

/-- The byte that stands for `c` in a column of the table. -/
def substitute (combo : Nat) (c : UInt8) : UInt8 :=
  (((List.range 128).map UInt8.ofNat).find? fun e =>
    decodable e && substituted combo e == c).getD 0

def encodeByte (idx : Nat) (c : UInt8) : Bytes :=
  match escapeOf c with
  | some e => [0x40, e]
  | none =>
      if c < 128 ∧ decodable c then [substitute (combo idx) c] else [c]

def encodeFrom (idx : Nat) : Bytes → Bytes
  | [] => []
  | c :: script => encodeByte idx c ++ encodeFrom (nextIdx idx c) script

def encode (script : Bytes) : Bytes :=
  encodeFrom 0 script

/-! ## Bytes read back -/

theorem combo_lt (idx : Nat) : combo idx < 3 := by
  have all : ∀ i < 64, combination[i]?.getD 0 < 3 := by decide
  exact all _ (Nat.mod_lt _ (by decide))

theorem substitute_spec {column : Nat} (three : column < 3) (c : UInt8) :
    c < 128 → decodable c = true → substitute column c < 128 ∧
      decodable (substitute column c) = true ∧
      substituted column (substitute column c) = c := by
  have all : ∀ column < 3, ∀ n : Fin 256, UInt8.ofNat n < 128 →
      decodable (UInt8.ofNat n) = true →
      substitute column (UInt8.ofNat n) < 128 ∧
        decodable (substitute column (UInt8.ofNat n)) = true ∧
        substituted column (substitute column (UInt8.ofNat n)) =
          UInt8.ofNat n := by
    intro column three
    match column, three with
    | 0, _ => decide +kernel
    | 1, _ => decide +kernel
    | 2, _ => decide +kernel
  revert c
  apply forall_byte
  exact all column three

theorem unescape_of_escapeOf {c e : UInt8} (escape : escapeOf c = some e) :
    unescape e = some c ∧ decodable c = false := by
  unfold escapeOf at escape
  split_ifs at escape with lf cr more less at_sign
  · subst lf
    cases escape
    exact ⟨rfl, rfl⟩
  · subst cr
    cases escape
    exact ⟨rfl, rfl⟩
  · subst more
    cases escape
    exact ⟨rfl, rfl⟩
  · subst less
    cases escape
    exact ⟨rfl, rfl⟩
  · subst at_sign
    cases escape
    exact ⟨rfl, rfl⟩

theorem ne_at_of_decodable {c : UInt8} (plain : decodable c = true) :
    c ≠ 0x40 := by
  rintro rfl
  cases plain

theorem ne_at_of_escapeOf {c : UInt8} (literal : escapeOf c = none) :
    c ≠ 0x40 := by
  rintro rfl
  cases literal

theorem decodeFrom_literal {b : UInt8} (literal : b ≠ 0x40) (idx : Nat)
    (rest : Bytes) : decodeFrom idx (b :: rest) =
      plainOf idx b :: decodeFrom (nextIdx idx b) rest := by
  cases rest with
  | nil => rfl
  | cons c rest => rw [decodeFrom, if_neg literal]

theorem decodeFrom_escape {c e : UInt8} (escape : unescape e = some c)
    (idx : Nat) (rest : Bytes) : decodeFrom idx (0x40 :: e :: rest) =
      plainOf idx c :: decodeFrom (nextIdx idx c) rest := by
  rw [decodeFrom, if_pos rfl, escape]

theorem decodeFrom_encodeByte (idx : Nat) (c : UInt8) (rest : Bytes) :
    decodeFrom idx (encodeByte idx c ++ rest) =
      c :: decodeFrom (nextIdx idx c) rest := by
  unfold encodeByte
  cases escape : escapeOf c with
  | some e =>
      obtain ⟨back, special⟩ := unescape_of_escapeOf escape
      have plain : plainOf idx c = c := by
        rw [plainOf, special, if_neg (by simp)]
      rw [List.cons_append, List.singleton_append, decodeFrom_escape back,
        plain]
  | none =>
      dsimp only
      by_cases known : c < 128 ∧ decodable c = true
      · obtain ⟨low, kept, back⟩ :=
          substitute_spec (combo_lt idx) c known.1 known.2
        have same : nextIdx idx (substitute (combo idx) c) = nextIdx idx c := by
          rw [nextIdx, nextIdx, if_pos low, if_pos known.1]
        rw [if_pos known, List.singleton_append,
          decodeFrom_literal (ne_at_of_decodable kept), same, plainOf,
          if_pos ⟨low, kept⟩, back]
      · rw [if_neg known, List.singleton_append,
          decodeFrom_literal (ne_at_of_escapeOf escape), plainOf, if_neg known]

theorem decodeFrom_encodeFrom (idx : Nat) (script : Bytes) :
    decodeFrom idx (encodeFrom idx script) = script := by
  induction script generalizing idx with
  | nil => rfl
  | cons c script ih => rw [encodeFrom, decodeFrom_encodeByte, ih]

theorem decodeBody_encode (script : Bytes) :
    decodeBody (encode script) = script :=
  decodeFrom_encodeFrom 0 script

theorem encode_ne_nil {script : Bytes} (filled : script ≠ []) :
    encode script ≠ [] := by
  intro none
  apply filled
  rw [← decodeBody_encode script, none]
  rfl

/-! ## Blobs -/

/-- A script in a blob.  The length and the checksum are six digits each, which
are not looked at. -/
structure Blob where
  length : Bytes
  script : Bytes
  checksum : Bytes

def isBase64 (c : UInt8) : Bool :=
  (65 ≤ c && c ≤ 90) || (97 ≤ c && c ≤ 122) || (48 ≤ c && c ≤ 57) ||
    c == 0x2B || c == 0x2F

namespace Blob

structure Formed (blob : Blob) : Prop where
  lengthSize : blob.length.length = 6
  lengthDigits : ∀ c ∈ blob.length, isBase64 c = true
  checksumSize : blob.checksum.length = 6
  checksumDigits : ∀ c ∈ blob.checksum, isBase64 c = true

def body (blob : Blob) : Bytes := encode blob.script

/-- What stands before the body, behind the marker. -/
def header (blob : Blob) : Bytes := blob.length ++ [0x3D, 0x3D]

/-- What stands behind the body, before the terminator. -/
def footer (blob : Blob) : Bytes := blob.checksum ++ [0x3D, 0x3D]

/-- A blob behind its marker. -/
def rest (blob : Blob) : Bytes :=
  blob.header ++ (blob.body ++ blob.footer ++ terminator)

def bytes (blob : Blob) : Bytes := marker ++ blob.rest

end Blob

def textOf (gap : Bytes) : List (Blob × Bytes) → Bytes
  | [] => gap
  | (blob, after) :: blobs => gap ++ (blob.bytes ++ textOf after blobs)

def OwnMarkers (gap : Bytes) : List (Blob × Bytes) → Prop
  | [] => Unmarked marker gap
  | (_, after) :: blobs => OnlyBehind marker gap ∧ OwnMarkers after blobs

theorem textOf_append (front gap : Bytes) (blobs : List (Blob × Bytes)) :
    textOf (front ++ gap) blobs = front ++ textOf gap blobs := by
  cases blobs with
  | nil => rfl
  | cons blob blobs => rw [textOf, textOf, List.append_assoc]

theorem OwnMarkers.append {front gap : Bytes} {blobs : List (Blob × Bytes)}
    (never : NeverStarts marker front) (own : OwnMarkers gap blobs) :
    OwnMarkers (front ++ gap) blobs := by
  cases blobs with
  | nil => exact never.unmarked own
  | cons blob blobs => exact ⟨never.onlyBehind own.1, own.2⟩

theorem not_base64 {c : UInt8} (digit : isBase64 c = true) :
    c ≠ 0x40 ∧ c ≠ 0x23 := by
  constructor
  · rintro rfl
    cases digit
  · rintro rfl
    cases digit

theorem infix_of_occursAt {text pat : Bytes} {q : Nat}
    (occurs : occursAt text pat q = true) : pat <:+: text := by
  rw [← beq_iff_eq.mp occurs]
  exact (List.take_prefix _ _).isInfix.trans (List.drop_suffix _ _).isInfix

namespace Blob

variable {blob : Blob}

theorem length_footer (formed : blob.Formed) : blob.footer.length = footerLen := by
  rw [footer, List.length_append, formed.checksumSize]
  rfl

theorem length_header (formed : blob.Formed) :
    blob.header.length = headerExtra := by
  rw [header, List.length_append, formed.lengthSize]
  rfl

/-- Behind the body the last byte of the terminator stands at its end only. -/
theorem footer_plain (formed : blob.Formed) :
    (0x40 : UInt8) ∉ blob.footer ++ [0x5E, 0x23, 0x7E] := by
  intro member
  rw [footer, List.append_assoc] at member
  rcases List.mem_append.mp member with digit | after
  · exact (not_base64 (formed.checksumDigits _ digit)).1 rfl
  · revert after
    decide

theorem onlyBehind_body (formed : blob.Formed)
    (apart : ¬ terminator <:+: blob.body) :
    OnlyBehind terminator (blob.body ++ blob.footer) := by
  intro q inside
  rw [Bool.eq_false_iff]
  intro occurs
  have size := length_footer formed
  rw [List.length_append, size] at inside
  by_cases within : q + terminator.length ≤ blob.body.length
  · rw [List.append_assoc, occursAt_append_left within] at occurs
    exact apart (infix_of_occursAt occurs)
  · have behind : blob.body.length ≤ q + 3 := by
      change ¬ q + 4 ≤ _ at within
      omega
    obtain ⟨r, place⟩ := Nat.exists_eq_add_of_le behind
    have short : r < (blob.footer ++ [0x5E, 0x23, 0x7E]).length := by
      rw [List.length_append, size]
      change _ < footerLen + 3
      omega
    have last := occursAt_iff_getElem?.mp occurs 3 (by decide)
    have split : blob.body ++ blob.footer ++ terminator =
        blob.body ++ ((blob.footer ++ [0x5E, 0x23, 0x7E]) ++ [0x40]) := by
      rw [List.append_assoc, List.append_assoc]
      rfl
    rw [split, place, List.getElem?_append_right (Nat.le_add_right _ _),
      Nat.add_sub_cancel_left, List.getElem?_append_left short] at last
    exact footer_plain formed (List.mem_of_getElem? last)

theorem neverStarts_rest (formed : blob.Formed) (empty : blob.script = []) :
    NeverStarts marker blob.rest := by
  have front : (0x23 : UInt8) ∉ blob.header ++ (blob.footer ++ [0x5E]) := by
    intro member
    rw [header, footer, List.append_assoc, List.append_assoc] at member
    rcases List.mem_append.mp member with digit | member
    · exact (not_base64 (formed.lengthDigits _ digit)).2 rfl
    rcases List.mem_append.mp member with sign | member
    · revert sign
      decide
    rcases List.mem_append.mp member with digit | sign
    · exact (not_base64 (formed.checksumDigits _ digit)).2 rfl
    · revert sign
      decide
  have back : NeverStarts marker [0x23, 0x7E, 0x40] := by
    intro rest q inside
    match q, inside with
    | 0, _ => rfl
    | 1, _ => rfl
    | 2, _ => rfl
  have split : blob.rest =
      (blob.header ++ (blob.footer ++ [0x5E])) ++ [0x23, 0x7E, 0x40] := by
    have none : blob.body = [] := by rw [body, empty]; rfl
    rw [rest, none, List.nil_append, List.append_assoc, List.append_assoc]
    rfl
  rw [split]
  exact (neverStarts_of_not_mem front).append back

end Blob

/-! ## Blobs in a row -/

def membersOfBlobs (blobs : List (Blob × Bytes)) : List Entry :=
  ((blobs.map fun blob => blob.1.script).filter (· ≠ [])).map
    (.new "screnc-decoded")

theorem drop_of_drop {data front back : Bytes} {place : Nat}
    (standing : data.drop place = front ++ back) :
    data.drop (place + front.length) = back := by
  rw [← List.drop_drop, standing, List.drop_left]

theorem length_of_drop {data back : Bytes} {place : Nat}
    (standing : data.drop place = back) (filled : back ≠ []) :
    data.length = place + back.length := by
  have positive := List.length_pos_iff.mpr filled
  have size := congrArg List.length standing
  rw [List.length_drop] at size
  omega

theorem extractFrom_blob {data gap more : Bytes} {blob : Blob} {searchFrom : Nat}
    (standing : data.drop searchFrom = gap ++ (blob.bytes ++ more))
    (only : OnlyBehind marker gap) (shape : blob.Formed)
    (apart : ¬ terminator <:+: blob.body) (rounds : Nat) (b : Budget) :
    extractFrom data (rounds + 1) searchFrom b =
      if blob.script = [] then
        extractFrom data rounds (searchFrom + gap.length + marker.length) b
      else
        emitThen overBudget (.new "screnc-decoded" blob.script) b
          (extractFrom data rounds
            (searchFrom + gap.length + blob.bytes.length)) := by
  have found : memmem (data.drop searchFrom) marker = some gap.length := by
    rw [standing, Blob.bytes, List.append_assoc]
    exact only.memmem (by decide) _
  have behind : data.drop (searchFrom + gap.length + marker.length +
      headerExtra) = (blob.body ++ blob.footer) ++ (terminator ++ more) := by
    rw [← Blob.length_header shape]
    apply drop_of_drop
    apply drop_of_drop
    rw [drop_of_drop standing, Blob.bytes, Blob.rest]
    simp only [List.append_assoc]
  have inside := length_of_drop behind (by simp [terminator])
  rw [List.length_append, List.length_append, List.length_append] at inside
  have size := Blob.length_footer shape
  have terminated : memmem (data.drop (searchFrom + gap.length +
      marker.length + headerExtra)) terminator =
        some (blob.body.length + footerLen) := by
    rw [behind, (Blob.onlyBehind_body shape apart).memmem (by decide),
      List.length_append, size]
  have held : window data (searchFrom + gap.length + marker.length +
      headerExtra) blob.body.length = blob.body := by
    rw [window, behind, List.append_assoc, List.take_left]
  have room : ¬ searchFrom + gap.length + marker.length + headerExtra ≥
      data.length := by
    change _ = _ + (_ + (4 + _)) at inside
    omega
  have long : ∀ start, ¬ start + (blob.body.length + footerLen) <
      start + footerLen := by
    intro start
    omega
  have span : ∀ start, start + (blob.body.length + footerLen) - footerLen -
      start = blob.body.length := by
    intro start
    omega
  rw [extractFrom, found]
  dsimp only
  rw [if_neg room, terminated]
  dsimp only
  rw [if_neg (long _), span, held]
  by_cases empty : blob.script = []
  · have none : blob.body = [] := by rw [Blob.body, empty]; rfl
    rw [if_pos empty, none, List.isEmpty_nil, if_pos rfl]
  · have some : blob.body.isEmpty = false :=
      List.isEmpty_eq_false_iff.mpr (encode_ne_nil empty)
    have decoded : decodeBody blob.body = blob.script :=
      decodeBody_encode blob.script
    have filled : blob.script.isEmpty = false :=
      List.isEmpty_eq_false_iff.mpr empty
    have stop : searchFrom + gap.length + marker.length + headerExtra +
        (blob.body.length + footerLen) + terminator.length =
          searchFrom + gap.length + blob.bytes.length := by
      rw [Blob.bytes, Blob.rest, List.length_append, List.length_append,
        List.length_append, List.length_append, size,
        Blob.length_header shape]
      omega
    rw [if_neg empty, some, if_neg Bool.false_ne_true, decoded, filled,
      if_neg Bool.false_ne_true, stop]

theorem extractFrom_textOf {data gap : Bytes} {blobs : List (Blob × Bytes)}
    {rounds searchFrom : Nat} (standing : data.drop searchFrom = textOf gap blobs)
    (own : OwnMarkers gap blobs)
    (formed : ∀ blob ∈ blobs, blob.1.Formed ∧ ¬ terminator <:+: blob.1.body)
    (enough : data.length < searchFrom + rounds) (b : Budget) :
    extractFrom data rounds searchFrom b =
      emitEach overBudget (membersOfBlobs blobs) b := by
  induction blobs generalizing gap rounds searchFrom b with
  | nil =>
      cases rounds with
      | zero => rfl
      | succ rounds =>
          rw [extractFrom, standing, textOf, Unmarked.memmem own]
          rfl
  | cons pair blobs ih =>
      obtain ⟨blob, after⟩ := pair
      rw [List.forall_mem_cons] at formed
      obtain ⟨⟨shape, apart⟩, others⟩ := formed
      have filled : textOf gap ((blob, after) :: blobs) ≠ [] := by
        simp [textOf, Blob.bytes, marker]
      have size := length_of_drop standing filled
      have positive := List.length_pos_iff.mpr filled
      obtain ⟨rounds, rfl⟩ : ∃ r, rounds = r + 1 :=
        Nat.exists_eq_succ_of_ne_zero (by omega)
      rw [extractFrom_blob standing own.1 shape apart]
      have next := drop_of_drop (drop_of_drop standing)
      by_cases empty : blob.script = []
      · have never := Blob.neverStarts_rest shape empty
        have same : membersOfBlobs ((blob, after) :: blobs) =
            membersOfBlobs blobs := by
          simp [membersOfBlobs, empty]
        rw [if_pos empty, same]
        refine ih ?_ (own.2.append never) others ?_ b
        · rw [textOf_append]
          apply drop_of_drop
          rw [drop_of_drop standing, Blob.bytes, List.append_assoc]
        · change _ < searchFrom + gap.length + 4 + rounds
          omega
      · have same : membersOfBlobs ((blob, after) :: blobs) =
            .new "screnc-decoded" blob.script :: membersOfBlobs blobs := by
          simp [membersOfBlobs, empty]
        rw [if_neg empty, same, emitEach]
        congr 1
        funext left
        refine ih next own.2 others ?_ left
        have positive : 1 ≤ blob.bytes.length := by
          simp [Blob.bytes, marker]
        omega

/-- Of scripts that do not hold a terminator once encoded, every one that is not
empty comes out whole, in order, as far as the budget goes. -/
theorem extractScrenc_blobs {gap : Bytes} {blobs : List (Blob × Bytes)}
    (own : OwnMarkers gap blobs)
    (formed : ∀ blob ∈ blobs, blob.1.Formed ∧ ¬ terminator <:+: blob.1.body)
    (b : Budget) :
    let members := membersOfBlobs blobs
    let result := extractScrenc (textOf gap blobs) b
    result.1 <+: members ∧ (result.2.isOk → result.1 = members) ∧
      (b.Admits (members.map Entry.data) → result.2.isOk) := by
  have enough : (textOf gap blobs).length <
      0 + ((textOf gap blobs).length + 1) := by omega
  have run := extractFrom_textOf List.drop_zero own formed enough b
  dsimp only [extractScrenc]
  rw [run]
  refine ⟨emitEach_starts _ _ b, ?_, ?_⟩
  · intro ended
    cases result : (emitEach overBudget (membersOfBlobs blobs) b).2 with
    | error hit =>
        rw [result] at ended
        cases ended
    | ok left => exact emitEach_ok result
  · intro admits
    obtain ⟨left, whole⟩ := @emitEach_admits overBudget _ _ admits
    rw [whole]
    rfl

def zeroBlob (script : Bytes) : Blob :=
  ⟨List.replicate 6 65, script, List.replicate 6 65⟩

theorem zeroBlob_formed (script : Bytes) : (zeroBlob script).Formed where
  lengthSize := rfl
  lengthDigits := fun _ digit => by rw [List.eq_of_mem_replicate digit]; rfl
  checksumSize := rfl
  checksumDigits := fun _ digit => by rw [List.eq_of_mem_replicate digit]; rfl

def screncBudget : Budget := .new ⟨10, 100, 100⟩

/-- `Hi`, and a line feed behind the blob. -/
theorem extractScrenc_hi :
    extractScrenc (textOf [] [(zeroBlob [0x48, 0x69], [0x0A])]) screncBudget =
        ([.new "screnc-decoded" [0x48, 0x69]], .ok
          { screncBudget with files := 1, totalOut := 2 }) ∧
      (extractScrenc (textOf [] [(zeroBlob [0x48, 0x69], [0x0A])])
          screncBudget).1 <+:
        membersOfBlobs [(zeroBlob [0x48, 0x69], [0x0A])] := by
  have own : OwnMarkers [] [(zeroBlob [0x48, 0x69], [0x0A])] :=
    ⟨by decide, unmarked_of_forall_lt (by decide) (by decide)⟩
  have formed : ∀ blob ∈ [(zeroBlob [0x48, 0x69], ([0x0A] : Bytes))],
      blob.1.Formed ∧ ¬ terminator <:+: blob.1.body := by
    rw [List.forall_mem_singleton]
    exact ⟨zeroBlob_formed _, by decide⟩
  exact ⟨by decide, (extractScrenc_blobs own formed screncBudget).1⟩

/-- A blob of an empty script has no member. -/
theorem extractScrenc_emptyScript :
    (zeroBlob []).Formed ∧ OwnMarkers [] [(zeroBlob [], [])] ∧
      screncBudget.Admits [(zeroBlob []).script] ∧
      extractScrenc (textOf [] [(zeroBlob [], [])]) screncBudget =
        ([], .ok screncBudget) :=
  ⟨zeroBlob_formed [], ⟨by decide, unmarked_of_forall_lt (by decide) (by decide)⟩,
    ⟨_, 100, rfl, rfl, Nat.zero_le _, trivial⟩, by decide⟩

/-- A script that is encoded to a terminator and more is lost. -/
example : terminator <+: encode [0x63, 0x60, 0x2C, 0x0A] ∧
    extractScrenc (textOf [] [(zeroBlob [0x63, 0x60, 0x2C, 0x0A], [])])
      screncBudget = ([], .ok screncBudget) := by
  decide

end Exav.Unpack.Screnc
