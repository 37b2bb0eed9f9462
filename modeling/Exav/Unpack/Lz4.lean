import Exav.Bytes
import Exav.Lib.Decode
import Exav.Lib.Fields

/-!
# LZ4 frames

Frames stand one behind the other, each of blocks; a match of a block may reach
back into the blocks before.  The reader decodes a block at a time onto its
history, of which it keeps the last 64 KiB that it has handed out: an offset has
16 bits.
-/

set_option maxRecDepth 8192

namespace Exav.Unpack

open Exav.Fields

def frameMagic : Bytes := [0x04, 0x22, 0x4D, 0x18]

/-- The frame written before 1.5. -/
def legacyMagic : Bytes := [0x02, 0x21, 0x4C, 0x18]

def skippableMask : Bytes := [0x2A, 0x4D, 0x18]

/-- Legacy frames use a fixed 8 MiB block size. -/
def legacyBlock : Nat := 8 * 1024 * 1024

/-- Output kept for matches to reach back into. -/
def lz4History : Nat := 64 * 1024

/-- The largest block the reader takes in. -/
def maxBlockRead : Nat := 16 * 1024 * 1024

def literalLengthPast : String := "LZ4 literal length runs past the block"

def literalsPast : String := "LZ4 literals run past the block"

def overBudget : String := "LZ4 frame exceeds the size budget"

def offsetTruncated : String := "LZ4 match offset is truncated"

def matchBeforeStart : String :=
  "LZ4 match points before the start of the stream"

def matchLengthPast : String := "LZ4 match length runs past the block"

def headerTruncated : String := "LZ4 frame header is truncated"

def versionUnread : String := "LZ4 frame version is not one exav reads"

def externalDictionary : String := "LZ4 frame uses an external dictionary"

def blockTooLarge : String := "LZ4 block is larger than the format allows"

/-! ## Blocks -/

def extendLength : Bytes → Nat → Option (Nat × Bytes)
  | [], _ => none
  | b :: src, len =>
      if b = 255 then extendLength src (len + 255)
      else some (len + b.toNat, src)

def readLength (nibble : Nat) (src : Bytes) : Option (Nat × Bytes) :=
  if nibble = 15 then extendLength src 15 else some (nibble, src)

/-- Copy `len` bytes from `start` on, byte by byte: what is copied may reach
into the copy. -/
def copyMatch : (len start : Nat) → Bytes → Bytes
  | 0, _, out => out
  | len + 1, start, out => copyMatch len (start + 1) (out ++ [byteAt out start])

/-- What a sequence comes to: the block stops there, or goes on. -/
inductive Sequenced where
  | stop (result : Except String Unit) (out : Bytes)
  | next (src out : Bytes)

def matchPart (token : UInt8) (lo hi : UInt8) (src out : Bytes) (cap : Nat) :
    Sequenced :=
  let offset := lo.toNat + 256 * hi.toNat
  if offset = 0 ∨ out.length < offset then .stop (.error matchBeforeStart) out
  else
    match readLength (token.toNat % 16) src with
    | none => .stop (.error matchLengthPast) out
    | some (len, src) =>
        -- The stored length is biased by the least one.
        let len := len + 4
        if cap < out.length + len then .stop (.error overBudget) out
        else .next src (copyMatch len (out.length - offset) out)

/-- One sequence: literals, and a match unless the block ends there. -/
def sequence (token : UInt8) (src out : Bytes) (cap : Nat) : Sequenced :=
  match readLength (token.toNat / 16) src with
  | none => .stop (.error literalLengthPast) out
  | some (lit, src) =>
      if src.length < lit then .stop (.error literalsPast) out
      else if cap < out.length + lit then .stop (.error overBudget) out
      else
        let out := out ++ src.take lit
        match src.drop lit with
        | [] => .stop (.ok ()) out
        | [_] => .stop (.error offsetTruncated) out
        | lo :: hi :: src => matchPart token lo hi src out cap

def sequences : (rounds : Nat) → (src out : Bytes) → (cap : Nat) →
    Except String Unit × Bytes
  | 0, _, out, _ => (.ok (), out)
  | _ + 1, [], out, _ => (.ok (), out)
  | rounds + 1, token :: src, out, cap =>
      match sequence token src out cap with
      | .stop result out => (result, out)
      | .next src out => sequences rounds src out cap

/-- Decompress one block, appending to `out`; what a block that fails has
appended stays. -/
def block (src out : Bytes) (cap : Nat) : Except String Unit × Bytes :=
  sequences src.length src out cap

/-! ## Frames -/

/-- Where the blocks of a frame start, and whether each of them and the frame
carry a checksum. -/
def header (head : Bytes) : Except String (Nat × Bool × Bool) :=
  match head[4]? with
  | none => .error headerTruncated
  | some flg =>
      if flg &&& 0xC0 ≠ 0x40 then .error versionUnread
      else if flg &&& 0x01 ≠ 0 then .error externalDictionary
      else
        let contentSize := if flg &&& 0x08 ≠ 0 then 8 else 0
        let off := 6 + contentSize + 1
        if head.length < off then .error headerTruncated
        else .ok (off, flg &&& 0x10 ≠ 0, flg &&& 0x04 ≠ 0)

/-- Inside a frame: where its next block is, and how its blocks are laid
out. -/
structure Blocks where
  p : Nat
  legacy : Bool
  blockChecksum : Bool
  contentChecksum : Bool

/-- Where the frame being read starts, or the next one, and where in it. -/
structure Lz4Cursor where
  pos : Nat
  blocks : Option Blocks

inductive Look where
  | again (c : Lz4Cursor)
  | noneLeft
  | failed (reason : String)
  | block (b : Blocks) (stored : Bool) (n : Nat)

/-- Four bytes as a number, least significant first. -/
def leU32 (data : Bytes) (p : Nat) : Option Nat :=
  let w := window data p 4
  if w.length < 4 then none else some (ofLe w)

namespace Lz4Cursor

/-- Leave the frame, the next one starting at `p`; whether that makes
progress. -/
def endFrame (c : Lz4Cursor) (p : Nat) : Bool × Lz4Cursor :=
  if p ≤ c.pos then (false, { c with blocks := none })
  else (true, { pos := p, blocks := none })

def leave (c : Lz4Cursor) (p : Nat) : Look :=
  if (c.endFrame p).1 then .again (c.endFrame p).2 else .noneLeft

def lookFrame (c : Lz4Cursor) (src : Bytes) : Look :=
  if src.length < c.pos + 8 then .noneLeft
  else
    let head := window src c.pos 32
    if legacyMagic <+: head then
      .again { c with blocks := some {
        p := c.pos + 4, legacy := true
        blockChecksum := false, contentChecksum := false } }
    else if frameMagic <+: head then
      match header head with
      | .error reason => .failed reason
      | .ok (off, blockChecksum, contentChecksum) =>
          .again { c with blocks := some {
            p := c.pos + off, legacy := false
            blockChecksum, contentChecksum } }
    else if 8 ≤ head.length ∧ byteAt head 0 &&& 0xF0 = 0x50 ∧
        window head 1 3 = skippableMask then
      -- A skippable frame carries no compressed data of its own.
      .again { c with pos := c.pos + 8 + (leU32 head 4).getD 0 }
    else .noneLeft

def lookBlock (c : Lz4Cursor) (b : Blocks) (src : Bytes) : Look :=
  match leU32 src b.p with
  | none => c.leave b.p
  | some size =>
      if !b.legacy ∧ size = 0 then
        c.leave (b.p + 4 + if b.contentChecksum then 4 else 0)
      else
        let n := size % 2 ^ 31
        -- Cut short: those bytes are absent rather than hidden.
        if src.length < b.p + 4 + n then c.leave src.length
        else if maxBlockRead < n then .failed blockTooLarge
        else
          .block { b with p := b.p + 4 } (!b.legacy && decide (2 ^ 31 ≤ size)) n

/-- One round of the search for the next block. -/
def look (c : Lz4Cursor) (src : Bytes) : Look :=
  match c.blocks with
  | none => c.lookFrame src
  | some b => c.lookBlock b src

/-- Behind a block.  A legacy frame has no end mark: it ends where the next
frame's magic begins, or at the end of the file. -/
def behind (c : Lz4Cursor) (b : Blocks) (src : Bytes) : Lz4Cursor :=
  let next := window src b.p 4
  if src.length ≤ b.p ∨
      (b.legacy ∧ (legacyMagic <+: next ∨ frameMagic <+: next)) then
    (c.endFrame b.p).2
  else { c with blocks := some b }

end Lz4Cursor

/-! ## The reader -/

/-- The last of what has been handed out, then what has not yet. -/
structure Lz4Reader where
  src : Bytes
  cursor : Lz4Cursor
  history : Bytes
  handed : Nat
  done : Bool
  failed : Option String

def unpackBlock (stored : Bool) (body history : Bytes) :
    Except String Unit × Bytes :=
  let cap := history.length + legacyBlock
  if stored then
    if cap < history.length + body.length then (.error overBudget, history)
    else (.ok (), history ++ body)
  else block body history cap

namespace Lz4Reader

def decode (r : Lz4Reader) (b : Blocks) (stored : Bool) (n : Nat) :
    Except String Bool × Lz4Reader :=
  match unpackBlock stored (window r.src b.p n) r.history with
  | (.error reason, history) => (.error reason, { r with history })
  | (.ok (), history) =>
      let b := { b with p := b.p + n + if b.blockChecksum then 4 else 0 }
      (.ok true, { r with history, cursor := r.cursor.behind b r.src })

/-- Decode the next block onto the history, if one is left.  Every round but
the last goes on in the file. -/
def nextBlockFrom : (rounds : Nat) → Lz4Reader → Except String Bool × Lz4Reader
  | 0, r => (.ok false, r)
  | rounds + 1, r =>
      match r.cursor.look r.src with
      | .again cursor => nextBlockFrom rounds { r with cursor }
      | .noneLeft => (.ok false, r)
      | .failed reason => (.error reason, r)
      | .block b stored n => r.decode b stored n

def nextBlock (r : Lz4Reader) : Except String Bool × Lz4Reader :=
  r.nextBlockFrom (2 * r.src.length + 2)

/-- Drop the first `n` bytes of the history. -/
def forget (r : Lz4Reader) (n : Nat) : Lz4Reader :=
  { r with history := r.history.drop n, handed := r.handed - n }

/-- Keep only what a match can still reach. -/
def trim (r : Lz4Reader) : Lz4Reader := r.forget (r.handed - lz4History)

def readFrom : (rounds : Nat) → Lz4Reader → (size : Nat) →
    Except String Bytes × Lz4Reader
  | 0, r, _ => (.ok [], r)
  | rounds + 1, r, size =>
      if r.handed < r.history.length then
        let n := min (r.history.length - r.handed) size
        (.ok (window r.history r.handed n), { r with handed := r.handed + n })
      else
        match r.failed with
        | some reason => (.error reason, { r with failed := none, done := true })
        | none =>
            if r.done then (.ok [], r)
            else
              match r.trim.nextBlock with
              | (.ok true, r) => readFrom rounds r size
              | (.ok false, r) => readFrom rounds { r with done := true } size
              | (.error reason, r) =>
                  readFrom rounds { r with failed := some reason } size

/-- Up to `size` bytes.  A block may decode to nothing, but not without end. -/
def read (r : Lz4Reader) (size : Nat) : Except String Bytes × Lz4Reader :=
  r.readFrom (2 * r.src.length + 4) size

def new (src : Bytes) : Lz4Reader where
  src := src
  cursor := { pos := 0, blocks := none }
  history := []
  handed := 0
  done := false
  failed := none

end Lz4Reader

/-!
## Decoding onto one buffer

`Lz4Whole` decodes the frames of a file onto a buffer that is never trimmed.  A
block that decodes onto the end of a buffer decodes the same onto the buffer, as
long as that end is as long as an offset can be.
-/

open Exav.Decode Exav.Fields

/-! ## The end of a buffer -/

/-- A buffer ends with another that is all of it, or longer than any offset. -/
def EndsWith (out tail : Bytes) : Prop :=
  ∃ front, out = front ++ tail ∧ (front = [] ∨ lz4History ≤ tail.length)

namespace EndsWith

variable {out tail : Bytes}

theorem append (ends : EndsWith out tail) (more : Bytes) :
    EndsWith (out ++ more) (tail ++ more) := by
  obtain ⟨front, rfl, reach⟩ := ends
  refine ⟨front, List.append_assoc _ _ _, ?_⟩
  rcases reach with nothing | long
  · exact .inl nothing
  · right
    rw [List.length_append]
    exact Nat.le_trans long (Nat.le_add_right _ _)

theorem drop (ends : EndsWith out tail) {n : Nat}
    (few : n = 0 ∨ n + lz4History ≤ tail.length) :
    EndsWith out (tail.drop n) := by
  obtain ⟨front, rfl, reach⟩ := ends
  refine ⟨front ++ tail.take n, ?_, ?_⟩
  · rw [List.append_assoc, List.take_append_drop]
  · rcases few with rfl | few
    · rcases reach with rfl | long
      · exact .inl rfl
      · exact .inr long
    · right
      rw [List.length_drop]
      omega

theorem lt_offset_iff (ends : EndsWith out tail) {offset : Nat}
    (short : offset < lz4History) :
    out.length < offset ↔ tail.length < offset := by
  obtain ⟨front, rfl, reach⟩ := ends
  rw [List.length_append]
  rcases reach with rfl | long
  · rw [List.length_nil, Nat.zero_add]
  · omega

end EndsWith

/-! ## Blocks -/

theorem byteAt_append (front tail : Bytes) (i : Nat) :
    byteAt (front ++ tail) (front.length + i) = byteAt tail i := by
  rw [byteAt_eq, byteAt_eq, List.getElem?_append_right (Nat.le_add_right _ _),
    Nat.add_sub_cancel_left]

theorem copyMatch_append (front : Bytes) (len start : Nat) (tail : Bytes) :
    copyMatch len (front.length + start) (front ++ tail) =
      front ++ copyMatch len start tail := by
  induction len generalizing start tail with
  | zero => rfl
  | succ len ih =>
      rw [copyMatch, copyMatch, byteAt_append, List.append_assoc]
      exact ih (start + 1) _

theorem prefix_copyMatch (len start : Nat) (out : Bytes) :
    out <+: copyMatch len start out := by
  induction len generalizing start out with
  | zero => exact List.prefix_refl _
  | succ len ih =>
      exact (List.prefix_append out _).trans (ih (start + 1) _)

def Sequenced.behind (front : Bytes) : Sequenced → Sequenced
  | .stop result out => .stop result (front ++ out)
  | .next src out => .next src (front ++ out)

def Sequenced.Appends (out : Bytes) : Sequenced → Prop
  | .stop _ after => out <+: after
  | .next _ after => out <+: after

theorem matchPart_appends (token lo hi : UInt8) (src out : Bytes) (cap : Nat) :
    (matchPart token lo hi src out cap).Appends out := by
  unfold matchPart
  dsimp only
  split
  · exact List.prefix_refl _
  · split
    · exact List.prefix_refl _
    · split
      · exact List.prefix_refl _
      · exact prefix_copyMatch _ _ _

theorem Sequenced.Appends.trans {out more : Bytes} {made : Sequenced}
    (appends : made.Appends (out ++ more)) : made.Appends out := by
  cases made with
  | stop => exact (List.prefix_append _ _).trans appends
  | next => exact (List.prefix_append _ _).trans appends

theorem sequence_appends (token : UInt8) (src out : Bytes) (cap : Nat) :
    (sequence token src out cap).Appends out := by
  unfold sequence
  split
  · exact List.prefix_refl _
  · split
    · exact List.prefix_refl _
    · split
      · exact List.prefix_refl _
      · dsimp only
        split
        · exact List.prefix_append _ _
        · exact List.prefix_append _ _
        · exact (matchPart_appends _ _ _ _ _ _).trans

theorem sequences_prefix (rounds : Nat) (src out : Bytes) (cap : Nat) :
    out <+: (sequences rounds src out cap).2 := by
  induction rounds generalizing src out with
  | zero => exact List.prefix_refl _
  | succ rounds ih =>
      cases src with
      | nil => exact List.prefix_refl _
      | cons token src =>
          have more := sequence_appends token src out cap
          unfold sequences
          revert more
          cases sequence token src out cap with
          | stop result after => exact id
          | next src' after => exact fun starts =>
              List.IsPrefix.trans starts (ih src' after)

theorem toNat_offset_lt (lo hi : UInt8) :
    lo.toNat + 256 * hi.toNat < lz4History := by
  have low : lo.toNat < 256 := lo.toNat_lt
  have high : hi.toNat < 256 := hi.toNat_lt
  have size : lz4History = 256 * 256 := rfl
  omega

theorem matchPart_behind {front tail : Bytes}
    (reach : front = [] ∨ lz4History ≤ tail.length) (token lo hi : UInt8)
    (src : Bytes) (cap : Nat) :
    matchPart token lo hi src (front ++ tail) (front.length + cap) =
      (matchPart token lo hi src tail cap).behind front := by
  have short := toNat_offset_lt lo hi
  have ends : EndsWith (front ++ tail) tail := ⟨front, rfl, reach⟩
  have before : lo.toNat + 256 * hi.toNat = 0 ∨
      (front ++ tail).length < lo.toNat + 256 * hi.toNat ↔
      lo.toNat + 256 * hi.toNat = 0 ∨
        tail.length < lo.toNat + 256 * hi.toNat :=
    or_congr_right (ends.lt_offset_iff short)
  unfold matchPart
  dsimp only
  by_cases bad : lo.toNat + 256 * hi.toNat = 0 ∨
      tail.length < lo.toNat + 256 * hi.toNat
  · rw [if_pos (before.mpr bad), if_pos bad]
    rfl
  · rw [if_neg (mt before.mp bad), if_neg bad]
    cases readLength (token.toNat % 16) src with
    | none => rfl
    | some read =>
        obtain ⟨len, src⟩ := read
        have start : (front ++ tail).length - (lo.toNat + 256 * hi.toNat) =
            front.length + (tail.length - (lo.toNat + 256 * hi.toNat)) := by
          rw [List.length_append]
          omega
        have room : front.length + cap < (front ++ tail).length + (len + 4) ↔
            cap < tail.length + (len + 4) := by
          rw [List.length_append]
          omega
        dsimp only
        rw [start, copyMatch_append]
        by_cases over_ : cap < tail.length + (len + 4)
        · rw [if_pos (room.mpr over_), if_pos over_]
          rfl
        · rw [if_neg (mt room.mp over_), if_neg over_]
          rfl

theorem sequence_behind {front tail : Bytes}
    (reach : front = [] ∨ lz4History ≤ tail.length) (token : UInt8)
    (src : Bytes) (cap : Nat) :
    sequence token src (front ++ tail) (front.length + cap) =
      (sequence token src tail cap).behind front := by
  unfold sequence
  cases readLength (token.toNat / 16) src with
  | none => rfl
  | some read =>
      obtain ⟨lit, src⟩ := read
      have room : front.length + cap < (front ++ tail).length + lit ↔
          cap < tail.length + lit := by
        rw [List.length_append]
        omega
      dsimp only
      by_cases past : src.length < lit
      · rw [if_pos past, if_pos past]
        rfl
      · rw [if_neg past, if_neg past]
        by_cases over_ : cap < tail.length + lit
        · rw [if_pos (room.mpr over_), if_pos over_]
          rfl
        · have reach' : front = [] ∨
              lz4History ≤ (tail ++ src.take lit).length := by
            rcases reach with nothing | long
            · exact .inl nothing
            · right
              rw [List.length_append]
              omega
          rw [if_neg (mt room.mp over_), if_neg over_, List.append_assoc]
          rcases src.drop lit with _ | ⟨lo, _ | ⟨hi, src'⟩⟩
          · rfl
          · rfl
          · exact matchPart_behind reach' token lo hi src' cap

/-- A block does not see what is before the end of the buffer. -/
theorem sequences_behind (rounds : Nat) {front tail : Bytes}
    (reach : front = [] ∨ lz4History ≤ tail.length) (src : Bytes) (cap : Nat) :
    sequences rounds src (front ++ tail) (front.length + cap) =
      ((sequences rounds src tail cap).1,
        front ++ (sequences rounds src tail cap).2) := by
  induction rounds generalizing src tail with
  | zero => rfl
  | succ rounds ih =>
      cases src with
      | nil => rfl
      | cons token src =>
          have more := sequence_appends token src tail cap
          unfold sequences
          rw [sequence_behind reach]
          revert more
          cases sequence token src tail cap with
          | stop result after => exact fun _ => rfl
          | next src' after =>
              intro more
              apply ih
              rcases reach with nothing | long
              · exact .inl nothing
              · exact .inr (Nat.le_trans long more.length_le)

theorem unpackBlock_prefix (stored : Bool) (body history : Bytes) :
    history <+: (unpackBlock stored body history).2 := by
  unfold unpackBlock
  dsimp only
  split
  · split
    · exact List.prefix_refl _
    · exact List.prefix_append _ _
  · exact sequences_prefix _ _ _ _

theorem unpackBlock_endsWith {out tail : Bytes} (ends : EndsWith out tail)
    (stored : Bool) (body : Bytes) :
    ∃ more, unpackBlock stored body tail =
        ((unpackBlock stored body tail).1, tail ++ more) ∧
      unpackBlock stored body out =
        ((unpackBlock stored body tail).1, out ++ more) := by
  obtain ⟨more, appended⟩ := unpackBlock_prefix stored body tail
  refine ⟨more, Prod.ext rfl appended.symm, ?_⟩
  obtain ⟨front, rfl, reach⟩ := ends
  rw [List.append_assoc, appended]
  have cap : (front ++ tail).length + legacyBlock =
      front.length + (tail.length + legacyBlock) := by
    rw [List.length_append, Nat.add_assoc]
  unfold unpackBlock
  dsimp only
  rw [cap]
  cases stored with
  | false => exact sequences_behind _ reach _ _
  | true =>
      have room : front.length + (tail.length + legacyBlock) <
          (front ++ tail).length + body.length ↔
          tail.length + legacyBlock < tail.length + body.length := by
        rw [List.length_append]
        omega
      rw [if_pos rfl, if_pos rfl]
      by_cases over_ : tail.length + legacyBlock < tail.length + body.length
      · rw [if_pos (room.mpr over_), if_pos over_]
      · rw [if_neg (mt room.mp over_), if_neg over_, List.append_assoc]

/-! ## Frames one behind the other -/

/-- What a frame's magic announces. -/
inductive FrameKind where
  | legacy
  | framed
  | skippable
  deriving DecidableEq

def frameKind (magic : Nat) : Option FrameKind :=
  if magic = 0x184C2102 then some .legacy
  else if magic = 0x184D2204 then some .framed
  else if magic / 16 = 0x184D2A5 then some .skippable
  else none

/-- Where a decoder is: at a frame, or at a block, which may be the first of
its frame. -/
inductive Place where
  | frame (pos : Nat)
  | block (b : Blocks) (first : Bool)

/-- A decoder onto one buffer. -/
structure Lz4Whole where
  src : Bytes
  place : Place
  out : Bytes
  failing : Option String

namespace Lz4Whole

def start (src : Bytes) : Lz4Whole where
  src := src
  place := .frame 0
  out := []
  failing := none

/-- Go on elsewhere. -/
def goto (s : Lz4Whole) (place : Place) : Stepped String UInt8 × Lz4Whole :=
  (.emitted [], { s with place })

def stepFrame (s : Lz4Whole) (pos : Nat) : Stepped String UInt8 × Lz4Whole :=
  if s.src.length < pos + 8 then (.ended, s)
  else
    match (leU32 s.src pos).bind frameKind with
    | some .legacy => s.goto (.block ⟨pos + 4, true, false, false⟩ true)
    | some .framed =>
        match header (window s.src pos 32) with
        | .error reason => (.failed reason, s)
        | .ok (off, blockChecksum, contentChecksum) =>
            s.goto (.block
              ⟨pos + off, false, blockChecksum, contentChecksum⟩ true)
    | some .skippable =>
        s.goto (.frame (pos + 8 + (leU32 s.src (pos + 4)).getD 0))
    | none => (.ended, s)

/-- Decode a block of `n` bytes behind its size. -/
def unpack (s : Lz4Whole) (b : Blocks) (stored : Bool) (n : Nat) :
    Stepped String UInt8 × Lz4Whole :=
  let made := unpackBlock stored (window s.src (b.p + 4) n) s.out
  (.emitted (made.2.drop s.out.length), { s with
    out := made.2
    place := .block { b with
      p := b.p + 4 + n + if b.blockChecksum then 4 else 0 } false
    failing := match made.1 with
      | .error reason => some reason
      | .ok () => none })

/-- At a block: a legacy frame ends where a magic stands, another at its end
mark. -/
def stepBlock (s : Lz4Whole) (b : Blocks) : Stepped String UInt8 × Lz4Whole :=
  match leU32 s.src b.p with
  | none => (.ended, s)
  | some size =>
      if b.legacy ∧ (frameKind size).isSome then s.goto (.frame b.p)
      else if !b.legacy ∧ size = 0 then
        s.goto (.frame (b.p + 4 + if b.contentChecksum then 4 else 0))
      else
        let n := size % 2 ^ 31
        if s.src.length < b.p + 4 + n then (.ended, s)
        else if maxBlockRead < n then (.failed blockTooLarge, s)
        else s.unpack b (!b.legacy && decide (2 ^ 31 ≤ size)) n

def step (s : Lz4Whole) : Stepped String UInt8 × Lz4Whole :=
  match s.failing with
  | some reason => (.failed reason, s)
  | none =>
      match s.place with
      | .frame pos => s.stepFrame pos
      | .block b _ => s.stepBlock b

/-- A magic that stands in a legacy frame where the reader takes it for the size
of a block: ahead of its first block, or a skippable frame's.  It is given with
where it stands. -/
def missed (s : Lz4Whole) : Option (Nat × Nat) :=
  match s.failing, s.place with
  | none, .block b first =>
      (leU32 s.src b.p).bind fun size =>
        if b.legacy ∧ (frameKind size).isSome ∧
            (first ∨ frameKind size = some .skippable) then
          some (b.p, size)
        else none
  | _, _ => none

/-- What the reader makes of it: a block cut short, or too large. -/
def taken (s : Lz4Whole) (p size : Nat) : Except String Unit :=
  if s.src.length < p + 4 + size then .ok () else .error blockTooLarge

def stepToMissed (s : Lz4Whole) : Stepped String UInt8 × Lz4Whole :=
  if s.missed.isSome then (.ended, s) else s.step

/-- Behind the first magic missed, if there is one, nothing more is decoded. -/
def Calm (s : Lz4Whole) : Prop :=
  ∀ u, Reached stepToMissed s u → ∀ p size, u.missed = some (p, size) →
    Decodes step u [] (u.taken p size)

end Lz4Whole

/-! ## Magics -/

theorem leU32_some_iff {src : Bytes} {p size : Nat} :
    leU32 src p = some size ↔
      (window src p 4).length = 4 ∧ ofLe (window src p 4) = size := by
  have short : (window src p 4).length ≤ 4 := by
    rw [length_window]
    exact Nat.min_le_left _ _
  unfold leU32
  dsimp only
  split
  · rename_i few
    constructor
    · nofun
    · rintro ⟨all, -⟩
      omega
  · rename_i enough
    constructor
    · intro same
      exact ⟨by omega, Option.some.inj same⟩
    · rintro ⟨-, rfl⟩
      rfl

theorem leU32_inside {src : Bytes} {p : Nat} :
    (leU32 src p).isSome ↔ p + 4 ≤ src.length := by
  rw [Option.isSome_iff_exists]
  constructor
  · rintro ⟨size, read⟩
    have all := (leU32_some_iff.mp read).1
    rw [length_window] at all
    omega
  · intro inside
    exact ⟨_, leU32_some_iff.mpr ⟨length_window_of_le inside, rfl⟩⟩

theorem prefix_window_iff {magic src : Bytes} (four : magic.length = 4)
    (p : Nat) {k : Nat} (wide : 4 ≤ k) :
    magic <+: window src p k ↔ leU32 src p = some (ofLe magic) := by
  have cut : (window src p k).take 4 = window src p 4 := by
    rw [window, List.take_take, Nat.min_eq_left wide, window]
  rw [leU32_some_iff]
  constructor
  · intro starts
    have same : magic = window src p 4 := by
      rw [← cut, ← four]
      exact List.prefix_iff_eq_take.mp starts
    rw [← same]
    exact ⟨four, rfl⟩
  · rintro ⟨all, same⟩
    have bytes : magic = window src p 4 := by
      rw [← le_ofLe magic, ← le_ofLe (window src p 4), four, all, same]
    rw [bytes, ← cut]
    exact List.take_prefix _ _

theorem highNibble_iff (b : UInt8) : b &&& 0xF0 = 0x50 ↔ b.toNat / 16 = 5 := by
  revert b
  apply forall_byte
  decide

theorem ofLe_skippable (a b c d : UInt8) :
    ofLe [a, b, c, d] / 16 = 0x184D2A5 ↔
      a.toNat / 16 = 5 ∧ [b, c, d] = skippableMask := by
  have small : a.toNat < 256 := a.toNat_lt
  have bytes : [b, c, d] = skippableMask ↔
      b.toNat = 0x2A ∧ c.toNat = 0x4D ∧ d.toNat = 0x18 := by
    simp only [skippableMask, List.cons.injEq, and_true, ← UInt8.toNat_inj]
    rfl
  have b_small : b.toNat < 256 := b.toNat_lt
  have c_small : c.toNat < 256 := c.toNat_lt
  have d_small : d.toNat < 256 := d.toNat_lt
  rw [bytes]
  simp only [ofLe]
  omega

theorem skippable_iff {src : Bytes} {p : Nat} (inside : p + 8 ≤ src.length) :
    (8 ≤ (window src p 32).length ∧ byteAt (window src p 32) 0 &&& 0xF0 = 0x50 ∧
      window (window src p 32) 1 3 = skippableMask) ↔
      ∃ size, leU32 src p = some size ∧ size / 16 = 0x184D2A5 := by
  have long : 8 ≤ (window src p 32).length := by
    rw [length_window]
    omega
  have four : (window src p 4).length = 4 := length_window_of_le (by omega)
  have narrow : ∀ skip want, skip + want ≤ 4 →
      window (window src p 32) skip want = window (window src p 4) skip want := by
    intro skip want fits
    rw [window_window src (Nat.le_trans fits (by decide)),
      window_window src fits]
  obtain ⟨a, b, d, e, bytes⟩ : ∃ a b d e, window src p 4 = [a, b, d, e] := by
    match window src p 4, four with
    | [a, b, d, e], _ => exact ⟨a, b, d, e, rfl⟩
  have first : byteAt (window src p 32) 0 = a := by
    rw [byteAt, narrow 0 1 (by decide), bytes]
    rfl
  have others : window (window src p 32) 1 3 = [b, d, e] := by
    rw [narrow 1 3 (by decide), bytes]
    rfl
  have read : leU32 src p = some (ofLe [a, b, d, e]) :=
    leU32_some_iff.mpr ⟨four, by rw [bytes]⟩
  rw [first, others, highNibble_iff, ← ofLe_skippable, read]
  constructor
  · exact fun both => ⟨_, rfl, both.2⟩
  · rintro ⟨size, same, skippable⟩
    cases same
    exact ⟨long, skippable⟩

end Exav.Unpack
