import Exav.Bytes
import Exav.Lib.Stream

/-!
# Chunked bodies

An encapsulated body is a sequence of chunks, each under a line with its size in
hexadecimal, closed by a chunk of size zero and a trailer section.  What is read
is kept up to a ceiling and up to what the spill budgets hold; the rest is read
and thrown away as far as the drain ceiling goes.
-/

namespace Exav.Icap

open Exav.Stream

def u64Max : Nat := 2 ^ 64 - 1

def saturatingAdd (a b : Nat) : Nat :=
  min u64Max (a + b)

def text (s : String) : Bytes :=
  s.toList.map fun c => UInt8.ofNat c.toNat

/-- What a step after one that succeeded gives. -/
theorem ok_of_bind {ε α β : Type} {step : Except ε α} {next : α → Except ε β}
    {result : β} (success : (step >>= next) = .ok result) :
    ∃ value, step = .ok value ∧ next value = .ok result := by
  cases step with
  | error e => cases success
  | ok value => exact ⟨value, rfl, success⟩

/-! ## Lines -/

/-- Why a read failed. -/
inductive IoError where
  | transport
  | endedMidLine
  | lineTooLong
  | headTooLong
  | endedInsideHead
  | endedInsideHeaders
  | spill
  deriving DecidableEq

/-- Read one line with its newline, or `none` at the end of the stream. -/
def readLine (max : Nat) (source : Source UInt8) :
    Except IoError (Option Bytes × Source UInt8) :=
  match readThrough 10 max [] source with
  | (.found line, source) => .ok (some line, source)
  | (.ended [], source) => .ok (none, source)
  | (.ended _, _) => .error .endedMidLine
  | (.overlong _, _) => .error .lineTooLong
  | (.fault, _) => .error .transport

/-- Trim a line's trailing `\r\n`, or bare `\n`. -/
def trimEol (line : Bytes) : Bytes :=
  let line := if line.getLast? = some 10 then line.dropLast else line
  if line.getLast? = some 13 then line.dropLast else line

def isAsciiWhitespace (b : UInt8) : Bool :=
  b == 32 || b == 9 || b == 10 || b == 12 || b == 13

def trimBy (space : UInt8 → Bool) (bytes : Bytes) : Bytes :=
  ((bytes.dropWhile space).reverse.dropWhile space).reverse

def trimAscii : Bytes → Bytes :=
  trimBy isAsciiWhitespace

/-- What stands before and after the first `sep`. -/
def splitOnce (sep : UInt8) (bytes : Bytes) : Option (Bytes × Bytes) :=
  if bytes.idxOf sep < bytes.length then
    some (bytes.take (bytes.idxOf sep), bytes.drop (bytes.idxOf sep + 1))
  else none

/-! ## Size lines -/

/-- Why a body could not be decoded. -/
inductive BodyError where
  | malformed (reason : String)
  | io (e : IoError)
  deriving DecidableEq

/-- The value of a hexadecimal digit. -/
def hexDigit (b : UInt8) : Option Nat :=
  if 48 ≤ b ∧ b ≤ 57 then some (b.toNat - 48)
  else if 97 ≤ b ∧ b ≤ 102 then some (b.toNat - 87)
  else if 65 ≤ b ∧ b ≤ 70 then some (b.toNat - 55)
  else none

def parseChunkSize (sizeText : Bytes) : Except BodyError Nat :=
  let digits := trimAscii sizeText
  if digits = [] then .error (.malformed "empty chunk size")
  else if 16 < digits.length ∨ !digits.all fun b => (hexDigit b).isSome then
    .error (.malformed "malformed chunk size")
  else .ok (digits.foldl (fun n b => n * 16 + (hexDigit b).getD 0) 0)

/-- Whether a chunk-extension list carries the `ieof` marker. -/
def hasIeof (ext : Bytes) : Bool :=
  (ext.splitOn 59).any fun t => eqIgnoreAsciiCase (trimAscii t) (text "ieof")

def splitSize (line : Bytes) : Bytes × Bytes :=
  (splitOnce 59 line).getD (line, [])

/-! ## The buffered body -/

/-- Why an object could not be buffered. -/
inductive SpillError where
  | budget (reason : String)
  | io
  deriving DecidableEq

/-- The spill settings, with what the budgets and the temp filesystem answer
while one object is held: when its file is created, and when more bytes are
written to the file after so many. -/
structure Spill where
  threshold : Nat
  create : Option SpillError
  charge : Nat → Nat → Option SpillError

/-- A decoded body: its head in memory, and past the threshold all of it in a
file. -/
structure Body (threshold : Nat) where
  ram : Bytes
  spill : Option Bytes
  len : Nat
  counted : len = (spill.getD ram).length
  headInRam : ram = (spill.getD ram).take threshold
  spilledFull : ∀ file, spill = some file → threshold ≤ file.length

namespace Body

variable {threshold : Nat}

def new : Body threshold where
  ram := []
  spill := none
  len := 0
  counted := rfl
  headInRam := by simp
  spilledFull := by simp

/-- The bytes held, from wherever they are. -/
def payload (body : Body threshold) : Bytes :=
  body.spill.getD body.ram

/-- The head that is in memory, for the preview scan. -/
def head (body : Body threshold) : Bytes :=
  body.ram

@[simp] theorem payload_new : (new : Body threshold).payload = [] := rfl

theorem len_eq (body : Body threshold) : body.len = body.payload.length :=
  body.counted

def keep (body : Body threshold) (bytes : Bytes) (inRam : body.spill = none)
    (fits : body.ram.length + bytes.length ≤ threshold) : Body threshold where
  ram := body.ram ++ bytes
  spill := none
  len := body.len + bytes.length
  counted := by
    have counted := body.counted
    simp_all
  headInRam := by
    rw [Option.getD_none, List.take_of_length_le]
    simpa using fits
  spilledFull := by simp

def append (body : Body threshold) (file bytes : Bytes)
    (inFile : body.spill = some file) : Body threshold where
  ram := body.ram
  spill := some (file ++ bytes)
  len := body.len + bytes.length
  counted := by
    have counted := body.counted
    simp_all
  headInRam := by
    have headInRam := body.headInRam
    have full := body.spilledFull file inFile
    rw [inFile] at headInRam
    simpa [List.take_append_of_le_length full] using headInRam
  spilledFull := by
    intro whole same
    have full := body.spilledFull file inFile
    simp only [Option.some.injEq] at same
    simp [← same]
    omega

/-- The whole body moved to a file, once memory is full. -/
def toDisk (body : Body threshold) (inRam : body.spill = none)
    (full : body.ram.length = threshold) : Body threshold where
  ram := body.ram
  spill := some body.ram
  len := body.len
  counted := by
    have counted := body.counted
    simp_all
  headInRam := by simp [← full]
  spilledFull := by
    intro file same
    simp only [Option.some.injEq] at same
    simp [← same, full]

end Body

/-- What came of writing bytes to a body. -/
inductive Written (threshold : Nat) where
  | done (body : Body threshold)
  | failed (e : SpillError) (body : Body threshold)

namespace Body

def writeFile (spill : Spill) (body : Body spill.threshold) (file bytes : Bytes)
    (inFile : body.spill = some file) : Written spill.threshold :=
  match spill.charge file.length bytes.length with
  | some e => .failed e body
  | none => .done (body.append file bytes inFile)

/-- Append decoded bytes: in memory while they fit, then to a file. -/
def write (spill : Spill) (body : Body spill.threshold) (bytes : Bytes) :
    Written spill.threshold :=
  match inFile : body.spill with
  | some file => body.writeFile spill file bytes inFile
  | none =>
      let room := spill.threshold - body.ram.length
      have bound : body.ram.length ≤ spill.threshold := by
        have headInRam := body.headInRam
        rw [inFile, Option.getD_none] at headInRam
        exact List.take_eq_self_iff _ |>.mp headInRam.symm
      if fits : bytes.length ≤ room then
        .done (body.keep bytes inFile (by omega))
      else
        let full := body.keep (bytes.take room) inFile (by simp; omega)
        match spill.create with
        | some e => .failed e full
        | none =>
            match spill.charge 0 full.ram.length with
            | some e => .failed e full
            | none =>
                (full.toDisk rfl (by
                    show (body.ram ++ bytes.take room).length = _
                    simp; omega)).writeFile
                  spill full.ram (bytes.drop room) rfl

end Body

/-! ## Decoding -/

/-- How a body ended: with more to come, or as the whole of the object. -/
inductive BodyEnd where
  | eof
  | ieof
  deriving DecidableEq

/-- What a decode produced. -/
structure BodyOutcome where
  ending : BodyEnd
  overLimit : Bool
  abandoned : Bool
  rejected : Option String
  total : Nat
  deriving DecidableEq

def maxChunkLine : Nat := 1024

def maxTrailerLines : Nat := 32

/-- Bytes read from the transport at a time. -/
def sinkLen : Nat := 16 * 1024

def bodyLine (max : Nat) (source : Source UInt8) :
    Except BodyError (Option Bytes × Source UInt8) :=
  match readLine max source with
  | .ok read => .ok read
  | .error e => .error (.io e)

def readTrailer : Nat → Source UInt8 → Except BodyError (Source UInt8)
  | 0, _ => .error (.malformed "trailer section too long")
  | lines + 1, source => do
      let (line, source) ← bodyLine maxChunkLine source
      match line with
      | none => .ok source
      | some line =>
          if trimEol line = [] then .ok source else readTrailer lines source

/-- What became of the bytes of a chunk that were to be kept. -/
inductive Kept (threshold : Nat) where
  | all (out : Body threshold) (source : Source UInt8)
  | refused (reason : String) (out : Body threshold) (unread : Nat)
      (source : Source UInt8)

/-- Copy `keep` bytes into the body.  A read gives at least one byte, so `keep`
rounds are enough. -/
def keepBytes (spill : Spill) : (rounds keep : Nat) → Body spill.threshold →
    Source UInt8 → Except BodyError (Kept spill.threshold)
  | 0, _, out, source => .ok (.all out source)
  | rounds + 1, keep, out, source =>
      if keep = 0 then .ok (.all out source)
      else
        match readSome (min keep sinkLen) source with
        | (none, _) => .error (.io .transport)
        | (some [], _) =>
            .error (.malformed "chunk shorter than its declared size")
        | (some got, source) =>
            match out.write spill got with
            | .done out => keepBytes spill rounds (keep - got.length) out source
            | .failed .io _ => .error (.io .spill)
            | .failed (.budget reason) out =>
                .ok (.refused reason out (keep - got.length) source)

def closeChunk (discard : Nat) (source : Source UInt8) :
    Except BodyError (Source UInt8) :=
  match readFull discard source with
  | (none, _) => .error (.io .transport)
  | (some got, source) =>
      if got.length < discard then
        .error (.malformed "chunk shorter than its declared size")
      else do
        let (eol, source) ← bodyLine 64 source
        match eol with
        | none => .error (.malformed "chunk not terminated")
        | some eol =>
            if trimEol eol = [] then .ok source
            else .error (.malformed "chunk data overruns its declared size")

/-- What a decode has made of a body so far. -/
structure Progress (threshold : Nat) where
  overLimit : Bool
  drained : Nat
  rejected : Option String
  total : Nat
  out : Body threshold

/-- The drain counter charged with `n` more bytes. -/
def chargeDrain (n drained : Nat) : Nat :=
  if n = 0 then drained else saturatingAdd drained n

/-- Whether the drain ceiling lets `n` more bytes be thrown away. -/
def drains (drainLimit n drained : Nat) : Bool :=
  n == 0 || decide (saturatingAdd drained n ≤ drainLimit)

/-- How much of a chunk of `size` bytes is to be kept: what fits under the
ceiling, and nothing once a budget has refused the object. -/
def toKeep (limit size : Nat) {threshold : Nat} (now : Progress threshold) :
    Nat :=
  if now.rejected.isSome then 0 else min (limit - now.out.len) size

/-- Where a chunk leaves the decode. -/
inductive Step (threshold : Nat) where
  | next (now : Progress threshold) (source : Source UInt8)
  | abandoned (now : Progress threshold) (source : Source UInt8)

/-- Read one chunk of `size` bytes, the limits checked before its bytes are. -/
def readChunk (limit drainLimit : Nat) (spill : Spill) (size : Nat)
    (now : Progress spill.threshold) (source : Source UInt8) :
    Except BodyError (Step spill.threshold) :=
  let keep := toKeep limit size now
  let discard := size - keep
  let drained := now.drained
  let now := { now with
    overLimit := now.overLimit || decide (0 < discard),
    drained := chargeDrain discard drained,
    total := saturatingAdd now.total size }
  if drains drainLimit discard drained then do
    match ← keepBytes spill keep keep now.out source with
    | .all out source =>
        let source ← closeChunk discard source
        .ok (.next { now with out := out } source)
    | .refused reason out unread source =>
        let refused := { now with
          overLimit := true,
          drained := chargeDrain unread now.drained,
          rejected := some reason,
          out := out }
        if drains drainLimit unread now.drained then
          let source ← closeChunk (discard + unread) source
          .ok (.next refused source)
        else .ok (.abandoned refused source)
  else .ok (.abandoned now source)

/-- Read chunks to the last one.  Each takes at least its size line, so there
are no more rounds than bytes. -/
def decodeFrom (limit drainLimit : Nat) (spill : Spill) : (rounds : Nat) →
    Progress spill.threshold → Source UInt8 →
    Except BodyError (BodyOutcome × Body spill.threshold × Source UInt8)
  | 0, _, _ => .error (.malformed "stream ended before the last chunk")
  | rounds + 1, now, source => do
      let (line, source) ← bodyLine maxChunkLine source
      match line with
      | none => .error (.malformed "stream ended before the last chunk")
      | some line =>
          let (sizeText, ext) := splitSize (trimEol line)
          let size ← parseChunkSize sizeText
          if size = 0 then do
            let source ← readTrailer maxTrailerLines source
            .ok (⟨if hasIeof ext then .ieof else .eof, now.overLimit, false,
              now.rejected, now.total⟩, now.out, source)
          else
            match ← readChunk limit drainLimit spill size now source with
            | .next now source =>
                decodeFrom limit drainLimit spill rounds now source
            | .abandoned now source =>
                .ok (⟨.eof, true, true, now.rejected, now.total⟩, now.out,
                  source)

/-- Decode a chunk-encoded body, appending to `out` but never keeping more than
`limit` bytes. -/
def readChunkedBody (limit : Option Nat) (drainLimit : Nat) (spill : Spill)
    (out : Body spill.threshold) (source : Source UInt8) :
    Except BodyError (BodyOutcome × Body spill.threshold × Source UInt8) :=
  decodeFrom (limit.getD u64Max) drainLimit spill ((rest source).length + 1)
    ⟨false, 0, none, 0, out⟩ source

end Exav.Icap
