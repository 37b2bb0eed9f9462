import Exav.Icap.Chunked

/-!
# Chunked streams

A payload comes as chunks, each under its length in four bytes, closed by a
length of zero.  The adapter presents it as one stream: it stops at the input
limit, the buffer behind it stops where there is no more room, and what is left
is drained up to a cap of its own.
-/

namespace Exav.Daemon

open Exav.Stream Exav.Icap

/-- Why a stream could not be held. -/
inductive ReadError where
  | transport
  | spill
  deriving DecidableEq

/-- A number in the big-endian order of its bytes. -/
def fromBeBytes (bytes : Bytes) : Nat :=
  bytes.foldl (fun n b => n * 256 + b.toNat) 0

/-- How much of an abandoned stream is read and discarded. -/
def maxDrainBytes : Nat := 64 * 1024 * 1024

def drainBlock : Nat := 8192

/-! ## The adapter -/

/-- A reader over a chunk sequence. -/
structure Instream where
  inner : Source UInt8
  remaining : Nat
  done : Bool
  truncated : Bool
  total : Nat
  max : Option UInt64
  overLimit : Bool

namespace Instream

def new (inner : Source UInt8) (max : Option UInt64) : Instream where
  inner := inner
  remaining := 0
  done := false
  truncated := false
  total := 0
  max := max
  overLimit := false

/-- The stream after its end, proper or not. -/
def cutOff (stream : Instream) : Instream :=
  { stream with done := true, truncated := true }

/-- Read the next chunk length.  It is false after a fault. -/
def nextChunk (stream : Instream) : Bool × Instream :=
  match readFull 4 stream.inner with
  | (none, inner) => (false, { stream with inner := inner })
  | (some len, inner) =>
      let stream := { stream with inner := inner }
      if len.length < 4 then (true, stream.cutOff)
      else
        let remaining := fromBeBytes len
        (true, { stream with
          remaining := remaining
          done := remaining == 0 })

/-- Read up to `want` bytes of the current chunk.  Past the limit at most one
byte more is handed over. -/
def readChunk (want : Nat) (stream : Instream) : Option Bytes × Instream :=
  match readSome (min stream.remaining want) stream.inner with
  | (none, inner) => (none, { stream with inner := inner })
  | (some [], inner) => (some [], { stream with inner := inner }.cutOff)
  | (some got, inner) =>
      let before := stream.total
      let stream := { stream with
        inner := inner
        remaining := stream.remaining - got.length
        total := stream.total + got.length }
      match stream.max with
      | none => (some got, stream)
      | some max =>
          if max.toNat < stream.total then
            (some (got.take (max.toNat + 1 - before)),
              { stream with overLimit := true })
          else (some got, stream)

/-- Read up to `want` bytes of the payload, or none after a fault. -/
def read (want : Nat) (stream : Instream) : Option Bytes × Instream :=
  if stream.done || stream.overLimit then (some [], stream)
  else if stream.remaining = 0 then
    match stream.nextChunk with
    | (false, stream) => (none, stream)
    | (true, stream) =>
        if stream.done then (some [], stream) else stream.readChunk want
  else stream.readChunk want

/-- Consume what is left of the stream, up to the cap: whether its end was
reached, or none after a fault.  A round that is not the last takes a byte. -/
def drainFrom : (rounds drained : Nat) → Instream → Option Bool × Instream
  | 0, _, stream => (some false, stream)
  | rounds + 1, drained, stream =>
      if stream.done then (some true, stream)
      else if maxDrainBytes ≤ drained then (some false, stream)
      else if stream.remaining = 0 then
        match stream.nextChunk with
        | (false, stream) => (none, stream)
        | (true, stream) => drainFrom rounds drained stream
      else
        match readFull (min stream.remaining drainBlock) stream.inner with
        | (none, inner) => (none, { stream with inner := inner })
        | (some [], inner) =>
            (some true, { stream with inner := inner }.cutOff)
        | (some got, inner) =>
            drainFrom rounds (drained + got.length) { stream with
              inner := inner
              remaining := stream.remaining - got.length
              total := stream.total + got.length }

def drain (stream : Instream) : Option Bool × Instream :=
  stream.drainFrom ((rest stream.inner).length + 2) 0

end Instream

/-! ## Holding a stream -/

/-- A payload that can be read again: in memory, or in a file. -/
inductive StreamPayload where
  | mem (bytes : Bytes)
  | disk (bytes : Bytes)
  deriving DecidableEq

namespace StreamPayload

def bytes : StreamPayload → Bytes
  | .mem bytes | .disk bytes => bytes

def len (payload : StreamPayload) : Nat :=
  payload.bytes.length

end StreamPayload

structure Held where
  payload : StreamPayload
  short : Option String
  deriving DecidableEq

/-- Reads until `room` is filled or the stream ends, the `n`-th read asking for
`pieces n + 1` bytes.  A read gives at least one byte, so `room` rounds are
enough. -/
def readToEnd (pieces : Nat → Nat) : (rounds n room : Nat) → (held : Bytes) →
    Instream → Option Bytes × Instream
  | 0, _, _, held, stream => (some held, stream)
  | rounds + 1, n, room, held, stream =>
      if room = 0 then (some held, stream)
      else
        match stream.read (min room (pieces n + 1)) with
        | (none, stream) => (none, stream)
        | (some [], stream) => (some held, stream)
        | (some got, stream) =>
            readToEnd pieces rounds (n + 1) (room - got.length) (held ++ got)
              stream

def spillBlock : Nat := 64 * 1024

def writeAll (spill : Spill) (file bytes : Bytes) : Except SpillError Bytes :=
  match spill.charge file.length bytes.length with
  | some e => .error e
  | none => .ok (file ++ bytes)

/-- Copy the rest of the stream to the file.  A read that is not the last takes
a byte. -/
def spillRest (spill : Spill) : (rounds : Nat) → (file : Bytes) → Instream →
    Except ReadError Held × Instream
  | 0, file, stream => (.ok ⟨.disk file, none⟩, stream)
  | rounds + 1, file, stream =>
      match stream.read spillBlock with
      | (none, stream) => (.error .transport, stream)
      | (some [], stream) => (.ok ⟨.disk file, none⟩, stream)
      | (some got, stream) =>
          match writeAll spill file got with
          | .ok file => spillRest spill rounds file stream
          | .error (.budget why) => (.ok ⟨.disk file, some why⟩, stream)
          | .error .io => (.error .spill, stream)

/-- The head of a stream and the block after it moved to a file, and the rest
after them. -/
def spillHead (spill : Spill) (head block : Bytes) (stream : Instream) :
    Except ReadError Held × Instream :=
  match spill.create with
  | some (.budget why) => (.ok ⟨.mem head, some why⟩, stream)
  | some .io => (.error .spill, stream)
  | none =>
      match writeAll spill [] head with
      | .error (.budget why) => (.ok ⟨.disk [], some why⟩, stream)
      | .error .io => (.error .spill, stream)
      | .ok file =>
          match writeAll spill file block with
          | .error (.budget why) => (.ok ⟨.disk file, some why⟩, stream)
          | .error .io => (.error .spill, stream)
          | .ok file =>
              spillRest spill ((rest stream.inner).length + 1) file stream

/-- Hold a stream: in memory up to the threshold, then in a file. -/
def bufferToSeekable (spill : Spill) (pieces : Nat → Nat)
    (stream : Instream) : Except ReadError Held × Instream :=
  match readToEnd pieces spill.threshold 0 spill.threshold [] stream with
  | (none, stream) => (.error .transport, stream)
  | (some head, stream) =>
      if head.length < spill.threshold then (.ok ⟨.mem head, none⟩, stream)
      else
        match readToEnd (fun _ => spillBlock) spillBlock 0 spillBlock []
            stream with
        | (none, stream) => (.error .transport, stream)
        | (some [], stream) => (.ok ⟨.mem head, none⟩, stream)
        | (some block, stream) => spillHead spill head block stream

end Exav.Daemon
