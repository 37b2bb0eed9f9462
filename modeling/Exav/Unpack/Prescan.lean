import Exav.Carve.Search
import Exav.Lib.Fields
import Exav.Source.Views
import Exav.Unpack.Uuencode

/-!
# Self-extracting archives

An executable carries an archive behind its own code.  The first magic past the
stub is looked for, in the whole or a window at a time; that of ARJ and of 7z
count only with a header that checks out.
-/

namespace Exav.Unpack.Sfx

open Exav.Fields (ofLe)
open Exav.Carve (findIter)

inductive Label where
  | sevenZip
  | rar
  | zip
  | cab
  | arj
  deriving DecidableEq

/-- The magics of archives. -/
def sigs : List (Bytes × Label) :=
  [([0x37, 0x7A, 0xBC, 0xAF, 0x27, 0x1C], .sevenZip),
    ([0x52, 0x61, 0x72, 0x21, 0x1A, 0x07], .rar),
    ([0x50, 0x4B, 0x03, 0x04], .zip),
    ([0x4D, 0x53, 0x43, 0x46], .cab),
    ([0x60, 0xEA], .arj)]

def arjHeaderOk (h : Bytes) : Bool :=
  let basicSize := ofLe (window h 2 2)
  let firstSize := (byteAt h 4).toNat
  let hostOs := (byteAt h 8).toNat
  (30 ≤ basicSize ∧ basicSize ≤ 2600) ∧ 30 ≤ firstSize ∧
    firstSize ≤ basicSize ∧ hostOs ≤ 11

def plausibleArjHeader (data : Bytes) (off : Nat) : Bool :=
  let h := window data off 11
  h.length = 11 ∧ arjHeaderOk h = true

section

variable (crc32 : Bytes → UInt32)

def startHeaderOk (h : Bytes) : Bool :=
  (crc32 (window h 12 20)).toNat = ofLe (window h 8 4)

def plausible7zHeader (data : Bytes) (off : Nat) : Bool :=
  let h := window data off 32
  h.length = 32 ∧ startHeaderOk crc32 h = true

def plausibleHeader (name : Label) (data : Bytes) (off : Nat) : Bool :=
  match name with
  | .arj => plausibleArjHeader data off
  | .sevenZip => plausible7zHeader crc32 data off
  | _ => true

/-- The earlier of two finds, and the first where they are at one place. -/
def earlier (best : Option (Nat × Label)) (name : Label) :
    Option Nat → Option (Nat × Label)
  | none => best
  | some off =>
      match best with
      | none => some (off, name)
      | some (b, other) => if off < b then some (off, name) else some (b, other)

/-- The earliest embedded archive from an offset on. -/
def findArchiveFrom (data : Bytes) (start : Nat) : Option (Nat × Label) :=
  if data.length < start then none
  else
    sigs.foldl (fun best (sig, name) =>
      earlier best name
        (((findIter sig (data.drop start)).map (· + start)).find?
          (plausibleHeader crc32 name data))) none

/-- The earliest one past the executable's own magic. -/
def findEmbeddedArchive (data : Bytes) : Option (Nat × Label) :=
  findArchiveFrom crc32 data 1

/-! ## A window at a time -/

/-- The search, fed windows by a pass that reads the object for others too. -/
structure PayloadSearch where
  found : Option (Option Nat)
  deriving DecidableEq

namespace PayloadSearch

/-- Bytes each window must run into the next: the 7z start header, the longest
that a check reads. -/
def overlap : Nat := 32

def new : PayloadSearch := ⟨none⟩

/-- Search a window at `base`, the last or not. -/
def feed (s : PayloadSearch) (base : Nat) (w : Bytes) (last : Bool) :
    PayloadSearch :=
  if s.found.isSome then s
  else
    let start := if base = 0 then 1 else 0
    match findArchiveFrom crc32 w start with
    | some (off, _) =>
        -- A match near the end may be cut short, and a candidate before it
        -- wrongly passed over.
        if last || off + overlap ≤ w.length then ⟨some (some (base + off))⟩
        else s
    | none => if last then ⟨some none⟩ else s

def done (s : PayloadSearch) : Bool := s.found.isSome

/-- Where the first embedded archive starts. -/
def offset (s : PayloadSearch) : Option Nat := s.found.join

end PayloadSearch

def windowBytes : Nat := 2 ^ 20

/-- The search, over a buffer of what is kept of the windows before and of the
next one; `pos` is where the source is read. -/
def payloadOffsetFrom (source : Bytes) :
    (rounds pos : Nat) → (buf : Bytes) → (base left : Nat) → Option Nat
  | 0, _, _, _, _ => none
  | rounds + 1, pos, buf, base, left =>
      let want := min windowBytes left
      let got := window source pos want
      let buf := buf ++ got
      let left := left - got.length
      let last : Bool := got.length < want ∨ left = 0
      let start := if base = 0 then 1 else 0
      let next :=
        if last then none
        else
          let drop := buf.length - min PayloadSearch.overlap buf.length
          payloadOffsetFrom source rounds (pos + got.length) (buf.drop drop)
            (base + drop) left
      match findArchiveFrom crc32 buf start with
      | some (off, _) =>
          if last || off + PayloadSearch.overlap ≤ buf.length then
            some (base + off)
          else next
      | none => next

/-- Where the archive in the first `limit` bytes of a source starts.  A round
that is not the last reads a byte at least. -/
def payloadOffset (source : Bytes) (limit : Nat) : Option Nat :=
  payloadOffsetFrom crc32 source (limit + 1) 0 [] 0 limit

end

end Exav.Unpack.Sfx

/-!
## Searches of a whole object

Detection looks for some markers anywhere in an object, for the archive of a
self-extractor and for the line that ends a uuencoded file.  One read of the
object, a window or a piece at a time, serves each of them.
-/

namespace Exav.Unpack

open Exav.Source (memmem chunkBytes)

/-- The formats of a build that are searched for. -/
structure Formats where
  screnc : Bool
  nsis : Bool
  autoit : Bool
  sfx : Bool

def screncMarker : Bytes := [0x23, 0x40, 0x7E, 0x5E]

def nsisSig : Bytes :=
  [0xEF, 0xBE, 0xAD, 0xDE, 0x4E, 0x75, 0x6C, 0x6C, 0x73, 0x6F, 0x66, 0x74, 0x49,
    0x6E, 0x73, 0x74]

/-- `AU3!EA05` -/
def markerEa05 : Bytes := [0x41, 0x55, 0x33, 0x21, 0x45, 0x41, 0x30, 0x35]

/-- `AU3!EA06` -/
def markerEa06 : Bytes := [0x41, 0x55, 0x33, 0x21, 0x45, 0x41, 0x30, 0x36]

/-- The needles that a whole object is searched for. -/
def searched (formats : Formats) : List Bytes :=
  (if formats.screnc then [screncMarker] else []) ++
    (if formats.nsis then [nsisSig] else []) ++
    (if formats.autoit then [markerEa05, markerEa06] else [])

/-- An executable magic stands at the start. -/
def startsWithExe (data : Bytes) : Bool :=
  [0x4D, 0x5A] <+: data ∨ [0x7F, 0x45, 0x4C, 0x46] <+: data

/-- What is searched for, found as a caller reads the object. -/
structure Prescan where
  finders : List Bytes
  markers : List (Option Nat)
  payload : Option Sfx.PayloadSearch

/-- What was found. -/
structure Searched where
  markers : List (Option Nat)
  sfx : Option Nat
  deriving DecidableEq

namespace Prescan

/-- Bytes each window must run into the next. -/
def overlap : Nat := 32

/-- The search for an object that starts with `head`. -/
def new (formats : Formats) (head : Bytes) : Prescan :=
  let needles := searched formats
  { finders := needles
    markers := needles.map fun _ => none
    payload :=
      if formats.sfx && startsWithExe head then some .new else none }

def feedMarker (base : Nat) (w needle : Bytes) : Option Nat → Option Nat
  | some p => some p
  | none => (memmem w needle).map (base + ·)

/-- Search the window `w` at `base` in the object, its last or not. -/
def feed (crc32 : Bytes → UInt32) (s : Prescan) (base : Nat) (w : Bytes)
    (last : Bool) : Prescan :=
  { s with
    markers := List.zipWith (feedMarker base w) s.finders s.markers
    payload := s.payload.map fun p => p.feed crc32 base w last }

/-- Whether every search has its answer. -/
def done (s : Prescan) : Bool :=
  s.payload.all (·.done) && s.markers.all Option.isSome

def searched (s : Prescan) : Searched :=
  ⟨s.markers, s.payload.bind (·.offset)⟩

end Prescan

/-- A window at a time from `pos` on. -/
def searchThroughFrom (crc32 : Bytes → UInt32) (src : Bytes) (len : Nat) :
    (rounds pos : Nat) → Prescan → Prescan
  | 0, _, s => s
  | rounds + 1, pos, s =>
      if pos < len ∧ s.done = false then
        let w := window src pos
          (min (len - pos) (max chunkBytes (Prescan.overlap + 1)))
        let last : Bool := w.length ≤ Prescan.overlap ∨ len ≤ pos + w.length
        let s := s.feed crc32 pos w last
        if last then s
        else searchThroughFrom crc32 src len rounds
          (pos + (w.length - Prescan.overlap)) s
      else s

/-- What is searched for in the first `len` bytes of a source that starts with
`head`.  A window that is not the last brings the next one on by a byte at
least. -/
def searchThrough (crc32 : Bytes → UInt32) (formats : Formats) (src : Bytes)
    (len : Nat) (head : Bytes) : Searched :=
  (searchThroughFrom crc32 src len (len + 1) 0 (.new formats head)).searched

/-! ## The last line of a uuencoded file -/

/-- Looks for a line that, trimmed, is `end`, or starts with `====` for a body
in Base64. -/
structure Terminator where
  base64 : Bool
  found : Bool
  /-- Past the line's leading whitespace. -/
  inText : Bool
  /-- Bytes of the line from its first one that is not whitespace. -/
  pos : Nat
  /-- The first four of those. -/
  first : Bytes
  /-- Index of the last one among them that is not whitespace. -/
  lastText : Nat

namespace Terminator

def new (base64 : Bool) : Terminator :=
  ⟨base64, false, false, 0, [0, 0, 0, 0], 0⟩

def endLine (t : Terminator) : Terminator :=
  let found :=
    if t.inText then
      t.found || if t.base64 then
          4 ≤ t.pos ∧ t.first = [0x3D, 0x3D, 0x3D, 0x3D]
        else t.lastText = 2 ∧ t.first.take 3 = Unpack.endLine
    else t.found
  { t with found := found, inText := false, pos := 0 }

/-- One byte of a line. -/
def step (t : Terminator) (b : UInt8) : Terminator :=
  if t.inText then
    { t with
      first := if t.pos < 4 then t.first.set t.pos b else t.first
      lastText := if isAsciiWhitespace b then t.lastText else t.pos
      pos := t.pos + 1 }
  else if isAsciiWhitespace b then t
  else { t with inText := true, first := t.first.set 0 b, lastText := 0, pos := 1 }

/-- Whether a terminator is found in what has been fed so far. -/
def feed (t : Terminator) : Bytes → Terminator × Bool
  | [] => (t, false)
  | b :: data =>
      if b = 0x0A then
        let t := t.endLine
        if t.found then (t, true) else t.feed data
      else (t.step b).feed data

def finish (t : Terminator) : Bool := t.endLine.found

def feedAll (t : Terminator) : List Bytes → Terminator
  | [] => t
  | piece :: pieces =>
      match t.feed piece with
      | (t, true) => t
      | (t, false) => t.feedAll pieces

end Terminator

end Exav.Unpack
