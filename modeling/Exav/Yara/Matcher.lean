import Mathlib.Data.List.Sort
import Exav.Bytes

/-!
# Literal and base64 patterns

A pattern is searched through what is in memory, or through one window after
another of an object that is not: alone, or together with other patterns.  A
window holds what a match that starts in its middle is checked against.
-/

namespace Exav.Yara

/-! ## Patterns -/

/-- A match: its offset and its length. -/
structure Match where
  offset : Nat
  len : Nat
  deriving DecidableEq

/-- One concrete byte needle for a literal pattern. -/
structure Needle where
  bytes : Bytes
  nocase : Bool
  wide : Bool

/-- One base64 sub-pattern: what is searched for, and what is needed to verify
it.  The decoder of its alphabet is the one a library supplies. -/
structure Base64Sub where
  searched : Bytes
  pattern : Bytes
  padding : Nat
  wide : Bool
  decode : Bytes → Option Bytes

/-- A literal pattern.  An exclusive or with a key is always compared
exactly. -/
structure Literal where
  needles : List Needle
  xor : Option (UInt8 × UInt8)
  fullword : Bool
  exact : xor.isSome → ∀ n ∈ needles, n.nocase = false

inductive PatternMatcher where
  | literal (literal : Literal)
  | base64 (entries : List Base64Sub)

/-! ## Checks -/

def isWord (b : UInt8) : Bool :=
  (48 ≤ b && b ≤ 57) || (65 ≤ b && b ≤ 90) || (97 ≤ b && b ≤ 122)

def fullWordBetween (before after : Bytes) (wide : Bool) (xorKey : UInt8) :
    Bool :=
  if wide then
    let wordPair : Bytes → Bool := fun
      | [a, b] => (b ^^^ xorKey) == 0 && isWord (a ^^^ xorKey)
      | _ => false
    !wordPair before && !wordPair after
  else
    !(before.getLast?.any fun b => isWord (b ^^^ xorKey)) &&
      !(after.head?.any fun b => isWord (b ^^^ xorKey))

def verifyFullWord (data : Bytes) (start stop : Nat) (wide : Bool)
    (xorKey : UInt8) : Bool :=
  fullWordBetween (window data (start - 2) (start - (start - 2)))
    (window data stop 2) wide xorKey

def needleHit (data : Bytes) (pos : Nat) (n : Needle) (key : UInt8) : Bool :=
  if data.length < pos + n.bytes.length then false
  else
    ((window data pos n.bytes.length).zip n.bytes).all fun (d, p) =>
      if n.nocase then fold d == fold (p ^^^ key) else d == p ^^^ key

/-- Where a base64 match is decoded from before its start, how much is decoded,
and how long the match is. -/
def base64Span (padding len : Nat) : Option (Nat × Nat × Nat) :=
  match padding, len % 4 with
  | 0, 0 => some (0, len, len)
  | 0, 2 => some (0, len + 2, len - 1)
  | 0, 3 => some (0, len + 1, len - 1)
  | 1, 0 => some (2, len + 4, len - 1)
  | 1, 2 => some (2, len + 2, len - 2)
  | 1, 3 => some (2, len + 1, len - 1)
  | 2, 0 => some (3, len + 4, len - 1)
  | 2, 2 => some (3, len + 2, len - 1)
  | 2, 3 => some (3, len + 5, len - 1)
  | _, _ => none

/-- The characters a base64 encoding without padding takes. -/
def encodedLen (n : Nat) : Nat :=
  n / 3 * 4 + (if n % 3 = 0 then 0 else n % 3 + 1)

/-- The characters of a wide slice, without the padding ones, when every second
byte of it is zero. -/
def narrow : Bytes → Option Bytes
  | [] => some []
  | [b] => some (if b = 61 then [] else [b])
  | b :: zero :: slice =>
      if zero = 0 then
        (narrow slice).map fun ascii => if b = 61 then ascii else b :: ascii
      else none

def trimPadding (slice : Bytes) : Bytes :=
  if [61, 61].isSuffixOf slice then slice.dropLast.dropLast
  else if [61].isSuffixOf slice then slice.dropLast
  else slice

/-- The length of the match when `e`'s pattern is encoded at `matchStart`. -/
def verifyBase64 (e : Base64Sub) (data : Bytes) (matchStart : Nat) :
    Option Nat :=
  if e.pattern = [] then none
  else
    match base64Span e.padding (encodedLen e.pattern.length) with
    | none => none
    | some (delta, decodeLen, matchLen) =>
        let scale := if e.wide then 2 else 1
        if matchStart < scale * delta then none
        else
          let slice := window data (matchStart - scale * delta)
            (scale * decodeLen)
          let encoded := if e.wide then narrow slice
            else some (trimPadding slice)
          match encoded.bind e.decode with
          | none => none
          | some decoded =>
              if window decoded e.padding e.pattern.length = e.pattern then
                some (scale * matchLen)
              else none

/-! ## Collecting -/

/-- Matches one pattern keeps. -/
def maxMatches : Nat := 1000000

/-- Matches as they are found, and whether some were dropped. -/
structure Collector where
  out : List Match
  full : Bool

namespace Collector

def new : Collector := ⟨[], false⟩

def push (out : Collector) (offset len : Nat) : Collector :=
  if out.out.length < maxMatches then
    { out with out := out.out ++ [⟨offset, len⟩] }
  else { out with full := true }

end Collector

/-! ## Searching a window -/

/-- The positions from `start` up to `stop`. -/
def positions (start stop : Nat) : List Nat :=
  List.range' start (stop - start)

def record (data : Bytes) (origin : Nat) (fullword : Bool) (n : Needle)
    (key : UInt8) (pos : Nat) (out : Collector) : Collector :=
  if !fullword ||
      verifyFullWord data pos (pos + n.bytes.length) n.wide key then
    out.push (origin + pos) n.bytes.length
  else out

/-- Every occurrence of a needle compared exactly, overlapping ones included.
Each round starts one past the occurrence before. -/
def searchExact (data : Bytes) (stop origin : Nat) (fullword : Bool)
    (n : Needle) : (rounds base : Nat) → Collector → Collector
  | 0, _, out => out
  | rounds + 1, base, out =>
      match find data n.bytes base data.length with
      | none => out
      | some pos =>
          if stop ≤ pos then out
          else
            searchExact data stop origin fullword n rounds (pos + 1)
              (record data origin fullword n 0 pos out)

/-- The keys a position is tried with. -/
def candidates (data : Bytes) (n : Needle) (low high : UInt8) (pos : Nat) :
    List UInt8 :=
  if n.nocase then
    (List.range' low.toNat (high.toNat + 1 - low.toNat)).map UInt8.ofNat
  else
    let first := byteAt data pos ^^^ byteAt n.bytes 0
    if first < low ∨ high < first then [] else [first]

/-- The needle's occurrences that start in `start..stop`, reported at `origin`
plus their position. -/
def searchNeedle (data : Bytes) (start stop origin : Nat) (fullword : Bool)
    (xor : Option (UInt8 × UInt8)) (n : Needle) (out : Collector) :
    Collector :=
  if n.bytes = [] ∨ data.length < n.bytes.length then out
  else
    let last := data.length - n.bytes.length
    match xor with
    | none =>
        if n.nocase then
          (positions start (min stop (last + 1))).foldl (fun out pos =>
            if needleHit data pos n 0 then
              record data origin fullword n 0 pos out
            else out) out
        else
          searchExact data stop origin fullword n (data.length + 1) start out
    | some (low, high) =>
        (positions start (min stop (last + 1))).foldl (fun out pos =>
          match (candidates data n low high pos).find? (needleHit data pos n)
          with
          | some key => record data origin fullword n key pos out
          | none => out) out

/-- The sub-pattern's occurrences, as `searchNeedle` finds a needle's. -/
def searchBase64 (data : Bytes) (start stop origin : Nat) (e : Base64Sub)
    (out : Collector) : Collector :=
  if e.searched = [] ∨ data.length < e.searched.length then out
  else
    let last := data.length - e.searched.length
    (positions start (min stop (last + 1))).foldl (fun out pos =>
      if occursAt data e.searched pos then
        match verifyBase64 e data pos with
        | some len => out.push (origin + pos) len
        | none => out
      else out) out

namespace PatternMatcher

/-- The matches starting at a position in `start..stop` of `data`. -/
def search (p : PatternMatcher) (data : Bytes) (start stop origin : Nat)
    (out : Collector) : Collector :=
  match p with
  | .literal l =>
      l.needles.foldl (fun out n =>
        searchNeedle data start stop origin l.fullword l.xor n out) out
  | .base64 entries =>
      entries.foldl (fun out e => searchBase64 data start stop origin e out) out

/-- How many bytes before a match it is checked against, and how many from it
on. -/
def reach : PatternMatcher → Nat × Nat
  | .literal l => (2, (l.needles.map (·.bytes.length)).foldl max 0 + 2)
  | .base64 entries =>
      (6, (entries.map fun e =>
        max e.searched.length
          (2 * (encodedLen e.pattern.length + 5))).foldl max 0)

end PatternMatcher

/-! ## Searching an object -/

/-- An object: its bytes, and what reading a window of them gives, which falls
short where it cannot be read. -/
structure ByteSource where
  data : Bytes
  window : Nat → Nat → Bytes
  held : Bool
  faithful : ∀ off len, window off len <+: Exav.window data off len

theorem window_faithful (data : Bytes) (off len : Nat) :
    Exav.window data off len <+: Exav.window data off len :=
  List.prefix_rfl

def ByteSource.len (src : ByteSource) : Nat :=
  src.data.length

/-- The object, when it is held in memory. -/
def ByteSource.asSlice (src : ByteSource) : Option Bytes :=
  if src.held then some src.data else none

structure Found where
  found : List Match
  complete : Bool

def Match.le (a b : Match) : Bool :=
  a.offset < b.offset || (a.offset == b.offset && a.len ≤ b.len)

/-- A list without the items that repeat the one before. -/
def dedup : List Match → List Match
  | [] => []
  | [m] => [m]
  | a :: b :: ms => if a = b then dedup (b :: ms) else a :: dedup (b :: ms)

/-- The matches collected, in order and each once. -/
def Collector.finish (out : Collector) (complete : Bool) : Found where
  found := dedup (out.out.mergeSort Match.le)
  complete := complete && !out.full

/-- The window read for the chunk at `base`: where it starts and ends. -/
def bounds (chunk before after len base : Nat) : Nat × Nat :=
  (base - before, min (min (base + chunk) len + after) len)

/-- Search the windows from `base` on for every pattern that is not full. -/
def windowedFrom (chunk before after : Nat) (pats : List PatternMatcher)
    (src : ByteSource) : (rounds base : Nat) → List Collector →
    Bool × List Collector
  | 0, _, outs => (true, outs)
  | rounds + 1, base, outs =>
      if base < src.len ∧ outs.any (!·.full) then
        let stop := min (base + chunk) src.len
        let (low, high) := bounds chunk before after src.len base
        let w := src.window low (high - low)
        if w.length ≠ high - low then (false, outs)
        else
          windowedFrom chunk before after pats src rounds stop
            (List.zipWith (fun p out =>
              if out.full then out
              else p.search w (base - low) (stop - low) low out) pats outs)
      else (true, outs)

def collectWindowed (chunk : Nat) (pats : List PatternMatcher)
    (src : ByteSource) : Bool × List Collector :=
  let (before, after) := (pats.map (·.reach)).foldl
    (fun (b, a) (pb, pa) => (max b pb, max a pa)) (0, 0)
  windowedFrom chunk before after pats src src.len 0
    (pats.map fun _ => Collector.new)

/-- Every match of several patterns, in one read of the object. -/
def findAllWindowed (chunk : Nat) (pats : List PatternMatcher)
    (src : ByteSource) : List Found :=
  let (complete, outs) := collectWindowed chunk pats src
  outs.map (·.finish complete)

/-- Search the windows from `base` on for one pattern. -/
def sourceFrom (chunk : Nat) (p : PatternMatcher) (src : ByteSource) :
    (rounds base : Nat) → Collector → Bool × Collector
  | 0, _, out => (true, out)
  | rounds + 1, base, out =>
      if base < src.len ∧ !out.full then
        let stop := min (base + chunk) src.len
        let (low, high) := bounds chunk p.reach.1 p.reach.2 src.len base
        let w := src.window low (high - low)
        if w.length ≠ high - low then (false, out)
        else
          sourceFrom chunk p src rounds stop
            (p.search w (base - low) (stop - low) low out)
      else (true, out)

def collect (chunk : Nat) (p : PatternMatcher) (src : ByteSource) :
    Bool × Collector :=
  match src.asSlice with
  | some data => (true, p.search data 0 data.length 0 .new)
  | none => sourceFrom chunk p src src.len 0 .new

def findAll (chunk : Nat) (p : PatternMatcher) (src : ByteSource) : Found :=
  let (complete, out) := collect chunk p src
  out.finish complete

end Exav.Yara
