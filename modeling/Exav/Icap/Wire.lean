import Exav.Icap.Framing

/-!
# Request heads

The request line, the headers and the `Encapsulated` offset list of an ICAP
request.  An offset list that is accepted ends in an entity that says whether a
chunked body follows, and its offset is the size of the header block.
-/

namespace Exav.Icap

open Exav.Stream

def usizeMax : Nat := 2 ^ 64 - 1

/-- Why a request could not be understood. -/
abbrev ParseError := String

/-- The ICAP methods, and anything else a client sends. -/
inductive IcapMethod where
  | options
  | reqMod
  | respMod
  | other (name : Bytes)
  deriving DecidableEq

def IcapMethod.parse (name : Bytes) : IcapMethod :=
  if name = text "OPTIONS" then .options
  else if name = text "REQMOD" then .reqMod
  else if name = text "RESPMOD" then .respMod
  else .other name

structure RequestHead where
  method : IcapMethod
  service : Bytes
  headers : List (Bytes × Bytes)
  deriving DecidableEq

/-! ## Reading a head -/

def maxLine : Nat := 16 * 1024

def isBlankLine (line : Bytes) : Bool :=
  line == [13, 10] || line == [10]

/-- Read lines to the blank one that ends the head.  Every line takes a byte of
the ceiling, so there are no more rounds than it has. -/
def readHeadFrom (max : Nat) : (rounds : Nat) → (head : Bytes) →
    (skipped : Nat) → Source UInt8 →
    Except IoError (Option Bytes × Source UInt8)
  | 0, _, _, _ => .error .headTooLong
  | rounds + 1, head, skipped, source =>
      let remaining := max - (head.length + skipped)
      if remaining = 0 then .error .headTooLong
      else do
        let (line, source) ← readLine (min remaining maxLine) source
        match line with
        | none =>
            if head = [] then .ok (none, source) else .error .endedInsideHead
        | some line =>
            -- A stray line end before the request line is tolerated.
            if isBlankLine line ∧ head = [] then
              readHeadFrom max rounds head (skipped + line.length) source
            else if isBlankLine line then .ok (some (head ++ line), source)
            else readHeadFrom max rounds (head ++ line) skipped source

/-- Read one head up to and with its blank line, or `none` at a clean end. -/
def readHead (max : Nat) (source : Source UInt8) :
    Except IoError (Option Bytes × Source UInt8) :=
  readHeadFrom max (max + 1) [] 0 source

/-! ## Parsing a head -/

/-- Whitespace, of the characters ASCII has. -/
def isWhitespace (b : UInt8) : Bool :=
  b == 32 || (9 ≤ b && b ≤ 13)

def trim : Bytes → Bytes :=
  trimBy isWhitespace

def isAsciiDigit (b : UInt8) : Bool :=
  48 ≤ b && b ≤ 57

/-- The number written by decimal digits, when it fits. -/
def parseDigits (digits : Bytes) : Option Nat :=
  let n := digits.foldl (fun n b => n * 10 + (b.toNat - 48)) 0
  if n ≤ usizeMax then some n else none

/-- An unsigned number, which may have a sign before it. -/
def parseUsize (value : Bytes) : Option Nat :=
  let digits := if value.head? = some 43 then value.tail else value
  if digits ≠ [] ∧ digits.all isAsciiDigit then parseDigits digits else none

def parseRequestLine (line : Bytes) : Except ParseError (Bytes × Bytes) :=
  match (line.splitOn 32).filter (· ≠ []) with
  | [] => .error "empty request line"
  | [_] => .error "request line has no URI"
  | [_, _] => .error "request line has no version"
  | [method, uri, version] =>
      if (text "ICAP/").isPrefixOf version then .ok (method, uri)
      else .error "not an ICAP request"
  | _ => .error "request line has trailing garbage"

def parseHeader (line : Bytes) : Except ParseError (Bytes × Bytes) :=
  if line.head? = some 32 ∨ line.head? = some 9 then
    .error "folded header line"
  else
    match splitOnce 58 line with
    | none => .error "header line without a colon"
    | some (name, value) =>
        if name = [] ∨ name.any isWhitespace then
          .error "malformed header name"
        else .ok (name, trim value)

def parseHeaders : List Bytes → Except ParseError (List (Bytes × Bytes))
  | [] => .ok []
  | line :: lines =>
      if line = [] then .ok []
      else do
        let header ← parseHeader line
        let headers ← parseHeaders lines
        .ok (header :: headers)

def trimEnd (b : UInt8) (bytes : Bytes) : Bytes :=
  (bytes.reverse.dropWhile (· == b)).reverse

/-- What follows the authority of an absolute URI, or the path's slash. -/
def uriPath (uri : Bytes) : Bytes :=
  match find uri (text "://") 0 uri.length with
  | some i =>
      match splitOnce 47 (uri.drop (i + 3)) with
      | some (_, path) => path
      | none => []
  | none => if uri.head? = some 47 then uri.tail else uri

/-- The service a request names: its path, less a query. -/
def serviceFromUri (uri : Bytes) : Bytes :=
  trimEnd 47 ((uriPath uri).takeWhile fun b => b != 63 && b != 35)

/-- A line less the carriage return before its end. -/
def stripReturn (line : Bytes) : Bytes :=
  if line.getLast? = some 13 then line.dropLast else line

namespace RequestHead

def parse (head : Bytes) : Except ParseError RequestHead :=
  if head.all (· < 128) then
    match (head.splitOn 10).map stripReturn with
    | [] => .error "empty head"
    | requestLine :: lines => do
        let (method, uri) ← parseRequestLine requestLine
        let headers ← parseHeaders lines
        .ok ⟨.parse method, serviceFromUri uri, headers⟩
  else if ByteArray.validateUTF8 ⟨head.toArray⟩ then
    .error "head contains non-ASCII bytes"
  else .error "head is not valid UTF-8"

variable (req : RequestHead)

def headerAll (name : String) : List Bytes :=
  (req.headers.filter fun h => eqIgnoreAsciiCase h.1 (text name)).map Prod.snd

def header (name : String) : Option Bytes :=
  (req.headerAll name).head?

/-- Whether the client accepts an answer with no content. -/
def allow204 : Bool :=
  (req.headerAll "Allow").any fun value =>
    (value.splitOn 44).any fun t => trim t == text "204"

def wantsClose : Bool :=
  match req.header "Connection" with
  | none => false
  | some value =>
      (value.splitOn 44).any fun t => eqIgnoreAsciiCase (trim t) (text "close")

def preview : Except ParseError (Option Nat) :=
  match req.header "Preview" with
  | none => .ok none
  | some value =>
      match parseUsize value with
      | some size => .ok (some size)
      | none => .error "malformed Preview header"

end RequestHead

/-! ## The offset list -/

/-- One entry of the list. -/
inductive Entity where
  | reqHdr
  | reqBody
  | resHdr
  | resBody
  | optBody
  | nullBody
  deriving DecidableEq

namespace Entity

def parse (name : Bytes) : Option Entity :=
  if name = text "req-hdr" then some .reqHdr
  else if name = text "req-body" then some .reqBody
  else if name = text "res-hdr" then some .resHdr
  else if name = text "res-body" then some .resBody
  else if name = text "opt-body" then some .optBody
  else if name = text "null-body" then some .nullBody
  else none

/-- Whether this entity ends the list. -/
def isTerminal : Entity → Bool
  | .reqBody | .resBody | .optBody | .nullBody => true
  | .reqHdr | .resHdr => false

/-- Whether a chunked body follows the headers. -/
def hasBody : Entity → Bool
  | .reqBody | .resBody | .optBody => true
  | .reqHdr | .resHdr | .nullBody => false

end Entity

/-- A validated offset list. -/
structure Encapsulated where
  parts : List (Entity × Nat)
  ended : ∃ last, parts.getLast? = some last ∧ last.1.isTerminal = true
  deriving DecidableEq

namespace Encapsulated

/-- One entry of the header's value. -/
def parseItem (item : Bytes) : Except ParseError (Entity × Nat) :=
  let item := trim item
  if item = [] then .error "empty Encapsulated entry"
  else
    match splitOnce 61 item with
    | none => .error "Encapsulated entry without an offset"
    | some (name, offset) =>
        match Entity.parse (trim name) with
        | none => .error "unknown Encapsulated entity"
        | some entity =>
            let offset := trim offset
            if offset = [] ∨ !offset.all isAsciiDigit then
              .error "Encapsulated offset is not a decimal number"
            else
              match parseDigits offset with
              | none => .error "Encapsulated offset out of range"
              | some offset => .ok (entity, offset)

/-- Check an entry against those before it. -/
def checkItem (maxHeaderBytes : Nat) (parts : List (Entity × Nat))
    (part : Entity × Nat) : Except ParseError (List (Entity × Nat)) :=
  if parts.any fun p => p.1 == part.1 then
    .error "duplicate Encapsulated entity"
  else
    match parts.getLast? with
    | some previous =>
        if previous.1.isTerminal then
          .error "Encapsulated entity after the body entity"
        else if part.2 < previous.2 then
          .error "Encapsulated offsets are not ascending"
        else if maxHeaderBytes < part.2 then
          .error "Encapsulated offset exceeds the header ceiling"
        else .ok (parts ++ [part])
    | none =>
        if maxHeaderBytes < part.2 then
          .error "Encapsulated offset exceeds the header ceiling"
        else .ok (parts ++ [part])

def parse (value : Bytes) (maxHeaderBytes : Nat) :
    Except ParseError Encapsulated := do
  let parts ← (value.splitOn 44).foldlM (fun parts item => do
    checkItem maxHeaderBytes parts (← parseItem item)) []
  match last : parts.getLast? with
  | none => .error "empty Encapsulated header"
  | some part =>
      if terminal : part.1.isTerminal then
        .ok ⟨parts, part, last, terminal⟩
      else .error "Encapsulated list has no body or null-body"

def terminal (enc : Encapsulated) : Entity × Nat :=
  enc.parts.getLast (by
    intro empty
    obtain ⟨last, found, -⟩ := enc.ended
    simp [empty] at found)

def headerBytes (enc : Encapsulated) : Nat :=
  enc.terminal.2

/-- Where an entity lies in the header block, when the list has it. -/
def span (enc : Encapsulated) (entity : Entity) : Option (Nat × Nat) :=
  let i := enc.parts.findIdx fun p => p.1 == entity
  match enc.parts[i]? with
  | none => none
  | some part =>
      some (part.2, ((enc.parts[i + 1]?).map Prod.snd).getD part.2)

end Encapsulated

/-- The offset list a request carries. -/
def RequestHead.encapsulated (req : RequestHead) (maxHeaderBytes : Nat) :
    Except ParseError Encapsulated :=
  match req.headerAll "Encapsulated" with
  | [] => .error "missing Encapsulated header"
  | [value] => Encapsulated.parse value maxHeaderBytes
  | _ => .error "duplicate Encapsulated header"

/-! ## What the bytes say -/

/-- The head a request starts with, and what follows it. -/
def splitHeadFrom : (rounds : Nat) → (head bytes : Bytes) →
    Option (Bytes × Bytes)
  | 0, _, _ => none
  | rounds + 1, head, bytes => do
      let (line, bytes) ← splitLine bytes
      if isBlankLine line ∧ head = [] then splitHeadFrom rounds head bytes
      else if isBlankLine line then some (head ++ line, bytes)
      else splitHeadFrom rounds (head ++ line) bytes

def splitHead (max : Nat) (bytes : Bytes) : Option (Bytes × Bytes) :=
  splitHeadFrom (max + 1) [] bytes

theorem readHead_split {max : Nat} {source left : Source UInt8} {head : Bytes}
    (read : readHead max source = .ok (some head, left)) :
    splitHead max (rest source) = some (head, rest left) := by
  unfold readHead at read
  unfold splitHead
  generalize max + 1 = rounds at read ⊢
  generalize ([] : Bytes) = before at read ⊢
  generalize (0 : Nat) = skipped at read
  induction rounds generalizing before skipped source with
  | zero => simp [readHeadFrom] at read
  | succ rounds ih =>
      unfold readHeadFrom at read
      dsimp only at read
      split at read
      · cases read
      · obtain ⟨⟨line, after⟩, lineRead, next⟩ := ok_of_bind read
        cases line with
        | none =>
            simp only at next
            split at next <;> cases next
        | some line =>
            have split := readLine_some lineRead
            simp only [splitHeadFrom, split, Option.bind_eq_bind,
              Option.bind_some]
            by_cases stray : isBlankLine line = true ∧ before = []
            · simp only [if_pos stray] at next ⊢
              exact ih before _ next
            · simp only [if_neg stray] at next ⊢
              by_cases blank : isBlankLine line = true
              · simp only [blank, if_true, Except.ok.injEq, Prod.mk.injEq,
                  Option.some.injEq] at next ⊢
                exact ⟨next.1, by rw [next.2]⟩
              · simp only [if_neg blank] at next ⊢
                exact ih _ _ next

end Exav.Icap
