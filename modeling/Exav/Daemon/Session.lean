import Exav.Daemon.Instream
import Exav.Icap.Policy
import Exav.Text

/-!
# The stream commands

`INSTREAM` and `EXINSTREAM` hold one stream, drain what was not held and answer
for it.  `EXINSTREAM MULTI` does so for one file after another until the request
ends, stops short or is refused.
-/

namespace Exav.Daemon

open Exav.Stream Exav.Icap

/-! ## Replies -/

/-- The verdict fields of a structured reply. -/
inductive Fields where
  | ok
  | found (signature : String) (location : Option String)
  | partialScan (status category : String) (reason : Option String)
  | error (reason : String)
  deriving DecidableEq

def Fields.status : Fields → String
  | .ok => "OK"
  | .found _ _ => "FOUND"
  | .partialScan status _ _ => status
  | .error _ => "ERROR"

/-- One entry of a reply about several files. -/
structure Entry where
  name : String
  fields : Fields
  set : Option String
  deriving DecidableEq

inductive Reply where
  | line (text : String)
  | json (fields : Fields)
  | files (entries : List Entry) (truncated : Bool)
  deriving DecidableEq

def applyPolicy (current : PartialAs) (verdict : Verdict) : Verdict :=
  if verdict.category = .partialScan then
    match current.forTag verdict.statusTag with
    | .partialScan | .error => verdict
    | .ok => .clean
    | .found => .infected (heuristicName verdict.statusTag)
  else verdict

def verdictLine (current : PartialAs) (target : String) (verdict : Verdict) :
    String :=
  let verdict := applyPolicy current verdict
  let detail := verdict.detail.getD ""
  match verdict.category with
  | .infected => target ++ ": " ++ detail ++ " FOUND"
  | .clean => target ++ ": OK"
  | .partialScan =>
      if current.forTag verdict.statusTag = .error then
        target ++ ": " ++ detail ++ " ERROR"
      else target ++ ": " ++ detail ++ " " ++ verdict.statusTag ++ " ERROR"

def verdictFields (current : PartialAs) (verdict : Verdict)
    (location : Option String) : Fields :=
  let verdict := applyPolicy current verdict
  match verdict.category with
  | .clean => .ok
  | .infected => .found (verdict.detail.getD "") location
  | .partialScan =>
      .partialScan
        (if current.forTag verdict.statusTag = .error then "ERROR"
        else "PARTIAL")
        verdict.statusTag verdict.detail

def streamCut : String := "stream ended before its terminator"

def ReadError.describe : ReadError → String
  | .transport => "transport error"
  | .spill => "spill error"

/-! ## What a command is run with -/

/-- A set of files that was rejoined, as a verdict about one of them. -/
structure Joined where
  name : String
  verdict : Verdict
  set : String

/-- What one command is run with.  The streams of a command share the spill
budgets, and what the budgets answer depends on the other connections; the
engine's second look at files sent together is a parameter, as is what a command
that reads no stream replies. -/
structure Env where
  opts : ScanOptions
  current : PartialAs
  engine : Engine
  locate : Bytes → Nat → Option String
  spill : Nat → Spill
  pieces : Nat → Nat → Nat
  rejoin : List String → List (Option Bytes) → List Joined
  answer : List Char → List String
  shutdown : Bool
  takeFd : Source UInt8 → Option Bytes × Source UInt8
  writes : Bool

def Env.scanHeld (env : Env) (held : Held) (size : Nat) : Scanned :=
  Icap.scanHeld env.engine env.opts ⟨held.payload.bytes, held.short⟩ size

def Env.newStream (env : Env) (source : Source UInt8) : Instream :=
  .new source env.opts.maxScanSize

/-- Where a command leaves the reader: after its streams, in a stream whose
drain stopped at its cap, in a request that was refused, or where a read
failed. -/
inductive Ending where
  | reached
  | atCap
  | refused
  | failed
  deriving DecidableEq

/-- What a drain says of where the reader is. -/
def Ending.ofDrain : Option Bool → Ending
  | some true => .reached
  | some false => .atCap
  | none => .failed

structure Served where
  replies : List Reply
  ending : Ending

/-- What a command replies, or none when the connection is closed instead. -/
abbrev Outcome := Option Served × Source UInt8

/-! ## One stream -/

def instream (env : Env) (source : Source UInt8) : Outcome :=
  match bufferToSeekable (env.spill 0) (env.pieces 0) (env.newStream source) with
  | (.error _, stream) => (none, stream.inner)
  | (.ok held, stream) =>
      match stream.drain with
      | (none, stream) => (none, stream.inner)
      | (some ended, stream) =>
          let ending := Ending.ofDrain (some ended)
          if stream.truncated then
            (some ⟨[.line ("stream: " ++ streamCut ++ " ERROR")], ending⟩,
              stream.inner)
          else
            match env.scanHeld held stream.total with
            | .report verdict =>
                (some ⟨[.line (verdictLine env.current "stream" verdict)],
                  ending⟩, stream.inner)
            | .failed _ | .panicked => (none, stream.inner)

def jsonError (message : String) : Reply :=
  .json (.error message)

/-- The reply to a stream that could not be held.  What is left of it is
drained as far as that goes; a failure only leaves the reader where it is. -/
def readFailed (e : ReadError) (stream : Instream) : Outcome :=
  match stream.drain with
  | (ended, stream) =>
      let ending := match e with
        | .transport => .failed
        | .spill => Ending.ofDrain ended
      (some ⟨[jsonError ("stream read error: " ++ e.describe)], ending⟩,
        stream.inner)

def exinstream (env : Env) (source : Source UInt8) : Outcome :=
  match bufferToSeekable (env.spill 0) (env.pieces 0) (env.newStream source) with
  | (.error e, stream) => readFailed e stream
  | (.ok held, stream) =>
      match stream.drain with
      | (none, stream) => (none, stream.inner)
      | (some ended, stream) =>
          let ending := Ending.ofDrain (some ended)
          if stream.truncated then
            (some ⟨[jsonError streamCut], ending⟩, stream.inner)
          else
            match env.scanHeld held stream.total with
            | .report verdict =>
                (some ⟨[.json (verdictFields env.current verdict
                  (env.locate held.payload.bytes stream.total))], ending⟩,
                  stream.inner)
            | .failed e =>
                (some ⟨[jsonError ("scan error: " ++ e)], ending⟩, stream.inner)
            | .panicked => (none, stream.inner)

/-! ## Several files -/

def maxStreamName : Nat := 4096
def maxStreamFiles : Nat := 1024
def maxStreamRequestRam : Nat := 256 * 1024 * 1024
def maxStreamRequestSpill : Nat := 8 * 1024 * 1024 * 1024

structure Request where
  names : List String
  payloads : List (Option Bytes)
  entries : List Entry
  heldRam : Nat
  heldSpill : Nat

namespace Request

def empty : Request := ⟨[], [], [], 0, 0⟩

/-- The request with one more file.  Only a whole file can be a part of a
rejoined set. -/
def push (request : Request) (name : String) (fields : Fields) (held : Held)
    (total : Nat) : Request where
  names := request.names ++ [name]
  payloads := request.payloads ++
    [if held.short = none ∧ held.payload.len = total then
      some held.payload.bytes else none]
  entries := request.entries ++ [⟨name, fields, none⟩]
  heldRam := match held.payload with
    | .mem bytes => request.heldRam + bytes.length
    | .disk _ => request.heldRam
  heldSpill := match held.payload with
    | .mem _ => request.heldSpill
    | .disk bytes => request.heldSpill + bytes.length

def tooLarge (request : Request) : Bool :=
  maxStreamRequestRam < request.heldRam ||
    maxStreamRequestSpill < request.heldSpill

end Request

/-- The verdict of a rejoined set put on the file it names.  It replaces that
file's `OK`, and a detection also replaces a partial verdict. -/
def applyJoined (env : Env) (names : List String) (entries : List Entry)
    (joined : Joined) : List Entry :=
  let i := names.idxOf joined.name
  match entries[i]? with
  | none => entries
  | some entry =>
      let found := joined.verdict.category = .infected
      let own := entry.fields.status
      if own ≠ "OK" ∧ ¬ (found ∧ own ≠ "FOUND") then entries
      else entries.set i ⟨joined.name,
        verdictFields env.current joined.verdict none, some joined.set⟩

def Request.reply (env : Env) (request : Request) (truncated : Bool) : Reply :=
  .files ((env.rejoin request.names request.payloads).foldl
    (applyJoined env request.names) request.entries) truncated

inductive FileHead where
  | finished
  | cut
  | tooLong
  | failed
  | name (length : Nat)

def readFileHead (source : Source UInt8) : FileHead × Source UInt8 :=
  match readFull 4 source with
  | (none, source) => (.failed, source)
  | (some len, source) =>
      if len.length < 4 then (.cut, source)
      else
        let n := fromBeBytes len
        if n = 0 then (.finished, source)
        else if maxStreamName < n then (.tooLong, source)
        else (.name n, source)

def fileFields (env : Env) (held : Held) (stream : Instream) : Option Fields :=
  if stream.truncated then some (.error streamCut)
  else
    match env.scanHeld held stream.total with
    | .report verdict =>
        some (verdictFields env.current verdict
          (env.locate held.payload.bytes stream.total))
    | .failed e => some (.error ("scan error: " ++ e))
    | .panicked => none

def requestTooLarge : String :=
  "request too large: the files sent together exceed what one request may hold"

/-- What reading one file came to: the outcome of the whole command, or the
request to go on with. -/
inductive FileRead where
  | finished (served : Option Served)
  | more (request : Request)

/-- Read one file of a request under a name of `length` bytes. -/
def readFile (env : Env) (request : Request) (length : Nat)
    (source : Source UInt8) : FileRead × Source UInt8 :=
  match readFull length source with
  | (none, source) => (.finished none, source)
  | (some raw, source) =>
      if raw.length < length then
        (.finished (some ⟨[request.reply env true], .reached⟩), source)
      else
        let k := request.names.length
        match bufferToSeekable (env.spill k) (env.pieces k)
            (env.newStream source) with
        | (.error e, stream) =>
            let (served, source) := readFailed e stream
            (.finished (served.map fun s => { s with ending :=
              if s.ending = .reached then .refused else s.ending }), source)
        | (.ok held, stream) =>
            match stream.drain with
            | (none, stream) => (.finished none, stream.inner)
            | (some ended, stream) =>
                match fileFields env held stream with
                | none => (.finished none, stream.inner)
                | some fields =>
                    let request := request.push (fromUtf8Lossy raw) fields held
                      stream.total
                    if !ended || stream.truncated then
                      (.finished (some ⟨[request.reply env true],
                        .ofDrain (some ended)⟩), stream.inner)
                    else if request.tooLarge then
                      (.finished (some ⟨[jsonError requestTooLarge], .refused⟩),
                        stream.inner)
                    else (.more request, stream.inner)

/-- Read the files of a request, of which `room` more are accepted. -/
def multiFrom (env : Env) : (room : Nat) → Request → Source UInt8 → Outcome
  | room, request, source =>
      match readFileHead source with
      | (.failed, source) => (none, source)
      | (.cut, source) => (some ⟨[request.reply env true], .reached⟩, source)
      | (.finished, source) =>
          (some ⟨[request.reply env false], .reached⟩, source)
      | (.tooLong, source) =>
          (some ⟨[jsonError "filename too long"], .refused⟩, source)
      | (.name length, source) =>
          match room with
          | 0 =>
              (some ⟨[jsonError "too many files in one request"], .refused⟩,
                source)
          | room + 1 =>
              match readFile env request length source with
              | (.finished served, source) => (served, source)
              | (.more request, source) => multiFrom env room request source

def exinstreamMulti (env : Env) (source : Source UInt8) : Outcome :=
  multiFrom env maxStreamFiles .empty source

/-!
## Sessions

A command is a line under its own terminator.  The first one opens a session or
is the only one; in a session commands are read and answered one after another
until `END`, the end of the stream or a command that closes the connection.
-/

/-! ## Command lines -/

inductive Delim where
  | newline
  | null
  deriving DecidableEq

def Delim.byte : Delim → UInt8
  | .newline => 10
  | .null => 0

def maxCommand : Nat := 64 * 1024

/-- A line without its terminator and a carriage return before it. -/
def stripLine (delim : Delim) (line : Bytes) : Bytes :=
  let line := if line.getLast? = some delim.byte then line.dropLast else line
  if line.getLast? = some 13 then line.dropLast else line

def delimOf (first : UInt8) : Delim × Bytes :=
  if first = 122 then (.null, [])
  else if first = 110 then (.newline, [])
  else (.newline, [first])

inductive CommandRead where
  | closed
  | invalid
  | command (text : List Char) (delim : Delim)
  deriving DecidableEq

def readCommand (source : Source UInt8) : CommandRead × Source UInt8 :=
  match readFull 1 source with
  | (none, source) => (.invalid, source)
  | (some [], source) => (.closed, source)
  | (some (first :: _), source) =>
      let (delim, held) := delimOf first
      match readThrough delim.byte maxCommand held source with
      | (.found line, source) | (.ended line, source) =>
          match fromUtf8 (stripLine delim line) with
          | some text => (.command text delim, source)
          | none => (.invalid, source)
      | (.overlong _, source) | (.fault, source) => (.invalid, source)

/-! ## Commands -/

def isWhitespace (c : Char) : Bool :=
  let n := c.toNat
  (9 ≤ n && n ≤ 13) || n == 0x20 || n == 0x85 || n == 0xA0 || n == 0x1680 ||
    (0x2000 ≤ n && n ≤ 0x200A) || n == 0x2028 || n == 0x2029 || n == 0x202F ||
    n == 0x205F || n == 0x3000

def trim (text : List Char) : List Char :=
  ((text.dropWhile isWhitespace).reverse.dropWhile isWhitespace).reverse

def commandWord (text : List Char) : List Char :=
  text.takeWhile fun c => !isWhitespace c

def argument (text : List Char) : List Char :=
  trim (text.drop (commandWord text).length)

def isWord (word : List Char) (verb : String) : Bool :=
  word.map Char.toUpper == verb.toList

/-- What a trimmed command asks for. -/
inductive Verb where
  | done
  | blank
  | fildes
  | reload
  | shutdown
  | instream
  | exinstream
  | exinstreamMulti
  | other
  deriving DecidableEq

def verbOf (text : List Char) : Verb :=
  let word := commandWord text
  if isWord word "END" then .done
  else if text = [] then .blank
  else if isWord word "FILDES" then .fildes
  else if isWord word "RELOAD" then .reload
  else if isWord word "SHUTDOWN" || isWord word "QUIT" then .shutdown
  else if isWord word "INSTREAM" then .instream
  else if isWord word "EXINSTREAM" then
    if isWord (argument text) "MULTI" then .exinstreamMulti else .exinstream
  else .other

/-- The reply to a descriptor sent along. -/
def fildes (env : Env) (source : Source UInt8) : Outcome :=
  match env.takeFd source with
  | (none, source) =>
      (some ⟨[.line "FILDES: no file descriptor received ERROR"], .reached⟩,
        source)
  | (some content, source) =>
      let reply := match scanSeekable env.engine env.opts content
          content.length with
        | .report verdict => verdictLine env.current "fd" verdict
        | .failed e => "fd: " ++ e ++ " ERROR"
        | .panicked => "fd: internal error while scanning ERROR"
      (some ⟨[.line reply], .reached⟩, source)

def runCommand (env : Env) (text : List Char) (source : Source UInt8) :
    Outcome :=
  match verbOf text with
  | .fildes => fildes env source
  | .reload => (some ⟨[.line "RELOADING"], .reached⟩, source)
  | .shutdown =>
      (some ⟨if env.shutdown then []
        else [.line "SHUTDOWN: command disabled ERROR"], .reached⟩, source)
  | .instream => instream env source
  | .exinstream => exinstream env source
  | .exinstreamMulti => exinstreamMulti env source
  | .done | .blank | .other =>
      (some ⟨(env.answer text).map .line, .reached⟩, source)

/-! ## Connections -/

/-- A command that was answered, and where the reader stands then. -/
structure Exchange where
  id : Option Nat
  text : List Char
  delim : Delim
  served : Served
  source : Source UInt8

/-- The commands a session answers in its first rounds.  A round whose command
is empty is none. -/
def session (env : Nat → Env) (tagged : Bool) : (rounds n : Nat) →
    Source UInt8 → List Exchange
  | 0, _, _ => []
  | rounds + 1, n, source =>
      match readCommand source with
      | (.closed, _) | (.invalid, _) => []
      | (.command line delim, source) =>
          let text := trim line
          match verbOf text with
          | .done => []
          | .blank => session env tagged rounds n source
          | _ =>
              match runCommand (env n) text source with
              | (none, _) => []
              | (some served, source) =>
                  if (env n).writes then
                    ⟨if tagged then some (n + 1) else none, text, delim, served,
                      source⟩ :: session env tagged rounds (n + 1) source
                  else []

def opensSession (text : List Char) : Option Bool :=
  let word := commandWord text
  if isWord word "IDSESSION" then some true
  else if isWord word "SESSION" then some false
  else none

/-- The commands a connection answers, those of a session in its first
rounds. -/
def handleConn (env : Nat → Env) (rounds : Nat) (source : Source UInt8) :
    List Exchange :=
  match readCommand source with
  | (.closed, _) | (.invalid, _) => []
  | (.command line delim, source) =>
      let text := trim line
      match opensSession text with
      | some tagged => session env tagged rounds 0 source
      | none =>
          match verbOf text with
          | .done | .blank => []
          | _ =>
              match runCommand (env 0) text source with
              | (none, _) => []
              | (some served, source) =>
                  if (env 0).writes then [⟨none, text, delim, served, source⟩]
                  else []

end Exav.Daemon
