import Exav.Icap.Wire

/-!
# Verdicts and decisions

What a scan reports of an object, what a partial verdict is turned into by
policy, and the engine's rule for an object over the input limit.
-/

namespace Exav.Icap

/-! ## Verdicts -/

/-- What a scan reports. -/
inductive Verdict where
  | clean
  | infected (signature : String)
  | limitsExceeded (reason : String)
  | unscannable (reason : String)
  | passwordProtected (reason : String)
  deriving DecidableEq

inductive VerdictCategory where
  | clean
  | infected
  | partialScan
  deriving DecidableEq

namespace Verdict

def category : Verdict → VerdictCategory
  | .clean => .clean
  | .infected _ => .infected
  | .limitsExceeded _ | .unscannable _ | .passwordProtected _ => .partialScan

def statusTag : Verdict → String
  | .clean => "OK"
  | .infected _ => "FOUND"
  | .limitsExceeded _ => "LIMITS-EXCEEDED"
  | .unscannable _ => "UNSCANNABLE"
  | .passwordProtected _ => "PASSWORD-PROTECTED"

def detail : Verdict → Option String
  | .clean => none
  | .infected signature => some signature
  | .limitsExceeded reason | .unscannable reason | .passwordProtected reason =>
      some reason

end Verdict

/-- What a scan that may fail or break gives. -/
inductive Scanned where
  | report (verdict : Verdict)
  | failed (e : String)
  | panicked
  deriving DecidableEq

/-- Whether a scan reports a detection. -/
def Scanned.detects : Scanned → Bool
  | .report verdict => verdict.category == .infected
  | _ => false

/-! ## Policy -/

inductive PartialStatus where
  | partialScan
  | ok
  | found
  | error
  deriving DecidableEq

/-- The policy for each partial condition. -/
structure PartialAs where
  limitsExceeded : PartialStatus
  unscannable : PartialStatus
  passwordProtected : PartialStatus
  deriving DecidableEq

/-- The policy for a status tag.  One that is not known blocks. -/
def PartialAs.forTag (policy : PartialAs) (tag : String) : PartialStatus :=
  if tag = "LIMITS-EXCEEDED" then policy.limitsExceeded
  else if tag = "UNSCANNABLE" then policy.unscannable
  else if tag = "PASSWORD-PROTECTED" then policy.passwordProtected
  else .partialScan

/-- A word of a tag, its first letter alone in upper case. -/
def capitalized : List Char → List Char
  | [] => []
  | first :: chars => first.toUpper :: chars.map Char.toLower

/-- The detection name a partial condition is reported under. -/
def heuristicName (tag : String) : String :=
  "Heuristics.Exav." ++
    String.ofList ((tag.toList.splitOn '-').flatMap capitalized)

/-! ## Decisions -/

/-- What the server decided to do with an object. -/
inductive Decision where
  | clean
  | infected (name : String)
  | partialScan (tag reason : String)
  | error (reason : String)
  deriving DecidableEq

namespace Decision

def fromReport (verdict : Verdict) : Decision :=
  match verdict.category with
  | .clean => .clean
  | .infected => .infected (verdict.detail.getD "unnamed signature")
  | .partialScan => .partialScan verdict.statusTag (verdict.detail.getD "")

def blocks (decision : Decision) : Bool :=
  decision != .clean

end Decision

def applyFoundPolicy (current : PartialAs) (decision : Decision) : Decision :=
  match decision with
  | .partialScan tag _ =>
      if current.forTag tag = .found then .infected (heuristicName tag)
      else decision
  | _ => decision

def Decision.decide (current : PartialAs) (scanned : Scanned) : Decision :=
  applyFoundPolicy current
    (match scanned with
    | .report verdict => .fromReport verdict
    | .failed e => .error ("scan failed: " ++ e)
    | .panicked => .error "scan failed (internal error)")

/-! ## The engine's scan -/

structure ScanOptions where
  maxScanSize : Option UInt64
  alertExceedsMax : Bool
  filename : Option Bytes
  deriving DecidableEq

/-- The scan of an input that is within the limit: of some bytes, under a size
they are said to have. -/
abbrev Engine := ScanOptions → Bytes → Nat → Scanned

def maxFileSizeReport (size max : Nat) (opts : ScanOptions) : Verdict :=
  if opts.alertExceedsMax then
    .infected "Heuristics.Limits.Exceeded.MaxFileSize"
  else
    .limitsExceeded ("file size " ++ toString size ++
      " exceeds max-input-bytes " ++ toString max ++ "; scanned first " ++
      toString max ++ " bytes only")

/-- What the engine says of the bytes of an input that are within the limit. -/
def bytesReport (engine : Engine) (opts : ScanOptions) (held : Bytes)
    (size : Nat) : Scanned :=
  match opts.maxScanSize with
  | none => engine opts held size
  | some max =>
      if max.toNat < size then engine opts (held.take max.toNat) max.toNat
      else engine opts held size

/-- Scan an input: past the limit, what is within it first. -/
def scanSeekable (engine : Engine) (opts : ScanOptions) (held : Bytes)
    (size : Nat) : Scanned :=
  match opts.maxScanSize with
  | none => engine opts held size
  | some max =>
      if max.toNat < size then
        match engine opts (held.take max.toNat) max.toNat with
        | .report head =>
            if head.category = .infected then .report head
            else .report (maxFileSizeReport size max.toNat opts)
        | broken => broken
      else engine opts held size

/-- What was held of a stream, and why it stops short where it does. -/
structure Held where
  payload : Bytes
  short : Option String
  deriving DecidableEq

/-- Scan what was held of a stream of `size` bytes. -/
def scanHeld (engine : Engine) (opts : ScanOptions) (held : Held)
    (size : Nat) : Scanned :=
  match held.short with
  | none => scanSeekable engine opts held.payload size
  | some why =>
      let kept := held.payload.length
      match scanSeekable engine opts held.payload kept with
      | .report verdict =>
          if verdict.category = .infected then .report verdict
          else .report (.limitsExceeded (why ++ "; scanned the first " ++
            toString kept ++ " bytes only"))
      | broken => broken

def FoundByPolicy (current : PartialAs) (scanned : Scanned) : Prop :=
  ∃ verdict, scanned = .report verdict ∧ verdict.category = .partialScan ∧
    current.forTag verdict.statusTag = .found

theorem decide_infected {current : PartialAs} {scanned : Scanned} :
    (∃ name, Decision.decide current scanned = .infected name) ↔
      scanned.detects = true ∨ FoundByPolicy current scanned := by
  cases scanned with
  | failed e =>
      simp [Decision.decide, applyFoundPolicy, Scanned.detects, FoundByPolicy]
  | panicked =>
      simp [Decision.decide, applyFoundPolicy, Scanned.detects, FoundByPolicy]
  | report verdict =>
      have detection : (∃ name, Decision.decide current
          (.report verdict) = .infected name) ↔
          verdict.category = .infected ∨
            (verdict.category = .partialScan ∧
              current.forTag verdict.statusTag = .found) := by
        cases verdict with
        | clean =>
            simp [Decision.decide, Decision.fromReport, Verdict.category,
              applyFoundPolicy]
        | infected signature =>
            simp [Decision.decide, Decision.fromReport, Verdict.category,
              applyFoundPolicy]
        | _ =>
            simp only [Decision.decide, Decision.fromReport, Verdict.category,
              applyFoundPolicy, Verdict.statusTag]
            split <;> simp_all
      rw [detection]
      simp [Scanned.detects, FoundByPolicy]

theorem decide_clean {current : PartialAs} {scanned : Scanned} :
    Decision.decide current scanned = .clean ↔ scanned = .report .clean := by
  cases scanned with
  | failed e => simp [Decision.decide, applyFoundPolicy]
  | panicked => simp [Decision.decide, applyFoundPolicy]
  | report verdict =>
      cases verdict with
      | clean =>
          simp [Decision.decide, Decision.fromReport, Verdict.category,
            applyFoundPolicy]
      | infected signature =>
          simp [Decision.decide, Decision.fromReport, Verdict.category,
            applyFoundPolicy]
      | _ =>
          simp only [Decision.decide, Decision.fromReport, Verdict.category,
            applyFoundPolicy]
          split <;> simp_all

/-- What policy calls a detection is none. -/
theorem FoundByPolicy.not_detects {current : PartialAs} {scanned : Scanned}
    (found : FoundByPolicy current scanned) : scanned.detects = false := by
  obtain ⟨verdict, rfl, category, -⟩ := found
  simp [Scanned.detects, category]

/-!
## Serving requests

A request is read, its object scanned, and one answer given.  The connection is
used again only when the answer does not close it.
-/

open Exav.Stream

/-! ## Settings -/

structure IcapConfig where
  services : List Bytes
  keepaliveRequests : Nat
  maxDrainBytes : Nat
  maxHeaderBytes : Nat
  partialAs : PartialAs

/-- Whether `name` is one of the configured service names. -/
def IcapConfig.serves (cfg : IcapConfig) (name : Bytes) : Bool :=
  cfg.services.contains name

/-- What a request is handled with: the settings, the policy in force, the
engine over its database, and the spill space of the object. -/
structure Env where
  cfg : IcapConfig
  opts : ScanOptions
  current : PartialAs
  engine : Engine
  spill : Spill

/-! ## Responses -/

/-- What a response says. -/
inductive Answer where
  | error (code : Nat)
  | options
  | block (decision : Decision)
  | noContent (noted : Decision)
  | echo (entity : Entity) (hdr : Bytes) (body : Option Bytes)
      (noted : Decision)
  deriving DecidableEq

structure Response where
  answer : Answer
  close : Bool
  deriving DecidableEq

def Response.closing (r : Response) : Response :=
  { r with close := true }

/-- What goes out to the client. -/
inductive Sent where
  | writeContinue
  | response (r : Response)
  deriving DecidableEq

def badRequest : Sent :=
  .response ⟨.error 400, true⟩

/-! ## Scanning -/

def requestTarget (reqHdr : Bytes) : Option Bytes :=
  let line := reqHdr.takeWhile (· != 10)
  match (line.splitOn 32).filter (· ≠ []) with
  | _ :: target :: _ =>
      some ((target.take 512).map fun b =>
        if 33 ≤ b ∧ b ≤ 126 then b else 95)
  | _ => none

def headerPart (enc : Encapsulated) (headers : Bytes) (entity : Entity) :
    Option Bytes :=
  (enc.span entity).map fun (start, stop) => window headers start (stop - start)

def namedOpts (opts : ScanOptions) (enc : Encapsulated) (headers : Bytes) :
    ScanOptions :=
  match (headerPart enc headers .reqHdr).bind requestTarget with
  | some name =>
      if opts.filename = none then { opts with filename := some name } else opts
  | none => opts

def scan (env : Env) (enc : Encapsulated) (headers : Bytes)
    (body : Option Held) (size : Nat) : Decision :=
  match body with
  | none => .clean
  | some held =>
      if size = 0 then .clean
      else .decide env.current
        (scanHeld env.engine (namedOpts env.opts enc headers) held size)

def scanPreview (env : Env) (enc : Encapsulated) (headers body : Bytes) :
    Scanned :=
  scanSeekable env.engine (namedOpts env.opts enc headers) body body.length

def scanBytes (env : Env) (enc : Encapsulated) (headers body : Bytes) :
    Decision :=
  if body = [] then .clean
  else .decide env.current (scanPreview env enc headers body)

theorem namedOpts_maxScanSize (opts : ScanOptions) (enc : Encapsulated)
    (headers : Bytes) :
    (namedOpts opts enc headers).maxScanSize = opts.maxScanSize := by
  unfold namedOpts
  split
  · split <;> rfl
  · rfl

/-- What is said of a head, where a detection in it goes before what is said of
the cut, is not that it is clean. -/
theorem head_notClean {head : Scanned} {cut : Verdict} (other : cut ≠ .clean) :
    (match head with
      | .report verdict =>
          if verdict.category = .infected then .report verdict else .report cut
      | broken => broken) ≠ Scanned.report .clean := by
  cases head with
  | failed e => nofun
  | panicked => nofun
  | report verdict =>
      dsimp only
      split
      · rename_i infected
        rintro ⟨rfl⟩
        cases infected
      · rintro ⟨rfl⟩
        exact other rfl

theorem scanSeekable_clean {engine : Engine} {opts : ScanOptions} {held : Bytes}
    {size : Nat} (clean : scanSeekable engine opts held size = .report .clean) :
    ∀ max, opts.maxScanSize = some max → size ≤ max.toNat := by
  intro max limited
  by_contra past
  have cut : maxFileSizeReport size max.toNat opts ≠ .clean := by
    unfold maxFileSizeReport
    split <;> nofun
  rw [scanSeekable, limited] at clean
  dsimp only at clean
  rw [if_pos (by omega)] at clean
  exact head_notClean cut clean

theorem scanHeld_clean {engine : Engine} {opts : ScanOptions} {held : Held}
    {size : Nat} (clean : scanHeld engine opts held size = .report .clean) :
    held.short = none ∧
      ∀ max, opts.maxScanSize = some max → size ≤ max.toNat := by
  unfold scanHeld at clean
  cases short : held.short with
  | some why =>
      rw [short] at clean
      exact absurd clean (head_notClean nofun)
  | none =>
      rw [short] at clean
      exact ⟨rfl, scanSeekable_clean clean⟩

/-! ## Receiving a message -/

/-- A message as it was received. -/
structure Transfer where
  headers : Bytes
  body : Option Held
  overLimit : Bool
  abandoned : Bool
  total : Nat
  continued : Bool
  source : Source UInt8

/-- What reading a message came to. -/
inductive Receipt where
  | malformed (continued : Bool)
  | early (decision : Decision) (source : Source UInt8)
  | whole (transfer : Transfer)

/-- The first reason an object could not be held. -/
def takeRejection (slot : Option String) (outcome : BodyOutcome) :
    Option String :=
  slot.or outcome.rejected

/-- Read an encapsulated body, keeping what the input limit allows. -/
def readBody (env : Env) (body : Body env.spill.threshold)
    (source : Source UInt8) :
    Except BodyError
      (BodyOutcome × Body env.spill.threshold × Source UInt8) :=
  readChunkedBody (env.opts.maxScanSize.map UInt64.toNat)
    env.cfg.maxDrainBytes env.spill body source

/-- Whether the client waits to be told to send the rest. -/
def awaitsContinue (preview : Option Nat) (outcome : BodyOutcome) : Bool :=
  preview.isSome && outcome.ending == .eof && !outcome.overLimit &&
    outcome.rejected.isNone

def receiveRest (env : Env) (headers : Bytes) (outcome : BodyOutcome)
    (body : Body env.spill.threshold) (source : Source UInt8) :
    Except IoError Receipt :=
  match readBody env body source with
  | .error (.io e) => .error e
  | .error (.malformed _) => .ok (.malformed true)
  | .ok (more, body, source) =>
      .ok (.whole {
        headers := headers
        body := some ⟨body.payload, takeRejection outcome.rejected more⟩
        overLimit := more.overLimit
        abandoned := more.abandoned
        total := saturatingAdd outcome.total more.total
        continued := true
        source := source })

/-- Read the body of a message: the preview, and the rest of it unless the
preview is already decisive. -/
def receiveBody (env : Env) (enc : Encapsulated) (preview : Option Nat)
    (headers : Bytes) (source : Source UInt8) : Except IoError Receipt :=
  match readBody env .new source with
  | .error (.io e) => .error e
  | .error (.malformed _) => .ok (.malformed false)
  | .ok (outcome, body, source) =>
      if awaitsContinue preview outcome then
        match scanBytes env enc headers body.head with
        | .infected name => .ok (.early (.infected name) source)
        | _ => receiveRest env headers outcome body source
      else
        .ok (.whole {
          headers := headers
          body := some ⟨body.payload, takeRejection none outcome⟩
          overLimit := outcome.overLimit
          abandoned := outcome.abandoned
          total := outcome.total
          continued := false
          source := source })

/-- Read an encapsulated message: the header block, then its body. -/
def receive (env : Env) (enc : Encapsulated) (preview : Option Nat)
    (source : Source UInt8) : Except IoError Receipt :=
  match readFull enc.headerBytes source with
  | (none, _) => .error .transport
  | (some headers, source) =>
      if headers.length < enc.headerBytes then .error .endedInsideHeaders
      else if enc.terminal.1.hasBody then
        receiveBody env enc preview headers source
      else
        .ok (.whole {
          headers := headers
          body := none
          overLimit := false
          abandoned := false
          total := 0
          continued := false
          source := source })

/-! ## Answering -/

/-- What the scan of a message decides. -/
def Transfer.decision (env : Env) (enc : Encapsulated) (transfer : Transfer) :
    Decision :=
  scan env enc transfer.headers transfer.body transfer.total

/-- Whether policy delivers an object that was not fully examined. -/
def passWanted (env : Env) : Decision → Bool
  | .partialScan tag _ => env.cfg.partialAs.forTag tag == .ok
  | _ => false

def echoEntity (enc : Encapsulated) : Entity :=
  if (enc.span .resHdr).isSome then .resHdr else .reqHdr

/-- The answer to a message that was received. -/
def respond (env : Env) (req : RequestHead) (enc : Encapsulated)
    (transfer : Transfer) : Response :=
  let decision := transfer.decision env enc
  let passing := passWanted env decision &&
    (!transfer.overLimit || req.allow204)
  if decision.blocks && !passing then
    -- The client still has bytes to send that nothing will read.
    ⟨.block decision, transfer.abandoned⟩
  else if req.allow204 then ⟨.noContent decision, transfer.abandoned⟩
  else
    let entity := echoEntity enc
    let hdr := (headerPart enc transfer.headers entity).getD []
    ⟨.echo entity hdr (transfer.body.map Held.payload) decision, false⟩

/-- The interim answer, where one went out. -/
def interim (continued : Bool) : List Sent :=
  if continued then [.writeContinue] else []

/-- Read a message, scan it, and build the answer.  There is none when it has
already gone out and the connection must close. -/
def modify (env : Env) (req : RequestHead) (source : Source UInt8) :
    Except IoError (Option (Response × Source UInt8) × List Sent) :=
  match req.encapsulated env.cfg.maxHeaderBytes with
  | .error _ => .ok (none, [badRequest])
  | .ok enc =>
      match req.preview with
      | .error _ => .ok (none, [badRequest])
      | .ok preview => do
          match ← receive env enc preview source with
          | .malformed continued =>
              .ok (none, interim continued ++ [badRequest])
          | .early decision source =>
              .ok (some (⟨.block decision, false⟩, source), [])
          | .whole transfer =>
              .ok (some (respond env req enc transfer, transfer.source),
                interim transfer.continued)

/-- How a request left its connection. -/
inductive Served where
  | keepAlive (sent : List Sent) (source : Source UInt8)
  | close (sent : List Sent)
  deriving DecidableEq

def answerMethod (env : Env) (req : RequestHead) (source : Source UInt8) :
    Except IoError (Option (Response × Source UInt8) × List Sent) :=
  match req.method with
  | .options => .ok (some (⟨.options, false⟩, source), [])
  | .reqMod | .respMod => modify env req source
  | .other _ => .ok (some (⟨.error 405, true⟩, source), [])

def handleRequest (env : Env) (source : Source UInt8) :
    Except IoError Served := do
  let (head, source) ← readHead env.cfg.maxHeaderBytes source
  match head with
  | none => .ok (.close [])
  | some head =>
      match RequestHead.parse head with
      | .error _ => .ok (.close [badRequest])
      | .ok req =>
          if env.cfg.serves req.service then do
            let (answer, sent) ← answerMethod env req source
            match answer with
            | none => .ok (.close sent)
            | some (r, source) =>
                let r := if req.wantsClose then r.closing else r
                let sent := sent ++ [.response r]
                .ok (if r.close then .close sent else .keepAlive sent source)
          else .ok (.close [.response ⟨.error 404, true⟩])

end Exav.Icap
