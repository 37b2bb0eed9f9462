import Exav.Unpack.EmitStream
import Exav.Unpack.Volume
import Exav.Walk.Spill

/-!
# What the parts of an object report

A detection goes to the sink, which says whether the walk ends there.  What
does not end a walk (a member encrypted, undecodable, or cut short by a limit)
is noted on its container's tally, and the tally decides the verdict once every
member has been seen.
-/

namespace Exav.Walk

open Exav.Unpack

/-- How a detection was made. -/
inductive Method where
  | pattern
  | hash
  | heuristic
  deriving DecidableEq

inductive DeepOutcome where
  | clean
  | infected (signature : String) (offset : Nat) (method : Method)
  | limits (reason : String)
  | unscannable (reason : String)
  | passwordProtected (reason : String)
  deriving DecidableEq

/-! ## The sink -/

/-- Where a walk sends its detections, and whether it wants the walk to go
on. -/
inductive Sink where
  | first (ignored : List String)
  | all (out : List (String × Method)) (seen ignored : List String)

/-- Record a detection.  `some` means this walk must stop and return it. -/
def Sink.hit (sink : Sink) (signature : String) (offset : Nat)
    (method : Method) : Option DeepOutcome × Sink :=
  match sink with
  | .first ignored =>
      if ignored.contains signature then (none, sink)
      else (some (.infected signature offset method), sink)
  | .all out seen ignored =>
      if ignored.contains signature || seen.contains signature then
        (none, sink)
      else
        (none, .all (out ++ [(signature, method)]) (signature :: seen) ignored)

def Sink.wantsAll : Sink → Bool
  | .first _ => false
  | .all .. => true

/-! ## The tally -/

/-- Outcomes gathered across a container's members that do not stop the
loop. -/
structure MemberTally where
  pos : Nat
  unscannable : Option String
  password : Option String
  limits : Option String
  /-- The alert for a member stored encrypted whose content was read anyway. -/
  encrypted : Option String
  deriving DecidableEq

def MemberTally.new : MemberTally :=
  ⟨1, none, none, none, none⟩

/-- The slot's value, or `note` where it has none. -/
def getOrInsert (slot : Option String) (note : String) : Option String :=
  some (slot.getD note)

@[simp] theorem getOrInsert_isSome (slot : Option String) (note : String) :
    (getOrInsert slot note).isSome = true := rfl

namespace MemberTally

def noteUnscannable (tally : MemberTally) (reason : String) : MemberTally :=
  { tally with unscannable := getOrInsert tally.unscannable reason }

def notePassword (tally : MemberTally) (reason : String) : MemberTally :=
  { tally with password := getOrInsert tally.password reason }

def noteLimits (tally : MemberTally) (reason : String) : MemberTally :=
  { tally with limits := getOrInsert tally.limits reason }

def noteEncrypted (tally : MemberTally) (name : String) : MemberTally :=
  { tally with encrypted := getOrInsert tally.encrypted name }

@[simp] theorem noteUnscannable_unscannable (tally : MemberTally)
    (reason : String) :
    (tally.noteUnscannable reason).unscannable =
      getOrInsert tally.unscannable reason := rfl

@[simp] theorem notePassword_unscannable (tally : MemberTally)
    (reason : String) :
    (tally.notePassword reason).unscannable = tally.unscannable := rfl

@[simp] theorem noteLimits_unscannable (tally : MemberTally)
    (reason : String) :
    (tally.noteLimits reason).unscannable = tally.unscannable := rfl

@[simp] theorem noteEncrypted_unscannable (tally : MemberTally)
    (name : String) :
    (tally.noteEncrypted name).unscannable = tally.unscannable := rfl

def verdict (tally : MemberTally) : DeepOutcome :=
  match tally.password, tally.limits, tally.unscannable with
  | some reason, _, _ => .passwordProtected reason
  | none, some reason, _ => .limits reason
  | none, none, some reason => .unscannable reason
  | none, none, none => .clean

end MemberTally

/-! ## Limits -/

def limitsAlertName : LimitKind → Option String
  | .maxScanSize => some "Heuristics.Limits.Exceeded.MaxScanSize"
  | .maxFileSize => some "Heuristics.Limits.Exceeded.MaxFileSize"
  | .maxFiles => some "Heuristics.Limits.Exceeded.MaxFiles"
  | .maxRecursion => some "Heuristics.Limits.Exceeded.MaxRecursion"
  | .maxScanTime => some "Heuristics.Limits.Exceeded.MaxScanTime"
  -- Malformed input, not a budget stop, so no budget alert names it.
  | .corrupt => none

/-- A budget stop as an outcome; `alert` changes its shape only. -/
def limitsOutcome (alert : Bool) (kind : LimitKind) (reason : String) :
    DeepOutcome :=
  match alert, limitsAlertName kind with
  | true, some name => .infected name 0 .heuristic
  | _, _ => .limits reason

/-!
## One member of a container walk

A member's metadata is scanned, then its bytes, as an object one level down.
A member decoded as it is read is held in memory up to a limit and goes to the
host's spill past it.  What could not be read is noted on the tally.
-/

/-! ## The member and its place -/

/-- The container formats with an encryption alert of their own. -/
inductive Format where
  | zip
  | rar
  | sevenZip
  | pdf
  | ole
  | other
  deriving DecidableEq

/-- Metadata for a member handed to a walk's visitor. -/
structure MemberMeta where
  name : String
  compSize : Nat
  encrypted : Bool
  /-- Why the content cannot be decoded, or not all of it. -/
  unsupported : Option String
  /-- For a ZIP member, the flags of its local header. -/
  zipLocalFlags : Option UInt16

/-- A member's content as an extractor hands it over. -/
inductive Content where
  | bytes (data : Bytes)
  | stream (replies : Reader)

/-- What a `.cdb` signature reads of a member. -/
structure CdbMember where
  name : String
  sizeInContainer : Nat
  sizeReal : Nat
  encrypted : Bool
  pos : Nat

/-- What a member scan needs that does not vary between the members of one
container; `σ` is what the rest of the scan carries along. -/
structure MemberCtx (W σ : Type) where
  deepAnalysisMax : Nat
  alertExceedsMax : Bool
  alertEncrypted : Bool
  alertPacked : Bool
  alertMacros : Bool
  unofficialSuffix : Bool
  verifyChecksums : Bool
  spill : Option (Spill W)
  ignored : List String
  fmt : Format
  containerIsOle : Bool
  /-- The first `.cdb` signature a member of this container matches, and
  whether it is unofficial. -/
  cdbMatches : CdbMember → Option (String × Bool)
  scanObject : String → Bytes → Sink → σ → DeepOutcome × Sink × σ

/-- What a walk changes as it meets members. -/
structure Visit (σ : Type) where
  tally : MemberTally
  volumes : Volume.Collector
  sink : Sink
  rest : σ

/-! ## Reading -/

/-- A member's bytes, once read. -/
inductive Body where
  | none
  | mem (data : Bytes)
  | spilled (file : Spilled)

/-- The bytes handed on for scanning. -/
def Body.bytes : Body → Bytes
  | .none => []
  | .mem data => data
  | .spilled file => file.bytes

/-- What reading a member gives: its bytes, unless the walk must stop; the
tally; and why the rest of the bytes is missing. -/
structure ReadMember where
  result : Except DeepOutcome Body
  tally : MemberTally
  failed : Option IoError

section

variable {W σ : Type} (cx : MemberCtx W σ)

def notScanned (tally : MemberTally) (why : String) : ReadMember :=
  match limitsOutcome cx.alertExceedsMax .maxFileSize
    (s!"a member is over the {cx.deepAnalysisMax}-byte deep-analysis limit " ++
      s!"(--max-object-bytes) and could not be spilled to disk ({why}): " ++
      "it was not scanned") with
  | .limits reason => ⟨.ok .none, tally.noteLimits reason, none⟩
  | alert => ⟨.error alert, tally, none⟩

/-- What did not fit in memory, with what was already read before it. -/
def spillMember (tally : MemberTally) (replies : Reader) : ReadMember :=
  match cx.spill with
  | none => notScanned cx tally "spilling to disk is off"
  | some spill =>
      match spillStream spill replies with
      | .ok file => ⟨.ok (.spilled file), tally, none⟩
      | .error (.read e) =>
          if e.isBudgetOverflow then
            ⟨.error (.limits "member exceeds the scan budget"), tally, none⟩
          else
            ⟨.ok .none, tally.noteUnscannable s!"member stream error: {e.text}",
              none⟩
      | .error (.spill why) => notScanned cx tally why

/-- Read a member decoded as it is read: into memory up to the deep-analysis
limit, else to the host's spill, the bytes already read first. -/
def readMember (tally : MemberTally) (replies : Reader) : ReadMember :=
  -- One byte past the cap: reading exactly the cap cannot tell a member that
  -- just fits from one that does not.
  let head := replies.takeToEnd (min (cx.deepAnalysisMax + 1) u64Max)
  match head.stopped with
  | some e =>
      if e.isBudgetOverflow then
        ⟨.error (.limits "member exceeds the scan budget"), tally, none⟩
      else if cx.verifyChecksums || (head.bytes.isEmpty && e.hidesContent) then
        ⟨.ok .none, tally.noteUnscannable s!"member decode error: {e.text}",
          none⟩
      else ⟨.ok (.mem (head.bytes.take cx.deepAnalysisMax)), tally, some e⟩
  | none =>
      if head.bytes.length ≤ cx.deepAnalysisMax then
        ⟨.ok (.mem head.bytes), tally, none⟩
      else spillMember cx tally (.chain head.bytes head.rest)

/-! ## Metadata -/

def encryptedHeuristicName : Format → String
  | .zip => "Heuristics.Encrypted.Zip"
  | .rar => "Heuristics.Encrypted.RAR"
  | .sevenZip => "Heuristics.Encrypted.7Zip"
  | .pdf => "Heuristics.Encrypted.PDF"
  | .ole => "Heuristics.Encrypted.OLE2"
  | .other => "Heuristics.Encrypted.Archive"

def packedHeuristicName (member : String) : Option String := do
  let packer ← Volume.stripSuffix "-packed image".toList member.toList
  if packer.isEmpty then none
  else some ("Heuristics.Packed." ++ String.ofList packer)

def macroDialect (name : String) : Option String :=
  if name = "vba_project" || name = "vba_project_raw" then some "VBA"
  else if name = "xlm_macro" then some "XLM"
  else none

/-- Where unofficial signatures are marked, the name carries the mark once. -/
def reportName (name : String) (unofficial suffix : Bool) : String :=
  if suffix && unofficial && !name.endsWith ".UNOFFICIAL" then
    name ++ ".UNOFFICIAL"
  else name

def MemberMeta.alerts (m : MemberMeta) : Bool :=
  match m.zipLocalFlags with
  | some flags => flags &&& 0x0001 != 0 && flags &&& 0x2000 == 0
  | none => m.encrypted

/-- A check of a visit: the outcome that stops the walk, if one does. -/
abbrev Check (σ : Type) := Visit σ → Option DeepOutcome × Visit σ

def report (signature : String) (method : Method) : Check σ := fun v =>
  let (stop, sink) := v.sink.hit signature 0 method
  (stop, { v with sink := sink })

/-- One check after another, while none stops the walk. -/
def Check.andThen (first next : Check σ) : Check σ := fun v =>
  match first v with
  | (some o, v) => (some o, v)
  | (none, v) => next v

def noCheck : Check σ := fun v => (none, v)

def encryptedCheck (m : MemberMeta) : Check σ := fun v =>
  if m.alerts && cx.alertEncrypted then
    if m.unsupported.isSome || v.sink.wantsAll then
      report (encryptedHeuristicName cx.fmt) .heuristic v
    else
      (none, { v with
        tally := v.tally.noteEncrypted (encryptedHeuristicName cx.fmt) })
  else (none, v)

def packedCheck (m : MemberMeta) : Check σ := fun v =>
  match cx.alertPacked, packedHeuristicName m.name with
  | true, some name => report name .heuristic v
  | _, _ => (none, v)

def unsupportedCheck (m : MemberMeta) : Check σ := fun v =>
  match m.unsupported with
  | some reason =>
      if m.encrypted then
        (none, { v with tally := v.tally.notePassword reason })
      else (none, { v with tally := v.tally.noteUnscannable reason })
  | none => (none, v)

def macroCheck (m : MemberMeta) : Check σ := fun v =>
  match cx.alertMacros && cx.containerIsOle, macroDialect m.name with
  | true, some kind =>
      report ("Heuristics.OLE2.ContainsMacros." ++ kind) .heuristic v
  | _, _ => (none, v)

/-- The `.cdb` signatures against each of the member's records; one reported
for a record is not reported again for the next. -/
def cdbChecks (m : MemberMeta) (sizeReal pos : Nat) :
    Option String → List Bool → Check σ
  | _, [] => noCheck
  | reported, encrypted :: records => fun v =>
      match cx.cdbMatches ⟨m.name, m.compSize, sizeReal, encrypted, pos⟩ with
      | none => cdbChecks m sizeReal pos reported records v
      | some (sig, unofficial) =>
          if reported = some sig then
            cdbChecks m sizeReal pos reported records v
          else
            (report (reportName sig unofficial cx.unofficialSuffix)
              .hash).andThen
                (cdbChecks m sizeReal pos (some sig) records) v

/-- A ZIP member's central-directory record and its local header, where the
two disagree on encryption. -/
def MemberMeta.records (m : MemberMeta) : List Bool :=
  let local_ := m.zipLocalFlags.map (· &&& 0x0001 != 0)
  m.encrypted :: (local_.filter (· != m.encrypted)).toList

def memberMetadataScan (m : MemberMeta) (sizeReal : Nat) : Check σ := fun v =>
  let pos := v.tally.pos
  let v := { v with tally := { v.tally with pos := pos + 1 } }
  (encryptedCheck cx m).andThen ((packedCheck cx m).andThen
    ((unsupportedCheck m).andThen ((macroCheck cx m).andThen
      (cdbChecks cx m sizeReal pos none m.records)))) v

/-! ## Content -/

/-- Scan one member's bytes.  What is nested and not fully scanned is noted,
and the walk goes on. -/
def memberContentScan (name : String) (data : Bytes) : Check σ := fun v =>
  let (outcome, sink, rest) := cx.scanObject name data v.sink v.rest
  let v := { v with sink := sink, rest := rest }
  match outcome with
  | .clean => (none, v)
  | .unscannable reason =>
      (none, { v with tally := v.tally.noteUnscannable reason })
  | .passwordProtected reason =>
      (none, { v with tally := v.tally.notePassword reason })
  | .infected signature offset method =>
      if cx.ignored.contains signature then (none, v)
      else (some (.infected signature offset method), v)
  | .limits reason => (some (.limits reason), v)

/-- A member all of whose bytes were read; a part of a byte-split set is held
rather than scanned on its own. -/
def scanOrHold (name : String) (data : Bytes) : Check σ := fun v =>
  match v.volumes.offer name.toList data with
  | (.held, volumes) => (none, { v with volumes := volumes })
  | (.passThrough _ data, volumes) =>
      memberContentScan cx name data { v with volumes := volumes }

/-- A member whose bytes stop at an error: those that decoded are scanned, and
the rest is noted unless the error hides nothing. -/
def scanSalvaged (name : String) (data : Bytes) (e : IoError) : Check σ :=
  fun v =>
    match memberContentScan cx name data v with
    | (some o, v) => (some o, v)
    | (none, v) =>
        if e.hidesContent then
          (none, { v with
            tally := v.tally.noteUnscannable
              s!"member decode error (salvaged {data.length} B, no match): {e.text}" })
        else (none, v)

def scanSpilled (name : String) (file : Spilled) : Check σ := fun v =>
  let (stop, v) := memberContentScan cx name file.bytes v
  match file.readError with
  | some e =>
      (stop, { v with
        tally := v.tally.noteUnscannable s!"spilled member unreadable: {e}" })
  | none => (stop, v)

/-! ## The member -/

/-- A member's bytes are its container's own. -/
def Body.fixedPoint (container : Bytes) : Body → Bool
  | .mem data => data.length == container.length && container == data
  | _ => false

def Body.size (m : MemberMeta) : Body → Nat
  | .none => m.compSize
  | .mem data => data.length
  | .spilled file => file.bytes.length

def scanBody (m : MemberMeta) (failed : Option IoError) : Body → Check σ
  | .none => noCheck
  | .mem data =>
      -- Nothing decoded: the metadata is all this member has.
      if data.isEmpty && m.unsupported.isSome then noCheck
      else
        match failed with
        | some e => scanSalvaged cx m.name data e
        | none => scanOrHold cx m.name data
  | .spilled file => scanSpilled cx m.name file

/-- One member, its bytes read: `some` means the walk must stop. -/
def visitBody (container : Bytes) (m : MemberMeta) (failed : Option IoError)
    (body : Body) : Check σ := fun v =>
  if body.fixedPoint container then (none, v)
  else
    (memberMetadataScan cx m (body.size m)).andThen (scanBody cx m failed body)
      v

/-- One member of a container walk: its metadata, then its bytes. -/
def visitMember (container : Bytes) (m : MemberMeta)
    (content : Option Content) : Check σ := fun v =>
  match content with
  | none => visitBody cx container m none .none v
  | some (.bytes data) => visitBody cx container m none (.mem data) v
  | some (.stream replies) =>
      let read := readMember cx v.tally replies
      let v := { v with tally := read.tally }
      match read.result with
      | .error stop => (some stop, v)
      | .ok body => visitBody cx container m read.failed body v

end

end Exav.Walk
