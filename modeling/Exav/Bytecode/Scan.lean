import Mathlib.Data.BitVec
import Exav.Bytecode.Budget
import Exav.Bytecode.Memory
import Exav.Bytecode.PdfTable
import Exav.Engine.Ldb

/-!
# Programs over an object

The programs whose triggers fired run on an object first, and then those hooked
on its type.  They share what may be put out, and a run cut short marks the
scan.
-/

namespace Exav.Bytecode

open Exav.Engine (FileType)

structure Loaded where
  functions : List Function
  types : TypeTable
  globals : List Global
  apis : List (Nat × String)
  name : String

structure Runtime where
  programs : List Loaded
  hooks : List (Nat × Option FileType)

/-- An object: its bytes and type, the bytes where they are small enough to be
loaded whole, and the programs fired on it with the offsets of each match. -/
structure Object where
  file : Bytes
  ft : FileType
  whole : Option Bytes
  fired : List (Nat × List UInt32)

/-- The functionality level that programs are told. -/
def flevelReported : Nat := 167

/-- What a scan by the programs has come to. -/
structure Scanned where
  detection : Option (String × Nat)
  extracted : List Bytes
  left : Nat
  truncated : Bool

abbrev HeaderReader := Bytes → Option BcPe

section

variable (rt : Runtime) (host : Host) (bytecodePe : HeaderReader)
  (limits : WriteLimits) (object : Object)

def peOf : Option BcPe :=
  if object.ft = .pe then object.whole.bind bytecodePe else none

def ctxOf (bc : Loaded) (matchOffsets : List UInt32)
    (limits : WriteLimits) : Ctx where
  file := object.file
  flevel := flevelReported
  types := bc.types
  globals := bc.globals
  pe := peOf bytecodePe object
  peMissing := object.ft = .pe ∧ (peOf bytecodePe object).isNone
  pdf := if object.ft = .pdf then some (pdfTable object.file) else none
  matchOffsets
  apis := bc.apis
  defaultName := bc.name
  writeLimits := limits
  host

def runProgram (bc : Loaded) (matchOffsets : List UInt32)
    (limits : WriteLimits) : Outcome :=
  outcome (run ⟨bc.functions,
    ctxOf host bytecodePe object bc matchOffsets limits⟩ 0)

/-- One run more: its output is kept, and its detection where the run did not
fail and there is none yet. -/
def takeOutcome (o : Outcome) (idx : Nat) (scanned : Scanned) : Scanned where
  detection :=
    if o.hitUnsupported then scanned.detection
    else scanned.detection.or (o.detection.map (·, idx))
  extracted := scanned.extracted ++ o.extracted
  left := scanned.left - (o.extracted.map List.length).sum
  truncated := scanned.truncated || o.incomplete

/-- A program to run: its index and the offsets it reads. -/
abbrev Job := Nat × List UInt32

/-- A job's run, with what may still be put out. -/
def runJob (scanned : Scanned) (job : Job) : Option Outcome :=
  (rt.programs[job.1]?).map fun bc =>
    runProgram host bytecodePe object bc job.2
      { limits with total := scanned.left }

def runOne (scanned : Scanned) (job : Job) : Scanned :=
  match runJob rt host bytecodePe limits object scanned job with
  | none => scanned
  | some o => takeOutcome o job.1 scanned

/-- The offsets of a match as the program reads them: of 64 subsignatures, those
that did not match at the end of all offsets. -/
def padded (suboffs : List UInt32) : List UInt32 :=
  suboffs.take 64 ++ List.replicate (64 - suboffs.length) 0xffffffff

def jobs : List Job :=
  (object.fired.map fun (idx, suboffs) => (idx, padded suboffs)) ++
    (rt.hooks.filter fun (_, hook) =>
      hook.isNone || hook = some object.ft).map fun (idx, _) => (idx, [])

/-- A large PE is not loaded: its programs run without its header data. -/
def begun : Scanned :=
  ⟨none, [], limits.total,
    decide (¬ rt.programs.isEmpty ∧ object.ft = .pe ∧ object.whole = none)⟩

def scanSource : Scanned :=
  if rt.programs.isEmpty then begun rt limits object
  else (jobs rt object).foldl (runOne rt host bytecodePe limits object)
    (begun rt limits object)

/-! ## What the programs share -/

/-- What the programs run on an object keep to. -/
structure Within : Prop where
  each : ∀ bytes ∈ (scanSource rt host bytecodePe limits object).extracted,
    bytes.length ≤ limits.file
  total : ((scanSource rt host bytecodePe limits object).extracted.map
    List.length).sum ≤ limits.total
  marked : ∀ before job after o, jobs rt object = before ++ job :: after →
    runJob rt host bytecodePe limits object
      (before.foldl (runOne rt host bytecodePe limits object)
        (begun rt limits object)) job = some o →
    o.incomplete = true →
      (scanSource rt host bytecodePe limits object).truncated = true

/-- What was put out and what may still be are the limit. -/
structure Sharing (scanned : Scanned) : Prop where
  each : ∀ bytes ∈ scanned.extracted, bytes.length ≤ limits.file
  sum : (scanned.extracted.map List.length).sum + scanned.left = limits.total

variable {rt host bytecodePe limits object}

theorem runJob_extracted {scanned : Scanned} {job : Job} {o : Outcome}
    (ran : runJob rt host bytecodePe limits object scanned job = some o) :
    (∀ bytes ∈ o.extracted, bytes.length ≤ limits.file) ∧
      (o.extracted.map List.length).sum ≤ scanned.left := by
  unfold runJob at ran
  cases found : rt.programs[job.1]? with
  | none =>
      rw [found] at ran
      cases ran
  | some bc =>
      rw [found] at ran
      cases ran
      exact outcome_extracted (reachable_accounted (reachable_final _ 0))

theorem runOne_sharing {scanned : Scanned} (sharing : Sharing limits scanned)
    (job : Job) :
    Sharing limits (runOne rt host bytecodePe limits object scanned job) := by
  unfold runOne
  cases ran : runJob rt host bytecodePe limits object scanned job with
  | none => exact sharing
  | some o =>
      obtain ⟨each, total⟩ := runJob_extracted ran
      have sum := sharing.sum
      refine ⟨?_, ?_⟩
      · intro bytes member
        rcases List.mem_append.mp member with old | new
        · exact sharing.each bytes old
        · exact each bytes new
      · change ((scanned.extracted ++ o.extracted).map List.length).sum +
          (scanned.left - (o.extracted.map List.length).sum) = limits.total
        rw [List.map_append, List.sum_append]
        omega

theorem foldl_sharing (work : List Job) {scanned : Scanned}
    (sharing : Sharing limits scanned) :
    Sharing limits
      (work.foldl (runOne rt host bytecodePe limits object) scanned) := by
  induction work generalizing scanned with
  | nil => exact sharing
  | cons job work ih => exact ih (runOne_sharing sharing job)

theorem runOne_truncated {scanned : Scanned}
    (truncated : scanned.truncated = true) (job : Job) :
    (runOne rt host bytecodePe limits object scanned job).truncated = true := by
  unfold runOne
  split
  · exact truncated
  · change (scanned.truncated || _) = true
    rw [truncated, Bool.true_or]

theorem foldl_truncated (work : List Job) {scanned : Scanned}
    (truncated : scanned.truncated = true) :
    (work.foldl (runOne rt host bytecodePe limits object) scanned).truncated =
      true := by
  induction work generalizing scanned with
  | nil => exact truncated
  | cons job work ih => exact ih (runOne_truncated truncated job)

theorem scan_within : Within rt host bytecodePe limits object := by
  have begun' : Sharing limits (begun rt limits object) :=
    ⟨fun _ none' => absurd none' List.not_mem_nil, Nat.zero_add _⟩
  have sharing : Sharing limits (scanSource rt host bytecodePe limits object) := by
    unfold scanSource
    split
    · exact begun'
    · exact foldl_sharing _ begun'
  have sum := sharing.sum
  refine ⟨sharing.each, by omega, ?_⟩
  intro before job after o order ran cut
  have some' : ¬ rt.programs.isEmpty = true := by
    intro none'
    unfold runJob at ran
    rw [List.isEmpty_iff.mp none'] at ran
    cases ran
  rw [scanSource, if_neg some', order, List.foldl_append, List.foldl_cons]
  apply foldl_truncated
  generalize before.foldl (runOne rt host bytecodePe limits object)
    (begun rt limits object) = scanned at ran ⊢
  unfold runOne
  rw [ran]
  change (_ || o.incomplete) = true
  rw [cut, Bool.or_true]

end

/-- A run keeps to its budgets exactly when it does not fall off its entry's
block past its steps, and the programs run on an object share its limits. -/
theorem runs_within_budgets (program : Program) (entry : Nat) :
    (Budgeted program entry ↔
      ∀ c, Reachable program entry c → ¬ FallsOff c) ∧
    ∀ rt host bytecodePe limits object,
      Within rt host bytecodePe limits object :=
  ⟨budgeted_iff_stays program entry, fun _ _ _ _ _ => scan_within⟩

/-! ## A block without an end -/

/-- Compares the size of the file with itself, over more bytes than it has. -/
def compareSizes : Inst :=
  ⟨43, 0, 32, .ops [.global 0, .global 0, .const (2 ^ 28)]⟩

/-- A block of comparisons that nothing ends. -/
def openEnded : Program where
  funcs := [⟨[32], [List.replicate 30 compareSizes]⟩]
  ctx :=
    { file := [], flevel := flevelReported, types := ⟨[]⟩
      globals := [.ofList [0, 0x8004]], pe := none, peMissing := false
      pdf := none, matchOffsets := [], apis := [], defaultName := "openEnded"
      writeLimits := ⟨0, 0, 1000⟩, host := hostNone }

/-- The last comparison passes the steps, and the run ends as any other. -/
theorem not_budgeted_openEnded :
    ∃ c, Reachable openEnded 0 c ∧ maxSteps < c.machine.steps ∧
      (next openEnded c).stack = [] ∧
      (outcome (next openEnded c).machine).hitUnsupported = false ∧
      ¬ Budgeted openEnded 0 := by
  have reached : Reachable openEnded 0
      ((next openEnded)^[30] (start openEnded 0)) := reachable_iterate 30
  refine ⟨_, reached, by decide, by decide, by decide, ?_⟩
  intro budgeted
  apply (budgeted_iff_stays openEnded 0).mp budgeted _ reached
  exact ⟨⟨0, 0, 8, 0, []⟩, by decide, rfl, by decide,
    by decide⟩

end Exav.Bytecode
