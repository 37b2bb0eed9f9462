import Exav.Lib.Packed

/-!
# Reading a member, and writing it out

A member is decoded as it is read, in pieces of any size, and its decoder may
fail after any of them.  What is too large to hold is written to a spill file
the host provides.  A spill that works reads back exactly what was written.
-/

namespace Exav.Walk

open Exav.Packed

/-! ## Errors -/

/-- An error's kind; an interrupted read is no error, it is tried again. -/
inductive ErrorKind where
  | unexpectedEof
  | invalidData
  | other
  deriving DecidableEq

inductive ErrorInner where
  | message (text : String)
  /-- The input was decoded in full, and only its checksum disagreed. -/
  | checksumMismatch (what : String)
  deriving DecidableEq

def ErrorInner.text : ErrorInner → String
  | .message text => text
  | .checksumMismatch what => what ++ " mismatch after a full decode"

structure IoError where
  kind : ErrorKind
  inner : Option ErrorInner
  deriving DecidableEq

def budgetOverflow : String := "exav:member-budget-overflow"

namespace IoError

def isBudgetOverflow (e : IoError) : Bool :=
  e.inner.map ErrorInner.text == some budgetOverflow

def isChecksumMismatch (e : IoError) : Bool :=
  match e.inner with
  | some (.checksumMismatch _) => true
  | _ => false

/-- Whether a decode error left compressed content in the input that was never
decoded. -/
def hidesContent (e : IoError) : Bool :=
  e.kind != .unexpectedEof && !e.isChecksumMismatch

/-- How an error reads in a report. -/
def text (e : IoError) : String :=
  match e.inner with
  | some inner => inner.text
  | none =>
      match e.kind with
      | .unexpectedEof => "unexpected end of file"
      | .invalidData => "invalid data"
      | .other => "other error"

end IoError

/-! ## The member's stream -/

/-- What the member's decoder answers with; after the last it is at its
end. -/
inductive Reply where
  | bytes (first : UInt8) (more : Bytes)
  | interrupted
  | failed (e : IoError)
  deriving DecidableEq

abbrev Reader := List Reply

namespace Reader

def decoded : Reader → Bytes
  | [] => []
  | .bytes first more :: replies => first :: more ++ decoded replies
  | .interrupted :: replies => decoded replies
  | .failed _ :: _ => []

/-- The error that ends the stream, when one does. -/
def error : Reader → Option IoError
  | [] => none
  | .bytes _ _ :: replies => error replies
  | .interrupted :: replies => error replies
  | .failed e :: _ => some e

/-- What `bytes` already read are, before the rest of a stream. -/
def chain : Bytes → Reader → Reader
  | [], rest => rest
  | first :: more, rest => .bytes first more :: rest

@[simp] theorem decoded_chain (bytes : Bytes) (rest : Reader) :
    decoded (chain bytes rest) = bytes ++ decoded rest := by
  cases bytes with
  | nil => rfl
  | cons first more => rfl

@[simp] theorem error_chain (bytes : Bytes) (rest : Reader) :
    error (chain bytes rest) = error rest := by
  cases bytes with
  | nil => rfl
  | cons first more => rfl

/-- What reading at most `limit` bytes gives: the bytes, the error that
stopped it, and the rest of the stream. -/
structure Took where
  bytes : Bytes
  stopped : Option IoError
  rest : Reader

/-- Read to the end, or to `limit` bytes; an error keeps what came before. -/
def takeToEnd : (limit : Nat) → Reader → Took
  | 0, replies => ⟨[], none, replies⟩
  | _ + 1, [] => ⟨[], none, []⟩
  | limit + 1, .interrupted :: replies => takeToEnd (limit + 1) replies
  | _ + 1, .failed e :: replies => ⟨[], some e, .failed e :: replies⟩
  | limit + 1, .bytes first more :: replies =>
      let took :=
        if limit ≤ more.length then
          ⟨more.take limit, none, chain (more.drop limit) replies⟩
        else
          let took := takeToEnd (limit - more.length) replies
          { took with bytes := more ++ took.bytes }
      { took with bytes := first :: took.bytes }

theorem takeToEnd_of_short {limit : Nat} {replies : Reader}
    (short : (decoded replies).length < limit) :
    (takeToEnd limit replies).bytes = decoded replies ∧
      (takeToEnd limit replies).stopped = error replies := by
  induction replies generalizing limit with
  | nil =>
      obtain ⟨limit, rfl⟩ := Nat.exists_eq_add_one.mpr short
      exact ⟨rfl, rfl⟩
  | cons reply replies ih =>
      obtain ⟨limit, rfl⟩ := Nat.exists_eq_add_one.mpr
        (Nat.lt_of_le_of_lt (Nat.zero_le _) short)
      cases reply with
      | failed e => exact ⟨rfl, rfl⟩
      | interrupted => exact ih short
      | bytes first more =>
          have below : more.length + (decoded replies).length < limit := by
            simpa [decoded] using short
          have later := @ih (limit - more.length) (by omega)
          have room : ¬limit ≤ more.length := by omega
          simp only [takeToEnd, room, if_false, decoded, error, later,
            List.cons_append, and_self]

theorem takeToEnd_of_long {limit : Nat} {replies : Reader}
    (long : limit ≤ (decoded replies).length) :
    (takeToEnd limit replies).stopped = none ∧
      (takeToEnd limit replies).bytes = (decoded replies).take limit ∧
      decoded (takeToEnd limit replies).rest = (decoded replies).drop limit ∧
      error (takeToEnd limit replies).rest = error replies := by
  induction replies generalizing limit with
  | nil =>
      obtain rfl : limit = 0 := Nat.le_zero.mp long
      simp [takeToEnd]
  | cons reply replies ih =>
      cases limit with
      | zero => simp [takeToEnd]
      | succ limit =>
          cases reply with
          | failed e => simp [decoded] at long
          | interrupted => exact ih long
          | bytes first more =>
              by_cases within : limit ≤ more.length
              · simp [takeToEnd, within, decoded, error, List.take_append,
                  List.drop_append, Nat.sub_eq_zero_of_le within]
              · have above : limit - more.length ≤ (decoded replies).length := by
                  simp only [decoded, List.length_append,
                    List.length_cons] at long
                  omega
                obtain ⟨unstopped, taken, left, ending⟩ := ih above
                have past : more.length ≤ limit := by omega
                simp [takeToEnd, within, decoded, error, unstopped, taken,
                  left, ending, List.take_append, List.drop_append,
                  List.take_of_length_le past, List.drop_of_length_le past]

end Reader

/-! ## The spill -/

/-- A spill file read back; a block that cannot be read says why. -/
structure Spilled where
  bytes : Bytes
  readError : Option String
  deriving DecidableEq

/-- Makes spill files; `W` is one being written. -/
structure Spill (W : Type) where
  create : Except String W
  write : W → Bytes → Except String W
  finish : W → Except String Spilled

/-- Every call succeeds, and what was written reads back. -/
structure Spill.Works {W : Type} (spill : Spill W) (held : W → Bytes) :
    Prop where
  create : ∃ file, spill.create = .ok file ∧ held file = []
  write : ∀ file bytes, ∃ longer, spill.write file bytes = .ok longer ∧
    held longer = held file ++ bytes
  finish : ∀ file, spill.finish file = .ok ⟨held file, none⟩

/-- Bytes handed over at a time. -/
def chunk : Nat := 1024 * 1024

structure SpillOut (W : Type) where
  file : W
  batch : Bytes
  /-- Why a write failed.  Everything after it is dropped. -/
  failed : Option String

namespace SpillOut

variable {W : Type}

def new (file : W) : SpillOut W := ⟨file, [], none⟩

def flush (spill : Spill W) (out : SpillOut W) : SpillOut W :=
  if out.failed.isNone && !out.batch.isEmpty then
    match spill.write out.file out.batch with
    | .ok file => { out with file := file, batch := [] }
    | .error e => { out with failed := some e, batch := [] }
  else { out with batch := [] }

def write (spill : Spill W) (out : SpillOut W) (bytes : Bytes) : SpillOut W :=
  let out := { out with batch := out.batch ++ bytes }
  if out.batch.length ≥ chunk then out.flush spill else out

/-- What was written, to read back. -/
def finish (spill : Spill W) (out : SpillOut W) : Except String Spilled :=
  let out := out.flush spill
  match out.failed with
  | some e => .error e
  | none => spill.finish out.file

end SpillOut

inductive SpillStreamError where
  | read (e : IoError)
  | spill (e : String)
  deriving DecidableEq

/-- One chunk read and written; a write that failed stops the loop. -/
def spillChunk {W : Type} (spill : Spill W) (out : SpillOut W)
    (bytes : Bytes) : Except SpillStreamError (SpillOut W) :=
  let out := out.write spill bytes
  match out.failed with
  | some e => .error (.spill e)
  | none => .ok out

def spillReplies {W : Type} (spill : Spill W) :
    SpillOut W → Reader → Except SpillStreamError (SpillOut W)
  | out, [] => .ok out
  | out, .bytes first more :: replies => do
      let out ← (chunks chunk (first :: more)).foldlM (spillChunk spill) out
      spillReplies spill out replies
  | out, .interrupted :: replies => spillReplies spill out replies
  | _, .failed e :: _ => .error (.read e)

def spillStream {W : Type} (spill : Spill W) (replies : Reader) :
    Except SpillStreamError Spilled := do
  let file ← spill.create.mapError .spill
  let out ← spillReplies spill (.new file) replies
  (out.finish spill).mapError .spill

/-! ## What a spill reads back -/

section

variable {W : Type} {spill : Spill W} {held : W → Bytes}

theorem spillChunks_error {out : SpillOut W} {pieces : List Bytes}
    {stopped : SpillStreamError}
    (failed : pieces.foldlM (spillChunk spill) out = .error stopped) :
    ∃ why, stopped = .spill why := by
  induction pieces generalizing out with
  | nil => cases failed
  | cons piece pieces ih =>
      cases refused : (out.write spill piece).failed with
      | none =>
          apply ih
          simpa [List.foldlM_cons, spillChunk, refused, bind,
            Except.bind] using failed
      | some why =>
          refine ⟨why, ?_⟩
          simpa [List.foldlM_cons, spillChunk, refused, bind,
            Except.bind] using failed.symm

theorem spillStream_of_fails {replies : Reader} {e : IoError}
    (fails : Reader.error replies = some e) :
    spillStream spill replies = .error (.read e) ∨
      ∃ why, spillStream spill replies = .error (.spill why) := by
  have stopped (out : SpillOut W) :
      spillReplies spill out replies = .error (.read e) ∨
        ∃ why, spillReplies spill out replies = .error (.spill why) := by
    induction replies generalizing out with
    | nil => simp [Reader.error] at fails
    | cons reply replies ih =>
        cases reply with
        | failed other =>
            simp only [Reader.error, Option.some.injEq] at fails
            exact Or.inl (by rw [spillReplies, fails])
        | interrupted => exact ih fails out
        | bytes first more =>
            cases ran : (chunks chunk (first :: more)).foldlM (spillChunk spill) out
              with
            | ok longer =>
                simpa [spillReplies, ran, bind, Except.bind]
                  using ih fails longer
            | error stopped =>
                obtain ⟨why, rfl⟩ := spillChunks_error ran
                exact Or.inr ⟨why, by
                  simp [spillReplies, ran, bind, Except.bind]⟩
  cases created : spill.create with
  | error why => exact Or.inr ⟨why, by simp [spillStream, created,
      Except.mapError, bind, Except.bind]⟩
  | ok file =>
      rcases stopped (.new file) with failed | ⟨why, failed⟩
      · exact Or.inl (by simp [spillStream, created, Except.mapError, failed,
          bind, Except.bind])
      · exact Or.inr ⟨why, by simp [spillStream, created, Except.mapError,
          failed, bind, Except.bind]⟩

end

end Exav.Walk
