import Exav.Daemon.Rank

/-!
# What a stream is answered on

A read may ask for any number of bytes, and the transport may give fewer.  What
the reads of a stream give together is its start, up to one byte past the limit.
A stream that stops before its terminator is found out unless its drain stops at
the cap, and what could not be held whole is not answered `OK`.
-/

namespace Exav.Daemon

open Exav.Stream Exav.Icap

namespace Instream

variable {stream stream' : Instream} {payload after : Bytes}

/-! ## Reads into buffers -/

/-- A read into a buffer of `len` bytes, counted in 32 bits. -/
def readInto (len : Nat) (stream : Instream) : Option Bytes × Instream :=
  stream.read (len % 2 ^ 32)

/-- Reads into one buffer after another: all they give together, or none after
a fault. -/
def readEach : (lens : List Nat) → Instream → Option Bytes × Instream
  | [], stream => (some [], stream)
  | len :: lens, stream =>
      match stream.readInto len with
      | (none, stream) => (none, stream)
      | (some got, stream) =>
          match stream.readEach lens with
          | (none, stream) => (none, stream)
          | (some more, stream) => (some (got ++ more), stream)

/-- Buffers none of which counts as empty. -/
def Usable (lens : List Nat) : Prop :=
  ∀ len ∈ lens, len % 2 ^ 32 ≠ 0

theorem read_of_ended {want : Nat} (ended : stream.Ended) :
    stream.read want = (some [], stream) := by
  have closed : (stream.done || stream.overLimit) = true := by
    simpa [Ended] using ended
  rw [read, if_pos closed]

theorem ended_readEach {lens : List Nat} (ended : stream.Ended) :
    stream.readEach lens = (some [], stream) := by
  induction lens with
  | nil => rfl
  | cons len lens ih => simp [readEach, readInto, read_of_ended ended, ih]

theorem hands_readEach {lens : List Nat} {given : Bytes} (usable : Usable lens)
    (read : stream.readEach lens = (some given, stream')) :
    Hands given stream stream' ∧ (stream'.Ended ∨ lens.length ≤ given.length) := by
  induction lens generalizing stream given with
  | nil =>
      cases read
      exact ⟨.refl _, .inr (Nat.zero_le _)⟩
  | cons len lens ih =>
      have wanted : 0 < len % 2 ^ 32 := Nat.pos_of_ne_zero (usable len (.head _))
      unfold readEach readInto at read
      split at read
      · cases read
      · rename_i got stream₁ first
        have handed := hands_read wanted first
        split at read
        · cases read
        · rename_i more stream₂ later
          cases read
          by_cases nothing : got = []
          · subst nothing
            have ended := ended_of_read_nil first
            rw [ended_readEach ended] at later
            cases later
            exact ⟨by simpa using handed, .inl ended⟩
          · obtain ⟨handed₂, stopped⟩ :=
              ih (fun len member => usable len (.tail _ member)) later
            refine ⟨handed.trans handed₂, stopped.imp_right fun more => ?_⟩
            have some_got := List.length_pos_of_ne_nil nothing
            rw [List.length_append, List.length_cons]
            omega

theorem counts_new (source : Source UInt8) (max : Option UInt64) :
    (new source max).Counts := by
  simp [Counts, new]

theorem readEach_new {source : Source UInt8} {max : Option UInt64}
    {chunks : List Chunk} {lens : List Nat} {given : Bytes}
    (sent : rest source = frame chunks ++ after) (usable : Usable lens)
    (read : (new source max).readEach lens = (some given, stream)) :
    given <+: within max 0 (payloadOf chunks) ∧
      ((within max 0 (payloadOf chunks)).length ≤ lens.length →
        given = within max 0 (payloadOf chunks)) := by
  obtain ⟨handed, stopped⟩ := hands_readEach usable read
  have left := @left_new source max chunks after sent
  have first := handed.prefix left
  refine ⟨first, fun enough => ?_⟩
  rcases stopped with ended | many
  · exact handed.all left (counts_new source max) ended
  · exact first.eq_of_length_le (enough.trans many)

/-! ## The drain -/

theorem drainFrom_broken {rounds drained : Nat} (broken : stream.Broken)
    (drain : stream.drainFrom rounds drained = (some true, stream')) :
    stream'.truncated = true := by
  induction rounds generalizing stream drained with
  | zero => cases drain
  | succ rounds ih =>
      unfold drainFrom at drain
      by_cases done : stream.done = true
      · simp only [done, if_true, Prod.mk.injEq, true_and] at drain
        subst drain
        simpa [Broken, done] using broken
      · have going : stream.done = false := by simpa using done
        rw [if_neg done] at drain
        split at drain
        · cases drain
        · split at drain
          · rename_i between
            split at drain
            · cases drain
            · rename_i stream₁ next
              exact ih (broken_nextChunk broken going between next) drain
          · split at drain
            · cases drain
            · cases drain
              rfl
            · rename_i got inner nonempty read
              obtain ⟨split, bound, -⟩ := readFull_rest read
              refine ih ?_ drain
              exact broken_taken broken going (by omega) split rfl going rfl

/-- A drain stops short only where it has taken as much as its cap. -/
theorem drainFrom_capped {rounds drained : Nat}
    (enough : (rest stream.inner).length + (if stream.done then 0 else 1) <
      rounds)
    (drain : stream.drainFrom rounds drained = (some false, stream')) :
    maxDrainBytes ≤ drained + (rest stream.inner).length := by
  induction rounds generalizing stream drained with
  | zero => omega
  | succ rounds ih =>
      unfold drainFrom at drain
      by_cases done : stream.done = true
      · simp [done] at drain
      · rw [if_neg done] at drain enough
        split at drain
        · omega
        · split at drain
          · split at drain
            · cases drain
            · rename_i stream₁ next
              have shorter := length_nextChunk next
              have room : (rest stream₁.inner).length +
                  (if stream₁.done then 0 else 1) < rounds := by
                split
                · omega
                · rename_i still
                  have going : stream₁.done = false := by simpa using still
                  have fewer := (nextChunk_inside next going).2
                  omega
              exact (ih room drain).trans (Nat.add_le_add_left shorter _)
          · split at drain
            · cases drain
            · cases drain
            · rename_i got inner nonempty read
              obtain ⟨split, bound, -⟩ := readFull_rest read
              have some_got : got.length ≠ 0 := by simpa using nonempty
              rw [split, List.length_append] at enough ⊢
              have rest := ih (by dsimp only; rw [if_neg done]; omega) drain
              dsimp only at rest
              omega

theorem drainFrom_counts {rounds drained : Nat} {ended : Bool}
    (drain : stream.drainFrom rounds drained = (some ended, stream')) :
    stream'.max = stream.max ∧ stream.total ≤ stream'.total := by
  induction rounds generalizing stream drained with
  | zero =>
      cases drain
      exact ⟨rfl, Nat.le_refl _⟩
  | succ rounds ih =>
      unfold drainFrom at drain
      split at drain
      · cases drain
        exact ⟨rfl, Nat.le_refl _⟩
      · split at drain
        · cases drain
          exact ⟨rfl, Nat.le_refl _⟩
        · split at drain
          · split at drain
            · cases drain
            · rename_i stream₁ next
              obtain ⟨max, total⟩ := ih drain
              obtain ⟨len, inner, -, ⟨-, rfl⟩ | ⟨-, rfl⟩⟩ :=
                nextChunk_cases next <;> exact ⟨max, total⟩
          · split at drain
            · cases drain
            · cases drain
              exact ⟨rfl, Nat.le_refl _⟩
            · obtain ⟨max, total⟩ := ih drain
              exact ⟨max, (Nat.le_add_right _ _).trans total⟩

/-! ## Without faults -/

theorem nextChunk_steady (steady : Steady stream.inner) :
    ∃ stream', stream.nextChunk = (true, stream') ∧ Steady stream'.inner := by
  obtain ⟨len, inner, read, still⟩ := steady.readFull 4
  unfold nextChunk
  rw [read]
  dsimp only
  split
  · exact ⟨_, rfl, still⟩
  · exact ⟨_, rfl, still⟩

theorem readChunk_steady (steady : Steady stream.inner) (want : Nat) :
    ∃ given stream', stream.readChunk want = (some given, stream') ∧
      Steady stream'.inner := by
  obtain ⟨got, inner, read, still⟩ :=
    steady.readSome (min stream.remaining want)
  unfold readChunk
  rw [read]
  cases got with
  | nil => exact ⟨_, _, rfl, still⟩
  | cons first more =>
      dsimp only
      split
      · exact ⟨_, _, rfl, still⟩
      · split
        · exact ⟨_, _, rfl, still⟩
        · exact ⟨_, _, rfl, still⟩

theorem read_steady (steady : Steady stream.inner) (want : Nat) :
    ∃ given stream', stream.read want = (some given, stream') ∧
      Steady stream'.inner := by
  unfold Instream.read
  split
  · exact ⟨_, _, rfl, steady⟩
  · split
    · obtain ⟨stream₁, next, still⟩ := nextChunk_steady steady
      rw [next]
      dsimp only
      split
      · exact ⟨_, _, rfl, still⟩
      · exact readChunk_steady still want
    · exact readChunk_steady steady want

theorem readEach_steady (steady : Steady stream.inner) (lens : List Nat) :
    ∃ given stream', stream.readEach lens = (some given, stream') ∧
      Steady stream'.inner := by
  induction lens generalizing stream with
  | nil => exact ⟨[], stream, rfl, steady⟩
  | cons len lens ih =>
      obtain ⟨got, stream₁, read, still⟩ := read_steady steady (len % 2 ^ 32)
      obtain ⟨more, stream₂, later, still₂⟩ := ih still
      refine ⟨got ++ more, stream₂, ?_, still₂⟩
      simp only [readEach, readInto, read, later]

theorem drainFrom_steady (steady : Steady stream.inner)
    (rounds drained : Nat) :
    ∃ ended stream', stream.drainFrom rounds drained =
      (some ended, stream') := by
  induction rounds generalizing stream drained with
  | zero => exact ⟨_, _, rfl⟩
  | succ rounds ih =>
      unfold drainFrom
      split
      · exact ⟨_, _, rfl⟩
      · split
        · exact ⟨_, _, rfl⟩
        · split
          · obtain ⟨stream₁, next, still⟩ := nextChunk_steady steady
            rw [next]
            exact ih still drained
          · obtain ⟨got, inner, read, still⟩ :=
              steady.readFull (min stream.remaining drainBlock)
            rw [read]
            cases got with
            | nil => exact ⟨_, _, rfl⟩
            | cons first more => exact ih still _

end Instream

section

variable {stream : Instream} {spill : Spill} {pieces : Nat → Nat}

theorem readToEnd_steady (steady : Steady stream.inner)
    (rounds n room : Nat) (held : Bytes) :
    ∃ whole stream', readToEnd pieces rounds n room held stream =
      (some whole, stream') ∧ Steady stream'.inner := by
  induction rounds generalizing stream n room held with
  | zero => exact ⟨_, _, rfl, steady⟩
  | succ rounds ih =>
      unfold readToEnd
      split
      · exact ⟨_, _, rfl, steady⟩
      · obtain ⟨got, stream₁, read, still⟩ :=
          Instream.read_steady steady (min room (pieces n + 1))
        rw [read]
        cases got with
        | nil => exact ⟨_, _, rfl, still⟩
        | cons first more => exact ih still _ _ _

/-- Spill files that can be made and written while the budgets allow it. -/
def Writable (spill : Spill) : Prop :=
  spill.create ≠ some .io ∧ ∀ held more, spill.charge held more ≠ some .io

theorem writeAll_writable (writable : Writable spill) (file bytes : Bytes) :
    writeAll spill file bytes ≠ .error .io := by
  unfold writeAll
  split
  · rename_i e charged
    intro failed
    cases failed
    exact writable.2 _ _ charged
  · nofun

theorem spillRest_steady (steady : Steady stream.inner)
    (writable : Writable spill) (rounds : Nat) (file : Bytes) :
    ∃ held stream', spillRest spill rounds file stream =
      (.ok held, stream') ∧ Steady stream'.inner := by
  induction rounds generalizing stream file with
  | zero => exact ⟨_, _, rfl, steady⟩
  | succ rounds ih =>
      obtain ⟨got, stream₁, read, still⟩ :=
        Instream.read_steady steady spillBlock
      unfold spillRest
      rw [read]
      cases got with
      | nil => exact ⟨_, _, rfl, still⟩
      | cons first more =>
          dsimp only
          cases wrote : writeAll spill file (first :: more) with
          | ok longer => exact ih still longer
          | error e =>
              cases e with
              | budget why => exact ⟨_, _, rfl, still⟩
              | io => exact absurd wrote (writeAll_writable writable _ _)

theorem spillHead_steady (steady : Steady stream.inner)
    (writable : Writable spill) (head block : Bytes) :
    ∃ held stream', spillHead spill head block stream =
      (.ok held, stream') ∧ Steady stream'.inner := by
  have failing {file bytes : Bytes} {e : SpillError}
      (wrote : writeAll spill file bytes = .error e) :
      ∃ why, e = .budget why := by
    cases e with
    | budget why => exact ⟨why, rfl⟩
    | io => exact absurd wrote (writeAll_writable writable _ _)
  unfold spillHead
  cases created : spill.create with
  | some e =>
      cases e with
      | budget why => exact ⟨_, _, rfl, steady⟩
      | io => exact absurd created writable.1
  | none =>
      dsimp only
      cases wrote : writeAll spill [] head with
      | error e =>
          obtain ⟨why, rfl⟩ := failing wrote
          exact ⟨_, _, rfl, steady⟩
      | ok file =>
          dsimp only
          cases more : writeAll spill file block with
          | error e =>
              obtain ⟨why, rfl⟩ := failing more
              exact ⟨_, _, rfl, steady⟩
          | ok file => exact spillRest_steady steady writable _ _

theorem bufferToSeekable_steady (steady : Steady stream.inner)
    (writable : Writable spill) :
    ∃ held stream', bufferToSeekable spill pieces stream =
      (.ok held, stream') ∧ Steady stream'.inner := by
  obtain ⟨head, stream₁, first, still⟩ :=
    @readToEnd_steady stream pieces steady spill.threshold 0 spill.threshold []
  unfold bufferToSeekable
  rw [first]
  dsimp only
  split
  · exact ⟨_, _, rfl, still⟩
  · obtain ⟨block, stream₂, second, still₂⟩ :=
      @readToEnd_steady stream₁ (fun _ => spillBlock) still spillBlock 0
        spillBlock []
    rw [second]
    cases block with
    | nil => exact ⟨_, _, rfl, still₂⟩
    | cons first more => exact spillHead_steady still₂ writable _ _

end

/-! ## Replies -/

def cutReply : Reply :=
  .line ("stream: " ++ streamCut ++ " ERROR")

def okReply : Reply :=
  .line "stream: OK"

/-- Only a verdict that policy leaves clean is answered `OK`. -/
theorem verdictLine_ok {current : PartialAs} {verdict : Verdict}
    (answered : verdictLine current "stream" verdict = "stream: OK") :
    verdict.category = .clean ∨
      (verdict.category = .partialScan ∧
        current.forTag verdict.statusTag = .ok) := by
  have line : (applyPolicy current verdict).category = .clean := by
    have ten : "stream: OK".length = 10 := by decide
    have target : "stream".length = 6 := by decide
    have found : " FOUND".length = 6 := by decide
    have error : " ERROR".length = 6 := by decide
    have length := congrArg String.length answered
    unfold verdictLine at length
    dsimp only at length
    -- Every other line is longer than this one.
    split at length
    · simp only [String.length_append] at length
      omega
    · assumption
    · split at length <;> simp only [String.length_append] at length <;> omega
  unfold applyPolicy at line
  split at line
  · rename_i partialScan
    right
    refine ⟨partialScan, ?_⟩
    split at line
    · rw [partialScan] at line
      cases line
    · rw [partialScan] at line
      cases line
    · assumption
    · cases line
  · exact .inl line

/-- The verdicts on what is not a whole stream. -/
def Unwhole (verdict : Verdict) : Prop :=
  verdict.category = .infected ∨ ∃ reason, verdict = .limitsExceeded reason

theorem Unwhole.not_ok {current : PartialAs} {verdict : Verdict}
    (unwhole : Unwhole verdict) (strict : current.limitsExceeded ≠ .ok) :
    verdictLine current "stream" verdict ≠ "stream: OK" := by
  intro answered
  rcases verdictLine_ok answered with clean | ⟨partialScan, mapped⟩
  · rcases unwhole with infected | ⟨reason, rfl⟩
    · rw [infected] at clean
      cases clean
    · cases clean
  · rcases unwhole with infected | ⟨reason, rfl⟩
    · rw [infected] at partialScan
      cases partialScan
    · exact strict mapped

theorem scanHeld_short {engine : Engine} {opts : ScanOptions}
    {held : Icap.Held} {size : Nat} {verdict : Verdict}
    (short : held.short ≠ none)
    (reported : Icap.scanHeld engine opts held size = .report verdict) :
    Unwhole verdict := by
  unfold Icap.scanHeld at reported
  split at reported
  · exact absurd ‹_› short
  · dsimp only at reported
    split at reported
    · split at reported
      · rename_i infected
        cases reported
        exact .inl infected
      · cases reported
        exact .inr ⟨_, rfl⟩
    · rename_i broken
      exact absurd reported (broken _)

theorem maxFileSizeReport_unwhole (size max : Nat) (opts : ScanOptions) :
    Unwhole (maxFileSizeReport size max opts) := by
  unfold maxFileSizeReport
  split
  · exact .inl rfl
  · exact .inr ⟨_, rfl⟩

theorem scanSeekable_past {engine : Engine} {opts : ScanOptions} {held : Bytes}
    {size : Nat} {max : UInt64} {verdict : Verdict}
    (limited : opts.maxScanSize = some max) (past : max.toNat < size)
    (reported : scanSeekable engine opts held size = .report verdict) :
    Unwhole verdict := by
  simp only [scanSeekable, limited, if_pos past] at reported
  split at reported
  · split at reported
    · rename_i infected
      cases reported
      exact .inl infected
    · cases reported
      exact maxFileSizeReport_unwhole size max.toNat opts
  · rename_i broken
    exact absurd reported (broken _)

theorem instream_cases {env : Env} {source left : Source UInt8} {served : Served}
    (ran : instream env source = (some served, left)) :
    ∃ held stream ended drained,
      bufferToSeekable (env.spill 0) (env.pieces 0) (env.newStream source) =
        (.ok held, stream) ∧
      stream.drain = (some ended, drained) ∧
      served.ending = .ofDrain (some ended) ∧
      ((drained.truncated = true ∧ served.replies = [cutReply]) ∨
        (drained.truncated = false ∧ ∃ verdict,
          env.scanHeld held drained.total = .report verdict ∧
          served.replies =
            [.line (verdictLine env.current "stream" verdict)])) := by
  unfold instream at ran
  split at ran
  · cases ran
  · rename_i held stream buffered
    split at ran
    · cases ran
    · rename_i ended drained drain
      refine ⟨held, stream, ended, drained, buffered, drain, ?_⟩
      dsimp only at ran
      split at ran
      · rename_i truncated
        cases ran
        exact ⟨rfl, .inl ⟨truncated, rfl⟩⟩
      · rename_i whole
        split at ran
        · rename_i verdict reported
          cases ran
          exact ⟨rfl, .inr ⟨by simpa using whole, verdict, reported, rfl⟩⟩
        · cases ran
        · cases ran

section

variable {env : Env} {source : Source UInt8} {chunks : List Chunk}
  {stream drained : Instream} {held : Held} {given : Bytes} {ended : Bool}

theorem scanHeld_unwhole {verdict : Verdict}
    (handed : Instream.Hands given (env.newStream source) stream)
    (drain : stream.drain = (some ended, drained))
    (short : held.short ≠ none ∨ stream.overLimit = true)
    (reported : env.scanHeld held drained.total = .report verdict) :
    Unwhole verdict := by
  rcases short with short | excess
  · exact scanHeld_short short reported
  · by_cases whole : held.short = none
    · obtain ⟨max, limited, past⟩ :=
        (handed.counts (Instream.counts_new _ _)).mp excess
      rw [handed.max] at limited
      have counted := (Instream.drainFrom_counts drain).2
      simp only [Env.scanHeld, Icap.scanHeld, whole] at reported
      exact scanSeekable_past limited (past.trans_le counted) reported
    · exact scanHeld_short whole reported

theorem held_whole {after : Bytes} (sent : rest source = frame chunks ++ after)
    (handed : Instream.Hands given (env.newStream source) stream)
    (of : held.Of given stream) (whole : held.short = none)
    (inside : stream.overLimit = false) :
    held.payload.bytes = payloadOf chunks := by
  obtain ⟨same, stopped⟩ := of.2 whole
  have done : stream.done = true := by
    rcases stopped with done | excess
    · exact done
    · rw [inside] at excess
      cases excess
  obtain ⟨taken, payload, cut, left, total, rfl⟩ :=
    handed.taken _ after (Instream.left_new sent)
  obtain ⟨-, left⟩ := left
  simp only [done, if_true] at left
  rw [left.1, List.append_nil] at cut
  rw [same, cut]
  cases limited : env.opts.maxScanSize with
  | none => simp [Instream.within, Env.newStream, Instream.new, limited]
  | some max =>
      have near : ¬ max.toNat < stream.total := by
        intro past
        have excess := (handed.counts (Instream.counts_new _ _)).mpr
          ⟨max, handed.max.trans limited, past⟩
        rw [inside] at excess
        cases excess
      have fits : taken.length ≤ max.toNat + 1 := by
        simp only [Env.newStream, Instream.new] at total
        omega
      simp [Instream.within, Env.newStream, Instream.new, limited,
        List.take_of_length_le fits]

/-! ## Streams, whole and cut -/

def CutPart (source : Source UInt8) (chunks : List Chunk) : Prop :=
  rest source <+: frame chunks ∧ rest source ≠ frame chunks

/-- What is promised of one stream, sent whole or cut. -/
structure Delivers (env : Env) (source : Source UInt8) (chunks : List Chunk) :
    Prop where
  /-- Reads hand over the start of the payload, up to one byte past the limit,
  and a drain that is not stopped by its cap counts all of it. -/
  whole : ∀ after, rest source = frame chunks ++ after →
    ∀ lens, Instream.Usable lens → ∀ given stream ended drained,
      (env.newStream source).readEach lens = (some given, stream) →
      stream.drain = (some ended, drained) →
        given <+: Instream.within env.opts.maxScanSize 0 (payloadOf chunks) ∧
        ((Instream.within env.opts.maxScanSize 0 (payloadOf chunks)).length ≤
            lens.length →
          given = Instream.within env.opts.maxScanSize 0 (payloadOf chunks)) ∧
        (ended = true → drained.total = (payloadOf chunks).length ∧
          drained.truncated = false) ∧
        (ended = false → maxDrainBytes ≤ (payloadOf chunks).length)
  /-- A stream that was cut is found out by such a drain. -/
  cut : CutPart source chunks →
    ∀ lens, Instream.Usable lens → ∀ given stream ended drained,
      (env.newStream source).readEach lens = (some given, stream) →
      stream.drain = (some ended, drained) →
        (ended = true → drained.truncated = true) ∧
        (ended = false → maxDrainBytes ≤ (rest source).length)
  /-- Without a fault, every read and the drain succeed. -/
  succeeds : Steady source → ∀ lens, ∃ given stream ended drained,
    (env.newStream source).readEach lens = (some given, stream) ∧
      stream.drain = (some ended, drained)
  /-- The answer to a stream that was cut, whatever was held of it. -/
  answered : CutPart source chunks → ∀ served left,
    instream env source = (some served, left) → served.ending ≠ .atCap →
      served.replies = [cutReply]
  /-- Below the drain cap there is such an answer. -/
  answers : CutPart source chunks → Steady source → Writable (env.spill 0) →
    (rest source).length < maxDrainBytes →
      ∃ served left, instream env source = (some served, left) ∧
        served.replies = [cutReply]
  /-- A payload held short of its stream is not answered `OK`. -/
  short : env.current.limitsExceeded ≠ .ok →
    ∀ after, rest source = frame chunks ++ after → ∀ held stream,
      bufferToSeekable (env.spill 0) (env.pieces 0) (env.newStream source) =
        (.ok held, stream) →
      held.payload.len < (payloadOf chunks).length →
        ∀ served left, instream env source = (some served, left) →
          served.replies ≠ [okReply]
  /-- Nor is a stream that was cut, also where its drain stopped at the cap. -/
  cut_short : env.current.limitsExceeded ≠ .ok → CutPart source chunks →
    ∀ served left, instream env source = (some served, left) →
      served.replies ≠ [okReply]

theorem cutReply_ne_okReply : cutReply ≠ okReply := by
  intro same
  have texts := congrArg String.length (Reply.line.inj same)
  exact absurd texts (by decide)

theorem drain_cut (part : CutPart source chunks)
    (handed : Instream.Hands given (env.newStream source) stream)
    (drain : stream.drain = (some ended, drained)) :
    ended = true → drained.truncated = true := by
  rintro rfl
  exact Instream.drainFrom_broken
    (handed.broken (Instream.broken_new part.1 part.2)) drain

theorem drain_capped (drain : stream.drain = (some false, drained)) :
    maxDrainBytes ≤ (rest stream.inner).length := by
  have capped := Instream.drainFrom_capped (by split <;> omega) drain
  rwa [Nat.zero_add] at capped

/-- A drain that stopped at its cap had something left to read. -/
theorem not_done_of_capped (drain : stream.drain = (some false, drained)) :
    stream.done = false := by
  by_contra done
  have ends : stream.done = true := by simpa using done
  unfold Instream.drain Instream.drainFrom at drain
  simp [ends] at drain

theorem whole_reads {after : Bytes} {lens : List Nat}
    (sent : rest source = frame chunks ++ after) (usable : Instream.Usable lens)
    (read : (env.newStream source).readEach lens = (some given, stream))
    (drain : stream.drain = (some ended, drained)) :
    (ended = true → drained.total = (payloadOf chunks).length ∧
        drained.truncated = false) ∧
      (ended = false → maxDrainBytes ≤ (payloadOf chunks).length) := by
  obtain ⟨handed, -⟩ := Instream.hands_readEach usable read
  obtain ⟨taken, payload, cut, left, total, -⟩ :=
    handed.taken _ after (Instream.left_new sent)
  obtain ⟨reached, behind⟩ := Instream.drain_left left drain
  rw [cut, List.length_append]
  constructor
  · intro complete
    obtain ⟨-, whole, count⟩ := behind complete
    refine ⟨?_, whole⟩
    rw [count, total]
    simp [Env.newStream, Instream.new]
  · intro stopped
    have small : ¬ payload.length < maxDrainBytes := by
      intro small
      have complete := reached.mpr (.inr small)
      rw [stopped] at complete
      cases complete
    omega

/-- The adapter hands over the stream and nothing else, finds out a stream that
was cut unless its drain stops at the cap, and what was not held whole is not
answered `OK` unless policy says so. -/
theorem instream_delivers (env : Env) (source : Source UInt8)
    (chunks : List Chunk) : Delivers env source chunks where
  whole := by
    intro after sent lens usable given stream ended drained read drain
    obtain ⟨first, all⟩ := Instream.readEach_new sent usable read
    exact ⟨first, all, whole_reads sent usable read drain⟩
  cut := by
    intro part lens usable given stream ended drained read drain
    obtain ⟨handed, -⟩ := Instream.hands_readEach usable read
    refine ⟨drain_cut part handed drain, ?_⟩
    rintro rfl
    exact (drain_capped drain).trans handed.shorter
  succeeds := by
    intro steady lens
    obtain ⟨given, stream, read, still⟩ :=
      @Instream.readEach_steady (env.newStream source) steady lens
    obtain ⟨ended, drained, drain⟩ := Instream.drainFrom_steady still _ _
    exact ⟨given, stream, ended, drained, read, drain⟩
  answered := by
    intro part served left ran reached
    obtain ⟨held, stream, ended, drained, buffered, drain, ending, outcome⟩ :=
      instream_cases ran
    obtain ⟨given, handed, -⟩ := hands_held buffered
    have complete : ended = true := by
      by_contra stopped
      apply reached
      rw [ending, Bool.eq_false_of_not_eq_true stopped]
      rfl
    have truncated := drain_cut part handed drain complete
    rcases outcome with ⟨-, replies⟩ | ⟨whole, -⟩
    · exact replies
    · rw [truncated] at whole
      cases whole
  answers := by
    intro part steady writable small
    obtain ⟨held, stream, buffered, still⟩ :=
      @bufferToSeekable_steady (env.newStream source) (env.spill 0)
        (env.pieces 0) steady writable
    obtain ⟨ended, drained, drain⟩ := Instream.drainFrom_steady still _ _
    obtain ⟨given, handed, -⟩ := hands_held buffered
    have complete : ended = true := by
      by_contra stopped
      rw [Bool.eq_false_of_not_eq_true stopped] at drain
      have capped := (drain_capped drain).trans handed.shorter
      exact absurd small (Nat.not_lt_of_le capped)
    have truncated := drain_cut part handed drain complete
    have ran : instream env source =
        (some ⟨[cutReply], .ofDrain (some ended)⟩, drained.inner) := by
      unfold instream
      rw [buffered]
      dsimp only
      rw [Instream.drain, drain]
      simp only [truncated, if_true]
      rfl
    exact ⟨_, _, ran, rfl⟩
  short := by
    intro strict after sent held stream buffered fewer served left ran
    obtain ⟨held', stream', ended, drained, buffered', drain, -, outcome⟩ :=
      instream_cases ran
    rw [buffered] at buffered'
    cases buffered'
    obtain ⟨given, handed, of⟩ := hands_held buffered
    rcases outcome with ⟨-, replies⟩ | ⟨-, verdict, reported, replies⟩
    · rw [replies]
      exact fun same => cutReply_ne_okReply (List.cons.inj same).1
    · have short : held.short ≠ none ∨ stream.overLimit = true := by
        by_contra whole
        rw [not_or, not_not, Bool.not_eq_true] at whole
        have same := held_whole sent handed of whole.1 whole.2
        rw [StreamPayload.len, same] at fewer
        omega
      rw [replies]
      intro same
      exact (scanHeld_unwhole handed drain short reported).not_ok strict
        (Reply.line.inj (List.cons.inj same).1)
  cut_short := by
    intro strict part served left ran
    obtain ⟨held, stream, ended, drained, buffered, drain, -, outcome⟩ :=
      instream_cases ran
    obtain ⟨given, handed, of⟩ := hands_held buffered
    rcases outcome with ⟨-, replies⟩ | ⟨whole, verdict, reported, replies⟩
    · rw [replies]
      exact fun same => cutReply_ne_okReply (List.cons.inj same).1
    · have stopped : ended = false := by
        by_contra complete
        have truncated := drain_cut part handed drain (by simpa using complete)
        rw [truncated] at whole
        cases whole
      subst stopped
      have going := not_done_of_capped drain
      have short : held.short ≠ none ∨ stream.overLimit = true := by
        by_cases full : held.short = none
        · rcases (of.2 full).2 with done | excess
          · rw [going] at done
            cases done
          · exact .inr excess
        · exact .inl full
      rw [replies]
      intro same
      exact (scanHeld_unwhole handed drain short reported).not_ok strict
        (Reply.line.inj (List.cons.inj same).1)

/-- A stream of two bytes that stops after the first is answered as cut. -/
theorem instream_delivers_cut : ∃ served left,
    instream (limitEnv 0) (buffered (toBeBytes 2 ++ [0]) []) =
      (some served, left) ∧ served.replies = [cutReply] := by
  have delivers := instream_delivers (limitEnv 0)
    (buffered (toBeBytes 2 ++ [0]) [])
    [⟨[0, 0], List.cons_ne_nil _ _, by decide⟩]
  refine delivers.answers ⟨⟨0 :: toBeBytes 0, rfl⟩, by decide⟩ ?_ ⟨nofun, ?_⟩ ?_
  · unfold Steady
    decide
  · exact fun _ _ => nofun
  · rw [rest_buffered]
    decide

/-! ### A cut past the drain -/

/-- The settings of the smallest daemon, with a policy that lets partial
verdicts pass. -/
def lenientEnv : Env :=
  { limitEnv 0 with current := ⟨.ok, .ok, .ok⟩ }

def longChunk : Chunk where
  data := 0 :: 0 :: (List.replicate maxDrainBytes 0 ++ [0])
  nonempty := List.cons_ne_nil _ _
  bounded := by
    rw [List.length_cons, List.length_cons, List.length_append,
      List.length_replicate, maxDrainBytes]
    decide

theorem data_longChunk :
    longChunk.data = 0 :: 0 :: (List.replicate maxDrainBytes 0 ++ [0]) := rfl

theorem length_longChunk : longChunk.data.length = maxDrainBytes + 3 := by
  rw [data_longChunk, List.length_cons, List.length_cons, List.length_append,
    List.length_replicate, List.length_singleton]

def longCut : Source UInt8 :=
  buffered (toBeBytes longChunk.data.length ++
    0 :: 0 :: List.replicate maxDrainBytes 0) []

theorem cutPart_longCut : CutPart longCut [longChunk] := by
  have framed : frame [longChunk] = rest longCut ++ 0 :: toBeBytes 0 := by
    rw [frame_cons, frame_nil, longCut, rest_buffered, rest_nil, List.append_nil]
    nth_rewrite 2 [data_longChunk]
    simp only [List.append_assoc, List.cons_append, List.nil_append]
  refine ⟨⟨_, framed.symm⟩, ?_⟩
  intro same
  rw [framed] at same
  have nothing := List.self_eq_append_right.mp same
  cases nothing

/-- A stream that stops where its drain does is answered on what was held. -/
theorem instream_stopped {n blocks : Nat} (bounded : n < 2 ^ 32)
    (room : blocks * drainBlock < n - 2)
    (cap : blocks * drainBlock = maxDrainBytes) :
    instream lenientEnv (buffered (toBeBytes n ++
        0 :: 0 :: List.replicate (blocks * drainBlock) 0) []) =
      (some ⟨[okReply], .atCap⟩, []) := by
  have two : 2 ≤ n := by omega
  have held := @hold_limit n (List.replicate (blocks * drainBlock) 0) two
    bounded
  have rounds : blocks < (rest (buffered
      (List.replicate (blocks * drainBlock) (0 : UInt8)) [])).length + 2 := by
    have grows : blocks ≤ blocks * drainBlock :=
      Nat.le_mul_of_pos_right blocks (by decide)
    rw [rest_buffered, rest_nil, List.append_nil, List.length_replicate]
    omega
  obtain ⟨stream, drain, left, whole⟩ :=
    @drainFrom_zeros blocks _ 0
      (pastLimit n (List.replicate (blocks * drainBlock) 0)) []
      (by rw [List.append_nil]; rfl) rfl room (by rw [Nat.zero_add, cap]) rounds
  have drained : (pastLimit n
      (List.replicate (blocks * drainBlock) 0)).drain = (some false, stream) :=
    drain
  have untruncated : stream.truncated = false := whole
  have past : 1 < stream.total :=
    Nat.lt_of_lt_of_le Nat.one_lt_two (Instream.drainFrom_counts drain).2
  have reported : lenientEnv.scanHeld ⟨.mem [0, 0], none⟩ stream.total =
      .report (maxFileSizeReport stream.total 1 lenientEnv.opts) := by
    simp only [Env.scanHeld, Icap.scanHeld, scanSeekable]
    exact if_pos past
  have answer : verdictLine lenientEnv.current "stream"
      (maxFileSizeReport stream.total 1 lenientEnv.opts) = "stream: OK" := rfl
  unfold instream
  have same : bufferToSeekable (lenientEnv.spill 0) (lenientEnv.pieces 0)
      (lenientEnv.newStream (buffered (toBeBytes n ++
        0 :: 0 :: List.replicate (blocks * drainBlock) 0) [])) =
      (.ok ⟨.mem [0, 0], none⟩, pastLimit n
        (List.replicate (blocks * drainBlock) 0)) := held
  rw [same]
  dsimp only
  rw [drained]
  simp only [untruncated, Bool.false_eq_true, if_false, reported, left, answer]
  rfl

/-- Past the drain, a stream that was cut can be answered `OK`. -/
theorem not_cutReply_longCut :
    ¬ ∀ (env : Env) (source : Source UInt8) (chunks : List Chunk)
      (served : Served) (left : Source UInt8), CutPart source chunks →
      instream env source = (some served, left) →
      served.replies = [cutReply] := by
  intro always
  have blocks : 8192 * drainBlock = maxDrainBytes := by decide
  have room : 8192 * drainBlock < longChunk.data.length - 2 := by
    rw [blocks, length_longChunk]
    omega
  have ran := instream_stopped longChunk.bounded room blocks
  rw [blocks] at ran
  have replies := always _ _ _ _ _ cutPart_longCut ran
  exact cutReply_ne_okReply (List.cons.inj replies).1.symm

end

end Exav.Daemon
