import Exav.Daemon.Framed
import Exav.Daemon.Session

/-!
# Replies and commands

A client sends commands, each with the payload its verb takes.  While every
stream command leaves the reader behind its payload, the commands a session
answers are the ones the client sent, in order.
-/

namespace Exav.Daemon

open Exav.Stream Exav.Icap

/-! ## What a client sends -/

/-- How a command line is sent: under a `z` or an `n` that selects its
terminator, or bare. -/
inductive Lead where
  | null
  | newline
  | bare
  deriving DecidableEq

namespace Lead

def delim : Lead → Delim
  | .null => .null
  | .newline | .bare => .newline

def mark : Lead → Bytes
  | .null => [122]
  | .newline => [110]
  | .bare => []

end Lead

/-- A command line.  A bare one has a first byte of its own. -/
structure CommandLine where
  lead : Lead
  text : Bytes
  closed : lead.delim.byte ∉ text
  bare : lead = .bare → ∃ first more, text = first :: more ∧ first ≠ 122 ∧
    first ≠ 110

namespace CommandLine

def encode (line : CommandLine) : Bytes :=
  line.lead.mark ++ (line.text ++ [line.lead.delim.byte])

def command (line : CommandLine) : Option (List Char) :=
  (fromUtf8 (if line.text.getLast? = some 13 then line.text.dropLast
    else line.text)).map trim

end CommandLine

/-- A file of a request with several. -/
structure SentFile where
  name : Bytes
  named : name ≠ []
  bounded : name.length < 2 ^ 32
  chunks : List Chunk

def SentFile.encode (file : SentFile) : Bytes :=
  toBeBytes file.name.length ++ (file.name ++ frame file.chunks)

/-- What follows a command line: the payload of its verb, or the bytes a
descriptor travels with. -/
inductive Payload where
  | nothing
  | stream (chunks : List Chunk)
  | files (files : List SentFile)
  | descriptor (bytes : Bytes)

namespace Payload

def encode : Payload → Bytes
  | .nothing => []
  | .stream chunks => frame chunks
  | .files sent => sent.flatMap SentFile.encode ++ toBeBytes 0
  | .descriptor bytes => bytes

def streams : Payload → List Bytes
  | .stream chunks => [payloadOf chunks]
  | .files sent => sent.map fun file => payloadOf file.chunks
  | .nothing | .descriptor _ => []

def Fits (payload : Payload) : Verb → Prop
  | .instream | .exinstream => ∃ chunks, payload = .stream chunks
  | .exinstreamMulti => ∃ files, payload = .files files
  | .fildes => ∃ bytes, payload = .descriptor bytes
  | .done | .blank | .reload | .shutdown | .other => payload = .nothing

end Payload

/-- A command as a client sends it. -/
structure Message where
  line : CommandLine
  payload : Payload
  fits : ∀ text, line.command = some text → payload.Fits (verbOf text)

namespace Message

def encode (message : Message) : Bytes :=
  message.line.encode ++ message.payload.encode

def asks (message : Message) : Bool :=
  message.line.command.all fun text => verbOf text != .blank

end Message

/-- The bytes of a sequence of commands. -/
def encodeAll (messages : List Message) : Bytes :=
  messages.flatMap Message.encode

/-! ## Command lines -/

theorem command_of_line {left after : Source UInt8} {line : CommandLine}
    {text : List Char} {delim : Delim}
    (decoded : (match fromUtf8 (stripLine line.lead.delim
        (line.text ++ [line.lead.delim.byte])) with
      | some text => (CommandRead.command text line.lead.delim, left)
      | none => (.invalid, left)) = (.command text delim, after)) :
    line.command = some (trim text) ∧ left = after := by
  have stripped : stripLine line.lead.delim
      (line.text ++ [line.lead.delim.byte]) =
      if line.text.getLast? = some 13 then line.text.dropLast
      else line.text := by
    simp [stripLine]
  rw [stripped] at decoded
  unfold CommandLine.command
  split at decoded
  · rename_i text₁ decodes
    simp only [Prod.mk.injEq, CommandRead.command.injEq] at decoded
    obtain ⟨⟨rfl, -⟩, rfl⟩ := decoded
    rw [decodes]
    exact ⟨rfl, rfl⟩
  · cases decoded

theorem readCommand_line {source left : Source UInt8} {line : CommandLine}
    {after : Bytes} {text : List Char} {delim : Delim}
    (sent : rest source = line.encode ++ after)
    (read : readCommand source = (.command text delim, left)) :
    line.command = some (trim text) ∧ rest left = after := by
  have first_byte : ∃ first held, line.text = held ++ line.text.drop held.length ∧
      delimOf first = (line.lead.delim, held) ∧
      line.encode = first ::
        (line.text.drop held.length ++ [line.lead.delim.byte]) := by
    rcases line with ⟨lead, body, closed, bare⟩
    cases lead with
    | null => exact ⟨122, [], by simp, rfl, rfl⟩
    | newline => exact ⟨110, [], by simp, rfl, rfl⟩
    | bare =>
        obtain ⟨first, more, same, not_z, not_n⟩ := bare rfl
        subst same
        exact ⟨first, [first], rfl, by simp [delimOf, not_z, not_n, Lead.delim],
          rfl⟩
  obtain ⟨first, held, start, select, encoded⟩ := first_byte
  have absent : line.lead.delim.byte ∉ line.text.drop held.length :=
    fun member => line.closed (List.mem_of_mem_drop member)
  rw [encoded] at sent
  unfold readCommand at read
  split at read
  · cases read
  · cases read
  · rename_i byte tail source₁ one
    obtain ⟨split, bound, -⟩ := readFull_rest one
    have single : tail = [] := by
      rw [← List.length_eq_zero_iff]
      simpa using bound
    subst single
    rw [sent] at split
    simp only [List.cons_append, List.append_assoc, List.nil_append,
      List.cons.injEq] at split
    obtain ⟨rfl, behind⟩ := split
    rw [select] at read
    dsimp only at read
    split at read
    · rename_i full source₂ found
      obtain ⟨body, rfl, missing, cut⟩ := readThrough_found found
      rw [← behind] at cut
      obtain ⟨rfl, rfl⟩ := cut_unique absent missing cut
      rw [← start] at read
      obtain ⟨command, rfl⟩ := command_of_line read
      exact ⟨command, rfl⟩
    · rename_i full source₂ ended
      obtain ⟨-, missing, -⟩ := readThrough_ended ended
      rw [← behind] at missing
      simp at missing
    · cases read
    · cases read

/-! ## Where a command ends -/

/-- What the ending of a command says of the reader: behind the payload, or in
a stream as long as the drain's cap.  Only a request with several files is
refused inside, and only the extended commands go on after a failed read. -/
structure Ends (verb : Verb) (streams : List Bytes) (after : Bytes)
    (served : Served) (source : Source UInt8) : Prop where
  reached : served.ending = .reached → rest source = after
  atCap : served.ending = .atCap →
    ∃ payload ∈ streams, maxDrainBytes ≤ payload.length
  refused : served.ending = .refused → verb = .exinstreamMulti
  failed : served.ending = .failed →
    verb = .exinstream ∨ verb = .exinstreamMulti

section

variable {env : Env} {source source' : Source UInt8} {after : Bytes}
  {served : Served}

theorem ends_drain {verb : Verb} {chunks : List Chunk} {streams : List Bytes}
    {spill : Spill} {pieces : Nat → Nat} {stream drained : Instream}
    {result : Except ReadError Held} {ended : Bool} {replies : List Reply}
    (sent : rest source = frame chunks ++ after)
    (one_of : payloadOf chunks ∈ streams)
    (heard : result ≠ .error .transport)
    (buffered : bufferToSeekable spill pieces (env.newStream source) =
      (result, stream))
    (drain : stream.drain = (some ended, drained)) :
    Ends verb streams after ⟨replies, .ofDrain (some ended)⟩ drained.inner := by
  obtain ⟨complete, capped⟩ := drain_held sent heard buffered drain
  cases ended with
  | true =>
      refine ⟨fun _ => (complete rfl).1, ?_, ?_, ?_⟩
      all_goals
        intro other
        cases other
  | false =>
      refine ⟨?_, fun _ => ⟨_, one_of, capped rfl⟩, ?_, ?_⟩
      all_goals
        intro other
        cases other

theorem ends_instream {chunks : List Chunk}
    (sent : rest source = frame chunks ++ after)
    (run : instream env source = (some served, source')) :
    Ends .instream [payloadOf chunks] after served source' := by
  unfold instream at run
  split at run
  · cases run
  · rename_i held stream buffered
    split at run
    · cases run
    · rename_i ended drained drain
      have heard : (Except.ok held : Except ReadError Held) ≠
          .error .transport := by simp
      have ends {replies : List Reply} : Ends .instream [payloadOf chunks] after
          ⟨replies, .ofDrain (some ended)⟩ drained.inner :=
        ends_drain sent List.mem_cons_self heard buffered drain
      dsimp only at run
      split at run
      · cases run
        exact ends
      · split at run
        · cases run
          exact ends
        · cases run
        · cases run

/-- A stream that could not be held is drained all the same. -/
theorem ends_readFailed {verb : Verb} {chunks : List Chunk}
    {streams : List Bytes} {spill : Spill} {pieces : Nat → Nat}
    {stream : Instream} {e : ReadError}
    (extended : verb = .exinstream ∨ verb = .exinstreamMulti)
    (sent : rest source = frame chunks ++ after)
    (one_of : payloadOf chunks ∈ streams)
    (buffered : bufferToSeekable spill pieces (env.newStream source) =
      (.error e, stream))
    (run : readFailed e stream = (some served, source')) :
    Ends verb streams after served source' := by
  unfold readFailed at run
  have failing {replies : List Reply} {source₂ : Source UInt8} :
      Ends verb streams after ⟨replies, .failed⟩ source₂ := by
    refine ⟨?_, ?_, ?_, fun _ => extended⟩
    all_goals
      intro other
      cases other
  split at run
  rename_i ended drained drain
  cases e with
  | transport =>
      cases run
      exact failing
  | spill =>
      cases run
      cases ended with
      | none => exact failing
      | some ended =>
          exact ends_drain sent one_of (by simp) buffered drain

theorem ends_exinstream {chunks : List Chunk}
    (sent : rest source = frame chunks ++ after)
    (run : exinstream env source = (some served, source')) :
    Ends .exinstream [payloadOf chunks] after served source' := by
  unfold exinstream at run
  split at run
  · rename_i e stream buffered
    exact ends_readFailed (Or.inl rfl) sent List.mem_cons_self buffered run
  · rename_i held stream buffered
    split at run
    · cases run
    · rename_i ended drained drain
      have heard : (Except.ok held : Except ReadError Held) ≠
          .error .transport := by simp
      have ends {replies : List Reply} :
          Ends .exinstream [payloadOf chunks] after
            ⟨replies, .ofDrain (some ended)⟩ drained.inner :=
        ends_drain sent List.mem_cons_self heard buffered drain
      dsimp only at run
      split at run
      · cases run
        exact ends
      · split at run
        · cases run
          exact ends
        · cases run
          exact ends
        · cases run

end

/-! ## Several files -/

section

variable {env : Env} {source source' : Source UInt8} {after : Bytes}
  {served : Served}

theorem encode_files_cons (file : SentFile) (files : List SentFile) :
    (Payload.files (file :: files)).encode =
      toBeBytes file.name.length ++ (file.name ++ (frame file.chunks ++
        (Payload.files files).encode)) := by
  simp [Payload.encode, SentFile.encode]

theorem readFileHead_files {files : List SentFile} {head : FileHead}
    (sent : rest source = (Payload.files files).encode ++ after)
    (read : readFileHead source = (head, source')) :
    head ≠ .cut ∧ (head = .finished → rest source' = after) ∧
      (∀ length, head = .name length → ∃ file more, files = file :: more ∧
        length = file.name.length ∧
        rest source' = file.name ++ (frame file.chunks ++
          ((Payload.files more).encode ++ after))) := by
  unfold readFileHead at read
  split at read
  · cases read
    simp
  · rename_i len left full
    obtain ⟨split, bound, ended⟩ := readFull_rest full
    have four : len.length = 4 := by
      by_contra short
      have nothing := ended (by omega)
      have lengths := congrArg List.length (sent.symm.trans split)
      rw [nothing] at lengths
      cases files with
      | nil =>
          simp [Payload.encode] at lengths
          omega
      | cons file files =>
          rw [encode_files_cons] at lengths
          simp at lengths
          omega
    rw [if_neg (by omega)] at read
    cases files with
    | nil =>
        rw [sent] at split
        obtain ⟨rfl, behind⟩ := List.append_inj split (by simp [four, Payload.encode])
        have zero : fromBeBytes (Payload.files []).encode = 0 := by
          simp [Payload.encode, fromBeBytes, toBeBytes]
        rw [zero] at read
        simp only [if_true, Prod.mk.injEq] at read
        obtain ⟨rfl, rfl⟩ := read
        simp [behind]
    | cons file files =>
        rw [sent, encode_files_cons, List.append_assoc] at split
        obtain ⟨rfl, behind⟩ := List.append_inj split (by simp [four])
        rw [fromBeBytes_toBeBytes file.bounded] at read
        have positive : file.name.length ≠ 0 := by
          simpa using file.named
        rw [if_neg positive] at read
        split at read
        · cases read
          simp
        · cases read
          refine ⟨by simp, by simp, ?_⟩
          intro length same
          cases same
          refine ⟨file, files, rfl, rfl, ?_⟩
          rw [← behind, List.append_assoc, List.append_assoc]

theorem ends_behind {verb : Verb} {streams : List Bytes}
    (replies : List Reply) (behind : rest source = after) :
    Ends verb streams after ⟨replies, .reached⟩ source := by
  refine ⟨fun _ => behind, ?_, ?_, ?_⟩
  all_goals
    intro other
    cases other

theorem Ends.inside {streams : List Bytes}
    (ends : Ends .exinstreamMulti streams after served source)
    (short : served.ending ≠ .reached) (after' : Bytes) :
    Ends .exinstreamMulti streams after' served source :=
  { ends with reached := fun complete => absurd complete short }

theorem ends_refused (streams : List Bytes) (after : Bytes)
    (source : Source UInt8) {replies : List Reply} :
    Ends .exinstreamMulti streams after ⟨replies, .refused⟩ source := by
  refine ⟨?_, ?_, fun _ => rfl, ?_⟩
  all_goals
    intro other
    cases other

/-- Reading one file of a request: the reader is behind the file when the
request goes on. -/
theorem ends_readFile {request : Request} {file : SentFile}
    {streams : List Bytes} {outcome : FileRead}
    (sent : rest source = file.name ++ (frame file.chunks ++ after))
    (one_of : payloadOf file.chunks ∈ streams)
    (read : readFile env request file.name.length source = (outcome, source')) :
    (∀ served, outcome = .finished (some served) →
        ∀ after', Ends .exinstreamMulti streams after' served source') ∧
      (∀ request', outcome = .more request' → rest source' = after) := by
  unfold readFile at read
  split at read
  · cases read
    simp
  · rename_i raw left full
    obtain ⟨split, bound, ended⟩ := readFull_rest full
    have whole : raw.length = file.name.length := by
      by_contra short
      have nothing := ended (by omega)
      have lengths := congrArg List.length (sent.symm.trans split)
      rw [nothing] at lengths
      simp at lengths
      omega
    rw [if_neg (by omega)] at read
    rw [sent] at split
    obtain ⟨rfl, framed⟩ := List.append_inj split whole.symm
    dsimp only at read
    split at read
    · rename_i e stream buffered
      simp only [Prod.mk.injEq] at read
      obtain ⟨rfl, rfl⟩ := read
      refine ⟨?_, by simp⟩
      intro served ended_with after'
      simp only [FileRead.finished.injEq, Option.map_eq_some_iff] at ended_with
      obtain ⟨served₁, drained, rfl⟩ := ended_with
      have run : readFailed e stream =
          (some served₁, (readFailed e stream).2) := Prod.ext drained rfl
      have ends := ends_readFailed (Or.inr rfl) framed.symm one_of buffered run
      by_cases complete : served₁.ending = .reached
      · rw [if_pos complete]
        exact ends_refused streams after' _
      · rw [if_neg complete]
        exact ends.inside complete after'
    · rename_i held stream buffered
      have heard : (Except.ok held : Except ReadError Held) ≠
          .error .transport := by simp
      split at read
      · cases read
        simp
      · rename_i complete drained drain
        obtain ⟨behind, capped⟩ := drain_held framed.symm heard buffered drain
        split at read
        · cases read
          simp
        · cases complete with
          | true =>
              obtain ⟨at_end, untruncated, -⟩ := behind rfl
              rw [untruncated] at read
              simp only [Bool.not_true, Bool.or_self, Bool.false_eq_true,
                if_false] at read
              split at read
              · cases read
                refine ⟨?_, by simp⟩
                intro served ended_with after'
                cases ended_with
                exact ends_refused streams after' _
              · cases read
                exact ⟨by simp, fun _ _ => at_end⟩
          | false =>
              simp only [Bool.not_false, Bool.true_or, if_true] at read
              cases read
              refine ⟨?_, by simp⟩
              intro served ended_with after'
              cases ended_with
              refine ⟨?_, fun _ => ⟨_, one_of, capped rfl⟩, ?_, ?_⟩
              all_goals
                intro other
                cases other

theorem ends_multiFrom {room : Nat} {request : Request}
    {files : List SentFile} {streams : List Bytes}
    (sent : rest source = (Payload.files files).encode ++ after)
    (among : ∀ file ∈ files, payloadOf file.chunks ∈ streams)
    (run : multiFrom env room request source = (some served, source')) :
    Ends .exinstreamMulti streams after served source' := by
  induction room generalizing request files source with
  | zero =>
      unfold multiFrom at run
      split at run
      all_goals
        rename_i left head
        obtain ⟨uncut, finished, -⟩ := readFileHead_files sent head
        cases run
      · exact absurd rfl uncut
      · exact ends_behind _ (finished rfl)
      · exact ends_refused streams after _
      · exact ends_refused streams after _
  | succ room ih =>
      unfold multiFrom at run
      split at run
      · cases run
      · rename_i left head
        exact absurd rfl (readFileHead_files sent head).1
      · rename_i left head
        cases run
        exact ends_behind _ ((readFileHead_files sent head).2.1 rfl)
      · cases run
        exact ends_refused streams after _
      · rename_i length left head
        obtain ⟨-, -, named⟩ := readFileHead_files sent head
        obtain ⟨file, more, rfl, rfl, behind⟩ := named length rfl
        have one_of := among file List.mem_cons_self
        dsimp only at run
        split at run
        · rename_i served₁ left₁ read
          cases run
          exact (ends_readFile behind one_of read).1 served rfl after
        · rename_i request₁ left₁ read
          apply ih ((ends_readFile behind one_of read).2 request₁ rfl) _ run
          intro file member
          exact among file (.tail _ member)

end

/-! ## Sessions -/

def TakesRides (env : Nat → Env) (messages : List Message) : Prop :=
  ∀ message ∈ messages, ∀ bytes, message.payload = .descriptor bytes →
    ∀ n source after, rest source = bytes ++ after →
      rest ((env n).takeFd source).2 = after

/-- An exchange answers the command of its rank `k`, and its ending tells where
the reader is. -/
def Answers (messages : List Message) (k : Nat) (exchange : Exchange) : Prop :=
  ∃ before message after, messages = before ++ message :: after ∧
    (before.filter Message.asks).length = k ∧ message.asks = true ∧
    message.line.command = some exchange.text ∧
    Ends (verbOf exchange.text) message.payload.streams (encodeAll after)
      exchange.served exchange.source

theorem ends_runCommand {env : Env} {source source' : Source UInt8}
    {after : Bytes} {served : Served} {payload : Payload} {text : List Char}
    (sent : rest source = payload.encode ++ after)
    (fits : payload.Fits (verbOf text))
    (rides : ∀ bytes, payload = .descriptor bytes → ∀ source after,
      rest source = bytes ++ after → rest (env.takeFd source).2 = after)
    (run : runCommand env text source = (some served, source')) :
    Ends (verbOf text) payload.streams after served source' := by
  unfold runCommand at run
  cases verb : verbOf text with
  | instream =>
      rw [verb] at fits run
      obtain ⟨chunks, rfl⟩ := fits
      exact ends_instream sent run
  | exinstream =>
      rw [verb] at fits run
      obtain ⟨chunks, rfl⟩ := fits
      exact ends_exinstream sent run
  | exinstreamMulti =>
      rw [verb] at fits run
      obtain ⟨files, rfl⟩ := fits
      apply ends_multiFrom sent _ run
      intro file member
      exact List.mem_map_of_mem member
  | fildes =>
      rw [verb] at fits run
      obtain ⟨bytes, rfl⟩ := fits
      have behind := rides bytes rfl source after sent
      dsimp only [fildes] at run
      split at run
      all_goals
        rename_i taken
        cases run
        rw [taken] at behind
        exact ends_behind _ behind
  | done | blank | reload | shutdown | other =>
      rw [verb] at fits run
      cases fits
      cases run
      exact ends_behind _ sent

theorem readCommand_end {source left : Source UInt8} {text : List Char}
    {delim : Delim} (nothing : rest source = []) :
    readCommand source ≠ (.command text delim, left) := by
  unfold readCommand
  split
  · simp
  · simp
  · rename_i first more left full
    obtain ⟨split, -, -⟩ := readFull_rest full
    rw [nothing] at split
    cases split

theorem Answers.cons {messages : List Message} {k : Nat} {exchange : Exchange}
    (answers : Answers messages k exchange) (message : Message) :
    Answers (message :: messages) (if message.asks then k + 1 else k)
      exchange := by
  obtain ⟨before, asked, after, rfl, rank, asks, command, ends⟩ := answers
  refine ⟨message :: before, asked, after, rfl, ?_, asks, command, ends⟩
  rw [List.filter_cons]
  split <;> simp [rank]

/-- What one round of a session does: it ends the session, skips an empty
command, or answers one. -/
theorem session_succ (env : Nat → Env) (tagged : Bool) (rounds n : Nat)
    (source : Source UInt8) :
    session env tagged (rounds + 1) n source = [] ∨
      ∃ line delim left, readCommand source = (.command line delim, left) ∧
        ((verbOf (trim line) = .blank ∧
            session env tagged (rounds + 1) n source =
              session env tagged rounds n left) ∨
          (verbOf (trim line) ≠ .blank ∧ ∃ served left',
            runCommand (env n) (trim line) left = (some served, left') ∧
            session env tagged (rounds + 1) n source =
              ⟨if tagged then some (n + 1) else none, trim line, delim, served,
                left'⟩ :: session env tagged rounds (n + 1) left')) := by
  rw [session]
  split
  · exact Or.inl rfl
  · exact Or.inl rfl
  · rename_i line delim left read
    dsimp only
    split
    · exact Or.inl rfl
    · rename_i blank
      exact Or.inr ⟨line, delim, left, read, Or.inl ⟨blank, rfl⟩⟩
    · rename_i blank
      split
      · exact Or.inl rfl
      · rename_i served left' run
        split
        · exact Or.inr ⟨line, delim, left, read,
            Or.inr ⟨blank, served, left', run, rfl⟩⟩
        · exact Or.inl rfl

/-- As long as each stream was read to its end, the `k`-th exchange is about the
`k`-th command. -/
theorem session_answers {env : Nat → Env} {tagged : Bool} {rounds n : Nat}
    {messages : List Message} {source : Source UInt8}
    (sent : rest source = encodeAll messages)
    (rides : TakesRides env messages) :
    ∀ k exchange, (session env tagged rounds n source)[k]? = some exchange →
      (∀ j earlier, j < k →
        (session env tagged rounds n source)[j]? = some earlier →
        earlier.served.ending = .reached) →
      Answers messages k exchange := by
  induction rounds generalizing n messages source with
  | zero => simp [session]
  | succ rounds ih =>
      intro k exchange at_k earlier_reached
      rcases session_succ env tagged rounds n source with
        over_now | ⟨line, delim, left, read, next⟩
      · simp [over_now] at at_k
      cases messages with
      | nil => exact absurd read (readCommand_end sent)
      | cons message messages =>
          have line_sent : rest source = message.line.encode ++
              (message.payload.encode ++ encodeAll messages) := by
            rw [sent]
            simp [encodeAll, Message.encode]
          obtain ⟨command, behind⟩ := readCommand_line line_sent read
          have fits := message.fits _ command
          have rides' : TakesRides env messages :=
            fun other member => rides other (.tail _ member)
          rcases next with ⟨blank, same⟩ | ⟨asked, served, left', run, same⟩
          · rw [blank] at fits
            rw [same] at at_k earlier_reached
            have silent : message.asks = false := by
              simp [Message.asks, command, blank]
            have nothing : message.payload = .nothing := fits
            rw [nothing] at behind
            have answers := (ih behind rides' k exchange at_k
              earlier_reached).cons message
            rwa [silent] at answers
          · have asks : message.asks = true := by
              simpa [Message.asks, command] using asked
            have ends := ends_runCommand behind fits
              (fun bytes same => rides message List.mem_cons_self bytes same n)
              run
            rw [same] at at_k earlier_reached
            cases k with
            | zero =>
                simp only [List.getElem?_cons_zero, Option.some.injEq] at at_k
                subst at_k
                exact ⟨[], message, messages, rfl, rfl, asks, command, ends⟩
            | succ k =>
                have complete := earlier_reached 0 _ (Nat.succ_pos k) rfl
                have answers := (ih (ends.reached complete) rides' k exchange
                  at_k (fun j earlier before at_j =>
                    earlier_reached (j + 1) earlier (Nat.succ_lt_succ before)
                      at_j)).cons message
                rwa [asks] at answers

theorem handleConn_session {env : Nat → Env} {rounds : Nat}
    {source left : Source UInt8} {line : List Char} {delim : Delim}
    {tagged : Bool} (read : readCommand source = (.command line delim, left))
    (opens : opensSession (trim line) = some tagged) :
    handleConn env rounds source = session env tagged rounds 0 left := by
  simp only [handleConn, read, opens]

/-- As long as each stream of the session was read to its end, its `k`-th reply
answers the `k`-th command, and leaves the reader as its ending says. -/
theorem handleConn_answers {env : Nat → Env} {rounds : Nat}
    {opening : CommandLine} {messages : List Message} {source : Source UInt8}
    {name : List Char} {tagged : Bool}
    (command : opening.command = some name)
    (opens : opensSession name = some tagged)
    (sent : rest source = opening.encode ++ encodeAll messages)
    (rides : TakesRides env messages) :
    ∀ k exchange, (handleConn env rounds source)[k]? = some exchange →
      (∀ j earlier, j < k →
        (handleConn env rounds source)[j]? = some earlier →
        earlier.served.ending = .reached) →
      Answers messages k exchange := by
  cases read : readCommand source with
  | mk first left =>
      cases first with
      | closed => simp [handleConn, read]
      | invalid => simp [handleConn, read]
      | command line delim =>
          obtain ⟨same, behind⟩ := readCommand_line sent read
          rw [command, Option.some.injEq] at same
          subst same
          rw [handleConn_session read opens]
          exact session_answers behind rides

/-! ### A session of two commands -/

/-- A daemon whose input limit is one byte, in its smallest settings. -/
def limitEnv (_ : Nat) : Env where
  opts := ⟨some 1, false, none⟩
  current := ⟨.partialScan, .partialScan, .partialScan⟩
  engine := fun _ _ _ => .report .clean
  locate := fun _ _ => none
  spill := fun _ => ⟨16, none, fun _ _ => none⟩
  pieces := fun _ _ => 1
  rejoin := fun _ _ => []
  answer := fun _ => ["PONG"]
  shutdown := false
  takeFd := fun source => (none, source)
  writes := true

def sessionLine : CommandLine where
  lead := .newline
  text := text "SESSION"
  closed := by decide
  bare := nofun

/-- An `INSTREAM` command with its stream. -/
def instreamMessage (chunks : List Chunk) : Message where
  line :=
    { lead := .newline
      text := text "INSTREAM"
      closed := by decide
      bare := nofun }
  payload := .stream chunks
  fits := by
    intro name command
    have same : name = "INSTREAM".toList := by
      have read : some "INSTREAM".toList = some name := command
      exact (Option.some.inj read).symm
    subst same
    have verb : verbOf "INSTREAM".toList = .instream := by decide
    rw [verb]
    exact ⟨chunks, rfl⟩

def pingMessage : Message where
  line :=
    { lead := .newline
      text := text "PING"
      closed := by decide
      bare := nofun }
  payload := .nothing
  fits := by
    intro name command
    have same : name = "PING".toList := by
      have read : some "PING".toList = some name := command
      exact (Option.some.inj read).symm
    subst same
    rfl

def byteMessage : Message :=
  instreamMessage [⟨[0], List.cons_ne_nil _ _, by decide⟩]

theorem handleConn_answers_ping :
    Answers [byteMessage, pingMessage] 1
      ⟨none, "PING".toList, .newline, ⟨[.line "PONG"], .reached⟩, []⟩ := by
  apply @handleConn_answers limitEnv 2 sessionLine [byteMessage, pingMessage]
    (buffered (sessionLine.encode ++ encodeAll [byteMessage, pingMessage]) [])
    "SESSION".toList false (by decide) (by decide) (rest_buffered _ _)
  · intro message member bytes descriptor
    simp only [List.mem_cons, List.not_mem_nil, or_false] at member
    rcases member with rfl | rfl
    · cases descriptor
    · cases descriptor
  · rfl
  · intro j earlier first at_j
    obtain rfl : j = 0 := by omega
    have ending : ((handleConn limitEnv 2
        (buffered (sessionLine.encode ++
          encodeAll [byteMessage, pingMessage]) []))[0]?.map
        fun exchange => exchange.served.ending) = some .reached := rfl
    rw [at_j] at ending
    exact Option.some.inj ending

/-! ### A stream past the drain -/

theorem readCommand_buffered {body after : Bytes} {chars : List Char}
    (absent : 10 ∉ body) (plain : body.getLast? ≠ some 13)
    (decodes : fromUtf8 body = some chars) :
    readCommand (buffered (110 :: (body ++ 10 :: after)) []) =
      (.command chars .newline, buffered after []) := by
  have one : readFull 1 (buffered (110 :: (body ++ 10 :: after)) []) =
      (some [110], buffered (body ++ 10 :: after) []) :=
    readFull_buffered [] (by simp)
  have line := @readThrough_buffered UInt8 _ _ 10 maxCommand [] body after []
    absent
  have select : delimOf 110 = (.newline, []) := rfl
  have strip : stripLine .newline (body ++ [10]) = body := by
    simp [stripLine, Delim.byte, plain]
  simp only [readCommand, one, select, Delim.byte, line, List.nil_append, strip,
    decodes]

theorem session_answer {env : Nat → Env} {tagged : Bool} {rounds n : Nat}
    {source left left' : Source UInt8} {line : List Char} {delim : Delim}
    {served : Served} (read : readCommand source = (.command line delim, left))
    (not_done : verbOf (trim line) ≠ .done)
    (not_blank : verbOf (trim line) ≠ .blank)
    (run : runCommand (env n) (trim line) left = (some served, left'))
    (writes : (env n).writes = true) :
    session env tagged (rounds + 1) n source =
      ⟨if tagged then some (n + 1) else none, trim line, delim, served,
        left'⟩ :: session env tagged rounds (n + 1) left' := by
  rw [session, read]
  dsimp only
  split
  · rename_i done
    exact absurd done not_done
  · rename_i blank
    exact absurd blank not_blank
  · rw [run]
    dsimp only
    rw [if_pos writes]

theorem drainFrom_zeros {blocks rounds drained : Nat} {stream : Instream}
    {after : Bytes} (held : stream.inner =
      buffered (List.replicate (blocks * drainBlock) 0 ++ after) [])
    (going : stream.done = false)
    (more : blocks * drainBlock < stream.remaining)
    (full : drained + blocks * drainBlock = maxDrainBytes)
    (enough : blocks < rounds) :
    ∃ stream', stream.drainFrom rounds drained = (some false, stream') ∧
      stream'.inner = buffered after [] ∧ stream'.truncated = stream.truncated := by
  induction blocks generalizing rounds drained stream with
  | zero =>
      obtain ⟨rounds, rfl⟩ := Nat.exists_eq_succ_of_ne_zero (Nat.ne_of_gt enough)
      refine ⟨stream, ?_, by simpa using held, rfl⟩
      have capped : maxDrainBytes ≤ drained := by omega
      simp [Instream.drainFrom, going, capped]
  | succ blocks ih =>
      obtain ⟨rounds, rfl⟩ :=
        Nat.exists_eq_succ_of_ne_zero (Nat.ne_of_gt (Nat.zero_lt_of_lt enough))
      have block : (blocks + 1) * drainBlock = drainBlock + blocks * drainBlock := by
        rw [Nat.succ_mul, Nat.add_comm]
      have positive : 0 < drainBlock := by decide
      rw [block] at held more full
      have room : ¬ maxDrainBytes ≤ drained := by omega
      have inside : stream.remaining ≠ 0 := by omega
      have want : min stream.remaining drainBlock = drainBlock :=
        Nat.min_eq_right (by omega)
      have read := @readFull_buffered UInt8 drainBlock
        (List.replicate (drainBlock + blocks * drainBlock) 0 ++ after) []
        (by simp; omega)
      rw [List.replicate_add, List.append_assoc,
        List.take_left' List.length_replicate,
        List.drop_left' List.length_replicate] at read
      rw [List.replicate_add, List.append_assoc] at held
      unfold Instream.drainFrom
      rw [going, if_neg Bool.false_ne_true, if_neg room, if_neg inside, want,
        held, read]
      split
      · rename_i fault
        cases fault
      · rename_i nothing
        simp only [Prod.mk.injEq, Option.some.injEq,
          List.replicate_eq_nil_iff] at nothing
        omega
      · rename_i got inner nonempty taken
        cases taken
        rw [List.length_replicate]
        exact ih rfl rfl (by dsimp only; omega) (by omega) (by omega)

/-- Whether every reply of a session answers the command of its rank, the reader
then standing behind the payload unless no command follows. -/
def KeepsRank (env : Nat → Env) (rounds : Nat) (source : Source UInt8)
    (messages : List Message) : Prop :=
  ∀ k exchange, (handleConn env rounds source)[k]? = some exchange →
    ∃ before message after, messages = before ++ message :: after ∧
      (before.filter Message.asks).length = k ∧
      message.line.command = some exchange.text ∧
      (rest exchange.source = encodeAll after ∨
        (handleConn env rounds source).length = k + 1)

/-- As many zeros as the adapter and the drain take, and a command. -/
def flood : Bytes :=
  0 :: 0 :: (List.replicate maxDrainBytes 0 ++ text "nPING\n")

def floodChunk : Chunk where
  data := flood
  nonempty := List.cons_ne_nil _ _
  bounded := by
    have command : (text "nPING\n").length = 6 := rfl
    rw [flood, List.length_cons, List.length_cons, List.length_append,
      List.length_replicate, command, maxDrainBytes]
    omega

def floodMessage : Message :=
  instreamMessage [floodChunk]

/-- The adapter after the two bytes the limit lets it hand over. -/
def pastLimit (n : Nat) (more : Bytes) : Instream where
  inner := buffered more []
  remaining := n - 2
  done := false
  truncated := false
  total := 2
  max := some 1
  overLimit := true

theorem read_limit {n : Nat} {more : Bytes} (two : 2 ≤ n)
    (bounded : n < 2 ^ 32) :
    ((limitEnv 0).newStream
      (buffered (toBeBytes n ++ 0 :: 0 :: more) [])).read 2 =
      (some [0, 0], pastLimit n more) := by
  have length : readFull 4 (buffered (toBeBytes n ++ 0 :: 0 :: more) []) =
      (some (toBeBytes n), buffered (0 :: 0 :: more) []) :=
    readFull_buffered [] (by simp)
  have positive : n ≠ 0 := by omega
  have want : min n 2 = 2 := Nat.min_eq_right two
  have bytes : readSome 2 (buffered (0 :: 0 :: more) []) =
      (some [0, 0], buffered more []) :=
    readSome_buffered [] (List.cons_ne_nil _ _)
  simp [Instream.read, Env.newStream, Instream.new, Instream.nextChunk, length,
    fromBeBytes_toBeBytes bounded, positive, Instream.readChunk, want, bytes,
    limitEnv, pastLimit]

theorem hold_limit {n : Nat} {more : Bytes} (two : 2 ≤ n)
    (bounded : n < 2 ^ 32) :
    bufferToSeekable ((limitEnv 0).spill 0) ((limitEnv 0).pieces 0)
      ((limitEnv 0).newStream (buffered (toBeBytes n ++ 0 :: 0 :: more) [])) =
      (.ok ⟨.mem [0, 0], none⟩, pastLimit n more) := by
  have first := @read_limit n more two bounded
  have second : (pastLimit n more).read 2 = (some [], pastLimit n more) := rfl
  have head : readToEnd (fun _ => 1) 16 0 16 []
      ((limitEnv 0).newStream
        (buffered (toBeBytes n ++ 0 :: 0 :: more) [])) =
      (some [0, 0], pastLimit n more) := by
    rw [readToEnd, if_neg (by decide), show min 16 (1 + 1) = 2 from rfl, first]
    dsimp only
    rw [readToEnd, if_neg (by decide),
      show min (16 - [(0 : UInt8), 0].length) (1 + 1) = 2 from rfl, second]
    rfl
  unfold bufferToSeekable
  rw [show ((limitEnv 0).spill 0).threshold = 16 from rfl,
    show (limitEnv 0).pieces 0 = fun _ => 1 from rfl, head]
  rfl

/-- A stream of which the limit lets two bytes through and the drain takes its
cap of zeros: the reader is left at the next byte of the payload. -/
theorem instream_atCap {chunk : Chunk} {blocks : Nat} {more : Bytes}
    (data : chunk.data = 0 :: 0 :: (List.replicate (blocks * drainBlock) 0 ++ more))
    (goes_on : more ≠ []) (cap : blocks * drainBlock = maxDrainBytes) :
    ∃ replies, instream (limitEnv 0) (buffered (frame [chunk]) []) =
      (some ⟨replies, .atCap⟩, buffered (more ++ toBeBytes 0) []) := by
  have two : 2 ≤ chunk.data.length := by
    rw [data, List.length_cons, List.length_cons]
    omega
  have held := @hold_limit chunk.data.length
    (List.replicate (blocks * drainBlock) 0 ++ (more ++ toBeBytes 0)) two
    chunk.bounded
  have framed : frame [chunk] = toBeBytes chunk.data.length ++
      0 :: 0 :: (List.replicate (blocks * drainBlock) 0 ++
        (more ++ toBeBytes 0)) := by
    rw [frame_cons, frame_nil, data]
    simp
  have room : blocks * drainBlock < chunk.data.length - 2 := by
    have some_more : 0 < more.length := List.length_pos_of_ne_nil goes_on
    rw [data, List.length_cons, List.length_cons, List.length_append,
      List.length_replicate]
    omega
  rw [← framed] at held
  have rounds : blocks < (rest (buffered
      (List.replicate (blocks * drainBlock) (0 : UInt8) ++
        (more ++ toBeBytes 0)) [])).length + 2 := by
    have grows : blocks ≤ blocks * drainBlock :=
      Nat.le_mul_of_pos_right blocks (by decide)
    rw [rest_buffered, List.length_append, List.length_append,
      List.length_replicate]
    omega
  obtain ⟨stream, drain, left, whole⟩ :=
    @drainFrom_zeros blocks _ 0 (pastLimit chunk.data.length _)
      (more ++ toBeBytes 0) rfl rfl room (by rw [Nat.zero_add, cap]) rounds
  have drained : (pastLimit chunk.data.length
      (List.replicate (blocks * drainBlock) 0 ++ (more ++ toBeBytes 0))).drain =
        (some false, stream) := drain
  have untruncated : stream.truncated = false := whole
  obtain ⟨verdict, reported⟩ : ∃ verdict,
      (limitEnv 0).scanHeld ⟨.mem [0, 0], none⟩ stream.total =
        .report verdict := by
    simp only [Env.scanHeld, Icap.scanHeld, scanSeekable, limitEnv]
    split
    · exact ⟨_, rfl⟩
    · exact ⟨_, rfl⟩
  refine ⟨[.line (verdictLine (limitEnv 0).current "stream" verdict)], ?_⟩
  unfold instream
  rw [held]
  dsimp only
  rw [drained]
  simp only [untruncated, Bool.false_eq_true, if_false, reported, left]
  rfl

/-- After one stream past the limit and the drain, a session answers a command
the client did not send. -/
theorem not_keepsRank_flood :
    ¬ KeepsRank limitEnv 2
      (buffered (sessionLine.encode ++ encodeAll [floodMessage]) [])
      [floodMessage] := by
  intro keeps
  have opening := @readCommand_buffered (text "SESSION")
    (encodeAll [floodMessage]) "SESSION".toList (by decide) (by decide)
    (by decide)
  have streaming := @readCommand_buffered (text "INSTREAM")
    (frame [floodChunk]) "INSTREAM".toList (by decide) (by decide) (by decide)
  have pinging := @readCommand_buffered (text "PING")
    (toBeBytes 0) "PING".toList (by decide) (by decide) (by decide)
  obtain ⟨replies, ran⟩ := @instream_atCap floodChunk 8192 (text "nPING\n")
    rfl (by decide) rfl
  have sent : encodeAll [floodMessage] =
      110 :: (text "INSTREAM" ++ 10 :: frame [floodChunk]) := by
    simp [encodeAll, Message.encode, floodMessage, instreamMessage,
      CommandLine.encode, Payload.encode, Lead.mark, Lead.delim, Delim.byte]
  have streams : runCommand (limitEnv 0) (trim "INSTREAM".toList)
      (buffered (frame [floodChunk]) []) =
      (some ⟨replies, .atCap⟩, buffered (text "nPING\n" ++ toBeBytes 0) []) := by
    have verb : verbOf (trim "INSTREAM".toList) = .instream := by decide
    simp only [runCommand, verb, ran]
  have pings (source : Source UInt8) : runCommand (limitEnv 1)
      (trim "PING".toList) source =
      (some ⟨[.line "PONG"], .reached⟩, source) := by
    have verb : verbOf (trim "PING".toList) = .other := by decide
    simp only [runCommand, verb, limitEnv, List.map_cons, List.map_nil]
  have two : ∃ first second, handleConn limitEnv 2
      (buffered (sessionLine.encode ++ encodeAll [floodMessage]) []) =
        [first, second] := by
    have conn := @handleConn_session limitEnv 2 _ _ _ _ false opening (by decide)
    have tail : text "nPING\n" ++ toBeBytes 0 =
        110 :: (text "PING" ++ 10 :: toBeBytes 0) := rfl
    rw [sent, session_answer streaming (by decide) (by decide) streams rfl,
      Nat.zero_add, tail,
      session_answer pinging (by decide) (by decide) (pings _) rfl] at conn
    rw [sent]
    exact ⟨_, _, conn⟩
  obtain ⟨first, second, run⟩ := two
  obtain ⟨before, message, after, split, rank, -⟩ :=
    keeps 1 second (by rw [run]; rfl)
  have lengths := congrArg List.length split
  have bound := List.length_filter_le Message.asks before
  simp at lengths
  omega

end Exav.Daemon
