import Mathlib.Data.List.Chain
import Exav.Icap.Policy

/-!
# Where a request ends

Read as bytes alone, a request is its head, the header block its offset list
states, and the chunked bodies behind it.  A connection that is kept alive
stands at that place, except after an `OPTIONS` request that carries a message
of its own and after the echo of a message whose rest was never read.
-/

namespace Exav.Icap

open Exav.Stream

/-! ## What the bytes say -/

/-- What follows the body: one chunked body, and a second where the client was
told to go on. -/
def bodyEnd (continued : Bool) (bytes : Bytes) : Option Bytes := do
  let (_, _, after) ← chunked bytes
  if continued then do
    let (_, _, after) ← chunked after
    some after
  else some after

/-- What follows an encapsulated message. -/
def encapsulatedEnd (enc : Encapsulated) (continued : Bool) (bytes : Bytes) :
    Option Bytes :=
  if bytes.length < enc.headerBytes then none
  else if enc.terminal.1.hasBody then
    bodyEnd continued (bytes.drop enc.headerBytes)
  else some (bytes.drop enc.headerBytes)

/-- What follows a request: its head, and the message it encapsulates. -/
def messageEnd (maxHeaderBytes : Nat) (continued : Bool) (bytes : Bytes) :
    Option Bytes := do
  let (head, bytes) ← splitHead maxHeaderBytes bytes
  let req ← (RequestHead.parse head).toOption
  if req.headerAll "Encapsulated" = [] then some bytes
  else do
    let enc ← (req.encapsulated maxHeaderBytes).toOption
    encapsulatedEnd enc continued bytes

theorem messageEnd_of_head {maxHeaderBytes : Nat} {continued : Bool}
    {bytes head after : Bytes} {req : RequestHead}
    (split : splitHead maxHeaderBytes bytes = some (head, after))
    (parsed : RequestHead.parse head = .ok req) :
    messageEnd maxHeaderBytes continued bytes =
      if req.headerAll "Encapsulated" = [] then some after
      else (req.encapsulated maxHeaderBytes).toOption.bind fun enc =>
        encapsulatedEnd enc continued after := by
  simp [messageEnd, split, parsed, Except.toOption]

theorem headerAll_of_encapsulated {maxHeaderBytes : Nat} {req : RequestHead}
    {enc : Encapsulated} (parsed : req.encapsulated maxHeaderBytes = .ok enc) :
    req.headerAll "Encapsulated" ≠ [] := by
  intro empty
  simp [RequestHead.encapsulated, empty] at parsed

theorem messageEnd_of_encapsulated {maxHeaderBytes : Nat} {continued : Bool}
    {bytes head after : Bytes} {req : RequestHead} {enc : Encapsulated}
    (split : splitHead maxHeaderBytes bytes = some (head, after))
    (parsed : RequestHead.parse head = .ok req)
    (list : req.encapsulated maxHeaderBytes = .ok enc) :
    messageEnd maxHeaderBytes continued bytes =
      encapsulatedEnd enc continued after := by
  rw [messageEnd_of_head split parsed, if_neg (headerAll_of_encapsulated list),
    list]
  rfl

theorem bodyEnd_length {continued : Bool} {bytes after : Bytes}
    (ends : bodyEnd continued bytes = some after) :
    after.length < bytes.length := by
  simp only [bodyEnd, Option.bind_eq_bind, Option.bind_eq_some_iff] at ends
  obtain ⟨⟨data, ending, first⟩, framed, ends⟩ := ends
  have shorter := chunksFrom_length framed
  cases continued with
  | false =>
      cases ends
      exact shorter
  | true =>
      simp only [if_true, Option.bind_eq_some_iff] at ends
      obtain ⟨⟨data', ending', last⟩, framed', done⟩ := ends
      have shorter' := chunksFrom_length framed'
      cases done
      exact shorter'.trans shorter

/-! ## Where a message leaves the reader -/

section

variable {env : Env} {enc : Encapsulated} {preview : Option Nat}
  {source : Source UInt8}

private theorem readBody_decodes {body out : Body env.spill.threshold}
    {left : Source UInt8} {outcome : BodyOutcome}
    (read : readBody env body source = .ok (outcome, out, left)) :
    Decodes (Progress.start body) (chunked (rest source)) outcome out
      (rest left) :=
  readChunkedBody_decodes read

def StandsAt (ends : Bool → Option Bytes) : Receipt → Prop
  | .malformed _ => True
  | .early _ after => ends false = some (rest after)
  | .whole transfer =>
      if transfer.abandoned then
        transfer.overLimit = true ∧
          ends transfer.continued ≠ some (rest transfer.source)
      else ends transfer.continued = some (rest transfer.source)

theorem receiveRest_stands {headers : Bytes} {outcome : BodyOutcome}
    {body : Body env.spill.threshold} {receipt : Receipt}
    {data bytes : Bytes} {ending : BodyEnd}
    (framed : chunked bytes = some (data, ending, rest source))
    (received : receiveRest env headers outcome body source = .ok receipt) :
    StandsAt (fun continued => bodyEnd continued bytes) receipt := by
  unfold receiveRest at received
  split at received
  · cases received
  · cases received
    trivial
  · rename_i more out after read
    cases received
    have decodes := readBody_decodes read
    simp only [StandsAt, bodyEnd, framed, Option.bind_eq_bind,
      Option.bind_some, if_true]
    split
    · rename_i abandoned
      obtain ⟨overLimit, before⟩ := decodes.overran abandoned
      refine ⟨overLimit, ?_⟩
      intro ends
      simp only [Option.bind_eq_some_iff, Option.some.injEq] at ends
      obtain ⟨⟨data', ending', last⟩, found, rfl⟩ := ends
      exact (before _ _ _ found).false
    · rename_i complete
      obtain ⟨data', found⟩ := decodes.ended (Bool.eq_false_iff.mpr complete)
      rw [found]
      rfl

theorem receiveBody_stands {headers : Bytes} {receipt : Receipt}
    (received : receiveBody env enc preview headers source = .ok receipt) :
    StandsAt (fun continued => bodyEnd continued (rest source)) receipt := by
  unfold receiveBody at received
  split at received
  · cases received
  · cases received
    trivial
  · rename_i outcome out after read
    have decodes := readBody_decodes read
    split at received
    · rename_i awaits
      simp only [awaitsContinue, Bool.and_eq_true, Bool.not_eq_true'] at awaits
      obtain ⟨data, framed, -, -⟩ := decodes.complete awaits.1.2
      split at received
      · cases received
        simp [StandsAt, bodyEnd, framed]
      · exact receiveRest_stands framed received
    · cases received
      simp only [StandsAt, bodyEnd, Option.bind_eq_bind, Bool.false_eq_true,
        if_false]
      split
      · rename_i abandoned
        obtain ⟨overLimit, before⟩ := decodes.overran abandoned
        refine ⟨overLimit, ?_⟩
        intro ends
        simp only [Option.bind_eq_some_iff, Option.some.injEq] at ends
        obtain ⟨⟨data, ending, last⟩, found, rfl⟩ := ends
        exact (before _ _ _ found).false
      · rename_i complete
        obtain ⟨data, framed⟩ := decodes.ended (Bool.eq_false_iff.mpr complete)
        simp [framed]

/-- A message is its header block, and its body where it has one. -/
theorem receive_parts {receipt : Receipt}
    (received : receive env enc preview source = .ok receipt) :
    ∃ headers after,
      readFull enc.headerBytes source = (some headers, after) ∧
        headers.length = enc.headerBytes ∧
        enc.headerBytes ≤ (rest source).length ∧
        (rest source).drop enc.headerBytes = rest after ∧
        if enc.terminal.1.hasBody then
          receiveBody env enc preview headers after = .ok receipt
        else receipt = .whole {
          headers := headers
          body := none
          overLimit := false
          abandoned := false
          total := 0
          continued := false
          source := after } := by
  unfold receive at received
  split at received
  · cases received
  · rename_i headers after read
    obtain ⟨split, bound, -⟩ := readFull_rest read
    split at received
    · cases received
    · have length : headers.length = enc.headerBytes := by omega
      refine ⟨headers, after, read, length, ?_, ?_, ?_⟩
      · rw [split, List.length_append]
        omega
      · rw [split, ← length, List.drop_left']
        rfl
      · by_cases hasBody : enc.terminal.1.hasBody = true
        · simpa only [if_pos hasBody] using received
        · simp only [if_neg hasBody] at received ⊢
          cases received
          rfl

/-- A message leaves the reader at its end, unless it was abandoned. -/
theorem receive_stands {receipt : Receipt}
    (received : receive env enc preview source = .ok receipt) :
    StandsAt (fun continued => encapsulatedEnd enc continued (rest source))
      receipt := by
  obtain ⟨headers, after, -, -, enough, dropped, body⟩ :=
    receive_parts received
  simp only [encapsulatedEnd, if_neg (Nat.not_lt.mpr enough), dropped]
  by_cases hasBody : enc.terminal.1.hasBody = true
  · simp only [if_pos hasBody] at body ⊢
    exact receiveBody_stands body
  · simp only [if_neg hasBody] at body ⊢
    subst body
    simp [StandsAt]

end

/-! ## A request that keeps the connection -/

def KeepsInStep (env : Env) (source : Source UInt8) : Prop :=
  ∀ sent after, handleRequest env source = .ok (.keepAlive sent after) →
    messageEnd env.cfg.maxHeaderBytes (sent.contains .writeContinue)
      (rest source) = some (rest after)

def CarriesNothing (maxHeaderBytes : Nat) (req : RequestHead) : Prop :=
  req.headerAll "Encapsulated" = [] ∨
    ∃ enc, req.encapsulated maxHeaderBytes = .ok enc ∧ enc.headerBytes = 0 ∧
      enc.terminal.1.hasBody = false

/-- A message whose rest was given up on, while what was held of it is clean and
the client wants it handed back. -/
def EchoesCut (env : Env) (req : RequestHead) (source : Source UInt8) : Prop :=
  ∃ enc preview transfer,
    req.encapsulated env.cfg.maxHeaderBytes = .ok enc ∧
      req.preview = .ok preview ∧
      receive env enc preview source = .ok (.whole transfer) ∧
      transfer.abandoned = true ∧ transfer.decision env enc = .clean ∧
      req.allow204 = false

/-- The request is none of those that lose the connection's place: an `OPTIONS`
request with a message of its own or a malformed list of its parts, and one whose
cut message is echoed. -/
def Reusable (env : Env) (source : Source UInt8) : Prop :=
  ∀ head after req,
    readHead env.cfg.maxHeaderBytes source = .ok (some head, after) →
    RequestHead.parse head = .ok req →
    env.cfg.serves req.service = true → req.wantsClose = false →
    (req.method = .options → CarriesNothing env.cfg.maxHeaderBytes req) ∧
      (req.method = .reqMod ∨ req.method = .respMod →
        ¬ EchoesCut env req after)

theorem contains_interim (continued : Bool) (r : Response) :
    (interim continued ++ [Sent.response r]).contains .writeContinue =
      continued := by
  cases continued <;> simp [interim]

section

variable {env : Env} {source : Source UInt8}

/-- A request that is answered with the connection kept: what it was read as,
and what answered it. -/
theorem handleRequest_keepAlive {sent : List Sent} {after : Source UInt8} :
    handleRequest env source = .ok (.keepAlive sent after) ↔
      ∃ head req left r out,
        readHead env.cfg.maxHeaderBytes source = .ok (some head, left) ∧
          RequestHead.parse head = .ok req ∧
          env.cfg.serves req.service = true ∧ req.wantsClose = false ∧
          answerMethod env req left = .ok (some (r, after), out) ∧
          r.close = false ∧ sent = out ++ [.response r] := by
  constructor
  · intro handled
    obtain ⟨⟨head, left⟩, headRead, handled⟩ := ok_of_bind handled
    cases head with
    | none => cases handled
    | some head =>
        simp only at handled
        split at handled
        · cases handled
        · rename_i req parsed
          split at handled
          · rename_i served
            obtain ⟨⟨answer, out⟩, answered, handled⟩ := ok_of_bind handled
            cases answer with
            | none => cases handled
            | some answer =>
                obtain ⟨r, last⟩ := answer
                simp only [Except.ok.injEq] at handled
                cases close : req.wantsClose with
                | true => simp [close, Response.closing] at handled
                | false =>
                    simp only [close, Bool.false_eq_true, if_false] at handled
                    split at handled
                    · cases handled
                    · rename_i kept
                      cases handled
                      exact ⟨head, req, left, r, out, headRead, parsed, served,
                        close, answered, by simpa using kept, rfl⟩
          · cases handled
  · intro parts
    obtain ⟨head, req, left, r, out, headRead, parsed, served, close,
      answered, kept, rfl⟩ := parts
    simp [handleRequest, headRead, parsed, served, answered, close, kept,
      bind, Except.bind]

theorem modify_open {req : RequestHead} {r : Response} {after : Source UInt8}
    {out : List Sent} (answered : modify env req source =
      .ok (some (r, after), out)) :
    ∃ enc preview receipt,
      req.encapsulated env.cfg.maxHeaderBytes = .ok enc ∧
        req.preview = .ok preview ∧
        receive env enc preview source = .ok receipt ∧
        match receipt with
        | .malformed _ => False
        | .early decision left =>
            r = ⟨.block decision, false⟩ ∧ after = left ∧ out = []
        | .whole transfer =>
            r = respond env req enc transfer ∧ after = transfer.source ∧
              out = interim transfer.continued := by
  unfold modify at answered
  split at answered
  · cases answered
  · rename_i enc list
    split at answered
    · cases answered
    · rename_i preview previewed
      obtain ⟨receipt, received, answered⟩ := ok_of_bind answered
      refine ⟨enc, preview, receipt, list, previewed, received, ?_⟩
      cases receipt with
      | malformed continued => cases answered
      | early decision left =>
          cases answered
          exact ⟨rfl, rfl, rfl⟩
      | whole transfer =>
          cases answered
          exact ⟨rfl, rfl, rfl⟩

theorem respond_abandoned {req : RequestHead} {enc : Encapsulated}
    {transfer : Transfer} (overLimit : transfer.overLimit = true)
    (abandoned : transfer.abandoned = true) :
    (respond env req enc transfer).close = false ↔
      transfer.decision env enc = .clean ∧ req.allow204 = false := by
  unfold respond
  dsimp only
  cases allowed : req.allow204 with
  | true => split <;> simp [abandoned]
  | false =>
      by_cases clean : transfer.decision env enc = .clean
      · simp [clean, Decision.blocks]
      · have blocks : (transfer.decision env enc).blocks = true := by
          simpa [Decision.blocks] using clean
        simp [blocks, overLimit, abandoned, clean]

/-- An open answer to a message leaves the reader at its end, unless it echoes
one that was cut. -/
theorem modify_inStep {req : RequestHead} {bytes head : Bytes} {r : Response}
    {after : Source UInt8} {out : List Sent}
    (split : splitHead env.cfg.maxHeaderBytes bytes = some (head, rest source))
    (parsed : RequestHead.parse head = .ok req)
    (answered : modify env req source = .ok (some (r, after), out))
    (kept : r.close = false) (notCut : ¬ EchoesCut env req source) :
    messageEnd env.cfg.maxHeaderBytes
      ((out ++ [Sent.response r]).contains .writeContinue) bytes =
        some (rest after) := by
  obtain ⟨enc, preview, receipt, list, previewed, received, answer⟩ :=
    modify_open answered
  have stands := receive_stands received
  rw [messageEnd_of_encapsulated split parsed list]
  cases receipt with
  | malformed continued => exact answer.elim
  | early decision last =>
      obtain ⟨rfl, rfl, rfl⟩ := answer
      simpa [StandsAt] using stands
  | whole transfer =>
      obtain ⟨rfl, rfl, rfl⟩ := answer
      rw [contains_interim]
      cases abandoned : transfer.abandoned with
      | false => simpa [StandsAt, abandoned] using stands
      | true =>
          simp only [StandsAt, abandoned, if_true] at stands
          obtain ⟨clean, allowed⟩ :=
            (respond_abandoned stands.1 abandoned).mp kept
          exact absurd ⟨enc, preview, transfer, list, previewed, received,
            abandoned, clean, allowed⟩ notCut

/-- A message that is echoed though it was cut is answered with the connection
open, and the reader is not at its end. -/
theorem modify_cut {req : RequestHead} {bytes head : Bytes}
    (split : splitHead env.cfg.maxHeaderBytes bytes = some (head, rest source))
    (parsed : RequestHead.parse head = .ok req)
    (cut : EchoesCut env req source) :
    ∃ r after out, modify env req source = .ok (some (r, after), out) ∧
      r.close = false ∧
        messageEnd env.cfg.maxHeaderBytes
          ((out ++ [Sent.response r]).contains .writeContinue) bytes ≠
            some (rest after) := by
  obtain ⟨enc, preview, transfer, list, previewed, received, abandoned,
    clean, allowed⟩ := cut
  have stands := receive_stands received
  simp only [StandsAt, abandoned, if_true] at stands
  refine ⟨respond env req enc transfer, transfer.source,
    interim transfer.continued, ?_,
    (respond_abandoned stands.1 abandoned).mpr ⟨clean, allowed⟩, ?_⟩
  · simp [modify, list, previewed, received, bind, Except.bind]
  · rw [contains_interim, messageEnd_of_encapsulated split parsed list]
    exact stands.2

theorem messageEnd_head_iff {bytes head after : Bytes} {req : RequestHead}
    {maxHeaderBytes : Nat}
    (split : splitHead maxHeaderBytes bytes = some (head, after))
    (parsed : RequestHead.parse head = .ok req) :
    messageEnd maxHeaderBytes false bytes = some after ↔
      CarriesNothing maxHeaderBytes req := by
  rw [messageEnd_of_head split parsed]
  constructor
  · intro ends
    by_cases none_carried : req.headerAll "Encapsulated" = []
    · exact Or.inl none_carried
    · rw [if_neg none_carried] at ends
      simp only [Option.bind_eq_some_iff] at ends
      obtain ⟨enc, list, ends⟩ := ends
      have list : req.encapsulated maxHeaderBytes = .ok enc := by
        cases result : req.encapsulated maxHeaderBytes with
        | error e => simp [result, Except.toOption] at list
        | ok value => simpa [result, Except.toOption] using list
      refine Or.inr ⟨enc, list, ?_⟩
      unfold encapsulatedEnd at ends
      split at ends
      · cases ends
      · split at ends
        · have shorter := bodyEnd_length ends
          rw [List.length_drop] at shorter
          omega
        · rename_i enough noBody
          simp only [Option.some.injEq] at ends
          have length := congrArg List.length ends
          rw [List.length_drop] at length
          exact ⟨by omega, by simpa using noBody⟩
  · intro carries
    rcases carries with none_carried | ⟨enc, list, empty, noBody⟩
    · simp [none_carried]
    · rw [if_neg (headerAll_of_encapsulated list), list]
      simp [Except.toOption, encapsulatedEnd, empty, noBody]

theorem reusable_of_keepsInStep (inStep : KeepsInStep env source) :
    Reusable env source := by
  intro head left req headRead parsed served close
  have split := readHead_split headRead
  constructor
  · intro options
    have answered : answerMethod env req left =
        .ok (some (⟨.options, false⟩, left), []) := by
      simp [answerMethod, options]
    have ends := inStep _ left (handleRequest_keepAlive.mpr ⟨head, req, left,
      _, _, headRead, parsed, served, close, answered, rfl, rfl⟩)
    exact (messageEnd_head_iff split parsed).mp ends
  · intro method cut
    obtain ⟨r, after, out, modified, kept, elsewhere⟩ :=
      modify_cut split parsed cut
    have answered : answerMethod env req left =
        .ok (some (r, after), out) := by
      rcases method with method | method <;>
        simp [answerMethod, method, modified]
    exact elsewhere (inStep _ _ (handleRequest_keepAlive.mpr ⟨head, req,
      left, _, _, headRead, parsed, served, close, answered, kept, rfl⟩))

theorem keepsInStep_of_reusable (reusable : Reusable env source) :
    KeepsInStep env source := by
  intro sent after handled
  obtain ⟨head, req, left, r, out, headRead, parsed, served, close,
    answered, kept, rfl⟩ := handleRequest_keepAlive.mp handled
  have split := readHead_split headRead
  obtain ⟨carries, whole⟩ := reusable head left req headRead parsed served
    close
  cases method : req.method with
  | options =>
      simp only [answerMethod, method, Except.ok.injEq, Prod.mk.injEq,
        Option.some.injEq] at answered
      obtain ⟨⟨rfl, rfl⟩, rfl⟩ := answered
      exact (messageEnd_head_iff split parsed).mpr (carries method)
  | reqMod =>
      simp only [answerMethod, method] at answered
      exact modify_inStep split parsed answered kept (whole (Or.inl method))
  | respMod =>
      simp only [answerMethod, method] at answered
      exact modify_inStep split parsed answered kept (whole (Or.inr method))
  | other name =>
      simp only [answerMethod, method, Except.ok.injEq, Prod.mk.injEq,
        Option.some.injEq] at answered
      obtain ⟨⟨rfl, rfl⟩, rfl⟩ := answered
      cases kept

/-- A request keeps the connection in step exactly when it is reusable. -/
theorem keepsInStep_iff : KeepsInStep env source ↔ Reusable env source :=
  ⟨reusable_of_keepsInStep, keepsInStep_of_reusable⟩

end

/-! ## A connection -/

/-- Wait for a request.  There is none at the end of the stream. -/
def nextRequest : Source UInt8 → Except IoError Bool
  | [] => .ok false
  | .fault :: _ => .error .transport
  | .window _ _ :: _ => .ok true

/-- A request of a connection: where it began, and what came of it. -/
abbrev Turn := Source UInt8 × Except IoError Served

/-- Serve requests while the connection is kept.  `stopping` tells of a server
that is stopping when so many requests are still allowed. -/
def serveConnection (env : Env) (stopping : Nat → Bool) :
    (requests : Nat) → Source UInt8 → List Turn
  | 0, _ => []
  | requests + 1, source =>
      match if stopping requests then .ok false else nextRequest source with
      | .ok true =>
          (source, handleRequest env source) ::
            match handleRequest env source with
            | .ok (.keepAlive _ after) =>
                serveConnection env stopping requests after
            | _ => []
      | _ => []

def Turn.Continues (env : Env) (turn next : Turn) : Prop :=
  ∃ sent after, turn.2 = .ok (.keepAlive sent after) ∧
    messageEnd env.cfg.maxHeaderBytes (sent.contains .writeContinue)
      (rest turn.1) = some (rest next.1)

section

variable {env : Env} {stopping : Nat → Bool} {requests : Nat}
  {source : Source UInt8}

theorem serveConnection_begins {turn : Turn} {turns : List Turn}
    (served : serveConnection env stopping requests source = turn :: turns) :
    turn.1 = source := by
  cases requests with
  | zero => cases served
  | succ requests =>
      rw [serveConnection] at served
      split at served <;> cases served
      rfl

theorem continues_iff {sent : List Sent} {after : Source UInt8} {next : Turn}
    (handled : handleRequest env source = .ok (.keepAlive sent after))
    (begins : next.1 = after) :
    Turn.Continues env (source, .ok (.keepAlive sent after)) next ↔
      Reusable env source := by
  constructor
  · rintro ⟨sent', after', same, ends⟩
    cases same
    apply reusable_of_keepsInStep
    intro sent' after' again
    rw [handled] at again
    cases again
    rw [← begins]
    exact ends
  · intro reusable
    refine ⟨sent, after, rfl, ?_⟩
    rw [begins]
    exact keepsInStep_of_reusable reusable sent after handled

/-- Each request of a connection begins where the one before it ends, exactly
when every request but the last is reusable. -/
theorem serveConnection_inStep :
    (serveConnection env stopping requests source).IsChain
        (Turn.Continues env) ↔
      ∀ turn ∈ (serveConnection env stopping requests source).dropLast,
        Reusable env turn.1 := by
  induction requests generalizing source with
  | zero => simp [serveConnection]
  | succ requests ih =>
      rw [serveConnection]
      split
      · split
        · rename_i sent after handled
          have later := @ih after
          cases served : serveConnection env stopping requests after with
          | nil => simp
          | cons next turns =>
              rw [served] at later
              rw [List.isChain_cons_cons, later, List.dropLast_cons_cons,
                List.forall_mem_cons, handled,
                continues_iff handled (serveConnection_begins served)]
        · simp
      · simp

end

/-- An engine that finds nothing, behind a listener with small ceilings. -/
def quietEnv : Env where
  cfg := {
    services := [text "avscan"]
    keepaliveRequests := 100
    maxDrainBytes := 64
    maxHeaderBytes := 256
    partialAs := ⟨.partialScan, .partialScan, .partialScan⟩ }
  opts := ⟨none, false, none⟩
  current := ⟨.partialScan, .partialScan, .partialScan⟩
  engine := fun _ _ _ => .report .clean
  spill := ⟨16, none, fun _ _ => none⟩

def delivered (bytes : Bytes) : Source UInt8 :=
  buffered bytes []

def optionsHead : Bytes :=
  text "OPTIONS /avscan ICAP/1.0\r\nEncapsulated: opt-body=0\r\n\r\n"

/-- An `OPTIONS` request with a body of one byte. -/
def optionsWithBody : Bytes :=
  optionsHead ++ text "1\r\nA\r\n0\r\n\r\n"

/-- Its body is left to be read as the next request. -/
theorem not_keepsInStep_options :
    ¬ KeepsInStep quietEnv (delivered optionsWithBody) := by
  intro inStep
  have handled : handleRequest quietEnv (delivered optionsWithBody) =
      .ok (.keepAlive [.response ⟨.options, false⟩]
        (delivered (text "1\r\nA\r\n0\r\n\r\n"))) := by
    decide
  have ends := inStep _ _ handled
  revert ends
  decide

end Exav.Icap
