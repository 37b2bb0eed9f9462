import Exav.Icap.Boundary

/-!
# What is delivered

An object goes through unexamined only where policy says so, an echoed message
has the body that was received, and a previewed object is blocked early only for
a detection in it.  Three things break this: a body cut off at the end of the
64-bit sizes whose head is clean, a partial verdict on a preview that policy
calls a detection, and a preview that itself is over the limit.
-/

namespace Exav.Icap

open Exav.Stream

/-! ## The body that was sent -/

/-- The data of a body: of one chunked body, and of a second where the client
was told to go on. -/
def bodyData (continued : Bool) (bytes : Bytes) : Option Bytes := do
  let (data, _, after) ← chunked bytes
  if continued then do
    let (more, _, _) ← chunked after
    some (data ++ more)
  else some data

/-- The body a message carries. -/
def receivedData (enc : Encapsulated) (continued : Bool) (bytes : Bytes) :
    Option Bytes :=
  if bytes.length < enc.headerBytes then none
  else bodyData continued (bytes.drop enc.headerBytes)

/-- The first chunked body of a message is said to be the whole of it. -/
def EndsWhole (enc : Encapsulated) (bytes : Bytes) : Prop :=
  ∃ data after,
    chunked (bytes.drop enc.headerBytes) = some (data, .ieof, after)

/-! ## What was held -/

/-- The most that is kept of an object. -/
def Env.limit (env : Env) : Nat :=
  (env.opts.maxScanSize.map UInt64.toNat).getD u64Max

theorem Env.limit_le (env : Env) : env.limit ≤ u64Max := by
  unfold limit
  cases env.opts.maxScanSize with
  | none => exact Nat.le_refl _
  | some max =>
      have bound := max.toNat_lt
      simp only [Option.map_some, Option.getD_some, u64Max]
      omega

/-- What a transfer holds of the body that was sent: all of it, unless it went
over the limit, and then less. -/
structure Holds (limit : Nat) (transfer : Transfer) (held : Held)
    (data : Option Bytes) : Prop where
  whole : transfer.overLimit = false → held.short = none ∧
    data = some held.payload ∧ transfer.total = held.payload.length
  counted : transfer.overLimit = true → 0 < transfer.total
  cut : transfer.overLimit = true → held.short = none →
    (∀ sent, data = some sent → held.payload.length < sent.length) ∧
      (limit < transfer.total ∨ transfer.total = u64Max)

section

variable {env : Env} {enc : Encapsulated} {preview : Option Nat}
  {source : Source UInt8} {transfer : Transfer}

theorem readBody_counted {body out : Body env.spill.threshold}
    {left : Source UInt8} {outcome : BodyOutcome}
    (room : body.len ≤ env.limit)
    (read : readBody env body source = .ok (outcome, out, left)) :
    Counted env.limit body.len outcome.overLimit outcome.rejected outcome.total
      out.len :=
  readChunkedBody_counted env.limit_le room read

theorem receiveRest_holds {headers data bytes : Bytes} {outcome : BodyOutcome}
    {body : Body env.spill.threshold} {ending : BodyEnd}
    (framed : chunked bytes = some (data, ending, rest source))
    (payload : body.payload = data) (accepted : outcome.rejected = none)
    (len : body.len = outcome.total) (room : body.len ≤ env.limit)
    (received : receiveRest env headers outcome body source =
      .ok (.whole transfer)) :
    ∃ held, transfer.body = some held ∧
      Holds env.limit transfer held (bodyData transfer.continued bytes) := by
  unfold receiveRest at received
  split at received
  · cases received
  · cases received
  · rename_i more out left read
    cases received
    have decodes := readChunkedBody_decodes read
    have counted := readBody_counted room read
    have bound := env.limit_le
    refine ⟨_, rfl, ?_, ?_, ?_⟩
    · intro within
      obtain ⟨data', found, same, notRefused⟩ := decodes.complete within
      have size := counted.2 notRefused
      rw [show more.overLimit = false from within] at size
      simp only [Bool.false_eq_true, if_false] at size
      refine ⟨by simp [takeRejection, accepted, notRefused], ?_, ?_⟩
      · simp only [bodyData, framed, found, Option.bind_eq_bind,
          Option.bind_some, if_true]
        rw [same, ← payload]
        rfl
      · show saturatingAdd outcome.total more.total = out.payload.length
        rw [← Body.len_eq, size.1, len]
        unfold saturatingAdd
        omega
    · intro overLimit
      exact saturatingAdd_pos (counted.1 overLimit)
    · intro overLimit notRefused
      have notRefused : more.rejected = none := by
        simpa [takeRejection, accepted] using notRefused
      constructor
      · intro sent whole
        simp only [bodyData, framed, Option.bind_eq_bind, Option.bind_some,
          if_true, Option.bind_eq_some_iff, Option.some.injEq] at whole
        obtain ⟨⟨data', ending', last⟩, found, rfl⟩ := whole
        rcases decodes.short notRefused overLimit with already | less
        · cases already
        · have shorter := less data' ending' last found
          rw [List.length_append, ← payload]
          exact shorter
      · have size := counted.2 notRefused
        rw [show more.overLimit = true from overLimit] at size
        simp only [if_true] at size
        show env.limit < saturatingAdd outcome.total more.total ∨
          saturatingAdd outcome.total more.total = u64Max
        unfold saturatingAdd
        omega

theorem receiveBody_holds {headers : Bytes}
    (received : receiveBody env enc preview headers source =
      .ok (.whole transfer)) :
    ∃ held, transfer.body = some held ∧ Holds env.limit transfer held
      (bodyData transfer.continued (rest source)) := by
  unfold receiveBody at received
  split at received
  · cases received
  · cases received
  · rename_i outcome out after read
    have decodes := readChunkedBody_decodes read
    have counted := readBody_counted (Nat.zero_le _) read
    have complete : outcome.overLimit = false → ∃ data,
        chunked (rest source) = some (data, outcome.ending, rest after) ∧
          out.payload = data ∧ outcome.rejected = none ∧
          out.len = outcome.total ∧ out.len ≤ env.limit := by
      intro within
      obtain ⟨data, found, same, notRefused⟩ := decodes.complete within
      have size := counted.2 notRefused
      rw [within] at size
      simp only [Bool.false_eq_true, if_false] at size
      refine ⟨data, found, by simpa [Progress.start] using same, notRefused,
        ?_, size.2⟩
      rw [size.1]
      exact Nat.zero_add _
    split at received
    · rename_i awaits
      simp only [awaitsContinue, Bool.and_eq_true, Bool.not_eq_true'] at awaits
      obtain ⟨data, framed, payload, accepted, len, room⟩ :=
        complete awaits.1.2
      split at received
      · cases received
      · exact receiveRest_holds framed payload accepted len room received
    · cases received
      refine ⟨_, rfl, ?_, ?_, ?_⟩
      · intro within
        obtain ⟨data, framed, payload, accepted, len, room⟩ := complete within
        refine ⟨accepted, ?_, ?_⟩
        · simp [bodyData, framed, payload]
        · rw [← Body.len_eq]
          exact len.symm
      · exact counted.1
      · intro overLimit notRefused
        have notRefused : outcome.rejected = none := notRefused
        constructor
        · intro sent whole
          simp only [bodyData, Option.bind_eq_bind, Bool.false_eq_true,
            if_false, Option.bind_eq_some_iff, Option.some.injEq] at whole
          obtain ⟨⟨data, ending, last⟩, found, rfl⟩ := whole
          rcases decodes.short notRefused overLimit with already | less
          · cases already
          · simpa [Progress.start] using less data ending last found
        · have size := counted.2 notRefused
          rw [show outcome.overLimit = true from overLimit] at size
          simpa [Body.new] using size

theorem receive_holds (hasBody : enc.terminal.1.hasBody = true)
    (received : receive env enc preview source = .ok (.whole transfer)) :
    ∃ held, transfer.body = some held ∧ Holds env.limit transfer held
      (receivedData enc transfer.continued (rest source)) := by
  obtain ⟨headers, after, -, -, enough, dropped, body⟩ :=
    receive_parts received
  rw [if_pos hasBody] at body
  rw [receivedData, if_neg (Nat.not_lt.mpr enough), dropped]
  exact receiveBody_holds body

end

/-! ## The answers policy allows -/

/-- An answer that lets the object through. -/
def Answer.passes : Answer → Bool
  | .noContent _ | .echo _ _ _ _ => true
  | .error _ | .options | .block _ => false

/-- A decision that lets an object through. -/
def Accepted (env : Env) (decision : Decision) : Prop :=
  decision = .clean ∨
    ∃ tag reason, decision = .partialScan tag reason ∧
      env.cfg.partialAs.forTag tag = .ok

/-- What the engine says of the bytes of a first body: of its head where that
can still be continued, else of all that is held of it. -/
def previewScan (env : Env) (enc : Encapsulated) (source : Source UInt8) :
    Scanned :=
  match readFull enc.headerBytes source with
  | (none, _) => .failed "transport"
  | (some headers, left) =>
      match readBody env .new left with
      | .error _ => .failed "body"
      | .ok (outcome, body, _) =>
          if !outcome.overLimit && outcome.rejected.isNone then
            scanPreview env enc headers body.head
          else
            bytesReport env.engine (namedOpts env.opts enc headers)
              body.payload
              (if outcome.rejected.isSome then body.payload.length
              else outcome.total)

/-- A message is answered with no content or echoed only on a decision that
allows it, and one called clean was held whole; an echoed body is the body that
was sent; and a preview is answered with a block, before the rest is asked for,
only when the engine detects something in it. -/
structure Delivers (env : Env) (req : RequestHead) (enc : Encapsulated)
    (preview : Option Nat) (source : Source UInt8) : Prop where
  allowed : ∀ r after out,
    modify env req source = .ok (some (r, after), out) →
    r.answer.passes = true →
    ∃ transfer, receive env enc preview source = .ok (.whole transfer) ∧
      Accepted env (transfer.decision env enc) ∧
      (transfer.decision env enc = .clean →
        ∃ held, transfer.body = some held ∧ held.short = none ∧
          receivedData enc transfer.continued (rest source) =
            some held.payload ∧
          transfer.total = held.payload.length)
  whole : ∀ r after out,
    modify env req source = .ok (some (r, after), out) →
    ∀ entity hdr body noted, r.answer = .echo entity hdr body noted →
      receivedData enc (out.contains .writeContinue) (rest source) = body
  early : ∀ r after out,
    modify env req source = .ok (some (r, after), out) →
    ∀ decision, r.answer = .block decision → preview.isSome = true →
      out.contains .writeContinue = false → ¬ EndsWhole enc (rest source) →
      (previewScan env enc source).detects = true

/-- A preview within the limit whose partial verdict policy calls a
detection. -/
def PreviewFound (env : Env) (enc : Encapsulated) (preview : Option Nat)
    (source : Source UInt8) : Prop :=
  ∃ headers left outcome body after,
    readFull enc.headerBytes source = (some headers, left) ∧
      headers.length = enc.headerBytes ∧
      readBody env .new left = .ok (outcome, body, after) ∧
      awaitsContinue preview outcome = true ∧ body.head ≠ [] ∧
      FoundByPolicy env.current (scanPreview env enc headers body.head)

/-- A preview past the limit or refused by a budget, which is then over the
limit, whose message policy does not let through, or only where the client allows
an answer without content, which this one does not, though the engine detects
nothing in what was held. -/
def OversizePreview (env : Env) (req : RequestHead) (enc : Encapsulated)
    (preview : Option Nat) (source : Source UInt8) : Prop :=
  ∃ transfer, receive env enc preview source = .ok (.whole transfer) ∧
    preview.isSome = true ∧ transfer.continued = false ∧
    transfer.overLimit = true ∧ ¬ EndsWhole enc (rest source) ∧
    (transfer.decision env enc).blocks = true ∧
    (passWanted env (transfer.decision env enc) = true →
      req.allow204 = false) ∧
    (previewScan env enc source).detects = false

def CleanCut (env : Env) (enc : Encapsulated) (preview : Option Nat)
    (source : Source UInt8) : Prop :=
  ∃ transfer, receive env enc preview source = .ok (.whole transfer) ∧
    transfer.overLimit = true ∧ transfer.decision env enc = .clean

section

variable {env : Env} {req : RequestHead} {enc : Encapsulated}
  {preview : Option Nat} {source : Source UInt8}

theorem CleanCut.unlimited (cut : CleanCut env enc preview source) :
    env.limit = u64Max := by
  obtain ⟨transfer, received, overLimit, clean⟩ := cut
  by_cases hasBody : enc.terminal.1.hasBody = true
  · obtain ⟨held, body, holds⟩ := receive_holds hasBody received
    have counted := holds.counted overLimit
    unfold Transfer.decision scan at clean
    rw [body] at clean
    simp only [Nat.pos_iff_ne_zero.mp counted, if_false] at clean
    obtain ⟨notRefused, within⟩ := scanHeld_clean (decide_clean.mp clean)
    rw [namedOpts_maxScanSize] at within
    have past := (holds.cut overLimit notRefused).2
    have bound := env.limit_le
    unfold Env.limit at past bound ⊢
    cases limited : env.opts.maxScanSize with
    | none => rfl
    | some max =>
        have inside := within max limited
        simp only [limited, Option.map_some, Option.getD_some] at past bound ⊢
        omega
  · obtain ⟨headers, after, -, -, -, -, parts⟩ := receive_parts received
    rw [if_neg hasBody] at parts
    cases parts
    cases overLimit

theorem respond_passes {transfer : Transfer}
    (passes : (respond env req enc transfer).answer.passes = true) :
    Accepted env (transfer.decision env enc) := by
  unfold respond at passes
  dsimp only at passes
  split at passes
  · cases passes
  · rename_i notBlocked
    by_cases clean : transfer.decision env enc = .clean
    · exact Or.inl clean
    · right
      have blocks : (transfer.decision env enc).blocks = true := by
        simpa [Decision.blocks] using clean
      simp only [blocks, Bool.true_and, Bool.not_eq_true', Bool.not_eq_false,
        Bool.and_eq_true] at notBlocked
      have wanted := notBlocked.1
      cases decided : transfer.decision env enc with
      | partialScan tag reason =>
          rw [decided] at wanted
          exact ⟨tag, reason, rfl, by simpa [passWanted] using wanted⟩
      | _ => simp [decided, passWanted] at wanted

theorem passes_of_clean {transfer : Transfer}
    (clean : transfer.decision env enc = .clean) :
    (respond env req enc transfer).answer.passes = true := by
  unfold respond
  dsimp only
  rw [clean]
  simp only [Decision.blocks, bne_self_eq_false, Bool.false_and,
    Bool.false_eq_true, if_false]
  split <;> rfl

/-- A message is echoed clean, or within the limit. -/
theorem respond_echo {transfer : Transfer} {entity : Entity} {hdr : Bytes}
    {body : Option Bytes} {noted : Decision}
    (echoed : (respond env req enc transfer).answer =
      .echo entity hdr body noted) :
    body = transfer.body.map Held.payload ∧
      (transfer.decision env enc = .clean ∨ transfer.overLimit = false) := by
  unfold respond at echoed
  dsimp only at echoed
  split at echoed
  · cases echoed
  · rename_i notBlocked
    split at echoed
    · cases echoed
    · rename_i notAllowed
      cases echoed
      refine ⟨rfl, ?_⟩
      by_cases clean : transfer.decision env enc = .clean
      · exact Or.inl clean
      · right
        have blocks : (transfer.decision env enc).blocks = true := by
          simpa [Decision.blocks] using clean
        simp only [blocks, Bool.true_and, Bool.not_eq_true', Bool.not_eq_false,
          Bool.and_eq_true, notAllowed, Bool.or_false] at notBlocked
        exact notBlocked.2

theorem respond_block {transfer : Transfer} {decision : Decision} :
    (respond env req enc transfer).answer = .block decision ↔
      transfer.decision env enc = decision ∧ decision.blocks = true ∧
        (passWanted env decision = true →
          transfer.overLimit = true ∧ req.allow204 = false) := by
  unfold respond
  dsimp only
  constructor
  · intro blocked
    split at blocked
    · rename_i blocks
      cases blocked
      simp only [Bool.and_eq_true, Bool.not_eq_true', Bool.and_eq_false_iff,
        Bool.or_eq_false_iff, Bool.not_eq_false'] at blocks
      refine ⟨rfl, blocks.1, fun wanted => ?_⟩
      exact blocks.2.resolve_left (by simp [wanted])
    · split at blocked <;> cases blocked
  · rintro ⟨rfl, blocks, refuses⟩
    rw [if_pos]
    cases wanted : passWanted env (transfer.decision env enc) with
    | false => simp [blocks]
    | true => simp [blocks, refuses wanted]

theorem overLimit_of_receive {transfer : Transfer}
    (hasBody : enc.terminal.1.hasBody = true)
    (received : receive env enc preview source = .ok (.whole transfer))
    (isPreview : preview.isSome = true) (notAsked : transfer.continued = false)
    (notWhole : ¬ EndsWhole enc (rest source)) : transfer.overLimit = true := by
  obtain ⟨headers, after, -, -, -, dropped, body⟩ := receive_parts received
  rw [if_pos hasBody] at body
  unfold receiveBody at body
  split at body
  · cases body
  · cases body
  · rename_i outcome out left read
    split at body
    · split at body
      · cases body
      · unfold receiveRest at body
        split at body <;> cases body
        cases notAsked
    · rename_i notAwaited
      cases body
      show outcome.overLimit = true
      by_contra within
      obtain ⟨data, framed, -, accepted⟩ :=
        (readChunkedBody_decodes read).complete (by simpa using within)
      cases ending : outcome.ending with
      | eof => simp [awaitsContinue, isPreview, ending, within, accepted] at notAwaited
      | ieof =>
          rw [ending] at framed
          exact notWhole ⟨data, _, by rw [dropped, framed]⟩

theorem receive_early {decision : Decision} {after : Source UInt8} :
    receive env enc preview source = .ok (.early decision after) ↔
      enc.terminal.1.hasBody = true ∧
        ∃ headers left outcome body name,
          readFull enc.headerBytes source = (some headers, left) ∧
            headers.length = enc.headerBytes ∧
            readBody env .new left = .ok (outcome, body, after) ∧
            awaitsContinue preview outcome = true ∧ body.head ≠ [] ∧
            Decision.decide env.current
              (scanPreview env enc headers body.head) = .infected name ∧
            decision = .infected name := by
  constructor
  · intro received
    obtain ⟨headers, left, read, length, -, -, body⟩ := receive_parts received
    by_cases hasBody : enc.terminal.1.hasBody = true
    · refine ⟨hasBody, ?_⟩
      rw [if_pos hasBody] at body
      unfold receiveBody at body
      split at body
      · cases body
      · cases body
      · rename_i outcome out last bodyRead
        split at body
        · rename_i awaits
          split at body
          · rename_i name scanned
            cases body
            unfold scanBytes at scanned
            split at scanned
            · cases scanned
            · rename_i nonempty
              exact ⟨headers, left, outcome, out, name, read, length, bodyRead,
                awaits, nonempty, scanned, rfl⟩
          · unfold receiveRest at body
            split at body <;> cases body
        · cases body
    · rw [if_neg hasBody] at body
      cases body
  · intro parts
    obtain ⟨hasBody, headers, left, outcome, body, name, read, length,
      bodyRead, awaits, nonempty, scanned, rfl⟩ := parts
    have notShort : ¬ headers.length < enc.headerBytes := by omega
    simp only [receive, read, if_neg notShort, hasBody, if_true, receiveBody,
      bodyRead, awaits, scanBytes, if_neg nonempty, scanned]

/-- What an early answer has scanned. -/
theorem previewScan_of_awaits {headers : Bytes} {left after : Source UInt8}
    {outcome : BodyOutcome} {body : Body env.spill.threshold}
    (read : readFull enc.headerBytes source = (some headers, left))
    (bodyRead : readBody env .new left = .ok (outcome, body, after))
    (awaits : awaitsContinue preview outcome = true) :
    previewScan env enc source = scanPreview env enc headers body.head := by
  simp only [awaitsContinue, Bool.and_eq_true, Bool.not_eq_true'] at awaits
  simp [previewScan, read, bodyRead, awaits.1.2, awaits.2]

/-- A preview that can be continued is not the whole of its message. -/
theorem not_endsWhole_of_awaits {headers : Bytes} {left after : Source UInt8}
    {outcome : BodyOutcome} {body : Body env.spill.threshold}
    (read : readFull enc.headerBytes source = (some headers, left))
    (length : headers.length = enc.headerBytes)
    (bodyRead : readBody env .new left = .ok (outcome, body, after))
    (awaits : awaitsContinue preview outcome = true) :
    ¬ EndsWhole enc (rest source) := by
  simp only [awaitsContinue, Bool.and_eq_true, Bool.not_eq_true',
    beq_iff_eq] at awaits
  have decodes := readChunkedBody_decodes bodyRead
  obtain ⟨data, found, -, -⟩ := decodes.complete awaits.1.2
  obtain ⟨split, -, -⟩ := readFull_rest read
  have dropped : (rest source).drop enc.headerBytes = rest left := by
    rw [split, ← length, List.drop_left']
    rfl
  intro ends
  obtain ⟨data', last, whole⟩ := ends
  rw [dropped, found, awaits.1.1.2] at whole
  cases whole

theorem modify_of_whole {transfer : Transfer}
    (list : req.encapsulated env.cfg.maxHeaderBytes = .ok enc)
    (previewed : req.preview = .ok preview)
    (received : receive env enc preview source = .ok (.whole transfer)) :
    modify env req source =
      .ok (some (respond env req enc transfer, transfer.source),
        interim transfer.continued) := by
  simp [modify, list, previewed, received, bind, Except.bind]

theorem contains_writeContinue (continued : Bool) :
    (interim continued).contains .writeContinue = continued := by
  cases continued <;> rfl

theorem modify_receipt {r : Response} {after : Source UInt8} {out : List Sent}
    (list : req.encapsulated env.cfg.maxHeaderBytes = .ok enc)
    (previewed : req.preview = .ok preview)
    (answered : modify env req source = .ok (some (r, after), out)) :
    ∃ receipt, receive env enc preview source = .ok receipt ∧
      match receipt with
      | .malformed _ => False
      | .early decision left =>
          r = ⟨.block decision, false⟩ ∧ after = left ∧ out = []
      | .whole transfer =>
          r = respond env req enc transfer ∧ after = transfer.source ∧
            out = interim transfer.continued := by
  obtain ⟨enc', preview', receipt, list', previewed', received, answer⟩ :=
    modify_open answered
  rw [list] at list'
  rw [previewed] at previewed'
  cases list'
  cases previewed'
  exact ⟨receipt, received, answer⟩

/-- A message is delivered as policy says exactly when it is none of the three
that break it. -/
theorem delivers_iff_of_message
    (list : req.encapsulated env.cfg.maxHeaderBytes = .ok enc)
    (previewed : req.preview = .ok preview)
    (hasBody : enc.terminal.1.hasBody = true) :
    Delivers env req enc preview source ↔
      ¬ CleanCut env enc preview source ∧
        ¬ PreviewFound env enc preview source ∧
        ¬ OversizePreview env req enc preview source := by
  constructor
  · intro delivers
    refine ⟨?_, ?_, ?_⟩
    · intro cut
      obtain ⟨transfer, received, overLimit, clean⟩ := cut
      obtain ⟨transfer', received', -, whole⟩ := delivers.allowed _ _ _
        (modify_of_whole list previewed received) (passes_of_clean clean)
      rw [received] at received'
      cases received'
      obtain ⟨held, body, notRefused, sent, -⟩ := whole clean
      obtain ⟨held', body', holds⟩ := receive_holds hasBody received
      rw [body] at body'
      cases body'
      have less := (holds.cut overLimit notRefused).1 _ sent
      exact less.false
    · intro found
      obtain ⟨headers, left, outcome, body, after, read, length, bodyRead,
        awaits, nonempty, byPolicy⟩ := found
      obtain ⟨name, scanned⟩ := decide_infected.mpr (Or.inr byPolicy)
      have received := receive_early.mpr ⟨hasBody, headers, left, outcome, body,
        name, read, length, bodyRead, awaits, nonempty, scanned, rfl⟩
      have answered : modify env req source =
          .ok (some (⟨.block (.infected name), false⟩, after), []) := by
        simp [modify, list, previewed, received, bind, Except.bind]
      have isPreview : preview.isSome = true := by
        simp only [awaitsContinue, Bool.and_eq_true] at awaits
        exact awaits.1.1.1
      have detects := delivers.early _ _ _ answered _ rfl isPreview rfl
        (not_endsWhole_of_awaits read length bodyRead awaits)
      rw [previewScan_of_awaits read bodyRead awaits, byPolicy.not_detects]
        at detects
      cases detects
    · intro oversize
      obtain ⟨transfer, received, isPreview, notContinued, overLimit, notWhole,
        blocks, refuses, nothing⟩ := oversize
      have detects := delivers.early _ _ _
        (modify_of_whole list previewed received) _
        (respond_block.mpr ⟨rfl, blocks, fun wanted => ⟨overLimit, refuses wanted⟩⟩)
        isPreview
        (by rw [contains_writeContinue]; exact notContinued) notWhole
      rw [nothing] at detects
      cases detects
  · intro sound
    obtain ⟨notCut, notFound, notOversize⟩ := sound
    have within : ∀ {transfer},
        receive env enc preview source = .ok (.whole transfer) →
        transfer.decision env enc = .clean → transfer.overLimit = false := by
      intro transfer received clean
      by_contra overLimit
      exact notCut ⟨transfer, received, by simpa using overLimit, clean⟩
    constructor
    · intro r after out answered passes
      obtain ⟨receipt, received, answer⟩ :=
        modify_receipt list previewed answered
      cases receipt with
      | malformed continued => exact answer.elim
      | early decision left =>
          obtain ⟨rfl, -, -⟩ := answer
          cases passes
      | whole transfer =>
          obtain ⟨rfl, -, -⟩ := answer
          refine ⟨transfer, received, respond_passes passes, ?_⟩
          intro clean
          obtain ⟨held, body, holds⟩ := receive_holds hasBody received
          obtain ⟨notRefused, sent, total⟩ :=
            holds.whole (within received clean)
          exact ⟨held, body, notRefused, sent, total⟩
    · intro r after out answered entity hdr echoedBody noted echoed
      obtain ⟨receipt, received, answer⟩ :=
        modify_receipt list previewed answered
      cases receipt with
      | malformed continued => exact answer.elim
      | early decision left =>
          obtain ⟨rfl, -, -⟩ := answer
          cases echoed
      | whole transfer =>
          obtain ⟨rfl, -, rfl⟩ := answer
          obtain ⟨bodyEq, why⟩ := respond_echo echoed
          have underLimit : transfer.overLimit = false :=
            why.elim (within received) id
          obtain ⟨held, body, holds⟩ := receive_holds hasBody received
          obtain ⟨-, sent, -⟩ := holds.whole underLimit
          rw [contains_writeContinue, sent, bodyEq, body]
          rfl
    · intro r after out answered decision blocked isPreview notAsked notWhole
      obtain ⟨receipt, received, answer⟩ :=
        modify_receipt list previewed answered
      cases receipt with
      | malformed continued => exact answer.elim
      | early decision' left =>
          obtain ⟨-, headers, left', outcome, body, name, read, length,
            bodyRead, awaits, nonempty, scanned, -⟩ :=
            receive_early.mp received
          rw [previewScan_of_awaits read bodyRead awaits]
          rcases decide_infected.mp ⟨name, scanned⟩ with detects | byPolicy
          · exact detects
          · exact absurd ⟨headers, left', outcome, body, left, read, length,
              bodyRead, awaits, nonempty, byPolicy⟩ notFound
      | whole transfer =>
          obtain ⟨rfl, -, rfl⟩ := answer
          rw [contains_writeContinue] at notAsked
          by_contra nothing
          obtain ⟨rfl, blocks, refuses⟩ := respond_block.mp blocked
          exact notOversize ⟨transfer, received, isPreview, notAsked,
            overLimit_of_receive hasBody received isPreview notAsked notWhole,
            notWhole, blocks, fun wanted => (refuses wanted).2,
            by simpa using nothing⟩

def DeliversObject (env : Env) (req : RequestHead) (source : Source UInt8) :
    Prop :=
  ∀ enc preview, req.encapsulated env.cfg.maxHeaderBytes = .ok enc →
    req.preview = .ok preview → enc.terminal.1.hasBody = true →
    Delivers env req enc preview source

/-- The object of a request is none of the three that break it. -/
def Deliverable (env : Env) (req : RequestHead) (source : Source UInt8) :
    Prop :=
  ∀ enc preview, req.encapsulated env.cfg.maxHeaderBytes = .ok enc →
    req.preview = .ok preview → enc.terminal.1.hasBody = true →
    ¬ CleanCut env enc preview source ∧
      ¬ PreviewFound env enc preview source ∧
      ¬ OversizePreview env req enc preview source

/-- Exactly the deliverable objects are delivered as policy says. -/
theorem deliversObject_iff :
    DeliversObject env req source ↔ Deliverable env req source := by
  constructor
  · intro delivers enc preview list previewed hasBody
    exact (delivers_iff_of_message list previewed hasBody).mp
      (delivers enc preview list previewed hasBody)
  · intro deliverable enc preview list previewed hasBody
    exact (delivers_iff_of_message list previewed hasBody).mpr
      (deliverable enc preview list previewed hasBody)

end

/-- A listener whose engine cannot decode a cut object, which policy calls a
detection. -/
def wary : Env :=
  { quietEnv with
    current := ⟨.partialScan, .found, .partialScan⟩
    engine := fun _ _ _ => .report (.unscannable "truncated") }

def previewed : RequestHead where
  method := .respMod
  service := text "avscan"
  headers := [(text "Encapsulated", text "res-body=0"),
    (text "Preview", text "1")]

def previewBody : Bytes :=
  text "1\r\nA\r\n0\r\n\r\n"

def resBody : Encapsulated where
  parts := [(.resBody, 0)]
  ended := ⟨(.resBody, 0), rfl, rfl⟩

/-- It is blocked before the rest is asked for, with nothing detected. -/
theorem not_deliversObject_previewed :
    ¬ DeliversObject wary previewed (delivered previewBody) := by
  intro delivers
  have list : previewed.encapsulated wary.cfg.maxHeaderBytes =
      .ok resBody := by
    decide
  have size : previewed.preview = .ok (some 1) := by
    decide
  have answered : modify wary previewed (delivered previewBody) =
      .ok (some (⟨.block (.infected "Heuristics.Exav.Unscannable"), false⟩,
        []), []) := by
    decide
  have framed : chunked ((rest (delivered previewBody)).drop
      resBody.headerBytes) = some ([65], .eof, []) := by
    decide
  have notWhole : ¬ EndsWhole resBody (rest (delivered previewBody)) := by
    intro ends
    obtain ⟨data, after, whole⟩ := ends
    rw [framed] at whole
    cases whole
  have detects := (delivers resBody (some 1) list size rfl).early _ _ _
    answered _ rfl rfl rfl notWhole
  revert detects
  decide

end Exav.Icap
