import Exav.Engine.Subsig

/-!
# Loading signature text

A line is read whole before anything of it is committed: a line that is refused
leaves the bodies, the anchors and the signatures as they are and is counted
under its reason.  Committing a logical signature adds a body for each variant
of its body subsignatures, except a full-word one of no fixed width, which is
counted and left out.
-/

namespace Exav.Engine

/-! ## Lines and fields -/

def stripCr (line : List Char) : List Char :=
  if line.getLast? = some '\r' then line.dropLast else line

def linesOf (text : List Char) : List (List Char) :=
  let lines := split '\n' text
  (if lines.getLast? = some [] then lines.dropLast else lines).map stripCr

def signatureLines (text : List Char) : List (List Char) :=
  ((linesOf text).map trim).filter fun line =>
    !(line.isEmpty || line.head? == some '#')

/-- The parts of `s` between the first `n` occurrences of `sep`. -/
def splitN (sep : Char) : (n : Nat) → List Char → List (List Char)
  | 0, s => [s]
  | n + 1, s =>
      match splitOnce sep s with
      | none => [s]
      | some (part, rest) => part :: splitN sep n rest

/-- Slashes that no backslash stands before. -/
def slashes : (escaped : Bool) → List Char → Nat
  | _, [] => 0
  | escaped, c :: cs =>
      (if c = '/' ∧ !escaped then 1 else 0) + slashes (c == '\\') cs

/-- Take one more field, `pending` being a regex cut at a semicolon. -/
def gluePart : List (List Char) × Option (List Char) → List Char →
    List (List Char) × Option (List Char)
  | (out, none), field =>
      if out.length < 3 ∨ slashes false field % 2 = 0 then (out ++ [field], none)
      else (out, some field)
  | (out, some pending), field =>
      let glued := pending ++ ';' :: field
      if slashes false glued % 2 = 0 then (out ++ [glued], none)
      else (out, some glued)

/-- The fields of a logical signature. -/
def splitLdbFields (line : List Char) : List (List Char) :=
  let (out, pending) := (split ';' line).foldl gluePart ([], none)
  out ++ pending.toList

/-! ## Reading a logical signature -/

/-- A logical signature read from its line. -/
structure LdbRead where
  name : String
  target : Nat
  expr : Node
  parsed : List ParsedSub
  fileSize : Option (Nat × Nat)
  container : ContainerReq
  intermediates : Option (List ClType)
  handlerType : Option FileType
  entryPoint : Option (Nat × Nat)
  numSections : Option (Nat × Nat)
  iconGroup : Option (Option String × Option String)

def TdbRange.read : TdbRange → Except String (Option (Nat × Nat))
  | .absent => .ok none
  | .range min max => .ok (some (min, max))
  | .malformed => .error "ldb: malformed TDB range attribute"

def triggerFault (nsubs : Nat) : ParsedSub → Option String
  | .pcre p =>
      if p.trigger.idsWithin nsubs then none
      else some "ldb: PCRE trigger references a subsignature that does not exist"
  | .bcomp b =>
      if b.trigger ≥ nsubs then
        some "ldb: byte-compare trigger references a subsignature that does not exist"
      else none
  | _ => none

variable (features : Features)

def classifySubs : List (List Char) → Except String (List ParsedSub)
  | [] => .ok []
  | sub :: subs =>
      match classifySubsig features sub with
      | none => .error (classifyFailureReason features sub)
      | some p => (classifySubs subs).map (p :: ·)

def refuseIf (refused : Bool) (reason : String) : Except String Unit :=
  if refused then .error reason else .ok ()

def orRefuse {α : Type} (reason : String) : Option α → Except String α
  | none => .error reason
  | some a => .ok a

def refuseFault : Option String → Except String Unit
  | none => .ok ()
  | some fault => .error fault

/-- The fault of a target description with an attribute that cannot be
evaluated. -/
def attrFault (tdb : List Char) : Option String :=
  (unsupportedTdbAttr tdb).map fun attr =>
    if (stripPrefix "Sect" attr.toList).isSome then
      "ldb: unsupported Sect*: TDB attribute"
    else "ldb: unknown TDB attribute"

/-- The type a signature gives the object, if it names one. -/
def readHandlerType (tdb : List Char) : Except String (Option FileType) :=
  match parseTdbHandlerType tdb with
  | none => .ok none
  | some t =>
      match clTypeToFiletype t with
      | none => .error "ldb: HandlerType: type exav does not model"
      | some type => .ok (some type)

def iconGroupOf (tdb : List Char) : Option (Option String × Option String) :=
  let groups := parseTdbIcongroups tdb
  if groups.1.isSome ∨ groups.2.isSome then some groups else none

def readLdbLine (detectPua : Bool) (line : List Char) : Except String LdbRead :=
  match splitLdbFields line with
  | name :: tdb :: exprText :: sub :: more => do
      refuseIf (isPua name && !detectPua)
        "ldb: PUA signature (off by default, like ClamAV)"
      let engine := parseTdbEngine tdb
      refuseIf (!flevelOk engine.1 engine.2)
        "ldb: engine flevel window excludes this build"
      refuseFault (attrFault tdb)
      let fileSize ← (parseTdbFilesize tdb).read
      let entryPoint ← (parseTdbRange tdb "EntryPoint").read
      let numSections ← (parseTdbRange tdb "NumberOfSections").read
      let container ← orRefuse
        "ldb: Container: type exav cannot determine" (parseTdbContainer tdb)
      let intermediates ← orRefuse
        "ldb: Intermediates: type exav cannot determine"
        (parseTdbIntermediates tdb)
      let handlerType ← readHandlerType tdb
      let nsubs := (sub :: more).length
      let parsed ← classifySubs features (sub :: more)
      let expr ← orRefuse "ldb: unparseable logical expression"
        (parseExpr exprText)
      refuseIf (!expr.idsWithin nsubs)
        "ldb: expression references a subsignature that does not exist"
      refuseFault (parsed.findSome? (triggerFault nsubs))
      return {
        name := String.ofList name, target := parseTdbTarget tdb, expr, parsed
        fileSize, container, intermediates, handlerType, entryPoint
        numSections, iconGroup := iconGroupOf tdb }
  | _ => .error "ldb: malformed line (fewer than 4 fields)"

/-! ## The builder -/

/-- The exact byte width of a pattern element, or `none` when it varies. -/
def Elem.exactWidth : Elem → Option Nat
  | .bytes b => some b.length
  | .anyByte => some 1
  | .hiNibble _ => some 1
  | .loNibble _ => some 1
  | .gap _ _ => none
  | .alt opts neg =>
      if neg then none
      else opts.head?.bind fun first =>
        if opts.any fun o => o.length != first.length then none
        else some first.length
  | .altMasked opts =>
      opts.head?.bind fun first =>
        if opts.any fun o => o.length != first.length then none
        else some first.length

/-- The exact byte width of a pattern, or `none` when it varies. -/
def exactWidth (elems : List Elem) : Option Nat :=
  (elems.mapM Elem.exactWidth).map List.sum

/-- Builds an engine from signature text. -/
structure EngineBuilder where
  bodies : List Body
  anchorBuf : Bytes
  anchorRanges : List (Nat × Nat)
  ldbs : List Ldb
  unsupported : Nat
  unsupportedByReason : List (String × Nat)
  detectPua : Bool

/-- One more under `reason`. -/
def bumpReason (reason : String) : List (String × Nat) → List (String × Nat)
  | [] => [(reason, 1)]
  | (key, n) :: rest =>
      if key = reason then (key, n + 1) :: rest
      else (key, n) :: bumpReason reason rest

namespace EngineBuilder

def new (detectPua : Bool) : EngineBuilder :=
  ⟨[], [], [], [], 0, [], detectPua⟩

def pushAnchor (b : EngineBuilder) (a : Bytes) : EngineBuilder :=
  { b with
    anchorBuf := b.anchorBuf ++ a
    anchorRanges := b.anchorRanges ++
      [(b.anchorBuf.length % 2 ^ 32, a.length % 2 ^ 32)] }

def pushBody (b : EngineBuilder) (body : Body) : EngineBuilder :=
  { b with bodies := b.bodies ++ [body] }

/-- Record one skipped signature under `reason`. -/
def skip (b : EngineBuilder) (reason : String) : EngineBuilder :=
  { b with
    unsupported := b.unsupported + 1
    unsupportedByReason := bumpReason reason b.unsupportedByReason }

/-- Why each skipped signature was skipped, most frequent first. -/
def unsupportedReasons (b : EngineBuilder) : List (String × Nat) :=
  b.unsupportedByReason.insertionSort fun x y =>
    y.2 < x.2 ∨ x.2 = y.2 ∧ x.1 ≤ y.1

/-! ## Adding lines -/

/-- The window of engine levels after a body, and the body. -/
def ndbRest (rest : List Char) : List Char × Nat × Nat :=
  let parts := splitN ':' 2 rest
  (parts.headD [],
    ((parts[1]?.map trim).bind (parseUnsigned 32)).getD 0,
    ((parts[2]?.map trim).bind (parseUnsigned 32)).getD u32Max)

/-- Add a line `Name:Target:Offset:HexBody[:min[:max]]`. -/
def addNdbLine (b : EngineBuilder) (line : List Char) (unofficial : Bool) :
    EngineBuilder :=
  let parts := splitN ':' 3 line
  let name := parts.headD []
  if isPua name ∧ !b.detectPua then b
  else
    let target := ((parts[1]?.map trim).bind (parseUnsigned 8)).getD 0
    let offset := parts[2]?.elim (some .any) parseOffset
    let rest := parts[3]?.map ndbRest
    if !(rest.elim true fun r => flevelOk r.2.1 r.2.2) then b
    else
      match offset, rest with
      | some offset, some (hex, _) =>
          match compileBody parseScore hex (offset == .any) with
          | some (elems, anchor, chosen) =>
              (b.pushAnchor anchor).pushBody {
                elems := if isLiteralOnly elems chosen then none else some elems
                bodyPrefix := chosen, offset, target, nocase := false
                fullwordLen := none, owner := .ndb (String.ofList name) unofficial }
          | none => b.skip "ndb: body has no usable literal anchor"
      | _, _ => b.skip "ndb: unparseable offset or hex body"

def addNdb (b : EngineBuilder) (text : List Char) (unofficial : Bool) :
    EngineBuilder :=
  (signatureLines text).foldl (fun b line => b.addNdbLine line unofficial) b

/-- What a full-word modifier asks of a match's length; `none` when a variant
has no fixed one. -/
def fullwordLen (v : Compiled) : Option (Option Nat) :=
  if v.fullword then (exactWidth v.elems).map some else some none

def variantBody (target : Nat) (v : Compiled) (fullwordLen : Option Nat) :
    Body where
  elems := if isLiteralOnly v.elems v.chosen then none else some v.elems
  bodyPrefix := v.chosen
  offset := v.offset
  target := target
  nocase := v.nocase
  fullwordLen := fullwordLen
  owner := .ldbSub

/-- Commit one variant of a body subsignature; `ids` are the bodies of the
variants before it. -/
def commitVariant (target : Nat) (state : EngineBuilder × List Nat)
    (v : Compiled) : EngineBuilder × List Nat :=
  let (b, ids) := state
  match fullwordLen v with
  | none => ({ b with unsupported := b.unsupported + 1 }, ids)
  | some len =>
      ((b.pushAnchor v.anchor).pushBody (variantBody target v len),
        ids ++ [b.bodies.length])

def commitSub (target : Nat) (b : EngineBuilder) :
    ParsedSub → EngineBuilder × SubSig
  | .bodies variants =>
      let (b, ids) := variants.foldl (commitVariant target) (b, [])
      (b, .bodies ids)
  | .pcre p => (b, .pcre p)
  | .bcomp c => (b, .bcomp c)
  | .fuzzy hash dist => (b, .fuzzy hash dist)

def commitSubs (target : Nat) (b : EngineBuilder) :
    List ParsedSub → EngineBuilder × List SubSig
  | [] => (b, [])
  | p :: parsed =>
      let (b, sub) := b.commitSub target p
      let (b, subs) := b.commitSubs target parsed
      (b, sub :: subs)

def commit (b : EngineBuilder) (r : LdbRead) (unofficial : Bool) :
    EngineBuilder :=
  let (b, subs) := b.commitSubs r.target r.parsed
  { b with
    ldbs := b.ldbs ++ [{
      name := r.name, target := r.target, expr := r.expr
      firesOnEmpty := r.expr.eval fun _ => 0
      subs, fileSize := r.fileSize, container := r.container
      intermediates := r.intermediates, handlerType := r.handlerType
      entryPoint := r.entryPoint, numSections := r.numSections
      iconGroup := r.iconGroup, unofficial, bytecode := none }] }

/-- Add a line `Name;TDB;Expr;Sub0;Sub1;...`, or say why it is refused. -/
def addLdbLine (b : EngineBuilder) (line : List Char) (unofficial : Bool) :
    Except String Unit × EngineBuilder :=
  match readLdbLine features b.detectPua line with
  | .error reason => (.error reason, b)
  | .ok r => (.ok (), b.commit r unofficial)

def loadLdbLine (b : EngineBuilder) (line : List Char) (unofficial : Bool) :
    EngineBuilder :=
  match b.addLdbLine features line unofficial with
  | (.error reason, b) => b.skip reason
  | (.ok (), b) => b

def addLdb (b : EngineBuilder) (text : List Char) (unofficial : Bool) :
    EngineBuilder :=
  (signatureLines text).foldl (fun b line => b.loadLdbLine features line unofficial) b

end EngineBuilder

inductive Load where
  | ndb (text : List Char) (unofficial : Bool)
  | ldb (text : List Char) (unofficial : Bool)

/-- Load texts one after another. -/
def EngineBuilder.load (b : EngineBuilder) (loads : List Load) :
    EngineBuilder :=
  loads.foldl
    (fun b load =>
      match load with
      | .ndb text unofficial => b.addNdb text unofficial
      | .ldb text unofficial => b.addLdb features text unofficial)
    b

/-!
## All or nothing

A logical signature is loaded whole or not at all, and every signature that is
not loaded is counted under a reason, exactly where no full-word body of no
fixed width is committed.  `Committed` relates a subsignature as it was read to
what the builder holds of it; the lines of a load are followed by `Uncounted`,
which says how many refusals have no reason.
-/

/-! ## Committing a signature -/

/-- Nothing is taken from the bodies, and nothing else but the counter and the
anchors changes. -/
structure Grown (b b' : EngineBuilder) : Prop where
  bodies : b.bodies <+: b'.bodies
  ldbs : b'.ldbs = b.ldbs
  reasons : b'.unsupportedByReason = b.unsupportedByReason
  detectPua : b'.detectPua = b.detectPua

theorem Grown.refl (b : EngineBuilder) : Grown b b :=
  ⟨List.prefix_rfl, rfl, rfl, rfl⟩

theorem Grown.trans {a b c : EngineBuilder} (first : Grown a b)
    (second : Grown b c) : Grown a c :=
  ⟨first.bodies.trans second.bodies, second.ldbs.trans first.ldbs,
    second.reasons.trans first.reasons,
    second.detectPua.trans first.detectPua⟩

theorem Grown.body {b b' : EngineBuilder} (grown : Grown b b') {id : Nat}
    {body : Body} (held : b.bodies[id]? = some body) :
    b'.bodies[id]? = some body := by
  obtain ⟨more, same⟩ := grown.bodies
  obtain ⟨inside, _⟩ := List.getElem?_eq_some_iff.mp held
  rw [← same, List.getElem?_append_left inside]
  exact held

/-- A body stands for the variant, with its full-word length. -/
def HeldBody (b : EngineBuilder) (target : Nat) (v : Compiled) (id : Nat) :
    Prop :=
  ∃ len, EngineBuilder.fullwordLen v = some len ∧
    b.bodies[id]? = some (EngineBuilder.variantBody target v len)

/-- What the builder holds of a subsignature that was read. -/
def Committed (b : EngineBuilder) (target : Nat) : ParsedSub → SubSig → Prop
  | .bodies variants, .bodies ids =>
      (ids = [] → ∀ v ∈ variants, EngineBuilder.fullwordLen v = none) ∧
        ∀ id ∈ ids, ∃ v ∈ variants, HeldBody b target v id
  | .pcre p, .pcre q => p = q
  | .bcomp p, .bcomp q => p = q
  | .fuzzy hash dist, .fuzzy hash' dist' => hash = hash' ∧ dist = dist'
  | _, _ => False

theorem Committed.grown {b b' : EngineBuilder} {target : Nat} {p : ParsedSub}
    {sub : SubSig} (committed : Committed b target p sub)
    (grown : Grown b b') : Committed b' target p sub := by
  cases p with
  | bodies variants =>
      cases sub with
      | bodies ids =>
          refine ⟨committed.1, ?_⟩
          intro id member
          obtain ⟨v, among, len, fits, held⟩ := committed.2 id member
          exact ⟨v, among, len, fits, grown.body held⟩
      | pcre q => exact committed
      | bcomp q => exact committed
      | fuzzy hash dist => exact committed
  | pcre p => cases sub <;> exact committed
  | bcomp p => cases sub <;> exact committed
  | fuzzy hash dist => cases sub <;> exact committed

/-- How many of the variants of a subsignature are left out. -/
def lostVariants (variants : List Compiled) : Nat :=
  (variants.filter fun v => (EngineBuilder.fullwordLen v).isNone).length

def lostSub : ParsedSub → Nat
  | .bodies variants => lostVariants variants
  | _ => 0

namespace EngineBuilder

theorem commitVariants_committed (target : Nat) (variants : List Compiled)
    (b : EngineBuilder) (ids : List Nat) :
    let out := variants.foldl (commitVariant target) (b, ids)
    Grown b out.1 ∧
      out.1.unsupported = b.unsupported + lostVariants variants ∧
      ∃ added, out.2 = ids ++ added ∧
        (added = [] → ∀ v ∈ variants, fullwordLen v = none) ∧
        ∀ id ∈ added, ∃ v ∈ variants, HeldBody out.1 target v id := by
  induction variants generalizing b ids with
  | nil =>
      refine ⟨.refl b, rfl, [], by simp, ?_, ?_⟩
      · intro _ v member
        cases member
      · intro id member
        cases member
  | cons v variants ih =>
      simp only [List.foldl_cons]
      cases fits : fullwordLen v with
      | none =>
          have step : commitVariant target (b, ids) v =
              ({ b with unsupported := b.unsupported + 1 }, ids) := by
            simp [commitVariant, fits]
          rw [step]
          obtain ⟨grown, counted, added, same, empty, held⟩ :=
            ih { b with unsupported := b.unsupported + 1 } ids
          have counter : Grown b { b with unsupported := b.unsupported + 1 } :=
            ⟨List.prefix_rfl, rfl, rfl, rfl⟩
          refine ⟨counter.trans grown, ?_, added, same, ?_, ?_⟩
          · rw [counted]
            simp [lostVariants, fits]
            omega
          · intro nothing w member
            rcases List.mem_cons.mp member with rfl | later
            · exact fits
            · exact empty nothing w later
          · intro id member
            obtain ⟨w, among, is⟩ := held id member
            exact ⟨w, List.mem_cons_of_mem _ among, is⟩
      | some len =>
          have step : commitVariant target (b, ids) v =
              ((b.pushAnchor v.anchor).pushBody (variantBody target v len),
                ids ++ [b.bodies.length]) := by
            simp [commitVariant, fits]
          rw [step]
          obtain ⟨grown, counted, added, same, empty, held⟩ :=
            ih ((b.pushAnchor v.anchor).pushBody (variantBody target v len))
              (ids ++ [b.bodies.length])
          have pushed : Grown b
              ((b.pushAnchor v.anchor).pushBody (variantBody target v len)) :=
            ⟨List.prefix_append _ _, rfl, rfl, rfl⟩
          refine ⟨pushed.trans grown, ?_, b.bodies.length :: added, ?_, ?_, ?_⟩
          · rw [counted]
            simp [lostVariants, fits, pushBody, pushAnchor]
          · rw [same, List.append_assoc]
            rfl
          · intro nothing
            cases nothing
          · intro id member
            rcases List.mem_cons.mp member with rfl | later
            · refine ⟨v, List.mem_cons_self, len, fits, grown.body ?_⟩
              simp [pushBody, pushAnchor]
            · obtain ⟨w, among, is⟩ := held id later
              exact ⟨w, List.mem_cons_of_mem _ among, is⟩

theorem commitSub_committed (target : Nat) (b : EngineBuilder) (p : ParsedSub) :
    Grown b (b.commitSub target p).1 ∧
      (b.commitSub target p).1.unsupported = b.unsupported + lostSub p ∧
      Committed (b.commitSub target p).1 target p (b.commitSub target p).2 := by
  cases p with
  | bodies variants =>
      obtain ⟨grown, counted, added, same, empty, held⟩ :=
        commitVariants_committed target variants b []
      rw [List.nil_append] at same
      refine ⟨grown, counted, ?_⟩
      refine ⟨fun nothing => empty (same.symm.trans nothing), ?_⟩
      intro id member
      have among : id ∈ (variants.foldl (commitVariant target) (b, [])).2 := member
      rw [same] at among
      exact held id among
  | pcre p => exact ⟨.refl b, rfl, rfl⟩
  | bcomp p => exact ⟨.refl b, rfl, rfl⟩
  | fuzzy hash dist => exact ⟨.refl b, rfl, rfl, rfl⟩

theorem commitSubs_committed (target : Nat) (parsed : List ParsedSub)
    (b : EngineBuilder) :
    Grown b (b.commitSubs target parsed).1 ∧
      (b.commitSubs target parsed).1.unsupported =
        b.unsupported + (parsed.map lostSub).sum ∧
      List.Forall₂ (Committed (b.commitSubs target parsed).1 target) parsed
        (b.commitSubs target parsed).2 := by
  induction parsed generalizing b with
  | nil => exact ⟨.refl b, rfl, .nil⟩
  | cons p parsed ih =>
      obtain ⟨grown, counted, committed⟩ := commitSub_committed target b p
      obtain ⟨further, countedAll, others⟩ := ih (b.commitSub target p).1
      refine ⟨grown.trans further, ?_, .cons (committed.grown further) others⟩
      have total := countedAll
      rw [counted] at total
      simp only [List.map_cons, List.sum_cons]
      exact total.trans (Nat.add_assoc _ _ _)

theorem commit_ldbs (b : EngineBuilder) (r : LdbRead) (unofficial : Bool) :
    ∃ sig, (b.commit r unofficial).ldbs = b.ldbs ++ [sig] ∧
      sig.target = r.target ∧
      List.Forall₂ (Committed (b.commit r unofficial) r.target) r.parsed
        sig.subs := by
  obtain ⟨grown, _, committed⟩ := commitSubs_committed r.target r.parsed b
  refine ⟨_, congrArg (· ++ [_]) grown.ldbs, rfl, ?_⟩
  exact committed

theorem commit_unsupported (b : EngineBuilder) (r : LdbRead)
    (unofficial : Bool) :
    (b.commit r unofficial).unsupported =
        b.unsupported + (r.parsed.map lostSub).sum ∧
      (b.commit r unofficial).unsupportedByReason = b.unsupportedByReason ∧
      (b.commit r unofficial).detectPua = b.detectPua := by
  obtain ⟨grown, counted, _⟩ := commitSubs_committed r.target r.parsed b
  exact ⟨counted, grown.reasons, grown.detectPua⟩

end EngineBuilder

/-! ## A line -/

private theorem bind_ok {α β : Type} {x : Except String α}
    {f : α → Except String β} {b : β} (ok : (x >>= f) = .ok b) :
    ∃ a, x = .ok a ∧ f a = .ok b := by
  cases x with
  | error e => cases ok
  | ok a => exact ⟨a, rfl, ok⟩

variable {features : Features}

theorem readLdbLine_parsed {detectPua : Bool} {line : List Char} {r : LdbRead}
    (ok : readLdbLine features detectPua line = .ok r) :
    classifySubs features ((splitLdbFields line).drop 3) = .ok r.parsed := by
  unfold readLdbLine at ok
  split at ok
  next name tdb exprText sub more fields =>
    obtain ⟨_, _, ok⟩ := bind_ok ok
    obtain ⟨_, _, ok⟩ := bind_ok ok
    obtain ⟨_, _, ok⟩ := bind_ok ok
    obtain ⟨_, _, ok⟩ := bind_ok ok
    obtain ⟨_, _, ok⟩ := bind_ok ok
    obtain ⟨_, _, ok⟩ := bind_ok ok
    obtain ⟨_, _, ok⟩ := bind_ok ok
    obtain ⟨_, _, ok⟩ := bind_ok ok
    obtain ⟨_, _, ok⟩ := bind_ok ok
    obtain ⟨parsed, classified, ok⟩ := bind_ok ok
    obtain ⟨_, _, ok⟩ := bind_ok ok
    obtain ⟨_, _, ok⟩ := bind_ok ok
    obtain ⟨_, _, ok⟩ := bind_ok ok
    cases ok
    rw [fields]
    exact classified
  next => cases ok

theorem classifySubs_each {subs : List (List Char)} {parsed : List ParsedSub}
    (ok : classifySubs features subs = .ok parsed) :
    List.Forall₂ (fun s p => classifySubsig features s = some p) subs
      parsed := by
  induction subs generalizing parsed with
  | nil =>
      cases ok
      exact .nil
  | cons s subs ih =>
      unfold classifySubs at ok
      cases classified : classifySubsig features s with
      | none => simp [classified] at ok
      | some p =>
          simp only [classified] at ok
          cases others : classifySubs features subs with
          | error reason =>
              rw [others] at ok
              cases ok
          | ok rest =>
              rw [others] at ok
              cases ok
              exact .cons classified (ih others)

theorem parseSubsig_of_classify {s : List Char} {variants : List Compiled}
    (classified : classifySubsig features s = some (.bodies variants)) :
    parseSubsig s = some variants := by
  unfold classifySubsig at classified
  split at classified
  · split at classified
    · simp at classified
    · cases classified
  · split at classified
    · cases classified
    · split at classified
      · split at classified
        · cases classified
        · cases classified
      · obtain ⟨_, parsed, same⟩ := Option.map_eq_some_iff.mp classified
        cases same
        exact parsed

/-- A body keeps the offset and the modifiers of a variant that its
subsignature is written to have. -/
structure Keeps (s : List Char) (target : Nat) (body : Body) (v : Compiled) :
    Prop where
  written : v.Of s
  elems : body.elems =
    if isLiteralOnly v.elems v.chosen then none else some v.elems
  offset : body.offset = v.offset
  nocase : body.nocase = v.nocase
  fullword : body.fullwordLen.isSome = v.fullword
  width : v.fullword = true → body.fullwordLen = exactWidth v.elems
  target : body.target = target

/-- A subsignature of a line is represented by what was loaded for it: a body
subsignature by a body at least. -/
def Represented (features : Features) (b : EngineBuilder) (target : Nat)
    (s : List Char) : SubSig → Prop
  | .bodies ids =>
      ids ≠ [] ∧ ∀ id ∈ ids, ∃ body v, b.bodies[id]? = some body ∧
        Keeps s target body v
  | .pcre p => classifySubsig features s = some (.pcre p)
  | .bcomp c => classifySubsig features s = some (.bcomp c)
  | .fuzzy hash dist => classifySubsig features s = some (.fuzzy hash dist)

/-- A line is refused, with nothing of it loaded, or it is loaded, with each of
its subsignatures represented. -/
def AllOrNothing (features : Features) (b : EngineBuilder) (line : List Char)
    (unofficial : Bool) : Prop :=
  match b.addLdbLine features line unofficial with
  | (.error _, b') =>
      b'.bodies = b.bodies ∧ b'.anchorBuf = b.anchorBuf ∧
        b'.anchorRanges = b.anchorRanges ∧ b'.ldbs = b.ldbs
  | (.ok (), b') =>
      ∃ sig, b'.ldbs = b.ldbs ++ [sig] ∧
        List.Forall₂ (Represented features b' sig.target)
          ((splitLdbFields line).drop 3) sig.subs

def Whole (features : Features) (detectPua : Bool) (line : List Char) : Prop :=
  ∀ r, readLdbLine features detectPua line = .ok r →
    ∀ variants, .bodies variants ∈ r.parsed → ∀ v ∈ variants,
      v.fullword = true → (exactWidth v.elems).isSome

theorem fullwordLen_isSome {v : Compiled}
    (whole : v.fullword = true → (exactWidth v.elems).isSome) :
    (EngineBuilder.fullwordLen v).isSome := by
  unfold EngineBuilder.fullwordLen
  cases asked : v.fullword with
  | false => rfl
  | true => simpa using whole asked

theorem keeps_variantBody {s : List Char} {target : Nat} {v : Compiled}
    {len : Option Nat} (written : v.Of s)
    (fits : EngineBuilder.fullwordLen v = some len) :
    Keeps s target (EngineBuilder.variantBody target v len) v := by
  unfold EngineBuilder.fullwordLen at fits
  cases asked : v.fullword with
  | false =>
      rw [asked] at fits
      cases fits
      exact ⟨written, rfl, rfl, rfl, asked.symm, by simp [asked], rfl⟩
  | true =>
      rw [asked, if_pos rfl] at fits
      obtain ⟨width, known, rfl⟩ := Option.map_eq_some_iff.mp fits
      exact ⟨written, rfl, rfl, rfl, asked.symm, fun _ => known.symm, rfl⟩

theorem Committed.represented {b : EngineBuilder} {target : Nat}
    {s : List Char} {p : ParsedSub} {sub : SubSig}
    (committed : Committed b target p sub)
    (classified : classifySubsig features s = some p)
    (whole : ∀ variants, p = .bodies variants → ∀ v ∈ variants,
      (EngineBuilder.fullwordLen v).isSome) :
    Represented features b target s sub := by
  cases p with
  | bodies variants =>
      cases sub with
      | bodies ids =>
          obtain ⟨some_variant, written⟩ :=
            parseSubsig_of (parseSubsig_of_classify classified)
          constructor
          · intro empty
            obtain ⟨v, member⟩ := List.exists_mem_of_ne_nil _ some_variant
            have fits := whole variants rfl v member
            rw [committed.1 empty v member] at fits
            cases fits
          · intro id member
            obtain ⟨v, among, len, fits, held⟩ := committed.2 id member
            exact ⟨_, v, held, keeps_variantBody (written v among) fits⟩
      | pcre q => exact committed.elim
      | bcomp q => exact committed.elim
      | fuzzy hash dist => exact committed.elim
  | pcre p =>
      cases sub with
      | pcre q =>
          cases committed
          exact classified
      | bodies ids => exact committed.elim
      | bcomp q => exact committed.elim
      | fuzzy hash dist => exact committed.elim
  | bcomp p =>
      cases sub with
      | bcomp q =>
          cases committed
          exact classified
      | bodies ids => exact committed.elim
      | pcre q => exact committed.elim
      | fuzzy hash dist => exact committed.elim
  | fuzzy hash dist =>
      cases sub with
      | fuzzy hash' dist' =>
          obtain ⟨rfl, rfl⟩ := committed
          exact classified
      | bodies ids => exact committed.elim
      | pcre q => exact committed.elim
      | bcomp q => exact committed.elim

private theorem forall₂_through {α β γ : Type} {R : α → β → Prop}
    {S : β → γ → Prop} {T : α → γ → Prop} {as : List α} {bs : List β}
    {cs : List γ} (first : List.Forall₂ R as bs) (second : List.Forall₂ S bs cs)
    (both : ∀ a b c, b ∈ bs → R a b → S b c → T a c) : List.Forall₂ T as cs := by
  induction first generalizing cs with
  | nil =>
      cases second
      exact .nil
  | cons head tail ih =>
      cases second with
      | cons head' tail' =>
          refine .cons (both _ _ _ List.mem_cons_self head head') ?_
          apply ih tail'
          intro a b c member
          exact both a b c (List.mem_cons_of_mem _ member)

theorem allOrNothing_of_whole {b : EngineBuilder} {line : List Char}
    (whole : Whole features b.detectPua line) (unofficial : Bool) :
    AllOrNothing features b line unofficial := by
  unfold AllOrNothing EngineBuilder.addLdbLine
  cases read : readLdbLine features b.detectPua line with
  | error reason => exact ⟨rfl, rfl, rfl, rfl⟩
  | ok r =>
      obtain ⟨sig, added, target, committed⟩ := b.commit_ldbs r unofficial
      refine ⟨sig, added, ?_⟩
      refine forall₂_through (classifySubs_each (readLdbLine_parsed read))
        committed ?_
      intro s p sub member classified held
      rw [target]
      apply held.represented classified
      intro variants same v among
      rw [same] at member
      exact fullwordLen_isSome (whole r read variants member v among)

/-! ## What is counted -/

/-- Refusals under a reason. -/
def reasonTotal (b : EngineBuilder) : Nat :=
  (b.unsupportedByReason.map (·.2)).sum

/-- `n` of the refusals counted have no reason. -/
def Uncounted (b : EngineBuilder) (n : Nat) : Prop :=
  b.unsupported = reasonTotal b + n

theorem bumpReason_total (reason : String) (counts : List (String × Nat)) :
    ((bumpReason reason counts).map (·.2)).sum =
      (counts.map (·.2)).sum + 1 := by
  induction counts with
  | nil => rfl
  | cons entry counts ih =>
      obtain ⟨key, n⟩ := entry
      unfold bumpReason
      split
      · simp only [List.map_cons, List.sum_cons]
        omega
      · simp only [List.map_cons, List.sum_cons, ih]
        omega

theorem unsupportedReasons_total (b : EngineBuilder) :
    (b.unsupportedReasons.map (·.2)).sum = reasonTotal b :=
  ((List.perm_insertionSort _ _).map _).sum_nat

theorem Uncounted.skip {b : EngineBuilder} {n : Nat} (counted : Uncounted b n)
    (reason : String) : Uncounted (b.skip reason) n := by
  unfold Uncounted reasonTotal at *
  rw [EngineBuilder.skip, bumpReason_total]
  dsimp only
  omega

theorem Uncounted.addNdbLine {b : EngineBuilder} {n : Nat}
    (counted : Uncounted b n) (line : List Char) (unofficial : Bool) :
    Uncounted (b.addNdbLine line unofficial) n ∧
      (b.addNdbLine line unofficial).detectPua = b.detectPua := by
  unfold EngineBuilder.addNdbLine
  dsimp only
  split
  · exact ⟨counted, rfl⟩
  · split
    · exact ⟨counted, rfl⟩
    · split
      · split
        · exact ⟨counted, rfl⟩
        · exact ⟨counted.skip _, rfl⟩
      · exact ⟨counted.skip _, rfl⟩

/-- How many variants of a line are left out without a reason. -/
def lostLine (features : Features) (detectPua : Bool) (line : List Char) :
    Nat :=
  match readLdbLine features detectPua line with
  | .error _ => 0
  | .ok r => (r.parsed.map lostSub).sum

theorem Uncounted.loadLdbLine {b : EngineBuilder} {n : Nat}
    (counted : Uncounted b n) (line : List Char) (unofficial : Bool) :
    Uncounted (b.loadLdbLine features line unofficial)
        (n + lostLine features b.detectPua line) ∧
      (b.loadLdbLine features line unofficial).detectPua = b.detectPua := by
  unfold EngineBuilder.loadLdbLine EngineBuilder.addLdbLine lostLine
  cases read : readLdbLine features b.detectPua line with
  | error reason => exact ⟨counted.skip reason, rfl⟩
  | ok r =>
      obtain ⟨total, reasons, flag⟩ := b.commit_unsupported r unofficial
      refine ⟨?_, flag⟩
      unfold Uncounted reasonTotal at *
      dsimp only
      rw [total, reasons]
      omega

def Load.ldbLines : Load → List (List Char)
  | .ndb _ _ => []
  | .ldb text _ => signatureLines text

theorem Uncounted.load {b : EngineBuilder} {n : Nat} (counted : Uncounted b n)
    (loads : List Load) :
    Uncounted (b.load features loads)
      (n + ((loads.flatMap Load.ldbLines).map
        (lostLine features b.detectPua)).sum) := by
  have ndbText (lines : List (List Char)) (unofficial : Bool) {b : EngineBuilder}
      {n : Nat} (counted : Uncounted b n) :
      Uncounted (lines.foldl (fun b line => b.addNdbLine line unofficial) b) n ∧
        (lines.foldl (fun b line => b.addNdbLine line unofficial) b).detectPua =
          b.detectPua := by
    induction lines generalizing b n with
    | nil => exact ⟨counted, rfl⟩
    | cons line lines ih =>
        obtain ⟨next, flag⟩ := counted.addNdbLine line unofficial
        obtain ⟨rest, flags⟩ := ih next
        exact ⟨rest, flags.trans flag⟩
  have ldbText (lines : List (List Char)) (unofficial : Bool) {b : EngineBuilder}
      {n : Nat} (counted : Uncounted b n) :
      Uncounted
          (lines.foldl (fun b line => b.loadLdbLine features line unofficial) b)
          (n + (lines.map (lostLine features b.detectPua)).sum) ∧
        (lines.foldl (fun b line => b.loadLdbLine features line unofficial)
          b).detectPua = b.detectPua := by
    induction lines generalizing b n with
    | nil => exact ⟨counted, rfl⟩
    | cons line lines ih =>
        obtain ⟨next, flag⟩ :=
          @Uncounted.loadLdbLine features _ _ counted line unofficial
        obtain ⟨rest, flags⟩ := ih next
        rw [flag] at rest
        refine ⟨?_, flags.trans flag⟩
        rw [List.map_cons, List.sum_cons, ← Nat.add_assoc]
        exact rest
  unfold EngineBuilder.load
  induction loads generalizing b n with
  | nil => exact counted
  | cons load loads ih =>
      rw [List.foldl_cons, List.flatMap_cons, List.map_append, List.sum_append,
        ← Nat.add_assoc]
      cases load with
      | ndb text unofficial =>
          obtain ⟨next, flag⟩ := ndbText (signatureLines text) unofficial counted
          have rest := ih next
          rw [flag] at rest
          exact rest
      | ldb text unofficial =>
          obtain ⟨next, flag⟩ := ldbText (signatureLines text) unofficial counted
          have rest := ih next
          rw [flag] at rest
          exact rest

theorem lostSub_eq_zero {variants : List Compiled} :
    lostSub (.bodies variants) = 0 ↔ ∀ v ∈ variants,
      v.fullword = true → (exactWidth v.elems).isSome := by
  unfold lostSub lostVariants
  rw [List.length_eq_zero_iff, List.filter_eq_nil_iff]
  apply forall₂_congr
  intro v _
  unfold EngineBuilder.fullwordLen
  cases v.fullword with
  | false => simp
  | true => cases exactWidth v.elems <;> simp

theorem lostLine_eq_zero {detectPua : Bool} {line : List Char} :
    lostLine features detectPua line = 0 ↔ Whole features detectPua line := by
  unfold lostLine Whole
  cases read : readLdbLine features detectPua line with
  | error reason => simp
  | ok r =>
      simp only [Except.ok.injEq, forall_eq',
        List.sum_eq_zero_iff_forall_eq_nat, List.mem_map, forall_exists_index,
        and_imp, forall_apply_eq_imp_iff₂]
      constructor
      · intro none_lost variants member
        exact lostSub_eq_zero.mp (none_lost (.bodies variants) member)
      · intro whole p member
        cases p with
        | bodies variants => exact lostSub_eq_zero.mpr (whole variants member)
        | pcre p => rfl
        | bcomp p => rfl
        | fuzzy hash dist => rfl

/-- Every line of the texts loaded is loaded whole or not at all, whatever the
builder holds, and the refusals are counted under reasons, exactly when no
full-word variant of a line that is read lacks a fixed width. -/
theorem loading_iff (features : Features) (detectPua : Bool)
    (loads : List Load) :
    ((∀ line ∈ loads.flatMap Load.ldbLines, ∀ b : EngineBuilder,
        b.detectPua = detectPua → ∀ unofficial,
          AllOrNothing features b line unofficial) ∧
      ((EngineBuilder.new detectPua).load features loads).unsupported =
        ((((EngineBuilder.new detectPua).load features
          loads).unsupportedReasons).map (·.2)).sum) ↔
      ∀ line ∈ loads.flatMap Load.ldbLines, Whole features detectPua line := by
  have start : Uncounted (EngineBuilder.new detectPua) 0 := rfl
  have counted := @Uncounted.load features _ _ start loads
  rw [Nat.zero_add] at counted
  rw [unsupportedReasons_total]
  constructor
  · intro promised line member
    have none_lost : ((loads.flatMap Load.ldbLines).map
        (lostLine features detectPua)).sum = 0 := by
      have total := promised.2
      unfold Uncounted at counted
      change _ = _ + ((loads.flatMap Load.ldbLines).map
        (lostLine features detectPua)).sum at counted
      omega
    have here := List.sum_eq_zero_iff_forall_eq_nat.mp none_lost _
      (List.mem_map.mpr ⟨line, member, rfl⟩)
    exact lostLine_eq_zero.mp here
  · intro whole
    refine ⟨?_, ?_⟩
    · intro line member b flag unofficial
      apply allOrNothing_of_whole
      rw [flag]
      exact whole line member
    · have none_lost : ((loads.flatMap Load.ldbLines).map
          (lostLine features detectPua)).sum = 0 := by
        apply List.sum_eq_zero_iff_forall_eq_nat.mpr
        intro lost among
        obtain ⟨line, member, rfl⟩ := List.mem_map.mp among
        exact lostLine_eq_zero.mpr (whole line member)
      unfold Uncounted at counted
      change _ = _ + ((loads.flatMap Load.ldbLines).map
        (lostLine features detectPua)).sum at counted
      rw [none_lost] at counted
      exact counted

/-- A build without regex translation and image hashing. -/
def noRegex : Features :=
  ⟨true, Unit, fun _ _ => .error "no regex support", fun _ _ _ => 0,
    fun _ _ _ => Nat.zero_le _⟩

def jumpWord : List Char := "A;Target:0;0;6162\x7b-5\x7d6364::f".toList

theorem loading_jumpWord :
    ¬ ((∀ line ∈ [Load.ldb jumpWord false].flatMap Load.ldbLines,
        ∀ b : EngineBuilder, b.detectPua = false → ∀ unofficial,
          AllOrNothing noRegex b line unofficial) ∧
      ((EngineBuilder.new false).load noRegex
          [Load.ldb jumpWord false]).unsupported =
        ((((EngineBuilder.new false).load noRegex
          [Load.ldb jumpWord false]).unsupportedReasons).map (·.2)).sum) := by
  have one : ((EngineBuilder.new false).load noRegex
      [Load.ldb jumpWord false]).unsupported = 1 := by
    decide +kernel
  have nothing : ((EngineBuilder.new false).load noRegex
      [Load.ldb jumpWord false]).unsupportedByReason = [] := by
    decide +kernel
  intro promised
  have total := promised.2
  rw [one, unsupportedReasons_total, reasonTotal, nothing] at total
  cases total

end Exav.Engine
