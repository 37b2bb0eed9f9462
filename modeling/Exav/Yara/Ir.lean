import Exav.Lib.Fields
import Exav.Yara.Matcher

/-!
# Conditions

The condition of a rule is a tree, evaluated natively.  A value may be undefined,
and undefined passes through most operators.  Loops and `with` bind values to the
slots of a stack, which the tree names by number.  Every node that is evaluated
takes a step of a budget the whole scan shares, and is undefined without one.
-/

namespace Exav.Yara.Ir

open Exav.Fields (ofLe)

/-! ## Values -/

mutual

inductive Value where
  | bool (b : Bool)
  | int (i : Int64)
  | float (f : Float)
  | str (s : Bytes)
  | struct (fields : List (String × Value))
  | array (items : List Value)
  | map (entries : MapVal)

/-- A module map, keyed by string or by integer. -/
inductive MapVal where
  | str (entries : List (Bytes × Value))
  | int (entries : List (Int64 × Value))

end

namespace Value

/-- Cast to a boolean. -/
def asBool : Value → Bool
  | .bool b => b
  | .int i => i != 0
  | .float f => f != 0
  | .str s => s != []
  | _ => true

def asF64 : Value → Option Float
  | .int i => some i.toFloat
  | .float f => some f
  | _ => none

/-- What a value is as an integer: a float cut off, a boolean one or zero. -/
def toI64 : Value → Option Int64
  | .int i => some i
  | .float f => some f.toInt64
  | .bool b => some (if b then 1 else 0)
  | _ => none

def asBytes : Value → Option Bytes
  | .str s => some s
  | _ => none

end Value

def truthy : Option Value → Bool
  | some v => v.asBool
  | none => false

/-! ## The tree -/

inductive ArithOp where
  | add | sub | mul | div | mod | shl | shr | bitAnd | bitOr | bitXor

inductive CmpOp where
  | eq | ne | lt | gt | le | ge

inductive StrOp where
  | contains | iContains | startsWith | iStartsWith | endsWith | iEndsWith
  | iEquals

/-- An integer file-read function. -/
inductive IntKind where
  | u8 | u16 | u32 | i8 | i16 | i32 | u16be | u32be | i16be | i32be

inductive ModuleKind where
  | math | hash | stringMod | time | pe | elf | dotNet
  deriving DecidableEq

inductive ExternalType where
  | int | float | bool | str

mutual

/-- The condition tree.  A compiled expression is what it matches, a module
function its number. -/
inductive Cond where
  | bool (b : Bool)
  | int (i : Int64)
  | float (f : Float)
  | str (s : Bytes)
  | filesize
  | pattern (id : Nat) (anchor : Anchor)
  | count (id : Nat) (range : Range)
  | offset (id : Nat) (idx : Index)
  | length (id : Nat) (idx : Index)
  | ruleRef (idx : Nat)
  | defined (e : Cond)
  | not (e : Cond)
  | and (v : List Cond)
  | or (v : List Cond)
  | neg (e : Cond)
  | bitNot (e : Cond)
  | arith (op : ArithOp) (a b : Cond)
  | cmp (op : CmpOp) (a b : Cond)
  | strCmp (op : StrOp) (a b : Cond)
  | matchesRe (a : Cond) (re : Bytes → Bool)
  | ofPatterns (quant : Quant) (ids : List Nat) (anchor : Anchor)
  | ofExprs (quant : Quant) (exprs : List Cond)
  | modAccess (module : ModuleKind) (path : List Access)
  | modCall (func : Nat) (args : List Cond)
  | intRead (kind : IntKind) (addr : Cond)
  | entrypoint
  | external (name : String) (ty : ExternalType)
  | var (slot : Nat)
  | varAccess (slot : Nat) (path : List Access)
  | forIn (quant : Quant) (iter : Iter) (base : Nat) (body : Cond)
  | forOf (quant : Quant) (patterns : List Nat) (slot : Nat) (body : Cond)
  | withIn (decls : List Cond) (base : Nat) (body : Cond)
  | patternVar (slot : Nat) (anchor : Anchor)
  | countVar (slot : Nat) (range : Range)
  | offsetVar (slot : Nat) (idx : Index)
  | lengthVar (slot : Nat) (idx : Index)

/-- Where a pattern is to match. -/
inductive Anchor where
  | anywhere
  | at (e : Cond)
  | within (lo hi : Cond)

/-- The offsets whose matches are counted. -/
inductive Range where
  | whole
  | between (lo hi : Cond)

/-- Which match, from one on. -/
inductive Index where
  | first
  | nth (e : Cond)

inductive Quant where
  | all
  | any
  | none
  | count (e : Cond)
  | percent (e : Cond)

/-- What a `for .. in` loop goes over. -/
inductive Iter where
  | range (lo hi : Cond)
  | tuple (items : List Cond)
  | collection (e : Cond)

/-- One step in a module field-access chain. -/
inductive Access where
  | field (name : String)
  | index (e : Cond)

end

/-! ## The evaluator's state -/

/-- A value bound to a slot, or the current pattern of a `for .. of`. -/
inductive Binding where
  | val (v : Option Value)
  | pat (id : Nat)

/-- The bindings, and the steps left, none when there is no limit to them.  The
evaluator does not have the last two fields and reads neither of them: whether a
step was asked for that was not left, and whether something came out true, or as a
number, over what was cut short so. -/
structure St where
  env : List Binding
  steps : Option Nat
  cut : Bool
  turned : Bool

/-- What the evaluator panics with: a slot that is not there, or one bound to a
value where a pattern is expected. -/
inductive Fault where
  | slot
  | kind
  deriving DecidableEq

def M (α : Type) : Type := St → Except Fault (α × St)

instance : Monad M where
  pure a := fun st => .ok (a, st)
  bind m f := fun st =>
    match m st with
    | .error e => .error e
    | .ok (a, st) => f a st

section

variable {α β : Type} {m : M α} {f : α → M β} {st s t : St}

theorem bind_apply (m : M α) (f : α → M β) (st : St) :
    (m >>= f) st =
      match m st with
      | .error e => Except.error e
      | .ok (a, st) => f a st := rfl

theorem bind_eq {a : α} (first : m st = .ok (a, s)) (f : α → M β) :
    (m >>= f) st = f a s := by
  rw [bind_apply, first]

theorem bind_ok {b : β} (ran : (m >>= f) st = .ok (b, t)) :
    ∃ a s, m st = .ok (a, s) ∧ f a s = .ok (b, t) := by
  rw [bind_apply] at ran
  split at ran
  · cases ran
  · exact ⟨_, _, ‹_›, ran⟩

end

/-- What evaluating a condition is: a value, undefined or not. -/
abbrev Eval : Type := M (Option Value)

def chargeStep : M Bool := fun st =>
  match st.steps with
  | none => .ok (true, st)
  | some 0 => .ok (false, { st with cut := true })
  | some (left + 1) => .ok (true, { st with steps := some left })

def evalStepBudget : Nat := 20000000

def outOfSteps : M Bool := fun st =>
  match st.steps with
  | some 0 => .ok (true, { st with cut := true })
  | _ => .ok (false, st)

/-- Note that something came out so over what may have been cut short. -/
def noteTurn (r : Bool) : M Unit := fun st =>
  .ok ((), { st with turned := st.turned || (st.cut && r) })

/-- Push bindings one after another. -/
def envPush (bs : List Binding) : M Unit := fun st =>
  .ok ((), { st with env := st.env ++ bs })

def envSet (slot : Nat) (b : Binding) : M Unit := fun st =>
  if slot < st.env.length then .ok ((), { st with env := st.env.set slot b })
  else .error .slot

def envTruncate (len : Nat) : M Unit := fun st =>
  .ok ((), { st with env := st.env.take len })

/-- The value bound at a slot, undefined for a pattern. -/
def envVal (slot : Nat) : Eval := fun st =>
  match st.env[slot]? with
  | none => .error .slot
  | some (.val v) => .ok (v, st)
  | some (.pat _) => .ok (none, st)

/-- The pattern bound at a slot. -/
def envPat (slot : Nat) : M Nat := fun st =>
  match st.env[slot]? with
  | none => .error .slot
  | some (.val _) => .error .kind
  | some (.pat id) => .ok (id, st)

/-- Everything the evaluator needs at scan time: the object, the matches of each
pattern, the results of the rules before, what the modules give, the external
variables, and lowercasing of the text some bytes are. -/
structure EvalCtx where
  data : ByteSource
  matchLists : Nat → List Match
  ruleResults : List Bool
  root : ModuleKind → Option Value
  call : Nat → List Value → Option Value
  entryPoint : Option Int64
  externals : String → Option Value
  lower : Bytes → Bytes

/-! ## Operators -/

/-- Go on with what is defined. -/
def known {α β : Type} (m : M (Option α)) (f : α → M (Option β)) :
    M (Option β) := do
  match ← m with
  | none => pure none
  | some a => f a

/-- A defined result. -/
def done {α : Type} (a : α) : M (Option α) := pure (some a)

/-- An evaluation as an integer. -/
def evalInt (e : Eval) : M (Option Int64) :=
  known e fun v => do
    noteTurn true
    return v.toI64

def evalStr (e : Eval) : M (Option Bytes) := known e fun v => pure v.asBytes

/-- An evaluation in boolean context. -/
def evalBool (e : Eval) : M Bool := do return truthy (← e)

def charged (e : Eval) : Eval := do
  if ← chargeStep then e else pure none

/-- Where matches are looked for: anywhere, at one offset, or from one to
another. -/
inductive Place where
  | anywhere
  | at (n : Int64)
  | within (lo hi : Int64)

def Match.within (m : Match) (lo hi : Int64) : Bool :=
  lo ≤ Int64.ofNat m.offset && Int64.ofNat m.offset ≤ hi

def present (ms : List Match) : Place → Bool
  | .anywhere => ms != []
  | .at n => 0 ≤ n && ms.any fun m => Int64.ofNat m.offset == n
  | .within lo hi => ms.any fun m => Match.within m lo hi

def countIn (ms : List Match) : Place → Int64
  | .anywhere => Int64.ofNat ms.length
  | .at _ => 0
  | .within lo hi =>
      Int64.ofNat (ms.filter fun m => Match.within m lo hi).length

/-- The integers from one evaluation to the other. -/
def placeBetween (lo hi : Eval) : M (Option Place) :=
  known (evalInt lo) fun lo => known (evalInt hi) fun hi => done (.within lo hi)

/-- A 1-based index as a position in a list. -/
def indexValue (i : Int64) : Option Nat :=
  if i < 1 then none else some (i - 1).toInt.toNat

def outcome (turns r : Bool) : Eval := do
  noteTurn turns
  done (.bool r)

def evalNot (e : Eval) : Eval := do
  let r := !truthy (← e)
  outcome r r

def evalDefined (e : Eval) : Eval := do
  let r := (← e).isSome
  outcome r r

def evalAnd : List Eval → Eval
  | [] => done (.bool true)
  | e :: es => do
      if truthy (← e) then evalAnd es else done (.bool false)

def evalOr : List Eval → Eval
  | [] => done (.bool false)
  | e :: es => do
      if truthy (← e) then done (.bool true) else evalOr es

def negate : Value → Option Value
  | .int i => some (.int (-i))
  | .float f => some (.float (-f))
  | _ => none

def complement : Value → Option Value
  | .int i => some (.int (~~~ i))
  | _ => none

/-- Integer operators; a division by zero is undefined. -/
def arithInt (op : ArithOp) (x y : Int64) : Option Int64 :=
  let inWord := 0 ≤ y ∧ y < 64
  match op with
  | .add => some (x + y)
  | .sub => some (x - y)
  | .mul => some (x * y)
  | .div => if y = 0 then none else some (x / y)
  | .mod => if y = 0 then none else some (x % y)
  | .shl => some (if inWord then x <<< y else 0)
  | .shr => some (if inWord then x >>> y else 0)
  | .bitAnd => some (x &&& y)
  | .bitOr => some (x ||| y)
  | .bitXor => some (x ^^^ y)

/-- Float operators, of those that are not for integers only. -/
def arithFloat (op : ArithOp) (x y : Float) : Option Float :=
  match op with
  | .add => some (x + y)
  | .sub => some (x - y)
  | .mul => some (x * y)
  | .div => some (x / y)
  | _ => none

def arith (op : ArithOp) : Value → Value → Option Value
  | .int x, .int y => (arithInt op x y).map .int
  | a, b => do
      let x ← a.asF64
      let y ← b.asF64
      return .float (← arithFloat op x y)

def partialCmp (x y : Float) : Option Ordering :=
  if x < y then some .lt
  else if x == y then some .eq
  else if y < x then some .gt
  else none

def cmpOrd : Value → Value → Option Ordering
  | .str x, .str y => some (compare x y)
  | .int x, .int y => some (compare x y)
  | a, b => do partialCmp (← a.asF64) (← b.asF64)

def CmpOp.holds : CmpOp → Ordering → Bool
  | .eq, ord => ord == .eq
  | .ne, ord => ord != .eq
  | .lt, ord => ord == .lt
  | .gt, ord => ord == .gt
  | .le, ord => ord != .gt
  | .ge, ord => ord != .lt

def compareValues (op : CmpOp) (a b : Value) : Option Value :=
  (cmpOrd a b).map fun ord => .bool (op.holds ord)

def StrOp.holds (lower : Bytes → Bytes) : StrOp → Bytes → Bytes → Bool
  | .contains, a, b => decide (b <:+: a)
  | .iContains, a, b => decide (lower b <:+: lower a)
  | .startsWith, a, b => b.isPrefixOf a
  | .iStartsWith, a, b => (lower b).isPrefixOf (lower a)
  | .endsWith, a, b => b.isSuffixOf a
  | .iEndsWith, a, b => (lower b).isSuffixOf (lower a)
  | .iEquals, a, b => eqIgnoreAsciiCase a b

/-- Two evaluations one after the other, both of them defined. -/
def both (a b : Eval) (f : Value → Value → Option Value) : Eval :=
  known a fun x => known b fun y => pure (f x y)

def evalStrCmp (holds : Bytes → Bytes → Bool) (a b : Eval) : Eval :=
  known (evalStr a) fun x => known (evalStr b) fun y => done (.bool (holds x y))

/-- Evaluations one after another, all of them defined. -/
def evalArgs : List Eval → M (Option (List Value))
  | [] => done []
  | e :: es => known e fun v => known (evalArgs es) fun vs => done (v :: vs)

namespace IntKind

/-- How many bytes are read. -/
def width : IntKind → Nat
  | .u8 | .i8 => 1
  | .u16 | .i16 | .u16be | .i16be => 2
  | .u32 | .i32 | .u32be | .i32be => 4

def signed : IntKind → Bool
  | .i8 | .i16 | .i32 | .i16be | .i32be => true
  | _ => false

def bigEndian : IntKind → Bool
  | .u16be | .u32be | .i16be | .i32be => true
  | _ => false

end IntKind

/-- An integer of the object, undefined out of bounds. -/
def readInt (kind : IntKind) (data : ByteSource) (off : Int64) : Option Value :=
  if off < 0 then none
  else
    let bytes := data.window off.toInt.toNat kind.width
    if bytes.length = kind.width then
      let n := ofLe (if kind.bigEndian then bytes.reverse else bytes)
      let half := 2 ^ (8 * kind.width - 1)
      some (.int (Int64.ofInt (if kind.signed ∧ half ≤ n then n - 2 * half else n)))
    else none

/-! ## Quantifiers -/

/-- What a quantifier asks for, against how many there are. -/
inductive Mode where
  | all
  | any
  | none
  | count (mx : Int64)

/-- So many percent of `n`, rounded up. -/
def percentOf (n : Nat) : Value → Option Int64
  | .int p => some (Float.ofNat n * p.toFloat / 100).ceil.toInt64
  | .float p => some (Float.ofNat n * p / 100).ceil.toInt64
  | _ => none

/-- The quantifier of an `of` expression that an item more turns false. -/
def Mode.forbids : Mode → Bool
  | .none => true
  | _ => false

/-- An `of` expression counts all its items and compares once. -/
def Mode.ofHolds (mode : Mode) (total satisfied : Nat) : Bool :=
  match mode with
  | .all => total ≤ satisfied
  | .any => 1 ≤ satisfied
  | .none => satisfied == 0
  | .count mx => mx.toInt ≤ satisfied

def countPresent (patterns : Nat → List Match) (anchor : M (Option Place)) :
    List Nat → (satisfied : Nat) → M (Option Nat)
  | [], satisfied => done satisfied
  | id :: ids, satisfied =>
      known anchor fun place =>
        countPresent patterns anchor ids
          (if present (patterns id) place then satisfied + 1 else satisfied)

def countTrue : List Eval → (satisfied : Nat) → M Nat
  | [], satisfied => pure satisfied
  | e :: es, satisfied => do
      countTrue es (if truthy (← e) then satisfied + 1 else satisfied)

def evalOf (counted : M (Option Nat)) (total : Nat) (mode : M (Option Mode)) :
    Eval :=
  known counted fun satisfied => known mode fun mode =>
    let r := mode.ofHolds total satisfied
    outcome (mode.forbids && r) r

/-- What a loop comes to after an item, unless it goes on. -/
def Mode.settles (mode : Mode) (b : Bool) (countTrue : Nat) : Option Bool :=
  match mode with
  | .all => if b then Option.none else some false
  | .any => if b then some true else Option.none
  | .none => if b then some false else Option.none
  | .count mx =>
      if b ∧ mx.toInt ≤ countTrue then some (mx != 0) else Option.none

/-- The quantifier of a loop that an item more turns false. -/
def Mode.isNone : Mode → Bool
  | .none => true
  | .count mx => mx == 0
  | _ => false

/-- What a loop comes to when it has ended. -/
def Mode.atEnd : Mode → Bool
  | .all | .none => true
  | .any => false
  | .count mx => mx == 0

def unlessSettled (result : Option Bool) (rest : Eval) : Eval :=
  match result with
  | some r => done (.bool r)
  | none => rest

/-- The items of a loop from `k` on, of which there are `left`. -/
def quantifyFrom (mode : Mode) (item : Nat → M Bool) :
    (left k countTrue : Nat) → Eval
  | 0, _, _ => outcome mode.isNone mode.atEnd
  | left + 1, k, countTrue => do
      if ← outOfSteps then pure none
      else
        let b ← item k
        let countTrue := if b then countTrue + 1 else countTrue
        unlessSettled (mode.settles b countTrue)
          (quantifyFrom mode item left (k + 1) countTrue)

/-- A quantifier over `n` items, which stops as soon as it is settled. -/
def quantify (mode : Nat → M (Option Mode)) (n : Nat) (item : Nat → M Bool) :
    Eval :=
  known (mode n) fun mode => quantifyFrom mode item n 0 0

/-- The number of integers from `lo` to `hi`, as a word holds it. -/
def rangeLen (lo hi : Int64) : Nat :=
  min (2 ^ 64 - 1) (hi.toInt - lo.toInt + 1).toNat

/-! ## Loops -/

/-- A loop over `n` items: the quantifier is resolved with the slots of the loop
pushed, an item binds them and has the body evaluated, and they are taken off
again. -/
def loop (base : Nat) (slots : List Binding) (mode : Nat → M (Option Mode))
    (n : Nat) (bind : Nat → M Unit) (body : M Bool) : Eval := do
  envPush slots
  let r ← quantify mode n fun k => do
    bind k
    body
  envTruncate base
  return r

def bindVal (slot : Nat) (v : Option Value) : M Unit := envSet slot (.val v)

def forRange (base : Nat) (lo hi : Eval) (mode : Nat → M (Option Mode))
    (body : M Bool) : Eval := do
  match ← evalInt lo, ← evalInt hi with
  | some lo, some hi =>
      let n := rangeLen lo hi
      if n = 0 then done (.bool false)
      else
        loop base [.val none] mode n
          (fun k => bindVal base (some (.int (lo + Int64.ofNat k)))) body
  | _, _ => done (.bool false)

def forTuple (base : Nat) (items : List Eval) (mode : Nat → M (Option Mode))
    (body : M Bool) : Eval :=
  loop base [.val none] mode items.length
    (fun k => do bindVal base (← items.getD k (pure none))) body

/-- The keys of a map and what is under them. -/
def MapVal.pairs : MapVal → List (Value × Value)
  | .str entries => entries.map fun (k, v) => (.str k, v)
  | .int entries => entries.map fun (k, v) => (.int k, v)

def forCollection (base : Nat) (e : Eval) (mode : Nat → M (Option Mode))
    (body : M Bool) : Eval := do
  match ← e with
  | some (.array items) =>
      if items.length = 0 then done (.bool false)
      else
        loop base [.val none] mode items.length
          (fun k => bindVal base items[k]?) body
  | some (.map entries) =>
      let pairs := entries.pairs
      if pairs.length = 0 then done (.bool false)
      else
        loop base [.val none, .val none] mode pairs.length
          (fun k => do
            bindVal base (pairs[k]?.map Prod.fst)
            bindVal (base + 1) (pairs[k]?.map Prod.snd)) body
  | _ => done (.bool false)

def forOf (slot : Nat) (patterns : List Nat) (mode : Nat → M (Option Mode))
    (body : M Bool) : Eval :=
  loop slot [.pat 0] mode patterns.length
    (fun k => envSet slot (.pat (patterns.getD k 0))) body

/-- Each declaration is bound before the next one is evaluated. -/
def pushDecls : List Eval → M Unit
  | [] => pure ()
  | decl :: decls => do
      envPush [.val (← decl)]
      pushDecls decls

def evalWith (base : Nat) (decls : List Eval) (body : Eval) : Eval := do
  pushDecls decls
  let r ← body
  envTruncate base
  return r

/-! ## Module values -/

def atIndex (items : List Value) (i : Int64) : Option Value :=
  if i < 0 then none else items[i.toInt.toNat]?

def atField (name : String) : Value → Option Value
  | .struct fields => fields.lookup name
  | _ => none

def stepIndex (e : Eval) : Value → Eval
  | .array items => known (evalInt e) fun i => pure (atIndex items i)
  | .map (.str entries) =>
      known (evalStr e) fun key => pure (entries.lookup key)
  | .map (.int entries) =>
      known (evalInt e) fun key => pure (entries.lookup key)
  | _ => pure none

/-! ## The evaluator -/

section

variable (ctx : EvalCtx)

mutual

def eval : Cond → Eval
  | .bool b => charged (done (.bool b))
  | .int i => charged (done (.int i))
  | .float f => charged (done (.float f))
  | .str s => charged (done (.str s))
  | .filesize => charged (done (.int (Int64.ofNat ctx.data.len)))
  | .pattern id anchor =>
      charged (known (evalAnchor anchor) fun place =>
        done (.bool (present (ctx.matchLists id) place)))
  | .count id range =>
      charged (known (evalRange range) fun place =>
        done (.int (countIn (ctx.matchLists id) place)))
  | .offset id idx =>
      charged (known (evalIndex idx) fun i =>
        pure ((ctx.matchLists id)[i]?.map fun m => .int (Int64.ofNat m.offset)))
  | .length id idx =>
      charged (known (evalIndex idx) fun i =>
        pure ((ctx.matchLists id)[i]?.map fun m => .int (Int64.ofNat m.len)))
  | .ruleRef idx => charged (done (.bool (ctx.ruleResults.getD idx false)))
  | .defined e => charged (evalDefined (eval e))
  | .not e => charged (evalNot (eval e))
  | .and v => charged (evalAnd (evalAll v))
  | .or v => charged (evalOr (evalAll v))
  | .neg e => charged (known (eval e) fun v => pure (negate v))
  | .bitNot e => charged (known (eval e) fun v => pure (complement v))
  | .arith op a b => charged (both (eval a) (eval b) (arith op))
  | .cmp op a b => charged (both (eval a) (eval b) (compareValues op))
  | .strCmp op a b => charged (evalStrCmp (op.holds ctx.lower) (eval a) (eval b))
  | .matchesRe a re => charged (known (evalStr (eval a)) fun s => done (.bool (re s)))
  | .ofPatterns quant ids anchor =>
      charged (evalOf (countPresent ctx.matchLists (evalAnchor anchor) ids 0)
        ids.length (resolve quant ids.length))
  | .ofExprs quant exprs =>
      charged (evalOf (do return some (← countTrue (evalAll exprs) 0))
        exprs.length (resolve quant exprs.length))
  | .modAccess module path =>
      charged (known (pure (ctx.root module)) (walkAccess path))
  | .modCall func args =>
      charged (known (evalArgs (evalAll args)) fun vals => do
        noteTurn true
        return ctx.call func vals)
  | .intRead kind addr =>
      charged (known (evalInt (eval addr)) fun off => pure (readInt kind ctx.data off))
  | .entrypoint => charged (pure (ctx.entryPoint.map .int))
  | .external name _ => charged (pure (ctx.externals name))
  | .var slot => charged (envVal slot)
  | .varAccess slot path => charged (known (envVal slot) (walkAccess path))
  | .forIn quant iter base body =>
      charged (evalForIn iter base (resolve quant) (evalBool (eval body)))
  | .forOf quant patterns slot body =>
      charged (forOf slot patterns (resolve quant) (evalBool (eval body)))
  | .withIn decls base body => charged (evalWith base (evalAll decls) (eval body))
  | .patternVar slot anchor =>
      charged (do
        let id ← envPat slot
        known (evalAnchor anchor) fun place =>
          done (.bool (present (ctx.matchLists id) place)))
  | .countVar slot range =>
      charged (do
        let id ← envPat slot
        known (evalRange range) fun place =>
          done (.int (countIn (ctx.matchLists id) place)))
  | .offsetVar slot idx =>
      charged (do
        let id ← envPat slot
        known (evalIndex idx) fun i =>
          pure ((ctx.matchLists id)[i]?.map fun m => .int (Int64.ofNat m.offset)))
  | .lengthVar slot idx =>
      charged (do
        let id ← envPat slot
        known (evalIndex idx) fun i =>
          pure ((ctx.matchLists id)[i]?.map fun m => .int (Int64.ofNat m.len)))

def evalAll : List Cond → List Eval
  | [] => []
  | c :: cs => eval c :: evalAll cs

def evalAnchor : Anchor → M (Option Place)
  | .anywhere => done .anywhere
  | .at e => known (evalInt (eval e)) fun n => done (.at n)
  | .within lo hi => placeBetween (eval lo) (eval hi)

def evalRange : Range → M (Option Place)
  | .whole => done .anywhere
  | .between lo hi => placeBetween (eval lo) (eval hi)

def evalIndex : Index → M (Option Nat)
  | .first => pure (indexValue 1)
  | .nth e => known (evalInt (eval e)) fun i => pure (indexValue i)

/-- The mode of a quantifier against `n` items. -/
def resolve : Quant → (n : Nat) → M (Option Mode)
  | .all => fun _ => done .all
  | .any => fun _ => done .any
  | .none => fun _ => done .none
  | .count e => fun _ => known (evalInt (eval e)) fun mx => done (.count mx)
  | .percent e => fun n =>
      known (eval e) fun p => known (pure (percentOf n p)) fun mx => done (.count mx)

def evalForIn : Iter → (base : Nat) → (mode : Nat → M (Option Mode)) →
    (body : M Bool) → Eval
  | .range lo hi => fun base => forRange base (eval lo) (eval hi)
  | .tuple items => fun base => forTuple base (evalAll items)
  | .collection e => fun base => forCollection base (eval e)

def walkAccess : List Access → Value → Eval
  | [] => done
  | .field name :: path => fun cur =>
      known (pure (atField name cur)) (walkAccess path)
  | .index e :: path => fun cur => known (stepIndex (eval e) cur) (walkAccess path)

end

end

/-! ## Rules -/

structure Rule where
  cond : Cond
  isGlobal : Bool
  isPrivate : Bool

/-- The rules from one on, after those whose results are known.  They share the
steps, and each has the results of those before it. -/
def evalRules (ctx : EvalCtx) :
    List Rule → (results : List Bool) → St → Except Fault (List Bool × St)
  | [], results, st => .ok (results, st)
  | rule :: rules, results, st =>
      match evalBool (eval { ctx with ruleResults := results } rule.cond)
          { st with env := [] } with
      | .error e => .error e
      | .ok (r, st) => evalRules ctx rules (results ++ [r]) st

def matching (rules : List Rule) (results : List Bool) : List Nat :=
  let judged := rules.zip results
  if judged.all fun (rule, r) => !rule.isGlobal || r then
    (List.range judged.length).filter fun i =>
      judged[i]?.any fun (rule, r) => r && !rule.isPrivate
  else []

/-- What evaluating the rules over one object found: the rules that match, and how
the evaluation was left. -/
def evaluate (ctx : EvalCtx) (rules : List Rule) (steps : Option Nat) :
    Except Fault (List Nat × St) :=
  match evalRules ctx rules [] ⟨[], steps, false, false⟩ with
  | .error e => .error e
  | .ok (results, st) => .ok (matching rules results, st)

end Exav.Yara.Ir
