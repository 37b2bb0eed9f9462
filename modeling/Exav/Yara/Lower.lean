import Exav.Yara.Ir

/-!
# Lowering

The condition of a rule, as it is parsed, is lowered to the tree that is
evaluated.  A variable of a loop or of a `with` becomes the number of its slot,
which is its position among the variables in scope.
-/

namespace Exav.Yara.Lower

open Ir (Cond Anchor Index Quant Iter Access ArithOp CmpOp StrOp IntKind
  ModuleKind ExternalType Value)

/-! ## The parsed condition -/

/-- The name of a variable, a module or a rule. -/
structure Ident where
  name : String
  isIdent : name ≠ "$"

/-- An item of a pattern set: a name, or what a name begins with. -/
structure SetItem where
  identifier : String
  wildcard : Bool

inductive PatternSet where
  | them
  | set (items : List SetItem)

mutual

/-- A parsed expression. -/
inductive Expr where
  | true
  | false
  | filesize
  | entrypoint
  | literalInteger (value : Int64)
  | literalFloat (value : Float)
  | literalString (bytes : Bytes)
  | regexp (src : String)
  | ident (id : Ident)
  | patternMatch (name : String) (anchor : MatchAnchor)
  | patternCount (name : String) (range : CountRange)
  | patternOffset (name : String) (index : MatchIndex)
  | patternLength (name : String) (index : MatchIndex)
  | defined (operand : Expr)
  | not (operand : Expr)
  | minus (operand : Expr)
  | bitwiseNot (operand : Expr)
  | and (operands : List Expr)
  | or (operands : List Expr)
  | arithAll (op : ArithOp) (first : Expr) (rest : List Expr)
  | arith (op : ArithOp) (lhs rhs : Expr)
  | cmp (op : CmpOp) (lhs rhs : Expr)
  | str (op : StrOp) (lhs rhs : Expr)
  | matches (lhs rhs : Expr)
  | ofPatterns (quantifier : Quantifier) (set : PatternSet) (anchor : MatchAnchor)
  | ofTuple (quantifier : Quantifier) (exprs : List Expr) (anchor : MatchAnchor)
  | forIn (quantifier : Quantifier) (vars : List Ident) (iterable : Iterable)
      (body : Expr)
  | forOf (quantifier : Quantifier) (set : PatternSet) (body : Expr)
  | with (declarations : List Decl) (body : Expr)
  | fieldAccess (operands : List Expr)
  | lookup (primary index : Expr)
  | call (name : String) (args : List Expr)
  | method (object : Expr) (name : String) (args : List Expr)

inductive MatchAnchor where
  | anywhere
  | at (e : Expr)
  | in (lo hi : Expr)

inductive CountRange where
  | whole
  | in (lo hi : Expr)

inductive MatchIndex where
  | first
  | nth (e : Expr)

inductive Quantifier where
  | all
  | any
  | none
  | expr (e : Expr)
  | percentage (e : Expr)

inductive Iterable where
  | range (lo hi : Expr)
  | tuple (exprs : List Expr)
  | expr (e : Expr)

/-- A declaration of a `with`. -/
inductive Decl where
  | mk (id : Ident) (expression : Expr)

end

/-! ## Scope -/

section

variable {Node : Type}

/-- The compile-time type of a variable: a value that can be used, or a part of a
module at a node of its schema. -/
inductive VarKind (Node : Type) where
  | scalar
  | struct (node : Node)

/-- A variable in scope, or the slot a `for .. of` reserves. -/
structure ScopeVar (Node : Type) where
  name : String
  kind : VarKind Node

/-- A field-access step by name only. -/
inductive FieldName where
  | field (name : String)
  | index

/-- What the modules tell the compiler: their functions, their constants, which
chains of fields there are, and the schema of what they find. -/
structure Modules (Node : Type) where
  resolveFunc : ModuleKind → String → List Cond → Except String Nat
  constant : ModuleKind → String → Option Value
  validateAccess : ModuleKind → List FieldName → Except String Unit
  root : ModuleKind → Option Node
  isScalar : Node → Bool
  field : Node → String → Except String Node
  index : Node → Except String Node
  /-- What an item is, and how many variables a loop over it binds. -/
  iterable : Node → Option (Node × Nat)

/-- A pattern of the rule. -/
structure LocalPat where
  key : String
  id : Nat

/-- The rule being compiled.  The slot of a variable is its index in the scope, and
the last of the `for .. of` slots is what an anonymous pattern refers to. -/
structure RuleCtx (Node : Type) where
  modules : Modules Node
  compileRegex : String → Except String (Bytes → Bool)
  locals : List LocalPat
  ruleIndex : String → Option Nat
  imported : List ModuleKind
  externals : String → Option ExternalType
  scope : List (ScopeVar Node)
  forOfSlots : List Nat

def unsupported {α : Type} (what : String) : Except String α :=
  .error ("unsupported YARA construct: " ++ what)

/-- A pattern reference without its sigil. -/
def stripSigil (s : String) : String :=
  match s.toList with
  | c :: rest => if c ∈ ['$', '#', '@', '!'] then String.ofList rest else s
  | [] => s

namespace RuleCtx

def resolvePattern (ctx : RuleCtx Node) (name : String) : Except String Nat :=
  match ctx.locals.filter fun lp => lp.key == stripSigil name with
  | [] => .error ("reference to undefined pattern `" ++ name ++ "`")
  | [lp] => .ok lp.id
  | _ => .error ("ambiguous pattern reference `" ++ name ++ "`")

def SetItem.hits (item : SetItem) (lp : LocalPat) : Bool :=
  let key := stripSigil item.identifier
  if item.wildcard then key.isPrefixOf lp.key else lp.key == key

def resolveSet (ctx : RuleCtx Node) : PatternSet → List Nat
  | .them => ctx.locals.map LocalPat.id
  | .set items =>
      (items.flatMap fun item =>
        (ctx.locals.filter fun lp => SetItem.hits item lp).map LocalPat.id).foldl
          (fun ids id => if ids.contains id then ids else ids ++ [id]) []

def lookupVar (ctx : RuleCtx Node) (name : String) : Option (Nat × VarKind Node) :=
  (ctx.scope.zipIdx.reverse.find? fun (v, _) => v.name == name).map
    fun (v, slot) => (slot, v.kind)

def anonymous (ctx : RuleCtx Node) (sigil name : String) : Option Nat :=
  if name = sigil then ctx.forOfSlots.getLast? else none

/-- Variables more in scope. -/
def bind (ctx : RuleCtx Node) (vars : List (ScopeVar Node)) : RuleCtx Node :=
  { ctx with scope := ctx.scope ++ vars }

/-- The slot of a `for .. of` reserved, under a name that is no identifier. -/
def bindPattern (ctx : RuleCtx Node) : RuleCtx Node :=
  { ctx with
    scope := ctx.scope ++ [⟨"$", .scalar⟩]
    forOfSlots := ctx.forOfSlots ++ [ctx.scope.length] }

end RuleCtx

/-! ## Module expressions -/

inductive Resolved (Node : Type) where
  | module (kind : ModuleKind)
  | access (kind : ModuleKind) (path : List Access)
  | value (c : Cond)
  | varValue (slot : Nat)
  | varAccess (slot : Nat) (node : Node) (path : List Access)

def moduleOf : String → Option ModuleKind
  | "math" => some .math
  | "hash" => some .hash
  | "string" => some .stringMod
  | "time" => some .time
  | "pe" => some .pe
  | "elf" => some .elf
  | "dotnet" => some .dotNet
  | _ => none

def moduleLabel : ModuleKind → String
  | .math => "math"
  | .hash => "hash"
  | .stringMod => "string"
  | .time => "time"
  | .pe => "pe"
  | .elf => "elf"
  | .dotNet => "dotnet"

def constToCond : Value → Except String Cond
  | .int i => .ok (.int i)
  | .float f => .ok (.float f)
  | .bool b => .ok (.bool b)
  | .str s => .ok (.str s)
  | _ => .error "module constants are scalar"

def Resolved.ofIdent (ctx : RuleCtx Node) (id : Ident) :
    Except String (Resolved Node) :=
  match ctx.lookupVar id.name with
  | some (slot, .scalar) => .ok (.varValue slot)
  | some (slot, .struct node) => .ok (.varAccess slot node [])
  | none =>
      match ctx.externals id.name with
      | some ty => .ok (.value (.external id.name ty))
      | none =>
          match moduleOf id.name with
          | some kind =>
              if kind ∈ ctx.imported then .ok (.module kind)
              else .error ("module `" ++ id.name ++ "` used without `import`")
          | none =>
              unsupported ("identifier `" ++ id.name ++ "` (module or undefined rule)")

/-- An index step more. -/
def Resolved.appendIndex (ctx : RuleCtx Node) (idx : Cond) :
    Resolved Node → Except String (Resolved Node)
  | .access kind path => .ok (.access kind (path ++ [.index idx]))
  | .varAccess slot node path => do
      return .varAccess slot (← ctx.modules.index node) (path ++ [.index idx])
  | .varValue _ => .error "indexing a scalar loop/`with` variable"
  | .module _ => unsupported "indexing a module"
  | .value _ => unsupported "indexing a scalar value"

/-- A field step more. -/
def Resolved.appendField (ctx : RuleCtx Node) (name : String) :
    Resolved Node → Except String (Resolved Node)
  | .module kind =>
      match ctx.modules.constant kind name with
      | some v => do return .value (← constToCond v)
      | none => .ok (.access kind [.field name])
  | .access kind path => .ok (.access kind (path ++ [.field name]))
  | .varAccess slot node path => do
      return .varAccess slot (← ctx.modules.field node name) (path ++ [.field name])
  | .varValue _ => .error "field access on a scalar loop/`with` variable"
  | .value _ => unsupported "field access on a scalar value"

def fieldName : Access → FieldName
  | .field name => .field name
  | .index _ => .index

def Resolved.toCond (ctx : RuleCtx Node) : Resolved Node → Except String Cond
  | .value c => .ok c
  | .access kind path => do
      ctx.modules.validateAccess kind (path.map fieldName)
      return .modAccess kind path
  | .varValue slot => .ok (.var slot)
  | .varAccess _ _ [] =>
      .error "struct-typed variable used as a value (access one of its fields)"
  | .varAccess slot _ path => .ok (.varAccess slot path)
  | .module _ => unsupported "bare module reference used as a value"

def nodeVarKind (ctx : RuleCtx Node) (node : Node) : VarKind Node :=
  if ctx.modules.isScalar node then .scalar else .struct node

def terminalFrom (ctx : RuleCtx Node) : List Access → Node → Except String Node
  | [], node => .ok node
  | .field name :: path, node => do
      terminalFrom ctx path (← ctx.modules.field node name)
  | .index _ :: path, node => do terminalFrom ctx path (← ctx.modules.index node)

def moduleTerminalNode (ctx : RuleCtx Node) (kind : ModuleKind)
    (path : List Access) : Except String Node :=
  match ctx.modules.root kind with
  | some node => terminalFrom ctx path node
  | none =>
      .error ("the `" ++ moduleLabel kind ++
        "` module exposes no navigable struct/array fields")

/-- A variable at its path, which may be empty. -/
def varAt (slot : Nat) : List Access → Cond
  | [] => .var slot
  | path => .varAccess slot path

/-- What a module expression declares: its condition, and the kind the name is
bound to. -/
def Resolved.declares (ctx : RuleCtx Node) :
    Resolved Node → Except String (Cond × VarKind Node)
  | .value c => .ok (c, .scalar)
  | .varValue slot => .ok (.var slot, .scalar)
  | .access kind path => do
      let node ← moduleTerminalNode ctx kind path
      let c ← (Resolved.access kind path).toCond ctx
      return (c, nodeVarKind ctx node)
  | .varAccess slot node path => .ok (varAt slot path, nodeVarKind ctx node)
  | .module kind =>
      match ctx.modules.root kind with
      | some node => .ok (.modAccess kind [], .struct node)
      | none =>
          unsupported ("binding a bare `" ++ moduleLabel kind ++
            "` module value in `with` (it exposes no navigable fields)")

def Resolved.collection (ctx : RuleCtx Node) :
    Resolved Node → Except String (Node × Cond)
  | .access kind path => do
      let node ← moduleTerminalNode ctx kind path
      let c ← (Resolved.access kind path).toCond ctx
      return (node, c)
  | .varAccess slot node path => .ok (node, varAt slot path)
  | _ => .error "expression is not iterable (expected an array or map)"

def loopKinds (ctx : RuleCtx Node) (node : Node) :
    Except String (List (VarKind Node)) :=
  match ctx.modules.iterable node with
  | none => .error "expression is not iterable (expected an array or map)"
  | some (elem, nvars) =>
      if nvars = 2 then .ok [.scalar, nodeVarKind ctx elem]
      else .ok [nodeVarKind ctx elem]

def isModuleShaped : Expr → Bool
  | .ident _ | .fieldAccess _ | .lookup _ _ => true
  | _ => false

def lowerIdent (ctx : RuleCtx Node) (id : Ident) : Except String Cond :=
  match ctx.lookupVar id.name with
  | some (slot, .scalar) => .ok (.var slot)
  | some (_, .struct _) =>
      .error ("variable `" ++ id.name ++
        "` is a struct and cannot be used as a value (access one of its fields)")
  | none =>
      match ctx.ruleIndex id.name with
      | some idx => .ok (.ruleRef idx)
      | none =>
          match ctx.externals id.name with
          | some ty => .ok (.external id.name ty)
          | none =>
              unsupported ("identifier `" ++ id.name ++ "` (module or undefined rule)")

def intKind : String → Option IntKind
  | "uint8" | "uint8be" => some .u8
  | "int8" | "int8be" => some .i8
  | "uint16" => some .u16
  | "int16" => some .i16
  | "uint32" => some .u32
  | "int32" => some .i32
  | "uint16be" => some .u16be
  | "int16be" => some .i16be
  | "uint32be" => some .u32be
  | "int32be" => some .i32be
  | _ => none

/-- What a bare function reads. -/
def callKind (name : String) : Except String IntKind :=
  match intKind name with
  | some kind => .ok kind
  | none => unsupported ("function call `" ++ name ++ "()`")

/-- The right operand of `matches`. -/
def regexOf (ctx : RuleCtx Node) : Expr → Except String (Bytes → Bool)
  | .regexp src => ctx.compileRegex src
  | _ => .error "right operand of `matches` must be a regexp"

/-- The name a subscript within a chain is of. -/
def subscripted : Expr → Except String Ident
  | .ident id => .ok id
  | _ => unsupported "unsupported module field access"

/-- What a declaration binds: what a module expression declares, or a scalar. -/
def declared (ctx : RuleCtx Node) (shaped : Bool)
    (resolved : Except String (Resolved Node)) (lowered : Except String Cond) :
    Except String (Cond × VarKind Node) :=
  if shaped then do (← resolved).declares ctx else do return (← lowered, .scalar)

def loopVars (vars : List Ident) (kinds : List (VarKind Node)) :
    Except String (List (ScopeVar Node)) :=
  if vars.length = kinds.length then
    .ok (List.zipWith (fun id kind => ⟨id.name, kind⟩) vars kinds)
  else
    .error ("`for` loop binds " ++ toString vars.length ++
      " variable(s) but the iterable yields " ++ toString kinds.length)

/-! ## Lowering -/

mutual

def lower : Expr → RuleCtx Node → Except String Cond
  | .true => fun _ => .ok (.bool true)
  | .false => fun _ => .ok (.bool false)
  | .filesize => fun _ => .ok .filesize
  | .entrypoint => fun _ => .ok .entrypoint
  | .literalInteger value => fun _ => .ok (.int value)
  | .literalFloat value => fun _ => .ok (.float value)
  | .literalString bytes => fun _ => .ok (.str bytes)
  | .regexp _ => fun _ => unsupported "bare regular expression in condition"
  | .ident id => fun ctx => lowerIdent ctx id
  | .patternMatch name anchor => fun ctx => do
      let anchor ← lowerAnchor anchor ctx
      match ctx.anonymous "$" name with
      | some slot => return .patternVar slot anchor
      | none => return .pattern (← ctx.resolvePattern name) anchor
  | .patternCount name range => fun ctx => do
      let range ← lowerRange range ctx
      match ctx.anonymous "#" name with
      | some slot => return .countVar slot range
      | none => return .count (← ctx.resolvePattern name) range
  | .patternOffset name index => fun ctx => do
      let idx ← lowerIndex index ctx
      match ctx.anonymous "@" name with
      | some slot => return .offsetVar slot idx
      | none => return .offset (← ctx.resolvePattern name) idx
  | .patternLength name index => fun ctx => do
      let idx ← lowerIndex index ctx
      match ctx.anonymous "!" name with
      | some slot => return .lengthVar slot idx
      | none => return .length (← ctx.resolvePattern name) idx
  | .defined operand => fun ctx => do return .defined (← lower operand ctx)
  | .not operand => fun ctx => do return .not (← lower operand ctx)
  | .minus operand => fun ctx => do return .neg (← lower operand ctx)
  | .bitwiseNot operand => fun ctx => do return .bitNot (← lower operand ctx)
  | .and operands => fun ctx => do return .and (← lowerAll operands ctx)
  | .or operands => fun ctx => do return .or (← lowerAll operands ctx)
  | .arithAll op first rest => fun ctx => do
      foldArith op rest ctx (← lower first ctx)
  | .arith op lhs rhs => fun ctx => do
      return .arith op (← lower lhs ctx) (← lower rhs ctx)
  | .cmp op lhs rhs => fun ctx => do
      return .cmp op (← lower lhs ctx) (← lower rhs ctx)
  | .str op lhs rhs => fun ctx => do
      return .strCmp op (← lower lhs ctx) (← lower rhs ctx)
  | .matches lhs rhs => fun ctx => do
      return .matchesRe (← lower lhs ctx) (← regexOf ctx rhs)
  | .ofPatterns quantifier set anchor => fun ctx => do
      let quant ← lowerQuant quantifier ctx
      return .ofPatterns quant (ctx.resolveSet set) (← lowerAnchor anchor ctx)
  | .ofTuple quantifier exprs anchor => fun ctx => do
      let quant ← lowerQuant quantifier ctx
      let exprs ← lowerAll exprs ctx
      -- Where the patterns are to match is not asked of expressions.
      let _ ← lowerAnchor anchor ctx
      return .ofExprs quant exprs
  | .forIn quantifier vars iterable body => fun ctx => do
      let quant ← lowerQuant quantifier ctx
      let (iter, kinds) ← lowerIterable iterable ctx
      let bound ← loopVars vars kinds
      return .forIn quant iter ctx.scope.length (← lower body (ctx.bind bound))
  | .forOf quantifier set body => fun ctx => do
      let quant ← lowerQuant quantifier ctx
      return .forOf quant (ctx.resolveSet set) ctx.scope.length
        (← lower body ctx.bindPattern)
  | .with declarations body => fun ctx => do
      let (decls, inner) ← lowerDecls declarations ctx
      return .withIn decls ctx.scope.length (← lower body inner)
  | .fieldAccess operands => fun ctx => do
      (← resolveFieldAccess operands ctx).toCond ctx
  | .lookup primary index => fun ctx => do
      let base ← resolveModuleExpr primary ctx
      (← base.appendIndex ctx (← lower index ctx)).toCond ctx
  | .call name args => fun ctx => do
      let kind ← callKind name
      return .intRead kind (← lowerArg name args ctx)
  | .method object name args => fun ctx => do
      match ← resolveModuleExpr object ctx with
      | .module kind =>
          let args ← lowerAll args ctx
          return .modCall (← ctx.modules.resolveFunc kind name args) args
      | _ => unsupported ("method call `" ++ name ++ "()` on a non-module value")

/-- The one argument of a file read. -/
def lowerArg (name : String) : List Expr → RuleCtx Node → Except String Cond
  | [addr] => fun ctx => lower addr ctx
  | _ => fun _ => .error ("`" ++ name ++ "()` takes exactly one argument")

def lowerAll : List Expr → RuleCtx Node → Except String (List Cond)
  | [] => fun _ => .ok []
  | e :: es => fun ctx => do return (← lower e ctx) :: (← lowerAll es ctx)

def foldArith (op : ArithOp) : List Expr → RuleCtx Node → Cond → Except String Cond
  | [] => fun _ acc => .ok acc
  | e :: es => fun ctx acc => do
      foldArith op es ctx (.arith op acc (← lower e ctx))

def lowerAnchor : MatchAnchor → RuleCtx Node → Except String Anchor
  | .anywhere => fun _ => .ok .anywhere
  | .at e => fun ctx => do return .at (← lower e ctx)
  | .in lo hi => fun ctx => do return .within (← lower lo ctx) (← lower hi ctx)

def lowerRange : CountRange → RuleCtx Node → Except String Ir.Range
  | .whole => fun _ => .ok .whole
  | .in lo hi => fun ctx => do return .between (← lower lo ctx) (← lower hi ctx)

def lowerIndex : MatchIndex → RuleCtx Node → Except String Index
  | .first => fun _ => .ok .first
  | .nth e => fun ctx => do return .nth (← lower e ctx)

def lowerQuant : Quantifier → RuleCtx Node → Except String Quant
  | .all => fun _ => .ok .all
  | .any => fun _ => .ok .any
  | .none => fun _ => .ok .none
  | .expr e => fun ctx => do return .count (← lower e ctx)
  | .percentage e => fun ctx => do return .percent (← lower e ctx)

def lowerIterable : Iterable → RuleCtx Node →
    Except String (Iter × List (VarKind Node))
  | .range lo hi => fun ctx => do
      return (.range (← lower lo ctx) (← lower hi ctx), [.scalar])
  | .tuple exprs => fun ctx => do
      return (.tuple (← lowerAll exprs ctx), [.scalar])
  | .expr e => fun ctx => do
      let (node, c) ← (← resolveModuleExpr e ctx).collection ctx
      return (.collection c, ← loopKinds ctx node)

/-- Declarations, each in scope of the next, and the scope after them. -/
def lowerDecls : List Decl → RuleCtx Node →
    Except String (List Cond × RuleCtx Node)
  | [] => fun ctx => .ok ([], ctx)
  | .mk id e :: decls => fun ctx => do
      let (c, kind) ←
        declared ctx (isModuleShaped e) (resolveModuleExpr e ctx) (lower e ctx)
      let (cs, inner) ← lowerDecls decls (ctx.bind [⟨id.name, kind⟩])
      return (c :: cs, inner)

def resolveModuleExpr : Expr → RuleCtx Node → Except String (Resolved Node)
  | .ident id => fun ctx => Resolved.ofIdent ctx id
  | .fieldAccess operands => fun ctx => resolveFieldAccess operands ctx
  | .lookup primary index => fun ctx => do
      let base ← resolveModuleExpr primary ctx
      base.appendIndex ctx (← lower index ctx)
  | _ => fun _ => unsupported "unsupported module expression"

def resolveFieldAccess : List Expr → RuleCtx Node → Except String (Resolved Node)
  | [] => fun _ => .error "empty field access"
  | first :: steps => fun ctx => do
      appendSteps steps ctx (← resolveModuleExpr first ctx)

def appendSteps : List Expr → RuleCtx Node → Resolved Node →
    Except String (Resolved Node)
  | [] => fun _ r => .ok r
  | step :: steps => fun ctx r => do appendSteps steps ctx (← appendStep step ctx r)

/-- One step of a dotted chain. -/
def appendStep : Expr → RuleCtx Node → Resolved Node →
    Except String (Resolved Node)
  | .ident id => fun ctx r => r.appendField ctx id.name
  | .lookup primary index => fun ctx r => do
      let id ← subscripted primary
      let r ← r.appendField ctx id.name
      r.appendIndex ctx (← lower index ctx)
  | .fieldAccess operands => fun ctx r => appendSteps operands ctx r
  | _ => fun _ _ => unsupported "unsupported module field access"

end

end

end Exav.Yara.Lower
