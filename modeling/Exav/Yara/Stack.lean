import Exav.Yara.Keeps

/-!
# The binding stack at run time

What is evaluated finds the environment as its scope has it, reads each slot as
what is bound to it, and leaves the environment as it was, as long as a loop
evaluates neither its quantifier nor the items of a tuple: these are in scope
outside of the loop, and are evaluated with its slots pushed.
-/

namespace Exav.Yara.Ir

/-! ## Checked evaluation -/

def atScope (scope : List Slot) : M Unit := fun st =>
  if st.env.map Binding.slot = scope then .ok ((), st) else .error .slot

def node (scope : List Slot) (e : Eval) : Eval := do
  atScope scope
  charged e

section

variable (ctx : EvalCtx)

mutual

/-- The evaluator, stopped at a condition that does not find the environment of the
scope it was lowered in. -/
def evalIn : Cond → List Slot → Eval
  | .bool b => fun scope => node scope (done (.bool b))
  | .int i => fun scope => node scope (done (.int i))
  | .float f => fun scope => node scope (done (.float f))
  | .str s => fun scope => node scope (done (.str s))
  | .filesize => fun scope => node scope (done (.int (Int64.ofNat ctx.data.len)))
  | .pattern id anchor => fun scope =>
      node scope (known (anchorIn anchor scope) fun place =>
        done (.bool (present (ctx.matchLists id) place)))
  | .count id range => fun scope =>
      node scope (known (rangeIn range scope) fun place =>
        done (.int (countIn (ctx.matchLists id) place)))
  | .offset id idx => fun scope =>
      node scope (known (indexIn idx scope) fun i =>
        pure ((ctx.matchLists id)[i]?.map fun m => .int (Int64.ofNat m.offset)))
  | .length id idx => fun scope =>
      node scope (known (indexIn idx scope) fun i =>
        pure ((ctx.matchLists id)[i]?.map fun m => .int (Int64.ofNat m.len)))
  | .ruleRef idx => fun scope =>
      node scope (done (.bool (ctx.ruleResults.getD idx false)))
  | .defined e => fun scope => node scope (evalDefined (evalIn e scope))
  | .not e => fun scope => node scope (evalNot (evalIn e scope))
  | .and v => fun scope => node scope (evalAnd (allIn v scope))
  | .or v => fun scope => node scope (evalOr (allIn v scope))
  | .neg e => fun scope =>
      node scope (known (evalIn e scope) fun v => pure (negate v))
  | .bitNot e => fun scope =>
      node scope (known (evalIn e scope) fun v => pure (complement v))
  | .arith op a b => fun scope =>
      node scope (both (evalIn a scope) (evalIn b scope) (arith op))
  | .cmp op a b => fun scope =>
      node scope (both (evalIn a scope) (evalIn b scope) (compareValues op))
  | .strCmp op a b => fun scope =>
      node scope (evalStrCmp (op.holds ctx.lower) (evalIn a scope) (evalIn b scope))
  | .matchesRe a re => fun scope =>
      node scope (known (evalStr (evalIn a scope)) fun s => done (.bool (re s)))
  | .ofPatterns quant ids anchor => fun scope =>
      node scope (evalOf (countPresent ctx.matchLists (anchorIn anchor scope) ids 0)
        ids.length (resolveIn quant scope ids.length))
  | .ofExprs quant exprs => fun scope =>
      node scope (evalOf (do return some (← countTrue (allIn exprs scope) 0))
        exprs.length (resolveIn quant scope exprs.length))
  | .modAccess module path => fun scope =>
      node scope (known (pure (ctx.root module)) (walkIn path scope))
  | .modCall func args => fun scope =>
      node scope (known (evalArgs (allIn args scope)) fun vals => do
        noteTurn true
        return ctx.call func vals)
  | .intRead kind addr => fun scope =>
      node scope (known (evalInt (evalIn addr scope)) fun off =>
        pure (readInt kind ctx.data off))
  | .entrypoint => fun scope => node scope (pure (ctx.entryPoint.map .int))
  | .external name _ => fun scope => node scope (pure (ctx.externals name))
  | .var slot => fun scope => node scope (envVal slot)
  | .varAccess slot path => fun scope =>
      node scope (known (envVal slot) (walkIn path scope))
  | .forIn quant iter base body => fun scope =>
      node scope (forInIn iter scope base (resolveIn quant scope)
        (evalBool (evalIn body (scope ++ [.value]))))
  | .forOf quant patterns slot body => fun scope =>
      node scope (forOf slot patterns (resolveIn quant scope)
        (evalBool (evalIn body (scope ++ [.pattern]))))
  | .withIn decls base body => fun scope =>
      node scope (evalWith base (declsIn decls scope)
        (evalIn body (scope ++ List.replicate decls.length .value)))
  | .patternVar slot anchor => fun scope =>
      node scope (do
        let id ← envPat slot
        known (anchorIn anchor scope) fun place =>
          done (.bool (present (ctx.matchLists id) place)))
  | .countVar slot range => fun scope =>
      node scope (do
        let id ← envPat slot
        known (rangeIn range scope) fun place =>
          done (.int (countIn (ctx.matchLists id) place)))
  | .offsetVar slot idx => fun scope =>
      node scope (do
        let id ← envPat slot
        known (indexIn idx scope) fun i =>
          pure ((ctx.matchLists id)[i]?.map fun m => .int (Int64.ofNat m.offset)))
  | .lengthVar slot idx => fun scope =>
      node scope (do
        let id ← envPat slot
        known (indexIn idx scope) fun i =>
          pure ((ctx.matchLists id)[i]?.map fun m => .int (Int64.ofNat m.len)))

def allIn : List Cond → List Slot → List Eval
  | [] => fun _ => []
  | c :: cs => fun scope => evalIn c scope :: allIn cs scope

/-- Each declaration is in scope of the next one. -/
def declsIn : List Cond → List Slot → List Eval
  | [] => fun _ => []
  | c :: cs => fun scope => evalIn c scope :: declsIn cs (scope ++ [.value])

def anchorIn : Anchor → List Slot → M (Option Place)
  | .anywhere => fun _ => done .anywhere
  | .at e => fun scope => known (evalInt (evalIn e scope)) fun n => done (.at n)
  | .within lo hi => fun scope => placeBetween (evalIn lo scope) (evalIn hi scope)

def rangeIn : Range → List Slot → M (Option Place)
  | .whole => fun _ => done .anywhere
  | .between lo hi => fun scope => placeBetween (evalIn lo scope) (evalIn hi scope)

def indexIn : Index → List Slot → M (Option Nat)
  | .first => fun _ => pure (indexValue 1)
  | .nth e => fun scope =>
      known (evalInt (evalIn e scope)) fun i => pure (indexValue i)

def resolveIn : Quant → List Slot → (n : Nat) → M (Option Mode)
  | .all => fun _ _ => done .all
  | .any => fun _ _ => done .any
  | .none => fun _ _ => done .none
  | .count e => fun scope _ =>
      known (evalInt (evalIn e scope)) fun mx => done (.count mx)
  | .percent e => fun scope n =>
      known (evalIn e scope) fun p =>
        known (pure (percentOf n p)) fun mx => done (.count mx)

def forInIn : Iter → List Slot → (base : Nat) → (mode : Nat → M (Option Mode)) →
    (body : M Bool) → Eval
  | .range lo hi => fun scope base => forRange base (evalIn lo scope) (evalIn hi scope)
  | .tuple items => fun scope base => forTuple base (allIn items scope)
  | .collection e => fun scope base => forCollection base (evalIn e scope)

def walkIn : List Access → List Slot → Value → Eval
  | [] => fun _ => done
  | .field name :: path => fun scope cur =>
      known (pure (atField name cur)) (walkIn path scope)
  | .index e :: path => fun scope cur =>
      known (stepIndex (evalIn e scope) cur) (walkIn path scope)

end

end

/-! ## Plain conditions -/

/-- A quantifier that is not evaluated. -/
def Quant.IsWord : Quant → Prop
  | .all | .any | .none => True
  | .count _ | .percent _ => False

section

variable (binders : Prop)

mutual

/-- Binders are as they may be, and no loop has an expression for its quantifier, or
goes over a tuple. -/
def PlainIf : Cond → Prop
  | .bool _ | .int _ | .float _ | .str _ | .filesize | .ruleRef _ | .entrypoint
  | .external _ _ | .var _ => True
  | .pattern _ anchor | .patternVar _ anchor => PlainAnchor anchor
  | .count _ range | .countVar _ range => PlainRange range
  | .offset _ idx | .length _ idx | .offsetVar _ idx | .lengthVar _ idx =>
      PlainIndex idx
  | .defined e | .not e | .neg e | .bitNot e | .matchesRe e _ | .intRead _ e =>
      PlainIf e
  | .and v | .or v | .modCall _ v => PlainAll v
  | .arith _ a b | .cmp _ a b | .strCmp _ a b => PlainIf a ∧ PlainIf b
  | .ofPatterns quant _ anchor => PlainQuant quant ∧ PlainAnchor anchor
  | .ofExprs quant exprs => PlainQuant quant ∧ PlainAll exprs
  | .modAccess _ path | .varAccess _ path => PlainPath path
  | .forIn quant iter _ body =>
      binders ∧ quant.IsWord ∧ PlainIter iter ∧ PlainIf body
  | .forOf quant _ _ body => binders ∧ quant.IsWord ∧ PlainIf body
  | .withIn decls _ body => binders ∧ PlainAll decls ∧ PlainIf body

def PlainAll : List Cond → Prop
  | [] => True
  | c :: cs => PlainIf c ∧ PlainAll cs

def PlainAnchor : Anchor → Prop
  | .anywhere => True
  | .at e => PlainIf e
  | .within lo hi => PlainIf lo ∧ PlainIf hi

def PlainRange : Range → Prop
  | .whole => True
  | .between lo hi => PlainIf lo ∧ PlainIf hi

def PlainIndex : Index → Prop
  | .first => True
  | .nth e => PlainIf e

def PlainQuant : Quant → Prop
  | .all | .any | .none => True
  | .count e | .percent e => PlainIf e

def PlainIter : Iter → Prop
  | .range lo hi => PlainIf lo ∧ PlainIf hi
  | .tuple _ => False
  | .collection e => PlainIf e

def PlainPath : List Access → Prop
  | [] => True
  | .field _ :: path => PlainPath path
  | .index e :: path => PlainIf e ∧ PlainPath path

end

end

/-- No loop has an expression for its quantifier, or goes over a tuple. -/
def Plain (c : Cond) : Prop := PlainIf True c

/-! ## Conditions -/

section

variable {scope : List Slot} {ctx : EvalCtx} {binders : Prop}

theorem keeps_node {n : Nat} {e e' : Eval} (keeps : Keeps none scope n Free e e') :
    Keeps none scope n Free (charged e) (node scope e') := by
  intro st st' holds beside
  obtain ⟨a, t, t', ran, ran', kept⟩ := keeps_charged keeps st st' holds beside
  have inside : atScope scope st' = .ok ((), st') := by
    rw [beside.eq]
    exact if_pos holds.slots
  exact ⟨a, t, t', ran, (bind_eq inside _).trans ran', kept⟩

theorem Quant.IsWord.known {quant : Quant} (word : quant.IsWord) (n : Nat) :
    ∃ mo, resolve ctx quant n = done mo ∧ resolveIn ctx quant scope n = done mo := by
  cases quant with
  | all => exact ⟨.all, rfl, rfl⟩
  | any => exact ⟨.any, rfl, rfl⟩
  | none => exact ⟨.none, rfl, rfl⟩
  | count e => exact word.elim
  | percent e => exact word.elim

mutual

/-- What is evaluated finds the environment of its scope, and leaves it so. -/
theorem keeps_eval (free : ctx.Free) : ∀ (c : Cond) {scope : List Slot},
    Scoped c scope → PlainIf binders c →
      Keeps none scope scope.length Free (eval ctx c) (evalIn ctx c scope)
  | .bool b, _, _, _ => keeps_node (keeps_done (.bool b))
  | .int i, _, _, _ => keeps_node (keeps_done (.int i))
  | .float f, _, _, _ => keeps_node (keeps_done (.float f))
  | .str s, _, _, _ => keeps_node (keeps_done (.str s))
  | .filesize, _, _, _ => keeps_node (keeps_done (.int _))
  | .ruleRef _, _, _, _ => keeps_node (keeps_done (.bool _))
  | .entrypoint, _, _, _ => keeps_node (keeps_pure (free_map .int _))
  | .external name _, _, _, _ => keeps_node (keeps_pure (free.externals name))
  | .pattern _ anchor, _, within, plain =>
      keeps_node (keeps_place (keeps_anchor free anchor within plain) fun _ => .bool _)
  | .count _ range, _, within, plain =>
      keeps_node (keeps_place (keeps_range free range within plain) fun _ => .int _)
  | .offset _ idx, _, within, plain | .length _ idx, _, within, plain =>
      keeps_node (keeps_at (keeps_index free idx within plain)
        fun _ => free_map (fun _ => .int _) _)
  | .defined e, _, within, plain =>
      keeps_node (keeps_defined (keeps_eval free e within plain))
  | .not e, _, within, plain => keeps_node (keeps_not (keeps_eval free e within plain))
  | .and v, _, within, plain => keeps_node (keeps_and (keeps_all free v within plain))
  | .or v, _, within, plain => keeps_node (keeps_or (keeps_all free v within plain))
  | .neg e, _, within, plain =>
      keeps_node (keeps_known (keeps_eval free e within plain)
        fun v _ => keeps_pure (free_negate v))
  | .bitNot e, _, within, plain =>
      keeps_node (keeps_known (keeps_eval free e within plain)
        fun v _ => keeps_pure (free_complement v))
  | .arith op a b, _, within, plain =>
      keeps_node (keeps_both (free_arith op) (keeps_eval free a within.1 plain.1)
        (keeps_eval free b within.2 plain.2))
  | .cmp op a b, _, within, plain =>
      keeps_node (keeps_both (free_compareValues op)
        (keeps_eval free a within.1 plain.1) (keeps_eval free b within.2 plain.2))
  | .strCmp _ a b, _, within, plain =>
      keeps_node (keeps_strCmp (keeps_eval free a within.1 plain.1)
        (keeps_eval free b within.2 plain.2))
  | .matchesRe a _, _, within, plain =>
      keeps_node (keeps_known (keeps_evalStr (keeps_eval free a within plain))
        fun _ _ => keeps_done (.bool _))
  | .ofPatterns quant ids anchor, _, within, plain =>
      keeps_node (keeps_of
        (keeps_countPresent (keeps_anchor free anchor within.2 plain.2) ids 0)
        (keeps_resolve free quant within.1 plain.1 _))
  | .ofExprs quant exprs, _, within, plain =>
      keeps_node (keeps_of (keeps_counted (keeps_all free exprs within.2 plain.2))
        (keeps_resolve free quant within.1 plain.1 _))
  | .modAccess kind path, _, within, plain =>
      keeps_node (keeps_known (keeps_pure (free.root kind))
        fun _ inside => keeps_walk free path within plain inside)
  | .modCall func args, _, within, plain =>
      keeps_node (keeps_known (keeps_args (keeps_all free args within plain))
        fun vals _ => keeps_bind (keeps_noteTurn true)
          fun _ _ => keeps_pure (free.call func vals))
  | .intRead kind addr, _, within, plain =>
      keeps_node (keeps_known (keeps_evalInt (keeps_eval free addr within plain))
        fun off _ => keeps_pure (free_readInt kind ctx.data off))
  | .var _, _, within, _ => keeps_node (keeps_envVal within)
  | .varAccess _ path, _, within, plain =>
      keeps_node (keeps_known (keeps_envVal within.1)
        fun _ inside => keeps_walk free path within.2 plain inside)
  | .forIn quant iter base body, scope, within, plain => by
      obtain ⟨-, of_iter, rfl, of_body⟩ := within
      obtain ⟨-, word, plain_iter, plain_body⟩ := plain
      exact keeps_node (keeps_forIn free iter of_iter plain_iter word.known
        (keeps_evalBool (keeps_eval free body of_body plain_body)))
  | .forOf quant patterns slot body, scope, within, plain => by
      obtain ⟨-, rfl, of_body⟩ := within
      obtain ⟨-, word, plain_body⟩ := plain
      exact keeps_node (keeps_forOf patterns word.known
        (keeps_evalBool (keeps_eval free body of_body plain_body)))
  | .withIn decls base body, scope, within, plain => by
      obtain ⟨of_decls, rfl, of_body⟩ := within
      obtain ⟨-, plain_decls, plain_body⟩ := plain
      obtain ⟨declared, same⟩ := keeps_decls free decls of_decls plain_decls
      exact keeps_node (keeps_with declared same
        (keeps_eval free body of_body plain_body))
  | .patternVar _ anchor, _, within, plain =>
      keeps_node (keeps_bind (keeps_envPat within.1) fun _ _ =>
        keeps_place (keeps_anchor free anchor within.2 plain) fun _ => .bool _)
  | .countVar _ range, _, within, plain =>
      keeps_node (keeps_bind (keeps_envPat within.1) fun _ _ =>
        keeps_place (keeps_range free range within.2 plain) fun _ => .int _)
  | .offsetVar _ idx, _, within, plain | .lengthVar _ idx, _, within, plain =>
      keeps_node (keeps_bind (keeps_envPat within.1) fun _ _ =>
        keeps_at (keeps_index free idx within.2 plain)
          fun _ => free_map (fun _ => .int _) _)

theorem keeps_all (free : ctx.Free) : ∀ (cs : List Cond) {scope : List Slot},
    ScopedAll cs scope → PlainAll binders cs →
      KeepsAll none scope scope.length (evalAll ctx cs) (allIn ctx cs scope)
  | [], _, _, _ => .nil
  | c :: cs, _, within, plain =>
      .cons (keeps_eval free c within.1 plain.1) (keeps_all free cs within.2 plain.2)

theorem keeps_decls (free : ctx.Free) : ∀ (cs : List Cond) {scope : List Slot},
    ScopedDecls cs scope → PlainAll binders cs →
      KeepsDecls none scope (evalAll ctx cs) (declsIn ctx cs scope) ∧
      (evalAll ctx cs).length = cs.length
  | [], scope, _, _ => ⟨.nil scope, rfl⟩
  | c :: cs, _, within, plain =>
      have rest := keeps_decls free cs within.2 plain.2
      ⟨.cons (keeps_eval free c within.1 plain.1) rest.1, congrArg (· + 1) rest.2⟩

theorem keeps_anchor (free : ctx.Free) : ∀ (anchor : Anchor) {scope : List Slot},
    ScopedAnchor anchor scope → PlainAnchor binders anchor →
      Keeps none scope scope.length (Each fun _ => True) (evalAnchor ctx anchor)
        (anchorIn ctx anchor scope)
  | .anywhere, _, _, _ => keeps_done trivial
  | .at e, _, within, plain =>
      keeps_known (keeps_evalInt (keeps_eval free e within plain))
        fun _ _ => keeps_done trivial
  | .within lo hi, _, within, plain =>
      keeps_placeBetween (keeps_eval free lo within.1 plain.1)
        (keeps_eval free hi within.2 plain.2)

theorem keeps_range (free : ctx.Free) : ∀ (range : Range) {scope : List Slot},
    ScopedRange range scope → PlainRange binders range →
      Keeps none scope scope.length (Each fun _ => True) (evalRange ctx range)
        (rangeIn ctx range scope)
  | .whole, _, _, _ => keeps_done trivial
  | .between lo hi, _, within, plain =>
      keeps_placeBetween (keeps_eval free lo within.1 plain.1)
        (keeps_eval free hi within.2 plain.2)

theorem keeps_index (free : ctx.Free) : ∀ (idx : Index) {scope : List Slot},
    ScopedIndex idx scope → PlainIndex binders idx →
      Keeps none scope scope.length (Each fun _ => True) (evalIndex ctx idx)
        (indexIn ctx idx scope)
  | .first, _, _, _ => keeps_pure fun _ _ => trivial
  | .nth e, _, within, plain =>
      keeps_known (keeps_evalInt (keeps_eval free e within plain))
        fun _ _ => keeps_pure fun _ _ => trivial

theorem keeps_resolve (free : ctx.Free) : ∀ (quant : Quant) {scope : List Slot},
    ScopedQuant quant scope → PlainQuant binders quant → ∀ n,
      Keeps none scope scope.length (Each fun _ => True) (resolve ctx quant n)
        (resolveIn ctx quant scope n)
  | .all, _, _, _, _ | .any, _, _, _, _ | .none, _, _, _, _ => keeps_done trivial
  | .count e, _, within, plain, _ =>
      keeps_known (keeps_evalInt (keeps_eval free e within plain))
        fun _ _ => keeps_done trivial
  | .percent e, _, within, plain, _ =>
      keeps_known (keeps_eval free e within plain) fun _ _ =>
        keeps_known (keeps_pure fun _ _ => trivial) fun _ _ => keeps_done trivial

theorem keeps_forIn (free : ctx.Free) : ∀ (iter : Iter) {scope : List Slot},
    ScopedIter iter scope → PlainIter binders iter →
      ∀ {mode mode' : Nat → M (Option Mode)} {body body' : M Bool},
      (∀ n, ∃ mo, mode n = done mo ∧ mode' n = done mo) →
      Keeps none (scope ++ [Slot.value]) (scope ++ [Slot.value]).length
        (fun _ => True) body body' →
      Keeps none scope scope.length Free (evalForIn ctx iter scope.length mode body)
        (forInIn ctx iter scope scope.length mode' body')
  | .range lo hi, _, within, plain, _, _, _, _, word, keeps =>
      keeps_forRange (keeps_eval free lo within.1 plain.1)
        (keeps_eval free hi within.2 plain.2) word keeps
  | .tuple _, _, _, plain, _, _, _, _, _, _ => plain.elim
  | .collection e, _, within, plain, _, _, _, _, word, keeps =>
      keeps_forCollection (keeps_eval free e within plain) word keeps

theorem keeps_walk (free : ctx.Free) : ∀ (path : List Access) {scope : List Slot},
    ScopedPath path scope → PlainPath binders path → ∀ {v : Value}, MapFree v →
      Keeps none scope scope.length Free (walkAccess ctx path v)
        (walkIn ctx path scope v)
  | [], _, _, _, _, inside => keeps_done inside
  | .field _ :: path, _, within, plain, _, inside =>
      keeps_known (keeps_pure (free_atField inside))
        fun _ inside => keeps_walk free path within plain inside
  | .index e :: path, _, within, plain, _, inside =>
      keeps_known (keeps_stepIndex (keeps_eval free e within.1 plain.1) inside)
        fun _ inside => keeps_walk free path within.2 plain.2 inside

end

end

/-- Each variable of a condition reads a slot of the scope at its place, of the
kind it asks for; and every evaluation goes through with the environment of the
scope, at the condition and at each one in it, and leaves it as it was.  The
checked evaluator stops at the first one that does not find it so. -/
structure Mirrored (ctx : EvalCtx) (scope : List Slot) (c : Cond) : Prop where
  resolved : Scoped c scope
  runs : ∀ st, Holds scope st → ∃ r t, eval ctx c st = .ok (r, t) ∧
    evalIn ctx c scope st = .ok (r, t) ∧ t.env = st.env

theorem mirrored_of_scoped {ctx : EvalCtx} (free : ctx.Free) {scope : List Slot}
    {c : Cond} (within : Scoped c scope) (plain : Plain c) : Mirrored ctx scope c := by
  refine ⟨within, fun st holds => ?_⟩
  obtain ⟨r, t, t', ran, ran', -, after⟩ :=
    keeps_eval free c within plain st st holds (beside_same st)
  rw [after.beside.eq] at ran'
  exact ⟨r, t, ran, ran', after.restores holds⟩

def bareRule : Lower.RuleCtx Unit where
  modules := {
    resolveFunc := fun _ _ _ => .error "unknown function"
    constant := fun _ _ => none
    validateAccess := fun _ _ => .error "unsupported field"
    root := fun _ => none
    isScalar := fun _ => true
    field := fun _ _ => .error "unsupported field"
    index := fun _ => .error "unsupported field"
    iterable := fun _ => none }
  compileRegex _ := .error "no regular expression"
  locals := []
  ruleIndex _ := none
  imported := []
  externals _ := none
  scope := []
  forOfSlots := []

theorem scoping_bareRule : Lower.Scoping bareRule where
  patterns slot there := by cases there
  arity node elem nvars is := by cases is

/-- An object of these bytes, without modules. -/
def bareCtx (data : Bytes) : EvalCtx where
  data := ⟨data, Exav.window data, true, window_faithful data⟩
  matchLists _ := []
  ruleResults := []
  root _ := none
  call _ _ := none
  entryPoint := none
  externals _ := none
  lower := id

theorem free_bareCtx (data : Bytes) : (bareCtx data).Free :=
  ⟨fun _ => each_none, fun _ _ => each_none, fun _ => each_none⟩

/-- `for uint8(for any j in (0..0) : (true)) i in (0..1) : (i == 0)`. -/
def quantifiedByLoop : Lower.Expr :=
  .forIn
    (.expr (.call "uint8"
      [.forIn .any [⟨"j", by decide⟩] (.range (.literalInteger 0) (.literalInteger 0))
        .true]))
    [⟨"i", by decide⟩] (.range (.literalInteger 0) (.literalInteger 1))
    (.cmp .eq (.ident ⟨"i", by decide⟩) (.literalInteger 0))

/-- What it is lowered to. -/
def quantifiedByLoopCond : Cond :=
  .forIn
    (.count (.intRead .u8 (.forIn .any (.range (.int 0) (.int 0)) 0 (.bool true))))
    (.range (.int 0) (.int 1)) 0 (.cmp .eq (.var 0) (.int 0))

theorem lower_quantifiedByLoop :
    Lower.lower quantifiedByLoop bareRule = .ok quantifiedByLoopCond := rfl

def outOfRange {α : Type} : Except Fault α → Bool
  | .error .slot => true
  | _ => false

/-- The loop in the quantifier takes the slot of the other one off, which is then
set. -/
theorem outOfRange_quantifiedByLoop :
    outOfRange (eval (bareCtx [0, 2]) quantifiedByLoopCond
      ⟨[], some evalStepBudget, false, false⟩) = true := by
  decide +kernel

end Exav.Yara.Ir
