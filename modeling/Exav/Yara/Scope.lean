import Exav.Yara.Lower

/-!
# Scopes

The scope a condition is lowered in says which slots there are and what is bound
to each of them.  What is lowered refers to those slots alone, and a binder has
the next one.
-/

namespace Exav.Yara.Ir

inductive Slot where
  | value
  | pattern
  deriving DecidableEq

mutual

/-- A condition refers to the slots of its scope, each as what it is bound to, and
binds the slots after them. -/
def Scoped : Cond → List Slot → Prop
  | .bool _ | .int _ | .float _ | .str _ | .filesize | .ruleRef _ | .entrypoint
  | .external _ _ => fun _ => True
  | .pattern _ anchor => fun scope => ScopedAnchor anchor scope
  | .count _ range => fun scope => ScopedRange range scope
  | .offset _ idx | .length _ idx => fun scope => ScopedIndex idx scope
  | .defined e | .not e | .neg e | .bitNot e | .matchesRe e _ | .intRead _ e =>
      fun scope => Scoped e scope
  | .and v | .or v | .modCall _ v => fun scope => ScopedAll v scope
  | .arith _ a b | .cmp _ a b | .strCmp _ a b => fun scope =>
      Scoped a scope ∧ Scoped b scope
  | .ofPatterns quant _ anchor => fun scope =>
      ScopedQuant quant scope ∧ ScopedAnchor anchor scope
  | .ofExprs quant exprs => fun scope =>
      ScopedQuant quant scope ∧ ScopedAll exprs scope
  | .modAccess _ path => fun scope => ScopedPath path scope
  | .var slot => fun scope => scope[slot]? = some .value
  | .varAccess slot path => fun scope =>
      scope[slot]? = some .value ∧ ScopedPath path scope
  | .forIn quant iter base body => fun scope =>
      ScopedQuant quant scope ∧ ScopedIter iter scope ∧ base = scope.length ∧
        Scoped body (scope ++ [.value])
  | .forOf quant _ slot body => fun scope =>
      ScopedQuant quant scope ∧ slot = scope.length ∧
        Scoped body (scope ++ [.pattern])
  | .withIn decls base body => fun scope =>
      ScopedDecls decls scope ∧ base = scope.length ∧
        Scoped body (scope ++ List.replicate decls.length .value)
  | .patternVar slot anchor => fun scope =>
      scope[slot]? = some .pattern ∧ ScopedAnchor anchor scope
  | .countVar slot range => fun scope =>
      scope[slot]? = some .pattern ∧ ScopedRange range scope
  | .offsetVar slot idx | .lengthVar slot idx => fun scope =>
      scope[slot]? = some .pattern ∧ ScopedIndex idx scope

def ScopedAll : List Cond → List Slot → Prop
  | [] => fun _ => True
  | c :: cs => fun scope => Scoped c scope ∧ ScopedAll cs scope

/-- Each declaration is in scope of the next one. -/
def ScopedDecls : List Cond → List Slot → Prop
  | [] => fun _ => True
  | c :: cs => fun scope => Scoped c scope ∧ ScopedDecls cs (scope ++ [.value])

def ScopedAnchor : Anchor → List Slot → Prop
  | .anywhere => fun _ => True
  | .at e => fun scope => Scoped e scope
  | .within lo hi => fun scope => Scoped lo scope ∧ Scoped hi scope

def ScopedRange : Range → List Slot → Prop
  | .whole => fun _ => True
  | .between lo hi => fun scope => Scoped lo scope ∧ Scoped hi scope

def ScopedIndex : Index → List Slot → Prop
  | .first => fun _ => True
  | .nth e => fun scope => Scoped e scope

def ScopedQuant : Quant → List Slot → Prop
  | .all | .any | .none => fun _ => True
  | .count e | .percent e => fun scope => Scoped e scope

def ScopedIter : Iter → List Slot → Prop
  | .range lo hi => fun scope => Scoped lo scope ∧ Scoped hi scope
  | .tuple items => fun scope => ScopedAll items scope
  | .collection e => fun scope => Scoped e scope

def ScopedPath : List Access → List Slot → Prop
  | [] => fun _ => True
  | .field _ :: path => fun scope => ScopedPath path scope
  | .index e :: path => fun scope => Scoped e scope ∧ ScopedPath path scope

end

end Exav.Yara.Ir

namespace Exav.Yara.Lower

open Ir

section

variable {Node : Type}

/-! ## Names -/

def ScopeVar.slot (v : ScopeVar Node) : Slot :=
  if v.name = "$" then .pattern else .value

def RuleCtx.slots (ctx : RuleCtx Node) : List Slot := ctx.scope.map ScopeVar.slot

/-- The slots an anonymous pattern may refer to are those of a `for .. of`, and a
loop over what a module has binds one variable. -/
structure Scoping (ctx : RuleCtx Node) : Prop where
  patterns : ∀ slot ∈ ctx.forOfSlots, ctx.slots[slot]? = some .pattern
  arity : ∀ node elem nvars, ctx.modules.iterable node = some (elem, nvars) →
    nvars ≠ 2

namespace Scoping

variable {ctx : RuleCtx Node}

theorem length_slots (ctx : RuleCtx Node) : ctx.slots.length = ctx.scope.length :=
  List.length_map ..

theorem slots_bind (vars : List (ScopeVar Node)) :
    (ctx.bind vars).slots = ctx.slots ++ vars.map ScopeVar.slot :=
  List.map_append

theorem slots_bindPattern : ctx.bindPattern.slots = ctx.slots ++ [.pattern] :=
  List.map_append

theorem getElem?_grown {slots more : List Slot} {slot : Nat} {s : Slot}
    (there : slots[slot]? = some s) : (slots ++ more)[slot]? = some s := by
  rw [List.getElem?_append_left (List.getElem?_eq_some_iff.mp there).1]
  exact there

protected theorem bind (scoping : Scoping ctx) (vars : List (ScopeVar Node)) :
    Scoping (ctx.bind vars) where
  patterns slot there := by
    rw [slots_bind]
    exact getElem?_grown (scoping.patterns slot there)
  arity := scoping.arity

theorem bindPattern (scoping : Scoping ctx) : Scoping ctx.bindPattern where
  patterns slot there := by
    rw [slots_bindPattern]
    rcases List.mem_append.mp there with outer | own
    · exact getElem?_grown (scoping.patterns slot outer)
    · rw [List.mem_singleton.mp own, ← length_slots]
      exact List.getElem?_concat_length
  arity := scoping.arity

theorem slot_ident {id : Ident} {kind : VarKind Node} :
    ScopeVar.slot ⟨id.name, kind⟩ = .value :=
  if_neg id.isIdent

theorem lookupVar {id : Ident} {slot : Nat} {kind : VarKind Node}
    (found : ctx.lookupVar id.name = some (slot, kind)) :
    ctx.slots[slot]? = some .value := by
  obtain ⟨⟨v, i⟩, first, same⟩ := Option.map_eq_some_iff.mp found
  cases same
  have holds := List.find?_some first
  have named : v.name = id.name := beq_iff_eq.mp holds
  have there := List.mem_zipIdx_iff_getElem?.mp
    (List.mem_reverse.mp (List.mem_of_find?_eq_some first))
  rw [RuleCtx.slots, List.getElem?_map, there]
  exact congrArg some (if_neg (named ▸ id.isIdent))

theorem anonymous (scoping : Scoping ctx) {sigil name : String} {slot : Nat}
    (found : ctx.anonymous sigil name = some slot) :
    ctx.slots[slot]? = some .pattern := by
  rw [RuleCtx.anonymous] at found
  split at found
  · exact scoping.patterns slot (List.mem_of_getLast? found)
  · cases found

end Scoping

/-! ## What is lowered -/

theorem except_bind_ok {ε α β : Type} {m : Except ε α} {f : α → Except ε β} {b : β}
    (ran : m >>= f = .ok b) : ∃ a, m = .ok a ∧ f a = .ok b := by
  cases m with
  | error e => cases ran
  | ok a => exact ⟨a, rfl, ran⟩

def Resolved.Scoped : Resolved Node → List Slot → Prop
  | .module _ => fun _ => True
  | .access _ path => fun scope => ScopedPath path scope
  | .value c => fun scope => Ir.Scoped c scope
  | .varValue slot => fun scope => scope[slot]? = some .value
  | .varAccess slot _ path => fun scope =>
      scope[slot]? = some .value ∧ ScopedPath path scope

theorem scopedPath_append {path path' : List Access} {scope : List Slot}
    (first : ScopedPath path scope) (second : ScopedPath path' scope) :
    ScopedPath (path ++ path') scope := by
  induction path with
  | nil => exact second
  | cons step path ih =>
      cases step with
      | field name => exact ih first
      | index e => exact ⟨first.1, ih first.2⟩

theorem constToCond_scoped {v : Value} {c : Cond} {scope : List Slot}
    (lowered : constToCond v = .ok c) : Ir.Scoped c scope := by
  cases v <;> cases lowered <;> exact trivial

theorem lowerIdent_scoped {ctx : RuleCtx Node} {id : Ident} {c : Cond}
    (lowered : lowerIdent ctx id = .ok c) : Ir.Scoped c ctx.slots := by
  unfold lowerIdent at lowered
  split at lowered
  · rename_i found
    cases lowered
    exact Scoping.lookupVar found
  · cases lowered
  · split at lowered
    · cases lowered
      exact trivial
    · split at lowered
      · cases lowered
        exact trivial
      · cases lowered

namespace Resolved

variable {ctx : RuleCtx Node} {r r' : Resolved Node}

theorem ofIdent_scoped {id : Ident} (resolved : ofIdent ctx id = .ok r) :
    r.Scoped ctx.slots := by
  unfold ofIdent at resolved
  split at resolved
  · rename_i found
    cases resolved
    exact Scoping.lookupVar found
  · rename_i found
    cases resolved
    exact ⟨Scoping.lookupVar found, trivial⟩
  · split at resolved
    · cases resolved
      exact trivial
    · split at resolved
      · split at resolved
        · cases resolved
          exact trivial
        · cases resolved
      · cases resolved

theorem appendIndex_scoped {idx : Cond} (within : r.Scoped ctx.slots)
    (inner : Ir.Scoped idx ctx.slots) (resolved : r.appendIndex ctx idx = .ok r') :
    r'.Scoped ctx.slots := by
  cases r with
  | access kind path =>
      cases resolved
      exact scopedPath_append within ⟨inner, trivial⟩
  | varAccess slot node path =>
      obtain ⟨node', -, ran⟩ := except_bind_ok resolved
      cases ran
      exact ⟨within.1, scopedPath_append within.2 ⟨inner, trivial⟩⟩
  | module kind => cases resolved
  | value c => cases resolved
  | varValue slot => cases resolved

theorem appendField_scoped {name : String} (within : r.Scoped ctx.slots)
    (resolved : r.appendField ctx name = .ok r') : r'.Scoped ctx.slots := by
  cases r with
  | access kind path =>
      cases resolved
      exact scopedPath_append within trivial
  | varAccess slot node path =>
      obtain ⟨node', -, ran⟩ := except_bind_ok resolved
      cases ran
      exact ⟨within.1, scopedPath_append within.2 trivial⟩
  | module kind =>
      rw [appendField] at resolved
      split at resolved
      · obtain ⟨c, const, ran⟩ := except_bind_ok resolved
        cases ran
        exact constToCond_scoped const
      · cases resolved
        exact trivial
  | value c => cases resolved
  | varValue slot => cases resolved

theorem toCond_scoped {c : Cond} (within : r.Scoped ctx.slots)
    (lowered : r.toCond ctx = .ok c) : Ir.Scoped c ctx.slots := by
  unfold toCond at lowered
  split at lowered
  · cases lowered
    exact within
  · obtain ⟨-, -, ran⟩ := except_bind_ok lowered
    cases ran
    exact within
  · cases lowered
    exact within
  · cases lowered
  · cases lowered
    exact within
  · cases lowered

theorem varAt_scoped {slot : Nat} {path : List Access} {scope : List Slot}
    (there : scope[slot]? = some .value) (within : ScopedPath path scope) :
    Ir.Scoped (varAt slot path) scope := by
  cases path with
  | nil => exact there
  | cons step path => exact ⟨there, within⟩

theorem declares_scoped {c : Cond} {kind : VarKind Node} (within : r.Scoped ctx.slots)
    (declared : r.declares ctx = .ok (c, kind)) : Ir.Scoped c ctx.slots := by
  cases r with
  | module kind =>
      rw [declares] at declared
      split at declared
      · cases declared
        exact trivial
      · cases declared
  | access kind path =>
      obtain ⟨node, -, ran⟩ := except_bind_ok declared
      obtain ⟨c', lowered, ran⟩ := except_bind_ok ran
      cases ran
      exact toCond_scoped within lowered
  | value c =>
      cases declared
      exact within
  | varValue slot =>
      cases declared
      exact within
  | varAccess slot node path =>
      cases declared
      exact varAt_scoped within.1 within.2

theorem collection_scoped {node : Node} {c : Cond} (within : r.Scoped ctx.slots)
    (found : r.collection ctx = .ok (node, c)) : Ir.Scoped c ctx.slots := by
  unfold collection at found
  split at found
  · obtain ⟨node, -, ran⟩ := except_bind_ok found
    obtain ⟨c', lowered, ran⟩ := except_bind_ok ran
    cases ran
    exact toCond_scoped within lowered
  · cases found
    exact varAt_scoped within.1 within.2
  · cases found

end Resolved

theorem loopKinds_length {ctx : RuleCtx Node} (scoping : Scoping ctx) {node : Node}
    {kinds : List (VarKind Node)} (found : loopKinds ctx node = .ok kinds) :
    kinds.length = 1 := by
  unfold loopKinds at found
  split at found
  · cases found
  · rename_i iterable
    rw [if_neg (scoping.arity _ _ _ iterable)] at found
    cases found
    rfl

theorem slots_loopVars {ctx : RuleCtx Node} {vars : List Ident}
    {kinds : List (VarKind Node)} {bound : List (ScopeVar Node)}
    (one : kinds.length = 1) (found : loopVars vars kinds = .ok bound) :
    (ctx.bind bound).slots = ctx.slots ++ [.value] := by
  unfold loopVars at found
  split at found
  · rename_i same
    obtain ⟨kind, rfl⟩ := List.length_eq_one_iff.mp one
    obtain ⟨id, rfl⟩ := List.length_eq_one_iff.mp same
    cases found
    rw [Scoping.slots_bind]
    exact congrArg (ctx.slots ++ [·]) Scoping.slot_ident
  · cases found

theorem ofPattern_scoped {ctx : RuleCtx Node} {name : String} (f : Nat → Cond)
    {c : Cond} (each : ∀ id, Ir.Scoped (f id) ctx.slots)
    (lowered : (do return f (← ctx.resolvePattern name)) = Except.ok c) :
    Ir.Scoped c ctx.slots := by
  obtain ⟨id, -, ran⟩ := except_bind_ok lowered
  cases ran
  exact each id

mutual

theorem lower_scoped : ∀ (e : Expr) {ctx : RuleCtx Node} {c : Cond}, Scoping ctx →
    lower e ctx = .ok c → Ir.Scoped c ctx.slots
  | .true, _, _, _, lowered | .false, _, _, _, lowered
  | .filesize, _, _, _, lowered | .entrypoint, _, _, _, lowered
  | .literalInteger _, _, _, _, lowered | .literalFloat _, _, _, _, lowered
  | .literalString _, _, _, _, lowered => by
      cases lowered
      exact trivial
  | .regexp _, _, _, _, lowered => by cases lowered
  | .ident _, _, _, _, lowered => lowerIdent_scoped lowered
  | .patternMatch name anchor, ctx, c, scoping, lowered => by
      obtain ⟨anchor', first, ran⟩ := except_bind_ok lowered
      have inner := anchor_scoped anchor scoping first
      split at ran
      · cases ran
        exact ⟨scoping.anonymous ‹_›, inner⟩
      · exact ofPattern_scoped (.pattern · anchor') (fun _ => inner) ran
  | .patternCount name range, ctx, c, scoping, lowered => by
      obtain ⟨range', first, ran⟩ := except_bind_ok lowered
      have inner := range_scoped range scoping first
      split at ran
      · cases ran
        exact ⟨scoping.anonymous ‹_›, inner⟩
      · exact ofPattern_scoped (.count · range') (fun _ => inner) ran
  | .patternOffset name index, ctx, c, scoping, lowered => by
      obtain ⟨idx, first, ran⟩ := except_bind_ok lowered
      have inner := index_scoped index scoping first
      split at ran
      · cases ran
        exact ⟨scoping.anonymous ‹_›, inner⟩
      · exact ofPattern_scoped (.offset · idx) (fun _ => inner) ran
  | .patternLength name index, ctx, c, scoping, lowered => by
      obtain ⟨idx, first, ran⟩ := except_bind_ok lowered
      have inner := index_scoped index scoping first
      split at ran
      · cases ran
        exact ⟨scoping.anonymous ‹_›, inner⟩
      · exact ofPattern_scoped (.length · idx) (fun _ => inner) ran
  | .defined e, _, _, scoping, lowered | .not e, _, _, scoping, lowered
  | .minus e, _, _, scoping, lowered | .bitwiseNot e, _, _, scoping, lowered => by
      obtain ⟨c, first, ran⟩ := except_bind_ok lowered
      cases ran
      have inner := lower_scoped e scoping first
      exact inner
  | .and es, _, _, scoping, lowered | .or es, _, _, scoping, lowered => by
      obtain ⟨cs, first, ran⟩ := except_bind_ok lowered
      cases ran
      exact all_scoped es scoping first
  | .arithAll op first rest, _, _, scoping, lowered => by
      obtain ⟨c, head, ran⟩ := except_bind_ok lowered
      exact foldArith_scoped op rest scoping (lower_scoped first scoping head) ran
  | .arith op a b, _, _, scoping, lowered | .cmp op a b, _, _, scoping, lowered
  | .str op a b, _, _, scoping, lowered => by
      obtain ⟨ca, first, ran⟩ := except_bind_ok lowered
      obtain ⟨cb, second, ran⟩ := except_bind_ok ran
      cases ran
      exact ⟨lower_scoped a scoping first, lower_scoped b scoping second⟩
  | .matches a b, _, _, scoping, lowered => by
      obtain ⟨c, first, ran⟩ := except_bind_ok lowered
      obtain ⟨re, -, ran⟩ := except_bind_ok ran
      cases ran
      have inner := lower_scoped a scoping first
      exact inner
  | .ofPatterns quantifier set anchor, _, _, scoping, lowered => by
      obtain ⟨quant, first, ran⟩ := except_bind_ok lowered
      obtain ⟨anchor', second, ran⟩ := except_bind_ok ran
      cases ran
      exact ⟨quant_scoped quantifier scoping first, anchor_scoped anchor scoping second⟩
  | .ofTuple quantifier exprs anchor, _, _, scoping, lowered => by
      obtain ⟨quant, first, ran⟩ := except_bind_ok lowered
      obtain ⟨cs, second, ran⟩ := except_bind_ok ran
      obtain ⟨-, -, ran⟩ := except_bind_ok ran
      cases ran
      exact ⟨quant_scoped quantifier scoping first, all_scoped exprs scoping second⟩
  | .forIn quantifier vars iterable body, ctx, c, scoping, lowered => by
      obtain ⟨quant, first, ran⟩ := except_bind_ok lowered
      obtain ⟨⟨iter, kinds⟩, second, ran⟩ := except_bind_ok ran
      obtain ⟨bound, found, ran⟩ := except_bind_ok ran
      obtain ⟨inner, last, ran⟩ := except_bind_ok ran
      cases ran
      obtain ⟨within, one⟩ := iterable_scoped iterable scoping second
      have body_scoped := lower_scoped body (scoping.bind bound) last
      rw [slots_loopVars one found] at body_scoped
      exact ⟨quant_scoped quantifier scoping first, within,
        (Scoping.length_slots ctx).symm, body_scoped⟩
  | .forOf quantifier set body, ctx, c, scoping, lowered => by
      obtain ⟨quant, first, ran⟩ := except_bind_ok lowered
      obtain ⟨inner, last, ran⟩ := except_bind_ok ran
      cases ran
      have body_scoped := lower_scoped body scoping.bindPattern last
      rw [Scoping.slots_bindPattern] at body_scoped
      exact ⟨quant_scoped quantifier scoping first, (Scoping.length_slots ctx).symm,
        body_scoped⟩
  | .with declarations body, ctx, c, scoping, lowered => by
      obtain ⟨⟨decls, inner⟩, first, ran⟩ := except_bind_ok lowered
      obtain ⟨c, last, ran⟩ := except_bind_ok ran
      cases ran
      obtain ⟨within, scoping', slots⟩ := decls_scoped declarations scoping first
      have body_scoped := lower_scoped body scoping' last
      rw [slots] at body_scoped
      exact ⟨within, (Scoping.length_slots ctx).symm, body_scoped⟩
  | .fieldAccess operands, _, _, scoping, lowered => by
      obtain ⟨r, first, ran⟩ := except_bind_ok lowered
      exact Resolved.toCond_scoped (fieldAccess_scoped operands scoping first) ran
  | .lookup primary index, _, _, scoping, lowered => by
      obtain ⟨base, first, ran⟩ := except_bind_ok lowered
      obtain ⟨idx, second, ran⟩ := except_bind_ok ran
      obtain ⟨r, third, ran⟩ := except_bind_ok ran
      have within := moduleExpr_scoped primary scoping first
      exact Resolved.toCond_scoped (Resolved.appendIndex_scoped within
        (lower_scoped index scoping second) third) ran
  | .call name args, _, _, scoping, lowered => by
      obtain ⟨kind, -, ran⟩ := except_bind_ok lowered
      obtain ⟨addr, first, ran⟩ := except_bind_ok ran
      cases ran
      have inner := arg_scoped name args scoping first
      exact inner
  | .method object name args, ctx, c, scoping, lowered => by
      obtain ⟨r, -, ran⟩ := except_bind_ok lowered
      split at ran
      · obtain ⟨cs, first, ran⟩ := except_bind_ok ran
        obtain ⟨func, -, ran⟩ := except_bind_ok ran
        cases ran
        exact all_scoped args scoping first
      · cases ran

theorem arg_scoped (name : String) : ∀ (es : List Expr) {ctx : RuleCtx Node} {c : Cond},
    Scoping ctx → lowerArg name es ctx = .ok c → Ir.Scoped c ctx.slots
  | [e], _, _, scoping, lowered => lower_scoped e scoping lowered
  | [], _, _, _, lowered => by cases lowered
  | _ :: _ :: _, _, _, _, lowered => by cases lowered

theorem all_scoped : ∀ (es : List Expr) {ctx : RuleCtx Node} {cs : List Cond},
    Scoping ctx → lowerAll es ctx = .ok cs → ScopedAll cs ctx.slots
  | [], _, _, _, lowered => by
      cases lowered
      exact trivial
  | e :: es, _, _, scoping, lowered => by
      obtain ⟨c, first, ran⟩ := except_bind_ok lowered
      obtain ⟨cs, rest, ran⟩ := except_bind_ok ran
      cases ran
      exact ⟨lower_scoped e scoping first, all_scoped es scoping rest⟩

theorem foldArith_scoped (op : ArithOp) : ∀ (es : List Expr) {ctx : RuleCtx Node}
    {acc c : Cond}, Scoping ctx → Ir.Scoped acc ctx.slots →
      foldArith op es ctx acc = .ok c → Ir.Scoped c ctx.slots
  | [], _, _, _, _, within, lowered => by
      cases lowered
      exact within
  | e :: es, _, _, _, scoping, within, lowered => by
      obtain ⟨c, first, ran⟩ := except_bind_ok lowered
      have both : Ir.Scoped (.arith op _ c) _ := ⟨within, lower_scoped e scoping first⟩
      exact foldArith_scoped op es scoping both ran

theorem anchor_scoped : ∀ (anchor : MatchAnchor) {ctx : RuleCtx Node} {a : Anchor},
    Scoping ctx → lowerAnchor anchor ctx = .ok a → ScopedAnchor a ctx.slots
  | .anywhere, _, _, _, lowered => by
      cases lowered
      exact trivial
  | .at e, _, _, scoping, lowered => by
      obtain ⟨c, first, ran⟩ := except_bind_ok lowered
      cases ran
      exact lower_scoped e scoping first
  | .in lo hi, _, _, scoping, lowered => by
      obtain ⟨clo, first, ran⟩ := except_bind_ok lowered
      obtain ⟨chi, second, ran⟩ := except_bind_ok ran
      cases ran
      exact ⟨lower_scoped lo scoping first, lower_scoped hi scoping second⟩

theorem range_scoped : ∀ (range : CountRange) {ctx : RuleCtx Node} {r : Ir.Range},
    Scoping ctx → lowerRange range ctx = .ok r → ScopedRange r ctx.slots
  | .whole, _, _, _, lowered => by
      cases lowered
      exact trivial
  | .in lo hi, _, _, scoping, lowered => by
      obtain ⟨clo, first, ran⟩ := except_bind_ok lowered
      obtain ⟨chi, second, ran⟩ := except_bind_ok ran
      cases ran
      exact ⟨lower_scoped lo scoping first, lower_scoped hi scoping second⟩

theorem index_scoped : ∀ (index : MatchIndex) {ctx : RuleCtx Node} {idx : Index},
    Scoping ctx → lowerIndex index ctx = .ok idx → ScopedIndex idx ctx.slots
  | .first, _, _, _, lowered => by
      cases lowered
      exact trivial
  | .nth e, _, _, scoping, lowered => by
      obtain ⟨c, first, ran⟩ := except_bind_ok lowered
      cases ran
      exact lower_scoped e scoping first

theorem quant_scoped : ∀ (quantifier : Quantifier) {ctx : RuleCtx Node}
    {quant : Quant}, Scoping ctx → lowerQuant quantifier ctx = .ok quant →
      ScopedQuant quant ctx.slots
  | .all, _, _, _, lowered | .any, _, _, _, lowered | .none, _, _, _, lowered => by
      cases lowered
      exact trivial
  | .expr e, _, _, scoping, lowered | .percentage e, _, _, scoping, lowered => by
      obtain ⟨c, first, ran⟩ := except_bind_ok lowered
      cases ran
      exact lower_scoped e scoping first

theorem iterable_scoped : ∀ (iterable : Iterable) {ctx : RuleCtx Node} {iter : Iter}
    {kinds : List (VarKind Node)}, Scoping ctx →
      lowerIterable iterable ctx = .ok (iter, kinds) →
        ScopedIter iter ctx.slots ∧ kinds.length = 1
  | .range lo hi, _, _, _, scoping, lowered => by
      obtain ⟨clo, first, ran⟩ := except_bind_ok lowered
      obtain ⟨chi, second, ran⟩ := except_bind_ok ran
      cases ran
      exact ⟨⟨lower_scoped lo scoping first, lower_scoped hi scoping second⟩, rfl⟩
  | .tuple exprs, _, _, _, scoping, lowered => by
      obtain ⟨cs, first, ran⟩ := except_bind_ok lowered
      cases ran
      exact ⟨all_scoped exprs scoping first, rfl⟩
  | .expr e, _, _, _, scoping, lowered => by
      obtain ⟨r, first, ran⟩ := except_bind_ok lowered
      obtain ⟨⟨node, c⟩, second, ran⟩ := except_bind_ok ran
      obtain ⟨kinds, third, ran⟩ := except_bind_ok ran
      cases ran
      exact ⟨Resolved.collection_scoped (moduleExpr_scoped e scoping first) second,
        loopKinds_length scoping third⟩

theorem decls_scoped : ∀ (decls : List Decl) {ctx inner : RuleCtx Node}
    {cs : List Cond}, Scoping ctx → lowerDecls decls ctx = .ok (cs, inner) →
      ScopedDecls cs ctx.slots ∧ Scoping inner ∧
        inner.slots = ctx.slots ++ List.replicate cs.length .value
  | [], _, _, _, scoping, lowered => by
      cases lowered
      exact ⟨trivial, scoping, (List.append_nil _).symm⟩
  | .mk id e :: decls, ctx, inner, cs, scoping, lowered => by
      obtain ⟨⟨c, kind⟩, first, ran⟩ := except_bind_ok lowered
      obtain ⟨⟨cs', inner'⟩, rest, ran⟩ := except_bind_ok ran
      cases ran
      have within : Ir.Scoped c ctx.slots := by
        rw [declared] at first
        split at first
        · obtain ⟨r, resolved, ran⟩ := except_bind_ok first
          exact Resolved.declares_scoped (moduleExpr_scoped e scoping resolved) ran
        · obtain ⟨c', plain, ran⟩ := except_bind_ok first
          cases ran
          exact lower_scoped e scoping plain
      obtain ⟨others, scoping', slots⟩ :=
        decls_scoped decls (scoping.bind [⟨id.name, kind⟩]) rest
      have bound : (ctx.bind [⟨id.name, kind⟩]).slots = ctx.slots ++ [.value] := by
        rw [Scoping.slots_bind]
        exact congrArg (ctx.slots ++ [·]) Scoping.slot_ident
      rw [bound] at others slots
      refine ⟨⟨within, others⟩, scoping', ?_⟩
      rw [slots, List.append_assoc]
      rfl

theorem moduleExpr_scoped : ∀ (e : Expr) {ctx : RuleCtx Node} {r : Resolved Node},
    Scoping ctx → resolveModuleExpr e ctx = .ok r → r.Scoped ctx.slots
  | e, ctx, r, scoping, resolved => by
      cases e with
      | ident id => exact Resolved.ofIdent_scoped resolved
      | fieldAccess operands => exact fieldAccess_scoped operands scoping resolved
      | lookup primary index =>
          obtain ⟨base, first, ran⟩ := except_bind_ok resolved
          obtain ⟨idx, second, ran⟩ := except_bind_ok ran
          exact Resolved.appendIndex_scoped (moduleExpr_scoped primary scoping first)
            (lower_scoped index scoping second) ran
      | _ => cases resolved

theorem fieldAccess_scoped : ∀ (es : List Expr) {ctx : RuleCtx Node}
    {r : Resolved Node}, Scoping ctx → resolveFieldAccess es ctx = .ok r →
      r.Scoped ctx.slots
  | [], _, _, _, resolved => by cases resolved
  | first :: steps, _, _, scoping, resolved => by
      obtain ⟨base, start, ran⟩ := except_bind_ok resolved
      exact steps_scoped steps scoping (moduleExpr_scoped first scoping start) ran

theorem steps_scoped : ∀ (es : List Expr) {ctx : RuleCtx Node} {r r' : Resolved Node},
    Scoping ctx → r.Scoped ctx.slots → appendSteps es ctx r = .ok r' →
      r'.Scoped ctx.slots
  | [], _, _, _, _, within, resolved => by
      cases resolved
      exact within
  | e :: es, _, _, _, scoping, within, resolved => by
      obtain ⟨next, first, ran⟩ := except_bind_ok resolved
      exact steps_scoped es scoping (step_scoped e scoping within first) ran

theorem step_scoped : ∀ (e : Expr) {ctx : RuleCtx Node} {r r' : Resolved Node},
    Scoping ctx → r.Scoped ctx.slots → appendStep e ctx r = .ok r' →
      r'.Scoped ctx.slots
  | e, ctx, r, r', scoping, within, resolved => by
      cases e with
      | ident id => exact Resolved.appendField_scoped within resolved
      | lookup primary index =>
          obtain ⟨id, -, ran⟩ := except_bind_ok resolved
          obtain ⟨next, first, ran⟩ := except_bind_ok ran
          obtain ⟨idx, second, ran⟩ := except_bind_ok ran
          exact Resolved.appendIndex_scoped (Resolved.appendField_scoped within first)
            (lower_scoped index scoping second) ran
      | fieldAccess operands => exact steps_scoped operands scoping within resolved
      | _ => cases resolved

end

end

end Exav.Yara.Lower
