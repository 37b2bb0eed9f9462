import Exav.Yara.Stack

/-!
# A slot more in scope

The same expression lowered in a scope with a slot more has the slots above it
numbered one higher.  It comes to the same where the environment has the slot
more, whatever is bound to it.
-/

namespace Exav.Yara.Ir

/-! ## Renumbering -/

section

variable (up : Nat → Nat)

mutual

/-- A condition as it is with a slot more in scope. -/
def deeper : Cond → Cond
  | .bool b => .bool b
  | .int i => .int i
  | .float f => .float f
  | .str s => .str s
  | .filesize => .filesize
  | .pattern id anchor => .pattern id (deeperAnchor anchor)
  | .count id range => .count id (deeperRange range)
  | .offset id idx => .offset id (deeperIndex idx)
  | .length id idx => .length id (deeperIndex idx)
  | .ruleRef idx => .ruleRef idx
  | .defined e => .defined (deeper e)
  | .not e => .not (deeper e)
  | .and v => .and (deeperAll v)
  | .or v => .or (deeperAll v)
  | .neg e => .neg (deeper e)
  | .bitNot e => .bitNot (deeper e)
  | .arith op a b => .arith op (deeper a) (deeper b)
  | .cmp op a b => .cmp op (deeper a) (deeper b)
  | .strCmp op a b => .strCmp op (deeper a) (deeper b)
  | .matchesRe a re => .matchesRe (deeper a) re
  | .ofPatterns quant ids anchor =>
      .ofPatterns (deeperQuant quant) ids (deeperAnchor anchor)
  | .ofExprs quant exprs => .ofExprs (deeperQuant quant) (deeperAll exprs)
  | .modAccess module path => .modAccess module (deeperPath path)
  | .modCall func args => .modCall func (deeperAll args)
  | .intRead kind addr => .intRead kind (deeper addr)
  | .entrypoint => .entrypoint
  | .external name ty => .external name ty
  | .var slot => .var (up slot)
  | .varAccess slot path => .varAccess (up slot) (deeperPath path)
  | .forIn quant iter base body =>
      .forIn (deeperQuant quant) (deeperIter iter) (up base) (deeper body)
  | .forOf quant patterns slot body =>
      .forOf (deeperQuant quant) patterns (up slot) (deeper body)
  | .withIn decls base body => .withIn (deeperAll decls) (up base) (deeper body)
  | .patternVar slot anchor => .patternVar (up slot) (deeperAnchor anchor)
  | .countVar slot range => .countVar (up slot) (deeperRange range)
  | .offsetVar slot idx => .offsetVar (up slot) (deeperIndex idx)
  | .lengthVar slot idx => .lengthVar (up slot) (deeperIndex idx)

def deeperAll : List Cond → List Cond
  | [] => []
  | c :: cs => deeper c :: deeperAll cs

def deeperAnchor : Anchor → Anchor
  | .anywhere => .anywhere
  | .at e => .at (deeper e)
  | .within lo hi => .within (deeper lo) (deeper hi)

def deeperRange : Range → Range
  | .whole => .whole
  | .between lo hi => .between (deeper lo) (deeper hi)

def deeperIndex : Index → Index
  | .first => .first
  | .nth e => .nth (deeper e)

def deeperQuant : Quant → Quant
  | .all => .all
  | .any => .any
  | .none => .none
  | .count e => .count (deeper e)
  | .percent e => .percent (deeper e)

def deeperIter : Iter → Iter
  | .range lo hi => .range (deeper lo) (deeper hi)
  | .tuple items => .tuple (deeperAll items)
  | .collection e => .collection (deeper e)

def deeperPath : List Access → List Access
  | [] => []
  | .field name :: path => .field name :: deeperPath path
  | .index e :: path => .index (deeper e) :: deeperPath path

end

end

/-! ## What it comes to -/

theorem length_deeperAll (up : Nat → Nat) (cs : List Cond) :
    (deeperAll up cs).length = cs.length := by
  induction cs with
  | nil => rfl
  | cons c cs ih => exact congrArg (· + 1) ih

section

variable {extra : Extra} {scope : List Slot} {ctx : EvalCtx} {binders : Prop}

theorem Quant.IsWord.deeper {quant : Quant} (word : quant.IsWord) (n : Nat) :
    ∃ mo, resolve ctx quant n = done mo ∧
      resolve ctx (deeperQuant extra.up quant) n = done mo := by
  cases quant with
  | all => exact ⟨.all, rfl, rfl⟩
  | any => exact ⟨.any, rfl, rfl⟩
  | none => exact ⟨.none, rfl, rfl⟩
  | count e => exact word.elim
  | percent e => exact word.elim

mutual

theorem deeper_eval (free : ctx.Free) : ∀ (c : Cond) {scope : List Slot},
    Scoped c scope → PlainIf binders c →
      Keeps extra scope scope.length Free (eval ctx c) (eval ctx (deeper extra.up c))
  | .bool b, _, _, _ => keeps_charged (keeps_done (.bool b))
  | .int i, _, _, _ => keeps_charged (keeps_done (.int i))
  | .float f, _, _, _ => keeps_charged (keeps_done (.float f))
  | .str s, _, _, _ => keeps_charged (keeps_done (.str s))
  | .filesize, _, _, _ => keeps_charged (keeps_done (.int _))
  | .ruleRef _, _, _, _ => keeps_charged (keeps_done (.bool _))
  | .entrypoint, _, _, _ => keeps_charged (keeps_pure (free_map .int _))
  | .external name _, _, _, _ => keeps_charged (keeps_pure (free.externals name))
  | .pattern _ anchor, _, within, plain =>
      keeps_charged (keeps_place (deeper_anchor free anchor within plain)
        fun _ => .bool _)
  | .count _ range, _, within, plain =>
      keeps_charged (keeps_place (deeper_range free range within plain) fun _ => .int _)
  | .offset _ idx, _, within, plain | .length _ idx, _, within, plain =>
      keeps_charged (keeps_at (deeper_index free idx within plain)
        fun _ => free_map (fun _ => .int _) _)
  | .defined e, _, within, plain =>
      keeps_charged (keeps_defined (deeper_eval free e within plain))
  | .not e, _, within, plain =>
      keeps_charged (keeps_not (deeper_eval free e within plain))
  | .and v, _, within, plain =>
      keeps_charged (keeps_and (deeper_all free v within plain))
  | .or v, _, within, plain => keeps_charged (keeps_or (deeper_all free v within plain))
  | .neg e, _, within, plain =>
      keeps_charged (keeps_known (deeper_eval free e within plain)
        fun v _ => keeps_pure (free_negate v))
  | .bitNot e, _, within, plain =>
      keeps_charged (keeps_known (deeper_eval free e within plain)
        fun v _ => keeps_pure (free_complement v))
  | .arith op a b, _, within, plain =>
      keeps_charged (keeps_both (free_arith op) (deeper_eval free a within.1 plain.1)
        (deeper_eval free b within.2 plain.2))
  | .cmp op a b, _, within, plain =>
      keeps_charged (keeps_both (free_compareValues op)
        (deeper_eval free a within.1 plain.1) (deeper_eval free b within.2 plain.2))
  | .strCmp _ a b, _, within, plain =>
      keeps_charged (keeps_strCmp (deeper_eval free a within.1 plain.1)
        (deeper_eval free b within.2 plain.2))
  | .matchesRe a _, _, within, plain =>
      keeps_charged (keeps_known (keeps_evalStr (deeper_eval free a within plain))
        fun _ _ => keeps_done (.bool _))
  | .ofPatterns quant ids anchor, _, within, plain =>
      keeps_charged (keeps_of
        (keeps_countPresent (deeper_anchor free anchor within.2 plain.2) ids 0)
        (deeper_resolve free quant within.1 plain.1 _))
  | .ofExprs quant exprs, _, within, plain => by
      rw [deeper, eval, eval, length_deeperAll]
      exact keeps_charged (keeps_of
        (keeps_counted (deeper_all free exprs within.2 plain.2))
        (deeper_resolve free quant within.1 plain.1 exprs.length))
  | .modAccess kind path, _, within, plain =>
      keeps_charged (keeps_known (keeps_pure (free.root kind))
        fun _ inside => deeper_walk free path within plain inside)
  | .modCall func args, _, within, plain =>
      keeps_charged (keeps_known (keeps_args (deeper_all free args within plain))
        fun vals _ => keeps_bind (keeps_noteTurn true)
          fun _ _ => keeps_pure (free.call func vals))
  | .intRead kind addr, _, within, plain =>
      keeps_charged (keeps_known (keeps_evalInt (deeper_eval free addr within plain))
        fun off _ => keeps_pure (free_readInt kind ctx.data off))
  | .var _, _, within, _ => keeps_charged (keeps_envVal within)
  | .varAccess _ path, _, within, plain =>
      keeps_charged (keeps_known (keeps_envVal within.1)
        fun _ inside => deeper_walk free path within.2 plain inside)
  | .forIn quant iter base body, scope, within, plain => by
      obtain ⟨-, of_iter, rfl, of_body⟩ := within
      obtain ⟨-, word, plain_iter, plain_body⟩ := plain
      exact keeps_charged (deeper_forIn free iter of_iter plain_iter word.deeper
        (keeps_evalBool (deeper_eval free body of_body plain_body)))
  | .forOf quant patterns slot body, scope, within, plain => by
      obtain ⟨-, rfl, of_body⟩ := within
      obtain ⟨-, word, plain_body⟩ := plain
      exact keeps_charged (keeps_forOf patterns word.deeper
        (keeps_evalBool (deeper_eval free body of_body plain_body)))
  | .withIn decls base body, scope, within, plain => by
      obtain ⟨of_decls, rfl, of_body⟩ := within
      obtain ⟨-, plain_decls, plain_body⟩ := plain
      obtain ⟨declared, same⟩ := deeper_decls free decls of_decls plain_decls
      exact keeps_charged (keeps_with declared same
        (deeper_eval free body of_body plain_body))
  | .patternVar _ anchor, _, within, plain =>
      keeps_charged (keeps_bind (keeps_envPat within.1) fun _ _ =>
        keeps_place (deeper_anchor free anchor within.2 plain) fun _ => .bool _)
  | .countVar _ range, _, within, plain =>
      keeps_charged (keeps_bind (keeps_envPat within.1) fun _ _ =>
        keeps_place (deeper_range free range within.2 plain) fun _ => .int _)
  | .offsetVar _ idx, _, within, plain | .lengthVar _ idx, _, within, plain =>
      keeps_charged (keeps_bind (keeps_envPat within.1) fun _ _ =>
        keeps_at (deeper_index free idx within.2 plain)
          fun _ => free_map (fun _ => .int _) _)

theorem deeper_all (free : ctx.Free) : ∀ (cs : List Cond) {scope : List Slot},
    ScopedAll cs scope → PlainAll binders cs →
      KeepsAll extra scope scope.length (evalAll ctx cs)
        (evalAll ctx (deeperAll extra.up cs))
  | [], _, _, _ => .nil
  | c :: cs, _, within, plain =>
      .cons (deeper_eval free c within.1 plain.1) (deeper_all free cs within.2 plain.2)

theorem deeper_decls (free : ctx.Free) : ∀ (cs : List Cond) {scope : List Slot},
    ScopedDecls cs scope → PlainAll binders cs →
      KeepsDecls extra scope (evalAll ctx cs) (evalAll ctx (deeperAll extra.up cs)) ∧
      (evalAll ctx cs).length = cs.length
  | [], scope, _, _ => ⟨.nil scope, rfl⟩
  | c :: cs, _, within, plain =>
      have rest := deeper_decls free cs within.2 plain.2
      ⟨.cons (deeper_eval free c within.1 plain.1) rest.1, congrArg (· + 1) rest.2⟩

theorem deeper_anchor (free : ctx.Free) : ∀ (anchor : Anchor) {scope : List Slot},
    ScopedAnchor anchor scope → PlainAnchor binders anchor →
      Keeps extra scope scope.length (Each fun _ => True) (evalAnchor ctx anchor)
        (evalAnchor ctx (deeperAnchor extra.up anchor))
  | .anywhere, _, _, _ => keeps_done trivial
  | .at e, _, within, plain =>
      keeps_known (keeps_evalInt (deeper_eval free e within plain))
        fun _ _ => keeps_done trivial
  | .within lo hi, _, within, plain =>
      keeps_placeBetween (deeper_eval free lo within.1 plain.1)
        (deeper_eval free hi within.2 plain.2)

theorem deeper_range (free : ctx.Free) : ∀ (range : Range) {scope : List Slot},
    ScopedRange range scope → PlainRange binders range →
      Keeps extra scope scope.length (Each fun _ => True) (evalRange ctx range)
        (evalRange ctx (deeperRange extra.up range))
  | .whole, _, _, _ => keeps_done trivial
  | .between lo hi, _, within, plain =>
      keeps_placeBetween (deeper_eval free lo within.1 plain.1)
        (deeper_eval free hi within.2 plain.2)

theorem deeper_index (free : ctx.Free) : ∀ (idx : Index) {scope : List Slot},
    ScopedIndex idx scope → PlainIndex binders idx →
      Keeps extra scope scope.length (Each fun _ => True) (evalIndex ctx idx)
        (evalIndex ctx (deeperIndex extra.up idx))
  | .first, _, _, _ => keeps_pure fun _ _ => trivial
  | .nth e, _, within, plain =>
      keeps_known (keeps_evalInt (deeper_eval free e within plain))
        fun _ _ => keeps_pure fun _ _ => trivial

theorem deeper_resolve (free : ctx.Free) : ∀ (quant : Quant) {scope : List Slot},
    ScopedQuant quant scope → PlainQuant binders quant → ∀ n,
      Keeps extra scope scope.length (Each fun _ => True) (resolve ctx quant n)
        (resolve ctx (deeperQuant extra.up quant) n)
  | .all, _, _, _, _ | .any, _, _, _, _ | .none, _, _, _, _ => keeps_done trivial
  | .count e, _, within, plain, _ =>
      keeps_known (keeps_evalInt (deeper_eval free e within plain))
        fun _ _ => keeps_done trivial
  | .percent e, _, within, plain, _ =>
      keeps_known (deeper_eval free e within plain) fun _ _ =>
        keeps_known (keeps_pure fun _ _ => trivial) fun _ _ => keeps_done trivial

theorem deeper_forIn (free : ctx.Free) : ∀ (iter : Iter) {scope : List Slot},
    ScopedIter iter scope → PlainIter binders iter →
      ∀ {mode mode' : Nat → M (Option Mode)} {body body' : M Bool},
      (∀ n, ∃ mo, mode n = done mo ∧ mode' n = done mo) →
      Keeps extra (scope ++ [Slot.value]) (scope ++ [Slot.value]).length
        (fun _ => True) body body' →
      Keeps extra scope scope.length Free (evalForIn ctx iter scope.length mode body)
        (evalForIn ctx (deeperIter extra.up iter) (extra.up scope.length) mode' body')
  | .range lo hi, _, within, plain, _, _, _, _, word, keeps =>
      keeps_forRange (deeper_eval free lo within.1 plain.1)
        (deeper_eval free hi within.2 plain.2) word keeps
  | .tuple _, _, _, plain, _, _, _, _, _, _ => plain.elim
  | .collection e, _, within, plain, _, _, _, _, word, keeps =>
      keeps_forCollection (deeper_eval free e within plain) word keeps

theorem deeper_walk (free : ctx.Free) : ∀ (path : List Access) {scope : List Slot},
    ScopedPath path scope → PlainPath binders path → ∀ {v : Value}, MapFree v →
      Keeps extra scope scope.length Free (walkAccess ctx path v)
        (walkAccess ctx (deeperPath extra.up path) v)
  | [], _, _, _, _, inside => keeps_done inside
  | .field _ :: path, _, within, plain, _, inside =>
      keeps_known (keeps_pure (free_atField inside))
        fun _ inside => deeper_walk free path within plain inside
  | .index e :: path, _, within, plain, _, inside =>
      keeps_known (keeps_stepIndex (deeper_eval free e within.1 plain.1) inside)
        fun _ inside => deeper_walk free path within.2 plain.2 inside

end

end

/-! ## Without binders -/

section

variable {up : Nat → Nat}

def Fixed (up : Nat → Nat) (scope : List Slot) : Prop :=
  ∀ slot < scope.length, up slot = slot

theorem fixed_top (scope : List Slot) : Fixed (raise scope.length) scope :=
  fun _ inside => if_pos inside

theorem Fixed.at_slot {scope : List Slot} (fixed : Fixed up scope) {slot : Nat}
    {s : Slot} (there : scope[slot]? = some s) : up slot = slot :=
  fixed slot (List.getElem?_eq_some_iff.mp there).1

mutual

/-- What binds nothing is lowered to the same with a slot more on top. -/
theorem deeper_fixed : ∀ (c : Cond) {scope : List Slot}, Fixed up scope →
    Scoped c scope → PlainIf False c → deeper up c = c
  | .bool _, _, _, _, _ | .int _, _, _, _, _ | .float _, _, _, _, _
  | .str _, _, _, _, _ | .filesize, _, _, _, _ | .ruleRef _, _, _, _, _
  | .entrypoint, _, _, _, _ | .external _ _, _, _, _, _ => rfl
  | .pattern id anchor, _, fixed, within, plain =>
      congrArg (Cond.pattern id) (anchor_fixed anchor fixed within plain)
  | .count id range, _, fixed, within, plain =>
      congrArg (Cond.count id) (range_fixed range fixed within plain)
  | .offset id idx, _, fixed, within, plain =>
      congrArg (Cond.offset id) (index_fixed idx fixed within plain)
  | .length id idx, _, fixed, within, plain =>
      congrArg (Cond.length id) (index_fixed idx fixed within plain)
  | .defined e, _, fixed, within, plain =>
      congrArg Cond.defined (deeper_fixed e fixed within plain)
  | .not e, _, fixed, within, plain =>
      congrArg Cond.not (deeper_fixed e fixed within plain)
  | .and v, _, fixed, within, plain =>
      congrArg Cond.and (all_fixed v fixed within plain)
  | .or v, _, fixed, within, plain =>
      congrArg Cond.or (all_fixed v fixed within plain)
  | .neg e, _, fixed, within, plain =>
      congrArg Cond.neg (deeper_fixed e fixed within plain)
  | .bitNot e, _, fixed, within, plain =>
      congrArg Cond.bitNot (deeper_fixed e fixed within plain)
  | .arith op a b, _, fixed, within, plain =>
      congrArg₂ (Cond.arith op) (deeper_fixed a fixed within.1 plain.1)
        (deeper_fixed b fixed within.2 plain.2)
  | .cmp op a b, _, fixed, within, plain =>
      congrArg₂ (Cond.cmp op) (deeper_fixed a fixed within.1 plain.1)
        (deeper_fixed b fixed within.2 plain.2)
  | .strCmp op a b, _, fixed, within, plain =>
      congrArg₂ (Cond.strCmp op) (deeper_fixed a fixed within.1 plain.1)
        (deeper_fixed b fixed within.2 plain.2)
  | .matchesRe a re, _, fixed, within, plain =>
      congrArg (Cond.matchesRe · re) (deeper_fixed a fixed within plain)
  | .ofPatterns quant ids anchor, _, fixed, within, plain =>
      congrArg₂ (Cond.ofPatterns · ids ·) (quant_fixed quant fixed within.1 plain.1)
        (anchor_fixed anchor fixed within.2 plain.2)
  | .ofExprs quant exprs, _, fixed, within, plain =>
      congrArg₂ Cond.ofExprs (quant_fixed quant fixed within.1 plain.1)
        (all_fixed exprs fixed within.2 plain.2)
  | .modAccess kind path, _, fixed, within, plain =>
      congrArg (Cond.modAccess kind) (path_fixed path fixed within plain)
  | .modCall func args, _, fixed, within, plain =>
      congrArg (Cond.modCall func) (all_fixed args fixed within plain)
  | .intRead kind addr, _, fixed, within, plain =>
      congrArg (Cond.intRead kind) (deeper_fixed addr fixed within plain)
  | .var _, _, fixed, within, _ => congrArg Cond.var (fixed.at_slot within)
  | .varAccess _ path, _, fixed, within, plain =>
      congrArg₂ Cond.varAccess (fixed.at_slot within.1)
        (path_fixed path fixed within.2 plain)
  | .forIn _ _ _ _, _, _, _, plain => plain.1.elim
  | .forOf _ _ _ _, _, _, _, plain => plain.1.elim
  | .withIn _ _ _, _, _, _, plain => plain.1.elim
  | .patternVar _ anchor, _, fixed, within, plain =>
      congrArg₂ Cond.patternVar (fixed.at_slot within.1)
        (anchor_fixed anchor fixed within.2 plain)
  | .countVar _ range, _, fixed, within, plain =>
      congrArg₂ Cond.countVar (fixed.at_slot within.1)
        (range_fixed range fixed within.2 plain)
  | .offsetVar _ idx, _, fixed, within, plain =>
      congrArg₂ Cond.offsetVar (fixed.at_slot within.1)
        (index_fixed idx fixed within.2 plain)
  | .lengthVar _ idx, _, fixed, within, plain =>
      congrArg₂ Cond.lengthVar (fixed.at_slot within.1)
        (index_fixed idx fixed within.2 plain)

theorem all_fixed : ∀ (cs : List Cond) {scope : List Slot}, Fixed up scope →
    ScopedAll cs scope → PlainAll False cs → deeperAll up cs = cs
  | [], _, _, _, _ => rfl
  | c :: cs, _, fixed, within, plain =>
      congrArg₂ List.cons (deeper_fixed c fixed within.1 plain.1)
        (all_fixed cs fixed within.2 plain.2)

theorem anchor_fixed : ∀ (anchor : Anchor) {scope : List Slot}, Fixed up scope →
    ScopedAnchor anchor scope → PlainAnchor False anchor →
      deeperAnchor up anchor = anchor
  | .anywhere, _, _, _, _ => rfl
  | .at e, _, fixed, within, plain =>
      congrArg Anchor.at (deeper_fixed e fixed within plain)
  | .within lo hi, _, fixed, within, plain =>
      congrArg₂ Anchor.within (deeper_fixed lo fixed within.1 plain.1)
        (deeper_fixed hi fixed within.2 plain.2)

theorem range_fixed : ∀ (range : Range) {scope : List Slot}, Fixed up scope →
    ScopedRange range scope → PlainRange False range →
      deeperRange up range = range
  | .whole, _, _, _, _ => rfl
  | .between lo hi, _, fixed, within, plain =>
      congrArg₂ Range.between (deeper_fixed lo fixed within.1 plain.1)
        (deeper_fixed hi fixed within.2 plain.2)

theorem index_fixed : ∀ (idx : Index) {scope : List Slot}, Fixed up scope →
    ScopedIndex idx scope → PlainIndex False idx → deeperIndex up idx = idx
  | .first, _, _, _, _ => rfl
  | .nth e, _, fixed, within, plain =>
      congrArg Index.nth (deeper_fixed e fixed within plain)

theorem quant_fixed : ∀ (quant : Quant) {scope : List Slot}, Fixed up scope →
    ScopedQuant quant scope → PlainQuant False quant → deeperQuant up quant = quant
  | .all, _, _, _, _ | .any, _, _, _, _ | .none, _, _, _, _ => rfl
  | .count e, _, fixed, within, plain =>
      congrArg Quant.count (deeper_fixed e fixed within plain)
  | .percent e, _, fixed, within, plain =>
      congrArg Quant.percent (deeper_fixed e fixed within plain)

theorem path_fixed : ∀ (path : List Access) {scope : List Slot}, Fixed up scope →
    ScopedPath path scope → PlainPath False path → deeperPath up path = path
  | [], _, _, _, _ => rfl
  | .field name :: path, _, fixed, within, plain =>
      congrArg (Access.field name :: ·) (path_fixed path fixed within plain)
  | .index e :: path, _, fixed, within, plain =>
      congrArg₂ (Access.index · :: ·) (deeper_fixed e fixed within.1 plain.1)
        (path_fixed path fixed within.2 plain.2)

end

end

end Exav.Yara.Ir
