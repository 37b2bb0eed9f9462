import Exav.Yara.Scope

/-!
# What leaves the environment as it is

Evaluations beside one another: the same values come out of them, and the
environment is after each as it was before.  The one on the right may find a slot
more than the one on the left, which it knows nothing of.
-/

namespace Exav.Yara.Ir

/-! ## Values -/

inductive MapFree : Value → Prop where
  | bool (b : Bool) : MapFree (.bool b)
  | int (i : Int64) : MapFree (.int i)
  | float (f : Float) : MapFree (.float f)
  | str (s : Bytes) : MapFree (.str s)
  | struct {fields : List (String × Value)}
      (all : ∀ name v, fields.lookup name = some v → MapFree v) :
      MapFree (.struct fields)
  | array {items : List Value} (all : ∀ v ∈ items, MapFree v) :
      MapFree (.array items)

/-- What holds of a value, if it is defined. -/
def Each {α : Type} (Q : α → Prop) (o : Option α) : Prop := ∀ a, o = some a → Q a

def Free : Option Value → Prop := Each MapFree

/-- The modules give no maps, and there are none among the external variables. -/
structure EvalCtx.Free (ctx : EvalCtx) : Prop where
  root : ∀ kind, Ir.Free (ctx.root kind)
  call : ∀ func args, Ir.Free (ctx.call func args)
  externals : ∀ name, Ir.Free (ctx.externals name)

section

variable {α : Type} {Q : α → Prop}

theorem each_none : Each Q none := fun _ never => by cases never

theorem each_some {a : α} (holds : Q a) : Each Q (some a) := by
  rintro b ⟨⟩
  exact holds

end

/-! ## The environment of a scope -/

def Binding.slot : Binding → Slot
  | .val _ => .value
  | .pat _ => .pattern

/-- The value bound, if one is. -/
def Binding.value : Binding → Option Value
  | .val v => v
  | .pat _ => none

structure Holds (scope : List Slot) (st : St) : Prop where
  slots : st.env.map Binding.slot = scope
  free : ∀ b ∈ st.env, Free b.value

theorem Holds.length {scope : List Slot} {st : St} (holds : Holds scope st) :
    st.env.length = scope.length := by
  rw [← holds.slots, List.length_map]

/-! ## An environment beside another -/

/-- A slot more on the right, and what is bound to it. -/
abbrev Extra : Type := Option (Nat × Binding)

/-- The number a slot has with one more above so many. -/
def raise (below slot : Nat) : Nat := if slot < below then slot else slot + 1

/-- The number a slot has on the right. -/
def Extra.up : Extra → Nat → Nat
  | none => id
  | some (below, _) => raise below

/-- The environment on the right, which has the slot more. -/
inductive Widened : Extra → List Binding → List Binding → Prop where
  | same (env : List Binding) : Widened none env env
  | extra (below above : List Binding) (b : Binding) :
      Widened (some (below.length, b)) (below ++ above) (below ++ b :: above)

namespace Widened

variable {extra : Extra} {env env' : List Binding}

theorem getElem? (wide : Widened extra env env') (slot : Nat) :
    env'[extra.up slot]? = env[slot]? := by
  cases wide with
  | same => rfl
  | extra below above b =>
      rw [Extra.up, raise]
      split
      · rename_i inside
        rw [List.getElem?_append_left inside, List.getElem?_append_left inside]
      · rename_i outside
        have past : below.length ≤ slot := Nat.le_of_not_lt outside
        rw [List.getElem?_append_right past,
          List.getElem?_append_right (Nat.le_succ_of_le past), Nat.succ_sub past]
        rfl

protected theorem set (wide : Widened extra env env') (slot : Nat) (c : Binding) :
    Widened extra (env.set slot c) (env'.set (extra.up slot) c) := by
  cases wide with
  | same => exact .same _
  | extra below above b =>
      rw [Extra.up, raise]
      split
      · rename_i inside
        rw [List.set_append_left _ _ inside, List.set_append_left _ _ inside]
        have wide := Widened.extra (below.set slot c) above b
        rwa [List.length_set] at wide
      · rename_i outside
        have past : below.length ≤ slot := Nat.le_of_not_lt outside
        rw [List.set_append_right _ _ past,
          List.set_append_right _ _ (Nat.le_succ_of_le past), Nat.succ_sub past]
        exact .extra below _ b

theorem push (wide : Widened extra env env') (bs : List Binding) :
    Widened extra (env ++ bs) (env' ++ bs) := by
  cases wide with
  | same => exact .same _
  | extra below above b =>
      rw [List.append_assoc, List.append_assoc]
      exact .extra below (above ++ bs) b

protected theorem take (wide : Widened extra env env') {base : Nat}
    (above_ : ∀ below b, extra = some (below, b) → below ≤ base) :
    Widened extra (env.take base) (env'.take (extra.up base)) := by
  cases wide with
  | same => exact .same _
  | extra below above b =>
      have past : below.length ≤ base := above_ _ _ rfl
      rw [Extra.up, raise, if_neg (Nat.not_lt.mpr past), List.take_append,
        List.take_append, Nat.succ_sub past, List.take_of_length_le past,
        List.take_of_length_le (Nat.le_succ_of_le past)]
      exact .extra below _ b

theorem eq_extra {below : Nat} {b : Binding}
    (wide : Widened (some (below, b)) env env') :
    env' = env.take below ++ b :: env.drop below := by
  cases wide with
  | extra below above b => rw [List.take_left, List.drop_left]

theorem unique {env₁ env₂ : List Binding} (first : Widened extra env env₁)
    (second : Widened extra env env₂) : env₁ = env₂ := by
  cases extra with
  | none =>
      cases first
      cases second
      rfl
  | some more => rw [first.eq_extra, second.eq_extra]

theorem below_le {below : Nat} {b : Binding}
    (wide : Widened (some (below, b)) env env') : below ≤ env.length := by
  cases wide with
  | extra below above b =>
      rw [List.length_append]
      exact Nat.le_add_right _ _

end Widened

/-- The state on the right: only the environment is another one. -/
structure Beside (extra : Extra) (st st' : St) : Prop where
  wide : Widened extra st.env st'.env
  rest : st' = { st with env := st'.env }

theorem beside_same (st : St) : Beside none st st := ⟨.same _, rfl⟩

theorem Beside.eq {st st' : St} (beside : Beside none st st') : st' = st := by
  obtain ⟨wide, rest⟩ := beside
  rw [rest]
  generalize st'.env = env' at wide
  cases wide
  rfl

theorem Beside.push {extra : Extra} {st st' : St} (beside : Beside extra st st')
    (bs : List Binding) :
    Beside extra { st with env := st.env ++ bs } { st' with env := st'.env ++ bs } :=
  ⟨beside.wide.push bs, by rw [beside.rest]⟩

/-! ## What keeps the environment -/

/-- There is no limit to the steps, so that nothing is cut short. -/
structure St.Unlimited (st : St) : Prop where
  steps : st.steps = none
  whole : st.cut = false

/-- Without a limit nothing but the environment is touched. -/
def Unmoved (st t : St) : Prop := st.Unlimited → t = { st with env := t.env }

theorem unmoved_refl (st : St) : Unmoved st st := fun _ => rfl

theorem Unmoved.trans {st s t : St} (first : Unmoved st s) (second : Unmoved s t) :
    Unmoved st t := by
  intro unlimited
  have same := first unlimited
  have still : s.Unlimited := by
    rw [same]
    exact ⟨unlimited.steps, unlimited.whole⟩
  rw [second still, same]

/-- The states after, from the state before: the environment is as the scope has
it, its first `n` slots as they were. -/
structure After (extra : Extra) (scope : List Slot) (n : Nat) (st t t' : St) :
    Prop where
  holds : Holds scope t
  frame : t.env.take n = st.env.take n
  unmoved : Unmoved st t
  beside : Beside extra t t'

theorem After.restores {extra : Extra} {scope : List Slot} {st t t' : St}
    (after : After extra scope scope.length st t t') (holds : Holds scope st) :
    t.env = st.env := by
  have same := after.frame
  rwa [← holds.length, List.take_length, holds.length, ← after.holds.length,
    List.take_length] at same

/-- Two computations beside one another, wherever the environment is as a scope has
it.  They come to the same, which satisfies `Q`, and leave the environment so. -/
def Keeps {α : Type} (extra : Extra) (scope : List Slot) (n : Nat) (Q : α → Prop)
    (m m' : M α) : Prop :=
  ∀ st st', Holds scope st → Beside extra st st' → ∃ a t t', m st = .ok (a, t) ∧
    m' st' = .ok (a, t') ∧ Q a ∧ After extra scope n st t t'

section

variable {α β : Type} {extra : Extra} {scope : List Slot} {n : Nat} {Q : α → Prop}
  {R : β → Prop} {m m' : M α}

theorem Keeps.frame {n' : Nat} (keeps : Keeps extra scope n Q m m')
    (fewer : n' ≤ n) : Keeps extra scope n' Q m m' := by
  intro st st' holds beside
  obtain ⟨a, t, t', ran, ran', result, after⟩ := keeps st st' holds beside
  refine ⟨a, t, t', ran, ran', result, after.holds, ?_, after.unmoved, after.beside⟩
  have cut := congrArg (List.take n') after.frame
  rwa [List.take_take, List.take_take, Nat.min_eq_left fewer] at cut

theorem keeps_pure {a : α} (result : Q a) : Keeps extra scope n Q (pure a) (pure a) :=
  fun st st' holds beside =>
    ⟨a, st, st', rfl, rfl, result, holds, rfl, unmoved_refl st, beside⟩

theorem keeps_bind {f f' : α → M β} (first : Keeps extra scope n Q m m')
    (rest : ∀ a, Q a → Keeps extra scope n R (f a) (f' a)) :
    Keeps extra scope n R (m >>= f) (m' >>= f') := by
  intro st st' holds beside
  obtain ⟨a, s, s', ran, ran', result, after⟩ := first st st' holds beside
  obtain ⟨b, t, t', ran_f, ran_f', result_t, after'⟩ :=
    rest a result s s' after.holds after.beside
  exact ⟨b, t, t', (bind_eq ran f).trans ran_f, (bind_eq ran' f').trans ran_f',
    result_t, after'.holds, after'.frame.trans after.frame,
    after.unmoved.trans after'.unmoved, after'.beside⟩

/-- A computation that does not look at the environment. -/
theorem keeps_quiet
    (quiet : ∀ st env, ∃ a t, m st = .ok (a, t) ∧
      m { st with env := env } = .ok (a, { t with env := env }) ∧ t.env = st.env ∧
      (st.Unlimited → t = st)) :
    Keeps extra scope n (fun _ => True) m m := by
  intro st st' holds beside
  obtain ⟨a, t, ran, ran', same, still⟩ := quiet st st'.env
  rw [← beside.rest] at ran'
  refine ⟨a, t, _, ran, ran', trivial, ⟨same ▸ holds.slots, same ▸ holds.free⟩,
    congrArg (List.take n) same, fun unlimited => ?_, ⟨same ▸ beside.wide, rfl⟩⟩
  rw [still unlimited]

theorem keeps_noteTurn (r : Bool) :
    Keeps extra scope n (fun _ => True) (noteTurn r) (noteTurn r) := by
  apply keeps_quiet
  intro st env
  refine ⟨(), _, rfl, rfl, rfl, fun unlimited => ?_⟩
  rw [unlimited.whole, Bool.false_and, Bool.or_false, ← unlimited.whole]

theorem keeps_outOfSteps :
    Keeps extra scope n (fun _ => True) outOfSteps outOfSteps := by
  apply keeps_quiet
  rintro ⟨env, steps, cut, turned⟩ env'
  cases steps with
  | none => exact ⟨_, _, rfl, rfl, rfl, fun _ => rfl⟩
  | some left =>
      cases left with
      | zero => exact ⟨_, _, rfl, rfl, rfl, fun unlimited => by cases unlimited.steps⟩
      | succ left => exact ⟨_, _, rfl, rfl, rfl, fun _ => rfl⟩

theorem keeps_chargeStep :
    Keeps extra scope n (fun _ => True) chargeStep chargeStep := by
  apply keeps_quiet
  rintro ⟨env, steps, cut, turned⟩ env'
  cases steps with
  | none => exact ⟨_, _, rfl, rfl, rfl, fun _ => rfl⟩
  | some left =>
      cases left with
      | zero => exact ⟨_, _, rfl, rfl, rfl, fun unlimited => by cases unlimited.steps⟩
      | succ left =>
          exact ⟨_, _, rfl, rfl, rfl, fun unlimited => by cases unlimited.steps⟩

theorem keeps_known {m m' : M (Option α)} {f f' : α → M (Option β)}
    (first : Keeps extra scope n (Each Q) m m')
    (rest : ∀ a, Q a → Keeps extra scope n (Each R) (f a) (f' a)) :
    Keeps extra scope n (Each R) (known m f) (known m' f') := by
  apply keeps_bind first
  intro o each
  cases o with
  | none => exact keeps_pure each_none
  | some a => exact rest a (each a rfl)

theorem keeps_done {a : α} (result : Q a) :
    Keeps extra scope n (Each Q) (done a) (done a) :=
  keeps_pure (each_some result)

theorem keeps_charged {e e' : Eval} (keeps : Keeps extra scope n Free e e') :
    Keeps extra scope n Free (charged e) (charged e') := by
  apply keeps_bind keeps_chargeStep
  intro stepped _
  cases stepped with
  | true => exact keeps
  | false => exact keeps_pure each_none

end

/-! ## Operators -/

section

variable {extra : Extra} {scope : List Slot} {n : Nat} {e e' lo lo' hi hi' : Eval}

theorem keeps_evalInt (keeps : Keeps extra scope n Free e e') :
    Keeps extra scope n (Each fun _ => True) (evalInt e) (evalInt e') :=
  keeps_known keeps fun _ _ => keeps_bind (keeps_noteTurn true) fun _ _ =>
    keeps_pure fun _ _ => trivial

theorem keeps_evalStr (keeps : Keeps extra scope n Free e e') :
    Keeps extra scope n (Each fun _ => True) (evalStr e) (evalStr e') :=
  keeps_known keeps fun _ _ => keeps_pure fun _ _ => trivial

theorem keeps_evalBool (keeps : Keeps extra scope n Free e e') :
    Keeps extra scope n (fun _ => True) (evalBool e) (evalBool e') :=
  keeps_bind keeps fun _ _ => keeps_pure trivial

theorem keeps_placeBetween (keeps_lo : Keeps extra scope n Free lo lo')
    (keeps_hi : Keeps extra scope n Free hi hi') :
    Keeps extra scope n (Each fun _ => True) (placeBetween lo hi)
      (placeBetween lo' hi') :=
  keeps_known (keeps_evalInt keeps_lo) fun _ _ =>
    keeps_known (keeps_evalInt keeps_hi) fun _ _ => keeps_done trivial

theorem keeps_outcome (turns r : Bool) :
    Keeps extra scope n Free (outcome turns r) (outcome turns r) :=
  keeps_bind (keeps_noteTurn turns) fun _ _ => keeps_done (.bool r)

theorem keeps_not (keeps : Keeps extra scope n Free e e') :
    Keeps extra scope n Free (evalNot e) (evalNot e') :=
  keeps_bind keeps fun _ _ => keeps_outcome _ _

theorem keeps_defined (keeps : Keeps extra scope n Free e e') :
    Keeps extra scope n Free (evalDefined e) (evalDefined e') :=
  keeps_bind keeps fun _ _ => keeps_outcome _ _

/-- Evaluations one by one beside those that are checked. -/
def KeepsAll (extra : Extra) (scope : List Slot) (n : Nat) :
    List Eval → List Eval → Prop :=
  List.Forall₂ (Keeps extra scope n Free)

theorem keeps_and {es es' : List Eval} (all : KeepsAll extra scope n es es') :
    Keeps extra scope n Free (evalAnd es) (evalAnd es') := by
  induction all with
  | nil => exact keeps_done (.bool true)
  | cons head _ ih =>
      apply keeps_bind head
      intro v _
      split
      · exact ih
      · exact keeps_done (.bool false)

theorem keeps_or {es es' : List Eval} (all : KeepsAll extra scope n es es') :
    Keeps extra scope n Free (evalOr es) (evalOr es') := by
  induction all with
  | nil => exact keeps_done (.bool false)
  | cons head _ ih =>
      apply keeps_bind head
      intro v _
      split
      · exact keeps_done (.bool true)
      · exact ih

theorem keeps_both {f : Value → Value → Option Value} (free : ∀ x y, Free (f x y))
    (keeps : Keeps extra scope n Free lo lo')
    (keeps' : Keeps extra scope n Free hi hi') :
    Keeps extra scope n Free (both lo hi f) (both lo' hi' f) :=
  keeps_known keeps fun x _ => keeps_known keeps' fun y _ => keeps_pure (free x y)

theorem keeps_strCmp {holds : Bytes → Bytes → Bool}
    (keeps : Keeps extra scope n Free lo lo')
    (keeps' : Keeps extra scope n Free hi hi') :
    Keeps extra scope n Free (evalStrCmp holds lo hi) (evalStrCmp holds lo' hi') :=
  keeps_known (keeps_evalStr keeps) fun _ _ =>
    keeps_known (keeps_evalStr keeps') fun _ _ => keeps_done (.bool _)

theorem keeps_args {es es' : List Eval} (all : KeepsAll extra scope n es es') :
    Keeps extra scope n (Each fun _ => True) (evalArgs es) (evalArgs es') := by
  induction all with
  | nil => exact keeps_done trivial
  | cons head _ ih =>
      exact keeps_known head fun _ _ => keeps_known ih fun _ _ => keeps_done trivial

theorem keeps_countPresent {lists : Nat → List Match}
    {anchor anchor' : M (Option Place)}
    (keeps : Keeps extra scope n (Each fun _ => True) anchor anchor') (ids : List Nat)
    (satisfied : Nat) :
    Keeps extra scope n (Each fun _ => True) (countPresent lists anchor ids satisfied)
      (countPresent lists anchor' ids satisfied) := by
  induction ids generalizing satisfied with
  | nil => exact keeps_done trivial
  | cons id ids ih => exact keeps_known keeps fun _ _ => ih _

theorem keeps_countTrue {es es' : List Eval} (all : KeepsAll extra scope n es es')
    (satisfied : Nat) :
    Keeps extra scope n (fun _ => True) (countTrue es satisfied)
      (countTrue es' satisfied) := by
  induction all generalizing satisfied with
  | nil => exact keeps_pure trivial
  | cons head _ ih => exact keeps_bind head fun _ _ => ih _

theorem keeps_counted {es es' : List Eval} (all : KeepsAll extra scope n es es') :
    Keeps extra scope n (Each fun _ => True) (do return some (← countTrue es 0))
      (do return some (← countTrue es' 0)) :=
  keeps_bind (keeps_countTrue all 0) fun _ _ => keeps_done trivial

theorem keeps_of {counted counted' : M (Option Nat)} {total : Nat}
    {mode mode' : M (Option Mode)}
    (keeps : Keeps extra scope n (Each fun _ => True) counted counted')
    (resolves : Keeps extra scope n (Each fun _ => True) mode mode') :
    Keeps extra scope n Free (evalOf counted total mode)
      (evalOf counted' total mode') :=
  keeps_known keeps fun _ _ => keeps_known resolves fun _ _ => keeps_outcome _ _

theorem keeps_place {anchor anchor' : M (Option Place)} {f : Place → Value}
    (keeps : Keeps extra scope n (Each fun _ => True) anchor anchor')
    (free : ∀ place, MapFree (f place)) :
    Keeps extra scope n Free (known anchor fun place => done (f place))
      (known anchor' fun place => done (f place)) :=
  keeps_known keeps fun place _ => keeps_done (free place)

theorem keeps_at {idx idx' : M (Option Nat)} {f : Nat → Option Value}
    (keeps : Keeps extra scope n (Each fun _ => True) idx idx')
    (free : ∀ i, Free (f i)) :
    Keeps extra scope n Free (known idx fun i => pure (f i))
      (known idx' fun i => pure (f i)) :=
  keeps_known keeps fun i _ => keeps_pure (free i)

theorem free_negate (v : Value) : Free (negate v) := by
  cases v with
  | int i => exact each_some (.int _)
  | float f => exact each_some (.float _)
  | _ => exact each_none

theorem free_complement (v : Value) : Free (complement v) := by
  cases v with
  | int i => exact each_some (.int _)
  | _ => exact each_none

theorem free_map {α : Type} {f : α → Value} (free : ∀ a, MapFree (f a))
    (o : Option α) : Free (o.map f) := by
  rintro w is
  obtain ⟨a, -, rfl⟩ := Option.map_eq_some_iff.mp is
  exact free a

theorem free_compareValues (op : CmpOp) (a b : Value) : Free (compareValues op a b) :=
  free_map (fun _ => .bool _) _

theorem free_arith (op : ArithOp) (a b : Value) : Free (arith op a b) := by
  unfold arith
  split
  · exact free_map .int _
  · intro w is
    obtain ⟨x, -, is⟩ := Option.bind_eq_some_iff.mp is
    obtain ⟨y, -, is⟩ := Option.bind_eq_some_iff.mp is
    obtain ⟨z, -, is⟩ := Option.bind_eq_some_iff.mp is
    cases is
    exact .float z

theorem free_readInt (kind : IntKind) (data : ByteSource) (off : Int64) :
    Free (readInt kind data off) := by
  unfold readInt
  split
  · exact each_none
  · dsimp only
    split
    · exact each_some (.int _)
    · exact each_none

end

/-! ## Slots -/

section

variable {extra : Extra} {scope : List Slot} {n slot : Nat}

theorem Holds.bound {st : St} (holds : Holds scope st) {s : Slot}
    (there : scope[slot]? = some s) :
    ∃ b, st.env[slot]? = some b ∧ b.slot = s := by
  rw [← holds.slots, List.getElem?_map] at there
  obtain ⟨b, found, same⟩ := Option.map_eq_some_iff.mp there
  exact ⟨b, found, same⟩

theorem keeps_envVal (there : scope[slot]? = some .value) :
    Keeps extra scope n Free (envVal slot) (envVal (extra.up slot)) := by
  intro st st' holds beside
  obtain ⟨b, found, same⟩ := holds.bound there
  cases b with
  | pat id => cases same
  | val v =>
      have ran : envVal slot st = .ok (v, st) := by rw [envVal, found]
      have ran' : envVal (extra.up slot) st' = .ok (v, st') := by
        rw [envVal, beside.wide.getElem?, found]
      exact ⟨v, st, st', ran, ran', holds.free _ (List.mem_of_getElem? found), holds,
        rfl, unmoved_refl st, beside⟩

theorem keeps_envPat (there : scope[slot]? = some .pattern) :
    Keeps extra scope n (fun _ => True) (envPat slot) (envPat (extra.up slot)) := by
  intro st st' holds beside
  obtain ⟨b, found, same⟩ := holds.bound there
  cases b with
  | val v => cases same
  | pat id =>
      have ran : envPat slot st = .ok (id, st) := by rw [envPat, found]
      have ran' : envPat (extra.up slot) st' = .ok (id, st') := by
        rw [envPat, beside.wide.getElem?, found]
      exact ⟨id, st, st', ran, ran', trivial, holds, rfl, unmoved_refl st, beside⟩

theorem keeps_envSet {b : Binding} (there : scope[slot]? = some b.slot)
    (free : Free b.value) (above : n ≤ slot) :
    Keeps extra scope n (fun _ => True) (envSet slot b) (envSet (extra.up slot) b) := by
  intro st st' holds beside
  obtain ⟨b', found, same⟩ := holds.bound there
  have found' := found
  rw [← beside.wide.getElem?] at found'
  obtain ⟨inside, is⟩ := List.getElem?_eq_some_iff.mp found
  have ran : envSet slot b st = .ok ((), { st with env := st.env.set slot b }) :=
    if_pos inside
  have ran' : envSet (extra.up slot) b st' =
      .ok ((), { st' with env := st'.env.set (extra.up slot) b }) :=
    if_pos (List.getElem?_eq_some_iff.mp found').1
  refine ⟨(), _, _, ran, ran', trivial, ⟨?_, ?_⟩, List.take_set_of_le above,
    fun _ => rfl, beside.wide.set slot b, ?_⟩
  · rw [← holds.slots]
    change (st.env.set slot b).map Binding.slot = _
    rw [List.map_set, ← same, ← is, ← List.map_set, List.set_getElem_self]
  · intro c member
    rcases List.mem_or_eq_of_mem_set member with old | rfl
    · exact holds.free c old
    · exact free
  · rw [beside.rest]

theorem keeps_bindVal {v : Option Value} (there : scope[slot]? = some .value)
    (free : Free v) (above : n ≤ slot) :
    Keeps extra scope n (fun _ => True) (bindVal slot v) (bindVal (extra.up slot) v) :=
  keeps_envSet there free above

theorem Holds.push {st : St} (holds : Holds scope st) {bs : List Binding}
    (free : ∀ b ∈ bs, Free b.value) :
    Holds (scope ++ bs.map Binding.slot) { st with env := st.env ++ bs } where
  slots := by rw [List.map_append, holds.slots]
  free b member := (List.mem_append.mp member).elim (holds.free b) (free b)

theorem after_restored {st st' t t' : St} (holds : Holds scope st)
    (beside : Beside extra st st')
    (same : t.env.take scope.length = st.env.take scope.length)
    (unmoved : Unmoved st t) (beside' : Beside extra t t') :
    After extra scope scope.length st { t with env := t.env.take scope.length }
      { t' with env := t'.env.take (extra.up scope.length) } := by
  have restored : t.env.take scope.length = st.env := by
    rw [same, ← holds.length, List.take_length]
  have inside : ∀ below b, extra = some (below, b) → below ≤ scope.length := by
    rintro below b rfl
    rw [← holds.length]
    exact beside.wide.below_le
  exact {
    holds := ⟨restored ▸ holds.slots, restored ▸ holds.free⟩
    frame := congrArg (List.take scope.length) restored
    unmoved := unmoved.trans fun _ => rfl
    beside := ⟨beside'.wide.take inside, by rw [beside'.rest]⟩ }

end

/-! ## Loops -/

section

variable {extra : Extra} {scope more : List Slot} {n : Nat}

theorem keeps_quantifyFrom {mode : Mode} {item item' : Nat → M Bool}
    (items : ∀ k, Keeps extra scope n (fun _ => True) (item k) (item' k))
    (left k count : Nat) :
    Keeps extra scope n Free (quantifyFrom mode item left k count)
      (quantifyFrom mode item' left k count) := by
  induction left generalizing k count with
  | zero => exact keeps_outcome _ _
  | succ left ih =>
      apply keeps_bind keeps_outOfSteps
      intro out _
      cases out with
      | true => exact keeps_pure each_none
      | false =>
          apply keeps_bind (items k)
          intro b _
          dsimp only
          cases mode.settles b (if b then count + 1 else count) with
          | none => exact ih _ _
          | some r => exact keeps_done (.bool r)

/-- A loop is its quantifier between its slots pushed and taken off. -/
theorem loop_ran {base : Nat} {slots : List Binding} {mode : Nat → M (Option Mode)}
    {count : Nat} {bind : Nat → M Unit} {body : M Bool} {st t : St}
    {r : Option Value}
    (ran : quantify mode count (fun k => do bind k; body)
      { st with env := st.env ++ slots } = .ok (r, t)) :
    loop base slots mode count bind body st =
      .ok (r, { t with env := t.env.take base }) := by
  have pushed : envPush slots st = .ok ((), { st with env := st.env ++ slots }) := rfl
  rw [loop, bind_eq pushed, bind_eq ran]
  rfl

theorem keeps_loop {mode mode' : Nat → M (Option Mode)} {slots : List Binding}
    {bind bind' : Nat → M Unit} {body body' : M Bool} (count : Nat)
    (new : slots.map Binding.slot = more) (free : ∀ b ∈ slots, Free b.value)
    (word : ∀ n, ∃ mo, mode n = done mo ∧ mode' n = done mo)
    (binds : ∀ k, Keeps extra (scope ++ more) scope.length (fun _ => True) (bind k)
      (bind' k))
    (keeps : Keeps extra (scope ++ more) (scope ++ more).length (fun _ => True) body
      body') :
    Keeps extra scope scope.length Free (loop scope.length slots mode count bind body)
      (loop (extra.up scope.length) slots mode' count bind' body') := by
  subst new
  intro st st' holds beside
  obtain ⟨mo, is, is'⟩ := word count
  have inner : scope.length ≤ (scope ++ slots.map Binding.slot).length := by
    rw [List.length_append]
    exact Nat.le_add_right _ _
  have items : ∀ k, Keeps extra (scope ++ slots.map Binding.slot) scope.length
      (fun _ => True) (do bind k; body) (do bind' k; body') :=
    fun k => keeps_bind (binds k) fun _ _ => keeps.frame inner
  have quantified : Keeps extra (scope ++ slots.map Binding.slot) scope.length Free
      (quantify mode count fun k => do bind k; body)
      (quantify mode' count fun k => do bind' k; body') := by
    rw [quantify, quantify, is, is']
    exact keeps_quantifyFrom items count 0 0
  obtain ⟨r, t, t', ran, ran', result, after⟩ :=
    quantified _ _ (holds.push free) (beside.push slots)
  have same : t.env.take scope.length = st.env.take scope.length := by
    rw [after.frame]
    exact List.take_append_of_le_length (Nat.le_of_eq holds.length.symm)
  have grown : Unmoved st { st with env := st.env ++ slots } := fun _ => rfl
  exact ⟨r, _, _, loop_ran ran, loop_ran ran', result,
    after_restored holds beside same (grown.trans after.unmoved) after.beside⟩

theorem keeps_forRange {lo lo' hi hi' : Eval} {mode mode' : Nat → M (Option Mode)}
    {body body' : M Bool}
    (keeps_lo : Keeps extra scope scope.length Free lo lo')
    (keeps_hi : Keeps extra scope scope.length Free hi hi')
    (word : ∀ n, ∃ mo, mode n = done mo ∧ mode' n = done mo)
    (keeps : Keeps extra (scope ++ [Slot.value]) (scope ++ [Slot.value]).length
      (fun _ => True) body body') :
    Keeps extra scope scope.length Free (forRange scope.length lo hi mode body)
      (forRange (extra.up scope.length) lo' hi' mode' body') := by
  apply keeps_bind (keeps_evalInt keeps_lo)
  intro lo _
  apply keeps_bind (keeps_evalInt keeps_hi)
  intro hi _
  cases lo with
  | none => exact keeps_done (.bool false)
  | some lo =>
      cases hi with
      | none => exact keeps_done (.bool false)
      | some hi =>
          dsimp only
          split
          · exact keeps_done (.bool false)
          · apply keeps_loop _ rfl _ word _ keeps
            · exact fun b member => List.mem_singleton.mp member ▸ each_none
            · exact fun k => keeps_bindVal List.getElem?_concat_length
                (each_some (.int _)) (Nat.le_refl _)

theorem keeps_forCollection {e e' : Eval} {mode mode' : Nat → M (Option Mode)}
    {body body' : M Bool} (keeps_e : Keeps extra scope scope.length Free e e')
    (word : ∀ n, ∃ mo, mode n = done mo ∧ mode' n = done mo)
    (keeps : Keeps extra (scope ++ [Slot.value]) (scope ++ [Slot.value]).length
      (fun _ => True) body body') :
    Keeps extra scope scope.length Free (forCollection scope.length e mode body)
      (forCollection (extra.up scope.length) e' mode' body') := by
  apply keeps_bind keeps_e
  intro v free
  split
  · rename_i items
    split
    · exact keeps_done (.bool false)
    · apply keeps_loop _ rfl _ word _ keeps
      · exact fun b member => List.mem_singleton.mp member ▸ each_none
      · intro k
        apply keeps_bindVal List.getElem?_concat_length _ (Nat.le_refl _)
        intro w is
        cases free _ rfl with
        | array all => exact all w (List.mem_of_getElem? is)
  · cases free _ rfl
  · exact keeps_done (.bool false)

theorem keeps_forOf {mode mode' : Nat → M (Option Mode)} {body body' : M Bool}
    (patterns : List Nat) (word : ∀ n, ∃ mo, mode n = done mo ∧ mode' n = done mo)
    (keeps : Keeps extra (scope ++ [Slot.pattern]) (scope ++ [Slot.pattern]).length
      (fun _ => True) body body') :
    Keeps extra scope scope.length Free (forOf scope.length patterns mode body)
      (forOf (extra.up scope.length) patterns mode' body') := by
  apply keeps_loop _ rfl _ word _ keeps
  · exact fun b member => List.mem_singleton.mp member ▸ each_none
  · exact fun k => keeps_envSet List.getElem?_concat_length each_none (Nat.le_refl _)

/-- Declarations beside one another, each with a slot more in scope. -/
inductive KeepsDecls (extra : Extra) : List Slot → List Eval → List Eval → Prop where
  | nil (scope : List Slot) : KeepsDecls extra scope [] []
  | cons {scope : List Slot} {e e' : Eval} {es es' : List Eval}
      (head : Keeps extra scope scope.length Free e e')
      (tail : KeepsDecls extra (scope ++ [.value]) es es') :
      KeepsDecls extra scope (e :: es) (e' :: es')

theorem keeps_pushDecls {es es' : List Eval} (decls : KeepsDecls extra scope es es')
    {st st' : St} (holds : Holds scope st) (beside : Beside extra st st') :
    ∃ t t', pushDecls es st = .ok ((), t) ∧ pushDecls es' st' = .ok ((), t') ∧
      After extra (scope ++ List.replicate es.length .value) scope.length st t t' := by
  induction decls generalizing st st' with
  | nil scope =>
      exact ⟨st, st', rfl, rfl, (List.append_nil scope).symm ▸ holds, rfl,
        unmoved_refl st, beside⟩
  | @cons scope e e' es es' head _ ih =>
      obtain ⟨v, s, s', ran, ran', free, after⟩ := head st st' holds beside
      have pushed := @Holds.push _ _ after.holds [.val v]
        (fun b member => List.mem_singleton.mp member ▸ free)
      have grown : Unmoved s { s with env := s.env ++ [.val v] } := fun _ => rfl
      obtain ⟨t, t', rest, rest', last⟩ :=
        ih pushed (after.beside.push [.val v])
      have inside : scope.length ≤ (scope ++ [Slot.value]).length := by
        rw [List.length_append]
        exact Nat.le_add_right _ _
      have kept := congrArg (List.take scope.length) last.frame
      rw [List.take_take, List.take_take, Nat.min_eq_left inside] at kept
      refine ⟨t, t', (bind_eq ran _).trans rest, (bind_eq ran' _).trans rest', ?_, ?_,
        after.unmoved.trans (grown.trans last.unmoved), last.beside⟩
      · have holds_t := last.holds
        rwa [List.append_assoc] at holds_t
      · rw [kept, ← after.frame]
        exact List.take_append_of_le_length (Nat.le_of_eq after.holds.length.symm)

theorem keeps_with {es es' : List Eval} {body body' : Eval} {k : Nat}
    (decls : KeepsDecls extra scope es es') (same : es.length = k)
    (keeps : Keeps extra (scope ++ List.replicate k Slot.value)
      (scope ++ List.replicate k Slot.value).length Free body body') :
    Keeps extra scope scope.length Free (evalWith scope.length es body)
      (evalWith (extra.up scope.length) es' body') := by
  subst same
  intro st st' holds beside
  obtain ⟨s, s', pushed, pushed', after⟩ := keeps_pushDecls decls holds beside
  have inner : scope.length ≤
      (scope ++ List.replicate es.length Slot.value).length := by
    rw [List.length_append]
    exact Nat.le_add_right _ _
  obtain ⟨r, t, t', ran, ran', result, last⟩ :=
    keeps.frame inner s s' after.holds after.beside
  exact ⟨r, _, _, (bind_eq pushed _).trans (bind_eq ran _),
    (bind_eq pushed' _).trans (bind_eq ran' _), result,
    after_restored holds beside (last.frame.trans after.frame)
      (after.unmoved.trans last.unmoved) last.beside⟩

end

/-! ## Module values -/

section

variable {extra : Extra} {scope : List Slot} {n : Nat}

theorem free_atField {name : String} {v : Value} (free : MapFree v) :
    Free (atField name v) := by
  cases free with
  | struct all => exact all name
  | _ => exact each_none

theorem free_atIndex {items : List Value} (all : ∀ v ∈ items, MapFree v) (i : Int64) :
    Free (atIndex items i) := by
  unfold atIndex
  split
  · exact each_none
  · exact fun v is => all v (List.mem_of_getElem? is)

theorem keeps_stepIndex {e e' : Eval} (keeps : Keeps extra scope n Free e e')
    {v : Value} (free : MapFree v) : Keeps extra scope n Free (stepIndex e v) (stepIndex e' v) := by
  cases free with
  | array all =>
      exact keeps_known (keeps_evalInt keeps) fun i _ => keeps_pure (free_atIndex all i)
  | _ => exact keeps_pure each_none

end

end Exav.Yara.Ir
