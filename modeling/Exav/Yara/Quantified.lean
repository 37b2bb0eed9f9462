import Exav.Yara.Deeper

/-!
# Two spellings of a quantifier

`Q of S` counts what is there and compares once; `for Q of S` goes from item to
item and stops as soon as it can.  They are the same for all, any and none, and
for a count above zero.
-/

namespace Exav.Yara.Ir

/-! ## Counting and going on -/

/-- What a loop comes to over items that are known. -/
def Mode.loopHolds (mode : Mode) : List Bool → (countTrue : Nat) → Bool
  | [], _ => mode.atEnd
  | b :: bs, countTrue =>
      let countTrue := if b then countTrue + 1 else countTrue
      (mode.settles b countTrue).getD (mode.loopHolds bs countTrue)

namespace Mode

theorem loopHolds_all (bs : List Bool) (n : Nat) :
    loopHolds .all bs n = bs.all id := by
  induction bs generalizing n with
  | nil => rfl
  | cons b bs ih =>
      cases b with
      | true => exact ih (n + 1)
      | false => rfl

theorem loopHolds_any (bs : List Bool) (n : Nat) :
    loopHolds .any bs n = bs.any id := by
  induction bs generalizing n with
  | nil => rfl
  | cons b bs ih =>
      cases b with
      | true => rfl
      | false => exact ih n

theorem loopHolds_none (bs : List Bool) (n : Nat) :
    loopHolds .none bs n = !bs.any id := by
  induction bs generalizing n with
  | nil => rfl
  | cons b bs ih =>
      cases b with
      | true => rfl
      | false => exact ih n

theorem toInt_ne_zero {mx : Int64} : (mx != 0) = !(mx == 0) := rfl

theorem beq_zero_iff {mx : Int64} : (mx == 0) = decide (mx.toInt = 0) := by
  rw [Bool.eq_iff_iff, beq_iff_eq, decide_eq_true_iff, ← Int64.toInt_inj]
  rfl

theorem loopHolds_count {mx : Int64} {bs : List Bool} {n : Nat}
    (below : (n : Int) < mx.toInt) :
    loopHolds (.count mx) bs n = decide (mx.toInt ≤ n + bs.count true) := by
  have positive : mx.toInt ≠ 0 := by omega
  induction bs generalizing n with
  | nil =>
      change (mx == 0) = _
      rw [beq_zero_iff, decide_eq_false positive, eq_comm, decide_eq_false_iff_not]
      simpa using below
  | cons b bs ih =>
      cases b with
      | false =>
          have same : (false :: bs).count true = bs.count true := by simp
          rw [same]
          exact ih below
      | true =>
          have more : (true :: bs).count true = bs.count true + 1 := by simp
          rw [more, loopHolds]
          simp only [settles, true_and, if_true]
          split
          · rename_i reached
            rw [Option.getD_some, toInt_ne_zero, beq_zero_iff, decide_eq_false positive]
            simp only [Bool.not_false]
            rw [eq_comm, decide_eq_true_iff]
            omega
          · rename_i short
            rw [Option.getD_none, ih (by omega)]
            congr 1
            rw [eq_iff_iff]
            omega

/-- A count of zero or less is reached by the first item that is true. -/
theorem loopHolds_low {mx : Int64} {bs : List Bool} {n : Nat} (low : mx.toInt ≤ 0) :
    loopHolds (.count mx) bs n = if bs.any id then mx != 0 else mx == 0 := by
  induction bs generalizing n with
  | nil => rfl
  | cons b bs ih =>
      cases b with
      | false => exact ih
      | true =>
          rw [loopHolds]
          simp only [settles, true_and, if_true]
          rw [if_pos (by omega)]
          rfl

/-- When the two come to the same over items of which so many are true. -/
def Agrees : Mode → (hits : Nat) → Prop
  | .all, _ | .any, _ | .none, _ => True
  | .count mx, hits =>
      0 < mx.toInt ∨ (mx.toInt = 0 ∧ hits = 0) ∨ (mx.toInt < 0 ∧ 0 < hits)

theorem any_eq_count (bs : List Bool) : bs.any id = decide (0 < bs.count true) := by
  rw [Bool.eq_iff_iff, List.any_eq_true, decide_eq_true_iff, List.count_pos_iff]
  simp

theorem all_eq_count (bs : List Bool) :
    bs.all id = decide (bs.length ≤ bs.count true) := by
  rw [Bool.eq_iff_iff, List.all_eq_true, decide_eq_true_iff]
  have most : bs.count true ≤ bs.length := List.count_le_length
  constructor
  · intro all
    have every : ∀ b ∈ bs, true = b := fun b there => (all b there).symm
    exact (List.count_eq_length.mpr every).ge
  · intro enough b there
    exact (List.count_eq_length.mp (le_antisymm most enough) b there).symm

theorem agrees_iff (mode : Mode) (bs : List Bool) :
    (mode.ofHolds bs.length (bs.count true) = true ↔ mode.loopHolds bs 0 = true) ↔
      mode.Agrees (bs.count true) := by
  cases mode with
  | all =>
      rw [loopHolds_all, all_eq_count]
      exact iff_true_intro Iff.rfl
  | any =>
      rw [loopHolds_any, any_eq_count]
      exact iff_true_intro Iff.rfl
  | none =>
      rw [loopHolds_none, any_eq_count]
      refine iff_true_intro ?_
      simp [ofHolds, Nat.pos_iff_ne_zero]
  | count mx =>
      change (decide (mx.toInt ≤ (bs.count true : Nat)) = true ↔ _) ↔ _
      rw [decide_eq_true_iff, Agrees]
      rcases Int.lt_or_le 0 mx.toInt with above | low
      · rw [loopHolds_count (by simpa using above), decide_eq_true_iff]
        simp [above]
      · rw [loopHolds_low low, any_eq_count]
        have reached : mx.toInt ≤ (bs.count true : Nat) := by omega
        simp only [reached, true_iff, toInt_ne_zero, beq_zero_iff]
        by_cases some_true : 0 < bs.count true
        · simp only [some_true, decide_true, if_true]
          simp
          omega
        · simp only [some_true, decide_false, Bool.false_eq_true, if_false]
          simp
          omega

theorem loopHolds_false {mode : Mode} {bs : List Bool} (items : bs ≠ [])
    (all : bs.any id = false) : mode.loopHolds bs 0 = mode.isNone := by
  cases mode with
  | all =>
      rw [loopHolds_all, all_eq_count]
      rw [any_eq_count, decide_eq_false_iff_not] at all
      have nonempty := List.length_pos_iff.mpr items
      exact decide_eq_false (by omega)
  | any => rw [loopHolds_any, all]; rfl
  | none => rw [loopHolds_none, all]; rfl
  | count mx =>
      rcases Int.lt_or_le 0 mx.toInt with above | low
      · rw [any_eq_count, decide_eq_false_iff_not] at all
        rw [loopHolds_count (by simpa using above), isNone, beq_zero_iff]
        rw [decide_eq_false (by omega), decide_eq_false (by omega)]
      · rw [loopHolds_low low, all]
        rfl

end Mode

/-! ## Evaluation without a limit -/

section

variable {st : St}

theorem charged_unlimited (unlimited : st.Unlimited) (e : Eval) :
    charged e st = e st := by
  obtain ⟨env, steps, cut, turned⟩ := st
  obtain ⟨rfl, rfl⟩ := unlimited
  rfl

theorem outcome_unlimited (unlimited : st.Unlimited) (turns r : Bool) :
    outcome turns r st = .ok (some (.bool r), st) := by
  obtain ⟨env, steps, cut, turned⟩ := st
  obtain ⟨rfl, rfl⟩ := unlimited
  cases turned <;> rfl

theorem outOfSteps_unlimited (unlimited : st.Unlimited) :
    outOfSteps st = .ok (false, st) := by
  obtain ⟨env, steps, cut, turned⟩ := st
  obtain ⟨rfl, rfl⟩ := unlimited
  rfl

/-- The state with a slot more on top. -/
def St.bound (st : St) (b : Binding) : St := { st with env := st.env ++ [b] }

theorem St.Unlimited.bound (unlimited : st.Unlimited) (b : Binding) :
    (st.bound b).Unlimited :=
  ⟨unlimited.steps, unlimited.whole⟩

theorem Holds.beside_bound {scope : List Slot} (holds : Holds scope st) (b : Binding) :
    Beside (some (scope.length, b)) st (st.bound b) := by
  refine ⟨?_, rfl⟩
  have wide := Widened.extra st.env [] b
  rwa [List.append_nil, holds.length] at wide

/-- Without a limit the states are left as they were. -/
theorem Keeps.still {α : Type} {extra : Extra} {scope : List Slot} {Q : α → Prop}
    {m m' : M α} (keeps : Keeps extra scope scope.length Q m m') {st' : St}
    (holds : Holds scope st) (beside : Beside extra st st')
    (unlimited : st.Unlimited) :
    ∃ a, m st = .ok (a, st) ∧ m' st' = .ok (a, st') := by
  obtain ⟨a, t, t', ran, ran', -, after⟩ := keeps st st' holds beside
  have same : t = st := by
    rw [after.unmoved unlimited, after.restores holds]
  subst same
  have same' : t' = st' := by
    rw [after.beside.rest, beside.rest, after.beside.wide.unique beside.wide]
  subst same'
  exact ⟨a, ran, ran'⟩

/-! ## What is present -/

/-- Whether each of the patterns is there. -/
def presence (lists : Nat → List Match) (place : Option Place) (ids : List Nat) :
    List Bool :=
  ids.map fun id => place.any fun p => present (lists id) p

theorem countPresent_known {lists : Nat → List Match} {anchor : M (Option Place)}
    {p : Place} (anchored : anchor st = .ok (some p, st)) (ids : List Nat) (n : Nat) :
    countPresent lists anchor ids n st =
      .ok (some (n + (presence lists (some p) ids).count true), st) := by
  induction ids generalizing n with
  | nil => rfl
  | cons id ids ih =>
      rw [countPresent, known, bind_eq anchored]
      refine (ih _).trans ?_
      change _ = Except.ok (some (n +
        (present (lists id) p :: presence lists (some p) ids).count true), st)
      cases present (lists id) p with
      | true =>
          rw [if_pos rfl, List.count_cons_self, Nat.add_right_comm]
          rfl
      | false =>
          rw [if_neg Bool.false_ne_true, List.count_cons_of_ne Bool.false_ne_true]

theorem countTrue_known {es : List Eval} {vs : List (Option Value)}
    (all : List.Forall₂ (fun e v => e st = .ok (v, st)) es vs) (n : Nat) :
    countTrue es n st = .ok (n + (vs.map truthy).count true, st) := by
  induction all generalizing n with
  | nil => rfl
  | @cons e v es vs head _ ih =>
      rw [countTrue, bind_eq head]
      refine (ih _).trans ?_
      rw [List.map_cons]
      cases truthy v with
      | true => rw [if_pos rfl, List.count_cons_self, Nat.add_right_comm, Nat.add_assoc]
      | false =>
          rw [if_neg Bool.false_ne_true, List.count_cons_of_ne Bool.false_ne_true]

/-- An `of` expression compares what was counted. -/
theorem evalOf_known (unlimited : st.Unlimited) {counted : M (Option Nat)}
    {mode : M (Option Mode)} {total n : Nat} {mo : Mode}
    (counts : counted st = .ok (some n, st)) (resolves : mode st = .ok (some mo, st)) :
    evalOf counted total mode st = .ok (some (.bool (mo.ofHolds total n)), st) := by
  rw [evalOf, known, bind_eq counts]
  change known mode _ st = _
  rw [known, bind_eq resolves]
  exact outcome_unlimited unlimited _ _

/-- A loop over items that are known goes on until it is settled. -/
theorem quantifyFrom_known {mode : Mode} {item : Nat → M Bool} {J : St → Prop}
    (unlimited : ∀ s, J s → s.Unlimited) {bs : List Bool} {k n : Nat}
    (items : ∀ i b, bs[i]? = some b → ∀ s, J s →
      ∃ t, item (k + i) s = .ok (b, t) ∧ J t) {s : St} (start : J s) :
    ∃ t, quantifyFrom mode item bs.length k n s =
      .ok (some (.bool (mode.loopHolds bs n)), t) ∧ J t := by
  induction bs generalizing k n s with
  | nil => exact ⟨s, outcome_unlimited (unlimited s start) _ _, start⟩
  | cons b bs ih =>
      obtain ⟨t, ran, kept⟩ := items 0 b rfl s start
      rw [Nat.add_zero] at ran
      have later : ∀ i b, bs[i]? = some b → ∀ s, J s →
          ∃ t, item (k + 1 + i) s = .ok (b, t) ∧ J t := by
        intro i b there s start
        rw [Nat.add_right_comm]
        exact items (i + 1) b there s start
      rw [List.length_cons, quantifyFrom,
        bind_eq (outOfSteps_unlimited (unlimited s start)), if_neg Bool.false_ne_true,
        bind_eq ran, Mode.loopHolds]
      cases mode.settles b (if b then n + 1 else n) with
      | none => exact ih later kept
      | some r => exact ⟨t, rfl, kept⟩

end

/-! ## The two spellings -/

def ComesTrue (ran : Except Fault (Option Value × St)) : Prop :=
  ∃ v t, ran = .ok (v, t) ∧ truthy v = true

theorem comesTrue_bool {ran : Except Fault (Option Value × St)} {b : Bool} {t : St}
    (is : ran = .ok (some (.bool b), t)) : ComesTrue ran ↔ b = true := by
  constructor
  · rintro ⟨v, t', is', holds⟩
    rw [is] at is'
    cases is'
    exact holds
  · exact fun holds => ⟨_, t, is, holds⟩

theorem not_comesTrue {ran : Except Fault (Option Value × St)} {t : St}
    (is : ran = .ok (none, t)) : ¬ ComesTrue ran := by
  rintro ⟨v, t', is', holds⟩
  rw [is] at is'
  cases is'
  cases holds

section

variable {ctx : EvalCtx} {scope : List Slot} {st : St}

theorem loop_known {b : Binding} {mode : Nat → M (Option Mode)} {mo : Mode}
    {bind : Nat → M Unit} {body : M Bool} {bs : List Bool}
    (holds : Holds scope st) (unlimited : st.Unlimited)
    (resolves : mode bs.length (st.bound b) = .ok (some mo, st.bound b))
    (items : ∀ i r, bs[i]? = some r → ∀ b, ∃ b',
      (do bind i; body) (st.bound b) = .ok (r, st.bound b')) :
    loop scope.length [b] mode bs.length bind body st =
      .ok (some (.bool (mo.loopHolds bs 0)), st) := by
  have each : ∀ i r, bs[i]? = some r → ∀ s, (∃ b, s = st.bound b) →
      ∃ t, (do bind (0 + i); body) s = .ok (r, t) ∧ ∃ b, t = st.bound b := by
    rintro i r there s ⟨b, rfl⟩
    obtain ⟨b', ran⟩ := items i r there b
    rw [Nat.zero_add]
    exact ⟨_, ran, b', rfl⟩
  have without : ∀ s, (∃ b, s = st.bound b) → s.Unlimited := by
    rintro s ⟨b, rfl⟩
    exact unlimited.bound b
  obtain ⟨t, ran, b', rfl⟩ :=
    @quantifyFrom_known mo (fun k => do bind k; body) (fun s => ∃ b, s = st.bound b)
      without bs 0 0 each _ ⟨b, rfl⟩
  have quantified : quantify mode bs.length (fun k => do bind k; body) (st.bound b) =
      .ok (some (.bool (mo.loopHolds bs 0)), st.bound b') :=
    (bind_eq resolves _).trans ran
  have ended : ({ st.bound b' with env := (st.bound b').env.take scope.length } : St) =
      st := by
    rw [St.bound, ← holds.length, List.take_left]
  exact (loop_ran quantified).trans (by rw [ended])

theorem loop_undefined {b : Binding} {mode : Nat → M (Option Mode)} {n : Nat}
    {bind : Nat → M Unit} {body : M Bool} (holds : Holds scope st)
    (resolves : mode n (st.bound b) = .ok (none, st.bound b)) :
    loop scope.length [b] mode n bind body st = .ok (none, st) := by
  have quantified : quantify mode n (fun k => do bind k; body) (st.bound b) =
      .ok (none, st.bound b) := bind_eq resolves _
  have ended : ({ st.bound b with env := (st.bound b).env.take scope.length } : St) =
      st := by
    rw [St.bound, ← holds.length, List.take_left]
  exact (loop_ran quantified).trans (by rw [ended])

/-- A quantifier that binds nothing is the same with a slot on top. -/
theorem resolve_bound (free : ctx.Free) {quant : Quant}
    (within : ScopedQuant quant scope) (plain : PlainQuant False quant) (holds : Holds scope st)
    (unlimited : st.Unlimited) (n : Nat) (b : Binding) :
    ∃ mode, resolve ctx quant n st = .ok (mode, st) ∧
      resolve ctx quant n (st.bound b) = .ok (mode, st.bound b) := by
  have beside := holds.beside_bound b
  have kept := (deeper_resolve free quant within plain n).still holds beside unlimited
  change ∃ mode, _ ∧
    resolve ctx (deeperQuant (raise scope.length) quant) n _ = _ at kept
  rwa [quant_fixed quant (fixed_top scope) within plain] at kept

theorem eval_bound (free : ctx.Free) {e : Cond} (within : Scoped e scope)
    (plain : PlainIf False e) (holds : Holds scope st) (unlimited : st.Unlimited)
    (b : Binding) :
    ∃ v, eval ctx e st = .ok (v, st) ∧
      eval ctx e (st.bound b) = .ok (v, st.bound b) := by
  have beside := holds.beside_bound b
  have kept := (deeper_eval free e within plain).still holds beside unlimited
  change ∃ v, _ ∧ eval ctx (deeper (raise scope.length) e) _ = _ at kept
  rwa [deeper_fixed e (fixed_top scope) within plain] at kept

theorem anchor_bound (free : ctx.Free) {anchor : Anchor} {binders : Prop}
    (within : ScopedAnchor anchor scope) (plain : PlainAnchor binders anchor)
    (holds : Holds scope st) (unlimited : st.Unlimited) (b : Binding) :
    ∃ place, evalAnchor ctx anchor st = .ok (place, st) ∧
      evalAnchor ctx (deeperAnchor (raise scope.length) anchor) (st.bound b) =
        .ok (place, st.bound b) :=
  (deeper_anchor free anchor within plain).still holds (holds.beside_bound b) unlimited

/-- When the two spellings come to the same, with a quantifier that is this, a place
to look at that is known, and so many items that are true. -/
def SpellingsAgree (mode : Option Mode) (placed : Prop) (hits : Nat) : Prop :=
  ∀ mo, mode = some mo → (placed → mo.Agrees hits) ∧ (¬ placed → mo.isNone = false)

theorem envSet_bound (holds : Holds scope st) (b c : Binding) :
    envSet scope.length c (st.bound b) = .ok ((), st.bound c) := by
  have there : scope.length < (st.bound b).env.length := by
    rw [St.bound, List.length_append, holds.length]
    exact Nat.lt_succ_self _
  rw [envSet, if_pos there]
  simp [St.bound, ← holds.length]

theorem getElem?_bound (holds : Holds scope st) (b : Binding) :
    (st.bound b).env[scope.length]? = some b := by
  rw [← holds.length]
  exact List.getElem?_concat_length

theorem evalBool_ran {e : Eval} {s t : St} {v : Option Value}
    (ran : e s = .ok (v, t)) : evalBool e s = .ok (truthy v, t) :=
  bind_eq ran _

theorem patternVar_bound (free : ctx.Free) {anchor : Anchor} {binders : Prop}
    (within : ScopedAnchor anchor scope) (plain : PlainAnchor binders anchor)
    (holds : Holds scope st) (unlimited : st.Unlimited) {place : Option Place}
    (anchored : evalAnchor ctx anchor st = .ok (place, st)) (id : Nat) :
    evalBool (eval ctx (.patternVar scope.length
        (deeperAnchor (raise scope.length) anchor))) (st.bound (.pat id)) =
      .ok (place.any fun p => present (ctx.matchLists id) p, st.bound (.pat id)) := by
  obtain ⟨place', first, second⟩ :=
    anchor_bound free within plain holds unlimited (.pat id)
  rw [anchored] at first
  cases first
  have found : envPat scope.length (st.bound (.pat id)) =
      .ok (id, st.bound (.pat id)) := by
    rw [envPat, getElem?_bound holds]
  have ran : eval ctx (.patternVar scope.length
      (deeperAnchor (raise scope.length) anchor)) (st.bound (.pat id)) =
        .ok (place.map fun p => .bool (present (ctx.matchLists id) p),
          st.bound (.pat id)) := by
    rw [eval, charged_unlimited (unlimited.bound _), bind_eq found]
    cases place with
    | none => exact bind_eq second _
    | some p => exact bind_eq second _
  rw [evalBool_ran ran]
  cases place with
  | none => rfl
  | some p => rfl

theorem forOf_known (free : ctx.Free) {anchor : Anchor} {binders : Prop}
    (within : ScopedAnchor anchor scope) (plain : PlainAnchor binders anchor)
    (holds : Holds scope st) (unlimited : st.Unlimited) {place : Option Place}
    (anchored : evalAnchor ctx anchor st = .ok (place, st)) {quant : Quant}
    {ids : List Nat} {mo : Mode}
    (resolves : resolve ctx quant ids.length (st.bound (.pat 0)) =
      .ok (some mo, st.bound (.pat 0))) :
    eval ctx (.forOf quant ids scope.length (.patternVar scope.length
        (deeperAnchor (raise scope.length) anchor))) st =
      .ok (some (.bool (mo.loopHolds (presence ctx.matchLists place ids) 0)), st) := by
  rw [eval, charged_unlimited unlimited, forOf]
  have same : (presence ctx.matchLists place ids).length = ids.length :=
    List.length_map _
  rw [← same] at resolves ⊢
  apply loop_known holds unlimited resolves
  intro i r there b
  rw [presence, List.getElem?_map] at there
  obtain ⟨id, is, rfl⟩ := Option.map_eq_some_iff.mp there
  refine ⟨.pat id, ?_⟩
  have set_id := envSet_bound holds b (.pat (ids.getD i 0))
  rw [List.getD_eq_getElem?_getD, is] at set_id ⊢
  exact (bind_eq set_id _).trans
    (patternVar_bound free within plain holds unlimited anchored id)

/-- `Q of S` with an anchor that is known. -/
theorem ofPatterns_known (unlimited : st.Unlimited) {anchor : Anchor} {quant : Quant}
    {ids : List Nat} {mo : Mode} {place : Option Place}
    (resolves : resolve ctx quant ids.length st = .ok (some mo, st))
    (anchored : evalAnchor ctx anchor st = .ok (place, st))
    (placed : ids = [] ∨ place.isSome) :
    eval ctx (.ofPatterns quant ids anchor) st = .ok (some (.bool (mo.ofHolds
      ids.length ((presence ctx.matchLists place ids).count true))), st) := by
  rw [eval, charged_unlimited unlimited]
  apply evalOf_known unlimited _ resolves
  rcases placed with rfl | known_place
  · rfl
  · obtain ⟨p, rfl⟩ := Option.isSome_iff_exists.mp known_place
    rw [countPresent_known anchored, Nat.zero_add]

/-- `Q of S` with an undefined anchor. -/
theorem ofPatterns_undefined (unlimited : st.Unlimited) {anchor : Anchor}
    {quant : Quant} {ids : List Nat} (some_ids : ids ≠ [])
    (anchored : evalAnchor ctx anchor st = .ok (none, st)) :
    eval ctx (.ofPatterns quant ids anchor) st = .ok (none, st) := by
  obtain ⟨id, ids, rfl⟩ := List.exists_cons_of_ne_nil some_ids
  rw [eval, charged_unlimited unlimited]
  have counted : countPresent ctx.matchLists (evalAnchor ctx anchor) (id :: ids) 0 st =
      .ok (none, st) := bind_eq anchored _
  exact bind_eq counted _

theorem evalOf_noMode {counted : M (Option Nat)} {mode : M (Option Mode)} {total : Nat}
    {c : Option Nat} (counts : counted st = .ok (c, st))
    (resolves : mode st = .ok (none, st)) :
    evalOf counted total mode st = .ok (none, st) := by
  rw [evalOf, known, bind_eq counts]
  cases c with
  | none => rfl
  | some n => exact bind_eq resolves _

theorem countPresent_ran {lists : Nat → List Match} {anchor : M (Option Place)}
    {place : Option Place} (anchored : anchor st = .ok (place, st)) (ids : List Nat) :
    ∃ c, countPresent lists anchor ids 0 st = .ok (c, st) := by
  cases place with
  | some p => exact ⟨_, countPresent_known anchored ids 0⟩
  | none =>
      cases ids with
      | nil => exact ⟨_, rfl⟩
      | cons id ids => exact ⟨none, bind_eq anchored _⟩

theorem presence_undefined (lists : Nat → List Match) (ids : List Nat) :
    (presence lists none ids).any id = false := by
  rw [presence, List.any_map, List.any_eq_false]
  intro id there
  exact Bool.false_ne_true

/-- `Q of S` and `for Q of S : ($)`, with the same anchor or none. -/
theorem ofPatterns_agree (free : ctx.Free) {quant : Quant} {ids : List Nat}
    {anchor : Anchor} {binders : Prop} (of_quant : ScopedQuant quant scope)
    (plain_quant : PlainQuant False quant) (of_anchor : ScopedAnchor anchor scope)
    (plain_anchor : PlainAnchor binders anchor) (holds : Holds scope st)
    (unlimited : st.Unlimited) :
    ∃ mode place, resolve ctx quant ids.length st = .ok (mode, st) ∧
      evalAnchor ctx anchor st = .ok (place, st) ∧
      ((ComesTrue (eval ctx (.ofPatterns quant ids anchor) st) ↔
        ComesTrue (eval ctx (.forOf quant ids scope.length (.patternVar scope.length
          (deeperAnchor (raise scope.length) anchor))) st)) ↔
      SpellingsAgree mode (ids = [] ∨ place.isSome)
        ((presence ctx.matchLists place ids).count true)) := by
  obtain ⟨mode, resolves, resolves'⟩ :=
    resolve_bound free of_quant plain_quant holds unlimited ids.length (.pat 0)
  obtain ⟨place, anchored, -⟩ :=
    anchor_bound free of_anchor plain_anchor holds unlimited (.pat 0)
  refine ⟨mode, place, resolves, anchored, ?_⟩
  cases mode with
  | none =>
      obtain ⟨c, counted⟩ := @countPresent_ran _ ctx.matchLists _ _ anchored ids
      have of_undefined :
          eval ctx (.ofPatterns quant ids anchor) st = .ok (none, st) := by
        rw [eval, charged_unlimited unlimited]
        exact evalOf_noMode counted resolves
      have loop_stays : eval ctx (.forOf quant ids scope.length
          (.patternVar scope.length (deeperAnchor (raise scope.length) anchor))) st =
            .ok (none, st) := by
        rw [eval, charged_unlimited unlimited, forOf]
        exact loop_undefined holds resolves'
      exact iff_of_true
        (iff_of_false (not_comesTrue of_undefined) (not_comesTrue loop_stays))
        fun mo never => by cases never
  | some mo =>
      have looped := comesTrue_bool
        (forOf_known free of_anchor plain_anchor holds unlimited anchored resolves')
      rw [looped]
      have same : (presence ctx.matchLists place ids).length = ids.length :=
        List.length_map _
      by_cases placed : ids = [] ∨ place.isSome
      · rw [comesTrue_bool (ofPatterns_known unlimited resolves anchored placed),
          ← same, Mode.agrees_iff]
        constructor
        · rintro agrees mo ⟨⟩
          exact ⟨fun _ => agrees, fun never => absurd placed never⟩
        · exact fun agree => (agree mo rfl).1 placed
      · obtain ⟨some_ids, undefined⟩ := not_or.mp placed
        rw [Option.not_isSome_iff_eq_none] at undefined
        subst undefined
        have items : presence ctx.matchLists none ids ≠ [] := by
          rwa [← List.length_pos_iff, same, List.length_pos_iff]
        have not_of := not_comesTrue
          (@ofPatterns_undefined ctx st unlimited anchor quant ids some_ids anchored)
        rw [Mode.loopHolds_false items (presence_undefined _ _), iff_false_left not_of,
          Bool.not_eq_true]
        constructor
        · rintro wants_some mo ⟨⟩
          exact ⟨fun never => absurd never placed, fun _ => wants_some⟩
        · exact fun agree => (agree mo rfl).2 placed

/-! ## Expressions -/

theorem length_evalAll (ctx : EvalCtx) (cs : List Cond) :
    (evalAll ctx cs).length = cs.length := by
  induction cs with
  | nil => rfl
  | cons c cs ih => exact congrArg (· + 1) ih

/-- Expressions that bind nothing come to the same with a slot on top. -/
theorem all_bound (free : ctx.Free) {es : List Cond} (within : ScopedAll es scope)
    (plain : PlainAll False es) (holds : Holds scope st) (unlimited : st.Unlimited) :
    ∃ vs, List.Forall₂ (fun e v => e st = .ok (v, st) ∧
      ∀ b, e (st.bound b) = .ok (v, st.bound b)) (evalAll ctx es) vs := by
  induction es with
  | nil => exact ⟨[], .nil⟩
  | cons e es ih =>
      obtain ⟨vs, rest⟩ := ih within.2 plain.2
      obtain ⟨v, ran, -⟩ :=
        eval_bound free within.1 plain.1 holds unlimited (.val none)
      refine ⟨v :: vs, .cons ⟨ran, fun b => ?_⟩ rest⟩
      obtain ⟨v', ran', bound⟩ := eval_bound free within.1 plain.1 holds unlimited b
      rw [ran] at ran'
      cases ran'
      exact bound

theorem forall₂_getElem? {α β : Type} {R : α → β → Prop} {as : List α} {bs : List β}
    (all : List.Forall₂ R as bs) {i : Nat} {b : β} (there : bs[i]? = some b) :
    ∃ a, as[i]? = some a ∧ R a b := by
  induction all generalizing i with
  | nil => cases there
  | cons head _ ih =>
      cases i with
      | zero =>
          cases there
          exact ⟨_, rfl, head⟩
      | succ i => exact ih there

/-- A loop over a tuple of expressions, with the variable for its body. -/
theorem forTuple_known {es : List Eval} {vs : List (Option Value)}
    (holds : Holds scope st) (unlimited : st.Unlimited)
    (all : List.Forall₂ (fun e v => e st = .ok (v, st) ∧
      ∀ b, e (st.bound b) = .ok (v, st.bound b)) es vs)
    {mode : Nat → M (Option Mode)} {mo : Mode}
    (resolves : mode es.length (st.bound (.val none)) =
      .ok (some mo, st.bound (.val none))) :
    forTuple scope.length es mode (evalBool (eval ctx (.var scope.length))) st =
      .ok (some (.bool (mo.loopHolds (vs.map truthy) 0)), st) := by
  have same : (vs.map truthy).length = es.length := by
    rw [List.length_map, all.length_eq]
  rw [forTuple]
  rw [← same] at resolves ⊢
  apply loop_known holds unlimited resolves
  intro i r there b
  rw [List.getElem?_map] at there
  obtain ⟨v, is, rfl⟩ := Option.map_eq_some_iff.mp there
  obtain ⟨e, at_i, -, bound⟩ := forall₂_getElem? all is
  refine ⟨.val v, ?_⟩
  have bind_v : (do bindVal scope.length (← es.getD i (pure none))) (st.bound b) =
      .ok ((), st.bound (.val v)) := by
    rw [List.getD_eq_getElem?_getD, at_i]
    exact (bind_eq (bound b) _).trans (envSet_bound holds b (.val v))
  have body : eval ctx (.var scope.length) (st.bound (.val v)) =
      .ok (v, st.bound (.val v)) := by
    rw [eval, charged_unlimited (unlimited.bound _), envVal, getElem?_bound holds]
  exact (bind_eq bind_v _).trans (evalBool_ran body)

/-- `Q of (e1, .., en)` and `for Q i in (e1, .., en) : (i)`. -/
theorem ofExprs_agree (free : ctx.Free) {quant : Quant} {exprs : List Cond}
    (of_quant : ScopedQuant quant scope) (plain_quant : PlainQuant False quant)
    (of_exprs : ScopedAll exprs scope) (plain_exprs : PlainAll False exprs)
    (holds : Holds scope st) (unlimited : st.Unlimited) :
    ∃ mode vs, resolve ctx quant exprs.length st = .ok (mode, st) ∧
      List.Forall₂ (fun e v => e st = .ok (v, st)) (evalAll ctx exprs) vs ∧
      ((ComesTrue (eval ctx (.ofExprs quant exprs) st) ↔
        ComesTrue (eval ctx (.forIn quant (.tuple exprs) scope.length
          (.var scope.length)) st)) ↔
      SpellingsAgree mode True ((vs.map truthy).count true)) := by
  obtain ⟨mode, resolves, resolves'⟩ :=
    resolve_bound free of_quant plain_quant holds unlimited exprs.length (.val none)
  obtain ⟨vs, all⟩ := all_bound free of_exprs plain_exprs holds unlimited
  have ran : List.Forall₂ (fun e v => e st = .ok (v, st)) (evalAll ctx exprs) vs :=
    all.imp fun _ _ both => both.1
  refine ⟨mode, vs, resolves, ran, ?_⟩
  have length_all := length_evalAll ctx exprs
  have counted : (do return some (← countTrue (evalAll ctx exprs) 0) : M (Option Nat))
      st = .ok (some ((vs.map truthy).count true), st) := by
    rw [bind_eq (countTrue_known ran 0), Nat.zero_add]
    rfl
  cases mode with
  | none =>
      have of_undefined : eval ctx (.ofExprs quant exprs) st = .ok (none, st) := by
        rw [eval, charged_unlimited unlimited]
        exact evalOf_noMode counted resolves
      have loop_stays : eval ctx (.forIn quant (.tuple exprs) scope.length
          (.var scope.length)) st = .ok (none, st) := by
        rw [eval, charged_unlimited unlimited]
        change forTuple scope.length (evalAll ctx exprs) (resolve ctx quant) _ st = _
        rw [forTuple, length_all]
        exact loop_undefined holds resolves'
      exact iff_of_true
        (iff_of_false (not_comesTrue of_undefined) (not_comesTrue loop_stays))
        fun mo never => by cases never
  | some mo =>
      have looped : eval ctx (.forIn quant (.tuple exprs) scope.length
          (.var scope.length)) st =
            .ok (some (.bool (mo.loopHolds (vs.map truthy) 0)), st) := by
        rw [eval, charged_unlimited unlimited, evalForIn]
        rw [← length_all] at resolves'
        exact forTuple_known holds unlimited all resolves'
      have compared : eval ctx (.ofExprs quant exprs) st =
          .ok (some (.bool (mo.ofHolds exprs.length ((vs.map truthy).count true))),
            st) := by
        rw [eval, charged_unlimited unlimited]
        exact evalOf_known unlimited counted resolves
      have same : (vs.map truthy).length = exprs.length := by
        rw [List.length_map, ← ran.length_eq, length_all]
      rw [comesTrue_bool looped, comesTrue_bool compared, ← same, Mode.agrees_iff]
      constructor
      · rintro agrees mo ⟨⟩
        exact ⟨fun _ => agrees, fun never => absurd trivial never⟩
      · exact fun agree => (agree mo rfl).1 trivial

end

/-- A pattern that matches at the start. -/
def oneMatch : EvalCtx :=
  { bareCtx [0] with matchLists := fun _ => [⟨0, 1⟩] }

theorem free_oneMatch : oneMatch.Free :=
  ⟨fun _ => each_none, fun _ _ => each_none, fun _ => each_none⟩

def freshSt : St := ⟨[], none, false, false⟩

theorem holds_freshSt : Holds [] freshSt :=
  ⟨rfl, fun _ member => absurd member List.not_mem_nil⟩

theorem unlimited_freshSt : freshSt.Unlimited := ⟨rfl, rfl⟩

/-- A rule with one pattern, `$a`. -/
def onePattern : Lower.RuleCtx Unit := { bareRule with locals := [⟨"a", 0⟩] }

end Exav.Yara.Ir
