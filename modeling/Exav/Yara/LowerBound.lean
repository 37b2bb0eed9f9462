import Exav.Yara.Budget

/-!
# What a scan that runs out still matches

A loop that is cut short is undefined, or false, or true of items that are true.
So is every condition, whatever it is made of, and the rules that match when a
scan runs out match without a limit.
-/

namespace Exav.Yara.Ir

/-! ## Quantifiers -/

/-- A boolean that is true only if the other one is. -/
def AtMost (b b' : Bool) : Prop := b = true → b' = true

theorem approx_evalBool {e : Eval} (approx : Approx Low e) :
    Approx AtMost (evalBool e) := by
  apply approx_bind approx (fun _ => approx_pure _) (fun _ => calm_pure _)
  intro a a' low st cut b t ran
  cases ran
  refine .inr fun st' b' t' ran' => ?_
  cases ran'
  exact low.truthy

theorem evalBool_cut {e : Eval} (dead : Dead e) {st : St} (cut : Cut st) :
    evalBool e st = .ok (false, st) := by
  rw [evalBool, bind_eq (dead st cut)]
  rfl

/-- The mode of a quantifier: known from the start, or undefined once the scan has
run out. -/
structure Resolves (mode : M (Option Mode)) : Prop where
  approx : Approx Nothing mode
  fixed : Dead mode ∨ ∃ mo, mode = done mo

theorem Resolves.calm {mode : M (Option Mode)} (resolves : Resolves mode) :
    Calm mode := by
  rcases resolves.fixed with dead | ⟨mo, rfl⟩
  · exact dead.calm
  · exact calm_done mo

/-- More items that are true make an `of` expression true that wants some. -/
theorem Mode.ofHolds_mono {mode : Mode} {total n n' : Nat} (more : n ≤ n')
    (wants : mode.forbids = false) (holds : mode.ofHolds total n = true) :
    mode.ofHolds total n' = true := by
  cases mode with
  | all => exact decide_eq_true ((of_decide_eq_true holds).trans more)
  | any => exact decide_eq_true ((of_decide_eq_true holds).trans more)
  | none => cases wants
  | count mx =>
      have enough : mx.toInt ≤ n := of_decide_eq_true holds
      exact decide_eq_true (enough.trans (Int.ofNat_le.mpr more))

/-- How many there are, when it is at most how many there are. -/
def Fewer (a a' : Option Nat) : Prop :=
  a = none ∨ ∃ n n', a = some n ∧ a' = some n' ∧ n ≤ n'

theorem approx_of {counted : M (Option Nat)} {total : Nat}
    {mode : M (Option Mode)} (approx : Approx Fewer counted)
    (resolves : Resolves mode) : Approx Low (evalOf counted total mode) := by
  have calm : ∀ n : Nat, Calm (known mode fun mode =>
      outcome (mode.forbids && mode.ofHolds total n) (mode.ofHolds total n)) :=
    fun n => calm_known resolves.calm fun _ => calm_outcome _ _
  apply approx_bind approx
  · intro a
    cases a with
    | none => exact approx_pure _
    | some n =>
        exact approx_known resolves.approx (fun _ => approx_outcome _ _)
          (fun _ => calm_outcome _ _) low_least
  · intro a
    cases a with
    | none => exact calm_pure _
    | some n => exact calm n
  · rintro a a' (rfl | ⟨n, n', rfl, rfl, more⟩) st cut b t ran
    · cases ran
      exact .inr fun _ b' _ _ => low_least b'
    · rcases resolves.fixed with dead | ⟨mo, rfl⟩
      · change known mode _ st = _ at ran
        rw [dead_known dead _ st cut] at ran
        cases ran
        exact .inr fun _ b' _ _ => low_least b'
      · obtain ⟨rfl, noted⟩ := outcome_cut cut ran
        cases wants : mo.forbids with
        | true =>
            -- None of them, though more may be true.
            cases holds : mo.ofHolds total _ with
            | true => exact .inl (noted (by rw [wants, holds]; rfl))
            | false =>
                exact .inr fun _ _ _ _ => low_bool fun never => by cases never
        | false =>
            refine .inr fun st' b' t' ran' => low_bool fun holds => ?_
            cases ran'
            exact Mode.ofHolds_mono more wants holds

theorem approx_countPresent {lists : Nat → List Match}
    {anchor : M (Option Place)} (approx : Approx Nothing anchor)
    (dead : Calm anchor) (ids : List Nat) (n : Nat) :
    Approx Nothing (countPresent lists anchor ids n) ∧
      Calm (countPresent lists anchor ids n) := by
  induction ids generalizing n with
  | nil => exact ⟨approx_pure _, calm_pure _⟩
  | cons id ids ih =>
      exact ⟨approx_known approx (fun _ => (ih _).1) (fun _ => (ih _).2)
        nothing_least, calm_known dead fun _ => (ih _).2⟩

theorem countTrue_cut {es : List Eval} (parts : Parts es) {st : St}
    (cut : Cut st) (n : Nat) : countTrue es n st = .ok (n, st) := by
  induction es with
  | nil => rfl
  | cons e es ih =>
      rw [countTrue, bind_eq (parts.head.2 st cut)]
      exact ih parts.tail

theorem countTrue_le {es : List Eval} {st t : St} {n m : Nat}
    (ran : countTrue es n st = .ok (m, t)) : n ≤ m := by
  induction es generalizing n st with
  | nil =>
      cases ran
      exact Nat.le_refl _
  | cons e es ih =>
      obtain ⟨a, s, -, rest⟩ := bind_ok ran
      have more := ih rest
      split at more <;> omega

theorem approx_countTrue {es : List Eval} (parts : Parts es) (n : Nat) :
    Approx (· ≤ ·) (countTrue es n) := by
  induction es generalizing n with
  | nil => exact approx_pure _
  | cons e es ih =>
      apply approx_bind parts.head.1 (fun _ => ih parts.tail _)
      · exact fun _ => calm_of_cut fun _ cut => countTrue_cut parts.tail cut _
      · intro a a' low st cut m t ran
        refine .inr fun st' m' t' ran' => ?_
        rw [countTrue_cut parts.tail cut] at ran
        cases ran
        have more := countTrue_le ran'
        by_cases holds : truthy a = true
        · rw [if_pos (low.truthy holds)] at more
          rw [if_pos holds]
          exact more
        · rw [if_neg holds]
          split at more <;> omega

theorem approx_ofExprs {es : List Eval} (parts : Parts es) :
    Approx Fewer (do return some (← countTrue es 0)) := by
  apply approx_bind (approx_countTrue parts 0) (fun _ => approx_pure _)
    (fun _ => calm_pure _)
  intro n n' more st cut a t ran
  refine .inr fun st' a' t' ran' => ?_
  cases ran
  cases ran'
  exact .inr ⟨n, n', rfl, rfl, more⟩

theorem outOfSteps_out {st : St} (out : st.steps = some 0) :
    outOfSteps st = .ok (true, { st with cut := true }) := by
  obtain ⟨env, steps, isCut, turned⟩ := st
  cases out
  rfl

theorem quantifyFrom_cut (mode : Mode) (item : Nat → M Bool) (left k n : Nat)
    {st : St} (cut : Cut st) :
    quantifyFrom mode item (left + 1) k n st = .ok (none, st) := by
  rw [quantifyFrom, bind_eq (outOfSteps_out cut.steps)]
  obtain ⟨env, steps, isCut, turned⟩ := st
  cases cut.cut
  rfl

theorem calm_quantifyFrom (mode : Mode) (item : Nat → M Bool) (left k n : Nat) :
    Calm (quantifyFrom mode item left k n) := by
  cases left with
  | zero => exact calm_outcome _ _
  | succ left => exact calm_of_cut fun _ cut => quantifyFrom_cut mode item left k n cut

/-- What is left of a loop that has run out is undefined, or noted, or nothing. -/
theorem rest_cut {mode : Mode} {item : Nat → M Bool} {left k n : Nat} {st t : St}
    (cut : Cut st) {v : Option Value}
    (ran : quantifyFrom mode item left k n st = .ok (v, t)) :
    t.turned = true ∨ v = none ∨
      left = 0 ∧ v = some (.bool (mode.atEnd && !mode.isNone)) := by
  cases left with
  | zero =>
      obtain ⟨rfl, noted⟩ := outcome_cut cut ran
      cases wanted : mode.isNone with
      | true => exact .inl (noted wanted)
      | false => exact .inr (.inr ⟨rfl, by rw [Bool.not_false, Bool.and_true]⟩)
  | succ left =>
      rw [quantifyFrom_cut mode item left k n cut] at ran
      cases ran
      exact .inr (.inl rfl)

/-- Where a loop has run out after an item, what it comes to is noted, or true
only if the loop that goes on is. -/
theorem settles_cut {mode : Mode} {item : Nat → M Bool} {left k n : Nat}
    {b b' : Bool} (atMost : AtMost b b') {st t : St} (cut : Cut st)
    {v : Option Value}
    (ran : unlessSettled (mode.settles b (if b then n + 1 else n))
      (quantifyFrom mode item left (k + 1) (if b then n + 1 else n)) st =
        .ok (v, t)) :
    t.turned = true ∨ ∀ st' v' t',
      unlessSettled (mode.settles b' (if b' then n + 1 else n))
        (quantifyFrom mode item left (k + 1) (if b' then n + 1 else n)) st' =
          .ok (v', t') → Low v v' := by
  cases b with
  | true =>
      cases atMost rfl
      cases settled : mode.settles true (n + 1) with
      | some result =>
          simp only [if_true, settled] at ran ⊢
          cases ran
          refine .inr fun st' v' t' ran' => ?_
          cases ran'
          exact low_bool id
      | none =>
          simp only [if_true, settled] at ran ⊢
          refine (rest_cut cut ran).imp_right ?_
          rintro (rfl | ⟨rfl, rfl⟩) st' v' t' ran'
          · exact low_least v'
          · cases ran'
            exact low_bool fun holds => (Bool.and_eq_true_iff.mp holds).1
  | false =>
      cases settled : mode.settles false n with
      | some result =>
          simp only [Bool.false_eq_true, if_false, settled] at ran ⊢
          cases ran
          have excess : result = false := by
            cases mode <;> simp_all [Mode.settles]
          rw [excess]
          exact .inr fun _ _ _ _ => low_bool fun never => by cases never
      | none =>
          simp only [Bool.false_eq_true, if_false, settled] at ran ⊢
          refine (rest_cut cut ran).imp_right ?_
          rintro (rfl | ⟨rfl, rfl⟩) st' v' t' ran'
          · exact low_least v'
          · have excess : (mode.atEnd && !mode.isNone) = false := by
              cases mode <;> simp_all [Mode.settles, Mode.atEnd, Mode.isNone]
            rw [excess]
            exact low_bool fun never => by cases never

theorem quantifyFrom_step (mode : Mode) (item : Nat → M Bool) (left k n : Nat)
    {st : St} (more : st.steps ≠ some 0) :
    quantifyFrom mode item (left + 1) k n st = (do
      let b ← item k
      unlessSettled (mode.settles b (if b then n + 1 else n))
        (quantifyFrom mode item left (k + 1) (if b then n + 1 else n))) st := by
  have going : outOfSteps st = .ok (false, st) := by
    unfold outOfSteps
    split
    · rename_i none_left
      exact absurd none_left more
    · rfl
  rw [quantifyFrom, bind_eq going]
  rfl

theorem approx_quantifyFrom {item : Nat → M Bool}
    (items : ∀ k, Approx AtMost (item k)) (mode : Mode) (left k n : Nat) :
    Approx Low (quantifyFrom mode item left k n) := by
  induction left generalizing k n with
  | zero => exact approx_outcome _ _
  | succ left ih =>
      intro st st' sync v t ran v' t' ran'
      have unlimited : st'.steps ≠ some 0 := by
        rw [sync.unlimited]
        exact Option.some_ne_none 0 |>.symm
      by_cases out : st.steps = some 0
      · rw [quantifyFrom, bind_eq (outOfSteps_out out)] at ran
        cases ran
        exact .inr ⟨⟨out, rfl⟩, .inr (low_least v')⟩
      · rw [quantifyFrom_step _ _ _ _ _ out] at ran
        rw [quantifyFrom_step _ _ _ _ _ unlimited] at ran'
        refine approx_bind (items k) ?_ ?_ ?_ st st' sync v t ran v' t' ran'
        · intro b
          unfold unlessSettled
          split
          · exact approx_pure _
          · exact ih _ _
        · intro b
          unfold unlessSettled
          split
          · exact calm_done _
          · exact calm_quantifyFrom _ _ _ _ _
        · intro b b' atMost st cut v t ran
          exact settles_cut atMost cut ran

/-! ## Loops -/

section

variable {R : Unit → Unit → Prop}

theorem approx_envPush (bs : List Binding) : Approx R (envPush bs) := by
  apply approx_still
  intro st st' a t a' t' sync ran ran'
  cases ran
  cases ran'
  exact ⟨rfl, congrArg (· ++ bs) sync.env, sync.unlimited, sync.whole, sync.turned⟩

theorem calm_envPush (bs : List Binding) : Calm (envPush bs) := by
  intro st cut a t ran
  cases ran
  exact ⟨⟨cut.steps, cut.cut⟩, id⟩

theorem approx_envTruncate (base : Nat) : Approx R (envTruncate base) := by
  apply approx_still
  intro st st' a t a' t' sync ran ran'
  cases ran
  cases ran'
  exact ⟨rfl, congrArg (List.take base) sync.env, sync.unlimited, sync.whole,
    sync.turned⟩

theorem calm_envTruncate (base : Nat) : Calm (envTruncate base) := by
  intro st cut a t ran
  cases ran
  exact ⟨⟨cut.steps, cut.cut⟩, id⟩

theorem approx_envSet (slot : Nat) (b : Binding) : Approx R (envSet slot b) := by
  apply approx_still
  intro st st' a t a' t' sync ran ran'
  unfold envSet at ran ran'
  rw [← sync.env] at ran'
  split at ran
  · rename_i inside
    rw [if_pos inside] at ran'
    cases ran
    cases ran'
    exact ⟨rfl, rfl, sync.unlimited, sync.whole, sync.turned⟩
  · cases ran

theorem calm_envSet (slot : Nat) (b : Binding) : Calm (envSet slot b) := by
  intro st cut a t ran
  unfold envSet at ran
  split at ran
  · cases ran
    exact ⟨⟨cut.steps, cut.cut⟩, id⟩
  · cases ran

end

theorem approx_envVal {R : Option Value → Option Value → Prop} (slot : Nat) :
    Approx R (envVal slot) := by
  apply approx_still
  intro st st' a t a' t' sync ran ran'
  unfold envVal at ran ran'
  rw [← sync.env] at ran'
  cases found : st.env[slot]? with
  | none =>
      rw [found] at ran
      cases ran
  | some b =>
      rw [found] at ran ran'
      cases b <;> (cases ran; cases ran'; exact ⟨rfl, sync⟩)

theorem approx_envPat {R : Nat → Nat → Prop} (slot : Nat) :
    Approx R (envPat slot) := by
  apply approx_still
  intro st st' a t a' t' sync ran ran'
  unfold envPat at ran ran'
  rw [← sync.env] at ran'
  cases found : st.env[slot]? with
  | none =>
      rw [found] at ran
      cases ran
  | some b =>
      rw [found] at ran ran'
      cases b with
      | val v => cases ran
      | pat id =>
          cases ran
          cases ran'
          exact ⟨rfl, sync⟩

/-- The body of a loop, which is false once the scan has run out. -/
structure Body (body : M Bool) : Prop where
  approx : Approx AtMost body
  cut : ∀ st, Cut st → body st = .ok (false, st)

theorem body_evalBool {e : Eval} (approx : Approx Low e) (dead : Dead e) :
    Body (evalBool e) :=
  ⟨approx_evalBool approx, fun _ cut => evalBool_cut dead cut⟩

section

variable {base : Nat} {slots : List Binding} {mode : Nat → M (Option Mode)}
  {body : M Bool}

theorem calm_loop (resolves : ∀ n, Resolves (mode n)) (n : Nat)
    (bind : Nat → M Unit) : Calm (loop base slots mode n bind body) := by
  apply calm_bind (calm_envPush slots)
  intro _
  apply calm_bind
  · exact calm_known (resolves n).calm fun _ => calm_quantifyFrom _ _ _ _ _
  · exact fun _ => calm_bind (calm_envTruncate base) fun _ => calm_pure _

theorem approx_loop (resolves : ∀ n, Resolves (mode n)) (n : Nat)
    {bind : Nat → M Unit} (binds : ∀ k, Approx (fun _ _ => True) (bind k))
    (ofBody : Body body) : Approx Low (loop base slots mode n bind body) := by
  have items : ∀ k, Approx AtMost (do bind k; body) := by
    intro k
    apply approx_bind (binds k) (fun _ => ofBody.approx)
    · exact fun _ => calm_of_cut ofBody.cut
    · intro _ _ _ st cut b t ran
      rw [ofBody.cut st cut] at ran
      cases ran
      exact .inr fun _ _ _ _ => fun never => by cases never
  have never_cut : Approx (fun _ _ => False) (envPush slots) := approx_envPush slots
  apply approx_bind never_cut ?_ ?_ fun _ _ never => never.elim
  · intro _
    apply approx_bind
    · exact approx_known (resolves n).approx
        (fun mo => approx_quantifyFrom items mo n 0 0)
        (fun _ => calm_quantifyFrom _ _ _ _ _) low_least
    · intro v
      have truncated : Approx (fun _ _ => False) (envTruncate base) :=
        approx_envTruncate base
      exact approx_bind truncated (fun _ => approx_pure _) (fun _ => calm_pure _)
        fun _ _ never => never.elim
    · exact fun _ => calm_bind (calm_envTruncate base) fun _ => calm_pure _
    · intro v v' low st cut w t ran
      refine .inr fun st' w' t' ran' => ?_
      cases ran
      cases ran'
      exact low
  · intro _
    apply calm_bind
    · exact calm_known (resolves n).calm fun _ => calm_quantifyFrom _ _ _ _ _
    · exact fun _ => calm_bind (calm_envTruncate base) fun _ => calm_pure _

theorem approx_bindVal (slot : Nat) (v : Option Value) :
    Approx (fun _ _ => True) (bindVal slot v) :=
  approx_envSet _ _

theorem low_false {v : Option Value} : Low (some (.bool false)) v :=
  low_bool fun never => by cases never

theorem approx_ranged (a b : Option Int64)
    (resolves : ∀ n, Resolves (mode n)) (ofBody : Body body) :
    Approx Low (match a, b with
      | some lo, some hi =>
          let n := rangeLen lo hi
          if n = 0 then done (.bool false)
          else
            loop base [.val none] mode n
              (fun k => bindVal base (some (.int (lo + Int64.ofNat k)))) body
      | _, _ => done (.bool false)) := by
  split
  · dsimp only
    split
    · exact approx_pure _
    · exact approx_loop resolves _ (fun _ => approx_bindVal _ _) ofBody
  · exact approx_pure _

theorem calm_ranged (a b : Option Int64) (resolves : ∀ n, Resolves (mode n)) :
    Calm (match a, b with
      | some lo, some hi =>
          let n := rangeLen lo hi
          if n = 0 then done (.bool false)
          else
            loop base [.val none] mode n
              (fun k => bindVal base (some (.int (lo + Int64.ofNat k)))) body
      | _, _ => done (.bool false)) := by
  split
  · dsimp only
    split
    · exact calm_done _
    · exact calm_loop resolves _ _
  · exact calm_done _

theorem approx_forRange {lo hi : Eval} (approx_lo : Approx Low lo)
    (approx_hi : Approx Low hi) (dead_hi : Dead hi)
    (resolves : ∀ n, Resolves (mode n)) (ofBody : Body body) :
    Approx Low (forRange base lo hi mode body) := by
  have rest (a b : Option Int64) :=
    @approx_ranged base mode body a b resolves ofBody
  have calm (a b : Option Int64) := @calm_ranged base mode body a b resolves
  apply approx_bind (approx_evalInt approx_lo)
  · intro a
    apply approx_bind (approx_evalInt approx_hi) (rest a) (calm a)
    rintro b b' rfl st cut v t ran
    cases a <;> (cases ran; exact .inr fun _ _ _ _ => low_false)
  · exact fun a => calm_bind (dead_evalInt dead_hi).calm (calm a)
  · rintro a a' rfl st cut v t ran
    obtain ⟨b, s, -, ran⟩ := bind_ok ran
    cases ran
    exact .inr fun _ _ _ _ => low_false

theorem approx_getD {items : List Eval} (parts : Parts items) (k : Nat) :
    Approx Low (items.getD k (pure none)) := by
  rw [List.getD_eq_getElem?_getD]
  cases found : items[k]? with
  | none => exact approx_pure _
  | some e => exact parts.approx e (List.mem_of_getElem? found)

theorem approx_forTuple {items : List Eval} (parts : Parts items)
    (resolves : ∀ n, Resolves (mode n)) (ofBody : Body body) :
    Approx Low (forTuple base items mode body) := by
  apply approx_loop resolves _ ?_ ofBody
  intro k
  exact approx_bind (approx_getD parts k) (fun v => approx_bindVal base v)
    (fun _ => calm_envSet _ _) fun _ _ _ _ _ _ _ _ => .inr fun _ _ _ _ => trivial

theorem approx_forCollection {e : Eval} (approx : Approx Low e)
    (resolves : ∀ n, Resolves (mode n)) (ofBody : Body body) :
    Approx Low (forCollection base e mode body) := by
  apply approx_bind approx
  · intro v
    split
    · split
      · exact approx_pure _
      · exact approx_loop resolves _ (fun _ => approx_bindVal _ _) ofBody
    · dsimp only
      split
      · exact approx_pure _
      · apply approx_loop resolves _ ?_ ofBody
        intro k
        exact approx_bind (approx_bindVal _ _) (fun _ => approx_bindVal _ _)
          (fun _ => calm_envSet _ _)
          fun _ _ _ _ _ _ _ _ => .inr fun _ _ _ _ => trivial
    · exact approx_pure _
  · intro v
    split
    · split
      · exact calm_done _
      · exact calm_loop resolves _ _
    · dsimp only
      split
      · exact calm_done _
      · exact calm_loop resolves _ _
    · exact calm_done _
  · rintro v v' (rfl | ⟨b, rfl, -⟩) st cut w t ran
    all_goals
      cases ran
      exact .inr fun _ _ _ _ => low_false

theorem approx_forOf {patterns : List Nat} (resolves : ∀ n, Resolves (mode n))
    (ofBody : Body body) : Approx Low (forOf base patterns mode body) :=
  approx_loop resolves _ (fun _ => approx_envSet _ _) ofBody

end

theorem approx_pushDecls {decls : List Eval} (parts : Parts decls) :
    Approx (fun _ _ => True) (pushDecls decls) ∧ Calm (pushDecls decls) := by
  induction decls with
  | nil => exact ⟨approx_pure _, calm_pure _⟩
  | cons decl decls ih =>
      obtain ⟨approx, calm⟩ := ih parts.tail
      have pushed : ∀ v, Calm (do envPush [.val v]; pushDecls decls) :=
        fun v => calm_bind (calm_envPush _) fun _ => calm
      constructor
      · apply approx_bind parts.head.1 ?_ pushed
        · exact fun _ _ _ _ _ _ _ _ => .inr fun _ _ _ _ => trivial
        · intro v
          have never_cut : Approx (fun _ _ => False) (envPush [.val v]) :=
            approx_envPush _
          exact approx_bind never_cut (fun _ => approx) (fun _ => calm)
            fun _ _ never => never.elim
      · exact calm_bind parts.head.2.calm pushed

theorem approx_with {base : Nat} {decls : List Eval} {body : Eval}
    (parts : Parts decls) (approx : Approx Low body) (dead : Dead body) :
    Approx Low (evalWith base decls body) := by
  obtain ⟨pushed, calm⟩ := approx_pushDecls parts
  have truncated : Approx (fun _ _ => False) (envTruncate base) :=
    approx_envTruncate base
  have last : ∀ v : Option Value, Calm (do envTruncate base; return v) :=
    fun _ => calm_bind (calm_envTruncate base) fun _ => calm_pure _
  apply approx_bind pushed
  · intro _
    apply approx_bind approx ?_ last
    · intro v v' low st cut w t ran
      refine .inr fun st' w' t' ran' => ?_
      cases ran
      cases ran'
      exact low
    · exact fun _ => approx_bind truncated (fun _ => approx_pure _)
        (fun _ => calm_pure _) fun _ _ never => never.elim
  · exact fun _ => calm_bind dead.calm last
  · intro _ _ _ st cut w t ran
    rw [bind_eq (dead st cut)] at ran
    cases ran
    exact .inr fun _ w' _ _ => low_least w'

theorem approx_stepIndex {e : Eval} (approx : Approx Low e) (v : Value) :
    Approx Nothing (stepIndex e v) := by
  unfold stepIndex
  split
  · exact approx_known (approx_evalInt approx) (fun _ => approx_pure _)
      (fun _ => calm_pure _) nothing_least
  · exact approx_known (approx_evalStr approx) (fun _ => approx_pure _)
      (fun _ => calm_pure _) nothing_least
  · exact approx_known (approx_evalInt approx) (fun _ => approx_pure _)
      (fun _ => calm_pure _) nothing_least
  · exact approx_pure _

theorem calm_stepIndex {e : Eval} (dead : Dead e) (v : Value) :
    Calm (stepIndex e v) := by
  unfold stepIndex
  split
  · exact (dead_known (dead_evalInt dead) _).calm
  · exact (dead_known (dead_known dead _) _).calm
  · exact (dead_known (dead_evalInt dead) _).calm
  · exact calm_pure _

/-! ## Conditions -/

section

variable (ctx : EvalCtx)

theorem dead_eval (c : Cond) : Dead (eval ctx c) := by
  cases c <;> exact dead_charged _

theorem approx_place {anchor : M (Option Place)} (approx : Approx Nothing anchor)
    (f : Place → Value) : Approx Low (known anchor fun place => done (f place)) :=
  approx_known approx (fun _ => approx_pure _) (fun _ => calm_pure _) low_least

theorem approx_at {idx : M (Option Nat)} (approx : Approx Nothing idx)
    (f : Nat → Option Value) : Approx Low (known idx fun i => pure (f i)) :=
  approx_known approx (fun _ => approx_pure _) (fun _ => calm_pure _) low_least

/-- An operator that is undefined of a boolean. -/
theorem approx_strict {e : Eval} (approx : Approx Low e) {f : Value → Option Value}
    (dull : ∀ b, f (.bool b) = none) : Approx Low (known e fun v => pure (f v)) := by
  apply approx_value approx (fun _ => approx_pure _) (fun _ => calm_pure _)
    low_least
  intro b st cut r t ran
  cases ran
  exact .inr (dull b)

theorem approx_ofPat {slot : Nat} {f : Nat → Eval} (rest : ∀ id, Approx Low (f id))
    (calm : ∀ id, Calm (f id)) :
    Approx Low (do let id ← envPat slot; f id) := by
  have never_cut : Approx (fun _ _ => False) (envPat slot) := approx_envPat slot
  exact approx_bind never_cut rest calm fun _ _ never => never.elim

theorem arith_bool (op : ArithOp) (v : Value) (b : Bool) :
    arith op v (.bool b) = none := by
  cases v <;> rfl

theorem compareValues_bool (op : CmpOp) (v : Value) (b : Bool) :
    compareValues op v (.bool b) = none := by
  cases v <;> rfl

theorem dead_evalAll (cs : List Cond) : ∀ e ∈ evalAll ctx cs, Dead e := by
  induction cs with
  | nil => exact fun e there => absurd there List.not_mem_nil
  | cons c cs ih =>
      intro e there
      rcases List.mem_cons.mp there with rfl | later
      · exact dead_eval ctx c
      · exact ih e later

theorem calm_anchor (anchor : Anchor) : Calm (evalAnchor ctx anchor) := by
  cases anchor with
  | anywhere => exact calm_pure _
  | «at» e => exact (dead_known (dead_evalInt (dead_eval ctx e)) _).calm
  | within lo hi => exact (dead_placeBetween (dead_eval ctx lo)).calm

theorem calm_range (range : Range) : Calm (evalRange ctx range) := by
  cases range with
  | whole => exact calm_pure _
  | between lo hi => exact (dead_placeBetween (dead_eval ctx lo)).calm

theorem calm_index (idx : Index) : Calm (evalIndex ctx idx) := by
  cases idx with
  | first => exact calm_pure _
  | nth e => exact (dead_known (dead_evalInt (dead_eval ctx e)) _).calm

theorem calm_walkAccess (path : List Access) (v : Value) :
    Calm (walkAccess ctx path v) := by
  induction path generalizing v with
  | nil => exact calm_pure _
  | cons step path ih =>
      cases step with
      | field name => exact calm_known (calm_pure _) ih
      | index e => exact calm_known (calm_stepIndex (dead_eval ctx e) v) ih

theorem fixed_resolve (quant : Quant) (n : Nat) :
    Dead (resolve ctx quant n) ∨ ∃ mo, resolve ctx quant n = done mo := by
  cases quant with
  | all => exact .inr ⟨.all, rfl⟩
  | any => exact .inr ⟨.any, rfl⟩
  | none => exact .inr ⟨.none, rfl⟩
  | count e => exact .inl (dead_known (dead_evalInt (dead_eval ctx e)) _)
  | percent e => exact .inl (dead_known (dead_eval ctx e) _)

mutual

/-- Every condition approximates itself. -/
theorem approx_eval : ∀ c : Cond, Approx Low (eval ctx c)
  | .bool _ | .int _ | .float _ | .str _ | .filesize | .ruleRef _ | .entrypoint
  | .external _ _ => approx_charged (approx_pure _)
  | .pattern _ anchor => approx_charged (approx_place (approx_anchor anchor) _)
  | .count _ range => approx_charged (approx_place (approx_range range) _)
  | .offset _ idx | .length _ idx =>
      approx_charged (approx_at (approx_index idx) _)
  | .defined e => approx_charged (approx_defined (approx_eval e))
  | .not e => approx_charged (approx_not (approx_eval e))
  | .and v => approx_charged (approx_and (parts_evalAll v))
  | .or v => approx_charged (approx_or (parts_evalAll v))
  | .neg e | .bitNot e =>
      approx_charged (approx_strict (approx_eval e) fun _ => rfl)
  | .arith op a b =>
      approx_charged (approx_both (approx_eval a) (approx_eval b)
        (dead_eval ctx b) (arith_bool op))
  | .cmp op a b =>
      approx_charged (approx_both (approx_eval a) (approx_eval b)
        (dead_eval ctx b) (compareValues_bool op))
  | .strCmp _ a b =>
      approx_charged (approx_strCmp (approx_eval a) (approx_eval b)
        (dead_eval ctx b))
  | .matchesRe a _ =>
      approx_charged (approx_known (approx_evalStr (approx_eval a))
        (fun _ => approx_pure _) (fun _ => calm_pure _) low_least)
  | .ofPatterns quant ids anchor =>
      approx_charged (approx_of
        ((approx_countPresent (approx_anchor anchor) (calm_anchor ctx anchor)
          ids 0).1.mono fun _ _ undefined => .inl undefined)
        (resolves quant _))
  | .ofExprs quant exprs =>
      approx_charged (approx_of (approx_ofExprs (parts_evalAll exprs))
        (resolves quant _))
  | .modAccess _ path =>
      approx_charged ((approx_known (approx_pure _) (approx_walkAccess path)
        (calm_walkAccess ctx path) nothing_least).mono fun _ _ => Nothing.low)
  | .modCall _ args =>
      approx_charged (approx_call (approx_args (parts_evalAll args)).1)
  | .intRead _ addr =>
      approx_charged (approx_known (approx_evalInt (approx_eval addr))
        (fun _ => approx_pure _) (fun _ => calm_pure _) low_least)
  | .var slot => approx_charged (approx_envVal slot)
  | .varAccess slot path =>
      approx_charged ((approx_known (approx_envVal slot) (approx_walkAccess path)
        (calm_walkAccess ctx path) nothing_least).mono fun _ _ => Nothing.low)
  | .forIn quant iter _ body =>
      approx_charged (approx_forIn iter (resolves quant)
        (body_evalBool (approx_eval body) (dead_eval ctx body)))
  | .forOf quant _ _ body =>
      approx_charged (approx_forOf (resolves quant)
        (body_evalBool (approx_eval body) (dead_eval ctx body)))
  | .withIn decls _ body =>
      approx_charged (approx_with (parts_evalAll decls) (approx_eval body)
        (dead_eval ctx body))
  | .patternVar _ anchor =>
      approx_charged (approx_ofPat (fun _ => approx_place (approx_anchor anchor) _)
        fun _ => calm_known (calm_anchor ctx anchor) fun _ => calm_pure _)
  | .countVar _ range =>
      approx_charged (approx_ofPat (fun _ => approx_place (approx_range range) _)
        fun _ => calm_known (calm_range ctx range) fun _ => calm_pure _)
  | .offsetVar _ idx | .lengthVar _ idx =>
      approx_charged (approx_ofPat (fun _ => approx_at (approx_index idx) _)
        fun _ => calm_known (calm_index ctx idx) fun _ => calm_pure _)

theorem parts_evalAll : ∀ cs : List Cond, Parts (evalAll ctx cs)
  | [] => ⟨fun _ there => absurd there List.not_mem_nil, dead_evalAll ctx []⟩
  | c :: cs =>
      ⟨fun e there => (List.mem_cons.mp there).elim
        (fun same => same ▸ approx_eval c) ((parts_evalAll cs).approx e),
        dead_evalAll ctx (c :: cs)⟩

theorem approx_anchor : ∀ anchor, Approx Nothing (evalAnchor ctx anchor)
  | .anywhere => approx_pure _
  | .at e =>
      approx_known (approx_evalInt (approx_eval e)) (fun _ => approx_pure _)
        (fun _ => calm_pure _) nothing_least
  | .within lo hi =>
      approx_placeBetween (approx_eval lo) (approx_eval hi) (dead_eval ctx hi)

theorem approx_range : ∀ range, Approx Nothing (evalRange ctx range)
  | .whole => approx_pure _
  | .between lo hi =>
      approx_placeBetween (approx_eval lo) (approx_eval hi) (dead_eval ctx hi)

theorem approx_index : ∀ idx, Approx Nothing (evalIndex ctx idx)
  | .first => approx_pure _
  | .nth e =>
      approx_known (approx_evalInt (approx_eval e)) (fun _ => approx_pure _)
        (fun _ => calm_pure _) nothing_least

theorem approx_resolve : ∀ quant n, Approx Nothing (resolve ctx quant n)
  | .all, _ | .any, _ | .none, _ => approx_pure _
  | .count e, _ =>
      approx_known (approx_evalInt (approx_eval e)) (fun _ => approx_pure _)
        (fun _ => calm_pure _) nothing_least
  | .percent e, n => by
      have rest : ∀ v, Calm (known (pure (percentOf n v)) fun mx =>
          done (Mode.count mx)) :=
        fun _ => calm_known (calm_pure _) fun _ => calm_pure _
      apply approx_value (approx_eval e) ?_ rest nothing_least
      · intro b st cut r t ran
        cases ran
        exact .inr rfl
      · exact fun _ => approx_known (approx_pure _) (fun _ => approx_pure _)
          (fun _ => calm_pure _) nothing_least

theorem resolves : ∀ quant n, Resolves (resolve ctx quant n)
  | quant, n => ⟨approx_resolve quant n, fixed_resolve ctx quant n⟩

theorem approx_forIn : ∀ (iter : Iter) {base : Nat} {mode : Nat → M (Option Mode)}
    {body : M Bool}, (∀ n, Resolves (mode n)) → Body body →
    Approx Low (evalForIn ctx iter base mode body)
  | .range lo hi => fun resolves ofBody =>
      approx_forRange (approx_eval lo) (approx_eval hi) (dead_eval ctx hi) resolves
        ofBody
  | .tuple items => fun resolves ofBody =>
      approx_forTuple (parts_evalAll items) resolves ofBody
  | .collection e => fun resolves ofBody =>
      approx_forCollection (approx_eval e) resolves ofBody

theorem approx_walkAccess : ∀ (path : List Access) (v : Value),
    Approx Nothing (walkAccess ctx path v)
  | [], _ => approx_pure _
  | .field _ :: path, _ =>
      approx_known (approx_pure _) (approx_walkAccess path)
        (calm_walkAccess ctx path) nothing_least
  | .index e :: path, v =>
      approx_known (approx_stepIndex (approx_eval e) v) (approx_walkAccess path)
        (calm_walkAccess ctx path) nothing_least

end

end

/-! ## Rules -/

/-- Results that are true only where the others are. -/
def Below : List Bool → List Bool → Prop := List.Forall₂ AtMost

theorem below_refl (results : List Bool) : Below results results :=
  List.forall₂_same.mpr fun _ _ => id

/-- The results so far of a scan, beside those of one without a limit: the same,
or below them once the scan has run out. -/
def Behind (results results' : List Bool) (st st' : St) : Prop :=
  (results = results' ∧ Sync st st') ∨
    (Cut st ∧ (st.turned = true ∨ Below results results'))

theorem Behind.below {results results' : List Bool} {st st' : St}
    (behind : Behind results results' st st') (unturned : st.turned = false) :
    Below results results' := by
  rcases behind with ⟨rfl, -⟩ | ⟨-, turned | below⟩
  · exact below_refl results
  · rw [unturned] at turned
    cases turned
  · exact below

theorem behind_rule {ctx : EvalCtx} {results results' : List Bool} {st st' t t' : St}
    {c : Cond} {r r' : Bool} (behind : Behind results results' st st')
    (ran : evalBool (eval { ctx with ruleResults := results } c)
      { st with env := [] } = .ok (r, t))
    (ran' : evalBool (eval { ctx with ruleResults := results' } c)
      { st' with env := [] } = .ok (r', t')) :
    Behind (results ++ [r]) (results' ++ [r']) t t' := by
  rcases behind with ⟨rfl, sync⟩ | ⟨cut, noted⟩
  · have started : Sync { st with env := [] } { st' with env := [] } :=
      ⟨rfl, sync.unlimited, sync.whole, sync.turned⟩
    rcases approx_evalBool (approx_eval _ c) _ _ started r t ran r' t' ran' with
      ⟨rfl, sync'⟩ | ⟨cut, turned | atMost⟩
    · exact .inl ⟨rfl, sync'⟩
    · exact .inr ⟨cut, .inl turned⟩
    · exact .inr ⟨cut, .inr
        (List.rel_append (below_refl results) (.cons atMost .nil))⟩
  · -- With no step left the rule is undefined.
    have started : Cut { st with env := [] } := ⟨cut.steps, cut.cut⟩
    rw [evalBool_cut (dead_eval _ c) started] at ran
    cases ran
    refine .inr ⟨started, noted.imp_right fun below => ?_⟩
    exact List.rel_append below (.cons (fun never => by cases never) .nil)

theorem behind_rules {ctx : EvalCtx} {rules : List Rule}
    {results results' found found' : List Bool} {st st' t t' : St}
    (behind : Behind results results' st st')
    (ran : evalRules ctx rules results st = .ok (found, t))
    (ran' : evalRules ctx rules results' st' = .ok (found', t')) :
    Behind found found' t t' := by
  induction rules generalizing results results' st st' with
  | nil =>
      cases ran
      cases ran'
      exact behind
  | cons rule rules ih =>
      rw [evalRules] at ran ran'
      split at ran
      · cases ran
      · rename_i r s first
        split at ran'
        · cases ran'
        · rename_i r' s' first'
          exact ih (behind_rule behind first first') ran ran'

/-- A rule and its result, and a result that is above. -/
def Under (judged judged' : Rule × Bool) : Prop :=
  judged.1 = judged'.1 ∧ AtMost judged.2 judged'.2

theorem under_zip {rules : List Rule} {results results' : List Bool}
    (below : Below results results') :
    List.Forall₂ Under (rules.zip results) (rules.zip results') := by
  induction below generalizing rules with
  | nil => simp
  | cons atMost _ ih =>
      cases rules with
      | nil => simp
      | cons rule rules => exact .cons ⟨rfl, atMost⟩ ih

section

variable {judged judged' : List (Rule × Bool)}
  (under : List.Forall₂ Under judged judged')

include under

theorem Under.gate (passes : judged.all (fun (rule, r) => !rule.isGlobal || r)) :
    judged'.all fun (rule, r) => !rule.isGlobal || r := by
  induction under with
  | nil => rfl
  | cons first _ ih =>
      obtain ⟨same, atMost⟩ := first
      simp only [List.all_cons, Bool.and_eq_true, Bool.or_eq_true,
        Bool.not_eq_true'] at passes ⊢
      exact ⟨same ▸ passes.1.imp_right atMost, ih passes.2⟩

theorem Under.shown {i : Nat}
    (shown : judged[i]?.any fun (rule, r) => r && !rule.isPrivate) :
    judged'[i]?.any fun (rule, r) => r && !rule.isPrivate := by
  induction under generalizing i with
  | nil => cases shown
  | cons first _ ih =>
      cases i with
      | zero =>
          obtain ⟨same, atMost⟩ := first
          simp only [List.getElem?_cons_zero, Option.any_some, Bool.and_eq_true]
            at shown ⊢
          exact ⟨atMost shown.1, same ▸ shown.2⟩
      | succ i => exact ih shown

end

theorem matching_mono {rules : List Rule} {results results' : List Bool}
    (below : Below results results') {i : Nat} (there : i ∈ matching rules results) :
    i ∈ matching rules results' := by
  have under := @under_zip rules _ _ below
  rw [matching] at there ⊢
  split at there
  · rename_i passes
    rw [if_pos (Under.gate under passes)]
    obtain ⟨inside, shown⟩ := List.mem_filter.mp there
    rw [under.length_eq] at inside
    exact List.mem_filter.mpr ⟨inside, Under.shown under shown⟩
  · cases there

/-- The rules that match when the steps run out match without a limit, unless
something that was cut short was turned. -/
theorem evaluate_lowerBound {ctx : EvalCtx} {rules : List Rule} {budget : Nat}
    {found found' : List Nat} {st st' : St}
    (limited : evaluate ctx rules (some budget) = .ok (found, st))
    (unturned : st.turned = false)
    (unlimited : evaluate ctx rules none = .ok (found', st')) :
    ∀ i ∈ found, i ∈ found' := by
  rw [evaluate] at limited unlimited
  split at limited
  · cases limited
  · rename_i results t ran
    split at unlimited
    · cases unlimited
    · rename_i results' t' ran'
      cases limited
      cases unlimited
      have started : Behind [] [] ⟨[], some budget, false, false⟩
          ⟨[], none, false, false⟩ := .inl ⟨rfl, rfl, rfl, rfl, rfl⟩
      have below := (behind_rules started ran ran').below unturned
      exact fun i there => matching_mono below there

/-! ## A rule that matches because the steps ran out -/

theorem nothing_faithful (off len : Nat) : [] <+: Exav.window [] off len :=
  List.nil_prefix

def emptyCtx : EvalCtx where
  data := ⟨[], fun _ _ => [], true, nothing_faithful⟩
  matchLists _ := []
  ruleResults := []
  root _ := none
  call _ _ := none
  entryPoint := none
  externals _ := none
  lower := id

/-- A rule that holds at once, and one that holds if its steps last. -/
def twoRules : List Rule :=
  [⟨.bool true, false, false⟩, ⟨.or [.bool false, .bool true], false, false⟩]

/-- Three steps run out in the second rule, and the first one matches both
ways. -/
theorem lowerBound_two :
    ∃ st found' st',
      evaluate emptyCtx twoRules (some 3) = .ok ([0], st) ∧ st.cut = true ∧
      evaluate emptyCtx twoRules none = .ok (found', st') ∧
      ∀ i ∈ [0], i ∈ found' :=
  ⟨⟨[], some 0, true, false⟩, [0, 1], ⟨[], none, false, false⟩, rfl, rfl, rfl,
    @evaluate_lowerBound emptyCtx twoRules 3 _ _ _ _ rfl rfl rfl⟩

/-- A loop over more integers than there are steps, none of which will do. -/
def idleLoop : Cond :=
  .forIn .any (.range (.int 0) (.int 20000000)) 0 (.bool false)

def neverRule : Rule where
  cond := .not (.or [idleLoop, .bool true])
  isGlobal := false
  isPrivate := false

def idleItem (k : Nat) : M Bool := do
  bindVal 0 (some (.int (0 + Int64.ofNat k)))
  evalBool (eval emptyCtx (.bool false))

theorem idle_cut (left k s : Nat) (v : Option Value) (enough : s < left) :
    ∃ b, quantifyFrom .any idleItem left k 0 ⟨[.val v], some s, false, false⟩ =
      .ok (none, ⟨[b], some 0, true, false⟩) := by
  induction s generalizing left k v with
  | zero =>
      cases left with
      | zero => cases enough
      | succ left => exact ⟨.val v, rfl⟩
  | succ s ih =>
      cases left with
      | zero => cases enough
      | succ left => exact ih left (k + 1) _ (Nat.lt_of_succ_lt_succ enough)

theorem idle_whole (left k : Nat) (v : Option Value) :
    ∃ b, quantifyFrom .any idleItem left k 0 ⟨[.val v], none, false, false⟩ =
      .ok (some (.bool false), ⟨[b], none, false, false⟩) := by
  induction left generalizing k v with
  | zero => exact ⟨.val v, rfl⟩
  | succ left ih => exact ih (k + 1) _

theorem rangeLen_idle : rangeLen 0 20000000 = 20000001 := by decide

theorem idle_loop {steps steps' : Option Nat} {r : Option Value} {b : Binding}
    {cut : Bool}
    (ran : quantifyFrom .any idleItem 20000001 0 0 ⟨[.val none], steps, false, false⟩ =
      .ok (r, ⟨[b], steps', cut, false⟩)) :
    loop 0 [.val none] (resolve emptyCtx .any) 20000001
        (fun k => bindVal 0 (some (.int (0 + Int64.ofNat k))))
        (evalBool (eval emptyCtx (.bool false))) ⟨[], steps, false, false⟩ =
      .ok (r, ⟨[], steps', cut, false⟩) := by
  have quantified : quantify (resolve emptyCtx .any) 20000001 idleItem
      ⟨[.val none], steps, false, false⟩ = .ok (r, ⟨[b], steps', cut, false⟩) := ran
  have pushed : envPush [.val none] ⟨[], steps, false, false⟩ =
      .ok ((), ⟨[.val none], steps, false, false⟩) := rfl
  rw [loop, bind_eq pushed]
  exact bind_eq quantified _

theorem idle_range {steps steps₁ steps₂ steps' : Option Nat} {r : Option Value}
    {cut : Bool} {lo hi : Eval}
    (first : evalInt lo ⟨[], steps, false, false⟩ =
      .ok (some 0, ⟨[], steps₁, false, false⟩))
    (second : evalInt hi ⟨[], steps₁, false, false⟩ =
      .ok (some 20000000, ⟨[], steps₂, false, false⟩))
    (looped : loop 0 [.val none] (resolve emptyCtx .any) 20000001
        (fun k => bindVal 0 (some (.int (0 + Int64.ofNat k))))
        (evalBool (eval emptyCtx (.bool false))) ⟨[], steps₂, false, false⟩ =
      .ok (r, ⟨[], steps', cut, false⟩)) :
    forRange 0 lo hi (resolve emptyCtx .any)
        (evalBool (eval emptyCtx (.bool false))) ⟨[], steps, false, false⟩ =
      .ok (r, ⟨[], steps', cut, false⟩) := by
  rw [forRange, bind_eq first, bind_eq second]
  dsimp only
  rw [rangeLen_idle]
  exact looped

theorem idleLoop_cut {s : Nat} (enough : s < 20000001) :
    eval emptyCtx idleLoop ⟨[], some (s + 3), false, false⟩ =
      .ok (none, ⟨[], some 0, true, false⟩) := by
  obtain ⟨b, ran⟩ := idle_cut 20000001 0 s none enough
  have first : evalInt (eval emptyCtx (.int 0)) ⟨[], some (s + 2), false, false⟩ =
      .ok (some 0, ⟨[], some (s + 1), false, false⟩) := rfl
  have second : evalInt (eval emptyCtx (.int 20000000))
      ⟨[], some (s + 1), false, false⟩ =
        .ok (some 20000000, ⟨[], some s, false, false⟩) := rfl
  rw [idleLoop, eval, charged_step, evalForIn]
  exact idle_range first second (idle_loop ran)

/-- It comes to nothing with every step it asks for. -/
theorem idleLoop_whole :
    eval emptyCtx idleLoop ⟨[], none, false, false⟩ =
      .ok (some (.bool false), ⟨[], none, false, false⟩) := by
  obtain ⟨b, ran⟩ := idle_whole 20000001 0 none
  have first : evalInt (eval emptyCtx (.int 0)) ⟨[], none, false, false⟩ =
      .ok (some 0, ⟨[], none, false, false⟩) := rfl
  have second : evalInt (eval emptyCtx (.int 20000000)) ⟨[], none, false, false⟩ =
      .ok (some 20000000, ⟨[], none, false, false⟩) := rfl
  rw [idleLoop, eval, charged_free, evalForIn]
  exact idle_range first second (idle_loop ran)

theorem evalNot_ran {e : Eval} {st t : St} {v : Option Value}
    (ran : e st = .ok (v, t)) :
    evalNot e st = .ok (some (.bool (!truthy v)),
      { t with turned := t.turned || (t.cut && !truthy v) }) := by
  rw [evalNot, bind_eq ran]
  rfl

/-- What is left undefined is negated. -/
theorem neverRule_cut {s : Nat} (enough : s < 20000001) :
    evalBool (eval emptyCtx neverRule.cond) ⟨[], some (s + 5), false, false⟩ =
      .ok (true, ⟨[], some 0, true, true⟩) := by
  have either : eval emptyCtx (.or [idleLoop, .bool true])
      ⟨[], some (s + 4), false, false⟩ =
        .ok (some (.bool false), ⟨[], some 0, true, false⟩) := by
    rw [eval, charged_step, evalAll, evalOr, bind_eq (idleLoop_cut enough)]
    rfl
  rw [neverRule, eval, evalBool]
  exact bind_eq ((charged_step _ _ _ _ _).trans (evalNot_ran either)) _

theorem neverRule_whole :
    evalBool (eval emptyCtx neverRule.cond) ⟨[], none, false, false⟩ =
      .ok (false, ⟨[], none, false, false⟩) := by
  have either : eval emptyCtx (.or [idleLoop, .bool true]) ⟨[], none, false, false⟩ =
      .ok (some (.bool true), ⟨[], none, false, false⟩) := by
    rw [eval, charged_free, evalAll, evalOr, bind_eq idleLoop_whole]
    rfl
  rw [neverRule, eval, evalBool]
  exact bind_eq ((charged_free _ _ _ _).trans (evalNot_ran either)) _

theorem evaluate_single {ctx : EvalCtx} {rule : Rule} {steps : Option Nat}
    {r : Bool} {st : St}
    (ran : evalBool (eval { ctx with ruleResults := [] } rule.cond)
      ⟨[], steps, false, false⟩ = .ok (r, st)) :
    evaluate ctx [rule] steps = .ok (matching [rule] [r], st) := by
  have judged : evalRules ctx [rule] [] ⟨[], steps, false, false⟩ =
      .ok ([r], st) := by
    rw [evalRules, ran]
    rfl
  rw [evaluate, judged]

/-- The rule matches with the steps a scan has, and does not match without a
limit. -/
theorem not_lowerBound_neverRule :
    ∃ found st found' st',
      evaluate emptyCtx [neverRule] (some evalStepBudget) = .ok (found, st) ∧
      evaluate emptyCtx [neverRule] none = .ok (found', st') ∧
      ¬ ∀ i ∈ found, i ∈ found' := by
  have budget : evalStepBudget = 19999995 + 5 := by decide
  have limited := neverRule_cut (show 19999995 < 20000001 by decide)
  rw [← budget] at limited
  refine ⟨_, _, _, _, evaluate_single limited, evaluate_single neverRule_whole, ?_⟩
  intro every
  exact absurd (every 0 (by decide)) (by decide)

end Exav.Yara.Ir
