import Exav.Yara.Ir

/-!
# Conditions cut short

A scan that runs out of steps goes on with undefined where it would have gone on
evaluating.  What comes out true is then true with all the steps as well, as long
as nothing that was cut short is negated, asked whether it is defined, counted by
a quantifier that wants none, or used as a number or an argument.
-/

namespace Exav.Yara.Ir

/-! ## Runs side by side -/

/-- A scan that has run out. -/
structure Cut (st : St) : Prop where
  steps : st.steps = some 0
  cut : st.cut = true

/-- A scan that has not, beside one that never will. -/
structure Sync (st st' : St) : Prop where
  env : st.env = st'.env
  unlimited : st'.steps = none
  whole : st.cut = false
  turned : st.turned = false

/-- Beside one that never runs out, a computation does the same, or runs out: then
it notes that something was turned, or what it gives is related to what the other
one does. -/
def Approx {α : Type} (R : α → α → Prop) (m : M α) : Prop :=
  ∀ st st', Sync st st' → ∀ a t, m st = .ok (a, t) →
    ∀ a' t', m st' = .ok (a', t') →
      (a = a' ∧ Sync t t') ∨ (Cut t ∧ (t.turned = true ∨ R a a'))

/-- A scan that has run out has still done so after the computation, and what was
noted is. -/
def Calm {α : Type} (m : M α) : Prop :=
  ∀ st, Cut st → ∀ a t, m st = .ok (a, t) →
    Cut t ∧ (st.turned = true → t.turned = true)

/-- A computation that is undefined once the scan has run out. -/
def Dead {α : Type} (m : M (Option α)) : Prop :=
  ∀ st, Cut st → m st = .ok (none, st)

/-- An undefined result stands beside every other. -/
def Nothing {α : Type} (a _a' : Option α) : Prop := a = none

/-- An undefined result, or a boolean that is true only if the other one is. -/
def Low (a a' : Option Value) : Prop :=
  a = none ∨ ∃ b, a = some (.bool b) ∧ (b = true → truthy a' = true)

section

variable {α β : Type} {R : α → α → Prop} {S : β → β → Prop} {m : M α}

theorem Approx.mono (approx : Approx R m) {R' : α → α → Prop}
    (weaker : ∀ a a', R a a' → R' a a') : Approx R' m := by
  intro st st' sync a t ran a' t' ran'
  rcases approx st st' sync a t ran a' t' ran' with same | ⟨cut, turned | related⟩
  · exact .inl same
  · exact .inr ⟨cut, .inl turned⟩
  · exact .inr ⟨cut, .inr (weaker a a' related)⟩

theorem Dead.calm {m : M (Option α)} (dead : Dead m) : Calm m := by
  intro st cut a t ran
  rw [dead st cut] at ran
  cases ran
  exact ⟨cut, id⟩

theorem approx_pure (a : α) : Approx R (pure a) := by
  intro st st' sync b t ran b' t' ran'
  cases ran
  cases ran'
  exact .inl ⟨rfl, sync⟩

theorem calm_pure (a : α) : Calm (pure a) := by
  intro st cut b t ran
  cases ran
  exact ⟨cut, id⟩

theorem calm_bind {f : α → M β} (first : Calm m) (rest : ∀ a, Calm (f a)) :
    Calm (m >>= f) := by
  intro st cut b t ran
  obtain ⟨a, s, ran_first, ran_rest⟩ := bind_ok ran
  obtain ⟨cut_s, noted⟩ := first st cut a s ran_first
  obtain ⟨cut_t, noted'⟩ := rest a s cut_s b t ran_rest
  exact ⟨cut_t, fun turned => noted' (noted turned)⟩

/-- A computation goes on beside itself; where it has run out, what is left of it
is related to what the other one goes on to. -/
theorem approx_bind {f : α → M β} (first : Approx R m)
    (rest : ∀ a, Approx S (f a)) (calm : ∀ a, Calm (f a))
    (low : ∀ a a', R a a' → ∀ st, Cut st → ∀ b t, f a st = .ok (b, t) →
      t.turned = true ∨ ∀ st' b' t', f a' st' = .ok (b', t') → S b b') :
    Approx S (m >>= f) := by
  intro st st' sync b t ran b' t' ran'
  obtain ⟨a, s, ran_first, ran_rest⟩ := bind_ok ran
  obtain ⟨a', s', ran_first', ran_rest'⟩ := bind_ok ran'
  rcases first st st' sync a s ran_first a' s' ran_first' with
    ⟨rfl, sync_s⟩ | ⟨cut, turned | related⟩
  · exact rest a s s' sync_s b t ran_rest b' t' ran_rest'
  · obtain ⟨cut_t, noted⟩ := calm a s cut b t ran_rest
    exact .inr ⟨cut_t, .inl (noted turned)⟩
  · obtain ⟨cut_t, -⟩ := calm a s cut b t ran_rest
    refine .inr ⟨cut_t, ?_⟩
    exact (low a a' related s cut b t ran_rest).imp_right
      fun so => so s' b' t' ran_rest'

end

/-! ## Steps -/

/-- A computation that takes no step and does not depend on them is never cut
short. -/
theorem approx_still {α : Type} {R : α → α → Prop} {m : M α}
    (still : ∀ st st' a t a' t', Sync st st' → m st = .ok (a, t) →
      m st' = .ok (a', t') → a = a' ∧ Sync t t') : Approx R m := by
  intro st st' sync a t ran a' t' ran'
  exact .inl (still st st' a t a' t' sync ran ran')

theorem calm_noteTurn (r : Bool) : Calm (noteTurn r) := by
  intro st cut a t ran
  cases ran
  exact ⟨⟨cut.steps, cut.cut⟩, fun turned => by simp [turned]⟩

theorem approx_noteTurn (r : Bool) :
    Approx (fun _ _ => False) (noteTurn r) := by
  apply approx_still
  intro st st' a t a' t' sync ran ran'
  cases ran
  cases ran'
  exact ⟨rfl, sync.env, sync.unlimited, sync.whole, by
    simp [sync.turned, sync.whole]⟩

theorem charged_step (e : Eval) (env : List Binding) (left : Nat) (cut turned : Bool) :
    charged e ⟨env, some (left + 1), cut, turned⟩ =
      e ⟨env, some left, cut, turned⟩ := rfl

theorem charged_free (e : Eval) (env : List Binding) (cut turned : Bool) :
    charged e ⟨env, none, cut, turned⟩ = e ⟨env, none, cut, turned⟩ := rfl

theorem dead_charged (e : Eval) : Dead (charged e) := by
  intro st cut
  have refused : chargeStep st = .ok (false, st) := by
    obtain ⟨env, steps, isCut, turned⟩ := st
    obtain ⟨rfl, rfl⟩ := cut
    rfl
  rw [charged, bind_eq refused]
  rfl

theorem approx_charged {e : Eval} (approx : Approx Low e) :
    Approx Low (charged e) := by
  intro st st' sync a t ran a' t' ran'
  obtain ⟨env, steps, isCut, turned⟩ := st
  obtain ⟨env', steps', isCut', turned'⟩ := st'
  obtain ⟨same_env, rfl, whole, unturned⟩ := sync
  cases steps with
  | none => exact approx _ _ ⟨same_env, rfl, whole, unturned⟩ a t ran a' t' ran'
  | some left =>
      cases left with
      | zero =>
          cases ran
          exact .inr ⟨⟨rfl, rfl⟩, .inr (.inl rfl)⟩
      | succ left =>
          exact approx ⟨env, some left, isCut, turned⟩ _
            ⟨same_env, rfl, whole, unturned⟩ a t ran a' t' ran'

/-! ## What is defined -/

section

variable {α β : Type}

theorem dead_known {m : M (Option α)} (dead : Dead m) (f : α → M (Option β)) :
    Dead (known m f) := by
  intro st cut
  rw [known, bind_eq (dead st cut)]
  rfl

theorem calm_known {m : M (Option α)} {f : α → M (Option β)} (first : Calm m)
    (rest : ∀ a, Calm (f a)) : Calm (known m f) := by
  apply calm_bind first
  intro a
  cases a with
  | none => exact calm_pure none
  | some a => exact rest a

/-- Going on with what is defined, of a computation that is undefined when it is
cut short. -/
theorem approx_known {m : M (Option α)} {f : α → M (Option β)}
    {S : Option β → Option β → Prop} (first : Approx Nothing m)
    (rest : ∀ a, Approx S (f a)) (calm : ∀ a, Calm (f a)) (least : ∀ b, S none b) :
    Approx S (known m f) := by
  apply approx_bind first
  · intro a
    cases a with
    | none => exact approx_pure none
    | some a => exact rest a
  · intro a
    cases a with
    | none => exact calm_pure none
    | some a => exact calm a
  · rintro a a' rfl st cut b t ran
    cases ran
    exact .inr fun _ b' _ _ => least b'

/-- Going on with a value, which is a boolean when it was cut short but defined. -/
theorem approx_value {e : Eval} {f : Value → M (Option β)}
    {S : Option β → Option β → Prop} (first : Approx Low e)
    (rest : ∀ v, Approx S (f v)) (calm : ∀ v, Calm (f v)) (least : ∀ b, S none b)
    (dull : ∀ b st, Cut st → ∀ r t, f (.bool b) st = .ok (r, t) →
      t.turned = true ∨ r = none) : Approx S (known e f) := by
  apply approx_bind first
  · intro a
    cases a with
    | none => exact approx_pure none
    | some a => exact rest a
  · intro a
    cases a with
    | none => exact calm_pure none
    | some a => exact calm a
  · rintro a a' (rfl | ⟨b, rfl, -⟩) st cut r t ran
    · cases ran
      exact .inr fun _ b' _ _ => least b'
    · refine (dull b st cut r t ran).imp_right ?_
      rintro rfl _ b' _ _
      exact least b'

theorem nothing_least (b : Option α) : Nothing none b := rfl

theorem low_least (v : Option Value) : Low none v := .inl rfl

theorem Nothing.low {a a' : Option Value} (nothing : Nothing a a') : Low a a' :=
  .inl nothing

end

section

variable {e lo hi : Eval}

theorem dead_evalInt (dead : Dead e) : Dead (evalInt e) := dead_known dead _

theorem approx_evalInt (approx : Approx Low e) : Approx Nothing (evalInt e) := by
  apply approx_value approx
  · intro v
    exact approx_bind (approx_noteTurn true) (fun _ => approx_pure _)
      (fun _ => calm_pure _) fun _ _ never => never.elim
  · exact fun v => calm_bind (calm_noteTurn true) fun _ => calm_pure _
  · exact nothing_least
  · -- A boolean that was cut short is turned into a number.
    intro b st cut r t ran
    cases ran
    exact .inl (by simp [cut.cut])

theorem approx_evalStr (approx : Approx Low e) : Approx Nothing (evalStr e) := by
  apply approx_value approx (fun _ => approx_pure _) (fun _ => calm_pure _)
    nothing_least
  intro b st cut r t ran
  cases ran
  exact .inr rfl

theorem dead_placeBetween (dead : Dead lo) : Dead (placeBetween lo hi) :=
  dead_known (dead_evalInt dead) _

theorem approx_placeBetween (approx_lo : Approx Low lo) (approx_hi : Approx Low hi)
    (dead_hi : Dead hi) : Approx Nothing (placeBetween lo hi) := by
  apply approx_known (approx_evalInt approx_lo) ?_ ?_ nothing_least
  · intro lo
    exact approx_known (approx_evalInt approx_hi) (fun _ => approx_pure _)
      (fun _ => calm_pure _) nothing_least
  · exact fun _ => (dead_known (dead_evalInt dead_hi) _).calm

end

/-! ## Operators -/

/-- Evaluations of which each is undefined once the scan has run out. -/
structure Parts (es : List Eval) : Prop where
  approx : ∀ e ∈ es, Approx Low e
  dead : ∀ e ∈ es, Dead e

theorem Parts.head {e : Eval} {es : List Eval} (parts : Parts (e :: es)) :
    Approx Low e ∧ Dead e :=
  ⟨parts.approx e List.mem_cons_self, parts.dead e List.mem_cons_self⟩

theorem Parts.tail {e : Eval} {es : List Eval} (parts : Parts (e :: es)) :
    Parts es :=
  ⟨fun e' there => parts.approx e' (List.mem_cons_of_mem _ there),
    fun e' there => parts.dead e' (List.mem_cons_of_mem _ there)⟩

theorem low_bool {b : Bool} {v : Option Value}
    (only : b = true → truthy v = true) : Low (some (.bool b)) v :=
  .inr ⟨b, rfl, only⟩

theorem calm_outcome (turns r : Bool) : Calm (outcome turns r) :=
  calm_bind (calm_noteTurn turns) fun _ => calm_pure _

theorem approx_outcome (turns r : Bool) : Approx Low (outcome turns r) :=
  approx_bind (approx_noteTurn turns) (fun _ => approx_pure _)
    (fun _ => calm_pure _) fun _ _ never => never.elim

theorem outcome_cut {turns r : Bool} {st t : St} (cut : Cut st)
    {v : Option Value} (ran : outcome turns r st = .ok (v, t)) :
    v = some (.bool r) ∧ (turns = true → t.turned = true) := by
  cases ran
  refine ⟨rfl, ?_⟩
  rintro rfl
  simp [cut.cut]

theorem outcome_low {r : Bool} {st t : St} (cut : Cut st) {v : Option Value}
    (ran : outcome r r st = .ok (v, t)) :
    t.turned = true ∨ ∀ other, Low v other := by
  obtain ⟨rfl, noted⟩ := outcome_cut cut ran
  cases r with
  | true => exact .inl (noted rfl)
  | false => exact .inr fun _ => low_bool fun never => by cases never

section

variable {e : Eval}

theorem approx_not (approx : Approx Low e) : Approx Low (evalNot e) := by
  apply approx_bind approx (fun _ => approx_outcome _ _) (fun _ => calm_outcome _ _)
  intro a a' _ st cut b t ran
  exact (outcome_low cut ran).imp_right fun low _ b' _ _ => low b'

theorem approx_defined (approx : Approx Low e) : Approx Low (evalDefined e) := by
  apply approx_bind approx (fun _ => approx_outcome _ _) (fun _ => calm_outcome _ _)
  intro a a' _ st cut b t ran
  exact (outcome_low cut ran).imp_right fun low _ b' _ _ => low b'

theorem and_cut {es : List Eval} (parts : Parts es) {st : St} (cut : Cut st) :
    evalAnd es st = .ok (some (.bool es.isEmpty), st) := by
  cases es with
  | nil => rfl
  | cons e es =>
      rw [evalAnd, bind_eq (parts.head.2 st cut)]
      rfl

theorem or_cut {es : List Eval} (parts : Parts es) {st : St} (cut : Cut st) :
    evalOr es st = .ok (some (.bool false), st) := by
  induction es with
  | nil => rfl
  | cons e es ih =>
      rw [evalOr, bind_eq (parts.head.2 st cut)]
      exact ih parts.tail

theorem Low.truthy {a a' : Option Value} (low : Low a a')
    (holds : truthy a = true) : truthy a' = true := by
  rcases low with rfl | ⟨b, rfl, only⟩
  · cases holds
  · exact only holds

theorem calm_done {α : Type} (a : α) : Calm (done a) := calm_pure _

theorem calm_of_cut {α : Type} {m : M α} {a : α}
    (stays : ∀ st, Cut st → m st = .ok (a, st)) : Calm m := by
  intro st cut b t ran
  rw [stays st cut] at ran
  cases ran
  exact ⟨cut, id⟩

theorem approx_and {es : List Eval} (parts : Parts es) :
    Approx Low (evalAnd es) := by
  induction es with
  | nil => exact approx_pure _
  | cons e es ih =>
      apply approx_bind parts.head.1
      · intro a
        split
        · exact ih parts.tail
        · exact approx_pure _
      · intro a
        split
        · exact calm_of_cut fun _ => and_cut parts.tail
        · exact calm_done _
      · intro a a' low st cut b t ran
        refine .inr fun st' b' t' ran' => ?_
        split at ran
        · rename_i holds
          rw [and_cut parts.tail cut] at ran
          rw [if_pos (low.truthy holds)] at ran'
          cases ran
          cases es with
          | nil =>
              cases ran'
              exact low_bool fun _ => rfl
          | cons => exact low_bool fun never => by cases never
        · cases ran
          exact low_bool fun never => by cases never

theorem approx_or {es : List Eval} (parts : Parts es) :
    Approx Low (evalOr es) := by
  induction es with
  | nil => exact approx_pure _
  | cons e es ih =>
      apply approx_bind parts.head.1
      · intro a
        split
        · exact approx_pure _
        · exact ih parts.tail
      · intro a
        split
        · exact calm_done _
        · exact calm_of_cut fun _ => or_cut parts.tail
      · intro a a' low st cut b t ran
        refine .inr fun st' b' t' ran' => ?_
        split at ran
        · rename_i holds
          rw [if_pos (low.truthy holds)] at ran'
          cases ran
          cases ran'
          exact low_bool fun _ => rfl
        · rw [or_cut parts.tail cut] at ran
          cases ran
          exact low_bool fun never => by cases never

theorem approx_both {a b : Eval} {f : Value → Value → Option Value}
    (approx_a : Approx Low a) (approx_b : Approx Low b) (dead_b : Dead b)
    (dull : ∀ v x, f v (.bool x) = none) : Approx Low (both a b f) := by
  apply approx_value approx_a ?_ (fun v => (dead_known dead_b _).calm) low_least
  · intro x st cut r t ran
    rw [dead_known dead_b _ st cut] at ran
    cases ran
    exact .inr rfl
  · intro v
    apply approx_value approx_b (fun _ => approx_pure _) (fun _ => calm_pure _)
      low_least
    intro x st cut r t ran
    cases ran
    exact .inr (dull v x)

theorem approx_strCmp {a b : Eval} {holds : Bytes → Bytes → Bool}
    (approx_a : Approx Low a) (approx_b : Approx Low b) (dead_b : Dead b) :
    Approx Low (evalStrCmp holds a b) := by
  apply approx_known (approx_evalStr approx_a) ?_ ?_ low_least
  · intro s
    exact approx_known (approx_evalStr approx_b) (fun _ => approx_pure _)
      (fun _ => calm_pure _) low_least
  · exact fun _ => (dead_known (dead_known dead_b _) _).calm

theorem approx_args {es : List Eval} (parts : Parts es) :
    Approx (fun _ _ => True) (evalArgs es) ∧ Calm (evalArgs es) := by
  induction es with
  | nil => exact ⟨approx_pure _, calm_pure _⟩
  | cons e es ih =>
      obtain ⟨approx, calm⟩ := ih parts.tail
      have rest : ∀ v : Value, Calm (known (evalArgs es) fun vs => done (v :: vs)) :=
        fun _ => calm_known calm fun _ => calm_pure _
      constructor
      · apply approx_bind parts.head.1
        · intro a
          cases a with
          | none => exact approx_pure _
          | some v =>
              apply approx_bind approx
              · intro vs
                cases vs with
                | none => exact approx_pure _
                | some vs => exact approx_pure _
              · intro vs
                cases vs with
                | none => exact calm_pure _
                | some vs => exact calm_pure _
              · exact fun _ _ _ _ _ _ _ _ => .inr fun _ _ _ _ => trivial
        · intro a
          cases a with
          | none => exact calm_pure _
          | some v => exact rest v
        · exact fun _ _ _ _ _ _ _ _ => .inr fun _ _ _ _ => trivial
      · exact calm_known parts.head.2.calm rest

theorem approx_call {args : M (Option (List Value))}
    {call : List Value → Option Value}
    (approx : Approx (fun _ _ => True) args) :
    Approx Low (known args fun vals => do
      noteTurn true
      return call vals) := by
  apply approx_bind approx
  · intro a
    cases a with
    | none => exact approx_pure _
    | some vals =>
        exact approx_bind (approx_noteTurn true) (fun _ => approx_pure _)
          (fun _ => calm_pure _) fun _ _ never => never.elim
  · intro a
    cases a with
    | none => exact calm_pure _
    | some vals => exact calm_bind (calm_noteTurn true) fun _ => calm_pure _
  · intro a a' _ st cut b t ran
    cases a with
    | none =>
        cases ran
        exact .inr fun _ b' _ _ => low_least b'
    | some vals =>
        cases ran
        exact .inl (by simp [cut.cut])

end

end Exav.Yara.Ir
