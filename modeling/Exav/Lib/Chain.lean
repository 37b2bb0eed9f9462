import Mathlib.Data.List.Basic

/-!
# Members decoded one after another into one window

A solid member continues the stream of the members before it, so it decodes to
its own bytes only on a window that holds them all.  `InStep` says of a decoder
that it was fed every member with data, in order, since a member that started
afresh or one `trusted` to bring it back; with nothing trusted that is what a
whole window is.
-/

namespace Exav.Chain

/-- How members of type `M` are decoded by decoders of type `D` to outputs of
type `B`. -/
structure Stream (M D B : Type) where
  /-- The member has data, which a later member may continue. -/
  carries : M → Prop
  solid : M → Prop
  fresh : M → D → Prop
  decodes : M → D → B → D → Prop

section

variable {M D B : Type} (str : Stream M D B) (trusted : M → B → Prop)

/-- Every member with data since the last fresh window, or the last trusted
one, was decoded in order into this decoder. -/
inductive InStep : List M → D → Prop where
  | first {before : List M} {m : M} {d d' : D} {b : B} :
      (∀ earlier ∈ before, ¬str.carries earlier) → str.fresh m d →
      str.decodes m d b d' → InStep (before ++ [m]) d'
  | afresh {before : List M} {m : M} {d d' : D} {b : B} :
      ¬str.solid m → str.fresh m d → str.decodes m d b d' →
      InStep (before ++ [m]) d'
  | brought {before : List M} {m : M} {d d' : D} {b : B} :
      str.decodes m d b d' → trusted m b → InStep (before ++ [m]) d'
  | further {before : List M} {m : M} {d d' : D} {b : B} :
      InStep before d → str.decodes m d b d' → InStep (before ++ [m]) d'
  | idle {before : List M} {m : M} {d : D} :
      InStep before d → ¬str.carries m → InStep (before ++ [m]) d

def Sound (before : List M) (m : M) (b : B) : Prop :=
  ∃ d d', str.decodes m d b d' ∧ (InStep str trusted before d ∨
    str.fresh m d ∧ ∀ earlier ∈ before, ¬str.carries earlier)

/-- What an in-step flag promises about the decoder beside it. -/
def Promises (before : List M) (inStep : Bool) : Option D → Prop
  | some d => inStep = true → InStep str trusted before d
  | none => inStep = true → ∀ earlier ∈ before, ¬str.carries earlier

variable {str trusted} {before : List M} {m : M}

theorem Promises.lowered (dec : Option D) :
    Promises str trusted before false dec := by
  cases dec with
  | none => exact fun raised => Bool.noConfusion raised
  | some d => exact fun raised => Bool.noConfusion raised

theorem Promises.idle {inStep : Bool} {dec : Option D}
    (promised : Promises str trusted before inStep dec)
    (empty : ¬str.carries m) :
    Promises str trusted (before ++ [m]) inStep dec := by
  cases dec with
  | some d => exact fun raised => .idle (promised raised) empty
  | none =>
      intro raised earlier member
      rcases List.mem_append.mp member with old | new
      · exact promised raised earlier old
      · rwa [List.mem_singleton.mp new]

theorem Promises.sound {dec : Option D} {d d' : D} {b : B}
    (promised : Promises str trusted before true dec)
    (window : dec = some d ∨ dec = none ∧ str.fresh m d)
    (decodes : str.decodes m d b d') : Sound str trusted before m b := by
  refine ⟨d, d', decodes, ?_⟩
  rcases window with kept | ⟨absent, fresh⟩
  · subst kept
    exact Or.inl (promised rfl)
  · subst absent
    exact Or.inr ⟨fresh, promised rfl⟩

/-- The window after a member is decoded: it is in step when the member started
it, when it was in step already, or when the member brought it back. -/
theorem Promises.decoded {inStep after : Bool} {dec : Option D} {d d' : D}
    {b : B} (promised : Promises str trusted before inStep dec)
    (afresh : ¬str.solid m → str.fresh m d)
    (kept : str.solid m → dec = some d ∨ dec = none ∧ str.fresh m d)
    (decodes : str.decodes m d b d')
    (raised : after = true → str.solid m → inStep = true ∨ trusted m b) :
    Promises str trusted (before ++ [m]) after (some d') := by
  intro holds
  by_cases solid : str.solid m
  · rcases raised holds solid with steady | trust
    · subst steady
      rcases kept solid with same | ⟨absent, fresh⟩
      · subst same
        exact .further (promised rfl) decodes
      · subst absent
        exact .first (promised rfl) fresh decodes
    · exact .brought decodes trust
  · exact .afresh solid (afresh solid) decodes

/-- Nothing is in step right after a member with data that no decoder reads. -/
theorem InStep.undecoded {d : D} (carries : str.carries m)
    (never : ∀ d b d', ¬str.decodes m d b d') :
    ¬InStep str trusted (before ++ [m]) d := by
  intro inStep
  generalize all : before ++ [m] = members at inStep
  cases inStep with
  | first _ _ decodes =>
      cases (List.append_inj' all rfl).2
      exact never _ _ _ decodes
  | afresh _ _ decodes =>
      cases (List.append_inj' all rfl).2
      exact never _ _ _ decodes
  | brought decodes _ =>
      cases (List.append_inj' all rfl).2
      exact never _ _ _ decodes
  | further _ decodes =>
      cases (List.append_inj' all rfl).2
      exact never _ _ _ decodes
  | idle _ empty =>
      cases (List.append_inj' all rfl).2
      exact empty carries

theorem InStep.continued {d : D} (solid : str.solid m)
    (untrusted : ∀ b, ¬trusted m b) {earlier : M} (old : earlier ∈ before)
    (carries : str.carries earlier) (inStep : InStep str trusted (before ++ [m]) d) :
    ∃ d', InStep str trusted before d' := by
  generalize all : before ++ [m] = members at inStep
  cases inStep with
  | first clear _ _ =>
      obtain ⟨same, -⟩ := List.append_inj' all rfl
      subst same
      exact (clear earlier old carries).elim
  | afresh apart _ _ =>
      obtain ⟨-, same⟩ := List.append_inj' all rfl
      cases same
      exact (apart solid).elim
  | brought _ trust =>
      obtain ⟨-, same⟩ := List.append_inj' all rfl
      cases same
      exact (untrusted _ trust).elim
  | further kept _ =>
      obtain ⟨same, -⟩ := List.append_inj' all rfl
      subst same
      exact ⟨_, kept⟩
  | idle kept _ =>
      obtain ⟨same, -⟩ := List.append_inj' all rfl
      subst same
      exact ⟨_, kept⟩

end

end Exav.Chain
