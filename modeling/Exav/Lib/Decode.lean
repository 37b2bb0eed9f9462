import Mathlib.Data.List.Basic

/-!
# Decoding step by step

A decoder emits its output a piece at a time until it ends or fails.  `Decodes`
is what comes of it in all; a decoder that keeps step with another decodes what
the other does.  A reader hands a content over in pieces of the caller's sizes,
and `Delivers` says that the sizes do not matter.
-/

namespace Exav.Decode

section steps

variable {σ τ ε α : Type}

/-- What one step of a decoder comes to. -/
inductive Stepped (ε α : Type) where
  | ended
  | failed (e : ε)
  | emitted (out : List α)
  deriving DecidableEq

/-- What a decoder emits in all, and how it stops. -/
inductive Decodes (step : σ → Stepped ε α × σ) :
    σ → List α → Except ε Unit → Prop where
  | ended {s after : σ} (last : step s = (.ended, after)) :
      Decodes step s [] (.ok ())
  | failed {s after : σ} {e : ε} (last : step s = (.failed e, after)) :
      Decodes step s [] (.error e)
  | emitted {s after : σ} {out rest : List α} {result : Except ε Unit}
      (first : step s = (.emitted out, after))
      (more : Decodes step after rest result) :
      Decodes step s (out ++ rest) result

/-- The states a decoder comes to. -/
inductive Reached (step : σ → Stepped ε α × σ) : σ → σ → Prop where
  | refl (s : σ) : Reached step s s
  | step {s after u : σ} {out : List α}
      (first : step s = (.emitted out, after)) (more : Reached step after u) :
      Reached step s u

theorem Decodes.step {step : σ → Stepped ε α × σ} {s : σ} {out rest : List α}
    {result : Except ε Unit} (first : (step s).1 = .emitted out)
    (more : Decodes step (step s).2 rest result) :
    Decodes step s (out ++ rest) result :=
  .emitted (Prod.ext first rfl) more

theorem Decodes.stop_ok {step : σ → Stepped ε α × σ} {s : σ}
    (last : (step s).1 = .ended) : Decodes step s [] (.ok ()) :=
  .ended (Prod.ext last rfl)

theorem Decodes.stop_error {step : σ → Stepped ε α × σ} {s : σ} {e : ε}
    (last : (step s).1 = .failed e) : Decodes step s [] (.error e) :=
  .failed (Prod.ext last rfl)

/-- What comes of a decoder depends on its first step only. -/
theorem Decodes.of_step_eq {step : σ → Stepped ε α × σ} {s s' : σ}
    (same : step s' = step s) {out : List α} {result : Except ε Unit}
    (decodes : Decodes step s out result) : Decodes step s' out result := by
  cases decodes with
  | ended last => exact .ended (same.trans last)
  | failed last => exact .failed (same.trans last)
  | emitted first more => exact .emitted (same.trans first) more

theorem Decodes.functional {step : σ → Stepped ε α × σ} {s : σ}
    {out out' : List α} {result result' : Except ε Unit}
    (left : Decodes step s out result)
    (right : Decodes step s out' result') :
    out = out' ∧ result = result' := by
  induction left generalizing out' result' with
  | ended last =>
      cases right with
      | ended _ => exact ⟨rfl, rfl⟩
      | failed last' => cases last.symm.trans last'
      | emitted first _ => cases last.symm.trans first
  | failed last =>
      cases right with
      | ended last' => cases last.symm.trans last'
      | failed last' =>
          cases last.symm.trans last'
          exact ⟨rfl, rfl⟩
      | emitted first _ => cases last.symm.trans first
  | emitted first more ih =>
      cases right with
      | ended last => cases last.symm.trans first
      | failed last => cases last.symm.trans first
      | emitted first' more' =>
          cases first.symm.trans first'
          obtain ⟨rfl, rfl⟩ := ih more'
          exact ⟨rfl, rfl⟩

/-- A decoder whose steps use up a measure stops. -/
theorem exists_decodes {step : σ → Stepped ε α × σ} {sound : σ → Prop}
    (left : σ → Nat)
    (kept : ∀ s out after, sound s → step s = (.emitted out, after) →
      sound after ∧ left after < left s)
    (s : σ) (ok : sound s) :
    ∃ out result, Decodes step s out result := by
  generalize bound : left s = n
  induction n using Nat.strongRecOn generalizing s with
  | ind n ih =>
      rcases stepped : step s with ⟨_ | e | out, after⟩
      · exact ⟨[], _, .ended stepped⟩
      · exact ⟨[], _, .failed stepped⟩
      · obtain ⟨sound', less⟩ := kept s out after ok stepped
        obtain ⟨rest, result, more⟩ :=
          ih (left after) (bound ▸ less) after sound' rfl
        exact ⟨out ++ rest, result, .emitted stepped more⟩

/-- One step of two decoders side by side. -/
def Agree (follows : σ → τ → Prop) :
    Stepped ε α × σ → Stepped ε α × τ → Prop
  | (.ended, _), (.ended, _) => True
  | (.failed e, _), (.failed e', _) => e = e'
  | (.emitted out, s), (.emitted out', t) => out = out' ∧ follows s t
  | _, _ => False

/-- Two decoders that agree wherever one follows the other. -/
def Lockstep (step : σ → Stepped ε α × σ) (step' : τ → Stepped ε α × τ)
    (follows : σ → τ → Prop) : Prop :=
  ∀ s t, follows s t → Agree follows (step s) (step' t)

variable {step : σ → Stepped ε α × σ} {step' : τ → Stepped ε α × τ}
  {follows : σ → τ → Prop}

theorem Agree.flip {x : Stepped ε α × σ} {y : Stepped ε α × τ}
    (agree : Agree follows x y) : Agree (fun t s => follows s t) y x := by
  rcases x with ⟨_ | e | out, s⟩ <;> rcases y with ⟨_ | e' | out', t⟩ <;>
    simp only [Agree] at agree ⊢
  · exact agree.symm
  · exact ⟨agree.1.symm, agree.2⟩

theorem Agree.ended {s : σ} {y : Stepped ε α × τ}
    (agree : Agree follows (.ended, s) y) : ∃ t, y = (.ended, t) := by
  rcases y with ⟨_ | e | out, t⟩ <;> simp only [Agree] at agree
  exact ⟨t, rfl⟩

theorem Agree.failed {s : σ} {e : ε} {y : Stepped ε α × τ}
    (agree : Agree follows (.failed e, s) y) : ∃ t, y = (.failed e, t) := by
  rcases y with ⟨_ | e' | out, t⟩ <;> simp only [Agree] at agree
  exact ⟨t, agree ▸ rfl⟩

theorem Agree.emitted {s : σ} {out : List α} {y : Stepped ε α × τ}
    (agree : Agree follows (.emitted out, s) y) :
    ∃ t, y = (.emitted out, t) ∧ follows s t := by
  rcases y with ⟨_ | e | out', t⟩ <;> simp only [Agree] at agree
  exact ⟨t, agree.1 ▸ rfl, agree.2⟩

theorem Decodes.follow (lockstep : Lockstep step step' follows) {s : σ} {t : τ}
    (related : follows s t) {out : List α} {result : Except ε Unit}
    (decodes : Decodes step s out result) : Decodes step' t out result := by
  induction decodes generalizing t with
  | ended last =>
      obtain ⟨after, last'⟩ := (last ▸ lockstep _ _ related).ended
      exact .ended last'
  | failed last =>
      obtain ⟨after, last'⟩ := (last ▸ lockstep _ _ related).failed
      exact .failed last'
  | emitted first _ ih =>
      obtain ⟨after, first', related'⟩ :=
        (first ▸ lockstep _ _ related).emitted
      exact .emitted first' (ih related')

/-- So the first comes to no state but those that follow one of the second. -/
theorem Reached.follow (lockstep : Lockstep step step' follows) {s v : σ}
    (reached : Reached step s v) {t : τ} (related : follows s t) :
    ∃ u, Reached step' t u ∧ follows v u := by
  induction reached generalizing t with
  | refl s => exact ⟨t, .refl t, related⟩
  | step first _ ih =>
      obtain ⟨after, first', related'⟩ :=
        (first ▸ lockstep _ _ related).emitted
      obtain ⟨u, reached', related''⟩ := ih related'
      exact ⟨u, .step first' reached', related''⟩

def Same (step : σ → Stepped ε α × σ) (step' : τ → Stepped ε α × τ) (s : σ)
    (t : τ) : Prop :=
  ∀ out result, Decodes step s out result ↔ Decodes step' t out result

theorem Decodes.split_iff {s after : σ} {out whole : List α}
    {result : Except ε Unit} (first : step s = (.emitted out, after)) :
    Decodes step s whole result ↔
      ∃ rest, whole = out ++ rest ∧ Decodes step after rest result := by
  constructor
  · intro decodes
    cases decodes with
    | ended last => cases first.symm.trans last
    | failed last => cases first.symm.trans last
    | emitted first' more =>
        cases first.symm.trans first'
        exact ⟨_, rfl, more⟩
  · rintro ⟨rest, rfl, more⟩
    exact .emitted first more

theorem Decodes.silent_iff {s after : σ} {whole : List α}
    {result : Except ε Unit} (first : step s = (.emitted [], after)) :
    Decodes step s whole result ↔ Decodes step after whole result := by
  rw [Decodes.split_iff first]
  constructor
  · rintro ⟨rest, rfl, more⟩
    exact more
  · exact fun more => ⟨whole, rfl, more⟩

theorem Same.of_decodes {s : σ} {t : τ} {out : List α}
    {result : Except ε Unit} (left : Decodes step s out result)
    (right : Decodes step' t out result) : Same step step' s t := by
  intro out' result'
  constructor
  · intro decodes
    obtain ⟨rfl, rfl⟩ := decodes.functional left
    exact right
  · intro decodes
    obtain ⟨rfl, rfl⟩ := decodes.functional right
    exact left

theorem Same.step_iff {s s' : σ} {t t' : τ} {out : List α}
    (left : step s = (.emitted out, s')) (right : step' t = (.emitted out, t')) :
    Same step step' s t ↔ Same step step' s' t' := by
  constructor
  · intro same rest result
    constructor
    · intro decodes
      obtain ⟨rest', split, more⟩ := (Decodes.split_iff right).mp
        ((same _ _).mp (.emitted left decodes))
      rwa [List.append_cancel_left split]
    · intro decodes
      obtain ⟨rest', split, more⟩ := (Decodes.split_iff left).mp
        ((same _ _).mpr (.emitted right decodes))
      rwa [List.append_cancel_left split]
  · intro same whole result
    rw [Decodes.split_iff left, Decodes.split_iff right]
    exact exists_congr fun rest => and_congr_right fun _ => same rest result

theorem Same.silent_right {s : σ} {t t' : τ}
    (right : step' t = (.emitted [], t')) :
    Same step step' s t ↔ Same step step' s t' :=
  forall_congr' fun _ => forall_congr' fun _ =>
    iff_congr Iff.rfl (Decodes.silent_iff right)

end steps

/-! ## Reading -/

section reading

variable {ρ ε α : Type}

/-- Reads of the given sizes, up to an error or to one that gives nothing: what
they deliver, and how they stop if they do. -/
def readAll (read : ρ → Nat → Except ε (List α) × ρ) :
    ρ → List Nat → List α × Option (Except ε Unit)
  | _, [] => ([], none)
  | r, size :: sizes =>
      match read r size with
      | (.error e, _) => ([], some (.error e))
      | (.ok got, r) =>
          if got.isEmpty ∧ 0 < size then ([], some (.ok ()))
          else
            let (rest, stop) := readAll read r sizes
            (got ++ rest, stop)

/-- Reads of any sizes deliver a content from its start on, and stop at the end
of it.  Reads of more than nothing come there. -/
structure Delivers (read : ρ → Nat → Except ε (List α) × ρ) (r : ρ)
    (content : List α) (result : Except ε Unit) : Prop where
  starts : ∀ sizes, (readAll read r sizes).1 <+: content
  whole : ∀ sizes stop, (readAll read r sizes).2 = some stop →
    (readAll read r sizes).1 = content ∧ stop = result
  stops : ∀ sizes, (∀ size ∈ sizes, 0 < size) →
    content.length < sizes.length → (readAll read r sizes).2 = some result

/-- What one read must do, where `left` says what a reader still has to hand
over. -/
structure Hands (read : ρ → Nat → Except ε (List α) × ρ)
    (left : ρ → List α → Except ε Unit → Prop) : Prop where
  given : ∀ r content result size got after, left r content result →
    read r size = (.ok got, after) → ∃ more, content = got ++ more ∧
      left after more result ∧
      (got = [] → 0 < size → content = [] ∧ result = .ok ())
  failed : ∀ r content result size e after, left r content result →
    read r size = (.error e, after) → content = [] ∧ result = .error e

variable {read : ρ → Nat → Except ε (List α) × ρ}
  {left : ρ → List α → Except ε Unit → Prop}

theorem Hands.starts (hands : Hands read left) {r : ρ} {content : List α}
    {result : Except ε Unit} (has : left r content result)
    (sizes : List Nat) : (readAll read r sizes).1 <+: content := by
  induction sizes generalizing r content with
  | nil => exact List.nil_prefix
  | cons size sizes ih =>
      unfold readAll
      rcases step : read r size with ⟨_ | got, after⟩
      · exact List.nil_prefix
      · obtain ⟨more, rfl, has', _⟩ :=
          hands.given _ _ _ _ _ _ has step
        dsimp only
        split
        · exact List.nil_prefix
        · exact (List.prefix_append_right_inj got).mpr (ih has')

theorem Hands.whole (hands : Hands read left) {r : ρ} {content : List α}
    {result : Except ε Unit} (has : left r content result)
    (sizes : List Nat) (stop : Except ε Unit)
    (stopped : (readAll read r sizes).2 = some stop) :
    (readAll read r sizes).1 = content ∧ stop = result := by
  induction sizes generalizing r content with
  | nil => cases stopped
  | cons size sizes ih =>
      unfold readAll at stopped ⊢
      rcases step : read r size with ⟨e | got, after⟩
      · rw [step] at stopped
        cases stopped
        obtain ⟨rfl, rfl⟩ := hands.failed _ _ _ _ _ _ has step
        exact ⟨rfl, rfl⟩
      · rw [step] at stopped
        obtain ⟨more, rfl, has', last⟩ := hands.given _ _ _ _ _ _ has step
        dsimp only at stopped ⊢
        split
        · rename_i nothing
          rw [if_pos nothing] at stopped
          cases stopped
          obtain ⟨empty, rfl⟩ :=
            last (List.isEmpty_iff.mp nothing.1) nothing.2
          exact ⟨empty.symm, rfl⟩
        · rename_i something
          rw [if_neg something] at stopped
          obtain ⟨same, rfl⟩ := ih has' stopped
          exact ⟨congrArg (got ++ ·) same, rfl⟩

theorem Hands.stops (hands : Hands read left) {r : ρ} {content : List α}
    {result : Except ε Unit} (has : left r content result)
    (sizes : List Nat) (positive : ∀ size ∈ sizes, 0 < size)
    (many : content.length < sizes.length) :
    (readAll read r sizes).2.isSome := by
  induction sizes generalizing r content with
  | nil => cases many
  | cons size sizes ih =>
      unfold readAll
      rcases step : read r size with ⟨e | got, after⟩
      · rfl
      · obtain ⟨more, rfl, has', last⟩ := hands.given _ _ _ _ _ _ has step
        dsimp only
        split
        · rfl
        · rename_i something
          apply ih has'
          · exact fun size member => positive size (.tail _ member)
          · have taken : got ≠ [] := by
              intro empty
              apply something
              exact ⟨List.isEmpty_iff.mpr empty, positive size (.head _)⟩
            have one := List.length_pos_iff.mpr taken
            rw [List.length_append, List.length_cons] at many
            omega

theorem Hands.delivers (hands : Hands read left) {r : ρ} {content : List α}
    {result : Except ε Unit} (has : left r content result) :
    Delivers read r content result where
  starts := hands.starts has
  whole := hands.whole has
  stops := by
    intro sizes positive many
    obtain ⟨stop, stopped⟩ :=
      Option.isSome_iff_exists.mp (hands.stops has sizes positive many)
    rw [stopped, (hands.whole has sizes stop stopped).2]

theorem Delivers.functional {r : ρ} {content content' : List α}
    {result result' : Except ε Unit} (left : Delivers read r content result)
    (right : Delivers read r content' result') :
    content = content' ∧ result = result' := by
  have ones := left.stops
    (List.replicate (content.length + 1) 1)
    (fun size member => by
      rw [List.eq_of_mem_replicate member]
      exact Nat.one_pos)
    (by
      rw [List.length_replicate]
      exact Nat.lt_succ_self _)
  obtain ⟨all, _⟩ := left.whole _ _ ones
  obtain ⟨all', same⟩ := right.whole _ _ ones
  exact ⟨all.symm.trans all', same⟩

end reading

end Exav.Decode
