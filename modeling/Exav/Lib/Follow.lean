import Mathlib.Data.List.Count
import Mathlib.Data.List.Nodup

/-!
# Walks that come to a place once

A walk goes from state to state until it is over, and comes to a place on some of
its steps.  One that marks every place it comes to, and comes to none that is
marked, is over after a bounded number of steps and has come to each place at
most once.
-/

namespace Exav.Once

/-- A walk of at most so many steps: the places it came to, and where it is
then. -/
def walk {σ κ : Type} (step : σ → Option (Option κ × σ)) :
    (rounds : Nat) → σ → List κ × σ
  | 0, w => ([], w)
  | rounds + 1, w =>
      match step w with
      | none => ([], w)
      | some (place, w) =>
          let (places, last) := walk step rounds w
          (place.toList ++ places, last)

section

variable {σ κ : Type} {step : σ → Option (Option κ × σ)}

theorem walk_over {w : σ} (excess : step w = none) (rounds : Nat) :
    walk step rounds w = ([], w) := by
  cases rounds with
  | zero => rfl
  | succ rounds => rw [walk, excess]

theorem walk_step {w w' : σ} {place : Option κ}
    (stepped : step w = some (place, w')) (rounds : Nat) :
    walk step (rounds + 1) w =
      (place.toList ++ (walk step rounds w').1, (walk step rounds w').2) := by
  rw [walk, stepped]

/-- After so many rounds the walk is over, and has come to each place at most
once. -/
def EndsOnce (step : σ → Option (Option κ × σ)) (rounds : Nat) (w : σ) : Prop :=
  step (walk step rounds w).2 = none ∧ (walk step rounds w).1.Nodup

/-- A walk that marks where it comes to, with what it still may do. -/
structure Marks (step : σ → Option (Option κ × σ)) (sound : σ → Prop)
    (seen : σ → κ → Prop) (left : σ → Nat) : Prop where
  stays : ∀ w place w', sound w → step w = some (place, w') → sound w'
  fresh : ∀ w k w', sound w → step w = some (some k, w') →
    ¬ seen w k ∧ seen w' k
  kept : ∀ w place w' k, sound w → step w = some (place, w') → seen w k →
    seen w' k
  fewer : ∀ w place w', sound w → step w = some (place, w') → left w' < left w

variable {sound : σ → Prop} {seen : σ → κ → Prop} {left : σ → Nat}

/-- No place is come to that was marked before. -/
theorem Marks.unseen (marks : Marks step sound seen left) (rounds : Nat) {w : σ}
    {k : κ} (start : sound w) (marked : seen w k) :
    k ∉ (walk step rounds w).1 := by
  induction rounds generalizing w with
  | zero => exact List.not_mem_nil
  | succ rounds ih =>
      cases stepped : step w with
      | none =>
          rw [walk_over stepped]
          exact List.not_mem_nil
      | some next =>
          obtain ⟨place, w'⟩ := next
          rw [walk_step stepped, List.mem_append]
          rintro (here | later)
          · cases place with
            | none => cases here
            | some there =>
                cases List.mem_singleton.mp here
                exact (marks.fresh w k w' start stepped).1 marked
          · exact ih (marks.stays w place w' start stepped)
              (marks.kept w place w' k start stepped marked) later

theorem Marks.nodup (marks : Marks step sound seen left) (rounds : Nat) {w : σ}
    (start : sound w) : (walk step rounds w).1.Nodup := by
  induction rounds generalizing w with
  | zero => exact List.nodup_nil
  | succ rounds ih =>
      cases stepped : step w with
      | none =>
          rw [walk_over stepped]
          exact List.nodup_nil
      | some next =>
          obtain ⟨place, w'⟩ := next
          have next_sound := marks.stays w place w' start stepped
          rw [walk_step stepped]
          cases place with
          | none => exact ih next_sound
          | some k =>
              have marked := (marks.fresh w k w' start stepped).2
              exact List.nodup_cons.mpr
                ⟨marks.unseen rounds next_sound marked, ih next_sound⟩

theorem Marks.ended (marks : Marks step sound seen left) {rounds : Nat} {w : σ}
    (start : sound w) (enough : left w ≤ rounds) :
    step (walk step rounds w).2 = none := by
  induction rounds generalizing w with
  | zero =>
      cases stepped : step w with
      | none => exact stepped
      | some next =>
          have fewer := marks.fewer w next.1 next.2 start stepped
          omega
  | succ rounds ih =>
      cases stepped : step w with
      | none =>
          rw [walk_over stepped]
          exact stepped
      | some next =>
          obtain ⟨place, w'⟩ := next
          have fewer := marks.fewer w place w' start stepped
          rw [walk_step stepped]
          exact ih (marks.stays w place w' start stepped) (by omega)

theorem Marks.endsOnce (marks : Marks step sound seen left) {rounds : Nat} {w : σ}
    (start : sound w) (enough : left w ≤ rounds) : EndsOnce step rounds w :=
  ⟨marks.ended start enough, marks.nodup rounds start⟩

end

/-! ## Marks in a list -/

def Marked (seen : List Bool) (i : Nat) : Prop := seen[i]? = some true

instance (seen : List Bool) (i : Nat) : Decidable (Marked seen i) :=
  inferInstanceAs (Decidable (seen[i]? = some true))

/-- How many places are not marked. -/
def unmarked (seen : List Bool) : Nat := seen.count false

theorem marked_set {seen : List Bool} {i : Nat} (inside : i < seen.length) :
    Marked (seen.set i true) i := by
  unfold Marked
  rw [List.getElem?_set_self inside]

theorem Marked.set {seen : List Bool} {k : Nat} (marked : Marked seen k)
    (i : Nat) : Marked (seen.set i true) k := by
  unfold Marked at marked ⊢
  by_cases same : i = k
  · subst same
    rw [List.getElem?_set_self (List.getElem?_eq_some_iff.mp marked).1]
  · rw [List.getElem?_set_ne same, marked]

theorem unmarked_set {seen : List Bool} {i : Nat} (inside : i < seen.length)
    (fresh : ¬ Marked seen i) :
    unmarked (seen.set i true) + 1 = unmarked seen := by
  induction seen generalizing i with
  | nil => cases inside
  | cons mark seen ih =>
      cases i with
      | zero =>
          cases mark with
          | true => exact absurd rfl fresh
          | false => simp [unmarked]
      | succ i =>
          have rest := ih (i := i) (Nat.lt_of_succ_lt_succ inside) fresh
          unfold unmarked at rest ⊢
          rw [List.set_cons_succ, List.count_cons, List.count_cons]
          omega

theorem unmarked_le (seen : List Bool) : unmarked seen ≤ seen.length :=
  List.count_le_length

/-- A walk with its marks in a list of `n`, where a place it comes to leaves less
than `more` on top of what there was left to do, and no place leaves less. -/
theorem Marks.ofList {σ : Type} (step : σ → Option (Option Nat × σ))
    (marks : σ → List Bool) (extra : σ → Nat) (n more : Nat)
    (steps : ∀ w place w', step w = some (place, w') →
      match place with
      | none => marks w' = marks w ∧ extra w' < extra w
      | some k => (k < n ∧ ¬ Marked (marks w) k) ∧
          marks w' = (marks w).set k true ∧ extra w' < extra w + more) :
    Marks step (fun w => (marks w).length = n) (fun w k => Marked (marks w) k)
      (fun w => more * unmarked (marks w) + extra w) := by
  constructor
  · intro w place w' length stepped
    have known := steps w place w' stepped
    cases place with
    | none => rw [known.1, length]
    | some k => rw [known.2.1, List.length_set, length]
  · intro w k w' length stepped
    obtain ⟨⟨inside, fresh⟩, marked, -⟩ := steps w (some k) w' stepped
    rw [marked]
    exact ⟨fresh, marked_set (by rw [length]; exact inside)⟩
  · intro w place w' k _ stepped before
    have known := steps w place w' stepped
    cases place with
    | none =>
        rw [known.1]
        exact before
    | some there =>
        rw [known.2.1]
        exact before.set there
  · intro w place w' length stepped
    have known := steps w place w' stepped
    cases place with
    | none =>
        rw [known.1]
        exact Nat.add_lt_add_left known.2 _
    | some k =>
        obtain ⟨⟨inside, fresh⟩, marked, less⟩ := known
        have fewer := unmarked_set (by rw [length]; exact inside) fresh
        rw [← marked] at fewer
        rw [← fewer, Nat.mul_succ]
        omega

end Exav.Once
