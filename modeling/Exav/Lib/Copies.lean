import Mathlib.Logic.Relation

/-!
# A relation copied along a map

`Copies inside place image source` says that `image`, from the place of a point,
reaches the places of what `source` reaches from that point and nothing else.
Copies are kept by composition, by a choice and by repetition.
-/

namespace Exav

variable {α β : Type} {inside : α → Prop} {place : α → β}

/-- From a point inside, `source` stays inside, and `image` reaches the places
of the points that `source` reaches. -/
structure Copies (inside : α → Prop) (place : α → β) (image : β → β → Prop)
    (source : α → α → Prop) : Prop where
  stays : ∀ {a a'}, inside a → source a a' → inside a'
  reaches : ∀ {a}, inside a →
    ∀ b, image (place a) b ↔ ∃ a', b = place a' ∧ source a a'

/-- `relation` taken `n` times. -/
def times (relation : α → α → Prop) : Nat → α → α → Prop
  | 0 => (· = ·)
  | n + 1 => Relation.Comp relation (times relation n)

namespace Copies

/-- A check at the point where both stand. -/
theorem check {image : β → Prop} {source : α → Prop}
    (agrees : ∀ a, inside a → (image (place a) ↔ source a)) :
    Copies inside place (fun b b' => b = b' ∧ image b)
      (fun a a' => a = a' ∧ source a) where
  stays within reached := reached.1 ▸ within
  reaches {a} within b := by
    constructor
    · rintro ⟨rfl, holds⟩
      exact ⟨a, rfl, rfl, (agrees a within).mp holds⟩
    · rintro ⟨_, rfl, rfl, holds⟩
      exact ⟨rfl, (agrees a within).mpr holds⟩

theorem eq : Copies inside place (· = ·) (· = ·) where
  stays within same := same ▸ within
  reaches {a} within b := by
    constructor
    · rintro rfl
      exact ⟨a, rfl, rfl⟩
    · rintro ⟨_, rfl, rfl⟩
      rfl

theorem nothing : Copies inside place (fun _ _ => False) (fun _ _ => False) where
  stays _ none := none.elim
  reaches within b := by simp

theorem comp {first second : β → β → Prop} {first' second' : α → α → Prop}
    (copies : Copies inside place first first')
    (copiesRest : Copies inside place second second') :
    Copies inside place (Relation.Comp first second)
      (Relation.Comp first' second') where
  stays within := by
    rintro ⟨middle, left, right⟩
    exact copiesRest.stays (copies.stays within left) right
  reaches {a} within b := by
    constructor
    · rintro ⟨middle, left, right⟩
      obtain ⟨a', rfl, left'⟩ := (copies.reaches within middle).mp left
      obtain ⟨a'', rfl, right'⟩ :=
        (copiesRest.reaches (copies.stays within left') b).mp right
      exact ⟨a'', rfl, a', left', right'⟩
    · rintro ⟨a'', rfl, a', left', right'⟩
      exact ⟨place a', (copies.reaches within _).mpr ⟨a', rfl, left'⟩,
        (copiesRest.reaches (copies.stays within left') _).mpr
          ⟨a'', rfl, right'⟩⟩

theorem choice {ι : Type} {allowed : ι → Prop} {image : ι → β → β → Prop}
    {source : ι → α → α → Prop}
    (copies : ∀ way, allowed way → Copies inside place (image way) (source way)) :
    Copies inside place (fun b b' => ∃ way, allowed way ∧ image way b b')
      (fun a a' => ∃ way, allowed way ∧ source way a a') where
  stays within := by
    rintro ⟨way, allow, reached⟩
    exact (copies way allow).stays within reached
  reaches {a} within b := by
    constructor
    · rintro ⟨way, allow, reached⟩
      obtain ⟨a', placed, reached'⟩ :=
        ((copies way allow).reaches within b).mp reached
      exact ⟨a', placed, way, allow, reached'⟩
    · rintro ⟨a', placed, way, allow, reached'⟩
      exact ⟨way, allow,
        ((copies way allow).reaches within b).mpr ⟨a', placed, reached'⟩⟩

theorem or {first second : β → β → Prop} {first' second' : α → α → Prop}
    (copies : Copies inside place first first')
    (copiesOther : Copies inside place second second') :
    Copies inside place (fun b b' => first b b' ∨ second b b')
      (fun a a' => first' a a' ∨ second' a a') where
  stays within reached :=
    reached.elim (copies.stays within) (copiesOther.stays within)
  reaches {a} within b := by
    rw [copies.reaches within, copiesOther.reaches within, ← exists_or]
    simp only [and_or_left]

theorem repeated {image : β → β → Prop} {source : α → α → Prop}
    (copies : Copies inside place image source) (n : Nat) :
    Copies inside place (times image n) (times source n) := by
  induction n with
  | zero => exact eq
  | succ n ih => exact copies.comp ih

theorem at_places {image : β → β → Prop} {source : α → α → Prop}
    (copies : Copies inside place image source)
    (injective : Function.Injective place) {a a' : α} (within : inside a) :
    image (place a) (place a') ↔ source a a' := by
  rw [copies.reaches within]
  constructor
  · rintro ⟨_, placed, reached⟩
    exact injective placed ▸ reached
  · intro reached
    exact ⟨a', rfl, reached⟩

end Copies

end Exav
