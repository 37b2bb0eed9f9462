import Mathlib.Data.List.Basic

/-!
# Searching a list a window at a time

A window runs into the next one by as many items as it takes to tell whether
something stands at a place.  What a window shows too near its end may be a later
one than the first, and is left to the next window.
-/

namespace Exav.Overlap

variable {α ι : Type}

/-- The first place from `start` on, if there is any. -/
def First (here : Nat → Prop) (start : Nat) : Option Nat → Prop
  | some p => start ≤ p ∧ here p ∧ ∀ q, start ≤ q → q < p → ¬ here q
  | none => ∀ q, start ≤ q → ¬ here q

theorem First.functional {here : Nat → Prop} {start : Nat} {r r' : Option Nat}
    (left : First here start r) (right : First here start r') : r = r' := by
  cases r with
  | none =>
      cases r' with
      | none => rfl
      | some p => exact absurd right.2.1 (left p right.1)
  | some p =>
      cases r' with
      | none => exact absurd left.2.1 (right p left.1)
      | some p' =>
          rcases Nat.lt_trichotomy p p' with before | rfl | after
          · exact absurd left.2.1 (right.2.2 p left.1 before)
          · rfl
          · exact absurd right.2.1 (left.2.2 p' right.1 after)

theorem First.congr {here other : Nat → Prop} {start : Nat} {r : Option Nat}
    (first : First here start r) (same : ∀ p, start ≤ p → (here p ↔ other p)) :
    First other start r := by
  cases r with
  | none => exact fun q above there => first q above ((same q above).mpr there)
  | some p =>
      refine ⟨first.1, (same p first.1).mp first.2.1, ?_⟩
      intro q above less there
      exact first.2.2 q above less ((same q above).mpr there)

/-- Up to `len` items from `base` on. -/
def part (data : List α) (base len : Nat) : List α := (data.drop base).take len

/-- What stands at a place of a part stands there in the whole, and the other
way round where the part has `reach` items from there on. -/
structure Spans (here : List α → Nat → Prop) (reach : Nat) : Prop where
  whole : ∀ {data base len pos}, here (part data base len) pos →
    here data (base + pos)
  seen : ∀ {data base len pos}, pos + reach ≤ len → here data (base + pos) →
    here (part data base len) pos

theorem Spans.congr {here other : List α → Nat → Prop} {reach : Nat}
    (spans : Spans here reach)
    (same : ∀ data pos, other data pos ↔ here data pos) :
    Spans other reach where
  whole := fun found => (same _ _).mpr (spans.whole ((same _ _).mp found))
  seen := fun inside found =>
    (same _ _).mpr (spans.seen inside ((same _ _).mp found))

theorem Spans.exists {here : ι → List α → Nat → Prop} {reach : Nat}
    (spans : ∀ i, Spans (here i) reach) :
    Spans (fun data pos => ∃ i, here i data pos) reach where
  whole := fun ⟨i, found⟩ => ⟨i, (spans i).whole found⟩
  seen := fun inside ⟨i, found⟩ => ⟨i, (spans i).seen inside found⟩

theorem Spans.and {here other : List α → Nat → Prop} {reach : Nat}
    (left : Spans here reach) (right : Spans other reach) :
    Spans (fun data pos => here data pos ∧ other data pos) reach where
  whole := fun both => ⟨left.whole both.1, right.whole both.2⟩
  seen := fun inside both => ⟨left.seen inside both.1, right.seen inside both.2⟩

theorem Spans.const (condition : Prop) (reach : Nat) :
    Spans (fun (_ : List α) _ => condition) reach :=
  ⟨id, fun _ => id⟩

theorem part_part (data : List α) {base len pos n : Nat}
    (inside : pos + n ≤ len) :
    part (part data base len) pos n = part data (base + pos) n := by
  unfold part
  rw [List.drop_take, List.take_take, List.drop_drop,
    Nat.min_eq_left (by omega)]

theorem Spans.fixed {n reach : Nat} (fits : n ≤ reach)
    (condition : List α → Prop) :
    Spans (fun data pos => (part data pos n).length = n ∧
      condition (part data pos n)) reach where
  whole := by
    intro data base len pos
    rintro ⟨length, ok⟩
    by_cases inside : pos + n ≤ len
    · rw [part_part data inside] at length ok
      exact ⟨length, ok⟩
    · have short : (part (part data base len) pos n).length ≤ len - pos := by
        rw [part, List.length_take, List.length_drop, part, List.length_take]
        omega
      obtain rfl : n = 0 := by omega
      exact ⟨rfl, ok⟩
  seen := by
    intro data base len pos inside found
    rw [part_part data (by omega)]
    exact found

theorem Spans.rest {here : List α → Nat → Prop} {reach : Nat}
    (spans : Spans here reach) {data : List α} {base pos : Nat} :
    here (data.drop base) pos ↔ here data (base + pos) := by
  have all : ∀ len, data.length ≤ len → data.drop base = part data base len := by
    intro len enough
    rw [part, List.take_of_length_le]
    rw [List.length_drop]
    omega
  constructor
  · intro found
    rw [all _ (Nat.le_refl _)] at found
    exact spans.whole found
  · intro found
    rw [all _ (Nat.le_add_left data.length (pos + reach))]
    exact spans.seen (Nat.le_add_right _ _) found

/-- Nothing from `start` on stands before `base`. -/
def Passed (here : Nat → Prop) (start base : Nat) : Prop :=
  ∀ q, start ≤ q → here q → base ≤ q

theorem passed_zero (here : Nat → Prop) (start : Nat) : Passed here start 0 :=
  fun q _ _ => Nat.zero_le q

section

variable {here : List α → Nat → Prop} {reach : Nat} {data : List α}
  {start base len next : Nat} {r : Option Nat}

theorem Spans.accepted (spans : Spans here reach)
    (passed : Passed (here data) start base) {p : Nat}
    (first : First (here (part data base len)) (start - base) (some p))
    (enough : p + reach ≤ len) :
    First (here data) start (some (base + p)) := by
  obtain ⟨above, found, earlier⟩ := first
  refine ⟨by omega, spans.whole found, ?_⟩
  intro q from_start before there
  have later := passed q from_start there
  apply earlier (q - base) (by omega) (by omega)
  apply spans.seen (by omega)
  rw [Nat.add_sub_cancel' later]
  exact there

/-- A window that shows nothing far enough from its end has nothing before the
next one. -/
theorem Spans.passed (spans : Spans here reach)
    (passed : Passed (here data) start base)
    (first : First (here (part data base len)) (start - base) r)
    (late : ∀ p, r = some p → len < p + reach)
    (overlaps : next + reach ≤ base + len) :
    Passed (here data) start next := by
  intro q from_start there
  have later := passed q from_start there
  by_contra before
  have shown : here (part data base len) (q - base) := by
    apply spans.seen (by omega)
    rw [Nat.add_sub_cancel' later]
    exact there
  cases r with
  | none => exact first (q - base) (by omega) shown
  | some p =>
      have far := late p rfl
      exact first.2.2 (q - base) (by omega) (by omega) shown

theorem Spans.last (spans : Spans here reach)
    (passed : Passed (here data) start base)
    (first : First (here (data.drop base)) (start - base) r) :
    First (here data) start (r.map (base + ·)) := by
  have earlier : ∀ q, start ≤ q → here data q →
      base ≤ q ∧ here (data.drop base) (q - base) := by
    intro q from_start there
    have later := passed q from_start there
    refine ⟨later, spans.rest.mpr ?_⟩
    rw [Nat.add_sub_cancel' later]
    exact there
  cases r with
  | none =>
      intro q from_start there
      obtain ⟨later, shown⟩ := earlier q from_start there
      exact first (q - base) (by omega) shown
  | some p =>
      obtain ⟨above, found, before⟩ := first
      refine ⟨Nat.sub_le_iff_le_add'.mp above, spans.rest.mp found, ?_⟩
      intro q from_start less there
      have less : q < base + p := less
      obtain ⟨later, shown⟩ := earlier q from_start there
      exact before (q - base) (by omega) (by omega) shown

end

/-! ## Windows -/

/-- Some items of a list, from `base` on. -/
structure Window (α : Type) where
  base : Nat
  items : List α
  last : Bool

/-- Windows of a list in order, each running `overlap` items at least into the
next one, up to the last one, which ends where the list does. -/
inductive Covers (data : List α) (overlap : Nat) : Nat → List (Window α) → Prop
    where
  | last (base : Nat) : Covers data overlap base [⟨base, data.drop base, true⟩]
  | more {base len next : Nat} {windows : List (Window α)}
      (onwards : base ≤ next) (overlaps : next + overlap ≤ base + len)
      (fits : base + len ≤ data.length)
      (others : Covers data overlap next windows) :
      Covers data overlap base (⟨base, part data base len, false⟩ :: windows)

theorem Covers.answers {σ : Type} (feed : σ → Window α → σ) (done answered : σ → Prop)
    (ready : Nat → σ → Prop) {data : List α} {overlap base : Nat}
    {windows fed : List (Window α)}
    (early : ∀ base s, ready base s → done s → answered s)
    (last : ∀ base s, ready base s → answered (feed s ⟨base, data.drop base, true⟩))
    (more : ∀ base len next s, ready base s → base ≤ next →
      next + overlap ≤ base + len → base + len ≤ data.length →
      ready next (feed s ⟨base, part data base len, false⟩))
    (covers : Covers data overlap base windows) (before : fed <+: windows) {s : σ}
    (here : ready base s) (enough : fed = windows ∨ done (fed.foldl feed s)) :
    answered (fed.foldl feed s) := by
  induction covers generalizing fed s with
  | last base =>
      cases fed with
      | nil => exact early _ _ here (enough.resolve_left nofun)
      | cons w fed =>
          obtain ⟨rfl, rest⟩ := List.cons_prefix_cons.mp before
          obtain rfl := List.prefix_nil.mp rest
          exact last _ _ here
  | more onwards overlaps fits others ih =>
      cases fed with
      | nil => exact early _ _ here (enough.resolve_left nofun)
      | cons w fed =>
          obtain ⟨rfl, rest⟩ := List.cons_prefix_cons.mp before
          apply ih rest (more _ _ _ _ here onwards overlaps fits)
          exact enough.imp_left fun same => (List.cons.inj same).2

end Exav.Overlap
