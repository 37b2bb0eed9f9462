import Mathlib.Data.List.Basic

/-!
# Values placed one after another

Each item starts at the next multiple of its alignment and the one after it
starts behind what the item takes.  Items that are accessed wider than they are
taken for are still apart exactly when the padding behind each covers its width.
-/

namespace Exav.Bump

/-- The next multiple of `align`. -/
def roundUp (align n : Nat) : Nat :=
  (n + (align - 1)) / align * align

theorem le_roundUp {align : Nat} (positive : 0 < align) (n : Nat) :
    n ≤ roundUp align n := by
  have rest := Nat.mod_add_div (n + (align - 1)) align
  have small := Nat.mod_lt (n + (align - 1)) positive
  rw [Nat.mul_comm] at rest
  unfold roundUp
  omega

theorem roundUp_le (align n : Nat) : roundUp align n ≤ n + (align - 1) :=
  Nat.div_mul_le_self _ _

theorem roundUp_mod (align n : Nat) : roundUp align n % align = 0 :=
  Nat.mul_mod_left _ _

/-- What is placed: how it is aligned, how much it takes, and how wide it is
accessed. -/
structure Item where
  align : Nat
  size : Nat
  width : Nat
  aligned : 0 < align
  sized : 0 < size
  accessed : 0 < width

structure Span where
  start : Nat
  width : Nat

def Span.Apart (s t : Span) : Prop :=
  s.start + s.width ≤ t.start ∨ t.start + t.width ≤ s.start

theorem Span.Apart.symm {s t : Span} (apart : s.Apart t) : t.Apart s :=
  Or.symm apart

/-- The accesses to items placed from `at'` on. -/
def place : (at' : Nat) → List Item → List Span
  | _, [] => []
  | at', item :: items =>
      let start := roundUp item.align at'
      ⟨start, item.width⟩ :: place (start + item.size) items

/-- Where items placed from `at'` on end. -/
def stop : (at' : Nat) → List Item → Nat
  | at', [] => at'
  | at', item :: items => stop (roundUp item.align at' + item.size) items

/-- Where the next thing starts: an item, or what all of them are padded to. -/
def following (outer at' : Nat) : List Item → Nat
  | [] => roundUp outer at'
  | item :: _ => roundUp item.align at'

@[simp] theorem following_cons (outer at' : Nat) (item : Item)
    (items : List Item) :
    following outer at' (item :: items) = roundUp item.align at' := rfl

def Roomy (outer : Nat) : (at' : Nat) → List Item → Prop
  | _, [] => True
  | at', item :: items =>
      let start := roundUp item.align at'
      start + item.width ≤ following outer (start + item.size) items ∧
        Roomy outer (start + item.size) items

section

variable {outer at' : Nat} {items : List Item}

theorem length_place : (place at' items).length = items.length := by
  induction items generalizing at' with
  | nil => rfl
  | cons item items ih => simp [place, ih]

theorem le_stop : at' ≤ stop at' items := by
  induction items generalizing at' with
  | nil => exact Nat.le_refl _
  | cons item items ih =>
      have start := le_roundUp item.aligned at'
      exact Nat.le_trans (by omega) ih

theorem following_le (positive : 0 < outer) :
    following outer at' items ≤ roundUp outer (stop at' items) := by
  cases items with
  | nil => exact Nat.le_refl _
  | cons item items =>
      have later := @le_stop (roundUp item.align at' + item.size) items
      have padded := le_roundUp positive
        (stop (roundUp item.align at' + item.size) items)
      exact Nat.le_trans (by rw [following_cons]; omega) padded

/-- Nothing starts before what comes next. -/
theorem following_le_start (outer : Nat) {span : Span} (member : span ∈ place at' items) :
    following outer at' items ≤ span.start ∧ at' ≤ span.start := by
  induction items generalizing at' with
  | nil => cases member
  | cons item items ih =>
      have start := le_roundUp item.aligned at'
      rcases List.mem_cons.mp member with rfl | later
      · exact ⟨Nat.le_refl _, start⟩
      · have behind := (ih later).2
        rw [following_cons]
        omega

/-- Accesses are apart and inside exactly when there is room for them. -/
theorem separate_iff (positive : 0 < outer) :
    ((place at' items).Pairwise Span.Apart ∧
        ∀ span ∈ place at' items,
          span.start + span.width ≤ roundUp outer (stop at' items)) ↔
      Roomy outer at' items := by
  induction items generalizing at' with
  | nil => simp [place, Roomy]
  | cons item items ih =>
      rw [Roomy, ← ih]
      simp only [place, stop, List.pairwise_cons, List.forall_mem_cons]
      have sized := item.sized
      constructor
      · rintro ⟨⟨first, others⟩, inside, rest⟩
        refine ⟨?_, others, rest⟩
        cases items with
        | nil => exact inside
        | cons next items =>
            have second := first _ (.head _)
            have after := le_roundUp next.aligned
              (roundUp item.align at' + item.size)
            have accessed := next.accessed
            unfold Span.Apart at second
            dsimp only at second
            rw [following_cons]
            omega
      · rintro ⟨room, others, rest⟩
        refine ⟨⟨?_, others⟩, ?_, rest⟩
        · intro span member
          have start := (following_le_start outer member).1
          exact .inl (Nat.le_trans room start)
        · exact Nat.le_trans room (following_le positive)

end

end Exav.Bump
