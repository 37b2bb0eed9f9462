import Mathlib.Data.List.Basic

/-!
# Slots

Items are kept in a list and found by a test: the first that passes is the slot,
and where none does a new one is put at the end.
-/

namespace Exav.Slots

section

variable {α : Type}

def slot (passes : α → Bool) (new : α) (items : List α) : α :=
  (items.find? passes).getD new

def update (passes : α → Bool) (new : α) (change : α → α) : List α → List α
  | [] => [change new]
  | item :: items =>
      if passes item then change item :: items
      else item :: update passes new change items

inductive Found (passes : α → Bool) (new : α) (change : α → α)
    (items : List α) : Prop where
  | old (front back : List α) :
      items = front ++ slot passes new items :: back →
      passes (slot passes new items) = true →
      update passes new change items =
        front ++ change (slot passes new items) :: back →
      Found passes new change items
  | fresh :
      (∀ item ∈ items, passes item = false) →
      slot passes new items = new →
      update passes new change items = items ++ [change new] →
      Found passes new change items

theorem found (passes : α → Bool) (new : α) (change : α → α)
    (items : List α) : Found passes new change items := by
  induction items with
  | nil => exact .fresh (by simp) rfl rfl
  | cons item items ih =>
      cases here : passes item with
      | true =>
          have first : slot passes new (item :: items) = item := by
            simp [slot, here]
          apply Found.old [] items
          · rw [first, List.nil_append]
          · rw [first, here]
          · rw [first, update, if_pos here, List.nil_append]
      | false =>
          have later : slot passes new (item :: items) =
              slot passes new items := by
            simp [slot, here]
          have step : update passes new change (item :: items) =
              item :: update passes new change items := by
            simp [update, here]
          cases ih with
          | old front back split found changed =>
              apply Found.old (item :: front) back
              · rw [later, List.cons_append, ← split]
              · rw [later, found]
              · rw [step, changed, later, List.cons_append]
          | fresh none same changed =>
              apply Found.fresh
              · intro other member
                rcases List.mem_cons.mp member with rfl | member
                · exact here
                · exact none other member
              · rw [later, same]
              · rw [step, changed, List.cons_append]

end

end Exav.Slots
