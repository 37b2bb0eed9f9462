import Mathlib.Data.List.Sort

/-!
# Sorted tables

A table sorted by key is read at a key between two partition points: that is
its bucket.  The other lemmas compare what two tables answer: increasing lists
that answer at the same places answer alike, and an answer that one item of a
list gives alone is the answer of the list.
-/

namespace Exav.Table

section

variable {α β : Type}

/-- The items of a sorted table from its first that is not below a key on, while
they have the key. -/
def bucket (below has : α → Bool) (items : List α) : List α :=
  (items.dropWhile below).takeWhile has

theorem takeWhile_eq_filter {has : α → Bool} {items : List α}
    (ends : items.Pairwise fun a b => has b = true → has a = true) :
    items.takeWhile has = items.filter has := by
  induction items with
  | nil => rfl
  | cons item items ih =>
      obtain ⟨first, rest⟩ := List.pairwise_cons.mp ends
      cases here : has item with
      | true => simp [here, ih rest]
      | false =>
          have none : items.filter has = [] := by
            apply List.filter_eq_nil_iff.mpr
            intro later member found
            exact Bool.false_ne_true (here ▸ first later member found)
          simp [here, none]

theorem bucket_eq_filter {below has : α → Bool} {items : List α}
    (apart : ∀ a, below a = true → has a = false)
    (ordered : items.Pairwise fun a b =>
      (below b = true → below a = true) ∧
        (has b = true → below a = true ∨ has a = true)) :
    bucket below has items = items.filter has := by
  unfold bucket
  induction items with
  | nil => rfl
  | cons item items ih =>
      obtain ⟨first, rest⟩ := List.pairwise_cons.mp ordered
      cases here : below item with
      | true =>
          rw [List.dropWhile_cons_of_pos here, ih rest,
            List.filter_cons_of_neg (by simp [apart item here])]
      | false =>
          rw [List.dropWhile_cons_of_neg (by simp [here])]
          have above : ∀ b ∈ item :: items, below b = false := by
            intro b member
            rcases List.mem_cons.mp member with rfl | later
            · exact here
            · by_contra low
              have lower := (first b later).1 (by simpa using low)
              rw [here] at lower
              cases lower
          apply takeWhile_eq_filter
          apply ordered.imp_of_mem
          intro a b inside _ pair found
          rcases pair.2 found with low | same
          · rw [above a inside] at low
            cases low
          · exact same

theorem filterMap_eq_of_increasing {xs ys : List Nat} {f g : Nat → Option β}
    (left : xs.Pairwise (· < ·)) (right : ys.Pairwise (· < ·))
    (agree : ∀ x y, (x ∈ xs ∧ f x = some y) ↔ (x ∈ ys ∧ g x = some y)) :
    xs.filterMap f = ys.filterMap g := by
  have answering {zs : List Nat} {h : Nat → Option β} :
      zs.filterMap h = (zs.filter fun z => (h z).isSome).filterMap h := by
    rw [List.filterMap_filter]
    apply List.filterMap_congr
    intro z _
    cases h z <;> rfl
  have same : (xs.filter fun x => (f x).isSome) =
      ys.filter fun y => (g y).isSome := by
    apply (left.filter _).eq_of_mem_iff (right.filter _)
    intro x
    simp only [List.mem_filter, Option.isSome_iff_exists]
    constructor
    · rintro ⟨member, y, found⟩
      obtain ⟨there, answer⟩ := (agree x y).mp ⟨member, found⟩
      exact ⟨there, y, answer⟩
    · rintro ⟨member, y, found⟩
      obtain ⟨there, answer⟩ := (agree x y).mpr ⟨member, found⟩
      exact ⟨there, y, answer⟩
  rw [@answering xs f, @answering ys g, ← same]
  apply List.filterMap_congr
  intro x member
  obtain ⟨inside, answers⟩ := List.mem_filter.mp member
  obtain ⟨y, found⟩ := Option.isSome_iff_exists.mp answers
  rw [found, ((agree x y).mp ⟨inside, found⟩).2]

theorem flatMap_eq_of_mem {items : List α} {f : α → List β} {a : α}
    (distinct : items.Nodup) (member : a ∈ items)
    (others : ∀ b ∈ items, b ≠ a → f b = []) :
    items.flatMap f = f a := by
  induction items with
  | nil => cases member
  | cons item items ih =>
      obtain ⟨fresh, rest⟩ := List.nodup_cons.mp distinct
      rw [List.flatMap_cons]
      rcases List.mem_cons.mp member with rfl | later
      · have none : items.flatMap f = [] := by
          apply List.flatMap_eq_nil_iff.mpr
          intro b inside
          exact others b (by simp [inside]) (fun same => fresh (same ▸ inside))
        rw [none, List.append_nil]
      · have different : item ≠ a := fun same => fresh (same ▸ later)
        rw [others item (by simp) different, List.nil_append]
        exact ih rest later fun b inside => others b (by simp [inside])

theorem filter_eq_singleton {items : List α} {passes : α → Bool} {a : α}
    (distinct : items.Nodup) (member : a ∈ items) (here : passes a = true)
    (only : ∀ b ∈ items, passes b = true → b = a) :
    items.filter passes = [a] := by
  apply List.perm_singleton.mp
  apply (List.perm_ext_iff_of_nodup (distinct.filter passes)
    (List.nodup_singleton a)).mpr
  intro b
  rw [List.mem_filter, List.mem_singleton]
  constructor
  · intro found
    exact only b found.1 found.2
  · intro same
    subst same
    exact ⟨member, here⟩

end

end Exav.Table
