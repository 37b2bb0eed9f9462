import Mathlib.Order.Interval.Finset.Nat
import Exav.Bytes

/-!
# Spans that tile a range

Spans tile a range when each starts where the one before it ends.  As many
places as the spans have together are all covered, by spans kept apart and
sorted, only when the spans tile them.
-/

namespace Exav.Tiles

/-- The places from `start` up to `stop`. -/
structure Span where
  start : Nat
  stop : Nat
  deriving DecidableEq

namespace Span

def Mem (span : Span) (i : Nat) : Prop :=
  span.start ≤ i ∧ i < span.stop

def length (span : Span) : Nat :=
  span.stop - span.start

/-- No place is in both. -/
def Apart (s t : Span) : Prop :=
  ∀ i, s.Mem i → ¬ t.Mem i

theorem apart_of_le {s t : Span} (before : s.stop ≤ t.start) : s.Apart t :=
  fun _ inside there => by
    have low := inside.2
    have high := there.1
    omega

def slice (buf : Bytes) (span : Span) : Bytes :=
  window buf span.start span.length

end Span

def Covers (spans : List Span) (i : Nat) : Prop :=
  ∃ span ∈ spans, span.Mem i

def total (spans : List Span) : Nat :=
  (spans.map Span.length).sum

/-- Each span starts where the one before it ends, the first at `from'`. -/
def Tile : (from' : Nat) → List Span → Prop
  | _, [] => True
  | from', span :: spans => span.start = from' ∧ Tile span.stop spans

def Proper (spans : List Span) : Prop :=
  ∀ span ∈ spans, span.start < span.stop

section

variable {spans : List Span} {span : Span} {from' i : Nat}

@[simp] theorem total_cons (span : Span) (spans : List Span) :
    total (span :: spans) = span.length + total spans := rfl

theorem Tile.covers (tile : Tile from' spans) (proper : Proper spans) :
    Covers spans i ↔ from' ≤ i ∧ i < from' + total spans := by
  induction spans generalizing from' with
  | nil =>
      simp only [Covers, List.not_mem_nil, false_and, exists_false, total,
        List.map_nil, List.sum_nil, false_iff]
      omega
  | cons span spans ih =>
      obtain ⟨start, rest⟩ := tile
      have nonempty := proper span (.head _)
      have tail := ih rest fun s member => proper s (.tail _ member)
      have split : Covers (span :: spans) i ↔ span.Mem i ∨ Covers spans i := by
        simp [Covers]
      rw [split, tail, total_cons, Span.Mem, Span.length]
      omega

theorem Tile.pairwise (tile : Tile from' spans) (proper : Proper spans) :
    spans.Pairwise Span.Apart := by
  induction spans generalizing from' with
  | nil => exact .nil
  | cons span spans ih =>
      obtain ⟨start, rest⟩ := tile
      have others : Proper spans := fun s member => proper s (.tail _ member)
      refine .cons ?_ (ih rest others)
      intro s member
      have inside : s.Mem s.start := ⟨Nat.le_refl _, others s member⟩
      exact Span.apart_of_le
        ((rest.covers others).mp ⟨s, member, inside⟩).1

theorem Tile.total_le {bound : Nat} (tile : Tile from' spans)
    (proper : Proper spans) (low : from' ≤ bound)
    (bounds : ∀ span ∈ spans, span.stop ≤ bound) :
    from' + total spans ≤ bound := by
  induction spans generalizing from' with
  | nil => exact low
  | cons span spans ih =>
      obtain ⟨rfl, rest⟩ := tile
      have nonempty := proper span (.head _)
      have inner := ih rest (fun s member => proper s (.tail _ member))
        (bounds span (.head _)) (fun s member => bounds s (.tail _ member))
      rw [total_cons, Span.length]
      omega

theorem Tile.slices {buf : Bytes} (tile : Tile from' spans)
    (proper : Proper spans) :
    spans.flatMap (Span.slice buf) = window buf from' (total spans) := by
  induction spans generalizing from' with
  | nil => simp [total, window]
  | cons span spans ih =>
      obtain ⟨rfl, rest⟩ := tile
      have nonempty := proper span (.head _)
      have next : span.stop = span.start + span.length := by
        unfold Span.length
        omega
      rw [List.flatMap_cons, ih rest fun s member => proper s (.tail _ member),
        total_cons, Span.slice, next, window, window, window, List.take_add,
        List.drop_drop]

/-! ## Counting -/

def places (spans : List Span) : Finset Nat :=
  spans.foldr (fun span seen => Finset.Ico span.start span.stop ∪ seen) ∅

theorem mem_places : i ∈ places spans ↔ Covers spans i := by
  induction spans with
  | nil => simp [places, Covers]
  | cons span spans ih =>
      have cons : places (span :: spans) =
          Finset.Ico span.start span.stop ∪ places spans := rfl
      rw [cons, Finset.mem_union, ih, Finset.mem_Ico]
      simp [Covers, Span.Mem]

theorem card_places (apart : spans.Pairwise Span.Apart) :
    (places spans).card = total spans := by
  induction spans with
  | nil => rfl
  | cons span spans ih =>
      obtain ⟨first, others⟩ := List.pairwise_cons.mp apart
      have cons : places (span :: spans) =
          Finset.Ico span.start span.stop ∪ places spans := rfl
      rw [cons, Finset.card_union_of_disjoint, Nat.card_Ico, ih others]
      · rfl
      · rw [Finset.disjoint_left]
        intro i here there
        obtain ⟨s, member, inside⟩ := mem_places.mp there
        exact first s member i (Finset.mem_Ico.mp here) inside

theorem inside_of_covers (apart : spans.Pairwise Span.Apart)
    (covers : ∀ i, from' ≤ i → i < from' + total spans → Covers spans i)
    (covered : Covers spans i) : from' ≤ i ∧ i < from' + total spans := by
  have subset : Finset.Ico from' (from' + total spans) ⊆ places spans := by
    intro j member
    rw [Finset.mem_Ico] at member
    exact mem_places.mpr (covers j member.1 member.2)
  have count : (places spans).card ≤
      (Finset.Ico from' (from' + total spans)).card := by
    rw [card_places apart, Nat.card_Ico]
    omega
  have same := Finset.eq_of_subset_of_card_le subset count
  have member := mem_places.mpr covered
  rwa [← same, Finset.mem_Ico] at member

theorem tile_of_covers (proper : Proper spans)
    (apart : spans.Pairwise Span.Apart)
    (sorted : spans.Pairwise fun s t => s.start ≤ t.start)
    (covers : ∀ i, from' ≤ i → i < from' + total spans → Covers spans i) :
    Tile from' spans := by
  induction spans generalizing from' with
  | nil => trivial
  | cons span spans ih =>
      have nonempty := proper span (.head _)
      obtain ⟨first, others⟩ := List.pairwise_cons.mp apart
      obtain ⟨least, sorted'⟩ := List.pairwise_cons.mp sorted
      have size : 0 < span.length := Nat.sub_pos_of_lt nonempty
      have low : from' ≤ span.start :=
        (inside_of_covers apart covers
          ⟨span, .head _, Nat.le_refl _, nonempty⟩).1
      have start : span.start = from' := by
        obtain ⟨s, member, inside⟩ := covers from' (Nat.le_refl _) (by
          rw [total_cons]
          omega)
        have before : span.start ≤ s.start := by
          rcases List.mem_cons.mp member with rfl | later
          · exact Nat.le_refl _
          · exact least s later
        exact Nat.le_antisymm (before.trans inside.1) low
      refine ⟨start, ih (fun s member => proper s (.tail _ member)) others
        sorted' ?_⟩
      intro i from_stop to_end
      have stop : span.stop = from' + span.length := by
        unfold Span.length
        omega
      obtain ⟨s, member, inside⟩ := covers i (by omega) (by
        rw [total_cons]
        omega)
      rcases List.mem_cons.mp member with rfl | later
      · have before := inside.2
        omega
      · exact ⟨s, later, inside⟩

end

end Exav.Tiles
