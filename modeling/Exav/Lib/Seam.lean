import Mathlib.Data.List.Basic

/-!
# Reading in pieces

What holds at a position of a list may depend on the items around it only.  It
can then be decided in any piece of the list that has those items, or that ends
where the list does.
-/

namespace Exav.Seam

variable {α β ι : Type}

/-- The items from `low` up to `high`. -/
def piece (data : List α) (low high : Nat) : List α :=
  (data.drop low).take (high - low)

@[simp] theorem length_piece (data : List α) (low high : Nat) :
    (piece data low high).length = min (high - low) (data.length - low) := by
  simp [piece]

theorem getElem?_piece (data : List α) {low high i : Nat}
    (inside : low + i < high) : (piece data low high)[i]? = data[low + i]? := by
  have short : i < high - low := by omega
  simp [piece, short]

theorem getElem?_piece_end (data : List α) {low high i : Nat}
    (whole : data.length ≤ high) :
    (piece data low high)[i]? = data[low + i]? := by
  by_cases inside : low + i < high
  · exact getElem?_piece data inside
  · rw [List.getElem?_eq_none (by rw [length_piece]; omega),
      List.getElem?_eq_none (by omega)]

/-- The items from a place on that a piece holds, or that run to the end. -/
theorem take_drop_piece (data : List α) {low high off len : Nat}
    (above : low ≤ off) (within : off + len ≤ high ∨ data.length ≤ high) :
    ((piece data low high).drop (off - low)).take len =
      (data.drop off).take len := by
  apply List.ext_getElem?
  intro i
  by_cases inside : i < len
  · have place : low + (off - low + i) = off + i := by omega
    rw [List.getElem?_take_of_lt inside, List.getElem?_take_of_lt inside,
      List.getElem?_drop, List.getElem?_drop, ← place]
    rcases within with enough | whole
    · exact getElem?_piece data (by omega)
    · exact getElem?_piece_end data whole
  · rw [List.getElem?_eq_none (by rw [List.length_take]; omega),
      List.getElem?_eq_none (by rw [List.length_take]; omega)]

/-- What holds at a position is decided by the `before` items before it and the
`after` items from it on. -/
def Local (holds : List α → Nat → β → Prop) (before after : Nat) : Prop :=
  ∀ data low high pos result, low ≤ pos → pos < high →
    (low = 0 ∨ low + before ≤ pos) →
    (data.length ≤ high ∨ pos + after ≤ high) →
    (holds (piece data low high) (pos - low) result ↔ holds data pos result)

variable {holds : List α → Nat → β → Prop} {before after : Nat}

theorem Local.exists {holds : ι → List α → Nat → β → Prop}
    (decided : ∀ i, Local (holds i) before after) :
    Local (fun data pos result => ∃ i, holds i data pos result)
      before after := by
  intro data low high pos result above below front back
  apply exists_congr
  intro i
  exact decided i data low high pos result above below front back

theorem Local.and {other : List α → Nat → β → Prop}
    (decided : Local holds before after) (both : Local other before after) :
    Local (fun data pos result => holds data pos result ∧ other data pos result)
      before after := by
  intro data low high pos result above below front back
  exact and_congr (decided data low high pos result above below front back)
    (both data low high pos result above below front back)

theorem Local.congr {other : List α → Nat → β → Prop}
    (decided : Local holds before after)
    (same : ∀ data pos result, holds data pos result ↔ other data pos result) :
    Local other before after := by
  intro data low high pos result above below front back
  rw [← same, ← same]
  exact decided data low high pos result above below front back

theorem Local.const (condition : β → Prop) :
    Local (fun (_ : List α) _ result => condition result) before after := by
  intro data low high pos result above below front back
  exact Iff.rfl

theorem Local.item (offset : Nat) (near : offset < after)
    (condition : Option α → β → Prop) :
    Local (fun data pos result => condition data[pos + offset]? result)
      before after := by
  intro data low high pos result above below front back
  have same : (piece data low high)[pos - low + offset]? =
      data[pos + offset]? := by
    have place : low + (pos - low + offset) = pos + offset := by omega
    rw [← place]
    rcases back with whole | enough
    · exact getElem?_piece_end data whole
    · exact getElem?_piece data (by omega)
  dsimp only
  rw [same]

/-- The item `offset` before a position. -/
def behind (data : List α) (pos offset : Nat) : Option α :=
  if offset ≤ pos then data[pos - offset]? else none

theorem Local.behind (offset : Nat) (positive : 0 < offset)
    (near : offset ≤ before) (condition : Option α → β → Prop) :
    Local (fun data pos result => condition (behind data pos offset) result)
      before after := by
  intro data low high pos result above below front back
  have same : Seam.behind (piece data low high) (pos - low) offset =
      Seam.behind data pos offset := by
    unfold Seam.behind
    by_cases inside : offset ≤ pos - low
    · have place : low + (pos - low - offset) = pos - offset := by omega
      rw [if_pos inside, if_pos (by omega), ← place]
      exact getElem?_piece data (by omega)
    · rw [if_neg inside, if_neg (by omega)]
  dsimp only
  rw [same]

theorem Local.forall {holds : ι → List α → Nat → β → Prop}
    (decided : ∀ i, Local (holds i) before after) :
    Local (fun data pos result => ∀ i, holds i data pos result)
      before after := by
  intro data low high pos result above below front back
  apply forall_congr'
  intro i
  exact decided i data low high pos result above below front back

theorem Local.imp (condition : Prop)
    (decided : condition → Local holds before after) :
    Local (fun data pos result => condition → holds data pos result)
      before after := by
  intro data low high pos result above below front back
  apply imp_congr_right
  intro met
  exact decided met data low high pos result above below front back

theorem Local.not (decided : Local holds before after) :
    Local (fun data pos result => ¬ holds data pos result) before after := by
  intro data low high pos result above below front back
  exact not_congr (decided data low high pos result above below front back)

/-- The items before the end of a window that a chunk at `base` is read with. -/
theorem Local.window (decided : Local holds before after) (data : List α)
    {base stop pos : Nat} {result : β} (above : base ≤ pos)
    (below : pos < stop) (within : stop ≤ data.length) :
    holds (piece data (base - before) (min (stop + after) data.length))
        (pos - (base - before)) result ↔ holds data pos result := by
  apply decided
  · omega
  · omega
  · omega
  · omega

end Exav.Seam
