import Exav.Lib.Interval

/-!
# Stretches cut into pieces

The same positions can be listed as longer or shorter intervals.  `Cut` says
that neighbours touch at given borders only; a list whose intervals are apart
is the uncut one, and `pieces_of_head` takes from any list of its positions the
pieces of its first interval.
-/

namespace Exav.Interval

/-- Neighbours are apart or touch at a border. -/
def Cut (border : Nat → Prop) (before after : Interval) : Prop :=
  before.2 + 1 < after.1 ∨ before.2 + 1 = after.1 ∧ border after.1

theorem Separated.cut {ivs : List Interval} (separated : Separated ivs)
    (border : Nat → Prop) : ivs.Pairwise (Cut border) :=
  separated.imp fun apart => Or.inl apart

theorem clip_separated {ivs : List Interval} (separated : Separated ivs)
    (lo hi : Nat) : Separated (clip ivs lo hi) := by
  rw [Separated, clip, List.pairwise_map]
  have kept : Separated
      ((ivs.dropWhile fun iv => iv.2 < lo).takeWhile fun iv => iv.1 ≤ hi) :=
    (separated.sublist (List.dropWhile_sublist _)).sublist
      (List.takeWhile_sublist _)
  refine kept.imp ?_
  intro before after apart
  dsimp only
  omega

theorem clip_within {ivs : List Interval} {lo hi : Nat} {iv : Interval}
    (member : iv ∈ clip ivs lo hi) :
    ∃ source ∈ ivs, source.1 ≤ iv.1 ∧ iv.2 ≤ source.2 := by
  obtain ⟨source, taken, rfl⟩ := List.mem_map.mp member
  refine ⟨source, ?_, le_max_left _ _, min_le_left _ _⟩
  exact (List.dropWhile_suffix _).subset
    ((List.takeWhile_prefix _).subset taken)

theorem positions_eq_cons {iv : Interval} (ordered : iv.1 ≤ iv.2) :
    positions iv = iv.1 :: List.range' (iv.1 + 1) (iv.2 - iv.1) := by
  rw [positions, show iv.2 + 1 - iv.1 = iv.2 - iv.1 + 1 by omega,
    List.range'_succ]

/-- The first of intervals that list `iv` and then what is past its end lies
at the start of `iv`. -/
private theorem head_of_positions {head iv : Interval} {ivs : List Interval}
    {rest : List Nat} (headOrdered : head.1 ≤ head.2)
    (ordered : iv.1 ≤ iv.2) (apart : ∀ p ∈ rest, iv.2 + 1 < p)
    (same : positions head ++ ivs.flatMap positions = positions iv ++ rest) :
    head.1 = iv.1 ∧ head.2 ≤ iv.2 := by
  have first : head.1 = iv.1 := by
    rw [positions_eq_cons headOrdered, positions_eq_cons ordered] at same
    exact (List.cons.inj same).1
  refine ⟨first, ?_⟩
  by_contra past
  have inHead : iv.2 + 1 ∈ positions iv ++ rest := by
    rw [← same]
    exact List.mem_append_left _ (mem_positions.mpr ⟨by omega, by omega⟩)
  rcases List.mem_append.mp inHead with inside | later
  · have bounds := mem_positions.mp inside
    omega
  · have above := apart _ later
    omega

theorem pieces_of_head {pieces : List Interval} {iv : Interval}
    {rest : List Nat} (proper : Proper pieces) (ordered : iv.1 ≤ iv.2)
    (apart : ∀ p ∈ rest, iv.2 + 1 < p)
    (same : pieces.flatMap positions = positions iv ++ rest) :
    ∃ front back, pieces = front ++ back ∧
      front.flatMap positions = positions iv ∧
      back.flatMap positions = rest := by
  induction pieces generalizing iv with
  | nil =>
      rw [positions_eq_cons ordered] at same
      cases same
  | cons head pieces ih =>
      obtain ⟨headOrdered, properRest⟩ := (proper_cons head pieces).mp proper
      rw [List.flatMap_cons] at same
      obtain ⟨start, stop⟩ :=
        head_of_positions headOrdered ordered apart same
      by_cases whole : head.2 = iv.2
      · have equal : head = iv := Prod.ext start whole
        rw [equal] at same
        exact ⟨[head], pieces, rfl, by simp [equal],
          List.append_cancel_left same⟩
      · have split : positions iv =
            positions head ++ positions (head.2 + 1, iv.2) := by
          have parts : positions (iv.1, iv.2) = positions (iv.1, head.2) ++
              positions (head.2 + 1, iv.2) :=
            positions_split (by omega) (by omega)
          rw [← start] at parts
          rw [show iv = (head.1, iv.2) from Prod.ext start.symm rfl]
          exact parts
        rw [split, List.append_assoc] at same
        obtain ⟨front, back, rfl, inFront, inBack⟩ :=
          @ih (head.2 + 1, iv.2) properRest (by dsimp only; omega) apart
            (List.append_cancel_left same)
        exact ⟨head :: front, back, rfl,
          by rw [List.flatMap_cons, inFront, ← split], inBack⟩

theorem pieces_of_front {pieces ivs : List Interval} {rest : List Nat}
    (proper : Proper pieces) (ivsProper : Proper ivs)
    (separated : Separated ivs)
    (apart : ∀ iv ∈ ivs, ∀ p ∈ rest, iv.2 + 1 < p)
    (same : pieces.flatMap positions = ivs.flatMap positions ++ rest) :
    ∃ front back, pieces = front ++ back ∧
      front.flatMap positions = ivs.flatMap positions ∧
      back.flatMap positions = rest := by
  induction ivs generalizing pieces with
  | nil => exact ⟨[], pieces, rfl, rfl, same⟩
  | cons iv ivs ih =>
      obtain ⟨ordered, laterProper⟩ := (proper_cons iv ivs).mp ivsProper
      obtain ⟨gaps, laterSeparated⟩ := List.pairwise_cons.mp separated
      have beyond : ∀ p ∈ ivs.flatMap positions ++ rest, iv.2 + 1 < p := by
        intro p member
        rcases List.mem_append.mp member with inside | past
        · obtain ⟨later, inIvs, within⟩ := List.mem_flatMap.mp inside
          have bounds := mem_positions.mp within
          have gap := gaps later inIvs
          omega
        · exact apart iv (by simp) p past
      rw [List.flatMap_cons, List.append_assoc] at same
      obtain ⟨head, tail, rfl, inHead, inTail⟩ :=
        pieces_of_head proper ordered beyond same
      obtain ⟨front, back, rfl, inFront, inBack⟩ := ih
        (fun piece member => proper piece (List.mem_append_right _ member))
        laterProper laterSeparated
        (fun later member => apart later (by simp [member])) inTail
      exact ⟨head ++ front, back, (List.append_assoc ..).symm,
        by rw [List.flatMap_append, inHead, inFront, List.flatMap_cons],
        inBack⟩

theorem first_piece {border : Nat → Prop} {head iv : Interval}
    {more : List Interval} (proper : Proper (head :: more))
    (cut : (head :: more).Pairwise (Cut border)) (ordered : iv.1 ≤ iv.2)
    (same : (head :: more).flatMap positions = positions iv) :
    head.1 = iv.1 ∧ head.2 ≤ iv.2 ∧
      (head = iv ∧ more = [] ∨ head.2 < iv.2 ∧ border (head.2 + 1)) := by
  obtain ⟨headOrdered, moreProper⟩ := (proper_cons head more).mp proper
  rw [List.flatMap_cons] at same
  have parts : head.1 = iv.1 ∧ head.2 ≤ iv.2 :=
    @head_of_positions _ _ _ [] headOrdered ordered (by simp)
      (by simpa using same)
  refine ⟨parts.1, parts.2, ?_⟩
  cases more with
  | nil =>
      left
      refine ⟨?_, rfl⟩
      have long := congrArg List.length same
      simp only [List.flatMap_nil, List.append_nil, positions,
        List.length_range'] at long
      exact Prod.ext parts.1 (by omega)
  | cons next more =>
      right
      have nextOrdered := ((proper_cons next more).mp moreProper).1
      have pair := (List.pairwise_cons.mp cut).1 next (by simp)
      have after : head.2 + 1 ≤ next.1 := by
        rcases pair with apart | ⟨touch, _⟩ <;> omega
      have inside : next.1 ∈ positions iv := by
        rw [← same, List.flatMap_cons]
        simp [nextOrdered]
      have bounds := mem_positions.mp inside
      refine ⟨by omega, ?_⟩
      rcases pair with apart | ⟨touch, here⟩
      · have gap : head.2 + 1 ∈ positions head ++
            (next :: more).flatMap positions := by
          rw [same, mem_positions]
          omega
        rcases List.mem_append.mp gap with early | late
        · have bound := mem_positions.mp early
          omega
        · obtain ⟨piece, member, within⟩ := List.mem_flatMap.mp late
          have bound := mem_positions.mp within
          rcases List.mem_cons.mp member with rfl | later
          · omega
          · have further :=
              (List.pairwise_cons.mp cut).1 piece (by simp [later])
            have nextCut := (List.pairwise_cons.mp
              (List.pairwise_cons.mp cut).2).1 piece later
            rcases nextCut with past | ⟨past, _⟩ <;> omega
      · rwa [touch]

theorem Separated.increasing {ivs : List Interval}
    (separated : Separated ivs) : Increasing ivs := by
  rw [Increasing, List.pairwise_flatMap]
  refine ⟨fun iv _ => List.pairwise_lt_range' .., ?_⟩
  refine separated.imp ?_
  intro before after apart p inBefore q inAfter
  have left := mem_positions.mp inBefore
  have right := mem_positions.mp inAfter
  omega

theorem separated_eq {ivs others : List Interval} (proper : Proper ivs)
    (otherProper : Proper others) (separated : Separated ivs)
    (otherSeparated : Separated others)
    (same : ivs.flatMap positions = others.flatMap positions) :
    ivs = others := by
  induction ivs generalizing others with
  | nil =>
      cases others with
      | nil => rfl
      | cons iv others =>
          have ordered := ((proper_cons iv others).mp otherProper).1
          rw [List.flatMap_cons, positions_eq_cons ordered] at same
          cases same
  | cons iv ivs ih =>
      obtain ⟨ordered, laterProper⟩ := (proper_cons iv ivs).mp proper
      obtain ⟨apart, laterSeparated⟩ := List.pairwise_cons.mp separated
      rw [List.flatMap_cons] at same
      have beyond : ∀ p ∈ ivs.flatMap positions, iv.2 + 1 < p := by
        intro p member
        obtain ⟨later, inside, within⟩ := List.mem_flatMap.mp member
        have bounds := mem_positions.mp within
        have gap := apart later inside
        omega
      obtain ⟨front, back, rfl, inFront, inBack⟩ :=
        pieces_of_head otherProper ordered beyond same.symm
      obtain ⟨frontSeparated, backSeparated, _⟩ :=
        List.pairwise_append.mp otherSeparated
      have frontProper : Proper front := fun piece member =>
        otherProper piece (List.mem_append_left _ member)
      have backProper : Proper back := fun piece member =>
        otherProper piece (List.mem_append_right _ member)
      cases front with
      | nil =>
          rw [positions_eq_cons ordered] at inFront
          cases inFront
      | cons head more =>
          obtain ⟨_, _, ⟨rfl, rfl⟩ | ⟨_, impossible⟩⟩ := first_piece
            frontProper
            (Separated.cut frontSeparated fun _ => False) ordered inFront
          · rw [List.singleton_append, ← ih laterProper backProper
              laterSeparated backSeparated inBack.symm]
          · exact impossible.elim

end Exav.Interval
