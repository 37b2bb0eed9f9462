import Mathlib.Algebra.GroupWithZero.Nat
import Mathlib.Data.List.Sort

/-!
# Sets of naturals held as lists of closed intervals

`Covers` reads a list of intervals as the set of naturals it stands for.
`push` adds an interval to a list kept newest first, `coalesce` brings any list
into sorted, separated form, and `greatestIn` searches such a form.  Every
operation is characterised by the set it denotes.
-/

namespace Exav

/-- The naturals `lo..=hi`. -/
abbrev Interval := Nat × Nat

namespace Interval

/-- `position` lies in one of the intervals. -/
def Covers (ivs : List Interval) (position : Nat) : Prop :=
  ∃ iv ∈ ivs, iv.1 ≤ position ∧ position ≤ iv.2

def Proper (ivs : List Interval) : Prop :=
  ∀ iv ∈ ivs, iv.1 ≤ iv.2

/-- Ascending, with at least one natural left out between neighbours. -/
def Separated (ivs : List Interval) : Prop :=
  ivs.Pairwise fun before after => before.2 + 1 < after.1

@[simp] theorem covers_nil (position : Nat) : ¬Covers [] position := by
  simp [Covers]

@[simp] theorem covers_cons (iv : Interval) (ivs : List Interval)
    (position : Nat) :
    Covers (iv :: ivs) position ↔
      (iv.1 ≤ position ∧ position ≤ iv.2) ∨ Covers ivs position := by
  simp [Covers]

@[simp] theorem covers_append (front back : List Interval) (position : Nat) :
    Covers (front ++ back) position ↔
      Covers front position ∨ Covers back position := by
  simp only [Covers, List.mem_append, or_and_right, exists_or]

@[simp] theorem covers_reverse (ivs : List Interval) (position : Nat) :
    Covers ivs.reverse position ↔ Covers ivs position := by
  simp [Covers]

theorem covers_perm {left right : List Interval} (perm : left.Perm right)
    (position : Nat) : Covers left position ↔ Covers right position := by
  simp only [Covers, perm.mem_iff]

/-- A proper list stands for the empty set only when it is empty. -/
theorem Proper.covers_iff_ne_nil {ivs : List Interval} (proper : Proper ivs) :
    (∃ position, Covers ivs position) ↔ ivs ≠ [] := by
  constructor
  · rintro ⟨position, iv, member, _⟩ rfl
    exact List.not_mem_nil member
  · intro nonempty
    obtain ⟨iv, member⟩ := List.exists_mem_of_ne_nil ivs nonempty
    exact ⟨iv.1, iv, member, le_rfl, proper iv member⟩

@[simp] theorem proper_nil : Proper [] := by
  simp [Proper]

@[simp] theorem proper_cons (iv : Interval) (ivs : List Interval) :
    Proper (iv :: ivs) ↔ iv.1 ≤ iv.2 ∧ Proper ivs := by
  simp [Proper]

theorem Proper.append {front back : List Interval} (left : Proper front)
    (right : Proper back) : Proper (front ++ back) := by
  intro iv member
  rcases List.mem_append.mp member with inFront | inBack
  · exact left iv inFront
  · exact right iv inBack

theorem Proper.reverse {ivs : List Interval} (proper : Proper ivs) :
    Proper ivs.reverse := by
  intro iv member
  exact proper iv (List.mem_reverse.mp member)

/-! ## Adding an interval -/

/-- Add `lo..=hi` to a list kept newest first, extending its newest interval
when the two touch; `none` when that would make it longer than `room`. -/
def push (room : Nat) (ivs : List Interval) (lo hi : Nat) :
    Option (List Interval) :=
  match ivs with
  | [] => if room = 0 then none else some [(lo, hi)]
  | newest :: older =>
      if newest.1 ≤ lo ∧ lo ≤ newest.2 + 1 then
        some ((newest.1, max newest.2 hi) :: older)
      else if room ≤ (newest :: older).length then none
      else some ((lo, hi) :: newest :: older)

theorem push_covers {room : Nat} {ivs pushed : List Interval} {lo hi : Nat}
    (proper : Proper ivs) (result : push room ivs lo hi = some pushed)
    (position : Nat) :
    Covers pushed position ↔
      Covers ivs position ∨ (lo ≤ position ∧ position ≤ hi) := by
  cases ivs with
  | nil =>
      simp only [push] at result
      split at result
      · cases result
      · cases result
        simp
  | cons newest older =>
      simp only [push] at result
      split at result
      case isTrue touches =>
        cases result
        have newestOrdered : newest.1 ≤ newest.2 := proper newest (by simp)
        simp only [covers_cons]
        constructor
        · rintro (⟨lower, upper⟩ | inOlder)
          · by_cases within : position ≤ newest.2
            · exact Or.inl (Or.inl ⟨lower, within⟩)
            · right
              omega
          · exact Or.inl (Or.inr inOlder)
        · rintro ((⟨lower, upper⟩ | inOlder) | ⟨lower, upper⟩)
          · exact Or.inl ⟨lower, by omega⟩
          · exact Or.inr inOlder
          · exact Or.inl ⟨by omega, by omega⟩
      case isFalse apart =>
        split at result
        · cases result
        · cases result
          simp only [covers_cons]
          tauto

theorem push_proper {room : Nat} {ivs pushed : List Interval} {lo hi : Nat}
    (ordered : lo ≤ hi) (proper : Proper ivs)
    (result : push room ivs lo hi = some pushed) : Proper pushed := by
  cases ivs with
  | nil =>
      simp only [push] at result
      split at result
      · cases result
      · cases result
        simpa using ordered
  | cons newest older =>
      simp only [push] at result
      split at result
      case isTrue touches =>
        cases result
        have parts := (proper_cons newest older).mp proper
        exact (proper_cons _ _).mpr ⟨by dsimp only; omega, parts.2⟩
      case isFalse apart =>
        split at result
        · cases result
        · cases result
          exact (proper_cons _ _).mpr ⟨ordered, proper⟩

/-- A stretch added whole or cut in two gives the same list, and is refused in
the same cases. -/
theorem push_split (room : Nat) (ivs : List Interval) {lo mid hi : Nat}
    (lower : lo ≤ mid) (upper : mid < hi) :
    push room ivs lo hi =
      (push room ivs lo mid).bind fun pushed =>
        push room pushed (mid + 1) hi := by
  cases ivs with
  | nil =>
      by_cases full : room = 0
      · simp [push, full]
      · have touches : lo ≤ mid + 1 := by omega
        have wider : max mid hi = hi := by omega
        simp [push, full, touches, wider]
  | cons newest older =>
      by_cases touches : newest.1 ≤ lo ∧ lo ≤ newest.2 + 1
      · have again :
            newest.1 ≤ mid + 1 ∧ mid + 1 ≤ max newest.2 mid + 1 := by omega
        have wider : max (max newest.2 mid) hi = max newest.2 hi := by omega
        simp only [push, touches, and_self, if_true, Option.bind_some, again,
          wider]
      · by_cases full : room ≤ (newest :: older).length
        · simp only [push, touches, if_false, full, if_true, Option.bind_none]
        · have again : lo ≤ mid + 1 ∧ mid + 1 ≤ mid + 1 := by omega
          have wider : max mid hi = hi := by omega
          simp only [push, touches, if_false, full, Option.bind_some, again,
            and_self, if_true, wider]

/-- What continues the stretch just added is never refused. -/
theorem push_continues {room : Nat} {ivs pushed : List Interval}
    {lo mid : Nat} (ordered : lo ≤ mid)
    (result : push room ivs lo mid = some pushed) (hi : Nat) :
    ∃ later, push room pushed (mid + 1) hi = some later := by
  cases ivs with
  | nil =>
      simp only [push] at result
      split at result
      · cases result
      · cases result
        have touches : lo ≤ mid + 1 := by omega
        simp [push, touches]
  | cons newest older =>
      simp only [push] at result
      split at result
      case isTrue touched =>
        cases result
        have touches :
            newest.1 ≤ mid + 1 ∧ mid + 1 ≤ max newest.2 mid + 1 := by omega
        simp [push, touches]
      case isFalse =>
        split at result
        · cases result
        · cases result
          have touches : lo ≤ mid + 1 := by omega
          simp [push, touches]

/-! ## Sorted, separated form -/

/-- Lexicographic order of intervals. -/
def Before (left right : Interval) : Prop :=
  left.1 < right.1 ∨ (left.1 = right.1 ∧ left.2 ≤ right.2)

instance : DecidableRel Before := fun _ _ =>
  inferInstanceAs (Decidable (_ ∨ _))

instance : Std.Total Before where
  total _ _ := by
    unfold Before
    omega

instance : IsTrans Interval Before where
  trans _ _ _ := by
    unfold Before
    omega

/-- Merge the intervals of an ascending list into the open interval `current`
as long as they touch it. -/
def merge (current : Interval) : List Interval → List Interval
  | [] => [current]
  | iv :: ivs =>
      if iv.1 ≤ current.2 + 1 then merge (current.1, max current.2 iv.2) ivs
      else current :: merge iv ivs

/-- The sorted, separated form. -/
def coalesce (ivs : List Interval) : List Interval :=
  match ivs.insertionSort Before with
  | [] => []
  | iv :: ivs => merge iv ivs

/-- Ascending by first element, as `merge` needs its input. -/
def Ascending (ivs : List Interval) : Prop :=
  ivs.Pairwise fun before after => before.1 ≤ after.1

/-- An interval and the next one it touches may be taken for one. -/
theorem widened {current iv : Interval} {ivs : List Interval}
    (proper : Proper (current :: iv :: ivs))
    (ascending : Ascending (current :: iv :: ivs)) :
    Proper ((current.1, max current.2 iv.2) :: ivs) ∧
      Ascending ((current.1, max current.2 iv.2) :: ivs) := by
  obtain ⟨currentProper, tailProper⟩ := (proper_cons current _).mp proper
  obtain ⟨above, tailAscending⟩ := List.pairwise_cons.mp ascending
  constructor
  · exact (proper_cons _ _).mpr
      ⟨by dsimp only; omega, ((proper_cons iv ivs).mp tailProper).2⟩
  · refine List.pairwise_cons.mpr ⟨?_, tailAscending.of_cons⟩
    intro later member
    exact above later (by simp [member])

theorem merge_covers {ivs : List Interval} {current : Interval}
    (proper : Proper (current :: ivs)) (ascending : Ascending (current :: ivs))
    (position : Nat) :
    Covers (merge current ivs) position ↔
      Covers (current :: ivs) position := by
  induction ivs generalizing current with
  | nil => rfl
  | cons iv ivs ih =>
      obtain ⟨currentProper, tailProper⟩ := (proper_cons current _).mp proper
      obtain ⟨ivProper, restProper⟩ := (proper_cons iv ivs).mp tailProper
      obtain ⟨above, tailAscending⟩ := List.pairwise_cons.mp ascending
      have ivAbove : current.1 ≤ iv.1 := above iv (by simp)
      rw [merge]
      split
      case isTrue touches =>
        have step := ih (widened proper ascending).1 (widened proper ascending).2
        simp only [covers_cons] at step ⊢
        rw [step]
        constructor
        · rintro (⟨lower, upper⟩ | later)
          · by_cases within : position ≤ current.2
            · exact Or.inl ⟨lower, within⟩
            · exact Or.inr (Or.inl (by omega))
          · exact Or.inr (Or.inr later)
        · rintro (⟨lower, upper⟩ | ⟨lower, upper⟩ | later)
          · exact Or.inl ⟨lower, by omega⟩
          · exact Or.inl (by omega)
          · exact Or.inr later
      case isFalse apart =>
        rw [covers_cons, ih tailProper tailAscending, covers_cons current]

theorem merge_bounds {ivs : List Interval} {current : Interval}
    (proper : Proper (current :: ivs)) (ascending : Ascending (current :: ivs)) :
    ∀ iv ∈ merge current ivs, iv.1 ≤ iv.2 ∧ current.1 ≤ iv.1 := by
  induction ivs generalizing current with
  | nil =>
      intro iv member
      rw [merge, List.mem_singleton] at member
      subst iv
      exact ⟨proper current (by simp), le_rfl⟩
  | cons iv ivs ih =>
      obtain ⟨currentProper, tailProper⟩ := (proper_cons current _).mp proper
      obtain ⟨ivProper, restProper⟩ := (proper_cons iv ivs).mp tailProper
      obtain ⟨above, tailAscending⟩ := List.pairwise_cons.mp ascending
      rw [merge]
      split
      case isTrue touches =>
        exact @ih (current.1, max current.2 iv.2) (widened proper ascending).1
          (widened proper ascending).2
      case isFalse apart =>
        intro merged member
        rcases List.mem_cons.mp member with rfl | later
        · exact ⟨currentProper, le_rfl⟩
        · have bounds := ih tailProper tailAscending merged later
          have ivAbove : current.1 ≤ iv.1 := above iv (by simp)
          exact ⟨bounds.1, ivAbove.trans bounds.2⟩

theorem merge_separated {ivs : List Interval} {current : Interval}
    (proper : Proper (current :: ivs)) (ascending : Ascending (current :: ivs)) :
    Separated (merge current ivs) := by
  induction ivs generalizing current with
  | nil => simp [merge, Separated]
  | cons iv ivs ih =>
      obtain ⟨currentProper, tailProper⟩ := (proper_cons current _).mp proper
      obtain ⟨ivProper, restProper⟩ := (proper_cons iv ivs).mp tailProper
      obtain ⟨above, tailAscending⟩ := List.pairwise_cons.mp ascending
      rw [merge]
      split
      case isTrue touches =>
        exact @ih (current.1, max current.2 iv.2) (widened proper ascending).1
          (widened proper ascending).2
      case isFalse apart =>
        refine List.pairwise_cons.mpr ⟨?_, ih tailProper tailAscending⟩
        intro later member
        have bounds := merge_bounds tailProper tailAscending later member
        omega

private theorem insertionSort_ascending (ivs : List Interval) :
    Ascending (ivs.insertionSort Before) := by
  refine (List.pairwise_insertionSort Before ivs).imp ?_
  intro before after ordered
  rcases ordered with smaller | ⟨equal, _⟩
  · exact smaller.le
  · exact equal.le

private theorem insertionSort_proper {ivs : List Interval}
    (proper : Proper ivs) : Proper (ivs.insertionSort Before) := by
  intro iv member
  exact proper iv ((List.perm_insertionSort Before ivs).mem_iff.mp member)

theorem coalesce_covers {ivs : List Interval} (proper : Proper ivs)
    (position : Nat) :
    Covers (coalesce ivs) position ↔ Covers ivs position := by
  rw [← covers_perm (List.perm_insertionSort Before ivs) position]
  have sortedProper := insertionSort_proper proper
  have sortedAscending := insertionSort_ascending ivs
  unfold coalesce
  cases sorted : ivs.insertionSort Before with
  | nil => rfl
  | cons iv rest =>
      rw [sorted] at sortedProper sortedAscending
      exact merge_covers sortedProper sortedAscending position

theorem coalesce_proper {ivs : List Interval} (proper : Proper ivs) :
    Proper (coalesce ivs) := by
  have sortedProper := insertionSort_proper proper
  have sortedAscending := insertionSort_ascending ivs
  unfold coalesce
  cases sorted : ivs.insertionSort Before with
  | nil => exact proper_nil
  | cons iv rest =>
      rw [sorted] at sortedProper sortedAscending
      intro merged member
      exact (merge_bounds sortedProper sortedAscending merged member).1

theorem coalesce_separated {ivs : List Interval} (proper : Proper ivs) :
    Separated (coalesce ivs) := by
  have sortedProper := insertionSort_proper proper
  have sortedAscending := insertionSort_ascending ivs
  unfold coalesce
  cases sorted : ivs.insertionSort Before with
  | nil => exact List.Pairwise.nil
  | cons iv rest =>
      rw [sorted] at sortedProper sortedAscending
      exact merge_separated sortedProper sortedAscending

theorem separated_singleton (iv : Interval) : Separated [iv] := by
  simp [Separated]

theorem Separated.eq_or_apart {ivs : List Interval}
    (separated : Separated ivs) {iv other : Interval} (member : iv ∈ ivs)
    (otherMember : other ∈ ivs) :
    iv = other ∨ iv.2 + 1 < other.1 ∨ other.2 + 1 < iv.1 := by
  induction ivs with
  | nil => cases member
  | cons head tail ih =>
      obtain ⟨headApart, tailSeparated⟩ := List.pairwise_cons.mp separated
      rcases List.mem_cons.mp member with rfl | inTail
      · rcases List.mem_cons.mp otherMember with rfl | otherInTail
        · exact Or.inl rfl
        · exact Or.inr (Or.inl (headApart other otherInTail))
      · rcases List.mem_cons.mp otherMember with rfl | otherInTail
        · exact Or.inr (Or.inr (headApart iv inTail))
        · exact ih tailSeparated inTail otherInTail

/-- A stretch of consecutive members of a separated set lies in one of its
intervals. -/
theorem Separated.exists_of_run {ivs : List Interval}
    (separated : Separated ivs) {lo hi : Nat} (ordered : lo ≤ hi)
    (covered : ∀ position, lo ≤ position → position ≤ hi →
      Covers ivs position) :
    ∃ iv ∈ ivs, iv.1 ≤ lo ∧ hi ≤ iv.2 := by
  induction hi, ordered using Nat.le_induction with
  | base =>
      obtain ⟨iv, member, lower, upper⟩ := covered lo le_rfl le_rfl
      exact ⟨iv, member, lower, upper⟩
  | succ hi ordered ih =>
      obtain ⟨iv, member, lower, upper⟩ := ih (by
        intro position above below
        exact covered position above (by omega))
      obtain ⟨other, otherMember, otherLower, otherUpper⟩ :=
        covered (hi + 1) (by omega) le_rfl
      rcases separated.eq_or_apart member otherMember with rfl | apart
      · exact ⟨iv, member, lower, otherUpper⟩
      · omega

/-! ## Carving out -/

/-- The stretches of `cursor..=stop` between ascending `holes`. -/
def carve : List Interval → Nat → Nat → List Interval
  | [], cursor, stop => if cursor ≤ stop then [(cursor, stop)] else []
  | hole :: holes, cursor, stop =>
      if hole.1 > cursor then
        (cursor, hole.1 - 1) :: carve holes (hole.2 + 1) stop
      else carve holes (hole.2 + 1) stop

theorem carve_spec {holes : List Interval} {cursor stop : Nat}
    (separated : Separated holes) (proper : Proper holes)
    (within : ∀ hole ∈ holes, cursor ≤ hole.1 ∧ hole.2 ≤ stop) :
    Proper (carve holes cursor stop) ∧
      ∀ position, Covers (carve holes cursor stop) position ↔
        cursor ≤ position ∧ position ≤ stop ∧ ¬Covers holes position := by
  induction holes generalizing cursor with
  | nil =>
      rw [carve]
      split
      case isTrue ordered => exact ⟨by simpa using ordered, by simp⟩
      case isFalse past =>
        refine ⟨proper_nil, ?_⟩
        intro position
        simp only [covers_nil, not_false_eq_true, and_true, false_iff]
        omega
  | cons hole holes ih =>
      obtain ⟨apart, restSeparated⟩ := List.pairwise_cons.mp separated
      obtain ⟨holeProper, restProper⟩ := (proper_cons hole holes).mp proper
      have bounds := within hole (by simp)
      have restWithin : ∀ later ∈ holes,
          hole.2 + 1 ≤ later.1 ∧ later.2 ≤ stop := by
        intro later member
        have beyond := apart later member
        have inside := within later (by simp [member])
        omega
      obtain ⟨carvedProper, carved⟩ :=
        ih restSeparated restProper restWithin
      have after : ∀ position, position ≤ hole.2 → ¬Covers holes position := by
        rintro position upper ⟨later, member, lower, _⟩
        have beyond := apart later member
        omega
      rw [carve]
      split
      case isTrue room =>
        refine ⟨(proper_cons _ _).mpr ⟨by dsimp only; omega, carvedProper⟩, ?_⟩
        intro position
        rw [covers_cons, covers_cons, carved]
        dsimp only
        constructor
        · rintro (⟨lower, upper⟩ | ⟨lower, upper, outside⟩)
          · refine ⟨lower, by omega, ?_⟩
            rintro (inHole | later)
            · omega
            · exact after position (by omega) later
          · refine ⟨by omega, upper, ?_⟩
            rintro (inHole | later)
            · omega
            · exact outside later
        · rintro ⟨lower, upper, outside⟩
          by_cases before : position < hole.1
          · exact Or.inl ⟨lower, by omega⟩
          · refine Or.inr ⟨?_, upper, fun later => outside (Or.inr later)⟩
            by_contra inside
            exact outside (Or.inl ⟨by omega, by omega⟩)
      case isFalse touching =>
        refine ⟨carvedProper, ?_⟩
        intro position
        rw [covers_cons, carved]
        constructor
        · rintro ⟨lower, upper, outside⟩
          refine ⟨by omega, upper, ?_⟩
          rintro (inHole | later)
          · omega
          · exact outside later
        · rintro ⟨lower, upper, outside⟩
          refine ⟨?_, upper, fun later => outside (Or.inr later)⟩
          by_contra inside
          exact outside (Or.inl ⟨by omega, by omega⟩)

/-! ## Searching -/

/-- The greatest member of a sorted, separated set in `lo..=hi`. -/
def greatestIn (ivs : List Interval) (lo hi : Nat) : Option Nat :=
  if lo > hi then none
  else
    match (ivs.takeWhile fun iv => iv.1 ≤ hi).getLast? with
    | none => none
    | some iv => if iv.2 ≥ lo then some (min iv.2 hi) else none

private theorem getLast_takeWhile (hi : Nat) {ivs : List Interval}
    (separated : Separated ivs) (proper : Proper ivs) :
    match (ivs.takeWhile fun iv => iv.1 ≤ hi).getLast? with
    | none => ∀ iv ∈ ivs, hi < iv.1
    | some last => last ∈ ivs ∧ last.1 ≤ hi ∧
        ∀ iv ∈ ivs, iv.1 ≤ hi → iv.2 ≤ last.2 := by
  induction ivs with
  | nil => simp
  | cons head tail ih =>
      obtain ⟨headApart, tailSeparated⟩ := List.pairwise_cons.mp separated
      obtain ⟨headProper, tailProper⟩ := (proper_cons head tail).mp proper
      by_cases starts : head.1 ≤ hi
      · have rest := ih tailSeparated tailProper
        rw [List.takeWhile_cons_of_pos (by simpa using starts)]
        cases found : (tail.takeWhile fun iv => iv.1 ≤ hi).getLast? with
        | none =>
            rw [found] at rest
            have nothing : (tail.takeWhile fun iv => iv.1 ≤ hi) = [] :=
              List.getLast?_eq_none_iff.mp found
            rw [nothing, List.getLast?_singleton]
            refine ⟨by simp, starts, ?_⟩
            intro iv member within
            rcases List.mem_cons.mp member with rfl | inTail
            · exact le_rfl
            · have beyond := rest iv inTail
              omega
        | some last =>
            rw [found] at rest
            obtain ⟨lastMember, lastStarts, greatest⟩ := rest
            rw [List.getLast?_cons, found]
            refine ⟨by simp [lastMember], lastStarts, ?_⟩
            intro iv member within
            rcases List.mem_cons.mp member with rfl | inTail
            · have apart := headApart last lastMember
              have lastProper := tailProper last lastMember
              change iv.2 ≤ last.2
              omega
            · exact greatest iv inTail within
      · rw [List.takeWhile_cons_of_neg (by simpa using starts)]
        intro iv member
        rcases List.mem_cons.mp member with rfl | inTail
        · omega
        · have apart := headApart iv inTail
          omega

theorem greatestIn_eq_none_iff {ivs : List Interval} {lo hi : Nat}
    (separated : Separated ivs) (proper : Proper ivs) :
    greatestIn ivs lo hi = none ↔
      ∀ position, lo ≤ position → position ≤ hi → ¬Covers ivs position := by
  unfold greatestIn
  split
  case isTrue empty =>
    simp only [true_iff]
    intro position lower upper
    omega
  case isFalse ordered =>
    have last := getLast_takeWhile hi separated proper
    cases found : (ivs.takeWhile fun iv => iv.1 ≤ hi).getLast? with
    | none =>
        rw [found] at last
        simp only [true_iff]
        rintro position lower upper ⟨iv, member, ivLower, _⟩
        have beyond := last iv member
        omega
    | some iv =>
        rw [found] at last
        obtain ⟨member, starts, greatest⟩ := last
        dsimp only
        split
        case isTrue reaches =>
          simp only [reduceCtorEq, false_iff, not_forall]
          have ivProper := proper iv member
          exact ⟨min iv.2 hi, by omega, by omega, fun absent =>
            absent ⟨iv, member, by omega, by omega⟩⟩
        case isFalse short =>
          simp only [true_iff]
          rintro position lower upper ⟨other, otherMember, otherLower, otherUpper⟩
          have within := greatest other otherMember (by omega)
          omega

theorem greatestIn_eq_some {ivs : List Interval} {lo hi position : Nat}
    (separated : Separated ivs) (proper : Proper ivs)
    (found : greatestIn ivs lo hi = some position) :
    lo ≤ position ∧ position ≤ hi ∧ Covers ivs position ∧
      ∀ other, other ≤ hi → Covers ivs other → other ≤ position := by
  unfold greatestIn at found
  split at found
  case isTrue empty => cases found
  case isFalse ordered =>
    have last := getLast_takeWhile hi separated proper
    cases taken : (ivs.takeWhile fun iv => iv.1 ≤ hi).getLast? with
    | none =>
        rw [taken] at found
        cases found
    | some iv =>
        rw [taken] at found last
        obtain ⟨member, starts, greatest⟩ := last
        dsimp only at found
        split at found
        case isFalse short => cases found
        case isTrue reaches =>
          cases found
          have ivProper := proper iv member
          refine ⟨by omega, by omega, ⟨iv, member, by omega, by omega⟩, ?_⟩
          rintro other below ⟨holder, holderMember, holderLower, holderUpper⟩
          have within := greatest holder holderMember (by omega)
          omega

/-! ## Intervals as stretches of positions -/

/-- The naturals of an interval, ascending. -/
def positions (iv : Interval) : List Nat :=
  List.range' iv.1 (iv.2 + 1 - iv.1)

@[simp] theorem mem_positions {iv : Interval} {position : Nat} :
    position ∈ iv.positions ↔ iv.1 ≤ position ∧ position ≤ iv.2 := by
  rw [positions, List.mem_range'_1]
  omega

theorem positions_singleton (position : Nat) :
    positions (position, position) = [position] := by
  simp [positions]

theorem positions_shift (lo hi d : Nat) :
    positions (lo + d, hi + d) = (positions (lo, hi)).map (· + d) := by
  have width : d + hi + 1 - (d + lo) = hi + 1 - lo := by omega
  simp only [positions, Nat.add_comm _ d, width, List.map_add_range']

theorem positions_split {lo mid hi : Nat} (lower : lo ≤ mid + 1)
    (upper : mid ≤ hi) :
    positions (lo, hi) = positions (lo, mid) ++ positions (mid + 1, hi) := by
  simp only [positions]
  rw [show hi + 1 - lo = (mid + 1 - lo) + (hi + 1 - (mid + 1)) by omega,
    ← List.range'_append_1,
    show lo + (mid + 1 - lo) = mid + 1 by omega]

/-- Ascending positions, as a search that runs forward finds them. -/
def Increasing (ivs : List Interval) : Prop :=
  (ivs.flatMap positions).Pairwise (· < ·)

theorem Increasing.tail {iv : Interval} {ivs : List Interval}
    (increasing : Increasing (iv :: ivs)) : Increasing ivs := by
  rw [Increasing, List.flatMap_cons, List.pairwise_append] at increasing
  exact increasing.2.1

theorem Increasing.head_lt {iv : Interval} {ivs : List Interval}
    (increasing : Increasing (iv :: ivs)) (proper : Proper (iv :: ivs)) :
    ∀ later ∈ ivs, iv.2 < later.1 := by
  intro later member
  rw [Increasing, List.flatMap_cons, List.pairwise_append] at increasing
  obtain ⟨headProper, tailProper⟩ := (proper_cons iv ivs).mp proper
  exact increasing.2.2 iv.2 (by simp [headProper]) later.1
    (List.mem_flatMap.mpr ⟨later, member, by simp [tailProper later member]⟩)

/-- The part of ascending intervals that lies in `lo..=hi`: those ending before
`lo` skipped, the rest taken while they start by `hi`, each clipped. -/
def clip (ivs : List Interval) (lo hi : Nat) : List Interval :=
  ((ivs.dropWhile fun iv => iv.2 < lo).takeWhile fun iv => iv.1 ≤ hi).map
    fun iv => (max iv.1 lo, min iv.2 hi)

private theorem filter_positions_clip {lo hi : Nat} (iv : Interval) :
    iv.positions.filter (fun position => lo ≤ position ∧ position ≤ hi) =
      positions (max iv.1 lo, min iv.2 hi) := by
  refine List.Pairwise.eq_of_mem_iff (r := (· < ·))
    (List.Pairwise.filter _ (List.pairwise_lt_range' ..))
    (List.pairwise_lt_range' ..) ?_
  intro position
  simp only [List.mem_filter, mem_positions, decide_eq_true_eq]
  omega

private theorem takeWhile_clip {ivs : List Interval} {lo hi : Nat}
    (increasing : Increasing ivs) (proper : Proper ivs) :
    ((ivs.takeWhile fun iv => iv.1 ≤ hi).map fun iv =>
        (max iv.1 lo, min iv.2 hi)).flatMap positions =
      (ivs.flatMap positions).filter
        fun position => lo ≤ position ∧ position ≤ hi := by
  induction ivs with
  | nil => rfl
  | cons iv ivs ih =>
      have rest := ih increasing.tail ((proper_cons iv ivs).mp proper).2
      rw [List.flatMap_cons, List.filter_append, filter_positions_clip, ← rest]
      by_cases starts : iv.1 ≤ hi
      · rw [List.takeWhile_cons_of_pos (by simpa using starts), List.map_cons,
          List.flatMap_cons]
      · have above := increasing.head_lt proper
        have ivProper := ((proper_cons iv ivs).mp proper).1
        have nothing : (ivs.takeWhile fun iv => iv.1 ≤ hi) = [] := by
          cases ivs with
          | nil => rfl
          | cons next later =>
              have beyond := above next (by simp)
              exact List.takeWhile_cons_of_neg (by simp; omega)
        rw [List.takeWhile_cons_of_neg (by simpa using starts), nothing]
        have empty : min iv.2 hi + 1 - max iv.1 lo = 0 := by omega
        simp [positions, empty]

theorem clip_positions {ivs : List Interval} {lo hi : Nat}
    (increasing : Increasing ivs) (proper : Proper ivs) :
    (clip ivs lo hi).flatMap positions =
      (ivs.flatMap positions).filter
        fun position => lo ≤ position ∧ position ≤ hi := by
  induction ivs with
  | nil => rfl
  | cons iv ivs ih =>
      obtain ⟨ivProper, restProper⟩ := (proper_cons iv ivs).mp proper
      by_cases skipped : iv.2 < lo
      · have rest := ih increasing.tail restProper
        have empty : iv.positions.filter
            (fun position => lo ≤ position ∧ position ≤ hi) = [] := by
          rw [List.filter_eq_nil_iff]
          intro position member
          have bounds := mem_positions.mp member
          simp only [decide_eq_true_eq]
          omega
        rw [List.flatMap_cons, List.filter_append, empty, List.nil_append,
          ← rest, clip, List.dropWhile_cons_of_pos (by simpa using skipped)]
        rfl
      · rw [clip, List.dropWhile_cons_of_neg (by simpa using skipped)]
        exact takeWhile_clip increasing proper

theorem clip_proper {ivs : List Interval} {lo hi : Nat}
    (increasing : Increasing ivs) (proper : Proper ivs) (ordered : lo ≤ hi) :
    Proper (clip ivs lo hi) := by
  intro clipped member
  obtain ⟨iv, taken, rfl⟩ := List.mem_map.mp member
  have starts : iv.1 ≤ hi := by
    have reached := List.all_takeWhile (p := fun iv : Interval => iv.1 ≤ hi)
      (l := ivs.dropWhile fun iv => iv.2 < lo)
    simpa using List.all_eq_true.mp reached iv taken
  have kept : iv ∈ ivs.dropWhile fun iv => iv.2 < lo :=
    (List.takeWhile_prefix _).subset taken
  have ivProper := proper iv ((List.dropWhile_suffix _).subset kept)
  have ends : lo ≤ iv.2 := by
    clear taken member
    induction ivs with
    | nil => cases kept
    | cons head tail ih =>
        obtain ⟨headProper, tailProper⟩ := (proper_cons head tail).mp proper
        by_cases skipped : head.2 < lo
        · rw [List.dropWhile_cons_of_pos (by simpa using skipped)] at kept
          exact ih increasing.tail tailProper kept
        · rw [List.dropWhile_cons_of_neg (by simpa using skipped)] at kept
          rcases List.mem_cons.mp kept with rfl | later
          · omega
          · have above := increasing.head_lt proper iv later
            omega
  dsimp only
  omega

end Interval

end Exav
