import Mathlib.Algebra.GroupWithZero.Nat
import Mathlib.Data.List.Sort

/-!
# Searching by halves

A stretch of positions is ordered against what is searched for: below it, then
on it, then above it.  Halving the stretch ends on a position that is on it, or
where one would be put.
-/

namespace Exav.Bisect

/-- The positions below `size` run from below through on to above. -/
def Ascending (order : Nat → Ordering) (size : Nat) : Prop :=
  ∀ i j, i ≤ j → j < size →
    (order j = .lt → order i = .lt) ∧ (order i = .gt → order j = .gt)

/-- Halve the stretch of `size` positions from `base` down to one. -/
def narrow (order : Nat → Ordering) (size base : Nat) : Nat :=
  if size ≤ 1 then base
  else
    let half := size / 2
    let mid := base + half
    narrow order (size - half) (if order mid = .gt then base else mid)

def searchBy (order : Nat → Ordering) (size : Nat) : Except Nat Nat :=
  if size = 0 then .error 0
  else
    let base := narrow order size 0
    match order base with
    | .eq => .ok base
    | .lt => .error (base + 1)
    | .gt => .error base

/-- The first position `goesOn` does not hold at, where it holds up to some
position and not from there on. -/
def partitionPoint (goesOn : Nat → Bool) (size : Nat) : Nat :=
  match searchBy (fun i => if goesOn i then .lt else .gt) size with
  | .ok i => i
  | .error i => i

section

variable {order : Nat → Ordering} {total : Nat}

/-- What halving keeps: everything past the stretch is above, and its start is
not, unless it is the very first position. -/
structure Around (order : Nat → Ordering) (total size base : Nat) : Prop where
  within : base + size ≤ total
  past : ∀ i, base + size ≤ i → i < total → order i = .gt
  reached : base = 0 ∨ order base ≠ .gt

theorem narrow_around (ascending : Ascending order total) {size base : Nat}
    (some_ : 0 < size) (around : Around order total size base) :
    Around order total 1 (narrow order size base) := by
  fun_induction narrow order size base with
  | case1 size base single =>
      obtain rfl : size = 1 := by omega
      exact around
  | case2 size base several half mid ih =>
      have halved : half = size / 2 := rfl
      have middle : mid = base + half := rfl
      have within := around.within
      apply ih (by omega)
      by_cases above : order mid = .gt
      · rw [dif_pos above]
        refine ⟨by omega, fun i after below => ?_, around.reached⟩
        exact (ascending mid i (by omega) below).2 above
      · rw [dif_neg above]
        refine ⟨by omega, fun i after below => ?_, Or.inr above⟩
        exact around.past i (by omega) below

theorem around_whole (size : Nat) : Around order size size 0 where
  within := by omega
  past i after below := by omega
  reached := Or.inl rfl

theorem searchBy_ok (ascending : Ascending order total) {i : Nat}
    (found : searchBy order total = .ok i) : i < total ∧ order i = .eq := by
  unfold searchBy at found
  split at found
  · cases found
  · have around := narrow_around ascending (by omega)
      (around_whole total)
    dsimp only at found
    split at found <;> rename_i at_
    · cases found
      exact ⟨around.within, at_⟩
    · cases found
    · cases found

theorem searchBy_error (ascending : Ascending order total) {i : Nat}
    (missed : searchBy order total = .error i) :
    i ≤ total ∧ (∀ j, j < i → order j = .lt) ∧
      ∀ j, i ≤ j → j < total → order j = .gt := by
  unfold searchBy at missed
  split at missed
  · rename_i empty
    cases missed
    exact ⟨by omega, fun j below => absurd below (Nat.not_lt_zero j),
      fun j _ below => by omega⟩
  · have around := narrow_around ascending (by omega)
      (around_whole total)
    have within := around.within
    dsimp only at missed
    split at missed <;> rename_i at_
    · cases missed
    · cases missed
      refine ⟨within, fun j below => ?_, around.past⟩
      exact (ascending j _ (by omega) (by omega)).1 at_
    · cases missed
      have first : narrow order total 0 = 0 :=
        around.reached.resolve_right (· at_)
      refine ⟨by omega, fun j below => by omega, fun j after below => ?_⟩
      exact (ascending _ j after below).2 at_

theorem ne_eq_of_searchBy_error (ascending : Ascending order total) {i : Nat}
    (missed : searchBy order total = .error i) {j : Nat} (below : j < total) :
    order j ≠ .eq := by
  obtain ⟨-, before, after⟩ := searchBy_error ascending missed
  intro found
  rcases Nat.lt_or_ge j i with earlier | later
  · simp [before j earlier] at found
  · simp [after j later below] at found

theorem partitionPoint_spec {goesOn : Nat → Bool} {size : Nat}
    (closed : ∀ i j, i ≤ j → j < size → goesOn j = true → goesOn i = true) :
    partitionPoint goesOn size ≤ size ∧
      (∀ j, j < partitionPoint goesOn size → goesOn j = true) ∧
      ∀ j, partitionPoint goesOn size ≤ j → j < size → goesOn j = false := by
  have ascending : Ascending
      (fun i => if goesOn i then Ordering.lt else .gt) size := by
    intro i j ordered below
    have kept := closed i j ordered below
    cases at_ : goesOn i <;> cases after : goesOn j <;> simp_all
  unfold partitionPoint
  cases found : searchBy
      (fun i => if goesOn i then Ordering.lt else .gt) size with
  | ok i =>
      have on := (searchBy_ok ascending found).2
      split at on <;> cases on
  | error i =>
      obtain ⟨within, before, after⟩ := searchBy_error ascending found
      refine ⟨within, fun j below => ?_, fun j past below => ?_⟩
      · simpa using before j below
      · simpa using after j past below

end

end Exav.Bisect

/-!
## The last entry of a key

Entries are kept under keys, and a later entry of a key replaces an earlier
one.  A stable sort keeps the entries of one key in their order, so dropping
all but the last of each run leaves, for every key, the entry that was put in
last.
-/

namespace Exav.LastWins

section

variable {α K : Type} [LinearOrder K] (key : α → K)

def lastOf (k : K) (entries : List α) : Option α :=
  (entries.filter fun e => key e = k).getLast?

def sortByKey (entries : List α) : List α :=
  entries.mergeSort fun a b => key a ≤ key b

def keepLast : List α → List α
  | [] => []
  | [e] => [e]
  | e :: next :: entries =>
      if key next = key e then keepLast (next :: entries)
      else e :: keepLast (next :: entries)

variable {key}

/-! ## Sorting -/

theorem sortByKey_perm (entries : List α) :
    (sortByKey key entries).Perm entries :=
  List.mergeSort_perm _ _

theorem sortByKey_ascending (entries : List α) :
    (sortByKey key entries).Pairwise fun a b => key a ≤ key b := by
  have sorted : (sortByKey key entries).Pairwise
      fun a b => decide (key a ≤ key b) = true :=
    List.pairwise_mergeSort (by simpa using fun a b c => le_trans)
      (by simpa using fun a b => le_total (key a) (key b)) entries
  simpa using sorted

theorem filter_sortByKey (k : K) (entries : List α) :
    (sortByKey key entries).filter (fun e => key e = k) =
      entries.filter fun e => key e = k := by
  have level : (entries.filter fun e => key e = k).Pairwise
      fun a b => decide (key a ≤ key b) = true := by
    refine List.pairwise_of_forall_mem_list fun a inA b inB => ?_
    have ofA := (List.mem_filter.mp inA).2
    have ofB := (List.mem_filter.mp inB).2
    simp only [decide_eq_true_eq] at ofA ofB
    simp [ofA, ofB]
  have kept := List.sublist_mergeSort
    (by simpa using fun a b c => le_trans)
    (by simpa using fun a b => le_total (key a) (key b)) level
    List.filter_sublist
  have inside := kept.filter fun e => decide (key e = k)
  rw [List.filter_filter] at inside
  simp only [Bool.and_self] at inside
  have same : ((sortByKey key entries).filter fun e => key e = k).length =
      (entries.filter fun e => key e = k).length :=
    ((sortByKey_perm entries).filter fun e => key e = k).length_eq
  exact (inside.eq_of_length same.symm).symm

theorem lastOf_sortByKey (k : K) (entries : List α) :
    lastOf key k (sortByKey key entries) = lastOf key k entries := by
  rw [lastOf, filter_sortByKey, lastOf]

/-! ## Keeping the last -/

theorem keepLast_sublist (entries : List α) :
    (keepLast key entries).Sublist entries := by
  fun_induction keepLast key entries with
  | case1 => exact .slnil
  | case2 e => exact List.Sublist.refl _
  | case3 e next entries same ih => exact ih.cons _
  | case4 e next entries differ ih => exact ih.cons_cons _

theorem keepLast_ascending {entries : List α}
    (ascending : entries.Pairwise fun a b => key a ≤ key b) :
    (keepLast key entries).Pairwise fun a b => key a < key b := by
  fun_induction keepLast key entries with
  | case1 => exact .nil
  | case2 e => exact List.pairwise_singleton _ _
  | case3 e next entries same ih => exact ih ascending.of_cons
  | case4 e next entries differ ih =>
      obtain ⟨below, rest⟩ := List.pairwise_cons.mp ascending
      refine List.pairwise_cons.mpr ⟨fun later inLater => ?_, ih rest⟩
      have first : key e < key next :=
        lt_of_le_of_ne (below next List.mem_cons_self) (Ne.symm differ)
      rcases List.mem_cons.mp ((keepLast_sublist _).subset inLater) with
        rfl | inRest
      · exact first
      · exact lt_of_lt_of_le first
          ((List.pairwise_cons.mp rest).1 later inRest)

theorem lastOf_cons_of_mem {k : K} {e next : α} {entries : List α}
    (same : key next = key e) :
    lastOf key k (e :: next :: entries) = lastOf key k (next :: entries) := by
  by_cases held : key e = k
  · simp [lastOf, same, held, List.getLast?_cons_cons]
  · simp [lastOf, held]

theorem lastOf_keepLast {entries : List α}
    (ascending : entries.Pairwise fun a b => key a ≤ key b) (k : K) :
    lastOf key k (keepLast key entries) = lastOf key k entries := by
  fun_induction keepLast key entries with
  | case1 => rfl
  | case2 e => rfl
  | case3 e next entries same ih =>
      rw [ih ascending.of_cons, lastOf_cons_of_mem same]
  | case4 e next entries differ ih =>
      obtain ⟨below, rest⟩ := List.pairwise_cons.mp ascending
      have later := ih rest
      unfold lastOf at later ⊢
      by_cases held : key e = k
      · have gone (f : α) (inRest : f ∈ next :: entries) : key f ≠ k := by
          have first : key e < key next :=
            lt_of_le_of_ne (below next List.mem_cons_self) (Ne.symm differ)
          rcases List.mem_cons.mp inRest with rfl | inRest
          · exact fun same => differ (same.trans held.symm)
          · have after := (List.pairwise_cons.mp rest).1 f inRest
            exact fun same => absurd (lt_of_lt_of_le first after)
              (by rw [same, held]; exact lt_irrefl _)
        have none_ : (next :: entries).filter (fun f => key f = k) = [] := by
          simpa using fun f inRest => gone f inRest
        have keptNone : (keepLast key (next :: entries)).filter
            (fun f => key f = k) = [] := by
          rw [List.filter_eq_nil_iff]
          intro f inKept
          simpa using gone f ((keepLast_sublist _).subset inKept)
        rw [List.filter_cons_of_pos (by simpa using held), keptNone,
          List.filter_cons_of_pos (by simpa using held), none_]
      · rw [List.filter_cons_of_neg (by simpa using held),
          List.filter_cons_of_neg (by simpa using held), later]

/-! ## One entry a key -/

theorem lastOf_eq_some {entries : List α}
    (ascending : entries.Pairwise fun a b => key a < key b) {e : α}
    (held : e ∈ entries) : lastOf key (key e) entries = some e := by
  induction entries with
  | nil => cases held
  | cons first entries ih =>
      obtain ⟨below, rest⟩ := List.pairwise_cons.mp ascending
      rcases List.mem_cons.mp held with rfl | later
      · have none_ : entries.filter (fun f => key f = key e) = [] := by
          rw [List.filter_eq_nil_iff]
          intro f inRest
          simpa using (below f inRest).ne'
        simp [lastOf, none_]
      · have other : key first ≠ key e := (below e later).ne
        rw [← ih rest later, lastOf, lastOf,
          List.filter_cons_of_neg (by simpa using other)]

theorem lastOf_eq_none_iff {k : K} {entries : List α} :
    lastOf key k entries = none ↔ ∀ e ∈ entries, key e ≠ k := by
  simp [lastOf]

end

end Exav.LastWins
