import Mathlib.Data.List.Sort
import Mathlib.Data.List.TakeWhile

/-!
# The lowest few

`Lowest p cap xs` says that a list holds, in ascending order, the lowest `cap`
of what satisfies `p`: what is listed satisfies it, and what is left out lies
after a list that is full.
-/

namespace Exav.Lib

variable {α : Type} [LinearOrder α] {p q : α → Prop} {cap : Nat}
  {xs ys : List α} {x : α}

structure Lowest (p : α → Prop) (cap : Nat) (xs : List α) : Prop where
  ascending : xs.Pairwise (· < ·)
  sound : ∀ x ∈ xs, p x
  within : xs.length ≤ cap
  /-- What is left out lies after a full list. -/
  after : ∀ x, p x → x ∉ xs → cap ≤ xs.length ∧ ∀ y ∈ xs, y < x

/-- Something that satisfies `p` is not listed. -/
def LeftOut (p : α → Prop) (xs : List α) : Prop :=
  ∃ x, p x ∧ x ∉ xs

namespace Lowest

theorem nil (nothing : ∀ x, ¬ p x) : Lowest p cap [] :=
  ⟨List.Pairwise.nil, by simp, by simp, fun x holds => absurd holds (nothing x)⟩

theorem congr (same : ∀ x, p x ↔ q x) (lowest : Lowest p cap xs) :
    Lowest q cap xs := by
  have equal : p = q := funext fun x => propext (same x)
  rwa [← equal]

/-- One more, after all the others, while there is room. -/
theorem push (lowest : Lowest p cap xs) (room : xs.length < cap)
    (later : ∀ y, p y → y < x) :
    Lowest (fun y => p y ∨ y = x) cap (xs ++ [x]) := by
  refine ⟨?_, ?_, ?_, ?_⟩
  · apply List.pairwise_append.mpr
    refine ⟨lowest.ascending, List.pairwise_singleton _ _, ?_⟩
    intro a listed b last
    rw [List.mem_singleton.mp last]
    exact later a (lowest.sound a listed)
  · intro y listed
    rcases List.mem_append.mp listed with earlier | last
    · exact Or.inl (lowest.sound y earlier)
    · exact Or.inr (List.mem_singleton.mp last)
  · rw [List.length_append, List.length_singleton]
    exact room
  · intro y holds out
    have unlisted : y ∉ xs ∧ y ≠ x := by simpa using out
    rcases holds with holds | last
    · have full := (lowest.after y holds unlisted.1).1
      omega
    · exact absurd last unlisted.2

theorem widen (lowest : Lowest p cap xs) (full : cap ≤ xs.length)
    (wider : ∀ y, p y → q y) (later : ∀ y, q y → ¬ p y → ∀ z ∈ xs, z < y) :
    Lowest q cap xs := by
  refine ⟨lowest.ascending, ?_, lowest.within, ?_⟩
  · intro y listed
    exact wider y (lowest.sound y listed)
  · intro y holds out
    by_cases old : p y
    · exact lowest.after y old out
    · exact ⟨full, later y holds old⟩

private theorem eq_take_append_drop (xs : List α) (x : α) :
    xs = xs.takeWhile (· < x) ++ xs.drop (xs.takeWhile (· < x)).length := by
  induction xs with
  | nil => rfl
  | cons y xs induction =>
      by_cases below : y < x
      · simp only [List.takeWhile_cons, below, decide_true, if_true,
          List.cons_append, List.length_cons, List.drop_succ_cons]
        rw [← induction]
      · simp [below]

private theorem le_of_drop (ascending : xs.Pairwise (· < ·)) {y : α}
    (later : y ∈ xs.drop (xs.takeWhile (· < x)).length) : x ≤ y := by
  induction xs with
  | nil => simp at later
  | cons z xs induction =>
      obtain ⟨first, rest⟩ := List.pairwise_cons.mp ascending
      by_cases below : z < x
      · apply induction rest
        simpa [List.takeWhile_cons, below] using later
      · have bound : x ≤ z := not_lt.mp below
        have here : y = z ∨ y ∈ xs := by
          simpa [List.takeWhile_cons, below] using later
        rcases here with here | later
        · rwa [here]
        · exact bound.trans (first y later).le

/-- The list with `x` in its place. -/
def place (xs : List α) (x : α) : List α :=
  let first := xs.takeWhile (· < x)
  first ++ x :: xs.drop first.length

theorem mem_place (xs : List α) (x : α) {y : α} : y ∈ place xs x ↔ y ∈ xs ∨ y = x := by
  conv_rhs => rw [eq_take_append_drop xs x]
  simp only [place, List.mem_append, List.mem_cons]
  tauto

theorem length_place (xs : List α) (x : α) : (place xs x).length = xs.length + 1 := by
  conv_rhs => rw [eq_take_append_drop xs x]
  simp only [place, List.length_append, List.length_cons]
  omega

theorem ascending_place (ascending : xs.Pairwise (· < ·)) (new : x ∉ xs) :
    (place xs x).Pairwise (· < ·) := by
  have split := eq_take_append_drop xs x
  have parts := ascending
  rw [split] at parts
  obtain ⟨first, rest, across⟩ := List.pairwise_append.mp parts
  have after : ∀ y ∈ xs.drop (xs.takeWhile (· < x)).length, x < y := by
    intro y later
    have listed : y ∈ xs := List.mem_of_mem_drop later
    apply lt_of_le_of_ne (le_of_drop ascending later)
    intro same
    exact new (same ▸ listed)
  have before : ∀ y ∈ xs.takeWhile (· < x), y < x := by
    intro y earlier
    simpa using List.mem_takeWhile_imp earlier
  apply List.pairwise_append.mpr
  refine ⟨first, List.pairwise_cons.mpr ⟨after, rest⟩, ?_⟩
  intro a earlier b later
  rcases List.mem_cons.mp later with here | later
  · rw [here]
    exact before a earlier
  · exact (before a earlier).trans (after b later)

theorem place_room (lowest : Lowest p cap xs) (new : ¬ p x)
    (room : xs.length < cap) :
    Lowest (fun y => p y ∨ y = x) cap (place xs x) := by
  refine ⟨?_, ?_, ?_, ?_⟩
  · exact ascending_place lowest.ascending fun listed =>
      new (lowest.sound x listed)
  · intro y listed
    exact ((mem_place xs x).mp listed).imp_left (lowest.sound y)
  · rw [length_place]
    exact room
  · intro y holds out
    rw [mem_place, not_or] at out
    rcases holds with holds | here
    · have full := (lowest.after y holds out.1).1
      omega
    · exact absurd here out.2

theorem place_full (lowest : Lowest p cap xs) (new : ¬ p x)
    (full : ¬ xs.length < cap) :
    Lowest (fun y => p y ∨ y = x) cap (place xs x).dropLast := by
  have ascending := ascending_place lowest.ascending fun listed =>
    new (lowest.sound x listed)
  have count : (place xs x).length = cap + 1 := by
    rw [length_place]
    have within := lowest.within
    omega
  obtain last | ⟨init, last, parts⟩ := List.eq_nil_or_concat' (place xs x)
  · simp [last] at count
  rw [parts, List.dropLast_concat]
  rw [parts] at ascending count
  have before := (List.pairwise_append.mp ascending).2.2
  have size : init.length = cap := by simpa using count
  have members : ∀ y, y ∈ init ∨ y = last ↔ y ∈ xs ∨ y = x := by
    intro y
    rw [← mem_place xs x, parts]
    simp
  refine ⟨(List.pairwise_append.mp ascending).1, ?_, size.le, ?_⟩
  · intro y listed
    exact ((members y).mp (Or.inl listed)).imp_left (lowest.sound y)
  · intro y holds out
    refine ⟨size.ge, ?_⟩
    intro z listed
    have below : z < last := before z listed last (List.mem_singleton_self last)
    by_cases kept : y ∈ xs ∨ y = x
    · rcases (members y).mpr kept with inside | inside
      · exact absurd inside out
      · rwa [inside]
    · rw [not_or] at kept
      have older : p y := holds.resolve_right kept.2
      have all := (lowest.after y older kept.1).2
      rcases (members last).mp (Or.inr rfl) with lastOld | lastNew
      · exact below.trans (all last lastOld)
      · rcases (members z).mp (Or.inl listed) with old | here
        · exact all z old
        · exact absurd (here.trans lastNew.symm) below.ne

end Lowest

namespace LeftOut

theorem of_full (capped : LeftOut p xs) (lowest : Lowest p cap xs) :
    cap ≤ xs.length := by
  obtain ⟨x, holds, out⟩ := capped
  exact (lowest.after x holds out).1

theorem place_room (lowest : Lowest p cap xs) (room : xs.length < cap) :
    LeftOut (fun y => p y ∨ y = x) (Lowest.place xs x) ↔ LeftOut p xs := by
  constructor
  · intro ⟨y, holds, out⟩
    rw [Lowest.mem_place, not_or] at out
    exact ⟨y, holds.resolve_right out.2, out.1⟩
  · intro capped
    have full := capped.of_full lowest
    omega

theorem place_full (lowest : Lowest p cap xs) (new : ¬ p x) :
    LeftOut (fun y => p y ∨ y = x) (Lowest.place xs x).dropLast := by
  obtain last | ⟨init, last, parts⟩ :=
    List.eq_nil_or_concat' (Lowest.place xs x)
  · have count := Lowest.length_place xs x
    simp [last] at count
  have ascending := Lowest.ascending_place lowest.ascending fun listed =>
    new (lowest.sound x listed)
  rw [parts] at ascending ⊢
  refine ⟨last, ?_, ?_⟩
  · have listed : last ∈ xs ∨ last = x := by
      rw [← Lowest.mem_place, parts]
      simp
    exact listed.imp_left (lowest.sound last)
  · rw [List.dropLast_concat]
    intro twice
    have below := (List.pairwise_append.mp ascending).2.2 last twice last
      (List.mem_singleton_self last)
    exact lt_irrefl last below

omit [LinearOrder α] in
theorem congr (same : ∀ x, p x ↔ q x) : LeftOut p xs ↔ LeftOut q xs := by
  have equal : p = q := funext fun x => propext (same x)
  rw [equal]

end LeftOut

/-! ## Looked for in ascending order -/

/-- `p` below `bound`. -/
def Below (bound : Nat) (p : Nat → Prop) (n : Nat) : Prop :=
  n < bound ∧ p n

section Below

variable {p : Nat → Prop} {xs : List Nat} {bound : Nat}

theorem below_zero (n : Nat) : ¬ Below 0 p n :=
  fun below => absurd below.1 (Nat.not_lt_zero n)

theorem below_succ (n : Nat) :
    Below (bound + 1) p n ↔ Below bound p n ∨ n = bound ∧ p bound := by
  unfold Below
  constructor
  · intro ⟨inside, holds⟩
    rcases Nat.lt_succ_iff_lt_or_eq.mp inside with below | rfl
    · exact Or.inl ⟨below, holds⟩
    · exact Or.inr ⟨rfl, holds⟩
  · intro found
    rcases found with ⟨below, holds⟩ | ⟨rfl, holds⟩
    · exact ⟨by omega, holds⟩
    · exact ⟨by omega, holds⟩

theorem below_succ_of_not (absent : ¬ p bound) (n : Nat) :
    Below bound p n ↔ Below (bound + 1) p n := by
  rw [below_succ]
  tauto

theorem below_succ_of (here : p bound) (n : Nat) :
    Below bound p n ∨ n = bound ↔ Below (bound + 1) p n := by
  rw [below_succ]
  tauto

theorem Lowest.skip (lowest : Lowest (Below bound p) cap xs)
    (absent : ¬ p bound) : Lowest (Below (bound + 1) p) cap xs :=
  lowest.congr (below_succ_of_not absent)

theorem LeftOut.skip (absent : ¬ p bound) :
    LeftOut (Below (bound + 1) p) xs ↔ LeftOut (Below bound p) xs :=
  (LeftOut.congr (below_succ_of_not absent)).symm

theorem Lowest.list (lowest : Lowest (Below bound p) cap xs) (here : p bound)
    (room : xs.length < cap) :
    Lowest (Below (bound + 1) p) cap (xs ++ [bound]) :=
  (lowest.push room fun _ below => below.1).congr (below_succ_of here)

theorem LeftOut.list (lowest : Lowest (Below bound p) cap xs)
    (room : xs.length < cap) :
    LeftOut (Below (bound + 1) p) (xs ++ [bound]) ↔
      LeftOut (Below bound p) xs := by
  constructor
  · intro ⟨n, ⟨inside, holds⟩, out⟩
    have apart : n ∉ xs ∧ n ≠ bound := by simpa using out
    exact ⟨n, ⟨by omega, holds⟩, apart.1⟩
  · intro capped
    have full := capped.of_full lowest
    omega

/-- Nothing from `bound` on enters a full list. -/
theorem Lowest.beyond {q : Nat → Prop} (lowest : Lowest (Below bound p) cap xs)
    (full : cap ≤ xs.length) (wider : ∀ n, Below bound p n → q n)
    (narrower : ∀ n, q n → p n) : Lowest q cap xs := by
  apply lowest.widen full wider
  intro n holds new m listed
  have below := (lowest.sound m listed).1
  have after : ¬ n < bound := fun inside => new ⟨inside, narrower n holds⟩
  omega

theorem Lowest.leave (lowest : Lowest (Below bound p) cap xs)
    (full : ¬ xs.length < cap) : Lowest (Below (bound + 1) p) cap xs := by
  apply lowest.beyond (not_lt.mp full)
  · intro n below
    exact ⟨Nat.lt_succ_of_lt below.1, below.2⟩
  · intro n below
    exact below.2

theorem LeftOut.leave (lowest : Lowest (Below bound p) cap xs) (here : p bound) :
    LeftOut (Below (bound + 1) p) xs := by
  refine ⟨bound, ⟨Nat.lt_succ_self bound, here⟩, ?_⟩
  intro listed
  exact absurd (lowest.sound bound listed).1 (Nat.lt_irrefl bound)

theorem LeftOut.of_below (capped : LeftOut (Below bound p) xs) :
    LeftOut p xs := by
  obtain ⟨n, below, out⟩ := capped
  exact ⟨n, below.2, out⟩

end Below

end Exav.Lib
