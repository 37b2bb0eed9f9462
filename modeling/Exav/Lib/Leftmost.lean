import Mathlib.Data.List.Basic
import Mathlib.Data.List.TakeDrop

/-!
# Automata that report late

A search automaton reports a match one item after its end, when it has seen
what follows: a state entered on an item says whether a match ended before the
item.  A run ends with one more step, on the item after the run or on the end
of the input.  A dead state reports nothing more; an automaton that cannot
follow an item quits.
-/

namespace Exav.Delayed

/-- The automaton could not follow what it read. -/
structure GaveUp : Type where
  deriving DecidableEq, Repr

/-- A search automaton as its states are looked at from outside.  It starts by
the item on the other side of where it starts; a step that fails is none. -/
structure Automaton (α σ : Type) where
  start : Option α → Option σ
  next : σ → α → Option σ
  eoi : σ → Option σ
  isTagged : σ → Bool
  isMatch : σ → Bool
  isDead : σ → Bool
  isQuit : σ → Bool

variable {α σ ι : Type}

namespace Automaton

/-- States are tagged as special, of one kind at most; a dead state stays dead,
and the end of the input does not quit. -/
structure Lawful (A : Automaton α σ) : Prop where
  tagged : ∀ s, A.isMatch s ∨ A.isDead s ∨ A.isQuit s → A.isTagged s
  dead_match : ∀ s, A.isDead s → A.isMatch s = false
  quit_match : ∀ s, A.isQuit s → A.isMatch s = false
  quit_dead : ∀ s, A.isQuit s → A.isDead s = false
  dead_next : ∀ s b, A.isDead s → ∃ t, A.next s b = some t ∧ A.isDead t
  dead_eoi : ∀ s, A.isDead s → ∃ t, A.eoi s = some t ∧ A.isDead t
  eoi_quit : ∀ s t, A.eoi s = some t → A.isQuit t = false

/-- A step that is followed: on an item, or on the end of the input. -/
def step (A : Automaton α σ) (s : σ) : Option α → Option σ
  | some b => (A.next s b).filter fun t => !A.isQuit t
  | none => A.eoi s

/-- A match is reported after `i` items of a run, `last` coming after them
all. -/
def reports (A : Automaton α σ) (last : Option α) :
    σ → List α → Nat → Bool
  | s, [], 0 => (A.step s last).any A.isMatch
  | _, [], _ + 1 => false
  | s, b :: _, 0 => (A.step s (some b)).any A.isMatch
  | s, b :: rest, i + 1 =>
      (A.step s (some b)).any fun t => A.reports last t rest i

/-- The run cannot be followed to its end. -/
def quits (A : Automaton α σ) (last : Option α) : σ → List α → Bool
  | s, [] => (A.step s last).isNone
  | s, b :: rest =>
      match A.step s (some b) with
      | none => true
      | some t => A.quits last t rest

/-! ## Walking a run -/

/-- What a state entered on an item says. -/
inductive Told (σ : Type) where
  | on (s : σ)
  | found (s : σ)
  | dead
  | quit

def read (A : Automaton α σ) (s : σ) (b : α) : Told σ :=
  match A.next s b with
  | none => .quit
  | some t =>
      if A.isTagged t then
        if A.isMatch t then .found t
        else if A.isDead t then .dead
        else if A.isQuit t then .quit
        else .on t
      else .on t

/-- Where a walk over part of a run is. -/
inductive Walk (σ ι : Type) where
  | ended (result : Except GaveUp (Option ι))
  | more (s : σ) (found : Option ι)

/-- Walk over items, each with the place a match is at that is reported on it.
The last one counts, or the first when `earliest`. -/
def walk (A : Automaton α σ) (earliest : Bool) :
    σ → Option ι → List (α × ι) → Walk σ ι
  | s, found, [] => .more s found
  | s, found, (b, place) :: rest =>
      match A.read s b with
      | .found t =>
          if earliest then .ended (.ok (some place))
          else A.walk earliest t (some place) rest
      | .dead => .ended (.ok found)
      | .quit => .ended (.error ⟨⟩)
      | .on t => A.walk earliest t found rest

def finish (A : Automaton α σ) (last : Option α) (place : ι) :
    Walk σ ι → Except GaveUp (Option ι)
  | .ended result => result
  | .more s found =>
      match A.step s last with
      | none => .error ⟨⟩
      | some t => .ok (if A.isMatch t then some place else found)

theorem walk_append (A : Automaton α σ) (earliest : Bool) (s : σ)
    (found : Option ι) (front back : List (α × ι)) :
    A.walk earliest s found (front ++ back) =
      match A.walk earliest s found front with
      | .ended result => .ended result
      | .more t found => A.walk earliest t found back := by
  induction front generalizing s found with
  | nil => rfl
  | cons item front ih =>
      rw [List.cons_append, walk, walk]
      cases A.read s item.1 with
      | on t => exact ih t found
      | found t =>
          dsimp only
          split
          · rfl
          · exact ih t _
      | dead => rfl
      | quit => rfl

section

variable {A : Automaton α σ} {last : Option α}

theorem Lawful.dead_step (lawful : A.Lawful) {s : σ} (dead : A.isDead s)
    (b : Option α) : ∃ t, A.step s b = some t ∧ A.isDead t := by
  cases b with
  | none => exact lawful.dead_eoi s dead
  | some b =>
      obtain ⟨t, next, still⟩ := lawful.dead_next s b dead
      have calm : A.isQuit t = false := by
        by_contra quit
        have apart := lawful.quit_dead t (by simpa using quit)
        rw [still] at apart
        cases apart
      exact ⟨t, by simp [step, next, calm], still⟩

theorem Lawful.dead_silent (lawful : A.Lawful) {s : σ} (dead : A.isDead s)
    (rest : List α) :
    (∀ i, A.reports last s rest i = false) ∧ A.quits last s rest = false := by
  induction rest generalizing s with
  | nil =>
      obtain ⟨t, next, still⟩ := lawful.dead_step dead last
      refine ⟨fun i => ?_, ?_⟩
      · cases i with
        | zero => simp [reports, next, lawful.dead_match t still]
        | succ i => rfl
      · simp [quits, next]
  | cons b rest ih =>
      obtain ⟨t, next, still⟩ := lawful.dead_step dead (some b)
      obtain ⟨silent, calm⟩ := ih still
      refine ⟨fun i => ?_, ?_⟩
      · cases i with
        | zero => simp [reports, next, lawful.dead_match t still]
        | succ i => simp [reports, next, silent i]
      · simp [quits, next, calm]

theorem Lawful.read_spec (lawful : A.Lawful) (s : σ) (b : α) :
    match A.read s b with
    | .on t => A.step s (some b) = some t ∧ A.isMatch t = false
    | .found t => A.step s (some b) = some t ∧ A.isMatch t = true
    | .dead => ∃ t, A.step s (some b) = some t ∧ A.isDead t = true
    | .quit => A.step s (some b) = none := by
  rw [read, step]
  cases A.next s b with
  | none => rfl
  | some t =>
      have tagged := lawful.tagged t
      have quit_match := lawful.quit_match t
      have quit_dead := lawful.quit_dead t
      cases is_tagged : A.isTagged t <;> cases is_match : A.isMatch t <;>
        cases is_dead : A.isDead t <;> cases is_quit : A.isQuit t <;>
        simp_all

@[simp] theorem reports_zero {s t : σ} {b : α} {rest : List α}
    (next : A.step s (some b) = some t) :
    A.reports last s (b :: rest) 0 = A.isMatch t := by
  simp [reports, next]

@[simp] theorem reports_succ {s t : σ} {b : α} {rest : List α}
    (next : A.step s (some b) = some t) (i : Nat) :
    A.reports last s (b :: rest) (i + 1) = A.reports last t rest i := by
  simp [reports, next]

/-- A walk that comes to an end has the place of a report, the last one unless
it stops at the first; without any it has what it had before. -/
theorem Lawful.finish_ok (lawful : A.Lawful) {earliest : Bool} {s : σ}
    {found result : Option ι} {items : List (α × ι)} {place : ι}
    (ended : A.finish last place (A.walk earliest s found items) = .ok result) :
    (∃ i, A.reports last s (items.map (·.1)) i = true ∧
      result = (items.map (·.2) ++ [place])[i]? ∧
      (earliest = false →
        ∀ j, A.reports last s (items.map (·.1)) j = true → j ≤ i)) ∨
    result = found ∧ ∀ j, A.reports last s (items.map (·.1)) j = false := by
  induction items generalizing s found with
  | nil =>
      rw [walk, finish] at ended
      cases next : A.step s last with
      | none =>
          rw [next] at ended
          cases ended
      | some t =>
          rw [next] at ended
          cases is_match : A.isMatch t with
          | true =>
              refine .inl ⟨0, ?_, ?_, fun _ j reported => ?_⟩
              · simp [reports, next, is_match]
              · simpa [is_match] using ended.symm
              · cases j with
                | zero => exact Nat.le_refl _
                | succ j => cases reported
          | false =>
              refine .inr ⟨?_, fun j => ?_⟩
              · simpa [is_match] using ended.symm
              · cases j with
                | zero => simp [reports, next, is_match]
                | succ j => rfl
  | cons item items ih =>
      rw [walk] at ended
      have told := lawful.read_spec s item.1
      cases read : A.read s item.1 with
      | quit =>
          rw [read] at ended
          cases ended
      | dead =>
          rw [read] at ended told
          obtain ⟨t, next, dead⟩ := told
          have silent := (@dead_silent _ _ A last lawful t dead
            (items.map (·.1))).1
          refine .inr ⟨?_, fun j => ?_⟩
          · simpa [finish] using ended.symm
          · rw [List.map_cons]
            cases j with
            | zero => rw [reports_zero next, lawful.dead_match t dead]
            | succ j => rw [reports_succ next, silent j]
      | on t =>
          rw [read] at ended told
          obtain ⟨next, plain⟩ := told
          rcases ih ended with ⟨i, reported, is, final⟩ | ⟨is, silent⟩
          · refine .inl ⟨i + 1, ?_, ?_, fun late j reported => ?_⟩
            · rwa [List.map_cons, reports_succ next]
            · simpa using is
            · cases j with
              | zero =>
                  rw [List.map_cons, reports_zero next, plain] at reported
                  cases reported
              | succ j =>
                  rw [List.map_cons, reports_succ next] at reported
                  exact Nat.succ_le_succ (final late j reported)
          · refine .inr ⟨is, fun j => ?_⟩
            rw [List.map_cons]
            cases j with
            | zero => rw [reports_zero next, plain]
            | succ j => rw [reports_succ next, silent j]
      | found t =>
          rw [read] at ended told
          obtain ⟨next, matching⟩ := told
          have here : A.reports last s ((item :: items).map (·.1)) 0 = true := by
            rw [List.map_cons, reports_zero next, matching]
          cases earliest with
          | true =>
              refine .inl ⟨0, here, ?_, fun late => by cases late⟩
              simpa [finish] using ended.symm
          | false =>
              rcases ih ended with ⟨i, reported, is, final⟩ | ⟨is, silent⟩
              · refine .inl ⟨i + 1, ?_, ?_, fun late j reported => ?_⟩
                · rwa [List.map_cons, reports_succ next]
                · simpa using is
                · cases j with
                  | zero => exact Nat.zero_le _
                  | succ j =>
                      rw [List.map_cons, reports_succ next] at reported
                      exact Nat.succ_le_succ (final late j reported)
              · refine .inl ⟨0, here, ?_, fun late j reported => ?_⟩
                · simpa using is
                · cases j with
                  | zero => exact Nat.le_refl _
                  | succ j =>
                      rw [List.map_cons, reports_succ next, silent j] at reported
                      cases reported

/-- A walk gives up only where the run cannot be followed. -/
theorem Lawful.finish_error (lawful : A.Lawful) {earliest : Bool} {s : σ}
    {found : Option ι} {items : List (α × ι)} {place : ι} {gaveUp : GaveUp}
    (ended : A.finish last place (A.walk earliest s found items) =
      .error gaveUp) :
    A.quits last s (items.map (·.1)) = true := by
  induction items generalizing s found with
  | nil =>
      rw [walk, finish] at ended
      cases next : A.step s last with
      | none => simp [quits, next]
      | some t =>
          rw [next] at ended
          cases ended
  | cons item items ih =>
      rw [walk] at ended
      have told := lawful.read_spec s item.1
      rw [List.map_cons, quits]
      cases read : A.read s item.1 with
      | quit =>
          rw [read] at told
          rw [told]
      | dead =>
          rw [read] at ended
          cases ended
      | on t =>
          rw [read] at ended told
          rw [told.1]
          exact ih ended
      | found t =>
          rw [read] at ended told
          rw [told.1]
          cases earliest with
          | true => cases ended
          | false => exact ih ended

theorem Lawful.finish_calm (lawful : A.Lawful) {earliest : Bool} {s : σ}
    {found result : Option ι} {items : List (α × ι)} {place : ι}
    (ended : A.finish last place (A.walk earliest s found items) = .ok result)
    (whole : earliest = false ∨
      ∀ j, A.reports last s (items.map (·.1)) j = false) :
    A.quits last s (items.map (·.1)) = false := by
  induction items generalizing s found with
  | nil =>
      rw [walk, finish] at ended
      cases next : A.step s last with
      | none =>
          rw [next] at ended
          cases ended
      | some t => simp [quits, next]
  | cons item items ih =>
      rw [walk] at ended
      have told := lawful.read_spec s item.1
      rw [List.map_cons] at whole ⊢
      rw [quits]
      cases read : A.read s item.1 with
      | quit =>
          rw [read] at ended
          cases ended
      | dead =>
          rw [read] at told
          obtain ⟨t, next, dead⟩ := told
          rw [next]
          exact (lawful.dead_silent dead _).2
      | on t =>
          rw [read] at ended told
          rw [told.1]
          refine ih ended (whole.imp_right fun silent j => ?_)
          rw [← reports_succ told.1]
          exact silent (j + 1)
      | found t =>
          rw [read] at ended told
          rw [told.1]
          rcases whole with late | silent
          · subst late
            exact ih ended (.inl rfl)
          · have here := silent 0
            rw [reports_zero told.1, told.2] at here
            cases here

end

end Automaton

/-!
## Leftmost matches by two automata

Where a text matches may depend on its two neighbours, and among the matches
that start at one place one is preferred.  An automaton run forwards reports
where the preferred match of the leftmost start ends; one run backwards from
there reports where the matches that end there start, of which the search takes
the furthest.
-/

variable {α σ τ : Type}

def before (data : List α) (place : Nat) : Option α :=
  if 0 < place then data[place - 1]? else none

/-- The items from one place to another. -/
def between (data : List α) (start stop : Nat) : List α :=
  (data.drop start).take (stop - start)

/-- The texts that match between two neighbours, none at an end of the input,
and how much of the rest of the input the preferred match takes. -/
structure Language (α : Type) where
  has : Option α → List α → Option α → Prop
  prefer : Option α → List α → Option Nat
  prefer_has : ∀ left rest n, prefer left rest = some n →
    n ≤ rest.length ∧ has left (rest.take n) rest[n]?
  has_prefer : ∀ left rest n, n ≤ rest.length →
    has left (rest.take n) rest[n]? → (prefer left rest).isSome

namespace Language

def Matches (lang : Language α) (data : List α) (start stop : Nat) : Prop :=
  start ≤ stop ∧ stop ≤ data.length ∧
    lang.has (before data start) (between data start stop) data[stop]?

def matchAt (lang : Language α) (data : List α) (start : Nat) :
    Option (Nat × Nat) :=
  (lang.prefer (before data start) (data.drop start)).map fun n =>
    (start, start + n)

/-- The first place from `start` on where a match starts, and where the
preferred one ends. -/
def leftmostFirst (lang : Language α) (data : List α) (start : Nat) :
    Option (Nat × Nat) :=
  (List.range' start (data.length + 1 - start)).findSome? (lang.matchAt data)

variable {lang : Language α} {data : List α} {start : Nat}

theorem matchAt_eq_some {m : Nat × Nat} (inside : start ≤ data.length)
    (found : lang.matchAt data start = some m) :
    m.1 = start ∧ lang.Matches data m.1 m.2 := by
  obtain ⟨n, preferred, rfl⟩ := Option.map_eq_some_iff.mp found
  obtain ⟨fits, has⟩ := lang.prefer_has _ _ n preferred
  rw [List.length_drop] at fits
  rw [List.getElem?_drop] at has
  refine ⟨rfl, Nat.le_add_right _ _, by dsimp only; omega, ?_⟩
  rwa [between, Nat.add_sub_cancel_left]

theorem matchAt_eq_none {stop : Nat} (found : lang.matchAt data start = none) :
    ¬lang.Matches data start stop := by
  intro is
  obtain ⟨ordered, fits, has⟩ := is
  have some_match := lang.has_prefer (before data start) (data.drop start)
    (stop - start) (by rw [List.length_drop]; omega) (by
      rwa [List.getElem?_drop, Nat.add_sub_cancel' ordered])
  rw [Option.map_eq_none_iff.mp found] at some_match
  cases some_match

theorem leftmostFirst_step (inside : start ≤ data.length) :
    lang.leftmostFirst data start =
      (lang.matchAt data start).or (lang.leftmostFirst data (start + 1)) := by
  have more : data.length + 1 - start = data.length + 1 - (start + 1) + 1 := by
    omega
  rw [leftmostFirst, more, List.range'_succ, List.findSome?_cons]
  cases lang.matchAt data start <;> rfl

theorem leftmostFirst_past (past : data.length < start) :
    lang.leftmostFirst data start = none := by
  have nothing : data.length + 1 - start = 0 := by omega
  rw [leftmostFirst, nothing]
  rfl

theorem leftmostFirst_eq_some {m : Nat × Nat}
    (found : lang.leftmostFirst data start = some m) :
    start ≤ m.1 ∧ lang.Matches data m.1 m.2 ∧
      ∀ p stop, start ≤ p → lang.Matches data p stop → m.1 ≤ p := by
  induction left : data.length + 1 - start generalizing start with
  | zero =>
      rw [leftmostFirst_past (by omega)] at found
      cases found
  | succ left_over ih =>
      rw [leftmostFirst_step (by omega)] at found
      cases here : lang.matchAt data start with
      | some first =>
          rw [here] at found
          cases found
          obtain ⟨same, matching⟩ := matchAt_eq_some (by omega) here
          refine ⟨by omega, matching, ?_⟩
          intro p stop above _
          omega
      | none =>
          rw [here, Option.none_or] at found
          obtain ⟨above, matching, leftmost⟩ := ih found (by omega)
          refine ⟨by omega, matching, ?_⟩
          intro p stop from_start is
          by_cases same : p = start
          · subst same
            exact absurd is (matchAt_eq_none here)
          · exact leftmost p stop (by omega) is

theorem leftmostFirst_eq_none (found : lang.leftmostFirst data start = none)
    {p stop : Nat} (above : start ≤ p) : ¬lang.Matches data p stop := by
  induction left : data.length + 1 - start generalizing start with
  | zero =>
      intro is
      obtain ⟨ordered, fits, _⟩ := is
      omega
  | succ left_over ih =>
      rw [leftmostFirst_step (by omega), Option.or_eq_none_iff] at found
      by_cases same : p = start
      · subst same
        exact matchAt_eq_none found.1
      · exact ih found.2 (by omega) (by omega)

end Language

/-! ## Two automata for one language -/

/-- Run from any place, the automaton reports the end of the leftmost match
there, unless it quits, and nothing after that. -/
structure Leads (F : Automaton α σ) (lang : Language α) : Prop where
  reported : ∀ data start s i, start ≤ data.length →
    F.start (before data start) = some s →
    F.reports none s (data.drop start) i = true →
    ∃ m, lang.leftmostFirst data start = some m ∧ start + i ≤ m.2
  reports : ∀ data start s m, start ≤ data.length →
    F.start (before data start) = some s →
    F.quits none s (data.drop start) = false →
    lang.leftmostFirst data start = some m →
    F.reports none s (data.drop start) (m.2 - start) = true

/-- Run backwards from any place, the automaton reports where the matches that
end there start, unless it quits. -/
structure Traces (R : Automaton α τ) (lang : Language α) : Prop where
  reports_iff : ∀ data start stop s, start ≤ stop → stop ≤ data.length →
    R.start data[stop]? = some s →
    R.quits (before data start) s (between data start stop).reverse = false →
    ∀ p, start ≤ p → p ≤ stop →
      (R.reports (before data start) s (between data start stop).reverse
        (stop - p) = true ↔ lang.Matches data p stop)

/-- The forward automaton cannot be followed from a place on. -/
def quitsFrom (F : Automaton α σ) (data : List α) (start : Nat) : Prop :=
  ∀ s, F.start (before data start) = some s →
    F.quits none s (data.drop start) = true

def quitsBack (R : Automaton α τ) (data : List α) (start stop : Nat) : Prop :=
  ∀ s, R.start data[stop]? = some s →
    R.quits (before data start) s (between data start stop).reverse = true

/-- Where a match ends that starts at `start` or later: of the leftmost one, or
of any when `earliest`. -/
def forward (F : Automaton α σ) (data : List α) (start : Nat)
    (earliest : Bool) : Except GaveUp (Option Nat) :=
  match F.start (before data start) with
  | none => .error ⟨⟩
  | some s =>
      F.finish none data.length
        (F.walk earliest s none ((data.drop start).zipIdx start))

/-- Where the longest match starts that ends at `stop` and starts no earlier
than `start`. -/
def reverse (R : Automaton α τ) (data : List α) (start stop : Nat) :
    Except GaveUp (Option Nat) :=
  match R.start data[stop]? with
  | none => .error ⟨⟩
  | some s =>
      R.finish (before data start) start
        (R.walk false s none
          ((between data start stop).zipIdx (start + 1)).reverse)

section

variable {A : Automaton α σ} {last : Option α} {F : Automaton α σ}
  {R : Automaton α τ} {lang : Language α} {data : List α} {start : Nat}

theorem reports_le {s : σ} {items : List α} {i : Nat}
    (reported : A.reports last s items i = true) : i ≤ items.length := by
  induction items generalizing s i with
  | nil =>
      cases i with
      | zero => exact Nat.le_refl _
      | succ i => cases reported
  | cons b items ih =>
      cases i with
      | zero => exact Nat.zero_le _
      | succ i =>
          rw [Automaton.reports] at reported
          cases next : A.step s (some b) with
          | none =>
              rw [next] at reported
              cases reported
          | some t =>
              rw [next] at reported
              exact Nat.succ_le_succ (ih reported)

theorem forward_place {rest : List α} {i : Nat} (inside : i ≤ rest.length) :
    ((rest.zipIdx start).map (·.2) ++ [start + rest.length])[i]? =
      some (start + i) := by
  have places : (rest.zipIdx start).map (·.2) ++ [start + rest.length] =
      List.range' start (rest.length + 1) := by
    rw [List.zipIdx_map_snd, List.range'_concat, Nat.one_mul]
  rw [places, List.getElem?_range' (by omega), Nat.one_mul]

theorem reverse_place {text : List α} {i : Nat} (inside : i ≤ text.length) :
    ((text.zipIdx (start + 1)).reverse.map (·.2) ++ [start])[i]? =
      some (start + text.length - i) := by
  have places : (text.zipIdx (start + 1)).reverse.map (·.2) ++ [start] =
      (List.range' start (text.length + 1)).reverse := by
    rw [List.map_reverse, List.zipIdx_map_snd, List.range'_succ,
      List.reverse_cons]
  rw [places, List.getElem?_reverse (by rw [List.length_range']; omega),
    List.length_range', List.getElem?_range' (by omega)]
  congr 1
  omega

theorem forward_ok (lawful : F.Lawful) (leads : Leads F lang)
    (inside : start ≤ data.length) {result : Option Nat}
    (ended : forward F data start false = .ok result) :
    result = (lang.leftmostFirst data start).map (·.2) := by
  rw [forward] at ended
  cases begun : F.start (before data start) with
  | none =>
      rw [begun] at ended
      cases ended
  | some s =>
      rw [begun] at ended
      have calm := lawful.finish_calm ended (.inl rfl)
      have found := lawful.finish_ok ended
      rw [List.zipIdx_map_fst] at calm found
      rcases found with ⟨i, reported, is, final⟩ | ⟨is, silent⟩
      · obtain ⟨m, leftmost, late⟩ := leads.reported data start s i inside begun
          reported
        have whole := leads.reports data start s m inside begun calm leftmost
        have last := final rfl _ whole
        have size : start + (data.drop start).length = data.length := by
          rw [List.length_drop, Nat.add_sub_cancel' inside]
        rw [← size, forward_place (reports_le reported)] at is
        rw [is, leftmost, Option.map_some]
        congr 1
        omega
      · cases leftmost : lang.leftmostFirst data start with
        | none => exact is
        | some m =>
            have whole := leads.reports data start s m inside begun calm leftmost
            rw [silent] at whole
            cases whole

theorem forward_earliest (lawful : F.Lawful) (leads : Leads F lang)
    (inside : start ≤ data.length) {result : Option Nat}
    (ended : forward F data start true = .ok result) :
    result.isSome = (lang.leftmostFirst data start).isSome := by
  rw [forward] at ended
  cases begun : F.start (before data start) with
  | none =>
      rw [begun] at ended
      cases ended
  | some s =>
      rw [begun] at ended
      have found := lawful.finish_ok ended
      have calm := fun silent => lawful.finish_calm ended (.inr silent)
      rw [List.zipIdx_map_fst] at calm found
      rcases found with ⟨i, reported, is, _⟩ | ⟨is, silent⟩
      · obtain ⟨m, leftmost, _⟩ := leads.reported data start s i inside begun
          reported
        have size : start + (data.drop start).length = data.length := by
          rw [List.length_drop, Nat.add_sub_cancel' inside]
        rw [← size, forward_place (reports_le reported)] at is
        rw [is, leftmost]
        rfl
      · rw [is]
        cases leftmost : lang.leftmostFirst data start with
        | none => rfl
        | some m =>
            have whole := leads.reports data start s m inside begun (calm silent)
              leftmost
            rw [silent] at whole
            cases whole

theorem forward_error (lawful : F.Lawful) {earliest : Bool} {gaveUp : GaveUp}
    (ended : forward F data start earliest = .error gaveUp) :
    quitsFrom F data start := by
  intro s begun
  rw [forward, begun] at ended
  have quits := lawful.finish_error ended
  rwa [List.zipIdx_map_fst] at quits

theorem length_between {stop : Nat} (ordered : start ≤ stop)
    (inside : stop ≤ data.length) :
    (between data start stop).length = stop - start := by
  rw [between, List.length_take, List.length_drop]
  omega

theorem map_fst_reverse_zipIdx (text : List α) (place : Nat) :
    (text.zipIdx place).reverse.map (·.1) = text.reverse := by
  rw [List.map_reverse, List.zipIdx_map_fst]

theorem reverse_ok (lawful : R.Lawful) (traces : Traces R lang)
    {m : Nat × Nat} (leftmost : lang.leftmostFirst data start = some m)
    {result : Option Nat} (ended : reverse R data start m.2 = .ok result) :
    result = some m.1 := by
  obtain ⟨above, matching, first⟩ := lang.leftmostFirst_eq_some leftmost
  obtain ⟨ordered, inside, _⟩ := id matching
  rw [reverse] at ended
  cases begun : R.start data[m.2]? with
  | none =>
      rw [begun] at ended
      cases ended
  | some s =>
      rw [begun] at ended
      have calm := lawful.finish_calm ended (.inl rfl)
      have found := lawful.finish_ok ended
      rw [map_fst_reverse_zipIdx] at calm found
      have size := @length_between _ data start m.2 (by omega) inside
      have reports_iff := traces.reports_iff data start m.2 s (by omega) inside
        begun calm
      have there := (reports_iff m.1 above ordered).mpr matching
      rcases found with ⟨i, reported, is, final⟩ | ⟨is, silent⟩
      · have short := reports_le reported
        rw [List.length_reverse, size] at short
        have last := final rfl _ there
        have back : m.2 - (m.2 - i) = i := by omega
        have starts := (reports_iff (m.2 - i) (by omega) (by omega)).mp (by
          rwa [back])
        have leftmost_first := first _ _ (by omega) starts
        rw [reverse_place (by omega)] at is
        rw [is]
        congr 1
        omega
      · rw [silent] at there
        cases there

theorem reverse_error (lawful : R.Lawful) {stop : Nat} {gaveUp : GaveUp}
    (ended : reverse R data start stop = .error gaveUp) :
    quitsBack R data start stop := by
  intro s begun
  rw [reverse, begun] at ended
  have quits := lawful.finish_error ended
  rwa [map_fst_reverse_zipIdx] at quits

end

end Exav.Delayed
