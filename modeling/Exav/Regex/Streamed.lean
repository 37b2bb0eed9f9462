import Exav.Lib.Leftmost
import Exav.Source.Reads

/-!
# Regular expressions over a source

A match is found by a forward automaton, which reports where it ends, and an
anchored reverse one run back from there, which reports where it starts.  Both
are stepped through windows of the source, so a report may come in a later
window than the match.
-/

namespace Exav.Regex

open Source Delayed

/-- Bytes read from the source at a time. -/
def stepBytes : Nat := 64 * 1024

theorem stepBytes_pos : 0 < stepBytes := by decide

/-- Where the window before `high` starts. -/
def lowFrom (start high : Nat) : Nat :=
  max (high - stepBytes) start

theorem lowFrom_lt {start high : Nat} (more : start < high) :
    lowFrom start high < high := by
  have some_step := stepBytes_pos
  unfold lowFrom
  generalize stepBytes = step at some_step
  omega

structure StreamRegex (φ ρ : Type) where
  fwd : Automaton UInt8 φ
  rev : Automaton UInt8 ρ
  anchored : Bool

section

variable {σ φ ρ : Type} (src : ByteSource σ)

def byte (place : Nat) : StateM σ UInt8 := do
  let w ← src.read place 1
  pure (w.head?.getD 0)

def beside (there : Bool) (place : Nat) : StateM σ (Option UInt8) :=
  if there then some <$> byte src place else pure none

/-- Windows from `place` on, then the end of the input. -/
def forwardFrom (fwd : Automaton UInt8 φ) (earliest : Bool) (place : Nat)
    (s : φ) (found : Option Nat) : StateM σ (Except GaveUp (Option Nat)) :=
  if place < src.len then do
    let w ← src.read place (min (src.len - place) stepBytes)
    if w = [] then pure (.error ⟨⟩)
    else
      match fwd.walk earliest s found (w.zipIdx place) with
      | .ended result => pure result
      | .more s found => forwardFrom fwd earliest (place + w.length) s found
  else
    pure (match fwd.eoi s with
    | none => .error ⟨⟩
    | some s => .ok (if fwd.isMatch s then some src.len else found))
  termination_by src.len - place
  decreasing_by
    have filled := List.length_pos_iff.mpr ‹¬w = []›
    omega

/-- Windows before `high` down to `start`, then the byte before those or the
end of the input. -/
def reverseFrom (rev : Automaton UInt8 ρ) (start high : Nat) (s : ρ)
    (found : Option Nat) : StateM σ (Except GaveUp (Option Nat)) :=
  if start < high then do
    let low := lowFrom start high
    let w ← src.read low (high - low)
    if w.length ≠ high - low then pure (.error ⟨⟩)
    else
      match rev.walk false s found (w.zipIdx (low + 1)).reverse with
      | .ended result => pure result
      | .more s found => reverseFrom rev start low s found
  else if 0 < start then do
    let b ← byte src (start - 1)
    pure (match rev.next s b with
    | none => .error ⟨⟩
    | some s =>
        if rev.isMatch s then .ok (some start)
        else if rev.isQuit s then .error ⟨⟩
        else .ok found)
  else
    pure (match rev.eoi s with
    | none => .error ⟨⟩
    | some s => .ok (if rev.isMatch s then some 0 else found))
  termination_by high
  decreasing_by exact lowFrom_lt ‹start < high›

namespace StreamRegex

variable (re : StreamRegex φ ρ)

def forward (start : Nat) (earliest : Bool) :
    StateM σ (Except GaveUp (Option Nat)) :=
  if start > src.len then pure (.ok none)
  else do
    let behind ← beside src (0 < start) (start - 1)
    match re.fwd.start behind with
    | none => pure (.error ⟨⟩)
    | some s => forwardFrom src re.fwd earliest start s none

def reverse (start stop : Nat) : StateM σ (Except GaveUp (Option Nat)) := do
  let behind ← beside src (stop < src.len) stop
  match re.rev.start behind with
  | none => pure (.error ⟨⟩)
  | some s => reverseFrom src re.rev start stop s none

/-- Whether the pattern matches anywhere. -/
def isMatch : StateM σ (Except GaveUp Bool) := do
  let found ← re.forward src 0 true
  pure (found.map Option.isSome)

/-- The leftmost-first match that starts at `start` or later. -/
def find (start : Nat) : StateM σ (Except GaveUp (Option (Nat × Nat))) := do
  match ← re.forward src start false with
  | .error gaveUp => pure (.error gaveUp)
  | .ok none => pure (.ok none)
  | .ok (some stop) =>
      if stop = start ∨ re.anchored then pure (.ok (some (start, stop)))
      else do
        match ← re.reverse src start stop with
        | .error gaveUp => pure (.error gaveUp)
        | .ok none => pure (.error ⟨⟩)
        | .ok (some first) => pure (.ok (some (first, stop)))

end StreamRegex

end

/-! ## The walk over the bytes -/

section

variable {σ φ ρ : Type} {src : ByteSource σ} {inv : σ → Prop} {data : Bytes}

theorem byte_yields (reads : Reads src inv data) {place : Nat}
    (inside : place < data.length) :
    Yields inv (byte src place) (fun b => some b = data[place]?) := by
  refine .bind (read_yields reads place 1) fun w got => .pure _ ?_
  subst got
  rw [Exav.window, List.drop_eq_getElem_cons inside, List.getElem?_eq_getElem]
  rfl

theorem forwardFrom_yields (reads : Reads src inv data)
    (fwd : Automaton UInt8 φ) (earliest : Bool) {place : Nat}
    (inside : place ≤ data.length) (s : φ) (found : Option Nat) :
    Yields inv (forwardFrom src fwd earliest place s found)
      (· = fwd.finish none data.length
        (fwd.walk earliest s found ((data.drop place).zipIdx place))) := by
  induction left : data.length - place using Nat.strong_induction_on
    generalizing place s found with
  | _ left_over ih =>
      have some_step := stepBytes_pos
      rw [forwardFrom, reads.len]
      refine .ite (fun more => ?_) fun ended => ?_
      · refine .bind (read_yields reads _ _) fun w got => ?_
        subst got
        have size := @length_window_of_le data place
          (min (data.length - place) stepBytes) (by omega)
        have parted : data.drop place =
            Exav.window data place (min (data.length - place) stepBytes) ++
              data.drop (place + min (data.length - place) stepBytes) := by
          rw [Exav.window, ← List.drop_drop, List.take_append_drop]
        have filled : Exav.window data place
            (min (data.length - place) stepBytes) ≠ [] :=
          List.length_pos_iff.mp (by omega)
        rw [if_neg filled, parted, List.zipIdx_append, Automaton.walk_append,
          size]
        cases fwd.walk earliest s found ((Exav.window data place
          (min (data.length - place) stepBytes)).zipIdx place) with
        | ended result => exact .pure _ rfl
        | more t found =>
            exact ih _ (by omega) (by omega) t found rfl
      · have nothing : data.drop place = [] :=
          List.drop_eq_nil_of_le (by omega)
        rw [nothing]
        exact .pure _ rfl

theorem reverseFrom_yields (reads : Reads src inv data)
    {rev : Automaton UInt8 ρ} (lawful : rev.Lawful) {start high : Nat}
    (ordered : start ≤ high) (inside : high ≤ data.length) (s : ρ)
    (found : Option Nat) :
    Yields inv (reverseFrom src rev start high s found)
      (· = rev.finish (before data start) start
        (rev.walk false s found
          ((between data start high).zipIdx (start + 1)).reverse)) := by
  induction high using Nat.strong_induction_on generalizing s found with
  | _ high ih =>
      rw [reverseFrom]
      refine .ite (fun more => ?_) fun ended => ?_
      · have lower := lowFrom_lt more
        have above : start ≤ lowFrom start high := Nat.le_max_right _ _
        generalize lowFrom start high = low at lower above
        refine .bind (read_yields reads _ _) fun w got => ?_
        subst got
        have size := @length_window_of_le data low (high - low) (by omega)
        have nearer := @length_between _ data start low above (by omega)
        have parted : between data start high =
            between data start low ++ Exav.window data low (high - low) := by
          have all : high - start = low - start + (high - low) := by omega
          rw [between, between, Exav.window, all, List.take_add, List.drop_drop,
            Nat.add_sub_cancel' above]
        have place : start + 1 + (low - start) = low + 1 := by omega
        rw [if_neg (by omega), parted, List.zipIdx_append, List.reverse_append,
          Automaton.walk_append, nearer, place]
        cases rev.walk false s found
          ((Exav.window data low (high - low)).zipIdx (low + 1)).reverse with
        | ended result => exact .pure _ rfl
        | more t found => exact ih low lower above (by omega) t found
      · have same : high = start := by omega
        subst same
        have nothing : between data high high = [] := by
          rw [between, Nat.sub_self, List.take_zero]
        rw [nothing]
        refine .ite (fun led => ?_) fun first => ?_
        · refine .bind (byte_yields reads (by omega)) fun b got => .pure _ ?_
          have behind : before data high = some b := by
            rw [before, if_pos led, got]
          have quit_match := lawful.quit_match
          rw [behind, List.zipIdx_nil, List.reverse_nil, Automaton.walk,
            Automaton.finish, Automaton.step]
          cases next : rev.next s b with
          | none => rfl
          | some t =>
              rw [Option.filter_some]
              dsimp only
              cases quit : rev.isQuit t with
              | false =>
                  show _ = Except.ok (if rev.isMatch t then some high else found)
                  cases rev.isMatch t <;> rfl
              | true =>
                  rw [quit_match t quit]
                  rfl
        · have bottom : high = 0 := by omega
          subst bottom
          exact .pure _ rfl

theorem beside_yields (reads : Reads src inv data) {there : Bool}
    {place : Nat} (inside : there = true → place < data.length) :
    Yields inv (beside src there place)
      (· = if there = true then data[place]? else none) := by
  refine .ite (fun holds => ?_) fun fails => .pure _ (if_neg fails).symm
  refine .bind (byte_yields reads (inside holds)) fun b got => .pure _ ?_
  rw [if_pos holds, ← got]

theorem forward_yields (reads : Reads src inv data) (re : StreamRegex φ ρ)
    (start : Nat) (earliest : Bool) :
    Yields inv (re.forward src start earliest)
      (· = if start > data.length then .ok none
        else Delayed.forward re.fwd data start earliest) := by
  rw [StreamRegex.forward, reads.len]
  refine .ite (fun past => .pure _ (if_pos past).symm) fun within => ?_
  rw [if_neg within]
  have inside : decide (0 < start) = true → start - 1 < data.length := by
    rw [decide_eq_true_eq]
    omega
  refine .bind (beside_yields reads inside) fun behind got => ?_
  have same : behind = before data start := by
    rw [before]
    simpa only [decide_eq_true_eq] using got
  subst same
  rw [Delayed.forward]
  cases re.fwd.start (before data start) with
  | none => exact .pure _ rfl
  | some s => exact forwardFrom_yields reads re.fwd earliest (by omega) s none

theorem reverse_yields (reads : Reads src inv data) {re : StreamRegex φ ρ}
    (lawful : re.rev.Lawful) {start stop : Nat} (ordered : start ≤ stop)
    (inside : stop ≤ data.length) :
    Yields inv (re.reverse src start stop)
      (· = Delayed.reverse re.rev data start stop) := by
  rw [StreamRegex.reverse, reads.len]
  refine .bind (beside_yields reads of_decide_eq_true) fun behind got => ?_
  have same : behind = data[stop]? := by
    simp only [decide_eq_true_eq] at got
    rw [got]
    split
    · rfl
    · exact (List.getElem?_eq_none (by omega)).symm
  subst same
  rw [Delayed.reverse]
  cases re.rev.start data[stop]? with
  | none => exact .pure _ rfl
  | some s => exact reverseFrom_yields reads lawful ordered inside s none

end

/-! ## What a search finds -/

/-- Two automata for one language. -/
structure StreamRegex.For {φ ρ : Type} (re : StreamRegex φ ρ)
    (lang : Delayed.Language UInt8) : Prop where
  fwd_lawful : re.fwd.Lawful
  rev_lawful : re.rev.Lawful
  leads : Leads re.fwd lang
  traces : Traces re.rev lang
  anchored : re.anchored = true → ∀ data first stop,
    lang.Matches data first stop → first = 0

variable {σ φ ρ : Type} {src : ByteSource σ} {inv : σ → Prop} {data : Bytes}
  {re : StreamRegex φ ρ} {lang : Delayed.Language UInt8}

section

variable {σ φ ρ : Type} {src : ByteSource σ} {inv : σ → Prop} {data : Bytes}

/-- The automata cannot be followed over the bytes: forwards from `start`, or
back from the end of the leftmost match. -/
def StreamRegex.Quits (re : StreamRegex φ ρ) (lang : Delayed.Language UInt8)
    (data : Bytes) (start : Nat) : Prop :=
  quitsFrom re.fwd data start ∨
    ∃ m, lang.leftmostFirst data start = some m ∧
      quitsBack re.rev data start m.2

def StreamRegex.Finds (re : StreamRegex φ ρ) (lang : Delayed.Language UInt8)
    (data : Bytes) (start : Nat)
    (got : Except GaveUp (Option (Nat × Nat))) : Prop :=
  got = .ok (lang.leftmostFirst data start) ∨
    got = .error ⟨⟩ ∧ re.Quits lang data start

/-- It is found whether some match exists, unless the forward automaton quits. -/
def StreamRegex.Tells (re : StreamRegex φ ρ) (lang : Delayed.Language UInt8)
    (data : Bytes) (got : Except GaveUp Bool) : Prop :=
  got = .ok true ∧ (∃ first stop, lang.Matches data first stop) ∨
    got = .ok false ∧ (∀ first stop, ¬lang.Matches data first stop) ∨
    got = .error ⟨⟩ ∧ quitsFrom re.fwd data 0

variable {re : StreamRegex φ ρ} {lang : Delayed.Language UInt8}

theorem find_yields (reads : Reads src inv data) (both : re.For lang)
    (start : Nat) :
    Yields inv (re.find src start) (re.Finds lang data start) := by
  refine .bind (forward_yields reads re start false) fun found got => ?_
  by_cases past : start > data.length
  · rw [if_pos past] at got
    subst got
    exact .pure _ (.inl (by rw [lang.leftmostFirst_past past]))
  · rw [if_neg past] at got
    cases found with
    | error gaveUp =>
        exact .pure _ (.inr ⟨rfl, .inl (forward_error both.fwd_lawful got.symm)⟩)
    | ok found =>
        have ends := forward_ok both.fwd_lawful both.leads (by omega) got.symm
        cases leftmost : lang.leftmostFirst data start with
        | none =>
            rw [leftmost] at ends
            subst ends
            exact .pure _ (.inl (by rw [leftmost]))
        | some m =>
            rw [leftmost] at ends
            rw [Option.map_some] at ends
            subst ends
            obtain ⟨above, matching, _⟩ := lang.leftmostFirst_eq_some leftmost
            obtain ⟨ordered, inside, _⟩ := id matching
            refine .ite (fun plain => .pure _ (.inl ?_)) fun apart => ?_
            · have starts : m.1 = start := by
                rcases plain with bare | anchored
                · omega
                · have first := both.anchored anchored data m.1 m.2 matching
                  omega
              rw [leftmost, ← starts]
            · refine .bind (reverse_yields reads both.rev_lawful (by omega)
                inside) fun back came => ?_
              cases back with
              | error gaveUp =>
                  have quits := reverse_error both.rev_lawful came.symm
                  exact .pure _ (.inr ⟨rfl, .inr ⟨m, leftmost, quits⟩⟩)
              | ok back =>
                  have starts := reverse_ok both.rev_lawful both.traces leftmost
                    came.symm
                  subst starts
                  exact .pure _ (.inl (by rw [leftmost]))

theorem isMatch_yields (reads : Reads src inv data) (both : re.For lang) :
    Yields inv (re.isMatch src) (re.Tells lang data) := by
  refine .bind (forward_yields reads re 0 true) fun found got => .pure _ ?_
  rw [if_neg (Nat.not_lt_zero _)] at got
  cases found with
  | error gaveUp =>
      exact .inr (.inr ⟨rfl, forward_error both.fwd_lawful got.symm⟩)
  | ok found =>
      have told := forward_earliest both.fwd_lawful both.leads
        (Nat.zero_le _) got.symm
      cases leftmost : lang.leftmostFirst data 0 with
      | none =>
          refine .inr (.inl ⟨?_, fun first stop =>
            lang.leftmostFirst_eq_none leftmost (Nat.zero_le _)⟩)
          rw [leftmost] at told
          exact congrArg Except.ok told
      | some m =>
          obtain ⟨_, matching, _⟩ := lang.leftmostFirst_eq_some leftmost
          refine .inl ⟨?_, m.1, m.2, matching⟩
          rw [leftmost] at told
          exact congrArg Except.ok told

end

/-- A search through the blocks of a source that delivers `data`, in any view of
it, finds what the language has in the bytes in view; so does a search of bytes
in memory.  It gives up only where the automata quit. -/
theorem search_delivered {φ ρ : Type} {re : StreamRegex φ ρ}
    {lang : Delayed.Language UInt8} (both : re.For lang) {src : Seekable} {data : Bytes}
    (delivers : Delivers src data) (block capacity : Nat) (view : View) :
    let cache := BlockCache.withSizes src data.length block capacity
    let blocks := view.source cache.source
    let bytes := view.bytes data
    (∀ start, Yields (Sound cache data) (re.find blocks start)
        (re.Finds lang bytes start) ∧
      Yields (fun _ => True) (re.find (slice bytes) start)
        (re.Finds lang bytes start)) ∧
      Yields (Sound cache data) (re.isMatch blocks) (re.Tells lang bytes) ∧
      Yields (fun _ => True) (re.isMatch (slice bytes)) (re.Tells lang bytes) := by
  have cached := over_withSizes delivers block capacity
  have blocks := (serves_view (BlockCache.serves cached) view).reads
  have whole := reads_slice (view.bytes data)
  exact ⟨fun start => ⟨find_yields blocks both start,
    find_yields whole both start⟩, isMatch_yields blocks both,
    isMatch_yields whole both⟩

/-! ## A letter -/

/-- Where a search for one letter is. -/
inductive Seeking where
  | on | seen | told | dead
  deriving DecidableEq

namespace Seeking

/-- A search for a letter; on another one it goes on in `missed`. -/
def automaton (letter : UInt8) (missed : Seeking) :
    Automaton UInt8 Seeking where
  start _ := some .on
  next s b :=
    match s with
    | .on => some (if b = letter then .seen else missed)
    | .seen => some .told
    | .told | .dead => some .dead
  eoi s :=
    match s with
    | .seen => some .told
    | .on | .told | .dead => some .dead
  isTagged s := s = .told || s = .dead
  isMatch s := s = .told
  isDead s := s = .dead
  isQuit _ := false

def language (letter : UInt8) : Delayed.Language UInt8 where
  has _ text _ := text = [letter]
  prefer _ rest := if rest.head? = some letter then some 1 else none
  prefer_has left rest n preferred := by
    cases rest with
    | nil => cases preferred
    | cons b rest =>
        simp only [List.head?_cons, Option.some.injEq] at preferred
        split at preferred
        · next same =>
            cases preferred
            exact ⟨by simp, by simp [same]⟩
        · cases preferred
  has_prefer left rest n fits has := by
    have one := congrArg List.length has
    rw [List.length_take, List.length_singleton] at one
    have first : rest.head? = some letter := by
      cases rest with
      | nil =>
          rw [List.take_nil] at has
          cases has
      | cons b rest =>
          cases n with
          | zero => cases has
          | succ n => simpa using (List.cons.inj has).1
    rw [if_pos first]
    rfl

variable {letter : UInt8} {missed : Seeking}

theorem automaton_lawful : (automaton letter missed).Lawful where
  tagged s special := by cases s <;> simp_all [automaton]
  dead_match s dead := by cases s <;> simp_all [automaton]
  quit_match s quit := by cases quit
  quit_dead s quit := by cases quit
  dead_next s b dead := by cases s <;> simp_all [automaton]
  dead_eoi s dead := by cases s <;> simp_all [automaton]
  eoi_quit _ _ _ := rfl

theorem matches_iff {data : Bytes} {first stop : Nat} :
    (language letter).Matches data first stop ↔
      stop = first + 1 ∧ data[first]? = some letter := by
  constructor
  · intro is
    obtain ⟨ordered, inside, text⟩ := is
    have text : between data first stop = [letter] := text
    have one := congrArg List.length text
    rw [length_between ordered inside, List.length_singleton] at one
    have here := congrArg (·[0]?) text
    rw [between, one] at here
    refine ⟨by omega, ?_⟩
    simpa using here
  · intro is
    obtain ⟨rfl, here⟩ := is
    obtain ⟨inside, value⟩ := List.getElem?_eq_some_iff.mp here
    refine ⟨by omega, by omega, ?_⟩
    show between data first (first + 1) = [letter]
    rw [between, Nat.add_sub_cancel_left, List.drop_eq_getElem_cons inside,
      value]
    rfl

theorem isMatch_eq (s : Seeking) :
    (automaton letter missed).isMatch s = decide (s = .told) := rfl

theorem step_seen (b : Option UInt8) :
    (automaton letter missed).step .seen b = some .told := by
  cases b <;> rfl

theorem step_told (b : Option UInt8) :
    (automaton letter missed).step .told b = some .dead := by
  cases b <;> rfl

theorem step_on (b : UInt8) :
    (automaton letter missed).step .on (some b) =
      some (if b = letter then .seen else missed) := rfl

theorem reports_dead {last : Option UInt8} (rest : Bytes) (i : Nat) :
    (automaton letter missed).reports last .dead rest i = false :=
  ((@automaton_lawful letter missed).dead_silent rfl rest).1 i

theorem reports_told {last : Option UInt8} (rest : Bytes) (i : Nat) :
    (automaton letter missed).reports last .told rest i = false := by
  cases rest with
  | nil =>
      cases i with
      | zero =>
          rw [Automaton.reports, step_told]
          rfl
      | succ i => rfl
  | cons b rest =>
      cases i with
      | zero =>
          rw [Automaton.reports_zero (step_told _)]
          rfl
      | succ i => rw [Automaton.reports_succ (step_told _), reports_dead]

theorem reports_seen {last : Option UInt8} (rest : Bytes) (i : Nat) :
    (automaton letter missed).reports last .seen rest i = true ↔ i = 0 := by
  cases rest with
  | nil =>
      cases i with
      | zero =>
          rw [Automaton.reports, step_seen]
          exact ⟨fun _ => rfl, fun _ => rfl⟩
      | succ i => simp [Automaton.reports]
  | cons b rest =>
      cases i with
      | zero =>
          rw [Automaton.reports_zero (step_seen _)]
          exact ⟨fun _ => rfl, fun _ => rfl⟩
      | succ i => simp [Automaton.reports_succ (step_seen _), reports_told]

/-- The letter is told of after the first one. -/
theorem reports_iff {rest : Bytes} {i : Nat} :
    (automaton letter .on).reports none .on rest i = true ↔
      ∃ k, i = k + 1 ∧ rest[k]? = some letter ∧
        ∀ j < k, rest[j]? ≠ some letter := by
  induction rest generalizing i with
  | nil =>
      cases i with
      | zero => simp [Automaton.reports, Automaton.step, automaton]
      | succ i => simp [Automaton.reports]
  | cons b rest ih =>
      have next := @step_on letter .on b
      by_cases same : b = letter
      · rw [if_pos same] at next
        cases i with
        | zero => simp [Automaton.reports_zero next, isMatch_eq]
        | succ i =>
            rw [Automaton.reports_succ next, reports_seen]
            constructor
            · rintro rfl
              exact ⟨0, rfl, by simp [same], by simp⟩
            · rintro ⟨k, place, _, first⟩
              cases k with
              | zero => omega
              | succ k => exact absurd (by simp [same]) (first 0 (by omega))
      · rw [if_neg same] at next
        cases i with
        | zero => simp [Automaton.reports_zero next, isMatch_eq]
        | succ i =>
            rw [Automaton.reports_succ next, ih]
            constructor
            · rintro ⟨k, rfl, here, first⟩
              refine ⟨k + 1, rfl, here, fun j early => ?_⟩
              cases j with
              | zero => simpa using same
              | succ j => exact first j (by omega)
            · rintro ⟨k, place, here, first⟩
              cases k with
              | zero => exact absurd (by simpa using here) same
              | succ k =>
                  exact ⟨k, by omega, here,
                    fun j early => first (j + 1) (by omega)⟩

theorem reports_back_iff {last : Option UInt8} {rest : Bytes} {i : Nat} :
    (automaton letter .dead).reports last .on rest i = true ↔
      i = 1 ∧ rest[0]? = some letter := by
  cases rest with
  | nil =>
      cases i with
      | zero =>
          rw [Automaton.reports]
          cases last with
          | none => simp [Automaton.step, automaton]
          | some b =>
              rw [step_on]
              by_cases same : b = letter <;> simp [same, automaton]
      | succ i => simp [Automaton.reports]
  | cons b rest =>
      have next := @step_on letter .dead b
      by_cases same : b = letter
      · rw [if_pos same] at next
        cases i with
        | zero => simp [Automaton.reports_zero next, isMatch_eq]
        | succ i =>
            rw [Automaton.reports_succ next, reports_seen]
            simp [same]
      · rw [if_neg same] at next
        cases i with
        | zero => simp [Automaton.reports_zero next, isMatch_eq]
        | succ i => simp [Automaton.reports_succ next, reports_dead, same]

theorem leads : Leads (automaton letter .on) (language letter) where
  reported data start s i inside begun reported := by
    cases begun
    obtain ⟨k, rfl, here, first⟩ := reports_iff.mp reported
    rw [List.getElem?_drop] at here
    have matching : (language letter).Matches data (start + k) (start + k + 1) :=
      matches_iff.mpr ⟨rfl, here⟩
    cases leftmost : (language letter).leftmostFirst data start with
    | none =>
        exact absurd matching
          ((language letter).leftmostFirst_eq_none leftmost (by omega))
    | some m =>
        obtain ⟨above, is, least⟩ :=
          (language letter).leftmostFirst_eq_some leftmost
        obtain ⟨stop, there⟩ := matches_iff.mp is
        refine ⟨m, rfl, ?_⟩
        by_contra early
        apply first (m.1 - start) (by omega)
        rwa [List.getElem?_drop, Nat.add_sub_cancel' above]
  reports data start s m inside begun calm leftmost := by
    cases begun
    obtain ⟨above, is, least⟩ := (language letter).leftmostFirst_eq_some leftmost
    obtain ⟨stop, there⟩ := matches_iff.mp is
    refine reports_iff.mpr ⟨m.1 - start, by omega, ?_, ?_⟩
    · rwa [List.getElem?_drop, Nat.add_sub_cancel' above]
    · intro j early here
      rw [List.getElem?_drop] at here
      have later := least (start + j) (start + j + 1) (by omega)
        (matches_iff.mpr ⟨rfl, here⟩)
      omega

theorem traces : Traces (automaton letter .dead) (language letter) where
  reports_iff data start stop s ordered inside begun calm p above below := by
    cases begun
    rw [reports_back_iff, matches_iff]
    have size := length_between ordered inside
    by_cases one : stop = p + 1
    · have last : (between data start stop).reverse[0]? = data[p]? := by
        rw [List.getElem?_reverse (by omega), size, between,
          List.getElem?_take_of_lt (by omega), List.getElem?_drop]
        congr 1
        omega
      rw [last]
      exact and_congr_left' (by omega)
    · constructor
      · intro is
        omega
      · intro is
        exact absurd is.1 one

end Seeking

/-- One letter, by its two automata. -/
def letterRegex (letter : UInt8) : StreamRegex Seeking Seeking where
  fwd := Seeking.automaton letter .on
  rev := Seeking.automaton letter .dead
  anchored := false

theorem letterRegex_for (letter : UInt8) :
    (letterRegex letter).For (Seeking.language letter) where
  fwd_lawful := Seeking.automaton_lawful
  rev_lawful := Seeking.automaton_lawful
  leads := Seeking.leads
  traces := Seeking.traces
  anchored anchored := by cases anchored

/-- A letter sought through blocks of two bytes. -/
theorem search_delivered_letter :
    Yields (Sound (BlockCache.withSizes (cursor [98, 97, 98]) 3 2 4)
        [98, 97, 98])
      ((letterRegex 97).find
        (BlockCache.withSizes (cursor [98, 97, 98]) 3 2 4).source 0)
      ((letterRegex 97).Finds (Seeking.language 97) [98, 97, 98] 0) :=
  ((search_delivered (letterRegex_for 97) (delivers_cursor [98, 97, 98]) 2 4
    .whole).1 0).1

end Exav.Regex
