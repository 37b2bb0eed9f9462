import Exav.Engine.Simulator

/-!
# What advancing computes

`Adds` says that a routine adds a set of positions to a reachable set: nothing
else, and all of it unless the scan is flagged.  Each routine of the simulator
is given the set it adds, and `advance_spec` collects them as the image
`Elem.Spreads` of the reachable set under one element.
-/

namespace Exav.Engine

open Exav.Interval Exav.Visit

/-- From `before` to `after`, the positions `added` join the set: no others,
and all of them when `whole`. -/
structure Adds (whole : Prop) (added : Nat → Prop) (before after : Progress) :
    Prop where
  flagged : before.truncated = true → after.truncated = true
  proper : Proper before.out → Proper after.out
  sound : Proper before.out → ∀ p, Covers after.out p →
    Covers before.out p ∨ added p
  keeps : Proper before.out → ∀ p, Covers before.out p → Covers after.out p
  complete : Proper before.out → whole → ∀ p, added p → Covers after.out p

/-- As `Adds`, for a step that may also stop its traversal: it loses positions
only when it stops, and stops only after flagging the scan. -/
structure Runs (added : Nat → Prop) (before : Progress)
    (after : Progress × Bool) : Prop
    extends Adds (after.2 = true) added before after.1 where
  stopped : after.2 = false → after.1.truncated = true

section

variable {whole further : Prop} {added more : Nat → Prop} {before : Progress}

theorem Adds.congr {after : Progress} (adds : Adds whole added before after)
    (same : ∀ p, added p ↔ more p) : Adds whole more before after := by
  rwa [← funext fun p => propext (same p)]

theorem Adds.nothing {after : Progress} (out : after.out = before.out)
    (flagged : before.truncated = true → after.truncated = true)
    (empty : ∀ p, ¬added p) : Adds whole added before after where
  flagged := flagged
  proper ok := by rwa [out]
  sound _ p covered := Or.inl (by rwa [out] at covered)
  keeps _ p covered := by rwa [out]
  complete _ _ p member := (empty p member).elim

/-- What loses positions promises nothing further. -/
theorem Adds.cut {after : Progress} (adds : Adds whole added before after)
    (cut : ¬further) (wider : ∀ p, added p → more p) :
    Adds further more before after where
  flagged := adds.flagged
  proper := adds.proper
  sound ok p covered := (adds.sound ok p covered).imp_right (wider p)
  keeps := adds.keeps
  complete _ complete := (cut complete).elim

theorem Adds.of_whole {after : Progress} (adds : Adds whole added before after)
    (enough : further → whole) : Adds further added before after :=
  ⟨adds.flagged, adds.proper, adds.sound, adds.keeps,
    fun ok complete => adds.complete ok (enough complete)⟩

theorem Adds.trans {middle after : Progress}
    (first : Adds whole added before middle)
    (second : Adds further more middle after) :
    Adds (whole ∧ further) (fun p => added p ∨ more p) before after where
  flagged := second.flagged ∘ first.flagged
  proper := second.proper ∘ first.proper
  sound ok p covered := by
    rcases second.sound (first.proper ok) p covered with earlier | later
    · exact (first.sound ok p earlier).imp_right Or.inl
    · exact Or.inr (Or.inr later)
  keeps ok p covered :=
    second.keeps (first.proper ok) p (first.keeps ok p covered)
  complete ok complete p member := by
    rcases member with inFirst | inSecond
    · exact second.keeps (first.proper ok) p
        (first.complete ok complete.1 p inFirst)
    · exact second.complete (first.proper ok) complete.2 p inSecond

theorem Adds.of_before (before : Progress) {start after : Progress}
    (adds : Adds whole added start after) (out : start.out = before.out)
    (flag : start.truncated = before.truncated) :
    Adds whole added before after where
  flagged := by rw [← flag]; exact adds.flagged
  proper := by rw [← out]; exact adds.proper
  sound := by rw [← out]; exact adds.sound
  keeps := by rw [← out]; exact adds.keeps
  complete := by rw [← out]; exact adds.complete

theorem Adds.of_after {last after : Progress}
    (adds : Adds whole added before last) (out : after.out = last.out)
    (flag : after.truncated = last.truncated) :
    Adds whole added before after where
  flagged := by rw [flag]; exact adds.flagged
  proper := by rw [out]; exact adds.proper
  sound := by rw [out]; exact adds.sound
  keeps := by rw [out]; exact adds.keeps
  complete := by rw [out]; exact adds.complete

/-- From `before` to `after`, the positions `added` join the set: no others,
and all of them unless the scan ends up flagged. -/
abbrev AddsAll (added : Nat → Prop) (before after : Progress) : Prop :=
  Adds (after.truncated = false) added before after

theorem AddsAll.trans {middle after : Progress}
    (first : AddsAll added before middle) (second : AddsAll more middle after) :
    AddsAll (fun p => added p ∨ more p) before after := by
  refine (Adds.trans first second).of_whole ?_
  intro unflagged
  refine ⟨?_, unflagged⟩
  by_contra flag
  rw [second.flagged (by simpa using flag)] at unflagged
  cases unflagged

theorem Runs.addsAll {after : Progress × Bool}
    (runs : Runs added before after) : AddsAll added before after.1 := by
  refine runs.toAdds.of_whole ?_
  intro unflagged
  by_contra stopped
  rw [runs.stopped (by simpa using stopped)] at unflagged
  cases unflagged

theorem Runs.congr {after : Progress × Bool} (runs : Runs added before after)
    (same : ∀ p, added p ↔ more p) : Runs more before after :=
  ⟨runs.toAdds.congr same, runs.stopped⟩

theorem Runs.nothing {after : Progress} (out : after.out = before.out)
    (flag : after.truncated = before.truncated) (empty : ∀ p, ¬added p) :
    Runs added before (after, true) :=
  ⟨.nothing out (by rw [flag]; exact id) empty, by simp⟩

theorem Runs.flag : Runs added before (before.flag, false) := by
  have start : Adds True (fun _ => False) before before.flag :=
    .nothing rfl (fun _ => rfl) fun _ => id
  exact ⟨start.cut (by simp) fun _ => False.elim, fun _ => rfl⟩

theorem Runs.charge {outcome : Progress × Bool}
    (runs : Runs added before outcome) (cost : Nat) :
    Runs added before (charge cost outcome) := by
  rw [Engine.charge]
  split
  case isTrue whole =>
    have adds := runs.toAdds
    rw [whole] at adds
    exact ⟨adds.of_after rfl rfl, by simp⟩
  case isFalse => exact runs

/-- A traversal adds what its steps add. -/
theorem Runs.visitAll {α : Type} {step : Progress → α → Progress × Bool}
    {items : List α} (each : α → Nat → Prop)
    (steps : ∀ item ∈ items, ∀ s, Runs (each item) s (step s item)) :
    Runs (fun p => ∃ item ∈ items, each item p) before
      (visitAll step before items) := by
  induction items generalizing before with
  | nil => exact .nothing rfl rfl (by simp)
  | cons item items ih =>
      have first := steps item (by simp) before
      rw [visitAll_cons]
      split
      case isTrue go =>
        have rest := @ih (step before item).1
          fun later member => steps later (by simp [member])
        refine ⟨((first.toAdds.trans rest.toAdds).of_whole ?_).congr (by simp),
          rest.stopped⟩
        exact fun finished => ⟨go, finished⟩
      case isFalse stop =>
        refine ⟨first.toAdds.cut (by simp) ?_,
          fun _ => first.stopped (by simpa using stop)⟩
        intro p member
        exact ⟨item, by simp, member⟩

end

/-! ## The pushes -/

theorem reachPush_runs {s : Progress} {lo hi : Nat} (ordered : lo ≤ hi) :
    Runs (fun p => lo ≤ p ∧ p ≤ hi) s (reachPush s (lo, hi)) := by
  rw [reachPush]
  cases pushed : push maxReach s.out lo hi with
  | none => exact .flag
  | some out =>
      refine ⟨⟨id, ?_, ?_, ?_, ?_⟩, by simp⟩
      · intro proper
        exact push_proper ordered proper pushed
      · intro proper p covered
        exact (push_covers proper pushed p).mp covered
      · intro proper p covered
        exact (push_covers proper pushed p).mpr (Or.inl covered)
      · intro proper _ p inside
        exact (push_covers proper pushed p).mpr (Or.inr inside)

theorem visitAll_reachPush {s : Progress} {ivs : List Interval}
    (proper : Proper ivs) : Runs (Covers ivs) s (visitAll reachPush s ivs) :=
  Runs.visitAll (fun (iv : Interval) p => iv.1 ≤ p ∧ p ≤ iv.2)
    fun iv member _ => reachPush_runs (proper iv member)

theorem reachStarts_runs {l : Nat} {s : Progress} {iv : Interval}
    (ordered : iv.1 ≤ iv.2) :
    Runs (fun p => iv.1 + l ≤ p ∧ p ≤ iv.2 + l) s (reachStarts l s iv) := by
  have pushAll (s : Progress) :
      Runs (fun p => iv.1 + l ≤ p ∧ p ≤ iv.2 + l) s
        (reachPush s (iv.1 + l, iv.2 + l)) :=
    reachPush_runs (by omega)
  rw [reachStarts]
  cases pool : s.budget with
  | unlimited => exact pushAll s
  | steps left =>
      simp only
      split
      case isTrue affords =>
        have runs := pushAll (s.spend (iv.2 - iv.1 + 1))
        exact ⟨runs.toAdds.of_before s rfl rfl, runs.stopped⟩
      case isFalse short =>
        set cut : Progress := { s with budget := .steps 0, truncated := true }
        have kept : Runs
            (fun p => iv.1 + l ≤ p ∧ p ≤ iv.1 + (left + 1) - 1 + l) cut
            (reachPush cut (iv.1 + l, iv.1 + (left + 1) - 1 + l)) :=
          reachPush_runs (by omega)
        have flagged := kept.flagged rfl
        have start : Adds True (fun _ => False) s cut :=
          .nothing rfl (fun _ => rfl) fun _ => id
        refine ⟨(start.trans kept.toAdds).cut (by simp) ?_, fun _ => flagged⟩
        intro p member
        have inside := member.resolve_left id
        exact ⟨inside.1, inside.2.trans (by omega)⟩

/-- A run of starts, one literal length further. -/
def endsOf (l : Nat) (ivs : List Interval) (p : Nat) : Prop :=
  ∃ q ∈ ivs.flatMap positions, p = q + l

theorem endsOf_iff {l : Nat} {ivs : List Interval} {p : Nat} :
    endsOf l ivs p ↔ ∃ iv ∈ ivs, iv.1 + l ≤ p ∧ p ≤ iv.2 + l := by
  simp only [endsOf, List.mem_flatMap, mem_positions]
  constructor
  · rintro ⟨q, ⟨iv, member, lower, upper⟩, rfl⟩
    exact ⟨iv, member, by omega, by omega⟩
  · rintro ⟨iv, member, lower, upper⟩
    exact ⟨p - l, ⟨iv, member, by omega, by omega⟩, by omega⟩

theorem visitAll_reachStarts {l : Nat} {s : Progress} {ivs : List Interval}
    (proper : Proper ivs) :
    Runs (endsOf l ivs) s (visitAll (reachStarts l) s ivs) :=
  (Runs.visitAll (fun iv p => iv.1 + l ≤ p ∧ p ≤ iv.2 + l)
    fun iv member _ => reachStarts_runs (proper iv member)).congr
    fun _ => endsOf_iff.symm

/-- The positions that pass a test, moved on by `w`, are pushed. -/
theorem pushMatches_runs (test : Nat → Bool) (w lo qmax : Nat)
    (s : Progress) :
    Runs (fun p => ∃ q, lo ≤ q ∧ q ≤ qmax ∧ test q = true ∧ p = q + w) s
      (pushMatches test w lo qmax s) := by
  refine (Runs.visitAll (fun q p => test q = true ∧ p = q + w) ?_).congr ?_
  · intro q _ s
    split
    case isTrue passes =>
      refine (reachPush_runs le_rfl).congr ?_
      intro p
      simp only [passes, true_and]
      omega
    case isFalse fails => exact .nothing rfl rfl (by simp [fails])
  · intro p
    simp only [mem_positions]
    constructor
    · rintro ⟨q, ⟨lower, upper⟩, passes, same⟩
      exact ⟨q, lower, upper, passes, same⟩
    · rintro ⟨q, lower, upper, passes, same⟩
      exact ⟨q, ⟨lower, upper⟩, passes, same⟩

/-! ## The elements -/

theorem hiNibble_test {h : UInt8} (nibble : h < 16) (b : UInt8) :
    ((b &&& (0xf0 : UInt8)) == h <<< 4) = (b >>> 4 == h) := by
  have high : (b &&& (0xf0 : UInt8)) = b >>> 4 <<< 4 ∧
      b >>> 4 <<< 4 >>> 4 = b >>> 4 := by
    revert b
    apply forall_byte
    decide +kernel
  have back : h <<< 4 >>> 4 = h := by
    have checked : ∀ n : Fin 16,
        UInt8.ofNat n <<< 4 >>> 4 = UInt8.ofNat n := by
      decide
    have bound : h.toNat < 16 := nibble
    simpa using checked ⟨h.toNat, bound⟩
  rw [Bool.eq_iff_iff, beq_iff_eq, beq_iff_eq, high.1]
  constructor
  · intro same
    rw [← high.2, same, back]
  · intro same
    rw [same]

section

variable {buf : Bytes} {nocase : Bool}

/-- Where one element leads from a set of positions. -/
def Elem.Image (buf : Bytes) (nocase : Bool) (tok : Elem)
    (positions : Nat → Prop) (q : Nat) : Prop :=
  ∃ p, positions p ∧ tok.Steps buf nocase p q

private theorem image_iff_exists {tok : Elem} {cur : List Interval} {q : Nat} :
    tok.Image buf nocase (Covers cur) q ↔
      ∃ iv ∈ cur,
        tok.Image buf nocase (fun p => iv.1 ≤ p ∧ p ≤ iv.2) q := by
  constructor
  · rintro ⟨p, ⟨iv, member, bounds⟩, steps⟩
    exact ⟨iv, member, p, bounds, steps⟩
  · rintro ⟨iv, member, p, bounds, steps⟩
    exact ⟨p, ⟨iv, member, bounds⟩, steps⟩

private theorem image_of_steps {tok : Elem} {cur : List Interval}
    {step : Progress → Interval → Progress × Bool} {s : Progress}
    (steps : ∀ iv ∈ cur, ∀ s, Runs
      (tok.Image buf nocase fun p => iv.1 ≤ p ∧ p ≤ iv.2) s (step s iv)) :
    Runs (tok.Image buf nocase (Covers cur)) s (visitAll step s cur) :=
  (Runs.visitAll _ steps).congr fun _ => image_iff_exists.symm

private theorem endsOf_image {needle : Bytes} {iv : Interval}
    {runs : List Interval} (nonempty : needle ≠ [])
    (starts : runs.flatMap positions =
      occurrences (haystack nocase buf) (haystack nocase needle) iv.1
        (min iv.2 (buf.length - needle.length)))
    (p : Nat) :
    endsOf needle.length runs p ↔
      (Elem.bytes needle).Image buf nocase
        (fun p => iv.1 ≤ p ∧ p ≤ iv.2) p := by
  rw [endsOf, starts]
  simp only [Elem.Image, Elem.steps_bytes_iff nonempty, mem_occurrences]
  constructor
  · rintro ⟨q, ⟨lower, upper, occurs⟩, rfl⟩
    exact ⟨q, ⟨lower, by omega⟩, rfl, occurs⟩
  · rintro ⟨q, ⟨lower, upper⟩, rfl, occurs⟩
    have haystackNonempty : haystack nocase needle ≠ [] := by
      intro empty
      have length := congrArg List.length empty
      rw [length_haystack] at length
      exact nonempty (List.length_eq_zero_iff.mp length)
    have fits := occursAt_fits occurs haystackNonempty
    simp only [length_haystack] at fits
    exact ⟨q, ⟨lower, by omega, occurs⟩, rfl⟩

private theorem literal_past {needle : Bytes} {iv : Interval}
    (nonempty : needle ≠ []) (past : iv.1 > buf.length - needle.length)
    (p : Nat) :
    ¬(Elem.bytes needle).Image buf nocase
      (fun p => iv.1 ≤ p ∧ p ≤ iv.2) p := by
  rintro ⟨q, ⟨lower, _⟩, steps⟩
  have inside := steps.inside
  have width := ((Elem.steps_bytes_iff nonempty).mp steps).1
  omega

theorem advanceLiteralDirect_adds {needle : Bytes} {cur : List Interval}
    {s : Progress} (nonempty : needle ≠ []) (fits : needle.length ≤ buf.length)
    (proper : Proper cur) :
    AddsAll ((Elem.bytes needle).Image buf nocase (Covers cur)) s
      (advanceLiteralDirect buf nocase needle cur s) := by
  refine (image_of_steps ?_).addsAll
  intro iv member s
  have ordered := proper iv member
  split
  case isTrue past => exact .nothing rfl rfl (literal_past nonempty past)
  case isFalse within =>
    split
    · exact .flag
    · have inside :
          min iv.2 (buf.length - needle.length) +
            (haystack nocase needle).length ≤
              (haystack nocase buf).length := by
        simp only [length_haystack]
        omega
      have runs := visitAll_reachStarts (l := needle.length)
        (s := s.spend 1) (occurrenceRuns_proper iv.1 inside)
      have added := runs.congr
        (endsOf_image nonempty (occurrenceRuns_positions inside))
      exact ⟨added.toAdds.of_before s rfl rfl, added.stopped⟩

theorem advanceLiteralMemo_adds {needle : Bytes} {cur : List Interval}
    {s : Progress} {occ : OccCache} (nonempty : needle ≠ [])
    (fits : needle.length ≤ buf.length) (proper : Proper cur)
    (valid : occ.Valid buf) :
    AddsAll ((Elem.bytes needle).Image buf nocase (Covers cur)) s
        (advanceLiteralMemo buf nocase needle cur s occ).1 ∧
      (advanceLiteralMemo buf nocase needle cur s occ).2.Valid buf := by
  induction cur generalizing s occ with
  | nil =>
      refine ⟨.nothing rfl id ?_, valid⟩
      rintro p ⟨q, covered, _⟩
      exact covers_nil q covered
  | cons iv cur ih =>
      obtain ⟨ordered, restProper⟩ := (proper_cons iv cur).mp proper
      have split (p : Nat) :
          ((Elem.bytes needle).Image buf nocase
              (fun p => iv.1 ≤ p ∧ p ≤ iv.2) p ∨
            (Elem.bytes needle).Image buf nocase (Covers cur) p) ↔
          (Elem.bytes needle).Image buf nocase (Covers (iv :: cur)) p := by
        simp only [Elem.Image, covers_cons, or_and_right, exists_or]
      rw [advanceLiteralMemo]
      split_ifs with past empty
      · obtain ⟨rest, restValid⟩ := ih (s := s) restProper valid
        refine ⟨rest.congr fun p => ?_, restValid⟩
        rw [← split, or_iff_right (literal_past nonempty past p)]
      · exact ⟨Runs.flag.addsAll, valid⟩
      · have inside : min iv.2 (buf.length - needle.length) +
            needle.length ≤ buf.length := by omega
        have visited := OccCache.visit_spec nocase valid
          (by omega : iv.1 ≤ min iv.2 (buf.length - needle.length)) inside
        cases answer : occ.visit buf needle nocase iv.1
            (min iv.2 (buf.length - needle.length)) with
        | mk occ found =>
            rw [answer] at visited
            cases found with
            | none =>
                exact ⟨advanceLiteralDirect_adds nonempty fits proper,
                  visited.1⟩
            | some runs =>
                obtain ⟨runsProper, starts⟩ := visited.2 runs rfl
                have pushed := (visitAll_reachStarts (l := needle.length)
                  (s := s.spend 1) runsProper).congr
                    (endsOf_image nonempty starts)
                simp only
                cases outcome : visitAll (reachStarts needle.length)
                    (s.spend 1) runs with
                | mk next go =>
                    rw [outcome] at pushed
                    have first := pushed.toAdds.of_before s rfl rfl
                    cases go with
                    | true =>
                        obtain ⟨rest, restValid⟩ :=
                          ih (s := next) restProper visited.1
                        have both := (first.trans rest).of_whole
                          fun unflagged => ⟨rfl, unflagged⟩
                        exact ⟨both.congr split, restValid⟩
                    | false =>
                        have flagged : next.truncated = true :=
                          pushed.stopped rfl
                        refine ⟨first.cut (by simp [flagged]) ?_, visited.1⟩
                        intro p member
                        exact (split p).mp (Or.inl member)

theorem advanceLiteral_adds {needle : Bytes} {cur : List Interval}
    (nocase : Bool) (s : Progress) {occ : OccCache} (nonempty : needle ≠ [])
    (proper : Proper cur) (valid : occ.Valid buf) :
    AddsAll ((Elem.bytes needle).Image buf nocase (Covers cur)) s
        (advanceLiteral buf nocase needle cur s occ).1 ∧
      (advanceLiteral buf nocase needle cur s occ).2.Valid buf := by
  rw [advanceLiteral]
  split
  case isTrue misfit =>
    refine ⟨.nothing rfl id ?_, valid⟩
    rintro p ⟨q, _, steps⟩
    have width := ((Elem.steps_bytes_iff nonempty).mp steps).1
    have inside := steps.inside
    have positive := List.length_pos_iff.mpr nonempty
    omega
  case isFalse misfit =>
    exact advanceLiteralMemo_adds nonempty (by omega) proper valid

private theorem maskedBranch_runs {branch : List (UInt8 × UInt8)}
    {iv : Interval} {s : Progress} (ordered : iv.1 ≤ iv.2)
    (within : iv.1 ≤ buf.length) :
    Runs (fun p => ∃ q, (iv.1 ≤ q ∧ q ≤ iv.2) ∧ p = q + branch.length ∧
        p ≤ buf.length ∧
          maskedEq branch (window buf q branch.length) nocase = true)
      s (maskedBranch buf nocase iv s branch) := by
  rw [maskedBranch]
  split_ifs with empty wide past cut
  · refine (reachPush_runs (by omega)).congr fun p => ?_
    have always : maskedEq branch (window buf p branch.length) nocase =
        true := by
      rw [List.length_eq_zero_iff.mp empty]
      simp [maskedEq, window]
    constructor
    · rintro ⟨lower, upper⟩
      exact ⟨p, ⟨lower, by omega⟩, by omega, by omega, always⟩
    · rintro ⟨q, ⟨lower, upper⟩, rfl, inside, _⟩
      omega
  · refine .nothing rfl rfl ?_
    rintro p ⟨q, _, rfl, inside, _⟩
    omega
  · refine .nothing rfl rfl ?_
    rintro p ⟨q, ⟨lower, upper⟩, rfl, inside, _⟩
    omega
  · exact .flag
  · refine ((pushMatches_runs _ _ _ _ s).congr fun p => ?_).charge _
    constructor
    · rintro ⟨q, lower, upper, passes, rfl⟩
      exact ⟨q, ⟨lower, by omega⟩, rfl, by omega, passes⟩
    · rintro ⟨q, ⟨lower, upper⟩, rfl, inside, passes⟩
      exact ⟨q, lower, by omega, passes, rfl⟩

theorem advanceMaskedAlt_adds {opts : List (List (UInt8 × UInt8))}
    {cur : List Interval} {s : Progress} (proper : Proper cur) :
    AddsAll ((Elem.altMasked opts).Image buf nocase (Covers cur)) s
      (advanceMaskedAlt buf nocase opts cur s) := by
  refine (image_of_steps ?_).addsAll
  intro iv member s
  have ordered := proper iv member
  split
  case isTrue past =>
    refine .nothing rfl rfl ?_
    rintro p ⟨q, ⟨lower, _⟩, steps⟩
    have inside := steps.ordered.trans steps.inside
    omega
  case isFalse within =>
    refine (Runs.visitAll _ fun branch _ s =>
      maskedBranch_runs ordered (by omega)).congr ?_
    intro p
    simp only [Elem.Image, Elem.steps_altMasked_iff]
    constructor
    · rintro ⟨branch, member, q, bounds, here⟩
      exact ⟨q, bounds, branch, member, here⟩
    · rintro ⟨q, bounds, branch, member, here⟩
      exact ⟨branch, member, q, bounds, here⟩

private theorem class_step {tok : Elem} (accepts : UInt8 → Bool) (cost : Nat)
    {iv : Interval} {s : Progress} (within : iv.1 < buf.length)
    (steps : ∀ p q, tok.Steps buf nocase p q ↔
      q = p + 1 ∧ p < buf.length ∧ accepts (byteAt buf p) = true) :
    Runs (tok.Image buf nocase fun p => iv.1 ≤ p ∧ p ≤ iv.2) s
      (charge cost (pushMatches (fun q => accepts (byteAt buf q)) 1 iv.1
        (min iv.2 (buf.length - 1)) (s.spend 1))) := by
  have same (p : Nat) :
      (∃ q, iv.1 ≤ q ∧ q ≤ min iv.2 (buf.length - 1) ∧
        accepts (byteAt buf q) = true ∧ p = q + 1) ↔
      tok.Image buf nocase (fun p => iv.1 ≤ p ∧ p ≤ iv.2) p := by
    simp only [Elem.Image, steps]
    constructor
    · rintro ⟨q, lower, upper, passes, rfl⟩
      exact ⟨q, ⟨lower, by omega⟩, rfl, by omega, passes⟩
    · rintro ⟨q, ⟨lower, upper⟩, rfl, inside, passes⟩
      exact ⟨q, lower, by omega, passes, rfl⟩
  have matched := (pushMatches_runs (fun q => accepts (byteAt buf q)) 1 iv.1
    (min iv.2 (buf.length - 1)) (s.spend 1)).congr same
  exact ⟨(matched.charge cost).toAdds.of_before s rfl rfl,
    (matched.charge cost).stopped⟩

private theorem anyByte_step {iv : Interval} {s : Progress}
    (ordered : iv.1 ≤ iv.2) (within : iv.1 < buf.length) :
    Runs (Elem.anyByte.Image buf nocase fun p => iv.1 ≤ p ∧ p ≤ iv.2) s
      (reachPush (s.spend 1) (iv.1 + 1, min iv.2 (buf.length - 1) + 1)) := by
  have same (p : Nat) :
      (iv.1 + 1 ≤ p ∧ p ≤ min iv.2 (buf.length - 1) + 1) ↔
      Elem.anyByte.Image buf nocase (fun p => iv.1 ≤ p ∧ p ≤ iv.2) p := by
    simp only [Elem.Image, Elem.steps_anyByte_iff]
    constructor
    · rintro ⟨lower, upper⟩
      exact ⟨p - 1, ⟨by omega, by omega⟩, by omega, by omega⟩
    · rintro ⟨q, ⟨lower, upper⟩, rfl, inside⟩
      omega
  have pushed := (reachPush_runs (s := s.spend 1) (by omega)).congr same
  exact ⟨pushed.toAdds.of_before s rfl rfl, pushed.stopped⟩

/-- The elements `advanceClass` handles. -/
def Elem.SingleByte : Elem → Prop
  | .anyByte | .hiNibble _ | .loNibble _ => True
  | _ => False

theorem advanceClass_adds {tok : Elem} {cur : List Interval} {s : Progress}
    (single : tok.SingleByte) (formed : tok.WellFormed) (proper : Proper cur) :
    AddsAll (tok.Image buf nocase (Covers cur)) s
      (advanceClass buf tok cur s) := by
  have width : ∀ p q, tok.Steps buf nocase p q → q = p + 1 := by
    intro p q steps
    cases tok with
    | anyByte => exact (Elem.steps_anyByte_iff.mp steps).1
    | hiNibble h => exact (Elem.steps_hiNibble_iff.mp steps).1
    | loNibble l => exact (Elem.steps_loNibble_iff.mp steps).1
    | _ => exact single.elim
  refine (image_of_steps ?_).addsAll
  intro iv member s
  have ordered := proper iv member
  rw [classStep]
  split_ifs with past empty
  · refine .nothing rfl rfl ?_
    rintro p ⟨q, ⟨lower, _⟩, steps⟩
    have inside := steps.inside
    have width := width q p steps
    omega
  · exact .flag
  · cases tok with
    | anyByte => exact anyByte_step ordered (by omega)
    | hiNibble h =>
        have formed : h < 16 := formed
        simp only [hiNibble_test formed]
        refine class_step (fun b => b >>> 4 == h) _ (by omega) ?_
        intro p q
        simp only [Elem.steps_hiNibble_iff, beq_iff_eq]
    | loNibble l =>
        refine class_step (fun b => b &&& 0x0f == l) _ (by omega) ?_
        intro p q
        simp only [Elem.steps_loNibble_iff, beq_iff_eq]
    | _ => exact single.elim

/-- The holes of a negated alternation over one interval. -/
theorem excludedEnds_runs {opts : List Bytes} {l : Nat} (nocase : Bool)
    (lo : Nat) {qmax : Nat} (s : Progress)
    (widths : ∀ o ∈ opts, o.length = l) (inside : qmax + l ≤ buf.length) :
    Runs (fun p => ∃ o ∈ opts, ∃ q, lo ≤ q ∧ q ≤ qmax ∧ p = q + l ∧
        occursAt (haystack nocase buf) (haystack nocase o) q = true)
      { s with out := [] } (excludedEnds buf nocase opts l lo qmax s) := by
  refine Runs.visitAll _ ?_
  intro o member s
  have fits : qmax + (haystack nocase o).length ≤
      (haystack nocase buf).length := by
    simpa [widths o member] using inside
  refine (Runs.visitAll (fun iv p => iv.1 + l ≤ p ∧ p ≤ iv.2 + l)
    ?_).congr ?_
  · intro iv inRuns s
    have ordered := occurrenceRuns_proper lo fits iv inRuns
    exact reachPush_runs (by omega)
  · intro p
    rw [← endsOf_iff, endsOf, occurrenceRuns_positions fits]
    simp only [mem_occurrences]
    constructor
    · rintro ⟨q, ⟨lower, upper, occurs⟩, rfl⟩
      exact ⟨q, lower, upper, rfl, occurs⟩
    · rintro ⟨q, lower, upper, rfl, occurs⟩
      exact ⟨q, ⟨lower, upper, occurs⟩, rfl⟩

/-- An interval moved on past the windows that match an option. -/
private theorem carved_image {opts : List Bytes} {l : Nat} {iv : Interval}
    {holes : List Interval} (nonempty : opts ≠ [])
    (widths : ∀ o ∈ opts, o.length = l) (fits : l ≤ buf.length)
    (excluded : ∀ p, Covers holes p ↔ ∃ o ∈ opts, ∃ q, iv.1 ≤ q ∧
      q ≤ min iv.2 (buf.length - l) ∧ p = q + l ∧
        occursAt (haystack nocase buf) (haystack nocase o) q = true)
    (p : Nat) :
    (iv.1 + l ≤ p ∧ p ≤ min iv.2 (buf.length - l) + l ∧ ¬Covers holes p) ↔
      (Elem.alt opts true).Image buf nocase
        (fun p => iv.1 ≤ p ∧ p ≤ iv.2) p := by
  simp only [Elem.Image, Elem.steps_neg_iff nonempty widths, excluded]
  constructor
  · rintro ⟨lower, upper, outside⟩
    refine ⟨p - l, ⟨by omega, by omega⟩, by omega, by omega, ?_⟩
    intro o member
    cases occurs : occursAt (haystack nocase buf) (haystack nocase o)
      (p - l) with
    | false => rfl
    | true =>
        exact (outside ⟨o, member, p - l, by omega, by omega, by omega,
          occurs⟩).elim
  · rintro ⟨q, ⟨lower, upper⟩, rfl, inside, differs⟩
    refine ⟨by omega, by omega, ?_⟩
    rintro ⟨o, member, r, _, _, same, occurs⟩
    have here : r = q := by omega
    rw [here, differs o member] at occurs
    cases occurs

theorem advanceNegAlt_adds {opts : List Bytes} {cur : List Interval}
    {s : Progress} (formed : (Elem.alt opts true).WellFormed)
    (proper : Proper cur) :
    AddsAll ((Elem.alt opts true).Image buf nocase (Covers cur)) s
      (advanceNegAlt buf nocase opts cur s) := by
  obtain ⟨nonempty, equalWidths⟩ := formed
  obtain ⟨l, positive, widths⟩ := equalWidths rfl
  have first : (opts.head?.map List.length).getD 0 = l := by
    cases opts with
    | nil => exact (nonempty rfl).elim
    | cons o opts => exact widths o (by simp)
  have steps_iff (p q : Nat) :
      (Elem.alt opts true).Steps buf nocase p q ↔ _ :=
    Elem.steps_neg_iff nonempty widths
  rw [advanceNegAlt]
  simp only [first]
  split
  case isTrue misfit =>
    refine .nothing rfl id ?_
    rintro p ⟨q, _, steps⟩
    have parts := (steps_iff q p).mp steps
    omega
  case isFalse fits =>
    refine (image_of_steps ?_).addsAll
    intro iv member s
    have ordered := proper iv member
    rw [negAltStep]
    split_ifs with past empty
    · refine .nothing rfl rfl ?_
      rintro p ⟨q, ⟨lower, _⟩, steps⟩
      have parts := (steps_iff q p).mp steps
      omega
    · exact .flag
    · have inside : min iv.2 (buf.length - l) + l ≤ buf.length := by omega
      have holes := excludedEnds_runs nocase iv.1 (s.spend 1) widths inside
      cases outcome : excludedEnds buf nocase opts l iv.1
          (min iv.2 (buf.length - l)) (s.spend 1) with
      | mk e go =>
          rw [outcome] at holes
          cases go with
          | false =>
              have flagged := holes.stopped rfl
              have unchanged : Adds True (fun _ => False) s
                  { e with out := s.out } :=
                .nothing rfl (fun _ => flagged) fun _ => id
              exact ⟨unchanged.cut (by simp) fun _ => False.elim,
                fun _ => flagged⟩
          | true =>
              have eProper := holes.proper proper_nil
              have excluded (p : Nat) :
                  Covers (coalesce e.out) p ↔ ∃ o ∈ opts, ∃ q, iv.1 ≤ q ∧
                    q ≤ min iv.2 (buf.length - l) ∧ p = q + l ∧
                      occursAt (haystack nocase buf) (haystack nocase o) q =
                        true := by
                rw [coalesce_covers eProper]
                constructor
                · intro covered
                  exact (holes.sound proper_nil p covered).resolve_left
                    (covers_nil p)
                · exact holes.complete proper_nil rfl p
              have within : ∀ hole ∈ coalesce e.out, iv.1 + l ≤ hole.1 ∧
                  hole.2 ≤ min iv.2 (buf.length - l) + l := by
                intro hole member
                have ordered := coalesce_proper eProper hole member
                obtain ⟨_, _, q, lower, _, same, _⟩ :=
                  (excluded hole.1).mp ⟨hole, member, le_rfl, ordered⟩
                obtain ⟨_, _, r, _, upper, sameEnd, _⟩ :=
                  (excluded hole.2).mp ⟨hole, member, ordered, le_rfl⟩
                omega
              obtain ⟨carvedProper, carved⟩ := carve_spec
                (coalesce_separated eProper) (coalesce_proper eProper) within
              set start : Progress := { e.spend ((coalesce e.out).map
                fun iv => iv.2 - iv.1 + 1).sum with out := s.out }
              have pushed := visitAll_reachPush (s := start) carvedProper
              have began : Adds True (fun _ => False) s start :=
                .nothing rfl holes.flagged fun _ => id
              refine ⟨((began.trans pushed.toAdds).of_whole
                fun finished => ⟨trivial, finished⟩).congr ?_, pushed.stopped⟩
              intro p
              rw [false_or, carved,
                carved_image nonempty widths (by omega) excluded]

/-! ## One element over a set -/

/-- Where the simulator takes a set across one element.  A gap is read over
stretches of consecutive positions: from `lo..=hi` it leads anywhere between
`lo + min` and `hi + max`. -/
def Elem.Spreads (buf : Bytes) (nocase : Bool) (tok : Elem)
    (positions : Nat → Prop) (q : Nat) : Prop :=
  match tok with
  | .gap min max => ∃ lo hi, lo ≤ hi ∧
      (∀ p, lo ≤ p → p ≤ hi → positions p) ∧ lo + min ≤ q ∧
        (∀ m ∈ max, q ≤ hi + m) ∧ q ≤ buf.length
  | tok => tok.Image buf nocase positions q

theorem Elem.Image.spreads {tok : Elem} {positions : Nat → Prop} {q : Nat}
    (image : tok.Image buf nocase positions q) :
    tok.Spreads buf nocase positions q := by
  cases tok with
  | gap min max =>
      obtain ⟨p, member, steps⟩ := image
      refine ⟨p, p, le_rfl, ?_, Elem.steps_gap_iff.mp steps⟩
      intro r above below
      rwa [show r = p by omega]
  | _ => exact image

theorem Elem.Spreads.image {tok : Elem} {positions : Nat → Prop} {q : Nat}
    (upright : ¬tok.Inverted) (spreads : tok.Spreads buf nocase positions q) :
    tok.Image buf nocase positions q := by
  cases tok with
  | gap min max =>
      obtain ⟨lo, hi, ordered, run, longEnough, shortEnough, inside⟩ := spreads
      cases max with
      | none =>
          refine ⟨lo, run lo le_rfl ordered, Elem.steps_gap_iff.mpr ?_⟩
          exact ⟨longEnough, by simp, inside⟩
      | some max =>
          have bounds : min ≤ max := Nat.not_lt.mp upright
          have below : q ≤ hi + max := shortEnough max rfl
          by_cases near : q ≤ lo + max
          · refine ⟨lo, run lo le_rfl ordered, Elem.steps_gap_iff.mpr ?_⟩
            refine ⟨longEnough, ?_, inside⟩
            rintro m ⟨⟩
            exact near
          · refine ⟨q - max, run _ (by omega) (by omega),
              Elem.steps_gap_iff.mpr ?_⟩
            refine ⟨by omega, ?_, inside⟩
            rintro m ⟨⟩
            omega
  | _ => exact spreads

theorem Elem.Spreads.mono {tok : Elem} {positions wider : Nat → Prop} {q : Nat}
    (spreads : tok.Spreads buf nocase positions q)
    (subset : ∀ p, positions p → wider p) :
    tok.Spreads buf nocase wider q := by
  cases tok with
  | gap min max =>
      obtain ⟨lo, hi, ordered, run, rest⟩ := spreads
      exact ⟨lo, hi, ordered, fun p above below => subset p (run p above below),
        rest⟩
  | _ =>
      obtain ⟨p, member, steps⟩ := spreads
      exact ⟨p, subset p member, steps⟩

theorem Elem.Spreads.inside {tok : Elem} {positions : Nat → Prop} {q : Nat}
    (spreads : tok.Spreads buf nocase positions q) : q ≤ buf.length := by
  cases tok with
  | gap min max =>
      obtain ⟨lo, hi, _, _, _, _, inside⟩ := spreads
      exact inside
  | _ =>
      obtain ⟨p, _, steps⟩ := spreads
      exact steps.inside

/-- A reachable set as the simulator keeps it between elements. -/
structure Reachable (buf : Bytes) (cur : List Interval) : Prop where
  proper : Proper cur
  separated : Separated cur
  inside : ∀ p, Covers cur p → p ≤ buf.length

private theorem gapWindow_ordered {min n : Nat} {max : Option Nat}
    {iv window : Interval} (kept : gapWindow min max n iv = some window) :
    window.1 ≤ window.2 := by
  simp only [gapWindow, Option.ite_none_right_eq_some, Option.some.injEq]
    at kept
  obtain ⟨⟨_, ordered⟩, rfl⟩ := kept
  exact ordered

private theorem gapWindow_covers {min n q : Nat} {max : Option Nat}
    {iv window : Interval} (kept : gapWindow min max n iv = some window) :
    (window.1 ≤ q ∧ q ≤ window.2) ↔
      iv.1 + min ≤ q ∧ (∀ m ∈ max, q ≤ iv.2 + m) ∧ q ≤ n := by
  simp only [gapWindow, Option.ite_none_right_eq_some, Option.some.injEq]
    at kept
  obtain ⟨_, rfl⟩ := kept
  cases max with
  | none => simp
  | some m => simp

private theorem gapWindow_exists {min n q : Nat} {max : Option Nat}
    {iv : Interval}
    (within : iv.1 + min ≤ q ∧ (∀ m ∈ max, q ≤ iv.2 + m) ∧ q ≤ n) :
    ∃ window, gapWindow min max n iv = some window := by
  obtain ⟨lower, upper, inside⟩ := within
  simp only [gapWindow, Option.ite_none_right_eq_some, Option.some.injEq]
  cases max with
  | none => exact ⟨_, ⟨by omega, by dsimp only; omega⟩, rfl⟩
  | some m =>
      have bounded : q ≤ iv.2 + m := upper m rfl
      exact ⟨_, ⟨by omega, by dsimp only; omega⟩, rfl⟩

theorem reachable_interval {lo hi : Nat} (ordered : lo ≤ hi)
    (inside : hi ≤ buf.length) : Reachable buf [(lo, hi)] := by
  refine ⟨by simpa using ordered, separated_singleton _, ?_⟩
  intro p covered
  simp only [covers_cons, covers_nil, or_false] at covered
  omega

theorem leftmostStart_le (toks : List Elem) (stop : Nat) :
    leftmostStart toks stop ≤ stop := by
  rw [leftmostStart]
  split
  · exact Nat.sub_le ..
  · exact Nat.zero_le _

theorem advanceGap_spec {cur : List Interval} {min : Nat} {max : Option Nat}
    (nocase : Bool) (reachable : Reachable buf cur) :
    Reachable buf (advanceGap cur min max buf.length) ∧
      ∀ q, Covers (advanceGap cur min max buf.length) q ↔
        (Elem.gap min max).Spreads buf nocase (Covers cur) q := by
  set windows := cur.filterMap (gapWindow min max buf.length) with windowsDef
  have proper : Proper windows := by
    intro window member
    obtain ⟨iv, _, kept⟩ := List.mem_filterMap.mp member
    exact gapWindow_ordered kept
  have spreads (q : Nat) : Covers (advanceGap cur min max buf.length) q ↔
      (Elem.gap min max).Spreads buf nocase (Covers cur) q := by
    rw [advanceGap, coalesce_covers proper]
    constructor
    · rintro ⟨window, member, bounds⟩
      obtain ⟨iv, source, kept⟩ := List.mem_filterMap.mp member
      exact ⟨iv.1, iv.2, reachable.proper iv source,
        fun p lower upper => ⟨iv, source, lower, upper⟩,
        (gapWindow_covers kept).mp bounds⟩
    · rintro ⟨lo, hi, ordered, run, longEnough, shortEnough, inside⟩
      -- The stretch lies in one interval, since they are kept apart.
      obtain ⟨iv, source, lower, upper⟩ :=
        reachable.separated.exists_of_run ordered run
      have within : iv.1 + min ≤ q ∧ (∀ m ∈ max, q ≤ iv.2 + m) ∧
          q ≤ buf.length := by
        refine ⟨by omega, ?_, inside⟩
        intro m bound
        have bounded := shortEnough m bound
        omega
      obtain ⟨window, kept⟩ := gapWindow_exists within
      exact ⟨window, List.mem_filterMap.mpr ⟨iv, source, kept⟩,
        (gapWindow_covers kept).mpr within⟩
  refine ⟨⟨coalesce_proper proper, coalesce_separated proper, ?_⟩, spreads⟩
  intro p covered
  exact ((spreads p).mp covered).inside

/-- What one element makes of a reachable set: nothing beyond where it spreads,
and all of that unless the scan is flagged. -/
structure Advances (buf : Bytes) (nocase : Bool) (tok : Elem)
    (cur : List Interval) (pools : Pools) (after : List Interval × Pools) :
    Prop where
  reachable : Reachable buf after.1
  valid : after.2.occ.Valid buf
  flagged : pools.truncated = true → after.2.truncated = true
  sound : ∀ q, Covers after.1 q → tok.Spreads buf nocase (Covers cur) q
  complete : after.2.truncated = false → ∀ q,
    tok.Spreads buf nocase (Covers cur) q → Covers after.1 q

private theorem Advances.of_addsAll {tok : Elem} {cur : List Interval}
    {pools : Pools} {s : Progress} {occ : OccCache}
    (adds : AddsAll (tok.Image buf nocase (Covers cur))
      ⟨[], pools.budget, false⟩ s)
    (upright : ¬tok.Inverted) (valid : occ.Valid buf) :
    Advances buf nocase tok cur pools (coalesce s.out,
      ⟨s.budget, pools.truncated || s.truncated, occ⟩) := by
  have proper := adds.proper proper_nil
  have sound (q : Nat) (covered : Covers (coalesce s.out) q) :
      tok.Spreads buf nocase (Covers cur) q := by
    rw [coalesce_covers proper] at covered
    exact ((adds.sound proper_nil q covered).resolve_left
      (covers_nil q)).spreads
  refine ⟨⟨coalesce_proper proper, coalesce_separated proper, ?_⟩, valid,
    by simp +contextual, sound, ?_⟩
  · intro q covered
    exact (sound q covered).inside
  · intro unflagged q spreads
    rw [coalesce_covers proper]
    exact adds.complete proper_nil (Bool.or_eq_false_iff.mp unflagged).2 q
      (spreads.image upright)

theorem advanceBranch_adds {cur : List Interval} (nocase : Bool)
    (o : Bytes) {state : Progress × OccCache} (reachable : Reachable buf cur)
    (valid : state.2.Valid buf) :
    AddsAll ((Elem.alt [o] false).Image buf nocase (Covers cur)) state.1
        (advanceBranch buf nocase cur state o).1 ∧
      (advanceBranch buf nocase cur state o).2.Valid buf := by
  have image_iff (q : Nat) :
      (Elem.alt [o] false).Image buf nocase (Covers cur) q ↔ ∃ p,
        Covers cur p ∧ q = p + o.length ∧ q ≤ buf.length ∧
          occursAt (haystack nocase buf) (haystack nocase o) p = true := by
    simp only [Elem.Image, Elem.steps_alt_iff, List.mem_singleton,
      exists_eq_left]
  rw [advanceBranch]
  split
  case isTrue empty =>
    subst o
    refine ⟨⟨id, ?_, ?_, ?_, ?_⟩, valid⟩
    · exact fun proper => reachable.proper.reverse.append proper
    · intro _ q covered
      rcases (covers_append _ _ q).mp covered with here | there
      · right
        rw [covers_reverse] at here
        refine (image_iff q).mpr ⟨q, here, rfl, reachable.inside q here, ?_⟩
        rw [occursAt_iff_getElem?]
        simp
      · exact Or.inl there
    · intro _ q covered
      exact (covers_append _ _ q).mpr (Or.inr covered)
    · intro _ _ q image
      obtain ⟨p, covered, same, _⟩ := (image_iff q).mp image
      rw [List.length_nil, Nat.add_zero] at same
      subst q
      exact (covers_append _ _ p).mpr (Or.inl ((covers_reverse _ p).mpr covered))
  case isFalse nonempty =>
    obtain ⟨adds, afterValid⟩ :=
      advanceLiteral_adds nocase state.1 nonempty reachable.proper valid
    refine ⟨adds.congr ?_, afterValid⟩
    intro q
    rw [image_iff]
    simp only [Elem.Image]
    constructor
    · rintro ⟨p, covered, steps⟩
      have parts := (Elem.steps_bytes_iff nonempty).mp steps
      exact ⟨p, covered, parts.1, steps.inside, parts.2⟩
    · rintro ⟨p, covered, same, _, occurs⟩
      exact ⟨p, covered, (Elem.steps_bytes_iff nonempty).mpr ⟨same, occurs⟩⟩

/-- The branches of an alternation, one after the other. -/
theorem branches_adds {cur : List Interval} (nocase : Bool)
    (opts : List Bytes) {state : Progress × OccCache}
    (reachable : Reachable buf cur) (valid : state.2.Valid buf) :
    AddsAll ((Elem.alt opts false).Image buf nocase (Covers cur)) state.1
        (opts.foldl (advanceBranch buf nocase cur) state).1 ∧
      (opts.foldl (advanceBranch buf nocase cur) state).2.Valid buf := by
  induction opts generalizing state with
  | nil =>
      refine ⟨.nothing rfl id ?_, valid⟩
      rintro q ⟨p, _, steps⟩
      obtain ⟨o, member, _⟩ := Elem.steps_alt_iff.mp steps
      cases member
  | cons o opts ih =>
      obtain ⟨first, firstValid⟩ := advanceBranch_adds nocase o reachable valid
      obtain ⟨rest, restValid⟩ := ih firstValid
      refine ⟨(AddsAll.trans first rest).congr ?_, restValid⟩
      intro q
      simp only [Elem.Image, Elem.steps_alt_iff, List.mem_cons,
        List.not_mem_nil, or_false, exists_eq_left, exists_eq_or_imp,
        and_or_left, exists_or]

/-- Each element leads exactly where it spreads. -/
theorem advance_spec {tok : Elem} {cur : List Interval} {pools : Pools}
    (nocase : Bool) (formed : tok.WellFormed) (reachable : Reachable buf cur)
    (valid : pools.occ.Valid buf) :
    Advances buf nocase tok cur pools (advance buf nocase tok cur pools) := by
  cases tok with
  | bytes b =>
      obtain ⟨adds, after⟩ := advanceLiteral_adds nocase
        ⟨[], pools.budget, false⟩ formed reachable.proper valid
      exact .of_addsAll adds id after
  | anyByte =>
      exact .of_addsAll (advanceClass_adds trivial formed reachable.proper)
        id valid
  | hiNibble h =>
      exact .of_addsAll (advanceClass_adds trivial formed reachable.proper)
        id valid
  | loNibble l =>
      exact .of_addsAll (advanceClass_adds trivial formed reachable.proper)
        id valid
  | gap min max =>
      obtain ⟨next, spreads⟩ := advanceGap_spec nocase reachable
      exact ⟨next, valid, id, fun q => (spreads q).mp,
        fun _ q => (spreads q).mpr⟩
  | alt opts neg =>
      cases neg with
      | false =>
          have start : (Progress.mk [] pools.budget false,
              pools.occ).2.Valid buf := valid
          obtain ⟨adds, after⟩ := branches_adds nocase opts reachable start
          exact .of_addsAll adds id after
      | true =>
          exact .of_addsAll (advanceNegAlt_adds formed reachable.proper)
            id valid
  | altMasked opts =>
      exact .of_addsAll (advanceMaskedAlt_adds reachable.proper) id valid

end

end Exav.Engine
