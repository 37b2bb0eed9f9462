import Exav.Engine.Scan

/-!
# The first match is the first of all matches

`scanFirst` and `scanAll` run over the same matches.  As long as the first has
found nothing, every name the second has collected is ignored; what it
collects once the first stops comes after the detection the first returns.
-/

namespace Exav.Engine

open Exav.Visit

namespace Collected

structure Passed (ignored : String → Bool) (c : Collected) : Prop where
  seen_eq : c.seen = c.out.map Detection.name
  ignored_of_mem : ∀ d ∈ c.out, ignored d.name = true

variable {ignored : String → Bool}

theorem Passed.find?_eq_none {c : Collected} (passed : c.Passed ignored) :
    c.out.find? (fun d => !ignored d.name) = none := by
  apply List.find?_eq_none.mpr
  intro d member
  simp [passed.ignored_of_mem d member]

theorem out_prefix_push (c : Collected) (d : Detection) :
    c.out <+: (c.push d).out := by
  unfold push
  split
  · exact List.prefix_rfl
  · exact List.prefix_append _ _

theorem Passed.push {c : Collected} {d : Detection}
    (passed : c.Passed ignored) (skipped : ignored d.name = true) :
    (c.push d).Passed ignored := by
  unfold Collected.push
  split
  · exact passed
  · constructor
    · simp [passed.seen_eq]
    · intro e member
      rcases List.mem_append.mp member with before | last
      · exact passed.ignored_of_mem e before
      · cases List.mem_singleton.mp last
        exact skipped

theorem Passed.find?_push {c : Collected} {d : Detection}
    (passed : c.Passed ignored) (kept : ignored d.name = false) :
    (c.push d).out.find? (fun d => !ignored d.name) = some d := by
  have fresh : d.name ∉ c.seen := by
    intro seen
    rw [passed.seen_eq] at seen
    rcases List.mem_map.mp seen with ⟨e, member, same⟩
    have skipped := passed.ignored_of_mem e member
    rw [same, kept] at skipped
    cases skipped
  rw [Collected.push, if_neg fresh, List.find?_append, passed.find?_eq_none]
  simp [kept]

/-- What a first-match scan has found, beside what an all-matches scan has
collected by then. -/
def Agrees (ignored : String → Bool) : Option Detection → Collected → Prop
  | some d, c => c.out.find? (fun d => !ignored d.name) = some d
  | none, c => c.Passed ignored

theorem Agrees.find? {hit : Option Detection} {c : Collected}
    (agrees : Agrees ignored hit c) :
    hit = c.out.find? fun d => !ignored d.name := by
  cases hit with
  | none => exact agrees.find?_eq_none.symm
  | some d => exact agrees.symm

/-- A detection found stays the first one. -/
theorem Agrees.grow {d : Detection} {c c' : Collected}
    (agrees : Agrees ignored (some d) c) (grows : c.out <+: c'.out) :
    Agrees ignored (some d) c' :=
  List.IsPrefix.find?_eq_some grows agrees

end Collected

open Collected

section

variable (eng : SigEngine) (obj : Object)

/-! ## Collecting only adds -/

theorem out_prefix_collectMatch (state : Collected × Scratch) (e : Event) :
    state.1.out <+: (collectMatch eng state e).1.1.out := by
  unfold collectMatch
  split
  · exact out_prefix_push _ _
  · exact List.prefix_rfl
  · exact List.prefix_rfl

theorem out_prefix_collectMatches (state : Collected × Scratch)
    (events : List Event) :
    state.1.out <+: (visitAll (collectMatch eng) state events).1.1.out := by
  apply visitAll_induct
    (motive := fun later : Collected × Scratch => state.1.out <+: later.1.out)
  · intro e _ later grown
    exact grown.trans (out_prefix_collectMatch eng later e)
  · exact List.prefix_rfl

theorem out_prefix_collectLdb (sc : Scratch) (c : Collected) (li : Nat) :
    c.out <+: (collectLdb eng obj sc c li).out := by
  unfold collectLdb
  repeat' split
  all_goals first
    | exact List.prefix_rfl
    | exact out_prefix_push _ _

theorem out_prefix_collectLdbs (sc : Scratch) (c : Collected)
    (cands : List Nat) :
    c.out <+: (cands.foldl (collectLdb eng obj sc) c).out := by
  induction cands generalizing c with
  | nil => exact List.prefix_rfl
  | cons li cands ih =>
      exact (out_prefix_collectLdb eng obj sc c li).trans (ih _)

/-! ## The walk -/

variable {ignored : String → Bool}

/-- One match leaves the two scans in agreement, and the first goes on only
without a detection. -/
theorem firstMatch_agrees {c : Collected} (sc : Scratch) (e : Event)
    (passed : c.Passed ignored) :
    let first := firstMatch eng (fun name _ => ignored name) (none, sc) e
    let all := collectMatch eng (c, sc) e
    Agrees ignored first.1.1 all.1.1 ∧ all.2 = true ∧
      (first.2 = true → first.1 = (none, all.1.2)) ∧
      (first.2 = false → first.1.1.isSome) := by
  simp only [firstMatch, collectMatch]
  cases (eng.bodies[e.body]?).map Body.owner with
  | none => exact ⟨passed, rfl, fun _ => rfl, by simp⟩
  | some owner =>
      cases owner with
      | ldbSub => exact ⟨passed, rfl, fun _ => rfl, by simp⟩
      | ndb name unofficial =>
          cases skipped : ignored name with
          | true =>
              simp only [skipped, if_true]
              exact ⟨passed.push skipped, trivial, fun _ => trivial, by simp⟩
          | false =>
              simp only [skipped, Bool.false_eq_true, if_false]
              exact ⟨passed.find?_push skipped, trivial, by simp, by simp⟩

/-- After the walk the two scans agree, and have counted the same matches
unless the first has its detection. -/
theorem firstMatches_agree {c : Collected} (sc : Scratch)
    (events : List Event) (passed : c.Passed ignored) :
    let first := (visitAll (firstMatch eng fun name _ => ignored name)
      (none, sc) events).1
    let all := (visitAll (collectMatch eng) (c, sc) events).1
    Agrees ignored first.1 all.1 ∧ (first.1 = none → first.2 = all.2) := by
  induction events generalizing c sc with
  | nil => exact ⟨passed, fun _ => rfl⟩
  | cons e events ih =>
      have step := firstMatch_agrees eng sc e passed
      dsimp only at step ih ⊢
      rcases step with ⟨agrees, goes, next, stops⟩
      rw [visitAll_cons, visitAll_cons, if_pos goes]
      cases go : (firstMatch eng (fun name _ => ignored name) (none, sc)
          e).2 with
      | true =>
          have same := next go
          rw [same] at agrees
          rw [if_pos rfl, same]
          exact ih (c := (collectMatch eng (c, sc) e).1.1) _ agrees
      | false =>
          have found := stops go
          rcases Option.isSome_iff_exists.mp found with ⟨d, hit⟩
          rw [hit] at agrees
          simp only [Bool.false_eq_true, if_false, hit]
          refine ⟨agrees.grow ?_, by simp⟩
          exact out_prefix_collectMatches eng _ events

/-! ## The logical signatures -/

/-- The detection a logical signature is, after the walk. -/
def ldbDetection (sc : Scratch) (li : Nat) : Option Detection :=
  match eng.ldbs[li]? with
  | none => none
  | some l =>
      if l.gatesOk obj ∧ l.bytecode = none ∧ l.handlerType = none ∧
          evalLdb eng obj sc l then
        some ⟨l.name, 0, l.unofficial⟩
      else none

/-- Beside its detection a signature adds to the bytecode triggers and the
re-type only. -/
theorem collectLdb_eq (sc : Scratch) (c : Collected) (li : Nat) :
    ∃ fired retype, collectLdb eng obj sc c li =
      { (match ldbDetection eng obj sc li with
          | some d => c.push d
          | none => c) with fired := fired, retype := retype } := by
  unfold collectLdb ldbDetection
  cases eng.ldbs[li]? with
  | none => exact ⟨_, _, rfl⟩
  | some l =>
      dsimp only
      by_cases gates : l.gatesOk obj = true
      · cases l.bytecode with
        | some program =>
            cases c.fired <;> by_cases holds : evalLdb eng obj sc l = true <;>
              simp [gates, holds] <;> exact ⟨_, _, rfl⟩
        | none =>
            cases l.handlerType <;>
              by_cases holds : evalLdb eng obj sc l = true <;>
                simp [gates, holds] <;> exact ⟨_, _, rfl⟩
      · simp [gates]
        exact ⟨_, _, rfl⟩

theorem firstLdb_cons (skip : String → Bool → Bool) (sc : Scratch) (li : Nat)
    (cands : List Nat) (a : Aside) :
    ∃ b, firstLdb eng obj skip sc (li :: cands) a =
      match ldbDetection eng obj sc li with
      | some d =>
          if skip d.name d.unofficial then firstLdb eng obj skip sc cands b
          else (some d, b)
      | none => firstLdb eng obj skip sc cands b := by
  rw [firstLdb]
  unfold ldbDetection
  cases eng.ldbs[li]? with
  | none => exact ⟨a, rfl⟩
  | some l =>
      dsimp only
      by_cases gates : l.gatesOk obj = true
      · cases l.bytecode with
        | some program =>
            cases a.fired <;> by_cases holds : evalLdb eng obj sc l = true <;>
              simp [gates, holds]
        | none =>
            cases l.handlerType <;>
              by_cases holds : evalLdb eng obj sc l = true <;>
                simp [gates, holds]
            exact ⟨_, rfl⟩
      · simp [gates]

theorem firstLdb_agrees {c : Collected} (sc : Scratch) (cands : List Nat)
    (a : Aside) (passed : c.Passed ignored) :
    Agrees ignored
      (firstLdb eng obj (fun name _ => ignored name) sc cands a).1
      (cands.foldl (collectLdb eng obj sc) c) := by
  induction cands generalizing c a with
  | nil => exact passed
  | cons li cands ih =>
      rcases firstLdb_cons eng obj (fun name _ => ignored name) sc li cands a
        with ⟨b, first⟩
      rcases collectLdb_eq eng obj sc c li with ⟨fired, retype, all⟩
      rw [List.foldl_cons, first, all]
      cases ldbDetection eng obj sc li with
      | none => exact ih b ⟨passed.seen_eq, passed.ignored_of_mem⟩
      | some d =>
          cases skipped : ignored d.name with
          | true =>
              have later := passed.push skipped
              simp only [skipped, if_true]
              exact ih b ⟨later.seen_eq, later.ignored_of_mem⟩
          | false =>
              have found : Agrees ignored (some d) (c.push d) :=
                passed.find?_push skipped
              simp only [skipped, Bool.false_eq_true, if_false]
              apply found.grow
              exact out_prefix_collectLdbs eng obj sc
                { c.push d with fired := fired, retype := retype } cands

/-! ## Both scans -/

theorem scanFirstFrom_agrees (wantFirst wantAll : Bool)
    (events : List Event) :
    Agrees ignored
      (scanFirstFrom eng obj (fun name _ => ignored name) wantFirst events).1
      (scanAllFrom eng obj wantAll events) := by
  have passed : Passed ignored
      ⟨[], [], if wantAll then some [] else none, none⟩ :=
    ⟨rfl, by simp⟩
  have walked := firstMatches_agree eng Scratch.new events passed
  dsimp only at walked
  rcases walked with ⟨agrees, counted⟩
  unfold scanFirstFrom scanAllFrom
  dsimp only
  rcases first : (visitAll (firstMatch eng fun name _ => ignored name)
    (none, Scratch.new) events).1 with ⟨hit, sc⟩
  rw [first] at agrees counted
  cases hit with
  | some d => exact agrees.grow (out_prefix_collectLdbs eng obj _ _ _)
  | none =>
      have same : sc = _ := counted rfl
      rw [same]
      exact firstLdb_agrees eng obj _ _ _ agrees

/-- The first match that is not ignored is the first entry of all matches whose
name is not ignored; with nothing ignored it is the first entry. -/
theorem scanFirst_eq_first_of_scanAll (budget : Budget)
    (wantFirst wantAll : Bool) (swept : List Report) :
    scanFirst eng obj (fun _ _ => false) budget wantFirst swept =
        (scanAll eng obj budget wantAll swept).out.head? ∧
      ∀ ignored : String → Bool,
        scanFirst eng obj (fun name _ => ignored name) budget wantFirst swept =
          (scanAll eng obj budget wantAll swept).out.find?
            fun d => !ignored d.name := by
  have found : ∀ ignored : String → Bool,
      scanFirst eng obj (fun name _ => ignored name) budget wantFirst swept =
        (scanAll eng obj budget wantAll swept).out.find?
          fun d => !ignored d.name := by
    intro ignored
    exact (scanFirstFrom_agrees eng obj wantFirst wantAll _).find?
  refine ⟨?_, found⟩
  rw [found fun _ => false]
  cases (scanAll eng obj budget wantAll swept).out <;> rfl

end

/-!
## What a scan evaluates

The logical signatures are evaluated over the counts of their own bodies, and
only those among the candidates that pass their gates and hold change what is
collected.
-/

/-! ## Evaluation reads the signature's own bodies -/

namespace Ldb

variable {l : Ldb}

private theorem mem_bodyIds {i : Nat} {ids : List Nat} {b : Nat}
    (sub : l.subs[i]? = some (.bodies ids)) (member : b ∈ ids) :
    b ∈ l.bodyIds :=
  List.mem_flatMap.mpr ⟨_, List.mem_of_getElem? sub, member⟩

theorem bodyCounts_congr {count count' : Nat → Nat}
    (agree : ∀ b ∈ l.bodyIds, count b = count' b) :
    l.bodyCounts count = l.bodyCounts count' := by
  funext i
  unfold bodyCounts
  split
  case h_1 ids sub =>
      unfold totalCount
      apply List.foldl_ext
      intro total b member
      rw [agree b (mem_bodyIds sub member)]
  case h_2 => rfl

theorem evalSub_congr {buf : Bytes} {off off' : Nat → Option Nat}
    {imgHash : Option UInt64}
    (agree : ∀ b ∈ l.bodyIds, off b = off' b) :
    l.evalSub buf off imgHash = l.evalSub buf off' imgHash := by
  funext c item
  obtain ⟨s, i⟩ := item
  cases s with
  | bcomp b =>
      simp only [evalSub]
      split
      · cases trigger : l.subs[b.trigger]? with
        | none => rfl
        | some s =>
            cases s with
            | bodies ids =>
                have same : ids.filterMap off = ids.filterMap off' :=
                  List.filterMap_congr fun b member =>
                    agree b (mem_bodyIds trigger member)
                simp only [same]
            | pcre p => rfl
            | bcomp b => rfl
            | fuzzy hash dist => rfl
      · rfl
  | bodies ids => rfl
  | pcre p => rfl
  | fuzzy hash dist => rfl

/-- Only the matches of its own bodies decide a signature. -/
theorem eval_congr {obj : Object} {count count' : Nat → Nat}
    {off off' : Nat → Option Nat} {imgHash : Option UInt64}
    (counts : ∀ b ∈ l.bodyIds, count b = count' b)
    (offs : ∀ b ∈ l.bodyIds, off b = off' b) :
    l.eval obj count off imgHash = l.eval obj count' off' imgHash := by
  unfold eval subCounts
  rw [bodyCounts_congr counts, evalSub_congr offs]

/-! ## The counts of the subsignatures -/

/-- Evaluating a subsignature sets its own count, or nothing. -/
theorem evalSub_cases (l : Ldb) (buf : Bytes) (off : Nat → Option Nat)
    (imgHash : Option UInt64) (c : Nat → Nat) (s : SubSig) (i : Nat) :
    l.evalSub buf off imgHash c (s, i) = c ∨
      (∀ ids, s ≠ .bodies ids) ∧ ∃ n ≤ u32Max,
        l.evalSub buf off imgHash c (s, i) =
          fun j => if j = i then n else c j := by
  have one : 1 ≤ u32Max := by decide
  cases s with
  | bodies ids => exact Or.inl rfl
  | pcre p =>
      simp only [evalSub]
      split
      · exact Or.inr ⟨by simp, _, p.small buf, rfl⟩
      · exact Or.inl rfl
  | bcomp b =>
      simp only [evalSub]
      repeat' split
      all_goals first
        | exact Or.inl rfl
        | exact Or.inr ⟨by simp, 1, one, rfl⟩
  | fuzzy hash dist =>
      simp only [evalSub]
      repeat' split
      all_goals first
        | exact Or.inl rfl
        | exact Or.inr ⟨by simp, 1, one, rfl⟩

theorem subCounts_bodies {buf : Bytes} {count : Nat → Nat}
    {off : Nat → Option Nat} {imgHash : Option UInt64} {i : Nat}
    {ids : List Nat} (sub : l.subs[i]? = some (.bodies ids)) :
    l.subCounts buf count off imgHash i = totalCount count ids := by
  have start : l.bodyCounts count i = totalCount count ids := by
    simp only [bodyCounts, sub]
  rw [← start, subCounts]
  apply List.foldlRecOn (motive := fun c : Nat → Nat =>
    c i = l.bodyCounts count i) _ _ rfl
  intro c kept item member
  obtain ⟨s, j⟩ := item
  rcases evalSub_cases l buf off imgHash c s j with same | ⟨other, n, _, set⟩
  · rw [same]
    exact kept
  · rw [set]
    have apart : i ≠ j := by
      intro same
      have here := List.mem_zipIdx_iff_getElem?.mp member
      rw [← same, sub] at here
      exact other ids (Option.some.inj here).symm
    simp only [apart, if_false]
    exact kept

theorem subCounts_le (buf : Bytes) (count : Nat → Nat)
    (off : Nat → Option Nat) (imgHash : Option UInt64) (i : Nat) :
    l.subCounts buf count off imgHash i ≤ u32Max := by
  have start : l.bodyCounts count i ≤ u32Max := by
    unfold bodyCounts
    split
    · exact totalCount_le _ _
    · exact Nat.zero_le _
  rw [subCounts]
  apply List.foldlRecOn (motive := fun c : Nat → Nat => c i ≤ u32Max) _ _
    start
  intro c kept item member
  obtain ⟨s, j⟩ := item
  rcases evalSub_cases l buf off imgHash c s j with same | ⟨_, n, small, set⟩
  · rw [same]
    exact kept
  · rw [set]
    dsimp only
    split
    · exact small
    · exact kept

end Ldb

section

variable (eng : SigEngine) (obj : Object)

/-! ## The matches of an all-matches walk -/

def nameMatch (c : Collected) (e : Event) : Collected :=
  match eng.bodies[e.body]?.map Body.owner with
  | some (.ndb name unofficial) => c.push ⟨name, e.start, unofficial⟩
  | _ => c

def countMatch (sc : Scratch) (e : Event) : Scratch :=
  match eng.bodies[e.body]?.map Body.owner with
  | some .ldbSub => sc.record e
  | _ => sc

theorem collectMatches_eq (c : Collected) (sc : Scratch)
    (events : List Event) :
    visitAll (collectMatch eng) (c, sc) events =
      ((events.foldl (nameMatch eng) c, events.foldl (countMatch eng) sc),
        true) := by
  induction events generalizing c sc with
  | nil => rfl
  | cons e events ih =>
      have step : collectMatch eng (c, sc) e =
          ((nameMatch eng c e, countMatch eng sc e), true) := by
        simp only [collectMatch, nameMatch, countMatch]
        cases (eng.bodies[e.body]?).map Body.owner with
        | none => rfl
        | some owner => cases owner <;> rfl
      rw [visitAll_cons, step, if_pos rfl]
      exact ih _ _

/-! ## The candidates -/

theorem mem_candidates {sc : Scratch} {li : Nat} :
    li ∈ candidates eng obj sc ↔
      (∃ b ∈ sc.touched, eng.bodyLdb b = some li) ∨ li ∈ eng.firesEmpty ∨
        (imgHash eng obj).isSome ∧ li ∈ eng.fuzzyLdbs := by
  simp only [candidates, candidateLdbs, List.mem_dedup, List.mem_mergeSort,
    List.mem_append, List.mem_filterMap]
  cases (imgHash eng obj).isSome <;> simp [or_assoc]

theorem candidates_increasing (sc : Scratch) :
    (candidates eng obj sc).Pairwise (· < ·) := by
  have sorted := (@List.pairwise_mergeSort Nat (fun a b => decide (a ≤ b))
    (by simpa using fun _ _ _ => le_trans) (by simpa using Nat.le_total)
    (sc.touched.filterMap eng.bodyLdb ++ eng.firesEmpty ++
      if (imgHash eng obj).isSome then eng.fuzzyLdbs else [])).sublist
    (List.dedup_sublist _)
  apply (sorted.and (List.nodup_dedup _)).imp
  intro a b bounds
  exact lt_of_le_of_ne (of_decide_eq_true bounds.1) bounds.2

def ldbHolds (sc : Scratch) (li : Nat) : Bool :=
  match eng.ldbs[li]? with
  | none => false
  | some l => l.gatesOk obj && evalLdb eng obj sc l

theorem collectLdb_of_not_holds {sc : Scratch} {c : Collected} {li : Nat}
    (idle : ldbHolds eng obj sc li = false) :
    collectLdb eng obj sc c li = c := by
  unfold ldbHolds at idle
  unfold collectLdb
  cases here : eng.ldbs[li]? with
  | none => rfl
  | some l =>
      simp only [here, Bool.and_eq_false_iff] at idle
      rcases idle with gate | empty
      · simp [gate]
      · simp only [empty, Bool.false_eq_true, if_false]
        repeat' split
        all_goals rfl

theorem collectLdbs_filter (sc : Scratch) (c : Collected) (cands : List Nat) :
    cands.foldl (collectLdb eng obj sc) c =
      (cands.filter (ldbHolds eng obj sc)).foldl (collectLdb eng obj sc) c := by
  induction cands generalizing c with
  | nil => rfl
  | cons li cands ih =>
      rw [List.foldl_cons, List.filter_cons]
      cases holds : ldbHolds eng obj sc li with
      | true =>
          rw [if_pos rfl, List.foldl_cons]
          exact ih _
      | false =>
          rw [collectLdb_of_not_holds eng obj holds]
          exact ih c

end

end Exav.Engine
