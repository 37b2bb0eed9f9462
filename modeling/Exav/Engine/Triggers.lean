import Exav.Engine.Gate

/-!
# Which logical signatures are evaluated

A logical signature is evaluated when a body of it matched, when its expression
holds of no match at all, or for its image hash.  Byte-compare subsignatures
count only where a body matched, but a regular expression is run whenever its
trigger holds, and a trigger may hold of no match.  A signature that only its
regular expressions make hold is not evaluated unless a body of it matched.
-/

namespace Exav.Engine

namespace Ldb

/-- Run the regular expressions whose triggers hold, over the counts so far. -/
def evalPcre (buf : Bytes) (c : Nat → Nat) (item : SubSig × Nat) : Nat → Nat :=
  match item.1 with
  | .pcre p =>
      if p.trigger.eval c then
        fun j => if j = item.2 then p.count buf else c j
      else c
  | _ => c

/-- The counts when nothing but regular expressions counts. -/
def pcreCounts (l : Ldb) (buf : Bytes) : Nat → Nat :=
  l.subs.zipIdx.foldl (evalPcre buf) fun _ => 0

/-- The signature holds by its regular expressions alone. -/
def holdsByPcre (l : Ldb) (obj : Object) : Bool :=
  l.expr.canBeTrue (fun _ => 0) l.unknown &&
    (l.expr.eval (l.pcreCounts obj.buf) && l.iconOk obj.icon)

variable {l : Ldb} {obj : Object} {count : Nat → Nat}
  {off : Nat → Option Nat} {imgHash : Option UInt64}

theorem bodyCounts_of_unmatched (unmatched : ∀ b ∈ l.bodyIds, count b = 0) :
    l.bodyCounts count = fun _ => 0 := by
  funext i
  unfold bodyCounts
  split
  case h_1 ids sub =>
      apply totalCount_eq_zero
      intro b member
      exact unmatched b (List.mem_flatMap.mpr ⟨_, List.mem_of_getElem? sub, member⟩)
  case h_2 => rfl

/-- While no normal subsignature counts, byte-compares do not either. -/
private theorem evalSub_eq_evalPcre {c : Nat → Nat} {item : SubSig × Nat}
    (quiet : ∀ i ids, l.subs[i]? = some (.bodies ids) → c i = 0)
    (noHash : imgHash = none ∨ ∀ s ∈ l.subs, s.isFuzzy = false)
    (member : item.1 ∈ l.subs) :
    l.evalSub obj.buf off imgHash c item = evalPcre obj.buf c item := by
  obtain ⟨s, i⟩ := item
  cases s with
  | bodies ids => rfl
  | pcre p => rfl
  | bcomp b =>
      simp only [evalSub, evalPcre]
      split
      case isTrue counted =>
          split
          case h_1 ids sub =>
              rw [quiet _ ids sub] at counted
              exact absurd counted (lt_irrefl 0)
          case h_2 => rfl
      case isFalse => rfl
  | fuzzy hash dist =>
      rcases noHash with noImage | noFuzzy
      · simp [evalSub, evalPcre, noImage]
      · cases noFuzzy _ member

theorem subCounts_of_unmatched (unmatched : ∀ b ∈ l.bodyIds, count b = 0)
    (noHash : imgHash = none ∨ ∀ s ∈ l.subs, s.isFuzzy = false) :
    l.subCounts obj.buf count off imgHash = l.pcreCounts obj.buf := by
  unfold subCounts pcreCounts
  rw [bodyCounts_of_unmatched unmatched]
  have known (c : Nat → Nat) (items : List (SubSig × Nat))
      (source : ∀ item ∈ items, item ∈ l.subs.zipIdx)
      (quiet : ∀ i ids, l.subs[i]? = some (.bodies ids) → c i = 0) :
      items.foldl (l.evalSub obj.buf off imgHash) c =
        items.foldl (evalPcre obj.buf) c := by
    induction items generalizing c with
    | nil => rfl
    | cons item items ih =>
        have here := List.mem_zipIdx_iff_getElem?.mp (source item (by simp))
        have same : l.evalSub obj.buf off imgHash c item =
            evalPcre obj.buf c item :=
          evalSub_eq_evalPcre quiet noHash (List.mem_of_getElem? here)
        rw [List.foldl_cons, List.foldl_cons, same]
        apply ih _ fun later member => source later (by simp [member])
        intro i ids sub
        obtain ⟨s, j⟩ := item
        cases s with
        | pcre p =>
            have apart : i ≠ j := by
              intro same
              rw [← same, sub] at here
              cases here
            simp only [evalPcre]
            split
            · simp only [apart, if_false]
              exact quiet i ids sub
            · exact quiet i ids sub
        | bodies ids => exact quiet i _ sub
        | bcomp b => exact quiet i ids sub
        | fuzzy hash dist => exact quiet i ids sub
  exact known _ _ (fun _ member => member) fun _ _ _ => rfl

theorem eval_of_unmatched (unmatched : ∀ b ∈ l.bodyIds, count b = 0)
    (noHash : imgHash = none ∨ ∀ s ∈ l.subs, s.isFuzzy = false) :
    l.eval obj count off imgHash = l.holdsByPcre obj := by
  unfold eval holdsByPcre
  rw [bodyCounts_of_unmatched unmatched,
    subCounts_of_unmatched unmatched noHash]
  cases l.expr.canBeTrue (fun _ => 0) l.unknown with
  | false => rfl
  | true => cases l.expr.eval (l.pcreCounts obj.buf) <;> rfl

end Ldb

section

variable (eng : SigEngine) (obj : Object)

/-! ## Buffering -/

theorem inside_pushHits {buf : Bytes} (fuel : Nat) {r h : Report}
    (inside : r.Inside buf) (member : h ∈ pushHits fuel r) : h.Inside buf := by
  induction fuel generalizing r with
  | zero => cases member
  | succ fuel ih =>
      rw [pushHits] at member
      split at member
      · cases member
      · have bound : r.start + r.count ≤ buf.length + 1 := inside
        have part := Nat.min_le_left r.count maxCount
        rcases List.mem_cons.mp member with rfl | later
        · show r.start + min r.count maxCount ≤ buf.length + 1
          omega
        · apply ih _ later
          show r.start + min r.count maxCount +
            (r.count - min r.count maxCount) ≤ buf.length + 1
          omega

theorem inside_buffer {buf : Bytes} {cap : Nat} {reports hits : List Report}
    (total : Nat) (inside : ∀ r ∈ reports, r.Inside buf)
    (insideHits : ∀ r ∈ hits, r.Inside buf) :
    (∀ r ∈ (buffer cap reports hits total).1, r.Inside buf) ∧
      ∀ r ∈ (buffer cap reports hits total).2.2, r.Inside buf := by
  induction reports generalizing hits total with
  | nil => exact ⟨insideHits, by simp [buffer]⟩
  | cons r reports ih =>
      rw [buffer]
      split
      · apply ih _ fun later member => inside later (by simp [member])
        intro h member
        rcases List.mem_append.mp member with before | here
        · exact insideHits h before
        · exact inside_pushHits _ (inside r (by simp)) here
      · exact ⟨insideHits, inside⟩

/-! ## The full counts -/

/-- The matches of every body behind every hit, verified on their own. -/
def fullMatches (swept : List Report) : List Event :=
  let reports := pinnedReports eng obj ++ swept
  if eng.ldbs.isEmpty then
    reports.flatMap (hitMatches eng obj.buf obj.layout)
  else
    match buffer maxBufferedHits reports [] 0 with
    | (hits, _, rest) =>
        replayed eng obj.layout hits obj.buf ++
          rest.flatMap (hitMatches eng obj.buf obj.layout)

def fullCounts (swept : List Report) : Scratch :=
  countsOf eng (fullMatches eng obj swept)

/-- The counts a scan makes, with no step budget to run out. -/
def scanCounts (swept : List Report) : Scratch :=
  countsOf eng (walkEvents eng .unlimited obj swept)

variable {eng obj} {swept : List Report}

/-- The walk is the full one, or leaves out what the gate rules out. -/
theorem walkEvents_free
    (inside : ∀ r ∈ pinnedReports eng obj ++ swept, r.Inside obj.buf) :
    walkEvents eng .unlimited obj swept = fullMatches eng obj swept ∨
      ∃ hits total,
        (∀ e ∈ fullMatches eng obj swept, e.body ∈ hitBodies eng hits) ∧
        walkEvents eng .unlimited obj swept =
          (fullMatches eng obj swept).filter fun e =>
            !isDead eng (ldbAlive eng hits total) e.body := by
  have free := Verifier.free_new obj.buf
  unfold walkEvents fullMatches
  dsimp only
  split
  · exact Or.inl (verifyHits_ungated eng obj.layout inside free).1
  · have parts := @inside_buffer _ maxBufferedHits _ [] 0 inside (by simp)
    rcases buffered : buffer maxBufferedHits (pinnedReports eng obj ++ swept)
      [] 0 with ⟨hits, total, rest⟩
    rw [buffered] at parts
    cases rest with
    | nil =>
        refine Or.inr ⟨hits, total, ?_, ?_⟩
        · intro e member
          rw [List.flatMap_nil, List.append_nil] at member
          exact (mem_replayed eng obj.layout member).1
        · rw [List.flatMap_nil, List.append_nil]
          exact replay_free eng obj.layout _ parts.1 free
    | cons r rest =>
        have first := replay_ungated eng obj.layout parts.1 free
        have later := verifyHits_ungated eng obj.layout parts.2 first.2
        exact Or.inl (by simp only [first.1, later.1])

/-! ## Who matched -/

/-- The bodies recorded are those that count. -/
def Scratch.Tallied (sc : Scratch) : Prop :=
  ∀ b, b ∈ sc.touched ↔ 0 < sc.counts b

theorem Scratch.Tallied.record {sc : Scratch} {e : Event}
    (tallied : sc.Tallied) (positive : 0 < e.count) :
    (sc.record e).Tallied := by
  intro b
  have known := tallied b
  have small : 0 < u32Max := by decide
  by_cases same : b = e.body
  · subst same
    simp only [Scratch.record, if_true, addCount]
    have counts : 0 < min (sc.counts e.body + min e.count u32Max) u32Max := by
      omega
    simp only [counts, iff_true]
    split
    · simp
    · rw [known]
      omega
  · simp only [Scratch.record, same, if_false, ← known]
    split
    · simp [same]
    · rfl

theorem countsOf_tallied {events : List Event}
    (positive : ∀ e ∈ events, 0 < e.count) :
    (countsOf eng events).Tallied := by
  apply List.foldlRecOn (motive := Scratch.Tallied) _ _
    (by simp [Scratch.Tallied, Scratch.new])
  intro sc tallied e member
  unfold countMatch
  split
  · exact tallied.record (positive e member)
  · exact tallied

theorem fullMatches_positive {e : Event}
    (member : e ∈ fullMatches eng obj swept) : 0 < e.count := by
  have direct {reports : List Report}
      (here : e ∈ reports.flatMap (hitMatches eng obj.buf obj.layout)) :
      0 < e.count := by
    obtain ⟨r, _, here⟩ := List.mem_flatMap.mp here
    obtain ⟨bid, _, found⟩ := List.mem_flatMap.mp here
    exact (bodyMatches_of_mem found).2
  unfold fullMatches at member
  dsimp only at member
  split at member
  · exact direct member
  · rcases List.mem_append.mp member with first | later
    · exact (mem_replayed eng obj.layout first).2
    · exact direct later

/-! ## What is evaluated -/

variable (eng obj swept)

/-- The logical signatures a scan acts on: the candidates that pass their gates
and hold of its counts. -/
def reportedLdbs : List Nat :=
  (candidates eng obj (scanCounts eng obj swept)).filter
    (ldbHolds eng obj (scanCounts eng obj swept))

def ReportsHolding : Prop :=
  ∀ li, li ∈ reportedLdbs eng obj swept ↔
    ∃ l, eng.ldbs[li]? = some l ∧ l.gatesOk obj = true ∧
      evalLdb eng obj (fullCounts eng obj swept) l = true

/-- No body of the signature matches, and it is on neither list of signatures
that are always evaluated. -/
structure Untouched (l : Ldb) : Prop where
  unmatched : ∀ b ∈ l.bodyIds, (fullCounts eng obj swept).counts b = 0
  notEmpty : l.firesOnEmpty = false
  notFuzzy : imgHash eng obj = none ∨ l.subs.any SubSig.isFuzzy = false

variable {eng obj swept}

theorem ldbHolds_eq_true {sc : Scratch} {li : Nat} :
    ldbHolds eng obj sc li = true ↔ ∃ l, eng.ldbs[li]? = some l ∧
      l.gatesOk obj = true ∧ evalLdb eng obj sc l = true := by
  unfold ldbHolds
  cases eng.ldbs[li]? <;> simp

theorem mem_ldbsWhere {test : Ldb → Bool} {li : Nat} :
    li ∈ eng.ldbsWhere test ↔
      ∃ l, eng.ldbs[li]? = some l ∧ test l = true := by
  unfold SigEngine.ldbsWhere
  simp only [List.mem_map, List.mem_filter, Prod.exists,
    exists_eq_right, List.mem_zipIdx_iff_getElem?]

theorem untouched_iff {l : Ldb} {li : Nat} (here : eng.ldbs[li]? = some l) :
    Untouched eng obj swept l ↔
      li ∉ candidates eng obj (fullCounts eng obj swept) := by
  have tallied : (fullCounts eng obj swept).Tallied :=
    countsOf_tallied fun e member => fullMatches_positive member
  have only {test : Ldb → Bool} :
      (∃ m, eng.ldbs[li]? = some m ∧ test m = true) ↔ test l = true := by
    simp [here]
  rw [mem_candidates, SigEngine.firesEmpty, SigEngine.fuzzyLdbs, mem_ldbsWhere,
    mem_ldbsWhere, only, only]
  have matched : (∃ b ∈ (fullCounts eng obj swept).touched,
      eng.bodyLdb b = some li) ↔
      ¬∀ b ∈ l.bodyIds, (fullCounts eng obj swept).counts b = 0 := by
    constructor
    · intro touched unmatched
      obtain ⟨b, member, owner⟩ := touched
      obtain ⟨m, there, counted⟩ := bodyLdb_eq_some owner
      rw [here] at there
      cases there
      have positive := (tallied b).mp member
      rw [unmatched b counted] at positive
      exact lt_irrefl 0 positive
    · intro some
      obtain ⟨b, counted, positive⟩ := by simpa using some
      exact ⟨b, (tallied b).mpr (Nat.pos_of_ne_zero positive),
        bodyLdb_of_mem here counted⟩
  rw [matched]
  constructor
  · intro untouched
    have quiet := untouched.notFuzzy
    intro listed
    rcases listed with some | empty | image
    · exact some untouched.unmatched
    · rw [untouched.notEmpty] at empty
      cases empty
    · rcases quiet with none | noFuzzy
      · rw [none] at image
        cases image.1
      · rw [noFuzzy] at image
        cases image.2
  · intro outside
    simp only [not_or, not_not, Bool.not_eq_true, not_and] at outside
    refine ⟨outside.1, outside.2.1, ?_⟩
    cases hash : imgHash eng obj with
    | none => exact Or.inl rfl
    | some h => exact Or.inr (outside.2.2 (by simp [hash]))

/-- The gate leaves out no signature that holds. -/
theorem reportedLdbs_eq
    (inside : ∀ r ∈ pinnedReports eng obj ++ swept, r.Inside obj.buf) :
    reportedLdbs eng obj swept =
      (candidates eng obj (fullCounts eng obj swept)).filter
        (ldbHolds eng obj (fullCounts eng obj swept)) := by
  unfold reportedLdbs scanCounts fullCounts
  rcases walkEvents_free inside with full | ⟨hits, total, behind, gated⟩
  · rw [full]
  · obtain ⟨without, unhit⟩ := gated_without total behind
    rw [gated]
    exact (candidates_without without unhit).symm

variable (eng obj swept) in
/-- The loop over the candidates does nothing but for the signatures a scan
acts on. -/
theorem scanAll_eq_reported (wantFired : Bool) :
    scanAll eng obj .unlimited wantFired swept =
      (reportedLdbs eng obj swept).foldl
        (collectLdb eng obj (scanCounts eng obj swept))
        ((walkEvents eng .unlimited obj swept).foldl (nameMatch eng)
          ⟨[], [], if wantFired then some [] else none, none⟩) := by
  rw [scanAll, scanAllFrom_eq, collectLdbs_filter]
  rfl

/-- An untouched signature holds when its regular expressions make it. -/
theorem Untouched.evalLdb_eq {l : Ldb} (untouched : Untouched eng obj swept l) :
    evalLdb eng obj (fullCounts eng obj swept) l = l.holdsByPcre obj := by
  apply Ldb.eval_of_unmatched untouched.unmatched
  rcases untouched.notFuzzy with none | noFuzzy
  · exact Or.inl none
  · refine Or.inr fun s member => ?_
    simpa using List.any_eq_false.mp noFuzzy s member

theorem reportsHolding_iff_candidates
    (inside : ∀ r ∈ pinnedReports eng obj ++ swept, r.Inside obj.buf) :
    ReportsHolding eng obj swept ↔
      ∀ li, ldbHolds eng obj (fullCounts eng obj swept) li = true →
        li ∈ candidates eng obj (fullCounts eng obj swept) := by
  unfold ReportsHolding
  simp only [reportedLdbs_eq inside, List.mem_filter, ldbHolds_eq_true,
    and_iff_right_iff_imp]

/-- A scan acts on exactly the signatures that hold if and only if no untouched
signature that passes its gates holds by its regular expressions alone. -/
theorem reportsHolding_iff
    (inside : ∀ r ∈ pinnedReports eng obj ++ swept, r.Inside obj.buf) :
    ReportsHolding eng obj swept ↔
      ∀ l ∈ eng.ldbs, l.gatesOk obj = true → Untouched eng obj swept l →
        l.holdsByPcre obj = false := by
  rw [reportsHolding_iff_candidates inside]
  constructor
  · intro all l member gates untouched
    obtain ⟨li, here⟩ := List.getElem?_of_mem member
    by_contra holds
    apply (untouched_iff here).mp untouched
    apply all li
    apply ldbHolds_eq_true.mpr ⟨l, here, gates, ?_⟩
    rw [untouched.evalLdb_eq]
    simpa using holds
  · intro none li holds
    obtain ⟨l, here, gates, holds⟩ := ldbHolds_eq_true.mp holds
    by_contra outside
    have untouched := (untouched_iff here).mpr outside
    rw [untouched.evalLdb_eq,
      none l (List.mem_of_getElem? here) gates untouched] at holds
    cases holds

end

/-! ## A trigger that always holds -/

/-- A regular expression for the letter `a` whose trigger asks that the literal
does not match. -/
def letterA : PcreSub where
  trigger := .subCmp 0 .eq 0
  global := false
  count buf := if 0x61 ∈ buf then 1 else 0
  small := by
    intro buf
    split <;> decide

/-- A signature of the literal `bcde` and that regular expression, which asks
for the regular expression: `Awake;Target:0;1;62636465;0=0/a/`. -/
def awake : Ldb where
  name := "Awake"
  target := 0
  expr := .sub 1
  firesOnEmpty := false
  subs := [.bodies [0], .pcre letterA]
  fileSize := none
  container := .unconstrained
  intermediates := none
  handlerType := none
  entryPoint := none
  numSections := none
  iconGroup := none
  unofficial := false
  bytecode := none

theorem place_singleton {l m n : Ldb} {li lj : Nat}
    (first : [l][li]? = some m) (second : [l][lj]? = some n) : li = lj := by
  have one : li < 1 := (List.getElem?_eq_some_iff.mp first).1
  have other : lj < 1 := (List.getElem?_eq_some_iff.mp second).1
  omega

def loneEngine (l : Ldb) (small : ∀ b ∈ l.bodyIds, b = 0)
    (empty : l.firesOnEmpty = l.expr.eval fun _ => 0) : SigEngine where
  partitions := [⟨0, false, [[0]]⟩]
  pins := ⟨[], []⟩
  bodies := [subLiteral]
  ldbs := [l]
  built := by
    intro body member
    have same : body = subLiteral := by simpa using member
    exact same ▸ subLiteral_built
  owned := by
    intro m member b counted
    cases List.mem_singleton.mp member
    exact ⟨subLiteral, by rw [small b counted]; rfl, rfl⟩
  apart _ _ _ _ _ first second _ _ := place_singleton first second
  empties := by
    intro m member
    cases List.mem_singleton.mp member
    exact empty

/-- The literal is not in the object and the letter is: the signature holds,
and nothing is reported. -/
theorem not_reportsHolding_awake :
    let eng := loneEngine awake (by decide) (by decide)
    let obj : Object :=
      ⟨[0x78, 0x61, 0x78], .unknown, false, none, none, [], none, none⟩
    ¬ReportsHolding eng obj [] ∧ awake.gatesOk obj = true ∧
      evalLdb eng obj (fullCounts eng obj []) awake = true ∧
      (scanAll eng obj .unlimited true []).out = [] := by
  intro eng obj
  have full : fullMatches eng obj [] = [] := rfl
  have walk : walkEvents eng .unlimited obj [] = [] := rfl
  have holds : evalLdb eng obj (fullCounts eng obj []) awake = true := by
    rw [fullCounts, full]
    decide
  have none : candidates eng obj (countsOf eng []) = [] := by
    simp [candidates, candidateLdbs, countsOf, Scratch.new, imgHash, eng,
      SigEngine.firesEmpty, SigEngine.fuzzyLdbs, SigEngine.ldbsWhere,
      loneEngine, awake, SubSig.isFuzzy]
  refine ⟨?_, by decide, holds, ?_⟩
  · intro all
    have listed := (all 0).mpr ⟨awake, rfl, by decide, holds⟩
    rw [reportedLdbs, scanCounts, walk, none] at listed
    cases listed
  · rw [scanAll, scanAllFrom_eq, walk, none]
    rfl

/-- Where the literal matches, the same signature is reported. -/
theorem reportsHolding_awake :
    let eng := loneEngine awake (by decide) (by decide)
    let obj : Object :=
      ⟨[0x61, 0x62, 0x63, 0x64, 0x65], .unknown, false, none, none, [], none,
        none⟩
    ReportsHolding eng obj [⟨0, 0, 1, 1⟩] := by
  intro eng obj
  have inside : ∀ r ∈ pinnedReports eng obj ++ [⟨0, 0, 1, 1⟩],
      r.Inside obj.buf := by
    simp [pinnedReports, Pins.places, searchedPlaces, eng, loneEngine, obj,
      Report.Inside]
  apply (reportsHolding_iff inside).mpr
  intro l member _ untouched
  cases List.mem_singleton.mp member
  have matched : (fullCounts eng obj [⟨0, 0, 1, 1⟩]).counts 0 = 1 := by decide
  have unmatched := untouched.unmatched 0 (by decide)
  rw [matched] at unmatched
  cases unmatched

end Exav.Engine
