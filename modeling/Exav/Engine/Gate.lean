import Exav.Engine.Tally

/-!
# The matches of a walk

Where no step budget runs out, what a hit hands over is a matter of the hit
alone: the matches of the bodies behind it, each verified on its own.  The gate
then only leaves out the matches of the bodies it rules out.
-/

namespace Exav.Engine

open Exav.Visit

/-! ## Plans stay inside their run -/

section

variable {body : Body} {buf : Bytes} {layout : Option PeLayout}

private theorem clip_within {start stop len lo hi : Nat} {range : Nat × Nat}
    (clipped : clip start stop len lo hi = some range) :
    start ≤ range.1 ∧ range.1 ≤ range.2 ∧ range.2 ≤ stop := by
  obtain ⟨nonempty, made⟩ := Option.ite_none_right_eq_some.mp clipped
  cases made
  exact ⟨Nat.le_max_right _ _, nonempty.le, Nat.min_le_right _ _⟩

theorem whole_within {start stop : Nat} (ordered : start ≤ stop) :
    ∀ range ∈ [(start, stop)],
      start ≤ range.1 ∧ range.1 ≤ range.2 ∧ range.2 ≤ stop := by
  intro range member
  cases List.mem_singleton.mp member
  exact ⟨le_rfl, ordered, le_rfl⟩

/-- The ranges of a prefix at distance `len`. -/
theorem windows_within {start stop : Nat} (ordered : start ≤ stop) (len : Nat) :
    ∀ range ∈
      (match startSet body.offset buf.length layout with
        | none => []
        | some .anywhere => [(start, stop)]
        | some (.range lo hi) => (clip start stop len lo hi).toList
        | some (.points allowed) =>
            (allowed.insertionSort (· ≤ ·)).dedup.filterMap
              fun p => clip start stop len p p),
      start ≤ range.1 ∧ range.1 ≤ range.2 ∧ range.2 ≤ stop := by
  intro range member
  split at member
  · cases member
  · exact whole_within ordered range member
  · exact clip_within (Option.mem_toList.mp member)
  · obtain ⟨p, _, clipped⟩ := List.mem_filterMap.mp member
    exact clip_within clipped

theorem allowedHits_within {start stop : Nat} {ranges : List (Nat × Nat)}
    (ordered : start ≤ stop)
    (hits : allowedHits body buf layout start stop = some ranges) :
    ∀ range ∈ ranges,
      start ≤ range.1 ∧ range.1 ≤ range.2 ∧ range.2 ≤ stop := by
  have windows := @windows_within body buf layout start stop ordered
  cases off : body.offset with
  | any =>
      simp only [allowedHits, off, Option.some.injEq] at hits
      subst hits
      exact whole_within ordered
  | constrained kind =>
      rw [off] at windows
      cases place : body.bodyPrefix with
      | fixed anchorIdx len =>
          simp only [allowedHits, off, place, Option.some.injEq] at hits
          subst hits
          exact windows len
      | floating anchorIdx =>
          simp only [allowedHits, off, place, Option.some.injEq] at hits
          subst hits
          exact windows 0
      | internal anchorIdx =>
          simp only [allowedHits, off, place] at hits
          cases hits

theorem runPlan_within {start count : Nat} {item : Nat × Nat}
    (member : item ∈ runPlan body buf layout start count) :
    start ≤ item.1 ∧ item.1 + item.2 ≤ start + count ∧ 0 < item.2 := by
  have ordered := Nat.le_add_right start count
  cases hits : allowedHits body buf layout start (start + count) with
  | none =>
      simp only [runPlan, hits] at member
      obtain ⟨s, within, rfl⟩ := List.mem_map.mp member
      have bounds := List.mem_range'_1.mp within
      exact ⟨bounds.1, by dsimp only; omega, Nat.one_pos⟩
  | some ranges =>
      simp only [runPlan, hits] at member
      obtain ⟨range, source, made⟩ := List.mem_flatMap.mp member
      have within := allowedHits_within ordered hits range source
      obtain ⟨lower, upper, positive, _⟩ := mem_rangePlan within.2.1 made
      exact ⟨within.1.trans lower, upper.trans within.2.2, positive⟩

/-- What a plan reports stands for as many matches as one of its items. -/
theorem mem_verifyEach {plan : List (Nat × Nat)} {pools : Pools}
    {m n : Nat} (member : (m, n) ∈ (verifyEach body buf layout plan pools).1) :
    ∃ s, (s, n) ∈ plan := by
  induction plan generalizing pools with
  | nil => cases member
  | cons item plan ih =>
      obtain ⟨s, k⟩ := item
      rw [verifyEach] at member
      rcases here : verify body buf layout s pools with ⟨start, after⟩
      simp only [here] at member
      cases start with
      | none =>
          obtain ⟨t, later⟩ := ih member
          exact ⟨t, List.mem_cons_of_mem _ later⟩
      | some first =>
          rcases List.mem_cons.mp member with same | later
          · cases same
            exact ⟨s, List.mem_cons_self⟩
          · obtain ⟨t, later⟩ := ih later
            exact ⟨t, List.mem_cons_of_mem _ later⟩

end

/-! ## Verifying on its own -/

section

variable (eng : SigEngine) (buf : Bytes) (layout : Option PeLayout)

def bodyMatches (r : Report) (bid : Nat) : List Event :=
  (verifyBody eng buf layout (Verifier.new .unlimited) bid r).1

def hitMatches (r : Report) : List Event :=
  (eng.group r.pidx r.value).flatMap (bodyMatches eng buf layout r)

/-- Nothing that a verifier carries changes an answer. -/
structure Verifier.Free (v : Verifier) : Prop where
  pools : v.pools.Free buf
  open_ : v.groupCost.past = 0

variable {buf}

theorem Verifier.free_new (buf : Bytes) :
    (Verifier.new .unlimited).Free buf :=
  ⟨Pools.free_new buf, rfl⟩

/-- A report whose hits lie in the object, its end included. -/
def Report.Inside (buf : Bytes) (r : Report) : Prop :=
  r.start + r.count ≤ buf.length + 1

theorem Verifier.Free.admits {v : Verifier} (free : v.Free buf)
    (key : Nat × Nat) : v.groupCost.admits key = true := by
  simp [GroupCost.admits, free.open_]

private theorem Verifier.Free.charge {v : Verifier} {pools : Pools}
    (free : v.Free buf) (after : pools.Free buf) (key : Nat × Nat) :
    Verifier.Free buf
      { pools := pools
        groupCost := v.groupCost.charge key
          (v.pools.budget.drawn pools.budget) } := by
  have nothing : v.pools.budget.drawn pools.budget = 0 := by
    rw [free.pools.budget]
    rfl
  refine ⟨after, ?_⟩
  rw [nothing]
  exact free.open_

theorem verifyBody_free {v : Verifier} {r : Report} (bid : Nat)
    (inside : r.Inside buf) (free : v.Free buf) :
    (verifyBody eng buf layout v bid r).1 = bodyMatches eng buf layout r bid ∧
      (verifyBody eng buf layout v bid r).2.Free buf := by
  have fresh := Verifier.free_new buf
  unfold bodyMatches verifyBody
  cases found : eng.bodies[bid]? with
  | none => exact ⟨rfl, free⟩
  | some body =>
      have built := eng.built body (List.mem_of_getElem? found)
      dsimp only
      by_cases single : r.count = 1
      · rw [if_pos single, if_pos single]
        have bound : r.start + r.count ≤ buf.length + 1 := inside
        have inObject : r.start ≤ buf.length := by omega
        have here := verify_free layout built inObject free.pools
        have alone := verify_free layout built inObject fresh.pools
        refine ⟨?_, free.charge here.free _⟩
        rw [here.answer, alone.answer]
      · rw [if_neg single, if_neg single]
        have inObject : ∀ item ∈ runPlan body buf layout r.start r.count,
            item.1 ≤ buf.length := by
          intro item member
          have within := runPlan_within member
          have bound : r.start + r.count ≤ buf.length + 1 := inside
          omega
        have here := @verifyEach_free body buf layout _ _ built inObject
          free.pools
        have alone := @verifyEach_free body buf layout _ _ built inObject
          fresh.pools
        refine ⟨?_, free.charge here.2 _⟩
        simp only [verifyRun, here.1, alone.1]

theorem verifyBodies_free {v : Verifier} {r : Report}
    (alive : Option (Nat → Bool)) (bids : List Nat) (inside : r.Inside buf)
    (free : v.Free buf) :
    (verifyBodies eng buf layout alive r bids v).1 =
        (bids.filter fun bid => !isDead eng alive bid).flatMap
          (bodyMatches eng buf layout r) ∧
      (verifyBodies eng buf layout alive r bids v).2.Free buf := by
  induction bids generalizing v with
  | nil => exact ⟨rfl, free⟩
  | cons bid bids ih =>
      rw [verifyBodies]
      cases dead : isDead eng alive bid with
      | true =>
          simp only [if_true, dead, List.filter_cons, Bool.not_true,
            Bool.false_eq_true, if_false]
          exact ih free
      | false =>
          have here := verifyBody_free eng layout bid inside free
          have rest := ih here.2
          simp only [Bool.false_eq_true, if_false, dead, List.filter_cons,
            Bool.not_false, if_true, List.flatMap_cons]
          exact ⟨by rw [here.1, rest.1], rest.2⟩

variable {eng layout} in
theorem bodyMatches_of_mem {r : Report} {bid : Nat} {e : Event}
    (member : e ∈ bodyMatches eng buf layout r bid) :
    e.body = bid ∧ 0 < e.count := by
  unfold bodyMatches verifyBody at member
  cases found : eng.bodies[bid]? with
  | none =>
      rw [found] at member
      cases member
  | some body =>
      simp only [found] at member
      obtain ⟨⟨m, n⟩, told, rfl⟩ := List.mem_map.mp member
      refine ⟨rfl, ?_⟩
      split at told
      · obtain ⟨s, _, same⟩ :=
          Option.map_eq_some_iff.mp (Option.mem_toList.mp told)
        cases same
        exact Nat.one_pos
      · obtain ⟨s, planned⟩ := mem_verifyEach told
        exact (runPlan_within planned).2.2

private theorem filter_hitMatches (alive : Option (Nat → Bool)) (r : Report) :
    (hitMatches eng buf layout r).filter (fun e => !isDead eng alive e.body) =
      ((eng.group r.pidx r.value).filter fun bid =>
        !isDead eng alive bid).flatMap (bodyMatches eng buf layout r) := by
  unfold hitMatches
  induction eng.group r.pidx r.value with
  | nil => rfl
  | cons bid bids ih =>
      have own : ∀ e ∈ bodyMatches eng buf layout r bid, e.body = bid :=
        fun e member => (bodyMatches_of_mem member).1
      rw [List.flatMap_cons, List.filter_append, ih, List.filter_cons]
      cases dead : isDead eng alive bid with
      | true =>
          have none : (bodyMatches eng buf layout r bid).filter
              (fun e => !isDead eng alive e.body) = [] := by
            apply List.filter_eq_nil_iff.mpr
            intro e member
            simp [own e member, dead]
          simp [none]
      | false =>
          have all : (bodyMatches eng buf layout r bid).filter
              (fun e => !isDead eng alive e.body) =
                bodyMatches eng buf layout r bid := by
            apply List.filter_eq_self.mpr
            intro e member
            simp [own e member, dead]
          simp [all]

/-- Without a budget the hits hand over the matches of the bodies behind them
that the gate does not rule out. -/
theorem verifyHits_free {v : Verifier} (alive : Option (Nat → Bool))
    {reports : List Report} (inside : ∀ r ∈ reports, r.Inside buf)
    (free : v.Free buf) :
    ((verifyHits eng buf layout alive reports v).1 =
        (reports.flatMap (hitMatches eng buf layout)).filter
          fun e => !isDead eng alive e.body) ∧
      (verifyHits eng buf layout alive reports v).2.Free buf := by
  induction reports generalizing v with
  | nil => exact ⟨rfl, free⟩
  | cons r reports ih =>
      have here := verifyBodies_free eng layout alive
        (eng.group r.pidx r.value) (inside r (by simp)) free
      have rest := ih (fun later member => inside later (by simp [member]))
        here.2
      rw [verifyHits, verifyHit, if_pos (free.admits _)]
      simp only [here.1, rest.1, List.flatMap_cons, List.filter_append,
        filter_hitMatches]
      exact ⟨trivial, rest.2⟩

/-- An ungated walk leaves nothing out. -/
theorem verifyHits_ungated {v : Verifier} {reports : List Report}
    (inside : ∀ r ∈ reports, r.Inside buf) (free : v.Free buf) :
    (verifyHits eng buf layout none reports v).1 =
        reports.flatMap (hitMatches eng buf layout) ∧
      (verifyHits eng buf layout none reports v).2.Free buf := by
  have here := verifyHits_free eng layout none inside free
  refine ⟨here.1.trans (List.filter_eq_self.mpr ?_), here.2⟩
  intro e _
  rfl

end

/-! ## Joined hits -/

/-- A joined entry is one of the anchor of some entry and ends where some entry
does. -/
theorem mem_joinFrom {pinned : Nat} {h g : Report} {hits : List Report}
    (member : g ∈ joinFrom pinned h hits) :
    (∃ first ∈ h :: hits, g.pidx = first.pidx ∧ g.value = first.value) ∧
      ∃ last ∈ h :: hits, g.start + g.count = last.start + last.count := by
  induction hits generalizing h with
  | nil =>
      cases List.mem_singleton.mp member
      exact ⟨⟨g, by simp, rfl, rfl⟩, g, by simp, rfl⟩
  | cons next hits ih =>
      rw [joinFrom] at member
      split at member
      case isTrue joins =>
          obtain ⟨⟨first, source, same⟩, last, target, stop⟩ := ih member
          refine ⟨?_, ?_⟩
          · rcases List.mem_cons.mp source with rfl | later
            · exact ⟨h, by simp, same⟩
            · exact ⟨first, by simp [later], same⟩
          · rcases List.mem_cons.mp target with rfl | later
            · refine ⟨next, by simp, ?_⟩
              rw [stop, joins.2.2.2, Nat.add_assoc]
            · exact ⟨last, by simp [later], stop⟩
      case isFalse =>
          rcases List.mem_cons.mp member with rfl | later
          · exact ⟨⟨g, by simp, rfl, rfl⟩, g, by simp, rfl⟩
          · obtain ⟨⟨first, source, same⟩, last, target, stop⟩ := ih later
            exact ⟨⟨first, List.mem_cons_of_mem _ source, same⟩, last,
              List.mem_cons_of_mem _ target, stop⟩

theorem mem_joinHits {pinned : Nat} {g : Report} {hits : List Report}
    (member : g ∈ joinHits pinned hits) :
    (∃ first ∈ hits, g.pidx = first.pidx ∧ g.value = first.value) ∧
      ∃ last ∈ hits, g.start + g.count = last.start + last.count := by
  cases hits with
  | nil => cases member
  | cons h hits => exact mem_joinFrom member

theorem inside_joinHits {buf : Bytes} {pinned : Nat} {hits : List Report}
    (inside : ∀ r ∈ hits, r.Inside buf) :
    ∀ r ∈ joinHits pinned hits, r.Inside buf := by
  intro r member
  obtain ⟨_, last, target, stop⟩ := mem_joinHits member
  rw [Report.Inside, stop]
  exact inside last target

/-! ## Replaying -/

section

variable (eng : SigEngine) {buf : Bytes} (layout : Option PeLayout)

def replayed (hits : List Report) (buf : Bytes) : List Event :=
  (joinHits eng.partitions.length hits).flatMap (hitMatches eng buf layout)

theorem replay_free {v : Verifier} (alive : Option (Nat → Bool))
    {hits : List Report} (inside : ∀ r ∈ hits, r.Inside buf)
    (free : v.Free buf) :
    (replay eng buf layout alive hits v).1 =
      (replayed eng layout hits buf).filter
        fun e => !isDead eng alive e.body :=
  (verifyHits_free eng layout alive (inside_joinHits inside) free).1

/-- Without the gate, replaying hands over every match at the hits. -/
theorem replay_ungated {v : Verifier} {hits : List Report}
    (inside : ∀ r ∈ hits, r.Inside buf) (free : v.Free buf) :
    (replay eng buf layout none hits v).1 = replayed eng layout hits buf ∧
      (replay eng buf layout none hits v).2.Free buf :=
  verifyHits_ungated eng layout (inside_joinHits inside) free

theorem mem_replayed {hits : List Report} {e : Event}
    (member : e ∈ replayed eng layout hits buf) :
    e.body ∈ hitBodies eng hits ∧ 0 < e.count := by
  obtain ⟨r, joined, here⟩ := List.mem_flatMap.mp member
  obtain ⟨bid, behind, found⟩ := List.mem_flatMap.mp here
  obtain ⟨⟨first, source, sameGroup, sameValue⟩, _⟩ := mem_joinHits joined
  obtain ⟨same, positive⟩ := bodyMatches_of_mem found
  refine ⟨List.mem_flatMap.mpr ⟨first, source, ?_⟩, positive⟩
  rwa [same, ← sameGroup, ← sameValue]

end

/-!
## The gate on anchor presence

The gate leaves the bodies of a logical signature unverified when the hits show
that it cannot hold.  Their counts are then zero where they need not be, which
changes nothing: the signature holds neither with its real counts nor with none.
-/

section

variable (eng : SigEngine) (obj : Object)

/-! ## The signature of a body -/

variable {eng} in
theorem bodyLdb_eq_some {b li : Nat} (owner : eng.bodyLdb b = some li) :
    ∃ l, eng.ldbs[li]? = some l ∧ b ∈ l.bodyIds := by
  have known (last : Option Nat) (items : List (Ldb × Nat))
      (sound : ∀ i, last = some i → ∃ l, eng.ldbs[i]? = some l ∧ b ∈ l.bodyIds)
      (source : ∀ item ∈ items, item ∈ eng.ldbs.zipIdx) :
      items.foldl (fun li item => if b ∈ item.1.bodyIds then some item.2 else li)
        last = some li → ∃ l, eng.ldbs[li]? = some l ∧ b ∈ l.bodyIds := by
    induction items generalizing last with
    | nil => exact sound li
    | cons item items ih =>
        obtain ⟨l, i⟩ := item
        refine ih _ ?_ fun later member => source later (by simp [member])
        intro j
        dsimp only
        split
        case isTrue counted =>
            intro same
            cases same
            have here := source (l, i) (by simp)
            exact ⟨l, List.mem_zipIdx_iff_getElem?.mp here, counted⟩
        case isFalse => exact sound j
  exact known none _ (by simp) (fun _ member => member) owner

variable {eng} in
theorem bodyLdb_of_mem {l : Ldb} {b li : Nat} (here : eng.ldbs[li]? = some l)
    (counted : b ∈ l.bodyIds) : eng.bodyLdb b = some li := by
  have known (last : Option Nat) (items : List (Ldb × Nat))
      (source : last.isSome ∨ ∃ item ∈ items, b ∈ item.1.bodyIds) :
      (items.foldl (fun li item => if b ∈ item.1.bodyIds then some item.2 else li)
        last).isSome := by
    induction items generalizing last with
    | nil => simpa using source
    | cons item items ih =>
        apply ih
        by_cases first : b ∈ item.1.bodyIds
        · simp [first]
        · simpa [first] using source
  have found : (eng.bodyLdb b).isSome :=
    known none _ (Or.inr ⟨(l, li), List.mem_zipIdx_iff_getElem?.mpr here,
      counted⟩)
  obtain ⟨lj, owner⟩ := Option.isSome_iff_exists.mp found
  obtain ⟨m, there, alsoCounted⟩ := bodyLdb_eq_some owner
  rw [owner, eng.apart li lj l m b here there counted alsoCounted]

theorem owner_of_isDead {alive : Option (Nat → Bool)} {b : Nat}
    (dead : isDead eng alive b = true) :
    (eng.bodies[b]?).map Body.owner = some .ldbSub := by
  cases alive with
  | none => cases dead
  | some alive =>
      cases owner : eng.bodyLdb b with
      | none => simp [isDead, owner] at dead
      | some li =>
          obtain ⟨l, here, counted⟩ := bodyLdb_eq_some owner
          obtain ⟨body, found, kind⟩ :=
            eng.owned l (List.mem_of_getElem? here) b counted
          simp [found, kind]

/-! ## Counting without some bodies -/

/-- `gated` counts what `full` does but for the bodies left out. -/
structure Scratch.Without (dead : Nat → Bool) (full gated : Scratch) :
    Prop where
  counts : ∀ b, gated.counts b = if dead b then 0 else full.counts b
  offs : ∀ b, gated.offs b = if dead b then none else full.offs b
  touched : gated.touched = full.touched.filter fun b => !dead b

namespace Scratch

variable {dead : Nat → Bool} {full gated : Scratch}

theorem Without.new (dead : Nat → Bool) : Without dead new new :=
  ⟨by simp [Scratch.new], by simp [Scratch.new], rfl⟩

theorem Without.record_left {e : Event} (without : Without dead full gated)
    (out : dead e.body = true) : Without dead (full.record e) gated := by
  refine ⟨?_, ?_, ?_⟩
  · intro b
    rw [without.counts b]
    by_cases same : b = e.body
    · simp [same, out]
    · simp [record, same]
  · intro b
    rw [without.offs b]
    by_cases same : b = e.body
    · simp [same, out]
    · simp [record, same]
  · rw [without.touched]
    simp only [record]
    split
    · simp [List.filter_append, out]
    · rfl

theorem Without.record {e : Event} (without : Without dead full gated)
    (kept : dead e.body = false) :
    Without dead (full.record e) (gated.record e) := by
  have count : gated.counts e.body = full.counts e.body := by
    simp [without.counts, kept]
  have off : gated.offs e.body = full.offs e.body := by
    simp [without.offs, kept]
  refine ⟨?_, ?_, ?_⟩
  · intro b
    by_cases same : b = e.body
    · simp [Scratch.record, same, kept, count]
    · simp [Scratch.record, same, without.counts]
  · intro b
    by_cases same : b = e.body
    · simp [Scratch.record, same, kept, off]
    · simp [Scratch.record, same, without.offs]
  · simp only [Scratch.record, count, without.touched]
    split
    · simp [List.filter_append, kept]
    · rfl

end Scratch

theorem countMatches_without {dead : Nat → Bool} {full gated : Scratch}
    (events : List Event) (without : Scratch.Without dead full gated) :
    Scratch.Without dead (events.foldl (countMatch eng) full)
      ((events.filter fun e => !dead e.body).foldl (countMatch eng)
        gated) := by
  induction events generalizing full gated with
  | nil => exact without
  | cons e events ih =>
      rw [List.foldl_cons, List.filter_cons]
      cases out : dead e.body with
      | true =>
          apply ih
          unfold countMatch
          split
          · exact without.record_left out
          · exact without
      | false =>
          rw [if_pos (by rfl), List.foldl_cons]
          apply ih
          unfold countMatch
          split
          · exact without.record out
          · exact without

/-- The bodies left out add no detection. -/
theorem nameMatches_without {alive : Option (Nat → Bool)} (c : Collected)
    (events : List Event) :
    (events.filter fun e => !isDead eng alive e.body).foldl (nameMatch eng) c =
      events.foldl (nameMatch eng) c := by
  induction events generalizing c with
  | nil => rfl
  | cons e events ih =>
      rw [List.foldl_cons, List.filter_cons]
      cases dead : isDead eng alive e.body with
      | true =>
          have silent : nameMatch eng c e = c := by
            simp [nameMatch, owner_of_isDead eng dead]
          rw [silent]
          exact ih c
      | false =>
          rw [if_pos (by rfl), List.foldl_cons]
          exact ih _

theorem counts_of_unmatched {events : List Event} {b : Nat}
    (unmatched : ∀ e ∈ events, e.body ≠ b) :
    (events.foldl (countMatch eng) Scratch.new).counts b = 0 := by
  apply List.foldlRecOn (motive := fun sc : Scratch => sc.counts b = 0) _ _ rfl
  intro sc zero e member
  unfold countMatch
  split
  · have apart : b ≠ e.body := (unmatched e member).symm
    simpa [Scratch.record, apart] using zero
  · exact zero

/-! ## Dead signatures -/

theorem evalLdb_of_absent {hits : List Report} {l : Ldb} {sc : Scratch}
    (absent : l.expr.canBeTrueAbsent (absentSub eng hits l) = false)
    (unhit : ∀ b, b ∉ hitBodies eng hits → sc.counts b = 0) :
    evalLdb eng obj sc l = false := by
  have zero : ∀ i, absentSub eng hits l i = true →
      l.subCounts obj.buf sc.counts sc.offs (imgHash eng obj) i = 0 := by
    intro i none
    unfold absentSub at none
    cases sub : l.subs[i]? with
    | none => simp [sub] at none
    | some s =>
        cases s with
        | bodies ids =>
            rw [Ldb.subCounts_bodies sub]
            apply totalCount_eq_zero
            intro b member
            apply unhit b
            simp only [sub, Bool.not_eq_true', List.any_eq_false,
              decide_eq_true_eq] at none
            exact none b member
        | pcre p => simp [sub] at none
        | bcomp b => simp [sub] at none
        | fuzzy hash dist => simp [sub] at none
  have fails : l.expr.eval
      (l.subCounts obj.buf sc.counts sc.offs (imgHash eng obj)) = false := by
    by_contra holds
    have possible := Node.canBeTrueAbsent_of_eval
      (l.subCounts_le obj.buf sc.counts sc.offs (imgHash eng obj)) zero l.expr
      (by simpa using holds)
    rw [absent] at possible
    cases possible
  unfold evalLdb Ldb.eval
  simp [fails]

theorem absent_of_dead {hits : List Report} {total li : Nat} {l : Ldb}
    {alive : Nat → Bool} (here : eng.ldbs[li]? = some l)
    (gate : ldbAlive eng hits total = some alive)
    (dead : alive li = false) :
    l.expr.canBeTrueAbsent (absentSub eng hits l) = false := by
  unfold ldbAlive at gate
  obtain ⟨_, made⟩ := Option.ite_none_left_eq_some.mp gate
  cases made
  simp only [here] at dead
  split at dead
  · exact dead
  · cases dead

/-! ## The gate changes nothing -/

/-- The counts of a walk over the hits. -/
def countsOf (events : List Event) : Scratch :=
  events.foldl (countMatch eng) Scratch.new

variable {eng obj} {hits : List Report} {total : Nat}
  {full gated : Scratch}

private theorem evalLdb_of_live {l : Ldb}
    (without : full.Without (isDead eng (ldbAlive eng hits total)) gated)
    (live : ∀ b ∈ l.bodyIds, isDead eng (ldbAlive eng hits total) b = false) :
    evalLdb eng obj full l = evalLdb eng obj gated l := by
  apply Ldb.eval_congr
  · intro b member
    rw [without.counts, live b member]
    rfl
  · intro b member
    rw [without.offs, live b member]
    rfl

/-- Either the hits do not rule a signature out, or it does not hold of what
bodies without a hit leave at zero. -/
theorem live_or_absent {l : Ldb} {li : Nat} (here : eng.ldbs[li]? = some l) :
    (∀ b ∈ l.bodyIds, isDead eng (ldbAlive eng hits total) b = false) ∨
      l.expr.canBeTrueAbsent (absentSub eng hits l) = false := by
  cases gate : ldbAlive eng hits total with
  | none => exact Or.inl fun _ _ => rfl
  | some alive =>
      cases dead : alive li with
      | false => exact Or.inr (absent_of_dead eng here gate dead)
      | true =>
          refine Or.inl fun b member => ?_
          simp [isDead, bodyLdb_of_mem here member, dead]

theorem evalLdb_without {l : Ldb} {li : Nat} (here : eng.ldbs[li]? = some l)
    (without : full.Without (isDead eng (ldbAlive eng hits total)) gated)
    (unhit : ∀ b, b ∉ hitBodies eng hits → full.counts b = 0) :
    evalLdb eng obj full l = evalLdb eng obj gated l := by
  rcases live_or_absent here with live | absent
  · exact evalLdb_of_live without live
  · rw [evalLdb_of_absent eng obj absent unhit]
    refine (evalLdb_of_absent eng obj absent fun b outside => ?_).symm
    rw [without.counts, unhit b outside]
    exact ite_self 0

theorem ldbHolds_without
    (without : full.Without (isDead eng (ldbAlive eng hits total)) gated)
    (unhit : ∀ b, b ∉ hitBodies eng hits → full.counts b = 0) (li : Nat) :
    ldbHolds eng obj full li = ldbHolds eng obj gated li := by
  unfold ldbHolds
  cases here : eng.ldbs[li]? with
  | none => rfl
  | some l => simp only [evalLdb_without here without unhit]

theorem live_of_holds (total : Nat) {l : Ldb} {li : Nat}
    (here : eng.ldbs[li]? = some l)
    (unhit : ∀ b, b ∉ hitBodies eng hits → full.counts b = 0)
    (holds : ldbHolds eng obj full li = true) :
    ∀ b ∈ l.bodyIds, isDead eng (ldbAlive eng hits total) b = false := by
  rcases live_or_absent here with live | absent
  · exact live
  · rw [ldbHolds, here] at holds
    simp [evalLdb_of_absent eng obj absent unhit] at holds

theorem collectLdb_without {c : Collected} {li : Nat}
    (without : full.Without (isDead eng (ldbAlive eng hits total)) gated)
    (unhit : ∀ b, b ∉ hitBodies eng hits → full.counts b = 0)
    (holds : ldbHolds eng obj full li = true) :
    collectLdb eng obj full c li = collectLdb eng obj gated c li := by
  unfold collectLdb
  cases here : eng.ldbs[li]? with
  | none => rfl
  | some l =>
      have live := live_of_holds total here unhit holds
      have offsets : subOffsets l full = subOffsets l gated := by
        unfold subOffsets
        apply List.map_congr_left
        intro s member
        cases s with
        | bodies ids =>
            have same : ids.filterMap full.offs = ids.filterMap gated.offs := by
              apply List.filterMap_congr
              intro b inside
              rw [without.offs, live b (List.mem_flatMap.mpr
                ⟨_, member, inside⟩)]
              rfl
            simp only [same]
        | pcre p => rfl
        | bcomp b => rfl
        | fuzzy hash dist => rfl
      simp only [evalLdb_without here without unhit, offsets]

theorem candidates_without
    (without : full.Without (isDead eng (ldbAlive eng hits total)) gated)
    (unhit : ∀ b, b ∉ hitBodies eng hits → full.counts b = 0) :
    (candidates eng obj full).filter (ldbHolds eng obj full) =
      (candidates eng obj gated).filter (ldbHolds eng obj gated) := by
  apply ((candidates_increasing eng obj full).filter _).eq_of_mem_iff
    ((candidates_increasing eng obj gated).filter _)
  intro li
  rw [List.mem_filter, List.mem_filter, ldbHolds_without without unhit,
    mem_candidates, mem_candidates, without.touched]
  apply and_congr_left
  intro holds
  apply or_congr_left
  constructor
  · intro touched
    obtain ⟨b, member, owner⟩ := touched
    obtain ⟨l, here, counted⟩ := bodyLdb_eq_some owner
    have live := live_of_holds total here unhit
      ((ldbHolds_without without unhit li).trans holds) b counted
    exact ⟨b, List.mem_filter.mpr ⟨member, by simp [live]⟩, owner⟩
  · intro touched
    obtain ⟨b, member, owner⟩ := touched
    exact ⟨b, (List.mem_filter.mp member).1, owner⟩

theorem collectLdbs_without {c : Collected}
    (without : full.Without (isDead eng (ldbAlive eng hits total)) gated)
    (unhit : ∀ b, b ∉ hitBodies eng hits → full.counts b = 0) :
    (candidates eng obj gated).foldl (collectLdb eng obj gated) c =
      (candidates eng obj full).foldl (collectLdb eng obj full) c := by
  rw [collectLdbs_filter, collectLdbs_filter eng obj full,
    candidates_without without unhit]
  apply List.foldl_ext
  intro c li member
  have holds := (List.mem_filter.mp member).2
  rw [← ldbHolds_without without unhit] at holds
  exact (collectLdb_without without unhit holds).symm

end

section

variable (eng : SigEngine) (obj : Object)

theorem scanAllFrom_eq (wantFired : Bool) (events : List Event) :
    scanAllFrom eng obj wantFired events =
      (candidates eng obj (countsOf eng events)).foldl
        (collectLdb eng obj (countsOf eng events))
        (events.foldl (nameMatch eng)
          ⟨[], [], if wantFired then some [] else none, none⟩) := by
  unfold scanAllFrom
  simp only [collectMatches_eq]
  rfl

variable {eng} in
/-- Leaving out the matches of the bodies the gate rules out. -/
theorem gated_without {events : List Event} {hits : List Report} (total : Nat)
    (behind : ∀ e ∈ events, e.body ∈ hitBodies eng hits) :
    (countsOf eng events).Without (isDead eng (ldbAlive eng hits total))
        (countsOf eng (events.filter fun e =>
          !isDead eng (ldbAlive eng hits total) e.body)) ∧
      ∀ b, b ∉ hitBodies eng hits → (countsOf eng events).counts b = 0 := by
  refine ⟨countMatches_without eng events (Scratch.Without.new _), ?_⟩
  intro b outside
  apply counts_of_unmatched
  intro e member same
  exact outside (same ▸ behind e member)

theorem scanAllFrom_gated {events : List Event} {hits : List Report}
    (total : Nat) (wantFired : Bool)
    (behind : ∀ e ∈ events, e.body ∈ hitBodies eng hits) :
    scanAllFrom eng obj wantFired
        (events.filter fun e =>
          !isDead eng (ldbAlive eng hits total) e.body) =
      scanAllFrom eng obj wantFired events := by
  obtain ⟨without, unhit⟩ := gated_without total behind
  rw [scanAllFrom_eq, scanAllFrom_eq, nameMatches_without]
  exact collectLdbs_without without unhit

/-- Whatever the hits, verifying the bodies behind them with the gate and
without leads to the same detections, bytecode triggers and re-type. -/
theorem replay_gate_transparent (wantFired : Bool) {hits : List Report}
    (total : Nat) (inside : ∀ r ∈ hits, r.Inside obj.buf) :
    scanAllFrom eng obj wantFired
        (replay eng obj.buf obj.layout (ldbAlive eng hits total) hits
          (Verifier.new .unlimited)).1 =
      scanAllFrom eng obj wantFired
        (replay eng obj.buf obj.layout none hits
          (Verifier.new .unlimited)).1 := by
  have free := Verifier.free_new obj.buf
  rw [(replay_ungated eng obj.layout inside free).1,
    replay_free eng obj.layout _ inside free]
  apply scanAllFrom_gated
  intro e member
  exact (mem_replayed eng obj.layout member).1

end

def subLiteral : Body := ⟨none, .fixed 0 0, .any, 0, false, none, .ldbSub⟩

theorem subLiteral_built : subLiteral.Built :=
  ⟨fun _ none => (nomatch none), fun _ => rfl⟩

def bothLiterals : Ldb where
  name := "Both"
  target := 0
  expr := .and [.sub 0, .sub 1]
  firesOnEmpty := false
  subs := [.bodies [0], .bodies [1]]
  fileSize := none
  container := .unconstrained
  intermediates := none
  handlerType := none
  entryPoint := none
  numSections := none
  iconGroup := none
  unofficial := false
  bytecode := none

/-- The engine of that signature alone. -/
def bothEngine : SigEngine where
  partitions := [⟨0, false, [[0], [1]]⟩]
  pins := ⟨[], []⟩
  bodies := [subLiteral, subLiteral]
  ldbs := [bothLiterals]
  built := by
    intro body member
    have same : body = subLiteral := by simpa using member
    exact same ▸ subLiteral_built
  owned := by
    intro l member b counted
    cases List.mem_singleton.mp member
    have small : b = 0 ∨ b = 1 := by
      simpa [Ldb.bodyIds, bothLiterals] using counted
    rcases small with rfl | rfl
    · exact ⟨subLiteral, rfl, rfl⟩
    · exact ⟨subLiteral, rfl, rfl⟩
  apart := by
    intro li lj l m b first second _ _
    have one : li < 1 := (List.getElem?_eq_some_iff.mp first).1
    have other : lj < 1 := (List.getElem?_eq_some_iff.mp second).1
    omega
  empties := by
    intro l member
    cases List.mem_singleton.mp member
    rfl

/-- A hit of the first literal alone rules the signature out. -/
theorem replay_gate_transparent_dead :
    let obj : Object := ⟨[0x61], .unknown, false, none, none, [], none, none⟩
    let hits : List Report := [⟨0, 0, 0, 1⟩]
    (ldbAlive bothEngine hits gateMinHits).map (· 0) = some false ∧
      scanAllFrom bothEngine obj true
          (replay bothEngine obj.buf none
            (ldbAlive bothEngine hits gateMinHits) hits
            (Verifier.new .unlimited)).1 =
        scanAllFrom bothEngine obj true
          (replay bothEngine obj.buf none none hits
            (Verifier.new .unlimited)).1 := by
  intro obj hits
  refine ⟨by decide, ?_⟩
  exact replay_gate_transparent bothEngine obj true gateMinHits
    (by simp [hits, obj, Report.Inside])

end Exav.Engine
