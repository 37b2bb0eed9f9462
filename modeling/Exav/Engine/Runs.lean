import Exav.Engine.Unlimited
import Exav.Lib.Pieces

/-!
# The runs the memo holds

The direct search lists the starts of a literal as runs that are apart.  A
memo filled by it holds, of each block, the runs a search of the block lists;
so what it hands over is cut where a block ends and nowhere else.
-/

namespace Exav.Engine

open Exav.Interval Exav.Visit

/-! ## Runs of the direct search are apart -/

private theorem byteAt_of_occursAt {hay pat : Bytes} {q i : Nat}
    (occurs : occursAt hay pat q = true) (inside : i < pat.length) :
    byteAt hay (q + i) = pat[i] := by
  rw [byteAt_eq, occursAt_iff_getElem?.mp occurs i inside,
    List.getElem?_eq_getElem inside, Option.getD_some]

private theorem uniform_of_neighbours {hay pat : Bytes} {q : Nat}
    (here : occursAt hay pat q = true)
    (next : occursAt hay pat (q + 1) = true) :
    ∀ i (inside : i < pat.length), pat[i] = pat.headD 0 := by
  intro i inside
  induction i with
  | zero =>
      cases pat with
      | nil => cases inside
      | cons b pat => rfl
  | succ i ih =>
      have before : i < pat.length := by omega
      have shifted := byteAt_of_occursAt next before
      have same := byteAt_of_occursAt here inside
      rw [show q + (i + 1) = q + 1 + i by omega] at same
      rw [← same, shifted]
      exact ih before

/-- The literal does not occur right after a run. -/
theorem lastOf_maximal {hay pat : Bytes} {q stop : Nat} (filled : pat ≠ [])
    (occurs : occursAt hay pat q = true)
    (fits : lastOf hay pat q stop + 1 + pat.length ≤ stop)
    (inside : stop ≤ hay.length) :
    occursAt hay pat (lastOf hay pat q stop + 1) = false := by
  by_contra next
  rw [Bool.not_eq_false] at next
  have positive := List.length_pos_iff.mpr filled
  unfold lastOf at next fits
  dsimp only at next fits
  split at next
  case isFalse single =>
    rw [if_neg single] at fits
    apply single
    have uniform := uniform_of_neighbours occurs next
    refine ⟨?_, by omega, ?_⟩
    · rw [List.all_eq_true]
      intro b member
      obtain ⟨i, bound, rfl⟩ := List.getElem_of_mem member
      simpa using uniform i bound
    · have last := byteAt_of_occursAt next
        (show pat.length - 1 < pat.length by omega)
      rw [show q + 1 + (pat.length - 1) = q + pat.length by omega] at last
      rw [last]
      exact uniform _ _
  case isTrue repeats =>
    rw [if_pos repeats] at fits
    obtain ⟨uniform, _, _⟩ := repeats
    set first := pat.headD 0
    set rest := window hay (q + pat.length) (stop - (q + pat.length))
      with restDef
    set same := rest.takeWhile fun b => b == first with sameDef
    have last := byteAt_of_occursAt next
      (show pat.length - 1 < pat.length by omega)
    have equal : pat[pat.length - 1] = first := by
      have all := List.all_eq_true.mp uniform _
        (List.getElem_mem (show pat.length - 1 < pat.length by omega))
      simpa using all
    rw [equal, show q + same.length + 1 + (pat.length - 1) =
      q + pat.length + same.length by omega] at last
    have split : rest = same ++ rest.dropWhile fun b => b == first :=
      List.takeWhile_append_dropWhile.symm
    have length : rest.length = stop - (q + pat.length) := by
      rw [restDef, length_window]
      omega
    have more : same.length < rest.length := by omega
    have stops := List.head?_dropWhile_not (fun b => b == first) rest
    have after : rest[same.length]? = some first := by
      rw [restDef, getElem?_window hay (by omega), List.getElem?_eq_getElem
        (by omega)]
      rw [byteAt_eq, List.getElem?_eq_getElem (by omega)] at last
      exact congrArg some (by simpa using last)
    have headIs : (rest.dropWhile fun b => b == first).head? =
        some first := by
      rw [split, List.getElem?_append_right le_rfl] at after
      simpa [List.head?_eq_getElem?] using after
    rw [headIs] at stops
    simp at stops

theorem occurrenceRunsFuel_separated {hay pat : Bytes} {qmax : Nat}
    (filled : pat ≠ []) (inside : qmax + pat.length ≤ hay.length)
    {fuel start : Nat} (enough : qmax + 1 - start ≤ fuel) :
    Separated (occurrenceRunsFuel hay pat qmax fuel start) := by
  induction fuel generalizing start with
  | zero => exact List.Pairwise.nil
  | succ fuel ih =>
      rw [occurrenceRunsFuel]
      split
      case isFalse => exact List.Pairwise.nil
      case isTrue within =>
        cases found : find hay pat start (qmax + pat.length) with
        | none => exact List.Pairwise.nil
        | some q =>
            obtain ⟨above, fits, occurs, _⟩ := find_eq_some found
            have ordered := (lastOf_spec occurs fits).1
            dsimp only
            set last := lastOf hay pat q (qmax + pat.length) with lastDef
            refine List.pairwise_cons.mpr ⟨?_, @ih (last + 1) (by omega)⟩
            intro run member
            have later := occurrenceRunsFuel_spec inside
              (show qmax + 1 - (last + 1) ≤ fuel by omega)
            have start : run.1 ∈ occurrences hay pat (last + 1) qmax := by
              rw [← later.2]
              exact List.mem_flatMap.mpr
                ⟨run, member, by simp [later.1 run member]⟩
            obtain ⟨least, most, here⟩ := mem_occurrences.mp start
            by_contra near
            have same : run.1 = last + 1 := by
              dsimp only at near
              omega
            rw [same] at here most
            rw [lastOf_maximal filled occurs (by omega) inside] at here
            cases here

theorem occurrenceRuns_separated {hay pat : Bytes} {lo qmax : Nat}
    (filled : pat ≠ []) (inside : qmax + pat.length ≤ hay.length) :
    Separated (occurrenceRuns hay pat lo qmax) :=
  occurrenceRunsFuel_separated filled inside le_rfl

theorem occurrenceRuns_within {hay pat : Bytes} {lo qmax : Nat}
    (inside : qmax + pat.length ≤ hay.length) {run : Interval}
    (member : run ∈ occurrenceRuns hay pat lo qmax) :
    lo ≤ run.1 ∧ run.1 ≤ run.2 ∧ run.2 ≤ qmax := by
  have ordered := occurrenceRuns_proper lo inside run member
  have ends (p : Nat) (within : run.1 ≤ p ∧ p ≤ run.2) :
      lo ≤ p ∧ p ≤ qmax := by
    have start : p ∈ occurrences hay pat lo qmax := by
      rw [← occurrenceRuns_positions inside]
      exact List.mem_flatMap.mpr ⟨run, member, mem_positions.mpr within⟩
    obtain ⟨least, most, _⟩ := mem_occurrences.mp start
    exact ⟨least, most⟩
  exact ⟨(ends run.1 ⟨le_rfl, ordered⟩).1, ordered,
    (ends run.2 ⟨ordered, le_rfl⟩).2⟩

/-! ## What the memo holds -/

theorem haystack_ne_nil {nocase : Bool} {pat : Bytes} (filled : pat ≠ []) :
    haystack nocase pat ≠ [] := by
  intro empty
  have length := length_haystack nocase pat
  rw [empty] at length
  exact filled (List.length_eq_zero_iff.mp length.symm)

namespace OccCache

/-- The starts of block `b`, as the direct search lists them. -/
def blockRuns (hay pat : Bytes) (b : Nat) : List Interval :=
  occurrenceRuns hay pat (b * occBlock)
    (min ((b + 1) * occBlock - 1) (hay.length - pat.length))

/-- Every block the memo holds lists its starts as the direct search does. -/
def Verbatim (cache : OccCache) (buf : Bytes) : Prop :=
  ∀ nocase needle found, needle.length ≤ buf.length →
    cache.entries nocase needle = some (.blocks found) →
      ∀ b runs, found b = some runs →
        runs = blockRuns (haystack nocase buf) (haystack nocase needle) b

theorem verbatim_withCap (cap : Nat) (buf : Bytes) :
    (withCap cap).Verbatim buf := by
  intro nocase needle found _ known
  rw [entries_withCap] at known
  cases known

theorem visitAll_push_short {room : Nat} {ivs runs : List Interval}
    (short : ∀ iv ∈ ivs, iv.1 ≤ iv.2 ∧ iv.2 - iv.1 < OccRun.maxLen)
    (whole : (visitAll (OccRun.push room) runs ivs).2 = true) :
    (visitAll (OccRun.push room) runs ivs).1 = runs ++ ivs := by
  induction ivs generalizing runs with
  | nil => simp
  | cons iv ivs ih =>
      obtain ⟨ordered, small⟩ := short iv (by simp)
      rw [visitAll_cons] at whole ⊢
      by_cases full : runs.length + ((iv.2 - iv.1) / OccRun.maxLen + 1) > room
      · have refused : OccRun.push room runs iv = (runs, false) := by
          simp only [OccRun.push, full, if_true]
        rw [refused] at whole
        cases whole
      · have one : OccRun.pieces ((iv.2 - iv.1) / OccRun.maxLen + 1)
            iv.1 iv.2 = [iv] := by
          have block : OccRun.maxLen = 65536 := rfl
          rw [Nat.div_eq_of_lt small]
          have stop : min iv.2 (iv.1 + OccRun.maxLen - 1) = iv.2 := by omega
          simp [OccRun.pieces, stop]
        have accepted : OccRun.push room runs iv = (runs ++ [iv], true) := by
          simp only [OccRun.push, full, if_false, one]
        rw [accepted] at whole ⊢
        simp only [if_true] at whole ⊢
        rw [ih (fun later member => short later (by simp [member])) whole]
        simp

theorem cacheRuns_eq {room : Nat} {ivs runs : List Interval}
    (short : ∀ iv ∈ ivs, iv.1 ≤ iv.2 ∧ iv.2 - iv.1 < OccRun.maxLen)
    (result : cacheRuns room ivs = some runs) : runs = ivs := by
  rw [cacheRuns] at result
  cases pushed : visitAll (OccRun.push room) [] ivs with
  | mk cached whole =>
      rw [pushed] at result
      cases whole with
      | false => cases result
      | true =>
          have same := visitAll_push_short short (by rw [pushed])
          rw [pushed] at same
          dsimp only at result
          split at result
          · cases result
          · cases result
            simpa using same

theorem searchBlock_eq {hay pat : Bytes} {room b : Nat}
    {runs : List Interval} (inside : pat.length ≤ hay.length)
    (result : searchBlock hay pat room b = some runs) :
    runs = blockRuns hay pat b := by
  have short : ∀ iv ∈ blockRuns hay pat b,
      iv.1 ≤ iv.2 ∧ iv.2 - iv.1 < OccRun.maxLen := by
    intro iv member
    have bounds := occurrenceRuns_within (by omega) member
    have block : occBlock = OccRun.maxLen := rfl
    have positive : 0 < OccRun.maxLen := by decide
    have next : (b + 1) * occBlock = b * occBlock + occBlock :=
      Nat.succ_mul b occBlock
    omega
  exact cacheRuns_eq short result

theorem Verbatim.valid {cache : OccCache} {buf : Bytes}
    (verbatim : cache.Verbatim buf) : cache.Valid buf := by
  intro nocase needle found inside known b runs here
  have fits : min ((b + 1) * occBlock - 1)
      ((haystack nocase buf).length - (haystack nocase needle).length) +
        (haystack nocase needle).length ≤ (haystack nocase buf).length := by
    simp only [length_haystack]
    omega
  rw [verbatim nocase needle found inside known b runs here]
  exact ⟨occurrenceRuns_proper _ fits, occurrenceRuns_positions fits⟩

theorem readBlocks_cut {hay pat : Bytes} {lo qmax : Nat}
    {found : Nat → Option (List Interval)} (filled : pat ≠ [])
    (inside : pat.length ≤ hay.length)
    (known : ∀ b runs, found b = some runs → runs = blockRuns hay pat b) :
    (readBlocks found lo qmax).Pairwise (Cut (occBlock ∣ ·)) ∧
      ∀ piece ∈ readBlocks found lo qmax,
        ∃ b, b * occBlock ≤ piece.1 ∧ piece.2 < (b + 1) * occBlock := by
  have fits (b : Nat) : min ((b + 1) * occBlock - 1)
      (hay.length - pat.length) + pat.length ≤ hay.length := by omega
  have positive : 0 < occBlock := by decide
  have blocks (b : Nat) : Separated (Interval.clip ((found b).getD []) lo qmax) ∧
      ∀ piece ∈ Interval.clip ((found b).getD []) lo qmax,
        b * occBlock ≤ piece.1 ∧ piece.2 < (b + 1) * occBlock := by
    cases here : found b with
    | none => exact ⟨List.Pairwise.nil, by simp [Interval.clip]⟩
    | some runs =>
        rw [known b runs here, Option.getD_some]
        refine ⟨clip_separated (occurrenceRuns_separated filled (fits b)) _ _,
          ?_⟩
        intro piece member
        obtain ⟨source, inRuns, lower, upper⟩ := clip_within member
        have bounds := occurrenceRuns_within (fits b) inRuns
        have next : (b + 1) * occBlock = b * occBlock + occBlock :=
          Nat.succ_mul b occBlock
        omega
  constructor
  · rw [readBlocks, List.pairwise_flatMap]
    refine ⟨fun b _ => (blocks b).1.cut _, ?_⟩
    refine (List.pairwise_lt_range' ..).imp ?_
    intro earlier later before first inEarlier second inLater
    have firstBounds := (blocks earlier).2 first inEarlier
    have secondBounds := (blocks later).2 second inLater
    have order : (earlier + 1) * occBlock ≤ later * occBlock :=
      Nat.mul_le_mul_right occBlock before
    by_cases apart : first.2 + 1 < second.1
    · exact Or.inl apart
    · refine Or.inr ⟨by omega, later, ?_⟩
      rw [Nat.mul_comm]
      omega
  · intro piece member
    obtain ⟨b, _, inBlock⟩ := List.mem_flatMap.mp member
    exact ⟨b, (blocks b).2 piece inBlock⟩

/-- The memo stays verbatim and answers with the starts, cut where a block
ends. -/
theorem visit_verbatim {cache : OccCache} {buf needle : Bytes} (nocase : Bool)
    {lo qmax : Nat} (verbatim : cache.Verbatim buf) (filled : needle ≠ [])
    (inside : qmax + needle.length ≤ buf.length) :
    (cache.visit buf needle nocase lo qmax).1.Verbatim buf ∧
      ∀ runs, (cache.visit buf needle nocase lo qmax).2 = some runs →
        runs.Pairwise (Cut (occBlock ∣ ·)) ∧
          ∀ piece ∈ runs,
            ∃ b, b * occBlock ≤ piece.1 ∧ piece.2 < (b + 1) * occBlock := by
  have needleInside : (haystack nocase needle).length ≤
      (haystack nocase buf).length := by
    simp only [length_haystack]
    omega
  obtain ⟨stays, answers⟩ :=
    @visit_keeps (fun hay pat b runs => runs = blockRuns hay pat b) cache buf needle
      nocase lo qmax (fun room b runs => searchBlock_eq needleInside) verbatim
      (by omega)
  refine ⟨stays, fun runs same => ?_⟩
  obtain ⟨found, rfl, known, -⟩ := answers runs same
  exact readBlocks_cut (haystack_ne_nil filled) needleInside known

/-! ### A memo with room -/

theorem visitAll_push_whole {room : Nat} {ivs runs : List Interval}
    (short : ∀ iv ∈ ivs, iv.2 - iv.1 < OccRun.maxLen)
    (fits : runs.length + ivs.length ≤ room) :
    (visitAll (OccRun.push room) runs ivs).2 = true := by
  induction ivs generalizing runs with
  | nil => rfl
  | cons iv ivs ih =>
      have one : (iv.2 - iv.1) / OccRun.maxLen = 0 :=
        Nat.div_eq_of_lt (short iv (by simp))
      rw [List.length_cons] at fits
      have accepted : OccRun.push room runs iv =
          (runs ++ OccRun.pieces 1 iv.1 iv.2, true) := by
        rw [OccRun.push, one]
        exact if_neg (by omega)
      rw [visitAll_cons, accepted]
      simp only [if_true]
      apply ih fun later member => short later (by simp [member])
      rw [List.length_append, OccRun.pieces, OccRun.pieces]
      simp only [List.length_singleton]
      omega

theorem length_le_positions {ivs : List Interval} (proper : Proper ivs) :
    ivs.length ≤ (ivs.flatMap positions).length := by
  induction ivs with
  | nil => exact Nat.zero_le _
  | cons iv ivs ih =>
      obtain ⟨ordered, restProper⟩ := (proper_cons iv ivs).mp proper
      have rest := ih restProper
      rw [List.flatMap_cons, List.length_append, List.length_cons,
        positions_eq_cons ordered, List.length_cons]
      omega

theorem cacheRuns_fresh {room : Nat} {ivs : List Interval}
    (short : ∀ iv ∈ ivs, iv.1 ≤ iv.2 ∧ iv.2 - iv.1 < OccRun.maxLen)
    (rich : ivs.length + occBlockCost ≤ room) :
    cacheRuns room ivs = some ivs := by
  have whole : (visitAll (OccRun.push room) [] ivs).2 = true := by
    apply visitAll_push_whole fun iv member => (short iv member).2
    rw [List.length_nil]
    omega
  have runs := visitAll_push_short short whole
  rw [cacheRuns]
  cases pushed : visitAll (OccRun.push room) [] ivs with
  | mk cached go =>
      rw [pushed] at whole runs
      dsimp only at whole runs
      subst go
      subst cached
      simp only [List.nil_append]
      exact if_neg (by omega)

theorem searchBlock_fresh {hay pat : Bytes} {room : Nat} (b : Nat)
    (inside : pat.length ≤ hay.length)
    (rich : occBlock + occBlockCost ≤ room) :
    ∃ runs, searchBlock hay pat room b = some runs ∧
      runs.length ≤ occBlock := by
  have fits : min ((b + 1) * occBlock - 1) (hay.length - pat.length) +
      pat.length ≤ hay.length := by omega
  have next : (b + 1) * occBlock = b * occBlock + occBlock :=
    Nat.succ_mul b occBlock
  have positive : 0 < occBlock := by decide
  have count : (blockRuns hay pat b).length ≤ occBlock := by
    have few := length_le_positions (occurrenceRuns_proper (b * occBlock) fits)
    rw [occurrenceRuns_positions fits, occurrences] at few
    have all := List.length_filter_le (occursAt hay pat) (List.range'
      (b * occBlock) (min ((b + 1) * occBlock - 1)
        (hay.length - pat.length) + 1 - b * occBlock))
    rw [List.length_range'] at all
    rw [blockRuns]
    omega
  have short : ∀ iv ∈ blockRuns hay pat b,
      iv.1 ≤ iv.2 ∧ iv.2 - iv.1 < OccRun.maxLen := by
    intro iv member
    have bounds := occurrenceRuns_within fits member
    have block : occBlock = OccRun.maxLen := rfl
    omega
  have roomy : (blockRuns hay pat b).length + occBlockCost ≤ room := by omega
  exact ⟨blockRuns hay pat b, cacheRuns_fresh short roomy, count⟩

theorem searchBlocks_fresh
    {search : Nat → Nat → Option (List Interval)} {cap : Nat} {bs : List Nat}
    {found : Nat → Option (List Interval)} {total : Nat}
    (searched : ∀ room b, occBlock + occBlockCost ≤ room →
      ∃ runs, search room b = some runs ∧ runs.length ≤ occBlock)
    (rich : total + bs.length * (occBlock + occBlockCost) ≤ cap) :
    ∃ after, (searchBlocks search cap bs found total).1 = some after := by
  induction bs generalizing found total with
  | nil => exact ⟨found, rfl⟩
  | cons b bs ih =>
      rw [List.length_cons, Nat.succ_mul] at rich
      rw [searchBlocks]
      cases here : found b with
      | some cached => exact ih (by omega)
      | none =>
          obtain ⟨runs, result, few⟩ :=
            searched (cap - min total cap) b (by omega)
          dsimp only
          rw [result]
          exact ih (by omega)

/-- A fresh memo with room for every start of the blocks asked for answers. -/
theorem visit_fresh {cap : Nat} {buf needle : Bytes} (nocase : Bool)
    {lo qmax : Nat} (inside : needle.length ≤ buf.length) (filled : 0 < cap)
    (rich : (blockRange lo qmax).length * (occBlock + occBlockCost) ≤ cap) :
    ∃ runs, ((withCap cap).visit buf needle nocase lo qmax).2 =
      some runs := by
  have haystackInside : (haystack nocase needle).length ≤
      (haystack nocase buf).length := by
    simpa only [length_haystack] using inside
  obtain ⟨after, result⟩ := @searchBlocks_fresh
    (searchBlock (haystack nocase buf) (haystack nocase needle)) cap
    (blockRange lo qmax) (fun _ => none) 0
    (fun room b enough => searchBlock_fresh b haystackInside enough) (by omega)
  have capIs : (withCap cap).cap = cap := rfl
  have totalIs : (withCap cap).total = 0 := rfl
  rw [visit, capIs, if_neg (by omega), entries_withCap, Option.getD_none]
  dsimp only
  rw [totalIs]
  cases searched : searchBlocks (searchBlock (haystack nocase buf)
      (haystack nocase needle)) cap (blockRange lo qmax) (fun _ => none) 0 with
  | mk found total =>
      rw [searched] at result
      cases result
      exact ⟨_, rfl⟩

end OccCache

end Exav.Engine
