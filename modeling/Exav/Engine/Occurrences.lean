import Exav.Bytes
import Exav.Lib.Interval
import Exav.Lib.Visit

/-!
# Occurrences of a literal

`occurrenceRuns` lists every start of a literal in a range as runs of
consecutive starts, the way the direct search hands them over.  `OccCache`
memoises such runs a block of start positions at a time.  The main result is
that a valid memo answers with runs of exactly the same starts.
-/

namespace Exav.Engine

open Exav.Interval Exav.Visit

/-! ## The direct search -/

/-- The last start of the run of occurrences from `q`: a needle of one repeated
byte keeps occurring as long as that byte goes on. -/
def lastOf (hay pat : Bytes) (q stop : Nat) : Nat :=
  let first := pat.headD 0
  if (pat.all fun b => b == first) = true ∧ q + pat.length < stop ∧
      byteAt hay (q + pat.length) = first then
    q + ((window hay (q + pat.length) (stop - (q + pat.length))).takeWhile
      fun b => b == first).length
  else q

/-- The runs a search makes from `start` on, with `fuel` searches at most. -/
def occurrenceRunsFuel (hay pat : Bytes) (qmax : Nat) :
    Nat → Nat → List Interval
  | 0, _ => []
  | fuel + 1, start =>
      if start ≤ qmax then
        match find hay pat start (qmax + pat.length) with
        | none => []
        | some q =>
            let last := lastOf hay pat q (qmax + pat.length)
            (q, last) :: occurrenceRunsFuel hay pat qmax fuel (last + 1)
      else []

/-- Every start of `pat` in `hay` from `lo` to `qmax`, overlapping and
ascending, as runs of consecutive starts. -/
def occurrenceRuns (hay pat : Bytes) (lo qmax : Nat) : List Interval :=
  occurrenceRunsFuel hay pat qmax (qmax + 1 - lo) lo

/-- The starts of `pat` in `lo..=qmax`, one by one. -/
def occurrences (hay pat : Bytes) (lo qmax : Nat) : List Nat :=
  (List.range' lo (qmax + 1 - lo)).filter (occursAt hay pat)

theorem mem_occurrences {hay pat : Bytes} {lo qmax q : Nat} :
    q ∈ occurrences hay pat lo qmax ↔
      lo ≤ q ∧ q ≤ qmax ∧ occursAt hay pat q = true := by
  rw [occurrences, List.mem_filter, List.mem_range'_1]
  constructor
  · rintro ⟨⟨lower, upper⟩, occurs⟩
    exact ⟨lower, by omega, occurs⟩
  · rintro ⟨lower, upper, occurs⟩
    exact ⟨⟨lower, by omega⟩, occurs⟩

theorem occurrences_increasing (hay pat : Bytes) (lo qmax : Nat) :
    (occurrences hay pat lo qmax).Pairwise (· < ·) :=
  List.Pairwise.filter _ (List.pairwise_lt_range' ..)

private theorem uniform_occursAt {hay pat : Bytes} {first : UInt8} {r : Nat}
    (uniform : ∀ b ∈ pat, b = first)
    (filled : ∀ i < pat.length, hay[r + i]? = some first) :
    occursAt hay pat r = true := by
  rw [occursAt_iff_getElem?]
  intro i inside
  rw [filled i inside, List.getElem?_eq_getElem inside,
    uniform _ (List.getElem_mem inside)]

theorem lastOf_spec {hay pat : Bytes} {q stop : Nat}
    (occurs : occursAt hay pat q = true) (fits : q + pat.length ≤ stop) :
    q ≤ lastOf hay pat q stop ∧ lastOf hay pat q stop + pat.length ≤ stop ∧
      ∀ r, q ≤ r → r ≤ lastOf hay pat q stop →
        occursAt hay pat r = true := by
  unfold lastOf
  dsimp only
  split
  case isFalse single =>
    refine ⟨le_rfl, fits, ?_⟩
    intro r lower upper
    rwa [show r = q by omega]
  case isTrue repeats =>
    obtain ⟨uniform, room, _⟩ := repeats
    set first := pat.headD 0
    have bytesFirst : ∀ b ∈ pat, b = first := by
      simpa using uniform
    set rest := window hay (q + pat.length) (stop - (q + pat.length))
    set same := rest.takeWhile fun b => b == first
    have sameShort : same.length ≤ stop - (q + pat.length) := by
      have takeShort : same.length ≤ rest.length :=
        (List.takeWhile_prefix _).length_le
      have restShort : rest.length ≤ stop - (q + pat.length) := by
        rw [length_window]
        omega
      omega
    -- The run of the needle's byte starts with the needle itself.
    have filled : ∀ i < pat.length + same.length, hay[q + i]? = some first := by
      intro i inside
      by_cases needle : i < pat.length
      · rw [occursAt_iff_getElem?.mp occurs i needle,
          List.getElem?_eq_getElem needle,
          bytesFirst _ (List.getElem_mem needle)]
      · obtain ⟨j, rfl⟩ : ∃ j, i = pat.length + j :=
          ⟨i - pat.length, by omega⟩
        have inSame : j < same.length := by omega
        have kept : same <+: rest := List.takeWhile_prefix _
        have inRest : rest[j]? = some same[j] := by
          rw [kept.getElem inSame]
          exact List.getElem?_eq_getElem (inSame.trans_le kept.length_le)
        have equal : same[j] = first := by
          have taken := List.all_eq_true.mp
            (List.all_takeWhile (p := fun b : UInt8 => b == first) (l := rest))
            same[j] (List.getElem_mem inSame)
          simpa using taken
        have inWindow : j < stop - (q + pat.length) := by omega
        rw [← Nat.add_assoc, ← getElem?_window hay inWindow, inRest, equal]
    refine ⟨by omega, by omega, ?_⟩
    intro r lower upper
    apply uniform_occursAt bytesFirst
    intro i inside
    have position : r + i = q + (r - q + i) := by omega
    rw [position]
    exact filled _ (by omega)

theorem occurrenceRunsFuel_spec {hay pat : Bytes} {qmax : Nat}
    (inside : qmax + pat.length ≤ hay.length) {fuel start : Nat}
    (enough : qmax + 1 - start ≤ fuel) :
    Proper (occurrenceRunsFuel hay pat qmax fuel start) ∧
      (occurrenceRunsFuel hay pat qmax fuel start).flatMap positions =
        occurrences hay pat start qmax := by
  induction fuel generalizing start with
  | zero =>
      have empty : qmax + 1 - start = 0 := by omega
      simp [occurrenceRunsFuel, occurrences, empty]
  | succ fuel ih =>
      rw [occurrenceRunsFuel]
      split
      case isFalse past =>
        have empty : qmax + 1 - start = 0 := by omega
        simp [occurrences, empty]
      case isTrue within =>
        cases found : find hay pat start (qmax + pat.length) with
        | none =>
            refine ⟨proper_nil, ?_⟩
            symm
            rw [List.flatMap_nil, List.eq_nil_iff_forall_not_mem]
            intro q member
            obtain ⟨above, below, occurs⟩ := mem_occurrences.mp member
            have absent := find_eq_none found q above (by omega) (by omega)
            rw [occurs] at absent
            cases absent
        | some q =>
            obtain ⟨above, fits, occurs, earlier⟩ := find_eq_some found
            obtain ⟨ordered, lastFits, run⟩ := lastOf_spec occurs fits
            dsimp only
            set last := lastOf hay pat q (qmax + pat.length)
            obtain ⟨proper, rest⟩ := @ih (last + 1) (by omega)
            refine ⟨(proper_cons _ _).mpr ⟨ordered, proper⟩, ?_⟩
            rw [List.flatMap_cons, rest]
            refine List.Pairwise.eq_of_mem_iff (r := (· < ·)) ?_
              (occurrences_increasing ..) ?_
            · refine List.pairwise_append.mpr ⟨List.pairwise_lt_range' ..,
                occurrences_increasing .., ?_⟩
              intro before inRun after later
              have runBounds := mem_positions.mp inRun
              have laterBounds := mem_occurrences.mp later
              omega
            · intro r
              rw [List.mem_append, mem_positions, mem_occurrences,
                mem_occurrences]
              constructor
              · rintro (⟨lower, upper⟩ | ⟨lower, upper, here⟩)
                · exact ⟨by omega, by omega, run r lower upper⟩
                · exact ⟨by omega, upper, here⟩
              · rintro ⟨lower, upper, here⟩
                by_cases before : r < q
                · rw [earlier r lower before] at here
                  cases here
                · by_cases within : r ≤ last
                  · exact Or.inl ⟨by omega, within⟩
                  · exact Or.inr ⟨by omega, upper, here⟩

theorem occurrenceRuns_proper {hay pat : Bytes} (lo : Nat) {qmax : Nat}
    (inside : qmax + pat.length ≤ hay.length) :
    Proper (occurrenceRuns hay pat lo qmax) :=
  (occurrenceRunsFuel_spec inside le_rfl).1

theorem occurrenceRuns_positions {hay pat : Bytes} {lo qmax : Nat}
    (inside : qmax + pat.length ≤ hay.length) :
    (occurrenceRuns hay pat lo qmax).flatMap positions =
      occurrences hay pat lo qmax :=
  (occurrenceRunsFuel_spec inside le_rfl).2

/-! ## The memo -/

namespace OccRun

/-- The most starts one cached run holds. -/
def maxLen : Nat := 2 ^ 16

/-- `first..=last` cut into runs of at most `maxLen` starts. -/
def pieces : Nat → Nat → Nat → List Interval
  | 0, _, _ => []
  | count + 1, first, last =>
      let stop := min last (first + maxLen - 1)
      (first, stop) :: pieces count (stop + 1) last

/-- Append `first..=last` to `runs` as cached runs; refused, with nothing
appended, when that would make `runs` longer than `room`. -/
def push (room : Nat) (runs : List Interval) (iv : Interval) :
    List Interval × Bool :=
  let count := (iv.2 - iv.1) / maxLen + 1
  if runs.length + count > room then (runs, false)
  else (runs ++ pieces count iv.1 iv.2, true)

theorem pieces_spec {count first last : Nat} (ordered : first ≤ last)
    (enough : count = (last - first) / maxLen + 1) :
    Proper (pieces count first last) ∧
      (pieces count first last).flatMap positions = positions (first, last) := by
  induction count generalizing first with
  | zero => exact absurd enough (Nat.succ_ne_zero _).symm
  | succ count ih =>
      have block : maxLen = 65536 := rfl
      rw [block] at enough ih
      rw [pieces, block]
      by_cases single : last ≤ first + 65536 - 1
      · have done : count = 0 := by omega
        rw [min_eq_left single, done]
        exact ⟨by simpa [pieces] using ordered, by simp [pieces]⟩
      · have more : min last (first + 65536 - 1) = first + 65536 - 1 := by
          omega
        rw [more]
        obtain ⟨proper, rest⟩ :=
          @ih (first + 65536 - 1 + 1) (by omega) (by omega)
        refine ⟨(proper_cons _ _).mpr ⟨by dsimp only; omega, proper⟩, ?_⟩
        rw [List.flatMap_cons, rest,
          ← positions_split (by omega) (by omega)]

/-- A search whose every run was accepted is cached with the same starts. -/
theorem visitAll_push {room : Nat} {ivs runs : List Interval}
    (proper : Proper ivs) (runsProper : Proper runs)
    (whole : (visitAll (push room) runs ivs).2 = true) :
    Proper (visitAll (push room) runs ivs).1 ∧
      (visitAll (push room) runs ivs).1.flatMap positions =
        runs.flatMap positions ++ ivs.flatMap positions := by
  induction ivs generalizing runs with
  | nil => simpa using runsProper
  | cons iv ivs ih =>
      obtain ⟨ivProper, restProper⟩ := (proper_cons iv ivs).mp proper
      rw [visitAll_cons] at whole ⊢
      by_cases full : runs.length + ((iv.2 - iv.1) / maxLen + 1) > room
      · have refused : push room runs iv = (runs, false) := by
          simp only [push, full, if_true]
        rw [refused] at whole
        cases whole
      · have accepted : push room runs iv =
            (runs ++ pieces ((iv.2 - iv.1) / maxLen + 1) iv.1 iv.2, true) := by
          simp only [push, full, if_false]
        obtain ⟨piecesProper, piecesStarts⟩ := pieces_spec ivProper rfl
        rw [accepted] at whole ⊢
        simp only [if_true] at whole ⊢
        obtain ⟨nextProper, nextStarts⟩ :=
          ih restProper (runsProper.append piecesProper) whole
        refine ⟨nextProper, ?_⟩
        rw [nextStarts, List.flatMap_append, piecesStarts, List.flatMap_cons,
          List.append_assoc]

end OccRun

/-- What the memo knows about one token: its occurrences in each block of start
positions searched so far, or that it was refused. -/
inductive OccEntry where
  | blocks (found : Nat → Option (List Interval))
  | failed

/-- Per-scan memo of literal occurrences, one map for each case flag. -/
structure OccCache where
  cs : Bytes → Option OccEntry
  ci : Bytes → Option OccEntry
  total : Nat
  cap : Nat

/-- Start positions per block. -/
def occBlock : Nat := OccRun.maxLen

def occBlockCost : Nat := 4

/-- Cap on cached runs per scan. -/
def maxOccTotal : Nat := 4000000

namespace OccCache

def withCap (cap : Nat) : OccCache where
  cs _ := none
  ci _ := none
  total := 0
  cap := cap

def new : OccCache := withCap maxOccTotal

/-- The map a search under `nocase` uses. -/
def entries (cache : OccCache) (nocase : Bool) : Bytes → Option OccEntry :=
  if nocase then cache.ci else cache.cs

/-- Record what is known about `needle` under `nocase`. -/
def insert (cache : OccCache) (nocase : Bool) (needle : Bytes)
    (entry : OccEntry) : OccCache :=
  let update (map : Bytes → Option OccEntry) (key : Bytes) :=
    if key = needle then some entry else map key
  if nocase then { cache with ci := update cache.ci }
  else { cache with cs := update cache.cs }

/-- The runs of a block as they are cached, when they fit the `room` left under
the cap. -/
def cacheRuns (room : Nat) (ivs : List Interval) : Option (List Interval) :=
  match visitAll (OccRun.push room) [] ivs with
  | (runs, true) =>
      if runs.length + occBlockCost > room then none else some runs
  | (_, false) => none

/-- Search block `b`. -/
def searchBlock (hay pat : Bytes) (room b : Nat) : Option (List Interval) :=
  cacheRuns room (occurrenceRuns hay pat (b * occBlock)
    (min ((b + 1) * occBlock - 1) (hay.length - pat.length)))

/-- Search those of the blocks `bs` that no lookup reached before, each under
the room left at its turn.  The total of cached runs is threaded through;
`none` when a block was refused. -/
def searchBlocks (search : Nat → Nat → Option (List Interval)) (cap : Nat) :
    List Nat → (Nat → Option (List Interval)) → Nat →
      Option (Nat → Option (List Interval)) × Nat
  | [], found, total => (some found, total)
  | b :: bs, found, total =>
      match found b with
      | some _ => searchBlocks search cap bs found total
      | none =>
          match search (cap - min total cap) b with
          | none => (none, total)
          | some runs =>
              searchBlocks search cap bs
                (fun key => if key = b then some runs else found key)
                (total + runs.length + occBlockCost)

/-- The blocks a lookup over `lo..=qmax` reads. -/
def blockRange (lo qmax : Nat) : List Nat :=
  List.range' (lo / occBlock) (qmax / occBlock + 1 - lo / occBlock)

/-- The runs of starts in `lo..=qmax`, clipped to it, from searched blocks. -/
def readBlocks (found : Nat → Option (List Interval)) (lo qmax : Nat) :
    List Interval :=
  (blockRange lo qmax).flatMap fun b => clip ((found b).getD []) lo qmax

/-- The occurrences of `needle` starting in `lo..=qmax`, or `none` when the
token is not memoised and the caller searches directly. -/
def visit (cache : OccCache) (buf needle : Bytes) (nocase : Bool)
    (lo qmax : Nat) : OccCache × Option (List Interval) :=
  if cache.cap = 0 then (cache, none)
  else
    match (cache.entries nocase needle).getD (.blocks fun _ => none) with
    | .failed => (cache, none)
    | .blocks found =>
        let search := searchBlock (haystack nocase buf) (haystack nocase needle)
        match searchBlocks search cache.cap (blockRange lo qmax) found
          cache.total with
        | (none, total) =>
            ({ cache.insert nocase needle .failed with total := total }, none)
        | (some found, total) =>
            ({ cache.insert nocase needle (.blocks found) with total := total },
              some (readBlocks found lo qmax))

/-! ### What a memo says -/

/-- `runs` are exactly the starts in block `b`. -/
def BlockRuns (hay pat : Bytes) (b : Nat) (runs : List Interval) : Prop :=
  Proper runs ∧ runs.flatMap positions =
    occurrences hay pat (b * occBlock)
      (min ((b + 1) * occBlock - 1) (hay.length - pat.length))

/-- Searched blocks hold exactly the starts of their block. -/
def Found (hay pat : Bytes) (found : Nat → Option (List Interval)) : Prop :=
  ∀ b runs, found b = some runs → BlockRuns hay pat b runs

/-- Everything cached is true of `buf`. -/
def Valid (cache : OccCache) (buf : Bytes) : Prop :=
  ∀ nocase needle found, needle.length ≤ buf.length →
    cache.entries nocase needle = some (.blocks found) →
      Found (haystack nocase buf) (haystack nocase needle) found

@[simp] theorem entries_withCap (cap : Nat) (nocase : Bool) (needle : Bytes) :
    (withCap cap).entries nocase needle = none := by
  cases nocase <;> rfl

theorem valid_withCap (cap : Nat) (buf : Bytes) : (withCap cap).Valid buf := by
  intro nocase needle found _ known
  rw [entries_withCap] at known
  cases known

theorem entries_insert (cache : OccCache) (nocase other : Bool)
    (needle key : Bytes) (entry : OccEntry) :
    (cache.insert nocase needle entry).entries other key =
      if nocase = other ∧ key = needle then some entry
      else cache.entries other key := by
  cases nocase <;> cases other <;> simp [insert, entries]

/-- Everything cached of `buf` is as `holds` has it. -/
def Keeps (holds : Bytes → Bytes → Nat → List Interval → Prop) (cache : OccCache)
    (buf : Bytes) : Prop :=
  ∀ nocase needle found, needle.length ≤ buf.length →
    cache.entries nocase needle = some (.blocks found) →
      ∀ b runs, found b = some runs →
        holds (haystack nocase buf) (haystack nocase needle) b runs

theorem Keeps.insert {holds : Bytes → Bytes → Nat → List Interval → Prop}
    {cache : OccCache} {buf : Bytes} (keeps : cache.Keeps holds buf) {nocase : Bool}
    {needle : Bytes} {entry : OccEntry} (total : Nat)
    (entryKeeps : ∀ found, entry = .blocks found → ∀ b runs, found b = some runs →
      holds (haystack nocase buf) (haystack nocase needle) b runs) :
    ({ cache.insert nocase needle entry with total := total }).Keeps holds buf := by
  intro other key found inside known
  change (cache.insert nocase needle entry).entries other key = _ at known
  rw [entries_insert] at known
  split at known
  case isTrue here =>
    obtain ⟨rfl, rfl⟩ := here
    exact entryKeeps found (Option.some.inj known)
  case isFalse elsewhere => exact keeps other key found inside known

theorem cacheRuns_spec {room : Nat} {ivs runs : List Interval}
    (proper : Proper ivs) (result : cacheRuns room ivs = some runs) :
    Proper runs ∧ runs.flatMap positions = ivs.flatMap positions := by
  rw [cacheRuns] at result
  cases pushed : visitAll (OccRun.push room) [] ivs with
  | mk cached whole =>
      rw [pushed] at result
      cases whole with
      | false => cases result
      | true =>
          have starts := OccRun.visitAll_push proper proper_nil (by rw [pushed])
          simp only [pushed, List.flatMap_nil, List.nil_append] at starts
          dsimp only at result
          split at result
          · cases result
          · cases result
            exact starts

theorem searchBlock_spec {hay pat : Bytes} {room b : Nat}
    {runs : List Interval} (inside : pat.length ≤ hay.length)
    (result : searchBlock hay pat room b = some runs) :
    BlockRuns hay pat b runs := by
  have fits : min ((b + 1) * occBlock - 1) (hay.length - pat.length) +
      pat.length ≤ hay.length := by omega
  rw [BlockRuns, ← occurrenceRuns_positions fits]
  exact cacheRuns_spec (occurrenceRuns_proper _ fits) result

theorem searchBlocks_spec {search : Nat → Nat → Option (List Interval)}
    {holds : Nat → List Interval → Prop} {cap : Nat} {bs : List Nat}
    {found after : Nat → Option (List Interval)} {total totalAfter : Nat}
    (sound : ∀ room b runs, search room b = some runs → holds b runs)
    (known : ∀ b runs, found b = some runs → holds b runs)
    (result : searchBlocks search cap bs found total =
      (some after, totalAfter)) :
    (∀ b runs, after b = some runs → holds b runs) ∧
      (∀ b, (found b).isSome → (after b).isSome) ∧
        ∀ b ∈ bs, (after b).isSome := by
  induction bs generalizing found total with
  | nil =>
      cases result
      exact ⟨known, fun _ => id, by simp⟩
  | cons b bs ih =>
      rw [searchBlocks] at result
      cases here : found b with
      | some cached =>
          rw [here] at result
          obtain ⟨afterKnown, keeps, covers⟩ := ih known result
          refine ⟨afterKnown, keeps, ?_⟩
          intro block member
          rcases List.mem_cons.mp member with rfl | later
          · exact keeps block (by simp [here])
          · exact covers block later
      | none =>
          rw [here] at result
          cases searched : search (cap - min total cap) b with
          | none => simp [searched] at result
          | some runs =>
              simp only [searched] at result
              have updated : ∀ block cached,
                  (if block = b then some runs else found block) =
                    some cached → holds block cached := by
                intro block cached present
                split at present
                case isTrue same =>
                  cases present
                  exact same ▸ sound _ _ _ searched
                case isFalse => exact known block cached present
              obtain ⟨afterKnown, keeps, covers⟩ := ih updated result
              refine ⟨afterKnown, ?_, ?_⟩
              · intro block present
                apply keeps
                split
                · rfl
                · exact present
              · intro block member
                rcases List.mem_cons.mp member with rfl | later
                · exact keeps block (by simp)
                · exact covers block later

theorem readBlocks_spec {hay pat : Bytes}
    {found : Nat → Option (List Interval)} {lo qmax : Nat}
    (known : Found hay pat found) (ordered : lo ≤ qmax)
    (inside : qmax ≤ hay.length - pat.length)
    (present : ∀ b ∈ blockRange lo qmax, (found b).isSome) :
    Proper (readBlocks found lo qmax) ∧
      (readBlocks found lo qmax).flatMap positions =
        occurrences hay pat lo qmax := by
  have block : occBlock = 65536 := rfl
  have clipped : ∀ b ∈ blockRange lo qmax,
      Proper (clip ((found b).getD []) lo qmax) ∧
        (clip ((found b).getD []) lo qmax).flatMap positions =
          (occurrences hay pat (b * occBlock) (min ((b + 1) * occBlock - 1)
            (hay.length - pat.length))).filter
            fun q => lo ≤ q ∧ q ≤ qmax := by
    intro b member
    obtain ⟨runs, here⟩ := Option.isSome_iff_exists.mp (present b member)
    obtain ⟨proper, starts⟩ := known b runs here
    have increasing : Increasing runs := by
      rw [Increasing, starts]
      exact occurrences_increasing ..
    rw [here, Option.getD_some, ← starts]
    exact ⟨clip_proper increasing proper ordered,
      clip_positions increasing proper⟩
  constructor
  · intro iv member
    obtain ⟨b, inRange, inBlock⟩ := List.mem_flatMap.mp member
    exact (clipped b inRange).1 iv inBlock
  · rw [readBlocks, List.flatMap_assoc,
      List.flatMap_congr fun b member => (clipped b member).2]
    refine List.Pairwise.eq_of_mem_iff (r := (· < ·)) ?_
      (occurrences_increasing ..) ?_
    · rw [List.pairwise_flatMap]
      refine ⟨fun b _ => (occurrences_increasing ..).filter _, ?_⟩
      refine (List.pairwise_lt_range' ..).imp ?_
      intro before after earlier q inBefore r inAfter
      have qBounds := mem_occurrences.mp (List.mem_filter.mp inBefore).1
      have rBounds := mem_occurrences.mp (List.mem_filter.mp inAfter).1
      rw [block] at qBounds rBounds
      omega
    · intro q
      simp only [List.mem_flatMap, List.mem_filter, mem_occurrences,
        decide_eq_true_eq]
      constructor
      · rintro ⟨b, _, ⟨_, _, occurs⟩, lower, upper⟩
        exact ⟨lower, upper, occurs⟩
      · rintro ⟨lower, upper, occurs⟩
        refine ⟨q / occBlock, ?_, ⟨?_, ?_, occurs⟩, lower, upper⟩
        · rw [blockRange, List.mem_range'_1, block]
          omega
        · rw [block]
          omega
        · rw [block]
          omega

theorem visit_keeps {holds : Bytes → Bytes → Nat → List Interval → Prop}
    {cache : OccCache} {buf needle : Bytes} (nocase : Bool) {lo qmax : Nat}
    (sound : ∀ room b runs,
      searchBlock (haystack nocase buf) (haystack nocase needle) room b = some runs →
      holds (haystack nocase buf) (haystack nocase needle) b runs)
    (keeps : cache.Keeps holds buf) (inside : needle.length ≤ buf.length) :
    (cache.visit buf needle nocase lo qmax).1.Keeps holds buf ∧
      ∀ runs, (cache.visit buf needle nocase lo qmax).2 = some runs →
        ∃ found, runs = readBlocks found lo qmax ∧
          (∀ b runs, found b = some runs →
            holds (haystack nocase buf) (haystack nocase needle) b runs) ∧
          ∀ b ∈ blockRange lo qmax, (found b).isSome := by
  unfold visit
  split
  case isTrue => exact ⟨keeps, by simp⟩
  case isFalse =>
    cases entry : (cache.entries nocase needle).getD
      (.blocks fun _ => none) with
    | failed => exact ⟨keeps, by simp⟩
    | blocks found =>
        have known : ∀ b runs, found b = some runs →
            holds (haystack nocase buf) (haystack nocase needle) b runs := by
          cases stored : cache.entries nocase needle with
          | none =>
              rw [stored, Option.getD_none] at entry
              cases entry
              intro b runs absent
              cases absent
          | some kept =>
              rw [stored, Option.getD_some] at entry
              exact keeps nocase needle found inside (stored.trans (by rw [entry]))
        dsimp only
        cases searched : searchBlocks
          (searchBlock (haystack nocase buf) (haystack nocase needle))
          cache.cap (blockRange lo qmax) found cache.total with
        | mk after total =>
            cases after with
            | none =>
                refine ⟨keeps.insert total ?_, by simp⟩
                intro found impossible
                cases impossible
            | some after =>
                obtain ⟨afterKnown, _, covers⟩ :=
                  searchBlocks_spec sound known searched
                refine ⟨keeps.insert total ?_, ?_⟩
                · intro found same
                  cases same
                  exact afterKnown
                · intro runs same
                  cases same
                  exact ⟨after, rfl, afterKnown, covers⟩

/-- A valid memo stays valid and answers with the starts themselves. -/
theorem visit_spec {cache : OccCache} {buf needle : Bytes} (nocase : Bool)
    {lo qmax : Nat} (valid : cache.Valid buf) (ordered : lo ≤ qmax)
    (inside : qmax + needle.length ≤ buf.length) :
    (cache.visit buf needle nocase lo qmax).1.Valid buf ∧
      ∀ runs, (cache.visit buf needle nocase lo qmax).2 = some runs →
        Proper runs ∧ runs.flatMap positions =
          occurrences (haystack nocase buf) (haystack nocase needle) lo
            qmax := by
  have needleInside : (haystack nocase needle).length ≤
      (haystack nocase buf).length := by
    simp only [length_haystack]
    omega
  obtain ⟨stays, answers⟩ := @visit_keeps BlockRuns cache buf needle nocase lo qmax
    (fun room b runs => searchBlock_spec needleInside) valid (by omega)
  refine ⟨stays, fun runs same => ?_⟩
  obtain ⟨found, rfl, known, covers⟩ := answers runs same
  apply readBlocks_spec known ordered _ covers
  simp only [length_haystack]
  omega

end OccCache

end Exav.Engine
