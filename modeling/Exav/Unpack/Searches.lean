import Exav.Carve.Hits
import Exav.Lib.Overlap
import Exav.Unpack.TerminatorScan

/-!
# Searches window by window

What a search finds that is fed windows, or pieces, is what one search of the
whole finds.
-/

namespace Exav.Unpack

open Exav.Overlap
open Exav.Carve (findIter findIter_eq FirstOnce)
open Exav.Source (memmem chunkBytes)

/-! ## Archives -/

section

variable (crc32 : Bytes → UInt32)

/-- An archive's magic, with a header that checks out where it is needed, stands
at a place. -/
def ArchiveAt (data : Bytes) (pos : Nat) : Prop :=
  ∃ sig ∈ Sfx.sigs, sig.1 <+: data.drop pos ∧
    Sfx.plausibleHeader crc32 sig.2 data pos = true

theorem prefix_iff (sig data : Bytes) (pos : Nat) : sig <+: data.drop pos ↔
    (part data pos sig.length).length = sig.length ∧
      part data pos sig.length = sig := by
  rw [List.prefix_iff_eq_take]
  constructor
  · intro same
    have here : part data pos sig.length = sig := same.symm
    exact ⟨congrArg List.length here, here⟩
  · exact fun both => both.2.symm

theorem plausible_spans (name : Sfx.Label) :
    Spans (fun data pos => Sfx.plausibleHeader crc32 name data pos = true)
      Sfx.PayloadSearch.overlap := by
  have arj : Spans (fun data pos => (part data pos 11).length = 11 ∧
      Sfx.arjHeaderOk (part data pos 11) = true) Sfx.PayloadSearch.overlap :=
    .fixed (by decide) (Sfx.arjHeaderOk · = true)
  have sevenZip : Spans (fun data pos => (part data pos 32).length = 32 ∧
      Sfx.startHeaderOk crc32 (part data pos 32) = true)
      Sfx.PayloadSearch.overlap :=
    .fixed (by decide) (Sfx.startHeaderOk crc32 · = true)
  have any : Spans (fun (_ : Bytes) _ => True) Sfx.PayloadSearch.overlap :=
    .const True _
  cases name with
  | arj => exact arj.congr fun data pos => decide_eq_true_iff
  | sevenZip => exact sevenZip.congr fun data pos => decide_eq_true_iff
  | rar => exact any.congr fun data pos => iff_of_true rfl trivial
  | zip => exact any.congr fun data pos => iff_of_true rfl trivial
  | cab => exact any.congr fun data pos => iff_of_true rfl trivial

theorem archiveAt_spans : Spans (ArchiveAt crc32) Sfx.PayloadSearch.overlap := by
  have short : ∀ sig ∈ Sfx.sigs, sig.1.length ≤ Sfx.PayloadSearch.overlap := by
    decide
  have each : ∀ sig : { sig // sig ∈ Sfx.sigs }, Spans (fun data pos =>
      sig.1.1 <+: data.drop pos ∧ Sfx.plausibleHeader crc32 sig.1.2 data pos = true)
      Sfx.PayloadSearch.overlap := by
    intro sig
    apply Spans.and
    · apply (Spans.fixed (short sig.1 sig.2) (· = sig.1.1)).congr
      exact prefix_iff sig.1.1
    · exact plausible_spans crc32 sig.1.2
  apply (Spans.exists each).congr
  intro data pos
  rw [Subtype.exists]
  exact exists_congr fun sig => exists_prop.symm

theorem find?_first {xs : List Nat} (ascending : xs.Pairwise (· < ·))
    (ok : Nat → Bool) : First (fun p => p ∈ xs ∧ ok p = true) 0 (xs.find? ok) := by
  induction xs with
  | nil => exact fun q _ both => nomatch both.1
  | cons x xs ih =>
      obtain ⟨least, ascending⟩ := List.pairwise_cons.mp ascending
      by_cases here : ok x = true
      · rw [List.find?_cons_of_pos here]
        refine ⟨Nat.zero_le x, ⟨.head _, here⟩, ?_⟩
        rintro q _ before ⟨member, _⟩
        rcases List.mem_cons.mp member with rfl | later
        · exact Nat.lt_irrefl q before
        · exact Nat.lt_asymm before (least q later)
      · rw [List.find?_cons_of_neg here]
        apply (ih ascending).congr
        intro p _
        have other : ¬ (p = x ∧ ok p = true) :=
          fun both => here (both.1 ▸ both.2)
        rw [List.mem_cons, or_and_right]
        exact (or_iff_right other).symm

theorem findIter_first {sig : Bytes} (once : FirstOnce sig) (data : Bytes)
    (start : Nat) (ok : Nat → Bool) :
    First (fun p => sig <+: data.drop p ∧ ok p = true) start
      (((findIter sig (data.drop start)).map (· + start)).find? ok) := by
  have ascending : ((findIter sig (data.drop start)).map
      (· + start)).Pairwise (· < ·) := by
    rw [findIter_eq once, List.pairwise_map]
    apply (Carve.ascending_starts sig (data.drop start) 0).imp
    exact fun less => Nat.add_lt_add_right less start
  have member : ∀ p, start ≤ p →
      (p ∈ (findIter sig (data.drop start)).map (· + start) ↔
        sig <+: data.drop p) := by
    intro p above
    obtain ⟨i, rfl⟩ := Nat.exists_eq_add_of_le above
    rw [findIter_eq once, List.mem_map]
    constructor
    · rintro ⟨_, found, same⟩
      obtain ⟨j, _, rfl, here⟩ := Carve.mem_starts.mp found
      have same : i = j := by omega
      rw [← List.drop_drop, same]
      exact List.isPrefixOf_iff_prefix.mp here
    · intro here
      rw [← List.drop_drop] at here
      refine ⟨i, Carve.mem_starts.mpr ⟨i, ?_, (Nat.zero_add i).symm,
        List.isPrefixOf_iff_prefix.mpr here⟩, Nat.add_comm i start⟩
      by_contra beyond
      rw [List.drop_eq_nil_of_le (Nat.not_lt.mp beyond)] at here
      obtain ⟨b, rest, rfl, _⟩ := once
      cases List.prefix_nil.mp here
  have found := find?_first ascending ok
  cases first : ((findIter sig (data.drop start)).map (· + start)).find? ok with
  | none =>
      rw [first] at found
      intro q above both
      exact found q (Nat.zero_le q) ⟨(member q above).mpr both.1, both.2⟩
  | some p =>
      rw [first] at found
      have above : start ≤ p := by
        obtain ⟨_, _, same⟩ := List.mem_map.mp found.2.1.1
        omega
      refine ⟨above, ⟨(member p above).mp found.2.1.1, found.2.1.2⟩, ?_⟩
      intro q above before both
      exact found.2.2 q (Nat.zero_le q) before
        ⟨(member q above).mpr both.1, both.2⟩

theorem earlier_first {left right : Nat → Prop} {start : Nat}
    {best : Option (Nat × Sfx.Label)} {found : Option Nat}
    (name : Sfx.Label) (first : First left start (best.map Prod.fst))
    (second : First right start found) :
    First (fun p => left p ∨ right p) start
      ((Sfx.earlier best name found).map Prod.fst) := by
  cases found with
  | none => exact first.congr fun p above => (or_iff_left (second p above)).symm
  | some off =>
      cases best with
      | none =>
          exact second.congr fun p above => (or_iff_right (first p above)).symm
      | some other =>
          obtain ⟨b, label⟩ := other
          rw [Sfx.earlier]
          by_cases before : off < b
          · rw [if_pos before]
            refine ⟨second.1, .inr second.2.1, ?_⟩
            rintro q above less (here | here)
            · exact first.2.2 q above (Nat.lt_trans less before) here
            · exact second.2.2 q above less here
          · rw [if_neg before]
            refine ⟨first.1, .inl first.2.1, ?_⟩
            rintro q above less (here | here)
            · exact first.2.2 q above less here
            · exact second.2.2 q above
                (Nat.lt_of_lt_of_le less (Nat.not_lt.mp before)) here

theorem foldl_first {here : Nat → Prop} {data : Bytes} {start : Nat}
    (sigs : List (Bytes × Sfx.Label))
    (once : ∀ sig ∈ sigs, FirstOnce sig.1) (best : Option (Nat × Sfx.Label))
    (first : First here start (best.map Prod.fst)) :
    First (fun p => here p ∨ ∃ sig ∈ sigs, sig.1 <+: data.drop p ∧
        Sfx.plausibleHeader crc32 sig.2 data p = true) start
      ((sigs.foldl (fun best (sig, name) =>
        Sfx.earlier best name
          (((findIter sig (data.drop start)).map (· + start)).find?
            (Sfx.plausibleHeader crc32 name data))) best).map Prod.fst) := by
  induction sigs generalizing here best with
  | nil =>
      apply first.congr
      intro p _
      exact (or_iff_left fun found => by
        obtain ⟨_, member, _⟩ := found
        cases member).symm
  | cons sig sigs ih =>
      rw [List.forall_mem_cons] at once
      have one := findIter_first once.1 data start
        (Sfx.plausibleHeader crc32 sig.2 data)
      apply (ih once.2 _ (earlier_first sig.2 first one)).congr
      intro p _
      simp only [List.exists_mem_cons_iff, or_assoc]

theorem sigs_firstOnce : ∀ sig ∈ Sfx.sigs, FirstOnce sig.1 := by
  have all : ∀ sig ∈ Sfx.sigs,
      sig.1 ≠ [] ∧ sig.1.head?.all fun b => !sig.1.tail.contains b := by decide
  intro sig listed
  have found := all sig listed
  cases split : sig.1 with
  | nil => exact absurd split found.1
  | cons b rest =>
      rw [split] at found
      exact ⟨b, rest, rfl, by simpa using found.2⟩

theorem findArchiveFrom_first (data : Bytes) (start : Nat) :
    First (ArchiveAt crc32 data) start
      ((Sfx.findArchiveFrom crc32 data start).map Prod.fst) := by
  unfold Sfx.findArchiveFrom
  split
  · rename_i beyond
    rintro q above ⟨sig, listed, here, _⟩
    rw [List.drop_eq_nil_of_le (by omega)] at here
    obtain ⟨b, rest, same, _⟩ := sigs_firstOnce sig listed
    rw [List.prefix_nil.mp here] at same
    cases same
  · have nothing : First (fun _ => False) start
        ((none : Option (Nat × Sfx.Label)).map Prod.fst) := fun _ _ => id
    apply (foldl_first crc32 Sfx.sigs sigs_firstOnce none nothing).congr
    intro p _
    rw [false_or]
    rfl

/-- Where the first archive past the start is. -/
def archiveOffset (data : Bytes) : Option Nat :=
  (Sfx.findEmbeddedArchive crc32 data).map Prod.fst

theorem archiveOffset_first (data : Bytes) :
    First (ArchiveAt crc32 data) 1 (archiveOffset crc32 data) :=
  findArchiveFrom_first crc32 data 1

theorem start_eq (base : Nat) : (if base = 0 then 1 else 0) = 1 - base := by
  split <;> omega

/-- A search that has its answer, or has passed nothing before `base`. -/
def PayloadReady (data : Bytes) (base : Nat) (s : Sfx.PayloadSearch) : Prop :=
  s.found = some (archiveOffset crc32 data) ∨
    s.found = none ∧ Passed (ArchiveAt crc32 data) 1 base

variable {crc32}

section

variable {data : Bytes} {base : Nat} {s : Sfx.PayloadSearch}

theorem payloadReady_new : PayloadReady crc32 data 0 .new :=
  .inr ⟨rfl, passed_zero _ 1⟩

theorem PayloadReady.answered (ready : PayloadReady crc32 data base s)
    (answered : s.done = true) :
    s.found = some (archiveOffset crc32 data) := by
  rcases ready with found | ⟨pending, _⟩
  · exact found
  · unfold Sfx.PayloadSearch.done at answered
    rw [pending] at answered
    cases answered

theorem payload_feed_found (found : s.found = some (archiveOffset crc32 data))
    (w : Bytes) (last : Bool) : s.feed crc32 base w last = s := by
  unfold Sfx.PayloadSearch.feed
  rw [found]
  exact if_pos rfl

theorem PayloadReady.last (ready : PayloadReady crc32 data base s) :
    (s.feed crc32 base (data.drop base) true).found =
      some (archiveOffset crc32 data) := by
  rcases ready with found | ⟨pending, passed⟩
  · rw [payload_feed_found found]
    exact found
  · have first := (archiveAt_spans crc32).last passed
      (findArchiveFrom_first crc32 (data.drop base) (1 - base))
    unfold Sfx.PayloadSearch.feed
    rw [if_neg (by rw [pending]; decide), start_eq,
      ← first.functional (archiveOffset_first crc32 data)]
    dsimp only
    cases Sfx.findArchiveFrom crc32 (data.drop base) (1 - base) <;> rfl

/-- Another window gives the answer, or has nothing before the next one. -/
theorem PayloadReady.more (ready : PayloadReady crc32 data base s)
    {len next : Nat} (fits : base + len ≤ data.length)
    (overlaps : next + Sfx.PayloadSearch.overlap ≤ base + len) :
    PayloadReady crc32 data next
      (s.feed crc32 base (part data base len) false) := by
  rcases ready with found | ⟨pending, passed⟩
  · rw [payload_feed_found found]
    exact .inl found
  · have first := findArchiveFrom_first crc32 (part data base len) (1 - base)
    have length : (part data base len).length = len :=
      length_window_of_le fits
    unfold Sfx.PayloadSearch.feed
    rw [if_neg (by rw [pending]; decide), start_eq]
    dsimp only
    cases found : Sfx.findArchiveFrom crc32 (part data base len) (1 - base) with
    | none =>
        rw [found] at first
        exact .inr ⟨pending,
          (archiveAt_spans crc32).passed passed first nofun overlaps⟩
    | some off =>
        rw [found] at first
        dsimp only
        rw [length, Bool.false_or]
        by_cases enough : off.1 + Sfx.PayloadSearch.overlap ≤ len
        · rw [if_pos (decide_eq_true enough)]
          have accepted := (archiveAt_spans crc32).accepted passed first enough
          exact .inl (congrArg some
            (accepted.functional (archiveOffset_first crc32 data)))
        · rw [if_neg (by rw [decide_eq_true_iff]; exact enough)]
          refine .inr ⟨pending,
            (archiveAt_spans crc32).passed passed first ?_ overlaps⟩
          intro p same
          cases same
          exact Nat.not_le.mp enough

end

/-! ## A source read a window at a time -/

theorem window_take {source : Bytes} {limit pos want : Nat}
    (within : want ≤ limit - pos) :
    window source pos want = part (source.take limit) pos want := by
  rw [window, part, List.drop_take, List.take_take, Nat.min_eq_left within]

theorem drop_part (data : Bytes) (base : Nat) {len kept : Nat}
    (enough : kept ≤ len) :
    (part data base len).drop (len - kept) =
      part data (base + (len - kept)) kept := by
  rw [part, List.drop_take, List.drop_drop, Nat.sub_sub_self enough]
  rfl

theorem part_all {data : Bytes} {base len : Nat}
    (enough : data.length ≤ base + len) : part data base len = data.drop base := by
  rw [part, List.take_of_length_le]
  rw [List.length_drop]
  omega

/-- One round, over all that is read so far of the windows in reach. -/
theorem payloadOffsetFrom_eq {source : Bytes} {limit : Nat}
    {rounds base len : Nat} (enough : limit - (base + len) < rounds)
    (inside : base + len ≤ (source.take limit).length)
    (passed : Passed (ArchiveAt crc32 (source.take limit)) 1 base) :
    Sfx.payloadOffsetFrom crc32 source rounds (base + len)
        (part (source.take limit) base len) base (limit - (base + len)) =
      archiveOffset crc32 (source.take limit) := by
  induction rounds generalizing base len with
  | zero => cases enough
  | succ rounds ih =>
      rw [Sfx.payloadOffsetFrom, start_eq]
      dsimp only
      obtain ⟨want, wanted⟩ : ∃ want, want =
        min Sfx.windowBytes (limit - (base + len)) := ⟨_, rfl⟩
      have within : want ≤ limit - (base + len) := by omega
      have read : part (source.take limit) base len ++
          part (source.take limit) (base + len) want =
          part (source.take limit) base (len + want) :=
        window_append (source.take limit) base len want
      have length : (part (source.take limit) (base + len) want).length =
          min want ((source.take limit).length - (base + len)) :=
        length_window _ _ _
      have at_most : (source.take limit).length ≤ limit := by
        rw [List.length_take]
        exact Nat.min_le_left _ _
      rw [← wanted, window_take within, read]
      generalize (part (source.take limit) (base + len) want).length = n at *
      by_cases last : n < want ∨ limit - (base + len) - n = 0
      · have rest : part (source.take limit) base (len + want) =
            (source.take limit).drop base := part_all (by omega)
        have first := (archiveAt_spans crc32).last passed
          (findArchiveFrom_first crc32 ((source.take limit).drop base)
            (1 - base))
        rw [decide_eq_true last, rest,
          ← first.functional (archiveOffset_first crc32 (source.take limit))]
        cases Sfx.findArchiveFrom crc32 ((source.take limit).drop base)
          (1 - base) <;> rfl
      · have full : n = want := by omega
        have size : Sfx.windowBytes = 2 ^ 20 := rfl
        have kept : Sfx.PayloadSearch.overlap = 32 := rfl
        have fits : base + (len + want) ≤ (source.take limit).length := by omega
        have whole : (part (source.take limit) base (len + want)).length =
            len + want := length_window_of_le fits
        have first := findArchiveFrom_first crc32
          (part (source.take limit) base (len + want)) (1 - base)
        have drop : len + want - min Sfx.PayloadSearch.overlap (len + want) =
            len + want - 32 := by omega
        have next : ∀ r, First (ArchiveAt crc32
            (part (source.take limit) base (len + want))) (1 - base) r →
            (∀ p, r = some p → len + want < p + 32) →
            Sfx.payloadOffsetFrom crc32 source rounds (base + len + n)
              ((part (source.take limit) base (len + want)).drop
                (len + want - 32)) (base + (len + want - 32))
              (limit - (base + len) - n) =
            archiveOffset crc32 (source.take limit) := by
          intro r first late
          have later := (archiveAt_spans crc32).passed passed first late
            (show base + (len + want - 32) + 32 ≤ base + (len + want) by omega)
          have pos : base + len + n = base + (len + want - 32) + 32 := by omega
          have left : limit - (base + len) - n =
              limit - (base + (len + want - 32) + 32) := by omega
          rw [drop_part _ base (by omega), pos, left]
          exact ih (by omega) (by omega) later
        rw [decide_eq_false last, whole, drop, if_neg Bool.false_ne_true]
        cases found : Sfx.findArchiveFrom crc32
            (part (source.take limit) base (len + want)) (1 - base) with
        | none =>
            rw [found] at first
            exact next none first nofun
        | some off =>
            rw [found] at first
            dsimp only
            rw [Bool.false_or]
            by_cases near : off.1 + Sfx.PayloadSearch.overlap ≤ len + want
            · rw [if_pos (decide_eq_true near)]
              have accepted := (archiveAt_spans crc32).accepted passed first near
              exact accepted.functional (archiveOffset_first crc32 _)
            · rw [if_neg (by rw [decide_eq_true_iff]; exact near)]
              apply next _ first
              intro p same
              cases same
              exact Nat.not_le.mp near

theorem payloadOffset_eq (source : Bytes) (limit : Nat) :
    Sfx.payloadOffset crc32 source limit =
      archiveOffset crc32 (source.take limit) :=
  @payloadOffsetFrom_eq crc32 source limit (limit + 1) 0 0 (Nat.lt_succ_self _)
    (Nat.zero_le _) (passed_zero _ 1)

end

/-! ## Markers -/

/-- Where a needle first occurs has been found, or is looked for from `base`
on. -/
def Sought (data : Bytes) (base : Nat) (needle : Bytes) (slot : Option Nat) :
    Prop :=
  match slot with
  | some p => memmem data needle = some p
  | none => memmem data needle = find data needle base data.length

theorem map_add_sub {base : Nat} {r : Option Nat}
    (above : ∀ p, r = some p → base ≤ p) :
    (r.map (· - base)).map (base + ·) = r := by
  cases r with
  | none => rfl
  | some p => exact congrArg some (Nat.add_sub_cancel' (above p rfl))

theorem Sought.last {data needle : Bytes} {base : Nat} {slot : Option Nat}
    (sought : Sought data base needle slot) (inside : base ≤ data.length) :
    Prescan.feedMarker base (data.drop base) needle slot =
      memmem data needle := by
  cases slot with
  | some p => exact sought.symm
  | none =>
      have rest : data.drop base = window data base (data.length - base) :=
        (part_all (by omega)).symm
      have length : (window data base (data.length - base)).length =
          data.length - base := length_window_of_le (by omega)
      have found := @Source.find_window data needle base (data.length - base) 0
        (data.length - base) inside (Nat.le_of_eq length.symm)
      have whole : base + (data.length - base) = data.length :=
        Nat.add_sub_cancel' inside
      rw [Nat.add_zero, whole] at found
      rw [sought, Prescan.feedMarker, rest, memmem, length, found]
      exact map_add_sub fun p first => (find_eq_some first).1

theorem Sought.more {data needle : Bytes} {base len next : Nat}
    {slot : Option Nat} (sought : Sought data base needle slot)
    (fits : base + len ≤ data.length) (onwards : base ≤ next)
    (short : needle.length ≤ Prescan.overlap + 1)
    (overlaps : next + Prescan.overlap ≤ base + len) :
    Sought data next needle
      (Prescan.feedMarker base (part data base len) needle slot) := by
  cases slot with
  | some p => exact sought
  | none =>
      have found := @Source.memmem_window data needle base len fits
      have slot' : Prescan.feedMarker base (part data base len) needle none =
          find data needle base (base + len) := by
        have same : part data base len = window data base len := rfl
        rw [Prescan.feedMarker, same, found]
        exact map_add_sub fun p first => (find_eq_some first).1
      rw [slot']
      cases first : find data needle base (base + len) with
      | some p =>
          obtain ⟨above, within, occurs, earlier⟩ :=
            Source.find_eq_some_iff.mp first
          exact sought.trans (Source.find_eq_some_iff.mpr
            ⟨above, by omega, occurs, earlier⟩)
      | none =>
          apply sought.trans
          apply Source.find_skip onwards
          intro r above before
          exact find_eq_none first r above (by omega) (by omega)

theorem searched_short (formats : Formats) :
    ∀ needle ∈ searched formats, needle.length ≤ Prescan.overlap + 1 := by
  obtain ⟨screnc, nsis, autoit, sfx⟩ := formats
  cases screnc <;> cases nsis <;> cases autoit <;> cases sfx <;> decide

theorem searched_ne_nil (formats : Formats) :
    ∀ needle ∈ searched formats, needle ≠ [] := by
  obtain ⟨screnc, nsis, autoit, sfx⟩ := formats
  cases screnc <;> cases nsis <;> cases autoit <;> cases sfx <;> decide

/-! ## Both at once -/

section

variable (crc32 : Bytes → UInt32)

/-- What a whole object holds of what is searched for. -/
def found (formats : Formats) (data head : Bytes) : Searched where
  markers := (searched formats).map (memmem data)
  sfx :=
    if formats.sfx && startsWithExe head then archiveOffset crc32 data else none

/-- A search of these formats that has read everything before `base`. -/
structure PrescanReady (formats : Formats) (data head : Bytes) (base : Nat)
    (s : Prescan) : Prop where
  finders : s.finders = searched formats
  markers : List.Forall₂ (Sought data base) (searched formats) s.markers
  payload : if formats.sfx && startsWithExe head then
      ∃ p, s.payload = some p ∧ PayloadReady crc32 data base p
    else s.payload = none

variable {crc32} {formats : Formats} {data head : Bytes} {base : Nat}
  {s : Prescan}

theorem prescanReady_new :
    PrescanReady crc32 formats data head 0 (.new formats head) where
  finders := rfl
  markers := by
    unfold Prescan.new
    induction searched formats with
    | nil => exact .nil
    | cons needle needles ih => exact .cons rfl ih
  payload := by
    unfold Prescan.new
    split
    · exact ⟨_, rfl, payloadReady_new⟩
    · rfl

theorem forall₂_zipWith {R R' : Bytes → Option Nat → Prop}
    {needles : List Bytes} {slots : List (Option Nat)}
    {change : Bytes → Option Nat → Option Nat}
    (all : List.Forall₂ R needles slots)
    (keeps : ∀ needle ∈ needles, ∀ slot, R needle slot →
      R' needle (change needle slot)) :
    List.Forall₂ R' needles (List.zipWith change needles slots) := by
  induction all with
  | nil => exact .nil
  | cons first _ ih =>
      rw [List.forall_mem_cons] at keeps
      exact .cons (keeps.1 _ first) (ih keeps.2)

theorem PrescanReady.more (ready : PrescanReady crc32 formats data head base s)
    {len next : Nat} (fits : base + len ≤ data.length) (onwards : base ≤ next)
    (overlaps : next + Prescan.overlap ≤ base + len) :
    PrescanReady crc32 formats data head next
      (s.feed crc32 base (part data base len) false) where
  finders := ready.finders
  markers := by
    unfold Prescan.feed
    rw [ready.finders]
    apply forall₂_zipWith ready.markers
    intro needle listed slot sought
    exact sought.more fits onwards (searched_short formats needle listed)
      overlaps
  payload := by
    have before := ready.payload
    unfold Prescan.feed
    split
    · rename_i carries
      rw [if_pos carries] at before
      obtain ⟨p, own, ready⟩ := before
      rw [own]
      exact ⟨_, rfl, ready.more fits overlaps⟩
    · rename_i bare
      rw [if_neg bare] at before
      rw [before]
      rfl

theorem map_of_forall₂ {needles : List Bytes} {slots : List (Option Nat)}
    (all : List.Forall₂ (fun needle slot => slot = memmem data needle) needles
      slots) : slots = needles.map (memmem data) := by
  induction all with
  | nil => rfl
  | cons first _ ih => rw [List.map_cons, first, ih]

theorem PrescanReady.last (ready : PrescanReady crc32 formats data head base s)
    (inside : base ≤ data.length) :
    (s.feed crc32 base (data.drop base) true).searched =
      found crc32 formats data head := by
  have markers := @forall₂_zipWith _ (fun needle slot => slot = memmem data needle)
    _ _ (Prescan.feedMarker base (data.drop base)) ready.markers
    fun needle _ slot sought => sought.last inside
  have before := ready.payload
  unfold Prescan.feed Prescan.searched found
  rw [ready.finders, map_of_forall₂ markers]
  split
  · rename_i carries
    rw [if_pos carries] at before
    obtain ⟨p, own, ready⟩ := before
    rw [own]
    have answer := ready.last
    dsimp only [Option.map_some, Option.bind_some, Sfx.PayloadSearch.offset]
    rw [answer]
    rfl
  · rename_i bare
    rw [if_neg bare] at before
    rw [before]
    rfl

theorem PrescanReady.answered
    (ready : PrescanReady crc32 formats data head base s)
    (answered : s.done = true) :
    s.searched = found crc32 formats data head := by
  obtain ⟨payload, markers⟩ := Bool.and_eq_true_iff.mp answered
  have all : List.Forall₂ (fun needle slot => slot = memmem data needle)
      (searched formats) s.markers := by
    have sought := ready.markers
    generalize s.markers = slots at markers sought
    generalize searched formats = needles at sought
    clear ready answered payload
    induction sought with
    | nil => exact .nil
    | @cons needle slot needles slots first _ ih =>
        rw [List.all_cons, Bool.and_eq_true_iff] at markers
        refine .cons ?_ (ih markers.2)
        cases slot with
        | none => cases markers.1
        | some p => exact first.symm
  have before := ready.payload
  unfold Prescan.searched found
  rw [map_of_forall₂ all]
  split
  · rename_i carries
    rw [if_pos carries] at before
    obtain ⟨p, own, ready⟩ := before
    rw [own] at payload ⊢
    have answer := ready.answered payload
    dsimp only [Option.bind_some, Sfx.PayloadSearch.offset]
    rw [answer]
    rfl
  · rename_i bare
    rw [if_neg bare] at before
    rw [before]
    rfl

theorem searchThroughFrom_eq {src : Bytes} {len rounds base : Nat} {s : Prescan}
    (enough : len - base < rounds) (before : base < len)
    (inside : base ≤ (src.take len).length)
    (ready : PrescanReady crc32 formats (src.take len) head base s) :
    (searchThroughFrom crc32 src len rounds base s).searched =
      found crc32 formats (src.take len) head := by
  induction rounds generalizing base s with
  | zero => cases enough
  | succ rounds ih =>
      rw [searchThroughFrom]
      dsimp only
      by_cases answered : s.done = true
      · rw [if_neg (by rw [answered]; exact fun both => nomatch both.2)]
        exact ready.answered answered
      · rw [if_pos ⟨before, Bool.eq_false_iff.mpr answered⟩]
        have kept : Prescan.overlap = 32 := rfl
        obtain ⟨want, wanted⟩ : ∃ want, want =
          min (len - base) (max chunkBytes (Prescan.overlap + 1)) := ⟨_, rfl⟩
        have within : want ≤ len - base := by omega
        have length : (part (src.take len) base want).length =
            min want ((src.take len).length - base) := length_window _ _ _
        have at_most : (src.take len).length ≤ len := by
          rw [List.length_take]
          exact Nat.min_le_left _ _
        rw [← wanted, window_take within]
        obtain ⟨n, size⟩ : ∃ n, n = (part (src.take len) base want).length :=
          ⟨_, rfl⟩
        rw [← size] at length ⊢
        by_cases last : n ≤ Prescan.overlap ∨ len ≤ base + n
        · have rest : part (src.take len) base want =
              (src.take len).drop base := part_all (by omega)
          rw [decide_eq_true last, if_pos rfl, rest]
          exact ready.last inside
        · have same : part (src.take len) base want =
              part (src.take len) base n := by
            unfold part
            rw [List.take_eq_take_iff, List.length_drop]
            omega
          rw [decide_eq_false last, if_neg Bool.false_ne_true, same]
          apply ih (by omega) (by omega) (by omega)
          exact ready.more (by omega) (by omega) (by omega)

theorem searchThrough_eq (src : Bytes) (len : Nat) :
    searchThrough crc32 formats src len head =
      found crc32 formats (src.take len) head := by
  by_cases some_bytes : 0 < len
  · exact searchThroughFrom_eq (Nat.lt_succ_self _) some_bytes (Nat.zero_le _)
      prescanReady_new
  · obtain rfl : len = 0 := Nat.eq_zero_of_not_pos some_bytes
    have nothing : ∀ needle ∈ searched formats, memmem [] needle = none := by
      intro needle listed
      have some_bytes := List.length_pos_iff.mpr
        (searched_ne_nil formats needle listed)
      exact if_pos some_bytes
    have no_archive : archiveOffset crc32 [] = none := rfl
    unfold found
    rw [List.take_zero, List.map_congr_left nothing, no_archive, ite_self]
    unfold searchThrough Prescan.new Prescan.searched
    dsimp only [searchThroughFrom]
    rw [if_neg fun both => Nat.lt_irrefl 0 both.1]
    dsimp only
    split <;> rfl

end

/-- Searches that are fed the windows of an object, or its pieces, answer as one
search of the whole. -/
theorem searches_as_whole (crc32 : Bytes → UInt32) (formats : Formats)
    (data head : Bytes) :
    (∀ windows fed, Covers data Prescan.overlap 0 windows → fed <+: windows →
      let s := fed.foldl (fun s w => s.feed crc32 w.base w.items w.last)
        (Prescan.new formats head)
      fed = windows ∨ s.done = true →
        s.searched = found crc32 formats data head) ∧
    (∀ windows fed, Covers data Sfx.PayloadSearch.overlap 0 windows →
      fed <+: windows →
      let s := fed.foldl (fun s w => s.feed crc32 w.base w.items w.last)
        Sfx.PayloadSearch.new
      fed = windows ∨ s.done = true →
        s.done = true ∧ s.offset = archiveOffset crc32 data) ∧
    (∀ len, searchThrough crc32 formats data len head =
      found crc32 formats (data.take len) head) ∧
    (∀ limit, Sfx.payloadOffset crc32 data limit =
      archiveOffset crc32 (data.take limit)) ∧
    ∀ base64 pieces, ((Terminator.new base64).feedAll pieces).finish =
      (uuLines pieces.flatten).any (EndsBody base64) := by
  refine ⟨?_, ?_, searchThrough_eq data, payloadOffset_eq data,
    terminator_pieces⟩
  · intro windows fed covers before s enough
    exact covers.answers _ (·.done = true) (·.searched = found crc32 formats data head)
      (fun base s => base ≤ data.length ∧ PrescanReady crc32 formats data head base s)
      (fun _ _ here => here.2.answered) (fun _ _ here => here.2.last here.1)
      (fun _ _ _ _ here onwards overlaps fits =>
        ⟨by omega, here.2.more fits onwards overlaps⟩)
      before ⟨Nat.zero_le _, prescanReady_new⟩ enough
  · intro windows fed covers before s enough
    have answer : s.found = some (archiveOffset crc32 data) :=
      covers.answers _ (·.done = true) (·.found = some (archiveOffset crc32 data))
        (PayloadReady crc32 data) (fun _ _ => PayloadReady.answered)
        (fun _ _ => PayloadReady.last)
        (fun _ _ _ _ ready _ overlaps fits => ready.more fits overlaps)
        before payloadReady_new enough
    unfold Sfx.PayloadSearch.done Sfx.PayloadSearch.offset
    rw [answer]
    exact ⟨rfl, rfl⟩

/-- An executable with a ZIP behind its code, in two windows. -/
def zipStub : Bytes :=
  [0x4D, 0x5A] ++ List.replicate 38 0 ++ [0x50, 0x4B, 0x03, 0x04]

def zipStubWindows : List (Window UInt8) :=
  [⟨0, part zipStub 0 42, false⟩, ⟨10, zipStub.drop 10, true⟩]

theorem searches_as_whole_stub :
    let s := zipStubWindows.foldl
      (fun s w => s.feed (fun _ => 0) w.base w.items w.last)
      (Prescan.new ⟨true, true, true, true⟩ zipStub)
    let p := zipStubWindows.foldl
      (fun s w => s.feed (fun _ => 0) w.base w.items w.last)
      Sfx.PayloadSearch.new
    s.searched = ⟨[none, none, none, none], some 40⟩ ∧
      p.offset = some 40 := by
  have covers : Covers zipStub 32 0 zipStubWindows :=
    .more (Nat.zero_le 10) (by decide) (by decide) (.last 10)
  have whole := searches_as_whole (fun _ => 0) ⟨true, true, true, true⟩ zipStub
    zipStub
  refine ⟨(whole.1 _ _ covers List.prefix_rfl (.inl rfl)).trans ?_,
    (whole.2.1 _ _ covers List.prefix_rfl (.inl rfl)).2.trans ?_⟩
  · decide
  · decide

end Exav.Unpack
