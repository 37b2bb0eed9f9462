import Exav.Lib.Tiles

/-!
# What an image hash covers

The hash of a signed image is over its headers without two fields, its sections
in the order of the file, and what follows as many bytes as these were, up to the
certificate table.  It covers the image whole when the sections tile it.
-/

namespace Exav.Authenticode

open Exav.Tiles

/-! ## The image -/

structure Section where
  pointerToRawData : Nat
  sizeOfRawData : Nat
  deriving DecidableEq

structure OptionalHeader where
  sizeOfHeaders : Nat
  /-- The size of the certificate table, where there is an entry for one. -/
  certificateTable : Option Nat
  deriving DecidableEq

/-- What the hash asks of a parsed image.  The fields are of 32 bits, and their
sums do not overflow. -/
structure Pe where
  optionalHeader : Option OptionalHeader
  pePointer : Nat
  is64 : Bool
  sections : List Section
  deriving DecidableEq

namespace Pe

def optOff (pe : Pe) : Nat :=
  pe.pePointer + (4 + 20)

def checksum (pe : Pe) : Nat :=
  pe.optOff + 64

/-- The entry of the certificate table. -/
def certEntry (pe : Pe) : Nat :=
  pe.optOff + if pe.is64 then 144 else 128

def headers (pe : Pe) : Nat :=
  (pe.optionalHeader.map OptionalHeader.sizeOfHeaders).getD 0

def certSize (pe : Pe) : Nat :=
  (pe.optionalHeader.bind OptionalHeader.certificateTable).getD 0

end Pe

/-! ## The ranges -/

def getRange (data : Bytes) (start stop : Nat) : Option Span :=
  if start ≤ stop ∧ stop ≤ data.length then some ⟨start, stop⟩ else none

def Section.span (s : Section) : Span :=
  ⟨s.pointerToRawData, s.pointerToRawData + s.sizeOfRawData⟩

def sectionRanges (data : Bytes) : List Section → Option (List Span)
  | [] => some []
  | s :: sections => do
      let range ← getRange data s.span.start s.span.stop
      let ranges ← sectionRanges data sections
      some (range :: ranges)

def Pe.hashedSections (pe : Pe) : List Section :=
  (pe.sections.filter fun s => s.sizeOfRawData ≠ 0).mergeSort
    fun s t => decide (s.pointerToRawData ≤ t.pointerToRawData)

def hashedRanges (pe : Pe) (data : Bytes) : Option (List Span) := do
  let opt ← pe.optionalHeader
  let headers := opt.sizeOfHeaders
  let certSize := opt.certificateTable.getD 0
  let first ← getRange data 0 pe.checksum
  let second ← getRange data (pe.checksum + 4) pe.certEntry
  let third ← getRange data (pe.certEntry + 8) headers
  let sections ← sectionRanges data pe.hashedSections
  let hashed := headers + (pe.hashedSections.map Section.sizeOfRawData).sum
  if hashed < data.length then
    if certSize ≤ data.length then do
      let trailing ← getRange data hashed (data.length - certSize)
      some ([first, second, third] ++ sections ++ [trailing])
    else none
  else some ([first, second, third] ++ sections)

/-- The padding to a multiple of eight. -/
def padding (n : Nat) : Bytes :=
  List.replicate ((8 - n % 8) % 8) 0

/-- What is fed to the digest. -/
def hashedBytes (ranges : List Span) (data : Bytes) : Bytes :=
  ranges.flatMap (Span.slice data) ++ padding data.length

/-! ## An image with a hash -/

section

variable {pe : Pe} {data : Bytes} {ranges : List Span}

theorem getRange_eq_some {start stop : Nat} {span : Span}
    (got : getRange data start stop = some span) :
    span = ⟨start, stop⟩ ∧ start ≤ stop ∧ stop ≤ data.length := by
  unfold getRange at got
  split at got
  · rename_i inside
    exact ⟨(Option.some.inj got).symm, inside⟩
  · cases got

theorem sectionRanges_eq_some {sections : List Section} {spans : List Span}
    (got : sectionRanges data sections = some spans) :
    spans = sections.map Section.span ∧
      ∀ span ∈ spans, span.stop ≤ data.length := by
  induction sections generalizing spans with
  | nil =>
      cases got
      simp
  | cons s sections ih =>
      simp only [sectionRanges, Option.bind_eq_bind, Option.bind_eq_some_iff,
        Option.some.injEq] at got
      obtain ⟨range, here, ranges, rest, rfl⟩ := got
      obtain ⟨rfl, -, bound⟩ := getRange_eq_some here
      obtain ⟨rfl, bounds⟩ := ih rest
      refine ⟨rfl, ?_⟩
      intro span member
      rcases List.mem_cons.mp member with rfl | later
      · exact bound
      · exact bounds span later

/-- The first three ranges. -/
def Pe.headerSpans (pe : Pe) : List Span :=
  [⟨0, pe.checksum⟩, ⟨pe.checksum + 4, pe.certEntry⟩,
    ⟨pe.certEntry + 8, pe.headers⟩]

def Pe.sectionSpans (pe : Pe) : List Span :=
  pe.hashedSections.map Section.span

/-- Where the range behind the sections starts. -/
def Pe.hashedSize (pe : Pe) : Nat :=
  pe.headers + total pe.sectionSpans

/-- The range behind the sections, where there is one. -/
def Pe.trailing (pe : Pe) (data : Bytes) : List Span :=
  if pe.hashedSize < data.length then
    [⟨pe.hashedSize, data.length - pe.certSize⟩]
  else []

/-- An image the hash is computed of: its headers are whole, its sections lie in
the file, and what follows them leaves room for the certificate table. -/
structure Laid (pe : Pe) (data : Bytes) : Prop where
  headers : pe.certEntry + 8 ≤ pe.headers ∧ pe.headers ≤ data.length
  sections : ∀ span ∈ pe.sectionSpans, span.stop ≤ data.length
  trailing : pe.hashedSize < data.length →
    pe.hashedSize ≤ data.length - pe.certSize

theorem total_sectionSpans (pe : Pe) :
    (pe.hashedSections.map Section.sizeOfRawData).sum =
      total pe.sectionSpans := by
  rw [total, Pe.sectionSpans, List.map_map]
  congr 1
  apply List.map_congr_left
  intro s _
  simp [Section.span, Span.length]

theorem hashedRanges_eq_some (got : hashedRanges pe data = some ranges) :
    Laid pe data ∧
      ranges = pe.headerSpans ++ pe.sectionSpans ++ pe.trailing data := by
  simp only [hashedRanges, Option.bind_eq_bind, Option.bind_eq_some_iff] at got
  obtain ⟨opt, parsed, first, got₁, second, got₂, third, got₃, spans, got₄,
    got⟩ := got
  have headers : opt.sizeOfHeaders = pe.headers := by simp [Pe.headers, parsed]
  have certSize : opt.certificateTable.getD 0 = pe.certSize := by
    simp [Pe.certSize, parsed]
  rw [headers] at got₃ got
  rw [certSize] at got
  obtain ⟨rfl, -, -⟩ := getRange_eq_some got₁
  obtain ⟨rfl, -, -⟩ := getRange_eq_some got₂
  obtain ⟨rfl, ordered, inside⟩ := getRange_eq_some got₃
  obtain ⟨rfl, bounds⟩ := sectionRanges_eq_some got₄
  rw [total_sectionSpans] at got
  change (if pe.hashedSize < data.length then _ else _) = _ at got
  unfold Pe.trailing
  split at got
  · rename_i more
    rw [if_pos more]
    split at got
    · obtain ⟨trailing, got₅, same⟩ := Option.bind_eq_some_iff.mp got
      obtain ⟨rfl, before, -⟩ := getRange_eq_some got₅
      exact ⟨⟨⟨ordered, inside⟩, bounds, fun _ => before⟩,
        (Option.some.inj same).symm⟩
    · cases got
  · rename_i none_left
    rw [if_neg none_left, List.append_nil]
    exact ⟨⟨⟨ordered, inside⟩, bounds, fun more => absurd more none_left⟩,
      (Option.some.inj got).symm⟩

end

/-!
## Images the hash covers whole

Sections that tile the file behind the headers leave no byte out but two fields
and the certificate table, and no byte is hashed twice.  Two such images of one
length hash the same bytes only when they differ nowhere else.
-/

/-- A place in one of the two fields the hash leaves out. -/
def InField (pe : Pe) (i : Nat) : Prop :=
  (pe.checksum ≤ i ∧ i < pe.checksum + 4) ∨
    (pe.certEntry ≤ i ∧ i < pe.certEntry + 8)

def InSection (pe : Pe) (i : Nat) : Prop :=
  ∃ s ∈ pe.sections, s.pointerToRawData ≤ i ∧
    i < s.pointerToRawData + s.sizeOfRawData

/-- The sections with raw data follow each other from the end of the headers
on. -/
def Tiled (pe : Pe) : Prop :=
  Tile pe.headers pe.sectionSpans

section

variable {pe : Pe} {data : Bytes} {ranges : List Span} {i : Nat}

/-! ## Sections -/

theorem mem_hashedSections {s : Section} :
    s ∈ pe.hashedSections ↔ s ∈ pe.sections ∧ s.sizeOfRawData ≠ 0 := by
  simp [Pe.hashedSections, List.mem_mergeSort]

theorem proper_sectionSpans (pe : Pe) : Proper pe.sectionSpans := by
  intro span member
  obtain ⟨s, hashed, rfl⟩ := List.mem_map.mp member
  have size := (mem_hashedSections.mp hashed).2
  simp only [Section.span]
  omega

theorem sorted_sectionSpans (pe : Pe) :
    pe.sectionSpans.Pairwise fun s t => s.start ≤ t.start := by
  rw [Pe.sectionSpans, List.pairwise_map]
  have sorted := @List.pairwise_mergeSort Section
    (fun s t => decide (s.pointerToRawData ≤ t.pointerToRawData))
    (by intro a b c; simp only [decide_eq_true_eq]; omega)
    (by intro a b; simp only [Bool.or_eq_true, decide_eq_true_eq]; omega)
    (pe.sections.filter fun s => s.sizeOfRawData ≠ 0)
  exact sorted.imp fun before => by simpa [Section.span] using before

theorem covers_sectionSpans : Covers pe.sectionSpans i ↔ InSection pe i := by
  constructor
  · rintro ⟨span, member, inside⟩
    obtain ⟨s, hashed, rfl⟩ := List.mem_map.mp member
    exact ⟨s, (mem_hashedSections.mp hashed).1, inside⟩
  · rintro ⟨s, member, inside⟩
    refine ⟨s.span, List.mem_map_of_mem (mem_hashedSections.mpr ⟨member, ?_⟩),
      inside⟩
    omega

/-! ## Places -/

theorem covers_append {spans more : List Span} :
    Covers (spans ++ more) i ↔ Covers spans i ∨ Covers more i := by
  simp [Covers, or_and_right, exists_or]

theorem checksum_lt (pe : Pe) : pe.checksum + 4 ≤ pe.certEntry := by
  unfold Pe.checksum Pe.certEntry
  split <;> omega

theorem covers_headerSpans (laid : Laid pe data) :
    Covers pe.headerSpans i ↔ i < pe.headers ∧ ¬ InField pe i := by
  have ordered := checksum_lt pe
  have headers := laid.headers.1
  simp only [Covers, Pe.headerSpans, Span.Mem, List.mem_cons, List.not_mem_nil,
    or_false, exists_eq_or_imp, exists_eq_left, InField]
  omega

theorem covers_trailing : Covers (pe.trailing data) i ↔
    pe.hashedSize < data.length ∧ pe.hashedSize ≤ i ∧
      i < data.length - pe.certSize := by
  unfold Pe.trailing
  split
  · rename_i more
    simp [Covers, Span.Mem, more]
  · rename_i none_left
    simp [Covers, none_left]

theorem covers_hashedRanges (got : hashedRanges pe data = some ranges) :
    Covers ranges i ↔ (i < pe.headers ∧ ¬ InField pe i) ∨ InSection pe i ∨
      (pe.hashedSize ≤ i ∧ i < data.length - pe.certSize) := by
  obtain ⟨laid, rfl⟩ := hashedRanges_eq_some got
  rw [covers_append, covers_append, covers_headerSpans laid,
    covers_sectionSpans, covers_trailing, or_assoc]
  have more : pe.hashedSize ≤ i ∧ i < data.length - pe.certSize →
      pe.hashedSize < data.length := by omega
  tauto

theorem range_inside (got : hashedRanges pe data = some ranges) {range : Span}
    (member : range ∈ ranges) :
    range.start ≤ range.stop ∧ range.stop ≤ data.length := by
  obtain ⟨laid, rfl⟩ := hashedRanges_eq_some got
  have ordered := checksum_lt pe
  have headers := laid.headers
  rcases List.mem_append.mp member with member | member
  · rcases List.mem_append.mp member with member | member
    · simp only [Pe.headerSpans, List.mem_cons, List.not_mem_nil,
        or_false] at member
      rcases member with rfl | rfl | rfl <;> dsimp only <;> omega
    · have proper := proper_sectionSpans pe range member
      exact ⟨Nat.le_of_lt proper, laid.sections range member⟩
  · unfold Pe.trailing at member
    split at member
    · rename_i more
      have room := laid.trailing more
      rw [List.mem_singleton.mp member]
      exact ⟨room, Nat.sub_le _ _⟩
    · cases member

/-! ## Tiled images -/

theorem Tiled.apart (tiled : Tiled pe)
    (got : hashedRanges pe data = some ranges) :
    ranges.Pairwise Span.Apart := by
  obtain ⟨laid, rfl⟩ := hashedRanges_eq_some got
  have proper := proper_sectionSpans pe
  have ordered := checksum_lt pe
  have headers := laid.headers
  have placed {span : Span} (member : span ∈ pe.sectionSpans) {j : Nat}
      (inside : span.Mem j) : pe.headers ≤ j ∧ j < pe.hashedSize :=
    (tiled.covers proper).mp ⟨span, member, inside⟩
  rw [List.append_assoc, List.pairwise_append]
  refine ⟨?_, List.pairwise_append.mpr ⟨tiled.pairwise proper, ?_, ?_⟩, ?_⟩
  · have first : Span.Apart ⟨0, pe.checksum⟩
        ⟨pe.checksum + 4, pe.certEntry⟩ := Span.apart_of_le (by dsimp only; omega)
    have second : Span.Apart ⟨0, pe.checksum⟩
        ⟨pe.certEntry + 8, pe.headers⟩ := Span.apart_of_le (by dsimp only; omega)
    have third : Span.Apart ⟨pe.checksum + 4, pe.certEntry⟩
        ⟨pe.certEntry + 8, pe.headers⟩ := Span.apart_of_le (by dsimp only; omega)
    simp [Pe.headerSpans, first, second, third]
  · unfold Pe.trailing
    split <;> simp
  · intro s member t behind j inside there
    have before := placed member inside
    have past := (covers_trailing.mp ⟨t, behind, there⟩).2.1
    omega
  · intro s member t behind j inside there
    have low := ((covers_headerSpans laid).mp ⟨s, member, inside⟩).1
    rcases List.mem_append.mp behind with behind | behind
    · have high := placed behind there
      omega
    · have past := (covers_trailing.mp ⟨t, behind, there⟩).2.1
      unfold Pe.hashedSize at past
      omega

theorem Tiled.covered (tiled : Tiled pe)
    (got : hashedRanges pe data = some ranges)
    (before : i < data.length - pe.certSize) (plain : ¬ InField pe i) :
    Covers ranges i := by
  have proper := proper_sectionSpans pe
  rw [covers_hashedRanges got, ← covers_sectionSpans, tiled.covers proper]
  unfold Pe.hashedSize
  by_cases header : i < pe.headers
  · exact .inl ⟨header, plain⟩
  · right
    omega

/-- Where bytes follow the sections, only a tiled image is covered without a
byte hashed twice. -/
theorem tiled_of_covered (got : hashedRanges pe data = some ranges)
    (more : pe.hashedSize < data.length) (apart : ranges.Pairwise Span.Apart)
    (covered : ∀ i, i < data.length - pe.certSize → ¬ InField pe i →
      Covers ranges i) : Tiled pe := by
  obtain ⟨laid, rfl⟩ := hashedRanges_eq_some got
  have room := laid.trailing more
  have ordered := checksum_lt pe
  have headers := laid.headers
  have sections : pe.sectionSpans.Pairwise Span.Apart := by
    rw [List.append_assoc] at apart
    exact (List.pairwise_append.mp (List.pairwise_append.mp apart).2.1).1
  refine tile_of_covers (proper_sectionSpans pe) sections
    (sorted_sectionSpans pe) ?_
  intro i from_headers to_end
  have small : i < data.length - pe.certSize :=
    Nat.lt_of_lt_of_le to_end room
  have plain : ¬ InField pe i := by
    unfold InField
    omega
  have covers := covered i small plain
  rw [covers_append, covers_append, covers_headerSpans laid,
    covers_trailing] at covers
  rcases covers with (header | section') | trailing
  · omega
  · exact section'
  · exact absurd trailing.2.1 (Nat.not_le_of_lt to_end)

/-! ## What is hashed -/

/-- What an image stores of itself where the hash looks for it. -/
structure Parsed (pe : Pe) (data : Bytes) : Prop where
  pointer : pe.pePointer = (window data 60 4).foldr
    (fun b n => b.toNat + 256 * n) 0
  magic : pe.is64 = decide (window data pe.optOff 2 = [0x0b, 0x02])

def Pe.stop (pe : Pe) (data : Bytes) : Nat :=
  if pe.hashedSize < data.length then data.length - pe.certSize
  else data.length

/-- A tiled image is hashed from its start to there, without the two fields. -/
theorem Tiled.hashedBytes_eq (tiled : Tiled pe)
    (got : hashedRanges pe data = some ranges) :
    data.length - pe.certSize ≤ pe.stop data ∧ pe.stop data ≤ data.length ∧
      pe.certEntry + 8 ≤ pe.stop data ∧
      hashedBytes ranges data = window data 0 pe.checksum ++
        (window data (pe.checksum + 4) (pe.certEntry - (pe.checksum + 4)) ++
          (window data (pe.certEntry + 8)
            (pe.stop data - (pe.certEntry + 8)) ++ padding data.length)) := by
  obtain ⟨laid, rfl⟩ := hashedRanges_eq_some got
  have proper := proper_sectionSpans pe
  have headers := laid.headers
  have fits : pe.hashedSize ≤ data.length :=
    tiled.total_le proper headers.2 laid.sections
  have past : pe.headers ≤ pe.hashedSize := Nat.le_add_right _ _
  have body : window data (pe.certEntry + 8)
        (pe.headers - (pe.certEntry + 8)) ++
      window data pe.headers (total pe.sectionSpans) =
        window data (pe.certEntry + 8)
          (pe.hashedSize - (pe.certEntry + 8)) := by
    have start : pe.headers =
        pe.certEntry + 8 + (pe.headers - (pe.certEntry + 8)) := by omega
    nth_rewrite 2 [start]
    rw [window_append]
    congr 1
    unfold Pe.hashedSize
    omega
  have tail : window data (pe.certEntry + 8)
        (pe.hashedSize - (pe.certEntry + 8)) ++
      (pe.trailing data).flatMap (Span.slice data) =
        window data (pe.certEntry + 8)
          (pe.stop data - (pe.certEntry + 8)) := by
    unfold Pe.trailing Pe.stop
    split
    · rename_i more
      have room := laid.trailing more
      have start : pe.hashedSize = pe.certEntry + 8 +
          (pe.hashedSize - (pe.certEntry + 8)) := by omega
      rw [List.flatMap_singleton, Span.slice, Span.length]
      dsimp only
      nth_rewrite 2 [start]
      rw [window_append]
      congr 1
      omega
    · rename_i none_left
      rw [List.flatMap_nil, List.append_nil]
      congr 1
      omega
  refine ⟨?_, ?_, ?_, ?_⟩
  · unfold Pe.stop
    split <;> omega
  · unfold Pe.stop
    split <;> omega
  · unfold Pe.stop
    split
    · rename_i more
      have room := laid.trailing more
      omega
    · omega
  · rw [← tail, ← body]
    simp only [hashedBytes, List.flatMap_append, tiled.slices proper,
      Pe.headerSpans, List.flatMap_cons, List.flatMap_nil, Span.slice,
      Span.length, List.append_nil, List.append_assoc, Nat.sub_zero]

theorem window_of_start {n off len : Nat} (more : Bytes) (fits : off + len ≤ n)
    (inside : n ≤ data.length) :
    window (window data 0 n ++ more) off len = window data off len := by
  have size : (window data 0 n).length = n := by
    rw [length_window]
    omega
  have part := @window_window data 0 n off len fits
  rw [Nat.zero_add] at part
  rw [← part]
  generalize window data 0 n = front at size
  rw [window, window, List.drop_append_of_le_length (by omega),
    List.take_append_of_le_length (by rw [List.length_drop]; omega)]

/-- Two tiled images of one length that hash the same bytes agree up to the
certificate table, the two fields apart. -/
theorem hashedBytes_injective {pe' : Pe} {data' : Bytes} {ranges' : List Span}
    (got : hashedRanges pe data = some ranges)
    (got' : hashedRanges pe' data' = some ranges')
    (tiled : Tiled pe) (tiled' : Tiled pe') (parsed : Parsed pe data)
    (parsed' : Parsed pe' data') (length : data.length = data'.length)
    (same : hashedBytes ranges data = hashedBytes ranges' data')
    (before : i < data.length - pe.certSize) (plain : ¬ InField pe i) :
    data[i]? = data'[i]? := by
  obtain ⟨far, inside, headers, hashed⟩ := tiled.hashedBytes_eq got
  obtain ⟨far', inside', headers', hashed'⟩ := tiled'.hashedBytes_eq got'
  rw [hashed, hashed', length] at same
  have ordered := checksum_lt pe
  have ordered' := checksum_lt pe'
  -- the start of the file tells where the fields are
  have pointer : window data 60 4 = window data' 60 4 := by
    have low : 64 ≤ pe.checksum := by
      unfold Pe.checksum
      omega
    have low' : 64 ≤ pe'.checksum := by
      unfold Pe.checksum
      omega
    have starts := congrArg (fun bytes => window bytes 60 4) same
    rwa [window_of_start _ low (by omega), window_of_start _ low' (by omega)]
      at starts
  have optOff : pe.optOff = pe'.optOff := by
    rw [Pe.optOff, Pe.optOff, parsed.pointer, parsed'.pointer, pointer]
  have checksum : pe.checksum = pe'.checksum := by
    rw [Pe.checksum, Pe.checksum, optOff]
  rw [← checksum] at same
  obtain ⟨first, others⟩ := List.append_inj same (by
    rw [length_window, length_window, length])
  have magic : window data pe.optOff 2 = window data' pe.optOff 2 := by
    have inner := congrArg (fun bytes => window bytes pe.optOff 2) first
    have fits : pe.optOff + 2 ≤ pe.checksum := by
      unfold Pe.checksum
      omega
    rwa [window_window data fits, window_window data' fits,
      Nat.zero_add] at inner
  have certEntry : pe.certEntry = pe'.certEntry := by
    rw [Pe.certEntry, Pe.certEntry, parsed.magic, parsed'.magic, ← optOff, magic]
  rw [← certEntry] at others headers'
  obtain ⟨second, rest⟩ := List.append_inj others (by
    rw [length_window, length_window, length])
  have third := List.append_inj_left' rest rfl
  have stop : pe.stop data = pe'.stop data' := by
    have sizes := congrArg List.length third
    rw [length_window_of_le (by omega), length_window_of_le (by omega)] at sizes
    omega
  unfold InField at plain
  by_cases low : i < pe.checksum
  · have at_i := congrArg (fun bytes : Bytes => bytes[i]?) first
    rwa [getElem?_window data low, getElem?_window data' low,
      Nat.zero_add] at at_i
  by_cases middle : i < pe.certEntry
  · have index : i - (pe.checksum + 4) <
        pe.certEntry - (pe.checksum + 4) := by omega
    have at_i := congrArg
      (fun bytes : Bytes => bytes[i - (pe.checksum + 4)]?) second
    rwa [getElem?_window data index, getElem?_window data' index,
      Nat.add_sub_cancel' (by omega)] at at_i
  · have at_i := congrArg
      (fun bytes : Bytes => bytes[i - (pe.certEntry + 8)]?) third
    rwa [getElem?_window data (by omega), getElem?_window data' (by omega),
      Nat.add_sub_cancel' (by omega)] at at_i

/-! ## Coverage -/

/-- Every byte up to the certificate table is hashed once, the two fields
apart. -/
def Whole (pe : Pe) (data : Bytes) (ranges : List Span) : Prop :=
  ranges.Pairwise Span.Apart ∧
    ∀ i, i < data.length - pe.certSize → ¬ InField pe i → Covers ranges i

structure Coverage (pe : Pe) (data : Bytes) (ranges : List Span) : Prop where
  inside : ∀ range ∈ ranges,
    range.start ≤ range.stop ∧ range.stop ≤ data.length
  covers : ∀ i, Covers ranges i ↔ (i < pe.headers ∧ ¬ InField pe i) ∨
    InSection pe i ∨ (pe.hashedSize ≤ i ∧ i < data.length - pe.certSize)
  whole : Tiled pe → Whole pe data ranges
  tiled : pe.hashedSize < data.length → Whole pe data ranges → Tiled pe
  injective : Tiled pe → Parsed pe data → ∀ pe' data' ranges',
    hashedRanges pe' data' = some ranges' → Tiled pe' → Parsed pe' data' →
    data.length = data'.length →
    hashedBytes ranges data = hashedBytes ranges' data' →
      ∀ i, i < data.length - pe.certSize → ¬ InField pe i →
        data[i]? = data'[i]?

/-- The hash covers the headers, the sections and what follows as many bytes:
the whole image when the sections tile it. -/
theorem hashedRanges_coverage (got : hashedRanges pe data = some ranges) :
    Coverage pe data ranges where
  inside := fun _ member => range_inside got member
  covers := fun _ => covers_hashedRanges got
  whole := fun tiled =>
    ⟨tiled.apart got, fun _ before plain => tiled.covered got before plain⟩
  tiled := fun more whole => tiled_of_covered got more whole.1 whole.2
  injective := by
    intro tiled parsed pe' data' ranges' got' tiled' parsed' length same i
      before plain
    exact hashedBytes_injective got got' tiled tiled' parsed parsed' length same
      before plain

end

/-! ### A gap in front of a section -/

/-- An image with one section, `gap` bytes behind its headers, and a certificate
table of eight bytes. -/
def gapPe (gap : Nat) : Pe where
  optionalHeader := some ⟨224, some 8⟩
  pePointer := 64
  is64 := false
  sections := [⟨224 + gap, 8⟩]

/-- A file of that image, of which `b` is the first byte behind the headers. -/
def gapData (b : UInt8) : Bytes :=
  [0x4d, 0x5a] ++ List.replicate 58 0 ++ [64, 0, 0, 0, 0x50, 0x45] ++
    List.replicate 22 0 ++ [0x0b, 0x01] ++ List.replicate 126 0 ++
    [236, 0, 0, 0, 8, 0, 0, 0] ++ [b] ++ List.replicate 11 0 ++
    [8, 0, 0, 0, 0, 2, 2, 0]

theorem hashedRanges_coverage_tiled : Coverage (gapPe 0) (gapData 0)
    [⟨0, 152⟩, ⟨156, 216⟩, ⟨224, 224⟩, ⟨224, 232⟩, ⟨232, 236⟩] :=
  hashedRanges_coverage (by decide +kernel)

theorem parsed_gap (b : UInt8) : Parsed (gapPe 4) (gapData b) :=
  ⟨rfl, rfl⟩

/-- Two files that differ in a gap can hash the same bytes. -/
theorem not_injective_gap :
    ¬ ∀ (pe : Pe) (data data' : Bytes) (ranges : List Span),
      Parsed pe data → Parsed pe data' →
      hashedRanges pe data = some ranges →
      hashedRanges pe data' = some ranges →
      hashedBytes ranges data = hashedBytes ranges data' →
        ∀ i, i < data.length - pe.certSize → ¬ InField pe i →
          data[i]? = data'[i]? := by
  intro injective
  have differ := injective (gapPe 4) (gapData 0) (gapData 1)
    [⟨0, 152⟩, ⟨156, 216⟩, ⟨224, 224⟩, ⟨228, 236⟩, ⟨232, 236⟩]
    (parsed_gap 0) (parsed_gap 1) (by decide +kernel) (by decide +kernel)
    (by decide +kernel) 224 (by decide +kernel) (by
      simp [InField, Pe.checksum, Pe.certEntry, Pe.optOff, gapPe])
  exact absurd differ (by decide +kernel)

end Exav.Authenticode
