import Exav.Lib.Fields
import Exav.Unpack.EmitStream

/-!
# Partition tables

A raw disk image has its partitions in a GUID Partition Table, an Apple Partition
Map or a classic MBR table.  The walk reads the table, which is near the start,
and gives each partition as a region; a part of the table that it does not walk
is a region of its own.
-/

set_option maxRecDepth 8192

namespace Exav.Unpack.Partition

open Exav.Fields (ofLe)

/-! ## Fields -/

/-- A little-endian field, or zero if it is out of bounds. -/
def leUint (width : Nat) (d : Bytes) (off : Nat) : Nat :=
  if off + width ≤ d.length then ofLe (window d off width) else 0

def leU64 : Bytes → Nat → Nat := leUint 8

def leU32 : Bytes → Nat → Nat := leUint 4

def leU16 : Bytes → Nat → Nat := leUint 2

/-- A big-endian `u32`, or zero if it is out of bounds. -/
def beU32 (d : Bytes) (off : Nat) : Nat :=
  if off + 4 ≤ d.length then ofLe (window d off 4).reverse else 0

/-! ## Detection -/

def sector : Nat := 512

/-- The most partitions that are walked. -/
def maxParts : Nat := 128

/-- `EFI PART` -/
def gptSig : Bytes := [0x45, 0x46, 0x49, 0x20, 0x50, 0x41, 0x52, 0x54]

/-- `ER` -/
def driverSig : Bytes := [0x45, 0x52]

/-- `PM` -/
def mapSig : Bytes := [0x50, 0x4D]

/-- Where the four entries of an MBR's partition table start. -/
def mbrEntries : List Nat := [0x1BE, 0x1CE, 0x1DE, 0x1EE]

def isGpt (data : Bytes) : Bool := window data sector 8 == gptSig

def isApm (data : Bytes) : Bool :=
  window data 0 2 == driverSig && window data sector 2 == mapSig

/-- Whether a sector is the first one of a filesystem, which ends like a
partition table. -/
def isVolumeBootRecord (data : Bytes) : Bool :=
  let oem := window data 3 8
  if oem.length < 8 then false
  else if !oem.all (fun b => 0x20 ≤ b && b ≤ 0x7E) then false
  else if [0x45, 0x58, 0x46, 0x41, 0x54] <+: oem then true
  else
    let sectorsPerCluster := (byteAt data 13).toNat
    leU16 data 11 ∈ [512, 1024, 2048, 4096] ∧ 0 < sectorsPerCluster ∧
      sectorsPerCluster ≤ 128 ∧ sectorsPerCluster &&& (sectorsPerCluster - 1) = 0

def looksLikePartition (data : Bytes) (len e : Nat) : Bool :=
  let status := data[e]?.getD 0xFF
  let ptype := byteAt data (e + 4)
  let lbaFirst := leU32 data (e + 8)
  let sectors := leU32 data (e + 12)
  (status = 0x00 ∨ status = 0x80) ∧ ptype ≠ 0x00 ∧ ptype ≠ 0xEE ∧ 0 < sectors ∧
    0 < lbaFirst ∧ lbaFirst * sector < len

/-- Whether an image of a length opens with a plausible MBR partition table. -/
def isMbrIn (data : Bytes) (len : Nat) : Bool :=
  if window data 510 2 ≠ [0x55, 0xAA] then false
  else if isVolumeBootRecord data then false
  else mbrEntries.any (looksLikePartition data len)

/-! ## The walk -/

/-- A part of an image to scan, or why a part of its table was not walked. -/
inductive Region where
  | member (name : String) (start len : Nat)
  | unwalked (name reason : String)
  deriving DecidableEq

/-- One partition, clamped to the image. -/
def lbaRange (name : String) (firstLba endSector totalLen : Nat) :
    Option Region :=
  let start := min (min (firstLba * sector) u64Max) totalLen
  let stop := min (min (endSector * sector) u64Max) totalLen
  if stop ≤ start then none else some (.member name start (stop - start))

/-- What the walk makes of one entry of a table: it may end there, with a word on
what is left. -/
inductive Slot where
  | stop (left : Option Region)
  | skip
  | part (firstLba endSector : Nat)

/-- The partitions of a table in order, numbered from one.  `full` is what is
said when as many as are walked have been. -/
def partitions (label : String) (full : Option (Option Region))
    (totalLen : Nat) : List Slot → (emitted : Nat) → List Region
  | [], _ => []
  | slot :: slots, emitted =>
      if full.isSome ∧ maxParts ≤ emitted then full.join.toList
      else
        match slot with
        | .stop left => left.toList
        | .skip => partitions label full totalLen slots emitted
        | .part firstLba endSector =>
            let emitted := emitted + 1
            (lbaRange s!"{label}-part-{emitted}" firstLba endSector
              totalLen).toList ++
              partitions label full totalLen slots emitted

def tooManyGpt : Region :=
  .unwalked s!"<gpt-partitions-beyond-{maxParts}>"
    "too many GPT partitions to walk them all"

def implausibleGpt : Region :=
  .unwalked "<gpt>" "implausible GPT entry size; partition table not walked"

def truncatedGpt : Region :=
  .unwalked "<gpt-entry-table-truncated>"
    "GPT partition entry table extends past the end of the image"

def tooManyApm : Region :=
  .unwalked s!"<apm-partitions-beyond-{maxParts}>"
    "too many APM partitions to walk them all"

def gptSlot (table : Bytes) (entrySize i : Nat) : Slot :=
  let entry := window table (i * entrySize) 56
  if entry.length < 56 then .stop (some truncatedGpt)
  else if (entry.take 16).all (· == 0) then .skip
  else .part (leU64 entry 32) (min (leU64 entry 40 + 1) u64Max)

def plausibleGptSize (entrySize : Nat) : Prop :=
  128 ≤ entrySize ∧ entrySize ≤ 4096

instance (entrySize : Nat) : Decidable (plausibleGptSize entrySize) :=
  inferInstanceAs (Decidable (_ ∧ _))

def gptOffsets (data head : Bytes) : List Region :=
  let entriesLba := leU64 head (sector + 72)
  let declared := leU32 head (sector + 80)
  let numEntries := min declared maxParts
  let beyond := if maxParts < declared then [tooManyGpt] else []
  let entrySize := leU32 head (sector + 84)
  if plausibleGptSize entrySize then
    let base := min (entriesLba * sector) u64Max
    let table := window data base (numEntries * entrySize)
    beyond ++ partitions "gpt" (some (some tooManyGpt)) data.length
      ((List.range numEntries).map (gptSlot table entrySize)) 0
  else beyond ++ [implausibleGpt]

def apmSlot (data : Bytes) (i : Nat) : Slot :=
  let s := window data ((i + 1) * sector) sector
  if window s 0 2 ≠ mapSig then .stop none
  else
    let pblockStart := beU32 s 8
    let pblockCount := beU32 s 12
    if pblockCount = 0 then .skip
    else .part pblockStart (pblockStart + pblockCount)

def apmOffsets (data head : Bytes) : List Region :=
  let declaredMap := beU32 head (sector + 4)
  let mapEntries := min declaredMap maxParts
  let beyond := if maxParts < declaredMap then [tooManyApm] else []
  beyond ++ partitions "apm" (some none) data.length
    ((List.range mapEntries).map (apmSlot data)) 0

def mbrSlot (head : Bytes) (totalLen e : Nat) : Slot :=
  let ptype := byteAt head (e + 4)
  if ptype = 0x00 ∨ ptype = 0xEE then .skip
  else
    let lbaFirst := leU32 head (e + 8)
    let sectors := leU32 head (e + 12)
    if sectors = 0 ∨ totalLen ≤ lbaFirst * sector then .skip
    else .part lbaFirst (lbaFirst + sectors)

def mbrOffsets (data head : Bytes) : List Region :=
  partitions "mbr" none data.length
    (mbrEntries.map (mbrSlot head data.length)) 0

def streamOffsets (data : Bytes) : List Region :=
  let head := window data 0 (2 * sector)
  if isGpt head then gptOffsets data head
  else if isApm head then apmOffsets data head
  else if isMbrIn head data.length then mbrOffsets data head
  else []

/-!
## What a partition walk accounts for

An entry of a table that is in use has an extent of sectors.  The regions of an
image lie inside it and account for every entry whose extent meets the image,
unless an entry says that it starts at the first sector, or an Apple map has a
gap.
-/

/-! ## Tables -/

inductive TableKind where
  | gpt
  | apm
  | mbr
  deriving DecidableEq

/-- An image whose size is a `u64`. -/
structure Image where
  data : Bytes
  fits : data.length ≤ u64Max

namespace Image

def len (image : Image) : Nat := image.data.length

/-- The first two sectors. -/
def head (image : Image) : Bytes := window image.data 0 (2 * sector)

def table (image : Image) : Option TableKind :=
  if isGpt image.head then some .gpt
  else if isApm image.head then some .apm
  else if isMbrIn image.head image.len then some .mbr
  else none

end Image

/-- The sectors from `first` on that are before `stop`. -/
structure Extent where
  first : Nat
  stop : Nat

namespace Extent

def start (e : Extent) : Nat := e.first * sector

/-- Where an extent ends in an image. -/
def finish (e : Extent) (len : Nat) : Nat := min (e.stop * sector) len

/-- An extent has a byte of the image. -/
def Meets (e : Extent) (len : Nat) : Prop := e.start < e.finish len

end Extent

/-- Where an entry of a GUID table stands. -/
def Image.gptPlace (image : Image) (i : Nat) : Nat :=
  leU64 image.head (sector + 72) * sector + i * leU32 image.head (sector + 84)

/-- The extent of an entry that is in use: one with a type in a GUID table, one
of blocks behind the signature in an Apple map, and one of sectors with a type
other than the protective one in an MBR. -/
def Image.used (image : Image) (kind : TableKind) (i : Nat) : Option Extent :=
  match kind with
  | .gpt =>
      let entry := window image.data (image.gptPlace i) 56
      if i < leU32 image.head (sector + 80) ∧ ∃ b ∈ entry.take 16, b ≠ 0 then
        some ⟨leU64 entry 32, leU64 entry 40 + 1⟩
      else none
  | .apm =>
      let s := window image.data ((i + 1) * sector) sector
      if i < beU32 image.head (sector + 4) ∧ window s 0 2 = mapSig ∧
          beU32 s 12 ≠ 0 then
        some ⟨beU32 s 8, beU32 s 8 + beU32 s 12⟩
      else none
  | .mbr =>
      match mbrEntries[i]? with
      | none => none
      | some e =>
          let ptype := byteAt image.head (e + 4)
          let sectors := leU32 image.head (e + 12)
          if ptype ≠ 0x00 ∧ ptype ≠ 0xEE ∧ sectors ≠ 0 then
            some ⟨leU32 image.head (e + 8), leU32 image.head (e + 8) + sectors⟩
          else none

/-- A region says that an entry was not walked. -/
def Image.Covers (image : Image) (kind : TableKind) (i : Nat) (r : Region) :
    Prop :=
  match kind with
  | .gpt => r = tooManyGpt ∧ maxParts ≤ i ∨ r = implausibleGpt ∨
      r = truncatedGpt ∧ image.len < image.gptPlace i + 56
  | .apm => r = tooManyApm ∧ maxParts ≤ i
  | .mbr => False

/-- Every member lies inside the image, has bytes and leaves out the first
sector, and every entry in use that meets the image has its region or is covered
by one. -/
structure Image.Accounts (image : Image) (regions : List Region) : Prop where
  inside : ∀ name start len, .member name start len ∈ regions →
    start + len ≤ image.len ∧ 0 < len ∧ start ≠ 0
  every : ∀ kind, image.table = some kind → ∀ i e,
    image.used kind i = some e → e.Meets image.len →
    (∃ name, .member name e.start (e.finish image.len - e.start) ∈ regions) ∨
      ∃ r ∈ regions, image.Covers kind i r

/-- An entry that the walk comes to. -/
def Image.Walked (image : Image) (kind : TableKind) (i : Nat) : Prop :=
  match kind with
  | .gpt => i < maxParts ∧
      plausibleGptSize (leU32 image.head (sector + 84)) ∧
      image.gptPlace i + 56 ≤ image.len
  | .apm => i < maxParts ∧
      ∀ j ≤ i, window image.data ((j + 1) * sector) 2 = mapSig
  | .mbr => True

/-- No entry that is walked and meets the image starts at its first sector, and
an entry of an Apple map behind a gap has the part of one before it. -/
structure Image.Sound (image : Image) : Prop where
  first : ∀ kind, image.table = some kind → ∀ i e, image.Walked kind i →
    image.used kind i = some e → e.Meets image.len → e.first ≠ 0
  gaps : image.table = some .apm → ∀ i < maxParts, ∀ e,
    image.used .apm i = some e → e.Meets image.len →
    ∃ j e', image.Walked .apm j ∧ image.used .apm j = some e' ∧
      e'.Meets image.len ∧ e'.start = e.start ∧
      e'.finish image.len = e.finish image.len

/-! ## Slots -/

/-- An entry that ends the walk. -/
def Slot.Ends (slot : Slot) : Prop := ∃ left, slot = .stop left

/-- The walk comes to an entry at `k` that is as required. -/
def Comes (slots : List Slot) (k : Nat) (required : Slot → Prop) : Prop :=
  (∃ slot, slots[k]? = some slot ∧ required slot) ∧
    ∀ j < k, ∀ slot, slots[j]? = some slot → ¬ slot.Ends

theorem exists_comes_cons {slot : Slot} {slots : List Slot}
    {required : Slot → Prop} :
    (∃ k, Comes (slot :: slots) k required) ↔
      required slot ∨ ¬ slot.Ends ∧ ∃ k, Comes slots k required := by
  constructor
  · rintro ⟨k, ⟨found, there, ok⟩, before⟩
    cases k with
    | zero =>
        cases there
        exact .inl ok
    | succ k =>
        refine .inr ⟨before 0 (Nat.succ_pos k) slot rfl, k, ⟨found, there, ok⟩,
          ?_⟩
        intro j less other here
        exact before (j + 1) (Nat.succ_lt_succ less) other here
  · rintro (ok | ⟨goes_on, k, ⟨found, there, ok⟩, before⟩)
    · exact ⟨0, ⟨slot, rfl, ok⟩, nofun⟩
    · refine ⟨k + 1, ⟨found, there, ok⟩, ?_⟩
      intro j less other here
      cases j with
      | zero =>
          cases here
          exact goes_on
      | succ j => exact before j (Nat.lt_of_succ_lt_succ less) other here

theorem lbaRange_eq {len : Nat} (small : len ≤ u64Max) (name : String)
    (e : Extent) (stop : Nat)
    (same : stop = e.stop ∨ stop = min e.stop u64Max) (r : Region) :
    lbaRange name e.first stop len = some r ↔ e.Meets len ∧
      r = .member name e.start (e.finish len - e.start) := by
  have most : u64Max = 2 ^ 64 - 1 := rfl
  have size : sector = 512 := rfl
  have finish : min (min (stop * sector) u64Max) len = e.finish len := by
    rw [most] at small same ⊢
    rw [Extent.finish, size]
    rcases same with rfl | rfl
    · omega
    · omega
  unfold lbaRange Extent.Meets
  dsimp only
  rw [finish]
  by_cases meets : e.start < e.finish len
  · have inside : e.finish len ≤ len := Nat.min_le_right _ _
    have start : min (min (e.first * sector) u64Max) len = e.start := by
      unfold Extent.start at meets ⊢
      omega
    rw [start, if_neg (Nat.not_le.mpr meets), and_iff_right meets,
      Option.some.injEq]
    exact eq_comm
  · have late : e.finish len ≤ min (min (e.first * sector) u64Max) len := by
      unfold Extent.start Extent.finish at *
      omega
    rw [if_pos late]
    exact iff_of_false nofun fun both => meets both.1

section

variable {label : String} {full : Option (Option Region)} {len : Nat}

/-- The walk of a table that has no more entries than are walked. -/
theorem partitions_cons {slot : Slot} {slots : List Slot} {emitted : Nat}
    (few : full = none ∨ emitted < maxParts) :
    partitions label full len (slot :: slots) emitted =
      match slot with
      | .stop left => left.toList
      | .skip => partitions label full len slots emitted
      | .part first stop =>
          (lbaRange s!"{label}-part-{emitted + 1}" first stop len).toList ++
            partitions label full len slots (emitted + 1) := by
  have goes_on : ¬ (full.isSome ∧ maxParts ≤ emitted) := by
    rintro ⟨some_full, many⟩
    rcases few with rfl | few
    · cases some_full
    · exact Nat.not_lt.mpr many few
  exact if_neg goes_on

def Slot.Gives (slot : Slot) (len : Nat) (such : Region → Prop) : Prop :=
  match slot with
  | .stop left => ∃ r, left = some r ∧ such r
  | .skip => False
  | .part firstLba endSector =>
      ∃ name r, lbaRange name firstLba endSector len = some r ∧ such r

theorem mem_lbaRange {such : Region → Prop}
    (blind : ∀ name name' start n, such (.member name start n) →
      such (.member name' start n)) (name : String) (first stop : Nat) :
    (∃ r ∈ (lbaRange name first stop len).toList, such r) ↔
      ∃ name r, lbaRange name first stop len = some r ∧ such r := by
  constructor
  · rintro ⟨r, member, ok⟩
    exact ⟨name, r, Option.mem_toList.mp member, ok⟩
  · rintro ⟨name', r, found, ok⟩
    unfold lbaRange at found ⊢
    dsimp only at found ⊢
    split at found
    · cases found
    · rename_i some_of_it
      cases found
      rw [if_neg some_of_it]
      exact ⟨_, List.mem_singleton.mpr rfl, blind _ _ _ _ ok⟩

/-- What the walk gives comes of an entry that it comes to. -/
theorem exists_mem_partitions {such : Region → Prop}
    (blind : ∀ name name' start n, such (.member name start n) →
      such (.member name' start n)) {slots : List Slot} {emitted : Nat}
    (few : full = none ∨ emitted + slots.length ≤ maxParts) :
    (∃ r ∈ partitions label full len slots emitted, such r) ↔
      ∃ k, Comes slots k fun slot => slot.Gives len such := by
  induction slots generalizing emitted with
  | nil =>
      apply iff_of_false
      · rintro ⟨r, member, _⟩
        cases member
      · rintro ⟨k, ⟨slot, there, _⟩, _⟩
        cases there
  | cons slot slots ih =>
      have now : full = none ∨ emitted < maxParts := by
        rw [List.length_cons] at few
        exact few.imp_right fun few => by omega
      have same : full = none ∨ emitted + slots.length ≤ maxParts := by
        rw [List.length_cons] at few
        exact few.imp_right fun few => by omega
      have more : full = none ∨ emitted + 1 + slots.length ≤ maxParts := by
        rw [List.length_cons] at few
        exact few.imp_right fun few => by omega
      rw [partitions_cons now, exists_comes_cons]
      cases slot with
      | stop left =>
          have ends : (Slot.stop left).Ends := ⟨left, rfl⟩
          rw [or_iff_left fun both => both.1 ends]
          simp only [Slot.Gives, Option.mem_toList]
      | skip =>
          have goes_on : ¬ Slot.skip.Ends := nofun
          rw [and_iff_right goes_on, ← ih same]
          exact (or_iff_right id).symm
      | part first stop =>
          have goes_on : ¬ (Slot.part first stop).Ends := nofun
          rw [and_iff_right goes_on, ← ih more]
          simp only [List.mem_append, or_and_right, exists_or]
          rw [mem_lbaRange blind]
          rfl

/-- The part of the image that an extent has is `n` bytes from `start` on. -/
def Extent.At (e : Extent) (len start n : Nat) : Prop :=
  e.Meets len ∧ start = e.start ∧ n = e.finish len - e.start

def MemberAt (start n : Nat) (r : Region) : Prop := ∃ name, r = .member name start n

/-- What a slot makes of an entry that is in use or not. -/
def Slot.Reads (slot : Slot) (len : Nat) (used : Option Extent) : Prop :=
  match slot with
  | .stop left => ∀ r, left = some r → ∀ start n, ¬ MemberAt start n r
  | .skip => ∀ e, used = some e → ¬ e.Meets len
  | .part firstLba endSector => ∃ e, used = some e ∧ firstLba = e.first ∧
      (endSector = e.stop ∨ endSector = min e.stop u64Max)

theorem Slot.Reads.gives_iff {slot : Slot} {used : Option Extent}
    (small : len ≤ u64Max) (reads : slot.Reads len used) {start n : Nat} :
    slot.Gives len (MemberAt start n) ↔
      ¬ slot.Ends ∧ ∃ e, used = some e ∧ e.At len start n := by
  cases slot with
  | stop left =>
      apply iff_of_false
      · rintro ⟨r, here, member⟩
        exact reads r here start n member
      · exact fun both => both.1 ⟨left, rfl⟩
  | skip =>
      apply iff_of_false id
      rintro ⟨_, e, here, meets, _⟩
      exact reads e here meets
  | part first stop =>
      obtain ⟨e, rfl, rfl, same⟩ := reads
      have goes_on : ¬ (Slot.part e.first stop).Ends := nofun
      have region := fun name => lbaRange_eq small name e stop same
      rw [and_iff_right goes_on]
      constructor
      · rintro ⟨name, r, found, name', rfl⟩
        obtain ⟨meets, member⟩ := (region name _).mp found
        cases member
        exact ⟨e, rfl, meets, rfl, rfl⟩
      · rintro ⟨_, here, meets, rfl, rfl⟩
        cases here
        exact ⟨"", _, (region "" _).mpr ⟨meets, rfl⟩, "", rfl⟩

theorem member_partitions {slots : List Slot} {used : Nat → Option Extent}
    (small : len ≤ u64Max) (few : full = none ∨ slots.length ≤ maxParts)
    (reads : ∀ k (slot : Slot), slots[k]? = some slot → slot.Reads len (used k))
    {start n : Nat} :
    (∃ r ∈ partitions label full len slots 0, MemberAt start n r) ↔
      ∃ k e, k < slots.length ∧
        (∀ j ≤ k, ∀ slot, slots[j]? = some slot → ¬ slot.Ends) ∧
        used k = some e ∧ e.At len start n := by
  have blind : ∀ name name' start' n', MemberAt start n (.member name start' n') →
      MemberAt start n (.member name' start' n') := by
    rintro name name' start' n' ⟨_, same⟩
    cases same
    exact ⟨name', rfl⟩
  rw [exists_mem_partitions blind (by rwa [Nat.zero_add])]
  constructor
  · rintro ⟨k, ⟨slot, there, gives⟩, before⟩
    obtain ⟨goes_on, e, here, at_⟩ :=
      ((reads k slot there).gives_iff small).mp gives
    refine ⟨k, e, (List.getElem?_eq_some_iff.mp there).1, ?_, here, at_⟩
    intro j upto other other_there
    rcases Nat.lt_or_eq_of_le upto with less | rfl
    · exact before j less other other_there
    · cases there.symm.trans other_there
      exact goes_on
  · rintro ⟨k, e, inside, before, here, at_⟩
    have there : slots[k]? = some slots[k] := List.getElem?_eq_getElem inside
    refine ⟨k, ⟨_, there, ((reads k _ there).gives_iff small).mpr
      ⟨before k (Nat.le_refl k) _ there, e, here, at_⟩⟩, ?_⟩
    exact fun j less slot other => before j (Nat.le_of_lt less) slot other

end

/-! ## GUID tables -/

section

variable (image : Image)

theorem gptSlot_eq {k numEntries : Nat} (inside : k < numEntries)
    (sane : plausibleGptSize (leU32 image.head (sector + 84))) :
    let size := leU32 image.head (sector + 84)
    let table := window image.data
      (min (leU64 image.head (sector + 72) * sector) u64Max) (numEntries * size)
    gptSlot table size k =
      if image.len < image.gptPlace k + 56 then .stop (some truncatedGpt)
      else
        let entry := window image.data (image.gptPlace k) 56
        if (entry.take 16).all (· == 0) then .skip
        else .part (leU64 entry 32) (min (leU64 entry 40 + 1) u64Max) := by
  dsimp only
  have fits := image.fits
  have below : k * leU32 image.head (sector + 84) + 56 ≤
      numEntries * leU32 image.head (sector + 84) := by
    have step := Nat.mul_le_mul_right (leU32 image.head (sector + 84)) inside
    have enough := sane.1
    rw [Nat.succ_mul] at step
    omega
  rw [gptSlot, window_window _ below]
  rcases Nat.le_total (leU64 image.head (sector + 72) * sector) u64Max with
    near | far
  · rw [Nat.min_eq_left near, ← Image.gptPlace]
    by_cases cut : image.len < image.gptPlace k + 56
    · rw [if_pos cut, if_pos]
      rw [length_window]
      unfold Image.len at cut
      omega
    · rw [if_neg cut, if_neg]
      rw [length_window]
      unfold Image.len at cut
      omega
  · have cut : image.len < image.gptPlace k + 56 := by
      unfold Image.len Image.gptPlace
      omega
    rw [Nat.min_eq_right far, if_pos cut, if_pos]
    rw [length_window]
    omega

theorem used_gpt {k : Nat} (declared : k < leU32 image.head (sector + 80)) :
    image.used .gpt k =
      let entry := window image.data (image.gptPlace k) 56
      if (entry.take 16).all (· == 0) then none
      else some ⟨leU64 entry 32, leU64 entry 40 + 1⟩ := by
  unfold Image.used
  dsimp only
  generalize window image.data (image.gptPlace k) 56 = entry
  by_cases zero : (entry.take 16).all (· == 0) = true
  · rw [if_pos zero, if_neg]
    rintro ⟨_, b, member, other⟩
    exact other (eq_of_beq (List.all_eq_true.mp zero b member))
  · rw [if_neg zero, if_pos]
    refine ⟨declared, ?_⟩
    by_contra none_other
    apply zero
    rw [List.all_eq_true]
    intro b member
    by_contra other
    exact none_other ⟨b, member, fun same => other (beq_iff_eq.mpr same)⟩

theorem not_member {r : Region} (unwalked : r = tooManyGpt ∨ r = implausibleGpt ∨
    r = truncatedGpt ∨ r = tooManyApm) (start n : Nat) :
    ¬ MemberAt start n r := by
  rintro ⟨name, member⟩
  rcases unwalked with rfl | rfl | rfl | rfl <;> cases member

/-- The entries of a GUID table that are walked. -/
def Image.gptSlots (image : Image) : List Slot :=
  let numEntries := min (leU32 image.head (sector + 80)) maxParts
  let size := leU32 image.head (sector + 84)
  (List.range numEntries).map (gptSlot (window image.data
    (min (leU64 image.head (sector + 72) * sector) u64Max) (numEntries * size))
    size)

variable {image}

theorem gptSlots_getElem? {k : Nat} {slot : Slot}
    (sane : plausibleGptSize (leU32 image.head (sector + 84)))
    (there : image.gptSlots[k]? = some slot) :
    k < leU32 image.head (sector + 80) ∧ k < maxParts ∧
      (slot.Ends ↔ image.len < image.gptPlace k + 56) ∧
      slot.Reads image.len (image.used .gpt k) ∧
      (slot.Ends → slot = .stop (some truncatedGpt)) := by
  have inside := (List.getElem?_eq_some_iff.mp there).1
  unfold Image.gptSlots at there inside
  rw [List.length_map, List.length_range] at inside
  rw [List.getElem?_map, List.getElem?_range inside, Option.map_some,
    gptSlot_eq image inside sane] at there
  have declared := Nat.lt_of_lt_of_le inside (Nat.min_le_left _ _)
  have few := Nat.lt_of_lt_of_le inside (Nat.min_le_right _ _)
  refine ⟨declared, few, ?_⟩
  rw [used_gpt image declared]
  obtain rfl := Option.some.inj there
  dsimp only
  by_cases cut : image.len < image.gptPlace k + 56
  · rw [if_pos cut]
    refine ⟨iff_of_true ⟨_, rfl⟩ cut, ?_, fun _ => rfl⟩
    intro r here start n
    cases here
    exact not_member (.inr (.inr (.inl rfl))) start n
  · rw [if_neg cut]
    split
    · exact ⟨iff_of_false nofun cut, nofun, nofun⟩
    · exact ⟨iff_of_false nofun cut, ⟨_, rfl, rfl, .inr rfl⟩, nofun⟩

theorem gptOffsets_eq (image : Image) : gptOffsets image.data image.head =
    (if maxParts < leU32 image.head (sector + 80) then [tooManyGpt] else []) ++
      if plausibleGptSize (leU32 image.head (sector + 84)) then
        partitions "gpt" (some (some tooManyGpt)) image.len image.gptSlots 0
      else [implausibleGpt] := by
  unfold gptOffsets
  dsimp only
  split <;> rfl

theorem length_gptSlots (image : Image) : image.gptSlots.length =
    min (leU32 image.head (sector + 80)) maxParts := by
  rw [Image.gptSlots, List.length_map, List.length_range]

theorem declared_gpt {i : Nat} {e : Extent}
    (here : image.used .gpt i = some e) :
    i < leU32 image.head (sector + 80) := by
  unfold Image.used at here
  dsimp only at here
  split at here
  · rename_i both
    exact both.1
  · cases here

theorem member_gpt {start n : Nat} :
    (∃ r ∈ gptOffsets image.data image.head, MemberAt start n r) ↔
      ∃ k e, image.Walked .gpt k ∧ image.used .gpt k = some e ∧
        e.At image.len start n := by
  have beyond : ¬ ∃ r ∈ (if maxParts < leU32 image.head (sector + 80) then
      [tooManyGpt] else []), MemberAt start n r := by
    rintro ⟨r, member, at_⟩
    split at member
    · exact not_member (.inl (List.mem_singleton.mp member)) start n at_
    · cases member
  rw [gptOffsets_eq]
  simp only [List.mem_append, or_and_right, exists_or]
  rw [or_iff_right beyond]
  by_cases sane : plausibleGptSize (leU32 image.head (sector + 84))
  · have length := length_gptSlots image
    have small : image.len ≤ u64Max := image.fits
    rw [if_pos sane, member_partitions small
      (.inr (length ▸ Nat.min_le_right _ _))
      fun k slot there => (gptSlots_getElem? sane there).2.2.2.1]
    constructor
    · rintro ⟨k, e, inside, goes_on, here, at_⟩
      have there := List.getElem?_eq_getElem inside
      obtain ⟨_, few, ends, _⟩ := gptSlots_getElem? sane there
      have fits := (not_congr ends).mp (goes_on k (Nat.le_refl k) _ there)
      exact ⟨k, e, ⟨few, sane, Nat.not_lt.mp fits⟩, here, at_⟩
    · rintro ⟨k, e, ⟨few, _, fits⟩, here, at_⟩
      have declared := declared_gpt here
      refine ⟨k, e, length ▸ Nat.lt_min.mpr ⟨declared, few⟩, ?_, here, at_⟩
      intro j upto slot there ends
      have cut := (gptSlots_getElem? sane there).2.2.1.mp ends
      have earlier := Nat.mul_le_mul_right
        (leU32 image.head (sector + 84)) upto
      unfold Image.gptPlace at cut fits
      omega
  · rw [if_neg sane]
    apply iff_of_false
    · rintro ⟨r, member, at_⟩
      exact not_member (.inr (.inl (List.mem_singleton.mp member))) start n at_
    · rintro ⟨k, e, walked, _⟩
      exact sane walked.2.1

theorem covered_gpt {i : Nat} {e : Extent} (here : image.used .gpt i = some e)
    (not_walked : ¬ image.Walked .gpt i) :
    ∃ r ∈ gptOffsets image.data image.head, image.Covers .gpt i r := by
  have declared := declared_gpt here
  rw [gptOffsets_eq]
  by_cases sane : plausibleGptSize (leU32 image.head (sector + 84))
  · by_cases few : i < maxParts
    · have cut : image.len < image.gptPlace i + 56 :=
        Nat.not_le.mp fun fits => not_walked ⟨few, sane, fits⟩
      have some_cut : ∃ k, image.len < image.gptPlace k + 56 := ⟨i, cut⟩
      have least : Nat.find some_cut ≤ i := Nat.find_min' some_cut cut
      have inside : Nat.find some_cut < image.gptSlots.length := by
        rw [length_gptSlots]
        omega
      have there := List.getElem?_eq_getElem inside
      obtain ⟨_, _, ends, _, only⟩ := gptSlots_getElem? sane there
      have last := only (ends.mpr (Nat.find_spec some_cut))
      have blind : ∀ name name' start n, .member name start n = truncatedGpt →
          .member name' start n = truncatedGpt := nofun
      have at_most : 0 + image.gptSlots.length ≤ maxParts := by
        rw [Nat.zero_add, length_gptSlots]
        exact Nat.min_le_right _ _
      have comes : Comes image.gptSlots (Nat.find some_cut)
          fun slot => slot.Gives image.len (· = truncatedGpt) := by
        refine ⟨⟨_, there, ?_⟩, ?_⟩
        · rw [last]
          exact ⟨_, rfl, rfl⟩
        · intro j less slot earlier ends'
          obtain ⟨_, _, ends, _⟩ := gptSlots_getElem? sane earlier
          exact Nat.find_min some_cut less (ends.mp ends')
      obtain ⟨_, member, rfl⟩ := (@exists_mem_partitions "gpt"
        (some (some tooManyGpt)) image.len (· = truncatedGpt) blind _ 0
        (.inr at_most)).mpr ⟨_, comes⟩
      rw [if_pos sane]
      exact ⟨_, List.mem_append_right _ member, .inr (.inr ⟨rfl, cut⟩)⟩
    · refine ⟨tooManyGpt, ?_, .inl ⟨rfl, Nat.not_lt.mp few⟩⟩
      rw [if_pos (Nat.lt_of_le_of_lt (Nat.not_lt.mp few) declared)]
      exact .head _
  · refine ⟨implausibleGpt, ?_, .inr (.inl rfl)⟩
    rw [if_neg sane]
    exact List.mem_append_right _ (.head _)

end

/-! ## Apple maps -/

section

variable {image : Image}

def Image.apmSlots (image : Image) : List Slot :=
  (List.range (min (beU32 image.head (sector + 4)) maxParts)).map
    (apmSlot image.data)

theorem length_apmSlots (image : Image) : image.apmSlots.length =
    min (beU32 image.head (sector + 4)) maxParts := by
  rw [Image.apmSlots, List.length_map, List.length_range]

theorem declared_apm {i : Nat} {e : Extent}
    (here : image.used .apm i = some e) :
    i < beU32 image.head (sector + 4) := by
  unfold Image.used at here
  dsimp only at here
  split at here
  · rename_i all
    exact all.1
  · cases here

theorem apmSlots_getElem? {k : Nat} {slot : Slot}
    (there : image.apmSlots[k]? = some slot) :
    k < maxParts ∧
      (slot.Ends ↔ window image.data ((k + 1) * sector) 2 ≠ mapSig) ∧
      slot.Reads image.len (image.used .apm k) := by
  have inside := (List.getElem?_eq_some_iff.mp there).1
  unfold Image.apmSlots at there inside
  rw [List.length_map, List.length_range] at inside
  rw [List.getElem?_map, List.getElem?_range inside, Option.map_some] at there
  have declared := Nat.lt_of_lt_of_le inside (Nat.min_le_left _ _)
  have few := Nat.lt_of_lt_of_le inside (Nat.min_le_right _ _)
  have sig : window (window image.data ((k + 1) * sector) sector) 0 2 =
      window image.data ((k + 1) * sector) 2 := by
    have short : 0 + 2 ≤ sector := by decide
    rw [window_window image.data short, Nat.add_zero]
  refine ⟨few, ?_⟩
  obtain rfl := Option.some.inj there
  unfold apmSlot Image.used
  dsimp only
  rw [sig]
  by_cases gap : window image.data ((k + 1) * sector) 2 ≠ mapSig
  · rw [if_pos gap]
    exact ⟨iff_of_true ⟨_, rfl⟩ gap, nofun⟩
  · rw [if_neg gap]
    by_cases nothing :
        beU32 (window image.data ((k + 1) * sector) sector) 12 = 0
    · rw [if_pos nothing, if_neg fun all => all.2.2 nothing]
      exact ⟨iff_of_false nofun gap, nofun⟩
    · rw [if_neg nothing, if_pos ⟨declared, not_not.mp gap, nothing⟩]
      exact ⟨iff_of_false nofun gap, ⟨_, rfl, rfl, .inl rfl⟩⟩

theorem apmOffsets_eq (image : Image) : apmOffsets image.data image.head =
    (if maxParts < beU32 image.head (sector + 4) then [tooManyApm] else []) ++
      partitions "apm" (some none) image.len image.apmSlots 0 := rfl

theorem member_apm {start n : Nat} :
    (∃ r ∈ apmOffsets image.data image.head, MemberAt start n r) ↔
      ∃ k e, image.Walked .apm k ∧ image.used .apm k = some e ∧
        e.At image.len start n := by
  have beyond : ¬ ∃ r ∈ (if maxParts < beU32 image.head (sector + 4) then
      [tooManyApm] else []), MemberAt start n r := by
    rintro ⟨r, member, at_⟩
    split at member
    · exact not_member (.inr (.inr (.inr (List.mem_singleton.mp member))))
        start n at_
    · cases member
  have small : image.len ≤ u64Max := image.fits
  have length := length_apmSlots image
  rw [apmOffsets_eq]
  simp only [List.mem_append, or_and_right, exists_or]
  rw [or_iff_right beyond, member_partitions small
    (.inr (length ▸ Nat.min_le_right _ _))
    fun k slot there => (apmSlots_getElem? there).2.2]
  constructor
  · rintro ⟨k, e, inside, goes_on, here, at_⟩
    refine ⟨k, e, ⟨?_, ?_⟩, here, at_⟩
    · exact (apmSlots_getElem? (List.getElem?_eq_getElem inside)).1
    · intro j upto
      have there := List.getElem?_eq_getElem (Nat.lt_of_le_of_lt upto inside)
      have ends := (apmSlots_getElem? there).2.1
      exact not_not.mp ((not_congr ends).mp (goes_on j upto _ there))
  · rintro ⟨k, e, ⟨few, marked⟩, here, at_⟩
    refine ⟨k, e, length ▸ Nat.lt_min.mpr ⟨declared_apm here, few⟩, ?_, here,
      at_⟩
    intro j upto slot there ends
    exact (apmSlots_getElem? there).2.1.mp ends (marked j upto)

end

/-! ## MBR tables -/

section

variable {image : Image}

theorem mbrSlot_reads {k e : Nat} (there : mbrEntries[k]? = some e) :
    ¬ (mbrSlot image.head image.len e).Ends ∧
      (mbrSlot image.head image.len e).Reads image.len (image.used .mbr k) := by
  unfold mbrSlot Image.used
  rw [there]
  dsimp only
  by_cases skipped : byteAt image.head (e + 4) = 0x00 ∨
      byteAt image.head (e + 4) = 0xEE
  · rw [if_pos skipped, if_neg]
    · exact ⟨nofun, nofun⟩
    · rintro ⟨some_type, other, _⟩
      exact skipped.elim some_type other
  · rw [if_neg skipped]
    obtain ⟨some_type, other⟩ := not_or.mp skipped
    by_cases nothing : leU32 image.head (e + 12) = 0
    · rw [if_pos (.inl nothing), if_neg fun all => all.2.2 nothing]
      exact ⟨nofun, nofun⟩
    · rw [if_pos (⟨some_type, other, nothing⟩ : _ ∧ _ ∧ _)]
      by_cases beyond : image.len ≤ leU32 image.head (e + 8) * sector
      · rw [if_pos (.inr beyond)]
        refine ⟨nofun, ?_⟩
        rintro _ same meets
        cases same
        have inside : Extent.start ⟨leU32 image.head (e + 8),
            leU32 image.head (e + 8) + leU32 image.head (e + 12)⟩ <
          image.len := Nat.lt_of_lt_of_le meets (Nat.min_le_right _ _)
        exact Nat.not_lt.mpr beyond inside
      · rw [if_neg (not_or.mpr ⟨nothing, beyond⟩)]
        exact ⟨nofun, ⟨_, rfl, rfl, .inl rfl⟩⟩

theorem member_mbr {start n : Nat} :
    (∃ r ∈ mbrOffsets image.data image.head, MemberAt start n r) ↔
      ∃ k e, image.Walked .mbr k ∧ image.used .mbr k = some e ∧
        e.At image.len start n := by
  have slots : ∀ (k : Nat) (slot : Slot), (mbrEntries.map
      (mbrSlot image.head image.len))[k]? = some slot →
      ∃ e, mbrEntries[k]? = some e ∧ slot = mbrSlot image.head image.len e := by
    intro k slot there
    rw [List.getElem?_map, Option.map_eq_some_iff] at there
    obtain ⟨e, here, rfl⟩ := there
    exact ⟨e, here, rfl⟩
  have small : image.len ≤ u64Max := image.fits
  have regions : mbrOffsets image.data image.head = partitions "mbr" none
      image.len (mbrEntries.map (mbrSlot image.head image.len)) 0 := rfl
  have reads : ∀ (k : Nat) (slot : Slot), (mbrEntries.map
      (mbrSlot image.head image.len))[k]? = some slot →
      slot.Reads image.len (image.used .mbr k) := by
    intro k slot there
    obtain ⟨e, here, rfl⟩ := slots k slot there
    exact (mbrSlot_reads here).2
  rw [regions, member_partitions small (.inl rfl) reads]
  constructor
  · rintro ⟨k, e, _, _, here, at_⟩
    exact ⟨k, e, trivial, here, at_⟩
  · rintro ⟨k, e, _, here, at_⟩
    refine ⟨k, e, ?_, ?_, here, at_⟩
    · rw [List.length_map]
      by_contra late
      have missing := List.getElem?_eq_none (Nat.not_lt.mp late)
      unfold Image.used at here
      rw [missing] at here
      cases here
    · intro j _ slot there
      obtain ⟨e, here, rfl⟩ := slots j slot there
      exact (mbrSlot_reads here).1

end

/-! ## Images -/

section

variable {image : Image}

theorem streamOffsets_eq (image : Image) : streamOffsets image.data =
    match image.table with
    | some .gpt => gptOffsets image.data image.head
    | some .apm => apmOffsets image.data image.head
    | some .mbr => mbrOffsets image.data image.head
    | none => [] := by
  have head : window image.data 0 (2 * sector) = image.head := rfl
  have length : image.data.length = image.len := rfl
  unfold streamOffsets Image.table
  rw [head, length]
  dsimp only
  by_cases gpt : isGpt image.head
  · rw [if_pos gpt, if_pos gpt]
  · rw [if_neg gpt, if_neg gpt]
    by_cases apm : isApm image.head
    · rw [if_pos apm, if_pos apm]
    · rw [if_neg apm, if_neg apm]
      by_cases mbr : isMbrIn image.head image.len
      · rw [if_pos mbr, if_pos mbr]
      · rw [if_neg mbr, if_neg mbr]

theorem member_streamOffsets {start n : Nat} :
    (∃ r ∈ streamOffsets image.data, MemberAt start n r) ↔
      ∃ kind k e, image.table = some kind ∧ image.Walked kind k ∧
        image.used kind k = some e ∧ e.At image.len start n := by
  rw [streamOffsets_eq]
  cases table : image.table with
  | none =>
      apply iff_of_false
      · rintro ⟨r, member, _⟩
        cases member
      · rintro ⟨kind, k, e, same, _⟩
        cases same
  | some kind =>
      have own : (∃ kind' k e, some kind = some kind' ∧
          image.Walked kind' k ∧ image.used kind' k = some e ∧
          e.At image.len start n) ↔
          ∃ k e, image.Walked kind k ∧ image.used kind k = some e ∧
            e.At image.len start n := by
        constructor
        · rintro ⟨_, k, e, same, found⟩
          cases same
          exact ⟨k, e, found⟩
        · rintro ⟨k, e, found⟩
          exact ⟨kind, k, e, rfl, found⟩
      rw [own]
      cases kind with
      | gpt => exact member_gpt
      | apm => exact member_apm
      | mbr => exact member_mbr

/-- An entry in use of an Apple map that is behind the last one walked is
covered. -/
theorem covered_apm {i : Nat} {e : Extent} (here : image.used .apm i = some e)
    (behind : maxParts ≤ i) :
    ∃ r ∈ apmOffsets image.data image.head, image.Covers .apm i r := by
  refine ⟨tooManyApm, ?_, rfl, behind⟩
  rw [apmOffsets_eq, if_pos (Nat.lt_of_le_of_lt behind (declared_apm here))]
  exact .head _

/-- The regions of an image account for it exactly if no entry that is walked
starts at the first sector and an Apple map leaves nothing out at a gap. -/
theorem streamOffsets_iff (image : Image) :
    image.Accounts (streamOffsets image.data) ↔ image.Sound := by
  constructor
  · intro accounts
    refine ⟨?_, ?_⟩
    · intro kind table k e walked here meets at_first
      obtain ⟨r, member, name, rfl⟩ := member_streamOffsets.mpr
        ⟨kind, k, e, table, walked, here, meets, rfl, rfl⟩
      apply (accounts.inside _ _ _ member).2.2
      rw [Extent.start, at_first, Nat.zero_mul]
    · intro table i few e here meets
      rcases accounts.every .apm table i e here meets with
        ⟨name, member⟩ | ⟨r, _, _, many⟩
      · obtain ⟨kind, j, e', table', walked, here', meets', start, n⟩ :=
          member_streamOffsets.mp ⟨_, member, name, rfl⟩
        cases table.symm.trans table'
        refine ⟨j, e', walked, here', meets', start.symm, ?_⟩
        unfold Extent.Meets at meets meets'
        omega
      · exact absurd few (Nat.not_lt.mpr many)
  · intro sound
    refine ⟨?_, ?_⟩
    · intro name start n member
      obtain ⟨kind, k, e, table, walked, here, meets, rfl, rfl⟩ :=
        member_streamOffsets.mp ⟨_, member, name, rfl⟩
      have inside : e.finish image.len ≤ image.len := Nat.min_le_right _ _
      have later := sound.first kind table k e walked here meets
      have size : sector = 512 := rfl
      unfold Extent.Meets at meets
      unfold Extent.start at meets ⊢
      rw [size] at meets ⊢
      omega
    · intro kind table i e here meets
      have walked_gives : image.Walked kind i →
          ∃ name, .member name e.start (e.finish image.len - e.start) ∈
            streamOffsets image.data := by
        intro walked
        obtain ⟨r, member, name, rfl⟩ := member_streamOffsets.mpr
          ⟨kind, i, e, table, walked, here, meets, rfl, rfl⟩
        exact ⟨name, member⟩
      cases kind with
      | gpt =>
          by_cases walked : image.Walked .gpt i
          · exact .inl (walked_gives walked)
          · right
            rw [streamOffsets_eq, table]
            exact covered_gpt here walked
      | apm =>
          by_cases few : i < maxParts
          · obtain ⟨j, e', walked, here', meets', start, finish⟩ :=
              sound.gaps table i few e here meets
            obtain ⟨r, member, name, rfl⟩ := member_streamOffsets.mpr
              ⟨.apm, j, e', table, walked, here', meets', rfl, rfl⟩
            rw [start, finish] at member
            exact .inl ⟨name, member⟩
          · right
            rw [streamOffsets_eq, table]
            exact covered_apm here (Nat.not_lt.mp few)
      | mbr => exact .inl (walked_gives trivial)

end

/-- Two sectors with a partition from the second on, and another one of the
whole. -/
def mbrWhole : Bytes :=
  List.replicate 0x1BE 0 ++
    [0x80, 0, 0, 0, 0x0C, 0, 0, 0, 1, 0, 0, 0, 1, 0, 0, 0,
      0x00, 0, 0, 0, 0x0C, 0, 0, 0, 0, 0, 0, 0, 2, 0, 0, 0] ++
    List.replicate 32 0 ++ [0x55, 0xAA] ++ List.replicate 512 0

def mbrWholeImage : Image := ⟨mbrWhole, by decide⟩

/-- The second partition is the image again. -/
theorem streamOffsets_whole :
    .member "mbr-part-2" 0 1024 ∈ streamOffsets mbrWholeImage.data ∧
      mbrWholeImage.len = 1024 ∧
      ¬ mbrWholeImage.Accounts (streamOffsets mbrWholeImage.data) := by
  have member : Region.member "mbr-part-2" 0 1024 ∈
      streamOffsets mbrWholeImage.data := by
    decide
  refine ⟨member, by decide, ?_⟩
  intro accounts
  exact (accounts.inside _ _ _ member).2.2 rfl

end Exav.Unpack.Partition
