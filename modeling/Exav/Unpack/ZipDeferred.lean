import Exav.Unpack.Searches

/-!
# Sizes a ZIP gives after the data

A member written to a stream has no sizes in its header: they follow its data in
a descriptor, which is found by where it stands.  The directory of an archive
with something stapled in front is placed by its end record, looked for from the
end of the file back.
-/

namespace Exav.Unpack

open Exav.Fields Exav.Carve

/-! ## Reading a record -/

def eocdSig : Bytes := [0x50, 0x4B, 0x05, 0x06]

def cdfhSig : Bytes := [0x50, 0x4B, 0x01, 0x02]

/-- The number in the `w` bytes at `pos`, least significant byte first. -/
def leAt (w : Nat) (b : Bytes) (pos : Nat) : Option Nat :=
  if pos + w ≤ b.length then some (ofLe (window b pos w)) else none

theorem leAt_eq_some {w pos n : Nat} {b : Bytes} :
    leAt w b pos = some n ↔
      pos + w ≤ b.length ∧ ofLe (window b pos w) = n := by
  unfold leAt
  split
  next fits => simp [fits]
  next short => simp [short]

/-! ## A local header's sizes -/

/-- The body of the first extra field `id`.  A field takes four bytes at least,
so there are no more of them than bytes. -/
def extraFieldFrom (id : Nat) : (rounds : Nat) → Bytes → Option Bytes
  | 0, _ => none
  | rounds + 1, extra =>
      if 4 ≤ extra.length then
        let len := ofLe (window extra 2 2)
        if 4 + len ≤ extra.length then
          if ofLe (window extra 0 2) = id then some (window extra 4 len)
          else extraFieldFrom id rounds (extra.drop (4 + len))
        else none
      else none

def extraField (extra : Bytes) (id : Nat) : Option Bytes :=
  extraFieldFrom id extra.length extra

/-- A size the header gives as all ones is the next eight bytes of the field,
where there are eight. -/
def wideSize (size : Nat) (body : Bytes) : Nat × Bytes :=
  if size = 0xFFFFFFFF ∧ 8 ≤ body.length then
    (ofLe (window body 0 8), body.drop 8)
  else (size, body)

/-- A local header's compressed and uncompressed sizes, and whether it has a
Zip64 field. -/
def localSizes (h extra : Bytes) : Nat × Nat × Bool :=
  let usize := ofLe (window h 22 4)
  let comp := ofLe (window h 18 4)
  match extraField extra 0x0001 with
  | none => (comp, usize, false)
  | some body =>
      let first := wideSize usize body
      let second := wideSize comp first.2
      (second.1, first.1, true)

/-! ## The descriptor -/

def descriptorSig : Bytes := [0x50, 0x4B, 0x07, 0x08]

def recordSig : Bytes := [0x50, 0x4B]

/-- The records that can follow a member: a local header, the central directory,
its digital signature, the end record, the Zip64 end record. -/
def nextRecords : List Bytes := [[3, 4], [1, 2], [5, 5], [5, 6], [6, 6]]

/-- The sizes of a descriptor whose CRC-32 is at `crc`, if the member's data
ends at `stop`. -/
def sizesIfDataEndsAt (tail : Bytes) (width crc stop : Nat) :
    Option (Nat × Nat) :=
  match leAt width tail (crc + 4) with
  | none => none
  | some comp =>
      if comp = stop then
        (leAt width tail (crc + 4 + width)).map fun usize => (comp, usize)
      else none

def checkedSub (n less : Nat) : Option Nat :=
  if less ≤ n then some (n - less) else none

def sizeWidth (zip64 : Bool) : Nat := if zip64 then 8 else 4

def unsignedEnds (tail : Bytes) : List Nat :=
  (findIter recordSig tail).filter
    (fun p => nextRecords.contains (window tail (p + 2) 2)) ++ [tail.length]

/-- The sizes from the descriptor that ends the member whose data starts
`tail`. -/
def dataDescriptor (tail : Bytes) (zip64 : Bool) : Option (Nat × Nat) :=
  let width := sizeWidth zip64
  match (findIter descriptorSig tail).findSome? fun sig =>
      sizesIfDataEndsAt tail width (sig + 4) sig with
  | some sizes => some sizes
  | none =>
      ((unsignedEnds tail).filterMap (checkedSub · (4 + 2 * width))).findSome?
        fun crc => sizesIfDataEndsAt tail width crc crc

/-! ## The end record -/

def eocdLen : Nat := 22

def chunkLen : Nat := 65536

/-- Where `needle` starts among the first `n` bytes' offsets, the last first;
the next occurrence ends where this one starts or before. -/
def rfindFrom (needle hay : Bytes) : (held n : Nat) → List Nat
  | _, 0 => []
  | held + 1, n + 1 => rfindFrom needle hay held n
  | 0, n + 1 =>
      if needle.isPrefixOf (hay.drop n) then
        n :: rfindFrom needle hay (needle.length - 1) n
      else rfindFrom needle hay 0 n

def rfindIter (needle hay : Bytes) : List Nat :=
  rfindFrom needle hay 0 hay.length

/-- There is a whole end record at `place`, and its comment ends within the
file. -/
def endFits (file : Bytes) (place : Nat) : Bool :=
  place + eocdLen ≤ file.length &&
    place + eocdLen + ofLe (window (window file place eocdLen) 20 2) ≤
      file.length

/-- Chunks back from `stop`, each running three bytes into the next. -/
def findEndFrom (file : Bytes) (chunk reach : Nat) :
    (rounds stop : Nat) → Option Nat
  | 0, _ => none
  | rounds + 1, stop =>
      let start := stop - chunk
      match ((rfindIter eocdSig (window file start (stop - start))).map
          (start + ·)).find? (endFits file) with
      | some place => some place
      | none =>
          if start = 0 ∨ reach ≤ file.length - start then none
          else findEndFrom file chunk reach rounds (start + 3)

def findEnd (file : Bytes) (reach : Nat) : Option Nat :=
  findEndFrom file chunkLen reach (file.length + 1) file.length

/-- How an archive sits against its offsets. -/
inductive Shift where
  | prepended (n : Nat)
  | misplaced (field directory : Nat)
  deriving DecidableEq, Repr

def isLocalHeader (file : Bytes) (place : Nat) : Bool :=
  window file place 4 == [0x50, 0x4B, 0x03, 0x04]

/-- What the end record at `place` says. -/
def shiftAt (file : Bytes) (place : Nat) : Option Shift :=
  let record := window file place eocdLen
  let entries := ofLe (window record 10 2)
  let cdSize := ofLe (window record 12 4)
  let cdOff := ofLe (window record 16 4)
  if entries = 0 ∨ entries = 0xFFFF ∨ cdSize = 0xFFFFFFFF ∨
      cdOff = 0xFFFFFFFF then none
  else
    match checkedSub place cdSize with
    | none => none
    | some cd =>
        match checkedSub cd cdOff with
        | none => none
        | some n =>
            let head := window file cd 46
            if head.length < 46 ∨ ¬ cdfhSig.isPrefixOf head then none
            else
              let first := ofLe (window head 42 4)
              let shifted := min (first + n) (2 ^ 64 - 1)
              if 0 < n ∧ ¬ isLocalHeader file shifted ∧
                  isLocalHeader file first then
                if cd < 2 ^ 32 then some (.misplaced (place + 16) cd) else none
              else some (.prepended n)

def directoryShiftWithin (file : Bytes) (reach : Nat) : Option Shift :=
  (findEnd file reach).bind (shiftAt file)

/-! ## What is written -/

def descriptor (signed : Bool) (width crc comp usize : Nat) : Bytes :=
  (if signed then descriptorSig else []) ++
    (le 4 crc ++ (le width comp ++ le width usize))

def extraFields (fields : List (Nat × Bytes)) : Bytes :=
  (fields.map fun f => le 2 f.1 ++ (le 2 f.2.length ++ f.2)).flatten

def FieldsFit (fields : List (Nat × Bytes)) : Prop :=
  ∀ f ∈ fields, f.1 < 256 ^ 2 ∧ f.2.length < 256 ^ 2

/-! ## Reading what was written -/

theorem window_left (a b : Bytes) : window (a ++ b) 0 a.length = a := by
  rw [window, List.drop_zero, List.take_left]

theorem window_right (a b : Bytes) (off len : Nat) :
    window (a ++ b) (a.length + off) len = window b off len := by
  rw [window, window, ← List.drop_drop, List.drop_left]

theorem leAt_right (a b : Bytes) (w off : Nat) :
    leAt w (a ++ b) (a.length + off) = leAt w b off := by
  have fits : a.length + off + w ≤ (a ++ b).length ↔ off + w ≤ b.length := by
    rw [List.length_append]
    omega
  rw [leAt, leAt, window_right]
  exact if_congr fits rfl rfl

theorem leAt_le {w n : Nat} (fits : n < 256 ^ w) (rest : Bytes) :
    leAt w (le w n ++ rest) 0 = some n := by
  have here : window (le w n ++ rest) 0 w = le w n := by
    have whole := window_left (le w n) rest
    rwa [length_le] at whole
  rw [leAt, if_pos (by simp), here, ofLe_le fits]

/-- A number written after `before` is read where it stands. -/
theorem leAt_written {w n pos : Nat} (fits : n < 256 ^ w) (before rest : Bytes)
    (place : pos = before.length) :
    leAt w (before ++ (le w n ++ rest)) pos = some n := by
  rw [place, ← Nat.add_zero before.length, leAt_right, leAt_le fits]

theorem extraField_written {fields : List (Nat × Bytes)}
    (fit : FieldsFit fields) (id : Nat) :
    extraField (extraFields fields) id =
      (fields.find? (·.1 = id)).map Prod.snd := by
  have enough : ∀ rounds, (extraFields fields).length ≤ rounds →
      extraFieldFrom id rounds (extraFields fields) =
        (fields.find? (·.1 = id)).map Prod.snd := by
    induction fields with
    | nil => intro rounds _; cases rounds <;> rfl
    | cons f fields ih =>
        intro rounds enough
        obtain ⟨roomId, roomLen⟩ := fit f (List.mem_cons_self ..)
        have parts : extraFields (f :: fields) =
            le 2 f.1 ++ (le 2 f.2.length ++ (f.2 ++ extraFields fields)) := by
          simp [extraFields]
        have wholeLength : (extraFields (f :: fields)).length =
            4 + f.2.length + (extraFields fields).length := by
          rw [parts]
          simp
          omega
        obtain ⟨rounds, rfl⟩ : ∃ n, rounds = n + 1 := ⟨rounds - 1, by omega⟩
        have theId : window (extraFields (f :: fields)) 0 2 = le 2 f.1 := by
          have left := window_left (le 2 f.1)
            (le 2 f.2.length ++ (f.2 ++ extraFields fields))
          rwa [length_le, ← parts] at left
        have theLen : window (extraFields (f :: fields)) 2 2 =
            le 2 f.2.length := by
          have right := window_right (le 2 f.1)
            (le 2 f.2.length ++ (f.2 ++ extraFields fields)) 0 2
          have left := window_left (le 2 f.2.length)
            (f.2 ++ extraFields fields)
          rw [length_le, Nat.add_zero, ← parts] at right
          rw [length_le] at left
          rw [right, left]
        have others : (extraFields (f :: fields)).drop 4 =
            f.2 ++ extraFields fields := by
          rw [parts, ← List.append_assoc]
          exact List.drop_left' (by simp)
        have theBody : window (extraFields (f :: fields)) 4 f.2.length =
            f.2 := by
          rw [window, others, List.take_left]
        have theRest : (extraFields (f :: fields)).drop (4 + f.2.length) =
            extraFields fields := by
          rw [← List.drop_drop, others, List.drop_left]
        rw [extraFieldFrom, if_pos (by omega), theLen, theId, ofLe_le roomId,
          ofLe_le roomLen]
        simp only
        rw [theBody, theRest, if_pos (by omega)]
        by_cases same : f.1 = id
        · simp [same]
        · rw [if_neg same, ih (fun g member => fit g (.tail _ member)) rounds
            (by omega), List.find?_cons_of_neg (by simpa using same)]
  exact enough _ le_rfl

theorem localSizes_zip64 {fields : List (Nat × Bytes)} (fit : FieldsFit fields)
    (h : Bytes) :
    (localSizes h (extraFields fields)).2.2 = true ↔ ∃ f ∈ fields, f.1 = 1 := by
  rw [localSizes, extraField_written fit]
  cases found : fields.find? (·.1 = 1) with
  | none =>
      have absent : ∀ f ∈ fields, f.1 ≠ 1 := by simpa using found
      simp only [Option.map_none, Bool.false_eq_true, false_iff]
      rintro ⟨f, member, same⟩
      exact absent f member same
  | some f =>
      have same : f.1 = 1 := by simpa using List.find?_some found
      simp only [Option.map_some, true_iff]
      exact ⟨f, List.mem_of_find?_eq_some found, same⟩

theorem sizesIfDataEndsAt_written {width crc comp usize : Nat}
    (fitsComp : comp < 256 ^ width) (fitsUsize : usize < 256 ^ width)
    (before rest : Bytes) :
    sizesIfDataEndsAt
      (before ++ (le 4 crc ++ (le width comp ++ (le width usize ++ rest)))) width
      before.length comp = some (comp, usize) := by
  have first : leAt width
      (before ++ (le 4 crc ++ (le width comp ++ (le width usize ++ rest))))
      (before.length + 4) = some comp := by
    rw [← List.append_assoc]
    exact leAt_written fitsComp _ _ (by simp)
  have second : leAt width
      (before ++ (le 4 crc ++ (le width comp ++ (le width usize ++ rest))))
      (before.length + 4 + width) = some usize := by
    rw [← List.append_assoc, ← List.append_assoc]
    exact leAt_written fitsUsize _ _ (by simp [Nat.add_assoc])
  rw [sizesIfDataEndsAt, first]
  simp only [↓reduceIte]
  rw [second, Option.map_some]

/-! ## The first place that passes -/

theorem mem_findIter {needle hay : Bytes} (once : FirstOnce needle) {p : Nat} :
    p ∈ findIter needle hay ↔ needle <+: hay.drop p := by
  rw [findIter_eq once, Carve.mem_starts]
  constructor
  · rintro ⟨i, _, rfl, here⟩
    rw [Nat.zero_add]
    exact List.isPrefixOf_iff_prefix.mp here
  · intro here
    refine ⟨p, ?_, (Nat.zero_add p).symm, List.isPrefixOf_iff_prefix.mpr here⟩
    by_contra beyond
    rw [List.drop_eq_nil_of_le (Nat.not_lt.mp beyond)] at here
    obtain ⟨b, others, rfl, _⟩ := once
    cases List.prefix_nil.mp here

theorem ascending_findIter {needle : Bytes} (once : FirstOnce needle)
    (hay : Bytes) : (findIter needle hay).Pairwise (· < ·) := by
  rw [findIter_eq once]
  exact Carve.ascending_starts needle hay 0

theorem findSome?_of_first {β : Type} {xs : List Nat}
    (ascending : xs.Pairwise (· < ·)) {f : Nat → Option β} {x : Nat} {v : β}
    (member : x ∈ xs) (here : f x = some v)
    (earlier : ∀ y ∈ xs, y < x → f y = none) : xs.findSome? f = some v := by
  induction xs with
  | nil => cases member
  | cons y xs ih =>
      obtain ⟨least, ascending⟩ := List.pairwise_cons.mp ascending
      rcases List.mem_cons.mp member with rfl | later
      · rw [List.findSome?_cons_of_isSome (by rw [here]; rfl), here]
      · rw [List.findSome?_cons_of_isNone
          (by rw [earlier y (.head _) (least x later)]; rfl)]
        exact ih ascending later fun z among => earlier z (.tail _ among)

theorem descriptorSig_once : FirstOnce descriptorSig :=
  ⟨0x50, [0x4B, 0x07, 0x08], rfl, by decide⟩

theorem recordSig_once : FirstOnce recordSig := ⟨0x50, [0x4B], rfl, by decide⟩

theorem dataDescriptor_signed {tail : Bytes} {zip64 : Bool} {p : Nat}
    {sizes : Nat × Nat} (stands : descriptorSig <+: tail.drop p)
    (here : sizesIfDataEndsAt tail (sizeWidth zip64) (p + 4) p = some sizes)
    (earlier : ∀ q < p, descriptorSig <+: tail.drop q →
      sizesIfDataEndsAt tail (sizeWidth zip64) (q + 4) q = none) :
    dataDescriptor tail zip64 = some sizes := by
  have found : (findIter descriptorSig tail).findSome? (fun sig =>
      sizesIfDataEndsAt tail (sizeWidth zip64) (sig + 4) sig) = some sizes := by
    refine findSome?_of_first
      (f := fun sig => sizesIfDataEndsAt tail (sizeWidth zip64) (sig + 4) sig)
      (ascending_findIter descriptorSig_once tail)
      ((mem_findIter descriptorSig_once).mpr stands) here ?_
    intro q member before
    exact earlier q before ((mem_findIter descriptorSig_once).mp member)
  rw [dataDescriptor]
  simp only [found]

/-- A record that can follow a member starts at `p`. -/
def RecordAt (tail : Bytes) (p : Nat) : Prop :=
  ∃ mark ∈ nextRecords, recordSig ++ mark <+: tail.drop p

theorem marked_iff {tail : Bytes} {p : Nat} :
    recordSig <+: tail.drop p ∧
      nextRecords.contains (window tail (p + 2) 2) = true ↔
      RecordAt tail p := by
  rw [RecordAt, List.contains_iff_mem]
  have two : ∀ mark ∈ nextRecords, mark.length = 2 := by decide
  constructor
  · rintro ⟨⟨others, same⟩, member⟩
    refine ⟨_, member, ?_⟩
    have split : tail.drop (p + 2) = others := by
      rw [← List.drop_drop, ← same]
      rfl
    rw [← same, window, split]
    exact (List.prefix_append_right_inj _).mpr (List.take_prefix _ _)
  · rintro ⟨mark, member, others, same⟩
    refine ⟨⟨mark ++ others, by rw [← same, List.append_assoc]⟩, ?_⟩
    have split : tail.drop (p + 2) = mark ++ others := by
      rw [← List.drop_drop, ← same, List.append_assoc]
      rfl
    rw [window, split, List.take_left' (two mark member)]
    exact member

theorem mem_unsignedEnds {tail : Bytes} {p : Nat} :
    p ∈ unsignedEnds tail ↔ RecordAt tail p ∨ p = tail.length := by
  rw [unsignedEnds, List.mem_append, List.mem_filter,
    mem_findIter recordSig_once, marked_iff, List.mem_singleton]

theorem RecordAt.fits {tail : Bytes} {p : Nat} (stands : RecordAt tail p) :
    p < tail.length := by
  obtain ⟨mark, _, stands⟩ := stands
  by_contra beyond
  rw [List.drop_eq_nil_of_le (Nat.not_lt.mp beyond)] at stands
  cases List.prefix_nil.mp stands

theorem ascending_unsignedEnds (tail : Bytes) :
    (unsignedEnds tail).Pairwise (· < ·) := by
  apply List.pairwise_append.mpr
  refine ⟨(ascending_findIter recordSig_once tail).filter _,
    List.pairwise_singleton _ _, ?_⟩
  intro p member q last
  rw [List.mem_filter, mem_findIter recordSig_once, marked_iff] at member
  rw [List.mem_singleton.mp last]
  exact member.fits

theorem dataDescriptor_unsigned {tail : Bytes} {zip64 : Bool} {crc : Nat}
    {sizes : Nat × Nat}
    (ends : RecordAt tail (crc + (4 + 2 * sizeWidth zip64)) ∨
      crc + (4 + 2 * sizeWidth zip64) = tail.length)
    (here : sizesIfDataEndsAt tail (sizeWidth zip64) crc crc = some sizes)
    (signed : ∀ q, descriptorSig <+: tail.drop q →
      sizesIfDataEndsAt tail (sizeWidth zip64) (q + 4) q = none)
    (earlier : ∀ q < crc, RecordAt tail (q + (4 + 2 * sizeWidth zip64)) →
      sizesIfDataEndsAt tail (sizeWidth zip64) q q = none) :
    dataDescriptor tail zip64 = some sizes := by
  have nowhere : (findIter descriptorSig tail).findSome? (fun sig =>
      sizesIfDataEndsAt tail (sizeWidth zip64) (sig + 4) sig) = none := by
    apply List.findSome?_eq_none_iff.mpr
    intro q member
    exact signed q ((mem_findIter descriptorSig_once).mp member)
  have ascending : ((unsignedEnds tail).filterMap
      (checkedSub · (4 + 2 * sizeWidth zip64))).Pairwise (· < ·) := by
    apply List.pairwise_filterMap.mpr
    apply (ascending_unsignedEnds tail).imp
    intro p q less i left j right
    grind [checkedSub]
  rw [dataDescriptor]
  simp only [nowhere]
  refine findSome?_of_first
    (f := fun crc => sizesIfDataEndsAt tail (sizeWidth zip64) crc crc)
    ascending ?_ here ?_
  rotate_left
  · intro q member before
    obtain ⟨p, place, shifted⟩ := List.mem_filterMap.mp member
    have same : p = q + (4 + 2 * sizeWidth zip64) := by grind [checkedSub]
    rcases mem_unsignedEnds.mp place with record | last
    · exact earlier q before (same ▸ record)
    · have inside : crc + (4 + 2 * sizeWidth zip64) ≤ tail.length := by
        rcases ends with record | last
        · exact record.fits.le
        · exact last.le
      omega
  · apply List.mem_filterMap.mpr
    refine ⟨crc + (4 + 2 * sizeWidth zip64), mem_unsignedEnds.mpr ends, ?_⟩
    rw [checkedSub, if_pos (Nat.le_add_left ..), Nat.add_sub_cancel]

/-! ## A member of an archive further in -/

theorem leAt_narrow {narrow wide pos n m : Nat} {b : Bytes}
    (narrower : narrow ≤ wide) (low : leAt narrow b pos = some n)
    (whole : leAt wide b pos = some m) :
    ∃ high, m = n + 256 ^ narrow * high := by
  obtain ⟨fits, rfl⟩ := leAt_eq_some.mp low
  obtain ⟨_, rfl⟩ := leAt_eq_some.mp whole
  obtain ⟨more, rfl⟩ := Nat.exists_eq_add_of_le narrower
  rw [← window_append, ofLe_append, length_window_of_le fits]
  exact ⟨_, rfl⟩

/-- The descriptor at `crc` is that of a member whose data starts further in, so
the size it gives is not the distance from the start of `tail`. -/
def InnerDescriptor (tail : Bytes) (width crc stop : Nat) : Prop :=
  ∃ innerWidth start comp, 0 < start ∧ stop = start + comp ∧
    leAt innerWidth tail (crc + 4) = some comp ∧
    (width ≤ innerWidth ∨ innerWidth ≤ width ∧ start < 256 ^ innerWidth)

theorem InnerDescriptor.sizesIfDataEndsAt {tail : Bytes} {width crc stop : Nat}
    (inner : InnerDescriptor tail width crc stop) :
    sizesIfDataEndsAt tail width crc stop = none := by
  obtain ⟨innerWidth, start, comp, further, rfl, given, widths⟩ := inner
  rw [Unpack.sizesIfDataEndsAt]
  cases read : leAt width tail (crc + 4) with
  | none => rfl
  | some other =>
      have differs : other ≠ start + comp := by
        rcases widths with wider | ⟨narrower, small⟩
        · obtain ⟨high, whole⟩ := leAt_narrow wider read given
          omega
        · obtain ⟨high, whole⟩ := leAt_narrow narrower given read
          cases high with
          | zero => omega
          | succ high =>
              rw [Nat.mul_succ] at whole
              omega
      simp only [if_neg differs]

/-- A member of an archive that stands anywhere after the start: a header, its
content, and its own descriptor. -/
theorem innerDescriptor_written {inner64 outer64 signed : Bool}
    {crc usize stop : Nat} {header content : Bytes} (before others : Bytes)
    (headed : header ≠ []) (fits : content.length < 256 ^ sizeWidth inner64)
    (ends : (before ++ header ++ content).length ≤ stop)
    (near : outer64 = true → inner64 = false →
      stop < 2 ^ 32 + content.length) :
    InnerDescriptor (before ++ header ++ content ++
        (descriptor signed (sizeWidth inner64) crc content.length usize ++ others))
      (sizeWidth outer64)
      ((before ++ header ++ content).length + if signed then 4 else 0) stop := by
  have positive : 0 < header.length := List.length_pos_iff.mpr headed
  rw [List.length_append, List.length_append] at ends
  refine ⟨sizeWidth inner64, stop - content.length, content.length, by omega,
    by omega, ?_, ?_⟩
  · have parts : before ++ header ++ content ++
        (descriptor signed (sizeWidth inner64) crc content.length usize ++
          others) =
        (before ++ header ++ content ++
          (if signed then descriptorSig else []) ++ le 4 crc) ++
        (le (sizeWidth inner64) content.length ++
          (le (sizeWidth inner64) usize ++ others)) := by
      simp [descriptor]
    rw [parts]
    apply leAt_written fits
    cases signed <;> simp [descriptorSig] <;> omega
  · cases inner64 <;> cases outer64 <;> simp [sizeWidth] at near ⊢
    omega

/-! ## The last end record -/

theorem FirstOnce.apart {needle hay : Bytes} (once : FirstOnce needle)
    {p q : Nat} (left : needle <+: hay.drop p) (right : needle <+: hay.drop q)
    (order : p < q) : p + needle.length ≤ q := by
  by_contra overlap
  obtain ⟨b, others, rfl, absent⟩ := once
  obtain ⟨afterLeft, left⟩ := left
  obtain ⟨afterRight, right⟩ := right
  have here : hay[q]? = some b := by
    have first := congrArg (·[0]?) right
    simpa using first.symm
  have inside : q - p - 1 < others.length := by
    rw [List.length_cons] at overlap
    omega
  have again : hay[q]? = some others[q - p - 1] := by
    have further := congrArg (·[q - p]?) left
    simp only [List.getElem?_drop] at further
    rw [Nat.add_sub_cancel' order.le,
      List.getElem?_append_left (by rw [List.length_cons]; omega),
      show q - p = (q - p - 1) + 1 by omega, List.getElem?_cons_succ,
      List.getElem?_eq_getElem inside] at further
    exact further.symm
  rw [here] at again
  exact absent (Option.some.inj again ▸ List.getElem_mem inside)

theorem mem_rfindFrom {needle hay : Bytes} (once : FirstOnce needle)
    {p n held : Nat}
    (clear : ∀ q, n ≤ q + held → q < n → ¬ needle <+: hay.drop q) :
    p ∈ rfindFrom needle hay held n ↔ p < n ∧ needle <+: hay.drop p := by
  induction n generalizing held with
  | zero => cases held <;> simp [rfindFrom]
  | succ n ih =>
      have split : p < n + 1 ↔ p = n ∨ p < n := by omega
      cases held with
      | succ held =>
          have absent := clear n (by omega) (by omega)
          have elsewhere : ¬ (p = n ∧ needle <+: hay.drop p) :=
            fun both => absent (both.1 ▸ both.2)
          rw [rfindFrom, ih fun q high low => clear q (by omega) (by omega),
            split, or_and_right]
          exact (or_iff_right elsewhere).symm
      | zero =>
          rw [rfindFrom, split, or_and_right]
          split_ifs with here
          · have here := List.isPrefixOf_iff_prefix.mp here
            have rest : ∀ q, n ≤ q + (needle.length - 1) → q < n →
                ¬ needle <+: hay.drop q := by
              intro q high low there
              have far := FirstOnce.apart once there here low
              obtain ⟨b, others, rfl, _⟩ := once
              rw [List.length_cons] at far high
              omega
            rw [List.mem_cons, ih rest]
            exact or_congr_left ⟨fun same => ⟨same, same ▸ here⟩, And.left⟩
          · have elsewhere : ¬ (p = n ∧ needle <+: hay.drop p) := fun both =>
              here (List.isPrefixOf_iff_prefix.mpr (both.1 ▸ both.2))
            rw [ih fun q high low => by omega]
            exact (or_iff_right elsewhere).symm

theorem mem_rfindIter {needle hay : Bytes} (once : FirstOnce needle) {p : Nat} :
    p ∈ rfindIter needle hay ↔ needle <+: hay.drop p := by
  rw [rfindIter, mem_rfindFrom once fun q high low => by omega]
  refine ⟨And.right, fun here => ⟨?_, here⟩⟩
  by_contra beyond
  rw [List.drop_eq_nil_of_le (Nat.not_lt.mp beyond)] at here
  obtain ⟨b, others, rfl, _⟩ := once
  cases List.prefix_nil.mp here

theorem lt_of_mem_rfindFrom {needle hay : Bytes} {p n held : Nat}
    (member : p ∈ rfindFrom needle hay held n) : p < n := by
  induction n generalizing held with
  | zero => cases held <;> cases member
  | succ n ih =>
      cases held with
      | succ held => exact Nat.lt_succ_of_lt (ih member)
      | zero =>
          rw [rfindFrom] at member
          split_ifs at member
          · rcases List.mem_cons.mp member with rfl | later
            · exact Nat.lt_succ_self _
            · exact Nat.lt_succ_of_lt (ih later)
          · exact Nat.lt_succ_of_lt (ih member)

theorem descending_rfindFrom (needle hay : Bytes) (held n : Nat) :
    (rfindFrom needle hay held n).Pairwise (· > ·) := by
  induction n generalizing held with
  | zero => cases held <;> exact List.Pairwise.nil
  | succ n ih =>
      cases held with
      | succ held => exact ih held
      | zero =>
          rw [rfindFrom]
          split_ifs
          · exact List.pairwise_cons.mpr
              ⟨fun p later => lt_of_mem_rfindFrom later, ih _⟩
          · exact ih 0

theorem find?_last {xs : List Nat} (descending : xs.Pairwise (· > ·))
    {ok : Nat → Bool} {p q : Nat} (found : xs.find? ok = some p)
    (member : q ∈ xs) (passes : ok q = true) : q ≤ p := by
  induction xs with
  | nil => cases member
  | cons x xs ih =>
      obtain ⟨greatest, descending⟩ := List.pairwise_cons.mp descending
      by_cases here : ok x = true
      · rw [List.find?_cons_of_pos here] at found
        obtain rfl := Option.some.inj found
        rcases List.mem_cons.mp member with rfl | later
        · exact le_rfl
        · exact (greatest q later).le
      · rw [List.find?_cons_of_neg here] at found
        rcases List.mem_cons.mp member with rfl | later
        · exact absurd passes here
        · exact ih descending found later

theorem eocdSig_once : FirstOnce eocdSig :=
  ⟨0x50, [0x4B, 0x05, 0x06], rfl, by decide⟩

/-- An end record whose comment ends within the file starts at `place`. -/
def EndRecord (file : Bytes) (place : Nat) : Prop :=
  eocdSig <+: file.drop place ∧ endFits file place = true

/-- What a search back from the end is to find: the last end record, or, looking
at the last `reach` bytes, that none starts there. -/
def LastEnd (file : Bytes) (reach : Nat) : Option Nat → Prop
  | some place =>
      EndRecord file place ∧ ∀ other, EndRecord file other → other ≤ place
  | none => ∀ place, EndRecord file place → place + reach < file.length

theorem mem_chunk {file : Bytes} {start stop place : Nat} :
    place ∈ (rfindIter eocdSig (window file start (stop - start))).map
        (start + ·) ↔
      start ≤ place ∧ place + 4 ≤ stop ∧ eocdSig <+: file.drop place := by
  rw [List.mem_map]
  have inChunk : ∀ p, p ∈ rfindIter eocdSig (window file start (stop - start)) ↔
      eocdSig <+: file.drop (start + p) ∧ start + p + 4 ≤ stop := by
    intro p
    rw [mem_rfindIter eocdSig_once, window, List.drop_take, List.drop_drop,
      List.prefix_take_iff]
    have length : eocdSig.length = 4 := rfl
    rw [length]
    exact and_congr_right fun _ => by omega
  constructor
  · rintro ⟨p, member, rfl⟩
    obtain ⟨stands, inside⟩ := (inChunk p).mp member
    exact ⟨Nat.le_add_right .., inside, stands⟩
  · rintro ⟨further, inside, stands⟩
    obtain ⟨p, rfl⟩ := Nat.exists_eq_add_of_le further
    exact ⟨p, (inChunk p).mpr ⟨stands, inside⟩, rfl⟩

/-- No end record is lost at the seam of two chunks: one that starts before the
chunk has its signature within the three bytes the next runs into it. -/
theorem findEndFrom_last {file : Bytes} {chunk reach : Nat}
    (overlapped : 3 < chunk) (rounds stop : Nat)
    (enough : stop < rounds) (inside : stop ≤ file.length)
    (left : ∀ place, EndRecord file place → place + 4 ≤ stop) :
    LastEnd file reach (findEndFrom file chunk reach rounds stop) := by
  induction rounds generalizing stop with
  | zero => omega
  | succ rounds ih =>
      rw [findEndFrom]
      have descending : ((rfindIter eocdSig (window file (stop - chunk)
          (stop - (stop - chunk)))).map
            (stop - chunk + ·)).Pairwise (· > ·) := by
        apply List.pairwise_map.mpr
        apply (descending_rfindFrom _ _ _ _).imp
        exact fun less => Nat.add_lt_add_left less _
      cases found : ((rfindIter eocdSig (window file (stop - chunk)
          (stop - (stop - chunk)))).map (stop - chunk + ·)).find?
            (endFits file) with
      | some place =>
          have record : EndRecord file place :=
            ⟨(mem_chunk.mp (List.mem_of_find?_eq_some found)).2.2,
              List.find?_some found⟩
          simp only
          refine ⟨record, fun other another => ?_⟩
          by_cases further : stop - chunk ≤ other
          · exact find?_last descending found
              (mem_chunk.mpr ⟨further, left other another, another.1⟩) another.2
          · have within := (mem_chunk.mp (List.mem_of_find?_eq_some found)).1
            omega
      | none =>
          have before : ∀ place, EndRecord file place →
              place < stop - chunk := by
            intro place record
            by_contra further
            have member := mem_chunk.mpr
              ⟨Nat.not_lt.mp further, left place record, record.1⟩
            exact List.find?_eq_none.mp found place member record.2
          simp only
          split_ifs with finished
          · intro place record
            have earlier := before place record
            omega
          · apply ih
            · omega
            · omega
            · intro place record
              have earlier := before place record
              omega

theorem findEnd_last {file : Bytes} {reach : Nat} {place : Option Nat}
    (found : findEnd file reach = place) : LastEnd file reach place := by
  have inside : ∀ place, EndRecord file place → place + 4 ≤ file.length := by
    intro place record
    have fits := record.2
    rw [endFits, Bool.and_eq_true, decide_eq_true_iff] at fits
    have whole : place + 22 ≤ file.length := fits.1
    omega
  have overlapped : 3 < chunkLen := by decide
  rw [findEnd] at found
  generalize chunkLen = chunk at overlapped found
  rw [← found]
  exact findEndFrom_last overlapped (file.length + 1) file.length
    (Nat.lt_succ_self _) le_rfl inside

/-! ## Deferred sizes are recovered -/

/-- A place passes the descriptor test without being the descriptor of a member
further in. -/
def Chance (tail : Bytes) (width crc stop : Nat) : Prop :=
  (sizesIfDataEndsAt tail width crc stop).isSome = true ∧
    ¬ InnerDescriptor tail width crc stop

theorem eq_none_of_not_chance {tail : Bytes} {width crc stop : Nat}
    (none : ¬ Chance tail width crc stop) :
    sizesIfDataEndsAt tail width crc stop = .none := by
  by_cases inner : InnerDescriptor tail width crc stop
  · exact inner.sizesIfDataEndsAt
  · exact Option.not_isSome_iff_eq_none.mp fun passes => none ⟨passes, inner⟩

/-- No place that is looked at before the descriptor passes by chance: a signed
one starts nowhere before a signed descriptor and nowhere at all for an unsigned
one, before which no unsigned one ends at a record either. -/
def NoChance (tail : Bytes) (width size : Nat) : (signed : Bool) → Prop
  | true => ∀ p < size, descriptorSig <+: tail.drop p →
      ¬ Chance tail width (p + 4) p
  | false =>
      (∀ p, descriptorSig <+: tail.drop p → ¬ Chance tail width (p + 4) p) ∧
        ∀ crc < size, RecordAt tail (crc + (4 + 2 * width)) →
          ¬ Chance tail width crc crc

def Followed (rest : Bytes) : Prop := rest = [] ∨ RecordAt rest 0

theorem dataDescriptor_written {zip64 signed : Bool} {crc usize : Nat}
    {data rest : Bytes} (fitsData : data.length < 256 ^ sizeWidth zip64)
    (fitsUsize : usize < 256 ^ sizeWidth zip64)
    (followed : signed = false → Followed rest)
    (noChance : NoChance
      (data ++ (descriptor signed (sizeWidth zip64) crc data.length usize ++ rest))
      (sizeWidth zip64) data.length signed) :
    dataDescriptor
      (data ++ (descriptor signed (sizeWidth zip64) crc data.length usize ++ rest))
      zip64 = some (data.length, usize) := by
  cases signed with
  | true =>
      have parts : data ++ (descriptor true (sizeWidth zip64) crc data.length
          usize ++ rest) = data ++ descriptorSig ++ (le 4 crc ++
            (le (sizeWidth zip64) data.length ++
              (le (sizeWidth zip64) usize ++ rest))) := by
        simp [descriptor]
      have here := @sizesIfDataEndsAt_written _ crc _ _ fitsData fitsUsize
        (data ++ descriptorSig) rest
      rw [← parts, List.length_append] at here
      refine dataDescriptor_signed (p := data.length) ?_ here ?_
      · rw [List.drop_left]
        simp [descriptor]
      · intro q before stands
        exact eq_none_of_not_chance (noChance q before stands)
  | false =>
      have parts : data ++ (descriptor false (sizeWidth zip64) crc data.length
          usize ++ rest) = data ++ (le 4 crc ++ (le (sizeWidth zip64) data.length ++
            (le (sizeWidth zip64) usize ++ rest))) := by
        simp [descriptor]
      have here := @sizesIfDataEndsAt_written _ crc _ _ fitsData fitsUsize
        data rest
      rw [← parts] at here
      have wide : (descriptor false (sizeWidth zip64) crc data.length
          usize).length = 4 + 2 * sizeWidth zip64 := by
        simp [descriptor]
        omega
      have others : (data ++ (descriptor false (sizeWidth zip64) crc data.length
          usize ++ rest)).drop (data.length + (4 + 2 * sizeWidth zip64)) =
          rest := by
        rw [← List.drop_drop, List.drop_left]
        exact List.drop_left' wide
      refine @dataDescriptor_unsigned _ _ data.length _ ?_ here ?_ ?_
      · rcases followed rfl with rfl | record
        · right
          rw [List.length_append, List.length_append, wide]
          rfl
        · left
          rw [RecordAt, others]
          exact record
      · intro q stands
        exact eq_none_of_not_chance (noChance.1 q stands)
      · intro q before record
        exact eq_none_of_not_chance (noChance.2 q before record)

/-- The sizes of a member written with its descriptor after the data are found,
in the width its Zip64 field says.  The descriptor of a member of an archive
further in is no chance match, however it is followed.  The directory is placed
by the last end record whose comment fits. -/
theorem deferredSizes_recovered :
    (∀ (h : Bytes) (fields : List (Nat × Bytes)), FieldsFit fields →
      ((localSizes h (extraFields fields)).2.2 = true ↔
        ∃ f ∈ fields, f.1 = 1)) ∧
    (∀ (zip64 signed : Bool) (crc usize : Nat) (data rest : Bytes),
      data.length < 256 ^ sizeWidth zip64 → usize < 256 ^ sizeWidth zip64 →
      (signed = false → Followed rest) →
      NoChance
        (data ++
          (descriptor signed (sizeWidth zip64) crc data.length usize ++ rest))
        (sizeWidth zip64) data.length signed →
      dataDescriptor
        (data ++
          (descriptor signed (sizeWidth zip64) crc data.length usize ++ rest))
        zip64 = some (data.length, usize)) ∧
    (∀ (inner64 outer64 signed : Bool) (crc usize stop : Nat)
      (before header content others : Bytes), header ≠ [] →
      content.length < 256 ^ sizeWidth inner64 →
      (before ++ header ++ content).length ≤ stop →
      (outer64 = true → inner64 = false → stop < 2 ^ 32 + content.length) →
      InnerDescriptor
        (before ++ header ++ content ++
          (descriptor signed (sizeWidth inner64) crc content.length usize ++
            others))
        (sizeWidth outer64)
        ((before ++ header ++ content).length + if signed then 4 else 0) stop) ∧
    (∀ (tail : Bytes) (width crc stop : Nat),
      InnerDescriptor tail width crc stop →
      sizesIfDataEndsAt tail width crc stop = none) ∧
    (∀ (file : Bytes) (reach : Nat) (place : Option Nat),
      findEnd file reach = place → LastEnd file reach place ∧
        directoryShiftWithin file reach = place.bind (shiftAt file)) := by
  refine ⟨?_, ?_, ?_, ?_, ?_⟩
  · intro h fields fit
    exact localSizes_zip64 fit h
  · intro zip64 signed crc usize data rest
    exact dataDescriptor_written
  · intro inner64 outer64 signed crc usize stop before header content others
    exact innerDescriptor_written before others
  · intro tail width crc stop
    exact InnerDescriptor.sizesIfDataEndsAt
  · intro file reach place found
    refine ⟨findEnd_last found, ?_⟩
    rw [directoryShiftWithin, found]

def holdsMember : Bytes :=
  [0x50, 0x4B, 0x03, 0x04] ++ [7] ++ (descriptor true 4 0 1 1 ++ [])

theorem noChance_holdsMember :
    NoChance (holdsMember ++ (descriptor false (sizeWidth false) 9
      holdsMember.length holdsMember.length ++ [])) (sizeWidth false)
      holdsMember.length false := by
  constructor
  · intro p stands
    have only : ∀ p < 33, descriptorSig <+: (holdsMember ++ (descriptor false
        (sizeWidth false) 9 holdsMember.length holdsMember.length ++ [])).drop
          p → p = 5 := by
      decide
    have inside : p < 33 := by
      by_contra beyond
      rw [List.drop_eq_nil_of_le (Nat.not_lt.mp beyond)] at stands
      cases List.prefix_nil.mp stands
    obtain rfl := only p inside stands
    intro chance
    exact chance.2 ⟨4, 4, 1, by decide, rfl, by decide,
      Or.inl (by decide)⟩
  · intro crc before record
    have absent : ∀ crc < holdsMember.length, ¬ ∃ mark ∈ nextRecords,
        recordSig ++ mark <+: (holdsMember ++ (descriptor false (sizeWidth false)
          9 holdsMember.length holdsMember.length ++ [])).drop
            (crc + (4 + 2 * sizeWidth false)) := by
      decide
    exact absurd record (absent crc before)

theorem deferredSizes_recovered_inner :
    dataDescriptor (holdsMember ++ (descriptor false (sizeWidth false) 9
      holdsMember.length holdsMember.length ++ [])) false =
        some (holdsMember.length, holdsMember.length) :=
  deferredSizes_recovered.2.1 false false 9 holdsMember.length holdsMember []
    (by decide) (by decide) (fun _ => Or.inl rfl) noChance_holdsMember

end Exav.Unpack
