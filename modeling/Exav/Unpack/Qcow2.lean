import Exav.Lib.Fields
import Exav.Unpack.VDiskFlat
import Mathlib.Data.Nat.Bitwise

/-!
# QCOW2 images

A guest offset is an index into a table of tables, one into the table that names,
and an offset in the cluster.  The second table's entry says where the cluster is,
or that it is compressed, or that it reads as zeros.
-/

namespace Exav.Unpack.Qcow

open Virtual Fields

def l2Compressed : Nat := 2 ^ 62

/-- Where a cluster is, of an entry that is not compressed. -/
def offsetMask : Nat := 0x00fffffffffffe00

def l2Zero : Nat := 1

/-- A number, the most significant byte first. -/
def ofBe (b : Bytes) : Nat :=
  ofLe b.reverse

/-- A number of a header, which is zero past its end. -/
def be (width : Nat) (d : Bytes) (off : Nat) : Nat :=
  if off + width ≤ d.length then ofBe (window d off width) else 0

def be64 (src : Image) (off : Nat) : Option Nat :=
  (Virtual.bytesAt src off 8).map ofBe

def lowMask (bits : Nat) : Nat :=
  if bits < 64 then 2 ^ bits - 1 else Virtual.u64Max

inductive Codec where
  | deflate
  | zstd

/-- What decoding some bytes gave. -/
structure Salvaged where
  data : Bytes
  undecoded : Bool
  cutShort : Bool

/-- Whether bytes that are there were left undecoded. -/
def Salvaged.partWay (s : Salvaged) (restAbsent : Bool) : Bool :=
  s.undecoded || (s.cutShort && !restAbsent)

structure Qcow2 where
  src : Image
  l1 : Nat
  cluster : Nat
  l2Entries : Nat
  size : Nat
  fileLen : Nat
  codec : Codec
  csizeShift : Nat
  csizeMask : Nat
  sizeFits : size ≤ Virtual.u64Max

def Qcow2.map (q : Qcow2) (idx : Nat) : Map :=
  let i := idx / q.l2Entries
  let j := idx % q.l2Entries
  match be64 q.src (saturatingAdd q.l1 (saturatingMul i 8)) with
  | none => .zero
  | some l1e =>
      let l2 := l1e &&& offsetMask
      if l2 = 0 then .zero
      else if l2 + q.cluster > q.fileLen then .zero
      else
        match be64 q.src (saturatingAdd l2 (saturatingMul j 8)) with
        | none => .zero
        | some e =>
            -- Bit 0 of a compressed entry is part of its offset.
            if e = 0 ∨ (e &&& l2Compressed = 0 ∧ e &&& l2Zero ≠ 0) then .zero
            else if e &&& l2Compressed ≠ 0 then
              let start := e &&& lowMask q.csizeShift
              let sectors := saturatingAdd (e >>> q.csizeShift &&& q.csizeMask) 1
              let len := saturatingMul sectors 512 - (start &&& 511)
              if start ≥ q.fileLen then .zero
              else
                let avail := q.fileLen - start
                .packed start (min len avail) (avail < len)
            else
              let host := e &&& offsetMask
              let n := min q.cluster (q.size - saturatingMul idx q.cluster)
              if host = 0 ∨ host + n > q.fileLen then .zero else .plain host

/-- The decoders are given: what they make of some bytes, up to so many. -/
def Qcow2.unpack (salvage : Codec → Bytes → Nat → Salvaged) (q : Qcow2)
    (_idx start stored : Nat) (cut : Bool) (out : Nat) : Unpacked :=
  match Virtual.bytesAt q.src start stored with
  | none => ⟨[], true⟩
  | some raw =>
      let s := salvage q.codec raw out
      ⟨s.data, s.partWay cut⟩

def Qcow2.layout (salvage : Codec → Bytes → Nat → Salvaged) (q : Qcow2) :
    Layout where
  size := q.size
  unit := q.cluster
  map := q.map
  unpack := q.unpack salvage
  sizeFits := q.sizeFits

def Qcow2.reports (q : Qcow2) (health : Health) : List (Nat × String) :=
  match health.undecodable with
  | 0 => []
  | n => [(min (saturatingMul n q.cluster) q.size,
      "QCOW2 compressed clusters that could not be decompressed")]

/-- What a header makes of an image. -/
inductive Opened where
  | no
  | disk (q : Qcow2)
  | unread (size : Nat) (encrypted : Bool) (why : String)

/-- `QFI\xfb` and a version the format has. -/
def isQcow2 (d : Bytes) : Bool :=
  72 < d.length && d.take 4 = [0x51, 0x46, 0x49, 0xFB] &&
    (be 4 d 4 = 2 || be 4 d 4 = 3)

/-- How the clusters of a version 3 image are compressed, or why it is not read. -/
def codecOf (head : Bytes) : Except String Codec :=
  let incompat := be 8 head 72
  if be 4 head 4 ≠ 3 then .ok .deflate
  else if incompat &&& 2 ^ 2 ≠ 0 then
    .error
      "QCOW2 with an external data file: the disk is held in a file not in this one"
  else if incompat &&& 2 ^ 4 ≠ 0 then
    .error "QCOW2 with extended L2 entries, which exav does not read"
  else if 2 ^ 5 ≤ incompat then
    .error "QCOW2 needing a feature exav does not know"
  else if incompat &&& 2 ^ 3 ≠ 0 then
    -- Past the header's declared length the field is not there.
    match if be 4 head 100 > 104 then (head.drop 104).head? else some (0 : UInt8) with
    | some 0 => .ok .deflate
    | some 1 => .ok .zstd
    | _ => .error "QCOW2 with a compression type exav does not read"
  else .ok .deflate

def openDisk (src : Image) : Opened :=
  let head := src.window 0 112
  let virtualSize := be 8 head 24
  let bits := be 4 head 20
  let l1Size := be 4 head 36
  let l1 := be 8 head 40
  if ¬isQcow2 head then .no
  else if be 4 head 16 > 0 then
    .unread virtualSize false
      "QCOW2 with a backing file: the disk is a delta against an image not in this file"
  else if be 4 head 32 ≠ 0 then .unread virtualSize true "encrypted QCOW2 image"
  else
    match codecOf head with
    | .error why => .unread virtualSize false why
    | .ok codec =>
        if bits < 9 ∨ 21 < bits ∨ l1Size = 0 then
          .unread virtualSize false "implausible QCOW2 geometry"
        else if l1 + saturatingMul l1Size 8 > src.data.length then
          .unread virtualSize false "QCOW2 L1 table lies outside the image"
        else
          let cluster := 2 ^ bits
          let covered := saturatingMul (saturatingMul l1Size (cluster / 8)) cluster
          .disk
            { src := src, l1 := l1, cluster := cluster, l2Entries := cluster / 8,
              size := min virtualSize covered, fileLen := src.data.length,
              codec := codec, csizeShift := 62 - (bits - 8),
              csizeMask := lowMask (bits - 8),
              sizeFits := (Nat.min_le_right _ _).trans (Nat.min_le_left _ _) }

/-! ## The disk the tables describe -/

def field (e low bits : Nat) : Nat :=
  e / 2 ^ low % 2 ^ bits

/-- The offset of an entry that is not compressed, bits 9 to 55. -/
def hostOffset (e : Nat) : Nat :=
  field e 9 47 * 2 ^ 9

/-- What a cluster of the disk is: zeros, bytes of the file, or what a run of
sectors decodes to. -/
inductive Cluster where
  | zeros
  | plain (host : Nat)
  | run (start len : Nat)

section

variable (data : Bytes)

def clusterBits : Nat := be 4 (window data 0 112) 20

def entries : Nat := 2 ^ (clusterBits data - 3)

def diskSize : Nat :=
  min (be 8 (window data 0 112) 24)
    (be 4 (window data 0 112) 36 * entries data * 2 ^ clusterBits data)

def room (idx : Nat) : Nat :=
  min (2 ^ clusterBits data) (diskSize data - idx * 2 ^ clusterBits data)

def clusterOf (idx : Nat) : Cluster :=
  let bits := clusterBits data
  let l1 := be 8 (window data 0 112) 40
  let table := hostOffset (be 8 data (l1 + idx / entries data * 8))
  let e := be 8 data (table + idx % entries data * 8)
  if table = 0 ∨ data.length < table + 2 ^ bits then .zeros
  else if e.testBit 62 then
    let start := e % 2 ^ (70 - bits)
    if data.length ≤ start then .zeros
    else .run start ((field e (70 - bits) (bits - 8) + 1) * 512 - start % 512)
  else
    let host := hostOffset e
    if e.testBit 0 ∨ host = 0 ∨ data.length < host + room data idx then .zeros
    else .plain host

variable (salvage : Bytes → Nat → Salvaged)

/-- What a run of sectors decodes to, as far as the file has them. -/
def decoded (idx start len : Nat) : Salvaged :=
  salvage (window data start len) (room data idx)

def diskByte (pos : Nat) : UInt8 :=
  let idx := pos / 2 ^ clusterBits data
  let into := pos % 2 ^ clusterBits data
  match clusterOf data idx with
  | .zeros => 0
  | .plain host => byteAt data (host + into)
  | .run start len => byteAt (decoded data salvage idx start len).data into

/-- A cluster of whose bytes in the file some were left undecoded: the decoder
found damage, or ran out of a run that the file has all of. -/
def Damaged (idx : Nat) : Prop :=
  idx * 2 ^ clusterBits data < diskSize data ∧
  ∃ start len, clusterOf data idx = .run start len ∧
    (decoded data salvage idx start len).partWay (data.length < start + len) = true

end

/-! ## Opening an image -/

def image (data : Bytes) (fits : data.length ≤ Virtual.u64Max) : Image where
  data := data
  window := window data
  readError := fun _ _ => none
  faithful := fun _ _ => List.prefix_rfl
  lenFits := fits

variable {data : Bytes} {fits : data.length ≤ Virtual.u64Max}

theorem bytesAt_image {off len : Nat} (inside : off + len ≤ data.length) :
    Virtual.bytesAt (image data fits) off len = some (window data off len) := by
  have whole : (window data off len).length = len := by
    rw [length_window]
    omega
  have within : ¬(image data fits).data.length < off + len := Nat.not_lt.mpr inside
  rw [Virtual.bytesAt, if_neg within]
  exact if_pos whole

theorem be64_image {off : Nat} (inside : off + 8 ≤ data.length) :
    be64 (image data fits) off = some (be 8 data off) := by
  rw [be64, bytesAt_image inside, Option.map_some, be, if_pos inside]

theorem be_lt (width : Nat) (d : Bytes) (off : Nat) : be width d off < 256 ^ width := by
  rw [be]
  split_ifs with inside
  · have bound := ofLe_lt (window d off width).reverse
    rwa [List.length_reverse, length_window,
      Nat.min_eq_left (show width ≤ d.length - off by omega)] at bound
  · exact Nat.pow_pos (by decide)

structure Opens (data : Bytes) (fits : data.length ≤ Virtual.u64Max) (q : Qcow2) : Prop where
  bits : 9 ≤ clusterBits data ∧ clusterBits data ≤ 21
  table : be 8 (window data 0 112) 40 + be 4 (window data 0 112) 36 * 8 ≤ data.length
  src : q.src = image data fits
  l1 : q.l1 = be 8 (window data 0 112) 40
  cluster : q.cluster = 2 ^ clusterBits data
  l2Entries : q.l2Entries = entries data
  size : q.size = diskSize data
  fileLen : q.fileLen = data.length
  csizeShift : q.csizeShift = 70 - clusterBits data
  csizeMask : q.csizeMask = 2 ^ (clusterBits data - 8) - 1

theorem covered_eq {v a b c : Nat} (most : v ≤ Virtual.u64Max) (some_ : 0 < c) :
    min v (saturatingMul (saturatingMul a b) c) = min v (a * b * c) := by
  rw [saturatingMul, saturatingMul]
  rcases Nat.le_total (a * b) Virtual.u64Max with small | large
  · rw [Nat.min_eq_right small]
    omega
  · rw [Nat.min_eq_left large]
    have whole := Nat.le_mul_of_pos_right Virtual.u64Max some_
    have more := Nat.le_mul_of_pos_right (a * b) some_
    omega

theorem opens {q : Qcow2} (opened : openDisk (image data fits) = .disk q) :
    Opens data fits q := by
  unfold openDisk at opened
  dsimp only at opened
  cases coded : codecOf ((image data fits).window 0 112) with
  | error why =>
      rw [coded] at opened
      dsimp only at opened
      split_ifs at opened
  | ok codec =>
      rw [coded] at opened
      dsimp only at opened
      split_ifs at opened with _ _ _ geometry outside
      cases opened
      change ¬(clusterBits data < 9 ∨ 21 < clusterBits data ∨ _) at geometry
      change ¬be 8 (window data 0 112) 40 +
        saturatingMul (be 4 (window data 0 112) 36) 8 > data.length at outside
      have few := be_lt 4 (window data 0 112) 36
      have most := be_lt 8 (window data 0 112) 24
      have bits : 9 ≤ clusterBits data ∧ clusterBits data ≤ 21 := by omega
      have eighth : 2 ^ clusterBits data / 8 = entries data := by
        rw [entries, ← Nat.pow_div (by omega) Nat.two_pos]
      refine ⟨bits, ?_, rfl, rfl, rfl, eighth, ?_, rfl, ?_, ?_⟩
      · rw [saturatingMul, Virtual.u64Max] at outside
        omega
      · change min (be 8 (window data 0 112) 24) (saturatingMul
          (saturatingMul (be 4 (window data 0 112) 36) (2 ^ clusterBits data / 8))
          (2 ^ clusterBits data)) = _
        rw [eighth]
        exact covered_eq (by rw [Virtual.u64Max]; omega) (Nat.two_pow_pos _)
      · change 62 - (clusterBits data - 8) = 70 - clusterBits data
        omega
      · exact if_pos (show clusterBits data - 8 < 64 by omega)

/-! ## The map of a disk -/

theorem and_offsetMask (e : Nat) : e &&& offsetMask = hostOffset e := by
  have mask : offsetMask = (2 ^ 47 - 1) * 2 ^ 9 := by decide
  refine Nat.eq_of_testBit_eq fun i => ?_
  rw [mask, hostOffset, field, Nat.testBit_and, Nat.testBit_mul_two_pow, Nat.testBit_mul_two_pow,
    Nat.testBit_two_pow_sub_one, Nat.testBit_mod_two_pow, Nat.testBit_div_two_pow]
  by_cases low : 9 ≤ i
  · rw [show i - 9 + 9 = i by omega]
    simp only [low, decide_true, Bool.true_and, Bool.and_comm]
  · simp only [low, decide_false, Bool.false_and, Bool.and_false]

theorem and_two_pow_eq (e i : Nat) : (e &&& 2 ^ i = 0) ↔ e.testBit i = false := by
  rw [Nat.land_comm, Nat.two_pow_and, Nat.mul_eq_zero]
  cases e.testBit i <;> simp

def Cluster.map (data : Bytes) : Cluster → Map
  | .zeros => .zero
  | .plain host => .plain host
  | .run start len =>
      .packed start (min len (data.length - start)) (data.length - start < len)

variable {q : Qcow2}

theorem Opens.map (of : Opens data fits q) {idx : Nat}
    (inside : idx * 2 ^ clusterBits data < diskSize data) :
    q.map idx = (clusterOf data idx).map data := by
  obtain ⟨low, high⟩ := of.bits
  have cap : Virtual.u64Max = 2 ^ 64 - 1 := rfl
  have size : 2 ^ clusterBits data = entries data * 8 := by
    rw [entries, show 8 = 2 ^ 3 from rfl, ← Nat.pow_add]
    congr 1
    omega
  have some_ : 0 < entries data := Nat.two_pow_pos _
  have row : idx / entries data < be 4 (window data 0 112) 36 := by
    rw [Nat.div_lt_iff_lt_mul some_]
    refine Nat.lt_of_mul_lt_mul_right (a := 2 ^ clusterBits data)
      (inside.trans_le (Nat.min_le_right _ _))
  have column := Nat.mod_lt idx some_
  have table := of.table
  have first : be64 q.src (saturatingAdd q.l1
      (saturatingMul (idx / q.l2Entries) 8)) =
      some (be 8 data (be 8 (window data 0 112) 40 + idx / entries data * 8)) := by
    rw [of.src, of.l1, of.l2Entries, saturatingMul, saturatingAdd,
      Nat.min_eq_right (by omega), Nat.min_eq_right (by omega)]
    exact be64_image (by omega)
  rw [Qcow2.map]
  dsimp only
  rw [first, clusterOf]
  simp only [and_offsetMask, of.cluster, of.fileLen]
  generalize hostOffset (be 8 data (be 8 (window data 0 112) 40 +
    idx / entries data * 8)) = l2
  by_cases none_ : l2 = 0
  · rw [if_pos none_, if_pos (Or.inl none_), Cluster.map]
  · by_cases short : data.length < l2 + 2 ^ clusterBits data
    · rw [if_neg none_, if_pos short, if_pos (Or.inr short), Cluster.map]
    · have second : be64 q.src (saturatingAdd l2 (saturatingMul (idx % q.l2Entries) 8)) =
          some (be 8 data (l2 + idx % entries data * 8)) := by
        rw [of.src, of.l2Entries, saturatingMul, saturatingAdd,
          Nat.min_eq_right (by omega), Nat.min_eq_right (by omega)]
        exact be64_image (by omega)
      rw [if_neg none_, if_neg short, if_neg (not_or.mpr ⟨none_, short⟩), second]
      dsimp only
      generalize be 8 data (l2 + idx % entries data * 8) = e
      have flag : e &&& l2Zero = 0 ↔ e.testBit 0 = false := and_two_pow_eq e 0
      have kind : e &&& l2Compressed = 0 ↔ e.testBit 62 = false := and_two_pow_eq e 62
      cases packed : e.testBit 62 with
      | false =>
          have plain := kind.mpr packed
          have left : min (2 ^ clusterBits data)
              (q.size - saturatingMul idx (2 ^ clusterBits data)) = room data idx := by
            have whole : diskSize data ≤ Virtual.u64Max := of.size ▸ q.sizeFits
            rw [of.size, saturatingMul, Nat.min_eq_right
              (show idx * 2 ^ clusterBits data ≤ Virtual.u64Max by omega), room]
          rw [if_neg (not_not_intro plain), left]
          cases zero : e.testBit 0 with
          | true =>
              rw [if_pos (Or.inr ⟨plain, fun same => by
                cases zero.symm.trans (flag.mp same)⟩)]
              rfl
          | false =>
              by_cases same : e = 0
              · rw [if_pos (Or.inl same), same]
                rfl
              · rw [if_neg (not_or.mpr ⟨same, fun both => both.2 (flag.mpr zero)⟩)]
                simp only [Bool.false_eq_true, if_false, false_or, gt_iff_lt]
                split_ifs <;> rfl
      | true =>
          have some_flag : e &&& l2Compressed ≠ 0 := fun none_ => by
            cases packed.symm.trans (kind.mp none_)
          have some_bits : e ≠ 0 := fun none_ => some_flag (by rw [none_, Nat.zero_and])
          rw [if_neg (not_or.mpr ⟨some_bits, fun both => some_flag both.1⟩),
            if_pos some_flag]
          have start : e &&& lowMask q.csizeShift = e % 2 ^ (70 - clusterBits data) := by
            rw [of.csizeShift, lowMask, if_pos (by omega),
              Nat.and_two_pow_sub_one_eq_mod]
          have sectors : e >>> q.csizeShift &&& q.csizeMask =
              field e (70 - clusterBits data) (clusterBits data - 8) := by
            rw [of.csizeShift, of.csizeMask, Nat.and_two_pow_sub_one_eq_mod,
              Nat.shiftRight_eq_div_pow, field]
          have few : field e (70 - clusterBits data) (clusterBits data - 8) < 2 ^ 13 :=
            (Nat.mod_lt _ (Nat.two_pow_pos _)).trans_le
              (Nat.pow_le_pow_right Nat.two_pos (by omega))
          have len : saturatingMul (saturatingAdd (field e (70 - clusterBits data)
              (clusterBits data - 8)) 1) 512 =
              (field e (70 - clusterBits data) (clusterBits data - 8) + 1) * 512 := by
            rw [saturatingAdd, Nat.min_eq_right (by omega), saturatingMul,
              Nat.min_eq_right (by omega)]
          have part : ∀ n, n &&& 511 = n % 512 := fun n =>
            Nat.and_two_pow_sub_one_eq_mod n 9
          simp only [start, sectors, len, part, ge_iff_le, if_true]
          split_ifs <;> rfl

variable {salvage : Codec → Bytes → Nat → Salvaged}

theorem Opens.unit (of : Opens data fits q) :
    max (q.layout salvage).unit 1 = 2 ^ clusterBits data := by
  have some_ : 0 < 2 ^ clusterBits data := Nat.two_pow_pos _
  change max q.cluster 1 = _
  rw [of.cluster]
  omega

theorem Opens.unitLen (of : Opens data fits q) {idx : Nat}
    (inside : idx * 2 ^ clusterBits data < diskSize data) :
    Virtual.unitLen (q.layout salvage) idx = room data idx := by
  have whole : diskSize data ≤ Virtual.u64Max := of.size ▸ q.sizeFits
  have unit : max (q.layout salvage).unit 1 = 2 ^ clusterBits data := of.unit
  rw [Virtual.unitLen, unit]
  change min _ (q.size - _) = _
  rw [of.size, saturatingMul, Nat.min_eq_right
    (show idx * 2 ^ clusterBits data ≤ Virtual.u64Max by omega), room]

theorem run_start {idx start len : Nat} (run : clusterOf data idx = .run start len) :
    start < data.length := by
  rw [clusterOf] at run
  dsimp only at run
  split_ifs at run with _ _ past
  cases run
  exact Nat.not_le.mp past

theorem Opens.unpack (of : Opens data fits q) {idx start len : Nat}
    (run : clusterOf data idx = .run start len) :
    q.unpack salvage idx start (min len (data.length - start))
        (data.length - start < len) (room data idx) =
      ⟨(decoded data (salvage q.codec) idx start len).data,
        (decoded data (salvage q.codec) idx start len).partWay
          (data.length < start + len)⟩ := by
  have inside := run_start run
  have clipped : window data start (min len (data.length - start)) =
      window data start len := by
    rw [window, window, ← List.length_drop, ← List.take_take, List.take_length]
  have cut : (data.length - start < len) ↔ data.length < start + len := by omega
  rw [Qcow2.unpack, of.src, bytesAt_image (by omega), clipped]
  simp only [cut, decoded]

theorem Opens.flat (of : Opens data fits q) {pos : Nat} (on_disk : pos < diskSize data) :
    Virtual.flat (image data fits) (q.layout salvage) pos =
      diskByte data (salvage q.codec) pos := by
  have inside : pos / 2 ^ clusterBits data * 2 ^ clusterBits data < diskSize data :=
    (Nat.div_mul_le_self _ _).trans_lt on_disk
  have place : (q.layout salvage).map (pos / 2 ^ clusterBits data) =
      (clusterOf data (pos / 2 ^ clusterBits data)).map data := of.map inside
  rw [Virtual.flat, of.unit, unitByte, of.unitLen inside, diskByte, place]
  cases run : clusterOf data (pos / 2 ^ clusterBits data) with
  | zeros => rfl
  | plain host => rfl
  | run start len =>
      change byteAt (q.unpack salvage (pos / 2 ^ clusterBits data) _ _ _ _).data _ = _
      rw [of.unpack run]

/-! ## Reading an image -/

theorem Opens.faulty (of : Opens data fits q) {idx : Nat}
    (damaged : Damaged data (salvage q.codec) idx) : Faulty (q.layout salvage) idx := by
  obtain ⟨inside, start, len, run, bad⟩ := damaged
  refine ⟨start, _, _, (of.map inside).trans (by rw [run, Cluster.map]), ?_⟩
  rw [of.unitLen inside]
  change (q.unpack salvage idx _ _ _ _).damaged = true
  rw [of.unpack run, bad]

/-- Whatever was read before, a read gives the bytes the tables describe, and the
report counts every damaged cluster that reads gave bytes of. -/
theorem disk_asTables (opened : openDisk (image data fits) = .disk q)
    (allowance : Nat) (ops : List Op) :
    let src := image data fits
    let layout := q.layout salvage
    let d := run src layout (new allowance) ops
    (∀ len bytes d', read src layout d len = (.ok bytes, d') →
      bytes.length ≤ len ∧ d'.pos = d.pos + bytes.length ∧
      (bytes = [] → len = 0 ∨ diskSize data ≤ d.pos) ∧
      ∀ i < bytes.length,
        bytes[i]? = some (diskByte data (salvage q.codec) (d.pos + i))) ∧
    ∀ units : List Nat, units.Nodup → units ≠ [] →
      (∀ idx ∈ units, idx ∈ reached src layout (new allowance) ops ∧
        Damaged data (salvage q.codec) idx) →
      ∃ n, min units.length Virtual.u64Max ≤ n ∧ q.reports d.health =
        [(min (saturatingMul n q.cluster) q.size,
          "QCOW2 compressed clusters that could not be decompressed")] := by
  have of := opens opened
  have sound := (@run_keeps (image data fits) _ _ _
    (sound_new (q.layout salvage) allowance) ops).1
  have size : (q.layout salvage).size = diskSize data := of.size
  refine ⟨fun len bytes d' ran => ?_, fun units once some_ met => ?_⟩
  · obtain ⟨short, passed, ended, within, right⟩ :=
      (reads_of_sound sound len).given bytes d' ran
    rw [size] at ended within
    refine ⟨short, passed, ended, fun i inside => ?_⟩
    have on_disk := within (List.ne_nil_of_length_pos (by omega))
    rw [right i inside, of.flat (by omega)]
  · have none_yet : Tells (q.layout salvage) ∅ (new allowance) :=
      ⟨fun _ _ none_ => (by cases none_), Nat.zero_le _⟩
    obtain ⟨told, -, tells, counted⟩ := @Tells.run (image data fits) _ _ _ _ none_yet
      (sound_new (q.layout salvage) allowance) ops
    have all : units.toFinset ⊆ told := fun idx member =>
      have here := met idx (List.mem_toFinset.mp member)
      counted idx here.1 (of.faulty here.2)
    have card := Finset.card_le_card all
    rw [List.toFinset_card_of_nodup once] at card
    have positive := List.length_pos_iff.mpr some_
    have told_ := tells.counted
    have cap : Virtual.u64Max = 2 ^ 64 - 1 := rfl
    refine ⟨_, le_trans (by omega) told_, ?_⟩
    rw [Qcow2.reports]
    split
    · omega
    · rfl

/-- An image of one cluster of 512 bytes, which is a run at the end of the file:
a stored block, of which 19 bytes of 30 are there.  The flags of its entry give
the run one sector, which the file has, or two. -/
def sample (flags : UInt8) : Bytes :=
  [0x51, 0x46, 0x49, 0xFB, 0, 0, 0, 2] ++ List.replicate 15 0 ++ [9] ++
  [0, 0, 0, 0, 0, 0, 2, 0] ++ List.replicate 7 0 ++ [1] ++
  [0, 0, 0, 0, 0, 0, 0, 112] ++ List.replicate 64 0 ++
  [0, 0, 0, 0, 0, 0, 2, 0] ++ List.replicate 392 0 ++
  [flags, 0, 0, 0, 0, 0, 0x03, 0xE8] ++ List.replicate 480 0 ++
  [1, 30, 0, 225, 255] ++ List.replicate 19 0x61

def storedBlock (_ : Codec) (raw : Bytes) (most : Nat) : Salvaged :=
  let block := (raw.drop 5).take (byteAt raw 1).toNat
  ⟨block.take most, byteAt raw 0 ≠ 1, block.length < (byteAt raw 1).toNat⟩

theorem sample_fits (flags : UInt8) :
    (sample flags).length ≤ Virtual.u64Max := by
  simp only [sample, List.length_append, List.length_cons, List.length_nil,
    List.length_replicate]
  decide

theorem sample_reads {flags : UInt8} (short : flags = 0x40 ∨ flags = 0x60) :
    ∃ q d', openDisk (image (sample flags) (sample_fits flags)) = .disk q ∧
      read (image (sample flags) (sample_fits flags)) (q.layout storedBlock)
        (new 512) 1 = (.ok [0x61], d') := by
  have found : (match openDisk (image (sample flags) (sample_fits flags)) with
      | .disk q =>
          decide ((read (image (sample flags) (sample_fits flags))
            (q.layout storedBlock) (new 512) 1).1.toOption = some [0x61])
      | _ => false) = true := by
    rcases short with rfl | rfl
    · decide +kernel
    · decide +kernel
  split at found
  · rename_i q opened
    refine ⟨q, _, opened, Prod.ext ?_ rfl⟩
    have given := of_decide_eq_true found
    generalize (read (image (sample flags) (sample_fits flags))
      (q.layout storedBlock) (new 512) 1).1 = result at given ⊢
    cases result with
    | error e => cases given
    | ok bytes => exact congrArg Except.ok (Option.some.inj given)
  · cases found

theorem sample_run {flags : UInt8} {test : Nat → Nat → Bool}
    (found : (match clusterOf (sample flags) 0 with
      | .run start n => test start n
      | _ => false) = true) :
    ∃ start n, clusterOf (sample flags) 0 = .run start n ∧
      test start n = true := by
  split at found
  · exact ⟨_, _, ‹_›, found⟩
  · cases found

theorem sample_damaged (codec : Codec) :
    Damaged (sample 0x40) (storedBlock codec) 0 := by
  refine ⟨by decide +kernel, sample_run ?_⟩
  cases codec <;> decide +kernel

/-- The first byte of the disk is the first of the run, and once it was read the
run, of which eleven bytes are missing, is reported. -/
theorem disk_asTables_one :
    ∃ q, openDisk (image (sample 0x40) (sample_fits 0x40)) = .disk q ∧
      diskByte (sample 0x40) (storedBlock q.codec) 0 = 0x61 ∧
      ∃ n, 1 ≤ n ∧
        q.reports (run (image (sample 0x40) (sample_fits 0x40))
          (q.layout storedBlock) (new 512) [.read 1]).health =
        [(min (saturatingMul n q.cluster) q.size,
          "QCOW2 compressed clusters that could not be decompressed")] := by
  obtain ⟨q, d', opened, ran⟩ := sample_reads (.inl rfl)
  have right :=
    ((disk_asTables opened 512 []).1 1 _ d' ran).2.2.2 0 Nat.one_pos
  have reached_ : 0 ∈ reached (image (sample 0x40) (sample_fits 0x40))
      (q.layout storedBlock) (new 512) [.read 1] := by
    rw [reached, ran]
    exact List.mem_cons.mpr (.inl (Nat.zero_div _).symm)
  have counted := (disk_asTables opened 512 [.read 1]).2 [0]
    (List.nodup_singleton 0) (List.cons_ne_nil 0 [])
    (List.forall_mem_singleton.mpr ⟨reached_, sample_damaged q.codec⟩)
  exact ⟨q, opened, (Option.some.inj right).symm, counted⟩

/-- A run that is not wholly in the file is not read as zeros. -/
theorem run_cut_read :
    ¬∀ (data : Bytes) (fits : data.length ≤ Virtual.u64Max) (q : Qcow2)
      (salvage : Codec → Bytes → Nat → Salvaged) (allowance len : Nat)
      (bytes : Bytes) (d' : VDisk), openDisk (image data fits) = .disk q →
      (∃ start n, clusterOf data 0 = .run start n ∧ data.length < start + n) →
      read (image data fits) (q.layout salvage) (new allowance) len =
        (.ok bytes, d') → ∀ b ∈ bytes, b = 0 := by
  intro zeros
  obtain ⟨q, d', opened, ran⟩ := sample_reads (.inr rfl)
  obtain ⟨start, n, found, cut⟩ := @sample_run 0x60
    (fun start n => decide ((sample 0x60).length < start + n))
    (by decide +kernel)
  cases zeros _ _ q _ _ _ _ d' opened ⟨start, n, found, of_decide_eq_true cut⟩
    ran 0x61 List.mem_cons_self

end Exav.Unpack.Qcow
