import Mathlib.Data.Nat.Bitwise
import Mathlib.Tactic.Ring
import Exav.Bytes

/-!
# Records and flags in bytes

Records of one width lie one after another, and flags eight to a byte, the
first in the lowest bit.
-/

namespace Exav.Packed

/-! ## Pieces -/

/-- The stretches of `size` bytes; the last may be shorter. -/
def chunks (size : Nat) (bytes : Bytes) : List Bytes :=
  if size = 0 ∨ bytes.length = 0 then []
  else bytes.take size :: chunks size (bytes.drop size)
  termination_by bytes.length
  decreasing_by
    simp only [List.length_drop]
    omega

/-! ## Records -/

/-- The stretches of `width` bytes; what is left over is dropped. -/
def chunksExact (width : Nat) (bytes : Bytes) : List Bytes :=
  if width = 0 ∨ bytes.length < width then []
  else bytes.take width :: chunksExact width (bytes.drop width)
  termination_by bytes.length
  decreasing_by
    simp only [List.length_drop]
    omega

theorem chunksExact_flatten {width : Nat} (some_ : 0 < width)
    {records : List Bytes} (fixed : ∀ r ∈ records, r.length = width) :
    chunksExact width records.flatten = records := by
  induction records with
  | nil =>
      rw [chunksExact, if_pos]
      · exact Or.inr (by simpa using some_)
  | cons first records ih =>
      have sized : first.length = width := fixed first List.mem_cons_self
      have whole : ¬(width = 0 ∨ (first :: records).flatten.length < width) := by
        simp only [List.flatten_cons, List.length_append]
        omega
      rw [chunksExact, if_neg whole, List.flatten_cons, ← sized,
        List.take_left, List.drop_left, sized,
        ih fun r later => fixed r (List.mem_cons_of_mem _ later)]

theorem length_flatten_of_fixed {width : Nat} {records : List Bytes}
    (fixed : ∀ r ∈ records, r.length = width) :
    records.flatten.length = records.length * width := by
  induction records with
  | nil => simp
  | cons first records ih =>
      rw [List.flatten_cons, List.length_append,
        ih fun r later => fixed r (List.mem_cons_of_mem _ later),
        fixed first List.mem_cons_self, List.length_cons]
      ring

/-! ## Flags -/

/-- The flag at `i`; past the last byte none is set. -/
def bitAt (bits : Bytes) (i : Nat) : Bool :=
  byteAt bits (i / 8) >>> UInt8.ofNat (i % 8) &&& 1 != 0

/-- Set the flag at `i`. -/
def setBit (bits : Bytes) (i : Nat) : Bytes :=
  bits.modify (i / 8) (· ||| 1 <<< UInt8.ofNat (i % 8))

def packBits (flags : List Bool) : Bytes :=
  (flags.zipIdx.filterMap fun (flag, i) => if flag then some i else none).foldl
    setBit (List.replicate ((flags.length + 7) / 8) 0)

theorem shift_ne_zero (b : UInt8) {i : Nat} (within : i < 8) :
    (b >>> UInt8.ofNat i &&& 1 != 0) = b.toNat.testBit i := by
  have amount : (UInt8.ofNat i).toNat % 8 = i := by
    rw [UInt8.toNat_ofNat']
    omega
  have value : (b >>> UInt8.ofNat i &&& 1).toNat = b.toNat >>> i &&& 1 := by
    rw [UInt8.toNat_and, UInt8.toNat_shiftRight, amount]
    rfl
  rw [Nat.testBit, Nat.and_comm, ← value, Bool.eq_iff_iff, bne_iff_ne,
    bne_iff_ne, ne_eq, ne_eq, ← UInt8.toNat_inj]
  rfl

theorem toNat_one_shiftLeft {i : Nat} (within : i < 8) :
    ((1 : UInt8) <<< UInt8.ofNat i).toNat = 2 ^ i := by
  have amount : (UInt8.ofNat i).toNat % 8 = i := by
    rw [UInt8.toNat_ofNat']
    omega
  have below : 2 ^ i < 2 ^ 8 := Nat.pow_lt_pow_right (by decide) within
  rw [UInt8.toNat_shiftLeft, amount, Nat.shiftLeft_eq]
  simpa using below

@[simp] theorem length_setBit (bits : Bytes) (i : Nat) :
    (setBit bits i).length = bits.length := by
  simp [setBit]

theorem bitAt_eq (bits : Bytes) (i : Nat) :
    bitAt bits i = (byteAt bits (i / 8)).toNat.testBit (i % 8) :=
  shift_ne_zero _ (Nat.mod_lt _ (by decide))

theorem bitAt_setBit {bits : Bytes} {i : Nat} (within : i / 8 < bits.length)
    (j : Nat) : bitAt (setBit bits i) j = (bitAt bits j || i == j) := by
  rw [bitAt_eq, bitAt_eq, byteAt_eq, byteAt_eq, setBit]
  by_cases same : i / 8 = j / 8
  · rw [same] at within
    have held : (bits.modify (i / 8)
        (· ||| 1 <<< UInt8.ofNat (i % 8)))[j / 8]?.getD 0 =
          bits[j / 8] ||| 1 <<< UInt8.ofNat (i % 8) := by
      simp [same, within]
    rw [held, List.getElem?_eq_getElem within, Option.getD_some,
      UInt8.toNat_or, Nat.testBit_or,
      toNat_one_shiftLeft (Nat.mod_lt _ (by decide)), Nat.testBit_two_pow]
    congr 1
    rw [Bool.eq_iff_iff, decide_eq_true_eq, beq_iff_eq]
    constructor
    · intro bit
      rw [← Nat.div_add_mod i 8, ← Nat.div_add_mod j 8, same, bit]
    · rintro rfl
      rfl
  · have other : i ≠ j := fun equal => same (by rw [equal])
    simp [same, other]

@[simp] theorem length_setBits (bits : Bytes) (is : List Nat) :
    (is.foldl setBit bits).length = bits.length := by
  induction is generalizing bits with
  | nil => rfl
  | cons i is ih => rw [List.foldl_cons, ih, length_setBit]

theorem bitAt_setBits {bits : Bytes} {is : List Nat}
    (within : ∀ i ∈ is, i / 8 < bits.length) (j : Nat) :
    bitAt (is.foldl setBit bits) j = (bitAt bits j || decide (j ∈ is)) := by
  induction is generalizing bits with
  | nil => simp
  | cons i is ih =>
      have later : ∀ k ∈ is, k / 8 < (setBit bits i).length := by
        simpa using fun k inIs => within k (List.mem_cons_of_mem _ inIs)
      rw [List.foldl_cons, ih later,
        bitAt_setBit (within i List.mem_cons_self), Bool.or_assoc]
      congr 1
      have swap : (i == j) = decide (j = i) := by
        rw [Bool.eq_iff_iff, beq_iff_eq, decide_eq_true_eq, eq_comm]
      simp [swap]

theorem bitAt_replicate_zero (n j : Nat) :
    bitAt (List.replicate n 0) j = false := by
  rw [bitAt_eq, byteAt_eq, List.getElem?_replicate]
  split <;> simp

@[simp] theorem length_packBits (flags : List Bool) :
    (packBits flags).length = (flags.length + 7) / 8 := by
  simp [packBits]

theorem bitAt_packBits {flags : List Bool} {i : Nat} {flag : Bool}
    (held : flags[i]? = some flag) : bitAt (packBits flags) i = flag := by
  have member (j : Nat) : j ∈ flags.zipIdx.filterMap
      (fun (flag, i) => if flag then some i else none) ↔
        flags[j]? = some true := by
    simp [List.mem_filterMap, List.mk_mem_zipIdx_iff_getElem?]
  rw [packBits, bitAt_setBits, bitAt_replicate_zero, Bool.false_or]
  · rw [Bool.eq_iff_iff, decide_eq_true_eq, member, held]
    simp
  · intro j set_
    have below : j < flags.length := by
      by_contra past
      rw [member, List.getElem?_eq_none (by omega)] at set_
      cases set_
    rw [List.length_replicate]
    omega

theorem unpack_packBits (flags : List Bool) :
    (List.range flags.length).map (bitAt (packBits flags)) = flags := by
  refine List.ext_getElem (by simp) fun i _ below => ?_
  simp only [List.getElem_map, List.getElem_range]
  exact bitAt_packBits (List.getElem?_eq_getElem below)

end Exav.Packed
