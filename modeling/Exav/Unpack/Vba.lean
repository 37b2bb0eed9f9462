import Mathlib.Data.Nat.Log
import Mathlib.Tactic.IntervalCases
import Mathlib.Algebra.Order.BigOperators.Group.List
import Exav.Unpack.Lz4

/-!
# VBA containers

Office stores the source of its macros in chunks, each of bytes as they are or of
literal and copy tokens.  How a copy token divides its sixteen bits between an
offset and a length depends on how far its chunk has grown.

The decoder shifts and subtracts on numbers it reads; here each such step says
when it would go wrong.
-/

namespace Exav.Unpack.Vba

/-! ## Arithmetic -/

/-- What arithmetic can go wrong by: a shift by the width of a word or more, or a
difference below zero. -/
inductive Fault where
  | shift
  | underflow
  deriving DecidableEq

def sub (a b : Nat) : Except Fault Nat :=
  if b ≤ a then .ok (a - b) else .error .underflow

def shiftRight (word : UInt16) (n : Nat) : Except Fault UInt16 :=
  if n < 16 then .ok (word >>> UInt16.ofNat n) else .error .shift

/-- The word two bytes are, least significant first. -/
def word (lo hi : UInt8) : UInt16 :=
  UInt16.ofNat (lo.toNat + 256 * hi.toNat)

/-! ## Tokens -/

/-- The least `w` from which on `1 << w` is not below `difference`.  An address
has 64 bits. -/
def widthFrom (difference : Nat) : (rounds w : Nat) → Except Fault Nat
  | 0, _ => .error .shift
  | rounds + 1, w =>
      if 2 ^ w < difference then widthFrom difference rounds (w + 1) else .ok w

/-- `BitCount = max(ceil(log2(difference)), 4)`. -/
def copyTokenBits (difference : Nat) : Except Fault Nat := do
  let w ← widthFrom difference 64 0
  .ok (max w 4)

def copyToken (token : UInt16) (difference : Nat) : Except Fault (Nat × Nat) := do
  let bits ← copyTokenBits difference
  let lenMask ← shiftRight 0xFFFF bits
  let length := (token &&& lenMask).toNat + 3
  let high ← sub 16 bits
  let offset ← shiftRight (token &&& ~~~lenMask) high
  .ok (length, offset.toNat + 1)

/-- Where a token leaves the decoder: with all it gives, or with what is left of
the chunk. -/
inductive Taken where
  | stop (out : Bytes)
  | next (chunk out : Bytes)
  deriving DecidableEq

/-- A copy token of the chunk that started at `chunkStart` of `out`. -/
def copy (lo hi : UInt8) (chunk out : Bytes) (chunkStart : Nat) :
    Except Fault Taken := do
  let difference ← sub out.length chunkStart
  let (length, offset) ← copyToken (word lo hi) difference
  if out.length < offset then .ok (.stop out)
  else
    let src ← sub out.length offset
    .ok (.next chunk (copyMatch length src out))

def group (chunkStart : Nat) : List Bool → (chunk out : Bytes) →
    Except Fault Taken
  | [], chunk, out => .ok (.next chunk out)
  | _ :: _, [], out => .ok (.next [] out)
  | false :: flags, b :: chunk, out => group chunkStart flags chunk (out ++ [b])
  | true :: _, [_], out => .ok (.stop out)
  | true :: flags, lo :: hi :: chunk, out => do
      match ← copy lo hi chunk out chunkStart with
      | .stop out => .ok (.stop out)
      | .next chunk out => group chunkStart flags chunk out

/-- The bits of a flag byte, lowest first: set for a copy token. -/
def flagBits (flags : UInt8) : List Bool :=
  (List.range 8).map fun bit => flags.toNat.testBit bit

def groups (chunkStart : Nat) : (rounds : Nat) → (chunk out : Bytes) →
    Except Fault Taken
  | 0, chunk, out => .ok (.next chunk out)
  | _ + 1, [], out => .ok (.next [] out)
  | rounds + 1, flags :: chunk, out => do
      match ← group chunkStart (flagBits flags) chunk out with
      | .stop out => .ok (.stop out)
      | .next chunk out => groups chunkStart rounds chunk out

/-! ## Chunks -/

/-- How many bytes a chunk has behind its header. -/
def dataLen (header : UInt16) : Nat :=
  (header &&& 0x0FFF).toNat + 1

/-- Whether a chunk is of tokens.  The signature bits between are not checked. -/
def isCompressed (header : UInt16) : Bool :=
  (header >>> 15) &&& 0x01 != 0

/-- The chunks of a container, each of which takes a header, until `cap` is
reached. -/
def chunks (cap : Nat) : (rounds : Nat) → (data out : Bytes) →
    Except Fault Bytes
  | rounds + 1, lo :: hi :: data, out => do
      if cap ≤ out.length then .ok out
      else
        let header := word lo hi
        let chunk := data.take (dataLen header)
        let after := data.drop (dataLen header)
        if isCompressed header then
          match ← groups out.length chunk.length chunk out with
          | .stop out => .ok out
          | .next _ out => chunks cap rounds after out
        else chunks cap rounds after (out ++ chunk.take 4096)
  | _, _, out => .ok out

/-- Decompress a container, or nothing without its signature byte.  Of a damaged
one what was decoded so far is given. -/
def decompress (data : Bytes) (cap : Nat) : Except Fault (Option Bytes) :=
  match data with
  | 0x01 :: data => do
      let out ← chunks cap data.length data []
      .ok (some out)
  | _ => .ok none

/-!
## How far chunks grow

A chunk has at most 4096 bytes behind its header.  Only the first 4096 bytes it
decodes to leave a copy token room for a long copy; from there on a token of two
bytes copies at most ten.  That keeps every chunk below 32768 bytes, which is as
far as the sixteen bits of a token go.
-/

/-! ## What a copy token says -/

def bitCount (difference : Nat) : Nat :=
  max (Nat.clog 2 difference) 4

/-- How many bytes a copy token copies, where its chunk has come to
`difference`. -/
def copyLength (token : UInt16) (difference : Nat) : Nat :=
  token.toNat % 2 ^ (16 - bitCount difference) + 3

def copyOffset (token : UInt16) (difference : Nat) : Nat :=
  token.toNat / 2 ^ (16 - bitCount difference) + 1

theorem four_le_bitCount (difference : Nat) : 4 ≤ bitCount difference :=
  Nat.le_max_right _ _

theorem bitCount_le_iff {difference w : Nat} (four : 4 ≤ w) :
    bitCount difference ≤ w ↔ difference ≤ 2 ^ w := by
  rw [bitCount, max_le_iff, Nat.clog_le_iff_le_pow Nat.one_lt_two]
  exact and_iff_left four

theorem widthFrom_eq {difference rounds w : Nat}
    (from_w : w ≤ Nat.clog 2 difference)
    (enough : Nat.clog 2 difference < w + rounds) :
    widthFrom difference rounds w = .ok (Nat.clog 2 difference) := by
  induction rounds generalizing w with
  | zero => omega
  | succ rounds ih =>
      rw [widthFrom]
      by_cases below : 2 ^ w < difference
      · rw [if_pos below]
        have further : w < Nat.clog 2 difference :=
          (Nat.lt_clog_iff_pow_lt Nat.one_lt_two).mpr below
        exact ih further (by omega)
      · rw [if_neg below]
        have last : Nat.clog 2 difference ≤ w :=
          (Nat.clog_le_iff_le_pow Nat.one_lt_two).mpr (by omega)
        rw [Nat.le_antisymm from_w last]

theorem copyTokenBits_eq {difference : Nat} (fits : difference ≤ 2 ^ 15) :
    copyTokenBits difference = .ok (bitCount difference) := by
  have few : Nat.clog 2 difference ≤ 15 :=
    (Nat.clog_le_iff_le_pow Nat.one_lt_two).mpr fits
  rw [copyTokenBits, widthFrom_eq (Nat.zero_le _) (by omega)]
  rfl

/-- The mask of a copy token leaves its low bits, and what it takes away its high
ones. -/
theorem masks_eq {bits : Nat} (four : 4 ≤ bits) (fifteen : bits ≤ 15)
    (token : UInt16) :
    (token &&& ((0xFFFF : UInt16) >>> UInt16.ofNat bits)).toNat =
        token.toNat % 2 ^ (16 - bits) ∧
      ((token &&& ~~~((0xFFFF : UInt16) >>> UInt16.ofNat bits)) >>>
          UInt16.ofNat (16 - bits)).toNat =
        token.toNat / 2 ^ (16 - bits) := by
  have small : token.toNat < 2 ^ 16 := token.toNat_lt
  constructor
  · have mask : ((0xFFFF : UInt16) >>> UInt16.ofNat bits).toNat =
        2 ^ (16 - bits) - 1 := by
      interval_cases bits <;> rfl
    rw [UInt16.toNat_and, mask, Nat.and_two_pow_sub_one_eq_mod]
  · have mask : (~~~((0xFFFF : UInt16) >>> UInt16.ofNat bits) >>>
        UInt16.ofNat (16 - bits)).toNat = 2 ^ bits - 1 := by
      interval_cases bits <;> rfl
    have width : (UInt16.ofNat (16 - bits)).toNat % 16 = 16 - bits := by
      interval_cases bits <;> rfl
    have high : token.toNat / 2 ^ (16 - bits) < 2 ^ bits := by
      rw [Nat.div_lt_iff_lt_mul (Nat.two_pow_pos _), ← Nat.pow_add,
        Nat.add_sub_cancel' (by omega)]
      exact small
    rw [UInt16.shiftRight_and, UInt16.toNat_and, mask,
      Nat.and_two_pow_sub_one_eq_mod, UInt16.toNat_shiftRight, width,
      Nat.shiftRight_eq_div_pow, Nat.mod_eq_of_lt high]

/-- In a chunk that is not past 32768 bytes a copy token is read without a
fault. -/
theorem copyToken_eq {difference : Nat} (fits : difference ≤ 2 ^ 15)
    (token : UInt16) :
    copyToken token difference =
      .ok (copyLength token difference, copyOffset token difference) := by
  have four := four_le_bitCount difference
  have fifteen : bitCount difference ≤ 15 :=
    (bitCount_le_iff (by decide)).mpr fits
  obtain ⟨low, high⟩ := masks_eq four fifteen token
  have narrow : bitCount difference < 16 := by omega
  have rest : 16 - bitCount difference < 16 := by omega
  simp only [copyToken, copyTokenBits_eq fits, shiftRight, sub, if_pos narrow,
    if_pos rest, if_pos narrow.le, bind, Except.bind, low, high, copyLength,
    copyOffset]

/-- A copy ends within 4114 bytes of a chunk, or adds no more than ten. -/
theorem copyLength_le (token : UInt16) {difference : Nat}
    (fits : difference ≤ 2 ^ 15) :
    difference + copyLength token difference ≤ 4114 ∨
      copyLength token difference ≤ 10 := by
  have four := four_le_bitCount difference
  have fifteen : bitCount difference ≤ 15 :=
    (bitCount_le_iff (by decide)).mpr fits
  have covered : difference ≤ 2 ^ bitCount difference :=
    (bitCount_le_iff four).mp (Nat.le_refl _)
  unfold copyLength
  generalize bitCount difference = bits at *
  have low : token.toNat % 2 ^ (16 - bits) < 2 ^ (16 - bits) :=
    Nat.mod_lt _ (Nat.two_pow_pos _)
  interval_cases bits <;> simp only [Nat.reduceSub, Nat.reducePow] at * <;>
    omega

/-! ## How much chunks hold -/

/-- What the tokens of a group come to: whether the decoder stops at one of them,
what is left of the chunk, and how far the chunk has grown. -/
def groupSize (start : Nat) : List Bool → Bytes → Nat → Bool × Bytes × Nat
  | [], chunk, n => (false, chunk, n)
  | _ :: _, [], n => (false, [], n)
  | false :: flags, _ :: chunk, n => groupSize start flags chunk (n + 1)
  | true :: _, [_], n => (true, [], n)
  | true :: flags, lo :: hi :: chunk, n =>
      if start + n < copyOffset (word lo hi) n then (true, chunk, n)
      else groupSize start flags chunk (n + copyLength (word lo hi) n)

def tokensSize (start : Nat) : (rounds : Nat) → Bytes → Nat → Bool × Nat
  | 0, _, n => (false, n)
  | _ + 1, [], n => (false, n)
  | rounds + 1, flags :: chunk, n =>
      match groupSize start (flagBits flags) chunk n with
      | (true, _, n) => (true, n)
      | (false, chunk, n) => tokensSize start rounds chunk n

/-- How many bytes each chunk stands for, read off the lengths of its tokens, as
far as chunks can be decoded. -/
def sizesFrom : (rounds : Nat) → (data : Bytes) → (start : Nat) → List Nat
  | rounds + 1, lo :: hi :: data, start =>
      let header := word lo hi
      let chunk := data.take (dataLen header)
      let after := data.drop (dataLen header)
      if isCompressed header then
        match tokensSize start chunk.length chunk 0 with
        | (true, n) => [n]
        | (false, n) => n :: sizesFrom rounds after (start + n)
      else
        let n := (chunk.take 4096).length
        n :: sizesFrom rounds after (start + n)
  | _, _, _ => []

def chunkSizes (data : Bytes) : List Nat :=
  match data with
  | 0x01 :: data => sizesFrom data.length data 0
  | _ => []

/-! ## Decoding keeps to them -/

@[simp] theorem length_copyMatch (len start : Nat) (out : Bytes) :
    (copyMatch len start out).length = out.length + len := by
  induction len generalizing start out with
  | zero => rfl
  | succ len ih =>
      rw [copyMatch, ih, List.length_append, List.length_singleton]
      omega

/-- A chunk with so much left has not grown past what it has taken in allows. -/
def InReach (left n : Nat) : Prop :=
  n + 5 * left ≤ 4114 + 5 * 4096

theorem InReach.fits {left n : Nat} (reach : InReach left n) : n ≤ 2 ^ 15 := by
  unfold InReach at reach
  omega

theorem InReach.literal {left n : Nat} (reach : InReach (left + 1) n) :
    InReach left (n + 1) := by
  unfold InReach at reach ⊢
  omega

theorem InReach.less {left left' n : Nat} (reach : InReach left n)
    (less : left' ≤ left) : InReach left' n := by
  unfold InReach at reach ⊢
  omega

theorem InReach.copy {left n : Nat} (reach : InReach (left + 2) n)
    (small : left ≤ 4096) (token : UInt16) :
    InReach left (n + copyLength token n) := by
  have grows := copyLength_le token reach.fits
  unfold InReach at reach ⊢
  omega

/-- What a step of the decoder leaves, where the sizes are known. -/
def Taken.Sized (start : Nat) : Taken → Bool × Bytes × Nat → Prop
  | .stop out, (ended, _, n) => ended = true ∧ out.length = start + n
  | .next chunk out, (ended, left, n) =>
      ended = false ∧ chunk = left ∧ out.length = start + n

theorem copy_eq {start n : Nat} {out : Bytes} (length : out.length = start + n)
    (fits : n ≤ 2 ^ 15) (lo hi : UInt8) (chunk : Bytes) :
    copy lo hi chunk out start =
      if start + n < copyOffset (word lo hi) n then .ok (.stop out)
      else .ok (.next chunk (copyMatch (copyLength (word lo hi) n)
        (out.length - copyOffset (word lo hi) n) out)) := by
  have grown : sub out.length start = .ok n := by
    rw [sub, if_pos (by omega)]
    congr 1
    omega
  simp only [copy, grown, bind, Except.bind, copyToken_eq fits]
  by_cases before : start + n < copyOffset (word lo hi) n
  · rw [if_pos before, if_pos (by omega)]
  · have inside : copyOffset (word lo hi) n ≤ out.length := by omega
    rw [if_neg before, if_neg (by omega), sub, if_pos inside]

theorem group_sized {start : Nat} (flags : List Bool) {chunk out : Bytes}
    {n : Nat} (length : out.length = start + n)
    (small : chunk.length ≤ 4096) (reach : InReach chunk.length n) :
    ∃ taken, group start flags chunk out = .ok taken ∧
      taken.Sized start (groupSize start flags chunk n) ∧
      InReach (groupSize start flags chunk n).2.1.length
        (groupSize start flags chunk n).2.2 ∧
      (groupSize start flags chunk n).2.1.length ≤ chunk.length := by
  induction flags generalizing chunk out n with
  | nil =>
      exact ⟨_, rfl, ⟨rfl, rfl, length⟩, reach, Nat.le_refl _⟩
  | cons flag flags ih =>
      cases chunk with
      | nil =>
          cases flag with
          | false => exact ⟨_, rfl, ⟨rfl, rfl, length⟩, reach, Nat.le_refl _⟩
          | true => exact ⟨_, rfl, ⟨rfl, rfl, length⟩, reach, Nat.le_refl _⟩
      | cons lo chunk =>
          cases flag with
          | false =>
              have longer : (out ++ [lo]).length = start + (n + 1) := by
                rw [List.length_append, List.length_singleton, length]
                rfl
              obtain ⟨taken, ran, sized, within, shorter⟩ :=
                ih longer (Nat.le_of_succ_le small) reach.literal
              exact ⟨taken, ran, sized, within, Nat.le_succ_of_le shorter⟩
          | true =>
              cases chunk with
              | nil =>
                  exact ⟨_, rfl, ⟨rfl, length⟩, reach.less (Nat.zero_le _),
                    Nat.zero_le _⟩
              | cons hi chunk =>
                  have few : chunk.length ≤ 4096 := by
                    simp only [List.length_cons] at small
                    omega
                  simp only [group, groupSize, copy_eq length reach.fits]
                  by_cases before : start + n < copyOffset (word lo hi) n
                  · simp only [if_pos before]
                    refine ⟨_, rfl, ⟨rfl, length⟩, reach.less ?_, ?_⟩
                    all_goals
                      simp only [List.length_cons]
                      omega
                  · simp only [if_neg before]
                    have longer :
                        (copyMatch (copyLength (word lo hi) n)
                          (out.length - copyOffset (word lo hi) n) out).length =
                          start + (n + copyLength (word lo hi) n) := by
                      rw [length_copyMatch, length, Nat.add_assoc]
                    obtain ⟨taken, ran, sized, within, shorter⟩ :=
                      ih longer few (reach.copy few _)
                    refine ⟨taken, ran, sized, within, ?_⟩
                    simp only [List.length_cons]
                    omega

theorem groups_sized {start rounds : Nat} {chunk out : Bytes} {n : Nat}
    (length : out.length = start + n) (enough : chunk.length ≤ rounds)
    (small : chunk.length ≤ 4096) (reach : InReach chunk.length n) :
    ∃ taken, groups start rounds chunk out = .ok taken ∧
      match taken, tokensSize start rounds chunk n with
      | .stop out, (ended, n) => ended = true ∧ out.length = start + n
      | .next _ out, (ended, n) => ended = false ∧ out.length = start + n := by
  induction rounds generalizing chunk out n with
  | zero => exact ⟨_, rfl, rfl, length⟩
  | succ rounds ih =>
      cases chunk with
      | nil => exact ⟨_, rfl, rfl, length⟩
      | cons flags chunk =>
          simp only [List.length_cons] at enough small
          obtain ⟨taken, ran, sized, within, shorter⟩ :=
            group_sized (flagBits flags) length (by omega)
              (reach.less (Nat.le_succ chunk.length))
          simp only [groups, tokensSize, ran, bind, Except.bind]
          generalize groupSize start (flagBits flags) chunk n = size at *
          obtain ⟨ended, left, n'⟩ := size
          cases taken with
          | stop out' =>
              obtain ⟨rfl, grown⟩ := sized
              exact ⟨_, rfl, rfl, grown⟩
          | next chunk' out' =>
              obtain ⟨rfl, rfl, grown⟩ := sized
              simp only at within shorter ⊢
              exact ih grown (by omega) (by omega) within

theorem dataLen_le (header : UInt16) : dataLen header ≤ 4096 := by
  have masked : (header &&& 0x0FFF).toNat ≤ 0x0FFF := by
    rw [UInt16.toNat_and]
    exact Nat.and_le_right
  unfold dataLen
  omega

/-- How long the output is once `cap` is reached, or all chunks are in. -/
def reached (cap : Nat) : (start : Nat) → List Nat → Nat
  | start, [] => start
  | start, n :: sizes =>
      if cap ≤ start then start else reached cap (start + n) sizes

theorem chunks_sized {cap rounds : Nat} {data out : Bytes} :
    ∃ out', chunks cap rounds data out = .ok out' ∧
      out'.length = reached cap out.length (sizesFrom rounds data out.length) := by
  induction rounds generalizing data out with
  | zero => exact ⟨out, rfl, rfl⟩
  | succ rounds ih =>
      match data with
      | [] => exact ⟨out, rfl, rfl⟩
      | [_] => exact ⟨out, rfl, rfl⟩
      | lo :: hi :: data =>
          simp only [chunks, sizesFrom]
          generalize word lo hi = header
          have short : (data.take (dataLen header)).length ≤ 4096 :=
            Nat.le_trans (List.length_take_le _ _) (dataLen_le header)
          by_cases full : cap ≤ out.length
          · refine ⟨out, if_pos full, ?_⟩
            split
            · split <;> simp only [reached, if_pos full]
            · simp only [reached, if_pos full]
          · simp only [if_neg full]
            by_cases compressed : isCompressed header
            · simp only [if_pos compressed]
              obtain ⟨taken, ran, sized⟩ :=
                groups_sized (Nat.add_zero out.length).symm (Nat.le_refl _) short
                  (by unfold InReach; omega)
              simp only [ran, bind, Except.bind]
              generalize tokensSize out.length _ _ 0 = size at *
              obtain ⟨ended, n⟩ := size
              cases taken with
              | stop out' =>
                  obtain ⟨rfl, grown⟩ := sized
                  refine ⟨out', rfl, ?_⟩
                  simp only [reached, if_neg full, grown]
              | next left out' =>
                  obtain ⟨rfl, grown⟩ := sized
                  obtain ⟨out'', ran', grown'⟩ :=
                    @ih (data.drop (dataLen header)) out'
                  refine ⟨out'', ran', ?_⟩
                  simp only [grown', reached, if_neg full, grown]
            · simp only [if_neg compressed]
              obtain ⟨out', ran, grown⟩ := @ih (data.drop (dataLen header))
                (out ++ (data.take (dataLen header)).take 4096)
              refine ⟨out', ran, ?_⟩
              rw [grown, List.length_append, reached, if_neg full]

/-! ## The bound -/

theorem le_reached (cap start : Nat) (sizes : List Nat) :
    start ≤ reached cap start sizes := by
  induction sizes generalizing start with
  | nil => exact Nat.le_refl _
  | cons n sizes ih =>
      rw [reached]
      split
      · exact Nat.le_refl _
      · exact Nat.le_trans (Nat.le_add_right _ _) (ih _)

theorem reached_le {cap most start : Nat} {sizes : List Nat}
    (bounded : ∀ n ∈ sizes, n ≤ most + 1) (below : start ≤ cap + most) :
    reached cap start sizes ≤ cap + most := by
  induction sizes generalizing start with
  | nil => exact below
  | cons n sizes ih =>
      rw [reached]
      split
      · exact below
      · have bound := bounded n List.mem_cons_self
        exact ih (fun n member => bounded n (List.mem_cons_of_mem _ member))
          (by omega)

theorem exists_reached {start n : Nat} {sizes : List Nat} (member : n ∈ sizes) :
    ∃ before, start + before + n ≤ reached (start + before + 1) start sizes := by
  induction sizes generalizing start with
  | nil => cases member
  | cons first sizes ih =>
      cases member with
      | head =>
          refine ⟨0, ?_⟩
          rw [reached, if_neg (by omega)]
          exact le_reached _ _ _
      | tail _ member =>
          obtain ⟨before, bound⟩ := @ih (start + first) member
          refine ⟨first + before, ?_⟩
          rw [reached, if_neg (by omega), ← Nat.add_assoc]
          exact bound

/-- The output stays within `most` of every cap exactly when no chunk stands for
more than one byte above that. -/
theorem reached_le_iff {most : Nat} {sizes : List Nat} :
    (∀ cap, reached cap 0 sizes ≤ cap + most) ↔ ∀ n ∈ sizes, n ≤ most + 1 := by
  constructor
  · intro bound n member
    obtain ⟨before, reach⟩ := @exists_reached 0 n sizes member
    have within := bound (0 + before + 1)
    omega
  · intro bounded cap
    exact reached_le bounded (Nat.zero_le _)

/-- Decompression never goes wrong, and of a container gives as many bytes as its
chunks stand for up to the cap. -/
theorem decompress_sized (data : Bytes) (cap : Nat) :
    ∃ out, decompress data cap = .ok out ∧
      (out.getD []).length = reached cap 0 (chunkSizes data) := by
  unfold decompress chunkSizes
  split
  · rename_i data
    obtain ⟨out, ran, grown⟩ := @chunks_sized cap data.length data []
    refine ⟨some out, ?_, grown⟩
    simp only [ran, bind, Except.bind]
  · exact ⟨none, rfl, rfl⟩

/-!
## Legal containers

A container is written as chunks of at most 4096 bytes, in any of the ways the
format allows: as they are, or as any tokens that stand for them.  Decompression
undoes every one of them.  Of a crafted container it may give more than a chunk
is said to hold.
-/

open Exav.Fields

/-! ## The format -/

/-- A copy from `offset` back: each byte is the one that stands that far before
it, which the copy itself may have put there. -/
def Copies (offset length : Nat) (chunk after : Bytes) : Prop :=
  ∃ more, after = chunk ++ more ∧ more.length = length ∧
    ∀ i < length,
      after[chunk.length + i]? = after[chunk.length + i - offset]?

/-- A token takes a chunk further: its flag and how it is written. -/
inductive TokenOf (chunk : Bytes) : Bool → Bytes → Bytes → Prop where
  | literal (b : UInt8) : TokenOf chunk false [b] (chunk ++ [b])
  | copy {offset length : Nat} {after : Bytes} :
      1 ≤ offset → offset ≤ chunk.length →
      3 ≤ length → length < 2 ^ (16 - bitCount chunk.length) + 3 →
      Copies offset length chunk after →
      TokenOf chunk true
        (le 2 ((offset - 1) * 2 ^ (16 - bitCount chunk.length) + (length - 3)))
        after

inductive TokensOf : Bytes → List Bool → Bytes → Bytes → Prop where
  | nil (chunk : Bytes) : TokensOf chunk [] [] chunk
  | cons {chunk next after written more : Bytes} {kind : Bool}
      {kinds : List Bool} :
      TokenOf chunk kind written next → TokensOf next kinds more after →
      TokensOf chunk (kind :: kinds) (written ++ more) after

inductive GroupsOf : Bytes → Bytes → Bytes → Prop where
  | last {chunk after written : Bytes} {kinds : List Bool} {flags : UInt8} :
      TokensOf chunk kinds written after → kinds ≠ [] →
      kinds <+: flagBits flags → GroupsOf chunk (flags :: written) after
  | more {chunk next after written rest : Bytes} {flags : UInt8} :
      TokensOf chunk (flagBits flags) written next →
      GroupsOf next rest after →
      GroupsOf chunk (flags :: (written ++ rest)) after

inductive ChunkOf : Bytes → Bytes → Prop where
  | raw {piece : Bytes} :
      piece.length = 4096 → ChunkOf (0xFF :: 0x3F :: piece) piece
  | compressed {written piece : Bytes} :
      GroupsOf [] written piece → written.length ≤ 4096 →
      piece.length ≤ 4096 →
      ChunkOf (le 2 (0xB000 + (written.length - 1)) ++ written) piece

/-- `data` is a container of `bytes`. -/
def Container (data bytes : Bytes) : Prop :=
  ∃ parts : List (Bytes × Bytes), (∀ part ∈ parts, ChunkOf part.1 part.2) ∧
    data = 0x01 :: parts.flatMap (·.1) ∧ bytes = parts.flatMap (·.2)

/-! ## Tokens are read back -/

theorem Copies.copyMatch_take {after : Bytes} {offset start length : Nat}
    (back : 1 ≤ offset) (inside : offset ≤ start)
    (copied : ∀ i < length, after[start + i]? = after[start + i - offset]?)
    (fits : start + length ≤ after.length) :
    copyMatch length (start - offset) (after.take start) =
      after.take (start + length) := by
  induction length generalizing start with
  | zero => rfl
  | succ length ih =>
      have here : start < after.length := by omega
      have same : byteAt (after.take start) (start - offset) = after[start] := by
        have first := copied 0 (Nat.succ_pos length)
        rw [Nat.add_zero, List.getElem?_eq_getElem here] at first
        rw [byteAt_eq, List.getElem?_take_of_lt (by omega), ← first]
        rfl
      have later : ∀ i < length,
          after[start + 1 + i]? = after[start + 1 + i - offset]? := by
        intro i inside
        have next := copied (i + 1) (by omega)
        rwa [← Nat.add_assoc, Nat.add_right_comm] at next
      have step : start - offset + 1 = start + 1 - offset := by omega
      rw [copyMatch, same, ← List.take_succ_eq_append_getElem here, step,
        ih (by omega) later (by omega)]
      congr 1
      omega

theorem Copies.copyMatch_eq {offset length : Nat} {chunk after : Bytes}
    (back : 1 ≤ offset) (inside : offset ≤ chunk.length)
    (copies : Copies offset length chunk after) :
    copyMatch length (chunk.length - offset) chunk = after := by
  obtain ⟨more, rfl, long, copied⟩ := copies
  have whole := copyMatch_take back inside copied
    (by rw [List.length_append, long])
  rwa [List.take_left' rfl, List.take_of_length_le
    (by rw [List.length_append, long])] at whole

theorem TokenOf.grows {chunk written after : Bytes} {kind : Bool}
    (token : TokenOf chunk kind written after) :
    chunk.length < after.length := by
  cases token with
  | literal b =>
      rw [List.length_append, List.length_singleton]
      exact Nat.lt_succ_self _
  | copy _ _ long _ copies =>
      obtain ⟨more, rfl, length, -⟩ := copies
      rw [List.length_append]
      omega

theorem TokensOf.grows {chunk written after : Bytes} {kinds : List Bool}
    (tokens : TokensOf chunk kinds written after) :
    chunk.length + kinds.length ≤ after.length := by
  induction tokens with
  | nil => exact Nat.le_refl _
  | cons token _ ih =>
      have further := token.grows
      rw [List.length_cons]
      omega

theorem GroupsOf.grows {chunk written after : Bytes}
    (groups : GroupsOf chunk written after) : chunk.length < after.length := by
  induction groups with
  | last tokens some_kind _ =>
      have further := tokens.grows
      have positive := List.length_pos_iff.mpr some_kind
      omega
  | more tokens _ ih =>
      have further := tokens.grows
      omega

theorem toNat_word (lo hi : UInt8) :
    (word lo hi).toNat = ofLe [lo, hi] := by
  have low : lo.toNat < 256 := lo.toNat_lt
  have high : hi.toNat < 256 := hi.toNat_lt
  rw [word, UInt16.toNat_ofNat']
  simp only [ofLe]
  omega

theorem copyToken_written {offset length difference : Nat} {lo hi : UInt8}
    (back : 1 ≤ offset) (inside : offset ≤ difference) (three : 3 ≤ length)
    (short : length < 2 ^ (16 - bitCount difference) + 3)
    (fits : difference ≤ 2 ^ 15)
    (written : [lo, hi] =
      le 2 ((offset - 1) * 2 ^ (16 - bitCount difference) + (length - 3))) :
    copyLength (word lo hi) difference = length ∧
      copyOffset (word lo hi) difference = offset := by
  have four := four_le_bitCount difference
  have fifteen : bitCount difference ≤ 15 :=
    (bitCount_le_iff (by decide)).mpr fits
  have covered : difference ≤ 2 ^ bitCount difference :=
    (bitCount_le_iff four).mp (Nat.le_refl _)
  unfold copyLength copyOffset
  rw [toNat_word, written]
  generalize bitCount difference = bits at *
  have room : 2 ^ bits * 2 ^ (16 - bits) = 2 ^ 16 := by
    rw [← Nat.pow_add, Nat.add_sub_cancel' (by omega)]
  have product : (offset - 1) * 2 ^ (16 - bits) + 2 ^ (16 - bits) ≤
      2 ^ 16 := by
    rw [← room, ← Nat.succ_mul]
    exact Nat.mul_le_mul_right _ (by omega)
  rw [ofLe_le (by omega), Nat.mul_comm, Nat.mul_add_mod,
    Nat.mul_add_div (Nat.two_pow_pos _), Nat.mod_eq_of_lt (by omega),
    Nat.div_eq_of_lt (by omega)]
  omega

theorem group_tokens {front chunk written after : Bytes} {kinds : List Bool}
    (tokens : TokensOf chunk kinds written after) (small : after.length ≤ 2 ^ 15)
    (flags : List Bool) (tail : Bytes) :
    group front.length (kinds ++ flags) (written ++ tail) (front ++ chunk) =
      group front.length flags tail (front ++ after) := by
  induction tokens with
  | nil => rfl
  | @cons chunk next after written more kind kinds token tokens ih =>
      have further := tokens.grows
      have grown := token.grows
      rw [← ih small]
      cases token with
      | literal b =>
          rw [← List.append_assoc]
          rfl
      | @copy offset length next back inside three short copies =>
          generalize pair : le 2 _ = bytes
          obtain ⟨lo, hi, rfl⟩ : ∃ lo hi, bytes = [lo, hi] := ⟨_, _, pair.symm⟩
          obtain ⟨length_eq, offset_eq⟩ :=
            copyToken_written back inside three short (by omega) pair.symm
          simp only [List.cons_append, List.nil_append, group]
          rw [copy_eq (List.length_append ..) (by omega), length_eq, offset_eq,
            if_neg (by omega)]
          have behind : (front ++ chunk).length - offset =
              front.length + (chunk.length - offset) := by
            rw [List.length_append]
            omega
          rw [behind, copyMatch_append, copies.copyMatch_eq back inside]
          rfl

theorem groups_written {front chunk written after : Bytes} {rounds : Nat}
    (groupsOf : GroupsOf chunk written after) (small : after.length ≤ 2 ^ 15)
    (enough : written.length ≤ rounds) :
    groups front.length rounds written (front ++ chunk) =
      .ok (.next [] (front ++ after)) := by
  induction groupsOf generalizing rounds with
  | @last chunk after written kinds flags tokens _ under =>
      obtain ⟨rounds, rfl⟩ := Nat.exists_eq_add_of_le' enough
      obtain ⟨rest, split⟩ := under
      have read := @group_tokens front _ _ _ _ tokens small rest []
      rw [List.append_nil, split] at read
      have ended : group front.length rest [] (front ++ after) =
          .ok (.next [] (front ++ after)) := by
        match rest with
        | [] => rfl
        | true :: _ => rfl
        | false :: _ => rfl
      rw [List.length_cons, ← Nat.add_assoc, groups, read, ended]
      simp only [bind, Except.bind]
      match rounds + written.length with
      | 0 => rfl
      | _ + 1 => rfl
  | @more chunk next after written rest flags tokens groupsOf ih =>
      obtain ⟨rounds, rfl⟩ := Nat.exists_eq_add_of_le' enough
      have further := groupsOf.grows
      have read := @group_tokens front _ _ _ _ tokens (by omega) [] rest
      rw [List.append_nil] at read
      have ended : group front.length [] rest (front ++ next) =
          .ok (.next rest (front ++ next)) := rfl
      rw [List.length_cons, ← Nat.add_assoc, groups, read, ended]
      simp only [bind, Except.bind]
      apply ih small
      rw [List.length_append]
      omega

/-! ## Containers are read back -/

theorem ChunkOf.piece_pos {written piece : Bytes}
    (chunk : ChunkOf written piece) : 0 < piece.length := by
  cases chunk with
  | raw full => omega
  | compressed groupsOf _ _ => exact Nat.zero_lt_of_lt groupsOf.grows

theorem ChunkOf.written_pos {written piece : Bytes}
    (chunk : ChunkOf written piece) : 0 < written.length := by
  cases chunk with
  | raw => exact Nat.succ_pos _
  | compressed => exact Nat.succ_pos _

theorem length_parts {parts : List (Bytes × Bytes)}
    (legal : ∀ part ∈ parts, ChunkOf part.1 part.2) :
    parts.length ≤ (parts.flatMap (·.1)).length := by
  induction parts with
  | nil => exact Nat.le_refl _
  | cons part parts ih =>
      have first := (legal part List.mem_cons_self).written_pos
      have rest := ih fun part member => legal part (List.mem_cons_of_mem _ member)
      rw [List.flatMap_cons, List.length_append, List.length_cons]
      omega

theorem dataLen_eq (header : UInt16) :
    dataLen header = header.toNat % 4096 + 1 := by
  rw [dataLen, UInt16.toNat_and]
  exact congrArg (· + 1) (Nat.and_two_pow_sub_one_eq_mod header.toNat 12)

theorem isCompressed_iff (header : UInt16) :
    isCompressed header = true ↔ 2 ^ 15 ≤ header.toNat := by
  have small : header.toNat < 2 ^ 16 := header.toNat_lt
  have bit : ((header >>> 15) &&& 0x01).toNat = header.toNat / 2 ^ 15 % 2 := by
    rw [UInt16.toNat_and, UInt16.toNat_shiftRight]
    show header.toNat >>> 15 &&& 2 ^ 1 - 1 = _
    rw [Nat.and_two_pow_sub_one_eq_mod, Nat.shiftRight_eq_div_pow]
  rw [isCompressed, bne_iff_ne, ne_eq, ← UInt16.toNat_inj, bit, UInt16.toNat_zero]
  omega

/-- The header of a chunk of `n + 1` bytes that are tokens. -/
theorem header_compressed {n : Nat} (small : n < 4096) :
    dataLen (word (UInt8.ofNat (0xB000 + n))
        (UInt8.ofNat ((0xB000 + n) / 256))) = n + 1 ∧
      isCompressed (word (UInt8.ofNat (0xB000 + n))
        (UInt8.ofNat ((0xB000 + n) / 256))) = true := by
  have value : (word (UInt8.ofNat (0xB000 + n))
      (UInt8.ofNat ((0xB000 + n) / 256))).toNat = 0xB000 + n := by
    rw [toNat_word]
    exact @ofLe_le 2 (0xB000 + n) (by omega)
  rw [dataLen_eq, isCompressed_iff, value]
  omega

theorem chunks_written {cap rounds : Nat} {written piece : Bytes}
    (chunk : ChunkOf written piece) (data : Bytes) {out : Bytes}
    (room : out.length < cap) :
    chunks cap (rounds + 1) (written ++ data) out =
      chunks cap rounds data (out ++ piece) := by
  have open_cap : ¬ cap ≤ out.length := by omega
  cases chunk with
  | raw full =>
      have length : dataLen (word 0xFF 0x3F) = 4096 := by decide
      have stored : isCompressed (word 0xFF 0x3F) = false := by decide
      simp only [List.cons_append, chunks, if_neg open_cap, length, stored]
      rw [List.take_left' full, List.drop_left' full,
        List.take_of_length_le full.le]
      rfl
  | @compressed written _ groupsOf fits small =>
      have positive : 0 < written.length := by
        cases groupsOf with
        | last => exact Nat.succ_pos _
        | more => exact Nat.succ_pos _
      obtain ⟨length, tokens⟩ := @header_compressed (written.length - 1) (by omega)
      have exact_length : written.length = written.length - 1 + 1 := by omega
      rw [← exact_length] at length
      simp only [le, List.cons_append, List.nil_append, chunks, if_neg open_cap,
        length, tokens, if_true]
      rw [List.take_left' rfl, List.drop_left' rfl]
      have read := @groups_written out [] _ _ _ groupsOf
        (Nat.le_trans small (by decide)) (Nat.le_refl _)
      rw [List.append_nil] at read
      simp only [read, bind, Except.bind]

theorem chunks_parts {cap rounds : Nat} {parts : List (Bytes × Bytes)}
    {out : Bytes} (legal : ∀ part ∈ parts, ChunkOf part.1 part.2)
    (room : out.length + (parts.flatMap (·.2)).length ≤ cap)
    (enough : parts.length ≤ rounds) :
    chunks cap rounds (parts.flatMap (·.1)) out =
      .ok (out ++ parts.flatMap (·.2)) := by
  induction parts generalizing rounds out with
  | nil =>
      rw [List.flatMap_nil, List.flatMap_nil, List.append_nil]
      cases rounds <;> rfl
  | cons part parts ih =>
      obtain ⟨rounds, rfl⟩ := Nat.exists_eq_add_of_le' enough
      have chunk := legal part List.mem_cons_self
      have positive := chunk.piece_pos
      rw [List.flatMap_cons, List.length_append] at room
      rw [List.length_cons, ← Nat.add_assoc, List.flatMap_cons,
        List.flatMap_cons, chunks_written chunk _ (by omega),
        ih (fun part member => legal part (List.mem_cons_of_mem _ member)),
        List.append_assoc]
      · rw [List.length_append]
        omega
      · exact Nat.le_add_left _ _

theorem decompress_container {data bytes : Bytes} (legal : Container data bytes)
    {cap : Nat} (room : bytes.length ≤ cap) :
    decompress data cap = .ok (some bytes) := by
  obtain ⟨parts, chunkOf, rfl, rfl⟩ := legal
  have read := @chunks_parts cap _ parts [] chunkOf (by simpa using room)
    (length_parts chunkOf)
  simp only [decompress, read, bind, Except.bind, List.nil_append]

/-! ## Crafted containers -/

/-- What decompression is to give: the bytes back of a legal container, never a
fault, and no more than a chunk above the cap. -/
structure Decompresses (data : Bytes) : Prop where
  undoes : ∀ bytes, Container data bytes → ∀ cap, bytes.length ≤ cap →
    decompress data cap = .ok (some bytes)
  faultless : ∀ cap fault, decompress data cap ≠ .error fault
  bounded : ∀ cap out, decompress data cap = .ok (some out) →
    out.length ≤ cap + 4096

theorem bounded_iff {data : Bytes} :
    (∀ cap out, decompress data cap = .ok (some out) →
        out.length ≤ cap + 4096) ↔
      ∀ cap, reached cap 0 (chunkSizes data) ≤ cap + 4096 := by
  apply forall_congr'
  intro cap
  obtain ⟨out, ran, grown⟩ := decompress_sized data cap
  rw [ran, ← grown]
  cases out with
  | none => simp
  | some out => simp

/-- A chunk is not held to its 4096 bytes: decompression does what it is to do
exactly when no chunk stands for more than one byte above them. -/
theorem decompresses_iff (data : Bytes) :
    Decompresses data ↔ ∀ n ∈ chunkSizes data, n ≤ 4097 := by
  constructor
  · intro decompresses
    exact reached_le_iff.mp (bounded_iff.mp decompresses.bounded)
  · intro small
    refine ⟨fun bytes legal cap room => decompress_container legal room, ?_,
      bounded_iff.mpr (reached_le_iff.mpr small)⟩
    intro cap fault failed
    obtain ⟨out, ran, -⟩ := decompress_sized data cap
    rw [ran] at failed
    cases failed

/-- One chunk of a literal and of the longest copy of it there is. -/
def longCopy : Bytes :=
  [0x01, 0x03, 0xB0, 0x02, 0x41, 0xFF, 0x0F]

theorem not_decompresses_longCopy : ¬ Decompresses longCopy := by
  intro decompresses
  have bound := bounded_iff.mp decompresses.bounded 1
  have grown : reached 1 0 (chunkSizes longCopy) = 4099 := by decide
  omega

end Exav.Unpack.Vba
