import Exav.Unpack.Lz4
import Exav.Lib.Tagged

/-!
# aPLib streams

Tag bits are taken one by one from tag bytes, which are fetched from among the
data bytes when a bit is needed.  They tell literals, single bytes and matches
apart, and code the offsets and the lengths of matches.
-/

set_option maxRecDepth 8192

namespace Exav.Unpack.Aplib

structure BitIn where
  src : Bytes
  pos : Nat
  tag : UInt8
  nbits : Nat

/-- What reads from a stream, or finds it malformed. -/
abbrev Read := StateT BitIn Option

def malformed {α : Type} : Read α := fun _ => none

namespace BitIn

def new (src : Bytes) : BitIn := ⟨src, 0, 0, 0⟩

end BitIn

/-- The next data byte. -/
def byte : Read UInt8 := fun bi =>
  match bi.src[bi.pos]? with
  | none => none
  | some b => some (b, { bi with pos := bi.pos + 1 })

def reload : Read Unit := fun bi =>
  if bi.nbits = 0 then
    match byte bi with
    | none => none
    | some (tag, bi) => some ((), { bi with tag := tag, nbits := 8 })
  else some ((), bi)

/-- Shift out the top bit of the tag byte. -/
def shift : Read Nat := fun bi =>
  some (((bi.tag >>> 7) &&& 1).toNat,
    { bi with tag := bi.tag <<< 1, nbits := bi.nbits - 1 })

/-- The next tag bit. -/
def bit : Read Nat := do
  reload
  shift

/-- The rest of a gamma code, of which `result` is known.  A code that goes on
behind 2^30 is refused, which is by the thirty-first round. -/
def gammaFrom : (rounds result : Nat) → Read Nat
  | 0, _ => malformed
  | rounds + 1, result => do
      let result := result * 2 + (← bit)
      if result ≥ 2 ^ 32 then malformed
      else if (← bit) = 0 then pure result
      else if result > 2 ^ 30 then malformed
      else gammaFrom rounds result

def gamma : Read Nat :=
  gammaFrom 31 1

def usizeMax : Nat := 2 ^ 64 - 1

/-- Copy `len` bytes from `offs` behind the end. -/
def copyMatch (out : Bytes) (offs len maxOut : Nat) : Read Bytes :=
  if offs = 0 ∨ offs > out.length then malformed
  else if out.length + len > maxOut then malformed
  else pure (Unpack.copyMatch len (out.length - offs) out)

/-- What is unpacked so far, the last match offset, and whether a match came
last. -/
structure Depack where
  out : Bytes
  r0 : Nat
  lwm : Bool

/-- The length of a match by its gamma code. -/
def biased (offs l : Nat) : Nat :=
  let l := if offs ≥ 32000 then l + 1 else l
  if offs ≥ 1280 then l + 1 else if offs < 128 then l + 2 else l

/-- `10`: the general match, or one that takes the last offset again. -/
def generalMatch (maxOut : Nat) (s : Depack) : Read Depack := do
  let offs ← gamma
  if s.lwm = false ∧ offs = 2 then
    let len ← gamma
    let out ← copyMatch s.out s.r0 len maxOut
    pure { s with out := out, lwm := true }
  else
    let less := if s.lwm then 2 else 3
    if offs < less then malformed
    else
      -- A gamma code is below 2^32, so this does not overflow.
      let offs := (offs - less) * 256 + (← byte).toNat
      let len := biased offs (← gamma)
      let out ← copyMatch s.out offs len maxOut
      pure ⟨out, offs, true⟩

/-- `110`: a short match, or the end. -/
def shortMatch (maxOut : Nat) (s : Depack) : Read (Depack ⊕ Bytes) := do
  let b ← byte
  let len := 2 + (b.toNat &&& 1)
  let offs := b.toNat >>> 1
  if offs = 0 then pure (.inr s.out)
  else
    let out ← copyMatch s.out offs len maxOut
    pure (.inl ⟨out, offs, true⟩)

/-- The offset of a single byte, its four bits one by one. -/
def nibbleFrom : (n offs : Nat) → Read Nat
  | 0, offs => pure offs
  | n + 1, offs => do
      let offs := offs * 2 + (← bit)
      nibbleFrom n offs

/-- `111`: a single byte, zero for the offset 0. -/
def singleByte (maxOut : Nat) (s : Depack) : Read Depack := do
  let offs ← nibbleFrom 4 0
  if offs = 0 then pure { s with out := s.out ++ [0], lwm := false }
  else
    let out ← copyMatch s.out offs 1 maxOut
    pure { s with out := out, lwm := false }

/-- One token: what is unpacked behind it, or all there is. -/
def token (maxOut : Nat) (s : Depack) : Read (Depack ⊕ Bytes) := do
  if s.out.length > maxOut then malformed
  else if (← bit) = 0 then
    let b ← byte
    pure (.inl { s with out := s.out ++ [b], lwm := false })
  else if (← bit) = 0 then
    let s ← generalMatch maxOut s
    pure (.inl s)
  else if (← bit) = 0 then shortMatch maxOut s
  else
    let s ← singleByte maxOut s
    pure (.inl s)

def tokens (maxOut : Nat) : (rounds : Nat) → Depack → Read Bytes
  | 0, _ => malformed
  | rounds + 1, s => do
      match ← token maxOut s with
      | .inl s => tokens maxOut rounds s
      | .inr out => pure out

def depackFor (rounds maxOut : Nat) : Read Bytes := do
  let first ← byte
  tokens maxOut rounds ⟨[first], usizeMax, false⟩

/-- Unpack a stream into `maxOut` bytes at most.  Each token takes a bit at
least. -/
def depack (src : Bytes) (maxOut : Nat) : Option Bytes :=
  if src.isEmpty then none
  else (depackFor (8 * src.length + 1) maxOut (.new src)).map Prod.fst

/-!
## Bits, bytes and codes of an aPLib stream

What the reader takes from a stream in which symbols are laid out: single bits
and bytes, numbers of four bits, and gamma codes.
-/

open Exav.Tagged Exav.Taking

/-- The symbols stand next in a stream. -/
def Stands (bi : BitIn) (syms : List Sym) : Prop :=
  Laid (topBits bi.tag bi.nbits) syms (bi.src.drop bi.pos)

/-- Some symbols are taken, and give a value. -/
abbrev Reads {α : Type} (run : Read α) (syms : List Sym) (a : α) : Prop :=
  Takes Stands run syms a

theorem byte_of_drop {bi : BitIn} {v : UInt8} {rest : Bytes}
    (next : bi.src.drop bi.pos = v :: rest) :
    byte bi = some (v, { bi with pos := bi.pos + 1 }) ∧
      bi.src.drop (bi.pos + 1) = rest := by
  have here : bi.src[bi.pos]? = some v := by
    rw [← List.head?_drop, next, List.head?_cons]
  refine ⟨by rw [byte, here], ?_⟩
  rw [← List.tail_drop, next, List.tail_cons]

theorem reads_byte (v : UInt8) : Reads byte [.byte v] v := by
  intro bi more laid
  unfold Stands at laid
  generalize next : bi.src.drop bi.pos = rest at laid
  generalize bits : topBits bi.tag bi.nbits = pending at laid
  cases laid with
  | byte v laid =>
      obtain ⟨taken, behind⟩ := byte_of_drop next
      refine ⟨_, taken, ?_⟩
      rw [Stands, behind, bits]
      exact laid

theorem top_bit (tag : UInt8) :
    ((tag >>> 7) &&& 1).toNat = ((tag >>> 7) &&& 1 == 1).toNat := by
  revert tag
  apply forall_byte
  decide

/-- The top bit of a tag byte that is not used up. -/
theorem reads_shift {bi : BitIn} {b : Bool} {more : List Sym}
    (laid : Stands bi (.bit b :: more)) (left : bi.nbits ≠ 0) :
    ∃ after, shift bi = some (b.toNat, after) ∧ Stands after more := by
  unfold Stands at laid
  obtain ⟨n, some⟩ := Nat.exists_eq_succ_of_ne_zero left
  rw [some, topBits] at laid
  generalize low : ((bi.tag >>> 7) &&& 1 == 1) = top at laid
  cases laid with
  | bit b laid =>
      refine ⟨_, by rw [shift, top_bit, low], ?_⟩
      rw [Stands]
      dsimp only
      rw [some, Nat.succ_sub_one]
      exact laid

theorem reads_bit (b : Bool) : Reads bit [.bit b] b.toNat := by
  intro bi more laid
  change Stands bi (.bit b :: more) at laid
  by_cases used : bi.nbits = 0
  · unfold Stands at laid
    rw [used, topBits] at laid
    generalize next : bi.src.drop bi.pos = rest at laid
    cases laid with
    | tag tag laid =>
        obtain ⟨taken, behind⟩ := byte_of_drop next
        have loaded : reload bi = some ((),
            { bi with pos := bi.pos + 1, tag := tag, nbits := 8 }) := by
          rw [reload, if_pos used, taken]
        have laid : Stands { bi with pos := bi.pos + 1, tag := tag, nbits := 8 }
            (.bit b :: more) := by
          rw [Stands, behind]
          exact laid
        obtain ⟨after, shifted, laid⟩ := reads_shift laid (Nat.succ_ne_zero 7)
        refine ⟨after, ?_, laid⟩
        change ((reload bi).bind fun p => shift p.2) = _
        rw [loaded]
        exact shifted
  · obtain ⟨after, shifted, laid⟩ := reads_shift laid used
    refine ⟨after, ?_, laid⟩
    change ((reload bi).bind fun p => shift p.2) = _
    rw [reload, if_neg used]
    exact shifted

/-! ## Numbers -/

/-- The last `k` binary digits of a number, the highest first. -/
def digits (k n : Nat) : List Bool :=
  (List.range k).reverse.map n.testBit

/-- A number that starts with `result` and goes on with some digits. -/
def valueFrom (result : Nat) (ds : List Bool) : Nat :=
  ds.foldl (fun result d => result * 2 + d.toNat) result

theorem valueFrom_digits (k n : Nat) : valueFrom (n >>> k) (digits k n) = n := by
  induction k with
  | zero => rfl
  | succ k ih =>
      have first : digits (k + 1) n = n.testBit k :: digits k n := by
        rw [digits, List.range_succ, List.reverse_append]
        rfl
      have step : (n >>> (k + 1)) * 2 + (n.testBit k).toNat = n >>> k := by
        have low := Nat.div_add_mod (n >>> k) 2
        rw [Nat.shiftRight_succ, Nat.toNat_testBit, ← Nat.shiftRight_eq_div_pow]
        omega
      rw [first, valueFrom, List.foldl_cons, step]
      exact ih

/-- A number is a one and the digits below its leading one. -/
theorem valueFrom_log2 {n : Nat} (two : 2 ≤ n) :
    valueFrom 1 (digits (Nat.log2 n) n) = n ∧
      (digits (Nat.log2 n) n).length = Nat.log2 n ∧ digits (Nat.log2 n) n ≠ [] := by
  have filled : n ≠ 0 := by omega
  have one : n >>> Nat.log2 n = 1 := by
    have low := Nat.log2_self_le filled
    have high := @Nat.lt_log2_self n
    rw [Nat.shiftRight_eq_div_pow]
    apply Nat.div_eq_of_lt_le
    · rw [Nat.one_mul]
      exact low
    · rw [Nat.pow_succ, Nat.mul_comm] at high
      exact high
  have value := valueFrom_digits (Nat.log2 n) n
  rw [one] at value
  have count : (digits (Nat.log2 n) n).length = Nat.log2 n := by
    rw [digits, List.length_map, List.length_reverse, List.length_range]
  refine ⟨value, count, ?_⟩
  rw [← List.length_pos_iff, count]
  exact (Nat.le_log2 filled).mpr two

theorem le_valueFrom (result : Nat) (ds : List Bool) :
    result ≤ valueFrom result ds := by
  induction ds generalizing result with
  | nil => exact Nat.le_refl _
  | cons d ds ih =>
      have further := ih (result * 2 + d.toNat)
      rw [valueFrom, List.foldl_cons]
      exact Nat.le_trans (by omega) further

theorem reads_nibbleFrom (ds : List Bool) (offs : Nat) :
    Reads (nibbleFrom ds.length offs) (ds.map .bit) (valueFrom offs ds) := by
  induction ds generalizing offs with
  | nil => exact .pure offs
  | cons d ds ih => exact (reads_bit d).bind (ih (offs * 2 + d.toNat))

/-- Digits, each with a bit that says whether another follows. -/
def linked : List Bool → List Sym
  | [] => []
  | [d] => [.bit d, .bit false]
  | d :: e :: ds => .bit d :: .bit true :: linked (e :: ds)

def gammaSyms (n : Nat) : List Sym :=
  linked (digits (Nat.log2 n) n)

/-- Codes are read up to this number. -/
def gammaEnd : Nat := 2 ^ 31 + 2

theorem reads_gammaFrom {ds : List Bool} {rounds result : Nat} (some : ds ≠ [])
    (enough : ds.length ≤ rounds) (small : valueFrom result ds < gammaEnd) :
    Reads (gammaFrom rounds result) (linked ds) (valueFrom result ds) := by
  induction ds generalizing rounds result with
  | nil => exact absurd rfl some
  | cons d ds ih =>
      obtain ⟨rounds, rfl⟩ : ∃ r, rounds = r + 1 :=
        Nat.exists_eq_succ_of_ne_zero (Nat.ne_of_gt
          (Nat.lt_of_lt_of_le (Nat.zero_lt_succ _) enough))
      have reaches := le_valueFrom (result * 2 + d.toNat) ds
      have fits : ¬ result * 2 + d.toNat ≥ 2 ^ 32 := by
        rw [valueFrom, List.foldl_cons] at small
        rw [valueFrom] at reaches
        unfold gammaEnd at small
        omega
      cases ds with
      | nil =>
          refine (reads_bit d).bind ?_
          dsimp only
          rw [if_neg fits]
          refine @Takes.bind _ _ _ _ _ _ _ _ [] _ _ (reads_bit false) ?_
          exact .pure _
      | cons e ds =>
          have more : ¬ result * 2 + d.toNat > 2 ^ 30 := by
            have further := le_valueFrom
              ((result * 2 + d.toNat) * 2 + e.toNat) ds
            rw [valueFrom, List.foldl_cons, List.foldl_cons] at small
            rw [valueFrom] at further
            unfold gammaEnd at small
            omega
          refine (reads_bit d).bind ?_
          dsimp only
          rw [if_neg fits]
          refine (reads_bit true).bind ?_
          have goes : ¬ true.toNat = 0 := Nat.succ_ne_zero 0
          rw [if_neg goes, if_neg more]
          exact ih (List.cons_ne_nil e ds)
            (Nat.le_of_succ_le_succ enough) small

theorem reads_gamma {n : Nat} (two : 2 ≤ n) (small : n < gammaEnd) :
    Reads gamma (gammaSyms n) n := by
  obtain ⟨value, count, some⟩ := valueFrom_log2 two
  have most : Nat.log2 n < 32 := (Nat.log2_lt (by omega)).mpr (by
    unfold gammaEnd at small
    omega)
  have reads : Reads gamma (gammaSyms n)
      (valueFrom 1 (digits (Nat.log2 n) n)) :=
    reads_gammaFrom some (by omega) (by rw [value]; exact small)
  rw [value] at reads
  exact reads

end Exav.Unpack.Aplib
