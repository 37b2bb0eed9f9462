import Exav.Lib.Underrun
import Exav.Unpack.Aplib

/-!
# NRV blocks

Bits are taken from the top of 32-bit words, which are fetched from among the
literal and low bytes when a bit is needed.  The three variants code offsets and
lengths in different ways and are otherwise one decoder.
-/

namespace Exav.Unpack.Nrv

/-- The input, the word last fetched and how many bits of it are left. -/
structure Br where
  src : Bytes
  ip : Nat
  bb : Nat
  bc : Nat

abbrev Read := StateT Br (Except String)

def underrun : String := "upx nrv: input underrun"
def badBackReference : String := "upx nrv: bad back-reference"
def corruptGamma : String := "upx: corrupt NRV gamma"
def corruptLength : String := "upx: corrupt NRV length"

def Br.new (src : Bytes) : Br := ⟨src, 0, 0, 0⟩

def fail {α : Type} (what : String) : Read α := fun _ => .error what

/-- Fetch a word if the current one is used up. -/
def refill : Read Unit := fun r =>
  if r.bc = 0 then
    if r.ip + 4 > r.src.length then .error underrun
    else
      .ok ((), { r with bb := Fields.ofLe (window r.src r.ip 4)
                        ip := r.ip + 4, bc := 32 })
  else .ok ((), r)

def shift : Read Nat := fun r =>
  .ok ((r.bb >>> (r.bc - 1)) &&& 1, { r with bc := r.bc - 1 })

def bit : Read Nat := do
  refill
  shift

def byte : Read Nat := fun r =>
  match r.src[r.ip]? with
  | none => .error underrun
  | some b => .ok (b.toNat, { r with ip := r.ip + 1 })

def nrvGammaMax : Nat := 0xffffff + 3

/-- A gamma code of which `m` is known.  A number doubled 25 times is above the
bound. -/
def gammaFrom (corrupt : String) : (rounds m : Nat) → Read Nat
  | 0, _ => fail corrupt
  | rounds + 1, m => do
      let m := m * 2 + (← bit)
      if m > nrvGammaMax then fail corrupt
      else if (← bit) = 1 then pure m
      else gammaFrom corrupt rounds m

def nrvGamma : Read Nat :=
  gammaFrom corruptGamma 25 1

/-- The rest of a length whose first bit is `ml`. -/
def nrvLenTail (ml : Nat) : Read Nat := do
  let ml := ml * 2 + (← bit)
  if ml = 0 then
    let ml ← gammaFrom corruptLength 25 1
    pure (ml + 2)
  else pure ml

/-- A gamma code that folds in a bit at every step but the last. -/
def gammaDeFrom : (rounds m : Nat) → Read Nat
  | 0, _ => fail corruptGamma
  | rounds + 1, m => do
      let m := m * 2 + (← bit)
      if m > nrvGammaMax then fail corruptGamma
      else if (← bit) = 1 then pure m
      else
        let m := (m - 1) * 2 + (← bit)
        if m > nrvGammaMax then fail corruptGamma
        else gammaDeFrom rounds m

def nrvGammaDe : Read Nat :=
  gammaDeFrom 25 1

/-- The offset of a match and the first bit of its length; nothing at the end
marker. -/
def nrvDeOffset (last : Nat) : Read (Option (Nat × Nat)) := do
  let m ← nrvGammaDe
  if m = 2 then
    let seed ← bit
    pure (some (last, seed))
  else
    let raw := (m - 3) * 256 + (← byte)
    if raw = 0xffffffff then pure none
    else pure (some (raw >>> 1 + 1, 1 - raw % 2))

def nrv2bOffset (last : Nat) : Read (Option (Nat × Nat)) := do
  let m ← nrvGamma
  if m = 2 then
    let seed ← bit
    pure (some (last, seed))
  else
    let v := (m - 3) * 256 + (← byte)
    if v = 0xffffffff then pure none
    else
      let seed ← bit
      pure (some (v + 1, seed))

def nrv2eLength (seed : Nat) : Read Nat := do
  if seed ≠ 0 then
    let low ← bit
    pure (1 + low)
  else if (← bit) = 1 then
    let low ← bit
    pure (3 + low)
  else
    let m ← gammaFrom corruptLength 25 1
    pure (m + 3)

inductive Variant where
  | b
  | d
  | e
  deriving DecidableEq

namespace Variant

def offset : Variant → Nat → Read (Option (Nat × Nat))
  | b => nrv2bOffset
  | d => nrvDeOffset
  | e => nrvDeOffset

def length : Variant → Nat → Read Nat
  | b => nrvLenTail
  | d => nrvLenTail
  | e => nrv2eLength

/-- Matches from further back are a byte longer. -/
def far : Variant → Nat
  | b => 0xd00
  | d => 0x500
  | e => 0x500

end Variant

/-- What is read before the output changes. -/
inductive Item where
  | literal (b : UInt8)
  | copy (off count : Nat)
  | stop

/-- One item; `last` is the offset of the match before. -/
def item (v : Variant) (last : Nat) : Read Item := do
  if (← bit) = 1 then
    let b ← byte
    pure (.literal (UInt8.ofNat b))
  else
    match ← v.offset last with
    | none => pure .stop
    | some (off, seed) =>
        let ml ← v.length seed
        let ml := if off > v.far then ml + 1 else ml
        pure (.copy off (ml + 1))

/-- Copy byte by byte until `dstLen` is reached, and whether it is. -/
def copyFrom (dstLen : Nat) : (count start : Nat) → Bytes → Bool × Bytes
  | 0, _, out => (false, out)
  | count + 1, start, out =>
      let out := out ++ [byteAt out start]
      if out.length ≥ dstLen then (true, out)
      else copyFrom dstLen count (start + 1) out

def copyMatch (out : Bytes) (off count dstLen : Nat) :
    Except String Bool × Bytes :=
  if off = 0 ∨ off > out.length then (.error badBackReference, out)
  else
    let (reached, out) := copyFrom dstLen count (out.length - off) out
    (.ok reached, out)

/-- What a round makes of the output: all there is, or some and what to go on
with. -/
inductive Round where
  | ends (result : Except String Unit) (out : Bytes)
  | goes (last : Nat) (out : Bytes) (r : Br)

/-- One item taken.  The loop over literals goes round the other one, whose
condition is the one it returns on. -/
def round (v : Variant) (dstLen last : Nat) (out : Bytes) (r : Br) : Round :=
  if out.length ≥ dstLen then .ends (.ok ()) out
  else
    match item v last r with
    | .error e => .ends (.error e) out
    | .ok (.literal b, r) => .goes last (out ++ [b]) r
    | .ok (.stop, _) => .ends (.ok ()) out
    | .ok (.copy off count, r) =>
        match copyMatch out off count dstLen with
        | (.error e, out) => .ends (.error e) out
        | (.ok true, out) => .ends (.ok ()) out
        | (.ok false, out) => .goes off out r

def items (v : Variant) (dstLen : Nat) :
    (rounds last : Nat) → Bytes → Br → Except String Unit × Bytes
  | 0, _, out, _ => (.error underrun, out)
  | rounds + 1, last, out, r =>
      match round v dstLen last out r with
      | .ends result out => (result, out)
      | .goes last out r => items v dstLen rounds last out r

/-- Every item takes a bit at least. -/
def decompress (v : Variant) (src : Bytes) (dstLen : Nat) :
    Except String Unit × Bytes :=
  items v dstLen (8 * src.length + 1) 1 [] (.new src)

def nrv2bDecompress := decompress .b
def nrv2dDecompress := decompress .d
def nrv2eDecompress := decompress .e

/-!
## Bits, bytes and codes of an NRV block
-/

open Exav.Tagged Exav.Underrun
open Exav.Unpack.Aplib (digits valueFrom valueFrom_log2 le_valueFrom)

/-- Symbols as bytes, where some bits of a word are still to be taken.  Whatever
follows the last symbol is not looked at. -/
inductive Laid : List Bool → List Sym → Bytes → Prop where
  | done (pending : List Bool) (rest : Bytes) : Laid pending [] rest
  | byte {pending : List Bool} {syms : List Sym} {rest : Bytes} (v : UInt8)
      (more : Laid pending syms rest) : Laid pending (.byte v :: syms) (v :: rest)
  | bit {pending : List Bool} {syms : List Sym} {rest : Bytes} (b : Bool)
      (more : Laid pending syms rest) : Laid (b :: pending) (.bit b :: syms) rest
  | word {b : Bool} {syms : List Sym} {rest : Bytes} (word : Bytes)
      (four : word.length = 4)
      (more : Laid (digits 32 (Fields.ofLe word)) (.bit b :: syms) rest) :
      Laid [] (.bit b :: syms) (word ++ rest)

/-- The symbols stand next in the input. -/
def Stands (r : Br) (syms : List Sym) : Prop :=
  Laid (digits r.bc r.bb) syms (r.src.drop r.ip)

abbrev Reads {α : Type} (run : Read α) (syms : List Sym) (a : α) : Prop :=
  Takes Stands run syms a

theorem digits_succ (k n : Nat) : digits (k + 1) n = n.testBit k :: digits k n := by
  rw [digits, List.range_succ, List.reverse_append]
  rfl

theorem reads_byte (v : UInt8) : Reads byte [.byte v] v.toNat := by
  intro r more laid
  unfold Stands at laid
  generalize next : r.src.drop r.ip = rest at laid
  generalize bits : digits r.bc r.bb = pending at laid
  cases laid with
  | @byte _ _ rest v laid =>
      have here : r.src[r.ip]? = some v := by
        rw [← List.head?_drop, next, List.head?_cons]
      have behind : r.src.drop (r.ip + 1) = rest := by
        rw [← List.tail_drop, next, List.tail_cons]
      refine ⟨{ r with ip := r.ip + 1 }, by rw [byte, here], ?_⟩
      rw [Stands, behind, bits]
      exact laid

theorem shift_ok {r : Br} {b : Bool} {more : List Sym}
    (laid : Stands r (.bit b :: more)) (left : r.bc ≠ 0) :
    ∃ after, shift r = .ok (b.toNat, after) ∧ Stands after more := by
  unfold Stands at laid
  obtain ⟨n, some⟩ := Nat.exists_eq_succ_of_ne_zero left
  rw [some, digits_succ] at laid
  generalize top : r.bb.testBit n = d at laid
  cases laid with
  | bit b laid =>
      have value : (r.bb >>> (r.bc - 1)) &&& 1 = b.toNat := by
        rw [some, Nat.succ_sub_one, Nat.and_one_is_mod,
          Nat.shiftRight_eq_div_pow, ← Nat.toNat_testBit, top]
      refine ⟨{ r with bc := r.bc - 1 }, by rw [shift, value], ?_⟩
      rw [Stands]
      dsimp only
      rw [some, Nat.succ_sub_one]
      exact laid

theorem refill_ok {r : Br} {b : Bool} {more : List Sym}
    (laid : Stands r (.bit b :: more)) :
    ∃ filled, refill r = .ok ((), filled) ∧ filled.bc ≠ 0 ∧
      Stands filled (.bit b :: more) := by
  by_cases used : r.bc = 0
  · unfold Stands at laid
    have none : digits 0 r.bb = [] := rfl
    rw [used, none] at laid
    generalize next : r.src.drop r.ip = rest at laid
    cases laid with
    | @word _ _ rest word four laid =>
        have fits : ¬ r.ip + 4 > r.src.length := by
          have size := congrArg List.length next
          rw [List.length_drop, List.length_append] at size
          omega
        have here : window r.src r.ip 4 = word := by
          rw [window, next, ← four, List.take_left]
        have behind : r.src.drop (r.ip + 4) = rest := by
          rw [← List.drop_drop, next, ← four, List.drop_left]
        refine ⟨{ r with bb := Fields.ofLe word, ip := r.ip + 4, bc := 32 },
          by rw [refill, if_pos used, if_neg fits, here], Nat.succ_ne_zero 31, ?_⟩
        rw [Stands, behind]
        exact laid
  · exact ⟨r, by rw [refill, if_neg used], used, laid⟩

theorem reads_bit (b : Bool) : Reads bit [.bit b] b.toNat := by
  intro r more laid
  obtain ⟨filled, refilled, left, laid⟩ := refill_ok laid
  obtain ⟨after, shifted, laid⟩ := shift_ok laid left
  refine ⟨after, ?_, laid⟩
  change ((refill r).bind fun p => shift p.2) = _
  rw [refilled]
  exact shifted

/-! ## Gamma codes -/

/-- Digits, each with a bit that says whether it is the last. -/
def stopped : List Bool → List Sym
  | [] => []
  | [d] => [.bit d] ++ [.bit true]
  | d :: e :: ds => [.bit d] ++ ([.bit false] ++ stopped (e :: ds))

/-- The digits of a number below its leading one. -/
def gammaSyms (n : Nat) : List Sym :=
  stopped (digits (Nat.log2 n) n)

theorem reads_gammaFrom {corrupt : String} {ds : List Bool} {rounds m : Nat}
    (some : ds ≠ []) (enough : ds.length ≤ rounds)
    (small : valueFrom m ds ≤ nrvGammaMax) :
    Reads (gammaFrom corrupt rounds m) (stopped ds) (valueFrom m ds) := by
  induction ds generalizing rounds m with
  | nil => exact absurd rfl some
  | cons d ds ih =>
      obtain ⟨rounds, rfl⟩ : ∃ r, rounds = r + 1 :=
        Nat.exists_eq_succ_of_ne_zero (Nat.ne_of_gt
          (Nat.lt_of_lt_of_le (Nat.zero_lt_succ _) enough))
      have fits : ¬ m * 2 + d.toNat > nrvGammaMax :=
        Nat.not_lt.mpr ((le_valueFrom (m * 2 + d.toNat) ds).trans small)
      rw [gammaFrom]
      cases ds with
      | nil =>
          refine (reads_bit d).bind ?_
          rw [if_neg fits]
          refine (reads_bit true).last ?_
          rw [if_pos (show true.toNat = 1 from rfl)]
          exact .pure _
      | cons e ds =>
          refine (reads_bit d).bind ?_
          rw [if_neg fits]
          refine (reads_bit false).bind ?_
          rw [if_neg (by decide)]
          exact ih (List.cons_ne_nil e ds)
            (Nat.le_of_succ_le_succ enough) small

theorem reads_gamma (corrupt : String) {n : Nat} (two : 2 ≤ n)
    (small : n ≤ nrvGammaMax) :
    Reads (gammaFrom corrupt 25 1) (gammaSyms n) n := by
  obtain ⟨value, count, some⟩ := valueFrom_log2 two
  have most : Nat.log2 n < 25 := (Nat.log2_lt (by omega)).mpr (by
    unfold nrvGammaMax at small
    omega)
  have reads : Reads (gammaFrom corrupt 25 1) (gammaSyms n)
      (valueFrom 1 (digits (Nat.log2 n) n)) :=
    reads_gammaFrom some (by omega) (by rw [value]; exact small)
  rw [value] at reads
  exact reads

/-- The steps of a folding gamma code before its last digit: a digit and the bit
folded in. -/
def deGroups (m : Nat) : List (Bool × Bool) :=
  if m < 4 then []
  else deGroups (m / 4 + 1) ++ [((m / 4 + 1).testBit 0, (m / 2).testBit 0)]
termination_by m

def folded (m : Nat) (gs : List (Bool × Bool)) : Nat :=
  gs.foldl (fun m g => (m * 2 + g.1.toNat - 1) * 2 + g.2.toNat) m

def groupSyms : List (Bool × Bool) → Bool → List Sym
  | [], d => [.bit d] ++ [.bit true]
  | g :: gs, d =>
      [.bit g.1] ++ ([.bit false] ++ ([.bit g.2] ++ groupSyms gs d))

def gammaDeSyms (m : Nat) : List Sym :=
  groupSyms (deGroups m) (m.testBit 0)

theorem testBit_zero_toNat (n : Nat) : (n.testBit 0).toNat = n % 2 := by
  rw [Nat.toNat_testBit, Nat.pow_zero, Nat.div_one]

theorem folded_deGroups {m : Nat} (two : 2 ≤ m) :
    folded 1 (deGroups m) = m / 2 := by
  induction m using Nat.strong_induction_on with
  | _ m ih =>
      rw [deGroups]
      split_ifs with small
      · change 1 = m / 2
        omega
      · have before := ih (m / 4 + 1) (by omega) (by omega)
        rw [folded] at before
        rw [folded, List.foldl_append, before, List.foldl_cons, List.foldl_nil,
          testBit_zero_toNat, testBit_zero_toNat]
        omega

theorem le_folded {m : Nat} (pos : 1 ≤ m) (gs : List (Bool × Bool)) :
    m * 2 ^ gs.length ≤ folded m gs := by
  induction gs generalizing m with
  | nil => exact (Nat.mul_one m).le
  | cons g gs ih =>
      have grown := @ih ((m * 2 + g.1.toNat - 1) * 2 + g.2.toNat) (by omega)
      have doubled : m * 2 ≤ (m * 2 + g.1.toNat - 1) * 2 + g.2.toNat := by omega
      calc m * 2 ^ (g :: gs).length = m * 2 * 2 ^ gs.length := by
            rw [List.length_cons, Nat.pow_succ, Nat.mul_assoc,
              Nat.mul_comm 2]
        _ ≤ _ := Nat.mul_le_mul_right _ doubled
        _ ≤ folded m (g :: gs) := grown

theorem reads_gammaDeFrom {gs : List (Bool × Bool)} {d : Bool} {rounds m : Nat}
    (pos : 1 ≤ m) (enough : gs.length < rounds)
    (small : folded m gs * 2 + d.toNat ≤ nrvGammaMax) :
    Reads (gammaDeFrom rounds m) (groupSyms gs d)
      (folded m gs * 2 + d.toNat) := by
  induction gs generalizing rounds m with
  | nil =>
      obtain ⟨rounds, rfl⟩ : ∃ r, rounds = r + 1 :=
        Nat.exists_eq_succ_of_ne_zero (Nat.ne_of_gt enough)
      have fits : ¬ m * 2 + d.toNat > nrvGammaMax := Nat.not_lt.mpr small
      rw [gammaDeFrom]
      refine (reads_bit d).bind ?_
      dsimp only
      rw [if_neg fits]
      refine (reads_bit true).last ?_
      rw [if_pos (show true.toNat = 1 from rfl)]
      exact .pure _
  | cons g gs ih =>
      obtain ⟨rounds, rfl⟩ : ∃ r, rounds = r + 1 :=
        Nat.exists_eq_succ_of_ne_zero (by omega)
      have some : 1 ≤ (m * 2 + g.1.toNat - 1) * 2 + g.2.toNat := by omega
      have reaches := (Nat.le_mul_of_pos_right _ (Nat.two_pow_pos gs.length)).trans
        (le_folded some gs)
      have next : folded m (g :: gs) =
          folded ((m * 2 + g.1.toNat - 1) * 2 + g.2.toNat) gs := rfl
      rw [next] at small ⊢
      rw [gammaDeFrom]
      refine (reads_bit g.1).bind ?_
      dsimp only
      rw [if_neg (by omega)]
      refine (reads_bit false).bind ?_
      rw [if_neg (by decide)]
      refine (reads_bit g.2).bind ?_
      rw [if_neg (by omega)]
      exact ih some (Nat.lt_of_succ_lt_succ enough) small

theorem reads_gammaDe {n : Nat} (two : 2 ≤ n) (small : n ≤ nrvGammaMax) :
    Reads nrvGammaDe (gammaDeSyms n) n := by
  have value : folded 1 (deGroups n) * 2 + (n.testBit 0).toNat = n := by
    rw [folded_deGroups two, testBit_zero_toNat]
    omega
  have grown := le_folded (Nat.le_refl 1) (deGroups n)
  have few : (deGroups n).length < 25 := by
    rw [folded_deGroups two, Nat.one_mul] at grown
    have less : 2 ^ (deGroups n).length < 2 ^ 25 := by
      unfold nrvGammaMax at small
      omega
    exact (Nat.pow_lt_pow_iff_right (by decide)).mp less
  have reads := @reads_gammaDeFrom (deGroups n) (n.testBit 0) 25 1 (Nat.le_refl 1)
    few (by rw [value]; exact small)
  rw [value] at reads
  exact reads

/-! ## Offsets and lengths -/

/-- The code of a number below the end marker, its low byte apart. -/
def lowByte (n : Nat) : List Sym := [.byte (UInt8.ofNat (n % 256))]

theorem split_low (n : Nat) :
    (n / 256 + 3 - 3) * 256 + (UInt8.ofNat (n % 256)).toNat = n := by
  rw [UInt8.toNat_ofNat']
  omega

def tailCode (ml : Nat) : Bool × List Sym :=
  if ml < 4 then (ml.testBit 1, [.bit (ml.testBit 0)])
  else (false, [.bit false] ++ gammaSyms (ml - 2))

def treeCode (ml : Nat) : Bool × List Sym :=
  if ml < 3 then (true, [.bit (ml == 2)])
  else if ml < 5 then (false, [.bit true] ++ [.bit (ml == 4)])
  else (false, [.bit false] ++ gammaSyms (ml - 3))

theorem reads_tail {ml : Nat} (some : 1 ≤ ml) (small : ml ≤ nrvGammaMax + 2) :
    Reads (nrvLenTail (tailCode ml).1.toNat) (tailCode ml).2 ml := by
  unfold tailCode nrvLenTail
  split_ifs with short
  · refine (reads_bit _).last ?_
    have value : (ml.testBit 1).toNat * 2 + (ml.testBit 0).toNat = ml := by
      rw [testBit_zero_toNat, Nat.toNat_testBit]
      omega
    rw [value, if_neg (by omega)]
    exact .pure _
  · refine (reads_bit false).bind ?_
    dsimp only
    rw [if_pos (show false.toNat * 2 + false.toNat = 0 from rfl)]
    refine (reads_gamma corruptLength (by omega) (by omega)).last ?_
    have value : ml - 2 + 2 = ml := by omega
    rw [value]
    exact .pure _

theorem reads_tree {ml : Nat} (some : 1 ≤ ml) (small : ml ≤ nrvGammaMax + 3) :
    Reads (nrv2eLength (treeCode ml).1.toNat) (treeCode ml).2 ml := by
  have zero : ¬ false.toNat ≠ 0 := not_not.mpr rfl
  unfold treeCode
  by_cases short : ml < 3
  · rw [if_pos short, nrv2eLength, if_pos (show true.toNat ≠ 0 from Nat.one_ne_zero)]
    refine (reads_bit _).last ?_
    have value : 1 + (ml == 2).toNat = ml := by
      obtain rfl | rfl : ml = 1 ∨ ml = 2 := by omega
      all_goals rfl
    rw [value]
    exact .pure _
  rw [if_neg short]
  by_cases middle : ml < 5
  · rw [if_pos middle, nrv2eLength, if_neg zero]
    refine (reads_bit true).bind ?_
    rw [if_pos (show true.toNat = 1 from rfl)]
    refine (reads_bit _).last ?_
    have value : 3 + (ml == 4).toNat = ml := by
      obtain rfl | rfl : ml = 3 ∨ ml = 4 := by omega
      all_goals rfl
    rw [value]
    exact .pure _
  · rw [if_neg middle, nrv2eLength, if_neg zero]
    refine (reads_bit false).bind ?_
    rw [if_neg (show ¬ false.toNat = 1 from Nat.zero_ne_one)]
    refine (reads_gamma corruptLength (by omega) (by omega)).last ?_
    have value : ml - 3 + 3 = ml := by omega
    rw [value]
    exact .pure _

namespace Variant

/-- The number an offset is coded by; NRV2D and NRV2E put the first bit of the
length below it, inverted. -/
def raw (off : Nat) (seed : Bool) : Variant → Nat
  | b => off - 1
  | d => (off - 1) * 2 + (!seed).toNat
  | e => (off - 1) * 2 + (!seed).toNat

def gamma : Variant → Nat → List Sym
  | b => gammaSyms
  | d => gammaDeSyms
  | e => gammaDeSyms

/-- The first bit of the length, where the offset does not hold it. -/
def seedSyms (seed : Bool) : Variant → List Sym
  | b => [.bit seed]
  | d => []
  | e => []

def offsetSyms (v : Variant) (off : Nat) (seed : Bool) : List Sym :=
  v.gamma (v.raw off seed / 256 + 3) ++
    (lowByte (v.raw off seed) ++ v.seedSyms seed)

def lastSyms (v : Variant) (seed : Bool) : List Sym :=
  v.gamma 2 ++ [.bit seed]

def endSyms (v : Variant) : List Sym :=
  v.gamma nrvGammaMax ++ [.byte 0xff]

def lengthCode : Variant → Nat → Bool × List Sym
  | b => tailCode
  | d => tailCode
  | e => treeCode

/-- The longest length with a code. -/
def lengthMax : Variant → Nat
  | b => nrvGammaMax + 2
  | d => nrvGammaMax + 2
  | e => nrvGammaMax + 3

theorem reads_offset (v : Variant) {off last : Nat} {seed : Bool} (back : 0 < off)
    (below : v.raw off seed < 0xffffffff) :
    Reads (v.offset last) (v.offsetSyms off seed) (some (off, seed.toNat)) := by
  have high : v.raw off seed / 256 + 3 ≤ nrvGammaMax := by
    unfold nrvGammaMax
    omega
  have fresh : ¬ v.raw off seed / 256 + 3 = 2 := by omega
  have deRead {w : Variant} (raw : w.raw off seed = (off - 1) * 2 + (!seed).toNat)
      (high : w.raw off seed / 256 + 3 ≤ nrvGammaMax)
      (fresh : ¬ w.raw off seed / 256 + 3 = 2)
      (below : w.raw off seed < 0xffffffff) :
      Reads (nrvDeOffset last) (gammaDeSyms (w.raw off seed / 256 + 3) ++
        (lowByte (w.raw off seed) ++ [])) (some (off, seed.toNat)) := by
    refine (reads_gammaDe (by omega) high).bind ?_
    rw [if_neg fresh]
    refine (reads_byte _).bind ?_
    rw [split_low, if_neg (Nat.ne_of_lt below)]
    have whole : w.raw off seed >>> 1 + 1 = off := by
      have small := Bool.toNat_lt (!seed)
      rw [raw, Nat.shiftRight_eq_div_pow]
      omega
    have low : 1 - w.raw off seed % 2 = seed.toNat := by
      rw [raw]
      cases seed
      · have odd : ((off - 1) * 2 + (!false).toNat) % 2 = 1 :=
          Nat.mul_add_mod_self_right _ _ _
        rw [odd]
        rfl
      · have even : ((off - 1) * 2 + (!true).toNat) % 2 = 0 :=
          Nat.mul_add_mod_self_right _ _ _
        rw [even]
        rfl
    rw [whole, low]
    exact .pure _
  cases v with
  | b =>
      refine (reads_gamma corruptGamma (by omega) high).bind ?_
      rw [if_neg fresh]
      refine (reads_byte _).bind ?_
      rw [split_low, if_neg (Nat.ne_of_lt below)]
      refine (reads_bit seed).last ?_
      have whole : off - 1 + 1 = off := Nat.sub_add_cancel back
      change Reads (pure (some (off - 1 + 1, seed.toNat))) [] _
      rw [whole]
      exact .pure _
  | d => exact deRead rfl high fresh below
  | e => exact deRead rfl high fresh below

theorem reads_last (v : Variant) (last : Nat) (seed : Bool) :
    Reads (v.offset last) (v.lastSyms seed) (some (last, seed.toNat)) := by
  have two : 2 ≤ nrvGammaMax := by decide
  cases v with
  | b =>
      refine (reads_gamma corruptGamma (Nat.le_refl 2) two).bind ?_
      rw [if_pos rfl]
      exact (reads_bit seed).last (.pure _)
  | d =>
      refine (reads_gammaDe (Nat.le_refl 2) two).bind ?_
      rw [if_pos rfl]
      exact (reads_bit seed).last (.pure _)
  | e =>
      refine (reads_gammaDe (Nat.le_refl 2) two).bind ?_
      rw [if_pos rfl]
      exact (reads_bit seed).last (.pure _)

theorem reads_end (v : Variant) (last : Nat) :
    Reads (v.offset last) v.endSyms none := by
  have two : 2 ≤ nrvGammaMax := by decide
  have most : (nrvGammaMax - 3) * 256 + (0xff : UInt8).toNat = 0xffffffff := by
    decide
  cases v with
  | b =>
      refine (reads_gamma corruptGamma two (Nat.le_refl _)).bind ?_
      rw [if_neg (by decide)]
      refine (reads_byte 0xff).last ?_
      rw [most, if_pos rfl]
      exact .pure _
  | d =>
      refine (reads_gammaDe two (Nat.le_refl _)).bind ?_
      rw [if_neg (by decide)]
      refine (reads_byte 0xff).last ?_
      rw [most, if_pos rfl]
      exact .pure _
  | e =>
      refine (reads_gammaDe two (Nat.le_refl _)).bind ?_
      rw [if_neg (by decide)]
      refine (reads_byte 0xff).last ?_
      rw [most, if_pos rfl]
      exact .pure _

theorem reads_length (v : Variant) {ml : Nat} (some : 1 ≤ ml)
    (small : ml ≤ v.lengthMax) :
    Reads (v.length (v.lengthCode ml).1.toNat) (v.lengthCode ml).2 ml := by
  cases v with
  | b => exact reads_tail some small
  | d => exact reads_tail some small
  | e => exact reads_tree some small

end Variant

end Exav.Unpack.Nrv
