import Mathlib.Order.Bounds.Basic
import Exav.Lib.Stream
import Exav.Unpack.Budget

/-!
# A member handed over as it is decoded

`emitStream` gives a visitor a member to read in buffers of its choosing,
under a cap.  The reader counts what it delivers and probes for one byte more
at the cap: a member that goes on is an error, not the end of a file.
`Delivered` is what holds of the reader and of what it has delivered.
-/

namespace Exav.Unpack

open Exav.Stream

/-- The largest size the program counts bytes by. -/
def u64Max : Nat := 2 ^ 64 - 1

structure ScanLimits where
  maxScannedBytes : Nat
  maxCompressionRatio : Nat

/-- The part of a budget that streamed members draw on. -/
structure ScanBudget where
  limits : ScanLimits
  scanned : Nat

namespace ScanBudget

def remainingScan (b : ScanBudget) : Nat :=
  b.limits.maxScannedBytes - b.scanned

def chargeScan (b : ScanBudget) (n : Nat) : Except LimitHit ScanBudget :=
  let b := { b with scanned := min (b.scanned + n) u64Max }
  if b.scanned > b.limits.maxScannedBytes then
    .error (.ofKind .maxScanSize
      s!"scanned bytes > {b.limits.maxScannedBytes}")
  else .ok b

end ScanBudget

/-- Output size from which the ratio check applies. -/
def ratioFloorBytes : Nat := 4 * 1024 * 1024

def ratioGuard (input output : Nat) (b : ScanBudget) : Except LimitHit Unit :=
  if output ≥ ratioFloorBytes ∧ input > 0 ∧
      output / input > b.limits.maxCompressionRatio then
    .error (.new s!"compression ratio {output / input} > {b.limits.maxCompressionRatio}")
  else .ok ()

/-! ## The reader -/

/-- A reader of at most `cap` bytes of another. -/
structure BudgetReader where
  inner : Source UInt8
  cap : Nat
  count : Nat
  overflowed : Bool
  done : Bool

/-- What one read gives: bytes, none of them at the end of the file, an error
of the inner reader's, or that the member goes on past the cap. -/
inductive Got where
  | bytes (got : Bytes)
  | fault
  | overflow
  deriving DecidableEq

def Got.delivered : Got → Bytes
  | .bytes got => got
  | _ => []

@[simp] theorem Got.delivered_bytes (got : Bytes) :
    (Got.bytes got).delivered = got := rfl

@[simp] theorem Got.delivered_fault : Got.fault.delivered = [] := rfl

@[simp] theorem Got.delivered_overflow : Got.overflow.delivered = [] := rfl

namespace BudgetReader

def new (inner : Source UInt8) (cap : Nat) : BudgetReader :=
  ⟨inner, cap, 0, false, false⟩

/-- One read into a buffer of `size` bytes. -/
def read (r : BudgetReader) (size : Nat) : Got × BudgetReader :=
  if r.done then (.bytes [], r)
  else
    let room := r.cap - r.count
    if room = 0 then
      -- At the cap.  Probe one byte: if the member has more, it is a bomb.
      match readSome 1 r.inner with
      | (none, inner) => (.fault, { r with inner := inner })
      | (some [], inner) =>
          (.bytes [], { r with inner := inner, done := true })
      | (some (_ :: _), inner) =>
          (.overflow,
            { r with inner := inner, overflowed := true, done := true })
    else
      match readSome (min size room) r.inner with
      | (none, inner) => (.fault, { r with inner := inner })
      | (some got, inner) =>
          (.bytes got, { r with
            inner := inner, count := r.count + got.length, done := got.isEmpty })

def reads (r : BudgetReader) : List Nat → List (Nat × Got) × BudgetReader
  | [] => ([], r)
  | size :: sizes =>
      let (got, r) := r.read size
      let (rest, r) := r.reads sizes
      ((size, got) :: rest, r)

end BudgetReader

/-! ## Handing a member over -/

/-- The most a member of `compSize` bytes may decode to before its ratio is a
bomb's; `none` when its size in the container is unknown. -/
def ratioCap (compSize : Nat) (b : ScanBudget) : Option Nat :=
  if compSize = 0 then none
  else
    let ratio := min (b.limits.maxCompressionRatio + 1) u64Max
    some (max (min (compSize * ratio) u64Max - 1) (ratioFloorBytes - 1))

def streamCap (compSize : Nat) (b : ScanBudget) : Nat :=
  let scanCap := b.remainingScan
  match ratioCap compSize b with
  | some r => min r scanCap
  | none => scanCap

/-- A visitor: the buffers it reads into, what it makes of the reads, and the
budget it leaves. -/
structure Visitor (α : Type) where
  sizes : List Nat
  answer : List (Nat × Got) → Option α
  leaves : ScanBudget → ScanBudget

def visitorReads {α : Type} (compSize : Nat) (inner : Source UInt8)
    (b : ScanBudget) (visit : Visitor α) : List (Nat × Got) × BudgetReader :=
  (BudgetReader.new inner (streamCap compSize b)).reads visit.sizes

def emitStream {α : Type} (name : String) (compSize : Nat)
    (inner : Source UInt8) (b : ScanBudget) (visit : Visitor α) :
    Except LimitHit (Option α × ScanBudget) :=
  let scanCap := b.remainingScan
  let (got, br) := visitorReads compSize inner b visit
  let after := visit.leaves b
  if br.overflowed then
    if (ratioCap compSize b).any (· < scanCap) then
      .error (.new s!"member '{name}': compression ratio > {after.limits.maxCompressionRatio}")
    else
      .error (.new s!"member '{name}' exceeds scan budget {after.limits.maxScannedBytes}")
  else do
    let after ← after.chargeScan br.count
    return (visit.answer got, after)

/-! ## The cap -/

theorem ratioGuard_ok_iff {input output : Nat} {b : ScanBudget} :
    ratioGuard input output b = .ok () ↔
      output < ratioFloorBytes ∨ input = 0 ∨
        output < input * (b.limits.maxCompressionRatio + 1) := by
  have quotient (positive : 0 < input) :
      output / input > b.limits.maxCompressionRatio ↔
        input * (b.limits.maxCompressionRatio + 1) ≤ output := by
    rw [gt_iff_lt, Nat.lt_iff_add_one_le, Nat.le_div_iff_mul_le positive,
      Nat.mul_comm]
  unfold ratioGuard
  split
  case isTrue refused =>
    obtain ⟨large, positive, past⟩ := refused
    rw [quotient positive] at past
    constructor
    · intro same
      cases same
    · intro accepted
      omega
  case isFalse kept =>
    refine ⟨fun _ => ?_, fun _ => rfl⟩
    by_contra refused
    push Not at refused
    obtain ⟨large, nonzero, past⟩ := refused
    exact kept ⟨large, Nat.pos_of_ne_zero nonzero,
      (quotient (Nat.pos_of_ne_zero nonzero)).mpr past⟩

def LargestOutput (compSize : Nat) (b : ScanBudget) (largest : Nat) : Prop :=
  IsGreatest {output | output ≤ u64Max ∧ ratioGuard compSize output b = .ok ()}
    largest

def RatioFits (compSize : Nat) (b : ScanBudget) : Prop :=
  compSize * (b.limits.maxCompressionRatio + 1) ≤ u64Max

theorem largestOutput_fits {compSize : Nat} {b : ScanBudget}
    (positive : 0 < compSize) (fits : RatioFits compSize b) :
    LargestOutput compSize b
      (max (compSize * (b.limits.maxCompressionRatio + 1) - 1)
        (ratioFloorBytes - 1)) := by
  have floor : 0 < ratioFloorBytes ∧ ratioFloorBytes ≤ u64Max := by decide
  have product : 0 < compSize * (b.limits.maxCompressionRatio + 1) :=
    Nat.mul_pos positive (Nat.succ_pos _)
  unfold RatioFits at fits
  constructor
  · refine ⟨by omega, ratioGuard_ok_iff.mpr ?_⟩
    omega
  · rintro output ⟨_, accepted⟩
    rcases ratioGuard_ok_iff.mp accepted with small | zero | within <;> omega

theorem largestOutput_past {compSize : Nat} {b : ScanBudget}
    (past : compSize = 0 ∨ ¬RatioFits compSize b) :
    LargestOutput compSize b u64Max := by
  constructor
  · refine ⟨le_rfl, ratioGuard_ok_iff.mpr (Or.inr ?_)⟩
    exact past.imp_right Nat.lt_of_not_le
  · intro output accepted
    exact accepted.1

theorem ratioCap_fits {compSize : Nat} {b : ScanBudget}
    (positive : 0 < compSize) (fits : RatioFits compSize b) :
    ratioCap compSize b =
      some (max (compSize * (b.limits.maxCompressionRatio + 1) - 1)
        (ratioFloorBytes - 1)) := by
  unfold RatioFits at fits
  have ratio : b.limits.maxCompressionRatio + 1 ≤ u64Max :=
    (Nat.le_mul_of_pos_left _ positive).trans fits
  rw [ratioCap, if_neg (by omega)]
  simp only [Nat.min_eq_left ratio, Nat.min_eq_left fits]

theorem ratioCap_past {compSize : Nat} {b : ScanBudget}
    (positive : 0 < compSize) (past : ¬RatioFits compSize b) :
    ratioCap compSize b = some (u64Max - 1) := by
  have floor : ratioFloorBytes ≤ u64Max := by decide
  have saturated : min (compSize *
      min (b.limits.maxCompressionRatio + 1) u64Max) u64Max = u64Max := by
    apply Nat.min_eq_right
    by_cases small : b.limits.maxCompressionRatio + 1 ≤ u64Max
    · rw [Nat.min_eq_left small]
      exact (Nat.lt_of_not_le past).le
    · rw [Nat.min_eq_right (by omega)]
      exact Nat.le_mul_of_pos_left _ positive
  rw [ratioCap, if_neg (by omega)]
  simp only [saturated]
  rw [Nat.max_eq_left (by omega)]

theorem streamCap_eq_iff {compSize : Nat} {b : ScanBudget}
    (typed : b.limits.maxScannedBytes ≤ u64Max) :
    (∀ largest, LargestOutput compSize b largest →
        streamCap compSize b = min b.remainingScan largest) ↔
      compSize = 0 ∨ RatioFits compSize b ∨ b.remainingScan < u64Max := by
  have positive : 0 < u64Max := by decide
  have remaining : b.remainingScan ≤ u64Max := (Nat.sub_le _ _).trans typed
  have only {largest other : Nat} (is : LargestOutput compSize b other)
      (also : LargestOutput compSize b largest) : largest = other :=
    also.unique is
  rcases Nat.eq_zero_or_pos compSize with zero | filled
  · have cap : streamCap compSize b = b.remainingScan := by
      simp [streamCap, ratioCap, zero]
    refine ⟨fun _ => Or.inl zero, ?_⟩
    intro _ largest is
    rw [only (largestOutput_past (Or.inl zero)) is, cap,
      Nat.min_eq_left remaining]
  · by_cases fits : RatioFits compSize b
    · refine ⟨fun _ => Or.inr (Or.inl fits), ?_⟩
      intro _ largest is
      rw [only (largestOutput_fits filled fits) is, streamCap,
        ratioCap_fits filled fits]
      exact Nat.min_comm _ _
    · have cap : streamCap compSize b =
          min (u64Max - 1) b.remainingScan := by
        rw [streamCap, ratioCap_past filled fits]
      constructor
      · intro equal
        have same := equal u64Max (largestOutput_past (Or.inr fits))
        rw [cap, Nat.min_eq_left remaining] at same
        omega
      · intro condition largest is
        have less : b.remainingScan < u64Max := by
          rcases condition with zero | other | less
          · omega
          · exact absurd other fits
          · exact less
        rw [only (largestOutput_past (Or.inr fits)) is, cap]
        omega

/-! ## What is delivered -/

def deliveredBy (reads : List (Nat × Got)) : Bytes :=
  reads.flatMap (·.2.delivered)

@[simp] theorem deliveredBy_nil : deliveredBy [] = [] := rfl

@[simp] theorem deliveredBy_cons (size : Nat) (got : Got)
    (reads : List (Nat × Got)) :
    deliveredBy ((size, got) :: reads) =
      got.delivered ++ deliveredBy reads := rfl

/-- What holds of a reader of `content` that has delivered `received`. -/
structure Delivered (content received : Bytes) (r : BudgetReader) : Prop where
  counted : r.count = received.length
  within : received.length ≤ r.cap
  leaves : r.overflowed = false → content = received ++ rest r.inner
  finished : r.done = true → r.overflowed = false → rest r.inner = []
  past : r.overflowed = true →
    r.done = true ∧ received <+: content ∧ r.cap < content.length

/-- A read that a latch does not spoil: nothing is asked for after the error at
the cap, and an empty buffer comes only at the cap, at the end, or where the
inner reader fails. -/
def Fair (r : BudgetReader) (size : Nat) : Prop :=
  (r.overflowed = true → size = 0) ∧
    (size = 0 → r.count = r.cap ∨ rest r.inner = [] ∨
      (readSome 0 r.inner).1 = none ∨ r.overflowed = true)

def Steady (r : BudgetReader) : List Nat → Prop
  | [] => True
  | size :: sizes => Fair r size ∧ Steady (r.read size).2 sizes

theorem delivered_new (inner : Source UInt8) (cap : Nat) :
    Delivered (rest inner) [] (BudgetReader.new inner cap) where
  counted := rfl
  within := Nat.zero_le _
  leaves _ := rfl
  finished latched := by simp [BudgetReader.new] at latched
  past latched := by simp [BudgetReader.new] at latched

theorem Delivered.prefix_content {content received : Bytes}
    {r : BudgetReader} (held : Delivered content received r) :
    received <+: content := by
  cases latched : r.overflowed with
  | true => exact (held.past latched).2.1
  | false => exact ⟨_, (held.leaves latched).symm⟩

namespace BudgetReader

theorem read_done {r : BudgetReader} {size : Nat} (finished : r.done = true) :
    r.read size = (.bytes [], r) := by
  simp [read, finished]

@[simp] theorem read_cap (r : BudgetReader) (size : Nat) :
    (r.read size).2.cap = r.cap := by
  unfold read
  dsimp only
  split
  · rfl
  · split
    · split <;> rfl
    · split <;> rfl

theorem read_full {r : BudgetReader} {size : Nat} (going : r.done = false)
    (full : r.count = r.cap) :
    r.read size =
      match readSome 1 r.inner with
      | (none, inner) => (.fault, { r with inner := inner })
      | (some [], inner) =>
          (.bytes [], { r with inner := inner, done := true })
      | (some (_ :: _), inner) =>
          (.overflow,
            { r with inner := inner, overflowed := true, done := true }) := by
  simp [read, going, full]

theorem read_room {r : BudgetReader} {size : Nat} (going : r.done = false)
    (room : r.count < r.cap) :
    r.read size =
      match readSome (min size (r.cap - r.count)) r.inner with
      | (none, inner) => (.fault, { r with inner := inner })
      | (some got, inner) =>
          (.bytes got, { r with
            inner := inner, count := r.count + got.length
            done := got.isEmpty }) := by
  have some_room : r.cap - r.count ≠ 0 := by omega
  simp [read, going, some_room]

end BudgetReader

private theorem Delivered.read_full {content received : Bytes}
    {r : BudgetReader} {size : Nat} (held : Delivered content received r)
    (going : r.done = false) (clear : r.overflowed = false)
    (full : r.count = r.cap) :
    Delivered content (received ++ (r.read size).1.delivered)
        (r.read size).2 ∧
      ((r.read size).1 = .bytes [] → received = content) ∧
      (r.cap < content.length →
        (r.read size).1 = .fault ∨ (r.read size).2.overflowed = true) := by
  have split := held.leaves clear
  have counted := held.counted
  have within := held.within
  rw [BudgetReader.read_full going full]
  rcases probe : readSome 1 r.inner with ⟨_ | _ | ⟨first, more⟩, inner⟩
  · have same := rest_of_readSome_none probe
    refine ⟨⟨?_, ?_, ?_, ?_, ?_⟩, ?_, fun _ => Or.inl rfl⟩
    · simpa using counted
    · simpa using within
    · intro _
      simpa [← same] using split
    · intro finished
      rw [going] at finished
      cases finished
    · intro latched
      rw [clear] at latched
      cases latched
    · intro ended
      cases ended
  · have ended := rest_of_readSome_nil Nat.one_pos probe
    have after := readSome_rest probe
    rw [ended, List.append_nil] at split
    refine ⟨⟨?_, ?_, ?_, ?_, ?_⟩, ?_, ?_⟩
    · simpa using counted
    · simpa using within
    · intro _
      simpa [← split] using after.symm.trans ended
    · intro _ _
      exact after.symm.trans ended
    · intro latched
      rw [clear] at latched
      cases latched
    · intro _
      exact split.symm
    · intro longer
      rw [split] at longer
      omega
  · have after := readSome_rest probe
    refine ⟨⟨?_, ?_, ?_, ?_, ?_⟩, ?_, fun _ => Or.inr rfl⟩
    · simpa using counted
    · simpa using within
    · intro latched
      cases latched
    · intro _ latched
      cases latched
    · intro _
      refine ⟨rfl, ?_, ?_⟩
      · simpa using held.prefix_content
      · rw [split, after]
        simp
        omega
    · intro ended
      cases ended

private theorem Delivered.read_room {content received : Bytes}
    {r : BudgetReader} {size : Nat} (held : Delivered content received r)
    (going : r.done = false) (clear : r.overflowed = false)
    (room : r.count < r.cap)
    (wanted : size = 0 → rest r.inner = [] ∨ (readSome 0 r.inner).1 = none) :
    Delivered content (received ++ (r.read size).1.delivered)
        (r.read size).2 ∧
      ((r.read size).1 = .bytes [] → received = content) := by
  have split := held.leaves clear
  have counted := held.counted
  have within := held.within
  rw [BudgetReader.read_room going room]
  rcases probe : readSome (min size (r.cap - r.count)) r.inner with
    ⟨_ | got, inner⟩
  · have same := rest_of_readSome_none probe
    refine ⟨⟨?_, ?_, ?_, ?_, ?_⟩, ?_⟩
    · simpa using counted
    · simpa using within
    · intro _
      simpa [← same] using split
    · intro finished
      rw [going] at finished
      cases finished
    · intro latched
      rw [clear] at latched
      cases latched
    · intro ended
      cases ended
  · have after := readSome_rest probe
    have short := length_readSome probe
    have ended (empty : got = []) : rest r.inner = [] := by
      rcases Nat.eq_zero_or_pos size with none_wanted | positive
      · rw [none_wanted, Nat.zero_min] at probe
        simpa [probe] using wanted none_wanted
      · rw [empty] at probe
        exact rest_of_readSome_nil (by omega) probe
    refine ⟨⟨?_, ?_, ?_, ?_, ?_⟩, ?_⟩
    · simp [counted]
    · simp
      omega
    · intro _
      simpa [after] using split
    · intro empty _
      have nothing : got = [] := List.isEmpty_iff.mp empty
      rw [ended nothing, nothing] at after
      simpa using after.symm
    · intro latched
      rw [clear] at latched
      cases latched
    · intro same
      have nothing : got = [] := by simpa using same
      rw [split, ended nothing, List.append_nil]

/-- One fair read: what it delivers continues the content, it gives nothing
only when everything is delivered, and at the cap it does not pass over what
is left. -/
theorem Delivered.read {content received : Bytes} {r : BudgetReader}
    {size : Nat} (held : Delivered content received r) (fair : Fair r size) :
    Delivered content (received ++ (r.read size).1.delivered)
        (r.read size).2 ∧
      ((r.read size).1 = .bytes [] → 0 < size → received = content) ∧
      (received.length = r.cap → r.cap < content.length →
        (r.read size).1 = .fault ∨ (r.read size).2.overflowed = true) := by
  obtain ⟨silent, wanted⟩ := fair
  have counted := held.counted
  cases latched : r.overflowed with
  | true =>
      rw [BudgetReader.read_done (held.past latched).1]
      refine ⟨by simpa using held, ?_, fun _ _ => Or.inr latched⟩
      intro _ positive
      exact absurd (silent latched) positive.ne'
  | false =>
      cases finished : r.done with
      | true =>
          have whole : content = received := by
            simpa [held.finished finished latched] using held.leaves latched
          rw [BudgetReader.read_done finished]
          refine ⟨by simpa using held, fun _ _ => whole.symm, ?_⟩
          intro full longer
          rw [whole] at longer
          omega
      | false =>
          by_cases full : r.count = r.cap
          · obtain ⟨delivered, ended, past⟩ :=
              @Delivered.read_full _ _ _ size held finished latched full
            exact ⟨delivered, fun empty _ => ended empty, fun _ => past⟩
          · have within := held.within
            have asked (empty : size = 0) :
                rest r.inner = [] ∨ (readSome 0 r.inner).1 = none := by
              simpa [full, latched] using wanted empty
            obtain ⟨delivered, ended⟩ :=
              held.read_room finished latched (by omega) asked
            refine ⟨delivered, fun empty _ => ended empty, ?_⟩
            intro reached
            omega

theorem BudgetReader.reads_done {r : BudgetReader} (finished : r.done = true)
    (sizes : List Nat) : (r.reads sizes).2 = r := by
  induction sizes with
  | nil => rfl
  | cons size sizes ih =>
      simp only [BudgetReader.reads, BudgetReader.read_done finished]
      exact ih

theorem BudgetReader.reads_cap (r : BudgetReader) (sizes : List Nat) :
    (r.reads sizes).2.cap = r.cap := by
  induction sizes generalizing r with
  | nil => rfl
  | cons size sizes ih =>
      simp only [BudgetReader.reads]
      rw [ih, BudgetReader.read_cap]

theorem Delivered.reads {content received : Bytes} {r : BudgetReader}
    {sizes : List Nat} (held : Delivered content received r)
    (steady : Steady r sizes) :
    Delivered content (received ++ deliveredBy (r.reads sizes).1)
      (r.reads sizes).2 := by
  induction sizes generalizing received r with
  | nil => simpa [BudgetReader.reads] using held
  | cons size sizes ih =>
      have next := ih (held.read steady.1).1 steady.2
      rw [List.append_assoc] at next
      exact next

theorem Delivered.each_read {content received : Bytes} {r : BudgetReader}
    {sizes : List Nat} (held : Delivered content received r)
    (steady : Steady r sizes) {before after : List (Nat × Got)} {size : Nat}
    {got : Got} (one : (r.reads sizes).1 = before ++ (size, got) :: after) :
    (got = .bytes [] → 0 < size →
        received ++ deliveredBy before = content) ∧
      ((received ++ deliveredBy before).length = r.cap →
        r.cap < content.length →
        got = .fault ∨ (r.reads sizes).2.overflowed = true) := by
  induction sizes generalizing received r before with
  | nil => simp [BudgetReader.reads] at one
  | cons first sizes ih =>
      obtain ⟨next, ended, past⟩ := held.read steady.1
      simp only [BudgetReader.reads] at one ⊢
      cases before with
      | nil =>
          obtain ⟨same, rfl⟩ := List.cons.inj one
          obtain ⟨rfl, rfl⟩ := Prod.mk.inj same
          refine ⟨fun empty asked => by simpa using ended empty asked, ?_⟩
          intro full longer
          refine (past (by simpa using full) longer).imp_right ?_
          intro latched
          rw [BudgetReader.reads_done (next.past latched).1]
          exact latched
      | cons head before =>
          obtain ⟨rfl, others⟩ := List.cons.inj one
          have later := ih next steady.2 others
          rw [BudgetReader.read_cap, List.append_assoc] at later
          exact later

/-! ## A member handed over -/

/-- What handing a member over promises: the cap is the smaller of what may be
scanned and the largest output the ratio check accepts, what is delivered
begins the content and stays within the cap, an end of the file comes after
the whole content, and a read at the cap of a member that goes on is an error
of the inner reader's or stops the scan. -/
structure Emitted {α : Type} (name : String) (compSize : Nat)
    (inner : Source UInt8) (b : ScanBudget) (visit : Visitor α) : Prop where
  cap : ∀ largest, LargestOutput compSize b largest →
    streamCap compSize b = min b.remainingScan largest
  begins : deliveredBy (visitorReads compSize inner b visit).1 <+: rest inner
  within : (deliveredBy (visitorReads compSize inner b visit).1).length ≤
    streamCap compSize b
  ended : ∀ before size after,
    (visitorReads compSize inner b visit).1 =
        before ++ (size, .bytes []) :: after →
      0 < size → deliveredBy before = rest inner
  stops : ∀ before size got after,
    (visitorReads compSize inner b visit).1 =
        before ++ (size, got) :: after →
      (deliveredBy before).length = streamCap compSize b →
      streamCap compSize b < (rest inner).length →
      got = .fault ∨
        ∃ hit, emitStream name compSize inner b visit = .error hit

theorem emitStream_overflowed {α : Type} {name : String} {compSize : Nat}
    {inner : Source UInt8} {b : ScanBudget} {visit : Visitor α}
    (latched : (visitorReads compSize inner b visit).2.overflowed = true) :
    ∃ hit, emitStream name compSize inner b visit = .error hit := by
  unfold emitStream
  simp only [latched, if_true]
  split
  · exact ⟨_, rfl⟩
  · exact ⟨_, rfl⟩

/-- Where every read is fair, a member is handed over as promised exactly when
the product of its size and the ratio does not saturate, or not everything may
be scanned. -/
theorem emitted_iff {α : Type} {name : String} {compSize : Nat}
    {inner : Source UInt8} {b : ScanBudget} {visit : Visitor α}
    (typed : b.limits.maxScannedBytes ≤ u64Max)
    (steady : Steady (BudgetReader.new inner (streamCap compSize b))
      visit.sizes) :
    Emitted name compSize inner b visit ↔
      compSize = 0 ∨ RatioFits compSize b ∨ b.remainingScan < u64Max := by
  constructor
  · intro promised
    exact (streamCap_eq_iff typed).mp promised.cap
  · intro plain
    have start := delivered_new inner (streamCap compSize b)
    have whole : Delivered (rest inner)
        (deliveredBy (visitorReads compSize inner b visit).1)
        (visitorReads compSize inner b visit).2 := start.reads steady
    refine ⟨(streamCap_eq_iff typed).mpr plain, whole.prefix_content, ?_, ?_, ?_⟩
    · have within := whole.within
      rwa [visitorReads, BudgetReader.reads_cap] at within
    · intro before size after one asked
      exact (start.each_read steady one).1 rfl asked
    · intro before size got after one full longer
      refine ((start.each_read steady one).2 full longer).imp_right ?_
      exact emitStream_overflowed

/-- A bomb of five bytes under a cap of three, read in twos. -/
theorem emitted_bomb :
    Emitted "m" 0 [.window 1 [2, 3], .window 4 [5]] ⟨⟨3, 100⟩, 0⟩
      (⟨[2, 2, 0], fun _ => some (), id⟩ : Visitor Unit) := by
  refine (emitted_iff (by decide) ?_).mpr (Or.inl rfl)
  refine ⟨⟨?_, ?_⟩, ⟨?_, ?_⟩, ⟨?_, ?_⟩, trivial⟩ <;> decide

/-- A read into an empty buffer latches the end of the file: the next read
reports it with all three bytes undelivered. -/
theorem emitted_empty_buffer :
    ¬Emitted "m" 0 [.window 1 [2, 3]] ⟨⟨100, 100⟩, 0⟩
      (⟨[0, 5], fun _ => some (), id⟩ : Visitor Unit) := by
  intro promised
  have undelivered := promised.ended [(0, .bytes [])] 5 [] (by decide)
    (by decide)
  simp [rest_window] at undelivered

end Exav.Unpack
