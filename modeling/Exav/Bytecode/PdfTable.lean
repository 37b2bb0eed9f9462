import Exav.Bytecode.Api
import Exav.Lib.Numeral
import Exav.Source.Reads

/-!
# Numbers in a file

A program's API reads numbers out of the file: the object table backwards from
a marker, a window at a time, with the power of ten capped and an overflow
latched; `read_number` forwards from the cursor over whatever chunks come.
Both give what the digits write, or 0 where the type has no room for it.
-/

namespace Exav.Bytecode

set_option maxRecDepth 8192

open Source Visit

/-! ## Digits in the file -/

/-- A digit's value. -/
def digitOf (b : UInt8) : Nat :=
  ((hexNibble b).getD 0).toNat

/-- The number some digits write, 0 where it is `bound` or more. -/
def numeral (radix bound : Nat) (digits : Bytes) : Nat :=
  let number := Nat.ofDigits radix (digits.map digitOf).reverse
  if number < bound then number else 0

/-- The run of digits that ends at `stop`, the last one first. -/
def runBefore (data : Bytes) (stop : Nat) : Bytes :=
  (data.take stop).reverse.takeWhile isDigit

theorem digitOf_spec {b : UInt8} (digit : isDigit b = true) :
    (b - 48).toNat = digitOf b ∧ digitOf b < 10 := by
  revert b
  apply forall_byte
  decide

theorem length_runBefore (data : Bytes) (stop : Nat) :
    (runBefore data stop).length ≤ stop := by
  have short := (List.takeWhile_prefix (l := (data.take stop).reverse)
    isDigit).length_le
  rw [List.length_reverse, List.length_take] at short
  exact short.trans (Nat.min_le_left _ _)

/-! ## Backwards -/

/-- `digits_before` between two digits. -/
structure Reading where
  value : Nat
  overflow : Bool
  /-- 10 to the power of the digits read so far, until it is past the bound. -/
  scale : Option Nat

namespace Reading

/-- Multiplication of 64-bit numbers, where it has a result. -/
def checkedMul (a b : Nat) : Option Nat :=
  if a * b < 2 ^ 64 then some (a * b) else none

def digit (r : Reading) (b : UInt8) : Reading :=
  let d := (b - 48).toNat
  let read :=
    if d ≠ 0 then
      match r.scale with
      | some s =>
          let value := r.value + d * s
          { r with value, overflow := r.overflow || decide (value > 2 ^ 32 - 1) }
      | none => { r with overflow := true }
    else r
  { read with scale := (r.scale.bind (checkedMul · 10)).filter (· ≤ 2 ^ 40) }

/-- The value as a 32-bit number. -/
def result (r : Reading) : Nat :=
  if r.overflow then 0 else r.value % 2 ^ 32

/-- Read the bytes of a window, the last one first, up to one that is no digit;
how many stand before that one. -/
def back : Reading → Bytes → Reading × Option Nat
  | r, [] => (r, none)
  | r, b :: before =>
      if !isDigit b then (r, some before.length) else (r.digit b).back before

structure After (r : Reading) (digits : List Nat) : Prop where
  value : r.value = Nat.ofDigits 10 (digits.take 13)
  overflow : r.overflow = true ↔ 2 ^ 32 ≤ Nat.ofDigits 10 digits
  scale : r.scale =
    if digits.length ≤ 12 then some (10 ^ digits.length) else none

theorem After.result {r : Reading} {digits : List Nat} (after : r.After digits) :
    r.result =
      if Nat.ofDigits 10 digits < 2 ^ 32 then Nat.ofDigits 10 digits else 0 := by
  rw [Reading.result]
  by_cases small : Nat.ofDigits 10 digits < 2 ^ 32
  · have whole := @Numeral.ofDigits_take 10 13 digits (by omega)
    have calm : ¬r.overflow = true := by
      rw [after.overflow]
      omega
    rw [if_neg calm, if_pos small, after.value, whole, Nat.mod_eq_of_lt small]
  · rw [if_pos (after.overflow.mpr (by omega)), if_neg small]

/-- The powers that are kept: up to the twelfth. -/
theorem next_scale (count : Nat) :
    ((if count ≤ 12 then some (10 ^ count) else none).bind
        (checkedMul · 10)).filter (· ≤ 2 ^ 40) =
      if count + 1 ≤ 12 then some (10 ^ (count + 1)) else none := by
  by_cases kept : count ≤ 12
  · interval_cases count <;> decide
  · rw [if_neg kept, if_neg (by omega)]
    rfl

theorem digit_kept {r : Reading} {b : UInt8} {s : Nat}
    (is_digit : isDigit b = true) (kept : r.scale = some s) :
    (r.digit b).value = r.value + digitOf b * s ∧
      ((r.digit b).overflow = true ↔ r.overflow = true ∨
        digitOf b ≠ 0 ∧ 2 ^ 32 ≤ r.value + digitOf b * s) := by
  rw [digit, (digitOf_spec is_digit).1, kept]
  by_cases zero : digitOf b = 0
  · simp [zero]
  · simp only [ne_eq, zero, not_false_eq_true, if_true, true_and,
      Bool.or_eq_true, decide_eq_true_eq]
    exact or_congr Iff.rfl (by omega)

theorem digit_past {r : Reading} {b : UInt8} (is_digit : isDigit b = true)
    (past : r.scale = none) :
    (r.digit b).value = r.value ∧
      ((r.digit b).overflow = true ↔ r.overflow = true ∨ digitOf b ≠ 0) := by
  rw [digit, (digitOf_spec is_digit).1, past]
  by_cases zero : digitOf b = 0
  · simp [zero]
  · simp [zero]

theorem After.digit {r : Reading} {digits : List Nat} {b : UInt8}
    (after : r.After digits) (is_digit : isDigit b = true) :
    (r.digit b).After (digits ++ [digitOf b]) := by
  have number := Numeral.ofDigits_snoc 10 digits (digitOf b)
  have scale : (r.digit b).scale =
      if digits.length + 1 ≤ 12 then some (10 ^ (digits.length + 1))
      else none := by
    rw [← next_scale, ← after.scale]
    rfl
  have lowest := after.value
  have latched := after.overflow
  have here := after.scale
  by_cases kept : digits.length ≤ 12
  · rw [if_pos kept] at here
    obtain ⟨value, overflow⟩ := digit_kept is_digit here
    rw [List.take_of_length_le (by omega)] at lowest
    refine ⟨?_, ?_, ?_⟩
    · rw [value, List.take_of_length_le (by simp; omega), number, lowest]
    · rw [overflow, latched, number, lowest]
      by_cases zero : digitOf b = 0
      · simp [zero]
      · omega
    · rw [scale, List.length_append, List.length_singleton]
  · rw [if_neg kept] at here
    obtain ⟨value, overflow⟩ := digit_past is_digit here
    refine ⟨?_, ?_, ?_⟩
    · rw [value, List.take_append_of_le_length (by omega), lowest]
    · have large : 10 ^ 13 ≤ 10 ^ digits.length :=
        Nat.pow_le_pow_right (by decide) (by omega)
      rw [overflow, latched, number]
      by_cases zero : digitOf b = 0
      · simp [zero]
      · have past := Nat.le_mul_of_pos_left (10 ^ digits.length)
          (Nat.pos_of_ne_zero zero)
        omega
    · rw [scale, List.length_append, List.length_singleton]

/-- A window is read up to the start of the run that ends it. -/
theorem After.back {r : Reading} {digits : List Nat} (after : r.After digits)
    (bytes : Bytes) :
    (r.back bytes).1.After
        (digits ++ (bytes.takeWhile isDigit).map digitOf) ∧
      (r.back bytes).2 =
        if (bytes.takeWhile isDigit).length = bytes.length then none
        else some (bytes.length - (bytes.takeWhile isDigit).length - 1) := by
  induction bytes generalizing r digits with
  | nil =>
      refine ⟨?_, rfl⟩
      rwa [Reading.back, List.takeWhile_nil, List.map_nil, List.append_nil]
  | cons b before ih =>
      rw [Reading.back]
      cases is_digit : isDigit b with
      | false =>
          rw [List.takeWhile_cons_of_neg (by simp [is_digit])]
          refine ⟨?_, ?_⟩
          · simpa using after
          · simp
      | true =>
          rw [List.takeWhile_cons_of_pos is_digit]
          obtain ⟨read, ended⟩ := ih (after.digit is_digit)
          refine ⟨?_, ?_⟩
          · simpa using read
          · have more : before.length + 1 -
                ((before.takeWhile isDigit).length + 1) =
              before.length - (before.takeWhile isDigit).length := by omega
            simpa [more] using ended

theorem after_start : After ⟨0, false, some 1⟩ [] := by
  refine ⟨rfl, ?_, rfl⟩
  simp

end Reading

section

variable {σ : Type} {src : ByteSource σ} {inv : σ → Prop} {data : Bytes}

/-- Windows before `start`, each twice the one before. -/
def digitsBeforeFrom (src : ByteSource σ) (start span : Nat)
    (positive : 0 < span) (r : Reading) : StateM σ (Nat × Nat) := do
  let low := start - span
  let w ← src.read low (start - low)
  if w.length ≠ start - low then pure (start, r.result)
  else
    match r.back w.reverse with
    | (r, some k) => pure (low + k + 1, r.result)
    | (r, none) =>
        if low = 0 then pure (0, r.result)
        else
          digitsBeforeFrom src low (min (span * 2) chunkBytes)
            (by have chunk := chunkBytes_pos; omega) r
  termination_by start
  decreasing_by omega

/-- Where the run of digits that ends at `stop` starts, and its value. -/
def digitsBefore (src : ByteSource σ) (stop : Nat) : StateM σ (Nat × Nat) :=
  digitsBeforeFrom src stop 64 (by decide) ⟨0, false, some 1⟩

/-- The run that ends at `start`, from the bytes before it down to `low` and what
stands before those. -/
theorem runBefore_window {low start : Nat} (ordered : low ≤ start) :
    runBefore data start =
      let nearest := (Exav.window data low (start - low)).reverse
      if (nearest.takeWhile isDigit).length = nearest.length then
        nearest ++ runBefore data low
      else nearest.takeWhile isDigit := by
  have parted : data.take start =
      data.take low ++ Exav.window data low (start - low) := by
    rw [Exav.window, ← List.take_add, Nat.add_sub_cancel' ordered]
  rw [runBefore, parted, List.reverse_append, List.takeWhile_append]
  rfl

theorem digitsBeforeFrom_yields (reads : Reads src inv data)
    {start span : Nat} (positive : 0 < span) {r : Reading} {digits : List Nat}
    (inside : start ≤ data.length) (after : r.After digits) :
    Yields inv (digitsBeforeFrom src start span positive r) fun got =>
      got.1 = start - (runBefore data start).length ∧
        ∃ read : Reading, got.2 = read.result ∧
          read.After (digits ++ (runBefore data start).map digitOf) := by
  induction start using Nat.strong_induction_on generalizing span r digits with
  | _ start ih =>
      rw [digitsBeforeFrom]
      refine .bind (read_yields reads _ _) fun w got => ?_
      subst got
      have size := @length_window_of_le data (start - span)
        (start - (start - span)) (by omega)
      have split := @runBefore_window data (start - span) start (by omega)
      have nearby := (List.takeWhile_prefix (l := (Exav.window data
        (start - span) (start - (start - span))).reverse) isDigit).length_le
      rw [if_neg (by omega)]
      obtain ⟨read, ended⟩ := after.back
        (Exav.window data (start - span) (start - (start - span))).reverse
      rw [← List.length_reverse] at size
      generalize (Exav.window data (start - span)
        (start - (start - span))).reverse = nearest at *
      generalize r.back nearest = result at *
      obtain ⟨r', stopped⟩ := result
      dsimp only at *
      subst ended
      by_cases whole : (nearest.takeWhile isDigit).length = nearest.length
      · have all := (List.takeWhile_prefix (l := nearest) isDigit).eq_of_length
          whole
        rw [if_pos whole] at split ⊢
        rw [all] at read
        refine .ite (fun bottom => .pure _ ?_) fun more => ?_
        · have nothing : runBefore data 0 = [] := rfl
          rw [split, bottom, nothing, List.append_nil]
          exact ⟨by omega, r', rfl, read⟩
        · refine (ih (start - span) (by omega) _ (by omega) read).weaken ?_
          intro got found
          obtain ⟨first, final, value, reached⟩ := found
          have short := length_runBefore data (start - span)
          rw [split]
          refine ⟨?_, final, value, ?_⟩
          · rw [first, List.length_append]
            omega
          · rwa [List.map_append, ← List.append_assoc]
      · rw [if_neg whole] at split ⊢
        refine .pure _ ?_
        rw [split]
        exact ⟨by omega, r', rfl, read⟩

theorem digitsBefore_yields (reads : Reads src inv data) {stop : Nat}
    (inside : stop ≤ data.length) :
    Yields inv (digitsBefore src stop)
      (· = (stop - (runBefore data stop).length,
        numeral 10 (2 ^ 32) (runBefore data stop).reverse)) := by
  refine (digitsBeforeFrom_yields reads (by decide) inside
    Reading.after_start).weaken ?_
  intro got found
  obtain ⟨first, read, value, after⟩ := found
  refine Prod.ext first ?_
  rw [value, after.result, numeral, List.map_reverse, List.reverse_reverse,
    List.nil_append]

end

/-! ## Forwards -/

def isDigitOf (radix : Nat) (b : UInt8) : Bool :=
  isDigit b || (radix = 16 && (hexNibble b).isSome)

/-- A number in the range of an `i64`. -/
def checked (n : Nat) : Option Nat :=
  if n < 2 ^ 63 then some n else none

/-- `read_number` between two bytes. -/
structure Scan where
  value : Option Nat
  started : Bool
  stop : Option Nat

def Scan.step (radix : Nat) (scan : Scan) (b : UInt8 × Nat) : Scan × Bool :=
  if isDigitOf radix b.1 then
    let value := (scan.value.bind fun v => checked (v * radix)).bind fun v =>
      checked (v + digitOf b.1)
    ({ scan with started := true, value }, true)
  else if scan.started then ({ scan with stop := some b.2 }, false)
  else (scan, true)

def readNumberFrom {σ : Type} (src : ByteSource σ) (radix cursor : Nat) :
    StateM σ (Int × Nat) := do
  let scan ← visit src cursor src.len (eachByte (Scan.step radix))
    ⟨some 0, false, none⟩
  if !scan.started then pure (-1, cursor)
  else pure (((scan.value.getD 0 : Nat) : Int), scan.stop.getD src.len)

def numberAt (data : Bytes) (radix cursor : Nat) : Int × Nat :=
  let run := digitRun radix (data.drop cursor)
  if run.2 = [] then (-1, cursor)
  else ((numeral radix (2 ^ 63) run.2 : Nat), cursor + run.1 + run.2.length)

theorem numeral_eq_parse {radix bound : Nat} (some_radix : 0 < radix)
    (some_bound : 0 < bound) (digits : Bytes) :
    numeral radix bound digits =
      (Numeral.parse radix bound (digits.map digitOf)).getD 0 := by
  rw [numeral, Numeral.parse_eq some_radix some_bound]
  split <;> rfl

theorem digitRun_cons (radix : Nat) (b : UInt8) (bytes : Bytes) :
    digitRun radix (b :: bytes) =
      if isDigitOf radix b then (0, b :: bytes.takeWhile (isDigitOf radix))
      else ((digitRun radix bytes).1 + 1, (digitRun radix bytes).2) := by
  have unfolded : ∀ bytes : Bytes, digitRun radix bytes =
      ((bytes.takeWhile fun b => !isDigitOf radix b).length,
        (bytes.drop (bytes.takeWhile fun b => !isDigitOf radix b).length).takeWhile
          (isDigitOf radix)) := fun _ => rfl
  rw [unfolded, unfolded]
  cases digit : isDigitOf radix b <;> simp [digit]

theorem length_digitRun (radix : Nat) (bytes : Bytes) :
    (digitRun radix bytes).1 + (digitRun radix bytes).2.length ≤
      bytes.length := by
  induction bytes with
  | nil => exact le_rfl
  | cons b bytes ih =>
      have short := (List.takeWhile_prefix (l := bytes)
        (isDigitOf radix)).length_le
      rw [digitRun_cons]
      split
      · simp only [List.length_cons]
        omega
      · simp only [List.length_cons]
        omega

/-- A digit read into a number that may be past the bound already. -/
def readDigit (radix : Nat) (value : Option Nat) (b : UInt8) : Option Nat :=
  value.bind fun v =>
    if v * radix + digitOf b < 2 ^ 63 then some (v * radix + digitOf b)
    else none

theorem step_digit {radix : Nat} {b : UInt8} (digit : isDigitOf radix b = true)
    (scan : Scan) (place : Nat) :
    scan.step radix (b, place) =
      ({ scan with started := true, value := readDigit radix scan.value b },
        true) := by
  have value : ((scan.value.bind fun v => checked (v * radix)).bind fun v =>
      checked (v + digitOf b)) = readDigit radix scan.value b := by
    cases scan.value with
    | none => rfl
    | some v =>
        simp only [Option.bind_some, checked, readDigit]
        by_cases small : v * radix < 2 ^ 63
        · rw [if_pos small, Option.bind_some]
        · rw [if_neg small, if_neg (by omega), Option.bind_none]
  rw [Scan.step, if_pos digit]
  dsimp only
  rw [value]

theorem visitAll_started (radix : Nat) (value : Option Nat) (bytes : Bytes)
    (start : Nat) :
    (visitAll (Scan.step radix) ⟨value, true, none⟩ (bytes.zipIdx start)).1 =
      let run := bytes.takeWhile (isDigitOf radix)
      ⟨run.foldl (readDigit radix) value, true,
        if run.length = bytes.length then none
        else some (start + run.length)⟩ := by
  induction bytes generalizing value start with
  | nil => rfl
  | cons b bytes ih =>
      rw [List.zipIdx_cons, visitAll_cons]
      cases digit : isDigitOf radix b with
      | false => simp [Scan.step, digit]
      | true =>
          rw [step_digit digit, if_pos rfl, ih,
            List.takeWhile_cons_of_pos digit]
          have place : start + 1 + (bytes.takeWhile (isDigitOf radix)).length =
              start + ((bytes.takeWhile (isDigitOf radix)).length + 1) := by
            omega
          simp [place]

theorem visitAll_scan (radix : Nat) (bytes : Bytes) (start : Nat) :
    (visitAll (Scan.step radix) ⟨some 0, false, none⟩ (bytes.zipIdx start)).1 =
      let run := digitRun radix bytes
      if run.2 = [] then ⟨some 0, false, none⟩
      else
        ⟨Numeral.parse radix (2 ^ 63) (run.2.map digitOf), true,
          if run.1 + run.2.length = bytes.length then none
          else some (start + run.1 + run.2.length)⟩ := by
  induction bytes generalizing start with
  | nil => rfl
  | cons b bytes ih =>
      rw [List.zipIdx_cons, visitAll_cons, digitRun_cons]
      cases digit : isDigitOf radix b with
      | false =>
          have stays : Scan.step radix ⟨some 0, false, none⟩ (b, start) =
              (⟨some 0, false, none⟩, true) := by
            simp [Scan.step, digit]
          rw [stays, if_pos rfl, ih]
          have place : start + 1 + (digitRun radix bytes).1 +
              (digitRun radix bytes).2.length =
              start + ((digitRun radix bytes).1 + 1) +
                (digitRun radix bytes).2.length := by
            omega
          have ended : (digitRun radix bytes).1 +
              (digitRun radix bytes).2.length = bytes.length ↔
              (digitRun radix bytes).1 + 1 +
                (digitRun radix bytes).2.length = bytes.length + 1 := by
            omega
          simp [place, ended]
      | true =>
          rw [step_digit digit, if_pos rfl, visitAll_started]
          have place : start + 1 + (bytes.takeWhile (isDigitOf radix)).length =
              start + ((bytes.takeWhile (isDigitOf radix)).length + 1) := by
            omega
          simp only [if_true, reduceCtorEq, if_false, List.length_cons,
            List.map_cons, Nat.zero_add, Nat.add_zero, Nat.add_right_cancel_iff,
            place, Numeral.parse, List.foldl_cons, List.foldl_map]
          rfl

theorem readNumberFrom_yields {σ : Type} {src : ByteSource σ} {inv : σ → Prop}
    {data : Bytes} (reads : Reads src inv data) {radix : Nat}
    (some_radix : 0 < radix) (cursor : Nat) :
    Yields inv (readNumberFrom src radix cursor)
      (· = numberAt data radix cursor) := by
  refine .bind (visit_yields reads _ _ _ _) fun scan got => ?_
  have rest : stretch data cursor src.len = data.drop cursor := by
    rw [stretch, reads.len, Nat.min_self, Exav.window, List.take_of_length_le]
    rw [List.length_drop]
  rw [rest, visitAll_scan] at got
  rw [numberAt]
  subst got
  by_cases nothing : (digitRun radix (data.drop cursor)).2 = []
  · simp only [if_pos nothing]
    exact .pure _ rfl
  · simp only [if_neg nothing]
    refine .pure _ ?_
    rw [numeral_eq_parse some_radix (by decide)]
    have whole := List.length_drop (i := cursor) (l := data)
    have some_digits := List.length_pos_iff.mpr nothing
    have short := length_digitRun radix (data.drop cursor)
    refine Prod.ext rfl ?_
    dsimp only
    split
    case isTrue ended =>
      rw [Option.getD_none, reads.len]
      omega
    case isFalse more => rw [Option.getD_some]

/-!
## The object table of a document

Objects are marked `<id> <generation> obj`.  The table is read from a source by
searching for the marker and walking back from it; `listed` says what it holds
of the bytes: the first objects, each with its id and start.  A start is kept
in 32 bits, and the table is sorted by what is kept.
-/

open Source

/-- ` obj`. -/
def marker : Bytes := [32, 111, 98, 106]

/-- Objects a table holds. -/
def maxObjects : Nat := 8192

def byStart (objs : List (Nat × Nat)) : List (Nat × Nat) :=
  objs.mergeSort fun a b => decide (a.2 ≤ b.2)

/-! ## The table of a source -/

section

variable {σ : Type} (src : ByteSource σ)

/-- The object whose marker is at `pos`: its id and where it starts. -/
def objectBefore (pos : Nat) : StateM σ (Option (Nat × Nat)) := do
  let (i, _) ← digitsBefore src pos
  if i = pos ∨ i = 0 then pure none
  else do
    let gap ← src.read (i - 1) 1
    if gap ≠ [32] then pure none
    else do
      let idEnd := i - 1
      let (i, id) ← digitsBefore src idEnd
      if i = idEnd then pure none else pure (some (id, i))

/-- Search on from `start`, as often as there are rounds. -/
def objectsFrom : Nat → Nat → List (Nat × Nat) → StateM σ (List (Nat × Nat))
  | 0, _, objs => pure objs
  | rounds + 1, start, objs => do
      match ← src.search marker start src.len with
      | none => pure objs
      | some pos =>
          match ← objectBefore src pos with
          | none => objectsFrom rounds (pos + 1) objs
          | some (id, i) =>
              let objs := objs ++ [(id, i % 2 ^ 32)]
              if objs.length ≥ maxObjects then pure objs
              else objectsFrom rounds (pos + 1) objs

def pdfCtx : StateM σ PdfCtx := do
  let objs ← objectsFrom src (src.len + 1) 0 []
  pure ⟨byStart objs, min src.len (2 ^ 32 - 1)⟩

end

/-! ## The table of the bytes -/

/-- The id and the start of the object whose marker is at `pos`, if that is
what stands before it. -/
def objectAt (data : Bytes) (pos : Nat) : Option (Nat × Nat) :=
  let gen := runBefore data pos
  let space := pos - gen.length - 1
  let id := runBefore data space
  if gen = [] ∨ gen.length = pos ∨ data[space]? ≠ some 32 ∨ id = [] then none
  else some (numeral 10 (2 ^ 32) id.reverse, space - id.length)

/-- Where the marker stands, from `start` on. -/
def markersFrom (data : Bytes) (start : Nat) : List Nat :=
  (List.range' start (data.length - start)).filter (occursAt data marker)

/-- The objects of the table, as they come. -/
def listed (data : Bytes) : List (Nat × Nat) :=
  ((markersFrom data 0).filterMap (objectAt data)).take maxObjects

/-- What the table keeps of an object: the start in 32 bits. -/
def kept (object : Nat × Nat) : Nat × Nat :=
  (object.1, object.2 % 2 ^ 32)

def pdfTable (data : Bytes) : PdfCtx :=
  ⟨byStart ((listed data).map kept), min data.length (2 ^ 32 - 1)⟩

section

variable {σ : Type} {src : ByteSource σ} {inv : σ → Prop} {data : Bytes}

theorem objectBefore_yields (reads : Reads src inv data) {pos : Nat}
    (inside : pos ≤ data.length) :
    Yields inv (objectBefore src pos) (· = objectAt data pos) := by
  refine .bind (digitsBefore_yields reads inside) fun gen got => ?_
  subst got
  have short := length_runBefore data pos
  have blank : runBefore data pos = [] ↔ (runBefore data pos).length = 0 :=
    List.length_eq_zero_iff.symm
  rw [objectAt]
  dsimp only
  refine .ite (fun bare => .pure _ ?_) fun led => ?_
  · rw [if_pos]
    rw [blank]
    rcases bare with here | bottom
    · exact .inl (by omega)
    · exact .inr (.inl (by omega))
  refine .bind (read_yields reads _ _) fun gap got => ?_
  subst got
  have place : pos - (runBefore data pos).length - 1 < data.length := by omega
  have one : Exav.window data (pos - (runBefore data pos).length - 1) 1 =
      [data[pos - (runBefore data pos).length - 1]] := by
    rw [Exav.window, List.drop_eq_getElem_cons place]
    rfl
  rw [one, List.getElem?_eq_getElem place]
  simp only [ne_eq, List.cons.injEq, and_true, Option.some.injEq]
  refine .ite (fun apart => .pure _ ?_) fun joined => ?_
  · rw [if_pos (by tauto)]
  refine .bind (digitsBefore_yields reads (by omega)) fun id got => ?_
  subst got
  have fits := length_runBefore data (pos - (runBefore data pos).length - 1)
  have empty : runBefore data (pos - (runBefore data pos).length - 1) = [] ↔
      (runBefore data (pos - (runBefore data pos).length - 1)).length = 0 :=
    List.length_eq_zero_iff.symm
  refine .ite (fun bare => .pure _ ?_) fun named => .pure _ ?_
  · rw [if_pos]
    rw [empty]
    exact .inr (.inr (.inr (by omega)))
  · rw [if_neg]
    rw [blank, empty]
    rintro (no_gen | bottom | apart | no_id)
    · omega
    · omega
    · exact joined apart
    · omega

/-- The markers from `start` on, by the next one found. -/
theorem markersFrom_find (data : Bytes) (start : Nat) :
    markersFrom data start =
      match Exav.find data marker start data.length with
      | none => []
      | some pos => pos :: markersFrom data (pos + 1) := by
  cases found : Exav.find data marker start data.length with
  | none =>
      apply List.filter_eq_nil_iff.mpr
      intro q member occurs
      rw [List.mem_range'_1] at member
      have fits := occursAt_fits occurs (by decide)
      rw [find_eq_none found q (by omega) fits fits] at occurs
      cases occurs
  | some pos =>
      obtain ⟨above, fits, occurs, first⟩ := find_eq_some found
      have size : marker.length = 4 := rfl
      have parted : List.range' start (data.length - start) =
          List.range' start (pos - start) ++
            pos :: List.range' (pos + 1) (data.length - (pos + 1)) := by
        have later : data.length - pos = data.length - (pos + 1) + 1 := by
          omega
        have all : data.length - start =
            pos - start + (data.length - pos) := by
          omega
        rw [all, ← List.range'_append_1, Nat.add_sub_cancel' above, later,
          List.range'_succ]
      have none_before :
          (List.range' start (pos - start)).filter (occursAt data marker) =
            [] := by
        apply List.filter_eq_nil_iff.mpr
        intro q member
        rw [List.mem_range'_1] at member
        simp [first q (by omega) (by omega)]
      rw [markersFrom, parted, List.filter_append, none_before,
        List.nil_append, List.filter_cons_of_pos occurs]
      rfl

theorem objectsFrom_yields (reads : Reads src inv data) {rounds start : Nat}
    {objs : List (Nat × Nat)} (enough : data.length < start + rounds)
    (room : objs.length < maxObjects) :
    Yields inv (objectsFrom src rounds start objs)
      (· = objs ++ (((markersFrom data start).filterMap (objectAt data)).take
        (maxObjects - objs.length)).map kept) := by
  induction rounds generalizing start objs with
  | zero =>
      refine .pure _ ?_
      have past : data.length - start = 0 := by omega
      rw [markersFrom, past]
      simp
  | succ rounds ih =>
      refine .bind (search_yields reads marker start _) fun found got => ?_
      rw [reads.len] at got
      rw [markersFrom_find, ← got]
      cases found with
      | none => exact .pure _ (by simp)
      | some pos =>
          obtain ⟨above, fits, _, _⟩ := find_eq_some got.symm
          refine .bind (objectBefore_yields reads (by omega)) fun object got => ?_
          dsimp only
          rw [List.filterMap_cons, ← got]
          cases object with
          | none => exact ih (by omega) room
          | some object =>
              have one_more : maxObjects - objs.length =
                maxObjects - (objs.length + 1) + 1 := by omega
              dsimp only
              rw [one_more, List.take_succ_cons, List.map_cons]
              refine .ite (fun full => .pure _ ?_) fun more => ?_
              · rw [List.length_append, List.length_singleton] at full
                have last : maxObjects - (objs.length + 1) = 0 := by omega
                rw [last, List.take_zero, List.map_nil]
                rfl
              · rw [List.length_append, List.length_singleton] at more
                refine (ih (by omega) (by
                  rw [List.length_append, List.length_singleton]
                  omega)).weaken fun got is => ?_
                rw [is, List.length_append, List.length_singleton,
                  List.append_assoc]
                rfl

theorem pdfCtx_yields (reads : Reads src inv data) :
    Yields inv (pdfCtx src) (· = pdfTable data) := by
  rw [pdfCtx, reads.len]
  refine .bind (objectsFrom_yields reads (by omega) (by decide))
    fun objs got => .pure _ ?_
  subst got
  rfl

end

theorem byStart_sorted (objs : List (Nat × Nat)) :
    (byStart objs).Pairwise (·.2 ≤ ·.2) := by
  have sorted := @List.pairwise_mergeSort _
    (fun a b : Nat × Nat => decide (a.2 ≤ b.2))
    (by simp only [decide_eq_true_eq]; omega)
    (by simp only [Bool.or_eq_true, decide_eq_true_eq]; omega) objs
  exact sorted.imp (by simp)

/-- The object table and the numbers a program reads are those of the bytes,
whichever blocks are held of a source that delivers them and whatever part of
it is in view; bytes in memory give the same. -/
theorem delivered_objects_and_numbers {src : Seekable} {data : Bytes}
    (delivers : Delivers src data) (block capacity : Nat) (view : View) :
    let cache := BlockCache.withSizes src data.length block capacity
    let blocks := view.source cache.source
    let bytes := view.bytes data
    Yields (Sound cache data) (pdfCtx blocks) (· = pdfTable bytes) ∧
      Yields (fun _ => True) (pdfCtx (slice bytes)) (· = pdfTable bytes) ∧
      (pdfTable bytes).objs.Pairwise (·.2 ≤ ·.2) ∧
      ∀ radix, radix = 10 ∨ radix = 16 → ∀ cursor,
        Yields (Sound cache data) (readNumberFrom blocks radix cursor)
          (· = numberAt bytes radix cursor) ∧
        Yields (fun _ => True) (readNumberFrom (slice bytes) radix cursor)
          (· = numberAt bytes radix cursor) := by
  have cached := over_withSizes delivers block capacity
  have blocks := (serves_view (BlockCache.serves cached) view).reads
  have whole := reads_slice (view.bytes data)
  refine ⟨pdfCtx_yields blocks, pdfCtx_yields whole, byStart_sorted _, ?_⟩
  intro radix allowed cursor
  have some_radix : 0 < radix := by omega
  exact ⟨readNumberFrom_yields blocks some_radix cursor,
    readNumberFrom_yields whole some_radix cursor⟩

/-- Two objects read through blocks of two bytes. -/
theorem delivered_objects_and_numbers_short :
    Yields (Sound (BlockCache.withSizes (cursor [49, 32, 48, 32, 111, 98, 106])
        7 2 4) [49, 32, 48, 32, 111, 98, 106])
      (pdfCtx (BlockCache.withSizes (cursor [49, 32, 48, 32, 111, 98, 106])
        7 2 4).source)
      (· = pdfTable [49, 32, 48, 32, 111, 98, 106]) :=
  (delivered_objects_and_numbers
    (delivers_cursor [49, 32, 48, 32, 111, 98, 106]) 2 4 .whole).1

/-! ## An object far into a file -/

def farObject (blanks : Nat) : Bytes :=
  List.replicate blanks 32 ++ [49, 32, 48, 32, 111, 98, 106]

theorem markersFrom_farObject (blanks : Nat) :
    markersFrom (farObject blanks) 0 = [blanks + 3] := by
  have size : (farObject blanks).length = blanks + 7 := by simp [farObject]
  have found : Exav.find (farObject blanks) marker 0 (farObject blanks).length =
      some (blanks + 3) := by
    refine find_eq_some_iff.mpr ⟨Nat.zero_le _, ?_, ?_, ?_⟩
    · rw [size, Nat.min_self]
      exact le_rfl
    · simp [occursAt, Exav.window, farObject, marker, List.drop_append]
    · intro r _ before
      by_contra occurs
      have letter := occursAt_iff_getElem?.mp (by simpa using occurs) 1 (by decide)
      rw [farObject, List.getElem?_append] at letter
      split at letter
      · simp_all [marker]
      · rw [List.length_replicate] at letter
        have near : r + 1 - blanks < 4 := by omega
        generalize r + 1 - blanks = place at letter near
        interval_cases place <;> cases letter
  have missing : Exav.find (farObject blanks) marker (blanks + 3 + 1)
      (farObject blanks).length = none := by
    rw [Exav.find, if_pos]
    rw [size, Nat.min_self, marker]
    simp only [List.length_cons, List.length_nil]
    omega
  rw [markersFrom_find, found]
  dsimp only
  rw [markersFrom_find, missing]

theorem objectAt_farObject (blanks : Nat) :
    objectAt (farObject blanks) (blanks + 3) = some (1, blanks) := by
  have generation : runBefore (farObject blanks) (blanks + 3) = [48] := by
    simp [runBefore, farObject, List.take_append, isDigit]
  have id : runBefore (farObject blanks) (blanks + 1) = [49] := by
    simp [runBefore, farObject, List.take_append, isDigit]
  have space : (farObject blanks)[blanks + 1]? = some 32 := by
    simp [farObject]
  have place : blanks + 3 - [(48 : UInt8)].length - 1 = blanks + 1 := by simp
  have number : numeral 10 (2 ^ 32) [(49 : UInt8)].reverse = 1 := by decide
  rw [objectAt, generation, place, id, space, number, if_neg (by simp)]
  simp

/-- Past 32 bits the table holds another start. -/
theorem not_byStart_farObject :
    ((pdfCtx (slice (farObject (2 ^ 32)))).run ()).1.objs ≠
      byStart (listed (farObject (2 ^ 32))) := by
  have table := @Yields.meets Unit _ _ _ _
    (pdfCtx_yields (reads_slice (farObject (2 ^ 32)))) () trivial
  have one : listed (farObject (2 ^ 32)) = [(1, 2 ^ 32)] := by
    rw [listed, markersFrom_farObject, List.filterMap_cons, objectAt_farObject]
    rfl
  rw [table, pdfTable, one]
  simp [byStart, kept]

end Exav.Bytecode
