import Exav.Engine.GapSplit

/-!
# The wide form of a program

In UTF-16LE every byte of a text is followed by a zero.  `widenElems` makes of
a program one for such texts.  A doubled gap admits an odd number of bytes, so
the wide program may leave the character boundaries; `Beside` says that it is
then half a character behind a position of the plain text.  There every
element consumes zero characters only and would do so from the position too,
except for a negated alternation.
-/

namespace Exav.Engine

open Exav.Interval Exav.Visit

/-! ## Widened bytes -/

@[simp] theorem widenBytes_nil : widenBytes [] = [] := rfl

@[simp] theorem widenBytes_cons (b : UInt8) (v : Bytes) :
    widenBytes (b :: v) = b :: 0 :: widenBytes v := rfl

theorem drop_widenBytes (s : Bytes) (p : Nat) :
    (widenBytes s).drop (2 * p) = widenBytes (s.drop p) := by
  induction p generalizing s with
  | zero => simp
  | succ p ih =>
      cases s with
      | nil => simp
      | cons b s =>
          rw [show 2 * (p + 1) = 2 * p + 2 by omega]
          simpa using ih s

theorem take_widenBytes (s : Bytes) (l : Nat) :
    (widenBytes s).take (2 * l) = widenBytes (s.take l) := by
  induction l generalizing s with
  | zero => simp
  | succ l ih =>
      cases s with
      | nil => simp
      | cons b s =>
          rw [show 2 * (l + 1) = 2 * l + 2 by omega]
          simpa using ih s

theorem window_widenBytes (s : Bytes) (p l : Nat) :
    window (widenBytes s) (2 * p) (2 * l) = widenBytes (window s p l) := by
  rw [window, window, drop_widenBytes, take_widenBytes]

theorem byteAt_widenBytes_even (s : Bytes) (i : Nat) :
    byteAt (widenBytes s) (2 * i) = byteAt s i := by
  rw [byteAt_eq, byteAt_eq, ← List.head?_drop, ← List.head?_drop,
    drop_widenBytes]
  cases s.drop i <;> rfl

theorem byteAt_widenBytes_odd (s : Bytes) (i : Nat) :
    byteAt (widenBytes s) (2 * i + 1) = 0 := by
  rw [byteAt_eq, ← List.head?_drop, ← List.drop_drop, drop_widenBytes]
  cases s.drop i <;> rfl

/-- Characters read half a character early. -/
def shiftedBytes (v : Bytes) : Bytes :=
  v.flatMap fun b => [0, b]

@[simp] theorem length_shiftedBytes (v : Bytes) :
    (shiftedBytes v).length = 2 * v.length := by
  simp [shiftedBytes, Nat.mul_comm]

private theorem take_shifted {t : Bytes} {l : Nat} (fits : l ≤ t.length) :
    (0 :: widenBytes t).take (2 * l) = shiftedBytes (t.take l) := by
  induction l generalizing t with
  | zero => rfl
  | succ l ih =>
      cases t with
      | nil => simp at fits
      | cons b t =>
          have rest : l ≤ t.length := by simpa using fits
          rw [show 2 * (l + 1) = 2 * l + 2 by omega]
          simpa [shiftedBytes] using ih rest

theorem window_shifted {s : Bytes} {j l : Nat} (fits : j + 1 + l ≤ s.length) :
    window (widenBytes s) (2 * j + 1) (2 * l) =
      shiftedBytes (window s (j + 1) l) := by
  have here : j < s.length := by omega
  have half : (widenBytes s).drop (2 * j + 1) =
      0 :: widenBytes (s.drop (j + 1)) := by
    rw [← List.drop_drop, drop_widenBytes, List.drop_eq_getElem_cons here]
    rfl
  rw [window, window, half, take_shifted]
  rw [List.length_drop]
  omega

theorem fold_eq_zero {b : UInt8} : fold b = 0 ↔ b = 0 := by
  unfold fold
  split_ifs with upper
  · rw [UInt8.or_eq_zero_iff]
    refine ⟨And.left, fun zero => ?_⟩
    subst zero
    exact absurd upper.1 (by decide)
  · exact Iff.rfl

theorem widenBytes_injective {a b : Bytes}
    (same : widenBytes a = widenBytes b) : a = b := by
  induction a generalizing b with
  | nil =>
      cases b with
      | nil => rfl
      | cons c b => simp at same
  | cons c a ih =>
      cases b with
      | nil => simp at same
      | cons d b =>
          simp only [widenBytes_cons, List.cons.injEq, true_and] at same
          rw [same.1, ih same.2]

theorem lower_widenBytes (v : Bytes) :
    lower (widenBytes v) = widenBytes (lower v) := by
  induction v with
  | nil => rfl
  | cons b v ih =>
      have zero : fold 0 = 0 := fold_eq_zero.mpr rfl
      simp only [lower] at ih
      simp [lower, ih, zero]

theorem haystack_widenBytes (nocase : Bool) (v : Bytes) :
    haystack nocase (widenBytes v) = widenBytes (haystack nocase v) := by
  cases nocase with
  | false => rfl
  | true => exact lower_widenBytes v

theorem bytesEq_widenBytes {a b : Bytes} {nocase : Bool} :
    bytesEq (widenBytes a) (widenBytes b) nocase = bytesEq a b nocase := by
  rw [Bool.eq_iff_iff, bytesEq_iff, bytesEq_iff, haystack_widenBytes,
    haystack_widenBytes]
  exact ⟨widenBytes_injective, congrArg widenBytes⟩

private theorem haystack_cons (nocase : Bool) (b : UInt8) (v : Bytes) :
    haystack nocase (b :: v) =
      (if nocase then fold b else b) :: haystack nocase v := by
  cases nocase <;> rfl

theorem eq_of_bytesEq_shifted {a b : Bytes} {nocase : Bool}
    (equal : bytesEq (shiftedBytes a) (widenBytes b) nocase = true) :
    a = b ∧ ∀ c ∈ a, c = 0 := by
  rw [bytesEq_iff] at equal
  induction a generalizing b with
  | nil =>
      cases b with
      | nil => simp
      | cons c b => cases nocase <;> simp [shiftedBytes, haystack, lower] at equal
  | cons c a ih =>
      cases b with
      | nil => cases nocase <;> simp [shiftedBytes, haystack, lower] at equal
      | cons d b =>
          rw [shiftedBytes, List.flatMap_cons, ← shiftedBytes] at equal
          simp only [List.cons_append, List.nil_append, widenBytes_cons,
            haystack_cons, List.cons.injEq] at equal
          obtain ⟨first, second, rest⟩ := equal
          obtain ⟨rfl, zeros⟩ := ih rest
          have zero : fold 0 = 0 := fold_eq_zero.mpr rfl
          have dZero : d = 0 := by
            cases nocase with
            | false => simpa using first.symm
            | true => simpa [zero, fold_eq_zero] using first.symm
          have cZero : c = 0 := by
            cases nocase with
            | false => simpa using second
            | true => simpa [zero, fold_eq_zero] using second
          rw [cZero, dZero]
          exact ⟨rfl, by simpa using zeros⟩

/-! ## Widened masked branches -/

def widenMasked (o : List (UInt8 × UInt8)) : List (UInt8 × UInt8) :=
  o.flatMap fun pair => [pair, (0, 0xff)]

@[simp] theorem length_widenMasked (o : List (UInt8 × UInt8)) :
    (widenMasked o).length = 2 * o.length := by
  induction o with
  | nil => rfl
  | cons pair o ih =>
      simp only [widenMasked, List.flatMap_cons, List.length_append,
        List.length_cons, List.length_nil] at ih ⊢
      omega

/-- A masked branch against a window that starts with a given byte. -/
theorem maskedEq_cons (v m b : UInt8) (o : List (UInt8 × UInt8)) (hay : Bytes)
    (nocase : Bool) :
    maskedEq ((v, m) :: o) (b :: hay) nocase =
      ((if nocase then fold b else b) &&& m ==
          (if nocase then fold v else v) &&& m && maskedEq o hay nocase) := by
  simp [maskedEq, Bool.and_left_comm]

private theorem maskedEq_zero (b : UInt8) (o : List (UInt8 × UInt8))
    (hay : Bytes) (nocase : Bool) :
    maskedEq ((0, 0xff) :: o) (b :: hay) nocase =
      (b == 0 && maskedEq o hay nocase) := by
  rw [maskedEq_cons, show (0xff : UInt8) = -1 from rfl, UInt8.and_neg_one,
    UInt8.and_neg_one]
  have zero : fold 0 = 0 := fold_eq_zero.mpr rfl
  have same : ((if nocase then fold b else b) ==
      (if nocase then fold 0 else 0)) = (b == 0) := by
    rw [Bool.eq_iff_iff, beq_iff_eq, beq_iff_eq]
    cases nocase with
    | false => rfl
    | true => simp [zero, fold_eq_zero]
  rw [same]

theorem maskedEq_widen {o : List (UInt8 × UInt8)} {hay : Bytes}
    {nocase : Bool} :
    maskedEq (widenMasked o) (widenBytes hay) nocase =
      maskedEq o hay nocase := by
  induction o generalizing hay with
  | nil => cases hay <;> simp [maskedEq, widenMasked]
  | cons pair o ih =>
      cases hay with
      | nil => simp [maskedEq, widenMasked]
      | cons b hay =>
          rw [widenMasked, List.flatMap_cons, ← widenMasked, widenBytes_cons]
          simp only [List.cons_append, List.nil_append]
          rw [maskedEq_cons, maskedEq_zero, ih, maskedEq_cons]
          rfl

/-- A masked branch that matches half a character early matches zeros. -/
theorem maskedEq_of_shifted {o : List (UInt8 × UInt8)} {hay : Bytes}
    {nocase : Bool}
    (equal : maskedEq (widenMasked o) (shiftedBytes hay) nocase = true) :
    maskedEq o hay nocase = true := by
  induction o generalizing hay with
  | nil =>
      cases hay with
      | nil => rfl
      | cons b hay => simp [maskedEq, widenMasked, shiftedBytes] at equal
  | cons pair o ih =>
      cases hay with
      | nil => simp [maskedEq, widenMasked, shiftedBytes] at equal
      | cons b hay =>
          rw [widenMasked, List.flatMap_cons, ← widenMasked, shiftedBytes,
            List.flatMap_cons, ← shiftedBytes] at equal
          simp only [List.cons_append, List.nil_append] at equal
          rw [maskedEq_cons, maskedEq_zero, Bool.and_eq_true,
            Bool.and_eq_true] at equal
          obtain ⟨first, second, rest⟩ := equal
          rw [beq_iff_eq.mp second, maskedEq_cons, Bool.and_eq_true]
          exact ⟨first, ih rest⟩

/-! ## One element -/

/-- A wide position at a character of the plain text or half a character
before it. -/
def Beside (w k : Nat) : Prop :=
  w = 2 * k ∨ w + 1 = 2 * k

/-- A negated alternation that tells a text from zeros. -/
def Telling (elem : Elem) : Prop :=
  ∃ opts, elem = .alt opts true ∧ ∃ o ∈ opts, ∃ b ∈ o, b ≠ 0

section

variable {s : Bytes} {nocase : Bool} {w w' k l : Nat}

theorem window_beside (beside : Beside w k)
    (fits : w + 2 * l ≤ (widenBytes s).length) :
    k + l ≤ s.length ∧
      (w = 2 * k ∧ window (widenBytes s) w (2 * l) =
          widenBytes (window s k l) ∨
        w + 1 = 2 * k ∧ window (widenBytes s) w (2 * l) =
          shiftedBytes (window s k l)) := by
  rw [length_widenBytes] at fits
  rcases beside with rfl | half
  · exact ⟨by omega, Or.inl ⟨rfl, window_widenBytes s k l⟩⟩
  · obtain ⟨j, rfl⟩ : ∃ j, k = j + 1 := ⟨k - 1, by omega⟩
    obtain rfl : w = 2 * j + 1 := by omega
    exact ⟨by omega, Or.inr ⟨half, window_shifted (by omega)⟩⟩

theorem bytesEq_beside {v : Bytes} (beside : Beside w k) (ordered : w ≤ w')
    (inside : w' ≤ (widenBytes s).length)
    (equal : bytesEq (window (widenBytes s) w (w' - w)) (widenBytes v) nocase
      = true) :
    k + v.length ≤ s.length ∧ w' = w + 2 * v.length ∧
      bytesEq (window s k v.length) v nocase = true := by
  have width := bytesEq_length equal
  rw [length_window, length_widenBytes v] at width
  obtain rfl : w' = w + 2 * v.length := by omega
  rw [Nat.add_sub_cancel_left] at equal
  obtain ⟨fits, ⟨_, same⟩ | ⟨_, same⟩⟩ := window_beside beside inside
  · rw [same, bytesEq_widenBytes] at equal
    exact ⟨fits, rfl, equal⟩
  · rw [same] at equal
    obtain ⟨found, _⟩ := eq_of_bytesEq_shifted equal
    refine ⟨fits, rfl, ?_⟩
    rw [found, bytesEq_iff]

theorem maskedEq_beside {o : List (UInt8 × UInt8)} (beside : Beside w k)
    (ordered : w ≤ w') (inside : w' ≤ (widenBytes s).length)
    (equal : maskedEq (widenMasked o) (window (widenBytes s) w (w' - w)) nocase
      = true) :
    k + o.length ≤ s.length ∧ w' = w + 2 * o.length ∧
      maskedEq o (window s k o.length) nocase = true := by
  have width := Elem.maskedEq_length equal
  rw [length_window, length_widenMasked] at width
  obtain rfl : w' = w + 2 * o.length := by omega
  rw [Nat.add_sub_cancel_left] at equal
  obtain ⟨fits, ⟨_, same⟩ | ⟨_, same⟩⟩ := window_beside beside inside
  · rw [same, maskedEq_widen] at equal
    exact ⟨fits, rfl, equal⟩
  · rw [same] at equal
    exact ⟨fits, rfl, maskedEq_of_shifted equal⟩

theorem Derives.one_iff {buf : Bytes} {elem : Elem} {p q : Nat} :
    Derives buf nocase [elem] p q ↔ elem.Steps buf nocase p q := by
  rw [Derives.cons_iff]
  constructor
  · rintro ⟨r, head, tail⟩
    cases tail
    exact head
  · intro head
    exact ⟨q, head, .nil head.inside⟩

private theorem steps_zero_iff {buf : Bytes} {p q : Nat} :
    (Elem.bytes [0]).Steps buf nocase p q ↔
      q = p + 1 ∧ p < buf.length ∧ byteAt buf p = 0 := by
  have zero : fold 0 = 0 := fold_eq_zero.mpr rfl
  rw [Elem.steps_bytes_iff (by simp), occursAt_iff_getElem?]
  simp only [length_haystack, List.length_singleton, and_congr_right_iff]
  intro _
  rw [byteAt_eq]
  constructor
  · intro agree
    have same := agree 0 (by decide)
    cases here : buf[p]? with
    | none => cases nocase <;> simp [haystack, lower, here] at same
    | some b =>
        refine ⟨(List.getElem?_eq_some_iff.mp here).1, ?_⟩
        cases nocase with
        | false => simpa [haystack, here] using same
        | true =>
            simpa [haystack, lower, here, zero, fold_eq_zero] using same
  · rintro ⟨inside, same⟩ i below
    obtain rfl : i = 0 := by omega
    rw [List.getElem?_eq_getElem inside, Option.getD_some] at same
    cases nocase <;> simp [haystack, lower, same, inside]

theorem derives_class_iff {buf : Bytes} {elem : Elem} {accepts : UInt8 → Prop}
    (steps : ∀ p q, elem.Steps buf nocase p q ↔
      q = p + 1 ∧ p < buf.length ∧ accepts (byteAt buf p)) {p q : Nat} :
    Derives buf nocase [elem, .bytes [0]] p q ↔
      q = p + 2 ∧ p + 1 < buf.length ∧ accepts (byteAt buf p) ∧
        byteAt buf (p + 1) = 0 := by
  rw [Derives.cons_iff]
  simp only [Derives.one_iff, steps, steps_zero_iff]
  constructor
  · rintro ⟨r, ⟨rfl, _, accepted⟩, rfl, inside, zero⟩
    exact ⟨rfl, inside, accepted, zero⟩
  · rintro ⟨rfl, inside, accepted, zero⟩
    exact ⟨p + 1, ⟨rfl, by omega, accepted⟩, rfl, inside, zero⟩

theorem class_beside {elem : Elem} (accepts : UInt8 → Prop)
    (steps : ∀ buf p q, elem.Steps buf nocase p q ↔
      q = p + 1 ∧ p < buf.length ∧ accepts (byteAt buf p))
    (beside : Beside w k)
    (derivation : Derives (widenBytes s) nocase [elem, .bytes [0]] w w') :
    elem.Steps s nocase k (k + 1) ∧ w' = w + 2 := by
  obtain ⟨rfl, inside, accepted, zero⟩ :=
    (derives_class_iff (steps (widenBytes s))).mp derivation
  rw [length_widenBytes] at inside
  refine ⟨(steps s k (k + 1)).mpr ⟨rfl, ?_, ?_⟩, rfl⟩
  · rcases beside with even | half <;> omega
  · rcases beside with rfl | half
    · rwa [byteAt_widenBytes_even] at accepted
    · obtain ⟨j, rfl⟩ : ∃ j, k = j + 1 := ⟨k - 1, by omega⟩
      obtain rfl : w = 2 * j + 1 := by omega
      rw [byteAt_widenBytes_odd] at accepted
      rw [show 2 * j + 1 + 1 = 2 * (j + 1) by omega,
        byteAt_widenBytes_even] at zero
      rwa [zero]

theorem class_wide {elem : Elem} (accepts : UInt8 → Prop)
    (steps : ∀ buf p q, elem.Steps buf nocase p q ↔
      q = p + 1 ∧ p < buf.length ∧ accepts (byteAt buf p)) {p q : Nat}
    (step : elem.Steps s nocase p q) :
    Derives (widenBytes s) nocase [elem, .bytes [0]] (2 * p) (2 * q) := by
  obtain ⟨rfl, inside, accepted⟩ := (steps s p q).mp step
  refine (derives_class_iff (steps (widenBytes s))).mpr
    ⟨by omega, ?_, ?_, byteAt_widenBytes_odd s p⟩
  · rw [length_widenBytes]
    omega
  · rwa [byteAt_widenBytes_even]

private theorem shifted_zeros {v : Bytes} (zeros : ∀ c ∈ v, c = 0) :
    shiftedBytes v = widenBytes v := by
  induction v with
  | nil => rfl
  | cons c v ih =>
      rw [shiftedBytes, List.flatMap_cons, ← shiftedBytes,
        ih fun d member => zeros d (by simp [member]), zeros c (by simp)]
      rfl

private theorem zeros_of_bytesEq {a b : Bytes}
    (equal : bytesEq a b nocase = true) (zeros : ∀ c ∈ b, c = 0) :
    ∀ c ∈ a, c = 0 := by
  rw [bytesEq_iff] at equal
  cases nocase with
  | false =>
      have same : a = b := equal
      rwa [same]
  | true =>
      intro c member
      have folded : fold c ∈ lower b := by
        rw [show lower b = lower a from equal.symm]
        exact List.mem_map_of_mem member
      obtain ⟨d, inB, same⟩ := List.mem_map.mp folded
      rw [zeros d inB, fold_eq_zero.mpr rfl] at same
      exact fold_eq_zero.mp same.symm

/-- A window that passes a negated alternation of widened options. -/
theorem neg_beside {opts : List Bytes} (formed : (Elem.alt opts true).WellFormed)
    (beside : Beside w k) (even : Telling (.alt opts true) → w = 2 * k)
    (step : (Elem.alt (opts.map widenBytes) true).Steps (widenBytes s) nocase
      w w') :
    ∃ k', (Elem.alt opts true).Steps s nocase k k' ∧
      w' + 2 * k = w + 2 * k' := by
  obtain ⟨nonempty, widths⟩ := formed
  obtain ⟨l, _, lengths⟩ := widths rfl
  obtain ⟨ordered, inside, admits⟩ := step
  obtain ⟨o, member⟩ := List.exists_mem_of_ne_nil opts nonempty
  have width := (admits _ (List.mem_map_of_mem member)).1
  rw [length_window, length_widenBytes o, lengths o member] at width
  obtain rfl : w' = w + 2 * l := by omega
  rw [Nat.add_sub_cancel_left] at admits
  obtain ⟨fits, cases⟩ := window_beside beside inside
  refine ⟨k + l, ⟨by omega, fits, ?_⟩, by omega⟩
  rw [Nat.add_sub_cancel_left]
  intro o member
  refine ⟨by rw [length_window_of_le fits, lengths o member], ?_⟩
  have differs := (admits _ (List.mem_map_of_mem member)).2
  rcases cases with ⟨_, same⟩ | ⟨half, same⟩
  · rwa [same, bytesEq_widenBytes] at differs
  · by_contra equal
    rw [Bool.not_eq_false] at equal
    have zeros : ∀ c ∈ o, c = 0 := by
      by_contra other
      push Not at other
      have whole := even ⟨opts, rfl, o, member, other⟩
      omega
    have zeroText := zeros_of_bytesEq equal zeros
    rw [same, shifted_zeros zeroText, bytesEq_widenBytes, equal] at differs
    cases differs

/-- What a wide element consumes beside a position of the plain text the
element consumes from the position. -/
theorem steps_of_widen {elem : Elem} (formed : elem.WellFormed)
    (single : ∀ min max, elem ≠ .gap min max) (beside : Beside w k)
    (even : Telling elem → w = 2 * k)
    (derivation : Derives (widenBytes s) nocase (widenElem elem) w w') :
    ∃ k', elem.Steps s nocase k k' ∧ w' + 2 * k = w + 2 * k' := by
  cases elem with
  | bytes v =>
      obtain ⟨ordered, inside, equal⟩ := Derives.one_iff.mp derivation
      obtain ⟨fits, rfl, found⟩ := bytesEq_beside beside ordered inside equal
      refine ⟨k + v.length, ⟨by omega, fits, ?_⟩, by omega⟩
      rwa [Nat.add_sub_cancel_left]
  | anyByte =>
      obtain ⟨step, rfl⟩ := class_beside (fun _ => True)
        (fun _ _ _ => by simpa using Elem.steps_anyByte_iff) beside derivation
      exact ⟨k + 1, step, by omega⟩
  | hiNibble h =>
      obtain ⟨step, rfl⟩ := class_beside (fun b => b >>> 4 = h)
        (fun _ _ _ => Elem.steps_hiNibble_iff) beside derivation
      exact ⟨k + 1, step, by omega⟩
  | loNibble l =>
      obtain ⟨step, rfl⟩ := class_beside (fun b => b &&& 0x0f = l)
        (fun _ _ _ => Elem.steps_loNibble_iff) beside derivation
      exact ⟨k + 1, step, by omega⟩
  | gap min max => exact absurd rfl (single min max)
  | alt opts neg =>
      have step := Derives.one_iff.mp derivation
      cases neg with
      | true => exact neg_beside formed beside even step
      | false =>
          obtain ⟨ordered, inside, o, member, equal⟩ := step
          obtain ⟨v, inOpts, rfl⟩ := List.mem_map.mp member
          obtain ⟨fits, rfl, found⟩ :=
            bytesEq_beside beside ordered inside equal
          refine ⟨k + v.length, ⟨by omega, fits, v, inOpts, ?_⟩, by omega⟩
          rwa [Nat.add_sub_cancel_left]
  | altMasked opts =>
      obtain ⟨ordered, inside, o, member, equal⟩ :=
        Derives.one_iff.mp derivation
      obtain ⟨v, inOpts, rfl⟩ := List.mem_map.mp member
      obtain ⟨fits, rfl, found⟩ := maskedEq_beside beside ordered inside equal
      refine ⟨k + v.length, ⟨by omega, fits, v, inOpts, ?_⟩, by omega⟩
      rwa [Nat.add_sub_cancel_left]

/-- What an element consumes the wide element consumes in whole characters. -/
theorem Elem.Steps.widen {elem : Elem} (small : 2 * s.length ≤ usizeMax)
    {p q : Nat} (step : elem.Steps s nocase p q) :
    Derives (widenBytes s) nocase (widenElem elem) (2 * p) (2 * q) := by
  obtain ⟨ordered, inside, admits⟩ := step
  have wideInside : 2 * q ≤ (widenBytes s).length := by
    rw [length_widenBytes]
    omega
  have segment : window (widenBytes s) (2 * p) (2 * q - 2 * p) =
      widenBytes (window s p (q - p)) := by
    rw [← Nat.mul_sub, window_widenBytes]
  cases elem with
  | bytes v =>
      refine Derives.one_iff.mpr ⟨by omega, wideInside, ?_⟩
      rw [segment]
      exact bytesEq_widenBytes.trans admits
  | anyByte =>
      exact class_wide (fun _ => True)
        (fun _ _ _ => by simpa using Elem.steps_anyByte_iff)
        ⟨ordered, inside, admits⟩
  | hiNibble h =>
      exact class_wide (fun b => b >>> 4 = h)
        (fun _ _ _ => Elem.steps_hiNibble_iff) ⟨ordered, inside, admits⟩
  | loNibble l =>
      exact class_wide (fun b => b &&& 0x0f = l)
        (fun _ _ _ => Elem.steps_loNibble_iff) ⟨ordered, inside, admits⟩
  | gap min max =>
      refine Derives.one_iff.mpr ⟨by omega, wideInside, ?_⟩
      obtain ⟨longEnough, shortEnough⟩ := admits
      rw [length_window] at longEnough
      rw [segment]
      refine ⟨?_, ?_⟩
      · rw [length_widenBytes, length_window]
        exact (Nat.min_le_left _ _).trans (by omega)
      · intro m member
        obtain ⟨narrow, inMax, rfl⟩ := Option.mem_map.mp member
        have bounded := shortEnough narrow inMax
        rw [length_window] at bounded
        rw [length_widenBytes, length_window]
        exact le_min (by omega) (by omega)
  | alt opts neg =>
      refine Derives.one_iff.mpr ⟨by omega, wideInside, ?_⟩
      rw [segment]
      cases neg with
      | true =>
          intro o member
          obtain ⟨v, inOpts, rfl⟩ := List.mem_map.mp member
          obtain ⟨width, differs⟩ := admits v inOpts
          rw [length_widenBytes, length_widenBytes, width, bytesEq_widenBytes]
          exact ⟨rfl, differs⟩
      | false =>
          obtain ⟨v, inOpts, equal⟩ := admits
          exact ⟨widenBytes v, List.mem_map_of_mem inOpts,
            bytesEq_widenBytes.trans equal⟩
  | altMasked opts =>
      refine Derives.one_iff.mpr ⟨by omega, wideInside, ?_⟩
      rw [segment]
      obtain ⟨o, inOpts, equal⟩ := admits
      exact ⟨widenMasked o, List.mem_map_of_mem inOpts,
        maskedEq_widen.trans equal⟩

/-- The length of a gap is not fixed. -/
def Flexible (min : Nat) (max : Option Nat) : Prop :=
  ∀ m, max = some m → min < m

theorem gap_beside {min : Nat} {max : Option Nat}
    (small : 2 * s.length ≤ usizeMax) (beside : Beside w k)
    (step : Derives (widenBytes s) nocase (widenElem (.gap min max)) w w') :
    ∃ k', (Elem.gap min max).Steps s nocase k k' ∧ Beside w' k' ∧
      (¬Flexible min max → w' + 2 * k = w + 2 * k') := by
  obtain ⟨lower, upper, inside⟩ :=
    Elem.steps_gap_iff.mp (Derives.one_iff.mp step)
  rw [length_widenBytes] at inside
  have odd : usizeMax = 2 * (2 ^ 63 - 1) + 1 := by decide
  have least : w + 2 * min ≤ w' := by
    by_contra short
    have cut : Nat.min (min * 2) usizeMax = usizeMax := by
      apply Nat.min_eq_right
      by_contra fits
      have whole : Nat.min (min * 2) usizeMax = min * 2 :=
        Nat.min_eq_left (by omega)
      omega
    omega
  have most : ∀ m, max = some m → w' ≤ w + 2 * m := by
    intro m same
    have bounded := upper _ (Option.mem_map_of_mem _ same)
    exact bounded.trans (Nat.add_le_add_left
      ((Nat.min_le_left _ _).trans (by omega)) w)
  refine ⟨(w' + 1) / 2, Elem.steps_gap_iff.mpr ⟨?_, ?_, ?_⟩, ?_, ?_⟩
  · rcases beside with rfl | half <;> omega
  · intro m member
    have bounded := most m member
    rcases beside with rfl | half <;> omega
  · omega
  · unfold Beside
    omega
  · intro rigid
    unfold Flexible at rigid
    push Not at rigid
    obtain ⟨m, same, fixed⟩ := rigid
    have bounded := most m same
    rcases beside with rfl | half <;> omega

/-! ## Programs -/

/-- No negated alternation that tells a text from zeros comes after a gap of
varying length. -/
def Aligned (elems : List Elem) : Prop :=
  elems.Pairwise fun earlier later =>
    ∀ min max, earlier = .gap min max → Flexible min max → ¬Telling later

/-- Beside a position, and at it while a telling negation is to come, the wide
program leads nowhere the program does not. -/
theorem derives_of_widen {elems : List Elem}
    (formed : ∀ elem ∈ elems, elem.WellFormed) (aligned : Aligned elems)
    (small : 2 * s.length ≤ usizeMax) (beside : Beside w k)
    (even : w = 2 * k ∨ ∀ elem ∈ elems, ¬Telling elem)
    (derivation : Derives (widenBytes s) nocase (widenElems elems) w w') :
    ∃ r, Derives s nocase elems k r := by
  induction elems generalizing w k with
  | nil =>
      have inside := derivation.inside
      cases derivation
      rw [length_widenBytes] at inside
      refine ⟨k, .nil ?_⟩
      rcases beside with rfl | half <;> omega
  | cons elem elems ih =>
      have elemFormed := formed elem (by simp)
      have laterFormed : ∀ later ∈ elems, later.WellFormed :=
        fun later member => formed later (by simp [member])
      obtain ⟨apart, laterAligned⟩ := List.pairwise_cons.mp aligned
      rw [widenElems, List.flatMap_cons, ← widenElems] at derivation
      obtain ⟨v, first, rest⟩ := Derives.append_iff.mp derivation
      have finish {next : Nat} (step : elem.Steps s nocase k next)
          (nextBeside : Beside v next)
          (nextEven : v = 2 * next ∨ ∀ later ∈ elems, ¬Telling later) :
          ∃ r, Derives s nocase (elem :: elems) k r := by
        obtain ⟨r, tail⟩ :=
          ih laterFormed laterAligned nextBeside nextEven rest
        exact ⟨r, .cons step tail⟩
      have keep : w = 2 * k ∨ ∀ later ∈ elems, ¬Telling later :=
        even.imp_right fun none later member => none later (by simp [member])
      by_cases gap : ∃ min max, elem = .gap min max
      · obtain ⟨min, max, rfl⟩ := gap
        obtain ⟨next, step, nextBeside, rigid⟩ := gap_beside small beside first
        apply finish step nextBeside
        by_cases flexible : Flexible min max
        · exact Or.inr fun later member =>
            apart later member min max rfl flexible
        · have moved := rigid flexible
          exact keep.imp_left fun whole => by omega
      · push Not at gap
        obtain ⟨next, step, moved⟩ := steps_of_widen elemFormed gap beside
          (fun telling => even.resolve_right fun none =>
            none elem (by simp) telling) first
        apply finish step
        · unfold Beside at beside ⊢
          omega
        · exact keep.imp_left fun whole => by omega

theorem Derives.widen {elems : List Elem} (small : 2 * s.length ≤ usizeMax)
    {p r : Nat} (derivation : Derives s nocase elems p r) :
    Derives (widenBytes s) nocase (widenElems elems) (2 * p) (2 * r) := by
  induction derivation with
  | nil inside =>
      refine .nil ?_
      rw [length_widenBytes]
      omega
  | cons head _ ih =>
      rw [widenElems, List.flatMap_cons]
      exact Derives.append_iff.mpr ⟨_, head.widen small, ih⟩

/-- The wide program matches the wide text where the program matches the
text. -/
def WideAgrees (s : Bytes) (nocase : Bool) (elems : List Elem) (p : Nat) :
    Prop :=
  (∃ r, Derives (widenBytes s) nocase (widenElems elems) (2 * p) r) ↔
    ∃ r, Derives s nocase elems p r

theorem Aligned.agrees {elems : List Elem}
    (formed : ∀ elem ∈ elems, elem.WellFormed) (aligned : Aligned elems)
    (small : 2 * s.length ≤ usizeMax) (p : Nat) :
    WideAgrees s nocase elems p := by
  constructor
  · rintro ⟨r, derivation⟩
    exact derives_of_widen formed aligned small (Or.inl rfl) (Or.inl rfl)
      derivation
  · rintro ⟨r, derivation⟩
    exact ⟨2 * r, derivation.widen small⟩

/-- Widening leaves the bounds of gaps the way round they are. -/
theorem Upright.widen {elems : List Elem} (upright : Upright elems) :
    Upright (widenElems elems) := by
  intro wide member
  obtain ⟨elem, source, made⟩ := List.mem_flatMap.mp member
  have right := upright elem source
  cases elem with
  | gap min max =>
      cases (List.mem_singleton.mp made)
      cases max with
      | none => exact id
      | some max =>
          have ordered : ¬max < min := right
          change ¬Nat.min (max * 2) usizeMax < Nat.min (min * 2) usizeMax
          rw [Nat.not_lt]
          exact le_min ((Nat.min_le_left _ _).trans (by omega))
            (Nat.min_le_right _ _)
  | bytes v => cases (List.mem_singleton.mp made); exact id
  | alt opts neg => cases (List.mem_singleton.mp made); exact id
  | altMasked opts => cases (List.mem_singleton.mp made); exact id
  | anyByte | hiNibble h | loNibble l =>
      simp only [widenElem, List.mem_cons, List.not_mem_nil, or_false] at made
      rcases made with rfl | rfl <;> exact id

/-- Where the two programs agree the searches for them do, unless cut off. -/
theorem WideAgrees.searches {elems : List Elem} {p : Nat}
    (agrees : WideAgrees s nocase elems p)
    (formed : ∀ elem ∈ elems, elem.WellFormed) (upright : Upright elems)
    (inside : p ≤ s.length) {pools others : Pools}
    (valid : pools.occ.Valid (widenBytes s)) (otherValid : others.occ.Valid s)
    (whole : (gapSplitMatch (widenBytes s) nocase (widenElems elems) (2 * p)
      pools).2.truncated = false)
    (otherWhole : (gapSplitMatch s nocase elems p others).2.truncated =
      false) :
    (gapSplitMatch (widenBytes s) nocase (widenElems elems) (2 * p) pools).1 =
      (gapSplitMatch s nocase elems p others).1 := by
  have wideInside : 2 * p ≤ (widenBytes s).length := by
    rw [length_widenBytes]
    omega
  have wide : Decides (widenBytes s) nocase (widenElems elems) (2 * p) pools :=
    (gapSplitMatch_decides_iff (widenElems_wellFormed formed) wideInside
      valid).1 (Or.inl upright.widen)
  have narrow : Decides s nocase elems p others :=
    (gapSplitMatch_decides_iff formed inside otherValid).1 (Or.inl upright)
  rw [Bool.eq_iff_iff]
  constructor
  · intro matched
    by_contra missed
    exact narrow.2 (by simpa using missed) otherWhole
      (agrees.mp (wide.1 matched))
  · intro matched
    by_contra missed
    exact wide.2 (by simpa using missed) whole
      (agrees.mpr (narrow.1 matched))

end

/-! ## What goes wrong -/

/-- A text that memory holds wide has room for the gap and for an option. -/
def Room (min : Nat) (opts : List Bytes) : Prop :=
  ∀ o ∈ opts, 2 * (min + o.length + 2) ≤ usizeMax

private theorem window_after {front back : Bytes} {p l : Nat}
    (start : p = front.length) (width : l = back.length) :
    window (front ++ back) p l = back := by
  rw [window, start, List.drop_left, width, List.take_length]

/-- A gap of varying length, a zero and an alternation that tells a text from
zeros: on the text that has one option in full the wide program passes it half
a character early. -/
theorem widen_astray {min : Nat} {max : Option Nat} {opts : List Bytes}
    (formed : (Elem.alt opts true).WellFormed) (flexible : Flexible min max)
    {o : Bytes} (member : o ∈ opts) {b : UInt8} (inside : b ∈ o)
    (nonzero : b ≠ 0) (small : 2 * (min + o.length + 2) ≤ usizeMax)
    (nocase : Bool) :
    ¬WideAgrees ((List.replicate (min + 1) 1 ++ [0]) ++ o) nocase
      [.gap min max, .bytes [0], .alt opts true] 0 := by
  set front : Bytes := List.replicate (min + 1) 1 ++ [0] with frontDef
  have frontLength : front.length = min + 2 := by simp [frontDef]
  have length : (front ++ o).length = min + o.length + 2 := by
    rw [List.length_append, frontLength]
    omega
  obtain ⟨_, widths⟩ := formed
  obtain ⟨l, _, lengths⟩ := widths rfl
  have zeroAt : window (front ++ o) (min + 1) 1 = [0] := by
    rw [frontDef, List.append_assoc, window]
    simp
  have optionAt : window (front ++ o) (min + 1 + 1) o.length = o :=
    window_after frontLength.symm rfl
  intro agrees
  have wide : Derives (widenBytes (front ++ o)) nocase
      (widenElems [.gap min max, .bytes [0], .alt opts true]) (2 * 0)
      (2 * (min + 1) + 1 + 2 * o.length) := by
    have gap : (Elem.gap (Nat.min (min * 2) usizeMax)
        (max.map fun m => Nat.min (m * 2) usizeMax)).Steps
          (widenBytes (front ++ o)) nocase (2 * 0) (2 * min + 1) := by
      refine Elem.steps_gap_iff.mpr ⟨?_, ?_, ?_⟩
      · exact Nat.add_le_of_le_sub' (by omega)
          ((Nat.min_le_left _ _).trans (by omega))
      · intro m bound
        obtain ⟨narrow, inMax, rfl⟩ := Option.mem_map.mp bound
        have above := flexible narrow inMax
        rw [Nat.mul_zero, Nat.zero_add]
        exact le_min (by omega) (by omega)
      · rw [length_widenBytes, length]
        omega
    have zero : (Elem.bytes [0, 0]).Steps (widenBytes (front ++ o)) nocase
        (2 * min + 1) (2 * (min + 1) + 1) := by
      refine ⟨by omega, ?_, ?_⟩
      · rw [length_widenBytes, length]
        omega
      · rw [show 2 * (min + 1) + 1 - (2 * min + 1) = 2 * 1 by omega,
          window_shifted (by omega), zeroAt]
        exact bytesEq_iff.mpr rfl
    have negation : (Elem.alt (opts.map widenBytes) true).Steps
        (widenBytes (front ++ o)) nocase (2 * (min + 1) + 1)
        (2 * (min + 1) + 1 + 2 * o.length) := by
      refine ⟨by omega, ?_, ?_⟩
      · rw [length_widenBytes, length]
        omega
      · rw [Nat.add_sub_cancel_left, window_shifted (by omega), optionAt]
        intro other otherMember
        obtain ⟨v, inOpts, rfl⟩ := List.mem_map.mp otherMember
        refine ⟨?_, ?_⟩
        · rw [length_widenBytes, lengths v inOpts, ← lengths o member,
            length_shiftedBytes]
        · by_contra equal
          rw [Bool.not_eq_false] at equal
          exact nonzero ((eq_of_bytesEq_shifted equal).2 b inside)
    exact .cons gap (.cons zero (.cons negation (.nil negation.inside)))
  obtain ⟨r, narrow⟩ := agrees.mp ⟨_, wide⟩
  obtain ⟨q, gap, rest⟩ := Derives.cons_iff.mp narrow
  obtain ⟨q', zero, rest⟩ := Derives.cons_iff.mp rest
  obtain ⟨after, _, _⟩ := Elem.steps_gap_iff.mp gap
  have negation := Derives.one_iff.mp rest
  obtain ⟨rfl, here, isZero⟩ := steps_zero_iff.mp zero
  obtain ⟨ordered, within, admits⟩ := negation
  obtain ⟨width, differs⟩ := admits o member
  rw [length_window] at width
  rw [length] at within width
  obtain rfl : q = min + 1 := by
    by_contra other
    have early : q = min := by omega
    rw [early, byteAt_eq, frontDef] at isZero
    simp [List.getElem?_append] at isZero
  rw [show r - (min + 1 + 1) = o.length by omega, optionAt,
    show bytesEq o o nocase = true from bytesEq_iff.mpr rfl] at differs
  cases differs

/-- The gaps of varying length that come before a telling negation in the
program are, with it, among the pairs `allowed`, and a text has room for
them. -/
def PairsIn (allowed : Nat → Option Nat → List Bytes → Prop)
    (elems : List Elem) : Prop :=
  elems.Pairwise fun earlier later =>
    ∀ min max opts, earlier = .gap min max → later = .alt opts true →
      Flexible min max → Telling later →
        Room min opts ∧ allowed min max opts

/-- The wide form of every program agrees with the program on every text, and
so do the searches for them, exactly where no gap of varying length is allowed
before a negation that tells a text from zeros. -/
theorem widenElems_agrees_iff
    (allowed : Nat → Option Nat → List Bytes → Prop) :
    (∀ elems, (∀ elem ∈ elems, elem.WellFormed) → PairsIn allowed elems →
      ∀ s nocase p, 2 * s.length ≤ usizeMax →
        WideAgrees s nocase elems p ∧
          (Upright elems → p ≤ s.length → ∀ pools others : Pools,
            pools.occ.Valid (widenBytes s) → others.occ.Valid s →
            let wide := gapSplitMatch (widenBytes s) nocase (widenElems elems)
              (2 * p) pools
            let narrow := gapSplitMatch s nocase elems p others
            wide.2.truncated = false → narrow.2.truncated = false →
              wide.1 = narrow.1)) ↔
      ∀ min max opts, (Elem.alt opts true).WellFormed → Room min opts →
        Flexible min max → Telling (.alt opts true) →
          ¬allowed min max opts := by
  constructor
  · intro agree min max opts formed room flexible telling pair
    obtain ⟨_, same, o, member, b, inside, nonzero⟩ := telling
    cases same
    have bounded := room o member
    refine widen_astray formed flexible member inside nonzero bounded false
      (agree _ ?_ ?_ _ _ _ ?_).1
    · simpa [Elem.WellFormed] using formed
    · simp only [PairsIn, List.pairwise_cons, List.mem_cons,
        List.not_mem_nil, or_false, List.Pairwise.nil, and_true]
      refine ⟨?_, ?_, by simp⟩
      · rintro later (rfl | rfl) least most options first second _ _
        · cases second
        · cases first
          cases second
          exact ⟨room, pair⟩
      · intro later _ least most options first
        cases first
    · simp only [List.length_append, List.length_replicate,
        List.length_singleton]
      omega
  · intro apart elems formed pairs s nocase p small
    have aligned : Aligned elems := by
      refine List.Pairwise.imp_of_mem ?_ pairs
      intro earlier later _ member pair min max first flexible telling
      obtain ⟨opts, same, _⟩ := id telling
      obtain ⟨room, inside⟩ := pair min max opts first same flexible telling
      rw [same] at telling
      exact apart min max opts (same ▸ formed later member) room flexible
        telling inside
    have agrees : WideAgrees s nocase elems p :=
      aligned.agrees formed small p
    refine ⟨agrees, ?_⟩
    intro upright inside pools others valid otherValid wide narrow
    exact agrees.searches formed upright inside valid otherValid

/-- The wide form of `6262{-1}!(61)` is found in the wide form of `bbaa`, in
which the body itself is not found. -/
theorem widenElems_astray :
    ∃ toks, parseElems "6262{-1}!(61)".toList = some toks ∧
      (gapSplitMatch [0x62, 0x62, 0x61, 0x61] false toks 0
        (Pools.new .unlimited)).1 = false ∧
      (gapSplitMatch [0x62, 0x62, 0x61, 0x61] false toks 0
        (Pools.new .unlimited)).2.truncated = false ∧
      (gapSplitMatch (widenBytes [0x62, 0x62, 0x61, 0x61]) false
        (widenElems toks) 0 (Pools.new .unlimited)).1 = true := by
  refine ⟨[.bytes [0x62, 0x62], .gap 0 (some 1), .alt [[0x61]] true],
    by rfl, by rfl, by rfl, by rfl⟩

end Exav.Engine
