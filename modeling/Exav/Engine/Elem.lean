import Exav.Bytes

/-!
# The pattern language

A signature body is compiled to a list of elements.  `Elem.Admits` says which
byte strings an element consumes, and `Derives` reads a token program as a
chain of consecutive segments of an object, one per element.  Verification is
measured against this reading.
-/

namespace Exav.Engine

/-- The largest size the program can hold. -/
def usizeMax : Nat := 2 ^ 64 - 1

/-- One element of a compiled body pattern. -/
inductive Elem where
  | bytes (b : Bytes)
  | anyByte
  | hiNibble (h : UInt8)
  | loNibble (l : UInt8)
  | gap (min : Nat) (max : Option Nat)
  | alt (opts : List Bytes) (neg : Bool)
  | altMasked (opts : List (List (UInt8 × UInt8)))
  deriving DecidableEq

/-- Whether a masked branch matches the window at `hay`, which must be the
branch's own length. -/
def maskedEq (branch : List (UInt8 × UInt8)) (hay : Bytes) (nocase : Bool) :
    Bool :=
  branch.length == hay.length &&
    (branch.zip hay).all fun ((v, m), b) =>
      let b := if nocase then fold b else b
      let v := if nocase then fold v else v
      b &&& m == v &&& m

namespace Elem

/-- Length shared by every branch, or `none` when they differ. -/
def branchWidth {α : Type} (opts : List (List α)) : Option Nat :=
  let l := (opts.head?.map List.length).getD 0
  if opts.all fun o => o.length == l then some l else none

/-- Fixed byte width, or `none` if variable. -/
def width : Elem → Option Nat
  | .bytes b => some b.length
  | .anyByte => some 1
  | .hiNibble _ => some 1
  | .loNibble _ => some 1
  | .gap min max =>
      match max with
      | some m => if m == min then some min else none
      | none => none
  | .alt opts _ => branchWidth opts
  | .altMasked opts => branchWidth opts

/-- The shape every element built from signature text has. -/
def WellFormed : Elem → Prop
  | .bytes b => b ≠ []
  | .anyByte => True
  | .hiNibble h => h < 16
  | .loNibble l => l < 16
  | .gap _ _ => True
  | .alt opts neg =>
      opts ≠ [] ∧ (neg = true → ∃ l, 0 < l ∧ ∀ o ∈ opts, o.length = l)
  | .altMasked opts => opts ≠ []

/-- A gap whose bounds are the wrong way round. -/
def Inverted : Elem → Prop
  | .gap min (some max) => max < min
  | _ => False

instance (elem : Elem) : Decidable elem.Inverted := by
  cases elem with
  | gap min max =>
      cases max with
      | none => exact isFalse id
      | some max => exact inferInstanceAs (Decidable (max < min))
  | _ => exact isFalse id

/-- The byte strings an element consumes, under the case flag of its body. -/
def Admits (nocase : Bool) : Elem → Bytes → Prop
  | .bytes b, segment => bytesEq segment b nocase = true
  | .anyByte, segment => segment.length = 1
  | .hiNibble h, segment => ∃ b, segment = [b] ∧ b >>> 4 = h
  | .loNibble l, segment => ∃ b, segment = [b] ∧ b &&& 0x0f = l
  | .gap min max, segment =>
      min ≤ segment.length ∧ ∀ m ∈ max, segment.length ≤ m
  | .alt opts false, segment => ∃ o ∈ opts, bytesEq segment o nocase = true
  | .alt opts true, segment =>
      ∀ o ∈ opts, segment.length = o.length ∧ bytesEq segment o nocase = false
  | .altMasked opts, segment => ∃ o ∈ opts, maskedEq o segment nocase = true

/-- The element consumes the bytes of `buf` from `p` up to `q`. -/
structure Steps (buf : Bytes) (nocase : Bool) (elem : Elem) (p q : Nat) :
    Prop where
  ordered : p ≤ q
  inside : q ≤ buf.length
  admits : elem.Admits nocase (window buf p (q - p))

end Elem

/-- The elements consume consecutive segments of `buf` from the first position
to the second. -/
inductive Derives (buf : Bytes) (nocase : Bool) :
    List Elem → Nat → Nat → Prop where
  | nil {p : Nat} (inside : p ≤ buf.length) : Derives buf nocase [] p p
  | cons {elem : Elem} {elems : List Elem} {p q r : Nat}
      (head : elem.Steps buf nocase p q)
      (tail : Derives buf nocase elems q r) :
      Derives buf nocase (elem :: elems) p r

namespace Derives

variable {buf : Bytes} {nocase : Bool}

theorem cons_iff {elem : Elem} {elems : List Elem} {p r : Nat} :
    Derives buf nocase (elem :: elems) p r ↔
      ∃ q, elem.Steps buf nocase p q ∧ Derives buf nocase elems q r := by
  constructor
  · intro derivation
    cases derivation with
    | cons head tail => exact ⟨_, head, tail⟩
  · rintro ⟨q, head, tail⟩
    exact .cons head tail

theorem append_iff {front back : List Elem} {p r : Nat} :
    Derives buf nocase (front ++ back) p r ↔
      ∃ q, Derives buf nocase front p q ∧ Derives buf nocase back q r := by
  induction front generalizing p with
  | nil =>
      constructor
      · intro derivation
        have inside : p ≤ buf.length := by
          cases derivation with
          | nil inside => exact inside
          | cons head tail => exact head.ordered.trans head.inside
        exact ⟨p, .nil inside, derivation⟩
      · rintro ⟨q, front, back⟩
        cases front
        exact back
  | cons elem elems ih =>
      rw [List.cons_append, cons_iff]
      constructor
      · rintro ⟨middle, head, tail⟩
        obtain ⟨q, front, back⟩ := ih.mp tail
        exact ⟨q, .cons head front, back⟩
      · rintro ⟨q, front, back⟩
        obtain ⟨middle, head, tail⟩ := cons_iff.mp front
        exact ⟨middle, head, ih.mpr ⟨q, tail, back⟩⟩

theorem ordered {elems : List Elem} {p r : Nat}
    (derivation : Derives buf nocase elems p r) : p ≤ r := by
  induction derivation with
  | nil => exact le_rfl
  | cons head _ ih => exact head.ordered.trans ih

theorem inside {elems : List Elem} {p r : Nat}
    (derivation : Derives buf nocase elems p r) : r ≤ buf.length := by
  induction derivation with
  | nil inside => exact inside
  | cons _ _ ih => exact ih

end Derives

/-! ## What one element consumes, by position -/

namespace Elem

variable {buf : Bytes} {nocase : Bool} {p q : Nat}

theorem maskedEq_length {branch : List (UInt8 × UInt8)} {hay : Bytes}
    (equal : maskedEq branch hay nocase = true) :
    branch.length = hay.length := by
  simp only [maskedEq, Bool.and_eq_true, beq_iff_eq] at equal
  exact equal.1

private theorem window_width {l : Nat} (inside : q ≤ buf.length)
    (length : (window buf p (q - p)).length = l) (ordered : p ≤ q) :
    q = p + l := by
  rw [length_window] at length
  omega

theorem steps_bytes_iff {b : Bytes} (nonempty : b ≠ []) :
    Steps buf nocase (.bytes b) p q ↔
      q = p + b.length ∧
        occursAt (haystack nocase buf) (haystack nocase b) p = true := by
  constructor
  · rintro ⟨ordered, inside, admits⟩
    have width := window_width inside (bytesEq_length admits) ordered
    subst q
    rw [Admits, Nat.add_sub_cancel_left] at admits
    exact ⟨rfl, occursAt_haystack.trans admits⟩
  · rintro ⟨rfl, occurs⟩
    have haystackNonempty : haystack nocase b ≠ [] := by
      intro empty
      exact nonempty (List.length_eq_zero_iff.mp (by
        simpa using congrArg List.length empty))
    have fits := occursAt_fits occurs haystackNonempty
    rw [length_haystack, length_haystack] at fits
    refine ⟨Nat.le_add_right _ _, fits, ?_⟩
    rw [Admits, Nat.add_sub_cancel_left]
    exact occursAt_haystack.symm.trans occurs

theorem steps_anyByte_iff :
    Steps buf nocase .anyByte p q ↔ q = p + 1 ∧ p < buf.length := by
  constructor
  · rintro ⟨ordered, inside, admits⟩
    have width := window_width inside admits ordered
    omega
  · rintro ⟨rfl, inside⟩
    refine ⟨Nat.le_succ p, inside, ?_⟩
    rw [Admits, length_window]
    omega

private theorem window_one (inside : p < buf.length) :
    window buf p 1 = [byteAt buf p] := by
  rw [byteAt_eq, window, List.drop_eq_getElem_cons inside,
    List.take_succ_cons, List.take_zero, List.getElem?_eq_getElem inside,
    Option.getD_some]

private theorem steps_one_iff {elem : Elem} (accepts : UInt8 → Prop)
    (admits : ∀ segment, elem.Admits nocase segment ↔
      ∃ b, segment = [b] ∧ accepts b) :
    Steps buf nocase elem p q ↔
      q = p + 1 ∧ p < buf.length ∧ accepts (byteAt buf p) := by
  constructor
  · rintro ⟨ordered, inside, admitted⟩
    obtain ⟨b, segment, accepted⟩ := (admits _).mp admitted
    have width := window_width (l := 1) inside (by rw [segment]; rfl) ordered
    subst q
    rw [Nat.add_sub_cancel_left, window_one (by omega)] at segment
    cases segment
    exact ⟨rfl, by omega, accepted⟩
  · rintro ⟨rfl, inside, accepted⟩
    refine ⟨Nat.le_succ p, inside, (admits _).mpr ⟨byteAt buf p, ?_, accepted⟩⟩
    rw [Nat.add_sub_cancel_left, window_one inside]

theorem steps_hiNibble_iff {h : UInt8} :
    Steps buf nocase (.hiNibble h) p q ↔
      q = p + 1 ∧ p < buf.length ∧ byteAt buf p >>> 4 = h :=
  steps_one_iff (fun b => b >>> 4 = h) fun _ => Iff.rfl

theorem steps_loNibble_iff {l : UInt8} :
    Steps buf nocase (.loNibble l) p q ↔
      q = p + 1 ∧ p < buf.length ∧ byteAt buf p &&& 0x0f = l :=
  steps_one_iff (fun b => b &&& 0x0f = l) fun _ => Iff.rfl

theorem steps_gap_iff {min : Nat} {max : Option Nat} :
    Steps buf nocase (.gap min max) p q ↔
      p + min ≤ q ∧ (∀ m ∈ max, q ≤ p + m) ∧ q ≤ buf.length := by
  constructor
  · rintro ⟨ordered, inside, longEnough, shortEnough⟩
    rw [length_window] at longEnough
    refine ⟨by omega, ?_, inside⟩
    intro m member
    have bounded := shortEnough m member
    rw [length_window] at bounded
    omega
  · rintro ⟨lower, upper, inside⟩
    refine ⟨by omega, inside, ?_, ?_⟩
    · rw [length_window]
      omega
    · intro m member
      have bounded := upper m member
      rw [length_window]
      omega

theorem steps_alt_iff {opts : List Bytes} :
    Steps buf nocase (.alt opts false) p q ↔
      ∃ o ∈ opts, q = p + o.length ∧ q ≤ buf.length ∧
        occursAt (haystack nocase buf) (haystack nocase o) p = true := by
  constructor
  · rintro ⟨ordered, inside, o, member, admits⟩
    have width := window_width inside (bytesEq_length admits) ordered
    refine ⟨o, member, width, inside, ?_⟩
    subst q
    rw [Nat.add_sub_cancel_left] at admits
    exact occursAt_haystack.trans admits
  · rintro ⟨o, member, rfl, inside, occurs⟩
    refine ⟨Nat.le_add_right _ _, inside, o, member, ?_⟩
    rw [Nat.add_sub_cancel_left]
    exact occursAt_haystack.symm.trans occurs

theorem steps_neg_iff {opts : List Bytes} {l : Nat} (nonempty : opts ≠ [])
    (widths : ∀ o ∈ opts, o.length = l) :
    Steps buf nocase (.alt opts true) p q ↔
      q = p + l ∧ q ≤ buf.length ∧ ∀ o ∈ opts,
        occursAt (haystack nocase buf) (haystack nocase o) p = false := by
  constructor
  · rintro ⟨ordered, inside, admits⟩
    obtain ⟨first, firstMember⟩ := List.exists_mem_of_ne_nil opts nonempty
    have segment := (admits first firstMember).1
    rw [widths first firstMember] at segment
    have width := window_width inside segment ordered
    refine ⟨width, inside, ?_⟩
    intro o member
    have differs := (admits o member).2
    rw [width, Nat.add_sub_cancel_left, ← widths o member] at differs
    exact occursAt_haystack.trans differs
  · rintro ⟨rfl, inside, differs⟩
    refine ⟨Nat.le_add_right _ _, inside, ?_⟩
    intro o member
    rw [Nat.add_sub_cancel_left]
    refine ⟨?_, ?_⟩
    · rw [length_window_of_le inside, widths o member]
    · rw [← widths o member]
      exact occursAt_haystack.symm.trans (differs o member)

theorem steps_altMasked_iff {opts : List (List (UInt8 × UInt8))} :
    Steps buf nocase (.altMasked opts) p q ↔
      ∃ o ∈ opts, q = p + o.length ∧ q ≤ buf.length ∧
        maskedEq o (window buf p o.length) nocase = true := by
  constructor
  · rintro ⟨ordered, inside, o, member, admits⟩
    have width := window_width inside (maskedEq_length admits).symm ordered
    refine ⟨o, member, width, inside, ?_⟩
    subst q
    rwa [Nat.add_sub_cancel_left] at admits
  · rintro ⟨o, member, rfl, inside, equal⟩
    refine ⟨Nat.le_add_right _ _, inside, o, member, ?_⟩
    rwa [Nat.add_sub_cancel_left]

end Elem

end Exav.Engine
