import Mathlib.Algebra.GroupWithZero.Nat
import Mathlib.Data.List.Basic

/-!
# Separate arrays

A memory gives each region an array of its own, or none.  A write inside one
replaces exactly the items it names, and a new region leaves the others alone.
-/

namespace Exav.Arrays

section

variable {ι α : Type}

/-- `items` put over an array from `off` on. -/
def patch (array : List α) (off : Nat) (items : List α) : List α :=
  array.take off ++ items ++ array.drop (off + items.length)

theorem length_patch {array items : List α} {off : Nat}
    (fits : off + items.length ≤ array.length) :
    (patch array off items).length = array.length := by
  simp only [patch, List.length_append, List.length_take, List.length_drop]
  omega

theorem getElem?_patch {array items : List α} {off : Nat}
    (fits : off + items.length ≤ array.length) (i : Nat) :
    (patch array off items)[i]? =
      if off ≤ i ∧ i < off + items.length then items[i - off]?
      else array[i]? := by
  have front : (array.take off).length = off := by
    rw [List.length_take]
    omega
  unfold patch
  by_cases before : i < off
  · rw [if_neg (by omega), List.append_assoc,
      List.getElem?_append_left (by omega), List.getElem?_take_of_lt before]
  · by_cases within : i < off + items.length
    · rw [if_pos (by omega), List.append_assoc,
        List.getElem?_append_right (by omega), front,
        List.getElem?_append_left (by omega)]
    · rw [if_neg (by omega), List.getElem?_append_right (by
        rw [List.length_append, front]
        omega), List.getElem?_drop, List.length_append, front]
      congr 1
      omega

theorem take_drop_patch_apart {array items : List α} {off start n : Nat}
    (fits : off + items.length ≤ array.length)
    (apart : start + n ≤ off ∨ off + items.length ≤ start) :
    ((patch array off items).drop start).take n = (array.drop start).take n := by
  apply List.ext_getElem?
  intro i
  by_cases inside : i < n
  · rw [List.getElem?_take_of_lt inside, List.getElem?_take_of_lt inside,
      List.getElem?_drop, List.getElem?_drop, getElem?_patch fits,
      if_neg (by omega)]
  · rw [List.getElem?_take_eq_none (by omega),
      List.getElem?_take_eq_none (by omega)]

/-- An array for each region there is. -/
abbrev Memory (ι α : Type) := ι → Option (List α)

variable {mem after : Memory ι α} {region : ι} {array items : List α}
  {off : Nat}

def item (mem : Memory ι α) (region : ι) (i : Nat) : Option α :=
  (mem region).bind fun array => array[i]?

/-- `n` items from `off` on lie inside the region. -/
def Inside (mem : Memory ι α) (region : ι) (off n : Nat) : Prop :=
  ∃ array, mem region = some array ∧ off + n ≤ array.length

/-- Exactly the items from `off` on are replaced, and no size changes. -/
structure Overwrites (mem after : Memory ι α) (region : ι) (off : Nat)
    (items : List α) : Prop where
  sizes : ∀ r, (after r).map List.length = (mem r).map List.length
  inside : ∀ i < items.length, item after region (off + i) = items[i]?
  outside : ∀ r i, ¬(r = region ∧ off ≤ i ∧ i < off + items.length) →
    item after r i = item mem r i

/-- A region there was not, of one item throughout; the others are as before. -/
structure Allocates (mem after : Memory ι α) (region : ι) (size : Nat)
    (fill : α) : Prop where
  fresh : mem region = none
  filled : after region = some (List.replicate size fill)
  others : ∀ r, r ≠ region → after r = mem r

variable [DecidableEq ι]

theorem overwrites_update (here : mem region = some array)
    (fits : off + items.length ≤ array.length) :
    Overwrites mem (Function.update mem region (some (patch array off items)))
      region off items := by
  refine ⟨?_, ?_, ?_⟩
  · intro r
    by_cases same : r = region
    · subst same
      rw [Function.update_self, here, Option.map_some, Option.map_some,
        length_patch fits]
    · rw [Function.update_of_ne same]
  · intro i inside
    rw [item, Function.update_self, Option.bind_some, getElem?_patch fits,
      if_pos (by omega), Nat.add_sub_cancel_left]
  · intro r i apart
    by_cases same : r = region
    · subst same
      rw [item, Function.update_self, Option.bind_some, getElem?_patch fits,
        if_neg (fun within => apart ⟨rfl, within⟩), item, here,
        Option.bind_some]
    · rw [item, item, Function.update_of_ne same]

end

end Exav.Arrays

/-!
## Fields written in place

A number stands in a byte string as a field of a fixed width, least significant
byte first.
-/

namespace Exav.Fields

open Exav.Arrays

/-! ## Numbers as bytes -/

/-- The lowest `w` bytes of a number, least significant first. -/
def le : Nat → Nat → List UInt8
  | 0, _ => []
  | w + 1, n => UInt8.ofNat n :: le w (n / 256)

/-- The number that bytes stand for. -/
def ofLe : List UInt8 → Nat
  | [] => 0
  | b :: bytes => b.toNat + 256 * ofLe bytes

@[simp] theorem length_le (w n : Nat) : (le w n).length = w := by
  induction w generalizing n with
  | zero => rfl
  | succ w ih => rw [le, List.length_cons, ih]

theorem le_ofLe (bytes : List UInt8) : le bytes.length (ofLe bytes) = bytes := by
  induction bytes with
  | nil => rfl
  | cons b bytes ih =>
      have small : b.toNat < 256 := b.toNat_lt
      have low : UInt8.ofNat (b.toNat + 256 * ofLe bytes) = b := by
        apply UInt8.toNat_inj.mp
        rw [UInt8.toNat_ofNat']
        omega
      have high : (b.toNat + 256 * ofLe bytes) / 256 = ofLe bytes := by omega
      rw [List.length_cons, le, ofLe, low, high, ih]

theorem ofLe_lt (bytes : List UInt8) : ofLe bytes < 256 ^ bytes.length := by
  induction bytes with
  | nil => exact Nat.one_pos
  | cons b bytes ih =>
      have small : b.toNat < 256 := b.toNat_lt
      rw [ofLe, List.length_cons, Nat.pow_succ]
      omega

theorem ofLe_append (a b : List UInt8) :
    ofLe (a ++ b) = ofLe a + 256 ^ a.length * ofLe b := by
  induction a with
  | nil => simp [ofLe]
  | cons x a ih =>
      rw [List.cons_append, ofLe, ofLe, ih, List.length_cons, Nat.pow_succ',
        Nat.mul_add, Nat.mul_assoc, Nat.add_assoc]

theorem ofLe_le {w n : Nat} (fits : n < 256 ^ w) : ofLe (le w n) = n := by
  induction w generalizing n with
  | zero =>
      obtain rfl : n = 0 := by simpa using fits
      rfl
  | succ w ih =>
      have high : n / 256 < 256 ^ w := by
        rw [Nat.pow_succ] at fits
        omega
      rw [le, ofLe, ih high, UInt8.toNat_ofNat']
      omega

end Exav.Fields
