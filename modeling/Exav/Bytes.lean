import Mathlib.Algebra.GroupWithZero.Nat
import Mathlib.Algebra.Ring.Int.Defs
import Mathlib.Data.Fintype.Basic

/-!
# The bytes of an object

An object held in memory is the list of its bytes.  `window` and `find` are the
two reads every consumer makes, and `fold` is ASCII lowercasing, by which
case-insensitive comparisons are made.
-/

namespace Exav

abbrev Bytes := List UInt8

theorem forall_byte {property : UInt8 → Prop}
    (checked : ∀ n : Fin 256, property (UInt8.ofNat n)) (b : UInt8) :
    property b := by
  have bound : b.toNat < 256 := b.toNat_lt
  simpa using checked ⟨b.toNat, bound⟩

/-- ASCII lowercasing of one byte. -/
def fold (b : UInt8) : UInt8 :=
  if 65 ≤ b ∧ b ≤ 90 then b ||| 0x20 else b

@[simp] theorem fold_fold (b : UInt8) : fold (fold b) = fold b := by
  revert b
  apply forall_byte
  decide +kernel

/-- An object lowercased, position by position. -/
def lower (buf : Bytes) : Bytes :=
  buf.map fold

@[simp] theorem length_lower (buf : Bytes) :
    (lower buf).length = buf.length := by
  simp [lower]

/-- Up to `len` bytes from `off`, fewer where the object ends. -/
def window (buf : Bytes) (off len : Nat) : Bytes :=
  (buf.drop off).take len

@[simp] theorem length_window (buf : Bytes) (off len : Nat) :
    (window buf off len).length = min len (buf.length - off) := by
  simp [window]

theorem length_window_of_le {buf : Bytes} {off len : Nat}
    (fits : off + len ≤ buf.length) : (window buf off len).length = len := by
  rw [length_window]
  omega

theorem window_lower (buf : Bytes) (off len : Nat) :
    window (lower buf) off len = lower (window buf off len) := by
  simp [window, lower, List.map_take, List.map_drop]

theorem getElem?_window (buf : Bytes) {off len i : Nat} (inside : i < len) :
    (window buf off len)[i]? = buf[off + i]? := by
  simp [window, inside]

theorem window_window (data : Bytes) {start len skip want : Nat}
    (fits : skip + want ≤ len) :
    window (window data start len) skip want =
      window data (start + skip) want := by
  simp only [window, List.drop_take, List.drop_drop, List.take_take]
  congr 1
  omega

theorem window_append (data : Bytes) (start len more : Nat) :
    window data start len ++ window data (start + len) more =
      window data start (len + more) := by
  simp only [window, List.take_add, List.drop_drop]

/-- The byte at `i`, which the caller has checked is inside the object. -/
def byteAt (buf : Bytes) (i : Nat) : UInt8 :=
  (window buf i 1).head?.getD 0

theorem byteAt_eq (buf : Bytes) (i : Nat) : byteAt buf i = buf[i]?.getD 0 := by
  unfold byteAt window
  rw [List.head?_take, if_neg (by omega), List.head?_drop]

def eqIgnoreAsciiCase (a b : Bytes) : Bool :=
  lower a == lower b

def bytesEq (a b : Bytes) (nocase : Bool) : Bool :=
  if nocase then eqIgnoreAsciiCase a b else a == b

theorem bytesEq_length {a b : Bytes} {nocase : Bool}
    (equal : bytesEq a b nocase = true) : a.length = b.length := by
  unfold bytesEq eqIgnoreAsciiCase at equal
  cases nocase with
  | false => simpa using congrArg List.length (beq_iff_eq.mp equal)
  | true => simpa using congrArg List.length (beq_iff_eq.mp equal)

/-- The object as a search under `nocase` reads it. -/
def haystack (nocase : Bool) (buf : Bytes) : Bytes :=
  if nocase then lower buf else buf

@[simp] theorem length_haystack (nocase : Bool) (buf : Bytes) :
    (haystack nocase buf).length = buf.length := by
  cases nocase <;> simp [haystack]

theorem window_haystack (nocase : Bool) (buf : Bytes) (off len : Nat) :
    window (haystack nocase buf) off len =
      haystack nocase (window buf off len) := by
  cases nocase <;> simp [haystack, window_lower]

/-- Two strings agree under `nocase` when they are read as the same bytes. -/
theorem bytesEq_iff {a b : Bytes} {nocase : Bool} :
    bytesEq a b nocase = true ↔ haystack nocase a = haystack nocase b := by
  cases nocase <;> simp [bytesEq, eqIgnoreAsciiCase, haystack]

/-- `pat` stands at `q` in `hay`. -/
def occursAt (hay pat : Bytes) (q : Nat) : Bool :=
  window hay q pat.length == pat

theorem occursAt_iff_getElem? {hay pat : Bytes} {q : Nat} :
    occursAt hay pat q = true ↔ ∀ i < pat.length, hay[q + i]? = pat[i]? := by
  rw [occursAt, beq_iff_eq]
  constructor
  · intro equal i inside
    rw [← getElem?_window hay inside, equal]
  · intro agree
    apply List.ext_getElem?
    intro i
    by_cases inside : i < pat.length
    · rw [getElem?_window hay inside, agree i inside]
    · rw [List.getElem?_eq_none (by rw [length_window]; omega),
        List.getElem?_eq_none (by omega)]

theorem occursAt_haystack {buf pat : Bytes} {nocase : Bool} {q : Nat} :
    occursAt (haystack nocase buf) (haystack nocase pat) q =
      bytesEq (window buf q pat.length) pat nocase := by
  rw [Bool.eq_iff_iff, bytesEq_iff, occursAt, beq_iff_eq, length_haystack,
    window_haystack]

theorem occursAt_fits {hay pat : Bytes} {q : Nat}
    (occurs : occursAt hay pat q = true) (nonempty : pat ≠ []) :
    q + pat.length ≤ hay.length := by
  have equal := congrArg List.length (beq_iff_eq.mp occurs)
  rw [length_window] at equal
  have positive := List.length_pos_iff.mpr nonempty
  omega

/-- Start of the first occurrence of `needle` lying wholly inside
`from..to`. -/
def find (hay needle : Bytes) (start stop : Nat) : Option Nat :=
  let stop := min stop hay.length
  if needle.length + start > stop then none
  else (List.range' start (stop - needle.length + 1 - start)).find?
    (occursAt hay needle)

theorem find_eq_some {hay needle : Bytes} {start stop q : Nat}
    (found : find hay needle start stop = some q) :
    start ≤ q ∧ q + needle.length ≤ stop ∧ occursAt hay needle q = true ∧
      ∀ r, start ≤ r → r < q → occursAt hay needle r = false := by
  unfold find at found
  dsimp only at found
  split at found
  case isTrue short => cases found
  case isFalse fits =>
    obtain ⟨occurs, index, inside, here, earlier⟩ :=
      List.find?_eq_some_iff_getElem.mp found
    rw [List.getElem_range'] at here
    rw [List.length_range'] at inside
    refine ⟨by omega, by omega, occurs, ?_⟩
    intro r above below
    have absent := earlier (r - start) (by omega)
    rw [List.getElem_range'] at absent
    have position : start + 1 * (r - start) = r := by omega
    rw [position] at absent
    simpa using absent

theorem find_eq_none {hay needle : Bytes} {start stop : Nat}
    (missing : find hay needle start stop = none) (q : Nat)
    (above : start ≤ q) (below : q + needle.length ≤ stop)
    (inside : q + needle.length ≤ hay.length) :
    occursAt hay needle q = false := by
  unfold find at missing
  dsimp only at missing
  split at missing
  case isTrue short => omega
  case isFalse fits =>
    have absent := List.find?_eq_none.mp missing q
      (by rw [List.mem_range'_1]; omega)
    simpa using absent

end Exav
