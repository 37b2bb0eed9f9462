import Exav.Lib.Bump
import Exav.Bytecode.Machine

/-!
# Where the values of a frame lie

A frame reserves for each value the size of its type, and every access to it is
as wide as its type id says.  The two differ for a type that is declared and
takes less than eight bytes: such a value stays apart from the others only where
the padding behind it makes up for them.
-/

namespace Exav.Bytecode

open Exav.Bump Exav.Arrays

/-! ## Alignments -/

theorem bitsToBytes_align (bits : Nat) :
    max (bitsToBytes bits) 1 ∈ [1, 2, 4, 8] := by
  simpa using width_cases bits

namespace TypeTable

variable (types : TypeTable)

theorem alignDepth_cases (depth t : Nat) :
    types.alignDepth depth t ∈ [1, 2, 4, 8] := by
  induction depth generalizing t with
  | zero => simp [alignDepth]
  | succ depth ih =>
      unfold alignDepth
      split
      · rename_i small
        rw [sizeDepth, if_pos small]
        exact bitsToBytes_align t
      · split
        · simp
        · exact ih _
        · rename_i fields declared
          cases strictest : (fields.map (types.alignDepth depth)).max? with
          | none => simp
          | some align =>
              have member := List.max?_mem strictest
              obtain ⟨field, -, rfl⟩ := List.mem_map.mp member
              exact ih field
        · simp

/-- Alignments are powers of two. -/
theorem align_cases (id : Nat) :
    types.align id = 1 ∨ types.align id = 2 ∨ types.align id = 4 ∨
      types.align id = 8 := by
  simpa [align] using types.alignDepth_cases 65 (id % 0x8000)

theorem align_pos (id : Nat) : 0 < types.align id := by
  rcases types.align_cases id with h | h | h | h <;> omega

theorem align_le (id : Nat) : types.align id ≤ 8 := by
  rcases types.align_cases id with h | h | h | h <;> omega

end TypeTable

/-! ## Without saturation -/

/-- A value as it is laid out. -/
def itemOf (types : TypeTable) (ty : Nat) : Item where
  align := types.align ty
  size := max (types.size ty) 1
  width := max (typeBytes ty) 1
  aligned := types.align_pos ty
  sized := Nat.le_max_right _ _
  accessed := Nat.le_max_right _ _

def Slot.ofSpan (span : Span) : Slot :=
  ⟨span.start, span.width⟩

section

variable (types : TypeTable)

theorem layoutStep_start (ty : Nat) (laid : List Slot × Nat)
    (small : laid.2 + 7 ≤ usizeMax) :
    saturatingAdd laid.2 (max (types.align ty) 1 - 1) /
        max (types.align ty) 1 * max (types.align ty) 1 =
      roundUp (types.align ty) laid.2 := by
  have positive := types.align_pos ty
  have bounded := types.align_le ty
  have whole : max (types.align ty) 1 = types.align ty := by omega
  rw [whole, saturatingAdd, Nat.min_eq_left (by omega), roundUp]

theorem layoutStep_grows (ty : Nat) (laid : List Slot × Nat) {bound : Nat}
    (low : bound + 7 ≤ usizeMax) (past : bound ≤ laid.2) :
    bound ≤ (layoutStep types laid ty).2 := by
  have positive := types.align_pos ty
  have bounded := types.align_le ty
  have whole : max (types.align ty) 1 = types.align ty := by omega
  have split := Nat.div_add_mod
    (saturatingAdd laid.2 (types.align ty - 1)) (types.align ty)
  have rest := Nat.mod_lt
    (saturatingAdd laid.2 (types.align ty - 1)) positive
  rw [Nat.mul_comm] at split
  simp only [layoutStep, whole]
  unfold saturatingAdd at *
  omega

theorem foldl_grows {bound : Nat} (low : bound + 7 ≤ usizeMax)
    (tys : List Nat) (laid : List Slot × Nat) (past : bound ≤ laid.2) :
    bound ≤ (tys.foldl (layoutStep types) laid).2 := by
  induction tys generalizing laid with
  | nil => exact past
  | cons ty tys ih => exact ih _ (layoutStep_grows types ty laid low past)

theorem le_of_foldl (tys : List Nat) (laid : List Slot × Nat)
    (fits : (tys.foldl (layoutStep types) laid).2 ≤ maxBytes) :
    laid.2 ≤ maxBytes := by
  by_contra past
  have low : maxBytes + 1 + 7 ≤ usizeMax := by decide
  have grown := foldl_grows types low tys laid (by omega)
  omega

theorem layoutStep_eq (ty : Nat) (laid : List Slot × Nat)
    (here : laid.2 ≤ maxBytes)
    (next : (layoutStep types laid ty).2 ≤ maxBytes) :
    layoutStep types laid ty =
      (laid.1 ++ [Slot.ofSpan
          ⟨roundUp (itemOf types ty).align laid.2, (itemOf types ty).width⟩],
        roundUp (itemOf types ty).align laid.2 + (itemOf types ty).size) := by
  have limit : maxBytes + 7 < usizeMax ∧ maxBytes + 7 < 2 ^ 32 := by decide
  have start := layoutStep_start types ty laid (by omega)
  have near := roundUp_le (types.align ty) laid.2
  have bounded := types.align_le ty
  simp only [layoutStep, start] at next ⊢
  have exact_size : saturatingAdd (roundUp (types.align ty) laid.2)
      (max (types.size ty) 1) =
        roundUp (types.align ty) laid.2 + max (types.size ty) 1 := by
    unfold saturatingAdd at next ⊢
    omega
  rw [exact_size, Nat.mod_eq_of_lt (by omega)]
  rfl

/-- A layout that ends below the limit is the one of unbounded numbers. -/
theorem foldl_layoutStep (tys : List Nat) (laid : List Slot × Nat)
    (fits : (tys.foldl (layoutStep types) laid).2 ≤ maxBytes) :
    tys.foldl (layoutStep types) laid =
      (laid.1 ++ (place laid.2 (tys.map (itemOf types))).map Slot.ofSpan,
        stop laid.2 (tys.map (itemOf types))) := by
  induction tys generalizing laid with
  | nil => simp [place, stop]
  | cons ty tys ih =>
      have here := le_of_foldl types (ty :: tys) laid fits
      have next := le_of_foldl types tys (layoutStep types laid ty) fits
      rw [List.foldl_cons, ih _ fits, layoutStep_eq types ty laid here next]
      simp [place, stop]

/-- The values of a function, as they are laid out. -/
def itemsOf (f : Function) : List Item :=
  f.types.map (itemOf types)

theorem layout_eq (f : Function) (fits : (layout f types).2 ≤ maxBytes) :
    layout f types =
      ((place 0 (itemsOf types f)).map Slot.ofSpan,
        roundUp 8 (stop 0 (itemsOf types f))) := by
  have inner : (f.types.foldl (layoutStep types) ([], 0)).2 ≤ maxBytes := by
    by_contra past
    have padded : maxBytes + 7 < usizeMax ∧ maxBytes % 8 = 0 := by decide
    unfold layout saturatingAdd at fits
    dsimp only at fits
    omega
  have low : maxBytes + 7 ≤ usizeMax := by decide
  have laid := foldl_layoutStep types f.types ([], 0) inner
  rw [List.nil_append] at laid
  dsimp only at laid
  rw [laid] at inner
  dsimp only at inner
  rw [layout, laid, saturatingAdd, Nat.min_eq_left (by omega)]
  rfl

end

/-! ## What keeps the values apart -/

/-- A type that takes less than the eight bytes its values are accessed at. -/
def Narrow (types : TypeTable) (ty : Nat) : Prop :=
  64 < ty % 0x8000 ∧ types.size ty < 8

/-- Where the value after `at'` bytes starts, or the padded frame ends. -/
def nextStart (types : TypeTable) (at' : Nat) : List Nat → Nat
  | [] => roundUp 8 at'
  | ty :: _ => roundUp (types.align ty) at'

/-- Behind each narrow value there are eight bytes from its start to where the
next value, or the end of the frame, is aligned to. -/
def Padded (types : TypeTable) : (at' : Nat) → List Nat → Prop
  | _, [] => True
  | at', ty :: tys =>
      let start := roundUp (types.align ty) at'
      let stop := start + max (types.size ty) 1
      (Narrow types ty → start + 8 ≤ nextStart types stop tys) ∧
        Padded types stop tys

theorem nextStart_eq (types : TypeTable) (at' : Nat) (tys : List Nat) :
    nextStart types at' tys =
      following 8 at' (tys.map (itemOf types)) := by
  cases tys <;> rfl

theorem le_following {outer at' : Nat} (positive : 0 < outer)
    (items : List Item) : at' ≤ following outer at' items := by
  cases items with
  | nil => exact le_roundUp positive at'
  | cons item items => exact le_roundUp item.aligned at'

/-- Only a narrow value is accessed wider than it is taken for. -/
theorem width_le {types : TypeTable} {ty : Nat} (wide : ¬ Narrow types ty) :
    max (typeBytes ty) 1 ≤ max (types.size ty) 1 := by
  by_cases small : ty % 0x8000 ≤ 64
  · have same : types.size ty = typeBytes ty := by
      rw [TypeTable.size, TypeTable.sizeDepth, if_pos small, typeBytes]
    rw [same]
  · have eight : ¬ types.size ty < 8 :=
      fun few => wide ⟨Nat.lt_of_not_le small, few⟩
    have bounded : typeBytes ty ≤ 8 := by
      have widths := bitsToBytes_cases (ty % 0x8000)
      unfold typeBytes
      omega
    omega

theorem width_narrow {types : TypeTable} {ty : Nat} (narrow : Narrow types ty) :
    max (typeBytes ty) 1 = 8 := by
  have big := narrow.1
  unfold typeBytes bitsToBytes
  rw [if_neg (by omega), if_neg (by omega), if_neg (by omega),
    if_neg (by omega)]
  rfl

theorem padded_iff_roomy (types : TypeTable) (at' : Nat) (tys : List Nat) :
    Padded types at' tys ↔ Roomy 8 at' (tys.map (itemOf types)) := by
  induction tys generalizing at' with
  | nil => simp [Padded, Roomy]
  | cons ty tys ih =>
      rw [List.map_cons, Padded, Roomy, ih]
      apply and_congr_left
      intro _
      rw [nextStart_eq]
      by_cases narrow : Narrow types ty
      · rw [imp_iff_right narrow]
        simp only [itemOf, width_narrow narrow]
      · have wide := width_le narrow
        have behind := @le_following 8
          (roundUp (types.align ty) at' + max (types.size ty) 1) (by decide)
          (tys.map (itemOf types))
        simp only [narrow, false_implies, true_iff, itemOf]
        omega

/-! ## Values that do not overlap -/

/-- What a frame is laid out for: its values are apart, aligned and inside, and
writing one does not change what is read of another. -/
structure Apart (f : Function) (types : TypeTable) : Prop where
  disjoint : ∀ (i j : Nat) (s t : Slot), i ≠ j → (layout f types).1[i]? = some s →
    (layout f types).1[j]? = some t →
      s.off + s.w ≤ t.off ∨ t.off + t.w ≤ s.off
  aligned : ∀ (i : Nat) (s : Slot) ty, (layout f types).1[i]? = some s →
    f.types[i]? = some ty → s.off % types.align ty = 0
  inside : ∀ s ∈ (layout f types).1, s.off + s.w ≤ (layout f types).2
  unchanged : ∀ (m : Machine) (fi i j : Nat) fr (t : Slot) v, m.frames[fi]? = some fr →
    fr.slots = (layout f types).1 →
    fr.stack.length = (layout f types).2 → i ≠ j →
    i < f.types.length → (layout f types).1[j]? = some t →
      (setValue fi i v m).2.halt = m.halt ∧
        (rdMem fi t.off t.w (setValue fi i v m).2).1 =
          (rdMem fi t.off t.w m).1

section

variable {f : Function} {types : TypeTable}

theorem aligned_place (at' : Nat) (tys : List Nat) {i : Nat} {span : Span}
    {ty : Nat} (laid : (place at' (tys.map (itemOf types)))[i]? = some span)
    (typed : tys[i]? = some ty) : span.start % types.align ty = 0 := by
  induction tys generalizing at' i with
  | nil => cases typed
  | cons head tys ih =>
      cases i with
      | zero =>
          simp only [List.map_cons, place, List.getElem?_cons_zero,
            Option.some.injEq] at laid typed
          subst laid typed
          exact roundUp_mod _ _
      | succ i => exact ih _ laid typed

theorem accessed_place {at' i : Nat} (items : List Item) {span : Span}
    (laid : (place at' items)[i]? = some span) : 0 < span.width := by
  induction items generalizing at' i with
  | nil => cases laid
  | cons item items ih =>
      cases i with
      | zero =>
          simp only [place, List.getElem?_cons_zero, Option.some.injEq] at laid
          subst laid
          exact item.accessed
      | succ i => exact ih laid

theorem pairwise_apart {spans : List Span}
    (disjoint : spans.Pairwise Span.Apart) {i j : Nat} {s t : Span}
    (different : i ≠ j) (first : spans[i]? = some s)
    (second : spans[j]? = some t) : s.Apart t := by
  obtain ⟨inside, rfl⟩ := List.getElem?_eq_some_iff.mp first
  obtain ⟨inside', rfl⟩ := List.getElem?_eq_some_iff.mp second
  rw [List.pairwise_iff_getElem] at disjoint
  rcases Nat.lt_or_gt_of_ne different with before | behind
  · exact disjoint i j inside inside' before
  · exact (disjoint j i inside' inside behind).symm

theorem setValue_apart {m : Machine} {fi i : Nat} {fr : Frame} {s t : Slot}
    {v : Word} (here : m.frames[fi]? = some fr) (slot : fr.slots[i]? = some s)
    (positive : s.w ≠ 0) (fits : s.off + s.w ≤ fr.stack.length)
    (apart : s.off + s.w ≤ t.off ∨ t.off + t.w ≤ s.off) :
    (setValue fi i v m).2.halt = m.halt ∧
      (rdMem fi t.off t.w (setValue fi i v m).2).1 =
        (rdMem fi t.off t.w m).1 := by
  have wrote : (setValue fi i v m).2 =
      m.putStack fi (patch fr.stack s.off (toLe s.w v)) := by
    simp only [setValue, get_then, Bytecode.slot, here, Option.bind_some, slot,
      wrMem, positive, ne_eq, not_false_eq_true, fits, and_self, if_true]
    rfl
  have width : s.off + (toLe s.w v).length ≤ fr.stack.length := by
    rwa [length_toLe]
  have read : readLe (patch fr.stack s.off (toLe s.w v)) t.off t.w =
      readLe fr.stack t.off t.w := by
    unfold readLe
    rw [length_patch width]
    rw [window, window, take_drop_patch_apart width
      (by rw [length_toLe]; exact apart.symm)]
  have there : (m.putStack fi (patch fr.stack s.off (toLe s.w v))).frames[fi]? =
      some { fr with stack := patch fr.stack s.off (toLe s.w v) } := by
    rw [Machine.putStack, List.getElem?_modify_eq, here]
    rfl
  rw [wrote]
  refine ⟨rfl, ?_⟩
  simp only [rdMem, get_then, there, here, Option.bind_some, read]
  cases readLe fr.stack t.off t.w with
  | none => rfl
  | some value => split <;> rfl

/-- Values are apart, aligned, inside and not written through one another
exactly when every narrow one is padded. -/
theorem layout_apart_iff (fits : (layout f types).2 ≤ maxBytes) :
    Apart f types ↔ Padded types 0 f.types := by
  rw [padded_iff_roomy, ← separate_iff (by decide)]
  have laid := layout_eq types f fits
  constructor
  · intro apart
    have disjoint := apart.disjoint
    have inside := apart.inside
    rw [laid] at disjoint inside
    constructor
    · rw [List.pairwise_iff_getElem]
      intro i j first second before
      have spot (k : Nat) (inside : k < (place 0 (itemsOf types f)).length) :
          ((place 0 (itemsOf types f)).map Slot.ofSpan)[k]? =
            some (Slot.ofSpan (place 0 (itemsOf types f))[k]) := by
        rw [List.getElem?_map, List.getElem?_eq_getElem inside]
        rfl
      exact disjoint i j _ _ (Nat.ne_of_lt before) (spot i first)
        (spot j second)
    · intro span member
      exact inside _ (List.mem_map_of_mem member)
  · rintro ⟨disjoint, inside⟩
    have slots (i : Nat) (s : Slot)
        (found : (layout f types).1[i]? = some s) :
        ∃ span, (place 0 (itemsOf types f))[i]? = some span ∧
          Slot.ofSpan span = s := by
      rw [laid, List.getElem?_map, Option.map_eq_some_iff] at found
      exact found
    have apart (i j : Nat) (s t : Slot) (different : i ≠ j)
        (first : (layout f types).1[i]? = some s)
        (second : (layout f types).1[j]? = some t) :
        s.off + s.w ≤ t.off ∨ t.off + t.w ≤ s.off := by
      obtain ⟨span, here, rfl⟩ := slots i s first
      obtain ⟨span', there, rfl⟩ := slots j t second
      exact pairwise_apart disjoint different here there
    have within (i : Nat) (s : Slot) (found : (layout f types).1[i]? = some s) :
        s.off + s.w ≤ (layout f types).2 := by
      obtain ⟨span, here, rfl⟩ := slots i s found
      rw [laid]
      exact inside span (List.mem_of_getElem? here)
    refine ⟨apart, ?_, ?_, ?_⟩
    · intro i s ty found typed
      obtain ⟨span, here, rfl⟩ := slots i s found
      exact aligned_place 0 f.types here typed
    · intro s member
      obtain ⟨i, found⟩ := List.mem_iff_getElem?.mp member
      exact within i s found
    · intro m fi i j fr t v here laid_out sized different bound found
      have count : i < (layout f types).1.length := by
        rw [laid, List.length_map, length_place, itemsOf, List.length_map]
        exact bound
      have written := List.getElem?_eq_getElem count
      obtain ⟨span, place_here, same⟩ := slots i _ written
      have positive : ((layout f types).1[i]).w ≠ 0 := by
        rw [← same]
        exact Nat.ne_of_gt (accessed_place _ place_here)
      apply setValue_apart here (by rw [laid_out]; exact written) positive
      · rw [sized]
        exact within i _ written
      · exact apart i j _ t different written found

/-- Two bytes, of which the first is an array of one. -/
def narrowTypes : TypeTable :=
  ⟨[.pointer 8, .pointer 16, .pointer 32, .pointer 64, .array 1 8]⟩

theorem layout_apart_bytes :
    Apart ⟨[8, 16], []⟩ narrowTypes ↔ Padded narrowTypes 0 [8, 16] :=
  layout_apart_iff (by decide)

/-- A value in an array of one byte is accessed over the value behind it. -/
theorem not_apart_narrow : ¬ ∀ (f : Function) (types : TypeTable),
    (layout f types).2 ≤ maxBytes → Apart f types := by
  intro always
  have apart := always ⟨[69, 8], []⟩ narrowTypes (by decide)
  have first : (layout ⟨[69, 8], []⟩ narrowTypes).1[0]? = some ⟨0, 8⟩ := by
    decide
  have second : (layout ⟨[69, 8], []⟩ narrowTypes).1[1]? = some ⟨1, 1⟩ := by
    decide
  have overlap := apart.disjoint 0 1 _ _ (by decide) first second
  exact absurd overlap (by decide)

end

end Exav.Bytecode
