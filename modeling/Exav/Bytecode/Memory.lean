import Exav.Bytecode.Moves

/-!
# What the machine reads and writes

The regions of a machine as separate arrays.  Values and bulk copies read the
same bytes, a write replaces exactly the bytes it names, an allocation is a
region there was not, and an access outside its region ends the run; a bulk read
alone is cut at the end of its region.
-/

namespace Exav.Bytecode

open Exav.Arrays

/-- The array behind each region.  The zeros have no end, and are none. -/
def memoryOf (ctx : Ctx) (m : Machine) : Memory Nat UInt8 := fun region =>
  if region = rFilesize then some (filesizeBytes ctx)
  else if region = rPedata then
    match ctx.pe with
    | some pe => some pe.pedata
    | none =>
        if ctx.peMissing then none else some (List.replicate pedataLen 0)
  else if region = rMatchoff then some (matchoffBytes ctx)
  else if rGlobal ≤ region then
    (ctx.globals[region - rGlobal]?).map Global.bytes
  else if rHeap ≤ region then m.heaps[region - rHeap]?
  else if rStack ≤ region then (m.frames[region - rStack]?).map Frame.stack
  else none

/-- The frames and the allocations. -/
def Writable (region : Nat) : Prop :=
  rStack ≤ region ∧ region < rGlobal

/-- The run goes on as it was. -/
def Quiet (m after : Machine) : Prop :=
  after.halt = m.halt ∧ after.unsupported = m.unsupported

section

variable {ctx : Ctx} {m : Machine} {region : Nat}

theorem rStack_le_rHeap : rStack ≤ rHeap := by
  decide

theorem rHeap_le_rGlobal : rHeap ≤ rGlobal := by
  decide

theorem predefined_apart (above : rStack ≤ region) :
    region ≠ rFilesize ∧ region ≠ rPedata ∧ region ≠ rZero ∧
      region ≠ rMatchoff := by
  unfold rStack at above
  refine ⟨?_, ?_, ?_, ?_⟩
  · exact Nat.ne_of_gt (Nat.lt_of_lt_of_le (by decide) above)
  · exact Nat.ne_of_gt (Nat.lt_of_lt_of_le (by decide) above)
  · exact Nat.ne_of_gt (Nat.lt_of_lt_of_le (by decide) above)
  · exact Nat.ne_of_gt (Nat.lt_of_lt_of_le (by decide) above)

theorem memoryOf_global (global : rGlobal ≤ region) :
    memoryOf ctx m region =
      (ctx.globals[region - rGlobal]?).map Global.bytes := by
  obtain ⟨size, pedata, -, matchoff⟩ := predefined_apart
    (Nat.le_trans rStack_le_rHeap (Nat.le_trans rHeap_le_rGlobal global))
  rw [memoryOf, if_neg size, if_neg pedata, if_neg matchoff, if_pos global]

theorem memoryOf_heap (heap : rHeap ≤ region ∧ region < rGlobal) :
    memoryOf ctx m region = m.heaps[region - rHeap]? := by
  obtain ⟨size, pedata, -, matchoff⟩ := predefined_apart
    (Nat.le_trans rStack_le_rHeap heap.1)
  rw [memoryOf, if_neg size, if_neg pedata, if_neg matchoff,
    if_neg (Nat.not_le_of_gt heap.2), if_pos heap.1]

theorem memoryOf_stack (stack : rStack ≤ region ∧ region < rHeap) :
    memoryOf ctx m region =
      (m.frames[region - rStack]?).map Frame.stack := by
  obtain ⟨size, pedata, -, matchoff⟩ := predefined_apart stack.1
  rw [memoryOf, if_neg size, if_neg pedata, if_neg matchoff,
    if_neg (Nat.not_le_of_gt (Nat.lt_of_lt_of_le stack.2 rHeap_le_rGlobal)),
    if_neg (Nat.not_le_of_gt stack.2), if_pos stack.1]

/-- The arrays are those of the allocations and the frames. -/
theorem memoryOf_congr {m' : Machine} (heaps : m'.heaps = m.heaps)
    (frames : m'.frames = m.frames) : memoryOf ctx m' = memoryOf ctx m := by
  unfold memoryOf
  rw [heaps, frames]

theorem memoryOf_putHeap {old buf : Bytes}
    (heap : rHeap ≤ region ∧ region < rGlobal)
    (here : m.heaps[region - rHeap]? = some old) :
    memoryOf ctx (m.putHeap (region - rHeap) buf) =
      Function.update (memoryOf ctx m) region (some buf) := by
  funext r
  by_cases same : r = region
  · subst same
    obtain ⟨inside, -⟩ := List.getElem?_eq_some_iff.mp here
    rw [Function.update_self, memoryOf_heap heap, Machine.putHeap,
      List.getElem?_set_self inside]
  · rw [Function.update_of_ne same]
    by_cases other : rHeap ≤ r ∧ r < rGlobal
    · rw [memoryOf_heap other, memoryOf_heap other, Machine.putHeap,
        List.getElem?_set_ne (by omega)]
    · unfold memoryOf Machine.putHeap
      by_cases above : rGlobal ≤ r
      · simp only [if_pos above]
      · have below : ¬ rHeap ≤ r := by omega
        simp only [if_neg below]

theorem memoryOf_putStack {fr : Frame} {stack : Bytes}
    (inside : rStack ≤ region ∧ region < rHeap)
    (here : m.frames[region - rStack]? = some fr) :
    memoryOf ctx (m.putStack (region - rStack) stack) =
      Function.update (memoryOf ctx m) region (some stack) := by
  funext r
  by_cases same : r = region
  · subst same
    rw [Function.update_self, memoryOf_stack inside, Machine.putStack,
      List.getElem?_modify_eq, here]
    rfl
  · rw [Function.update_of_ne same]
    by_cases other : rStack ≤ r ∧ r < rHeap
    · rw [memoryOf_stack other, memoryOf_stack other, Machine.putStack,
        List.getElem?_modify_ne _ _ (by omega)]
    · unfold memoryOf Machine.putStack
      by_cases above : rHeap ≤ r
      · simp only [if_pos above]
      · have below : ¬ rStack ≤ r := by omega
        simp only [if_neg below]

end

/-! ## Writing -/

/-- A write inside a frame or an allocation replaces its bytes and nothing
else, and any other ends the run. -/
structure Writes (ctx : Ctx) (m : Machine) (p : Word) (bytes : Bytes)
    (after : Machine) : Prop where
  inside : Writable (ptrRegion p) →
    Inside (memoryOf ctx m) (ptrRegion p) (ptrOff p).toNat bytes.length →
    Overwrites (memoryOf ctx m) (memoryOf ctx after) (ptrRegion p)
      (ptrOff p).toNat bytes ∧ Quiet m after
  outside : ¬(Writable (ptrRegion p) ∧
    Inside (memoryOf ctx m) (ptrRegion p) (ptrOff p).toNat bytes.length) →
    Flagged after

section

variable {ctx : Ctx} {m : Machine} {p : Word} {bytes : Bytes}

theorem writable_heap {region : Nat}
    (heap : rHeap ≤ region ∧ region < rGlobal) : Writable region :=
  ⟨Nat.le_trans rStack_le_rHeap heap.1, heap.2⟩

theorem writable_stack {region : Nat}
    (stack : rStack ≤ region ∧ region < rHeap) : Writable region :=
  ⟨stack.1, Nat.lt_of_lt_of_le stack.2 rHeap_le_rGlobal⟩

theorem quiet_putHeap (h : Nat) (buf : Bytes) : Quiet m (m.putHeap h buf) :=
  ⟨rfl, rfl⟩

theorem quiet_putStack (frame : Nat) (stack : Bytes) :
    Quiet m (m.putStack frame stack) :=
  ⟨rfl, rfl⟩

theorem writes_putHeap {buf : Bytes}
    (heap : rHeap ≤ ptrRegion p ∧ ptrRegion p < rGlobal)
    (here : m.heaps[ptrRegion p - rHeap]? = some buf)
    (fits : (ptrOff p).toNat + bytes.length ≤ buf.length) :
    Writes ctx m p bytes (m.putHeap (ptrRegion p - rHeap)
      (patch buf (ptrOff p).toNat bytes)) := by
  have found : memoryOf ctx m (ptrRegion p) = some buf := by
    rw [memoryOf_heap heap, here]
  refine ⟨?_, ?_⟩
  · intro _ _
    rw [memoryOf_putHeap heap here]
    exact ⟨overwrites_update found fits, quiet_putHeap _ _⟩
  · intro outside
    exact absurd ⟨writable_heap heap, buf, found, fits⟩ outside

theorem writes_putStack {fr : Frame}
    (stack : rStack ≤ ptrRegion p ∧ ptrRegion p < rHeap)
    (here : m.frames[ptrRegion p - rStack]? = some fr)
    (fits : (ptrOff p).toNat + bytes.length ≤ fr.stack.length) :
    Writes ctx m p bytes (m.putStack (ptrRegion p - rStack)
      (patch fr.stack (ptrOff p).toNat bytes)) := by
  have found : memoryOf ctx m (ptrRegion p) = some fr.stack := by
    rw [memoryOf_stack stack, here, Option.map_some]
  refine ⟨?_, ?_⟩
  · intro _ _
    rw [memoryOf_putStack stack here]
    exact ⟨overwrites_update found fits, quiet_putStack _ _⟩
  · intro outside
    exact absurd ⟨writable_stack stack, fr.stack, found, fits⟩ outside

theorem writes_flagged {after : Machine}
    (outside : ¬(Writable (ptrRegion p) ∧
      Inside (memoryOf ctx m) (ptrRegion p) (ptrOff p).toNat bytes.length))
    (flagged : Flagged after) : Writes ctx m p bytes after :=
  ⟨fun writable inside => absurd ⟨writable, inside⟩ outside, fun _ => flagged⟩

theorem not_inside {region off n : Nat} {buf : Option Bytes}
    (found : memoryOf ctx m region = buf)
    (short : ∀ b, buf = some b → ¬ off + n ≤ b.length) :
    ¬ Inside (memoryOf ctx m) region off n := by
  intro inside
  obtain ⟨b, here, fits⟩ := inside
  rw [found] at here
  exact short b here fits

theorem storeInt_writes {w : Nat} (positive : w ≠ 0) (val : Word) :
    Writes ctx m p (toLe w val) (storeInt p w val m).2 := by
  unfold storeInt
  by_cases heap : rHeap ≤ ptrRegion p ∧ ptrRegion p < rGlobal
  · rw [if_pos heap, wrHeap, get_then]
    cases here : m.heaps[ptrRegion p - rHeap]? with
    | none =>
        apply writes_flagged _ ⟨rfl, rfl⟩
        intro both
        refine not_inside (memoryOf_heap heap) ?_ both.2
        intro b found
        rw [here] at found
        cases found
    | some buf =>
        dsimp only
        by_cases fits : (ptrOff p).toNat + w ≤ buf.length
        · rw [if_pos ⟨positive, fits⟩]
          exact writes_putHeap heap here (by rw [length_toLe]; exact fits)
        · rw [if_neg (fun both => fits both.2)]
          apply writes_flagged _ ⟨rfl, rfl⟩
          intro both
          refine not_inside (memoryOf_heap heap) ?_ both.2
          intro b found
          rw [here] at found
          cases found
          rw [length_toLe]
          exact fits
  · rw [if_neg heap]
    by_cases stack : rStack ≤ ptrRegion p ∧ ptrRegion p < rHeap
    · rw [if_pos stack, wrMem, get_then]
      cases here : m.frames[ptrRegion p - rStack]? with
      | none =>
          apply writes_flagged _ ⟨rfl, rfl⟩
          intro both
          refine not_inside (memoryOf_stack stack) ?_ both.2
          intro b found
          rw [here] at found
          cases found
      | some fr =>
          dsimp only
          by_cases fits : (ptrOff p).toNat + w ≤ fr.stack.length
          · rw [if_pos ⟨positive, fits⟩]
            exact writes_putStack stack here (by rw [length_toLe]; exact fits)
          · rw [if_neg (fun both => fits both.2)]
            apply writes_flagged _ ⟨rfl, rfl⟩
            intro both
            refine not_inside (memoryOf_stack stack) ?_ both.2
            intro b found
            rw [here] at found
            cases found
            rw [length_toLe]
            exact fits
    · rw [if_neg stack]
      apply writes_flagged _ ⟨rfl, rfl⟩
      intro both
      have writable := both.1
      unfold Writable at writable
      omega

theorem Writes.stays {after : Machine} (writes : Writes ctx m p bytes after)
    {region off n : Nat}
    (outside : ¬(Writable region ∧ Inside (memoryOf ctx m) region off n)) :
    Flagged after ∨
      ¬(Writable region ∧ Inside (memoryOf ctx after) region off n) := by
  by_cases here : Writable (ptrRegion p) ∧
      Inside (memoryOf ctx m) (ptrRegion p) (ptrOff p).toNat bytes.length
  · right
    obtain ⟨wrote, -⟩ := writes.inside here.1 here.2
    intro both
    apply outside
    refine ⟨both.1, ?_⟩
    obtain ⟨array, found, fits⟩ := both.2
    have size := wrote.sizes region
    rw [found] at size
    cases old : memoryOf ctx m region with
    | none => rw [old] at size; cases size
    | some array' =>
        rw [old] at size
        injection size with size
        exact ⟨array', old, by omega⟩
  · exact Or.inl (writes.outside here)

theorem forM_storeInt_flagged (ctx : Ctx) {α : Type} (at' : α → Word)
    (byte : α → Word) (items : List α) (m : Machine)
    (outside : ∃ item ∈ items, ¬(Writable (ptrRegion (at' item)) ∧
      Inside (memoryOf ctx m) (ptrRegion (at' item))
        (ptrOff (at' item)).toNat 1)) :
    Flagged ((items.forM fun item =>
      storeInt (at' item) 1 (byte item)) m).2 := by
  have tracks (items : List α) : Tracks (Moves ctx)
      (items.forM fun item => storeInt (at' item) 1 (byte item)) :=
    .forM (fun item => tracks_storeInt ctx (at' item) 1 (byte item)) items
  induction items generalizing m with
  | nil =>
      obtain ⟨item, member, -⟩ := outside
      cases member
  | cons item items ih =>
      change Flagged ((items.forM fun item =>
        storeInt (at' item) 1 (byte item)) (storeInt (at' item) 1
          (byte item) m).2).2
      have writes : Writes ctx m (at' item) (toLe 1 (byte item))
          (storeInt (at' item) 1 (byte item) m).2 :=
        storeInt_writes (by decide) (byte item)
      obtain ⟨other, member, apart⟩ := outside
      rcases List.mem_cons.mp member with this | later
      · subst this
        exact (tracks items _).flagged (writes.outside apart)
      · rcases writes.stays apart with flagged | still
        · exact (tracks items _).flagged flagged
        · exact ih _ ⟨other, later, still⟩

/-- Regions are shorter than the offsets there are. -/
structure Short (ctx : Ctx) (m : Machine) : Prop where
  region : ∀ region, Writable region → ∀ buf,
    memoryOf ctx m region = some buf → buf.length < 2 ^ 32

theorem storeBytes_flagged (short : Short ctx m) (nonempty : bytes ≠ [])
    (outside : ¬(Writable (ptrRegion p) ∧
      Inside (memoryOf ctx m) (ptrRegion p) (ptrOff p).toNat bytes.length)) :
    Flagged (storeBytes p bytes m).2 := by
  apply forM_storeInt_flagged ctx
    (fun item : UInt8 × Nat =>
      compose (ptrRegion p) (ptrOff p + BitVec.ofNat 32 item.2))
    (fun item : UInt8 × Nat => item.1.toBitVec.setWidth 64)
  have small : ptrRegion p % 2 ^ 32 = ptrRegion p := by
    rw [ptrRegion_eq]
    have bound := p.isLt
    omega
  have positive := List.length_pos_iff.mpr nonempty
  have low : (ptrOff p).toNat < 2 ^ 32 := (ptrOff p).isLt
  -- the first byte past the end, or the first byte when none is inside
  have first : ∃ i < bytes.length, ¬(Writable (ptrRegion p) ∧
      Inside (memoryOf ctx m) (ptrRegion p)
        ((ptrOff p).toNat + i) 1) ∧ (ptrOff p).toNat + i < 2 ^ 32 := by
    by_cases writable : Writable (ptrRegion p)
    · cases found : memoryOf ctx m (ptrRegion p) with
      | none =>
          refine ⟨0, positive, ?_, low⟩
          intro both
          obtain ⟨buf, here, -⟩ := both.2
          rw [found] at here
          cases here
      | some buf =>
          have fits := short.region _ writable buf found
          have beyond : ¬ (ptrOff p).toNat + bytes.length ≤ buf.length :=
            fun fits => outside ⟨writable, buf, found, fits⟩
          refine ⟨buf.length - (ptrOff p).toNat, by omega, ?_, by omega⟩
          intro both
          obtain ⟨buf', here, inside⟩ := both.2
          rw [found] at here
          cases here
          omega
    · exact ⟨0, positive, fun both => writable both.1, low⟩
  obtain ⟨i, inside, apart, below⟩ := first
  refine ⟨(bytes[i], i), ?_, ?_⟩
  · rw [List.mem_zipIdx_iff_getElem?]
    exact List.getElem?_eq_getElem inside
  · dsimp only
    rw [ptrRegion_compose, small, ptrOff_compose, BitVec.toNat_add,
      BitVec.toNat_ofNat, Nat.mod_eq_of_lt (by omega : i < 2 ^ 32),
      Nat.mod_eq_of_lt below]
    exact apart

theorem putRegion_writes (short : Short ctx m) (nonempty : bytes ≠ []) :
    Writes ctx m p bytes (putRegion p bytes m).2 := by
  have refused (outside : ¬(Writable (ptrRegion p) ∧
      Inside (memoryOf ctx m) (ptrRegion p) (ptrOff p).toNat bytes.length)) :
      Writes ctx m p bytes (storeBytes p bytes m).2 :=
    writes_flagged outside (storeBytes_flagged short nonempty outside)
  unfold putRegion
  rw [get_then]
  by_cases heap : rHeap ≤ ptrRegion p ∧ ptrRegion p < rGlobal
  · rw [if_pos heap]
    cases here : m.heaps[ptrRegion p - rHeap]? with
    | none =>
        apply refused
        intro both
        refine not_inside (memoryOf_heap heap) ?_ both.2
        intro b there
        rw [here] at there
        cases there
    | some buf =>
        dsimp only
        by_cases fits : (ptrOff p).toNat + bytes.length ≤ buf.length
        · rw [if_pos fits]
          exact writes_putHeap heap here fits
        · rw [if_neg fits]
          apply refused
          intro both
          refine not_inside (memoryOf_heap heap) ?_ both.2
          intro b there
          rw [here] at there
          cases there
          exact fits
  · rw [if_neg heap]
    by_cases stack : rStack ≤ ptrRegion p ∧ ptrRegion p < rHeap
    · rw [if_pos stack]
      cases here : m.frames[ptrRegion p - rStack]? with
      | none =>
          apply refused
          intro both
          refine not_inside (memoryOf_stack stack) ?_ both.2
          intro b there
          rw [here] at there
          cases there
      | some fr =>
          dsimp only
          by_cases fits : (ptrOff p).toNat + bytes.length ≤ fr.stack.length
          · rw [if_pos fits]
            exact writes_putStack stack here fits
          · rw [if_neg fits]
            apply refused
            intro both
            refine not_inside (memoryOf_stack stack) ?_ both.2
            intro b there
            rw [here] at there
            cases there
            exact fits
    · rw [if_neg stack]
      apply refused
      intro both
      have writable := both.1
      unfold Writable at writable
      omega

theorem writeRegion_writes (short : Short ctx m) (nonempty : bytes ≠ []) :
    Writes ctx m p bytes (writeRegion p bytes m).2 := by
  have view : memoryOf ctx (chargeBytes bytes.length m).2 = memoryOf ctx m :=
    memoryOf_congr rfl rfl
  have short' : Short ctx (chargeBytes bytes.length m).2 := by
    refine ⟨?_⟩
    rw [view]
    exact short.region
  have writes := putRegion_writes (p := p) short' nonempty
  refine ⟨?_, ?_⟩
  · have wrote := writes.inside
    rw [view] at wrote
    exact wrote
  · have flagged := writes.outside
    rw [view] at flagged
    exact flagged

end

/-! ## Reading -/

theorem readLe_eq {buf : Bytes} {off w : Nat} (positive : w ≠ 0) :
    readLe buf off w =
      if (window buf off w).length = w then some (fromLe (window buf off w))
      else none := by
  unfold readLe
  by_cases fits : off + w ≤ buf.length
  · rw [if_pos fits, if_pos (length_window_of_le fits)]
  · rw [if_neg fits, if_neg]
    rw [length_window]
    omega

/-- A value and a bulk read of the same bytes: the value is that of the bytes
when all of them are there, and ends the run when they are not. -/
structure Agrees (w : Nat) (m : Machine) (bytes : Bytes) (load : Word × Machine) :
    Prop where
  whole : bytes.length = w → load.1 = fromLe bytes ∧ Quiet m load.2
  short : bytes.length ≠ w → Flagged load.2

section

variable {ctx : Ctx} {m : Machine} {p : Word} {w : Nat}

theorem quiet_refl (m : Machine) : Quiet m m :=
  ⟨rfl, rfl⟩

theorem agrees_readLe {after : Machine} {buf : Bytes} {off : Nat}
    (positive : w ≠ 0) (quiet : Quiet m after) :
    Agrees w m (window buf off w) (orFlag (readLe buf off w) after) := by
  rw [readLe_eq positive]
  refine ⟨?_, ?_⟩
  · intro whole
    rw [if_pos whole]
    exact ⟨rfl, quiet⟩
  · intro short
    rw [if_neg short]
    exact ⟨rfl, rfl⟩

theorem agrees_flagged {load : Word × Machine} (positive : w ≠ 0)
    (flagged : Flagged load.2) : Agrees w m [] load :=
  ⟨fun whole => absurd whole.symm positive, fun _ => flagged⟩

/-- A global is what it was declared as, unless no memory is left for it. -/
theorem globalBytes_cases (rendered : Rendered ctx m) (g : Nat) :
    ((globalBytes ctx g m).1 = ((ctx.globals[g]?).map Global.bytes).getD [] ∧
      Quiet m (globalBytes ctx g m).2) ∨
    ((globalBytes ctx g m).1 = [] ∧ Flagged (globalBytes ctx g m).2 ∧
      (globalBytes ctx g m).2.gapped = true) := by
  unfold globalBytes
  rw [get_then]
  rcases cached : m.gcache[g]? with _ | _ | bytes
  · left
    have none' : ctx.globals[g]? = none := by
      rw [List.getElem?_eq_none_iff] at cached ⊢
      rw [← rendered.length]
      exact cached
    rw [none']
    exact ⟨rfl, quiet_refl m⟩
  · cases here : ctx.globals[g]? with
    | none => exact Or.inl ⟨rfl, quiet_refl m⟩
    | some gv =>
        dsimp only
        rw [hold_then]
        split
        · exact Or.inl ⟨rfl, rfl, rfl⟩
        · exact Or.inr ⟨rfl, ⟨rfl, rfl⟩, rfl⟩
  · left
    obtain ⟨gv, here, same⟩ := rendered.bytes g bytes cached
    rw [here, same]
    exact ⟨rfl, quiet_refl m⟩

theorem pedata_cases :
    ((pedata ctx m).1 = memoryOf ctx m rPedata ∧
      (memoryOf ctx m rPedata).isSome ∧ Quiet m (pedata ctx m).2) ∨
    ((pedata ctx m).1 = none ∧ memoryOf ctx m rPedata = none ∧
      Flagged (pedata ctx m).2 ∧ (pedata ctx m).2.gapped = true) := by
  have apart : rPedata ≠ rFilesize := by decide
  unfold pedata memoryOf
  rw [if_neg apart, if_pos rfl]
  cases ctx.pe with
  | some pe => exact Or.inl ⟨rfl, rfl, quiet_refl m⟩
  | none =>
      dsimp only
      split
      · exact Or.inr ⟨rfl, rfl, ⟨rfl, rfl⟩, rfl⟩
      · exact Or.inl ⟨rfl, rfl, quiet_refl m⟩

/-- Outside the zeros and the match offsets, a load gives the value of what a
bulk read gives. -/
theorem derefInt_agrees (rendered : Rendered ctx m) (positive : w ≠ 0)
    (zero : ptrRegion p ≠ rZero) (matchoff : ptrRegion p ≠ rMatchoff) :
    Agrees w m (sliceRegion ctx p w m).1 (derefInt ctx p w m) := by
  unfold derefInt sliceRegion
  rw [get_then, get_then]
  by_cases size : ptrRegion p = rFilesize
  · have other : ptrRegion p ≠ rPedata := by
      rw [size]
      decide
    rw [if_pos size, if_neg other, if_neg zero, if_pos size]
    exact agrees_readLe positive (quiet_refl m)
  rw [if_neg size, if_neg size]
  by_cases header : ptrRegion p = rPedata
  · rw [if_pos header, if_pos header, bind_then, bind_then]
    rcases @pedata_cases ctx m with
      ⟨read, there, quiet⟩ | ⟨read, -, flagged, -⟩
    · obtain ⟨pd, is⟩ := Option.isSome_iff_exists.mp there
      rw [read, is]
      exact agrees_readLe positive quiet
    · rw [read]
      exact agrees_flagged positive flagged
  rw [if_neg header, if_neg header, if_neg zero, if_neg zero,
    if_neg matchoff, if_neg matchoff]
  by_cases global : rGlobal ≤ ptrRegion p
  · rw [if_pos global, if_pos global, bind_then, bind_then]
    rcases globalBytes_cases rendered (ptrRegion p - rGlobal) with
      ⟨-, quiet⟩ | ⟨empty, flagged, -⟩
    · exact agrees_readLe positive quiet
    · rw [empty]
      have nothing : window ([] : Bytes) (ptrOff p).toNat w = [] := by
        simp [window]
      change Agrees w m (window [] _ w) _
      rw [nothing]
      apply agrees_flagged positive
      exact ((tracks_orFlag _ : Tracks (Moves ctx) _) _).flagged flagged
  rw [if_neg global, if_neg global]
  by_cases heap : rHeap ≤ ptrRegion p
  · rw [if_pos heap, if_pos heap]
    cases m.heaps[ptrRegion p - rHeap]? with
    | none => exact agrees_flagged positive ⟨rfl, rfl⟩
    | some buf => exact agrees_readLe positive (quiet_refl m)
  rw [if_neg heap, if_neg heap]
  by_cases stack : rStack ≤ ptrRegion p
  · rw [if_pos stack, if_pos stack, rdMem, get_then]
    cases m.frames[ptrRegion p - rStack]? with
    | none => exact agrees_flagged positive ⟨rfl, rfl⟩
    | some fr =>
        rw [Option.bind_some, readLe_eq positive]
        refine ⟨?_, ?_⟩
        · intro whole
          have there : (window fr.stack (ptrOff p).toNat w).length = w := whole
          rw [if_pos there]
          dsimp only
          rw [if_neg positive]
          exact ⟨rfl, quiet_refl m⟩
        · intro short
          have missing : (window fr.stack (ptrOff p).toNat w).length ≠ w :=
            short
          rw [if_neg missing]
          exact ⟨rfl, rfl⟩
  · rw [if_neg stack, if_neg stack]
    exact agrees_flagged positive ⟨rfl, rfl⟩

/-- A bulk read gives the region from the pointer on, at most as many bytes as
asked, unless the machine has to stop. -/
theorem sliceRegion_cases (rendered : Rendered ctx m) (len : Nat)
    (zero : ptrRegion p ≠ rZero) :
    (sliceRegion ctx p len m).1 =
        window ((memoryOf ctx m (ptrRegion p)).getD []) (ptrOff p).toNat len ∨
      ((sliceRegion ctx p len m).1 = [] ∧
        Flagged (sliceRegion ctx p len m).2 ∧
        (sliceRegion ctx p len m).2.gapped = true) := by
  have nothing : window ([] : Bytes) (ptrOff p).toNat len = [] := by
    simp [window]
  unfold sliceRegion
  rw [get_then]
  by_cases header : ptrRegion p = rPedata
  · rw [if_pos header, bind_then, header]
    rcases @pedata_cases ctx m with
      ⟨read, there, -⟩ | ⟨read, -, flagged, gapped⟩
    · obtain ⟨pd, is⟩ := Option.isSome_iff_exists.mp there
      rw [read, is]
      exact Or.inl rfl
    · rw [read]
      exact Or.inr ⟨rfl, flagged, gapped⟩
  rw [if_neg header, if_neg zero]
  by_cases size : ptrRegion p = rFilesize
  · rw [if_pos size, memoryOf, if_pos size]
    exact Or.inl rfl
  rw [if_neg size]
  by_cases matchoff : ptrRegion p = rMatchoff
  · rw [if_pos matchoff, memoryOf, if_neg size, if_neg header,
      if_pos matchoff]
    exact Or.inl rfl
  rw [if_neg matchoff]
  by_cases global : rGlobal ≤ ptrRegion p
  · rw [if_pos global, bind_then, memoryOf_global global]
    rcases globalBytes_cases rendered (ptrRegion p - rGlobal) with
      ⟨read, -⟩ | ⟨empty, flagged, gapped⟩
    · rw [read]
      exact Or.inl rfl
    · rw [empty]
      exact Or.inr ⟨nothing, flagged, gapped⟩
  rw [if_neg global]
  by_cases heap : rHeap ≤ ptrRegion p
  · rw [if_pos heap, memoryOf_heap ⟨heap, by omega⟩]
    left
    cases m.heaps[ptrRegion p - rHeap]? with
    | none => exact nothing.symm
    | some buf => rfl
  rw [if_neg heap]
  by_cases stack : rStack ≤ ptrRegion p
  · rw [if_pos stack, memoryOf_stack ⟨stack, by omega⟩]
    left
    cases m.frames[ptrRegion p - rStack]? with
    | none => exact nothing.symm
    | some fr => rfl
  · rw [if_neg stack, memoryOf, if_neg size, if_neg header, if_neg matchoff,
      if_neg global, if_neg heap, if_neg stack]
    exact Or.inl nothing.symm

/-- What a bulk read gives does not depend on the steps charged for it. -/
theorem readRegion_bytes (ctx : Ctx) (p : Word) (len : Nat) (m : Machine) :
    (readRegion ctx p len m).1 = (sliceRegion ctx p len m).1 := by
  have globals (g : Nat) :
      (globalBytes ctx g (chargeBytes (min len maxAlloc) m).2).1 =
        (globalBytes ctx g m).1 := by
    unfold globalBytes
    rw [get_then, get_then]
    have cached : (chargeBytes (min len maxAlloc) m).2.gcache = m.gcache := rfl
    rw [cached]
    rcases m.gcache[g]? with _ | _ | bytes
    · rfl
    · cases ctx.globals[g]? with
      | none => rfl
      | some gv =>
          dsimp only
          rw [hold_then, hold_then]
          change (if m.held + gv.len ≤ ctx.writeLimits.memory then _
            else _ : Bytes × Machine).1 = _
          split <;> rfl
    · rfl
  have headers : (pedata ctx (chargeBytes (min len maxAlloc) m).2).1 =
      (pedata ctx m).1 := by
    unfold pedata
    cases ctx.pe with
    | some pe => rfl
    | none =>
        dsimp only
        split <;> rfl
  unfold readRegion
  rw [bind_then]
  unfold sliceRegion
  rw [get_then, get_then]
  by_cases header : ptrRegion p = rPedata
  · rw [if_pos header, if_pos header, bind_then, bind_then, headers]
    cases (pedata ctx m).1 <;> rfl
  rw [if_neg header, if_neg header]
  by_cases global : rGlobal ≤ ptrRegion p
  · by_cases zero : ptrRegion p = rZero
    · rw [if_pos zero, if_pos zero]
      rfl
    rw [if_neg zero, if_neg zero]
    by_cases size : ptrRegion p = rFilesize
    · rw [if_pos size, if_pos size]
      rfl
    rw [if_neg size, if_neg size]
    by_cases matchoff : ptrRegion p = rMatchoff
    · rw [if_pos matchoff, if_pos matchoff]
      rfl
    rw [if_neg matchoff, if_neg matchoff, if_pos global, if_pos global,
      bind_then, bind_then]
    exact congrArg (fun bytes => window bytes (ptrOff p).toNat len)
      (globals _)
  · rw [if_neg global, if_neg global]
    split_ifs <;> rfl

theorem zeros_agree (zero : ptrRegion p = rZero) (small : w ≤ maxBytes) :
    Agrees w m (sliceRegion ctx p w m).1 (derefInt ctx p w m) := by
  have zeros (n : Nat) : fromLe (List.replicate n 0) = 0 := by
    induction n with
    | zero => rfl
    | succ n ih =>
        rw [List.replicate_succ, fromLe, ih]
        decide
  have size : ptrRegion p ≠ rFilesize := by
    rw [zero]
    decide
  have header : ptrRegion p ≠ rPedata := by
    rw [zero]
    decide
  have slice : (sliceRegion ctx p w m).1 = List.replicate w 0 := by
    unfold sliceRegion
    rw [get_then, if_neg header, if_pos zero, Nat.min_eq_left small]
    rfl
  have load : derefInt ctx p w m = (0, m) := by
    unfold derefInt
    rw [get_then, if_neg size, if_neg header, if_pos zero]
    rfl
  rw [slice, load]
  refine ⟨?_, ?_⟩
  · intro whole
    exact ⟨(zeros w).symm, quiet_refl m⟩
  · intro short
    rw [List.length_replicate] at short
    exact absurd rfl short

theorem fromLe_toLe (w : Nat) (v : Word) :
    (fromLe (toLe w v)).toNat = v.toNat % 2 ^ (8 * w) := by
  induction w generalizing v with
  | zero =>
      rw [toLe, fromLe, Nat.mul_zero, Nat.pow_zero, Nat.mod_one]
      rfl
  | succ w ih =>
      have rest := ih (v >>> 8)
      rw [BitVec.toNat_ushiftRight, Nat.shiftRight_eq_div_pow] at rest
      have bound : v.toNat / 2 ^ 8 < 2 ^ 56 := by
        have := v.isLt
        omega
      have small : (fromLe (toLe w (v >>> 8))).toNat < 2 ^ 56 :=
        Nat.lt_of_le_of_lt (rest ▸ Nat.mod_le _ _) bound
      have low : v.toNat % 2 ^ 8 < 2 ^ 8 := Nat.mod_lt _ (by decide)
      have first : ((UInt8.ofBitVec (v.setWidth 8)).toBitVec.setWidth 64).toNat =
          v.toNat % 2 ^ 8 := by
        rw [BitVec.toNat_setWidth, Nat.mod_eq_of_lt]
        · exact BitVec.toNat_setWidth 8 v
        · exact Nat.lt_trans (BitVec.isLt _) (by decide)
      have high : (fromLe (toLe w (v >>> 8)) <<< 8).toNat =
          2 ^ 8 * (v.toNat / 2 ^ 8 % 2 ^ (8 * w)) := by
        rw [BitVec.toNat_shiftLeft, Nat.shiftLeft_eq, Nat.mod_eq_of_lt (by omega),
          rest, Nat.mul_comm]
      rw [toLe, fromLe, BitVec.toNat_or, first, high, Nat.or_comm,
        ← Nat.two_pow_add_eq_or_of_lt low, Nat.mul_succ, Nat.add_comm (8 * w) 8,
        Nat.pow_add, Nat.mod_mul, Nat.add_comm]

theorem window_toLe (offsets : List UInt32) {i : Nat} {o : UInt32}
    (here : offsets[i]? = some o) :
    window (offsets.flatMap fun o => toLe 4 (BitVec.ofNat 64 o.toNat))
      (4 * i) 4 = toLe 4 (BitVec.ofNat 64 o.toNat) := by
  induction offsets generalizing i with
  | nil => cases here
  | cons first offsets ih =>
      have four : (toLe 4 (BitVec.ofNat 64 first.toNat)).length = 4 :=
        length_toLe 4 _
      cases i with
      | zero =>
          cases here
          rw [window, List.flatMap_cons, Nat.mul_zero, List.drop_zero,
            List.take_append_of_le_length (by omega),
            List.take_of_length_le (by omega)]
      | succ i =>
          rw [List.getElem?_cons_succ] at here
          have rest := ih here
          rw [window] at rest ⊢
          rw [List.flatMap_cons, List.drop_append, List.drop_of_length_le (by omega),
            List.nil_append, four]
          have moved : 4 * (i + 1) - 4 = 4 * i := by omega
          rw [moved]
          exact rest

/-- A match offset read whole, at its own place. -/
theorem matchoff_agrees (matchoff : ptrRegion p = rMatchoff)
    (aligned : 4 ∣ (ptrOff p).toNat)
    (whole : (sliceRegion ctx p 4 m).1.length = 4) :
    derefInt ctx p 4 m = (fromLe (sliceRegion ctx p 4 m).1, m) := by
  have size : ptrRegion p ≠ rFilesize := by
    rw [matchoff]
    decide
  have header : ptrRegion p ≠ rPedata := by
    rw [matchoff]
    decide
  have zero : ptrRegion p ≠ rZero := by
    rw [matchoff]
    decide
  have slice : (sliceRegion ctx p 4 m).1 =
      window (matchoffBytes ctx) (ptrOff p).toNat 4 := by
    unfold sliceRegion
    rw [get_then, if_neg header, if_neg zero, if_neg size, if_pos matchoff]
    rfl
  have load : derefInt ctx p 4 m = (((ctx.matchOffsets[(ptrOff p).toNat / 4]?).map
      fun o => BitVec.ofNat 64 o.toNat).getD 0, m) := by
    unfold derefInt
    rw [get_then, if_neg size, if_neg header, if_neg zero, if_pos matchoff]
    rfl
  rw [slice] at whole ⊢
  rw [load]
  obtain ⟨i, at'⟩ := aligned
  have index : (ptrOff p).toNat / 4 = i := by omega
  rw [index, at']
  rw [at'] at whole
  cases here : ctx.matchOffsets[i]? with
  | none =>
      have total : (matchoffBytes ctx).length = 4 * ctx.matchOffsets.length := by
        unfold matchoffBytes
        rw [List.length_flatMap]
        simp [Nat.mul_comm]
      rw [List.getElem?_eq_none_iff] at here
      rw [length_window, total] at whole
      omega
  | some o =>
      rw [matchoffBytes, window_toLe ctx.matchOffsets here]
      congr 1
      apply BitVec.eq_of_toNat_eq
      have bound : o.toNat < 2 ^ 32 := o.toNat_lt
      rw [fromLe_toLe, Option.map_some, Option.getD_some, BitVec.toNat_ofNat]
      omega

end

/-! ## The laws of a run -/

/-- The memory of a configuration behaves as separate arrays. -/
structure Laws (program : Program) (entry : Nat) (c : Config) : Prop where
  /-- A load gives the little-endian value of the bytes a bulk read gives, or
  ends the run where it gives fewer. -/
  load : ∀ p w, w ≠ 0 → ptrRegion p ≠ rMatchoff →
    (ptrRegion p = rZero → w ≤ maxBytes) →
    Agrees w c.machine (readRegion program.ctx p w c.machine).1
      (derefInt program.ctx p w c.machine)
  offset : ∀ p, ptrRegion p = rMatchoff → 4 ∣ (ptrOff p).toNat →
    (readRegion program.ctx p 4 c.machine).1.length = 4 →
    (derefInt program.ctx p 4 c.machine).1 =
        fromLe (readRegion program.ctx p 4 c.machine).1 ∧
      Quiet c.machine (derefInt program.ctx p 4 c.machine).2
  outside : ∀ p w, w ≠ 0 → ptrRegion p ≠ rZero → ptrRegion p ≠ rMatchoff →
    ¬ Inside (memoryOf program.ctx c.machine) (ptrRegion p) (ptrOff p).toNat w →
    Flagged (derefInt program.ctx p w c.machine).2
  store : ∀ p w val, w ≠ 0 → Writes program.ctx c.machine p (toLe w val)
    (storeInt p w val c.machine).2
  write : ∀ p bytes, bytes ≠ [] → Writes program.ctx c.machine p bytes
    (writeRegion p bytes c.machine).2
  /-- A bulk read gives the region from the pointer on, as far as it goes,
  unless the machine has to stop. -/
  read : ∀ p len, ptrRegion p ≠ rZero →
    (readRegion program.ctx p len c.machine).1 =
        window ((memoryOf program.ctx c.machine (ptrRegion p)).getD [])
          (ptrOff p).toNat len ∨
      ((readRegion program.ctx p len c.machine).1 = [] ∧
        Flagged (readRegion program.ctx p len c.machine).2 ∧
        (readRegion program.ctx p len c.machine).2.gapped = true)
  /-- An allocation is a region of zeros that is no frame and no global, and
  that there was not at any earlier step. -/
  malloc : ∀ size, (malloc program.ctx size c.machine).1 ≠ 0 →
    c.machine.heaps.length < rGlobal - rHeap →
    ∃ region, (malloc program.ctx size c.machine).1 = compose region 0 ∧
      rHeap ≤ region ∧ region < rGlobal ∧
      (∀ f < c.machine.frames.length, region ≠ rStack + f) ∧
      Allocates (memoryOf program.ctx c.machine)
        (memoryOf program.ctx (malloc program.ctx size c.machine).2) region
        size.toNat 0 ∧
      Quiet c.machine (malloc program.ctx size c.machine).2 ∧
      ∀ earlier n, Reachable program entry earlier →
        (next program)^[n] earlier = c →
        memoryOf program.ctx earlier.machine region = none

section

variable {program : Program} {entry : Nat} {c : Config}

theorem sound_short (sound : Sound program.ctx c) :
    Short program.ctx c.machine := by
  have heapBound : maxMalloc < 2 ^ 32 := by decide
  have frameBound : maxBytes < 2 ^ 32 := by decide
  refine ⟨?_⟩
  intro region writable buf found
  by_cases heap : rHeap ≤ region
  · rw [memoryOf_heap ⟨heap, writable.2⟩] at found
    have small := sound.small buf.length
      (List.mem_map.mpr ⟨buf, List.mem_of_getElem? found, rfl⟩)
    omega
  · rw [memoryOf_stack ⟨writable.1, by omega⟩] at found
    obtain ⟨fr, here, same⟩ := Option.map_eq_some_iff.mp found
    have small := sound.stacked.small fr.stack.length
      (List.mem_map.mpr ⟨fr, List.mem_of_getElem? here, rfl⟩)
    rw [← same]
    omega

theorem iterate_heaps (n : Nat) {earlier : Config}
    (sound : Sound program.ctx earlier) :
    earlier.machine.heaps.length ≤
      ((next program)^[n] earlier).machine.heaps.length := by
  induction n generalizing earlier with
  | zero => exact Nat.le_refl _
  | succ n ih =>
      rw [Function.iterate_succ_apply]
      have goes := next_goes sound
      exact Nat.le_trans goes.heaps (ih goes.sound)

theorem memoryOf_fresh {m : Machine} {i : Nat} (above : m.heaps.length ≤ i)
    (below : i < rGlobal - rHeap) :
    memoryOf program.ctx m (rHeap + i) = none := by
  rw [memoryOf_heap ⟨by omega, by omega⟩, List.getElem?_eq_none_iff]
  omega

theorem malloc_law (size : Word)
    (granted : (malloc program.ctx size c.machine).1 ≠ 0)
    (few : c.machine.heaps.length < rGlobal - rHeap) :
    (malloc program.ctx size c.machine).1 =
        compose (rHeap + c.machine.heaps.length) 0 ∧
      Allocates (memoryOf program.ctx c.machine)
        (memoryOf program.ctx (malloc program.ctx size c.machine).2)
        (rHeap + c.machine.heaps.length) size.toNat 0 ∧
      Quiet c.machine (malloc program.ctx size c.machine).2 := by
  unfold malloc at granted ⊢
  rw [get_then] at granted ⊢
  by_cases refused : size.toInt ≤ 0 ∨ maxMalloc < size.toNat
  · rw [if_pos refused] at granted
    exact absurd rfl granted
  rw [if_neg refused, hold_then] at granted ⊢
  by_cases room : c.machine.held + size.toNat ≤ program.ctx.writeLimits.memory
  · rw [if_pos room]
    refine ⟨rfl, ⟨memoryOf_fresh (Nat.le_refl _) few, ?_, ?_⟩, rfl, rfl⟩
    · rw [memoryOf_heap ⟨by omega, by omega⟩]
      change (c.machine.heaps ++ [List.replicate size.toNat 0])[_]? = _
      rw [List.getElem?_append_right (by omega)]
      have first : rHeap + c.machine.heaps.length - rHeap -
          c.machine.heaps.length = 0 := by omega
      rw [first]
      rfl
    · intro r apart
      by_cases heap : rHeap ≤ r ∧ r < rGlobal
      · rw [memoryOf_heap heap, memoryOf_heap heap]
        change (c.machine.heaps ++ [List.replicate size.toNat 0])[r - rHeap]? =
          c.machine.heaps[r - rHeap]?
        by_cases old : r - rHeap < c.machine.heaps.length
        · rw [List.getElem?_append_left old]
        · rw [List.getElem?_eq_none (by
            rw [List.length_append, List.length_singleton]
            omega), List.getElem?_eq_none (by omega)]
      · unfold memoryOf
        by_cases global : rGlobal ≤ r
        · simp only [if_pos global]
        · have below : ¬ rHeap ≤ r := by omega
          simp only [if_neg below]
          rfl
  · rw [if_neg room] at granted
    exact absurd rfl granted

/-- Whatever program ran to it, the memory of a configuration is a set of
separate arrays. -/
theorem memory_separate (reached : Reachable program entry c) :
    Laws program entry c := by
  have sound := reachable_sound reached
  have short := sound_short sound
  refine ⟨?_, ?_, ?_, ?_, ?_, ?_, ?_⟩
  · intro p w positive matchoff bounded
    rw [readRegion_bytes]
    by_cases zero : ptrRegion p = rZero
    · exact zeros_agree zero (bounded zero)
    · exact derefInt_agrees sound.rendered positive zero matchoff
  · intro p matchoff aligned whole
    rw [readRegion_bytes] at whole ⊢
    rw [matchoff_agrees matchoff aligned whole]
    exact ⟨rfl, quiet_refl _⟩
  · intro p w positive zero matchoff apart
    apply (derefInt_agrees sound.rendered positive zero matchoff).short
    rcases sliceRegion_cases sound.rendered w zero with read | ⟨empty, -, -⟩
    · rw [read]
      intro whole
      rw [length_window] at whole
      apply apart
      cases found : memoryOf program.ctx c.machine (ptrRegion p) with
      | none =>
          rw [found, Option.getD_none, List.length_nil] at whole
          omega
      | some buf =>
          rw [found, Option.getD_some] at whole
          exact ⟨buf, found, by omega⟩
    · rw [empty]
      exact fun whole => positive whole.symm
  · intro p w val positive
    exact storeInt_writes positive val
  · intro p bytes nonempty
    exact writeRegion_writes short nonempty
  · intro p len zero
    have charged : Rendered program.ctx
        (chargeBytes (min len maxAlloc) c.machine).2 :=
      ((tracks_chargeBytes program.ctx _ :
        Tracks (Moves program.ctx) _) c.machine).rendered sound.rendered
    have view : memoryOf program.ctx
        (chargeBytes (min len maxAlloc) c.machine).2 =
          memoryOf program.ctx c.machine := memoryOf_congr rfl rfl
    have cases' := sliceRegion_cases charged len zero
    rw [view] at cases'
    exact cases'
  · intro size granted few
    obtain ⟨pointer, allocates, quiet⟩ := malloc_law size granted few
    have bounded := sound.stacked.bounded
    have apart : rStack + (maxDepth + 1) ≤ rHeap := by decide
    refine ⟨_, pointer, by omega, by omega, ?_, allocates, quiet, ?_⟩
    · intro f inside
      omega
    · intro earlier n reached' leads
      have grown := iterate_heaps n (reachable_sound reached')
      rw [leads] at grown
      exact memoryOf_fresh grown few

end

/-! ## A read past the end -/

def hostNone : Host where
  disasmOne := fun _ => none
  shannonEntropy := fun _ => 0
  isin := fun _ _ _ => 0
  icos := fun _ _ _ => 0
  iexp := fun _ _ _ => 0
  ipow := fun _ _ _ => 0
  ilog2 := fun _ _ => 0

/-- Copies eight bytes from an allocation of four. -/
def overrun : Program where
  funcs := [⟨[64, 64],
    [[⟨33, 0, 64, .call true 0 [.const 4]⟩,
      ⟨33, 1, 64, .call true 0 [.const 8]⟩,
      ⟨41, 0, 0, .ops [.reg 1, .reg 0, .const 8]⟩,
      ⟨20, 0, 0, .ret none⟩]]⟩]
  ctx :=
    { file := [], flevel := 0, types := ⟨[]⟩, globals := [], pe := none
      peMissing := false, pdf := none, matchOffsets := []
      apis := [(1, "malloc")], defaultName := "overrun"
      writeLimits := ⟨0, 0, 1000⟩, host := hostNone }

def overrunAllocated : Config :=
  next overrun (next overrun (start overrun 0))

/-- The run copies what there is and ends as any other. -/
theorem not_bulk_flagged :
    Reachable overrun 0 overrunAllocated ∧
      ¬ Inside (memoryOf overrun.ctx overrunAllocated.machine) rHeap 0 8 ∧
      (readRegion overrun.ctx (compose rHeap 0) 8
        overrunAllocated.machine).1 = [0, 0, 0, 0] ∧
      (next overrun (next overrun overrunAllocated)).stack = [] ∧
      (outcome (next overrun
        (next overrun overrunAllocated)).machine).hitUnsupported = false := by
  have found : memoryOf overrun.ctx overrunAllocated.machine rHeap =
      some [0, 0, 0, 0] := by decide
  refine ⟨.next (.next .start), ?_, by decide, by decide,
    by decide⟩
  intro inside
  obtain ⟨buf, here, fits⟩ := inside
  rw [found] at here
  cases here
  exact absurd fits (by decide)

/-- The laws where the copy is about to be made. -/
theorem memory_separate_overrun : Laws overrun 0 overrunAllocated :=
  memory_separate (.next (.next .start))

end Exav.Bytecode
