import Mathlib.Algebra.Order.BigOperators.Group.List
import Exav.Bytecode.Tracks

/-!
# What an instruction may do to the memory

Between two instructions of one call no frame appears, disappears or changes
size, allocations are only added, a global is rendered as what it is, and what
is held stays accounted for.
-/

namespace Exav.Bytecode

open Exav.Arrays

/-! ## Invariants -/

structure Rendered (ctx : Ctx) (m : Machine) : Prop where
  length : m.gcache.length = ctx.globals.length
  bytes : ∀ (g : Nat) (bytes : Bytes), m.gcache[g]? = some (some bytes) →
    ∃ gv : Global, ctx.globals[g]? = some gv ∧ bytes = gv.bytes

def Machine.taken (m : Machine) : Nat :=
  (m.heaps.map List.length).sum +
    (m.frames.map fun fr => fr.stack.length).sum +
      (m.gcache.map fun bytes => (bytes.map List.length).getD 0).sum

structure Held (ctx : Ctx) (m : Machine) : Prop where
  exact : m.held = m.taken
  within : m.held ≤ ctx.writeLimits.memory

/-- What of a frame stays as it is while its call lasts. -/
def Frame.shape (fr : Frame) : List Nat × List Slot × Nat :=
  (fr.vtypes, fr.slots, fr.stack.length)

/-- The run ends, and its result is discarded. -/
structure Flagged (m : Machine) : Prop where
  halt : m.halt = true
  unsupported : m.unsupported = true

structure Moves (ctx : Ctx) (m m' : Machine) : Prop where
  frames : m'.frames.map Frame.shape = m.frames.map Frame.shape
  heaps : ∃ more, m'.heaps.map List.length = m.heaps.map List.length ++ more ∧
    ∀ size ∈ more, size ≤ maxMalloc
  rendered : Rendered ctx m → Rendered ctx m'
  held : Held ctx m → Held ctx m'
  flagged : Flagged m → Flagged m'

instance (ctx : Ctx) : IsPreorder Machine (Moves ctx) where
  refl m := ⟨rfl, ⟨[], (List.append_nil _).symm, by simp⟩, id, id, id⟩
  trans := by
    intro a b c first second
    obtain ⟨more, grown, small⟩ := first.heaps
    obtain ⟨more', grown', small'⟩ := second.heaps
    refine ⟨second.frames.trans first.frames, ⟨more ++ more', ?_, ?_⟩,
      second.rendered ∘ first.rendered, second.held ∘ first.held,
      second.flagged ∘ first.flagged⟩
    · rw [grown', grown, List.append_assoc]
    · intro size member
      rcases List.mem_append.mp member with old | new
      · exact small size old
      · exact small' size new

section

variable {ctx : Ctx} {m m' : Machine}

theorem Moves.length_frames (moves : Moves ctx m m') :
    m'.frames.length = m.frames.length := by
  simpa using congrArg List.length moves.frames

theorem Moves.length_heaps (moves : Moves ctx m m') :
    m.heaps.length ≤ m'.heaps.length := by
  obtain ⟨more, grown, -⟩ := moves.heaps
  have lengths := congrArg List.length grown
  rw [List.length_append, List.length_map, List.length_map] at lengths
  omega

theorem Moves.stacks (moves : Moves ctx m m') :
    m'.frames.map (fun fr => fr.stack.length) =
      m.frames.map fun fr => fr.stack.length := by
  have sizes := congrArg
    (List.map fun shape : List Nat × List Slot × Nat => shape.2.2) moves.frames
  rw [List.map_map, List.map_map] at sizes
  exact sizes

/-- A change of what is neither memory nor its accounting. -/
theorem moves_aside (frames : m'.frames = m.frames) (heaps : m'.heaps = m.heaps)
    (gcache : m'.gcache = m.gcache) (held : m'.held = m.held)
    (flagged : Flagged m → Flagged m') : Moves ctx m m' := by
  refine ⟨by rw [frames], ⟨[], by rw [heaps, List.append_nil], by simp⟩, ?_, ?_,
    flagged⟩
  · intro rendered
    exact ⟨gcache ▸ rendered.length, gcache ▸ rendered.bytes⟩
  · intro accounted
    refine ⟨?_, held ▸ accounted.within⟩
    rw [held, accounted.exact, Machine.taken, Machine.taken, frames, heaps,
      gcache]

/-! ## Memory changes -/

theorem shapes_modify {frames : List Frame} {frame : Nat} {stack : Bytes}
    (same : ∀ fr, frames[frame]? = some fr →
      stack.length = fr.stack.length) :
    (frames.modify frame fun fr => { fr with stack }).map Frame.shape =
      frames.map Frame.shape := by
  apply List.ext_getElem?
  intro i
  rw [List.getElem?_map, List.getElem?_map, List.getElem?_modify]
  cases here : frames[i]? with
  | none => simp
  | some fr =>
      by_cases this : frame = i
      · subst this
        simp [Frame.shape, same fr here]
      · simp [this]

theorem moves_putStack {frame : Nat} {fr : Frame} {stack : Bytes}
    (here : m.frames[frame]? = some fr)
    (same : stack.length = fr.stack.length) :
    Moves ctx m (m.putStack frame stack) := by
  have shapes : (m.putStack frame stack).frames.map Frame.shape =
      m.frames.map Frame.shape := by
    apply shapes_modify
    intro fr' here'
    rw [here] at here'
    cases here'
    exact same
  refine ⟨shapes, ⟨[], (List.append_nil _).symm, by simp⟩, fun rendered =>
    ⟨rendered.length, rendered.bytes⟩, ?_, fun stopped =>
    ⟨stopped.halt, stopped.unsupported⟩⟩
  intro accounted
  refine ⟨?_, accounted.within⟩
  have sizes := congrArg (List.map fun shape : List Nat × List Slot × Nat => shape.2.2) shapes
  rw [List.map_map, List.map_map] at sizes
  change m.held = (m.heaps.map List.length).sum +
    ((m.putStack frame stack).frames.map fun fr => fr.stack.length).sum + _
  rw [accounted.exact]
  change _ = (m.heaps.map List.length).sum +
    ((m.putStack frame stack).frames.map
      ((fun shape : List Nat × List Slot × Nat => shape.2.2) ∘
        Frame.shape)).sum + _
  rw [sizes]
  rfl

theorem moves_putHeap {h : Nat} {old buf : Bytes}
    (here : m.heaps[h]? = some old) (same : buf.length = old.length) :
    Moves ctx m (m.putHeap h buf) := by
  have sizes : (m.putHeap h buf).heaps.map List.length =
      m.heaps.map List.length := by
    apply List.ext_getElem?
    intro i
    rw [List.getElem?_map, List.getElem?_map]
    change Option.map List.length (m.heaps.set h buf)[i]? = _
    rw [List.getElem?_set]
    by_cases this : h = i
    · subst this
      obtain ⟨inside, -⟩ := List.getElem?_eq_some_iff.mp here
      rw [if_pos rfl, if_pos inside, here, Option.map_some, Option.map_some,
        same]
    · rw [if_neg this]
  refine ⟨rfl, ⟨[], by rw [sizes, List.append_nil], by simp⟩, fun rendered =>
    ⟨rendered.length, rendered.bytes⟩, ?_, fun stopped =>
    ⟨stopped.halt, stopped.unsupported⟩⟩
  intro accounted
  refine ⟨?_, accounted.within⟩
  rw [Machine.taken, sizes]
  exact accounted.exact

theorem sum_map_set {α : Type} (f : α → Nat) {items : List α} {i : Nat}
    {old : α} (new : α) (here : items[i]? = some old) :
    ((items.set i new).map f).sum + f old = (items.map f).sum + f new := by
  obtain ⟨inside, get⟩ := List.getElem?_eq_some_iff.mp here
  have whole : items = items.take i ++ old :: items.drop (i + 1) := by
    rw [← get, List.cons_getElem_drop_succ, List.take_append_drop]
  rw [List.set_eq_take_append_cons_drop, if_pos inside]
  conv =>
    rhs
    rw [whole]
  simp only [List.map_append, List.map_cons, List.sum_append, List.sum_cons]
  omega

theorem moves_render {g : Nat} {gv : Global}
    (unread : m.gcache[g]? = some none) (here : ctx.globals[g]? = some gv)
    (room : m.held + gv.len ≤ ctx.writeLimits.memory) :
    Moves ctx m { m with
      held := m.held + gv.len
      gcache := m.gcache.set g (some gv.bytes) } := by
  refine ⟨rfl, ⟨[], (List.append_nil _).symm, by simp⟩, ?_, ?_, fun stopped =>
    ⟨stopped.halt, stopped.unsupported⟩⟩
  · intro rendered
    refine ⟨by rw [List.length_set, rendered.length], ?_⟩
    intro g' bytes cached
    rw [List.getElem?_set] at cached
    split at cached
    · rename_i same
      subst same
      split at cached
      · cases cached
        exact ⟨gv, here, rfl⟩
      · cases cached
    · exact rendered.bytes g' bytes cached
  · intro accounted
    refine ⟨?_, room⟩
    have added := sum_map_set
      (fun bytes : Option Bytes => (bytes.map List.length).getD 0)
      (some gv.bytes) unread
    simp only [Option.map_none, Option.map_some, Option.getD_none,
      Option.getD_some, Global.length_bytes] at added
    have exact := accounted.exact
    unfold Machine.taken at exact ⊢
    simp only
    omega

/-- An allocation added. -/
theorem moves_push {size : Nat} (small : size ≤ maxMalloc)
    (room : m.held + size ≤ ctx.writeLimits.memory) :
    Moves ctx m { m with
      held := m.held + size
      heaps := m.heaps ++ [List.replicate size 0] } := by
  refine ⟨rfl, ⟨[size], ?_, by simpa using small⟩, fun rendered =>
    ⟨rendered.length, rendered.bytes⟩, ?_, fun stopped =>
    ⟨stopped.halt, stopped.unsupported⟩⟩
  · simp only [List.map_append, List.map_cons, List.map_nil,
      List.length_replicate]
  · intro accounted
    refine ⟨?_, room⟩
    have exact := accounted.exact
    unfold Machine.taken at exact ⊢
    simp only [List.map_append, List.map_cons, List.map_nil, List.sum_append,
      List.sum_cons, List.sum_nil, List.length_replicate]
    omega

end

instance (ctx : Ctx) : Outputs ctx (Moves ctx) where
  flag _ := moves_aside rfl rfl rfl rfl fun _ => ⟨rfl, rfl⟩
  gap _ := moves_aside rfl rfl rfl rfl fun _ => ⟨rfl, rfl⟩
  unwind _ := moves_aside rfl rfl rfl rfl fun _ => ⟨rfl, rfl⟩
  putStack here same := moves_putStack here same
  putHeap here same := moves_putHeap here same
  render unread here room := moves_render unread here room
  push small room := moves_push small room
  charge _ _ := moves_aside rfl rfl rfl rfl fun stopped =>
    ⟨stopped.halt, stopped.unsupported⟩
  seek _ _ := moves_aside rfl rfl rfl rfl fun stopped =>
    ⟨stopped.halt, stopped.unsupported⟩
  detect _ _ := moves_aside rfl rfl rfl rfl fun stopped =>
    ⟨stopped.halt, stopped.unsupported⟩
  stub _ _ := moves_aside rfl rfl rfl rfl fun stopped =>
    ⟨stopped.halt, stopped.unsupported⟩
  refuse _ := moves_aside rfl rfl rfl rfl fun stopped =>
    ⟨stopped.halt, stopped.unsupported⟩
  append _ _ := moves_aside rfl rfl rfl rfl fun stopped =>
    ⟨stopped.halt, stopped.unsupported⟩
  flush m := by
    change Moves ctx m (if m.extractCur.isEmpty then m else _)
    split
    · exact refl m
    · exact moves_aside rfl rfl rfl rfl fun stopped =>
        ⟨stopped.halt, stopped.unsupported⟩

/-!
## The memory of a run

In every configuration a run goes through the frames are those of the calls in
progress, and what the machine reads and writes is a set of separate arrays, one
a region.
-/

/-! ## The calls in progress -/

/-- The activations of a run, innermost first, and its frames agree. -/
structure Stacked (stack : List Activation) (frames : List Frame) : Prop where
  indices : stack.map Activation.fi = (List.range frames.length).reverse
  depths : stack.map Activation.depth = (List.range frames.length).reverse
  sizes : stack.map Activation.nbytes =
    (frames.map fun fr => fr.stack.length).reverse
  bounded : frames.length ≤ maxDepth + 1
  small : ∀ size ∈ frames.map (fun fr => fr.stack.length), size ≤ maxBytes

structure Sound (ctx : Ctx) (c : Config) : Prop where
  rendered : Rendered ctx c.machine
  held : Held ctx c.machine
  small : ∀ size ∈ c.machine.heaps.map List.length, size ≤ maxMalloc
  stacked : Stacked c.stack c.machine.frames

section

variable {ctx : Ctx} {m m' : Machine} {a : Activation}
  {callers : List Activation}

/-- The calls in progress are those of a machine moved on. -/
theorem Stacked.moves {stack : List Activation} (stacked : Stacked stack m.frames)
    (moves : Moves ctx m m') : Stacked stack m'.frames := by
  refine ⟨?_, ?_, ?_, ?_, ?_⟩
  · rw [moves.length_frames]
    exact stacked.indices
  · rw [moves.length_frames]
    exact stacked.depths
  · rw [moves.stacks]
    exact stacked.sizes
  · rw [moves.length_frames]
    exact stacked.bounded
  · rw [moves.stacks]
    exact stacked.small

/-- What is left of the innermost block does not matter. -/
theorem Stacked.insts {frames : List Frame}
    (stacked : Stacked (a :: callers) frames) (insts : List Inst) :
    Stacked ({ a with insts } :: callers) frames :=
  ⟨stacked.indices, stacked.depths, stacked.sizes, stacked.bounded,
    stacked.small⟩

theorem Stacked.split {frames : List Frame}
    (stacked : Stacked (a :: callers) frames) :
    ∃ front fr, frames = front ++ [fr] ∧ a.fi = front.length ∧
      a.depth = front.length ∧ a.nbytes = fr.stack.length ∧
      Stacked callers front := by
  rcases List.eq_nil_or_concat frames with none' | ⟨front, fr, whole⟩
  · have indices := stacked.indices
    rw [none'] at indices
    cases indices
  · rw [List.concat_eq_append] at whole
    subst whole
    have indices := stacked.indices
    have depths := stacked.depths
    have sizes := stacked.sizes
    have bounded := stacked.bounded
    rw [List.length_append, List.length_singleton] at bounded indices depths
    rw [List.range_succ, List.reverse_append, List.map_cons] at indices depths
    rw [List.map_append, List.reverse_append, List.map_cons] at sizes
    simp only [List.reverse_cons, List.reverse_nil, List.nil_append,
      List.map_cons, List.map_nil, List.singleton_append,
      List.cons.injEq] at indices depths sizes
    refine ⟨front, fr, rfl, indices.1, depths.1, sizes.1, indices.2, depths.2,
      sizes.2, by omega, ?_⟩
    intro size member
    exact stacked.small size (by
      rw [List.map_append]
      exact List.mem_append_left _ member)

theorem Stacked.push {stack : List Activation} {frames : List Frame} {fr : Frame}
    (stacked : Stacked stack frames) (shallow : frames.length ≤ maxDepth)
    (fi : a.fi = frames.length) (depth : a.depth = frames.length)
    (nbytes : a.nbytes = fr.stack.length) (small : a.nbytes ≤ maxBytes) :
    Stacked (a :: stack) (frames ++ [fr]) := by
  refine ⟨?_, ?_, ?_, ?_, ?_⟩
  · rw [List.map_cons, List.length_append, List.length_singleton,
      List.range_succ, List.reverse_append, fi, stacked.indices]
    rfl
  · rw [List.map_cons, List.length_append, List.length_singleton,
      List.range_succ, List.reverse_append, depth, stacked.depths]
    rfl
  · rw [List.map_cons, List.map_append, List.reverse_append, nbytes,
      stacked.sizes]
    rfl
  · rw [List.length_append, List.length_singleton]
    omega
  · intro size member
    rw [List.map_append, List.mem_append, List.map_singleton,
      List.mem_singleton] at member
    rcases member with old | new
    · exact stacked.small size old
    · rw [new, ← nbytes]
      exact small

end

/-! ## One step of a run -/

section

variable {program : Program} {m m' : Machine} {a : Activation}
  {stack callers : List Activation}

/-- Where a run stands when its machine has moved on. -/
theorem Sound.moves (sound : Sound program.ctx ⟨m, stack⟩)
    (moves : Moves program.ctx m m') : Sound program.ctx ⟨m', stack⟩ := by
  refine ⟨moves.rendered sound.rendered, moves.held sound.held, ?_,
    sound.stacked.moves moves⟩
  obtain ⟨more, grown, small⟩ := moves.heaps
  intro size member
  change size ∈ m'.heaps.map List.length at member
  rw [grown] at member
  rcases List.mem_append.mp member with old | new
  · exact sound.small size old
  · exact small size new

/-- A run goes on soundly, and its allocations stay. -/
structure Goes (program : Program) (m : Machine) (c : Config) : Prop where
  sound : Sound program.ctx c
  heaps : m.heaps.length ≤ c.machine.heaps.length

theorem Goes.from {c : Config} (goes : Goes program m' c)
    (moves : Moves program.ctx m m') : Goes program m c :=
  ⟨goes.sound, Nat.le_trans moves.length_heaps goes.heaps⟩

theorem leave_sound (sound : Sound program.ctx ⟨m, a :: callers⟩) :
    Sound program.ctx ⟨(leave a m).2, callers⟩ := by
  obtain ⟨front, fr, whole, -, -, nbytes, below⟩ := sound.stacked.split
  have dropped : (leave a m).2.frames = front := by
    change m.frames.dropLast = front
    rw [show m.frames = front ++ [fr] from whole, List.dropLast_concat]
  refine ⟨⟨sound.rendered.length, sound.rendered.bytes⟩, ⟨?_, ?_⟩,
    sound.small, ?_⟩
  · have exact' := sound.held.exact
    change m.held - a.nbytes = (m.heaps.map List.length).sum +
      ((leave a m).2.frames.map fun fr => fr.stack.length).sum +
        (m.gcache.map fun bytes => (bytes.map List.length).getD 0).sum
    rw [dropped]
    change m.held = m.taken at exact'
    rw [Machine.taken, show m.frames = front ++ [fr] from whole,
      List.map_append, List.sum_append, List.map_singleton,
      List.sum_singleton] at exact'
    rw [nbytes]
    omega
  · exact Nat.le_trans (Nat.sub_le _ _) sound.held.within
  · rw [dropped]
    exact below

theorem answer_moves (v : Word) :
    Moves program.ctx m (answer a v m).2 ∧
      ∃ insts, (answer a v m).1 = { a with insts } := by
  unfold answer
  cases a.insts with
  | nil => exact ⟨refl m, a.insts, rfl⟩
  | cons inst insts =>
      refine ⟨?_, insts, ?_⟩
      · dsimp only
        split
        · exact tracks_setValue program.ctx a.fi inst.dest v m
        · exact refl m
      · dsimp only
        split <;> rfl

theorem answer_goes (sound : Sound program.ctx ⟨m, a :: callers⟩) (v : Word) :
    Goes program m ⟨(answer a v m).2, (answer a v m).1 :: callers⟩ := by
  obtain ⟨moves, insts, same⟩ :=
    @answer_moves program m a v
  have after := sound.moves moves
  rw [same]
  exact ⟨⟨after.rendered, after.held, after.small, after.stacked.insts insts⟩,
    moves.length_heaps⟩

theorem finish_goes (sound : Sound program.ctx ⟨m, a :: callers⟩) (v : Word) :
    Goes program m (finish a callers v m) := by
  have left := leave_sound sound
  cases callers with
  | nil => exact ⟨left, Nat.le_refl _⟩
  | cons caller callers =>
      obtain ⟨after, heaps⟩ := answer_goes left v
      exact ⟨after, heaps⟩

theorem push_sound {fr : Frame} {nbytes depth : Nat} (idx : Nat)
    (insts : List Inst) (args : List Word)
    (sound : Sound program.ctx ⟨m, stack⟩) (deep : depth = m.frames.length)
    (shallow : depth ≤ maxDepth) (size : fr.stack.length = nbytes)
    (small : nbytes ≤ maxBytes)
    (room : m.held + nbytes ≤ program.ctx.writeLimits.memory) :
    let pushed := { m with
      held := m.held + nbytes, frames := m.frames ++ [fr] }
    Goes program m
      ⟨((args.zipIdx.forM fun (v, k) => setValue m.frames.length k v) pushed).2,
        ⟨idx, m.frames.length, nbytes, depth, insts⟩ :: stack⟩ := by
  intro pushed
  have exact' : m.held = m.taken := sound.held.exact
  have sound' : Sound program.ctx
      ⟨pushed, ⟨idx, m.frames.length, nbytes, depth, insts⟩ :: stack⟩ := by
    refine ⟨⟨sound.rendered.length, sound.rendered.bytes⟩, ⟨?_, room⟩,
      sound.small, ?_⟩
    · change m.held + nbytes = (m.heaps.map List.length).sum +
        ((m.frames ++ [fr]).map fun fr => fr.stack.length).sum +
          (m.gcache.map fun bytes => (bytes.map List.length).getD 0).sum
      rw [List.map_append, List.sum_append, List.map_singleton,
        List.sum_singleton, size, exact', Machine.taken]
      omega
    · exact sound.stacked.push (deep ▸ shallow) rfl deep size.symm small
  have set : Moves program.ctx pushed
      ((args.zipIdx.forM fun (v, k) =>
        setValue m.frames.length k v) pushed).2 :=
    Tracks.forM (fun (v, k) => tracks_setValue program.ctx _ k v) _ pushed
  exact ⟨sound'.moves set, set.length_heaps⟩

/-- A call is refused, or stands on top of the ones in progress. -/
theorem enter_goes {idx depth : Nat} {args : List Word}
    (sound : Sound program.ctx ⟨m, stack⟩) (deep : depth = m.frames.length) :
    match enter program idx args depth m with
    | (none, m') => Moves program.ctx m m'
    | (some callee, m') => Goes program m ⟨m', callee :: stack⟩ := by
  unfold enter
  rw [get_then]
  by_cases halted : m.halt = true
  · rw [if_pos halted]
    exact tracks_flag m
  rw [if_neg halted]
  by_cases deeper : maxDepth < depth
  · rw [if_pos deeper]
    exact tracks_gap m
  rw [if_neg deeper]
  cases program.funcs[idx]? with
  | none => exact tracks_flag m
  | some f =>
      dsimp only
      by_cases big : maxBytes < (layout f program.ctx.types).2
      · rw [if_pos big]
        exact tracks_gap m
      rw [if_neg big, hold_then]
      by_cases room : m.held + (layout f program.ctx.types).2 ≤
          program.ctx.writeLimits.memory
      · rw [if_pos room]
        exact push_sound idx _ args sound deep (by omega)
          List.length_replicate (by omega) room
      · rw [if_neg room]
        exact tracks_gap m

theorem Goes.refl {c : Config} (sound : Sound program.ctx c) :
    Goes program c.machine c :=
  ⟨sound, Nat.le_refl _⟩

/-- One instruction, whatever it does to control. -/
theorem step_goes {inst : Inst} {insts : List Inst}
    (sound : Sound program.ctx ⟨m, a :: callers⟩) :
    Goes program m
      (match step program.ctx a.fi inst m with
      | (.next, m) => ⟨m, { a with insts } :: callers⟩
      | (.jump t, m) =>
          match blockAt program a.idx t with
          | some insts => ⟨m, { a with insts } :: callers⟩
          | none => finish a callers 0 m
      | (.ret v, m) => finish a callers v m
      | (.call func args, m) =>
          match enter program func args (a.depth + 1) m with
          | (some callee, m) => ⟨m, callee :: a :: callers⟩
          | (none, m) =>
              let (a, m) := answer a 0 m
              ⟨m, a :: callers⟩) := by
  have moves : Moves program.ctx m (step program.ctx a.fi inst m).2 :=
    tracks_step program.ctx a.fi inst m
  rcases stepped : step program.ctx a.fi inst m with ⟨flow, m'⟩
  rw [stepped] at moves
  have sound' := sound.moves moves
  have other (insts : List Inst) :
      Goes program m' ⟨m', { a with insts } :: callers⟩ :=
    Goes.refl (c := ⟨m', { a with insts } :: callers⟩)
      ⟨sound'.rendered, sound'.held, sound'.small,
        sound'.stacked.insts insts⟩
  cases flow with
  | next => exact (other insts).from moves
  | jump t =>
      dsimp only
      cases blockAt program a.idx t with
      | none => exact (finish_goes sound' 0).from moves
      | some insts => exact (other insts).from moves
  | ret v => exact (finish_goes sound' v).from moves
  | call func args =>
      dsimp only
      obtain ⟨front, fr, whole, -, depth, -, -⟩ := sound'.stacked.split
      have deep : a.depth + 1 = m'.frames.length := by
        rw [depth, show m'.frames = front ++ [fr] from whole,
          List.length_append, List.length_singleton]
      have entered := @enter_goes program m' (a :: callers) func _ args sound' deep
      rcases called : enter program func args (a.depth + 1) m' with
        ⟨_ | callee, m''⟩
      · rw [called] at entered
        exact ((answer_goes (sound'.moves entered) 0).from entered).from moves
      · rw [called] at entered
        exact entered.from moves

theorem next_goes {c : Config} (sound : Sound program.ctx c) :
    Goes program c.machine (next program c) := by
  rcases c with ⟨m, stack⟩
  unfold next
  cases stack with
  | nil => exact .refl sound
  | cons a callers =>
      dsimp only
      cases waiting : a.insts with
      | nil => exact finish_goes sound 0
      | cons inst insts =>
          have counted : Moves program.ctx m { m with steps := m.steps + 1 } :=
            moves_aside rfl rfl rfl rfl fun stopped =>
              ⟨stopped.halt, stopped.unsupported⟩
          have sound' := sound.moves counted
          dsimp only
          split
          · have stopped : Moves program.ctx m { m with
                steps := m.steps + 1, unsupported := true } :=
              moves_aside rfl rfl rfl rfl fun stopped =>
                ⟨stopped.halt, rfl⟩
            exact (finish_goes (sound.moves stopped) 0).from stopped
          · split
            · exact (finish_goes sound' 0).from counted
            · exact (step_goes sound').from counted

theorem start_goes (entry : Nat) :
    Sound program.ctx (start program entry) := by
  have sound : Sound program.ctx ⟨initial program, []⟩ := by
    refine ⟨⟨List.length_map _, ?_⟩, ⟨?_, Nat.zero_le _⟩, by simp [initial],
      ⟨rfl, rfl, rfl, Nat.zero_le _, by simp [initial]⟩⟩
    · intro g bytes cached
      change (program.ctx.globals.map fun _ => none)[g]? = _ at cached
      rw [List.getElem?_map] at cached
      cases here : program.ctx.globals[g]? with
      | none => rw [here] at cached; cases cached
      | some gv => rw [here] at cached; cases cached
    · change 0 = 0 + 0 + ((program.ctx.globals.map fun _ =>
        (none : Option Bytes)).map fun bytes =>
          (bytes.map List.length).getD 0).sum
      simp
  have entered : match enter program entry [] 0 (initial program) with
      | (none, m') => Moves program.ctx (initial program) m'
      | (some callee, m') => Goes program (initial program) ⟨m', [callee]⟩ :=
    @enter_goes program (initial program) [] entry 0 [] sound rfl
  unfold start
  rcases called : enter program entry [] 0 (initial program) with
    ⟨_ | callee, m⟩
  · rw [called] at entered
    exact sound.moves entered
  · rw [called] at entered
    exact entered.sound

theorem reachable_sound {entry : Nat} {c : Config}
    (reached : Reachable program entry c) : Sound program.ctx c := by
  induction reached with
  | start => exact start_goes entry
  | next _ sound => exact (next_goes sound).sound

end

end Exav.Bytecode
