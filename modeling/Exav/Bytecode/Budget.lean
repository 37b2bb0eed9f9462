import Exav.Bytecode.Moves
import Exav.Lib.Halting

/-!
# What a run spends

Every instruction costs a step and a bulk one more; a run past its steps executes
nothing more and returns from the calls in progress.  Bytes put out are counted
against the limits of the scan, and those refused mark the run.
-/

namespace Exav.Bytecode

/-! ## Output -/

/-- What a run has put out: the output in progress, the finished ones, the bytes
of both, and whether some were refused. -/
structure Output where
  current : Bytes
  done : List Bytes
  written : Nat
  limited : Bool

def Machine.output (m : Machine) : Output :=
  ⟨m.extractCur, m.extracted, m.written, m.limited⟩

/-- What one instruction does to the output. -/
inductive Puts (limits : WriteLimits) (o : Output) : Output → Prop
  | nothing : Puts limits o o
  | refused : Puts limits o { o with limited := true }
  | wrote (bytes : Bytes)
      (file : o.current.length + bytes.length ≤ limits.file)
      (total : saturatingAdd o.written bytes.length ≤ limits.total)
      (small : o.current.length + bytes.length ≤ maxAlloc) :
      Puts limits o { o with
        current := o.current ++ bytes, written := o.written + bytes.length }
  | finished : Puts limits o { o with
      current := [], done := o.done ++ [o.current] }

/-! ## Relations between two states of a run -/

/-- The steps go up, and what ended the run stays. -/
structure Onward (m m' : Machine) : Prop where
  steps : min m.steps (2 ^ 64 - 1) ≤ m'.steps
  unsupported : m.unsupported = true → m'.unsupported = true
  gapped : m.gapped = true → m'.gapped = true
  limited : m.limited = true → m'.limited = true
  unwound : (m.panicked = true → m.unsupported = true) →
    m'.panicked = true → m'.unsupported = true

theorem Onward.refl (m : Machine) : Onward m m :=
  ⟨Nat.min_le_left _ _, id, id, id, id⟩

theorem Onward.comp {a b c : Machine} (first : Onward a b)
    (second : Onward b c) : Onward a c := by
  have steps := first.steps
  have steps' := second.steps
  exact ⟨by omega, second.unsupported ∘ first.unsupported,
    second.gapped ∘ first.gapped, second.limited ∘ first.limited,
    second.unwound ∘ first.unwound⟩

instance : IsPreorder Machine Onward where
  refl := .refl
  trans _ _ _ := .comp

/-- Onward, with nothing put out. -/
structure Silent (m m' : Machine) : Prop extends Onward m m' where
  output : m'.output = m.output

theorem Silent.refl (m : Machine) : Silent m m :=
  ⟨.refl m, rfl⟩

theorem Silent.comp {a b c : Machine} (first : Silent a b)
    (second : Silent b c) : Silent a c :=
  ⟨first.toOnward.comp second.toOnward, second.output.trans first.output⟩

def Free (m m' : Machine) : Prop :=
  m'.steps = m.steps

instance : IsPreorder Machine Free where
  refl _ := rfl
  trans _ _ _ first second := second.trans first

instance : Stops Free where
  flag _ := rfl
  gap _ := rfl
  unwind _ := rfl

section

variable {m m' : Machine}

/-- A change of neither the steps nor what ended the run. -/
theorem onward_aside (steps : m'.steps = m.steps)
    (unsupported : m'.unsupported = m.unsupported)
    (gapped : m'.gapped = m.gapped) (limited : m'.limited = m.limited)
    (panicked : m'.panicked = m.panicked) : Onward m m' := by
  refine ⟨?_, ?_, ?_, ?_, ?_⟩
  · rw [steps]
    exact Nat.min_le_left _ _
  · rw [unsupported]
    exact id
  · rw [gapped]
    exact id
  · rw [limited]
    exact id
  · rw [unsupported, panicked]
    exact id

theorem onward_charge (n : Nat) (m : Machine) :
    Onward m (chargeBytes n m).2 := by
  refine ⟨?_, id, id, id, id⟩
  change min m.steps (2 ^ 64 - 1) ≤ min (m.steps + n / bytesPerStep) (2 ^ 64 - 1)
  have more := Nat.le_add_right m.steps (n / bytesPerStep)
  generalize m.steps + n / bytesPerStep = charged at more ⊢
  omega

end

instance : Stops Silent where
  refl := .refl
  trans _ _ _ := .comp
  flag _ := ⟨⟨Nat.min_le_left _ _, fun _ => rfl, id, id, fun _ _ => rfl⟩, rfl⟩
  gap _ :=
    ⟨⟨Nat.min_le_left _ _, fun _ => rfl, fun _ => rfl, id, fun _ _ => rfl⟩, rfl⟩
  unwind _ :=
    ⟨⟨Nat.min_le_left _ _, fun _ => rfl, fun _ => rfl, id, fun _ _ => rfl⟩, rfl⟩

instance (ctx : Ctx) : Works ctx Silent where
  putStack _ _ := ⟨onward_aside rfl rfl rfl rfl rfl, rfl⟩
  putHeap _ _ := ⟨onward_aside rfl rfl rfl rfl rfl, rfl⟩
  render _ _ _ := ⟨onward_aside rfl rfl rfl rfl rfl, rfl⟩
  push _ _ := ⟨onward_aside rfl rfl rfl rfl rfl, rfl⟩
  charge n m := ⟨onward_charge n m, rfl⟩
  seek _ _ := ⟨onward_aside rfl rfl rfl rfl rfl, rfl⟩
  detect _ _ := ⟨onward_aside rfl rfl rfl rfl rfl, rfl⟩
  stub _ _ := ⟨onward_aside rfl rfl rfl rfl rfl, rfl⟩

structure Spends (ctx : Ctx) (m m' : Machine) : Prop extends Onward m m' where
  output : Puts ctx.writeLimits m.output m'.output

section

variable {ctx : Ctx} {m m' m'' : Machine}

theorem Silent.spends (silent : Silent m m') : Spends ctx m m' :=
  ⟨silent.toOnward, silent.output ▸ .nothing⟩

theorem Silent.then (silent : Silent m m') (spends : Spends ctx m' m'') :
    Spends ctx m m'' :=
  ⟨silent.toOnward.comp spends.toOnward, silent.output ▸ spends.output⟩

theorem Spends.then (spends : Spends ctx m m') (silent : Silent m' m'') :
    Spends ctx m m'' :=
  ⟨spends.toOnward.comp silent.toOnward, silent.output.symm ▸ spends.output⟩

theorem Tracks.thenSpends {α β : Type} {run : Run α} {more : α → Run β}
    (first : Tracks Silent run) (second : ∀ a, Tracks (Spends ctx) (more a)) :
    Tracks (Spends ctx) (run >>= more) :=
  fun m => (first m).then (second (run m).1 (run m).2)

theorem Tracks.thenSilent {α β : Type} {run : Run α} {more : α → Run β}
    (first : Tracks (Spends ctx) run) (second : ∀ a, Tracks Silent (more a)) :
    Tracks (Spends ctx) (run >>= more) :=
  fun m => (first m).then (second (run m).1 (run m).2)

theorem Tracks.spends {α : Type} {run : Run α} (silent : Tracks Silent run) :
    Tracks (Spends ctx) run :=
  fun m => (silent m).spends

/-! ## Instructions -/

variable (ctx) (fi : Nat) (args : List Operand)

theorem spends_flush : Tracks (Spends ctx) flush := by
  intro m
  change Spends ctx m (if m.extractCur.isEmpty then m else _)
  split
  · exact (Silent.refl m).spends
  · exact ⟨onward_aside rfl rfl rfl rfl rfl, .finished⟩

theorem spends_writeOut : Tracks (Spends ctx) (writeOut ctx fi args) := by
  refine Tracks.thenSpends (tracks_valueNat ctx fi _) fun len => ?_
  refine Tracks.thenSpends (tracks_ptr ctx fi _) fun p => ?_
  refine Tracks.thenSpends (tracks_readRegion ctx p _) fun bytes => ?_
  apply Tracks.look
  intro m
  by_cases refused : ctx.writeLimits.file < m.extractCur.length + bytes.length ∨
      ctx.writeLimits.total < saturatingAdd m.written bytes.length
  · rw [if_pos refused]
    exact ⟨⟨Nat.min_le_left _ _, id, id, fun _ => rfl, id⟩, .refused⟩
  rw [if_neg refused]
  by_cases large : maxAlloc < m.extractCur.length + bytes.length
  · rw [if_pos large]
    exact Silent.spends (tracks_gap m)
  · rw [if_neg large]
    exact ⟨onward_aside rfl rfl rfl rfl rfl,
      .wrote bytes (by change m.extractCur.length + _ ≤ _; omega)
        (by change saturatingAdd m.written _ ≤ _; omega)
        (by change m.extractCur.length + _ ≤ _; omega)⟩

theorem spends_callApi (api : Api) :
    Tracks (Spends ctx) (callApi ctx fi api args) := by
  by_cases writes : api = .write
  · subst writes
    exact spends_writeOut ctx fi args
  · by_cases news : api = .extractNew
    · subst news
      exact Tracks.thenSilent (spends_flush ctx) fun _ => .pure _
    · exact Tracks.spends (tracks_callApi_silent ctx fi args writes news)

variable (inst : Inst)

theorem spends_stepApi (func : Nat) :
    Tracks (Spends ctx) (stepApi ctx fi inst func args) := by
  have valued : Tracks (Spends ctx) (do
      let r ← callApi ctx fi (apiFor ctx func) args
      if inst.ty ≠ 0 then setValue fi inst.dest r else pure ()) := by
    refine Tracks.thenSilent (spends_callApi ctx fi args _) fun r => ?_
    exact .ite (tracks_setValue ctx fi _ r) (.pure _)
  unfold stepApi
  dsimp only
  exact .ite (Tracks.thenSpends (tracks_noteStub ctx _) fun _ => valued) valued

theorem spends_step : Tracks (Spends ctx) (step ctx fi inst) := by
  by_cases called : ∃ func args, inst.body = .call true func args
  · obtain ⟨func, args, body⟩ := called
    unfold step
    rw [body]
    exact Tracks.thenSilent (spends_stepApi ctx fi args inst func)
      fun _ => .pure _
  · refine Tracks.spends (tracks_step_of ctx fi inst fun func args body => ?_)
    exact absurd ⟨func, args, body⟩ called

/-- Control goes on to the next instruction. -/
def Stays (run : Run Flow) : Prop :=
  ∀ m, (run m).1 = .next

/-- What does not go on to the next instruction charges nothing. -/
def Leaves (run : Run Flow) : Prop :=
  ∀ m, (run m).1 = .next ∨ Free m (run m).2

theorem stays_next : Stays (pure Flow.next) :=
  fun _ => rfl

theorem Stays.bind {α : Type} {run : Run α} {more : α → Run Flow}
    (stays : ∀ a, Stays (more a)) : Stays (run >>= more) :=
  fun m => stays (run m).1 (run m).2

theorem Stays.ite {c : Prop} [Decidable c] {yes no : Run Flow}
    (holds : Stays yes) (fails : Stays no) : Stays (if c then yes else no) := by
  by_cases h : c
  · rw [if_pos h]
    exact holds
  · rw [if_neg h]
    exact fails

theorem Stays.leaves {run : Run Flow} (stays : Stays run) : Leaves run :=
  fun m => .inl (stays m)

theorem leaves_free {α : Type} {run : Run α} (free : Tracks Free run)
    (flow : α → Flow) : Leaves (do pure (flow (← run))) :=
  fun m => .inr (free m)

theorem leaves_stepOps (ops : List Operand) :
    Leaves (stepOps ctx fi inst ops) := by
  have then_next {α : Type} (run : Run α) :
      Leaves (do let _ ← run; pure Flow.next) :=
    Stays.leaves (.bind fun _ => stays_next)
  have setting {α : Type} (run : Run α) (more : α → Run Unit) :
      Stays (do more (← run); pure Flow.next) :=
    .bind fun _ => .bind fun _ => stays_next
  unfold stepOps
  dsimp only
  split
  · exact then_next _
  split
  · exact then_next _
  split
  · exact (setting _ _).leaves
  · exact (setting _ _).leaves
  · exact Stays.leaves (.bind fun _ => setting _ _)
  · exact Stays.leaves (.bind fun _ => .ite (setting _ _) (setting _ _))
  · refine Stays.leaves (.bind fun v => ?_)
    split
    · exact .bind fun _ => stays_next
    · exact stays_next
  · exact then_next _
  · exact then_next _
  · exact then_next _
  · exact then_next _
  · exact then_next _
  · exact then_next _
  · exact then_next _
  · exact (setting _ _).leaves
  · exact (setting _ _).leaves
  · exact (setting _ _).leaves
  · exact (setting _ _).leaves
  · refine Stays.leaves (.bind fun _ => .bind fun _ => .ite (setting _ _) ?_)
    exact .bind fun _ => setting _ _
  · exact leaves_free (tracks_flag : Tracks Free flag) fun _ => .ret 0
  · exact then_next _

/-- An instruction that leaves its block charges nothing. -/
theorem leaves_step : Leaves (step ctx fi inst) := by
  unfold step
  split
  · exact fun _ => .inr rfl
  · exact leaves_free (tracks_valueNat ctx fi _) fun c =>
      .jump (if c &&& 1 ≠ 0 then _ else _)
  · exact fun _ => .inr rfl
  · exact leaves_free (tracks_argValue ctx fi _) .ret
  · exact Stays.leaves (.bind fun _ => stays_next)
  · exact leaves_free (.mapM (tracks_argValue ctx fi) _) (.call _)
  · apply Stays.leaves
    split
    · exact .bind fun _ => .bind fun _ => .bind fun _ => stays_next
    · exact .bind fun _ => .bind fun _ => stays_next
    · exact .bind fun _ => .bind fun _ => stays_next
  · exact leaves_stepOps ctx fi inst _

end

/-!
## Budgets

A run executes no instruction past its steps, and so it ends.  Its outcome says
that it was cut short, unless the call of the entry had just used up its block
when the steps ran out.
-/

/-! ## Calls -/

/-- Silent, and neither charged nor unwound. -/
structure Settles (m m' : Machine) : Prop extends Silent m m' where
  charged : m'.steps = m.steps
  kept : m'.panicked = m.panicked

section

variable {m m' m'' : Machine}

theorem Settles.refl (m : Machine) : Settles m m :=
  ⟨.refl m, rfl, rfl⟩

theorem Settles.comp (first : Settles m m') (second : Settles m' m'') :
    Settles m m'' :=
  ⟨first.toSilent.comp second.toSilent, second.charged.trans first.charged,
    second.kept.trans first.kept⟩

instance : IsPreorder Machine Settles where
  refl := .refl
  trans _ _ _ := .comp

theorem settles_setValue (fi id : Nat) (v : Word) (m : Machine) :
    Settles m (setValue fi id v m).2 := by
  have flagged : Settles m (flag m).2 := ⟨Stops.flag m, rfl, rfl⟩
  have written (off w : Nat) : Settles m (wrMem fi off w v m).2 := by
    unfold wrMem
    rw [get_then]
    cases m.frames[fi]? with
    | none => exact flagged
    | some fr =>
        dsimp only
        split
        · exact ⟨⟨onward_aside rfl rfl rfl rfl rfl, rfl⟩, rfl, rfl⟩
        · exact flagged
  unfold setValue
  rw [get_then]
  cases slot m fi id with
  | none => exact flagged
  | some s => exact written s.off s.w

theorem settles_answer (a : Activation) (v : Word) (m : Machine) :
    Settles m (answer a v m).2 := by
  unfold answer
  cases a.insts with
  | nil => exact .refl m
  | cons inst insts =>
      dsimp only
      split
      · exact settles_setValue a.fi inst.dest v m
      · exact .refl m

theorem settles_finish (a : Activation) (callers : List Activation) (v : Word)
    (m : Machine) : Settles m (finish a callers v m).machine := by
  have left : Settles m (leave a m).2 :=
    ⟨⟨onward_aside rfl rfl rfl rfl rfl, rfl⟩, rfl, rfl⟩
  cases callers with
  | nil => exact left
  | cons caller callers => exact left.comp (settles_answer caller v _)

theorem length_finish (a : Activation) (callers : List Activation) (v : Word)
    (m : Machine) : (finish a callers v m).stack.length = callers.length := by
  cases callers with
  | nil => rfl
  | cons caller callers => rfl

theorem settles_enter (program : Program) (idx depth : Nat) (args : List Word)
    (m : Machine) : Settles m (enter program idx args depth m).2 := by
  have flagged : Settles m (flag m).2 := ⟨Stops.flag m, rfl, rfl⟩
  have gapped : Settles m (gap m).2 := ⟨Stops.gap m, rfl, rfl⟩
  unfold enter
  rw [get_then]
  split
  · exact flagged
  split
  · exact gapped
  cases program.funcs[idx]? with
  | none => exact flagged
  | some f =>
      dsimp only
      split
      · exact gapped
      rw [hold_then]
      split
      · have taken (held : Nat) : Settles m { m with held } :=
          ⟨⟨onward_aside rfl rfl rfl rfl rfl, rfl⟩, rfl, rfl⟩
        refine (taken _).comp (Tracks.bind ?_ (fun _ => ?_) _)
        · exact fun m => ⟨⟨onward_aside rfl rfl rfl rfl rfl, rfl⟩, rfl, rfl⟩
        · exact .bind (.forM (fun (v, k) => settles_setValue _ k v) _)
            fun _ => .pure _
      · exact gapped

end

/-! ## Steps of a run -/

def Machine.counted (m : Machine) : Machine :=
  { m with steps := m.steps + 1 }

/-- What a step of a run does. -/
inductive Proceeds (program : Program) : Config → Config → Prop
  | idle (m : Machine) : Proceeds program ⟨m, []⟩ ⟨m, []⟩
  | fell {a : Activation} (m : Machine) (callers : List Activation) :
      a.insts = [] → Proceeds program ⟨m, a :: callers⟩ (finish a callers 0 m)
  | capped (m : Machine) (a : Activation) (callers : List Activation) :
      maxSteps < m.steps + 1 → Proceeds program ⟨m, a :: callers⟩
        (finish a callers 0 { m.counted with unsupported := true })
  | halted (m : Machine) (a : Activation) (callers : List Activation) :
      m.steps + 1 ≤ maxSteps → Proceeds program ⟨m, a :: callers⟩
        (finish a callers 0 m.counted)
  | worked {m m' : Machine} (a b : Activation) (callers more : List Activation) :
      m.steps + 1 ≤ maxSteps → Spends program.ctx m.counted m' →
      more.length ≤ callers.length + 1 →
      Proceeds program ⟨m, a :: callers⟩ ⟨m', b :: more⟩
  | ended {m m' : Machine} (a : Activation) (callers : List Activation) (v : Word) :
      m.steps + 1 ≤ maxSteps → Spends program.ctx m.counted m' →
      m'.steps = m.steps + 1 →
      Proceeds program ⟨m, a :: callers⟩ (finish a callers v m')

section

variable {program : Program} {c : Config}

theorem next_fell {a : Activation} (m : Machine) (callers : List Activation)
    (done : a.insts = []) :
    next program ⟨m, a :: callers⟩ = finish a callers 0 m := by
  unfold next
  dsimp only
  rw [done]

theorem proceeds_step {flowed : Flow × Machine} (m : Machine) (a : Activation)
    (callers : List Activation) (insts : List Inst)
    (room : m.steps + 1 ≤ maxSteps) :
    Spends program.ctx m.counted flowed.2 →
    (flowed.1 = .next ∨ Free m.counted flowed.2) →
    Proceeds program ⟨m, a :: callers⟩
      (match flowed with
      | (.next, m) => ⟨m, { a with insts } :: callers⟩
      | (.jump t, m) =>
          match blockAt program a.idx t with
          | some insts => ⟨m, { a with insts } :: callers⟩
          | none => finish a callers 0 m
      | (.ret v, m) => finish a callers v m
      | (.call func args, m) =>
          match enter program func args (a.depth + 1) m with
          | (some callee, m) => ⟨m, callee :: a :: callers⟩
          | (none, m) =>
              let (a, m) := answer a 0 m
              ⟨m, a :: callers⟩) := by
  intro spends free
  rcases flowed with ⟨flow, m'⟩
  have charged (leaving : flow ≠ .next) : m'.steps = m.steps + 1 :=
    free.resolve_left leaving
  cases flow with
  | next => exact .worked a _ callers callers room spends (Nat.le_succ _)
  | jump t =>
      dsimp only
      cases blockAt program a.idx t with
      | none => exact .ended a callers 0 room spends (charged (by simp))
      | some insts => exact .worked a _ callers callers room spends (Nat.le_succ _)
  | ret v => exact .ended a callers v room spends (charged (by simp))
  | call func args =>
      dsimp only
      have entered := settles_enter program func (a.depth + 1) args m'
      rcases called : enter program func args (a.depth + 1) m' with
        ⟨_ | callee, m''⟩
      · rw [called] at entered
        have answered := settles_answer a 0 m''
        exact .worked a _ callers callers room
          (spends.then (entered.comp answered).toSilent) (Nat.le_succ _)
      · rw [called] at entered
        exact .worked a callee callers (a :: callers) room
          (spends.then entered.toSilent) (Nat.le_refl _)

theorem next_proceeds (c : Config) : Proceeds program c (next program c) := by
  rcases c with ⟨m, stack⟩
  unfold next
  cases stack with
  | nil => exact .idle m
  | cons a callers =>
      dsimp only
      cases waiting : a.insts with
      | nil => exact .fell m callers waiting
      | cons inst insts =>
          dsimp only
          split
          · exact .capped m a callers ‹_›
          rename_i room
          have room : m.steps + 1 ≤ maxSteps := Nat.le_of_not_lt room
          split
          · exact .halted m a callers room
          exact proceeds_step m a callers insts room
            (spends_step program.ctx a.fi inst m.counted)
            (leaves_step program.ctx a.fi inst m.counted)

theorem Proceeds.onward {c c' : Config} (proceeds : Proceeds program c c') :
    Onward c.machine c'.machine := by
  have counted (m : Machine) : Onward m m.counted :=
    ⟨by change _ ≤ m.steps + 1; omega, id, id, id, id⟩
  cases proceeds with
  | idle m => exact .refl m
  | fell m callers done => exact (settles_finish _ _ _ _).toOnward
  | capped m a callers past =>
      have flagged : Onward m { m.counted with unsupported := true } :=
        ⟨(counted m).steps, fun _ => rfl, id, id, fun _ _ => rfl⟩
      exact flagged.comp (settles_finish _ _ _ _).toOnward
  | halted m a callers room =>
      exact (counted m).comp (settles_finish _ _ _ _).toOnward
  | worked a b callers more room spends short =>
      exact (counted _).comp spends.toOnward
  | ended a callers v room spends charged =>
      exact ((counted _).comp spends.toOnward).comp
        (settles_finish _ _ _ _).toOnward

/-! ## The loop -/

/-- A run as a loop.  An instruction takes a step and begins one call at most. -/
def loop (program : Program) : Loop Config where
  next := next program
  ended c := c.stack.isEmpty
  measure c := 2 * (maxSteps + 1 - c.machine.steps) + c.stack.length

def run (program : Program) (entry : Nat) : Machine :=
  ((loop program).final (start program entry)).machine

theorem loop_falls (program : Program) : (loop program).Falls := by
  intro c going
  have small : maxSteps + 1 < 2 ^ 64 - 1 := by decide
  change 2 * (maxSteps + 1 - (next program c).machine.steps) +
    (next program c).stack.length <
      2 * (maxSteps + 1 - c.machine.steps) + c.stack.length
  have proceeds := @next_proceeds program c
  generalize next program c = c' at proceeds
  cases proceeds with
  | idle m => cases going
  | fell m callers done =>
      rw [length_finish, (settles_finish _ _ _ _).charged]
      exact Nat.add_lt_add_left (Nat.lt_succ_self _) _
  | capped m a callers past =>
      rw [length_finish, (settles_finish _ _ _ _).charged]
      change 2 * (maxSteps + 1 - (m.steps + 1)) + callers.length <
        2 * (maxSteps + 1 - m.steps) + (callers.length + 1)
      omega
  | halted m a callers room =>
      rw [length_finish, (settles_finish _ _ _ _).charged]
      change 2 * (maxSteps + 1 - (m.steps + 1)) + callers.length <
        2 * (maxSteps + 1 - m.steps) + (callers.length + 1)
      omega
  | @worked m m' a b callers more room spends short =>
      have steps : min (m.steps + 1) (2 ^ 64 - 1) ≤ m'.steps := spends.steps
      change 2 * (maxSteps + 1 - m'.steps) + (more.length + 1) <
        2 * (maxSteps + 1 - m.steps) + (callers.length + 1)
      omega
  | @ended m m' a callers v room spends charged =>
      rw [length_finish, (settles_finish _ _ _ _).charged, charged]
      change 2 * (maxSteps + 1 - (m.steps + 1)) + callers.length <
        2 * (maxSteps + 1 - m.steps) + (callers.length + 1)
      omega

variable {entry : Nat}

/-- Every configuration of a run ends where the run does. -/
theorem final_reachable (reached : Reachable program entry c) :
    (loop program).final c = (loop program).final (start program entry) := by
  induction reached with
  | start => rfl
  | @next c reached ih =>
      rw [← ih]
      cases excess : (loop program).ended c with
      | false => exact Loop.final_next (loop_falls program) excess
      | true =>
          have stays : next program c = c := by
            have done : c.stack = [] := List.isEmpty_iff.mp excess
            unfold next
            rw [done]
          rw [stays]

/-- A run ends, in a configuration it goes through. -/
theorem reachable_final (program : Program) (entry : Nat) :
    Reachable program entry ((loop program).final (start program entry)) :=
  Loop.final_keeps _ (fun _ _ reached => .next reached) .start

theorem reachable_iterate (n : Nat) :
    Reachable program entry ((next program)^[n] (start program entry)) := by
  induction n with
  | zero => exact .start
  | succ n ih =>
      rw [Function.iterate_succ_apply']
      exact .next ih

theorem final_stack (program : Program) (c : Config) :
    ((loop program).final c).stack = [] :=
  List.isEmpty_iff.mp (Loop.over_final (loop_falls program) c)

/-! ## Output -/

/-- Output within its limits, so many instructions having run. -/
structure Accounted (limits : WriteLimits) (o : Output) (spent : Nat) : Prop where
  sum : (o.done.map List.length).sum + o.current.length = o.written
  each : ∀ bytes ∈ o.current :: o.done, bytes.length ≤ limits.file
  total : o.written ≤ limits.total
  spent : o.written ≤ maxAlloc * spent

theorem Accounted.mono {limits : WriteLimits} {o : Output} {spent spent' : Nat}
    (accounted : Accounted limits o spent) (more : spent ≤ spent') :
    Accounted limits o spent' :=
  ⟨accounted.sum, accounted.each, accounted.total,
    Nat.le_trans accounted.spent (Nat.mul_le_mul_left _ more)⟩

theorem Puts.accounted {limits : WriteLimits} {o o' : Output} {spent : Nat}
    (puts : Puts limits o o') (accounted : Accounted limits o spent)
    (room : spent + 1 ≤ maxSteps) : Accounted limits o' (spent + 1) := by
  have more := accounted.mono (Nat.le_succ spent)
  cases puts with
  | nothing => exact more
  | refused => exact ⟨more.sum, more.each, more.total, more.spent⟩
  | wrote bytes file total small =>
      have sum := accounted.sum
      have taken : o.written + bytes.length ≤ maxAlloc * (spent + 1) := by
        have before := accounted.spent
        rw [Nat.mul_succ]
        omega
      refine ⟨?_, ?_, ?_, taken⟩
      · change (o.done.map List.length).sum + (o.current ++ bytes).length =
          o.written + bytes.length
        rw [List.length_append]
        omega
      · intro out member
        rcases List.mem_cons.mp member with rfl | old
        · rw [List.length_append]
          exact file
        · exact accounted.each out (List.mem_cons_of_mem _ old)
      · -- the sum does not saturate
        have far : maxAlloc * (spent + 1) ≤ maxAlloc * maxSteps :=
          Nat.mul_le_mul_left _ room
        have wide : maxAlloc * maxSteps < usizeMax := by decide
        rwa [saturatingAdd, Nat.min_eq_left (by omega)] at total
  | finished =>
      refine ⟨?_, ?_, more.total, more.spent⟩
      · have sum := accounted.sum
        rw [List.map_append, List.sum_append, List.map_singleton,
          List.sum_singleton]
        exact sum
      · intro out member
        rcases List.mem_cons.mp member with rfl | old
        · exact Nat.zero_le _
        · apply accounted.each out
          rcases List.mem_append.mp old with done | last
          · exact List.mem_cons_of_mem _ done
          · rw [List.mem_singleton.mp last]
            exact List.mem_cons_self

/-- The instructions a run has executed are no more than its steps. -/
def spent (m : Machine) : Nat :=
  min m.steps maxSteps

theorem Proceeds.accounted {c c' : Config} (proceeds : Proceeds program c c')
    (accounted : Accounted program.ctx.writeLimits c.machine.output
      (spent c.machine)) :
    Accounted program.ctx.writeLimits c'.machine.output (spent c'.machine) := by
  have finished (a : Activation) (callers : List Activation) (v : Word)
      (m : Machine)
      (accounted : Accounted program.ctx.writeLimits m.output (spent m)) :
      Accounted program.ctx.writeLimits (finish a callers v m).machine.output
        (spent (finish a callers v m).machine) := by
    have settles := settles_finish a callers v m
    rw [settles.output, spent, settles.charged]
    exact accounted
  have instruction {m m' : Machine} (room : m.steps + 1 ≤ maxSteps)
      (spends : Spends program.ctx m.counted m')
      (accounted : Accounted program.ctx.writeLimits m.output (spent m)) :
      Accounted program.ctx.writeLimits m'.output (spent m') := by
    have small : maxSteps < 2 ^ 64 - 1 := by decide
    have steps : min (m.steps + 1) (2 ^ 64 - 1) ≤ m'.steps := spends.steps
    have before : spent m = m.steps := Nat.min_eq_left (by omega)
    have after : m.steps + 1 ≤ spent m' := Nat.le_min.mpr ⟨by omega, room⟩
    rw [before] at accounted
    exact (spends.output.accounted accounted room).mono after
  have counted (m : Machine) (o : Output)
      (accounted : Accounted program.ctx.writeLimits o (spent m)) :
      Accounted program.ctx.writeLimits o (spent m.counted) := by
    apply accounted.mono
    change min m.steps maxSteps ≤ min (m.steps + 1) maxSteps
    omega
  cases proceeds with
  | idle m => exact accounted
  | fell m callers done => exact finished _ _ _ _ accounted
  | capped m a callers past => exact finished _ _ _ _ (counted _ _ accounted)
  | halted m a callers room => exact finished _ _ _ _ (counted _ _ accounted)
  | worked a b callers more room spends short =>
      exact instruction room spends accounted
  | ended a callers v room spends charged =>
      exact finished _ _ _ _ (instruction room spends accounted)

theorem accounted_start :
    Accounted program.ctx.writeLimits (start program entry).machine.output
      (spent (start program entry).machine) := by
  have entered := settles_enter program entry 0 [] (initial program)
  have empty : (start program entry).machine.output =
      (initial program).output := entered.output
  rw [empty]
  refine ⟨rfl, ?_, Nat.zero_le _, Nat.zero_le _⟩
  intro bytes member
  rw [List.mem_singleton.mp member]
  exact Nat.zero_le _

theorem reachable_accounted (reached : Reachable program entry c) :
    Accounted program.ctx.writeLimits c.machine.output (spent c.machine) := by
  induction reached with
  | start => exact accounted_start
  | next _ accounted => exact (next_proceeds _).accounted accounted

/-! ## Past the steps -/

/-- The innermost call ends, and no instruction is executed. -/
def Closes (c c' : Config) : Prop :=
  ∃ a callers m, c.stack = a :: callers ∧ c' = finish a callers 0 m ∧
    (m = c.machine ∨ m = { c.machine.counted with unsupported := true })

/-- The entry has used up its block, past the steps and with nothing amiss. -/
def FallsOff (c : Config) : Prop :=
  ∃ a, c.stack = [a] ∧ a.insts = [] ∧ maxSteps < c.machine.steps ∧
    c.machine.unsupported = false

theorem next_past {c : Config} (past : maxSteps < c.machine.steps) :
    maxSteps < (next program c).machine.steps := by
  have small : maxSteps < 2 ^ 64 - 1 := by decide
  have steps := (@next_proceeds program c).onward.steps
  omega

theorem next_closes {c : Config} (past : maxSteps < c.machine.steps)
    (going : c.stack ≠ []) : Closes c (next program c) := by
  have proceeds := @next_proceeds program c
  generalize next program c = c' at proceeds
  cases proceeds with
  | idle m => exact absurd rfl going
  | @fell a m callers done => exact ⟨a, callers, m, rfl, rfl, .inl rfl⟩
  | capped m a callers past => exact ⟨a, callers, _, rfl, rfl, .inr rfl⟩
  | halted m a callers room =>
      exact absurd past (Nat.not_lt.mpr (Nat.le_of_succ_le room))
  | worked a b callers more room spends short =>
      exact absurd past (Nat.not_lt.mpr (Nat.le_of_succ_le room))
  | ended a callers v room spends charged =>
      exact absurd past (Nat.not_lt.mpr (Nat.le_of_succ_le room))

theorem next_kept {c : Config} (past : maxSteps < c.machine.steps) :
    (next program c).machine.panicked = c.machine.panicked := by
  by_cases going : c.stack = []
  · unfold next
    rw [going]
  · obtain ⟨a, callers, m, -, closed, same | flagged⟩ :=
      @next_closes program _ past going
    · rw [closed, (settles_finish _ _ _ _).kept, same]
    · rw [closed, (settles_finish _ _ _ _).kept, flagged]
      rfl

theorem reachable_unwound (reached : Reachable program entry c)
    (panicked : c.machine.panicked = true) : c.machine.unsupported = true := by
  induction reached with
  | start =>
      have entered := settles_enter program entry 0 [] (initial program)
      have same : (start program entry).machine.panicked = false := entered.kept
      rw [same] at panicked
      cases panicked
  | next _ ih => exact (next_proceeds _).onward.unwound ih panicked

theorem reachable_noted
    (stays : ∀ c, Reachable program entry c → ¬ FallsOff c)
    (reached : Reachable program entry c) (past : maxSteps < c.machine.steps)
    (excess : c.stack = []) : c.machine.unsupported = true := by
  induction reached with
  | start =>
      have entered := settles_enter program entry 0 [] (initial program)
      have none' : (start program entry).machine.steps = 0 := entered.charged
      rw [none'] at past
      exact absurd past (Nat.not_lt_zero _)
  | @next c reached ih =>
      have proceeds := @next_proceeds program c
      generalize next program c = c' at proceeds past excess
      cases proceeds with
      | idle m => exact ih past rfl
      | @fell a m callers done =>
          have settles := settles_finish a callers 0 m
          have alone : callers = [] := by
            rw [← List.length_eq_zero_iff, ← length_finish a callers 0 m, excess]
            rfl
          rw [settles.charged] at past
          subst alone
          by_cases noted : m.unsupported = true
          · exact settles.unsupported noted
          · exact absurd ⟨a, rfl, done, past, Bool.eq_false_iff.mpr noted⟩
              (stays _ reached)
      | capped m a callers past =>
          exact (settles_finish a callers 0 _).unsupported rfl
      | halted m a callers room =>
          rw [(settles_finish _ _ _ _).charged] at past
          exact absurd past (Nat.not_lt.mpr room)
      | worked a b callers more room spends short => cases excess
      | ended a callers v room spends charged =>
          rw [(settles_finish _ _ _ _).charged, charged] at past
          exact absurd past (Nat.not_lt.mpr room)

/-! ## Outcomes -/

theorem flush_cases (m : Machine) : (flush m).2 = m ∨ (flush m).2 = { m with
    extracted := m.extracted ++ [m.extractCur], extractCur := [] } := by
  change (if m.extractCur.isEmpty then m else _) = m ∨
    (if m.extractCur.isEmpty then m else _) = _
  split
  · exact .inl rfl
  · exact .inr rfl

/-- What is reported of a run that did not unwind. -/
theorem outcome_kept {m m' : Machine} (kept : m.panicked = false)
    (flushed : (flush m).2 = m') : outcome m =
      ⟨m'.detection, m'.steps, m'.unsupported,
        decide (maxSteps < m'.steps) || m'.gapped || m'.limited,
        m'.extracted, m'.stubbed⟩ := by
  have going : ¬ m.panicked = true := Bool.eq_false_iff.mp kept
  rw [outcome, if_neg going, ← flushed]
  rfl

theorem outcome_hitUnsupported {m : Machine} (kept : m.panicked = false) :
    (outcome m).hitUnsupported = m.unsupported := by
  rcases flush_cases m with same | done
  · rw [outcome_kept kept same]
  · rw [outcome_kept kept done]

theorem outcome_incomplete {m : Machine}
    (short : maxSteps < m.steps ∨ m.limited = true ∨ m.gapped = true) :
    (outcome m).incomplete = true := by
  cases kept : m.panicked with
  | true => rw [outcome, if_pos kept]
  | false =>
      have noted : (decide (maxSteps < m.steps) || m.gapped || m.limited) =
          true := by
        simp only [Bool.or_eq_true, decide_eq_true_eq]
        tauto
      rcases flush_cases m with same | done
      · rw [outcome_kept kept same]
        exact noted
      · rw [outcome_kept kept done]
        exact noted

theorem outcome_extracted {limits : WriteLimits} {m : Machine} {spent : Nat}
    (accounted : Accounted limits m.output spent) :
    (∀ bytes ∈ (outcome m).extracted, bytes.length ≤ limits.file) ∧
      ((outcome m).extracted.map List.length).sum ≤ limits.total := by
  have sum : (m.extracted.map List.length).sum + m.extractCur.length =
    m.written := accounted.sum
  have total : m.written ≤ limits.total := accounted.total
  have each : ∀ bytes ∈ m.extractCur :: m.extracted,
    bytes.length ≤ limits.file := accounted.each
  cases kept : m.panicked with
  | true =>
      rw [outcome, if_pos kept]
      exact ⟨fun _ none' => absurd none' List.not_mem_nil, Nat.zero_le _⟩
  | false =>
      rcases flush_cases m with same | done
      · rw [outcome_kept kept same]
        exact ⟨fun bytes member => each bytes (List.mem_cons_of_mem _ member),
          by dsimp only; omega⟩
      · rw [outcome_kept kept done]
        constructor
        · intro bytes member
          rcases List.mem_append.mp member with done | last
          · exact each bytes (List.mem_cons_of_mem _ done)
          · rw [List.mem_singleton.mp last]
            exact each _ List.mem_cons_self
        · dsimp only
          rw [List.map_append, List.sum_append, List.map_singleton,
            List.sum_singleton]
          omega

theorem writeOut_refused (ctx : Ctx) (fi : Nat) (args : List Operand)
    (m : Machine) (refused : (writeOut ctx fi args m).1 = -1) :
    (writeOut ctx fi args m).2.limited = true ∨
      (writeOut ctx fi args m).2.gapped = true := by
  unfold writeOut at refused ⊢
  rw [bind_then] at refused ⊢
  rw [bind_then] at refused ⊢
  rw [bind_then] at refused ⊢
  rw [get_then] at refused ⊢
  generalize (readRegion ctx _ _ _) = got at refused ⊢
  obtain ⟨bytes, m⟩ := got
  dsimp only at refused ⊢
  by_cases limited : ctx.writeLimits.file < m.extractCur.length + bytes.length ∨
      ctx.writeLimits.total < saturatingAdd m.written bytes.length
  · rw [if_pos limited]
    exact .inl rfl
  rw [if_neg limited] at refused ⊢
  by_cases large : maxAlloc < m.extractCur.length + bytes.length
  · rw [if_pos large]
    exact .inr rfl
  · rw [if_neg large] at refused
    have value : (ofNat bytes.length : Word) = -1 := refused
    have size : bytes.length ≤ 2 ^ 28 := by
      have alloc : maxAlloc = 2 ^ 28 := by decide
      omega
    have number := congrArg BitVec.toNat value
    rw [ofNat, BitVec.toNat_ofNat, Nat.mod_eq_of_lt (by omega)] at number
    have minus : (-1 : Word).toNat = 2 ^ 64 - 1 := by decide
    omega

/-! ## Budgets -/

/-- What a run keeps to. -/
structure Budgeted (program : Program) (entry : Nat) : Prop where
  ends : ∃ n, ((next program)^[n] (start program entry)).stack = []
  stops : ∀ c, Reachable program entry c → maxSteps < c.machine.steps →
    c.stack ≠ [] → Closes c (next program c)
  reported : ∀ c, Reachable program entry c → maxSteps < c.machine.steps →
    c.machine.panicked = false →
      (outcome (run program entry)).hitUnsupported = true ∧
        (outcome (run program entry)).incomplete = true
  held : ∀ c, Reachable program entry c → Held program.ctx c.machine
  given_back : ∀ c, Reachable program entry c → c.stack = [] →
    c.machine.held = (c.machine.heaps.map List.length).sum +
      (c.machine.gcache.map fun bytes => (bytes.map List.length).getD 0).sum
  each : ∀ bytes ∈ (outcome (run program entry)).extracted,
    bytes.length ≤ program.ctx.writeLimits.file
  total : ((outcome (run program entry)).extracted.map List.length).sum ≤
    program.ctx.writeLimits.total
  refused : ∀ fi args m, (writeOut program.ctx fi args m).1 = -1 →
    (writeOut program.ctx fi args m).2.limited = true ∨
      (writeOut program.ctx fi args m).2.gapped = true
  marked : ∀ c, Reachable program entry c →
    c.machine.limited = true ∨ c.machine.gapped = true →
      (outcome (run program entry)).incomplete = true

theorem budgeted_iff_stays (program : Program) (entry : Nat) :
    Budgeted program entry ↔
      ∀ c, Reachable program entry c → ¬ FallsOff c := by
  constructor
  · rintro budgeted ⟨m, stack⟩ reached ⟨a, alone, done, past, amiss⟩
    change stack = [a] at alone
    subst alone
    have kept : m.panicked = false := by
      apply Bool.eq_false_iff.mpr
      intro panicked
      rw [show m.unsupported = true from reachable_unwound reached panicked]
        at amiss
      cases amiss
    have last : next program ⟨m, [a]⟩ = ⟨(leave a m).2, []⟩ :=
      next_fell m [] done
    have ended : run program entry = (leave a m).2 := by
      rw [run, ← final_reachable (.next reached), last, Loop.final_over rfl]
    have hit := (budgeted.reported _ reached past kept).1
    rw [ended, outcome_hitUnsupported
      (show (leave a m).2.panicked = false from kept)] at hit
    rw [show m.unsupported = true from hit] at amiss
    cases amiss
  · intro stays
    have ended (c : Config) (reached : Reachable program entry c) :
        run program entry = ((loop program).final c).machine := by
      rw [run, final_reachable reached]
    have accounted := reachable_accounted (reachable_final program entry)
    refine ⟨?_, fun c _ past going => next_closes past going, ?_, ?_, ?_,
      (outcome_extracted accounted).1, (outcome_extracted accounted).2,
      writeOut_refused program.ctx, ?_⟩
    · obtain ⟨n, same⟩ := @Loop.final_iterate _ (loop program) (start program entry)
      refine ⟨n, ?_⟩
      change ((loop program).next^[n] (start program entry)).stack = []
      rw [← same]
      exact final_stack program _
    · intro c reached past kept
      have final : Reachable program entry ((loop program).final c) ∧
          maxSteps < ((loop program).final c).machine.steps ∧
          ((loop program).final c).machine.panicked = false := by
        apply Loop.final_keeps (fun c => Reachable program entry c ∧
          maxSteps < c.machine.steps ∧ c.machine.panicked = false)
        · rintro c - ⟨reached, past, kept⟩
          exact ⟨.next reached, next_past past, (next_kept past).trans kept⟩
        · exact ⟨reached, past, kept⟩
      obtain ⟨reached', past', kept'⟩ := final
      rw [ended c reached, outcome_hitUnsupported kept']
      exact ⟨reachable_noted stays reached' past' (final_stack program c),
        outcome_incomplete (.inl past')⟩
    · exact fun c reached => (reachable_sound reached).held
    · intro c reached excess
      have sound := reachable_sound reached
      have indices := sound.stacked.indices
      rw [excess] at indices
      have none' : c.machine.frames = [] := by
        rw [← List.length_eq_zero_iff,
          ← @List.length_range c.machine.frames.length, ← List.length_reverse,
          ← indices]
        rfl
      rw [sound.held.exact, Machine.taken, none']
      rfl
    · intro c reached marked
      rw [ended c reached]
      apply outcome_incomplete
      right
      apply Loop.final_keeps (fun c : Config => c.machine.limited = true ∨
        c.machine.gapped = true)
      · intro c _ marked
        have onward := (@next_proceeds program c).onward
        exact marked.imp onward.limited onward.gapped
      · exact marked

end

end Exav.Bytecode
