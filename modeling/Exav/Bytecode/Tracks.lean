import Exav.Bytecode.Exec

/-!
# What an instruction does, by what it is made of

Everything an instruction does to the machine is made of a few changes: it stops
the run, writes bytes in place, allocates, renders a global, charges steps,
moves the cursor, notes something, or puts bytes out.  A relation that allows
these and composes is tracked by the whole instruction.
-/

namespace Exav.Bytecode

open Exav.Arrays

/-! ## Changes -/

/-- A relation that lets the run stop. -/
class Stops (R : Machine → Machine → Prop) : Prop
    extends IsPreorder Machine R where
  flag : ∀ m, R m (flag m).2
  gap : ∀ m, R m (gap m).2
  unwind : ∀ m, R m (unwind m).2

/-- A relation that lets the machine work, putting nothing out. -/
class Works (ctx : Ctx) (R : Machine → Machine → Prop) : Prop
    extends Stops R where
  putStack : ∀ {m : Machine} {frame : Nat} {fr : Frame} {stack : Bytes},
    m.frames[frame]? = some fr → stack.length = fr.stack.length →
    R m (m.putStack frame stack)
  putHeap : ∀ {m : Machine} {h : Nat} {old buf : Bytes},
    m.heaps[h]? = some old → buf.length = old.length → R m (m.putHeap h buf)
  render : ∀ {m : Machine} {g : Nat} {gv : Global}, m.gcache[g]? = some none →
    ctx.globals[g]? = some gv → m.held + gv.len ≤ ctx.writeLimits.memory →
    R m { m with
      held := m.held + gv.len
      gcache := m.gcache.set g (some gv.bytes) }
  push : ∀ {m : Machine} {size : Nat}, size ≤ maxMalloc →
    m.held + size ≤ ctx.writeLimits.memory →
    R m { m with
      held := m.held + size
      heaps := m.heaps ++ [List.replicate size 0] }
  charge : ∀ n m, R m (chargeBytes n m).2
  seek : ∀ m cursor, R m { m with cursor }
  detect : ∀ m detection, R m { m with detection }
  stub : ∀ name m, R m (noteStub name m).2

/-- A relation that lets the machine put bytes out too. -/
class Outputs (ctx : Ctx) (R : Machine → Machine → Prop) : Prop
    extends Works ctx R where
  refuse : ∀ m : Machine, R m { m with limited := true }
  append : ∀ (m : Machine) (bytes : Bytes), R m { m with
    extractCur := m.extractCur ++ bytes
    written := m.written + bytes.length }
  flush : ∀ m, R m (flush m).2

/-! ## Taking memory -/

theorem hold_eq (ctx : Ctx) (n : Nat) (m : Machine) :
    hold ctx n m =
      if m.held + n ≤ ctx.writeLimits.memory then
        (true, { m with held := m.held + n })
      else (false, m) := by
  change (if m.held + n ≤ ctx.writeLimits.memory then _ else _ : Run Bool) m = _
  split <;> rfl

/-- What takes memory goes on with it taken, or without. -/
theorem hold_then {α : Type} (ctx : Ctx) (n : Nat) (yes no : Run α)
    (m : Machine) :
    (do if ← hold ctx n then yes else no : Run α) m =
      if m.held + n ≤ ctx.writeLimits.memory then
        yes { m with held := m.held + n }
      else no m := by
  change (if (hold ctx n m).1 then yes else no) (hold ctx n m).2 = _
  rw [hold_eq]
  by_cases room : m.held + n ≤ ctx.writeLimits.memory
  · rw [if_pos room, if_pos room]
    rfl
  · rw [if_neg room, if_neg room]
    rfl

section

variable {R : Machine → Machine → Prop}

/-! ## Reading values -/

section

variable [Stops R]

theorem tracks_flag : Tracks R flag :=
  fun m => Stops.flag m

theorem tracks_gap : Tracks R gap :=
  fun m => Stops.gap m

theorem tracks_unwind : Tracks R unwind :=
  fun m => Stops.unwind m

theorem tracks_flagged {α : Type} (a : α) :
    Tracks R (do flag; pure a) :=
  .bind tracks_flag fun _ => .pure a

theorem tracks_gapped {α : Type} (a : α) :
    Tracks R (do gap; pure a) :=
  .bind tracks_gap fun _ => .pure a

variable (ctx : Ctx)

theorem tracks_pedata : Tracks R (pedata ctx) := by
  unfold pedata
  split
  · exact .pure _
  · exact .ite (tracks_gapped none) (.pure _)

theorem tracks_orFlag (v : Option Word) : Tracks R (orFlag v) := by
  cases v with
  | none => exact tracks_flagged 0
  | some v => exact .pure v

theorem tracks_rdMem (frame off w : Nat) :
    Tracks R (rdMem frame off w) := by
  apply Tracks.get
  intro m
  split
  · exact .ite (tracks_flagged 0) (.pure _)
  · exact tracks_flagged 0

theorem tracks_globalPtr (g : Nat) : Tracks R (globalPtr ctx g) := by
  unfold globalPtr
  split
  · exact tracks_flagged 0
  · split
    · refine .ite (.pure _) (.ite ?_ (.pure _))
      exact .bind tracks_unwind fun _ => .pure 0
    · exact tracks_flagged 0

theorem tracks_globalValue (g : Nat) :
    Tracks R (globalValue ctx g) := by
  unfold globalValue
  split
  · exact .ite (tracks_globalPtr ctx g) (.pure _)
  · exact tracks_flagged 0

theorem tracks_value (fi : Nat) (op : Operand) (w : Nat) :
    Tracks R (value ctx fi op w) := by
  cases op with
  | reg i =>
      apply Tracks.get
      intro m
      split
      · exact tracks_rdMem fi _ w
      · exact tracks_flagged 0
  | const c => exact .pure _
  | global g => exact tracks_globalValue ctx g

theorem tracks_valueNat (fi : Nat) (op : Operand) :
    Tracks R (valueNat ctx fi op) :=
  .get fun m => tracks_value ctx fi op (opWidth m fi op)

theorem tracks_ptr (fi : Nat) (op : Operand) :
    Tracks R (ptr ctx fi op) := by
  cases op with
  | reg i =>
      apply Tracks.get
      intro m
      split
      · exact tracks_flagged 0
      · exact .ite (.pure _) (tracks_rdMem fi _ 8)
  | const c => exact .pure _
  | global g => exact tracks_globalPtr ctx g

theorem tracks_argValue (fi : Nat) (op : Operand) :
    Tracks R (argValue ctx fi op) := by
  cases op with
  | reg i =>
      apply Tracks.get
      intro m
      exact .ite (tracks_ptr ctx fi _) (tracks_valueNat ctx fi _)
  | const c => exact tracks_valueNat ctx fi _
  | global g => exact tracks_ptr ctx fi _

end

/-! ## Memory -/

section

variable (ctx : Ctx) [Works ctx R]

include ctx

theorem tracks_chargeBytes (n : Nat) : Tracks R (chargeBytes n) :=
  fun m => Works.charge ctx n m

theorem tracks_wrMem (frame off w : Nat) (val : Word) :
    Tracks R (wrMem frame off w val) := by
  apply Tracks.look
  intro m
  cases here : m.frames[frame]? with
  | none => exact tracks_flag m
  | some fr =>
      dsimp only
      split
      · rename_i fits
        apply Works.putStack ctx here
        apply length_patch
        rw [length_toLe]
        exact fits.2
      · exact tracks_flag m

theorem tracks_wrHeap (h off w : Nat) (val : Word) :
    Tracks R (wrHeap h off w val) := by
  apply Tracks.look
  intro m
  cases here : m.heaps[h]? with
  | none => exact tracks_flag m
  | some buf =>
      dsimp only
      split
      · rename_i fits
        apply Works.putHeap ctx here
        apply length_patch
        rw [length_toLe]
        exact fits.2
      · exact tracks_flag m

theorem tracks_setValue (fi id : Nat) (v : Word) :
    Tracks R (setValue fi id v) := by
  apply Tracks.get
  intro m
  split
  · exact tracks_wrMem ctx fi _ _ v
  · exact tracks_flag

theorem tracks_globalBytes (g : Nat) :
    Tracks R (globalBytes ctx g) := by
  apply Tracks.look
  intro m
  rcases cached : m.gcache[g]? with _ | _ | bytes
  · exact Tracks.pure _ m
  · cases here : ctx.globals[g]? with
    | none => exact Tracks.pure _ m
    | some gv =>
        dsimp only
        rw [hold_then]
        split
        · rename_i room
          exact Works.render cached here room
        · exact tracks_gapped _ m
  · exact Tracks.pure _ m

theorem tracks_derefInt (p : Word) (w : Nat) :
    Tracks R (derefInt ctx p w) := by
  apply Tracks.get
  intro m
  refine .ite (tracks_orFlag _) ?_
  apply Tracks.ite
  · refine .bind (tracks_pedata ctx) fun pd => ?_
    cases pd with
    | none => exact .pure _
    | some pd => exact tracks_orFlag _
  refine .ite (.pure _) ?_
  refine .ite (.pure _) ?_
  apply Tracks.ite
  · exact .bind (tracks_globalBytes ctx _) fun _ => tracks_orFlag _
  refine .ite (tracks_orFlag _) ?_
  exact .ite (tracks_rdMem _ _ w) (tracks_flagged 0)

theorem tracks_storeInt (p : Word) (w : Nat) (val : Word) :
    Tracks R (storeInt p w val) :=
  .ite (tracks_wrHeap ctx _ _ w val)
    (.ite (tracks_wrMem ctx _ _ w val) tracks_flag)

theorem tracks_sliceRegion (p : Word) (len : Nat) :
    Tracks R (sliceRegion ctx p len) := by
  apply Tracks.get
  intro m
  apply Tracks.ite
  · refine .bind (tracks_pedata ctx) fun pd => ?_
    cases pd with
    | none => exact .pure _
    | some pd => exact .pure _
  refine .ite (.pure _) ?_
  refine .ite (.pure _) ?_
  refine .ite (.pure _) ?_
  apply Tracks.ite
  · exact .bind (tracks_globalBytes ctx _) fun _ => .pure _
  refine .ite (.pure _) ?_
  exact .ite (.pure _) (tracks_flagged [])

theorem tracks_readRegion (p : Word) (len : Nat) :
    Tracks R (readRegion ctx p len) :=
  .bind (tracks_chargeBytes ctx _) fun _ => tracks_sliceRegion ctx p len

theorem tracks_storeBytes (p : Word) (bytes : Bytes) :
    Tracks R (storeBytes p bytes) :=
  .forM (fun (_, _) => tracks_storeInt ctx _ 1 _) _

theorem tracks_putRegion (p : Word) (bytes : Bytes) :
    Tracks R (putRegion p bytes) := by
  apply Tracks.look
  intro m
  by_cases heap : rHeap ≤ ptrRegion p ∧ ptrRegion p < rGlobal
  · rw [if_pos heap]
    cases here : m.heaps[ptrRegion p - rHeap]? with
    | none => exact tracks_storeBytes ctx p bytes m
    | some buf =>
        dsimp only
        split
        · rename_i fits
          exact Works.putHeap ctx here (length_patch fits)
        · exact tracks_storeBytes ctx p bytes m
  · rw [if_neg heap]
    by_cases stack : rStack ≤ ptrRegion p ∧ ptrRegion p < rHeap
    · rw [if_pos stack]
      cases here : m.frames[ptrRegion p - rStack]? with
      | none => exact tracks_storeBytes ctx p bytes m
      | some fr =>
          dsimp only
          split
          · rename_i fits
            exact Works.putStack ctx here (length_patch fits)
          · exact tracks_storeBytes ctx p bytes m
    · rw [if_neg stack]
      exact tracks_storeBytes ctx p bytes m

theorem tracks_writeRegion (p : Word) (bytes : Bytes) :
    Tracks R (writeRegion p bytes) :=
  .bind (tracks_chargeBytes ctx _) fun _ => tracks_putRegion ctx p bytes

theorem tracks_readCString (p : Word) :
    Tracks R (readCString ctx p) := by
  apply Tracks.get
  intro m
  apply Tracks.ite
  · exact .bind (tracks_globalBytes ctx _) fun _ => .pure _
  refine .ite (.pure _) ?_
  exact .ite (.pure _) (.pure _)

theorem tracks_malloc (size : Word) :
    Tracks R (malloc ctx size) := by
  apply Tracks.look
  intro m
  split
  · exact Tracks.pure _ m
  · rename_i fits
    rw [hold_then]
    split
    · rename_i room
      exact Works.push (by omega) room
    · exact tracks_gapped _ m

/-! ## The host API -/

theorem tracks_noteStub (name : String) : Tracks R (noteStub name) :=
  fun m => Works.stub ctx name m

variable (fi : Nat) (args : List Operand)

theorem tracks_arg3 : Tracks R (arg3 ctx fi args) :=
  .bind (tracks_valueNat ctx fi _) fun _ =>
    .bind (tracks_valueNat ctx fi _) fun _ =>
      .bind (tracks_valueNat ctx fi _) fun _ => .pure _

theorem tracks_readNumber (radix : Nat) :
    Tracks R (readNumber ctx radix) := by
  apply Tracks.get
  intro m
  split
  refine .ite (.pure _) ?_
  exact .bind (fun m => Works.seek ctx m _) fun _ => .pure _

theorem tracks_setVirusName : Tracks R (setVirusName ctx fi args) := by
  have named : ∀ name : Option String, Tracks R (do
      modify fun m => { m with
        detection := some ((name.filter (· ≠ "")).getD ctx.defaultName) }
      pure (0 : Word)) := by
    intro name
    exact .bind (fun m => Works.detect ctx m _) fun _ => .pure _
  unfold setVirusName
  dsimp only
  split
  · refine .bind (tracks_ptr ctx fi _) fun p => ?_
    exact .bind (tracks_readCString ctx p) named
  · exact .bind (.pure none) named

theorem tracks_readFile : Tracks R (readFile ctx fi args) := by
  refine .bind (tracks_valueNat ctx fi _) fun size => ?_
  apply Tracks.get
  intro m
  dsimp only
  have after : Tracks R (do
      modify fun m' => { m' with cursor := m'.cursor +
        (window ctx.file m.cursor (count size)).length }
      pure (ofNat (window ctx.file m.cursor (count size)).length)) := by
    exact .bind (fun m => Works.seek ctx m _) fun _ => .pure _
  split
  · refine .bind (tracks_ptr ctx fi _) fun p => ?_
    exact .bind (tracks_writeRegion ctx p _) fun _ => after
  · exact after

theorem tracks_seekFile : Tracks R (seekFile ctx fi args) := by
  refine .bind (tracks_valueNat ctx fi _) fun off => ?_
  refine .bind (tracks_valueNat ctx fi _) fun whence => ?_
  apply Tracks.get
  intro m
  refine .ite ?_ (.pure _)
  exact .bind (fun m => Works.seek ctx m _) fun _ => .pure _

theorem tracks_fileByteAt : Tracks R (fileByteAt ctx fi args) :=
  .bind (tracks_valueNat ctx fi _) fun _ => .ite (.pure _) (.pure _)

theorem tracks_fileFind (limited : Bool) :
    Tracks R (fileFind ctx fi limited args) := by
  refine .bind (tracks_valueNat ctx fi _) fun len => ?_
  have search : ∀ limit, Tracks R (
      if count len = 0 ∨ 1024 < count len then pure (-1)
      else do
        let p ← ptr ctx fi (arg args 0)
        let pat ← readRegion ctx p (count len)
        if pat.length ≠ count len then pure (-1)
        else do
          let m ← get
          pure (position
            (find ctx.file pat m.cursor (min limit ctx.file.length)))) := by
    intro limit
    refine .ite (.pure _) ?_
    refine .bind (tracks_ptr ctx fi _) fun p => ?_
    refine .bind (tracks_readRegion ctx p _) fun pat => ?_
    exact .ite (.pure _) (.get fun _ => .pure _)
  dsimp only
  apply Tracks.ite
  · exact .bind (tracks_valueNat ctx fi _) fun _ => .bind (.pure _) search
  · exact .bind (.pure _) search

theorem tracks_getPeSection :
    Tracks R (getPeSection ctx fi args) := by
  refine .bind (tracks_valueNat ctx fi _) fun num => ?_
  split
  · exact .pure _
  · split
    · exact .pure _
    · refine .bind (tracks_ptr ctx fi _) fun p => ?_
      exact .bind (tracks_writeRegion ctx p _) fun _ => .pure _

theorem tracks_disasmX86 : Tracks R (disasmX86 ctx fi args) := by
  apply Tracks.get
  intro m
  split
  · refine .bind (tracks_ptr ctx fi _) fun p => ?_
    exact .bind (tracks_writeRegion ctx p _) fun _ => .pure _
  · exact tracks_flagged _

theorem tracks_memstr : Tracks R (memstr ctx fi args) := by
  refine .bind (tracks_ptr ctx fi _) fun hp => ?_
  refine .bind (tracks_valueNat ctx fi _) fun hlen => ?_
  refine .bind (tracks_ptr ctx fi _) fun np => ?_
  refine .bind (tracks_valueNat ctx fi _) fun nlen => ?_
  refine .ite (.pure _) ?_
  refine .bind (tracks_readRegion ctx hp _) fun hay => ?_
  exact .bind (tracks_readRegion ctx np _) fun _ => .pure _

theorem tracks_getEnvironment :
    Tracks R (getEnvironment ctx fi args) := by
  refine .bind (tracks_valueNat ctx fi _) fun len => ?_
  refine .bind (tracks_ptr ctx fi _) fun p => ?_
  exact .bind (tracks_writeRegion ctx p _) fun _ => .pure _

theorem tracks_scaled (f : Word → Word → Word → Word) :
    Tracks R (scaled ctx fi args f) :=
  .bind (tracks_arg3 ctx fi args) fun (_, _, _) => .pure _

theorem tracks_ofArg {α : Type} (op : Operand) (f : Word → α) :
    Tracks R (do
      let v ← valueNat ctx fi op
      pure (f v)) :=
  .bind (tracks_valueNat ctx fi op) fun _ => .pure _

theorem tracks_callApi_silent {api : Api} (no_write : api ≠ .write)
    (no_new : api ≠ .extractNew) : Tracks R (callApi ctx fi api args) := by
  cases api with
  | setVirusName => exact tracks_setVirusName ctx fi args
  | read => exact tracks_readFile ctx fi args
  | seek => exact tracks_seekFile ctx fi args
  | fileByteAt => exact tracks_fileByteAt ctx fi args
  | fileFind => exact tracks_fileFind ctx fi args false
  | fileFindLimit => exact tracks_fileFind ctx fi args true
  | readNumber =>
      refine .bind (tracks_valueNat ctx fi _) fun radix => ?_
      exact .ite (.pure _) (tracks_readNumber ctx _)
  | getPeSection => exact tracks_getPeSection ctx fi args
  | peRawaddr => exact tracks_ofArg ctx fi _ _
  | disasmX86 => exact tracks_disasmX86 ctx fi args
  | malloc =>
      exact .bind (tracks_valueNat ctx fi _) fun size => tracks_malloc ctx size
  | write => exact absurd rfl no_write
  | extractNew => exact absurd rfl no_new
  | memstr => exact tracks_memstr ctx fi args
  | getEnvironment => exact tracks_getEnvironment ctx fi args
  | pdfLookupObj => exact tracks_ofArg ctx fi _ _
  | pdfGetObjSize => exact tracks_ofArg ctx fi _ _
  | pdfGetOffset => exact tracks_ofArg ctx fi _ _
  | pdfGetObjId => exact tracks_ofArg ctx fi _ _
  | isin => exact tracks_scaled ctx fi args _
  | icos => exact tracks_scaled ctx fi args _
  | iexp => exact tracks_scaled ctx fi args _
  | ipow => exact .bind (tracks_arg3 ctx fi args) fun (_, _, _) => .pure _
  | ilog2 =>
      exact .bind (tracks_valueNat ctx fi _) fun a => tracks_ofArg ctx fi _ _
  | atoi =>
      refine .bind (tracks_ptr ctx fi _) fun p => ?_
      refine .bind (tracks_valueNat ctx fi _) fun len => ?_
      exact .bind (tracks_readRegion ctx p _) fun _ => .pure _
  | hex2ui =>
      refine .bind (tracks_valueNat ctx fi _) fun h => ?_
      refine .bind (tracks_valueNat ctx fi _) fun l => ?_
      split
      · exact .pure _
      · exact .pure _
  | versionCompare =>
      refine .bind (tracks_ptr ctx fi _) fun lp => ?_
      refine .bind (tracks_valueNat ctx fi _) fun ll => ?_
      refine .bind (tracks_ptr ctx fi _) fun rp => ?_
      refine .bind (tracks_valueNat ctx fi _) fun rl => ?_
      refine .bind (tracks_readRegion ctx lp _) fun l => ?_
      exact .bind (tracks_readRegion ctx rp _) fun _ => .pure _
  | entropyBuffer =>
      refine .bind (tracks_ptr ctx fi _) fun p => ?_
      refine .bind (tracks_valueNat ctx fi _) fun len => ?_
      refine .ite (.pure _) ?_
      exact .bind (tracks_readRegion ctx p _) fun _ => .pure _
  | unsupported => exact tracks_gapped 0
  | engineFunctionalityLevel | engineDconfLevel | matchIcon | pdfGetPhase
  | pdfGetFlags | fillBuffer | debug | stubZero | stubNeg | stubNull =>
      exact .pure _

/-! ## Instructions -/

theorem tracks_setting {run : Run Word} (f : Word → Word) (id : Nat)
    (computed : Tracks R run) :
    Tracks R (do
      let v ← run
      setValue fi id (f v)
      pure Flow.next) :=
  .bind computed fun _ => .bind (tracks_setValue ctx fi id _) fun _ => .pure _

theorem tracks_gep (opcode first : Nat) (base idx : Operand) :
    Tracks R (gep ctx fi opcode first base idx) := by
  refine .bind (tracks_ptr ctx fi base) fun p => ?_
  refine .bind (tracks_valueNat ctx fi idx) fun index => ?_
  refine .ite (.pure _) ?_
  refine .ite (.pure _) ?_
  split
  · exact .ite (.pure _) (.pure _)
  · exact tracks_flagged _

theorem tracks_gepn (first : Nat) (base : Operand) (idxs : List Operand) :
    Tracks R (gepn ctx fi first base idxs) := by
  refine .bind (tracks_ptr ctx fi base) fun p => ?_
  apply Tracks.bind
  · exact .mapM (tracks_valueNat ctx fi) idxs
  · exact fun _ => .pure _

variable (inst : Inst) (x y z : Operand)

theorem tracks_stepArith : Tracks R (stepArith ctx fi inst x y) := by
  refine .bind (tracks_valueNat ctx fi x) fun a => ?_
  refine .bind (tracks_valueNat ctx fi y) fun b => ?_
  exact .ite tracks_flag (tracks_setValue ctx fi _ _)

theorem tracks_stepIcmp : Tracks R (stepIcmp ctx fi inst x y) := by
  refine .bind (tracks_valueNat ctx fi x) fun a => ?_
  refine .bind (tracks_valueNat ctx fi y) fun b => ?_
  exact tracks_setValue ctx fi _ _

theorem tracks_stepLoad : Tracks R (stepLoad ctx fi inst x) := by
  refine .bind (tracks_ptr ctx fi x) fun p => ?_
  refine .bind (tracks_derefInt ctx p _) fun v => ?_
  exact tracks_setValue ctx fi inst.dest v

theorem tracks_stepStore : Tracks R (stepStore ctx fi inst x y) := by
  refine .bind (tracks_value ctx fi x _) fun v => ?_
  refine .bind (tracks_ptr ctx fi y) fun p => ?_
  exact tracks_storeInt ctx p _ v

theorem tracks_stepMemcpy : Tracks R (stepMemcpy ctx fi x y z) := by
  refine .bind (tracks_valueNat ctx fi z) fun n => ?_
  refine .bind (tracks_ptr ctx fi x) fun dst => ?_
  refine .bind (tracks_ptr ctx fi y) fun src => ?_
  refine .bind (tracks_readRegion ctx src _) fun bytes => ?_
  exact tracks_writeRegion ctx dst bytes

theorem tracks_stepMemset : Tracks R (stepMemset ctx fi x y z) := by
  refine .bind (tracks_valueNat ctx fi z) fun n => ?_
  refine .bind (tracks_valueNat ctx fi y) fun val => ?_
  refine .bind (tracks_ptr ctx fi x) fun dst => ?_
  exact tracks_writeRegion ctx dst _

theorem tracks_stepMemcmp :
    Tracks R (stepMemcmp ctx fi inst x y z) := by
  refine .bind (tracks_valueNat ctx fi z) fun n => ?_
  refine .bind (tracks_ptr ctx fi x) fun p1 => ?_
  refine .bind (tracks_ptr ctx fi y) fun p2 => ?_
  refine .bind (tracks_readRegion ctx p1 _) fun a => ?_
  refine .bind (tracks_readRegion ctx p2 _) fun b => ?_
  exact tracks_setValue ctx fi inst.dest _

theorem tracks_thenNext {run : Run Unit} (tracks : Tracks R run) :
    Tracks R (do run; pure Flow.next) :=
  .bind tracks fun _ => .pure _

theorem tracks_stepOps (ops : List Operand) :
    Tracks R (stepOps ctx fi inst ops) := by
  unfold stepOps
  dsimp only
  refine .ite (tracks_thenNext ctx (tracks_stepArith ctx fi inst _ _)) ?_
  refine .ite (tracks_thenNext ctx (tracks_stepIcmp ctx fi inst _ _)) ?_
  split
  · exact tracks_setting ctx fi (mask · _) _ (tracks_valueNat ctx fi _)
  · exact tracks_setting ctx fi (mask · _) _ (tracks_valueNat ctx fi _)
  · apply Tracks.get
    intro m
    exact tracks_setting ctx fi
      (fun v => mask (sext v (opWidth m fi (arg ops 0) * 8)) inst.ty) _
      (tracks_valueNat ctx fi _)
  · refine .bind (tracks_valueNat ctx fi _) fun c => ?_
    exact .ite (tracks_setting ctx fi id _ (tracks_valueNat ctx fi _))
      (tracks_setting ctx fi id _ (tracks_valueNat ctx fi _))
  · refine .bind (tracks_value ctx fi _ _) fun v => ?_
    split
    · exact tracks_thenNext ctx (tracks_setValue ctx fi _ v)
    · exact .pure _
  · exact tracks_thenNext ctx (tracks_stepLoad ctx fi inst _)
  · exact tracks_thenNext ctx (tracks_stepStore ctx fi inst _ _)
  · exact tracks_thenNext ctx (tracks_stepMemcpy ctx fi _ _ _)
  · exact tracks_thenNext ctx (tracks_stepMemcpy ctx fi _ _ _)
  · exact tracks_thenNext ctx (tracks_stepMemset ctx fi _ _ _)
  · exact tracks_thenNext ctx (tracks_stepMemcmp ctx fi inst _ _ _)
  · exact tracks_thenNext ctx (tracks_setValue ctx fi _ 0)
  · exact tracks_setting ctx fi (bswap 2) _ (tracks_valueNat ctx fi _)
  · exact tracks_setting ctx fi (bswap 4) _ (tracks_valueNat ctx fi _)
  · exact tracks_setting ctx fi (bswap 8) _ (tracks_valueNat ctx fi _)
  · exact tracks_setting ctx fi id _ (tracks_ptr ctx fi _)
  · refine .bind (tracks_ptr ctx fi _) fun p1 => ?_
    refine .bind (tracks_ptr ctx fi _) fun p2 => ?_
    exact .ite (tracks_setting ctx fi id _ (.pure _))
      (.bind tracks_flag fun _ =>
        tracks_setting ctx fi id _ (.pure _))
  · exact tracks_flagged _
  · exact tracks_gapped _

theorem tracks_stepApi_of {func : Nat}
    (called : Tracks R (callApi ctx fi (apiFor ctx func) args)) :
    Tracks R (stepApi ctx fi inst func args) := by
  have valued : Tracks R (do
      let r ← callApi ctx fi (apiFor ctx func) args
      if inst.ty ≠ 0 then setValue fi inst.dest r else pure ()) := by
    refine .bind called fun r => ?_
    exact .ite (tracks_setValue ctx fi _ r) (.pure _)
  unfold stepApi
  dsimp only
  exact .ite (.bind (tracks_noteStub ctx _) fun _ => valued) valued

theorem tracks_step_of
    (called : ∀ func args, inst.body = .call true func args →
      Tracks R (stepApi ctx fi inst func args)) :
    Tracks R (step ctx fi inst) := by
  unfold step
  split
  · exact .pure _
  · exact .bind (tracks_valueNat ctx fi _) fun _ => .pure _
  · exact .pure _
  · exact .bind (tracks_argValue ctx fi _) fun _ => .pure _
  · exact tracks_thenNext ctx (called _ _ ‹_›)
  · exact .bind (.mapM (tracks_argValue ctx fi) _) fun _ => .pure _
  · split
    · exact .bind tracks_flag fun _ =>
        tracks_setting ctx fi id _ (.pure _)
    · exact tracks_setting ctx fi id _ (tracks_gep ctx fi _ _ _ _)
    · exact tracks_setting ctx fi id _ (tracks_gepn ctx fi _ _ _)
  · exact tracks_stepOps ctx fi inst _

end

/-! ## Putting bytes out -/

section

variable (ctx : Ctx) [Outputs ctx R]

include ctx

theorem tracks_flush : Tracks R flush :=
  fun m => Outputs.flush ctx m

variable (fi : Nat) (args : List Operand) (inst : Inst)

theorem tracks_writeOut : Tracks R (writeOut ctx fi args) := by
  refine .bind (tracks_valueNat ctx fi _) fun len => ?_
  refine .bind (tracks_ptr ctx fi _) fun p => ?_
  refine .bind (tracks_readRegion ctx p _) fun bytes => ?_
  apply Tracks.get
  intro m
  apply Tracks.ite
  · exact .bind (fun m => Outputs.refuse ctx m) fun _ => .pure _
  refine .ite (tracks_gapped _) ?_
  exact .bind (fun m => Outputs.append ctx m bytes) fun _ => .pure _

theorem tracks_callApi (api : Api) :
    Tracks R (callApi ctx fi api args) := by
  by_cases writes : api = .write
  · subst writes
    exact tracks_writeOut ctx fi args
  · by_cases news : api = .extractNew
    · subst news
      exact .bind (tracks_flush ctx) fun _ => .pure _
    · exact tracks_callApi_silent ctx fi args writes news

/-- An instruction of a call moves the machine on. -/
theorem tracks_step : Tracks R (step ctx fi inst) :=
  tracks_step_of ctx fi inst fun _ args _ =>
    tracks_stepApi_of ctx fi args inst (tracks_callApi ctx fi args _)

end

end

end Exav.Bytecode
