import Exav.Emu.Step
import Exav.Lib.Calls

/-!
# Whole runs

Whoever runs the processor reads and changes memory and has instructions
executed, and an instruction reads and changes memory.  In any order, and as the
answers decide, both see flat memory in which every instruction is decoded anew.
-/

namespace Exav.Emu

open Calls

inductive Access : Type → Type where
  | map (addr : UInt32) (len : Nat) : Access (Except MapError Unit)
  | readU8 (addr : UInt32) : Access (Except Fault UInt8)
  | writeU8 (addr : UInt32) (v : UInt8) : Access (Except Fault Unit)
  | readInto (addr : UInt32) (len : Nat) : Access (Except Fault Bytes)
  | writeBytes (addr : UInt32) (src : Bytes) : Access (Except Fault Unit)
  | snapshot (addr : UInt32) (len : Nat) : Access Bytes
  | baseline (addr : UInt32) (len : Nat) : Access Unit
  | isDirty (addr : UInt32) : Access Bool
  | watchDirty : Access Nat
  | readCode (addr : UInt32) (len : Nat) : Access Bytes
  | takeWriteSpread : Access Nat
  | isMapped (addr : UInt32) (len : Nat) : Access Bool
  | anyMapped (addr : UInt32) (len : Nat) : Access Bool
  | atCapacity : Access Bool

def Mem.access : (β : Type) → Access β → Mem → β × Mem
  | _, .map addr len, m => m.map addr len
  | _, .readU8 addr, m => m.readU8 addr
  | _, .writeU8 addr v, m => m.writeU8 addr v
  | _, .readInto addr len, m => m.readInto addr len
  | _, .writeBytes addr src, m => m.writeBytes addr src
  | _, .snapshot addr len, m => m.snapshot addr len
  | _, .baseline addr len, m => ((), m.baseline addr len)
  | _, .isDirty addr, m => (m.isDirty addr, m)
  | _, .watchDirty, m => (m.watchDirty, m)
  | _, .readCode addr len, m => m.readCode addr len
  | _, .takeWriteSpread, m => m.takeWriteSpread
  | _, .isMapped addr len, m => (m.isMapped addr len, m)
  | _, .anyMapped addr len, m => (m.anyMapped addr len, m)
  | _, .atCapacity, m => (m.atCapacity, m)

def Flat.access : (β : Type) → Access β → Flat → β × Flat
  | _, .map addr len, f => f.map addr len
  | _, .readU8 addr, f => (f.readU8 addr, f)
  | _, .writeU8 addr v, f => f.writeU8 addr v
  | _, .readInto addr len, f => (f.readBytes addr len, f)
  | _, .writeBytes addr src, f => f.writeBytes addr src
  | _, .snapshot addr len, f => (f.bytes addr len, f)
  | _, .baseline addr len, f => ((), (f.clearDirty addr len).setWatch addr len)
  | _, .isDirty addr, f => (f.dirty (pageOf addr), f)
  | _, .watchDirty, f => (f.watchedDirty.card, f)
  | _, .readCode addr len, f => (f.code addr len, f)
  | _, .takeWriteSpread, f => f.takeWriteSpread
  | _, .isMapped addr len, f => (everyPage f.mapped addr len, f)
  | _, .anyMapped addr len, f => (somePage f.mapped addr len, f)
  | _, .atCapacity, f => (f.atCapacity, f)

theorem access_refines {m : Mem} {β : Type} (sound : m.Sound) (op : Access β) :
    m.Refines (Mem.access β op m) (Flat.access β op m.flat) := by
  cases op with
  | map addr len => exact Mem.map_refines sound addr len
  | readU8 addr => exact Mem.readU8_refines sound addr
  | writeU8 addr v => exact Mem.writeU8_refines sound addr v
  | readInto addr len => exact Mem.readInto_refines sound addr len
  | writeBytes addr src => exact Mem.writeBytes_refines sound addr src
  | snapshot addr len => exact Mem.snapshot_refines sound addr len
  | baseline addr len => exact Mem.baseline_refines sound addr len
  | isDirty addr => exact ⟨Mem.isDirty_eq m addr, sound, rfl, .refl m⟩
  | watchDirty => exact ⟨sound.count, sound, rfl, .refl m⟩
  | readCode addr len => exact Mem.readCode_refines sound addr len
  | takeWriteSpread => exact Mem.takeWriteSpread_refines sound
  | isMapped addr len =>
      exact ⟨(answers sound).isMapped addr len, sound, rfl, .refl m⟩
  | anyMapped addr len =>
      exact ⟨(answers sound).anyMapped addr len, sound, rfl, .refl m⟩
  | atCapacity => exact ⟨Mem.atCapacity_eq m, sound, rfl, .refl m⟩

section Run

variable {Insn Regs Other : Type}

/-- What executing an instruction does, from the address of the next one and the
registers: it ends with its ticks or stops, at an address and with registers. -/
abbrev Exec (Insn Regs Other : Type) :=
  Insn → UInt32 → Regs → Prog Access (Except (Stop Other) Nat × UInt32 × Regs)

def Exec.onCpu (exec : Exec Insn Regs Other) (insn : Insn) (cpu : Cpu Insn Regs)
    (m : Mem) : Except (Stop Other) Nat × Cpu Insn Regs × Mem :=
  let out := (exec insn cpu.eip cpu.regs).run Mem.access m
  (out.1.1, ⟨out.1.2.1, cpu.cache, out.1.2.2⟩, out.2)

/-- What a run does: it accesses memory, or executes the instruction at an
address with some registers. -/
inductive Act (Regs Other : Type) : Type → Type 1 where
  | access {β : Type} (op : Access β) : Act Regs Other β
  | step (eip : UInt32) (regs : Regs) :
      Act Regs Other (Except (Stop Other) Nat × UInt32 × Regs)

variable (d : Decoder Insn) (exec : Exec Insn Regs Other)

def Act.onCpu : (β : Type) → Act Regs Other β → Cpu Insn Regs × Mem →
    β × Cpu Insn Regs × Mem
  | _, .access op, (cpu, m) =>
      ((Mem.access _ op m).1, cpu, (Mem.access _ op m).2)
  | _, .step eip regs, (cpu, m) =>
      let out := Emu.step d exec.onCpu ⟨eip, cpu.cache, regs⟩ m
      ((out.1, out.2.1.eip, out.2.1.regs), out.2)

/-- Every instruction is decoded from what memory holds. -/
def Act.onFlat : (β : Type) → Act Regs Other β → Flat → β × Flat
  | _, .access op, f => Flat.access _ op f
  | _, .step eip regs, f =>
      match f.fetch d eip with
      | .error stop => ((.error stop, eip, regs), f)
      | .ok insn =>
          (exec insn (eip + UInt32.ofNat (d.len insn)) regs).run Flat.access f

variable {d} {m : Mem}

theorem fetch_regs (cpu : Cpu Insn Regs) :
    (fetch d cpu m : Except (Stop Other) Insn × _ × _).2.1.regs = cpu.regs := by
  unfold fetch fetchMiss
  dsimp only
  repeat' split
  all_goals rfl

theorem exec_flat (sound : m.Sound) {α : Type} (prog : Prog Access α) :
    m.Refines (prog.run Mem.access m) (prog.run Flat.access m.flat) := by
  have simulates : Simulates Mem.access Flat.access
      fun after f => m.Evolves after ∧ after.Sound ∧ after.flat = f := by
    rintro β op after f ⟨evolves, kept, rfl⟩
    have done := access_refines kept op
    exact ⟨done.same, evolves.trans done.evolves, done.sound, done.flat⟩
  obtain ⟨same, evolves, kept, flat⟩ := simulates.run prog ⟨.refl m, sound, rfl⟩
  exact ⟨same, kept, flat, evolves⟩

def Follows (s : Cpu Insn Regs × Mem) (f : Flat) : Prop :=
  s.2.Sound ∧ s.2.flat = f ∧ Fresh d s.1 s.2

theorem act_flat (alone : d.Local) :
    Simulates (Act.onCpu d exec) (Act.onFlat d exec) (@Follows Insn Regs d) := by
  rintro β op ⟨cpu, m⟩ f ⟨sound, rfl, fresh⟩
  cases op with
  | access op =>
      have done := access_refines sound op
      exact ⟨done.same, done.sound, done.flat, fresh.evolves done.evolves⟩
  | step eip regs =>
      obtain ⟨done, fetched, fresh', at_eip⟩ :=
        @fetch_spec Insn Regs d ⟨eip, cpu.cache, regs⟩ m Other alone sound fresh
      have same_regs := @fetch_regs Insn Regs Other d m ⟨eip, cpu.cache, regs⟩
      simp only [Act.onCpu, Act.onFlat, Emu.step]
      rw [← fetched]
      generalize (fetch d ⟨eip, cpu.cache, regs⟩ m :
        Except (Stop Other) Insn × _ × _) = found at done fresh' at_eip same_regs ⊢
      obtain ⟨result, cpu', m'⟩ := found
      cases at_eip
      cases same_regs
      cases result with
      | error stop => exact ⟨rfl, done.sound, done.flat, fresh'⟩
      | ok insn =>
          have body := exec_flat done.sound
            (exec insn (cpu'.eip + UInt32.ofNat (d.len insn)) cpu'.regs)
          rw [done.flat] at body
          exact ⟨body.same, body.sound, body.flat, fresh'.evolves body.evolves⟩

/-- A run from new memory gives what it gives on flat memory, and leaves that. -/
theorem run_flat (alone : d.Local) (maxPages : Nat) (regs : Regs) {α : Type}
    (prog : Prog (Act Regs Other) α) :
    let paged := prog.run (Act.onCpu d exec)
      (⟨0, fun _ => none, regs⟩, .new maxPages)
    let flat := prog.run (Act.onFlat d exec) (.new maxPages)
    paged.1 = flat.1 ∧ Answers paged.2.2 flat.2 := by
  have started : Follows (d := d) (⟨0, fun _ => none, regs⟩, .new maxPages)
      (Flat.new maxPages) := by
    obtain ⟨sound, flat, fresh⟩ := @reached_spec _ _ _ _ _ Other _ _ _ alone .start
    exact ⟨sound, flat, fresh⟩
  obtain ⟨same, sound, flat, -⟩ := (act_flat exec alone).run prog started
  exact ⟨same, flat ▸ answers sound⟩

end Run

/-- An instruction is kept in the register. -/
def noteByte : Exec UInt8 UInt8 Unit := fun insn eip _ => .done (.ok 1, eip, insn)

/-- An instruction is executed, written over and executed again. -/
def patched : Prog (Act UInt8 Unit) (UInt8 × UInt8) :=
  .call (.access (.map 0x1000 1)) fun _ =>
    .call (.access (.writeU8 0x1000 0x90)) fun _ =>
      .call (.step 0x1000 0) fun (_, _, first) =>
        .call (.access (.writeU8 0x1000 0xC3)) fun _ =>
          .call (.step 0x1000 0) fun (_, _, second) => .done (first, second)

theorem run_patched :
    (patched.run (Act.onCpu oneByte noteByte)
      (⟨0, fun _ => none, 0⟩, .new 4)).1 = (0x90, 0xC3) :=
  (run_flat noteByte oneByte_local 4 0 patched).1.trans (by decide)

end Exav.Emu
