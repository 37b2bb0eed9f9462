import Exav.Emu.Operations

/-!
# The instruction executed is the one in memory

Decoded instructions are cached with the counter they were decoded under.  Both
pages of an instruction are marked as code, so that whatever is written to them
advances the counter, and an entry that still has the counter is the decode of
the bytes that memory holds.
-/

namespace Exav.Emu

/-- What decodes an instruction from some bytes, as if they were at an address. -/
structure Decoder (Insn : Type) where
  decode : Bytes → UInt32 → Option Insn
  len : Insn → Nat

def maxInsnLen : Nat := 15

structure Decoder.Local {Insn : Type} (d : Decoder Insn) : Prop where
  length : ∀ {bytes ip insn}, d.decode bytes ip = some insn →
    0 < d.len insn ∧ d.len insn ≤ maxInsnLen ∧ d.len insn ≤ bytes.length
  alone : ∀ {bytes other ip insn}, d.decode bytes ip = some insn →
    other.take (d.len insn) = bytes.take (d.len insn) →
    d.decode other ip = some insn

inductive Stop (Other : Type) where
  | fault (fault : Fault)
  | invalid (eip : UInt32)
  | other (stop : Other)

def maxInsn : Nat := 16

def cacheSlots : Nat := 2 ^ 14

/-- A processor as far as fetching goes: the registers are the rest of it. -/
structure Cpu (Insn Regs : Type) where
  eip : UInt32
  cache : Nat → Option (Nat × UInt32 × Insn)
  regs : Regs

section Step

variable {Insn Regs Other : Type}

def cacheSlot (eip : UInt32) : Nat := eip.toNat % cacheSlots

/-- Read and decode, mark the pages as code and keep the instruction. -/
def fetchMiss (d : Decoder Insn) (cpu : Cpu Insn Regs) (m : Mem) :
    Except (Stop Other) Insn × Cpu Insn Regs × Mem :=
  let buf := m.readCode cpu.eip maxInsn
  if buf.1.isEmpty then (.error (.fault ⟨cpu.eip, false⟩), cpu, buf.2)
  else
    match d.decode buf.1 cpu.eip with
    | none => (.error (.invalid cpu.eip), cpu, buf.2)
    | some insn =>
        let marked := (buf.2.markExecuted cpu.eip).markExecuted
          (cpu.eip + UInt32.ofNat (d.len insn - 1))
        let entry := (m.codeGen, cpu.eip, insn)
        (.ok insn, { cpu with
          cache := fun slot =>
            if slot = cacheSlot cpu.eip then some entry else cpu.cache slot },
          marked)

def fetch (d : Decoder Insn) (cpu : Cpu Insn Regs) (m : Mem) :
    Except (Stop Other) Insn × Cpu Insn Regs × Mem :=
  match cpu.cache (cacheSlot cpu.eip) with
  | some (gen, ip, insn) =>
      if gen = m.codeGen ∧ ip = cpu.eip then (.ok insn, cpu, m)
      else fetchMiss d cpu m
  | none => fetchMiss d cpu m

/-- Fetch, decode and execute one instruction, which leaves the next one to
follow unless it is a branch. -/
def step (d : Decoder Insn)
    (exec : Insn → Cpu Insn Regs → Mem →
      Except (Stop Other) Nat × Cpu Insn Regs × Mem)
    (cpu : Cpu Insn Regs) (m : Mem) :
    Except (Stop Other) Nat × Cpu Insn Regs × Mem :=
  match fetch d cpu m with
  | (.error stop, cpu, m) => (.error stop, cpu, m)
  | (.ok insn, cpu, m) =>
      exec insn { cpu with eip := cpu.eip + UInt32.ofNat (d.len insn) } m

/-- The decode of what memory holds. -/
def Flat.fetch (f : Flat) (d : Decoder Insn) (eip : UInt32) :
    Except (Stop Other) Insn :=
  let buf := f.code eip maxInsn
  if buf.isEmpty then .error (.fault ⟨eip, false⟩)
  else
    match d.decode buf eip with
    | none => .error (.invalid eip)
    | some insn => .ok insn

/-! ## What is fetched -/

namespace Flat

theorem getElem?_code {f : Flat} {addr : UInt32} {len i : Nat}
    (inside : i < (f.code addr len).length) :
    f.mapped (pageOf (addr + UInt32.ofNat i)) = true ∧
      (f.code addr len)[i]? = some (f.byte (addr + UInt32.ofNat i)) := by
  induction len generalizing addr i with
  | zero => exact absurd inside (Nat.not_lt_zero i)
  | succ len ih =>
      rw [code] at inside ⊢
      by_cases mapped : f.mapped (pageOf addr) = true
      · rw [if_pos mapped] at inside ⊢
        cases i with
        | zero =>
            have same : addr + UInt32.ofNat 0 = addr := UInt32.add_zero addr
            rw [same]
            exact ⟨mapped, rfl⟩
        | succ i =>
            rw [List.length_cons] at inside
            rw [add_one_add, List.getElem?_cons_succ]
            exact ih (by omega)
      · rw [if_neg mapped] at inside
        exact absurd inside (Nat.not_lt_zero i)

theorem le_length_code {f : Flat} {addr : UInt32} {n len : Nat}
    (mapped : ∀ i < n, f.mapped (pageOf (addr + UInt32.ofNat i)) = true)
    (upto : n ≤ len) : n ≤ (f.code addr len).length := by
  induction n generalizing addr len with
  | zero => exact Nat.zero_le _
  | succ n ih =>
      obtain ⟨len, rfl⟩ : ∃ left, len = left + 1 := ⟨len - 1, by omega⟩
      have here := mapped 0 (Nat.succ_pos n)
      have same : addr + UInt32.ofNat 0 = addr := UInt32.add_zero addr
      rw [same] at here
      rw [code, if_pos here, List.length_cons]
      apply Nat.succ_le_succ
      apply ih _ (by omega)
      intro i below
      rw [← add_one_add]
      exact mapped (i + 1) (by omega)

end Flat

theorem pageOf_insn (ip : UInt32) {i len : Nat} (inside : i < len)
    (short : len ≤ maxInsnLen) :
    pageOf (ip + UInt32.ofNat i) = pageOf ip ∨
      pageOf (ip + UInt32.ofNat i) = pageOf (ip + UInt32.ofNat (len - 1)) := by
  have bound := ip.toNat_lt
  rw [maxInsnLen] at short
  simp only [pageOf, pageSize, UInt32.toNat_add, UInt32.toNat_ofNat',
    Nat.add_mod_mod]
  omega

/-! ## What is cached -/

def Cached (d : Decoder Insn) (m : Mem) (ip : UInt32) (insn : Insn) : Prop :=
  ∃ bytes, d.decode bytes ip = some insn ∧ ∀ i < d.len insn,
    ∃ p, m.pageAt (pageOf (ip + UInt32.ofNat i)) = some p ∧
      p.executed = true ∧
      p.bytes[offsetOf (ip + UInt32.ofNat i)]? = bytes[i]?

/-- An entry that has the counter is the decode of bytes that are still there. -/
def Fresh (d : Decoder Insn) (cpu : Cpu Insn Regs) (m : Mem) : Prop :=
  ∀ slot gen ip insn, cpu.cache slot = some (gen, ip, insn) →
    gen ≤ m.codeGen ∧ (gen = m.codeGen → Cached d m ip insn)

variable {d : Decoder Insn} {cpu : Cpu Insn Regs} {m after : Mem}

theorem Cached.evolves {ip : UInt32} {insn : Insn} (cached : Cached d m ip insn)
    (evolves : m.Evolves after) (still : after.codeGen = m.codeGen) :
    Cached d after ip insn := by
  obtain ⟨bytes, decoded, stored⟩ := cached
  refine ⟨bytes, decoded, fun i inside => ?_⟩
  obtain ⟨p, page, executed, byte⟩ := stored i inside
  obtain ⟨p', page', executed', kept⟩ := evolves.code page executed
  exact ⟨p', page', executed', by rw [kept still, byte]⟩

theorem Fresh.evolves (fresh : Fresh d cpu m) (evolves : m.Evolves after) :
    Fresh d cpu after := by
  intro slot gen ip insn entry
  obtain ⟨past, cached⟩ := fresh slot gen ip insn entry
  have later := evolves.later
  refine ⟨by omega, fun same => ?_⟩
  exact (cached (by omega)).evolves evolves (by omega)

theorem Cached.fetch (Other : Type) (alone : d.Local) {ip : UInt32} {insn : Insn}
    (cached : Cached d m ip insn) :
    (m.flat.fetch d ip : Except (Stop Other) Insn) = .ok insn := by
  obtain ⟨bytes, decoded, stored⟩ := cached
  obtain ⟨some, short, whole⟩ := alone.length decoded
  have mapped : ∀ i < d.len insn,
      m.flat.mapped (pageOf (ip + UInt32.ofNat i)) = true := by
    intro i inside
    obtain ⟨p, page, _⟩ := stored i inside
    change (m.pageAt _).isSome = true
    rw [page]
    rfl
  have enough : d.len insn ≤ (m.flat.code ip maxInsn).length :=
    Flat.le_length_code mapped (Nat.le_trans short (by decide))
  have same : (m.flat.code ip maxInsn).take (d.len insn) =
      bytes.take (d.len insn) := by
    apply List.ext_getElem?
    intro i
    by_cases inside : i < d.len insn
    · obtain ⟨p, page, _, byte⟩ := stored i inside
      rw [List.getElem?_take_of_lt inside, List.getElem?_take_of_lt inside,
        ← byte, Mem.byte_of_pageAt page]
      exact (Flat.getElem?_code (by omega)).2
    · rw [List.getElem?_take_eq_none (by omega),
        List.getElem?_take_eq_none (by omega)]
  have some_bytes : (m.flat.code ip maxInsn).isEmpty = false := by
    cases found : m.flat.code ip maxInsn with
    | nil =>
        rw [found, List.length_nil] at enough
        omega
    | cons b bytes => rfl
  rw [Flat.fetch]
  simp only [some_bytes, alone.alone decoded same]
  rfl

/-- A miss decodes what memory holds, and leaves an entry that is fresh. -/
theorem fetchMiss_spec (Other : Type) (alone : d.Local) (sound : m.Sound)
    (fresh : Fresh d cpu m) :
    m.Refines ((), (fetchMiss d cpu m :
        Except (Stop Other) Insn × Cpu Insn Regs × Mem).2.2) ((), m.flat) ∧
      (fetchMiss d cpu m).1 = (m.flat.fetch d cpu.eip : Except (Stop Other) Insn) ∧
      Fresh d (fetchMiss d cpu m :
        Except (Stop Other) Insn × Cpu Insn Regs × Mem).2.1
        (fetchMiss d cpu m : Except (Stop Other) Insn × Cpu Insn Regs × Mem).2.2 ∧
      (fetchMiss d cpu m :
        Except (Stop Other) Insn × Cpu Insn Regs × Mem).2.1.eip = cpu.eip := by
  have read := Mem.readCode_refines sound cpu.eip maxInsn
  rcases code : m.readCode cpu.eip maxInsn with ⟨buf, first⟩
  rw [code] at read
  have same : buf = m.flat.code cpu.eip maxInsn := read.same
  have flat : first.flat = m.flat := read.flat
  have sound' : first.Sound := read.sound
  have evolves : m.Evolves first := read.evolves
  rw [fetchMiss, Flat.fetch, code, ← same]
  cases empty : buf.isEmpty with
  | true => exact ⟨⟨rfl, sound', flat, evolves⟩, rfl, fresh.evolves evolves, rfl⟩
  | false =>
      cases decoded : d.decode buf cpu.eip with
      | none =>
          exact ⟨⟨rfl, sound', flat, evolves⟩, rfl, fresh.evolves evolves, rfl⟩
      | some insn =>
          obtain ⟨positive, short, whole⟩ := alone.length decoded
          obtain ⟨mark, gen, first_executed⟩ :=
            Mem.markExecuted_refines sound' cpu.eip
          obtain ⟨mark', gen', last_executed⟩ := Mem.markExecuted_refines
            mark.sound (cpu.eip + UInt32.ofNat (d.len insn - 1))
          have flat' : (first.markExecuted cpu.eip).flat = m.flat :=
            mark.flat.trans flat
          have flat'' := mark'.flat.trans flat'
          have onwards := (evolves.trans mark.evolves).trans mark'.evolves
          refine ⟨⟨rfl, mark'.sound, flat'', onwards⟩, rfl, ?_, rfl⟩
          have stored : ∀ i < d.len insn,
              m.flat.mapped (pageOf (cpu.eip + UInt32.ofNat i)) = true ∧
                buf[i]? = some (m.flat.byte (cpu.eip + UInt32.ofNat i)) := by
            intro i inside
            rw [same] at whole ⊢
            exact Flat.getElem?_code (Nat.lt_of_lt_of_le inside whole)
          have executed : ∀ i < d.len insn, ∃ p,
              ((first.markExecuted cpu.eip).markExecuted
                (cpu.eip + UInt32.ofNat (d.len insn - 1))).pageAt
                  (pageOf (cpu.eip + UInt32.ofNat i)) = some p ∧
                p.executed = true := by
            intro i inside
            have mapped := (stored i inside).1
            rcases pageOf_insn cpu.eip inside short with here | here
            · rw [here] at mapped ⊢
              obtain ⟨p, page, marked⟩ := first_executed (by rwa [flat])
              obtain ⟨p', page', marked', _⟩ := mark'.evolves.code page marked
              exact ⟨p', page', marked'⟩
            · rw [here] at mapped ⊢
              exact last_executed (by
                change (first.markExecuted cpu.eip).flat.mapped _ = true
                rwa [flat'])
          intro slot gen ip insn' entry
          change (if slot = cacheSlot cpu.eip then some (m.codeGen, cpu.eip, insn)
            else cpu.cache slot) = some (gen, ip, insn') at entry
          by_cases here : slot = cacheSlot cpu.eip
          · rw [if_pos here] at entry
            cases entry
            refine ⟨onwards.later, fun _ => ⟨buf, decoded, fun i inside => ?_⟩⟩
            obtain ⟨p, page, marked⟩ := executed i inside
            have byte := Mem.byte_of_pageAt page
            refine ⟨p, page, marked, ?_⟩
            rw [byte, (stored i inside).2]
            exact congrArg (fun f : Flat =>
              some (f.byte (cpu.eip + UInt32.ofNat i))) flat''
          · rw [if_neg here] at entry
            exact fresh.evolves onwards slot gen ip insn' entry

theorem fetch_spec (Other : Type) (alone : d.Local) (sound : m.Sound) (fresh : Fresh d cpu m) :
    m.Refines ((), (fetch d cpu m :
        Except (Stop Other) Insn × Cpu Insn Regs × Mem).2.2) ((), m.flat) ∧
      (fetch d cpu m).1 = (m.flat.fetch d cpu.eip : Except (Stop Other) Insn) ∧
      Fresh d (fetch d cpu m :
        Except (Stop Other) Insn × Cpu Insn Regs × Mem).2.1
        (fetch d cpu m : Except (Stop Other) Insn × Cpu Insn Regs × Mem).2.2 ∧
      (fetch d cpu m :
        Except (Stop Other) Insn × Cpu Insn Regs × Mem).2.1.eip = cpu.eip := by
  have miss := fetchMiss_spec Other alone sound fresh
  unfold fetch
  cases found : cpu.cache (cacheSlot cpu.eip) with
  | none => exact miss
  | some entry =>
      obtain ⟨gen, ip, insn⟩ := entry
      by_cases hit : gen = m.codeGen ∧ ip = cpu.eip
      · obtain ⟨_, cached⟩ := fresh _ gen ip insn found
        have same := (cached hit.1).fetch Other alone
        rw [hit.2] at same
        simp only [if_pos hit]
        exact ⟨.pure sound (), same.symm, fresh, trivial⟩
      · simp only [if_neg hit]
        exact miss

/-! ## Runs -/

/-- What is done to memory, by instructions, by calls and by the loader. -/
inductive Op where
  | map (addr : UInt32) (len : Nat)
  | readU8 (addr : UInt32)
  | writeU8 (addr : UInt32) (v : UInt8)
  | readInto (addr : UInt32) (len : Nat)
  | writeBytes (addr : UInt32) (src : Bytes)
  | readCode (addr : UInt32) (len : Nat)
  | snapshot (addr : UInt32) (len : Nat)
  | markExecuted (addr : UInt32)
  | baseline (addr : UInt32) (len : Nat)
  | takeWriteSpread

def Mem.act (m : Mem) : Op → Mem
  | .map addr len => (m.map addr len).2
  | .readU8 addr => (m.readU8 addr).2
  | .writeU8 addr v => (m.writeU8 addr v).2
  | .readInto addr len => (m.readInto addr len).2
  | .writeBytes addr src => (m.writeBytes addr src).2
  | .readCode addr len => (m.readCode addr len).2
  | .snapshot addr len => (m.snapshot addr len).2
  | .markExecuted addr => m.markExecuted addr
  | .baseline addr len => m.baseline addr len
  | .takeWriteSpread => m.takeWriteSpread.2

/-- Only what is mapped, written or cleared shows. -/
def Flat.act (f : Flat) : Op → Flat
  | .map addr len => (f.map addr len).2
  | .writeU8 addr v => (f.writeU8 addr v).2
  | .writeBytes addr src => (f.writeBytes addr src).2
  | .baseline addr len => (f.clearDirty addr len).setWatch addr len
  | .takeWriteSpread => f.takeWriteSpread.2
  | .readU8 _ | .readInto _ _ | .readCode _ _ | .snapshot _ _ | .markExecuted _ => f

def Flat.acts (f : Flat) (ops : List Op) : Flat := ops.foldl Flat.act f

theorem act_spec (sound : m.Sound) (op : Op) :
    m.Refines ((), m.act op) ((), m.flat.act op) := by
  cases op with
  | map addr len =>
      have done := Mem.map_refines sound addr len
      exact ⟨rfl, done.sound, done.flat, done.evolves⟩
  | readU8 addr =>
      have done := Mem.readU8_refines sound addr
      exact ⟨rfl, done.sound, done.flat, done.evolves⟩
  | writeU8 addr v =>
      have done := Mem.writeU8_refines sound addr v
      exact ⟨rfl, done.sound, done.flat, done.evolves⟩
  | readInto addr len =>
      have done := Mem.readInto_refines sound addr len
      exact ⟨rfl, done.sound, done.flat, done.evolves⟩
  | writeBytes addr src =>
      have done := Mem.writeBytes_refines sound addr src
      exact ⟨rfl, done.sound, done.flat, done.evolves⟩
  | readCode addr len =>
      have done := Mem.readCode_refines sound addr len
      exact ⟨rfl, done.sound, done.flat, done.evolves⟩
  | snapshot addr len =>
      have done := Mem.snapshot_refines sound addr len
      exact ⟨rfl, done.sound, done.flat, done.evolves⟩
  | markExecuted addr => exact (Mem.markExecuted_refines sound addr).1
  | baseline addr len => exact Mem.baseline_refines sound addr len
  | takeWriteSpread =>
      have done := Mem.takeWriteSpread_refines sound
      exact ⟨rfl, done.sound, done.flat, done.evolves⟩

/-- Memory and processor after some operations, with fetches and branches in any
order between them. -/
inductive Reached (d : Decoder Insn) (Other : Type) (maxPages : Nat) (regs : Regs) :
    Mem → Cpu Insn Regs → List Op → Prop where
  | start : Reached d Other maxPages regs (.new maxPages)
      ⟨0, fun _ => none, regs⟩ []
  | act {m : Mem} {cpu : Cpu Insn Regs} {ops : List Op} (op : Op)
      (before : Reached d Other maxPages regs m cpu ops) :
      Reached d Other maxPages regs (m.act op) cpu (ops ++ [op])
  | fetch {m : Mem} {cpu : Cpu Insn Regs} {ops : List Op}
      (before : Reached d Other maxPages regs m cpu ops) :
      Reached d Other maxPages regs
        (fetch d cpu m : Except (Stop Other) Insn × Cpu Insn Regs × Mem).2.2
        (fetch d cpu m : Except (Stop Other) Insn × Cpu Insn Regs × Mem).2.1 ops
  | jump {m : Mem} {cpu : Cpu Insn Regs} {ops : List Op} (eip : UInt32)
      (after : Regs) (before : Reached d Other maxPages regs m cpu ops) :
      Reached d Other maxPages regs m ⟨eip, cpu.cache, after⟩ ops

theorem reached_spec {Other : Type} {maxPages : Nat} {regs : Regs}
    {ops : List Op} (alone : d.Local)
    (reached : Reached d Other maxPages regs m cpu ops) :
    m.Sound ∧ m.flat = (Flat.new maxPages).acts ops ∧ Fresh d cpu m := by
  induction reached with
  | start =>
      obtain ⟨sound, flat⟩ := Mem.new_sound maxPages
      refine ⟨sound, flat, ?_⟩
      intro slot gen ip insn entry
      cases entry
  | @act m cpu ops op before ih =>
      obtain ⟨sound, flat, fresh⟩ := ih
      have done := act_spec sound op
      refine ⟨done.sound, ?_, fresh.evolves done.evolves⟩
      rw [Flat.acts, List.foldl_append]
      change (m.act op).flat = ((Flat.new maxPages).acts ops).act op
      rw [← flat]
      exact done.flat
  | fetch before ih =>
      obtain ⟨sound, flat, fresh⟩ := ih
      obtain ⟨done, _, fresh', _⟩ := fetch_spec Other alone sound fresh
      exact ⟨done.sound, done.flat.trans flat, fresh'⟩
  | jump eip after before ih => exact ih

/-- Memory that answers as flat memory: at once and byte by byte, through the
lookup cache or past it. -/
structure Answers (m : Mem) (f : Flat) : Prop where
  flat : m.flat = f
  lookup : ∀ page, (m.slot page).1 = m.index page
  readU8 : ∀ addr, (m.readU8 addr).1 = f.readU8 addr
  readInto : ∀ addr len, (m.readInto addr len).1 = f.readBytes addr len
  readEach : ∀ addr len, (m.readEach addr len).1 = f.readBytes addr len
  readCode : ∀ addr len, (m.readCode addr len).1 = f.code addr len
  snapshot : ∀ addr len, (m.snapshot addr len).1 = f.bytes addr len
  writeU8 : ∀ addr v, m.Refines (m.writeU8 addr v) (f.writeU8 addr v)
  writeBytes : ∀ addr src, m.Refines (m.writeBytes addr src) (f.writeBytes addr src)
  writeEach : ∀ addr src, m.Refines (m.writeEach addr src) (f.writeBytes addr src)
  map : ∀ addr len, m.Refines (m.map addr len) (f.map addr len)
  isDirty : ∀ addr, m.isDirty addr = f.dirty (pageOf addr)
  watchDirty : m.watchDirty = f.watchedDirty.card
  takeWriteSpread : m.Refines m.takeWriteSpread f.takeWriteSpread
  isMapped : ∀ addr len, m.isMapped addr len = everyPage f.mapped addr len
  anyMapped : ∀ addr len, m.anyMapped addr len = somePage f.mapped addr len
  atCapacity : m.atCapacity = f.atCapacity

theorem answers (sound : m.Sound) : Answers m m.flat where
  flat := rfl
  lookup page := by
    obtain ⟨after, looked, _⟩ := Mem.slot_spec sound.toIndexed page
    rw [looked]
  readU8 addr := (Mem.readU8_refines sound addr).same
  readInto addr len := (Mem.readInto_refines sound addr len).same
  readEach addr len := (Mem.readEach_refines sound addr len).same
  readCode addr len := (Mem.readCode_refines sound addr len).same
  snapshot addr len := (Mem.snapshot_refines sound addr len).same
  writeU8 := Mem.writeU8_refines sound
  writeBytes := Mem.writeBytes_refines sound
  writeEach := Mem.writeEach_refines sound
  map := Mem.map_refines sound
  isDirty := Mem.isDirty_eq m
  watchDirty := sound.count
  takeWriteSpread := Mem.takeWriteSpread_refines sound
  isMapped addr len := by
    rw [Mem.isMapped, Mem.index_isSome_eq sound.toIndexed]
  anyMapped addr len := by
    rw [Mem.anyMapped, Mem.index_isSome_eq sound.toIndexed]
  atCapacity := Mem.atCapacity_eq m

/-- In every run the instruction fetched is the decode of the bytes that memory
holds, and memory is what was mapped, written and cleared. -/
theorem fetch_reached {Other : Type} {maxPages : Nat} {regs : Regs}
    {ops : List Op} (alone : d.Local)
    (reached : Reached d Other maxPages regs m cpu ops) :
    (fetch d cpu m).1 = (((Flat.new maxPages).acts ops).fetch d cpu.eip :
        Except (Stop Other) Insn) ∧
      Answers m ((Flat.new maxPages).acts ops) := by
  obtain ⟨sound, flat, fresh⟩ := reached_spec alone reached
  rw [← flat]
  exact ⟨(fetch_spec Other alone sound fresh).2.1, answers sound⟩

end Step

def oneByte : Decoder UInt8 where
  decode bytes _ := bytes.head?
  len _ := 1

theorem oneByte_local : oneByte.Local where
  length {bytes ip insn} decoded := by
    cases bytes with
    | nil => cases decoded
    | cons b bytes =>
        exact ⟨Nat.one_pos, Nat.succ_le_succ (Nat.zero_le 14), Nat.succ_pos _⟩
  alone {bytes other ip insn} decoded same := by
    cases bytes with
    | nil => cases decoded
    | cons b bytes =>
        cases other with
        | nil => cases same
        | cons c other =>
            cases same
            exact decoded

def codePage : Mem :=
  ((Mem.new 4).act (.map 0x1000 1)).act (.writeU8 0x1000 0x90)

def codeCpu : Cpu UInt8 Unit := ⟨0x1000, fun _ => none, ()⟩

theorem reached_codePage :
    Reached oneByte Unit 4 () codePage codeCpu
      [.map 0x1000 1, .writeU8 0x1000 0x90] :=
  .jump 0x1000 () ((Reached.start.act (.map 0x1000 1)).act
    (.writeU8 0x1000 0x90))

def codeFetched : Except (Stop Unit) UInt8 × Cpu UInt8 Unit × Mem :=
  fetch oneByte codeCpu codePage

theorem reached_overwritten :
    Reached oneByte Unit 4 () (codeFetched.2.2.act (.writeU8 0x1000 0xC3))
      ⟨0x1000, codeFetched.2.1.cache, ()⟩
      ([.map 0x1000 1, .writeU8 0x1000 0x90] ++ [.writeU8 0x1000 0xC3]) := by
  have fetched := reached_codePage.fetch
  rw [← codeFetched] at fetched
  exact (fetched.act (.writeU8 0x1000 0xC3)).jump 0x1000 ()

def fetchedByte : Except (Stop Unit) UInt8 → Option UInt8
  | .ok b => some b
  | .error _ => none

/-- An instruction that was fetched and is then written over is not what is
fetched again. -/
theorem fetch_overwritten :
    fetchedByte codeFetched.1 = some 0x90 ∧
      fetchedByte (fetch oneByte ⟨0x1000, codeFetched.2.1.cache, ()⟩
        (codeFetched.2.2.act (.writeU8 0x1000 0xC3))).1 = some 0xC3 := by
  constructor
  · rw [codeFetched, (fetch_reached oneByte_local reached_codePage).1]
    decide
  · rw [(fetch_reached oneByte_local reached_overwritten).1]
    decide

end Exav.Emu
