import Exav.Lib.Fields
import Exav.Lib.Track
import Exav.Text
import Exav.Bytecode.Program

/-!
# The machine

A pointer is a region in the high half of a word and an offset in the low half.
Regions are the frames of the calls in progress, the allocations, the globals
and a few predefined ones.  Every access is checked against its region: one
outside it ends the run, and so does a bound of the machine itself, which
leaves the run incomplete.
-/

namespace Exav.Bytecode

open Exav.Arrays

/-! ## Bounds and regions -/

def maxSteps : Nat := 1000000000
def maxBytes : Nat := 16 * 2 ^ 20
def maxDepth : Nat := 64
/-- Cap on one extraction buffer. -/
def maxAlloc : Nat := 256 * 2 ^ 20
/-- The largest `malloc` granted. -/
def maxMalloc : Nat := 128 * 2 ^ 20 - 9
def bytesPerStep : Nat := 16
def pedataLen : Nat := 648

def globalPedata : Nat := 0x8003
def globalFilesize : Nat := 0x8004
def globalMatchOffsets : Nat := 0x8005

def rFilesize : Nat := 1
def rPedata : Nat := 2
/-- The predefined globals that read as zeros. -/
def rZero : Nat := 3
def rMatchoff : Nat := 4
/-- Region `rStack + f` is frame `f`. -/
def rStack : Nat := 0x1000
/-- Region `rHeap + i` is allocation `i`. -/
def rHeap : Nat := 0x8000
/-- Region `rGlobal + g` is global `g`. -/
def rGlobal : Nat := 0x100000

def compose (region : Nat) (off : BitVec 32) : Word :=
  BitVec.ofNat 64 region <<< 32 ||| off.setWidth 64

def ptrRegion (p : Word) : Nat :=
  (p >>> 32).toNat

def ptrOff (p : Word) : BitVec 32 :=
  p.setWidth 32

theorem ptrRegion_eq (p : Word) : ptrRegion p = p.toNat / 2 ^ 32 := by
  simp [ptrRegion, Nat.shiftRight_eq_div_pow]

theorem compose_toNat (region : Nat) (off : BitVec 32) :
    (compose region off).toNat = region % 2 ^ 32 * 2 ^ 32 + off.toNat := by
  have low : off.toNat < 2 ^ 32 := off.isLt
  have high : (BitVec.ofNat 64 region <<< 32).toNat =
      2 ^ 32 * (region % 2 ^ 32) := by
    rw [BitVec.toNat_shiftLeft, BitVec.toNat_ofNat, Nat.shiftLeft_eq]
    omega
  rw [compose, BitVec.toNat_or, high, BitVec.toNat_setWidth,
    Nat.mod_eq_of_lt (Nat.lt_trans low (by decide)),
    ← Nat.two_pow_add_eq_or_of_lt low, Nat.mul_comm]

@[simp] theorem ptrRegion_compose (region : Nat) (off : BitVec 32) :
    ptrRegion (compose region off) = region % 2 ^ 32 := by
  have low : off.toNat < 2 ^ 32 := off.isLt
  rw [ptrRegion_eq, compose_toNat]
  omega

@[simp] theorem ptrOff_compose (region : Nat) (off : BitVec 32) :
    ptrOff (compose region off) = off := by
  apply BitVec.eq_of_toNat_eq
  have low : off.toNat < 2 ^ 32 := off.isLt
  rw [ptrOff, BitVec.toNat_setWidth, compose_toNat]
  omega

/-! ## What a run is given -/

structure Section where
  rva : Nat
  vsz : Nat
  raw : Nat
  rsz : Nat
  chr : Nat

structure BcPe where
  sections : List Section
  hdrSize : Nat
  pedata : Bytes

/-- The objects of a PDF, by id and start, and the size of the file. -/
structure PdfCtx where
  objs : List (Nat × Nat)
  size : Nat

structure WriteLimits where
  file : Nat
  total : Nat
  memory : Nat

/-- What the machine asks of the rest of the engine: one decoded instruction and
its length, the entropy of some bytes, and the functions computed in floating
point. -/
structure Host where
  disasmOne : Bytes → Option (Bytes × Nat)
  shannonEntropy : Bytes → Word
  isin : Word → Word → Word → Word
  icos : Word → Word → Word → Word
  iexp : Word → Word → Word → Word
  ipow : Word → Word → Word → Word
  ilog2 : Word → Word → Word

structure Ctx where
  file : Bytes
  flevel : Nat
  types : TypeTable
  globals : List Global
  pe : Option BcPe
  /-- The file is a PE whose header data `pe` lacks. -/
  peMissing : Bool
  pdf : Option PdfCtx
  matchOffsets : List UInt32
  apis : List (Nat × String)
  defaultName : String
  writeLimits : WriteLimits
  host : Host

/-! ## State -/

/-- One function activation. -/
structure Frame where
  vtypes : List Nat
  slots : List Slot
  stack : Bytes
  deriving DecidableEq

structure Machine where
  frames : List Frame
  gcache : List (Option Bytes)
  heaps : List Bytes
  /-- What the allocations, the frames and the globals read take. -/
  held : Nat
  extractCur : Bytes
  extracted : List Bytes
  written : Nat
  limited : Bool
  cursor : Nat
  detection : Option String
  steps : Nat
  unsupported : Bool
  gapped : Bool
  halt : Bool
  /-- The run unwound: nothing of it is kept. -/
  panicked : Bool
  stubbed : List String
  deriving DecidableEq

def Machine.putStack (m : Machine) (frame : Nat) (stack : Bytes) : Machine :=
  { m with frames := m.frames.modify frame fun fr => { fr with stack } }

/-- The machine with one allocation replaced. -/
def Machine.putHeap (m : Machine) (h : Nat) (buf : Bytes) : Machine :=
  { m with heaps := m.heaps.set h buf }

abbrev Run := StateM Machine

/-- The program failed: the run ends here and its result is discarded. -/
def flag : Run Unit :=
  modify fun m => { m with unsupported := true, halt := true }

/-- A stop that is the machine's, not the program's. -/
def gap : Run Unit :=
  modify fun m =>
    { m with unsupported := true, halt := true, gapped := true }

def unwind : Run Unit :=
  modify fun m =>
    { m with unsupported := true, halt := true, gapped := true,
             panicked := true }

def pedata (ctx : Ctx) : Run (Option Bytes) :=
  match ctx.pe with
  | some pe => pure (some pe.pedata)
  | none =>
      if ctx.peMissing then do
        gap
        pure none
      else pure (some (List.replicate pedataLen 0))

/-- Takes bytes of the run's memory, or says that none is left. -/
def hold (ctx : Ctx) (n : Nat) : Run Bool := do
  let m ← get
  if m.held + n ≤ ctx.writeLimits.memory then do
    modify fun m => { m with held := m.held + n }
    pure true
  else pure false

def chargeBytes (n : Nat) : Run Unit :=
  modify fun m =>
    { m with steps := min (m.steps + n / bytesPerStep) (2 ^ 64 - 1) }

/-! ## Bytes and values -/

def fromLe : Bytes → Word
  | [] => 0
  | b :: bytes => b.toBitVec.setWidth 64 ||| fromLe bytes <<< 8

def toLe : (w : Nat) → Word → Bytes
  | 0, _ => []
  | w + 1, v => UInt8.ofBitVec (v.setWidth 8) :: toLe w (v >>> 8)

@[simp] theorem length_toLe (w : Nat) (v : Word) : (toLe w v).length = w := by
  induction w generalizing v with
  | zero => rfl
  | succ w ih => rw [toLe, List.length_cons, ih]

def readLe (buf : Bytes) (off w : Nat) : Option Word :=
  if off + w ≤ buf.length then some (fromLe (window buf off w)) else none

def mask (v : Word) (bits : Nat) : Word :=
  if bits = 0 ∨ 64 ≤ bits then v else v &&& (BitVec.ofNat 64 (2 ^ bits - 1))

/-! ## Frames -/

def rdMem (frame off w : Nat) : Run Word := do
  let m ← get
  match (m.frames[frame]?).bind fun fr => readLe fr.stack off w with
  | some v =>
      if w = 0 then do
        flag
        pure 0
      else pure v
  | none => do
      flag
      pure 0

def wrMem (frame off w : Nat) (val : Word) : Run Unit := do
  let m ← get
  match m.frames[frame]? with
  | some fr =>
      if w ≠ 0 ∧ off + w ≤ fr.stack.length then
        modify fun m => m.putStack frame (patch fr.stack off (toLe w val))
      else flag
  | none => flag

def slot (m : Machine) (fi id : Nat) : Option Slot :=
  (m.frames[fi]?).bind fun fr => fr.slots[id]?

def typeOf (m : Machine) (fi id : Nat) : Nat :=
  ((m.frames[fi]?).bind fun fr => fr.vtypes[id]?).getD 0

def setValue (fi id : Nat) (v : Word) : Run Unit := do
  let m ← get
  match slot m fi id with
  | some s => wrMem fi s.off s.w v
  | none => flag

/-! ## Operands -/

def predefinedRegion (target : Nat) : Nat :=
  if target = globalFilesize then rFilesize
  else if target = globalPedata then rPedata
  else if target = globalMatchOffsets then rMatchoff
  else rZero

def globalPtr (ctx : Ctx) (g : Nat) : Run Word :=
  match ctx.globals[g]? with
  | none => do
      flag
      pure 0
  | some gv =>
      match gv.get 0, gv.get 1 with
      | some offset, some target =>
          if predefined target.toNat then
            pure (compose (predefinedRegion target.toNat) (offset.setWidth 32))
          -- the sum of the base and the target, as a signed number
          else if 2 ^ 63 ≤ target.toNat + rGlobal ∧ target.toNat < 2 ^ 63 then do
            unwind
            pure 0
          else pure (compose (rGlobal + target.toNat) (offset.setWidth 32))
      | _, _ => do
          flag
          pure 0

def globalValue (ctx : Ctx) (g : Nat) : Run Word :=
  match ctx.globals[g]? with
  | some gv =>
      if 2 ≤ gv.len then globalPtr ctx g else pure ((gv.get 0).getD 0)
  | none => do
      flag
      pure 0

def value (ctx : Ctx) (fi : Nat) (op : Operand) (w : Nat) : Run Word :=
  match op with
  | .reg i => do
      let m ← get
      match slot m fi i with
      | some s => rdMem fi s.off w
      | none => do
          flag
          pure 0
  | .const c => pure (mask c (w * 8))
  | .global g => globalValue ctx g

def opWidth (m : Machine) (fi : Nat) (op : Operand) : Nat :=
  match op with
  | .reg i => ((slot m fi i).map Slot.w).getD 1
  | _ => 8

def valueNat (ctx : Ctx) (fi : Nat) (op : Operand) : Run Word := do
  let m ← get
  value ctx fi op (opWidth m fi op)

/-- The operand as a pointer: the address of a buffer, or what a slot holds. -/
def ptr (ctx : Ctx) (fi : Nat) (op : Operand) : Run Word :=
  match op with
  | .reg i => do
      let m ← get
      match slot m fi i with
      | none => do
          flag
          pure 0
      | some s =>
          if predefined (typeOf m fi i) then
            pure (compose (rStack + fi) (BitVec.ofNat 32 s.off))
          else rdMem fi s.off 8
  | .global g => globalPtr ctx g
  | .const _ => pure 0

/-- An argument of a call: a pointer where it names a buffer or a global. -/
def argValue (ctx : Ctx) (fi : Nat) (op : Operand) : Run Word :=
  match op with
  | .reg i => do
      let m ← get
      if predefined (typeOf m fi i) then ptr ctx fi op
      else valueNat ctx fi op
  | .global _ => ptr ctx fi op
  | .const _ => valueNat ctx fi op

/-! ## Memory -/

/-- A global as bytes, rendered at its first read and held from then on. -/
def globalBytes (ctx : Ctx) (g : Nat) : Run Bytes := do
  let m ← get
  match m.gcache[g]? with
  | some (some bytes) => pure bytes
  | some none =>
      match ctx.globals[g]? with
      | some gv =>
          if ← hold ctx gv.len then do
            modify fun m => { m with gcache := m.gcache.set g (some gv.bytes) }
            pure gv.bytes
          else do
            gap
            pure []
      | none => pure []
  | none => pure []

/-- The size of the file, as the program reads it. -/
def filesizeBytes (ctx : Ctx) : Bytes :=
  toLe 4 (BitVec.ofNat 64 (min ctx.file.length (2 ^ 32 - 1)))

def matchoffBytes (ctx : Ctx) : Bytes :=
  ctx.matchOffsets.flatMap fun o => toLe 4 (BitVec.ofNat 64 o.toNat)

/-- A value read, where it was inside its region. -/
def orFlag : Option Word → Run Word
  | some v => pure v
  | none => do
      flag
      pure 0

def derefInt (ctx : Ctx) (p : Word) (w : Nat) : Run Word := do
  let m ← get
  let region := ptrRegion p
  let off := (ptrOff p).toNat
  if region = rFilesize then orFlag (readLe (filesizeBytes ctx) off w)
  else if region = rPedata then do
    match ← pedata ctx with
    | none => pure 0
    | some pd => orFlag (readLe pd off w)
  else if region = rZero then pure 0
  else if region = rMatchoff then
    pure (((ctx.matchOffsets[off / 4]?).map
      fun o => BitVec.ofNat 64 o.toNat).getD 0)
  else if rGlobal ≤ region then do
    let bytes ← globalBytes ctx (region - rGlobal)
    orFlag (readLe bytes off w)
  else if rHeap ≤ region then
    orFlag ((m.heaps[region - rHeap]?).bind fun buf => readLe buf off w)
  else if rStack ≤ region then rdMem (region - rStack) off w
  else do
    flag
    pure 0

def wrHeap (h off w : Nat) (val : Word) : Run Unit := do
  let m ← get
  match m.heaps[h]? with
  | some buf =>
      if w ≠ 0 ∧ off + w ≤ buf.length then
        modify fun m => m.putHeap h (patch buf off (toLe w val))
      else flag
  | none => flag

def storeInt (p : Word) (w : Nat) (val : Word) : Run Unit :=
  let region := ptrRegion p
  let off := (ptrOff p).toNat
  if rHeap ≤ region ∧ region < rGlobal then wrHeap (region - rHeap) off w val
  else if rStack ≤ region ∧ region < rHeap then
    wrMem (region - rStack) off w val
  else flag

/-- Up to `len` bytes through a pointer, fewer where the region ends. -/
def sliceRegion (ctx : Ctx) (p : Word) (len : Nat) : Run Bytes := do
  let m ← get
  let region := ptrRegion p
  let off := (ptrOff p).toNat
  if region = rPedata then do
    match ← pedata ctx with
    | some pd => pure (window pd off len)
    | none => pure []
  else if region = rZero then pure (List.replicate (min len maxBytes) 0)
  else if region = rFilesize then pure (window (filesizeBytes ctx) off len)
  else if region = rMatchoff then pure (window (matchoffBytes ctx) off len)
  else if rGlobal ≤ region then do
    let bytes ← globalBytes ctx (region - rGlobal)
    pure (window bytes off len)
  else if rHeap ≤ region then
    pure (((m.heaps[region - rHeap]?).map
      fun buf => window buf off len).getD [])
  else if rStack ≤ region then
    pure (((m.frames[region - rStack]?).map
      fun fr => window fr.stack off len).getD [])
  else do
    flag
    pure []

def readRegion (ctx : Ctx) (p : Word) (len : Nat) : Run Bytes := do
  chargeBytes (min len maxAlloc)
  sliceRegion ctx p len

/-- A byte at a time from a pointer on. -/
def storeBytes (p : Word) (bytes : Bytes) : Run Unit :=
  bytes.zipIdx.forM fun (b, i) =>
    storeInt (compose (ptrRegion p) (ptrOff p + BitVec.ofNat 32 i)) 1
      (b.toBitVec.setWidth 64)

/-- In a piece within one region, and past its end a byte at a time up to the
first one outside. -/
def putRegion (p : Word) (bytes : Bytes) : Run Unit := do
  let m ← get
  let region := ptrRegion p
  let off := (ptrOff p).toNat
  if rHeap ≤ region ∧ region < rGlobal then
    match m.heaps[region - rHeap]? with
    | some buf =>
        if off + bytes.length ≤ buf.length then
          modify fun m => m.putHeap (region - rHeap) (patch buf off bytes)
        else storeBytes p bytes
    | none => storeBytes p bytes
  else if rStack ≤ region ∧ region < rHeap then
    match m.frames[region - rStack]? with
    | some fr =>
        if off + bytes.length ≤ fr.stack.length then
          modify fun m =>
            m.putStack (region - rStack) (patch fr.stack off bytes)
        else storeBytes p bytes
    | none => storeBytes p bytes
  else storeBytes p bytes

def writeRegion (p : Word) (bytes : Bytes) : Run Unit := do
  chargeBytes bytes.length
  putRegion p bytes

/-- The bytes up to a zero, or up to the end of the region. -/
def takeString (buf : Bytes) (off : Nat) : Option String :=
  if off ≤ buf.length then
    some (fromUtf8Lossy ((buf.drop off).takeWhile (· ≠ 0)))
  else none

def readCString (ctx : Ctx) (p : Word) : Run (Option String) := do
  let m ← get
  let region := ptrRegion p
  let off := (ptrOff p).toNat
  if rGlobal ≤ region then do
    let bytes ← globalBytes ctx (region - rGlobal)
    pure (takeString bytes off)
  else if rHeap ≤ region then
    pure ((m.heaps[region - rHeap]?).bind fun buf => takeString buf off)
  else if rStack ≤ region then
    pure ((m.frames[region - rStack]?).bind fun fr => takeString fr.stack off)
  else pure none

/-- A fresh zeroed allocation, or null. -/
def malloc (ctx : Ctx) (size : Word) : Run Word := do
  let m ← get
  if size.toInt ≤ 0 ∨ maxMalloc < size.toNat then pure 0
  else if ← hold ctx size.toNat then do
    modify fun m =>
      { m with heaps := m.heaps ++ [List.replicate size.toNat 0] }
    pure (compose (rHeap + m.heaps.length) 0)
  else do
    gap
    pure 0

end Exav.Bytecode
