import Exav.Bytecode.Api

/-!
# The interpreter

One instruction of the innermost call at a time.  A call pushes a frame and an
activation, and the calling instruction stays at the head of what its own
activation has left to do until the callee's value comes back.
-/

namespace Exav.Bytecode

/-! ## Arithmetic -/

/-- The low bits of a value, sign-extended. -/
def sext (v : Word) (bits : Nat) : Word :=
  if bits = 0 ∨ 64 ≤ bits then v
  else (v <<< (64 - bits)).sshiftRight (64 - bits)

def icmp (op : Nat) (a b : Word) : Word :=
  let holds : Bool := match op with
    | 21 => a == b
    | 22 => a != b
    | 23 => b.ult a
    | 24 => b.ule a
    | 25 => a.ult b
    | 26 => a.ule b
    | 27 => b.slt a
    | 28 => b.sle a
    | 29 => a.sle b
    | 30 => a.slt b
    | _ => false
  if holds then 1 else 0

/-- A quotient or remainder that there is none of, or that does not fit, reads as
zero. -/
def arith (op : Nat) (a b : Word) : Word :=
  let shift := b.toNat % 64
  match op with
  | 1 => a + b
  | 2 => a - b
  | 3 => a * b
  | 4 => a / b
  | 5 => if b = -1 ∧ a = BitVec.intMin 64 then 0 else a.sdiv b
  | 6 => if b = 0 then 0 else a % b
  | 7 => if b = 0 ∨ b = -1 then 0 else a.srem b
  | 8 => a <<< shift
  | 9 => a >>> shift
  | 10 => a.sshiftRight shift
  | 11 => a &&& b
  | 12 => a ||| b
  | 13 => a ^^^ b
  | _ => 0

/-- The lowest `w` bytes, the other way round. -/
def bswap (w : Nat) (v : Word) : Word :=
  fromLe (toLe w v).reverse

/-- Byte strings in lexicographic order, a shorter one first. -/
def compareBytes : Bytes → Bytes → Word
  | [], [] => 0
  | [], _ :: _ => -1
  | _ :: _, [] => 1
  | a :: as, b :: bs =>
      if a < b then -1 else if b < a then 1 else compareBytes as bs

/-! ## Instructions -/

/-- What an instruction does to control. -/
inductive Flow where
  | next
  | jump (t : Nat)
  | ret (v : Word)
  | call (func : Nat) (args : List Word)

/-- The address `delta` bytes on, within the region. -/
def address (base delta : Word) : Word :=
  compose (ptrRegion base) (ptrOff base + delta.setWidth 32)

def elementSize (ctx : Ctx) (first : Nat) : Nat :=
  max (((ctx.types.pointee first).map ctx.types.size).getD 1) 1

def gep (ctx : Ctx) (fi opcode first : Nat) (base idx : Operand) :
    Run Word := do
  let base ← ptr ctx fi base
  let index ← valueNat ctx fi idx
  if opcode = 35 then
    pure (address base (index * ofNat (elementSize ctx first)))
  else if index = 0 then pure (address base 0)
  else
    match ctx.types.pointee first with
    | some p =>
        if ctx.types.isStruct p then
          pure (address base
            (ofNat ((ctx.types.fieldOffset p index.toNat).getD 0)))
        else pure (address base index)
    | none => do
        flag
        pure (address base 0)

/-- Every index counts elements of the first pointer's type. -/
def gepn (ctx : Ctx) (fi first : Nat) (base : Operand)
    (idxs : List Operand) : Run Word := do
  let base ← ptr ctx fi base
  let indices ← idxs.mapM (valueNat ctx fi)
  pure (address base
    (indices.foldl (· + ·) 0 * ofNat (elementSize ctx first)))

/-- An arithmetic instruction; a division by zero ends the run. -/
def stepArith (ctx : Ctx) (fi : Nat) (inst : Inst) (x y : Operand) :
    Run Unit := do
  let a ← valueNat ctx fi x
  let b ← valueNat ctx fi y
  if 4 ≤ inst.opcode ∧ inst.opcode ≤ 7 ∧ b = 0 then flag
  else
    let signed := inst.opcode = 5 ∨ inst.opcode = 7 ∨ inst.opcode = 10
    let a := if signed then sext a inst.ty else a
    let b := if signed then sext b inst.ty else b
    setValue fi inst.dest (mask (arith inst.opcode a b) inst.ty)

def stepIcmp (ctx : Ctx) (fi : Nat) (inst : Inst) (x y : Operand) :
    Run Unit := do
  let a ← valueNat ctx fi x
  let b ← valueNat ctx fi y
  let signed := 27 ≤ inst.opcode ∧ inst.opcode ≤ 30
  let a := if signed then sext a inst.ty else mask a inst.ty
  let b := if signed then sext b inst.ty else mask b inst.ty
  setValue fi inst.dest (icmp inst.opcode a b)

def stepLoad (ctx : Ctx) (fi : Nat) (inst : Inst) (x : Operand) :
    Run Unit := do
  let w := max (bitsToBytes inst.ty) 1
  let p ← ptr ctx fi x
  let v ← derefInt ctx p w
  setValue fi inst.dest v

def stepStore (ctx : Ctx) (fi : Nat) (inst : Inst) (x y : Operand) :
    Run Unit := do
  let w := max (bitsToBytes inst.ty) 1
  let v ← value ctx fi x w
  let p ← ptr ctx fi y
  storeInt p w v

def stepMemcpy (ctx : Ctx) (fi : Nat) (x y z : Operand) : Run Unit := do
  let n ← valueNat ctx fi z
  let dst ← ptr ctx fi x
  let src ← ptr ctx fi y
  let bytes ← readRegion ctx src (count n)
  writeRegion dst bytes

def stepMemset (ctx : Ctx) (fi : Nat) (x y z : Operand) : Run Unit := do
  let n ← valueNat ctx fi z
  let val ← valueNat ctx fi y
  let dst ← ptr ctx fi x
  writeRegion dst (List.replicate (min (count n) maxBytes)
    (UInt8.ofBitVec (val.setWidth 8)))

def stepMemcmp (ctx : Ctx) (fi : Nat) (inst : Inst) (x y z : Operand) :
    Run Unit := do
  let n ← valueNat ctx fi z
  let p1 ← ptr ctx fi x
  let p2 ← ptr ctx fi y
  let a ← readRegion ctx p1 (count n)
  let b ← readRegion ctx p2 (count n)
  setValue fi inst.dest (compareBytes a b)

/-- A decoded instruction has the operands its opcode takes. -/
def stepOps (ctx : Ctx) (fi : Nat) (inst : Inst) (ops : List Operand) :
    Run Flow :=
  let x := arg ops 0
  let y := arg ops 1
  let z := arg ops 2
  if 1 ≤ inst.opcode ∧ inst.opcode ≤ 13 then do
    stepArith ctx fi inst x y
    pure .next
  else if 21 ≤ inst.opcode ∧ inst.opcode ≤ 30 then do
    stepIcmp ctx fi inst x y
    pure .next
  else match inst.opcode with
  | 14 | 16 => do
      let v ← valueNat ctx fi x
      setValue fi inst.dest (mask v inst.ty)
      pure .next
  | 15 => do
      let m ← get
      let srcBits := opWidth m fi x * 8
      let v ← valueNat ctx fi x
      setValue fi inst.dest (mask (sext v srcBits) inst.ty)
      pure .next
  | 31 => do
      let c ← valueNat ctx fi x
      let v ← if c ≠ 0 then valueNat ctx fi y else valueNat ctx fi z
      setValue fi inst.dest v
      pure .next
  | 34 => do
      let w := max (bitsToBytes inst.ty) 1
      let v ← value ctx fi x w
      match y with
      | .reg dst => setValue fi dst v
      | _ => pure ()
      pure .next
  | 39 => do
      stepLoad ctx fi inst x
      pure .next
  | 38 => do
      stepStore ctx fi inst x y
      pure .next
  | 41 | 42 => do
      stepMemcpy ctx fi x y z
      pure .next
  | 40 => do
      stepMemset ctx fi x y z
      pure .next
  | 43 => do
      stepMemcmp ctx fi inst x y z
      pure .next
  | 44 => do
      setValue fi inst.dest 0
      pure .next
  | 46 => do
      let v ← valueNat ctx fi x
      setValue fi inst.dest (bswap 2 v)
      pure .next
  | 47 => do
      let v ← valueNat ctx fi x
      setValue fi inst.dest (bswap 4 v)
      pure .next
  | 48 => do
      let v ← valueNat ctx fi x
      setValue fi inst.dest (bswap 8 v)
      pure .next
  | 50 => do
      let p ← ptr ctx fi x
      setValue fi inst.dest p
      pure .next
  | 49 => do
      let p1 ← ptr ctx fi x
      let p2 ← ptr ctx fi y
      let d ← if ptrRegion p1 = ptrRegion p2 then
          pure ((ptrOff p1).setWidth 64 - (ptrOff p2).setWidth 64)
        else do
          flag
          pure 0
      setValue fi inst.dest d
      pure .next
  | 45 => do
      flag
      pure (.ret 0)
  | _ => do
      gap
      pure .next

/-- A call of the host, and its result where it has one. -/
def stepApi (ctx : Ctx) (fi : Nat) (inst : Inst) (func : Nat)
    (args : List Operand) : Run Unit := do
  let api := apiFor ctx func
  if api.fabricates then noteStub ((declared ctx func).getD "")
  else pure ()
  let r ← callApi ctx fi api args
  if inst.ty ≠ 0 then setValue fi inst.dest r else pure ()

def step (ctx : Ctx) (fi : Nat) (inst : Inst) : Run Flow :=
  match inst.body with
  | .jmp t => pure (.jump t)
  | .branch cond t f => do
      let c ← valueNat ctx fi cond
      pure (.jump (if c &&& 1 ≠ 0 then t else f))
  | .ret none => pure (.ret 0)
  | .ret (some op) => do
      let v ← argValue ctx fi op
      pure (.ret v)
  | .call true func args => do
      stepApi ctx fi inst func args
      pure .next
  | .call false func args => do
      let args ← args.mapM (argValue ctx fi)
      pure (.call func args)
  | .gep first ops => do
      let p ← match ops with
        | [] => do
            flag
            pure 0
        | [base, idx] => gep ctx fi inst.opcode first base idx
        | base :: idxs => gepn ctx fi first base idxs
      setValue fi inst.dest p
      pure .next
  | .ops ops => stepOps ctx fi inst ops

/-! ## Calls -/

/-- A call in progress: its function, its frame and what that takes, and what is
left of the block. -/
structure Activation where
  idx : Nat
  fi : Nat
  nbytes : Nat
  depth : Nat
  insts : List Inst
  deriving DecidableEq

structure Config where
  machine : Machine
  stack : List Activation
  deriving DecidableEq

/-- A program and what it is run over. -/
structure Program where
  funcs : List Function
  ctx : Ctx

section

variable (program : Program)

def blockAt (idx bb : Nat) : Option (List Inst) :=
  (program.funcs[idx]?).bind fun f => f.blocks[bb]?

/-- A frame for a call, with its arguments, or none when it is refused. -/
def enter (idx : Nat) (args : List Word) (depth : Nat) :
    Run (Option Activation) := do
  let m ← get
  if m.halt then do
    flag
    pure none
  else if maxDepth < depth then do
    gap
    pure none
  else
    match program.funcs[idx]? with
    | none => do
        flag
        pure none
    | some f =>
        let (slots, nbytes) := layout f program.ctx.types
        if maxBytes < nbytes then do
          gap
          pure none
        else if ← hold program.ctx nbytes then do
          let fi := m.frames.length
          modify fun m => { m with
            frames := m.frames ++
              [⟨f.types, slots, List.replicate nbytes 0⟩] }
          args.zipIdx.forM fun (a, k) => setValue fi k a
          pure (some ⟨idx, fi, nbytes, depth,
            (blockAt program idx 0).getD []⟩)
        else do
          gap
          pure none

def leave (a : Activation) : Run Unit :=
  modify fun m =>
    { m with frames := m.frames.dropLast, held := m.held - a.nbytes }

def answer (a : Activation) (v : Word) : Run Activation :=
  match a.insts with
  | [] => pure a
  | inst :: insts => do
      if inst.ty ≠ 0 then setValue a.fi inst.dest v else pure ()
      pure { a with insts }

/-- A call ends with a value. -/
def finish (a : Activation) (callers : List Activation) (v : Word)
    (m : Machine) : Config :=
  let (_, m) := leave a m
  match callers with
  | [] => ⟨m, []⟩
  | caller :: callers =>
      let (caller, m) := answer caller v m
      ⟨m, caller :: callers⟩

/-- One instruction, or the end of a call that has none left. -/
def next (c : Config) : Config :=
  match c.stack with
  | [] => c
  | a :: callers =>
      match a.insts with
      | [] => finish a callers 0 c.machine
      | inst :: insts =>
          let m := { c.machine with steps := c.machine.steps + 1 }
          if maxSteps < m.steps then
            finish a callers 0 { m with unsupported := true }
          else if m.halt then finish a callers 0 m
          else
            match step program.ctx a.fi inst m with
            | (.next, m) => ⟨m, { a with insts } :: callers⟩
            | (.jump t, m) =>
                match blockAt program a.idx t with
                | some insts => ⟨m, { a with insts } :: callers⟩
                | none => finish a callers 0 m
            | (.ret v, m) => finish a callers v m
            | (.call func args, m) =>
                match enter program func args (a.depth + 1) m with
                | (some callee, m) => ⟨m, callee :: a :: callers⟩
                | (none, m) =>
                    let (a, m) := answer a 0 m
                    ⟨m, a :: callers⟩

def initial : Machine where
  frames := []
  gcache := program.ctx.globals.map fun _ => none
  heaps := []
  held := 0
  extractCur := []
  extracted := []
  written := 0
  limited := false
  cursor := 0
  detection := none
  steps := 0
  unsupported := false
  gapped := false
  halt := false
  panicked := false
  stubbed := []

/-- The run of a function, before its first instruction. -/
def start (entry : Nat) : Config :=
  let (a, m) := enter program entry [] 0 (initial program)
  ⟨m, a.toList⟩

/-- The configurations a run of a function goes through. -/
inductive Reachable (entry : Nat) : Config → Prop where
  | start : Reachable entry (start program entry)
  | next {c : Config} : Reachable entry c → Reachable entry (next program c)

end

/-! ## Outcome -/

structure Outcome where
  detection : Option String
  steps : Nat
  hitUnsupported : Bool
  incomplete : Bool
  extracted : List Bytes
  stubbed : List String
  deriving DecidableEq

/-- What is reported of a run that is over.  Output never finished is. -/
def outcome (m : Machine) : Outcome :=
  if m.panicked then ⟨none, 0, false, true, [], []⟩
  else
    let (_, m) := flush m
    ⟨m.detection, m.steps, m.unsupported,
      decide (maxSteps < m.steps) || m.gapped || m.limited,
      m.extracted, m.stubbed⟩

end Exav.Bytecode
