import Exav.Bytes

/-!
# Bytecode programs

A program is a list of functions over numbered values, with a type table and the
constant globals.  A frame lays the values of a function out by the size and the
alignment of their types.
-/

namespace Exav.Bytecode

/-- A 64-bit value, signed where an instruction reads it so. -/
abbrev Word := BitVec 64

/-! ## Instructions -/

inductive Operand where
  | reg (i : Nat)
  | const (c : Word)
  | global (g : Nat)
  deriving DecidableEq

inductive Body where
  | ops (ops : List Operand)
  | call (api : Bool) (func : Nat) (args : List Operand)
  | gep (first : Nat) (ops : List Operand)
  | jmp (t : Nat)
  | branch (cond : Operand) (t f : Nat)
  | ret (value : Option Operand)
  deriving DecidableEq

structure Inst where
  opcode : Nat
  dest : Nat
  ty : Nat
  body : Body
  deriving DecidableEq

/-- A function: the type of each value, arguments first, and the blocks. -/
structure Function where
  types : List Nat
  blocks : List (List Inst)
  deriving DecidableEq

/-! ## Types -/

inductive TypeDef where
  | pointer (contained : Nat)
  | array (elements contained : Nat)
  | struct (fields : List Nat)
  | function (ret : Nat) (args : List Nat)
  deriving DecidableEq

/-- The declared types, from id 65 on. -/
structure TypeTable where
  defs : List TypeDef

def usizeMax : Nat := 2 ^ 64 - 1

def saturatingAdd (a b : Nat) : Nat :=
  min (a + b) usizeMax

def saturatingMul (a b : Nat) : Nat :=
  min (a * b) usizeMax

/-- A flag of a type id: the value is a buffer, or the global is predefined. -/
def predefined (id : Nat) : Bool :=
  id.testBit 15

def bitsToBytes (bits : Nat) : Nat :=
  if bits = 0 then 0
  else if bits ≤ 8 then 1
  else if bits ≤ 16 then 2
  else if bits ≤ 32 then 4
  else 8

/-- Byte width of an integer type; pointers and aggregates take eight. -/
def typeBytes (id : Nat) : Nat :=
  bitsToBytes (id % 0x8000)

theorem bitsToBytes_cases (bits : Nat) :
    bitsToBytes bits = 0 ∨ bitsToBytes bits = 1 ∨ bitsToBytes bits = 2 ∨
      bitsToBytes bits = 4 ∨ bitsToBytes bits = 8 := by
  unfold bitsToBytes
  split_ifs <;> simp

theorem width_cases (bits : Nat) :
    max (bitsToBytes bits) 1 = 1 ∨ max (bitsToBytes bits) 1 = 2 ∨
      max (bitsToBytes bits) 1 = 4 ∨ max (bitsToBytes bits) 1 = 8 := by
  rcases bitsToBytes_cases bits with w | w | w | w | w <;> simp [w]

namespace TypeTable

variable (types : TypeTable)

def get (id : Nat) : Option TypeDef :=
  if id < 65 then none else types.defs[id - 65]?

/-- The size of a type, nested at most `depth` deep. -/
def sizeDepth : (depth : Nat) → Nat → Nat
  | 0, _ => 0
  | depth + 1, t =>
      if t ≤ 64 then bitsToBytes t
      else
        match types.get t with
        | some (.pointer _) => 8
        | some (.array elements contained) =>
            saturatingMul (sizeDepth depth contained) elements
        | some (.struct fields) =>
            (fields.map (sizeDepth depth)).foldl saturatingAdd 0
        | _ => 0

def size (id : Nat) : Nat :=
  types.sizeDepth 65 (id % 0x8000)

def alignDepth : (depth : Nat) → Nat → Nat
  | 0, _ => 1
  | depth + 1, t =>
      if t ≤ 64 then max (types.sizeDepth (depth + 1) t) 1
      else
        match types.get t with
        | some (.pointer _) => 8
        | some (.array _ contained) => alignDepth depth contained
        | some (.struct fields) =>
            ((fields.map (alignDepth depth)).max?).getD 1
        | _ => 1

def align (id : Nat) : Nat :=
  types.alignDepth 65 (id % 0x8000)

def pointee (id : Nat) : Option Nat :=
  let t := id % 0x8000
  if 64 < t then
    match types.get t with
    | some (.pointer contained) => some contained
    | _ => none
  else if predefined id then some t
  else none

def fieldOffset (id index : Nat) : Option Nat :=
  match types.get (id % 0x8000) with
  | some (.struct fields) =>
      some (((fields.take index).map types.size).foldl saturatingAdd 0)
  | _ => none

def isStruct (id : Nat) : Bool :=
  match types.get (id % 0x8000) with
  | some (.struct _) => true
  | _ => false

end TypeTable

/-! ## Globals -/

/-- The components of a global; a global of zeros holds its length alone. -/
structure Global where
  len : Nat
  init : List (BitVec 64)
  whole : init = [] ∨ init.length = len

namespace Global

def ofList (init : List (BitVec 64)) : Global :=
  ⟨init.length, init, .inr rfl⟩

def get (global : Global) (i : Nat) : Option (BitVec 64) :=
  if i < global.len then some (global.init[i]?.getD 0) else none

/-- The first byte of each component. -/
def bytes (global : Global) : Bytes :=
  if global.init.isEmpty then List.replicate global.len 0
  else global.init.map fun c => UInt8.ofBitVec (c.setWidth 8)

@[simp] theorem length_bytes (global : Global) :
    global.bytes.length = global.len := by
  unfold bytes
  split
  · rw [List.length_replicate]
  · rename_i some'
    rcases global.whole with none' | whole
    · exact absurd (List.isEmpty_iff.mpr none') some'
    · rw [List.length_map, whole]

end Global

/-! ## Layout -/

/-- Where a value sits in its frame, and its width. -/
structure Slot where
  off : Nat
  w : Nat
  deriving DecidableEq

/-- One value more: the slots so far and the bytes they take.  Alignments are
powers of two. -/
def layoutStep (types : TypeTable) (laid : List Slot × Nat) (ty : Nat) :
    List Slot × Nat :=
  let align := max (types.align ty) 1
  let size := max (types.size ty) 1
  let start := saturatingAdd laid.2 (align - 1) / align * align
  (laid.1 ++ [⟨start % 2 ^ 32, max (typeBytes ty) 1⟩], saturatingAdd start size)

def layout (f : Function) (types : TypeTable) : List Slot × Nat :=
  let laid := f.types.foldl (layoutStep types) ([], 0)
  (laid.1, saturatingAdd laid.2 7 / 8 * 8)

end Exav.Bytecode
