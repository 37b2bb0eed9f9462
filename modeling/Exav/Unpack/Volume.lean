import Mathlib.Data.List.Sort
import Exav.Bytes
import Exav.Lib.Slots

/-!
# The members of a multi-volume archive

A name says whether it is one volume of a set, of which set, and where in it.
A collector holds the parts of byte-split sets as they stream past, and joins
what it can once no more can arrive.
-/

namespace Exav.Volume

open Exav.Slots

/-- A file name, read case-insensitively where it is compared. -/
abbrev Name := List Char

def usizeMax : Nat := 2 ^ 64 - 1

/-! ## Names -/

/-- How a set names its volumes. -/
inductive Scheme where
  | rarPart (width : Nat)
  | rarOld
  | numberedSuffix (baseExt : Name) (width : Nat)
  | zipSplit
  deriving DecidableEq

/-- One volume's place in its set, counted from zero. -/
structure VolumeName where
  stem : Name
  index : Nat
  scheme : Scheme
  deriving DecidableEq

def toAsciiLowercase (name : Name) : Name :=
  name.map Char.toLower

def eqIgnoreAsciiCase (a b : Name) : Bool :=
  toAsciiLowercase a == toAsciiLowercase b

/-- What stands before and after the last occurrence of `pat`. -/
def rsplitAt (pat : Name) : Name → Option (Name × Name)
  | [] => none
  | c :: name =>
      match rsplitAt pat name with
      | some (before, after) => some (c :: before, after)
      | none =>
          if pat.isPrefixOf (c :: name) then
            some ([], (c :: name).drop pat.length)
          else none

def stripSuffix (suffix name : Name) : Option Name :=
  if suffix.isSuffixOf name then
    some (name.take (name.length - suffix.length))
  else none

/-- The number written by decimal digits, when it fits. -/
def parseNumber (digits : Name) : Option Nat :=
  let n := digits.foldl (fun n c => n * 10 + (c.toNat - '0'.toNat)) 0
  if n ≤ usizeMax then some n else none

def checkedPred : Nat → Option Nat
  | 0 => none
  | n + 1 => some n

/-- The two digits after `letter` in an extension. -/
def twoDigits (letter : Char) : Name → Option Name
  | [] => none
  | c :: digits =>
      if c = letter ∧ digits.length = 2 ∧ digits.all Char.isDigit then
        some digits
      else none

/-- `stem.partN.rar`, else the first volume `stem.rar`. -/
def parseRar (name rest : Name) : Option VolumeName :=
  let old : VolumeName := ⟨name.take rest.length, 0, .rarOld⟩
  match rsplitAt ".part".toList rest with
  | none => some old
  | some (before, digits) =>
      if digits ≠ [] ∧ digits.all Char.isDigit then do
        let n ← parseNumber digits
        let index ← checkedPred n
        some ⟨name.take before.length, index, .rarPart digits.length⟩
      else some old

/-- `stem.rNN`, `stem.zNN` or `stem.ext.NNN`. -/
def parseExt (name stem ext : Name) : Option VolumeName :=
  match twoDigits 'r' ext with
  | some digits => do
      let n ← parseNumber digits
      some ⟨name.take stem.length, n + 1, .rarOld⟩
  | none =>
      match twoDigits 'z' ext with
      | some digits => do
          let n ← parseNumber digits
          let index ← checkedPred n
          some ⟨name.take stem.length, index, .zipSplit⟩
      | none =>
          if 2 ≤ ext.length ∧ ext.all Char.isDigit then do
            let n ← parseNumber ext
            let (base, baseExt) ← rsplitAt ['.'] stem
            if baseExt = [] ∨ !baseExt.all Char.isAlphanum then none
            else
              let index ← checkedPred n
              some ⟨name.take base.length, index,
                .numberedSuffix baseExt ext.length⟩
          else none

def parse (name : Name) : Option VolumeName :=
  let lower := toAsciiLowercase name
  match stripSuffix ".rar".toList lower with
  | some rest => parseRar name rest
  | none => do
      let (stem, ext) ← rsplitAt ['.'] lower
      parseExt name stem ext

def VolumeName.sameSetAs (a b : VolumeName) : Bool :=
  eqIgnoreAsciiCase a.stem b.stem &&
    match a.scheme, b.scheme with
    | .numberedSuffix e _, .numberedSuffix f _ => eqIgnoreAsciiCase e f
    | .rarPart _, .rarPart _ => true
    | .rarOld, .rarOld => true
    | .zipSplit, .zipSplit => true
    | _, _ => false

/-- Whether a set is joined by plain concatenation. -/
def Scheme.isByteSplit : Scheme → Bool
  | .numberedSuffix _ _ => true
  | _ => false

/-! ## Collecting -/

abbrev Member := Name × Bytes

structure Part where
  index : Nat
  name : Name
  data : Bytes

def Part.member (part : Part) : Member :=
  (part.name, part.data)

/-- The parts held of one set, in arrival order.  `lostPart` says that a part of
it was passed through. -/
structure Pending where
  key : VolumeName
  parts : List Part
  lostPart : Bool

structure Collector where
  pending : List Pending
  maxHeldBytes : Nat
  heldBytes : Nat

def Collector.new (maxHeldBytes : Nat) : Collector where
  pending := []
  maxHeldBytes := maxHeldBytes
  heldBytes := 0

/-- What to do with a member offered. -/
inductive Offer where
  | passThrough (name : Name) (data : Bytes)
  | held

/-- Whether `data` fits in what is left of the budget. -/
def Collector.fits (c : Collector) (data : Bytes) : Bool :=
  min (c.heldBytes + data.length) usizeMax ≤ c.maxHeldBytes

def Collector.offer (c : Collector) (name : Name) (data : Bytes) :
    Offer × Collector :=
  match parse name with
  | none => (.passThrough name data, c)
  | some vn =>
      if !vn.scheme.isByteSplit then (.passThrough name data, c)
      else
        let same (p : Pending) := p.key.sameSetAs vn
        let new : Pending := ⟨vn, [], false⟩
        let set := slot same new c.pending
        if !c.fits data || set.parts.any (·.index == vn.index) then
          let lost := update same new (fun p => { p with lostPart := true })
            c.pending
          (.passThrough name data, { c with pending := lost })
        else
          let part : Part := ⟨vn.index, name, data⟩
          let grown := update same new
            (fun p => { p with parts := p.parts ++ [part] }) c.pending
          (.held,
            { c with
              pending := grown, heldBytes := c.heldBytes + data.length })

/-! ## Finishing -/

/-- A set put back together. -/
structure Joined where
  name : Name
  data : Bytes
  parts : List Name

/-- A member still held at the end, and why it could not be joined, if it was
part of a set. -/
structure Unjoined where
  name : Name
  data : Bytes
  incompleteSet : Option String

structure Finished where
  joined : List Joined
  unjoined : List Unjoined

def Pending.sorted (set : Pending) : List Part :=
  set.parts.insertionSort fun a b => a.index ≤ b.index

/-- The indices go from zero on without a gap. -/
def complete (idx : List Nat) : Bool :=
  idx.head? == some 0 && (idx.zip idx.tail).all fun (a, b) => b == a + 1

/-- Why a set cannot be joined; `none` when it can.  A part on its own is no
set, and comes back without a reason. -/
def Pending.refused (set : Pending) : Option (Option String) :=
  let idx := set.sorted.map Part.index
  if set.lostPart then
    some (some "part of a multi-volume set one of whose volumes could not be held for rejoining")
  else if set.parts.length < 2 then some none
  else if complete idx then none
  else if idx.head? ≠ some 0 then
    some (some "part of a multi-volume set whose first volume was not present")
  else
    some (some "part of an incomplete multi-volume set; the other volumes were not present")

def VolumeName.setName (key : VolumeName) : Name :=
  match key.scheme with
  | .numberedSuffix baseExt _ => key.stem ++ '.' :: baseExt
  | _ => key.stem

def Pending.join (set : Pending) : Joined where
  name := set.key.setName
  data := set.sorted.flatMap Part.data
  parts := set.sorted.map Part.name

def Pending.unjoin (set : Pending) (reason : Option String) : List Unjoined :=
  set.sorted.map fun part => ⟨part.name, part.data, reason⟩

/-- Resolve everything held. -/
def Collector.finish (c : Collector) : Finished where
  joined := (c.pending.filter fun set => set.refused.isNone).map Pending.join
  unjoined := c.pending.flatMap fun set =>
    match set.refused with
    | some reason => set.unjoin reason
    | none => []

/-! ## Whole containers -/

def offerMember (state : List Member × Collector) (m : Member) :
    List Member × Collector :=
  match state.2.offer m.1 m.2 with
  | (.passThrough name data, c) => (state.1 ++ [(name, data)], c)
  | (.held, c) => (state.1, c)

def collect (maxHeldBytes : Nat) (members : List Member) :
    List Member × Collector :=
  members.foldl offerMember ([], .new maxHeldBytes)

end Exav.Volume
