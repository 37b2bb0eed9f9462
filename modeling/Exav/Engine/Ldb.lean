import Exav.Engine.Logic
import Exav.Engine.Pins

/-!
# Logical signatures

A logical signature holds of an object when the object passes its gates and its
expression holds of how often each subsignature matched.  Normal
subsignatures are counted by the scan; the others are evaluated after them, in
order, over the counts so far.
-/

namespace Exav.Engine

/-- What an object is identified as. -/
inductive FileType where
  | pe | elf | machO | zip | gzip | bzip2 | xz | tar | pdf | ole | email | rtf
  | sevenZip | rar | cab | chm | iso | lha | arj | ar | cpio | xar | wim | lz4
  | arc | ace | alz | egg | hwp3 | ishieldMsi | ishieldCab | ishieldZ | cryptFf
  | ext | lrzip | zoo | appleSingle | stuffIt | fat | inno | ntfs | zstd | lzip
  | uuencode | xdp | szdd | tnef | swf | graphics | binhex | lnk | partition
  | pyc | nsis | machofat | sfx | autoit | oneNote | javaClass | aiModel
  | screnc | script | html | text | unknown | htmlView | textView
  deriving DecidableEq

/-- The container types a signature can name. -/
inductive ClType where
  | zip | ooxmlWord | ooxmlXl | ooxmlPpt | msole2 | mail | pdf | mscab | rar
  | sevenZip | iso | lha | tar | gzip | bzip | xz | cpio | ar | zstd | mschm
  | dmg | nulsft | autoit | msExe | rtf | html | xmlWord | xmlXl | mhtml
  deriving DecidableEq

inductive ContainerReq where
  | unconstrained
  | inside (req : ClType)
  deriving DecidableEq

/-- An object and what is known of it when its signatures are evaluated. -/
structure Object where
  buf : Bytes
  ft : FileType
  isImage : Bool
  layout : Option PeLayout
  container : Option ClType
  ancestry : List (Option ClType)
  imageHash : Option UInt64
  /-- Whether the object's icon is of the groups named, when icons are
  loaded. -/
  icon : Option (Option String → Option String → Bool)

/-! ## Subsignatures -/

/-- A regular expression, run once its trigger holds of the counts so far.  The
regex engine is a function from the object to the number of matches. -/
structure PcreSub where
  trigger : Node
  global : Bool
  count : Bytes → Nat
  small : ∀ buf, count buf ≤ u32Max

inductive BcompKind where
  | hex
  | dec
  | auto
  | raw
  deriving DecidableEq

/-- A number read relative to the first match of another subsignature. -/
structure BcompSub where
  trigger : Nat
  offset : Int
  kind : BcompKind
  bigEndian : Bool
  numBytes : Nat
  exact_ : Bool
  cmps : List (Cmp × Int)

/-- A subsignature of a logical signature. -/
inductive SubSig where
  | bodies (ids : List Nat)
  | pcre (p : PcreSub)
  | bcomp (b : BcompSub)
  | fuzzy (hash : UInt64) (dist : Nat)

def i64Max : Nat := 2 ^ 63 - 1

def cmpOkSigned (c : Cmp) (v x : Int) : Bool :=
  match c with
  | .eq => v == x
  | .gt => v > x
  | .lt => v < x

/-- Whitespace among the first 256 characters. -/
def isWhitespaceByte (b : UInt8) : Bool :=
  (9 ≤ b && b ≤ 13) || b == 32 || b == 0x85 || b == 0xA0

def trimBytes (s : Bytes) : Bytes :=
  ((s.dropWhile isWhitespaceByte).reverse.dropWhile isWhitespaceByte).reverse

/-- Take every leading `0x` or `0X`, as `x` is, away. -/
def trimPair (x : UInt8) : Bytes → Bytes
  | 0x30 :: c :: s => if c = x then trimPair x s else 0x30 :: c :: s
  | s => s

def digitValue (radix : Nat) (b : UInt8) : Option Nat :=
  let value :=
    if 48 ≤ b ∧ b ≤ 57 then some (b.toNat - 48)
    else if 97 ≤ b ∧ b ≤ 102 then some (b.toNat - 87)
    else if 65 ≤ b ∧ b ≤ 70 then some (b.toNat - 55)
    else none
  value.filter fun v => v < radix

/-- The number written by the leading digits of `s`, when there are some and it
fits. -/
def parseDigits (radix : Nat) (s : Bytes) : Option Int :=
  let digits := (s.takeWhile fun b => (digitValue radix b).isSome).filterMap
    (digitValue radix)
  let v := digits.foldl (fun v d => v * radix + d) 0
  if digits = [] ∨ v > i64Max then none else some v

/-- The bytes of `s`, at most eight, as a signed number. -/
def rawValue (bigEndian : Bool) (s : Bytes) : Int :=
  let s := if bigEndian then s else s.reverse
  let v := (s.foldl (fun v b => v * 256 + b.toNat) 0) % 2 ^ 64
  if v > i64Max then (v : Int) - 2 ^ 64 else v

def BcompSub.value (b : BcompSub) (rest : Bytes) : Option Int :=
  match b.kind with
  | .raw =>
      if rest.length < b.numBytes then none
      else some (rawValue b.bigEndian rest)
  | kind =>
      if b.exact_ ∧ rest.length < b.numBytes then none
      else
        let s := trimBytes rest
        let radix :=
          match kind with
          | .hex => 16
          | .dec => 10
          | _ =>
              if s.take 2 = [0x30, 0x78] ∨ s.take 2 = [0x30, 0x58] then 16
              else 10
        parseDigits radix (trimPair 0x58 (trimPair 0x78 s))

/-- Read the value at `triggerOff` plus the offset and compare it. -/
def BcompSub.matches (b : BcompSub) (buf : Bytes) (triggerOff : Nat) : Bool :=
  let pos : Int := triggerOff + b.offset
  if triggerOff > i64Max ∨ pos < 0 ∨ pos > buf.length then false
  else
    match b.value (window buf pos.toNat b.numBytes) with
    | none => false
    | some v => b.cmps.all fun (c, x) => cmpOkSigned c v x

/-- The number of bits in which two hashes differ. -/
def hamming64 (a b : UInt64) : Nat :=
  ((List.range 64).filter fun i => (a ^^^ b).toNat.testBit i).length

/-! ## Signatures -/

/-- A logical signature. -/
structure Ldb where
  name : String
  target : Nat
  expr : Node
  firesOnEmpty : Bool
  subs : List SubSig
  fileSize : Option (Nat × Nat)
  container : ContainerReq
  intermediates : Option (List ClType)
  handlerType : Option FileType
  entryPoint : Option (Nat × Nat)
  numSections : Option (Nat × Nat)
  iconGroup : Option (Option String × Option String)
  unofficial : Bool
  bytecode : Option Nat

def targetOk (target : Nat) (ft : FileType) : Bool :=
  match target with
  | 0 => true
  | 1 => ft = .pe
  | 2 => ft = .ole
  | 6 => ft = .elf
  | 9 => ft = .machO
  | 10 => ft = .pdf
  | 3 => ft = .htmlView
  | 4 => ft = .email
  | 7 => ft = .textView
  | 12 => ft = .javaClass
  | 11 => ft = .swf
  | 5 => ft = .graphics
  | _ => false

namespace Ldb

variable (l : Ldb)

def sizeOk (len : Nat) : Bool :=
  match l.fileSize with
  | some (min, max) => len ≥ min && len ≤ max
  | none => true

def peShapeOk (layout : Option PeLayout) : Bool :=
  if l.entryPoint.isNone && l.numSections.isNone then true
  else
    match layout with
    | none => false
    | some layout =>
        (match l.entryPoint with
          | some (min, max) =>
              match layout.entry with
              | some e => e ≥ min && e ≤ max
              | none => false
          | none => true) &&
          match l.numSections with
          | some (min, max) =>
              let n := layout.sectionRawptrs.length
              !(n < min || n > max)
          | none => true

def containerOk (cur : Option ClType) : Bool :=
  match l.container with
  | .unconstrained => true
  | .inside req => cur == some req

/-- Whether the innermost of the containers are `want`, outermost first. -/
def ancestryEndsWith (ancestry : List (Option ClType)) (want : List ClType) :
    Bool :=
  ancestry.length ≥ want.length &&
    ((ancestry.drop (ancestry.length - want.length)).zip want).all
      fun (have_, w) => have_ == some w

def intermediatesOk (ancestry : List (Option ClType)) : Bool :=
  match l.intermediates with
  | none => true
  | some want => ancestryEndsWith ancestry want

def targetApplies (target : Nat) (obj : Object) : Bool :=
  targetOk target obj.ft || (target == 5 && obj.isImage)

/-- The conditions on the object that do not depend on matches. -/
def gatesOk (obj : Object) : Bool :=
  targetApplies l.target obj && l.sizeOk obj.buf.length &&
    l.peShapeOk obj.layout && l.containerOk obj.container &&
      l.intermediatesOk obj.ancestry

/-- The counts of the normal subsignatures; the others are zero so far. -/
def bodyCounts (bodyCount : Nat → Nat) (i : Nat) : Nat :=
  match l.subs[i]? with
  | some (.bodies ids) => totalCount bodyCount ids
  | _ => 0

/-- What is known of the counts of the other subsignatures before they are
evaluated. -/
def unknown (i : Nat) : Option Nat :=
  match l.subs[i]? with
  | some (.pcre p) => some (if p.global then u32Max else 1)
  | some (.bcomp _) => some 1
  | some (.fuzzy _ _) => some 1
  | _ => none

/-- Evaluate the subsignature `i` over the counts so far. -/
def evalSub (buf : Bytes) (bodyOff : Nat → Option Nat)
    (imgHash : Option UInt64) (c : Nat → Nat) (item : SubSig × Nat) :
    Nat → Nat :=
  let (s, i) := item
  let set (n : Nat) (j : Nat) := if j = i then n else c j
  match s with
  | .pcre p => if p.trigger.eval c then set (p.count buf) else c
  | .bcomp b =>
      if c b.trigger > 0 then
        match l.subs[b.trigger]? with
        | some (.bodies ids) =>
            match (ids.filterMap bodyOff).min? with
            | some off => if b.matches buf off then set 1 else c
            | none => c
        | _ => c
      else c
  | .fuzzy h dist =>
      match imgHash with
      | some hash => if hamming64 hash h ≤ dist then set 1 else c
      | none => c
  | .bodies _ => c

def subCounts (buf : Bytes) (bodyCount : Nat → Nat)
    (bodyOff : Nat → Option Nat) (imgHash : Option UInt64) : Nat → Nat :=
  l.subs.zipIdx.foldl (l.evalSub buf bodyOff imgHash) (l.bodyCounts bodyCount)

def iconOk (icon : Option (Option String → Option String → Bool)) : Bool :=
  match l.iconGroup with
  | none => true
  | some (g1, g2) =>
      match icon with
      | some matches_ => matches_ g1 g2
      | none => false

/-- Whether the signature holds of the matches of its bodies. -/
def eval (obj : Object) (bodyCount : Nat → Nat) (bodyOff : Nat → Option Nat)
    (imgHash : Option UInt64) : Bool :=
  if !l.expr.canBeTrue (l.bodyCounts bodyCount) l.unknown then false
  else if !l.expr.eval (l.subCounts obj.buf bodyCount bodyOff imgHash) then
    false
  else l.iconOk obj.icon

end Ldb

end Exav.Engine
