import Exav.Engine.Ldb
import Exav.Engine.Rarity

/-!
# Target descriptions

The second field of a logical signature holds attributes `Key:value`, separated
by commas, that narrow where the signature applies.  An attribute that cannot
be evaluated is told apart from one that is absent.
-/

namespace Exav.Engine

/-! ## Text -/

/-- What follows `head` in `s`. -/
def stripPrefix (head : String) (s : List Char) : Option (List Char) :=
  if head.toList.isPrefixOf s then some (s.drop head.toList.length) else none

/-- A number of `bits` bits in decimal, with an optional plus sign. -/
def parseUnsigned (bits : Nat) (s : List Char) : Option Nat :=
  (parseU64 s).filter (· < 2 ^ bits)

/-- The attributes of a target description. -/
def tdbFields (tdb : List Char) : List (List Char) :=
  (split ',' tdb).map trim

/-- The value of the first attribute `key`. -/
def tdbValue (tdb : List Char) (key : String) : Option (List Char) :=
  (tdbFields tdb).findSome? (stripPrefix (key ++ ":"))

/-! ## Types -/

/-- What a `CL_TYPE_*` token resolves to. -/
inductive ClTypeToken where
  | known (type : ClType)
  | any
  | unmodelled

def ClType.fromClToken (t : String) : ClTypeToken :=
  match t with
  | "CL_TYPE_ANY" => .any
  | "CL_TYPE_ZIP" => .known .zip
  | "CL_TYPE_OOXML_WORD" => .known .ooxmlWord
  | "CL_TYPE_OOXML_XL" => .known .ooxmlXl
  | "CL_TYPE_OOXML_PPT" => .known .ooxmlPpt
  | "CL_TYPE_MSOLE2" => .known .msole2
  | "CL_TYPE_MAIL" => .known .mail
  | "CL_TYPE_PDF" => .known .pdf
  | "CL_TYPE_MSCAB" => .known .mscab
  | "CL_TYPE_RAR" => .known .rar
  | "CL_TYPE_7Z" => .known .sevenZip
  | "CL_TYPE_ISO9660" => .known .iso
  | "CL_TYPE_LHA_LZH" => .known .lha
  | "CL_TYPE_POSIX_TAR" | "CL_TYPE_OLD_TAR" | "CL_TYPE_GNU_TAR" => .known .tar
  | "CL_TYPE_GZ" => .known .gzip
  | "CL_TYPE_BZ" => .known .bzip
  | "CL_TYPE_XZ" => .known .xz
  | "CL_TYPE_CPIO_NEWC" | "CL_TYPE_CPIO_CRC" | "CL_TYPE_CPIO_ODC"
  | "CL_TYPE_CPIO_OLD" => .known .cpio
  | "CL_TYPE_AR" => .known .ar
  | "CL_TYPE_ZSTD" => .known .zstd
  | "CL_TYPE_MSCHM" => .known .mschm
  | "CL_TYPE_DMG" => .known .dmg
  | "CL_TYPE_NULSFT" => .known .nulsft
  | "CL_TYPE_AUTOIT" => .known .autoit
  | "CL_TYPE_MSEXE" => .known .msExe
  | "CL_TYPE_RTF" => .known .rtf
  | "CL_TYPE_HTML" => .known .html
  | "CL_TYPE_XML_WORD" => .known .xmlWord
  | "CL_TYPE_XML_XL" => .known .xmlXl
  | "CL_TYPE_MHTML" => .known .mhtml
  | _ => .unmodelled

def clTypeToFiletype (t : String) : Option FileType :=
  match t with
  | "CL_TYPE_MSEXE" => some .pe
  | "CL_TYPE_ELF" => some .elf
  | "CL_TYPE_MACHO" | "CL_TYPE_MACHO_UNIBIN" => some .machO
  | "CL_TYPE_ZIP" => some .zip
  | "CL_TYPE_GZ" => some .gzip
  | "CL_TYPE_BZ" => some .bzip2
  | "CL_TYPE_XZ" => some .xz
  | "CL_TYPE_7Z" => some .sevenZip
  | "CL_TYPE_RAR" => some .rar
  | "CL_TYPE_MSCAB" => some .cab
  | "CL_TYPE_MSCHM" => some .chm
  | "CL_TYPE_POSIX_TAR" | "CL_TYPE_OLD_TAR" | "CL_TYPE_GNU_TAR" => some .tar
  | "CL_TYPE_PDF" => some .pdf
  | "CL_TYPE_MSOLE2" => some .ole
  | "CL_TYPE_MAIL" => some .email
  | "CL_TYPE_HTML" => some .html
  | "CL_TYPE_RTF" => some .rtf
  | "CL_TYPE_ISO9660" => some .iso
  | "CL_TYPE_LHA_LZH" => some .lha
  | "CL_TYPE_ARJ" | "CL_TYPE_ARJSFX" => some .arj
  | "CL_TYPE_CPIO_OLD" | "CL_TYPE_CPIO_ODC" | "CL_TYPE_CPIO_NEWC"
  | "CL_TYPE_CPIO_CRC" => some .cpio
  | "CL_TYPE_XAR" => some .xar
  | "CL_TYPE_GPT" | "CL_TYPE_MBR" | "CL_TYPE_APM" => some .partition
  | "CL_TYPE_SWF" => some .swf
  | "CL_TYPE_GRAPHICS" => some .graphics
  | "CL_TYPE_SCRIPT" => some .script
  | "CL_TYPE_TEXT_ASCII" | "CL_TYPE_TEXT_UTF8" | "CL_TYPE_TEXT_UTF16LE"
  | "CL_TYPE_TEXT_UTF16BE" => some .text
  | _ => none

/-! ## Attributes -/

def tdbImplemented : List String :=
  ["Target", "Engine", "FileSize", "Container", "IconGroup1", "IconGroup2",
    "EntryPoint", "NumberOfSections", "HandlerType", "Intermediates"]

/-- The section attributes, which the format names and no engine evaluates. -/
def tdbSectionAttrs : List String :=
  ["SectOff", "SectRVA", "SectVSZ", "SectRAW", "SectRSZ", "SectURVA",
    "SectUVSZ", "SectURAW", "SectURSZ"]

/-- The first attribute present that cannot be evaluated. -/
def unsupportedTdbAttr (tdb : List Char) : Option String :=
  (tdbFields tdb).findSome? fun field =>
    match splitOnce ':' field with
    | none => none
    | some (key, _) =>
        let key := String.ofList (trim key)
        if key ∈ tdbImplemented then none
        else if key ∈ tdbSectionAttrs then some key
        else some "unknown"

/-- State of a range attribute. -/
inductive TdbRange where
  | absent
  | range (min max : Nat)
  | malformed

/-- A run of digits as a number, which stops at the largest one; nothing is
zero. -/
def digitsOrEmpty (s : List Char) : Option Nat :=
  if s = [] then some 0
  else if s.all fun c => (digit c).isSome then
    some ((parseU64 s).getD (2 ^ 64 - 1))
  else none

/-- An inclusive range `min-max`. -/
def parseTdbRange (tdb : List Char) (attr : String) : TdbRange :=
  match tdbValue tdb attr with
  | none => .absent
  | some v =>
      match splitOnce '-' v with
      | none => .malformed
      | some (a, b) =>
          match digitsOrEmpty a, digitsOrEmpty b with
          | some min, some max => .range min max
          | _, _ => .malformed

def parseTdbFilesize (tdb : List Char) : TdbRange :=
  parseTdbRange tdb "FileSize"

/-- The engine levels a signature is for. -/
def parseTdbEngine (tdb : List Char) : Nat × Nat :=
  ((tdbFields tdb).findSome? fun field => do
    let v ← stripPrefix "Engine:" field
    let (a, b) ← splitOnce '-' (trim v)
    return ((parseUnsigned 32 (trim a)).getD 0,
      (parseUnsigned 32 (trim b)).getD u32Max)).getD (0, u32Max)

def parseTdbTarget (tdb : List Char) : Nat :=
  match tdbValue tdb "Target" with
  | some v => (parseUnsigned 8 (trim v)).getD 0
  | none => 0

/-- The container required; none when its type cannot be determined. -/
def parseTdbContainer (tdb : List Char) : Option ContainerReq :=
  match tdbValue tdb "Container" with
  | none => some .unconstrained
  | some v =>
      match ClType.fromClToken (String.ofList (trim v)) with
      | .known c => some (.inside c)
      | .any => some .unconstrained
      | .unmodelled => none

def parseTdbHandlerType (tdb : List Char) : Option String :=
  (tdbValue tdb "HandlerType").map fun v => String.ofList (trim v)

/-- Links of an ancestry chain. -/
def maxLinks : Nat := 16

/-- The ancestry required, if any; none when a link cannot be determined, or
there are too many or none. -/
def parseTdbIntermediates (tdb : List Char) : Option (Option (List ClType)) :=
  match tdbValue tdb "Intermediates" with
  | none => some none
  | some v => do
      let links := split '>' (trim v)
      let chain ← (links.take maxLinks).mapM fun link =>
        match ClType.fromClToken (String.ofList (trim link)) with
        | .known c => some [c]
        | .any => some []
        | .unmodelled => none
      if maxLinks < links.length ∨ chain.flatten = [] then none
      else return some chain.flatten

def parseTdbIcongroups (tdb : List Char) : Option String × Option String :=
  (tdbFields tdb).foldl
    (fun groups field =>
      match stripPrefix "IconGroup1:" field with
      | some v => (some (String.ofList v), groups.2)
      | none =>
          match stripPrefix "IconGroup2:" field with
          | some v => (groups.1, some (String.ofList v))
          | none => groups)
    (none, none)

/-! ## Engine levels -/

/-- The functionality level reported. -/
def exavFlevel : Nat := 213

def flevelOk (min max : Nat) : Bool :=
  exavFlevel ≥ min && exavFlevel ≤ max

/-- Signature names that are off by default. -/
def isPua (name : List Char) : Bool :=
  (stripPrefix "PUA." name).isSome

/-!
## The text of a logical expression

`parseExpr` reads the expression of a signature line: subsignature numbers and
groups joined by `&` and `|`, each with an optional comparison of its count.
-/

/-- The characters `u8::is_ascii_whitespace` accepts. -/
def isAsciiWhitespace (c : Char) : Bool :=
  c.toNat == 32 || c.toNat == 9 || c.toNat == 10 || c.toNat == 12 ||
    c.toNat == 13

def isDigit (c : Char) : Bool :=
  (digit c).isSome

/-- Parentheses a logical expression may nest. -/
def maxNesting : Nat := 64

mutual

/-- The subsignatures an expression names. -/
def Node.collectIds : Node → List Nat
  | .sub i => [i]
  | .subCmp i _ _ => [i]
  | .groupCmp ids _ _ _ => ids
  | .and v => Node.collectAll v
  | .or v => Node.collectAll v

def Node.collectAll : List Node → List Nat
  | [] => []
  | n :: v => n.collectIds ++ Node.collectAll v

end

/-- Every subsignature named is one of `nsubs`. -/
def Node.idsWithin (node : Node) (nsubs : Nat) : Bool :=
  node.collectIds.all (· < nsubs)

namespace Parser

def number (s : List Char) : Option Nat × List Char :=
  let (digits, rest) := s.span isDigit
  (parseU64 digits, rest)

/-- A count: past the largest one, no count is ever reached. -/
def count (s : List Char) : Option Nat × List Char :=
  let (n, rest) := number s
  (n.map (min · u32Max), rest)

/-- A comparison operator, equality also written `==`. -/
def comparison : List Char → Option (Cmp × List Char)
  | '=' :: '=' :: rest => some (.eq, rest)
  | '=' :: rest => some (.eq, rest)
  | '>' :: rest => some (.gt, rest)
  | '<' :: rest => some (.lt, rest)
  | _ => none

/-- `x` or `x,y` after a comparison operator. -/
def countArgs (s : List Char) : Option ((Nat × Option Nat) × List Char) :=
  match count s with
  | (none, _) => none
  | (some x, ',' :: rest) =>
      let (y, rest) := count rest
      some ((x, y), rest)
  | (some x, rest) => some ((x, none), rest)

/-- Discard a `:`-suffix on a subsignature reference. -/
def skipColonSuffix : List Char → List Char
  | ':' :: rest => rest.dropWhile fun c => c != '&' && c != '|' && c != ')'
  | s => s

def reference (s : List Char) : Option (Node × List Char) := do
  let (sub, rest) := number s
  let sub ← sub
  match comparison rest with
  | some (c, rest) => do
      let ((x, _), rest) ← countArgs rest
      return (.subCmp sub c x, rest)
  | none => return (.sub sub, skipColonSuffix rest)

def group (inner : Node) (s : List Char) : Option (Node × List Char) :=
  match comparison s with
  | some (c, rest) => do
      let ((x, y), rest) ← countArgs rest
      return (.groupCmp inner.collectIds c x y, rest)
  | none => some (inner, s)

mutual

/-- An expression; `fuel` is at least three more than three times the length of
the text. -/
def orExpr : (fuel depth : Nat) → List Char → Option (Node × List Char)
  | 0, _, _ => none
  | fuel + 1, depth, s => do
      let (first, s) ← andExpr fuel depth s
      let (more, s) ← orMore fuel depth s
      return (if more = [] then first else .or (first :: more), s)

def orMore : (fuel depth : Nat) → List Char → Option (List Node × List Char)
  | fuel + 1, depth, '|' :: s => do
      let (next, s) ← andExpr fuel depth s
      let (more, s) ← orMore fuel depth s
      return (next :: more, s)
  | 0, _, '|' :: _ => none
  | _, _, s => some ([], s)

def andExpr : (fuel depth : Nat) → List Char → Option (Node × List Char)
  | 0, _, _ => none
  | fuel + 1, depth, s => do
      let (first, s) ← atom fuel depth s
      let (more, s) ← andMore fuel depth s
      return (if more = [] then first else .and (first :: more), s)

def andMore : (fuel depth : Nat) → List Char → Option (List Node × List Char)
  | fuel + 1, depth, '&' :: s => do
      let (next, s) ← atom fuel depth s
      let (more, s) ← andMore fuel depth s
      return (next :: more, s)
  | 0, _, '&' :: _ => none
  | _, _, s => some ([], s)

def atom : (fuel depth : Nat) → List Char → Option (Node × List Char)
  | 0, _, _ => none
  | _ + 1, _, [] => none
  | fuel + 1, depth, c :: s =>
      if c = '(' then
        if depth ≥ maxNesting then none
        else
          match orExpr fuel (depth + 1) s with
          | some (inner, ')' :: rest) => group inner rest
          | _ => none
      else if isDigit c then reference (c :: s)
      else none

end

end Parser

def parseExpr (expr : List Char) : Option Node :=
  let tokens := expr.filter fun c => !isAsciiWhitespace c
  match Parser.orExpr (3 * tokens.length + 3) 0 tokens with
  | some (node, []) => some node
  | _ => none

/-!
## Subsignatures

A subsignature is a hex body with an offset and modifiers, a regular
expression, a byte comparison or an image hash.  A body with modifiers stands
for one compiled variant or two, of its ASCII and of its wide form.
-/

/-! ## Numbers and separators -/

/-- A signed 64-bit number. -/
def parseI64 (radix : Nat) (s : List Char) : Option Int :=
  let (negative, digits) := match s with
    | '-' :: rest => (true, rest)
    | '+' :: rest => (false, rest)
    | _ => (false, s)
  if digits = [] then none
  else do
    let values ← digits.mapM fun c => digitValue radix (UInt8.ofNat (min c.toNat 255))
    let n : Int := values.foldl (fun n d => n * radix + d) 0
    let n := if negative then -n else n
    if -2 ^ 63 ≤ n ∧ n < 2 ^ 63 then return n else none

/-- A number in decimal, or in hex after `0x`. -/
def parseNum (s : List Char) : Option Int :=
  match trim s with
  | '0' :: 'x' :: rest => parseI64 16 rest
  | '0' :: 'X' :: rest => parseI64 16 rest
  | s => parseI64 10 s

/-- What stands before and after the first `::`. -/
def splitDouble : List Char → Option (List Char × List Char)
  | ':' :: ':' :: rest => some ([], rest)
  | [] => none
  | c :: cs => (splitDouble cs).map fun (before, after) => (c :: before, after)

/-- What stands before and after the last `sep`. -/
def splitLast (sep : Char) (s : List Char) : Option (List Char × List Char) :=
  (splitOnce sep s.reverse).map fun (after, before) =>
    (before.reverse, after.reverse)

/-! ## Offsets -/

def parseDelta (s : List Char) : Option Int :=
  if s = [] then some 0 else parseI64 10 s

/-- The offset of a section, after its `S`. -/
def parseSection (rest : List Char) (shift : Nat) : Option OffsetKind :=
  match rest with
  | 'E' :: n => (parseU64 (trim n)).map .secIn
  | 'L' :: d => (parseDelta d).map (.secLast · shift)
  | _ => do
      let (idx, delta) := rest.span fun c => c != '+' && c != '-'
      let idx ← parseU64 idx
      let delta ← parseDelta delta
      return .sec idx delta shift

def parseOffset (s : List Char) : Option Offset :=
  let s := trim s
  if s = ['*'] then some .any
  else
    let (spec, shift) := match splitOnce ',' s with
      | some (a, b) => (trim a, (parseU64 (trim b)).getD 0)
      | none => (s, 0)
    (if spec = ['V', 'I'] then some .versionInfo
    else
      match stripPrefix "EOF-" spec, stripPrefix "EP" spec, spec with
      | some rest, _, _ => (parseU64 (trim rest)).map (.eof · shift)
      | none, some rest, _ => (parseDelta rest).map (.ep · shift)
      | none, none, 'S' :: rest => parseSection rest shift
      | none, none, _ => (parseU64 spec).map (.abs · shift)).map .constrained

/-! ## Bodies -/

/-- One compiled variant of a body. -/
structure Compiled where
  elems : List Elem
  anchor : Bytes
  chosen : Prefix
  nocase : Bool
  offset : Offset
  fullword : Bool

/-- The score of a literal before the set is known. -/
def parseScore (b : Bytes) : Int :=
  anchorScore b none

def compileWide (body : List Char) (allowInternal : Bool) :
    Option (List Elem × Bytes × Prefix) := do
  let elems ← parseElems body
  let elems := widenElems elems
  let chosen ← pickAnchor parseScore elems allowInternal
  match elems[chosen.anchorIdx]? with
  | some (.bytes anchor) => return (elems, anchor, chosen)
  | _ => none

/-- The text of a body subsignature: its offset, its hex body, its modifiers. -/
def subsigParts (s : List Char) :
    Option (List Char) × List Char × List Char :=
  let (core, flags) := (splitDouble s).getD (s, [])
  match splitOnce ':' core with
  | some (offset, body) => (some offset, body, flags)
  | none => (none, core, flags)

def bodyForms (ascii wide : Bool) (body : List Char) (allowInternal : Bool) :
    Option (List (List Elem × Bytes × Prefix)) :=
  let plain :=
    if ascii then (compileBody parseScore body allowInternal).map ([·])
    else some []
  let widened :=
    if wide then
      match compileWide body allowInternal with
      | some form => some [form]
      -- The ASCII form stands alone where the wide one cannot be anchored.
      | none => if ascii then some [] else none
    else some []
  plain.bind fun plain => widened.map (plain ++ ·)

def parseSubsig (s : List Char) : Option (List Compiled) :=
  if s = [] ∨ '/' ∈ s then none
  else do
    let (offsetText, body, flags) := subsigParts s
    let offset ← offsetText.elim (some .any) parseOffset
    let wide := flags.contains 'w'
    let ascii := flags.contains 'a' || !wide
    let forms ← bodyForms ascii wide body (offset == .any)
    let out := forms.map fun form : List Elem × Bytes × Prefix =>
      (⟨form.1, form.2.1, form.2.2, flags.contains 'i', offset,
        flags.contains 'f'⟩ : Compiled)
    if out.isEmpty then none else some out

/-- A variant keeps the offset and the modifiers a body subsignature is written
with, and is its ASCII or its wide form, whichever it is written to have. -/
structure Compiled.Of (s : List Char) (v : Compiled) : Prop where
  offset : ((subsigParts s).1.elim (some .any) parseOffset) = some v.offset
  nocase : v.nocase = (subsigParts s).2.2.contains 'i'
  fullword : v.fullword = (subsigParts s).2.2.contains 'f'
  form : ∃ elems, parseElems (subsigParts s).2.1 = some elems ∧
    (v.elems = elems ∧ ((subsigParts s).2.2.contains 'a' ||
        !(subsigParts s).2.2.contains 'w') = true ∨
      v.elems = widenElems elems ∧ (subsigParts s).2.2.contains 'w' = true)

theorem compileBody_elems {score : Bytes → Int} {hex : List Char}
    {allowInternal : Bool} {form : List Elem × Bytes × Prefix}
    (compiled : compileBody score hex allowInternal = some form) :
    parseElems hex = some form.1 := by
  unfold compileBody at compiled
  simp only [Option.bind_eq_bind, Option.bind_eq_some_iff] at compiled
  obtain ⟨elems, parsed, chosen, _, found⟩ := compiled
  split at found
  · cases found
    exact parsed
  · cases found

theorem compileWide_elems {hex : List Char} {allowInternal : Bool}
    {form : List Elem × Bytes × Prefix}
    (compiled : compileWide hex allowInternal = some form) :
    ∃ elems, parseElems hex = some elems ∧ form.1 = widenElems elems := by
  unfold compileWide at compiled
  simp only [Option.bind_eq_bind, Option.bind_eq_some_iff] at compiled
  obtain ⟨elems, parsed, chosen, _, found⟩ := compiled
  split at found
  · cases found
    exact ⟨elems, parsed, rfl⟩
  · cases found

theorem of_mem_bodyForms {ascii wide allowInternal : Bool} {body : List Char}
    {forms : List (List Elem × Bytes × Prefix)}
    {form : List Elem × Bytes × Prefix}
    (compiled : bodyForms ascii wide body allowInternal = some forms)
    (member : form ∈ forms) :
    ∃ elems, parseElems body = some elems ∧
      (form.1 = elems ∧ ascii = true ∨
        form.1 = widenElems elems ∧ wide = true) := by
  unfold bodyForms at compiled
  simp only [Option.bind_eq_some_iff, Option.map_eq_some_iff] at compiled
  obtain ⟨plain, asciiForm, widened, wideForm, rfl⟩ := compiled
  rcases List.mem_append.mp member with inPlain | inWide
  · cases ascii with
    | false =>
        cases asciiForm
        cases inPlain
    | true =>
        obtain ⟨one, found, rfl⟩ := Option.map_eq_some_iff.mp asciiForm
        cases List.mem_singleton.mp inPlain
        exact ⟨_, compileBody_elems found, Or.inl ⟨rfl, rfl⟩⟩
  · cases wide with
    | false =>
        cases wideForm
        cases inWide
    | true =>
        simp only [if_true] at wideForm
        split at wideForm
        next one found =>
          cases wideForm
          cases List.mem_singleton.mp inWide
          obtain ⟨elems, parsed, same⟩ := compileWide_elems found
          exact ⟨elems, parsed, Or.inr ⟨same, rfl⟩⟩
        next =>
          split at wideForm
          · cases wideForm
            cases inWide
          · cases wideForm

/-- A body subsignature that is read has a variant, and each of its variants
keeps what the text says. -/
theorem parseSubsig_of {s : List Char} {variants : List Compiled}
    (parsed : parseSubsig s = some variants) :
    variants ≠ [] ∧ ∀ v ∈ variants, v.Of s := by
  unfold parseSubsig at parsed
  split at parsed
  · cases parsed
  · simp only [Option.bind_eq_bind, Option.bind_eq_some_iff] at parsed
    obtain ⟨offset, offsetRead, forms, compiled, out⟩ := parsed
    split at out
    next => cases out
    next filled =>
      cases out
      refine ⟨fun empty => filled (by rw [empty]; rfl), ?_⟩
      intro v member
      obtain ⟨form, inForms, rfl⟩ := List.mem_map.mp member
      exact ⟨offsetRead, rfl, rfl, of_mem_bodyForms compiled inForms⟩

/-! ## Image hashes, byte comparisons -/

def hexByte (a b : Char) : Option Nat :=
  match a with
  | '+' => (nibble b).map UInt8.toNat
  | _ => do
      let hi ← nibble a
      let lo ← nibble b
      return hi.toNat * 16 + lo.toNat

def hexBytes : List Char → Option (List Nat)
  | a :: b :: rest => do
      let byte ← hexByte a b
      let bytes ← hexBytes rest
      return byte :: bytes
  | _ => some []

def parseFuzzySubsig (rest : List Char) : Option (UInt64 × Nat) := do
  let parts := split '#' rest
  let hash := parts.headD []
  let dist ← match parts[1]? with
    | some d => parseUnsigned 32 (trim d)
    | none => some 0
  if 2 < parts.length ∨ hash.length ≠ 16 ∨ hash.any (·.toNat ≥ 128) then none
  else
    let bytes ← hexBytes hash
    return (UInt64.ofNat (bytes.foldl (fun v b => v * 256 + b) 0), dist)

def parseComparison (set : List Char) : Option (Cmp × Int) :=
  match trim set with
  | '<' :: val => (parseNum val).map (.lt, ·)
  | '>' :: val => (parseNum val).map (.gt, ·)
  | '=' :: val => (parseNum val).map (.eq, ·)
  | _ => none

def parseBcompKind : List Char → Option (BcompKind × List Char)
  | 'h' :: rest => some (.hex, rest)
  | 'd' :: rest => some (.dec, rest)
  | 'a' :: rest => some (.auto, rest)
  | 'i' :: rest => some (.raw, rest)
  | _ => none

/-- An offset from the trigger, forwards or backwards. -/
def parseBcompOffset (text : List Char) : Option Int :=
  match stripPrefix ">>" text, stripPrefix "<<" text with
  | some n, _ => parseNum n
  | none, some n =>
      (parseNum n).bind fun mag => if mag = -2 ^ 63 then none else some (-mag)
  | none, none => none

/-- The options of a byte comparison: kind, byte order, whether the width is
exact, and the width. -/
def parseBcompOptions (opts : List Char) :
    Option (BcompKind × Bool × Bool × Nat) := do
  let (kind, rest) ← parseBcompKind opts
  let (bigEndian, rest) := match rest with
    | 'l' :: rest => (false, rest)
    | 'b' :: rest => (true, rest)
    | _ => (kind == BcompKind.dec, rest)
  let (exact, rest) := match rest with
    | 'e' :: rest => (true, rest)
    | _ => (kind == BcompKind.raw, rest)
  let numBytes ← parseNum rest
  if numBytes ≤ 0 ∨ numBytes > 1024 then none
  else if kind = BcompKind.raw ∧ numBytes ∉ [1, 2, 4, 8] then none
  else return (kind, bigEndian, exact, numBytes.toNat)

/-- A byte comparison `subsigid(offset#byte_options#comparisons)`. -/
def parseBcompSubsig (s : List Char) : Option BcompSub := do
  let (head, tail) ← splitOnce '(' s
  if tail.getLast? ≠ some ')' then none
  else
    let trigger ← parseU64 (trim head)
    match split '#' tail.dropLast with
    | [offText, optsText, cmpsText] => do
        let offset ← parseBcompOffset offText
        let (kind, bigEndian, exact, numBytes) ← parseBcompOptions optsText
        let cmps ← (split ',' cmpsText).mapM parseComparison
        if cmps.isEmpty ∨ 2 < cmps.length then none
        else return ⟨trigger, offset, kind, bigEndian, numBytes, exact, cmps⟩
    | _ => none

/-! ## Regular expressions -/

/-- The options a pattern is translated under. -/
structure PcreFlags where
  caseless : Bool
  dotall : Bool
  multiline : Bool
  extended : Bool
  dollarEndonly : Bool
  ungreedy : Bool

structure PcreRun where
  offset : Offset
  global : Bool
  rolling : Bool
  encompass : Bool
  anchored : Bool

/-- What a build brings: whether it hashes images, and its regex engine, which
translates a pattern or says why not, and counts the matches of one. -/
structure Features where
  imageHash : Bool
  Pattern : Type
  translate : List Char → PcreFlags → Except String Pattern
  count : Pattern → PcreRun → Bytes → Nat
  small : ∀ pattern run buf, count pattern run buf ≤ u32Max

variable (features : Features)

def malformedPcre : String := "ldb: malformed PCRE subsignature"

/-- `[Offset:]Trigger/PCRE/[flags]`, or why it is refused. -/
def parsePcre (s : List Char) : Except String PcreSub := do
  let (head, rest) ← (splitOnce '/' s).elim (.error malformedPcre) .ok
  let (pattern, flags) ← (splitLast '/' rest).elim (.error malformedPcre) .ok
  let (offset, triggerText) ← match splitOnce ':' head with
    | some (o, t) =>
        (parseOffset o).elim (.error malformedPcre) fun offset =>
          .ok (offset, t)
    | none => .ok (.any, head)
  match offset with
  | .any | .constrained (.abs _ _) | .constrained (.eof _ _) => pure ()
  | _ => throw "ldb: PCRE subsignature offset relative to a PE layout"
  let trigger ← (parseExpr triggerText).elim (.error malformedPcre) .ok
  if pattern = [] then throw malformedPcre
  if !flags.all ("greismxAEU".toList.contains ·) then
    throw "ldb: unknown PCRE subsignature flag"
  let translated ← features.translate pattern
    { caseless := flags.contains 'i', dotall := flags.contains 's'
      multiline := flags.contains 'm', extended := flags.contains 'x'
      dollarEndonly := flags.contains 'E', ungreedy := flags.contains 'U' }
  let run : PcreRun :=
    { offset := offset, global := flags.contains 'g'
      rolling := flags.contains 'r', encompass := flags.contains 'e'
      anchored := flags.contains 'A' }
  return ⟨trigger, flags.contains 'g', features.count translated run,
    features.small translated run⟩

/-! ## Classification -/

/-- A subsignature parsed but not yet committed to the engine. -/
inductive ParsedSub where
  | bodies (variants : List Compiled)
  | pcre (p : PcreSub)
  | bcomp (b : BcompSub)
  | fuzzy (hash : UInt64) (dist : Nat)

def classifySubsig (s : List Char) : Option ParsedSub :=
  match stripPrefix "fuzzy_img#" s with
  | some rest =>
      if features.imageHash then
        (parseFuzzySubsig rest).map fun (hash, dist) => .fuzzy hash dist
      else none
  | none =>
      match parseBcompSubsig s with
      | some b => some (.bcomp b)
      | none =>
          if '/' ∈ s then
            match parsePcre features s with
            | .ok p => some (.pcre p)
            | .error _ => none
          else (parseSubsig s).map .bodies

/-- Why a subsignature is refused. -/
def classifyFailureReason (s : List Char) : String :=
  if (stripPrefix "fuzzy_img#" s).isSome then
    if features.imageHash then "ldb: malformed fuzzy_img# subsignature"
    else "ldb: fuzzy_img# subsignature in a build without image-hash"
  else
    let byteCompare := match splitOnce '(' s with
      | some (head, tail) =>
          !head.isEmpty && head.all isDigit && tail.count '#' ≥ 2
      | none => false
    if byteCompare then "ldb: unsupported byte-compare subsignature"
    else if '/' ∈ s then
      match parsePcre features s with
      | .ok _ => "ldb: unsupported PCRE subsignature"
      | .error reason => reason
    else if '(' ∈ s ∧ '|' ∈ s then
      "ldb: unsupported alternation in pattern body"
    else "ldb: subsignature body has no usable literal anchor"

end Exav.Engine
