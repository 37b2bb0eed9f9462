import Exav.Bytecode.Machine

/-!
# The host API

What a program calls by number.  A call reads and writes memory through the
pointers it is given, and reads the file at the cursor.
-/

namespace Exav.Bytecode

inductive Api where
  | setVirusName | read | seek | fileByteAt | fileFind | fileFindLimit
  | readNumber | getPeSection | peRawaddr | disasmX86 | malloc | write
  | extractNew | memstr | engineFunctionalityLevel | engineDconfLevel
  | getEnvironment | matchIcon | pdfGetPhase | pdfGetFlags | pdfGetOffset
  | pdfGetObjSize | pdfGetObjId | pdfLookupObj | fillBuffer
  | isin | icos | iexp | ipow | ilog2 | atoi | hex2ui | versionCompare
  | entropyBuffer | debug | stubZero | stubNeg | stubNull | unsupported
  deriving DecidableEq

def apiNames : List (String × Api) :=
  [("setvirusname", .setVirusName), ("read", .read), ("seek", .seek),
   ("file_byteat", .fileByteAt), ("file_find", .fileFind),
   ("file_find_limit", .fileFindLimit), ("read_number", .readNumber),
   ("get_pe_section", .getPeSection), ("pe_rawaddr", .peRawaddr),
   ("disasm_x86", .disasmX86), ("malloc", .malloc), ("write", .write),
   ("extract_new", .extractNew), ("memstr", .memstr),
   ("engine_dconf_level", .engineDconfLevel),
   ("get_environment", .getEnvironment), ("matchicon", .matchIcon),
   ("pdf_get_phase", .pdfGetPhase), ("pdf_get_flags", .pdfGetFlags),
   ("pdf_get_offset", .pdfGetOffset), ("pdf_getobjsize", .pdfGetObjSize),
   ("pdf_getobjid", .pdfGetObjId), ("fill_buffer", .fillBuffer),
   ("pdf_lookupobj", .pdfLookupObj),
   ("engine_functionality_level", .engineFunctionalityLevel),
   ("isin", .isin), ("icos", .icos), ("iexp", .iexp), ("ipow", .ipow),
   ("ilog2", .ilog2), ("atoi", .atoi), ("hex2ui", .hex2ui),
   ("version_compare", .versionCompare), ("entropy_buffer", .entropyBuffer)]

def debugNames : List String :=
  ["debug_print_str", "debug_print_str_start", "debug_print_str_nonl",
   "debug_print_uint", "bytecode_rt_error"]

def stubZeroNames : List String :=
  ["check_platform", "running_on_jit", "disable_bytecode_if",
   "disable_jit_if", "engine_db_options", "engine_scan_options",
   "engine_scan_options_ex", "get_file_reliability", "input_switch",
   "test1", "test2", "trace_directory", "trace_op", "trace_ptr",
   "trace_scope", "trace_source", "trace_value", "extract_set_container",
   "pdf_set_flags", "pdf_setobjflags", "pdf_getobjflags",
   "pdf_get_flags_unused", "json_is_active", "hashset_done", "map_done",
   "buffer_pipe_done", "inflate_done", "bzip2_done", "lzma_done",
   "jsnorm_done", "buffer_pipe_read_stopped", "buffer_pipe_write_stopped",
   "buffer_pipe_read_avail", "buffer_pipe_write_avail", "pdf_get_obj_num"]

def stubNegNames : List String :=
  ["hashset_new", "hashset_add", "hashset_contains", "hashset_remove",
   "hashset_empty", "map_new", "map_addkey", "map_find", "map_setvalue",
   "map_getvaluesize", "map_remove", "buffer_pipe_new",
   "buffer_pipe_new_fromfile", "inflate_init", "inflate_process",
   "bzip2_init", "bzip2_process", "lzma_init", "lzma_process",
   "jsnorm_init", "jsnorm_process", "json_get_object",
   "json_get_array_idx", "json_get_array_length", "json_get_boolean",
   "json_get_int", "json_get_string", "json_get_string_length",
   "json_get_type", "pdf_get_dumpedobjid"]

def stubNullNames : List String :=
  ["buffer_pipe_read_get", "buffer_pipe_write_get", "map_getvalue",
   "pdf_getobj"]

def apiOf (name : String) : Api :=
  match apiNames.find? (·.1 == name) with
  | some (_, api) => api
  | none =>
      if name ∈ debugNames then .debug
      else if name ∈ stubZeroNames then .stubZero
      else if name ∈ stubNegNames then .stubNeg
      else if name ∈ stubNullNames then .stubNull
      else .unsupported

/-- The name a call's number was declared under. -/
def declared (ctx : Ctx) (func : Nat) : Option String :=
  (ctx.apis.find? fun (id, _) => id == min (func + 1) (2 ^ 32 - 1)).map (·.2)

def apiFor (ctx : Ctx) (func : Nat) : Api :=
  ((declared ctx func).map apiOf).getD .unsupported

/-- An API answered with a made-up value. -/
def Api.fabricates : Api → Bool
  | .stubNeg | .stubNull | .getEnvironment | .matchIcon | .fillBuffer => true
  | _ => false

/-- A made-up answer is recorded by name. -/
def noteStub (name : String) : Run Unit :=
  modify fun m => { m with stubbed := m.stubbed.insert name }

/-! ## Reading arguments -/

def arg (args : List Operand) (i : Nat) : Operand :=
  args[i]?.getD (.const 0)

/-- A count: negative values are none. -/
def count (v : Word) : Nat :=
  v.toInt.toNat

def ofNat (n : Nat) : Word :=
  BitVec.ofNat 64 n

def arg3 (ctx : Ctx) (fi : Nat) (args : List Operand) :
    Run (Word × Word × Word) := do
  let a ← valueNat ctx fi (arg args 0)
  let b ← valueNat ctx fi (arg args 1)
  let c ← valueNat ctx fi (arg args 2)
  pure (a, b, c)

/-! ## What the calls compute -/

def isDigit (b : UInt8) : Bool :=
  48 ≤ b && b ≤ 57

def hexNibble (c : UInt8) : Option UInt8 :=
  if 48 ≤ c ∧ c ≤ 57 then some (c - 48)
  else if 97 ≤ c ∧ c ≤ 102 then some (c - 97 + 10)
  else if 65 ≤ c ∧ c ≤ 70 then some (c - 65 + 10)
  else none

def isSpace (b : UInt8) : Bool :=
  b = 32 || b = 9 || b = 10 || b = 12 || b = 13

/-- The number some digits write, if it is an `i64`. -/
def numberOf (radix : Nat) (digits : Bytes) : Option Nat :=
  digits.foldl (fun v b =>
    v.bind fun v =>
      let v := v * radix + ((hexNibble b).getD 0).toNat
      if v < 2 ^ 63 then some v else none) (some 0)

/-- The first run of digits in some bytes: how many bytes stand before it, and
the run. -/
def digitRun (radix : Nat) (bytes : Bytes) : Nat × Bytes :=
  let digit := fun b => isDigit b || (radix = 16 && (hexNibble b).isSome)
  let before := bytes.takeWhile fun b => !digit b
  (before.length, (bytes.drop before.length).takeWhile digit)

def readNumber (ctx : Ctx) (radix : Nat) : Run Word := do
  let m ← get
  let (before, digits) := digitRun radix (ctx.file.drop m.cursor)
  if digits.isEmpty then pure (-1)
  else do
    modify fun m => { m with cursor := m.cursor + before + digits.length }
    pure (ofNat ((numberOf radix digits).getD 0))

def atoiOf (bytes : Bytes) : Word :=
  let s := bytes.dropWhile isSpace
  let s := if s.head? = some 43 then s.tail else s
  let digits := s.takeWhile isDigit
  if digits.isEmpty then -1
  else ((numberOf 10 digits).map ofNat).getD (-1)

/-- The bytes two strings share up to their first digit or difference are
dropped. -/
def dropShared : Bytes → Bytes → Bytes × Bytes
  | a :: l, b :: r =>
      if a = b ∧ isDigit a = false then dropShared l r else (a :: l, b :: r)
  | l, r => (l, r)

def saturatingNumber (digits : Bytes) : Nat :=
  digits.foldl (fun v b => saturatingAdd (saturatingMul v 10) (b.toNat - 48)) 0

def versionCompareFrom : (rounds : Nat) → Bytes → Bytes → Word
  | 0, _, _ => 0
  | rounds + 1, l, r =>
      match dropShared l r with
      | ([], []) => 0
      | ([], _ :: _) => -1
      | (_ :: _, []) => 1
      | (a :: l, b :: r) =>
          if !isDigit a || !isDigit b then
            if a < b then -1 else 1
          else
            let li := saturatingNumber ((a :: l).takeWhile isDigit)
            let ri := saturatingNumber ((b :: r).takeWhile isDigit)
            if li ≠ ri then
              if li < ri then -1 else 1
            else
              versionCompareFrom rounds ((a :: l).dropWhile isDigit)
                ((b :: r).dropWhile isDigit)

/-- Dotted version strings, by their numbers. -/
def versionCompare (l r : Bytes) : Word :=
  versionCompareFrom (l.length + 1) l r

def findSub (hay needle : Bytes) : Option Nat :=
  if needle.isEmpty || hay.length < needle.length then none
  else find hay needle 0 hay.length

def position (found : Option Nat) : Word :=
  (found.map ofNat).getD (-1)

/-- A relative address as a position in the file. -/
def BcPe.rawaddr (pe : BcPe) (rva fileSize : Nat) : Option Nat :=
  if rva < pe.hdrSize then
    if fileSize ≤ rva then none else some rva
  else
    match pe.sections.reverse.find? fun s =>
        s.rsz ≠ 0 && s.rva ≤ rva && rva - s.rva < s.rsz with
    | some s =>
        if rva - s.rva + s.raw < 2 ^ 32 then some (rva - s.rva + s.raw)
        else none
    | none => none

/-- A section as the program reads it: nine little-endian words. -/
def Section.bytes (s : Section) : Bytes :=
  [s.rva, s.vsz, s.raw, s.rsz, s.chr, s.rva, s.vsz, s.raw, s.rsz].flatMap
    fun field => toLe 4 (ofNat field)

def PdfCtx.objSize (pdf : PdfCtx) (i : Nat) : Nat :=
  let start := fun i => (pdf.objs[i]?.map (·.2)).getD 0
  if i + 1 = pdf.objs.length then pdf.size - start i
  else start (i + 1) - start i - 4

/-- An object of the file by the index a program gives. -/
def pdfObj (ctx : Ctx) (v : Word) : Option (PdfCtx × Nat × Nat × Nat) :=
  if v.toInt < 0 then none
  else do
    let pdf ← ctx.pdf
    let (id, start) ← pdf.objs[v.toNat]?
    some (pdf, v.toNat, id, start)

/-! ## The calls -/

def setVirusName (ctx : Ctx) (fi : Nat) (args : List Operand) : Run Word := do
  let name ← match args.head? with
    | some op => do
        let p ← ptr ctx fi op
        readCString ctx p
    | none => pure none
  modify fun m => { m with
    detection := some ((name.filter (· ≠ "")).getD ctx.defaultName) }
  pure 0

def readFile (ctx : Ctx) (fi : Nat) (args : List Operand) : Run Word := do
  let size ← valueNat ctx fi (arg args 1)
  let m ← get
  let bytes := window ctx.file m.cursor (count size)
  match args.head? with
  | some op => do
      let p ← ptr ctx fi op
      writeRegion p bytes
  | none => pure ()
  modify fun m => { m with cursor := m.cursor + bytes.length }
  pure (ofNat bytes.length)

def seekFile (ctx : Ctx) (fi : Nat) (args : List Operand) : Run Word := do
  let off ← valueNat ctx fi (arg args 0)
  let whence ← valueNat ctx fi (arg args 1)
  let m ← get
  let base : Int :=
    if whence = 1 then m.cursor else if whence = 2 then ctx.file.length else 0
  let pos := base + off.toInt
  if 0 ≤ pos ∧ pos ≤ ctx.file.length then do
    modify fun m => { m with cursor := pos.toNat }
    pure (ofNat pos.toNat)
  else pure (-1)

def fileByteAt (ctx : Ctx) (fi : Nat) (args : List Operand) : Run Word := do
  let off ← valueNat ctx fi (arg args 0)
  if off.toInt < 0 then pure (-1)
  else pure ((ctx.file[off.toNat]?.map fun b => ofNat b.toNat).getD (-1))

def fileFind (ctx : Ctx) (fi : Nat) (limited : Bool) (args : List Operand) :
    Run Word := do
  let len ← valueNat ctx fi (arg args 1)
  let limit ← if limited then do
      let limit ← valueNat ctx fi (arg args 2)
      pure (count limit)
    else pure ctx.file.length
  if count len = 0 ∨ 1024 < count len then pure (-1)
  else do
    let p ← ptr ctx fi (arg args 0)
    let pat ← readRegion ctx p (count len)
    if pat.length ≠ count len then pure (-1)
    else do
      let m ← get
      pure (position (find ctx.file pat m.cursor (min limit ctx.file.length)))

def getPeSection (ctx : Ctx) (fi : Nat) (args : List Operand) : Run Word := do
  let num ← valueNat ctx fi (arg args 1)
  match ctx.pe with
  | none => pure (-1)
  | some pe =>
      match if num.toInt < 0 then none else pe.sections[num.toNat]? with
      | none => pure (-1)
      | some s => do
          let p ← ptr ctx fi (arg args 0)
          writeRegion p s.bytes
          pure 0

def disasmX86 (ctx : Ctx) (fi : Nat) (args : List Operand) : Run Word := do
  let m ← get
  match ctx.host.disasmOne (window ctx.file m.cursor 32) with
  | some (res, len) => do
      let p ← ptr ctx fi (arg args 0)
      writeRegion p res
      pure (ofNat (m.cursor + len))
  | none => do
      flag
      pure (-1)

/-- A write past a limit of the scan is refused, and the run goes on. -/
def writeOut (ctx : Ctx) (fi : Nat) (args : List Operand) : Run Word := do
  let len ← valueNat ctx fi (arg args 1)
  let p ← ptr ctx fi (arg args 0)
  let bytes ← readRegion ctx p (count len)
  let m ← get
  if ctx.writeLimits.file < m.extractCur.length + bytes.length ∨
      ctx.writeLimits.total < saturatingAdd m.written bytes.length then do
    modify fun m => { m with limited := true }
    pure (-1)
  else if maxAlloc < m.extractCur.length + bytes.length then do
    gap
    pure (-1)
  else do
    modify fun m => { m with
      extractCur := m.extractCur ++ bytes
      written := m.written + bytes.length }
    pure (ofNat bytes.length)

/-- The output in progress, put with the finished ones. -/
def flush : Run Unit :=
  modify fun m =>
    if m.extractCur.isEmpty then m
    else { m with extracted := m.extracted ++ [m.extractCur], extractCur := [] }

def memstr (ctx : Ctx) (fi : Nat) (args : List Operand) : Run Word := do
  let hp ← ptr ctx fi (arg args 0)
  let hlen ← valueNat ctx fi (arg args 1)
  let np ← ptr ctx fi (arg args 2)
  let nlen ← valueNat ctx fi (arg args 3)
  if count nlen = 0 ∨ count hlen < count nlen then pure (-1)
  else do
    let hay ← readRegion ctx hp (count hlen)
    let needle ← readRegion ctx np (count nlen)
    pure (position (findSub hay needle))

def getEnvironment (ctx : Ctx) (fi : Nat) (args : List Operand) :
    Run Word := do
  let len ← valueNat ctx fi (arg args 1)
  let p ← ptr ctx fi (arg args 0)
  writeRegion p (List.replicate (min (count len) maxAlloc) 0)
  pure 0

/-- A function of three numbers, of which the second divides. -/
def scaled (ctx : Ctx) (fi : Nat) (args : List Operand)
    (f : Word → Word → Word → Word) : Run Word := do
  let (a, b, c) ← arg3 ctx fi args
  pure (if b = 0 then 0x7fffffff else f a b c)

def callApi (ctx : Ctx) (fi : Nat) (api : Api) (args : List Operand) :
    Run Word :=
  match api with
  | .setVirusName => setVirusName ctx fi args
  | .read => readFile ctx fi args
  | .seek => seekFile ctx fi args
  | .fileByteAt => fileByteAt ctx fi args
  | .fileFind => fileFind ctx fi false args
  | .fileFindLimit => fileFind ctx fi true args
  | .readNumber => do
      let radix ← valueNat ctx fi (args[0]?.getD (.const 10))
      if radix ≠ 10 ∧ radix ≠ 16 then pure (-1)
      else readNumber ctx radix.toNat
  | .getPeSection => getPeSection ctx fi args
  | .peRawaddr => do
      let rva ← valueNat ctx fi (arg args 0)
      pure (((ctx.pe.bind fun pe =>
        pe.rawaddr (rva.toNat % 2 ^ 32) ctx.file.length).map ofNat).getD
          0xffffffff)
  | .disasmX86 => disasmX86 ctx fi args
  | .malloc => do
      let size ← valueNat ctx fi (arg args 0)
      malloc ctx size
  | .write => writeOut ctx fi args
  | .extractNew => do
      flush
      pure 0
  | .memstr => memstr ctx fi args
  | .engineFunctionalityLevel => pure (ofNat ctx.flevel)
  | .engineDconfLevel => pure (ofNat ctx.flevel)
  | .getEnvironment => getEnvironment ctx fi args
  | .matchIcon => pure (-1)
  | .pdfGetPhase => pure (if ctx.pdf.isSome then 1 else 0)
  | .pdfGetFlags => pure 0
  | .pdfLookupObj => do
      let objid ← valueNat ctx fi (arg args 0)
      pure (position (ctx.pdf.bind fun pdf =>
        pdf.objs.findIdx? fun obj => obj.1 == objid.toNat % 2 ^ 32))
  | .pdfGetObjSize => do
      let idx ← valueNat ctx fi (arg args 0)
      pure (((pdfObj ctx idx).map fun (pdf, i, _) =>
        ofNat (pdf.objSize i)).getD 0)
  | .pdfGetOffset => do
      let idx ← valueNat ctx fi (arg args 0)
      pure (((pdfObj ctx idx).map fun (_, _, _, start) =>
        ofNat start).getD (-1))
  | .pdfGetObjId => do
      let idx ← valueNat ctx fi (arg args 0)
      pure (((pdfObj ctx idx).map fun (_, _, id, _) =>
        ofNat (id * 256)).getD (-1))
  | .fillBuffer => pure 0
  | .isin => scaled ctx fi args ctx.host.isin
  | .icos => scaled ctx fi args ctx.host.icos
  | .iexp => scaled ctx fi args ctx.host.iexp
  | .ipow => do
      let (a, b, c) ← arg3 ctx fi args
      pure (if a = 0 ∧ b.toInt < 0 then 0x7fffffff
        else ctx.host.ipow a b c)
  | .ilog2 => do
      let a ← valueNat ctx fi (arg args 0)
      let b ← valueNat ctx fi (arg args 1)
      pure (if b = 0 then 0x7fffffff else ctx.host.ilog2 a b)
  | .atoi => do
      let p ← ptr ctx fi (arg args 0)
      let len ← valueNat ctx fi (arg args 1)
      let bytes ← readRegion ctx p (count len)
      pure (atoiOf bytes)
  | .hex2ui => do
      let h ← valueNat ctx fi (arg args 0)
      let l ← valueNat ctx fi (arg args 1)
      match hexNibble (UInt8.ofBitVec (h.setWidth 8)),
          hexNibble (UInt8.ofBitVec (l.setWidth 8)) with
      | some hi, some lo => pure (ofNat (hi.toNat * 16 + lo.toNat))
      | _, _ => pure (-1)
  | .versionCompare => do
      let lp ← ptr ctx fi (arg args 0)
      let ll ← valueNat ctx fi (arg args 1)
      let rp ← ptr ctx fi (arg args 2)
      let rl ← valueNat ctx fi (arg args 3)
      let l ← readRegion ctx lp (count ll)
      let r ← readRegion ctx rp (count rl)
      pure (versionCompare l r)
  | .entropyBuffer => do
      let p ← ptr ctx fi (arg args 0)
      let len ← valueNat ctx fi (arg args 1)
      if len.toInt ≤ 0 then pure (-1)
      else do
        let buf ← readRegion ctx p len.toNat
        pure (if buf.isEmpty then -1 else ctx.host.shannonEntropy buf)
  | .debug => pure 0
  | .stubZero => pure 0
  | .stubNeg => pure (-1)
  | .stubNull => pure 0
  | .unsupported => do
      gap
      pure 0

end Exav.Bytecode
