import Exav.Bytes

/-!
# Headers of what an object may carry

Each check reads a few bytes of an object at a place of its own choosing, from
memory or through a window.
-/

namespace Exav.Carve

/-- An object, read a stretch at a time; `inMemory` when all of it is held. -/
structure ByteSource where
  len : Nat
  window : (off len : Nat) → Bytes
  inMemory : Bool

/-- The object is these bytes. -/
def ByteSource.Holds (src : ByteSource) (data : Bytes) : Prop :=
  src.len = data.length ∧
    ∀ off len, src.window off len = Exav.window data off len

/-- The object that is these bytes. -/
def ByteSource.of (data : Bytes) (inMemory : Bool) : ByteSource :=
  ⟨data.length, Exav.window data, inMemory⟩

theorem ByteSource.Holds.eq {src : ByteSource} {data : Bytes}
    (holds : src.Holds data) : src = .of data src.inMemory := by
  obtain ⟨len, window, inMemory⟩ := src
  obtain ⟨rfl, same⟩ := holds
  have same : window = Exav.window data := funext fun off => funext (same off)
  rw [same]
  rfl

theorem ByteSource.holds_of (data : Bytes) (inMemory : Bool) :
    (ByteSource.of data inMemory).Holds data :=
  ⟨rfl, fun _ _ => rfl⟩

/-! ## Fields -/

def le16 (h : Bytes) (o : Nat) : Nat :=
  (byteAt h o).toNat + (byteAt h (o + 1)).toNat * 2 ^ 8

def le32 (h : Bytes) (o : Nat) : Nat :=
  le16 h o + le16 h (o + 2) * 2 ^ 16

def be16 (h : Bytes) (o : Nat) : Nat :=
  (byteAt h o).toNat * 2 ^ 8 + (byteAt h (o + 1)).toNat

def be32 (h : Bytes) (o : Nat) : Nat :=
  be16 h o * 2 ^ 16 + be16 h (o + 2)

def rdU32 (h : Bytes) (o : Nat) (be : Bool) : Nat :=
  if be then be32 h o else le32 h o

/-- The little-endian `u32` at `off`, if the object holds it. -/
def leU32At (src : ByteSource) (off : Nat) : Option Nat :=
  let h := src.window off 4
  if h.length = 4 then some (le32 h 0) else none

/-! ## Images -/

/-- Where the `MZ` at `off` says its PE header is, if that is in bounds. -/
def peTarget (src : ByteSource) (off : Nat) : Option Nat :=
  if off + 0x40 > src.len then none
  else
    match leU32At src (off + 0x3c) with
    | some eLfanew =>
        let pe := off + eLfanew
        if eLfanew ≥ 0x40 ∧ pe + 4 ≤ src.len then some pe else none
    | none => none

/-- The COFF header after `PE\0\0` and the optional header's magic are sane. -/
def validPeCoff (src : ByteSource) (pe : Nat) : Bool :=
  if pe + 26 > src.len then false
  else
    let h := src.window pe 26
    if h.length ≠ 26 then false
    else
      le16 h 4 ≠ 0 && 1 ≤ le16 h 6 && le16 h 6 ≤ 96 && le16 h 20 ≠ 0 &&
        (le16 h 24 = 0x10b || le16 h 24 = 0x20b)

/-- A sane `PE\0\0` header at `pe`. -/
def peHeaderAt (src : ByteSource) (pe : Nat) : Bool :=
  src.window pe 4 = [80, 69, 0, 0] && validPeCoff src pe

/-- An `MZ` at `off` whose `e_lfanew` points to a sane `PE\0\0` header. -/
def peAt (src : ByteSource) (off : Nat) : Bool :=
  (peTarget src off).any (peHeaderAt src)

/-- A validated ELF identification header at `off`. -/
def elfAt (src : ByteSource) (off : Nat) : Bool :=
  let h := src.window off 18
  if h.length ≠ 18 then false
  else
    let class_ := byteAt h 4
    let endian := byteAt h 5
    if (class_ ≠ 1 ∧ class_ ≠ 2) ∨ (endian ≠ 1 ∧ endian ≠ 2) ∨ byteAt h 6 ≠ 1 then
      false
    else
      let etype := if endian = 1 then le16 h 16 else be16 h 16
      1 ≤ etype && etype ≤ 4

/-- A thin Mach-O header at `off` with a sane `filetype` and `ncmds`. -/
def machoThinAt (src : ByteSource) (off : Nat) (be : Bool) : Bool :=
  let h := src.window off 28
  if h.length ≠ 28 then false
  else
    let filetype := rdU32 h 12 be
    let ncmds := rdU32 h 16 be
    1 ≤ filetype && filetype ≤ 11 && 1 ≤ ncmds && ncmds ≤ 10000

def isMachoCputype (ct : Nat) : Bool :=
  ct ∈ [7, 0x01000007, 12, 0x0100000C, 0x0200000C, 18, 0x01000012]

/-- A fat Mach-O header at `off`: a sane arch count and a real `cputype`
first. -/
def machoFatAt (src : ByteSource) (off : Nat) : Bool :=
  let h := src.window off 28
  if h.length ≠ 28 then false
  else
    let nfat := rdU32 h 4 true
    1 ≤ nfat && nfat ≤ 64 && isMachoCputype (rdU32 h 8 true)

/-! ## Archives -/

inductive ArchiveFormat where
  | zip | gzip | sevenZip | xz | bzip2 | cab | rar
  deriving DecidableEq

def isGzipMagic (data : Bytes) : Bool :=
  data.length ≥ 4 && [0x1f, 0x8b, 0x08].isPrefixOf data &&
    byteAt data 3 &&& 0xE0 = 0

def isBzip2Magic (data : Bytes) : Bool :=
  data.length ≥ 10 && [66, 90, 104].isPrefixOf data &&
    49 ≤ byteAt data 3 && byteAt data 3 ≤ 57 &&
    (window data 4 6 = [0x31, 0x41, 0x59, 0x26, 0x53, 0x59] ||
      window data 4 6 = [0x17, 0x72, 0x45, 0x38, 0x50, 0x90])

def isCabMagic (data : Bytes) : Bool :=
  if !([77, 83, 67, 70].isPrefixOf data) || data.length < 8 then false
  else if window data 4 4 = [0, 0, 0, 0] then true
  else if data.length < 20 then false
  else
    let size := le32 data 8
    let files := le32 data 16
    window data 24 2 = [3, 1] && size ≥ 36 && 36 ≤ files && files ≤ size

def isRarMagic (data : Bytes) : Bool :=
  [82, 97, 114, 33, 0x1a, 7, 0].isPrefixOf data ||
    [82, 97, 114, 33, 0x1a, 7, 1, 0].isPrefixOf data

/-- The first checks of detection, which read a few bytes of the start. -/
def archiveMagic (data : Bytes) : Option ArchiveFormat :=
  if data.length ≥ 4 ∧ window data 0 2 = [80, 75] ∧
      (window data 2 2 = [3, 4] ∨ window data 2 2 = [5, 6] ∨
        window data 2 2 = [7, 8]) then
    some .zip
  else if isGzipMagic data then some .gzip
  else if [55, 122, 0xBC, 0xAF, 0x27, 0x1C].isPrefixOf data then some .sevenZip
  else if [0xFD, 55, 122, 88, 90, 0].isPrefixOf data then some .xz
  else if isBzip2Magic data then some .bzip2
  else if isCabMagic data then some .cab
  else none

/-- The archive that starts at `off`, checked from its first bytes alone. -/
def detectArchiveStart (src : ByteSource) (off : Nat) : Option ArchiveFormat :=
  let head := src.window off (min 32 (src.len - off))
  (archiveMagic head).or (if isRarMagic head then some .rar else none)

/-- An archive header at `off` that holds up, gzip's checked more strictly. -/
def archiveAt (src : ByteSource) (off : Nat) : Bool :=
  match detectArchiveStart src off with
  | some .gzip =>
      let head := src.window off 10
      head.length = 10 &&
        (byteAt head 8 = 0 || byteAt head 8 = 2 || byteAt head 8 = 4) &&
        (byteAt head 9 ≤ 13 || byteAt head 9 = 255)
  | some _ => true
  | none => false

/-- The bytes at `off` are a ZIP local header's magic. -/
def zipAt (src : ByteSource) (off : Nat) : Bool :=
  src.window off 4 = [80, 75, 3, 4]

/-- Where the ZIP local header at `off` says the next entry begins, when it can
say. -/
def zipNextHeader (src : ByteSource) (off : Nat) : Option Nat :=
  let h := src.window off 30
  if h.length ≠ 30 ∨ window h 0 4 ≠ [80, 75, 3, 4] then none
  else if le16 h 6 &&& 0b1001 ≠ 0 then none
  else
    let csize := le32 h 18
    if csize = 2 ^ 32 - 1 then none
    else some (off + (30 + le16 h 26 + le16 h 28) + csize)

/-!
## Carving an object

One read of an object finds the magics of what it may carry, a window at a
time, and validates each as it is met; PE headers beyond the window wait until
they are settled.
-/

/-- Most PE images carved from one object, and as many ELF and Mach-O
images. -/
def maxEmbeddedPe : Nat := 16

/-- Most archive candidates carved from one object. -/
def maxEmbeddedArchives : Nat := 32

/-- What carving finds embedded at a non-zero offset. -/
structure Embedded where
  pe : List Nat
  elf : List Nat
  macho : List Nat
  archives : List Nat
  peCapped : Bool
  othersCapped : Bool
  deriving DecidableEq

inductive Magic where
  | pe
  | elf
  | machoThin (be : Bool)
  | machoFat
  | archive
  deriving DecidableEq

def carveMagics : List (Bytes × Magic) :=
  [([77, 90], .pe),
    ([0x7f, 69, 76, 70], .elf),
    ([0xCE, 0xFA, 0xED, 0xFE], .machoThin false),
    ([0xCF, 0xFA, 0xED, 0xFE], .machoThin false),
    ([0xFE, 0xED, 0xFA, 0xCE], .machoThin true),
    ([0xFE, 0xED, 0xFA, 0xCF], .machoThin true),
    ([0xCA, 0xFE, 0xBA, 0xBE], .machoFat),
    ([80, 75, 3, 4], .archive),
    ([0x1f, 0x8b, 8], .archive),
    ([66, 90, 104], .archive),
    ([0xfd, 55, 122, 88, 90, 0], .archive),
    ([55, 122, 0xbc, 0xaf, 0x27, 0x1c], .archive),
    ([82, 97, 114, 33, 0x1a, 7], .archive),
    ([77, 83, 67, 70], .archive)]

/-- Bytes each window must run into the next, so a magic across the seam is
seen whole. -/
def overlap : Nat :=
  (carveMagics.map (·.1.length)).foldl max 0 - 1

/-- Where `needle` occurs in `hay`, found from the left, each after the end of
the one before; `pos` is where `hay` starts. -/
def findFrom (needle : Bytes) : (rounds : Nat) → Bytes → (pos : Nat) → List Nat
  | 0, _, _ => []
  | _, [], _ => []
  | rounds + 1, b :: hay, pos =>
      if needle.isPrefixOf (b :: hay) then
        pos :: findFrom needle rounds ((b :: hay).drop needle.length)
          (pos + needle.length)
      else findFrom needle rounds hay (pos + 1)

def findIter (needle hay : Bytes) : List Nat :=
  findFrom needle hay.length hay 0

/-- A PE's offset in its place: the lowest are listed whatever order they are
found in, and one more than the cap makes the object capped. -/
def acceptPe (found : Embedded) (off : Nat) : Embedded :=
  let first := found.pe.takeWhile (· < off)
  let pe := first ++ off :: found.pe.drop first.length
  if pe.length > maxEmbeddedPe then
    { found with pe := pe.dropLast, peCapped := true }
  else { found with pe := pe }

/-- The search, fed a window at a time. -/
structure Carving where
  /-- Where the last ZIP local header seen says the next entry begins, when it
  can say. -/
  zipNext : Option Nat
  /-- The header and the `MZ` of candidates whose header lay beyond their
  window. -/
  far : List (Nat × Nat)
  farMax : Nat
  found : Embedded

namespace Carving

def new (farMax : Nat) : Carving :=
  ⟨none, [], max farMax 1, ⟨[], [], [], [], false, false⟩⟩

/-- The rest of the object has nothing more to add. -/
def full (c : Carving) : Bool :=
  c.far.isEmpty && c.found.peCapped && c.found.othersCapped &&
    c.found.pe.length ≥ maxEmbeddedPe && c.found.elf.length ≥ maxEmbeddedPe &&
    c.found.macho.length ≥ maxEmbeddedPe &&
    c.found.archives.length ≥ maxEmbeddedArchives

/-- An ELF image, a Mach-O image or an archive past its cap. -/
def leaveOut (c : Carving) : Carving :=
  { c with found := { c.found with othersCapped := true } }

def meetElf (src : ByteSource) (c : Carving) (off : Nat) : Carving :=
  if elfAt src off then
    if c.found.elf.length < maxEmbeddedPe then
      { c with found := { c.found with elf := c.found.elf ++ [off] } }
    else c.leaveOut
  else c

def meetMacho (c : Carving) (off : Nat) (ok : Bool) : Carving :=
  if ok then
    if c.found.macho.length < maxEmbeddedPe then
      { c with found := { c.found with macho := c.found.macho ++ [off] } }
    else c.leaveOut
  else c

def meetArchive (src : ByteSource) (c : Carving) (off : Nat) (zip : Bool) :
    Carving :=
  -- The chain follows only a ZIP that will be scanned.
  let c := if zip then { c with zipNext := none } else c
  if archiveAt src off then
    if c.found.archives.length < maxEmbeddedArchives then
      { c with
        found := { c.found with archives := c.found.archives ++ [off] }
        zipNext := if zip then zipNextHeader src off else c.zipNext }
    else c.leaveOut
  else c

def meetPe (src : ByteSource) (held : Nat) (c : Carving) (off : Nat) : Carving :=
  match peTarget src off with
  | some pe =>
      if pe ≥ held ∧ !src.inMemory then { c with far := c.far ++ [(pe, off)] }
      else if peHeaderAt src pe then { c with found := acceptPe c.found off }
      else c
  | none => c

/-- A magic met in a window that ends at `held`. -/
def meet (src : ByteSource) (held : Nat) (c : Carving) (hit : Nat × Magic) :
    Carving :=
  let (off, kind) := hit
  let zip := kind = .archive && zipAt src off
  if off = 0 then
    -- The object's own image or archive.
    if zip then { c with zipNext := zipNextHeader src off } else c
  else if zip && c.zipNext = some off then
    { c with zipNext := zipNextHeader src off }
  else
    match kind with
    | .pe => c.meetPe src held off
    | .elf => c.meetElf src off
    | .machoThin be => c.meetMacho off (machoThinAt src off be)
    | .machoFat => c.meetMacho off (machoFatAt src off)
    | .archive => c.meetArchive src off zip

/-- The magics that start in the first `owned` bytes of a window at `base`, in
order. -/
def hitsIn (base : Nat) (w : Bytes) (owned : Nat) : List (Nat × Magic) :=
  (carveMagics.flatMap fun magic =>
    ((findIter magic.1 w).takeWhile (· < owned)).map fun p =>
      (base + p, magic.2)).mergeSort (fun a b => a.1 ≤ b.1)

/-- Check the far candidates waiting, in the order of the headers they point
at. -/
def settle (src : ByteSource) (c : Carving) : Carving :=
  let far := c.far.mergeSort
    (fun a b => a.1 < b.1 || a.1 = b.1 && a.2 ≤ b.2)
  { c with
    far := []
    found := far.foldl (fun found candidate =>
      if peHeaderAt src candidate.1 then acceptPe found candidate.2
      else found) c.found }

/-- Search the window `w` at `base` for the magics that start in its first
`owned` bytes. -/
def feed (src : ByteSource) (c : Carving) (base : Nat) (w : Bytes)
    (owned : Nat) : Carving :=
  let c := (hitsIn base w owned).foldl (meet src (base + w.length)) c
  if c.far.length ≥ c.farMax then c.settle src else c

end Carving

def chunk : Nat := 1024 * 1024

/-- Feed an object from `base` on, until the search is full. -/
def carveFrom (src : ByteSource) : (rounds base : Nat) → Carving → Carving
  | 0, _, c => c
  | rounds + 1, base, c =>
      if base < src.len ∧ !c.full then
        let w := src.window base (min (src.len - base) chunk)
        if w.isEmpty then c
        else
          let last := base + w.length ≥ src.len
          let owned := if last then w.length else max (w.length - overlap) 1
          let c := c.feed src base w owned
          if last then c else carveFrom src rounds (base + owned) c
      else c

/-- Everything carving looks for, found in one read of an object. -/
def embeddedIn (src : ByteSource) : Embedded :=
  ((carveFrom src src.len 0 (.new (2 ^ 64 - 1))).settle src).found

end Exav.Carve
