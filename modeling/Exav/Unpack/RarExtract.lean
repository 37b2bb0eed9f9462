import Exav.Text
import Exav.Unpack.Budget

/-!
# The blocks of a RAR archive

The fields that RAR4 and RAR5 block headers hold, read where the header is
damaged as well: a field past the end of the archive reads as a default in RAR4
and ends the walk in RAR5.
-/

namespace Exav.Unpack

/-! ## Integers -/

def u16le (d : Bytes) (o : Nat) : Option Nat := do
  let a ← d[o]?
  let b ← d[o + 1]?
  pure (a.toNat + b.toNat * 2 ^ 8)

def u32le (d : Bytes) (o : Nat) : Option Nat := do
  let a ← u16le d o
  let b ← u16le d (o + 2)
  pure (a + b * 2 ^ 16)

/-- The bytes of a variable-length integer from the `i`th on, which give the
bits above the ones in `val`; at most `left` of them are read. -/
def vintFrom (d : Bytes) (o : Nat) : (left i val : Nat) → Option (Nat × Nat)
  | 0, _, _ => none
  | left + 1, i, val => do
      let b ← d[o + i]?
      let val := val ||| ((b &&& 0x7f).toNat <<< (7 * i)) % 2 ^ 64
      if b &&& 0x80 = 0 then some (val, i + 1)
      else vintFrom d o left (i + 1) val

/-- A RAR5 variable-length integer and how many bytes it takes: seven bits a
byte, the lowest first, and the high bit says that more follow. -/
def vint (d : Bytes) (o : Nat) : Option (Nat × Nat) :=
  vintFrom d o 10 0 0

/-- `len` bytes from `off`, where the archive has them all. -/
def bytesAt (d : Bytes) (off len : Nat) : Option Bytes :=
  if off + len ≤ d.length then some (window d off len) else none

/-- The bytes from `off` to `stop`, fewer where the archive ends. -/
def cut (d : Bytes) (off stop : Nat) : Bytes :=
  let stop := min stop d.length
  window d (min off d.length) (stop - min off d.length)

def crc32Step (crc : UInt32) : UInt32 :=
  let mask := 0 - (crc &&& 1)
  (crc >>> 1) ^^^ (0xEDB88320 &&& mask)

def crc32Byte (crc : UInt32) (b : UInt8) : UInt32 :=
  crc32Step^[8] (crc ^^^ b.toUInt32)

def crc32Ieee (data : Bytes) : Nat :=
  (~~~ data.foldl crc32Byte 0xFFFFFFFF).toNat

/-! ## RAR4 -/

def readName (data : Bytes) (off len : Nat) : String :=
  let stop := min (off + len) data.length
  if off ≥ stop then "rar-entry"
  else fromUtf8Lossy ((window data off (stop - off)).takeWhile (· ≠ 0))

structure Rar4Block where
  type : UInt8
  flags : Nat
  headSize : Nat
  addSize : Nat
  deriving DecidableEq

/-- The block at `pos`, none where the walk ends. -/
def rar4Block (data : Bytes) (pos : Nat) : Option Rar4Block :=
  if pos + 7 ≤ data.length then do
    let flags ← u16le data (pos + 3)
    let headSize ← u16le data (pos + 5)
    let type ← data[pos + 2]?
    if headSize < 7 then none
    else
      let addSize :=
        if flags &&& 0x8000 ≠ 0 then (u32le data (pos + 7)).getD 0 else 0
      some ⟨type, flags, headSize, addSize⟩
  else none

structure Rar4File where
  flags : Nat
  pack : Nat
  unp : Nat
  crc : Nat
  unpVer : UInt8
  method : UInt8
  name : String
  salt : Option Bytes
  dataOff : Nat
  deriving DecidableEq

/-- The fields of the file header at `pos`, whose block fields are `block`. -/
def rar4FileFields (data : Bytes) (pos : Nat) (block : Rar4Block) :
    Rar4File :=
  let flags := block.flags
  let b := pos + 7
  let pack := (u32le data b).getD 0
  let unp := (u32le data (b + 4)).getD 0
  let nameSize := (u16le data (b + 19)).getD 0
  let large := flags &&& 0x100 ≠ 0
  let p := if large then b + 33 else b + 25
  { flags
    pack := if large then ((u32le data (b + 25)).getD 0) <<< 32 ||| pack
      else pack
    unp := if large then ((u32le data (b + 29)).getD 0) <<< 32 ||| unp
      else unp
    crc := (u32le data (b + 9)).getD 0
    unpVer := data[b + 17]?.getD 0
    method := data[b + 18]?.getD 0xff
    name := readName data p nameSize
    salt := if flags &&& 0x400 ≠ 0 then bytesAt data (p + nameSize) 8 else none
    dataOff := pos + block.headSize }

namespace Rar4File

def encrypted (m : Rar4File) : Bool :=
  m.flags &&& 0x04 ≠ 0

def isDir (m : Rar4File) : Bool :=
  m.flags &&& 0xE0 = 0xE0

/-- Part of the member's data is in another volume. -/
def split (m : Rar4File) : Bool :=
  m.flags &&& 0x03 ≠ 0

def solid (m : Rar4File) : Bool :=
  m.flags &&& 0x10 ≠ 0

/-- The window's size, from the dictionary flags. -/
def winBits (m : Rar4File) : Nat :=
  (m.flags &&& 0xE0) >>> 5 + 16

/-- Compressed by the algorithm there is a decoder for. -/
def unpack29 (m : Rar4File) : Bool :=
  m.unpVer = 29 && (0x31 ≤ m.method && m.method ≤ 0x35)

/-- The member's data as far as the archive has it. -/
def raw (m : Rar4File) (data : Bytes) : Bytes :=
  cut data m.dataOff (m.dataOff + m.pack)

end Rar4File

/-! ## RAR5 -/

structure Rar5Block where
  type : Nat
  flags : Nat
  extraSize : Nat
  dataSize : Nat
  hdr : Nat
  hsize : Nat
  body : Nat
  dataOff : Nat
  deriving DecidableEq

/-- A field that is there when its flag is set. -/
def vintIf (flagged : Bool) (d : Bytes) (o : Nat) : Option (Nat × Nat) :=
  if flagged then vint d o else some (0, 0)

/-- The block at `pos`, none where the walk ends. -/
def rar5Block (data : Bytes) (pos : Nat) : Option Rar5Block :=
  if pos + 4 < data.length then do
    let (hsize, hsLen) ← vint data (pos + 4)
    let hdr := pos + 4 + hsLen
    let dataOff := hdr + hsize
    if hsize = 0 ∨ dataOff > data.length then none
    else
      let (type, t1) ← vint data hdr
      let (flags, t2) ← vint data (hdr + t1)
      let q := hdr + t1 + t2
      let (extraSize, n) ← vintIf (flags &&& 0x01 ≠ 0) data q
      let q := q + n
      let (dataSize, n) ← vintIf (flags &&& 0x02 ≠ 0) data q
      some ⟨type, flags, extraSize, dataSize, hdr, hsize, q + n, dataOff⟩
  else none

/-- The records of a file header's extra area that change how its data is
read. -/
structure Rar5Extra where
  crypt : Option (Nat × Nat)
  redirect : Option (Nat × String)
  deriving DecidableEq

/-- A redirection record's type and target. -/
def rar5Redirect (b : Bytes) : Option (Nat × String) := do
  let (kind, a) ← vint b 0
  let (_, c) ← vint b a
  let (len, d) ← vint b (a + c)
  let name ← bytesAt b (a + c + d) len
  pure (kind, fromUtf8Lossy name)

/-- The records from `p` to `stop`, at most `guard` of them. -/
def rar5ExtraFrom (data : Bytes) (stop : Nat) :
    (guard : Nat) → Nat → Rar5Extra → Rar5Extra
  | 0, _, found => found
  | guard + 1, p, found =>
      if p < stop then
        match vint data p with
        | none => found
        | some (recSize, n1) =>
            let recStart := p + n1
            let recEnd := recStart + recSize
            -- An end that a `usize` cannot hold ends the scan.
            match if recEnd < 2 ^ 64 then vint data recStart else none with
            | none => found
            | some (recType, n2) =>
                let first := recStart + n2
                let last := min recEnd stop
                let found :=
                  if recType = 0x01 then
                    { found with crypt := some (first, last) }
                  else if recType = 0x05 then
                    { found with
                      redirect := rar5Redirect (
                        if first ≤ last ∧ last ≤ data.length then
                          window data first (last - first)
                        else []) }
                  else found
                if recEnd ≤ p then found
                else rar5ExtraFrom data stop guard recEnd found
      else found

/-- Scan the trailing extra area of a header that ends at `stop`. -/
def rar5Extra (data : Bytes) (stop extraSize : Nat) : Rar5Extra :=
  if extraSize = 0 ∨ extraSize > stop then ⟨none, none⟩
  else rar5ExtraFrom data stop 64 (stop - extraSize) ⟨none, none⟩

/-- The RAR5 file-header fields needed for extraction. -/
structure Rar5File where
  name : String
  method : Nat
  fileFlags : Nat
  unpSize : Nat
  compInfo : Nat
  solid : Bool
  crc : Option Nat
  crypt : Option (Nat × Nat)
  redirect : Option (Nat × String)
  deriving DecidableEq

namespace Rar5File

def isDir (f : Rar5File) : Bool :=
  f.fileFlags &&& 0x01 ≠ 0

def encrypted (f : Rar5File) : Bool :=
  f.crypt.isSome

/-- The member a hard link or a file copy repeats: it has no data itself. -/
def target (f : Rar5File) : Option String :=
  match f.redirect with
  | some (kind, target) => if kind = 4 ∨ kind = 5 then some target else none
  | none => none

end Rar5File

/-- The fields of the file header in `block`. -/
def rar5FileFields (data : Bytes) (block : Rar5Block) : Option Rar5File := do
  let stop := block.hdr + block.hsize
  let q := block.body
  let (fileFlags, n) ← vint data q
  let q := q + n
  let (unpSize, n) ← vint data q
  let q := q + n
  let (_, n) ← vint data q
  let q := q + n
  let q := if fileFlags &&& 0x02 ≠ 0 then q + 4 else q
  let hasCrc := fileFlags &&& 0x04 ≠ 0
  let crc := if hasCrc then some ((u32le data q).getD 0) else none
  let q := if hasCrc then q + 4 else q
  let (compInfo, n) ← vint data q
  let q := q + n
  let (_, n) ← vint data q
  let q := q + n
  let (nameLen, n) ← vint data q
  let q := q + n
  let nameEnd := min (min (q + nameLen) stop) data.length
  let name :=
    if q < nameEnd then fromUtf8Lossy (window data q (nameEnd - q))
    else "rar-entry"
  let extra := rar5Extra data stop block.extraSize
  pure ⟨name, compInfo >>> 7 &&& 0x7, fileFlags, unpSize, compInfo,
    compInfo &&& 1 <<< 6 ≠ 0, crc, extra.crypt, extra.redirect⟩

/-!
## The members of a RAR4 archive

The walk over the blocks of an archive hands each member over in turn.  A solid
member continues the compressed stream of the one before it, so the decoder is
kept from one member to the next, and so is whether its window holds every
member before this one.
-/

/-- What the walks ask of a decoder: a fresh one for a header's window field,
and one more member decoded into it. -/
structure Unpacker (D : Type) where
  new : (window : Nat) → Budget → Option D
  member : D → (packed : Bytes) → (unp : Nat) → (solid : Bool) → Budget →
    Option Bytes × D × Budget

namespace Unpacker

variable {D : Type} (lz : Unpacker D)

/-- A member that is not solid starts afresh, on the window its own header asks
for. -/
def renew (window : Nat) (solid : Bool) (dec : Option D) (budget : Budget) :
    Option D :=
  if !solid || dec.isNone then lz.new window budget else dec

def feed (packed : Bytes) (unp : Nat) (solid : Bool) (dec : Option D)
    (budget : Budget) : Option Bytes × Option D × Budget :=
  match dec with
  | none => (none, none, budget)
  | some d =>
      let (decoded, d, budget) := lz.member d packed unp solid budget
      (decoded, some d, budget)

end Unpacker

def defaultArchivePasswords : List String :=
  ["infected", "virus", "malware", "password", "123456"]

/-- The passwords to try: the caller's, then the defaults. -/
def candidates (passwords : List String) : List String :=
  passwords ++ defaultArchivePasswords

def rarStale : String :=
  "RAR solid member follows one that was not decoded, so it cannot be decoded either"

def storedExceeds : LimitHit :=
  .new "rar: stored member exceeds budget"

def pushStored (budget : Budget) (name : String) (data : Bytes)
    (off pack : Nat) (encrypted : Bool) : Except LimitHit (Entry × Budget) := do
  let budget ← budget.countEntry
  if encrypted then
    .ok (.ofUnsupported name pack true "encrypted RAR member", budget)
  else
    let cap ← budget.reserve
    if pack > cap ∨ off + pack > data.length then .error storedExceeds
    else .ok (⟨name, window data off pack, pack, false, none⟩,
      budget.commit pack)

/-- A member reported without its content. -/
def pushUnsupported (budget : Budget) (name : String) (pack : Nat)
    (encrypted : Bool) (reason : String) :
    Except LimitHit (Entry × Budget) := do
  let budget ← budget.countEntry
  .ok (.ofUnsupported name pack encrypted reason, budget)

/-! ## RAR4 -/

/-- The encryption of RAR4: keys of a password and a salt, and bytes decrypted
under them. -/
structure Rar3Cipher (K : Type) where
  derive : String → Bytes → K
  decrypt : K → Bytes → Bytes

structure Rar4Crypt (K : Type) where
  keys : List (Bytes × String × K)
  password : Option String

/-- The derivations one scan may make. -/
def maxDerivations : Nat := 256

/-- What the walk over a RAR4 archive keeps from one member to the next. -/
structure Rar4Walk (D K : Type) where
  budget : Budget
  crypt : Rar4Crypt K
  solidDec : Option D
  inStep : Bool

section

variable {D K : Type} (build : Build) (lz : Unpacker D) (cipher : Rar3Cipher K)

/-- The keys of a password over a salt, unless they are not cached and the
limit of derivations is reached. -/
def Rar4Walk.keys (pw : String) (salt : Bytes) (s : Rar4Walk D K) :
    Option K × Rar4Walk D K :=
  match s.crypt.keys.find? fun (other, p, _) => other == salt && p == pw with
  | some (_, _, k) => (some k, s)
  | none =>
      let made := s.budget.rar3Derivations
      let s := { s with budget := { s.budget with rar3Derivations := made + 1 } }
      if made ≥ maxDerivations then (none, s)
      else
        let k := cipher.derive pw salt
        (some k, { s with
          crypt := { s.crypt with keys := s.crypt.keys ++ [(salt, pw, k)] } })

/-- The passwords to try: the one that opened the archive, when one did. -/
def Rar4Walk.tries (s : Rar4Walk D K) : List String :=
  match s.crypt.password with
  | some p => [p]
  | none => candidates s.budget.passwords

/-- Decode a member, on a fresh window where it needs one. -/
def Rar4Walk.decode (m : Rar4File) (packed : Bytes) (s : Rar4Walk D K) :
    Option Bytes × Rar4Walk D K :=
  let dec := lz.renew m.winBits m.solid s.solidDec s.budget
  let (decoded, dec, budget) := lz.feed packed m.unp m.solid dec s.budget
  (decoded, { s with solidDec := dec, budget := budget })

/-- What a decrypted member costs: the decoder has charged its own. -/
def rar4Charge (m : Rar4File) (b : Bytes) (budget : Budget) :
    Except LimitHit Budget :=
  if m.unpack29 then .ok budget
  else do
    let cap ← budget.reserve
    if b.length > cap then .error storedExceeds
    else .ok (budget.commit b.length)

/-- Try passwords on a member: one is right when the member decodes to its
checksum. -/
def rar4TryPasswords (raw salt : Bytes) (m : Rar4File) :
    List String → Rar4Walk D K → Except LimitHit (Option Bytes × Rar4Walk D K)
  | [], s => .ok (none, s)
  | pw :: tries, s =>
      match s.keys cipher pw salt with
      | (none, s) => .ok (none, s)
      | (some keys, s) =>
          let buf := cipher.decrypt keys raw
          let (plain, s) :=
            if m.unpack29 then s.decode lz m buf else (some (buf.take m.unp), s)
          match plain with
          | some b =>
              if crc32Ieee b = m.crc then do
                let budget ← rar4Charge m b s.budget
                .ok (some b, { s with
                  budget := budget
                  crypt := { s.crypt with password := some pw } })
              else rar4TryPasswords raw salt m tries { s with solidDec := none }
          | none => rar4TryPasswords raw salt m tries { s with solidDec := none }

/-- The content of an encrypted member, when a candidate password opens it. -/
def rar4DecryptMember (raw : Bytes) (m : Rar4File) (s : Rar4Walk D K) :
    Except LimitHit (Option Bytes × Rar4Walk D K) :=
  match m.salt with
  | none => .ok (none, s)
  | some salt =>
      if !build.decrypt then .ok (none, s)
      else if raw.length > s.budget.limits.maxBufferBytes ∨
          !(m.unpack29 || m.method = 0x30) then .ok (none, s)
      else rar4TryPasswords lz cipher raw salt m s.tries s

/-- A member only the LZ decoder can read, decoded into the window. -/
def rar4Decompress (data : Bytes) (m : Rar4File) (s : Rar4Walk D K) :
    Except LimitHit (Entry × Rar4Walk D K) := do
  let budget ← s.budget.countEntry
  let s := { s with budget := budget }
  let stale := m.solid && !s.inStep
  let (decoded, s) := s.decode lz m (m.raw data)
  let crcOk := decoded.any fun b => crc32Ieee b = m.crc
  let s := { s with
    solidDec := if decoded.isNone then none else s.solidDec
    inStep := decoded.isSome && (!stale || crcOk) }
  let entry := match decoded with
    | some bytes =>
        if crcOk || !(stale || s.budget.shouldVerifyChecksums build) then
          ⟨m.name, bytes, m.pack, false, none⟩
        else .ofUnsupported m.name m.pack false (
          if stale then rarStale
          else "RAR member did not match its recorded CRC after decoding")
    | none => .ofUnsupported m.name m.pack false "RAR member could not be decoded"
  .ok (entry, s)

/-- One member: what is handed over for it. -/
def rar4Member (data : Bytes) (m : Rar4File) (s : Rar4Walk D K) :
    Except LimitHit (List Entry × Rar4Walk D K) := do
  -- Only what the LZ decoder reads below feeds the window.
  let fed := !m.encrypted && m.unpack29
  let s := { s with inStep := s.inStep && (m.isDir || !m.split && fed) }
  if m.isDir then .ok ([], s)
  else if m.encrypted && !m.split then
    let budget ← s.budget.countEntry
    let (plain, s) ← rar4DecryptMember build lz cipher (m.raw data) m
      { s with budget := budget }
    match plain with
    | some bytes => .ok ([⟨m.name, bytes, m.pack, true, none⟩], s)
    | none =>
        -- A solid group cannot go on past a member it could not read.
        .ok ([.ofUnsupported m.name m.pack true "encrypted RAR member"],
          { s with solidDec := none })
  else if m.method = 0x30 && (m.pack = m.unp || m.split) then
    if m.split then
      -- Part of a file: what is there is handed over, and that some is not.
      let (notice, budget) ← pushUnsupported s.budget m.name m.pack m.encrypted
        "RAR member continues in another volume; only the part in this volume was scanned"
      let (entry, budget) ←
        pushStored budget m.name data m.dataOff m.pack m.encrypted
      .ok ([notice, entry], { s with budget := budget })
    else
      let (entry, budget) ←
        pushStored s.budget m.name data m.dataOff m.pack m.encrypted
      .ok ([entry], { s with budget := budget })
  else if m.split then
    let (entry, budget) ← pushUnsupported s.budget m.name m.pack m.encrypted
      "RAR member continues in another volume"
    .ok ([entry], { s with budget := budget })
  else if fed then
    let (entry, s) ← rar4Decompress build lz data m s
    .ok ([entry], s)
  else
    let (entry, budget) ← pushUnsupported s.budget m.name m.pack m.encrypted
      "unsupported RAR compression"
    .ok ([entry], { s with budget := budget })

/-- How trying one password on encrypted headers ends. -/
inductive Opening where
  | unreadable
  | wrongPassword
  | opened (plain : Bytes)

/-- The blocks from `q` on decrypted under a password, after what is in
`plain`; `blocks` of them were read already. -/
def rar4OpenBlocks (data : Bytes) (pw : String) :
    (rounds q blocks : Nat) → (plain : Bytes) → Rar4Walk D K →
      Opening × Rar4Walk D K
  | 0, _, _, plain, s => (.opened plain, s)
  | rounds + 1, q, blocks, plain, s =>
      let bad := if blocks = 0 then .wrongPassword else .opened plain
      if q < data.length then
        match bytesAt data q 8 with
        | none => (.unreadable, s)
        | some salt =>
            match s.keys cipher pw salt, bytesAt data (q + 8) 16 with
            | (some keys, s), some first =>
                let headSize := (u16le (cipher.decrypt keys first) 5).getD 0
                let padded := (headSize + 15) / 16 * 16
                if headSize < 7 then (bad, s)
                else
                  match bytesAt data (q + 8) padded with
                  | none => (.unreadable, s)
                  | some h =>
                      let h := (cipher.decrypt keys h).take headSize
                      if crc32Ieee (h.drop 2) % 2 ^ 16 ≠ (u16le h 0).getD 0 then
                        (bad, s)
                      else
                        let flags := (u16le h 3).getD 0
                        let add :=
                          if flags &&& 0x8000 ≠ 0 then (u32le h 7).getD 0 else 0
                        let d := q + 8 + padded
                        let stop := min (d + add) data.length
                        let plain := plain ++ h ++ window data d (stop - d)
                        if h[2]?.getD 0 = 0x7B then (.opened plain, s)
                        else rar4OpenBlocks data pw rounds stop (blocks + 1)
                          plain s
            | (_, s), _ => (.unreadable, s)
      else (.opened plain, s)

/-- Try passwords on the headers after the main one. -/
def rar4OpenWith (data : Bytes) (mainAt mainEnd : Nat) :
    List String → Rar4Walk D K → Option Bytes × Rar4Walk D K
  | [], s => (none, s)
  | pw :: tries, s =>
      if mainEnd > data.length then (none, s)
      else
        -- The main header no longer says the blocks after it are encrypted.
        let plain := (data.take mainEnd).modify (mainAt + 3) (· &&& 0x7f)
        match rar4OpenBlocks cipher data pw data.length mainEnd 0 plain s with
        | (.unreadable, s) => (none, s)
        | (.wrongPassword, s) => rar4OpenWith data mainAt mainEnd tries s
        | (.opened plain, s) =>
            (some plain,
              { s with crypt := { s.crypt with password := some pw } })

def rar4OpenHeaders (data : Bytes) (mainAt mainEnd : Nat) (s : Rar4Walk D K) :
    Option Bytes × Rar4Walk D K :=
  if build.decrypt then rar4OpenWith cipher data mainAt mainEnd s.tries s
  else (none, s)

/-- The walk from `pos` on, and the archive to read in place of this one when a
password opens its headers. -/
def rar4Walk (data : Bytes) :
    (rounds pos : Nat) → List Entry → Rar4Walk D K →
      Except LimitHit (List Entry × Rar4Walk D K × Option Bytes)
  | 0, _, out, s => .ok (out, s, none)
  | rounds + 1, pos, out, s =>
      match rar4Block data pos with
      | none => .ok (out, s, none)
      | some block =>
          let next := pos + block.headSize + block.addSize
          if block.type = 0x73 ∧ block.flags &&& 0x80 ≠ 0 then
            match rar4OpenHeaders build cipher data pos
                (pos + block.headSize) s with
            | (some plain, s) => .ok (out, s, some plain)
            | (none, s) => do
                let (entry, budget) ← pushUnsupported s.budget
                  "rar-encrypted-headers" data.length true
                  "RAR archive with encrypted headers"
                .ok (out ++ [entry], { s with budget := budget }, none)
          else if block.type = 0x7B then .ok (out, s, none)
          else if block.type = 0x74 then do
            let (entries, s) ← rar4Member build lz cipher data
              (rar4FileFields data pos block) s
            rar4Walk data rounds next (out ++ entries) s
          else rar4Walk data rounds next out s

/-- The members of a RAR4 archive whose blocks start at `start`; it is read
again, at most `reads` times, where a password opens its headers. -/
def extractRar4Keyed (start : Nat) :
    (reads : Nat) → Bytes → Budget → Rar4Crypt K →
      Option (Except LimitHit (List Entry × Budget))
  | 0, _, _, _ => none
  | reads + 1, data, budget, crypt =>
      match rar4Walk build lz cipher data data.length start []
          ⟨budget, crypt, none, true⟩ with
      | .error hit => some (.error hit)
      | .ok (out, s, none) => some (.ok (out, s.budget))
      | .ok (_, s, some plain) =>
          extractRar4Keyed start reads plain s.budget s.crypt

end

/-!
## The members of a RAR5 archive

As in RAR4 the decoder of a solid group is kept from one member to the next.
A member may also repeat another one, and its header need not record a
checksum.
-/

/-- What a password and a salt derive. -/
structure Rar5Keys where
  key : Bytes
  hashKey : Bytes
  check : Bytes

/-- The encryption of RAR5: the keys of a password, a salt and an iteration
count, bytes decrypted under a key and an IV, a digest, and a checksum as keyed
to a password. -/
structure Rar5Cipher where
  derive : String → Bytes → Nat → Option Rar5Keys
  decrypt : (key iv : Bytes) → Bytes → Bytes
  sha256 : Bytes → Bytes
  tweakCrc : (hashKey : Bytes) → Nat → Nat

/-- The fields of an encryption record. -/
structure CryptRecord where
  kdfCount : Nat
  salt : Bytes
  iv : Bytes
  check : Option Bytes
  /-- The stored checksum is keyed to the password. -/
  tweaked : Bool

namespace CryptRecord

def parse (b : Bytes) (withIv : Bool) : Option CryptRecord := do
  let (version, n) ← vint b 0
  let (flags, m) ← vint b n
  if version ≠ 0 then none
  else
    let p := n + m
    let kdfCount ← b[p]?
    let salt ← bytesAt b (p + 1) 16
    let p := p + 17
    let iv ← if withIv then bytesAt b p 16 else some (List.replicate 16 0)
    let p := if withIv then p + 16 else p
    let check ←
      if flags &&& 0x01 ≠ 0 then (bytesAt b p 12).map some else some none
    pure ⟨kdfCount.toNat, salt, iv, check, flags &&& 0x02 ≠ 0⟩

/-- Whether keys pass the record's password check.  A check value whose own
checksum is wrong passes. -/
def accepts (cipher : Rar5Cipher) (record : CryptRecord) (keys : Rar5Keys) :
    Bool :=
  match record.check with
  | none => true
  | some c =>
      (cipher.sha256 (c.take 8)).take 4 ≠ c.drop 8 || c.take 8 = keys.check

end CryptRecord

/-- What each password derived over each salt. -/
abbrev KeyCache := List (Bytes × Nat × String × Rar5Keys)

def maxKdfCount : Nat := 24

/-- The iterations all the derivations of one scan may add up to. -/
def maxKdfRounds : Nat := 2 ^ 22

def minCharge : Nat := 256

/-- What the walk over a RAR5 archive keeps from one member to the next. -/
structure Rar5Walk (D : Type) where
  budget : Budget
  keys : KeyCache
  solidDec : Option D
  inStep : Bool

section

variable {D : Type} (build : Build) (lz : Unpacker D) (cipher : Rar5Cipher)

def findKeys (record : CryptRecord) :
    List String → Rar5Walk D → Option Rar5Keys × Rar5Walk D
  | [], s => (none, s)
  | pw :: tries, s =>
      let cached := s.keys.find? fun (salt, count, p, _) =>
        salt == record.salt && count == record.kdfCount && p == pw
      let next (keys : Rar5Keys) (s : Rar5Walk D) :=
        if record.accepts cipher keys then (some keys, s)
        else findKeys record tries s
      match cached with
      | some (_, _, _, keys) => next keys s
      | none =>
          let rounds := max (2 ^ min record.kdfCount maxKdfCount) minCharge
          let spent := s.budget.kdfRounds + rounds
          if spent > maxKdfRounds then (none, s)
          else
            let s := { s with budget := { s.budget with kdfRounds := spent } }
            match cipher.derive pw record.salt record.kdfCount with
            | none => (none, s)
            | some keys => next keys { s with
                keys := s.keys ++ [(record.salt, record.kdfCount, pw, keys)] }

/-- The decrypted data of an encrypted member, and the key its checksum is
keyed to if it is, when a candidate password opens it. -/
def rar5DecryptMember (data : Bytes) (f : Rar5File) (raw : Bytes)
    (s : Rar5Walk D) : Option (Bytes × Option Bytes) × Rar5Walk D :=
  let record := do
    let (first, last) ← f.crypt
    let body ← if first ≤ last then bytesAt data first (last - first) else none
    CryptRecord.parse body true
  match record with
  | none => (none, s)
  | some record =>
      if !build.decrypt ∨ raw.length > s.budget.limits.maxBufferBytes then
        (none, s)
      else
        match findKeys cipher record (candidates s.budget.passwords) s with
        | (none, s) => (none, s)
        | (some k, s) =>
            (some (cipher.decrypt k.key record.iv raw,
              if record.tweaked then some k.hashKey else none), s)

/-- A CRC-32 as a member stores it. -/
def tweakCrc (key : Option Bytes) (crc : Nat) : Nat :=
  match key with
  | some k => if build.decrypt then cipher.tweakCrc k crc else crc
  | none => crc

/-- Whether bytes have the checksum their header records; where it records none
they pass. -/
def rar5CrcOk (f : Rar5File) (tweak : Option Bytes) (b : Bytes) : Bool :=
  f.crc.all fun crc => tweakCrc build cipher tweak (crc32Ieee b) = crc

/-- Whether two member paths name the same file, whichever separator each
uses. -/
def sameMember (a b : String) : Bool :=
  let parts (s : String) := s.toList.splitOnP fun c => c = '/' || c = '\\'
  parts a = parts b

/-- Decode one compressed member from `packed`. -/
def decodeRar5Member (f : Rar5File) (packed : Bytes) (dataSize : Nat)
    (crcOk : Bytes → Bool) (s : Rar5Walk D) :
    Except LimitHit (Entry × Rar5Walk D) := do
  let budget ← s.budget.countEntry
  let dec := lz.renew f.compInfo f.solid s.solidDec budget
  let stale := f.solid && !s.inStep
  let (decoded, dec, budget) := lz.feed packed f.unpSize f.solid dec budget
  let dec := if decoded.isNone then none else dec
  let agree := decoded.any crcOk
  let s := { s with
    budget := budget
    solidDec := dec
    inStep := decoded.isSome && (!stale || agree) }
  -- For an encrypted member the checksum is what confirms the password.
  let checked :=
    stale || f.encrypted || s.budget.shouldVerifyChecksums build
  let entry := match decoded with
    | some bytes =>
        if agree || !checked then ⟨f.name, bytes, dataSize, f.encrypted, none⟩
        else .ofUnsupported f.name dataSize f.encrypted (
          if stale then rarStale
          else "RAR member did not match its recorded CRC after decoding")
    | none =>
        .ofUnsupported f.name dataSize f.encrypted "unsupported RAR compression"
  .ok (entry, s)

/-- A stored member, decrypted already where it was encrypted. -/
def rar5Stored (data : Bytes) (block : Rar5Block) (f : Rar5File)
    (plain : Option Bytes) (crcOk : Bytes → Bool) (budget : Budget) :
    Except LimitHit (List Entry × Budget) := do
  let split := block.flags &&& 0x18 ≠ 0
  let (notice, budget) ←
    if split then do
      let (entry, budget) ← pushUnsupported budget f.name block.dataSize
        f.encrypted
        "RAR member continues in another volume; only the part in this volume was scanned"
      .ok ([entry], budget)
    else .ok ([], budget)
  match plain with
  | some p =>
      -- Decrypted data is padded to the cipher's block.
      let p := p.take f.unpSize
      let budget ← budget.countEntry
      let cap ← budget.reserve
      if p.length > cap then .error storedExceeds
      else if split || crcOk p then
        .ok (notice ++ [⟨f.name, p, block.dataSize, true, none⟩],
          budget.commit p.length)
      else
        .ok (notice ++ [.ofUnsupported f.name block.dataSize true
          "RAR member did not match its recorded CRC after decrypting"], budget)
  | none =>
      let (entry, budget) ←
        pushStored budget f.name data block.dataOff block.dataSize false
      .ok (notice ++ [entry], budget)

/-- One member that repeats `target`, from what was handed over before. -/
def rar5Linked (f : Rar5File) (target : String) (out : List Entry)
    (budget : Budget) : Except LimitHit (Entry × Budget) := do
  let copy := ((out.reverse.find? fun e =>
    e.readable && sameMember e.name target).map (·.data)).getD []
  let budget ← budget.countEntry
  let cap ← budget.reserve
  if copy.length > cap then
    .error (.new "rar: linked member exceeds budget")
  else
    .ok (⟨f.name, copy, 0, f.encrypted, none⟩, budget.commit copy.length)

/-- One member: what is handed over for it. -/
def rar5Member (data : Bytes) (block : Rar5Block) (f : Rar5File)
    (out : List Entry) (s : Rar5Walk D) :
    Except LimitHit (List Entry × Rar5Walk D) :=
  let split := block.flags &&& 0x18 ≠ 0
  if f.isDir then .ok ([], s)
  else if split && f.method ≠ 0 then do
    let (entry, budget) ← pushUnsupported s.budget f.name block.dataSize
      f.encrypted "RAR member continues in another volume"
    .ok ([entry], { s with budget := budget, inStep := false })
  else
    match f.target with
    | some target => do
        let (entry, budget) ← rar5Linked f target out s.budget
        .ok ([entry], { s with budget := budget })
    | none =>
        let raw := cut data block.dataOff (block.dataOff + block.dataSize)
        let (opened, s) :=
          if f.encrypted then rar5DecryptMember build cipher data f raw s
          else (none, s)
        let plain := opened.map Prod.fst
        let crcOk := rar5CrcOk build cipher f (opened.bind Prod.snd)
        if f.encrypted && plain.isNone then do
          let (entry, budget) ← pushUnsupported s.budget f.name block.dataSize
            true "encrypted RAR member"
          -- A solid group cannot go on past a member it could not read.
          .ok ([entry], { s with
            budget := budget, solidDec := none, inStep := false })
        else if f.method = 0 then do
          let (entries, budget) ← rar5Stored data block f plain crcOk s.budget
          .ok (entries, { s with budget := budget, inStep := false })
        else do
          let (entry, s) ← decodeRar5Member build lz f (plain.getD raw)
            block.dataSize crcOk s
          .ok ([entry], s)

/-- The headers from `p` on decrypted under `key`, after what is in `plain`;
`headers` of them were read already. -/
def rar5OpenBlocks (data key : Bytes) :
    (rounds p headers : Nat) → Bytes → Option Bytes
  | 0, _, _, plain => some plain
  | rounds + 1, p, headers, plain =>
      if p < data.length then do
        let iv ← bytesAt data p 16
        let first ← bytesAt data (p + 16) 16
        let (hsize, n) ← vint (cipher.decrypt key iv first) 4
        let total := 4 + n + hsize
        let padded := (total + 15) / 16 * 16
        let h ← bytesAt data (p + 16) padded
        let h := (cipher.decrypt key iv h).take total
        let body := 4 + n
        let (type, a) ← vint h body
        let (flags, b) ← vint h (body + a)
        let q := body + a + b
        let (_, c) ← vintIf (flags &&& 0x01 ≠ 0) h q
        let (dataSize, _) ← vintIf (flags &&& 0x02 ≠ 0) h (q + c)
        -- A wrong key reads as a header of no known type.
        if ¬(1 ≤ type ∧ type ≤ 5) then
          if headers > 0 then some plain else none
        else
          let d := p + 16 + padded
          -- An end that a `usize` cannot hold opens nothing.
          if d + dataSize ≥ 2 ^ 64 then none
          else
            let stop := min (d + dataSize) data.length
            let plain := plain ++ h ++ window data d (stop - d)
            if type = 5 then some plain
            else rar5OpenBlocks data key rounds stop (headers + 1) plain
      else some plain

def rar5OpenHeaders (data : Bytes) (start : Nat) (block : Rar5Block)
    (s : Rar5Walk D) : Option Bytes × Rar5Walk D :=
  let record :=
    if build.decrypt && block.body ≤ block.dataOff then
      CryptRecord.parse (cut data block.body block.dataOff) false
    else none
  match record with
  | none => (none, s)
  | some record =>
      match findKeys cipher record (candidates s.budget.passwords) s with
      | (none, s) => (none, s)
      | (some k, s) =>
          (rar5OpenBlocks cipher data k.key data.length block.dataOff 0
            (data.take start), s)

/-- The walk from `pos` on, and the archive to read in place of this one when a
password opens its headers. -/
def rar5Walk (data : Bytes) (start : Nat) :
    (rounds pos : Nat) → List Entry → Rar5Walk D →
      Except LimitHit (List Entry × Rar5Walk D × Option Bytes)
  | 0, _, out, s => .ok (out, s, none)
  | rounds + 1, pos, out, s =>
      match rar5Block data pos with
      | none => .ok (out, s, none)
      | some block =>
          let next := block.dataOff + block.dataSize
          if block.type = 5 then .ok (out, s, none)
          else if block.type = 4 then
            match rar5OpenHeaders build cipher data start block s with
            | (some plain, s) => .ok (out, s, some plain)
            | (none, s) => do
                let (entry, budget) ← pushUnsupported s.budget
                  "rar-encrypted-headers" data.length true
                  "RAR archive with encrypted headers"
                .ok (out ++ [entry], { s with budget := budget }, none)
          else if block.type = 2 then
            match rar5FileFields data block with
            | none => rar5Walk data start rounds next out s
            | some f => do
                let (entries, s) ←
                  rar5Member build lz cipher data block f out s
                rar5Walk data start rounds next (out ++ entries) s
          else rar5Walk data start rounds next out s

/-- The members of a RAR5 archive whose blocks start at `start`; it is read
again, at most `reads` times, where a password opens its headers. -/
def extractRar5Keyed (start : Nat) :
    (reads : Nat) → Bytes → Budget → KeyCache →
      Option (Except LimitHit (List Entry × Budget))
  | 0, _, _, _ => none
  | reads + 1, data, budget, keys =>
      match rar5Walk build lz cipher data start data.length start []
          ⟨budget, keys, none, true⟩ with
      | .error hit => some (.error hit)
      | .ok (out, s, none) => some (.ok (out, s.budget))
      | .ok (_, s, some plain) =>
          extractRar5Keyed start reads plain s.budget s.keys

end

/-! ## Either -/

def rar4Magic : Bytes := [0x52, 0x61, 0x72, 0x21, 0x1A, 0x07, 0x00]

def rar5Magic : Bytes := [0x52, 0x61, 0x72, 0x21, 0x1A, 0x07, 0x01, 0x00]

/-- The members of an archive, in at most `reads` readings of it. -/
def extractRar {D E K : Type} (build : Build) (lz4 : Unpacker D)
    (lz5 : Unpacker E) (rar3 : Rar3Cipher K) (rar5 : Rar5Cipher)
    (reads : Nat) (data : Bytes) (budget : Budget) :
    Option (Except LimitHit (List Entry × Budget)) :=
  if rar5Magic.isPrefixOf data then
    extractRar5Keyed build lz5 rar5 rar5Magic.length reads data budget []
  else if rar4Magic.isPrefixOf data then
    extractRar4Keyed build lz4 rar3 rar4Magic.length reads data budget
      ⟨[], none⟩
  else some (.ok ([], budget))

end Exav.Unpack
