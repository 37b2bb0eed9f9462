import Mathlib.Order.Interval.Finset.Nat
import Exav.Bytes

/-!
# The address space of the emulator

Pages are allocated when they are mapped and found through an index, behind
which stands the page that was looked up last.  A page remembers whether it was
written and whether code was fetched from it; what is written to a page of code
advances a counter.
-/

namespace Exav.Emu

def pageSize : Nat := 0x1000

/-- An access that could not be serviced. -/
structure Fault where
  addr : UInt32
  write : Bool
  deriving DecidableEq

inductive MapError where
  | outOfPages
  deriving DecidableEq

def pageOf (addr : UInt32) : Nat := addr.toNat / pageSize

def offsetOf (addr : UInt32) : Nat := addr.toNat % pageSize

/-- The page that `len` bytes end in, which is the last one if they do not
end. -/
def lastPage (addr : UInt32) (len : Nat) : Nat :=
  min (addr.toNat + (len - 1)) (2 ^ 32 - 1) / pageSize

/-- Whether some page of `len` bytes is mapped. -/
def somePage (mapped : Nat → Bool) (addr : UInt32) (len : Nat) : Bool :=
  if len = 0 then false
  else
    (List.range' (pageOf addr) (lastPage addr len + 1 - pageOf addr)).any mapped

/-- Whether every page of `len` bytes is mapped, which they are not if they do not
end. -/
def everyPage (mapped : Nat → Bool) (addr : UInt32) (len : Nat) : Bool :=
  if len = 0 then true
  else if 2 ^ 32 ≤ addr.toNat + (len - 1) then false
  else
    (List.range' (pageOf addr) (lastPage addr len + 1 - pageOf addr)).all mapped

/-- Bytes with others put over them. -/
def overlay (bytes : Bytes) (off : Nat) (src : Bytes) : Bytes :=
  bytes.mapIdx fun i b => if i < off then b else (src[i - off]?).getD b

theorem length_overlay (bytes : Bytes) (off : Nat) (src : Bytes) :
    (overlay bytes off src).length = bytes.length := by
  rw [overlay, List.length_mapIdx]

structure Page where
  bytes : Bytes
  size : bytes.length = pageSize
  dirty : Bool
  executed : Bool

namespace Page

def zero : Page where
  bytes := List.replicate pageSize 0
  size := List.length_replicate
  dirty := false
  executed := false

def write (p : Page) (off : Nat) (src : Bytes) : Page where
  bytes := overlay p.bytes off src
  size := (length_overlay p.bytes off src).trans p.size
  dirty := true
  executed := p.executed

def read (p : Page) (off len : Nat) : Bytes :=
  window p.bytes off len

end Page

structure Mem where
  pages : List Page
  /-- Page number to slot in `pages`. -/
  index : Nat → Option Nat
  maxPages : Nat
  cachePage : Nat
  cacheSlot : Nat
  cached : Bool
  watch : Option (Nat × Nat)
  watchDirty : Nat
  codeGen : Nat
  dirtyPages : Nat
  recentPages : UInt64

namespace Mem

def new (maxPages : Nat) : Mem where
  pages := []
  index _ := none
  maxPages := maxPages
  cachePage := 0
  cacheSlot := 0
  cached := false
  watch := none
  watchDirty := 0
  codeGen := 0
  dirtyPages := 0
  recentPages := 0

def setWatch (m : Mem) (addr : UInt32) (len : Nat) : Mem :=
  { m with
    watch := some (pageOf addr, min (addr.toNat + len) (2 ^ 32 - 1) / pageSize)
    watchDirty := 0 }

/-- How many different pages, modulo 64, have been written since the last call. -/
def takeWriteSpread (m : Mem) : Nat × Mem :=
  ((List.range 64).countP fun i => m.recentPages.toNat.testBit i,
    { m with recentPages := 0 })

def countDirty (m : Mem) (page : Nat) : Mem :=
  match m.watch with
  | some (lo, hi) =>
      if lo ≤ page ∧ page < hi then
        { m with dirtyPages := m.dirtyPages + 1, watchDirty := m.watchDirty + 1 }
      else { m with dirtyPages := m.dirtyPages + 1 }
  | none => { m with dirtyPages := m.dirtyPages + 1 }

def slot (m : Mem) (page : Nat) : Option Nat × Mem :=
  if m.cached = true ∧ m.cachePage = page then (some m.cacheSlot, m)
  else
    match m.index page with
    | none => (none, m)
    | some slot =>
        (some slot,
          { m with cachePage := page, cacheSlot := slot, cached := true })

def setPage (m : Mem) (slot : Nat) (p : Page) : Mem :=
  { m with pages := m.pages.set slot p }

/-- Record that code was fetched from the page that holds `addr`. -/
def markExecuted (m : Mem) (addr : UInt32) : Mem :=
  match m.slot (pageOf addr) with
  | (none, m) => m
  | (some slot, m) =>
      match m.pages[slot]? with
      | none => m
      | some p => m.setPage slot { p with executed := true }

/-! ## Mapping -/

def mapPage (m : Mem) (page : Nat) : Except MapError Unit × Mem :=
  if (m.index page).isSome then (.ok (), m)
  else if m.pages.length ≥ m.maxPages then (.error .outOfPages, m)
  else
    (.ok (), { m with
      pages := m.pages ++ [.zero]
      index := fun other =>
        if other = page then some m.pages.length else m.index other })

def mapPages (m : Mem) (page : Nat) : (count : Nat) → Except MapError Unit × Mem
  | 0 => (.ok (), m)
  | count + 1 =>
      match m.mapPage page with
      | (.error e, m) => (.error e, m)
      | (.ok _, m) => m.mapPages (page + 1) count

/-- Map the pages of `len` bytes.  Those that are mapped keep their bytes. -/
def map (m : Mem) (addr : UInt32) (len : Nat) : Except MapError Unit × Mem :=
  if len = 0 then (.ok (), m)
  else m.mapPages (pageOf addr) (lastPage addr len + 1 - pageOf addr)

def atCapacity (m : Mem) : Bool :=
  decide (m.pages.length ≥ m.maxPages)

def anyMapped (m : Mem) (addr : UInt32) (len : Nat) : Bool :=
  somePage (fun page => (m.index page).isSome) addr len

def isMapped (m : Mem) (addr : UInt32) (len : Nat) : Bool :=
  everyPage (fun page => (m.index page).isSome) addr len

/-! ## Dirty pages -/

def isDirty (m : Mem) (addr : UInt32) : Bool :=
  match m.index (pageOf addr) with
  | none => false
  | some slot => (m.pages[slot]?.map (·.dirty)).getD false

def cleanPage (m : Mem) (page : Nat) : Mem :=
  match m.index page with
  | none => m
  | some slot =>
      match m.pages[slot]? with
      | none => m
      | some p => m.setPage slot { p with dirty := false }

def cleanPages (m : Mem) (page : Nat) : (count : Nat) → Mem
  | 0 => m
  | count + 1 => (m.cleanPage page).cleanPages (page + 1) count

def clearDirty (m : Mem) (addr : UInt32) (len : Nat) : Mem :=
  if len = 0 then m
  else m.cleanPages (pageOf addr) (lastPage addr len + 1 - pageOf addr)

/-! ## Reads and writes -/

def readU8 (m : Mem) (addr : UInt32) : Except Fault UInt8 × Mem :=
  match m.slot (pageOf addr) with
  | (none, m) => (.error ⟨addr, false⟩, m)
  | (some slot, m) =>
      (.ok ((m.pages[slot]?.bind (·.bytes[offsetOf addr]?)).getD 0), m)

def writePage (m : Mem) (slot page off : Nat) (src : Bytes) : Mem :=
  match m.pages[slot]? with
  | none => m
  | some p =>
      let written :=
        { m.setPage slot (p.write off src) with
          recentPages := m.recentPages ||| (1 <<< UInt64.ofNat (page % 64))
          codeGen := if p.executed then m.codeGen + 1 else m.codeGen }
      if p.dirty then written else written.countDirty page

def writeU8 (m : Mem) (addr : UInt32) (v : UInt8) : Except Fault Unit × Mem :=
  match m.slot (pageOf addr) with
  | (none, m) => (.error ⟨addr, true⟩, m)
  | (some slot, m) =>
      (.ok (), m.writePage slot (pageOf addr) (offsetOf addr) [v])

def readEach (m : Mem) (addr : UInt32) :
    (len : Nat) → Except Fault Bytes × Mem
  | 0 => (.ok [], m)
  | len + 1 =>
      match m.readU8 addr with
      | (.error fault, m) => (.error fault, m)
      | (.ok b, m) =>
          match m.readEach (addr + 1) len with
          | (.error fault, m) => (.error fault, m)
          | (.ok bytes, m) => (.ok (b :: bytes), m)

/-- Read `len` bytes, at once if they are in one page. -/
def readInto (m : Mem) (addr : UInt32) (len : Nat) : Except Fault Bytes × Mem :=
  if len = 0 then (.ok [], m)
  else if offsetOf addr + len ≤ pageSize then
    match m.slot (pageOf addr) with
    | (none, m) => (.error ⟨addr, false⟩, m)
    | (some slot, m) =>
        (.ok ((m.pages[slot]?.map (·.read (offsetOf addr) len)).getD []), m)
  else m.readEach addr len

def writeEach (m : Mem) (addr : UInt32) : Bytes → Except Fault Unit × Mem
  | [] => (.ok (), m)
  | b :: src =>
      match m.writeU8 addr b with
      | (.error fault, m) => (.error fault, m)
      | (.ok _, m) => m.writeEach (addr + 1) src

def writeBytes (m : Mem) (addr : UInt32) (src : Bytes) :
    Except Fault Unit × Mem :=
  if src.isEmpty then (.ok (), m)
  else if offsetOf addr + src.length ≤ pageSize then
    match m.slot (pageOf addr) with
    | (none, m) => (.error ⟨addr, true⟩, m)
    | (some slot, m) =>
        (.ok (), m.writePage slot (pageOf addr) (offsetOf addr) src)
  else m.writeEach addr src

/-- The bytes of the page that `len` bytes begin in. -/
def chunkOf (addr : UInt32) (len : Nat) : Nat :=
  min (pageSize - offsetOf addr) len

def readCodeFrom (m : Mem) (addr : UInt32) :
    (rounds len : Nat) → Bytes × Mem
  | 0, _ => ([], m)
  | rounds + 1, len =>
      if len = 0 then ([], m)
      else
        match m.slot (pageOf addr) with
        | (none, m) => ([], m)
        | (some slot, m) =>
            let chunk := chunkOf addr len
            let bytes :=
              (m.pages[slot]?.map (·.read (offsetOf addr) chunk)).getD []
            let rest := m.readCodeFrom (addr + UInt32.ofNat chunk) rounds
              (len - chunk)
            (bytes ++ rest.1, rest.2)

/-- Up to `len` bytes of code, as far as pages are mapped. -/
def readCode (m : Mem) (addr : UInt32) (len : Nat) : Bytes × Mem :=
  m.readCodeFrom addr len len

def snapshotFrom (m : Mem) (addr : UInt32) :
    (rounds len : Nat) → Bytes × Mem
  | 0, _ => ([], m)
  | rounds + 1, len =>
      if len = 0 then ([], m)
      else
        let chunk := chunkOf addr len
        let found := m.slot (pageOf addr)
        let bytes :=
          match found.1 with
          | none => List.replicate chunk 0
          | some slot =>
              (found.2.pages[slot]?.map (·.read (offsetOf addr) chunk)).getD []
        let rest := found.2.snapshotFrom (addr + UInt32.ofNat chunk) rounds
          (len - chunk)
        (bytes ++ rest.1, rest.2)

/-- `len` bytes, zeros where nothing is mapped. -/
def snapshot (m : Mem) (addr : UInt32) (len : Nat) : Bytes × Mem :=
  m.snapshotFrom addr len len

end Mem

/-!
## Flat memory

What pages, index and lookup cache amount to: a byte for every address, pages
that are mapped, and pages that have been written.  Every operation on it goes
byte by byte.
-/

/-- Memory byte by byte.  What is not mapped reads as zero. -/
@[ext] structure Flat where
  mapped : Nat → Bool
  byte : UInt32 → UInt8
  dirty : Nat → Bool
  room : Nat
  watch : Option (Nat × Nat)
  /-- The pages, modulo 64, written since they were last counted. -/
  recent : Nat → Bool

namespace Flat

def new (maxPages : Nat) : Flat where
  mapped _ := false
  byte _ := 0
  dirty _ := false
  room := maxPages
  watch := none
  recent _ := false

def put (f : Flat) (addr : UInt32) (v : UInt8) : Flat :=
  { f with
    byte := fun other => if other = addr then v else f.byte other
    dirty := fun page => if page = pageOf addr then true else f.dirty page
    recent := fun i => if i = pageOf addr % 64 then true else f.recent i }

def readU8 (f : Flat) (addr : UInt32) : Except Fault UInt8 :=
  if f.mapped (pageOf addr) then .ok (f.byte addr) else .error ⟨addr, false⟩

def writeU8 (f : Flat) (addr : UInt32) (v : UInt8) : Except Fault Unit × Flat :=
  if f.mapped (pageOf addr) then (.ok (), f.put addr v)
  else (.error ⟨addr, true⟩, f)

def readBytes (f : Flat) (addr : UInt32) : (len : Nat) → Except Fault Bytes
  | 0 => .ok []
  | len + 1 =>
      match f.readU8 addr with
      | .error fault => .error fault
      | .ok b =>
          match f.readBytes (addr + 1) len with
          | .error fault => .error fault
          | .ok bytes => .ok (b :: bytes)

def writeBytes (f : Flat) (addr : UInt32) : Bytes → Except Fault Unit × Flat
  | [] => (.ok (), f)
  | b :: src =>
      match f.writeU8 addr b with
      | (.error fault, f) => (.error fault, f)
      | (.ok _, f) => f.writeBytes (addr + 1) src

def code (f : Flat) (addr : UInt32) : (len : Nat) → Bytes
  | 0 => []
  | len + 1 =>
      if f.mapped (pageOf addr) then f.byte addr :: f.code (addr + 1) len else []

def bytes (f : Flat) (addr : UInt32) : (len : Nat) → Bytes
  | 0 => []
  | len + 1 => f.byte addr :: f.bytes (addr + 1) len

def mapPage (f : Flat) (page : Nat) : Except MapError Unit × Flat :=
  if f.mapped page then (.ok (), f)
  else if f.room = 0 then (.error .outOfPages, f)
  else
    (.ok (), { f with
      mapped := fun other => if other = page then true else f.mapped other
      room := f.room - 1 })

def mapPages (f : Flat) (page : Nat) :
    (count : Nat) → Except MapError Unit × Flat
  | 0 => (.ok (), f)
  | count + 1 =>
      match f.mapPage page with
      | (.error e, f) => (.error e, f)
      | (.ok _, f) => f.mapPages (page + 1) count

def map (f : Flat) (addr : UInt32) (len : Nat) : Except MapError Unit × Flat :=
  if len = 0 then (.ok (), f)
  else f.mapPages (pageOf addr) (lastPage addr len + 1 - pageOf addr)

def clearDirty (f : Flat) (addr : UInt32) (len : Nat) : Flat :=
  { f with
    dirty := fun page =>
      if 0 < len ∧ pageOf addr ≤ page ∧ page ≤ lastPage addr len then false
      else f.dirty page }

def setWatch (f : Flat) (addr : UInt32) (len : Nat) : Flat :=
  { f with
    watch :=
      some (pageOf addr, min (addr.toNat + len) (2 ^ 32 - 1) / pageSize) }

def takeWriteSpread (f : Flat) : Nat × Flat :=
  ((List.range 64).countP f.recent, { f with recent := fun _ => false })

def atCapacity (f : Flat) : Bool := decide (f.room = 0)

def watchedDirty (f : Flat) : Finset Nat :=
  match f.watch with
  | some (lo, hi) => (Finset.Ico lo hi).filter fun page => f.dirty page = true
  | none => ∅

end Flat

/-! ## Addresses -/

theorem toNat_add_ofNat {addr : UInt32} {n : Nat}
    (below : addr.toNat + n < 2 ^ 32) :
    (addr + UInt32.ofNat n).toNat = addr.toNat + n := by
  rw [UInt32.toNat_add, UInt32.toNat_ofNat', Nat.add_mod_mod]
  exact Nat.mod_eq_of_lt below

theorem add_one_add (addr : UInt32) (n : Nat) :
    addr + UInt32.ofNat (n + 1) = addr + 1 + UInt32.ofNat n := by
  rw [UInt32.ofNat_add, UInt32.add_assoc, UInt32.add_comm (UInt32.ofNat n)]
  rfl

theorem inside_page {addr : UInt32} {n : Nat}
    (fits : offsetOf addr + n < pageSize) :
    pageOf (addr + UInt32.ofNat n) = pageOf addr ∧
      offsetOf (addr + UInt32.ofNat n) = offsetOf addr + n := by
  have bound := addr.toNat_lt
  rw [offsetOf, pageSize] at fits
  have below : addr.toNat + n < 2 ^ 32 := by omega
  rw [pageOf, pageOf, offsetOf, offsetOf, toNat_add_ofNat below, pageSize]
  omega

theorem inside_page_one {addr : UInt32} (fits : offsetOf addr + 1 < pageSize) :
    pageOf (addr + 1) = pageOf addr ∧
      offsetOf (addr + 1) = offsetOf addr + 1 :=
  inside_page (n := 1) fits

theorem offsetOf_lt (addr : UInt32) : offsetOf addr < pageSize :=
  Nat.mod_lt _ (by decide)

theorem address_ext {a b : UInt32} (page : pageOf a = pageOf b)
    (off : offsetOf a = offsetOf b) : a = b := by
  apply UInt32.toNat_inj.mp
  rw [pageOf, pageOf] at page
  rw [offsetOf, offsetOf] at off
  rw [← Nat.div_add_mod a.toNat pageSize, page, off, Nat.div_add_mod]

namespace Flat

variable {f : Flat} {addr : UInt32}

/-! ## Many bytes at once -/

theorem getElem?_bytes (f : Flat) (addr : UInt32) (len i : Nat) :
    (f.bytes addr len)[i]? =
      if i < len then some (f.byte (addr + UInt32.ofNat i)) else none := by
  induction len generalizing addr i with
  | zero => rfl
  | succ len ih =>
      cases i with
      | zero =>
          have same : addr + UInt32.ofNat 0 = addr := UInt32.add_zero addr
          rw [if_pos (Nat.succ_pos len), same]
          rfl
      | succ i =>
          rw [bytes, List.getElem?_cons_succ, ih, add_one_add]
          simp only [Nat.add_lt_add_iff_right]

theorem bytes_add (f : Flat) (addr : UInt32) (m n : Nat) :
    f.bytes addr (m + n) =
      f.bytes addr m ++ f.bytes (addr + UInt32.ofNat m) n := by
  induction m generalizing addr with
  | zero =>
      have same : addr + UInt32.ofNat 0 = addr := UInt32.add_zero addr
      rw [Nat.zero_add, same]
      rfl
  | succ m ih =>
      rw [Nat.succ_add, bytes, ih, bytes, add_one_add]
      rfl

theorem next_inside {len : Nat} (fits : offsetOf addr + (len + 1) ≤ pageSize)
    (more : 0 < len) :
    pageOf (addr + 1) = pageOf addr ∧ offsetOf (addr + 1) = offsetOf addr + 1 :=
  inside_page_one (by omega)

theorem readBytes_inside (mapped : f.mapped (pageOf addr) = true) {len : Nat}
    (fits : offsetOf addr + len ≤ pageSize) :
    f.readBytes addr len = .ok (f.bytes addr len) := by
  induction len generalizing addr with
  | zero => rfl
  | succ len ih =>
      have rest : f.readBytes (addr + 1) len = .ok (f.bytes (addr + 1) len) := by
        by_cases more : 0 < len
        · obtain ⟨page, off⟩ := next_inside fits more
          exact ih (by rwa [page]) (by omega)
        · obtain rfl : len = 0 := by omega
          rfl
      rw [readBytes, readU8, if_pos mapped]
      simp only [rest]
      rfl

theorem readBytes_unmapped (missing : f.mapped (pageOf addr) = false)
    {len : Nat} (some : 0 < len) :
    f.readBytes addr len = .error ⟨addr, false⟩ := by
  obtain ⟨len, rfl⟩ : ∃ left, len = left + 1 := ⟨len - 1, by omega⟩
  rw [readBytes, readU8, missing]
  rfl

theorem code_add (mapped : f.mapped (pageOf addr) = true) {m : Nat}
    (fits : offsetOf addr + m ≤ pageSize) (n : Nat) :
    f.code addr (m + n) =
      f.bytes addr m ++ f.code (addr + UInt32.ofNat m) n := by
  induction m generalizing addr with
  | zero =>
      have same : addr + UInt32.ofNat 0 = addr := UInt32.add_zero addr
      rw [Nat.zero_add, same]
      rfl
  | succ m ih =>
      have rest : f.code (addr + 1) (m + n) =
          f.bytes (addr + 1) m ++ f.code (addr + 1 + UInt32.ofNat m) n := by
        by_cases more : 0 < m
        · obtain ⟨page, off⟩ := next_inside fits more
          exact ih (by rwa [page]) (by omega)
        · obtain rfl : m = 0 := by omega
          have same : addr + 1 + UInt32.ofNat 0 = addr + 1 :=
            UInt32.add_zero _
          rw [Nat.zero_add, same]
          rfl
      rw [Nat.succ_add, code, if_pos mapped, rest, add_one_add]
      rfl

theorem code_unmapped (missing : f.mapped (pageOf addr) = false) (len : Nat) :
    f.code addr len = [] := by
  cases len with
  | zero => rfl
  | succ len =>
      rw [code, missing]
      rfl

def overlayPage (f : Flat) (page off : Nat) (src : Bytes) : Flat :=
  { f with
    byte := fun other =>
      if pageOf other = page ∧ off ≤ offsetOf other then
        (src[offsetOf other - off]?).getD (f.byte other)
      else f.byte other
    dirty := fun other => if other = page then true else f.dirty other
    recent := fun i => if i = page % 64 then true else f.recent i }

theorem overlayPage_one (f : Flat) (addr : UInt32) (v : UInt8) :
    f.overlayPage (pageOf addr) (offsetOf addr) [v] = f.put addr v := by
  apply Flat.ext <;> try rfl
  funext other
  change (if pageOf other = pageOf addr ∧ offsetOf addr ≤ offsetOf other then _
    else f.byte other) = if other = addr then v else f.byte other
  by_cases same : other = addr
  · rw [if_pos same, same, if_pos ⟨rfl, Nat.le_refl _⟩, Nat.sub_self]
    rfl
  · rw [if_neg same]
    split
    · rename_i inside
      have apart : offsetOf other ≠ offsetOf addr := fun off =>
        same (address_ext inside.1 off)
      rw [List.getElem?_eq_none (by
        rw [List.length_singleton]
        omega)]
      rfl
    · rfl

theorem overlayPage_cons (f : Flat) (addr : UInt32) (b : UInt8) (src : Bytes) :
    (f.put addr b).overlayPage (pageOf addr) (offsetOf addr + 1) src =
      f.overlayPage (pageOf addr) (offsetOf addr) (b :: src) := by
  apply Flat.ext <;> try rfl
  · funext other
    change (if pageOf other = pageOf addr ∧ offsetOf addr + 1 ≤ offsetOf other
        then (src[offsetOf other - (offsetOf addr + 1)]?).getD
          (if other = addr then b else f.byte other)
        else if other = addr then b else f.byte other) =
      if pageOf other = pageOf addr ∧ offsetOf addr ≤ offsetOf other then
        ((b :: src)[offsetOf other - offsetOf addr]?).getD (f.byte other)
      else f.byte other
    by_cases same : other = addr
    · rw [same, if_neg (fun both => absurd both.2 (by omega)), if_pos rfl,
        if_pos ⟨rfl, Nat.le_refl _⟩, Nat.sub_self]
      rfl
    · rw [if_neg same]
      by_cases inside : pageOf other = pageOf addr ∧
          offsetOf addr ≤ offsetOf other
      · have apart : offsetOf other ≠ offsetOf addr := fun off =>
          same (address_ext inside.1 off)
        have shift : offsetOf other - offsetOf addr =
            offsetOf other - (offsetOf addr + 1) + 1 := by omega
        rw [if_pos ⟨inside.1, by omega⟩, if_pos inside, shift,
          List.getElem?_cons_succ]
      · rw [if_neg inside, if_neg fun both =>
          inside ⟨both.1, by omega⟩]
  · funext other
    change (if other = pageOf addr then true
      else if other = pageOf addr then true else f.dirty other) =
      if other = pageOf addr then true else f.dirty other
    split <;> rfl
  · funext i
    change (if i = pageOf addr % 64 then true
      else if i = pageOf addr % 64 then true else f.recent i) =
      if i = pageOf addr % 64 then true else f.recent i
    split <;> rfl

theorem writeBytes_inside (mapped : f.mapped (pageOf addr) = true) {b : UInt8}
    {src : Bytes} (fits : offsetOf addr + (b :: src).length ≤ pageSize) :
    f.writeBytes addr (b :: src) =
      (.ok (), f.overlayPage (pageOf addr) (offsetOf addr) (b :: src)) := by
  induction src generalizing f addr b with
  | nil =>
      rw [writeBytes, writeU8, if_pos mapped, overlayPage_one]
      rfl
  | cons c src ih =>
      rw [List.length_cons] at fits
      obtain ⟨page, off⟩ := next_inside fits (by
        rw [List.length_cons]
        omega)
      have rest : (f.put addr b).writeBytes (addr + 1) (c :: src) = _ :=
        ih (f := f.put addr b) (by
          rw [page]
          exact mapped) (by omega)
      rw [writeBytes, writeU8, if_pos mapped]
      change (f.put addr b).writeBytes (addr + 1) (c :: src) = _
      rw [rest, page, off, overlayPage_cons]

theorem writeBytes_unmapped (missing : f.mapped (pageOf addr) = false)
    (b : UInt8) (src : Bytes) :
    f.writeBytes addr (b :: src) = (.error ⟨addr, true⟩, f) := by
  rw [writeBytes, writeU8, missing]
  rfl

end Flat

end Exav.Emu
