import Exav.Lib.Follow
import Exav.Unpack.Partition

/-!
# Compound files

An OLE2 compound file holds its streams in sectors that a table, the FAT, links
to each other; small ones lie in a stream of their own with a table of its own.
The reader is lenient: header counts may be garbage, the last sector short, and
chains may end early or run in circles.
-/

namespace Exav.Unpack.Cfb

open Exav.Once
open Exav.Unpack.Partition (leUint)

def u16At : Bytes → Nat → Nat := leUint 2

def u32At : Bytes → Nat → Nat := leUint 4

def u64Max : Nat := 2 ^ 64 - 1

/-- The first eight bytes of a compound file. -/
def signature : Bytes := [0xD0, 0xCF, 0x11, 0xE0, 0xA1, 0xB1, 0x1A, 0xE1]

/-- The last number a sector may have. -/
def maxRegSect : Nat := 0xFFFFFFFA

/-- Streams under this size live in the mini stream. -/
def miniCutoff : Nat := 4096

/-- The longest a directory entry name is, in UTF-16 code units. -/
def nameUnits : Nat := 32

def storage : UInt8 := 1

def rootKind : UInt8 := 5

/-! ## Entries -/

structure Entry where
  name : String
  kind : UInt8
  left : Nat
  right : Nat
  child : Nat
  start : Nat
  size : Nat

/-- The characters of UTF-16 code units, the replacement character for a
surrogate without its pair. -/
def utf16Chars : List Nat → List Char
  | [] => []
  | [unit] => [if unit / 0x800 = 27 then '\uFFFD' else Char.ofNat unit]
  | high :: low :: units =>
      if high / 0x400 = 54 ∧ low / 0x400 = 55 then
        Char.ofNat (0x10000 + high % 0x400 * 0x400 + low % 0x400) ::
          utf16Chars units
      else
        (if high / 0x800 = 27 then '\uFFFD' else Char.ofNat high) ::
          utf16Chars (low :: units)

def fromUtf16Lossy (units : List Nat) : String :=
  String.ofList (utf16Chars units)

/-- A directory entry, the upper half of whose size only version 4 has. -/
def Entry.parse (v4 : Bool) (e : Bytes) : Entry where
  name :=
    let units := min (u16At e 64 / 2) nameUnits
    fromUtf16Lossy (((List.range units).map fun i => u16At e (i * 2)).takeWhile
      (· ≠ 0))
  kind := byteAt e 66
  left := u32At e 68
  right := u32At e 72
  child := u32At e 76
  start := u32At e 116
  size :=
    if v4 then u32At e 120 + u32At e 124 * 2 ^ 32 else u32At e 120

/-! ## The file -/

/-- A compound file in memory. -/
structure Compound where
  data : Bytes
  sectorSize : Nat
  miniSize : Nat
  fat : List Nat
  minifat : List Nat
  mini : Bytes
  entries : List Entry
  /-- The path of each entry from the root where the tree reaches it, else its
  bare name. -/
  paths : List String
  root : Nat
  someSector : 0 < sectorSize

namespace Compound

variable (c : Compound)

def sectorCount : Nat := (c.data.length - 1) / c.sectorSize

/-- Sector `s`, cut short at the end of the file. -/
def sector (s : Nat) : Option Bytes :=
  let off := (s + 1) * c.sectorSize
  if c.data.length ≤ off then none else some (window c.data off c.sectorSize)

/-- Mini sector `i`, cut short at the end of the mini stream. -/
def miniSector (i : Nat) : Option Bytes :=
  let off := i * c.miniSize
  let stop := min (off + c.miniSize) c.mini.length
  if stop < off then none
  else
    match window c.mini off (stop - off) with
    | [] => none
    | sec => some sec

end Compound

/-! ## Chains -/

structure ChainWalk where
  s : Nat
  seen : List Bool
  out : Bytes

/-- The next sector of a chain, unless the chain ends, leaves its table, comes
back, leaves the file or has given enough. -/
def chainStep (table : List Nat) (sectorAt : Nat → Option Bytes) (size : Nat)
    (w : ChainWalk) : Option (Option Nat × ChainWalk) :=
  if w.s ≤ maxRegSect ∧ w.out.length < size then
    match table[w.s]? with
    | none => none
    | some next =>
        if Marked w.seen w.s then none
        else
          match sectorAt w.s with
          | none => none
          | some sec => some (some w.s, ⟨next, w.seen.set w.s true, w.out ++ sec⟩)
  else none

def ChainWalk.init (table : List Nat) (start : Nat) : ChainWalk :=
  ⟨start, List.replicate table.length false, []⟩

/-- Up to `size` bytes of the chain from `start` on. -/
def chainBytes (table : List Nat) (sectorAt : Nat → Option Bytes)
    (start size : Nat) : Bytes :=
  (walk (chainStep table sectorAt size) table.length
    (.init table start)).2.out.take size

/-- Sectors from `s` on are linked to the next ones, so many times over. -/
def linked (fat : List Nat) : (links s : Nat) → Bool
  | 0, _ => true
  | links + 1, s => fat[s]? = some (s + 1) && linked fat links (s + 1)

namespace Compound

variable (c : Compound)

/-- How many sectors so many bytes take. -/
def sectorsFor (size : Nat) : Nat := (size + c.sectorSize - 1) / c.sectorSize

/-- The stream's bytes in the file when its sectors follow each other there. -/
def contiguous (start size : Nat) : Option Bytes :=
  let first := (start + 1) * c.sectorSize
  if c.data.length < first + size then none
  else if linked c.fat (c.sectorsFor size - 1) start then
    some (window c.data first size)
  else none

def readChain (start size : Nat) : Bytes :=
  chainBytes c.fat c.sector start size

def readMiniChain (start size : Nat) : Bytes :=
  chainBytes c.minifat c.miniSector start size

end Compound

/-! ## The tree -/

/-- The tree as it is walked: the storages to come, the members of one to come,
both from the last one on, and the path that one has. -/
structure TreeWalk where
  storages : List (Nat × String)
  base : String
  members : List Nat
  seen : List Bool
  paths : List (Option String)

def treeStep (entries : List Entry) (w : TreeWalk) :
    Option (Option Nat × TreeWalk) :=
  match w.members, w.storages with
  | m :: members, storages =>
      match entries[m]? with
      | none => some (none, { w with members := members })
      | some e =>
          if Marked w.seen m then some (none, { w with members := members })
          else
            let path := w.base ++ "/" ++ e.name
            some (some m,
              { w with
                members := e.right :: e.left :: members
                seen := w.seen.set m true
                paths := w.paths.set m (some path)
                storages :=
                  if e.kind = storage then (m, path) :: storages else storages })
  | [], (s, base) :: storages =>
      some (none,
        { w with
          members := (entries[s]?.map Entry.child).toList
          base := base
          storages := storages })
  | [], [] => none

/-- A walk of siblings: those to come, from the last one on, and those met. -/
structure MembersWalk where
  stack : List Nat
  seen : List Bool
  out : List Nat

def membersStep (entries : List Entry) (w : MembersWalk) :
    Option (Option Nat × MembersWalk) :=
  match w.stack with
  | [] => none
  | i :: stack =>
      match entries[i]? with
      | none => some (none, { w with stack := stack })
      | some e =>
          if Marked w.seen i then some (none, { w with stack := stack })
          else
            some (some i, ⟨e.right :: e.left :: stack, w.seen.set i true,
              w.out ++ [i]⟩)

namespace Compound

variable (c : Compound)

def treeInit : TreeWalk where
  storages := [(c.root, "")]
  base := ""
  members := []
  seen := (List.replicate c.entries.length false).set c.root true
  paths := List.replicate c.entries.length none

/-- What is left to do of a tree walk is never more. -/
def treeRounds : Nat := 4 * c.entries.length + 2

/-- The path of each entry, from the tree.  An entry the walk does not reach
keeps its bare name. -/
def treePaths : List String :=
  let paths := (walk (treeStep c.entries) c.treeRounds c.treeInit).2.paths
  (paths.zip c.entries).map fun (path, e) => path.getD e.name

def membersInit : MembersWalk where
  stack := (c.entries[c.root]?.map Entry.child).toList
  seen := List.replicate c.entries.length false
  out := []

def membersRounds : Nat := 2 * c.entries.length + 1

end Compound

/-! ## Opening -/

structure DifatWalk where
  difat : Nat
  seen : List Bool
  fatSectors : List Nat

namespace Compound

variable (c : Compound)

/-- A number a sector of the file has. -/
def isSector (s : Nat) : Bool := s ≤ maxRegSect && s < c.sectorCount

def difatStep (w : DifatWalk) : Option (Option Nat × DifatWalk) :=
  if c.isSector w.difat ∧ ¬ Marked w.seen w.difat then
    match c.sector w.difat with
    | none => none
    | some sec =>
        let per := c.sectorSize / 4
        let listed := (List.range (per - 1)).map fun i => u32At sec (i * 4)
        some (some w.difat,
          { difat := u32At sec ((per - 1) * 4)
            seen := w.seen.set w.difat true
            fatSectors := w.fatSectors ++ listed.filter c.isSector })
  else none

def difatInit : DifatWalk where
  difat := u32At c.data 68
  seen := List.replicate c.sectorCount false
  fatSectors :=
    ((List.range 109).map fun i => u32At c.data (76 + i * 4)).filter c.isSector

/-- The FAT's sectors: the header's 109, then the DIFAT chain. -/
def fatSectors : List Nat :=
  (walk c.difatStep c.sectorCount c.difatInit).2.fatSectors.take c.sectorCount

def gatherFat : List Nat → List Nat → List Nat
  | fat, [] => fat
  | fat, s :: fatSectors =>
      let entries := match c.sector s with
        | none => []
        | some sec => (List.range (sec.length / 4)).map fun i => u32At sec (i * 4)
      let fat := fat ++ entries
      if c.sectorCount ≤ fat.length then fat else gatherFat fat fatSectors

def openFile (data : Bytes) : Option Compound :=
  if data.length < 512 ∨ data.take 8 ≠ signature then none
  else
    let shift := u16At data 30
    let miniShift := u16At data 32
    if ¬ (7 ≤ shift ∧ shift ≤ 24) then none
    else if ¬ (3 ≤ miniShift ∧ miniShift ≤ 12) then none
    else
      let v4 : Bool := 4 ≤ u16At data 26
      let c : Compound :=
        { data := data
          sectorSize := 2 ^ shift
          miniSize := 2 ^ miniShift
          fat := [], minifat := [], mini := [], entries := [], paths := []
          root := 0
          someSector := Nat.two_pow_pos shift }
      let fat := (c.gatherFat [] c.fatSectors).take c.sectorCount
      if fat = [] then none
      else
        let c := { c with fat := fat }
        let dir := c.readChain (u32At data 48) u64Max
        let entries := (List.range (dir.length / 128)).map fun i =>
          Entry.parse v4 (window dir (i * 128) 128)
        -- The root is entry 0; its type byte may be damaged.
        let root := (entries.findIdx? fun e => e.kind = rootKind).or
          (if entries ≠ [] then some 0 else none)
        match root with
        | none => none
        | some root =>
            let c := { c with entries := entries, root := root }
            let minifat := c.readChain (u32At data 60) u64Max
            let c :=
              { c with
                minifat := (List.range (minifat.length / 4)).map fun i =>
                  u32At minifat (i * 4) }
            let mini := match c.entries[root]? with
              | none => []
              | some e => c.readChain e.start e.size
            let c := { c with mini := mini }
            some { c with paths := c.treePaths }

/-! ## Reading -/

/-- What a read gives: the stream's bytes, as far as its chain goes and the cap
allows, and whether they were cut. -/
structure Stream where
  data : Bytes
  truncated : Bool
  deriving DecidableEq

def readData (e : Entry) (want : Nat) : Bytes :=
  if e.size < miniCutoff then c.readMiniChain e.start want
  else
    match c.contiguous e.start want with
    | some d => d
    | none => c.readChain e.start want

/-- The stream at `index` of the directory, as far as its chain goes, and no
further than `cap` bytes. -/
def read (index cap : Nat) : Stream :=
  match c.entries[index]? with
  | none => ⟨[], false⟩
  | some e =>
      let data := c.readData e (min e.size cap)
      ⟨data, cap < e.size && data.length < e.size⟩

end Compound

/-!
## Streams as their chains hold them

A chain goes from sector to sector as its table links them, until it comes to a
number that is none, leaves the table or the file, or comes back.  What the
reader gives of a stream is what its chain holds, unless the stream's sectors
follow each other in the file past what the FAT says of them, or its chain ends
within the cap while its declared size goes past it.
-/

/-! ## Chains -/

/-- The sectors of a chain from `s` on, after those of `before`. -/
inductive Chain (table : List Nat) (sectorAt : Nat → Option Bytes) :
    (before : List Nat) → (s : Nat) → (sectors : List Nat) → Prop where
  | irregular {before : List Nat} {s : Nat} :
      maxRegSect < s → Chain table sectorAt before s []
  | outside {before : List Nat} {s : Nat} :
      table[s]? = none → Chain table sectorAt before s []
  | circle {before : List Nat} {s : Nat} :
      s ∈ before → Chain table sectorAt before s []
  | missing {before : List Nat} {s : Nat} :
      sectorAt s = none → Chain table sectorAt before s []
  | link {before : List Nat} {s next : Nat} {sec : Bytes} {sectors : List Nat} :
      s ≤ maxRegSect → table[s]? = some next → s ∉ before →
      sectorAt s = some sec → Chain table sectorAt (s :: before) next sectors →
      Chain table sectorAt before s (s :: sectors)

def concat (sectorAt : Nat → Option Bytes) (sectors : List Nat) : Bytes :=
  sectors.flatMap fun s => (sectorAt s).getD []

section

variable {table : List Nat} {sectorAt : Nat → Option Bytes}
  {before sectors : List Nat} {s : Nat}

/-- The marks of a walk are those of the sectors it came to. -/
structure Marking (table : List Nat) (seen : List Bool) (before : List Nat) :
    Prop where
  length : seen.length = table.length
  marked : ∀ i, Marked seen i ↔ i ∈ before ∧ i < table.length

theorem marking_init (table : List Nat) :
    Marking table (List.replicate table.length false) [] where
  length := List.length_replicate
  marked := by
    intro i
    simp [Marked, List.getElem?_replicate]

theorem Marking.mark {seen : List Bool} (marking : Marking table seen before)
    (inside : s < table.length) :
    Marking table (seen.set s true) (s :: before) where
  length := by rw [List.length_set, marking.length]
  marked := by
    intro i
    have known := marking.marked i
    unfold Marked at known ⊢
    by_cases same : s = i
    · subst same
      rw [List.getElem?_set_self (by rw [marking.length]; exact inside)]
      simp [inside]
    · rw [List.getElem?_set_ne same, known, List.mem_cons]
      simp [Ne.symm same]

theorem walk_full {size : Nat} {seen : List Bool} {out : Bytes}
    (given : size ≤ out.length) (rounds : Nat) (more : Bytes) :
    (walk (chainStep table sectorAt size) rounds ⟨s, seen, out⟩).2.out.take size =
      (out ++ more).take size := by
  have excess : chainStep table sectorAt size ⟨s, seen, out⟩ = none :=
    if_neg fun going => absurd going.2 (Nat.not_lt_of_le given)
  rw [walk_over excess, List.take_append_of_le_length given]

theorem chainStep_end {size : Nat} {seen : List Bool} {out : Bytes}
    (chain : Chain table sectorAt before s [])
    (marking : Marking table seen before) :
    chainStep table sectorAt size ⟨s, seen, out⟩ = none := by
  unfold chainStep
  split
  · rename_i going
    dsimp only at going ⊢
    split
    · rfl
    · rename_i next found
      have inside := (List.getElem?_eq_some_iff.mp found).1
      cases chain with
      | irregular large => exact absurd going.1 (Nat.not_le_of_lt large)
      | outside absent =>
          rw [absent] at found
          cases found
      | circle came => rw [if_pos ((marking.marked s).mpr ⟨came, inside⟩)]
      | missing absent =>
          rw [absent]
          split <;> rfl
  · rfl

theorem walk_chain {size rounds : Nat} {seen : List Bool} {out : Bytes}
    (chain : Chain table sectorAt before s sectors)
    (marking : Marking table seen before) (enough : unmarked seen ≤ rounds) :
    (walk (chainStep table sectorAt size) rounds ⟨s, seen, out⟩).2.out.take size =
      (out ++ concat sectorAt sectors).take size := by
  induction chain generalizing rounds seen out with
  | irregular large =>
      rw [walk_over (chainStep_end (.irregular large) marking), concat,
        List.flatMap_nil, List.append_nil]
  | outside absent =>
      rw [walk_over (chainStep_end (.outside absent) marking), concat,
        List.flatMap_nil, List.append_nil]
  | circle came =>
      rw [walk_over (chainStep_end (.circle came) marking), concat,
        List.flatMap_nil, List.append_nil]
  | missing absent =>
      rw [walk_over (chainStep_end (.missing absent) marking), concat,
        List.flatMap_nil, List.append_nil]
  | @link before s next sec sectors regular found new held rest ih =>
      by_cases room : out.length < size
      · have inside := (List.getElem?_eq_some_iff.mp found).1
        have fresh : ¬ Marked seen s :=
          fun marked => new ((marking.marked s).mp marked).1
        have step : chainStep table sectorAt size ⟨s, seen, out⟩ =
            some (some s, ⟨next, seen.set s true, out ++ sec⟩) := by
          unfold chainStep
          rw [if_pos ⟨regular, room⟩, found]
          dsimp only
          rw [if_neg fresh, held]
        have fewer := unmarked_set (by rw [marking.length]; exact inside) fresh
        obtain ⟨less, rfl⟩ : ∃ less, rounds = less + 1 := ⟨rounds - 1, by omega⟩
        rw [walk_step step, ih (marking.mark inside) (by omega), concat, concat,
          List.flatMap_cons, held, Option.getD_some, List.append_assoc]
      · exact walk_full (Nat.le_of_not_lt room) rounds _

theorem chainBytes_eq {start size : Nat}
    (chain : Chain table sectorAt [] start sectors) :
    chainBytes table sectorAt start size =
      (concat sectorAt sectors).take size := by
  have enough : unmarked (List.replicate table.length false) ≤ table.length :=
    (unmarked_le _).trans List.length_replicate.le
  exact walk_chain chain (marking_init table) enough

/-! ### Every start has one chain -/

theorem chain_exists {seen : List Bool} (marking : Marking table seen before)
    (s : Nat) : ∃ sectors, Chain table sectorAt before s sectors := by
  induction left : unmarked seen using Nat.strong_induction_on
    generalizing seen before s with
  | h left ih =>
      by_cases regular : s ≤ maxRegSect
      · cases found : table[s]? with
        | none => exact ⟨[], .outside found⟩
        | some next =>
            have inside := (List.getElem?_eq_some_iff.mp found).1
            by_cases came : s ∈ before
            · exact ⟨[], .circle came⟩
            · have fresh : ¬ Marked seen s :=
                fun marked => came ((marking.marked s).mp marked).1
              have fewer := unmarked_set (by rw [marking.length]; exact inside)
                fresh
              cases held : sectorAt s with
              | none => exact ⟨[], .missing held⟩
              | some sec =>
                  obtain ⟨sectors, rest⟩ :=
                    ih _ (by omega) (marking.mark inside) next rfl
                  exact ⟨s :: sectors, .link regular found came held rest⟩
      · exact ⟨[], .irregular (Nat.lt_of_not_le regular)⟩

theorem Chain.unique {others : List Nat}
    (chain : Chain table sectorAt before s sectors)
    (other : Chain table sectorAt before s others) : sectors = others := by
  induction chain generalizing others with
  | irregular large =>
      cases other with
      | link regular => exact absurd regular (Nat.not_le_of_lt large)
      | _ => rfl
  | outside absent =>
      cases other with
      | link _ found =>
          rw [absent] at found
          cases found
      | _ => rfl
  | circle came =>
      cases other with
      | link _ _ new => exact absurd came new
      | _ => rfl
  | missing absent =>
      cases other with
      | link _ _ _ held =>
          rw [absent] at held
          cases held
      | _ => rfl
  | link regular found new held rest ih =>
      cases other with
      | irregular large => exact absurd regular (Nat.not_le_of_lt large)
      | outside absent =>
          rw [absent] at found
          cases found
      | circle came => exact absurd came new
      | missing absent =>
          rw [absent] at held
          cases held
      | link _ found' _ _ rest' =>
          rw [found] at found'
          cases found'
          rw [ih rest']

theorem Chain.goes_on {next : Nat} {sec : Bytes}
    (chain : Chain table sectorAt before s sectors) (regular : s ≤ maxRegSect)
    (found : table[s]? = some next) (new : s ∉ before)
    (held : sectorAt s = some sec) :
    ∃ rest, Chain table sectorAt (s :: before) next rest ∧ sectors = s :: rest := by
  cases chain with
  | irregular large => exact absurd regular (Nat.not_le_of_lt large)
  | outside absent =>
      rw [absent] at found
      cases found
  | circle came => exact absurd came new
  | missing absent =>
      rw [absent] at held
      cases held
  | link _ found' _ _ rest =>
      rw [found] at found'
      cases found'
      exact ⟨_, rest, rfl⟩

end

namespace Compound

variable {c : Compound} {before sectors : List Nat} {s links size : Nat}

theorem linked_succ {fat : List Nat} {links s : Nat} :
    linked fat (links + 1) s = true ↔
      fat[s]? = some (s + 1) ∧ linked fat links (s + 1) = true := by
  rw [linked, Bool.and_eq_true, decide_eq_true_eq]

theorem sector_whole
    (inside : (s + 1) * c.sectorSize + size ≤ c.data.length) (some_size : 0 < size) :
    c.sector s = some (window c.data ((s + 1) * c.sectorSize) c.sectorSize) := by
  unfold sector
  dsimp only
  rw [if_neg (by omega)]

theorem concat_linked (chain : Chain c.fat c.sector before s sectors)
    (new : ∀ i ∈ before, i < s) (run : linked c.fat links s = true)
    (inside : (s + 1) * c.sectorSize + size ≤ c.data.length)
    (more : links * c.sectorSize < size)
    (fits : size ≤ (links + 1) * c.sectorSize)
    (listed : s + links < c.fat.length) (regular : s + links ≤ maxRegSect) :
    (concat c.sector sectors).take size =
      window c.data ((s + 1) * c.sectorSize) size := by
  have fresh : s ∉ before := fun there => Nat.lt_irrefl s (new s there)
  have held := sector_whole inside (by omega)
  induction links generalizing before s sectors size with
  | zero =>
      obtain ⟨rest, -, rfl⟩ := chain.goes_on regular
        (List.getElem?_eq_getElem listed) fresh held
      rw [Nat.zero_add, Nat.one_mul] at fits
      have whole : size ≤
          (window c.data ((s + 1) * c.sectorSize) c.sectorSize).length := by
        rw [length_window]
        omega
      rw [concat, List.flatMap_cons, held, Option.getD_some,
        List.take_append_of_le_length whole]
      unfold window
      rw [List.take_take, Nat.min_eq_left fits]
  | succ links ih =>
      obtain ⟨link, run⟩ := linked_succ.mp run
      obtain ⟨rest, further, rfl⟩ := chain.goes_on (by omega) link fresh held
      have next_start : (s + 1 + 1) * c.sectorSize =
          (s + 1) * c.sectorSize + c.sectorSize := Nat.succ_mul _ _
      rw [Nat.succ_mul] at more
      rw [Nat.succ_mul (links + 1)] at fits
      have whole : (window c.data ((s + 1) * c.sectorSize) c.sectorSize).length =
          c.sectorSize := length_window_of_le (by omega)
      have later : ∀ i ∈ s :: before, i < s + 1 := by
        intro i there
        rcases List.mem_cons.mp there with same | earlier
        · omega
        · exact Nat.lt_succ_of_lt (new i earlier)
      have left : (s + 1 + 1) * c.sectorSize + (size - c.sectorSize) ≤
          c.data.length := by omega
      have tail := ih further later run left (by omega) (by omega) (by omega)
        (by omega) (fun there => Nat.lt_irrefl _ (later _ there))
        (sector_whole left (by omega))
      rw [concat] at tail ⊢
      rw [List.flatMap_cons, held, Option.getD_some, List.take_append, whole, tail,
        List.take_of_length_le (by omega), next_start, window_append]
      congr 1
      omega

theorem concat_short (chain : Chain c.fat c.sector before s sectors)
    (run : linked c.fat links s = true)
    (more : links * c.sectorSize < size)
    (stops : c.fat.length ≤ s + links ∨ maxRegSect < s + links) :
    (concat c.sector sectors).length < size := by
  have sector_le : ∀ s, ((c.sector s).getD []).length ≤ c.sectorSize := by
    intro s
    unfold sector
    dsimp only
    split
    · exact Nat.zero_le _
    · rw [Option.getD_some, length_window]
      exact Nat.min_le_left _ _
  induction links generalizing before s sectors size with
  | zero =>
      have excess : sectors = [] := by
        cases chain with
        | link regular found =>
            have inside := (List.getElem?_eq_some_iff.mp found).1
            omega
        | _ => rfl
      rw [excess]
      exact more.trans_le' (Nat.zero_le _)
  | succ links ih =>
      obtain ⟨link, run⟩ := linked_succ.mp run
      rw [Nat.succ_mul] at more
      cases chain with
      | link regular found fresh held rest =>
          rw [link] at found
          cases found
          have left : links * c.sectorSize < size - c.sectorSize := by omega
          have tail := ih rest run left (by omega)
          have first := sector_le s
          rw [concat] at tail ⊢
          rw [List.flatMap_cons, List.length_append]
          omega
      | _ => exact more.trans_le' (Nat.zero_le _)

end Compound

end Exav.Unpack.Cfb
