import Exav.Text
import Exav.Unpack.Partition

/-!
# Disc images

The descriptors from sector 16 on name the root directories of an ISO 9660 image.
Each directory is a run of records, of files and of further directories, and each
file is a region of the image.
-/

set_option maxRecDepth 4096

namespace Exav.Unpack.Iso

open Exav.Unpack.Partition (Region leU16)

/-! ## Descriptors -/

def sector : Nat := 2048

/-- The most directories that are walked. -/
def maxDirs : Nat := 1024

/-- `CD001` -/
def standardId : Bytes := [0x43, 0x44, 0x30, 0x30, 0x31]

/-- The number at two bytes, the most significant first. -/
def beUnits : Bytes → List Nat
  | high :: low :: bytes => (high.toNat * 256 + low.toNat) :: beUnits bytes
  | _ => []

/-- A record's name, without its version. -/
def decodeName (raw : Bytes) (joliet : Bool) : String :=
  let name :=
    if joliet then fromUtf16Lossy (beUnits raw)
    else (fromUtf8Lossy raw).toList
  String.ofList (name.takeWhile (· ≠ ';'))

/-- A directory that is to be walked, and the kind of tree it is in. -/
structure Dir where
  joliet : Bool
  lba : Nat
  len : Nat
  deriving DecidableEq

/-- Where a directory stands, as far as the walk tells one from another. -/
def Dir.place (d : Dir) : Bool × Nat :=
  (d.joliet, d.lba)

/-- Whether a sector holds a volume descriptor. -/
def IsDescriptor (vd : Bytes) : Prop :=
  190 ≤ vd.length ∧ window vd 1 5 = standardId

instance (vd : Bytes) : Decidable (IsDescriptor vd) :=
  inferInstanceAs (Decidable (_ ∧ _))

def typeOf (vd : Bytes) : Nat :=
  (vd.headD 0).toNat

/-- A secondary descriptor with an escape sequence. -/
def isJoliet (vd : Bytes) : Bool :=
  typeOf vd == 2 && vd[88]? == some 0x25

def rootOf (vd : Bytes) : Dir :=
  ⟨isJoliet vd, Partition.leU32 vd (156 + 2), Partition.leU32 vd (156 + 10)⟩

def descriptorAt (image : Bytes) (i : Nat) : Bytes :=
  window image ((i + 16) * sector) 190

def vdRootsFrom (image : Bytes) : (left i : Nat) → List Dir
  | 0, _ => []
  | left + 1, i =>
      let vd := descriptorAt image i
      if ¬ IsDescriptor vd ∨ typeOf vd = 255 then []
      else if typeOf vd ≠ 1 ∧ typeOf vd ≠ 2 then vdRootsFrom image left (i + 1)
      else rootOf vd :: vdRootsFrom image left (i + 1)

def vdRoots (image : Bytes) : List Dir :=
  let roots := vdRootsFrom image 32 0
  roots.filter (·.joliet) ++ roots.filter (!·.joliet)

/-! ## Records -/

/-- The records of a directory from a place on, and whether a corrupt one ends
them.  A zero length leads to the next sector. -/
def recordsFrom : (rounds : Nat) → (dir : Bytes) → (p : Nat) → List Bytes × Bool
  | 0, _, _ => ([], false)
  | rounds + 1, dir, p =>
      match dir[p]? with
      | none => ([], false)
      | some recLen =>
          if recLen = 0 then recordsFrom rounds dir ((p / sector + 1) * sector)
          else if recLen.toNat < 33 ∨ p + recLen.toNat > dir.length then ([], true)
          else
            let rest := recordsFrom rounds dir (p + recLen.toNat)
            (window dir p recLen.toNat :: rest.1, rest.2)

/-- Every round goes on in the directory. -/
def records (dir : Bytes) : List Bytes × Bool :=
  recordsFrom dir.length dir 0

def childLba (rec : Bytes) : Nat := Partition.leU32 rec 2

def childLen (rec : Bytes) : Nat := Partition.leU32 rec 10

def flags (rec : Bytes) : UInt8 := rec.getD 25 0

def nameLen (rec : Bytes) : Nat := (rec.getD 32 0).toNat

def isSelfOrParent (rec : Bytes) : Bool :=
  nameLen rec == 1 && (rec[33]? == some 0 || rec[33]? == some 1)

def isDirectory (rec : Bytes) : Bool :=
  flags rec &&& 2 != 0

def rawName (rec : Bytes) : Bytes :=
  window rec 33 (min (nameLen rec) (rec.length - 33))

/-! ## The walk -/

/-- The directories that are still to be walked, those that were ever put there,
the files that were met, and the regions. -/
structure Walk where
  dirs : List Dir
  queued : List (Bool × Nat)
  seen : List (Nat × Nat)
  out : List Region

/-- A file's region, cut at the end of the image. -/
def fileRegion (total : Nat) (name : String) (lba len : Nat) : Option Region :=
  let start := lba * sector
  let stop := min (start + len) total
  if stop > start then some (.member name start (stop - start)) else none

def visitRecord (total : Nat) (joliet : Bool) (w : Walk) (rec : Bytes) : Walk :=
  let lba := childLba rec
  let len := childLen rec
  if isSelfOrParent rec then w
  else if isDirectory rec then
    if (joliet, lba) ∈ w.queued then w
    else
      { w with
        queued := w.queued ++ [(joliet, lba)]
        dirs := ⟨joliet, lba, len⟩ :: w.dirs }
  else if (lba, len) ∈ w.seen then w
  else
    { w with
      seen := w.seen ++ [(lba, len)]
      out := w.out ++
        (fileRegion total (decodeName (rawName rec) joliet) lba len).toList }

def truncated (lba : Nat) : Region :=
  .unwalked s!"<iso-directory@lba{lba}-truncated>"
    "corrupt ISO directory record; remaining entries unreadable"

def tooMany : Region :=
  .unwalked s!"<iso-directories-beyond-{maxDirs}>"
    "too many ISO directories to walk them all"

/-- What is read of a directory: no more than its length, and than may be held. -/
def readDir (image : Bytes) (maxBuffer : Nat) (d : Dir) : Bytes :=
  let start := d.lba * sector
  window image start (min (min d.len (image.length - start)) maxBuffer)

def walkDir (image : Bytes) (maxBuffer : Nat) (w : Walk) (d : Dir) : Walk :=
  let recs := records (readDir image maxBuffer d)
  let w := recs.1.foldl (visitRecord image.length d.joliet) w
  if recs.2 then { w with out := w.out ++ [truncated d.lba] } else w

def walkFor (image : Bytes) (maxBuffer : Nat) : (left : Nat) → Walk → Walk
  | left, w =>
      match w.dirs, left with
      | [], _ => w
      | _ :: dirs, 0 => { w with dirs := dirs, out := w.out ++ [tooMany] }
      | d :: dirs, left + 1 =>
          walkFor image maxBuffer left
            (walkDir image maxBuffer { w with dirs := dirs } d)

/-- The files of an image as regions, and where they start and how long they are
said to be. -/
def streamOffsets (image : Bytes) (maxBuffer : Nat) :
    List Region × List (Nat × Nat) :=
  let roots := vdRoots image
  let w := walkFor image maxBuffer maxDirs
    ⟨roots, roots.map Dir.place, [], []⟩
  (w.out, w.seen)

/-- The directories that are read where so many may be walked yet. -/
def walkedFor (image : Bytes) (maxBuffer : Nat) : (left : Nat) → Walk → List Dir
  | left, w =>
      match w.dirs, left with
      | [], _ => []
      | _ :: _, 0 => []
      | d :: dirs, left + 1 =>
          d :: walkedFor image maxBuffer left
            (walkDir image maxBuffer { w with dirs := dirs } d)

def walked (image : Bytes) (maxBuffer : Nat) : List Dir :=
  walkedFor image maxBuffer maxDirs
    ⟨vdRoots image, (vdRoots image).map Dir.place, [], []⟩

/-! ## What the standard reads -/

/-- The blocks of the extended attributes, in front of what a record is of. -/
def extAttr (rec : Bytes) : Nat := (rec.getD 1 0).toNat

def blockSize (vd : Bytes) : Nat := leU16 vd 128

def rootRecord (vd : Bytes) : Bytes := window vd 156 34

structure Tree (image : Bytes) (i : Nat) : Prop where
  early : i < 32
  isDescriptor : IsDescriptor (descriptorAt image i)
  kind : typeOf (descriptorAt image i) = 1 ∨ typeOf (descriptorAt image i) = 2
  before : ∀ j < i, IsDescriptor (descriptorAt image j) →
    typeOf (descriptorAt image j) ≠ 255

/-- How many blocks of an interleaved file stand together. -/
def fileUnit (rec : Bytes) : Nat := (rec.getD 26 0).toNat

/-- How many blocks stand between two such units. -/
def gapSize (rec : Bytes) : Nat := (rec.getD 27 0).toNat

def startOf (block : Nat) (rec : Bytes) : Nat :=
  (childLba rec + extAttr rec) * block

def placeOf (block : Nat) (rec : Bytes) (k : Nat) : Nat :=
  let unit := fileUnit rec * block
  startOf block rec +
    if fileUnit rec = 0 then k
    else k / unit * ((fileUnit rec + gapSize rec) * block) + k % unit

def content (image : Bytes) (block : Nat) (rec : Bytes) : Bytes :=
  window image (startOf block rec) (childLen rec)

/-- The directories that records lead to from the root of a tree. -/
inductive Reach (image vd : Bytes) : Bytes → Prop where
  | root : Reach image vd (rootRecord vd)
  | child {dir rec : Bytes} : Reach image vd dir →
      rec ∈ (records (content image (blockSize vd) dir)).1 →
      isSelfOrParent rec = false → isDirectory rec = true → Reach image vd rec

structure IsFile (image vd dir rec : Bytes) : Prop where
  reach : Reach image vd dir
  member : rec ∈ (records (content image (blockSize vd) dir)).1
  named : isSelfOrParent rec = false
  file : isDirectory rec = false

def Held (out : List Region) (i : Nat) : Prop :=
  ∃ name start len, .member name start len ∈ out ∧ start ≤ i ∧ i < start + len

def Reported (out : List Region) : Prop :=
  ∃ name reason, .unwalked name reason ∈ out

structure Covered (image vd : Bytes) (out : List Region) : Prop where
  whole : ∀ dir, Reach image vd dir →
    (records (content image (blockSize vd) dir)).2 = false
  held : ∀ dir rec, IsFile image vd dir rec → ∀ k < childLen rec,
    placeOf (blockSize vd) rec k < image.length →
    Held out (placeOf (blockSize vd) rec k)

def Found (image : Bytes) (out : List Region) : Prop :=
  Reported out ∨ ∀ n, Tree image n → Covered image (descriptorAt image n) out

/-- A file in one piece: not interleaved, or not past its first unit. -/
def OnePiece (rec : Bytes) : Prop :=
  fileUnit rec = 0 ∨ gapSize rec = 0 ∨ childLen rec ≤ fileUnit rec * sector

/-- The descriptors have no gap, and the walk comes to nothing whose place or
length it mistakes, empty ones apart: where it reads a root, blocks are sectors;
no directory it reads is longer than may be held; a file that a record there
names has no extended attributes and is not interleaved; and so has a directory
none, where the walk reads it at all, and is read as long as the record says. -/
structure Plain (image : Bytes) (maxBuffer : Nat) : Prop where
  gapless : ∀ n, Tree image n → ∀ j < n, IsDescriptor (descriptorAt image j)
  roots : ∀ n, Tree image n → childLen (rootRecord (descriptorAt image n)) ≠ 0 →
    rootOf (descriptorAt image n) ∈ walked image maxBuffer →
    blockSize (descriptorAt image n) = sector ∧
      extAttr (rootRecord (descriptorAt image n)) = 0
  short : ∀ d ∈ walked image maxBuffer,
    min d.len (image.length - d.lba * sector) ≤ maxBuffer
  dirs : ∀ d ∈ walked image maxBuffer,
    ∀ rec ∈ (records (readDir image maxBuffer d)).1,
    isSelfOrParent rec = false → isDirectory rec = true → childLen rec ≠ 0 →
    ∀ e ∈ walked image maxBuffer, e.place = (d.joliet, childLba rec) →
      extAttr rec = 0 ∧
        ⟨d.joliet, childLba rec, childLen rec⟩ ∈ walked image maxBuffer
  files : ∀ d ∈ walked image maxBuffer,
    ∀ rec ∈ (records (readDir image maxBuffer d)).1,
    isSelfOrParent rec = false → isDirectory rec = false → childLen rec ≠ 0 →
    extAttr rec = 0 ∧ OnePiece rec

/-! ## The regions and the files -/

/-- Where a file starts and how much of it the image has, if any. -/
def span (total : Nat) (f : Nat × Nat) : Option (Nat × Nat) :=
  let stop := min (f.1 * sector + f.2) total
  if stop > f.1 * sector then some (f.1 * sector, stop - f.1 * sector) else none

def spanOf : Region → Option (Nat × Nat)
  | .member _ start len => some (start, len)
  | .unwalked _ _ => none

/-- Each file that was met is a member once, as much of it as the image has. -/
structure Tidy (total : Nat) (w : Walk) : Prop where
  nodup : w.seen.Nodup
  members : w.out.filterMap spanOf = w.seen.filterMap (span total)

theorem filterMap_fileRegion (total : Nat) (name : String) (lba len : Nat) :
    (fileRegion total name lba len).toList.filterMap spanOf =
      [(lba, len)].filterMap (span total) := by
  simp only [fileRegion, span, List.filterMap_cons, List.filterMap_nil]
  split_ifs <;> rfl

section

variable {image : Bytes} {maxBuffer total : Nat} {joliet : Bool} {w : Walk}

theorem Tidy.visitRecord (tidy : Tidy total w) (rec : Bytes) :
    Tidy total (visitRecord total joliet w rec) := by
  unfold Iso.visitRecord
  dsimp only
  split_ifs with own directory queued seen
  · exact tidy
  · exact tidy
  · exact ⟨tidy.nodup, tidy.members⟩
  · exact tidy
  · refine ⟨List.nodup_append.mpr ⟨tidy.nodup, List.nodup_singleton _, ?_⟩, ?_⟩
    · rintro f member _ other rfl
      rw [List.mem_singleton] at other
      exact seen (other ▸ member)
    · dsimp only
      rw [List.filterMap_append, List.filterMap_append, tidy.members,
        filterMap_fileRegion]

theorem Tidy.unwalked (tidy : Tidy total w) (name reason : String)
    (dirs : List Dir) :
    Tidy total { w with dirs := dirs, out := w.out ++ [.unwalked name reason] } :=
  ⟨tidy.nodup, by
    dsimp only
    rw [List.filterMap_append, tidy.members]
    exact List.append_nil _⟩

theorem Tidy.foldl (tidy : Tidy total w) (recs : List Bytes) :
    Tidy total (recs.foldl (Iso.visitRecord total joliet) w) := by
  induction recs generalizing w with
  | nil => exact tidy
  | cons rec recs ih => exact ih (tidy.visitRecord rec)

theorem Tidy.walkDir (tidy : Tidy image.length w) (d : Dir) :
    Tidy image.length (walkDir image maxBuffer w d) := by
  unfold Iso.walkDir
  dsimp only
  split_ifs
  · exact (tidy.foldl _).unwalked _ _ _
  · exact tidy.foldl _

theorem walkFor_nil (none_ : w.dirs = []) (left : Nat) :
    walkFor image maxBuffer left w = w := by
  unfold walkFor
  rw [none_]

theorem walkFor_zero {d : Dir} {dirs : List Dir} (more : w.dirs = d :: dirs) :
    walkFor image maxBuffer 0 w =
      { w with dirs := dirs, out := w.out ++ [tooMany] } := by
  unfold walkFor
  rw [more]

theorem walkFor_succ {d : Dir} {dirs : List Dir} (more : w.dirs = d :: dirs)
    (left : Nat) :
    walkFor image maxBuffer (left + 1) w =
      walkFor image maxBuffer left
        (walkDir image maxBuffer { w with dirs := dirs } d) := by
  conv_lhs => unfold walkFor
  rw [more]

theorem walkedFor_nil (none_ : w.dirs = []) (left : Nat) :
    walkedFor image maxBuffer left w = [] := by
  unfold walkedFor
  rw [none_]

theorem walkedFor_succ {d : Dir} {dirs : List Dir} (more : w.dirs = d :: dirs)
    (left : Nat) :
    walkedFor image maxBuffer (left + 1) w =
      d :: walkedFor image maxBuffer left
        (walkDir image maxBuffer { w with dirs := dirs } d) := by
  conv_lhs => unfold walkedFor
  rw [more]

theorem Tidy.walkFor (tidy : Tidy image.length w) (left : Nat) :
    Tidy image.length (walkFor image maxBuffer left w) := by
  induction left generalizing w with
  | zero =>
      cases more : w.dirs with
      | nil => rwa [walkFor_nil more]
      | cons d dirs =>
          rw [walkFor_zero more]
          exact tidy.unwalked _ _ _
  | succ left ih =>
      cases more : w.dirs with
      | nil => rwa [walkFor_nil more]
      | cons d dirs =>
          rw [walkFor_succ more]
          have rest : Tidy image.length { w with dirs := dirs } :=
            ⟨tidy.nodup, tidy.members⟩
          exact ih (rest.walkDir d)

theorem Tidy.held (tidy : Tidy total w) {f : Nat × Nat} (seen : f ∈ w.seen)
    {i : Nat} (low : f.1 * sector ≤ i) (high : i < f.1 * sector + f.2)
    (inside : i < total) : Held w.out i := by
  have cut : span total f =
      some (f.1 * sector, min (f.1 * sector + f.2) total - f.1 * sector) :=
    if_pos (by omega)
  have member := List.mem_filterMap.mpr ⟨f, seen, cut⟩
  rw [← tidy.members] at member
  obtain ⟨region, held, same⟩ := List.mem_filterMap.mp member
  cases region with
  | unwalked name reason => cases same
  | member name start len =>
      cases same
      exact ⟨name, _, _, held, low, by omega⟩

/-! ## What the walk comes to -/

def dirOf (joliet : Bool) (rec : Bytes) : Dir :=
  ⟨joliet, childLba rec, childLen rec⟩

/-- A record's directory was put where directories wait, and its file met. -/
def Met (joliet : Bool) (w : Walk) (rec : Bytes) : Prop :=
  isSelfOrParent rec = false →
    if isDirectory rec then (dirOf joliet rec).place ∈ w.queued
    else (childLba rec, childLen rec) ∈ w.seen

structure Visits (joliet : Bool) (recs : List Bytes) (w w' : Walk) : Prop where
  queued : w.queued ⊆ w'.queued
  seen : w.seen ⊆ w'.seen
  out : w.out ⊆ w'.out
  dirs : w.dirs ⊆ w'.dirs
  met : ∀ rec ∈ recs, Met joliet w' rec
  fresh : ∀ q ∈ w'.queued, q ∈ w.queued ∨ ∃ d ∈ w'.dirs, d.place = q

theorem visits_record (w : Walk) (rec : Bytes) :
    Visits joliet [rec] w (visitRecord total joliet w rec) := by
  unfold visitRecord
  dsimp only
  have met {w' : Walk} (met : Met joliet w' rec) :
      ∀ other ∈ [rec], Met joliet w' other := by
    rintro other member
    rwa [List.mem_singleton.mp member]
  have stays (now : Met joliet w rec) : Visits joliet [rec] w w :=
    ⟨fun _ => id, fun _ => id, fun _ => id, fun _ => id, met now, fun _ => .inl⟩
  split_ifs with own directory queued seen
  · exact stays fun other => absurd own (by rw [other]; decide)
  · refine stays fun _ => ?_
    rw [if_pos directory]
    exact queued
  · refine ⟨List.subset_append_left _ _, fun _ => id, fun _ => id,
      List.subset_cons_self _ _, met fun _ => ?_, fun q member => ?_⟩
    · rw [if_pos directory]
      exact List.mem_append_right _ (List.mem_singleton.mpr rfl)
    · rcases List.mem_append.mp member with before | new
      · exact .inl before
      · exact .inr ⟨_, List.mem_cons_self, (List.mem_singleton.mp new).symm⟩
  · refine stays fun _ => ?_
    rw [if_neg directory]
    exact seen
  · refine ⟨fun _ => id, List.subset_append_left _ _, List.subset_append_left _ _,
      fun _ => id, met fun _ => ?_, fun _ => .inl⟩
    rw [if_neg directory]
    exact List.mem_append_right _ (List.mem_singleton.mpr rfl)

theorem Visits.trans {recs more : List Bytes} {w' w'' : Walk}
    (first : Visits joliet recs w w') (second : Visits joliet more w' w'') :
    Visits joliet (recs ++ more) w w'' where
  queued _ member := second.queued (first.queued member)
  seen _ member := second.seen (first.seen member)
  out _ member := second.out (first.out member)
  dirs _ member := second.dirs (first.dirs member)
  met rec member := by
    rcases List.mem_append.mp member with early | late
    · intro other
      have met := first.met rec early other
      split_ifs at met ⊢
      · exact second.queued met
      · exact second.seen met
    · exact second.met rec late
  fresh q member := by
    rcases second.fresh q member with before | new
    · rcases first.fresh q before with old | ⟨d, waits, same⟩
      · exact .inl old
      · exact .inr ⟨d, second.dirs waits, same⟩
    · exact .inr new

theorem visits_foldl (joliet : Bool) (total : Nat) (recs : List Bytes) (w : Walk) :
    Visits joliet recs w (recs.foldl (visitRecord total joliet) w) := by
  induction recs generalizing w with
  | nil =>
      exact ⟨fun _ => id, fun _ => id, fun _ => id, fun _ => id, nofun,
        fun _ => .inl⟩
  | cons rec recs ih => exact (visits_record w rec).trans (ih _)

/-- What was walked so far is done: its records are met, and what was put where
directories wait is there or done. -/
structure Sound (image : Bytes) (maxBuffer : Nat) (roots done : List Dir)
    (w : Walk) : Prop where
  roots : ∀ d ∈ roots, d ∈ w.dirs ∨ d ∈ done
  queued : ∀ q ∈ w.queued, ∃ d, (d ∈ w.dirs ∨ d ∈ done) ∧ d.place = q
  met : ∀ d ∈ done, ∀ rec ∈ (records (readDir image maxBuffer d)).1,
    Met d.joliet w rec
  whole : ∀ d ∈ done, (records (readDir image maxBuffer d)).2 = false

variable {roots done : List Dir}

theorem Sound.walkDir {d : Dir} {dirs : List Dir} (more : w.dirs = d :: dirs)
    (whole : (records (readDir image maxBuffer d)).2 = false)
    (sound : Sound image maxBuffer roots done w) :
    Sound image maxBuffer roots (done ++ [d])
      (walkDir image maxBuffer { w with dirs := dirs } d) := by
  have visits := visits_foldl d.joliet image.length
    (records (readDir image maxBuffer d)).1 { w with dirs := dirs }
  rw [Iso.walkDir, if_neg (by rw [whole]; decide)]
  have moved {e : Dir} (either : e ∈ w.dirs ∨ e ∈ done) :
      e ∈ ((records (readDir image maxBuffer d)).1.foldl
        (visitRecord image.length d.joliet) { w with dirs := dirs }).dirs ∨
      e ∈ done ++ [d] := by
    rw [more, List.mem_cons] at either
    rcases either with (rfl | rest) | passed
    · exact .inr (List.mem_append_right _ (List.mem_singleton.mpr rfl))
    · exact .inl (visits.dirs rest)
    · exact .inr (List.mem_append_left _ passed)
  refine ⟨fun e root => moved (sound.roots e root), fun q member => ?_,
    fun e member rec listed => ?_, fun e member => ?_⟩
  · rcases visits.fresh q member with before | ⟨e, waits, same⟩
    · obtain ⟨e, either, same⟩ := sound.queued q before
      exact ⟨e, moved either, same⟩
    · exact ⟨e, .inl waits, same⟩
  · rcases List.mem_append.mp member with passed | here
    · intro other
      have met := sound.met e passed rec listed other
      split_ifs at met ⊢
      · exact visits.queued met
      · exact visits.seen met
    · cases List.mem_singleton.mp here
      exact visits.met rec listed
  · rcases List.mem_append.mp member with passed | here
    · exact sound.whole e passed
    · cases List.mem_singleton.mp here
      exact whole

theorem out_walkDir (d : Dir) :
    w.out ⊆ (walkDir image maxBuffer w d).out := by
  have visits := visits_foldl d.joliet image.length
    (records (readDir image maxBuffer d)).1 w
  intro region member
  have held := visits.out member
  unfold walkDir
  dsimp only
  split_ifs
  · exact List.mem_append_left _ held
  · exact held

theorem out_walkFor (left : Nat) :
    w.out ⊆ (walkFor image maxBuffer left w).out := by
  induction left generalizing w with
  | zero =>
      cases more : w.dirs with
      | nil =>
          rw [walkFor_nil more]
          exact fun _ => id
      | cons d dirs =>
          rw [walkFor_zero more]
          exact List.subset_append_left _ _
  | succ left ih =>
      cases more : w.dirs with
      | nil =>
          rw [walkFor_nil more]
          exact fun _ => id
      | cons d dirs =>
          rw [walkFor_succ more]
          intro region member
          exact ih (out_walkDir (w := { w with dirs := dirs }) d member)

/-- The walk comes to the end of what waits, or says that it does not. -/
theorem Sound.walkFor (left : Nat) (sound : Sound image maxBuffer roots done w) :
    Reported (walkFor image maxBuffer left w).out ∨
      (walkFor image maxBuffer left w).dirs = [] ∧
        Sound image maxBuffer roots (done ++ walkedFor image maxBuffer left w)
          (walkFor image maxBuffer left w) := by
  induction left generalizing w done with
  | zero =>
      cases more : w.dirs with
      | nil =>
          rw [walkFor_nil more, walkedFor_nil more, List.append_nil]
          exact .inr ⟨more, sound⟩
      | cons d dirs =>
          rw [walkFor_zero more]
          exact .inl ⟨_, _, List.mem_append_right _ (List.mem_singleton.mpr rfl)⟩
  | succ left ih =>
      cases more : w.dirs with
      | nil =>
          rw [walkFor_nil more, walkedFor_nil more, List.append_nil]
          exact .inr ⟨more, sound⟩
      | cons d dirs =>
          rw [walkFor_succ more, walkedFor_succ more, List.append_cons]
          cases whole : (records (readDir image maxBuffer d)).2 with
          | false => exact ih (sound.walkDir more whole)
          | true =>
              left
              have reported : Reported
                  (Iso.walkDir image maxBuffer { w with dirs := dirs } d).out := by
                rw [Iso.walkDir, if_pos whole]
                exact ⟨_, _,
                  List.mem_append_right _ (List.mem_singleton.mpr rfl)⟩
              obtain ⟨name, reason, member⟩ := reported
              exact ⟨name, reason, out_walkFor left member⟩

end

/-! ## Every file of every tree -/

section

variable {image : Bytes} {maxBuffer : Nat}

theorem mem_vdRootsFrom {left i : Nat} {d : Dir} :
    d ∈ vdRootsFrom image left i ↔ ∃ k, i ≤ k ∧ k < i + left ∧
      d = rootOf (descriptorAt image k) ∧
      (typeOf (descriptorAt image k) = 1 ∨ typeOf (descriptorAt image k) = 2) ∧
      IsDescriptor (descriptorAt image k) ∧
      ∀ j, i ≤ j → j < k → IsDescriptor (descriptorAt image j) ∧
        typeOf (descriptorAt image j) ≠ 255 := by
  induction left generalizing i with
  | zero =>
      refine iff_of_false List.not_mem_nil ?_
      rintro ⟨k, low, high, -⟩
      omega
  | succ left ih =>
      have later (goes : IsDescriptor (descriptorAt image i) ∧
          typeOf (descriptorAt image i) ≠ 255) {k : Nat} :
          (∀ j, i ≤ j → j < k → IsDescriptor (descriptorAt image j) ∧
            typeOf (descriptorAt image j) ≠ 255) ↔
          ∀ j, i + 1 ≤ j → j < k → IsDescriptor (descriptorAt image j) ∧
            typeOf (descriptorAt image j) ≠ 255 := by
        refine ⟨fun all j low => all j (by omega), fun all j low high => ?_⟩
        rcases Nat.lt_or_eq_of_le low with above | rfl
        · exact all j above high
        · exact goes
      rw [vdRootsFrom]
      split_ifs with ends other
      · refine iff_of_false List.not_mem_nil ?_
        rintro ⟨k, low, -, -, kind, is, all⟩
        rcases Nat.lt_or_eq_of_le low with above | rfl
        · have goes := all i (Nat.le_refl i) above
          exact ends.elim (fun no => no goes.1) goes.2
        · exact ends.elim (fun no => no is) fun same => by omega
      · rw [not_or, not_not] at ends
        rw [ih]
        constructor
        · rintro ⟨k, low, high, rfl, kind, is, all⟩
          exact ⟨k, by omega, by omega, rfl, kind, is, (later ends).mpr all⟩
        · rintro ⟨k, low, high, rfl, kind, is, all⟩
          rcases Nat.lt_or_eq_of_le low with above | rfl
          · exact ⟨k, above, by omega, rfl, kind, is, (later ends).mp all⟩
          · exact absurd kind (by omega)
      · rw [not_or, not_not] at ends
        rw [List.mem_cons, ih]
        constructor
        · rintro (rfl | ⟨k, low, high, rfl, kind, is, all⟩)
          · exact ⟨i, by omega, by omega, rfl, by omega, ends.1,
              fun j low high => absurd high (by omega)⟩
          · exact ⟨k, by omega, by omega, rfl, kind, is, (later ends).mpr all⟩
        · rintro ⟨k, low, high, rfl, kind, is, all⟩
          rcases Nat.lt_or_eq_of_le low with above | rfl
          · exact .inr ⟨k, above, by omega, rfl, kind, is, (later ends).mp all⟩
          · exact .inl rfl

theorem mem_vdRoots {d : Dir} :
    d ∈ vdRoots image ↔ d ∈ vdRootsFrom image 32 0 := by
  unfold vdRoots
  cases joliet : d.joliet <;> simp [joliet]

theorem root_of_tree (plain : Plain image maxBuffer) {n : Nat}
    (tree : Tree image n) : rootOf (descriptorAt image n) ∈ vdRoots image :=
  mem_vdRoots.mpr <| mem_vdRootsFrom.mpr ⟨n, Nat.zero_le n,
    by simpa using tree.early, rfl, tree.kind, tree.isDescriptor, fun j _ below =>
      have is := plain.gapless n tree j below
      ⟨is, tree.before j below is⟩⟩

theorem leU32_window (data : Bytes) {start len off : Nat} (fits : off + 4 ≤ len)
    (inside : start + len ≤ data.length) :
    Partition.leU32 (window data start len) off = Partition.leU32 data (start + off) := by
  unfold Partition.leU32 Partition.leUint
  rw [length_window_of_le inside, window_window data fits, if_pos fits,
    if_pos (by omega)]

theorem rootOf_eq {vd : Bytes} (is : IsDescriptor vd) :
    rootOf vd = dirOf (isJoliet vd) (rootRecord vd) := by
  have inside : 156 + 34 ≤ vd.length := is.1
  rw [rootOf, dirOf, childLba, childLen, rootRecord,
    leU32_window vd (by decide) inside, leU32_window vd (by decide) inside]

/-- A directory of sectors without extended attributes that is not cut is read
as it stands. -/
theorem readDir_eq {rec : Bytes} {joliet : Bool} (bare : extAttr rec = 0)
    (short : min (childLen rec) (image.length - childLba rec * sector) ≤
      maxBuffer) :
    readDir image maxBuffer (dirOf joliet rec) = content image sector rec := by
  unfold content startOf readDir window
  dsimp only [dirOf]
  rw [bare, Nat.add_zero, List.take_eq_take_iff, List.length_drop]
  omega

theorem content_nil {block : Nat} {rec : Bytes} (none_ : childLen rec = 0) :
    content image block rec = [] := by
  simp [content, window, none_]

theorem childLen_ne_zero {block : Nat} {dir rec : Bytes}
    (member : rec ∈ (records (content image block dir)).1) :
    childLen dir ≠ 0 := by
  intro none_
  rw [content_nil none_] at member
  exact List.not_mem_nil member

theorem placeOf_eq {rec : Bytes} {k : Nat} (bare : extAttr rec = 0)
    (piece : OnePiece rec) (inside : k < childLen rec) :
    placeOf sector rec k = childLba rec * sector + k := by
  unfold placeOf startOf
  dsimp only
  rw [bare, Nat.add_zero]
  split_ifs with plain
  · rfl
  · rcases piece with none_ | close | within
    · exact absurd none_ plain
    · rw [close, Nat.add_zero, Nat.div_add_mod']
    · rw [Nat.div_eq_of_lt (by omega), Nat.mod_eq_of_lt (by omega), Nat.zero_mul,
        Nat.zero_add]

theorem found_streamOffsets (plain : Plain image maxBuffer) :
    Found image (streamOffsets image maxBuffer).1 := by
  let start : Walk := ⟨vdRoots image, (vdRoots image).map Dir.place, [], []⟩
  have begins : Sound image maxBuffer (vdRoots image) [] start := by
    refine ⟨fun d => .inl, fun q member => ?_, nofun, nofun⟩
    obtain ⟨d, root, same⟩ := List.mem_map.mp member
    exact ⟨d, .inl root, same⟩
  have tidy : Tidy image.length (walkFor image maxBuffer maxDirs start) :=
    Tidy.walkFor ⟨List.nodup_nil, rfl⟩ _
  rcases begins.walkFor maxDirs with reported | ⟨ended, sound⟩
  · exact .inl reported
  · rw [List.nil_append] at sound
    refine .inr fun n tree => ?_
    have first : rootOf (descriptorAt image n) ∈ walked image maxBuffer :=
      (sound.roots _ (root_of_tree plain tree)).resolve_left
        (ended ▸ List.not_mem_nil)
    -- what records lead to is read, in the length they say and where it stands
    have reached {rec : Bytes} (reach : Reach image (descriptorAt image n) rec)
        (some_ : childLen rec ≠ 0) :
        blockSize (descriptorAt image n) = sector ∧
          dirOf (isJoliet (descriptorAt image n)) rec ∈ walked image maxBuffer ∧
          extAttr rec = 0 := by
      induction reach with
      | root =>
          obtain ⟨block, bare⟩ := plain.roots n tree some_ first
          exact ⟨block, rootOf_eq tree.isDescriptor ▸ first, bare⟩
      | child reach member own is ih =>
          obtain ⟨block, there, bare⟩ := ih (childLen_ne_zero member)
          rw [block, ← readDir_eq bare (plain.short _ there)] at member
          have met := sound.met _ there _ member own
          rw [if_pos is] at met
          obtain ⟨e, either, same⟩ := sound.queued _ met
          obtain ⟨clear, alike⟩ := plain.dirs _ there _ member own is some_ e
            (either.resolve_left (ended ▸ List.not_mem_nil)) same
          exact ⟨block, alike, clear⟩
    have read {rec : Bytes} (reach : Reach image (descriptorAt image n) rec)
        (some_ : childLen rec ≠ 0) :
        content image (blockSize (descriptorAt image n)) rec =
          readDir image maxBuffer (dirOf (isJoliet (descriptorAt image n)) rec) := by
      obtain ⟨block, there, bare⟩ := reached reach some_
      rw [block, readDir_eq bare (plain.short _ there)]
    refine ⟨fun dir reach => ?_, fun dir rec file k high inside => ?_⟩
    · by_cases none_ : childLen dir = 0
      · rw [content_nil none_]
        rfl
      · rw [read reach none_]
        exact sound.whole _ (reached reach none_).2.1
    · have some_ := childLen_ne_zero file.member
      obtain ⟨block, there, -⟩ := reached file.reach some_
      have member := file.member
      rw [read file.reach some_] at member
      have met := sound.met _ there _ member file.named
      rw [if_neg (by rw [file.file]; decide)] at met
      obtain ⟨clear, piece⟩ := plain.files _ there _ member file.named file.file
        (by omega)
      rw [block, placeOf_eq clear piece high] at inside ⊢
      exact tidy.held met (Nat.le_add_right _ _) (Nat.add_lt_add_left high _) inside

theorem recordsFrom_enough {dir : Bytes} {rounds more p : Nat}
    (enough : dir.length ≤ p + rounds) (also : dir.length ≤ p + more) :
    recordsFrom rounds dir p = recordsFrom more dir p := by
  have none_ (rounds : Nat) {p : Nat} (past : dir.length ≤ p) :
      recordsFrom rounds dir p = ([], false) := by
    cases rounds with
    | zero => rfl
    | succ rounds => rw [recordsFrom, List.getElem?_eq_none past]
  induction rounds generalizing more p with
  | zero => rw [none_ 0 (by omega), none_ more (by omega)]
  | succ rounds ih =>
      cases more with
      | zero => rw [none_ _ (by omega), none_ _ (by omega)]
      | succ more =>
          rw [recordsFrom, recordsFrom]
          cases dir[p]? with
          | none => rfl
          | some recLen =>
              dsimp only
              split_ifs with zero corrupt
              · have next : p + 1 ≤ (p / sector + 1) * sector := by
                  unfold sector
                  omega
                exact ih (by omega) (by omega)
              · rfl
              · have rest : recordsFrom rounds dir (p + recLen.toNat) =
                    recordsFrom more dir (p + recLen.toNat) :=
                  ih (by omega) (by omega)
                rw [rest]

end

/-! ## An image of one tree -/

/-- A primary descriptor whose root starts the image. -/
def primary (len : UInt8) : Bytes :=
  1 :: standardId ++ List.replicate 122 0 ++ [0, 8] ++ List.replicate 26 0 ++
    ([34, 0, 0, 0, 0, 0, 0, 0, 0, 0, len] ++ List.replicate 23 0)

/-- A record of what starts the image. -/
def record (len flags name : UInt8) : Bytes :=
  [34, 0, 0, 0, 0, 0, 0, 0, 0, 0, len] ++ List.replicate 14 0 ++
    [flags, 0, 0, 0, 0, 0, 0, 1, name]

def disc (front : Bytes) (len : UInt8) : Bytes :=
  front ++ (List.replicate (16 * sector - front.length) 0 ++ primary len)

section

variable {front : Bytes} {len : UInt8}

theorem length_disc (short : front.length ≤ 16 * sector) :
    (disc front len).length = 16 * sector + 190 := by
  have whole : (primary len).length = 190 := rfl
  rw [disc, List.length_append, List.length_append, List.length_replicate, whole]
  omega

theorem descriptorAt_zero (short : front.length ≤ 16 * sector) :
    descriptorAt (disc front len) 0 = primary len := by
  have whole : (front ++ List.replicate (16 * sector - front.length) 0).length =
      (0 + 16) * sector := by
    rw [List.length_append, List.length_replicate]
    omega
  rw [descriptorAt, disc, ← List.append_assoc, window, List.drop_left' whole]
  exact List.take_of_length_le (Nat.le_refl _)

theorem descriptorAt_succ (short : front.length ≤ 16 * sector) (n : Nat) :
    descriptorAt (disc front len) (n + 1) = [] := by
  have long : (disc front len).length = _ := length_disc short
  rw [descriptorAt, window, List.drop_eq_nil_of_le, List.take_nil]
  rw [long]
  unfold sector
  omega

theorem window_front {n : Nat} (fits : n ≤ front.length) :
    window (disc front len) 0 n = front.take n := by
  rw [window, List.drop_zero, disc, List.take_append_of_le_length fits]

theorem tree_disc (short : front.length ≤ 16 * sector) {n : Nat} :
    Tree (disc front len) n ↔ n = 0 := by
  constructor
  · intro tree
    cases n with
    | zero => rfl
    | succ n =>
        have is := tree.isDescriptor
        rw [descriptorAt_succ short] at is
        exact absurd is.1 (by decide)
  · rintro rfl
    refine ⟨by decide, ?_, .inl ?_, fun j below => absurd below (Nat.not_lt_zero j)⟩
    · rw [descriptorAt_zero short]
      exact ⟨Nat.le_refl _, rfl⟩
    · rw [descriptorAt_zero short]
      rfl

theorem vdRoots_disc (short : front.length ≤ 16 * sector) :
    vdRoots (disc front len) = [⟨false, 0, len.toNat⟩] := by
  have first : ¬ (¬ IsDescriptor (primary len) ∨ typeOf (primary len) = 255) :=
    fun ends => ends.elim (fun no => no ⟨Nat.le_refl _, rfl⟩)
      fun same => absurd (show 1 = 255 from same) (by decide)
  have second : vdRootsFrom (disc front len) 31 1 = [] := by
    rw [vdRootsFrom, descriptorAt_succ short]
    rfl
  have root : rootOf (primary len) = ⟨false, 0, len.toNat⟩ := rfl
  have roots : vdRootsFrom (disc front len) 32 0 = [⟨false, 0, len.toNat⟩] := by
    rw [vdRootsFrom, descriptorAt_zero short]
    rw [if_neg first, if_neg (fun other => other.1 rfl), second, root]
  rw [vdRoots, roots]
  rfl

end

theorem readDir_disc {front : Bytes} {len : UInt8} (fits : 34 ≤ front.length)
    (short : front.length ≤ 16 * sector) :
    readDir (disc front len) 4096 ⟨false, 0, 34⟩ = front.take 34 := by
  rw [readDir, length_disc short]
  exact window_front fits

theorem walked_disc : walked (disc (record 1 0 70) 34) 4096 = [⟨false, 0, 34⟩] := by
  have short : (record 1 0 70).length ≤ 16 * sector := by decide
  have recs : records (record 1 0 70) = ([record 1 0 70], false) := by decide
  have file (total : Nat) (w : Walk) :
      ([record 1 0 70].foldl (visitRecord total false) w).dirs = w.dirs := by
    rw [List.foldl_cons, List.foldl_nil, visitRecord, if_neg (by decide),
      if_neg (by decide)]
    split_ifs <;> rfl
  rw [walked, vdRoots_disc short]
  change walkedFor _ 4096 (1023 + 1) ⟨[⟨false, 0, 34⟩], [(false, 0)], [], []⟩ = _
  rw [walkedFor_succ rfl, walkDir, readDir_disc (by decide) short,
    show (record 1 0 70).take 34 = record 1 0 70 from rfl, recs]
  simp only [Bool.false_eq_true, if_false]
  rw [walkedFor_nil (file _ _)]

theorem plain_disc : Plain (disc (record 1 0 70) 34) 4096 := by
  have short : (record 1 0 70).length ≤ 16 * sector := by decide
  have recs : records (record 1 0 70) = ([record 1 0 70], false) := by decide
  have listed {d : Dir} (read : d ∈ walked (disc (record 1 0 70) 34) 4096)
      {rec : Bytes} (member : rec ∈
        (records (readDir (disc (record 1 0 70) 34) 4096 d)).1) :
      rec = record 1 0 70 := by
    rw [walked_disc, List.mem_singleton] at read
    subst read
    rw [readDir_disc (by decide) short, show (record 1 0 70).take 34 =
      record 1 0 70 from rfl, recs] at member
    exact List.mem_singleton.mp member
  constructor
  · intro n tree j below
    cases (tree_disc short).mp tree
    exact absurd below (Nat.not_lt_zero j)
  · intro n tree _ _
    cases (tree_disc short).mp tree
    rw [descriptorAt_zero short]
    decide
  · intro d read
    rw [walked_disc, List.mem_singleton] at read
    subst read
    exact (Nat.min_le_left _ _).trans (by decide)
  · intro d read rec member _ is
    rw [listed read member] at is
    exact absurd is (by decide)
  · intro d read rec member _ _ _
    rw [listed read member]
    exact ⟨by decide, .inl (by decide)⟩

theorem streamOffsets_again {image : Bytes}
    (roots : vdRoots image = [⟨false, 0, 34⟩])
    (read : readDir image 4096 ⟨false, 0, 34⟩ = record 68 2 68) :
    (streamOffsets image 4096).1 = [] := by
  have recs : records (record 68 2 68) = ([record 68 2 68], false) := by decide
  have stays : visitRecord image.length false ⟨[], [(false, 0)], [], []⟩
      (record 68 2 68) = ⟨[], [(false, 0)], [], []⟩ := by
    rw [visitRecord, if_neg (by decide), if_pos (by decide), if_pos (by decide)]
  rw [streamOffsets, roots]
  change (walkFor image 4096 (1023 + 1)
    ⟨[⟨false, 0, 34⟩], [(false, 0)], [], []⟩).out = []
  rw [walkFor_succ rfl, walkDir, read, recs]
  change (walkFor image 4096 1023 (visitRecord image.length false
    ⟨[], [(false, 0)], [], []⟩ (record 68 2 68))).out = []
  rw [stays, walkFor_nil rfl]

end Exav.Unpack.Iso
