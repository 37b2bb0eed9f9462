import Mathlib.Data.List.Lex
import Mathlib.Data.Prod.Lex
import Exav.Hashes.Table
import Exav.Lib.Fields
import Exav.Lib.Packed

/-!
# Tables stored as blobs

A table is stored as a few blobs: its keys as records of one width, its spans
as words, its names as one text and its provenance as bits.  Reading refuses
blobs that no table could have left, and reads back every table stored.
-/

namespace Exav.Hashes

open Exav.Packed

/-! ## Keys -/

/-- A digest of `n` bytes. -/
structure Digest (n : Nat) where
  bytes : Bytes
  sized : bytes.length = n

structure SizedKey (n : Nat) where
  size : UInt64
  digest : Digest n

namespace Digest

variable {n : Nat}

def rank (d : Digest n) : List Nat :=
  d.bytes.map UInt8.toNat

theorem rank_injective : Function.Injective (rank : Digest n → List Nat) := by
  intro a b same
  obtain ⟨bytes, sized⟩ := a
  obtain ⟨others, otherSized⟩ := b
  have equal : bytes = others :=
    List.map_injective_iff.mpr (fun x y => UInt8.toNat_inj.mp) same
  subst equal
  rfl

/-- Digests compare byte by byte. -/
instance : LinearOrder (Digest n) :=
  LinearOrder.lift' rank rank_injective

end Digest

namespace SizedKey

variable {n : Nat}

def rank (k : SizedKey n) : Nat ×ₗ Digest n :=
  toLex (k.size.toNat, k.digest)

theorem rank_injective :
    Function.Injective (rank : SizedKey n → Nat ×ₗ Digest n) := by
  intro a b same
  obtain ⟨size, digest⟩ := a
  obtain ⟨other, otherDigest⟩ := b
  have pairs : (size.toNat, digest) = (other.toNat, otherDigest) :=
    toLex.injective same
  simp only [Prod.mk.injEq, UInt64.toNat_inj] at pairs
  obtain ⟨rfl, rfl⟩ := pairs
  rfl

instance : LinearOrder (SizedKey n) :=
  LinearOrder.lift' rank rank_injective

theorem size_le_of_le {a b : SizedKey n} (le : a ≤ b) :
    a.size.toNat ≤ b.size.toNat := by
  have ranked : a.rank ≤ b.rank := le
  rcases Prod.Lex.le_iff.mp ranked with below | ⟨same, -⟩
  · exact below.le
  · exact same.le

end SizedKey

/-! ## Records -/

/-- A key stored as a record of a fixed width. -/
class Record (K : Type) where
  width : Nat
  put : K → Bytes
  /-- `none` where the record is not of its width, which panics. -/
  get : Bytes → Option K

/-- A key is as wide as the records say, and reads back. -/
structure Record.Exact (K : Type) [Record K] : Prop where
  width_pos : 0 < width K
  length_put : ∀ key : K, (put key).length = width K
  get_put : ∀ key : K, get (put key) = some key

instance (n : Nat) : Record (Digest n) where
  width := n
  put d := d.bytes
  get b := if sized : b.length = n then some ⟨b, sized⟩ else none

instance (n : Nat) : Record (SizedKey n) where
  width := 8 + n
  put k := Fields.le 8 k.size.toNat ++ k.digest.bytes
  get b :=
    if sized : (b.drop 8).length = n ∧ 8 ≤ b.length then
      some ⟨UInt64.ofNat (Fields.ofLe (b.take 8)), ⟨b.drop 8, sized.1⟩⟩
    else none

theorem digest_exact {n : Nat} (some_ : 0 < n) : Record.Exact (Digest n) where
  width_pos := some_
  length_put d := d.sized
  get_put d := by simp [Record.get, Record.put, d.sized]

theorem sizedKey_exact (n : Nat) : Record.Exact (SizedKey n) where
  width_pos := by simp [Record.width]
  length_put k := by simp [Record.put, Record.width, k.digest.sized]
  get_put k := by
    have eight : (Fields.le 8 k.size.toNat).length = 8 := Fields.length_le _ _
    have head : (Fields.le 8 k.size.toNat ++ k.digest.bytes).take 8 =
        Fields.le 8 k.size.toNat := List.take_left' eight
    have tail : (Fields.le 8 k.size.toNat ++ k.digest.bytes).drop 8 =
        k.digest.bytes := List.drop_left' eight
    have value : Fields.ofLe (Fields.le 8 k.size.toNat) = k.size.toNat :=
      Fields.ofLe_le (by simpa using k.size.toNat_lt)
    simp [Record.get, Record.put, head, tail, value, k.digest.sized]

/-! ## The blobs -/

/-- What a table is stored as. -/
structure Blobs where
  keys : Bytes
  spans : Bytes
  names : Name
  bits : Bytes

/-- A span as two words. -/
def spanBytes (span : UInt32 × UInt32) : Bytes :=
  Fields.le 4 span.1.toNat ++ Fields.le 4 span.2.toNat

def spanOf (w : Bytes) : UInt32 × UInt32 :=
  (UInt32.ofNat (Fields.ofLe (w.take 4)), UInt32.ofNat (Fields.ofLe (w.drop 4)))

@[simp] theorem length_spanBytes (span : UInt32 × UInt32) :
    (spanBytes span).length = 8 := by
  simp [spanBytes]

@[simp] theorem spanOf_spanBytes (span : UInt32 × UInt32) :
    spanOf (spanBytes span) = span := by
  obtain ⟨off, len⟩ := span
  have four : (Fields.le 4 off.toNat).length = 4 := Fields.length_le _ _
  have first : Fields.ofLe (Fields.le 4 off.toNat) = off.toNat :=
    Fields.ofLe_le (by simpa using off.toNat_lt)
  have second : Fields.ofLe (Fields.le 4 len.toNat) = len.toNat :=
    Fields.ofLe_le (by simpa using len.toNat_lt)
  simp [spanOf, spanBytes, List.take_left' four, List.drop_left' four, first,
    second]

def inNames (names : Name) (span : UInt32 × UInt32) : Bool :=
  let off := span.1.toNat
  let stop := off + span.2.toNat
  decide (stop ≤ byteLen names) && isCharBoundary off names &&
    isCharBoundary stop names

/-- Each key is no greater than the next. -/
def isSorted {K : Type} [LinearOrder K] : List K → Bool
  | a :: b :: keys => decide (a ≤ b) && isSorted (b :: keys)
  | _ => true

namespace SortedTable

variable {K : Type} [LinearOrder K] [Record K]

def serialize (t : SortedTable K) : Blobs where
  keys := (t.keys.map Record.put).flatten
  spans := (t.spans.map spanBytes).flatten
  names := t.names
  bits := packBits t.unofficial

def deserialize (blobs : Blobs) : Except String (SortedTable K) :=
  let width := Record.width K
  let n := blobs.keys.length / width
  if blobs.keys.length % width ≠ 0 ∨ blobs.spans.length ≠ n * 8 ∨
      blobs.bits.length ≠ (n + 7) / 8 then
    .error "hash table blobs of unequal lengths"
  else
    match (chunksExact width blobs.keys).mapM (Record.get : Bytes → Option K)
      with
    | none => .error "a record of its width"
    | some keys =>
        let spans := (chunksExact 8 blobs.spans).map spanOf
        if !isSorted keys || !spans.all (inNames blobs.names) then
          .error "hash table out of order or out of bounds"
        else
          .ok ⟨keys, spans, blobs.names,
            (List.range n).map (bitAt blobs.bits), []⟩

omit [Record K] in
theorem isSorted_of_pairwise {keys : List K}
    (ascending : keys.Pairwise (· ≤ ·)) : isSorted keys = true := by
  fun_induction isSorted keys with
  | case1 a b keys ih =>
      obtain ⟨below, rest⟩ := List.pairwise_cons.mp ascending
      simp [below b List.mem_cons_self, ih rest]
  | case2 => rfl

omit [LinearOrder K] in
theorem mapM_get_put (exact : Record.Exact K) (keys : List K) :
    (keys.map Record.put).mapM (Record.get : Bytes → Option K) =
      some keys := by
  induction keys with
  | nil => rfl
  | cons key keys ih => simp [exact.get_put, ih]

def Bounded (t : SortedTable K) : Prop :=
  t.spans.all (inNames t.names) = true

instance (t : SortedTable K) : Decidable t.Bounded :=
  inferInstanceAs (Decidable (_ = true))

/-- A finalized table is read back as it was stored, or refused. -/
theorem deserialize_serialize (exact : Record.Exact K) {t : SortedTable K}
    {entries : List (Entry K)} (interned : t.Interned entries)
    (ascending : entries.Pairwise fun a b => a.key < b.key) :
    deserialize t.serialize =
      if t.Bounded then .ok t
      else .error "hash table out of order or out of bounds" := by
  have counted : t.keys.length = entries.length := by simp [interned.keys]
  have spanned : t.spans.length = t.keys.length := by
    rw [counted, interned.spans]
  have flagged : t.unofficial.length = t.keys.length := by
    simp [interned.unofficial, counted]
  have wide : ∀ r ∈ t.keys.map Record.put, r.length = Record.width K := by
    simpa using fun key _ => exact.length_put key
  have words : ∀ r ∈ t.spans.map spanBytes, r.length = 8 := by
    rintro r member
    obtain ⟨span, -, rfl⟩ := List.mem_map.mp member
    exact length_spanBytes span
  have keysLength : t.serialize.keys.length = t.keys.length * Record.width K := by
    rw [serialize, length_flatten_of_fixed wide, List.length_map]
  have spansLength : t.serialize.spans.length = t.keys.length * 8 := by
    rw [serialize, length_flatten_of_fixed words, List.length_map, spanned]
  have bitsLength : t.serialize.bits.length = (t.keys.length + 7) / 8 := by
    rw [serialize, length_packBits, flagged]
  have records : t.serialize.keys.length / Record.width K = t.keys.length := by
    rw [keysLength, Nat.mul_div_cancel _ exact.width_pos]
  have keysBack : chunksExact (Record.width K) t.serialize.keys =
      t.keys.map Record.put := chunksExact_flatten exact.width_pos wide
  have spansBack : (chunksExact 8 t.serialize.spans).map spanOf = t.spans := by
    rw [serialize, chunksExact_flatten (by decide) words, List.map_map]
    exact List.map_id'' (fun span => spanOf_spanBytes span) _
  have sorted : isSorted t.keys = true := by
    apply isSorted_of_pairwise
    rw [interned.keys, List.pairwise_map]
    exact ascending.imp fun below => below.le
  have flagsBack : (List.range t.keys.length).map (bitAt t.serialize.bits) =
      t.unofficial := by
    rw [← flagged]
    exact unpack_packBits t.unofficial
  have equal : ¬(t.serialize.keys.length % Record.width K ≠ 0 ∨
      t.serialize.spans.length ≠ t.keys.length * 8 ∨
        t.serialize.bits.length ≠ (t.keys.length + 7) / 8) := by
    rw [keysLength, spansLength, bitsLength]
    simp
  have kept : t = ⟨t.keys, t.spans, t.names, t.unofficial, []⟩ := by
    rw [← interned.settled]
  simp only [deserialize, records, equal, if_false, keysBack,
    mapM_get_put exact, spansBack, flagsBack]
  have named : t.serialize.names = t.names := rfl
  rw [named, sorted, ← kept]
  by_cases bounded : t.Bounded
  · rw [if_pos bounded, show t.spans.all (inNames t.names) = true from bounded]
    rfl
  · rw [if_neg bounded, Bool.eq_false_of_not_eq_true bounded]
    rfl

end SortedTable

/-!
## Looking a file's digests up

A database holds, for each kind of digest, the signatures of one size and those
of any.  A lookup tries MD5, then SHA-1, then SHA-256; for each the signature
of the exact size that was put in last, and else the one of any size.  Only the
digests some signature could match are computed.
-/

open Exav.Bisect Exav.LastWins Exav.Packed

/-! ## One kind of digest -/

/-- A signature of a file; no size means any. -/
structure Signature (n : Nat) where
  digest : Digest n
  size : Option UInt64
  name : Name
  unofficial : Bool

def Signature.found {n : Nat} (s : Signature n) : Name × Bool :=
  (s.name, s.unofficial)

/-- One digest algorithm's signatures: those of any size, and those of one. -/
structure DigestTable (n : Nat) where
  any : SortedTable (Digest n)
  sized : SortedTable (SizedKey n)

namespace DigestTable

variable {n : Nat}

def empty : DigestTable n := ⟨.empty, .empty⟩

def insert (t : DigestTable n) (s : Signature n) : DigestTable n :=
  match s.size with
  | some size =>
      { t with
        sized := t.sized.insert ⟨⟨size, s.digest⟩, s.name, s.unofficial⟩ }
  | none => { t with any := t.any.insert ⟨s.digest, s.name, s.unofficial⟩ }

def finalize (t : DigestTable n) : DigestTable n :=
  ⟨t.any.finalize, t.sized.finalize⟩

def get (t : DigestTable n) (digest : Digest n) (size : UInt64) :
    Except String (Option (Name × Bool)) :=
  match t.sized.get ⟨size, digest⟩ with
  | .ok none => t.any.get digest
  | answer => answer

def smallerAt (keys : List (SizedKey n)) (size : UInt64) (i : Nat) : Bool :=
  match keys[i]? with
  | some key => key.size < size
  | none => false

/-- Whether a signature could match an object of `size` bytes. -/
def wants (t : DigestTable n) (size : UInt64) : Bool :=
  let keys := t.sized.keys
  let i := partitionPoint (smallerAt keys size) keys.length
  !t.any.keys.isEmpty || keys[i]?.any fun key => key.size == size

/-- A digest that was not computed misses. -/
def getOf (t : DigestTable n) (digest : Option (Digest n)) (size : UInt64) :
    Except String (Option (Name × Bool)) :=
  match digest with
  | some digest => t.get digest size
  | none => .ok none

end DigestTable

/-! ## The database -/

/-- Which digests a lookup can use for an object of one size. -/
structure Want where
  md5 : Bool
  sha1 : Bool
  sha256 : Bool
  deriving DecidableEq

def Want.none : Want := ⟨false, false, false⟩

def Want.all : Want := ⟨true, true, true⟩

/-- Digests computed over a file, those asked for. -/
structure Digests where
  md5 : Option (Digest 16)
  sha1 : Option (Digest 20)
  sha256 : Option (Digest 32)

/-- A database of hash signatures. -/
structure HashDb where
  md5 : DigestTable 16
  sha1 : DigestTable 20
  sha256 : DigestTable 32

/-- A signature put in; the length of its digest says which kind it is. -/
inductive Insert where
  | md5 (s : Signature 16)
  | sha1 (s : Signature 20)
  | sha256 (s : Signature 32)

namespace HashDb

def empty : HashDb := ⟨.empty, .empty, .empty⟩

def insert (db : HashDb) : Insert → HashDb
  | .md5 s => { db with md5 := db.md5.insert s }
  | .sha1 s => { db with sha1 := db.sha1.insert s }
  | .sha256 s => { db with sha256 := db.sha256.insert s }

def finalize (db : HashDb) : HashDb :=
  ⟨db.md5.finalize, db.sha1.finalize, db.sha256.finalize⟩

def load (inserts : List Insert) : HashDb :=
  (inserts.foldl insert empty).finalize

/-- The digests a lookup can match for an object of `size` bytes. -/
def wants (db : HashDb) (size : UInt64) : Want :=
  ⟨db.md5.wants size, db.sha1.wants size, db.sha256.wants size⟩

/-- The first signature of the three tables that matches. -/
def lookup (db : HashDb) (d : Digests) (size : UInt64) :
    Except String (Option (Name × Bool)) :=
  match db.md5.getOf d.md5 size with
  | .ok none =>
      match db.sha1.getOf d.sha1 size with
      | .ok none => db.sha256.getOf d.sha256 size
      | answer => answer
  | answer => answer

end HashDb

/-! ## Digests of an object -/

/-- A digest algorithm, fed a piece at a time. -/
structure Hasher (n : Nat) where
  State : Type
  new : State
  update : State → Bytes → State
  finish : State → Digest n

structure Hashers where
  md5 : Hasher 16
  sha1 : Hasher 20
  sha256 : Hasher 32

/-- The digests being computed, fed an object's bytes in order. -/
structure Hashing (h : Hashers) where
  md5 : Option h.md5.State
  sha1 : Option h.sha1.State
  sha256 : Option h.sha256.State

namespace Hashing

variable {h : Hashers}

def new (h : Hashers) (want : Want) : Hashing h where
  md5 := if want.md5 then some h.md5.new else none
  sha1 := if want.sha1 then some h.sha1.new else none
  sha256 := if want.sha256 then some h.sha256.new else none

/-- Every hasher over one slice before the next. -/
def update (hashing : Hashing h) (piece : Bytes) : Hashing h :=
  (chunks (16 * 1024) piece).foldl (fun hashing chunk =>
    ⟨hashing.md5.map (h.md5.update · chunk),
      hashing.sha1.map (h.sha1.update · chunk),
      hashing.sha256.map (h.sha256.update · chunk)⟩) hashing

def finish (hashing : Hashing h) : Digests where
  md5 := hashing.md5.map h.md5.finish
  sha1 := hashing.sha1.map h.sha1.finish
  sha256 := hashing.sha256.map h.sha256.finish

end Hashing

/-- The digests of an object that `want` asks for, read in these pieces.
Wanting none reads nothing. -/
def digestsWanted (h : Hashers) (pieces : List Bytes) (want : Want) : Digests :=
  let hashing := Hashing.new h want
  if want = Want.none then hashing.finish
  else (pieces.foldl Hashing.update hashing).finish

def digestsOf (h : Hashers) (pieces : List Bytes) : Digests :=
  digestsWanted h pieces Want.all

/-! ## The stored database -/

structure DigestBlobs where
  any : Blobs
  sized : Blobs

structure HashBlobs where
  md5 : DigestBlobs
  sha1 : DigestBlobs
  sha256 : DigestBlobs

namespace DigestTable

variable {n : Nat}

def serialize (t : DigestTable n) : DigestBlobs :=
  ⟨t.any.serialize, t.sized.serialize⟩

def deserialize (blobs : DigestBlobs) : Except String (DigestTable n) := do
  let any ← SortedTable.deserialize blobs.any
  let sized ← SortedTable.deserialize blobs.sized
  return ⟨any, sized⟩

end DigestTable

namespace HashDb

def serialize (db : HashDb) : HashBlobs :=
  ⟨db.md5.serialize, db.sha1.serialize, db.sha256.serialize⟩

def deserialize (blobs : HashBlobs) : Except String HashDb := do
  let md5 ← DigestTable.deserialize blobs.md5
  let sha1 ← DigestTable.deserialize blobs.sha1
  let sha256 ← DigestTable.deserialize blobs.sha256
  return ⟨md5, sha1, sha256⟩

end HashDb

/-! ## What was put in -/

section

variable {n : Nat}

def Signature.ofAny (s : Signature n) : Option (Entry (Digest n)) :=
  match s.size with
  | some _ => none
  | none => some ⟨s.digest, s.name, s.unofficial⟩

def Signature.ofSize (s : Signature n) : Option (Entry (SizedKey n)) :=
  s.size.map fun size => ⟨⟨size, s.digest⟩, s.name, s.unofficial⟩

def lastMatch (signatures : List (Signature n)) (digest : Digest n)
    (size : Option UInt64) : Option (Signature n) :=
  (signatures.filter fun s => s.digest = digest ∧ s.size = size).getLast?

def best (signatures : List (Signature n)) (digest : Digest n) (size : UInt64) :
    Option (Signature n) :=
  (lastMatch signatures digest (some size)).or (lastMatch signatures digest none)

/-- Where its name is kept. -/
def answer (signatures : List (Signature n)) (digest : Digest n)
    (size : UInt64) : Option SortedTable.Place :=
  (SortedTable.place (signatures.filterMap Signature.ofSize) ⟨size, digest⟩).or
    (SortedTable.place (signatures.filterMap Signature.ofAny) digest)

theorem getLast?_filterMap_filter {α β : Type} {pick : α → Option β}
    {keep : β → Bool} {chosen : α → Bool}
    (same : ∀ a, chosen a = (pick a).any keep) (items : List α) :
    ((items.filterMap pick).filter keep).getLast? =
      (items.filter chosen).getLast?.bind pick := by
  have filtered : (items.filterMap pick).filter keep =
      (items.filter chosen).filterMap pick := by
    induction items with
    | nil => rfl
    | cons a items ih =>
        cases picked : pick a with
        | none =>
            rw [List.filterMap_cons_none picked, ih, List.filter_cons_of_neg (by
              rw [same, picked]; simp)]
        | some b =>
            rw [List.filterMap_cons_some picked]
            by_cases kept : keep b = true
            · rw [List.filter_cons_of_pos kept, List.filter_cons_of_pos (by
                rw [same, picked]; exact kept), List.filterMap_cons_some picked,
                ih]
            · rw [List.filter_cons_of_neg kept, List.filter_cons_of_neg (by
                rw [same, picked]; exact kept), ih]
  have all : ∀ a ∈ items.filter chosen, ∃ b, pick a = some b := by
    intro a member
    have held := (List.mem_filter.mp member).2
    rw [same] at held
    cases picked : pick a with
    | none =>
        rw [picked] at held
        cases held
    | some b => exact ⟨b, rfl⟩
  rw [filtered]
  generalize items.filter chosen = left at all
  induction left using List.reverseRecOn with
  | nil => rfl
  | append_singleton left a _ =>
      obtain ⟨b, picked⟩ := all a (by simp)
      rw [List.filterMap_append, List.filterMap_cons_some picked,
        List.getLast?_append, List.getLast?_append]
      simp [picked]

theorem found_place {K : Type} [LinearOrder K] (pending : List (Entry K)) (k : K) :
    (SortedTable.place pending k).map SortedTable.Place.found =
      (lastOf Entry.key k pending).map Entry.found := by
  rw [SortedTable.place, Option.map_map]
  rfl

theorem size_lastMatch {signatures : List (Signature n)} {digest : Digest n}
    {size : Option UInt64} {s : Signature n}
    (last : lastMatch signatures digest size = some s) : s.size = size := by
  have held := (List.mem_filter.mp (List.mem_of_getLast? last)).2
  exact (of_decide_eq_true held).2

theorem found_ofSize (signatures : List (Signature n)) (digest : Digest n)
    (size : UInt64) :
    (lastOf Entry.key (⟨size, digest⟩ : SizedKey n)
      (signatures.filterMap Signature.ofSize)).map Entry.found =
      (lastMatch signatures digest (some size)).map Signature.found := by
  have picked : lastOf Entry.key (⟨size, digest⟩ : SizedKey n)
      (signatures.filterMap Signature.ofSize) =
      (lastMatch signatures digest (some size)).bind Signature.ofSize :=
    getLast?_filterMap_filter (fun s => by
      cases own : s.size <;>
        simp [Signature.ofSize, own, SizedKey.mk.injEq, and_comm]) signatures
  rw [picked]
  cases last : lastMatch signatures digest (some size) with
  | none => rfl
  | some s =>
      rw [Option.bind_some, Signature.ofSize, size_lastMatch last]
      rfl

theorem found_ofAny (signatures : List (Signature n)) (digest : Digest n) :
    (lastOf Entry.key digest
      (signatures.filterMap Signature.ofAny)).map Entry.found =
      (lastMatch signatures digest none).map Signature.found := by
  have picked : lastOf Entry.key digest
      (signatures.filterMap Signature.ofAny) =
      (lastMatch signatures digest none).bind Signature.ofAny :=
    getLast?_filterMap_filter (fun s => by
      cases own : s.size <;> simp [Signature.ofAny, own]) signatures
  rw [picked]
  cases last : lastMatch signatures digest none with
  | none => rfl
  | some s =>
      rw [Option.bind_some, Signature.ofAny, size_lastMatch last]
      rfl

theorem found_answer (signatures : List (Signature n)) (digest : Digest n)
    (size : UInt64) :
    (answer signatures digest size).map SortedTable.Place.found =
      (best signatures digest size).map Signature.found := by
  rw [answer, best, Option.map_or, Option.map_or, found_place, found_place,
    found_ofSize, found_ofAny]

/-! ## One kind's table -/

namespace DigestTable

def ofSignatures (signatures : List (Signature n)) : DigestTable n :=
  ⟨{ SortedTable.empty with pending := signatures.filterMap Signature.ofAny },
    { SortedTable.empty with pending := signatures.filterMap Signature.ofSize }⟩

theorem ofSignatures_insert (signatures : List (Signature n)) (s : Signature n) :
    (ofSignatures signatures).insert s = ofSignatures (signatures ++ [s]) := by
  unfold insert ofSignatures
  cases own : s.size <;>
    simp [own, Signature.ofAny, Signature.ofSize, SortedTable.insert]

/-- What is kept of the answer is what a lookup gives. -/
def readAll : Option SortedTable.Place → Except String (Option (Name × Bool))
  | some p => p.read
  | none => .ok none

theorem readAll_or (first second : Option SortedTable.Place) :
    (match readAll first with
      | .ok none => readAll second
      | result => result) = readAll (first.or second) := by
  cases first with
  | none => rfl
  | some p =>
      rw [Option.some_or, readAll, SortedTable.Place.read]
      cases p.cut <;> rfl

theorem readAll_eq_iff (place : Option SortedTable.Place) :
    readAll place = .ok (place.map SortedTable.Place.found) ↔
      ∀ p, place = some p → p.Kept := by
  cases place with
  | none => exact iff_of_true rfl nofun
  | some p =>
      rw [readAll, Option.map_some, p.read_eq_iff]
      constructor
      · rintro kept _ ⟨⟩
        exact kept
      · exact fun kept => kept p rfl

theorem get_ofSignatures (signatures : List (Signature n)) (digest : Digest n)
    (size : UInt64) :
    (ofSignatures signatures).finalize.get digest size =
      readAll (answer signatures digest size) := by
  rw [answer, ← readAll_or, get]
  have sized := SortedTable.get_finalize
    (signatures.filterMap Signature.ofSize) ⟨size, digest⟩
  have any := SortedTable.get_finalize
    (signatures.filterMap Signature.ofAny) digest
  simp only [ofSignatures, finalize, sized, any]
  rfl

theorem getOf_ofSignatures (signatures : List (Signature n))
    (digest : Option (Digest n)) (size : UInt64) :
    (ofSignatures signatures).finalize.getOf digest size =
      readAll (digest.bind (answer signatures · size)) := by
  cases digest with
  | none => rfl
  | some digest => exact get_ofSignatures signatures digest size

theorem partitionPoint_finds {keys : List (SizedKey n)}
    (ascending : keys.Pairwise (· < ·)) {k : SizedKey n} (member : k ∈ keys) :
    (keys[partitionPoint (smallerAt keys k.size) keys.length]?.any
      fun key => key.size == k.size) = true := by
  have smaller {i : Nat} (inside : i < keys.length) (size : UInt64) :
      smallerAt keys size i = decide (keys[i].size < size) := by
    rw [smallerAt, List.getElem?_eq_getElem inside]
  have ordered {i j : Nat} (le : i ≤ j) (below : i < keys.length)
      (inside : j < keys.length) :
      keys[i].size.toNat ≤ keys[j].size.toNat := by
    rcases Nat.lt_or_eq_of_le le with strictly | rfl
    · exact SizedKey.size_le_of_le
        (List.pairwise_iff_getElem.mp ascending i j below inside strictly).le
    · exact Nat.le_refl _
  have closed (i j : Nat) (le : i ≤ j) (inside : j < keys.length)
      (low : smallerAt keys k.size j = true) :
      smallerAt keys k.size i = true := by
    rw [smaller inside, decide_eq_true_eq, UInt64.lt_iff_toNat_lt] at low
    rw [smaller (by omega), decide_eq_true_eq, UInt64.lt_iff_toNat_lt]
    exact Nat.lt_of_le_of_lt (ordered le (by omega) inside) low
  obtain ⟨-, before, after⟩ := partitionPoint_spec closed
  revert before after
  generalize partitionPoint (smallerAt keys k.size) keys.length = p
  intro before after
  obtain ⟨j, inside, rfl⟩ := List.mem_iff_getElem.mp member
  have le : p ≤ j := by
    by_contra later
    have low := before j (Nat.not_le.mp later)
    rw [smaller inside, decide_eq_true_eq, UInt64.lt_iff_toNat_lt] at low
    exact Nat.lt_irrefl _ low
  have below : p < keys.length := Nat.lt_of_le_of_lt le inside
  have high := after p (Nat.le_refl p) below
  rw [smaller below, decide_eq_false_iff_not, UInt64.lt_iff_toNat_lt] at high
  have upper := ordered le below inside
  have same : keys[p].size = keys[j].size := UInt64.toNat_inj.mp (by omega)
  rw [List.getElem?_eq_getElem below, Option.any_some, same]
  exact beq_self_eq_true _

theorem answer_of_not_wants {signatures : List (Signature n)} {size : UInt64}
    (unwanted : (ofSignatures signatures).finalize.wants size = false)
    (digest : Digest n) : answer signatures digest size = none := by
  have interned := SortedTable.finalize_interned
    (signatures.filterMap Signature.ofSize)
  have anyInterned := SortedTable.finalize_interned
    (signatures.filterMap Signature.ofAny)
  have ascending := SortedTable.winners_ascending
    (signatures.filterMap Signature.ofSize)
  simp only [wants, ofSignatures, finalize, Bool.or_eq_false_iff,
    Bool.not_eq_false', List.isEmpty_iff, interned.keys, anyInterned.keys]
    at unwanted
  obtain ⟨noAny, noSized⟩ := unwanted
  have any : SortedTable.place (signatures.filterMap Signature.ofAny) digest =
      none := by
    rw [SortedTable.place, ← SortedTable.lastOf_winners,
      List.map_eq_nil_iff.mp noAny]
    rfl
  have sized : SortedTable.place (signatures.filterMap Signature.ofSize)
      ⟨size, digest⟩ = none := by
    rw [SortedTable.place, ← SortedTable.lastOf_winners, Option.map_eq_none_iff,
      lastOf_eq_none_iff]
    intro e member same
    have found := partitionPoint_finds (List.pairwise_map.mpr ascending)
      (List.mem_map_of_mem member)
    rw [same] at found
    rw [found] at noSized
    cases noSized
  rw [answer, any, sized]
  rfl

end DigestTable

end

/-! ## The whole database -/

def Insert.md5? : Insert → Option (Signature 16)
  | .md5 s => some s
  | _ => none

def Insert.sha1? : Insert → Option (Signature 20)
  | .sha1 s => some s
  | _ => none

def Insert.sha256? : Insert → Option (Signature 32)
  | .sha256 s => some s
  | _ => none

/-- What a lookup is to give: the signature of the first digest that has one. -/
def bestOf (inserts : List Insert) (d : Digests) (size : UInt64) :
    Option (Name × Bool) :=
  ((d.md5.bind (best (inserts.filterMap Insert.md5?) · size)).map
    Signature.found).or
  (((d.sha1.bind (best (inserts.filterMap Insert.sha1?) · size)).map
    Signature.found).or
  ((d.sha256.bind (best (inserts.filterMap Insert.sha256?) · size)).map
    Signature.found))

/-- Where its name is kept. -/
def answerOf (inserts : List Insert) (d : Digests) (size : UInt64) :
    Option SortedTable.Place :=
  (d.md5.bind (answer (inserts.filterMap Insert.md5?) · size)).or
  ((d.sha1.bind (answer (inserts.filterMap Insert.sha1?) · size)).or
  (d.sha256.bind (answer (inserts.filterMap Insert.sha256?) · size)))

theorem found_answerOf (inserts : List Insert) (d : Digests) (size : UInt64) :
    (answerOf inserts d size).map SortedTable.Place.found =
      bestOf inserts d size := by
  have each {n : Nat} (signatures : List (Signature n))
      (digest : Option (Digest n)) :
      (digest.bind (answer signatures · size)).map SortedTable.Place.found =
        (digest.bind (best signatures · size)).map Signature.found := by
    cases digest with
    | none => rfl
    | some digest => exact found_answer signatures digest size
  rw [answerOf, bestOf, Option.map_or, Option.map_or, each, each, each]

namespace HashDb

theorem foldl_insert (inserts : List Insert) :
    inserts.foldl insert empty =
      ⟨.ofSignatures (inserts.filterMap Insert.md5?),
        .ofSignatures (inserts.filterMap Insert.sha1?),
        .ofSignatures (inserts.filterMap Insert.sha256?)⟩ := by
  induction inserts using List.reverseRecOn with
  | nil => rfl
  | append_singleton inserts i ih =>
      rw [List.foldl_append, ih]
      cases i <;>
        simp [insert, Insert.md5?, Insert.sha1?, Insert.sha256?,
          DigestTable.ofSignatures_insert, List.filterMap_append,
          List.filterMap_cons]

theorem lookup_load (inserts : List Insert) (d : Digests) (size : UInt64) :
    (load inserts).lookup d size =
      DigestTable.readAll (answerOf inserts d size) := by
  rw [load, foldl_insert, answerOf, ← DigestTable.readAll_or,
    ← DigestTable.readAll_or]
  simp only [lookup, finalize, DigestTable.getOf_ofSignatures]

end HashDb

namespace Hashing

variable {h : Hashers}

structure Part (want : Want) (some all : Hashing h) : Prop where
  md5 : some.md5 = if want.md5 then all.md5 else none
  sha1 : some.sha1 = if want.sha1 then all.sha1 else none
  sha256 : some.sha256 = if want.sha256 then all.sha256 else none

variable {want : Want}

theorem Part.update {some all : Hashing h} (part : Part want some all)
    (piece : Bytes) : Part want (some.update piece) (all.update piece) := by
  unfold Hashing.update
  induction chunks (16 * 1024) piece generalizing some all with
  | nil => exact part
  | cons chunk pieces ih =>
      refine ih ⟨?_, ?_, ?_⟩
      · dsimp only
        rw [part.md5]
        cases want.md5 <;> rfl
      · dsimp only
        rw [part.sha1]
        cases want.sha1 <;> rfl
      · dsimp only
        rw [part.sha256]
        cases want.sha256 <;> rfl

theorem part_run (pieces : List Bytes) :
    Part want (pieces.foldl Hashing.update (.new h want))
      (pieces.foldl Hashing.update (.new h Want.all)) := by
  have step (pieces : List Bytes) {some all : Hashing h}
      (part : Part want some all) :
      Part want (pieces.foldl Hashing.update some)
        (pieces.foldl Hashing.update all) := by
    induction pieces generalizing some all with
    | nil => exact part
    | cons piece pieces ih => exact ih (part.update piece)
  exact step pieces ⟨rfl, rfl, rfl⟩

end Hashing

theorem digestsWanted_eq (h : Hashers) (pieces : List Bytes) (want : Want) :
    digestsWanted h pieces want =
      (pieces.foldl Hashing.update (.new h want)).finish := by
  by_cases nothing : want = Want.none
  · have part := @Hashing.part_run h Want.none pieces
    rw [digestsWanted, if_pos nothing, nothing]
    simp only [Hashing.finish, part.md5, part.sha1, part.sha256]
    rfl
  · exact if_neg nothing

namespace DigestTable

variable {n : Nat}

theorem bind_answer_wanted {α : Type} (signatures : List (Signature n))
    (size : UInt64) (state : Option α) (finish : α → Digest n) :
    ((if (ofSignatures signatures).finalize.wants size then state
      else none).map finish).bind (answer signatures · size) =
      (state.map finish).bind (answer signatures · size) := by
  cases wanted : (ofSignatures signatures).finalize.wants size with
  | true => rfl
  | false =>
      cases state with
      | none => rfl
      | some a => exact (answer_of_not_wants wanted (finish a)).symm

def Bounded (t : DigestTable n) : Prop :=
  t.any.Bounded ∧ t.sized.Bounded

instance (t : DigestTable n) : Decidable t.Bounded :=
  inferInstanceAs (Decidable (_ ∧ _))

theorem deserialize_of {t : DigestTable n} {message : String}
    (any : SortedTable.deserialize t.any.serialize =
      if t.any.Bounded then .ok t.any else .error message)
    (sized : SortedTable.deserialize t.sized.serialize =
      if t.sized.Bounded then .ok t.sized else .error message) :
    deserialize t.serialize = if t.Bounded then .ok t else .error message := by
  rw [deserialize, serialize]
  dsimp only
  rw [any, sized]
  by_cases first : t.any.Bounded
  · by_cases second : t.sized.Bounded
    · rw [if_pos first, if_pos second, if_pos (show t.Bounded from ⟨first, second⟩)]
      rfl
    · rw [if_pos first, if_neg second, if_neg (show ¬ t.Bounded from (second ·.2))]
      rfl
  · rw [if_neg first, if_neg (show ¬ t.Bounded from (first ·.1))]
    rfl

theorem deserialize_serialize (some_ : 0 < n)
    (signatures : List (Signature n)) :
    deserialize (ofSignatures signatures).finalize.serialize =
      if (ofSignatures signatures).finalize.Bounded then
        .ok (ofSignatures signatures).finalize
      else .error "hash table out of order or out of bounds" :=
  deserialize_of
    (SortedTable.deserialize_serialize (digest_exact some_)
      (SortedTable.finalize_interned _) (SortedTable.winners_ascending _))
    (SortedTable.deserialize_serialize (sizedKey_exact n)
      (SortedTable.finalize_interned _) (SortedTable.winners_ascending _))

end DigestTable

namespace HashDb

/-- Only the digests asked for can find anything. -/
theorem lookup_wanted (h : Hashers) (inserts : List Insert) (size : UInt64)
    (pieces : List Bytes) :
    (load inserts).lookup (digestsWanted h pieces ((load inserts).wants size))
        size =
      (load inserts).lookup (digestsOf h pieces) size := by
  have part := @Hashing.part_run h ((load inserts).wants size) pieces
  have wanted : (load inserts).wants size =
      ⟨(DigestTable.ofSignatures (inserts.filterMap Insert.md5?)).finalize.wants
          size,
        (DigestTable.ofSignatures (inserts.filterMap Insert.sha1?)).finalize.wants
          size,
        (DigestTable.ofSignatures
          (inserts.filterMap Insert.sha256?)).finalize.wants size⟩ := by
    rw [load, foldl_insert]
    rfl
  rw [digestsOf, digestsWanted_eq, digestsWanted_eq, lookup_load, lookup_load,
    answerOf, answerOf]
  simp only [Hashing.finish, part.md5, part.sha1, part.sha256]
  simp only [wanted, DigestTable.bind_answer_wanted]

/-- Every span of every table cuts its names between characters. -/
def Bounded (db : HashDb) : Prop :=
  db.md5.Bounded ∧ db.sha1.Bounded ∧ db.sha256.Bounded

theorem deserialize_serialize (inserts : List Insert) :
    (∃ db, deserialize (load inserts).serialize = .ok db ∧
      ∀ d size, db.lookup d size = (load inserts).lookup d size) ↔
      (load inserts).Bounded := by
  have md5 := DigestTable.deserialize_serialize (by decide)
    (inserts.filterMap Insert.md5?)
  have sha1 := DigestTable.deserialize_serialize (by decide)
    (inserts.filterMap Insert.sha1?)
  have sha256 := DigestTable.deserialize_serialize (by decide)
    (inserts.filterMap Insert.sha256?)
  rw [load, foldl_insert]
  simp only [deserialize, serialize, finalize, md5, sha1, sha256, Bounded]
  constructor
  · rintro ⟨db, read, -⟩
    split_ifs at read with first second third
    · exact ⟨first, second, third⟩
    all_goals cases read
  · rintro ⟨first, second, third⟩
    rw [if_pos first, if_pos second, if_pos third]
    exact ⟨_, rfl, fun _ _ => rfl⟩

/-- A lookup gives the signature that is to be found just when its name is what
32 bits of offset and length cut out of the names; only the digests asked for
matter; and a database is read back as it was stored just when all its spans cut
its names. -/
theorem lookup_iff (h : Hashers) (inserts : List Insert) (d : Digests)
    (size : UInt64) (pieces : List Bytes) :
    ((load inserts).lookup d size = .ok (bestOf inserts d size) ↔
      ∀ p, answerOf inserts d size = some p → p.Kept) ∧
    (load inserts).lookup (digestsWanted h pieces ((load inserts).wants size))
        size =
      (load inserts).lookup (digestsOf h pieces) size ∧
    ((∃ db, deserialize (load inserts).serialize = .ok db ∧
      ∀ d size, db.lookup d size = (load inserts).lookup d size) ↔
      (load inserts).Bounded) := by
  refine ⟨?_, lookup_wanted h inserts size pieces, deserialize_serialize inserts⟩
  rw [lookup_load, ← found_answerOf]
  exact DigestTable.readAll_eq_iff _

theorem place_single {K : Type} [LinearOrder K] (e : Entry K) :
    SortedTable.place [e] e.key = some ⟨[], e.name, e.name, e.unofficial⟩ := by
  simp [SortedTable.place, SortedTable.winners, lastOf, sortByKey, keepLast]

theorem byteLen_replicate (n : Nat) (c : Char) :
    byteLen (List.replicate n c) = n * c.utf8Size := by
  simp [byteLen]

/-- A name of four gibibytes, a letter and then bytes that are no text and are
read as three bytes each, has a length that 32 bits take for none. -/
theorem lookup_long_name :
    ¬ ∀ (inserts : List Insert) (d : Digests) (size : UInt64),
      (load inserts).lookup d size = .ok (bestOf inserts d size) := by
  intro always
  obtain ⟨name, long⟩ : ∃ name : Name, byteLen name = 2 ^ 32 :=
    ⟨'a' :: List.replicate 1431655765 '\uFFFD', by
      rw [byteLen_cons, byteLen_replicate]
      decide⟩
  let digest : Digest 16 := ⟨List.replicate 16 0, List.length_replicate⟩
  have right := always [.md5 ⟨digest, none, name, false⟩]
    ⟨some digest, none, none⟩ 0
  rw [lookup_load, ← found_answerOf, DigestTable.readAll_eq_iff] at right
  have placed : answerOf [.md5 ⟨digest, none, name, false⟩]
      ⟨some digest, none, none⟩ 0 = some ⟨[], name, name, false⟩ := by
    have sized : answer [⟨digest, none, name, false⟩] digest 0 =
        (SortedTable.place [] (⟨0, digest⟩ : SizedKey 16)).or
          (SortedTable.place [⟨digest, name, false⟩] digest) := rfl
    have whole : answerOf [.md5 ⟨digest, none, name, false⟩]
        ⟨some digest, none, none⟩ 0 =
        (answer [⟨digest, none, name, false⟩] digest 0).or none := rfl
    rw [whole, sized, place_single ⟨digest, name, false⟩]
    rfl
  have kept := right _ placed
  rw [SortedTable.Place.Kept, SortedTable.Place.cut] at kept
  dsimp only at kept
  rw [long, Nat.mod_self, byteLen_nil, Nat.zero_mod, sliceBytes] at kept
  have none_ : name = [] := by
    cases name with
    | nil => rfl
    | cons c name => cases kept
  rw [none_] at long
  cases long

end HashDb

end Exav.Hashes
