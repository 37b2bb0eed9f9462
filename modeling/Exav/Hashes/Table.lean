import Exav.Lib.LastWins

/-!
# Sorted tables of names

A table takes its entries in any order and is finalized into sorted keys next
to one buffer of all the names.  A lookup searches the keys by halves and cuts
the name out of the buffer; it answers with the entry of the key that was put
in last.
-/

namespace Exav.Hashes

open Exav.Bisect Exav.LastWins

/-- A text, as its characters. -/
abbrev Name := List Char

/-! ## Texts by the byte -/

def byteLen (name : Name) : Nat :=
  (name.map Char.utf8Size).sum

@[simp] theorem byteLen_cons (c : Char) (name : Name) :
    byteLen (c :: name) = c.utf8Size + byteLen name := by
  simp [byteLen]

@[simp] theorem byteLen_nil : byteLen [] = 0 := rfl

/-- What stands from the byte on, where a character starts there. -/
def dropBytes : Nat → Name → Option Name
  | 0, name => some name
  | _ + 1, [] => none
  | n + 1, c :: name =>
      if c.utf8Size ≤ n + 1 then dropBytes (n + 1 - c.utf8Size) name else none

/-- The first bytes, where a character ends with them. -/
def takeBytes : Nat → Name → Option Name
  | 0, _ => some []
  | _ + 1, [] => none
  | n + 1, c :: name =>
      if c.utf8Size ≤ n + 1 then
        (takeBytes (n + 1 - c.utf8Size) name).map (c :: ·)
      else none

/-- The `len` bytes from `off` on. -/
def sliceBytes (off len : Nat) (names : Name) : Option Name :=
  (dropBytes off names).bind (takeBytes len)

def isCharBoundary (off : Nat) (names : Name) : Bool :=
  (dropBytes off names).isSome

/-! ## The table -/

/-- An entry put in: its key, its name, and whether its database is
unofficial. -/
structure Entry (K : Type) where
  key : K
  name : Name
  unofficial : Bool
  deriving DecidableEq

/-- What a lookup finds of an entry. -/
def Entry.found {K : Type} (e : Entry K) : Name × Bool :=
  (e.name, e.unofficial)

structure SortedTable (K : Type) where
  keys : List K
  /-- Offset and length into `names`, parallel to `keys`. -/
  spans : List (UInt32 × UInt32)
  names : Name
  unofficial : List Bool
  pending : List (Entry K)
  deriving DecidableEq

namespace SortedTable

section

variable {K : Type} [LinearOrder K]

def empty : SortedTable K := ⟨[], [], [], [], []⟩

def insert (t : SortedTable K) (e : Entry K) : SortedTable K :=
  { t with pending := t.pending ++ [e] }

/-- Put one entry behind those already in; its name goes at the end of the
buffer, its offset and length into 32 bits. -/
def push (t : SortedTable K) (e : Entry K) : SortedTable K :=
  { t with
    keys := t.keys ++ [e.key]
    spans := t.spans ++
      [(UInt32.ofNat (byteLen t.names), UInt32.ofNat (byteLen e.name))]
    names := t.names ++ e.name
    unofficial := t.unofficial ++ [e.unofficial] }

/-- Sort the pending entries and intern their names; on a duplicate key the
last inserted wins. -/
def finalize (t : SortedTable K) : SortedTable K :=
  if t.pending.isEmpty then t
  else (keepLast Entry.key (sortByKey Entry.key t.pending)).foldl push empty

def orderAt (keys : List K) (key : K) (i : Nat) : Ordering :=
  match keys[i]? with
  | some k => compare k key
  | none => .gt

/-- The name and provenance for a key.  A span that does not cut the names
between characters panics. -/
def get (t : SortedTable K) (key : K) : Except String (Option (Name × Bool)) :=
  match searchBy (orderAt t.keys key) t.keys.length with
  | .error _ => .ok none
  | .ok i =>
      match t.spans[i]?, t.unofficial[i]? with
      | some (off, len), some unofficial =>
          match sliceBytes off.toNat len.toNat t.names with
          | some name => .ok (some (name, unofficial))
          | none => .error "byte index is not a char boundary"
      | _, _ => .error "index out of bounds"

/-! ## What interning leaves -/

/-- The table holds these entries, in this order. -/
structure Interned (t : SortedTable K) (entries : List (Entry K)) : Prop where
  keys : t.keys = entries.map Entry.key
  unofficial : t.unofficial = entries.map Entry.unofficial
  names : t.names = entries.flatMap Entry.name
  spans : t.spans.length = entries.length
  span : ∀ i e, entries[i]? = some e → t.spans[i]? =
    some (UInt32.ofNat (byteLen ((entries.take i).flatMap Entry.name)),
      UInt32.ofNat (byteLen e.name))
  settled : t.pending = []

omit [LinearOrder K] in
theorem empty_interned : (empty : SortedTable K).Interned [] where
  keys := rfl
  unofficial := rfl
  names := rfl
  spans := rfl
  span i e held := by simp at held
  settled := rfl

omit [LinearOrder K] in
theorem Interned.push {t : SortedTable K} {entries : List (Entry K)}
    (interned : t.Interned entries) (e : Entry K) :
    (t.push e).Interned (entries ++ [e]) where
  keys := by simp [SortedTable.push, interned.keys]
  unofficial := by simp [SortedTable.push, interned.unofficial]
  names := by simp [SortedTable.push, interned.names]
  spans := by simp [SortedTable.push, interned.spans]
  span i f held := by
    have counted := interned.spans
    by_cases earlier : i < entries.length
    · rw [List.getElem?_append_left earlier] at held
      simp only [SortedTable.push]
      rw [List.getElem?_append_left (by omega), interned.span i f held,
        List.take_append_of_le_length (by omega)]
    · obtain rfl : i = entries.length := by
        have below := (List.getElem?_eq_some_iff.mp held).1
        simp only [List.length_append, List.length_singleton] at below
        omega
      obtain rfl : e = f := by simpa using held
      simp only [SortedTable.push]
      rw [← counted, List.getElem?_concat_length, counted,
        List.take_left, interned.names]
  settled := interned.settled

omit [LinearOrder K] in
theorem foldl_push_interned {t : SortedTable K} {entries : List (Entry K)}
    (interned : t.Interned entries) (more : List (Entry K)) :
    (more.foldl SortedTable.push t).Interned (entries ++ more) := by
  induction more generalizing t entries with
  | nil => simpa using interned
  | cons e more ih => simpa using ih (interned.push e)

/-- The entries a finalized table holds. -/
def winners (pending : List (Entry K)) : List (Entry K) :=
  keepLast Entry.key (sortByKey Entry.key pending)

theorem winners_ascending (pending : List (Entry K)) :
    (winners pending).Pairwise fun a b => a.key < b.key :=
  keepLast_ascending (sortByKey_ascending pending)

theorem lastOf_winners (pending : List (Entry K)) (k : K) :
    lastOf Entry.key k (winners pending) = lastOf Entry.key k pending := by
  rw [winners, lastOf_keepLast (sortByKey_ascending pending),
    lastOf_sortByKey]

theorem finalize_interned (pending : List (Entry K)) :
    ({ empty with pending := pending } : SortedTable K).finalize.Interned
      (winners pending) := by
  cases pending with
  | nil =>
      have none_ : winners ([] : List (Entry K)) = [] := by
        simp [winners, sortByKey, keepLast]
      rw [none_]
      exact empty_interned
  | cons e pending =>
      have whole := foldl_push_interned empty_interned
        (winners (e :: pending))
      simpa [finalize, winners] using whole

/-! ## What a lookup finds -/

variable {entries : List (Entry K)}

theorem orderAt_ascending {keys : List K}
    (ascending : keys.Pairwise (· < ·)) (key : K) :
    Ascending (orderAt keys key) keys.length := by
  intro i j ordered below
  have earlier : i < keys.length := by omega
  rw [orderAt, orderAt, List.getElem?_eq_getElem below,
    List.getElem?_eq_getElem earlier]
  have le : keys[i] ≤ keys[j] := by
    rcases Nat.lt_or_eq_of_le ordered with strictly | rfl
    · exact (List.pairwise_iff_getElem.mp ascending i j earlier below
        strictly).le
    · exact le_refl _
  simp only [compare_lt_iff_lt, compare_gt_iff_gt]
  exact ⟨fun low => lt_of_le_of_lt le low, fun high => lt_of_lt_of_le high le⟩

theorem filter_lt_of_ascending
    (ascending : entries.Pairwise fun a b => a.key < b.key) {i : Nat}
    {e : Entry K} (held : entries[i]? = some e) :
    entries.filter (fun f => f.key < e.key) = entries.take i := by
  induction entries generalizing i with
  | nil => simp at held
  | cons first entries ih =>
      obtain ⟨below, rest⟩ := List.pairwise_cons.mp ascending
      cases i with
      | zero =>
          have same : first = e := Option.some.inj held
          subst same
          rw [List.take_zero, List.filter_eq_nil_iff]
          intro f member
          have least : first.key ≤ f.key := by
            rcases List.mem_cons.mp member with rfl | later
            · exact le_refl _
            · exact (below f later).le
          simpa using least
      | succ i =>
          have later : e ∈ entries := List.mem_of_getElem? held
          rw [List.filter_cons_of_pos (by simpa using below e later),
            List.take_succ_cons, ih rest held]

/-! ## Where a name is kept -/

structure Place where
  before : Name
  name : Name
  names : Name
  unofficial : Bool

namespace Place

/-- What stands at the offset and the length that 32 bits hold. -/
def cut (p : Place) : Option Name :=
  sliceBytes (byteLen p.before % 2 ^ 32) (byteLen p.name % 2 ^ 32) p.names

def read (p : Place) : Except String (Option (Name × Bool)) :=
  match p.cut with
  | some name => .ok (some (name, p.unofficial))
  | none => .error "byte index is not a char boundary"

def found (p : Place) : Name × Bool :=
  (p.name, p.unofficial)

def Kept (p : Place) : Prop :=
  p.cut = some p.name

theorem read_eq_iff (p : Place) : p.read = .ok (some p.found) ↔ p.Kept := by
  unfold read Kept found
  cases p.cut <;> simp

end Place

def place (pending : List (Entry K)) (k : K) : Option Place :=
  (lastOf Entry.key k pending).map fun e =>
    ⟨((winners pending).filter fun f => f.key < k).flatMap Entry.name, e.name,
      (winners pending).flatMap Entry.name, e.unofficial⟩

theorem get_finalize (pending : List (Entry K)) (k : K) :
    ({ empty with pending := pending } : SortedTable K).finalize.get k =
      match place pending k with
      | some p => p.read
      | none => .ok none := by
  have interned := finalize_interned pending
  have ascending := winners_ascending pending
  revert interned
  generalize ({ empty with pending := pending } : SortedTable K).finalize = t
  intro interned
  have sorted : t.keys.Pairwise (· < ·) := by
    rw [interned.keys, List.pairwise_map]
    exact ascending
  have searched := orderAt_ascending sorted k
  have keyAt (i : Nat) : t.keys[i]? = (winners pending)[i]?.map Entry.key := by
    rw [interned.keys, List.getElem?_map]
  rw [place, ← lastOf_winners]
  unfold SortedTable.get
  cases found : searchBy (orderAt t.keys k) t.keys.length with
  | error i =>
      have none_ : lastOf Entry.key k (winners pending) = none := by
        rw [lastOf_eq_none_iff]
        intro e member same
        obtain ⟨j, below, rfl⟩ := List.mem_iff_getElem.mp member
        have inKeys : j < t.keys.length := by
          simpa [interned.keys] using below
        apply ne_eq_of_searchBy_error searched found inKeys
        rw [orderAt, keyAt, List.getElem?_eq_getElem below]
        exact compare_eq_iff_eq.mpr same
      rw [none_]
      rfl
  | ok i =>
      obtain ⟨inKeys, on⟩ := searchBy_ok searched found
      have below : i < (winners pending).length := by
        simpa [interned.keys] using inKeys
      have held : (winners pending)[i]? = some (winners pending)[i] :=
        List.getElem?_eq_getElem below
      have same : (winners pending)[i].key = k := by
        rw [orderAt, keyAt, held] at on
        exact compare_eq_iff_eq.mp on
      have last : lastOf Entry.key k (winners pending) =
          some (winners pending)[i] := by
        rw [← same]
        exact lastOf_eq_some ascending (List.getElem_mem below)
      have provenance : t.unofficial[i]? =
          some (winners pending)[i].unofficial := by
        rw [interned.unofficial, List.getElem?_map, held]
        rfl
      have before := filter_lt_of_ascending ascending held
      rw [same] at before
      simp only [interned.span i _ held, provenance, last, Option.map_some,
        interned.names, UInt32.toNat_ofNat', before]
      rfl

end

end SortedTable

end Exav.Hashes
