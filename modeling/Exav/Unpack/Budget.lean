import Exav.Bytes

/-!
# What an extraction may spend

A budget is threaded through every extractor.  It counts members and the bytes
they decode to, and it carries the passwords to try and what deriving keys from
them has cost so far.
-/

namespace Exav.Unpack

/-- The budget that stopped a scan, or that the input was malformed. -/
inductive LimitKind where
  | maxScanSize
  | maxFileSize
  | maxFiles
  | maxRecursion
  | maxScanTime
  | corrupt
  deriving DecidableEq

structure LimitHit where
  reason : String
  kind : LimitKind
  deriving DecidableEq

namespace LimitHit

/-- A resource-budget stop. -/
def new (reason : String) : LimitHit :=
  ⟨reason, .maxFileSize⟩

def ofKind (kind : LimitKind) (reason : String) : LimitHit :=
  ⟨reason, kind⟩

def malformed (reason : String) : LimitHit :=
  ⟨reason, .corrupt⟩

end LimitHit

structure Limits where
  maxMembers : Nat
  maxExtractedBytes : Nat
  maxBufferBytes : Nat
  deriving DecidableEq

/-- Mutable extraction budget, shared across the recursion. -/
structure Budget where
  limits : Limits
  files : Nat
  totalOut : Nat
  kdfRounds : Nat
  rar3Derivations : Nat
  passwords : List String
  verifyChecksums : Bool
  deriving DecidableEq

namespace Budget

/-- Nothing spent yet, and no password to try. -/
def new (limits : Limits) : Budget :=
  ⟨limits, 0, 0, 0, 0, [], false⟩

def countEntry (b : Budget) : Except LimitHit Budget :=
  if b.files + 1 > b.limits.maxMembers then
    .error (.ofKind .maxFiles s!"file count > {b.limits.maxMembers}")
  else .ok { b with files := b.files + 1 }

/-- The most bytes the next member may decompress to. -/
def reserve (b : Budget) : Except LimitHit Nat :=
  let remaining := b.limits.maxExtractedBytes - b.totalOut
  if remaining = 0 then
    .error (.new (s!"extracted bytes > {b.limits.maxExtractedBytes}, " ++
      "the total a scan may hold (exav's --max-process-bytes sets it)"))
  else .ok (min remaining b.limits.maxBufferBytes)

def commit (b : Budget) (n : Nat) : Budget :=
  { b with totalOut := b.totalOut + n }

end Budget

/-- One extracted member. -/
structure Entry where
  name : String
  data : Bytes
  compSize : Nat
  encrypted : Bool
  unsupported : Option String
  deriving DecidableEq

namespace Entry

/-- A member whose compressed size is unknown, and which is not encrypted. -/
def new (name : String) (data : Bytes) : Entry :=
  ⟨name, data, data.length, false, none⟩

/-- A member whose metadata is known but whose content could not be decoded. -/
def ofUnsupported (name : String) (compSize : Nat) (encrypted : Bool)
    (reason : String) : Entry :=
  ⟨name, [], compSize, encrypted, some reason⟩

/-- The content is handed over as the member's own. -/
def readable (e : Entry) : Bool :=
  e.unsupported.isNone

@[simp] theorem readable_ofUnsupported (name : String) (compSize : Nat)
    (encrypted : Bool) (reason : String) :
    (ofUnsupported name compSize encrypted reason).readable = false :=
  rfl

end Entry

/-- The features a build is made with. -/
structure Build where
  decrypt : Bool
  checksums : Bool

/-- Whether checksum verification is active. -/
def Budget.shouldVerifyChecksums (build : Build) (b : Budget) : Bool :=
  build.checksums && b.verifyChecksums

/-!
## Members handed over within a budget

A member held in memory is counted, its size is checked against what is left,
and it is paid for, before it is handed over.  A budget that admits some members
hands over all of them, and any other a prefix of them.
-/

def Budget.Admits : Budget → List Bytes → Prop
  | _, [] => True
  | b, data :: files =>
      ∃ counted cap, b.countEntry = .ok counted ∧ counted.reserve = .ok cap ∧
        data.length ≤ cap ∧ (counted.commit data.length).Admits files

def membersOf (result : List Entry × Except LimitHit Budget) :
    Option (List Bytes) :=
  match result.2 with
  | .ok _ => some (result.1.map Entry.data)
  | .error _ => none

/-- Count a member of `size` bytes and pay for it. -/
def Budget.spend (excess : LimitHit) (size : Nat) (b : Budget) :
    Except LimitHit Budget := do
  let b ← b.countEntry
  let cap ← b.reserve
  if cap < size then throw excess
  pure (b.commit size)

/-- Pay for a member, hand it over, and go on with what is left. -/
def emitThen (excess : LimitHit) (entry : Entry) (b : Budget)
    (more : Budget → List Entry × Except LimitHit Budget) :
    List Entry × Except LimitHit Budget :=
  match b.spend excess entry.data.length with
  | .error hit => ([], .error hit)
  | .ok b => (entry :: (more b).1, (more b).2)

/-- Members handed over one after the other. -/
def emitEach (excess : LimitHit) : List Entry → Budget →
    List Entry × Except LimitHit Budget
  | [], b => ([], .ok b)
  | entry :: entries, b => emitThen excess entry b (emitEach excess entries)

variable {excess : LimitHit}

theorem emitEach_starts (excess : LimitHit) (entries : List Entry) (b : Budget) :
    (emitEach excess entries b).1 <+: entries := by
  induction entries generalizing b with
  | nil => exact List.prefix_rfl
  | cons entry entries ih =>
      rw [emitEach, emitThen]
      split
      · exact List.nil_prefix
      · exact List.cons_prefix_cons.mpr ⟨rfl, ih _⟩

/-- A run that was not stopped has handed over every member. -/
theorem emitEach_ok {entries : List Entry} {b left : Budget}
    (ended : (emitEach excess entries b).2 = .ok left) :
    (emitEach excess entries b).1 = entries := by
  induction entries generalizing b with
  | nil => rfl
  | cons entry entries ih =>
      rw [emitEach, emitThen] at ended ⊢
      split at ended
      · cases ended
      · exact congrArg _ (ih ended)

theorem Budget.spend_of_fits {size cap : Nat} {b counted : Budget}
    (count : b.countEntry = .ok counted) (room : counted.reserve = .ok cap)
    (fits : size ≤ cap) : b.spend excess size = .ok (counted.commit size) := by
  have within : ¬ cap < size := Nat.not_lt.mpr fits
  simp only [Budget.spend, count, room, bind, Except.bind, if_neg within]
  rfl

theorem emitEach_admits {entries : List Entry} {b : Budget}
    (admits : b.Admits (entries.map Entry.data)) :
    ∃ left, emitEach excess entries b = (entries, .ok left) := by
  induction entries generalizing b with
  | nil => exact ⟨b, rfl⟩
  | cons entry entries ih =>
      obtain ⟨counted, cap, count, room, fits, admits⟩ := admits
      obtain ⟨left, rest⟩ := ih admits
      refine ⟨left, ?_⟩
      rw [emitEach, emitThen, Budget.spend_of_fits count room fits]
      dsimp only
      rw [rest]

/-! ## Ample budgets -/

/-- A budget that is enough for `n` members, or bytes, or both. -/
structure Budget.Room (b : Budget) (n : Nat) : Prop where
  members : b.files + n ≤ b.limits.maxMembers
  bytes : b.totalOut + n < b.limits.maxExtractedBytes
  buffer : n ≤ b.limits.maxBufferBytes

theorem Budget.room_new (n : Nat) : (Budget.new ⟨n, n + 1, n⟩).Room n where
  members := (Nat.zero_add n).le
  bytes := (Nat.zero_add n).symm ▸ Nat.lt_succ_self n
  buffer := Nat.le_refl n

theorem Budget.Room.less {b : Budget} {n m : Nat} (room : b.Room m)
    (less : n ≤ m) : b.Room n := by
  obtain ⟨members, bytes, buffer⟩ := room
  exact ⟨by omega, by omega, by omega⟩

theorem Budget.Room.countEntry {b : Budget} {n : Nat} (room : b.Room (n + 1)) :
    ∃ left, b.countEntry = .ok left ∧ left.Room n := by
  obtain ⟨members, bytes, buffer⟩ := room
  refine ⟨_, by rw [Budget.countEntry, if_neg (by omega)], ?_, ?_, ?_⟩
  · dsimp only
    omega
  · dsimp only
    omega
  · dsimp only
    omega

theorem Budget.Room.reserve {b : Budget} {n : Nat} (room : b.Room n) :
    ∃ cap, b.reserve = .ok cap ∧ n ≤ cap := by
  obtain ⟨members, bytes, buffer⟩ := room
  refine ⟨_, by rw [Budget.reserve, if_neg (by omega)], ?_⟩
  exact Nat.le_min.mpr ⟨by omega, buffer⟩

theorem Budget.Room.commit {b : Budget} {n size : Nat} (room : b.Room (n + size)) :
    (b.commit size).Room n := by
  obtain ⟨members, bytes, buffer⟩ := room
  refine ⟨?_, ?_, ?_⟩
  · change b.files + n ≤ b.limits.maxMembers
    omega
  · change b.totalOut + size + n < b.limits.maxExtractedBytes
    omega
  · change n ≤ b.limits.maxBufferBytes
    omega

theorem Budget.Room.spend {b : Budget} {n size : Nat}
    (room : b.Room (n + size + 1)) :
    ∃ left, b.spend excess size = .ok left ∧ left.Room n := by
  obtain ⟨counted, count, room⟩ := room.countEntry
  obtain ⟨cap, reserved, enough⟩ := room.reserve
  exact ⟨_, spend_of_fits count reserved (by omega), room.commit⟩

end Exav.Unpack
