import Exav.Bytes
import Exav.Lib.Mirror

/-!
# Virtual disks

A container says of each unit of its disk whether it is stored as it reads, not
stored at all, or compressed.  The disk is read without being held: a compressed
unit is decoded into a cache of so many bytes and again once it has been evicted,
and the bytes decoded are counted against an allowance.
-/

namespace Exav.Unpack.Virtual

open Exav.Mirror

def u64Max : Nat := 2 ^ 64 - 1

def saturatingAdd (a b : Nat) : Nat := min u64Max (a + b)

def saturatingMul (a b : Nat) : Nat := min u64Max (a * b)

/-- Decoded units kept, in bytes. -/
def cacheBytes : Nat := 32 * 1024 * 1024

/-! ## The container -/

/-- Where a unit of the disk is. -/
inductive Map where
  | zero
  | plain (start : Nat)
  | packed (start stored : Nat) (cut : Bool)
  deriving DecidableEq

/-- A compressed unit as far as it decoded. -/
structure Unpacked where
  data : Bytes
  damaged : Bool

/-- What a container format says of its disk. -/
structure Layout where
  size : Nat
  unit : Nat
  map : Nat → Map
  unpack : (idx start stored : Nat) → (cut : Bool) → (out : Nat) → Unpacked
  sizeFits : size ≤ u64Max

/-- The image: its bytes, what reading a window of them gives, which falls short
where it cannot be read, and what the image then says of it. -/
structure Image where
  data : Bytes
  window : Nat → Nat → Bytes
  readError : Nat → Nat → Option String
  faithful : ∀ off len, window off len <+: Exav.window data off len
  lenFits : data.length ≤ u64Max

/-- `len` bytes from `off` on, or none when they are not all there. -/
def bytesAt (src : Image) (off len : Nat) : Option Bytes :=
  if src.data.length < off + len then none
  else
    let w := src.window off len
    if w.length = len then some w else none

/-! ## What reads found -/

inductive IoError where
  | overAllowance
  | unexpectedEof (why : String)
  | seekOutside
  deriving DecidableEq

/-- What reads of a disk found. -/
structure Health where
  undecodable : Nat
  produced : Nat
  decoded : Nat
  allowance : Nat
  excess : Bool
  cachePeak : Nat

namespace Health

def new (allowance : Nat) : Health := ⟨0, 0, 0, allowance, false, 0⟩

/-- Count `n` more bytes decoded, or refuse to. -/
def charge (h : Health) (n : Nat) : Bool × Health :=
  let total := saturatingAdd h.decoded n
  if h.allowance < total then (false, { h with excess := true })
  else (true, { h with decoded := total })

/-- What a unit that was decoded adds. -/
def note (h : Health) (u : Unpacked) : Health :=
  { h with
    undecodable :=
      if u.damaged then saturatingAdd h.undecodable 1 else h.undecodable
    produced := if u.data = [] then h.produced else saturatingAdd h.produced 1 }

end Health

/-! ## The cache -/

/-- A decoded unit, and the tick of its last use. -/
structure Held where
  data : Bytes
  used : Nat
  deriving DecidableEq

/-- Decoded units by index, and the indices by tick of last use.  The bytes held
are in memory, so their count never reaches the width of a word. -/
structure Cache where
  units : Table Nat Held
  order : Table Nat Nat
  bytes : Nat
  tick : Nat
  cap : Nat

namespace Cache

def new (cap : Nat) : Cache := ⟨∅, ∅, 0, 0, cap⟩

/-- Mark a unit used.  Whether it is held. -/
def touch (c : Cache) (idx : Nat) : Bool × Cache :=
  match c.units.lookup idx with
  | none => (false, c)
  | some unit =>
      let tick := saturatingAdd c.tick 1
      (true, { c with
        units := c.units.insert idx { unit with used := tick }
        order := (c.order.erase unit.used).insert tick idx
        tick := tick })

def get (c : Cache) (idx : Nat) : Option Bytes :=
  (c.units.lookup idx).map Held.data

/-- Take the unit used longest ago out of the order, and what is held of it. -/
def evict (c : Cache) (oldest idx : Nat) : Cache :=
  let order := c.order.erase oldest
  match c.units.lookup idx with
  | none => { c with order := order }
  | some unit =>
      { c with
        order := order
        units := c.units.erase idx
        bytes := c.bytes - unit.data.length }

/-- Evict until `len` more bytes fit or nothing is left to evict.  Each round
takes a tick out of the order. -/
def makeRoom (len : Nat) : (rounds : Nat) → Cache → Cache
  | 0, c => c
  | rounds + 1, c =>
      if c.bytes + len ≤ c.cap then c
      else
        match c.order.keys.min? with
        | none => c
        | some oldest =>
            match c.order.lookup oldest with
            | none => c
            | some idx => makeRoom len rounds (c.evict oldest idx)

/-- Hold a unit, in place of what was held of it. -/
def put (c : Cache) (idx : Nat) (data : Bytes) : Cache :=
  let c := makeRoom data.length c.order.keys.length c
  let tick := saturatingAdd c.tick 1
  let order := c.order.insert tick idx
  let bytes := c.bytes + data.length
  let units := c.units.insert idx ⟨data, tick⟩
  match c.units.lookup idx with
  | none => { c with units := units, order := order, bytes := bytes, tick := tick }
  | some old =>
      { c with
        units := units
        order := order.erase old.used
        bytes := bytes - old.data.length
        tick := tick }

end Cache

/-! ## The disk -/

/-- A disk as it is read. -/
structure VDisk where
  pos : Nat
  health : Health
  cache : Cache
  last : Option (Nat × Map)

def new (allowance : Nat) : VDisk where
  pos := 0
  health := Health.new allowance
  cache := Cache.new cacheBytes
  last := none

variable (src : Image) (layout : Layout)

/-- Where a unit is: looked up once while reads stay in it. -/
def lookup (d : VDisk) (idx : Nat) : Map × VDisk :=
  let fresh := (layout.map idx, { d with last := some (idx, layout.map idx) })
  match d.last with
  | some (i, m) => if i = idx then (m, d) else fresh
  | none => fresh

/-- A unit decoded, `out` bytes long when whole. -/
def unpacked (d : VDisk) (idx start stored : Nat) (cut : Bool) (out : Nat) :
    Except IoError Bytes × VDisk :=
  let (isHeld, cache) := d.cache.touch idx
  if isHeld then
    (.ok ((cache.get idx).getD []), { d with cache := cache })
  else
    let (charged, health) := d.health.charge out
    if charged then
      let u := layout.unpack idx start stored cut out
      let health := health.note u
      let cache := cache.put idx u.data
      let health := { health with cachePeak := max health.cachePeak cache.bytes }
      (.ok ((cache.get idx).getD []),
        { d with cache := cache, health := health })
    else (.error .overAllowance, { d with cache := cache, health := health })

/-- How many bytes unit `idx` has: the last one may be short. -/
def unitLen (idx : Nat) : Nat :=
  let unit := max layout.unit 1
  min unit (layout.size - saturatingMul idx unit)

/-- The `want` bytes of unit `idx` from `into` on. -/
def readUnit (d : VDisk) (idx into want : Nat) : Except IoError Bytes × VDisk :=
  match lookup layout d idx with
  | (.zero, d) => (.ok (List.replicate want 0), d)
  | (.plain start, d) =>
      let start := saturatingAdd start into
      match bytesAt src start want with
      | some w => (.ok w, d)
      | none =>
          (.error (.unexpectedEof ((src.readError start want).getD
            "the image ended inside a stored unit")), d)
  | (.packed start stored cut, d) =>
      match unpacked layout d idx start stored cut (unitLen layout idx) with
      | (.error e, d) => (.error e, d)
      | (.ok data, d) =>
          -- A unit that decoded short reads as zeros past what decoded.
          let got := Exav.window data into want
          (.ok (got ++ List.replicate (want - got.length) 0), d)

/-- Read up to `len` bytes, no further than the unit they are in. -/
def read (d : VDisk) (len : Nat) : Except IoError Bytes × VDisk :=
  if len = 0 ∨ layout.size ≤ d.pos then (.ok [], d)
  else
    let unit := max layout.unit 1
    let idx := d.pos / unit
    let into := d.pos % unit
    let want := min (unitLen layout idx - into) len
    match readUnit src layout d idx into want with
    | (.error e, d) => (.error e, d)
    | (.ok bytes, d) => (.ok bytes, { d with pos := saturatingAdd d.pos want })

inductive SeekFrom where
  | start (p : UInt64)
  | fromEnd (d : Int)
  | current (d : Int)

/-- A position moved by a signed distance, if that is a position. -/
def checkedAddSigned (pos : Nat) (d : Int) : Option Nat :=
  if 0 ≤ pos + d ∧ pos + d ≤ u64Max then some (pos + d).toNat else none

def seek (d : VDisk) (target : SeekFrom) : Except IoError Nat × VDisk :=
  let pos := match target with
    | .start p => some p.toNat
    | .fromEnd d => checkedAddSigned layout.size d
    | .current distance => checkedAddSigned d.pos distance
  match pos with
  | none => (.error .seekOutside, d)
  | some pos => (.ok pos, { d with pos := pos })

/-! ## Runs -/

/-- What is asked of a disk. -/
inductive Op where
  | read (len : Nat)
  | seek (target : SeekFrom)

/-- The disk after one operation. -/
def step (d : VDisk) : Op → VDisk
  | .read len => (read src layout d len).2
  | .seek target => (seek layout d target).2

def run (d : VDisk) (ops : List Op) : VDisk :=
  ops.foldl (step src layout) d

/-!
## What a virtual disk reads as

The flat disk is what the map describes.  Whatever has been read and evicted
before, a read gives its bytes.  The cache counts what it holds, and its order of
use mirrors what it holds for as long as its ticks last.
-/

/-! ## The cache -/

namespace Cache

def held (c : Cache) : Nat :=
  weight (fun unit : Held => unit.data.length) c.units

def Mirrors (c : Cache) : Prop :=
  Mirrored Held.used c.units c.order

/-- What the cache holds of a unit is what `decoded` says of it. -/
def Holds (c : Cache) (decoded : Nat → Bytes → Prop) : Prop :=
  ∀ idx unit, c.units.lookup idx = some unit → decoded idx unit.data

def Timely (c : Cache) : Prop :=
  ∀ t idx, c.order.lookup t = some idx → t ≤ c.tick

variable {c : Cache} {idx : Nat}

theorem get_touched (isHeld : (c.touch idx).1 = true) :
    ∃ unit, c.units.lookup idx = some unit ∧
      (c.touch idx).2.get idx = some unit.data := by
  unfold touch at isHeld ⊢
  cases found : c.units.lookup idx with
  | none =>
      rw [found] at isHeld
      cases isHeld
  | some unit =>
      refine ⟨unit, rfl, ?_⟩
      simp [get]

theorem touch_absent (absent : (c.touch idx).1 = false) :
    c.units.lookup idx = none ∧ (c.touch idx).2 = c := by
  unfold touch at absent ⊢
  cases found : c.units.lookup idx with
  | none => exact ⟨rfl, rfl⟩
  | some unit =>
      rw [found] at absent
      cases absent

theorem Holds.touch {decoded : Nat → Bytes → Prop} (holds : c.Holds decoded) :
    (c.touch idx).2.Holds decoded := by
  unfold Cache.touch
  split
  · exact holds
  · rename_i unit found
    intro i other there
    by_cases same : i = idx
    · subst same
      rw [AList.lookup_insert, Option.some.injEq] at there
      subst there
      exact holds i unit found
    · rw [AList.lookup_insert_ne same] at there
      exact holds i other there

theorem held_touch (counted : c.bytes = c.held) :
    (c.touch idx).2.bytes = (c.touch idx).2.held := by
  unfold Cache.touch
  split
  · exact counted
  · rename_i unit found
    have parts := weight_erase (fun unit : Held => unit.data.length) found
    show c.bytes = weight _ (c.units.insert idx _)
    rw [weight_insert, counted, held, ← parts]

/-! ### Eviction -/

theorem cap_evict (c : Cache) (oldest idx : Nat) :
    (c.evict oldest idx).tick = c.tick ∧ (c.evict oldest idx).cap = c.cap := by
  unfold evict
  split <;> exact ⟨rfl, rfl⟩

theorem Holds.evict {decoded : Nat → Bytes → Prop} (holds : c.Holds decoded)
    (oldest idx : Nat) : (c.evict oldest idx).Holds decoded := by
  unfold Cache.evict
  split
  · exact holds
  · intro i unit there
    by_cases same : i = idx
    · subst same
      simp at there
    · rw [AList.lookup_erase_ne same] at there
      exact holds i unit there

theorem held_evict (counted : c.bytes = c.held) (oldest idx : Nat) :
    (c.evict oldest idx).bytes = (c.evict oldest idx).held := by
  unfold Cache.evict
  split
  · exact counted
  · rename_i unit found
    have parts := weight_erase (fun unit : Held => unit.data.length) found
    show c.bytes - unit.data.length = weight _ (c.units.erase idx)
    rw [counted, held, ← parts, Nat.add_sub_cancel_left]

theorem Timely.evict (timely : c.Timely) (oldest idx : Nat) :
    (c.evict oldest idx).Timely := by
  intro t i there
  have order : (c.evict oldest idx).order = c.order.erase oldest := by
    unfold Cache.evict
    split <;> rfl
  rw [order] at there
  rw [(cap_evict c oldest idx).1]
  by_cases same : t = oldest
  · subst same
    simp at there
  · rw [AList.lookup_erase_ne same] at there
    exact timely t i there

theorem Mirrors.evict (mirrors : c.Mirrors) {oldest idx : Nat}
    (found : c.order.lookup oldest = some idx) :
    (c.evict oldest idx).Mirrors := by
  have dropped := mirrors.drop found
  unfold Cache.evict
  split
  · rename_i absent
    rw [erase_of_absent absent] at dropped
    exact dropped
  · exact dropped

theorem makeRoom_induct {motive : Cache → Prop} (len : Nat)
    (kept : ∀ c oldest idx, motive c → c.order.lookup oldest = some idx →
      motive (c.evict oldest idx))
    (rounds : Nat) {c : Cache} (holds : motive c) :
    motive (makeRoom len rounds c) := by
  induction rounds generalizing c with
  | zero => exact holds
  | succ rounds ih =>
      unfold makeRoom
      split
      · exact holds
      · split
        · exact holds
        · split
          · exact holds
          · rename_i oldest _ _ idx found
            exact ih (kept c oldest idx holds found)

theorem unheld_makeRoom (len rounds : Nat)
    (unheld : c.units.lookup idx = none) :
    (makeRoom len rounds c).units.lookup idx = none := by
  apply makeRoom_induct (motive := fun c => c.units.lookup idx = none) len ?_
    rounds unheld
  intro c oldest i absent _
  unfold evict
  split
  · exact absent
  · by_cases same : idx = i
    · subst same
      exact AList.lookup_erase idx c.units
    · rw [AList.lookup_erase_ne same]
      exact absent

theorem tick_makeRoom (len rounds : Nat) (c : Cache) :
    (makeRoom len rounds c).tick = c.tick := by
  apply makeRoom_induct (motive := fun after => after.tick = c.tick) len ?_
    rounds rfl
  intro after oldest i same _
  rw [(cap_evict after oldest i).1, same]

/-! ### Putting a unit in -/

theorem get_put (c : Cache) (idx : Nat) (data : Bytes) :
    (c.put idx data).get idx = some data := by
  unfold put get
  dsimp only
  split <;> simp

theorem put_unheld (unheld : c.units.lookup idx = none) (data : Bytes) :
    c.put idx data =
      let c := makeRoom data.length c.order.keys.length c
      let tick := saturatingAdd c.tick 1
      { c with
        units := c.units.insert idx ⟨data, tick⟩
        order := c.order.insert tick idx
        bytes := c.bytes + data.length
        tick := tick } := by
  have absent := unheld_makeRoom data.length c.order.keys.length unheld
  unfold put
  dsimp only
  rw [absent]

theorem Holds.put {decoded : Nat → Bytes → Prop} (holds : c.Holds decoded)
    (unheld : c.units.lookup idx = none) {data : Bytes}
    (right : decoded idx data) : (c.put idx data).Holds decoded := by
  have room : (makeRoom data.length c.order.keys.length c).Holds decoded :=
    makeRoom_induct (motive := fun c => c.Holds decoded) _
      (fun c oldest i holds _ => holds.evict oldest i) _ holds
  rw [put_unheld unheld]
  intro i unit there
  by_cases same : i = idx
  · subst same
    rw [AList.lookup_insert, Option.some.injEq] at there
    subst there
    exact right
  · rw [AList.lookup_insert_ne same] at there
    exact room i unit there

theorem held_put (counted : c.bytes = c.held)
    (unheld : c.units.lookup idx = none) (data : Bytes) :
    (c.put idx data).bytes = (c.put idx data).held := by
  have room : (makeRoom data.length c.order.keys.length c).bytes =
      (makeRoom data.length c.order.keys.length c).held :=
    makeRoom_induct (motive := fun c => c.bytes = c.held) _
      (fun c oldest i counted _ => held_evict counted oldest i) _ counted
  have absent := unheld_makeRoom data.length c.order.keys.length unheld
  rw [put_unheld unheld]
  show (makeRoom _ _ c).bytes + data.length = weight _ (AList.insert idx _ _)
  rw [weight_insert, erase_of_absent absent, room, Nat.add_comm]
  rfl

/-! ### The order of use -/

/-- The order mirrors the units, and the next tick is a new one. -/
structure Ordered (c : Cache) : Prop where
  mirrors : c.Mirrors
  timely : c.Timely

theorem ordered_new (cap : Nat) : (new cap).Ordered where
  mirrors := mirrored_empty
  timely := by
    intro t idx there
    cases there

theorem Timely.fresh (timely : c.Timely) {t : Nat} (ahead : c.tick < t) :
    c.order.lookup t = none := by
  cases there : c.order.lookup t with
  | none => rfl
  | some idx =>
      have behind := timely t idx there
      omega

theorem saturatingAdd_one {n : Nat} (room : n < u64Max) :
    saturatingAdd n 1 = n + 1 :=
  Nat.min_eq_right room

theorem Timely.insert {order : Table Nat Nat} {tick idx : Nat}
    (timely : ∀ t i, order.lookup t = some i → t ≤ tick) :
    ∀ t i, (order.insert (tick + 1) idx).lookup t = some i → t ≤ tick + 1 := by
  intro t i there
  by_cases same : t = tick + 1
  · exact same.le
  · rw [AList.lookup_insert_ne same] at there
    exact Nat.le_succ_of_le (timely t i there)

theorem Ordered.touch (ordered : c.Ordered) (room : c.tick < u64Max) (idx : Nat) :
    (c.touch idx).2.Ordered ∧ (c.touch idx).2.tick ≤ c.tick + 1 := by
  unfold Cache.touch
  split
  · exact ⟨ordered, Nat.le_succ _⟩
  · rename_i unit found
    rw [saturatingAdd_one room]
    have fresh := ordered.timely.fresh (Nat.lt_succ_self c.tick)
    refine ⟨⟨?_, ?_⟩, Nat.le_refl _⟩
    · exact ordered.mirrors.restamp (y := { unit with used := c.tick + 1 }) found
        fresh
    · apply Timely.insert
      intro t i there
      by_cases same : t = unit.used
      · subst same
        simp at there
      · rw [AList.lookup_erase_ne same] at there
        exact ordered.timely t i there

theorem Ordered.put (ordered : c.Ordered) (room : c.tick < u64Max)
    (unheld : c.units.lookup idx = none) (data : Bytes) :
    (c.put idx data).Ordered ∧ (c.put idx data).tick = c.tick + 1 := by
  have roomy : (makeRoom data.length c.order.keys.length c).Ordered :=
    makeRoom_induct (motive := Ordered) _
      (fun c oldest i ordered found =>
        ⟨ordered.mirrors.evict found, ordered.timely.evict oldest i⟩) _ ordered
  have absent := unheld_makeRoom data.length c.order.keys.length unheld
  have still := tick_makeRoom data.length c.order.keys.length c
  rw [put_unheld unheld]
  dsimp only
  rw [still, saturatingAdd_one room]
  have fresh := roomy.timely.fresh
    (by rw [still]; exact Nat.lt_succ_self c.tick : _ < c.tick + 1)
  refine ⟨⟨?_, ?_⟩, rfl⟩
  · exact roomy.mirrors.add (x := ⟨data, c.tick + 1⟩) absent fresh
  · have timely := roomy.timely
    unfold Timely at timely
    rw [still] at timely
    exact Timely.insert timely

end Cache

end Exav.Unpack.Virtual
