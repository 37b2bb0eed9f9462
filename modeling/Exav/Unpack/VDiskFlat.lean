import Exav.Unpack.VDisk
import Mathlib.Data.Finset.Card

/-!
# The flat disk

The flat disk has at each position the byte its map describes.  Every run of
seeks and reads leaves a disk that reads as the flat one, whichever units are
cached by then.  A run of more reads than there are ticks may lose track of the
order its units were used in.
-/

namespace Exav.Unpack.Virtual

open Exav.Mirror

variable (src : Image) (layout : Layout)

/-- The byte at `into` of a unit. -/
def unitByte (idx into : Nat) : UInt8 :=
  match layout.map idx with
  | .zero => 0
  | .plain start => byteAt src.data (start + into)
  | .packed start stored cut =>
      byteAt (layout.unpack idx start stored cut (unitLen layout idx)).data into

/-- The byte at a position of the disk the map describes: zero in a unit that is
not stored, and past what a packed unit decodes to. -/
def flat (pos : Nat) : UInt8 :=
  let unit := max layout.unit 1
  unitByte src layout (pos / unit) (pos % unit)

/-! ## What is kept -/

def DecodesTo (idx : Nat) (data : Bytes) : Prop :=
  ∃ start stored cut, layout.map idx = .packed start stored cut ∧
    data = (layout.unpack idx start stored cut (unitLen layout idx)).data

structure Sound (allowance : Nat) (d : VDisk) : Prop where
  looked : ∀ idx m, d.last = some (idx, m) → m = layout.map idx
  holds : d.cache.Holds (DecodesTo layout)
  counted : d.cache.bytes = d.cache.held
  limited : d.health.allowance = allowance
  allowed : d.health.decoded ≤ allowance
  inside : d.pos ≤ u64Max

theorem sound_new (allowance : Nat) : Sound layout allowance (new allowance) where
  looked := by
    intro idx m looked
    cases looked
  holds := by
    intro idx unit there
    cases there
  counted := rfl
  limited := rfl
  allowed := Nat.zero_le _
  inside := Nat.zero_le _

/-- Reading in a unit leaves the position, and takes a tick at most. -/
structure Keeps (allowance : Nat) (d d' : VDisk) : Prop where
  sound : Sound layout allowance d'
  pos : d'.pos = d.pos
  ordered : d.cache.Ordered → d.cache.tick < u64Max →
    d'.cache.Ordered ∧ d'.cache.tick ≤ d.cache.tick + 1

variable {src layout} {allowance : Nat} {d : VDisk}

theorem lookup_eq (sound : Sound layout allowance d) (idx : Nat) :
    ∃ last, lookup layout d idx = (layout.map idx, { d with last := last }) ∧
      ∀ i m, last = some (i, m) → m = layout.map i := by
  have fresh : ∀ i m, some (idx, layout.map idx) = some (i, m) →
      m = layout.map i := by
    intro i m same
    cases same
    rfl
  unfold lookup
  split
  · rename_i i m last
    by_cases same : i = idx
    · subst same
      refine ⟨d.last, ?_, sound.looked⟩
      simp only [if_true]
      rw [sound.looked i m last]
    · exact ⟨_, by simp only [if_neg same], fresh⟩
  · exact ⟨_, rfl, fresh⟩

theorem Sound.looked_up (sound : Sound layout allowance d)
    {last : Option (Nat × Map)}
    (looked : ∀ i m, last = some (i, m) → m = layout.map i) :
    Keeps layout allowance d { d with last := last } where
  sound := ⟨looked, sound.holds, sound.counted, sound.limited, sound.allowed,
    sound.inside⟩
  pos := rfl
  ordered := fun ordered _ => ⟨ordered, Nat.le_succ _⟩

theorem Keeps.trans_last {d' : VDisk} {last : Option (Nat × Map)}
    (keeps : Keeps layout allowance { d with last := last } d') :
    Keeps layout allowance d d' :=
  ⟨keeps.sound, keeps.pos, keeps.ordered⟩

/-! ## Packed units -/

theorem charge_decoded {h : Health} (allowed : h.decoded ≤ h.allowance) (n : Nat) :
    (h.charge n).2.allowance = h.allowance ∧
      (h.charge n).2.decoded ≤ h.allowance := by
  unfold Health.charge
  dsimp only
  split
  · exact ⟨rfl, allowed⟩
  · rename_i room
    exact ⟨rfl, Nat.le_of_not_lt room⟩

theorem unpacked_spec (sound : Sound layout allowance d) {idx start stored : Nat}
    {cut : Bool} (packed : layout.map idx = .packed start stored cut)
    {result : Except IoError Bytes} {d' : VDisk}
    (read : unpacked layout d idx start stored cut (unitLen layout idx) =
      (result, d')) :
    Keeps layout allowance d d' ∧ ∀ data, result = .ok data →
      data = (layout.unpack idx start stored cut (unitLen layout idx)).data := by
  have right : DecodesTo layout idx
      (layout.unpack idx start stored cut (unitLen layout idx)).data :=
    ⟨start, stored, cut, packed, rfl⟩
  unfold unpacked at read
  dsimp only at read
  split at read
  · rename_i isHeld
    obtain ⟨unit, found, got⟩ := Cache.get_touched isHeld
    obtain ⟨start', stored', cut', packed', decoded⟩ := sound.holds idx unit found
    rw [packed] at packed'
    cases packed'
    rw [got] at read
    cases read
    refine ⟨⟨⟨sound.looked, sound.holds.touch, Cache.held_touch sound.counted,
      sound.limited, sound.allowed, sound.inside⟩, rfl, ?_⟩, ?_⟩
    · exact fun ordered room => ordered.touch room idx
    · intro data same
      cases same
      exact decoded
  · rename_i isAbsent
    obtain ⟨unheld, untouched⟩ :=
      Cache.touch_absent (Bool.eq_false_iff.mpr isAbsent)
    rw [untouched] at read
    have charged := charge_decoded (sound.limited ▸ sound.allowed)
      (unitLen layout idx)
    rw [sound.limited] at charged
    split at read
    · rw [Cache.get_put] at read
      cases read
      refine ⟨⟨⟨sound.looked, sound.holds.put unheld right,
        Cache.held_put sound.counted unheld _, charged.1, charged.2,
        sound.inside⟩, rfl, ?_⟩, ?_⟩
      · intro ordered room
        obtain ⟨after, ticked⟩ := ordered.put room unheld
          (layout.unpack idx start stored cut (unitLen layout idx)).data
        exact ⟨after, ticked.le⟩
      · intro data same
        cases same
        rfl
    · cases read
      refine ⟨⟨⟨sound.looked, sound.holds, sound.counted, charged.1, charged.2,
        sound.inside⟩, rfl, ?_⟩, ?_⟩
      · exact fun ordered _ => ⟨ordered, Nat.le_succ _⟩
      · intro data same
        cases same

/-! ## Reads -/

/-- Bytes that are so many of a unit from `into` on. -/
def Gives (src : Image) (layout : Layout) (idx into want : Nat) (bytes : Bytes) :
    Prop :=
  bytes.length = want ∧
    ∀ i < want, bytes[i]? = some (unitByte src layout idx (into + i))

theorem bytesAt_eq {off len : Nat} {bytes : Bytes}
    (read : bytesAt src off len = some bytes) :
    off + len ≤ src.data.length ∧ bytes = Exav.window src.data off len := by
  unfold bytesAt at read
  split at read
  · cases read
  · rename_i inside
    dsimp only at read
    split at read
    · rename_i whole
      cases read
      refine ⟨Nat.le_of_not_lt inside, ?_⟩
      apply (src.faithful off len).eq_of_length
      rw [whole, length_window_of_le (Nat.le_of_not_lt inside)]
    · cases read

theorem gives_plain {idx into want start : Nat} {bytes : Bytes}
    (plain : layout.map idx = .plain start) (some_want : 0 < want)
    (read : bytesAt src (saturatingAdd start into) want = some bytes) :
    Gives src layout idx into want bytes := by
  obtain ⟨fits, rfl⟩ := bytesAt_eq read
  have within := src.lenFits
  -- A sum that saturates leaves no byte behind it.
  have exact_sum : saturatingAdd start into = start + into := by
    unfold saturatingAdd at fits ⊢
    omega
  rw [exact_sum] at fits ⊢
  refine ⟨length_window_of_le fits, ?_⟩
  intro i inside
  have there : start + into + i < src.data.length := by omega
  rw [getElem?_window _ inside, List.getElem?_eq_getElem there, unitByte, plain]
  dsimp only
  rw [byteAt_eq, ← Nat.add_assoc, List.getElem?_eq_getElem there]
  rfl

theorem gives_packed {idx into want start stored : Nat} {cut : Bool}
    {data : Bytes} (packed : layout.map idx = .packed start stored cut)
    (decoded : data =
      (layout.unpack idx start stored cut (unitLen layout idx)).data) :
    Gives src layout idx into want
      (Exav.window data into want ++
        List.replicate (want - (Exav.window data into want).length) 0) := by
  have short : (Exav.window data into want).length ≤ want := by
    rw [length_window]
    exact Nat.min_le_left _ _
  constructor
  · rw [List.length_append, List.length_replicate]
    omega
  · intro i inside
    rw [unitByte, packed]
    dsimp only
    rw [← decoded, byteAt_eq]
    by_cases here : i < (Exav.window data into want).length
    · have there : into + i < data.length := by
        rw [length_window] at here
        omega
      rw [List.getElem?_append_left here, getElem?_window _ inside,
        List.getElem?_eq_getElem there]
      rfl
    · have past : data.length ≤ into + i := by
        rw [length_window] at here
        omega
      rw [List.getElem?_append_right (Nat.le_of_not_lt here),
        List.getElem?_replicate, if_pos (by omega), List.getElem?_eq_none past]
      rfl

theorem readUnit_spec (sound : Sound layout allowance d) {idx into want : Nat}
    (some_want : 0 < want) {result : Except IoError Bytes} {d' : VDisk}
    (read : readUnit src layout d idx into want = (result, d')) :
    Keeps layout allowance d d' ∧ ∀ bytes, result = .ok bytes →
      Gives src layout idx into want bytes := by
  obtain ⟨last, looked, right⟩ := lookup_eq sound idx
  have keeps := sound.looked_up right
  rw [readUnit, looked] at read
  cases place : layout.map idx with
  | zero =>
      rw [place] at read
      cases read
      refine ⟨keeps, ?_⟩
      intro bytes same
      cases same
      refine ⟨List.length_replicate, ?_⟩
      intro i inside
      rw [List.getElem?_replicate, if_pos inside, unitByte, place]
  | plain start =>
      rw [place] at read
      dsimp only at read
      split at read
      · rename_i w whole
        cases read
        refine ⟨keeps, ?_⟩
        intro bytes same
        cases same
        exact gives_plain place some_want whole
      · cases read
        refine ⟨keeps, ?_⟩
        intro bytes same
        cases same
  | packed start stored cut =>
      rw [place] at read
      dsimp only at read
      split at read
      all_goals
        rename_i unit
        obtain ⟨unpacked_keeps, decoded⟩ :=
          unpacked_spec keeps.sound place unit
        cases read
        refine ⟨unpacked_keeps.trans_last, ?_⟩
        intro bytes same
        cases same
      exact gives_packed place (decoded _ rfl)

theorem unitLen_le (idx : Nat) : unitLen layout idx ≤ max layout.unit 1 :=
  Nat.min_le_left _ _

theorem inside_unit {pos : Nat} (on_disk : pos < layout.size) :
    pos % max layout.unit 1 < unitLen layout (pos / max layout.unit 1) ∧
      pos - pos % max layout.unit 1 + unitLen layout (pos / max layout.unit 1) ≤
        layout.size := by
  have fits := layout.sizeFits
  have positive : 0 < max layout.unit 1 := by omega
  have below := Nat.mod_lt pos positive
  have parts := Nat.div_add_mod' pos (max layout.unit 1)
  unfold unitLen saturatingMul
  dsimp only
  generalize pos / max layout.unit 1 * max layout.unit 1 = front at *
  have exact_product : min u64Max front = front := by omega
  omega

/-- What a read is to give: bytes of the flat disk from the position on, which it
then has passed. -/
structure Reads (src : Image) (layout : Layout) (d : VDisk) (len : Nat) : Prop where
  given : ∀ bytes d', read src layout d len = (.ok bytes, d') →
    bytes.length ≤ len ∧ d'.pos = d.pos + bytes.length ∧
      (bytes = [] → len = 0 ∨ layout.size ≤ d.pos) ∧
      (bytes ≠ [] → d.pos + bytes.length ≤ layout.size) ∧
      ∀ i < bytes.length, bytes[i]? = some (flat src layout (d.pos + i))
  failed : ∀ e d', read src layout d len = (.error e, d') → d'.pos = d.pos

structure Seeks (layout : Layout) (d : VDisk) (target : SeekFrom) : Prop where
  given : ∀ pos d', seek layout d target = (.ok pos, d') → d'.pos = pos
  failed : ∀ e d', seek layout d target = (.error e, d') → d'.pos = d.pos

theorem read_spec (sound : Sound layout allowance d) {len : Nat}
    (some_len : len ≠ 0) (on_disk : d.pos < layout.size)
    {result : Except IoError Bytes} {d' : VDisk}
    (ran : read src layout d len = (result, d')) :
    ∃ d₁, Keeps layout allowance d d₁ ∧
      match result with
      | .error _ => d' = d₁
      | .ok bytes =>
          d' = { d₁ with pos := d.pos + bytes.length } ∧ bytes ≠ [] ∧
            bytes.length ≤ len ∧ d.pos + bytes.length ≤ layout.size ∧
            ∀ i < bytes.length,
              bytes[i]? = some (flat src layout (d.pos + i)) := by
  obtain ⟨in_unit, up_to⟩ := inside_unit on_disk
  have rounding := Nat.mod_le d.pos (max layout.unit 1)
  have some_want : 0 < min (unitLen layout (d.pos / max layout.unit 1) -
      d.pos % max layout.unit 1) len := by
    omega
  have open_read : ¬ (len = 0 ∨ layout.size ≤ d.pos) := by omega
  rw [read, if_neg open_read] at ran
  dsimp only at ran
  split at ran
  · rename_i e d₁ unit
    cases ran
    exact ⟨_, (readUnit_spec sound some_want unit).1, rfl⟩
  · rename_i bytes d₁ unit
    obtain ⟨keeps, gives⟩ := readUnit_spec sound some_want unit
    obtain ⟨length, right⟩ := gives bytes rfl
    cases ran
    have whole := layout.sizeFits
    have sum : saturatingAdd d₁.pos (min (unitLen layout
        (d.pos / max layout.unit 1) - d.pos % max layout.unit 1) len) =
        d.pos + bytes.length := by
      rw [keeps.pos, length]
      unfold saturatingAdd
      omega
    refine ⟨d₁, keeps, by rw [sum], ?_, by omega, by omega, ?_⟩
    · rw [← List.length_pos_iff, length]
      exact some_want
    · intro i inside
      rw [length] at inside
      rw [right i inside]
      -- The whole read stays in its unit.
      have below : d.pos % max layout.unit 1 + i < max layout.unit 1 := by
        have most : unitLen layout (d.pos / max layout.unit 1) ≤ _ :=
          unitLen_le _
        omega
      have parts := Nat.div_add_mod' d.pos (max layout.unit 1)
      have there : d.pos + i = d.pos % max layout.unit 1 + i +
          max layout.unit 1 * (d.pos / max layout.unit 1) := by
        rw [Nat.mul_comm]
        omega
      rw [flat]
      rw [there, Nat.add_mul_mod_self_left, Nat.mod_eq_of_lt below,
        Nat.add_mul_div_left _ _ (by omega), Nat.div_eq_of_lt below, Nat.zero_add]

theorem reads_of_sound (sound : Sound layout allowance d) (len : Nat) :
    Reads src layout d len := by
  by_cases idle : len = 0 ∨ layout.size ≤ d.pos
  · have ran : read src layout d len = (.ok [], d) := if_pos idle
    constructor
    · intro bytes d' same
      rw [ran] at same
      cases same
      exact ⟨Nat.zero_le _, rfl, fun _ => idle, fun some_bytes => absurd rfl
        some_bytes, fun i inside => absurd inside (Nat.not_lt_zero i)⟩
    · intro e d' same
      rw [ran] at same
      cases same
  · constructor
    · intro bytes d' ran
      obtain ⟨d₁, keeps, rfl, some_bytes, short, inside, right⟩ :=
        read_spec sound (by omega) (by omega) ran
      exact ⟨short, rfl, fun none => absurd none some_bytes, fun _ => inside,
        right⟩
    · intro e d' ran
      obtain ⟨d₁, keeps, rfl⟩ := read_spec sound (by omega) (by omega) ran
      exact keeps.pos

theorem seeks (target : SeekFrom) : Seeks layout d target := by
  constructor
  · intro pos d' ran
    unfold seek at ran
    dsimp only at ran
    split at ran
    · cases ran
    · cases ran
      rfl
  · intro e d' ran
    unfold seek at ran
    dsimp only at ran
    split at ran
    · cases ran
      rfl
    · cases ran

/-! ## Runs -/

def readsOf (ops : List Op) : Nat :=
  ops.countP fun op => match op with
    | .read _ => true
    | .seek _ => false

theorem sound_read (sound : Sound layout allowance d) (len : Nat) :
    Sound layout allowance (read src layout d len).2 ∧
      (d.cache.Ordered → d.cache.tick < u64Max →
        (read src layout d len).2.cache.Ordered ∧
          (read src layout d len).2.cache.tick ≤ d.cache.tick + 1) := by
  by_cases idle : len = 0 ∨ layout.size ≤ d.pos
  · have ran : read src layout d len = (.ok [], d) := if_pos idle
    rw [ran]
    exact ⟨sound, fun ordered _ => ⟨ordered, Nat.le_succ _⟩⟩
  · cases ran : read src layout d len with
    | mk result d' =>
        obtain ⟨d₁, keeps, spec⟩ := read_spec sound (by omega) (by omega) ran
        have kept := keeps.sound
        have whole := layout.sizeFits
        cases result with
        | error e =>
            subst spec
            exact ⟨kept, keeps.ordered⟩
        | ok bytes =>
            obtain ⟨rfl, -, -, inside, -⟩ := spec
            exact ⟨⟨kept.looked, kept.holds, kept.counted, kept.limited,
              kept.allowed, by show d.pos + bytes.length ≤ _; omega⟩,
              keeps.ordered⟩

theorem checkedAddSigned_le {pos : Nat} {d : Int} {result : Nat}
    (added : checkedAddSigned pos d = some result) : result ≤ u64Max := by
  unfold checkedAddSigned at added
  split at added
  · cases added
    omega
  · cases added

theorem sound_seek (sound : Sound layout allowance d) (target : SeekFrom) :
    Sound layout allowance (seek layout d target).2 ∧
      (seek layout d target).2.cache = d.cache := by
  unfold seek
  dsimp only
  split
  · exact ⟨sound, rfl⟩
  · rename_i pos found
    refine ⟨⟨sound.looked, sound.holds, sound.counted, sound.limited,
      sound.allowed, ?_⟩, rfl⟩
    show pos ≤ u64Max
    cases target with
    | start p =>
        cases found
        have small : p.toNat < 2 ^ 64 := p.toNat_lt
        unfold u64Max
        omega
    | fromEnd distance => exact checkedAddSigned_le found
    | current distance => exact checkedAddSigned_le found

/-- What a run keeps: the disk is sound, and its order of use mirrors its cache
for as many reads as there are ticks. -/
theorem run_keeps (sound : Sound layout allowance d) (ops : List Op) :
    Sound layout allowance (run src layout d ops) ∧
      (d.cache.Ordered → d.cache.tick + readsOf ops ≤ u64Max →
        (run src layout d ops).cache.Ordered) := by
  induction ops generalizing d with
  | nil => exact ⟨sound, fun ordered _ => ordered⟩
  | cons op ops ih =>
      cases op with
      | read len =>
          obtain ⟨next, ordering⟩ := @sound_read src _ _ _ sound len
          obtain ⟨final, rest⟩ := ih next
          refine ⟨final, ?_⟩
          intro ordered room
          have one : readsOf (.read len :: ops) = readsOf ops + 1 :=
            List.countP_cons_of_pos rfl
          rw [one] at room
          obtain ⟨ordered', ticked⟩ := ordering ordered (by omega)
          exact rest ordered' (by omega)
      | seek target =>
          obtain ⟨next, same⟩ := sound_seek sound target
          obtain ⟨final, rest⟩ := ih next
          refine ⟨final, ?_⟩
          intro ordered room
          rw [same] at rest
          exact rest ordered room

/-- What holds of a disk whatever was read of it before. -/
structure AsFlat (src : Image) (layout : Layout) (allowance : Nat) (d : VDisk) :
    Prop where
  reads : ∀ len, Reads src layout d len
  seeks : ∀ target, Seeks layout d target
  allowed : d.health.decoded ≤ allowance
  counted : d.cache.bytes = d.cache.held

/-- Every run leaves a disk that reads as the flat one, within its allowance and
with its cache counted; the order of use mirrors the cache as long as no more
reads were made than there are ticks. -/
theorem run_asFlat (src : Image) (layout : Layout) (allowance : Nat)
    (ops : List Op) :
    AsFlat src layout allowance (run src layout (new allowance) ops) ∧
      (readsOf ops ≤ u64Max →
        (run src layout (new allowance) ops).cache.Mirrors) := by
  obtain ⟨sound, ordering⟩ :=
    @run_keeps src _ _ _ (sound_new layout allowance) ops
  refine ⟨⟨reads_of_sound sound, seeks, sound.allowed, sound.counted⟩, ?_⟩
  intro few
  have none_yet : (new allowance).cache.tick = 0 := rfl
  exact (ordering (Cache.ordered_new cacheBytes) (by omega)).mirrors

/-! ## What reads of a disk tell of its units -/

/-- A unit in which decoding it finds a fault. -/
def Faulty (layout : Layout) (idx : Nat) : Prop :=
  ∃ start stored cut, layout.map idx = .packed start stored cut ∧
    (layout.unpack idx start stored cut (unitLen layout idx)).damaged = true

structure Tells (layout : Layout) (told : Finset Nat) (d : VDisk) : Prop where
  held : d.cache.Holds fun idx _ => Faulty layout idx → idx ∈ told
  counted : min told.card u64Max ≤ d.health.undecodable

/-- The units that reads of a run gave bytes of. -/
def reached (src : Image) (layout : Layout) : VDisk → List Op → List Nat
  | _, [] => []
  | d, .seek target :: ops => reached src layout (seek layout d target).2 ops
  | d, .read len :: ops =>
      match read src layout d len with
      | (.ok (_ :: _), next) =>
          d.pos / max layout.unit 1 :: reached src layout next ops
      | (_, next) => reached src layout next ops

theorem charge_undecodable (h : Health) (n : Nat) :
    (h.charge n).2.undecodable = h.undecodable := by
  rw [Health.charge]
  split_ifs <;> rfl

theorem Tells.unpacked {told : Finset Nat} (tells : Tells layout told d)
    {idx start stored : Nat} {cut : Bool}
    (packed : layout.map idx = .packed start stored cut)
    {result : Except IoError Bytes} {d' : VDisk}
    (read : unpacked layout d idx start stored cut (unitLen layout idx) =
      (result, d')) :
    ∃ told', told ⊆ told' ∧ Tells layout told' d' ∧
      ∀ data, result = .ok data → Faulty layout idx → idx ∈ told' := by
  unfold Virtual.unpacked at read
  dsimp only at read
  split at read
  · rename_i isHeld
    obtain ⟨unit, found, -⟩ := Cache.get_touched isHeld
    cases read
    exact ⟨told, Finset.Subset.refl _, ⟨tells.held.touch, tells.counted⟩,
      fun _ _ => tells.held idx unit found⟩
  · rename_i isAbsent
    obtain ⟨unheld, untouched⟩ :=
      Cache.touch_absent (Bool.eq_false_iff.mpr isAbsent)
    rw [untouched] at read
    have same := charge_undecodable d.health (unitLen layout idx)
    split at read
    · cases read
      by_cases faulty : Faulty layout idx
      · have held : d.cache.Holds fun i _ =>
            Faulty layout i → i ∈ insert idx told := fun i unit there bad =>
          Finset.mem_insert_of_mem (tells.held i unit there bad)
        refine ⟨insert idx told, Finset.subset_insert _ _, ⟨held.put unheld fun _ =>
          Finset.mem_insert_self _ _, ?_⟩, fun _ _ _ => Finset.mem_insert_self _ _⟩
        obtain ⟨start', stored', cut', packed', damaged⟩ := faulty
        cases packed.symm.trans packed'
        have more := Finset.card_insert_le idx told
        have counted := tells.counted
        simp only [Health.note, damaged, if_true, saturatingAdd, same]
        omega
      · refine ⟨told, Finset.Subset.refl _, ⟨tells.held.put unheld fun bad =>
          absurd bad faulty, ?_⟩, fun _ _ bad => absurd bad faulty⟩
        have counted := tells.counted
        simp only [Health.note, saturatingAdd, same]
        split_ifs <;> omega
    · cases read
      exact ⟨told, Finset.Subset.refl _, ⟨tells.held, tells.counted.trans same.ge⟩,
        fun data none_ => by cases none_⟩

theorem Tells.readUnit {told : Finset Nat} (tells : Tells layout told d)
    (sound : Sound layout allowance d) {idx into want : Nat}
    {result : Except IoError Bytes} {d' : VDisk}
    (read : readUnit src layout d idx into want = (result, d')) :
    ∃ told', told ⊆ told' ∧ Tells layout told' d' ∧
      ∀ bytes, result = .ok bytes → Faulty layout idx → idx ∈ told' := by
  obtain ⟨last, looked, -⟩ := lookup_eq sound idx
  have still : Tells layout told { d with last := last } := ⟨tells.held, tells.counted⟩
  have stored : (∀ start stored cut, layout.map idx ≠ .packed start stored cut) →
      ¬Faulty layout idx := fun other ⟨start, stored, cut, packed, _⟩ =>
    other start stored cut packed
  rw [Virtual.readUnit, looked] at read
  cases place : layout.map idx with
  | zero =>
      rw [place] at read
      cases read
      exact ⟨told, Finset.Subset.refl _, still, fun _ _ bad =>
        absurd bad (stored fun _ _ _ => by simp [place])⟩
  | plain start =>
      rw [place] at read
      dsimp only at read
      split at read <;> cases read <;> exact ⟨told, Finset.Subset.refl _, still,
        fun _ _ bad => absurd bad (stored fun _ _ _ => by simp [place])⟩
  | packed start stored cut =>
      rw [place] at read
      dsimp only at read
      cases unit : Virtual.unpacked layout { d with last := last } idx start stored cut
          (unitLen layout idx) with
      | mk decoded next =>
          obtain ⟨told', more, after, given⟩ := still.unpacked place unit
          rw [unit] at read
          cases decoded with
          | error e =>
              cases read
              exact ⟨told', more, after, fun _ none_ => by cases none_⟩
          | ok data =>
              cases read
              exact ⟨told', more, after, fun _ _ => given data rfl⟩

theorem Tells.read {told : Finset Nat} (tells : Tells layout told d)
    (sound : Sound layout allowance d) (len : Nat) :
    ∃ told', told ⊆ told' ∧ Tells layout told' (read src layout d len).2 ∧
      ∀ b bytes, (Virtual.read src layout d len).1 = .ok (b :: bytes) →
        Faulty layout (d.pos / max layout.unit 1) →
        d.pos / max layout.unit 1 ∈ told' := by
  rw [Virtual.read]
  split_ifs with idle
  · exact ⟨told, Finset.Subset.refl _, tells, fun _ _ none_ => by cases none_⟩
  · dsimp only
    generalize ran : Virtual.readUnit src layout d (d.pos / max layout.unit 1)
      (d.pos % max layout.unit 1) _ = outcome
    obtain ⟨result, next⟩ := outcome
    obtain ⟨told', more, after, given⟩ := tells.readUnit sound ran
    cases result with
    | error e => exact ⟨told', more, after, fun _ _ none_ => by cases none_⟩
    | ok bytes =>
        exact ⟨told', more, ⟨after.held, after.counted⟩, fun _ _ _ => given bytes rfl⟩

theorem Tells.run {told : Finset Nat} (tells : Tells layout told d)
    (sound : Sound layout allowance d) (ops : List Op) :
    ∃ told', told ⊆ told' ∧ Tells layout told' (run src layout d ops) ∧
      ∀ idx ∈ reached src layout d ops, Faulty layout idx → idx ∈ told' := by
  induction ops generalizing told d with
  | nil => exact ⟨told, Finset.Subset.refl _, tells, fun idx none_ => by cases none_⟩
  | cons op ops ih =>
      cases op with
      | seek target =>
          obtain ⟨next, same⟩ := sound_seek sound target
          have health : (seek layout d target).2.health = d.health := by
            unfold seek
            dsimp only
            split <;> rfl
          exact ih (d := (seek layout d target).2)
            ⟨same ▸ tells.held, health ▸ tells.counted⟩ next
      | read len =>
          obtain ⟨told', more, after, given⟩ := @Tells.read src _ _ _ _ tells sound len
          obtain ⟨told'', more', final, rest⟩ :=
            ih after (@sound_read src _ _ _ sound len).1
          refine ⟨told'', more.trans more', final, fun idx member faulty => ?_⟩
          rw [reached] at member
          cases ran : Virtual.read src layout d len with
          | mk result next =>
              rw [ran] at given member rest
              match result, given, member with
              | .error e, _, later => exact rest idx later faulty
              | .ok [], _, later => exact rest idx later faulty
              | .ok (b :: bytes), here, member =>
                  rcases List.mem_cons.mp member with rfl | later
                  · exact more' (here b bytes rfl faulty)
                  · exact rest idx later faulty

/-! ## Out of ticks -/

def blank : Image where
  data := []
  window := fun _ _ => []
  readError := fun _ _ => none
  faithful := fun _ _ => List.nil_prefix
  lenFits := Nat.zero_le _

def twoUnits : Layout where
  size := 2
  unit := 1
  map := fun _ => .packed 0 0 false
  unpack := fun _ _ _ _ _ => ⟨[0], false⟩
  sizeFits := by decide

/-- The first unit read once more. -/
def again : List Op := [.seek (.start 0), .read 1]

/-- A read of a whole unit, after a lookup that found the first one. -/
theorem read_unit {d : VDisk} {idx : Nat} (here : d.pos = idx)
    (on_disk : idx < 2) (looked : d.last = some (0, .packed 0 0 false)) :
    (read blank twoUnits d 1).2 =
      match unpacked twoUnits { d with last := some (idx, .packed 0 0 false) }
        idx 0 0 false 1 with
      | (.error _, d) => d
      | (.ok _, d) => { d with pos := saturatingAdd d.pos 1 } := by
  subst here
  have unit : max twoUnits.unit 1 = 1 := rfl
  have size : twoUnits.size = 2 := rfl
  have whole : unitLen twoUnits d.pos = 1 := by
    rcases Nat.le_one_iff_eq_zero_or_eq_one.mp (Nat.le_of_lt_succ on_disk) with
      first | second
    · rw [first]
      decide
    · rw [second]
      decide
  have at_lookup : lookup twoUnits d d.pos =
      (.packed 0 0 false, { d with last := some (d.pos, .packed 0 0 false) }) := by
    unfold lookup
    rw [looked]
    dsimp only
    split
    · rename_i same
      obtain ⟨pos, health, cache, last⟩ := d
      cases same
      cases looked
      rfl
    · rfl
  rw [read, if_neg (by omega)]
  simp only [unit, Nat.div_one, Nat.mod_one, whole, Nat.sub_zero,
    Nat.min_self, readUnit, at_lookup]
  cases unpacked twoUnits { d with last := some (d.pos, .packed 0 0 false) }
    d.pos 0 0 false 1 with
  | mk result d' => cases result <;> rfl

/-- A disk whose first unit alone has been read, `n` times. -/
structure FirstRead (n : Nat) (d : VDisk) : Prop where
  pos : d.pos = 1
  health : d.health.decoded = 1 ∧ d.health.allowance = 2
  units : d.cache.units = AList.singleton 0 ⟨[0], n⟩
  rest : d.cache.bytes = 1 ∧ d.cache.tick = n ∧ d.cache.cap = cacheBytes
  last : d.last = some (0, .packed 0 0 false)

theorem firstRead_once : FirstRead 1 (run blank twoUnits (new 2) again) := by
  constructor <;> repeat' constructor

theorem lookup_first (unit : Held) :
    (AList.singleton (β := fun _ => Held) 0 unit).lookup 0 = some unit := rfl

theorem firstRead_again {n : Nat} {d : VDisk} (first : FirstRead n d)
    (room : n < u64Max) :
    FirstRead (n + 1) (run blank twoUnits d again) := by
  obtain ⟨at_one, ⟨decoded, allowed⟩, one_unit, ⟨counted, ticked, capped⟩,
    looked⟩ := first
  have used : (d.cache.touch 0) = (true, ⟨AList.singleton 0 ⟨[0], n + 1⟩,
      (d.cache.order.erase n).insert (n + 1) 0, 1, n + 1, cacheBytes⟩) := by
    unfold Cache.touch
    rw [one_unit, lookup_first]
    dsimp only
    rw [ticked, counted, capped, Cache.saturatingAdd_one room]
    rfl
  have one : saturatingAdd 0 1 = 1 := by decide
  show FirstRead (n + 1) (read blank twoUnits { d with pos := 0 } 1).2
  rw [read_unit (d := { d with pos := 0 }) rfl Nat.zero_lt_two looked]
  simp only [unpacked, used, if_true, one]
  exact ⟨rfl, ⟨decoded, allowed⟩, rfl, ⟨rfl, rfl, rfl⟩, rfl⟩

theorem firstRead_rounds (rounds : Nat) (room : rounds < u64Max) :
    FirstRead (rounds + 1) (run blank twoUnits (new 2)
      (List.replicate (rounds + 1) again).flatten) := by
  induction rounds with
  | zero => exact firstRead_once
  | succ rounds ih =>
      have next := firstRead_again (ih (by omega)) room
      rw [List.replicate_succ', List.flatten_append, run, List.foldl_append,
        List.flatten_singleton]
      exact next

theorem not_mirrors_second {d : VDisk} (first : FirstRead u64Max d) :
    ¬ (run blank twoUnits d [.read 1]).cache.Mirrors := by
  obtain ⟨at_one, ⟨decoded, allowed⟩, one_unit, ⟨counted, ticked, capped⟩,
    looked⟩ := first
  have charged : d.health.charge 1 = (true, { d.health with decoded := 2 }) := by
    simp [Health.charge, decoded, allowed, saturatingAdd, u64Max]
  have unheld : d.cache.units.lookup 1 = none := by
    rw [one_unit]
    rfl
  have untouched : d.cache.touch 1 = (false, d.cache) := by
    unfold Cache.touch
    rw [unheld]
  have room : Cache.makeRoom 1 d.cache.order.keys.length d.cache = d.cache := by
    unfold Cache.makeRoom
    split
    · rfl
    · rw [if_pos (by rw [counted, capped]; decide)]
  have last_tick : saturatingAdd d.cache.tick 1 = u64Max := by
    rw [ticked]
    decide
  have after : (run blank twoUnits d [.read 1]).cache = d.cache.put 1 [0] := by
    show (read blank twoUnits d 1).2.cache = _
    rw [read_unit at_one (by decide) looked]
    simp only [unpacked, untouched, charged, if_true]
    rfl
  intro mirrors
  rw [after, Cache.put_unheld unheld] at mirrors
  dsimp only [List.length_singleton] at mirrors
  rw [room, last_tick, one_unit] at mirrors
  have first_held : (d.cache.order.insert u64Max 1).lookup u64Max = some 0 :=
    (mirrors u64Max 0).mpr ⟨⟨[0], u64Max⟩, rfl, rfl⟩
  rw [AList.lookup_insert] at first_held
  cases first_held

/-- After as many reads as there are ticks, two units have the last one. -/
theorem not_mirrors_outOfTicks :
    ¬ (run blank twoUnits (new 2)
      ((List.replicate u64Max again).flatten ++ [.read 1])).cache.Mirrors := by
  rw [run, List.foldl_append]
  have first : FirstRead u64Max _ := firstRead_rounds (u64Max - 1) (by decide)
  exact not_mirrors_second first

end Exav.Unpack.Virtual
