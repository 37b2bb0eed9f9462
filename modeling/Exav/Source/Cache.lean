import Exav.Bytes

/-!
# Blocks of a source, held

A seekable source is read in blocks of one size, and the least recently used
block goes when there are too many.  `Sound` is what holds of the blocks held
over a source that delivers its bytes, whichever of them have gone.
-/

namespace Exav.Source

/-! ## The source -/

/-- What one read of the source gives; none is left at its end. -/
inductive Reply where
  | bytes (first : UInt8) (more : Bytes)
  | interrupted
  | failed (why : String)
  deriving DecidableEq

def Reply.delivered : Reply → Bytes
  | .bytes first more => first :: more
  | _ => []

/-- Read until `want` bytes are there or the source ends. -/
def readFull : Nat → List Reply → Except String Bytes
  | 0, _ => .ok []
  | _ + 1, [] => .ok []
  | want + 1, .interrupted :: replies => readFull (want + 1) replies
  | _ + 1, .failed why :: _ => .error why
  | want + 1, .bytes first more :: replies => do
      let rest ← readFull (want - more.length) replies
      return first :: (more.take want ++ rest)

/-- A seekable source: what the reads give after a seek, by the tick of the
seek and the offset sought. -/
abbrev Seekable := Nat → Nat → Except String (List Reply)

/-- The source delivers `data`: every seek succeeds, no read fails, and the
bytes read are those from the offset on, in pieces of any size. -/
def Delivers (src : Seekable) (data : Bytes) : Prop :=
  ∀ tick start, ∃ replies, src tick start = .ok replies ∧
    (∀ why, .failed why ∉ replies) ∧
    replies.flatMap Reply.delivered = data.drop start

theorem readFull_delivered {want : Nat} {replies : List Reply}
    (unfailing : ∀ why, .failed why ∉ replies) :
    readFull want replies =
      .ok ((replies.flatMap Reply.delivered).take want) := by
  induction replies generalizing want with
  | nil =>
      cases want with
      | zero => rfl
      | succ want => rfl
  | cons reply replies ih =>
      have later : ∀ why, .failed why ∉ replies :=
        fun why member => unfailing why (.tail _ member)
      cases want with
      | zero => rfl
      | succ want =>
          cases reply with
          | interrupted =>
              rw [readFull, ih later]
              rfl
          | failed why => exact absurd List.mem_cons_self (unfailing why)
          | bytes first more =>
              rw [readFull, ih later]
              simp [Reply.delivered, List.take_append, pure, bind,
                Except.pure, Except.bind]

/-! ## The cache -/

/-- A block held, and the tick it was last used at. -/
structure Block where
  idx : Nat
  data : Bytes
  used : Nat
  deriving DecidableEq

/-- A source read through fixed blocks. -/
structure BlockCache where
  src : Seekable
  len : Nat
  block : Nat
  maxBlocks : Nat
  positive : 0 < block

structure Holding where
  blocks : List Block
  tick : Nat
  error : Option String
  deriving DecidableEq

def Holding.empty : Holding := ⟨[], 0, none⟩

def leastUsed : List Block → Option Block
  | [] => none
  | b :: blocks =>
      match leastUsed blocks with
      | none => some b
      | some other => some (if other.used < b.used then other else b)

namespace BlockCache

def withSizes (src : Seekable) (len block capacity : Nat) : BlockCache where
  src := src
  len := len
  block := max block 1
  maxBlocks := max (capacity / max block 1) 2
  positive := Nat.lt_of_lt_of_le Nat.one_pos (Nat.le_max_right _ _)

/-- The bytes `skip..skip + want` of a block, and whether they are all there. -/
def cutBlock (data : Bytes) (skip want : Nat) : Bool × Bytes :=
  let stop := min (skip + want) data.length
  (stop == skip + want, if skip < stop then window data skip (stop - skip) else [])

/-- Make room for a block. -/
def evict (c : BlockCache) (blocks : List Block) : List Block :=
  if c.maxBlocks ≤ blocks.length then
    match leastUsed blocks with
    | some old => blocks.filter (·.idx ≠ old.idx)
    | none => blocks
  else blocks

/-- Copy block `idx`'s bytes from `skip`, up to `want` bytes. -/
def copyBlock (c : BlockCache) (idx skip want : Nat) (s : Holding) :
    (Bool × Bytes) × Holding :=
  let tick := s.tick + 1
  match s.blocks.find? (·.idx = idx) with
  | some held =>
      (cutBlock held.data skip want, { s with
        tick := tick
        blocks := s.blocks.map fun b =>
          if b.idx = idx then { b with used := tick } else b })
  | none =>
      if s.error.isSome then ((false, []), { s with tick := tick })
      else
        let start := idx * c.block
        let size := min c.block (c.len - start)
        match c.src tick start >>= readFull size with
        | .ok data =>
            let error :=
              if data.length = size then none
              else some s!"the source ended at {start + data.length} of its {c.len} bytes"
            (cutBlock data skip want,
              ⟨⟨idx, data, tick⟩ :: c.evict s.blocks, tick, error⟩)
        | .error why =>
            ((false, []), { s with
              tick := tick, error := some s!"read at {start} failed: {why}" })

/-- The bytes `at..stop`, block by block. -/
def fill (c : BlockCache) (start stop : Nat) (s : Holding) : Bytes × Holding :=
  if start < stop then
    let idx := start / c.block
    let skip := start - idx * c.block
    let want := min (c.block - skip) (stop - start)
    let copied := c.copyBlock idx skip want s
    if copied.1.1 then
      let rest := c.fill (start + want) stop copied.2
      (copied.1.2 ++ rest.1, rest.2)
    else (copied.1.2, copied.2)
  else ([], s)
  termination_by stop - start
  decreasing_by
    have inside := Nat.mod_lt start c.positive
    have split := Nat.div_add_mod' start c.block
    omega

def window (c : BlockCache) (off len : Nat) (s : Holding) : Bytes × Holding :=
  let stop := min (off + len) c.len
  if stop ≤ off then ([], s) else c.fill off stop s

end BlockCache

/-! ## What is held is what the source has -/

/-- A cache over a source that delivers `data`. -/
structure Over (c : BlockCache) (data : Bytes) : Prop where
  delivers : Delivers c.src data
  len : c.len = data.length

/-- Each block held is that block of `data`, and no read has failed. -/
structure Sound (c : BlockCache) (data : Bytes) (s : Holding) : Prop where
  unfailed : s.error = none
  blocks : ∀ b ∈ s.blocks, b.data = window data (b.idx * c.block) c.block

theorem over_withSizes {src : Seekable} {data : Bytes}
    (delivers : Delivers src data) (block capacity : Nat) :
    Over (.withSizes src data.length block capacity) data :=
  ⟨delivers, rfl⟩

theorem sound_empty (c : BlockCache) (data : Bytes) :
    Sound c data Holding.empty where
  unfailed := rfl
  blocks b held := by cases held

namespace BlockCache

theorem mem_evict {c : BlockCache} {blocks : List Block} {b : Block}
    (kept : b ∈ c.evict blocks) : b ∈ blocks := by
  unfold evict at kept
  split at kept
  · split at kept
    · exact List.mem_of_mem_filter kept
    · exact kept
  · exact kept

theorem cutBlock_window {data : Bytes} {start len skip want : Nat}
    (inBlock : skip + want ≤ len)
    (inside : start + skip + want ≤ data.length) :
    cutBlock (Exav.window data start len) skip want =
      (true, Exav.window data (start + skip) want) := by
  have long : skip + want ≤ (Exav.window data start len).length := by
    rw [length_window]
    omega
  unfold cutBlock
  simp only [Nat.min_eq_left long, beq_self_eq_true]
  by_cases wanted : skip < skip + want
  · rw [if_pos wanted, Nat.add_sub_cancel_left, window_window data inBlock]
  · have nothing : want = 0 := by omega
    rw [if_neg wanted, nothing]
    simp [Exav.window]

private theorem read_block {c : BlockCache} {data : Bytes}
    (cached : Over c data) (tick idx : Nat) :
    (c.src tick (idx * c.block) >>=
        readFull (min c.block (c.len - idx * c.block))) =
      .ok (Exav.window data (idx * c.block) c.block) := by
  obtain ⟨replies, sought, unfailing, delivered⟩ :=
    cached.delivers tick (idx * c.block)
  rw [sought]
  change readFull _ replies = _
  rw [readFull_delivered unfailing, delivered, cached.len, Exav.window, ← List.length_drop,
    ← List.take_eq_take_min]

theorem copyBlock_sound {c : BlockCache} {data : Bytes} {s : Holding}
    (cached : Over c data) (sound : Sound c data s) {idx skip want : Nat}
    (inBlock : skip + want ≤ c.block)
    (inside : idx * c.block + skip + want ≤ data.length) :
    (c.copyBlock idx skip want s).1 =
        (true, Exav.window data (idx * c.block + skip) want) ∧
      Sound c data (c.copyBlock idx skip want s).2 := by
  have cut := cutBlock_window inBlock inside
  unfold copyBlock
  cases looked : s.blocks.find? (·.idx = idx) with
  | some held =>
      have member := List.mem_of_find?_eq_some looked
      have same : held.idx = idx := by
        simpa using List.find?_some looked
      have holds := sound.blocks held member
      rw [same] at holds
      refine ⟨?_, sound.unfailed, ?_⟩
      · simpa [holds] using cut
      · intro b kept
        obtain ⟨old, was, rfl⟩ := List.mem_map.mp kept
        have before := sound.blocks old was
        split
        · exact before
        · exact before
  | none =>
      simp only [sound.unfailed, Option.isSome_none, Bool.false_eq_true,
        if_false, read_block cached]
      refine ⟨cut, ?_, ?_⟩
      · rw [if_pos]
        rw [length_window, cached.len]
      · intro b kept
        rcases List.mem_cons.mp kept with rfl | older
        · rfl
        · exact sound.blocks b (mem_evict older)

theorem fill_sound {c : BlockCache} {data : Bytes} {s : Holding}
    (cached : Over c data) (sound : Sound c data s) {start stop : Nat}
    (inside : stop ≤ data.length) :
    (c.fill start stop s).1 = Exav.window data start (stop - start) ∧
      Sound c data (c.fill start stop s).2 := by
  induction left : stop - start using Nat.strong_induction_on
    generalizing start s with
  | _ size ih =>
      rw [fill]
      split
      case isTrue more =>
        have inBlock := Nat.mod_lt start c.positive
        have split := Nat.div_add_mod' start c.block
        dsimp only
        generalize taken : min (c.block - (start - start / c.block * c.block))
          (stop - start) = want
        obtain ⟨got, kept⟩ := @copyBlock_sound c data s cached sound
          (start / c.block) (start - start / c.block * c.block) want
          (by omega) (by omega)
        obtain ⟨rest, after⟩ :=
          ih (stop - (start + want)) (by omega) kept rfl
        rw [if_pos (by rw [got]), got, rest]
        refine ⟨?_, after⟩
        have here : start / c.block * c.block +
            (start - start / c.block * c.block) = start := by omega
        rw [here, window_append]
        have whole : want + (stop - (start + want)) = size := by omega
        rw [whole]
      case isFalse ended =>
        have nothing : size = 0 := by omega
        refine ⟨?_, sound⟩
        simp [Exav.window, nothing]

theorem window_sound {c : BlockCache} {data : Bytes} {s : Holding}
    (cached : Over c data) (sound : Sound c data s) (off len : Nat) :
    (c.window off len s).1 = Exav.window data off len ∧
      Sound c data (c.window off len s).2 := by
  unfold window
  dsimp only
  split
  case isTrue past =>
    refine ⟨(List.eq_nil_of_length_eq_zero ?_).symm, sound⟩
    have total := cached.len
    rw [length_window]
    omega
  case isFalse within =>
    have total := cached.len
    obtain ⟨got, kept⟩ := @fill_sound c data s cached sound off
      (min (off + len) c.len) (by omega)
    refine ⟨?_, kept⟩
    rw [got, total, Exav.window, Exav.window, List.take_eq_take_iff,
      List.length_drop]
    omega

end BlockCache

end Exav.Source
