import Exav.Bytes
import Exav.Lib.Fields
import Exav.Lib.LastWins

/-!
# The trees of an HFS+ volume

A fork is a list of extents, the first of them in the record that names it and
the others in the extents overflow tree.  A tree is a fork cut into nodes: the
leaves are chained in key order, and the index nodes over them lead to one.
-/

namespace Exav.Unpack.Hfs

open Exav.Bisect Exav.Fields

/-- The most a number of 64 bits is. -/
def u64Max : Nat := 2 ^ 64 - 1

/-- A number, the most significant byte first, or zero where it is out of
bounds. -/
def be (width : Nat) (d : Bytes) (off : Nat) : Nat :=
  if off + width ≤ d.length then ofLe (window d off width).reverse else 0

def be16 : Bytes → Nat → Nat := be 2

def be32 : Bytes → Nat → Nat := be 4

/-! ## Forks -/

/-- A run of allocation blocks. -/
structure Extent where
  start : Nat
  count : Nat

/-- The blocks of a fork in order: for each extent the fork's block it starts
at. -/
structure Map where
  block : Nat
  list : List (Nat × Extent)
  blocks : Nat

def Map.new (block : Nat) : Map := ⟨block, [], 0⟩

def Map.push (m : Map) (e : Extent) : Map :=
  if e.count > 0 then
    { m with list := m.list ++ [(m.blocks, e)], blocks := m.blocks + e.count }
  else m

/-- The bytes the extents hold. -/
def Map.bytes (m : Map) : Nat := min (m.blocks * m.block) u64Max

def append (vol : Bytes) (off len : Nat) (out : Bytes) : Bool × Bytes :=
  if off + len ≤ vol.length then (true, out ++ window vol off len)
  else (false, out)

/-- The last extent that starts at a block or before it. -/
def Map.extentAt (m : Map) (b : Nat) : Option (Nat × Extent) :=
  match partitionPoint (fun i => m.list[i]?.any (·.1 ≤ b)) m.list.length with
  | 0 => none
  | i + 1 => m.list[i]?

def Map.readFor (m : Map) (vol : Bytes) (stop : Nat) :
    (rounds pos : Nat) → Bytes → Bool × Bytes
  | 0, _, out => (false, out)
  | rounds + 1, pos, out =>
      if pos < stop then
        match m.extentAt (pos / m.block) with
        | none => (false, out)
        | some (first, e) =>
            let into := pos - first * m.block
            let take := min (stop - pos) (e.count * m.block - into)
            if take = 0 then (false, out)
            else
              match append vol (e.start * m.block + into) take out with
              | (false, out) => (false, out)
              | (true, out) => m.readFor vol stop rounds (pos + take) out
      else (true, out)

/-- Append `len` bytes of the fork from `off`; each round reads one at least. -/
def Map.read (m : Map) (vol : Bytes) (off len : Nat) (out : Bytes) :
    Bool × Bytes :=
  if off + len > m.bytes then (false, out)
  else m.readFor vol (off + len) (len + 1) off out

/-! ## Nodes -/

structure Node where
  data : Bytes
  kind : Nat
  height : Nat
  next : Nat
  count : Nat

def leafKind : Nat := 0xFF

def indexKind : Nat := 0

def Node.parse (data : Bytes) : Option Node :=
  let count := be16 data 10
  if data.length < (count + 1) * 2 + 14 then none
  else
    some ⟨data, (data.getD 8 0).toNat, (data.getD 9 0).toNat, be32 data 0, count⟩

/-- A record, which lies between its offset and the next one's. -/
def Node.record (nd : Node) (i : Nat) : Option Bytes :=
  if i ≥ nd.count then none
  else
    let size := nd.data.length
    let start := be16 nd.data (size - (i + 1) * 2)
    let stop := be16 nd.data (size - (i + 2) * 2)
    let table := size - (nd.count + 1) * 2
    if start < 14 ∨ start > stop ∨ stop > table then none
    else some (window nd.data start (stop - start))

/-- The offset of what follows a record's key. -/
def afterKey (rec : Bytes) : Nat :=
  (be16 rec 0 + 3) / 2 * 2

structure Tree where
  map : Map
  nodeSize : Nat
  root : Nat
  height : Nat
  firstLeaf : Nat

def Tree.node (t : Tree) (vol : Bytes) (n : Nat) : Option Node :=
  match t.map.read vol (n * t.nodeSize) t.nodeSize [] with
  | (true, data) => Node.parse data
  | (false, _) => none

/-! ## Searching -/

/-- Go through so many records of a leaf for the one that is equal. -/
def Node.search (nd : Node) (cmp : Bytes → Ordering) :
    (left i : Nat) → Option Bytes
  | 0, _ => none
  | left + 1, i =>
      match nd.record i with
      | none => none
      | some rec =>
          match cmp rec with
          | .eq => some rec
          | .gt => none
          | .lt => nd.search cmp left (i + 1)

def Node.child (nd : Node) (cmp : Bytes → Ordering) :
    (left i : Nat) → Option Nat → Option Nat
  | 0, _, child => child
  | left + 1, i, child =>
      match nd.record i with
      | none => none
      | some rec =>
          if cmp rec = .gt then child
          else nd.child cmp left (i + 1) (some (be32 rec (afterKey rec)))

/-- Search the nodes of a height. -/
def Tree.findFrom (t : Tree) (vol : Bytes) (cmp : Bytes → Ordering) :
    (height n : Nat) → Option Bytes
  | 0, _ => none
  | height + 1, n =>
      if n = 0 then none
      else
        match t.node vol n with
        | none => none
        | some nd =>
            if nd.height ≠ height + 1 then none
            else if nd.kind = leafKind ∧ height = 0 then nd.search cmp nd.count 0
            else if nd.kind ≠ indexKind ∨ height = 0 then none
            else
              match nd.child cmp nd.count 0 none with
              | none => none
              | some child => t.findFrom vol cmp height child

/-- The record that is equal.  A node of height 0 is refused. -/
def Tree.find (t : Tree) (vol : Bytes) (cmp : Bytes → Ordering) : Option Bytes :=
  t.findFrom vol cmp t.height t.root

/-! ## Scanning -/

section

variable {σ : Type}

/-- Pass so many records of a leaf on; an answer ends the scan. -/
def Node.pass (nd : Node) (each : σ → Bytes → Bool × σ) :
    (left i : Nat) → σ → Option Bool × σ
  | 0, _, s => (none, s)
  | left + 1, i, s =>
      match nd.record i with
      | none => (some false, s)
      | some rec =>
          match each s rec with
          | (true, s) => nd.pass each left (i + 1) s
          | (false, s) => (some true, s)

def Tree.limit (t : Tree) : Nat := t.map.bytes / t.nodeSize

/-- What a scan goes by: how many nodes were taken, and the one that was marked
at a power of two of them. -/
structure Steps where
  seen : Nat
  mark : Nat
  power : Nat
  since : Nat

/-- One node more; at a power of two of them it is marked. -/
def Steps.take (steps : Steps) (n : Nat) : Steps :=
  if steps.since + 1 = steps.power then
    ⟨steps.seen + 1, n, min (steps.power * 2) u64Max, 0⟩
  else ⟨steps.seen + 1, steps.mark, steps.power, steps.since + 1⟩

def Tree.scanFor (t : Tree) (vol : Bytes) (each : σ → Bytes → Bool × σ) :
    (rounds n : Nat) → Steps → σ → Bool × σ
  | 0, _, _, s => (false, s)
  | rounds + 1, n, steps, s =>
      if n = 0 then (true, s)
      else if steps.seen + 1 > t.limit ∨ n = steps.mark then (false, s)
      else
        match t.node vol n with
        | none => (false, s)
        | some nd =>
            if nd.kind ≠ leafKind then (false, s)
            else
              match nd.pass each nd.count 0 s with
              | (some answer, s) => (answer, s)
              | (none, s) => t.scanFor vol each rounds nd.next (steps.take n) s

/-- Every record of the leaves, in order, until a visitor stops it.  A scan takes
no more nodes than the file holds. -/
def Tree.scan (t : Tree) (vol : Bytes) (each : σ → Bytes → Bool × σ) (s : σ) :
    Bool × σ :=
  t.scanFor vol each (t.limit + 2) t.firstLeaf ⟨0, 0, 1, 0⟩ s

end

/-! ## The extents of a fork -/

def maxOverflowLookups : Nat := 2 ^ 16

/-- The record's key against a file, a fork of it and a block of that. -/
def cmpExtentKey (id fork start : Nat) (rec : Bytes) : Ordering :=
  (compare (be32 rec 4) id).then
    ((compare (rec.getD 2 0).toNat fork).then (compare (be32 rec 8) start))

/-- The eight extents behind a key of ten bytes. -/
def extentsOf (rec : Bytes) : List Extent :=
  (List.range 8).map fun i => ⟨be32 rec (12 + i * 8), be32 rec (16 + i * 8)⟩

def growFor (find : Nat → Option Bytes) (need : Nat) : (rounds : Nat) → Map → Map
  | 0, m => m
  | rounds + 1, m =>
      if m.blocks ≥ need ∨ m.blocks ≥ 2 ^ 32 then m
      else
        match (find m.blocks).filter (76 ≤ ·.length) with
        | none => m
        | some rec =>
            let grown := (extentsOf rec).foldl Map.push m
            if grown.blocks = m.blocks then grown
            else growFor find need rounds grown

structure Fork where
  size : Nat
  extents : List Extent

/-- The blocks of a fork: those of its record, and those the overflow tree has. -/
def mapOf (extents : Tree) (block : Nat) (vol : Bytes) (fork : Fork)
    (id kind : Nat) : Map :=
  growFor (fun start => extents.find vol (cmpExtentKey id kind start))
    ((fork.size + block - 1) / block) maxOverflowLookups
    (fork.extents.foldl Map.push (.new block))

/-! ## What a fork holds -/

def blockOf : List Extent → Nat → Option Nat
  | [], _ => none
  | e :: extents, b =>
      if b < e.count then some (e.start + b) else blockOf extents (b - e.count)

def byteOf (extents : List Extent) (block : Nat) (vol : Bytes) (p : Nat) :
    Option UInt8 :=
  (blockOf extents (p / block)).bind fun b => vol[b * block + p % block]?

def total (extents : List Extent) : Nat := (extents.map Extent.count).sum

/-- The extents that are not empty, each with the block it starts at. -/
def lay : Nat → List Extent → List (Nat × Extent)
  | _, [] => []
  | first, e :: extents =>
      if e.count > 0 then (first, e) :: lay (first + e.count) extents
      else lay first extents

structure Map.Of (m : Map) (extents : List Extent) : Prop where
  list : m.list = lay 0 extents
  blocks : m.blocks = total extents

@[simp] theorem total_cons (e : Extent) (extents : List Extent) :
    total (e :: extents) = e.count + total extents :=
  List.sum_cons

theorem total_append (extents more : List Extent) :
    total (extents ++ more) = total extents + total more := by
  rw [total, List.map_append, List.sum_append, total, total]

theorem foldl_push (extents : List Extent) (m : Map) :
    extents.foldl Map.push m =
      ⟨m.block, m.list ++ lay m.blocks extents, m.blocks + total extents⟩ := by
  induction extents generalizing m with
  | nil =>
      simp only [List.foldl_nil, lay, total, List.map_nil, List.sum_nil,
        List.append_nil, Nat.add_zero]
  | cons e extents ih =>
      rw [List.foldl_cons, ih, Map.push, lay, total_cons]
      split_ifs with some_
      · simp only [List.append_assoc, List.singleton_append, Nat.add_assoc]
      · simp only [Nat.eq_zero_of_not_pos some_, Nat.zero_add]

theorem le_of_mem_lay {first : Nat} {extents : List Extent} {x : Nat × Extent}
    (member : x ∈ lay first extents) : first ≤ x.1 := by
  induction extents generalizing first with
  | nil => cases member
  | cons e extents ih =>
      rw [lay] at member
      split_ifs at member
      · rcases List.mem_cons.mp member with rfl | later
        · exact Nat.le_refl _
        · exact (Nat.le_add_right _ _).trans (ih later)
      · exact ih member

theorem lay_head (base : Nat) (extents : List Extent) :
    base = (lay base extents)[0]?.elim (base + total extents) Prod.fst := by
  induction extents generalizing base with
  | nil => rfl
  | cons e extents ih =>
      rw [lay]
      split_ifs with some_
      · rfl
      · rw [total_cons, Nat.eq_zero_of_not_pos some_, Nat.zero_add]
        exact ih base

theorem lay_ascending (first : Nat) (extents : List Extent) :
    (lay first extents).Pairwise fun a b => a.1 < b.1 := by
  induction extents generalizing first with
  | nil => exact .nil
  | cons e extents ih =>
      rw [lay]
      split_ifs with some_
      · refine List.pairwise_cons.mpr ⟨fun x member => ?_, ih _⟩
        have later := le_of_mem_lay member
        dsimp only
        omega
      · exact ih _

theorem lay_spec {extents : List Extent} {base i : Nat} {x : Nat × Extent}
    (held : (lay base extents)[i]? = some x) :
    (∀ k < x.2.count, blockOf extents (x.1 - base + k) = some (x.2.start + k)) ∧
    x.1 + x.2.count =
      (lay base extents)[i + 1]?.elim (base + total extents) Prod.fst := by
  induction extents generalizing base i with
  | nil => cases held
  | cons e extents ih =>
      by_cases some_ : e.count > 0
      · rw [lay, if_pos some_] at held ⊢
        cases i with
        | zero =>
            cases held
            refine ⟨fun k low => ?_, ?_⟩
            · dsimp only at low ⊢
              rw [Nat.sub_self, Nat.zero_add, blockOf, if_pos low]
            · rw [List.getElem?_cons_succ, total_cons, ← Nat.add_assoc]
              exact lay_head (base + e.count) extents
        | succ i =>
            rw [List.getElem?_cons_succ] at held ⊢
            obtain ⟨blocks, next⟩ := ih held
            have later := le_of_mem_lay (List.mem_of_getElem? held)
            refine ⟨fun k low => ?_, ?_⟩
            · rw [blockOf, if_neg (by omega), ← blocks k low]
              congr 1
              omega
            · rw [next, total_cons, Nat.add_assoc]
      · have none_ : e.count = 0 := Nat.eq_zero_of_not_pos some_
        rw [lay, if_neg some_] at held ⊢
        obtain ⟨blocks, next⟩ := ih held
        refine ⟨fun k low => ?_, ?_⟩
        · rw [blockOf, if_neg (by omega), none_, Nat.sub_zero]
          exact blocks k low
        · rw [next, total_cons, none_, Nat.zero_add]

theorem byteOf_extent {extents : List Extent} {i block p : Nat} {x : Nat × Extent}
    (held : (lay 0 extents)[i]? = some x) (some_ : 0 < block)
    (from_ : x.1 * block ≤ p) (below : p < (x.1 + x.2.count) * block)
    (vol : Bytes) :
    byteOf extents block vol p = vol[x.2.start * block + (p - x.1 * block)]? := by
  have start : x.1 ≤ p / block := (Nat.le_div_iff_mul_le some_).mpr from_
  have stop : p / block < x.1 + x.2.count := (Nat.div_lt_iff_lt_mul some_).mpr below
  obtain ⟨k, split⟩ := Nat.exists_eq_add_of_le start
  have here := (lay_spec held).1 k (by omega)
  rw [Nat.sub_zero, ← split] at here
  have parts := Nat.div_add_mod p block
  rw [split, Nat.mul_add, Nat.mul_comm block x.1, Nat.mul_comm block k] at parts
  rw [byteOf, here, Option.bind_some]
  congr 1
  rw [Nat.add_mul]
  omega

theorem Map.extentAt_spec {m : Map} {extents : List Extent} (of : m.Of extents)
    {b : Nat} (below : b < total extents) :
    ∃ (x : Nat × Extent) (i : Nat), m.extentAt b = some x ∧
      (lay 0 extents)[i]? = some x ∧
      x.1 ≤ b ∧ b < x.1 + x.2.count := by
  have ascending := List.pairwise_iff_getElem.mp (lay_ascending 0 extents)
  have closed : ∀ i j, i ≤ j → j < (lay 0 extents).length →
      (lay 0 extents)[j]?.any (·.1 ≤ b) = true →
      (lay 0 extents)[i]?.any (·.1 ≤ b) = true := by
    intro i j ordered inside at_
    rw [List.getElem?_eq_getElem inside, Option.any_some, decide_eq_true_eq] at at_
    rw [List.getElem?_eq_getElem (ordered.trans_lt inside), Option.any_some,
      decide_eq_true_eq]
    rcases ordered.eq_or_lt with rfl | before
    · exact at_
    · exact (ascending i j (by omega) inside before).le.trans at_
  obtain ⟨within, before, after⟩ := partitionPoint_spec closed
  have head := lay_head 0 extents
  rw [extentAt, of.list]
  cases point : partitionPoint
      (fun i => (lay 0 extents)[i]?.any (·.1 ≤ b)) (lay 0 extents).length with
  | zero =>
      cases first : (lay 0 extents)[0]? with
      | none =>
          rw [first, Option.elim_none] at head
          omega
      | some y =>
          rw [first, Option.elim_some] at head
          have past := after 0 (Nat.le_of_eq point)
            (List.getElem?_eq_some_iff.mp first).1
          rw [first, Option.any_some, decide_eq_false_iff_not, ← head] at past
          exact absurd (Nat.zero_le b) past
  | succ i =>
      rw [point] at within before after
      have held := List.getElem?_eq_getElem (show i < (lay 0 extents).length by omega)
      have low := before i (Nat.lt_succ_self i)
      rw [held, Option.any_some, decide_eq_true_eq] at low
      refine ⟨_, i, held, held, low, ?_⟩
      rw [(lay_spec held).2]
      cases next : (lay 0 extents)[i + 1]? with
      | none =>
          rw [Option.elim_none, Nat.zero_add]
          exact below
      | some y =>
          have past := after (i + 1) (Nat.le_refl _)
            (List.getElem?_eq_some_iff.mp next).1
          rw [next, Option.any_some, decide_eq_false_iff_not] at past
          exact Nat.not_le.mp past

/-- What a read of a range came to: its bytes, or the extents or the volume do not
have them all. -/
def Reads (extents : List Extent) (block : Nat) (vol : Bytes) (off len : Nat)
    (out : Bytes) : Bool × Bytes → Prop
  | (true, got) => ∃ data, got = out ++ data ∧
      data.map some = (List.range' off len).map (byteOf extents block vol)
  | (false, _) => min (total extents * block) u64Max < off + len ∨
      ∃ p, off ≤ p ∧ p < off + len ∧ byteOf extents block vol p = none

/-- A stretch of the volume, where these are its bytes. -/
theorem window_map {vol : Bytes} {off len pos : Nat} {f : Nat → Option UInt8}
    (there : off + len ≤ vol.length)
    (bytes : ∀ k < len, f (pos + k) = vol[off + k]?) :
    (window vol off len).map some = (List.range' pos len).map f := by
  refine List.ext_getElem? fun k => ?_
  rw [List.getElem?_map, List.getElem?_map]
  rcases Nat.lt_or_ge k len with inside | past
  · rw [getElem?_window _ inside, List.getElem?_range' inside, Option.map_some,
      Nat.one_mul, bytes k inside,
      List.getElem?_eq_getElem (show off + k < vol.length by omega)]
    rfl
  · rw [List.getElem?_eq_none (by rw [length_window]; omega),
      List.getElem?_eq_none (by rw [List.length_range']; omega)]
    rfl

theorem Map.readFor_spec {m : Map} {extents : List Extent} (of : m.Of extents)
    (vol : Bytes) {stop : Nat} (held : stop ≤ total extents * m.block)
    {rounds pos : Nat} (enough : stop - pos < rounds) (out : Bytes) :
    Reads extents m.block vol pos (stop - pos) out
      (m.readFor vol stop rounds pos out) := by
  induction rounds generalizing pos out with
  | zero => omega
  | succ rounds ih =>
      rw [Map.readFor]
      split_ifs with more
      · have some_ : 0 < m.block := Nat.pos_of_ne_zero fun none_ => by
          rw [none_, Nat.mul_zero] at held
          omega
        obtain ⟨⟨first, e⟩, i, at_, found, from_, before⟩ := m.extentAt_spec of
          ((Nat.div_lt_iff_lt_mul some_).mpr (more.trans_le held))
        dsimp only at from_ before
        have low := (Nat.le_div_iff_mul_le some_).mp from_
        have high := (Nat.div_lt_iff_lt_mul some_).mp before
        have room := Nat.add_mul first e.count m.block
        have bytes : ∀ k < e.count * m.block - (pos - first * m.block),
            byteOf extents m.block vol (pos + k) =
              vol[e.start * m.block + (pos - first * m.block) + k]? := by
          intro k inside
          rw [byteOf_extent found some_ (by dsimp only; omega) (by dsimp only; omega)]
          dsimp only
          congr 1
          omega
        rw [at_]
        dsimp only
        generalize took : min (stop - pos)
          (e.count * m.block - (pos - first * m.block)) = take
        rw [if_neg (by omega), append]
        split_ifs with there
        · have step := @ih (pos + take) (by omega)
            (out ++ window vol (e.start * m.block + (pos - first * m.block)) take)
          dsimp only
          generalize m.readFor vol stop rounds (pos + take) _ = rest at step ⊢
          obtain ⟨_ | _, got⟩ := rest
          · obtain ended | ⟨p, later, inside, missing⟩ := step
            · exact Or.inl (by omega)
            · exact Or.inr ⟨p, by omega, by omega, missing⟩
          · obtain ⟨data, rfl, after⟩ := step
            refine ⟨_, List.append_assoc _ _ _, ?_⟩
            have split : stop - pos = take + (stop - (pos + take)) := by omega
            rw [List.map_append, after, split, ← List.range'_append_1, List.map_append]
            congr 1
            exact window_map there fun k inside => bytes k (by omega)
        · refine Or.inr ⟨pos + (take - 1), by omega, by omega, ?_⟩
          rw [bytes _ (by omega)]
          exact List.getElem?_eq_none (by omega)
      · refine ⟨[], (List.append_nil _).symm, ?_⟩
        rw [Nat.sub_eq_zero_of_le (Nat.not_lt.mp more)]
        rfl

theorem Map.read_spec {m : Map} {extents : List Extent} (of : m.Of extents)
    (vol : Bytes) (off len : Nat) (out : Bytes) :
    Reads extents m.block vol off len out (m.read vol off len out) := by
  rw [Map.read, Map.bytes, of.blocks]
  split_ifs with long
  · exact Or.inl long
  · have step := @Map.readFor_spec _ _ of vol (off + len) (by omega) _ off
      (show off + len - off < len + 1 by omega) out
    rw [Nat.add_sub_cancel_left] at step
    exact step

theorem Node.search_equal {nd : Node} {cmp : Bytes → Ordering} {left i : Nat}
    {rec : Bytes} (found : nd.search cmp left i = some rec) : cmp rec = .eq := by
  induction left generalizing i with
  | zero => cases found
  | succ left ih =>
      rw [Node.search] at found
      split at found
      · cases found
      · split at found
        · rename_i equal
          cases found
          exact equal
        · cases found
        · exact ih found

theorem Tree.findFrom_equal {t : Tree} {vol : Bytes} {cmp : Bytes → Ordering}
    {height n : Nat} {rec : Bytes} (found : t.findFrom vol cmp height n = some rec) :
    cmp rec = .eq := by
  induction height generalizing n with
  | zero => cases found
  | succ height ih =>
      rw [Tree.findFrom] at found
      split_ifs at found
      split at found
      · cases found
      · split_ifs at found
        · exact Node.search_equal found
        · split at found
          · cases found
          · exact ih found

def overflowAt (t : Tree) (vol : Bytes) (id kind start : Nat) : Option Bytes :=
  (t.find vol (cmpExtentKey id kind start)).filter (76 ≤ ·.length)

/-- The extents of a fork the overflow tree has from a block on: records keyed by
the block they start at, each taken whole, until the fork has the blocks it needs,
no record is there that adds to them, or the lookups are used up. -/
inductive Overflow (t : Tree) (vol : Bytes) (id kind need : Nat) :
    (lookups start : Nat) → List Extent → Prop
  | done {lookups start : Nat}
      (stops : lookups = 0 ∨ need ≤ start ∨ 2 ^ 32 ≤ start ∨
        ∀ rec, overflowAt t vol id kind start = some rec →
          total (extentsOf rec) = 0) :
      Overflow t vol id kind need lookups start []
  | next {lookups start : Nat} {rec : Bytes} {more : List Extent}
      (short : start < need ∧ start < 2 ^ 32)
      (found : overflowAt t vol id kind start = some rec)
      (key : be32 rec 4 = id ∧ (rec.getD 2 0).toNat = kind ∧ be32 rec 8 = start)
      (adds : 0 < total (extentsOf rec))
      (later : Overflow t vol id kind need lookups
        (start + total (extentsOf rec)) more) :
      Overflow t vol id kind need (lookups + 1) start (extentsOf rec ++ more)

theorem cmpExtentKey_eq {id fork start : Nat} {rec : Bytes}
    (equal : cmpExtentKey id fork start rec = .eq) :
    be32 rec 4 = id ∧ (rec.getD 2 0).toNat = fork ∧ be32 rec 8 = start := by
  simpa only [cmpExtentKey, Ordering.then_eq_eq, compare_eq_iff_eq] using equal

theorem lay_append (first : Nat) (extents more : List Extent) :
    lay first (extents ++ more) =
      lay first extents ++ lay (first + total extents) more := by
  induction extents generalizing first with
  | nil => rfl
  | cons e extents ih =>
      rw [List.cons_append, lay, lay, total_cons]
      split_ifs with some_
      · rw [ih, List.cons_append, Nat.add_assoc]
      · rw [ih, Nat.eq_zero_of_not_pos some_, Nat.zero_add]

theorem lay_of_total_eq_zero {extents : List Extent}
    (nothing : total extents = 0) (first : Nat) : lay first extents = [] := by
  induction extents with
  | nil => rfl
  | cons e extents ih =>
      rw [total_cons] at nothing
      rw [lay, if_neg (by omega)]
      exact ih (by omega)

theorem Map.Of.append {m : Map} {extents : List Extent} (of : m.Of extents)
    (more : List Extent) : (more.foldl Map.push m).Of (extents ++ more) := by
  rw [foldl_push]
  exact ⟨by rw [of.list, of.blocks, lay_append, Nat.zero_add],
    by rw [of.blocks, total_append]⟩

theorem growFor_of {t : Tree} {vol : Bytes} {id kind need rounds : Nat} {m : Map}
    {extents : List Extent} (of : m.Of extents) :
    ∃ more, Overflow t vol id kind need rounds (total extents) more ∧
      (growFor (fun start => t.find vol (cmpExtentKey id kind start)) need rounds
        m).Of (extents ++ more) ∧
      (growFor (fun start => t.find vol (cmpExtentKey id kind start)) need rounds
        m).block = m.block := by
  have stays : m.Of (extents ++ []) := by rwa [List.append_nil]
  induction rounds generalizing m extents with
  | zero => exact ⟨[], .done (.inl rfl), stays, rfl⟩
  | succ rounds ih =>
      rw [growFor, of.blocks]
      split_ifs with enough
      · exact ⟨[], .done (.inr (enough.imp_right .inl)), stays, rfl⟩
      · have short : total extents < need ∧ total extents < 2 ^ 32 := by omega
        cases looked : (t.find vol (cmpExtentKey id kind (total extents))).filter
            (76 ≤ ·.length) with
        | none =>
            refine ⟨[], .done (.inr (.inr (.inr fun rec found => ?_))), stays,
              rfl⟩
            cases looked.symm.trans found
        | some rec =>
            have key := cmpExtentKey_eq (Tree.findFrom_equal
              (Option.filter_eq_some_iff.mp looked).1)
            have grown := of.append (extentsOf rec)
            have block : ((extentsOf rec).foldl Map.push m).block = m.block := by
              rw [foldl_push]
            dsimp only
            rw [grown.blocks, total_append]
            split_ifs with same
            · have nothing : total (extentsOf rec) = 0 := by omega
              refine ⟨[], .done (.inr (.inr (.inr fun other found => ?_))), ?_,
                block⟩
              · cases looked.symm.trans found
                exact nothing
              · refine ⟨?_, ?_⟩
                · rw [grown.list, lay_append, lay_of_total_eq_zero nothing,
                    List.append_nil, List.append_nil]
                · rw [grown.blocks, total_append, nothing, List.append_nil,
                    Nat.add_zero]
            · obtain ⟨more, later, grew, kept⟩ := ih grown (by rwa [List.append_nil])
              rw [total_append] at later
              rw [List.append_assoc] at grew
              exact ⟨extentsOf rec ++ more,
                .next short looked key (by omega) later, grew, kept.trans block⟩

theorem mapOf_of (t : Tree) (block : Nat) (vol : Bytes) (fork : Fork)
    (id kind : Nat) :
    ∃ more, Overflow t vol id kind ((fork.size + block - 1) / block)
        maxOverflowLookups (total fork.extents) more ∧
      (mapOf t block vol fork id kind).Of (fork.extents ++ more) ∧
      (mapOf t block vol fork id kind).block = block := by
  have first : (fork.extents.foldl Map.push (.new block)).Of fork.extents :=
    @Map.Of.append (.new block) [] ⟨rfl, rfl⟩ fork.extents
  obtain ⟨more, later, of, kept⟩ := growFor_of first
  exact ⟨more, later, of, kept.trans (by rw [foldl_push]; rfl)⟩

/-! ## What a scan meets -/

section

variable {σ : Type}

/-- Pass these records on until a visitor stops. -/
def visit (each : σ → Bytes → Bool × σ) : List Bytes → σ → Bool × σ
  | [], s => (true, s)
  | rec :: recs, s =>
      match each s rec with
      | (true, s) => visit each recs s
      | (false, s) => (false, s)

/-- What passing these records on comes to: true where the visitor stopped, and
otherwise whether they were all. -/
def answer (each : σ → Bytes → Bool × σ) (whole : Bool) (recs : List Bytes)
    (s : σ) : Bool × σ :=
  match visit each recs s with
  | (true, s) => (whole, s)
  | (false, s) => (true, s)

theorem visit_append (each : σ → Bytes → Bool × σ) (recs more : List Bytes) (s : σ) :
    visit each (recs ++ more) s =
      match visit each recs s with
      | (true, s) => visit each more s
      | (false, s) => (false, s) := by
  induction recs generalizing s with
  | nil => rfl
  | cons rec recs ih =>
      rw [List.cons_append, visit, visit]
      rcases each s rec with ⟨_ | _, s⟩
      · rfl
      · exact ih s

end

def Node.records (nd : Node) : (left i : Nat) → List Bytes × Bool
  | 0, _ => ([], true)
  | left + 1, i =>
      match nd.record i with
      | none => ([], false)
      | some rec =>
          (rec :: (nd.records left (i + 1)).1, (nd.records left (i + 1)).2)

def Tree.leaf (t : Tree) (vol : Bytes) (n : Nat) : Option Node :=
  (t.node vol n).filter (·.kind = leafKind)

/-- A chain of leaves with an end: its nodes, their records, and whether it ends
as it should. -/
inductive Chain (t : Tree) (vol : Bytes) :
    Nat → List Nat → List Bytes → Bool → Prop
  | ended : Chain t vol 0 [] [] true
  | lost {n : Nat} (real : n ≠ 0) (gone : t.leaf vol n = none) :
      Chain t vol n [n] [] false
  | cut {n : Nat} {nd : Node} {recs : List Bytes} (real : n ≠ 0)
      (held : t.leaf vol n = some nd)
      (part : nd.records nd.count 0 = (recs, false)) : Chain t vol n [n] recs false
  | leaf {n : Nat} {nd : Node} {nodes : List Nat} {here recs : List Bytes}
      {whole : Bool} (real : n ≠ 0) (held : t.leaf vol n = some nd)
      (all : nd.records nd.count 0 = (here, true))
      (later : Chain t vol nd.next nodes recs whole) :
      Chain t vol n (n :: nodes) (here ++ recs) whole

/-- A whole leaf and the one after it. -/
def Tree.Next (t : Tree) (vol : Bytes) (n m : Nat) : Prop :=
  n ≠ 0 ∧ ∃ nd here, t.leaf vol n = some nd ∧
    nd.records nd.count 0 = (here, true) ∧ nd.next = m

/-- A chain that comes back to a leaf of its own. -/
def Tree.Loops (t : Tree) (vol : Bytes) : Prop :=
  ∃ n, Relation.ReflTransGen (t.Next vol) t.firstLeaf n ∧
    Relation.TransGen (t.Next vol) n n

/-- What a scan meets with a visitor that never stops it. -/
def Tree.metFor (t : Tree) (vol : Bytes) :
    (rounds n : Nat) → Steps → List Bytes × Bool
  | 0, _, _ => ([], false)
  | rounds + 1, n, steps =>
      if n = 0 then ([], true)
      else if steps.seen + 1 > t.limit ∨ n = steps.mark then ([], false)
      else
        match t.leaf vol n with
        | none => ([], false)
        | some nd =>
            match nd.records nd.count 0 with
            | (here, false) => (here, false)
            | (here, true) =>
                (here ++ (t.metFor vol rounds nd.next (steps.take n)).1,
                  (t.metFor vol rounds nd.next (steps.take n)).2)

section

variable {σ : Type} (each : σ → Bytes → Bool × σ)

theorem Node.pass_eq (nd : Node) (left i : Nat) (s : σ) :
    nd.pass each left i s =
      match visit each (nd.records left i).1 s with
      | (true, s) => (if (nd.records left i).2 then none else some false, s)
      | (false, s) => (some true, s) := by
  induction left generalizing i s with
  | zero => rfl
  | succ left ih =>
      rw [Node.pass, Node.records]
      cases nd.record i with
      | none => rfl
      | some rec =>
          dsimp only
          rw [visit]
          rcases each s rec with ⟨_ | _, s⟩
          · rfl
          · exact ih (i + 1) s

theorem Tree.scanFor_eq (t : Tree) (vol : Bytes) (rounds n : Nat) (steps : Steps)
    (s : σ) :
    t.scanFor vol each rounds n steps s =
      answer each (t.metFor vol rounds n steps).2 (t.metFor vol rounds n steps).1
        s := by
  induction rounds generalizing n steps s with
  | zero => rfl
  | succ rounds ih =>
      rw [Tree.scanFor, Tree.metFor, Tree.leaf]
      split_ifs with none_ ended
      · rfl
      · rfl
      · cases t.node vol n with
        | none => rfl
        | some nd =>
            by_cases kind : nd.kind = leafKind
            · rw [Option.filter_some, if_pos (decide_eq_true kind)]
              dsimp only
              rw [if_neg (not_not_intro kind), Node.pass_eq]
              rcases nd.records nd.count 0 with ⟨here, _ | _⟩
              · dsimp only [answer]
                rcases visit each here s with ⟨_ | _, s⟩ <;> rfl
              · dsimp only [answer]
                rw [visit_append]
                rcases visit each here s with ⟨_ | _, s⟩
                · rfl
                · exact ih _ _ _
            · rw [Option.filter_some, if_neg (by simpa using kind)]
              dsimp only
              rw [if_pos kind]
              rfl

end

section

variable {t : Tree} {vol : Bytes}

theorem Chain.unique {n : Nat} {nodes nodes' : List Nat} {recs recs' : List Bytes}
    {whole whole' : Bool} (chain : Chain t vol n nodes recs whole)
    (other : Chain t vol n nodes' recs' whole') : nodes = nodes' := by
  induction chain generalizing nodes' recs' whole' with
  | ended =>
      cases other with
      | ended => rfl
      | lost real => exact absurd rfl real
      | cut real => exact absurd rfl real
      | leaf real => exact absurd rfl real
  | lost real gone =>
      cases other with
      | ended => exact absurd rfl real
      | lost => rfl
      | cut => rfl
      | leaf _ held => cases gone.symm.trans held
  | cut real held part =>
      cases other with
      | ended => exact absurd rfl real
      | lost => rfl
      | cut => rfl
      | leaf _ held' all =>
          cases held.symm.trans held'
          cases part.symm.trans all
  | leaf real held all later ih =>
      cases other with
      | ended => exact absurd rfl real
      | lost _ gone => cases gone.symm.trans held
      | cut _ held' part =>
          cases held.symm.trans held'
          cases part.symm.trans all
      | leaf _ held' all' later' =>
          cases held.symm.trans held'
          rw [ih later']

theorem Chain.mem {n m : Nat} {nodes : List Nat} {recs : List Bytes} {whole : Bool}
    (chain : Chain t vol n nodes recs whole) (member : m ∈ nodes) :
    ∃ nodes' recs', Chain t vol m nodes' recs' whole ∧
      nodes'.length ≤ nodes.length := by
  induction chain with
  | ended => cases member
  | lost real gone =>
      obtain rfl := List.mem_singleton.mp member
      exact ⟨_, _, .lost real gone, Nat.le_refl _⟩
  | cut real held part =>
      obtain rfl := List.mem_singleton.mp member
      exact ⟨_, _, .cut real held part, Nat.le_refl _⟩
  | leaf real held all later ih =>
      rcases List.mem_cons.mp member with rfl | after
      · exact ⟨_, _, .leaf real held all later, Nat.le_refl _⟩
      · obtain ⟨nodes', recs', rest, short⟩ := ih after
        exact ⟨nodes', recs', rest, short.trans (Nat.le_succ _)⟩

theorem Chain.nodup {n : Nat} {nodes : List Nat} {recs : List Bytes} {whole : Bool}
    (chain : Chain t vol n nodes recs whole) : nodes.Nodup := by
  induction chain with
  | ended => exact List.nodup_nil
  | lost | cut => exact List.nodup_singleton _
  | leaf real held all later ih =>
      refine List.nodup_cons.mpr ⟨fun again => ?_, ih⟩
      obtain ⟨nodes', recs', rest, short⟩ := later.mem again
      rw [← (Chain.leaf real held all later).unique rest, List.length_cons] at short
      omega

theorem Chain.next {n m : Nat} {nodes : List Nat} {recs : List Bytes} {whole : Bool}
    (chain : Chain t vol n nodes recs whole) (next : t.Next vol n m) :
    ∃ nodes' recs', Chain t vol m nodes' recs' whole ∧
      nodes'.length < nodes.length := by
  obtain ⟨real, nd, here, held, all, rfl⟩ := next
  cases chain with
  | ended => exact absurd rfl real
  | lost _ gone => cases gone.symm.trans held
  | cut _ held' part =>
      cases held.symm.trans held'
      cases part.symm.trans all
  | leaf _ held' all' later =>
      cases held.symm.trans held'
      exact ⟨_, _, later, Nat.lt_succ_self _⟩

theorem Chain.goes_on {n m : Nat} {nodes : List Nat} {recs : List Bytes}
    {whole : Bool} (chain : Chain t vol n nodes recs whole)
    (path : Relation.TransGen (t.Next vol) n m) :
    ∃ nodes' recs', Chain t vol m nodes' recs' whole ∧
      nodes'.length < nodes.length := by
  induction path with
  | single next => exact chain.next next
  | tail _ next ih =>
      obtain ⟨nodes', recs', there, short⟩ := ih
      obtain ⟨nodes'', recs'', then_, shorter⟩ := there.next next
      exact ⟨nodes'', recs'', then_, shorter.trans short⟩

/-- A chain that comes back has no end. -/
theorem Tree.Loops.endless (loops : t.Loops vol) {nodes : List Nat}
    {recs : List Bytes} {whole : Bool} :
    ¬Chain t vol t.firstLeaf nodes recs whole := by
  intro chain
  obtain ⟨n, path, loop⟩ := loops
  obtain ⟨nodes', recs', there⟩ : ∃ nodes' recs', Chain t vol n nodes' recs' whole := by
    rcases Relation.reflTransGen_iff_eq_or_transGen.mp path with rfl | some_
    · exact ⟨_, _, chain⟩
    · obtain ⟨nodes', recs', there, -⟩ := chain.goes_on some_
      exact ⟨_, _, there⟩
  obtain ⟨nodes'', recs'', again, short⟩ := there.goes_on loop
  rw [there.unique again] at short
  exact Nat.lt_irrefl _ short

theorem Tree.lt_limit {n : Nat} {nd : Node} (held : t.leaf vol n = some nd) :
    n < t.limit := by
  have read := (Option.filter_eq_some_iff.mp held).1
  rw [Tree.node, Map.read] at read
  rw [Tree.limit]
  by_cases long : n * t.nodeSize + t.nodeSize > t.map.bytes
  · rw [if_pos long] at read
    cases read
  · rw [if_neg long] at read
    rcases Nat.eq_zero_or_pos t.nodeSize with none_ | some_
    · rw [none_, Nat.mul_zero, Map.readFor, if_neg (Nat.lt_irrefl 0)] at read
      cases read
    · refine (Nat.le_div_iff_mul_le some_).mpr ?_
      rw [Nat.succ_mul]
      omega

/-- The nodes a scan has taken. -/
structure Taken (t : Tree) (past : List Nat) (steps : Steps) : Prop where
  seen : steps.seen = past.length
  mark : steps.mark = 0 ∨ steps.mark ∈ past
  nodup : past.Nodup
  below : ∀ n ∈ past, n < t.limit

theorem Taken.take {past : List Nat} {steps : Steps} (taken : Taken t past steps)
    {n : Nat} (new : n ∉ past) (below : n < t.limit) :
    Taken t (n :: past) (steps.take n) := by
  refine ⟨?_, ?_, List.nodup_cons.mpr ⟨new, taken.nodup⟩, fun m member => ?_⟩
  · rw [Steps.take, List.length_cons, ← taken.seen]
    split_ifs <;> rfl
  · rw [Steps.take]
    split_ifs
    · exact Or.inr List.mem_cons_self
    · exact taken.mark.imp_right (List.mem_cons_of_mem _)
  · rcases List.mem_cons.mp member with rfl | earlier
    · exact below
    · exact taken.below m earlier

theorem Taken.seen_le {past : List Nat} {steps : Steps} (taken : Taken t past steps) :
    steps.seen ≤ t.limit := by
  have fits := (List.subperm_of_subset taken.nodup fun n member =>
    List.mem_range.mpr (taken.below n member)).length_le
  rwa [List.length_range, ← taken.seen] at fits

theorem Taken.rounds {past : List Nat} {steps : Steps} (taken : Taken t past steps)
    {rounds : Nat} (enough : t.limit < rounds + steps.seen) :
    ∃ left, rounds = left + 1 :=
  Nat.exists_eq_succ_of_ne_zero fun none_ => by
    have within := taken.seen_le
    omega

theorem Taken.goes {past : List Nat} {steps : Steps} (taken : Taken t past steps)
    {n : Nat} {nd : Node} (real : n ≠ 0) (held : t.leaf vol n = some nd)
    (new : n ∉ past) :
    ¬(steps.seen + 1 > t.limit ∨ n = steps.mark) ∧
      Taken t (n :: past) (steps.take n) := by
  have after := taken.take new (Tree.lt_limit held)
  have room := after.seen_le
  rw [after.seen, List.length_cons, ← taken.seen] at room
  refine ⟨?_, after⟩
  rintro (ended | rfl)
  · omega
  · exact taken.mark.elim real new

@[simp] theorem Steps.take_seen (steps : Steps) (n : Nat) :
    (steps.take n).seen = steps.seen + 1 := by
  rw [Steps.take]
  split_ifs <;> rfl

/-- A chain with an end is met to its end: no node of it is the marked one, and
it is no longer than the file. -/
theorem Chain.met {n : Nat} {nodes : List Nat} {recs : List Bytes} {whole : Bool}
    (chain : Chain t vol n nodes recs whole) {past : List Nat} {steps : Steps}
    (taken : Taken t past steps) (apart : ∀ m ∈ nodes, m ∉ past) {rounds : Nat}
    (enough : t.limit < rounds + steps.seen) :
    t.metFor vol rounds n steps = (recs, whole) := by
  have once := chain.nodup
  induction chain generalizing past steps rounds with
  | ended =>
      obtain ⟨rounds, rfl⟩ := taken.rounds enough
      rfl
  | lost real gone =>
      obtain ⟨rounds, rfl⟩ := taken.rounds enough
      rw [Tree.metFor, if_neg real, gone]
      split_ifs <;> rfl
  | cut real held part =>
      obtain ⟨rounds, rfl⟩ := taken.rounds enough
      obtain ⟨on, -⟩ := taken.goes real held (apart _ List.mem_cons_self)
      rw [Tree.metFor, if_neg real, if_neg on, held]
      dsimp only
      rw [part]
  | leaf real held all later ih =>
      obtain ⟨rounds, rfl⟩ := taken.rounds enough
      obtain ⟨on, after⟩ := taken.goes real held (apart _ List.mem_cons_self)
      obtain ⟨new, once⟩ := List.nodup_cons.mp once
      have rest := @ih _ _ after (fun m member again => ?_) rounds
        (by rw [Steps.take_seen]; omega) once
      · rw [Tree.metFor, if_neg real, if_neg on, held]
        dsimp only
        rw [all]
        dsimp only
        rw [rest]
      · rcases List.mem_cons.mp again with rfl | earlier
        · exact new member
        · exact apart m (List.mem_cons_of_mem _ member) earlier

theorem Tree.metFor_whole {rounds n : Nat} {steps : Steps}
    (whole : (t.metFor vol rounds n steps).2 = true) :
    ∃ nodes recs, Chain t vol n nodes recs true := by
  induction rounds generalizing n steps with
  | zero => cases whole
  | succ rounds ih =>
      rw [Tree.metFor] at whole
      by_cases none_ : n = 0
      · rw [none_]
        exact ⟨_, _, .ended⟩
      · rw [if_neg none_] at whole
        split_ifs at whole
        cases held : t.leaf vol n with
        | none =>
            rw [held] at whole
            cases whole
        | some nd =>
            rw [held] at whole
            dsimp only at whole
            rcases all : nd.records nd.count 0 with ⟨here, _ | _⟩
            · rw [all] at whole
              cases whole
            · rw [all] at whole
              obtain ⟨nodes, recs, later⟩ := ih whole
              exact ⟨_, _, .leaf none_ held all later⟩

theorem Tree.metFor_rounds {rounds more n : Nat} {steps : Steps}
    (within : steps.seen ≤ t.limit) (enough : t.limit < rounds + steps.seen)
    (less : rounds ≤ more) :
    t.metFor vol rounds n steps = t.metFor vol more n steps := by
  induction rounds generalizing more n steps with
  | zero => omega
  | succ rounds ih =>
      obtain ⟨more, rfl⟩ : ∃ left, more = left + 1 :=
        Nat.exists_eq_succ_of_ne_zero (by omega)
      rw [Tree.metFor, Tree.metFor]
      split_ifs with none_ ended
      · rfl
      · rfl
      · have seen := Steps.take_seen steps n
        have rest : ∀ m, t.metFor vol rounds m (steps.take n) =
            t.metFor vol more m (steps.take n) := fun m =>
          ih (by omega) (by omega) (by omega)
        simp only [rest]

end

/-! ## What a search finds -/

/-- Records in key order, as they compare with the one wanted: no two are equal. -/
def InOrder (cmp : Bytes → Ordering) (recs : List Bytes) : Prop :=
  recs.Pairwise fun a b => cmp a = .lt ∨ cmp b = .gt

/-- A node of this height leads to these records.  The key of an index record is
the first key of its child. -/
def Tree.Holds (t : Tree) (vol : Bytes) (cmp : Bytes → Ordering) :
    (height n : Nat) → List Bytes → Prop
  | 0, _, _ => False
  | 1, n, recs =>
      n ≠ 0 ∧ ∃ nd, t.node vol n = some nd ∧ nd.height = 1 ∧ nd.kind = leafKind ∧
        nd.records nd.count 0 = (recs, true)
  | height + 2, n, recs =>
      n ≠ 0 ∧ ∃ nd index parts, t.node vol n = some nd ∧ nd.height = height + 2 ∧
        nd.kind = indexKind ∧ nd.records nd.count 0 = (index, true) ∧
        recs = parts.flatten ∧
        List.Forall₂ (fun entry part =>
          (part.head?.map cmp = some (cmp entry)) ∧
            t.Holds vol cmp (height + 1) (be32 entry (afterKey entry)) part)
          index parts

/-- A tree of these records: the scan meets them in order, and the nodes over
them lead to them. -/
structure Tree.Sorted (t : Tree) (vol : Bytes) (cmp : Bytes → Ordering)
    (recs : List Bytes) : Prop where
  scanned : t.scan vol (fun met rec => (true, met ++ [rec])) [] = (true, recs)
  leads : t.root = 0 ∧ recs = [] ∨ t.Holds vol cmp t.height t.root recs
  ordered : InOrder cmp recs

section

variable {t : Tree} {vol : Bytes} {cmp : Bytes → Ordering}

theorem find?_none {recs : List Bytes} (none_ : ∀ rec ∈ recs, cmp rec ≠ .eq) :
    recs.find? (fun rec => decide (cmp rec = .eq)) = none :=
  List.find?_eq_none.mpr fun rec member equal =>
    none_ rec member (of_decide_eq_true equal)

theorem Node.search_eq {nd : Node} {left i : Nat} {recs : List Bytes}
    (all : nd.records left i = (recs, true)) (ordered : InOrder cmp recs) :
    nd.search cmp left i = recs.find? fun rec => decide (cmp rec = .eq) := by
  induction left generalizing i recs with
  | zero =>
      cases all
      rfl
  | succ left ih =>
      rw [Node.records] at all
      rw [Node.search]
      cases held : nd.record i with
      | none =>
          rw [held] at all
          cases all
      | some rec =>
          rw [held] at all
          obtain ⟨rfl, whole⟩ := Prod.mk.inj all
          obtain ⟨past, ordered⟩ := List.pairwise_cons.mp ordered
          dsimp only
          rw [List.find?_cons]
          cases at_ : cmp rec with
          | eq => rfl
          | lt => exact ih (Prod.ext rfl whole) ordered
          | gt =>
              refine (find?_none fun later member equal => ?_).symm
              rcases past later member with before | after
              · cases at_.symm.trans before
              · cases equal.symm.trans after

/-- The child a search goes on to: there is none where every record is past the
one wanted, and else the one wanted is under it if it is anywhere. -/
theorem Node.child_spec {nd : Node} {left i : Nat} {index : List Bytes}
    {parts : List (List Bytes)} {Under : Nat → List Bytes → Prop}
    (all : nd.records left i = (index, true))
    (under : List.Forall₂ (fun entry part =>
      (part.head?.map cmp = some (cmp entry)) ∧
        Under (be32 entry (afterKey entry)) part) index parts)
    (ordered : InOrder cmp parts.flatten) (child : Option Nat) :
    (nd.child cmp left i child = child ∧ ∀ rec ∈ parts.flatten, cmp rec = .gt) ∨
    ∃ n part, nd.child cmp left i child = some n ∧ part ∈ parts ∧ Under n part ∧
      (∃ rec ∈ parts.flatten, cmp rec ≠ .gt) ∧
      parts.flatten.find? (fun rec => decide (cmp rec = .eq)) =
        part.find? fun rec => decide (cmp rec = .eq) := by
  induction left generalizing i index parts child with
  | zero =>
      cases all
      cases under
      exact Or.inl ⟨rfl, fun rec member => by cases member⟩
  | succ left ih =>
      rw [Node.records] at all
      rw [Node.child]
      cases held : nd.record i with
      | none =>
          rw [held] at all
          cases all
      | some entry =>
          rw [held] at all
          obtain ⟨rfl, whole⟩ := Prod.mk.inj all
          obtain _ | ⟨⟨first, here⟩, under⟩ := under
          rename_i part parts
          rw [List.flatten_cons] at ordered ⊢
          obtain ⟨-, later, across⟩ := List.pairwise_append.mp ordered
          obtain ⟨rec, rest, rfl⟩ : ∃ rec rest, part = rec :: rest := by
            cases part with
            | nil => cases first
            | cons rec rest => exact ⟨rec, rest, rfl⟩
          rw [List.head?_cons, Option.map_some, Option.some_inj] at first
          dsimp only
          split_ifs with past
          · rw [past] at first
            refine Or.inl ⟨rfl, fun other member => ?_⟩
            rcases List.mem_cons.mp member with rfl | after
            · exact first
            · rcases (List.pairwise_cons.mp ordered).1 other after with before | gt
              · cases before.symm.trans first
              · exact gt
          · rw [← first] at past
            rcases ih (Prod.ext rfl whole) under later
                (some (be32 entry (afterKey entry))) with
              ⟨same, beyond⟩ | ⟨n, other, goes, member, holds, ⟨far, there, reached⟩,
                found⟩
            · refine Or.inr ⟨_, _, same, List.mem_cons_self, here,
                ⟨rec, List.mem_append_left _ List.mem_cons_self, past⟩, ?_⟩
              have none_ := find?_none fun late inside equal => by
                cases (beyond late inside).symm.trans equal
              rw [List.find?_append, none_, Option.or_none]
            · refine Or.inr ⟨n, other, goes, List.mem_cons_of_mem _ member, holds,
                ⟨far, List.mem_append_right _ there, reached⟩, ?_⟩
              have none_ := find?_none fun early inside equal => by
                rcases across early inside far there with before | gt
                · cases before.symm.trans equal
                · exact reached gt
              rw [List.find?_append, none_, Option.none_or, found]

theorem Tree.findFrom_eq {height n : Nat} {recs : List Bytes}
    (holds : t.Holds vol cmp height n recs) (ordered : InOrder cmp recs) :
    t.findFrom vol cmp height n = recs.find? fun rec => decide (cmp rec = .eq) := by
  induction height generalizing n recs with
  | zero => cases holds
  | succ height ih =>
      rw [Tree.findFrom]
      cases height with
      | zero =>
          obtain ⟨real, nd, held, high, kind, all⟩ := holds
          rw [if_neg real, held]
          dsimp only
          rw [if_neg (not_not_intro high), if_pos ⟨kind, rfl⟩]
          exact Node.search_eq all ordered
      | succ height =>
          obtain ⟨real, nd, index, parts, held, high, kind, all, rfl, under⟩ := holds
          rw [if_neg real, held]
          dsimp only
          rw [if_neg (not_not_intro high), if_neg (fun leaf => by cases leaf.2),
            if_neg (by simp only [kind, ne_eq, not_true, false_or, Nat.succ_ne_zero,
              not_false_iff])]
          rcases Node.child_spec all under ordered none with
            ⟨same, beyond⟩ | ⟨n, part, goes, member, holds, -, found⟩
          · have none_ := find?_none fun rec inside equal => by
              cases (beyond rec inside).symm.trans equal
            rw [same, none_]
          · rw [goes, found]
            exact ih holds (ordered.sublist (List.sublist_flatten_of_mem member))

theorem Tree.find_eq {recs : List Bytes} (sorted : t.Sorted vol cmp recs) :
    t.find vol cmp = recs.find? fun rec => decide (cmp rec = .eq) := by
  rcases sorted.leads with ⟨none_, rfl⟩ | holds
  · rw [Tree.find, none_]
    cases t.height <;> rfl
  · exact Tree.findFrom_eq holds sorted.ordered

end

/-- Every scan ends, and meets a chain with an end to that end; on one that comes
back it answers that it was not all, unless the visitor stopped it.  A search of
a tree in order finds the record a scan meets.  A fork is read as the extents of
its record and then those of the overflow tree. -/
theorem trees_exact (t : Tree) (vol : Bytes) :
    (∀ rounds, t.limit + 2 ≤ rounds → ∀ (σ : Type) (each : σ → Bytes → Bool × σ) s,
      t.scanFor vol each rounds t.firstLeaf ⟨0, 0, 1, 0⟩ s = t.scan vol each s) ∧
    (∀ nodes recs whole, Chain t vol t.firstLeaf nodes recs whole → nodes.Nodup ∧
      ∀ (σ : Type) (each : σ → Bytes → Bool × σ) s,
        t.scan vol each s = answer each whole recs s) ∧
    (t.Loops vol → ∃ recs, ∀ (σ : Type) (each : σ → Bytes → Bool × σ) s,
      t.scan vol each s = answer each false recs s) ∧
    (∀ cmp recs, t.Sorted vol cmp recs →
      t.find vol cmp = recs.find? fun rec => decide (cmp rec = .eq)) ∧
    ∀ block fork id kind, ∃ more,
      Overflow t vol id kind ((fork.size + block - 1) / block) maxOverflowLookups
        (total fork.extents) more ∧
      ∀ off len, Reads (fork.extents ++ more) block vol off len []
        ((mapOf t block vol fork id kind).read vol off len []) := by
  have start : Taken t [] ⟨0, 0, 1, 0⟩ :=
    ⟨rfl, Or.inl rfl, List.nodup_nil, fun n member => by cases member⟩
  refine ⟨fun rounds enough σ each s => ?_, fun nodes recs whole chain =>
    ⟨chain.nodup, fun σ each s => ?_⟩, fun loops =>
      ⟨(t.metFor vol (t.limit + 2) t.firstLeaf ⟨0, 0, 1, 0⟩).1, fun σ each s => ?_⟩,
    fun cmp recs sorted => Tree.find_eq sorted, fun block fork id kind => ?_⟩
  · rw [Tree.scan, Tree.scanFor_eq, Tree.scanFor_eq,
      Tree.metFor_rounds (Nat.zero_le _) (show t.limit < t.limit + 2 + 0 by omega)
        enough]
  · rw [Tree.scan, Tree.scanFor_eq, chain.met start (fun m _ => List.not_mem_nil)
      (by dsimp only; omega)]
  · have part : (t.metFor vol (t.limit + 2) t.firstLeaf ⟨0, 0, 1, 0⟩).2 = false :=
      Bool.eq_false_iff.mpr fun whole => by
        obtain ⟨nodes, recs, chain⟩ := Tree.metFor_whole whole
        exact loops.endless chain
    rw [Tree.scan, Tree.scanFor_eq, part]
  · obtain ⟨more, later, of, same⟩ := mapOf_of t block vol fork id kind
    refine ⟨more, later, fun off len => ?_⟩
    have read := Map.read_spec of vol off len []
    rwa [same] at read

def sampleNode (next kind height : UInt8) (first second : Bytes) : Bytes :=
  let start (size : Nat) : Bytes := [0, UInt8.ofNat (14 + size)]
  let free := 492 - first.length - second.length
  [0, 0, 0, next, 0, 0, 0, 0, kind, height, 0, 2, 0, 0] ++ first ++ second ++
    List.replicate free 0 ++ start (first.length + second.length) ++
    start first.length ++ start 0

def sampleRec (key : UInt8) : Bytes := [0, 1, key, 0]

def sampleEntry (key child : UInt8) : Bytes := sampleRec key ++ [0, 0, 0, child]

/-- A root over two leaves of two records each, the second of which goes on at
`next`. -/
def sampleVol (next : UInt8) : Bytes :=
  List.replicate 512 0 ++
    sampleNode 0 0 2 (sampleEntry 3 2) (sampleEntry 7 3) ++
    sampleNode 3 0xFF 1 (sampleRec 3) (sampleRec 5) ++
    sampleNode next 0xFF 1 (sampleRec 7) (sampleRec 9)

def sampleTree : Tree := ⟨⟨512, [(0, ⟨0, 4⟩)], 4⟩, 512, 1, 2, 2⟩

def sampleRecs : List Bytes := [3, 5, 7, 9].map sampleRec

/-- A record's key against one wanted. -/
def cmpKey (key : UInt8) (rec : Bytes) : Ordering := compare (rec.getD 2 0) key

theorem sampleTree_node {vol : Bytes} {n : Nat} {test : Node → Bool}
    (read : (sampleTree.node vol n).any test = true) :
    ∃ nd, sampleTree.node vol n = some nd ∧ test nd = true :=
  (Option.any_eq_true _ _).mp read

theorem sampleTree_leaf {vol : Bytes} {n next : Nat} {here : List Bytes}
    (read : (sampleTree.node vol n).any (fun nd => nd.kind = leafKind ∧
      nd.height = 1 ∧ nd.next = next ∧ nd.records nd.count 0 = (here, true)) =
        true) :
    ∃ nd, sampleTree.node vol n = some nd ∧ sampleTree.leaf vol n = some nd ∧
      nd.kind = leafKind ∧ nd.height = 1 ∧ nd.next = next ∧
      nd.records nd.count 0 = (here, true) := by
  obtain ⟨nd, held, parts⟩ := sampleTree_node read
  have parts := of_decide_eq_true parts
  exact ⟨nd, held, Option.filter_eq_some_iff.mpr ⟨held, decide_eq_true parts.1⟩,
    parts⟩

theorem sampleTree_chain :
    Chain sampleTree (sampleVol 0) 2 [2, 3] sampleRecs true := by
  obtain ⟨nd, -, first, -, -, next, here⟩ :=
    @sampleTree_leaf (sampleVol 0) 2 3 [sampleRec 3, sampleRec 5]
      (by decide +kernel)
  obtain ⟨last, -, second, -, -, stops, there⟩ :=
    @sampleTree_leaf (sampleVol 0) 3 0 [sampleRec 7, sampleRec 9]
      (by decide +kernel)
  have tail : Chain sampleTree (sampleVol 0) 3 [3] [sampleRec 7, sampleRec 9]
      true := .leaf (by decide) second there (stops ▸ .ended)
  exact .leaf (by decide) first here (next ▸ tail)

theorem sampleTree_loops : sampleTree.Loops (sampleVol 2) := by
  obtain ⟨nd, -, first, -, -, next, here⟩ :=
    @sampleTree_leaf (sampleVol 2) 2 3 [sampleRec 3, sampleRec 5]
      (by decide +kernel)
  obtain ⟨last, -, second, -, -, back, there⟩ :=
    @sampleTree_leaf (sampleVol 2) 3 2 [sampleRec 7, sampleRec 9]
      (by decide +kernel)
  have on : sampleTree.Next (sampleVol 2) 2 3 :=
    ⟨by decide, nd, _, first, here, next⟩
  have again : sampleTree.Next (sampleVol 2) 3 2 :=
    ⟨by decide, last, _, second, there, back⟩
  exact ⟨2, .refl, .tail (.single on) again⟩

theorem sampleTree_holds (key : UInt8) :
    sampleTree.Holds (sampleVol 0) (cmpKey key) 2 1 sampleRecs := by
  obtain ⟨root, held, parts⟩ := @sampleTree_node (sampleVol 0) 1
    (fun nd => nd.kind = indexKind ∧ nd.height = 2 ∧
      nd.records nd.count 0 = ([sampleEntry 3 2, sampleEntry 7 3], true))
    (by decide +kernel)
  obtain ⟨kind, high, index⟩ := of_decide_eq_true parts
  obtain ⟨nd, first, -, leaf, low, -, here⟩ :=
    @sampleTree_leaf (sampleVol 0) 2 3 [sampleRec 3, sampleRec 5]
      (by decide +kernel)
  obtain ⟨last, second, -, leaf', low', -, there⟩ :=
    @sampleTree_leaf (sampleVol 0) 3 0 [sampleRec 7, sampleRec 9]
      (by decide +kernel)
  exact ⟨by decide, root, _, [[sampleRec 3, sampleRec 5],
    [sampleRec 7, sampleRec 9]], held, high, kind, index, rfl,
    .cons ⟨rfl, by decide, nd, first, low, leaf, here⟩
      (.cons ⟨rfl, by decide, last, second, low', leaf', there⟩ .nil)⟩

/-- A scan of two leaves passes their records in order, a search through the root
finds a record of the first leaf that is no key of the root, and none where there
is none, and leaves that lead to each other are no whole chain. -/
theorem trees_exact_two :
    sampleTree.scan (sampleVol 0) (fun met rec => (true, met ++ [rec])) [] =
      (true, sampleRecs) ∧
    sampleTree.find (sampleVol 0) (cmpKey 5) = some (sampleRec 5) ∧
    sampleTree.find (sampleVol 0) (cmpKey 6) = none ∧
    (sampleTree.scan (sampleVol 2) (fun (s : Unit) _ => (true, s)) ()).1 =
      false := by
  have met := ((trees_exact sampleTree (sampleVol 0)).2.1 _ _ _
    sampleTree_chain).2 _ (fun met rec => (true, met ++ [rec])) []
  have find (key : UInt8) (ordered : InOrder (cmpKey key) sampleRecs) :
      sampleTree.find (sampleVol 0) (cmpKey key) =
        sampleRecs.find? fun rec => decide (cmpKey key rec = .eq) :=
    (trees_exact sampleTree (sampleVol 0)).2.2.2.1 _ _
      ⟨met, .inr (sampleTree_holds key), ordered⟩
  obtain ⟨recs, loops⟩ :=
    (trees_exact sampleTree (sampleVol 2)).2.2.1 sampleTree_loops
  have on : ∀ recs, visit (fun (s : Unit) _ => (true, s)) recs () = (true, ()) := by
    intro recs
    induction recs with
    | nil => rfl
    | cons rec recs ih => exact ih
  refine ⟨met, ?_, ?_, ?_⟩
  · rw [find 5 (by unfold InOrder; decide)]
    decide
  · rw [find 6 (by unfold InOrder; decide)]
    decide
  · rw [loops, answer, on]

/-- A scan of leaves that lead to each other is not refused where the visitor
stops it. -/
theorem scan_loop_stopped :
    ¬∀ (t : Tree) (vol : Bytes) (σ : Type) (each : σ → Bytes → Bool × σ) (s : σ),
      t.Loops vol → (t.scan vol each s).1 = false := by
  intro refused
  have stopped : (sampleTree.scan (sampleVol 2)
      (fun (s : Unit) _ => (false, s)) ()).1 = true := by decide +kernel
  exact Bool.false_ne_true ((refused _ _ _ _ _ sampleTree_loops).symm.trans stopped)

end Exav.Unpack.Hfs
