import Exav.Unpack.Cfb

/-!
# What the reader gives

The file holds a stream as far as its chain goes, up to its declared size.  A read
gives what is held up to the cap and says whether more is, but for two kinds of
damage: sectors that follow each other in the file are read without the last of
them being in the FAT, and a size past the cap is taken for a stream past it.
Every walk of the reader is over, and has come to each sector or entry at most
once.
-/

namespace Exav.Unpack.Cfb

open Exav.Once

/-! ## Walks -/

theorem chainStep_cases {table : List Nat} {sectorAt : Nat → Option Bytes}
    {size : Nat} {w w' : ChainWalk} {place : Option Nat}
    (stepped : chainStep table sectorAt size w = some (place, w')) :
    place = some w.s ∧ w.s < table.length ∧ ¬ Marked w.seen w.s ∧
      w'.seen = w.seen.set w.s true := by
  unfold chainStep at stepped
  split at stepped
  · split at stepped
    · cases stepped
    · rename_i next found
      split at stepped
      · cases stepped
      · rename_i fresh
        split at stepped
        · cases stepped
        · cases stepped
          exact ⟨rfl, (List.getElem?_eq_some_iff.mp found).1, fresh, rfl⟩
  · cases stepped

theorem endsOnce_chain (table : List Nat) (sectorAt : Nat → Option Bytes)
    (size start : Nat) :
    EndsOnce (chainStep table sectorAt size) table.length (.init table start) := by
  have marks := Marks.ofList (chainStep table sectorAt size)
    ChainWalk.seen (fun _ => 0) table.length 1 ?_
  · apply marks.endsOnce List.length_replicate
    have most := unmarked_le (List.replicate table.length false)
    rw [List.length_replicate] at most
    show 1 * unmarked (List.replicate table.length false) + 0 ≤ table.length
    omega
  · intro w place w' stepped
    obtain ⟨rfl, inside, fresh, seen⟩ := chainStep_cases stepped
    exact ⟨⟨inside, fresh⟩, seen, Nat.zero_lt_one⟩

namespace Compound

variable (c : Compound)

theorem endsOnce_difat : EndsOnce c.difatStep c.sectorCount c.difatInit := by
  have marks := Marks.ofList c.difatStep
    DifatWalk.seen (fun _ => 0) c.sectorCount 1 ?_
  · apply marks.endsOnce List.length_replicate
    have most := unmarked_le (List.replicate c.sectorCount false)
    rw [List.length_replicate] at most
    show 1 * unmarked (List.replicate c.sectorCount false) + 0 ≤ c.sectorCount
    omega
  · intro w place w' stepped
    unfold difatStep at stepped
    split at stepped
    · rename_i going
      split at stepped
      · cases stepped
      · cases stepped
        obtain ⟨isSector, fresh⟩ := going
        unfold Compound.isSector at isSector
        rw [Bool.and_eq_true, decide_eq_true_eq, decide_eq_true_eq] at isSector
        exact ⟨⟨isSector.2, fresh⟩, rfl, Nat.zero_lt_one⟩
    · cases stepped

theorem endsOnce_tree :
    EndsOnce (treeStep c.entries) c.treeRounds c.treeInit := by
  have marks := Marks.ofList (treeStep c.entries)
    TreeWalk.seen (fun w => w.members.length + 2 * w.storages.length)
    c.entries.length 4 ?_
  · have length : c.treeInit.seen.length = c.entries.length := by
      simp [treeInit]
    apply marks.endsOnce length
    have most := unmarked_le c.treeInit.seen
    show 4 * unmarked c.treeInit.seen + 2 ≤ 4 * c.entries.length + 2
    omega
  · intro w place w' stepped
    obtain ⟨storages, base, members, seen, paths⟩ := w
    cases members with
    | nil =>
        cases storages with
        | nil => cases stepped
        | cons top storages =>
            cases stepped
            have one : ((c.entries[top.1]?.map Entry.child).toList).length ≤ 1 :=
              Option.length_toList_le
            refine ⟨rfl, ?_⟩
            dsimp only [List.length_cons, List.length_nil]
            omega
    | cons m members =>
        unfold treeStep at stepped
        dsimp only at stepped
        split at stepped
        · cases stepped
          exact ⟨rfl, by dsimp only [List.length_cons]; omega⟩
        · rename_i e found
          split at stepped
          · cases stepped
            exact ⟨rfl, by dsimp only [List.length_cons]; omega⟩
          · rename_i fresh
            cases stepped
            refine ⟨⟨(List.getElem?_eq_some_iff.mp found).1, fresh⟩, rfl, ?_⟩
            dsimp only [List.length_cons]
            split
            · rw [List.length_cons]
              omega
            · omega

theorem endsOnce_members :
    EndsOnce (membersStep c.entries) c.membersRounds c.membersInit := by
  have marks := Marks.ofList (membersStep c.entries)
    MembersWalk.seen (fun w => w.stack.length) c.entries.length 2 ?_
  · apply marks.endsOnce List.length_replicate
    have most := unmarked_le (List.replicate c.entries.length false)
    rw [List.length_replicate] at most
    have one : c.membersInit.stack.length ≤ 1 := Option.length_toList_le
    show 2 * unmarked (List.replicate c.entries.length false) +
      c.membersInit.stack.length ≤ 2 * c.entries.length + 1
    omega
  · intro w place w' stepped
    obtain ⟨stack, seen, out⟩ := w
    cases stack with
    | nil => cases stepped
    | cons i stack =>
        unfold membersStep at stepped
        dsimp only at stepped
        split at stepped
        · cases stepped
          exact ⟨rfl, Nat.lt_succ_self _⟩
        · rename_i e found
          split at stepped
          · cases stepped
            exact ⟨rfl, Nat.lt_succ_self _⟩
          · rename_i fresh
            cases stepped
            exact ⟨⟨(List.getElem?_eq_some_iff.mp found).1, fresh⟩, rfl,
              Nat.lt_succ_self _⟩

/-- Every walk is over within its rounds, and comes nowhere twice. -/
structure WalksOnce : Prop where
  chains : ∀ table sectorAt size start,
    EndsOnce (chainStep table sectorAt size) table.length (.init table start)
  difat : EndsOnce c.difatStep c.sectorCount c.difatInit
  tree : EndsOnce (treeStep c.entries) c.treeRounds c.treeInit
  members : EndsOnce (membersStep c.entries) c.membersRounds c.membersInit

theorem walksOnce : c.WalksOnce where
  chains := endsOnce_chain
  difat := c.endsOnce_difat
  tree := c.endsOnce_tree
  members := c.endsOnce_members

/-! ## Streams -/

def tableOf (e : Entry) : List Nat :=
  if e.size < miniCutoff then c.minifat else c.fat

def sectorOf (e : Entry) : Nat → Option Bytes :=
  if e.size < miniCutoff then c.miniSector else c.sector

/-- What the file holds of a stream: its chain, up to its size. -/
def Holds (index : Nat) (held : Bytes) : Prop :=
  match c.entries[index]? with
  | none => held = []
  | some e => ∃ sectors, Chain (c.tableOf e) (c.sectorOf e) [] e.start sectors ∧
      held = (concat (c.sectorOf e) sectors).take e.size

def ReadsHeld (index cap : Nat) : Prop :=
  ∃ held, c.Holds index held ∧
    c.read index cap = ⟨held.take cap, cap < held.length⟩

def Listed (start want : Nat) : Prop :=
  want = 0 ∨ start + c.sectorsFor want ≤ c.fat.length ∧
    start + c.sectorsFor want ≤ maxRegSect + 1

/-- No contiguous read goes past the FAT, and no size goes past the cap where
what is held of the stream does not. -/
def Undamaged (index cap : Nat) : Prop :=
  ∀ e, c.entries[index]? = some e →
    (miniCutoff ≤ e.size →
      (c.contiguous e.start (min e.size cap)).isSome →
      c.Listed e.start (min e.size cap)) ∧
    (e.size ≤ cap ∨ ∃ held, c.Holds index held ∧ cap < held.length)

variable {c}

theorem sectorsFor_spec {want : Nat} (some_want : 0 < want) :
    ∃ links, c.sectorsFor want = links + 1 ∧ links * c.sectorSize < want ∧
      want ≤ (links + 1) * c.sectorSize := by
  have positive := c.someSector
  refine ⟨(want - 1) / c.sectorSize, ?_, ?_, ?_⟩
  · unfold sectorsFor
    rw [← Nat.add_div_right _ positive]
    congr 1
    omega
  · have least := Nat.div_mul_le_self (want - 1) c.sectorSize
    omega
  · have most := Nat.lt_mul_div_succ (want - 1) positive
    rw [Nat.mul_comm] at most
    omega

/-- What a contiguous read gives: a window, the sectors of which are linked. -/
theorem contiguous_spec {start want : Nat} {d : Bytes}
    (taken : c.contiguous start want = some d) :
    (start + 1) * c.sectorSize + want ≤ c.data.length ∧
      linked c.fat (c.sectorsFor want - 1) start = true ∧
      d = window c.data ((start + 1) * c.sectorSize) want := by
  unfold contiguous at taken
  dsimp only at taken
  split at taken
  · cases taken
  · rename_i inside
    split at taken
    · rename_i run
      cases taken
      exact ⟨Nat.le_of_not_lt inside, run, rfl⟩
    · cases taken

theorem contiguous_iff {start want : Nat} {d : Bytes} {sectors : List Nat}
    (taken : c.contiguous start want = some d)
    (chain : Chain c.fat c.sector [] start sectors) :
    d = (concat c.sector sectors).take want ↔ c.Listed start want := by
  obtain ⟨inside, run, rfl⟩ := contiguous_spec taken
  by_cases idle : want = 0
  · subst idle
    simp [Listed, window]
  · obtain ⟨links, count, more, fits⟩ :=
      sectorsFor_spec (c := c) (Nat.pos_of_ne_zero idle)
    rw [count, Nat.add_sub_cancel] at run
    have listed_iff : c.Listed start want ↔
        start + links < c.fat.length ∧ start + links ≤ maxRegSect := by
      unfold Listed
      rw [count]
      omega
    rw [listed_iff]
    constructor
    · intro same
      by_contra unlisted
      have short := concat_short chain run more (by omega)
      have lengths := congrArg List.length same
      rw [length_window_of_le inside, List.length_take] at lengths
      omega
    · rintro ⟨listed, regular⟩
      exact (concat_linked chain (by simp) run inside more fits listed
        regular).symm

theorem chain_of (c : Compound) (e : Entry) :
    ∃ sectors, Chain (c.tableOf e) (c.sectorOf e) [] e.start sectors :=
  chain_exists (marking_init _) _

theorem Holds.unique {index : Nat} {held other : Bytes}
    (holds : c.Holds index held) (holds' : c.Holds index other) :
    held = other := by
  unfold Holds at holds holds'
  cases found : c.entries[index]? with
  | none =>
      rw [found] at holds holds'
      exact holds.trans holds'.symm
  | some e =>
      rw [found] at holds holds'
      obtain ⟨sectors, chain, rfl⟩ := holds
      obtain ⟨sectors', chain', rfl⟩ := holds'
      rw [chain.unique chain']

theorem readData_length_le (e : Entry) (want : Nat) :
    (c.readData e want).length ≤ want := by
  unfold readData
  split
  · exact List.length_take_le _ _
  · split
    · rename_i d taken
      obtain ⟨-, -, rfl⟩ := contiguous_spec taken
      rw [length_window]
      exact Nat.min_le_left _ _
    · exact List.length_take_le _ _

theorem readData_iff {e : Entry} {want : Nat} {sectors : List Nat}
    (chain : Chain (c.tableOf e) (c.sectorOf e) [] e.start sectors) :
    c.readData e want = (concat (c.sectorOf e) sectors).take want ↔
      (miniCutoff ≤ e.size → (c.contiguous e.start want).isSome →
        c.Listed e.start want) := by
  unfold tableOf sectorOf at chain
  unfold readData sectorOf
  by_cases small : e.size < miniCutoff
  · simp only [if_pos small] at chain ⊢
    have same : c.readMiniChain e.start want = _ := chainBytes_eq chain
    exact ⟨fun _ large => absurd small (Nat.not_lt_of_le large), fun _ => same⟩
  · simp only [if_neg small] at chain ⊢
    have large : miniCutoff ≤ e.size := Nat.le_of_not_lt small
    cases taken : c.contiguous e.start want with
    | none =>
        have same : c.readChain e.start want = _ := chainBytes_eq chain
        exact ⟨fun _ _ none => absurd none Bool.false_ne_true, fun _ => same⟩
    | some d =>
        rw [contiguous_iff taken chain]
        exact ⟨fun listed _ _ => listed, fun listed => listed large rfl⟩

theorem read_eq {index cap : Nat} {e : Entry}
    (found : c.entries[index]? = some e) :
    c.read index cap = ⟨c.readData e (min e.size cap), cap < e.size⟩ := by
  have short := readData_length_le (c := c) e (min e.size cap)
  unfold read
  rw [found]
  dsimp only
  congr 1
  by_cases past : cap < e.size
  · simp only [past, decide_true, Bool.true_and, decide_eq_true_eq]
    omega
  · simp [past]

/-- A read gives what the file holds of the stream, and says whether the cap cut
it, exactly where the file is not damaged in one of two ways; every walk comes to
a sector or an entry at most once, and ends. -/
theorem readsHeld_iff (c : Compound) (index cap : Nat) :
    c.ReadsHeld index cap ∧ c.WalksOnce ↔ c.Undamaged index cap := by
  rw [and_iff_left c.walksOnce]
  cases found : c.entries[index]? with
  | none =>
      constructor
      · intro _ e there
        rw [found] at there
        cases there
      · intro _
        refine ⟨[], ?_, ?_⟩
        · unfold Holds
          rw [found]
        · unfold read
          rw [found]
          simp
  | some e =>
      obtain ⟨sectors, chain⟩ := chain_of c e
      have holds : c.Holds index ((concat (c.sectorOf e) sectors).take e.size) := by
        unfold Holds
        rw [found]
        exact ⟨sectors, chain, rfl⟩
      have short : ((concat (c.sectorOf e) sectors).take e.size).length ≤ e.size :=
        List.length_take_le _ _
      have reads_iff : c.ReadsHeld index cap ↔
          c.readData e (min e.size cap) =
            (concat (c.sectorOf e) sectors).take (min e.size cap) ∧
          (e.size ≤ cap ∨
            cap < ((concat (c.sectorOf e) sectors).take e.size).length) := by
        have only : c.ReadsHeld index cap ↔ c.read index cap =
            ⟨((concat (c.sectorOf e) sectors).take e.size).take cap,
              cap < ((concat (c.sectorOf e) sectors).take e.size).length⟩ := by
          constructor
          · rintro ⟨held, holds', same⟩
            rwa [holds'.unique holds] at same
          · exact fun same => ⟨_, holds, same⟩
        rw [only, read_eq found, List.take_take, Stream.mk.injEq,
          Nat.min_comm cap e.size, decide_eq_decide]
        refine and_congr_right fun _ => ?_
        omega
      rw [reads_iff, readData_iff chain]
      constructor
      · rintro ⟨listed, cut⟩ e' there
        rw [found] at there
        cases there
        exact ⟨listed, cut.imp_right fun past => ⟨_, holds, past⟩⟩
      · intro undamaged
        obtain ⟨listed, cut⟩ := undamaged e found
        refine ⟨listed, cut.imp_right ?_⟩
        rintro ⟨held, holds', past⟩
        rwa [holds'.unique holds] at past

/-! ## A damaged file -/

/-- A file of two sectors past its header: a directory whose one entry declares
5000 bytes from sector 4 on, and a FAT that ends before it. -/
def damaged : Bytes :=
  let le := fun width n =>
    (List.range width).map fun i => UInt8.ofNat (n / 256 ^ i)
  signature ++ List.replicate 22 0 ++ le 2 7 ++ le 2 6 ++ List.replicate 14 0 ++
    le 4 3 ++ List.replicate 24 0xFF ++ le 4 4 ++ List.replicate 432 0xFF ++
    List.replicate 116 0 ++ le 4 4 ++ le 4 5000 ++ List.replicate 4 0 ++
    List.replicate 16 0xFF

theorem holds_outside {index : Nat} {e : Entry} {held : Bytes}
    (found : c.entries[index]? = some e) (large : miniCutoff ≤ e.size)
    (outside : c.fat.length ≤ e.start) (holds : c.Holds index held) : held = [] := by
  unfold Holds at holds
  rw [found] at holds
  obtain ⟨sectors, chain, rfl⟩ := holds
  have table : c.tableOf e = c.fat := if_neg (Nat.not_lt_of_le large)
  rw [table] at chain
  have excess := chain.unique (.outside (List.getElem?_eq_none outside))
  rw [excess, concat, List.flatMap_nil, List.take_nil]

/-- The damaged file gives ten bytes of a stream with none, and calls it cut. -/
theorem not_readsHeld_damaged :
    ∃ c, openFile damaged = some c ∧ ¬ c.ReadsHeld 0 10 := by
  have opened : (openFile damaged).map (fun c => (c.read 0 10, c.fat.length,
      c.entries.map fun e => (e.start, e.size))) =
      some (⟨List.replicate 10 0xFF, true⟩, 4, [(4, 5000)]) := by
    decide +kernel
  obtain ⟨c, same, parts⟩ := Option.map_eq_some_iff.mp opened
  obtain ⟨read_is, fat, entries⟩ := by simpa only [Prod.mk.injEq] using parts
  obtain ⟨e, one, at_entry⟩ := List.map_eq_singleton_iff.mp entries
  rw [Prod.mk.injEq] at at_entry
  have found : c.entries[0]? = some e := by rw [one]; rfl
  refine ⟨c, same, ?_⟩
  rintro ⟨held, holds, reads⟩
  have nothing := holds_outside found (by rw [at_entry.2]; decide)
    (by rw [fat, at_entry.1]) holds
  rw [read_is, nothing] at reads
  cases reads

end Compound

end Exav.Unpack.Cfb
