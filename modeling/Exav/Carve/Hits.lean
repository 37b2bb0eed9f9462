import Mathlib.Data.Finset.Sigma
import Exav.Carve.Search
import Exav.Lib.Lowest

/-!
# What carving is to find

The candidates of each kind, one offset at a time, with no window, no order of
reading and no early stop.
-/

namespace Exav.Carve

open Exav.Lib

/-- The magic that starts at `off`. -/
def magicAt (src : ByteSource) (off : Nat) : Option Magic :=
  (carveMagics.find? fun magic =>
    src.window off magic.1.length = magic.1).map (·.2)

def isPe (src : ByteSource) (off : Nat) : Prop :=
  0 < off ∧ magicAt src off = some .pe ∧ peAt src off

def isElf (src : ByteSource) (off : Nat) : Prop :=
  0 < off ∧ magicAt src off = some .elf ∧ elfAt src off

def isMacho (src : ByteSource) (off : Nat) : Prop :=
  0 < off ∧
    ((∃ be, magicAt src off = some (.machoThin be) ∧ machoThinAt src off be) ∨
      (magicAt src off = some .machoFat ∧ machoFatAt src off))

def isArchive (src : ByteSource) (off : Nat) : Prop :=
  0 < off ∧ magicAt src off = some .archive ∧ archiveAt src off

/-- The sizes the ZIP local header at `header` declares lead to the one at
`off`, the first after it. -/
structure LeadsTo (src : ByteSource) (header off : Nat) : Prop where
  next : zipNextHeader src header = some off
  first : ∀ between, header < between → between < off → ¬ zipAt src between
  zip : zipAt src off

/-- The chain of a listed or leading ZIP leads to the ZIP local header at
`off`. -/
inductive Led (src : ByteSource) (listed : Nat → Prop) : Nat → Prop where
  | first {header off : Nat} :
      header = 0 ∨ listed header → LeadsTo src header off → Led src listed off
  | next {header off : Nat} :
      Led src listed header → LeadsTo src header off → Led src listed off

/-- An archive a ZIP's chain does not lead to. -/
def isOwnArchive (src : ByteSource) (listed : List Nat) (off : Nat) : Prop :=
  isArchive src off ∧ ¬ Led src (· ∈ listed) off

/-- The lowest candidates of each kind, and a group capped exactly when one of
its candidates was left out. -/
structure Carved (src : ByteSource) (found : Embedded) : Prop where
  pe : Lowest (isPe src) maxEmbeddedPe found.pe
  elf : Lowest (isElf src) maxEmbeddedPe found.elf
  macho : Lowest (isMacho src) maxEmbeddedPe found.macho
  archives :
    Lowest (isOwnArchive src found.archives) maxEmbeddedArchives found.archives
  peCapped : found.peCapped ↔ LeftOut (isPe src) found.pe
  othersCapped : found.othersCapped ↔
    LeftOut (isElf src) found.elf ∨ LeftOut (isMacho src) found.macho ∨
      LeftOut (isOwnArchive src found.archives) found.archives

/-! ## The chain of a ZIP -/

theorem le_zipNextHeader {src : ByteSource} {off next : Nat}
    (leads : zipNextHeader src off = some next) : off + 30 ≤ next := by
  unfold zipNextHeader at leads
  dsimp only at leads
  by_cases short : (src.window off 30).length ≠ 30 ∨
      window (src.window off 30) 0 4 ≠ [80, 75, 3, 4]
  · simp [short] at leads
  · rw [if_neg short] at leads
    split at leads
    · simp at leads
    · split at leads
      · simp at leads
      · have value := Option.some.inj leads
        omega

theorem LeadsTo.later {src : ByteSource} {header off : Nat}
    (leads : LeadsTo src header off) : header < off := by
  have bound := le_zipNextHeader leads.next
  omega

theorem led_iff {src : ByteSource} {listed : Nat → Prop} {off : Nat} :
    Led src listed off ↔
      ∃ header, (header = 0 ∨ listed header ∨ Led src listed header) ∧
        LeadsTo src header off := by
  constructor
  · intro led
    cases led with
    | first origin leads => exact ⟨_, by tauto, leads⟩
    | next earlier leads => exact ⟨_, by tauto, leads⟩
  · intro ⟨header, origin, leads⟩
    rcases origin with leading | isListed | led
    · exact .first (Or.inl leading) leads
    · exact .first (Or.inr isListed) leads
    · exact .next led leads

/-- What leads to a header lies before it, so a chain depends only on what is
listed below. -/
theorem Led.of_agree {src : ByteSource} {listed listed' : Nat → Prop} {off : Nat}
    (led : Led src listed off)
    (agree : ∀ o, o < off → listed o → listed' o) : Led src listed' off := by
  induction led with
  | first origin leads =>
      exact .first (origin.imp_right (agree _ leads.later)) leads
  | next _ leads induction =>
      apply Led.next _ leads
      apply induction
      intro o below
      exact agree o (below.trans leads.later)

theorem led_congr {src : ByteSource} {listed listed' : Nat → Prop} {off : Nat}
    (agree : ∀ o, o < off → (listed o ↔ listed' o)) :
    Led src listed off ↔ Led src listed' off :=
  ⟨fun led => led.of_agree fun o below => (agree o below).mp,
    fun led => led.of_agree fun o below => (agree o below).mpr⟩

/-!
## The magics of a window

A window that runs far enough into the next shows every magic that starts in
the bytes it owns, and no other.
-/

/-- A needle's first byte does not come again in it, so no occurrence overlaps
another. -/
def FirstOnce (needle : Bytes) : Prop :=
  ∃ b rest, needle = b :: rest ∧ b ∉ rest

/-- Where `needle` starts in `hay`, every offset looked at. -/
def starts (needle : Bytes) : Bytes → (pos : Nat) → List Nat
  | [], _ => []
  | b :: hay, pos =>
      if needle.isPrefixOf (b :: hay) then pos :: starts needle hay (pos + 1)
      else starts needle hay (pos + 1)

private theorem starts_append {b : UInt8} {needle passed : Bytes}
    (absent : b ∉ passed) (hay : Bytes) (pos : Nat) :
    starts (b :: needle) (passed ++ hay) pos =
      starts (b :: needle) hay (pos + passed.length) := by
  induction passed generalizing pos with
  | nil => rfl
  | cons c passed induction =>
      obtain ⟨other, absent⟩ := not_or.mp (mt List.mem_cons.mpr absent)
      have here : (b :: needle).isPrefixOf (c :: (passed ++ hay)) = false := by
        simp [List.isPrefixOf, other]
      rw [List.cons_append, starts, here, if_neg (by simp), induction absent,
        List.length_cons]
      congr 1
      omega

private theorem findFrom_eq {needle : Bytes} (once : FirstOnce needle)
    (rounds : Nat) (hay : Bytes) (pos : Nat) (enough : hay.length ≤ rounds) :
    findFrom needle rounds hay pos = starts needle hay pos := by
  obtain ⟨first, rest, rfl, absent⟩ := once
  induction rounds generalizing hay pos with
  | zero =>
      have empty : hay = [] := List.length_eq_zero_iff.mp (by omega)
      rw [empty]
      rfl
  | succ rounds induction =>
      cases hay with
      | nil => rfl
      | cons b hay =>
          rw [List.length_cons] at enough
          rw [findFrom, starts]
          by_cases here : (first :: rest).isPrefixOf (b :: hay)
          · obtain ⟨after, parts⟩ := List.isPrefixOf_iff_prefix.mp here
            obtain ⟨rfl, split⟩ := List.cons_eq_cons.mp parts
            have split : hay = rest ++ after := split.symm
            subst split
            rw [if_pos here, if_pos here, List.length_cons, List.drop_succ_cons,
              List.drop_left, starts_append absent, induction]
            · congr 2
              omega
            · rw [List.length_append] at enough
              omega
          · rw [if_neg here, if_neg here]
            exact induction hay (pos + 1) (by omega)

theorem mem_starts {needle hay : Bytes} {pos o : Nat} :
    o ∈ starts needle hay pos ↔
      ∃ i < hay.length, o = pos + i ∧ needle.isPrefixOf (hay.drop i) := by
  induction hay generalizing pos with
  | nil => simp [starts]
  | cons b hay induction =>
      have step : o ∈ starts needle (b :: hay) pos ↔
          (o = pos ∧ needle.isPrefixOf (b :: hay)) ∨
            o ∈ starts needle hay (pos + 1) := by
        rw [starts]
        split
        · rename_i here
          simp [here]
        · rename_i here
          simp [here]
      rw [step, induction]
      constructor
      · intro found
        rcases found with ⟨rfl, here⟩ | ⟨i, inside, rfl, here⟩
        · exact ⟨0, by simp, rfl, here⟩
        · exact ⟨i + 1, by simpa using inside, by omega, by simpa using here⟩
      · intro ⟨i, inside, equal, here⟩
        cases i with
        | zero => exact Or.inl ⟨equal, here⟩
        | succ i =>
            refine Or.inr ⟨i, by simpa using inside, by omega, ?_⟩
            simpa using here

theorem ascending_starts (needle hay : Bytes) (pos : Nat) :
    (starts needle hay pos).Pairwise (· < ·) := by
  induction hay generalizing pos with
  | nil => exact List.Pairwise.nil
  | cons b hay induction =>
      rw [starts]
      split
      · apply List.pairwise_cons.mpr
        refine ⟨?_, induction (pos + 1)⟩
        intro o later
        obtain ⟨i, _, rfl, _⟩ := mem_starts.mp later
        omega
      · exact induction (pos + 1)

theorem findIter_eq {needle : Bytes} (once : FirstOnce needle) (hay : Bytes) :
    findIter needle hay = starts needle hay 0 :=
  findFrom_eq once hay.length hay 0 le_rfl

private theorem mem_takeWhile_lt {xs : List Nat}
    (ascending : xs.Pairwise (· < ·)) {bound x : Nat} :
    x ∈ xs.takeWhile (· < bound) ↔ x ∈ xs ∧ x < bound := by
  induction xs with
  | nil => simp
  | cons y xs induction =>
      obtain ⟨first, rest⟩ := List.pairwise_cons.mp ascending
      by_cases below : y < bound
      · simp only [List.takeWhile_cons, below, decide_true, if_true,
          List.mem_cons, induction rest]
        constructor
        · intro found
          rcases found with rfl | ⟨listed, bounded⟩
          · exact ⟨Or.inl rfl, below⟩
          · exact ⟨Or.inr listed, bounded⟩
        · intro ⟨listed, bounded⟩
          exact listed.imp_right fun later => ⟨later, bounded⟩
      · simp only [List.takeWhile_cons, below, decide_false,
          Bool.false_eq_true, if_false, List.not_mem_nil, List.mem_cons,
          false_iff, not_and]
        intro listed bounded
        rcases listed with rfl | later
        · exact below bounded
        · have after := first x later
          omega

/-! ## The magics themselves -/

theorem firstOnce_of_mem {magic : Bytes × Magic} (listed : magic ∈ carveMagics) :
    FirstOnce magic.1 := by
  have all : ∀ m ∈ carveMagics,
      m.1 ≠ [] ∧ m.1.head?.all fun b => !m.1.tail.contains b := by decide
  obtain ⟨needle, kind⟩ := magic
  have found := all _ listed
  cases needle with
  | nil => exact absurd rfl found.1
  | cons b rest => exact ⟨b, rest, rfl, by simpa using found.2⟩

theorem length_magic_le {magic : Bytes × Magic} (listed : magic ∈ carveMagics) :
    magic.1.length ≤ overlap + 1 := by
  have all : ∀ m ∈ carveMagics, m.1.length ≤ overlap + 1 := by decide
  exact all magic listed

theorem magic_unique {a b : Bytes × Magic} {bytes : Bytes}
    (first : a ∈ carveMagics) (second : b ∈ carveMagics)
    (startsA : a.1 <+: bytes) (startsB : b.1 <+: bytes) : a = b := by
  have all : ∀ a ∈ carveMagics, ∀ b ∈ carveMagics,
      a.1.isPrefixOf b.1 = true → a = b := by decide
  rcases List.prefix_or_prefix_of_prefix startsA startsB with before | after
  · exact all a first b second (List.isPrefixOf_iff_prefix.mpr before)
  · exact (all b second a first (List.isPrefixOf_iff_prefix.mpr after)).symm

theorem window_eq_iff {data needle : Bytes} {off : Nat} :
    window data off needle.length = needle ↔ needle <+: data.drop off := by
  rw [window, List.prefix_iff_eq_take, eq_comm]

theorem magicAt_eq_some {data : Bytes} {inMemory : Bool} {off : Nat}
    {kind : Magic} :
    magicAt (.of data inMemory) off = some kind ↔
      ∃ magic ∈ carveMagics, magic.2 = kind ∧ magic.1 <+: data.drop off := by
  have read : ∀ magic : Bytes × Magic,
      (ByteSource.of data inMemory).window off magic.1.length = magic.1 ↔
        magic.1 <+: data.drop off := fun _ => window_eq_iff
  unfold magicAt
  rw [Option.map_eq_some_iff]
  constructor
  · intro ⟨magic, found, same⟩
    refine ⟨magic, List.mem_of_find?_eq_some found, same, ?_⟩
    apply (read magic).mp
    simpa using List.find?_some found
  · intro ⟨magic, listed, same, here⟩
    cases found : carveMagics.find? fun magic =>
        (ByteSource.of data inMemory).window off magic.1.length = magic.1 with
    | none =>
        have absent := List.find?_eq_none.mp found magic listed
        exact absurd ((read magic).mpr here) (by simpa using absent)
    | some other =>
        have there : other.1 <+: data.drop off :=
          (read other).mp (by simpa using List.find?_some found)
        have equal := magic_unique (List.mem_of_find?_eq_some found) listed
          there here
        exact ⟨other, rfl, by rw [equal, same]⟩

theorem lt_of_magicAt {data : Bytes} {inMemory : Bool} {off : Nat} {kind : Magic}
    (here : magicAt (.of data inMemory) off = some kind) : off < data.length := by
  obtain ⟨magic, listed, -, before⟩ := magicAt_eq_some.mp here
  obtain ⟨b, rest, shape, -⟩ := firstOnce_of_mem listed
  have bound := before.length_le
  rw [shape, List.length_cons, List.length_drop] at bound
  omega

/-! ## One window -/

/-- A window at `base` whose first `owned` bytes are its own runs `overlap`
bytes further, or to the end of the object. -/
structure Seen (data : Bytes) (base owned : Nat) (w : Bytes) : Prop where
  bytes : w = window data base w.length
  owns : owned ≤ w.length
  runOn : owned + overlap ≤ w.length ∨ data.length ≤ base + w.length

private theorem drop_window {data w : Bytes} {base : Nat}
    (bytes : w = window data base w.length) (p : Nat) :
    w.drop p = (data.drop (base + p)).take (w.length - p) := by
  conv_lhs => rw [bytes, window]
  rw [List.drop_take, List.drop_drop]

private theorem prefix_drop_iff {data w : Bytes} {base owned p : Nat}
    {magic : Bytes × Magic} (seen : Seen data base owned w) (inside : p < owned)
    (listed : magic ∈ carveMagics) :
    magic.1 <+: w.drop p ↔ magic.1 <+: data.drop (base + p) := by
  rw [drop_window seen.bytes p, List.prefix_take_iff]
  refine ⟨And.left, ?_⟩
  intro here
  refine ⟨here, ?_⟩
  have bound := here.length_le
  have short := length_magic_le listed
  rw [List.length_drop] at bound
  rcases seen.runOn with further | ends
  · omega
  · have size := congrArg List.length seen.bytes
    rw [length_window] at size
    omega

private theorem mem_hits {data w : Bytes} (inMemory : Bool)
    {base owned off : Nat} {kind : Magic} (seen : Seen data base owned w) :
    (off, kind) ∈ Carving.hitsIn base w owned ↔
      (base ≤ off ∧ off < base + owned) ∧
        magicAt (.of data inMemory) off = some kind := by
  rw [Carving.hitsIn, List.mem_mergeSort, List.mem_flatMap, magicAt_eq_some]
  constructor
  · intro ⟨magic, listed, found⟩
    obtain ⟨p, here, equal⟩ := List.mem_map.mp found
    clear found
    obtain ⟨rfl, rfl⟩ := Prod.mk.inj equal
    rw [findIter_eq (firstOnce_of_mem listed),
      mem_takeWhile_lt (ascending_starts _ _ _), mem_starts] at here
    obtain ⟨⟨i, _, same, here⟩, inside⟩ := here
    rw [Nat.zero_add] at same
    subst same
    refine ⟨⟨by omega, by omega⟩, magic, listed, rfl, ?_⟩
    apply (prefix_drop_iff seen inside listed).mp
    exact List.isPrefixOf_iff_prefix.mp here
  · intro ⟨⟨after, before⟩, magic, listed, same, here⟩
    obtain ⟨p, rfl⟩ := Nat.exists_eq_add_of_le after
    have inside : p < owned := by omega
    refine ⟨magic, listed, List.mem_map.mpr ⟨p, ?_, by rw [same]⟩⟩
    rw [findIter_eq (firstOnce_of_mem listed),
      mem_takeWhile_lt (ascending_starts _ _ _), mem_starts]
    refine ⟨⟨p, ?_, by omega, ?_⟩, inside⟩
    · have owns := seen.owns
      omega
    · apply List.isPrefixOf_iff_prefix.mpr
      exact (prefix_drop_iff seen inside listed).mpr here

private theorem nodup_hits {w : Bytes} {base owned : Nat} :
    (Carving.hitsIn base w owned).Nodup := by
  rw [Carving.hitsIn, (List.mergeSort_perm _ _).nodup_iff, List.nodup_flatMap]
  refine ⟨?_, ?_⟩
  · intro magic listed
    rw [findIter_eq (firstOnce_of_mem listed)]
    apply List.Nodup.map
    · intro p q equal
      have first := (Prod.mk.inj equal).1
      omega
    · have whole : (starts magic.1 w 0).Nodup :=
        (ascending_starts magic.1 w 0).imp ne_of_lt
      exact whole.sublist (List.takeWhile_sublist _)
  · have distinct : carveMagics.Nodup := by decide
    apply distinct.pairwise_of_forall_ne
    intro a first b second differ
    rw [Function.onFun, List.disjoint_left]
    intro hit ofA ofB
    obtain ⟨p, foundA, rfl⟩ := List.mem_map.mp ofA
    obtain ⟨q, foundB, equal⟩ := List.mem_map.mp ofB
    have same : q = p := by
      have offsets := (Prod.mk.inj equal).1
      omega
    subst same
    rw [findIter_eq (firstOnce_of_mem first),
      mem_takeWhile_lt (ascending_starts _ _ _), mem_starts] at foundA
    rw [findIter_eq (firstOnce_of_mem second),
      mem_takeWhile_lt (ascending_starts _ _ _), mem_starts] at foundB
    obtain ⟨⟨i, _, atI, hereA⟩, _⟩ := foundA
    obtain ⟨⟨j, _, atJ, hereB⟩, _⟩ := foundB
    have equal : i = j := by omega
    subst equal
    apply differ
    exact magic_unique first second (List.isPrefixOf_iff_prefix.mp hereA)
      (List.isPrefixOf_iff_prefix.mp hereB)

theorem hitsIn_eq {data w : Bytes} {inMemory : Bool} {base owned : Nat}
    (seen : Seen data base owned w) :
    Carving.hitsIn base w owned =
      (List.range' base owned).filterMap fun off =>
        (magicAt (.of data inMemory) off).map (off, ·) := by
  have offset : ∀ off, ∀ hit ∈ (magicAt (.of data inMemory) off).map (off, ·),
      hit.1 = off := by
    intro off hit member
    obtain ⟨kind, _, rfl⟩ := Option.map_eq_some_iff.mp member
    rfl
  have ascending : ((List.range' base owned).filterMap fun off =>
      (magicAt (.of data inMemory) off).map (off, ·)).Pairwise
        (fun a b => a.1 < b.1) := by
    rw [List.pairwise_filterMap]
    have range : (List.range' base owned).Pairwise (· < ·) :=
      List.pairwise_lt_range'
    apply range.imp
    intro p q before a ofP b ofQ
    rw [offset p a ofP, offset q b ofQ]
    exact before
  have member : ∀ hit, hit ∈ Carving.hitsIn base w owned ↔
      hit ∈ (List.range' base owned).filterMap fun off =>
        (magicAt (.of data inMemory) off).map (off, ·) := by
    intro hit
    obtain ⟨off, kind⟩ := hit
    rw [mem_hits inMemory seen, List.mem_filterMap]
    constructor
    · intro ⟨range, here⟩
      exact ⟨off, List.mem_range'_1.mpr range, by rw [here]; rfl⟩
    · intro ⟨o, range, here⟩
      have same := offset o _ here
      subst same
      obtain ⟨k, found, equal⟩ := Option.map_eq_some_iff.mp here
      rw [(Prod.mk.inj equal).2] at found
      exact ⟨List.mem_range'_1.mp range, found⟩
  have distinct : ((List.range' base owned).filterMap fun off =>
      (magicAt (.of data inMemory) off).map (off, ·)).Nodup := by
    apply ascending.imp
    intro a b before same
    exact before.ne (congrArg Prod.fst same)
  have permuted := (List.perm_ext_iff_of_nodup nodup_hits distinct).mpr member
  have sorted : (Carving.hitsIn base w owned).Pairwise
      (fun a b => decide (a.1 ≤ b.1) = true) := by
    apply List.pairwise_mergeSort
    · intro a b c first second
      rw [decide_eq_true_iff] at first second ⊢
      exact first.trans second
    · intro a b
      simpa using le_total a.1 b.1
  refine permuted.eq_of_pairwise ?_ sorted ?_
  · intro a b listedA listedB first second
    rw [decide_eq_true_iff] at first second
    rw [mem_hits inMemory seen] at listedA
    rw [← member, mem_hits inMemory seen] at listedB
    have same : a.1 = b.1 := le_antisymm first second
    have kinds : some a.2 = some b.2 := by
      rw [← listedA.2, ← listedB.2, same]
    exact Prod.ext same (Option.some.inj kinds)
  · apply ascending.imp
    intro a b before
    exact decide_eq_true before.le

end Exav.Carve
