import Exav.Carve.Whole

/-!
# What the scan of one object works out about all of it

For an object not held in memory, the first step to ask makes one read of it
for its digests, the search detection makes, and carving.
-/

namespace Exav.Carve

variable {H P F : Type}

/-- What else the one read serves, whatever it computes: digests, and the search
by which an object without a magic is detected. -/
structure Services (H P F : Type) where
  newHashing : H
  update : H → Bytes → H
  digestsWanted : ByteSource → H
  newPrescan : (head : Bytes) → P
  feed : P → (base : Nat) → Bytes → (last : Bool) → P
  done : P → Bool
  detect : ByteSource → F
  detectPrescanned : ByteSource → F ⊕ (P → F)

/-- What the one read is for: whether digests are wanted and carving is, and
the far candidates carving holds before it checks them. -/
structure Shared where
  want : Bool
  carve : Bool
  far : Nat

structure Facts (H P F : Type) where
  fmt : Option F
  digests : Option H
  embedded : Option Embedded
  /-- What the one read is for, until it is made. -/
  shared : Option Shared
  /-- What that read found for detection, until detection asks. -/
  prescan : Option P

namespace Facts

/-- Each fact worked out by a read of its own when asked. -/
def new : Facts H P F := ⟨none, none, none, none, none⟩

/-- When the object is not held in memory, all worked out in one read. -/
def forScan (src : ByteSource) (shared : Shared) : Facts H P F :=
  { (new : Facts H P F) with
    shared := if src.inMemory then none else some shared }

end Facts

/-- Bytes of an object's start the checks of detection read. -/
def detectHead : Nat := 4 * 1024 * 1024 + 1024

namespace Services

/-- Bytes each window must run into the next for detection's search. -/
def prescanOverlap : Nat := 32

/-- Detection can ask for the search on an object of `len` bytes. -/
def prescanNeeded (len : Nat) : Bool :=
  len > detectHead

structure Read (H P : Type) where
  hashing : Option H
  carving : Option Carving
  prescan : Option P

/-- The one read of an object, from `base` on. -/
def readFrom (sv : Services H P F) (src : ByteSource) (search : Bool) :
    (rounds base : Nat) → Read H P → Read H P
  | 0, _, r => r
  | rounds + 1, base, r =>
      if base < src.len then
        let w := src.window base (min (src.len - base) chunk)
        if w.isEmpty then r
        else
          let r := if base = 0 ∧ search then
              { r with prescan := some (sv.newPrescan w) }
            else r
          let searching := r.prescan.any (!sv.done ·) || r.carving.any (!·.full)
          if r.hashing.isNone ∧ !searching then r
          else
            let last : Bool := base + w.length ≥ src.len
            let owned := if last then w.length
              else max (w.length - max prescanOverlap overlap) 1
            sv.readFrom src search rounds (base + owned)
              { hashing := r.hashing.map (sv.update · (w.take owned))
                carving := r.carving.map (·.feed src base w owned)
                prescan := r.prescan.map (sv.feed · base w last) }
      else r

/-- The one read of an object not held in memory, the first time a step asks,
if it was not made yet. -/
def readOnce (sv : Services H P F) (src : ByteSource) (f : Facts H P F) :
    Facts H P F :=
  match f.shared with
  | none => f
  | some shared =>
      let f := { f with shared := none }
      let search := f.fmt.isNone && prescanNeeded src.len
      if !shared.want ∧ !shared.carve ∧ !search then f
      else
        let r := sv.readFrom src search src.len 0
          { hashing := if shared.want then some sv.newHashing else none
            carving := if shared.carve then some (.new shared.far) else none
            prescan := none }
        { f with
          digests := f.digests.or r.hashing
          embedded := match r.carving with
            | some c => some (c.settle src).found
            | none => f.embedded
          prescan := r.prescan }

/-- A step that asks for a fact. -/
inductive Ask where
  | format
  | digests
  | embedded
  deriving DecidableEq

def format (sv : Services H P F) (src : ByteSource) (f : Facts H P F) :
    Facts H P F :=
  if f.fmt.isSome then f
  else if f.shared.isNone ∧ f.prescan.isNone then
    { f with fmt := some (sv.detect src) }
  else
    match sv.detectPrescanned src with
    | .inl fmt => { f with fmt := some fmt }
    | .inr search =>
        let f := sv.readOnce src f
        { f with
          fmt := some (search (f.prescan.getD (sv.newPrescan [])))
          prescan := none }

def digests (sv : Services H P F) (src : ByteSource) (f : Facts H P F) :
    Facts H P F :=
  -- Wanting none reads nothing: no reason to make the read yet.
  let f := if f.shared.any (·.want) then sv.readOnce src f else f
  { f with digests := f.digests.or (some (sv.digestsWanted src)) }

/-- What carving finds in the object, taken. -/
def embedded (sv : Services H P F) (src : ByteSource) (f : Facts H P F) :
    Facts H P F × Embedded :=
  let f := sv.readOnce src f
  ({ f with embedded := none }, f.embedded.getD (embeddedIn src))

/-- What the steps that ask for carving are told, in the order of the asks. -/
def answers (sv : Services H P F) (src : ByteSource) :
    List Ask → Facts H P F → List Embedded
  | [], _ => []
  | .format :: asks, f => sv.answers src asks (sv.format src f)
  | .digests :: asks, f => sv.answers src asks (sv.digests src f)
  | .embedded :: asks, f =>
      let (f, found) := sv.embedded src f
      found :: sv.answers src asks f

end Services

/-!
## However the object is delivered

What carving finds does not depend on the windows it is fed, on how many far
candidates wait, on whether the object is in memory, nor on what else the read
serves.
-/

open Exav.Lib

section

variable {src : ByteSource} {data : Bytes} {b : Nat} {c : Carving}

/-! ## The end of the search -/

theorem lt_len (holds : src.Holds data) {off : Nat} {kind : Magic}
    (here : magicAt src off = some kind) : off < src.len := by
  rw [holds.eq] at here ⊢
  exact lt_of_magicAt here

private theorem below_len {p : Nat → Prop} (inside : ∀ off, p off → off < src.len)
    (reached : src.len ≤ b) (off : Nat) : Below b p off ↔ p off :=
  ⟨And.right, fun is => ⟨(inside off is).trans_le reached, is⟩⟩

theorem isPe_lt (holds : src.Holds data) {off : Nat} (is : isPe src off) :
    off < src.len :=
  lt_len holds is.2.1

theorem isElf_lt (holds : src.Holds data) {off : Nat} (is : isElf src off) :
    off < src.len :=
  lt_len holds is.2.1

theorem isMacho_lt (holds : src.Holds data) {off : Nat} (is : isMacho src off) :
    off < src.len := by
  obtain ⟨_, ⟨_, here, _⟩ | ⟨here, _⟩⟩ := is
  · exact lt_len holds here
  · exact lt_len holds here

theorem isOwnArchive_lt (holds : src.Holds data) {listed : List Nat} {off : Nat}
    (is : isOwnArchive src listed off) : off < src.len :=
  lt_len holds is.1.2.1

theorem Met.settled (met : Met src b c) (empty : c.far = []) :
    Accepted (Below b (isPe src)) c.found := by
  obtain ⟨accepted, acc, pe⟩ := met.pe
  apply acc.congr
  intro off
  refine ⟨pe.sound off, ?_⟩
  intro below
  rcases pe.complete off below with is | ⟨header, waiting⟩
  · exact is
  · rw [empty] at waiting
    exact absurd waiting List.not_mem_nil

theorem Met.carved_of_reached (met : Met src b c) (holds : src.Holds data)
    (empty : c.far = []) (reached : src.len ≤ b) : Carved src c.found := by
  have acc := met.settled empty
  have pe := below_len (fun _ => isPe_lt holds) reached
  have elf := below_len (fun _ => isElf_lt holds) reached
  have macho := below_len (fun _ => isMacho_lt holds) reached
  have own := below_len
    (fun off (is : isOwnArchive src c.found.archives off) =>
      isOwnArchive_lt holds is) reached
  refine ⟨acc.pe.congr pe, met.others.elf.congr elf, met.others.macho.congr macho,
    met.others.archives.congr own, ?_, ?_⟩
  · rw [acc.peCapped, LeftOut.congr pe]
  · rw [met.others.othersCapped, LeftOut.congr elf, LeftOut.congr macho,
      LeftOut.congr own]

/-- Once the search is full, nothing after `b` changes what it found. -/
theorem Met.carved_of_full (met : Met src b c) (full : c.full) :
    Carved src c.found := by
  unfold Carving.full at full
  simp only [Bool.and_eq_true, List.isEmpty_iff, decide_eq_true_iff] at full
  obtain ⟨⟨⟨⟨⟨⟨empty, peCapped⟩, othersCapped⟩, pe⟩, elf⟩, macho⟩, archives⟩ :=
    full
  have acc := met.settled empty
  refine ⟨?_, ?_, ?_, ?_, ?_, ?_⟩
  · exact acc.pe.beyond pe (fun _ => And.right) fun _ => id
  · exact met.others.elf.beyond elf (fun _ => And.right) fun _ => id
  · exact met.others.macho.beyond macho (fun _ => And.right) fun _ => id
  · exact met.others.archives.beyond archives (fun _ => And.right) fun _ => id
  · exact iff_of_true peCapped (acc.peCapped.mp peCapped).of_below
  · apply iff_of_true othersCapped
    rcases met.others.othersCapped.mp othersCapped with left | left | left
    · exact Or.inl left.of_below
    · exact Or.inr (Or.inl left.of_below)
    · exact Or.inr (Or.inr left.of_below)

private theorem settle_full (full : c.full) : c.settle src = c := by
  have empty : c.far = [] := by
    unfold Carving.full at full
    simp only [Bool.and_eq_true, List.isEmpty_iff] at full
    tauto
  unfold Carving.settle
  rw [empty]
  obtain ⟨_, far, _, _⟩ := c
  cases empty
  simp

theorem Met.carved (met : Met src b c) (holds : src.Holds data)
    (done : src.len ≤ b ∨ c.full) : Carved src (c.settle src).found := by
  rcases done with reached | full
  · exact met.settle.carved_of_reached holds rfl reached
  · rw [settle_full full]
    exact met.carved_of_full full

/-! ## Windows in order -/

/-- A search fed windows in order, each of any size with its run-on. -/
inductive Fed (src : ByteSource) (data : Bytes) (farMax : Nat) :
    Nat → Carving → Prop where
  | new : Fed src data farMax 0 (.new farMax)
  | feed {b : Nat} {c : Carving} {owned : Nat} {w : Bytes} :
      Fed src data farMax b c → Seen data b owned w →
        Fed src data farMax (b + owned) (c.feed src b w owned)

theorem Fed.met {farMax : Nat} (fed : Fed src data farMax b c)
    (holds : src.Holds data) : Met src b c := by
  induction fed with
  | new => exact Met.new farMax
  | feed _ seen induction => exact induction.feed holds seen

/-- The window a read takes at `b`, with what it owns of it. -/
theorem seen_window (holds : src.Holds data) {size overlap' : Nat}
    (inside : b < src.len) (wide : overlap' < size) (runs : overlap ≤ overlap') :
    let w := src.window b (min (src.len - b) size)
    let owned := if b + w.length ≥ src.len then w.length
      else max (w.length - overlap') 1
    w ≠ [] ∧ 0 < owned ∧ Seen data b owned w := by
  intro w owned
  have count : w.length = min (src.len - b) size := by
    have known : w = window data b (min (src.len - b) size) := holds.2 _ _
    rw [known, length_window, holds.1]
    rw [holds.1] at inside
    omega
  have positive : 0 < w.length := by omega
  refine ⟨List.length_pos_iff.mp positive, ?_, ?_, ?_, ?_⟩
  · by_cases last : b + w.length ≥ src.len
    · rw [show owned = w.length from if_pos last]
      exact positive
    · rw [show owned = max (w.length - overlap') 1 from if_neg last]
      omega
  · rw [count]
    exact holds.2 _ _
  · by_cases last : b + w.length ≥ src.len
    · rw [show owned = w.length from if_pos last]
    · rw [show owned = max (w.length - overlap') 1 from if_neg last]
      omega
  · by_cases last : b + w.length ≥ src.len
    · right
      rwa [← holds.1]
    · left
      rw [show owned = max (w.length - overlap') 1 from if_neg last]
      omega

/-! ## Alone -/

private theorem carveFrom_met (holds : src.Holds data) (rounds : Nat)
    (met : Met src b c) (enough : src.len ≤ b + rounds) :
    ∃ b', Met src b' (carveFrom src rounds b c) ∧
      (src.len ≤ b' ∨ (carveFrom src rounds b c).full) := by
  induction rounds generalizing b c with
  | zero => exact ⟨b, met, Or.inl enough⟩
  | succ rounds induction =>
      rw [carveFrom]
      by_cases more : b < src.len ∧ (!c.full) = true
      · rw [if_pos more]
        obtain ⟨nonempty, progress, seen⟩ := seen_window holds more.1
          (show overlap < chunk by decide) le_rfl
        dsimp only at nonempty progress seen ⊢
        rw [if_neg (by simpa using nonempty)]
        have fed := met.feed holds seen
        by_cases last :
            b + (src.window b (min (src.len - b) chunk)).length ≥ src.len
        · simp only [last, if_true] at fed ⊢
          exact ⟨_, fed, Or.inl last⟩
        · simp only [last, if_false] at fed progress ⊢
          exact induction fed (by omega)
      · rw [if_neg more]
        refine ⟨b, met, ?_⟩
        rw [not_and_or, not_lt] at more
        exact more.imp_right (by simp)

theorem carved_embeddedIn (holds : src.Holds data) :
    Carved src (embeddedIn src) := by
  obtain ⟨b, met, done⟩ := carveFrom_met holds src.len (Met.new (2 ^ 64 - 1))
    (by omega)
  exact met.carved holds done

/-! ## Inside the one read -/

variable {H P F : Type} (sv : Services H P F)

private theorem readFrom_met (holds : src.Holds data) (search : Bool)
    (rounds : Nat) {r : Services.Read H P} (carving : r.carving = some c)
    (met : Met src b c) (enough : src.len ≤ b + rounds) :
    ∃ b' c', (sv.readFrom src search rounds b r).carving = some c' ∧
      Met src b' c' ∧ (src.len ≤ b' ∨ c'.full) := by
  induction rounds generalizing b c r with
  | zero => exact ⟨b, c, carving, met, Or.inl enough⟩
  | succ rounds induction =>
      rw [Services.readFrom]
      by_cases more : b < src.len
      · rw [if_pos more]
        obtain ⟨nonempty, progress, seen⟩ := seen_window holds more
          (show max Services.prescanOverlap overlap < chunk by decide)
          (le_max_right _ _)
        dsimp only at nonempty progress seen ⊢
        rw [if_neg (by simpa using nonempty)]
        generalize started : (if b = 0 ∧ search = true then
          { r with prescan := some (sv.newPrescan
            (src.window b (min (src.len - b) chunk))) } else r) = r'
        have carving : r'.carving = some c := by
          rw [← started]
          split
          · exact carving
          · exact carving
        by_cases stop : r'.hashing.isNone = true ∧
            (!(r'.prescan.any (!sv.done ·) || r'.carving.any (!·.full))) = true
        · rw [if_pos stop]
          refine ⟨b, c, carving, met, Or.inr ?_⟩
          have idle := stop.2
          rw [carving] at idle
          simp only [Option.any_some, Bool.not_or, Bool.and_eq_true,
            Bool.not_not] at idle
          exact idle.2
        · rw [if_neg stop]
          have fed := met.feed holds seen
          simp only [decide_eq_true_iff] at fed progress ⊢
          apply induction _ fed (by omega)
          rw [carving]
          rfl
      · rw [if_neg more]
        exact ⟨b, c, carving, met, Or.inl (not_lt.mp more)⟩

omit src in
private theorem readFrom_none (src : ByteSource) (search : Bool) (rounds b : Nat)
    {r : Services.Read H P} (uncarved : r.carving = none) :
    (sv.readFrom src search rounds b r).carving = none := by
  induction rounds generalizing b r with
  | zero => exact uncarved
  | succ rounds induction =>
      rw [Services.readFrom]
      by_cases more : b < src.len
      · rw [if_pos more]
        dsimp only
        split
        · exact uncarved
        · generalize started : (if b = 0 ∧ search = true then
            { r with prescan := some (sv.newPrescan
              (src.window b (min (src.len - b) chunk))) } else r) = r'
          have uncarved : r'.carving = none := by
            rw [← started]
            split
            · exact uncarved
            · exact uncarved
          split
          · exact uncarved
          · apply induction
            rw [uncarved]
            rfl
      · rw [if_neg more]
        exact uncarved

private theorem readOnce_carved (holds : src.Holds data) {f : Facts H P F}
    (kept : ∀ found, f.embedded = some found → Carved src found) :
    ∀ found, (sv.readOnce src f).embedded = some found → Carved src found := by
  unfold Services.readOnce
  cases f.shared with
  | none => exact kept
  | some shared =>
      dsimp only
      split
      · exact kept
      · by_cases carve : shared.carve
        · obtain ⟨b, c, carving, met, done⟩ := readFrom_met sv holds
            (f.fmt.isNone && Services.prescanNeeded src.len) src.len
            (r := ⟨if shared.want then some sv.newHashing else none,
              if shared.carve then some (.new shared.far) else none, none⟩)
            (if_pos carve) (Met.new shared.far) (by omega)
          intro found told
          dsimp only at told
          rw [carving] at told
          obtain rfl := Option.some.inj told
          exact met.carved holds done
        · intro found told
          dsimp only at told
          rw [readFrom_none sv src _ _ _ (if_neg carve)] at told
          exact kept found told

private theorem format_carved (holds : src.Holds data) {f : Facts H P F}
    (kept : ∀ found, f.embedded = some found → Carved src found) :
    ∀ found, (sv.format src f).embedded = some found → Carved src found := by
  unfold Services.format
  split
  · exact kept
  · split
    · exact kept
    · cases sv.detectPrescanned src with
      | inl fmt => exact kept
      | inr search => exact readOnce_carved sv holds kept

private theorem digests_carved (holds : src.Holds data) {f : Facts H P F}
    (kept : ∀ found, f.embedded = some found → Carved src found) :
    ∀ found, (sv.digests src f).embedded = some found → Carved src found := by
  unfold Services.digests
  dsimp only
  split
  · exact readOnce_carved sv holds kept
  · exact kept

theorem answers_carved (holds : src.Holds data) (asks : List Services.Ask)
    {f : Facts H P F}
    (kept : ∀ found, f.embedded = some found → Carved src found) :
    ∀ found ∈ sv.answers src asks f, Carved src found := by
  induction asks generalizing f with
  | nil =>
      intro found told
      exact absurd told List.not_mem_nil
  | cons ask asks induction =>
      cases ask with
      | format => exact induction (format_carved sv holds kept)
      | digests => exact induction (digests_carved sv holds kept)
      | embedded =>
          intro found told
          rcases List.mem_cons.mp told with rfl | later
          · cases made : (sv.readOnce src f).embedded with
            | none =>
                simp only [Option.getD_none]
                exact carved_embeddedIn holds
            | some found =>
                simp only [Option.getD_some]
                exact readOnce_carved sv holds kept found made
          · refine induction ?_ found later
            intro found told
            exact absurd told (by simp)

end

/-- Carving finds the lowest candidates of every kind and says when it left one
out, fed windows of any size, alone, or inside the one read of an object that
serves detection and digests too, asked in any order. -/
theorem carving_finds {src : ByteSource} {data : Bytes} (holds : src.Holds data) :
    (∀ farMax b c, Fed src data farMax b c → src.len ≤ b ∨ c.full →
      Carved src (c.settle src).found) ∧
    Carved src (embeddedIn src) ∧
    ∀ (H P F : Type) (sv : Services H P F) (shared : Shared)
      (f : Facts H P F), f = .new ∨ f = .forScan src shared →
      ∀ asks, ∀ found ∈ sv.answers src asks f, Carved src found := by
  refine ⟨?_, carved_embeddedIn holds, ?_⟩
  · intro farMax b c fed done
    exact (fed.met holds).carved holds done
  · intro H P F sv shared f start asks
    apply answers_carved sv holds
    intro found told
    rcases start with rfl | rfl
    · exact absurd told (by simp [Facts.new])
    · exact absurd told (by simp [Facts.forScan, Facts.new])

/-! ## A stored ZIP inside a ZIP -/

/-- A ZIP at 1 with one stored entry, whose data is the magic of another, and
its next local header. -/
def storedMagic : Bytes :=
  0 :: [80, 75, 3, 4] ++ List.replicate 14 0 ++ 4 :: List.replicate 11 0 ++
    [80, 75, 3, 4] ++ [80, 75, 3, 4] ++ List.replicate 26 0

theorem carving_finds_stored :
    Carved (.of storedMagic true) (embeddedIn (.of storedMagic true)) :=
  (carving_finds (ByteSource.holds_of storedMagic true)).2.1

/-- The declared sizes of a listed or leading ZIP lead to the ZIP local header
at `off`, whatever lies between. -/
inductive LedPast (src : ByteSource) (listed : Nat → Prop) : Nat → Prop where
  | first {header off : Nat} :
      header = 0 ∨ listed header → zipNextHeader src header = some off →
      zipAt src off → LedPast src listed off
  | next {header off : Nat} :
      LedPast src listed header → zipNextHeader src header = some off →
      zipAt src off → LedPast src listed off

private theorem archives_storedMagic {off : Nat}
    (is : isArchive (.of storedMagic true) off) :
    off = 1 ∨ off = 31 ∨ off = 35 := by
  have all : ∀ off < 65, magicAt (.of storedMagic true) off = some .archive →
      off = 1 ∨ off = 31 ∨ off = 35 := by decide
  exact all off (lt_len (ByteSource.holds_of storedMagic true) is.2.1) is.2.1

private theorem listed_storedMagic {off : Nat}
    (is : isOwnArchive (.of storedMagic true)
      (embeddedIn (.of storedMagic true)).archives off) :
    off ∈ (embeddedIn (.of storedMagic true)).archives := by
  have carved := carved_embeddedIn (ByteSource.holds_of storedMagic true)
  by_contra out
  have full := (carved.archives.after off is out).1
  have few : (embeddedIn (.of storedMagic true)).archives.length ≤
      [1, 31, 35].length := by
    apply List.Subperm.length_le
    apply List.subperm_of_subset (carved.archives.ascending.imp ne_of_lt)
    intro o listed
    simpa using archives_storedMagic (carved.archives.sound o listed).1
  exact absurd (full.trans few) (by decide)

/-- The entry after the stored magic is listed although the sizes of the listed
ZIP lead to it. -/
theorem archives_past_chain :
    ¬ Lowest
      (fun off => isArchive (.of storedMagic true) off ∧
        ¬ LedPast (.of storedMagic true)
          (· ∈ (embeddedIn (.of storedMagic true)).archives) off)
      maxEmbeddedArchives (embeddedIn (.of storedMagic true)).archives := by
  intro lowest
  have early : ∀ off, zipNextHeader (.of storedMagic true) off = some 35 →
      off ≤ 5 := by
    intro off leads
    have bound := le_zipNextHeader leads
    omega
  have first : 1 ∈ (embeddedIn (.of storedMagic true)).archives := by
    apply listed_storedMagic
    refine ⟨⟨by decide, by decide, by decide⟩, ?_⟩
    intro led
    obtain ⟨header, _, leads⟩ := led_iff.mp led
    have bound := le_zipNextHeader leads.next
    omega
  have last : 35 ∈ (embeddedIn (.of storedMagic true)).archives := by
    apply listed_storedMagic
    refine ⟨⟨by decide, by decide, by decide⟩, ?_⟩
    intro led
    obtain ⟨header, _, leads⟩ := led_iff.mp led
    have before := early header leads.next
    exact leads.first 31 (by omega) (by omega) (by decide)
  exact (lowest.sound 35 last).2
    (.first (Or.inr first) (by decide) (by decide))

end Exav.Carve
