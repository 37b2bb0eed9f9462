import Exav.Carve.Hits

/-!
# Carving up to an offset

`Met src b c` says what the search `c` holds once every magic below `b` was
met, whatever windows it was fed and wherever they ended: an offset keeps it,
and so does settling the candidates whose headers lay beyond their windows.
-/

namespace Exav.Carve

open Exav.Lib

/-- The last ZIP local header below `b` belongs to a chain and says that `off`
is the next. -/
def Slot (src : ByteSource) (listed : List Nat) (b off : Nat) : Prop :=
  ∃ header < b,
    (header = 0 ∨ header ∈ listed ∨ Led src (· ∈ listed) header) ∧
      zipNextHeader src header = some off ∧
      ∀ between, header < between → between < b → ¬ zipAt src between

/-- Images other than PE, and archives, below `b`. -/
structure MetOthers (src : ByteSource) (b : Nat) (zipNext : Option Nat)
    (found : Embedded) : Prop where
  slot : ∀ off, zipNext = some off ↔ Slot src found.archives b off
  elf : Lowest (Below b (isElf src)) maxEmbeddedPe found.elf
  macho : Lowest (Below b (isMacho src)) maxEmbeddedPe found.macho
  archives : Lowest (Below b (isOwnArchive src found.archives))
    maxEmbeddedArchives found.archives
  othersCapped : found.othersCapped ↔
    LeftOut (Below b (isElf src)) found.elf ∨
      LeftOut (Below b (isMacho src)) found.macho ∨
      LeftOut (Below b (isOwnArchive src found.archives)) found.archives

structure Accepted (accepted : Nat → Prop) (found : Embedded) : Prop where
  pe : Lowest accepted maxEmbeddedPe found.pe
  peCapped : found.peCapped ↔ LeftOut accepted found.pe

/-- Every PE image below `b` was accepted or waits. -/
structure MetPe (src : ByteSource) (b : Nat) (far : List (Nat × Nat))
    (accepted : Nat → Prop) : Prop where
  sound : ∀ off, accepted off → Below b (isPe src) off
  complete : ∀ off, Below b (isPe src) off →
    accepted off ∨ ∃ pe, (pe, off) ∈ far
  waits : ∀ pe off, (pe, off) ∈ far →
    off < b ∧ 0 < off ∧ magicAt src off = some .pe ∧
      peTarget src off = some pe ∧ ¬ accepted off
  once : (far.map (·.2)).Nodup

structure Met (src : ByteSource) (b : Nat) (c : Carving) : Prop where
  others : MetOthers src b c.zipNext c.found
  pe : ∃ accepted, Accepted accepted c.found ∧ MetPe src b c.far accepted

section

variable {src : ByteSource} {data : Bytes} {b : Nat} {zipNext : Option Nat}
  {found : Embedded} {c : Carving}

/-! ## ZIP local headers -/

theorem magicAt_of_zipAt (holds : src.Holds data) {off : Nat}
    (zip : zipAt src off) : magicAt src off = some .archive := by
  rw [holds.eq] at zip ⊢
  apply magicAt_eq_some.mpr
  refine ⟨([80, 75, 3, 4], .archive), by decide, rfl, ?_⟩
  apply window_eq_iff.mp
  exact of_decide_eq_true zip

theorem zipAt_of_next (holds : src.Holds data) {header off : Nat}
    (leads : zipNextHeader src header = some off) : zipAt src header := by
  unfold zipNextHeader at leads
  dsimp only at leads
  by_cases short : (src.window header 30).length ≠ 30 ∨
      window (src.window header 30) 0 4 ≠ [80, 75, 3, 4]
  · simp [short] at leads
  · rw [not_or, not_not, not_not] at short
    have first := short.2
    rw [holds.2, window, window, List.drop_zero, List.take_take] at first
    rw [zipAt, holds.2, window]
    simpa using first

/-! ## The slot -/

theorem own_congr {listed listed' : List Nat} {off : Nat}
    (agree : ∀ o, o < off → (o ∈ listed ↔ o ∈ listed')) :
    isOwnArchive src listed off ↔ isOwnArchive src listed' off := by
  unfold isOwnArchive
  rw [led_congr agree]

theorem slot_congr {listed listed' : List Nat} {off : Nat}
    (agree : ∀ o, o < b → (o ∈ listed ↔ o ∈ listed')) :
    Slot src listed b off ↔ Slot src listed' b off := by
  unfold Slot
  apply exists_congr
  intro header
  apply and_congr_right
  intro below
  have chain : Led src (· ∈ listed) header ↔ Led src (· ∈ listed') header :=
    led_congr fun o earlier => agree o (earlier.trans below)
  rw [agree header below, chain]

/-- No ZIP local header at `b`: the slot stays. -/
theorem slot_skip (holds : src.Holds data) {listed : List Nat} {off : Nat}
    (noZip : ¬ zipAt src b) :
    Slot src listed (b + 1) off ↔ Slot src listed b off := by
  constructor
  · intro ⟨header, inside, origin, leads, last⟩
    have below : header < b := by
      rcases Nat.lt_succ_iff_lt_or_eq.mp inside with below | rfl
      · exact below
      · exact absurd (zipAt_of_next holds leads) noZip
    exact ⟨header, below, origin, leads, fun between after before =>
      last between after (by omega)⟩
  · intro ⟨header, inside, origin, leads, last⟩
    refine ⟨header, by omega, origin, leads, ?_⟩
    intro between after before
    rcases Nat.lt_succ_iff_lt_or_eq.mp before with below | rfl
    · exact last between after below
    · exact noZip

/-- A ZIP local header at `b` takes the slot. -/
theorem slot_take {listed : List Nat} {off : Nat} (zip : zipAt src b) :
    Slot src listed (b + 1) off ↔
      (b = 0 ∨ b ∈ listed ∨ Led src (· ∈ listed) b) ∧
        zipNextHeader src b = some off := by
  constructor
  · intro ⟨header, inside, origin, leads, last⟩
    rcases Nat.lt_succ_iff_lt_or_eq.mp inside with below | rfl
    · exact absurd zip (last b below (Nat.lt_succ_self b))
    · exact ⟨origin, leads⟩
  · intro ⟨origin, leads⟩
    refine ⟨b, Nat.lt_succ_self b, origin, leads, ?_⟩
    intro between after before
    omega

theorem led_iff_slot {listed : List Nat} (zip : zipAt src b) :
    Led src (· ∈ listed) b ↔ Slot src listed b b := by
  rw [led_iff]
  constructor
  · intro ⟨header, origin, leads⟩
    exact ⟨header, leads.later, origin, leads.next, leads.first⟩
  · intro ⟨header, _, origin, leads, last⟩
    exact ⟨header, origin, ⟨leads, last, zip⟩⟩

/-! ## One offset, other than a PE image -/

theorem not_zipAt (holds : src.Holds data) {off : Nat}
    (other : magicAt src off ≠ some .archive) : ¬ zipAt src off :=
  fun zip => other (magicAt_of_zipAt holds zip)

theorem MetOthers.skip (met : MetOthers src b zipNext found)
    {next : Option Nat} (noElf : ¬ isElf src b) (noMacho : ¬ isMacho src b)
    (noArchive : ¬ isOwnArchive src found.archives b)
    (slot : ∀ off, next = some off ↔ Slot src found.archives (b + 1) off) :
    MetOthers src (b + 1) next found where
  slot := slot
  elf := met.elf.skip noElf
  macho := met.macho.skip noMacho
  archives := met.archives.skip noArchive
  othersCapped := by
    rw [LeftOut.skip noElf, LeftOut.skip noMacho, LeftOut.skip noArchive]
    exact met.othersCapped

theorem MetOthers.keep (met : MetOthers src b zipNext found)
    (holds : src.Holds data) (noZip : ¬ zipAt src b) {off : Nat} :
    zipNext = some off ↔ Slot src found.archives (b + 1) off := by
  rw [met.slot off, slot_skip holds noZip]

theorem not_elf (other : magicAt src b ≠ some .elf) : ¬ isElf src b :=
  fun is => other is.2.1

theorem not_macho (notThin : ∀ be, magicAt src b ≠ some (.machoThin be))
    (notFat : magicAt src b ≠ some .machoFat) : ¬ isMacho src b := by
  intro ⟨_, is⟩
  rcases is with ⟨be, thin, _⟩ | ⟨fat, _⟩
  · exact notThin be thin
  · exact notFat fat

theorem not_own {listed : List Nat} (other : magicAt src b ≠ some .archive) :
    ¬ isOwnArchive src listed b :=
  fun is => other is.1.2.1

theorem MetOthers.meetElf (met : MetOthers src b c.zipNext c.found)
    (holds : src.Holds data) (positive : 0 < b)
    (here : magicAt src b = some .elf) :
    MetOthers src (b + 1) (c.meetElf src b).zipNext
      (c.meetElf src b).found := by
  have noZip : ¬ zipAt src b := not_zipAt holds (by simp [here])
  have noMacho : ¬ isMacho src b := not_macho (by simp [here]) (by simp [here])
  have noArchive : ¬ isOwnArchive src c.found.archives b :=
    not_own (by simp [here])
  unfold Carving.meetElf
  by_cases ok : elfAt src b
  · have is : isElf src b := ⟨positive, here, ok⟩
    rw [if_pos ok]
    by_cases room : c.found.elf.length < maxEmbeddedPe
    · rw [if_pos room]
      refine ⟨fun off => met.keep holds noZip, met.elf.list is room,
        met.macho.skip noMacho, met.archives.skip noArchive, ?_⟩
      rw [LeftOut.list met.elf room, LeftOut.skip noMacho,
        LeftOut.skip noArchive]
      exact met.othersCapped
    · rw [if_neg room]
      refine ⟨fun off => met.keep holds noZip, met.elf.leave room,
        met.macho.skip noMacho, met.archives.skip noArchive, ?_⟩
      have left := LeftOut.leave met.elf is
      exact iff_of_true rfl (Or.inl left)
  · rw [if_neg ok]
    exact met.skip (fun is => ok is.2.2) noMacho noArchive fun off =>
      met.keep holds noZip

theorem MetOthers.meetMacho (met : MetOthers src b c.zipNext c.found)
    (holds : src.Holds data) {ok : Bool} (valid : ok ↔ isMacho src b)
    (noElf : ¬ isElf src b) (other : magicAt src b ≠ some .archive) :
    MetOthers src (b + 1) (c.meetMacho b ok).zipNext
      (c.meetMacho b ok).found := by
  have noZip : ¬ zipAt src b := not_zipAt holds other
  have noArchive : ¬ isOwnArchive src c.found.archives b := not_own other
  unfold Carving.meetMacho
  by_cases checked : ok
  · have is : isMacho src b := valid.mp checked
    rw [if_pos checked]
    by_cases room : c.found.macho.length < maxEmbeddedPe
    · rw [if_pos room]
      refine ⟨fun off => met.keep holds noZip, met.elf.skip noElf,
        met.macho.list is room, met.archives.skip noArchive, ?_⟩
      rw [LeftOut.skip noElf, LeftOut.list met.macho room,
        LeftOut.skip noArchive]
      exact met.othersCapped
    · rw [if_neg room]
      refine ⟨fun off => met.keep holds noZip, met.elf.skip noElf,
        met.macho.leave room, met.archives.skip noArchive, ?_⟩
      have left := LeftOut.leave met.macho is
      exact iff_of_true rfl (Or.inr (Or.inl left))
  · rw [if_neg checked]
    exact met.skip noElf (fun is => checked (valid.mpr is)) noArchive fun off =>
      met.keep holds noZip

private theorem agree_concat {listed : List Nat} {bound o : Nat}
    (below : o < bound) : o ∈ listed ↔ o ∈ listed ++ [bound] := by
  have apart : o ≠ bound := below.ne
  simp [apart]

theorem meetArchive_eq (off : Nat) (zip : Bool) :
    c.meetArchive src off zip =
      let left := { c with zipNext := if zip then none else c.zipNext }
      if archiveAt src off then
        if c.found.archives.length < maxEmbeddedArchives then
          { c with
            found := { c.found with archives := c.found.archives ++ [off] }
            zipNext := if zip then zipNextHeader src off else c.zipNext }
        else left.leaveOut
      else left := by
  cases zip <;> rfl

theorem MetOthers.meetArchive (met : MetOthers src b c.zipNext c.found)
    (holds : src.Holds data) (positive : 0 < b)
    (here : magicAt src b = some .archive)
    (apart : ¬ Led src (· ∈ c.found.archives) b) :
    MetOthers src (b + 1) (c.meetArchive src b (zipAt src b)).zipNext
      (c.meetArchive src b (zipAt src b)).found := by
  have noElf : ¬ isElf src b := not_elf (by simp [here])
  have noMacho : ¬ isMacho src b := not_macho (by simp [here]) (by simp [here])
  have new : b ∉ c.found.archives := fun listed =>
    absurd (met.archives.sound b listed).1 (Nat.lt_irrefl b)
  -- A ZIP that is not listed leaves the slot empty.
  have cleared : ∀ off,
      (if zipAt src b then none else c.zipNext) = some off ↔
        Slot src c.found.archives (b + 1) off := by
    intro off
    by_cases zip : zipAt src b
    · rw [if_pos zip, slot_take zip]
      constructor
      · intro points
        exact absurd points (by simp)
      · intro ⟨origin, _⟩
        rcases origin with first | listed | led
        · omega
        · exact absurd listed new
        · exact absurd led apart
    · rw [if_neg zip]
      exact met.keep holds zip
  rw [meetArchive_eq]
  by_cases ok : archiveAt src b
  · have is : isOwnArchive src c.found.archives b :=
      ⟨⟨positive, here, ok⟩, apart⟩
    rw [if_pos ok]
    by_cases room : c.found.archives.length < maxEmbeddedArchives
    · rw [if_pos room]
      have same : ∀ off, Below (b + 1) (isOwnArchive src c.found.archives) off ↔
          Below (b + 1) (isOwnArchive src (c.found.archives ++ [b])) off := by
        intro off
        apply and_congr_right
        intro inside
        exact own_congr fun o below => agree_concat (by omega)
      refine ⟨?_, met.elf.skip noElf, met.macho.skip noMacho,
        (met.archives.list is room).congr same, ?_⟩
      · intro off
        dsimp only
        by_cases zip : zipAt src b
        · rw [if_pos zip, slot_take zip]
          simp
        · rw [if_neg zip, slot_skip holds zip, met.slot off]
          exact slot_congr fun o below => agree_concat below
      · rw [LeftOut.skip noElf, LeftOut.skip noMacho, ← LeftOut.congr same,
          LeftOut.list met.archives room]
        exact met.othersCapped
    · rw [if_neg room]
      refine ⟨cleared, met.elf.skip noElf, met.macho.skip noMacho,
        met.archives.leave room, ?_⟩
      have left := LeftOut.leave met.archives is
      exact iff_of_true rfl (Or.inr (Or.inr left))
  · rw [if_neg ok]
    exact met.skip noElf noMacho (fun is => ok is.1.2.2) cleared

theorem MetOthers.own (met : MetOthers src 0 c.zipNext c.found)
    (holds : src.Holds data) {next : Option Nat}
    (same : next = if zipAt src 0 then zipNextHeader src 0 else c.zipNext) :
    MetOthers src 1 next c.found := by
  apply met.skip (fun is => absurd is.1 (Nat.lt_irrefl 0))
    (fun is => absurd is.1 (Nat.lt_irrefl 0))
    (fun is => absurd is.1.1 (Nat.lt_irrefl 0))
  intro off
  rw [same]
  by_cases zip : zipAt src 0
  · rw [if_pos zip, slot_take zip]
    simp
  · rw [if_neg zip]
    exact met.keep holds zip

/-- A header the slot points at is not listed, and takes the slot. -/
theorem MetOthers.follow (met : MetOthers src b c.zipNext c.found)
    (zip : zipAt src b) (here : magicAt src b = some .archive)
    (next : c.zipNext = some b) :
    MetOthers src (b + 1) (zipNextHeader src b) c.found := by
  have led : Led src (· ∈ c.found.archives) b :=
    (led_iff_slot zip).mpr ((met.slot b).mp next)
  apply met.skip (not_elf (by simp [here]))
    (not_macho (by simp [here]) (by simp [here])) (fun is => is.2 led)
  intro off
  rw [slot_take zip]
  exact ⟨fun leads => ⟨Or.inr (Or.inr led), leads⟩, And.right⟩

end

end Exav.Carve
