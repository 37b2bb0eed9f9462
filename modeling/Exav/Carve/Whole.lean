import Exav.Carve.Progress

/-!
# Carving the whole of an object

PE images are accepted as they are met or when they are settled, the lowest
kept; every window fed in order brings the search to the end of the object or
to where nothing more can change.
-/

namespace Exav.Carve

open Exav.Lib

section

variable {src : ByteSource} {data : Bytes} {b held : Nat}
  {zipNext : Option Nat} {found : Embedded} {c : Carving}
  {accepted : Nat → Prop} {far : List (Nat × Nat)}

/-! ## PE images -/

theorem Accepted.congr {accepted' : Nat → Prop} (acc : Accepted accepted found)
    (same : ∀ off, accepted off ↔ accepted' off) : Accepted accepted' found :=
  ⟨acc.pe.congr same, acc.peCapped.trans (LeftOut.congr same)⟩

theorem Accepted.add (acc : Accepted accepted found) {off : Nat}
    (new : ¬ accepted off) :
    Accepted (fun o => accepted o ∨ o = off) (acceptPe found off) := by
  have shape : acceptPe found off =
      if (Lowest.place found.pe off).length > maxEmbeddedPe then
        { found with pe := (Lowest.place found.pe off).dropLast, peCapped := true }
      else { found with pe := Lowest.place found.pe off } := rfl
  rw [shape, Lowest.length_place]
  by_cases room : found.pe.length < maxEmbeddedPe
  · rw [if_neg (by omega)]
    refine ⟨acc.pe.place_room new room, ?_⟩
    rw [LeftOut.place_room acc.pe room]
    exact acc.peCapped
  · rw [if_pos (by omega)]
    exact ⟨acc.pe.place_full new room,
      iff_of_true rfl (LeftOut.place_full acc.pe new)⟩

theorem MetOthers.acceptPe (met : MetOthers src b zipNext found) (off : Nat) :
    MetOthers src b zipNext (acceptPe found off) := by
  unfold Carve.acceptPe
  dsimp only
  split
  · exact ⟨met.slot, met.elf, met.macho, met.archives, met.othersCapped⟩
  · exact ⟨met.slot, met.elf, met.macho, met.archives, met.othersCapped⟩

/-- No PE image at `b`. -/
theorem MetPe.skip (met : MetPe src b far accepted) (absent : ¬ isPe src b) :
    MetPe src (b + 1) far accepted where
  sound := fun off is =>
    (below_succ_of_not absent off).mp (met.sound off is)
  complete := fun off is =>
    met.complete off ((below_succ_of_not absent off).mpr is)
  waits := fun pe off waiting => by
    obtain ⟨below, rest⟩ := met.waits pe off waiting
    exact ⟨Nat.lt_succ_of_lt below, rest⟩
  once := met.once

theorem MetPe.unmet (met : MetPe src b far accepted) : ¬ accepted b :=
  fun is => absurd (met.sound b is).1 (Nat.lt_irrefl b)

theorem MetPe.accept (met : MetPe src b far accepted) (is : isPe src b) :
    MetPe src (b + 1) far (fun o => accepted o ∨ o = b) where
  sound := by
    intro off found
    apply (below_succ_of is off).mp
    exact found.imp_left (met.sound off)
  complete := by
    intro off found
    rcases (below_succ_of is off).mpr found with below | here
    · exact (met.complete off below).imp_left Or.inl
    · exact Or.inl (Or.inr here)
  waits := by
    intro pe off waiting
    obtain ⟨below, positive, here, target, new⟩ := met.waits pe off waiting
    refine ⟨Nat.lt_succ_of_lt below, positive, here, target, ?_⟩
    rw [not_or]
    exact ⟨new, below.ne⟩
  once := met.once

/-- An image whose header lies beyond its window waits. -/
theorem MetPe.wait (met : MetPe src b far accepted) (positive : 0 < b)
    (here : magicAt src b = some .pe) {pe : Nat}
    (target : peTarget src b = some pe) :
    MetPe src (b + 1) (far ++ [(pe, b)]) accepted where
  sound := fun off is => by
    have below := met.sound off is
    exact ⟨Nat.lt_succ_of_lt below.1, below.2⟩
  complete := by
    intro off found
    rcases (below_succ off).mp found with below | ⟨rfl, _⟩
    · rcases met.complete off below with is | ⟨header, waiting⟩
      · exact Or.inl is
      · exact Or.inr ⟨header, List.mem_append_left _ waiting⟩
    · exact Or.inr ⟨pe, by simp⟩
  waits := by
    intro header off waiting
    rcases List.mem_append.mp waiting with earlier | last
    · obtain ⟨below, rest⟩ := met.waits header off earlier
      exact ⟨Nat.lt_succ_of_lt below, rest⟩
    · obtain ⟨rfl, rfl⟩ := Prod.mk.inj (List.mem_singleton.mp last)
      exact ⟨Nat.lt_succ_self off, positive, here, target, met.unmet⟩
  once := by
    rw [List.map_append, List.map_singleton]
    apply List.nodup_append.mpr
    refine ⟨met.once, List.nodup_singleton b, ?_⟩
    intro off listed last isLast
    obtain ⟨candidate, waiting, rfl⟩ := List.mem_map.mp listed
    rw [List.mem_singleton.mp isLast]
    exact (met.waits candidate.1 candidate.2 waiting).1.ne

theorem isPe_iff {off pe : Nat} (positive : 0 < off)
    (here : magicAt src off = some .pe) (target : peTarget src off = some pe) :
    isPe src off ↔ peHeaderAt src pe := by
  unfold isPe peAt
  rw [target]
  exact ⟨fun is => is.2.2, fun valid => ⟨positive, here, valid⟩⟩

theorem Met.meetPe (met : Met src b c) (holds : src.Holds data)
    (positive : 0 < b) (here : magicAt src b = some .pe) :
    Met src (b + 1) (c.meetPe src held b) := by
  have noZip : ¬ zipAt src b := not_zipAt holds (by simp [here])
  have others : MetOthers src (b + 1) c.zipNext c.found :=
    met.others.skip (not_elf (by simp [here]))
      (not_macho (by simp [here]) (by simp [here])) (not_own (by simp [here]))
      fun off => met.others.keep holds noZip
  obtain ⟨accepted, acc, pe⟩ := met.pe
  unfold Carving.meetPe
  cases target : peTarget src b with
  | none =>
      have absent : ¬ isPe src b := by
        unfold isPe peAt
        simp [target]
      exact ⟨others, accepted, acc, pe.skip absent⟩
  | some header =>
      dsimp only
      by_cases beyond : header ≥ held ∧ (!src.inMemory) = true
      · rw [if_pos beyond]
        exact ⟨others, accepted, acc, pe.wait positive here target⟩
      · rw [if_neg beyond]
        by_cases valid : peHeaderAt src header
        · rw [if_pos valid]
          have is := (isPe_iff positive here target).mpr valid
          exact ⟨others.acceptPe b, _, acc.add pe.unmet, pe.accept is⟩
        · rw [if_neg valid]
          have absent : ¬ isPe src b := fun is =>
            valid ((isPe_iff positive here target).mp is)
          exact ⟨others, accepted, acc, pe.skip absent⟩

/-! ## Settling -/

private theorem Accepted.settle (acc : Accepted accepted found)
    (src : ByteSource) {rest : List (Nat × Nat)} (once : (rest.map (·.2)).Nodup)
    (new : ∀ candidate ∈ rest, ¬ accepted candidate.2) :
    Accepted
      (fun off => accepted off ∨ ∃ pe, (pe, off) ∈ rest ∧ peHeaderAt src pe)
      (rest.foldl (fun found candidate =>
        if peHeaderAt src candidate.1 then acceptPe found candidate.2
        else found) found) := by
  induction rest generalizing found accepted with
  | nil => exact acc.congr (by simp)
  | cons candidate rest induction =>
      obtain ⟨pe, off⟩ := candidate
      obtain ⟨apart, once⟩ := List.nodup_cons.mp once
      have newHere : ¬ accepted off := new _ List.mem_cons_self
      have newLater : ∀ candidate ∈ rest, ¬ accepted candidate.2 :=
        fun candidate later => new candidate (List.mem_cons_of_mem _ later)
      rw [List.foldl_cons]
      by_cases valid : peHeaderAt src pe
      · rw [if_pos valid]
        refine (induction (acc.add newHere) once ?_).congr ?_
        · intro candidate later
          rw [not_or]
          refine ⟨newLater candidate later, ?_⟩
          intro same
          exact apart (List.mem_map.mpr ⟨candidate, later, same⟩)
        · intro o
          constructor
          · intro is
            rcases is with (is | rfl) | ⟨header, later, sane⟩
            · exact Or.inl is
            · exact Or.inr ⟨pe, List.mem_cons_self, valid⟩
            · exact Or.inr ⟨header, List.mem_cons_of_mem _ later, sane⟩
          · intro is
            rcases is with is | ⟨header, listed, sane⟩
            · exact Or.inl (Or.inl is)
            · rcases List.mem_cons.mp listed with here | later
              · exact Or.inl (Or.inr (Prod.mk.inj here).2)
              · exact Or.inr ⟨header, later, sane⟩
      · rw [if_neg valid]
        refine (induction acc once newLater).congr ?_
        intro o
        apply or_congr_right
        apply exists_congr
        intro header
        apply and_congr_left
        intro sane
        rw [List.mem_cons, or_iff_right]
        intro here
        rw [(Prod.mk.inj here).1] at sane
        exact valid sane

private theorem MetOthers.settle (met : MetOthers src b zipNext found)
    (rest : List (Nat × Nat)) :
    MetOthers src b zipNext (rest.foldl (fun found candidate =>
      if peHeaderAt src candidate.1 then Carve.acceptPe found candidate.2
      else found) found) := by
  induction rest generalizing found with
  | nil => exact met
  | cons candidate rest induction =>
      rw [List.foldl_cons]
      apply induction
      split
      · exact met.acceptPe candidate.2
      · exact met

theorem Met.settle (met : Met src b c) : Met src b (c.settle src) := by
  obtain ⟨accepted, acc, pe⟩ := met.pe
  have same := List.mergeSort_perm c.far
    (fun a b => a.1 < b.1 || a.1 = b.1 && a.2 ≤ b.2)
  have once := (same.map (·.2)).nodup_iff.mpr pe.once
  have settled := acc.settle src once fun candidate waiting =>
    (pe.waits candidate.1 candidate.2 (same.mem_iff.mp waiting)).2.2.2.2
  refine ⟨met.others.settle _, _, settled, ?_, ?_, ?_, ?_⟩
  · intro off is
    rcases is with is | ⟨header, waiting, valid⟩
    · exact pe.sound off is
    · obtain ⟨below, positive, here, target, _⟩ :=
        pe.waits header off (same.mem_iff.mp waiting)
      exact ⟨below, (isPe_iff positive here target).mpr valid⟩
  · intro off found
    left
    rcases pe.complete off found with is | ⟨header, waiting⟩
    · exact Or.inl is
    · obtain ⟨_, positive, here, target, _⟩ := pe.waits header off waiting
      exact Or.inr ⟨header, same.mem_iff.mpr waiting,
        (isPe_iff positive here target).mp found.2⟩
  · intro header off waiting
    exact absurd waiting List.not_mem_nil
  · exact List.nodup_nil

/-! ## One offset -/

theorem Met.skip (met : Met src b c) (holds : src.Holds data)
    (nothing : magicAt src b = none) : Met src (b + 1) c := by
  have noZip : ¬ zipAt src b := not_zipAt holds (by simp [nothing])
  obtain ⟨accepted, acc, pe⟩ := met.pe
  refine ⟨?_, accepted, acc, pe.skip ?_⟩
  · exact met.others.skip (not_elf (by simp [nothing]))
      (not_macho (by simp [nothing]) (by simp [nothing])) (not_own (by simp [nothing]))
      fun off => met.others.keep holds noZip
  · intro is
    have here := is.2.1
    simp [nothing] at here

/-- A step that leaves PE images as they were. -/
theorem Met.other {c' : Carving} (met : Met src b c)
    (others : MetOthers src (b + 1) c'.zipNext c'.found)
    (absent : ¬ isPe src b) (far : c'.far = c.far)
    (listed : c'.found.pe = c.found.pe)
    (capped : c'.found.peCapped = c.found.peCapped) : Met src (b + 1) c' := by
  obtain ⟨accepted, acc, pe⟩ := met.pe
  refine ⟨others, accepted, ⟨?_, ?_⟩, ?_⟩
  · rw [listed]
    exact acc.pe
  · rw [listed, capped]
    exact acc.peCapped
  · rw [far]
    exact pe.skip absent

private theorem not_pe {kind : Magic} (here : magicAt src b = some kind)
    (other : kind ≠ .pe) : ¬ isPe src b := by
  intro is
  exact other (Option.some.inj (here.symm.trans is.2.1))

private theorem zip_eq (holds : src.Holds data) {kind : Magic}
    (here : magicAt src b = some kind) :
    (decide (kind = .archive) && zipAt src b) = zipAt src b := by
  by_cases zip : zipAt src b
  · have same : kind = .archive :=
      Option.some.inj (here.symm.trans (magicAt_of_zipAt holds zip))
    simp [same]
  · simp [zip]

private theorem macho_far (c : Carving) (b : Nat) (ok : Bool) :
    (c.meetMacho b ok).far = c.far ∧
      (c.meetMacho b ok).found.pe = c.found.pe ∧
      (c.meetMacho b ok).found.peCapped = c.found.peCapped := by
  unfold Carving.meetMacho
  split
  · split
    · exact ⟨rfl, rfl, rfl⟩
    · exact ⟨rfl, rfl, rfl⟩
  · exact ⟨rfl, rfl, rfl⟩

private theorem elf_far (src : ByteSource) (c : Carving) (b : Nat) :
    (c.meetElf src b).far = c.far ∧
      (c.meetElf src b).found.pe = c.found.pe ∧
      (c.meetElf src b).found.peCapped = c.found.peCapped := by
  unfold Carving.meetElf
  split
  · split
    · exact ⟨rfl, rfl, rfl⟩
    · exact ⟨rfl, rfl, rfl⟩
  · exact ⟨rfl, rfl, rfl⟩

private theorem archive_far (src : ByteSource) (c : Carving) (b : Nat)
    (zip : Bool) :
    (c.meetArchive src b zip).far = c.far ∧
      (c.meetArchive src b zip).found.pe = c.found.pe ∧
      (c.meetArchive src b zip).found.peCapped = c.found.peCapped := by
  rw [meetArchive_eq]
  dsimp only
  split
  · split
    · exact ⟨rfl, rfl, rfl⟩
    · exact ⟨rfl, rfl, rfl⟩
  · exact ⟨rfl, rfl, rfl⟩

private theorem valid_thin (positive : 0 < b) {be : Bool}
    (here : magicAt src b = some (.machoThin be)) :
    machoThinAt src b be ↔ isMacho src b := by
  unfold isMacho
  rw [here]
  constructor
  · intro valid
    exact ⟨positive, Or.inl ⟨be, rfl, valid⟩⟩
  · intro ⟨_, is⟩
    rcases is with ⟨be', same, valid⟩ | ⟨same, _⟩
    · obtain rfl : be = be' := by simpa using same
      exact valid
    · simp at same

private theorem valid_fat (positive : 0 < b)
    (here : magicAt src b = some .machoFat) :
    machoFatAt src b ↔ isMacho src b := by
  unfold isMacho
  rw [here]
  simp [positive]

theorem Met.meet (met : Met src b c) (holds : src.Holds data) (held : Nat)
    {kind : Magic} (here : magicAt src b = some kind) :
    Met src (b + 1) (c.meet src held (b, kind)) := by
  have noZip : kind ≠ .archive → ¬ zipAt src b := fun other =>
    not_zipAt holds (by simpa [here] using other)
  unfold Carving.meet
  dsimp only
  rw [zip_eq holds here]
  by_cases first : b = 0
  · subst first
    rw [if_pos rfl]
    have absent : ¬ isPe src 0 := fun is => absurd is.1 (Nat.lt_irrefl 0)
    by_cases zip : zipAt src 0
    · rw [if_pos zip]
      exact met.other (met.others.own holds (by rw [if_pos zip])) absent
        rfl rfl rfl
    · rw [if_neg zip]
      exact met.other (met.others.own holds (by rw [if_neg zip])) absent
        rfl rfl rfl
  · have positive : 0 < b := Nat.pos_of_ne_zero first
    rw [if_neg first]
    by_cases next : (zipAt src b && c.zipNext = some b) = true
    · rw [if_pos next]
      rw [Bool.and_eq_true, decide_eq_true_iff] at next
      have archive := magicAt_of_zipAt holds next.1
      have absent : ¬ isPe src b := not_pe archive (by simp)
      exact met.other (met.others.follow next.1 archive next.2) absent
        rfl rfl rfl
    · rw [if_neg next]
      rw [Bool.and_eq_true, decide_eq_true_iff, not_and] at next
      cases kind with
      | pe => exact met.meetPe holds positive here
      | elf =>
          obtain ⟨far, listed, capped⟩ := elf_far src c b
          exact met.other (met.others.meetElf holds positive here)
            (not_pe here (by simp)) far listed capped
      | machoThin be =>
          obtain ⟨far, listed, capped⟩ := macho_far c b
            (machoThinAt src b be)
          exact met.other (met.others.meetMacho holds
            (valid_thin positive here) (not_elf (by simp [here]))
            (by simp [here])) (not_pe here (by simp)) far listed capped
      | machoFat =>
          obtain ⟨far, listed, capped⟩ := macho_far c b
            (machoFatAt src b)
          exact met.other (met.others.meetMacho holds
            (valid_fat positive here) (not_elf (by simp [here]))
            (by simp [here])) (not_pe here (by simp)) far listed capped
      | archive =>
          have apart : ¬ Led src (· ∈ c.found.archives) b := by
            intro led
            have zip : zipAt src b := by
              obtain ⟨_, _, leads⟩ := led_iff.mp led
              exact leads.zip
            exact next zip ((met.others.slot b).mpr ((led_iff_slot zip).mp led))
          obtain ⟨far, listed, capped⟩ := archive_far src c b
            (zipAt src b)
          exact met.other (met.others.meetArchive holds positive here apart)
            (not_pe here (by simp)) far listed capped

/-! ## A window -/

private theorem Met.meetAll (met : Met src b c) (holds : src.Holds data)
    (owned : Nat) :
    Met src (b + owned)
      (((List.range' b owned).filterMap fun off =>
        (magicAt src off).map (off, ·)).foldl (Carving.meet src held) c) := by
  induction owned generalizing b c with
  | zero => exact met
  | succ owned induction =>
      rw [List.range'_succ, List.filterMap_cons]
      cases here : magicAt src b with
      | none =>
          have later := induction (met.skip holds here)
          rwa [show b + (owned + 1) = b + 1 + owned by omega]
      | some kind =>
          have later := induction (met.meet holds held here)
          rwa [show b + (owned + 1) = b + 1 + owned by omega]

/-- A window fed where the last one ended keeps what was met, whatever its
size. -/
theorem Met.feed {w : Bytes} {owned : Nat} (met : Met src b c)
    (holds : src.Holds data) (seen : Seen data b owned w) :
    Met src (b + owned) (c.feed src b w owned) := by
  have hits : Carving.hitsIn b w owned =
      (List.range' b owned).filterMap fun off =>
        (magicAt src off).map (off, ·) := by
    rw [holds.eq]
    exact hitsIn_eq seen
  unfold Carving.feed
  dsimp only
  rw [hits]
  split
  · exact (met.meetAll holds owned).settle
  · exact met.meetAll holds owned

theorem Met.new (farMax : Nat) : Met src 0 (.new farMax) := by
  refine ⟨⟨?_, ?_, ?_, ?_, ?_⟩, fun _ => False, ⟨?_, ?_⟩, ⟨?_, ?_, ?_, ?_⟩⟩
  · intro off
    constructor
    · intro points
      exact absurd points (by simp [Carving.new])
    · intro ⟨header, below, _⟩
      omega
  · exact Lowest.nil below_zero
  · exact Lowest.nil below_zero
  · exact Lowest.nil below_zero
  · simp [Carving.new, LeftOut, below_zero]
  · exact Lowest.nil fun _ => id
  · simp [Carving.new, LeftOut]
  · exact fun off is => is.elim
  · exact fun off is => absurd is (below_zero off)
  · exact fun pe off waiting => absurd waiting List.not_mem_nil
  · exact List.nodup_nil

end

end Exav.Carve
