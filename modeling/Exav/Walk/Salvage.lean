import Exav.Walk.Member

/-!
# What decoded before an error

A member whose decoder fails keeps what came before the failure only while all
of it fits in memory: past that the spill is given up, and the bytes with it.
What is kept is scanned, and the member is noted as not fully read, unless its
bytes are its container's own.
-/

namespace Exav.Walk

open Exav.Unpack Reader

section

variable {W σ : Type} {cx : MemberCtx W σ}

/-! ## Notes are kept -/

/-- A note that something could not be read outlives the check. -/
def Check.Keeps (check : Check σ) : Prop :=
  ∀ v, v.tally.unscannable.isSome = true →
    (check v).2.tally.unscannable.isSome = true

namespace Check.Keeps

theorem none : (noCheck : Check σ).Keeps := fun _ noted => noted

theorem andThen {first next : Check σ} (kept : first.Keeps)
    (keptNext : next.Keeps) : (first.andThen next).Keeps := by
  intro v noted
  have after := kept v noted
  unfold Check.andThen
  split
  · rename_i o w same
    rw [same] at after
    exact after
  · rename_i w same
    rw [same] at after
    exact keptNext w after

theorem report (signature : String) (method : Method) :
    (report signature method : Check σ).Keeps := fun _ noted => noted

theorem encryptedCheck (m : MemberMeta) : (encryptedCheck cx m).Keeps := by
  intro v noted
  unfold Walk.encryptedCheck
  split
  · split
    · exact report _ _ v noted
    · simpa using noted
  · exact noted

theorem packedCheck (m : MemberMeta) : (packedCheck cx m).Keeps := by
  intro v noted
  unfold Walk.packedCheck
  split
  · exact report _ _ v noted
  · exact noted

theorem unsupportedCheck (m : MemberMeta) :
    (unsupportedCheck m : Check σ).Keeps := by
  intro v noted
  unfold Walk.unsupportedCheck
  split
  · split
    · simpa using noted
    · simp
  · exact noted

theorem macroCheck (m : MemberMeta) : (macroCheck cx m).Keeps := by
  intro v noted
  unfold Walk.macroCheck
  split
  · exact report _ _ v noted
  · exact noted

theorem cdbChecks (m : MemberMeta) (sizeReal pos : Nat)
    (reported : Option String) (records : List Bool) :
    (cdbChecks cx m sizeReal pos reported records).Keeps := by
  induction records generalizing reported with
  | nil => exact none
  | cons encrypted records ih =>
      intro v noted
      unfold Walk.cdbChecks
      split
      · exact ih reported v noted
      · split
        · exact ih reported v noted
        · exact (report _ _).andThen (ih _) v noted

theorem memberMetadataScan (m : MemberMeta) (sizeReal : Nat) :
    (memberMetadataScan cx m sizeReal).Keeps := by
  intro v noted
  exact (encryptedCheck m).andThen ((packedCheck m).andThen
    ((unsupportedCheck m).andThen ((macroCheck m).andThen
      (cdbChecks m sizeReal v.tally.pos .none m.records)))) _ noted

end Check.Keeps

/-! ## The member is noted -/

/-- The check stops the walk, or leaves a note that something was not read. -/
def Check.Notes (check : Check σ) (v : Visit σ) : Prop :=
  (check v).1.isSome = true ∨ (check v).2.tally.unscannable.isSome = true

theorem Check.Notes.andThen {first next : Check σ} {v : Visit σ}
    (noted : ∀ w, next.Notes w) : (first.andThen next).Notes v := by
  unfold Check.Notes Check.andThen
  split
  · exact Or.inl rfl
  · exact noted _

theorem Check.Keeps.notes {check : Check σ} (kept : check.Keeps)
    {v : Visit σ} (noted : v.tally.unscannable.isSome = true) :
    check.Notes v :=
  Or.inr (kept v noted)

theorem scanSalvaged_notes {e : IoError} (hides : e.hidesContent = true)
    (name : String) (data : Bytes) (v : Visit σ) :
    (scanSalvaged cx name data e).Notes v := by
  unfold Check.Notes scanSalvaged
  split
  · exact Or.inl rfl
  · rw [if_pos hides]
    exact Or.inr (by simp)

/-! ## Reading up to an error -/

variable {replies : Reader} {e : IoError}

/-- All that decoded fits in memory: it is kept, with the error that cut it
short, or it is nothing at all and noted here. -/
theorem readMember_of_fits (tally : MemberTally)
    (fails : error replies = some e) (decodes : e.isBudgetOverflow = false)
    (unchecked : cx.verifyChecksums = false)
    (sized : (decoded replies).length < u64Max)
    (fits : (decoded replies).length ≤ cx.deepAnalysisMax) :
    readMember cx tally replies =
      if (decoded replies).isEmpty && e.hidesContent then
        ⟨.ok .none, tally.noteUnscannable s!"member decode error: {e.text}",
          none⟩
      else ⟨.ok (.mem (decoded replies)), tally, some e⟩ := by
  have short : (decoded replies).length <
      min (cx.deepAnalysisMax + 1) u64Max := by omega
  obtain ⟨taken, stopped⟩ := takeToEnd_of_short short
  simp only [readMember, taken, stopped, fails, decodes, unchecked,
    Bool.false_or, Bool.false_eq_true, if_false, List.take_of_length_le fits]

theorem readMember_of_exceeds (tally : MemberTally)
    (fails : error replies = some e) (decodes : e.isBudgetOverflow = false)
    (sized : (decoded replies).length < u64Max)
    (exceeds : cx.deepAnalysisMax < (decoded replies).length) {body : Body}
    (read : (readMember cx tally replies).result = .ok body) :
    body = .none := by
  have long : min (cx.deepAnalysisMax + 1) u64Max ≤
      (decoded replies).length := by omega
  obtain ⟨unstopped, taken, left, ending⟩ := takeToEnd_of_long long
  have refused (why : String)
      (read : (notScanned cx tally why).result = .ok body) : body = .none := by
    unfold notScanned at read
    split at read
    · simpa using read.symm
    · simp at read
  have held : ¬(decoded replies |>.take
      (min (cx.deepAnalysisMax + 1) u64Max)).length ≤ cx.deepAnalysisMax := by
    rw [List.length_take]
    omega
  simp only [readMember, unstopped, taken, held, if_false, spillMember] at read
  cases given : cx.spill with
  | none =>
      rw [given] at read
      exact refused _ read
  | some spill =>
      have broken : error (chain ((decoded replies).take
          (min (cx.deepAnalysisMax + 1) u64Max))
          (takeToEnd (min (cx.deepAnalysisMax + 1) u64Max) replies).rest) =
            some e := by
        rw [error_chain, ending, fails]
      rw [given] at read
      rcases @spillStream_of_fails W spill _ e broken with failed | ⟨why, failed⟩
      · simp only [failed, decodes, Bool.false_eq_true, if_false] at read
        simpa using read.symm
      · simp only [failed] at read
        exact refused why read

/-! ## What the walk does with it -/

structure Salvages (cx : MemberCtx W σ) (container : Bytes) (m : MemberMeta)
    (v : Visit σ) (replies : Reader) (e : IoError) : Prop where
  handedOn : ∃ body, (readMember cx v.tally replies).result = .ok body ∧
    body.bytes = decoded replies
  noted : e.hidesContent = true →
    (visitMember cx container m (some (.stream replies))).Notes v

def PassedOver (container : Bytes) (v : Visit σ) (replies : Reader) : Prop :=
  decoded replies ≠ [] ∧ decoded replies = container ∧
    v.tally.unscannable = none

theorem Body.fixedPoint_mem (container data : Bytes) :
    (Body.mem data).fixedPoint container = true ↔ data = container := by
  simp only [Body.fixedPoint, Bool.and_eq_true, beq_iff_eq]
  constructor
  · exact fun same => same.2.symm
  · rintro rfl
    exact ⟨rfl, rfl⟩

/-- Nothing decoded: the failure is noted as the member is read. -/
theorem visitMember_notes_of_empty {container : Bytes} {m : MemberMeta}
    {v : Visit σ} (fails : error replies = some e)
    (decodes : e.isBudgetOverflow = false)
    (unchecked : cx.verifyChecksums = false)
    (hides : e.hidesContent = true) (empty : decoded replies = []) :
    (visitMember cx container m (some (.stream replies))).Notes v := by
  have read := @readMember_of_fits W σ cx replies e v.tally fails decodes
    unchecked (by simp [empty, u64Max]) (by simp [empty])
  simp only [empty, List.isEmpty_nil, hides, Bool.and_self, if_true] at read
  have kept : ((memberMetadataScan cx m (Body.none.size m)).andThen
      (scanBody cx m none .none)).Keeps :=
    (Check.Keeps.memberMetadataScan m _).andThen Check.Keeps.none
  simp only [Check.Notes, visitMember, read, visitBody, Body.fixedPoint,
    Bool.false_eq_true, if_false]
  exact kept.notes (by simp)

/-- Some bytes decoded: they are scanned and the member is noted, unless they
are passed over. -/
theorem visitMember_notes_of_some {container : Bytes} {m : MemberMeta}
    {v : Visit σ} (fails : error replies = some e)
    (decodes : e.isBudgetOverflow = false)
    (unchecked : cx.verifyChecksums = false)
    (sized : (decoded replies).length < u64Max)
    (fits : (decoded replies).length ≤ cx.deepAnalysisMax)
    (hides : e.hidesContent = true) (some_ : decoded replies ≠ []) :
    (visitMember cx container m (some (.stream replies))).Notes v ↔
      (decoded replies = container →
        v.tally.unscannable.isSome = true) := by
  have read := readMember_of_fits v.tally fails decodes unchecked sized fits
  have filled : (decoded replies).isEmpty = false := by simpa using some_
  simp only [filled, Bool.false_and, Bool.false_eq_true, if_false] at read
  simp only [Check.Notes, visitMember, read, visitBody,
    Body.fixedPoint_mem]
  by_cases same : decoded replies = container
  · simp [same]
  · have scanned (w : Visit σ) : (scanBody cx m (some e)
        (.mem (decoded replies))).Notes w := by
      simp only [scanBody, filled, Bool.false_and, Bool.false_eq_true,
        if_false]
      exact scanSalvaged_notes hides _ _ w
    simp only [same, if_false, false_implies, iff_true]
    exact Check.Notes.andThen scanned

theorem visitMember_notes_iff {container : Bytes} {m : MemberMeta}
    {v : Visit σ} (fails : error replies = some e)
    (decodes : e.isBudgetOverflow = false)
    (unchecked : cx.verifyChecksums = false)
    (sized : (decoded replies).length < u64Max)
    (fits : (decoded replies).length ≤ cx.deepAnalysisMax)
    (hides : e.hidesContent = true) :
    (visitMember cx container m (some (.stream replies))).Notes v ↔
      ¬PassedOver container v replies := by
  by_cases empty : decoded replies = []
  · have noted : (visitMember cx container m (some (.stream replies))).Notes v :=
      visitMember_notes_of_empty fails decodes unchecked hides empty
    simp [noted, PassedOver, empty]
  · rw [visitMember_notes_of_some fails decodes unchecked sized fits hides
      empty]
    simp [PassedOver, empty, Option.isSome_iff_ne_none]

theorem salvages_iff (container : Bytes) (m : MemberMeta) (v : Visit σ)
    (fails : error replies = some e) (decodes : e.isBudgetOverflow = false)
    (unchecked : cx.verifyChecksums = false)
    (sized : (decoded replies).length < u64Max) :
    Salvages cx container m v replies e ↔
      (decoded replies).length ≤ cx.deepAnalysisMax ∧
        (e.hidesContent = true → ¬PassedOver container v replies) := by
  constructor
  · rintro ⟨⟨body, read, handed⟩, noted⟩
    have fits : (decoded replies).length ≤ cx.deepAnalysisMax := by
      by_contra exceeds
      have none_ := readMember_of_exceeds v.tally fails decodes sized
        (by omega) read
      rw [none_] at handed
      rw [← handed] at exceeds
      exact exceeds (Nat.zero_le _)
    exact ⟨fits, fun hides => (visitMember_notes_iff fails decodes unchecked
      sized fits hides).mp (noted hides)⟩
  · rintro ⟨fits, met⟩
    refine ⟨?_, fun hides => (visitMember_notes_iff fails decodes unchecked
      sized fits hides).mpr (met hides)⟩
    rw [readMember_of_fits v.tally fails decodes unchecked sized fits]
    split
    · rename_i empty
      simp only [Bool.and_eq_true, List.isEmpty_iff] at empty
      exact ⟨.none, rfl, empty.1.symm⟩
    · exact ⟨.mem (decoded replies), rfl, rfl⟩

end

/-! ## A damaged member -/

/-- A spill kept in memory. -/
def heldSpill : Spill Bytes where
  create := .ok []
  write file bytes := .ok (file ++ bytes)
  finish file := .ok ⟨file, none⟩

theorem heldSpill_works : heldSpill.Works id where
  create := ⟨[], rfl, rfl⟩
  write _ _ := ⟨_, rfl, rfl⟩
  finish _ := rfl

/-- A scan that finds nothing, holding members of up to `cap` bytes. -/
def quietCx (cap : Nat) : MemberCtx Bytes Unit where
  deepAnalysisMax := cap
  alertExceedsMax := false
  alertEncrypted := false
  alertPacked := false
  alertMacros := false
  unofficialSuffix := false
  verifyChecksums := false
  spill := some heldSpill
  ignored := []
  fmt := .other
  containerIsOle := false
  cdbMatches _ := none
  scanObject _ _ sink rest := (.clean, sink, rest)

def quietVisit : Visit Unit :=
  ⟨.new, .new 0, .first [], ()⟩

def plainMember : MemberMeta :=
  ⟨"member", 3, false, none, none⟩

def damaged : IoError := ⟨.invalidData, none⟩

def damagedStream : Reader := [.bytes 1 [2], .failed damaged]

/-- Both bytes fit in memory: they are scanned and the damage is noted. -/
theorem salvages_two_of_two :
    Salvages (quietCx 2) [0] plainMember quietVisit damagedStream damaged :=
  (salvages_iff [0] plainMember quietVisit rfl (by decide) rfl
    (by decide)).mpr
    ⟨by decide, fun _ passed => absurd passed.2.1 (by decide)⟩

/-- One fits: the spill works, and both are lost with it. -/
theorem salvages_none_of_two : heldSpill.Works id ∧
    ¬Salvages (quietCx 1) [0] plainMember quietVisit damagedStream damaged := by
  refine ⟨heldSpill_works, ?_⟩
  rintro ⟨⟨body, read, handed⟩, -⟩
  have lost : body = .none :=
    readMember_of_exceeds quietVisit.tally rfl (by decide) (by decide)
      (by decide) read
  rw [lost] at handed
  exact absurd handed (by decide)

end Exav.Walk
