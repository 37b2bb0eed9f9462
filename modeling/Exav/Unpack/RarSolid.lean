import Exav.Lib.Chain
import Exav.Unpack.RarExtract

/-!
# Solid RAR4 members

A compressed member flagged solid is handed over as its own only where the
window was in step, or where what it decoded to has its checksum.
-/

set_option maxRecDepth 8192

namespace Exav.Unpack

open Exav.Chain

theorem bind_eq_ok {ε α β : Type} {x : Except ε α} {f : α → Except ε β} {b : β}
    (ok : (x >>= f) = .ok b) : ∃ a, x = .ok a ∧ f a = .ok b := by
  cases x with
  | error hit => cases ok
  | ok a => exact ⟨a, rfl, ok⟩

/-! ## What is handed over for each member -/

/-- The entries handed over for some members, one after the other, each fair
for its member after the members before it. -/
inductive HandedOver {F : Type} (fair : List F → F → List Entry → Prop) :
    List F → List Entry → Prop where
  | none : HandedOver fair [] []
  | next {before : List F} {f : F} {out entries : List Entry} :
      HandedOver fair before out → fair before f entries →
      HandedOver fair (before ++ [f]) (out ++ entries)

/-- The entries of the members, and after them at most notices. -/
def HandsOver {F : Type} (fair : List F → F → List Entry → Prop)
    (files : List F) (out : List Entry) : Prop :=
  ∃ handed notice, out = handed ++ notice ∧
    (∀ e ∈ notice, e.readable = false) ∧ HandedOver fair files handed

theorem pushUnsupported_eq {budget after : Budget} {name reason : String}
    {pack : Nat} {encrypted : Bool} {entry : Entry}
    (ok : pushUnsupported budget name pack encrypted reason =
      .ok (entry, after)) :
    entry = .ofUnsupported name pack encrypted reason := by
  obtain ⟨spent, -, rest⟩ := bind_eq_ok ok
  cases rest
  rfl

section

variable {F : Type} {fair : List F → F → List Entry → Prop} {before : List F}
  {out : List Entry}

theorem HandedOver.ends (handing : HandedOver fair before out) :
    HandsOver fair (before ++ []) out :=
  ⟨out, [], (List.append_nil out).symm, by simp, by rwa [List.append_nil]⟩

/-- Headers that cannot be opened are told of, and the walk ends there. -/
theorem HandedOver.locked (handing : HandedOver fair before out)
    {budget after : Budget} {name reason : String} {pack : Nat} {encrypted : Bool}
    {entry : Entry}
    (told : pushUnsupported budget name pack encrypted reason =
      .ok (entry, after)) :
    HandsOver fair (before ++ []) (out ++ [entry]) := by
  refine ⟨out, [entry], rfl, ?_, by rwa [List.append_nil]⟩
  intro e member
  rw [List.mem_singleton.mp member, pushUnsupported_eq told]
  rfl

end

/-- A member that decodes does so in a decoder that is fresh where it needs one,
and else the one that was kept. -/
theorem Unpacker.feed_spec {D : Type} {lz : Unpacker D} {window unp : Nat}
    {solid : Bool} {dec : Option D} {budget : Budget} {packed b : Bytes}
    (decoded : (lz.feed packed unp solid (lz.renew window solid dec budget)
      budget).1 = some b) :
    ∃ d d' after, lz.member d packed unp solid budget = (some b, d', after) ∧
      (lz.feed packed unp solid (lz.renew window solid dec budget)
        budget).2.1 = some d' ∧
      (solid = false → lz.new window budget = some d) ∧
      (solid = true →
        dec = some d ∨ dec = none ∧ lz.new window budget = some d) := by
  cases renewed : lz.renew window solid dec budget with
  | none =>
      rw [renewed] at decoded
      cases decoded
  | some d =>
      rw [renewed] at decoded
      rcases result : lz.member d packed unp solid budget with ⟨bytes, d', after⟩
      simp only [Unpacker.feed, result] at decoded ⊢
      subst decoded
      refine ⟨d, d', after, result, rfl, ?_, ?_⟩
      · intro afresh
        simpa [Unpacker.renew, afresh] using renewed
      · intro continues
        cases dec with
        | none => exact Or.inr ⟨rfl, by simpa [Unpacker.renew] using renewed⟩
        | some kept =>
            refine Or.inl ?_
            simpa [Unpacker.renew, continues] using renewed

section

variable {D K : Type} {build : Build} {lz : Unpacker D} {cipher : Rar3Cipher K}
variable {data : Bytes}

namespace Rar4File

/-- Its data is not the file's own bytes. -/
def compressed (m : Rar4File) : Bool :=
  !m.isDir && m.method ≠ 0x30

/-- The LZ decoder is given the member's data as it is in the archive. -/
def fed (m : Rar4File) : Bool :=
  !m.isDir && !m.encrypted && !m.split && m.unpack29

end Rar4File

def rar4Stream (lz : Unpacker D) (data : Bytes) : Stream Rar4File D Bytes where
  carries m := m.isDir = false
  solid m := m.solid = true
  fresh m d := ∃ budget, lz.new m.winBits budget = some d
  decodes m d b d' := m.fed = true ∧ ∃ budget after,
    lz.member d (m.raw data) m.unp m.solid budget = (some b, d', after)

/-- The bytes have the checksum in the member's header. -/
def rar4Agrees (m : Rar4File) (b : Bytes) : Prop :=
  crc32Ieee b = m.crc

/-- A compressed solid member is handed over once, and as its own bytes only
when its window was in step or they have its checksum. -/
def rar4Fair (lz : Unpacker D) (data : Bytes)
    (trusted : Rar4File → Bytes → Prop) (before : List Rar4File)
    (m : Rar4File) (entries : List Entry) : Prop :=
  m.solid = true → m.compressed = true → ∃ e, entries = [e] ∧
    (e.readable = true →
      Sound (rar4Stream lz data) trusted before m e.data ∨
        rar4Agrees m e.data)

/-! ## One member -/

/-- What a solid member is decoded to while the flag is down, where that has its
checksum: the flag goes up again. -/
def Rar4Walk.raised (lz : Unpacker D) (data : Bytes) (m : Rar4File)
    (s : Rar4Walk D K) : Option Bytes :=
  match s.budget.countEntry with
  | .error _ => none
  | .ok budget =>
      if m.fed && m.solid && !s.inStep then
        ({ s with budget := budget }.decode lz m (m.raw data)).1.filter
          fun b => crc32Ieee b = m.crc
      else none

variable {trusted : Rar4File → Bytes → Prop}

/-- What the walk keeps about the window. -/
def Rar4Walk.Holds (lz : Unpacker D) (data : Bytes)
    (trusted : Rar4File → Bytes → Prop) (before : List Rar4File)
    (s : Rar4Walk D K) : Prop :=
  Promises (rar4Stream lz data) trusted before s.inStep s.solidDec

theorem keys_inStep {pw : String} {salt : Bytes} (s : Rar4Walk D K) :
    (s.keys cipher pw salt).2.inStep = s.inStep := by
  rw [Rar4Walk.keys]
  split
  · rfl
  · dsimp only
    split <;> rfl

theorem decode_inStep {m : Rar4File} {packed : Bytes} (s : Rar4Walk D K) :
    (s.decode lz m packed).2.inStep = s.inStep :=
  rfl

theorem rar4TryPasswords_spec {raw salt : Bytes} {m : Rar4File}
    {tries : List String} {s after : Rar4Walk D K} {plain : Option Bytes}
    (ok : rar4TryPasswords lz cipher raw salt m tries s = .ok (plain, after)) :
    after.inStep = s.inStep ∧ ∀ b ∈ plain, rar4Agrees m b := by
  induction tries generalizing s with
  | nil =>
      cases ok
      exact ⟨rfl, by simp⟩
  | cons pw tries ih =>
      rw [rar4TryPasswords] at ok
      have kept := @keys_inStep D K cipher pw salt s
      rcases derived : s.keys cipher pw salt with ⟨keys, opened⟩
      rw [derived] at ok kept
      cases keys with
      | none =>
          cases ok
          exact ⟨kept, by simp⟩
      | some keys =>
          dsimp only at ok
          set tried := if m.unpack29 then
            opened.decode lz m (cipher.decrypt keys raw)
            else (some ((cipher.decrypt keys raw).take m.unp), opened)
            with triedEq
          have steady : tried.2.inStep = s.inStep := by
            rw [triedEq, ← kept]
            split
            · exact decode_inStep opened
            · rfl
          rcases tried with ⟨decoded, walked⟩
          have again (retried : rar4TryPasswords lz cipher raw salt m tries
              { walked with solidDec := none } = .ok (plain, after)) :
              after.inStep = s.inStep ∧ ∀ b ∈ plain, rar4Agrees m b := by
            obtain ⟨same, agree⟩ := ih retried
            exact ⟨same.trans steady, agree⟩
          cases decoded with
          | none => exact again ok
          | some b =>
              dsimp only at ok
              split at ok
              · rename_i agree
                obtain ⟨budget, -, rest⟩ := bind_eq_ok ok
                cases rest
                refine ⟨steady, ?_⟩
                intro b' same
                cases same
                exact agree
              · exact again ok

theorem rar4DecryptMember_spec {raw : Bytes} {m : Rar4File}
    {s after : Rar4Walk D K} {plain : Option Bytes}
    (ok : rar4DecryptMember build lz cipher raw m s = .ok (plain, after)) :
    after.inStep = s.inStep ∧ ∀ b ∈ plain, rar4Agrees m b := by
  rw [rar4DecryptMember] at ok
  split at ok
  · cases ok
    exact ⟨rfl, by simp⟩
  · split at ok
    · cases ok
      exact ⟨rfl, by simp⟩
    · split at ok
      · cases ok
        exact ⟨rfl, by simp⟩
      · exact rar4TryPasswords_spec ok

theorem rar4Decompress_spec {before : List Rar4File} {m : Rar4File}
    {s after : Rar4Walk D K} {entry : Entry} (fed : m.fed = true)
    (trust : ∀ b ∈ s.raised lz data m, trusted m b)
    (promised : s.Holds lz data trusted before)
    (ok : rar4Decompress build lz data m s = .ok (entry, after)) :
    after.Holds lz data trusted (before ++ [m]) ∧
      rar4Fair lz data trusted before m [entry] := by
  obtain ⟨budget, counted, rest⟩ := bind_eq_ok ok
  dsimp only [Rar4Walk.decode] at rest
  have decodes := @Unpacker.feed_spec D lz m.winBits m.unp m.solid s.solidDec
    budget (m.raw data)
  rcases result : lz.feed (m.raw data) m.unp m.solid
      (lz.renew m.winBits m.solid s.solidDec budget) budget with
    ⟨decoded, dec, spent⟩
  rw [result] at rest decodes
  cases decoded with
  | none =>
      cases rest
      refine ⟨.lowered _, ?_⟩
      intro _ _
      exact ⟨_, rfl, fun readable => by cases readable⟩
  | some b =>
      obtain ⟨d, d', left, member, kept, afresh, continued⟩ := decodes rfl
      dsimp only at kept
      subst kept
      have decoding : (rar4Stream lz data).decodes m d b d' :=
        ⟨fed, budget, left, member⟩
      cases rest
      refine ⟨promised.decoded ?_ ?_ decoding ?_, ?_⟩
      · intro apart
        exact ⟨budget, afresh (by simpa [rar4Stream] using apart)⟩
      · intro solid
        rcases continued solid with same | ⟨absent, new⟩
        · exact Or.inl same
        · exact Or.inr ⟨absent, budget, new⟩
      · intro raised solid
        have solid : m.solid = true := solid
        cases flag : s.inStep with
        | true => exact Or.inl rfl
        | false =>
            have agree : crc32Ieee b = m.crc := by
              simpa [solid, flag] using raised
            have decoded := congrArg Prod.fst result
            rw [solid] at decoded
            refine Or.inr (trust b ?_)
            simpa [Rar4Walk.raised, counted, fed, solid, flag, Rar4Walk.decode,
              agree] using decoded
      · intro solid _
        refine ⟨_, rfl, ?_⟩
        intro readable
        by_cases agree : crc32Ieee b = m.crc
        · exact Or.inr (by simp [agree, rar4Agrees])
        · -- Without the checksum's word the window was in step.
          refine Or.inl ?_
          cases flag : s.inStep with
          | false => simp [agree, solid, flag] at readable
          | true =>
              rw [Rar4Walk.Holds, flag] at promised
              have sound := promised.sound (m := m) (d := d) (b := b) ?_
                decoding
              · cases verify : Budget.shouldVerifyChecksums build spent with
                | true => simp [agree, solid, flag, verify] at readable
                | false => simpa [agree, solid, flag, verify] using sound
              · rcases continued solid with same | ⟨absent, new⟩
                · exact Or.inl same
                · exact Or.inr ⟨absent, budget, new⟩

/-- One member: the flag keeps its promise, and what is handed over is fair. -/
theorem rar4Member_spec {before : List Rar4File} {m : Rar4File}
    {s after : Rar4Walk D K} {entries : List Entry}
    (trust : ∀ b ∈ s.raised lz data m, trusted m b)
    (promised : s.Holds lz data trusted before)
    (ok : rar4Member build lz cipher data m s = .ok (entries, after)) :
    after.Holds lz data trusted (before ++ [m]) ∧
      rar4Fair lz data trusted before m entries := by
  rw [rar4Member] at ok
  dsimp only at ok
  -- A notice is no content.
  have notice (e : Entry) (unread : e.readable = false) :
      rar4Fair lz data trusted before m [e] := by
    intro _ _
    refine ⟨e, rfl, ?_⟩
    intro readable
    rw [unread] at readable
    cases readable
  have low {walk : Rar4Walk D K} (lowered : walk.inStep = false) :
      walk.Holds lz data trusted (before ++ [m]) := by
    rw [Rar4Walk.Holds, lowered]
    exact .lowered _
  cases dir : m.isDir with
  | true =>
      rw [dir] at ok
      simp only [Bool.true_or, Bool.and_true, if_true] at ok
      cases ok
      refine ⟨promised.idle ?_, ?_⟩
      · intro carries
        exact absurd (dir.symm.trans carries) (by decide)
      · intro _ compressed
        simp [Rar4File.compressed, dir] at compressed
  | false =>
      rw [dir] at ok
      simp only [Bool.false_or, Bool.false_eq_true, if_false] at ok
      split at ok
      · rename_i locked
        rw [Bool.and_eq_true] at locked
        obtain ⟨budget, -, rest⟩ := bind_eq_ok ok
        obtain ⟨⟨plain, opened⟩, decrypted, rest⟩ := bind_eq_ok rest
        obtain ⟨same, agree⟩ := rar4DecryptMember_spec decrypted
        simp only [locked.1, Bool.not_true, Bool.false_and, Bool.and_false]
          at same
        cases plain with
        | none =>
            cases rest
            exact ⟨low same, notice _ rfl⟩
        | some bytes =>
            cases rest
            refine ⟨low same, ?_⟩
            intro _ _
            exact ⟨_, rfl, fun _ => Or.inr (agree bytes rfl)⟩
      · split at ok
        · rename_i unlocked stored
          rw [Bool.and_eq_true] at stored
          have plain : m.method = 0x30 := by simpa using stored.1
          have unfed : m.unpack29 = false := by
            simp [Rar4File.unpack29, plain]
          have fair (entries : List Entry) :
              rar4Fair lz data trusted before m entries := by
            intro _ compressed
            simp [Rar4File.compressed, plain] at compressed
          simp only [unfed, Bool.and_false] at ok
          split at ok
          · obtain ⟨⟨told, budget⟩, -, rest⟩ := bind_eq_ok ok
            obtain ⟨⟨entry, budget⟩, -, rest⟩ := bind_eq_ok rest
            cases rest
            exact ⟨low rfl, fair _⟩
          · obtain ⟨⟨entry, budget⟩, -, rest⟩ := bind_eq_ok ok
            cases rest
            exact ⟨low rfl, fair _⟩
        · split at ok
          · rename_i split
            obtain ⟨⟨entry, budget⟩, told, rest⟩ := bind_eq_ok ok
            cases rest
            refine ⟨low ?_, notice _ ?_⟩
            · simp [split]
            · rw [pushUnsupported_eq told]
              rfl
          · rename_i unlocked unstored whole
            split at ok
            · rename_i fed
              obtain ⟨⟨entry, walked⟩, decoded, rest⟩ := bind_eq_ok ok
              cases rest
              have whole : m.split = false := by simpa using whole
              rw [fed, whole] at decoded
              refine rar4Decompress_spec ?_ ?_ ?_ decoded
              · rw [Bool.and_eq_true] at fed
                have clear : m.encrypted = false := by simpa using fed.1
                simp [Rar4File.fed, dir, whole, fed.2, clear]
              · simpa [Rar4Walk.raised, Rar4Walk.decode] using trust
              · simpa [Rar4Walk.Holds] using promised
            · rename_i unfed
              have unfed : (!m.encrypted && m.unpack29) = false := by
                simpa using unfed
              obtain ⟨⟨entry, budget⟩, told, rest⟩ := bind_eq_ok ok
              cases rest
              refine ⟨low ?_, notice _ ?_⟩
              · simp [unfed]
              · rw [pushUnsupported_eq told]
                rfl

/-! ## The whole archive -/

/-- The file headers of an archive, in the order of the walk. -/
def rar4Files (data : Bytes) : (rounds pos : Nat) → List Rar4File
  | 0, _ => []
  | rounds + 1, pos =>
      match rar4Block data pos with
      | none => []
      | some block =>
          let next := pos + block.headSize + block.addSize
          if block.type = 0x73 ∧ block.flags &&& 0x80 ≠ 0 then []
          else if block.type = 0x7B then []
          else if block.type = 0x74 then
            rar4FileFields data pos block :: rar4Files data rounds next
          else rar4Files data rounds next

/-- The members at which the walk from `pos` on raises the flag again, and what
they are decoded to. -/
def rar4Raised (build : Build) (lz : Unpacker D) (cipher : Rar3Cipher K)
    (data : Bytes) : (rounds pos : Nat) → Rar4Walk D K → List (Rar4File × Bytes)
  | 0, _, _ => []
  | rounds + 1, pos, s =>
      match rar4Block data pos with
      | none => []
      | some block =>
          let next := pos + block.headSize + block.addSize
          if block.type = 0x73 ∧ block.flags &&& 0x80 ≠ 0 then []
          else if block.type = 0x7B then []
          else if block.type = 0x74 then
            let m := rar4FileFields data pos block
            (s.raised lz data m).toList.map (m, ·) ++
              match rar4Member build lz cipher data m s with
              | .ok (_, s) => rar4Raised build lz cipher data rounds next s
              | .error _ => []
          else rar4Raised build lz cipher data rounds next s

theorem rar4Walk_spec {rounds pos : Nat} {before : List Rar4File}
    {out handed : List Entry} {s after : Rar4Walk D K} {again : Option Bytes}
    (trust : ∀ x ∈ rar4Raised build lz cipher data rounds pos s, trusted x.1 x.2)
    (promised : s.Holds lz data trusted before)
    (handing : HandedOver (rar4Fair lz data trusted) before out)
    (ok : rar4Walk build lz cipher data rounds pos out s =
      .ok (handed, after, again)) :
    HandsOver (rar4Fair lz data trusted) (before ++ rar4Files data rounds pos)
      handed := by
  induction rounds generalizing pos before out s with
  | zero =>
      cases ok
      exact handing.ends
  | succ rounds ih =>
      rw [rar4Walk] at ok
      rw [rar4Files]
      rw [rar4Raised] at trust
      cases found : rar4Block data pos with
      | none =>
          rw [found] at ok
          cases ok
          exact handing.ends
      | some block =>
          rw [found] at ok trust
          dsimp only at ok trust ⊢
          split at ok
          · rename_i locked
            rw [if_pos locked]
            rcases opened : rar4OpenHeaders build cipher data pos
              (pos + block.headSize) s with ⟨plain, walked⟩
            rw [opened] at ok
            cases plain with
            | some plain =>
                cases ok
                exact handing.ends
            | none =>
                obtain ⟨⟨entry, budget⟩, told, rest⟩ := bind_eq_ok ok
                cases rest
                exact handing.locked told
          · rename_i unlocked
            rw [if_neg unlocked] at trust ⊢
            split at ok
            · rename_i last
              rw [if_pos last]
              cases ok
              exact handing.ends
            · rename_i further
              rw [if_neg further] at trust ⊢
              split at ok
              · rename_i file
                obtain ⟨⟨entries, walked⟩, member, rest⟩ := bind_eq_ok ok
                rw [if_pos file, member, List.forall_mem_append] at trust
                rw [if_pos file]
                obtain ⟨kept, fair⟩ := rar4Member_spec
                  (fun b raised => trust.1 (_, b) (by simpa using raised))
                  promised member
                have done := ih trust.2 kept (handing.next fair) rest
                rwa [List.append_assoc] at done
              · rename_i other
                rw [if_neg other] at trust ⊢
                exact ih trust promised handing ok

/-- An archive as it is read: as it is, or with its headers opened. -/
inductive Rar4Reading (build : Build) (cipher : Rar3Cipher K) (D : Type) :
    Bytes → Bytes → Prop where
  | whole (data : Bytes) : Rar4Reading build cipher D data data
  | opened {data plain archive : Bytes} {mainAt mainEnd : Nat}
      {s after : Rar4Walk D K} :
      rar4OpenHeaders build cipher data mainAt mainEnd s =
        (some plain, after) →
      Rar4Reading build cipher D plain archive →
      Rar4Reading build cipher D data archive

/-- A walk that asks to read another archive has opened its headers. -/
theorem rar4Walk_again {rounds pos : Nat} {out handed : List Entry}
    {s after : Rar4Walk D K} {plain : Bytes}
    (ok : rar4Walk build lz cipher data rounds pos out s =
      .ok (handed, after, some plain)) :
    ∃ mainAt mainEnd, ∃ walked left : Rar4Walk D K,
      rar4OpenHeaders build cipher data mainAt mainEnd walked =
        (some plain, left) := by
  induction rounds generalizing pos out s with
  | zero => cases ok
  | succ rounds ih =>
      rw [rar4Walk] at ok
      cases found : rar4Block data pos with
      | none =>
          rw [found] at ok
          cases ok
      | some block =>
          rw [found] at ok
          dsimp only at ok
          split at ok
          · rcases opened : rar4OpenHeaders build cipher data pos
              (pos + block.headSize) s with ⟨result, walked⟩
            rw [opened] at ok
            cases result with
            | some result =>
                cases ok
                exact ⟨_, _, _, _, opened⟩
            | none =>
                obtain ⟨told, -, rest⟩ := bind_eq_ok ok
                cases rest
          · split at ok
            · cases ok
            · split at ok
              · obtain ⟨handed, -, rest⟩ := bind_eq_ok ok
                exact ih rest
              · exact ih ok

/-- The members at which the flag is raised again, in the reading that is handed
over. -/
def rar4KeyedRaised (build : Build) (lz : Unpacker D) (cipher : Rar3Cipher K)
    (start : Nat) :
    (reads : Nat) → Bytes → Budget → Rar4Crypt K → List (Rar4File × Bytes)
  | 0, _, _, _ => []
  | reads + 1, data, budget, crypt =>
      let s := ⟨budget, crypt, none, true⟩
      match rar4Walk build lz cipher data data.length start [] s with
      | .ok (_, s, some plain) =>
          rar4KeyedRaised build lz cipher start reads plain s.budget s.crypt
      | _ => rar4Raised build lz cipher data data.length start s

/-- The members of a RAR4 archive are handed over fairly, where those that raise
the flag again are trusted. -/
theorem extractRar4Keyed_spec {start reads : Nat} {budget spent : Budget}
    {crypt : Rar4Crypt K} {out : List Entry}
    (ok : extractRar4Keyed build lz cipher start reads data budget crypt =
      some (.ok (out, spent))) :
    ∃ archive, Rar4Reading build cipher D data archive ∧
      ∀ trusted : Rar4File → Bytes → Prop,
        (∀ x ∈ rar4KeyedRaised build lz cipher start reads data budget crypt,
          trusted x.1 x.2) →
        HandsOver (rar4Fair lz archive trusted)
          (rar4Files archive archive.length start) out := by
  induction reads generalizing data budget crypt with
  | zero => cases ok
  | succ reads ih =>
      rw [extractRar4Keyed] at ok
      rw [rar4KeyedRaised]
      cases walked : rar4Walk build lz cipher data data.length start []
          ⟨budget, crypt, none, true⟩ with
      | error hit =>
          rw [walked] at ok
          cases ok
      | ok result =>
          obtain ⟨handed, after, again⟩ := result
          rw [walked] at ok
          cases again with
          | none =>
              cases ok
              refine ⟨data, .whole data, fun trusted trust => ?_⟩
              have promised : (Rar4Walk.mk budget crypt none true).Holds lz data
                  trusted [] := fun _ => by simp
              exact rar4Walk_spec trust promised .none walked
          | some plain =>
              obtain ⟨_, _, _, _, opened⟩ := rar4Walk_again walked
              obtain ⟨archive, reading, handing⟩ := ih ok
              exact ⟨archive, .opened opened reading, handing⟩

end

/-!
## Solid RAR5 members

As for RAR4, but a member whose header records no checksum passes for its own
bytes whatever it decodes to.
-/

structure Rar5Item where
  block : Rar5Block
  file : Rar5File
  deriving DecidableEq

namespace Rar5Item

/-- Part of the member's data is in another volume. -/
def split (m : Rar5Item) : Bool :=
  m.block.flags &&& 0x18 ≠ 0

/-- The data of another member, or none, is its data. -/
def carries (m : Rar5Item) : Bool :=
  !m.file.isDir && m.file.target.isNone

/-- Its data is not the file's own bytes. -/
def compressed (m : Rar5Item) : Bool :=
  m.carries && m.file.method ≠ 0

/-- The member's data as far as the archive has it. -/
def raw (m : Rar5Item) (data : Bytes) : Bytes :=
  cut data m.block.dataOff (m.block.dataOff + m.block.dataSize)

end Rar5Item

section

variable {D : Type} {build : Build} {lz : Unpacker D} {cipher : Rar5Cipher}
variable {data : Bytes}

inductive Rar5Item.Reads (build : Build) (cipher : Rar5Cipher) (D : Type)
    (data : Bytes) (m : Rar5Item) : Bytes → Option Bytes → Prop where
  | plain : m.file.encrypted = false →
      Reads build cipher D data m (m.raw data) none
  | decrypted {packed : Bytes} {key : Option Bytes} {s after : Rar5Walk D} :
      m.file.encrypted = true →
      rar5DecryptMember build cipher data m.file (m.raw data) s =
        (some (packed, key), after) →
      Reads build cipher D data m packed key

/-- The members of a RAR5 archive as they are decoded. -/
def rar5Stream (build : Build) (lz : Unpacker D) (cipher : Rar5Cipher)
    (data : Bytes) : Stream Rar5Item D Bytes where
  carries m := m.carries = true
  solid m := m.file.solid = true
  fresh m d := ∃ budget, lz.new m.file.compInfo budget = some d
  decodes m d b d' := m.compressed = true ∧ m.split = false ∧
    ∃ packed key budget after, m.Reads build cipher D data packed key ∧
      lz.member d packed m.file.unpSize m.file.solid budget = (some b, d', after)

/-- The bytes have the checksum the member's header records. -/
def rar5Agrees (build : Build) (cipher : Rar5Cipher) (D : Type) (data : Bytes)
    (m : Rar5Item) (b : Bytes) : Prop :=
  ∃ packed key crc, m.Reads build cipher D data packed key ∧
    m.file.crc = some crc ∧ tweakCrc build cipher key (crc32Ieee b) = crc

/-- A compressed solid member is handed over once, and as its own bytes only
when its window was in step or they have its checksum. -/
def rar5Fair (build : Build) (lz : Unpacker D) (cipher : Rar5Cipher)
    (data : Bytes) (trusted : Rar5Item → Bytes → Prop)
    (before : List Rar5Item) (m : Rar5Item) (entries : List Entry) : Prop :=
  m.file.solid = true → m.compressed = true → ∃ e, entries = [e] ∧
    (e.readable = true →
      Sound (rar5Stream build lz cipher data) trusted before m e.data ∨
        rar5Agrees build cipher D data m e.data)

/-! ## One member -/

/-- What a solid member is decoded to while the flag is down, where that passes:
the flag goes up again. -/
def Rar5Walk.raised (lz : Unpacker D) (f : Rar5File) (packed : Bytes)
    (crcOk : Bytes → Bool) (s : Rar5Walk D) : Option Bytes :=
  match s.budget.countEntry with
  | .error _ => none
  | .ok budget =>
      if f.solid && !s.inStep then
        (lz.feed packed f.unpSize f.solid
          (lz.renew f.compInfo f.solid s.solidDec budget) budget).1.filter crcOk
      else none

def Rar5Walk.raisedAt (build : Build) (lz : Unpacker D) (cipher : Rar5Cipher)
    (data : Bytes) (m : Rar5Item) (s : Rar5Walk D) : Option Bytes :=
  let (opened, s) :=
    if m.file.encrypted then
      rar5DecryptMember build cipher data m.file (m.raw data) s
    else (none, s)
  if m.compressed && !m.split && !(m.file.encrypted && opened.isNone) then
    s.raised lz m.file ((opened.map Prod.fst).getD (m.raw data))
      (rar5CrcOk build cipher m.file (opened.bind Prod.snd))
  else none

variable {trusted : Rar5Item → Bytes → Prop}

/-- What the walk keeps about the window. -/
def Rar5Walk.Holds (build : Build) (lz : Unpacker D) (cipher : Rar5Cipher)
    (data : Bytes) (trusted : Rar5Item → Bytes → Prop)
    (before : List Rar5Item) (s : Rar5Walk D) : Prop :=
  Promises (rar5Stream build lz cipher data) trusted before s.inStep s.solidDec

theorem findKeys_kept {record : CryptRecord} {tries : List String}
    {s : Rar5Walk D} :
    (findKeys cipher record tries s).2.inStep = s.inStep ∧
      (findKeys cipher record tries s).2.solidDec = s.solidDec := by
  induction tries generalizing s with
  | nil => exact ⟨rfl, rfl⟩
  | cons pw tries ih =>
      have next {keys : Rar5Keys} {walked : Rar5Walk D}
          (kept : walked.inStep = s.inStep ∧ walked.solidDec = s.solidDec) :
          (if record.accepts cipher keys then (some keys, walked)
            else findKeys cipher record tries walked).2.inStep = s.inStep ∧
          (if record.accepts cipher keys then (some keys, walked)
            else findKeys cipher record tries walked).2.solidDec =
              s.solidDec := by
        split
        · exact kept
        · obtain ⟨flag, dec⟩ := @ih walked
          exact ⟨flag.trans kept.1, dec.trans kept.2⟩
      rw [findKeys]
      split
      · exact next ⟨rfl, rfl⟩
      · dsimp only
        split
        · exact ⟨rfl, rfl⟩
        · cases cipher.derive pw record.salt record.kdfCount with
          | none => exact ⟨rfl, rfl⟩
          | some keys => exact next ⟨rfl, rfl⟩

theorem rar5DecryptMember_kept {f : Rar5File} {raw : Bytes} {s : Rar5Walk D} :
    (rar5DecryptMember build cipher data f raw s).2.inStep = s.inStep ∧
      (rar5DecryptMember build cipher data f raw s).2.solidDec =
        s.solidDec := by
  rw [rar5DecryptMember]
  dsimp only
  split
  · exact ⟨rfl, rfl⟩
  · rename_i record _
    split
    · exact ⟨rfl, rfl⟩
    · have kept := @findKeys_kept D cipher record
        (candidates s.budget.passwords) s
      rcases found : findKeys cipher record (candidates s.budget.passwords) s
        with ⟨keys, walked⟩
      rw [found] at kept
      cases keys with
      | none => exact kept
      | some keys => exact kept

theorem decodeRar5Member_spec {before : List Rar5Item} {m : Rar5Item}
    {s after : Rar5Walk D} {entry : Entry} {packed : Bytes}
    {key : Option Bytes} (compressed : m.compressed = true)
    (whole : m.split = false)
    (trust : ∀ b ∈ s.raised lz m.file packed (rar5CrcOk build cipher m.file key),
      trusted m b ∧ rar5Agrees build cipher D data m b)
    (reads : m.Reads build cipher D data packed key)
    (promised : s.Holds build lz cipher data trusted before)
    (ok : decodeRar5Member build lz m.file packed m.block.dataSize
      (rar5CrcOk build cipher m.file key) s = .ok (entry, after)) :
    after.Holds build lz cipher data trusted (before ++ [m]) ∧
      rar5Fair build lz cipher data trusted before m [entry] := by
  obtain ⟨budget, counted, rest⟩ := bind_eq_ok ok
  dsimp only at rest
  have decodes := @Unpacker.feed_spec D lz m.file.compInfo m.file.unpSize
    m.file.solid s.solidDec budget packed
  rcases result : lz.feed packed m.file.unpSize m.file.solid
      (lz.renew m.file.compInfo m.file.solid s.solidDec budget) budget with
    ⟨decoded, dec, spent⟩
  rw [result] at rest decodes
  cases decoded with
  | none =>
      cases rest
      refine ⟨.lowered _, ?_⟩
      intro _ _
      exact ⟨_, rfl, fun readable => by cases readable⟩
  | some b =>
      obtain ⟨d, d', left, member, kept, afresh, continued⟩ := decodes rfl
      dsimp only at kept
      subst kept
      have decoding :
          (rar5Stream build lz cipher data).decodes m d b d' :=
        ⟨compressed, whole, packed, key, budget, left, reads, member⟩
      have window : m.file.solid = true → s.solidDec = some d ∨
          s.solidDec = none ∧ (rar5Stream build lz cipher data).fresh m d := by
        intro solid
        rcases continued solid with same | ⟨absent, new⟩
        · exact Or.inl same
        · exact Or.inr ⟨absent, budget, new⟩
      have passing (solid : m.file.solid = true) (flag : s.inStep = false)
          (passes : rar5CrcOk build cipher m.file key b = true) :
          trusted m b ∧ rar5Agrees build cipher D data m b := by
        have decoded := congrArg Prod.fst result
        rw [solid] at decoded
        apply trust b
        simpa [Rar5Walk.raised, counted, solid, flag, passes] using decoded
      cases rest
      refine ⟨promised.decoded ?_ window decoding ?_, ?_⟩
      · intro apart
        exact ⟨budget, afresh (by simpa [rar5Stream] using apart)⟩
      · intro raised solid
        have solid : m.file.solid = true := solid
        cases flag : s.inStep with
        | true => exact Or.inl rfl
        | false => exact Or.inr (passing solid flag (by
            simpa [solid, flag] using raised)).1
      · intro solid _
        refine ⟨_, rfl, ?_⟩
        intro readable
        cases flag : s.inStep with
        | true =>
            rw [Rar5Walk.Holds, flag] at promised
            refine Or.inl ?_
            have sound := promised.sound (window solid) decoding
            dsimp only at readable ⊢
            split at readable
            · rename_i taken
              rw [flag] at taken
              rwa [if_pos taken]
            · cases readable
        | false =>
            -- Nothing but the checksum speaks for it.
            cases passes : rar5CrcOk build cipher m.file key b with
            | true => exact Or.inr (by simpa [passes] using (passing solid flag passes).2)
            | false => simp [passes, solid, flag] at readable

theorem rar5Member_spec {before : List Rar5Item} {m : Rar5Item}
    {s after : Rar5Walk D} {out entries : List Entry}
    (trust : ∀ b ∈ s.raisedAt build lz cipher data m,
      trusted m b ∧ rar5Agrees build cipher D data m b)
    (promised : s.Holds build lz cipher data trusted before)
    (ok : rar5Member build lz cipher data m.block m.file out s =
      .ok (entries, after)) :
    after.Holds build lz cipher data trusted (before ++ [m]) ∧
      rar5Fair build lz cipher data trusted before m entries := by
  rw [rar5Member] at ok
  dsimp only at ok
  -- A notice is no content.
  have notice (e : Entry) (unread : e.readable = false) :
      rar5Fair build lz cipher data trusted before m [e] := by
    intro _ _
    refine ⟨e, rfl, ?_⟩
    intro readable
    rw [unread] at readable
    cases readable
  have low {walk : Rar5Walk D} (lowered : walk.inStep = false) :
      walk.Holds build lz cipher data trusted (before ++ [m]) := by
    rw [Rar5Walk.Holds, lowered]
    exact .lowered _
  have own (entries : List Entry) (own : m.compressed = false) :
      rar5Fair build lz cipher data trusted before m entries := by
    intro _ compressed
    rw [own] at compressed
    cases compressed
  split at ok
  · rename_i dir
    cases ok
    refine ⟨promised.idle ?_, own _ ?_⟩
    · intro carries
      have carries : m.carries = true := carries
      simp [Rar5Item.carries, dir] at carries
    · simp [Rar5Item.compressed, Rar5Item.carries, dir]
  · rename_i file
    split at ok
    · obtain ⟨⟨entry, budget⟩, told, rest⟩ := bind_eq_ok ok
      cases rest
      refine ⟨low rfl, notice _ ?_⟩
      rw [pushUnsupported_eq told]
      rfl
    · rename_i whole
      cases linked : m.file.target with
      | some target =>
          rw [linked] at ok
          obtain ⟨⟨entry, budget⟩, -, rest⟩ := bind_eq_ok ok
          cases rest
          refine ⟨promised.idle ?_, own _ ?_⟩
          · intro carries
            have carries : m.carries = true := carries
            simp [Rar5Item.carries, linked] at carries
          · simp [Rar5Item.compressed, Rar5Item.carries, linked]
      | none =>
          rw [linked] at ok
          dsimp only at ok
          have carries : m.carries = true := by
            simpa [Rar5Item.carries, linked] using file
          -- What is left is read from `packed`, whether or not it was encrypted.
          have data_read {plain : Option Bytes} {packed : Bytes}
              {key : Option Bytes} {walked : Rar5Walk D}
              (reads : m.Reads build cipher D data packed key)
              (kept : walked.inStep = s.inStep ∧ walked.solidDec = s.solidDec)
              (trust : m.compressed = true → m.split = false →
                ∀ b ∈ walked.raised lz m.file packed
                  (rar5CrcOk build cipher m.file key),
                trusted m b ∧ rar5Agrees build cipher D data m b)
              (ok : (if m.file.method = 0 then do
                  let read ← rar5Stored data m.block m.file plain
                    (rar5CrcOk build cipher m.file key) walked.budget
                  .ok (read.1, { walked with budget := read.2, inStep := false })
                else do
                  let read ← decodeRar5Member build lz m.file packed
                    m.block.dataSize (rar5CrcOk build cipher m.file key) walked
                  .ok ([read.1], read.2) : Except LimitHit _) =
                .ok (entries, after)) :
              after.Holds build lz cipher data trusted (before ++ [m]) ∧
                rar5Fair build lz cipher data trusted before m entries := by
            split at ok
            · rename_i stored
              obtain ⟨⟨stored', budget⟩, -, rest⟩ := bind_eq_ok ok
              cases rest
              exact ⟨low rfl, own _ (by simp [Rar5Item.compressed, stored])⟩
            · rename_i packed'
              obtain ⟨⟨entry, budget⟩, decoded, rest⟩ := bind_eq_ok ok
              cases rest
              have compressed : m.compressed = true := by
                simp [Rar5Item.compressed, carries, packed']
              have together : m.split = false := by
                simpa [Rar5Item.split, packed'] using whole
              refine decodeRar5Member_spec compressed together
                (trust compressed together) reads ?_ decoded
              · rw [Rar5Walk.Holds, kept.1, kept.2]
                exact promised
          cases locked : m.file.encrypted with
          | false =>
              simp only [locked, Bool.false_eq_true, if_false, Bool.false_and,
                Option.map_none, Option.bind_none, Option.getD_none] at ok
              refine data_read (.plain locked) ⟨rfl, rfl⟩ ?_ ok
              intro compressed together
              simpa [Rar5Walk.raisedAt, locked, compressed, together] using trust
          | true =>
              have kept := @rar5DecryptMember_kept D build cipher data m.file
                (m.raw data) s
              rcases opened : rar5DecryptMember build cipher data m.file
                (m.raw data) s with ⟨plain, walked⟩
              rw [opened] at kept
              have same := opened
              rw [Rar5Item.raw] at opened
              simp only [locked, if_true, opened, Bool.true_and] at ok
              cases plain with
              | none =>
                  simp only [Option.map_none, Option.isNone_none, if_true] at ok
                  obtain ⟨⟨entry, budget⟩, told, rest⟩ := bind_eq_ok ok
                  cases rest
                  refine ⟨low rfl, notice _ ?_⟩
                  rw [pushUnsupported_eq told]
                  rfl
              | some plain =>
                  simp only [Option.map_some, Option.isNone_some,
                    Bool.false_eq_true, if_false, Option.bind_some,
                    Option.getD_some] at ok
                  refine data_read (.decrypted locked opened) kept ?_ ok
                  intro compressed together
                  simpa [Rar5Walk.raisedAt, locked, same, compressed, together]
                    using trust

/-! ## The whole archive -/

/-- The file headers of an archive that can be read, in the order of the
walk. -/
def rar5Files (data : Bytes) : (rounds pos : Nat) → List Rar5Item
  | 0, _ => []
  | rounds + 1, pos =>
      match rar5Block data pos with
      | none => []
      | some block =>
          let next := block.dataOff + block.dataSize
          if block.type = 5 ∨ block.type = 4 then []
          else
            let here := if block.type = 2 then
              (rar5FileFields data block).map (Rar5Item.mk block) else none
            here.toList ++ rar5Files data rounds next

/-- The members at which the walk from `pos` on raises the flag again, and what
they are decoded to. -/
def rar5Raised (build : Build) (lz : Unpacker D) (cipher : Rar5Cipher)
    (data : Bytes) : (rounds pos : Nat) → List Entry → Rar5Walk D →
      List (Rar5Item × Bytes)
  | 0, _, _, _ => []
  | rounds + 1, pos, out, s =>
      match rar5Block data pos with
      | none => []
      | some block =>
          let next := block.dataOff + block.dataSize
          if block.type = 5 ∨ block.type = 4 then []
          else if block.type = 2 then
            match rar5FileFields data block with
            | none => rar5Raised build lz cipher data rounds next out s
            | some f =>
                (s.raisedAt build lz cipher data ⟨block, f⟩).toList.map
                    (⟨block, f⟩, ·) ++
                  match rar5Member build lz cipher data block f out s with
                  | .ok (entries, s) =>
                      rar5Raised build lz cipher data rounds next
                        (out ++ entries) s
                  | .error _ => []
          else rar5Raised build lz cipher data rounds next out s

theorem rar5Walk_spec {start rounds pos : Nat} {before : List Rar5Item}
    {out handed : List Entry} {s after : Rar5Walk D} {again : Option Bytes}
    (trust : ∀ x ∈ rar5Raised build lz cipher data rounds pos out s,
      trusted x.1 x.2 ∧ rar5Agrees build cipher D data x.1 x.2)
    (promised : s.Holds build lz cipher data trusted before)
    (handing : HandedOver (rar5Fair build lz cipher data trusted) before out)
    (ok : rar5Walk build lz cipher data start rounds pos out s =
      .ok (handed, after, again)) :
    HandsOver (rar5Fair build lz cipher data trusted)
      (before ++ rar5Files data rounds pos) handed := by
  induction rounds generalizing pos before out s with
  | zero =>
      cases ok
      exact handing.ends
  | succ rounds ih =>
      rw [rar5Walk] at ok
      rw [rar5Raised] at trust
      rw [rar5Files]
      cases found : rar5Block data pos with
      | none =>
          rw [found] at ok
          cases ok
          exact handing.ends
      | some block =>
          rw [found] at ok trust
          dsimp only at ok trust ⊢
          split at ok
          · rename_i last
            rw [if_pos (Or.inl last)]
            cases ok
            exact handing.ends
          · rename_i further
            split at ok
            · rename_i locked
              rw [if_pos (Or.inr locked)]
              rcases opened : rar5OpenHeaders build cipher data start block s
                with ⟨plain, walked⟩
              rw [opened] at ok
              cases plain with
              | some plain =>
                  cases ok
                  exact handing.ends
              | none =>
                  obtain ⟨⟨entry, budget⟩, told, rest⟩ := bind_eq_ok ok
                  cases rest
                  exact handing.locked told
            · rename_i unlocked
              have walks : ¬(block.type = 5 ∨ block.type = 4) := by
                simp [further, unlocked]
              rw [if_neg walks] at trust ⊢
              split at ok
              · rename_i file
                rw [if_pos file] at trust ⊢
                cases fields : rar5FileFields data block with
                | none =>
                    rw [fields] at ok trust
                    exact ih trust promised handing ok
                | some f =>
                    rw [fields] at ok
                    obtain ⟨⟨entries, walked⟩, member, rest⟩ := bind_eq_ok ok
                    simp only [fields, member, List.forall_mem_append] at trust
                    obtain ⟨kept, fair⟩ := @rar5Member_spec _ _ _ _ _ _ _ ⟨block, f⟩
                      _ _ _ _ (fun b raised => trust.1 (_, b) (by simpa using raised))
                      promised member
                    have done := ih trust.2 kept (handing.next fair) rest
                    rwa [List.append_assoc] at done
              · rename_i other
                rw [if_neg other] at trust ⊢
                exact ih trust promised handing ok

/-- An archive as it is read: as it is, or with its headers opened. -/
inductive Rar5Reading (build : Build) (cipher : Rar5Cipher) (D : Type)
    (start : Nat) : Bytes → Bytes → Prop where
  | whole (data : Bytes) : Rar5Reading build cipher D start data data
  | opened {data plain archive : Bytes} {block : Rar5Block}
      {s after : Rar5Walk D} :
      rar5OpenHeaders build cipher data start block s = (some plain, after) →
      Rar5Reading build cipher D start plain archive →
      Rar5Reading build cipher D start data archive

theorem rar5Walk_again {start rounds pos : Nat} {out handed : List Entry}
    {s after : Rar5Walk D} {plain : Bytes}
    (ok : rar5Walk build lz cipher data start rounds pos out s =
      .ok (handed, after, some plain)) :
    ∃ block, ∃ walked left : Rar5Walk D,
      rar5OpenHeaders build cipher data start block walked =
        (some plain, left) := by
  induction rounds generalizing pos out s with
  | zero => cases ok
  | succ rounds ih =>
      rw [rar5Walk] at ok
      cases found : rar5Block data pos with
      | none =>
          rw [found] at ok
          cases ok
      | some block =>
          rw [found] at ok
          dsimp only at ok
          split at ok
          · cases ok
          · split at ok
            · rcases opened : rar5OpenHeaders build cipher data start block s
                with ⟨result, walked⟩
              rw [opened] at ok
              cases result with
              | some result =>
                  cases ok
                  exact ⟨_, _, _, opened⟩
              | none =>
                  obtain ⟨told, -, rest⟩ := bind_eq_ok ok
                  cases rest
            · split at ok
              · cases fields : rar5FileFields data block with
                | none =>
                    rw [fields] at ok
                    exact ih ok
                | some f =>
                    rw [fields] at ok
                    obtain ⟨handed, -, rest⟩ := bind_eq_ok ok
                    exact ih rest
              · exact ih ok

/-- The members at which the flag is raised again, in the reading that is handed
over. -/
def rar5KeyedRaised (build : Build) (lz : Unpacker D) (cipher : Rar5Cipher)
    (start : Nat) :
    (reads : Nat) → Bytes → Budget → KeyCache → List (Rar5Item × Bytes)
  | 0, _, _, _ => []
  | reads + 1, data, budget, keys =>
      let s := ⟨budget, keys, none, true⟩
      match rar5Walk build lz cipher data start data.length start [] s with
      | .ok (_, s, some plain) =>
          rar5KeyedRaised build lz cipher start reads plain s.budget s.keys
      | _ => rar5Raised build lz cipher data data.length start [] s

theorem extractRar5Keyed_spec {start reads : Nat} {budget spent : Budget}
    {keys : KeyCache} {out : List Entry}
    (ok : extractRar5Keyed build lz cipher start reads data budget keys =
      some (.ok (out, spent))) :
    ∃ archive, Rar5Reading build cipher D start data archive ∧
      ∀ trusted : Rar5Item → Bytes → Prop,
        (∀ x ∈ rar5KeyedRaised build lz cipher start reads data budget keys,
          trusted x.1 x.2 ∧ rar5Agrees build cipher D archive x.1 x.2) →
        HandsOver (rar5Fair build lz cipher archive trusted)
          (rar5Files archive archive.length start) out := by
  induction reads generalizing data budget keys with
  | zero => cases ok
  | succ reads ih =>
      rw [extractRar5Keyed] at ok
      rw [rar5KeyedRaised]
      cases walked : rar5Walk build lz cipher data start data.length start []
          ⟨budget, keys, none, true⟩ with
      | error hit =>
          rw [walked] at ok
          cases ok
      | ok result =>
          obtain ⟨handed, after, again⟩ := result
          rw [walked] at ok
          cases again with
          | none =>
              cases ok
              refine ⟨data, .whole data, fun trusted trust => ?_⟩
              have promised : (Rar5Walk.mk budget keys none true).Holds build lz
                  cipher data trusted [] := fun _ => by simp
              exact rar5Walk_spec trust promised .none walked
          | some plain =>
              obtain ⟨_, _, _, opened⟩ := rar5Walk_again walked
              obtain ⟨archive, reading, handing⟩ := ih ok
              exact ⟨archive, .opened opened reading, handing⟩

end

/-! ## Either -/

/-- A compressed solid member of a RAR archive is handed over as its own bytes
only where its window was whole or they have its checksum, unless a member passed
for its own bytes while the flag was down: after such a one the window is in
step only as far as that member is trusted. -/
theorem extractRar_solid {D E K : Type} {build : Build} {lz4 : Unpacker D}
    {lz5 : Unpacker E} {rar3 : Rar3Cipher K} {rar5 : Rar5Cipher} {reads : Nat}
    {data : Bytes} {budget spent : Budget} {out : List Entry}
    (ok : extractRar build lz4 lz5 rar3 rar5 reads data budget =
      some (.ok (out, spent))) :
    (rar4Magic.isPrefixOf data = true → ∃ archive,
      Rar4Reading build rar3 D data archive ∧
        (rar4KeyedRaised build lz4 rar3 rar4Magic.length reads data budget
            ⟨[], none⟩ = [] →
          HandsOver (rar4Fair lz4 archive fun _ _ => False)
            (rar4Files archive archive.length rar4Magic.length) out) ∧
        ∀ trusted : Rar4File → Bytes → Prop,
          (∀ x ∈ rar4KeyedRaised build lz4 rar3 rar4Magic.length reads data budget
            ⟨[], none⟩, trusted x.1 x.2) →
          HandsOver (rar4Fair lz4 archive trusted)
            (rar4Files archive archive.length rar4Magic.length) out) ∧
      (rar5Magic.isPrefixOf data = true → ∃ archive,
        Rar5Reading build rar5 E rar5Magic.length data archive ∧
          (rar5KeyedRaised build lz5 rar5 rar5Magic.length reads data budget [] =
              [] →
            HandsOver (rar5Fair build lz5 rar5 archive fun _ _ => False)
              (rar5Files archive archive.length rar5Magic.length) out) ∧
          ∀ trusted : Rar5Item → Bytes → Prop,
            (∀ x ∈ rar5KeyedRaised build lz5 rar5 rar5Magic.length reads data
              budget [],
              trusted x.1 x.2 ∧ rar5Agrees build rar5 E archive x.1 x.2) →
            HandsOver (rar5Fair build lz5 rar5 archive trusted)
              (rar5Files archive archive.length rar5Magic.length) out) := by
  rw [extractRar] at ok
  split at ok
  · rename_i five
    refine ⟨?_, fun _ => ?_⟩
    · -- The two signatures differ in their seventh byte.
      intro four
      rw [List.isPrefixOf_iff_prefix] at four five
      obtain ⟨rest, same⟩ := four
      obtain ⟨tail, other⟩ := five
      rw [← other] at same
      simp [rar4Magic, rar5Magic] at same
    · obtain ⟨archive, reading, handing⟩ := extractRar5Keyed_spec ok
      exact ⟨archive, reading, fun none_ => handing _ (by simp [none_]), handing⟩
  · rename_i notFive
    refine ⟨?_, fun five => absurd five notFive⟩
    intro four
    rw [if_pos four] at ok
    obtain ⟨archive, reading, handing⟩ := extractRar4Keyed_spec ok
    exact ⟨archive, reading, fun none_ => handing _ (by simp [none_]), handing⟩

/-! ## A match brings the flag back -/

def fileBlock (flags unpVer data : UInt8) (crc : Bytes) : Bytes :=
  [0, 0, 0x74, flags, 0x80, 32, 0] ++ [1, 0, 0, 0] ++ [1, 0, 0, 0] ++ [0] ++
    crc ++ [0, 0, 0, 0] ++ [unpVer, 0x33] ++ [0, 0] ++ [0, 0, 0, 0] ++ [data]

/-- A group of four: the second cannot be decoded, and the third has its
checksum. -/
def resumed : Bytes :=
  rar4Magic ++ fileBlock 0x00 29 1 [0, 0, 0, 0] ++
    fileBlock 0x10 20 2 [0, 0, 0, 0] ++
    fileBlock 0x10 29 3 [0x37, 0xbe, 0x0b, 0x4b] ++
    fileBlock 0x10 29 4 [0, 0, 0, 0]

def resumedFile (flags crc : Nat) (unpVer : UInt8) (dataOff : Nat) :
    Rar4File :=
  ⟨flags, 1, 1, crc, unpVer, 0x33, "rar-entry", none, dataOff⟩

/-- A decoder that every member decodes in, to what it was given. -/
def copier : Unpacker Unit :=
  ⟨fun _ _ => some (), fun _ packed _ _ budget => (some packed, (), budget)⟩

def noRar3 : Rar3Cipher Unit :=
  ⟨fun _ _ => (), fun _ data => data⟩

def noRar5 : Rar5Cipher :=
  ⟨fun _ _ _ => none, fun _ _ data => data, id, fun _ crc => crc⟩

/-- As before, but the third has not its checksum. -/
def staleGroup : Bytes :=
  rar4Magic ++ fileBlock 0x00 29 1 [0, 0, 0, 0] ++
    fileBlock 0x10 20 2 [0, 0, 0, 0] ++ fileBlock 0x10 29 3 [0, 0, 0, 0]

theorem extractRar_solid_stale :
    ∃ archive, Rar4Reading ⟨true, true⟩ noRar3 Unit staleGroup archive ∧
      HandsOver (rar4Fair copier archive fun _ _ => False)
        (rar4Files archive archive.length rar4Magic.length)
        [⟨"rar-entry", [1], 1, false, none⟩,
          .ofUnsupported "rar-entry" 1 false "unsupported RAR compression",
          .ofUnsupported "rar-entry" 1 false rarStale] := by
  have ok : extractRar ⟨true, true⟩ copier copier noRar3 noRar5 1 staleGroup
      (.new ⟨10, 100, 100⟩) =
      some (.ok ([⟨"rar-entry", [1], 1, false, none⟩,
          .ofUnsupported "rar-entry" 1 false "unsupported RAR compression",
          .ofUnsupported "rar-entry" 1 false rarStale],
        { Budget.new ⟨10, 100, 100⟩ with files := 3 })) := by
    decide
  obtain ⟨archive, reading, claimed, -⟩ := (extractRar_solid ok).1 (by decide)
  exact ⟨archive, reading, claimed (by decide)⟩

/-- The fourth member is handed over unchecked, although the second was not
decoded into the window it is decoded in. -/
theorem extractRar_resumed :
    rar4Files resumed resumed.length rar4Magic.length =
        [resumedFile 0x8000 0 29 39, resumedFile 0x8010 0 20 72,
          resumedFile 0x8010 0x4b0bbe37 29 105, resumedFile 0x8010 0 29 138] ∧
      extractRar ⟨true, true⟩ copier copier noRar3 noRar5 1 resumed
          (.new ⟨10, 100, 100⟩) =
        some (.ok ([⟨"rar-entry", [1], 1, false, none⟩,
            .ofUnsupported "rar-entry" 1 false "unsupported RAR compression",
            ⟨"rar-entry", [3], 1, false, none⟩,
            ⟨"rar-entry", [4], 1, false, none⟩],
          { Budget.new ⟨10, 100, 100⟩ with files := 4 })) ∧
      (resumedFile 0x8010 0 29 138).solid = true ∧
      ¬rar4Agrees (resumedFile 0x8010 0 29 138) [4] ∧
      ¬Sound (rar4Stream copier resumed) (fun _ _ => False)
        [resumedFile 0x8000 0 29 39, resumedFile 0x8010 0 20 72,
          resumedFile 0x8010 0x4b0bbe37 29 105]
        (resumedFile 0x8010 0 29 138) [4] := by
  refine ⟨by decide, by decide, by decide, ?_, ?_⟩
  · have differs : crc32Ieee [4] ≠ 0 := by decide
    exact differs
  · rintro ⟨d, d', -, inStep | ⟨-, clear⟩⟩
    · have third : InStep (rar4Stream copier resumed) (fun _ _ => False)
          ([resumedFile 0x8000 0 29 39, resumedFile 0x8010 0 20 72] ++
            [resumedFile 0x8010 0x4b0bbe37 29 105]) d := inStep
      obtain ⟨e, inStep⟩ := third.continued
        (show (resumedFile 0x8010 0x4b0bbe37 29 105).solid = true by decide)
        (fun _ => id) List.mem_cons_self
        (show (resumedFile 0x8000 0 29 39).isDir = false by decide)
      have second : InStep (rar4Stream copier resumed) (fun _ _ => False)
          ([resumedFile 0x8000 0 29 39] ++ [resumedFile 0x8010 0 20 72]) e :=
        inStep
      refine InStep.undecoded
        (show (resumedFile 0x8010 0 20 72).isDir = false by decide) ?_ second
      rintro _ _ _ ⟨fed, -⟩
      exact absurd fed (by decide)
    · exact absurd (show (resumedFile 0x8000 0 29 39).isDir = false by decide)
        (clear _ List.mem_cons_self)

end Exav.Unpack
