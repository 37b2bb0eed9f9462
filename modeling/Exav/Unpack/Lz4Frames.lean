import Exav.Unpack.Lz4Read

/-!
# The reader against one buffer

Block for block, the history of a reader is an end of the buffer, and both are at
the same place of the same frame, until the reader takes a magic for the size of
a block.
-/

namespace Exav.Unpack

open Exav.Decode Exav.Fields

/-! ## Rounds by what is seen -/

namespace Lz4Reader

theorem Searching.round_eq {r : Lz4Reader} (searching : r.Searching) :
    r.round = r.trim.search := by
  unfold Lz4Reader.round
  rw [searching.failed]

theorem search_again {r : Lz4Reader} {cursor : Lz4Cursor}
    (seen : r.cursor.look r.src = .again cursor) :
    r.search = (.emitted [], { r with cursor }) := by
  unfold search
  rw [seen]

theorem search_noneLeft {r : Lz4Reader}
    (seen : r.cursor.look r.src = .noneLeft) : r.search = (.ended, r) := by
  unfold search
  rw [seen]

theorem search_failed {r : Lz4Reader} {reason : String}
    (seen : r.cursor.look r.src = .failed reason) :
    r.search = (.failed reason, r) := by
  unfold search
  rw [seen]

theorem search_block {r : Lz4Reader} {b : Blocks} {stored : Bool} {n : Nat}
    (seen : r.cursor.look r.src = .block b stored n) {more : Bytes}
    (unpacked : unpackBlock stored (window r.src b.p n) r.history =
      (.ok (), r.history ++ more)) :
    r.search = (.emitted more, { r with
      history := r.history ++ more
      handed := (r.history ++ more).length
      cursor := r.cursor.behind
        { b with p := b.p + n + if b.blockChecksum then 4 else 0 }
        r.src }) := by
  unfold search decode
  rw [seen]
  dsimp only
  rw [unpacked]
  dsimp only [drained]
  rw [List.drop_left]

theorem search_block_error {r : Lz4Reader} {b : Blocks} {stored : Bool}
    {n : Nat} (seen : r.cursor.look r.src = .block b stored n) {more : Bytes}
    {reason : String}
    (unpacked : unpackBlock stored (window r.src b.p n) r.history =
      (.error reason, r.history ++ more)) :
    ∃ after, r.search = (.emitted more, after) ∧
      after.failed = some reason := by
  unfold search decode
  rw [seen]
  dsimp only
  rw [unpacked]
  dsimp only
  rw [List.drop_left]
  exact ⟨_, rfl, rfl⟩

end Lz4Reader

/-! ## Magics missed -/

namespace Lz4Whole

variable {t after : Lz4Whole}

theorem calm_stopped (known : t.missed = none)
    (stops : ∀ out after, t.step ≠ (.emitted out, after)) : t.Calm := by
  intro u reached p size missed
  cases reached with
  | refl =>
      rw [known] at missed
      cases missed
  | step first _ =>
      unfold stepToMissed at first
      rw [known] at first
      exact absurd first (stops _ _)

theorem calm_emitted_iff {out : Bytes} (known : t.missed = none)
    (first : t.step = (.emitted out, after)) : t.Calm ↔ after.Calm := by
  have stepped : t.stepToMissed = (.emitted out, after) := by
    unfold stepToMissed
    rw [known]
    exact first
  constructor
  · exact fun calm u reached => calm u (.step stepped reached)
  · intro calm u reached p size missed
    cases reached with
    | refl =>
        rw [known] at missed
        cases missed
    | step first' more =>
        cases stepped.symm.trans first'
        exact calm u more p size missed

theorem calm_missed_iff {p size : Nat} (missed : t.missed = some (p, size)) :
    t.Calm ↔ Decodes step t [] (t.taken p size) := by
  constructor
  · exact fun calm => calm t (.refl t) p size missed
  · intro decodes u reached p' size' missed'
    cases reached with
    | refl =>
        cases missed.symm.trans missed'
        exact decodes
    | step first _ =>
        unfold stepToMissed at first
        rw [missed] at first
        cases first

theorem missed_frame {pos : Nat} (place : t.place = .frame pos) :
    t.missed = none := by
  unfold missed
  rw [place]
  cases t.failing <;> rfl

theorem missed_failing {reason : String} (failing : t.failing = some reason) :
    t.missed = none := by
  unfold missed
  rw [failing]

/-- How far a decoder may still go on. -/
def left (t : Lz4Whole) : Nat :=
  match t.place with
  | .frame pos => 2 * (t.src.length - pos)
  | .block b _ => 2 * (t.src.length - b.p) + 1

end Lz4Whole

/-- What a reader sees at the start of a frame is what its magic announces. -/
theorem lookFrame_eq {pos : Nat} {src : Bytes} (inside : pos + 8 ≤ src.length) :
    (⟨pos, none⟩ : Lz4Cursor).lookFrame src =
      match (leU32 src pos).bind frameKind with
      | some .legacy => .again ⟨pos, some ⟨pos + 4, true, false, false⟩⟩
      | some .framed =>
          match header (window src pos 32) with
          | .error reason => .failed reason
          | .ok (off, blockChecksum, contentChecksum) =>
              .again ⟨pos, some
                ⟨pos + off, false, blockChecksum, contentChecksum⟩⟩
      | some .skippable =>
          .again ⟨pos + 8 + (leU32 src (pos + 4)).getD 0, none⟩
      | none => .noneLeft := by
  have legacy := @prefix_window_iff legacyMagic src rfl pos 32 (by decide)
  have framed := @prefix_window_iff frameMagic src rfl pos 32 (by decide)
  have skippable := skippable_iff inside
  obtain ⟨size, read⟩ : ∃ size, leU32 src pos = some size :=
    Option.isSome_iff_exists.mp (leU32_inside.mpr (by omega))
  have skip : leU32 (window src pos 32) 4 = leU32 src (pos + 4) := by
    unfold leU32
    rw [window_window src (by decide)]
  rw [read] at legacy framed skippable
  have legacy_magic : ofLe legacyMagic = 0x184C2102 := by decide
  have frame_magic : ofLe frameMagic = 0x184D2204 := by decide
  rw [legacy_magic, Option.some.injEq] at legacy
  rw [frame_magic, Option.some.injEq] at framed
  unfold Lz4Cursor.lookFrame
  dsimp only
  rw [if_neg (Nat.not_lt.mpr inside), read, Option.bind_some, skip]
  unfold frameKind
  by_cases is_legacy : size = 0x184C2102
  · rw [if_pos (legacy.mpr is_legacy), if_pos is_legacy]
  · rw [if_neg (mt legacy.mp is_legacy), if_neg is_legacy]
    by_cases is_framed : size = 0x184D2204
    · rcases header (window src pos 32) with _ | ⟨_, _, _⟩ <;>
        rw [if_pos (framed.mpr is_framed), if_pos is_framed]
    · rw [if_neg (mt framed.mp is_framed), if_neg is_framed]
      by_cases is_skippable : size / 16 = 0x184D2A5
      · rw [if_pos (skippable.mpr ⟨size, rfl, is_skippable⟩),
          if_pos is_skippable]
      · rw [if_neg, if_neg is_skippable]
        intro seen
        obtain ⟨size', same, magic⟩ := skippable.mp seen
        cases same
        exact is_skippable magic

/-! ## Side by side -/

/-- A reader and a decoder of one file, where neither has failed. -/
structure Beside (r : Lz4Reader) (t : Lz4Whole) : Prop where
  searching : r.Searching
  src : r.src = t.src
  failing : t.failing = none
  ends : EndsWith t.out r.history

/-- A reader at the place of a decoder, or just behind the block at which the
decoder is to find that its frame has ended. -/
inductive Follows : Lz4Reader → Lz4Whole → Prop where
  | failing {r : Lz4Reader} {t : Lz4Whole} {reason : String}
      (failed : r.failed = some reason) (failing : t.failing = some reason) :
      Follows r t
  | frame {r : Lz4Reader} {t : Lz4Whole} {pos : Nat} (beside : Beside r t)
      (cursor : r.cursor = ⟨pos, none⟩) (place : t.place = .frame pos) :
      Follows r t
  | block {r : Lz4Reader} {t : Lz4Whole} {pos : Nat} {b : Blocks} {first : Bool}
      (beside : Beside r t) (cursor : r.cursor = ⟨pos, some b⟩)
      (place : t.place = .block b first)
      (kept : first = false → b.legacy = true → ∀ size,
        leU32 t.src b.p = some size →
          frameKind size ≠ some .legacy ∧ frameKind size ≠ some .framed) :
      Follows r t
  | behind {r : Lz4Reader} {t : Lz4Whole} {b : Blocks} (beside : Beside r t)
      (cursor : r.cursor = ⟨b.p, none⟩) (place : t.place = .block b false)
      (over_ : t.src.length ≤ b.p ∨ b.legacy = true ∧ ∃ size,
        leU32 t.src b.p = some size ∧
          (frameKind size = some .legacy ∨ frameKind size = some .framed)) :
      Follows r t

/-- What a reader does where it follows a decoder. -/
inductive Progress (r : Lz4Reader) (t : Lz4Whole) : Prop where
  | stopped {result : Except String Unit} (known : t.missed = none)
      (stops : ∀ out after, t.step ≠ (.emitted out, after))
      (left : Decodes Lz4Reader.round r [] result)
      (right : Decodes Lz4Whole.step t [] result)
  | emitted {out : Bytes} {r' : Lz4Reader} {t' : Lz4Whole}
      (known : t.missed = none) (left : r.round = (.emitted out, r'))
      (right : t.step = (.emitted out, t')) (follows : Follows r' t')
      (less : t'.left < t.left)
  | behind {t' : Lz4Whole} (known : t.missed = none)
      (right : t.step = (.emitted [], t')) (follows : Follows r t')
      (less : t'.left < t.left)
  | missed {p size : Nat} (missed : t.missed = some (p, size))
      (left : Decodes Lz4Reader.round r [] (t.taken p size))

namespace Beside

variable {r : Lz4Reader} {t : Lz4Whole}

theorem forget (beside : Beside r t) {n : Nat}
    (few : n = 0 ∨ n + lz4History ≤ r.history.length) :
    Beside (r.forget n) t where
  searching := beside.searching.forget n
  src := beside.src
  failing := beside.failing
  ends := beside.ends.drop few

theorem searches (beside : Beside r t) : ∃ r' : Lz4Reader,
    r.round = r'.search ∧ Beside r' t ∧ r'.cursor = r.cursor := by
  have drained := beside.searching.drained
  obtain ⟨n, few, trimmed⟩ : ∃ n, (n = 0 ∨ n + lz4History ≤ r.handed) ∧
      r.trim = r.forget n := by
    refine ⟨r.handed - lz4History, ?_, rfl⟩
    omega
  rw [drained] at few
  refine ⟨r.forget n, ?_, beside.forget few, rfl⟩
  rw [beside.searching.round_eq, trimmed]

theorem goto (beside : Beside r t) {cursor : Lz4Cursor} (sound : cursor.Sound)
    (place : Place) : Beside { r with cursor } { t with place } where
  searching := beside.searching.at_cursor sound
  src := beside.src
  failing := beside.failing
  ends := beside.ends

theorem step_eq (beside : Beside r t) : t.step =
    match t.place with
    | .frame pos => t.stepFrame pos
    | .block b _ => t.stepBlock b := by
  have running := beside.failing
  unfold Lz4Whole.step
  split
  · rename_i reason failing
    cases running.symm.trans failing
  · rfl

theorem ended (beside : Beside r t) (known : t.missed = none)
    (seen : r.cursor.look t.src = .noneLeft) (right : t.step = (.ended, t)) :
    Progress r t := by
  obtain ⟨r', round, beside', cursor⟩ := beside.searches
  rw [← cursor, ← beside'.src] at seen
  rw [Lz4Reader.search_noneLeft seen] at round
  refine .stopped known ?_ (.ended round) (.ended right)
  intro out after emits
  cases right.symm.trans emits

theorem failed (beside : Beside r t) {reason : String}
    (known : t.missed = none) (seen : r.cursor.look t.src = .failed reason)
    (right : t.step = (.failed reason, t)) : Progress r t := by
  obtain ⟨r', round, beside', cursor⟩ := beside.searches
  rw [← cursor, ← beside'.src] at seen
  rw [Lz4Reader.search_failed seen] at round
  refine .stopped known ?_ (.failed round) (.failed right)
  intro out after emits
  cases right.symm.trans emits

theorem round_again (beside : Beside r t) {cursor : Lz4Cursor}
    (seen : r.cursor.look t.src = .again cursor) (place : Place) :
    ∃ r', r.round = (.emitted [], r') ∧ r'.cursor = cursor ∧
      Beside r' { t with place } := by
  obtain ⟨r', round, beside', same⟩ := beside.searches
  have sound := (Lz4Cursor.look_again seen).1
  rw [← same, ← beside'.src] at seen
  exact ⟨_, round.trans (Lz4Reader.search_again seen), rfl,
    beside'.goto sound place⟩

theorem moved (beside : Beside r t) (known : t.missed = none) {pos : Nat}
    (seen : r.cursor.look t.src = .again ⟨pos, none⟩)
    (right : t.step = t.goto (.frame pos))
    (less : 2 * (t.src.length - pos) < t.left) : Progress r t := by
  obtain ⟨r', round, cursor, beside'⟩ := beside.round_again seen (.frame pos)
  exact .emitted known round right (.frame beside' cursor rfl) less

theorem progress_frame (beside : Beside r t) {pos : Nat}
    (cursor : r.cursor = ⟨pos, none⟩) (place : t.place = .frame pos) :
    Progress r t := by
  have known := Lz4Whole.missed_frame place
  have step : t.step = t.stepFrame pos := by
    rw [beside.step_eq, place]
  have seen : r.cursor.look t.src =
      (⟨pos, none⟩ : Lz4Cursor).lookFrame t.src := by
    rw [cursor]
    rfl
  have here : t.left = 2 * (t.src.length - pos) := by
    unfold Lz4Whole.left
    rw [place]
  unfold Lz4Whole.stepFrame at step
  by_cases short : t.src.length < pos + 8
  · rw [if_pos short] at step
    apply beside.ended known _ step
    rw [seen]
    exact if_pos short
  · have inside : pos + 8 ≤ t.src.length := Nat.not_lt.mp short
    have enters : ∀ (b : Blocks), pos + 4 ≤ b.p →
        r.cursor.look t.src = .again ⟨pos, some b⟩ →
        t.step = t.goto (.block b true) → Progress r t := by
      intro b past again right
      obtain ⟨r', round, cursor', beside'⟩ :=
        beside.round_again again (.block b true)
      refine .emitted known round right (.block beside' cursor' rfl nofun) ?_
      rw [here]
      show 2 * (t.src.length - b.p) + 1 < _
      omega
    rw [if_neg short] at step
    rw [lookFrame_eq inside] at seen
    revert seen step
    rcases (leU32 t.src pos).bind frameKind with _ | _ | _ | _
    · exact fun step seen => beside.ended known seen step
    · exact fun step seen => enters _ (Nat.le_refl _) seen step
    · dsimp only
      rcases ok : header (window t.src pos 32) with reason | ⟨off, _, _⟩
      · exact fun step seen => beside.failed known seen step
      · intro step seen
        have far := Lz4Cursor.header_ok ok
        apply enters _ _ seen step
        show pos + 4 ≤ pos + off
        omega
    · intro step seen
      apply beside.moved known seen step
      rw [here]
      omega

theorem decodes_end (beside : Beside r t) {pos : Nat}
    (seen : r.cursor.look t.src = .again ⟨pos, none⟩)
    (past : t.src.length < pos + 8) :
    Decodes Lz4Reader.round r [] (.ok ()) := by
  obtain ⟨r', round, cursor, beside'⟩ := beside.round_again seen t.place
  obtain ⟨r'', round', beside'', cursor'⟩ := beside'.searches
  have at_end : r''.cursor.look r''.src = .noneLeft := by
    rw [cursor', cursor, beside''.src]
    exact if_pos past
  exact .emitted round
    (.ended (round'.trans (Lz4Reader.search_noneLeft at_end)))

theorem leave_eq {pos p : Nat} {b : Blocks} (past : pos < p) :
    (⟨pos, some b⟩ : Lz4Cursor).leave p = .again ⟨p, none⟩ := by
  unfold Lz4Cursor.leave Lz4Cursor.endFrame
  rw [if_neg (Nat.not_le.mpr past)]
  rfl

theorem behind_eq {pos : Nat} {b b' : Blocks} (past : pos < b'.p)
    (src : Bytes) :
    (⟨pos, some b⟩ : Lz4Cursor).behind b' src =
      if src.length ≤ b'.p ∨ (b'.legacy ∧
          (legacyMagic <+: window src b'.p 4 ∨
            frameMagic <+: window src b'.p 4)) then ⟨b'.p, none⟩
      else ⟨pos, some b'⟩ := by
  unfold Lz4Cursor.behind Lz4Cursor.endFrame
  rw [if_neg (Nat.not_le.mpr past)]

theorem frameKind_legacy {size : Nat} :
    frameKind size = some .legacy ↔ size = ofLe legacyMagic := by
  have magic : ofLe legacyMagic = 0x184C2102 := by decide
  rw [magic]
  unfold frameKind
  split
  · simp_all
  · split
    · simp_all
    · split <;> simp_all

theorem frameKind_framed {size : Nat} :
    frameKind size = some .framed ↔ size = ofLe frameMagic := by
  have magic : ofLe frameMagic = 0x184D2204 := by decide
  rw [magic]
  unfold frameKind
  split
  · simp_all
  · split
    · simp_all
    · split <;> simp_all

/-- A reader behind a block is where the decoder's is, or has left its
frame. -/
theorem follows_behind {pos : Nat} {b b' : Blocks} (past : pos < b'.p)
    (beside : Beside r t) (place : t.place = .block b' false)
    (cursor : r.cursor = (⟨pos, some b⟩ : Lz4Cursor).behind b' t.src) :
    Follows r t := by
  rw [behind_eq past] at cursor
  have four : legacyMagic.length = 4 ∧ frameMagic.length = 4 := ⟨rfl, rfl⟩
  by_cases leaves : t.src.length ≤ b'.p ∨ (b'.legacy ∧
      (legacyMagic <+: window t.src b'.p 4 ∨
        frameMagic <+: window t.src b'.p 4))
  · rw [if_pos leaves] at cursor
    apply Follows.behind beside cursor place
    rcases leaves with past_end | ⟨legacy, magic⟩
    · exact .inl past_end
    · right
      refine ⟨legacy, ?_⟩
      rw [prefix_window_iff four.1 _ (Nat.le_refl 4),
        prefix_window_iff four.2 _ (Nat.le_refl 4)] at magic
      rcases magic with magic | magic
      · exact ⟨_, magic, .inl (frameKind_legacy.mpr rfl)⟩
      · exact ⟨_, magic, .inr (frameKind_framed.mpr rfl)⟩
  · rw [if_neg leaves] at cursor
    apply Follows.block beside cursor place
    intro _ legacy size read
    rw [Ne, frameKind_legacy, Ne, frameKind_framed]
    constructor
    · rintro rfl
      exact leaves (.inr ⟨legacy, .inl
        ((prefix_window_iff four.1 _ (Nat.le_refl 4)).mpr read)⟩)
    · rintro rfl
      exact leaves (.inr ⟨legacy, .inr
        ((prefix_window_iff four.2 _ (Nat.le_refl 4)).mpr read)⟩)

theorem pos_lt (beside : Beside r t) {pos : Nat} {b : Blocks}
    (cursor : r.cursor = ⟨pos, some b⟩) : pos < b.p := by
  have sound := beside.searching.sound
  rw [cursor] at sound
  exact sound b rfl

theorem progress_unpack (beside : Beside r t) {pos n : Nat} {b : Blocks}
    {first stored : Bool} (cursor : r.cursor = ⟨pos, some b⟩)
    (place : t.place = .block b first) (known : t.missed = none)
    (inside : b.p + 4 + n ≤ t.src.length)
    (seen : r.cursor.look t.src =
      .block { b with p := b.p + 4 } stored n)
    (right : t.step = t.unpack b stored n) : Progress r t := by
  have past := beside.pos_lt cursor
  have here : t.left = 2 * (t.src.length - b.p) + 1 := by
    unfold Lz4Whole.left
    rw [place]
  obtain ⟨r', round, beside', same⟩ := beside.searches
  rw [← same, ← beside'.src] at seen
  obtain ⟨more, tail, out⟩ := unpackBlock_endsWith beside'.ends stored
    (window t.src (b.p + 4) n)
  rcases made : (unpackBlock stored (window t.src (b.p + 4) n)
    r'.history).1 with reason | done
  · rw [made] at tail out
    rw [← beside'.src] at tail
    obtain ⟨after, searched, failed⟩ :=
      Lz4Reader.search_block_error seen tail
    have step : t.step = (.emitted more, { t with
        out := t.out ++ more
        place := .block { b with
          p := b.p + 4 + n + if b.blockChecksum then 4 else 0 } false
        failing := some reason }) := by
      rw [right, Lz4Whole.unpack, out]
      dsimp only
      rw [List.drop_left]
    refine .emitted known (round.trans searched) step
      (.failing failed rfl) ?_
    rw [here]
    show 2 * (t.src.length - (b.p + 4 + n + _)) + 1 < _
    omega
  · rw [made] at tail out
    rw [← beside'.src] at tail
    have searched := Lz4Reader.search_block seen tail
    have step : t.step = (.emitted more, { t with
        out := t.out ++ more
        place := .block { b with
          p := b.p + 4 + n + if b.blockChecksum then 4 else 0 } false
        failing := none }) := by
      rw [right, Lz4Whole.unpack, out]
      dsimp only
      rw [List.drop_left]
    generalize further : b.p + 4 + n +
      (if b.blockChecksum then 4 else 0) = p at searched step
    have past' : pos < ({ b with p } : Blocks).p := by
      show pos < p
      omega
    have sound := (@Lz4Cursor.behind_sound ⟨pos, some b⟩ _ past' t.src).1
    rw [same, cursor, beside'.src] at searched
    refine .emitted known (round.trans searched) step
      (follows_behind past' ?_ rfl rfl) ?_
    · exact {
        searching := {
          drained := rfl
          failed := beside'.searching.failed
          done := beside'.searching.done
          sound := sound }
        src := rfl
        failing := rfl
        ends := beside'.ends.append more }
    · rw [here]
      show 2 * (t.src.length - p) + 1 < _
      omega

theorem missed_block (beside : Beside r t) {b : Blocks} {first : Bool}
    (place : t.place = .block b first) : t.missed =
      (leU32 t.src b.p).bind fun size =>
        if b.legacy ∧ (frameKind size).isSome ∧
            (first ∨ frameKind size = some .skippable) then
          some (b.p, size)
        else none := by
  unfold Lz4Whole.missed
  rw [beside.failing, place]

theorem frameKind_large {size : Nat} (magic : (frameKind size).isSome) :
    maxBlockRead < size ∧ size < 2 ^ 31 := by
  unfold frameKind at magic
  have limit : maxBlockRead = 16777216 := by decide
  split at magic
  · omega
  · split at magic
    · omega
    · split at magic
      · omega
      · cases magic

/-- A block of `n` bytes, behind its size: it is cut short, too large, or
decoded. -/
theorem progress_sized (beside : Beside r t) {pos n : Nat} {b : Blocks}
    {first stored : Bool} (cursor : r.cursor = ⟨pos, some b⟩)
    (place : t.place = .block b first) (known : t.missed = none)
    (sized : b.p + 4 ≤ t.src.length)
    (seen : r.cursor.look t.src =
      if t.src.length < b.p + 4 + n then r.cursor.leave t.src.length
      else if maxBlockRead < n then .failed blockTooLarge
      else .block { b with p := b.p + 4 } stored n)
    (right : t.step =
      if t.src.length < b.p + 4 + n then (.ended, t)
      else if maxBlockRead < n then (.failed blockTooLarge, t)
      else t.unpack b stored n) : Progress r t := by
  have past := beside.pos_lt cursor
  by_cases cut : t.src.length < b.p + 4 + n
  · rw [if_pos cut, cursor, leave_eq (by omega), ← cursor] at seen
    rw [if_pos cut] at right
    refine .stopped known ?_ (beside.decodes_end seen (by omega))
      (.ended right)
    intro out after emits
    cases right.symm.trans emits
  · rw [if_neg cut] at seen right
    by_cases large : maxBlockRead < n
    · rw [if_pos large] at seen right
      exact beside.failed known seen right
    · rw [if_neg large] at seen right
      exact beside.progress_unpack cursor place known (Nat.not_lt.mp cut)
        seen right

theorem decodes_missed (beside : Beside r t) {pos size : Nat} {b : Blocks}
    (cursor : r.cursor = ⟨pos, some b⟩) (legacy : b.legacy = true)
    (read : leU32 t.src b.p = some size) (magic : (frameKind size).isSome) :
    Decodes Lz4Reader.round r [] (t.taken b.p size) := by
  obtain ⟨large, small⟩ := frameKind_large magic
  have past := beside.pos_lt cursor
  have sized : b.p + 4 ≤ t.src.length := by
    rw [← leU32_inside, read]
    rfl
  have seen : r.cursor.look t.src =
      if t.src.length < b.p + 4 + size then r.cursor.leave t.src.length
      else .failed blockTooLarge := by
    rw [cursor]
    show (⟨pos, some b⟩ : Lz4Cursor).lookBlock b t.src = _
    unfold Lz4Cursor.lookBlock
    rw [read, legacy]
    dsimp only
    rw [if_neg (by simp), Nat.mod_eq_of_lt small]
    rw [if_pos large]
  unfold Lz4Whole.taken
  by_cases cut : t.src.length < b.p + 4 + size
  · rw [if_pos cut, cursor, leave_eq (by omega), ← cursor] at seen
    rw [if_pos cut]
    exact beside.decodes_end seen (by omega)
  · rw [if_neg cut] at seen ⊢
    obtain ⟨r', round, beside', same⟩ := beside.searches
    rw [← same, ← beside'.src] at seen
    exact .failed (round.trans (Lz4Reader.search_failed seen))

theorem progress_block (beside : Beside r t) {pos : Nat} {b : Blocks}
    {first : Bool} (cursor : r.cursor = ⟨pos, some b⟩)
    (place : t.place = .block b first)
    (kept : first = false → b.legacy = true → ∀ size,
      leU32 t.src b.p = some size →
        frameKind size ≠ some .legacy ∧ frameKind size ≠ some .framed) :
    Progress r t := by
  have past := beside.pos_lt cursor
  have missed := beside.missed_block place
  have here : t.left = 2 * (t.src.length - b.p) + 1 := by
    unfold Lz4Whole.left
    rw [place]
  have step : t.step = t.stepBlock b := by
    rw [beside.step_eq, place]
  have seen : r.cursor.look t.src = r.cursor.lookBlock b t.src := by
    rw [cursor]
    rfl
  unfold Lz4Whole.stepBlock at step
  unfold Lz4Cursor.lookBlock at seen
  cases read : leU32 t.src b.p with
  | none =>
      rw [read] at missed step seen
      have few : t.src.length < b.p + 4 := by
        rw [← Nat.not_le, ← leU32_inside, read]
        nofun
      rw [cursor] at seen
      dsimp only at seen
      rw [leave_eq past, ← cursor] at seen
      refine .stopped missed ?_ (beside.decodes_end seen (by omega))
        (.ended step)
      intro out after emits
      cases step.symm.trans emits
  | some size =>
      have sized : b.p + 4 ≤ t.src.length := by
        rw [← leU32_inside, read]
        rfl
      rw [read] at missed step seen
      dsimp only [Option.bind_some] at missed step seen
      by_cases magic : b.legacy ∧ (frameKind size).isSome
      · by_cases unseen : first ∨ frameKind size = some .skippable
        · rw [if_pos ⟨magic.1, magic.2, unseen⟩] at missed
          exact .missed missed
            (beside.decodes_missed cursor magic.1 read magic.2)
        · exfalso
          have later : first = false := by
            cases first with
            | false => rfl
            | true => exact absurd (.inl rfl) unseen
          obtain ⟨other, other'⟩ := kept later magic.1 size read
          obtain ⟨kind, same⟩ := Option.isSome_iff_exists.mp magic.2
          cases kind with
          | legacy => exact other same
          | framed => exact other' same
          | skippable => exact unseen (.inr same)
      · rw [if_neg fun all => magic ⟨all.1, all.2.1⟩] at missed
        rw [if_neg magic] at step
        by_cases mark : (!b.legacy) = true ∧ size = 0
        · rw [if_pos mark] at seen step
          generalize (if b.contentChecksum then 4 else 0) = check at seen step
          rw [cursor, leave_eq (by omega), ← cursor] at seen
          apply beside.moved missed seen step
          rw [here]
          omega
        · rw [if_neg mark] at seen step
          exact beside.progress_sized cursor place missed sized seen step

theorem progress_behind (beside : Beside r t) {b : Blocks}
    (cursor : r.cursor = ⟨b.p, none⟩) (place : t.place = .block b false)
    (over_ : t.src.length ≤ b.p ∨ b.legacy = true ∧ ∃ size,
      leU32 t.src b.p = some size ∧
        (frameKind size = some .legacy ∨ frameKind size = some .framed)) :
    Progress r t := by
  have missed := beside.missed_block place
  have step : t.step = t.stepBlock b := by
    rw [beside.step_eq, place]
  have here : t.left = 2 * (t.src.length - b.p) + 1 := by
    unfold Lz4Whole.left
    rw [place]
  unfold Lz4Whole.stepBlock at step
  rcases over_ with past | ⟨legacy, size, read, magic⟩
  · have read : leU32 t.src b.p = none := by
      rw [← Option.not_isSome_iff_eq_none, leU32_inside]
      omega
    rw [read] at missed step
    apply beside.ended missed _ step
    rw [cursor]
    apply if_pos
    show t.src.length < b.p + 8
    omega
  · rw [read] at missed step
    dsimp only [Option.bind_some] at missed step
    have known : (frameKind size).isSome := by
      rcases magic with magic | magic <;> rw [magic] <;> rfl
    have seen : ¬ (b.legacy ∧ (frameKind size).isSome ∧
        (false = true ∨ frameKind size = some .skippable)) := by
      rintro ⟨-, -, never | skippable⟩
      · cases never
      · rcases magic with magic | magic <;> cases magic.symm.trans skippable
    rw [if_neg seen] at missed
    rw [if_pos ⟨legacy, known⟩] at step
    refine .behind missed step
      (.frame ⟨beside.searching, beside.src, beside.failing, beside.ends⟩
        cursor rfl) ?_
    rw [here]
    show 2 * (t.src.length - b.p) < _
    omega

end Beside

theorem Follows.progress {r : Lz4Reader} {t : Lz4Whole}
    (follows : Follows r t) : Progress r t := by
  cases follows with
  | @failing reason failed failing =>
      have left : r.round = (.failed reason, r) := by
        unfold Lz4Reader.round
        rw [failed]
      have right : t.step = (.failed reason, t) := by
        unfold Lz4Whole.step
        rw [failing]
      refine .stopped (Lz4Whole.missed_failing failing) ?_ (.failed left)
        (.failed right)
      intro out after emits
      cases right.symm.trans emits
  | frame beside cursor place => exact beside.progress_frame cursor place
  | block beside cursor place kept =>
      exact beside.progress_block cursor place kept
  | behind beside cursor place over_ =>
      exact beside.progress_behind cursor place over_

/-- Reader and decoder decode the same exactly if nothing is decoded behind the
first magic that the reader misses. -/
theorem Follows.calm_iff {r : Lz4Reader} {t : Lz4Whole}
    (follows : Follows r t) :
    t.Calm ↔ Same Lz4Reader.round Lz4Whole.step r t := by
  generalize bound : t.left = n
  induction n using Nat.strongRecOn generalizing r t with
  | ind n ih =>
      cases follows.progress with
      | stopped known stops left right =>
          exact iff_of_true (Lz4Whole.calm_stopped known stops)
            (.of_decodes left right)
      | emitted known left right follows' less =>
          rw [Lz4Whole.calm_emitted_iff known right,
            Same.step_iff left right]
          exact ih _ (bound ▸ less) follows' rfl
      | behind known right follows' less =>
          rw [Lz4Whole.calm_emitted_iff known right, Same.silent_right right]
          exact ih _ (bound ▸ less) follows' rfl
      | missed missed left =>
          rw [Lz4Whole.calm_missed_iff missed]
          constructor
          · exact Same.of_decodes left
          · exact fun same => (same _ _).mp left

/-! ## Files -/

namespace Lz4Reader

theorem trim_eq (r : Lz4Reader) : ∃ n, r.trim = r.forget n := ⟨_, rfl⟩

theorem decode_error {r after : Lz4Reader} {b : Blocks} {stored : Bool}
    {n : Nat} {reason : String}
    (made : r.decode b stored n = (.error reason, after)) :
    after.cursor = r.cursor := by
  unfold decode at made
  rcases unpacked : unpackBlock stored (window r.src b.p n) r.history with
    ⟨_ | _, history⟩
  · rw [unpacked] at made
    cases made
    rfl
  · rw [unpacked] at made
    cases made

theorem round_left {r after : Lz4Reader} {out : Bytes}
    (sound : r.cursor.Sound) (emits : r.round = (.emitted out, after)) :
    r.failed = none ∧ after.cursor.Sound ∧ (after.failed.isSome ∨
      after.src = r.src ∧
        after.cursor.left r.src.length < r.cursor.left r.src.length) := by
  unfold round at emits
  rcases failed : r.failed with _ | reason
  · obtain ⟨n, trimmed⟩ := r.trim_eq
    rw [failed] at emits
    dsimp only at emits
    rw [trimmed] at emits
    unfold search at emits
    refine ⟨rfl, ?_⟩
    cases seen : r.cursor.look r.src with
    | again cursor =>
        rw [cursor_forget, src_forget, seen] at emits
        cases emits
        obtain ⟨sound', less⟩ := Lz4Cursor.look_again seen
        exact ⟨sound', .inr ⟨rfl, less⟩⟩
    | noneLeft =>
        rw [cursor_forget, src_forget, seen] at emits
        cases emits
    | failed reason =>
        rw [cursor_forget, src_forget, seen] at emits
        cases emits
    | block b stored n' =>
        rw [cursor_forget, src_forget, seen] at emits
        dsimp only at emits
        obtain ⟨more, -, src, -, -, -⟩ :=
          (r.forget n).decode_appends b stored n'
        rcases made : (r.forget n).decode b stored n' with
          ⟨reason | decoded, next⟩
        · rw [made] at emits
          cases emits
          refine ⟨?_, .inl rfl⟩
          show next.cursor.Sound
          rw [decode_error made]
          exact sound
        · rw [made] at emits src
          cases emits
          obtain ⟨sound', less⟩ := @decode_left (r.forget n) _ _ _ _ _ sound
            seen made
          exact ⟨sound', .inr ⟨src, less⟩⟩
  · rw [failed] at emits
    cases emits

theorem exists_decodes (src : Bytes) :
    ∃ out result, Decodes round (new src) out result := by
  have kept : ∀ (r : Lz4Reader) (out : Bytes) (after : Lz4Reader),
      r.cursor.Sound → r.round = (.emitted out, after) →
        after.cursor.Sound ∧
          (if after.failed.isSome then 0
            else after.cursor.left after.src.length + 1) <
          if r.failed.isSome then 0 else r.cursor.left r.src.length + 1 := by
    intro r out after sound emits
    obtain ⟨failed, sound', last | ⟨src, less⟩⟩ := round_left sound emits
    · rw [failed, if_pos last]
      exact ⟨sound', Nat.succ_pos _⟩
    · refine ⟨sound', ?_⟩
      rw [failed, src]
      simp only [Option.isSome_none, Bool.false_eq_true, if_false]
      split <;> omega
  exact Exav.Decode.exists_decodes _ kept _ (searching_new src).sound

theorem Opens.functional {src content content' : Bytes}
    {result result' : Except String Unit} (left : Opens src content result)
    (right : Opens src content' result') :
    content = content' ∧ result = result' := by
  cases left with
  | reader first delivers =>
      cases right with
      | reader first' delivers' =>
          cases first.symm.trans first'
          exact delivers.functional delivers'
      | nothing first' => cases first.symm.trans first'
      | failed first' => cases first.symm.trans first'
  | nothing first =>
      cases right with
      | reader first' _ => cases first.symm.trans first'
      | nothing => exact ⟨rfl, rfl⟩
      | failed first' => cases first.symm.trans first'
  | failed first =>
      cases right with
      | reader first' _ => cases first.symm.trans first'
      | nothing first' => cases first.symm.trans first'
      | failed first' =>
          cases first.symm.trans first'
          exact ⟨rfl, rfl⟩

end Lz4Reader

namespace Lz4Whole

theorem goto_left {t after : Lz4Whole} {out : Bytes} {place : Place}
    (emits : t.goto place = (.emitted out, after)) :
    after = { t with place } := by
  cases emits
  rfl

theorem step_left {t after : Lz4Whole} {out : Bytes}
    (emits : t.step = (.emitted out, after)) : after.left < t.left := by
  unfold step at emits
  cases failing : t.failing with
  | some reason =>
      rw [failing] at emits
      cases emits
  | none =>
      rw [failing] at emits
      cases place : t.place with
      | frame pos =>
          have here : t.left = 2 * (t.src.length - pos) := by
            unfold left
            rw [place]
          rw [place] at emits
          dsimp only at emits
          unfold stepFrame at emits
          split at emits
          · cases emits
          · split at emits
            · rw [goto_left emits, here]
              show 2 * (t.src.length - (pos + 4)) + 1 < _
              omega
            · split at emits
              · cases emits
              · rename_i ok
                have far := Lz4Cursor.header_ok ok
                rw [goto_left emits, here]
                show 2 * (t.src.length - (pos + _)) + 1 < _
                omega
            · rw [goto_left emits, here]
              show 2 * (t.src.length - (pos + 8 + _)) < _
              omega
            · cases emits
      | block b first =>
          have here : t.left = 2 * (t.src.length - b.p) + 1 := by
            unfold left
            rw [place]
          rw [place] at emits
          dsimp only at emits
          unfold stepBlock at emits
          split at emits
          · cases emits
          · split at emits
            · rw [goto_left emits, here]
              exact Nat.lt_succ_self _
            · split at emits
              · rw [goto_left emits, here]
                show 2 * (t.src.length - (b.p + 4 + _)) < _
                omega
              · dsimp only at emits
                split at emits
                · cases emits
                · split at emits
                  · cases emits
                  · cases emits
                    rw [here]
                    show 2 * (t.src.length - (b.p + 4 + _ + _)) + 1 < _
                    omega

theorem exists_decodes (t : Lz4Whole) :
    ∃ out result, Decodes step t out result := by
  have kept : ∀ (t : Lz4Whole) (out : Bytes) (after : Lz4Whole), True →
      t.step = (.emitted out, after) → True ∧ after.left < t.left :=
    fun t out after _ emits => ⟨trivial, step_left emits⟩
  exact Exav.Decode.exists_decodes _ kept t trivial

end Lz4Whole

/-- What a file opens to is what all its blocks decode to onto one buffer. -/
def Lz4Exact (src : Bytes) : Prop :=
  ∃ content result, Decodes Lz4Whole.step (.start src) content result ∧
    Lz4Reader.Opens src content result

theorem follows_start (src : Bytes) : Follows (.new src) (.start src) :=
  .frame ⟨Lz4Reader.searching_new src, rfl, rfl, [], rfl, .inl rfl⟩ rfl rfl

theorem lz4Exact_iff (src : Bytes) :
    Lz4Exact src ↔ (Lz4Whole.start src).Calm := by
  rw [(follows_start src).calm_iff]
  constructor
  · rintro ⟨content, result, whole, opens⟩
    obtain ⟨content', result', decodes⟩ := Lz4Reader.exists_decodes src
    obtain ⟨rfl, rfl⟩ :=
      (Lz4Reader.opens_of_decodes decodes).functional opens
    exact .of_decodes decodes whole
  · intro same
    obtain ⟨content, result, whole⟩ := (Lz4Whole.start src).exists_decodes
    exact ⟨content, result, whole,
      Lz4Reader.opens_of_decodes ((same content result).mpr whole)⟩

def skippedLz4 : Bytes :=
  legacyMagic ++ [2, 0, 0, 0, 0x10, 0x61] ++
    [0x50, 0x2A, 0x4D, 0x18, 0, 0, 0, 0] ++
    legacyMagic ++ [2, 0, 0, 0, 0x10, 0x62]

/-- The reader ends after the first byte. -/
theorem skippedLz4_opens : ¬ Lz4Exact skippedLz4 ∧
    Decodes Lz4Whole.step (.start skippedLz4) [0x61, 0x62] (.ok ()) ∧
    Lz4Reader.Opens skippedLz4 [0x61] (.ok ()) := by
  have whole : Decodes Lz4Whole.step (.start skippedLz4)
      ([] ++ ([0x61] ++ ([] ++ ([] ++ ([] ++ ([0x62] ++ [])))))) (.ok ()) :=
    .step (by decide) (.step (by decide)
      (.step (by decide) (.step (by decide)
        (.step (by decide) (.step (by decide)
          (.stop_ok (by decide)))))))
  have rounds : Decodes Lz4Reader.round (.new skippedLz4)
      ([] ++ ([0x61] ++ ([] ++ []))) (.ok ()) :=
    .step (by decide) (.step (by decide)
      (.step (by decide) (.stop_ok (by decide))))
  have opens := Lz4Reader.opens_of_decodes rounds
  refine ⟨?_, whole, opens⟩
  rintro ⟨content, result, decodes, opens'⟩
  obtain ⟨rfl, _⟩ := decodes.functional whole
  obtain ⟨same, _⟩ := opens'.functional opens
  cases same

end Exav.Unpack
