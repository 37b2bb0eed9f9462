import Exav.Unpack.Lz4

/-!
# What an LZ4 file reads as

Between two blocks that are handed out, a reader takes a round of its search at a
time.  Reads of any sizes deliver what its rounds decode.
-/

namespace Exav.Unpack

open Exav.Decode

/-! ## Getting on -/

namespace Lz4Cursor

/-- How far a search may still go on in a file of `len` bytes. -/
def left (c : Lz4Cursor) (len : Nat) : Nat :=
  match c.blocks with
  | none => 2 * (len - c.pos)
  | some b => 2 * (len - b.p) + 1

/-- Blocks are behind the start of their frame. -/
def Sound (c : Lz4Cursor) : Prop := ∀ b ∈ c.blocks, c.pos < b.p

theorem left_le (c : Lz4Cursor) (len : Nat) : c.left len < 2 * len + 2 := by
  unfold left
  split <;> omega

theorem leave_again {c after : Lz4Cursor} {p : Nat}
    (again : c.leave p = .again after) :
    c.pos < p ∧ after = { pos := p, blocks := none } := by
  unfold leave endFrame at again
  by_cases stuck : p ≤ c.pos
  · rw [if_pos stuck] at again
    cases again
  · rw [if_neg stuck] at again
    cases again
    exact ⟨Nat.not_le.mp stuck, rfl⟩

theorem leave_sound {c after : Lz4Cursor} {p : Nat}
    (again : c.leave p = .again after) : after.Sound := by
  rw [(leave_again again).2]
  exact fun b member => absurd member (Option.not_mem_none b)

theorem leave_ne_block {c : Lz4Cursor} {p n : Nat} {b : Blocks}
    {stored : Bool} : c.leave p ≠ .block b stored n := by
  unfold leave
  split <;> nofun

theorem header_ok {head : Bytes} {off : Nat} {checks : Bool × Bool}
    (ok : header head = .ok (off, checks)) : 7 ≤ off := by
  unfold header at ok
  split at ok
  · cases ok
  · split at ok
    · cases ok
    · split at ok
      · cases ok
      · rename_i flg _ _ _
        dsimp only at ok
        have seven : 7 ≤ 6 + (if flg &&& 0x08 ≠ 0 then 8 else 0) + 1 := by
          omega
        by_cases short :
            head.length < 6 + (if flg &&& 0x08 ≠ 0 then 8 else 0) + 1
        · rw [if_pos short] at ok
          cases ok
        · rw [if_neg short] at ok
          cases ok
          exact seven

theorem lookFrame_again {c after : Lz4Cursor} {src : Bytes}
    (start : c.blocks = none) (again : c.lookFrame src = .again after) :
    after.Sound ∧ after.left src.length < c.left src.length := by
  have here : c.left src.length = 2 * (src.length - c.pos) := by
    unfold left
    rw [start]
  have enters : ∀ b : Blocks, c.pos + 8 ≤ src.length → c.pos + 4 ≤ b.p →
      Sound { c with blocks := some b } ∧
        left { c with blocks := some b } src.length < c.left src.length := by
    intro b inside past
    constructor
    · intro b' same
      cases same
      show c.pos < b.p
      omega
    · rw [here]
      show 2 * (src.length - b.p) + 1 < _
      omega
  unfold lookFrame at again
  split at again
  · cases again
  · rename_i inside
    have inside : c.pos + 8 ≤ src.length := Nat.not_lt.mp inside
    dsimp only at again
    split at again
    · cases again
      exact enters _ inside (Nat.le_refl _)
    · split at again
      · split at again
        · cases again
        · rename_i off blockChecksum contentChecksum ok
          cases again
          apply enters _ inside
          have far := header_ok ok
          show c.pos + 4 ≤ c.pos + off
          omega
      · split at again
        · cases again
          constructor
          · intro b member
            rw [start] at member
            exact absurd member (Option.not_mem_none b)
          · rw [here]
            unfold left
            rw [start]
            dsimp only
            omega
        · cases again

theorem lookBlock_again {c after : Lz4Cursor} {b : Blocks} {src : Bytes}
    (inside : c.blocks = some b) (again : c.lookBlock b src = .again after) :
    after.Sound ∧ after.left src.length < c.left src.length := by
  have here : c.left src.length = 2 * (src.length - b.p) + 1 := by
    unfold left
    rw [inside]
  have leaves : ∀ p, c.leave p = .again after → src.length ≤ p ∨ b.p ≤ p →
      after.Sound ∧ after.left src.length < c.left src.length := by
    intro p left_ past
    refine ⟨leave_sound left_, ?_⟩
    rw [(leave_again left_).2, here]
    show 2 * (src.length - p) < _
    omega
  unfold lookBlock at again
  split at again
  · exact leaves _ again (.inr (Nat.le_refl _))
  · split at again
    · exact leaves _ again (.inr (by omega))
    · dsimp only at again
      split at again
      · exact leaves _ again (.inl (Nat.le_refl _))
      · split at again <;> cases again

theorem look_again {c after : Lz4Cursor} {src : Bytes}
    (again : c.look src = .again after) :
    after.Sound ∧ after.left src.length < c.left src.length := by
  unfold look at again
  cases blocks : c.blocks with
  | none =>
      rw [blocks] at again
      exact lookFrame_again blocks again
  | some b =>
      rw [blocks] at again
      exact lookBlock_again blocks again

theorem look_block {c : Lz4Cursor} {src : Bytes} {b : Blocks} {stored : Bool}
    {n : Nat} (found : c.look src = .block b stored n) :
    ∃ b₀ ∈ c.blocks, b = { b₀ with p := b₀.p + 4 } ∧
      b.p + n ≤ src.length := by
  unfold look at found
  cases blocks : c.blocks with
  | none =>
      rw [blocks] at found
      dsimp only at found
      unfold lookFrame at found
      split at found
      · cases found
      · dsimp only at found
        split at found
        · cases found
        · split at found
          · split at found <;> cases found
          · split at found <;> cases found
  | some b₀ =>
      rw [blocks] at found
      dsimp only at found
      unfold lookBlock at found
      split at found
      · exact absurd found leave_ne_block
      · split at found
        · exact absurd found leave_ne_block
        · dsimp only at found
          split at found
          · exact absurd found leave_ne_block
          · rename_i inside
            split at found
            · cases found
            · cases found
              exact ⟨b₀, rfl, rfl, Nat.not_lt.mp inside⟩

theorem behind_sound {c : Lz4Cursor} {b : Blocks} (past : c.pos < b.p)
    (src : Bytes) :
    (c.behind b src).Sound ∧
      (c.behind b src).left src.length ≤ 2 * (src.length - b.p) + 1 := by
  unfold behind
  dsimp only
  split
  · rw [endFrame, if_neg (Nat.not_le.mpr past)]
    exact ⟨fun b member => absurd member (Option.not_mem_none b),
      Nat.le_succ _⟩
  · constructor
    · intro b' same
      cases same
      exact past
    · exact Nat.le_refl _

end Lz4Cursor

/-! ## Rounds -/

namespace Lz4Reader

def drained (r : Lz4Reader) : Lz4Reader := { r with handed := r.history.length }

@[simp] theorem src_forget (r : Lz4Reader) (n : Nat) :
    (r.forget n).src = r.src := rfl

@[simp] theorem cursor_forget (r : Lz4Reader) (n : Nat) :
    (r.forget n).cursor = r.cursor := rfl

@[simp] theorem failed_forget (r : Lz4Reader) (n : Nat) :
    (r.forget n).failed = r.failed := rfl

/-- One round of the search for a block. -/
def search (r : Lz4Reader) : Stepped String UInt8 × Lz4Reader :=
  match r.cursor.look r.src with
  | .again cursor => (.emitted [], { r with cursor })
  | .noneLeft => (.ended, r)
  | .failed reason => (.failed reason, r)
  | .block b stored n =>
      match r.decode b stored n with
      | (.error reason, after) =>
          (.emitted (after.history.drop r.history.length),
            { after.drained with failed := some reason })
      | (.ok _, after) =>
          (.emitted (after.history.drop r.history.length), after.drained)

def round (r : Lz4Reader) : Stepped String UInt8 × Lz4Reader :=
  match r.failed with
  | some reason => (.failed reason, r)
  | none => r.trim.search

/-- A reader that is searching: it has handed out its history, and nothing has
failed. -/
structure Searching (r : Lz4Reader) : Prop where
  drained : r.handed = r.history.length
  failed : r.failed = none
  done : r.done = false
  sound : r.cursor.Sound

theorem Searching.forget {r : Lz4Reader} (searching : r.Searching) (n : Nat) :
    (r.forget n).Searching where
  drained := by
    show r.handed - n = (r.history.drop n).length
    rw [List.length_drop, searching.drained]
  failed := searching.failed
  done := searching.done
  sound := searching.sound

theorem Searching.at_cursor {r : Lz4Reader} (searching : r.Searching)
    {cursor : Lz4Cursor} (sound : cursor.Sound) :
    ({ r with cursor } : Lz4Reader).Searching :=
  { searching with sound }

theorem trim_of_le {r : Lz4Reader} (short : r.handed ≤ lz4History) :
    r.trim = r := by
  rw [trim, Nat.sub_eq_zero_of_le short]
  rfl

theorem handed_trim (r : Lz4Reader) : r.trim.handed ≤ lz4History := by
  have few : r.trim.handed = r.handed - (r.handed - lz4History) := by
    rw [trim, forget]
  rw [few]
  omega

theorem Searching.round {r : Lz4Reader} (searching : r.Searching)
    (short : r.handed ≤ lz4History) : r.round = r.search := by
  unfold Lz4Reader.round
  rw [searching.failed]
  dsimp only
  rw [trim_of_le short]

theorem decode_appends (r : Lz4Reader) (b : Blocks) (stored : Bool) (n : Nat) :
    ∃ more, (r.decode b stored n).2.history = r.history ++ more ∧
      (r.decode b stored n).2.src = r.src ∧
      (r.decode b stored n).2.failed = r.failed ∧
      (r.decode b stored n).2.done = r.done ∧
      (r.decode b stored n).2.handed = r.handed := by
  obtain ⟨more, appended⟩ :=
    unpackBlock_prefix stored (window r.src b.p n) r.history
  refine ⟨more, ?_⟩
  rw [appended]
  unfold decode
  rcases unpackBlock stored (window r.src b.p n) r.history with
    ⟨_ | _, history⟩ <;> exact ⟨rfl, rfl, rfl, rfl, rfl⟩

theorem decode_ok {r after : Lz4Reader} {b : Blocks} {stored decoded : Bool}
    {n : Nat} (made : r.decode b stored n = (.ok decoded, after)) :
    decoded = true ∧ after.cursor = r.cursor.behind
      { b with p := b.p + n + if b.blockChecksum then 4 else 0 } r.src := by
  unfold decode at made
  rcases unpacked : unpackBlock stored (window r.src b.p n) r.history with
    ⟨_ | _, history⟩
  · rw [unpacked] at made
    cases made
  · rw [unpacked] at made
    cases made
    exact ⟨rfl, rfl⟩

/-- What the next block comes to for a reader whose rounds decode to `rest`. -/
inductive NextOf (rest : Bytes) (result : Except String Unit) (r : Lz4Reader) :
    Except String Bool × Lz4Reader → Prop where
  | ended {after : Lz4Reader} (nothing : rest = []) (ok : result = .ok ())
      (history : after.history = r.history)
      (handed : after.handed = r.handed) (failed : after.failed = r.failed) :
      NextOf rest result r (.ok false, after)
  | failed {after : Lz4Reader} {reason : String}
      (error : result = .error reason)
      (history : after.history = r.history ++ rest)
      (handed : after.handed = r.handed) :
      NextOf rest result r (.error reason, after)
  | block {after : Lz4Reader} {front more : Bytes} (split : rest = front ++ more)
      (history : after.history = r.history ++ front)
      (handed : after.handed = r.handed) (src : after.src = r.src)
      (searching : after.drained.Searching)
      (less : after.cursor.left r.src.length < r.cursor.left r.src.length)
      (decodes : Decodes round after.drained more result) :
      NextOf rest result r (.ok true, after)

theorem decode_left {r after : Lz4Reader} {b : Blocks} {stored decoded : Bool}
    {n : Nat} (sound : r.cursor.Sound)
    (found : r.cursor.look r.src = .block b stored n)
    (made : r.decode b stored n = (.ok decoded, after)) :
    after.cursor.Sound ∧
      after.cursor.left r.src.length < r.cursor.left r.src.length := by
  obtain ⟨b₀, member, rfl, inside⟩ := Lz4Cursor.look_block found
  obtain ⟨-, cursor⟩ := decode_ok made
  have past : r.cursor.pos < b₀.p := sound b₀ member
  have here : r.cursor.left r.src.length =
      2 * (r.src.length - b₀.p) + 1 := by
    unfold Lz4Cursor.left
    rw [Option.mem_def.mp member]
  have inside : b₀.p + 4 + n ≤ r.src.length := inside
  obtain ⟨sound', most⟩ := @Lz4Cursor.behind_sound r.cursor
    { b₀ with p := b₀.p + 4 + n + if b₀.blockChecksum then 4 else 0 }
    (by show r.cursor.pos < b₀.p + 4 + n + _; omega) r.src
  rw [cursor]
  refine ⟨sound', Nat.lt_of_le_of_lt most ?_⟩
  rw [here]
  show 2 * (r.src.length - (b₀.p + 4 + n + _)) + 1 < _
  omega

theorem nextBlockFrom_nextOf {rounds : Nat} {r : Lz4Reader} {rest : Bytes}
    {result : Except String Unit} (searching : r.Searching)
    (short : r.handed ≤ lz4History)
    (enough : r.cursor.left r.src.length < rounds)
    (decodes : Decodes round r rest result) :
    NextOf rest result r (r.nextBlockFrom rounds) := by
  induction rounds generalizing r with
  | zero => exact absurd enough (Nat.not_lt_zero _)
  | succ rounds ih =>
      have rounded := searching.round short
      unfold search at rounded
      unfold nextBlockFrom
      cases seen : r.cursor.look r.src with
      | again cursor =>
          rw [seen] at rounded
          obtain ⟨sound, less⟩ := Lz4Cursor.look_again seen
          have next := @ih { r with cursor } (searching.at_cursor sound) short
            (Nat.lt_of_lt_of_le less (Nat.le_of_lt_succ enough))
            (by
              cases decodes with
              | ended last => cases rounded.symm.trans last
              | failed last => cases rounded.symm.trans last
              | emitted first more =>
                  cases rounded.symm.trans first
                  exact more)
          dsimp only
          revert next
          generalize nextBlockFrom rounds _ = outcome
          intro next
          cases next with
          | ended nothing ok history handed failed =>
              exact .ended nothing ok history handed failed
          | failed error history handed => exact .failed error history handed
          | block split history handed src searching less' decodes =>
              exact .block split history handed src searching
                (Nat.lt_trans less' less) decodes
      | noneLeft =>
          rw [seen] at rounded
          cases decodes with
          | ended last => exact .ended rfl rfl rfl rfl rfl
          | failed last => cases rounded.symm.trans last
          | emitted first _ => cases rounded.symm.trans first
      | failed reason =>
          rw [seen] at rounded
          cases decodes with
          | ended last => cases rounded.symm.trans last
          | failed last =>
              cases rounded.symm.trans last
              exact .failed rfl (List.append_nil _).symm rfl
          | emitted first _ => cases rounded.symm.trans first
      | block b stored n =>
          rw [seen] at rounded
          obtain ⟨more, history, src, failed, done, handed⟩ :=
            decode_appends r b stored n
          dsimp only at rounded ⊢
          rcases made : r.decode b stored n with ⟨reason | decoded, after⟩
          · rw [made] at rounded history handed
            dsimp only at rounded history handed
            have emits : after.history.drop r.history.length = more := by
              rw [history, List.drop_left]
            cases decodes with
            | ended last => cases rounded.symm.trans last
            | failed last => cases rounded.symm.trans last
            | emitted first rest_ =>
                cases rounded.symm.trans first
                cases rest_ with
                | ended last => cases last
                | emitted last _ => cases last
                | failed last =>
                    cases last
                    apply NextOf.failed rfl _ handed
                    rw [List.append_nil, emits]
                    exact history
          · obtain ⟨rfl, cursor⟩ := decode_ok made
            obtain ⟨sound, less⟩ := decode_left searching.sound seen made
            rw [made] at rounded history handed src failed done
            dsimp only at rounded history handed src failed done
            have emits : after.history.drop r.history.length = more := by
              rw [history, List.drop_left]
            cases decodes with
            | ended last => cases rounded.symm.trans last
            | failed last => cases rounded.symm.trans last
            | emitted first rest_ =>
                cases rounded.symm.trans first
                refine .block rfl ?_ handed src ?_ less rest_
                · rw [emits]
                  exact history
                · exact {
                    drained := rfl
                    failed := failed.trans searching.failed
                    done := done.trans searching.done
                    sound := sound }

/-! ## Reads -/

inductive Left : Lz4Reader → Bytes → Except String Unit → Prop where
  | failed {r : Lz4Reader} {reason : String}
      (inside : r.handed ≤ r.history.length)
      (failed : r.failed = some reason) :
      Left r (r.history.drop r.handed) (.error reason)
  | done {r : Lz4Reader} (inside : r.handed ≤ r.history.length)
      (failed : r.failed = none) (done : r.done = true) :
      Left r (r.history.drop r.handed) (.ok ())
  | more {r : Lz4Reader} {rest : Bytes} {result : Except String Unit}
      (inside : r.handed ≤ r.history.length)
      (searching : r.drained.Searching)
      (decodes : Decodes round r.drained rest result) :
      Left r (r.history.drop r.handed ++ rest) result

/-- What one read comes to. -/
inductive Handed (content : Bytes) (result : Except String Unit) (size : Nat) :
    Except String Bytes × Lz4Reader → Prop where
  | given {got more : Bytes} {after : Lz4Reader} (split : content = got ++ more)
      (left : Left after more result)
      (last : got = [] → 0 < size → content = [] ∧ result = .ok ()) :
      Handed content result size (.ok got, after)
  | failed {reason : String} {after : Lz4Reader} (nothing : content = [])
      (error : result = .error reason) :
      Handed content result size (.error reason, after)

theorem Left.take {r : Lz4Reader} {content : Bytes}
    {result : Except String Unit} (left : Left r content result) {n : Nat}
    (fits : n ≤ r.history.length - r.handed) :
    ∃ more, content = window r.history r.handed n ++ more ∧
      Left { r with handed := r.handed + n } more result := by
  have cut : r.history.drop r.handed =
      window r.history r.handed n ++ r.history.drop (r.handed + n) := by
    rw [window, ← List.drop_drop, List.take_append_drop]
  cases left with
  | failed inside failed =>
      refine ⟨_, cut, .failed ?_ failed⟩
      dsimp only
      omega
  | done inside failed done =>
      refine ⟨_, cut, .done ?_ failed done⟩
      dsimp only
      omega
  | @more rest _ inside searching decodes =>
      refine ⟨r.history.drop (r.handed + n) ++ rest, ?_,
        .more ?_ searching decodes⟩
      · rw [cut, List.append_assoc]
      · dsimp only
        omega

/-- Rounds that a read needs. -/
def needs (r : Lz4Reader) : Nat :=
  if r.failed.isSome ∨ r.done then 1 else r.cursor.left r.src.length + 3

theorem Searching.round_trim {r : Lz4Reader} (searching : r.Searching) :
    r.trim.round = r.round := by
  have trimmed := (searching.forget (r.handed - lz4History)).round
    (handed_trim r)
  have own : r.round = r.trim.search := by
    unfold Lz4Reader.round
    rw [searching.failed]
  exact trimmed.trans own.symm

theorem drop_of_handed {r : Lz4Reader} (all : ¬ r.handed < r.history.length) :
    r.history.drop r.handed = [] :=
  List.drop_eq_nil_of_le (Nat.not_lt.mp all)

theorem drop_append_of_drained {r after : Lz4Reader} {more : Bytes}
    (drained : r.handed = r.history.length)
    (history : after.history = r.history ++ more)
    (handed : after.handed = r.handed) :
    after.handed ≤ after.history.length ∧
      after.history.drop after.handed = more := by
  rw [handed, history, drained, List.drop_left, List.length_append]
  exact ⟨Nat.le_add_right _ _, rfl⟩

theorem readFrom_handed {rounds size : Nat} {r : Lz4Reader} {content : Bytes}
    {result : Except String Unit} (left : Left r content result)
    (enough : r.needs ≤ rounds) :
    Handed content result size (r.readFrom rounds size) := by
  induction rounds generalizing r content with
  | zero =>
      unfold needs at enough
      split at enough <;> omega
  | succ rounds ih =>
      unfold readFrom
      by_cases some_left : r.handed < r.history.length
      · rw [if_pos some_left]
        obtain ⟨more, split, left'⟩ := left.take (Nat.min_le_left _ size)
        refine .given split left' ?_
        intro nothing wanted
        have length := congrArg List.length nothing
        rw [length_window, List.length_nil] at length
        omega
      · rw [if_neg some_left]
        cases left with
        | failed inside failed =>
            rw [failed]
            exact .failed (drop_of_handed some_left) rfl
        | done inside failed done =>
            rw [failed]
            dsimp only
            rw [if_pos done]
            refine .given (List.nil_append _).symm (.done inside failed done) ?_
            exact fun _ _ => ⟨drop_of_handed some_left, rfl⟩
        | @more rest _ inside searching decodes =>
            have all : r.handed = r.history.length :=
              Nat.le_antisymm inside (Nat.not_lt.mp some_left)
            have same : r.drained = r := by
              rw [Lz4Reader.drained, ← all]
            rw [same] at searching decodes
            have trimmed := searching.forget (r.handed - lz4History)
            have next : NextOf rest result r.trim r.trim.nextBlock :=
              nextBlockFrom_nextOf trimmed (handed_trim r)
                (Lz4Cursor.left_le _ _) (decodes.of_step_eq searching.round_trim)
            have running : ¬ (r.failed.isSome ∨ r.done) := by
              rw [searching.failed, searching.done]
              decide
            rw [needs, if_neg running] at enough
            rw [searching.failed, drop_of_handed some_left]
            dsimp only
            rw [if_neg (searching.done ▸ Bool.false_ne_true)]
            revert next
            generalize r.trim.nextBlock = outcome
            intro next
            cases next with
            | @ended after nothing ok history handed failed =>
                subst nothing ok
                obtain ⟨inside', behind⟩ :=
                  drop_append_of_drained trimmed.drained
                    (history.trans (List.append_nil _).symm) handed
                rw [trim, failed_forget, searching.failed] at failed
                have last := @Left.done { after with done := true } inside'
                  failed rfl
                dsimp only at last
                rw [behind] at last
                apply ih last
                rw [needs, if_pos (.inr rfl)]
                omega
            | @failed after reason error history handed =>
                subst error
                obtain ⟨inside', behind⟩ :=
                  drop_append_of_drained trimmed.drained history handed
                have last := @Left.failed
                  { after with failed := some reason } reason inside' rfl
                dsimp only at last
                rw [behind] at last
                apply ih last
                rw [needs, if_pos (.inl rfl)]
                omega
            | @block after front more split history handed src searching'
                less decodes' =>
                obtain ⟨inside', behind⟩ :=
                  drop_append_of_drained trimmed.drained history handed
                have again := Left.more inside' searching' decodes'
                rw [behind, ← split] at again
                apply ih again
                have running' : ¬ (after.failed.isSome ∨ after.done) := by
                  have failed : after.failed = none := searching'.failed
                  have done : after.done = false := searching'.done
                  rw [failed, done]
                  decide
                rw [trim, src_forget] at src
                rw [trim, src_forget, cursor_forget] at less
                rw [needs, if_neg running', src]
                omega

theorem needs_le (r : Lz4Reader) : r.needs ≤ 2 * r.src.length + 4 := by
  have most := r.cursor.left_le r.src.length
  unfold needs
  split <;> omega

theorem hands : Hands Lz4Reader.read Left where
  given := by
    intro r content result size got after left read
    have handed := @readFrom_handed _ size _ _ _ left r.needs_le
    unfold Lz4Reader.read at read
    rw [read] at handed
    cases handed with
    | given split left last => exact ⟨_, split, left, last⟩
  failed := by
    intro r content result size reason after left read
    have handed := @readFrom_handed _ size _ _ _ left r.needs_le
    unfold Lz4Reader.read at read
    rw [read] at handed
    cases handed with
    | failed nothing error => exact ⟨nothing, error⟩

/-! ## Opening -/

/-- A file is opened once its first block is decoded.  It then delivers a
content; where that block fails, what it gave is lost. -/
inductive Opens (src : Bytes) : Bytes → Except String Unit → Prop where
  | reader {r : Lz4Reader} {content : Bytes} {result : Except String Unit}
      (first : (new src).nextBlock = (.ok true, r))
      (delivers : Delivers Lz4Reader.read r content result) :
      Opens src content result
  | nothing {r : Lz4Reader} (first : (new src).nextBlock = (.ok false, r)) :
      Opens src [] (.ok ())
  | failed {r : Lz4Reader} {reason : String}
      (first : (new src).nextBlock = (.error reason, r)) :
      Opens src r.history (.error reason)

theorem searching_new (src : Bytes) : (new src).Searching where
  drained := rfl
  failed := rfl
  done := rfl
  sound := fun b member => absurd member (Option.not_mem_none b)

theorem opens_of_decodes {src content : Bytes} {result : Except String Unit}
    (decodes : Decodes round (new src) content result) :
    Opens src content result := by
  have next : NextOf content result (new src) (new src).nextBlock :=
    nextBlockFrom_nextOf (searching_new src) (Nat.zero_le _)
      (Lz4Cursor.left_le _ _) decodes
  rcases first : (new src).nextBlock with ⟨answer, r⟩
  rw [first] at next
  cases next with
  | ended nothing ok =>
      subst nothing ok
      exact .nothing first
  | failed error history =>
      have all : r.history = content := history
      subst error
      rw [← all]
      exact .failed first
  | block split history handed _ searching _ decodes =>
      obtain ⟨inside, behind⟩ :=
        drop_append_of_drained (searching_new src).drained history handed
      have left := Left.more inside searching decodes
      rw [behind, ← split] at left
      exact .reader first (hands.delivers left)

end Lz4Reader

end Exav.Unpack
