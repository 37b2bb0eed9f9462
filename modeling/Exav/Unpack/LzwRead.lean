import Exav.Unpack.LzwRefine

/-!
# What a `.Z` file decodes to

Every code takes bits, so a decoder stops; what it has emitted by then is the
same for reads of any sizes, and is what the table of strings gives unless a
code jumps.
-/

namespace Exav.Unpack

open Exav.Decode

namespace Cursor

theorem bitpos_le_alignToGroup {c : Cursor} (wide : 0 < c.width) :
    c.bitpos ≤ c.alignToGroup.bitpos := by
  have group : 0 < c.width * 8 := by omega
  have up := Nat.div_add_mod (c.bitpos - c.base + c.width * 8 - 1)
    (c.width * 8)
  have short := Nat.mod_lt (c.bitpos - c.base + c.width * 8 - 1) group
  rw [Nat.mul_comm] at up
  show c.bitpos ≤ c.base +
    (c.bitpos - c.base + c.width * 8 - 1) / (c.width * 8) * (c.width * 8)
  omega

theorem bitpos_le_widen {c : Cursor} (wide : 0 < c.width) (maxWidth next : Nat) :
    c.bitpos ≤ (c.widen maxWidth next).bitpos ∧
      0 < (c.widen maxWidth next).width := by
  unfold widen
  split
  · exact ⟨bitpos_le_alignToGroup wide, Nat.succ_pos _⟩
  · exact ⟨Nat.le_refl _, wide⟩

theorem bitpos_le_clear {c : Cursor} (wide : 0 < c.width) :
    c.bitpos ≤ c.clear.bitpos ∧ 0 < c.clear.width :=
  ⟨bitpos_le_alignToGroup wide, Nat.succ_pos 8⟩

theorem readCode_some {c after : Cursor} {data : Bytes} {totalBits code : Nat}
    (wide : 0 < c.width)
    (read : c.readCode data totalBits = some (code, after)) :
    c.bitpos < after.bitpos ∧ after.bitpos ≤ totalBits ∧ 0 < after.width := by
  unfold readCode at read
  split at read
  · cases read
  · rename_i fits
    cases read
    exact ⟨Nat.lt_add_of_pos_right wide, Nat.not_lt.mp fits, wide⟩

end Cursor

namespace Lzw

/-- Where a decoder is in its input. -/
def Ahead (s after : Lzw) : Prop :=
  after.totalBits = s.totalBits ∧ s.cursor.bitpos < after.cursor.bitpos ∧
    after.cursor.bitpos ≤ s.totalBits ∧ 0 < after.cursor.width

theorem codeFrom_some {rounds code : Nat} {s after : Lzw}
    (wide : 0 < s.cursor.width)
    (read : s.codeFrom rounds = (some code, after)) : s.Ahead after := by
  induction rounds generalizing s with
  | zero => cases read
  | succ rounds ih =>
      obtain ⟨past, wide'⟩ := s.cursor.bitpos_le_widen wide s.maxWidth s.next
      unfold codeFrom at read
      dsimp only at read
      rcases digits : (s.cursor.widen s.maxWidth s.next).readCode s.data
        s.totalBits with _ | ⟨number, cursor⟩
      · rw [digits] at read
        cases read
      · obtain ⟨further, inside, wide''⟩ := Cursor.readCode_some wide' digits
        rw [digits] at read
        dsimp only at read
        split at read
        · obtain ⟨still, wide'''⟩ := cursor.bitpos_le_clear wide''
          obtain ⟨same, later, inside', last⟩ := ih wide''' read
          refine ⟨same, ?_, inside', last⟩
          have later : cursor.clear.bitpos < after.cursor.bitpos := later
          omega
        · cases read
          exact ⟨rfl, Nat.lt_of_le_of_lt past further, inside, wide''⟩

@[simp] theorem cursor_define (s : Lzw) (code : Nat) (out : Bytes) :
    (s.define code out).cursor = s.cursor := by
  unfold define
  split
  · split <;> rfl
  · rfl

@[simp] theorem totalBits_define (s : Lzw) (code : Nat) (out : Bytes) :
    (s.define code out).totalBits = s.totalBits := by
  unfold define
  split
  · split <;> rfl
  · rfl

theorem walk_ne_nil {s : Lzw} {left cur : Nat} {out w : Bytes}
    (walked : s.walk left cur out = some w) : w ≠ [] := by
  induction left generalizing cur out with
  | zero =>
      unfold walk at walked
      split at walked
      · cases walked
        exact List.cons_ne_nil _ _
      · cases walked
  | succ left ih =>
      unfold walk at walked
      split at walked
      · cases walked
        exact List.cons_ne_nil _ _
      · split at walked
        · cases walked
        · exact ih walked

theorem expand_ne_nil {s : Lzw} {code : Nat} {out : Bytes}
    (expanded : s.expand code = some out) : out ≠ [] := by
  unfold expand at expanded
  split at expanded
  · obtain ⟨p, _, walked⟩ := Option.bind_eq_some_iff.mp expanded
    exact walk_ne_nil walked
  · exact walk_ne_nil expanded

/-- A step that emits emits something, and takes bits. -/
theorem step_emitted {s after : Lzw} {out : Bytes}
    (wide : 0 < s.cursor.width) (stepped : s.step = (.emitted out, after)) :
    out ≠ [] ∧ s.Ahead after := by
  unfold step at stepped
  rcases read : s.nextCode with ⟨_ | code, s'⟩
  · rw [read] at stepped
    cases stepped
  · rw [read] at stepped
    dsimp only at stepped
    cases expanded : s'.expand code with
    | none =>
        rw [expanded] at stepped
        cases stepped
    | some w =>
        rw [expanded] at stepped
        cases stepped
        have ahead := codeFrom_some wide read
        refine ⟨expand_ne_nil expanded, ?_⟩
        unfold Ahead
        rw [cursor_define, totalBits_define]
        exact ahead

theorem exists_decodes (s : Lzw) (wide : 0 < s.cursor.width) :
    ∃ out result, Decodes Lzw.step s out result := by
  have kept : ∀ s out after, 0 < s.cursor.width →
      Lzw.step s = (.emitted out, after) → 0 < after.cursor.width ∧
        after.totalBits - after.cursor.bitpos <
          s.totalBits - s.cursor.bitpos := by
    intro s out after wide stepped
    obtain ⟨same, later, inside, wide'⟩ := (step_emitted wide stepped).2
    refine ⟨wide', ?_⟩
    omega
  exact Exav.Decode.exists_decodes _ kept s wide

end Lzw

namespace LzwReader

def fresh (lzw : Lzw) : LzwReader where
  lzw := lzw
  staged := []
  taken := 0
  done := false

/-- What staging makes of a decoder that decodes to `out`. -/
inductive StagedTo (out : Bytes) (result : Except Unit Unit)
    (before : LzwReader) : Except String Unit × LzwReader → Prop where
  | whole {r : LzwReader} (taken : r.taken = before.taken)
      (done : r.done = true) (staged : r.staged = before.staged ++ out)
      (ended : result = .ok ()) : StagedTo out result before (.ok (), r)
  | part {r : LzwReader} {front rest : Bytes} (taken : r.taken = before.taken)
      (running : r.done = false) (wide : 0 < r.lzw.cursor.width)
      (long : stageBytes ≤ r.staged.length) (split : out = front ++ rest)
      (staged : r.staged = before.staged ++ front)
      (left : Decodes Lzw.step r.lzw rest result) :
      StagedTo out result before (.ok (), r)
  | failed {r : LzwReader} (refused : result = .error ())
      (short : before.staged.length + out.length < stageBytes) :
      StagedTo out result before (.error malformedZ, r)

theorem stageFrom_stagedTo {rounds : Nat} {r : LzwReader} {out : Bytes}
    {result : Except Unit Unit} (wide : 0 < r.lzw.cursor.width)
    (running : r.done = false)
    (enough : stageBytes ≤ r.staged.length + rounds)
    (decodes : Decodes Lzw.step r.lzw out result) :
    StagedTo out result r (r.stageFrom rounds) := by
  induction rounds generalizing r out with
  | zero =>
      exact .part rfl running wide enough rfl (List.append_nil _).symm decodes
  | succ rounds ih =>
      unfold stageFrom
      split
      · rename_i short
        cases decodes with
        | ended last =>
            rw [last]
            exact .whole rfl rfl (List.append_nil _).symm rfl
        | failed last =>
            rw [last]
            exact .failed rfl short
        | @emitted _ after w rest _ first more =>
            rw [first]
            dsimp only
            obtain ⟨some_byte, ahead⟩ := Lzw.step_emitted wide first
            have length : 0 < w.length := List.length_pos_iff.mpr some_byte
            have next := @ih { r with lzw := after, staged := r.staged ++ w }
              rest ahead.2.2.2 running (by
                rw [List.length_append]
                omega) more
            revert next
            generalize stageFrom rounds _ = outcome
            intro next
            cases next with
            | whole taken done staged ended =>
                exact .whole taken done
                  (staged.trans (List.append_assoc _ _ _)) ended
            | part taken running wide long split staged left =>
                subst split
                exact .part taken running wide long
                  (List.append_assoc _ _ _).symm
                  (staged.trans (List.append_assoc _ _ _)) left
            | failed refused short =>
                apply StagedTo.failed refused
                rw [List.length_append] at short
                rw [List.length_append]
                omega
      · rename_i long
        exact .part rfl running wide (Nat.not_lt.mp long) rfl
          (List.append_nil _).symm decodes

/-- What a decoder decodes to, a batch at a time: a batch that a code refused
cuts short is lost. -/
inductive Batches : Lzw → Bytes → Except String Unit → Prop where
  | last {s : Lzw} {r : LzwReader}
      (staged : (fresh s).stageFrom stageBytes = (.ok (), r))
      (done : r.done = true) (taken : r.taken = 0) :
      Batches s r.staged (.ok ())
  | failed {s : Lzw} {r : LzwReader} {e : String}
      (staged : (fresh s).stageFrom stageBytes = (.error e, r)) :
      Batches s [] (.error e)
  | more {s : Lzw} {r : LzwReader} {rest : Bytes} {result : Except String Unit}
      (staged : (fresh s).stageFrom stageBytes = (.ok (), r))
      (running : r.done = false) (taken : r.taken = 0)
      (long : stageBytes ≤ r.staged.length) (left : Batches r.lzw rest result) :
      Batches s (r.staged ++ rest) result

def stopOf (result : Except Unit Unit) : Except String Unit :=
  result.mapError fun _ => malformedZ

/-- The content of a reader is what its decoder decodes to, or, if a code is
refused, all of it but a batch that was not full. -/
def ContentOf (out : Bytes) (result : Except Unit Unit) (content : Bytes) :
    Prop :=
  content <+: out ∧ (result = .ok () → content = out) ∧
    out.length < content.length + stageBytes

theorem Decodes.batches {s : Lzw} {out : Bytes} {result : Except Unit Unit}
    (wide : 0 < s.cursor.width) (decodes : Decodes Lzw.step s out result) :
    ∃ content, Batches s content (stopOf result) ∧
      ContentOf out result content := by
  generalize bound : out.length = n
  induction n using Nat.strongRecOn generalizing s out with
  | ind n ih =>
      have staged := @stageFrom_stagedTo stageBytes (fresh s) out result wide
        rfl (Nat.le_refl _) decodes
      rcases outcome : (fresh s).stageFrom stageBytes with ⟨stop, r⟩
      rw [outcome] at staged
      cases staged with
      | whole taken done staged ended =>
          have all : r.staged = out := staged
          subst ended all
          exact ⟨_, .last outcome done taken, List.prefix_refl _,
            fun _ => rfl, Nat.lt_add_of_pos_right (by decide)⟩
      | @part _ front rest taken running wide' long split staged left =>
          have all : r.staged = front := staged
          subst split all
          have less : rest.length < n := by
            rw [← bound, List.length_append]
            have some_bytes : 0 < stageBytes := by decide
            omega
          obtain ⟨content, batches, starts, whole, most⟩ :=
            ih rest.length less wide' left rfl
          refine ⟨_, .more outcome running taken long batches,
            (List.prefix_append_right_inj _).mpr starts,
            fun ended => congrArg _ (whole ended), ?_⟩
          rw [List.length_append, List.length_append]
          omega
      | failed refused short =>
          subst refused
          refine ⟨[], .failed outcome, List.nil_prefix, nofun, ?_⟩
          have short : 0 + out.length < stageBytes := short
          rw [List.length_nil, Nat.zero_add]
          rwa [Nat.zero_add] at short

/-! ## Reads -/

inductive Left : LzwReader → Bytes → Except String Unit → Prop where
  | done {r : LzwReader} (inside : r.taken ≤ r.staged.length)
      (done : r.done = true) : Left r (r.staged.drop r.taken) (.ok ())
  | more {r : LzwReader} {rest : Bytes} {result : Except String Unit}
      (inside : r.taken ≤ r.staged.length) (running : r.done = false)
      (left : Batches r.lzw rest result) :
      Left r (r.staged.drop r.taken ++ rest) result

inductive Refilled (content : Bytes) (result : Except String Unit) :
    Except String Unit × LzwReader → Prop where
  | ready {r : LzwReader} (left : Left r content result)
      (some_or_done : r.taken = r.staged.length → r.done = true) :
      Refilled content result (.ok (), r)
  | failed {r : LzwReader} {e : String} (nothing : content = [])
      (refused : result = .error e) : Refilled content result (.error e, r)

theorem Left.refill {r : LzwReader} {content : Bytes}
    {result : Except String Unit} (left : Left r content result) :
    Refilled content result r.refill := by
  cases left with
  | done inside done =>
      have kept : ¬ (r.taken = r.staged.length ∧ (!r.done) = true) := by
        rw [done]
        exact fun both => Bool.noConfusion both.2
      rw [LzwReader.refill, if_neg kept]
      exact .ready (.done inside done) fun _ => done
  | @more _ rest inside running left =>
      by_cases empty : r.taken = r.staged.length
      · have nothing : r.staged.drop r.taken = [] :=
          List.drop_eq_nil_of_le (Nat.le_of_eq empty.symm)
        have again : { r with staged := [], taken := 0 } = fresh r.lzw := by
          rw [fresh, running]
        rw [LzwReader.refill, if_pos ⟨empty, by rw [running]; rfl⟩, again,
          nothing, List.nil_append]
        cases left with
        | @last _ r' staged done taken =>
            rw [staged]
            have all := Left.done (taken ▸ Nat.zero_le _) done
            rw [taken, List.drop_zero] at all
            exact .ready all fun _ => done
        | failed staged =>
            rw [staged]
            exact .failed rfl rfl
        | @more _ r' rest _ staged running taken long left =>
            rw [staged]
            have all := Left.more (taken ▸ Nat.zero_le _) running left
            rw [taken, List.drop_zero] at all
            refine .ready all fun used => ?_
            have some_bytes : 0 < stageBytes := by decide
            omega
      · rw [LzwReader.refill, if_neg fun both => empty both.1]
        exact .ready (.more inside running left) fun used =>
          absurd used empty

theorem Left.taken {r : LzwReader} {content : Bytes}
    {result : Except String Unit} (left : Left r content result) {n : Nat}
    (fits : n ≤ r.staged.length - r.taken) :
    ∃ more, content = window r.staged r.taken n ++ more ∧
      Left { r with taken := r.taken + n } more result := by
  have cut : r.staged.drop r.taken =
      window r.staged r.taken n ++ r.staged.drop (r.taken + n) := by
    rw [window, ← List.drop_drop, List.take_append_drop]
  cases left with
  | done inside done =>
      refine ⟨_, cut, .done ?_ done⟩
      dsimp only
      omega
  | @more rest _ inside running left =>
      refine ⟨r.staged.drop (r.taken + n) ++ rest, ?_,
        .more ?_ running left⟩
      · rw [cut, List.append_assoc]
      · dsimp only
        omega

theorem hands : Hands LzwReader.read Left where
  given := by
    intro r content result size got after left step
    have refilled := left.refill
    unfold LzwReader.read at step
    revert step refilled
    generalize r.refill = outcome
    intro step refilled
    cases refilled with
    | failed => cases step
    | @ready r left some_or_done =>
        dsimp only at step
        obtain ⟨more, split, left'⟩ := left.taken (Nat.min_le_left _ size)
        cases step
        refine ⟨more, split, left', ?_⟩
        intro nothing wanted
        have length := congrArg List.length nothing
        rw [length_window, List.length_nil] at length
        cases left with
        | done inside done =>
            refine ⟨List.drop_eq_nil_of_le ?_, rfl⟩
            omega
        | more inside running _ =>
            have used : r.taken = r.staged.length := by omega
            exact absurd (some_or_done used) (running ▸ Bool.false_ne_true)
  failed := by
    intro r content result size e after left step
    have refilled := left.refill
    unfold LzwReader.read at step
    revert step refilled
    generalize r.refill = outcome
    intro step refilled
    cases refilled with
    | failed nothing refused =>
        cases step
        exact ⟨nothing, refused⟩
    | ready => cases step

theorem delivers {s : Lzw} {out : Bytes} {result : Except Unit Unit}
    (wide : 0 < s.cursor.width) (decodes : Decodes Lzw.step s out result) :
    ∃ content, ContentOf out result content ∧
      Delivers LzwReader.read (fresh s) content (stopOf result) := by
  obtain ⟨content, batches, contentOf⟩ := Decodes.batches wide decodes
  exact ⟨content, contentOf,
    hands.delivers (.more (Nat.le_refl 0) rfl batches)⟩

end LzwReader

/-! ## What the table gives -/

/-- A decoder computes what the table of strings gives. -/
structure Lzw.Exact (s : Lzw) (t : Strings) : Prop where
  /-- It stops, having emitted the strings of the codes, at the end or at a code
  without a string. -/
  decodes : ∃ out result, Decodes Lzw.step s out result ∧
    Decodes Strings.step t out result
  /-- Chains go down. -/
  down : ∀ u, Reached Lzw.step s u →
    ∀ code, 256 ≤ code → code < u.next → u.prefixOf code < code
  /-- No walk of an entry runs out of rounds or of the table. -/
  walks : ∀ u, Reached Lzw.step s u → ∀ code < u.next,
    ∃ w, u.walk (u.tableCap + 1) code [] = some w ∧
      w.head? = some (u.firstByte (u.tableCap + 1) code)
  /-- Reads of any sizes deliver what it emits. -/
  reads : ∀ out result, Decodes Lzw.step s out result →
    ∃ content, LzwReader.ContentOf out result content ∧
      Delivers LzwReader.read (.fresh s) content (LzwReader.stopOf result)

/-- No code that a decoder comes to jumps. -/
def Strings.Calm (t : Strings) : Prop :=
  ∀ u, Reached Strings.step t u → ¬ u.Jumps

namespace Lzw.Follows

variable {s : Lzw} {t : Strings}

theorem lockstep : Lockstep Lzw.step Strings.step
    (fun s t => s.Follows t ∧ t.Calm) := by
  intro s t related
  have agree := related.1.agree (related.2 t (.refl t))
  rcases own : s.step with ⟨_ | _ | out, s'⟩ <;>
    rcases table : t.step with ⟨_ | _ | out', t'⟩ <;>
    rw [own, table] at agree <;> simp only [Agree] at agree ⊢
  refine ⟨agree.1, agree.2, ?_⟩
  exact fun u reached => related.2 u (.step table reached)

theorem exact_of_calm (follows : s.Follows t) (calm : t.Calm) : s.Exact t := by
  have wide : 0 < s.cursor.width := follows.cursor ▸ follows.some_width
  have reached : ∀ u, Reached Lzw.step s u →
      ∃ v, u.Follows v := by
    intro u reached
    obtain ⟨v, _, related, _⟩ := reached.follow lockstep ⟨follows, calm⟩
    exact ⟨v, related⟩
  obtain ⟨out, result, decodes⟩ := s.exists_decodes wide
  exact {
    decodes := ⟨out, result, decodes,
      decodes.follow lockstep ⟨follows, calm⟩⟩
    down := by
      intro u state code high below
      obtain ⟨v, related⟩ := reached u state
      exact related.prefixOf_lt high below
    walks := by
      intro u state code below
      obtain ⟨v, related⟩ := reached u state
      obtain ⟨w, spells⟩ := related.spelled below
      have inside := Nat.lt_of_lt_of_le below related.room
      refine ⟨w, ?_, firstByte_cap spells inside⟩
      rw [walk_cap spells inside, List.append_nil]
    reads := fun out result decodes => LzwReader.delivers wide decodes }

theorem calm_of_decodes (follows : s.Follows t) {u : Strings}
    (reached : Reached Strings.step t u)
    (decodes : ∃ out result, Decodes Lzw.step s out result ∧
      Decodes Strings.step t out result) : ¬ u.Jumps := by
  obtain ⟨out, result, own, table⟩ := decodes
  induction reached generalizing s out with
  | refl t =>
      intro jumps
      obtain ⟨after, failed⟩ := jumps.failed
      obtain ⟨w, after', emits, some_byte⟩ := follows.emits_of_jumps jumps
      obtain ⟨rfl, _⟩ := table.functional (.failed failed)
      generalize nothing : ([] : Bytes) = out at own
      cases own with
      | ended last => cases emits.symm.trans last
      | failed last => cases emits.symm.trans last
      | emitted first _ =>
          cases emits.symm.trans first
          exact some_byte (List.append_eq_nil_iff.mp nothing.symm).1
  | @step t after u w first _ ih =>
      have calm : ¬ t.Jumps := by
        intro jumps
        obtain ⟨after, failed⟩ := jumps.failed
        cases first.symm.trans failed
      obtain ⟨s', own', follows'⟩ :=
        (first ▸ (follows.agree calm).flip).emitted
      cases own with
      | ended last => cases own'.symm.trans last
      | failed last => cases own'.symm.trans last
      | @emitted _ _ _ rest _ first' more =>
          cases own'.symm.trans first'
          generalize whole : w ++ rest = out at table
          cases table with
          | ended last => cases first.symm.trans last
          | failed last => cases first.symm.trans last
          | emitted first'' more' =>
              cases first.symm.trans first''
              cases List.append_cancel_left whole
              exact ih follows' _ more more'

end Lzw.Follows

/-- A file is opened if its header is usable, and decoded as a table of strings
gives it. -/
def LzwExact (data : Bytes) : Prop :=
  match Lzw.new data, Strings.new data with
  | some s, some t => s.Exact t
  | none, none => True
  | _, _ => False

/-- No code of a file, after a string to extend, is above the one being
defined. -/
def NoJump (data : Bytes) : Prop := ∀ t ∈ Strings.new data, t.Calm

theorem lzwExact_iff (data : Bytes) : LzwExact data ↔ NoJump data := by
  have headers := Lzw.new_isSome data
  unfold LzwExact NoJump
  rcases opened : Lzw.new data with _ | s <;>
    rcases table : Strings.new data with _ | t <;>
    rw [opened, table] at headers
  · exact ⟨fun _ _ member => absurd member (Option.not_mem_none _),
      fun _ => trivial⟩
  · cases headers
  · cases headers
  · have follows := Lzw.new_follows opened table
    constructor
    · intro exact' t' same u reached
      cases same
      exact follows.calm_of_decodes reached exact'.decodes
    · intro calm
      exact follows.exact_of_calm (calm t rfl)

/-- The code 97, and then 300 where 257 is being defined. -/
def jumpingZ : Bytes := [0x1F, 0x9D, 0x89, 0x61, 0x58, 0x02]

theorem jumpingZ_opened : (Lzw.new jumpingZ).isSome := by decide

theorem jumpingZ_table : (Strings.new jumpingZ).isSome := by decide

/-- It decodes to three bytes, where the table refuses the second code. -/
theorem jumpingZ_decodes : ¬ LzwExact jumpingZ ∧
    ∃ s t, Lzw.new jumpingZ = some s ∧ Strings.new jumpingZ = some t ∧
      Decodes Lzw.step s [0x61, 0x61, 0x61] (.ok ()) ∧
      Decodes Strings.step t [0x61] (.error ()) := by
  have own : Decodes Lzw.step ((Lzw.new jumpingZ).get jumpingZ_opened)
      ([0x61] ++ ([0x61, 0x61] ++ [])) (.ok ()) :=
    .step (by decide) (.step (by decide)
      (.stop_ok (by decide)))
  have strings : Decodes Strings.step ((Strings.new jumpingZ).get jumpingZ_table)
      ([0x61] ++ []) (.error ()) :=
    .step (by decide) (.stop_error (by decide))
  refine ⟨?_, _, _, (Option.some_get jumpingZ_opened).symm,
    (Option.some_get jumpingZ_table).symm, own, strings⟩
  unfold LzwExact
  rw [← Option.some_get jumpingZ_opened, ← Option.some_get jumpingZ_table]
  intro exact'
  obtain ⟨out, result, left, right⟩ := exact'.decodes
  obtain ⟨rfl, _⟩ := left.functional own
  obtain ⟨same, _⟩ := right.functional strings
  cases same

end Exav.Unpack
