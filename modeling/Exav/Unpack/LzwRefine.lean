import Exav.Unpack.Lzw

/-!
# The arrays spell the table

Step for step a decoder follows the table of strings, until a code comes that
is above the one being defined: the arrays expand it as if it were that one,
and from there on their chains need not go down.
-/

namespace Exav.Unpack

open Exav.Decode

/-! ## Codes read -/

namespace Strings

theorem Jumps.failed {t : Strings} (jumps : t.Jumps) :
    ∃ after, t.step = (.failed (), after) := by
  obtain ⟨code, after, read, _, above⟩ := jumps
  have first : 256 ≤ after.first := by
    unfold Strings.first
    split <;> decide
  have undefined : after.expand code = none := by
    have next : after.next = after.first + after.table.length := rfl
    rw [expand, if_neg (Nat.ne_of_gt above), entry, if_neg (by omega),
      if_neg (by omega), List.getElem?_eq_none_iff]
    omega
  refine ⟨after, ?_⟩
  rw [step, read]
  dsimp only
  rw [undefined]

end Strings

/-! ## Following the table -/

/-- The arrays of a decoder spell the table. -/
structure Lzw.Follows (s : Lzw) (t : Strings) : Prop where
  input : t.input = s.data.drop 3
  bits : s.totalBits = (s.data.length - 3) * 8
  maxWidth : s.maxWidth = t.maxWidth
  wide : initWidth ≤ s.maxWidth
  blockMode : s.blockMode = t.blockMode
  cursor : s.cursor = t.segment.cursor
  some_width : 0 < t.segment.width
  width_le : t.segment.width ≤ t.maxWidth
  next : s.next = t.next
  room : s.next ≤ s.tableCap
  entries : ∀ code w, t.entry code = some w →
    Spells s.prefixOf s.suffix code w
  cleared : t.blockMode → s.prefixOf clearCode = 0
  prev : Option.Rel
    (fun p w => p < s.next ∧ Spells s.prefixOf s.suffix p w) s.prev t.prev

namespace Lzw.Follows

variable {s : Lzw} {t : Strings}

theorem first_le_tableCap (follows : s.Follows t) : firstFree ≤ s.tableCap :=
  calc firstFree ≤ 2 ^ initWidth := by decide
    _ ≤ 2 ^ s.maxWidth := Nat.pow_le_pow_right (by decide) follows.wide

theorem lt_tableCap (follows : s.Follows t) {code : Nat}
    (small : code < 2 ^ t.segment.width) : code < s.tableCap :=
  calc code < 2 ^ t.segment.width := small
    _ ≤ 2 ^ s.maxWidth :=
      Nat.pow_le_pow_right (by decide) (follows.maxWidth ▸ follows.width_le)

theorem spelled (follows : s.Follows t) {code : Nat} (below : code < s.next)
    : ∃ w, Spells s.prefixOf s.suffix code w := by
  by_cases low : code < 256
  · exact ⟨_, .byte low⟩
  · have inside : code < t.first + t.table.length :=
      Nat.lt_of_lt_of_eq below follows.next
    by_cases early : code < t.first
    · have clear : code = clearCode ∧ t.blockMode := by
        unfold Strings.first at early
        split at early
        · rename_i mode
          exact ⟨Nat.le_antisymm (Nat.le_of_lt_succ early)
            (Nat.not_lt.mp low), mode⟩
        · exact absurd early low
      have front : s.prefixOf code = 0 := by
        rw [clear.1, follows.cleared clear.2]
      refine ⟨_, .entry (Nat.not_lt.mp low) ?_ (.byte ?_)⟩ <;> omega
    · have some_entry : t.entry code = t.table[code - t.first]? := by
        rw [Strings.entry, if_neg low, if_neg early]
      have exists_entry : code - t.first < t.table.length := by omega
      exact ⟨_, follows.entries code _
        (some_entry.trans (List.getElem?_eq_getElem exists_entry))⟩

theorem prefixOf_lt (follows : s.Follows t) {code : Nat} (high : 256 ≤ code)
    (below : code < s.next) : s.prefixOf code < code := by
  obtain ⟨w, spells⟩ := follows.spelled below
  cases spells with
  | byte low => exact absurd high (Nat.not_le.mpr low)
  | entry _ down _ => exact down

/-! ### Reading codes -/

theorem clear (follows : s.Follows t) (segment : Segment)
    (wide : 0 < segment.width) (mode : s.blockMode) :
    ({ s with cursor := segment.cursor } : Lzw).clear.Follows
      ({ t with segment } : Strings).clear where
  input := follows.input
  bits := follows.bits
  maxWidth := follows.maxWidth
  wide := follows.wide
  blockMode := follows.blockMode
  cursor := clear_cursor wide
  some_width := Nat.succ_pos 8
  width_le := follows.maxWidth ▸ follows.wide
  next := by
    have first : ({ t with segment } : Strings).clear.first = firstFree :=
      if_pos (follows.blockMode ▸ mode)
    rw [Strings.next, first]
    rfl
  room := follows.first_le_tableCap
  entries := by
    intro code w entry
    unfold Strings.entry at entry
    split at entry
    · cases entry
      exact .byte ‹_›
    · split at entry <;> cases entry
  cleared := follows.cleared
  prev := .none

theorem moved (follows : s.Follows t) (segment : Segment)
    (wide : 0 < segment.width) (narrow : segment.width ≤ t.maxWidth) :
    ({ s with cursor := segment.cursor } : Lzw).Follows { t with segment } :=
  { follows with
    cursor := rfl, some_width := wide, width_le := narrow }

theorem codeFrom (follows : s.Follows t) (rounds : Nat) :
    (s.codeFrom rounds).1 = (t.codeFrom rounds).1 ∧
      (s.codeFrom rounds).2.Follows (t.codeFrom rounds).2 := by
  induction rounds generalizing s t with
  | zero => exact ⟨rfl, follows⟩
  | succ rounds ih =>
      have grown : s.cursor.widen s.maxWidth s.next =
          (t.segment.grow t.maxWidth t.next).cursor := by
        rw [follows.cursor, follows.maxWidth, follows.next,
          widen_cursor follows.some_width]
      have widths : 0 < (t.segment.grow t.maxWidth t.next).width ∧
          (t.segment.grow t.maxWidth t.next).width ≤ t.maxWidth := by
        unfold Segment.grow
        split
        · rename_i wider
          exact ⟨Nat.succ_pos _, wider.1⟩
        · exact ⟨follows.some_width, follows.width_le⟩
      have read := readCode_cursor (t.segment.grow t.maxWidth t.next) s.data
      rw [← follows.bits, ← follows.input, ← grown] at read
      unfold Lzw.codeFrom Strings.codeFrom
      dsimp only
      rw [read]
      cases (t.segment.grow t.maxWidth t.next).code t.input with
      | none =>
          rw [grown]
          exact ⟨rfl, follows.moved _ widths.1 widths.2⟩
      | some code =>
          dsimp only [Option.map_some]
          have mode := follows.blockMode
          by_cases clears : s.blockMode ∧ code = clearCode
          · rw [if_pos clears, if_pos (mode ▸ clears)]
            exact ih (follows.clear (t.segment.grow t.maxWidth t.next).read
              widths.1 clears.1)
          · rw [if_neg clears, if_neg (mode ▸ clears)]
            exact ⟨rfl, follows.moved
              (t.segment.grow t.maxWidth t.next).read widths.1 widths.2⟩

end Lzw.Follows

namespace Strings

theorem codeFrom_some {rounds code : Nat} {t after : Strings}
    (read : t.codeFrom rounds = (some code, after)) :
    ¬ (after.blockMode ∧ code = clearCode) ∧
      code < 2 ^ after.segment.width := by
  induction rounds generalizing t with
  | zero => cases read
  | succ rounds ih =>
      unfold codeFrom at read
      dsimp only at read
      cases digits : (t.segment.grow t.maxWidth t.next).code t.input with
      | none =>
          rw [digits] at read
          cases read
      | some number =>
          rw [digits] at read
          dsimp only at read
          split at read
          · exact ih read
          · rename_i kept
            cases read
            refine ⟨kept, ?_⟩
            unfold Segment.code at digits
            split at digits
            · cases digits
              exact Nat.mod_lt _ (Nat.two_pow_pos _)
            · cases digits

end Strings

namespace Lzw.Follows

variable {s : Lzw} {t : Strings}

theorem nextCode (follows : s.Follows t) :
    s.nextCode.1 = t.nextCode.1 ∧ s.nextCode.2.Follows t.nextCode.2 := by
  have rounds : s.totalBits + 1 = 8 * t.input.length + 1 := by
    rw [follows.bits, follows.input, List.length_drop, Nat.mul_comm]
  unfold Lzw.nextCode Strings.nextCode
  rw [rounds]
  exact follows.codeFrom _

/-! ### Strings -/

theorem next_ge (follows : s.Follows t) : 256 ≤ s.next := by
  rw [follows.next]
  apply Nat.le_trans _ (Nat.le_add_right _ _)
  unfold Strings.first
  split <;> decide

/-- A code below the one being defined stands for what its chain spells. -/
theorem entry_isSome (follows : s.Follows t) {code : Nat}
    (below : code < s.next) (kept : ¬ (t.blockMode ∧ code = clearCode)) :
    ∃ w, t.entry code = some w := by
  have inside : code < t.first + t.table.length :=
    Nat.lt_of_lt_of_eq below follows.next
  unfold Strings.entry
  by_cases low : code < 256
  · exact ⟨_, if_pos low⟩
  · have late : t.first ≤ code := by
      unfold Strings.first
      split
      · rename_i mode
        have other : code ≠ clearCode := fun clear => kept ⟨mode, clear⟩
        have high : clearCode ≤ code := Nat.not_lt.mp low
        exact Nat.lt_of_le_of_ne high (Ne.symm other)
      · exact Nat.not_lt.mp low
    rw [if_neg low, if_neg (Nat.not_lt.mpr late)]
    exact ⟨_, List.getElem?_eq_getElem (by omega)⟩

/-- A code stands for one string in both, unless it is above the one being
defined. -/
theorem expand_below (follows : s.Follows t) {code : Nat}
    (below : code < s.next) (kept : ¬ (t.blockMode ∧ code = clearCode)) :
    ∃ w, Spells s.prefixOf s.suffix code w ∧ s.expand code = some w ∧
      t.expand code = some w := by
  obtain ⟨w, entry⟩ := follows.entry_isSome below kept
  have spells := follows.entries code w entry
  refine ⟨w, spells, ?_, ?_⟩
  · have inside : code < s.tableCap := Nat.lt_of_lt_of_le below follows.room
    rw [Lzw.expand, if_neg (Nat.not_le.mpr below), walk_cap spells inside,
      List.append_nil]
  · rw [Strings.expand, if_neg, entry]
    rw [← follows.next]
    exact Nat.ne_of_lt below

/-- The code being defined, and any above it, stands for the string before and
its first byte once more. -/
theorem expand_above (follows : s.Follows t) {code : Nat}
    (above : s.next ≤ code) {p : Nat} {w : Bytes} (prev : s.prev = some p)
    (spells : Spells s.prefixOf s.suffix p w) (below : p < s.next) :
    s.expand code = some (w ++ w.take 1) := by
  have inside : p < s.tableCap := Nat.lt_of_lt_of_le below follows.room
  have first := firstByte_cap spells inside
  have one : w.take 1 = [s.firstByte (s.tableCap + 1) p] := by
    cases w with
    | nil => cases first
    | cons b w =>
        rw [← Option.some.inj first]
        rfl
  rw [Lzw.expand, if_pos above, prev, Option.bind_some,
    walk_cap spells inside, one]

/-- Where nothing comes before, no code above the others stands for a string. -/
theorem expand_first {code : Nat} (above : s.next ≤ code) (prev : s.prev = none) :
    s.expand code = none := by
  rw [Lzw.expand, if_pos above, prev, Option.bind_none]

/-! ### Entries -/

theorem define_full (follows : s.Follows t) {code : Nat} {out : Bytes}
    (spells : Spells s.prefixOf s.suffix code out) (below : code < s.next) :
    ({ s with prev := some code } : Lzw).Follows
      { t with prev := some out } :=
  { follows with prev := .some ⟨below, spells⟩ }

/-- What a code that has just been expanded is to the entry being defined. -/
def Expanded (s : Lzw) (before : Bytes) (code : Nat) (out : Bytes) : Prop :=
  (code < s.next ∧ Spells s.prefixOf s.suffix code out) ∨
    (code = s.next ∧ out = before ++ before.take 1)

theorem take_one_eq {out : Bytes} (some_byte : out ≠ []) :
    out.take 1 = [out.head?.getD 0] := by
  cases out with
  | nil => exact absurd rfl some_byte
  | cons b out => rfl

theorem define_next (follows : s.Follows t) (room : s.next < s.tableCap)
    {p code : Nat} {w out : Bytes} (some_byte : out ≠ [])
    (before : Spells s.prefixOf s.suffix p w) (below : p < s.next)
    (expanded : Expanded s w code out) :
    ({ s with
        prefixOf := Function.update s.prefixOf s.next p
        suffix := Function.update s.suffix s.next (out.head?.getD 0)
        next := s.next + 1
        prev := some code } : Lzw).Follows
      { t with table := t.table ++ [w ++ out.take 1], prev := some out } := by
  have defined : Spells (Function.update s.prefixOf s.next p)
      (Function.update s.suffix s.next (out.head?.getD 0)) s.next
      (w ++ out.take 1) := by
    rw [take_one_eq some_byte]
    exact before.define below follows.next_ge _
  exact {
    follows with
    next := by
      rw [follows.next, Strings.next, Strings.next, List.length_append]
      rfl
    room := room
    entries := by
      intro c v entry
      unfold Strings.entry at entry
      dsimp only at entry
      split at entry
      · cases entry
        exact .byte ‹_›
      · split at entry
        · cases entry
        · rename_i high late
          have place : s.next = t.first + t.table.length := follows.next
          have late : t.first ≤ c := Nat.not_lt.mp late
          have entry : (t.table ++ [w ++ out.take 1])[c - t.first]? = some v :=
            entry
          rcases Nat.lt_trichotomy c s.next with old | new | past
          · rw [List.getElem?_append_left (by omega)] at entry
            apply Spells.update _ old
            apply follows.entries
            rw [Strings.entry, if_neg high, if_neg (Nat.not_lt.mpr late)]
            exact entry
          · subst new
            have last : s.next - t.first = t.table.length := by omega
            rw [last, List.getElem?_concat_length] at entry
            cases entry
            exact defined
          · rw [List.getElem?_eq_none_iff.mpr] at entry
            · cases entry
            · rw [List.length_append, List.length_singleton]
              omega
    cleared := by
      intro mode
      have free : firstFree ≤ s.next := by
        rw [follows.next, Strings.next, Strings.first, if_pos mode]
        exact Nat.le_add_right _ _
      have other : clearCode ≠ s.next := Nat.ne_of_lt free
      exact (Function.update_of_ne other _ _).trans (follows.cleared mode)
    prev := by
      apply Option.Rel.some
      rcases expanded with ⟨old, spells⟩ | ⟨rfl, rfl⟩
      · exact ⟨Nat.lt_succ_of_lt old, spells.update old _ _⟩
      · have same : (w ++ w.take 1).take 1 = w.take 1 := by
          rw [take_one_eq before.ne_nil, take_one_eq (by simp),
            List.head?_append_of_ne_nil w before.ne_nil]
        have last := defined
        rw [same] at last
        exact ⟨Nat.lt_succ_self _, last⟩ }

theorem Expanded.ne_nil {before out : Bytes} {code : Nat}
    (expanded : Expanded s before code out) (some_byte : before ≠ []) :
    out ≠ [] := by
  rcases expanded with ⟨_, spells⟩ | ⟨_, rfl⟩
  · exact spells.ne_nil
  · exact List.append_ne_nil_of_left_ne_nil some_byte _

theorem prev_none (follows : s.Follows t) (none_before : t.prev = none) :
    s.prev = none := by
  have related := follows.prev
  rw [none_before] at related
  rcases before : s.prev with _ | p
  · rfl
  · rw [before] at related
    cases related

theorem prev_some (follows : s.Follows t) {w : Bytes}
    (before : t.prev = some w) :
    ∃ p, s.prev = some p ∧ p < s.next ∧ Spells s.prefixOf s.suffix p w := by
  have related := follows.prev
  rw [before] at related
  rcases own : s.prev with _ | p
  · rw [own] at related
    cases related
  · rw [own] at related
    cases related with
    | some related => exact ⟨p, rfl, related⟩

theorem define_extending (follows : s.Follows t) {code : Nat}
    {w out : Bytes} (inside : code < s.tableCap) (prev : t.prev = some w)
    (expanded : Expanded s w code out) :
    (s.define code out).Follows (t.define out) := by
  obtain ⟨p, before, below, spells⟩ := follows.prev_some prev
  have cap : s.tableCap = 2 ^ t.maxWidth := by
    rw [Lzw.tableCap, follows.maxWidth]
  rw [Lzw.define, Strings.define, before, prev]
  dsimp only
  rw [← follows.next, ← cap]
  by_cases room : s.next < s.tableCap
  · rw [if_pos room, if_pos room]
    exact follows.define_next room (expanded.ne_nil spells.ne_nil) spells
      below expanded
  · rw [if_neg room, if_neg room]
    rcases expanded with ⟨old, spells'⟩ | ⟨new, _⟩
    · exact follows.define_full spells' old
    · omega

theorem define_starting (follows : s.Follows t) {code : Nat} {out : Bytes}
    (prev : t.prev = none) (below : code < s.next)
    (spells : Spells s.prefixOf s.suffix code out) :
    (s.define code out).Follows (t.define out) := by
  rw [Lzw.define, Strings.define, follows.prev_none prev, prev]
  exact follows.define_full spells below

/-! ### Steps -/

theorem agree_code (follows : s.Follows t) {code : Nat}
    (small : code < s.tableCap) (kept : ¬ (t.blockMode ∧ code = clearCode))
    (calm : t.prev.isSome → code ≤ t.next) :
    (s.expand code = none ∧ t.expand code = none) ∨
      ∃ out, s.expand code = some out ∧ t.expand code = some out ∧
        (s.define code out).Follows (t.define out) := by
  rcases Nat.lt_or_ge code s.next with below | above
  · obtain ⟨w, spells, own, table⟩ := follows.expand_below below kept
    refine .inr ⟨w, own, table, ?_⟩
    cases prev : t.prev with
    | none => exact follows.define_starting prev below spells
    | some v =>
        exact follows.define_extending small prev (.inl ⟨below, spells⟩)
  · cases prev : t.prev with
    | none =>
        refine .inl ⟨expand_first above (follows.prev_none prev), ?_⟩
        rw [Strings.expand, prev]
        split
        · rfl
        · rename_i other
          have past : t.first + t.table.length < code := by
            have place : t.first + t.table.length ≤ code := by
              rw [← Strings.next, ← follows.next]
              exact above
            exact Nat.lt_of_le_of_ne place (Ne.symm other)
          have high := follows.next_ge
          rw [Strings.entry, if_neg (by omega), if_neg (by omega),
            List.getElem?_eq_none_iff]
          omega
    | some w =>
        obtain ⟨p, own, below, spells⟩ := follows.prev_some prev
        have here : code = s.next := by
          apply Nat.le_antisymm _ above
          rw [follows.next]
          exact calm (prev ▸ rfl)
        refine .inr ⟨_, follows.expand_above above own spells below, ?_, ?_⟩
        · rw [Strings.expand, if_pos (here.trans follows.next), prev]
          rfl
        · exact follows.define_extending small prev (.inr ⟨here, rfl⟩)

theorem agree (follows : s.Follows t) (calm : ¬ t.Jumps) :
    Agree Lzw.Follows s.step t.step := by
  obtain ⟨same, after⟩ := follows.nextCode
  rcases own : s.nextCode with ⟨_ | code, s'⟩ <;>
    rcases table : t.nextCode with ⟨_ | code', t'⟩ <;>
    rw [own, table] at same after <;> cases same
  · rw [Lzw.step, Strings.step, own, table]
    trivial
  · obtain ⟨kept, small⟩ := Strings.codeFrom_some table
    have low : t'.prev.isSome → code ≤ t'.next := by
      intro prev
      by_contra above
      exact calm ⟨code, t', table, prev, Nat.not_le.mp above⟩
    rw [Lzw.step, Strings.step, own, table]
    dsimp only
    rcases after.agree_code (after.lt_tableCap small) kept low with
      ⟨none', none''⟩ | ⟨out, some', some'', next⟩
    · rw [none', none'']
      rfl
    · rw [some', some'']
      exact ⟨rfl, next⟩

theorem emits_of_jumps (follows : s.Follows t) (jumps : t.Jumps) :
    ∃ out after, s.step = (.emitted out, after) ∧ out ≠ [] := by
  obtain ⟨code, t', table, prev, above⟩ := jumps
  obtain ⟨same, after⟩ := follows.nextCode
  obtain ⟨w, prev⟩ := Option.isSome_iff_exists.mp prev
  rcases own : s.nextCode with ⟨_ | code', s'⟩ <;>
    rw [own, table] at same after <;> cases same
  obtain ⟨p, before, below, spells⟩ := after.prev_some prev
  have late : s'.next ≤ code := by
    rw [after.next]
    exact Nat.le_of_lt above
  refine ⟨w ++ w.take 1, s'.define code (w ++ w.take 1), ?_, ?_⟩
  · rw [Lzw.step, own]
    dsimp only
    rw [after.expand_above late before spells below]
  · exact List.append_ne_nil_of_left_ne_nil spells.ne_nil _

end Lzw.Follows

/-! ## Opening a file -/

theorem Lzw.new_isSome (data : Bytes) :
    (Lzw.new data).isSome = (Strings.new data).isSome := by
  unfold Lzw.new Strings.new
  split
  · rfl
  · dsimp only
    split <;> rfl

theorem Lzw.new_follows {data : Bytes} {s : Lzw} {t : Strings}
    (opened : Lzw.new data = some s) (table : Strings.new data = some t) :
    s.Follows t := by
  unfold Lzw.new at opened
  unfold Strings.new at table
  split at opened
  · cases opened
  · rename_i long
    rw [if_neg long] at table
    dsimp only at opened table
    split at opened
    · cases opened
    · rename_i widths
      rw [if_neg widths] at table
      cases opened
      cases table
      have wide : initWidth ≤ (byteAt data 2).toNat % 32 :=
        Nat.not_lt.mp fun narrow => widths (.inl narrow)
      exact {
        input := rfl
        bits := rfl
        maxWidth := rfl
        wide := wide
        blockMode := rfl
        cursor := Segment.cursor_first.symm
        some_width := Nat.succ_pos 8
        width_le := wide
        next := by
          unfold Strings.next Strings.first
          rw [List.length_nil, Nat.add_zero]
        room := by
          have cap : 2 ^ initWidth ≤ 2 ^ ((byteAt data 2).toNat % 32) :=
            Nat.pow_le_pow_right (by decide) wide
          apply Nat.le_trans _ cap
          dsimp only
          split <;> decide
        entries := by
          intro code w entry
          unfold Strings.entry at entry
          split at entry
          · cases entry
            exact .byte ‹_›
          · split at entry <;> cases entry
        cleared := fun _ => rfl
        prev := .none }

end Exav.Unpack
