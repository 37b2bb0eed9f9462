import Exav.Lib.Seam
import Exav.Yara.Matcher

/-!
# Matches in windows

What a pattern holds at is said of the whole object.  A search of a window
collects what holds at the positions it is searched for, and the windows of an
object cover each position once.
-/

namespace Exav.Yara

open Exav.Seam

/-! ## What is collected -/

namespace Collector

def pushAll (out : Collector) (ms : List Match) : Collector :=
  ms.foldl (fun out m => out.push m.offset m.len) out

theorem pushAll_append (out : Collector) (ms ms' : List Match) :
    out.pushAll (ms ++ ms') = (out.pushAll ms).pushAll ms' := by
  simp [pushAll]

theorem full_push {out : Collector} (m : Match) (full : out.full = true) :
    (out.push m.offset m.len).full = true := by
  unfold push
  split
  · exact full
  · rfl

theorem full_pushAll {out : Collector} (ms : List Match)
    (full : out.full = true) : (out.pushAll ms).full = true := by
  induction ms generalizing out with
  | nil => exact full
  | cons m ms ih => exact ih (full_push m full)

theorem out_pushAll {out : Collector} {ms : List Match}
    (kept : (out.pushAll ms).full = false) :
    (out.pushAll ms).out = out.out ++ ms := by
  induction ms generalizing out with
  | nil => simp [pushAll]
  | cons m ms ih =>
      have later : (((out.push m.offset m.len)).pushAll ms).full = false := kept
      have now : (out.push m.offset m.len).out = out.out ++ [m] := by
        unfold push
        split
        · rfl
        · rename_i past
          have full : (out.push m.offset m.len).full = true := by
            simp [push, past]
          rw [full_pushAll ms full] at later
          cases later
      have rest := ih later
      rw [now, List.append_assoc] at rest
      exact rest

end Collector

def Pushes (step : Collector → Collector) (adds : Match → Prop) : Prop :=
  ∃ ms, (∀ out, step out = out.pushAll ms) ∧ ∀ m, m ∈ ms ↔ adds m

namespace Pushes

variable {step step' : Collector → Collector} {adds adds' : Match → Prop}

theorem nothing : Pushes (fun out => out) (fun _ => False) :=
  ⟨[], fun _ => rfl, by simp⟩

theorem one (offset len : Nat) :
    Pushes (fun out => out.push offset len) (· = ⟨offset, len⟩) :=
  ⟨[⟨offset, len⟩], fun _ => rfl, by simp⟩

theorem congr (pushes : Pushes step adds) (same : ∀ m, adds m ↔ adds' m) :
    Pushes step adds' := by
  obtain ⟨ms, does, are⟩ := pushes
  exact ⟨ms, does, fun m => (are m).trans (same m)⟩

theorem comp (first : Pushes step adds) (second : Pushes step' adds') :
    Pushes (fun out => step' (step out)) (fun m => adds m ∨ adds' m) := by
  obtain ⟨ms, does, are⟩ := first
  obtain ⟨ms', does', are'⟩ := second
  refine ⟨ms ++ ms', ?_, ?_⟩
  · intro out
    dsimp only
    rw [does, does', Collector.pushAll_append]
  · intro m
    rw [List.mem_append, are, are']

theorem foldl {α : Type} {step : α → Collector → Collector}
    {adds : α → Match → Prop} {xs : List α}
    (pushes : ∀ x ∈ xs, Pushes (step x) (adds x)) :
    Pushes (fun out => xs.foldl (fun out x => step x out) out)
      (fun m => ∃ x ∈ xs, adds x m) := by
  induction xs with
  | nil => exact nothing.congr (by simp)
  | cons x xs ih =>
      have first := pushes x List.mem_cons_self
      have later := ih fun y member => pushes y (.tail _ member)
      exact (first.comp later).congr (by simp)

end Pushes

/-! ## What a pattern holds at -/

def Needle.Turned (n : Needle) (key : UInt8) (data : Bytes) (pos : Nat) :
    Prop :=
  ∀ i, ∀ p, n.bytes[i]? = some p → ∃ b, data[pos + i]? = some b ∧
    if n.nocase then fold b = fold (p ^^^ key) else b = p ^^^ key

def IsWordByte (key : UInt8) (b : Option UInt8) : Prop :=
  ∃ c, b = some c ∧ isWord (c ^^^ key) = true

/-- A match that no byte of a word stands before or after. -/
def WholeWord (wide : Bool) (key : UInt8) (data : Bytes) (pos len : Nat) :
    Prop :=
  if wide then
    ¬ (IsWordByte key (behind data pos 2) ∧ behind data pos 1 = some key) ∧
      ¬ (IsWordByte key data[pos + len]? ∧ data[pos + (len + 1)]? = some key)
  else
    ¬ IsWordByte key (behind data pos 1) ∧ ¬ IsWordByte key data[pos + len]?

/-- The keys a literal is searched under. -/
def HasKey (xor : Option (UInt8 × UInt8)) (key : UInt8) : Prop :=
  match xor with
  | none => key = 0
  | some (low, high) => low ≤ key ∧ key ≤ high

/-- A needle under one of the keys stands at `pos`, a whole word where that is
asked for. -/
def Needle.HoldsAt (n : Needle) (fullword : Bool) (xor : Option (UInt8 × UInt8))
    (data : Bytes) (pos len : Nat) : Prop :=
  n.bytes ≠ [] ∧ len = n.bytes.length ∧
    ∃ key, HasKey xor key ∧ n.Turned key data pos ∧
      (fullword = true → WholeWord n.wide key data pos n.bytes.length)

def Literal.HoldsAt (l : Literal) (data : Bytes) (pos len : Nat) : Prop :=
  ∃ n ∈ l.needles, n.HoldsAt l.fullword l.xor data pos len

/-- An encoding of the sub-pattern stands at `pos` and decodes to it. -/
def Base64Sub.HoldsAt (e : Base64Sub) (data : Bytes) (pos len : Nat) : Prop :=
  e.searched ≠ [] ∧ occursAt data e.searched pos = true ∧
    verifyBase64 e data pos = some len

def PatternMatcher.HoldsAt (p : PatternMatcher) (data : Bytes)
    (pos len : Nat) : Prop :=
  match p with
  | .literal l => l.HoldsAt data pos len
  | .base64 entries => ∃ e ∈ entries, e.HoldsAt data pos len

/-! ## The checks -/

theorem needleHit_iff {data : Bytes} {pos : Nat} {n : Needle} {key : UInt8}
    (nonempty : n.bytes ≠ []) :
    needleHit data pos n key = true ↔ n.Turned key data pos := by
  have positive := List.length_pos_iff.mpr nonempty
  unfold needleHit
  by_cases short : data.length < pos + n.bytes.length
  · rw [if_pos short]
    simp only [Bool.false_eq_true, false_iff]
    intro turned
    have last : n.bytes.length - 1 < n.bytes.length := by omega
    obtain ⟨b, there, -⟩ := turned _ _ (List.getElem?_eq_getElem last)
    rw [List.getElem?_eq_none (by omega)] at there
    cases there
  · rw [if_neg short, List.all_eq_true]
    constructor
    · intro agree i p at_i
      have inside : i < n.bytes.length := (List.getElem?_eq_some_iff.mp at_i).1
      have there : pos + i < data.length := by omega
      refine ⟨data[pos + i], List.getElem?_eq_getElem there, ?_⟩
      have member : (data[pos + i], p) ∈
          (window data pos n.bytes.length).zip n.bytes := by
        apply List.mem_of_getElem? (i := i)
        rw [List.getElem?_zip_eq_some]
        refine ⟨?_, at_i⟩
        rw [getElem?_window data inside]
        exact List.getElem?_eq_getElem there
      have same := agree _ member
      dsimp only at same
      split at same
      · rename_i folded
        rw [if_pos folded]
        exact beq_iff_eq.mp same
      · rename_i plain
        rw [if_neg plain]
        exact beq_iff_eq.mp same
    · intro turned pair member
      obtain ⟨i, at_i⟩ := List.mem_iff_getElem?.mp member
      obtain ⟨in_data, in_needle⟩ := List.getElem?_zip_eq_some.mp at_i
      have inside : i < n.bytes.length :=
        (List.getElem?_eq_some_iff.mp in_needle).1
      rw [getElem?_window data inside] at in_data
      obtain ⟨b, there, same⟩ := turned i pair.2 in_needle
      rw [there, Option.some.injEq] at in_data
      subst in_data
      dsimp only
      split
      · rename_i folded
        rw [if_pos folded] at same
        exact beq_iff_eq.mpr same
      · rename_i plain
        rw [if_neg plain] at same
        exact beq_iff_eq.mpr same

private theorem window_two (data : Bytes) (pos : Nat) :
    window data pos 2 = data[pos]?.toList ++ data[pos + 1]?.toList := by
  have first : data[pos]? = (data.drop pos)[0]? := by simp
  have second : data[pos + 1]? = (data.drop pos)[1]? := by simp
  rw [window, first, second]
  rcases data.drop pos with _ | ⟨a, _ | ⟨b, more⟩⟩ <;> rfl

private theorem window_before (data : Bytes) (pos : Nat) :
    window data (pos - 2) (pos - (pos - 2)) =
      (behind data pos 2).toList ++ (behind data pos 1).toList := by
  match pos with
  | 0 => simp [window, behind]
  | 1 => cases data <;> simp [window, behind]
  | pos + 2 =>
      have two : pos + 2 - (pos + 2 - 2) = 2 := by omega
      rw [two, window_two]
      simp [behind]

theorem verifyFullWord_iff {data : Bytes} {pos len : Nat} {wide : Bool}
    {key : UInt8} (inside : pos ≤ data.length) :
    verifyFullWord data pos (pos + len) wide key = true ↔
      WholeWord wide key data pos len := by
  have one_before : (behind data pos 1).isNone →
      (behind data pos 2).isNone := by
    unfold behind
    intro missing
    split
    · rw [if_pos (by omega), Option.isNone_iff_eq_none,
        List.getElem?_eq_none_iff] at missing
      omega
    · rfl
  have one_after : data[pos + len]?.isNone →
      data[pos + len + 1]?.isNone := by
    simp only [Option.isNone_iff_eq_none, List.getElem?_eq_none_iff]
    omega
  unfold verifyFullWord WholeWord IsWordByte
  rw [window_before, window_two]
  have place : pos + (len + 1) = pos + len + 1 := by omega
  rw [place]
  generalize behind data pos 1 = last at one_before
  generalize behind data pos 2 = before at one_before
  generalize data[pos + len]? = first at one_after
  generalize data[pos + len + 1]? = second at one_after
  have zero (b : UInt8) : b ^^^ key = 0 ↔ b = key := UInt8.xor_eq_zero_iff
  cases wide <;> cases last <;> cases before <;> cases first <;>
    cases second <;> simp_all [fullWordBetween, imp_iff_not_or, or_comm]

/-! ## The search of a window -/

namespace Pushes

variable {step : Collector → Collector} {adds : Match → Prop}

theorem when (condition : Bool) (pushes : Pushes step adds) :
    Pushes (fun out => if condition then step out else out)
      (fun m => condition = true ∧ adds m) := by
  cases condition with
  | true => exact pushes.congr (by simp)
  | false => exact nothing.congr (by simp)

theorem over_positions {step : Nat → Collector → Collector}
    {adds : Nat → Match → Prop} {start stop : Nat}
    (pushes : ∀ pos, start ≤ pos → pos < stop → Pushes (step pos) (adds pos)) :
    Pushes
      (fun out => (positions start stop).foldl (fun out pos => step pos out) out)
      (fun m => ∃ pos, start ≤ pos ∧ pos < stop ∧ adds pos m) := by
  have member (pos : Nat) :
      pos ∈ positions start stop ↔ start ≤ pos ∧ pos < stop := by
    rw [positions, List.mem_range'_1]
    omega
  apply congr (foldl fun pos inside => pushes pos ((member pos).mp inside).1
    ((member pos).mp inside).2)
  intro m
  simp only [member, and_assoc]

end Pushes

section

variable {data : Bytes} {n : Needle} {fullword : Bool} {origin start stop : Nat}

theorem pushes_record {key : UInt8} {pos : Nat} (inside : pos ≤ data.length) :
    Pushes (record data origin fullword n key pos)
      (fun m => (fullword = true →
          WholeWord n.wide key data pos n.bytes.length) ∧
        m = ⟨origin + pos, n.bytes.length⟩) := by
  have pushes := (Pushes.one (origin + pos) n.bytes.length).when
    (!fullword || verifyFullWord data pos (pos + n.bytes.length) n.wide key)
  apply pushes.congr
  intro m
  rw [Bool.or_eq_true, verifyFullWord_iff inside, Bool.not_eq_true',
    ← Bool.not_eq_true, imp_iff_not_or]

theorem Needle.Turned.fits {key : UInt8} {pos : Nat}
    (turned : n.Turned key data pos) (nonempty : n.bytes ≠ []) :
    pos + n.bytes.length ≤ data.length := by
  have positive := List.length_pos_iff.mpr nonempty
  have last : n.bytes.length - 1 < n.bytes.length := by omega
  obtain ⟨b, there, -⟩ := turned _ _ (List.getElem?_eq_getElem last)
  have inside := (List.getElem?_eq_some_iff.mp there).1
  omega

theorem turned_zero {pos : Nat} (plain : n.nocase = false) :
    n.Turned 0 data pos ↔ occursAt data n.bytes pos = true := by
  rw [occursAt_iff_getElem?]
  simp only [Needle.Turned, plain, Bool.false_eq_true, if_false, UInt8.xor_zero]
  constructor
  · intro turned i inside
    obtain ⟨b, there, rfl⟩ := turned i _ (List.getElem?_eq_getElem inside)
    rw [there, List.getElem?_eq_getElem inside]
  · intro occurs i p at_i
    have inside := (List.getElem?_eq_some_iff.mp at_i).1
    exact ⟨p, (occurs i inside).trans at_i, rfl⟩

/-- The needle's matches from `base` on. -/
theorem pushes_searchExact {rounds base : Nat} (plain : n.nocase = false)
    (nonempty : n.bytes ≠ []) (enough : data.length < base + rounds) :
    Pushes (searchExact data stop origin fullword n rounds base)
      (fun m => ∃ pos, base ≤ pos ∧ pos < stop ∧ n.Turned 0 data pos ∧
        (fullword = true → WholeWord n.wide 0 data pos n.bytes.length) ∧
        m = ⟨origin + pos, n.bytes.length⟩) := by
  induction rounds generalizing base with
  | zero =>
      apply Pushes.nothing.congr
      intro m
      simp only [false_iff, not_exists]
      intro pos held
      obtain ⟨above, -, turned, -⟩ := held
      have fits := turned.fits nonempty
      omega
  | succ rounds ih =>
      cases found : find data n.bytes base data.length with
      | none =>
          have step : searchExact data stop origin fullword n (rounds + 1) base =
              fun out => out := by
            funext out
            rw [searchExact, found]
          rw [step]
          apply Pushes.nothing.congr
          intro m
          simp only [false_iff, not_exists]
          intro pos held
          obtain ⟨above, -, turned, -⟩ := held
          have fits := turned.fits nonempty
          have absent := find_eq_none found pos above fits fits
          rw [(turned_zero plain).mp turned] at absent
          cases absent
      | some pos =>
          obtain ⟨above, fits, occurs, earlier⟩ := find_eq_some found
          have first (other : Nat) (other_above : base ≤ other)
              (turned : n.Turned 0 data other) : pos ≤ other := by
            by_contra before
            have absent := earlier other other_above (by omega)
            rw [(turned_zero plain).mp turned] at absent
            cases absent
          by_cases past : stop ≤ pos
          · have step : searchExact data stop origin fullword n (rounds + 1)
                base = fun out => out := by
              funext out
              rw [searchExact, found]
              exact if_pos past
            rw [step]
            apply Pushes.nothing.congr
            intro m
            simp only [false_iff, not_exists]
            intro other held
            obtain ⟨other_above, below, turned, -⟩ := held
            have bound := first other other_above turned
            omega
          · have step : searchExact data stop origin fullword n (rounds + 1)
                base = fun out =>
                  searchExact data stop origin fullword n rounds (pos + 1)
                    (record data origin fullword n 0 pos out) := by
              funext out
              rw [searchExact, found]
              exact if_neg past
            rw [step]
            have here := @pushes_record data n fullword origin 0 pos (by omega)
            apply (here.comp (ih (by omega))).congr
            intro m
            constructor
            · intro either
              rcases either with ⟨whole, same⟩ | ⟨other, other_above, rest⟩
              · exact ⟨pos, above, by omega, (turned_zero plain).mpr occurs,
                  whole, same⟩
              · exact ⟨other, by omega, rest⟩
            · intro held
              obtain ⟨other, other_above, below, turned, whole, same⟩ := held
              have bound := first other other_above turned
              rcases Nat.eq_or_lt_of_le bound with rfl | later
              · exact Or.inl ⟨whole, same⟩
              · exact Or.inr ⟨other, later, below, turned, whole, same⟩

theorem Needle.Turned.key_eq {key : UInt8} {pos : Nat}
    (turned : n.Turned key data pos) (plain : n.nocase = false)
    (nonempty : n.bytes ≠ []) : byteAt data pos ^^^ byteAt n.bytes 0 = key := by
  have positive := List.length_pos_iff.mpr nonempty
  obtain ⟨b, there, same⟩ := turned 0 _ (List.getElem?_eq_getElem positive)
  simp only [plain, Bool.false_eq_true, if_false] at same
  rw [byteAt_eq, byteAt_eq, ← Nat.add_zero pos, there,
    List.getElem?_eq_getElem positive, Option.getD_some, Option.getD_some, same,
    UInt8.xor_assoc, UInt8.xor_comm key, ← UInt8.xor_assoc, UInt8.xor_self,
    UInt8.zero_xor]

/-- The key a position is recorded under. -/
theorem find_candidates {low high : UInt8} {pos : Nat}
    (plain : n.nocase = false) (nonempty : n.bytes ≠ []) {key : UInt8} :
    (candidates data n low high pos).find? (needleHit data pos n) = some key ↔
      (low ≤ key ∧ key ≤ high) ∧ n.Turned key data pos := by
  have single : candidates data n low high pos =
      if byteAt data pos ^^^ byteAt n.bytes 0 < low ∨
        high < byteAt data pos ^^^ byteAt n.bytes 0 then []
      else [byteAt data pos ^^^ byteAt n.bytes 0] := by
    simp [candidates, plain]
  rw [single]
  constructor
  · intro found
    have hit := List.find?_some found
    have member := List.mem_of_find?_eq_some found
    refine ⟨?_, (needleHit_iff nonempty).mp hit⟩
    split at member
    · cases member
    · rename_i within
      rw [List.mem_singleton] at member
      subst member
      rw [not_or, UInt8.not_lt, UInt8.not_lt] at within
      exact within
  · intro held
    obtain ⟨within, turned⟩ := held
    have same := turned.key_eq plain nonempty
    have outside : ¬ (key < low ∨ high < key) := by
      rw [not_or, UInt8.not_lt, UInt8.not_lt]
      exact within
    rw [same, if_neg outside]
    simp [(needleHit_iff nonempty).mpr turned]

theorem searchNeedle_room (low high : UInt8)
    (room : ¬(n.bytes = [] ∨ data.length < n.bytes.length)) :
    searchNeedle data start stop origin fullword (some (low, high)) n =
      fun out =>
        (positions start (min stop (data.length - n.bytes.length + 1))).foldl
          (fun out pos =>
            match (candidates data n low high pos).find? (needleHit data pos n)
            with
            | some key => record data origin fullword n key pos out
            | none => out) out := by
  funext out
  exact if_neg room

theorem pushes_searchNeedle {xor : Option (UInt8 × UInt8)}
    (exact : xor.isSome → n.nocase = false) (within : stop ≤ data.length) :
    Pushes (searchNeedle data start stop origin fullword xor n)
      (fun m => ∃ pos, start ≤ pos ∧ pos < stop ∧
        n.HoldsAt fullword xor data pos m.len ∧ m.offset = origin + pos) := by
  by_cases room : n.bytes = [] ∨ data.length < n.bytes.length
  · have step : searchNeedle data start stop origin fullword xor n =
        fun out => out := by
      funext out
      exact if_pos room
    rw [step]
    apply Pushes.nothing.congr
    intro m
    simp only [false_iff, not_exists]
    intro pos held
    obtain ⟨-, -, ⟨nonempty, -, key, -, turned, -⟩, -⟩ := held
    have fits := turned.fits nonempty
    rcases room with empty | short
    · exact nonempty empty
    · omega
  · have nonempty : n.bytes ≠ [] := fun empty => room (Or.inl empty)
    have fits : n.bytes.length ≤ data.length := by omega
    -- The positions searched are all the needle has room at.
    have spread (m : Match) :
        (∃ pos, start ≤ pos ∧
            pos < min stop (data.length - n.bytes.length + 1) ∧ ∃ key,
            HasKey xor key ∧ n.Turned key data pos ∧
              (fullword = true →
                WholeWord n.wide key data pos n.bytes.length) ∧
              m = ⟨origin + pos, n.bytes.length⟩) ↔
          ∃ pos, start ≤ pos ∧ pos < stop ∧
            n.HoldsAt fullword xor data pos m.len ∧ m.offset = origin + pos := by
      constructor
      · intro held
        obtain ⟨pos, above, below, key, has, turned, whole, rfl⟩ := held
        exact ⟨pos, above, by omega, ⟨nonempty, rfl, key, has, turned, whole⟩,
          rfl⟩
      · intro held
        obtain ⟨pos, above, below, ⟨-, len, key, has, turned, whole⟩, offset⟩ :=
          held
        have room_for := turned.fits nonempty
        refine ⟨pos, above, by omega, key, has, turned, whole, ?_⟩
        rw [← len, ← offset]
    cases xor with
    | none =>
        by_cases folded : n.nocase = true
        · have step : searchNeedle data start stop origin fullword none n =
              fun out => (positions start
                (min stop (data.length - n.bytes.length + 1))).foldl
                (fun out pos => if needleHit data pos n 0 then
                  record data origin fullword n 0 pos out else out) out := by
            funext out
            simp only [searchNeedle, if_neg room, folded, if_true]
          rw [step]
          apply Pushes.congr _ spread
          apply (Pushes.over_positions fun pos _ below =>
            (pushes_record (by omega)).when (needleHit data pos n 0)).congr
          intro m
          simp only [HasKey, exists_eq_left, needleHit_iff nonempty]
        · have plain : n.nocase = false := by simpa using folded
          have step : searchNeedle data start stop origin fullword none n =
              searchExact data stop origin fullword n (data.length + 1)
                start := by
            funext out
            simp [searchNeedle, if_neg room, plain]
          rw [step]
          apply (pushes_searchExact plain nonempty (by omega)).congr
          intro m
          rw [← spread m]
          simp only [HasKey, exists_eq_left]
          constructor
          · intro held
            obtain ⟨pos, above, below, turned, rest⟩ := held
            have room_for := turned.fits nonempty
            exact ⟨pos, above, by omega, turned, rest⟩
          · intro held
            obtain ⟨pos, above, below, rest⟩ := held
            exact ⟨pos, above, by omega, rest⟩
    | some keys =>
        obtain ⟨low, high⟩ := keys
        have plain := exact rfl
        rw [searchNeedle_room low high room]
        apply Pushes.congr _ spread
        apply Pushes.over_positions
        intro pos above below
        cases found : (candidates data n low high pos).find?
            (needleHit data pos n) with
        | none =>
            apply Pushes.nothing.congr
            intro m
            simp only [false_iff, not_exists]
            intro key held
            obtain ⟨has, turned, -⟩ := held
            rw [(find_candidates plain nonempty).mpr ⟨has, turned⟩] at found
            cases found
        | some key =>
            obtain ⟨has, turned⟩ := (find_candidates plain nonempty).mp found
            apply (pushes_record (by omega)).congr
            intro m
            constructor
            · intro held
              exact ⟨key, has, turned, held⟩
            · intro held
              obtain ⟨other, other_has, other_turned, rest⟩ := held
              have same := (find_candidates plain nonempty).mpr
                ⟨other_has, other_turned⟩
              rw [found, Option.some.injEq] at same
              subst same
              exact rest

theorem searchBase64_room {e : Base64Sub}
    (room : ¬(e.searched = [] ∨ data.length < e.searched.length)) :
    searchBase64 data start stop origin e = fun out =>
      (positions start (min stop (data.length - e.searched.length + 1))).foldl
        (fun out pos =>
          if occursAt data e.searched pos then
            match verifyBase64 e data pos with
            | some len => out.push (origin + pos) len
            | none => out
          else out) out := by
  funext out
  exact if_neg room

theorem pushes_searchBase64 {e : Base64Sub} :
    Pushes (searchBase64 data start stop origin e)
      (fun m => ∃ pos, start ≤ pos ∧ pos < stop ∧ e.HoldsAt data pos m.len ∧
        m.offset = origin + pos) := by
  by_cases room : e.searched = [] ∨ data.length < e.searched.length
  · have step : searchBase64 data start stop origin e = fun out => out := by
      funext out
      exact if_pos room
    rw [step]
    apply Pushes.nothing.congr
    intro m
    simp only [false_iff, not_exists]
    intro pos held
    obtain ⟨-, -, ⟨nonempty, occurs, -⟩, -⟩ := held
    have fits := occursAt_fits occurs nonempty
    rcases room with empty | short
    · exact nonempty empty
    · omega
  · have nonempty : e.searched ≠ [] := fun empty => room (Or.inl empty)
    have one (pos : Nat) : Pushes
        (fun out => match verifyBase64 e data pos with
          | some len => out.push (origin + pos) len
          | none => out)
        (fun m => verifyBase64 e data pos = some m.len ∧
          m.offset = origin + pos) := by
      cases verified : verifyBase64 e data pos with
      | none => exact Pushes.nothing.congr (by simp)
      | some len =>
          apply (Pushes.one (origin + pos) len).congr
          intro m
          cases m
          simp [and_comm, eq_comm]
    rw [searchBase64_room room]
    apply (Pushes.over_positions fun pos _ _ =>
      (one pos).when (occursAt data e.searched pos)).congr
    intro m
    constructor
    · intro held
      obtain ⟨pos, above, below, occurs, verified, offset⟩ := held
      exact ⟨pos, above, by omega, ⟨nonempty, occurs, verified⟩, offset⟩
    · intro held
      obtain ⟨pos, above, below, ⟨-, occurs, verified⟩, offset⟩ := held
      have fits := occursAt_fits occurs nonempty
      exact ⟨pos, above, by omega, occurs, verified, offset⟩

theorem pushes_search {p : PatternMatcher} (within : stop ≤ data.length) :
    Pushes (p.search data start stop origin)
      (fun m => ∃ pos, start ≤ pos ∧ pos < stop ∧ p.HoldsAt data pos m.len ∧
        m.offset = origin + pos) := by
  cases p with
  | literal l =>
      apply (Pushes.foldl fun n member => pushes_searchNeedle
        (fun keyed => l.exact keyed n member) within).congr
      intro m
      constructor
      · intro held
        obtain ⟨n, member, pos, above, below, holds, offset⟩ := held
        exact ⟨pos, above, below, ⟨n, member, holds⟩, offset⟩
      · intro held
        obtain ⟨pos, above, below, ⟨n, member, holds⟩, offset⟩ := held
        exact ⟨n, member, pos, above, below, holds, offset⟩
  | base64 entries =>
      apply (Pushes.foldl fun e _ => pushes_searchBase64).congr
      intro m
      constructor
      · intro held
        obtain ⟨e, member, pos, above, below, holds, offset⟩ := held
        exact ⟨pos, above, below, ⟨e, member, holds⟩, offset⟩
      · intro held
        obtain ⟨pos, above, below, ⟨e, member, holds⟩, offset⟩ := held
        exact ⟨e, member, pos, above, below, holds, offset⟩

end

/-! ## What a match is checked against -/

theorem local_turned (n : Needle) (key : UInt8) {before after : Nat}
    (room : n.bytes.length ≤ after) :
    Local (fun data pos (_ : Nat) => n.Turned key data pos) before after := by
  apply Local.forall
  intro i
  apply Local.forall
  intro p
  apply Local.imp
  intro at_i
  have inside := (List.getElem?_eq_some_iff.mp at_i).1
  exact Local.item i (by omega) fun item _ => ∃ b, item = some b ∧
    if n.nocase then fold b = fold (p ^^^ key) else b = p ^^^ key

theorem local_wholeWord (wide : Bool) (key : UInt8) (len : Nat)
    {before after : Nat} (front : 2 ≤ before) (back : len + 2 ≤ after) :
    Local (fun data pos (_ : Nat) => WholeWord wide key data pos len)
      before after := by
  have word_before (k : Nat) (positive : 0 < k) (near : k ≤ 2) :
      Local (fun data pos (_ : Nat) => IsWordByte key (behind data pos k))
        before after :=
    Local.behind k positive (by omega) fun item _ => IsWordByte key item
  have word_after : Local (fun data pos (_ : Nat) =>
      IsWordByte key data[pos + len]?) before after :=
    Local.item len (by omega) fun item _ => IsWordByte key item
  cases wide with
  | true =>
      have zero_before : Local (fun data pos (_ : Nat) =>
          behind data pos 1 = some key) before after :=
        Local.behind 1 (by omega) (by omega) fun item _ => item = some key
      have zero_after : Local (fun data pos (_ : Nat) =>
          data[pos + (len + 1)]? = some key) before after :=
        Local.item (len + 1) (by omega) fun item _ => item = some key
      exact ((word_before 2 (by omega) (by omega)).and zero_before).not.and
        (word_after.and zero_after).not
  | false =>
      exact (word_before 1 (by omega) (by omega)).not.and word_after.not

theorem local_needle (n : Needle) (fullword : Bool)
    (xor : Option (UInt8 × UInt8)) {before after : Nat} (front : 2 ≤ before)
    (back : n.bytes.length + 2 ≤ after) :
    Local (n.HoldsAt fullword xor) before after := by
  apply (Local.const fun _ => n.bytes ≠ []).and
  apply (Local.const fun len => len = n.bytes.length).and
  apply Local.exists
  intro key
  apply (Local.const fun _ => HasKey xor key).and
  apply (local_turned n key (by omega)).and
  apply Local.imp
  intro _
  exact local_wholeWord n.wide key n.bytes.length front back

theorem base64Span_bound {padding len delta decodeLen matchLen : Nat}
    (span : base64Span padding len = some (delta, decodeLen, matchLen)) :
    delta ≤ 3 ∧ decodeLen ≤ len + 5 := by
  unfold base64Span at span
  split at span <;> simp only [Option.some.injEq, Prod.mk.injEq,
    reduceCtorEq] at span <;> omega

theorem local_verifyBase64 (e : Base64Sub) {before after : Nat}
    (front : 6 ≤ before)
    (back : 2 * (encodedLen e.pattern.length + 5) ≤ after) :
    Local (fun data pos len => verifyBase64 e data pos = some len)
      before after := by
  intro data low high pos len above below near far
  have same : verifyBase64 e (piece data low high) (pos - low) =
      verifyBase64 e data pos := by
    unfold verifyBase64
    by_cases empty : e.pattern = []
    · rw [if_pos empty, if_pos empty]
    rw [if_neg empty, if_neg empty]
    cases span : base64Span e.padding (encodedLen e.pattern.length) with
    | none => rfl
    | some spans =>
        obtain ⟨delta, decodeLen, matchLen⟩ := spans
        obtain ⟨close, short⟩ := base64Span_bound span
        dsimp only
        generalize scaled : (if e.wide = true then 2 else 1) = scale
        have double : scale ≤ 2 := by
          rw [← scaled]
          split <;> omega
        have reach : scale * delta ≤ 6 :=
          (Nat.mul_le_mul double close).trans (by omega)
        have length : scale * decodeLen ≤
            2 * (encodedLen e.pattern.length + 5) :=
          Nat.mul_le_mul double short
        by_cases early : pos < scale * delta
        · rw [if_pos early, if_pos (by omega)]
        · have place : pos - low - scale * delta = pos - scale * delta - low := by
            omega
          have slice : window (piece data low high) (pos - low - scale * delta)
              (scale * decodeLen) =
              window data (pos - scale * delta) (scale * decodeLen) := by
            rw [place]
            exact take_drop_piece data (by omega) (by omega)
          rw [if_neg early, if_neg (by omega), slice]
  dsimp only
  rw [same]

theorem local_occursAt (pat : Bytes) {before after : Nat}
    (back : pat.length ≤ after) :
    Local (fun data pos (_ : Nat) => occursAt data pat pos = true)
      before after := by
  have items : Local (fun data pos (_ : Nat) =>
      ∀ i, i < pat.length → data[pos + i]? = pat[i]?) before after := by
    apply Local.forall
    intro i
    apply Local.imp
    intro inside
    exact Local.item i (by omega) fun item _ => item = pat[i]?
  apply items.congr
  intro data pos _
  exact occursAt_iff_getElem?.symm

theorem le_foldl_max {xs : List Nat} {x start : Nat}
    (reached : x ≤ start ∨ x ∈ xs) : x ≤ xs.foldl max start := by
  induction xs generalizing start with
  | nil =>
      rcases reached with below | member
      · exact below
      · cases member
  | cons y ys ih =>
      apply ih
      rcases reached with below | member
      · exact Or.inl (below.trans (Nat.le_max_left start y))
      · rcases List.mem_cons.mp member with rfl | later
        · exact Or.inl (Nat.le_max_right start x)
        · exact Or.inr later

theorem local_holdsAt (p : PatternMatcher) {before after : Nat}
    (front : p.reach.1 ≤ before) (back : p.reach.2 ≤ after) :
    Local p.HoldsAt before after := by
  cases p with
  | literal l =>
      apply Local.exists
      intro n data low high pos len above below near far
      apply and_congr_right
      intro member
      have longest : n.bytes.length ≤
          (l.needles.map (·.bytes.length)).foldl max 0 :=
        le_foldl_max (Or.inr (List.mem_map_of_mem member))
      dsimp only [PatternMatcher.reach] at front back
      exact local_needle n l.fullword l.xor (by omega) (by omega) data low high
        pos len above below near far
  | base64 entries =>
      apply Local.exists
      intro e data low high pos len above below near far
      apply and_congr_right
      intro member
      have furthest : max e.searched.length
          (2 * (encodedLen e.pattern.length + 5)) ≤
            (entries.map fun e => max e.searched.length
              (2 * (encodedLen e.pattern.length + 5))).foldl max 0 :=
        le_foldl_max (Or.inr (List.mem_map.mpr ⟨e, member, rfl⟩))
      dsimp only [PatternMatcher.reach] at front back
      exact ((Local.const fun _ => e.searched ≠ []).and
        ((local_occursAt e.searched (by omega)).and
          (local_verifyBase64 e (by omega) (by omega)))) data low high pos len
        above below near far

theorem PatternMatcher.HoldsAt.inside {p : PatternMatcher} {data : Bytes}
    {pos len : Nat} (holds : p.HoldsAt data pos len) : pos < data.length := by
  cases p with
  | literal l =>
      obtain ⟨n, -, nonempty, -, key, -, turned, -⟩ := holds
      have fits := turned.fits nonempty
      have positive := List.length_pos_iff.mpr nonempty
      omega
  | base64 entries =>
      obtain ⟨e, -, nonempty, occurs, -⟩ := holds
      have fits := occursAt_fits occurs nonempty
      have positive := List.length_pos_iff.mpr nonempty
      omega

/-! ## The windows of an object -/

/-- Whether the window for the chunk at `base` can be read. -/
def Readable (chunk before after : Nat) (src : ByteSource) (base : Nat) :
    Prop :=
  let (low, high) := bounds chunk before after src.len base
  (src.window low (high - low)).length = high - low

theorem window_eq_piece {src : ByteSource} {low high : Nat}
    (within : high ≤ src.len)
    (whole : (src.window low (high - low)).length = high - low) :
    src.window low (high - low) = piece src.data low high := by
  apply (src.faithful low (high - low)).eq_of_length
  rw [whole, length_window]
  unfold ByteSource.len at within
  omega

/-- What a collector holds of the matches that start before `base`. -/
def Upto (p : PatternMatcher) (data : Bytes) (base : Nat) (out : Collector) :
    Prop :=
  ∀ m, m ∈ out.out ↔ p.HoldsAt data m.offset m.len ∧ m.offset < base

section

variable {p : PatternMatcher} {src : ByteSource} {chunk before after : Nat}
  {base : Nat} {out : Collector}

theorem upto_search {data : Bytes} {stop : Nat} (front : p.reach.1 ≤ before)
    (back : p.reach.2 ≤ after) (above : base ≤ stop)
    (within : stop ≤ data.length) (upto : Upto p data base out)
    (kept : (p.search
      (piece data (base - before) (min (stop + after) data.length))
      (base - (base - before)) (stop - (base - before)) (base - before)
      out).full = false) :
    Upto p data stop (p.search
      (piece data (base - before) (min (stop + after) data.length))
      (base - (base - before)) (stop - (base - before)) (base - before)
      out) := by
  obtain ⟨ms, does, are⟩ := @pushes_search
    (piece data (base - before) (min (stop + after) data.length))
    (base - before) (base - (base - before)) (stop - (base - before)) p
    (by rw [length_piece]; omega)
  rw [does] at kept ⊢
  intro m
  rw [Collector.out_pushAll kept, List.mem_append, upto m, are]
  have decided (inside : base ≤ m.offset) (below : m.offset < stop) :
      p.HoldsAt (piece data (base - before) (min (stop + after) data.length))
        (m.offset - (base - before)) m.len ↔ p.HoldsAt data m.offset m.len :=
    (local_holdsAt p front back).window data inside below within
  constructor
  · intro either
    rcases either with ⟨holds, below⟩ | ⟨pos, low, high, holds, offset⟩
    · exact ⟨holds, by omega⟩
    · have place : pos = m.offset - (base - before) := by omega
      subst place
      exact ⟨(decided (by omega) (by omega)).mp holds, by omega⟩
  · intro held
    obtain ⟨holds, below⟩ := held
    by_cases earlier : m.offset < base
    · exact Or.inl ⟨holds, earlier⟩
    · exact Or.inr ⟨m.offset - (base - before), by omega, by omega,
        (decided (by omega) below).mpr holds, by omega⟩

def Read (chunk before after : Nat) (p : PatternMatcher) (src : ByteSource)
    (ms : List Match) : Prop :=
  ∀ m, m ∈ ms ↔ p.HoldsAt src.data m.offset m.len ∧
    ∀ k, k * chunk ≤ m.offset → Readable chunk before after src (k * chunk)

/-- Whether every window can be read. -/
def AllReadable (chunk before after : Nat) (src : ByteSource) : Prop :=
  ∀ k, k * chunk < src.len → Readable chunk before after src (k * chunk)

/-- Where a search of the windows stands: all before the `k`-th were read. -/
structure At (chunk before after : Nat) (src : ByteSource) (k base : Nat) :
    Prop where
  place : base = min (k * chunk) src.len
  read : ∀ j < k, Readable chunk before after src (j * chunk)

theorem At.next {k : Nat} (here : At chunk before after src k base)
    (more : base < src.len) (read : Readable chunk before after src base) :
    At chunk before after src (k + 1) (min (base + chunk) src.len) := by
  have place := here.place
  refine ⟨?_, ?_⟩
  · rw [Nat.succ_mul]
    omega
  · intro j before_next
    rcases Nat.lt_succ_iff_lt_or_eq.mp before_next with earlier | rfl
    · exact here.read j earlier
    · have same : j * chunk = base := by omega
      rwa [same]

theorem At.all {k : Nat} (here : At chunk before after src k base)
    (finished : src.len ≤ base) :
    AllReadable chunk before after src := by
  intro j inside
  apply here.read
  have place := here.place
  by_contra later
  have bound : k * chunk ≤ j * chunk :=
    Nat.mul_le_mul_right chunk (Nat.le_of_not_lt later)
  omega

theorem At.read_all {k : Nat} (here : At chunk before after src k base)
    (finished : src.len ≤ base)
    (upto : Upto p src.data base out) :
    Read chunk before after p src out.out := by
  intro m
  rw [upto m]
  apply and_congr_right
  intro holds
  have inside : m.offset < src.len := holds.inside
  constructor
  · intro _ j below
    exact here.all finished j (by omega)
  · intro _
    omega

theorem At.read_short {k : Nat} (here : At chunk before after src k base)
    (more : base < src.len) (unread : ¬ Readable chunk before after src base)
    (upto : Upto p src.data base out) :
    Read chunk before after p src out.out ∧
      ¬ AllReadable chunk before after src := by
  have place := here.place
  have same : k * chunk = base := by omega
  constructor
  · intro m
    rw [upto m]
    apply and_congr_right
    intro holds
    constructor
    · intro below j at_most
      apply here.read
      by_contra later
      have bound : k * chunk ≤ j * chunk :=
        Nat.mul_le_mul_right chunk (Nat.le_of_not_lt later)
      omega
    · intro readable
      by_contra past
      apply unread
      rw [← same]
      exact readable k (by omega)
  · intro all
    apply unread
    rw [← same]
    exact all k (by omega)

/-! ## Through the windows -/

section

variable {pats : List PatternMatcher} {outs outs' : List Collector} {i : Nat}
  {complete : Bool} {out' : Collector}

theorem windowedFrom_full {rounds : Nat} (pat : pats[i]? = some p)
    (held : outs[i]? = some out) (full : out.full = true)
    (run : windowedFrom chunk before after pats src rounds base outs =
      (complete, outs')) : outs'[i]? = some out := by
  induction rounds generalizing base outs with
  | zero =>
      cases run
      exact held
  | succ rounds ih =>
      unfold windowedFrom at run
      split at run
      · dsimp only at run
        split at run
        · cases run
          exact held
        · apply ih _ run
          rw [List.getElem?_zipWith, pat, held]
          simp [full]
      · cases run
        exact held

/-- A search for several patterns, for one of them that is not full at the
end. -/
theorem windowedFrom_read {rounds k : Nat} (positive : 0 < chunk)
    (front : p.reach.1 ≤ before) (back : p.reach.2 ≤ after)
    (here : At chunk before after src k base)
    (enough : src.len ≤ base + rounds) (pat : pats[i]? = some p)
    (held : outs[i]? = some out) (upto : Upto p src.data base out)
    (run : windowedFrom chunk before after pats src rounds base outs =
      (complete, outs')) (held' : outs'[i]? = some out')
    (kept : out'.full = false) :
    Read chunk before after p src out'.out ∧
      (complete = true ↔ AllReadable chunk before after src) := by
  induction rounds generalizing k base outs out with
  | zero =>
      cases run
      rw [held, Option.some.injEq] at held'
      subst held'
      have finished : src.len ≤ base := by omega
      exact ⟨here.read_all finished upto, by simp [here.all finished]⟩
  | succ rounds ih =>
      have going : out.full = false := by
        by_contra full
        rw [Bool.not_eq_false] at full
        rw [windowedFrom_full pat held full run, Option.some.injEq] at held'
        subst held'
        exact Bool.false_ne_true (kept.symm.trans full)
      unfold windowedFrom at run
      by_cases more : base < src.len
      · have some_going : outs.any (!·.full) = true := by
          rw [List.any_eq_true]
          exact ⟨out, List.mem_of_getElem? held, by simp [going]⟩
        rw [if_pos ⟨more, some_going⟩] at run
        by_cases read : Readable chunk before after src base
        · have whole := window_eq_piece (Nat.min_le_right _ _) read
          have forward : base < min (base + chunk) src.len :=
            lt_min (by omega) more
          have bound : src.len ≤ min (base + chunk) src.len + rounds := by
            omega
          have next := here.next more read
          unfold Readable at read
          dsimp only [bounds] at run read whole
          rw [if_neg (by simp [read]), whole] at run
          have searched : (List.zipWith (fun p out =>
              if out.full = true then out
              else p.search (piece src.data (base - before)
                (min (min (base + chunk) src.len + after) src.len))
                (base - (base - before))
                (min (base + chunk) src.len - (base - before))
                (base - before) out) pats outs)[i]? =
              some (p.search (piece src.data (base - before)
                (min (min (base + chunk) src.len + after) src.len))
                (base - (base - before))
                (min (base + chunk) src.len - (base - before))
                (base - before) out) := by
            rw [List.getElem?_zipWith, pat, held]
            simp [going]
          apply ih next bound searched _ run
          apply upto_search front back forward.le
            (Nat.min_le_right (base + chunk) src.len) upto
          by_contra full
          rw [Bool.not_eq_false] at full
          have stuck := windowedFrom_full pat searched full run
          rw [held', Option.some.injEq] at stuck
          subst stuck
          exact Bool.false_ne_true (kept.symm.trans full)
        · have short := here.read_short more read upto
          unfold Readable at read
          dsimp only [bounds] at run read
          rw [if_pos read] at run
          cases run
          rw [held, Option.some.injEq] at held'
          subst held'
          exact ⟨short.1, by simp [short.2]⟩
      · rw [if_neg (by simp [more])] at run
        cases run
        rw [held, Option.some.injEq] at held'
        subst held'
        have finished : src.len ≤ base := by omega
        exact ⟨here.read_all finished upto, by simp [here.all finished]⟩

/-- A search for one pattern is a search for several that it alone is of. -/
theorem windowedFrom_one {rounds : Nat} :
    windowedFrom chunk p.reach.1 p.reach.2 [p] src rounds base [out] =
      ((sourceFrom chunk p src rounds base out).1,
        [(sourceFrom chunk p src rounds base out).2]) := by
  induction rounds generalizing base out with
  | zero => rfl
  | succ rounds ih =>
      unfold windowedFrom sourceFrom
      by_cases going : base < src.len ∧ !out.full
      · have any_going : base < src.len ∧ [out].any (!·.full) :=
          ⟨going.1, by simpa using going.2⟩
        rw [if_pos any_going, if_pos going]
        dsimp only
        split
        · rfl
        · rw [← ih, List.zipWith_cons_cons, List.zipWith_nil_left,
            if_neg (by simpa using going.2)]
      · have none_going : ¬(base < src.len ∧ [out].any (!·.full)) := by
          simpa using going
        rw [if_neg none_going, if_neg going]

/-- A search for one pattern that is not full at the end. -/
theorem sourceFrom_read {rounds k : Nat} (positive : 0 < chunk)
    (here : At chunk p.reach.1 p.reach.2 src k base)
    (enough : src.len ≤ base + rounds) (upto : Upto p src.data base out)
    (run : sourceFrom chunk p src rounds base out = (complete, out'))
    (kept : out'.full = false) :
    Read chunk p.reach.1 p.reach.2 p src out'.out ∧
      (complete = true ↔ AllReadable chunk p.reach.1 p.reach.2 src) := by
  have together : windowedFrom chunk p.reach.1 p.reach.2 [p] src rounds base
      [out] = (complete, [out']) := by
    rw [windowedFrom_one, run]
  exact windowedFrom_read (i := 0) positive (Nat.le_refl _) (Nat.le_refl _) here
    enough rfl rfl upto together rfl kept

end

end

/-! ## In order, each once -/

def Match.lt (a b : Match) : Prop :=
  a.offset < b.offset ∨ (a.offset = b.offset ∧ a.len < b.len)

theorem Match.le_iff {a b : Match} : Match.le a b = true ↔ a.lt b ∨ a = b := by
  cases a
  cases b
  simp only [Match.le, Match.lt, Bool.or_eq_true, Bool.and_eq_true,
    decide_eq_true_eq, beq_iff_eq, Match.mk.injEq]
  omega

theorem Match.le_trans {a b c : Match} (first : Match.le a b = true)
    (second : Match.le b c = true) : Match.le a c = true := by
  simp only [Match.le, Bool.or_eq_true, Bool.and_eq_true, decide_eq_true_eq,
    beq_iff_eq] at *
  omega

theorem Match.le_total (a b : Match) :
    (Match.le a b || Match.le b a) = true := by
  simp only [Match.le, Bool.or_eq_true, Bool.and_eq_true, decide_eq_true_eq,
    beq_iff_eq]
  omega

theorem Match.lt_of_lt_of_le {a b c : Match} (first : a.lt b)
    (second : Match.le b c = true) : a.lt c := by
  rw [Match.le_iff] at second
  rcases second with less | rfl
  · unfold Match.lt at *
    omega
  · exact first

theorem mem_dedup {ms : List Match} {m : Match} : m ∈ dedup ms ↔ m ∈ ms := by
  induction ms with
  | nil => rfl
  | cons a ms ih =>
      cases ms with
      | nil => rfl
      | cons b ms =>
          unfold dedup
          split
          · rename_i same
            rw [ih, same]
            simp
          · rw [List.mem_cons, ih, List.mem_cons (b := a)]

theorem dedup_increasing {ms : List Match}
    (ordered : ms.Pairwise fun a b => Match.le a b = true) :
    (dedup ms).Pairwise Match.lt := by
  induction ms with
  | nil => exact List.Pairwise.nil
  | cons a ms ih =>
      obtain ⟨least, later⟩ := List.pairwise_cons.mp ordered
      cases ms with
      | nil => exact List.pairwise_singleton _ _
      | cons b ms =>
          unfold dedup
          split
          · exact ih later
          · rename_i different
            apply List.Pairwise.cons _ (ih later)
            intro m member
            have first : a.lt b := by
              have below := least b List.mem_cons_self
              rw [Match.le_iff] at below
              exact below.resolve_right different
            rw [mem_dedup, List.mem_cons] at member
            rcases member with rfl | member
            · exact first
            · exact Match.lt_of_lt_of_le first
                ((List.pairwise_cons.mp later).1 m member)

theorem mem_finish {out : Collector} {complete : Bool} {m : Match} :
    m ∈ (out.finish complete).found ↔ m ∈ out.out := by
  rw [Collector.finish, mem_dedup, List.mem_mergeSort]

theorem finish_increasing (out : Collector) (complete : Bool) :
    (out.finish complete).found.Pairwise Match.lt := by
  apply dedup_increasing
  apply List.pairwise_mergeSort
  · intro a b c first second
    exact Match.le_trans first second
  · exact Match.le_total

/-! ## The search of an object -/

/-- What a search finds where the windows that `readable` says can be read: in
order and each once, what the pattern holds at in the whole object before the
first window that cannot. -/
structure Exact (chunk : Nat) (readable : Nat → Prop) (p : PatternMatcher)
    (data : Bytes) (found : Found) : Prop where
  increasing : found.found.Pairwise Match.lt
  read : ∀ m, m ∈ found.found ↔ p.HoldsAt data m.offset m.len ∧
    ∀ k, k * chunk ≤ m.offset → readable (k * chunk)
  complete : found.complete = true ↔
    ∀ k, k * chunk < data.length → readable (k * chunk)
  whole : found.complete = true →
    ∀ m, m ∈ found.found ↔ p.HoldsAt data m.offset m.len

theorem exact_finish {chunk : Nat} {readable : Nat → Prop} {p : PatternMatcher}
    {data : Bytes} {out : Collector} {complete : Bool}
    (kept : out.full = false)
    (read : ∀ m, m ∈ out.out ↔ p.HoldsAt data m.offset m.len ∧
      ∀ k, k * chunk ≤ m.offset → readable (k * chunk))
    (all : complete = true ↔
      ∀ k, k * chunk < data.length → readable (k * chunk)) :
    Exact chunk readable p data (out.finish complete) := by
  have finished : (out.finish complete).complete = complete := by
    simp [Collector.finish, kept]
  refine ⟨finish_increasing out complete, ?_, ?_, ?_⟩
  · intro m
    rw [mem_finish, read]
  · rw [finished, all]
  · intro done m
    rw [finished, all] at done
    rw [mem_finish, read]
    apply and_iff_left_of_imp
    intro holds k below
    exact done k (by have inside := holds.inside; omega)

def margins (pats : List PatternMatcher) : Nat × Nat :=
  (pats.map (·.reach)).foldl (fun (b, a) (pb, pa) => (max b pb, max a pa))
    (0, 0)

theorem le_margins {pats : List PatternMatcher} {p : PatternMatcher}
    (member : p ∈ pats) :
    p.reach.1 ≤ (margins pats).1 ∧ p.reach.2 ≤ (margins pats).2 := by
  have grows (reaches : List (Nat × Nat)) (start reach : Nat × Nat)
      (reached : (reach.1 ≤ start.1 ∧ reach.2 ≤ start.2) ∨ reach ∈ reaches) :
      reach.1 ≤ (reaches.foldl (fun (b, a) (pb, pa) =>
          (max b pb, max a pa)) start).1 ∧
        reach.2 ≤ (reaches.foldl (fun (b, a) (pb, pa) =>
          (max b pb, max a pa)) start).2 := by
    induction reaches generalizing start with
    | nil =>
        rcases reached with below | member
        · exact below
        · cases member
    | cons next reaches ih =>
        apply ih
        rcases reached with ⟨front, back⟩ | member
        · exact Or.inl ⟨front.trans (Nat.le_max_left _ _),
            back.trans (Nat.le_max_left _ _)⟩
        · rcases List.mem_cons.mp member with rfl | later
          · exact Or.inl ⟨Nat.le_max_right _ _, Nat.le_max_right _ _⟩
          · exact Or.inr later
  exact grows _ _ _ (Or.inr (List.mem_map_of_mem member))

/-- A search that no cap stops is exact: of an object in memory, of one read in
windows, and of one read in the windows of several patterns. -/
theorem search_exact {chunk : Nat} (positive : 0 < chunk) (p : PatternMatcher)
    (src : ByteSource) :
    (src.held = true → (collect chunk p src).2.full = false →
        Exact chunk (fun _ => True) p src.data (findAll chunk p src)) ∧
      (src.held = false → (collect chunk p src).2.full = false →
        Exact chunk (Readable chunk p.reach.1 p.reach.2 src) p src.data
          (findAll chunk p src)) ∧
      ∀ (pats : List PatternMatcher) (i : Nat) (out : Collector),
        pats[i]? = some p →
        (collectWindowed chunk pats src).2[i]? = some out →
        out.full = false →
        ∃ found, (findAllWindowed chunk pats src)[i]? = some found ∧
          Exact chunk
            (Readable chunk (margins pats).1 (margins pats).2 src) p src.data
            found := by
  have start : ∀ before after, At chunk before after src 0 0 := by
    intro before after
    exact ⟨by simp, fun j none_before => absurd none_before (Nat.not_lt_zero j)⟩
  have nothing : Upto p src.data 0 .new := by
    intro m
    simp [Collector.new]
  refine ⟨?_, ?_, ?_⟩
  · intro held kept
    have slice : src.asSlice = some src.data := by
      rw [ByteSource.asSlice, if_pos held]
    have collected : collect chunk p src =
        (true, p.search src.data 0 src.data.length 0 .new) := by
      rw [collect, slice]
    rw [findAll, collected]
    rw [collected] at kept
    obtain ⟨ms, does, are⟩ :=
      @pushes_search src.data 0 0 src.data.length p (Nat.le_refl _)
    dsimp only at kept ⊢
    apply exact_finish kept _ (by simp)
    intro m
    rw [does] at kept
    rw [does, Collector.out_pushAll kept, Collector.new, List.nil_append, are]
    constructor
    · intro found
      obtain ⟨pos, -, -, holds, offset⟩ := found
      rw [Nat.zero_add] at offset
      rw [offset]
      exact ⟨holds, fun _ _ => trivial⟩
    · intro found
      exact ⟨m.offset, Nat.zero_le _, found.1.inside, found.1, by simp⟩
  · intro held kept
    have slice : src.asSlice = none := by
      rw [ByteSource.asSlice, if_neg (by simp [held])]
    have collected : collect chunk p src =
        sourceFrom chunk p src src.len 0 .new := by
      rw [collect, slice]
    rw [findAll, collected]
    rw [collected] at kept
    obtain ⟨read, all⟩ := sourceFrom_read positive (start _ _)
      (Nat.zero_add src.len).ge nothing rfl kept
    exact exact_finish kept read all
  · intro pats i out pat held kept
    obtain ⟨front, back⟩ := le_margins (List.mem_of_getElem? pat)
    obtain ⟨read, all⟩ := windowedFrom_read positive front back (start _ _)
      (Nat.zero_add src.len).ge pat (by rw [List.getElem?_map, pat]; rfl)
      nothing rfl held kept
    refine ⟨out.finish (collectWindowed chunk pats src).1, ?_,
      exact_finish kept read all⟩
    rw [findAllWindowed, List.getElem?_map, held]
    rfl

/-- A literal of two bytes, compared exactly. -/
def pairLiteral (a b : UInt8) (xor : Option (UInt8 × UInt8)) (fullword : Bool) :
    PatternMatcher :=
  .literal
    { needles := [⟨[a, b], false, false⟩]
      xor := xor
      fullword := fullword
      exact := by
        intro _ n member
        rw [List.mem_singleton] at member
        rw [member] }

/-- An object that can be read everywhere. -/
def readableSource (data : Bytes) (held : Bool) : ByteSource where
  data := data
  window := window data
  held := held
  faithful := window_faithful data

def doubled : PatternMatcher := pairLiteral 97 97 none false

def keyed : PatternMatcher := pairLiteral 97 98 (some (0, 255)) true

def threeLetters : Bytes := [32, 97, 97, 97, 33]

theorem search_exact_doubled :
    Exact 2 (fun _ => True) doubled threeLetters
        (findAll 2 doubled (readableSource threeLetters true)) ∧
      Exact 2 (Readable 2 2 4 (readableSource threeLetters false)) doubled
        threeLetters (findAll 2 doubled (readableSource threeLetters false)) ∧
      ∃ found,
        (findAllWindowed 2 [keyed, doubled]
          (readableSource threeLetters false))[1]? = some found ∧
        Exact 2 (Readable 2 2 4 (readableSource threeLetters false)) doubled
          threeLetters found := by
  have positive : 0 < 2 := by decide
  have held := search_exact positive doubled (readableSource threeLetters true)
  have read := search_exact positive doubled
    (readableSource threeLetters false)
  exact ⟨held.1 rfl rfl, read.2.1 rfl rfl,
    read.2.2 [keyed, doubled] 1 _ rfl rfl rfl⟩

end Exav.Yara
