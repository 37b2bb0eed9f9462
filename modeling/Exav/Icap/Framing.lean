import Exav.Icap.Chunked

/-!
# What the chunk framing says

Read as bytes alone, with no ceiling and no buffer, a chunked body is its data,
the way it ended and what follows it.  A decode that succeeds stands where the
framing says the body ends, unless it was abandoned, and it then stands before
that place.
-/

namespace Exav.Icap

open Exav.Stream

/-! ## Lines -/

/-- The first line with its newline, and what follows it. -/
def splitLine (bytes : Bytes) : Option (Bytes × Bytes) :=
  (splitOnce 10 bytes).map fun (before, after) => (before ++ [10], after)

theorem splitOnce_append {sep : UInt8} {body after : Bytes}
    (absent : sep ∉ body) :
    splitOnce sep (body ++ sep :: after) = some (body, after) := by
  have at_sep : (body ++ sep :: after).idxOf sep = body.length := by
    rw [List.idxOf_append_of_notMem absent]
    simp
  simp [splitOnce, at_sep]

theorem splitOnce_length {sep : UInt8} {bytes before after : Bytes}
    (split : splitOnce sep bytes = some (before, after)) :
    after.length < bytes.length := by
  simp only [splitOnce, Option.ite_none_right_eq_some, Option.some.injEq,
    Prod.mk.injEq] at split
  obtain ⟨inside, -, rfl⟩ := split
  simp
  omega

theorem splitLine_length {bytes line after : Bytes}
    (split : splitLine bytes = some (line, after)) :
    after.length < bytes.length := by
  simp only [splitLine, Option.map_eq_some_iff, Prod.mk.injEq] at split
  obtain ⟨⟨before, rest⟩, once, -, rfl⟩ := split
  exact splitOnce_length once

theorem readLine_some {max : Nat} {source left : Source UInt8} {line : Bytes}
    (read : readLine max source = .ok (some line, left)) :
    splitLine (rest source) = some (line, rest left) := by
  unfold readLine at read
  split at read
  case h_1 full after through =>
      simp only [Except.ok.injEq, Prod.mk.injEq, Option.some.injEq] at read
      obtain ⟨rfl, rfl⟩ := read
      obtain ⟨body, rfl, absent, whole⟩ := readThrough_found through
      simp [splitLine, whole, splitOnce_append absent]
  all_goals cases read

theorem readLine_none {max : Nat} {source left : Source UInt8}
    (read : readLine max source = .ok (none, left)) :
    rest source = [] ∧ rest left = [] := by
  unfold readLine at read
  split at read
  case h_2 after through =>
      simp only [Except.ok.injEq, Prod.mk.injEq, true_and] at read
      subst read
      obtain ⟨empty, -, nothing⟩ := readThrough_ended through
      exact ⟨by simpa using empty.symm, nothing⟩
  all_goals cases read

theorem bodyLine_ok {max : Nat} {source left : Source UInt8}
    {line : Option Bytes} (read : bodyLine max source = .ok (line, left)) :
    readLine max source = .ok (line, left) := by
  unfold bodyLine at read
  split at read
  case h_1 result success =>
      cases read
      exact success
  case h_2 => cases read

/-! ## The framing -/

/-- What follows the trailer section: its blank line, or the end. -/
def trailerEnd : (rounds : Nat) → Bytes → Option Bytes
  | 0, _ => none
  | rounds + 1, bytes =>
      if bytes = [] then some []
      else do
        let (line, bytes) ← splitLine bytes
        if trimEol line = [] then some bytes else trailerEnd rounds bytes

def chunksFrom : (rounds : Nat) → Bytes → Option (Bytes × BodyEnd × Bytes)
  | 0, _ => none
  | rounds + 1, bytes => do
      let (line, bytes) ← splitLine bytes
      let (sizeText, ext) := splitSize (trimEol line)
      let size ← (parseChunkSize sizeText).toOption
      if size = 0 then do
        let after ← trailerEnd (bytes.length + 1) bytes
        some ([], if hasIeof ext then .ieof else .eof, after)
      else if bytes.length < size then none
      else do
        let (eol, after) ← splitLine (bytes.drop size)
        if trimEol eol = [] then do
          let (data, ending, after) ← chunksFrom rounds after
          some (bytes.take size ++ data, ending, after)
        else none

/-- Every chunk takes a line of its own, so there are no more than bytes. -/
def chunked (bytes : Bytes) : Option (Bytes × BodyEnd × Bytes) :=
  chunksFrom (bytes.length + 1) bytes

theorem trailerEnd_length {rounds : Nat} {bytes after : Bytes}
    (ends : trailerEnd rounds bytes = some after) :
    after.length ≤ bytes.length := by
  induction rounds generalizing bytes with
  | zero => simp [trailerEnd] at ends
  | succ rounds ih =>
      by_cases empty : bytes = []
      · simp_all [trailerEnd]
      · simp only [trailerEnd, if_neg empty, Option.bind_eq_bind,
          Option.bind_eq_some_iff] at ends
        obtain ⟨⟨line, more⟩, split, ends⟩ := ends
        have shorter := splitLine_length split
        by_cases blank : trimEol line = []
        · simp only [blank, if_true, Option.some.injEq] at ends
          rw [← ends]
          exact shorter.le
        · simp only [blank, if_false] at ends
          have inner := ih ends
          omega

theorem trailerEnd_mono {rounds more : Nat} {bytes after : Bytes}
    (enough : rounds ≤ more) (ends : trailerEnd rounds bytes = some after) :
    trailerEnd more bytes = some after := by
  induction rounds generalizing more bytes with
  | zero => simp [trailerEnd] at ends
  | succ rounds ih =>
      obtain ⟨more, rfl⟩ := Nat.exists_eq_add_of_le' (by omega : 1 ≤ more)
      by_cases empty : bytes = []
      · simp_all [trailerEnd]
      · simp only [trailerEnd, if_neg empty, Option.bind_eq_bind,
          Option.bind_eq_some_iff] at ends ⊢
        obtain ⟨split, cut, ends⟩ := ends
        refine ⟨split, cut, ?_⟩
        by_cases blank : trimEol split.1 = []
        · simpa [blank] using ends
        · simp only [blank, if_false] at ends ⊢
          exact ih (by omega) ends

theorem trailerEnd_rounds {rounds : Nat} {bytes after : Bytes}
    (ends : trailerEnd rounds bytes = some after) :
    trailerEnd (bytes.length + 1) bytes = some after := by
  induction rounds generalizing bytes with
  | zero => simp [trailerEnd] at ends
  | succ rounds ih =>
      by_cases empty : bytes = []
      · simp_all [trailerEnd]
      · simp only [trailerEnd, if_neg empty, Option.bind_eq_bind,
          Option.bind_eq_some_iff] at ends ⊢
        obtain ⟨split, cut, ends⟩ := ends
        have shorter : split.2.length < bytes.length := splitLine_length cut
        refine ⟨split, cut, ?_⟩
        by_cases blank : trimEol split.1 = []
        · simpa [blank] using ends
        · simp only [blank, if_false] at ends ⊢
          exact trailerEnd_mono (by omega) (ih ends)

theorem readTrailer_end {lines : Nat} {source left : Source UInt8}
    (read : readTrailer lines source = .ok left) :
    trailerEnd ((rest source).length + 1) (rest source) =
      some (rest left) := by
  refine @trailerEnd_rounds lines _ _ ?_
  induction lines generalizing source with
  | zero => simp [readTrailer] at read
  | succ lines ih =>
      obtain ⟨⟨line, after⟩, lineRead, next⟩ := ok_of_bind read
      have lineRead := bodyLine_ok lineRead
      cases line with
      | none =>
          obtain ⟨empty, nothing⟩ := readLine_none lineRead
          cases next
          simp [trailerEnd, empty, nothing]
      | some line =>
          have split := readLine_some lineRead
          have some_left : rest source ≠ [] := by
            intro empty
            have shorter := splitLine_length split
            simp [empty] at shorter
          simp only [trailerEnd, if_neg some_left, split, Option.bind_eq_bind,
            Option.bind_some]
          by_cases blank : trimEol line = []
          · simp only [blank, if_true, Except.ok.injEq] at next
            simp [blank, next]
          · simp only [blank, if_false] at next ⊢
            exact ih next

/-! ## One chunk -/

namespace Body

variable {spill : Spill}

theorem payload_writeFile {body after : Body spill.threshold}
    {file bytes : Bytes} {inFile : body.spill = some file}
    (written : body.writeFile spill file bytes inFile = .done after) :
    after.payload = file ++ bytes := by
  unfold writeFile at written
  split at written
  · cases written
  · cases written
    rfl

theorem payload_write {body after : Body spill.threshold} {bytes : Bytes}
    (written : body.write spill bytes = .done after) :
    after.payload = body.payload ++ bytes := by
  unfold write at written
  split at written
  case h_1 file inFile =>
      rw [payload_writeFile written]
      simp [payload, inFile]
  case h_2 inRam =>
      dsimp only at written
      split at written
      · cases written
        simp [payload, keep, inRam]
      · split at written
        · cases written
        · split at written
          · cases written
          · rw [payload_writeFile written]
            simp [payload, keep, inRam]

end Body

section

variable {spill : Spill}

theorem keepBytes_spec {rounds keep : Nat} {out : Body spill.threshold}
    {source : Source UInt8} {kept : Kept spill.threshold}
    (enough : keep ≤ rounds)
    (copied : keepBytes spill rounds keep out source = .ok kept) :
    match kept with
    | .all out' left =>
        ∃ data, data.length = keep ∧ rest source = data ++ rest left ∧
          out'.payload = out.payload ++ data
    | .refused _ _ unread left =>
        ∃ got, got.length + unread = keep ∧ rest source = got ++ rest left := by
  induction rounds generalizing keep out source with
  | zero =>
      have none_kept : keep = 0 := by omega
      simp only [keepBytes, Except.ok.injEq] at copied
      subst copied
      exact ⟨[], by simp [none_kept], by simp, by simp⟩
  | succ rounds ih =>
      by_cases none_kept : keep = 0
      · simp only [keepBytes, none_kept, if_true, Except.ok.injEq] at copied
        subst copied
        exact ⟨[], by simp [none_kept], by simp, by simp⟩
      · simp only [keepBytes, none_kept, if_false] at copied
        split at copied
        · cases copied
        · cases copied
        · rename_i got after notEmpty read
          have split := readSome_rest read
          have bound := length_readSome read
          have some_got : 0 < got.length := by
            rw [List.length_pos_iff]
            exact notEmpty
          split at copied
          · rename_i out' written
            have inner := ih (by omega) copied
            cases kept with
            | all out'' left =>
                obtain ⟨data, length, within, held⟩ := inner
                refine ⟨got ++ data, ?_, by simp [split, within], ?_⟩
                · simp
                  omega
                · rw [held, Body.payload_write written, List.append_assoc]
            | refused reason out'' unread left =>
                obtain ⟨data, length, within⟩ := inner
                refine ⟨got ++ data, ?_, by simp [split, within]⟩
                simp
                omega
          · cases copied
          · simp only [Except.ok.injEq] at copied
            subst copied
            exact ⟨got, by omega, split⟩

theorem closeChunk_spec {discard : Nat} {source left : Source UInt8}
    (closed : closeChunk discard source = .ok left) :
    ∃ data eol, data.length = discard ∧ trimEol eol = [] ∧
      ∃ more, rest source = data ++ more ∧
        splitLine more = some (eol, rest left) := by
  unfold closeChunk at closed
  split at closed
  · cases closed
  · rename_i got after read
    obtain ⟨split, bound, -⟩ := readFull_rest read
    split at closed
    · cases closed
    · obtain ⟨⟨eol, last⟩, lineRead, next⟩ := ok_of_bind closed
      have lineRead := bodyLine_ok lineRead
      cases eol with
      | none => cases next
      | some eol =>
          simp only at next
          split at next
          · cases next
            exact ⟨got, eol, by omega, by assumption, _, split,
              readLine_some lineRead⟩
          · cases next

/-- A chunk of `size` bytes, as the framing has it. -/
def Framed (size : Nat) (bytes data after : Bytes) : Prop :=
  data.length = size ∧ ∃ eol more, trimEol eol = [] ∧
    bytes = data ++ more ∧ splitLine more = some (eol, after)

def Adds (limit size : Nat) (data : Bytes)
    (now now' : Progress spill.threshold) : Prop :=
  now.rejected = none ∧
    now'.out.payload =
      now.out.payload ++ data.take (min (limit - now.out.len) size) ∧
    now'.overLimit = (now.overLimit || decide (limit - now.out.len < size))

theorem toKeep_le (limit size : Nat) (now : Progress spill.threshold) :
    toKeep limit size now ≤ size := by
  unfold toKeep
  split
  · exact Nat.zero_le _
  · exact Nat.min_le_right _ _

theorem toKeep_none {limit size : Nat} {now : Progress spill.threshold}
    (accepted : now.rejected = none) :
    toKeep limit size now = min (limit - now.out.len) size := by
  simp [toKeep, accepted]

theorem toKeep_some {limit size : Nat} {now : Progress spill.threshold}
    (refused : now.rejected ≠ none) : toKeep limit size now = 0 := by
  simp [toKeep, Option.isSome_iff_ne_none.mpr refused]

/-- What one chunk does.  Nothing is refused within the limit, what is refused
is over it, and a decode abandons a chunk before the chunk's end. -/
theorem readChunk_spec {limit drainLimit size : Nat}
    {now : Progress spill.threshold} {source : Source UInt8}
    {step : Step spill.threshold} (nonempty : 0 < size)
    (read : readChunk limit drainLimit spill size now source = .ok step) :
    match step with
    | .next now' left =>
        now'.total = saturatingAdd now.total size ∧
          ∃ data, Framed size (rest source) data (rest left) ∧
            (now'.rejected = none → Adds limit size data now now') ∧
            (now'.overLimit = false → now'.rejected = none)
    | .abandoned now' left =>
        now'.total = saturatingAdd now.total size ∧ now'.overLimit = true ∧
          ∃ got, got.length < size ∧ rest source = got ++ rest left ∧
            (now'.rejected = none → now.rejected = none ∧
              now'.out = now.out ∧ limit < now.out.len + size) := by
  unfold readChunk at read
  have keepLe := toKeep_le limit size now
  dsimp only at read
  split at read
  case isTrue fits =>
      obtain ⟨kept, copied, read⟩ := ok_of_bind read
      have spec := keepBytes_spec (Nat.le_refl _) copied
      cases kept with
      | all out left =>
          obtain ⟨data, length, within, held⟩ := spec
          obtain ⟨last, closed, done⟩ := ok_of_bind read
          cases done
          obtain ⟨dropped, eol, droppedLength, blank, more, split, line⟩ :=
            closeChunk_spec closed
          refine ⟨rfl, data ++ dropped, ⟨?_, eol, more, blank, ?_, line⟩, ?_,
            ?_⟩
          · rw [List.length_append, length, droppedLength]
            omega
          · rw [within, split, List.append_assoc]
          · intro accepted
            have accepted : now.rejected = none := accepted
            have keepEq := @toKeep_none spill limit size now accepted
            refine ⟨accepted, ?_, ?_⟩
            · show out.payload = _
              rw [held, ← keepEq, ← length, List.take_left']
              rfl
            · show (now.overLimit || decide (0 < size - _)) = _
              rw [keepEq]
              congr 1
              rw [decide_eq_decide]
              omega
          · intro under
            have under : (now.overLimit ||
                decide (0 < size - toKeep limit size now)) = false := under
            show now.rejected = none
            by_contra refused
            rw [toKeep_some refused] at under
            simp [nonempty] at under
      | refused reason out unread left =>
          obtain ⟨got, length, within⟩ := spec
          simp only at read
          split at read
          · obtain ⟨last, closed, done⟩ := ok_of_bind read
            cases done
            obtain ⟨dropped, eol, droppedLength, blank, more, split, line⟩ :=
              closeChunk_spec closed
            refine ⟨rfl, got ++ dropped, ⟨?_, eol, more, blank, ?_, line⟩, ?_,
              ?_⟩
            · rw [List.length_append, droppedLength]
              omega
            · rw [within, split, List.append_assoc]
            · intro accepted
              cases accepted
            · intro under
              cases under
          · rename_i refusedDrain
            cases read
            refine ⟨rfl, rfl, got, ?_, within, ?_⟩
            · have someUnread : unread ≠ 0 := by
                intro noneUnread
                simp [drains, noneUnread] at refusedDrain
              omega
            · intro accepted
              cases accepted
  case isFalse cut =>
      cases read
      have discarded : 0 < size - toKeep limit size now := by
        by_contra nothing
        apply cut
        simp [drains, Nat.eq_zero_of_not_pos nothing]
      refine ⟨rfl, ?_, [], nonempty, rfl, ?_⟩
      · simp [discarded]
      · intro accepted
        have accepted : now.rejected = none := accepted
        rw [toKeep_none accepted] at discarded
        exact ⟨accepted, rfl, by omega⟩

end

/-! ## A whole body -/

section

variable {rounds size : Nat} {bytes line more : Bytes}

theorem chunksFrom_chunk (split : splitLine bytes = some (line, more))
    (parsed : parseChunkSize (splitSize (trimEol line)).1 = .ok size)
    (nonempty : size ≠ 0) :
    chunksFrom (rounds + 1) bytes =
      if more.length < size then none
      else (splitLine (more.drop size)).bind fun (eol, after) =>
        if trimEol eol = [] then
          (chunksFrom rounds after).map fun (data, ending, after) =>
            (more.take size ++ data, ending, after)
        else none := by
  simp [Option.map_eq_bind, chunksFrom, split, parsed, Except.toOption, nonempty]

theorem chunksFrom_last (split : splitLine bytes = some (line, more))
    (parsed : parseChunkSize (splitSize (trimEol line)).1 = .ok 0) :
    chunksFrom (rounds + 1) bytes =
      (trailerEnd (more.length + 1) more).map fun after =>
        ([], if hasIeof (splitSize (trimEol line)).2 then .ieof else .eof,
          after) := by
  simp [Option.map_eq_bind, chunksFrom, split, parsed, Except.toOption]

theorem chunksFrom_framed {data after : Bytes}
    (split : splitLine bytes = some (line, more))
    (parsed : parseChunkSize (splitSize (trimEol line)).1 = .ok size)
    (nonempty : size ≠ 0) (framed : Framed size more data after) :
    chunksFrom (rounds + 1) bytes =
      (chunksFrom rounds after).map fun (data', ending, last) =>
        (data ++ data', ending, last) := by
  obtain ⟨length, eol, tail, blank, rfl, eolLine⟩ := framed
  have enough : ¬ (data ++ tail).length < size := by
    simp
    omega
  rw [chunksFrom_chunk split parsed nonempty, if_neg enough, ← length,
    List.drop_left', List.take_left', eolLine]
  · simp only [Option.bind_some, blank, if_true]
  · rfl
  · rfl

theorem chunksFrom_past {data after : Bytes} {ending : BodyEnd}
    (split : splitLine bytes = some (line, more))
    (parsed : parseChunkSize (splitSize (trimEol line)).1 = .ok size)
    (nonempty : size ≠ 0)
    (framed : chunksFrom (rounds + 1) bytes = some (data, ending, after))
    (shrinks : ∀ {bytes data ending after},
      chunksFrom rounds bytes = some (data, ending, after) →
        after.length ≤ bytes.length) :
    after.length + size < more.length ∧ size ≤ data.length := by
  rw [chunksFrom_chunk split parsed nonempty] at framed
  by_cases short : more.length < size
  · simp [short] at framed
  · simp only [if_neg short, Option.bind_eq_some_iff] at framed
    obtain ⟨⟨eol, next⟩, eolLine, framed⟩ := framed
    have shorter := splitLine_length eolLine
    by_cases blank : trimEol eol = []
    · simp only [blank, if_true, Option.map_eq_some_iff, Prod.mk.injEq]
        at framed
      obtain ⟨⟨data', ending', last⟩, inner, rfl, -, rfl⟩ := framed
      have bound := shrinks inner
      rw [List.length_drop] at shorter
      constructor
      · show last.length + size < more.length
        omega
      · show size ≤ (more.take size ++ data').length
        simp
        omega
    · simp [blank] at framed

end

theorem chunksFrom_length {rounds : Nat} {bytes data after : Bytes}
    {ending : BodyEnd}
    (framed : chunksFrom rounds bytes = some (data, ending, after)) :
    after.length < bytes.length := by
  induction rounds generalizing bytes data ending after with
  | zero => simp [chunksFrom] at framed
  | succ rounds ih =>
      have parts := framed
      simp only [chunksFrom, Option.bind_eq_bind, Option.bind_eq_some_iff]
        at parts
      obtain ⟨⟨line, more⟩, split, size, parsed, -⟩ := parts
      have shorter := splitLine_length split
      have parsed : parseChunkSize (splitSize (trimEol line)).1 = .ok size := by
        cases result : parseChunkSize (splitSize (trimEol line)).1 with
        | error e => simp [result, Except.toOption] at parsed
        | ok value => simpa [result, Except.toOption] using parsed
      by_cases nonempty : size = 0
      · subst nonempty
        rw [chunksFrom_last split parsed] at framed
        simp only [Option.map_eq_some_iff, Prod.mk.injEq] at framed
        obtain ⟨last, ends, -, -, rfl⟩ := framed
        have inner := trailerEnd_length ends
        omega
      · have past := chunksFrom_past split parsed nonempty framed
          (fun inner => (ih inner).le)
        omega

section

variable {spill : Spill}

/-- What a decode that succeeds has made of a body, told by the framing: it has
read the body to its end unless it was abandoned, it holds all of it unless it
went over its limit, and without a refusal it holds less of it where it did. -/
structure Decodes (now : Progress spill.threshold)
    (framed : Option (Bytes × BodyEnd × Bytes)) (outcome : BodyOutcome)
    (out : Body spill.threshold) (left : Bytes) : Prop where
  ended : outcome.abandoned = false →
    ∃ data, framed = some (data, outcome.ending, left)
  overran : outcome.abandoned = true → outcome.overLimit = true ∧
    ∀ data ending after, framed = some (data, ending, after) →
      after.length < left.length
  whole : outcome.overLimit = false →
    now.overLimit = false ∧ outcome.rejected = none ∧
      ∀ data ending after, framed = some (data, ending, after) →
        out.payload = now.out.payload ++ data
  atMost : outcome.rejected = none →
    ∀ data ending after, framed = some (data, ending, after) →
      out.payload.length ≤ now.out.payload.length + data.length
  short : outcome.rejected = none → outcome.overLimit = true →
    now.overLimit = true ∨
      ∀ data ending after, framed = some (data, ending, after) →
        out.payload.length < now.out.payload.length + data.length

theorem Decodes.complete {now : Progress spill.threshold}
    {framed : Option (Bytes × BodyEnd × Bytes)} {outcome : BodyOutcome}
    {out : Body spill.threshold} {left : Bytes}
    (decodes : Decodes now framed outcome out left)
    (within : outcome.overLimit = false) :
    ∃ data, framed = some (data, outcome.ending, left) ∧
      out.payload = now.out.payload ++ data ∧ outcome.rejected = none := by
  obtain ⟨-, accepted, held⟩ := decodes.whole within
  have reached : outcome.abandoned = false := by
    by_contra abandoned
    have overLimit := (decodes.overran (by simpa using abandoned)).1
    rw [within] at overLimit
    cases overLimit
  obtain ⟨data, found⟩ := decodes.ended reached
  exact ⟨data, found, held data _ _ found, accepted⟩

theorem Decodes.chunk {limit size : Nat} {now now' : Progress spill.threshold}
    {data : Bytes} {framed : Option (Bytes × BodyEnd × Bytes)}
    {outcome : BodyOutcome} {out : Body spill.threshold} {left : Bytes}
    (nonempty : 0 < size) (length : data.length = size)
    (adds : now'.rejected = none → Adds limit size data now now')
    (kept : outcome.rejected = none → now'.rejected = none)
    (under : now'.overLimit = false → now'.rejected = none)
    (decodes : Decodes now' framed outcome out left) :
    Decodes now (framed.map fun (data', ending, last) =>
      (data ++ data', ending, last)) outcome out left := by
  constructor
  · intro complete
    obtain ⟨data', found⟩ := decodes.ended complete
    exact ⟨data ++ data', by rw [found]; rfl⟩
  · intro abandoned
    obtain ⟨overLimit, before⟩ := decodes.overran abandoned
    refine ⟨overLimit, ?_⟩
    intro whole ending after found
    simp only [Option.map_eq_some_iff, Prod.mk.injEq] at found
    obtain ⟨⟨data', ending', last⟩, inner, -, -, rfl⟩ := found
    exact before data' ending' last inner
  · intro within
    obtain ⟨now'Under, accepted, held⟩ := decodes.whole within
    obtain ⟨-, payload, overLimit⟩ := adds (under now'Under)
    rw [overLimit, Bool.or_eq_false_iff, decide_eq_false_iff_not] at now'Under
    refine ⟨now'Under.1, accepted, ?_⟩
    intro whole ending after found
    simp only [Option.map_eq_some_iff, Prod.mk.injEq] at found
    obtain ⟨⟨data', ending', last⟩, inner, rfl, -, -⟩ := found
    have all : data.take (min (limit - now.out.len) size) = data := by
      apply List.take_of_length_le
      omega
    rw [held data' ending' last inner, payload, all, List.append_assoc]
  · intro accepted whole ending after found
    simp only [Option.map_eq_some_iff, Prod.mk.injEq] at found
    obtain ⟨⟨data', ending', last⟩, inner, rfl, -, -⟩ := found
    obtain ⟨-, payload, -⟩ := adds (kept accepted)
    have bound := decodes.atMost accepted data' ending' last inner
    rw [payload] at bound
    simp at bound ⊢
    omega
  · intro accepted overLimit
    obtain ⟨-, payload, over'⟩ := adds (kept accepted)
    by_cases already : now.overLimit = true
    · exact Or.inl already
    · right
      intro whole ending after found
      simp only [Option.map_eq_some_iff, Prod.mk.injEq] at found
      obtain ⟨⟨data', ending', last⟩, inner, rfl, -, -⟩ := found
      rcases decodes.short accepted overLimit with here | later
      · have bound := decodes.atMost accepted data' ending' last inner
        rw [payload] at bound
        rw [over', Bool.eq_false_iff.mpr already, Bool.false_or,
          decide_eq_true_eq] at here
        simp at bound ⊢
        omega
      · have bound := later data' ending' last inner
        rw [payload] at bound
        simp at bound ⊢
        omega

/-- A decode told by the framing, chunk after chunk. -/
theorem decodeFrom_decodes {limit drainLimit rounds : Nat}
    {now : Progress spill.threshold} {source left : Source UInt8}
    {outcome : BodyOutcome} {out : Body spill.threshold}
    (accepting : now.overLimit = false → now.rejected = none)
    (read : decodeFrom limit drainLimit spill rounds now source =
      .ok (outcome, out, left)) :
    Decodes now (chunksFrom rounds (rest source)) outcome out (rest left) ∧
      (outcome.rejected = none → now.rejected = none) := by
  induction rounds generalizing now source with
  | zero => simp [decodeFrom] at read
  | succ rounds ih =>
      unfold decodeFrom at read
      obtain ⟨⟨line, after⟩, lineRead, read⟩ := ok_of_bind read
      have lineRead := bodyLine_ok lineRead
      cases line with
      | none => cases read
      | some line =>
          have split := readLine_some lineRead
          obtain ⟨size, parsed, read⟩ := ok_of_bind read
          by_cases empty : size = 0
          · subst empty
            simp only [if_true] at read
            obtain ⟨last, trailer, done⟩ := ok_of_bind read
            simp only [Except.ok.injEq, Prod.mk.injEq] at done
            obtain ⟨rfl, rfl, rfl⟩ := done
            have ends := readTrailer_end trailer
            rw [chunksFrom_last split parsed, ends]
            refine ⟨⟨?_, ?_, ?_, ?_, ?_⟩, id⟩
            · intro _
              exact ⟨[], rfl⟩
            · intro abandoned
              cases abandoned
            · intro within
              refine ⟨within, accepting within, ?_⟩
              intro data ending after found
              cases found
              simp
            · intro _ data ending after found
              cases found
              simp
            · intro _ overLimit
              exact Or.inl overLimit
          · simp only [if_neg empty] at read
            obtain ⟨step, chunk, read⟩ := ok_of_bind read
            have spec := readChunk_spec (Nat.pos_of_ne_zero empty) chunk
            cases step with
            | next now' after' =>
                obtain ⟨total, data, framed, adds, under⟩ := spec
                obtain ⟨decodes, kept⟩ := ih under read
                rw [chunksFrom_framed split parsed empty framed]
                refine ⟨decodes.chunk (Nat.pos_of_ne_zero empty) framed.1 adds
                  kept under, ?_⟩
                intro accepted
                exact (adds (kept accepted)).1
            | abandoned now' after' =>
                obtain ⟨total, overLimit, got, before, within, accepted⟩ := spec
                simp only [Except.ok.injEq, Prod.mk.injEq] at read
                obtain ⟨rfl, rfl, rfl⟩ := read
                have past : ∀ data ending last,
                    chunksFrom (rounds + 1) (rest source) =
                      some (data, ending, last) →
                    last.length + size < (rest after).length ∧
                      size ≤ data.length := by
                  intro data ending last found
                  exact chunksFrom_past split parsed empty found
                    (fun inner => (chunksFrom_length inner).le)
                refine ⟨⟨?_, ?_, ?_, ?_, ?_⟩, fun none => (accepted none).1⟩
                · intro complete
                  cases complete
                · intro _
                  refine ⟨rfl, ?_⟩
                  intro data ending last found
                  have bound := (past data ending last found).1
                  rw [within, List.length_append] at bound
                  omega
                · intro within
                  cases within
                · intro notRefused data ending last found
                  obtain ⟨-, same, -⟩ := accepted notRefused
                  show now'.out.payload.length ≤ _
                  rw [same]
                  omega
                · intro notRefused _
                  obtain ⟨-, same, -⟩ := accepted notRefused
                  right
                  intro data ending last found
                  have bound := (past data ending last found).2
                  show now'.out.payload.length < _
                  rw [same]
                  omega

/-- A body's declared size, so far as it has been counted.  `base` bytes were
there before. -/
def Counted (limit base : Nat) (overLimit : Bool) (rejected : Option String)
    (total len : Nat) : Prop :=
  (overLimit = true → 0 < total) ∧
    (rejected = none →
      if overLimit then limit < base + total ∨ total = u64Max
      else len = base + total ∧ len ≤ limit)

theorem saturatingAdd_pos {a b : Nat} (positive : 0 < b) :
    0 < saturatingAdd a b := by
  have someBound : 0 < u64Max := by decide
  unfold saturatingAdd
  omega

theorem Counted.chunk {limit base size : Nat} {data : Bytes}
    {now now' : Progress spill.threshold} (bounded : limit ≤ u64Max)
    (counted : Counted limit base now.overLimit now.rejected now.total
      now.out.len)
    (nonempty : 0 < size) (length : data.length = size)
    (total : now'.total = saturatingAdd now.total size)
    (adds : now'.rejected = none → Adds limit size data now now') :
    Counted limit base now'.overLimit now'.rejected now'.total now'.out.len := by
  constructor
  · intro _
    rw [total]
    exact saturatingAdd_pos nonempty
  · intro notRefused
    obtain ⟨accepted, payload, overLimit⟩ := adds notRefused
    have before := counted.2 accepted
    have len : now'.out.len =
        now.out.len + min (limit - now.out.len) size := by
      rw [Body.len_eq, payload, List.length_append, ← Body.len_eq,
        List.length_take, length]
      omega
    rw [overLimit, total, len]
    unfold saturatingAdd
    cases already : now.overLimit with
    | true =>
        simp only [already, if_true] at before
        simp only [Bool.true_or, if_true]
        omega
    | false =>
        simp only [already, Bool.false_eq_true, if_false] at before
        by_cases fits : size ≤ limit - now.out.len
        · have under : decide (limit - now.out.len < size) = false := by
            simpa using fits
          simp only [under, Bool.or_self, Bool.false_eq_true, if_false]
          omega
        · have past : decide (limit - now.out.len < size) = true := by
            simpa using fits
          simp only [past, Bool.or_true, if_true]
          omega

theorem decodeFrom_counted {limit drainLimit rounds base : Nat}
    {now : Progress spill.threshold} {source left : Source UInt8}
    {outcome : BodyOutcome} {out : Body spill.threshold}
    (bounded : limit ≤ u64Max)
    (counted : Counted limit base now.overLimit now.rejected now.total
      now.out.len)
    (read : decodeFrom limit drainLimit spill rounds now source =
      .ok (outcome, out, left)) :
    Counted limit base outcome.overLimit outcome.rejected outcome.total
      out.len := by
  induction rounds generalizing now source with
  | zero => simp [decodeFrom] at read
  | succ rounds ih =>
      unfold decodeFrom at read
      obtain ⟨⟨line, after⟩, lineRead, read⟩ := ok_of_bind read
      cases line with
      | none => cases read
      | some line =>
          obtain ⟨size, parsed, read⟩ := ok_of_bind read
          by_cases empty : size = 0
          · simp only [empty, if_true] at read
            obtain ⟨last, trailer, done⟩ := ok_of_bind read
            simp only [Except.ok.injEq, Prod.mk.injEq] at done
            obtain ⟨rfl, rfl, rfl⟩ := done
            exact counted
          · simp only [if_neg empty] at read
            obtain ⟨step, chunk, read⟩ := ok_of_bind read
            have positive := Nat.pos_of_ne_zero empty
            have spec := readChunk_spec positive chunk
            cases step with
            | next now' after' =>
                obtain ⟨total, data, framed, adds, under⟩ := spec
                exact ih (counted.chunk bounded positive framed.1 total adds)
                  read
            | abandoned now' after' =>
                obtain ⟨total, overLimit, got, before, within, accepted⟩ :=
                  spec
                simp only [Except.ok.injEq, Prod.mk.injEq] at read
                obtain ⟨rfl, rfl, rfl⟩ := read
                constructor
                · intro _
                  rw [total]
                  exact saturatingAdd_pos positive
                · intro notRefused
                  obtain ⟨was, same, past⟩ := accepted notRefused
                  have known := counted.2 was
                  simp only [if_true]
                  rw [total]
                  unfold saturatingAdd
                  split at known <;> omega

variable {limit : Option Nat} {drainLimit : Nat}
  {body out : Body spill.threshold} {source left : Source UInt8}
  {outcome : BodyOutcome}

/-- Where a chunked body stands before its first chunk. -/
def Progress.start (body : Body spill.threshold) : Progress spill.threshold :=
  ⟨false, 0, none, 0, body⟩

theorem readChunkedBody_decodes
    (read : readChunkedBody limit drainLimit spill body source =
      .ok (outcome, out, left)) :
    Decodes (Progress.start body) (chunked (rest source)) outcome out
      (rest left) :=
  (@decodeFrom_decodes spill _ _ _ (Progress.start body) _ _ _ _
    (fun _ => rfl) read).1

theorem readChunkedBody_counted (bounded : limit.getD u64Max ≤ u64Max)
    (room : body.len ≤ limit.getD u64Max)
    (read : readChunkedBody limit drainLimit spill body source =
      .ok (outcome, out, left)) :
    Counted (limit.getD u64Max) body.len outcome.overLimit outcome.rejected
      outcome.total out.len := by
  apply decodeFrom_counted bounded _ read
  constructor
  · intro overLimit
    cases overLimit
  · intro _
    exact ⟨rfl, room⟩

end

end Exav.Icap
