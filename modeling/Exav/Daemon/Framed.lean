import Exav.Daemon.Instream

/-!
# What a client sends

A payload is sent as non-empty chunks.  Wherever the adapter is read from and
however far, what is left to read is a part of the payload and the framing of
its rest; the drain stands behind the end of the stream unless as much as its
cap was left.
-/

namespace Exav.Daemon

open Exav.Stream Exav.Icap

/-! ## The framing -/

/-- A number below `2 ^ 32` in the big-endian order of its bytes. -/
def toBeBytes (n : Nat) : Bytes :=
  [UInt8.ofNat (n / 2 ^ 24), UInt8.ofNat (n / 2 ^ 16), UInt8.ofNat (n / 2 ^ 8),
    UInt8.ofNat n]

@[simp] theorem length_toBeBytes (n : Nat) : (toBeBytes n).length = 4 := rfl

theorem fromBeBytes_toBeBytes {n : Nat} (bound : n < 2 ^ 32) :
    fromBeBytes (toBeBytes n) = n := by
  simp only [fromBeBytes, toBeBytes, List.foldl_cons, List.foldl_nil,
    UInt8.toNat_ofNat']
  omega

/-- A chunk of a stream.  An empty one would end it. -/
structure Chunk where
  data : Bytes
  nonempty : data ≠ []
  bounded : data.length < 2 ^ 32

def Chunk.encode (chunk : Chunk) : Bytes :=
  toBeBytes chunk.data.length ++ chunk.data

def payloadOf (chunks : List Chunk) : Bytes :=
  chunks.flatMap Chunk.data

/-- The bytes a stream is sent as. -/
def frame (chunks : List Chunk) : Bytes :=
  chunks.flatMap Chunk.encode ++ toBeBytes 0

@[simp] theorem frame_nil : frame [] = toBeBytes 0 := rfl

@[simp] theorem frame_cons (chunk : Chunk) (chunks : List Chunk) :
    frame (chunk :: chunks) =
      toBeBytes chunk.data.length ++ (chunk.data ++ frame chunks) := by
  simp [frame, Chunk.encode]

/-! ## What is left of a stream -/

namespace Instream

/-- What an adapter has left: some of the payload, and what follows the
stream. -/
def Left (stream : Instream) (payload after : Bytes) : Prop :=
  stream.truncated = false ∧
    if stream.done then
      payload = [] ∧ rest stream.inner = after
    else
      ∃ current chunks, payload = current ++ payloadOf chunks ∧
        current.length = stream.remaining ∧
        rest stream.inner = current ++ (frame chunks ++ after)

theorem left_new {source : Source UInt8} {max : Option UInt64}
    {chunks : List Chunk} {after : Bytes}
    (sent : rest source = frame chunks ++ after) :
    (new source max).Left (payloadOf chunks) after :=
  ⟨rfl, [], chunks, rfl, rfl, sent⟩

variable {stream stream' : Instream} {payload after : Bytes}

theorem left_nextChunk (left : stream.Left payload after)
    (going : stream.done = false) (between : stream.remaining = 0)
    (next : stream.nextChunk = (true, stream')) :
    stream'.Left payload after ∧ stream'.total = stream.total ∧
      (stream'.done = false → stream'.remaining ≠ 0) ∧
      (rest stream'.inner).length < (rest stream.inner).length ∧
      (stream'.done = true ↔ payload = []) := by
  obtain ⟨whole, left⟩ := left
  simp only [going, Bool.false_eq_true, if_false] at left
  obtain ⟨current, chunks, rfl, length, sent⟩ := left
  have empty : current = [] := by
    rw [← List.length_eq_zero_iff]
    omega
  subst empty
  simp only [List.nil_append] at sent ⊢
  unfold nextChunk at next
  split at next
  · cases next
  · rename_i len inner read
    obtain ⟨split, bound, ended⟩ := readFull_rest read
    have four : len.length = 4 := by
      by_contra short
      have nothing := ended (by omega)
      have lengths := congrArg List.length (sent.symm.trans split)
      rw [nothing] at lengths
      cases chunks <;> simp at lengths <;> omega
    have notShort : ¬ len.length < 4 := by omega
    simp only [if_neg notShort, Prod.mk.injEq, true_and] at next
    subst next
    have shorter : (rest inner).length < (rest stream.inner).length := by
      rw [split, List.length_append]
      omega
    cases chunks with
    | nil =>
        rw [sent, frame_nil] at split
        obtain ⟨rfl, behind⟩ := List.append_inj split (by simp [four])
        refine ⟨⟨whole, ?_⟩, rfl, ?_, shorter, ?_⟩
        · simp [fromBeBytes, toBeBytes, payloadOf, behind]
        · simp [fromBeBytes, toBeBytes]
        · simp [fromBeBytes, toBeBytes, payloadOf]
    | cons chunk chunks =>
        rw [sent, frame_cons, List.append_assoc] at split
        obtain ⟨rfl, behind⟩ := List.append_inj split (by simp [four])
        have positive : chunk.data.length ≠ 0 := by
          simpa using chunk.nonempty
        refine ⟨⟨whole, ?_⟩, rfl, ?_, shorter, ?_⟩
        · simp only [fromBeBytes_toBeBytes chunk.bounded, beq_iff_eq, positive,
            if_false]
          refine ⟨chunk.data, chunks, rfl, rfl, ?_⟩
          rw [← behind, List.append_assoc]
        · simp [fromBeBytes_toBeBytes chunk.bounded, chunk.nonempty]
        · simp [fromBeBytes_toBeBytes chunk.bounded, payloadOf,
            chunk.nonempty]

theorem left_taken {inner : Source UInt8} {got : Bytes}
    (left : stream.Left payload after) (going : stream.done = false)
    (some_got : got.length ≤ stream.remaining)
    (split : rest stream.inner = got ++ rest inner)
    (same : stream'.inner = inner) (whole : stream'.truncated = false)
    (still : stream'.done = false)
    (fewer : stream'.remaining = stream.remaining - got.length) :
    ∃ payload', payload = got ++ payload' ∧ stream'.Left payload' after := by
  obtain ⟨-, left⟩ := left
  simp only [going, Bool.false_eq_true, if_false] at left
  obtain ⟨current, chunks, rfl, length, sent⟩ := left
  rw [sent] at split
  have cut : current = got ++ current.drop got.length := by
    have first := congrArg (List.take got.length) split
    rw [List.take_append_of_le_length (by omega), List.take_left'] at first
    · nth_rewrite 1 [← first]
      rw [List.take_append_drop]
    · rfl
  refine ⟨current.drop got.length ++ payloadOf chunks, ?_, whole, ?_⟩
  · rw [← List.append_assoc, ← cut]
  · simp only [still, Bool.false_eq_true, if_false]
    refine ⟨current.drop got.length, chunks, rfl, ?_, ?_⟩
    · rw [List.length_drop, fewer, length]
    · rw [same]
      have taken : got ++ (current.drop got.length ++ (frame chunks ++ after)) =
          got ++ rest inner := by
        rw [← split, ← List.append_assoc, ← cut]
      exact (List.append_cancel_left taken).symm

theorem Left.rest_ne_nil (left : stream.Left payload after)
    (going : stream.done = false) : rest stream.inner ≠ [] := by
  obtain ⟨-, left⟩ := left
  simp only [going, Bool.false_eq_true, if_false] at left
  obtain ⟨current, chunks, -, -, sent⟩ := left
  rw [sent]
  cases chunks <;> simp [toBeBytes]

/-! ## What is left of a stream that was cut -/

/-- An adapter whose stream stops before its terminator: it has said so, or
bytes are missing from what it has left. -/
def Broken (stream : Instream) : Prop :=
  if stream.done then stream.truncated = true
  else
    ∃ current chunks missing, current.length = stream.remaining ∧
      missing ≠ [] ∧ rest stream.inner ++ missing = current ++ frame chunks

theorem broken_new {source : Source UInt8} {max : Option UInt64}
    {chunks : List Chunk} (part : rest source <+: frame chunks)
    (proper : rest source ≠ frame chunks) : (new source max).Broken := by
  obtain ⟨missing, whole⟩ := part
  refine ⟨[], chunks, missing, rfl, ?_, whole⟩
  rintro rfl
  exact proper (by rw [← whole, List.append_nil])

theorem broken_cutOff {inner : Source UInt8} :
    ({ stream with inner := inner } : Instream).cutOff.Broken := by
  simp [Broken, cutOff]

theorem broken_nextChunk (broken : stream.Broken) (going : stream.done = false)
    (between : stream.remaining = 0)
    (next : stream.nextChunk = (true, stream')) : stream'.Broken := by
  simp only [Broken, going, Bool.false_eq_true, if_false] at broken
  obtain ⟨current, chunks, missing, length, lost, whole⟩ := broken
  have empty : current = [] := by
    rw [← List.length_eq_zero_iff]
    omega
  subst empty
  rw [List.nil_append] at whole
  unfold nextChunk at next
  split at next
  · cases next
  · rename_i len inner read
    obtain ⟨split, bound, -⟩ := readFull_rest read
    by_cases short : len.length < 4
    · simp only [if_pos short, Prod.mk.injEq, true_and] at next
      subst next
      exact broken_cutOff
    · have four : len.length = 4 := by omega
      simp only [if_neg short, Prod.mk.injEq, true_and] at next
      subst next
      rw [split, List.append_assoc] at whole
      cases chunks with
      | nil =>
          exfalso
          apply lost
          have lengths := congrArg List.length whole
          simp only [List.length_append, four, frame_nil,
            length_toBeBytes] at lengths
          rw [← List.length_eq_zero_iff]
          omega
      | cons chunk chunks =>
          rw [frame_cons] at whole
          obtain ⟨rfl, behind⟩ := List.append_inj whole (by simp [four])
          have positive : chunk.data.length ≠ 0 := by
            simpa using chunk.nonempty
          simp only [Broken, fromBeBytes_toBeBytes chunk.bounded, beq_iff_eq,
            positive, if_false]
          exact ⟨chunk.data, chunks, missing, rfl, lost, behind⟩

theorem broken_taken {inner : Source UInt8} {got : Bytes}
    (broken : stream.Broken) (going : stream.done = false)
    (some_got : got.length ≤ stream.remaining)
    (split : rest stream.inner = got ++ rest inner)
    (same : stream'.inner = inner) (still : stream'.done = false)
    (fewer : stream'.remaining = stream.remaining - got.length) :
    stream'.Broken := by
  simp only [Broken, going, Bool.false_eq_true, if_false] at broken
  obtain ⟨current, chunks, missing, length, lost, whole⟩ := broken
  rw [split, List.append_assoc] at whole
  have front : got = current.take got.length := by
    have first := congrArg (List.take got.length) whole
    rwa [List.take_left', List.take_append_of_le_length (by omega)] at first
    rfl
  have cut : current = got ++ current.drop got.length := by
    nth_rewrite 1 [← List.take_append_drop got.length current]
    rw [← front]
  simp only [Broken, still, Bool.false_eq_true, if_false]
  refine ⟨current.drop got.length, chunks, missing, ?_, lost, ?_⟩
  · rw [List.length_drop, fewer, length]
  · rw [cut, List.append_assoc] at whole
    rw [same]
    simpa using List.append_cancel_left whole

/-! ## What is handed over -/

/-- What the limit lets through of bytes after `total` others: up to one byte
past it. -/
def within (max : Option UInt64) (total : Nat) (bytes : Bytes) : Bytes :=
  match max with
  | none => bytes
  | some max => bytes.take (max.toNat + 1 - total)

@[simp] theorem within_nil (max : Option UInt64) (total : Nat) :
    within max total [] = [] := by
  cases max <;> simp [within]

theorem length_within (max : Option UInt64) (total : Nat) (bytes : Bytes) :
    (within max total bytes).length ≤ bytes.length := by
  cases max with
  | none => exact Nat.le_refl _
  | some max => exact List.length_take_le' _ _

theorem within_append (max : Option UInt64) (total : Nat) (first more : Bytes) :
    within max total (first ++ more) =
      within max total first ++ within max (total + first.length) more := by
  cases max with
  | none => rfl
  | some max =>
      simp only [within, List.take_append]
      rw [Nat.sub_sub]

def Counts (stream : Instream) : Prop :=
  stream.overLimit = true ↔
    ∃ max, stream.max = some max ∧ max.toNat < stream.total

/-- There is nothing more to read, because of the stream or of the limit. -/
def Ended (stream : Instream) : Prop :=
  stream.done = true ∨ stream.overLimit = true

/-- Everything a stream is read for takes bytes of its payload in order, counts
them and hands over the ones the limit lets through. -/
structure Hands (given : Bytes) (stream stream' : Instream) : Prop where
  max : stream'.max = stream.max
  shorter : (rest stream'.inner).length ≤ (rest stream.inner).length
  counts : stream.Counts → stream'.Counts
  broken : stream.Broken → stream'.Broken
  taken : ∀ payload after, stream.Left payload after →
    ∃ taken payload', payload = taken ++ payload' ∧
      stream'.Left payload' after ∧
      stream'.total = stream.total + taken.length ∧
      given = within stream.max stream.total taken

/-- What is read of a stream leaves it where the rest can be read. -/
def Advances (stream stream' : Instream) : Prop :=
  ∀ payload after, stream.Left payload after →
    ∃ taken payload', payload = taken ++ payload' ∧
      stream'.Left payload' after ∧
      stream'.total = stream.total + taken.length

theorem Hands.advances {given : Bytes} (hands : Hands given stream stream') :
    stream.Advances stream' := by
  intro payload after left
  obtain ⟨taken, payload', cut, left', total, -⟩ :=
    hands.taken payload after left
  exact ⟨taken, payload', cut, left', total⟩

theorem Hands.refl (stream : Instream) : Hands [] stream stream where
  max := rfl
  shorter := Nat.le_refl _
  counts := id
  broken := id
  taken := fun payload _ left => ⟨[], payload, rfl, left, rfl, by simp⟩

theorem Hands.trans {given more : Bytes} {stream₁ stream₂ stream₃ : Instream}
    (first : Hands given stream₁ stream₂) (second : Hands more stream₂ stream₃) :
    Hands (given ++ more) stream₁ stream₃ where
  max := second.max.trans first.max
  shorter := second.shorter.trans first.shorter
  counts := second.counts ∘ first.counts
  broken := second.broken ∘ first.broken
  taken := by
    intro payload after left
    obtain ⟨taken₁, payload₁, rfl, left₁, total₁, rfl⟩ :=
      first.taken payload after left
    obtain ⟨taken₂, payload₂, rfl, left₂, total₂, rfl⟩ :=
      second.taken payload₁ after left₁
    refine ⟨taken₁ ++ taken₂, payload₂, by simp, left₂, ?_, ?_⟩
    · rw [total₂, total₁, List.length_append, Nat.add_assoc]
    · rw [within_append, first.max, total₁]

/-- Once there is nothing more to read, all the limit lets through was handed
over. -/
theorem Hands.all {given : Bytes} (hands : Hands given stream stream')
    (left : stream.Left payload after) (counts : stream.Counts)
    (ended : stream'.Ended) :
    given = within stream.max stream.total payload := by
  obtain ⟨taken, payload', rfl, left', total, rfl⟩ :=
    hands.taken payload after left
  rcases ended with done | excess
  · obtain ⟨-, left'⟩ := left'
    simp only [done, if_true] at left'
    rw [left'.1, List.append_nil]
  · obtain ⟨max, limited, past⟩ := (hands.counts counts).mp excess
    rw [hands.max] at limited
    rw [within_append, limited, ← total]
    simp [within, Nat.sub_eq_zero_of_le past]

/-- What is handed over is the start of what the limit lets through. -/
theorem Hands.prefix {given : Bytes} (hands : Hands given stream stream')
    (left : stream.Left payload after) :
    given <+: within stream.max stream.total payload := by
  obtain ⟨taken, payload', rfl, -, -, rfl⟩ := hands.taken payload after left
  rw [within_append]
  exact List.prefix_append _ _

/-- All the reading of a length can do: find the stream ended, or take the four
bytes of the length. -/
theorem nextChunk_cases (next : stream.nextChunk = (true, stream')) :
    ∃ len inner, rest stream.inner = len ++ rest inner ∧
      ((len.length < 4 ∧
          stream' = ({ stream with inner := inner } : Instream).cutOff) ∨
        (len.length = 4 ∧
          stream' = { stream with
            inner := inner
            remaining := fromBeBytes len
            done := fromBeBytes len == 0 })) := by
  unfold nextChunk at next
  split at next
  · cases next
  · rename_i len inner read
    obtain ⟨split, bound, -⟩ := readFull_rest read
    refine ⟨len, inner, split, ?_⟩
    dsimp only at next
    split at next
    · rename_i short
      exact .inl ⟨short, (congrArg Prod.snd next).symm⟩
    · exact .inr ⟨by omega, (congrArg Prod.snd next).symm⟩

theorem nextChunk_inside (next : stream.nextChunk = (true, stream'))
    (going : stream'.done = false) :
    stream'.remaining ≠ 0 ∧
      (rest stream'.inner).length < (rest stream.inner).length := by
  obtain ⟨len, inner, split, ⟨-, rfl⟩ | ⟨four, rfl⟩⟩ := nextChunk_cases next
  · cases going
  · rw [split, List.length_append, four]
    exact ⟨by simpa using going, by dsimp only; omega⟩

theorem length_nextChunk (next : stream.nextChunk = (true, stream')) :
    (rest stream'.inner).length ≤ (rest stream.inner).length := by
  obtain ⟨len, inner, split, ⟨-, rfl⟩ | ⟨-, rfl⟩⟩ := nextChunk_cases next
  all_goals
    rw [split, List.length_append]
    exact Nat.le_add_left _ _

theorem hands_nextChunk (going : stream.done = false)
    (between : stream.remaining = 0)
    (next : stream.nextChunk = (true, stream')) : Hands [] stream stream' where
  max := by
    obtain ⟨len, inner, -, ⟨-, rfl⟩ | ⟨-, rfl⟩⟩ := nextChunk_cases next <;> rfl
  shorter := length_nextChunk next
  counts := by
    obtain ⟨len, inner, -, ⟨-, rfl⟩ | ⟨-, rfl⟩⟩ := nextChunk_cases next <;>
      exact id
  broken := fun broken => broken_nextChunk broken going between next
  taken := by
    intro payload after left
    obtain ⟨left', total, -⟩ := left_nextChunk left going between next
    exact ⟨[], payload, rfl, left', total, by simp⟩

/-- All a read of the current chunk can do: find its end missing, or take bytes
and count them. -/
theorem readChunk_cases {want : Nat} {given : Bytes}
    (read : stream.readChunk want = (some given, stream')) :
    (∃ inner, readSome (min stream.remaining want) stream.inner =
        (some [], inner) ∧ given = [] ∧
        stream' = ({ stream with inner := inner } : Instream).cutOff) ∨
      ∃ got inner, readSome (min stream.remaining want) stream.inner =
          (some got, inner) ∧ got ≠ [] ∧
        given = within stream.max stream.total got ∧
        stream' = { stream with
          inner := inner
          remaining := stream.remaining - got.length
          total := stream.total + got.length
          overLimit := stream.overLimit ||
            stream.max.any fun max =>
              decide (max.toNat < stream.total + got.length) } := by
  unfold readChunk at read
  split at read
  · cases read
  · rename_i inner some_read
    cases read
    exact .inl ⟨inner, some_read, rfl, rfl⟩
  · rename_i got inner nonempty some_read
    refine .inr ⟨got, inner, some_read, by simpa using nonempty, ?_⟩
    dsimp only at read
    split at read
    · rename_i unlimited
      cases read
      simp [unlimited, within]
    · rename_i max limited
      split at read
      · rename_i past
        cases read
        simp [limited, within, past]
      · rename_i inside
        cases read
        have short : given.length ≤ max.toNat + 1 - stream.total := by omega
        have near : ¬ max.toNat < stream.total + given.length := inside
        simp [limited, within, List.take_of_length_le short, near]

theorem hands_readChunk {want : Nat} {given : Bytes} (wanted : 0 < want)
    (going : stream.done = false) (inside : stream.remaining ≠ 0)
    (read : stream.readChunk want = (some given, stream')) :
    Hands given stream stream' := by
  rcases readChunk_cases read with
    ⟨inner, some_read, rfl, rfl⟩ | ⟨got, inner, some_read, some_got, rfl, next⟩
  · have split := readSome_rest some_read
    refine ⟨rfl, ?_, id, fun _ => broken_cutOff, ?_⟩
    · rw [split]
      exact Nat.le_refl _
    intro payload after left
    exfalso
    apply left.rest_ne_nil going
    exact rest_of_readSome_nil (by omega) some_read
  · have bound := length_readSome some_read
    have split := readSome_rest some_read
    refine ⟨by rw [next], ?_, ?_, ?_, ?_⟩
    · rw [next, split, List.length_append]
      exact Nat.le_add_left _ _
    · intro counts
      rw [next]
      simp only [Counts, Bool.or_eq_true, Option.any_eq_true,
        decide_eq_true_eq] at counts ⊢
      rw [counts, ← exists_or]
      apply exists_congr
      intro max
      rw [← and_or_left]
      exact and_congr_right fun _ => by omega
    · intro broken
      rw [next]
      exact broken_taken broken going (by omega) split rfl going rfl
    · intro payload after left
      obtain ⟨payload', cut, left'⟩ :=
        @left_taken stream stream' payload after inner got left going
          (by omega) split (by rw [next]) (by rw [next]; exact left.1)
          (by rw [next]; exact going) (by rw [next])
      exact ⟨got, payload', cut, left', by rw [next], rfl⟩

theorem hands_read {want : Nat} {given : Bytes} (wanted : 0 < want)
    (read : stream.read want = (some given, stream')) :
    Hands given stream stream' := by
  unfold Instream.read at read
  split at read
  · cases read
    exact .refl stream
  · rename_i open_stream
    have going : stream.done = false := by
      simp only [Bool.or_eq_true, not_or, Bool.not_eq_true] at open_stream
      exact open_stream.1
    split at read
    · rename_i between
      split at read
      · cases read
      · rename_i stream₁ next
        have first := hands_nextChunk going between next
        split at read
        · cases read
          exact first
        · rename_i still
          have going₁ : stream₁.done = false := by simpa using still
          exact first.trans (hands_readChunk wanted going₁
            (nextChunk_inside next going₁).1 read)
    · rename_i inside
      exact hands_readChunk wanted going inside read

theorem length_read {want : Nat} {given : Bytes}
    (read : stream.read want = (some given, stream')) :
    given.length + (rest stream'.inner).length ≤ (rest stream.inner).length := by
  have chunk {stream₁ : Instream}
      (read : stream₁.readChunk want = (some given, stream')) :
      given.length + (rest stream'.inner).length ≤
        (rest stream₁.inner).length := by
    rcases readChunk_cases read with
      ⟨inner, some_read, rfl, rfl⟩ | ⟨got, inner, some_read, -, rfl, rfl⟩
    · rw [readSome_rest some_read]
      exact Nat.le_of_eq (by simp [cutOff])
    · rw [readSome_rest some_read, List.length_append]
      exact Nat.add_le_add_right (length_within _ _ _) _
  unfold Instream.read at read
  split at read
  · cases read
    simp
  · split at read
    · split at read
      · cases read
      · rename_i stream₁ next
        have shorter := length_nextChunk next
        split at read
        · cases read
          simpa using shorter
        · exact (chunk read).trans shorter
    · exact chunk read

/-- A read gives nothing only when there is nothing more. -/
theorem ended_of_read_nil {want : Nat}
    (read : stream.read want = (some [], stream')) : stream'.Ended := by
  have chunk {stream₁ : Instream}
      (read : stream₁.readChunk want = (some [], stream')) : stream'.Ended := by
    rcases readChunk_cases read with
      ⟨inner, -, -, rfl⟩ | ⟨got, inner, -, some_got, nothing, rfl⟩
    · exact .inl rfl
    · right
      cases limited : stream₁.max with
      | none =>
          rw [limited] at nothing
          exact absurd nothing.symm some_got
      | some max =>
          rw [limited] at nothing
          have full : max.toNat + 1 - stream₁.total = 0 := by
            rcases List.take_eq_nil_iff.mp nothing.symm with full | empty
            · exact full
            · exact absurd empty some_got
          have past : max.toNat < stream₁.total + got.length := by omega
          simp [past]
  unfold Instream.read at read
  split at read
  · rename_i ended
    cases read
    simpa [Ended] using ended
  · split at read
    · split at read
      · cases read
      · split at read
        · rename_i done
          cases read
          exact .inl done
        · exact chunk read
    · exact chunk read


/-! ## The drain -/

theorem drainFrom_left {rounds drained : Nat} {ended : Bool}
    (left : stream.Left payload after)
    (enough : (rest stream.inner).length < rounds)
    (drain : stream.drainFrom rounds drained = (some ended, stream')) :
    (ended = true ↔
        stream.done = true ∨ drained + payload.length < maxDrainBytes) ∧
      (ended = true → rest stream'.inner = after ∧
        stream'.truncated = false ∧
        stream'.total = stream.total + payload.length) := by
  induction rounds generalizing stream payload drained with
  | zero => omega
  | succ rounds ih =>
      unfold drainFrom at drain
      by_cases done : stream.done = true
      · simp only [done, if_true, Prod.mk.injEq, Option.some.injEq] at drain
        obtain ⟨rfl, rfl⟩ := drain
        obtain ⟨whole, left⟩ := left
        simp only [done, if_true] at left
        simp [done, left.1, left.2, whole]
      · have going : stream.done = false := by simpa using done
        rw [if_neg done] at drain
        by_cases full : maxDrainBytes ≤ drained
        · simp only [full, if_true, Prod.mk.injEq, Option.some.injEq] at drain
          obtain ⟨rfl, rfl⟩ := drain
          simp only [Bool.false_eq_true, going, false_or, false_iff, not_lt,
            false_implies, and_true]
          omega
        · rw [if_neg full] at drain
          by_cases between : stream.remaining = 0
          · rw [if_pos between] at drain
            split at drain
            · cases drain
            · rename_i stream₁ next
              obtain ⟨left₁, total₁, -, shorter, last⟩ :=
                left_nextChunk left going between next
              obtain ⟨reached, behind⟩ := ih left₁ (by omega) drain
              rw [total₁] at behind
              refine ⟨?_, behind⟩
              rw [reached, last]
              simp only [going, Bool.false_eq_true, false_or,
                or_iff_right_iff_imp]
              rintro rfl
              simpa using full
          · rw [if_neg between] at drain
            have positive : 0 < min stream.remaining drainBlock := by
              rw [lt_min_iff]
              exact ⟨by omega, by decide⟩
            split at drain
            · cases drain
            · rename_i inner read
              exfalso
              obtain ⟨split, -, ended⟩ := readFull_rest read
              apply left.rest_ne_nil going
              rw [split, ended positive, List.append_nil]
            · rename_i got inner nonempty read
              obtain ⟨split, bound, -⟩ := readFull_rest read
              have taken : got.length ≠ 0 := by
                simpa using nonempty
              obtain ⟨payload₁, rfl, left₁⟩ :=
                @left_taken stream
                  { stream with
                    inner := inner
                    remaining := stream.remaining - got.length
                    total := stream.total + got.length }
                  payload after inner got left going (by omega) split rfl
                  left.1 going rfl
              have shorter : (rest inner).length < rounds := by
                rw [split, List.length_append] at enough
                omega
              obtain ⟨reached, behind⟩ := ih left₁ shorter drain
              rw [List.length_append, ← Nat.add_assoc]
              refine ⟨reached, ?_⟩
              intro complete
              obtain ⟨at_end, whole, total⟩ := behind complete
              refine ⟨at_end, whole, ?_⟩
              rw [total, Nat.add_assoc]

theorem drain_left {ended : Bool} (left : stream.Left payload after)
    (drain : stream.drain = (some ended, stream')) :
    (ended = true ↔
        stream.done = true ∨ payload.length < maxDrainBytes) ∧
      (ended = true → rest stream'.inner = after ∧
        stream'.truncated = false ∧
        stream'.total = stream.total + payload.length) := by
  have spec := drainFrom_left left (by omega) drain
  rwa [Nat.zero_add] at spec

end Instream

/-! ## Holding a stream -/

section

variable {stream stream' : Instream} {spill : Spill} {pieces : Nat → Nat}

/-- What was held of the bytes a stream handed over: all of them and there are
no more, or fewer for want of room. -/
def Held.Of (held : Held) (given : Bytes) (stream : Instream) : Prop :=
  held.payload.bytes <+: given ∧
    (held.short = none → held.payload.bytes = given ∧ stream.Ended)

theorem hands_readToEnd {rounds n room : Nat} {held whole : Bytes}
    (enough : room ≤ rounds)
    (read : readToEnd pieces rounds n room held stream =
      (some whole, stream')) :
    ∃ given, whole = held ++ given ∧ Instream.Hands given stream stream' ∧
      (given.length < room → stream'.Ended) := by
  induction rounds generalizing n room held stream with
  | zero =>
      cases read
      exact ⟨[], by simp, .refl _, by simp; omega⟩
  | succ rounds ih =>
      unfold readToEnd at read
      split at read
      · cases read
        exact ⟨[], by simp, .refl _, by simp; omega⟩
      · have wanted : 0 < min room (pieces n + 1) := by omega
        split at read
        · cases read
        · rename_i stream₁ block
          cases read
          exact ⟨[], by simp, Instream.hands_read wanted block,
            fun _ => Instream.ended_of_read_nil block⟩
        · rename_i got stream₁ nonempty block
          have some_got : 0 < got.length := by
            rw [List.length_pos_iff]
            simpa using nonempty
          obtain ⟨given, rfl, more, ended⟩ := ih (by omega) read
          refine ⟨got ++ given, by simp,
            (Instream.hands_read wanted block).trans more, ?_⟩
          rw [List.length_append]
          exact fun fewer => ended (by omega)

theorem writeAll_ok {file bytes longer : Bytes}
    (wrote : writeAll spill file bytes = .ok longer) :
    longer = file ++ bytes := by
  unfold writeAll at wrote
  split at wrote
  · cases wrote
  · exact (Except.ok.inj wrote).symm

theorem hands_spillRest {rounds : Nat} {file : Bytes}
    {result : Except ReadError Held} (heard : result ≠ .error .transport)
    (enough : (rest stream.inner).length < rounds)
    (copied : spillRest spill rounds file stream = (result, stream')) :
    ∃ given, Instream.Hands given stream stream' ∧
      ∀ held, result = .ok held → held.Of (file ++ given) stream' := by
  induction rounds generalizing file stream with
  | zero => omega
  | succ rounds ih =>
      unfold spillRest at copied
      have wanted : 0 < spillBlock := by decide
      split at copied
      · cases copied
        exact absurd rfl heard
      · rename_i stream₁ block
        cases copied
        refine ⟨[], Instream.hands_read wanted block, ?_⟩
        rintro held ⟨⟩
        have ended := Instream.ended_of_read_nil block
        exact ⟨by simp [StreamPayload.bytes],
          fun _ => ⟨by simp [StreamPayload.bytes], ended⟩⟩
      · rename_i got stream₁ nonempty block
        have first := Instream.hands_read wanted block
        split at copied
        · rename_i longer charged
          have grown := writeAll_ok charged
          subst grown
          have shorter := Instream.length_read block
          have some_got : 0 < got.length := by
            rw [List.length_pos_iff]
            simpa using nonempty
          obtain ⟨given, more, held⟩ := ih (by omega) copied
          refine ⟨got ++ given, first.trans more, ?_⟩
          rw [← List.append_assoc]
          exact held
        · cases copied
          refine ⟨got, first, ?_⟩
          rintro held ⟨⟩
          exact ⟨List.prefix_append _ _, nofun⟩
        · cases copied
          exact ⟨got, first, nofun⟩

theorem hands_spillHead {head block : Bytes}
    {result : Except ReadError Held} (heard : result ≠ .error .transport)
    (spilled : spillHead spill head block stream = (result, stream')) :
    ∃ given, Instream.Hands given stream stream' ∧
      ∀ held, result = .ok held →
        held.Of (head ++ (block ++ given)) stream' := by
  unfold spillHead at spilled
  split at spilled
  · cases spilled
    refine ⟨[], .refl stream, ?_⟩
    rintro held ⟨⟩
    exact ⟨List.prefix_append _ _, nofun⟩
  · cases spilled
    exact ⟨[], .refl stream, nofun⟩
  · split at spilled
    · cases spilled
      refine ⟨[], .refl stream, ?_⟩
      rintro held ⟨⟩
      exact ⟨List.nil_prefix, nofun⟩
    · cases spilled
      exact ⟨[], .refl stream, nofun⟩
    · rename_i file wrote
      have head_only := writeAll_ok wrote
      subst head_only
      split at spilled
      · cases spilled
        refine ⟨[], .refl stream, ?_⟩
        rintro held ⟨⟩
        exact ⟨List.prefix_append _ _, nofun⟩
      · cases spilled
        exact ⟨[], .refl stream, nofun⟩
      · rename_i longer wrote_more
        have both := writeAll_ok wrote_more
        subst both
        obtain ⟨given, more, held⟩ :=
          hands_spillRest heard (Nat.lt_succ_self _) spilled
        refine ⟨given, more, ?_⟩
        simpa using held

/-- Holding a stream, also where there is no room for all of it or its file
cannot be written, leaves it where the drain can go on. -/
theorem hands_bufferToSeekable {result : Except ReadError Held}
    (heard : result ≠ .error .transport)
    (buffered : bufferToSeekable spill pieces stream = (result, stream')) :
    ∃ given, Instream.Hands given stream stream' ∧
      ∀ held, result = .ok held → held.Of given stream' := by
  unfold bufferToSeekable at buffered
  split at buffered
  · cases buffered
    exact absurd rfl heard
  · rename_i head stream₁ first
    obtain ⟨given, same, handed, ended⟩ :=
      hands_readToEnd (Nat.le_refl _) first
    rw [List.nil_append] at same
    subst same
    split at buffered
    · rename_i fewer
      cases buffered
      refine ⟨head, handed, ?_⟩
      rintro held ⟨⟩
      exact ⟨List.prefix_rfl, fun _ => ⟨rfl, ended fewer⟩⟩
    · split at buffered
      · cases buffered
        exact absurd rfl heard
      · rename_i stream₂ second
        obtain ⟨given, nothing, handed₂, ended₂⟩ :=
          hands_readToEnd (Nat.le_refl _) second
        rw [List.nil_append] at nothing
        subst nothing
        cases buffered
        refine ⟨head ++ [], handed.trans handed₂, ?_⟩
        rintro held ⟨⟩
        rw [List.append_nil]
        exact ⟨List.prefix_rfl, fun _ => ⟨rfl, ended₂ (by decide)⟩⟩
      · rename_i block stream₂ nonempty second
        obtain ⟨given, same, handed₂, -⟩ :=
          hands_readToEnd (Nat.le_refl _) second
        rw [List.nil_append] at same
        subst same
        obtain ⟨given, handed₃, held⟩ := hands_spillHead heard buffered
        exact ⟨head ++ (block ++ given), handed.trans (handed₂.trans handed₃),
          held⟩

theorem hands_held {held : Held}
    (buffered : bufferToSeekable spill pieces stream = (.ok held, stream')) :
    ∃ given, Instream.Hands given stream stream' ∧ held.Of given stream' := by
  have heard : (.ok held : Except ReadError Held) ≠ .error .transport := nofun
  obtain ⟨given, handed, of⟩ := hands_bufferToSeekable heard buffered
  exact ⟨given, handed, of held rfl⟩

theorem advances_bufferToSeekable {result : Except ReadError Held}
    (heard : result ≠ .error .transport)
    (buffered : bufferToSeekable spill pieces stream = (result, stream')) :
    stream.Advances stream' := by
  obtain ⟨given, handed, -⟩ := hands_bufferToSeekable heard buffered
  exact handed.advances

/-- A stream that was held and then drained: where its drain ended. -/
theorem drain_held {source : Source UInt8} {max : Option UInt64}
    {chunks : List Chunk} {after : Bytes} {result : Except ReadError Held}
    {ended : Bool} {drained : Instream}
    (sent : rest source = frame chunks ++ after)
    (heard : result ≠ .error .transport)
    (buffered : bufferToSeekable spill pieces (.new source max) =
      (result, stream))
    (drain : stream.drain = (some ended, drained)) :
    (ended = true → rest drained.inner = after ∧ drained.truncated = false ∧
        drained.total = (payloadOf chunks).length) ∧
      (ended = false → maxDrainBytes ≤ (payloadOf chunks).length) := by
  obtain ⟨taken, payload, cut, left, total⟩ :=
    advances_bufferToSeekable heard buffered _ after
      (@Instream.left_new source max chunks after sent)
  obtain ⟨reached, behind⟩ := Instream.drain_left left drain
  have length : (payloadOf chunks).length = taken.length + payload.length := by
    rw [cut, List.length_append]
  constructor
  · intro complete
    obtain ⟨at_end, whole, count⟩ := behind complete
    refine ⟨at_end, whole, ?_⟩
    rw [count, total, length]
    simp [Instream.new]
  · intro short
    have small : ¬ payload.length < maxDrainBytes := by
      intro small
      have complete := reached.mpr (Or.inr small)
      rw [short] at complete
      cases complete
    omega

end

end Exav.Daemon
