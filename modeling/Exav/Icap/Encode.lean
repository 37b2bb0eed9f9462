import Mathlib.Data.List.TakeWhile
import Exav.Icap.Framing

/-!
# Chunk-encoding a body

A body is handed back in a chunk for each read of it.  Whoever decodes that has
the body again, and stands behind it.
-/

namespace Exav.Icap

open Exav.Stream

/-- A number in hexadecimal. -/
def lowerHex (n : Nat) : Bytes :=
  (Nat.toDigits 16 n).map fun c => UInt8.ofNat c.toNat

def chunk (data : Bytes) : Bytes :=
  lowerHex data.length ++ 13 :: 10 :: (data ++ [13, 10])

def lastChunk : Bytes :=
  lowerHex 0 ++ [13, 10, 13, 10]

def encodeFrom : (rounds : Nat) → Source UInt8 → Option Bytes
  | 0, _ => none
  | rounds + 1, source =>
      match readSome (64 * 1024) source with
      | (none, _) => none
      | (some [], _) => some lastChunk
      | (some got, source) => do
          let wire ← encodeFrom rounds source
          some (chunk got ++ wire)

def encodeInto (payload : Source UInt8) : Option Bytes :=
  encodeFrom ((rest payload).length + 1) payload

theorem digitChar_spec : ∀ d < 16,
    let b := UInt8.ofNat d.digitChar.toNat
    hexDigit b = some d ∧ isAsciiWhitespace b = false ∧ b ≠ 59 := by
  decide

/-- A number is written in digits that give it back. -/
theorem lowerHex_spec (n : Nat) :
    (∀ b ∈ lowerHex n,
      (hexDigit b).isSome ∧ isAsciiWhitespace b = false ∧ b ≠ 59) ∧
      (lowerHex n).foldl (fun n b => n * 16 + (hexDigit b).getD 0) 0 = n := by
  induction n using Nat.strongRecOn with
  | ind n ih =>
      obtain ⟨value, plain⟩ := digitChar_spec (n % 16) (by omega)
      rw [lowerHex, Nat.toDigits_eq_if (by decide)]
      split
      · rw [Nat.mod_eq_of_lt (by assumption)] at value plain
        simpa [value] using plain
      · obtain ⟨front, number⟩ := ih (n / 16) (by omega)
        rw [List.map_append]
        change (∀ b ∈ lowerHex (n / 16) ++ _, _) ∧
          (lowerHex (n / 16) ++ _).foldl _ 0 = n
        rw [List.forall_mem_append, List.foldl_append, number]
        refine ⟨⟨front, by simpa [value] using plain⟩, ?_⟩
        simp [value]
        omega

theorem trimBy_eq {space : UInt8 → Bool} {bytes : Bytes}
    (plain : ∀ b ∈ bytes, space b = false) : trimBy space bytes = bytes := by
  have kept : ∀ l : Bytes, (∀ b ∈ l, space b = false) → l.dropWhile space = l := by
    intro l plain
    apply List.dropWhile_eq_self_iff.mpr
    simp [plain]
  rw [trimBy, kept bytes plain, kept, List.reverse_reverse]
  simpa using plain

theorem length_lowerHex {n : Nat} (fits : n < 2 ^ 64) :
    (lowerHex n).length ≤ 16 := by
  rw [lowerHex, List.length_map,
    Nat.length_toDigits_le_iff (by decide) (by decide)]
  exact fits

theorem parseChunkSize_lowerHex {n : Nat} (fits : n < 2 ^ 64) :
    parseChunkSize (lowerHex n) = .ok n := by
  obtain ⟨plain, number⟩ := lowerHex_spec n
  have trimmed := trimBy_eq fun b member => (plain b member).2.1
  have digits := List.all_eq_true.mpr fun b member => (plain b member).1
  have short := length_lowerHex fits
  have some_digit : lowerHex n ≠ [] := by simp [lowerHex]
  simp [parseChunkSize, trimAscii, trimmed, some_digit, digits, short, number]

theorem splitLine_append {body : Bytes} (absent : 10 ∉ body) (more : Bytes) :
    splitLine (body ++ 13 :: 10 :: more) = some (body ++ [13, 10], more) := by
  have split := @splitOnce_append 10 (body ++ [13]) more (by simpa using absent)
  rw [List.append_assoc] at split
  change splitOnce 10 (body ++ 13 :: 10 :: more) = _ at split
  simp [splitLine, split]

theorem sizeLine_lowerHex {n : Nat} (fits : n < 2 ^ 64) (more : Bytes) :
    ∃ line, splitLine (lowerHex n ++ 13 :: 10 :: more) = some (line, more) ∧
      parseChunkSize (splitSize (trimEol line)).1 = .ok n ∧
      (splitSize (trimEol line)).2 = [] := by
  obtain ⟨plain, -⟩ := lowerHex_spec n
  have no_end : (10 : UInt8) ∉ lowerHex n := fun member =>
    absurd (plain 10 member).2.1 (by decide)
  have no_mark : (59 : UInt8) ∉ lowerHex n := fun member =>
    (plain 59 member).2.2 rfl
  have trimmed : trimEol (lowerHex n ++ [13, 10]) = lowerHex n := by
    simp [trimEol, List.getLast?_append]
  have size : splitSize (lowerHex n) = (lowerHex n, []) := by
    simp [splitSize, splitOnce, List.idxOf_eq_length no_mark]
  refine ⟨_, splitLine_append no_end more, ?_⟩
  rw [trimmed, size]
  exact ⟨parseChunkSize_lowerHex fits, rfl⟩

theorem chunksFrom_encoded {rounds : Nat} {data : Bytes} (more : Bytes)
    (nonempty : data ≠ []) (fits : data.length < 2 ^ 64) :
    chunksFrom (rounds + 1) (chunk data ++ more) =
      (chunksFrom rounds more).map fun (data', ending, last) =>
        (data ++ data', ending, last) := by
  obtain ⟨line, split, parsed, -⟩ :=
    sizeLine_lowerHex fits (data ++ 13 :: 10 :: more)
  have framed : Framed data.length (data ++ 13 :: 10 :: more) data more :=
    ⟨rfl, _, _, by decide, rfl, @splitLine_append [] List.not_mem_nil more⟩
  rw [show chunk data ++ more =
    lowerHex data.length ++ 13 :: 10 :: (data ++ 13 :: 10 :: more) by simp [chunk]]
  exact chunksFrom_framed split parsed (by simpa using nonempty) framed

theorem chunksFrom_lastChunk (rounds : Nat) (after : Bytes) :
    chunksFrom (rounds + 1) (lastChunk ++ after) = some ([], .eof, after) := by
  obtain ⟨line, split, parsed, none_there⟩ :=
    @sizeLine_lowerHex 0 (by decide) (13 :: 10 :: after)
  have blank := @splitLine_append [] List.not_mem_nil after
  rw [List.nil_append] at blank
  rw [show lastChunk ++ after = lowerHex 0 ++ 13 :: 10 :: 13 :: 10 :: after from rfl,
    chunksFrom_last split parsed, trailerEnd, blank, none_there]
  rfl

/-- Every read but the last gives a byte, and the chunks are what was read. -/
theorem encodeFrom_framed {rounds : Nat} {payload : Source UInt8}
    (steady : Steady payload) (enough : (rest payload).length < rounds) :
    ∃ wire, encodeFrom rounds payload = some wire ∧
      ∀ n after, wire.length ≤ n →
        chunksFrom (n + 1) (wire ++ after) = some (rest payload, .eof, after) := by
  induction rounds generalizing payload with
  | zero => omega
  | succ rounds ih =>
      obtain ⟨got, left, read, later⟩ := steady.readSome (64 * 1024)
      rw [encodeFrom, read]
      cases got with
      | nil =>
          rw [rest_of_readSome_nil (by decide) read]
          exact ⟨_, rfl, fun n after _ => chunksFrom_lastChunk n after⟩
      | cons b got =>
          have bound := length_readSome read
          rw [readSome_rest read, List.length_append] at enough
          rw [List.length_cons] at bound enough
          obtain ⟨wire, more, framed⟩ := ih later (by omega)
          refine ⟨chunk (b :: got) ++ wire, by simp [more], ?_⟩
          intro n after upto
          simp only [chunk, List.length_append, List.length_cons] at upto
          obtain ⟨n, rfl⟩ := Nat.exists_eq_add_of_le' (show 1 ≤ n by omega)
          rw [List.append_assoc,
            chunksFrom_encoded _ (List.cons_ne_nil b got) (by simp; omega),
            framed n after (by omega), readSome_rest read]
          rfl

theorem payload_of_encodeInto {payload source left : Source UInt8}
    {after : Bytes} {limit : Option Nat} {drainLimit : Nat} {spill : Spill}
    {body out : Body spill.threshold} {outcome : BodyOutcome}
    (steady : Steady payload)
    (delivered : rest source = (encodeInto payload).getD [] ++ after)
    (read : readChunkedBody limit drainLimit spill body source =
      .ok (outcome, out, left)) (within : outcome.overLimit = false) :
    outcome.ending = .eof ∧ out.payload = body.payload ++ rest payload ∧
      rest left = after := by
  obtain ⟨wire, encoded, decoded⟩ := encodeFrom_framed steady (Nat.lt_succ_self _)
  obtain ⟨data, framed, held, -⟩ := (readChunkedBody_decodes read).complete within
  rw [delivered, encodeInto, encoded, chunked, Option.getD_some,
    decoded _ _ (by simp)] at framed
  simp only [Option.some.injEq, Prod.mk.injEq] at framed
  obtain ⟨rfl, ending, behind⟩ := framed
  exact ⟨ending.symm, held, behind.symm⟩

/-! ## What is accepted -/

/-- Spill settings under which nothing is refused. -/
structure Spill.Accepts (spill : Spill) : Prop where
  create : spill.create = none
  charge : ∀ held more, spill.charge held more = none

section

variable {spill : Spill} {source : Source UInt8}

theorem Spill.Accepts.write (accepts : spill.Accepts)
    (body : Body spill.threshold) (bytes : Bytes) :
    ∃ after, body.write spill bytes = .done after := by
  unfold Body.write
  split
  · simp [Body.writeFile, accepts.charge]
  · dsimp only
    split
    · exact ⟨_, rfl⟩
    · simp [Body.writeFile, accepts.create, accepts.charge]

theorem bodyLine_accepts {max : Nat} {body more : Bytes} (steady : Steady source)
    (absent : 10 ∉ body) (split : rest source = body ++ 10 :: more)
    (short : body.length ≤ max) :
    ∃ left, bodyLine max source = .ok (some (body ++ [10]), left) ∧
      Steady left ∧ rest left = more := by
  obtain ⟨left, found, behind⟩ := @Steady.readThrough _ _ _ 10 max source steady
    [] body more absent split short
  exact ⟨left, by simp [bodyLine, readLine, found], behind⟩

theorem sizeLine_accepts {n : Nat} {more : Bytes} (steady : Steady source)
    (fits : n < 2 ^ 64) (split : rest source = lowerHex n ++ 13 :: 10 :: more) :
    ∃ line left, bodyLine maxChunkLine source = .ok (some line, left) ∧
      Steady left ∧ rest left = more ∧
      parseChunkSize (splitSize (trimEol line)).1 = .ok n ∧
      (splitSize (trimEol line)).2 = [] := by
  obtain ⟨line, cut, parsed⟩ := sizeLine_lowerHex fits more
  have absent : (10 : UInt8) ∉ lowerHex n ++ [13] := by
    have plain := (lowerHex_spec n).1
    simp only [List.mem_append, List.mem_singleton, not_or]
    exact ⟨fun member => absurd (plain 10 member).2.1 (by decide), by decide⟩
  have short : (lowerHex n ++ [13]).length ≤ maxChunkLine := by
    have digits := length_lowerHex fits
    rw [List.length_append, List.length_singleton]
    unfold maxChunkLine
    omega
  obtain ⟨left, found, still, behind⟩ :=
    bodyLine_accepts steady absent (by simpa using split) short
  have same := readLine_some (bodyLine_ok found)
  rw [split, cut] at same
  cases same
  exact ⟨_, _, found, still, behind, parsed⟩

theorem keepBytes_accepts (accepts : spill.Accepts) {rounds keep : Nat}
    (out : Body spill.threshold) (steady : Steady source)
    (there : keep ≤ (rest source).length) :
    ∃ out' left, keepBytes spill rounds keep out source = .ok (.all out' left) ∧
      Steady left := by
  induction rounds generalizing keep out source with
  | zero => exact ⟨out, source, rfl, steady⟩
  | succ rounds ih =>
      by_cases none_kept : keep = 0
      · exact ⟨out, source, if_pos none_kept, steady⟩
      · obtain ⟨got, left, read, still⟩ := steady.readSome (min keep sinkLen)
        have split := readSome_rest read
        rw [keepBytes, if_neg none_kept, read]
        cases got with
        | nil =>
            rw [rest_of_readSome_nil (by unfold sinkLen; omega) read] at there
            exact absurd (Nat.le_zero.mp there) none_kept
        | cons b got =>
            obtain ⟨after, written⟩ := accepts.write out (b :: got)
            simp only [written]
            apply ih after still
            rw [split, List.length_append] at there
            omega

theorem readChunk_accepts (accepts : spill.Accepts) {limit drainLimit : Nat}
    {now : Progress spill.threshold} {data more : Bytes} (steady : Steady source)
    (split : rest source = data ++ 13 :: 10 :: more)
    (accepted : now.rejected = none) (under : now.overLimit = false)
    (fits : now.out.len + data.length ≤ limit) :
    ∃ now' left, readChunk limit drainLimit spill data.length now source =
        .ok (.next now' left) ∧ Steady left ∧ rest left = more ∧
      now'.rejected = none ∧ now'.overLimit = false ∧
      now'.out.len = now.out.len + data.length := by
  have keep : toKeep limit data.length now = data.length := by
    rw [toKeep_none accepted]
    omega
  obtain ⟨out, left, kept, still⟩ := @keepBytes_accepts spill source accepts
    data.length data.length now.out steady (by simp [split])
  obtain ⟨copied, same, behind, held⟩ := keepBytes_spec le_rfl kept
  rw [split] at behind
  obtain ⟨rfl, tail⟩ := List.append_inj behind same.symm
  obtain ⟨last, closed, calm, after⟩ := @bodyLine_accepts left 64 [13] more still
    (by decide) tail.symm (by decide)
  refine ⟨{ now with total := saturatingAdd now.total data.length, out := out },
    last, ?_, calm, after, accepted, under, ?_⟩
  · have nothing : readFull 0 left = (some [], left) := by cases left <;> rfl
    have close : closeChunk 0 left = .ok last := by
      rw [closeChunk, nothing]
      simp [closed, trimEol, bind, Except.bind]
    simp [readChunk, keep, kept, close, drains, chargeDrain, bind, Except.bind]
  · rw [Body.len_eq, Body.len_eq, held, List.length_append]

theorem decodeFrom_encoded (accepts : spill.Accepts) {limit drainLimit : Nat}
    {rounds : Nat} {payload : Source UInt8} {now : Progress spill.threshold}
    {wire after : Bytes} {n : Nat} (steady : Steady source)
    (unfailing : Steady payload)
    (encoded : encodeFrom rounds payload = some wire) (upto : wire.length ≤ n)
    (split : rest source = wire ++ after) (accepted : now.rejected = none)
    (under : now.overLimit = false)
    (fits : now.out.len + (rest payload).length ≤ limit) :
    ∃ outcome out left, decodeFrom limit drainLimit spill (n + 1) now source =
        .ok (outcome, out, left) ∧
      outcome.overLimit = false ∧ outcome.abandoned = false := by
  induction rounds generalizing payload now source wire n with
  | zero => cases encoded
  | succ rounds ih =>
      obtain ⟨got, more, read, later⟩ := unfailing.readSome (64 * 1024)
      rw [encodeFrom, read] at encoded
      cases got with
      | nil =>
          cases encoded
          obtain ⟨line, left, found, still, behind, parsed, -⟩ :=
            @sizeLine_accepts source 0 _ steady (by decide) split
          obtain ⟨last, blank, -⟩ := @bodyLine_accepts left maxChunkLine [13]
            after still (by decide) behind (by decide)
          have trailer : readTrailer maxTrailerLines left = .ok last := by
            rw [maxTrailerLines, readTrailer, blank]
            rfl
          have whole : decodeFrom limit drainLimit spill (n + 1) now source =
              .ok (⟨if hasIeof (splitSize (trimEol line)).2 then .ieof else .eof,
                now.overLimit, false, now.rejected, now.total⟩, now.out, last) := by
            simp [decodeFrom, found, parsed, trailer, bind, Except.bind]
          exact ⟨_, _, _, whole, under, rfl⟩
      | cons b got =>
          simp only [Option.bind_eq_bind, Option.bind_eq_some_iff,
            Option.some.injEq] at encoded
          obtain ⟨wire, encoded, rfl⟩ := encoded
          have bound := length_readSome read
          rw [readSome_rest read, List.length_append] at fits
          simp only [chunk, List.length_append, List.length_cons] at upto
          obtain ⟨n, rfl⟩ := Nat.exists_eq_add_of_le' (show 1 ≤ n by omega)
          obtain ⟨line, left, found, still, behind, parsed, -⟩ :=
            @sizeLine_accepts source (b :: got).length
              ((b :: got) ++ 13 :: 10 :: (wire ++ after)) steady (by omega)
              (by simp [split, chunk])
          obtain ⟨now', next, taken, calm, behind, accepted', under', len⟩ :=
            @readChunk_accepts spill left accepts limit drainLimit
              now (b :: got) (wire ++ after) still behind
              accepted under (by omega)
          obtain ⟨outcome, out, last, whole, ends⟩ := @ih next more now' wire n calm
            later encoded (by omega) behind accepted' under' (by omega)
          refine ⟨outcome, out, last, ?_, ends⟩
          rw [List.length_cons] at parsed taken
          rw [decodeFrom]
          simp [found, parsed, taken, whole, bind, Except.bind]

end

/-- A body that was encoded is accepted and decoded to itself, however it is
delivered, where no read and no write of it fails and the limit has room. -/
theorem readChunkedBody_encodeInto {payload source : Source UInt8}
    {after : Bytes} {limit : Option Nat} {drainLimit : Nat} {spill : Spill}
    {body : Body spill.threshold} (steady : Steady payload)
    (unfailing : Steady source) (accepts : spill.Accepts)
    (delivered : rest source = (encodeInto payload).getD [] ++ after)
    (fits : body.len + (rest payload).length ≤ limit.getD u64Max) :
    ∃ outcome out left, readChunkedBody limit drainLimit spill body source =
        .ok (outcome, out, left) ∧
      outcome.ending = .eof ∧ outcome.overLimit = false ∧
      outcome.abandoned = false ∧ outcome.rejected = none ∧
      out.payload = body.payload ++ rest payload ∧ rest left = after := by
  obtain ⟨wire, encoded, -⟩ := encodeFrom_framed steady (Nat.lt_succ_self _)
  have split : rest source = wire ++ after := by
    rw [delivered, encodeInto, encoded, Option.getD_some]
  obtain ⟨outcome, out, left, read, within, ended⟩ :=
    @decodeFrom_encoded spill source accepts (limit.getD u64Max) drainLimit _
      payload (Progress.start body) wire after (rest source).length unfailing
      steady encoded (by simp [split]) split rfl rfl fits
  obtain ⟨ending, payload, behind⟩ := payload_of_encodeInto steady delivered read within
  obtain ⟨-, -, -, accepted⟩ := (readChunkedBody_decodes read).complete within
  exact ⟨outcome, out, left, read, ending, within, ended, accepted, payload, behind⟩

def hiWire : Source UInt8 :=
  [.window 50 [13], .window 10 [72, 105, 13, 10, 48], .window 13 [10, 13, 10, 10]]

theorem readChunkedBody_encodeInto_hi :
    ∃ outcome out left,
      readChunkedBody (some 2) 0 ⟨1, none, fun _ _ => none⟩ .new hiWire =
        .ok (outcome, out, left) ∧
      outcome.ending = .eof ∧ outcome.overLimit = false ∧
      outcome.abandoned = false ∧ outcome.rejected = none ∧
      out.payload = [] ++ [72, 105] ∧ rest left = [10] :=
  @readChunkedBody_encodeInto [.window 72 [105]] hiWire _ (some 2) 0
    ⟨1, none, fun _ _ => none⟩ .new (by simp [Steady]) (by simp [Steady, hiWire])
    ⟨rfl, fun _ _ => rfl⟩ rfl (by decide)

end Exav.Icap
