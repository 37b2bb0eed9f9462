import Exav.Source.Cache

/-!
# One object, read many ways

A source answers windows, chunk visits and searches.  Bytes in memory answer
them from the slice; a block cache, a part of a source and a lowercased source
answer by the methods every source has.  `Serves` is what it is for a source to
answer as its bytes would.
-/

namespace Exav.Source

def chunkBytes : Nat := 1024 * 1024

theorem chunkBytes_pos : 0 < chunkBytes := by decide

/-- Whether a chunk visitor goes on after the chunks it has been handed. -/
abbrev GoesOn := List (Nat × Bytes) → Bool

/-- An object's bytes, read at any offset.  A read may change what is held. -/
structure ByteSource (σ : Type) where
  len : Nat
  window : (off len : Nat) → σ → Bytes × σ
  chunks : (start stop : Nat) → GoesOn → σ → List (Nat × Bytes) × σ
  find : (needle : Bytes) → (start stop : Nat) → σ → Option Nat × σ

/-- The first occurrence of `needle` in a slice. -/
def memmem (hay needle : Bytes) : Option Nat :=
  Exav.find hay needle 0 hay.length

/-- Bytes held in memory. -/
def slice (data : Bytes) : ByteSource Unit where
  len := data.length
  window off len s :=
    let start := min off data.length
    let stop := min (start + len) data.length
    (Exav.window data start (stop - start), s)
  chunks start stop _ s :=
    let stop := min stop data.length
    if start < stop then ([(start, Exav.window data start (stop - start))], s)
    else ([], s)
  find needle start stop s :=
    let stop := min stop data.length
    if start > stop then (none, s)
    else
      ((memmem (Exav.window data start (stop - start)) needle).map (start + ·), s)

/-! ## The methods every source has -/

section

variable {σ : Type}

/-- Hand over consecutive chunks, until the visitor stops. -/
def chunksFrom (window : Nat → Nat → σ → Bytes × σ) (goesOn : GoesOn)
    (stop start : Nat) (seen : List (Nat × Bytes)) (s : σ) :
    List (Nat × Bytes) × σ :=
  if start < stop then
    let got := window start (min (stop - start) chunkBytes) s
    if got.1.length = 0 then (seen, got.2)
    else
      let seen := seen ++ [(start, got.1)]
      if goesOn seen then
        chunksFrom window goesOn stop (start + got.1.length) seen got.2
      else (seen, got.2)
  else (seen, s)
  termination_by stop - start
  decreasing_by
    rename_i filled _
    change ¬(window start (min (stop - start) chunkBytes) s).1.length = 0
      at filled
    omega

/-- Search window by window, each running into the next by one byte less than
the needle `first :: more`. -/
def findFrom (window : Nat → Nat → σ → Bytes × σ) (first : UInt8)
    (more : Bytes) (stop start span : Nat) (s : σ) : Option Nat × σ :=
  if start + (more.length + 1) ≤ stop then
    let got := window start (min (stop - start) (span + more.length)) s
    if got.1.length < more.length + 1 then (none, got.2)
    else
      match memmem got.1 (first :: more) with
      | some p => (some (start + p), got.2)
      | none =>
          findFrom window first more stop (start + (got.1.length - more.length))
            (min (span * 2) chunkBytes) got.2
  else (none, s)
  termination_by stop - start
  decreasing_by
    rename_i filled
    change ¬(window start (min (stop - start) (span + more.length)) s).1.length <
      more.length + 1 at filled
    omega

def byDefault (len : Nat) (window : Nat → Nat → σ → Bytes × σ) :
    ByteSource σ where
  len := len
  window := window
  chunks start stop goesOn s :=
    chunksFrom window goesOn (min stop len) start [] s
  find needle start stop s :=
    let stop := min stop len
    match needle with
    | [] => (if start ≤ stop then some start else none, s)
    | first :: more =>
        if stop ≤ start ∨ stop - start < more.length + 1 then (none, s)
        else findFrom window first more stop start 4096 s

def BlockCache.source (c : BlockCache) : ByteSource Holding :=
  byDefault c.len c.window

/-- `base..base + len` of another source. -/
def sub (inner : ByteSource σ) (base len : Nat) : ByteSource σ :=
  let base := min base inner.len
  let len := min len (inner.len - base)
  { byDefault len fun off want s =>
      let off := min off len
      inner.window (base + off) (min want (len - off)) s with
    find := fun needle start stop s =>
      let stop := min stop len
      if start > stop then (none, s)
      else
        let found := inner.find needle (base + start) (base + stop) s
        (found.1.map (· - base), found.2) }

/-- Another source with ASCII letters lowercased. -/
def lowered (inner : ByteSource σ) : ByteSource σ :=
  byDefault inner.len fun off len s =>
    let got := inner.window off len s
    (lower got.1, got.2)

end

/-- A view of an object: all of it, a part of a view, a view lowercased. -/
inductive View where
  | whole
  | sub (base len : Nat) (inner : View)
  | lower (inner : View)

def View.source {σ : Type} (src : ByteSource σ) : View → ByteSource σ
  | .whole => src
  | .sub base len inner => Source.sub (inner.source src) base len
  | .lower inner => lowered (inner.source src)

def View.bytes (data : Bytes) : View → Bytes
  | .whole => data
  | .sub base len inner => Exav.window (inner.bytes data) base len
  | .lower inner => Exav.lower (inner.bytes data)

/-! ## Calls -/

inductive Call where
  | window (off len : Nat)
  | chunks (start stop : Nat) (goesOn : GoesOn)
  | find (needle : Bytes) (start stop : Nat)

inductive Answer where
  | bytes (got : Bytes)
  | handed (chunks : List (Nat × Bytes))
  | place (found : Option Nat)
  deriving DecidableEq

namespace ByteSource

variable {σ : Type}

def answer (src : ByteSource σ) : Call → σ → Answer × σ
  | .window off len, s =>
      let got := src.window off len s
      (.bytes got.1, got.2)
  | .chunks start stop goesOn, s =>
      let got := src.chunks start stop goesOn s
      (.handed got.1, got.2)
  | .find needle start stop, s =>
      let got := src.find needle start stop s
      (.place got.1, got.2)

def answers (src : ByteSource σ) : List Call → σ → List Answer
  | [], _ => []
  | call :: calls, s =>
      let got := src.answer call s
      got.1 :: src.answers calls got.2

end ByteSource

/-! ## Searching a part of an object -/

theorem find_eq_some_iff {hay needle : Bytes} {start stop q : Nat} :
    Exav.find hay needle start stop = some q ↔
      start ≤ q ∧ q + needle.length ≤ min stop hay.length ∧
        occursAt hay needle q = true ∧
        ∀ r, start ≤ r → r < q → occursAt hay needle r = false := by
  constructor
  · intro found
    obtain ⟨above, _, occurs, first⟩ := find_eq_some found
    refine ⟨above, ?_, occurs, first⟩
    unfold Exav.find at found
    dsimp only at found
    split at found
    case isTrue short => cases found
    case isFalse fits =>
      have member := List.mem_of_find?_eq_some found
      rw [List.mem_range'_1] at member
      omega
  · intro is
    obtain ⟨above, within, occurs, first⟩ := is
    cases found : Exav.find hay needle start stop with
    | none =>
        have absent := find_eq_none found q above (by omega) (by omega)
        rw [occurs] at absent
        cases absent
    | some p =>
        obtain ⟨above', _, occurs', first'⟩ := find_eq_some found
        rcases Nat.lt_trichotomy p q with before | same | after
        · rw [first p above' before] at occurs'
          cases occurs'
        · rw [same]
        · rw [first' q above after] at occurs
          cases occurs

theorem find_clamped (hay needle : Bytes) (start stop : Nat) :
    Exav.find hay needle start (min stop hay.length) =
      Exav.find hay needle start stop := by
  simp [Exav.find]

theorem occursAt_window {data needle : Bytes} {start len p : Nat}
    (fits : p + needle.length ≤ len) :
    occursAt (Exav.window data start len) needle p =
      occursAt data needle (start + p) := by
  rw [occursAt, occursAt, window_window data fits]

/-- A search of a part of an object is a search of the object within it. -/
theorem find_window {data needle : Bytes} {base len start stop : Nat}
    (inside : base ≤ data.length)
    (within : stop ≤ (Exav.window data base len).length) :
    Exav.find (Exav.window data base len) needle start stop =
      (Exav.find data needle (base + start) (base + stop)).map (· - base) := by
  have size := length_window data base len
  apply Option.ext
  intro q
  rw [find_eq_some_iff, Option.map_eq_some_iff]
  constructor
  · intro is
    obtain ⟨above, fits, occurs, first⟩ := is
    rw [occursAt_window (by omega)] at occurs
    refine ⟨base + q, find_eq_some_iff.mpr ⟨by omega, by omega, occurs, ?_⟩,
      by omega⟩
    intro r lower upper
    have absent := first (r - base) (by omega) (by omega)
    rwa [occursAt_window (by omega), Nat.add_sub_cancel' (by omega)] at absent
  · intro is
    obtain ⟨p, found, rfl⟩ := is
    obtain ⟨above, fits, occurs, first⟩ := find_eq_some_iff.mp found
    refine ⟨by omega, by omega, ?_, ?_⟩
    · rwa [occursAt_window (by omega), Nat.add_sub_cancel' (by omega)]
    · intro r lower upper
      rw [occursAt_window (by omega)]
      exact first (base + r) (by omega) (by omega)

/-- A search goes on past a stretch without an occurrence. -/
theorem find_skip {data needle : Bytes} {start next stop : Nat}
    (onwards : start ≤ next)
    (absent : ∀ r, start ≤ r → r < next → occursAt data needle r = false) :
    Exav.find data needle start stop = Exav.find data needle next stop := by
  apply Option.ext
  intro q
  rw [find_eq_some_iff, find_eq_some_iff]
  constructor
  · intro is
    obtain ⟨above, fits, occurs, first⟩ := is
    refine ⟨?_, fits, occurs, fun r lower => first r (onwards.trans lower)⟩
    by_contra early
    rw [absent q above (by omega)] at occurs
    cases occurs
  · intro is
    obtain ⟨above, fits, occurs, first⟩ := is
    refine ⟨onwards.trans above, fits, occurs, ?_⟩
    intro r lower upper
    by_cases early : r < next
    · exact absent r lower early
    · exact first r (by omega) upper

theorem memmem_window {data needle : Bytes} {base len : Nat}
    (inside : base + len ≤ data.length) :
    memmem (Exav.window data base len) needle =
      (Exav.find data needle base (base + len)).map (· - base) := by
  rw [memmem, find_window (by omega) le_rfl, length_window_of_le inside]
  rfl

/-! ## Answering as the bytes would -/

def cut (start : Nat) (whole : Bytes) : List (Nat × Bytes) :=
  if whole = [] then []
  else
    (start, whole.take chunkBytes) ::
      cut (start + (whole.take chunkBytes).length) (whole.drop chunkBytes)
  termination_by whole.length
  decreasing_by
    rename_i filled
    have positive := List.length_pos_iff.mpr filled
    have chunk := chunkBytes_pos
    rw [List.length_drop]
    omega

@[simp] theorem cut_nil (start : Nat) : cut start [] = [] := by
  rw [cut, if_pos rfl]

/-- The chunks a visitor gets before it stops, after those it has seen. -/
def handed (goesOn : GoesOn) (seen : List (Nat × Bytes)) :
    List (Nat × Bytes) → List (Nat × Bytes)
  | [] => seen
  | chunk :: chunks =>
      if goesOn (seen ++ [chunk]) then handed goesOn (seen ++ [chunk]) chunks
      else seen ++ [chunk]

theorem length_of_mem_cut {start : Nat} {whole : Bytes} {chunk : Nat × Bytes}
    (member : chunk ∈ cut start whole) : chunk.2.length ≤ chunkBytes := by
  induction start, whole using cut.induct with
  | case1 start => simp at member
  | case2 start whole filled ih =>
      rw [cut, if_neg filled] at member
      rcases List.mem_cons.mp member with rfl | later
      · rw [List.length_take]
        exact Nat.min_le_left _ _
      · exact ih later

/-- A visitor that never stops gets every chunk. -/
theorem handed_all (seen chunks : List (Nat × Bytes)) :
    handed (fun _ => true) seen chunks = seen ++ chunks := by
  induction chunks generalizing seen with
  | nil => rw [handed, List.append_nil]
  | cons chunk chunks ih =>
      rw [handed, if_pos rfl, ih, List.append_assoc]
      rfl

/-- The stretch of `data` a chunk visitor is taken over. -/
def stretch (data : Bytes) (start stop : Nat) : Bytes :=
  Exav.window data start (min stop data.length - start)

/-- A source answers as `data` would, whatever `inv` lets it hold. -/
structure Serves {σ : Type} (src : ByteSource σ) (inv : σ → Prop)
    (data : Bytes) : Prop where
  len : src.len = data.length
  window : ∀ off len s, inv s →
    (src.window off len s).1 = Exav.window data off len ∧
      inv (src.window off len s).2
  chunks : ∀ start stop goesOn s, inv s →
    (src.chunks start stop goesOn s).1 =
        handed goesOn [] (cut start (stretch data start stop)) ∧
      inv (src.chunks start stop goesOn s).2
  find : ∀ needle start stop s, inv s →
    (src.find needle start stop s).1 = Exav.find data needle start stop ∧
      inv (src.find needle start stop s).2

section

variable {σ : Type} {inv : σ → Prop} {data : Bytes}
  {window : Nat → Nat → σ → Bytes × σ}

theorem cut_window {start len : Nat} (filled : 0 < len)
    (inside : start + len ≤ data.length) :
    cut start (Exav.window data start len) =
      (start, Exav.window data start (min len chunkBytes)) ::
        cut (start + min len chunkBytes)
          (Exav.window data (start + min len chunkBytes)
            (len - min len chunkBytes)) := by
  have size := length_window_of_le inside
  have nonempty : Exav.window data start len ≠ [] :=
    List.length_pos_iff.mp (by omega)
  have first : (Exav.window data start len).take chunkBytes =
      Exav.window data start (min len chunkBytes) := by
    simp only [Exav.window, List.take_take, Nat.min_comm]
  have others : (Exav.window data start len).drop chunkBytes =
      Exav.window data (start + min len chunkBytes)
        (len - min len chunkBytes) := by
    rcases Nat.le_total len chunkBytes with small | large
    · rw [Nat.min_eq_left small, Nat.sub_self, List.drop_eq_nil_of_le (by omega)]
      simp [Exav.window]
    · rw [Nat.min_eq_right large]
      simp only [Exav.window, List.drop_take, List.drop_drop]
  rw [cut, if_neg nonempty, first, others, length_window_of_le (by omega)]

theorem chunksFrom_sound
    (windows : ∀ off len s, inv s →
      (window off len s).1 = Exav.window data off len ∧ inv (window off len s).2)
    {goesOn : GoesOn} {stop start : Nat} {seen : List (Nat × Bytes)} {s : σ}
    (holds : inv s) (inside : stop ≤ data.length) :
    (chunksFrom window goesOn stop start seen s).1 =
        handed goesOn seen (cut start (Exav.window data start (stop - start))) ∧
      inv (chunksFrom window goesOn stop start seen s).2 := by
  induction remaining : stop - start using Nat.strong_induction_on
    generalizing start seen s with
  | _ size ih =>
      rw [chunksFrom]
      split
      case isFalse ended =>
        have nothing : size = 0 := by omega
        refine ⟨?_, holds⟩
        simp [nothing, Exav.window, handed]
      case isTrue more =>
        have chunk := chunkBytes_pos
        obtain ⟨got, kept⟩ :=
          windows start (min (stop - start) chunkBytes) s holds
        dsimp only
        rw [got, length_window_of_le (by omega), if_neg (by omega),
          cut_window (by omega) (by omega), handed, remaining]
        split
        case isTrue goes =>
          have left : stop - (start + min size chunkBytes) =
              size - min size chunkBytes := by omega
          exact ih _ (by omega) (by rwa [remaining] at kept) left
        case isFalse stops =>
          refine ⟨rfl, ?_⟩
          rwa [remaining] at kept

theorem findFrom_sound
    (windows : ∀ off len s, inv s →
      (window off len s).1 = Exav.window data off len ∧ inv (window off len s).2)
    {first : UInt8} {more : Bytes} {stop start span : Nat} {s : σ}
    (holds : inv s) (inside : stop ≤ data.length) (some_span : 0 < span) :
    (findFrom window first more stop start span s).1 =
        Exav.find data (first :: more) start stop ∧
      inv (findFrom window first more stop start span s).2 := by
  induction remaining : stop - start using Nat.strong_induction_on
    generalizing start span s with
  | _ size ih =>
      rw [findFrom]
      split
      case isFalse short =>
        refine ⟨?_, holds⟩
        symm
        rw [Exav.find, if_pos]
        simp only [List.length_cons]
        omega
      case isTrue fits =>
        have chunk := chunkBytes_pos
        dsimp only
        generalize taken : min (stop - start) (span + more.length) = want
        obtain ⟨got, kept⟩ := windows start want s holds
        rw [got, length_window_of_le (by omega), if_neg (by omega)]
        have looked := @memmem_window data (first :: more) start want (by omega)
        cases found : memmem (Exav.window data start want) (first :: more) with
        | some p =>
            refine ⟨?_, kept⟩
            rw [found] at looked
            obtain ⟨q, there, rfl⟩ := Option.map_eq_some_iff.mp looked.symm
            obtain ⟨above, within, occurs, earliest⟩ :=
              find_eq_some_iff.mp there
            dsimp only
            symm
            rw [Nat.add_sub_cancel' above]
            exact find_eq_some_iff.mpr ⟨above, by omega, occurs, earliest⟩
        | none =>
            rw [found] at looked
            have missing : Exav.find data (first :: more) start (start + want) =
                none := Option.map_eq_none_iff.mp looked.symm
            rw [@find_skip data (first :: more) start
              (start + (want - more.length)) stop (by omega)]
            · exact ih _ (by omega) kept (by omega) rfl
            · intro r above below
              apply find_eq_none missing r above
              · simp only [List.length_cons]
                omega
              · simp only [List.length_cons]
                omega

/-- A source answers as the object does when its windows do. -/
theorem serves_byDefault {len : Nat} (total : len = data.length)
    (windows : ∀ off len s, inv s →
      (window off len s).1 = Exav.window data off len ∧
        inv (window off len s).2) :
    Serves (byDefault len window) inv data where
  len := total
  window := windows
  chunks start stop goesOn s holds := by
    rw [stretch, ← total]
    exact chunksFrom_sound windows holds (by omega)
  find needle start stop s holds := by
    subst total
    rw [← find_clamped]
    unfold byDefault
    dsimp only
    cases needle with
    | nil =>
        refine ⟨?_, holds⟩
        symm
        by_cases within : start ≤ min stop data.length
        · rw [if_pos within]
          refine find_eq_some_iff.mpr
            ⟨le_rfl, ?_, by simp [occursAt, Exav.window], ?_⟩
          · simp only [List.length_nil]
            omega
          · intro r above below
            omega
        · rw [if_neg within, Exav.find, if_pos]
          simp only [List.length_nil]
          omega
    | cons first more =>
        dsimp only
        split
        case isTrue short =>
          refine ⟨?_, holds⟩
          symm
          rw [Exav.find, if_pos]
          simp only [List.length_cons]
          omega
        case isFalse fits =>
          exact findFrom_sound windows holds (by omega) (by omega)

theorem BlockCache.serves {c : BlockCache} (cached : Over c data) :
    Serves c.source (Sound c data) data :=
  serves_byDefault cached.len fun off len _ sound =>
    BlockCache.window_sound cached sound off len

theorem window_clamped (data : Bytes) (base len : Nat) :
    Exav.window data (min base data.length) (min len (data.length - min base data.length)) =
      Exav.window data base len := by
  rcases Nat.le_total base data.length with inside | past
  · rw [Nat.min_eq_left inside, Exav.window, Exav.window,
      List.take_eq_take_iff, List.length_drop]
    omega
  · have nothing : (Exav.window data base len).length = 0 := by
      rw [length_window]
      omega
    rw [List.eq_nil_of_length_eq_zero nothing, Nat.min_eq_right past,
      Nat.sub_self, Nat.min_zero, Exav.window, List.take_zero]

theorem serves_sub {src : ByteSource σ} (serves : Serves src inv data)
    (base len : Nat) :
    Serves (sub src base len) inv (Exav.window data base len) := by
  unfold sub
  dsimp only
  rw [serves.len, ← window_clamped data base len]
  generalize low : min base data.length = base
  generalize cap : min len (data.length - base) = len
  have inside : base + len ≤ data.length := by omega
  have size := length_window_of_le inside
  have plain := @serves_byDefault _ inv (Exav.window data base len)
    (fun off want s =>
      src.window (base + min off len) (min want (len - min off len)) s)
    len size.symm ?_
  · refine { plain with find := ?_ }
    intro needle start stop s holds
    dsimp only
    split
    case isTrue past =>
      refine ⟨?_, holds⟩
      symm
      rw [Exav.find, if_pos]
      omega
    case isFalse within =>
      obtain ⟨found, kept⟩ :=
        serves.find needle (base + start) (base + min stop len) s holds
      refine ⟨?_, kept⟩
      have part := @find_window data needle base len start (min stop len)
        (by omega) (by omega)
      have clamped := find_clamped (Exav.window data base len) needle start stop
      rw [size] at clamped
      rw [found, ← part]
      exact clamped
  · intro off want s holds
    obtain ⟨got, kept⟩ := serves.window (base + min off len)
      (min want (len - min off len)) s holds
    refine ⟨?_, kept⟩
    have clamped := window_clamped (Exav.window data base len) off want
    rw [size, window_window data (by omega)] at clamped
    exact got.trans clamped

theorem serves_lowered {src : ByteSource σ} (serves : Serves src inv data) :
    Serves (lowered src) inv (lower data) := by
  refine serves_byDefault ?_ ?_
  · rw [serves.len, length_lower]
  · intro off len s holds
    obtain ⟨got, kept⟩ := serves.window off len s holds
    refine ⟨?_, kept⟩
    dsimp only
    rw [got, window_lower]

theorem serves_view {src : ByteSource σ} (serves : Serves src inv data)
    (view : View) : Serves (view.source src) inv (view.bytes data) := by
  induction view with
  | whole => exact serves
  | sub base len inner ih => exact serves_sub ih base len
  | lower inner ih => exact serves_lowered ih

/-! ## Answers to calls -/

/-- What a call is answered from `data`. -/
def served (data : Bytes) : Call → Answer
  | .window off len => .bytes (Exav.window data off len)
  | .chunks start stop goesOn =>
      .handed (handed goesOn [] (cut start (stretch data start stop)))
  | .find needle start stop => .place (Exav.find data needle start stop)

def cutAnswer : Call → Answer → Answer
  | .chunks _ _ goesOn, .handed chunks =>
      .handed (handed goesOn [] (chunks.flatMap fun chunk => cut chunk.1 chunk.2))
  | _, answer => answer

theorem Serves.answers {src : ByteSource σ} (serves : Serves src inv data)
    {calls : List Call} {s : σ} (holds : inv s) :
    src.answers calls s = calls.map (served data) := by
  induction calls generalizing s with
  | nil => rfl
  | cons call calls ih =>
      have step : (src.answer call s).1 = served data call ∧
          inv (src.answer call s).2 := by
        cases call with
        | window off len =>
            obtain ⟨got, kept⟩ := serves.window off len s holds
            exact ⟨congrArg Answer.bytes got, kept⟩
        | chunks start stop goesOn =>
            obtain ⟨got, kept⟩ := serves.chunks start stop goesOn s holds
            exact ⟨congrArg Answer.handed got, kept⟩
        | find needle start stop =>
            obtain ⟨got, kept⟩ := serves.find needle start stop s holds
            exact ⟨congrArg Answer.place got, kept⟩
      rw [ByteSource.answers, List.map_cons, ← step.1]
      exact congrArg _ (ih step.2)

theorem cutAnswer_slice (data : Bytes) (call : Call) :
    cutAnswer call ((slice data).answer call ()).1 = served data call := by
  cases call with
  | window off len =>
      simp only [ByteSource.answer, slice, cutAnswer, served]
      rw [← window_clamped data off len]
      congr 2
      omega
  | chunks start stop goesOn =>
      simp only [ByteSource.answer, slice, served, stretch]
      split
      case isTrue more => simp [cutAnswer]
      case isFalse ended =>
        have nothing : min stop data.length - start = 0 := by omega
        simp [cutAnswer, nothing, Exav.window, handed]
  | find needle start stop =>
      simp only [ByteSource.answer, slice, cutAnswer, served]
      congr 1
      split
      case isTrue past =>
        symm
        rw [Exav.find, if_pos]
        omega
      case isFalse within =>
        have reach : start + (min stop data.length - start) =
            min stop data.length := by omega
        rw [memmem_window (by omega), reach, find_clamped]
        cases found : Exav.find data needle start stop with
        | none => rfl
        | some q =>
            have above := (find_eq_some found).1
            simp only [Option.map_some, Nat.add_sub_cancel' above]

end

/-- Calls on any view of a block cache over a source that delivers `data` are
answered as the slice in view answers them, whichever blocks are held; only
what a slice hands a chunk visitor at once comes in chunks. -/
theorem answers_eq_slice {src : Seekable} {data : Bytes}
    (delivers : Delivers src data) (block capacity : Nat) (view : View)
    (calls : List Call) :
    (view.source (BlockCache.withSizes src data.length block capacity).source).answers
        calls Holding.empty =
      List.zipWith cutAnswer calls
        ((slice (view.bytes data)).answers calls ()) := by
  have cached := over_withSizes delivers block capacity
  have serves := serves_view (BlockCache.serves cached) view
  rw [serves.answers (sound_empty _ _)]
  induction calls with
  | nil => rfl
  | cons call calls ih =>
      rw [ByteSource.answers, List.zipWith_cons_cons, List.map_cons,
        cutAnswer_slice, ih]

/-- A source held in full, read a byte at a time. -/
def cursor (data : Bytes) : Seekable :=
  fun _ start => .ok ((data.drop start).map (.bytes · []))

theorem delivers_cursor (data : Bytes) : Delivers (cursor data) data := by
  intro tick start
  refine ⟨_, rfl, ?_, ?_⟩
  · intro why failed
    obtain ⟨byte, _, is⟩ := List.mem_map.mp failed
    cases is
  · rw [List.flatMap_map]
    exact List.flatMap_singleton' _

/-- Two letters read through blocks of two bytes, lowercased. -/
theorem answers_eq_slice_letters :
    ((View.lower (.sub 1 2 .whole)).source
        (BlockCache.withSizes (cursor [65, 66, 67]) 3 2 4).source).answers
        [.window 0 9, .find [99] 0 9] Holding.empty =
      [.bytes [98, 99], .place (some 1)] :=
  (answers_eq_slice (delivers_cursor [65, 66, 67]) 2 4
    (.lower (.sub 1 2 .whole)) [.window 0 9, .find [99] 0 9]).trans (by decide)

private theorem longer_than_a_chunk {data : Bytes}
    (long : chunkBytes < data.length) (block capacity : Nat) :
    (View.whole.source (BlockCache.withSizes (cursor data) data.length block
        capacity).source).answers
        [.chunks 0 data.length fun _ => true] Holding.empty ≠
      (slice (View.whole.bytes data)).answers
        [.chunks 0 data.length fun _ => true] () := by
  have cached := over_withSizes (delivers_cursor data) block capacity
  have serves := serves_view (BlockCache.serves cached) .whole
  rw [serves.answers (sound_empty _ _)]
  intro same
  simp only [List.map_cons, List.map_nil, served, handed_all, View.bytes,
    List.nil_append, ByteSource.answers, ByteSource.answer, slice,
    Nat.min_self, Nat.sub_zero, if_pos (Nat.zero_lt_of_lt long),
    List.cons.injEq, Answer.handed.injEq, and_true] at same
  have whole : (0, Exav.window data 0 data.length) ∈
      cut 0 (stretch data 0 data.length) := by
    rw [same]
    exact List.mem_singleton.mpr rfl
  have short := length_of_mem_cut whole
  rw [length_window] at short
  omega

def pastChunk : Bytes := List.replicate (chunkBytes + 1) 0

theorem length_pastChunk : pastChunk.length = chunkBytes + 1 :=
  List.length_replicate

/-- It comes in two where the slice hands over one. -/
theorem chunks_not_at_once :
    (View.whole.source (BlockCache.withSizes (cursor pastChunk)
        pastChunk.length 64 256).source).answers
        [.chunks 0 pastChunk.length fun _ => true] Holding.empty ≠
      (slice (View.whole.bytes pastChunk)).answers
        [.chunks 0 pastChunk.length fun _ => true] () := by
  apply longer_than_a_chunk
  rw [length_pastChunk]
  exact Nat.lt_succ_self _

end Exav.Source
