import Exav.Source.Views
import Exav.Lib.Visit

/-!
# Readers of a source

A reader sees a source through windows, searches and chunk visits.  What a
visit is handed may be cut anywhere: a slice hands all of a stretch over at
once, other sources at most a chunk at a time.  `Reads` is what a reader may
rely on, and a visitor that goes byte by byte sees the bytes.
-/

namespace Exav.Source

open Exav.Visit

/-- A stretch from `at` on, in consecutive pieces. -/
inductive Parts : Nat → Bytes → List (Nat × Bytes) → Prop
  | nil {start : Nat} : Parts start [] []
  | cons {start : Nat} {part rest : Bytes} {parts : List (Nat × Bytes)}
      (later : Parts (start + part.length) rest parts) :
      Parts start (part ++ rest) ((start, part) :: parts)

theorem Parts.whole (start : Nat) (stretch : Bytes) :
    Parts start stretch [(start, stretch)] := by
  have one := Parts.cons (@Parts.nil (start + stretch.length))
  rwa [List.append_nil] at one

theorem parts_cut (start : Nat) (stretch : Bytes) :
    Parts start stretch (cut start stretch) := by
  induction start, stretch using cut.induct with
  | case1 start =>
      rw [cut_nil]
      exact .nil
  | case2 start stretch filled ih =>
      rw [cut, if_neg filled]
      have later := Parts.cons ih
      rwa [List.take_append_drop] at later

theorem Parts.zipIdx {start : Nat} {stretch : Bytes}
    {parts : List (Nat × Bytes)} (cuts : Parts start stretch parts) :
    (parts.flatMap fun part => part.2.zipIdx part.1) = stretch.zipIdx start := by
  induction cuts with
  | nil => rfl
  | cons later ih => rw [List.flatMap_cons, ih, List.zipIdx_append]

/-- A source reads as `data`, whatever `inv` lets it hold. -/
structure Reads {σ : Type} (src : ByteSource σ) (inv : σ → Prop)
    (data : Bytes) : Prop where
  len : src.len = data.length
  window : ∀ off len s, inv s →
    (src.window off len s).1 = Exav.window data off len ∧
      inv (src.window off len s).2
  chunks : ∀ start stop goesOn s, inv s →
    (∃ parts, Parts start (stretch data start stop) parts ∧
      (src.chunks start stop goesOn s).1 = handed goesOn [] parts) ∧
      inv (src.chunks start stop goesOn s).2
  find : ∀ needle start stop s, inv s →
    (src.find needle start stop s).1 = Exav.find data needle start stop ∧
      inv (src.find needle start stop s).2

section

variable {σ : Type} {src : ByteSource σ} {inv : σ → Prop} {data : Bytes}

theorem Serves.reads (serves : Serves src inv data) : Reads src inv data where
  len := serves.len
  window := serves.window
  chunks start stop goesOn s holds := by
    obtain ⟨got, kept⟩ := serves.chunks start stop goesOn s holds
    exact ⟨⟨_, parts_cut _ _, got⟩, kept⟩
  find := serves.find

theorem reads_slice (data : Bytes) :
    Reads (slice data) (fun _ => True) data where
  len := rfl
  window off len s _ := by
    refine ⟨?_, trivial⟩
    have clamped := window_clamped data off len
    have reach : min (min off data.length + len) data.length -
        min off data.length = min len (data.length - min off data.length) := by
      omega
    rw [← clamped, ← reach]
    rfl
  chunks start stop goesOn s _ := by
    refine ⟨?_, trivial⟩
    unfold slice stretch
    dsimp only
    split
    case isTrue more =>
      refine ⟨_, Parts.whole _ _, ?_⟩
      rw [handed, handed, ite_self, List.nil_append]
    case isFalse ended =>
      have nothing : min stop data.length - start = 0 := by omega
      refine ⟨[], ?_, rfl⟩
      rw [nothing, Exav.window, List.take_zero]
      exact .nil
  find needle start stop s _ := by
    refine ⟨?_, trivial⟩
    have same := cutAnswer_slice data (.find needle start stop)
    exact Answer.place.inj same

/-- A window, as a step of a reader. -/
def ByteSource.read (src : ByteSource σ) (off len : Nat) : StateM σ Bytes :=
  src.window off len

/-- A search, as a step of a reader. -/
def ByteSource.search (src : ByteSource σ) (needle : Bytes)
    (start stop : Nat) : StateM σ (Option Nat) :=
  src.find needle start stop

theorem read_yields (reads : Reads src inv data) (off len : Nat) :
    Yields inv (src.read off len) (· = Exav.window data off len) :=
  ⟨_, rfl, fun s holds => reads.window off len s holds⟩

theorem search_yields (reads : Reads src inv data) (needle : Bytes)
    (start stop : Nat) :
    Yields inv (src.search needle start stop)
      (· = Exav.find data needle start stop) :=
  ⟨_, rfl, fun s holds => reads.find needle start stop s holds⟩

/-! ## Visitors -/

variable {α : Type}

/-- Go over a stretch with a visitor that keeps a state and says whether it
goes on. -/
def visit (src : ByteSource σ) (start stop : Nat)
    (step : α → Nat × Bytes → α × Bool) (state : α) : StateM σ α := do
  let got ← fun s =>
    src.chunks start stop (fun seen => (visitAll step state seen).2) s
  pure (visitAll step state got).1

def eachByte (step : α → UInt8 × Nat → α × Bool) (state : α)
    (chunk : Nat × Bytes) : α × Bool :=
  visitAll step state (chunk.2.zipIdx chunk.1)

theorem visitAll_handed (step : α → Nat × Bytes → α × Bool) (state : α)
    (parts seen : List (Nat × Bytes))
    (going : (visitAll step state seen).2 = true) :
    visitAll step state
        (handed (fun seen => (visitAll step state seen).2) seen parts) =
      visitAll step state (seen ++ parts) := by
  induction parts generalizing seen with
  | nil => rw [handed, List.append_nil]
  | cons part parts ih =>
      have apart : seen ++ part :: parts = seen ++ [part] ++ parts := by simp
      rw [handed, apart]
      split
      case isTrue goes => exact ih _ goes
      case isFalse stops =>
        have stopped : (visitAll step state (seen ++ [part])).2 = false := by
          simpa using stops
        rw [visitAll_append state (seen ++ [part]), if_neg stops, ← stopped]

/-- A visitor that goes byte by byte goes over the bytes, wherever the chunks
are cut. -/
theorem visit_yields (reads : Reads src inv data)
    (step : α → UInt8 × Nat → α × Bool) (start stop : Nat) (state : α) :
    Yields inv (visit src start stop (eachByte step) state)
      (· = (visitAll step state ((stretch data start stop).zipIdx start)).1) := by
  refine ⟨_, rfl, fun s holds => ?_⟩
  obtain ⟨⟨parts, cuts, got⟩, kept⟩ := reads.chunks start stop
    (fun seen => (visitAll (eachByte step) state seen).2) s holds
  refine ⟨?_, kept⟩
  have run : ((visit src start stop (eachByte step) state).run s).1 =
      (visitAll (eachByte step) state (src.chunks start stop
        (fun seen => (visitAll (eachByte step) state seen).2) s).1).1 := rfl
  rw [run, got, visitAll_handed _ _ _ _ rfl, List.nil_append, ← cuts.zipIdx]
  exact congrArg Prod.fst (visitAll_flatMap (fun _ _ _ => rfl) state)

end

end Exav.Source
