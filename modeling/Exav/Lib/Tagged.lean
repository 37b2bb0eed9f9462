import Exav.Bytes

/-!
# Bits among bytes

Symbols that are bits or bytes are laid out as bytes: eight bits at a time share
a tag byte, which stands where the first of them is needed, so that it is fetched
only then.
-/

namespace Exav.Tagged

inductive Sym where
  | bit (b : Bool)
  | byte (v : UInt8)
  deriving DecidableEq

def topBits (tag : UInt8) : Nat → List Bool
  | 0 => []
  | n + 1 => ((tag >>> 7) &&& 1 == 1) :: topBits (tag <<< 1) n

/-- Symbols as bytes, where some bits of a tag byte are still to be taken.
Whatever follows the last symbol is not looked at. -/
inductive Laid : List Bool → List Sym → Bytes → Prop where
  | done (pending : List Bool) (rest : Bytes) : Laid pending [] rest
  | byte {pending : List Bool} {syms : List Sym} {rest : Bytes} (v : UInt8)
      (more : Laid pending syms rest) : Laid pending (.byte v :: syms) (v :: rest)
  | bit {pending : List Bool} {syms : List Sym} {rest : Bytes} (b : Bool)
      (more : Laid pending syms rest) : Laid (b :: pending) (.bit b :: syms) rest
  | tag {b : Bool} {syms : List Sym} {rest : Bytes} (tag : UInt8)
      (more : Laid (topBits tag 8) (.bit b :: syms) rest) :
      Laid [] (.bit b :: syms) (tag :: rest)

/-! ## A layout -/

def Sym.bit? : Sym → Option Bool
  | bit b => some b
  | byte _ => none

/-- The next so many bits of some symbols, and zeros behind the last. -/
def nextBits (n : Nat) (syms : List Sym) : List Bool :=
  (List.range n).map fun i => ((syms.filterMap Sym.bit?)[i]?).getD false

def tagOf (bits : List Bool) : UInt8 :=
  bits.foldr (fun b tag => (if b then 0x80 else 0) ||| (tag >>> 1)) 0

/-- Symbols laid out, where the tag byte last written has room for `free` bits
that are already in it. -/
def layFrom : (free : Nat) → List Sym → Bytes
  | _, [] => []
  | free, .byte v :: syms => v :: layFrom free syms
  | 0, .bit b :: syms => tagOf (nextBits 8 (.bit b :: syms)) :: layFrom 7 syms
  | free + 1, .bit _ :: syms => layFrom free syms

def lay (syms : List Sym) : Bytes :=
  layFrom 0 syms

@[simp] theorem nextBits_bit (n : Nat) (b : Bool) (syms : List Sym) :
    nextBits (n + 1) (.bit b :: syms) = b :: nextBits n syms := by
  simp [nextBits, List.range_succ_eq_map, Sym.bit?, Function.comp_def]

theorem length_nextBits (n : Nat) (syms : List Sym) :
    (nextBits n syms).length = n := by
  rw [nextBits, List.length_map, List.length_range]

theorem topBits_tagOf {bits : List Bool} (eight : bits.length = 8) :
    topBits (tagOf bits) 8 = bits := by
  match bits, eight with
  | [a, b, c, d, e, f, g, h], _ =>
      revert a b c d e f g h
      decide

theorem laid_layFrom (free : Nat) (syms : List Sym) (rest : Bytes) :
    Laid (nextBits free syms) syms (layFrom free syms ++ rest) := by
  induction syms generalizing free with
  | nil => exact .done _ _
  | cons sym syms ih =>
      cases sym with
      | byte v => exact .byte v (ih free)
      | bit b =>
          cases free with
          | zero =>
              have bits := topBits_tagOf (length_nextBits 8 (.bit b :: syms))
              refine .tag _ ?_
              rw [bits, nextBits_bit]
              exact .bit b (ih 7)
          | succ free =>
              rw [nextBits_bit]
              exact .bit b (ih free)

/-- The layout lays out the symbols, whatever follows it. -/
theorem laid_lay (syms : List Sym) (rest : Bytes) :
    Laid [] syms (lay syms ++ rest) :=
  laid_layFrom 0 syms rest

end Exav.Tagged

/-!
## Readers that take what stands before them

A reader over some state takes a text when, wherever the text stands, it gives
the text's value and leaves what stands behind it.  A reader spends when every
success makes a measure of the state fall.
-/

namespace Exav.Taking

variable {σ τ α β : Type}

def Takes (stands : σ → List τ → Prop) (run : StateT σ Option α)
    (text : List τ) (a : α) : Prop :=
  ∀ s more, stands s (text ++ more) → ∃ after,
    run s = some (a, after) ∧ stands after more

section

variable {stands : σ → List τ → Prop} {run : StateT σ Option α}
  {next : α → StateT σ Option β} {text behind : List τ} {a : α} {b : β}

theorem Takes.pure (a : α) : Takes stands (pure a) [] a :=
  fun s _ standing => ⟨s, rfl, standing⟩

theorem Takes.bind (first : Takes stands run text a)
    (second : Takes stands (next a) behind b) :
    Takes stands (run >>= next) (text ++ behind) b := by
  intro s more standing
  rw [List.append_assoc] at standing
  obtain ⟨middle, ran, standing⟩ := first s _ standing
  obtain ⟨after, went, standing⟩ := second middle more standing
  refine ⟨after, ?_, standing⟩
  change ((run s).bind fun p => next p.1 p.2) = _
  rw [ran]
  exact went

theorem Takes.last (first : Takes stands run text a)
    (second : Takes stands (next a) [] b) :
    Takes stands (run >>= next) text b := by
  have both := first.bind second
  rwa [List.append_nil] at both

end

/-! ## Spending -/

/-- Every success makes the measure fall by `least` at least. -/
def Spends (measure : σ → Nat) (least : Nat) (run : StateT σ Option α) : Prop :=
  ∀ s a after, run s = some (a, after) → measure after + least ≤ measure s

section

variable {measure : σ → Nat} {least more : Nat} {run : StateT σ Option α}
  {next : α → StateT σ Option β}

theorem Spends.pure (a : α) : Spends measure 0 (pure a : StateT σ Option α) := by
  rintro s _ _ ⟨⟩
  exact Nat.le_refl _

theorem Spends.fail : Spends measure least (fun _ => none : StateT σ Option α) :=
  nofun

theorem Spends.mono (spends : Spends measure more run) (fewer : least ≤ more) :
    Spends measure least run := by
  intro s a after ran
  have spent := spends s a after ran
  omega

theorem Spends.bind (first : Spends measure least run)
    (second : ∀ a, Spends measure 0 (next a)) :
    Spends measure least (run >>= next) := by
  intro s b after ran
  change ((run s).bind fun p => next p.1 p.2) = some (b, after) at ran
  obtain ⟨p, went, ran⟩ := Option.bind_eq_some_iff.mp ran
  have before := first s p.1 p.2 went
  have behind := second p.1 p.2 b after ran
  omega

theorem Spends.ite {p : Prop} [Decidable p] {run other : StateT σ Option α}
    (yes : p → Spends measure least run)
    (no : ¬ p → Spends measure least other) :
    Spends measure least (if p then run else other) := by
  by_cases holds : p
  · rw [if_pos holds]
    exact yes holds
  · rw [if_neg holds]
    exact no holds

end

/-! ## What comes of a success -/

/-- Every value given is one of these. -/
def Gives (kept : α → Prop) (run : StateT σ Option α) : Prop :=
  ∀ s a after, run s = some (a, after) → kept a

section

variable {kept : β → Prop} {run : StateT σ Option α}
  {next : α → StateT σ Option β}

theorem Gives.pure {b : β} (holds : kept b) :
    Gives kept (pure b : StateT σ Option β) := by
  rintro s _ _ ⟨⟩
  exact holds

theorem Gives.bind (second : ∀ a, Gives kept (next a)) :
    Gives kept (run >>= next) := by
  intro s b after ran
  change ((run s).bind fun p => next p.1 p.2) = some (b, after) at ran
  obtain ⟨p, -, ran⟩ := Option.bind_eq_some_iff.mp ran
  exact second p.1 p.2 b after ran

theorem Gives.ite {p : Prop} [Decidable p] {run other : StateT σ Option β}
    (yes : p → Gives kept run) (no : ¬ p → Gives kept other) :
    Gives kept (if p then run else other) := by
  by_cases holds : p
  · rw [if_pos holds]
    exact yes holds
  · rw [if_neg holds]
    exact no holds

end

end Exav.Taking
