import Exav.Engine.Alike
import Exav.Engine.Compile

/-!
# Verifying the hits of a run

Where no step budget runs out a verification answers for the object alone.  A
run is verified by a plan: every item of it is a hit of the run, or an interior
stretch of hits of which the first is verified.
-/

namespace Exav.Engine

open Exav.Interval

/-! ## Verification without a budget -/

section

variable {body : Body} {buf : Bytes} {layout : Option PeLayout}

def answer (body : Body) (buf : Bytes) (layout : Option PeLayout) (s : Nat) :
    Option Nat :=
  (verify body buf layout s (Pools.new .unlimited)).1

theorem guardBudget_free {α : Type} {pools : Pools}
    {rest : Pools → Option α × Pools} (free : pools.Free buf) :
    guardBudget pools rest = rest pools := by
  rw [guardBudget, isZero_free free]
  rfl

theorem sim_free (body : Body) {pools : Pools} {toks : List Elem} {at_ : Nat} (start : Nat)
    (formed : ∀ tok ∈ toks, tok.WellFormed) (inside : at_ ≤ buf.length)
    (free : pools.Free buf) :
    AsFresh buf pools (sim body buf toks at_ start pools)
      (sim body buf toks at_ start (Pools.new .unlimited)) := by
  rw [sim, sim, guardBudget_free free, guardBudget_free (Pools.free_new buf)]
  exact (gapSplitMatch_free body.nocase formed inside free).map
    fun matched => if matched then some start else none

theorem simBackward_free (body : Body) (layout : Option PeLayout)
    {pools : Pools} {toks : List Elem} {stop : Nat}
    (formed : ∀ tok ∈ toks, tok.WellFormed) (inside : stop ≤ buf.length)
    (free : pools.Free buf) :
    AsFresh buf pools (simBackward body buf layout toks stop pools)
      (simBackward body buf layout toks stop (Pools.new .unlimited)) := by
  rw [simBackward, simBackward, guardBudget_free free,
    guardBudget_free (Pools.free_new buf)]
  exact (gapSplitMatchBackward_free body.nocase formed inside free).map
    fun start => start.filter (offAt body buf layout)

theorem verifyInner_free {pools : Pools} {s : Nat} (built : body.Built)
    (inside : s ≤ buf.length) (free : pools.Free buf) :
    AsFresh buf pools (verifyInner body buf layout s pools)
      (verifyInner body buf layout s (Pools.new .unlimited)) := by
  cases kind : body.elems with
  | none =>
      simp only [verifyInner, kind]
      exact free.same _
  | some elems =>
      have formed := built.formed elems kind
      cases place : body.bodyPrefix with
      | fixed anchorIdx len =>
          simp only [verifyInner, kind, place]
          split
          · exact free.same _
          · split
            · exact sim_free body _ formed (by omega) free
            · exact free.same _
      | floating anchorIdx =>
          simp only [verifyInner, kind, place]
          split
          · exact sim_free body _ (fun tok member =>
              formed tok (List.mem_of_mem_drop member)) inside free
          · exact free.same _
      | internal anchorIdx =>
          have suffix : ∀ tok ∈ elems.drop anchorIdx, tok.WellFormed :=
            fun tok member => formed tok (List.mem_of_mem_drop member)
          have front : ∀ tok ∈ elems.take anchorIdx, tok.WellFormed :=
            fun tok member => formed tok (List.mem_of_mem_take member)
          have forward := sim_free body s suffix inside free
          have aloneFree := (sim_free body s suffix inside
            (Pools.free_new buf)).free
          have backward := forward.next aloneFree fun pools free =>
            simBackward_free body layout front inside free
          simp only [verifyInner, kind, place]
          rcases here : sim body buf (elems.drop anchorIdx) s s pools
            with ⟨found, after⟩
          rcases alone : sim body buf (elems.drop anchorIdx) s s
            (Pools.new .unlimited) with ⟨aloneFound, aloneAfter⟩
          rw [here, alone] at forward backward
          have same : found = aloneFound := forward.answer
          subst same
          cases found with
          | some found => exact backward
          | none => exact forward

theorem verify_free (layout : Option PeLayout) {pools : Pools} {s : Nat}
    (built : body.Built)
    (inside : s ≤ buf.length) (free : pools.Free buf) :
    AsFresh buf pools (verify body buf layout s pools)
      (verify body buf layout s (Pools.new .unlimited)) :=
  (verifyInner_free built inside free).map _

/-- What a plan reports of one of its hits. -/
def reported (body : Body) (buf : Bytes) (layout : Option PeLayout)
    (item : Nat × Nat) : Option (Nat × Nat) :=
  (answer body buf layout item.1).map (·, item.2)

theorem verifyEach_free {plan : List (Nat × Nat)} {pools : Pools}
    (built : body.Built) (inside : ∀ item ∈ plan, item.1 ≤ buf.length)
    (free : pools.Free buf) :
    (verifyEach body buf layout plan pools).1 =
        plan.filterMap (reported body buf layout) ∧
      (verifyEach body buf layout plan pools).2.Free buf := by
  induction plan generalizing pools with
  | nil => exact ⟨rfl, free⟩
  | cons item plan ih =>
      obtain ⟨s, n⟩ := item
      have here := verify_free layout built
        (inside (s, n) (by simp)) free
      obtain ⟨rest, restFree⟩ :=
        ih (fun later member => inside later (by simp [member])) here.free
      have told : (verify body buf layout s pools).1 =
          answer body buf layout s := here.answer
      rw [verifyEach, List.filterMap_cons, reported]
      simp only [told, ← rest]
      cases answer body buf layout s with
      | none => exact ⟨rfl, restFree⟩
      | some m => exact ⟨rfl, restFree⟩

variable {d lo hi : Nat}

/-! ## The hits an offset allows -/

/-- How far before its anchor a pattern starts, where that is fixed. -/
def Prefix.len : Prefix → Nat
  | .fixed _ len => len
  | .floating _ => 0
  | .internal _ => 0

/-- A hit whose pattern start is not allowed is no match. -/
theorem verifyInner_refused {s : Nat} {pools : Pools} (built : body.Built)
    (pinned : ∀ anchorIdx, body.bodyPrefix ≠ .internal anchorIdx)
    (refused : body.bodyPrefix.len ≤ s →
      offAt body buf layout (s - body.bodyPrefix.len) = false) :
    (verifyInner body buf layout s pools).1 = none := by
  cases kind : body.elems with
  | none =>
      simp only [built.literal kind, Prefix.len, Nat.zero_le, Nat.sub_zero,
        forall_const] at refused
      simp [verifyInner, kind, refused]
  | some elems =>
      cases place : body.bodyPrefix with
      | fixed anchorIdx len =>
          simp only [place, Prefix.len] at refused
          simp only [verifyInner, kind, place]
          split
          case isTrue short => rfl
          case isFalse far => simp [refused (by omega)]
      | floating anchorIdx =>
          simp only [place, Prefix.len, Nat.zero_le, Nat.sub_zero,
            forall_const] at refused
          simp [verifyInner, kind, place, refused]
      | internal anchorIdx => exact (pinned anchorIdx place).elim

/-! ## Plans -/

/-- A range is planned as hits on their own, interior hits and hits on their
own again. -/
private theorem rangePlan_eq (interior : Option (Nat × Nat))
    {range : Nat × Nat} (ordered : range.1 ≤ range.2) :
    ∃ ilo ihi, rangePlan interior range = singles range.1 ilo ++
        (if ilo < ihi then [(ilo, ihi - ilo)] else []) ++ singles ihi range.2 ∧
      range.1 ≤ ilo ∧ ilo ≤ ihi ∧ ihi ≤ range.2 ∧
      (ilo < ihi → ∃ a b, interior = some (a, b) ∧ a ≤ ilo ∧ ihi ≤ b) := by
  obtain ⟨lo, hi⟩ := range
  dsimp only at ordered
  have nothing : ∃ ilo ihi, singles lo hi ++
        (if hi < hi then [(hi, hi - hi)] else []) ++ singles hi hi =
        singles lo ilo ++ (if ilo < ihi then [(ilo, ihi - ilo)] else []) ++
          singles ihi hi ∧ lo ≤ ilo ∧ ilo ≤ ihi ∧ ihi ≤ hi ∧
      (ilo < ihi → ∃ a b, interior = some (a, b) ∧ a ≤ ilo ∧ ihi ≤ b) :=
    ⟨hi, hi, rfl, ordered, le_rfl, le_rfl, fun inside => inside.false.elim⟩
  cases interior with
  | none => exact nothing
  | some inner =>
      obtain ⟨a, b⟩ := inner
      by_cases some : clamp a lo hi < clamp b lo hi
      · refine ⟨clamp a lo hi, clamp b lo hi, ?_, ?_, some.le, ?_, ?_⟩
        · simp only [rangePlan, some, if_true]
        · unfold clamp
          split_ifs <;> omega
        · unfold clamp
          split_ifs <;> omega
        · intro _
          refine ⟨a, b, rfl, ?_⟩
          revert some
          unfold clamp
          split_ifs <;> omega
      · simp only [rangePlan, some, if_false]
        exact nothing

theorem mem_rangePlan {interior : Option (Nat × Nat)} {range item : Nat × Nat}
    (ordered : range.1 ≤ range.2) (member : item ∈ rangePlan interior range) :
    range.1 ≤ item.1 ∧ item.1 + item.2 ≤ range.2 ∧ 0 < item.2 ∧
      (item.2 = 1 ∨ ∃ a b, interior = some (a, b) ∧ a ≤ item.1 ∧
        item.1 + item.2 ≤ b) := by
  obtain ⟨ilo, ihi, made, lower, middle, upper, inner⟩ :=
    rangePlan_eq interior ordered
  have single {lo hi : Nat} (alone : item ∈ singles lo hi) :
      lo ≤ item.1 ∧ item.1 < hi ∧ item.2 = 1 := by
    obtain ⟨s, inside, rfl⟩ := List.mem_map.mp alone
    have bounds := List.mem_range'_1.mp inside
    exact ⟨bounds.1, by omega, rfl⟩
  rw [made, List.mem_append, List.mem_append] at member
  rcases member with (before | within) | after
  · have here := single before
    omega
  · split at within
    case isTrue some =>
      obtain ⟨a, b, same, above, below⟩ := inner some
      rw [List.mem_singleton.mp within]
      exact ⟨lower, by dsimp only; omega, by dsimp only; omega,
        Or.inr ⟨a, b, same, above, by dsimp only; omega⟩⟩
    case isFalse => cases within
  · have here := single after
    omega

end

end Exav.Engine
