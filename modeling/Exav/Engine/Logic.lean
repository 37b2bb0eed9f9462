import Exav.Engine.Compile

/-!
# Logical expressions

The Boolean expression of a logical signature is evaluated over how often each
of its subsignatures matched.  Two tests prune a signature before some counts
are known: `canBeTrue` where they have known bounds, `canBeTrueAbsent` where
some are zero and the rest free.  Neither rules out an expression that holds.
-/

namespace Exav.Engine

/-- A comparison of a count. -/
inductive Cmp where
  | eq
  | gt
  | lt
  deriving DecidableEq

/-- A parsed logical expression. -/
inductive Node where
  | sub (i : Nat)
  | subCmp (i : Nat) (c : Cmp) (x : Nat)
  | groupCmp (ids : List Nat) (c : Cmp) (x : Nat) (y : Option Nat)
  | and (v : List Node)
  | or (v : List Node)

def cmpOk (c : Cmp) (v x : Nat) : Bool :=
  match c with
  | .eq => v == x
  | .gt => v > x
  | .lt => v < x

/-- Addition of counts, which stop at the largest one. -/
def addCount (a b : Nat) : Nat :=
  min (a + b) u32Max

def totalCount (count : Nat → Nat) (ids : List Nat) : Nat :=
  ids.foldl (fun a i => addCount a (count i)) 0

/-- How many of `ids` matched. -/
def distinctCount (count : Nat → Nat) (ids : List Nat) : Nat :=
  (ids.filter fun i => count i > 0).length

mutual

/-- Whether the expression holds of the counts. -/
def Node.eval (count : Nat → Nat) : Node → Bool
  | .sub i => count i > 0
  | .subCmp i c x => cmpOk c (count i) x
  | .groupCmp ids c x y =>
      cmpOk c (totalCount count ids) x &&
        match y with
        | some y => distinctCount count ids ≥ y
        | none => true
  | .and v => Node.evalAll count v
  | .or v => Node.evalAny count v

def Node.evalAll (count : Nat → Nat) : List Node → Bool
  | [] => true
  | n :: v => n.eval count && Node.evalAll count v

def Node.evalAny (count : Nat → Nat) : List Node → Bool
  | [] => false
  | n :: v => n.eval count || Node.evalAny count v

end

/-- Whether some count up to `max` passes a comparison. -/
def someCount (c : Cmp) (x max : Nat) : Bool :=
  match c with
  | .gt => max > x
  | .lt => x > 0
  | .eq => x ≤ max

mutual

/-- Whether the expression may hold, where the subsignatures `unknown` bounds
have some count up to the bound and the others the count `count`. -/
def Node.canBeTrue (count : Nat → Nat) (unknown : Nat → Option Nat) :
    Node → Bool
  | .sub i => (unknown i).isSome || count i > 0
  | .subCmp i c x =>
      match unknown i with
      | some max => someCount c x max
      | none => cmpOk c (count i) x
  | .groupCmp ids c x y =>
      let known := ids.filter fun i => (unknown i).isNone
      let sum := (known.map count).sum
      let most := sum + (ids.filterMap unknown).sum
      let nunk := (ids.filter fun i => (unknown i).isSome).length
      (match c with
        | .gt => most > x
        | .lt => sum < x
        | .eq => x ≥ sum && x ≤ most) &&
        match y with
        | some y => distinctCount count known + nunk ≥ y
        | none => true
  | .and v => Node.canBeTrueAll count unknown v
  | .or v => Node.canBeTrueAny count unknown v

def Node.canBeTrueAll (count : Nat → Nat) (unknown : Nat → Option Nat) :
    List Node → Bool
  | [] => true
  | n :: v => n.canBeTrue count unknown && Node.canBeTrueAll count unknown v

def Node.canBeTrueAny (count : Nat → Nat) (unknown : Nat → Option Nat) :
    List Node → Bool
  | [] => false
  | n :: v => n.canBeTrue count unknown || Node.canBeTrueAny count unknown v

end

/-- Whether some count at all passes a comparison. -/
def freeCmpOk (c : Cmp) (x : Nat) : Bool :=
  match c with
  | .eq => true
  | .gt => x < u32Max
  | .lt => x > 0

mutual

/-- Whether the expression may hold where the `absent` subsignatures have no
match and the others any number. -/
def Node.canBeTrueAbsent (absent : Nat → Bool) : Node → Bool
  | .sub i => !absent i
  | .subCmp i c x => if absent i then cmpOk c 0 x else freeCmpOk c x
  | .groupCmp ids c x y =>
      let nfree := (ids.filter fun i => !absent i).length
      if nfree = 0 then cmpOk c 0 x && y.all (· == 0)
      else freeCmpOk c x && y.all (nfree ≥ ·)
  | .and v => Node.canBeTrueAbsentAll absent v
  | .or v => Node.canBeTrueAbsentAny absent v

def Node.canBeTrueAbsentAll (absent : Nat → Bool) : List Node → Bool
  | [] => true
  | n :: v => n.canBeTrueAbsent absent && Node.canBeTrueAbsentAll absent v

def Node.canBeTrueAbsentAny (absent : Nat → Bool) : List Node → Bool
  | [] => false
  | n :: v => n.canBeTrueAbsent absent || Node.canBeTrueAbsentAny absent v

end

/-! ## Pruning on absence -/

theorem totalCount_le (count : Nat → Nat) (ids : List Nat) :
    totalCount count ids ≤ u32Max := by
  unfold totalCount
  induction ids using List.reverseRecOn with
  | nil => exact Nat.zero_le _
  | append_singleton ids i _ =>
      rw [List.foldl_append]
      exact Nat.min_le_right _ _

theorem totalCount_eq_zero {count : Nat → Nat} {ids : List Nat}
    (none : ∀ i ∈ ids, count i = 0) : totalCount count ids = 0 := by
  unfold totalCount
  induction ids with
  | nil => rfl
  | cons i ids ih =>
      have rest := ih fun j member => none j (by simp [member])
      simpa [addCount, none i (by simp)] using rest

/-- A comparison some count passes is one a free count may pass. -/
theorem freeCmpOk_of_cmpOk {c : Cmp} {v x : Nat} (small : v ≤ u32Max)
    (holds : cmpOk c v x = true) : freeCmpOk c x = true := by
  cases c with
  | eq => rfl
  | gt =>
      have above : v > x := by simpa [cmpOk] using holds
      exact decide_eq_true (lt_of_lt_of_le above small)
  | lt =>
      have below : v < x := by simpa [cmpOk] using holds
      exact decide_eq_true (Nat.zero_lt_of_lt below)

theorem distinctCount_le {count : Nat → Nat} {absent : Nat → Bool}
    (zero : ∀ i, absent i = true → count i = 0) (ids : List Nat) :
    distinctCount count ids ≤ (ids.filter fun i => !absent i).length := by
  unfold distinctCount
  rw [← List.countP_eq_length_filter, ← List.countP_eq_length_filter]
  apply List.countP_mono_left
  intro i _ matched
  have positive : 0 < count i := by simpa using matched
  cases here : absent i with
  | false => rfl
  | true =>
      rw [zero i here] at positive
      exact absurd positive (lt_irrefl 0)

/-- What holds of an expression when it holds of the members of a conjunction
or disjunction holds of every expression. -/
theorem Node.induct {P : Node → Prop} (sub : ∀ i, P (.sub i))
    (subCmp : ∀ i c x, P (.subCmp i c x))
    (groupCmp : ∀ ids c x y, P (.groupCmp ids c x y))
    (and : ∀ v, (∀ n ∈ v, P n) → P (.and v))
    (or : ∀ v, (∀ n ∈ v, P n) → P (.or v)) (node : Node) : P node := by
  cases node with
  | sub i => exact sub i
  | subCmp i c x => exact subCmp i c x
  | groupCmp ids c x y => exact groupCmp ids c x y
  | and v => exact and v fun n _ => Node.induct sub subCmp groupCmp and or n
  | or v => exact or v fun n _ => Node.induct sub subCmp groupCmp and or n

section

variable {count : Nat → Nat} {absent : Nat → Bool} {v : List Node}

theorem Node.evalAll_iff :
    Node.evalAll count v = true ↔ ∀ n ∈ v, n.eval count = true := by
  induction v with
  | nil => simp [Node.evalAll]
  | cons n v ih => simp [Node.evalAll, ih]

theorem Node.evalAny_iff :
    Node.evalAny count v = true ↔ ∃ n ∈ v, n.eval count = true := by
  induction v with
  | nil => simp [Node.evalAny]
  | cons n v ih => simp [Node.evalAny, ih]

theorem Node.canBeTrueAbsentAll_iff :
    Node.canBeTrueAbsentAll absent v = true ↔
      ∀ n ∈ v, n.canBeTrueAbsent absent = true := by
  induction v with
  | nil => simp [Node.canBeTrueAbsentAll]
  | cons n v ih => simp [Node.canBeTrueAbsentAll, ih]

theorem Node.canBeTrueAbsentAny_iff :
    Node.canBeTrueAbsentAny absent v = true ↔
      ∃ n ∈ v, n.canBeTrueAbsent absent = true := by
  induction v with
  | nil => simp [Node.canBeTrueAbsentAny]
  | cons n v ih => simp [Node.canBeTrueAbsentAny, ih]

theorem Node.canBeTrueAbsent_of_eval (small : ∀ i, count i ≤ u32Max)
    (zero : ∀ i, absent i = true → count i = 0) (node : Node)
    (holds : node.eval count = true) : node.canBeTrueAbsent absent = true := by
  induction node using Node.induct with
  | sub i =>
      have matched : 0 < count i := by simpa [Node.eval] using holds
      cases here : absent i with
      | false => simp [Node.canBeTrueAbsent, here]
      | true =>
          rw [zero i here] at matched
          exact absurd matched (lt_irrefl 0)
  | subCmp i c x =>
      have compared : cmpOk c (count i) x = true := by
        simpa [Node.eval] using holds
      rw [Node.canBeTrueAbsent]
      split
      case isTrue here => rwa [zero i here] at compared
      case isFalse => exact freeCmpOk_of_cmpOk (small i) compared
  | groupCmp ids c x y =>
      simp only [Node.eval, Bool.and_eq_true] at holds
      obtain ⟨compared, distinct⟩ := holds
      have enough : ∀ m, y = some m → m ≤ distinctCount count ids := by
        intro m same
        rw [same] at distinct
        simpa using distinct
      have most := distinctCount_le zero ids
      rw [Node.canBeTrueAbsent]
      split
      case isTrue none =>
        have all : ∀ i ∈ ids, count i = 0 := by
          intro i member
          apply zero i
          simpa using List.filter_eq_nil_iff.mp
            (List.length_eq_zero_iff.mp none) i member
        rw [totalCount_eq_zero all] at compared
        rw [compared, Bool.true_and]
        cases y with
        | none => rfl
        | some m =>
            have least := enough m rfl
            have nothing : m = 0 := by omega
            simp [nothing]
      case isFalse =>
        rw [freeCmpOk_of_cmpOk (totalCount_le count ids) compared,
          Bool.true_and]
        cases y with
        | none => rfl
        | some m => exact decide_eq_true ((enough m rfl).trans most)
  | and v ih =>
      rw [Node.eval, Node.evalAll_iff] at holds
      rw [Node.canBeTrueAbsent, Node.canBeTrueAbsentAll_iff]
      exact fun n member => ih n member (holds n member)
  | or v ih =>
      rw [Node.eval, Node.evalAny_iff] at holds
      obtain ⟨n, member, held⟩ := holds
      rw [Node.canBeTrueAbsent, Node.canBeTrueAbsentAny_iff]
      exact ⟨n, member, ih n member held⟩

end

/-- An expression the absent subsignatures rule out holds of no counts. -/
theorem Node.eval_false_of_absent {node : Node} {absent : Nat → Bool}
    (pruned : node.canBeTrueAbsent absent = false) (count : Nat → Nat)
    (small : ∀ i, count i ≤ u32Max)
    (zero : ∀ i, absent i = true → count i = 0) :
    node.eval count = false := by
  cases here : node.eval count with
  | false => rfl
  | true =>
      have possible := Node.canBeTrueAbsent_of_eval small zero node here
      exact absurd possible (by simp [pruned])

theorem Node.eval_false_of_absent_group :
    (Node.groupCmp [0, 1] .gt 0 (some 2)).eval
      (fun i => if i = 1 then 5 else 0) = false :=
  @Node.eval_false_of_absent _ (fun i => i == 0) (by decide) _
    (by intro i; split <;> decide) (by intro i absent; simp_all)

/-! ## Pruning on bounds -/

/-- Counts of the known subsignatures as given, of the others within their
bounds. -/
structure Assignment (count : Nat → Nat) (unknown : Nat → Option Nat)
    (assigned : Nat → Nat) : Prop where
  known : ∀ i, unknown i = none → assigned i = count i
  bounded : ∀ i max, unknown i = some max → assigned i ≤ max

structure CountsFit (count : Nat → Nat) (unknown : Nat → Option Nat) :
    Prop where
  count : ∀ i, count i ≤ u32Max
  bound : ∀ i max, unknown i = some max → max ≤ u32Max

/-- The number a comparison compares with is a 32-bit one. -/
inductive Node.Fits : Node → Prop where
  | sub (i : Nat) : Fits (.sub i)
  | subCmp (i : Nat) (c : Cmp) {x : Nat} : x ≤ u32Max → Fits (.subCmp i c x)
  | groupCmp (ids : List Nat) (c : Cmp) {x : Nat} (y : Option Nat) :
      x ≤ u32Max → Fits (.groupCmp ids c x y)
  | and {v : List Node} : (∀ n ∈ v, Fits n) → Fits (.and v)
  | or {v : List Node} : (∀ n ∈ v, Fits n) → Fits (.or v)

/-- Total of the counts of the known subsignatures, which does not stop at
the largest count. -/
def knownSum (count : Nat → Nat) (unknown : Nat → Option Nat)
    (ids : List Nat) : Nat :=
  ((ids.filter fun i => (unknown i).isNone).map count).sum

/-- How many of `ids` have matched or are unknown. -/
def mostDistinct (count : Nat → Nat) (unknown : Nat → Option Nat)
    (ids : List Nat) : Nat :=
  distinctCount count (ids.filter fun i => (unknown i).isNone) +
    (ids.filter fun i => (unknown i).isSome).length

/-- Within reach of the bounds: each comparison, taken by itself, passes for
some count or total they admit, where totals do not stop at the largest
count. -/
inductive Node.Possible (count : Nat → Nat) (unknown : Nat → Option Nat) :
    Node → Prop where
  | sub {i : Nat} : (unknown i).isSome ∨ 0 < count i →
      Possible count unknown (.sub i)
  | subCmp {i : Nat} {c : Cmp} {x v : Nat} :
      (∀ max, unknown i = some max → v ≤ max) →
      (unknown i = none → v = count i) → cmpOk c v x = true →
      Possible count unknown (.subCmp i c x)
  | groupCmp {ids : List Nat} {c : Cmp} {x total : Nat} {y : Option Nat} :
      knownSum count unknown ids ≤ total →
      total ≤ knownSum count unknown ids + (ids.filterMap unknown).sum →
      cmpOk c total x = true →
      (∀ m, y = some m → m ≤ mostDistinct count unknown ids) →
      Possible count unknown (.groupCmp ids c x y)
  | and {v : List Node} : (∀ n ∈ v, Possible count unknown n) →
      Possible count unknown (.and v)
  | or {v : List Node} {n : Node} : n ∈ v → Possible count unknown n →
      Possible count unknown (.or v)

/-- An overflow decides the expression: a group compares its total `=` with the
largest count, which is where the total stops, though the known counts alone
add past it; and on the way up to the whole every other member of an `and`
holds, and every other member of an `or` is out of reach of the bounds. -/
inductive Node.Lost (count : Nat → Nat) (unknown : Nat → Option Nat)
    (assigned : Nat → Nat) : Node → Prop where
  | group {ids : List Nat} {y : Option Nat} :
      u32Max < knownSum count unknown ids →
      (∀ m, y = some m → m ≤ distinctCount assigned ids) →
      Lost count unknown assigned (.groupCmp ids .eq u32Max y)
  | and {v w : List Node} {n : Node} : Lost count unknown assigned n →
      (∀ m ∈ v ++ w, m.eval assigned = true) →
      Lost count unknown assigned (.and (v ++ n :: w))
  | or {v w : List Node} {n : Node} : Lost count unknown assigned n →
      (∀ m ∈ v ++ w, ¬ m.Possible count unknown) →
      Lost count unknown assigned (.or (v ++ n :: w))

theorem someCount_iff {c : Cmp} {x max : Nat} :
    someCount c x max = true ↔ ∃ v ≤ max, cmpOk c v x = true := by
  cases c with
  | eq => simp [someCount, cmpOk]
  | gt =>
      simp only [someCount, cmpOk, decide_eq_true_eq]
      exact ⟨fun above => ⟨max, le_rfl, above⟩,
        fun ⟨_, bounded, above⟩ => lt_of_lt_of_le above bounded⟩
  | lt =>
      simp only [someCount, cmpOk, decide_eq_true_eq]
      exact ⟨fun positive => ⟨0, Nat.zero_le _, positive⟩,
        fun ⟨_, _, below⟩ => Nat.zero_lt_of_lt below⟩

theorem totalCount_eq (count : Nat → Nat) (ids : List Nat) :
    totalCount count ids = min (ids.map count).sum u32Max := by
  unfold totalCount
  induction ids using List.reverseRecOn with
  | nil => simp
  | append_singleton ids i ih =>
      rw [List.foldl_append, ih]
      simp only [List.foldl_cons, List.foldl_nil, List.map_append,
        List.map_cons, List.map_nil, List.sum_append, List.sum_cons,
        List.sum_nil, addCount]
      omega

section

variable {count assigned : Nat → Nat} {unknown : Nat → Option Nat}

theorem Assignment.sum_between (counts : Assignment count unknown assigned)
    (ids : List Nat) :
    knownSum count unknown ids ≤ (ids.map assigned).sum ∧
      (ids.map assigned).sum ≤
        knownSum count unknown ids + (ids.filterMap unknown).sum := by
  unfold knownSum
  induction ids with
  | nil => simp
  | cons i ids ih =>
      cases here : unknown i with
      | none =>
          have same := counts.known i here
          simp only [List.filter_cons, here, List.filterMap_cons,
            List.map_cons, List.sum_cons, Option.isNone_none, if_true, same]
          omega
      | some max =>
          have bounded := counts.bounded i max here
          simp only [List.filter_cons, here, List.filterMap_cons,
            List.map_cons, List.sum_cons, Option.isNone_some,
            Bool.false_eq_true, if_false]
          omega

theorem Assignment.distinct_le (counts : Assignment count unknown assigned)
    (ids : List Nat) :
    distinctCount assigned ids ≤ mostDistinct count unknown ids := by
  unfold mostDistinct distinctCount
  induction ids with
  | nil => simp
  | cons i ids ih =>
      cases here : unknown i with
      | none =>
          have same := counts.known i here
          simp only [List.filter_cons, here, same, Option.isNone_none,
            Option.isSome_none, if_true, Bool.false_eq_true, if_false]
          split
          · simp only [List.length_cons]
            omega
          · exact ih
      | some max =>
          simp only [List.filter_cons, here, Option.isNone_some,
            Option.isSome_some, if_true, Bool.false_eq_true, if_false,
            List.length_cons]
          split
          · simp only [List.length_cons]
            omega
          · omega

theorem Node.canBeTrueAll_iff {v : List Node} :
    Node.canBeTrueAll count unknown v = true ↔
      ∀ n ∈ v, n.canBeTrue count unknown = true := by
  induction v with
  | nil => simp [Node.canBeTrueAll]
  | cons n v ih => simp [Node.canBeTrueAll, ih]

theorem Node.canBeTrueAny_iff {v : List Node} :
    Node.canBeTrueAny count unknown v = true ↔
      ∃ n ∈ v, n.canBeTrue count unknown = true := by
  induction v with
  | nil => simp [Node.canBeTrueAny]
  | cons n v ih => simp [Node.canBeTrueAny, ih]

/-- The bounds rule out just what is out of their reach. -/
theorem Node.canBeTrue_iff (node : Node) :
    node.canBeTrue count unknown = true ↔ node.Possible count unknown := by
  induction node using Node.induct with
  | sub i =>
      constructor
      · intro kept
        exact .sub (by simpa [Node.canBeTrue] using kept)
      · intro possible
        cases possible with
        | sub either => simpa [Node.canBeTrue] using either
  | subCmp i c x =>
      cases here : unknown i with
      | none =>
          simp only [Node.canBeTrue, here]
          constructor
          · intro passes
            exact .subCmp (by simp [here]) (fun _ => rfl) passes
          · intro possible
            cases possible with
            | subCmp _ known passes => rwa [known here] at passes
      | some max =>
          simp only [Node.canBeTrue, here]
          constructor
          · intro passes
            obtain ⟨v, bounded, holds⟩ := someCount_iff.mp passes
            exact .subCmp (by simpa [here] using bounded) (by simp [here]) holds
          · intro possible
            cases possible with
            | subCmp bounded _ holds =>
                exact someCount_iff.mpr ⟨_, bounded max here, holds⟩
  | groupCmp ids c x y =>
      have threshold : (match y with
          | some y => decide (mostDistinct count unknown ids ≥ y)
          | none => true) = true ↔
          ∀ m, y = some m → m ≤ mostDistinct count unknown ids := by
        cases y <;> simp
      simp only [Node.canBeTrue, Bool.and_eq_true]
      rw [← knownSum, ← mostDistinct, threshold]
      constructor
      · rintro ⟨compared, enough⟩
        cases c with
        | eq =>
            simp only [Bool.and_eq_true, decide_eq_true_eq] at compared
            exact .groupCmp compared.1 compared.2 (by simp [cmpOk]) enough
        | gt =>
            exact .groupCmp (Nat.le_add_right _ _) le_rfl compared enough
        | lt => exact .groupCmp le_rfl (Nat.le_add_right _ _) compared enough
      · intro possible
        cases possible with
        | @groupCmp _ _ _ total _ least most compared enough =>
            refine ⟨?_, enough⟩
            cases c with
            | eq =>
                have same : total = x := by simpa [cmpOk] using compared
                simp [← same, least, most]
            | gt =>
                have above : total > x := by simpa [cmpOk] using compared
                exact decide_eq_true (lt_of_lt_of_le above most)
            | lt =>
                have below : total < x := by simpa [cmpOk] using compared
                exact decide_eq_true (lt_of_le_of_lt least below)
  | and v ih =>
      rw [Node.canBeTrue, Node.canBeTrueAll_iff]
      constructor
      · intro kept
        exact .and fun n member => (ih n member).mp (kept n member)
      · intro possible n member
        cases possible with
        | and all => exact (ih n member).mpr (all n member)
  | or v ih =>
      rw [Node.canBeTrue, Node.canBeTrueAny_iff]
      constructor
      · rintro ⟨n, member, kept⟩
        exact .or member ((ih n member).mp kept)
      · intro possible
        cases possible with
        | or member inside => exact ⟨_, member, (ih _ member).mpr inside⟩

theorem forall_mem_among {α : Type} {P : α → Prop} {v w : List α} {n : α} :
    (∀ m ∈ v ++ n :: w, P m) ↔ P n ∧ ∀ m ∈ v ++ w, P m := by
  rw [List.forall_mem_append, List.forall_mem_cons, List.forall_mem_append]
  exact and_left_comm

theorem Node.Lost.holds {node : Node} (lost : node.Lost count unknown assigned)
    (counts : Assignment count unknown assigned) :
    node.eval assigned = true ∧ ¬ node.Possible count unknown := by
  induction lost with
  | @group ids y past reached =>
      have between := counts.sum_between ids
      constructor
      · simp only [Node.eval, Bool.and_eq_true, totalCount_eq, cmpOk, beq_iff_eq]
        refine ⟨Nat.min_eq_right (by omega), ?_⟩
        cases y with
        | none => rfl
        | some m => exact decide_eq_true (reached m rfl)
      · intro possible
        cases possible with
        | @groupCmp _ _ _ total _ least _ compared _ =>
            have same : total = u32Max := by simpa [cmpOk] using compared
            omega
  | and _ others ih =>
      constructor
      · rw [Node.eval, Node.evalAll_iff]
        exact forall_mem_among.mpr ⟨ih.1, others⟩
      · intro possible
        cases possible with
        | and all => exact ih.2 (forall_mem_among.mp all).1
  | or _ others ih =>
      constructor
      · rw [Node.eval, Node.evalAny_iff]
        exact ⟨_, by simp, ih.1⟩
      · intro possible
        cases possible with
        | or member inside =>
            have beyond : ∀ m ∈ _, ¬ Node.Possible count unknown m :=
              forall_mem_among.mpr ⟨ih.2, others⟩
            exact beyond _ member inside

theorem groupCmp_possible (counts : Assignment count unknown assigned)
    {ids : List Nat} {c : Cmp} {x : Nat} {y : Option Nat} (small : x ≤ u32Max)
    (holds : (Node.groupCmp ids c x y).eval assigned = true)
    (out : ¬ (Node.groupCmp ids c x y).Possible count unknown) :
    (Node.groupCmp ids c x y).Lost count unknown assigned := by
  have between := counts.sum_between ids
  simp only [Node.eval, Bool.and_eq_true, totalCount_eq] at holds
  obtain ⟨compared, threshold⟩ := holds
  have reached : ∀ m, y = some m → m ≤ distinctCount assigned ids := by
    rintro m rfl
    simpa using threshold
  have enough : ∀ m, y = some m → m ≤ mostDistinct count unknown ids :=
    fun m same => (reached m same).trans (counts.distinct_le ids)
  have past : cmpOk c (ids.map assigned).sum x = false := by
    by_contra passes
    exact out (.groupCmp between.1 between.2 (by simpa using passes) enough)
  -- the total stopped, and the comparison tells the stopped total from the sum
  cases c with
  | gt =>
      have above : min (ids.map assigned).sum u32Max > x := by
        simpa [cmpOk] using compared
      have below : (ids.map assigned).sum ≤ x := by simpa [cmpOk] using past
      omega
  | lt =>
      have below : min (ids.map assigned).sum u32Max < x := by
        simpa [cmpOk] using compared
      have above : x ≤ (ids.map assigned).sum := by simpa [cmpOk] using past
      omega
  | eq =>
      have same : min (ids.map assigned).sum u32Max = x := by
        simpa [cmpOk] using compared
      have other : (ids.map assigned).sum ≠ x := by simpa [cmpOk] using past
      obtain rfl : x = u32Max := by omega
      refine .group ?_ reached
      by_contra within
      exact out (@Node.Possible.groupCmp _ _ ids .eq u32Max u32Max y (by omega)
        (by omega) (by simp [cmpOk]) enough)

theorem Node.lost_of_eval (counts : Assignment count unknown assigned)
    (node : Node) (small : node.Fits) (holds : node.eval assigned = true)
    (out : ¬ node.Possible count unknown) :
    node.Lost count unknown assigned := by
  induction node using Node.induct with
  | sub i =>
      have matched : 0 < assigned i := by simpa [Node.eval] using holds
      refine absurd (.sub ?_) out
      cases here : unknown i with
      | none => exact .inr (counts.known i here ▸ matched)
      | some max => exact .inl rfl
  | subCmp i c x =>
      have compared : cmpOk c (assigned i) x = true := by
        simpa [Node.eval] using holds
      exact absurd (.subCmp (counts.bounded i) (counts.known i) compared) out
  | groupCmp ids c x y =>
      cases small with
      | groupCmp _ _ _ least => exact groupCmp_possible counts least holds out
  | and v ih =>
      rw [Node.eval, Node.evalAll_iff] at holds
      have ruled : ¬ ∀ n ∈ v, n.Possible count unknown := fun all => out (.and all)
      push Not at ruled
      obtain ⟨n, member, beyond⟩ := ruled
      cases small with
      | and small =>
          have lost := ih n member (small n member) (holds n member) beyond
          obtain ⟨before, behind, rfl⟩ := List.append_of_mem member
          exact .and lost (forall_mem_among.mp holds).2
  | or v ih =>
      rw [Node.eval, Node.evalAny_iff] at holds
      obtain ⟨n, member, held⟩ := holds
      cases small with
      | or small =>
          have lost := ih n member (small n member) held
            fun possible => out (.or member possible)
          obtain ⟨before, behind, rfl⟩ := List.append_of_mem member
          have all : ∀ m ∈ before ++ n :: behind, ¬ m.Possible count unknown :=
            fun m other possible => out (.or other possible)
          exact .or lost (forall_mem_among.mp all).2

end

/-- The bounds keep an expression of every assignment it holds of exactly where
under none of them an overflow decides it. -/
theorem Node.canBeTrue_sound_iff {count : Nat → Nat}
    {unknown : Nat → Option Nat} {node : Node} (small : node.Fits) :
    (∀ assigned, Assignment count unknown assigned →
        node.eval assigned = true → node.canBeTrue count unknown = true) ↔
      ∀ assigned, Assignment count unknown assigned →
        ¬ node.Lost count unknown assigned := by
  constructor
  · intro sound assigned counts lost
    have both := lost.holds counts
    exact both.2 ((Node.canBeTrue_iff node).mp (sound assigned counts both.1))
  · intro safe assigned counts holds
    rw [Node.canBeTrue_iff]
    by_contra out
    exact safe assigned counts (Node.lost_of_eval counts node small holds out)

/-- A disjunction with a known match is kept, though its group overflows. -/
theorem Node.canBeTrue_sound_group :
    (Node.or [.sub 0, .groupCmp [0, 1] .eq u32Max none]).canBeTrue
      (fun i => if i = 0 then u32Max else 1) (fun _ => none) = true := by
  refine (Node.canBeTrue_sound_iff (.or ?_)).mpr ?_
    (fun i => if i = 0 then u32Max else 1) ⟨fun _ _ => rfl, nofun⟩ (by decide)
  · intro n member
    simp only [List.mem_cons, List.not_mem_nil, or_false] at member
    rcases member with rfl | rfl
    · exact .sub 0
    · exact .groupCmp _ _ _ le_rfl
  · intro assigned counts lost
    have matched : (Node.sub 0).Possible (fun i => if i = 0 then u32Max else 1)
        (fun _ => none) := .sub (.inr (by decide))
    exact (lost.holds counts).2 (.or List.mem_cons_self matched)

/-- Counts of the largest number and one total the largest number, which the
bounds take to be out of reach. -/
theorem Node.canBeTrue_unsound :
    CountsFit (fun i => if i = 0 then u32Max else 1) (fun _ => none) ∧
      Assignment (fun i => if i = 0 then u32Max else 1) (fun _ => none)
        (fun i => if i = 0 then u32Max else 1) ∧
      (Node.groupCmp [0, 1] .eq u32Max none).Fits ∧
      (Node.groupCmp [0, 1] .eq u32Max none).eval
        (fun i => if i = 0 then u32Max else 1) = true ∧
      (Node.groupCmp [0, 1] .eq u32Max none).canBeTrue
        (fun i => if i = 0 then u32Max else 1) (fun _ => none) = false := by
  refine ⟨⟨?_, ?_⟩, ⟨?_, ?_⟩, .groupCmp _ _ _ le_rfl, by decide, by decide⟩
  · intro i
    split <;> decide
  · intro i max here
    cases here
  · intro i _
    rfl
  · intro i max here
    cases here

end Exav.Engine
