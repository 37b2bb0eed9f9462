import Mathlib.Algebra.GroupWithZero.Nat
import Mathlib.Data.List.AList

/-!
# Tables that mirror each other

A table of values by key, and one of keys by the stamp of the value: an order of
use beside what is used.  They mirror each other as long as no stamp is given
twice.  The weight of a table is what its values weigh together.
-/

namespace Exav.Mirror

/-- A table of values by key. -/
abbrev Table (κ v : Type) := AList fun _ : κ => v

/-! ## Weights -/

section

variable {κ v : Type}

/-- What the values of a table weigh together. -/
def weight (w : v → Nat) (table : Table κ v) : Nat :=
  (table.entries.map fun entry => w entry.2).sum

variable [DecidableEq κ]

theorem erase_of_absent {table : Table κ v} {k : κ}
    (absent : table.lookup k = none) : table.erase k = table :=
  AList.ext (List.kerase_of_notMem_keys (AList.lookup_eq_none.mp absent))

theorem insert_erase (table : Table κ v) (k : κ) (x : v) :
    (table.erase k).insert k x = table.insert k x := by
  apply AList.ext
  rw [AList.entries_insert, AList.entries_insert]
  exact congrArg _ (List.kerase_of_notMem_keys
    (List.notMem_keys_kerase k table.nodupKeys))

private theorem sum_kerase (w : v → Nat) {k : κ} {x : v}
    {entries : List (Sigma fun _ : κ => v)}
    (found : entries.dlookup k = some x) :
    w x + ((entries.kerase k).map fun entry => w entry.2).sum =
      (entries.map fun entry => w entry.2).sum := by
  induction entries with
  | nil => cases found
  | cons entry entries ih =>
      obtain ⟨k', y⟩ := entry
      by_cases same : k = k'
      · subst same
        rw [List.dlookup_cons_eq] at found
        cases found
        have first : List.kerase k (⟨k, x⟩ :: entries) = entries :=
          List.kerase_cons_eq rfl
        rw [first, List.map_cons, List.sum_cons]
      · rw [List.dlookup_cons_ne _ _ same] at found
        rw [List.kerase_cons_ne same, List.map_cons, List.map_cons,
          List.sum_cons, List.sum_cons, ← ih found]
        exact Nat.add_left_comm _ _ _

theorem weight_erase (w : v → Nat) {table : Table κ v} {k : κ} {x : v}
    (found : table.lookup k = some x) :
    w x + weight w (table.erase k) = weight w table :=
  sum_kerase w found

theorem weight_insert (w : v → Nat) (table : Table κ v) (k : κ) (x : v) :
    weight w (table.insert k x) = w x + weight w (table.erase k) := by
  rw [weight, AList.entries_insert, List.map_cons, List.sum_cons]
  rfl

end

/-! ## The order of use -/

section

variable {κ τ v : Type} [DecidableEq κ] [DecidableEq τ] {stamp : v → τ}
  {held : Table κ v} {order : Table τ κ}

/-- Each key held stands in the order under its value's stamp, and nothing else
stands there. -/
def Mirrored (stamp : v → τ) (held : Table κ v) (order : Table τ κ) : Prop :=
  ∀ t k, order.lookup t = some k ↔ ∃ x, held.lookup k = some x ∧ stamp x = t

theorem mirrored_empty : Mirrored stamp (∅ : Table κ v) ∅ := by
  intro t k
  simp

theorem Mirrored.drop (mirrored : Mirrored stamp held order) {t : τ} {k : κ}
    (found : order.lookup t = some k) :
    Mirrored stamp (held.erase k) (order.erase t) := by
  obtain ⟨x, holds, stamped⟩ := (mirrored t k).mp found
  intro t' k'
  by_cases same : k' = k
  · subst same
    simp only [AList.lookup_erase, reduceCtorEq, false_and, exists_false,
      iff_false]
    intro still
    by_cases here : t' = t
    · subst here
      simp at still
    · rw [AList.lookup_erase_ne here] at still
      obtain ⟨x', holds', stamped'⟩ := (mirrored t' k').mp still
      rw [holds] at holds'
      cases holds'
      exact here (stamped'.symm.trans stamped)
  · rw [AList.lookup_erase_ne same, ← mirrored t' k']
    by_cases here : t' = t
    · subst here
      rw [AList.lookup_erase, found]
      simp [Ne.symm same]
    · rw [AList.lookup_erase_ne here]

theorem Mirrored.add (mirrored : Mirrored stamp held order) {k : κ} {x : v}
    (unheld : held.lookup k = none) (fresh : order.lookup (stamp x) = none) :
    Mirrored stamp (held.insert k x) (order.insert (stamp x) k) := by
  intro t k'
  by_cases same : k' = k
  · subst same
    simp only [AList.lookup_insert, Option.some.injEq, exists_eq_left']
    by_cases here : t = stamp x
    · subst here
      simp
    · rw [AList.lookup_insert_ne here]
      constructor
      · intro found
        obtain ⟨x', holds, -⟩ := (mirrored t k').mp found
        rw [unheld] at holds
        cases holds
      · intro stamped
        exact absurd stamped.symm here
  · rw [AList.lookup_insert_ne same, ← mirrored t k']
    by_cases here : t = stamp x
    · subst here
      rw [AList.lookup_insert, fresh]
      simp [Ne.symm same]
    · rw [AList.lookup_insert_ne here]

theorem Mirrored.restamp (mirrored : Mirrored stamp held order) {k : κ}
    {x y : v} (holds : held.lookup k = some x)
    (fresh : order.lookup (stamp y) = none) :
    Mirrored stamp (held.insert k y)
      ((order.erase (stamp x)).insert (stamp y) k) := by
  have dropped := mirrored.drop ((mirrored (stamp x) k).mpr ⟨x, holds, rfl⟩)
  have still : (order.erase (stamp x)).lookup (stamp y) = none := by
    by_cases same : stamp y = stamp x
    · rw [same, AList.lookup_erase]
    · rw [AList.lookup_erase_ne same, fresh]
  have added := dropped.add (AList.lookup_erase k held) still
  rwa [insert_erase] at added

end

end Exav.Mirror
