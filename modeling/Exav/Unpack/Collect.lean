import Mathlib.Algebra.BigOperators.Group.List.Basic
import Exav.Unpack.Volume

/-!
# Collecting volumes loses no member

Every member offered ends up passed through, in a joined set, or handed back at
the end, and only whole sets are joined.  A set that is not joined is reported
through the parts that are handed back, so one none of whose parts was held is
not reported.
-/

namespace Exav.Volume

open Exav.Slots

/-! ## The set a name is of -/

def VolumeName.setKey (vn : VolumeName) : Name × Nat × Name :=
  match vn.scheme with
  | .rarPart _ => (toAsciiLowercase vn.stem, 0, [])
  | .rarOld => (toAsciiLowercase vn.stem, 1, [])
  | .numberedSuffix baseExt _ =>
      (toAsciiLowercase vn.stem, 2, toAsciiLowercase baseExt)
  | .zipSplit => (toAsciiLowercase vn.stem, 3, [])

theorem VolumeName.sameSetAs_iff {a b : VolumeName} :
    a.sameSetAs b = true ↔ a.setKey = b.setKey := by
  obtain ⟨stem, index, scheme⟩ := a
  obtain ⟨other, place, kind⟩ := b
  cases scheme <;> cases kind <;>
    simp [sameSetAs, setKey, eqIgnoreAsciiCase]

/-- A member whose name is one of the byte-split set of `key`. -/
def inSet (key : VolumeName) (name : Name) : Bool :=
  match parse name with
  | some vn => vn.scheme.isByteSplit && key.sameSetAs vn
  | none => false

theorem inSet_iff {key vn : VolumeName} {name : Name}
    (parsed : parse name = some vn) (split : vn.scheme.isByteSplit = true) :
    inSet key name = true ↔ key.setKey = vn.setKey := by
  simp [inSet, parsed, split, VolumeName.sameSetAs_iff]

theorem inSet_congr {key other : VolumeName} (same : key.setKey = other.setKey)
    (name : Name) : inSet key name = inSet other name := by
  unfold inSet
  cases parse name with
  | none => rfl
  | some vn =>
      have equal : key.sameSetAs vn = other.sameSetAs vn := by
        rw [Bool.eq_iff_iff, VolumeName.sameSetAs_iff,
          VolumeName.sameSetAs_iff, same]
      simp only [equal]

/-! ## What a step can do -/

/-- What offering a member does, guards included. -/
inductive Step (passed : List Member) (c : Collector) (m : Member) :
    List Member × Collector → Prop where
  | outside :
      (∀ key, inSet key m.1 = false) →
      Step passed c m (passed ++ [m], c)
  | lost (vn : VolumeName) :
      parse m.1 = some vn → vn.scheme.isByteSplit = true →
      (c.fits m.2 = true → ∃ part ∈ (slot (fun p : Pending =>
        p.key.sameSetAs vn) ⟨vn, [], false⟩ c.pending).parts,
          part.index = vn.index) →
      Step passed c m (passed ++ [m],
        { c with
          pending := update (fun p => p.key.sameSetAs vn) ⟨vn, [], false⟩
            (fun p => { p with lostPart := true }) c.pending })
  | held (vn : VolumeName) :
      parse m.1 = some vn → vn.scheme.isByteSplit = true →
      c.fits m.2 = true →
      (∀ part ∈ (slot (fun p : Pending => p.key.sameSetAs vn)
        ⟨vn, [], false⟩ c.pending).parts, part.index ≠ vn.index) →
      Step passed c m (passed,
        { c with
          pending := update (fun p => p.key.sameSetAs vn) ⟨vn, [], false⟩
            (fun p => { p with
              parts := p.parts ++ [⟨vn.index, m.1, m.2⟩] }) c.pending
          heldBytes := c.heldBytes + m.2.length })

theorem offerMember_step (passed : List Member) (c : Collector) (m : Member) :
    Step passed c m (offerMember (passed, c) m) := by
  obtain ⟨name, data⟩ := m
  cases parsed : parse name with
  | none =>
      have outside : ∀ key, inSet key name = false := by
        simp [inSet, parsed]
      simpa [offerMember, Collector.offer, parsed] using
        Step.outside (m := (name, data)) outside
  | some vn =>
      cases split : vn.scheme.isByteSplit with
      | false =>
          have outside : ∀ key, inSet key name = false := by
            simp [inSet, parsed, split]
          simpa [offerMember, Collector.offer, parsed, split] using
            Step.outside (m := (name, data)) outside
      | true =>
          have taken : (slot (fun p : Pending => p.key.sameSetAs vn)
              ⟨vn, [], false⟩ c.pending).parts.any (·.index == vn.index) =
              true ↔ ∃ part ∈ (slot (fun p : Pending =>
                p.key.sameSetAs vn) ⟨vn, [], false⟩ c.pending).parts,
                  part.index = vn.index := by
            simp
          cases refused : (!c.fits data || (slot (fun p : Pending =>
              p.key.sameSetAs vn) ⟨vn, [], false⟩ c.pending).parts.any
                (·.index == vn.index)) with
          | true =>
              have known : c.fits data = true → ∃ part ∈ (slot (fun p :
                  Pending => p.key.sameSetAs vn) ⟨vn, [], false⟩
                    c.pending).parts, part.index = vn.index := by
                intro fits
                apply taken.mp
                simpa [fits] using refused
              simpa [offerMember, Collector.offer, parsed, split, refused]
                using Step.lost (m := (name, data)) vn parsed split known
          | false =>
              simp only [Bool.or_eq_false_iff, Bool.not_eq_false'] at refused
              have free : ∀ part ∈ (slot (fun p : Pending =>
                  p.key.sameSetAs vn) ⟨vn, [], false⟩ c.pending).parts,
                  part.index ≠ vn.index := by
                intro part member same
                have here := taken.mpr ⟨part, member, same⟩
                rw [refused.2] at here
                cases here
              simpa [offerMember, Collector.offer, parsed, split, refused]
                using Step.held (m := (name, data)) vn parsed split refused.1
                  free

/-! ## What holds of every state -/

def FitsSome (budget : Nat) (members : List Member) (key : VolumeName) : Prop :=
  ∃ before part after, members = before ++ part :: after ∧
    inSet key part.1 = true ∧ (collect budget before).2.fits part.2 = true

theorem collect_snoc (budget : Nat) (members : List Member) (m : Member) :
    collect budget (members ++ [m]) =
      offerMember (collect budget members) m := by
  simp [collect]

theorem fitsSome_snoc {budget : Nat} {members : List Member} {m : Member}
    {key : VolumeName} :
    FitsSome budget (members ++ [m]) key ↔ FitsSome budget members key ∨
      (inSet key m.1 = true ∧ (collect budget members).2.fits m.2 = true) := by
  constructor
  · intro some
    obtain ⟨before, part, after, split, inside, fits⟩ := some
    rcases List.eq_nil_or_concat after with rfl | ⟨rest, last, rfl⟩
    · obtain ⟨rfl, same⟩ := List.append_inj' split rfl
      cases same
      exact Or.inr ⟨inside, fits⟩
    · have split : members ++ [m] = (before ++ part :: rest) ++ [last] := by
        simpa using split
      obtain ⟨rfl, _⟩ := List.append_inj' split rfl
      exact Or.inl ⟨before, part, rest, rfl, inside, fits⟩
  · intro some
    rcases some with ⟨before, part, after, rfl, inside, fits⟩ | ⟨inside, fits⟩
    · exact ⟨before, part, after ++ [m], by simp, inside, fits⟩
    · exact ⟨members, m, [], rfl, inside, fits⟩

/-- A part carries the place its name says, in the set of `key`. -/
def Part.PlacedIn (part : Part) (key : VolumeName) : Prop :=
  ∃ vn, parse part.name = some vn ∧ vn.scheme.isByteSplit = true ∧
    key.setKey = vn.setKey ∧ vn.index = part.index

/-- What holds of each set that is held. -/
structure Pending.Sound (budget : Nat) (members passed : List Member)
    (set : Pending) : Prop where
  placed : ∀ part ∈ set.parts, part.PlacedIn set.key
  distinct : (set.parts.map Part.index).Nodup
  lost : set.lostPart = true ↔ ∃ m ∈ passed, inSet set.key m.1 = true
  used : set.parts ≠ [] ↔ FitsSome budget members set.key

def heldMembers (pending : List Pending) : List Member :=
  pending.flatMap fun set => set.parts.map Part.member

/-- What holds of a collector that was offered `members`. -/
structure Collects (budget : Nat) (members passed : List Member)
    (c : Collector) : Prop where
  budget_eq : c.maxHeldBytes = budget
  accounted : members.Perm (passed ++ heldMembers c.pending)
  apart : (c.pending.map fun set => set.key.setKey).Nodup
  sound : ∀ set ∈ c.pending, set.Sound budget members passed
  known : ∀ m ∈ members, ∀ vn, parse m.1 = some vn →
    vn.scheme.isByteSplit = true →
    ∃ set ∈ c.pending, set.key.setKey = vn.setKey
  bytes : c.heldBytes =
    ((heldMembers c.pending).map fun m => m.2.length).sum
  bounded : min c.heldBytes usizeMax ≤ budget

section

variable {budget : Nat} {members passed : List Member} {c : Collector}

theorem Collects.withEmpty {vn : VolumeName}
    (collects : Collects budget members passed c)
    (none : ∀ set ∈ c.pending, set.key.sameSetAs vn = false) :
    Collects budget members passed
      { c with pending := c.pending ++ [⟨vn, [], false⟩] } := by
  have unknown : ∀ m ∈ members, inSet vn m.1 = false := by
    intro m member
    by_contra inside
    have inside : inSet vn m.1 = true := by simpa using inside
    cases parsed : parse m.1 with
    | none => simp [inSet, parsed] at inside
    | some other =>
        have split : other.scheme.isByteSplit = true := by
          simp only [inSet, parsed, Bool.and_eq_true] at inside
          exact inside.1
        have same := (inSet_iff parsed split).mp inside
        obtain ⟨set, held, key⟩ := collects.known m member other parsed split
        have passes := VolumeName.sameSetAs_iff.mpr (key.trans same.symm)
        rw [none set held] at passes
        cases passes
  have empty : Pending.Sound budget members passed ⟨vn, [], false⟩ := by
    refine ⟨by simp, by simp, ?_, ?_⟩
    · refine ⟨fun absurd => (Bool.false_ne_true absurd).elim, ?_⟩
      intro some
      obtain ⟨m, member, inside⟩ := some
      have offered : m ∈ members := collects.accounted.mem_iff.mpr
        (List.mem_append_left _ member)
      rw [unknown m offered] at inside
      cases inside
    · refine ⟨fun absurd => (absurd rfl).elim, ?_⟩
      intro some
      obtain ⟨before, part, after, rfl, inside, _⟩ := some
      rw [unknown part (by simp)] at inside
      cases inside
  have same : heldMembers (c.pending ++ [⟨vn, [], false⟩]) =
      heldMembers c.pending := by
    simp [heldMembers]
  refine ⟨collects.budget_eq, ?_, ?_, ?_, ?_, ?_, collects.bounded⟩
  · rw [same]
    exact collects.accounted
  · rw [List.map_append, List.nodup_append]
    refine ⟨collects.apart, by simp, ?_⟩
    intro key member other last same
    obtain ⟨set, held, rfl⟩ := List.mem_map.mp member
    have here : other = vn.setKey := by simpa using last
    rw [here] at same
    have passes := VolumeName.sameSetAs_iff.mpr same
    rw [none set held] at passes
    cases passes
  · intro set member
    rcases List.mem_append.mp member with old | new
    · exact collects.sound set old
    · cases List.mem_singleton.mp new
      exact empty
  · intro m member other parsed split
    obtain ⟨set, held, key⟩ := collects.known m member other parsed split
    exact ⟨set, List.mem_append_left _ held, key⟩
  · rw [same]
    exact collects.bytes

theorem Pending.Sound.other {set : Pending} {m : Member}
    {passed' : List Member} (sound : set.Sound budget members passed)
    (outside : inSet set.key m.1 = false)
    (grown : passed' = passed ∨ passed' = passed ++ [m]) :
    set.Sound budget (members ++ [m]) passed' := by
  refine ⟨sound.placed, sound.distinct, ?_, ?_⟩
  · rw [sound.lost]
    rcases grown with rfl | rfl
    · rfl
    · simp [outside]
  · rw [sound.used, fitsSome_snoc, outside]
    simp

theorem Pending.Sound.losing {set : Pending} {m : Member}
    (sound : set.Sound budget members passed)
    (inside : inSet set.key m.1 = true)
    (refused : (collect budget members).2.fits m.2 = true → set.parts ≠ []) :
    ({ set with lostPart := true } : Pending).Sound budget (members ++ [m])
      (passed ++ [m]) := by
  refine ⟨sound.placed, sound.distinct, ?_, ?_⟩
  · simp [inside]
  · rw [fitsSome_snoc, ← sound.used]
    constructor
    · exact Or.inl
    · intro some
      rcases some with used | ⟨_, fits⟩
      · exact used
      · exact refused fits

theorem Pending.Sound.holding {set : Pending} {m : Member} {vn : VolumeName}
    (sound : set.Sound budget members passed) (parsed : parse m.1 = some vn)
    (split : vn.scheme.isByteSplit = true) (same : set.key.setKey = vn.setKey)
    (fits : (collect budget members).2.fits m.2 = true)
    (free : ∀ part ∈ set.parts, part.index ≠ vn.index) :
    ({ set with parts := set.parts ++ [⟨vn.index, m.1, m.2⟩] } :
      Pending).Sound budget (members ++ [m]) passed := by
  refine ⟨?_, ?_, sound.lost, ?_⟩
  · intro part member
    rcases List.mem_append.mp member with old | new
    · exact sound.placed part old
    · cases List.mem_singleton.mp new
      exact ⟨vn, parsed, split, same, rfl⟩
  · rw [List.map_append, List.nodup_append]
    refine ⟨sound.distinct, by simp, ?_⟩
    intro i member j last
    obtain ⟨part, held, rfl⟩ := List.mem_map.mp member
    have here : j = vn.index := by simpa using last
    rw [here]
    exact free part held
  · rw [fitsSome_snoc, (inSet_iff parsed split).mpr same]
    simp [fits]

theorem Collects.others {front back : List Pending} {set : Pending}
    {m : Member} {vn : VolumeName}
    (collects : Collects budget members passed
      { c with pending := front ++ set :: back })
    (parsed : parse m.1 = some vn) (split : vn.scheme.isByteSplit = true)
    (same : set.key.setKey = vn.setKey) :
    ∀ other ∈ front ++ back, inSet other.key m.1 = false := by
  intro other member
  by_contra inside
  have inside : inSet other.key m.1 = true := by simpa using inside
  have key := (inSet_iff parsed split).mp inside
  have apart := collects.apart
  simp only [List.map_append, List.map_cons, List.nodup_append,
    List.nodup_cons] at apart
  rcases List.mem_append.mp member with before | after
  · exact apart.2.2 _ (List.mem_map_of_mem before) _ (by simp)
      (key.trans same.symm)
  · exact apart.2.1.1 (List.mem_map.mpr ⟨other, after, key.trans same.symm⟩)

theorem heldMembers_grown (front back : List Pending) {set set' : Pending}
    {added : List Part} (parts : set'.parts = set.parts ++ added) :
    (heldMembers (front ++ set' :: back)).Perm
      (heldMembers (front ++ set :: back) ++ added.map Part.member) := by
  simp only [heldMembers, List.flatMap_append, List.flatMap_cons, parts,
    List.map_append, List.append_assoc]
  apply List.Perm.append_left
  apply List.Perm.append_left
  exact List.perm_append_comm

/-- The set a member is of takes it or lets it pass, and the others keep what
holds of them. -/
theorem Collects.change {front back : List Pending} {set set' : Pending}
    {m : Member} {vn : VolumeName} {added : List Part} {dropped : List Member}
    (collects : Collects budget members passed
      { c with pending := front ++ set :: back })
    (parsed : parse m.1 = some vn) (split : vn.scheme.isByteSplit = true)
    (same : set.key.setKey = vn.setKey) (key : set'.key = set.key)
    (parts : set'.parts = set.parts ++ added)
    (once : added.map Part.member ++ dropped = [m])
    (sound : set'.Sound budget (members ++ [m]) (passed ++ dropped))
    (bounded : min (c.heldBytes +
      ((added.map Part.member).map fun m => m.2.length).sum) usizeMax ≤
        budget) :
    Collects budget (members ++ [m]) (passed ++ dropped)
      { c with
        pending := front ++ set' :: back
        heldBytes := c.heldBytes +
          ((added.map Part.member).map fun m => m.2.length).sum } := by
  have others := collects.others parsed split same
  have held := heldMembers_grown front back parts
  have grown : passed ++ dropped = passed ∨
      passed ++ dropped = passed ++ [m] := by
    cases dropped with
    | nil => exact Or.inl (List.append_nil _)
    | cons other rest =>
        have one := List.append_eq_singleton_iff.mp once
        simp only [reduceCtorEq, and_false, or_false] at one
        rw [one.2]
        exact Or.inr rfl
  refine ⟨collects.budget_eq, ?_, ?_, ?_, ?_, ?_, bounded⟩
  · rw [← once]
    calc
      (members ++ (added.map Part.member ++ dropped)).Perm
          ((passed ++ heldMembers (front ++ set :: back)) ++
            (added.map Part.member ++ dropped)) :=
        collects.accounted.append_right _
      _ = passed ++ ((heldMembers (front ++ set :: back) ++
          added.map Part.member) ++ dropped) := by
        simp only [List.append_assoc]
      List.Perm _ (passed ++ (dropped ++ (heldMembers (front ++ set :: back) ++
          added.map Part.member))) :=
        List.perm_append_comm.append_left _
      List.Perm _ (passed ++ (dropped ++
          heldMembers (front ++ set' :: back))) :=
        (held.symm.append_left _).append_left _
      _ = (passed ++ dropped) ++ heldMembers (front ++ set' :: back) :=
        (List.append_assoc _ _ _).symm
  · simpa [key] using collects.apart
  · intro other member
    have known (there : other ∈ front ++ back) :
        other.Sound budget (members ++ [m]) (passed ++ dropped) := by
      have old : other ∈ front ++ set :: back := by
        rcases List.mem_append.mp there with before | after
        · simp [before]
        · simp [after]
      exact (collects.sound other old).other (others other there) grown
    rcases List.mem_append.mp member with before | rest
    · exact known (List.mem_append_left _ before)
    · rcases List.mem_cons.mp rest with rfl | after
      · exact sound
      · exact known (List.mem_append_right _ after)
  · intro other member named otherParsed otherSplit
    have known (there : Pending) (old : there ∈ front ++ set :: back)
        (its : there.key.setKey = named.setKey) :
        ∃ s ∈ front ++ set' :: back, s.key.setKey = named.setKey := by
      rcases List.mem_append.mp old with before | rest
      · exact ⟨there, by simp [before], its⟩
      · rcases List.mem_cons.mp rest with rfl | after
        · exact ⟨set', by simp, key ▸ its⟩
        · exact ⟨there, by simp [after], its⟩
    rcases List.mem_append.mp member with old | new
    · obtain ⟨there, held, its⟩ :=
        collects.known other old named otherParsed otherSplit
      exact known there held its
    · cases List.mem_singleton.mp new
      rw [parsed] at otherParsed
      cases otherParsed
      exact known set (by simp) same
  · have counted := (held.map fun m => m.2.length).sum_eq
    rw [counted, List.map_append, List.sum_append, ← collects.bytes]

theorem Collects.slotted (vn : VolumeName) (change : Pending → Pending)
    (collects : Collects budget members passed c) :
    ∃ front back set,
      slot (fun p : Pending => p.key.sameSetAs vn) ⟨vn, [], false⟩
          c.pending = set ∧
        set.key.setKey = vn.setKey ∧
        update (fun p => p.key.sameSetAs vn) ⟨vn, [], false⟩ change
          c.pending = front ++ change set :: back ∧
        Collects budget members passed
          { c with pending := front ++ set :: back } := by
  cases found (fun p : Pending => p.key.sameSetAs vn) ⟨vn, [], false⟩ change
    c.pending with
  | old front back here passes changed =>
      refine ⟨front, back, _, rfl, VolumeName.sameSetAs_iff.mp passes, changed,
        ?_⟩
      rw [← here]
      exact collects
  | fresh none same changed =>
      exact ⟨c.pending, [], ⟨vn, [], false⟩, same, rfl, changed,
        collects.withEmpty none⟩

theorem Collects.step {m : Member} {state : List Member × Collector}
    (collects : Collects budget members passed c)
    (here : collect budget members = (passed, c))
    (step : Step passed c m state) :
    Collects budget (members ++ [m]) state.1 state.2 := by
  have now : (collect budget members).2 = c := by rw [here]
  cases step with
  | outside outside =>
      refine ⟨collects.budget_eq, ?_, collects.apart, ?_, ?_, collects.bytes,
        collects.bounded⟩
      · calc
          (members ++ [m]).Perm
              (passed ++ heldMembers c.pending ++ [m]) :=
            collects.accounted.append_right _
          List.Perm _ (passed ++ ([m] ++ heldMembers c.pending)) := by
            rw [List.append_assoc]
            exact List.perm_append_comm.append_left _
          _ = passed ++ [m] ++ heldMembers c.pending :=
            (List.append_assoc _ _ _).symm
      · intro set member
        exact (collects.sound set member).other (outside set.key) (Or.inr rfl)
      · intro other member vn parsed split
        rcases List.mem_append.mp member with old | new
        · exact collects.known other old vn parsed split
        · cases List.mem_singleton.mp new
          have inside := (inSet_iff parsed split).mpr (rfl : vn.setKey = _)
          rw [outside vn] at inside
          cases inside
  | lost vn parsed split refused =>
      obtain ⟨front, back, set, slotted, same, changed, collects⟩ :=
        collects.slotted vn fun p => { p with lostPart := true }
      rw [changed]
      rw [slotted] at refused
      have sound := collects.sound set (by simp)
      have inside := (inSet_iff parsed split).mpr same
      have marked := sound.losing inside fun fits => by
        rw [now] at fits
        obtain ⟨part, member, _⟩ := refused fits
        exact List.ne_nil_of_mem member
      exact @Collects.change budget members passed c front back set
        { set with lostPart := true } m vn [] [m] collects parsed split same
        rfl (List.append_nil set.parts).symm (List.nil_append [m]) marked
        collects.bounded
  | held vn parsed split fits free =>
      obtain ⟨front, back, set, slotted, same, changed, collects⟩ :=
        collects.slotted vn fun p =>
          { p with parts := p.parts ++ [⟨vn.index, m.1, m.2⟩] }
      rw [changed]
      rw [slotted] at free
      have sound := collects.sound set (by simp)
      have holds := sound.holding parsed split same (now ▸ fits) free
      have bounded : min (c.heldBytes + m.2.length) usizeMax ≤ budget := by
        have room : min (c.heldBytes + m.2.length) usizeMax ≤
            c.maxHeldBytes := of_decide_eq_true fits
        exact room.trans collects.budget_eq.le
      have taken := @Collects.change budget members passed c front back set
        { set with parts := set.parts ++ [⟨vn.index, m.1, m.2⟩] } m vn
        [⟨vn.index, m.1, m.2⟩] [] collects parsed split same rfl rfl rfl
        (by rwa [List.append_nil]) (by simpa [Part.member] using bounded)
      rw [List.append_nil] at taken
      simpa [Part.member] using taken

end

theorem collect_collects (budget : Nat) (members : List Member) :
    Collects budget members (collect budget members).1
      (collect budget members).2 := by
  induction members using List.reverseRecOn with
  | nil =>
      exact ⟨rfl, List.Perm.nil, List.nodup_nil, by simp [collect,
        Collector.new], by simp, rfl, Nat.zero_le _⟩
  | append_singleton members m ih =>
      rw [collect_snoc]
      exact ih.step rfl (offerMember_step _ _ m)

/-! ## Finishing -/

def Collector.joinedSets (c : Collector) : List Pending :=
  c.pending.filter fun set => set.refused.isNone

theorem Pending.sorted_perm (set : Pending) : set.sorted.Perm set.parts :=
  List.perm_insertionSort _ _

private theorem eq_range'_of_steps {idx : List Nat} {k : Nat}
    (steps : ((k :: idx).zip idx).all (fun (a, b) => b == a + 1) = true) :
    k :: idx = List.range' k (idx.length + 1) := by
  induction idx generalizing k with
  | nil => rfl
  | cons next idx ih =>
      simp only [List.zip_cons_cons, List.all_cons, Bool.and_eq_true,
        beq_iff_eq] at steps
      have rest := ih steps.2
      rw [List.length_cons, List.range'_succ, rest, steps.1]

theorem complete_iff {idx : List Nat} :
    complete idx = true → idx = List.range idx.length := by
  intro complete
  cases idx with
  | nil => rfl
  | cons k idx =>
      simp only [Volume.complete, List.head?_cons, List.tail_cons,
        Bool.and_eq_true, beq_iff_eq, Option.some.injEq] at complete
      obtain ⟨rfl, steps⟩ := complete
      rw [List.range_eq_range', List.length_cons]
      exact eq_range'_of_steps steps

/-- What is resolved of a set: the parts joined, or those handed back. -/
theorem finish_accounts (pending : List Pending) :
    (heldMembers pending).Perm
      ((pending.filter fun set => set.refused.isNone).flatMap
          (fun set => set.sorted.map Part.member) ++
        (pending.flatMap fun set =>
          match set.refused with
          | some reason => set.unjoin reason
          | none => []).map fun u => (u.name, u.data)) := by
  induction pending with
  | nil => exact List.Perm.nil
  | cons set pending ih =>
      have here : (set.parts.map Part.member).Perm
          (set.sorted.map Part.member) :=
        (set.sorted_perm.map _).symm
      have back (reason : Option String) :
          (set.unjoin reason).map (fun u => (u.name, u.data)) =
            set.sorted.map Part.member := by
        simp [Pending.unjoin, Part.member]
      rw [heldMembers, List.flatMap_cons, ← heldMembers]
      cases refused : set.refused with
      | none =>
          simp only [List.filter_cons, refused, Option.isNone_none, if_true,
            List.flatMap_cons, List.nil_append, List.append_assoc]
          exact here.append ih
      | some reason =>
          simp only [List.filter_cons, refused, Option.isNone_some,
            Bool.false_eq_true, if_false, List.flatMap_cons, List.map_append,
            back]
          refine (here.append ih).trans ?_
          rw [← List.append_assoc, ← List.append_assoc]
          exact List.perm_append_comm.append_right _

structure Pending.Whole (passed : List Member) (set : Pending) : Prop where
  indices : set.sorted.map Part.index = List.range set.sorted.length
  several : 2 ≤ set.sorted.length
  placed : ∀ part ∈ set.sorted, part.PlacedIn set.key
  undropped : ∀ m ∈ passed, inSet set.key m.1 = false

/-- A set is reported through the parts that are handed back. -/
def ReportedIncomplete (fin : Finished) (key : VolumeName) : Prop :=
  (∃ u ∈ fin.unjoined, inSet key u.name = true) ∧
    ∀ u ∈ fin.unjoined, inSet key u.name = true → u.incompleteSet.isSome

/-- Collecting the members loses none and joins whole sets only: every member is
passed through, in a joined set, or handed back; what is held fits the budget
after every member; and a set of several parts is joined or reported. -/
structure LosesNothing (budget : Nat) (members : List Member) : Prop where
  accounted : members.Perm ((collect budget members).1 ++
    (collect budget members).2.joinedSets.flatMap
      (fun set => set.sorted.map Part.member) ++
    (collect budget members).2.finish.unjoined.map fun u => (u.name, u.data))
  joined : (collect budget members).2.finish.joined =
    (collect budget members).2.joinedSets.map fun set =>
      ⟨set.key.setName, set.sorted.flatMap Part.data, set.sorted.map Part.name⟩
  whole : ∀ set ∈ (collect budget members).2.joinedSets,
    set.Whole (collect budget members).1
  bounded : ∀ before, before <+: members →
    budget < usizeMax ∨ (members.map fun m => m.2.length).sum ≤ usizeMax →
    ((heldMembers (collect budget before).2.pending).map
      fun m => m.2.length).sum ≤ budget
  reported : ∀ key, 2 ≤ (members.filter fun m => inSet key m.1).length →
    (∃ set ∈ (collect budget members).2.joinedSets,
      set.key.sameSetAs key = true) ∨
    ReportedIncomplete (collect budget members).2.finish key

/-- Every set of which several parts are offered has a part that fits in what is
left of the budget when it is offered. -/
def EverySetFits (budget : Nat) (members : List Member) : Prop :=
  ∀ key, 2 ≤ (members.filter fun m => inSet key m.1).length →
    FitsSome budget members key

section

variable {budget : Nat} {members passed : List Member} {c : Collector}

theorem whole_of_joined {set : Pending}
    (collects : Collects budget members passed c)
    (joined : set ∈ c.joinedSets) : set.Whole passed := by
  obtain ⟨held, open_⟩ := List.mem_filter.mp joined
  have sound := collects.sound set held
  have length : set.sorted.length = set.parts.length :=
    set.sorted_perm.length_eq
  have resolved : set.refused = none := by simpa using open_
  unfold Pending.refused at resolved
  dsimp only at resolved
  split at resolved
  · cases resolved
  case isFalse kept =>
      split at resolved
      · cases resolved
      case isFalse several =>
          split at resolved
          case isTrue gapless =>
              refine ⟨?_, by omega, ?_, ?_⟩
              · have idx := complete_iff gapless
                rwa [List.length_map] at idx
              · intro part member
                exact sound.placed part (set.sorted_perm.mem_iff.mp member)
              · intro m member
                by_contra inside
                have inside : inSet set.key m.1 = true := by simpa using inside
                exact kept (sound.lost.mpr ⟨m, member, inside⟩)
          case isFalse =>
              split at resolved
              · cases resolved
              · cases resolved

theorem refused_without_reason {set : Pending}
    (alone : set.refused = some none) :
    set.lostPart = false ∧ set.parts.length < 2 := by
  unfold Pending.refused at alone
  dsimp only at alone
  split at alone
  · cases alone
  case isFalse kept =>
      split at alone
      case isTrue few => exact ⟨by simpa using kept, few⟩
      case isFalse =>
          split at alone
          · cases alone
          · split at alone <;> cases alone

theorem mem_unjoined {u : Unjoined} (member : u ∈ c.finish.unjoined) :
    ∃ set ∈ c.pending, ∃ part ∈ set.parts, part.name = u.name ∧
      set.refused = some u.incompleteSet := by
  obtain ⟨set, held, here⟩ := List.mem_flatMap.mp member
  cases refused : set.refused with
  | none => simp [refused] at here
  | some reason =>
      simp only [refused, Pending.unjoin] at here
      obtain ⟨part, source, rfl⟩ := List.mem_map.mp here
      exact ⟨set, held, part, set.sorted_perm.mem_iff.mp source, rfl, refused⟩

theorem unjoined_of_refused {set : Pending} {part : Part}
    {reason : Option String} (held : set ∈ c.pending)
    (source : part ∈ set.parts) (refused : set.refused = some reason) :
    ∃ u ∈ c.finish.unjoined, u.name = part.name := by
  refine ⟨⟨part.name, part.data, reason⟩, ?_, rfl⟩
  apply List.mem_flatMap.mpr ⟨set, held, ?_⟩
  simp only [refused]
  exact List.mem_map.mpr
    ⟨part, set.sorted_perm.mem_iff.mpr source, rfl⟩

theorem Collects.set_of_offered {key : VolumeName}
    (collects : Collects budget members passed c)
    (some : (members.filter fun m => inSet key m.1) ≠ []) :
    ∃ set ∈ c.pending, set.key.setKey = key.setKey := by
  obtain ⟨m, offered⟩ := List.exists_mem_of_ne_nil _ some
  obtain ⟨member, inside⟩ := List.mem_filter.mp offered
  cases parsed : parse m.1 with
  | none => simp [inSet, parsed] at inside
  | some vn =>
      have split : vn.scheme.isByteSplit = true := by
        simp only [inSet, parsed, Bool.and_eq_true] at inside
        exact inside.1
      obtain ⟨set, held, same⟩ := collects.known m member vn parsed split
      exact ⟨set, held, same.trans ((inSet_iff parsed split).mp inside).symm⟩

theorem Collects.offered_le {set : Pending} {key : VolumeName}
    (collects : Collects budget members passed c) (held : set ∈ c.pending)
    (same : set.key.setKey = key.setKey) (kept : set.lostPart = false) :
    (members.filter fun m => inSet key m.1).length ≤ set.parts.length := by
  have sound := collects.sound set held
  have undropped : passed.filter (fun m => inSet key m.1) = [] := by
    apply List.filter_eq_nil_iff.mpr
    intro m member inside
    rw [← inSet_congr same] at inside
    rw [sound.lost.mpr ⟨m, member, inside⟩] at kept
    cases kept
  obtain ⟨front, back, split⟩ := List.append_of_mem held
  have apart := collects.apart
  rw [split, List.map_append, List.map_cons, List.nodup_append,
    List.nodup_cons] at apart
  have none {other : Pending} (there : other ∈ c.pending)
      (different : other.key.setKey ≠ set.key.setKey) :
      (other.parts.map Part.member).filter (fun m => inSet key m.1) = [] := by
    apply List.filter_eq_nil_iff.mpr
    intro m member inside
    obtain ⟨part, source, rfl⟩ := List.mem_map.mp member
    obtain ⟨vn, parsed, isSplit, its, _⟩ :=
      (collects.sound other there).placed part source
    have here := (inSet_iff parsed isSplit).mp inside
    exact different (its.trans (here.symm.trans same.symm))
  have outer {others : List Pending}
      (there : ∀ other ∈ others, other ∈ c.pending)
      (different : ∀ other ∈ others, other.key.setKey ≠ set.key.setKey) :
      (heldMembers others).filter (fun m => inSet key m.1) = [] := by
    rw [heldMembers, List.filter_flatMap]
    apply List.flatMap_eq_nil_iff.mpr
    intro other member
    exact none (there other member) (different other member)
  have whole : (heldMembers c.pending).filter (fun m => inSet key m.1) =
      (set.parts.map Part.member).filter fun m => inSet key m.1 := by
    have parts : heldMembers c.pending = heldMembers front ++
        (set.parts.map Part.member ++ heldMembers back) := by
      simp [heldMembers, split]
    rw [parts, List.filter_append, List.filter_append, outer, outer]
    · simp
    · intro other member
      simp [split, member]
    · intro other member its
      exact apart.2.1.1 (its ▸ List.mem_map_of_mem member)
    · intro other member
      simp [split, member]
    · intro other member its
      exact apart.2.2 _ (List.mem_map_of_mem member) _ (by simp) its
  have counted := (collects.accounted.filter fun m => inSet key m.1).length_eq
  rw [counted, List.filter_append, undropped, whole, List.nil_append]
  exact (List.length_filter_le _ _).trans (List.length_map _).le

theorem Collects.reported_of_held {set : Pending} {key : VolumeName}
    (collects : Collects budget members passed c) (held : set ∈ c.pending)
    (same : set.key.setKey = key.setKey) (used : set.parts ≠ [])
    (several : 2 ≤ (members.filter fun m => inSet key m.1).length) :
    (∃ set ∈ c.joinedSets, set.key.sameSetAs key = true) ∨
      ReportedIncomplete c.finish key := by
  cases refused : set.refused with
  | none =>
      exact Or.inl ⟨set, List.mem_filter.mpr ⟨held, by simp [refused]⟩,
        VolumeName.sameSetAs_iff.mpr same⟩
  | some reason =>
      refine Or.inr ⟨?_, ?_⟩
      · obtain ⟨part, source⟩ := List.exists_mem_of_ne_nil _ used
        obtain ⟨u, member, name⟩ := unjoined_of_refused held source refused
        obtain ⟨vn, parsed, split, its, _⟩ :=
          (collects.sound set held).placed part source
        refine ⟨u, member, ?_⟩
        rw [name]
        exact (inSet_iff parsed split).mpr (same.symm.trans its)
      · intro u member inside
        obtain ⟨other, there, part, source, name, why⟩ := mem_unjoined member
        obtain ⟨vn, parsed, split, its, _⟩ :=
          (collects.sound other there).placed part source
        rw [← name] at inside
        have key := (inSet_iff parsed split).mp inside
        cases reason : u.incompleteSet with
        | some _ => rfl
        | none =>
            -- A part handed back without a reason is on its own.
            rw [reason] at why
            obtain ⟨kept, few⟩ := refused_without_reason why
            have all := collects.offered_le there (its.trans key.symm) kept
            omega

/-- Collecting loses nothing if and only if every set of which several parts
are offered has a part that fits when it is offered. -/
theorem losesNothing_iff (budget : Nat) (members : List Member) :
    LosesNothing budget members ↔ EverySetFits budget members := by
  have collects := collect_collects budget members
  constructor
  · intro loses key several
    have inPending : ∃ set ∈ (collect budget members).2.pending,
        set.parts ≠ [] ∧ set.key.setKey = key.setKey := by
      rcases loses.reported key several with joined | ⟨some, _⟩
      · obtain ⟨set, joined, same⟩ := joined
        have whole := whole_of_joined collects joined
        have held := (List.mem_filter.mp joined).1
        refine ⟨set, held, ?_, VolumeName.sameSetAs_iff.mp same⟩
        intro none
        have length := set.sorted_perm.length_eq
        rw [none] at length
        have several := whole.several
        rw [length] at several
        cases several
      · obtain ⟨u, member, inside⟩ := some
        obtain ⟨set, held, part, source, name, _⟩ := mem_unjoined member
        obtain ⟨vn, parsed, split, its, _⟩ :=
          (collects.sound set held).placed part source
        rw [← name] at inside
        exact ⟨set, held, List.ne_nil_of_mem source,
          its.trans ((inSet_iff parsed split).mp inside).symm⟩
    obtain ⟨set, held, used, same⟩ := inPending
    obtain ⟨before, part, after, here, inside, fits⟩ :=
      (collects.sound set held).used.mp used
    exact ⟨before, part, after, here, inSet_congr same part.1 ▸ inside, fits⟩
  · intro fit
    refine ⟨?_, rfl, ?_, ?_, ?_⟩
    · refine collects.accounted.trans ?_
      rw [List.append_assoc]
      exact (finish_accounts _).append_left _
    · exact fun set joined => whole_of_joined collects joined
    · intro before front small
      have past := collect_collects budget before
      have total : (before.map fun m => m.2.length).sum ≤
          (members.map fun m => m.2.length).sum := by
        obtain ⟨after, rfl⟩ := front
        simp
      have part : ((heldMembers (collect budget before).2.pending).map
          fun m => m.2.length).sum ≤ (before.map fun m => m.2.length).sum := by
        have counted := (past.accounted.map fun m => m.2.length).sum_eq
        rw [counted, List.map_append, List.sum_append]
        exact Nat.le_add_left _ _
      have bounded := past.bounded
      rw [past.bytes] at bounded
      rcases small with small | small
      · rcases min_le_iff.mp bounded with fits | full
        · exact fits
        · exact absurd full (not_le.mpr small)
      · rwa [min_eq_left (part.trans (total.trans small))] at bounded
    · intro key several
      have some : (members.filter fun m => inSet key m.1) ≠ [] := by
        intro none
        rw [none] at several
        cases several
      obtain ⟨set, held, same⟩ := collects.set_of_offered some
      have used : set.parts ≠ [] := by
        apply (collects.sound set held).used.mpr
        obtain ⟨before, part, after, here, inside, fits⟩ := fit key several
        exact ⟨before, part, after, here,
          inSet_congr same part.1 ▸ inside, fits⟩
      exact collects.reported_of_held held same used several

end

/-- Two parts of a set that do not fit are passed through, and nothing is left
to report the set by. -/
theorem not_losesNothing_unheld :
    ¬LosesNothing 0 [("x.7z.001".toList, [0x41]), ("x.7z.002".toList, [0x42])] := by
  intro loses
  have several := loses.reported ⟨['x'], 0, .numberedSuffix ['7', 'z'] 3⟩
    (by decide)
  have nothing : (collect 0 [("x.7z.001".toList, [0x41]),
      ("x.7z.002".toList, [0x42])]).2.pending.all
        (fun set => set.parts.isEmpty && set.lostPart) = true := by
    decide
  rcases several with ⟨set, joined, _⟩ | ⟨⟨u, member, _⟩, _⟩
  · obtain ⟨held, open_⟩ := List.mem_filter.mp joined
    have here := List.all_eq_true.mp nothing set held
    simp only [Bool.and_eq_true] at here
    simp [Pending.refused, here.2] at open_
  · obtain ⟨set, held, part, source, _⟩ := mem_unjoined member
    have here := List.all_eq_true.mp nothing set held
    simp only [Bool.and_eq_true, List.isEmpty_iff] at here
    rw [here.1] at source
    cases source

end Exav.Volume
