import Exav.Engine.AnchorChoice
import Exav.Lib.Table

/-!
# Pinned bodies

A body whose offset allows few pattern starts is not swept for.  Its anchor is
looked for where those starts put it: start by start through a table of the
first two bytes of the anchors that share the offset, or in the whole window
where that is wide.
-/

namespace Exav.Engine

open Exav.Table Exav.Visit

/-- Widest window of starts a pinned body may have. -/
def maxWindow : Nat := 4096

/-- Widest window checked a start at a time. -/
def maxStepped : Nat := 64

/-- Where a body's anchor sits past a start, its first two bytes folded, and
the body. -/
structure Entry where
  dist : Nat
  key : Nat
  body : Nat
  deriving DecidableEq

/-- Bodies that share one offset. -/
structure Group where
  offset : Offset
  dists : List Nat
  entries : List Entry

/-- The pinned bodies of an engine. -/
structure Pins where
  groups : List Group
  wide : List Nat

def OffsetKind.shift? : OffsetKind → Option Nat
  | .abs _ shift | .eof _ shift | .ep _ shift | .sec _ _ shift
  | .secLast _ shift => some shift
  | .secIn _ | .versionInfo => none

/-- How far past a pattern start its anchor sits, where that is fixed. -/
def Prefix.dist? : Prefix → Option Nat
  | .fixed _ len => some len
  | .floating _ => some 0
  | .internal _ => none

/-- The width of the window of a pinned body and where its anchor sits past its
start. -/
def pinned (body : Body) : Option (Nat × Nat) :=
  match body.offset with
  | .any => none
  | .constrained kind => do
      let shift ← kind.shift?
      let dist ← body.bodyPrefix.dist?
      if shift ≤ maxWindow then some (shift, dist) else none

def literalAnchor (body : Body) : Bytes :=
  match (body.elems.getD [])[body.bodyPrefix.anchorIdx]? with
  | some (.bytes b) => b
  | _ => []

def key (a : Bytes) : Nat :=
  (fold (byteAt a 0)).toNat + 256 * (fold (byteAt a 1)).toNat

namespace Entry

def hasKey (dist key : Nat) (e : Entry) : Bool :=
  e.dist == dist && e.key == key

def below (dist key : Nat) (e : Entry) : Bool :=
  e.dist < dist || (e.dist == dist && e.key < key)

/-- Lexicographic order. -/
def le (e f : Entry) : Bool :=
  e.below f.dist f.key || (e.hasKey f.dist f.key && e.body ≤ f.body)

end Entry

/-! ## Taking the pinned bodies out -/

def addEntry (offset : Offset) (e : Entry) : List Group → List Group
  | [] => [⟨offset, [], [e]⟩]
  | g :: groups =>
      if g.offset = offset then { g with entries := g.entries ++ [e] } :: groups
      else g :: addEntry offset e groups

/-- A pinned pure literal gets its anchor back as its pattern. -/
def Body.withAnchor (body : Body) (anchor : Bytes) : Body :=
  if (pinned body).isSome ∧ body.elems.isNone then
    { body with elems := some [.bytes anchor], bodyPrefix := .fixed 0 0 }
  else body

def Pins.add (anchors : Nat → Bytes) (pins : Pins) (item : Body × Nat) : Pins :=
  let (body, id) := item
  match pinned body with
  | none => pins
  | some (shift, dist) =>
      if shift > maxStepped then { pins with wide := pins.wide ++ [id] }
      else
        let anchor := literalAnchor (body.withAnchor (anchors id))
        { pins with groups :=
            addEntry body.offset ⟨dist, key anchor, id⟩ pins.groups }

def Group.derive (g : Group) : Group :=
  let entries := g.entries.mergeSort Entry.le
  { g with entries := entries, dists := (entries.map Entry.dist).dedup }

/-- What taking the pinned bodies out leaves. -/
structure Taken where
  pins : Pins
  bodies : List Body
  taken : List Bool

/-- Take the pinned bodies out of the anchoring of `bodies`; `anchors` are the
anchors by body. -/
def Pins.take (bodies : List Body) (anchors : Nat → Bytes) : Taken :=
  let pins := bodies.zipIdx.foldl (Pins.add anchors) ⟨[], []⟩
  { pins := { pins with groups := pins.groups.map Group.derive }
    bodies := bodies.zipIdx.map fun (body, id) => body.withAnchor (anchors id)
    taken := bodies.map fun body => (pinned body).isSome }

/-! ## Checking them in an object -/

section

variable (buf : Bytes) (layout : Option PeLayout)

/-- The places `d` past a start `s` of the group: each body whose anchor's first
two bytes are there. -/
def Group.placesFor (g : Group) (s d : Nat) : List (Nat × Nat) :=
  -- Past the largest size there is nothing to read.
  if s + d > usizeMax then []
  else
    let w := window buf (s + d) 2
    if w.length < 2 then []
    else
      (bucket (Entry.below d (key w)) (Entry.hasKey d (key w)) g.entries).map
        fun e => (e.body, s + d)

def Group.placesAt (g : Group) (s : Nat) : List (Nat × Nat) :=
  g.dists.flatMap (g.placesFor buf s)

def Group.places (g : Group) : List (Nat × Nat) :=
  match startSet g.offset buf.length layout with
  | some (.range lo hi) =>
      (List.range' lo (min hi buf.length + 1 - lo)).flatMap (g.placesAt buf)
  | _ => []

/-- Every occurrence in `w` from `p` on, one search after the other. -/
def searchAll (w a : Bytes) : Nat → Nat → List Nat
  | 0, _ => []
  | fuel + 1, p =>
      match find w a p w.length with
      | none => []
      | some q => q :: searchAll w a fuel (q + 1)

/-- The occurrences of `a` that lie in `start..stop`. -/
def searchIn (hay a : Bytes) (start stop : Nat) : List Nat :=
  if start ≥ stop then []
  else
    let w := window hay start (stop - start)
    (searchAll w a (w.length + 1) 0).map (start + ·)

def Body.widePlaces (body : Body) : List Nat :=
  match startSet body.offset buf.length layout with
  | some (.range lo hi) =>
      let dist := ((pinned body).map (·.2)).getD 0
      let a := literalAnchor body
      let start := saturatingAdd lo dist
      let stop := min (saturatingAdd (saturatingAdd hi dist) a.length) buf.length
      searchIn (haystack body.nocase buf) (haystack body.nocase a) start stop
  | _ => []

def searchedPlaces (bodies : List Body) (wide : List Nat) : List (Nat × Nat) :=
  wide.flatMap fun b =>
    ((bodies[b]?.map (Body.widePlaces buf layout)).getD []).map (b, ·)

/-- Every place a pinned body could match, as the body and where its anchor
starts. -/
def Pins.places (pins : Pins) (bodies : List Body) : List (Nat × Nat) :=
  pins.groups.flatMap (Group.places buf layout) ++
    searchedPlaces buf layout bodies pins.wide

/-- Hand `f` the places of the bodies `wanted` keeps; `false` when `f` asks to
stop. -/
def Pins.visit {σ : Type} (pins : Pins) (bodies : List Body)
    (wanted : Body → Bool) (f : σ → Nat × Nat → σ × Bool) (state : σ) :
    σ × Bool :=
  visitAll f state ((pins.places buf layout bodies).filter fun (b, _) =>
    (bodies[b]?.map wanted).getD false)

def verifyPlace (bodies : List Body) (state : List (Nat × Nat) × Pools)
    (place : Nat × Nat) : (List (Nat × Nat) × Pools) × Bool :=
  let (found, pools) := state
  match bodies[place.1]? with
  | none => ((found, pools), true)
  | some body =>
      let (start, pools) := verify body buf layout place.2 pools
      ((found ++ (start.map (place.1, ·)).toList, pools), true)

def Pins.matches (pins : Pins) (bodies : List Body) (pools : Pools) :
    List (Nat × Nat) :=
  (pins.visit buf layout bodies (fun _ => true) (verifyPlace buf layout bodies)
    ([], pools)).1.1

end

/-! ## What is taken out -/

def narrowEntry (anchors : Nat → Bytes) (offset : Offset) (item : Body × Nat) :
    Option Entry :=
  match pinned item.1 with
  | none => none
  | some (shift, dist) =>
      if shift ≤ maxStepped ∧ item.1.offset = offset then
        some ⟨dist, key (literalAnchor (item.1.withAnchor (anchors item.2))),
          item.2⟩
      else none

/-- A body whose window is searched. -/
def isWide (body : Body) : Bool :=
  (pinned body).any fun (shift, _) => shift > maxStepped

/-- `pins` hold the pinned ones of `items`: each offset has one group, with the
entries of its bodies. -/
structure Pins.Hold (anchors : Nat → Bytes) (items : List (Body × Nat))
    (pins : Pins) : Prop where
  distinct : (pins.groups.map Group.offset).Nodup
  entries : ∀ g ∈ pins.groups,
    g.entries = items.filterMap (narrowEntry anchors g.offset)
  grouped : ∀ item ∈ items, ∀ offset, (narrowEntry anchors offset item).isSome →
    ∃ g ∈ pins.groups, g.offset = offset
  wide : pins.wide = (items.filter fun item => isWide item.1).map (·.2)

section

variable {anchors : Nat → Bytes} {offset : Offset} {e : Entry}
  {groups : List Group}

theorem addEntry_offsets :
    (addEntry offset e groups).map Group.offset =
      if offset ∈ groups.map Group.offset then groups.map Group.offset
      else groups.map Group.offset ++ [offset] := by
  induction groups with
  | nil => rfl
  | cons g groups ih =>
      rw [addEntry]
      by_cases same : g.offset = offset
      · simp [same]
      · have other : offset ≠ g.offset := fun equal => same equal.symm
        simp only [same, if_false, List.map_cons, ih, List.mem_cons, other,
          false_or]
        split <;> rfl

theorem addEntry_distinct (distinct : (groups.map Group.offset).Nodup) :
    ((addEntry offset e groups).map Group.offset).Nodup := by
  rw [addEntry_offsets]
  split
  case isTrue => exact distinct
  case isFalse fresh =>
    rw [List.nodup_append]
    refine ⟨distinct, List.nodup_singleton offset, ?_⟩
    intro a member b single
    rw [List.mem_singleton.mp single]
    exact fun same => fresh (same ▸ member)

/-- The group of the offset gains the entry, or is made; the others stay. -/
theorem mem_addEntry {g : Group} (distinct : (groups.map Group.offset).Nodup)
    (member : g ∈ addEntry offset e groups) :
    (g ∈ groups ∧ g.offset ≠ offset) ∨
      (g.offset = offset ∧
        ((∃ old ∈ groups, old.offset = offset ∧
            g.entries = old.entries ++ [e]) ∨
          ((∀ old ∈ groups, old.offset ≠ offset) ∧ g.entries = [e]))) := by
  induction groups with
  | nil =>
      have same := List.mem_singleton.mp member
      subst same
      exact Or.inr ⟨rfl, Or.inr ⟨by simp, rfl⟩⟩
  | cons first groups ih =>
      obtain ⟨fresh, rest⟩ := List.nodup_cons.mp distinct
      rw [addEntry] at member
      by_cases same : first.offset = offset
      · rw [if_pos same] at member
        rcases List.mem_cons.mp member with here | later
        · subst here
          exact Or.inr ⟨same, Or.inl ⟨first, by simp, same, rfl⟩⟩
        · refine Or.inl ⟨by simp [later], ?_⟩
          intro equal
          exact fresh (List.mem_map.mpr ⟨g, later, equal.trans same.symm⟩)
      · rw [if_neg same] at member
        rcases List.mem_cons.mp member with here | later
        · subst here
          exact Or.inl ⟨by simp, same⟩
        · rcases ih rest later with ⟨inside, other⟩ | ⟨there, grown⟩
          · exact Or.inl ⟨by simp [inside], other⟩
          · refine Or.inr ⟨there, ?_⟩
            rcases grown with ⟨old, inside, equal, entries⟩ | ⟨none, entries⟩
            · exact Or.inl ⟨old, by simp [inside], equal, entries⟩
            · refine Or.inr ⟨?_, entries⟩
              intro old inside
              rcases List.mem_cons.mp inside with rfl | inside
              · exact same
              · exact none old inside

theorem Pins.Hold.skip {items : List (Body × Nat)} {pins : Pins}
    {item : Body × Nat} {wide : List Nat} (hold : pins.Hold anchors items)
    (nothing : ∀ offset, narrowEntry anchors offset item = none)
    (widened : wide =
      ((items ++ [item]).filter fun item => isWide item.1).map (·.2)) :
    Pins.Hold anchors (items ++ [item]) ⟨pins.groups, wide⟩ := by
  refine ⟨hold.distinct, ?_, ?_, widened⟩
  · intro g member
    simp [hold.entries g member, nothing]
  · intro other member offset entry
    rcases List.mem_append.mp member with before | last
    · exact hold.grouped other before offset entry
    · rw [List.mem_singleton.mp last, nothing] at entry
      cases entry

theorem Pins.Hold.enter {items : List (Body × Nat)} {pins : Pins}
    {item : Body × Nat} (hold : pins.Hold anchors items)
    (here : narrowEntry anchors offset item = some e)
    (elsewhere : ∀ other, other ≠ offset →
      narrowEntry anchors other item = none)
    (narrow : isWide item.1 = false) :
    Pins.Hold anchors (items ++ [item])
      { pins with groups := addEntry offset e pins.groups } := by
  refine ⟨addEntry_distinct hold.distinct, ?_, ?_, ?_⟩
  · intro g member
    rw [List.filterMap_append]
    rcases mem_addEntry hold.distinct member with ⟨inside, other⟩ |
      ⟨there, grown⟩
    · simp [hold.entries g inside, elsewhere g.offset other]
    · rw [there]
      rcases grown with ⟨old, inside, same, entries⟩ | ⟨none, entries⟩
      · rw [entries, hold.entries old inside, same]
        simp [here]
      · -- A new group: no body before had the offset.
        have before : items.filterMap (narrowEntry anchors offset) = [] := by
          apply List.filterMap_eq_nil_iff.mpr
          intro other member
          by_contra some
          obtain ⟨old, inside, same⟩ := hold.grouped other member offset
            (Option.isSome_iff_ne_none.mpr some)
          exact none old inside same
        rw [entries, before]
        simp [here]
  · intro other member o entry
    have offsets : o ∈ (addEntry offset e pins.groups).map Group.offset := by
      rw [addEntry_offsets]
      rcases List.mem_append.mp member with before | last
      · obtain ⟨g, inside, same⟩ := hold.grouped other before o entry
        have present : o ∈ pins.groups.map Group.offset :=
          List.mem_map.mpr ⟨g, inside, same⟩
        split
        case isTrue => exact present
        case isFalse => exact List.mem_append.mpr (Or.inl present)
      · rw [List.mem_singleton.mp last] at entry
        have same : o = offset := by
          by_contra different
          rw [elsewhere o different] at entry
          cases entry
        rw [same]
        split
        case isTrue present => exact present
        case isFalse => simp
    obtain ⟨g, inside, same⟩ := List.mem_map.mp offsets
    exact ⟨g, inside, same⟩
  · simp [hold.wide, narrow]

theorem Pins.Hold.add {items : List (Body × Nat)} {pins : Pins}
    (hold : pins.Hold anchors items) (item : Body × Nat) :
    (pins.add anchors item).Hold anchors (items ++ [item]) := by
  obtain ⟨body, id⟩ := item
  rw [Pins.add]
  cases kind : pinned body with
  | none =>
      apply hold.skip
      · intro offset
        simp [narrowEntry, kind]
      · simp [hold.wide, isWide, kind]
  | some window =>
      obtain ⟨shift, dist⟩ := window
      by_cases far : shift > maxStepped
      · simp only [far, if_true]
        apply hold.skip
        · intro offset
          have beyond : ¬shift ≤ maxStepped := Nat.not_le.mpr far
          simp [narrowEntry, kind, beyond]
        · simp [hold.wide, isWide, kind, far]
      · have near : shift ≤ maxStepped := Nat.not_lt.mp far
        simp only [far, if_false]
        apply hold.enter
        · simp [narrowEntry, kind, near]
        · intro other different
          have apart : ¬body.offset = other := fun same => different same.symm
          simp [narrowEntry, kind, apart]
        · simp [isWide, kind, near]

theorem hold_take (bodies : List Body) :
    Pins.Hold anchors bodies.zipIdx
      (bodies.zipIdx.foldl (Pins.add anchors) ⟨[], []⟩) := by
  induction bodies.zipIdx using List.reverseRecOn with
  | nil => exact ⟨by simp, by simp, by simp, rfl⟩
  | append_singleton items item ih =>
      rw [List.foldl_append]
      exact ih.add item

/-! ## The places of one body -/

theorem Entry.hasKey_iff {d k : Nat} :
    e.hasKey d k = true ↔ e.dist = d ∧ e.key = k := by
  simp [Entry.hasKey]

theorem Entry.below_iff {d k : Nat} :
    e.below d k = true ↔ e.dist < d ∨ e.dist = d ∧ e.key < k := by
  simp [Entry.below]

theorem Entry.le_iff {f : Entry} :
    e.le f = true ↔ (e.dist < f.dist ∨ e.dist = f.dist ∧ e.key < f.key) ∨
      (e.dist = f.dist ∧ e.key = f.key) ∧ e.body ≤ f.body := by
  simp [Entry.le, Entry.below, Entry.hasKey]

theorem bucket_mergeSort (entries : List Entry) (d k : Nat) :
    bucket (Entry.below d k) (Entry.hasKey d k) (entries.mergeSort Entry.le) =
      (entries.mergeSort Entry.le).filter (Entry.hasKey d k) := by
  have sorted : (entries.mergeSort Entry.le).Pairwise fun e f =>
      e.le f = true := by
    apply List.pairwise_mergeSort
    · intro e f g first second
      rw [Entry.le_iff] at *
      omega
    · intro e f
      rw [Bool.or_eq_true, Entry.le_iff, Entry.le_iff]
      omega
  apply bucket_eq_filter
  · intro e low
    rw [Entry.below_iff] at low
    rw [← Bool.not_eq_true, Entry.hasKey_iff]
    omega
  · refine sorted.imp ?_
    intro e f ordered
    rw [Entry.le_iff] at ordered
    rw [Entry.below_iff, Entry.below_iff, Entry.hasKey_iff, Entry.hasKey_iff]
    omega

/-- The start `s` leads to the entry: the first two bytes of its anchor are
where the anchor would be. -/
def Entry.LeadsTo (buf : Bytes) (s : Nat) (e : Entry) : Prop :=
  s + e.dist ≤ usizeMax ∧ 2 ≤ (window buf (s + e.dist) 2).length ∧
    e.key = Engine.key (window buf (s + e.dist) 2)

instance (buf : Bytes) (s : Nat) (e : Entry) : Decidable (e.LeadsTo buf s) :=
  inferInstanceAs (Decidable (_ ∧ _))

section

variable {buf : Bytes} {layout : Option PeLayout} {g : Group}

theorem placesFor_derive (g : Group) (s d : Nat) :
    g.derive.placesFor buf s d =
      ((g.entries.mergeSort Entry.le).filter fun e =>
        e.dist = d ∧ e.LeadsTo buf s).map fun e => (e.body, s + d) := by
  have entries : g.derive.entries = g.entries.mergeSort Entry.le := rfl
  rw [Group.placesFor, entries]
  dsimp only
  split_ifs with past short
  · symm
    simp only [List.map_eq_nil_iff, List.filter_eq_nil_iff]
    intro e _ found
    obtain ⟨rfl, near, _⟩ := of_decide_eq_true found
    omega
  · symm
    simp only [List.map_eq_nil_iff, List.filter_eq_nil_iff]
    intro e _ found
    obtain ⟨rfl, _, long, _⟩ := of_decide_eq_true found
    omega
  · rw [bucket_mergeSort]
    congr 1
    apply List.filter_congr
    intro e _
    rw [Bool.eq_iff_iff, Entry.hasKey_iff, decide_eq_true_eq, Entry.LeadsTo]
    constructor
    · intro has
      obtain ⟨rfl, same⟩ := has
      exact ⟨rfl, Nat.not_lt.mp past, Nat.not_lt.mp short, same⟩
    · intro has
      obtain ⟨rfl, _, _, same⟩ := has
      exact ⟨rfl, same⟩

theorem mem_placesAt {s : Nat} {place : Nat × Nat}
    (member : place ∈ g.derive.placesAt buf s) :
    ∃ e ∈ g.entries, e.body = place.1 := by
  obtain ⟨d, _, inside⟩ := List.mem_flatMap.mp member
  rw [placesFor_derive] at inside
  obtain ⟨e, kept, same⟩ := List.mem_map.mp inside
  refine ⟨e, List.mem_mergeSort.mp (List.mem_filter.mp kept).1, ?_⟩
  rw [← same]

theorem placesAt_filter (distinct : g.entries.Nodup) (member : e ∈ g.entries)
    (one : ∀ f ∈ g.entries, f.body = e.body → f = e) (s : Nat) :
    (g.derive.placesAt buf s).filter (fun place => place.1 == e.body) =
      if e.LeadsTo buf s then [(e.body, s + e.dist)] else [] := by
  have sortedMember {f : Entry} : f ∈ g.entries.mergeSort Entry.le ↔
      f ∈ g.entries :=
    List.mem_mergeSort
  have sorted : (g.entries.mergeSort Entry.le).Nodup :=
    (List.mergeSort_perm g.entries Entry.le).nodup_iff.mpr distinct
  have here (d : Nat) :
      (g.derive.placesFor buf s d).filter (fun place => place.1 == e.body) =
        if e.dist = d ∧ e.LeadsTo buf s then [(e.body, s + d)] else [] := by
    rw [placesFor_derive, List.filter_map]
    by_cases leads : e.dist = d ∧ e.LeadsTo buf s
    · rw [if_pos leads, List.filter_filter,
        filter_eq_singleton sorted (sortedMember.mpr member)]
      · rfl
      · simpa using leads
      · intro f inside passes
        rw [Bool.and_eq_true] at passes
        exact one f (sortedMember.mp inside) (by simpa using passes.1)
    · rw [if_neg leads, List.filter_filter, List.map_eq_nil_iff]
      apply List.filter_eq_nil_iff.mpr
      intro f inside passes
      rw [Bool.and_eq_true] at passes
      have same := one f (sortedMember.mp inside) (by simpa using passes.1)
      subst same
      exact leads (of_decide_eq_true passes.2)
  rw [Group.placesAt, List.filter_flatMap]
  refine (flatMap_eq_of_mem (a := e.dist) (List.nodup_dedup _) ?_ ?_).trans ?_
  · exact List.mem_dedup.mpr (List.mem_map.mpr ⟨e, sortedMember.mpr member, rfl⟩)
  · intro d _ different
    rw [here, if_neg fun leads => different leads.1.symm]
  · simpa using here e.dist

theorem places_filter {lo hi : Nat} (distinct : g.entries.Nodup)
    (member : e ∈ g.entries)
    (one : ∀ f ∈ g.entries, f.body = e.body → f = e)
    (window : startSet g.offset buf.length layout = some (.range lo hi)) :
    (g.derive.places buf layout).filter (fun place => place.1 == e.body) =
      ((List.range' lo (min hi buf.length + 1 - lo)).filter
        fun s => e.LeadsTo buf s).map fun s => (e.body, s + e.dist) := by
  have offset : g.derive.offset = g.offset := rfl
  simp only [Group.places, offset, window, List.filter_flatMap]
  induction List.range' lo (min hi buf.length + 1 - lo) with
  | nil => rfl
  | cons s starts ih =>
      rw [List.flatMap_cons, ih, placesAt_filter distinct member one]
      by_cases leads : e.LeadsTo buf s <;> simp [leads]

theorem body_of_places {place : Nat × Nat}
    (member : place ∈ g.derive.places buf layout) :
    ∃ e ∈ g.entries, e.body = place.1 := by
  unfold Group.places at member
  split at member
  · obtain ⟨s, _, inside⟩ := List.mem_flatMap.mp member
    exact mem_placesAt inside
  · cases member

end

/-! ## Searching a wide window -/

theorem searchAll_eq {w a : Bytes} (nonempty : a ≠ []) {fuel p : Nat}
    (enough : w.length + 1 - p ≤ fuel) :
    searchAll w a fuel p = occurrences w a p w.length := by
  induction fuel generalizing p with
  | zero =>
      have none : w.length + 1 - p = 0 := Nat.le_zero.mp enough
      simp [searchAll, occurrences, none]
  | succ fuel ih =>
      rw [searchAll]
      cases found : find w a p w.length with
      | none =>
          symm
          apply List.filter_eq_nil_iff.mpr
          intro q inside occurs
          have above := (List.mem_range'_1.mp inside).1
          have fits := occursAt_fits occurs nonempty
          rw [find_eq_none found q above fits fits] at occurs
          cases occurs
      | some q =>
          obtain ⟨above, fits, occurs, earlier⟩ := find_eq_some found
          have positive := List.length_pos_iff.mpr nonempty
          dsimp only
          rw [ih (by omega)]
          have rest := occurrences_increasing w a (q + 1) w.length
          refine List.Pairwise.eq_of_mem_iff (List.pairwise_cons.mpr ⟨?_, rest⟩)
            (occurrences_increasing w a p w.length) ?_
          · intro r later
            have next := (mem_occurrences.mp later).1
            omega
          · intro r
            rw [List.mem_cons, mem_occurrences, mem_occurrences]
            constructor
            · intro either
              rcases either with same | ⟨next, last, there⟩
              · rw [same]
                exact ⟨above, by omega, occurs⟩
              · exact ⟨by omega, last, there⟩
            · intro inside
              obtain ⟨lower, last, there⟩ := inside
              by_cases before : r < q
              · rw [earlier r lower before] at there
                cases there
              · by_cases same : r = q
                · exact Or.inl same
                · exact Or.inr ⟨by omega, last, there⟩

theorem occursAt_window {hay pat : Bytes} {off len q : Nat}
    (nonempty : pat ≠ []) (inside : off + len ≤ hay.length) :
    occursAt (window hay off len) pat q = true ↔
      occursAt hay pat (off + q) = true ∧ q + pat.length ≤ len := by
  rw [occursAt_iff_getElem?, occursAt_iff_getElem?]
  constructor
  · intro agree
    have fits := occursAt_fits (occursAt_iff_getElem?.mpr agree) nonempty
    rw [length_window_of_le inside] at fits
    refine ⟨?_, fits⟩
    intro i short
    rw [← agree i short, getElem?_window hay (by omega), Nat.add_assoc]
  · intro there i short
    rw [getElem?_window hay (by omega), ← there.1 i short, Nat.add_assoc]

theorem searchIn_increasing {hay a : Bytes} (nonempty : a ≠ [])
    (start stop : Nat) : (searchIn hay a start stop).Pairwise (· < ·) := by
  rw [searchIn]
  split
  case isTrue => exact List.Pairwise.nil
  case isFalse =>
    dsimp only
    rw [searchAll_eq nonempty (by omega), List.pairwise_map]
    refine (occurrences_increasing _ _ _ _).imp ?_
    intro a b before
    omega

theorem mem_searchIn {hay a : Bytes} {start stop s : Nat} (nonempty : a ≠ [])
    (inside : stop ≤ hay.length) :
    s ∈ searchIn hay a start stop ↔
      start ≤ s ∧ s + a.length ≤ stop ∧ occursAt hay a s = true := by
  have positive := List.length_pos_iff.mpr nonempty
  rw [searchIn]
  split
  case isTrue empty =>
    constructor
    · intro none
      cases none
    · intro found
      omega
  case isFalse left =>
    have fits : start + (stop - start) ≤ hay.length := by omega
    dsimp only
    rw [searchAll_eq nonempty (by omega), List.mem_map]
    constructor
    · intro found
      obtain ⟨q, member, same⟩ := found
      obtain ⟨occurs, short⟩ := (occursAt_window nonempty fits).mp
        (mem_occurrences.mp member).2.2
      rw [← same]
      exact ⟨by omega, by omega, occurs⟩
    · intro found
      obtain ⟨lower, short, occurs⟩ := found
      have back : start + (s - start) = s := by omega
      refine ⟨s - start, mem_occurrences.mpr ⟨Nat.zero_le _, ?_, ?_⟩, back⟩
      · rw [length_window_of_le fits]
        omega
      · apply (occursAt_window nonempty fits).mpr
        rw [back]
        exact ⟨occurs, by omega⟩

end

/-! ## A body with its anchor as its pattern -/

section

variable {buf : Bytes} {nocase : Bool}

/-- One literal from one position never fills a reachable set. -/
private theorem advanceLiteralDirect_point {a : Bytes} {s : Nat}
    (nonempty : a ≠ [])
    (hit : occursAt (haystack nocase buf) (haystack nocase a) s = true) :
    (advanceLiteralDirect buf nocase a [(s, s)]
      ⟨[], .unlimited, false⟩).truncated = false := by
  have fits := ((Elem.steps_bytes_iff nonempty).mpr ⟨rfl, hit⟩).inside
  have last : min s (buf.length - a.length) = s := by omega
  have past : ¬s > buf.length - a.length := by omega
  have only : occurrences (haystack nocase buf) (haystack nocase a) s s =
      [s] := by
    rw [occurrences, Nat.add_sub_cancel_left, List.range'_one,
      List.filter_singleton, hit]
    rfl
  have inside : s + (haystack nocase a).length ≤
      (haystack nocase buf).length := by
    simpa only [length_haystack] using fits
  have free : (Progress.mk [] .unlimited false).budget = .unlimited := rfl
  simp only [advanceLiteralDirect, visitAll_singleton, last, past, if_false]
  rw [Budget.isZero_unlimited, if_neg Bool.false_ne_true,
    spend_unlimited free, visitAll_reachStarts_positions free
      (occurrenceRuns_proper s inside), occurrenceRuns_positions inside, only,
    visitAll_singleton]
  rfl

theorem gapSplitMatch_literal {a : Bytes} {s : Nat} (nonempty : a ≠ [])
    (hit : occursAt (haystack nocase buf) (haystack nocase a) s = true) :
    (gapSplitMatch buf nocase [.bytes a] s (Pools.new .unlimited)).1 = true := by
  have step := (Elem.steps_bytes_iff nonempty).mpr ⟨rfl, hit⟩
  have inside := step.ordered.trans step.inside
  have whole : (gapSplitMatch buf nocase [.bytes a] s
      (Pools.new .unlimited)).2.truncated = false := by
    have fits := step.inside
    have positive := List.length_pos_iff.mpr nonempty
    have short : ¬(a.length = 0 ∨ a.length > buf.length) := by omega
    have direct := @advanceLiteral_eq buf nocase a [(s, s)]
      ⟨[], .unlimited, false⟩ _ (reachable_interval (le_refl s) inside).proper
      rfl (Pools.valid_new .unlimited buf)
    rw [if_neg short] at direct
    have same : (gapSplitMatch buf nocase [.bytes a] s
        (Pools.new .unlimited)).2.truncated =
          (advanceLiteral buf nocase a [(s, s)] ⟨[], .unlimited, false⟩
            (Pools.new .unlimited).occ).1.truncated :=
      Bool.false_or _
    rw [same, direct]
    exact advanceLiteralDirect_point nonempty hit
  refine (gapSplitMatch_iff ?_ inside (Pools.valid_new .unlimited buf)
    whole).mpr ⟨s + a.length, (Derives.cons step
      (.nil step.inside)).spreadAll rfl⟩
  intro tok member
  rw [List.mem_singleton.mp member]
  exact nonempty

end

/-! ## Taken bodies answer as they would have -/

structure Body.Compiled (body : Body) (anchor : Bytes) : Prop where
  built : body.Built
  long : minAnchor ≤ anchor.length
  anchored : ∀ elems, body.elems = some elems →
    Anchored elems body.bodyPrefix anchor

section

variable {body : Body} {anchor : Bytes} {buf : Bytes}
  {layout : Option PeLayout} {shift dist s : Nat}

theorem nonempty_of_long (long : minAnchor ≤ anchor.length) : anchor ≠ [] := by
  intro empty
  rw [empty] at long
  exact absurd long (by decide)

theorem hit_fits {nocase : Bool} (long : minAnchor ≤ anchor.length)
    (hit : occursAt (haystack nocase buf) (haystack nocase anchor) s = true) :
    s + anchor.length ≤ buf.length :=
  ((Elem.steps_bytes_iff (nonempty_of_long long)).mpr ⟨rfl, hit⟩).inside

@[simp] theorem withAnchor_offset (body : Body) (anchor : Bytes) :
    (body.withAnchor anchor).offset = body.offset := by
  rw [Body.withAnchor]
  split <;> rfl

@[simp] theorem withAnchor_nocase (body : Body) (anchor : Bytes) :
    (body.withAnchor anchor).nocase = body.nocase := by
  rw [Body.withAnchor]
  split <;> rfl

theorem pinned_eq_some (pin : pinned body = some (shift, dist)) :
    ∃ kind, body.offset = .constrained kind ∧ kind.shift? = some shift ∧
      body.bodyPrefix.dist? = some dist := by
  unfold pinned at pin
  split at pin
  case h_1 => cases pin
  case h_2 kind offset =>
    obtain ⟨w, width, rest⟩ := Option.bind_eq_some_iff.mp pin
    obtain ⟨d, place, rest⟩ := Option.bind_eq_some_iff.mp rest
    obtain ⟨_, same⟩ := Option.ite_none_right_eq_some.mp rest
    cases same
    exact ⟨kind, offset, width, place⟩

theorem Body.Compiled.taken (compiled : body.Compiled anchor)
    (pin : pinned body = some (shift, dist)) :
    pinned (body.withAnchor anchor) = some (shift, dist) ∧
      ∃ elems, (body.withAnchor anchor).elems = some elems ∧
        (∀ tok ∈ elems, tok.WellFormed) ∧
          Anchored elems (body.withAnchor anchor).bodyPrefix anchor := by
  cases kind : body.elems with
  | some elems =>
      have same : body.withAnchor anchor = body := by
        simp [Body.withAnchor, kind]
      rw [same]
      exact ⟨pin, elems, kind, compiled.built.formed elems kind,
        compiled.anchored elems kind⟩
  | none =>
      have made : body.withAnchor anchor =
          { body with elems := some [.bytes anchor], bodyPrefix := .fixed 0 0 } := by
        simp [Body.withAnchor, kind, pin]
      have place := compiled.built.literal kind
      rw [made]
      refine ⟨?_, [.bytes anchor], rfl, ?_, ?_⟩
      · have same : (pinned { body with
            elems := some [.bytes anchor], bodyPrefix := .fixed 0 0 }) =
              pinned body := by
          simp only [pinned, place]
        rw [same, pin]
      · intro tok member
        rw [List.mem_singleton.mp member]
        exact nonempty_of_long compiled.long
      · refine ⟨rfl, compiled.long, ?_, ?_⟩
        · intro idx len same
          cases same
          rfl
        · intro idx same
          cases same

theorem literalAnchor_withAnchor (compiled : body.Compiled anchor)
    (pin : pinned body = some (shift, dist)) :
    literalAnchor (body.withAnchor anchor) = anchor := by
  obtain ⟨_, elems, program, _, anchored⟩ := compiled.taken pin
  rw [literalAnchor, program, Option.getD_some, anchored.literal]

/-- A taken body matches only where its anchor stands and its offset lets the
pattern start. -/
theorem verify_taken {m : Nat} {pools : Pools} (compiled : body.Compiled anchor)
    (pin : pinned body = some (shift, dist)) (inside : s ≤ buf.length)
    (valid : pools.occ.Valid buf)
    (found : (verify (body.withAnchor anchor) buf layout s pools).1 = some m) :
    occursAt (haystack body.nocase buf) (haystack body.nocase anchor) s =
        true ∧
      dist ≤ s ∧ offAt body buf layout (s - dist) = true := by
  obtain ⟨again, elems, program, formed, anchored⟩ := compiled.taken pin
  obtain ⟨_, _, _, place⟩ := pinned_eq_some again
  have inner : (verifyInner (body.withAnchor anchor) buf layout s
      pools).1 = some m := by
    rw [verify] at found
    exact (Option.filter_eq_some_iff.mp found).1
  have leads := verifyInner_leads program formed inside valid inner
  have hit := leads.hit formed anchored inside
  rw [withAnchor_nocase] at hit
  refine ⟨hit, ?_⟩
  have same : (body.withAnchor anchor).bodyPrefix.len = dist ∧
      ∀ idx, (body.withAnchor anchor).bodyPrefix ≠ .internal idx := by
    cases kind : (body.withAnchor anchor).bodyPrefix with
    | fixed idx len =>
        rw [kind] at place
        cases place
        exact ⟨rfl, fun _ other => (by cases other)⟩
    | floating idx =>
        rw [kind] at place
        cases place
        exact ⟨rfl, fun _ other => (by cases other)⟩
    | internal idx =>
        rw [kind] at place
        cases place
  have off : offAt (body.withAnchor anchor) buf layout (s - dist) =
      offAt body buf layout (s - dist) := by
    rw [offAt, offAt, withAnchor_offset]
  have built : (body.withAnchor anchor).Built := by
    refine ⟨?_, ?_⟩
    · intro found here
      rw [program] at here
      cases here
      exact formed
    · intro none
      rw [program] at none
      cases none
  by_contra refused
  rw [verifyInner_refused built same.2] at inner
  · cases inner
  · intro past
    rw [same.1] at past ⊢
    rw [off, ← Bool.not_eq_true]
    exact fun allowed => refused ⟨past, allowed⟩

theorem answer_withAnchor (compiled : body.Compiled anchor)
    (hit : occursAt (haystack body.nocase buf) (haystack body.nocase anchor) s =
      true) :
    answer (body.withAnchor anchor) buf layout s = answer body buf layout s := by
  by_cases made : (pinned body).isSome ∧ body.elems.isNone
  case neg => rw [Body.withAnchor, if_neg made]
  case pos =>
    have nonempty := nonempty_of_long compiled.long
    have literal : body.elems = none := by simpa using made.2
    have found := gapSplitMatch_literal nonempty hit
    have free := Pools.free_new buf
    rw [Body.withAnchor, if_pos made, answer, answer, verify, verify]
    simp only [verifyInner, literal, offAt, Nat.not_lt_zero, if_false,
      Nat.sub_zero, sim, guardBudget_free free, found, if_true]
    congr 1
    by_cases allowed : offsetOk body.offset s buf.length layout = true <;>
      simp [allowed]

end

/-! ## Every place, once -/

section

variable {bodies : List Body} {anchors : Nat → Bytes} {buf : Bytes}
  {layout : Option PeLayout} {body : Body} {id shift dist s : Nat}

/-- Where the places of one body are, in order. -/
def placesOf (places : List (Nat × Nat)) (id : Nat) : List Nat :=
  (places.filter fun place => place.1 == id).map (·.2)

theorem key_of_hit {nocase : Bool} {anchor : Bytes}
    (long : minAnchor ≤ anchor.length)
    (hit : occursAt (haystack nocase buf) (haystack nocase anchor) s = true) :
    key (window buf s 2) = key anchor := by
  have folded (bytes : Bytes) (i : Nat) :
      (haystack nocase bytes)[i]?.map fold = bytes[i]?.map fold := by
    cases nocase with
    | false => rfl
    | true => simp [haystack, lower, Function.comp_def]
  have same (i : Nat) (early : i < 2) :
      fold (byteAt (window buf s 2) i) = fold (byteAt anchor i) := by
    have inside : i < (haystack nocase anchor).length := by
      rw [length_haystack]
      exact lt_of_lt_of_le early long
    have equal := congrArg (Option.map fold)
      (occursAt_iff_getElem?.mp hit i inside)
    rw [folded, folded] at equal
    rw [length_haystack] at inside
    rw [byteAt_eq, byteAt_eq, getElem?_window buf early]
    cases there : buf[s + i]? with
    | none =>
        rw [there] at equal
        simp [inside] at equal
    | some b =>
        rw [there] at equal
        rw [List.getElem?_eq_getElem inside] at equal ⊢
        exact Option.some_inj.mp equal
  rw [key, key, same 0 (by decide), same 1 (by decide)]

theorem mem_zipIdx {item : Body × Nat} (member : item ∈ bodies.zipIdx)
    (there : bodies[id]? = some body) (same : item.2 = id) :
    item = (body, id) := by
  obtain ⟨other, at_⟩ := item
  have here := List.mem_zipIdx_iff_getElem?.mp member
  dsimp only at same here
  subst same
  rw [there] at here
  cases here
  rfl

theorem narrowEntry_body {offset : Offset} {item : Body × Nat} {e : Entry}
    (made : narrowEntry anchors offset item = some e) : e.body = item.2 := by
  unfold narrowEntry at made
  split at made
  · cases made
  · obtain ⟨_, same⟩ := Option.ite_none_right_eq_some.mp made
    cases same
    rfl

theorem entries_increasing (bodies : List Body) (anchors : Nat → Bytes)
    (offset : Offset) :
    (bodies.zipIdx.filterMap (narrowEntry anchors offset)).Pairwise
      fun e f => e.body < f.body := by
  have ids : (bodies.zipIdx.map Prod.snd).Pairwise (· < ·) := by
    rw [List.zipIdx_map_snd]
    exact List.pairwise_lt_range'
  rw [List.pairwise_map] at ids
  refine ids.filterMap _ ?_
  intro item other before e first f second
  rw [narrowEntry_body first, narrowEntry_body second]
  exact before

/-- What is to be known of the places of a body: in order, inside the object,
and none missing where the body may answer. -/
structure Complete (body : Body) (anchor buf : Bytes)
    (layout : Option PeLayout) (dist : Nat) (ats : List Nat) : Prop where
  increasing : ats.Pairwise (· < ·)
  inside : ∀ s ∈ ats, s ≤ buf.length
  complete : ∀ s, dist ≤ s → offAt body buf layout (s - dist) = true →
    occursAt (haystack body.nocase buf) (haystack body.nocase anchor) s =
      true → s ∈ ats

private theorem windowed (base : Option Nat) (shift : Nat) :
    (do
      let base ← base
      return StartSet.range base (saturatingAdd base shift)) = none ∨
      ∃ lo hi, (do
        let base ← base
        return StartSet.range base (saturatingAdd base shift)) =
          some (.range lo hi) := by
  cases base with
  | none => exact Or.inl rfl
  | some base => exact Or.inr ⟨_, _, rfl⟩

theorem startSet_pinned (buf : Bytes) (layout : Option PeLayout)
    (pin : pinned body = some (shift, dist)) :
    startSet body.offset buf.length layout = none ∨
      ∃ lo hi, startSet body.offset buf.length layout = some (.range lo hi) := by
  obtain ⟨kind, offset, width, _⟩ := pinned_eq_some pin
  rw [offset]
  cases kind with
  | abs n shift => exact Or.inr ⟨_, _, rfl⟩
  | eof n shift =>
      rw [startSet]
      split
      · exact Or.inr ⟨_, _, rfl⟩
      · exact Or.inl rfl
  | ep delta shift =>
      rcases layout with _ | ⟨_ | entry, ptrs, sizes, version⟩
      · exact Or.inl rfl
      · exact Or.inl rfl
      · exact windowed (addDelta entry delta) shift
  | sec idx delta shift =>
      rcases layout with _ | layout
      · exact Or.inl rfl
      · rcases here : layout.sectionRawptrs[idx]? with _ | ptr
        · simp [startSet, here]
        · simpa [startSet, here] using windowed (addDelta ptr delta) shift
  | secLast delta shift =>
      rcases layout with _ | layout
      · exact Or.inl rfl
      · rcases here : layout.sectionRawptrs.getLast? with _ | ptr
        · simp [startSet, here]
        · simpa [startSet, here] using windowed (addDelta ptr delta) shift
  | secIn idx => cases width
  | versionInfo => cases width

theorem Complete.of_none {anchor : Bytes}
    (none : startSet body.offset buf.length layout = none) :
    Complete body anchor buf layout dist [] := by
  refine ⟨List.Pairwise.nil, by simp, ?_⟩
  intro s _ allowed
  simp [offAt, offsetOk, none] at allowed

theorem offAt_range {lo hi : Nat}
    (window : startSet body.offset buf.length layout = some (.range lo hi)) :
    offAt body buf layout s = true ↔ lo ≤ s ∧ s ≤ hi := by
  simp [offAt, offsetOk, window, StartSet.allows]

theorem Complete.narrow {lo hi : Nat} {anchor : Bytes} {e : Entry}
    (small : buf.length ≤ usizeMax) (long : minAnchor ≤ anchor.length)
    (window : startSet body.offset buf.length layout = some (.range lo hi))
    (place : e.dist = dist) (keyed : e.key = key anchor) :
    Complete body anchor buf layout dist
      (((List.range' lo (min hi buf.length + 1 - lo)).filter
        fun s => e.LeadsTo buf s).map fun s => s + e.dist) := by
  refine ⟨?_, ?_, ?_⟩
  · rw [List.pairwise_map]
    refine (List.Pairwise.filter _ List.pairwise_lt_range').imp ?_
    intro a b before
    omega
  · intro s member
    obtain ⟨start, kept, same⟩ := List.mem_map.mp member
    obtain ⟨_, long, _⟩ := of_decide_eq_true (List.mem_filter.mp kept).2
    rw [length_window] at long
    omega
  · intro s past allowed hit
    obtain ⟨lower, upper⟩ := (offAt_range window).mp allowed
    have fits := hit_fits long hit
    have pair : 2 ≤ anchor.length := long
    have back : s - dist + e.dist = s := by omega
    refine List.mem_map.mpr ⟨s - dist, List.mem_filter.mpr ⟨?_, ?_⟩, back⟩
    · rw [List.mem_range'_1]
      omega
    · refine decide_eq_true ⟨by omega, ?_, ?_⟩
      · rw [back, length_window]
        omega
      · rw [back, keyed, key_of_hit long hit]

theorem Complete.wide {lo hi : Nat} (small : buf.length ≤ usizeMax)
    (long : minAnchor ≤ (literalAnchor body).length)
    (pin : pinned body = some (shift, dist))
    (window : startSet body.offset buf.length layout = some (.range lo hi)) :
    Complete body (literalAnchor body) buf layout dist
      (body.widePlaces buf layout) := by
  have nonempty : haystack body.nocase (literalAnchor body) ≠ [] := by
    rw [← List.length_pos_iff, length_haystack]
    exact lt_of_lt_of_le (by decide) long
  unfold Body.widePlaces
  simp only [window, pin, Option.map_some, Option.getD_some]
  have stopInside (stop : Nat) : min stop buf.length ≤
      (haystack body.nocase buf).length := by
    rw [length_haystack]
    exact Nat.min_le_right _ _
  refine ⟨searchIn_increasing nonempty _ _, ?_, ?_⟩
  · intro s member
    have found := (mem_searchIn nonempty (stopInside _)).mp member
    omega
  · intro s past allowed hit
    obtain ⟨lower, upper⟩ := (offAt_range window).mp allowed
    have fits := hit_fits long hit
    apply (mem_searchIn nonempty (stopInside _)).mpr
    rw [length_haystack]
    simp only [saturatingAdd]
    exact ⟨by omega, by omega, hit⟩

theorem placesOf_append (front back : List (Nat × Nat)) (id : Nat) :
    placesOf (front ++ back) id = placesOf front id ++ placesOf back id := by
  simp [placesOf]

theorem placesOf_eq_nil {places : List (Nat × Nat)}
    (elsewhere : ∀ place ∈ places, place.1 ≠ id) : placesOf places id = [] := by
  rw [placesOf, List.map_eq_nil_iff, List.filter_eq_nil_iff]
  intro place member
  simpa using elsewhere place member

theorem placesOf_flatMap {α : Type} {items : List α}
    {f : α → List (Nat × Nat)} {a : α} (distinct : items.Nodup)
    (member : a ∈ items)
    (others : ∀ b ∈ items, b ≠ a → placesOf (f b) id = []) :
    placesOf (items.flatMap f) id = placesOf (f a) id := by
  have same : placesOf (items.flatMap f) id =
      items.flatMap fun b => placesOf (f b) id := by
    simp only [placesOf, List.filter_flatMap, List.map_flatMap]
  rw [same]
  exact flatMap_eq_of_mem distinct member others

end

section

variable {bodies : List Body} {anchors : Nat → Bytes} {buf : Bytes}
  {layout : Option PeLayout} {body : Body} {id shift dist : Nat} {pins : Pins}

theorem Pins.Hold.entry {g : Group} {e : Entry}
    (hold : pins.Hold anchors bodies.zipIdx) (there : bodies[id]? = some body)
    (member : g ∈ pins.groups) (inside : e ∈ g.entries) (same : e.body = id) :
    narrowEntry anchors g.offset (body, id) = some e := by
  rw [hold.entries g member] at inside
  obtain ⟨item, present, made⟩ := List.mem_filterMap.mp inside
  rw [narrowEntry_body made] at same
  rw [← mem_zipIdx present there same]
  exact made

theorem Pins.Hold.entry_lt {g : Group} {e : Entry}
    (hold : pins.Hold anchors bodies.zipIdx) (member : g ∈ pins.groups)
    (inside : e ∈ g.entries) : ∃ body, bodies[e.body]? = some body := by
  rw [hold.entries g member] at inside
  obtain ⟨item, present, made⟩ := List.mem_filterMap.mp inside
  rw [narrowEntry_body made]
  exact ⟨item.1, List.mem_zipIdx_iff_getElem?.mp present⟩

theorem Pins.Hold.mem_wide (hold : pins.Hold anchors bodies.zipIdx) :
    id ∈ pins.wide ↔ ∃ body, bodies[id]? = some body ∧ isWide body = true := by
  rw [hold.wide, List.mem_map]
  constructor
  · intro found
    obtain ⟨item, kept, same⟩ := found
    obtain ⟨present, wide⟩ := List.mem_filter.mp kept
    rw [← same]
    exact ⟨item.1, List.mem_zipIdx_iff_getElem?.mp present, wide⟩
  · intro found
    obtain ⟨body, there, wide⟩ := found
    exact ⟨(body, id), List.mem_filter.mpr
      ⟨List.mem_zipIdx_iff_getElem?.mpr there, wide⟩, rfl⟩

theorem Pins.Hold.wide_nodup (hold : pins.Hold anchors bodies.zipIdx) :
    pins.wide.Nodup := by
  have ids : (bodies.zipIdx.map Prod.snd).Nodup := by
    rw [List.zipIdx_map_snd]
    exact List.nodup_range'
  rw [hold.wide]
  exact ids.sublist (List.filter_sublist.map Prod.snd)

theorem placesOf_groups_eq_nil
    (none : ∀ g ∈ pins.groups, ∀ e ∈ g.entries, e.body ≠ id) :
    placesOf ((pins.groups.map Group.derive).flatMap
      (Group.places buf layout)) id = [] := by
  apply placesOf_eq_nil
  intro place member
  obtain ⟨derived, present, inside⟩ := List.mem_flatMap.mp member
  obtain ⟨g, here, same⟩ := List.mem_map.mp present
  rw [← same] at inside
  obtain ⟨e, entered, body⟩ := body_of_places inside
  rw [← body]
  exact none g here e entered

theorem placesOf_searched_eq_nil {wide : List Nat} (absent : id ∉ wide) :
    placesOf (searchedPlaces buf layout bodies wide) id = [] := by
  apply placesOf_eq_nil
  intro place member
  obtain ⟨b, present, inside⟩ := List.mem_flatMap.mp member
  obtain ⟨at_, _, same⟩ := List.mem_map.mp inside
  rw [← same]
  exact fun equal => absent (equal ▸ present)

theorem placesOf_searched {wide : List Nat} (distinct : wide.Nodup)
    (present : id ∈ wide) (there : bodies[id]? = some body) :
    placesOf (searchedPlaces buf layout bodies wide) id =
      body.widePlaces buf layout := by
  refine (placesOf_flatMap distinct present ?_).trans ?_
  · intro b _ different
    apply placesOf_eq_nil
    intro place member
    obtain ⟨at_, _, same⟩ := List.mem_map.mp member
    rw [← same]
    exact different
  · simp [placesOf, there, List.filter_map, Function.comp_def]

theorem Complete.of_withAnchor {anchor : Bytes} {ats : List Nat}
    (complete : Complete (body.withAnchor anchor) anchor buf layout dist ats) :
    Complete body anchor buf layout dist ats := by
  have same (s : Nat) : offAt (body.withAnchor anchor) buf layout s =
      offAt body buf layout s := by
    rw [offAt, offAt, withAnchor_offset]
  refine ⟨complete.increasing, complete.inside, ?_⟩
  simpa only [withAnchor_nocase, same] using complete.complete

theorem Pins.Hold.complete_narrow (hold : pins.Hold anchors bodies.zipIdx)
    (small : buf.length ≤ usizeMax) (compiled : body.Compiled (anchors id))
    (there : bodies[id]? = some body) (pin : pinned body = some (shift, dist))
    (near : shift ≤ maxStepped) :
    Complete body (anchors id) buf layout dist
      (placesOf ((pins.groups.map Group.derive).flatMap
        (Group.places buf layout)) id) := by
  have made : narrowEntry anchors body.offset (body, id) =
      some ⟨dist, key (anchors id), id⟩ := by
    simp [narrowEntry, pin, near, literalAnchor_withAnchor compiled pin]
  obtain ⟨g, member, offset⟩ := hold.grouped (body, id)
    (List.mem_zipIdx_iff_getElem?.mpr there) body.offset (by rw [made]; rfl)
  have entered : (⟨dist, key (anchors id), id⟩ : Entry) ∈ g.entries := by
    rw [hold.entries g member, offset]
    exact List.mem_filterMap.mpr
      ⟨(body, id), List.mem_zipIdx_iff_getElem?.mpr there, made⟩
  have increasing : g.entries.Pairwise fun e f => e.body < f.body := by
    rw [hold.entries g member]
    exact entries_increasing bodies anchors g.offset
  have distinct : g.entries.Nodup :=
    increasing.imp fun before same => (same ▸ before).false
  have one : ∀ f ∈ g.entries, f.body = id →
      f = ⟨dist, key (anchors id), id⟩ := by
    intro f inside same
    have again := hold.entry there member inside same
    rw [offset, made] at again
    exact (Option.some_inj.mp again).symm
  have groupsDistinct : (pins.groups.map Group.derive).Nodup := by
    apply List.Nodup.of_map Group.offset
    rw [List.map_map]
    exact hold.distinct
  rw [placesOf_flatMap groupsDistinct (List.mem_map.mpr ⟨g, member, rfl⟩)]
  · rcases startSet_pinned buf layout pin with none |
      ⟨lo, hi, window⟩
    · have empty : g.derive.places buf layout = [] := by
        have same : g.derive.offset = body.offset := offset
        simp only [Group.places, same, none]
      rw [empty]
      exact Complete.of_none none
    · have window' := window
      rw [← offset] at window'
      rw [placesOf, places_filter distinct entered one window', List.map_map]
      exact Complete.narrow small compiled.long window rfl rfl
  · intro derived present different
    obtain ⟨other, here, same⟩ := List.mem_map.mp present
    apply placesOf_eq_nil
    intro place inside equal
    rw [← same] at inside
    obtain ⟨e, found, body'⟩ := body_of_places inside
    have again := hold.entry there here found (body'.trans equal)
    have offsets : body.offset = other.offset := by
      by_contra apart
      simp [narrowEntry, pin, apart] at again
    have equalGroups := List.inj_on_of_nodup_map hold.distinct here member
      (offsets.symm.trans offset.symm)
    rw [equalGroups] at same
    exact different same.symm

theorem complete_wide (small : buf.length ≤ usizeMax)
    (compiled : body.Compiled (anchors id))
    (pin : pinned body = some (shift, dist)) :
    Complete body (anchors id) buf layout dist
      ((body.withAnchor (anchors id)).widePlaces buf layout) := by
  have again := (compiled.taken pin).1
  have literal := literalAnchor_withAnchor compiled pin
  rcases startSet_pinned buf layout pin with none |
    ⟨lo, hi, window⟩
  · have empty : (body.withAnchor (anchors id)).widePlaces buf layout = [] := by
      simp only [Body.widePlaces, withAnchor_offset, none]
    rw [empty]
    exact Complete.of_none none
  · rw [← withAnchor_offset body (anchors id)] at window
    apply Complete.of_withAnchor
    have complete := Complete.wide small (by rw [literal]; exact compiled.long)
      again window
    rwa [literal] at complete

theorem placesOf_take (small : buf.length ≤ usizeMax)
    (compiled : body.Compiled (anchors id)) (there : bodies[id]? = some body)
    (pin : pinned body = some (shift, dist)) :
    Complete body (anchors id) buf layout dist
      (placesOf ((Pins.take bodies anchors).pins.places buf layout
        (Pins.take bodies anchors).bodies) id) := by
  have hold := @hold_take anchors bodies
  have unpacked : (Pins.take bodies anchors).bodies[id]? =
      some (body.withAnchor (anchors id)) := by
    simp [Pins.take, there]
  have split : placesOf ((Pins.take bodies anchors).pins.places buf layout
      (Pins.take bodies anchors).bodies) id =
        placesOf (((bodies.zipIdx.foldl (Pins.add anchors)
          ⟨[], []⟩).groups.map Group.derive).flatMap
            (Group.places buf layout)) id ++
          placesOf (searchedPlaces buf layout (Pins.take bodies anchors).bodies
            (bodies.zipIdx.foldl (Pins.add anchors) ⟨[], []⟩).wide) id :=
    placesOf_append _ _ id
  rw [split]
  generalize bodies.zipIdx.foldl (Pins.add anchors) ⟨[], []⟩ = pins at hold
  by_cases far : shift > maxStepped
  · have none (offset : Offset) :
        narrowEntry anchors offset (body, id) = none := by
      have beyond : ¬shift ≤ maxStepped := Nat.not_le.mpr far
      simp [narrowEntry, pin, beyond]
    have wide : isWide body = true := by simp [isWide, pin, far]
    rw [placesOf_groups_eq_nil, List.nil_append,
      placesOf_searched hold.wide_nodup (hold.mem_wide.mpr ⟨body, there, wide⟩)
        unpacked]
    · exact complete_wide small compiled pin
    · intro g member e inside same
      have made := hold.entry there member inside same
      rw [none] at made
      cases made
  · have narrow : isWide body = false := by simpa [isWide, pin] using far
    have absent : id ∉ pins.wide := by
      intro member
      obtain ⟨other, here, wide⟩ := hold.mem_wide.mp member
      rw [there] at here
      cases here
      rw [narrow] at wide
      cases wide
    rw [placesOf_searched_eq_nil absent, List.append_nil]
    exact hold.complete_narrow small compiled there pin (Nat.not_lt.mp far)

theorem placesOf_unpinned
    (unpinned : ∀ body, bodies[id]? = some body → pinned body = none) :
    placesOf ((Pins.take bodies anchors).pins.places buf layout
      (Pins.take bodies anchors).bodies) id = [] := by
  have hold := @hold_take anchors bodies
  refine (placesOf_append _ _ id).trans ?_
  simp only [Pins.take]
  generalize bodies.zipIdx.foldl (Pins.add anchors) ⟨[], []⟩ = pins at hold
  have absent : id ∉ pins.wide := by
    intro member
    obtain ⟨body, there, wide⟩ := hold.mem_wide.mp member
    simp [isWide, unpinned body there] at wide
  rw [placesOf_groups_eq_nil, placesOf_searched_eq_nil absent, List.nil_append]
  intro g member e inside same
  obtain ⟨body, there⟩ := hold.entry_lt member inside
  rw [same] at there
  have made := hold.entry there member inside same
  simp [narrowEntry, unpinned body there] at made

/-! ## Matches -/

theorem verifyPlaces {places found : List (Nat × Nat)} {pools : Pools}
    (built : ∀ place ∈ places, place.2 ≤ buf.length ∧
      ∀ body, bodies[place.1]? = some body → body.Built)
    (free : pools.Free buf) :
    (visitAll (verifyPlace buf layout bodies) (found, pools) places).1.1 =
      found ++ places.filterMap fun place =>
        (bodies[place.1]?.bind fun body =>
          answer body buf layout place.2).map (place.1, ·) := by
  induction places generalizing found pools with
  | nil => simp
  | cons place places ih =>
      have rest := fun later member => built later (List.mem_cons_of_mem place member)
      obtain ⟨inside, formed⟩ := built place (by simp)
      rw [visitAll_cons, verifyPlace]
      cases there : bodies[place.1]? with
      | none =>
          simp only [if_true]
          rw [ih rest free]
          simp [there]
      | some body =>
          have fresh := verify_free layout (formed body there) inside free
          simp only [if_true]
          rw [ih rest fresh.free, fresh.answer]
          change _ = found ++ List.filterMap _ _
          rw [List.filterMap_cons, there]
          cases same : answer body buf layout place.2 <;>
            simp_all [answer]

def swept (body : Body) (anchor buf : Bytes) (layout : Option PeLayout) :
    List Nat :=
  (occurrences (haystack body.nocase buf) (haystack body.nocase anchor) 0
    buf.length).filterMap (answer body buf layout)

def AllCompiled (bodies : List Body) (anchors : Nat → Bytes) : Prop :=
  ∀ id (body : Body), bodies[id]? = some body → body.Compiled (anchors id)

theorem place_inside {place : Nat × Nat} (small : buf.length ≤ usizeMax)
    (compiled : AllCompiled bodies anchors)
    (member : place ∈ (Pins.take bodies anchors).pins.places buf layout
      (Pins.take bodies anchors).bodies) : place.2 ≤ buf.length := by
  have here : place.2 ∈ placesOf ((Pins.take bodies anchors).pins.places buf
      layout (Pins.take bodies anchors).bodies) place.1 :=
    List.mem_map.mpr ⟨place, List.mem_filter.mpr ⟨member, by simp⟩, rfl⟩
  by_cases pinnedBody : ∃ body window, bodies[place.1]? = some body ∧
      pinned body = some window
  · obtain ⟨body, ⟨shift, dist⟩, there, pin⟩ := pinnedBody
    exact (placesOf_take small (compiled place.1 body there) there
      pin).inside place.2 here
  · rw [placesOf_unpinned] at here
    · cases here
    · intro body there
      by_contra pin
      obtain ⟨window, pin⟩ := Option.ne_none_iff_exists'.mp pin
      exact pinnedBody ⟨body, window, there, pin⟩

theorem Body.Compiled.withAnchor_built {anchor : Bytes}
    (compiled : body.Compiled anchor) : (body.withAnchor anchor).Built := by
  cases pin : pinned body with
  | none =>
      have same : body.withAnchor anchor = body := by
        simp [Body.withAnchor, pin]
      rw [same]
      exact compiled.built
  | some window =>
      obtain ⟨_, elems, program, formed, _⟩ := compiled.taken pin
      refine ⟨?_, ?_⟩
      · intro found here
        rw [program] at here
        cases here
        exact formed
      · intro none
        rw [program] at none
        cases none

theorem placesOf_filterMap (answers : Nat × Nat → Option Nat)
    (places : List (Nat × Nat)) (id : Nat) :
    placesOf (places.filterMap fun place => (answers place).map (place.1, ·))
        id =
      (placesOf places id).filterMap fun s => answers (id, s) := by
  induction places with
  | nil => rfl
  | cons place places ih =>
      obtain ⟨b, s⟩ := place
      have one (x : Nat × Nat) (rest : List (Nat × Nat)) :
          placesOf (x :: rest) id =
            (if x.1 = id then [x.2] else []) ++ placesOf rest id := by
        by_cases same : x.1 = id <;> simp [placesOf, same]
      rw [List.filterMap_cons, one (b, s), List.filterMap_append, ← ih]
      cases found : answers (b, s) with
      | none =>
          by_cases same : b = id
          · subst same
            simp [found]
          · simp [same]
      | some m =>
          rw [Option.map_some]
          dsimp only
          rw [one]
          by_cases same : b = id
          · subst same
            simp [found]
          · simp [same]

theorem placesOf_matches (small : buf.length ≤ usizeMax)
    (compiled : AllCompiled bodies anchors) (there : bodies[id]? = some body) :
    placesOf ((Pins.take bodies anchors).pins.matches buf layout
        (Pins.take bodies anchors).bodies (Pools.new .unlimited)) id =
      (placesOf ((Pins.take bodies anchors).pins.places buf layout
        (Pins.take bodies anchors).bodies) id).filterMap
          (answer (body.withAnchor (anchors id)) buf layout) := by
  have unpacked (id : Nat) : (Pins.take bodies anchors).bodies[id]? =
      bodies[id]?.map fun body => body.withAnchor (anchors id) := by
    simp [Pins.take, Function.comp_def]
  rw [Pins.matches, Pins.visit, verifyPlaces _ (Pools.free_new buf),
    List.nil_append, placesOf_filterMap]
  · have kept (places : List (Nat × Nat)) :
        placesOf (places.filter fun place =>
          ((Pins.take bodies anchors).bodies[place.1]?.map
            fun _ => true).getD false) id = placesOf places id := by
      simp only [placesOf, List.filter_filter]
      congr 1
      apply List.filter_congr
      intro place _
      by_cases same : place.1 = id
      · simp [same, unpacked, there]
      · simp [same]
    rw [kept]
    apply List.filterMap_congr
    intro s _
    simp [unpacked, there]
  · intro place member
    have visited := (List.mem_filter.mp member).1
    refine ⟨place_inside small compiled visited, ?_⟩
    intro taken here
    rw [unpacked] at here
    obtain ⟨original, present, same⟩ := Option.map_eq_some_iff.mp here
    rw [← same]
    exact (compiled place.1 original present).withAnchor_built

/-- Pinned bodies match as if they were swept for.  Taking the pinned bodies out
and checking them where they could match gives, per body, the matches at the
occurrences of its anchor; whatever the pools, each position where the body may
match is tried, and none is tried twice. -/
theorem take_matches_swept (small : buf.length ≤ usizeMax)
    (compiled : AllCompiled bodies anchors) (there : bodies[id]? = some body) :
    let taken := Pins.take bodies anchors
    let tried := placesOf (taken.pins.places buf layout taken.bodies) id
    let found := placesOf (taken.pins.matches buf layout taken.bodies
      (Pools.new .unlimited)) id
    if taken.taken[id]? = some true then
      found = swept body (anchors id) buf layout ∧ tried.Pairwise (· < ·) ∧
        ∀ s ≤ buf.length, ∀ pools, pools.occ.Valid buf →
          (verify (body.withAnchor (anchors id)) buf layout s
            pools).1.isSome = true → s ∈ tried
    else found = [] ∧ tried = [] ∧ taken.bodies[id]? = some body := by
  have here := compiled id body there
  have flag : (Pins.take bodies anchors).taken[id]? =
      some (pinned body).isSome := by
    simp [Pins.take, there]
  dsimp only
  rw [flag, placesOf_matches small compiled there]
  cases pin : pinned body with
  | none =>
      have same : body.withAnchor (anchors id) = body := by
        simp [Body.withAnchor, pin]
      have untried : placesOf ((Pins.take bodies anchors).pins.places buf
          layout (Pins.take bodies anchors).bodies) id = [] := by
        apply placesOf_unpinned
        intro other present
        rw [there] at present
        cases present
        exact pin
      rw [untried]
      exact ⟨rfl, rfl, by simp [Pins.take, there, same]⟩
  | some window =>
      obtain ⟨shift, dist⟩ := window
      have complete : Complete body (anchors id) buf layout dist _ :=
        placesOf_take small here there pin
      have reach {s : Nat} {pools : Pools} {m : Nat} (inside : s ≤ buf.length)
          (valid : pools.occ.Valid buf)
          (found : (verify (body.withAnchor (anchors id)) buf layout s
            pools).1 = some m) :
          s ∈ placesOf ((Pins.take bodies anchors).pins.places buf layout
            (Pins.take bodies anchors).bodies) id := by
        obtain ⟨hit, past, allowed⟩ := verify_taken here pin inside valid found
        exact complete.complete s past allowed hit
      refine ⟨?_, complete.increasing, ?_⟩
      · apply filterMap_eq_of_increasing complete.increasing
          (occurrences_increasing _ _ _ _)
        intro s m
        rw [mem_occurrences]
        constructor
        · intro found
          obtain ⟨member, match_⟩ := found
          have inside := complete.inside s member
          obtain ⟨hit, _, _⟩ := verify_taken here pin inside
            (Pools.valid_new .unlimited buf) match_
          rw [answer_withAnchor here hit] at match_
          exact ⟨⟨Nat.zero_le s, inside, hit⟩, match_⟩
        · intro found
          obtain ⟨⟨_, inside, hit⟩, match_⟩ := found
          rw [← answer_withAnchor here hit] at match_
          exact ⟨reach inside (Pools.valid_new .unlimited buf) match_, match_⟩
      · intro s inside pools valid found
        obtain ⟨m, found⟩ := Option.isSome_iff_exists.mp found
        exact reach inside valid found

/-- A pure literal that may start at offset 1 to 3, found at both its places. -/
theorem take_matches_swept_literal :
    let body : Body := ⟨none, .fixed 0 0, .constrained (.abs 1 2), 0, false,
      none, .ndb "Lit" false⟩
    let taken := Pins.take [body] fun _ => [0x61, 0x62]
    placesOf (taken.pins.matches [0x78, 0x61, 0x62, 0x61, 0x62] none
        taken.bodies (Pools.new .unlimited)) 0 = [1, 3] := by
  intro body taken
  have compiled : AllCompiled [body] fun _ => [0x61, 0x62] := by
    intro id other there
    have same : other = body := by
      have member := List.mem_of_getElem? there
      simpa using member
    subst same
    refine ⟨⟨?_, fun _ => rfl⟩, Nat.le_refl 2, ?_⟩
    · intro elems none
      cases none
    · intro elems none
      cases none
  have found := @take_matches_swept [body] (fun _ => [0x61, 0x62])
    [0x78, 0x61, 0x62, 0x61, 0x62] none body 0 (by decide) compiled rfl
  have flag : taken.taken[0]? = some true := rfl
  rw [if_pos flag] at found
  exact found.1.trans (by decide)

end

end Exav.Engine
