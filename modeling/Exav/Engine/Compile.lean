import Exav.Engine.Simulator
import Exav.Engine.Parse

/-!
# Verifying an anchor hit

A compiled body says where its literal anchor sits in the pattern and where the
object lets the pattern start.  `verify` decides one anchor hit; `verifyRun`
decides a run of hits inside a run of one byte, most of them at once.
-/

namespace Exav.Engine

/-! ## Offsets -/

/-- The facts of a PE file that offsets are relative to, as file offsets. -/
structure PeLayout where
  entry : Option Nat
  sectionRawptrs : List Nat
  sectionRawsizes : List Nat
  versionInfo : List Nat

/-- A concrete offset constraint; `shift` is the width of its window. -/
inductive OffsetKind where
  | abs (n shift : Nat)
  | eof (n shift : Nat)
  | ep (delta : Int) (shift : Nat)
  | sec (idx : Nat) (delta : Int) (shift : Nat)
  | secLast (delta : Int) (shift : Nat)
  | secIn (idx : Nat)
  | versionInfo
  deriving DecidableEq

/-- Offset constraint on where the pattern start may sit. -/
inductive Offset where
  | any
  | constrained (kind : OffsetKind)
  deriving DecidableEq

/-- Where an offset constraint lets a pattern start. -/
inductive StartSet where
  | anywhere
  | range (lo hi : Nat)
  | points (allowed : List Nat)
  deriving DecidableEq

/-- Addition that stops at the largest size. -/
def saturatingAdd (a b : Nat) : Nat :=
  min (a + b) usizeMax

def addDelta (base : Nat) (delta : Int) : Option Nat :=
  if 0 ≤ delta then
    if base + delta.toNat ≤ usizeMax then some (base + delta.toNat) else none
  else if delta.natAbs ≤ base then some (base - delta.natAbs)
  else none

/-- The pattern starts `off` allows in a file of `filelen` bytes; `none` when it
allows none. -/
def startSet (off : Offset) (filelen : Nat) (layout : Option PeLayout) :
    Option StartSet :=
  let window (base shift : Nat) := StartSet.range base (saturatingAdd base shift)
  match off with
  | .any => some .anywhere
  | .constrained kind =>
      match kind with
      | .abs n shift => some (window n shift)
      | .eof n shift =>
          if n ≤ filelen then some (window (filelen - n) shift) else none
      | .ep delta shift => do
          let entry ← (← layout).entry
          return window (← addDelta entry delta) shift
      | .sec idx delta shift => do
          let ptr ← (← layout).sectionRawptrs[idx]?
          return window (← addDelta ptr delta) shift
      | .secLast delta shift => do
          let ptr ← (← layout).sectionRawptrs.getLast?
          return window (← addDelta ptr delta) shift
      | .secIn idx => do
          let l ← layout
          let p ← l.sectionRawptrs[idx]?
          let n ← l.sectionRawsizes[idx]?
          return .range p (saturatingAdd p n)
      | .versionInfo => do
          let l ← layout
          return .points l.versionInfo

/-- A start set's own membership test. -/
def StartSet.allows (set : StartSet) (start : Nat) : Bool :=
  match set with
  | .anywhere => true
  | .range lo hi => start ≥ lo && start ≤ hi
  | .points allowed => allowed.contains start

def offsetOk (off : Offset) (start filelen : Nat) (layout : Option PeLayout) :
    Bool :=
  match startSet off filelen layout with
  | none => false
  | some set => set.allows start

/-! ## Bodies -/

/-- Where a body's literal anchor sits relative to the pattern start. -/
inductive Prefix where
  | fixed (anchorIdx len : Nat)
  | floating (anchorIdx : Nat)
  | internal (anchorIdx : Nat)
  deriving DecidableEq

/-- Index of the element serving as the anchor. -/
def Prefix.anchorIdx : Prefix → Nat
  | .fixed anchorIdx _ => anchorIdx
  | .floating anchorIdx => anchorIdx
  | .internal anchorIdx => anchorIdx

/-- Whom a body belongs to. -/
inductive Owner where
  | ndb (name : String) (unofficial : Bool)
  | ldbSub
  deriving DecidableEq

/-- A compiled body.  `elems` is `none` for a pure literal, whose anchor is the
whole pattern. -/
structure Body where
  elems : Option (List Elem)
  bodyPrefix : Prefix
  offset : Offset
  target : Nat
  nocase : Bool
  fullwordLen : Option Nat
  owner : Owner

def isWordByte (b : UInt8) : Bool :=
  (48 ≤ b && b ≤ 57) || (65 ≤ b && b ≤ 90) || (97 ≤ b && b ≤ 122)

section

variable (body : Body) (buf : Bytes) (layout : Option PeLayout)

/-- Run `rest` unless the pool is empty, which flags the scan. -/
def guardBudget {α : Type} (pools : Pools) (rest : Pools → Option α × Pools) :
    Option α × Pools :=
  if pools.budget.isZero then (none, { pools with truncated := true })
  else rest pools

/-- Whether `off` lets the pattern start at `start`. -/
def offAt (start : Nat) : Bool :=
  offsetOk body.offset start buf.length layout

/-- Match `toks` from `at_`; a match answers with `start`. -/
def sim (toks : List Elem) (at_ start : Nat) (pools : Pools) :
    Option Nat × Pools :=
  guardBudget pools fun pools =>
    let (matched, pools) := gapSplitMatch buf body.nocase toks at_ pools
    (if matched then some start else none, pools)

/-- The pattern start `toks` lead back to from the anchor, where it is
allowed. -/
def simBackward (toks : List Elem) (anchorStart : Nat) (pools : Pools) :
    Option Nat × Pools :=
  guardBudget pools fun pools =>
    let (start, pools) :=
      gapSplitMatchBackward buf body.nocase toks anchorStart pools
    (start.filter (offAt body buf layout), pools)

/-- The hit itself, without the word boundaries: the pattern start of a match
whose anchor is at `anchorStart`. -/
def verifyInner (anchorStart : Nat) (pools : Pools) : Option Nat × Pools :=
  match body.elems with
  | none =>
      (if offAt body buf layout anchorStart then some anchorStart else none,
        pools)
  | some elems =>
      match body.bodyPrefix with
      | .fixed _ len =>
          let start := anchorStart - len
          if anchorStart < len then (none, pools)
          else if offAt body buf layout start then
            sim body buf elems start start pools
          else (none, pools)
      | .floating anchorIdx =>
          if offAt body buf layout anchorStart then
            sim body buf (elems.drop anchorIdx) anchorStart anchorStart pools
          else (none, pools)
      | .internal anchorIdx =>
          match sim body buf (elems.drop anchorIdx) anchorStart anchorStart
            pools with
          | (none, pools) => (none, pools)
          | (some _, pools) =>
              simBackward body buf layout (elems.take anchorIdx) anchorStart
                pools

/-- A match from `s` on `len` bytes is not glued to a longer word. -/
def wholeWord (s len : Nat) : Bool :=
  let wordAt (i : Nat) := decide (i < buf.length) && isWordByte (byteAt buf i)
  (s == 0 || !wordAt (s - 1)) && !wordAt (s + len)

/-- The pattern start of a match whose anchor is at `anchorStart`. -/
def verify (anchorStart : Nat) (pools : Pools) : Option Nat × Pools :=
  let (start, pools) := verifyInner body buf layout anchorStart pools
  (start.filter fun s =>
    match body.fullwordLen with
    | none => true
    | some len => wholeWord buf s len, pools)

/-- How far around an anchor hit the elements can reach. -/
def elemsReach : Option (Nat × Nat) :=
  match body.elems with
  | none => some (0, 0)
  | some elems =>
      match body.bodyPrefix with
      | .fixed _ len => do return (len, (← maxTotalWidth elems) - len)
      | .floating anchorIdx => do
          return (0, ← maxTotalWidth (elems.drop anchorIdx))
      | .internal anchorIdx => do
          return (← maxTotalWidth (elems.take anchorIdx),
            ← maxTotalWidth (elems.drop anchorIdx))

/-- How far around an anchor hit `verify` can read: before it and from it on.
`none` when a gap is unbounded. -/
def reach : Option (Nat × Nat) := do
  let (back, fwd) ← elemsReach body
  match body.fullwordLen with
  | none => return (back, fwd)
  | some len => return (back + 1, max fwd (len + 1))

/-- Verify the hits of a plan in order; an item `(s, n)` is the hit at `s`,
whose match is reported as `n` of them. -/
def verifyEach : List (Nat × Nat) → Pools → List (Nat × Nat) × Pools
  | [], pools => ([], pools)
  | (s, n) :: plan, pools =>
      let (start, pools) := verify body buf layout s pools
      let (rest, pools) := verifyEach plan pools
      match start with
      | none => (rest, pools)
      | some m => ((m, n) :: rest, pools)

/-- The hits from `lo` up to `hi`, each on its own. -/
def singles (lo hi : Nat) : List (Nat × Nat) :=
  (List.range' lo (hi - lo)).map (·, 1)

/-- The anchors in `start..stop` of the patterns that start in `lo..=hi`, `len`
bytes before them. -/
def clip (start stop len lo hi : Nat) : Option (Nat × Nat) :=
  let lo := max (saturatingAdd lo len) start
  let hi := min (saturatingAdd (saturatingAdd hi len) 1) stop
  if lo < hi then some (lo, hi) else none

/-- The hits of the run `start..stop` the offset allows, as ranges of anchor
positions; `none` where every hit is verified on its own. -/
def allowedHits (start stop : Nat) : Option (List (Nat × Nat)) :=
  match body.offset with
  | .any => some [(start, stop)]
  | .constrained _ =>
      let ranges (len : Nat) :=
        match startSet body.offset buf.length layout with
        | none => []
        | some .anywhere => [(start, stop)]
        | some (.range lo hi) => (clip start stop len lo hi).toList
        | some (.points allowed) =>
            (allowed.insertionSort (· ≤ ·)).dedup.filterMap
              fun p => clip start stop len p p
      match body.bodyPrefix with
      | .fixed _ len => some (ranges len)
      | .floating _ => some (ranges 0)
      | .internal _ => none

/-- The hits of the run `start..stop` whose whole reach lies inside the run. -/
def interiorHits (start stop : Nat) : Option (Nat × Nat) := do
  let (back, fwd) ← reach body
  if fwd ≤ stop + 1 ∧ start + back < stop + 1 - fwd then
    some (start + back, stop + 1 - fwd)
  else none

/-- A bound moved into `lo..=hi`. -/
def clamp (x lo hi : Nat) : Nat :=
  if x < lo then lo else if x > hi then hi else x

def rangePlan (interior : Option (Nat × Nat)) (range : Nat × Nat) :
    List (Nat × Nat) :=
  let (lo, hi) := range
  let (ilo, ihi) := match interior with
    | some (a, b) =>
        if clamp a lo hi < clamp b lo hi then (clamp a lo hi, clamp b lo hi)
        else (hi, hi)
    | none => (hi, hi)
  singles lo ilo ++ (if ilo < ihi then [(ilo, ihi - ilo)] else []) ++
    singles ihi hi

/-- The verifications made for the run of hits `start..start + count`. -/
def runPlan (start count : Nat) : List (Nat × Nat) :=
  let stop := start + count
  match allowedHits body buf layout start stop with
  | none => singles start stop
  | some ranges =>
      ranges.flatMap (rangePlan (interiorHits body start stop))

/-- The matches reported for the run of hits `start..start + count` of one
anchor, in order: `(first, n)` stands for the matches at `first..first + n`. -/
def verifyRun (start count : Nat) (pools : Pools) :
    List (Nat × Nat) × Pools :=
  verifyEach body buf layout (runPlan body buf layout start count) pools

end

/-!
## Choosing the anchor of a body

`pickAnchor` chooses the literal whose occurrences lead to a body: the most
selective one, as a score that depends on the rest of the signature set rates
it.  Whatever the score, the choice is an anchor (`Anchored`): a literal of the
body, at the distance from the pattern start its prefix kind says.
-/

/-- The shortest literal that can be an anchor. -/
def minAnchor : Nat := 2

def u32Max : Nat := 2 ^ 32 - 1

/-- The lowest score. -/
def isizeMin : Int := -2 ^ 63

/-- What `pickAnchor` carries from element to element: the distance from the
pattern start while that is fixed, and the best candidate with a fixed distance
and the best of all, each with its score and length. -/
structure Pick where
  fixed : Nat
  inFixedPrefix : Bool
  bestFixed : Option (Int × Nat × Prefix)
  bestAny : Option (Int × Nat × Nat)

def Pick.start : Pick where
  fixed := 0
  inFixedPrefix := true
  bestFixed := none
  bestAny := none

/-- A higher score wins, and of equal scores the longer literal. -/
def beats {α : Type} (score : Int) (len : Nat) :
    Option (Int × Nat × α) → Bool
  | some (s, l, _) => score > s || (score == s && len > l)
  | none => true

/-- A literal as a candidate at a distance from the pattern start.  A distance
that cannot be stored is none. -/
def Pick.offerFixed (p : Pick) (score : Int) (len i : Nat) : Pick :=
  if p.inFixedPrefix ∧ p.fixed ≤ u32Max ∧ i ≤ u32Max ∧
      beats score len p.bestFixed then
    { p with bestFixed := some (score, len, .fixed i p.fixed) }
  else p

/-- A literal as a candidate anywhere. -/
def Pick.offerAny (p : Pick) (score : Int) (len i : Nat) : Pick :=
  if beats score len p.bestAny then
    { p with bestAny := some (score, len, i) }
  else p

def Pick.advance (p : Pick) (elem : Elem) : Pick :=
  match elem.width with
  | some w => { p with fixed := saturatingAdd p.fixed w }
  -- Past the first variable element.
  | none => { p with inFixedPrefix := false }

/-- A literal long enough is offered as a candidate. -/
def Pick.offer (p : Pick) (score : Bytes → Int) (i : Nat) : Elem → Pick
  | .bytes b =>
      if minAnchor ≤ b.length then
        (p.offerFixed (score b) b.length i).offerAny (score b) b.length i
      else p
  | _ => p

/-- The candidates of the elements from index `i` on. -/
def pickFrom (score : Bytes → Int) : List Elem → Nat → Pick → Pick
  | [], _, p => p
  | elem :: elems, i, p =>
      pickFrom score elems (i + 1) ((p.offer score i elem).advance elem)

def isGap : Elem → Bool
  | .gap _ _ => true
  | _ => false

/-- An anchor past variable elements, when it beats the one at a fixed
distance. -/
def internalChoice (elems : List Elem) (p : Pick) : Option Prefix := do
  let (anyScore, _, idx) ← p.bestAny
  let fixedScore := (p.bestFixed.map (·.1)).getD isizeMin
  if anyScore > fixedScore then
    -- A single leading gap is the cheap case.
    if idx = 1 ∧ (elems.head?.any isGap) then some (.floating 1)
    else if 0 < idx ∧ idx ≤ u32Max then some (.internal idx)
    else none
  else none

/-- A single leading variable gap, then a usable literal. -/
def floatingChoice : List Elem → Option Prefix
  | .gap _ _ :: .bytes b :: _ =>
      if minAnchor ≤ b.length then some (.floating 1) else none
  | _ => none

/-- Pick the anchor of a body.  `score` rates a literal, by the statistics of
the signature set where there are some. -/
def pickAnchor (score : Bytes → Int) (elems : List Elem)
    (allowInternal : Bool) : Option Prefix :=
  let p := pickFrom score elems 0 .start
  (if allowInternal then internalChoice elems p else none).or
    ((p.bestFixed.map fun (_, _, chosen) => chosen).or (floatingChoice elems))

def compileBody (score : Bytes → Int) (hex : List Char)
    (allowInternal : Bool) : Option (List Elem × Bytes × Prefix) := do
  let elems ← parseElems hex
  let chosen ← pickAnchor score elems allowInternal
  match elems[chosen.anchorIdx]? with
  | some (.bytes anchor) => return (elems, anchor, chosen)
  | _ => none

/-- The pattern is its anchor. -/
def isLiteralOnly (elems : List Elem) (chosen : Prefix) : Bool :=
  match chosen, elems with
  | .fixed 0 0, [.bytes _] => true
  | _, _ => false

/-- The body of hex text that nothing constrains but its elements. -/
def hexBody (elems : List Elem) (chosen : Prefix) (nocase : Bool) : Body where
  elems := if isLiteralOnly elems chosen then none else some elems
  bodyPrefix := chosen
  offset := .any
  target := 0
  nocase := nocase
  fullwordLen := none
  owner := .ndb "Hex" false

/-- What compilation makes sure of. -/
structure Body.Built (body : Body) : Prop where
  formed : ∀ elems ∈ body.elems, ∀ tok ∈ elems, tok.WellFormed
  literal : body.elems = none → body.bodyPrefix = .fixed 0 0

/-! ## Whatever the score -/

def fixedWidth : List Elem → Option Nat
  | [] => some 0
  | elem :: elems => do
      let w ← elem.width
      let rest ← fixedWidth elems
      return w + rest

structure Anchored (elems : List Elem) (chosen : Prefix) (anchor : Bytes) :
    Prop where
  literal : elems[chosen.anchorIdx]? = some (.bytes anchor)
  long : minAnchor ≤ anchor.length
  distance : ∀ idx len, chosen = .fixed idx len →
    fixedWidth (elems.take idx) = some len
  behindGap : ∀ idx, chosen = .floating idx →
    idx = 1 ∧ ∃ min max, elems.head? = some (.gap min max)

/-- What holds of the candidates of `elems` once `front` has been passed. -/
structure Pick.Sound (elems : List Elem) (front : List Elem) (p : Pick) :
    Prop where
  distance : p.inFixedPrefix = true →
    ∃ w, fixedWidth front = some w ∧ p.fixed = min w usizeMax
  fixed : ∀ s l chosen, p.bestFixed = some (s, l, chosen) →
    (∃ idx len, chosen = .fixed idx len) ∧ ∃ anchor, Anchored elems chosen anchor
  any : ∀ s l idx, p.bestAny = some (s, l, idx) →
    ∃ anchor, elems[idx]? = some (.bytes anchor) ∧ minAnchor ≤ anchor.length

theorem fixedWidth_append (front back : List Elem) :
    fixedWidth (front ++ back) = do
      let w ← fixedWidth front
      let rest ← fixedWidth back
      return w + rest := by
  induction front with
  | nil => simp [fixedWidth]
  | cons elem front ih =>
      rw [List.cons_append, fixedWidth, fixedWidth, ih]
      cases elem.width with
      | none => rfl
      | some w =>
          cases fixedWidth front with
          | none => rfl
          | some rest =>
              cases fixedWidth back with
              | none => rfl
              | some l => simp [Nat.add_assoc]

theorem u32Max_lt_usizeMax : u32Max < usizeMax := by
  decide

section

variable {elems front : List Elem} {p : Pick}

theorem Pick.Sound.offerFixed {score : Int} {anchor : Bytes}
    (sound : p.Sound elems front)
    (here : elems = front ++ elems.drop front.length)
    (literal : elems[front.length]? = some (.bytes anchor))
    (long : minAnchor ≤ anchor.length) :
    (p.offerFixed score anchor.length front.length).Sound elems front := by
  unfold Pick.offerFixed
  split
  case isFalse => exact sound
  case isTrue offered =>
    obtain ⟨fixed, small, _, _⟩ := offered
    refine ⟨sound.distance, ?_, sound.any⟩
    intro s l chosen same
    cases same
    obtain ⟨w, widths, distance⟩ := sound.distance fixed
    have bound := u32Max_lt_usizeMax
    have exact_ : w = p.fixed := by omega
    refine ⟨⟨_, _, rfl⟩, anchor, literal, long, ?_, ?_⟩
    · intro idx len same
      cases same
      have taken : elems.take front.length = front := by
        rw [here, List.take_left]
      rw [taken, widths, exact_]
    · intro idx same
      cases same

theorem Pick.Sound.offerAny {score : Int} {anchor : Bytes} {i : Nat}
    (sound : p.Sound elems front) (literal : elems[i]? = some (.bytes anchor))
    (long : minAnchor ≤ anchor.length) :
    (p.offerAny score anchor.length i).Sound elems front := by
  unfold Pick.offerAny
  split
  case isFalse => exact sound
  case isTrue =>
    refine ⟨sound.distance, sound.fixed, ?_⟩
    intro s l idx same
    cases same
    exact ⟨anchor, literal, long⟩

theorem Pick.Sound.advance (sound : p.Sound elems front) (elem : Elem) :
    (p.advance elem).Sound elems (front ++ [elem]) := by
  unfold Pick.advance
  cases width : elem.width with
  | none => exact ⟨fun passed => (by cases passed), sound.fixed, sound.any⟩
  | some w =>
      refine ⟨?_, sound.fixed, sound.any⟩
      intro fixed
      obtain ⟨before, widths, distance⟩ := sound.distance fixed
      refine ⟨before + w, ?_, ?_⟩
      · rw [fixedWidth_append, widths]
        simp [fixedWidth, width]
      · dsimp only
        rw [distance, saturatingAdd]
        omega

theorem Pick.Sound.offer {elem : Elem} (score : Bytes → Int)
    (sound : p.Sound elems front)
    (here : elems = front ++ elems.drop front.length)
    (literal : elems[front.length]? = some elem) :
    (p.offer score front.length elem).Sound elems front := by
  cases elem with
  | bytes b =>
      rw [Pick.offer]
      split
      case isTrue long =>
        exact (sound.offerFixed here literal long).offerAny literal long
      case isFalse => exact sound
  | _ => exact sound

theorem pickFrom_sound (score : Bytes → Int) {rest : List Elem}
    (sound : p.Sound (front ++ rest) front) :
    (pickFrom score rest front.length p).Sound (front ++ rest)
      (front ++ rest) := by
  induction rest generalizing front p with
  | nil => simpa [pickFrom] using sound
  | cons elem rest ih =>
      have whole : front ++ elem :: rest = (front ++ [elem]) ++ rest := by simp
      have literal : (front ++ elem :: rest)[front.length]? = some elem := by
        simp
      have next := (sound.offer score (by simp) literal).advance elem
      rw [whole] at next ⊢
      simpa [pickFrom] using ih next

theorem Pick.sound_start (elems : List Elem) :
    Pick.start.Sound elems [] :=
  ⟨fun _ => ⟨0, rfl, rfl⟩, fun _ _ _ none => (by cases none),
    fun _ _ _ none => (by cases none)⟩

/-- What `pickAnchor` picks is an anchor, whatever the score. -/
theorem pickAnchor_anchored {score : Bytes → Int} {allowInternal : Bool}
    {chosen : Prefix}
    (picked : pickAnchor score elems allowInternal = some chosen) :
    ∃ anchor, Anchored elems chosen anchor := by
  have sound : (pickFrom score elems 0 .start).Sound elems elems :=
    @pickFrom_sound [] Pick.start score elems (Pick.sound_start elems)
  have behindGap {anchor : Bytes} (gap : elems.head?.any isGap = true)
      (literal : elems[1]? = some (.bytes anchor))
      (long : minAnchor ≤ anchor.length) :
      Anchored elems (.floating 1) anchor := by
    refine ⟨literal, long, fun _ _ other => (by cases other), ?_⟩
    intro idx same
    cases same
    refine ⟨rfl, ?_⟩
    cases elems with
    | nil => cases literal
    | cons first rest =>
        cases first with
        | gap min max => exact ⟨min, max, rfl⟩
        | _ => cases gap
  rcases Option.or_eq_some_iff.mp picked with inner | ⟨_, fixed⟩
  · obtain ⟨_, inner⟩ := Option.ite_none_right_eq_some.mp inner
    obtain ⟨⟨s, l, idx⟩, best, chosenThen⟩ :=
      Option.bind_eq_some_iff.mp inner
    obtain ⟨_, chosenThen⟩ := Option.ite_none_right_eq_some.mp chosenThen
    obtain ⟨anchor, literal, long⟩ := sound.any s l idx best
    split at chosenThen
    case isTrue gap =>
      cases chosenThen
      obtain ⟨rfl, gap⟩ := gap
      exact ⟨anchor, behindGap gap literal long⟩
    case isFalse =>
      obtain ⟨_, same⟩ := Option.ite_none_right_eq_some.mp chosenThen
      cases same
      exact ⟨anchor, literal, long, fun _ _ other => (by cases other),
        fun _ other => (by cases other)⟩
  · rcases Option.or_eq_some_iff.mp fixed with best | ⟨_, behind⟩
    · obtain ⟨⟨s, l, candidate⟩, held, same⟩ := Option.map_eq_some_iff.mp best
      cases same
      exact (sound.fixed s l candidate held).2
    · unfold floatingChoice at behind
      split at behind
      case h_1 =>
        obtain ⟨long, same⟩ := Option.ite_none_right_eq_some.mp behind
        cases same
        exact ⟨_, behindGap rfl rfl long⟩
      case h_2 => cases behind

theorem compileBody_anchored {score : Bytes → Int} {hex : List Char}
    {allowInternal : Bool} {anchor : Bytes} {chosen : Prefix}
    (compiled : compileBody score hex allowInternal =
      some (elems, anchor, chosen)) :
    parseElems hex = some elems ∧ Anchored elems chosen anchor := by
  obtain ⟨parsed, parses, rest⟩ := Option.bind_eq_some_iff.mp compiled
  obtain ⟨picked, picks, rest⟩ := Option.bind_eq_some_iff.mp rest
  split at rest
  case h_1 found literal =>
    cases rest
    obtain ⟨other, anchored⟩ := pickAnchor_anchored picks
    have same := anchored.literal
    rw [literal] at same
    cases same
    exact ⟨parses, anchored⟩
  case h_2 => cases rest

theorem isLiteralOnly_iff {chosen : Prefix} :
    isLiteralOnly elems chosen = true ↔
      chosen = .fixed 0 0 ∧ ∃ b, elems = [.bytes b] := by
  constructor
  · intro literal
    unfold isLiteralOnly at literal
    split at literal
    · exact ⟨rfl, _, rfl⟩
    · cases literal
  · rintro ⟨rfl, b, rfl⟩
    rfl

end

end Exav.Engine
