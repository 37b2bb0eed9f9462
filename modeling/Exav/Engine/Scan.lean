import Exav.Engine.Ldb

/-!
# Scanning an object

A scan verifies the bodies behind every anchor hit and counts the matches of
the bodies of logical signatures; then it evaluates the logical signatures that
may hold.  Hits are buffered first, so that bodies of logical signatures that
cannot hold any more are not verified.  `scanFirst` stops at the first
signature that matches, `scanAll` collects every one.

What the walk over the hits hands to its callback does not depend on the
callback, which can only stop it: the walk is the list of events it would hand
over, run by `visitAll`.
-/

namespace Exav.Engine

open Exav.Visit

/-! ## The engine -/

/-- The anchors of the bodies that share a target and case flag: for each value
the bodies behind it. -/
structure Partition where
  target : Nat
  nocase : Bool
  groups : List (List Nat)

/-- The bodies a logical signature counts. -/
def Ldb.bodyIds (l : Ldb) : List Nat :=
  l.subs.flatMap fun
    | .bodies ids => ids
    | _ => []

/-- A loaded signature set.  Every body of a logical signature is that
signature's alone, and `firesOnEmpty` says whether its expression holds of no
match at all. -/
structure SigEngine where
  partitions : List Partition
  pins : Pins
  bodies : List Body
  ldbs : List Ldb
  built : ∀ body ∈ bodies, body.Built
  owned : ∀ l ∈ ldbs, ∀ b ∈ l.bodyIds,
    ∃ body, bodies[b]? = some body ∧ body.owner = .ldbSub
  apart : ∀ (li lj : Nat) (l m : Ldb) (b : Nat), ldbs[li]? = some l → ldbs[lj]? = some m →
    b ∈ l.bodyIds → b ∈ m.bodyIds → li = lj
  empties : ∀ l ∈ ldbs, l.firesOnEmpty = l.expr.eval fun _ => 0

/-- The logical signature each body belongs to: the last that counts it. -/
def SigEngine.bodyLdb (eng : SigEngine) (b : Nat) : Option Nat :=
  eng.ldbs.zipIdx.foldl
    (fun li (l, i) => if b ∈ l.bodyIds then some i else li) none

/-- Indices of the logical signatures that pass a test. -/
def SigEngine.ldbsWhere (eng : SigEngine) (test : Ldb → Bool) : List Nat :=
  (eng.ldbs.zipIdx.filter fun (l, _) => test l).map (·.2)

/-- Logical signatures that hold without any match. -/
def SigEngine.firesEmpty (eng : SigEngine) : List Nat :=
  eng.ldbsWhere (·.firesOnEmpty)

def SubSig.isFuzzy : SubSig → Bool
  | .fuzzy _ _ => true
  | _ => false

/-- Logical signatures with an image hash among their subsignatures. -/
def SigEngine.fuzzyLdbs (eng : SigEngine) : List Nat :=
  eng.ldbsWhere fun l => l.subs.any SubSig.isFuzzy

/-! ## Hits -/

/-- `count` hits of the anchor `value` of partition `pidx`, at `start`,
`start + 1`, and so on. -/
structure Report where
  pidx : Nat
  value : Nat
  start : Nat
  count : Nat
  deriving DecidableEq

/-- Most hits one buffered entry stands for. -/
def maxCount : Nat := 2 ^ 16

/-- Hits as buffered entries, in order. -/
def pushHits : Nat → Report → List Report
  | 0, _ => []
  | fuel + 1, r =>
      if r.count = 0 then []
      else
        let n := min r.count maxCount
        { r with count := n } ::
          pushHits fuel { r with start := r.start + n, count := r.count - n }

def Report.entries (r : Report) : List Report :=
  pushHits r.count r

/-- Consecutive entries of a run joined again, but for the pinned bodies'
candidates, which are no run. -/
def joinFrom (pinned : Nat) : Report → List Report → List Report
  | h, [] => [h]
  | h, g :: hits =>
      if h.pidx ≠ pinned ∧ g.pidx = h.pidx ∧ g.value = h.value ∧
          g.start = h.start + h.count then
        joinFrom pinned { h with count := h.count + g.count } hits
      else h :: joinFrom pinned g hits

def joinHits (pinned : Nat) : List Report → List Report
  | [] => []
  | h :: hits => joinFrom pinned h hits

/-- The bodies behind value `value` of partition `pidx`; past the last
partition, where the pinned bodies' candidates are, body `value`. -/
def SigEngine.group (eng : SigEngine) (pidx value : Nat) : List Nat :=
  match eng.partitions[pidx]? with
  | some p => p.groups[value]?.getD []
  | none => [value]

/-! ## Verifying hits -/

/-- Cap on the steps one anchor group draws in a scan. -/
def maxGroupSteps : Nat := 16000000

structure GroupCost where
  steps : Nat × Nat → Nat
  cap : Nat
  past : Nat

def GroupCost.new (cap : Nat) : GroupCost where
  steps _ := 0
  cap := cap
  past := 0

/-- Whether a group may still verify. -/
def GroupCost.admits (g : GroupCost) (key : Nat × Nat) : Bool :=
  g.past == 0 || g.steps key ≤ g.cap

def GroupCost.charge (g : GroupCost) (key : Nat × Nat) (drawn : Nat) :
    GroupCost :=
  if drawn = 0 then g
  else
    { g with
      steps := fun k => if k = key then g.steps key + drawn else g.steps k
      past := if g.steps key ≤ g.cap ∧ g.steps key + drawn > g.cap then
        g.past + 1 else g.past }

/-- Steps drawn between two states of the pool. -/
def Budget.drawn : Budget → Budget → Nat
  | .steps before, .steps after => before - after
  | _, _ => 0

/-- What verifying carries from one hit to the next. -/
structure Verifier where
  pools : Pools
  groupCost : GroupCost

def Verifier.new (budget : Budget) : Verifier where
  pools := Pools.new budget
  groupCost := GroupCost.new maxGroupSteps

/-- Matches of a body: it, where the first starts, and how many there are, at
that start and the next ones. -/
structure Event where
  body : Nat
  start : Nat
  count : Nat

section

variable (eng : SigEngine) (buf : Bytes) (layout : Option PeLayout)

/-- Verify body `bid` at `count` hits from `start`, charging the steps to the
group. -/
def verifyBody (v : Verifier) (bid : Nat) (r : Report) :
    List Event × Verifier :=
  match eng.bodies[bid]? with
  | none => ([], v)
  | some body =>
      let (found, pools) :=
        if r.count = 1 then
          let (start, pools) := verify body buf layout r.start v.pools
          ((start.map fun s => (s, 1)).toList, pools)
        else verifyRun body buf layout r.start r.count v.pools
      (found.map fun (s, n) => ⟨bid, s, n⟩,
        { pools := pools
          groupCost := v.groupCost.charge (r.pidx, r.value)
            (v.pools.budget.drawn pools.budget) })

/-- Whether the gate rules the body's logical signature out. -/
def isDead (alive : Option (Nat → Bool)) (bid : Nat) : Bool :=
  match alive, eng.bodyLdb bid with
  | some alive, some li => !alive li
  | _, _ => false

def verifyBodies (alive : Option (Nat → Bool)) (r : Report) :
    List Nat → Verifier → List Event × Verifier
  | [], v => ([], v)
  | bid :: bids, v =>
      if isDead eng alive bid then verifyBodies alive r bids v
      else
        let (found, v) := verifyBody eng buf layout v bid r
        let (rest, v) := verifyBodies alive r bids v
        (found ++ rest, v)

/-- Verify the bodies behind a hit, but those the gate rules out. -/
def verifyHit (alive : Option (Nat → Bool)) (r : Report) (v : Verifier) :
    List Event × Verifier :=
  if v.groupCost.admits (r.pidx, r.value) then
    verifyBodies eng buf layout alive r (eng.group r.pidx r.value) v
  else ([], { v with pools := { v.pools with truncated := true } })

def verifyHits (alive : Option (Nat → Bool)) :
    List Report → Verifier → List Event × Verifier
  | [], v => ([], v)
  | r :: reports, v =>
      let (found, v) := verifyHit eng buf layout alive r v
      let (rest, v) := verifyHits alive reports v
      (found ++ rest, v)

/-- Verify the buffered entries, in order. -/
def replay (alive : Option (Nat → Bool)) (hits : List Report) (v : Verifier) :
    List Event × Verifier :=
  verifyHits eng buf layout alive (joinHits eng.partitions.length hits) v

end

/-! ## The gate -/

def gateMinHits : Nat := 50000

section

variable (eng : SigEngine)

def hitBodies (hits : List Report) : List Nat :=
  hits.flatMap fun h => eng.group h.pidx h.value

/-- A subsignature none of whose bodies has a hit; one without an anchor is
never absent. -/
def absentSub (hits : List Report) (l : Ldb) (i : Nat) : Bool :=
  match l.subs[i]? with
  | some (.bodies ids) => !ids.any fun b => b ∈ hitBodies eng hits
  | _ => false

/-- Which logical signatures can still hold, given the hits of a whole sweep.
`none` when gating is not worth setting up. -/
def ldbAlive (hits : List Report) (total : Nat) : Option (Nat → Bool) :=
  if eng.ldbs.isEmpty || total < gateMinHits then none
  else
    some fun li =>
      match eng.ldbs[li]? with
      | none => true
      | some l =>
          -- Only signatures with a body that has a hit are looked at.
          if (hitBodies eng hits).any fun b => eng.bodyLdb b == some li then
            l.expr.canBeTrueAbsent (absentSub eng hits l)
          else true

/-! ## The walk -/

def maxBufferedHits : Nat := 4000000

/-- Buffer reports up to a cap: the entries and what they stand for, and the
reports that were not buffered any more. -/
def buffer (cap : Nat) :
    List Report → List Report → Nat → List Report × Nat × List Report
  | [], hits, total => (hits, total, [])
  | r :: reports, hits, total =>
      if hits.length + (r.count + maxCount - 1) / maxCount ≤ cap then
        buffer cap reports (hits ++ r.entries) (total + r.count)
      else (hits, total, r :: reports)

def pinnedReports (obj : Object) : List Report :=
  ((eng.pins.places obj.buf obj.layout eng.bodies).filter fun place =>
      (eng.bodies[place.1]?.map fun body =>
        Ldb.targetApplies body.target obj).getD false).map
    fun (b, s) => ⟨eng.partitions.length, b, s, 1⟩

/-- Every match in the order the walk finds it; `swept` are the reports of the
sweep. -/
def walkEvents (budget : Budget) (obj : Object) (swept : List Report) :
    List Event :=
  let reports := pinnedReports eng obj ++ swept
  let v := Verifier.new budget
  if eng.ldbs.isEmpty then
    (verifyHits eng obj.buf obj.layout none reports v).1
  else
    match buffer maxBufferedHits reports [] 0 with
    | (hits, total, []) =>
        (replay eng obj.buf obj.layout (ldbAlive eng hits total) hits v).1
    | (hits, _, rest) =>
        let (found, v) := replay eng obj.buf obj.layout none hits v
        found ++ (verifyHits eng obj.buf obj.layout none rest v).1

end

/-! ## What a scan keeps -/

/-- Per body how often it matched and where first, and the bodies that did. -/
structure Scratch where
  counts : Nat → Nat
  offs : Nat → Option Nat
  touched : List Nat

def Scratch.new : Scratch where
  counts _ := 0
  offs _ := none
  touched := []

def Scratch.record (sc : Scratch) (e : Event) : Scratch :=
  -- Below the sentinel, so a real offset never reads as no match.
  let s := min e.start (usizeMax - 1)
  { counts := fun b =>
      if b = e.body then addCount (sc.counts b) (min e.count u32Max)
      else sc.counts b
    offs := fun b =>
      if b = e.body then
        match sc.offs b with
        | none => some s
        | some o => some (min o s)
      else sc.offs b
    touched := if sc.counts e.body = 0 then sc.touched ++ [e.body]
      else sc.touched }

structure Detection where
  name : String
  offset : Nat
  unofficial : Bool
  deriving DecidableEq

/-- A bytecode program and where its trigger's subsignatures first matched. -/
abbrev Fired := Nat × List Nat

/-- Where each subsignature first matched; the largest value for none. -/
def subOffsets (l : Ldb) (sc : Scratch) : List Nat :=
  l.subs.map fun
    | .bodies ids =>
        match (ids.filterMap sc.offs).min? with
        | some o => min o (u32Max - 1)
        | none => u32Max
    | _ => u32Max

section

variable (eng : SigEngine) (obj : Object)

def imgHash : Option UInt64 :=
  if eng.fuzzyLdbs.isEmpty then none else obj.imageHash

/-- Logical signatures worth evaluating: those with a body that matched, those
that hold without a match, and of an image those with an image hash. -/
def candidateLdbs (touched : List Nat) (includeFuzzy : Bool) : List Nat :=
  let cand := touched.filterMap eng.bodyLdb ++ eng.firesEmpty ++
    if includeFuzzy then eng.fuzzyLdbs else []
  (cand.mergeSort (· ≤ ·)).dedup

def candidates (sc : Scratch) : List Nat :=
  candidateLdbs eng sc.touched (imgHash eng obj).isSome

/-- Whether a signature holds of what the scan has counted. -/
def evalLdb (sc : Scratch) (l : Ldb) : Bool :=
  l.eval obj sc.counts sc.offs (imgHash eng obj)

/-! ## All matches -/

/-- What an all-matches scan collects.  `fired` is `none` when the bytecode
triggers are not asked for. -/
structure Collected where
  out : List Detection
  seen : List String
  fired : Option (List Fired)
  retype : Option FileType

def Collected.push (c : Collected) (d : Detection) : Collected :=
  if d.name ∈ c.seen then c
  else { c with out := c.out ++ [d], seen := c.seen ++ [d.name] }

/-- The callback of an all-matches walk. -/
def collectMatch (state : Collected × Scratch) (e : Event) :
    (Collected × Scratch) × Bool :=
  match eng.bodies[e.body]?.map Body.owner with
  | some (.ndb name unofficial) =>
      ((state.1.push ⟨name, e.start, unofficial⟩, state.2), true)
  | some .ldbSub => ((state.1, state.2.record e), true)
  | none => (state, true)

/-- Evaluate the logical signature `li`, after the walk. -/
def collectLdb (sc : Scratch) (c : Collected) (li : Nat) : Collected :=
  match eng.ldbs[li]? with
  | none => c
  | some l =>
      if !l.gatesOk obj then c
      else
        match l.bytecode with
        | some program =>
            match c.fired with
            | some fired =>
                if evalLdb eng obj sc l then
                  { c with fired := some (fired ++ [(program, subOffsets l sc)]) }
                else c
            | none => c
        | none =>
            match l.handlerType with
            | some ft =>
                if evalLdb eng obj sc l then { c with retype := some ft } else c
            | none =>
                if evalLdb eng obj sc l then c.push ⟨l.name, 0, l.unofficial⟩
                else c

def scanAllFrom (wantFired : Bool) (events : List Event) : Collected :=
  let start : Collected := ⟨[], [], if wantFired then some [] else none, none⟩
  let (c, sc) := (visitAll (collectMatch eng) (start, .new) events).1
  (candidates eng obj sc).foldl (collectLdb eng obj sc) c

def scanAll (budget : Budget) (wantFired : Bool) (swept : List Report) :
    Collected :=
  scanAllFrom eng obj wantFired (walkEvents eng budget obj swept)

/-! ## First match -/

def firstMatch (skip : String → Bool → Bool)
    (state : Option Detection × Scratch) (e : Event) :
    (Option Detection × Scratch) × Bool :=
  match eng.bodies[e.body]?.map Body.owner with
  | some (.ndb name unofficial) =>
      if skip name unofficial then (state, true)
      else ((some ⟨name, e.start, unofficial⟩, state.2), false)
  | some .ldbSub => ((state.1, state.2.record e), true)
  | none => (state, true)

/-- What a first-match scan leaves behind beside its detection. -/
structure Aside where
  fired : Option (List Fired)
  retype : Option FileType

/-- Evaluate logical signatures until one is a detection. -/
def firstLdb (skip : String → Bool → Bool) (sc : Scratch) :
    List Nat → Aside → Option Detection × Aside
  | [], a => (none, a)
  | li :: cands, a =>
      match eng.ldbs[li]? with
      | none => firstLdb skip sc cands a
      | some l =>
          if !l.gatesOk obj then firstLdb skip sc cands a
          else
            match l.bytecode with
            | some program =>
                match a.fired with
                | some fired =>
                    if evalLdb eng obj sc l then
                      let fired := fired ++ [(program, subOffsets l sc)]
                      firstLdb skip sc cands { a with fired := some fired }
                    else firstLdb skip sc cands a
                | none => firstLdb skip sc cands a
            | none =>
                if evalLdb eng obj sc l then
                  match l.handlerType with
                  | some ft =>
                      firstLdb skip sc cands { a with retype := some ft }
                  | none =>
                      if skip l.name l.unofficial then firstLdb skip sc cands a
                      else (some ⟨l.name, 0, l.unofficial⟩, a)
                else firstLdb skip sc cands a

def scanFirstFrom (skip : String → Bool → Bool) (wantFired : Bool)
    (events : List Event) : Option Detection × Aside :=
  let start : Aside := ⟨if wantFired then some [] else none, none⟩
  match (visitAll (firstMatch eng skip) (none, .new) events).1 with
  | (some hit, _) => (some hit, start)
  | (none, sc) => firstLdb eng obj skip sc (candidates eng obj sc) start

def scanFirst (skip : String → Bool → Bool) (budget : Budget)
    (wantFired : Bool) (swept : List Report) : Option Detection :=
  (scanFirstFrom eng obj skip wantFired (walkEvents eng budget obj swept)).1

end

end Exav.Engine
