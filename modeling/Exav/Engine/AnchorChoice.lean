import Exav.Engine.Backward
import Exav.Engine.VerifyRun

/-!
# What a body matches, whichever anchor leads to it

A body matches where its elements consume a stretch of the object.  Verifying
the hits of an anchor at a fixed distance, or past variable elements, decides
that.  An anchor behind a single leading gap is verified without the gap: a
match closer to the start of the object than the gap's minimum is accepted
although nothing fits the gap there.
-/

namespace Exav.Engine

open Exav.Interval

section

variable {buf : Bytes} {nocase : Bool}

/-! ## Elements of fixed width -/

theorem branchWidth_eq_some {α : Type} {opts : List (List α)} {w : Nat}
    (width : Elem.branchWidth opts = some w) : ∀ o ∈ opts, o.length = w := by
  obtain ⟨same, here⟩ := Option.ite_none_right_eq_some.mp width
  intro o member
  have equal := List.all_eq_true.mp same o member
  rw [← Option.some_inj.mp here]
  simpa using equal

theorem steps_width {tok : Elem} {w p q : Nat} (formed : tok.WellFormed)
    (width : tok.width = some w) (steps : tok.Steps buf nocase p q) :
    q = p + w := by
  cases tok with
  | bytes b =>
      cases width
      exact ((Elem.steps_bytes_iff formed).mp steps).1
  | anyByte =>
      cases width
      exact (Elem.steps_anyByte_iff.mp steps).1
  | hiNibble h =>
      cases width
      exact (Elem.steps_hiNibble_iff.mp steps).1
  | loNibble l =>
      cases width
      exact (Elem.steps_loNibble_iff.mp steps).1
  | gap min max =>
      obtain ⟨lower, upper, _⟩ := Elem.steps_gap_iff.mp steps
      cases max with
      | none => cases width
      | some max =>
          obtain ⟨same, here⟩ := Option.ite_none_right_eq_some.mp width
          have equal : max = min := by simpa using same
          have bounded := upper max rfl
          cases here
          omega
  | alt opts neg =>
      have widths := branchWidth_eq_some width
      cases neg with
      | false =>
          obtain ⟨o, member, here, _⟩ := Elem.steps_alt_iff.mp steps
          rw [here, widths o member]
      | true => exact ((Elem.steps_neg_iff formed.1 widths).mp steps).1
  | altMasked opts =>
      obtain ⟨o, member, here, _⟩ := Elem.steps_altMasked_iff.mp steps
      rw [here, branchWidth_eq_some width o member]

theorem upright_of_width {tok : Elem} {w : Nat} (width : tok.width = some w) :
    ¬tok.Inverted := by
  cases tok with
  | gap min max =>
      cases max with
      | none => exact id
      | some max =>
          obtain ⟨same, _⟩ := Option.ite_none_right_eq_some.mp width
          have equal : max = min := by simpa using same
          rw [equal]
          exact lt_irrefl min
  | _ => exact id

theorem fixedWidth_upright {toks : List Elem} {w : Nat}
    (width : fixedWidth toks = some w) : Upright toks := by
  induction toks generalizing w with
  | nil => simp [Upright]
  | cons tok toks ih =>
      obtain ⟨first, here, rest⟩ := Option.bind_eq_some_iff.mp width
      obtain ⟨later, there, _⟩ := Option.bind_eq_some_iff.mp rest
      exact Upright.cons_iff.mpr ⟨upright_of_width here, ih there⟩

theorem Derives.width {toks : List Elem} {w p q : Nat}
    (formed : ∀ tok ∈ toks, tok.WellFormed)
    (width : fixedWidth toks = some w)
    (derivation : Derives buf nocase toks p q) : q = p + w := by
  induction derivation generalizing w with
  | nil =>
      cases width
      rfl
  | cons head tail ih =>
      obtain ⟨first, here, rest⟩ := Option.bind_eq_some_iff.mp width
      obtain ⟨later, there, same⟩ := Option.bind_eq_some_iff.mp rest
      have step := steps_width (formed _ (by simp)) here head
      have after := ih (fun tok member => formed tok (by simp [member])) there
      have total : first + later = w := by simpa using same
      omega

/-! ## Programs cut in two -/

theorem spreadAll_append (front back : List Elem) (positions : Nat → Prop)
    (q : Nat) :
    spreadAll buf nocase (front ++ back) positions q ↔
      spreadAll buf nocase back (spreadAll buf nocase front positions) q := by
  induction front generalizing positions with
  | nil => rfl
  | cons tok front ih => exact ih (tok.Spreads buf nocase positions)

theorem occurs_of_spreadAll {anchor : Bytes} {toks : List Elem} {s q : Nat}
    (nonempty : anchor ≠ [])
    (spread : spreadAll buf nocase (.bytes anchor :: toks) (· = s) q) :
    occursAt (haystack nocase buf) (haystack nocase anchor) s = true := by
  by_contra absent
  have inner : spreadAll buf nocase toks
      (Elem.Spreads buf nocase (.bytes anchor) (· = s)) q :=
    spread
  refine spreadAll_empty ?_ q inner
  intro p led
  obtain ⟨start, rfl, steps⟩ := led
  exact absent ((Elem.steps_bytes_iff nonempty).mp steps).2

theorem spreadAll_behind {front back : List Elem} {p w q : Nat}
    (formed : ∀ tok ∈ front, tok.WellFormed)
    (width : fixedWidth front = some w) (inside : p ≤ buf.length)
    (spread : spreadAll buf nocase (front ++ back) (· = p) q) :
    spreadAll buf nocase back (· = p + w) q := by
  rw [spreadAll_append] at spread
  refine spreadAll_mono ?_ spread
  intro s led
  obtain ⟨start, rfl, derivation⟩ := derives_of_spreadAll
    (fixedWidth_upright width) (fun r same => same ▸ inside) led
  exact derivation.width formed width

/-! ## What verification decides -/

/-- Where an unlimited search from `pos` is not cut off it answers whether the
program leads anywhere. -/
theorem gapSplitMatch_iff {toks : List Elem} {pos : Nat} {pools : Pools}
    (formed : ∀ tok ∈ toks, tok.WellFormed) (inside : pos ≤ buf.length)
    (valid : pools.occ.Valid buf)
    (whole : (gapSplitMatch buf nocase toks pos pools).2.truncated = false) :
    (gapSplitMatch buf nocase toks pos pools).1 = true ↔
      ∃ q, spreadAll buf nocase toks (· = pos) q := by
  obtain ⟨_, _, found, missed⟩ :=
    simulate_spec nocase formed (reachable_interval le_rfl inside) valid
  rw [covers_point] at found missed
  refine ⟨found, ?_⟩
  rintro ⟨q, spread⟩
  by_contra none
  exact missed (Bool.not_eq_true _ ▸ none) whole q spread

def Matched (elems : List Elem) (chosen : Prefix) (anchor buf : Bytes)
    (nocase : Bool) : Prop :=
  ∃ s, occursAt (haystack nocase buf) (haystack nocase anchor) s = true ∧
    (answer (hexBody elems chosen nocase) buf none s).isSome = true

def HitsUncut (elems : List Elem) (chosen : Prefix) (anchor buf : Bytes)
    (nocase : Bool) : Prop :=
  ∀ s, occursAt (haystack nocase buf) (haystack nocase anchor) s = true →
    (verify (hexBody elems chosen nocase) buf none s
      (Pools.new .unlimited)).2.truncated = false

/-- Some position of the object is the start of a derivation of the body. -/
def Derivable (elems : List Elem) (buf : Bytes) (nocase : Bool) : Prop :=
  ∃ p r, Derives buf nocase elems p r

/-- What verification looks for at an anchor that starts at `s`. -/
def LeadsFrom (elems : List Elem) (buf : Bytes) (nocase : Bool) (s : Nat) :
    Prefix → Prop
  | .fixed _ len =>
      len ≤ s ∧ ∃ q, spreadAll buf nocase elems (· = s - len) q
  | .floating idx => ∃ q, spreadAll buf nocase (elems.drop idx) (· = s) q
  | .internal idx =>
      (∃ q, spreadAll buf nocase (elems.drop idx) (· = s) q) ∧
        ∃ p, Derives buf nocase (elems.take idx) p s

/-- Somewhere in the object there is what verification looks for. -/
def Leads (elems : List Elem) (chosen : Prefix) (buf : Bytes)
    (nocase : Bool) : Prop :=
  ∃ s, s ≤ buf.length ∧ LeadsFrom elems buf nocase s chosen

section

variable {elems : List Elem} {chosen : Prefix} {anchor : Bytes} {s : Nat}

theorem Anchored.nonempty (anchored : Anchored elems chosen anchor) :
    anchor ≠ [] := by
  intro empty
  have long := anchored.long
  rw [empty] at long
  exact absurd long (by decide)

theorem Anchored.drop_eq (anchored : Anchored elems chosen anchor) :
    elems.drop chosen.anchorIdx =
      .bytes anchor :: elems.drop (chosen.anchorIdx + 1) := by
  obtain ⟨inside, here⟩ := List.getElem?_eq_some_iff.mp anchored.literal
  rw [List.drop_eq_getElem_cons inside, here]

theorem hit_inside (anchored : Anchored elems chosen anchor)
    (hit : occursAt (haystack nocase buf) (haystack nocase anchor) s = true) :
    s ≤ buf.length := by
  have nonempty : haystack nocase anchor ≠ [] := by
    intro empty
    have length := congrArg List.length empty
    rw [length_haystack] at length
    exact anchored.nonempty (List.length_eq_zero_iff.mp length)
  have fits := occursAt_fits hit nonempty
  rw [length_haystack, length_haystack] at fits
  omega

theorem LeadsFrom.hit (formed : ∀ tok ∈ elems, tok.WellFormed)
    (anchored : Anchored elems chosen anchor) (inside : s ≤ buf.length)
    (leads : LeadsFrom elems buf nocase s chosen) :
    occursAt (haystack nocase buf) (haystack nocase anchor) s = true := by
  have onward {q : Nat} (spread : spreadAll buf nocase
      (elems.drop chosen.anchorIdx) (· = s) q) :
      occursAt (haystack nocase buf) (haystack nocase anchor) s = true := by
    rw [anchored.drop_eq] at spread
    exact occurs_of_spreadAll anchored.nonempty spread
  cases chosen with
  | fixed idx len =>
      obtain ⟨past, q, spread⟩ := leads
      have whole : elems = elems.take idx ++ elems.drop idx :=
        (List.take_append_drop idx elems).symm
      rw [whole] at spread
      have behind := spreadAll_behind
        (fun tok member => formed tok (List.mem_of_mem_take member))
        (anchored.distance idx len rfl) (by omega) spread
      rw [Nat.sub_add_cancel past] at behind
      exact onward behind
  | floating idx =>
      obtain ⟨q, spread⟩ := leads
      exact onward spread
  | internal idx =>
      obtain ⟨⟨q, spread⟩, _⟩ := leads
      exact onward spread

private theorem sim_eq_some {body : Body} {toks : List Elem}
    {at_ start m : Nat} {pools : Pools}
    (formed : ∀ tok ∈ toks, tok.WellFormed) (inside : at_ ≤ buf.length)
    (valid : pools.occ.Valid buf)
    (found : (sim body buf toks at_ start pools).1 = some m) :
    m = start ∧ ∃ q, spreadAll buf body.nocase toks (· = at_) q := by
  rw [sim, guardBudget] at found
  split at found
  case isTrue => cases found
  case isFalse =>
    obtain ⟨matched, same⟩ := Option.ite_none_right_eq_some.mp found
    obtain ⟨_, _, onward, _⟩ := simulate_spec body.nocase formed
      (reachable_interval le_rfl inside) valid
    rw [covers_point] at onward
    exact ⟨(Option.some_inj.mp same).symm, onward matched⟩

private theorem sim_valid (body : Body) {toks : List Elem} {at_ : Nat}
    (start : Nat) {pools : Pools} (formed : ∀ tok ∈ toks, tok.WellFormed)
    (inside : at_ ≤ buf.length) (valid : pools.occ.Valid buf) :
    (sim body buf toks at_ start pools).2.occ.Valid buf := by
  rw [sim, guardBudget]
  split
  case isTrue => exact valid
  case isFalse =>
    exact (simulate_spec body.nocase formed
      (reachable_interval le_rfl inside) valid).1

/-- A match verified at `s` is what verification looks for there. -/
theorem verifyInner_leads {body : Body} {layout : Option PeLayout} {m : Nat}
    {pools : Pools} (program : body.elems = some elems)
    (formed : ∀ tok ∈ elems, tok.WellFormed) (inside : s ≤ buf.length)
    (valid : pools.occ.Valid buf)
    (found : (verifyInner body buf layout s pools).1 = some m) :
    LeadsFrom elems buf body.nocase s body.bodyPrefix := by
  have frontFormed (idx : Nat) : ∀ tok ∈ elems.take idx, tok.WellFormed :=
    fun tok member => formed tok (List.mem_of_mem_take member)
  have backFormed (idx : Nat) : ∀ tok ∈ elems.drop idx, tok.WellFormed :=
    fun tok member => formed tok (List.mem_of_mem_drop member)
  cases kind : body.bodyPrefix with
  | fixed idx len =>
      simp only [verifyInner, program, kind] at found
      split at found
      case isTrue => cases found
      case isFalse past =>
        split at found
        case isFalse => cases found
        case isTrue =>
          have onward := sim_eq_some formed (by omega) valid found
          exact ⟨Nat.not_lt.mp past, onward.2⟩
  | floating idx =>
      simp only [verifyInner, program, kind] at found
      split at found
      case isFalse => cases found
      case isTrue => exact (sim_eq_some (backFormed idx) inside valid found).2
  | internal idx =>
      simp only [verifyInner, program, kind] at found
      rcases forward : sim body buf (elems.drop idx) s s pools
        with ⟨start, after⟩
      rw [forward] at found
      cases start with
      | none => cases found
      | some start =>
          have onward := sim_eq_some (backFormed idx) inside valid
            (congrArg Prod.fst forward)
          have afterValid := sim_valid body s (backFormed idx) inside valid
          rw [forward] at afterValid
          simp only [simBackward, guardBudget] at found
          split at found
          case isTrue => cases found
          case isFalse =>
            obtain ⟨back, _⟩ := Option.filter_eq_some_iff.mp found
            exact ⟨onward.2, m, (gapSplitMatchBackward_spec body.nocase
              (frontFormed idx) inside afterValid).1 m back⟩

private theorem sim_found {body : Body} {toks : List Elem} {at_ q : Nat}
    (start : Nat) (formed : ∀ tok ∈ toks, tok.WellFormed)
    (inside : at_ ≤ buf.length)
    (whole : (sim body buf toks at_ start
      (Pools.new .unlimited)).2.truncated = false)
    (spread : spreadAll buf body.nocase toks (· = at_) q) :
    (sim body buf toks at_ start (Pools.new .unlimited)).1 = some start := by
  rw [sim, guardBudget_free (Pools.free_new buf)] at whole ⊢
  exact if_pos ((gapSplitMatch_iff formed inside
    (Pools.valid_new .unlimited buf) whole).mpr ⟨q, spread⟩)

private theorem hexBody_verify (elems : List Elem) (chosen : Prefix)
    (nocase : Bool) (s : Nat) (pools : Pools) :
    verify (hexBody elems chosen nocase) buf none s pools =
      verifyInner (hexBody elems chosen nocase) buf none s pools := by
  rw [verify]
  rcases verifyInner (hexBody elems chosen nocase) buf none s pools
    with ⟨start, after⟩
  cases start <;> rfl

private theorem hexBody_offAt (elems : List Elem) (chosen : Prefix)
    (nocase : Bool) (p : Nat) :
    offAt (hexBody elems chosen nocase) buf none p = true := by
  simp [offAt, hexBody, offsetOk, startSet, StartSet.allows]

/-- What is looked for at an anchor is found, unless the search is cut off. -/
private theorem verifyInner_found (formed : ∀ tok ∈ elems, tok.WellFormed)
    (program : (hexBody elems chosen nocase).elems = some elems)
    (inside : s ≤ buf.length)
    (whole : (verifyInner (hexBody elems chosen nocase) buf none s
      (Pools.new .unlimited)).2.truncated = false)
    (leads : LeadsFrom elems buf nocase s chosen) :
    (verifyInner (hexBody elems chosen nocase) buf none s
      (Pools.new .unlimited)).1.isSome = true := by
  have frontFormed (idx : Nat) : ∀ tok ∈ elems.take idx, tok.WellFormed :=
    fun tok member => formed tok (List.mem_of_mem_take member)
  have backFormed (idx : Nat) : ∀ tok ∈ elems.drop idx, tok.WellFormed :=
    fun tok member => formed tok (List.mem_of_mem_drop member)
  have kind : (hexBody elems chosen nocase).bodyPrefix = chosen := rfl
  cases chosen with
  | fixed idx len =>
      obtain ⟨past, q, spread⟩ := leads
      have near : ¬s < len := Nat.not_lt.mpr past
      simp only [verifyInner, program, kind, hexBody_offAt, near, if_true,
        if_false] at whole ⊢
      rw [sim_found (s - len) formed (by omega) whole spread]
      rfl
  | floating idx =>
      obtain ⟨q, spread⟩ := leads
      simp only [verifyInner, program, kind, hexBody_offAt, if_true] at whole ⊢
      rw [sim_found s (backFormed idx) inside whole spread]
      rfl
  | internal idx =>
      obtain ⟨⟨q, spread⟩, p, derivation⟩ := leads
      simp only [verifyInner, program, kind] at whole ⊢
      have free := (sim_free (hexBody elems (.internal idx) nocase) s
        (backFormed idx) inside (Pools.free_new buf)).free
      have forward := @sim_found buf (hexBody elems (.internal idx) nocase)
        (elems.drop idx) s q s (backFormed idx) inside
      rcases searched : sim (hexBody elems (.internal idx) nocase) buf
        (elems.drop idx) s s (Pools.new .unlimited) with ⟨start, after⟩
      rw [searched] at whole free forward
      cases start with
      | none => cases forward whole spread
      | some start =>
          dsimp only at whole ⊢
          rw [simBackward, guardBudget_free free] at whole ⊢
          have back := (gapSplitMatchBackward_spec nocase (frontFormed idx)
            inside free.valid).2 whole p derivation
          obtain ⟨m, found⟩ := Option.isSome_iff_exists.mp back
          exact Option.isSome_iff_exists.mpr ⟨m, Option.filter_eq_some_iff.mpr
            ⟨found, hexBody_offAt elems (.internal idx) nocase m⟩⟩

theorem answer_hexBody_iff (formed : ∀ tok ∈ elems, tok.WellFormed)
    (anchored : Anchored elems chosen anchor)
    (hit : occursAt (haystack nocase buf) (haystack nocase anchor) s = true)
    (whole : (verify (hexBody elems chosen nocase) buf none s
      (Pools.new .unlimited)).2.truncated = false) :
    (answer (hexBody elems chosen nocase) buf none s).isSome = true ↔
      LeadsFrom elems buf nocase s chosen := by
  have inside := hit_inside anchored hit
  rw [answer, hexBody_verify]
  rw [hexBody_verify] at whole
  by_cases literal : isLiteralOnly elems chosen = true
  · obtain ⟨rfl, b, rfl⟩ := isLiteralOnly_iff.mp literal
    have same : b = anchor := by
      simpa [Prefix.anchorIdx] using anchored.literal
    subst same
    have step := (Elem.steps_bytes_iff anchored.nonempty).mpr ⟨rfl, hit⟩
    have derivation := Derives.cons step (.nil step.inside)
    have program : (hexBody [.bytes b] (.fixed 0 0) nocase).elems = none := rfl
    simp only [verifyInner, program, hexBody_offAt, if_true, Option.isSome_some,
      LeadsFrom, Nat.sub_zero, Nat.zero_le, true_and, true_iff]
    exact ⟨_, derivation.spreadAll rfl⟩
  · have program : (hexBody elems chosen nocase).elems = some elems := by
      simp [hexBody, literal]
    have valid := Pools.valid_new .unlimited buf
    constructor
    · intro found
      obtain ⟨m, found⟩ := Option.isSome_iff_exists.mp found
      exact verifyInner_leads program formed inside valid found
    · exact verifyInner_found formed program inside whole

theorem matched_iff (formed : ∀ tok ∈ elems, tok.WellFormed)
    (anchored : Anchored elems chosen anchor)
    (uncut : HitsUncut elems chosen anchor buf nocase) :
    Matched elems chosen anchor buf nocase ↔
      Leads elems chosen buf nocase := by
  constructor
  · intro matched
    obtain ⟨s, hit, found⟩ := matched
    exact ⟨s, hit_inside anchored hit,
      (answer_hexBody_iff formed anchored hit (uncut s hit)).mp found⟩
  · intro leads
    obtain ⟨s, inside, leads⟩ := leads
    have hit := leads.hit formed anchored inside
    exact ⟨s, hit, (answer_hexBody_iff formed anchored hit (uncut s hit)).mpr
      leads⟩

/-! ## What the whole body derives -/

theorem Derivable.leads (formed : ∀ tok ∈ elems, tok.WellFormed)
    (anchored : Anchored elems chosen anchor)
    (derivable : Derivable elems buf nocase) :
    Leads elems chosen buf nocase := by
  obtain ⟨p, r, derivation⟩ := derivable
  have split (idx : Nat) : ∃ s, Derives buf nocase (elems.take idx) p s ∧
      Derives buf nocase (elems.drop idx) s r := by
    apply Derives.append_iff.mp
    rwa [List.take_append_drop]
  obtain ⟨s, front, back⟩ := split chosen.anchorIdx
  refine ⟨s, back.ordered.trans back.inside, ?_⟩
  cases chosen with
  | fixed idx len =>
      have width := front.width
        (fun tok member => formed tok (List.mem_of_mem_take member))
        (anchored.distance idx len rfl)
      refine ⟨by omega, r, ?_⟩
      rw [width, Nat.add_sub_cancel]
      exact derivation.spreadAll rfl
  | floating idx => exact ⟨r, back.spreadAll rfl⟩
  | internal idx => exact ⟨⟨r, back.spreadAll rfl⟩, p, front⟩

def leadingMin : List Elem → Nat
  | .gap min _ :: _ => min
  | _ => 0

/-- What an anchor behind a leading gap leaves to be asked: whether there is
room for the gap before some match of the elements behind it. -/
def PastGap (elems : List Elem) (buf : Bytes) (nocase : Bool) : Prefix → Prop
  | .floating idx => ∃ s r, leadingMin elems ≤ s ∧
      Derives buf nocase (elems.drop idx) s r
  | _ => True

theorem Derivable.pastGap (anchored : Anchored elems chosen anchor)
    (derivable : Derivable elems buf nocase) :
    PastGap elems buf nocase chosen := by
  obtain ⟨p, r, derivation⟩ := derivable
  cases chosen with
  | fixed idx len => trivial
  | internal idx => trivial
  | floating idx =>
      obtain ⟨rfl, min, max, head⟩ := anchored.behindGap idx rfl
      cases elems with
      | nil => cases head
      | cons first rest =>
          obtain rfl : first = .gap min max := by simpa using head
          obtain ⟨s, gap, back⟩ := Derives.cons_iff.mp derivation
          have room := (Elem.steps_gap_iff.mp gap).1
          exact ⟨s, r, (Nat.le_add_left min p).trans room, back⟩

/-- What verification finds is part of a derivation of the whole body: no gap
is inverted, and the leading gap that is not verified has room. -/
theorem Leads.derivable (formed : ∀ tok ∈ elems, tok.WellFormed)
    (anchored : Anchored elems chosen anchor) (upright : Upright elems)
    (room : PastGap elems buf nocase chosen)
    (leads : Leads elems chosen buf nocase) : Derivable elems buf nocase := by
  obtain ⟨s, inside, leads⟩ := leads
  have whole (idx : Nat) {p r : Nat}
      (front : Derives buf nocase (elems.take idx) p s)
      (back : Derives buf nocase (elems.drop idx) s r) :
      Derivable elems buf nocase := by
    have derivation := Derives.append_iff.mpr ⟨s, front, back⟩
    rw [List.take_append_drop] at derivation
    exact ⟨p, r, derivation⟩
  cases chosen with
  | fixed idx len =>
      obtain ⟨past, q, spread⟩ := leads
      obtain ⟨p, _, derivation⟩ := derives_of_spreadAll upright
        (fun p same => (by omega)) spread
      exact ⟨p, q, derivation⟩
  | floating idx =>
      obtain ⟨rfl, min, max, head⟩ := anchored.behindGap idx rfl
      obtain ⟨s, r, fits, back⟩ := room
      cases elems with
      | nil => cases head
      | cons first rest =>
          obtain rfl : first = .gap min max := by simpa using head
          have ordered := (Upright.cons_iff.mp upright).1
          have least : min ≤ s := fits
          refine ⟨s - min, r, .cons (Elem.steps_gap_iff.mpr ⟨by omega, ?_,
            back.ordered.trans back.inside⟩) back⟩
          intro m bound
          cases bound
          have enough : ¬m < min := ordered
          omega
  | internal idx =>
      obtain ⟨⟨q, spread⟩, p, front⟩ := leads
      have backUpright : Upright (elems.drop idx) :=
        fun tok member => upright tok (List.mem_of_mem_drop member)
      obtain ⟨start, same, back⟩ := derives_of_spreadAll backUpright
        (fun p same => (by omega)) spread
      subst same
      exact whole idx front back

/-- Behind an anchor chosen so nothing is found that the body does not derive:
no gap of the body is inverted, and a leading gap that is not verified has
room; or there is nothing to be found. -/
def Clear (elems : List Elem) (buf : Bytes) (nocase : Bool) (chosen : Prefix) :
    Prop :=
  (Upright elems ∧ PastGap elems buf nocase chosen) ∨
    ¬Leads elems chosen buf nocase

theorem matched_iff_derivable (formed : ∀ tok ∈ elems, tok.WellFormed)
    (anchored : Anchored elems chosen anchor)
    (uncut : HitsUncut elems chosen anchor buf nocase) :
    (Matched elems chosen anchor buf nocase ↔ Derivable elems buf nocase) ↔
      Clear elems buf nocase chosen := by
  rw [matched_iff formed anchored uncut]
  constructor
  · intro same
    by_cases leads : Leads elems chosen buf nocase
    · have derivable := same.mp leads
      have upright : Upright elems := by
        obtain ⟨p, r, derivation⟩ := derivable
        exact derivation.upright
      exact Or.inl ⟨upright, derivable.pastGap anchored⟩
    · exact Or.inr leads
  · intro clear
    refine ⟨?_, Derivable.leads formed anchored⟩
    intro leads
    rcases clear with ⟨upright, room⟩ | nothing
    · exact leads.derivable formed anchored upright room
    · exact (nothing leads).elim

end

/-- A hex body without an offset matches in the object alike under two choices
of its anchor, and exactly where a position of the object starts a derivation
of it. -/
def SameMatches (elems : List Elem) (buf : Bytes) (nocase : Bool)
    (first second : Bytes × Prefix) : Prop :=
  (Matched elems first.2 first.1 buf nocase ↔
      Matched elems second.2 second.1 buf nocase) ∧
    (Matched elems first.2 first.1 buf nocase ↔ Derivable elems buf nocase)

/-- The choice of anchor matters exactly where one of the choices leaves a
leading gap without room, or a gap of the body is inverted. -/
theorem sameMatches_iff_clear {hex : List Char} {elems : List Elem}
    {score₁ score₂ : Bytes → Int} {internal₁ internal₂ : Bool}
    {anchor₁ anchor₂ : Bytes} {chosen₁ chosen₂ : Prefix}
    (compiled₁ : compileBody score₁ hex internal₁ =
      some (elems, anchor₁, chosen₁))
    (compiled₂ : compileBody score₂ hex internal₂ =
      some (elems, anchor₂, chosen₂))
    (uncut₁ : HitsUncut elems chosen₁ anchor₁ buf nocase)
    (uncut₂ : HitsUncut elems chosen₂ anchor₂ buf nocase) :
    SameMatches elems buf nocase (anchor₁, chosen₁) (anchor₂, chosen₂) ↔
      Clear elems buf nocase chosen₁ ∧ Clear elems buf nocase chosen₂ := by
  obtain ⟨parses, anchored₁⟩ := compileBody_anchored compiled₁
  obtain ⟨_, anchored₂⟩ := compileBody_anchored compiled₂
  have formed := parseElems_wellFormed parses
  rw [← matched_iff_derivable formed anchored₁ uncut₁,
    ← matched_iff_derivable formed anchored₂ uncut₂, SameMatches]
  constructor
  · intro same
    exact ⟨same.2, same.1.symm.trans same.2⟩
  · intro same
    exact ⟨same.1.trans same.2.symm, same.1⟩

private theorem hitsUncut_of_inside {elems : List Elem} {chosen : Prefix}
    {anchor : Bytes} (anchored : Anchored elems chosen anchor)
    (uncut : ∀ s ≤ buf.length,
      occursAt (haystack nocase buf) (haystack nocase anchor) s = true →
        (verify (hexBody elems chosen nocase) buf none s
          (Pools.new .unlimited)).2.truncated = false) :
    HitsUncut elems chosen anchor buf nocase :=
  fun s hit => uncut s (hit_inside anchored hit) hit

/-- A score that prefers one literal. -/
def preferring (favourite b : Bytes) : Int :=
  if b = favourite then 1 else 0

/-- On `xabxcd` the body `{1-}6162??6364` is matched from either literal. -/
theorem sameMatches_room :
    SameMatches
      [.gap 1 none, .bytes [0x61, 0x62], .anyByte, .bytes [0x63, 0x64]]
      [0x78, 0x61, 0x62, 0x78, 0x63, 0x64] false ([0x61, 0x62], .floating 1)
      ([0x63, 0x64], .internal 3) := by
  have floating : compileBody (preferring [0x61, 0x62])
      "\x7b1-\x7d6162??6364".toList true =
        some ([.gap 1 none, .bytes [0x61, 0x62], .anyByte,
          .bytes [0x63, 0x64]], [0x61, 0x62], .floating 1) := by
    decide
  have internal : compileBody (preferring [0x63, 0x64])
      "\x7b1-\x7d6162??6364".toList true =
        some ([.gap 1 none, .bytes [0x61, 0x62], .anyByte,
          .bytes [0x63, 0x64]], [0x63, 0x64], .internal 3) := by
    decide
  have upright : Upright [.gap 1 none, .bytes [0x61, 0x62], .anyByte,
      .bytes [0x63, 0x64]] := by
    decide
  have ab : Elem.Steps [0x78, 0x61, 0x62, 0x78, 0x63, 0x64] false
      (.bytes [0x61, 0x62]) 1 3 :=
    (Elem.steps_bytes_iff (by decide)).mpr ⟨rfl, by decide⟩
  have any : Elem.Steps [0x78, 0x61, 0x62, 0x78, 0x63, 0x64] false
      .anyByte 3 4 :=
    ⟨by decide, by decide, rfl⟩
  have cd : Elem.Steps [0x78, 0x61, 0x62, 0x78, 0x63, 0x64] false
      (.bytes [0x63, 0x64]) 4 6 :=
    (Elem.steps_bytes_iff (by decide)).mpr ⟨rfl, by decide⟩
  have behind := Derives.cons ab (.cons any (.cons cd (.nil cd.inside)))
  exact (sameMatches_iff_clear floating internal
    (hitsUncut_of_inside (compileBody_anchored floating).2 (by decide))
    (hitsUncut_of_inside (compileBody_anchored internal).2
      (by decide))).mpr
    ⟨Or.inl ⟨upright, 1, 6, le_rfl, behind⟩, Or.inl ⟨upright, trivial⟩⟩

/-- On `abxcd` the body `{5-}6162??6364` is matched from its first literal and
not from its second. -/
theorem sameMatches_noRoom :
    ∃ elems anchor₁ chosen₁ anchor₂ chosen₂,
      compileBody (preferring [0x61, 0x62])
          "\x7b5-\x7d6162??6364".toList true =
        some (elems, anchor₁, chosen₁) ∧
      compileBody (preferring [0x63, 0x64])
          "\x7b5-\x7d6162??6364".toList true =
        some (elems, anchor₂, chosen₂) ∧
      HitsUncut elems chosen₁ anchor₁ [0x61, 0x62, 0x78, 0x63, 0x64] false ∧
      HitsUncut elems chosen₂ anchor₂ [0x61, 0x62, 0x78, 0x63, 0x64] false ∧
      ¬SameMatches elems [0x61, 0x62, 0x78, 0x63, 0x64] false
        (anchor₁, chosen₁) (anchor₂, chosen₂) := by
  have floating : compileBody (preferring [0x61, 0x62])
      "\x7b5-\x7d6162??6364".toList true =
        some ([.gap 5 none, .bytes [0x61, 0x62], .anyByte,
          .bytes [0x63, 0x64]], [0x61, 0x62], .floating 1) := by
    decide
  have internal : compileBody (preferring [0x63, 0x64])
      "\x7b5-\x7d6162??6364".toList true =
        some ([.gap 5 none, .bytes [0x61, 0x62], .anyByte,
          .bytes [0x63, 0x64]], [0x63, 0x64], .internal 3) := by
    decide
  have anchored := (compileBody_anchored internal).2
  refine ⟨_, _, _, _, _, floating, internal,
    hitsUncut_of_inside (compileBody_anchored floating).2 (by decide),
    hitsUncut_of_inside anchored (by decide), ?_⟩
  intro same
  have first : Matched [.gap 5 none, .bytes [0x61, 0x62], .anyByte,
      .bytes [0x63, 0x64]] (.floating 1) [0x61, 0x62]
      [0x61, 0x62, 0x78, 0x63, 0x64] false :=
    ⟨0, by decide, by decide⟩
  obtain ⟨s, hit, found⟩ := same.1.mp first
  have nowhere : ∀ s ≤ 5, occursAt
      (haystack false [0x61, 0x62, 0x78, 0x63, 0x64])
      (haystack false [0x63, 0x64]) s = true →
        (answer (hexBody [.gap 5 none, .bytes [0x61, 0x62], .anyByte,
          .bytes [0x63, 0x64]] (.internal 3) false)
          [0x61, 0x62, 0x78, 0x63, 0x64] none s).isSome = false := by
    decide
  rw [nowhere s (hit_inside anchored hit) hit] at found
  cases found

end

end Exav.Engine
