import Exav.Engine.Elem

/-!
# Signature text

`parseElems` reads a hex body into elements; `widenElems` turns a program into
its UTF-16LE form.  Everything either produces is well formed, which is all the
matchers assume of a program.
-/

namespace Exav.Engine

/-! ## Text -/

/-- The characters `str::trim` removes. -/
def isWhitespace (c : Char) : Bool :=
  let n := c.toNat
  (9 ≤ n && n ≤ 13) || n == 32 || n == 0x85 || n == 0xa0 || n == 0x1680 ||
    (0x2000 ≤ n && n ≤ 0x200a) || n == 0x2028 || n == 0x2029 || n == 0x202f ||
    n == 0x205f || n == 0x3000

def trim (s : List Char) : List Char :=
  ((s.dropWhile isWhitespace).reverse.dropWhile isWhitespace).reverse

/-- The parts of `s` between occurrences of `sep`. -/
def split (sep : Char) : List Char → List (List Char)
  | [] => [[]]
  | c :: cs =>
      if c = sep then [] :: split sep cs
      else
        match split sep cs with
        | [] => [[c]]
        | part :: parts => (c :: part) :: parts

/-- What stands before and after the first `sep`. -/
def splitOnce (sep : Char) (s : List Char) :
    Option (List Char × List Char) :=
  match s.span (· != sep) with
  | (_, []) => none
  | (before, _ :: after) => some (before, after)

def digit (c : Char) : Option Nat :=
  if 48 ≤ c.toNat ∧ c.toNat ≤ 57 then some (c.toNat - 48) else none

/-- A 64-bit number in decimal, with an optional plus sign. -/
def parseU64 (s : List Char) : Option Nat :=
  let digits := match s with
    | '+' :: rest => rest
    | _ => s
  if digits = [] then none
  else
    match digits.foldlM (fun n c => (digit c).map (n * 10 + ·)) 0 with
    | some n => if n < 2 ^ 64 then some n else none
    | none => none

def nibble (c : Char) : Option UInt8 :=
  let n := c.toNat
  if 48 ≤ n ∧ n ≤ 57 then some (UInt8.ofNat (n - 48))
  else if 97 ≤ n ∧ n ≤ 102 then some (UInt8.ofNat (n - 97 + 10))
  else if 65 ≤ n ∧ n ≤ 70 then some (UInt8.ofNat (n - 65 + 10))
  else none

def decodePlainHex : List Char → Option Bytes
  | [] => some []
  | [_] => none
  | a :: b :: rest => do
      let hi ← nibble a
      let lo ← nibble b
      let bytes ← decodePlainHex rest
      return (hi <<< 4 ||| lo) :: bytes

def maskedNibble (c : Char) : Option (UInt8 × UInt8) :=
  if c = '?' then some (0, 0) else (nibble c).map (·, 0xf)

def decodeMaskedHex : List Char → Option (List (UInt8 × UInt8))
  | [] => some []
  | [_] => none
  | a :: b :: rest => do
      let hi ← maskedNibble a
      let lo ← maskedNibble b
      let pairs ← decodeMaskedHex rest
      return (hi.1 <<< 4 ||| lo.1, hi.2 <<< 4 ||| lo.2) :: pairs

/-! ## Elements -/

/-- A gap bound: `usize` holds every 64-bit number. -/
def gapBound (s : List Char) : Option Nat :=
  parseU64 (trim s)

def parseGap (spec : List Char) : Option Elem :=
  let spec := trim spec
  match spec with
  | '-' :: rest => (gapBound rest).map fun max => .gap 0 (some max)
  | _ =>
      if spec.getLast? = some '-' then
        (gapBound spec.dropLast).map fun min => .gap min none
      else
        match splitOnce '-' spec with
        | some (a, b) => do
            let min ← gapBound a
            let max ← gapBound b
            return .gap min (some max)
        | none => (gapBound spec).map fun n => .gap n (some n)

def parseAlt (spec : List Char) (neg : Bool) : Option Elem :=
  let parts := (split '|' spec).map trim
  if neg && parts.any (· == []) then none
  else
    match parts.mapM decodePlainHex with
    | some opts =>
        let l := (opts.head?.map List.length).getD 0
        if neg && !opts.all fun o => o.length == l then none
        else some (.alt opts neg)
    | none =>
        if neg then none
        else (parts.mapM decodeMaskedHex).map .altMasked

/-- The boundary markers written like an alternation, which are skipped. -/
def isBoundaryMarker (inner : List Char) : Bool :=
  inner == ['B'] || inner == ['L'] || inner == ['W']

/-- The literal read so far, as an element. -/
def flush (lit : Bytes) : List Elem :=
  if lit = [] then [] else [.bytes lit]

/-- One nibble pair: a byte of the literal, or a single-byte class. -/
def parsePair (a b : Char) : Option (UInt8 ⊕ Elem) :=
  match a == '?', b == '?', nibble a, nibble b with
  | true, true, _, _ => some (.inr .anyByte)
  | false, true, some h, _ => some (.inr (.hiNibble h))
  | true, false, _, some l => some (.inr (.loNibble l))
  | false, false, some h, some l => some (.inl (h <<< 4 ||| l))
  | _, _, _, _ => none

/-- Read the rest of a body, `lit` being the literal under way; `fuel` is at
least the length of the text. -/
def parseElemsFrom : Nat → List Char → Bytes → Option (List Elem)
  | _, [], lit => some (flush lit)
  | 0, _ :: _, _ => none
  | fuel + 1, c :: cs, lit =>
      let bracketed (close : Char) (text : List Char)
          (element : List Char → Option (List Elem)) := do
        let (inner, rest) ← splitOnce close text
        let read ← element inner
        let elems ← parseElemsFrom fuel rest []
        return flush lit ++ read ++ elems
      let alternation (neg : Bool) (inner : List Char) :=
        if isBoundaryMarker inner then some []
        else (parseAlt inner neg).map ([·])
      if c = ' ' ∨ c.toNat = 9 then parseElemsFrom fuel cs lit
      else if c = '*' then do
        let elems ← parseElemsFrom fuel cs []
        return flush lit ++ .gap 0 none :: elems
      else if c = '\x7b' then
        bracketed '\x7d' cs fun inner => (parseGap inner).map ([·])
      else if c = '[' then
        bracketed ']' cs fun inner => (parseGap inner).map ([·])
      else if c = '!' ∧ cs.head? = some '(' then
        bracketed ')' cs.tail (alternation true)
      else if c = '(' then
        bracketed ')' cs (alternation false)
      else
        match cs with
        | [] => none
        | b :: cs => do
            match ← parsePair c b with
            | .inl byte => parseElemsFrom fuel cs (lit ++ [byte])
            | .inr elem =>
                let elems ← parseElemsFrom fuel cs []
                return flush lit ++ elem :: elems

def parseElems (hex : List Char) : Option (List Elem) :=
  match parseElemsFrom hex.length hex [] with
  | some (elem :: elems) => some (elem :: elems)
  | _ => none

/-! ## The wide form -/

def widenBytes (v : Bytes) : Bytes :=
  v.flatMap fun b => [b, 0]

/-- The elements that stand for one element in UTF-16LE. -/
def widenElem : Elem → List Elem
  | .bytes v => [.bytes (widenBytes v)]
  | .anyByte => [.anyByte, .bytes [0]]
  | .hiNibble h => [.hiNibble h, .bytes [0]]
  | .loNibble l => [.loNibble l, .bytes [0]]
  | .gap min max =>
      [.gap (Nat.min (min * 2) usizeMax)
        (max.map fun m => Nat.min (m * 2) usizeMax)]
  | .alt opts neg => [.alt (opts.map widenBytes) neg]
  | .altMasked opts =>
      [.altMasked (opts.map fun o => o.flatMap fun pair => [pair, (0, 0xff)])]

/-- Transform a token program into its UTF-16LE form. -/
def widenElems (elems : List Elem) : List Elem :=
  elems.flatMap widenElem

/-! ## Well-formedness -/

theorem nibble_lt {c : Char} {h : UInt8} (read : nibble c = some h) : h < 16 := by
  have small (n : Nat) (bound : n < 16) : UInt8.ofNat n < 16 := by
    have size : n < UInt8.size := by
      rw [UInt8.size]
      omega
    rw [UInt8.lt_iff_toNat_lt, UInt8.toNat_ofNat_of_lt' size]
    exact bound
  unfold nibble at read
  dsimp only at read
  split_ifs at read
  all_goals
    cases read
    exact small _ (by omega)

theorem split_ne_nil (sep : Char) (s : List Char) : split sep s ≠ [] := by
  cases s with
  | nil => simp [split]
  | cons c cs =>
      rw [split]
      split_ifs
      · simp
      · cases split sep cs <;> simp

private theorem decodePlainHex_ne_nil {s : List Char} {bytes : Bytes}
    (nonempty : s ≠ []) (read : decodePlainHex s = some bytes) : bytes ≠ [] := by
  match s with
  | [] => exact (nonempty rfl).elim
  | [_] => cases read
  | a :: b :: rest =>
      simp only [decodePlainHex, Option.bind_eq_bind, Option.bind_eq_some_iff,
        Option.pure_def, Option.some.injEq] at read
      obtain ⟨_, _, _, _, _, _, rfl⟩ := read
      simp

/-- What mapping a partial function over a list produces. -/
private theorem mapM_spec {α β : Type} {f : α → Option β} {xs : List α}
    {ys : List β} (read : xs.mapM f = some ys) :
    ys.length = xs.length ∧ ∀ y ∈ ys, ∃ x ∈ xs, f x = some y := by
  induction xs generalizing ys with
  | nil =>
      cases read
      simp
  | cons x xs ih =>
      simp only [List.mapM_cons, Option.bind_eq_bind, Option.bind_eq_some_iff,
        Option.pure_def, Option.some.injEq] at read
      obtain ⟨y, here, rest, later, rfl⟩ := read
      obtain ⟨length, sources⟩ := ih later
      refine ⟨by simp [length], ?_⟩
      intro z member
      rcases List.mem_cons.mp member with rfl | inRest
      · exact ⟨x, by simp, here⟩
      · obtain ⟨source, inXs, made⟩ := sources z inRest
        exact ⟨source, by simp [inXs], made⟩

theorem parseAlt_wellFormed {spec : List Char} {neg : Bool} {elem : Elem}
    (read : parseAlt spec neg = some elem) : elem.WellFormed := by
  set parts := (split '|' spec).map trim with partsDef
  have partsNonempty : parts ≠ [] := by
    simp [partsDef, split_ne_nil]
  have keeps {β : Type} {f : List Char → Option β} {opts : List β}
      (mapped : parts.mapM f = some opts) : opts ≠ [] := by
    intro empty
    have length := (mapM_spec mapped).1
    rw [empty] at length
    exact partsNonempty (List.length_eq_zero_iff.mp length.symm)
  rw [parseAlt, ← partsDef] at read
  split at read
  case isTrue => cases read
  case isFalse filled =>
    cases mapped : parts.mapM decodePlainHex with
    | none =>
        rw [mapped] at read
        cases neg with
        | true => cases read
        | false =>
            obtain ⟨opts, masked, rfl⟩ := Option.map_eq_some_iff.mp read
            exact keeps masked
    | some opts =>
        simp only [mapped] at read
        split at read
        case isTrue => cases read
        case isFalse equal =>
          cases read
          refine ⟨keeps mapped, ?_⟩
          rintro rfl
          have equalWidths : ∀ o ∈ opts,
              o.length = (opts.head?.map List.length).getD 0 := by
            simpa using equal
          have filledParts : ∀ part ∈ parts, part ≠ [] := by
            rintro part inParts rfl
            simp [inParts] at filled
          refine ⟨_, ?_, equalWidths⟩
          obtain ⟨first, member⟩ :=
            List.exists_mem_of_ne_nil opts (keeps mapped)
          obtain ⟨part, inParts, decoded⟩ := (mapM_spec mapped).2 first member
          rw [← equalWidths first member]
          exact List.length_pos_iff.mpr
            (decodePlainHex_ne_nil (filledParts part inParts) decoded)

theorem parseGap_wellFormed {spec : List Char} {elem : Elem}
    (read : parseGap spec = some elem) : elem.WellFormed := by
  have gap : ∃ min max, elem = .gap min max := by
    unfold parseGap at read
    dsimp only at read
    split at read
    · obtain ⟨max, _, rfl⟩ := Option.map_eq_some_iff.mp read
      exact ⟨_, _, rfl⟩
    · split at read
      · obtain ⟨min, _, rfl⟩ := Option.map_eq_some_iff.mp read
        exact ⟨_, _, rfl⟩
      · split at read
        · simp only [Option.bind_eq_bind, Option.bind_eq_some_iff,
            Option.pure_def, Option.some.injEq] at read
          obtain ⟨_, _, _, _, rfl⟩ := read
          exact ⟨_, _, rfl⟩
        · obtain ⟨n, _, rfl⟩ := Option.map_eq_some_iff.mp read
          exact ⟨_, _, rfl⟩
  obtain ⟨min, max, rfl⟩ := gap
  trivial

theorem flush_wellFormed (lit : Bytes) :
    ∀ elem ∈ flush lit, elem.WellFormed := by
  intro elem member
  rw [flush] at member
  split at member
  case isTrue => cases member
  case isFalse nonempty =>
    rw [List.mem_singleton.mp member]
    exact nonempty

theorem parsePair_wellFormed {a b : Char} {elem : Elem}
    (read : parsePair a b = some (.inr elem)) : elem.WellFormed := by
  unfold parsePair at read
  split at read
  · cases read
    trivial
  case h_2 known =>
    cases read
    exact nibble_lt known
  case h_3 known =>
    cases read
    exact nibble_lt known
  · cases read
  · cases read

private theorem wellFormed_append {front back : List Elem}
    (left : ∀ elem ∈ front, elem.WellFormed)
    (right : ∀ elem ∈ back, elem.WellFormed) :
    ∀ elem ∈ front ++ back, elem.WellFormed := by
  intro elem member
  rcases List.mem_append.mp member with inFront | inBack
  · exact left elem inFront
  · exact right elem inBack

theorem parseElemsFrom_wellFormed {fuel : Nat} {text : List Char} {lit : Bytes}
    {elems : List Elem} (read : parseElemsFrom fuel text lit = some elems) :
    ∀ elem ∈ elems, elem.WellFormed := by
  induction fuel generalizing text lit elems with
  | zero =>
      cases text with
      | nil =>
          cases read
          exact flush_wellFormed lit
      | cons c cs => cases read
  | succ fuel ih =>
      cases text with
      | nil =>
          cases read
          exact flush_wellFormed lit
      | cons c cs =>
          have bracketed {close : Char} {inside : List Char}
              {element : List Char → Option (List Elem)}
              (formed : ∀ inner made, element inner = some made →
                ∀ elem ∈ made, elem.WellFormed)
              (outcome : (do
                let (inner, rest) ← splitOnce close inside
                let made ← element inner
                let elems ← parseElemsFrom fuel rest []
                return flush lit ++ made ++ elems) = some elems) :
              ∀ elem ∈ elems, elem.WellFormed := by
            simp only [Option.bind_eq_bind, Option.bind_eq_some_iff,
              Option.pure_def, Option.some.injEq] at outcome
            obtain ⟨⟨inner, rest⟩, _, made, here, later, next, rfl⟩ := outcome
            exact wellFormed_append (wellFormed_append (flush_wellFormed lit)
              (formed inner made here)) (ih next)
          have gap (inner : List Char) (made : List Elem)
              (outcome : (parseGap inner).map ([·]) = some made) :
              ∀ elem ∈ made, elem.WellFormed := by
            obtain ⟨elem, here, rfl⟩ := Option.map_eq_some_iff.mp outcome
            simpa using parseGap_wellFormed here
          have alternation (neg : Bool) (inner : List Char) (made : List Elem)
              (outcome : (if isBoundaryMarker inner then some []
                else (parseAlt inner neg).map ([·])) = some made) :
              ∀ elem ∈ made, elem.WellFormed := by
            split at outcome
            · cases outcome
              simp
            · obtain ⟨elem, here, rfl⟩ := Option.map_eq_some_iff.mp outcome
              simpa using parseAlt_wellFormed here
          unfold parseElemsFrom at read
          dsimp only at read
          split_ifs at read
          · exact ih read
          · simp only [Option.bind_eq_bind, Option.bind_eq_some_iff,
              Option.pure_def, Option.some.injEq] at read
            obtain ⟨later, next, rfl⟩ := read
            exact wellFormed_append (flush_wellFormed lit)
              (List.forall_mem_cons.mpr ⟨trivial, ih next⟩)
          · exact bracketed gap read
          · exact bracketed gap read
          · exact bracketed (alternation true) read
          · exact bracketed (alternation false) read
          · cases cs with
            | nil => cases read
            | cons b cs =>
                simp only [Option.bind_eq_bind, Option.bind_eq_some_iff]
                  at read
                obtain ⟨pair, here, read⟩ := read
                cases pair with
                | inl byte => exact ih read
                | inr elem =>
                    simp only [Option.bind_eq_some_iff, Option.pure_def,
                      Option.some.injEq] at read
                    obtain ⟨later, next, rfl⟩ := read
                    exact wellFormed_append (flush_wellFormed lit)
                      (List.forall_mem_cons.mpr
                        ⟨parsePair_wellFormed here, ih next⟩)

theorem parseElems_wellFormed {hex : List Char} {elems : List Elem}
    (read : parseElems hex = some elems) :
    ∀ elem ∈ elems, elem.WellFormed := by
  unfold parseElems at read
  split at read
  case h_1 parsed =>
    cases read
    exact parseElemsFrom_wellFormed parsed
  case h_2 => cases read

@[simp] theorem length_widenBytes (v : Bytes) :
    (widenBytes v).length = 2 * v.length := by
  induction v with
  | nil => rfl
  | cons b v ih =>
      simp only [widenBytes, List.flatMap_cons, List.length_append,
        List.length_cons, List.length_nil] at ih ⊢
      omega

theorem widenElems_wellFormed {elems : List Elem}
    (formed : ∀ elem ∈ elems, elem.WellFormed) :
    ∀ elem ∈ widenElems elems, elem.WellFormed := by
  intro wide member
  obtain ⟨elem, source, made⟩ := List.mem_flatMap.mp member
  have elemFormed := formed elem source
  have zero : (Elem.bytes [0]).WellFormed := List.cons_ne_nil 0 []
  cases elem with
  | bytes v =>
      rw [widenElem, List.mem_singleton] at made
      subst wide
      have positive := List.length_pos_iff.mpr elemFormed
      refine List.length_pos_iff.mp ?_
      rw [length_widenBytes]
      omega
  | gap min max =>
      rw [widenElem, List.mem_singleton] at made
      subst wide
      trivial
  | alt opts neg =>
      rw [widenElem, List.mem_singleton] at made
      subst wide
      obtain ⟨nonempty, widths⟩ := elemFormed
      refine ⟨by simpa using nonempty, ?_⟩
      intro negated
      obtain ⟨l, positive, equal⟩ := widths negated
      refine ⟨2 * l, by omega, ?_⟩
      intro o inside
      obtain ⟨option, inOpts, rfl⟩ := List.mem_map.mp inside
      rw [length_widenBytes, equal option inOpts]
  | altMasked opts =>
      rw [widenElem, List.mem_singleton] at made
      subst wide
      have nonempty : opts ≠ [] := elemFormed
      change opts.map _ ≠ []
      simpa using nonempty
  | anyByte =>
      simp only [widenElem, List.mem_cons, List.not_mem_nil, or_false] at made
      rcases made with rfl | rfl
      · trivial
      · exact zero
  | hiNibble h =>
      simp only [widenElem, List.mem_cons, List.not_mem_nil, or_false] at made
      rcases made with rfl | rfl
      · exact elemFormed
      · exact zero
  | loNibble l =>
      simp only [widenElem, List.mem_cons, List.not_mem_nil, or_false] at made
      rcases made with rfl | rfl
      · exact elemFormed
      · exact zero

end Exav.Engine
