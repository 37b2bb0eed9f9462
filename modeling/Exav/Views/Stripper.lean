import Exav.Script.Delivery

/-!
# Normalised views of text

Signatures for markup, text and scripts are written against a canonical form of
the content.  Each form is written in one walk over the bytes, which are held in
memory or read through a window, and either way the same bytes are written.
-/

namespace Exav.Views

open Script (Text isAt blockCommentEnd skipWhile toDigit ascii isAlpha isDigit)

def isAsciiWhitespace (b : UInt8) : Bool :=
  b = 32 || b = 9 || b = 10 || b = 12 || b = 13

/-- What was written, and whether a run of whitespace is at its end. -/
structure Collapsed where
  out : Bytes
  prevWs : Bool

/-- Append `b`, collapsing any run of ASCII whitespace to a single space. -/
def pushCollapsed (b : UInt8) (view : Collapsed) : Collapsed :=
  if isAsciiWhitespace b then
    if view.prevWs then view else ⟨view.out ++ [32], true⟩
  else ⟨view.out ++ [b], false⟩

/-! ## Markup -/

/-- The value of the digits of a numeric reference, at most `0x10ffff`. -/
def referenceValue (radix : Nat) : Bytes → Nat → Option Nat
  | [], value => some value
  | d :: digits, value => do
      let v ← toDigit radix d
      let value := value * radix + v
      if value > 0x10FFFF then none else referenceValue radix digits value

/-- The inside of one `&…;` reference as a single byte, if recognised. -/
def decodeReference (body : Bytes) : Option UInt8 :=
  match body with
  | [] => none
  | first :: rest =>
      if first = 35 then
        let (radix, digits) :=
          if rest.head? = some 120 ∨ rest.head? = some 88 then (16, rest.tail)
          else (10, rest)
        if digits = [] then none
        else (referenceValue radix digits 0).map fun value =>
          UInt8.ofNat (value % 256)
      else if lower body = ascii "lt" then some 60
      else if lower body = ascii "gt" then some 62
      else if lower body = ascii "amp" then some 38
      else if lower body = ascii "quot" then some 34
      else if lower body = ascii "apos" then some 39
      else if lower body = ascii "nbsp" then some 32
      else none

/-- The byte a character reference at `i` decodes to, and where the text after
it starts. -/
def decodeEntityAt (n i : Nat) : StateM Text (UInt8 × Nat) := do
  let b ← Text.byte i
  if b ≠ 38 then pure (b, i + 1)
  else
    let window ← Text.range (i + 1) (min (i + 12) n)
    match window.idxOf? 59 with
    | none => pure (38, i + 1)
    | some p =>
        match decodeReference (window.take p) with
        | some decoded => pure (decoded, i + 1 + p + 1)
        | none => pure (38, i + 1)

def htmlInto (n : Nat) : (rounds i : Nat) → Collapsed → StateM Text Collapsed
  | 0, _, view => pure view
  | rounds + 1, i, view =>
      if i < n then do
        let (b, next) ← decodeEntityAt n i
        htmlInto n rounds next (pushCollapsed (fold b) view)
      else pure view

/-- Decode references, lowercase, collapse whitespace. -/
def html : StateM Text Bytes := do
  let n := (← get).len
  let view ← htmlInto n n 0 ⟨[], false⟩
  pure view.out

/-! ## Text -/

def textInto (n : Nat) : (rounds i : Nat) → Collapsed → StateM Text Collapsed
  | 0, _, view => pure view
  | rounds + 1, i, view =>
      if i < n then do
        let b ← Text.byte i
        textInto n rounds (i + 1)
          (if isAsciiWhitespace b then pushCollapsed b view
            else if b ≥ 0x20 then ⟨view.out ++ [fold b], false⟩
            else view)
      else pure view

/-- Lowercase, drop control bytes, collapse whitespace. -/
def text : StateM Text Bytes := do
  let n := (← get).len
  let view ← textInto n n 0 ⟨[], false⟩
  pure view.out

/-! ## Scripts -/

/-- A JavaScript identifier byte. -/
def isWord (b : UInt8) : Bool :=
  isAlpha b || isDigit b || b = 95 || b = 36

/-- What was written, and whether whitespace was dropped after it. -/
structure Squeezed where
  out : Bytes
  pendingWs : Bool

/-- Drop whitespace, but for a space between two identifier bytes. -/
def squeeze (b : UInt8) (view : Squeezed) : Squeezed :=
  if isAsciiWhitespace b then ⟨view.out, true⟩
  else
    let c := fold b
    if view.pendingWs && view.out.getLast?.any isWord && isWord c then
      ⟨view.out ++ [32, c], false⟩
    else ⟨view.out ++ [c], false⟩

/-- Whether `b`, which is at `i`, is a slash with `c` after it. -/
def slashThen (n i : Nat) (b c : UInt8) : StateM Text Bool :=
  if b = 47 then isAt n (i + 1) c else pure false

/-- Remove block and line comments that are outside the quotes seen.  Each byte
kept goes to `out`. -/
def stripComments {σ : Type} (n : Nat) (out : UInt8 → σ → σ) :
    (rounds i : Nat) → (quote : Option UInt8) → σ → StateM Text σ
  | 0, _, _, kept => pure kept
  | rounds + 1, i, quote, kept =>
      if i < n then do
        let b ← Text.byte i
        match quote with
        | some q =>
            if b = 92 ∧ i + 1 < n then
              let escaped ← Text.byte (i + 1)
              stripComments n out rounds (i + 2) (some q)
                (out escaped (out b kept))
            else
              stripComments n out rounds (i + 1) (if b = q then none else some q)
                (out b kept)
        | none =>
            if b = 39 ∨ b = 34 ∨ b = 96 then
              stripComments n out rounds (i + 1) (some b) (out b kept)
            else
              let block ← slashThen n i b 42
              if block then
                let stop ← blockCommentEnd n n (i + 2)
                -- The comment becomes a token separator.
                stripComments n out rounds stop none (out 32 kept)
              else
                let line ← slashThen n i b 47
                if line then
                  let stop ← skipWhile n (· ≠ 10) n (i + 2)
                  stripComments n out rounds stop none kept
                else stripComments n out rounds (i + 1) none (out b kept)
      else pure kept

/-- Strip comments, lowercase, remove whitespace between tokens. -/
def javascript : StateM Text Bytes := do
  let n := (← get).len
  let view ← stripComments n squeeze n 0 none ⟨[], false⟩
  pure view.out

/-! ## Delivery -/

variable {data : Bytes}

theorem decodeEntityAt_yields (n i : Nat) :
    Yields (Text.Holds data) (decodeEntityAt n i) (fun _ => True) := by
  refine .bind (Text.byte_yields i) (fun b _ => ?_)
  refine .ite (fun _ => .pure _ trivial) (fun _ => ?_)
  refine .bind (Text.range_yields _ _) (fun window _ => ?_)
  cases window.idxOf? 59 with
  | none => exact .pure _ trivial
  | some p =>
      dsimp only
      cases decodeReference (window.take p) with
      | none => exact .pure _ trivial
      | some decoded => exact .pure _ trivial

theorem htmlInto_yields (n rounds i : Nat) (view : Collapsed) :
    Yields (Text.Holds data) (htmlInto n rounds i view) (fun _ => True) := by
  induction rounds generalizing i view with
  | zero => exact .pure _ trivial
  | succ rounds ih =>
      refine .ite (fun _ => ?_) (fun _ => .pure _ trivial)
      exact .bind (decodeEntityAt_yields n i) (fun r _ => ih _ _)

theorem textInto_yields (n rounds i : Nat) (view : Collapsed) :
    Yields (Text.Holds data) (textInto n rounds i view) (fun _ => True) := by
  induction rounds generalizing i view with
  | zero => exact .pure _ trivial
  | succ rounds ih =>
      refine .ite (fun _ => ?_) (fun _ => .pure _ trivial)
      exact .bind (Text.byte_yields i) (fun b _ => ih _ _)

theorem slashThen_yields (n i : Nat) (b c : UInt8) :
    Yields (Text.Holds data) (slashThen n i b c)
      (fun opened => opened = true → i + 1 < n) := by
  refine .ite (fun _ => ?_) (fun _ => .pure _ (by simp))
  refine .ite (fun more => ?_) (fun _ => .pure _ (by simp))
  exact .bind (Text.byte_yields (i + 1)) (fun _ _ => .pure _ fun _ => more)

theorem stripComments_yields {σ : Type} (n : Nat) (out : UInt8 → σ → σ)
    (rounds i : Nat) (quote : Option UInt8) (kept : σ) :
    Yields (Text.Holds data) (stripComments n out rounds i quote kept)
      (fun _ => True) := by
  induction rounds generalizing i quote kept with
  | zero => exact .pure _ trivial
  | succ rounds ih =>
      refine .ite (fun inside => ?_) (fun _ => .pure _ trivial)
      refine .bind (Text.byte_yields i) (fun b _ => ?_)
      cases quote with
      | some q =>
          refine .ite (fun _ => ?_) (fun _ => ih _ _ _)
          exact .bind (Text.byte_yields (i + 1)) (fun _ _ => ih _ _ _)
      | none =>
          refine .ite (fun _ => ih _ _ _) (fun _ => ?_)
          refine .bind (slashThen_yields n i b 42) (fun block more => ?_)
          refine .ite (fun isBlock => ?_) (fun _ => ?_)
          · have start : i + 2 ≤ n := more isBlock
            exact .bind (Script.blockCommentEnd_yields n n (i + 2) start)
              (fun stop _ => ih _ _ _)
          refine .bind (slashThen_yields n i b 47) (fun line _ => ?_)
          refine .ite (fun _ => ?_) (fun _ => ih _ _ _)
          exact .bind (Script.skipWhile_yields n _ n (i + 2))
            (fun stop _ => ih _ _ _)

theorem walk_yields {σ : Type} {walk : Nat → StateM Text σ} (out : σ → Bytes)
    (yields : ∀ n, Yields (Text.Holds data) (walk n) (fun _ => True)) :
    Yields (Text.Holds data)
      (do
        let n := (← get).len
        let view ← walk n
        pure (out view))
      (fun _ => True) := by
  obtain ⟨view, _, same⟩ := yields data.length
  refine ⟨out view, trivial, fun held holds => ?_⟩
  have run_eq : (do
        let n := (← get).len
        let view ← walk n
        pure (out view) : StateM Text Bytes).run held =
      (out ((walk held.len).run held).1, ((walk held.len).run held).2) := rfl
  rw [run_eq, holds.len_eq]
  obtain ⟨value, kept⟩ := same held holds
  exact ⟨congrArg out value, kept⟩

/-- A view of the object does not depend on how its bytes are delivered. -/
structure Delivered (data : Bytes) : Prop where
  html : Yields (Text.Holds data) html (fun _ => True)
  text : Yields (Text.Holds data) text (fun _ => True)
  javascript : Yields (Text.Holds data) javascript (fun _ => True)

theorem delivered (data : Bytes) : Delivered data where
  html := walk_yields Collapsed.out fun n => htmlInto_yields n n 0 _
  text := walk_yields Collapsed.out fun n => textInto_yields n n 0 _
  javascript := walk_yields Squeezed.out fun n =>
    stripComments_yields n squeeze n 0 none _

/-!
## Comments stripped byte by byte

The walk that strips comments looks a byte ahead and runs to the end of each
comment.  Read byte by byte it is a machine that holds back one slash, and what
it keeps of a text is told by the machine's mode at each byte.
-/

open Script (Text isAt blockCommentEnd skipWhile)

/-- Where the stripper stands between two bytes. -/
inductive Mode where
  | outside
  | slash
  | quoted (q : UInt8)
  | escaped (q : UInt8)
  | block
  | star
  | line
  deriving DecidableEq

namespace Mode

def opens (b : UInt8) : Mode :=
  if b = 39 ∨ b = 34 ∨ b = 96 then .quoted b
  else if b = 47 then .slash
  else .outside

def next (mode : Mode) (b : UInt8) : Mode :=
  match mode with
  | outside => opens b
  | slash => if b = 42 then block else if b = 47 then line else opens b
  | quoted q =>
      if b = 92 then escaped q else if b = q then outside else quoted q
  | escaped q => quoted q
  | block => if b = 42 then star else block
  | star => if b = 47 then outside else if b = 42 then star else block
  | line => if b = 10 then outside else line

/-- What is kept once a byte is read. -/
def emits (mode : Mode) (b : UInt8) : Bytes :=
  match mode with
  | outside => if b = 47 then [] else [b]
  | slash => if b = 42 ∨ b = 47 then [] else [47, b]
  | quoted _ | escaped _ => [b]
  | block => []
  | star => if b = 47 then [32] else []
  | line => if b = 10 then [10] else []

/-- What is kept at the end of the text. -/
def flush : Mode → Bytes
  | slash => [47]
  | block | star => [32]
  | _ => []

def after (mode : Mode) (bytes : Bytes) : Mode :=
  bytes.foldl next mode

def kept : Mode → Bytes → Bytes
  | _, [] => []
  | mode, b :: bytes => mode.emits b ++ kept (mode.next b) bytes

@[simp] theorem after_nil (mode : Mode) : mode.after [] = mode := rfl

@[simp] theorem after_cons (mode : Mode) (b : UInt8) (bytes : Bytes) :
    mode.after (b :: bytes) = (mode.next b).after bytes := rfl

theorem after_append (mode : Mode) (first second : Bytes) :
    mode.after (first ++ second) = (mode.after first).after second :=
  List.foldl_append

@[simp] theorem kept_nil (mode : Mode) : mode.kept [] = [] := by
  cases mode <;> rfl

@[simp] theorem kept_cons (mode : Mode) (b : UInt8) (bytes : Bytes) :
    mode.kept (b :: bytes) = mode.emits b ++ (mode.next b).kept bytes := by
  cases mode <;> rfl

theorem kept_append (mode : Mode) (first second : Bytes) :
    mode.kept (first ++ second) =
      mode.kept first ++ (mode.after first).kept second := by
  induction first generalizing mode with
  | nil => simp
  | cons b first ih => simp [ih]

/-- All that is kept of the rest of a text. -/
def strip (mode : Mode) (bytes : Bytes) : Bytes :=
  mode.kept bytes ++ (mode.after bytes).flush

@[simp] theorem strip_nil (mode : Mode) : mode.strip [] = mode.flush := by
  simp [strip]

theorem strip_cons (mode : Mode) (b : UInt8) (bytes : Bytes) :
    mode.strip (b :: bytes) = mode.emits b ++ (mode.next b).strip bytes := by
  simp [strip]

/-! ## Comments -/

theorem strip_star {c : UInt8} (open_ : c ≠ 47) (bytes : Bytes) :
    star.strip (c :: bytes) = block.strip (c :: bytes) := by
  simp [strip_cons, emits, next, open_]

theorem strip_line (bytes : Bytes) :
    line.strip bytes = outside.strip (bytes.dropWhile (· ≠ 10)) := by
  induction bytes with
  | nil => rfl
  | cons b bytes ih =>
      by_cases feed : b = 10
      · subst feed
        simp [strip_cons, emits, next, opens]
      · simp [strip_cons, emits, next, feed, ih]

end Mode

/-! ## The walk over bytes in memory -/

variable {data : Bytes}

theorem run_bind {σ α β : Type} (x : StateM σ α) (f : α → StateM σ β) (s : σ) :
    (x >>= f).run s = (f (x.run s).1).run (x.run s).2 := rfl

theorem run_ite {σ α : Type} (c : Prop) [Decidable c] (x y : StateM σ α) (s : σ) :
    (if c then x else y).run s = if c then x.run s else y.run s := by
  split <;> rfl

theorem byte_mem (i : Nat) :
    (Text.byte i).run (.mem data) = (data[i]?.getD 0, .mem data) := rfl

theorem skipWhile_mem (test : UInt8 → Bool) {rounds i : Nat}
    (enough : data.length - i ≤ rounds) :
    ∃ j, (skipWhile data.length test rounds i).run (.mem data) =
        (j, .mem data) ∧ i ≤ j ∧
      data.drop j = (data.drop i).dropWhile test := by
  induction rounds generalizing i with
  | zero =>
      refine ⟨i, rfl, le_rfl, ?_⟩
      rw [List.drop_of_length_le (by omega)]
      rfl
  | succ rounds ih =>
      by_cases inside : i < data.length
      · rw [skipWhile, if_pos inside, run_bind, byte_mem, run_ite,
          List.getElem?_eq_getElem inside, List.drop_eq_getElem_cons inside,
          List.dropWhile_cons, Option.getD_some]
        by_cases passes : test data[i]
        · rw [if_pos passes, if_pos passes]
          obtain ⟨j, run, past, drop⟩ := ih (i := i + 1) (by omega)
          exact ⟨j, run, by omega, drop⟩
        · rw [if_neg passes, if_neg passes]
          exact ⟨i, rfl, le_rfl, List.drop_eq_getElem_cons inside⟩
      · refine ⟨i, by rw [skipWhile, if_neg inside]; rfl, le_rfl, ?_⟩
        rw [List.drop_of_length_le (by omega)]
        rfl

theorem strip_unclosed {i : Nat} (short : data.length ≤ i + 1) :
    Mode.block.strip (data.drop i) =
      32 :: Mode.outside.strip (data.drop (min (i + 2) data.length)) := by
  rw [Nat.min_eq_right (by omega), List.drop_length]
  match rest : data.drop i with
  | [] => rfl
  | [b] =>
      rw [Mode.strip_cons, Mode.next]
      split <;> rfl
  | b :: c :: more =>
      have length := congrArg List.length rest
      simp only [List.length_drop, List.length_cons] at length
      omega

theorem blockCommentEnd_mem {rounds i : Nat} (start : i ≤ data.length)
    (enough : data.length - i ≤ rounds) :
    ∃ j, (blockCommentEnd data.length rounds i).run (.mem data) =
        (j, .mem data) ∧ i ≤ j ∧
      Mode.block.strip (data.drop i) = 32 :: Mode.outside.strip (data.drop j) := by
  induction rounds generalizing i with
  | zero =>
      exact ⟨min (i + 2) data.length, rfl, by omega, strip_unclosed (by omega)⟩
  | succ rounds ih =>
      by_cases inside : i + 1 < data.length
      · have here : i < data.length := by omega
        rw [blockCommentEnd, if_pos inside, run_bind, byte_mem, run_bind,
          byte_mem, run_ite, List.getElem?_eq_getElem here,
          List.getElem?_eq_getElem inside, Option.getD_some, Option.getD_some,
          List.drop_eq_getElem_cons here]
        by_cases closes : data[i] = 42 ∧ data[i + 1] = 47
        · rw [if_pos closes, closes.1, List.drop_eq_getElem_cons inside, closes.2]
          refine ⟨min (i + 2) data.length, rfl, by omega, ?_⟩
          rw [Nat.min_eq_left (by omega)]
          rfl
        · rw [if_neg closes]
          obtain ⟨j, run, past, same⟩ := ih (i := i + 1) (by omega) (by omega)
          refine ⟨j, run, by omega, ?_⟩
          rw [← same, Mode.strip_cons]
          by_cases asterisk : data[i] = 42
          · have open_ : data[i + 1] ≠ 47 := fun slash => closes ⟨asterisk, slash⟩
            rw [asterisk, List.drop_eq_getElem_cons inside,
              ← Mode.strip_star open_]
            rfl
          · simp [Mode.emits, Mode.next, asterisk]
      · rw [blockCommentEnd, if_neg inside]
        exact ⟨min (i + 2) data.length, rfl, by omega,
          strip_unclosed (by omega)⟩

/-- The mode outside comments, inside the quotes `quote` or none. -/
def Mode.within : Option UInt8 → Mode
  | none => .outside
  | some q => .quoted q

theorem slashThen_mem (i : Nat) (b c : UInt8) :
    (slashThen data.length i b c).run (.mem data) =
      (decide (b = 47 ∧ data[i + 1]? = some c), .mem data) := by
  unfold slashThen isAt
  by_cases slash : b = 47
  · by_cases inside : i + 1 < data.length
    · rw [if_pos slash, if_pos inside, run_bind, byte_mem,
        List.getElem?_eq_getElem inside]
      change (decide (data[i + 1] = c), Text.mem data) = _
      simp [slash]
    · rw [if_pos slash, if_neg inside, List.getElem?_eq_none (by omega)]
      change (false, Text.mem data) = _
      simp
  · rw [if_neg slash]
    change (false, Text.mem data) = _
    simp [slash]

theorem Mode.strip_quoted {q b : UInt8} (plain : b ≠ 92) (bytes : Bytes) :
    (Mode.quoted q).strip (b :: bytes) =
      b :: (Mode.within (if b = q then none else some q)).strip bytes := by
  rw [strip_cons, next, if_neg plain]
  split <;> rfl

theorem Mode.strip_quote {b : UInt8} (mark : b = 39 ∨ b = 34 ∨ b = 96)
    (bytes : Bytes) :
    Mode.outside.strip (b :: bytes) = b :: (Mode.quoted b).strip bytes := by
  have notSlash : b ≠ 47 := by
    rintro rfl
    simp at mark
  simp [strip_cons, emits, next, opens, mark, notSlash]

theorem Mode.strip_slash {bytes : Bytes} (block : bytes.head? ≠ some 42)
    (line : bytes.head? ≠ some 47) :
    Mode.slash.strip bytes = 47 :: Mode.outside.strip bytes := by
  cases bytes with
  | nil => rfl
  | cons c bytes =>
      have notStar : c ≠ 42 := fun same => block (congrArg some same)
      have notSlash : c ≠ 47 := fun same => line (congrArg some same)
      simp [strip_cons, emits, next, notStar, notSlash]

theorem Mode.strip_plain {b : UInt8} (mark : ¬ (b = 39 ∨ b = 34 ∨ b = 96))
    {bytes : Bytes} (block : ¬ (b = 47 ∧ bytes.head? = some 42))
    (line : ¬ (b = 47 ∧ bytes.head? = some 47)) :
    Mode.outside.strip (b :: bytes) = b :: Mode.outside.strip bytes := by
  by_cases slash : b = 47
  · subst slash
    rw [strip_cons]
    exact strip_slash (fun star => block ⟨rfl, star⟩)
      (fun twice => line ⟨rfl, twice⟩)
  · simp [strip_cons, emits, next, opens, mark, slash]

theorem drop_of_head {i : Nat} {c : UInt8}
    (head : (data.drop (i + 1)).head? = some c) :
    i + 2 ≤ data.length ∧ data.drop (i + 1) = c :: data.drop (i + 2) := by
  have more : i + 1 < data.length := by
    by_contra past
    rw [List.drop_of_length_le (by omega)] at head
    cases head
  rw [List.drop_eq_getElem_cons more] at head ⊢
  exact ⟨more, by rw [Option.some.inj head]⟩

/-- The walk keeps what the machine keeps. -/
theorem stripComments_mem {σ : Type} (out : UInt8 → σ → σ) {rounds i : Nat}
    (quote : Option UInt8) (view : σ) (enough : data.length - i ≤ rounds) :
    (stripComments data.length out rounds i quote view).run (.mem data) =
      (((Mode.within quote).strip (data.drop i)).foldl (fun view b => out b view)
        view, .mem data) := by
  have done {quote : Option UInt8} {i : Nat} (past : data.length ≤ i) :
      (Mode.within quote).strip (data.drop i) = [] := by
    rw [List.drop_of_length_le past, Mode.strip_nil]
    cases quote <;> rfl
  induction rounds generalizing i quote view with
  | zero => rw [done (by omega)]; rfl
  | succ rounds ih =>
      by_cases inside : i < data.length
      · rw [stripComments, if_pos inside, run_bind, byte_mem,
          List.getElem?_eq_getElem inside, List.drop_eq_getElem_cons inside,
          Option.getD_some]
        generalize data[i] = b
        cases quote with
        | some q =>
            dsimp only
            by_cases escape : b = 92 ∧ i + 1 < data.length
            · obtain ⟨rfl, more⟩ := escape
              rw [if_pos ⟨rfl, more⟩, run_bind, byte_mem, ih _ _ (by omega),
                List.getElem?_eq_getElem more, List.drop_eq_getElem_cons more]
              rfl
            · rw [if_neg escape, ih _ _ (by omega)]
              by_cases backslash : b = 92
              · have past : data.length ≤ i + 1 := by
                  by_contra more
                  exact escape ⟨backslash, by omega⟩
                rw [done past, List.drop_of_length_le past, backslash]
                rfl
              · rw [Mode.within, Mode.strip_quoted backslash]
                rfl
        | none =>
            dsimp only
            by_cases mark : b = 39 ∨ b = 34 ∨ b = 96
            · rw [if_pos mark, ih _ _ (by omega), Mode.within, Mode.within,
                Mode.strip_quote mark]
              rfl
            rw [if_neg mark, run_bind, slashThen_mem, run_ite,
              ← List.head?_drop]
            by_cases block : b = 47 ∧ (data.drop (i + 1)).head? = some 42
            · obtain ⟨more, rest⟩ := drop_of_head block.2
              obtain ⟨stop, run, past, same⟩ :=
                blockCommentEnd_mem more (Nat.sub_le _ _)
              rw [if_pos (by simpa using block), run_bind, run,
                ih _ _ (by omega), block.1, rest]
              change _ = ((Mode.block.strip (data.drop (i + 2))).foldl _ _, _)
              rw [same]
              rfl
            rw [if_neg (by simpa using block), run_bind, slashThen_mem, run_ite,
              ← List.head?_drop]
            by_cases line : b = 47 ∧ (data.drop (i + 1)).head? = some 47
            · obtain ⟨more, rest⟩ := drop_of_head line.2
              obtain ⟨stop, run, past, same⟩ :=
                skipWhile_mem (fun b => b ≠ 10)
                  (Nat.sub_le data.length (i + 2))
              rw [if_pos (by simpa using line), run_bind, run,
                ih _ _ (by omega), line.1, rest, Mode.within, same]
              change _ = ((Mode.line.strip (data.drop (i + 2))).foldl _ _, _)
              rw [Mode.strip_line]
            rw [if_neg (by simpa using line), ih _ _ (by omega), Mode.within,
              Mode.strip_plain mark block line]
            rfl
      · rw [stripComments, if_neg inside, done (by omega)]
        rfl

def squeezed (view : Squeezed) (kept : Bytes) : Squeezed :=
  kept.foldl (fun view b => squeeze b view) view

theorem javascript_mem (data : Bytes) :
    (javascript.run (.mem data)).1 =
      (squeezed ⟨[], false⟩ (Mode.outside.strip data)).out := by
  have enough : data.length - 0 ≤ data.length := Nat.sub_le _ _
  have walk := stripComments_mem squeeze none ⟨[], false⟩ enough
  have run_eq : (javascript.run (.mem data)).1 =
      ((stripComments data.length squeeze data.length 0 none
        ⟨[], false⟩).run (.mem data)).1.out := rfl
  rw [run_eq, walk]
  rfl

end Exav.Views
