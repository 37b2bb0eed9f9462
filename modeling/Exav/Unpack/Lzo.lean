import Exav.Unpack.AplibTokens

/-!
# LZO1X blocks

A block is a run of instructions, each literals or a match.  What an opcode means
depends on what came before it: four literals or more, one to three literals
behind a match, or none.
-/

namespace Exav.Unpack.Lzo1x

open Exav.Unpack.Aplib (cycled length_cycled copyMatch_eq)

/-- The input that is left, the output and its ceiling. -/
structure Lzo where
  src : Bytes
  out : Bytes
  max : Nat

abbrev Read := StateT Lzo (Except String)

/-- What the decoder does next. -/
inductive Next where
  | instruction
  | afterRun
  | matching (t : Nat)

def endsInside : String := "LZO input ends inside an instruction"
def pastInput : String := "LZO literal run goes past the input"
def overBudget : String := "LZO output exceeds the size budget"
def beforeStart : String := "LZO match points before the start of the output"

def byte : Read Nat := fun d =>
  match d.src with
  | [] => .error endsInside
  | b :: src => .ok (b.toNat, { d with src })

def extendedFrom : Nat → Bytes → Except String (Nat × Bytes)
  | _, [] => .error endsInside
  | n, b :: src =>
      if b ≠ 0 then .ok (n + b.toNat, src) else extendedFrom (n + 255) src

def extended (base : Nat) : Read Nat := fun d =>
  (extendedFrom base d.src).map fun p => (p.1, { d with src := p.2 })

def literals (n : Nat) : Read Unit := fun d =>
  if d.src.length < n then .error pastInput
  else if d.out.length + n > d.max then .error overBudget
  else .ok ((), { d with src := d.src.drop n, out := d.out ++ d.src.take n })

def copy (dist len : Nat) : Read Unit := fun d =>
  if dist = 0 ∨ dist > d.out.length then .error beforeStart
  else if d.out.length + len > d.max then .error overBudget
  else .ok ((), { d with out := copyMatch len (d.out.length - dist) d.out })

def lengthOf (low base : Nat) : Read Nat :=
  if low = 0 then extended base else pure low

/-- The match of the opcode `t`, and how many literals follow it; nothing at the
end of the block. -/
def matched (t : Nat) : Read (Option Nat) := do
  if t ≥ 64 then
    let dist := 1 + t / 4 % 8 + (← byte) * 8
    copy dist (t / 32 + 1)
    pure (some (t % 4))
  else if t ≥ 32 then
    let len ← lengthOf (t % 32) 31
    let a ← byte
    let b ← byte
    copy (1 + a / 4 + b * 64) (len + 2)
    pure (some (a % 4))
  else if t ≥ 16 then
    let len ← lengthOf (t % 8) 7
    let a ← byte
    let b ← byte
    let dist := t / 8 % 2 * 8 * 2048 + a / 4 + b * 64
    if dist = 0 then pure none
    else
      copy (dist + 0x4000) (len + 2)
      pure (some (a % 4))
  else
    let dist := 1 + t / 4 + (← byte) * 4
    copy dist 2
    pure (some (t % 4))

/-- The literals behind a match, and what comes then. -/
def trailing : Nat → Read Next
  | 0 => pure .instruction
  | n + 1 => do
      literals (n + 1)
      let t ← byte
      pure (.matching t)

def instruction : Read (Option Next) := fun d =>
  match d.src with
  | [] => .ok (none, d)
  | _ :: _ => (do
      let t ← byte
      if t ≥ 16 then pure (some (.matching t))
      else
        let n ← lengthOf t 15
        literals (n + 3)
        pure (some .afterRun) : Read (Option Next)) d

def afterRun : Read (Option Next) := do
  let t ← byte
  if t ≥ 16 then pure (some (.matching t))
  else
    let dist := 1 + 0x0800 + t / 4 + (← byte) * 4
    copy dist 3
    let next ← trailing (t % 4)
    pure (some next)

def step : Next → Read (Option Next)
  | .instruction => instruction
  | .afterRun => afterRun
  | .matching t => do
      match ← matched t with
      | none => pure none
      | some trail =>
          let next ← trailing trail
          pure (some next)

def runFor : (rounds : Nat) → Next → Read Bytes
  | 0, _ => fun _ => .error endsInside
  | rounds + 1, next => do
      match ← step next with
      | none => fun d => .ok (d.out, d)
      | some next => runFor rounds next

/-- A first byte above 17 is a run of that many literals less 17. -/
def start : Read Next := fun d =>
  match d.src with
  | [] => .ok (.instruction, d)
  | first :: src =>
      if first.toNat > 17 then
        (do
          literals (first.toNat - 17)
          if first.toNat - 17 < 4 then
            let t ← byte
            pure (.matching t)
          else pure .afterRun : Read Next) { d with src }
      else .ok (.instruction, d)

/-- Every step takes a byte at least. -/
def decompressFor (rounds : Nat) (src : Bytes) (max : Nat) :
    Except String Bytes :=
  ((start >>= runFor rounds) ⟨src, [], max⟩).map (·.1)

def decompress (src : Bytes) (max : Nat) : Except String Bytes :=
  decompressFor (src.length + 1) src max

/-! ## Every block -/

/-- Whenever the reader succeeds it has taken `least` bytes at least, and the
output is within the ceiling if it was before. -/
def Spends (least : Nat) {α : Type} (read : Read α) : Prop :=
  ∀ d a after, read d = .ok (a, after) →
    after.src.length + least ≤ d.src.length ∧ after.max = d.max ∧
      (d.out.length ≤ d.max → after.out.length ≤ d.max)

section

variable {α β : Type} {least more : Nat} {read : Read α} {next : α → Read β}

theorem Spends.pure (a : α) : Spends 0 (pure a : Read α) := by
  rintro d _ _ ⟨⟩
  exact ⟨Nat.le_refl _, rfl, id⟩

theorem Spends.mono (spends : Spends more read) (fewer : least ≤ more) :
    Spends least read := by
  intro d a after ran
  obtain ⟨less, same, within⟩ := spends d a after ran
  exact ⟨by omega, same, within⟩

theorem bind_ok {d after : Lzo} {b : β}
    (ran : (read >>= next) d = .ok (b, after)) :
    ∃ a middle, read d = .ok (a, middle) ∧ next a middle = .ok (b, after) := by
  change ((read d).bind fun p => next p.1 p.2) = _ at ran
  cases first : read d with
  | error e =>
      rw [first] at ran
      cases ran
  | ok p =>
      rw [first] at ran
      exact ⟨p.1, p.2, rfl, ran⟩

theorem Spends.bind (first : Spends least read)
    (second : ∀ a, Spends more (next a)) :
    Spends (least + more) (read >>= next) := by
  intro d b after ran
  obtain ⟨a, middle, began, ended⟩ := bind_ok ran
  obtain ⟨less, same, within⟩ := first d a middle began
  obtain ⟨fewer, also, inside⟩ := second a middle b after ended
  refine ⟨by omega, also.trans same, fun room => ?_⟩
  rw [same] at inside
  exact inside (within room)

theorem Spends.ite {p : Prop} [Decidable p] {read other : Read α}
    (yes : p → Spends least read) (no : ¬ p → Spends least other) :
    Spends least (if p then read else other) := by
  by_cases holds : p
  · rw [if_pos holds]
    exact yes holds
  · rw [if_neg holds]
    exact no holds

end

theorem spends_byte : Spends 1 byte := by
  intro d a after ran
  unfold byte at ran
  cases next : d.src with
  | nil =>
      rw [next] at ran
      cases ran
  | cons b src =>
      rw [next] at ran
      cases ran
      exact ⟨Nat.le_refl _, rfl, id⟩

theorem length_extendedFrom {n m : Nat} {src rest : Bytes}
    (ran : extendedFrom n src = .ok (m, rest)) : rest.length ≤ src.length := by
  induction src generalizing n with
  | nil => cases ran
  | cons b src ih =>
      rw [extendedFrom] at ran
      split_ifs at ran
      · cases ran
        exact Nat.le_succ _
      · exact (ih ran).trans (Nat.le_succ _)

theorem spends_extended (base : Nat) : Spends 0 (extended base) := by
  intro d a after ran
  unfold extended at ran
  cases went : extendedFrom base d.src with
  | error e =>
      rw [went] at ran
      cases ran
  | ok p =>
      rw [went] at ran
      cases ran
      exact ⟨length_extendedFrom went, rfl, id⟩

theorem spends_lengthOf (low base : Nat) : Spends 0 (lengthOf low base) :=
  .ite (fun _ => spends_extended base) fun _ => .pure low

theorem spends_literals (n : Nat) : Spends 0 (literals n) := by
  intro d a after ran
  unfold literals at ran
  split_ifs at ran with short long
  cases ran
  refine ⟨?_, rfl, fun _ => ?_⟩
  · rw [List.length_drop]
    omega
  · rw [List.length_append, List.length_take]
    omega

theorem spends_copy (dist len : Nat) : Spends 0 (copy dist len) := by
  intro d a after ran
  unfold copy at ran
  split_ifs at ran with outside long
  cases ran
  refine ⟨Nat.le_refl _, rfl, fun _ => ?_⟩
  dsimp only
  rw [copyMatch_eq (by omega) (by omega), List.length_append, length_cycled]
  omega

theorem spends_matched (t : Nat) : Spends 1 (matched t) := by
  have copied (dist len trail : Nat) :
      Spends 0 (copy dist len >>= fun _ => (pure (some trail) : Read _)) :=
    (spends_copy dist len).bind fun _ => .pure _
  have pair (next : Nat → Nat → Read (Option Nat))
      (rest : ∀ a b, Spends 0 (next a b)) :
      Spends 1 (byte >>= fun a => byte >>= fun b => next a b) :=
    (spends_byte.bind fun a => spends_byte.bind fun b => rest a b).mono
      (by decide)
  refine .ite (fun _ => ?_) fun _ => .ite (fun _ => ?_) fun _ =>
    .ite (fun _ => ?_) fun _ => ?_
  · exact spends_byte.bind fun b => copied _ _ _
  · exact ((spends_lengthOf _ _).bind fun len => pair _ fun a b =>
      copied _ _ _).mono (by decide)
  · refine ((spends_lengthOf _ _).bind fun len => pair _ fun a b => ?_).mono
      (by decide)
    exact .ite (fun _ => .pure _) fun _ => copied _ _ _
  · exact spends_byte.bind fun b => copied _ _ _

theorem spends_trailing (n : Nat) : Spends 0 (trailing n) := by
  cases n with
  | zero => exact .pure _
  | succ n =>
      exact ((spends_literals _).bind fun _ =>
        spends_byte.bind fun t => .pure _).mono (Nat.zero_le _)

theorem spends_start : Spends 0 start := by
  intro d a after ran
  unfold start at ran
  cases first : d.src with
  | nil =>
      rw [first] at ran
      cases ran
      exact ⟨by rw [first]; exact Nat.le_refl _, rfl, id⟩
  | cons b src =>
      rw [first] at ran
      dsimp only at ran
      by_cases large : b.toNat > 17
      · rw [if_pos large] at ran
        obtain ⟨less, same, within⟩ := ((spends_literals _).bind fun _ => .ite
          (fun _ => (spends_byte.bind fun t => .pure _).mono (Nat.zero_le _))
          fun _ => .pure _) { d with src } a after ran
        refine ⟨?_, same, within⟩
        rw [List.length_cons]
        dsimp only at less
        omega
      · rw [if_neg large] at ran
        cases ran
        exact ⟨by rw [first]; exact Nat.le_refl _, rfl, id⟩

theorem spends_step (next : Next) {result : Option Next} {d after : Lzo}
    (ran : step next d = .ok (result, after)) :
    (result = none ∨ after.src.length < d.src.length) ∧ after.max = d.max ∧
      (d.out.length ≤ d.max → after.out.length ≤ d.max) := by
  have taken {read : Read (Option Next)} (spends : Spends 1 read)
      (ran : read d = .ok (result, after)) :
      (result = none ∨ after.src.length < d.src.length) ∧ after.max = d.max ∧
        (d.out.length ≤ d.max → after.out.length ≤ d.max) :=
    ⟨.inr (Nat.lt_of_succ_le (spends d _ after ran).1),
      (spends d _ after ran).2⟩
  cases next with
  | instruction =>
      change instruction d = _ at ran
      unfold instruction at ran
      cases first : d.src with
      | nil =>
          rw [first] at ran
          cases ran
          exact ⟨.inl rfl, rfl, id⟩
      | cons b src =>
          rw [first] at ran
          rw [← first]
          exact taken (spends_byte.bind fun t => .ite (fun _ => .pure _) fun _ =>
            (spends_lengthOf _ _).bind fun n => (spends_literals _).bind
              fun _ => .pure _) ran
  | afterRun =>
      exact taken (spends_byte.bind fun t => .ite (fun _ => .pure _) fun _ =>
        (spends_byte.bind fun b => (spends_copy _ _).bind fun _ =>
          (spends_trailing _).bind fun next => .pure _).mono (Nat.zero_le _)) ran
  | matching t =>
      have spends : Spends (1 + 0) (step (.matching t)) := by
        refine (spends_matched t).bind fun found => ?_
        cases found with
        | none => exact .pure _
        | some trail => exact (spends_trailing _).bind fun next => .pure _
      exact taken spends ran

theorem runFor_rounds {n m : Nat} {next : Next} {d : Lzo}
    (enough : d.src.length < n) (also : d.src.length < m) :
    runFor n next d = runFor m next d := by
  induction n generalizing m next d with
  | zero => exact absurd enough (Nat.not_lt_zero _)
  | succ n ih =>
      cases m with
      | zero => exact absurd also (Nat.not_lt_zero _)
      | succ m =>
          change ((step next d).bind _) = ((step next d).bind _)
          cases went : step next d with
          | error e => rfl
          | ok p =>
              obtain ⟨result, after⟩ := p
              cases result with
              | none => rfl
              | some again =>
                  have less := ((spends_step next went).1).resolve_left nofun
                  exact ih (by omega) (by omega)

theorem length_runFor {rounds : Nat} {next : Next} {d after : Lzo}
    {result : Bytes} (ran : runFor rounds next d = .ok (result, after))
    (room : d.out.length ≤ d.max) : result.length ≤ d.max := by
  induction rounds generalizing next d with
  | zero => cases ran
  | succ rounds ih =>
      obtain ⟨found, middle, went, ended⟩ := bind_ok ran
      obtain ⟨-, same, within⟩ := spends_step next went
      cases found with
      | none =>
          cases ended
          exact within room
      | some again =>
          rw [← same] at within ⊢
          exact ih ended (within (by rw [same]; exact room))

/-- As many rounds as are needed. -/
def run (next : Next) : Read Bytes := fun d =>
  runFor (d.src.length + 1) next d

def finish : Read Bytes := fun d => .ok (d.out, d)

/-- What is done when a step has been made. -/
def goOn : Option Next → Read Bytes
  | none => finish
  | some next => run next

theorem run_eq (next : Next) : run next = step next >>= goOn := by
  funext d
  change ((step next d).bind _) = ((step next d).bind _)
  cases went : step next d with
  | error e => rfl
  | ok p =>
      obtain ⟨result, after⟩ := p
      cases result with
      | none => rfl
      | some again =>
          have less := ((spends_step next went).1).resolve_left nofun
          exact runFor_rounds (by omega) (Nat.lt_succ_self _)

theorem decompressFor_eq {rounds : Nat} {src : Bytes} {max : Nat}
    (enough : src.length < rounds) :
    decompressFor rounds src max = ((start >>= run) ⟨src, [], max⟩).map (·.1) := by
  unfold decompressFor
  congr 1
  change ((start _).bind _) = ((start _).bind _)
  cases began : start ⟨src, [], max⟩ with
  | error e => rfl
  | ok p =>
      have less := (spends_start _ p.1 p.2 began).1
      exact runFor_rounds (Nat.lt_of_le_of_lt less enough) (Nat.lt_succ_self _)

/-! ## What a reader gives -/

/-- The reader takes the text, makes `out'` of the output and gives the value, or
finds that the ceiling is too low for that. -/
structure Gives {α : Type} (read : Read α) (text out out' : Bytes) (a : α) :
    Prop where
  grows : out.length ≤ out'.length
  runs : ∀ more max, out.length ≤ max → read ⟨text ++ more, out, max⟩ =
    if out'.length ≤ max then .ok (a, ⟨more, out', max⟩) else .error overBudget

section

variable {α β : Type} {read : Read α} {next : α → Read β}
  {text behind out middle out' : Bytes} {a : α} {b : β}

theorem Gives.pure (a : α) : Gives (pure a : Read α) [] out out a where
  grows := Nat.le_refl _
  runs more max room := by
    rw [if_pos room]
    rfl

theorem Gives.then (gives : Gives read text out middle a) {more : Bytes}
    {max : Nat} (room : out.length ≤ max) :
    (read >>= next) ⟨text ++ more, out, max⟩ =
      if middle.length ≤ max then next a ⟨more, middle, max⟩
      else .error overBudget := by
  change ((read _).bind fun p => next p.1 p.2) = _
  rw [gives.runs more max room]
  split_ifs <;> rfl

theorem Gives.bind (first : Gives read text out middle a)
    (second : Gives (next a) behind middle out' b) :
    Gives (read >>= next) (text ++ behind) out out' b where
  grows := first.grows.trans second.grows
  runs more max room := by
    have grows := second.grows
    rw [List.append_assoc, first.then room]
    by_cases fits : middle.length ≤ max
    · rw [if_pos fits, second.runs more max fits]
    · rw [if_neg fits, if_neg (by omega)]

/-- What comes last takes nothing. -/
theorem Gives.last (first : Gives read text out middle a)
    (second : Gives (next a) [] middle out' b) :
    Gives (read >>= next) text out out' b := by
  have both := first.bind second
  rwa [List.append_nil] at both

end

theorem gives_byte {n : Nat} (small : n < 256) (out : Bytes) :
    Gives byte [UInt8.ofNat n] out out n where
  grows := Nat.le_refl _
  runs more max room := by
    rw [if_pos room]
    change Except.ok ((UInt8.ofNat n).toNat, (⟨more, out, max⟩ : Lzo)) = _
    rw [UInt8.toNat_ofNat', Nat.mod_eq_of_lt small]

theorem gives_literals (lits out : Bytes) :
    Gives (literals lits.length) lits out (out ++ lits) () where
  grows := by
    rw [List.length_append]
    exact Nat.le_add_right _ _
  runs more max room := by
    unfold literals
    dsimp only
    rw [List.length_append, if_neg (by omega), List.take_left, List.drop_left,
      List.length_append]
    split_ifs <;> first | rfl | omega

theorem gives_copy {dist : Nat} {out : Bytes} (back : 0 < dist)
    (inside : dist ≤ out.length) (len : Nat) :
    Gives (copy dist len) [] out (out ++ cycled out dist len) () where
  grows := by
    rw [List.length_append]
    exact Nat.le_add_right _ _
  runs more max room := by
    unfold copy
    dsimp only
    rw [if_neg (by omega), copyMatch_eq back inside, List.length_append,
      length_cycled]
    split_ifs <;> first | rfl | omega

/-- What a length is above the greatest that an opcode holds. -/
def extension (n : Nat) : Bytes :=
  List.replicate ((n - 1) / 255) 0 ++ [UInt8.ofNat ((n - 1) % 255 + 1)]

theorem extendedFrom_extension {n : Nat} (some : 0 < n) (base : Nat)
    (more : Bytes) :
    extendedFrom base (extension n ++ more) = .ok (base + n, more) := by
  have zeros (k base : Nat) (rest : Bytes) :
      extendedFrom base (List.replicate k 0 ++ rest) =
        extendedFrom (base + 255 * k) rest := by
    induction k generalizing base with
    | zero => rfl
    | succ k ih =>
        rw [List.replicate_succ, List.cons_append, extendedFrom,
          if_neg (not_not.mpr rfl), ih]
        congr 1
        omega
  have value : (UInt8.ofNat ((n - 1) % 255 + 1)).toNat = (n - 1) % 255 + 1 := by
    rw [UInt8.toNat_ofNat']
    omega
  have last : UInt8.ofNat ((n - 1) % 255 + 1) ≠ 0 := by
    intro zero
    rw [zero] at value
    exact absurd value (Nat.succ_ne_zero _).symm
  rw [extension, List.append_assoc, zeros, List.singleton_append, extendedFrom,
    if_pos last, value]
  congr 2
  omega

theorem gives_extended {n : Nat} (some : 0 < n) (base : Nat) (out : Bytes) :
    Gives (extended base) (extension n) out out (base + n) where
  grows := Nat.le_refl _
  runs more max room := by
    unfold extended
    dsimp only
    rw [if_pos room, extendedFrom_extension some]
    rfl

/-- The bits of a length up to `most`, and the bytes of a greater one. -/
def lengthCode (most n : Nat) : Nat × Bytes :=
  if n ≤ most then (n, []) else (0, extension (n - most))

theorem lengthCode_le (most n : Nat) : (lengthCode most n).1 ≤ most := by
  unfold lengthCode
  split_ifs with short
  · exact short
  · exact Nat.zero_le _

theorem gives_lengthOf {n : Nat} (some : 0 < n) (most : Nat) (out : Bytes) :
    Gives (lengthOf (lengthCode most n).1 most) (lengthCode most n).2 out out
      n := by
  unfold lengthOf lengthCode
  split_ifs with short zero long
  · dsimp only at zero
    omega
  · exact .pure n
  · have gives := gives_extended (show 0 < n - most by omega) most out
    have whole : most + (n - most) = n := by omega
    rw [whole] at gives
    exact gives
  · exact absurd rfl long

/-! ## Instructions -/

/-- The ways to write a match. -/
inductive Form where
  | near
  | third
  | short
  | general
  | far
  deriving DecidableEq

/-- What came before an instruction. -/
inductive Behind where
  | nothing
  | run
  | trail
  deriving DecidableEq

namespace Form

/-- The matches that are written so. -/
def Codes : Form → (dist len : Nat) → Prop
  | near, dist, len => dist ≤ 1024 ∧ len = 2
  | third, dist, len => 2049 ≤ dist ∧ dist ≤ 3072 ∧ len = 3
  | short, dist, len => dist ≤ 2048 ∧ 3 ≤ len ∧ len ≤ 8
  | general, dist, len => dist ≤ 16384 ∧ 3 ≤ len
  | far, dist, len => 16384 < dist ∧ dist ≤ 49151 ∧ 3 ≤ len

def Allowed : Form → Behind → Prop
  | near, before => before = .trail
  | third, before => before = .run
  | _, _ => True

/-- The two bytes that end the longer forms. -/
def pair (dist trail : Nat) : Bytes :=
  [UInt8.ofNat (dist % 64 * 4 + trail)] ++ [UInt8.ofNat (dist / 64)]

/-- The opcode of a match, and the bytes after it. -/
def code : Form → (dist len trail : Nat) → Nat × Bytes
  | near, dist, _, trail =>
      ((dist - 1) % 4 * 4 + trail, [UInt8.ofNat ((dist - 1) / 4)])
  | third, dist, _, trail =>
      ((dist - 2049) % 4 * 4 + trail, [UInt8.ofNat ((dist - 2049) / 4)])
  | short, dist, len, trail =>
      ((len - 1) * 32 + (dist - 1) % 8 * 4 + trail,
        [UInt8.ofNat ((dist - 1) / 8)])
  | general, dist, len, trail =>
      (32 + (lengthCode 31 (len - 2)).1,
        (lengthCode 31 (len - 2)).2 ++ pair (dist - 1) trail)
  | far, dist, len, trail =>
      (16 + (dist - 16384) / 16384 * 8 + (lengthCode 7 (len - 2)).1,
        (lengthCode 7 (len - 2)).2 ++ pair ((dist - 16384) % 16384) trail)

variable {form : Form} {dist len trail : Nat} {out : Bytes}

theorem code_lt (codes : form.Codes dist len) (few : trail ≤ 3) :
    (form.code dist len trail).1 < 256 := by
  have low := lengthCode_le 31 (len - 2)
  have high := lengthCode_le 7 (len - 2)
  cases form <;> simp only [code, Codes] at codes ⊢ <;> omega

/-- A match is copied; the one that may only follow a run has a reader of its
own. -/
theorem gives_matched (codes : form.Codes dist len) (other : form ≠ third)
    (back : 0 < dist) (inside : dist ≤ out.length) (few : trail ≤ 3) :
    Gives (matched (form.code dist len trail).1) (form.code dist len trail).2
      out (out ++ cycled out dist len) (some trail) := by
  have copied {place count low : Nat} (same : place = dist)
      (whole : count = len) (low_eq : low = trail) :
      Gives (copy place count >>= fun _ => (pure (some low) : Read _)) [] out
        (out ++ cycled out dist len) (some trail) := by
    subst same whole low_eq
    exact (gives_copy back inside count).last (.pure _)
  cases form with
  | third => exact absurd rfl other
  | near =>
      obtain ⟨upto, rfl⟩ := codes
      simp only [code]
      rw [matched, if_neg (by omega), if_neg (by omega), if_neg (by omega)]
      refine (gives_byte (by omega) out).last ?_
      exact copied (by omega) rfl (by omega)
  | short =>
      obtain ⟨upto, three, eight⟩ := codes
      simp only [code]
      rw [matched, if_pos (by omega)]
      refine (gives_byte (by omega) out).last ?_
      exact copied (by omega) (by omega) (by omega)
  | general =>
      obtain ⟨upto, three⟩ := codes
      have low := lengthCode_le 31 (len - 2)
      simp only [code]
      rw [matched, if_neg (by omega), if_pos (by omega)]
      have bits : (32 + (lengthCode 31 (len - 2)).1) % 32 =
          (lengthCode 31 (len - 2)).1 % 32 := Nat.add_mod_left _ _
      rw [bits, Nat.mod_eq_of_lt (by omega)]
      refine (gives_lengthOf (by omega) 31 out).bind ?_
      refine (gives_byte (by omega) out).bind ?_
      refine (gives_byte (by omega) out).last ?_
      exact copied (by omega) (by omega) (by omega)
  | far =>
      obtain ⟨above, upto, three⟩ := codes
      have low := lengthCode_le 7 (len - 2)
      simp only [code]
      rw [matched, if_neg (by omega), if_neg (by omega), if_pos (by omega)]
      have bits : (16 + (dist - 16384) / 16384 * 8 +
          (lengthCode 7 (len - 2)).1) % 8 = (lengthCode 7 (len - 2)).1 := by
        omega
      rw [bits]
      refine (gives_lengthOf (by omega) 7 out).bind ?_
      refine (gives_byte (by omega) out).bind ?_
      refine (gives_byte (by omega) out).last ?_
      dsimp only
      rw [if_neg (by omega)]
      exact copied (by omega) (by omega) (by omega)

end Form

inductive Instr where
  | run (lits : Bytes)
  | copy (form : Form) (dist len : Nat) (trail : Bytes)

/-- What the next instruction has before it, some literals having come last. -/
def behindOf : Bytes → Behind
  | [] => .nothing
  | _ :: _ => .trail

namespace Instr

/-- The instruction may stand there, and its match lies in the output. -/
def Fits (before : Behind) (out : Bytes) : Instr → Prop
  | run lits => before = .nothing ∧ 4 ≤ lits.length
  | copy form dist len trail => form.Allowed before ∧ form.Codes dist len ∧
      0 < dist ∧ dist ≤ out.length ∧ trail.length ≤ 3

def apply (out : Bytes) : Instr → Bytes
  | run lits => out ++ lits
  | copy _ dist len trail => out ++ cycled out dist len ++ trail

def behind : Instr → Behind
  | run _ => .run
  | copy _ _ _ trail => behindOf trail

def text : Instr → Bytes
  | run lits => UInt8.ofNat (lengthCode 15 (lits.length - 3)).1 ::
      ((lengthCode 15 (lits.length - 3)).2 ++ lits)
  | copy form dist len trail =>
      UInt8.ofNat (form.code dist len trail.length).1 ::
        ((form.code dist len trail.length).2 ++ trail)

end Instr

def tellAll (out : Bytes) (instrs : List Instr) : Bytes :=
  instrs.foldl Instr.apply out

def behindAll (before : Behind) (instrs : List Instr) : Behind :=
  instrs.foldl (fun _ i => i.behind) before

def AllFit (before : Behind) (out : Bytes) : List Instr → Prop
  | [] => True
  | i :: instrs => i.Fits before out ∧ AllFit i.behind (i.apply out) instrs

def textOf (instrs : List Instr) : Bytes :=
  instrs.flatMap Instr.text

/-! ## Instructions read -/

def resume : Behind → Read Bytes
  | .nothing => run .instruction
  | .run => run .afterRun
  | .trail => byte >>= fun t => run (.matching t)

section

variable {β : Type} {src out more : Bytes} {max : Nat}

theorem byte_then {n : Nat} (small : n < 256) (next : Nat → Read β) :
    (byte >>= next) ⟨UInt8.ofNat n :: src, out, max⟩ =
      next n ⟨src, out, max⟩ := by
  change next (UInt8.ofNat n).toNat _ = _
  rw [UInt8.toNat_ofNat', Nat.mod_eq_of_lt small]

theorem run_instruction (b : UInt8) :
    run .instruction ⟨b :: src, out, max⟩ =
      (byte >>= fun t => if t ≥ 16 then run (.matching t)
        else lengthOf t 15 >>= fun n => literals (n + 3) >>= fun _ =>
          run .afterRun) ⟨b :: src, out, max⟩ := by
  have opened : step .instruction ⟨b :: src, out, max⟩ =
      (byte >>= fun t => if t ≥ 16 then pure (some (.matching t))
        else lengthOf t 15 >>= fun n => literals (n + 3) >>= fun _ =>
          pure (some .afterRun) : Read (Option Next)) ⟨b :: src, out, max⟩ := rfl
  rw [run_eq]
  change ((step .instruction _).bind fun p => goOn p.1 p.2) = _
  rw [opened]
  change (((byte >>= _ : Read (Option Next)) >>= goOn) _) = _
  rw [bind_assoc]
  refine congrFun ?_ _
  congr 1
  funext t
  split_ifs
  · rfl
  · simp only [bind_assoc, pure_bind]
    rfl

theorem run_afterRun :
    run .afterRun = byte >>= fun t => if t ≥ 16 then run (.matching t)
      else byte >>= fun b => copy (1 + 0x0800 + t / 4 + b * 4) 3 >>= fun _ =>
        trailing (t % 4) >>= run := by
  rw [run_eq]
  change (afterRun >>= goOn) = _
  unfold afterRun
  rw [bind_assoc]
  congr 1
  funext t
  split_ifs
  · rfl
  · simp only [bind_assoc, pure_bind]
    rfl

theorem run_matching (t : Nat) :
    run (.matching t) = matched t >>= fun found =>
      match found with
      | none => finish
      | some trail => trailing trail >>= run := by
  rw [run_eq]
  change ((matched t >>= _) >>= goOn) = _
  rw [bind_assoc]
  congr 1
  funext found
  cases found with
  | none => rfl
  | some trail =>
      simp only [bind_assoc, pure_bind]
      rfl

theorem trailing_run (lits : Bytes) (room : out.length ≤ max) :
    (trailing lits.length >>= run) ⟨lits ++ more, out, max⟩ =
      if (out ++ lits).length ≤ max then
        resume (behindOf lits) ⟨more, out ++ lits, max⟩
      else .error overBudget := by
  cases lits with
  | nil =>
      rw [List.append_nil, if_pos room]
      rfl
  | cons b lits =>
      have goes : (trailing (b :: lits).length >>= run) =
          literals (b :: lits).length >>= fun _ => resume .trail := by
        rw [List.length_cons, trailing, bind_assoc]
        congr 1
        funext _
        exact bind_assoc _ _ _
      rw [goes]
      exact (gives_literals (b :: lits) out).then room

theorem resume_opcode {before : Behind} {t : Nat} (small : t < 256)
    (opens : 16 ≤ t ∨ before = .trail) :
    resume before ⟨UInt8.ofNat t :: src, out, max⟩ =
      run (.matching t) ⟨src, out, max⟩ := by
  cases before with
  | nothing =>
      rw [resume, run_instruction, byte_then small,
        if_pos (opens.resolve_right nofun)]
  | run =>
      rw [resume, run_afterRun, byte_then small,
        if_pos (opens.resolve_right nofun)]
  | trail => exact byte_then small _

theorem resume_copy {before : Behind} {form : Form} {dist len : Nat}
    {trail : Bytes} (fits : (Instr.copy form dist len trail).Fits before out)
    (room : out.length ≤ max) :
    resume before
        ⟨(Instr.copy form dist len trail).text ++ more, out, max⟩ =
      if (out ++ cycled out dist len ++ trail).length ≤ max then
        resume (behindOf trail) ⟨more, out ++ cycled out dist len ++ trail, max⟩
      else .error overBudget := by
  obtain ⟨allowed, codes, back, inside, few⟩ := fits
  have small := Form.code_lt codes few
  have grows : (out ++ cycled out dist len).length ≤
      (out ++ cycled out dist len ++ trail).length := by
    exact (List.prefix_append _ trail).length_le
  have behind : (if (out ++ cycled out dist len).length ≤ max then
        (trailing trail.length >>= run)
          ⟨trail ++ more, out ++ cycled out dist len, max⟩
      else .error overBudget) =
      if (out ++ cycled out dist len ++ trail).length ≤ max then
        resume (behindOf trail) ⟨more, out ++ cycled out dist len ++ trail, max⟩
      else .error overBudget := by
    by_cases enough : (out ++ cycled out dist len).length ≤ max
    · rw [if_pos enough]
      exact trailing_run trail enough
    · rw [if_neg enough, if_neg (by omega)]
  rw [← behind, Instr.text, List.cons_append, List.append_assoc]
  by_cases far : form = .third
  · subst far
    obtain ⟨above, upto, rfl⟩ := codes
    obtain rfl : before = .run := allowed
    have low : ¬ (Form.third.code dist 3 trail.length).1 ≥ 16 := by
      simp only [Form.code]
      omega
    rw [resume, run_afterRun, byte_then small, if_neg low]
    simp only [Form.code]
    rw [List.singleton_append, byte_then (by omega)]
    have place : 1 + 0x0800 + ((dist - 2049) % 4 * 4 + trail.length) / 4 +
        (dist - 2049) / 4 * 4 = dist := by omega
    have trailing : ((dist - 2049) % 4 * 4 + trail.length) % 4 =
        trail.length := by omega
    rw [place, trailing]
    exact (gives_copy back inside 3).then room
  · have opens : 16 ≤ (form.code dist len trail.length).1 ∨ before = .trail := by
      cases form with
      | near => exact .inr allowed
      | third => exact absurd rfl far
      | short =>
          left
          simp only [Form.Codes, Form.code] at codes ⊢
          omega
      | general =>
          left
          simp only [Form.code]
          omega
      | far =>
          left
          simp only [Form.code]
          omega
    rw [resume_opcode small opens, run_matching]
    exact (Form.gives_matched codes far back inside few).then room

theorem resume_run {lits : Bytes} (four : 4 ≤ lits.length)
    (room : out.length ≤ max) :
    resume .nothing ⟨(Instr.run lits).text ++ more, out, max⟩ =
      if (out ++ lits).length ≤ max then resume .run ⟨more, out ++ lits, max⟩
      else .error overBudget := by
  have low := lengthCode_le 15 (lits.length - 3)
  have whole : lits.length - 3 + 3 = lits.length := by omega
  rw [Instr.text, List.cons_append, List.append_assoc, resume, run_instruction,
    byte_then (by omega), if_neg (by omega),
    (gives_lengthOf (by omega) 15 out).then room, if_pos room, whole]
  exact (gives_literals lits out).then room

theorem resume_instr {before : Behind} {i : Instr} (fits : i.Fits before out)
    (room : out.length ≤ max) :
    resume before ⟨i.text ++ more, out, max⟩ =
      if (i.apply out).length ≤ max then
        resume i.behind ⟨more, i.apply out, max⟩
      else .error overBudget := by
  cases i with
  | run lits =>
      obtain ⟨rfl, four⟩ := fits
      exact resume_run four room
  | copy form dist len trail => exact resume_copy fits room

theorem length_apply (i : Instr) : out.length ≤ (i.apply out).length := by
  cases i <;> simp only [Instr.apply, List.length_append] <;> omega

theorem length_tellAll (instrs : List Instr) :
    out.length ≤ (tellAll out instrs).length := by
  induction instrs generalizing out with
  | nil => exact Nat.le_refl _
  | cons i instrs ih => exact (length_apply i).trans ih

theorem resume_all {before : Behind} {instrs : List Instr}
    (fits : AllFit before out instrs) (room : out.length ≤ max) :
    resume before ⟨textOf instrs ++ more, out, max⟩ =
      if (tellAll out instrs).length ≤ max then
        resume (behindAll before instrs) ⟨more, tellAll out instrs, max⟩
      else .error overBudget := by
  induction instrs generalizing before out with
  | nil => exact (if_pos room).symm
  | cons i instrs ih =>
      have grows : (i.apply out).length ≤ (tellAll out (i :: instrs)).length :=
        length_tellAll instrs
      rw [textOf, List.flatMap_cons, List.append_assoc, resume_instr fits.1 room]
      by_cases enough : (i.apply out).length ≤ max
      · rw [if_pos enough]
        exact ih fits.2 enough
      · rw [if_neg enough, if_neg (by omega)]

theorem resume_marker (before : Behind) :
    resume before ⟨0x11 :: 0 :: 0 :: more, out, max⟩ =
      .ok (out, ⟨more, out, max⟩) := by
  have opcode := @resume_opcode (0 :: 0 :: more) out max before 17 (by decide)
    (.inl (by decide))
  rw [run_matching] at opcode
  exact opcode

end

/-! ## Blocks -/

/-- A block: a run in the first byte if it is not empty, instructions, and what
stands behind the end marker if there is one. -/
structure Stream where
  first : Bytes
  instrs : List Instr
  closing : Option Bytes

namespace Stream

variable (s : Stream)

def before : Behind :=
  if s.first = [] then .nothing
  else if s.first.length < 4 then .trail else .run

def out : Bytes := tellAll s.first s.instrs

def end_ : Bytes :=
  match s.closing with
  | none => []
  | some rest => 0x11 :: 0 :: 0 :: rest

def head : Bytes :=
  if s.first = [] then []
  else UInt8.ofNat (17 + s.first.length) :: s.first

def text : Bytes := s.head ++ (textOf s.instrs ++ s.end_)

/-- Without a marker the input ends where an instruction may start. -/
structure Legal : Prop where
  short : s.first.length ≤ 238
  fits : AllFit s.before s.first s.instrs
  ends : s.closing = none → behindAll s.before s.instrs = .nothing

variable {s}

theorem resume_end (legal : s.Legal) (out : Bytes) (max : Nat) :
    ((resume (behindAll s.before s.instrs)) ⟨s.end_, out, max⟩).map (·.1) =
      .ok out := by
  unfold end_
  cases closing : s.closing with
  | none =>
      rw [legal.ends closing]
      rfl
  | some rest =>
      dsimp only
      rw [resume_marker]
      rfl

theorem start_instruction (legal : s.Legal) (none : s.first = []) (max : Nat) :
    start ⟨textOf s.instrs ++ s.end_, [], max⟩ =
      .ok (.instruction, ⟨textOf s.instrs ++ s.end_, [], max⟩) := by
  have low {b : UInt8} (src : Bytes) (small : b.toNat ≤ 17) :
      start ⟨b :: src, [], max⟩ = .ok (.instruction, ⟨b :: src, [], max⟩) :=
    if_neg (Nat.not_lt.mpr small)
  have fits := legal.fits
  unfold end_
  cases instrs : s.instrs with
  | nil =>
      cases s.closing with
      | none => rfl
      | some rest => exact low (0 :: 0 :: rest) (by decide)
  | cons i others =>
      rw [instrs, none] at fits
      cases i with
      | run lits =>
          have code := lengthCode_le 15 (lits.length - 3)
          refine low _ ?_
          rw [UInt8.toNat_ofNat']
          omega
      | copy form dist len trail =>
          obtain ⟨-, -, back, inside, -⟩ := fits.1
          exact absurd inside (Nat.not_le.mpr back)

theorem start_first (legal : s.Legal) (some : s.first ≠ []) (more : Bytes)
    (max : Nat) :
    (start >>= run) ⟨s.head ++ more, [], max⟩ =
      if s.first.length ≤ max then resume s.before ⟨more, s.first, max⟩
      else .error overBudget := by
  have short := legal.short
  have filled := List.length_pos_iff.mpr some
  have value : (UInt8.ofNat (17 + s.first.length)).toNat =
      17 + s.first.length := by
    rw [UInt8.toNat_ofNat']
    omega
  have opened : (start >>= run) ⟨s.head ++ more, [], max⟩ =
      (literals s.first.length >>= fun _ => resume s.before)
        ⟨s.first ++ more, [], max⟩ := by
    rw [head, if_neg some, List.cons_append]
    change ((start _).bind fun p => run p.1 p.2) = _
    rw [start]
    dsimp only
    rw [value, if_pos (by omega), Nat.add_sub_cancel_left]
    change (((literals s.first.length >>= _ : Read Next) >>= run) _) = _
    rw [bind_assoc]
    refine congrFun ?_ _
    congr 1
    funext _
    rw [before, if_neg some]
    split_ifs
    · exact bind_assoc _ _ _
    · rfl
  rw [opened]
  exact (gives_literals s.first []).then (Nat.zero_le _)

theorem decompress_text (legal : s.Legal) (max : Nat) :
    decompress s.text max =
      if s.out.length ≤ max then .ok s.out else .error overBudget := by
  have grows : s.first.length ≤ s.out.length := length_tellAll s.instrs
  have opened : (start >>= run) ⟨s.text, [], max⟩ =
      if s.first.length ≤ max then
        resume s.before ⟨textOf s.instrs ++ s.end_, s.first, max⟩
      else .error overBudget := by
    by_cases none : s.first = []
    · have text : s.text = textOf s.instrs ++ s.end_ := by
        rw [Stream.text, head, if_pos none, List.nil_append]
      have before : s.before = .nothing := if_pos none
      rw [text, before, none, if_pos (show ([] : Bytes).length ≤ max from
        Nat.zero_le _)]
      change ((start _).bind fun p => run p.1 p.2) = _
      rw [start_instruction legal none]
      rfl
    · exact start_first legal none _ max
  rw [decompress, decompressFor_eq (Nat.lt_succ_self _), opened]
  by_cases room : s.first.length ≤ max
  · rw [if_pos room, resume_all legal.fits room]
    by_cases enough : s.out.length ≤ max
    · rw [if_pos enough, if_pos (show (tellAll s.first s.instrs).length ≤ max from
        enough)]
      exact resume_end legal _ max
    · rw [if_neg enough, if_neg (show ¬ (tellAll s.first s.instrs).length ≤ max from
        enough)]
      rfl
  · rw [if_neg room, if_neg (by omega)]
    rfl

end Stream

theorem length_decompress {src out : Bytes} {max : Nat}
    (ran : decompress src max = .ok out) : out.length ≤ max := by
  unfold decompress decompressFor at ran
  cases went : (start >>= runFor (src.length + 1)) ⟨src, [], max⟩ with
  | error e =>
      rw [went] at ran
      cases ran
  | ok p =>
      rw [went] at ran
      cases ran
      obtain ⟨next, middle, began, ended⟩ := bind_ok went
      obtain ⟨-, same, within⟩ := spends_start _ _ _ began
      dsimp only at same within
      rw [← same]
      exact length_runFor ended (by rw [same]; exact within (Nat.zero_le _))

/-- A block is unpacked to what its instructions say, or refused when that is
more than the ceiling; every block is unpacked within it, in as many rounds as it
has bytes. -/
theorem decompress_written :
    (∀ s : Stream, s.Legal → ∀ max, decompress s.text max =
      if s.out.length ≤ max then .ok s.out else .error overBudget) ∧
    ∀ src max, (∀ out, decompress src max = .ok out → out.length ≤ max) ∧
      ∀ rounds > src.length, decompressFor rounds src max = decompress src max :=
  ⟨fun _ legal => Stream.decompress_text legal, fun _ _ =>
    ⟨fun _ => length_decompress, fun _ enough =>
      (decompressFor_eq enough).trans (decompressFor_eq (Nat.lt_succ_self _)).symm⟩⟩

/-- Three literals, and a match that copies the last of them. -/
def sample : Stream :=
  ⟨[0x61, 0x62, 0x63], [.copy .general 1 8 []], some []⟩

theorem decompress_sample :
    decompress [20, 0x61, 0x62, 0x63, 0x26, 0, 0, 0x11, 0, 0] 11 =
      .ok [0x61, 0x62, 0x63, 0x63, 0x63, 0x63, 0x63, 0x63, 0x63, 0x63, 0x63] :=
  decompress_written.1 sample
    ⟨by decide, ⟨⟨trivial, ⟨by decide, by decide⟩, by decide, by decide, by decide⟩,
      trivial⟩, nofun⟩ 11

end Exav.Unpack.Lzo1x
