import Exav.Unpack.Aplib

/-!
# aPLib tokens unpacked

Tokens say what to append: bytes, or what stands some way back, over and over if
the match is longer than the way.  A stream in which tokens are laid out unpacks
to what they say, and every stream comes to an end within the bound.
-/

namespace Exav.Unpack.Aplib

open Exav.Tagged Exav.Taking

/-! ## Tokens -/

inductive Token where
  | literal (b : UInt8)
  | single (offs : Nat)
  | short (offs : Nat) (three : Bool)
  | general (offs len : Nat)
  | again (len : Nat)
  deriving DecidableEq

structure Told where
  out : Bytes
  last : Option Nat
  matched : Bool

/-- So many bytes from `offs` back, which repeat. -/
def cycled (out : Bytes) (offs len : Nat) : Bytes :=
  (List.range len).map fun i => byteAt out (out.length - offs + i % offs)

/-- By how much a match is longer than its code. -/
def bias (offs : Nat) : Nat :=
  (if 32000 ≤ offs then 1 else 0) +
    (if 1280 ≤ offs then 1 else if offs < 128 then 2 else 0)

/-- The number that codes the high part of an offset: 2 stands for the last
offset unless a match came last. -/
def highCode (told : Told) (offs : Nat) : Nat :=
  offs / 256 + if told.matched then 2 else 3

namespace Token

/-- What a token refers to lies in the output, and its code can express it. -/
def Refers (told : Told) : Token → Prop
  | literal _ => True
  | single offs => offs < 16 ∧ offs ≤ told.out.length
  | short offs _ => 0 < offs ∧ offs < 128 ∧ offs ≤ told.out.length
  | general offs len => 0 < offs ∧ offs ≤ told.out.length ∧ bias offs + 2 ≤ len
  | again len => told.matched = false ∧ 2 ≤ len ∧
      ∃ offs, told.last = some offs ∧ 0 < offs ∧ offs ≤ told.out.length

def Small (told : Told) : Token → Prop
  | general offs len =>
      highCode told offs < gammaEnd ∧ len - bias offs < gammaEnd
  | again len => len < gammaEnd
  | _ => True

def apply (told : Told) : Token → Told
  | literal b => { told with out := told.out ++ [b], matched := false }
  | single offs =>
      { told with
        out := told.out ++ if offs = 0 then [0] else cycled told.out offs 1
        matched := false }
  | short offs three =>
      ⟨told.out ++ cycled told.out offs (2 + three.toNat), some offs, true⟩
  | general offs len => ⟨told.out ++ cycled told.out offs len, some offs, true⟩
  | again len =>
      { told with
        out := told.out ++ cycled told.out (told.last.getD 0) len
        matched := true }

def syms (told : Told) : Token → List Sym
  | literal b => [.bit false] ++ [.byte b]
  | general offs len =>
      [.bit true] ++ ([.bit false] ++ (gammaSyms (highCode told offs) ++
        ([.byte (UInt8.ofNat (offs % 256))] ++ gammaSyms (len - bias offs))))
  | again len =>
      [.bit true] ++ ([.bit false] ++ (gammaSyms 2 ++ gammaSyms len))
  | short offs three =>
      [.bit true] ++ ([.bit true] ++ ([.bit false] ++
        [.byte (UInt8.ofNat (2 * offs + three.toNat))]))
  | single offs =>
      [.bit true] ++ ([.bit true] ++ ([.bit true] ++
        (digits 4 offs).map .bit))

end Token

def tellAll (told : Told) (toks : List Token) : Told :=
  toks.foldl Token.apply told

def symsOf (told : Told) : List Token → List Sym
  | [] => []
  | t :: toks => t.syms told ++ symsOf (t.apply told) toks

def AllRefer (told : Told) : List Token → Prop
  | [] => True
  | t :: toks => t.Refers told ∧ AllRefer (t.apply told) toks

def AllSmall (told : Told) : List Token → Prop
  | [] => True
  | t :: toks => t.Small told ∧ AllSmall (t.apply told) toks

/-- The end: a short match of no offset. -/
def endSyms (three : Bool) : List Sym :=
  [.bit true] ++ ([.bit true] ++ ([.bit false] ++
    [.byte (UInt8.ofNat three.toNat)]))

/-! ## Copies -/

theorem cycled_succ (out : Bytes) (offs len : Nat) :
    cycled out offs (len + 1) = cycled out offs len ++
      [byteAt out (out.length - offs + len % offs)] := by
  rw [cycled, List.range_succ, List.map_append]
  rfl

theorem length_cycled (out : Bytes) (offs len : Nat) :
    (cycled out offs len).length = len := by
  rw [cycled, List.length_map, List.length_range]

/-- The next byte to copy, some of the match being copied. -/
theorem byteAt_cycled {out : Bytes} {offs : Nat} (back : 0 < offs)
    (inside : offs ≤ out.length) (k : Nat) :
    byteAt (out ++ cycled out offs k) (out.length - offs + k) =
      byteAt out (out.length - offs + k % offs) := by
  rw [byteAt_eq, byteAt_eq]
  by_cases early : k < offs
  · rw [Nat.mod_eq_of_lt early, List.getElem?_append_left (by omega)]
  · have place : out.length - offs + k - out.length = k - offs := by omega
    rw [List.getElem?_append_right (by omega), place,
      Nat.mod_eq_sub_mod (Nat.le_of_not_lt early), cycled,
      List.getElem?_map, List.getElem?_range (by omega), ← byteAt_eq]
    rfl

theorem copyMatch_from {out : Bytes} {offs : Nat} (back : 0 < offs)
    (inside : offs ≤ out.length) (len k : Nat) :
    Unpack.copyMatch len (out.length - offs + k) (out ++ cycled out offs k) =
      out ++ cycled out offs (k + len) := by
  induction len generalizing k with
  | zero => rfl
  | succ len ih =>
      have further := ih (k + 1)
      rw [cycled_succ, ← List.append_assoc] at further
      rw [Unpack.copyMatch, byteAt_cycled back inside, Nat.add_assoc _ k 1,
        further]
      congr 2
      omega

theorem copyMatch_eq {out : Bytes} {offs : Nat} (back : 0 < offs)
    (inside : offs ≤ out.length) (len : Nat) :
    Unpack.copyMatch len (out.length - offs) out =
      out ++ cycled out offs len := by
  have whole := copyMatch_from back inside len 0
  rw [Nat.add_zero, Nat.zero_add] at whole
  simpa [cycled] using whole

theorem reads_copyMatch {out : Bytes} {offs len maxOut : Nat} (back : 0 < offs)
    (inside : offs ≤ out.length) (room : out.length + len ≤ maxOut) :
    Reads (copyMatch out offs len maxOut) [] (out ++ cycled out offs len) := by
  rw [copyMatch, if_neg (by omega), if_neg (by omega), copyMatch_eq back inside]
  exact .pure _

/-! ## One token -/

/-- The state of the unpacker is what the tokens have said. -/
structure Follows (told : Told) (s : Depack) : Prop where
  out : s.out = told.out
  lwm : s.lwm = told.matched
  r0 : ∀ offs, told.last = some offs → s.r0 = offs

theorem prefix_apply (told : Told) (t : Token) :
    told.out <+: (t.apply told).out := by
  cases t with
  | literal b => exact List.prefix_append _ _
  | single offs => exact List.prefix_append _ _
  | short offs three => exact List.prefix_append _ _
  | general offs len => exact List.prefix_append _ _
  | again len => exact List.prefix_append _ _

theorem biased_bias {offs len : Nat} (long : bias offs ≤ len) :
    biased offs (len - bias offs) = len := by
  unfold bias at long ⊢
  unfold biased
  dsimp only
  split_ifs at long ⊢ <;> omega

theorem length_apply_le {told : Told} {t : Token} {maxOut : Nat}
    (room : (t.apply told).out.length ≤ maxOut) : told.out.length ≤ maxOut :=
  (prefix_apply told t).length_le.trans room

variable {told : Told} {s : Depack} {maxOut : Nat}

theorem reads_again {len : Nat} (follows : Follows told s)
    (refers : (Token.again len).Refers told)
    (small : (Token.again len).Small told)
    (room : ((Token.again len).apply told).out.length ≤ maxOut) :
    ∃ after, Follows ((Token.again len).apply told) after ∧
      Reads (generalMatch maxOut s) (gammaSyms 2 ++ gammaSyms len) after := by
  obtain ⟨single, two, offs, last, back, inside⟩ := refers
  refine ⟨⟨told.out ++ cycled told.out offs len, s.r0, true⟩, ?_, ?_⟩
  · refine ⟨?_, rfl, follows.r0⟩
    rw [Token.apply, last]
    rfl
  · have fits : told.out.length + len ≤ maxOut := by
      rw [Token.apply, last, List.length_append, Option.getD_some,
        length_cycled] at room
      exact room
    have copied := reads_copyMatch back inside fits
    refine (reads_gamma (Nat.le_refl 2) (by decide)).bind ?_
    rw [if_pos ⟨follows.lwm.trans single, rfl⟩, follows.out,
      follows.r0 offs last]
    exact (reads_gamma two small).last (copied.last (.pure _))

theorem reads_general {offs len : Nat} (follows : Follows told s)
    (refers : (Token.general offs len).Refers told)
    (small : (Token.general offs len).Small told)
    (room : ((Token.general offs len).apply told).out.length ≤ maxOut) :
    Reads (generalMatch maxOut s) (gammaSyms (highCode told offs) ++
      ([.byte (UInt8.ofNat (offs % 256))] ++ gammaSyms (len - bias offs)))
      ⟨told.out ++ cycled told.out offs len, offs, true⟩ := by
  obtain ⟨back, inside, long⟩ := refers
  have fits : told.out.length + len ≤ maxOut := by
    rw [Token.apply, List.length_append, length_cycled] at room
    exact room
  have copied := reads_copyMatch back inside fits
  have two : 2 ≤ highCode told offs := by
    unfold highCode
    split <;> omega
  have fresh : ¬ (s.lwm = false ∧ highCode told offs = 2) := by
    rintro ⟨single, same⟩
    rw [follows.lwm] at single
    rw [highCode, single, if_neg Bool.false_ne_true] at same
    omega
  have high : (if s.lwm = true then 2 else 3) ≤ highCode told offs ∧
      highCode told offs - (if s.lwm = true then 2 else 3) = offs / 256 := by
    rw [highCode, follows.lwm]
    split <;> omega
  have low : (UInt8.ofNat (offs % 256)).toNat = offs % 256 := by
    rw [UInt8.toNat_ofNat']
    omega
  have whole : offs / 256 * 256 + offs % 256 = offs := by omega
  refine (reads_gamma two small.1).bind ?_
  rw [if_neg fresh, if_neg (Nat.not_lt.mpr high.1)]
  refine (reads_byte _).bind ?_
  rw [high.2, low, whole, follows.out]
  refine (reads_gamma (by omega) small.2).last ?_
  rw [biased_bias (by omega)]
  exact copied.last (.pure _)

/-- The byte of a short match: its offset, and whether it is three bytes. -/
theorem shortByte {offs : Nat} (low : offs < 128) (three : Bool) :
    2 + ((UInt8.ofNat (2 * offs + three.toNat)).toNat &&& 1) =
        2 + three.toNat ∧
      (UInt8.ofNat (2 * offs + three.toNat)).toNat >>> 1 = offs := by
  revert three
  revert offs
  decide +kernel

theorem reads_short {offs : Nat} {three : Bool} (follows : Follows told s)
    (refers : (Token.short offs three).Refers told)
    (room : ((Token.short offs three).apply told).out.length ≤ maxOut) :
    Reads (shortMatch maxOut s)
      [.byte (UInt8.ofNat (2 * offs + three.toNat))]
      (.inl ⟨told.out ++ cycled told.out offs (2 + three.toNat), offs,
        true⟩) := by
  obtain ⟨back, low, inside⟩ := refers
  obtain ⟨len, way⟩ := shortByte low three
  have fits : told.out.length + (2 + three.toNat) ≤ maxOut := by
    rw [Token.apply, List.length_append, length_cycled] at room
    exact room
  refine (reads_byte _).last ?_
  dsimp only
  rw [way, len, if_neg (Nat.ne_of_gt back), follows.out]
  exact (reads_copyMatch back inside fits).last (.pure _)

theorem reads_single {offs : Nat} (follows : Follows told s)
    (refers : (Token.single offs).Refers told)
    (room : ((Token.single offs).apply told).out.length ≤ maxOut) :
    Reads (singleByte maxOut s) ((digits 4 offs).map .bit)
      { s with out := ((Token.single offs).apply told).out, lwm := false } := by
  obtain ⟨low, inside⟩ := refers
  have zero : offs >>> 4 = 0 := by
    rw [Nat.shiftRight_eq_div_pow]
    omega
  have read := reads_nibbleFrom (digits 4 offs) (offs >>> 4)
  rw [valueFrom_digits, zero] at read
  refine Takes.last read ?_
  by_cases none : offs = 0
  · rw [if_pos none, follows.out, Token.apply, if_pos none]
    exact .pure _
  · have fits : told.out.length + 1 ≤ maxOut := by
      rw [Token.apply, if_neg none, List.length_append, length_cycled] at room
      exact room
    rw [if_neg none, follows.out, Token.apply, if_neg none]
    exact (reads_copyMatch (Nat.pos_of_ne_zero none) inside fits).last (.pure _)

theorem reads_token {t : Token} (follows : Follows told s)
    (refers : t.Refers told) (small : t.Small told)
    (room : (t.apply told).out.length ≤ maxOut) :
    ∃ after, Follows (t.apply told) after ∧
      Reads (token maxOut s) (t.syms told) (.inl after) := by
  have within : ¬ s.out.length > maxOut := by
    rw [follows.out]
    exact Nat.not_lt.mpr (length_apply_le room)
  have zero : false.toNat = 0 := rfl
  have one : ¬ true.toNat = 0 := Nat.succ_ne_zero 0
  unfold token
  rw [if_neg within]
  cases t with
  | literal b =>
      refine ⟨{ s with out := s.out ++ [b], lwm := false },
        ⟨by rw [follows.out]; rfl, rfl, follows.r0⟩, ?_⟩
      refine (reads_bit false).bind ?_
      rw [if_pos zero]
      exact (reads_byte b).last (.pure _)
  | general offs len =>
      have follow : Follows ((Token.general offs len).apply told)
          ⟨told.out ++ cycled told.out offs len, offs, true⟩ :=
        ⟨rfl, rfl, fun _ same => Option.some.inj same⟩
      refine ⟨_, follow, ?_⟩
      refine (reads_bit true).bind ?_
      rw [if_neg one]
      refine (reads_bit false).bind ?_
      rw [if_pos zero]
      exact (reads_general follows refers small room).last (.pure _)
  | again len =>
      obtain ⟨after, follow, read⟩ := reads_again follows refers small room
      refine ⟨after, follow, ?_⟩
      refine (reads_bit true).bind ?_
      rw [if_neg one]
      refine (reads_bit false).bind ?_
      rw [if_pos zero]
      exact read.last (.pure _)
  | short offs three =>
      have follow : Follows ((Token.short offs three).apply told)
          ⟨told.out ++ cycled told.out offs (2 + three.toNat), offs, true⟩ :=
        ⟨rfl, rfl, fun _ same => Option.some.inj same⟩
      refine ⟨_, follow, ?_⟩
      refine (reads_bit true).bind ?_
      rw [if_neg one]
      refine (reads_bit true).bind ?_
      rw [if_neg one]
      refine (reads_bit false).bind ?_
      rw [if_pos zero]
      exact reads_short follows refers room
  | single offs =>
      have follow : Follows ((Token.single offs).apply told)
          { s with out := ((Token.single offs).apply told).out, lwm := false } :=
        ⟨rfl, rfl, follows.r0⟩
      refine ⟨_, follow, ?_⟩
      refine (reads_bit true).bind ?_
      rw [if_neg one]
      refine (reads_bit true).bind ?_
      rw [if_neg one]
      refine (reads_bit true).bind ?_
      rw [if_neg one]
      exact (reads_single follows refers room).last (.pure _)

theorem reads_end (three : Bool) (room : s.out.length ≤ maxOut) :
    Reads (token maxOut s) (endSyms three) (.inr s.out) := by
  have zero : false.toNat = 0 := rfl
  have one : ¬ true.toNat = 0 := Nat.succ_ne_zero 0
  have none : (UInt8.ofNat three.toNat).toNat >>> 1 = 0 := by
    cases three <;> rfl
  unfold token
  rw [if_neg (Nat.not_lt.mpr room)]
  refine (reads_bit true).bind ?_
  rw [if_neg one]
  refine (reads_bit true).bind ?_
  rw [if_neg one]
  refine (reads_bit false).bind ?_
  rw [if_pos zero]
  refine (reads_byte _).last ?_
  dsimp only
  rw [none, if_pos rfl]
  exact .pure _

/-! ## All tokens -/

theorem prefix_tellAll (told : Told) (toks : List Token) :
    told.out <+: (tellAll told toks).out := by
  induction toks generalizing told with
  | nil => exact List.prefix_rfl
  | cons t toks ih => exact (prefix_apply told t).trans (ih (t.apply told))

theorem reads_tokens {toks : List Token} {rounds : Nat}
    (follows : Follows told s) (refers : AllRefer told toks)
    (small : AllSmall told toks)
    (room : (tellAll told toks).out.length ≤ maxOut)
    (enough : toks.length < rounds) (three : Bool) :
    Reads (tokens maxOut rounds s) (symsOf told toks ++ endSyms three)
      (tellAll told toks).out := by
  induction toks generalizing told s rounds with
  | nil =>
      obtain ⟨rounds, rfl⟩ : ∃ r, rounds = r + 1 :=
        Nat.exists_eq_succ_of_ne_zero (Nat.ne_of_gt enough)
      have fits : s.out.length ≤ maxOut := by
        rw [follows.out]
        exact room
      refine (reads_end three fits).last ?_
      dsimp only
      rw [follows.out]
      exact .pure _
  | cons t toks ih =>
      obtain ⟨rounds, rfl⟩ : ∃ r, rounds = r + 1 :=
        Nat.exists_eq_succ_of_ne_zero (by omega)
      have fits : (t.apply told).out.length ≤ maxOut :=
        (prefix_tellAll (t.apply told) toks).length_le.trans room
      obtain ⟨after, follows, read⟩ :=
        reads_token follows refers.1 small.1 fits
      have others := ih follows refers.2 small.2 room
        (Nat.lt_of_succ_lt_succ enough)
      rw [symsOf, List.append_assoc]
      exact read.bind others

/-!
## Every aPLib stream comes to an end

Each token takes a bit at least, so there are no more tokens than bits, and what
is unpacked is checked against the bound before each.
-/

def left (bi : BitIn) : Nat :=
  8 * (bi.src.length - bi.pos) + bi.nbits

theorem spends_byte : Spends left 8 byte := by
  intro bi b after ran
  unfold byte at ran
  cases here : bi.src[bi.pos]? with
  | none =>
      rw [here] at ran
      cases ran
  | some v =>
      have inside := (List.getElem?_eq_some_iff.mp here).1
      rw [here] at ran
      cases ran
      unfold left
      dsimp only
      omega

theorem spends_bit : Spends left 1 bit := by
  intro bi b after ran
  change ((reload bi).bind fun p => shift p.2) = some (b, after) at ran
  obtain ⟨⟨_, loaded⟩, load, ran⟩ := Option.bind_eq_some_iff.mp ran
  have some : left loaded ≤ left bi ∧ loaded.nbits ≠ 0 := by
    unfold reload at load
    by_cases used : bi.nbits = 0
    · rw [if_pos used] at load
      cases taken : byte bi with
      | none =>
          rw [taken] at load
          cases load
      | some p =>
          have spent := spends_byte bi p.1 p.2 taken
          rw [taken] at load
          cases load
          refine ⟨?_, Nat.succ_ne_zero 7⟩
          unfold left at spent ⊢
          dsimp only
          omega
    · rw [if_neg used] at load
      cases load
      exact ⟨Nat.le_refl _, used⟩
  cases ran
  unfold left at some ⊢
  dsimp only at some ⊢
  omega

theorem spends_gammaFrom (rounds result : Nat) :
    Spends left 0 (gammaFrom rounds result) := by
  induction rounds generalizing result with
  | zero => exact .fail
  | succ rounds ih =>
      refine (spends_bit.bind fun d => ?_).mono (Nat.zero_le 1)
      refine .ite (fun _ => .fail) fun _ => ?_
      refine (spends_bit.bind fun more => ?_).mono (Nat.zero_le 1)
      refine .ite (fun _ => .pure _) fun _ => ?_
      exact .ite (fun _ => .fail) fun _ => ih _

theorem spends_gamma : Spends left 0 gamma :=
  spends_gammaFrom 31 1

theorem spends_copyMatch (out : Bytes) (offs len maxOut : Nat) :
    Spends left 0 (copyMatch out offs len maxOut) :=
  .ite (fun _ => .fail) fun _ => .ite (fun _ => .fail) fun _ => .pure _

theorem spends_generalMatch (maxOut : Nat) (s : Depack) :
    Spends left 0 (generalMatch maxOut s) := by
  refine spends_gamma.bind fun offs => ?_
  refine .ite (fun _ => ?_) fun _ => ?_
  · exact spends_gamma.bind fun len =>
      (spends_copyMatch _ _ _ _).bind fun out => .pure _
  · refine .ite (fun _ => .fail) fun _ => ?_
    refine (spends_byte.bind fun b => ?_).mono (Nat.zero_le 8)
    exact spends_gamma.bind fun len =>
      (spends_copyMatch _ _ _ _).bind fun out => .pure _

theorem spends_shortMatch (maxOut : Nat) (s : Depack) :
    Spends left 0 (shortMatch maxOut s) := by
  refine (spends_byte.bind fun b => ?_).mono (Nat.zero_le 8)
  refine .ite (fun _ => .pure _) fun _ => ?_
  exact (spends_copyMatch _ _ _ _).bind fun out => .pure _

theorem spends_nibbleFrom (n offs : Nat) : Spends left 0 (nibbleFrom n offs) := by
  induction n generalizing offs with
  | zero => exact .pure _
  | succ n ih =>
      exact (spends_bit.bind fun d => ih _).mono (Nat.zero_le 1)

theorem spends_singleByte (maxOut : Nat) (s : Depack) :
    Spends left 0 (singleByte maxOut s) := by
  refine (spends_nibbleFrom 4 0).bind fun offs => ?_
  refine .ite (fun _ => .pure _) fun _ => ?_
  exact (spends_copyMatch _ _ _ _).bind fun out => .pure _

theorem spends_token (maxOut : Nat) (s : Depack) :
    Spends left 1 (token maxOut s) := by
  have tail {α : Type} {run : Read α} (spends : Spends left 0 run) :
      ∀ f : α → Depack ⊕ Bytes,
        Spends left 0 (run >>= fun a => (pure (f a) : Read _)) :=
    fun f => spends.bind fun a => .pure _
  refine .ite (fun _ => .fail) fun _ => ?_
  refine spends_bit.bind fun first => ?_
  refine .ite (fun _ => ?_) fun _ => ?_
  · exact tail (spends_byte.mono (Nat.zero_le 8)) _
  refine (spends_bit.bind fun second => ?_).mono (Nat.zero_le 1)
  refine .ite (fun _ => tail (spends_generalMatch maxOut s) _) fun _ => ?_
  refine (spends_bit.bind fun third => ?_).mono (Nat.zero_le 1)
  refine .ite (fun _ => spends_shortMatch maxOut s) fun _ => ?_
  exact tail (spends_singleByte maxOut s) _

theorem tokens_rounds {maxOut n m : Nat} {s : Depack} {bi : BitIn}
    (enough : left bi < n) (also : left bi < m) :
    tokens maxOut n s bi = tokens maxOut m s bi := by
  induction n generalizing m s bi with
  | zero => exact absurd enough (Nat.not_lt_zero _)
  | succ n ih =>
      obtain ⟨m, rfl⟩ : ∃ r, m = r + 1 :=
        Nat.exists_eq_succ_of_ne_zero (by omega)
      rw [tokens, tokens]
      change ((token maxOut s bi).bind fun p => _) =
        (token maxOut s bi).bind fun p => _
      cases ran : token maxOut s bi with
      | none => rfl
      | some p =>
          obtain ⟨result, after⟩ := p
          have spent := spends_token maxOut s bi result after ran
          cases result with
          | inl s => exact ih (by omega) (by omega)
          | inr out => rfl

/-- What a token ends with, if it does, is all there is. -/
def EndsAt (s : Depack) (result : Depack ⊕ Bytes) : Prop :=
  ∀ out, result = .inr out → out = s.out

theorem endsAt_inl (s after : Depack) : EndsAt s (.inl after) :=
  nofun

theorem endsAt_goes {α : Type} (s : Depack) (run : Read α) (f : α → Depack) :
    Gives (EndsAt s)
      (run >>= fun a => (pure (.inl (f a)) : Read (Depack ⊕ Bytes))) :=
  .bind fun _ => .pure (endsAt_inl s _)

theorem endsAt_shortMatch (maxOut : Nat) (s : Depack) :
    Gives (EndsAt s) (shortMatch maxOut s) := by
  refine .bind fun b => .ite (fun _ => .pure ?_) fun _ => endsAt_goes s _ _
  exact fun out same => (Sum.inr.inj same).symm

theorem token_end {maxOut : Nat} {s : Depack} {bi after : BitIn} {out : Bytes}
    (ran : token maxOut s bi = some (.inr out, after)) :
    out = s.out ∧ s.out.length ≤ maxOut := by
  unfold token at ran
  by_cases past : s.out.length > maxOut
  · rw [if_pos past] at ran
    cases ran
  · rw [if_neg past] at ran
    refine ⟨?_, Nat.le_of_not_lt past⟩
    have kept : EndsAt s (.inr out) := by
      refine Gives.bind (fun first => ?_) bi _ after ran
      refine .ite (fun _ => endsAt_goes s byte _) fun _ => .bind fun second => ?_
      refine .ite (fun _ => endsAt_goes s (generalMatch maxOut s) _) fun _ => ?_
      refine .bind fun third => .ite (fun _ => endsAt_shortMatch maxOut s) ?_
      exact fun _ => endsAt_goes s (singleByte maxOut s) _
    exact kept out rfl

theorem tokens_bounded {maxOut rounds : Nat} {s : Depack} {bi after : BitIn}
    {out : Bytes} (ran : tokens maxOut rounds s bi = some (out, after)) :
    out.length ≤ maxOut := by
  induction rounds generalizing s bi with
  | zero => cases ran
  | succ rounds ih =>
      change ((token maxOut s bi).bind fun p => _) = _ at ran
      obtain ⟨⟨result, behind⟩, first, ran⟩ := Option.bind_eq_some_iff.mp ran
      cases result with
      | inl s => exact ih ran
      | inr all =>
          obtain ⟨rfl, within⟩ := token_end first
          cases ran
          exact within

theorem depackFor_rounds {src : Bytes} {maxOut n m : Nat}
    (enough : 8 * src.length < n) (also : 8 * src.length < m) :
    depackFor n maxOut (.new src) = depackFor m maxOut (.new src) := by
  change ((byte (.new src)).bind fun p => _) =
    (byte (.new src)).bind fun p => _
  cases first : byte (.new src) with
  | none => rfl
  | some p =>
      have spent := spends_byte _ p.1 p.2 first
      have all : left (.new src) = 8 * src.length := rfl
      exact tokens_rounds (by omega) (by omega)

theorem depack_bounded {src : Bytes} {maxOut : Nat} {out : Bytes}
    (ran : depack src maxOut = some out) : out.length ≤ maxOut := by
  unfold depack at ran
  split_ifs at ran
  obtain ⟨result, went, rfl⟩ := Option.map_eq_some_iff.mp ran
  change ((byte (.new src)).bind fun p => _) = _ at went
  obtain ⟨p, -, went⟩ := Option.bind_eq_some_iff.mp went
  exact tokens_bounded went

/-- A stream of tokens unpacks to what they say. -/
theorem depack_tokens {first : UInt8} {toks : List Token} {three : Bool}
    {text : Bytes} {maxOut : Nat}
    (refers : AllRefer ⟨[first], none, false⟩ toks)
    (small : AllSmall ⟨[first], none, false⟩ toks)
    (laid : Laid [] ([.byte first] ++
      (symsOf ⟨[first], none, false⟩ toks ++ endSyms three)) text)
    (room : (tellAll ⟨[first], none, false⟩ toks).out.length ≤ maxOut) :
    depack text maxOut = some (tellAll ⟨[first], none, false⟩ toks).out := by
  have filled : text.isEmpty = false := by
    cases laid
    rfl
  have follows : Follows ⟨[first], none, false⟩ ⟨[first], usizeMax, false⟩ :=
    ⟨rfl, rfl, nofun⟩
  have reads : Reads (depackFor (8 * text.length + 1 + toks.length) maxOut) _ _ :=
    (reads_byte first).bind
      (reads_tokens follows refers small room (by omega) three)
  have standing : Stands (.new text) (([.byte first] ++
      (symsOf ⟨[first], none, false⟩ toks ++ endSyms three)) ++ []) := by
    rw [List.append_nil]
    exact laid
  obtain ⟨after, ran, -⟩ := reads (.new text) [] standing
  have more : depackFor (8 * text.length + 1) maxOut (.new text) =
      depackFor (8 * text.length + 1 + toks.length) maxOut (.new text) :=
    depackFor_rounds (by omega) (by omega)
  rw [depack, filled, if_neg Bool.false_ne_true, more, ran]
  rfl

/-- Streams of tokens unpack to what the tokens say, and every stream comes to
an end, within the bound if it unpacks at all. -/
theorem depack_meaning :
    (∀ first toks three text maxOut,
      AllRefer ⟨[first], none, false⟩ toks →
      AllSmall ⟨[first], none, false⟩ toks →
      Laid [] (.byte first ::
        (symsOf ⟨[first], none, false⟩ toks ++ endSyms three)) text →
      (tellAll ⟨[first], none, false⟩ toks).out.length ≤ maxOut →
      depack text maxOut = some (tellAll ⟨[first], none, false⟩ toks).out) ∧
    (∀ src maxOut rounds, 8 * src.length < rounds →
      depackFor rounds maxOut (.new src) =
        depackFor (8 * src.length + 1) maxOut (.new src)) ∧
    ∀ src maxOut out, depack src maxOut = some out → out.length ≤ maxOut :=
  ⟨fun _ _ _ _ _ refers small laid room => depack_tokens refers small laid room,
    fun _ _ _ enough => depackFor_rounds enough (Nat.lt_succ_self _),
    fun _ _ _ => depack_bounded⟩

/-- A literal, six bytes from two back, another literal, and four from two back
again. -/
def sampleTokens : List Token :=
  [.literal 0x42, .general 2 6, .literal 0x43, .again 4]

def sampleStream : Bytes :=
  lay (.byte 0x41 ::
    (symsOf ⟨[0x41], none, false⟩ sampleTokens ++ endSyms false))

theorem depack_sample : depack sampleStream 100 =
    some [0x41, 0x42, 0x41, 0x42, 0x41, 0x42, 0x41, 0x42, 0x43,
      0x42, 0x43, 0x42, 0x43] := by
  have refers : AllRefer ⟨[0x41], none, false⟩ sampleTokens :=
    ⟨trivial, ⟨by decide, by decide, by decide⟩, trivial,
      ⟨rfl, by decide, 2, rfl, by decide, by decide⟩, trivial⟩
  have small : AllSmall ⟨[0x41], none, false⟩ sampleTokens :=
    ⟨trivial, ⟨by decide, by decide⟩, trivial,
      show 4 < gammaEnd by decide, trivial⟩
  have laid := laid_lay (.byte 0x41 ::
    (symsOf ⟨[0x41], none, false⟩ sampleTokens ++ endSyms false)) []
  rw [List.append_nil] at laid
  exact depack_meaning.1 0x41 sampleTokens false sampleStream 100 refers small
    laid (by decide)

/-- One match, of a length whose code takes more than 32 bits. -/
def longToken : Token := .general 1 (2 ^ 32 + 2)

def longStream : Bytes :=
  lay (.byte 0 :: (symsOf ⟨[0], none, false⟩ [longToken] ++ endSyms false))

theorem depack_longToken :
    AllRefer ⟨[0], none, false⟩ [longToken] ∧
      Laid [] (.byte 0 ::
        (symsOf ⟨[0], none, false⟩ [longToken] ++ endSyms false)) longStream ∧
      (tellAll ⟨[0], none, false⟩ [longToken]).out.length ≤ 2 ^ 33 ∧
      depack longStream (2 ^ 33) = none := by
  refine ⟨⟨⟨by decide, by decide, by decide⟩, trivial⟩, ?_, ?_,
    by decide +kernel⟩
  · have laid := laid_lay (.byte 0 ::
      (symsOf ⟨[0], none, false⟩ [longToken] ++ endSyms false)) []
    rwa [List.append_nil] at laid
  · change ([0] ++ cycled [0] 1 (2 ^ 32 + 2)).length ≤ _
    rw [List.length_append, length_cycled]
    decide

end Exav.Unpack.Aplib
