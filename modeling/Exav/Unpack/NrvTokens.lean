import Exav.Unpack.AplibTokens
import Exav.Unpack.Nrv

/-!
# NRV tokens unpacked

Tokens say what to append: bytes, or what stands some way back, over and over if
the match is longer than the way.  A block in which tokens are laid out unpacks
to what they say, up to the length asked for.  Every block comes to an end within
that length, and one that is cut short to less of the same.
-/

namespace Exav.Unpack.Nrv

open Exav.Tagged Exav.Underrun
open Exav.Unpack.Aplib (cycled length_cycled copyMatch_eq digits)

/-! ## Tokens -/

inductive Token where
  | literal (b : UInt8)
  | copy (off len : Nat)
  | again (len : Nat)
  deriving DecidableEq

/-- What some tokens say, and the offset of the last match. -/
structure Told where
  out : Bytes
  last : Nat

def Told.start : Told := ⟨[], 1⟩

namespace Token

/-- The length that is coded for a match. -/
def coded (v : Variant) (off len : Nat) : Nat :=
  len - 1 - if off > v.far then 1 else 0

/-- A match from `off` back lies in the output and is not too short. -/
def Matches (v : Variant) (told : Told) (off len : Nat) : Prop :=
  0 < off ∧ off ≤ told.out.length ∧ 1 ≤ coded v off len

def lengthSyms (v : Variant) (off len : Nat) : Bool × List Sym :=
  v.lengthCode (coded v off len)

/-- What a token refers to lies in the output, and its offset is one that is
coded. -/
def Refers (v : Variant) (told : Told) : Token → Prop
  | literal _ => True
  | copy off len => Matches v told off len ∧
      v.raw off (lengthSyms v off len).1 < 0xffffffff
  | again len => Matches v told told.last len

/-- A match is no longer than the longest that is read. -/
def Short (v : Variant) (told : Told) : Token → Prop
  | literal _ => True
  | copy off len => coded v off len ≤ v.lengthMax
  | again len => coded v told.last len ≤ v.lengthMax

def apply (told : Told) : Token → Told
  | literal b => { told with out := told.out ++ [b] }
  | copy off len => ⟨told.out ++ cycled told.out off len, off⟩
  | again len => { told with out := told.out ++ cycled told.out told.last len }

def syms (v : Variant) (told : Told) : Token → List Sym
  | literal b => [.bit true] ++ [.byte b]
  | copy off len => [.bit false] ++
      (v.offsetSyms off (lengthSyms v off len).1 ++ (lengthSyms v off len).2)
  | again len => [.bit false] ++
      (v.lastSyms (lengthSyms v told.last len).1 ++
        (lengthSyms v told.last len).2)

end Token

def tellAll (told : Told) (toks : List Token) : Told :=
  toks.foldl Token.apply told

def symsOf (v : Variant) (told : Told) : List Token → List Sym
  | [] => []
  | t :: toks => t.syms v told ++ symsOf v (t.apply told) toks

def AllRefer (v : Variant) (told : Told) : List Token → Prop
  | [] => True
  | t :: toks => t.Refers v told ∧ AllRefer v (t.apply told) toks

def AllShort (v : Variant) (told : Told) : List Token → Prop
  | [] => True
  | t :: toks => t.Short v told ∧ AllShort v (t.apply told) toks

def endOf (v : Variant) (marked : Bool) : List Sym :=
  if marked then [.bit false] ++ v.endSyms else []

/-! ## Copies -/

theorem prefix_copyFrom (dstLen count start : Nat) (out : Bytes) :
    out <+: (copyFrom dstLen count start out).2 := by
  induction count generalizing start out with
  | zero => exact List.prefix_rfl
  | succ count ih =>
      rw [copyFrom]
      split_ifs
      · exact List.prefix_append _ _
      · exact (List.prefix_append _ _).trans (ih _ _)

theorem copyFrom_eq {dstLen : Nat} {out : Bytes} (room : out.length < dstLen)
    (count start : Nat) :
    copyFrom dstLen count start out =
      (decide (dstLen ≤ out.length + count),
        (Unpack.copyMatch count start out).take dstLen) := by
  induction count generalizing start out with
  | zero =>
      rw [copyFrom, Unpack.copyMatch, List.take_of_length_le room.le,
        decide_eq_false (by omega)]
  | succ count ih =>
      have one : (out ++ [byteAt out start]).length = out.length + 1 := by
        rw [List.length_append, List.length_singleton]
      rw [copyFrom, Unpack.copyMatch]
      split_ifs with full
      · have starts := prefix_copyMatch count (start + 1)
          (out ++ [byteAt out start])
        obtain ⟨more, whole⟩ := starts
        have exact : (out ++ [byteAt out start]).length = dstLen := by omega
        rw [← whole, ← exact, List.take_left, decide_eq_true (by omega)]
      · have left : out.length + 1 + count = out.length + (count + 1) := by omega
        rw [ih (by omega), one, left]

theorem copyMatch_ok {dstLen off : Nat} {out : Bytes}
    (room : out.length < dstLen) (back : 0 < off) (inside : off ≤ out.length)
    (len : Nat) :
    copyMatch out off len dstLen = (.ok (decide (dstLen ≤ out.length + len)),
      (out ++ cycled out off len).take dstLen) := by
  rw [copyMatch, if_neg (by omega), copyFrom_eq room, copyMatch_eq back inside]

/-! ## One token -/

def Token.item (told : Told) : Token → Item
  | literal b => .literal b
  | copy off len => .copy off len
  | again len => .copy told.last len

theorem reads_token (v : Variant) {told : Told} {t : Token}
    (refers : t.Refers v told) (short : t.Short v told) :
    Reads (item v told.last) (t.syms v told) (t.item told) := by
  have one : ¬ false.toNat = 1 := Nat.zero_ne_one
  have taken {off len : Nat} (fits : Token.Matches v told off len)
      (small : Token.coded v off len ≤ v.lengthMax) :
      Reads (v.length (Token.lengthSyms v off len).1.toNat >>= fun ml =>
        pure (.copy off ((if off > v.far then ml + 1 else ml) + 1)))
        (Token.lengthSyms v off len).2 (Item.copy off len) := by
    obtain ⟨-, -, some⟩ := fits
    refine (v.reads_length some small).last ?_
    have whole : (if off > v.far then Token.coded v off len + 1
        else Token.coded v off len) + 1 = len := by
      unfold Token.coded at some ⊢
      split_ifs at some ⊢ <;> omega
    rw [whole]
    exact .pure _
  unfold item
  cases t with
  | literal b =>
      refine (reads_bit true).bind ?_
      rw [if_pos (show true.toNat = 1 from rfl)]
      refine (reads_byte b).last ?_
      rw [UInt8.ofNat_toNat]
      exact .pure _
  | copy off len =>
      refine (reads_bit false).bind ?_
      rw [if_neg one]
      exact (v.reads_offset refers.1.1 refers.2).bind (taken refers.1 short)
  | again len =>
      refine (reads_bit false).bind ?_
      rw [if_neg one]
      exact (v.reads_last told.last _).bind (taken refers short)

theorem reads_stop (v : Variant) (last : Nat) :
    Reads (item v last) ([.bit false] ++ v.endSyms) .stop := by
  unfold item
  refine (reads_bit false).bind ?_
  rw [if_neg (show ¬ false.toNat = 1 from Nat.zero_ne_one)]
  exact (v.reads_end last).last (.pure _)

/-! ## All tokens -/

theorem prefix_apply (told : Told) (t : Token) :
    told.out <+: (t.apply told).out := by
  cases t <;> exact List.prefix_append _ _

theorem prefix_tellAll (told : Told) (toks : List Token) :
    told.out <+: (tellAll told toks).out := by
  induction toks generalizing told with
  | nil => exact List.prefix_rfl
  | cons t toks ih => exact (prefix_apply told t).trans (ih (t.apply told))

theorem take_of_prefix {out all : Bytes} (starts : out <+: all) :
    all.take out.length = out := by
  obtain ⟨more, rfl⟩ := starts
  exact List.take_left

theorem items_copy {v : Variant} {told : Told} {toks : List Token}
    {dstLen rounds off len : Nat} {r after : Br}
    (room : told.out.length < dstLen) (fits : Token.Matches v told off len)
    (ran : item v told.last r = .ok (.copy off len, after))
    (others : (told.out ++ cycled told.out off len).length < dstLen →
      items v dstLen rounds off (told.out ++ cycled told.out off len) after =
        (.ok (), (tellAll ⟨told.out ++ cycled told.out off len, off⟩ toks).out.take
          dstLen)) :
    items v dstLen (rounds + 1) told.last told.out r =
      (.ok (), (tellAll ⟨told.out ++ cycled told.out off len, off⟩ toks).out.take
        dstLen) := by
  have copied := copyMatch_ok room fits.1 fits.2.1 len
  have size : (told.out ++ cycled told.out off len).length =
      told.out.length + len := by
    rw [List.length_append, length_cycled]
  rw [items, round, if_neg (Nat.not_le.mpr room), ran]
  dsimp only
  rw [copied]
  by_cases full : dstLen ≤ told.out.length + len
  · rw [decide_eq_true full]
    dsimp only
    obtain ⟨more, whole⟩ := prefix_tellAll
      ⟨told.out ++ cycled told.out off len, off⟩ toks
    have upto : (told.out ++ cycled told.out off len ++ more).take dstLen =
        (told.out ++ cycled told.out off len).take dstLen :=
      List.take_append_of_le_length (by rw [size]; exact full)
    rw [← whole, upto]
  · rw [decide_eq_false full]
    dsimp only
    rw [List.take_of_length_le (by rw [size]; omega)]
    exact others (by rw [size]; omega)

/-- Tokens that stand next are unpacked, up to the length asked for.  With an end
behind them that may be more than they say. -/
theorem items_tokens {v : Variant} {toks : List Token} {marked : Bool}
    {dstLen rounds : Nat} {told : Told} {r : Br} {more : List Sym}
    (refers : AllRefer v told toks) (short : AllShort v told toks)
    (stands : Stands r (symsOf v told toks ++ (endOf v marked ++ more)))
    (room : told.out.length ≤ dstLen)
    (ends : marked = true ∨ dstLen ≤ (tellAll told toks).out.length)
    (enough : toks.length < rounds) :
    items v dstLen rounds told.last told.out r =
      (.ok (), (tellAll told toks).out.take dstLen) := by
  induction toks generalizing told rounds r with
  | nil =>
      obtain ⟨rounds, rfl⟩ : ∃ n, rounds = n + 1 :=
        Nat.exists_eq_succ_of_ne_zero (Nat.ne_of_gt enough)
      have all : (tellAll told []).out.take dstLen = told.out :=
        List.take_of_length_le room
      rw [items, round, all]
      split_ifs with full
      · rfl
      · obtain rfl : marked = true := ends.resolve_right full
        obtain ⟨after, ran, -⟩ := reads_stop v told.last r more stands
        rw [ran]
  | cons t toks ih =>
      obtain ⟨rounds, rfl⟩ : ∃ n, rounds = n + 1 :=
        Nat.exists_eq_succ_of_ne_zero (by omega)
      by_cases full : told.out.length ≥ dstLen
      · have exact : told.out.length = dstLen := Nat.le_antisymm room full
        have starts := prefix_tellAll told (t :: toks)
        rw [items, round, if_pos full, ← exact, take_of_prefix starts]
      · rw [symsOf, List.append_assoc] at stands
        obtain ⟨after, ran, stands⟩ := reads_token v refers.1 short.1 r _ stands
        have fewer : toks.length < rounds := Nat.lt_of_succ_lt_succ enough
        have others (room : (t.apply told).out.length ≤ dstLen) :=
          ih refers.2 short.2 stands room ends fewer
        cases t with
        | literal b =>
            rw [items, round, if_neg full, ran]
            refine others ?_
            rw [Token.apply, List.length_append, List.length_singleton]
            omega
        | copy off len =>
            exact items_copy (Nat.lt_of_not_le full) refers.1.1 ran
              fun below => others below.le
        | again len =>
            exact items_copy (Nat.lt_of_not_le full) refers.1 ran
              fun below => others below.le

/-! ## Input cut short -/

/-- The bits that are left of an input. -/
def left (r : Br) : Nat :=
  8 * (r.src.length - r.ip) + r.bc

def cut (k : Nat) (r : Br) : Br :=
  { r with src := r.src.take k }

abbrev Tamed (k least : Nat) {α : Type} (run : Read α) : Prop :=
  Tame (cut k) underrun left least run

theorem tamed_byte (k : Nat) : Tamed k 8 byte where
  spends r b after ran := by
    unfold byte at ran
    cases here : r.src[r.ip]? with
    | none =>
        rw [here] at ran
        cases ran
    | some v =>
        have inside := (List.getElem?_eq_some_iff.mp here).1
        rw [here] at ran
        cases ran
        unfold left
        dsimp only
        omega
  cuts r := by
    unfold byte cut
    dsimp only
    rw [List.getElem?_take]
    split_ifs with inside
    · right
      cases r.src[r.ip]? <;> rfl
    · exact .inl rfl

theorem tamed_refill (k : Nat) : Tamed k 0 refill where
  spends r u after ran := by
    unfold refill at ran
    split_ifs at ran with used past
    · cases ran
      unfold left
      dsimp only
      omega
    · cases ran
      exact Nat.le_refl _
  cuts r := by
    unfold refill cut
    dsimp only
    rw [List.length_take]
    split_ifs with used short past past
    · exact .inl rfl
    · exact .inl rfl
    · omega
    · right
      have same : window (r.src.take k) r.ip 4 = window r.src r.ip 4 := by
        rw [window, window, List.drop_take, List.take_take]
        congr 1
        omega
      rw [same]
      rfl
    · exact .inr rfl

theorem tamed_bit (k : Nat) : Tamed k 1 bit where
  spends r b after ran := by
    change ((refill r).bind fun p => shift p.2) = .ok (b, after) at ran
    have filled : ∀ u r', refill r = .ok (u, r') → r'.bc ≠ 0 := by
      intro u r' filled
      unfold refill at filled
      split_ifs at filled with used past
      · cases filled
        exact Nat.succ_ne_zero 31
      · cases filled
        exact used
    cases loaded : refill r with
    | error e =>
        rw [loaded] at ran
        cases ran
    | ok p =>
        have less := (tamed_refill k).spends r p.1 p.2 loaded
        have some := filled p.1 p.2 loaded
        rw [loaded] at ran
        cases ran
        unfold left at less ⊢
        dsimp only at less ⊢
        omega
  cuts := by
    have shifted : Tamed k 0 shift := ⟨fun r b after ran => by
      cases ran
      unfold left
      dsimp only
      omega, fun r => .inr rfl⟩
    exact ((tamed_refill k).bind fun _ => shifted).cuts

variable {k : Nat}

theorem tamed_gammaFrom (corrupt : String) (rounds m : Nat) :
    Tamed k 0 (gammaFrom corrupt rounds m) := by
  induction rounds generalizing m with
  | zero => exact .fail _
  | succ rounds ih =>
      refine ((tamed_bit k).bind fun d => ?_).mono (Nat.zero_le 1)
      refine .ite (fun _ => .fail _) fun _ => ?_
      refine ((tamed_bit k).bind fun stop => ?_).mono (Nat.zero_le 1)
      exact .ite (fun _ => .pure _) fun _ => ih _

theorem tamed_gammaDeFrom (rounds m : Nat) : Tamed k 0 (gammaDeFrom rounds m) := by
  induction rounds generalizing m with
  | zero => exact .fail _
  | succ rounds ih =>
      refine ((tamed_bit k).bind fun d => ?_).mono (Nat.zero_le 1)
      refine .ite (fun _ => .fail _) fun _ => ?_
      refine ((tamed_bit k).bind fun stop => ?_).mono (Nat.zero_le 1)
      refine .ite (fun _ => .pure _) fun _ => ?_
      refine ((tamed_bit k).bind fun d => ?_).mono (Nat.zero_le 1)
      exact .ite (fun _ => .fail _) fun _ => ih _

theorem tamed_offset (v : Variant) (last : Nat) : Tamed k 0 (v.offset last) := by
  have de : Tamed k 0 (nrvDeOffset last) := by
    refine (tamed_gammaDeFrom 25 1).bind fun m => .ite (fun _ => ?_) fun _ => ?_
    · exact ((tamed_bit k).bind fun d => .pure _).mono (Nat.zero_le 1)
    · refine ((tamed_byte k).bind fun b => ?_).mono (Nat.zero_le 8)
      exact .ite (fun _ => .pure _) fun _ => .pure _
  cases v with
  | b =>
      refine (tamed_gammaFrom _ 25 1).bind fun m => .ite (fun _ => ?_) fun _ => ?_
      · exact ((tamed_bit k).bind fun d => .pure _).mono (Nat.zero_le 1)
      · refine ((tamed_byte k).bind fun b => ?_).mono (Nat.zero_le 8)
        refine .ite (fun _ => .pure _) fun _ => ?_
        exact ((tamed_bit k).bind fun d => .pure _).mono (Nat.zero_le 1)
  | d => exact de
  | e => exact de

theorem tamed_length (v : Variant) (seed : Nat) : Tamed k 0 (v.length seed) := by
  have tail : Tamed k 0 (nrvLenTail seed) := by
    refine ((tamed_bit k).bind fun d => ?_).mono (Nat.zero_le 1)
    refine .ite (fun _ => ?_) fun _ => .pure _
    exact (tamed_gammaFrom _ 25 1).bind fun m => .pure _
  have low (n : Nat) : Tamed k 0 (bit >>= fun d => (pure (n + d) : Read Nat)) :=
    ((tamed_bit k).bind fun d => .pure _).mono (Nat.zero_le 1)
  cases v with
  | b => exact tail
  | d => exact tail
  | e =>
      refine .ite (fun _ => low 1) fun _ => ?_
      refine ((tamed_bit k).bind fun d => ?_).mono (Nat.zero_le 1)
      refine .ite (fun _ => low 3) fun _ => ?_
      exact (tamed_gammaFrom _ 25 1).bind fun m => .pure _

theorem tamed_item (v : Variant) (last : Nat) : Tamed k 1 (item v last) := by
  refine (tamed_bit k).bind fun d => .ite (fun _ => ?_) fun _ => ?_
  · exact ((tamed_byte k).bind fun b => .pure _).mono (Nat.zero_le 8)
  · refine (tamed_offset v last).bind fun found => ?_
    cases found with
    | none => exact .pure _
    | some p => exact (tamed_length v p.2).bind fun ml => .pure _

/-! ## Every input -/

theorem prefix_copyMatch (out : Bytes) (off count dstLen : Nat) :
    out <+: (copyMatch out off count dstLen).2 := by
  unfold copyMatch
  split_ifs
  · exact List.prefix_rfl
  · exact prefix_copyFrom _ _ _ _

theorem length_copyMatch_le {out : Bytes} {off count dstLen : Nat}
    (room : out.length < dstLen) :
    (copyMatch out off count dstLen).2.length ≤ dstLen := by
  unfold copyMatch
  split_ifs
  · exact room.le
  · change (copyFrom dstLen count (out.length - off) out).2.length ≤ dstLen
    rw [copyFrom_eq room]
    exact List.length_take_le _ _

def Round.out : Round → Bytes
  | ends _ out => out
  | goes _ out _ => out

def Round.cut (k : Nat) : Round → Round
  | ends result out => ends result out
  | goes last out r => goes last out (Nrv.cut k r)

section

variable {v : Variant} {dstLen last : Nat} {out : Bytes} {r : Br}

theorem prefix_round : out <+: (round v dstLen last out r).out := by
  unfold round
  split_ifs
  · exact List.prefix_rfl
  · rcases item v last r with e | ⟨taken, after⟩
    · exact List.prefix_rfl
    · cases taken with
      | literal b => exact List.prefix_append _ _
      | stop => exact List.prefix_rfl
      | copy off count =>
          have starts := prefix_copyMatch out off count dstLen
          dsimp only
          generalize copyMatch out off count dstLen = result at starts ⊢
          obtain ⟨e | reached, copied⟩ := result
          · exact starts
          · cases reached <;> exact starts

theorem length_round_le (room : out.length ≤ dstLen) :
    (round v dstLen last out r).out.length ≤ dstLen := by
  unfold round
  split_ifs with full
  · exact room
  · have below : out.length < dstLen := Nat.lt_of_not_le full
    rcases item v last r with e | ⟨taken, after⟩
    · exact room
    · cases taken with
      | literal b =>
          change (out ++ [b]).length ≤ dstLen
          rw [List.length_append, List.length_singleton]
          exact below
      | stop => exact room
      | copy off count =>
          have fits := @length_copyMatch_le _ off count _ below
          dsimp only
          generalize copyMatch out off count dstLen = result at fits ⊢
          obtain ⟨e | reached, copied⟩ := result
          · exact fits
          · cases reached <;> exact fits

theorem left_round {next : Nat} {grown : Bytes} {after : Br}
    (goes : round v dstLen last out r = .goes next grown after) :
    left after < left r := by
  unfold round at goes
  split_ifs at goes
  cases ran : item v last r with
  | error e =>
      rw [ran] at goes
      cases goes
  | ok p =>
      obtain ⟨taken, behind⟩ := p
      have less := (tamed_item (k := 0) v last).spends r taken behind ran
      rw [ran] at goes
      cases taken with
      | literal b =>
          cases goes
          exact less
      | stop => cases goes
      | copy off count =>
          dsimp only at goes
          generalize copyMatch out off count dstLen = result at goes
          obtain ⟨e | reached, copied⟩ := result
          · cases goes
          · cases reached
            · cases goes
              exact less
            · cases goes

theorem round_cut (k : Nat) :
    round v dstLen last out (cut k r) = .ends (.error underrun) out ∨
      round v dstLen last out (cut k r) =
        (round v dstLen last out r).cut k := by
  by_cases full : out.length ≥ dstLen
  · right
    rw [round, round, if_pos full, if_pos full]
    rfl
  · rw [round, round, if_neg full, if_neg full]
    rcases (tamed_item v last).cuts r with short | same
    · left
      rw [short]
    · right
      rw [same]
      rcases item v last r with e | ⟨taken, after⟩
      · rfl
      · cases taken with
        | literal b => rfl
        | stop => rfl
        | copy off count =>
            dsimp only [Except.map]
            rcases copyMatch out off count dstLen with ⟨e | reached, copied⟩
            · rfl
            · cases reached <;> rfl

theorem prefix_items (rounds : Nat) :
    out <+: (items v dstLen rounds last out r).2 := by
  induction rounds generalizing last out r with
  | zero => exact List.prefix_rfl
  | succ rounds ih =>
      have starts := @prefix_round v dstLen last out r
      rw [items]
      cases went : round v dstLen last out r with
      | ends result out' =>
          rw [went] at starts
          exact starts
      | goes last out' after =>
          rw [went] at starts
          exact starts.trans ih

theorem length_items_le (rounds : Nat) (room : out.length ≤ dstLen) :
    (items v dstLen rounds last out r).2.length ≤ dstLen := by
  induction rounds generalizing last out r with
  | zero => exact room
  | succ rounds ih =>
      have fits := @length_round_le v dstLen last out r room
      rw [items]
      cases went : round v dstLen last out r with
      | ends result out' =>
          rw [went] at fits
          exact fits
      | goes last out' after =>
          rw [went] at fits
          exact ih fits

/-- More rounds than there are bits make no difference. -/
theorem items_rounds {n m : Nat} (enough : left r < n) (also : left r < m) :
    items v dstLen n last out r = items v dstLen m last out r := by
  induction n generalizing m last out r with
  | zero => exact absurd enough (Nat.not_lt_zero _)
  | succ n ih =>
      cases m with
      | zero => exact absurd also (Nat.not_lt_zero _)
      | succ m =>
          rw [items, items]
          cases went : round v dstLen last out r with
          | ends result out' => rfl
          | goes last out' after =>
              have less := left_round went
              exact ih (by omega) (by omega)

theorem items_cut (k rounds : Nat) :
    items v dstLen rounds last out (cut k r) =
        items v dstLen rounds last out r ∨
      ∃ less, items v dstLen rounds last out (cut k r) =
          (.error underrun, less) ∧
        less <+: (items v dstLen rounds last out r).2 := by
  induction rounds generalizing last out r with
  | zero => exact .inl rfl
  | succ rounds ih =>
      rcases @round_cut v dstLen last out r k with short | same
      · right
        refine ⟨out, ?_, prefix_items _⟩
        rw [items, short]
      · rw [items, items, same]
        cases round v dstLen last out r with
        | ends result out' => exact .inl rfl
        | goes last out' after => exact ih

end

/-! ## Blocks -/

theorem decompress_eq (v : Variant) (src : Bytes) (dstLen : Nat) {rounds : Nat}
    (enough : 8 * src.length < rounds) :
    items v dstLen rounds 1 [] (.new src) = decompress v src dstLen :=
  items_rounds enough (Nat.lt_succ_self _)

theorem decompress_laid {v : Variant} {toks : List Token} {marked : Bool}
    {src : Bytes} {dstLen : Nat} (refers : AllRefer v .start toks)
    (short : AllShort v .start toks)
    (stands : Stands (.new src) (symsOf v .start toks ++ endOf v marked))
    (ends : marked = true ∨ dstLen ≤ (tellAll .start toks).out.length) :
    decompress v src dstLen =
      (.ok (), (tellAll .start toks).out.take dstLen) := by
  have enough : 8 * src.length < 8 * src.length + 1 + toks.length := by omega
  rw [← decompress_eq v src dstLen enough]
  rw [← List.append_nil (endOf v marked)] at stands
  exact items_tokens refers short stands (Nat.zero_le _) ends (by omega)

theorem decompress_cut (v : Variant) (src : Bytes) (k dstLen : Nat) :
    decompress v (src.take k) dstLen = decompress v src dstLen ∨
      ∃ less, decompress v (src.take k) dstLen = (.error underrun, less) ∧
        less <+: (decompress v src dstLen).2 := by
  have enough : 8 * (src.take k).length < 8 * src.length + 1 := by
    have shorter := List.length_take_le' k src
    omega
  rw [← decompress_eq v (src.take k) dstLen enough]
  exact @items_cut v dstLen 1 [] (.new src) k _

/-- Laid out tokens are unpacked to what they say, up to the length asked for;
every block is unpacked in as many rounds as it has bits, within that length, and
a block cut short to a part of the same, with an underrun, or to the same. -/
theorem decompress_meaning (v : Variant) :
    (∀ toks marked src dstLen, AllRefer v .start toks → AllShort v .start toks →
      Stands (.new src) (symsOf v .start toks ++ endOf v marked) →
      marked = true ∨ dstLen ≤ (tellAll .start toks).out.length →
      decompress v src dstLen =
        (.ok (), (tellAll .start toks).out.take dstLen)) ∧
    (∀ src dstLen, (decompress v src dstLen).2.length ≤ dstLen ∧
      ∀ rounds > 8 * src.length,
        items v dstLen rounds 1 [] (.new src) = decompress v src dstLen) ∧
    ∀ src k dstLen,
      decompress v (src.take k) dstLen = decompress v src dstLen ∨
        ∃ less, decompress v (src.take k) dstLen = (.error underrun, less) ∧
          less <+: (decompress v src dstLen).2 :=
  ⟨fun _ _ _ _ refers short stands ends =>
      decompress_laid refers short stands ends,
    fun src dstLen => ⟨length_items_le _ (Nat.zero_le _),
      fun _ enough => decompress_eq v src dstLen enough⟩,
    decompress_cut v⟩

/-! ## Blocks laid out -/

/-- Whether symbols are laid out in bytes. -/
def lays : List Bool → List Sym → Bytes → Bool
  | _, [], _ => true
  | pending, .byte v :: syms, w :: rest => v == w && lays pending syms rest
  | b :: pending, .bit d :: syms, rest => b == d && lays pending syms rest
  | [], .bit d :: syms, w :: x :: y :: z :: rest =>
      match digits 32 (Fields.ofLe [w, x, y, z]) with
      | [] => false
      | b :: pending => b == d && lays pending syms rest
  | _, _, _ => false

theorem laid_of_lays {pending : List Bool} {syms : List Sym} {rest : Bytes}
    (holds : lays pending syms rest = true) : Laid pending syms rest := by
  induction pending, syms, rest using lays.induct with
  | case1 => exact .done _ _
  | case2 pending v syms w rest ih =>
      rw [lays, Bool.and_eq_true, beq_iff_eq] at holds
      obtain ⟨rfl, holds⟩ := holds
      exact .byte _ (ih holds)
  | case3 b pending d syms rest ih =>
      rw [lays, Bool.and_eq_true, beq_iff_eq] at holds
      obtain ⟨rfl, holds⟩ := holds
      exact .bit _ (ih holds)
  | case4 d syms w x y z rest none =>
      rw [lays, none] at holds
      cases holds
  | case5 d syms w x y z rest b pending whole ih =>
      rw [lays, whole, Bool.and_eq_true, beq_iff_eq] at holds
      obtain ⟨rfl, holds⟩ := holds
      refine .word [w, x, y, z] rfl ?_
      rw [whole]
      exact .bit _ (ih holds)
  | case6 syms pending rest none byte bit word =>
      rw [lays] at holds
      · cases holds
      all_goals assumption

/-- A literal, and a match of four bytes on from it. -/
def repeated : List Token := [.literal 0x41, .copy 1 4]

theorem decompress_repeated :
    nrv2bDecompress [0, 0, 0, 0xBC, 0x41, 0x00] 3 =
      (.ok (), [0x41, 0x41, 0x41]) :=
  (decompress_meaning .b).1 repeated false _ 3
    ⟨trivial, ⟨⟨by decide, by decide, by decide⟩, by decide⟩, trivial⟩
    ⟨trivial, show 3 ≤ nrvGammaMax + 2 by decide, trivial⟩
    (laid_of_lays (by decide)) (.inr (by decide))

/-- A match that is longer than the longest that is read. -/
def tooLong : List Token := [.literal 0x41, .copy 1 (2 ^ 25 + 3)]

theorem decompress_tooLong :
    ¬ ∀ v toks src, AllRefer v .start toks →
      Stands (.new src) (symsOf v .start toks) →
      decompress v src (tellAll .start toks).out.length =
        (.ok (), (tellAll .start toks).out) := by
  intro unpacks
  have whole := unpacks .b tooLong [0, 0, 0, 0xB0, 0x41, 0x00, 0, 1, 0, 0]
    ⟨trivial, ⟨⟨by decide, by decide, by decide⟩, by decide⟩, trivial⟩
    (laid_of_lays (by decide))
  have size : (tellAll .start tooLong).out.length = 1 + (2 ^ 25 + 3) := by
    change ([0x41] ++ cycled [0x41] 1 (2 ^ 25 + 3) : Bytes).length = _
    rw [List.length_append, length_cycled]
    rfl
  have failed : (decompress .b [0, 0, 0, 0xB0, 0x41, 0x00, 0, 1, 0, 0]
      (1 + (2 ^ 25 + 3))).1.isOk = false := by
    decide +kernel
  rw [← size, whole] at failed
  cases failed

end Exav.Unpack.Nrv
