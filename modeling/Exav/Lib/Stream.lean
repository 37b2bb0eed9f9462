import Mathlib.Data.List.Basic

/-!
# Buffered reading

A transport hands its items over in refills of any size, and may fail between
two of them.  A reader sees one refill at a time; what is left to read does not
depend on where the refills were cut.
-/

namespace Exav.Stream

section

variable {α : Type}

/-- What one refill of the buffer gives. -/
inductive Fill (α : Type) where
  | window (first : α) (more : List α)
  | fault
  deriving DecidableEq

/-- A reader: the refills still to come, after which it is at its end. -/
abbrev Source (α : Type) := List (Fill α)

def Fill.items : Fill α → List α
  | .window first more => first :: more
  | .fault => []

/-- What is left to read. -/
def rest (source : Source α) : List α :=
  source.flatMap Fill.items

@[simp] theorem rest_nil : rest ([] : Source α) = [] := rfl

@[simp] theorem rest_window (first : α) (more : List α) (source : Source α) :
    rest (.window first more :: source) = first :: (more ++ rest source) :=
  rfl

@[simp] theorem rest_fault (source : Source α) :
    rest (.fault :: source) = rest source := rfl

/-- A source that has `held` left of its refill. -/
def buffered : List α → Source α → Source α
  | [], source => source
  | first :: more, source => .window first more :: source

@[simp] theorem rest_buffered (held : List α) (source : Source α) :
    rest (buffered held source) = held ++ rest source := by
  cases held with
  | nil => rfl
  | cons first more => simp [buffered]

/-! ## Items -/

/-- One read of up to `want` items, or none after a fault.  It gives nothing
only at the end. -/
def readSome (want : Nat) : Source α → Option (List α) × Source α
  | [] => (some [], [])
  | .fault :: source => (none, source)
  | .window first more :: source =>
      (some ((first :: more).take want),
        buffered ((first :: more).drop want) source)

/-- Reads until `want` items are there, or fewer at the end. -/
def readFull : Nat → Source α → Option (List α) × Source α
  | 0, source => (some [], source)
  | _ + 1, [] => (some [], [])
  | _ + 1, .fault :: source => (none, source)
  | want + 1, .window first more :: source =>
      if want ≤ more.length then
        (some (first :: more.take want), buffered (more.drop want) source)
      else
        let (got, left) := readFull (want - more.length) source
        (got.map (first :: more ++ ·), left)

theorem readSome_spec {want : Nat} {source left : Source α} {got : List α}
    (read : readSome want source = (some got, left)) :
    rest source = got ++ rest left ∧ got.length ≤ want := by
  cases source with
  | nil => simp_all [readSome]
  | cons fill source =>
      cases fill with
      | fault => simp [readSome] at read
      | window first more =>
          simp only [readSome, Prod.mk.injEq, Option.some.injEq] at read
          obtain ⟨rfl, rfl⟩ := read
          refine ⟨?_, List.length_take_le _ _⟩
          simp only [rest_buffered, rest_window, ← List.append_assoc,
            List.take_append_drop, List.cons_append]

theorem readSome_rest {want : Nat} {source left : Source α} {got : List α}
    (read : readSome want source = (some got, left)) :
    rest source = got ++ rest left :=
  (readSome_spec read).1

theorem length_readSome {want : Nat} {source left : Source α} {got : List α}
    (read : readSome want source = (some got, left)) : got.length ≤ want :=
  (readSome_spec read).2

theorem rest_of_readSome_nil {want : Nat} {source left : Source α}
    (wanted : 0 < want) (read : readSome want source = (some [], left)) :
    rest source = [] := by
  cases source with
  | nil => rfl
  | cons fill source =>
      cases fill with
      | fault => simp [readSome] at read
      | window first more =>
          have empty : (first :: more).take want = [] := by
            simpa [readSome] using congrArg Prod.fst read
          rw [List.take_eq_nil_iff] at empty
          rcases empty with unwanted | none_held
          · omega
          · cases none_held

/-- A fault takes nothing from what is left. -/
theorem rest_of_readSome_none {want : Nat} {source left : Source α}
    (read : readSome want source = (none, left)) : rest source = rest left := by
  cases source with
  | nil => simp [readSome] at read
  | cons fill source =>
      cases fill with
      | fault =>
          have same : source = left := congrArg Prod.snd read
          rw [rest_fault, same]
      | window first more => simp [readSome] at read

/-- What a full read gives is the next items, fewer only at the end. -/
theorem readFull_rest {want : Nat} {source left : Source α} {got : List α}
    (read : readFull want source = (some got, left)) :
    rest source = got ++ rest left ∧ got.length ≤ want ∧
      (got.length < want → rest left = []) := by
  induction source generalizing want got left with
  | nil =>
      cases want with
      | zero => simp_all [readFull]
      | succ want => simp_all [readFull]
  | cons fill source ih =>
      cases want with
      | zero => simp_all [readFull]
      | succ want =>
          cases fill with
          | fault => simp [readFull] at read
          | window first more =>
              by_cases within : want ≤ more.length
              · simp only [readFull, within, if_true, Prod.mk.injEq,
                  Option.some.injEq] at read
                obtain ⟨rfl, rfl⟩ := read
                simp [within, ← List.append_assoc]
              · simp only [readFull, within, if_false, Prod.mk.injEq,
                  Option.map_eq_some_iff] at read
                obtain ⟨⟨more', inner, rfl⟩, rfl⟩ := read
                obtain ⟨split, bound, ended⟩ :=
                  ih (Prod.ext inner rfl)
                refine ⟨by simp [split], by simp; omega, ?_⟩
                intro short
                apply ended
                simp at short
                omega

def Steady (source : Source α) : Prop :=
  Fill.fault ∉ source

theorem Steady.buffered {source : Source α} (steady : Steady source)
    (held : List α) : Steady (buffered held source) := by
  cases held with
  | nil => exact steady
  | cons first more =>
      simpa [Steady, Stream.buffered] using steady

theorem Steady.tail {fill : Fill α} {source : Source α}
    (steady : Steady (fill :: source)) : Steady source :=
  fun member => steady (.tail _ member)

theorem Steady.readSome {source : Source α} (steady : Steady source)
    (want : Nat) :
    ∃ got left, readSome want source = (some got, left) ∧ Steady left := by
  cases source with
  | nil => exact ⟨[], [], rfl, steady⟩
  | cons fill source =>
      cases fill with
      | fault => exact absurd (.head _) steady
      | window first more => exact ⟨_, _, rfl, steady.tail.buffered _⟩

theorem Steady.readFull {source : Source α} (steady : Steady source)
    (want : Nat) :
    ∃ got left, readFull want source = (some got, left) ∧ Steady left := by
  induction source generalizing want with
  | nil => cases want <;> exact ⟨[], [], rfl, steady⟩
  | cons fill source ih =>
      cases want with
      | zero => exact ⟨[], _, rfl, steady⟩
      | succ want =>
          cases fill with
          | fault => exact absurd (.head _) steady
          | window first more =>
              by_cases within : want ≤ more.length
              · simp only [Stream.readFull, if_pos within]
                exact ⟨_, _, rfl, steady.tail.buffered _⟩
              · obtain ⟨got, left, read, still⟩ :=
                  ih steady.tail (want - more.length)
                simp only [Stream.readFull, if_neg within, read]
                exact ⟨_, _, rfl, still⟩

/-- There is one way to cut at the first separator. -/
theorem cut_unique {sep : α} {front front' back back' : List α}
    (absent : sep ∉ front) (absent' : sep ∉ front')
    (same : front ++ sep :: back = front' ++ sep :: back') :
    front = front' ∧ back = back' := by
  induction front generalizing front' with
  | nil =>
      cases front' with
      | nil => simpa using same
      | cons head tail =>
          simp only [List.nil_append, List.cons_append, List.cons.injEq] at same
          simp [same.1] at absent'
  | cons head tail ih =>
      cases front' with
      | nil =>
          simp only [List.nil_append, List.cons_append, List.cons.injEq] at same
          simp [same.1] at absent
      | cons head' tail' =>
          simp only [List.cons_append, List.cons.injEq] at same
          obtain ⟨rfl, rfl⟩ := ih (fun member => absent (.tail _ member))
            (fun member => absent' (.tail _ member)) same.2
          exact ⟨by rw [same.1], rfl⟩

/-! ## Lines -/

section

variable [BEq α]

/-- How a read up to a separator ended. -/
inductive Through (α : Type) where
  | found (line : List α)
  | ended (line : List α)
  | overlong (line : List α)
  | fault
  deriving DecidableEq

/-- Reads through the next `sep`, refill by refill.  A line is overlong when a
refill without its end takes it past `ceiling`. -/
def readThrough (sep : α) (ceiling : Nat) (line : List α) :
    Source α → Through α × Source α
  | [] => (.ended line, [])
  | .fault :: source => (.fault, source)
  | .window first more :: source =>
      let held := first :: more
      let i := held.idxOf sep
      if i < held.length then
        (.found (line ++ held.take (i + 1)),
          buffered (held.drop (i + 1)) source)
      else if ceiling < (line ++ held).length then
        (.overlong (line ++ held), source)
      else readThrough sep ceiling (line ++ held) source

end

section

variable [BEq α] [LawfulBEq α] {sep : α} {ceiling : Nat}

private theorem split_idxOf {items : List α}
    (inside : items.idxOf sep < items.length) :
    items = items.take (items.idxOf sep) ++
        sep :: items.drop (items.idxOf sep + 1) ∧
      sep ∉ items.take (items.idxOf sep) := by
  constructor
  · have cut := List.drop_eq_getElem_cons inside
    rw [List.getElem_idxOf] at cut
    rw [← cut, List.take_append_drop]
  · intro member
    obtain ⟨j, before, at_j⟩ := List.mem_take_iff_getElem.mp member
    have earlier : j < items.idxOf sep := by omega
    have different := List.not_of_lt_findIdx earlier
    simp [at_j] at different

theorem readThrough_found {line full : List α} {source left : Source α}
    (read : readThrough sep ceiling line source = (.found full, left)) :
    ∃ body, full = line ++ body ++ [sep] ∧ sep ∉ body ∧
      rest source = body ++ sep :: rest left := by
  induction source generalizing line with
  | nil => simp [readThrough] at read
  | cons fill source ih =>
      cases fill with
      | fault => simp [readThrough] at read
      | window first more =>
          by_cases inside : (first :: more).idxOf sep < (first :: more).length
          · simp only [readThrough, inside, if_true, Prod.mk.injEq,
              Through.found.injEq] at read
            obtain ⟨rfl, rfl⟩ := read
            obtain ⟨cut, absent⟩ := split_idxOf inside
            refine ⟨(first :: more).take ((first :: more).idxOf sep), ?_,
              absent, ?_⟩
            · rw [List.append_assoc, List.take_succ_eq_append_getElem inside,
                List.getElem_idxOf]
            · rw [rest_buffered, rest_window, ← List.cons_append]
              nth_rewrite 1 [cut]
              simp
          · simp only [readThrough, inside, if_false] at read
            by_cases long : ceiling < (line ++ first :: more).length
            · simp only [if_pos long] at read
              cases read
            · simp only [long, if_false] at read
              obtain ⟨body, rfl, absent, split⟩ := ih read
              have missing : sep ∉ first :: more := by
                rw [← List.idxOf_lt_length_iff]
                exact inside
              refine ⟨first :: more ++ body, by simp, ?_, by simp [split]⟩
              rw [List.mem_append]
              exact fun either => either.elim missing absent

theorem Steady.readThrough {source : Source α} (steady : Steady source)
    {line body more : List α} (absent : sep ∉ body)
    (split : rest source = body ++ sep :: more)
    (short : (line ++ body).length ≤ ceiling) :
    ∃ left, readThrough sep ceiling line source =
      (.found (line ++ body ++ [sep]), left) ∧ Steady left ∧ rest left = more := by
  induction source generalizing line body with
  | nil => simp at split
  | cons fill source ih =>
      cases fill with
      | fault => exact absurd (.head _) steady
      | window first held =>
          rw [rest_window, ← List.cons_append] at split
          by_cases inside : (first :: held).idxOf sep < (first :: held).length
          · obtain ⟨cut, before⟩ := split_idxOf inside
            rw [cut, List.append_assoc, List.cons_append] at split
            obtain ⟨rfl, rfl⟩ := cut_unique before absent split
            refine ⟨_, ?_, steady.tail.buffered _, rest_buffered _ _⟩
            simp only [Stream.readThrough, if_pos inside]
            rw [List.append_assoc, List.take_succ_eq_append_getElem inside,
              List.getElem_idxOf]
          · have missing : sep ∉ first :: held := by
              rwa [← List.idxOf_lt_length_iff]
            obtain ⟨behind, rfl⟩ : ∃ behind, body = first :: held ++ behind := by
              rcases List.append_eq_append_iff.mp split with
                ⟨behind, same, -⟩ | ⟨behind, same, ends⟩
              · exact ⟨behind, same⟩
              · cases behind with
                | nil => exact ⟨[], by simpa using same.symm⟩
                | cons b behind =>
                    cases ends
                    exact absurd (by simp [same]) missing
            rw [List.append_assoc] at split
            rw [← List.append_assoc] at short ⊢
            have fits : ¬ ceiling < (line ++ first :: held).length := by
              rw [List.length_append] at short
              omega
            simp only [Stream.readThrough, if_neg inside, if_neg fits]
            exact ih steady.tail (fun member => absent (List.mem_append_right _ member))
              (List.append_cancel_left split) short

theorem readThrough_ended {line full : List α} {source left : Source α}
    (read : readThrough sep ceiling line source = (.ended full, left)) :
    full = line ++ rest source ∧ sep ∉ rest source ∧ rest left = [] := by
  induction source generalizing line with
  | nil =>
      simp only [readThrough, Prod.mk.injEq, Through.ended.injEq] at read
      simp [← read.1, ← read.2]
  | cons fill source ih =>
      cases fill with
      | fault => simp [readThrough] at read
      | window first more =>
          by_cases inside : (first :: more).idxOf sep < (first :: more).length
          · simp only [readThrough, if_pos inside] at read
            cases read
          · simp only [readThrough, inside, if_false] at read
            by_cases long : ceiling < (line ++ first :: more).length
            · simp only [if_pos long] at read
              cases read
            · simp only [long, if_false] at read
              obtain ⟨rfl, absent, nothing⟩ := ih read
              have missing : sep ∉ first :: more := by
                rw [← List.idxOf_lt_length_iff]
                exact inside
              refine ⟨by simp, ?_, nothing⟩
              rw [rest_window, ← List.cons_append, List.mem_append]
              exact fun either => either.elim missing absent

end

/-! ## What is buffered -/

theorem readSome_buffered {want : Nat} {held : List α} (source : Source α)
    (nonempty : held ≠ []) :
    readSome want (buffered held source) =
      (some (held.take want), buffered (held.drop want) source) := by
  cases held with
  | nil => exact absurd rfl nonempty
  | cons first more => rfl

theorem readFull_buffered {want : Nat} {held : List α} (source : Source α)
    (enough : want ≤ held.length) :
    readFull want (buffered held source) =
      (some (held.take want), buffered (held.drop want) source) := by
  cases want with
  | zero => simp [readFull]
  | succ want =>
      cases held with
      | nil => simp at enough
      | cons first more =>
          have within : want ≤ more.length := by simpa using enough
          simp [buffered, readFull, within]

theorem readThrough_buffered [BEq α] [LawfulBEq α] {sep : α} {ceiling : Nat}
    {start line after : List α} (source : Source α) (absent : sep ∉ line) :
    readThrough sep ceiling start (buffered (line ++ sep :: after) source) =
      (.found (start ++ line ++ [sep]), buffered after source) := by
  have place : (line ++ sep :: after).idxOf sep = line.length := by
    rw [List.idxOf_append_of_notMem absent]
    simp
  cases held : line ++ sep :: after with
  | nil => simp at held
  | cons first more =>
      rw [held] at place
      have inside : line.length < (first :: more).length := by
        rw [← held]
        simp
      have front : (first :: more).take (line.length + 1) = line ++ [sep] := by
        rw [← held, List.take_length_add_append]
        rfl
      have back : (first :: more).drop (line.length + 1) = after := by
        rw [← held, List.drop_length_add_append]
        rfl
      simp only [buffered, readThrough, place, if_pos inside, front, back,
        List.append_assoc]

end

end Exav.Stream
