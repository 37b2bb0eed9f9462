import Exav.Unpack.Rtf

/-!
# The objects of RTF documents

An object is told by the digits from its control word to the close of the group
that holds it, less those of the objects inside.  The extractor hands over one
member for each object that stands in no other, of all digits in it, so it hands
over what is told exactly if the objects inside make no difference.
-/

namespace Exav.Unpack.Rtf

set_option maxRecDepth 2048

/-! ## What is told -/

/-- Digits in pairs.  A last one by itself is dropped. -/
def pairUp : List UInt8 → Bytes
  | hi :: lo :: ns => ((hi <<< 4) ||| lo) :: pairUp ns
  | _ => []

namespace Body

def own : Body → List UInt8
  | done => []
  | group inner rest => inner.own ++ rest.own
  | word w rest => if isObject w.name then [] else rest.own
  | symbol _ rest => rest.own
  | text t rest => t.filterMap hexNibble ++ rest.own
  | lineBreak _ rest => rest.own

def told : Body → List (List UInt8)
  | done => []
  | group inner rest => inner.told ++ rest.told
  | word w rest => if isObject w.name then rest.own :: rest.told else rest.told
  | symbol _ rest => rest.told
  | text _ rest => rest.told
  | lineBreak _ rest => rest.told

/-- The bodies of the objects that stand in no other. -/
def outermost : Body → List Body
  | done => []
  | group inner rest => inner.outermost ++ rest.outermost
  | word w rest => if isObject w.name then [rest] else rest.outermost
  | symbol _ rest => rest.outermost
  | text _ rest => rest.outermost
  | lineBreak _ rest => rest.outermost

def inside (object : Body) : List (List UInt8) :=
  object.own :: object.told

end Body

/-- Objects of a byte at least. -/
def filled (digits : List (List UInt8)) : List Bytes :=
  (digits.map pairUp).filter (· ≠ [])

/-- The objects that a document holds. -/
def Body.objects (body : Body) : List Bytes :=
  filled body.told

theorem filled_append (a b : List (List UInt8)) :
    filled (a ++ b) = filled a ++ filled b := by
  rw [filled, List.map_append, List.filter_append]
  rfl

theorem Body.told_eq (body : Body) :
    body.told = body.outermost.flatMap Body.inside := by
  induction body with
  | done => rfl
  | group inner rest first second =>
      rw [told, first, second, outermost, List.flatMap_append]
  | word w rest ih =>
      rw [told, outermost]
      by_cases object : isObject w.name = true
      · rw [if_pos object, if_pos object, List.flatMap_singleton]
        rfl
      · rw [if_neg object, if_neg object, ih]
  | symbol c rest ih => exact ih
  | text t rest ih => exact ih
  | lineBreak b rest ih => exact ih

theorem Body.length_allDigits (body : Body) :
    body.allDigits.length = body.own.length + (body.told.map List.length).sum := by
  induction body with
  | done => rfl
  | group inner rest first second =>
      rw [allDigits, own, told, List.length_append, List.length_append,
        List.map_append, List.sum_append, first, second]
      omega
  | word w rest ih =>
      rw [allDigits, own, told]
      by_cases object : isObject w.name = true
      · rw [if_pos object, if_pos object, List.map_cons, List.sum_cons,
          List.length_nil, Nat.zero_add]
        exact ih
      · rw [if_neg object, if_neg object]
        exact ih
  | symbol c rest ih => exact ih
  | text t rest ih =>
      rw [allDigits, own, told, List.length_append, List.length_append, ih]
      omega
  | lineBreak b rest ih => exact ih

theorem length_pairUp (ns : List UInt8) : (pairUp ns).length = ns.length / 2 := by
  induction ns using pairUp.induct with
  | case1 hi lo ns ih =>
      rw [pairUp, List.length_cons, ih, List.length_cons, List.length_cons]
      omega
  | case2 ns short =>
      rcases ns with _ | ⟨hi, _ | ⟨lo, ns⟩⟩
      · rfl
      · simp [pairUp]
      · exact absurd rfl (short hi lo ns)

theorem digits_out (ns : List UInt8) (out : Bytes) :
    (Pairs.digits ⟨none, out⟩ ns).out = out ++ pairUp ns := by
  induction ns using pairUp.induct generalizing out with
  | case1 hi lo ns ih =>
      change (Pairs.digits ⟨none, out ++ [(hi <<< 4) ||| lo]⟩ ns).out = _
      rw [ih, List.append_assoc]
      rfl
  | case2 ns short =>
      rcases ns with _ | ⟨hi, _ | ⟨lo, ns⟩⟩
      · exact (List.append_nil _).symm
      · exact (List.append_nil _).symm
      · exact absurd rfl (short hi lo ns)

/-! ## What is handed over -/

/-- The bytes of an outermost object as they are decoded, unless its groups nest
too deep. -/
def decodedObject (object : Body) : Option Bytes :=
  if 1 + object.deepest < depthEnd then some (pairUp object.allDigits) else none

/-- A run that hands over some objects and goes on as another does. -/
def Emits (more : Nat → Budget → Result) :
    List (Option Bytes) → (Nat → Budget → Result) → Prop
  | [], run => run = more
  | none :: _, run => run = fun _ _ => ([], .error .overflow)
  | some bytes :: objects, run =>
      if bytes = [] then Emits more objects run
      else
        ∃ hex rest, Emits more objects rest ∧
          run = fun index => emitObject (index + 1) hex bytes (rest (index + 1))

theorem Emits.append {more middle run : Nat → Budget → Result}
    {first second : List (Option Bytes)} (front : Emits middle first run)
    (back : Emits more second middle) : Emits more (first ++ second) run := by
  induction first generalizing run with
  | nil =>
      rw [front]
      exact back
  | cons object first ih =>
      cases object with
      | none => exact front
      | some bytes =>
          rw [Emits] at front
          rw [List.cons_append, Emits]
          by_cases empty : bytes = []
          · rw [if_pos empty] at front ⊢
            exact ih front
          · rw [if_neg empty] at front ⊢
            obtain ⟨hex, rest, front, same⟩ := front
            exact ⟨hex, rest, ih front, same⟩

/-- The end of a file, or of the group that a body stands in. -/
def Ends (after : Bytes) : Prop :=
  after = [] ∨ ∃ rest, after = 0x7D :: rest

theorem scan_ends {after : Bytes} (ends : Ends after) :
    scan after = scan after.tail := by
  rcases ends with rfl | ⟨rest, rfl⟩
  · rfl
  · exact scan_close rest

theorem decodeAt_ends {after : Bytes} (ends : Ends after) (p : Pairs) :
    decodeAt 1 p after = some (p.out, after.tail) := by
  rcases ends with rfl | ⟨rest, rfl⟩
  · rfl
  · rw [decodeAt_close, if_pos rfl]
    rfl

theorem scan_printObject {w : Word} {object : Body} {after : Bytes}
    (fine : (Body.word w object).Fine after) (kind : isObject w.name = true)
    (ends : Ends after) :
    Emits (scan after.tail) [decodedObject object]
      (scan ((Body.word w object).print ++ after)) := by
  obtain ⟨formed, stops, inner⟩ := fine
  have next := control_word formed stops
  have decoded := decodeAt_print inner Nat.one_pos (by decide) ⟨none, []⟩
  have out := digits_out object.allDigits []
  rw [List.nil_append] at out
  rw [Body.print, List.cons_append, List.append_assoc, decodedObject]
  by_cases deep : 1 + object.deepest < depthEnd
  · rw [if_pos deep, decodeAt_ends ends, out] at decoded
    rw [if_pos deep, Emits]
    by_cases empty : pairUp object.allDigits = []
    · rw [if_pos empty, Emits]
      rw [empty] at decoded
      exact scan_object_empty next kind decoded
    · rw [if_neg empty]
      obtain ⟨hex, whole⟩ := scan_object_bytes next kind decoded empty
      exact ⟨hex, _, rfl, whole⟩
  · rw [if_neg deep] at decoded
    rw [if_neg deep]
    exact scan_object_overflow next kind decoded

theorem scan_print {body : Body} {after : Bytes} (fine : body.Fine after)
    (ends : Ends after) :
    Emits (scan after.tail) (body.outermost.map decodedObject)
      (scan (body.print ++ after)) := by
  induction body generalizing after with
  | done => exact scan_ends ends
  | group inner rest first second =>
      have split : (Body.group inner rest).print ++ after =
          0x7B :: (inner.print ++ 0x7D :: (rest.print ++ after)) := by
        rw [Body.print, List.cons_append, List.append_assoc, List.cons_append]
      rw [split, scan_open, Body.outermost, List.map_append]
      exact (first fine.1 (.inr ⟨_, rfl⟩)).append (second fine.2 ends)
  | word w rest ih =>
      rw [Body.outermost]
      by_cases object : isObject w.name = true
      · rw [if_pos object]
        exact scan_printObject fine object ends
      · obtain ⟨formed, stops, others⟩ := fine
        rw [if_neg object, Body.print, List.cons_append, List.append_assoc,
          scan_word _ (control_word formed stops) (Bool.eq_false_iff.mpr object)]
        exact ih others ends
  | symbol c rest ih =>
      rw [Body.print, List.cons_append, List.append_assoc, scan_symbols fine.1]
      exact ih fine.2 ends
  | text t rest ih =>
      rw [Body.print, List.append_assoc, scan_text fine.1]
      exact ih fine.2 ends
  | lineBreak b rest ih =>
      rw [Body.print, List.cons_append, scan_lineBreak _ fine.1]
      exact ih fine.2 ends

/-! ## Members -/

/-- A member that is an object, not the digits of one. -/
def isObjectEntry (e : Entry) : Bool :=
  "rtf-object-".toList.isPrefixOf e.name.toList

theorem isObjectEntry_object (i : Nat) (bytes : Bytes) :
    isObjectEntry (.new s!"rtf-object-{i}" bytes) = true := by
  unfold isObjectEntry Entry.new
  simp only [toString, String.toList_append]
  simp

theorem isObjectEntry_hex (i : Nat) (bytes : Bytes) :
    isObjectEntry (.new s!"rtf-objdata-hex-{i}" bytes) = false := by
  unfold isObjectEntry Entry.new
  simp only [toString, String.toList_append]
  simp [List.isPrefixOf]

/-- The objects handed over. -/
def objectsOf (r : Result) : List Entry :=
  r.1.filter isObjectEntry

/-- Objects as members, `index` being there before them. -/
def numbered : (index : Nat) → List Bytes → List Entry
  | _, [] => []
  | index, bytes :: objects =>
      .new s!"rtf-object-{index + 1}" bytes :: numbered (index + 1) objects

inductive Adds (index : Nat) (bytes : Bytes) (more : Budget → Result) :
    Result → Prop where
  | stopped (r : Result) (hit : LimitHit) (none : objectsOf r = [])
      (limit : r.2 = .error (.limit hit)) : Adds index bytes more r
  | handed (r : Result) (b : Budget)
      (one : objectsOf r =
        .new s!"rtf-object-{index}" bytes :: objectsOf (more b))
      (onwards : r.2 = (more b).2) : Adds index bytes more r

theorem emitBytes_adds (index : Nat) (bytes : Bytes) (more : Budget → Result)
    (b : Budget) : Adds index bytes more (emitBytes index bytes more b) := by
  unfold emitBytes
  cases spent : b.spend overBudget bytes.length with
  | error hit => exact .stopped _ hit rfl rfl
  | ok left =>
      refine .handed _ left ?_ rfl
      exact List.filter_cons_of_pos (isObjectEntry_object index bytes)

theorem Adds.behindHex {index : Nat} {bytes hex : Bytes}
    {more : Budget → Result} {r : Result} (adds : Adds index bytes more r) :
    Adds index bytes more
      (.new s!"rtf-objdata-hex-{index}" hex :: r.1, r.2) := by
  have same : objectsOf (.new s!"rtf-objdata-hex-{index}" hex :: r.1, r.2) =
      objectsOf r :=
    List.filter_cons_of_neg (by
      rw [isObjectEntry_hex]
      exact Bool.false_ne_true)
  cases adds with
  | stopped hit none limit => exact .stopped _ hit (same.trans none) limit
  | handed b one onwards => exact .handed _ b (same.trans one) onwards

theorem emitObject_adds (index : Nat) (hex bytes : Bytes)
    (more : Budget → Result) (b : Budget) :
    Adds index bytes more (emitObject index hex bytes more b) := by
  unfold emitObject
  split
  · cases b.countEntry with
    | error hit => exact .stopped _ hit rfl rfl
    | ok b =>
        dsimp only
        cases b.reserve with
        | error hit => exact .stopped _ hit rfl rfl
        | ok cap =>
            dsimp only
            split
            · exact (emitBytes_adds index bytes more _).behindHex
            · exact emitBytes_adds index bytes more b
  · exact emitBytes_adds index bytes more b

/-- The end of a file. -/
def finished : Nat → Budget → Result :=
  fun _ b => ([], .ok b)

def wholes (objects : List (Option Bytes)) : List Bytes :=
  (objects.filterMap id).filter (· ≠ [])

theorem wholes_empty (objects : List (Option Bytes)) :
    wholes (some [] :: objects) = wholes objects := by
  simp [wholes]

theorem wholes_cons {bytes : Bytes} (some' : bytes ≠ [])
    (objects : List (Option Bytes)) :
    wholes (some bytes :: objects) = bytes :: wholes objects := by
  simp [wholes, some']

/-- What a run hands over is a prefix of its objects, all of them if it comes to
its end, which it does not behind an object that nests too deep. -/
theorem Emits.handed {objects : List (Option Bytes)}
    {run : Nat → Budget → Result} (emits : Emits finished objects run)
    (index : Nat) (b : Budget) :
    objectsOf (run index b) <+: numbered index (wholes objects) ∧
      (∀ left, (run index b).2 = .ok left → none ∉ objects ∧
        objectsOf (run index b) = numbered index (wholes objects)) ∧
      ((run index b).2 = .error .overflow → none ∈ objects) := by
  induction objects generalizing run index b with
  | nil =>
      rw [emits]
      exact ⟨List.nil_prefix, fun left ended => ⟨List.not_mem_nil, rfl⟩, nofun⟩
  | cons object objects ih =>
      cases object with
      | none =>
          rw [emits]
          exact ⟨List.nil_prefix, nofun, fun _ => .head _⟩
      | some bytes =>
          rw [Emits] at emits
          by_cases empty : bytes = []
          · rw [if_pos empty] at emits
            obtain ⟨front, all, deep⟩ := ih emits index b
            rw [empty, wholes_empty]
            refine ⟨front, ?_, fun excess => .tail _ (deep excess)⟩
            intro left ended
            obtain ⟨shallow, same⟩ := all left ended
            exact ⟨by simp [shallow], same⟩
          · rw [if_neg empty] at emits
            obtain ⟨hex, rest, emits, rfl⟩ := emits
            rw [wholes_cons empty, numbered]
            dsimp only
            cases emitObject_adds (index + 1) hex bytes (rest (index + 1)) b with
            | stopped hit nothing limit =>
                rw [nothing, limit]
                exact ⟨List.nil_prefix, nofun, nofun⟩
            | handed left one onwards =>
                obtain ⟨front, all, deep⟩ := ih emits (index + 1) left
                rw [one, onwards]
                refine ⟨List.cons_prefix_cons.mpr ⟨rfl, front⟩, ?_,
                  fun excess => .tail _ (deep excess)⟩
                intro last ended
                obtain ⟨shallow, same⟩ := all last ended
                exact ⟨by simp [shallow], by rw [same]⟩

/-! ## Ample budgets -/

theorem emitBytes_room (index : Nat) (bytes : Bytes) (more : Budget → Result)
    {b : Budget} {n : Nat} (room : b.Room (n + bytes.length + 1)) :
    ∃ left, left.Room n ∧ (emitBytes index bytes more b).2 = (more left).2 := by
  obtain ⟨left, spent, room⟩ := @Budget.Room.spend overBudget _ _ _ room
  exact ⟨left, room, by rw [emitBytes, spent]⟩

theorem emitObject_room (index : Nat) (hex bytes : Bytes)
    (more : Budget → Result) {b : Budget} {n : Nat}
    (room : b.Room (n + bytes.length + 1 + hex.length + 1)) :
    ∃ left, left.Room n ∧
      (emitObject index hex bytes more b).2 = (more left).2 := by
  unfold emitObject
  split
  · obtain ⟨counted, count, room⟩ := room.countEntry
    obtain ⟨cap, reserved, enough⟩ := room.reserve
    obtain ⟨left, room, same⟩ := emitBytes_room index bytes more room.commit
    refine ⟨left, room, ?_⟩
    rw [count]
    dsimp only
    rw [reserved]
    dsimp only
    rw [if_pos (by omega)]
    exact same
  · exact emitBytes_room index bytes more (room.less (by omega))

theorem Emits.ample {objects : List (Option Bytes)}
    {run : Nat → Budget → Result} (emits : Emits finished objects run) :
    ∃ n, ∀ index b, b.Room n →
      (none ∈ objects → (run index b).2 = .error .overflow) ∧
      (none ∉ objects → ∃ left, (run index b).2 = .ok left) := by
  induction objects generalizing run with
  | nil =>
      refine ⟨0, fun index b _ => ⟨nofun, fun _ => ⟨b, ?_⟩⟩⟩
      rw [emits]
      rfl
  | cons object objects ih =>
      cases object with
      | none =>
          refine ⟨0, fun index b _ => ⟨fun _ => ?_, fun absent => ?_⟩⟩
          · rw [emits]
          · exact absurd (.head _) absent
      | some bytes =>
          rw [Emits] at emits
          by_cases empty : bytes = []
          · rw [if_pos empty] at emits
            obtain ⟨n, all⟩ := ih emits
            refine ⟨n, fun index b room => ?_⟩
            obtain ⟨deep, shallow⟩ := all index b room
            exact ⟨fun member => deep (by simpa using member),
              fun absent => shallow (by simpa using absent)⟩
          · rw [if_neg empty] at emits
            obtain ⟨hex, rest, emits, rfl⟩ := emits
            obtain ⟨n, all⟩ := ih emits
            refine ⟨n + bytes.length + 1 + hex.length + 1,
              fun index b room => ?_⟩
            obtain ⟨left, room, same⟩ :=
              emitObject_room (index + 1) hex bytes (rest (index + 1)) room
            obtain ⟨deep, shallow⟩ := all (index + 1) left room
            dsimp only
            rw [same]
            exact ⟨fun member => deep (by simpa using member),
              fun absent => shallow (by simpa using absent)⟩

/-! ## Objects inside others -/

theorem numbered_inj {index : Nat} {a b : List Bytes}
    (same : numbered index a = numbered index b) : a = b := by
  induction a generalizing b index with
  | nil =>
      cases b with
      | nil => rfl
      | cons y b => cases same
  | cons x a ih =>
      cases b with
      | nil => cases same
      | cons y b =>
          obtain ⟨first, rest⟩ := List.cons.inj same
          have data : x = y := congrArg Entry.data first
          rw [data, ih rest]

def size (members : List Bytes) : Nat :=
  (members.map List.length).sum

theorem size_filled (digits : List (List UInt8)) :
    size (filled digits) = (digits.map fun ns => ns.length / 2).sum := by
  induction digits with
  | nil => rfl
  | cons ns digits ih =>
      rw [List.map_cons, List.sum_cons, ← ih, ← length_pairUp]
      by_cases empty : pairUp ns = []
      · simp [filled, size, empty]
      · simp [filled, size, empty]

theorem sum_halves_le (digits : List (List UInt8)) :
    (digits.map fun ns => ns.length / 2).sum ≤
      (digits.map List.length).sum / 2 := by
  induction digits with
  | nil => exact Nat.le_refl _
  | cons ns digits ih =>
      rw [List.map_cons, List.map_cons, List.sum_cons, List.sum_cons]
      omega

/-- Told one by one, the digits of an object make no more bytes than they do all
together. -/
theorem size_inside_le (object : Body) :
    size (filled object.inside) ≤ size (filled [object.allDigits]) := by
  have halves := sum_halves_le object.inside
  have all := object.length_allDigits
  rw [size_filled, size_filled, List.map_singleton, List.sum_singleton, all]
  exact halves

def Even (object : Body) : Prop :=
  filled object.inside = filled [object.allDigits]

theorem size_append (a b : List Bytes) : size (a ++ b) = size a + size b := by
  rw [size, List.map_append, List.sum_append]
  rfl

theorem size_flatMap_le (objects : List Body) :
    size (objects.flatMap fun o => filled o.inside) ≤
      size (objects.flatMap fun o => filled [o.allDigits]) := by
  induction objects with
  | nil => exact Nat.le_refl _
  | cons object objects ih =>
      have one := size_inside_le object
      rw [List.flatMap_cons, List.flatMap_cons, size_append, size_append]
      omega

theorem eq_nil_of_size {digits : List (List UInt8)} {members : List Bytes}
    (within : members <:+ filled digits) (none : size members = 0) :
    members = [] := by
  cases members with
  | nil => rfl
  | cons m members =>
      have kept : m ≠ [] := by
        have member := within.subset (.head _)
        simpa [filled] using (List.mem_filter.mp member).2
      have positive := List.length_pos_iff.mpr kept
      rw [size, List.map_cons, List.sum_cons] at none
      omega

theorem even_of_append_eq {object : Body} {a b : List Bytes}
    (same : filled object.inside ++ a = filled [object.allDigits] ++ b)
    (sizes : size (filled object.inside) = size (filled [object.allDigits])) :
    Even object := by
  rw [Even]
  by_cases empty : pairUp object.allDigits = []
  · have none : filled [object.allDigits] = [] := by simp [filled, empty]
    rw [none] at sizes ⊢
    exact eq_nil_of_size List.suffix_rfl sizes
  · have one : filled [object.allDigits] = [pairUp object.allDigits] := by
      simp [filled, empty]
    have positive := List.length_pos_iff.mpr empty
    rw [one] at sizes same ⊢
    rw [size, size, List.map_singleton, List.sum_singleton] at sizes
    cases members : filled object.inside with
    | nil =>
        rw [members, List.map_nil, List.sum_nil] at sizes
        omega
    | cons m ms =>
        rw [members] at sizes same
        obtain ⟨rfl, -⟩ := List.cons.inj same
        rw [List.map_cons, List.sum_cons] at sizes
        have within : ms <:+ filled object.inside := by
          rw [members]
          exact List.suffix_cons _ _
        have rest : ms = [] := eq_nil_of_size within (by rw [size]; omega)
        rw [rest]

theorem flatMap_eq_iff (objects : List Body) :
    (objects.flatMap fun o => filled o.inside) =
        (objects.flatMap fun o => filled [o.allDigits]) ↔
      ∀ o ∈ objects, Even o := by
  induction objects with
  | nil => simp
  | cons object objects ih =>
      rw [List.forall_mem_cons, ← ih, List.flatMap_cons, List.flatMap_cons]
      constructor
      · intro same
        have sizes := congrArg size same
        have one := size_inside_le object
        have others := size_flatMap_le objects
        rw [size_append, size_append] at sizes
        have even : Even object :=
          even_of_append_eq same (by omega)
        rw [Even] at even
        rw [even] at same
        exact ⟨even, List.append_cancel_left same⟩
      · rintro ⟨even, same⟩
        rw [Even] at even
        rw [even, same]

/-! ## Documents -/

/-- The objects handed over are those of the document, as far as the budget goes,
and no group nests too deep. -/
structure Right (body : Body) (r : Result) : Prop where
  front : objectsOf r <+: numbered 0 body.objects
  all : ∀ left, r.2 = .ok left → objectsOf r = numbered 0 body.objects
  shallow : r.2 ≠ .error .overflow

/-- The objects of a document come out right under every budget, and all of them
come out under one with room enough. -/
structure Extracts (body : Body) : Prop where
  right : ∀ b, Right body (extractRtf body.print b)
  ample : ∃ n, ∀ b : Budget, b.Room n →
    ∃ left, (extractRtf body.print b).2 = .ok left

/-- No group in an object nests too deep, and the objects in it make no
difference. -/
def Plain (object : Body) : Prop :=
  1 + object.deepest < depthEnd ∧ Even object

theorem filled_flatMap (objects : List Body) (f : Body → List (List UInt8)) :
    filled (objects.flatMap f) = objects.flatMap fun o => filled (f o) := by
  induction objects with
  | nil => rfl
  | cons o objects ih =>
      rw [List.flatMap_cons, List.flatMap_cons, filled_append, ih]

theorem Body.objects_eq (body : Body) :
    body.objects = body.outermost.flatMap fun o => filled o.inside := by
  rw [objects, told_eq, filled_flatMap]

theorem none_mem_decoded {objects : List Body} :
    none ∈ objects.map decodedObject ↔
      ∃ o ∈ objects, ¬ 1 + o.deepest < depthEnd := by
  rw [List.mem_map]
  constructor
  · rintro ⟨o, member, none⟩
    refine ⟨o, member, fun shallow => ?_⟩
    rw [decodedObject, if_pos shallow] at none
    cases none
  · rintro ⟨o, member, deep⟩
    exact ⟨o, member, by rw [decodedObject, if_neg deep]⟩

theorem wholes_decoded {objects : List Body}
    (shallow : ∀ o ∈ objects, 1 + o.deepest < depthEnd) :
    wholes (objects.map decodedObject) =
      objects.flatMap fun o => filled [o.allDigits] := by
  induction objects with
  | nil => rfl
  | cons o objects ih =>
      rw [List.forall_mem_cons] at shallow
      rw [List.map_cons, List.flatMap_cons, decodedObject, if_pos shallow.1,
        ← ih shallow.2]
      by_cases empty : pairUp o.allDigits = []
      · rw [empty, wholes_empty]
        simp [filled, empty]
      · rw [wholes_cons empty]
        simp [filled, empty]

theorem extractRtf_eq {body : Body} (begins : rtfStart <+: body.print)
    (b : Budget) : extractRtf body.print b = scan body.print 0 b := by
  have starts : rtfStart.isPrefixOf body.print = true :=
    List.isPrefixOf_iff_prefix.mpr begins
  rw [extractRtf, if_pos starts]
  rfl

theorem scan_document {body : Body} (fine : body.Fine []) :
    Emits finished (body.outermost.map decodedObject) (scan body.print) := by
  have emits := scan_print fine (.inl rfl)
  rw [List.append_nil] at emits
  exact emits

/-- The objects of a document come out right exactly if those that stand in no
other are plain. -/
theorem extracts_iff_plain {body : Body} (fine : body.Fine [])
    (begins : rtfStart <+: body.print) :
    Extracts body ↔ ∀ object ∈ body.outermost, Plain object := by
  have emits := scan_document fine
  constructor
  · intro extracts
    obtain ⟨n, ample⟩ := emits.ample
    obtain ⟨deep, ends⟩ := ample 0 _ (Budget.room_new n)
    have known := extracts.right (.new ⟨n, n + 1, n⟩)
    rw [extractRtf_eq begins] at known
    have shallow : ∀ o ∈ body.outermost, 1 + o.deepest < depthEnd := by
      intro o member
      by_contra tooDeep
      exact known.shallow (deep (none_mem_decoded.mpr ⟨o, member, tooDeep⟩))
    have absent : none ∉ body.outermost.map decodedObject := by
      intro member
      obtain ⟨o, member, tooDeep⟩ := none_mem_decoded.mp member
      exact tooDeep (shallow o member)
    obtain ⟨left, ended⟩ := ends absent
    have given := ((emits.handed 0 _).2.1 left ended).2
    rw [known.all left ended, wholes_decoded shallow] at given
    have same := numbered_inj given
    rw [Body.objects_eq, flatMap_eq_iff] at same
    exact fun o member => ⟨shallow o member, same o member⟩
  · intro plain
    have shallow : ∀ o ∈ body.outermost, 1 + o.deepest < depthEnd :=
      fun o member => (plain o member).1
    have absent : none ∉ body.outermost.map decodedObject := by
      intro member
      obtain ⟨o, member, tooDeep⟩ := none_mem_decoded.mp member
      exact tooDeep (shallow o member)
    have same : wholes (body.outermost.map decodedObject) = body.objects := by
      rw [wholes_decoded shallow, Body.objects_eq]
      exact (flatMap_eq_iff _).mpr (fun o member => (plain o member).2) |>.symm
    constructor
    · intro b
      obtain ⟨front, all, deep⟩ := emits.handed 0 b
      rw [same] at front all
      rw [extractRtf_eq begins]
      exact ⟨front, fun left ended => (all left ended).2,
        fun excess => absent (deep excess)⟩
    · obtain ⟨n, ample⟩ := emits.ample
      refine ⟨n, fun b room => ?_⟩
      rw [extractRtf_eq begins]
      exact (ample 0 b room).2 absent

/-- Line breaks, blanks, words that start no object, and empty groups put in
anywhere, also into a text. -/
inductive Padded : Body → Body → Prop where
  | done : Padded .done .done
  | group {inner inner' rest rest' : Body} (own : Padded inner inner')
      (others : Padded rest rest') :
      Padded (.group inner rest) (.group inner' rest')
  | word {rest rest' : Body} (w : Word) (others : Padded rest rest') :
      Padded (.word w rest) (.word w rest')
  | symbol {rest rest' : Body} (c : Symbol) (others : Padded rest rest') :
      Padded (.symbol c rest) (.symbol c rest')
  | text {rest rest' : Body} (t : Bytes) (others : Padded rest rest') :
      Padded (.text t rest) (.text t rest')
  | lineBreak {rest rest' : Body} (b : UInt8) (others : Padded rest rest') :
      Padded (.lineBreak b rest) (.lineBreak b rest')
  | cut {rest rest' : Body} (t t' : Bytes)
      (parts : Padded (.text t (.text t' rest)) rest') :
      Padded (.text (t ++ t') rest) rest'
  | putBreak {rest rest' : Body} (b : UInt8) (others : Padded rest rest') :
      Padded rest (.lineBreak b rest')
  | putBlanks {rest rest' : Body} (t : Bytes)
      (blank : ∀ c ∈ t, c = 0x20 ∨ c = 0x09) (others : Padded rest rest') :
      Padded rest (.text t rest')
  | putWord {rest rest' : Body} (w : Word) (plain : isObject w.name = false)
      (others : Padded rest rest') : Padded rest (.word w rest')
  | putGroup {rest rest' : Body} (others : Padded rest rest') :
      Padded rest (.group .done rest')

theorem hexNibble_blanks {t : Bytes} (blank : ∀ c ∈ t, c = 0x20 ∨ c = 0x09) :
    t.filterMap hexNibble = [] := by
  rw [List.filterMap_eq_nil_iff]
  intro c member
  rcases blank c member with rfl | rfl
  · rfl
  · rfl

theorem Padded.told {body padded : Body} (put : Padded body padded) :
    padded.own = body.own ∧ padded.told = body.told := by
  induction put with
  | done => exact ⟨rfl, rfl⟩
  | group own others first second =>
      exact ⟨by rw [Body.own, Body.own, first.1, second.1],
        by rw [Body.told, Body.told, first.2, second.2]⟩
  | word w others ih =>
      exact ⟨by rw [Body.own, Body.own, ih.1],
        by rw [Body.told, Body.told, ih.1, ih.2]⟩
  | symbol c others ih => exact ih
  | text t others ih =>
      exact ⟨by rw [Body.own, Body.own, ih.1], ih.2⟩
  | lineBreak b others ih => exact ih
  | cut t t' parts ih =>
      refine ⟨?_, ih.2⟩
      rw [ih.1, Body.own, Body.own, Body.own, List.filterMap_append,
        List.append_assoc]
  | putBreak b others ih => exact ih
  | putBlanks t blank others ih =>
      refine ⟨?_, ih.2⟩
      rw [Body.own, hexNibble_blanks blank, List.nil_append, ih.1]
  | putWord w plain others ih =>
      rw [Body.own, Body.told, plain, if_neg Bool.false_ne_true,
        if_neg Bool.false_ne_true]
      exact ih
  | putGroup others ih => exact ih

/-- The objects of a document come out right exactly if those that stand in no
other are plain, and nothing put between their digits changes them. -/
theorem extractRtf_right_iff (body : Body) :
    (body.Fine [] → rtfStart <+: body.print →
      (Extracts body ↔ ∀ object ∈ body.outermost, Plain object)) ∧
    ∀ padded, Padded body padded → padded.objects = body.objects :=
  ⟨fun fine begins => extracts_iff_plain fine begins,
    fun _ put => by rw [Body.objects, Body.objects, put.told.2]⟩

def objdata : Word := ⟨[0x6F, 0x62, 0x6A, 0x64, 0x61, 0x74, 0x61], none, true⟩

def rtfWord : Word := ⟨[0x72, 0x74, 0x66], some (false, [0x31]), false⟩

theorem objdata_formed : objdata.Formed where
  some := by decide
  short := by decide
  letters := by decide
  digits := nofun

theorem rtfWord_formed : rtfWord.Formed where
  some := by decide
  short := by decide
  letters := by decide
  digits := by
    rintro neg ds ⟨⟩
    exact ⟨by decide, by decide, by decide⟩

/-- `{\\rtf1{\\objdata 4D` and more, and `}}`. -/
def sampleDocument (more : Body) : Body :=
  .group (.word rtfWord (.group (.word objdata (.text [0x34, 0x44] more))
    .done)) .done

/-- `{\\rtf1{\\objdata 4D{\\objdata 5A}}}` -/
def nestedDocument : Body :=
  sampleDocument (.group (.word objdata (.text [0x35, 0x41] .done)) .done)

def rtfBudget : Budget := .new ⟨10, 100, 100⟩

theorem sampleDocument_fine {more : Body} (fine : more.Fine [0x7D, 0x7D]) :
    (sampleDocument more).Fine [] := by
  refine ⟨⟨rtfWord_formed, ?_, ⟨objdata_formed, nofun, by decide, fine⟩,
    trivial⟩, trivial⟩
  rintro - c ⟨⟩
  exact ⟨by decide, by decide, nofun⟩

/-- An object in another is counted for the outer one. -/
theorem extractRtf_nested :
    nestedDocument.Fine [] ∧ rtfStart <+: nestedDocument.print ∧
      nestedDocument.objects = [[0x4D], [0x5A]] ∧
      objectsOf (extractRtf nestedDocument.print rtfBudget) =
        [.new "rtf-object-1" [0x4D, 0x5A]] ∧
      ¬ Right nestedDocument (extractRtf nestedDocument.print rtfBudget) := by
  have fine : nestedDocument.Fine [] :=
    sampleDocument_fine
      ⟨⟨objdata_formed, nofun, by decide, trivial⟩, trivial⟩
  have given : objectsOf (extractRtf nestedDocument.print rtfBudget) =
      [.new "rtf-object-1" [0x4D, 0x5A]] := by
    decide
  have ended : (extractRtf nestedDocument.print rtfBudget).2 =
      .ok { rtfBudget with files := 2, totalOut := 17 } := by
    decide
  refine ⟨fine, by decide, by decide, given, fun right => ?_⟩
  have same := right.all _ ended
  rw [given] at same
  revert same
  decide

/-- Line breaks, a word and a group between the digits of an object. -/
theorem extractRtf_padded :
    Extracts (sampleDocument (.lineBreak 0x0A (.group .done
      (.text [0x35, 0x61, 0x39] .done)))) := by
  refine ((extractRtf_right_iff _).1 (sampleDocument_fine ?_) (by decide)).mpr ?_
  · exact ⟨.inr rfl, trivial, by decide, trivial⟩
  · rw [sampleDocument]
    intro object member
    obtain rfl := List.mem_singleton.mp member
    exact ⟨by decide, by rw [Even]; decide⟩

end Exav.Unpack.Rtf
