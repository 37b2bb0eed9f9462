import Exav.Emu.Refine

/-!
# Every operation refines flat memory

Reads and writes at once and byte by byte come to the same, and so do fetches of
code and snapshots that copy page by page.
-/

namespace Exav.Emu.Mem

variable {m after : Mem}

/-! ## Reads -/

theorem readU8_refines (sound : m.Sound) (addr : UInt32) :
    m.Refines (m.readU8 addr) (m.flat.readU8 addr, m.flat) := by
  obtain ⟨after, looked, alike, cache⟩ :=
    slot_spec sound.toIndexed (pageOf addr)
  rw [readU8, looked, Flat.readU8]
  cases index : m.index (pageOf addr) with
  | none =>
      rw [unmapped index]
      exact alike.refines sound cache _
  | some slot =>
      obtain ⟨p, stored, page⟩ := sound.found index
      have byte := byte_of_pageAt page
      rw [sound.mapped index]
      have same : ((after.pages[slot]?.bind (·.bytes[offsetOf addr]?)).getD 0) =
          m.flat.byte addr := by
        rw [alike.pages, stored, Option.bind_some, byte]
        rfl
      simp only [same]
      exact alike.refines sound cache _

theorem readEach_refines (sound : m.Sound) (addr : UInt32) (len : Nat) :
    m.Refines (m.readEach addr len) (m.flat.readBytes addr len, m.flat) := by
  induction len generalizing m addr with
  | zero => exact .pure sound _
  | succ len ih =>
      have head := readU8_refines sound addr
      rw [readEach, Flat.readBytes]
      rcases read : m.readU8 addr with ⟨fault | b, first⟩
      · rw [read] at head
        have same : Except.error fault = m.flat.readU8 addr := head.same
        rw [← same]
        exact ⟨rfl, head.sound, head.flat, head.evolves⟩
      · rw [read] at head
        have same : Except.ok b = m.flat.readU8 addr := head.same
        have flat : first.flat = m.flat := head.flat
        have tail := ih head.sound (addr + 1)
        rw [flat] at tail
        rw [← same]
        dsimp only
        rcases read' : first.readEach (addr + 1) len with ⟨fault | bytes, last⟩
        · rw [read'] at tail
          have same : _ = m.flat.readBytes (addr + 1) len := tail.same
          rw [← same]
          exact ⟨rfl, tail.sound, tail.flat, head.evolves.trans tail.evolves⟩
        · rw [read'] at tail
          have same : _ = m.flat.readBytes (addr + 1) len := tail.same
          rw [← same]
          exact ⟨rfl, tail.sound, tail.flat, head.evolves.trans tail.evolves⟩

theorem readInto_refines (sound : m.Sound) (addr : UInt32) (len : Nat) :
    m.Refines (m.readInto addr len) (m.flat.readBytes addr len, m.flat) := by
  rw [readInto]
  by_cases empty : len = 0
  · rw [if_pos empty, empty]
    exact .pure sound _
  · rw [if_neg empty]
    by_cases fits : offsetOf addr + len ≤ pageSize
    · rw [if_pos fits]
      obtain ⟨after, looked, alike, cache⟩ :=
        slot_spec sound.toIndexed (pageOf addr)
      rw [looked]
      cases index : m.index (pageOf addr) with
      | none =>
          rw [Flat.readBytes_unmapped (unmapped index) (Nat.pos_of_ne_zero empty)]
          exact alike.refines sound cache _
      | some slot =>
          obtain ⟨p, stored, page⟩ := sound.found index
          rw [Flat.readBytes_inside (sound.mapped index) fits,
            ← read_eq_bytes page fits]
          simp only [alike.pages, stored]
          exact alike.refines sound cache _
    · rw [if_neg fits]
      exact readEach_refines sound addr len

theorem chunkOf_spec (addr : UInt32) {len : Nat} (some : len ≠ 0) :
    0 < chunkOf addr len ∧ chunkOf addr len ≤ len ∧
      offsetOf addr + chunkOf addr len ≤ pageSize := by
  have bound := offsetOf_lt addr
  rw [chunkOf]
  omega

theorem readCodeFrom_refines (sound : m.Sound) (addr : UInt32) {rounds len : Nat}
    (enough : len ≤ rounds) :
    m.Refines (m.readCodeFrom addr rounds len) (m.flat.code addr len, m.flat) := by
  induction rounds generalizing m addr len with
  | zero =>
      obtain rfl : len = 0 := by omega
      exact .pure sound _
  | succ rounds ih =>
      rw [readCodeFrom]
      by_cases empty : len = 0
      · rw [if_pos empty, empty]
        exact .pure sound _
      · rw [if_neg empty]
        obtain ⟨some, upto, fits⟩ := chunkOf_spec addr empty
        obtain ⟨after, looked, alike, cache⟩ :=
          slot_spec sound.toIndexed (pageOf addr)
        rw [looked]
        cases index : m.index (pageOf addr) with
        | none =>
            rw [Flat.code_unmapped (unmapped index)]
            exact alike.refines sound cache _
        | some slot =>
            obtain ⟨p, stored, page⟩ := sound.found index
            have head := alike.refines sound cache ()
            have tail := ih head.sound (addr + UInt32.ofNat (chunkOf addr len))
              (show len - chunkOf addr len ≤ rounds by omega)
            have split := Flat.code_add (sound.mapped index) fits
              (len - chunkOf addr len)
            rw [Nat.add_sub_cancel' upto, ← read_eq_bytes page fits] at split
            rw [alike.flat] at tail
            simp only [alike.pages, stored]
            rw [split]
            exact ⟨congrArg (p.read _ _ ++ ·) tail.same, tail.sound, tail.flat,
              head.evolves.trans tail.evolves⟩

theorem readCode_refines (sound : m.Sound) (addr : UInt32) (len : Nat) :
    m.Refines (m.readCode addr len) (m.flat.code addr len, m.flat) :=
  readCodeFrom_refines sound addr (Nat.le_refl len)

/-- What is not mapped reads as zeros. -/
theorem bytes_unmapped {addr : UInt32} (index : m.index (pageOf addr) = none)
    {len : Nat} (fits : offsetOf addr + len ≤ pageSize) :
    m.flat.bytes addr len = List.replicate len 0 := by
  apply List.ext_getElem?
  intro i
  rw [Flat.getElem?_bytes, List.getElem?_replicate]
  by_cases inside : i < len
  · obtain ⟨page, _⟩ := @inside_page addr i (by omega)
    rw [if_pos inside, if_pos inside]
    change some ((((m.index (pageOf (addr + UInt32.ofNat i))).bind _).bind _).getD
      0) = _
    rw [page, index]
    rfl
  · rw [if_neg inside, if_neg inside]

theorem snapshotFrom_refines (sound : m.Sound) (addr : UInt32)
    {rounds len : Nat} (enough : len ≤ rounds) :
    m.Refines (m.snapshotFrom addr rounds len)
      (m.flat.bytes addr len, m.flat) := by
  induction rounds generalizing m addr len with
  | zero =>
      obtain rfl : len = 0 := by omega
      exact .pure sound _
  | succ rounds ih =>
      rw [snapshotFrom]
      by_cases empty : len = 0
      · rw [if_pos empty, empty]
        exact .pure sound _
      · rw [if_neg empty]
        obtain ⟨some, upto, fits⟩ := chunkOf_spec addr empty
        obtain ⟨after, looked, alike, cache⟩ :=
          slot_spec sound.toIndexed (pageOf addr)
        have head := alike.refines sound cache ()
        have tail := ih head.sound (addr + UInt32.ofNat (chunkOf addr len))
          (show len - chunkOf addr len ≤ rounds by omega)
        have split := Flat.bytes_add m.flat addr (chunkOf addr len)
          (len - chunkOf addr len)
        rw [Nat.add_sub_cancel' upto] at split
        rw [alike.flat] at tail
        rw [looked, split]
        cases index : m.index (pageOf addr) with
        | none =>
            rw [bytes_unmapped index fits]
            exact ⟨congrArg (List.replicate _ 0 ++ ·) tail.same, tail.sound,
              tail.flat, head.evolves.trans tail.evolves⟩
        | some slot =>
            obtain ⟨p, stored, page⟩ := sound.found index
            simp only [alike.pages, stored]
            rw [← read_eq_bytes page fits]
            exact ⟨congrArg (p.read _ _ ++ ·) tail.same, tail.sound, tail.flat,
              head.evolves.trans tail.evolves⟩

theorem snapshot_refines (sound : m.Sound) (addr : UInt32) (len : Nat) :
    m.Refines (m.snapshot addr len) (m.flat.bytes addr len, m.flat) :=
  snapshotFrom_refines sound addr (Nat.le_refl len)

/-! ## Writes -/

theorem writeFound_refines (sound : m.Sound) (alike : m.Alike after)
    (cache : after.cached = true → m.index after.cachePage = some after.cacheSlot)
    {page slot : Nat} (index : m.index page = some slot) (off : Nat)
    (src : Bytes) :
    m.Refines ((Except.ok () : Except Fault Unit), after.writePage slot page off src)
      (.ok (), m.flat.overlayPage page off src) := by
  have head := alike.refines sound cache ()
  have written := writePage_refines head.sound (by rwa [alike.index]) off src
  rw [alike.flat] at written
  exact ⟨rfl, written.sound, written.flat, head.evolves.trans written.evolves⟩

theorem writeU8_refines (sound : m.Sound) (addr : UInt32) (v : UInt8) :
    m.Refines (m.writeU8 addr v) (m.flat.writeU8 addr v) := by
  obtain ⟨after, looked, alike, cache⟩ :=
    slot_spec sound.toIndexed (pageOf addr)
  rw [writeU8, looked, Flat.writeU8]
  cases index : m.index (pageOf addr) with
  | none =>
      rw [unmapped index]
      exact alike.refines sound cache _
  | some slot =>
      rw [sound.mapped index, if_pos rfl, ← Flat.overlayPage_one]
      exact writeFound_refines sound alike cache index _ _

theorem writeEach_refines (sound : m.Sound) (addr : UInt32) (src : Bytes) :
    m.Refines (m.writeEach addr src) (m.flat.writeBytes addr src) := by
  induction src generalizing m addr with
  | nil => exact .pure sound _
  | cons b src ih =>
      have head := writeU8_refines sound addr b
      rw [writeEach, Flat.writeBytes]
      rcases wrote : m.writeU8 addr b with ⟨fault | done, first⟩
      · rcases spec : m.flat.writeU8 addr b with ⟨fault' | done', flat⟩
        · rw [wrote, spec] at head
          exact head
        · rw [wrote, spec] at head
          cases head.same
      · rcases spec : m.flat.writeU8 addr b with ⟨fault' | done', flat⟩
        · rw [wrote, spec] at head
          cases head.same
        · rw [wrote, spec] at head
          have tail := ih head.sound (addr + 1)
          have flat' : first.flat = flat := head.flat
          rw [flat'] at tail
          exact head.followedBy tail

theorem writeBytes_refines (sound : m.Sound) (addr : UInt32) (src : Bytes) :
    m.Refines (m.writeBytes addr src) (m.flat.writeBytes addr src) := by
  rw [writeBytes]
  cases src with
  | nil => exact .pure sound _
  | cons b src =>
      change m.Refines (if offsetOf addr + (b :: src).length ≤ pageSize then _
        else _) _
      by_cases fits : offsetOf addr + (b :: src).length ≤ pageSize
      · rw [if_pos fits]
        obtain ⟨after, looked, alike, cache⟩ :=
          slot_spec sound.toIndexed (pageOf addr)
        rw [looked]
        cases index : m.index (pageOf addr) with
        | none =>
            rw [Flat.writeBytes_unmapped (unmapped index)]
            exact alike.refines sound cache _
        | some slot =>
            rw [Flat.writeBytes_inside (sound.mapped index) fits]
            exact writeFound_refines sound alike cache index _ _
      · rw [if_neg fits]
        exact writeEach_refines sound addr (b :: src)

/-! ## Mapping -/

theorem index_isSome (indexed : m.Indexed) (page : Nat) :
    (m.index page).isSome = m.flat.mapped page := by
  cases index : m.index page with
  | none => exact (unmapped index).symm
  | some slot => exact (indexed.mapped index).symm

theorem mapPage_refines (sound : m.Sound) (page : Nat) :
    m.Refines (m.mapPage page) (m.flat.mapPage page) := by
  rw [mapPage, Flat.mapPage, index_isSome sound.toIndexed]
  by_cases mapped : m.flat.mapped page = true
  · rw [if_pos mapped, if_pos mapped]
    exact .pure sound _
  · rw [if_neg mapped, if_neg mapped]
    by_cases full : m.pages.length ≥ m.maxPages
    · have none_left : m.flat.room = 0 := Nat.sub_eq_zero_of_le full
      rw [if_pos full, if_pos none_left]
      exact .pure sound _
    · have some_left : m.flat.room ≠ 0 := Nat.sub_ne_zero_of_lt (by omega)
      rw [if_neg full, if_neg some_left]
      have missing : m.index page = none := by
        rw [← index_isSome sound.toIndexed] at mapped
        exact Option.not_isSome_iff_eq_none.mp mapped
      generalize more : ({ m with
        pages := m.pages ++ [.zero]
        index := fun other =>
          if other = page then some m.pages.length else m.index other } : Mem) =
        after
      have pages : after.pages = m.pages ++ [.zero] := by rw [← more]
      have index : ∀ other, after.index other =
          if other = page then some m.pages.length else m.index other := by
        intro other
        rw [← more]
      have length : after.pages.length = m.pages.length + 1 := by
        rw [pages, List.length_append, List.length_singleton]
      have pageAt : ∀ other, after.pageAt other =
          if other = page then some .zero else m.pageAt other := by
        intro other
        rw [Mem.pageAt, index]
        by_cases same : other = page
        · rw [if_pos same, if_pos same, Option.bind_some, pages,
            List.getElem?_append_right (Nat.le_refl _), Nat.sub_self]
          rfl
        · rw [if_neg same, if_neg same, Mem.pageAt]
          cases found : m.index other with
          | none => rfl
          | some slot =>
              rw [Option.bind_some, Option.bind_some, pages,
                List.getElem?_append_left (sound.inside found)]
      have absent : m.pageAt page = none := by
        rw [Mem.pageAt, missing]
        rfl
      have dirty : after.flat.dirty = m.flat.dirty := by
        funext other
        change ((after.pageAt other).map (·.dirty)).getD false =
          ((m.pageAt other).map (·.dirty)).getD false
        rw [pageAt]
        split
        · rename_i same
          rw [same, absent]
          rfl
        · rfl
      have flat : after.flat = { m.flat with
          mapped := fun other => if other = page then true else m.flat.mapped other
          room := m.flat.room - 1 } := by
        apply Flat.ext
        · funext other
          change (after.pageAt other).isSome =
            if other = page then true else (m.pageAt other).isSome
          rw [pageAt]
          split <;> rfl
        · funext other
          change ((after.pageAt (pageOf other)).bind _).getD 0 =
            ((m.pageAt (pageOf other)).bind _).getD 0
          rw [pageAt]
          split
          · rename_i same
            rw [same, absent, Option.bind_some]
            change ((List.replicate pageSize (0 : UInt8))[offsetOf other]?).getD
              0 = 0
            rw [List.getElem?_replicate, if_pos (offsetOf_lt other)]
            rfl
          · rfl
        · exact dirty
        · change after.maxPages - after.pages.length = m.maxPages - _ - 1
          rw [length, ← more, Nat.sub_sub]
        · rw [← more]
          rfl
        · rw [← more]
          rfl
      refine ⟨rfl, ⟨⟨?_, ?_, ?_⟩, ?_⟩, flat, ?_⟩
      · intro other slot found
        rw [index] at found
        rw [length]
        split at found
        · cases found
          exact Nat.lt_succ_self _
        · exact Nat.lt_succ_of_lt (sound.inside found)
      · intro one other slot found found'
        rw [index] at found found'
        split at found
        · rename_i here
          split at found'
          · rename_i here'
            rw [here, here']
          · cases found
            exact absurd (sound.inside found') (Nat.lt_irrefl _)
        · split at found'
          · cases found'
            exact absurd (sound.inside found) (Nat.lt_irrefl _)
          · exact sound.apart found found'
      · intro filled
        have cached : m.cached = true := by rwa [← more] at filled
        have named := sound.cache cached
        have apart : m.cachePage ≠ page := by
          rintro same
          rw [same, missing] at named
          cases named
        have cachePage : after.cachePage = m.cachePage := by rw [← more]
        have cacheSlot : after.cacheSlot = m.cacheSlot := by rw [← more]
        rw [cachePage, cacheSlot, index, if_neg apart, named]
      · have watch : after.flat.watch = m.flat.watch := by rw [flat]
        have same : after.flat.watchedDirty = m.flat.watchedDirty := by
          rw [Flat.watchedDirty, Flat.watchedDirty, watch, dirty]
        rw [same, ← sound.count, ← more]
      · refine ⟨?_, ?_⟩
        · rw [← more]
        · intro other p found executed
          have apart : other ≠ page := by
            rintro rfl
            rw [absent] at found
            cases found
          refine ⟨p, ?_, executed, fun _ => rfl⟩
          change after.pageAt other = some p
          rw [pageAt, if_neg apart, found]

theorem mapPages_refines (sound : m.Sound) (page count : Nat) :
    m.Refines (m.mapPages page count) (m.flat.mapPages page count) := by
  induction count generalizing m page with
  | zero => exact .pure sound _
  | succ count ih =>
      have head := mapPage_refines sound page
      rw [mapPages, Flat.mapPages]
      rcases mapped : m.mapPage page with ⟨e | done, first⟩
      · rcases spec : m.flat.mapPage page with ⟨e' | done', flat⟩
        · rw [mapped, spec] at head
          exact head
        · rw [mapped, spec] at head
          cases head.same
      · rcases spec : m.flat.mapPage page with ⟨e' | done', flat⟩
        · rw [mapped, spec] at head
          cases head.same
        · rw [mapped, spec] at head
          have tail := ih head.sound (page + 1)
          have flat' : first.flat = flat := head.flat
          rw [flat'] at tail
          exact head.followedBy tail

theorem map_refines (sound : m.Sound) (addr : UInt32) (len : Nat) :
    m.Refines (m.map addr len) (m.flat.map addr len) := by
  rw [map, Flat.map]
  by_cases empty : len = 0
  · rw [if_pos empty, if_pos empty]
    exact .pure sound _
  · rw [if_neg empty, if_neg empty]
    exact mapPages_refines sound _ _

/-! ## Marks -/

theorem setPage_indexed (indexed : m.Indexed) (slot : Nat) (p : Page) :
    (m.setPage slot p).Indexed where
  inside found := by
    change _ < (m.pages.set slot p).length
    rw [List.length_set]
    exact indexed.inside found
  apart := indexed.apart
  cache := indexed.cache

theorem setPage_flat (indexed : m.Indexed) {page slot : Nat}
    (index : m.index page = some slot) {p p' : Page}
    (found : m.pageAt page = some p) (bytes : p'.bytes = p.bytes) :
    (m.setPage slot p').flat = { m.flat with
      dirty := fun other =>
        if other = page then p'.dirty else m.flat.dirty other } := by
  have pageAt := pageAt_setPage indexed index p'
  apply Flat.ext
  · funext other
    change ((m.setPage slot p').pageAt other).isSome = (m.pageAt other).isSome
    rw [pageAt]
    split
    · rename_i same
      rw [same, found]
      rfl
    · rfl
  · funext other
    change (((m.setPage slot p').pageAt (pageOf other)).bind _).getD 0 =
      ((m.pageAt (pageOf other)).bind _).getD 0
    rw [pageAt]
    split
    · rename_i same
      rw [same, found, Option.bind_some, Option.bind_some, bytes]
    · rfl
  · funext other
    change (((m.setPage slot p').pageAt other).map (·.dirty)).getD false =
      if other = page then p'.dirty else ((m.pageAt other).map (·.dirty)).getD false
    rw [pageAt]
    split <;> rfl
  · change m.maxPages - (m.pages.set slot p').length = _
    rw [List.length_set]
    rfl
  · rfl
  · rfl

theorem dirty_of_pageAt {page : Nat} {p : Page}
    (found : m.pageAt page = some p) : m.flat.dirty page = p.dirty := by
  change ((m.pageAt page).map (·.dirty)).getD false = _
  rw [found]
  rfl

theorem markExecuted_refines (sound : m.Sound) (addr : UInt32) :
    m.Refines ((), m.markExecuted addr) ((), m.flat) ∧
      (m.markExecuted addr).codeGen = m.codeGen ∧
      (m.flat.mapped (pageOf addr) = true →
        ∃ p, (m.markExecuted addr).pageAt (pageOf addr) = some p ∧
          p.executed = true) := by
  obtain ⟨after, looked, alike, cache⟩ :=
    slot_spec sound.toIndexed (pageOf addr)
  have head := alike.refines sound cache ()
  rw [markExecuted, looked]
  cases index : m.index (pageOf addr) with
  | none =>
      refine ⟨head, alike.codeGen, fun mapped => ?_⟩
      rw [unmapped index] at mapped
      cases mapped
  | some slot =>
      obtain ⟨p, stored, page⟩ := sound.found index
      have index' : after.index (pageOf addr) = some slot := by
        rw [alike.index, index]
      have page' : after.pageAt (pageOf addr) = some p := by
        rw [alike.pageAt, page]
      simp only [alike.pages, stored]
      generalize marked : ({ p with executed := true } : Page) = p'
      have bytes : p'.bytes = p.bytes := by rw [← marked]
      have dirty : p'.dirty = p.dirty := by rw [← marked]
      have executed : p'.executed = true := by rw [← marked]
      have pageAt := pageAt_setPage head.sound.toIndexed index' p'
      have flat : (after.setPage slot p').flat = m.flat := by
        rw [setPage_flat head.sound.toIndexed index' page' bytes, alike.flat]
        apply Flat.ext <;> try rfl
        funext other
        change (if other = pageOf addr then p'.dirty else m.flat.dirty other) = _
        split
        · rename_i same
          rw [same, dirty, dirty_of_pageAt page]
        · rfl
      have evolves : after.Evolves (after.setPage slot p') :=
        evolves_of_pageAt page' pageAt (Nat.le_refl _) (fun _ => executed)
          (fun _ _ => bytes)
      refine ⟨⟨rfl, ⟨setPage_indexed head.sound.toIndexed slot p', ?_⟩, flat,
        head.evolves.trans evolves⟩, alike.codeGen, fun _ =>
          ⟨p', by rw [pageAt, if_pos rfl], executed⟩⟩
      rw [flat, ← sound.count]
      exact alike.watchDirty

theorem cleanPage_spec (indexed : m.Indexed) (page : Nat) :
    (m.cleanPage page).Indexed ∧
      (m.cleanPage page).flat = { m.flat with
        dirty := fun other =>
          if other = page then false else m.flat.dirty other } ∧
      m.Evolves (m.cleanPage page) := by
  rw [cleanPage]
  cases index : m.index page with
  | none =>
      refine ⟨indexed, ?_, .refl m⟩
      apply Flat.ext <;> try rfl
      funext other
      change m.flat.dirty other = if other = page then false else m.flat.dirty other
      split
      · rename_i same
        rw [same]
        change (((m.index page).bind _).map _).getD false = false
        rw [index]
        rfl
      · rfl
  | some slot =>
      obtain ⟨p, stored, found⟩ := indexed.found index
      simp only [stored]
      exact ⟨setPage_indexed indexed slot _, setPage_flat indexed index found rfl,
        evolves_of_pageAt found (pageAt_setPage indexed index _) (Nat.le_refl _)
          id (fun _ _ => rfl)⟩

theorem cleanPages_spec (indexed : m.Indexed) (page count : Nat) :
    (m.cleanPages page count).Indexed ∧
      (m.cleanPages page count).flat = { m.flat with
        dirty := fun other =>
          if page ≤ other ∧ other < page + count then false
          else m.flat.dirty other } ∧
      m.Evolves (m.cleanPages page count) := by
  induction count generalizing m page with
  | zero =>
      refine ⟨indexed, ?_, .refl m⟩
      apply Flat.ext <;> try rfl
      funext other
      exact (if_neg (by omega)).symm
  | succ count ih =>
      obtain ⟨indexed', flat', evolves'⟩ := cleanPage_spec indexed page
      obtain ⟨indexed'', flat'', evolves''⟩ := ih indexed' (page + 1)
      refine ⟨indexed'', ?_, evolves'.trans evolves''⟩
      rw [cleanPages, flat'', flat']
      apply Flat.ext <;> try rfl
      funext other
      change (if page + 1 ≤ other ∧ other < page + 1 + count then false
        else if other = page then false else m.flat.dirty other) =
        if page ≤ other ∧ other < page + (count + 1) then false
        else m.flat.dirty other
      by_cases inside : page ≤ other ∧ other < page + (count + 1)
      · rw [if_pos inside]
        split
        · rfl
        · rw [if_pos (by omega)]
      · rw [if_neg inside, if_neg (by omega), if_neg (by omega)]

theorem clearDirty_spec (indexed : m.Indexed) (addr : UInt32) (len : Nat) :
    (m.clearDirty addr len).Indexed ∧
      (m.clearDirty addr len).flat = m.flat.clearDirty addr len ∧
      m.Evolves (m.clearDirty addr len) := by
  rw [clearDirty]
  by_cases empty : len = 0
  · rw [if_pos empty]
    refine ⟨indexed, ?_, .refl m⟩
    apply Flat.ext <;> try rfl
    funext other
    exact (if_neg fun all => absurd all.1 (by omega)).symm
  · rw [if_neg empty]
    obtain ⟨indexed', flat', evolves'⟩ := cleanPages_spec indexed (pageOf addr)
      (lastPage addr len + 1 - pageOf addr)
    refine ⟨indexed', ?_, evolves'⟩
    rw [flat']
    apply Flat.ext <;> try rfl
    funext other
    change (if pageOf addr ≤ other ∧ other < _ then false else _) =
      if 0 < len ∧ pageOf addr ≤ other ∧ other ≤ lastPage addr len then false
      else m.flat.dirty other
    by_cases inside : pageOf addr ≤ other ∧ other ≤ lastPage addr len
    · rw [if_pos (by omega), if_pos ⟨Nat.pos_of_ne_zero empty, inside⟩]
    · rw [if_neg (by omega), if_neg fun all => inside all.2]

/-- What a loader does last: the pages of an image are clean from here on, and
their writes are counted. -/
def baseline (m : Mem) (addr : UInt32) (len : Nat) : Mem :=
  (m.clearDirty addr len).setWatch addr len

theorem baseline_refines (sound : m.Sound) (addr : UInt32) (len : Nat) :
    m.Refines ((), m.baseline addr len)
      ((), (m.flat.clearDirty addr len).setWatch addr len) := by
  obtain ⟨indexed, flat, evolves⟩ := clearDirty_spec sound.toIndexed addr len
  have flat' : (m.baseline addr len).flat =
      (m.flat.clearDirty addr len).setWatch addr len := by
    rw [← flat]
    rfl
  refine ⟨rfl, ⟨⟨indexed.inside, indexed.apart, indexed.cache⟩, ?_⟩, flat',
    ⟨evolves.later, evolves.code⟩⟩
  -- Every page that is watched has just been cleared.
  have none_dirty : ((m.flat.clearDirty addr len).setWatch addr len).watchedDirty =
      ∅ := by
    apply Finset.filter_eq_empty_iff.mpr
    intro page member dirty
    rw [Finset.mem_Ico] at member
    have bound := addr.toNat_lt
    have cleared : 0 < len ∧ pageOf addr ≤ page ∧ page ≤ lastPage addr len := by
      rw [lastPage]
      rw [pageOf, pageSize] at *
      omega
    change (if 0 < len ∧ pageOf addr ≤ page ∧ page ≤ lastPage addr len then false
      else m.flat.dirty page) = true at dirty
    rw [if_pos cleared] at dirty
    cases dirty
  rw [flat', none_dirty]
  rfl

theorem takeWriteSpread_refines (sound : m.Sound) :
    m.Refines m.takeWriteSpread m.flat.takeWriteSpread := by
  have flat : m.takeWriteSpread.2.flat = m.flat.takeWriteSpread.2 := by
    apply Flat.ext <;> try rfl
    funext i
    exact Nat.zero_testBit i
  refine ⟨rfl, ⟨⟨sound.inside, sound.apart, sound.cache⟩, ?_⟩, flat,
    ⟨Nat.le_refl _, fun {_ p} found executed => ⟨p, found, executed, fun _ => rfl⟩⟩⟩
  rw [flat]
  exact sound.count

/-! ## Questions -/

theorem atCapacity_eq (m : Mem) : m.atCapacity = m.flat.atCapacity := by
  have same : m.pages.length ≥ m.maxPages ↔ m.maxPages - m.pages.length = 0 :=
    Nat.sub_eq_zero_iff_le.symm
  rw [atCapacity, Flat.atCapacity, decide_eq_decide]
  exact same

theorem index_isSome_eq (indexed : m.Indexed) :
    (fun page => (m.index page).isSome) = m.flat.mapped :=
  funext (index_isSome indexed)

theorem isDirty_eq (m : Mem) (addr : UInt32) :
    m.isDirty addr = m.flat.dirty (pageOf addr) := by
  change _ = (((m.index (pageOf addr)).bind fun slot => m.pages[slot]?).map
    Page.dirty).getD false
  rw [isDirty]
  cases m.index (pageOf addr) <;> rfl

theorem new_sound (maxPages : Nat) :
    (new maxPages).Sound ∧ (new maxPages).flat = Flat.new maxPages := by
  have flat : (new maxPages).flat = Flat.new maxPages := by
    apply Flat.ext <;> try rfl
    funext i
    exact Nat.zero_testBit i
  refine ⟨⟨⟨?_, ?_, ?_⟩, ?_⟩, flat⟩
  · intro page slot found
    cases found
  · intro page other slot found
    cases found
  · intro filled
    cases filled
  · rw [flat]
    rfl

end Exav.Emu.Mem
