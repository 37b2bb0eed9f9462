import Exav.Emu.Mem

/-!
# Pages are flat memory

Whatever is mapped, written and cleared, pages behind an index and a lookup cache
answer as flat memory does and go on as it does.  No step changes code that was
fetched without advancing the counter.
-/

namespace Exav.Emu

theorem getElem?_overlay (bytes : Bytes) (off : Nat) (src : Bytes) (i : Nat) :
    (overlay bytes off src)[i]? =
      bytes[i]?.map fun b => if i < off then b else (src[i - off]?).getD b := by
  rw [overlay, List.getElem?_mapIdx]

namespace Mem

def pageAt (m : Mem) (page : Nat) : Option Page :=
  (m.index page).bind fun slot => m.pages[slot]?

def flat (m : Mem) : Flat where
  mapped page := (m.pageAt page).isSome
  byte addr := ((m.pageAt (pageOf addr)).bind (·.bytes[offsetOf addr]?)).getD 0
  dirty page := ((m.pageAt page).map (·.dirty)).getD false
  room := m.maxPages - m.pages.length
  watch := m.watch
  recent := m.recentPages.toNat.testBit

structure Indexed (m : Mem) : Prop where
  inside : ∀ {page slot}, m.index page = some slot → slot < m.pages.length
  apart : ∀ {page other slot}, m.index page = some slot →
    m.index other = some slot → page = other
  cache : m.cached = true → m.index m.cachePage = some m.cacheSlot

structure Sound (m : Mem) : Prop extends Indexed m where
  count : m.watchDirty = m.flat.watchedDirty.card

/-- Code that was fetched is still there, or the counter has advanced. -/
structure Evolves (m after : Mem) : Prop where
  later : m.codeGen ≤ after.codeGen
  code : ∀ {page p}, m.pageAt page = some p → p.executed = true →
    ∃ p', after.pageAt page = some p' ∧ p'.executed = true ∧
      (after.codeGen = m.codeGen → p'.bytes = p.bytes)

/-- An operation answers as one on flat memory, and leaves what that leaves. -/
structure Refines {α : Type} (m : Mem) (out : α × Mem) (spec : α × Flat) :
    Prop where
  same : out.1 = spec.1
  sound : out.2.Sound
  flat : out.2.flat = spec.2
  evolves : m.Evolves out.2

variable {m after : Mem}

namespace Evolves

theorem refl (m : Mem) : m.Evolves m where
  later := Nat.le_refl _
  code {_ p} found executed := ⟨p, found, executed, fun _ => rfl⟩

theorem trans {last : Mem} (first : m.Evolves after)
    (second : after.Evolves last) : m.Evolves last where
  later := Nat.le_trans first.later second.later
  code {page p} found executed := by
    obtain ⟨p', found', executed', kept'⟩ := first.code found executed
    obtain ⟨p'', found'', executed'', kept''⟩ := second.code found' executed'
    refine ⟨p'', found'', executed'', fun still => ?_⟩
    have early := first.later
    have late := second.later
    rw [kept'' (by omega), kept' (by omega)]

end Evolves

theorem Refines.pure {α : Type} (sound : m.Sound) (a : α) :
    m.Refines (a, m) (a, m.flat) where
  same := rfl
  sound := sound
  flat := rfl
  evolves := .refl m

/-- What the first step leaves is where the second begins. -/
theorem Refines.followedBy {α β : Type} {first : α × Mem} {spec : α × Flat}
    {out : β × Mem} {last : β × Flat} (before : m.Refines first spec)
    (onwards : first.2.Refines out last) : m.Refines out last where
  same := onwards.same
  sound := onwards.sound
  flat := onwards.flat
  evolves := before.evolves.trans onwards.evolves

/-! ## Looking a page up -/

/-- All but the lookup cache is as before. -/
structure Alike (m after : Mem) : Prop where
  pages : after.pages = m.pages
  index : after.index = m.index
  maxPages : after.maxPages = m.maxPages
  watch : after.watch = m.watch
  watchDirty : after.watchDirty = m.watchDirty
  codeGen : after.codeGen = m.codeGen
  recentPages : after.recentPages = m.recentPages

namespace Alike

theorem refl (m : Mem) : m.Alike m := ⟨rfl, rfl, rfl, rfl, rfl, rfl, rfl⟩

theorem pageAt (alike : m.Alike after) : after.pageAt = m.pageAt := by
  funext page
  rw [Mem.pageAt, Mem.pageAt, alike.index, alike.pages]

theorem flat (alike : m.Alike after) : after.flat = m.flat := by
  rw [Mem.flat, Mem.flat, alike.pageAt, alike.maxPages, alike.pages, alike.watch,
    alike.recentPages]

theorem evolves (alike : m.Alike after) : m.Evolves after where
  later := Nat.le_of_eq alike.codeGen.symm
  code {_ p} found executed :=
    ⟨p, by rw [alike.pageAt, found], executed, fun _ => rfl⟩

theorem indexed (alike : m.Alike after) (indexed : m.Indexed)
    (cache : after.cached = true →
      m.index after.cachePage = some after.cacheSlot) : after.Indexed where
  inside found := by
    rw [alike.index] at found
    rw [alike.pages]
    exact indexed.inside found
  apart found other := by
    rw [alike.index] at found other
    exact indexed.apart found other
  cache filled := by
    rw [alike.index]
    exact cache filled

theorem refines {α : Type} (alike : m.Alike after) (sound : m.Sound)
    (cache : after.cached = true →
      m.index after.cachePage = some after.cacheSlot) (a : α) :
    m.Refines (a, after) (a, m.flat) where
  same := rfl
  sound := {
    alike.indexed sound.toIndexed cache with
    count := by
      rw [alike.watchDirty, alike.flat]
      exact sound.count }
  flat := alike.flat
  evolves := alike.evolves

end Alike

theorem slot_spec (indexed : m.Indexed) (page : Nat) :
    ∃ after, m.slot page = (m.index page, after) ∧ m.Alike after ∧
      (after.cached = true →
        m.index after.cachePage = some after.cacheSlot) := by
  rw [slot]
  by_cases hit : m.cached = true ∧ m.cachePage = page
  · have found := indexed.cache hit.1
    rw [hit.2] at found
    refine ⟨m, ?_, .refl m, indexed.cache⟩
    rw [if_pos hit, found]
  · rw [if_neg hit]
    cases found : m.index page with
    | none => exact ⟨m, rfl, .refl m, indexed.cache⟩
    | some slot =>
        exact ⟨_, rfl, ⟨rfl, rfl, rfl, rfl, rfl, rfl, rfl⟩, fun _ => found⟩

namespace Indexed

theorem found (indexed : m.Indexed) {page slot : Nat}
    (index : m.index page = some slot) :
    ∃ p, m.pages[slot]? = some p ∧ m.pageAt page = some p := by
  have bound := indexed.inside index
  refine ⟨m.pages[slot], List.getElem?_eq_getElem bound, ?_⟩
  rw [pageAt, index, Option.bind_some, List.getElem?_eq_getElem bound]

theorem mapped (indexed : m.Indexed) {page slot : Nat}
    (index : m.index page = some slot) : m.flat.mapped page = true := by
  obtain ⟨p, _, page⟩ := indexed.found index
  change (m.pageAt _).isSome = true
  rw [page]
  rfl

end Indexed

theorem unmapped {page : Nat} (index : m.index page = none) :
    m.flat.mapped page = false := by
  change (m.pageAt page).isSome = false
  rw [pageAt, index]
  rfl

theorem byte_of_pageAt {p : Page} {addr : UInt32}
    (page : m.pageAt (pageOf addr) = some p) :
    p.bytes[offsetOf addr]? = some (m.flat.byte addr) := by
  have bound : offsetOf addr < p.bytes.length := by
    rw [p.size]
    exact offsetOf_lt addr
  change _ = some (((m.pageAt (pageOf addr)).bind _).getD 0)
  rw [page, Option.bind_some, List.getElem?_eq_getElem bound]
  rfl

theorem read_eq_bytes {p : Page} {addr : UInt32}
    (page : m.pageAt (pageOf addr) = some p) {len : Nat}
    (fits : offsetOf addr + len ≤ pageSize) :
    p.read (offsetOf addr) len = m.flat.bytes addr len := by
  apply List.ext_getElem?
  intro i
  rw [Flat.getElem?_bytes, Page.read]
  by_cases inside : i < len
  · obtain ⟨samePage, off⟩ := @inside_page addr i (by omega)
    rw [if_pos inside, getElem?_window _ inside, ← off]
    exact byte_of_pageAt (by rwa [samePage])
  · rw [if_neg inside, List.getElem?_eq_none]
    rw [length_window]
    omega

/-! ## Changing a page -/

theorem pageAt_setPage (indexed : m.Indexed) {page slot : Nat}
    (index : m.index page = some slot) (p : Page) (other : Nat) :
    (m.setPage slot p).pageAt other =
      if other = page then some p else m.pageAt other := by
  have bound := indexed.inside index
  change (m.index other).bind (fun slot' => (m.pages.set slot p)[slot']?) = _
  by_cases same : other = page
  · rw [if_pos same, same, index, Option.bind_some,
      List.getElem?_set_self bound]
  · rw [if_neg same, pageAt]
    cases found : m.index other with
    | none => rfl
    | some slot' =>
        have apart : slot ≠ slot' := by
          rintro rfl
          exact same (indexed.apart found index)
        rw [Option.bind_some, Option.bind_some, List.getElem?_set_ne apart]

theorem evolves_of_pageAt {page : Nat} {p p' : Page}
    (found : m.pageAt page = some p)
    (changed : ∀ other, after.pageAt other =
      if other = page then some p' else m.pageAt other)
    (later : m.codeGen ≤ after.codeGen)
    (executed : p.executed = true → p'.executed = true)
    (kept : p.executed = true → after.codeGen = m.codeGen →
      p'.bytes = p.bytes) : m.Evolves after where
  later := later
  code {other q} stored fetched := by
    by_cases same : other = page
    · rw [same, found] at stored
      cases stored
      exact ⟨p', by rw [changed, if_pos same], executed fetched, kept fetched⟩
    · exact ⟨q, by rw [changed, if_neg same, stored], fetched, fun _ => rfl⟩

def watchedOne (watch : Option (Nat × Nat)) (page : Nat) : Nat :=
  match watch with
  | some (lo, hi) => if lo ≤ page ∧ page < hi then 1 else 0
  | none => 0

theorem card_watchedDirty_set {f : Flat} {page : Nat}
    (clean : f.dirty page = false) (g : Flat) (watch : g.watch = f.watch)
    (dirty : g.dirty = fun other =>
      if other = page then true else f.dirty other) :
    g.watchedDirty.card = f.watchedDirty.card +
      watchedOne f.watch page := by
  rw [Flat.watchedDirty, Flat.watchedDirty, watch, dirty]
  cases f.watch with
  | none => rfl
  | some range =>
      obtain ⟨lo, hi⟩ := range
      change ((Finset.Ico lo hi).filter fun other =>
        (if other = page then true else f.dirty other) = true).card =
        ((Finset.Ico lo hi).filter fun other => f.dirty other = true).card +
          if lo ≤ page ∧ page < hi then 1 else 0
      by_cases inside : lo ≤ page ∧ page < hi
      · have split : (Finset.Ico lo hi).filter (fun other =>
            (if other = page then true else f.dirty other) = true) =
            insert page ((Finset.Ico lo hi).filter fun other =>
              f.dirty other = true) := by
          ext other
          simp only [Finset.mem_filter, Finset.mem_Ico, Finset.mem_insert]
          by_cases same : other = page
          · simp [same, inside]
          · simp [same]
        have fresh : page ∉ (Finset.Ico lo hi).filter fun other =>
            f.dirty other = true := by
          simp [clean]
        rw [if_pos inside, split, Finset.card_insert_of_notMem fresh]
      · have kept : (Finset.Ico lo hi).filter (fun other =>
            (if other = page then true else f.dirty other) = true) =
            (Finset.Ico lo hi).filter fun other => f.dirty other = true := by
          apply Finset.filter_congr
          intro other member
          rw [Finset.mem_Ico] at member
          have apart : other ≠ page := by
            rintro rfl
            exact inside member
          rw [if_neg apart]
        rw [if_neg inside, kept, Nat.add_zero]

theorem countDirty_eq (m : Mem) (page : Nat) :
    m.countDirty page = { m with
      dirtyPages := m.dirtyPages + 1
      watchDirty := m.watchDirty + watchedOne m.watch page } := by
  unfold countDirty
  cases watched : m.watch with
  | none => rfl
  | some range =>
      by_cases inside : range.1 ≤ page ∧ page < range.2
      · simp only [watchedOne, if_pos inside]
      · simp only [watchedOne, if_neg inside, Nat.add_zero]

theorem testBit_recent (recent : UInt64) (page i : Nat) :
    (recent ||| (1 <<< UInt64.ofNat (page % 64))).toNat.testBit i =
      if i = page % 64 then true else recent.toNat.testBit i := by
  have small : page % 64 < 64 := Nat.mod_lt _ (by decide)
  have bit : ((1 : UInt64) <<< UInt64.ofNat (page % 64)).toNat =
      2 ^ (page % 64) := by
    have bound : 2 ^ (page % 64) < 2 ^ 64 :=
      Nat.pow_lt_pow_right (by decide) small
    have shift : page % 64 % 2 ^ 64 % 64 = page % 64 := by omega
    rw [UInt64.toNat_shiftLeft, UInt64.toNat_ofNat', shift, Nat.shiftLeft_eq]
    exact (congrArg (· % 2 ^ 64) (Nat.one_mul _)).trans (Nat.mod_eq_of_lt bound)
  rw [UInt64.toNat_or, bit, Nat.testBit_or, Nat.testBit_two_pow]
  by_cases same : i = page % 64
  · rw [if_pos same, same, decide_eq_true rfl, Bool.or_true]
  · rw [if_neg same, decide_eq_false (Ne.symm same), Bool.or_false]

/-- A page is written: the bytes, its mark, the counter of code and the count of
pages watched. -/
theorem writePage_refines (sound : m.Sound) {page slot : Nat}
    (index : m.index page = some slot) (off : Nat) (src : Bytes) :
    m.Refines ((), m.writePage slot page off src)
      ((), m.flat.overlayPage page off src) := by
  obtain ⟨p, stored, found⟩ := sound.found index
  have changed := pageAt_setPage sound.toIndexed index (p.write off src)
  -- What is common to a page that was dirty and one that was not.
  obtain ⟨written, whole, pages, index', maxPages, watch, gen, recent, cache,
      count⟩ :
      ∃ written : Mem, m.writePage slot page off src = written ∧
        written.pages = (m.setPage slot (p.write off src)).pages ∧
        written.index = m.index ∧ written.maxPages = m.maxPages ∧
        written.watch = m.watch ∧
        written.codeGen = (if p.executed then m.codeGen + 1 else m.codeGen) ∧
        written.recentPages =
          (m.recentPages ||| (1 <<< UInt64.ofNat (page % 64))) ∧
        (written.cached = true →
          m.index written.cachePage = some written.cacheSlot) ∧
        written.watchDirty = m.watchDirty +
          if p.dirty then 0 else watchedOne m.watch page := by
    rw [writePage, stored]
    by_cases dirty : p.dirty = true
    · simp only [dirty, if_true]
      exact ⟨_, rfl, rfl, rfl, rfl, rfl, rfl, rfl, sound.cache, rfl⟩
    · simp only [dirty]
      rw [if_neg Bool.false_ne_true, countDirty_eq]
      exact ⟨_, rfl, rfl, rfl, rfl, rfl, rfl, rfl, sound.cache, rfl⟩
  have pageAt : ∀ other, written.pageAt other =
      if other = page then some (p.write off src) else m.pageAt other := by
    intro other
    rw [← changed other, Mem.pageAt, index', pages]
    rfl
  have length : written.pages.length = m.pages.length := by
    rw [pages]
    exact List.length_set
  have flat : written.flat = m.flat.overlayPage page off src := by
    apply Flat.ext
    · funext other
      change (written.pageAt other).isSome = (m.pageAt other).isSome
      rw [pageAt]
      split
      · rename_i same
        rw [same, found]
        rfl
      · rfl
    · funext other
      change ((written.pageAt (pageOf other)).bind _).getD 0 =
        if pageOf other = page ∧ off ≤ offsetOf other then _ else _
      rw [pageAt]
      by_cases same : pageOf other = page
      · have stored' := @byte_of_pageAt _ _ other (by rw [same, found])
        rw [if_pos same, Option.bind_some, Page.write, getElem?_overlay, stored',
          Option.map_some, Option.getD_some]
        by_cases before : offsetOf other < off
        · rw [if_pos before, if_neg fun both => absurd both.2 (by omega)]
        · rw [if_neg before, if_pos ⟨same, by omega⟩]
      · rw [if_neg same, if_neg fun both => same both.1]
        rfl
    · funext other
      change ((written.pageAt other).map (·.dirty)).getD false =
        if other = page then true else ((m.pageAt other).map (·.dirty)).getD false
      rw [pageAt]
      split <;> rfl
    · change written.maxPages - written.pages.length = _
      rw [maxPages, length]
      rfl
    · exact watch
    · funext i
      change written.recentPages.toNat.testBit i =
        if i = page % 64 then true else m.recentPages.toNat.testBit i
      rw [recent, testBit_recent]
  rw [whole]
  refine ⟨rfl, ?_, flat, ?_⟩
  · refine ⟨⟨?_, ?_, ?_⟩, ?_⟩
    · intro other slot' stored'
      rw [index'] at stored'
      rw [length]
      exact sound.inside stored'
    · intro other other' slot' stored' stored''
      rw [index'] at stored' stored''
      exact sound.apart stored' stored''
    · rw [index']
      exact cache
    · have clean : m.flat.dirty page = p.dirty := by
        change ((m.pageAt page).map (·.dirty)).getD false = _
        rw [found]
        rfl
      rw [flat, count]
      cases dirty : p.dirty with
      | false =>
          have more := card_watchedDirty_set (clean.trans dirty)
            (m.flat.overlayPage page off src) rfl rfl
          rw [more, ← sound.count]
          rfl
      | true =>
          have same : m.flat.overlayPage page off src =
              { m.flat.overlayPage page off src with dirty := m.flat.dirty } := by
            apply Flat.ext <;> try rfl
            funext other
            change (if other = page then true else m.flat.dirty other) =
              m.flat.dirty other
            split
            · rename_i here
              rw [here, clean, dirty]
            · rfl
          rw [same, if_pos rfl, Nat.add_zero, sound.count]
          rfl
  · refine evolves_of_pageAt found pageAt ?_ id ?_
    · rw [gen]
      split <;> omega
    · intro executed still
      rw [gen, if_pos executed] at still
      omega

end Mem

end Exav.Emu
