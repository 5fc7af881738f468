import AggreKV.HashKv.TpageOwnership

/-! # No mapped translation page is lost

    A page with mapped entries is cached and dirty, or its flash copy is
    newer than its last update. The copies themselves are the subject of
    `TpageOwnership`.

    * `Covered E`: each mapped page is dirty or has a current copy, the
      pages `E` excepted.
    * `updatesCached`: an entry that was parked behind the residency check
      of `_do_wb_mapping_update` finds its page still cached. -/

namespace AggreKV.HashKv

variable {cfg : Settings} {hs : Hashing}

/-! ## Section 1: The invariant -/

def Covered (E : Nat → Prop) (c : Cold) : Prop :=
  ∀ lpa, ¬E (dIdx lpa) → (c.memTable lpa).ppa ≠ none →
    (c.cmt (dIdx lpa)).dirty = true ∨
      (c.copy (dIdx lpa) ≠ none ∧ c.copyCurrent (dIdx lpa) = true)

def DirtyCached (c : Cold) : Prop := ∀ page, (c.cmt page).dirty = true → (c.cmt page).pt = true

/-- The store keeps every mapped page. -/
structure Store.Retains (cfg : Settings) (E : Nat → Prop) (s : Store) : Prop where
  tidy : s.Tidy cfg
  covered : Covered E s.cold
  cached : DirtyCached s.cold

section

variable {E : Nat → Prop} {c c' : Cold}

/-- The mappings and their copies are all that counts. -/
theorem Covered.congr (h : Covered E c) (hc : SameCopies c c') : Covered E c' := by
  intro lpa hE hm
  rw [hc.memTable] at hm
  rw [hc.dirty, hc.copy, hc.copyCurrent]
  exact h lpa hE hm

/-- And the pages that are cached. -/
theorem DirtyCached.congr (h : DirtyCached c) (hc : SameCopies c c')
    (hpt : ∀ page, (c.cmt page).pt = true → (c'.cmt page).pt = true) : DirtyCached c' := by
  intro page hd
  rw [hc.dirty] at hd
  exact hpt page (h page hd)

/-- An access drops no page. -/
theorem DirtyCached.access (h : DirtyCached c) (hc : SameCopies c c') (hr : SameResidence c c') :
    DirtyCached c' :=
  h.congr hc fun page hp => (hr.pt page).trans hp

/-- An update dirties its own page only. -/
theorem update_cmt (c : Cold) (pte : Pte) {lpa page : Nat} (hp : page ≠ dIdx lpa) :
    (c.update lpa pte).cmt page = c.cmt page := by
  unfold Cold.update
  dsimp only
  split
  · exact (Cold.cmt_setCmt ..).trans (if_neg hp)
  · rfl

/-- An update makes a cached page dirty. -/
theorem Covered.update (h : Covered E c) {lpa : Nat} {pte : Pte}
    (hpt : (c.cmt (dIdx lpa)).pt = true) : Covered E (c.update lpa pte) := by
  intro l hE hm
  by_cases hp : dIdx l = dIdx lpa
  · refine Or.inl ?_
    rw [hp]
    unfold Cold.update
    dsimp only
    rw [if_pos hpt]
    show ((Cold.setCmt _ (dIdx lpa) _).cmt (dIdx lpa)).dirty = true
    rw [Cold.cmt_setCmt, if_pos rfl]
  · have hl : l ≠ lpa := fun he => hp (by rw [he])
    have hcur : (c.update lpa pte).copyCurrent (dIdx l) = c.copyCurrent (dIdx l) := by
      unfold Cold.update
      dsimp only
      split <;> exact Function.update_of_ne hp ..
    rw [Cold.update_memTable, Function.update_of_ne hl] at hm
    unfold Cold.copy
    rw [update_cmt c pte hp, hcur]
    exact h l hE hm

/-- A page that is updated in the cache. -/
theorem DirtyCached.update (h : DirtyCached c) {lpa : Nat} {pte : Pte}
    (hpt : (c.cmt (dIdx lpa)).pt = true) : DirtyCached (c.update lpa pte) := by
  intro page hd
  rw [(SameResidence.update c lpa pte).pt]
  by_cases hp : page = dIdx lpa
  · rw [hp]
    exact hpt
  · rw [update_cmt c pte hp] at hd
    exact h page hd

/-- A page that is written back is no longer excepted. -/
theorem Covered.written (h : Covered E c) (hm : Moved c c') (page ppa : Nat) :
    Covered (fun q => E q ∧ q ≠ page) (c'.written page ppa) := by
  intro lpa hE hmap
  by_cases hp : dIdx lpa = page
  · refine Or.inr ⟨?_, ?_⟩
    · rw [Cold.copy_written, hp, Function.update_self]
      exact Option.some_ne_none _
    · show Function.update c'.copyCurrent page true (dIdx lpa) = true
      rw [hp, Function.update_self]
  · have hmap' : (c.memTable lpa).ppa ≠ none := by
      rw [← hm.memTable]
      exact hmap
    obtain ⟨t, ht, -⟩ := hm.cmt (dIdx lpa)
    have hd : ((c'.written page ppa).cmt (dIdx lpa)).dirty = (c.cmt (dIdx lpa)).dirty := by
      show ((c'.setCmt page _).cmt (dIdx lpa)).dirty = _
      rw [Cold.cmt_setCmt, if_neg hp, ht]
    have hcur : (c'.written page ppa).copyCurrent (dIdx lpa) = c.copyCurrent (dIdx lpa) := by
      show Function.update c'.copyCurrent page true (dIdx lpa) = _
      rw [Function.update_of_ne hp, hm.copyCurrent]
    have hcov := h lpa (fun he => hE ⟨he, hp⟩) hmap'
    rw [hd, hcur, Cold.copy_written, Function.update_of_ne hp]
    exact hcov.imp_right fun ⟨hc, hcc⟩ => ⟨fun hn => hc ((hm.copy_eq_none _).mp hn), hcc⟩

/-- Only the page written back may have been dirty without being cached. -/
theorem DirtyCached.written {page : Nat} (h : ∀ q, q ≠ page → (c.cmt q).dirty = true →
    (c.cmt q).pt = true) (hm : Moved c c') (ppa : Nat) : DirtyCached (c'.written page ppa) := by
  intro q hd
  have hd' : ((c'.setCmt page _).cmt q).dirty = true := hd
  show ((c'.setCmt page _).cmt q).pt = true
  rw [Cold.cmt_setCmt] at hd' ⊢
  split at hd'
  · cases hd'
  · next hne =>
    rw [if_neg hne]
    obtain ⟨t, ht, -⟩ := hm.cmt q
    rw [ht] at hd' ⊢
    exact h q hne hd'

/-- More pages may be excepted. -/
theorem Covered.mono {E' : Nat → Prop} (h : Covered E c) (hE : ∀ page, E page → E' page) :
    Covered E' c :=
  fun lpa hn => h lpa fun he => hn (hE _ he)

end

/-! ## Section 2: The cache and the mapping update -/

/-- Accesses lose no mapping. -/
theorem accessInvariant_retains (cfg : Settings) (E : Nat → Prop) :
    AccessInvariant cfg (Store.Retains cfg E) where
  hot lpa h := ⟨(accessInvariant_tidy cfg).hot lpa h.tidy, h.covered, h.cached⟩
  grain {s} lpa h := by
    have hc := SameCopies.coldGrainAccess s.cold lpa
    exact ⟨(accessInvariant_tidy cfg).grain lpa h.tidy, h.covered.congr hc,
      h.cached.access hc (.coldGrainAccess _ lpa)⟩
  touch {s} lpa h := by
    have hc := SameCopies.touch cfg s.cold lpa
    exact ⟨(accessInvariant_tidy cfg).touch lpa h.tidy, h.covered.congr hc,
      h.cached.access hc (.touch cfg _ lpa)⟩
  load lpa h hl := by
    have hc := SameCopies.load hl
    exact ⟨(accessInvariant_tidy cfg).load lpa h.tidy hl, h.covered.congr hc,
      h.cached.access hc (.load hl)⟩

/-- The victim leaves the cache clean or is written. -/
theorem Store.Retains.evictPage {E : Nat → Prop} {s s' : Store} {victim : Nat}
    (h : s.Retains cfg E) (hw : (s.unload victim).writeBack cfg victim = some s') :
    s'.Retains cfg E := by
  have hu : (s.unload victim).Tidy cfg := h.tidy.setTables _ (.unload s victim)
  have hcov := h.covered.congr (.unload s victim)
  have hcached : ∀ q, q ≠ victim → ((s.unload victim).cold.cmt q).dirty = true →
      ((s.unload victim).cold.cmt q).pt = true := fun q hq hd => by
    have hcmt : (s.unload victim).cold.cmt q = s.cold.cmt q := by
      unfold Store.unload
      exact (Cold.cmt_setCmt ..).trans (if_neg hq)
    rw [hcmt] at hd ⊢
    exact h.cached q hd
  unfold Store.writeBack at hw
  split at hw
  -- A dirty victim is written.
  · next hd =>
    obtain ⟨ht, c, ppa, hmoved, hcold⟩ := hu.writeTpage (hu.clean victim hd) hw
    refine ⟨ht, ?_, ?_⟩
    · rw [hcold]
      exact (hcov.written hmoved victim ppa).mono fun _ hE => hE.1
    · rw [hcold]
      exact .written hcached hmoved ppa
  · next hd =>
    cases hw
    refine ⟨hu, hcov, fun q hq => ?_⟩
    by_cases hqv : q = victim
    · rw [hqv] at hq
      exact absurd hq hd
    · exact hcached q hqv hq

/-- Neither does `dftl_cache_list_up`. -/
theorem listUpInvariant_retains (cfg : Settings) (E : Nat → Prop) :
    ListUpInvariant cfg (Store.Retains cfg E) where
  promote {s} page h := by
    have hc := SameCopies.promoteHot s page
    exact ⟨(listUpInvariant_tidy cfg).promote page h.tidy, h.covered.congr hc,
      h.cached.access hc (.promoteHot _ page)⟩
  pop {s} victim lru h := by
    have hc := SameCopies.pop s.cold victim lru
    refine ⟨(listUpInvariant_tidy cfg).pop victim lru h.tidy, h.covered.congr hc,
      h.cached.congr hc fun page hp => ?_⟩
    show ((s.cold.setCmt victim _).cmt page).pt = true
    rw [Cold.cmt_setCmt]
    split
    · next he => exact he ▸ hp
    · exact hp
  count n h := ⟨(listUpInvariant_tidy cfg).count n h.tidy, h.covered, h.cached⟩
  evictPage _ h hw := h.evictPage hw
  afterEvict {s} victim choice h := by
    have hc := @SameCopies.afterEvict cfg s victim choice
    exact ⟨(listUpInvariant_tidy cfg).afterEvict victim choice h.tidy, h.covered.congr hc,
      h.cached.congr hc fun page hp => (afterEvict_pt _ victim choice page).trans hp⟩
  resident {s} page h := by
    have hc := SameCopies.makeResident s page
    refine ⟨(listUpInvariant_tidy cfg).resident page h.tidy, h.covered.congr hc,
      h.cached.congr hc fun q hq => ?_⟩
    show ((s.cold.setCmt page _).cmt q).pt = true
    rw [Cold.cmt_setCmt]
    split
    · rfl
    · exact hq

/-- Neither does a mapping update, which writes the pages it changes. -/
theorem mappingInvariant_retains (cfg : Settings) : MappingInvariant cfg (cfg.dataGrain ≤ ·)
    fun E s => s.Retains cfg E ∧ ∀ page, E page → s.cold.copy page = none where
  isHit {E s} lpa h := by
    have ht := (mappingInvariant_tidy cfg).isHit lpa ⟨h.1.tidy, h.2⟩
    have hc := SameCopies.isHit cfg s.cold lpa
    exact ⟨⟨ht.1, h.1.covered.congr hc, h.1.cached.access hc (.isHit cfg _ lpa)⟩, ht.2⟩
  update {E s} lpa ppa hq hr h := by
    have ht := (mappingInvariant_tidy cfg).update lpa ppa hq hr ⟨h.1.tidy, h.2⟩
    have hpt : (s.cold.cmt (dIdx lpa)).pt = true := by
      unfold Cmt.isResident at hr
      exact (Bool.and_eq_true _ _ ▸ hr).1
    exact ⟨⟨ht.1, h.1.covered.update hpt, h.1.cached.update hpt⟩, ht.2⟩
  dropCopy {E s} page hr h := by
    have ht := (mappingInvariant_tidy cfg).dropCopy page hr ⟨h.1.tidy, h.2⟩
    -- Only the copy is given up, the page stays as dirty as it was.
    have hsame : (s.dropCopy cfg page).cold.memTable = s.cold.memTable ∧
        (s.dropCopy cfg page).cold.copyCurrent = s.cold.copyCurrent ∧
        ∀ q, ((s.dropCopy cfg page).cold.cmt q).dirty = (s.cold.cmt q).dirty := by
      unfold Store.dropCopy
      split
      · exact ⟨rfl, rfl, fun _ => rfl⟩
      · refine ⟨rfl, rfl, fun q => ?_⟩
        show ((s.cold.setCmt page _).cmt q).dirty = _
        rw [Cold.cmt_setCmt]
        split
        · next he => rw [he]
        · rfl
    refine ⟨⟨ht.1, fun lpa hE hm => ?_, fun q hq => ?_⟩, ht.2⟩
    · rw [not_or] at hE
      rw [hsame.1] at hm
      rw [hsame.2.2, hsame.2.1, (h.1.tidy.dropCopy page).2, Function.update_of_ne hE.2]
      exact h.1.covered lpa hE.1 hm
    · rw [hsame.2.2] at hq
      rw [(SameResidence.dropCopy cfg s page).pt]
      exact h.1.cached q hq
  relocate {E s} lpa ppa hq hE h := by
    have ht := (mappingInvariant_tidy cfg).relocate lpa ppa hq hE ⟨h.1.tidy, h.2⟩
    refine ⟨⟨ht.1, fun l hl hm => ?_, h.1.cached⟩, ht.2⟩
    -- The page moved is excused, the others keep their slots.
    have hp : dIdx l ≠ dIdx lpa := fun he => hl (he ▸ hE)
    have hne : l ≠ lpa := fun he => hp (by rw [he])
    have hm' : (Function.update s.cold.memTable lpa
      { s.cold.getPte lpa with ppa := some ppa } l).ppa ≠ none := hm
    rw [Function.update_of_ne hne] at hm'
    have hcur : (s.cold.relocate lpa ppa).copyCurrent (dIdx l) = s.cold.copyCurrent (dIdx l) :=
      Function.update_of_ne hp ..
    rw [hcur]
    exact h.1.covered l hl hm'
  write {E s s'} page hE h hw := by
    have ht := (mappingInvariant_tidy cfg).write page hE ⟨h.1.tidy, h.2⟩ hw
    obtain ⟨-, c, ppa, hmoved, hcold⟩ := h.1.tidy.writeTpage (h.2 page hE) hw
    refine ⟨⟨ht.1, ?_, ?_⟩, ht.2⟩
    · rw [hcold]
      exact h.1.covered.written hmoved page ppa
    · rw [hcold]
      exact .written (fun q _ hd => h.1.cached q hd) hmoved ppa

/-! ## Section 3: Ghosts are not cached -/

def Unmarked (c : Cold) : Prop := ∀ page, (c.cmt page).ghostMark = true → (c.cmt page).pt = false

/-- The ghosts stay ghosts. -/
theorem SameResidence.unmarked {c c' : Cold} (h : SameResidence c c') (hu : Unmarked c) :
    Unmarked c' := by
  intro page hg
  rw [h.ghostMark] at hg
  rw [h.pt]
  exact hu page hg

theorem popInvariant_unmarked (cfg : Settings) :
    PopInvariant cfg fun s => Unmarked s.cold where
  promote page h := (SameResidence.promoteHot _ page).unmarked h
  pop {s} victim lru h := by
    intro page hg
    have hg' : ((s.cold.setCmt victim _).cmt page).ghostMark = true := hg
    show ((s.cold.setCmt victim _).cmt page).pt = false
    rw [Cold.cmt_setCmt] at hg' ⊢
    split at hg'
    · next he =>
      rw [if_pos he]
      exact h victim hg'
    · next hne =>
      rw [if_neg hne]
      exact h page hg'
  count _ h := h

/-- An eviction marks its victim, which has left the cache. -/
theorem Unmarked.afterEvict {s : Store} (h : Unmarked s.cold) {victim : Nat}
    (hpt : (s.cold.cmt victim).pt = false) (choice : Rebalance) :
    Unmarked (s.afterEvict cfg victim choice).cold := by
  have hmark : Unmarked (s.cold.setCmt victim { s.cold.cmt victim with ghostMark := true }) := by
    intro page hg
    rw [Cold.cmt_setCmt] at hg ⊢
    split at hg
    · next he =>
      rw [if_pos he]
      exact hpt
    · next hne =>
      rw [if_neg hne]
      exact h page hg
  unfold Store.afterEvict
  split
  · dsimp only
    split
    · split
      · unfold Unmarked
        rw [tryRebalance_cmt]
        exact hmark
      · exact hmark
    · exact hmark
  · exact h

/-- A page that comes in is no ghost, one that goes out may become one. -/
theorem Unmarked.listUp {s s' : Store} (h : Unmarked s.cold) {lpa : Nat} {choice : Rebalance}
    {rc : Bool} (hl : s.listUp cfg lpa choice = some (rc, s')) : Unmarked s'.cold := by
  obtain ⟨⟨rc', s₁⟩, he, hm⟩ := Option.map_eq_some_iff.mp hl
  cases hm
  have h₁ : Unmarked s₁.cold := by
    split at he
    · unfold Store.evict at he
      simp only [Option.bind_eq_bind, Option.bind_eq_some_iff, Option.pure_def, Option.some.injEq,
        Prod.mk.injEq] at he
      obtain ⟨⟨victim, s₂⟩, hpop, s₃, hw, -, rfl⟩ := he
      have h₂ : Unmarked s₂.cold := (popInvariant_unmarked cfg).popVictim
        ((popInvariant_unmarked cfg).count _ h) hpop
      have hres := SameResidence.writeBack hw
      have hunload : ∀ page, ((s₂.unload victim).cold.cmt page) =
          if page = victim then { s₂.cold.cmt victim with pt := false } else s₂.cold.cmt page :=
        fun page => Cold.cmt_setCmt ..
      refine Unmarked.afterEvict (hres.unmarked fun page hg => ?_) ?_ choice
      · rw [hunload] at hg ⊢
        split at hg
        -- The page that comes in loses its mark.
        · next he =>
          rw [if_pos he]
        · next hne =>
          rw [if_neg hne]
          exact h₂ page hg
      · rw [hres.pt, hunload, if_pos rfl]
    · cases he
      exact h
  intro page hg
  have hg' : ((s₁.cold.setCmt (dIdx lpa) _).cmt page).ghostMark = true := hg
  show ((s₁.cold.setCmt (dIdx lpa) _).cmt page).pt = false
  rw [Cold.cmt_setCmt] at hg' ⊢
  split at hg'
  · cases hg'
  · next hne =>
    rw [if_neg hne]
    exact h₁ page hg'

theorem accessInvariant_unmarked (cfg : Settings) :
    AccessInvariant cfg fun s => Unmarked s.cold where
  hot _ h := h
  grain lpa h := (SameResidence.coldGrainAccess _ lpa).unmarked h
  touch lpa h := (SameResidence.touch cfg _ lpa).unmarked h
  load _ h hl := (SameResidence.load hl).unmarked h

/-- No step caches a ghost. -/
theorem Unmarked.step {f f' : Ftl} {a : Label} (h : Unmarked f.store.cold)
    (hstep : Step cfg hs f a f') : Unmarked f'.store.cold := by
  have hpass : ∀ {e : WbEntry} {choice : Rebalance} {s : Store} {ex : WbExit},
      wbPass cfg f.realKeys f.hashTable f.store e choice = some (s, ex) → Unmarked s.cold :=
    fun hw => (WbPath.of_pass hw).2.preserves (accessInvariant_unmarked cfg)
      (fun _ _ _ _ h₁ hl => Unmarked.listUp h₁ hl) h
  by_cases ha : a = .assign
  · subst ha
    exact (assign_residence hstep).unmarked h
  cases hstep with
  | getPass choice r s ex hp hget =>
    have hs := (GetPath.of_pass hget).preserves (accessInvariant_unmarked cfg)
      (fun _ _ _ hl => Unmarked.listUp h hl) h
    cases ex <;> exact hs
  | endAssign | assignEntry | assignPage => exact absurd rfl ha
  | wbAgain choice m e s e' hp hc hw | wbParked choice m e s e' hp hc hw => exact hpass hw
  | wbUpdate choice m e s e' ppa hp hc hw =>
    refine (wbInstall_residence _ _ ppa _).unmarked ?_
    rw [wbInvalidateOld_cold]
    exact hpass hw
  | wbDirectUpdate choice m e s e' ppa hp hc hw =>
    exact (wbInstall_residence _ _ ppa _).unmarked (hpass hw)
  | promote page hp => exact (SameResidence.promoteHot _ page).unmarked h
  | get | resume | setFull | setInsert | pickRetry | pickMaster | flush | rehashBegin
  | rehashTick => exact h

/-- So no ghost is cached in any state. -/
theorem reach_unmarked {ok : Ftl → Label → Prop} {f : Ftl} (h : (machine cfg hs).Reach ok f) :
    Unmarked f.store.cold := by
  refine h.invariant (I := fun f => Unmarked f.store.cold) (fun f hinit => ?_)
    fun _ _ _ _ ih _ hn => Unmarked.step ih (.of_next hn)
  obtain ⟨garbage, hi⟩ := hinit
  obtain ⟨s, hs, rfl⟩ := Option.map_eq_some_iff.mp hi
  obtain ⟨bm, _, rfl⟩ := Option.map_eq_some_iff.mp hs
  intro page hg
  cases hg

/-! ## Section 4: Runs -/

/-- An entry that was parked behind the residency check finds its page still cached when
    it updates it. -/
def updatesCached (cfg : Settings) (f : Ftl) (a : Label) : Bool :=
  match a, f.phase with
  | .wbPass _, .mapping m =>
    m.cur.all fun e =>
      let lpa := getLpa cfg e.hParams
      match e.params with
      | some .update => (f.store.cold.cmt (dIdx lpa)).pt
      | some .complete =>
        (f.store.cold.getPte lpa).ppa.isSome || (f.store.cold.cmt (dIdx lpa)).pt
      | _ => true
  | _, _ => true

/-- The page of the lpa is cached behind `dftl_cache_list_up`. -/
theorem listUp_pt {s s' : Store} {lpa : Nat} {choice : Rebalance} {rc : Bool}
    (hl : s.listUp cfg lpa choice = some (rc, s')) : (s'.cold.cmt (dIdx lpa)).pt = true := by
  obtain ⟨⟨rc', s₁⟩, _, hm⟩ := Option.map_eq_some_iff.mp hl
  cases hm
  show ((s₁.cold.setCmt (dIdx lpa) _).cmt (dIdx lpa)).pt = true
  rw [Cold.cmt_setCmt, if_pos rfl]

/-- A new mapping goes to a cached page. -/
theorem WbPath.cached_of_unmapped {realKeys : Nat → Key} {ht : DHtable} {s₀ s : Store}
    {e e' : WbEntry} {choice : Rebalance}
    (h : WbPath cfg realKeys ht s₀ e choice s (.directUpdate e'))
    (hcomplete : e.params = some .complete →
      (s₀.cold.getPte (getLpa cfg e.hParams)).ppa = none →
        (s₀.cold.cmt (dIdx (getLpa cfg e.hParams))).pt = true) :
    (s.cold.cmt (dIdx (getLpa cfg e'.hParams))).pt = true := by
  cases h with
  | unmapped s hs hppa =>
    show (s.cold.cmt (dIdx (getLpa cfg e.hParams))).pt = true
    rcases hs with ⟨hp, rfl⟩ | ⟨s₁, _, hl⟩ | ⟨_, hres, rfl⟩
    · exact hcomplete hp hppa
    · exact listUp_pt hl
    · have hsame := (SameResidence.isHit cfg (wbHotAccess cfg s₀ e (getLpa cfg e.hParams)).cold
        (getLpa cfg e.hParams)).trans (SameResidence.touch cfg _ (getLpa cfg e.hParams))
      rw [hsame.pt]
      unfold Cmt.isResident at hres
      exact (Bool.and_eq_true _ _ ▸ hres).1

/-- An installation into a cached page loses nothing. -/
theorem Store.Retains.wbInstall {s : Store} (h : s.Retains cfg fun _ => False) {lpa ppa : Nat}
    {fp : UInt32} (hp : cfg.dataGrain ≤ ppa) (hpt : (s.cold.cmt (dIdx lpa)).pt = true) :
    (wbInstall cfg s lpa ppa fp).Retains cfg fun _ => False :=
  ⟨h.tidy.wbInstall hp, h.covered.update hpt, h.cached.update hpt⟩

/-- A step that meets the condition loses no mapping. -/
theorem Store.Retains.step {f f' : Ftl} {a : Label} (h : f.store.Retains cfg fun _ => False)
    (ht : f.Tidy cfg) (hd : Drawn f) (hfresh : HashKv.gcFresh cfg f a = true)
    (hok : updatesCached cfg f a = true) (hstep : Step cfg hs f a f') :
    f'.store.Retains cfg fun _ => False := by
  have htidy := (ht.step hd hfresh hstep).store
  have hpass : ∀ {e : WbEntry} {choice : Rebalance} {s : Store} {ex : WbExit},
      WbPath cfg f.realKeys f.hashTable f.store e choice s ex → s.Retains cfg fun _ => False :=
    fun hw => hw.preserves (accessInvariant_retains cfg _)
      (fun _ _ _ _ h₁ hl => (listUpInvariant_retains cfg _).listUp h₁ hl) h
  by_cases ha : a = .assign
  · subst ha
    rcases Step.assign_cold hstep with hc | ⟨idx, s₁, hidx, hg, hc⟩
    · exact ⟨htidy, hc ▸ h.covered, hc ▸ h.cached⟩
    · have hgc : f.store.gcFresh cfg idx = true := by
        simpa [HashKv.gcFresh, hidx] using hfresh
      obtain ⟨-, s₂, s₃, nodes, t₂, hc₂, hnodes, hu, hsame⟩ := h.tidy.dpageGc_split hgc hg
      have hr₃ := ((mappingInvariant_retains cfg).bulkMappingUpdate hnodes
        ⟨⟨t₂, hc₂ ▸ h.covered, hc₂ ▸ h.cached⟩, fun _ hf => hf.elim⟩ hu).1
      have hcold := hc.trans hsame.cold
      exact ⟨htidy, hcold ▸ hr₃.covered, hcold ▸ hr₃.cached⟩
  cases hstep with
  | endAssign | assignEntry | assignPage => exact absurd rfl ha
  | getPass choice r s ex hp hget =>
    have hs := (GetPath.of_pass hget).preserves (accessInvariant_retains cfg _)
      (fun _ _ _ hl => (listUpInvariant_retains cfg _).listUp h hl) h
    cases ex <;> exact hs
  | wbAgain choice m e s e' hp hc hw | wbParked choice m e s e' hp hc hw =>
    exact hpass (WbPath.of_pass hw).2
  | wbUpdate choice m e s e' ppa hp hc hw hppa =>
    have hpath := (WbPath.of_pass hw).2
    have hg := ht.pending hd hp hc (hpath.sameValue.ppa ▸ hppa)
    cases hpath with
    | update hparams =>
      -- The condition of the run: the page is still cached.
      have hpt : (f.store.cold.cmt (dIdx (getLpa cfg e.hParams))).pt = true := by
        simpa [updatesCached, hp, hc, hparams] using hok
      have hr : (wbInvalidateOld cfg f.store (getLpa cfg e.hParams)).Retains cfg fun _ =>
          False := by
        refine ⟨h.tidy.wbInvalidateOld _, ?_, ?_⟩
        · rw [wbInvalidateOld_cold]
          exact h.covered
        · rw [wbInvalidateOld_cold]
          exact h.cached
      refine hr.wbInstall hg ?_
      rw [wbInvalidateOld_cold]
      exact hpt
  | wbDirectUpdate choice m e s e' ppa hp hc hw hppa =>
    have hpath := (WbPath.of_pass hw).2
    have hg := ht.pending hd hp hc (hpath.sameValue.ppa ▸ hppa)
    refine (hpass hpath).wbInstall hg (hpath.cached_of_unmapped fun hparams hnone => ?_)
    simpa [updatesCached, hp, hc, hparams, hnone] using hok
  | promote page hp => exact (listUpInvariant_retains cfg _).promote page h
  | get | resume | setFull | setInsert | pickRetry | pickMaster | flush | rehashBegin
  | rehashTick => exact ⟨htidy, h.covered, h.cached⟩

/-- And neither does a run of such steps. -/
theorem reach_retains {f : Ftl}
    (h : (machine cfg hs).Reach (fun f a => (gcFresh cfg f a && updatesCached cfg f a) = true) f) :
    f.store.Retains cfg fun _ => False := by
  refine h.invariant (I := fun f => f.store.Retains cfg fun _ => False) (fun f hinit => ?_)
    fun f f' a hr ih hok hn => ?_
  · obtain ⟨garbage, hi⟩ := hinit
    have ht := create_tidy hi
    obtain ⟨s, hs, rfl⟩ := Option.map_eq_some_iff.mp hi
    obtain ⟨bm, _, rfl⟩ := Option.map_eq_some_iff.mp hs
    exact ⟨ht.store, (fun _ _ hm => absurd rfl hm), fun _ hd => by cases hd⟩
  · rw [Bool.and_eq_true] at hok
    have ht := reach_tidy (fun f a hok => (Bool.and_eq_true _ _ ▸ hok).1) hr
    exact Store.Retains.step ih ht (reach_drawn hr) hok.1 hok.2 (.of_next hn)

/-- While parked entries find their pages cached and no collection continues an open page,
    a mapped page is cached or has a valid copy that was written after its last update,
    and it can be loaded when it is not cached. -/
theorem mapped_pages_retained {f : Ftl}
    (h : (machine cfg hs).Reach (fun f a => (gcFresh cfg f a && updatesCached cfg f a) = true) f)
    {lpa : Nat} (hmap : (f.store.cold.memTable lpa).ppa ≠ none) :
    ((f.store.cold.cmt (dIdx lpa)).isResident = true ∨
      ∃ p, (f.store.cold.cmt (dIdx lpa)).tPpa = some p ∧ p < cfg.dataPage ∧
        isValidPage f.store.bm p = true ∧ f.store.cold.copyCurrent (dIdx lpa) = true) ∧
    ((f.store.cold.cmt (dIdx lpa)).isResident = false →
      ∀ l, dIdx l = dIdx lpa → f.store.load l ≠ none) := by
  have hr := reach_retains h
  have hu := reach_unmarked h
  have hmain : (f.store.cold.cmt (dIdx lpa)).isResident = true ∨
      ∃ p, (f.store.cold.cmt (dIdx lpa)).tPpa = some p ∧ p < cfg.dataPage ∧
        isValidPage f.store.bm p = true ∧ f.store.cold.copyCurrent (dIdx lpa) = true := by
    -- Its page is dirty, and then cached, or has a current copy.
    rcases hr.covered lpa id hmap with hd | ⟨hc, hcur⟩
    · have hpt := hr.cached _ hd
      refine Or.inl ?_
      unfold Cmt.isResident
      cases hg : (f.store.cold.cmt (dIdx lpa)).ghostMark with
      | true =>
        rw [hu _ hg] at hpt
        cases hpt
      | false => simp [hpt]
    · obtain ⟨p, hp⟩ := Option.ne_none_iff_exists'.mp hc
      obtain ⟨hlt, hv, -⟩ := hr.tidy.copied.toCopies.valid hp
      exact Or.inr ⟨p, hp, hlt, hv, hcur⟩
  refine ⟨hmain, fun hres l hl hload => ?_⟩
  obtain ⟨p, hp, -⟩ := hmain.resolve_left (by rw [hres]; simp)
  rw [← hl] at hp
  unfold Store.load at hload
  dsimp only at hload
  rw [hp] at hload
  cases hload

/-! ## Section 5: Concrete runs -/

/-- A cache of one page and a write buffer of two entries. -/
def cachedPage : Settings :=
  .scaled false false 16 60 8 2 1 sixteen_pos nos_sixty eight_pos Nat.two_pos Nat.one_pos
    grains_fit_sixty

/-- A set that finds the buffer full and flushes it; the second entry evicts the page of
    the first one, and the entries that were parked are resumed in order. -/
def flushEvicting (b : UInt8) (parked : Nat) : List Label :=
  [.set (byteKey b) 100, .assign, .assign, .pickMaster, .wbPass .keep, .pickMaster,
    .wbPass .keep] ++ (List.replicate parked [.pickRetry 0, .wbPass .keep]).flatten ++ [.flush]

/-- Page 1 has been evicted, page 2 is cached. -/
theorem mapped_pages_retained_evicted : ∃ f : Ftl,
    (f.store.cold.memTable 512).ppa ≠ none ∧ (f.store.cold.cmt 1).isResident = false ∧
      (∃ p, (f.store.cold.cmt 1).tPpa = some p ∧ isValidPage f.store.bm p = true ∧
        f.store.cold.copyCurrent 1 = true) ∧ f.store.load 512 ≠ none := by
  obtain ⟨f, hf, hp⟩ := exists_reach_of_run cachedPage pageHash
    (fun f a => gcFresh cachedPage f a && updatesCached cachedPage f a)
    ([.set (byteKey 1) 100, .set (byteKey 2) 100] ++ flushEvicting 2 1)
    (fun f => (f.store.cold.memTable 512).ppa ≠ none && !(f.store.cold.cmt 1).isResident)
    (by decide +kernel) (by decide +kernel)
  simp only [Bool.and_eq_true, decide_eq_true_eq, Bool.not_eq_true'] at hp
  obtain ⟨hmain, hload⟩ := mapped_pages_retained hf hp.1
  have hpage : dIdx 512 = 1 := by decide
  rw [hpage] at hmain hload
  obtain ⟨p, hp1, -, hv, hcur⟩ := hmain.resolve_left (by rw [hp.2]; simp)
  exact ⟨f, hp.1, hp.2, ⟨p, hp1, hv, hcur⟩, hload hp.2 512 hpage⟩

/-- Key 2 finds its page cached and is parked for the update. Key 3 then evicts that page,
    and the update that follows goes to the table only: page 2 is mapped, neither cached
    nor current. -/
theorem lostUpdate_counterexample : ∃ f, (machine cachedPage pageHash).Reachable f ∧
    f.phase.requestIds = [] ∧ (f.store.cold.memTable 1024).ppa = some 389 ∧
      (f.store.cold.cmt 2).isResident = false ∧ f.store.cold.copyCurrent 2 = false := by
  obtain ⟨f, hf, hp⟩ := exists_reachable_of_run cachedPage pageHash
    ([.set (byteKey 1) 100, .set (byteKey 2) 100] ++ flushEvicting 2 1 ++
      [.set (byteKey 3) 100] ++ flushEvicting 4 2)
    (fun f => f.phase.requestIds.isEmpty && (f.store.cold.memTable 1024).ppa = some 389 &&
      !(f.store.cold.cmt 2).isResident && !f.store.cold.copyCurrent 2) (by decide +kernel)
  simp only [Bool.and_eq_true, List.isEmpty_iff, decide_eq_true_eq, Bool.not_eq_true'] at hp
  exact ⟨f, hf, hp.1.1.1, hp.1.1.2, hp.1.2, hp.2⟩

end AggreKV.HashKv
