import AggreKV.HashKv.Buffer
import AggreKV.HashKv.MappingUpdate
import AggreKV.HashKv.TpageCopies

/-! # Ownership of translation pages

    The flash copies of all translation pages over whole runs: evictions,
    updates of resident pages, mapping updates of collections.

    * `Store.Tidy`: copies, clean pages and data addresses; kept by the
      parts of every operation, also by collections in the middle of one.
    * `gcFresh`: a collection of the segregated build never continues a
      page of its stream. It would do so at page 0, in the MAP partition. -/

namespace AggreKV.HashKv

variable {cfg : Settings} {hs : Hashing}

/-! ## Section 1: Operations that leave the copies alone -/

/-- The tables agree on the entries and the copies. -/
structure SameCopies (c c' : Cold) : Prop where
  memTable : c'.memTable = c.memTable
  copyCurrent : c'.copyCurrent = c.copyCurrent
  dirty : ∀ page, (c'.cmt page).dirty = (c.cmt page).dirty
  copy : ∀ page, c'.copy page = c.copy page

namespace SameCopies

variable {c c' c'' : Cold}

/-- The entries of the directory are all that counts. -/
theorem of_cmt (ht : c'.memTable = c.memTable) (hc : c'.copyCurrent = c.copyCurrent)
    (hm : c'.cmt = c.cmt) : SameCopies c c' :=
  ⟨ht, hc, fun page => by rw [hm], fun page => by rw [Cold.copy, hm]; rfl⟩

theorem refl (c : Cold) : SameCopies c c := of_cmt rfl rfl rfl

theorem trans (h : SameCopies c c') (h' : SameCopies c' c'') : SameCopies c c'' where
  memTable := h'.memTable.trans h.memTable
  copyCurrent := h'.copyCurrent.trans h.copyCurrent
  dirty page := (h'.dirty page).trans (h.dirty page)
  copy page := (h'.copy page).trans (h.copy page)

/-- Writing the other fields of a page. -/
theorem setCmt (c : Cold) (page : Nat) {m : Cmt} (hd : m.dirty = (c.cmt page).dirty)
    (ht : m.tPpa = (c.cmt page).tPpa) : SameCopies c (c.setCmt page m) := by
  refine ⟨rfl, rfl, fun p => ?_, fun p => ?_⟩
  · rw [Cold.cmt_setCmt]
    split
    · next hp => rw [hp, hd]
    · rfl
  · unfold Cold.copy
    rw [Cold.cmt_setCmt]
    split
    · next hp => rw [hp, ht]
    · rfl

/-- An access changes the heat only. -/
theorem coldGrainAccess (c : Cold) (lpa : Nat) : SameCopies c (c.coldGrainAccess lpa) := by
  unfold Cold.coldGrainAccess
  dsimp only
  split
  · exact (setCmt c (dIdx lpa) (m := { c.cmt (dIdx lpa) with hasHotEntry := true }) rfl rfl).trans
      (of_cmt rfl rfl rfl)
  · exact refl c

theorem isHit (cfg : Settings) (c : Cold) (lpa : Nat) : SameCopies c (c.isHit cfg lpa).2 := by
  unfold Cold.isHit
  split
  · dsimp only
    split
    · exact coldGrainAccess c lpa
    · exact refl c
  · exact refl c

/-- And the list. -/
theorem touch (cfg : Settings) (c : Cold) (lpa : Nat) : SameCopies c (c.touch cfg lpa) := by
  unfold Cold.touch
  dsimp only
  split
  · split
    · exact refl c
    · exact of_cmt rfl rfl rfl
  · exact refl c

/-- So does a load. -/
theorem load {s s' : Store} {lpa : Nat} (h : s.load lpa = some s') :
    SameCopies s.cold s'.cold := by
  unfold Store.load at h
  dsimp only at h
  split at h
  · cases h
  · cases h
    exact setCmt _ _ rfl rfl

/-- A promotion reads the mapping. -/
theorem promoteHot (s : Store) (page : Nat) : SameCopies s.cold (s.promoteHot page).cold := by
  unfold Store.promoteHot
  dsimp only
  split
  · exact of_cmt rfl rfl rfl
  · split
    · exact refl _
    · split
      · exact of_cmt rfl rfl rfl
      · exact (setCmt s.cold page (m := { s.cold.cmt page with hasHotEntry := false }) rfl
          rfl).trans (of_cmt rfl rfl rfl)

/-- A rebalance changes limits. -/
theorem tryRebalance (s : Store) (choice : Rebalance) :
    SameCopies s.cold (s.tryRebalance cfg choice).cold := by
  unfold Store.tryRebalance Store.rebalance
  split
  · cases choice with
    | keep => exact refl _
    | expandHot | expandKey | shrinkHot =>
      dsimp only
      split
      · exact refl _
      · exact of_cmt rfl rfl rfl
  · exact refl _

/-- What follows an eviction copies mappings. -/
theorem afterEvict (s : Store) (victim : Nat) (choice : Rebalance) :
    SameCopies s.cold (s.afterEvict cfg victim choice).cold := by
  have hmark := setCmt s.cold victim (m := { s.cold.cmt victim with ghostMark := true }) rfl rfl
  unfold Store.afterEvict
  split
  · dsimp only
    split
    · have hcount : SameCopies s.cold { s.cold.setCmt victim
          { s.cold.cmt victim with ghostMark := true } with
            rebalanceEvictCnt := s.cold.rebalanceEvictCnt + 1 } :=
        hmark.trans (of_cmt rfl rfl rfl)
      split
      · exact hcount.trans (tryRebalance (s := { s with cold := _ }) choice)
      · exact hcount
    · exact hmark
  · exact refl _

/-- A page that leaves the cache keeps its copy. -/
theorem unload (s : Store) (victim : Nat) : SameCopies s.cold (s.unload victim).cold :=
  (setCmt s.cold victim (m := { s.cold.cmt victim with pt := false }) rfl rfl).trans
    (of_cmt rfl rfl rfl)

theorem pop (c : Cold) (victim : Nat) (lru : List LruNode) :
    SameCopies c { c.setCmt victim { c.cmt victim with lruPtr := none } with lru := lru } := by
  have h := setCmt c victim (m := { c.cmt victim with lruPtr := none }) rfl rfl
  exact h.trans (of_cmt rfl rfl rfl)

/-- And so does one that comes in. -/
theorem makeResident (s : Store) (page : Nat) :
    SameCopies s.cold (s.makeResident page).cold := by
  refine (setCmt s.cold page ?_ ?_).trans (of_cmt rfl rfl rfl)
  · rfl
  · rfl

end SameCopies

/-! ## Section 2: The invariant -/

/-- The cursor of the data partition is set, or no data page was ever taken. -/
def Started (cfg : Settings) (s : Store) : Prop :=
  s.bm.dataPart.activeSblk ≠ none ∨
    (s.dActive = none ∧ ∀ i, cfg.dataSblk ≤ i → (s.bm.sblk i).wpOfft = 0)

/-- The set-up of the data path lasts. -/
theorem Started.congr {s s' : Store} (h : Started cfg s)
    (hp : s'.bm.dataPart.activeSblk = s.bm.dataPart.activeSblk) (ha : s'.dActive = s.dActive)
    (hw : ∀ i, cfg.dataSblk ≤ i → (s'.bm.sblk i).wpOfft = (s.bm.sblk i).wpOfft) :
    Started cfg s' := by
  unfold Started
  rw [hp, ha]
  refine h.imp_right fun ⟨hn, hz⟩ => ⟨hn, fun i hi => ?_⟩
  rw [hw i hi]
  exact hz i hi

/-- The translation side of the store is the same. -/
structure SameTpages (cfg : Settings) (s s' : Store) : Prop where
  map : SameMap cfg s.bm s'.bm
  cold : s'.cold = s.cold
  active : s'.tActive = s.tActive
  reserve : s'.tReserve = s.tReserve

theorem SameTpages.refl (s : Store) : SameTpages cfg s s := ⟨.refl _, rfl, rfl, rfl⟩

theorem SameTpages.trans {s s' s'' : Store} (h : SameTpages cfg s s') (h' : SameTpages cfg s' s'') :
    SameTpages cfg s s'' :=
  ⟨h.map.trans h'.map, h'.cold.trans h.cold, h'.active.trans h.active, h'.reserve.trans h.reserve⟩

/-- The data side may change. -/
theorem SameTpages.of_map (s : Store) {bm : Bm} (h : SameMap cfg s.bm bm) :
    SameTpages cfg s { s with bm := bm } :=
  ⟨h, rfl, rfl, rfl⟩

/-- The map side and the copies are all that counts. -/
theorem Store.Copied.congr {s s' : Store} (h : s.Copied cfg) (hm : SameMap cfg s.bm s'.bm)
    (hc : s'.cold.copy = s.cold.copy) (ha : s'.tActive = s.tActive)
    (hr : s'.tReserve = s.tReserve) : s'.Copied cfg := by
  refine ⟨?_, ?_, ?_, ?_, ?_⟩
  · rw [hc]
    exact h.toCopies.map hm
  · rw [hr, hm.part]
    exact h.reserve
  · rw [hm.part]
    exact h.rsvBlock
  · rw [hm.part, hm.sblk _ h.rsvBlock]
    exact h.rsvEmpty
  · rw [ha, hm.part]
    exact h.active

/-- A page gives up its copy, if it has one. -/
theorem Store.Copied.drop {s s' : Store} (h : s.Copied cfg) (page : Nat)
    (hbm : s'.bm = match s.cold.copy page with
      | none => s.bm
      -- The page of the copy becomes invalid with it.
      | some p => invalidatePage cfg s.bm p)
    (hc : s'.cold.copy = Function.update s.cold.copy page none) (ha : s'.tActive = s.tActive)
    (hr : s'.tReserve = s.tReserve) : s'.Copied cfg ∧ SameData cfg s.bm s'.bm := by
  cases hcopy : s.cold.copy page with
  | none =>
    rw [hcopy] at hbm
    dsimp only at hbm
    have hsame : s'.cold.copy = s.cold.copy := by
      rw [hc, ← hcopy, Function.update_eq_self]
    rw [hbm]
    exact ⟨h.congr (hbm ▸ .refl _) hsame ha hr, .refl _⟩
  | some p =>
    rw [hcopy] at hbm
    dsimp only at hbm
    have hblk := @SameTblocks.invalidatePage cfg s.bm p
    have hdrop := h.toCopies.invalidate hcopy
    rw [← hbm] at hblk hdrop
    refine ⟨⟨?_, ?_, ?_, ?_, ?_⟩, ?_⟩
    · rw [hc]
      exact hdrop
    · rw [hr, hblk.part]
      exact h.reserve
    · rw [hblk.part]
      exact h.rsvBlock
    · rw [hblk.part, hblk.wpOfft]
      exact h.rsvEmpty
    · rw [ha, hblk.part]
      exact h.active
    · rw [hbm]
      exact .invalidatePage _ (h.toCopies.valid hcopy).1

structure Store.Tidy (cfg : Settings) (s : Store) : Prop where
  zoned : s.Zoned cfg
  started : Started cfg s
  copied : s.Copied cfg
  clean : ∀ page, (s.cold.cmt page).dirty = true → s.cold.copy page = none
  mapped : ∀ lpa p, (s.cold.memTable lpa).ppa = some p → cfg.dataGrain ≤ p

namespace Store.Tidy

variable {s s' : Store}

/-- The tables may change where they name the same pages. -/
theorem setCold (h : s.Tidy cfg) {cold : Cold} (hot : Hot)
    (hd : ∀ page, (cold.cmt page).dirty = (s.cold.cmt page).dirty)
    (hc : ∀ page, cold.copy page = s.cold.copy page)
    (hm : ∀ lpa p, (cold.memTable lpa).ppa = some p → cfg.dataGrain ≤ p) :
    Store.Tidy cfg { s with cold := cold, hot := hot } := by
  refine ⟨⟨h.zoned.toZoned, h.zoned.active, h.zoned.reserve⟩, h.started,
    h.copied.congr (.refl _) (funext hc) rfl rfl, fun page hp => ?_, hm⟩
  rw [hc]
  exact h.clean page ((hd page).symm.trans hp)

theorem setTables (h : s.Tidy cfg) {cold : Cold} (hot : Hot) (hc : SameCopies s.cold cold) :
    Store.Tidy cfg { s with cold := cold, hot := hot } := by
  refine h.setCold hot hc.dirty hc.copy ?_
  rw [hc.memTable]
  exact h.mapped

/-- Steps on the tables only. -/
theorem of_tables (h : s.Tidy cfg) (ho : OnlyTables s s') (hc : SameCopies s.cold s'.cold) :
    s'.Tidy cfg := by
  obtain ⟨cold, hot, rfl⟩ := ho
  exact h.setTables hot hc

/-- A dirty page has no copy. -/
theorem cleanCopy_eq (h : s.Tidy cfg) (page : Nat) : s.cold.cleanCopy page = s.cold.copy page := by
  unfold Cold.cleanCopy
  split
  · next hd => exact (h.clean page hd).symm
  · rfl

/-- An update of a resident page takes its copy away. -/
theorem update (h : s.Tidy cfg) {lpa : Nat} {pte : Pte}
    (hpt : (s.cold.cmt (dIdx lpa)).pt = true)
    (hppa : ∀ p, pte.ppa = some p → cfg.dataGrain ≤ p) :
    (s.update cfg lpa pte).Tidy cfg ∧
      (s.update cfg lpa pte).cold.copy = Function.update s.cold.copy (dIdx lpa) none := by
  have hcmt : ∀ page, (s.cold.update lpa pte).cmt page = if page = dIdx lpa then
      { s.cold.cmt (dIdx lpa) with
        tPpa := if (s.cold.cmt (dIdx lpa)).dirty then (s.cold.cmt (dIdx lpa)).tPpa else none,
        dirty := true } else s.cold.cmt page := fun page => by
    unfold Cold.update
    dsimp only
    rw [if_pos hpt]
    exact Cold.cmt_setCmt ..
  -- The page is dirty from here on, so its copy on flash is given up.
  have hcopy : (s.update cfg lpa pte).cold.copy =
      Function.update s.cold.copy (dIdx lpa) none := by
    funext page
    show ((s.cold.update lpa pte).cmt page).tPpa = _
    rw [hcmt]
    by_cases hp : page = dIdx lpa
    · subst hp
      rw [if_pos rfl, Function.update_self]
      dsimp only
      split
      · next hd => exact h.clean _ hd
      · rfl
    · rw [if_neg hp, Function.update_of_ne hp]
      rfl
  have hbm : (s.update cfg lpa pte).bm = match s.cold.copy (dIdx lpa) with
      | none => s.bm
      | some p => invalidatePage cfg s.bm p := by
    unfold Store.update
    dsimp only
    rw [if_pos hpt, h.cleanCopy_eq]
    split
    · next p hp => rw [hp]
    · next hp => rw [hp]
  obtain ⟨hcop, hdata⟩ := h.copied.drop (dIdx lpa) hbm hcopy rfl rfl
  refine ⟨⟨h.zoned.congr (.update s lpa pte), ?_, hcop, fun page hp => ?_, fun l p hp => ?_⟩, hcopy⟩
  · exact h.started.congr (congrArg _ hdata.part) rfl fun i hi => congrArg _ (hdata.sblk i hi)
  · rw [hcopy]
    by_cases hpage : page = dIdx lpa
    · rw [hpage, Function.update_self]
    · rw [Function.update_of_ne hpage]
      refine h.clean page ?_
      have hp' : ((s.cold.update lpa pte).cmt page).dirty = true := hp
      rwa [hcmt, if_neg hpage] at hp'
  · have hp' : ((s.cold.update lpa pte).memTable l).ppa = some p := hp
    rw [Cold.update_memTable] at hp'
    by_cases hl : l = lpa
    · subst hl
      rw [Function.update_self] at hp'
      exact hppa p hp'
    · rw [Function.update_of_ne hl] at hp'
      exact h.mapped l p hp'

/-- An update of an absent page changes its entry only. -/
theorem updateAway (h : s.Tidy cfg) {lpa : Nat} {pte : Pte}
    (hpt : (s.cold.cmt (dIdx lpa)).pt = false)
    (hppa : ∀ p, pte.ppa = some p → cfg.dataGrain ≤ p) : (s.update cfg lpa pte).Tidy cfg := by
  have hcmt : (s.cold.update lpa pte).cmt = s.cold.cmt := by
    unfold Cold.update
    dsimp only
    rw [if_neg (by rw [hpt]; simp)]
    rfl
  have hs : s.update cfg lpa pte = { s with cold := s.cold.update lpa pte } := by
    unfold Store.update
    rw [if_neg (by rw [hpt]; simp)]
  rw [hs]
  refine h.setCold s.hot (fun page => by rw [hcmt]) (fun page => ?_) fun l p hp => ?_
  · unfold Cold.copy
    rw [hcmt]
  · rw [Cold.update_memTable] at hp
    by_cases hl : l = lpa
    · subst hl
      rw [Function.update_self] at hp
      exact hppa p hp
    · rw [Function.update_of_ne hl] at hp
      exact h.mapped l p hp

/-- A page gives its copy up. -/
theorem dropCopy (h : s.Tidy cfg) (page : Nat) :
    (s.dropCopy cfg page).Tidy cfg ∧
      (s.dropCopy cfg page).cold.copy = Function.update s.cold.copy page none := by
  cases hcopy : s.cold.copy page with
  | none =>
    have hs : s.dropCopy cfg page = s := by
      unfold Store.dropCopy
      unfold Cold.copy at hcopy
      rw [hcopy]
    rw [hs, ← hcopy, Function.update_eq_self]
    exact ⟨h, rfl⟩
  -- The copy is invalidated and forgotten.
  | some p =>
    have hs : s.dropCopy cfg page =
        { s with bm := invalidatePage cfg s.bm p, cold := s.cold.setTPpa page none } := by
      unfold Store.dropCopy
      unfold Cold.copy at hcopy
      rw [hcopy]
    have hc : (s.dropCopy cfg page).cold.copy = Function.update s.cold.copy page none := by
      rw [hs]
      exact Cold.copy_setTPpa ..
    have hbm : (s.dropCopy cfg page).bm = match s.cold.copy page with
        | none => s.bm
        | some p => invalidatePage cfg s.bm p := by
      rw [hcopy, hs]
    obtain ⟨hcop, hdata⟩ := h.copied.drop page hbm hc (by rw [hs]) (by rw [hs])
    have hpath : SameDataPath s (s.dropCopy cfg page) := by
      rw [hs]
      exact ⟨⟨rfl, rfl⟩, rfl, rfl⟩
    refine ⟨⟨h.zoned.congr hpath, ?_, hcop, fun q hq => ?_, ?_⟩, hc⟩
    · exact h.started.congr (congrArg _ hdata.part) hpath.active
        fun i hi => congrArg _ (hdata.sblk i hi)
    · rw [hc]
      by_cases hqp : q = page
      · rw [hqp, Function.update_self]
      · rw [Function.update_of_ne hqp]
        refine h.clean q ?_
        rw [hs] at hq
        have hq' : ((s.cold.setCmt page _).cmt q).dirty = true := hq
        rwa [Cold.cmt_setCmt, if_neg hqp] at hq'
    · rw [hs]
      exact h.mapped

/-- A page without a copy is written back. -/
theorem writeTpage {page : Nat} (h : s.Tidy cfg) (hn : s.cold.copy page = none)
    (hw : s.writeTpage cfg page = some s') :
    s'.Tidy cfg ∧ ∃ c ppa, Moved s.cold c ∧ s'.cold = c.written page ppa := by
  obtain ⟨hcop, hdata, -, c, ppa, hmoved, hcold⟩ := h.copied.writeTpage hn hw
  have hpath := SameDataPath.writeTpage hw
  refine ⟨⟨h.zoned.congr hpath, ?_, hcop, fun q hq => ?_, fun l p hp => ?_⟩, c, ppa, hmoved, hcold⟩
  · exact h.started.congr (congrArg _ hdata.part) hpath.active
      fun i hi => congrArg _ (hdata.sblk i hi)
  · rw [hcold] at hq ⊢
    rw [Cold.copy_written]
    have hq' : ((c.setCmt page _).cmt q).dirty = true := hq
    rw [Cold.cmt_setCmt] at hq'
    by_cases hqp : q = page
    · rw [if_pos hqp] at hq'
      cases hq'
    · rw [if_neg hqp] at hq'
      rw [Function.update_of_ne hqp, hmoved.copy_eq_none]
      obtain ⟨t, ht, -⟩ := hmoved.cmt q
      rw [ht] at hq'
      exact h.clean q hq'
  · rw [hcold] at hp
    have hp' : (c.memTable l).ppa = some p := hp
    rw [hmoved.memTable] at hp'
    exact h.mapped l p hp'

end Store.Tidy

/-! ## Section 3: The cache and the mapping update -/

/-- Accesses keep the invariant. -/
theorem accessInvariant_tidy (cfg : Settings) : AccessInvariant cfg (Store.Tidy cfg) where
  hot _ h := h.setTables _ (.refl _)
  grain lpa h := h.setTables _ (.coldGrainAccess _ lpa)
  touch lpa h := h.setTables _ (.touch cfg _ lpa)
  load _ h hl := by
    have hc := SameCopies.load hl
    unfold Store.load at hl
    dsimp only at hl
    split at hl
    · cases hl
    · cases hl
      exact h.setTables _ hc

/-- And so does `dftl_cache_list_up`. -/
theorem listUpInvariant_tidy (cfg : Settings) : ListUpInvariant cfg (Store.Tidy cfg) where
  promote page h := h.of_tables (.promoteHot _ page) (.promoteHot _ page)
  pop victim lru h := h.setTables _ (.pop _ victim lru)
  count n h := h.setTables _ (.of_cmt rfl rfl rfl)
  evictPage victim h hw := by
    have hu : Store.Tidy cfg (Store.unload _ victim) := h.setTables _ (.unload _ victim)
    unfold Store.writeBack at hw
    split at hw
    · next hd => exact (hu.writeTpage (hu.clean victim hd) hw).1
    · cases hw
      exact hu
  afterEvict victim choice h :=
    h.of_tables (.afterEvict _ victim choice) (.afterEvict _ victim choice)
  resident page h := h.setTables _ (.makeResident _ page)

/-- A mapping update keeps the invariant; the pages it has taken the copy from have none
    until they are written. -/
theorem mappingInvariant_tidy (cfg : Settings) : MappingInvariant cfg (cfg.dataGrain ≤ ·)
    fun E s => s.Tidy cfg ∧ ∀ page, E page → s.cold.copy page = none where
  isHit {E s} lpa h := by
    have hc := SameCopies.isHit cfg s.cold lpa
    refine ⟨h.1.setTables _ hc, fun page hp => ?_⟩
    rw [hc.copy]
    exact h.2 page hp
  update {E s} lpa ppa hq hr h := by
    have hpt : (s.cold.cmt (dIdx lpa)).pt = true := by
      unfold Cmt.isResident at hr
      exact (Bool.and_eq_true _ _ ▸ hr).1
    -- The address written is one of a grain.
    have hpte : ∀ p, ({ s.cold.getPte lpa with ppa := some ppa } : Pte).ppa = some p →
        cfg.dataGrain ≤ p := fun p hp => by
      cases hp
      exact hq
    obtain ⟨ht, hc⟩ := h.1.update hpt hpte
    refine ⟨ht, fun page hp => ?_⟩
    rw [hc, Function.update_apply]
    split
    · rfl
    · exact h.2 page hp
  dropCopy page _ h := by
    obtain ⟨ht, hc⟩ := h.1.dropCopy page
    refine ⟨ht, fun q hq => ?_⟩
    rw [hc, Function.update_apply]
    split
    · rfl
    · next hne => exact h.2 q (hq.resolve_right hne)
  relocate {E s} lpa ppa hq _ h := by
    refine ⟨h.1.setCold _ (fun _ => rfl) (fun _ => rfl) fun l p hp => ?_, h.2⟩
    have hp' : (Function.update s.cold.memTable lpa
      { s.cold.getPte lpa with ppa := some ppa } l).ppa = some p := hp
    by_cases hl : l = lpa
    · subst hl
      rw [Function.update_self, Option.some.injEq] at hp'
      exact hp' ▸ hq
    · rw [Function.update_of_ne hl] at hp'
      exact h.1.mapped l p hp'
  write page hE h hw := by
    obtain ⟨ht, c, ppa, hmoved, hcold⟩ := h.1.writeTpage (h.2 page hE) hw
    refine ⟨ht, fun q hq => ?_⟩
    rw [hcold, Cold.copy_written, Function.update_of_ne hq.2, hmoved.copy_eq_none]
    exact h.2 q hq.1

/-! ## Section 4: Collections of data pages -/

/-- Packed pages are data pages. -/
theorem packPages_map {rsv : Nat} (hrsv : cfg.IsData rsv) : ∀ {fuel todo copied : Nat}
    {bm bm' : Bm} {b : Buckets GcItem} {nodes : List GcNode},
    packPages cfg rsv bm b todo fuel = some (bm', nodes, copied) →
      SameMap cfg bm bm' ∧ ∀ n ∈ nodes, cfg.dataGrain ≤ n.ppa
  | 0, todo, copied, bm, bm', b, nodes, h => by
      cases h
      exact ⟨.refl _, fun n hn => by cases hn⟩
  | fuel + 1, todo, copied, bm, bm', b, nodes, h => by
      unfold packPages at h
      split at h
      · cases h
        exact ⟨.refl _, fun n hn => by cases hn⟩
      · obtain ⟨⟨bm₁, first⟩, hf, h⟩ := Option.bind_eq_some_iff.mp h
        obtain ⟨⟨bm₂, rest, copied'⟩, hr, he⟩ := Option.map_eq_some_iff.mp h
        cases he
        have hp := dataPage_le_getPageNum bm hrsv
        obtain ⟨hm, hrest⟩ := packPages_map hrsv hr
        refine ⟨(SameMap.getPageNum bm hrsv).trans ((placeNodes_map hp hf).trans hm),
          fun n hn => ?_⟩
        rcases List.mem_append.mp hn with hn | hn
        · rw [placeNodes_ppas hf] at hn
          obtain ⟨x, _, rfl⟩ := List.mem_map.mp hn
          exact dataGrain_le_ppaToPga hp _
        · exact hrest n hn

/-- A collection opens data pages. -/
theorem gcOpenPage_tpages {idx : Nat} {s s' : Store} {cur cur' : GcCursor}
    (hds : cfg.dataSegregation = true) (z : Zoned cfg s.bm)
    (h : gcOpenPage cfg idx s cur = some (s', cur')) :
    SameTpages cfg s s' ∧ cfg.dataPage ≤ cur'.ppa := by
  obtain ⟨a, bm, offt, ho, hp, hbm, -⟩ := gcOpenPage_spec hds z h
  have hm := (ho.openPage { bm.stream idx with
    activeSblkOffset := offt, activePpa := cur'.ppa, grainRemain := 4 } rfl hp).2
  rw [← hbm] at hm
  have hroles : s'.cold = s.cold ∧ s'.tActive = s.tActive ∧ s'.tReserve = s.tReserve := by
    unfold gcOpenPage at h
    simp only [Option.bind_eq_bind, Option.bind_eq_some_iff] at h
    obtain ⟨⟨b, bm₁⟩, _, h⟩ := h
    split at h
    · cases h
      exact ⟨rfl, rfl, rfl⟩
    · split at h
      · cases h
        exact ⟨rfl, rfl, rfl⟩
      · split at h
        · cases h
          exact ⟨rfl, rfl, rfl⟩
        · cases h
  refine ⟨⟨hm, hroles.1, hroles.2.1, hroles.2.2⟩, ?_⟩
  rw [hp]
  exact dataPage_le_getPageNum bm ho.data

/-- The write loop only writes data pages when it opens the first page itself. -/
theorem gcWriteLoop_tpages {idx : Nat} (hds : cfg.dataSegregation = true) {items : List GcItem}
    {s s' : Store} {cur cur' : GcCursor} {nodes : List GcNode} (z : s.Zoned cfg)
    (hcur : (s.bm.stream idx).grainRemain = 0 ∨ cfg.dataPage ≤ cur.ppa)
    (h : gcWriteLoop cfg idx s cur items = some (s', cur', nodes)) :
    SameTpages cfg s s' ∧ ∀ n ∈ nodes, cfg.dataGrain ≤ n.ppa := by
  obtain ⟨hP, hR⟩ := gcWriteLoop_invariant
    (P := fun s₁ cur₁ => s₁.Zoned cfg ∧ SameTpages cfg s s₁ ∧
      ((s₁.bm.stream idx).grainRemain = 0 ∨ cfg.dataPage ≤ cur₁.ppa))
    (Q := fun s₁ cur₁ => (s₁.Zoned cfg ∧ (s₁.bm.stream idx).grainRemain ≠ 0) ∧
      SameTpages cfg s s₁ ∧ cfg.dataPage ≤ cur₁.ppa)
    (R := fun _ n => cfg.dataGrain ≤ n.ppa)
    (fun {s₁ cur₁ s₂ cur₂} hP hp => by
      refine ⟨gcPage_zoned hds hP.1 hp, ?_⟩
      unfold gcPage at hp
      split at hp
      · obtain ⟨ht, hdata⟩ := gcOpenPage_tpages hds hP.1.toZoned hp
        exact ⟨hP.2.1.trans ht, hdata⟩
      · next hne =>
        cases hp
        exact ⟨hP.2.1, hP.2.2.resolve_left hne⟩)
    (fun {s₁ cur₁ it s₂ n} hQ hp => by
      have hz := gcPlace_zoned hQ.1.1 hQ.1.2 hp
      obtain ⟨bm, hb, rfl, rfl⟩ := gcPlace_spec hp
      have hg := dataGrain_le_ppaToPga hQ.2.2 (sub32 4 (s₁.bm.stream idx).grainRemain)
      have hm := (SameMap.setStream s₁.bm idx _).trans (placeItem_map hg hb)
      exact ⟨⟨hz, hQ.2.1.trans (.of_map s₁ hm), Or.inr hQ.2.2⟩, hg⟩)
    ⟨z, .refl s, hcur⟩ h
  refine ⟨hP.2.1, fun n hn => ?_⟩
  obtain ⟨i, hi, rfl⟩ := List.mem_iff_getElem.mp hn
  exact (List.forall₂_iff_get.mp hR).2 i (by rw [hR.length_eq]; exact hi) hi

/-- The items of the victim that a collection for stream `idx` takes now go to a new
    page. -/
def Store.gcFresh (cfg : Settings) (s : Store) (idx : Nat) : Bool :=
  !cfg.dataSegregation ||
    match getGcTarget cfg s.bm .data idx with
    | some target =>
      (s.gcItems cfg idx).isEmpty ||
        (s.bm.stream (victimStream s.bm target)).grainRemain = 0
    | none => true

/-- The items of a collection go to data pages. -/
theorem writeItems_tpages {s s' : Store} {target : Nat} {pages : List Nat} {items : List GcItem}
    {nodes : List GcNode} (z : s.Zoned cfg)
    (hfresh : cfg.dataSegregation = true → items = [] ∨
      (s.bm.stream (victimStream s.bm target)).grainRemain = 0)
    (h : writeItems cfg s target pages items = some (s', nodes)) :
    SameTpages cfg s s' ∧ (∀ n ∈ nodes, cfg.dataGrain ≤ n.ppa) ∧
      (cfg.dataSegregation = false → s'.bm.dataPart = s.bm.dataPart) := by
  unfold writeItems at h
  split at h
  · cases h
    exact ⟨.refl _, (fun n hn => by cases hn), fun _ => rfl⟩
  · split at h
    · next hds =>
      obtain ⟨s₁, cur, ssd, hl, rfl⟩ := writeItemsStream_spec h
      have hsame : SameTpages cfg s s₁ ∧ ∀ n ∈ nodes, cfg.dataGrain ≤ n.ppa := by
        rcases hfresh hds with rfl | hroom
        · cases hl
          exact ⟨.refl _, fun n hn => by cases hn⟩
        · exact gcWriteLoop_tpages hds z (Or.inl hroom) hl
      obtain ⟨ht, hnodes⟩ := hsame
      exact ⟨⟨ht.map, ht.cold, ht.active, ht.reserve⟩, hnodes, fun hf => by simp [hds] at hf⟩
    · unfold writeItemsReserve at h
      simp only [Option.bind_eq_bind, Option.bind_eq_some_iff] at h
      obtain ⟨rsv, hrsv, ⟨bm, ns, copied⟩, hpack, h⟩ := h
      cases h
      obtain ⟨hm, hnodes⟩ := packPages_map (z.reserve rsv hrsv) hpack
      exact ⟨⟨hm, rfl, rfl, rfl⟩, hnodes, fun _ => (SameCursors.packPages hpack).part⟩

theorem SameMap.trimSegment (bm : Bm) {t : Nat} (ht : cfg.dataSblk ≤ t) :
    SameMap cfg bm (trimSegment cfg bm t) where
  bitmap _ _ := rfl
  oob g hg := by
    refine if_neg fun he => ?_
    have hlo := dataGrain_le_iff.mpr (he ▸ ht)
    omega
  sblk i hi := Function.update_of_ne (by omega) ..
  part := rfl

/-- Erasing a data superblock leaves the map side alone. -/
theorem retireVictim_tpages (s : Store) {target : Nat} (ht : cfg.dataSblk ≤ target) :
    SameTpages cfg s (retireVictim cfg s target) := by
  have hm := SameMap.trimSegment s.bm ht
  unfold retireVictim
  dsimp only
  split
  · split
    · exact ⟨hm.trans ((SameMap.setSblk _ ht _).trans (.setDataPart _ _)), rfl, rfl, rfl⟩
    · exact ⟨hm.trans ((SameMap.setSblk _ ht _).trans (.setDataPart _ _)), rfl, rfl, rfl⟩
  · exact ⟨hm.trans (.setDataPart _ _), rfl, rfl, rfl⟩

namespace Store.Tidy

variable {s s' : Store}

/-- Steps on the data side keep the invariant. -/
theorem sameTpages (h : s.Tidy cfg) (ht : SameTpages cfg s s') (z : s'.Zoned cfg)
    (hs : Started cfg s') : s'.Tidy cfg := by
  refine ⟨z, hs, h.copied.congr ht.map (by rw [ht.cold]) ht.active ht.reserve, ?_, ?_⟩
  · rw [ht.cold]
    exact h.clean
  · rw [ht.cold]
    exact h.mapped

/-- A collection takes a victim only after the cursor was set. -/
theorem cursor_ne_none (h : s.Tidy cfg) {idx t : Nat}
    (ht : getGcTarget cfg s.bm .data idx = some t) : s.bm.dataPart.activeSblk ≠ none := by
  refine h.started.resolve_right fun hz => ?_
  have hlt := (getGcTarget_spec ht).2.2.2
  rw [hz.2 t (h.zoned.toZoned.target ht).1] at hlt
  omega

end Store.Tidy

/-- A collection for stream `idx` has written the live items of its victim back: the store
    `s₁` before the mapping update. -/
def GcWritten (cfg : Settings) (s : Store) (idx target : Nat) (s₁ : Store)
    (nodes : List GcNode) : Prop :=
  getGcTarget cfg s.bm .data idx = some target ∧ ∃ bm items,
    collectPages cfg s.bm (pagesContainingValidGrain cfg s.bm target) = some (bm, items) ∧
    writeItems cfg { s with bm := bm } target (pagesContainingValidGrain cfg s.bm target) items =
      some (s₁, nodes)

/-- A collection: written items, a mapping update, an erased victim. -/
theorem dpageGc_eq_some {s s' : Store} {idx : Nat} (h : dpageGc cfg s idx = some s') :
    ∃ target s₁ nodes s₂, GcWritten cfg s idx target s₁ nodes ∧
      bulkMappingUpdate cfg s₁ nodes = some s₂ ∧ retireVictim cfg s₂ target = s' := by
  unfold dpageGc at h
  simp only [Option.bind_eq_bind, Option.bind_eq_some_iff, Option.pure_def, Option.some.injEq] at h
  obtain ⟨target, ht, ⟨bm, items⟩, hc, ⟨s₁, nodes⟩, h₁, s₂, h₂, rfl⟩ := h
  exact ⟨target, s₁, nodes, s₂, ⟨ht, bm, items, hc, h₁⟩, h₂, rfl⟩

namespace Store.Tidy

variable {s s' : Store}

/-- The items go to data pages, and the cursor of the data partition is set. -/
theorem gcWritten {idx target : Nat} {s₁ : Store} {nodes : List GcNode} (h : s.Tidy cfg)
    (hfresh : s.gcFresh cfg idx = true) (hw : GcWritten cfg s idx target s₁ nodes) :
    s₁.Tidy cfg ∧ s₁.cold = s.cold ∧ (∀ n ∈ nodes, cfg.dataGrain ≤ n.ppa) ∧
      s₁.bm.dataPart.activeSblk ≠ none := by
  obtain ⟨ht, bm, items, hc, h₁⟩ := hw
  have htarget := h.zoned.toZoned.target ht
  have hblocks := collectPages_blocks hc
  have z₀ : Store.Zoned cfg { s with bm := bm } := h.zoned.congr ⟨hblocks.cursors, rfl, rfl⟩
  have hcollect : SameTpages cfg s { s with bm := bm } := by
    refine .of_map s (collectPages_map (fun p hp => ?_) hc)
    have hmem := (List.mem_range'_1.mp (List.mem_filter.mp hp).1).1
    exact Nat.le_trans (dataPage_le_sblkOfft2Ppa htarget.1 0) hmem
  -- The condition of a run: the stream has no open page.
  have hroom : cfg.dataSegregation = true → items = [] ∨
      (bm.stream (victimStream bm target)).grainRemain = 0 := fun hds => by
    have hitems : s.gcItems cfg idx = items := by simp only [Store.gcItems, ht, hc]
    have hvs : victimStream bm target = victimStream s.bm target := by
      obtain ⟨n, hn⟩ := hblocks.sblk target
      unfold victimStream
      rw [hn]
    simp only [Store.gcFresh, hds, ht, hitems, Bool.not_true, Bool.false_or, Bool.or_eq_true,
      List.isEmpty_iff, decide_eq_true_eq] at hfresh
    rw [hvs, hblocks.cursors.stream]
    exact hfresh
  obtain ⟨hwrite, hnodes, hpart⟩ := writeItems_tpages z₀ hroom h₁
  have z₁ := z₀.writeItems h₁
  -- The segregated build has set the cursor before; the other build leaves it alone.
  have hcur : s₁.bm.dataPart.activeSblk ≠ none := by
    by_cases hds : cfg.dataSegregation = true
    · exact z₁.toZoned.started hds
    · rw [hpart (by simpa using hds)]
      show bm.dataPart.activeSblk ≠ none
      rw [hblocks.cursors.part]
      exact h.cursor_ne_none ht
  exact ⟨h.sameTpages (hcollect.trans hwrite) z₁ (Or.inl hcur), (hcollect.trans hwrite).cold,
    hnodes, hcur⟩

/-- A collection writes the live items to data pages, updates the mapping and retires
    the victim. -/
theorem dpageGc_split {idx : Nat} (h : s.Tidy cfg) (hfresh : s.gcFresh cfg idx = true)
    (hg : HashKv.dpageGc cfg s idx = some s') :
    s'.bm.dataPart.activeSblk ≠ none ∧ ∃ s₁ s₂ nodes, s₁.Tidy cfg ∧ s₁.cold = s.cold ∧
      (∀ n ∈ nodes, cfg.dataGrain ≤ n.ppa) ∧ bulkMappingUpdate cfg s₁ nodes = some s₂ ∧
      SameTpages cfg s₂ s' := by
  have z' := h.zoned.dpageGc hg
  obtain ⟨target, s₁, nodes, s₂, hw, h₂, rfl⟩ := dpageGc_eq_some hg
  have htarget := h.zoned.toZoned.target hw.1
  obtain ⟨t₁, hcold, hnodes, hcur⟩ := h.gcWritten hfresh hw
  have hcur₂ : (retireVictim cfg s₂ target).bm.dataPart.activeSblk ≠ none := by
    by_cases hds : cfg.dataSegregation = true
    · exact z'.toZoned.started hds
    · rw [← (SameDataPath.bulkMappingUpdate h₂).cursors.part] at hcur
      unfold retireVictim
      rw [if_neg hds]
      exact hcur
  exact ⟨hcur₂, s₁, s₂, nodes, t₁, hcold, hnodes, h₂, retireVictim_tpages s₂ htarget.1⟩

/-- A collection of data pages keeps the invariant. -/
theorem dpageGc {idx : Nat} (h : s.Tidy cfg) (hfresh : s.gcFresh cfg idx = true)
    (hg : HashKv.dpageGc cfg s idx = some s') :
    s'.Tidy cfg ∧ s'.bm.dataPart.activeSblk ≠ none := by
  obtain ⟨hcur, s₁, s₂, nodes, t₁, -, hnodes, h₂, hsame⟩ := h.dpageGc_split hfresh hg
  have t₂ := ((mappingInvariant_tidy cfg).bulkMappingUpdate hnodes
    ⟨t₁, fun _ hf => hf.elim⟩ h₂).1
  exact ⟨t₂.sameTpages hsame (h.zoned.dpageGc hg) (Or.inl hcur), hcur⟩

end Store.Tidy

theorem Started.startable {s : Store} (h : Started cfg s) : Startable cfg s.bm := by
  intro hnone
  obtain ⟨-, hz⟩ := h.resolve_left (not_not.mpr hnone)
  have hpps := cfg.pps_pos
  have hlt := cfg.dataSblk_lt
  have hopen : ∀ j, cfg.dataSblk ≤ j → checkFull cfg s.bm j = false := fun j hj => by
    rw [checkFull, hz j hj, decide_eq_false_iff_not]
    omega
  by_cases hr : s.bm.dataPart.sblkRsv = cfg.dataSblk
  · exact ⟨cfg.dataSblk + 1, ⟨Nat.le_succ _, hlt⟩, by omega, hopen _ (Nat.le_succ _)⟩
  · exact ⟨cfg.dataSblk, ⟨Nat.le_refl _, by omega⟩, Ne.symm hr, hopen _ (Nat.le_refl _)⟩

namespace Store.Tidy

variable {s s' : Store}

/-- Before a data page is taken the cursor is set. -/
theorem dSwitch (h : s.Tidy cfg) (hds : cfg.dataSegregation = false)
    (hfresh : s.gcDue cfg 0 = true → s.gcFresh cfg 0 = true)
    (ha : HashKv.dSwitch cfg s = some s') :
    s'.Tidy cfg ∧ s'.bm.dataPart.activeSblk ≠ none := by
  unfold HashKv.dSwitch at ha
  split at ha
  · next hfull =>
    split at ha
    · next hgc => exact h.dpageGc (hfresh (by simp [Store.gcDue, hgc, hds, hfull])) ha
    · obtain ⟨⟨i, bm⟩, hi, rfl⟩ := Option.map_eq_some_iff.mp ha
      obtain ⟨hd, -, z, free, rfl⟩ := h.zoned.toInZone.getActiveSblk h.started.startable hi
      have hcur : (s.bm.setPart .data { s.bm.dataPart with
          activeSblk := some i, freeSblkCnt := free }).dataPart.activeSblk ≠ none :=
        Option.some_ne_none i
      refine ⟨h.sameTpages ⟨.setDataPart _ _, rfl, rfl, rfl⟩ ⟨z, fun a ha => ?_, h.zoned.reserve⟩
        (Or.inl hcur), hcur⟩
      cases ha
      exact hd
  · next hall =>
    cases ha
    refine ⟨h, h.started.elim id fun hz => ?_⟩
    rw [hz.1] at hall
    exact absurd rfl hall

/-- An allocation hands out a data page. -/
theorem dpAlloc {idx ppa : Nat} (h : s.Tidy cfg) (hidx : cfg.dataSegregation = true ∨ idx = 0)
    (hfresh : s.gcDue cfg idx = true → s.gcFresh cfg idx = true)
    (ha : HashKv.dpAlloc cfg s idx = some (ppa, s')) : s'.Tidy cfg ∧ cfg.dataPage ≤ ppa := by
  obtain ⟨z', hp⟩ := h.zoned.dpAlloc h.started.startable ha
  refine ⟨?_, hp⟩
  unfold HashKv.dpAlloc at ha
  split at ha
  · next hds =>
    simp only [Option.bind_eq_bind, Option.bind_eq_some_iff] at ha
    obtain ⟨a, hact, s₁, h₁, ⟨i, bm⟩, h₂, he⟩ := ha
    have t₁ : s₁.Tidy cfg := by
      unfold streamGc at h₁
      split at h₁
      -- The collection that comes first.
      · next hgc =>
        rw [Bool.and_eq_true] at hgc
        exact (h.dpageGc (hfresh (by simp [Store.gcDue, hgc, hds, hact])) h₁).1
      · cases h₁
        exact h
    have ho := getStreamSblk_spec hds t₁.zoned.toZoned h₂
    cases he
    exact t₁.sameTpages ⟨ho.map.trans (.getPageNum bm ho.data), rfl, rfl, rfl⟩ z'
      (Or.inl (z'.toZoned.started hds))
  · next hds =>
    have hds' : cfg.dataSegregation = false := by simpa using hds
    obtain rfl := hidx.resolve_left hds
    simp only [Option.bind_eq_bind, Option.bind_eq_some_iff] at ha
    obtain ⟨s₁, h₁, a, hact, he⟩ := ha
    obtain ⟨t₁, hcur⟩ := h.dSwitch hds' hfresh h₁
    cases he
    exact t₁.sameTpages ⟨.getPageNum s₁.bm (t₁.zoned.active a hact), rfl, rfl, rfl⟩ z' (Or.inl hcur)

/-- An entry of the segregated build is placed in a data page. -/
theorem assignEntry {fl fl' : Nat → List FlushNode} {e : WbEntry} {pga : Nat}
    (h : s.Tidy cfg) (hds : cfg.dataSegregation = true)
    (hfresh : (s.bm.stream (dIdx (getLpa cfg e.hParams) % 8)).grainRemain = 0 →
      s.gcDue cfg (dIdx (getLpa cfg e.hParams) % 8) = true →
      s.gcFresh cfg (dIdx (getLpa cfg e.hParams) % 8) = true)
    (ha : HashKv.assignEntry cfg s fl e = some (s', fl', pga)) :
    s'.Tidy cfg ∧ cfg.dataGrain ≤ pga := by
  unfold HashKv.assignEntry at ha
  simp only [Option.bind_eq_bind, Option.bind_eq_some_iff] at ha
  obtain ⟨⟨s₁, fl₁, ppa⟩, h₁, bm, hb, he⟩ := ha
  generalize dIdx (getLpa cfg e.hParams) % 8 = idx at *
  have hpage : s₁.Tidy cfg ∧ cfg.dataPage ≤ ppa ∧
      (s₁.bm.stream idx).activePpa = ppa := by
    unfold assignPage at h₁
    split at h₁
    -- No room in the open page: a new one is allocated.
    · next hrem =>
      simp only [Option.bind_eq_bind, Option.bind_eq_some_iff] at h₁
      obtain ⟨⟨p, s₂⟩, h₂, a, hact, he⟩ := h₁
      obtain ⟨t₂, hp⟩ := h.dpAlloc (Or.inl hds) (hfresh hrem) h₂
      cases he
      have z : Store.Zoned cfg { s₂ with bm := s₂.bm.setStream idx { s₂.bm.stream idx with
          activeSblkOffset := (s₂.bm.sblk a).wpOfft, activePpa := p, grainRemain := 4,
          flushPpa := p, flushPage := 1 } } :=
        ⟨t₂.zoned.toZoned.setStream idx (fun b hb => t₂.zoned.stream idx b hb) fun _ => hp,
          t₂.zoned.active, t₂.zoned.reserve⟩
      refine ⟨t₂.sameTpages ⟨.setStream _ idx _, rfl, rfl, rfl⟩ z
        (Or.inl (z.toZoned.started hds)), hp, ?_⟩
      simp [Bm.setStream]
    · next hrem =>
      cases h₁
      have hp := h.zoned.page idx hrem
      have z : Store.Zoned cfg { s with bm := s.bm.setStream idx { s.bm.stream idx with
          flushPage := (s.bm.stream idx).flushPage + 1 } } :=
        ⟨h.zoned.toZoned.setStream idx (fun b hb => h.zoned.stream idx b hb) fun _ => hp,
          h.zoned.active, h.zoned.reserve⟩
      refine ⟨h.sameTpages ⟨.setStream _ idx _, rfl, rfl, rfl⟩ z
        (Or.inl (z.toZoned.started hds)), hp, ?_⟩
      simp [Bm.setStream]
  obtain ⟨t₁, hp, hcur⟩ := hpage
  cases he
  have hg := dataGrain_le_ppaToPga hp (sub32 4 (s₁.bm.stream idx).grainRemain)
  have z₂ : HashKv.Zoned cfg (s₁.bm.setStream idx { s₁.bm.stream idx with
      grainRemain := sub32 (s₁.bm.stream idx).grainRemain e.valLen }) :=
    t₁.zoned.toZoned.setStream idx (fun b hb => t₁.zoned.stream idx b hb) fun _ => by
      rw [← hcur] at hp
      exact hp
  have z' : Store.Zoned cfg { s₁ with bm := bm } :=
    ⟨z₂.congr (placeItem_blocks hb).cursors, t₁.zoned.active, t₁.zoned.reserve⟩
  have hm := (SameMap.setStream s₁.bm idx _).trans (placeItem_map hg hb)
  exact ⟨t₁.sameTpages ⟨hm, rfl, rfl, rfl⟩ z' (Or.inl (z'.toZoned.started hds)), hg⟩

end Store.Tidy

/-! ## Section 5: Runs -/

/-- A step does not collect into a page that its stream has open. -/
def gcFresh (cfg : Settings) (f : Ftl) : Label → Bool
  | .assign => (f.gcStream cfg).all (f.store.gcFresh cfg)
  | _ => true

structure Ftl.Tidy (cfg : Settings) (f : Ftl) : Prop where
  store : f.store.Tidy cfg
  wb : ∀ e ∈ f.wb, ∀ p, e.ppa = some p → cfg.dataGrain ≤ p

/-- The grain of an old value is given up. -/
theorem Store.Tidy.wbInvalidateOld {s : Store} (h : s.Tidy cfg) (lpa : Nat) :
    (HashKv.wbInvalidateOld cfg s lpa).Tidy cfg := by
  have z : (HashKv.wbInvalidateOld cfg s lpa).Zoned cfg := h.zoned.congr (.wbInvalidateOld s lpa)
  unfold HashKv.wbInvalidateOld at z ⊢
  split
  · next p hp =>
    rw [hp] at z
    have hm := @invalidateGrains_map cfg s.bm p (h.mapped lpa p hp) (s.bm.oob p).length
    have hb : SameBlocks s.bm (invalidateGrains cfg s.bm p (s.bm.oob p).length) :=
      (grainInvariant_blocks cfg s.bm).invalidateGrains (fun _ _ => trivial) (.refl _)
    refine h.sameTpages (.of_map s hm) z (h.started.congr ?_ rfl fun i _ => ?_)
    · exact congrArg Part.activeSblk hb.dataPart
    · obtain ⟨n, hn⟩ := hb.sblk i
      show ((invalidateGrains cfg s.bm p (s.bm.oob p).length).sblk i).wpOfft = _
      rw [hn]
  · exact h

/-- A mapping to a data grain is installed. -/
theorem Store.Tidy.wbInstall {s : Store} (h : s.Tidy cfg) {lpa ppa : Nat} {fp : UInt32}
    (hp : cfg.dataGrain ≤ ppa) : (wbInstall cfg s lpa ppa fp).Tidy cfg := by
  have hppa : ∀ p, (⟨some ppa, fp⟩ : Pte).ppa = some p → cfg.dataGrain ≤ p := fun p he => by
    cases he
    exact hp
  have hu : (s.update cfg lpa ⟨some ppa, fp⟩).Tidy cfg := by
    cases hpt : (s.cold.cmt (dIdx lpa)).pt with
    | true => exact (h.update hpt hppa).1
    | false => exact h.updateAway hpt hppa
  exact hu.sameTpages (.of_map _ (.setOob _ hp _)) (h.zoned.congr (.wbInstall s lpa ppa fp))
    (hu.started.congr rfl rfl fun _ _ => rfl)

/-- The entry in turn has a data grain. -/
theorem Ftl.Tidy.pending {f : Ftl} (h : f.Tidy cfg) (hd : Drawn f) {m : MapUpdate} {e : WbEntry}
    (hp : f.phase = .mapping m) (hc : m.cur = some e) {p : Nat} (hppa : e.ppa = some p) :
    cfg.dataGrain ≤ p := by
  obtain ⟨x, hx, hv⟩ := hd m hp e (by simp [MapUpdate.pending, hc])
  exact h.wb x hx p (hv.ppa ▸ hppa)

/-- Every step keeps the invariant. -/
theorem Ftl.Tidy.step {f f' : Ftl} {a : Label} (h : f.Tidy cfg) (hd : Drawn f)
    (hok : HashKv.gcFresh cfg f a = true) (hstep : Step cfg hs f a f') :
    f'.Tidy cfg := by
  have hpass : ∀ {e : WbEntry} {choice : Rebalance} {s : Store} {ex : WbExit},
      wbPass cfg f.realKeys f.hashTable f.store e choice = some (s, ex) → s.Tidy cfg :=
    fun hw => (WbPath.of_pass hw).2.preserves (accessInvariant_tidy cfg)
      (fun _ _ _ _ h₁ hl => (listUpInvariant_tidy cfg).listUp h₁ hl) h.store
  cases hstep with
  | getPass choice r s ex hp hget =>
    have hs := (GetPath.of_pass hget).preserves (accessInvariant_tidy cfg)
      (fun _ _ _ hl => (listUpInvariant_tidy cfg).listUp h.store hl) h.store
    cases ex <;> exact ⟨hs, h.wb⟩
  | setInsert key bytes hp hv hk hfull =>
    refine ⟨h.store, fun e he p hppa => ?_⟩
    rcases mem_wbInsert_value he with he | ⟨-, -, hnone | ⟨x, hx, hx'⟩⟩
    · exact h.wb e he p hppa
    · rw [hnone] at hppa
      cases hppa
    · exact h.wb x hx p (hx' ▸ hppa)
  -- The entry gets a grain of a data page.
  | assignEntry m e s fl pga hp hdone hds he ha =>
    have hdue : (f.store.bm.stream (dIdx (getLpa cfg e.hParams) % 8)).grainRemain = 0 →
        f.store.gcDue cfg (dIdx (getLpa cfg e.hParams) % 8) = true →
        f.store.gcFresh cfg (dIdx (getLpa cfg e.hParams) % 8) = true := fun hrem hgc => by
      have hstream : f.gcStream cfg = some (dIdx (getLpa cfg e.hParams) % 8) := by
        simp [Ftl.gcStream, hp, hdone, hds, he, hrem, hgc]
      simpa [HashKv.gcFresh, hstream] using hok
    obtain ⟨ht, hg⟩ := h.store.assignEntry hds hdue ha
    refine ⟨ht, fun x hx p hppa => ?_⟩
    rcases mem_wbSetPpa hx with hx | hx
    · exact h.wb x hx p hppa
    · rw [hx] at hppa
      cases hppa
      exact hg
  | assignPage m ppa s bm wb hp hdone hds ha hb =>
    have hdue : f.store.gcDue cfg 0 = true → f.store.gcFresh cfg 0 = true := fun _ => by
      simp [Store.gcFresh, hds]
    obtain ⟨ht, hpage⟩ := h.store.dpAlloc (Or.inr rfl) hdue ha
    have hblocks := placeEntries_blocks hb
    refine ⟨ht.sameTpages (.of_map s (placeEntries_map hpage hb))
      (ht.zoned.congr ⟨⟨hblocks.dataPart, hblocks.stream⟩, rfl, rfl⟩)
      (ht.started.congr (congrArg Part.activeSblk hblocks.dataPart) rfl fun i _ => ?_), ?_⟩
    · obtain ⟨n, hn⟩ := hblocks.sblk i
      show (bm.sblk i).wpOfft = _
      rw [hn]
    · have hplaced : ∀ (ps : List (Placed WbEntry)) (w : List WbEntry),
          (∀ e ∈ w, ∀ p, e.ppa = some p → cfg.dataGrain ≤ p) →
          ∀ e ∈ ps.foldl (fun w p => wbSetPpa w p.item.key (ppaToPga ppa p.offset)) w,
            ∀ p, e.ppa = some p → cfg.dataGrain ≤ p := by
        intro ps
        induction ps with
        | nil => exact fun w hw => hw
        | cons x xs ih =>
          intro w hw
          refine ih _ fun e he p hppa => ?_
          rcases mem_wbSetPpa he with he | he
          · exact hw e he p hppa
          · rw [he] at hppa
            cases hppa
            exact dataGrain_le_ppaToPga hpage _
      rw [placeEntries_wb hb]
      exact hplaced _ f.wb h.wb
  | wbAgain choice m e s e' hp hc hw | wbParked choice m e s e' hp hc hw =>
    exact ⟨hpass hw, h.wb⟩
  | wbUpdate choice m e s e' ppa hp hc hw hppa =>
    have hv := (WbPath.of_pass hw).2.sameValue
    have hg := h.pending hd hp hc (hv.ppa ▸ hppa)
    exact ⟨((hpass hw).wbInvalidateOld _).wbInstall hg, h.wb⟩
  | wbDirectUpdate choice m e s e' ppa hp hc hw hppa =>
    have hv := (WbPath.of_pass hw).2.sameValue
    have hg := h.pending hd hp hc (hv.ppa ▸ hppa)
    exact ⟨(hpass hw).wbInstall hg, h.wb⟩
  | flush m ssd hp =>
    refine ⟨⟨⟨h.store.zoned.toZoned, h.store.zoned.active, h.store.zoned.reserve⟩,
      h.store.started.congr rfl rfl fun _ _ => rfl, h.store.copied.congr (.refl _) rfl rfl rfl,
      h.store.clean, h.store.mapped⟩, fun e he p hppa => ?_⟩
    rcases mem_wbInsert_value he with he | ⟨-, -, hnone | ⟨x, hx, -⟩⟩
    · cases he
    · rw [hnone] at hppa
      cases hppa
    · cases hx
  | promote page hp => exact ⟨(listUpInvariant_tidy cfg).promote page h.store, h.wb⟩
  | rehashBegin hp | rehashTick hp => exact ⟨h.store.setTables _ (.refl _), h.wb⟩
  | get | resume | setFull | endAssign | pickRetry | pickMaster => exact ⟨h.store, h.wb⟩

/-- A created store has it. -/
theorem create_tidy {garbage : Nat → Key} {f : Ftl} (h : Ftl.create cfg garbage = some f) :
    f.Tidy cfg := by
  have hz := (create_zoned h).1
  have hc := create_copied h
  have hstarted : Started cfg f.store := by
    by_cases hds : cfg.dataSegregation = true
    · exact Or.inl (hz.toZoned.started hds)
    · obtain ⟨s, hs, rfl⟩ := Option.map_eq_some_iff.mp h
      obtain ⟨bm, hb, rfl⟩ := Option.map_eq_some_iff.mp hs
      unfold bmInit at hb
      rw [if_neg hds] at hb
      cases hb
      exact Or.inr ⟨rfl, fun _ _ => rfl⟩
  obtain ⟨s, hs, rfl⟩ := Option.map_eq_some_iff.mp h
  obtain ⟨bm, hb, rfl⟩ := Option.map_eq_some_iff.mp hs
  exact ⟨⟨hz, hstarted, hc, (fun _ hd => by cases hd), (fun _ _ hp => by cases hp)⟩,
    fun _ he => by cases he⟩

/-- So it holds in every state of such a run. -/
theorem reach_tidy {ok : Ftl → Label → Prop} (hle : ∀ f a, ok f a → gcFresh cfg f a = true)
    {f : Ftl} (h : (machine cfg hs).Reach ok f) : f.Tidy cfg :=
  h.invariant (fun _ ⟨_, hi⟩ => create_tidy hi) fun _ _ _ hr ih hok hn =>
    ih.step (reach_drawn hr) (hle _ _ hok) (.of_next hn)

/-- While no collection continues an open page, dirty pages have no copy, a copy is a
    whole labelled MAP page of its own, and each MAP page with a valid grain is the copy
    of one page. -/
theorem tpage_ownership {f : Ftl}
    (h : (machine cfg hs).Reach (fun f a => gcFresh cfg f a = true) f) :
    (∀ page, (f.store.cold.cmt page).dirty = true → (f.store.cold.cmt page).tPpa = none) ∧
    (∀ page p, (f.store.cold.cmt page).tPpa = some p → p < cfg.dataPage ∧
      (∀ g, g / 4 = p → f.store.bm.validBitmap g = true) ∧
      (f.store.bm.oob (p * 4)).isTpage = true ∧ (f.store.bm.oob (p * 4)).lpa = page) ∧
    (∀ page page' p, (f.store.cold.cmt page).tPpa = some p →
      (f.store.cold.cmt page').tPpa = some p → page = page') ∧
    (∀ p < cfg.dataPage, containsValidGrain f.store.bm p = true →
      ∃! page, (f.store.cold.cmt page).tPpa = some p) := by
  have ht := (reach_tidy (fun _ _ hok => hok) h).store
  have hc := ht.copied.toCopies
  refine ⟨ht.clean, fun page p hp => ?_, fun page page' p hp hp' => hc.linked.injective hp hp',
    fun p hlt hv => ?_⟩
  · obtain ⟨hlt, hv, hl⟩ := hc.valid hp
    refine ⟨hlt, fun g hg => ?_, hc.labelled p hlt hv, hl⟩
    have hdata := lt_dataGrain hlt
    have hgrain : g < cfg.dataGrain := by
      unfold Settings.dataGrain at hdata ⊢
      omega
    rw [hc.whole g hgrain, hg]
    exact hv
  -- A map page is valid as a whole.
  · have hgrain : ∀ i < 4, f.store.bm.validBitmap (p * 4 + i) = isValidPage f.store.bm p :=
      fun i hi => by
        have hlt' : p * 4 + i < cfg.dataGrain := by
          unfold Settings.dataGrain
          omega
        rw [hc.whole _ hlt', show (p * 4 + i) / 4 = p by omega]
    have hvalid : isValidPage f.store.bm p = true := by
      unfold containsValidGrain at hv
      rw [hgrain 1 (by decide), hgrain 2 (by decide), hgrain 3 (by decide)] at hv
      simpa [isValidPage] using hv
    exact ⟨_, hc.owner hlt hvalid, fun page hp => hc.linked.injective hp (hc.owner hlt hvalid)⟩

/-! ## Section 6: Concrete runs -/

/-- Hash functions under which the key of byte `b` starts in page `b % 8`, slot `b / 8`. -/
def spreadHash : Hashing :=
  ⟨fun k => 512 * ((k.bytes.headD 0).toUInt32 % 8) + (k.bytes.headD 0).toUInt32 / 8,
    fun k => (k.bytes.headD 0).toUInt32⟩

/-- Superblocks of two pages, a write buffer of one entry, a cache of one page. -/
def smallStreams : Settings :=
  .scaled true false 2 40 8 1 1 Nat.two_pos (by decide) eight_pos Nat.one_pos Nat.one_pos
    (by decide)

/-- A set that flushes a write buffer of one entry, which is parked `retries` times. -/
def flushRetry (b : UInt8) (bytes retries : Nat) : List Label :=
  [.set (byteKey b) bytes, .assign, .assign, .pickMaster, .wbPass .keep] ++
    (List.replicate retries [.pickRetry 0, .wbPass .keep]).flatten ++ [.flush]

/-- The keys 1, 9, .. of page 1 fill the superblocks of stream 1 page by page until the
    next switch makes a collection due. The key of byte 185 is still buffered. -/
def fillStream : List Label :=
  .set (byteKey 1) 4000 ::
    (List.range 23).flatMap fun i => flushRetry (UInt8.ofNat (9 + 8 * i)) 4000 0

/-- Page 1 is evicted once, page 2 is cached and dirty. -/
theorem tpage_ownership_evicted : ∃ f : Ftl, (f.store.cold.cmt 1).tPpa = some 4 ∧
    (f.store.cold.cmt 2).dirty = true ∧ (f.store.cold.cmt 2).tPpa = none ∧
    (∀ g, g / 4 = 4 → f.store.bm.validBitmap g = true) ∧ (f.store.bm.oob 16).lpa = 1 := by
  obtain ⟨f, hf, hp⟩ := exists_reach_of_run smallStreams spreadHash (gcFresh smallStreams)
    (fillStream ++ flushRetry 2 4000 0 ++ flushRetry 10 4000 1)
    (fun f => (f.store.cold.cmt 1).tPpa = some 4 && (f.store.cold.cmt 2).dirty)
    (by decide +kernel) (by decide +kernel)
  simp only [Bool.and_eq_true, decide_eq_true_eq] at hp
  obtain ⟨hclean, hcopy, -, -⟩ := tpage_ownership hf
  obtain ⟨-, hvalid, -, hl⟩ := hcopy 1 4 hp.1
  exact ⟨f, hp.1, hp.2, hclean 2 hp.2, hvalid, hl⟩

/-- Key 9 is the only live value of its superblock when stream 2 collects it. Stream 1 has
    a page open, so the value goes to grain 2 of page 0. Translation GC later makes page 0
    the copy of page 2, and the next set of key 9 takes grain 2 of it away. -/
theorem strayGrain_counterexample :
    ∃ f, (machine smallStreams spreadHash).Reachable f ∧ f.phase.requestIds = [] ∧
      (f.store.cold.cmt 2).tPpa = some 0 ∧ f.store.bm.validBitmap 2 = false := by
  obtain ⟨f, hf, hp⟩ := exists_reachable_of_run smallStreams spreadHash
    (fillStream ++ flushRetry 1 100 0 ++ flushRetry 193 100 1 ++ flushRetry 2 4000 0 ++
      flushRetry 10 4000 1 ++ flushRetry 18 100 0 ++ flushRetry 193 100 0 ++
      flushRetry 18 100 3 ++ flushRetry 9 100 3 ++ flushRetry 9 100 3)
    (fun f => f.phase.requestIds.isEmpty && (f.store.cold.cmt 2).tPpa = some 0 &&
      !f.store.bm.validBitmap 2) (by decide +kernel)
  simp only [Bool.and_eq_true, List.isEmpty_iff, decide_eq_true_eq, Bool.not_eq_true'] at hp
  exact ⟨f, hf, hp.1.1, hp.1.2, hp.2⟩

end AggreKV.HashKv
