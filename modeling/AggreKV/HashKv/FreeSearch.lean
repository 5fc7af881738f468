import AggreKV.HashKv.Pools

/-! # The search for a free superblock

    `dftl_get_active_sblk` searches the data partition from the superblock
    after the cursor round to the one before it, and never looks at the
    cursor's own. The segregated build gets away with it.

    * `FreeSearch`: the search fails only if nothing is free, and it takes
      an empty superblock.
    * `Orderly`: the cursor rests on a superblock that a stream owns, and
      the superblocks of no stream are empty or full.
    * `Ftl.searches`: the states in which the next step searches. In the
      middle of a switch the cursor may rest on the superblock that was
      just given away; that one is full.

    Nothing is asked of the items that a collection moves: their mapping
    updates may go wrong, but they never reach the pools. -/

namespace AggreKV.HashKv

variable {cfg : Settings} {hs : Hashing}

/-! ## Section 1: One search -/

/-- A superblock of the data partition that the search may take. -/
def IsFree (cfg : Settings) (bm : Bm) (i : Nat) : Prop :=
  cfg.IsData i ∧ (bm.sblk i).isRsv = false ∧ (bm.sblk i).isOwned = false ∧
    checkFull cfg bm i = false

/-- `get_active_superblock(DATA_S, false)` does what its callers rely on. -/
structure FreeSearch (cfg : Settings) (bm : Bm) : Prop where
  complete : getActiveSblk cfg bm .data = none → ∀ i, ¬IsFree cfg bm i
  found : ∀ {i bm'}, getActiveSblk cfg bm .data = some (i, bm') →
    IsFree cfg bm i ∧ (bm.sblk i).wpOfft = 0 ∧ 0 < bm.dataPart.freeSblkCnt ∧
      bm' = bm.setPart .data { bm.dataPart with
        activeSblk := some i, freeSblkCnt := bm.dataPart.freeSblkCnt - 1 }

/-- A free superblock is one that the search may return. -/
theorem isFree_iff {bm : Bm} (hds : cfg.dataSegregation = true) {i : Nat} :
    IsFree cfg bm i ↔ cfg.IsData i ∧ usable cfg bm .data i = true := by
  unfold IsFree usable
  rw [if_pos ⟨hds, rfl⟩]
  simp only [Bool.and_eq_true, Bool.not_eq_true', and_assoc, and_congr_right_iff]
  exact fun _ _ => and_comm

/-- A search that fails has seen every superblock but the cursor's own. -/
theorem usable_of_getActiveSblk_none {bm : Bm} {pn : PartNum} {a i : Nat}
    (ha : (bm.part pn).activeSblk = some a) (h : getActiveSblk cfg bm pn = none)
    (hlo : (bm.part pn).sSblk ≤ i) (hhi : i ≤ (bm.part pn).eSblk)
    (hu : usable cfg bm pn i = true) : i = a := by
  simp only [getActiveSblk, ha, Option.map_eq_none_iff, Option.orElse_eq_orElse,
    Option.orElse_eq_or, Option.some_or, Option.or_eq_none_iff] at h
  obtain ⟨hafter, hbefore⟩ := h
  rcases Nat.lt_trichotomy i a with hlt | heq | hgt
  · have hmem : i ∈ List.range' (bm.part pn).sSblk (a - (bm.part pn).sSblk) :=
      List.mem_range'_1.mpr ⟨hlo, by omega⟩
    exact absurd hu (List.find?_eq_none.mp hbefore i hmem)
  · exact heq
  · obtain ⟨j, hj⟩ := exists_firstSblk (show a + 1 ≤ i from hgt) hhi hu
    rw [hj] at hafter
    cases hafter

/-- The state of a search: the cursor rests where the search would not stop, and
    superblocks of no stream are empty or full. Only the first search of all finds the
    cursor unset. -/
structure Searchable (cfg : Settings) (live : Nat → Prop) (bm : Bm) : Prop where
  zone : InZone cfg bm
  startable : Startable cfg bm
  unset : bm.dataPart.activeSblk = none → getActiveSblk cfg bm .data ≠ none
  pooled : Pooled cfg live bm
  parked : ∀ a, bm.dataPart.activeSblk = some a → ¬IsFree cfg bm a
  settled : ∀ i, cfg.IsData i → (bm.sblk i).isOwned = false →
    (bm.sblk i).wpOfft = 0 ∨ cfg.pps ≤ (bm.sblk i).wpOfft

/-- A search that may miss only the superblock it starts from. -/
theorem Searchable.freeSearch {live : Nat → Prop} {bm : Bm} (hds : cfg.dataSegregation = true)
    (h : Searchable cfg live bm) : FreeSearch cfg bm where
  complete hnone i hi := by
    obtain ⟨hd, hu⟩ := (isFree_iff hds).mp hi
    have hnos := cfg.nos_ge
    obtain ⟨a, ha⟩ := Option.ne_none_iff_exists'.mp fun hn => h.unset hn hnone
    have hlo : bm.dataPart.sSblk ≤ i := by
      rw [h.zone.sSblk]
      exact hd.1
    have hhi : i ≤ bm.dataPart.eSblk := by
      rw [h.zone.eSblk]
      have hlt := hd.2
      omega
    -- A failed search has skipped the superblock of the cursor alone.
    have hia : i = a := @usable_of_getActiveSblk_none cfg bm .data a i ha hnone hlo hhi hu
    exact h.parked a ha (hia ▸ hi)
  found {i bm'} hfound := by
    obtain ⟨hd, hu, -⟩ := h.zone.getActiveSblk h.startable hfound
    have hfree := (isFree_iff hds).mpr ⟨hd, hu⟩
    -- A superblock without owner is empty or full, and the search skips the full ones.
    have hzero : (bm.sblk i).wpOfft = 0 := by
      rcases h.settled i hd hfree.2.2.1 with hz | hfull
      · exact hz
      · have hopen := hfree.2.2.2
        simp only [checkFull, decide_eq_false_iff_not] at hopen
        exact absurd hfull hopen
    have hmem : i ∈ freeSblks cfg bm :=
      mem_freeSblks.mpr ⟨hd, hfree.2.1, hfree.2.2.1, hzero⟩
    have hpos : 0 < bm.dataPart.freeSblkCnt := by
      rw [h.pooled.free]
      exact Finset.card_pos.mpr ⟨i, hmem⟩
    refine ⟨hfree, hzero, hpos, ?_⟩
    rw [getActiveSblk_eq hfound, if_pos hzero]
    have hlt : bm.dataPart.freeSblkCnt < 4294967296 := by
      rw [h.pooled.free]
      exact freeSblks_card_lt cfg bm
    show bm.setPart .data { bm.dataPart with
      activeSblk := some i, freeSblkCnt := sub32 bm.dataPart.freeSblkCnt 1 } = _
    rw [sub32_of_le hpos hlt]

/-! ## Section 2: The MAP partition keeps to itself -/

/-- The cursors of the MAP partition stay inside it. -/
structure Store.MapZone (cfg : Settings) (s : Store) : Prop where
  sSblk : s.bm.mapPart.sSblk = 0
  eSblk : s.bm.mapPart.eSblk + 1 = cfg.dataSblk
  cursor : ∀ a, s.bm.mapPart.activeSblk = some a → a < cfg.dataSblk
  active : ∀ a, s.tActive = some a → a < cfg.dataSblk
  reserve : ∀ a, s.tReserve = some a → a < cfg.dataSblk

/-- The data superblocks differ in their counts of valid grains only. -/
structure DataKept (cfg : Settings) (bm bm' : Bm) : Prop where
  roles : SameRoles bm bm'
  sblk : ∀ i, cfg.dataSblk ≤ i → ∃ n, bm'.sblk i = { bm.sblk i with validCnt := n }
  cursors : SameCursors bm bm'

namespace DataKept

variable {bm bm' bm'' : Bm}

/-- Operations on pages keep the data partition. -/
theorem of_blocks (h : SameBlocks bm bm') : DataKept cfg bm bm' :=
  ⟨.of_blocks h, fun i _ => h.sblk i, h.cursors⟩

theorem refl (bm : Bm) : DataKept cfg bm bm := .of_blocks (.refl bm)

theorem trans (h : DataKept cfg bm bm') (h' : DataKept cfg bm' bm'') : DataKept cfg bm bm'' where
  roles := h.roles.trans h'.roles
  sblk i hi := by
    obtain ⟨n, hn⟩ := h.sblk i hi
    obtain ⟨m, hm⟩ := h'.sblk i hi
    exact ⟨m, by rw [hm, hn]⟩
  cursors := h.cursors.trans h'.cursors

/-- A superblock of the MAP partition changes, except for its role. -/
theorem of_update {i : Nat} {b : Superblock} (hi : i < cfg.dataSblk)
    (h : bm'.sblk = Function.update bm.sblk i b) (ho : b.isOwned = (bm.sblk i).isOwned)
    (hr : b.isRsv = (bm.sblk i).isRsv) (hc : SameCursors bm bm') : DataKept cfg bm bm' := by
  refine ⟨.of_update h ho hr, fun j hj => ⟨(bm.sblk j).validCnt, ?_⟩, hc⟩
  have hji : j ≠ i := by omega
  rw [h]
  exact Function.update_of_ne hji ..

theorem of_sblk (h : bm'.sblk = bm.sblk) (hc : SameCursors bm bm') : DataKept cfg bm bm' :=
  ⟨.of_sblk h, fun i _ => ⟨(bm.sblk i).validCnt, by rw [h]⟩, hc⟩

theorem wpOfft (h : DataKept cfg bm bm') {i : Nat} (hi : cfg.IsData i) :
    (bm'.sblk i).wpOfft = (bm.sblk i).wpOfft := by
  obtain ⟨n, hn⟩ := h.sblk i hi.1
  rw [hn]

theorem victim {t : Nat} (h : DataKept cfg bm bm') (hv : Victim cfg bm t) : Victim cfg bm' t := by
  obtain ⟨n, hn⟩ := h.sblk t hv.data.1
  exact ⟨hv.data, hn ▸ hv.owned, hn ▸ hv.reserved, hn ▸ hv.full⟩

theorem pooled {live : Nat → Prop} (h : DataKept cfg bm bm') (hp : Pooled cfg live bm) :
    Pooled cfg live bm' := by
  refine hp.congr h.roles (fun i ho => ?_) (fun i hd _ => h.wpOfft hd)
    (fun j => by rw [h.cursors.stream]) h.cursors.part
  obtain ⟨idx, hl, ha⟩ := hp.owned i ho
  obtain ⟨a, ha', hd, -, -⟩ := hp.streams idx hl
  cases ha.symm.trans ha'
  obtain ⟨n, hn⟩ := h.sblk i hd.1
  rw [hn]

end DataKept

/-- What the MAP partition does between two states. -/
structure MapQuiet (cfg : Settings) (s₀ s : Store) : Prop where
  zone : s.MapZone cfg
  kept : DataKept cfg s₀.bm s.bm

namespace MapQuiet

variable {s₀ s s' : Store}

theorem refl (h : s.MapZone cfg) : MapQuiet cfg s s := ⟨h, .refl _⟩

theorem blocks (h : MapQuiet cfg s₀ s) (hb : SameBlocks s.bm s'.bm) (ha : s'.tActive = s.tActive)
    (hr : s'.tReserve = s.tReserve) : MapQuiet cfg s₀ s' := by
  obtain ⟨z, hk⟩ := h
  have hpart := hb.mapPart
  exact ⟨⟨hpart ▸ z.sSblk, hpart ▸ z.eSblk, hpart ▸ z.cursor, ha ▸ z.active, hr ▸ z.reserve⟩,
    hk.trans (.of_blocks hb)⟩

theorem of_tables (h : MapQuiet cfg s₀ s) (hs : OnlyTables s s') : MapQuiet cfg s₀ s' := by
  obtain ⟨cold, hot, rfl⟩ := hs
  exact h.blocks (.refl _) rfl rfl

/-- The next page of a superblock of the partition, full or not. -/
theorem getPageNum (h : MapQuiet cfg s₀ s) {a : Nat} (ha : a < cfg.dataSblk) :
    MapQuiet cfg s₀ { s with bm := (HashKv.getPageNum cfg s.bm a).2 } := by
  obtain ⟨z, hk⟩ := h
  exact ⟨⟨z.sSblk, z.eSblk, z.cursor, z.active, z.reserve⟩,
    hk.trans (.of_update ha rfl rfl rfl ⟨rfl, rfl⟩)⟩

theorem validatePage_blocks (bm : Bm) (ppa page : Nat) :
    SameBlocks bm ((validatePage cfg bm ppa).setOob (ppa * 4) ⟨true, page, 4096⟩) := by
  refine ⟨fun i => ?_, rfl, rfl, rfl⟩
  show ∃ n, Function.update bm.sblk (ppa / cfg.pps) _ i = _
  by_cases hi : i = ppa / cfg.pps
  · subst hi
    exact ⟨_, Function.update_self ..⟩
  · exact ⟨(bm.sblk i).validCnt, Function.update_of_ne hi ..⟩

theorem invalidatePage_blocks (bm : Bm) (ppa : Nat) :
    SameBlocks bm (invalidatePage cfg bm ppa) := by
  refine ⟨fun i => ?_, rfl, rfl, rfl⟩
  show ∃ n, Function.update bm.sblk (ppa / cfg.pps) _ i = _
  by_cases hi : i = ppa / cfg.pps
  · subst hi
    exact ⟨_, Function.update_self ..⟩
  · exact ⟨(bm.sblk i).validCnt, Function.update_of_ne hi ..⟩

/-- Collecting invalidates pages only. -/
theorem collectTpages_blocks : ∀ {n : Nat} {ssd : Ssd} {bm bm' : Bm} {ppa : Nat}
    {pages : List Nat}, collectTpages cfg ssd bm ppa n = some (bm', pages) → SameBlocks bm bm'
  | 0, _, _, _, _, _, h => by
      cases h
      exact .refl _
  | n + 1, ssd, bm, bm', ppa, pages, h => by
      unfold collectTpages at h
      split at h
      · split at h
        · obtain ⟨⟨bm₁, rest⟩, hr, he⟩ := Option.map_eq_some_iff.mp h
          cases he
          exact (invalidatePage_blocks bm ppa).trans (collectTpages_blocks hr)
        · cases h
      · exact collectTpages_blocks h

/-- A collection of mapping pages stays in its partition. -/
theorem moveTpages {rsv : Nat} (hr : rsv < cfg.dataSblk) : ∀ (pages : List Nat) {s : Store},
    MapQuiet cfg s₀ s → MapQuiet cfg s₀ (pages.foldl (moveTpage cfg rsv) s)
  | [], _, h => h
  | page :: pages, s, h => by
      have hpage : MapQuiet cfg s₀ (moveTpage cfg rsv s page) :=
        (h.getPageNum hr).blocks (validatePage_blocks _ _ page) rfl rfl
      exact moveTpages hr pages hpage

theorem tpageGc (h : MapQuiet cfg s₀ s) (hg : HashKv.tpageGc cfg s = some s') :
    MapQuiet cfg s₀ s' := by
  unfold HashKv.tpageGc at hg
  simp only [Option.bind_eq_bind, Option.bind_eq_some_iff, Option.pure_def, Option.some.injEq] at hg
  obtain ⟨target, ht, rsv, hrsv, ⟨bm, pages⟩, hc, rfl⟩ := hg
  have hr := h.zone.reserve rsv hrsv
  have htarget : target < cfg.dataSblk := by
    have hhi := (getGcTarget_spec ht).2.1
    have he := h.zone.eSblk
    change target ≤ s.bm.mapPart.eSblk at hhi
    omega
  have h₁ : MapQuiet cfg s₀ { s with bm := bm } := h.blocks (collectTpages_blocks hc) rfl rfl
  obtain ⟨z, hk⟩ := h₁.moveTpages hr pages
  -- The victim is emptied and becomes the reserve.
  refine ⟨⟨z.sSblk, z.eSblk, z.cursor, fun a ha => ?_, fun a ha => ?_⟩, hk.trans ?_⟩
  · cases ha
    exact hr
  · cases ha
    exact htarget
  · exact .of_update htarget rfl rfl rfl ⟨rfl, rfl⟩

/-- So does the search for a new active superblock. -/
theorem tSwitch (h : MapQuiet cfg s₀ s) (ha : HashKv.tSwitch cfg s = some s') :
    MapQuiet cfg s₀ s' := by
  unfold HashKv.tSwitch at ha
  split at ha
  · split at ha
    · exact h.tpageGc ha
    · obtain ⟨⟨i, bm⟩, hi, rfl⟩ := Option.map_eq_some_iff.mp ha
      obtain ⟨z, hk⟩ := h
      have he := z.eSblk
      -- The search stays below the data partition.
      obtain ⟨-, hhi, -, free, rfl⟩ := @getActiveSblk_spec cfg s.bm bm .map i
        (fun a hcur => by
          have hlt := z.cursor a hcur
          show s.bm.mapPart.sSblk ≤ a ∧ a ≤ s.bm.mapPart.eSblk
          rw [z.sSblk]
          omega)
        (fun _ => Or.inl z.sSblk) hi
      change i ≤ s.bm.mapPart.eSblk at hhi
      have hi : i < cfg.dataSblk := by omega
      refine ⟨⟨z.sSblk, z.eSblk, fun a ha => ?_, fun a ha => ?_, z.reserve⟩, hk.trans ?_⟩
      · cases ha
        exact hi
      · cases ha
        exact hi
      · exact .of_sblk rfl ⟨rfl, rfl⟩
  · cases ha
    exact h

theorem writeTpage {page : Nat} (h : MapQuiet cfg s₀ s) (hw : s.writeTpage cfg page = some s') :
    MapQuiet cfg s₀ s' := by
  obtain ⟨⟨ppa, s₁⟩, ha, rfl⟩ := Option.map_eq_some_iff.mp hw
  unfold HashKv.tpAlloc at ha
  simp only [Option.bind_eq_bind, Option.bind_eq_some_iff] at ha
  obtain ⟨s₂, h₂, a, hact, he⟩ := ha
  cases he
  have hs₂ := h.tSwitch h₂
  exact (hs₂.getPageNum (hs₂.zone.active a hact)).blocks (validatePage_blocks _ _ page) rfl rfl

theorem update (h : MapQuiet cfg s₀ s) (lpa : Nat) (pte : Pte) :
    MapQuiet cfg s₀ (s.update cfg lpa pte) := by
  refine h.blocks ?_ rfl rfl
  unfold Store.update
  dsimp only
  split
  · split
    · exact invalidatePage_blocks _ _
    · exact .refl _
  · exact .refl _

theorem mapping (cfg : Settings) (s₀ : Store) :
    MappingInvariant cfg (fun _ => True) fun _ s => MapQuiet cfg s₀ s where
  isHit _ h := h.of_tables ⟨_, _, rfl⟩
  update lpa ppa _ _ h := h.update lpa _
  dropCopy page _ h := by
    unfold Store.dropCopy
    split
    · exact h
    · exact h.blocks (invalidatePage_blocks _ _) rfl rfl
  relocate lpa ppa _ _ h := h.of_tables ⟨_, _, rfl⟩
  write page _ h hw := h.writeTpage hw

theorem bulkMappingUpdate {nodes : List GcNode} (h : MapQuiet cfg s₀ s)
    (hu : HashKv.bulkMappingUpdate cfg s nodes = some s') : MapQuiet cfg s₀ s' :=
  (mapping cfg s₀).bulkMappingUpdate (fun _ _ => trivial) h hu

theorem evict (cfg : Settings) (s₀ : Store) : ListUpInvariant cfg (MapQuiet cfg s₀) where
  promote page h := h.of_tables (.promoteHot _ page)
  pop _ _ h := h.of_tables ⟨_, _, rfl⟩
  count _ h := h.of_tables ⟨_, _, rfl⟩
  evictPage {s s'} victim h hw := by
    have hu : MapQuiet cfg s₀ (s.unload victim) := h.of_tables ⟨_, _, rfl⟩
    unfold Store.writeBack at hw
    split at hw
    · exact hu.writeTpage hw
    · cases hw
      exact hu
  afterEvict victim choice h := h.of_tables (.afterEvict _ victim choice)
  resident page h := h.of_tables ⟨_, _, rfl⟩

theorem access (cfg : Settings) (s₀ : Store) : AccessInvariant cfg (MapQuiet cfg s₀) where
  hot _ h := h.of_tables ⟨_, _, rfl⟩
  grain _ h := h.of_tables ⟨_, _, rfl⟩
  touch _ h := h.of_tables ⟨_, _, rfl⟩
  load _ h hl := by
    unfold Store.load at hl
    dsimp only at hl
    split at hl
    · cases hl
    · cases hl
      exact h.of_tables ⟨_, _, rfl⟩

theorem wbPath {realKeys : Nat → Key} {ht : DHtable} {e : WbEntry} {choice : Rebalance}
    {ex : WbExit} (h : s₀.MapZone cfg) (hw : WbPath cfg realKeys ht s₀ e choice s ex) :
    MapQuiet cfg s₀ s :=
  hw.preserves (access cfg s₀) (fun _ _ _ _ h₁ hl => (evict cfg s₀).listUp h₁ hl) (.refl h)

theorem getPath {f : Ftl} {r : Request} {choice : Rebalance} {ex : GetExit}
    (h : f.store.MapZone cfg) (hg : GetPath cfg f r choice s ex) : MapQuiet cfg f.store s :=
  hg.preserves (access cfg f.store) (fun _ _ _ hl => (evict cfg f.store).listUp (.refl h) hl)
    (.refl h)

theorem wbInstall (h : MapQuiet cfg s₀ s) (lpa ppa : Nat) (fp : UInt32) :
    MapQuiet cfg s₀ (HashKv.wbInstall cfg s lpa ppa fp) :=
  (h.update lpa ⟨some ppa, fp⟩).blocks (.setOob _ _ _) rfl rfl

theorem wbInvalidateOld (h : MapQuiet cfg s₀ s) (lpa : Nat) :
    MapQuiet cfg s₀ (HashKv.wbInvalidateOld cfg s lpa) := by
  refine h.blocks (wbInvalidateOld_blocks s lpa) ?_ ?_
  · unfold HashKv.wbInvalidateOld
    split <;> rfl
  · unfold HashKv.wbInvalidateOld
    split <;> rfl

/-- Only the assignment moves the pools. -/
theorem of_step {f f' : Ftl} {a : Label} (z : f.store.MapZone cfg) (h : Step cfg hs f a f')
    (ha : a ≠ .assign) : MapQuiet cfg f.store f'.store := by
  cases h with
  | getPass choice r s ex hp hd =>
    have hq := getPath z (GetPath.of_pass hd)
    cases ex <;> exact hq
  | wbAgain choice m e s e' hp hc hw | wbParked choice m e s e' hp hc hw =>
    exact wbPath z (WbPath.of_pass hw).2
  | wbUpdate choice m e s e' ppa hp hc hw hppa =>
    exact ((wbPath z (WbPath.of_pass hw).2).wbInvalidateOld _).wbInstall _ _ _
  | wbDirectUpdate choice m e s e' ppa hp hc hw hppa =>
    exact (wbPath z (WbPath.of_pass hw).2).wbInstall _ _ _
  | endAssign | assignEntry | assignPage => exact absurd rfl ha
  | promote page hp => exact (evict cfg f.store).promote page (.refl z)
  | flush | rehashBegin | rehashTick => exact (refl z).blocks (.refl _) rfl rfl
  | get | resume | setFull | setInsert | pickRetry | pickMaster => exact .refl z

end MapQuiet

/-! ## Section 3: Switching superblocks -/

/-- Between two steps of the block manager the cursor rests on a superblock that a
    stream owns. -/
structure Orderly (cfg : Settings) (bm : Bm) : Prop where
  pooled : Pooled cfg Live bm
  cursor : ∀ a, bm.dataPart.activeSblk = some a → (bm.sblk a).isOwned = true
  settled : ∀ i, cfg.IsData i → (bm.sblk i).isOwned = false →
    (bm.sblk i).wpOfft = 0 ∨ cfg.pps ≤ (bm.sblk i).wpOfft

/-- The stream of the superblock gives it away. -/
def Bm.released (bm : Bm) (a : Nat) : Bm :=
  bm.setSblk a { bm.sblk a with isOwned := false }

/-- The state in which `dftl_get_stream_sblk` searches, if it does. -/
def streamSearches (cfg : Settings) (bm : Bm) (idx : Nat) : List Bm :=
  match (bm.stream idx).activeSblk with
  | some a =>
    if checkFull cfg bm a || !(bm.sblk a).isOwned || (bm.sblk a).streamIdx ≠ some idx then
      [bm.released a]
    else []
  | none => [bm]

namespace Orderly

variable {bm bm' : Bm}

theorem searchable (hds : cfg.dataSegregation = true) (z : Zoned cfg bm) (h : Orderly cfg bm) :
    Searchable cfg Live bm where
  zone := z.toInZone
  startable := z.startable hds
  unset hn := absurd hn (z.started hds)
  pooled := h.pooled
  parked a ha hf := by
    have ho := h.cursor a ha
    rw [hf.2.2.1] at ho
    cases ho
  settled := h.settled

theorem kept (h : Orderly cfg bm) (hk : DataKept cfg bm bm') : Orderly cfg bm' where
  pooled := hk.pooled h.pooled
  cursor a ha := by
    rw [hk.cursors.part] at ha
    rw [hk.roles.owned]
    exact h.cursor a ha
  settled i hd ho := by
    rw [hk.roles.owned] at ho
    rw [hk.wpOfft hd]
    exact h.settled i hd ho

theorem setStream (h : Orderly cfg bm) (idx : Nat) {st : Stream}
    (hact : st.activeSblk = (bm.stream idx).activeSblk) : Orderly cfg (bm.setStream idx st) :=
  ⟨h.pooled.setStream idx hact, h.cursor, h.settled⟩

/-- The next page of an owned superblock. -/
theorem getPageNum (h : Orderly cfg bm) {a : Nat} (ha : (bm.sblk a).isOwned = true) :
    Orderly cfg (HashKv.getPageNum cfg bm a).2 where
  pooled := h.pooled.getPageNum ha
  cursor c hc := by
    rw [(SameRoles.getPageNum cfg bm a).owned]
    exact h.cursor c hc
  settled i hd ho := by
    rw [(SameRoles.getPageNum cfg bm a).owned] at ho
    have hia : i ≠ a := by
      rintro rfl
      rw [ha] at ho
      cases ho
    have hblk : (HashKv.getPageNum cfg bm a).2.sblk i = bm.sblk i := Function.update_of_ne hia ..
    rw [hblk]
    exact h.settled i hd ho

/-- A stream gives its full superblock away. The cursor may rest on it. -/
theorem released (hds : cfg.dataSegregation = true) (z : Zoned cfg bm) (h : Orderly cfg bm)
    {idx a : Nat} (hidx : idx < 8) (hact : (bm.stream idx).activeSblk = some a)
    (hfull : cfg.pps ≤ (bm.sblk a).wpOfft) :
    Searchable cfg (fun j => Live j ∧ j ≠ idx) (bm.released a) := by
  have hself : (bm.released a).sblk a = { bm.sblk a with isOwned := false } :=
    Function.update_self ..
  have hother : ∀ i, i ≠ a → (bm.released a).sblk i = bm.sblk i :=
    fun i hi => Function.update_of_ne hi ..
  have z₁ : Zoned cfg (bm.released a) := z.setSblk a _
  refine ⟨z₁.toInZone, z₁.startable hds, fun hn => absurd hn (z₁.started hds),
    h.pooled.release hidx hact hfull, fun c hc hf => ?_, fun i hd ho => ?_⟩
  · obtain ⟨-, -, hfree, hopen⟩ := hf
    by_cases hca : c = a
    · rw [hca, checkFull, hself, decide_eq_false_iff_not] at hopen
      exact hopen hfull
    · rw [hother c hca, h.cursor c hc] at hfree
      cases hfree
  · by_cases hia : i = a
    · rw [hia, hself]
      exact Or.inr hfull
    · rw [hother i hia] at ho ⊢
      exact h.settled i hd ho

theorem streamSearches (hds : cfg.dataSegregation = true) (z : Zoned cfg bm) (h : Orderly cfg bm)
    {idx : Nat} (hidx : idx < 8) :
    ∀ bm₀ ∈ HashKv.streamSearches cfg bm idx, FreeSearch cfg bm₀ := by
  obtain ⟨a, hact, -, ho, hx⟩ := h.pooled.streams idx hidx
  intro bm₀ hmem
  unfold HashKv.streamSearches at hmem
  rw [hact] at hmem
  dsimp only at hmem
  split at hmem
  · next hswitch =>
    have hfull : cfg.pps ≤ (bm.sblk a).wpOfft := by
      simpa [ho, hx, checkFull] using hswitch
    rw [List.mem_singleton.mp hmem]
    exact (h.released hds z hidx hact hfull).freeSearch hds
  · cases hmem

/-- After a search the cursor rests on the superblock that the stream got, which has no
    page open. -/
theorem getStreamSblk_cursor {idx i : Nat} (hg : getStreamSblk cfg bm idx = some (i, bm')) :
    bm' = bm ∨ bm'.dataPart.activeSblk = some i ∧ (bm'.stream idx).grainRemain = 0 := by
  have hcursor : ∀ {b b₁ : Bm} {j : Nat}, getActiveSblk cfg b .data = some (j, b₁) →
      b₁.dataPart.activeSblk = some j := fun hj => by
    rw [getActiveSblk_eq hj]
    rfl
  unfold HashKv.getStreamSblk at hg
  dsimp only at hg
  split at hg
  · split at hg
    · obtain ⟨⟨j, b₁⟩, hj, he⟩ := Option.map_eq_some_iff.mp hg
      obtain ⟨rfl, rfl⟩ := Prod.mk.inj he
      have hcur := hcursor hj
      exact Or.inr ⟨hcur, by simp [Bm.setStream]⟩
    · cases hg
      exact Or.inl rfl
  · obtain ⟨⟨j, b₁⟩, hj, he⟩ := Option.map_eq_some_iff.mp hg
    obtain ⟨rfl, rfl⟩ := Prod.mk.inj he
    have hcur := hcursor hj
    exact Or.inr ⟨hcur, by simp [Bm.setStream]⟩

/-- A stream is left without a superblock exactly when its search fails. -/
theorem getStreamSblk_eq_none {idx : Nat} : HashKv.getStreamSblk cfg bm idx = none ↔
    ∃ bm₀ ∈ HashKv.streamSearches cfg bm idx, getActiveSblk cfg bm₀ .data = none := by
  unfold HashKv.getStreamSblk HashKv.streamSearches
  dsimp only
  cases (bm.stream idx).activeSblk with
  | none => simp only [Option.map_eq_none_iff, List.mem_singleton, exists_eq_left]
  | some a =>
    dsimp only
    split
    · rw [Option.map_eq_none_iff]
      simp only [List.mem_singleton, exists_eq_left, Bm.released]
    · simp

/-- The superblock that a stream gets is in use from then on. -/
theorem getStreamSblk (hds : cfg.dataSegregation = true) (z : Zoned cfg bm) (h : Orderly cfg bm)
    {idx i : Nat} (hidx : idx < 8) (hg : HashKv.getStreamSblk cfg bm idx = some (i, bm')) :
    Orderly cfg bm' ∧ (bm'.sblk i).isOwned = true := by
  obtain ⟨hpool, -, howned, horigin, -⟩ := h.pooled.getStreamSblk hds z hidx hg
  refine ⟨⟨hpool, fun c hc => ?_, fun j hd ho => ?_⟩, howned⟩
  · rcases getStreamSblk_cursor hg with rfl | ⟨hcur, -⟩
    · exact h.cursor c hc
    · cases hcur.symm.trans hc
      exact howned
  · rcases horigin with rfl | ⟨-, -, a, -, -, hfull, hsblk⟩
    · exact h.settled j hd ho
    · have hji : j ≠ i := by
        rintro rfl
        rw [howned] at ho
        cases ho
      rw [hsblk, Function.update_of_ne hji] at ho ⊢
      by_cases hja : j = a
      · rw [hja, Function.update_self]
        exact Or.inr hfull
      · rw [Function.update_of_ne hja] at ho ⊢
        exact h.settled j hd ho

end Orderly

/-! ## Section 4: Collections and allocations -/

/-- What the segregated build does to the victim after the mapping update. -/
structure Recycled (s s' : Store) (t : Nat) : Prop where
  others : ∀ i, i ≠ t → s'.bm.sblk i = s.bm.sblk i
  empty : (s'.bm.sblk t).wpOfft = 0
  stream : s'.bm.stream = s.bm.stream
  cursor : s'.bm.dataPart.activeSblk = s.bm.dataPart.activeSblk

theorem retireVictim_recycled (hds : cfg.dataSegregation = true) (s : Store) (t : Nat) :
    Recycled s (retireVictim cfg s t) t := by
  unfold retireVictim
  dsimp only
  rw [if_pos hds]
  -- The victim joins the reserve pool, or the free pool.
  split
  · refine ⟨fun i hi => ?_, ?_, rfl, rfl⟩
    · simp [trimSegment, Bm.setSblk, Bm.setPart, hi]
    · simp [trimSegment, Bm.setSblk, Bm.setPart]
  · refine ⟨fun i hi => ?_, ?_, rfl, rfl⟩
    · simp [trimSegment, Bm.setSblk, Bm.setPart, hi]
    · simp [trimSegment, Bm.setSblk, Bm.setPart]

/-- The data path and the MAP partition keep to their zones, the pools are in order. -/
structure Store.Orderly (cfg : Settings) (s : Store) : Prop where
  zoned : s.Zoned cfg
  map : s.MapZone cfg
  blocks : HashKv.Orderly cfg s.bm

/-- The searches of the write loop of a collection. -/
def loopSearches (cfg : Settings) (idx : Nat) (s : Store) (cur : GcCursor) : List GcItem → List Bm
  | [] => []
  | it :: items =>
    (if (s.bm.stream idx).grainRemain = 0 then streamSearches cfg s.bm idx else []) ++
      match (gcPage cfg idx s cur).bind fun (s, cur) =>
        (gcPlace cfg idx s cur it).map fun (s, _) => (s, cur) with
      | some (s, cur) => loopSearches cfg idx s cur items
      | none => []

/-- The searches of `dpage_gc_dvalue`. -/
def gcSearches (cfg : Settings) (s : Store) (streamIdx : Nat) : List Bm :=
  match getGcTarget cfg s.bm .data streamIdx with
  | some target =>
    match collectPages cfg s.bm (pagesContainingValidGrain cfg s.bm target) with
    | some (bm, items) =>
      loopSearches cfg (victimStream bm target) { s with bm := bm } ⟨0, none⟩ items
    | none => []
  | none => []

/-- The searches of `dp_alloc` for stream `idx`. -/
def allocSearches (cfg : Settings) (s : Store) (idx : Nat) : List Bm :=
  match (s.bm.stream idx).activeSblk with
  | some a =>
    (if checkFull cfg s.bm a && isGcNeeded cfg s.bm .data then gcSearches cfg s idx else []) ++
      match streamGc cfg s idx a with
      | some s => streamSearches cfg s.bm idx
      | none => []
  | none => []

namespace Store.Orderly

variable {s s' : Store} {idx t : Nat} {cur cur' : GcCursor}

theorem congr (h : s.Orderly cfg) (hb : SameBlocks s.bm s'.bm) (hd : SameDataPath s s')
    (ha : s'.tActive = s.tActive) (hr : s'.tReserve = s.tReserve) : s'.Orderly cfg := by
  obtain ⟨hz, hk⟩ := (MapQuiet.refl h.map).blocks hb ha hr
  exact ⟨h.zoned.congr hd, hz, h.blocks.kept hk⟩

theorem quiet (h : s.Orderly cfg) (hq : MapQuiet cfg s s') (hd : SameDataPath s s') :
    s'.Orderly cfg :=
  ⟨h.zoned.congr hd, hq.zone, h.blocks.kept hq.kept⟩

theorem gcPage (hds : cfg.dataSegregation = true) (hidx : idx < 8) (h : s.Orderly cfg)
    (hv : Victim cfg s.bm t) (hp : HashKv.gcPage cfg idx s cur = some (s', cur')) :
    s'.Orderly cfg ∧ Victim cfg s'.bm t := by
  have hz := (gcPage_zoned hds h.zoned hp).1
  unfold HashKv.gcPage at hp
  split at hp
  · obtain ⟨a, bm, hg, -, he⟩ := gcOpenPage_eq hp
    have hopened := getStreamSblk_spec hds h.zoned.toZoned hg
    obtain ⟨ho, howned⟩ := h.blocks.getStreamSblk hds h.zoned.toZoned hidx hg
    obtain ⟨hv', hne⟩ := (h.blocks.pooled.getStreamSblk hds h.zoned.toZoned hidx hg).victims t hv
    have hpart := hopened.map.part
    rw [he] at hz ⊢
    have hpage : HashKv.Orderly cfg ((getPageNum cfg bm a).2.setStream idx { bm.stream idx with
        activeSblkOffset := ((getPageNum cfg bm a).2.sblk a).wpOfft, activePpa := cur'.ppa,
        grainRemain := 4 }) := (ho.getPageNum howned).setStream idx rfl
    refine ⟨⟨hz, ?_, hpage⟩, ?_⟩
    · obtain ⟨h1, h2, h3, h4, h5⟩ := h.map
      exact ⟨hpart ▸ h1, hpart ▸ h2, hpart ▸ h3, h4, h5⟩
    · exact hv'.sblk (Function.update_of_ne (Ne.symm hne) ..)
  · cases hp
    exact ⟨h, hv⟩

theorem gcPlace {it : GcItem} {n : GcNode} (h : s.Orderly cfg) (hv : Victim cfg s.bm t)
    (hne : (s.bm.stream idx).grainRemain ≠ 0)
    (hp : HashKv.gcPlace cfg idx s cur it = some (s', n)) :
    s'.Orderly cfg ∧ Victim cfg s'.bm t := by
  have hz := gcPlace_zoned h.zoned hne hp
  obtain ⟨bm, hb, rfl, -⟩ := gcPlace_spec hp
  have hblocks := placeItem_blocks hb
  have hpart : bm.mapPart = s.bm.mapPart := hblocks.mapPart
  have hroom : HashKv.Orderly cfg (s.bm.setStream idx { s.bm.stream idx with
      grainRemain := sub32 (s.bm.stream idx).grainRemain 1 }) := h.blocks.setStream idx rfl
  refine ⟨⟨hz, ?_, hroom.kept (.of_blocks hblocks)⟩, (hv.setStream idx _).blocks hblocks⟩
  obtain ⟨h1, h2, h3, h4, h5⟩ := h.map
  exact ⟨hpart ▸ h1, hpart ▸ h2, hpart ▸ h3, h4, h5⟩

/-- Each search of the write loop starts from an orderly state. -/
theorem loopSearches (hds : cfg.dataSegregation = true) (hidx : idx < 8) :
    ∀ {items : List GcItem} {s : Store} {cur : GcCursor}, s.Orderly cfg → Victim cfg s.bm t →
      ∀ bm ∈ HashKv.loopSearches cfg idx s cur items, FreeSearch cfg bm
  | [], _, _, _, _, _, hmem => by cases hmem
  | it :: items, s, cur, h, hv, bm, hmem => by
      rw [HashKv.loopSearches] at hmem
      rcases List.mem_append.mp hmem with hmem | hmem
      · split at hmem
        · exact h.blocks.streamSearches hds h.zoned.toZoned hidx bm hmem
        · cases hmem
      · split at hmem
        · next s₂ cur₂ hstep =>
          obtain ⟨⟨s₁, cur₁⟩, h₁, h₂⟩ := Option.bind_eq_some_iff.mp hstep
          obtain ⟨⟨s₃, n⟩, h₃, he⟩ := Option.map_eq_some_iff.mp h₂
          cases he
          obtain ⟨ho, hv₁⟩ := h.gcPage hds hidx hv h₁
          obtain ⟨ho₃, hv₃⟩ := ho.gcPlace hv₁ (gcPage_zoned hds h.zoned h₁).2 h₃
          exact loopSearches hds hidx ho₃ hv₃ bm hmem
        · cases hmem

theorem gcWriteLoop (hds : cfg.dataSegregation = true) (hidx : idx < 8) {items : List GcItem}
    {nodes : List GcNode} (h : s.Orderly cfg) (hv : Victim cfg s.bm t)
    (hl : HashKv.gcWriteLoop cfg idx s cur items = some (s', cur', nodes)) :
    s'.Orderly cfg ∧ Victim cfg s'.bm t := by
  refine (gcWriteLoop_invariant (P := fun s _ => s.Orderly cfg ∧ Victim cfg s.bm t)
    (Q := fun s _ => (s.Orderly cfg ∧ Victim cfg s.bm t) ∧ (s.bm.stream idx).grainRemain ≠ 0)
    (R := fun _ _ => True) (fun hP hp => ?_) (fun hQ hp => ?_) ⟨h, hv⟩ hl).1
  · exact ⟨hP.1.gcPage hds hidx hP.2 hp, (gcPage_zoned hds hP.1.zoned hp).2⟩
  · exact ⟨hQ.1.1.gcPlace hQ.1.2 hQ.2 hp, trivial⟩

/-- The victim of a collection leaves no stream, so the cursor is elsewhere. -/
theorem retireVictim (hds : cfg.dataSegregation = true) (h : s.Orderly cfg)
    (hv : Victim cfg s.bm t) : (HashKv.retireVictim cfg s t).Orderly cfg := by
  have hblocks : HashKv.Orderly cfg (HashKv.retireVictim cfg s t).bm := by
    have hpool := h.blocks.pooled.retireVictim hds hv
    obtain ⟨hother, hzero, -, hcur⟩ := retireVictim_recycled hds s t
    refine ⟨hpool, fun c hc => ?_, fun i hd ho => ?_⟩
    · have howned := h.blocks.cursor c (hcur ▸ hc)
      have hct : c ≠ t := by
        rintro rfl
        rw [hv.owned] at howned
        cases howned
      rw [hother c hct]
      exact howned
    · by_cases hit : i = t
      · rw [hit]
        exact Or.inl hzero
      · rw [hother i hit] at ho ⊢
        exact h.blocks.settled i hd ho
  refine ⟨h.zoned.retireVictim hv.data, ?_, hblocks⟩
  obtain ⟨h1, h2, h3, h4, h5⟩ := h.map
  unfold HashKv.retireVictim
  dsimp only
  rw [if_pos hds]
  split <;> exact ⟨h1, h2, h3, h4, h5⟩

/-- A collection after its victim and its items are found. -/
theorem collected {bm : Bm} {items : List GcItem} (hds : cfg.dataSegregation = true)
    (h : s.Orderly cfg) (ht : getGcTarget cfg s.bm .data idx = some t)
    (hc : collectPages cfg s.bm (pagesContainingValidGrain cfg s.bm t) = some (bm, items)) :
    Store.Orderly cfg { s with bm := bm } ∧ Victim cfg bm t := by
  have hblocks := collectPages_blocks hc
  exact ⟨h.congr hblocks ⟨hblocks.cursors, rfl, rfl⟩ rfl rfl,
    (h.zoned.toZoned.victim hds ht).blocks hblocks⟩

theorem gcSearches (hds : cfg.dataSegregation = true) (h : s.Orderly cfg) :
    ∀ bm ∈ HashKv.gcSearches cfg s idx, FreeSearch cfg bm := by
  intro bm hmem
  unfold HashKv.gcSearches at hmem
  split at hmem
  · next target ht =>
    split at hmem
    · next bm₁ items hc =>
      obtain ⟨h₁, hv⟩ := h.collected hds ht hc
      exact loopSearches hds (victimStream_lt bm₁ target) h₁ hv bm hmem
    · cases hmem
  · cases hmem

theorem dpageGc (hds : cfg.dataSegregation = true) (h : s.Orderly cfg)
    (hg : HashKv.dpageGc cfg s idx = some s') : s'.Orderly cfg := by
  unfold HashKv.dpageGc at hg
  simp only [Option.bind_eq_bind, Option.bind_eq_some_iff, Option.pure_def, Option.some.injEq] at hg
  obtain ⟨target, ht, ⟨bm, items⟩, hc, ⟨s₁, nodes⟩, h₁, s₂, h₂, rfl⟩ := hg
  obtain ⟨h₀, hv₀⟩ := h.collected hds ht hc
  have hw : s₁.Orderly cfg ∧ Victim cfg s₁.bm target := by
    unfold HashKv.writeItems at h₁
    split at h₁
    · cases h₁
      exact ⟨h₀, hv₀⟩
    · obtain ⟨s₃, cur, ssd, hl, rfl⟩ := writeItemsStream_spec h₁
      obtain ⟨h₃, hv₃⟩ := h₀.gcWriteLoop hds (victimStream_lt bm target) hv₀ hl
      exact ⟨h₃.congr (.refl _) ⟨.refl _, rfl, rfl⟩ rfl rfl, hv₃⟩
  have hq := (MapQuiet.refl hw.1.map).bulkMappingUpdate h₂
  exact (hw.1.quiet hq (.bulkMappingUpdate h₂)).retireVictim hds (hq.kept.victim hw.2)

theorem streamGc {a : Nat} (hds : cfg.dataSegregation = true) (h : s.Orderly cfg)
    (hg : HashKv.streamGc cfg s idx a = some s') : s'.Orderly cfg := by
  unfold HashKv.streamGc at hg
  split at hg
  · exact h.dpageGc hds hg
  · cases hg
    exact h

theorem allocSearches (hds : cfg.dataSegregation = true) (hidx : idx < 8) (h : s.Orderly cfg) :
    ∀ bm ∈ HashKv.allocSearches cfg s idx, FreeSearch cfg bm := by
  intro bm hmem
  unfold HashKv.allocSearches at hmem
  split at hmem
  · next a _ =>
    rcases List.mem_append.mp hmem with hmem | hmem
    · split at hmem
      · exact h.gcSearches hds bm hmem
      · cases hmem
    · split at hmem
      · next s₁ hg =>
        have h₁ := h.streamGc hds hg
        exact h₁.blocks.streamSearches hds h₁.zoned.toZoned hidx bm hmem
      · cases hmem
  · cases hmem

theorem dpAlloc {ppa : Nat} (hds : cfg.dataSegregation = true) (hidx : idx < 8)
    (h : s.Orderly cfg) (ha : HashKv.dpAlloc cfg s idx = some (ppa, s')) : s'.Orderly cfg := by
  have hz := (h.zoned.dpAlloc (h.zoned.startable hds) ha).1
  obtain ⟨s₁, i, bm, h₁, hg, -, rfl⟩ := dpAlloc_eq hds ha
  have ho : s₁.Orderly cfg := by
    rcases h₁ with ⟨-, rfl⟩ | ⟨-, h₁⟩
    · exact h
    · exact h.dpageGc hds h₁
  obtain ⟨hb, howned⟩ := ho.blocks.getStreamSblk hds ho.zoned.toZoned hidx hg
  have hpart := (getStreamSblk_spec hds ho.zoned.toZoned hg).map.part
  refine ⟨hz, ?_, hb.getPageNum howned⟩
  obtain ⟨h1, h2, h3, h4, h5⟩ := ho.map
  exact ⟨hpart ▸ h1, hpart ▸ h2, hpart ▸ h3, h4, h5⟩

/-- The fields of a stream other than its superblock. -/
theorem setStream (h : s.Orderly cfg) {st : Stream}
    (hact : st.activeSblk = (s.bm.stream idx).activeSblk)
    (hpage : st.grainRemain ≠ 0 → cfg.dataPage ≤ st.activePpa) :
    Store.Orderly cfg { s with bm := s.bm.setStream idx st } := by
  have hz : HashKv.Zoned cfg (s.bm.setStream idx st) :=
    h.zoned.toZoned.setStream idx (fun a ha => h.zoned.stream idx a (hact ▸ ha)) hpage
  obtain ⟨h1, h2, h3, h4, h5⟩ := h.map
  exact ⟨⟨hz, h.zoned.active, h.zoned.reserve⟩, ⟨h1, h2, h3, h4, h5⟩,
    h.blocks.setStream idx hact⟩

theorem assignPage {fl fl' : Nat → List FlushNode} {ppa : Nat} (hds : cfg.dataSegregation = true)
    (hidx : idx < 8) (h : s.Orderly cfg)
    (ha : HashKv.assignPage cfg s fl idx = some (s', fl', ppa)) :
    s'.Orderly cfg ∧ cfg.dataPage ≤ (s'.bm.stream idx).activePpa := by
  unfold HashKv.assignPage at ha
  split at ha
  · simp only [Option.bind_eq_bind, Option.bind_eq_some_iff] at ha
    obtain ⟨⟨p, s₁⟩, h₁, a, -, he⟩ := ha
    have hp := (h.zoned.dpAlloc (h.zoned.startable hds) h₁).2
    have ho := h.dpAlloc hds hidx h₁
    cases he
    refine ⟨ho.setStream rfl fun _ => hp, ?_⟩
    simpa [Bm.setStream] using hp
  · next hrem =>
    have hp := h.zoned.page idx hrem
    cases ha
    refine ⟨h.setStream rfl fun _ => hp, ?_⟩
    simpa [Bm.setStream] using hp

theorem assignEntry {fl fl' : Nat → List FlushNode} {e : WbEntry} {pga : Nat}
    (hds : cfg.dataSegregation = true) (h : s.Orderly cfg)
    (ha : HashKv.assignEntry cfg s fl e = some (s', fl', pga)) : s'.Orderly cfg := by
  unfold HashKv.assignEntry at ha
  simp only [Option.bind_eq_bind, Option.bind_eq_some_iff] at ha
  obtain ⟨⟨s₁, fl₁, ppa⟩, h₁, bm, hb, he⟩ := ha
  cases he
  have hidx : dIdx (getLpa cfg e.hParams) % 8 < 8 := Nat.mod_lt _ (by decide)
  obtain ⟨ho, hp⟩ := h.assignPage hds hidx h₁
  have hblocks := placeItem_blocks hb
  have hroom : Store.Orderly cfg { s₁ with
      bm := s₁.bm.setStream (dIdx (getLpa cfg e.hParams) % 8)
        { s₁.bm.stream (dIdx (getLpa cfg e.hParams) % 8) with
          grainRemain := sub32 (s₁.bm.stream (dIdx (getLpa cfg e.hParams) % 8)).grainRemain
            e.valLen } } := ho.setStream rfl fun _ => hp
  exact hroom.congr hblocks ⟨hblocks.cursors, rfl, rfl⟩ rfl rfl

end Store.Orderly

/-! ## Section 5: The set-up -/

/-- The states in which `dftl_bm_init` searches: for each reserved superblock, then
    for the first superblock of each stream. -/
def initSearches (cfg : Settings) : List Bm :=
  (List.range 8).filterMap (fun n =>
    (List.range n).foldlM (fun bm _ => initReserve cfg bm) (bmZero cfg)) ++
  match (List.range 8).foldlM (fun bm _ => initReserve cfg bm) (bmZero cfg) with
  | some bm => (List.range 8).filterMap fun n => (List.range n).foldlM (initStream cfg) bm
  | none => []

/-- The first search finds the first superblock of the partition, if no other. -/
theorem bmZero_unset (hds : cfg.dataSegregation = true) :
    getActiveSblk cfg (bmZero cfg) .data ≠ none := by
  intro hnone
  obtain ⟨j, ⟨hlo, hhi⟩, hne, hopen⟩ := bmZero_startable cfg rfl
  have hj : (j ≠ cfg.dataSblk && !checkFull cfg (bmZero cfg) j) = true := by
    rw [hopen, Bool.and_eq_true, decide_eq_true_eq]
    exact ⟨hne, rfl⟩
  obtain ⟨a, ha⟩ := exists_firstSblk
    (p := fun i => i ≠ cfg.dataSblk && !checkFull cfg (bmZero cfg) i)
    hlo (Nat.le_sub_one_of_lt hhi) hj
  obtain ⟨hla, -, hpa⟩ := firstSblk_spec ha
  have hne : a ≠ cfg.dataSblk := by
    rw [Bool.and_eq_true, decide_eq_true_eq] at hpa
    exact hpa.1
  have husable : usable cfg (bmZero cfg) .data cfg.dataSblk = true :=
    ((isFree_iff hds).mp ⟨⟨Nat.le_refl _, Nat.lt_of_succ_lt cfg.dataSblk_lt⟩, rfl, rfl, by
      have hpps := cfg.pps_pos
      simp [checkFull, bmZero, Superblock.fresh]
      omega⟩).2
  -- The second part of the search wraps around to the first superblock.
  have hmem : cfg.dataSblk ∈ List.range' cfg.dataSblk (a - cfg.dataSblk) :=
    List.mem_range'_1.mpr ⟨Nat.le_refl _, by omega⟩
  have hstart : (firstSblk (usable cfg (bmZero cfg) .data) (a + 1) (cfg.nos - 1)).or
      ((List.range' cfg.dataSblk (a - cfg.dataSblk)).find? (usable cfg (bmZero cfg) .data)) =
        none := by
    unfold getActiveSblk at hnone
    dsimp only at hnone
    rw [Option.map_eq_none_iff, show ((bmZero cfg).part .data).activeSblk = none from rfl,
      Option.orElse_eq_orElse, Option.orElse_eq_or, Option.none_or] at hnone
    have hfirst : firstSblk (fun i => decide (i ≠ ((bmZero cfg).part .data).sblkRsv) &&
        !checkFull cfg (bmZero cfg) i) ((bmZero cfg).part .data).sSblk
          ((bmZero cfg).part .data).eSblk = some a := ha
    rw [hfirst] at hnone
    dsimp only at hnone
    rwa [Option.orElse_eq_or] at hnone
  obtain ⟨-, hbefore⟩ := Option.or_eq_none_iff.mp hstart
  exact absurd husable (List.find?_eq_none.mp hbefore _ hmem)

/-- The partition before the set-up. -/
theorem bmZero_searchable (hds : cfg.dataSegregation = true) :
    Searchable cfg (fun _ => False) (bmZero cfg) where
  zone := bmZero_inZone cfg
  startable := bmZero_startable cfg
  unset _ := bmZero_unset hds
  pooled := bmZero_pooled cfg
  parked _ ha := by cases ha
  settled _ _ _ := Or.inl rfl

/-- A search that found a superblock leaves the others alone. -/
theorem Searchable.initReserve {live : Nat → Prop} {bm bm' : Bm}
    (hds : cfg.dataSegregation = true) (h : Searchable cfg live bm)
    (hi : HashKv.initReserve cfg bm = some bm') : Searchable cfg live bm' := by
  have hpool := h.pooled.initReserve hds h.zone h.startable hi
  obtain ⟨hz, hne, -⟩ := initReserve_inZone h.zone h.startable hi
  obtain ⟨⟨i, bm₁⟩, ha, rfl⟩ := Option.map_eq_some_iff.mp hi
  obtain ⟨-, hu, -⟩ := h.zone.getActiveSblk h.startable ha
  obtain ⟨-, ho, -⟩ := usable_data hds hu
  refine ⟨hz, fun hn => absurd hn hne, fun hn => absurd hn hne, hpool, ?_, ?_⟩
  · rw [getActiveSblk_eq ha]
    intro a hcur hf
    cases hcur
    simp [IsFree, Bm.setSblk] at hf
  · rw [getActiveSblk_eq ha]
    intro j hd hj
    by_cases hji : j = i
    · subst hji
      simpa [Bm.setSblk, Bm.setPart] using h.settled j hd ho
    · simp only [Bm.setSblk, Bm.setPart, Function.update_of_ne hji] at hj ⊢
      exact h.settled j hd hj

/-- One stream of the set-up takes one superblock. -/
theorem Searchable.initStream {bm bm' : Bm} {idx : Nat} (hds : cfg.dataSegregation = true)
    (h : Searchable cfg (· < idx) bm) (hi : HashKv.initStream cfg bm idx = some bm') :
    Searchable cfg (· < idx + 1) bm' := by
  have hpool := h.pooled.initStream hds h.zone h.startable hi
  obtain ⟨hz, hne, -, -⟩ := initStream_inZone h.zone h.startable hi
  obtain ⟨⟨i, bm₁⟩, ha, rfl⟩ := Option.map_eq_some_iff.mp hi
  refine ⟨hz, fun hn => absurd hn hne, fun hn => absurd hn hne, hpool, ?_, ?_⟩
  · rw [getActiveSblk_eq ha]
    intro a hcur hf
    cases hcur
    simp [IsFree, Bm.setStream, Bm.setSblk] at hf
  · rw [getActiveSblk_eq ha]
    intro j hd hj
    by_cases hji : j = i
    · subst hji
      simp [Bm.setStream, Bm.setSblk] at hj
    · simp only [Bm.setStream, Bm.setSblk, Bm.setPart, Function.update_of_ne hji] at hj ⊢
      exact h.settled j hd hj

/-- All searches of the set-up. -/
theorem initSearches_free (hds : cfg.dataSegregation = true) :
    ∀ bm ∈ initSearches cfg, FreeSearch cfg bm := by
  have hreserves : ∀ {n : Nat} {bm : Bm},
      (List.range n).foldlM (fun bm _ => initReserve cfg bm) (bmZero cfg) = some bm →
        Searchable cfg (fun _ => False) bm := fun hn =>
    foldlM_range (P := fun _ => Searchable cfg fun _ => False) (fun hb hi => hb.initReserve hds hi)
      (bmZero_searchable hds) hn
  intro bm hmem
  unfold initSearches at hmem
  rcases List.mem_append.mp hmem with hmem | hmem
  · obtain ⟨n, -, hn⟩ := List.mem_filterMap.mp hmem
    exact (hreserves hn).freeSearch hds
  · split at hmem
    · next bm₁ h₁ =>
      obtain ⟨n, -, hn⟩ := List.mem_filterMap.mp hmem
      have hstart : Searchable cfg (· < 0) bm₁ := by
        obtain ⟨h1, h2, h3, h4, h5, h6⟩ := hreserves h₁
        exact ⟨h1, h2, h3, h4.mono fun j => by simp, h5, h6⟩
      exact (foldlM_range (P := fun i => Searchable cfg (· < i))
        (fun hb hi => hb.initStream hds hi) hstart hn).freeSearch hds
    · cases hmem

/-! ## Section 6: Runs -/

/-- The states in which the next step calls `get_active_superblock(DATA_S, false)`. -/
def Ftl.searches (cfg : Settings) (f : Ftl) : Label → List Bm
  | .assign =>
    match f.phase with
    | .assigning m =>
      match f.wb[m.done]? with
      | some e =>
        if cfg.maxWriteBuf ≤ m.done then []
        else if (f.store.bm.stream (dIdx (getLpa cfg e.hParams) % 8)).grainRemain = 0 then
          allocSearches cfg f.store (dIdx (getLpa cfg e.hParams) % 8)
        else []
      | none => []
    | _ => []
  | _ => []

/-- A step keeps the superblocks in order. -/
theorem Store.Orderly.step {f f' : Ftl} {a : Label} (hds : cfg.dataSegregation = true)
    (h : f.store.Orderly cfg) (hstep : Step cfg hs f a f') : f'.store.Orderly cfg := by
  by_cases ha : a = .assign
  · cases hstep with
    | endAssign m hp hdone => exact h
    | assignEntry m e s fl pga hp hdone hds' he hae => exact h.assignEntry hds hae
    | assignPage m ppa s bm wb hp hdone hds' => simp [hds] at hds'
    | _ => cases ha
  · exact h.quiet (.of_step h.map hstep ha) (.of_step hstep ha)

theorem initStream_cursor {bm bm' : Bm} {idx : Nat} (hi : initStream cfg bm idx = some bm') :
    ∀ a, bm'.dataPart.activeSblk = some a → (bm'.sblk a).isOwned = true := by
  obtain ⟨⟨i, bm₁⟩, ha, rfl⟩ := Option.map_eq_some_iff.mp hi
  rw [getActiveSblk_eq ha]
  intro a hcur
  cases hcur
  simp [Bm.setStream, Bm.setSblk]

/-- The set-up leaves them in order. -/
theorem create_orderly {garbage : Nat → Key} {f : Ftl} (hds : cfg.dataSegregation = true)
    (h : Ftl.create cfg garbage = some f) : f.store.Orderly cfg := by
  have hz := (create_zoned h).1
  have hc := create_copied h
  obtain ⟨s, hs, rfl⟩ := Option.map_eq_some_iff.mp h
  obtain ⟨bm, hb, rfl⟩ := Option.map_eq_some_iff.mp hs
  refine ⟨hz, ⟨hc.sSblk, hc.eSblk, hc.cursor, fun a ha => (hc.active a ha).1, fun a ha => ?_⟩,
    bmInit_pooled hds hb, ?_, fun i _ _ => Or.inl ?_⟩
  · cases hc.reserve.symm.trans ha
    exact hc.rsvBlock
  · unfold bmInit at hb
    rw [if_pos hds] at hb
    simp only [Option.bind_eq_bind, Option.bind_eq_some_iff] at hb
    obtain ⟨bm₁, -, h₂⟩ := hb
    exact foldlM_last (P := fun _ => True) (fun _ => trivial) (fun _ hi => initStream_cursor hi)
      (by decide) trivial h₂
  · rw [(bmInit_pages hb).wpOfft]
    rfl

/-- And so they are in every reachable state. -/
theorem reach_orderly {ok : Ftl → Label → Prop} (hds : cfg.dataSegregation = true) {f : Ftl}
    (h : (machine cfg hs).Reach ok f) : f.store.Orderly cfg :=
  h.invariant (I := fun f => f.store.Orderly cfg) (fun _ ⟨_, hi⟩ => create_orderly hds hi)
    fun _ _ _ _ ih _ hn => ih.step hds (.of_next hn)

/-- Every search fails only for want of free superblocks, and takes an empty one. -/
theorem free_superblock_search (hds : cfg.dataSegregation = true) {f : Ftl}
    (h : (machine cfg hs).Reachable f) :
    (∀ bm ∈ initSearches cfg, FreeSearch cfg bm) ∧ FreeSearch cfg f.store.bm ∧
      ∀ a, ∀ bm ∈ f.searches cfg a, FreeSearch cfg bm := by
  have ho := reach_orderly hds h
  refine ⟨initSearches_free hds, (ho.blocks.searchable hds ho.zoned.toZoned).freeSearch hds,
    fun a bm hmem => ?_⟩
  unfold Ftl.searches at hmem
  split at hmem
  · split at hmem
    · split at hmem
      · next e _ =>
        split at hmem
        · cases hmem
        · split at hmem
          · exact ho.allocSearches hds (Nat.mod_lt _ (by decide)) bm hmem
          · cases hmem
      · cases hmem
    · cases hmem
  · cases hmem

/-- Stream 2 has collected superblock 14 and needs a superblock; the cursor is on 32. -/
theorem free_superblock_search_switch : ∃ (f : Ftl) (bm bm' : Bm),
    bm ∈ f.searches smallStreams .assign ∧
    getActiveSblk smallStreams bm .data = some (33, bm') ∧ (bm.sblk 33).wpOfft = 0 ∧
      bm.dataPart.freeSblkCnt = 10 ∧ bm'.dataPart.freeSblkCnt = 9 := by
  obtain ⟨f, hf, hp⟩ := exists_reachable_of_run smallStreams spreadHash
    (fillStream ++ flushRetry 1 4000 0 ++ flushRetry 2 4000 1 ++ flushRetry 2 4000 1 ++
      flushRetry 2 4000 1 ++ [.set (byteKey 2) 4000])
    (fun f => (f.searches smallStreams .assign).any fun bm => bm.dataPart.freeSblkCnt = 10 &&
      (getActiveSblk smallStreams bm .data).any fun p => p.1 = 33) (by decide +kernel)
  obtain ⟨bm, hmem, hfound⟩ := List.any_eq_true.mp hp
  rw [Bool.and_eq_true, decide_eq_true_eq] at hfound
  obtain ⟨hcount, hfound⟩ := hfound
  obtain ⟨⟨i, bm'⟩, hi, heq⟩ := (Option.any_eq_true ..).mp hfound
  obtain rfl : i = 33 := of_decide_eq_true heq
  obtain ⟨-, -, hall⟩ := free_superblock_search rfl hf
  obtain ⟨-, hzero, -, rfl⟩ := (hall .assign bm hmem).found hi
  have hleft : bm.dataPart.freeSblkCnt - 1 = 9 := by rw [hcount]
  exact ⟨f, bm, _, hmem, hi, hzero, hcount, hleft⟩

end AggreKV.HashKv
