import AggreKV.Lib.Handles
import AggreKV.HashKv.Completion
import AggreKV.HashKv.Collect

/-! # Occupancy of the cold cache

    The page counter, the `pt` pointers and the LRU list agree, in every run
    in which no `list_up` meets a page that is already resident.

    * `Occupancy`: the invariant, stated up to the order of the LRU list.
    * `SameResidence`: what every operation but an eviction and the end of
      `list_up` does to the fields it mentions.
    * `occupancyDrift_counterexample`: two gets that miss on one page both
      resume at `list_up`, and the second one counts the page again. -/

namespace AggreKV.HashKv

variable {cfg : Settings} {hs : Hashing}

/-! ## Section 1: The invariant -/

structure Occupancy (cfg : Settings) (c : Cold) : Prop where
  counted : c.nrCachedTpages = c.lru.length
  node_iff : ∀ nd, nd ∈ c.lru ↔ (c.cmt nd.page).pt = true ∧ (c.cmt nd.page).lruPtr = some nd.addr
  linked : ∀ page, (c.cmt page).lruPtr.isSome = (c.cmt page).pt
  addrs : (c.lru.map (·.addr)).Nodup
  fresh : ∀ nd ∈ c.lru, nd.addr < c.lruNext
  ghost : ∀ page, (c.cmt page).ghostMark = true → (c.cmt page).pt = false
  inRange : ∀ page, (c.cmt page).pt = true → page < cfg.nrValidTpages
  capacity : 0 < c.maxCachedTpages

namespace Occupancy

variable {c : Cold}

/-- A page is resident if and only if its mappings are in memory. -/
theorem isResident_eq (h : Occupancy cfg c) (page : Nat) :
    (c.cmt page).isResident = (c.cmt page).pt := by
  have hg := h.ghost page
  unfold Cmt.isResident
  cases hm : (c.cmt page).ghostMark with
  | false => simp
  | true => simp [hg hm]

/-- The LRU list and the `lru_ptr` fields agree. -/
theorem tracks (h : Occupancy cfg c) :
    Tracks LruNode.addr LruNode.page c.lru fun page => (c.cmt page).lruPtr where
  node_iff nd := by
    rw [h.node_iff]
    refine and_iff_right_of_imp fun hptr => ?_
    rw [← h.linked, hptr]
    rfl
  exists_node page addr _ := ⟨⟨addr, page⟩, rfl, rfl⟩
  addrs := h.addrs

/-- A resident page has its node in the list. -/
theorem exists_node (h : Occupancy cfg c) {page : Nat} (hpt : (c.cmt page).pt = true) :
    ∃ nd ∈ c.lru, nd.page = page ∧ (c.cmt page).lruPtr = some nd.addr :=
  h.tracks.exists_mem_of_resident h.linked hpt

/-- A full cache has a page to evict. -/
theorem lru_ne_nil (h : Occupancy cfg c) (hfull : c.isFull = true) : c.lru ≠ [] := by
  have hcap := h.capacity
  have hle : c.maxCachedTpages ≤ c.lru.length := by
    rw [← h.counted]
    simpa [Cold.isFull] using hfull
  intro hnil
  rw [hnil, List.length_nil] at hle
  omega

/-- The pages of the LRU list are the resident pages of the table. -/
theorem counted_pages (h : Occupancy cfg c) : c.nrCachedTpages =
    (List.range cfg.nrValidTpages).countP fun page => (c.cmt page).pt := by
  rw [h.counted]
  exact h.tracks.length_eq_countP h.linked List.nodup_range
    fun page hpt => List.mem_range.mpr (h.inRange page hpt)

end Occupancy

/-! ## Section 2: Operations that leave residence alone -/

/-- `c'` agrees with `c` on residence, up to the order of the LRU list. -/
structure SameResidence (c c' : Cold) : Prop where
  pt : ∀ page, (c'.cmt page).pt = (c.cmt page).pt
  lruPtr : ∀ page, (c'.cmt page).lruPtr = (c.cmt page).lruPtr
  ghostMark : ∀ page, (c'.cmt page).ghostMark = (c.cmt page).ghostMark
  lru : c'.lru.Perm c.lru
  lruNext : c'.lruNext = c.lruNext
  nrCachedTpages : c'.nrCachedTpages = c.nrCachedTpages
  maxCachedTpages : c'.maxCachedTpages = c.maxCachedTpages

namespace SameResidence

variable {c c' c'' : Cold}

theorem refl (c : Cold) : SameResidence c c :=
  ⟨fun _ => rfl, fun _ => rfl, fun _ => rfl, .refl _, rfl, rfl, rfl⟩

/-- One operation after the other. -/
theorem trans (h : SameResidence c c') (h' : SameResidence c' c'') : SameResidence c c'' where
  pt page := (h'.pt page).trans (h.pt page)
  lruPtr page := (h'.lruPtr page).trans (h.lruPtr page)
  ghostMark page := (h'.ghostMark page).trans (h.ghostMark page)
  lru := h'.lru.trans h.lru
  lruNext := h'.lruNext.trans h.lruNext
  nrCachedTpages := h'.nrCachedTpages.trans h.nrCachedTpages
  maxCachedTpages := h'.maxCachedTpages.trans h.maxCachedTpages

/-- Such operations keep the occupancy. -/
theorem occupancy (h : SameResidence c c') (ho : Occupancy cfg c) : Occupancy cfg c' where
  counted := by rw [h.nrCachedTpages, ho.counted, h.lru.length_eq]
  node_iff nd := by rw [h.lru.mem_iff, ho.node_iff, h.pt, h.lruPtr]
  linked page := by rw [h.lruPtr, h.pt, ho.linked]
  addrs := (h.lru.map _).nodup_iff.mpr ho.addrs
  fresh nd hnd := by
    rw [h.lruNext]
    exact ho.fresh nd (h.lru.mem_iff.mp hnd)
  ghost page := by
    rw [h.ghostMark, h.pt]
    exact ho.ghost page
  inRange page := by
    rw [h.pt]
    exact ho.inRange page
  capacity := by
    rw [h.maxCachedTpages]
    exact ho.capacity

/-- Writing the other fields of a page. -/
theorem setCmt (c : Cold) (page : Nat) {m : Cmt} (hpt : m.pt = (c.cmt page).pt)
    (hptr : m.lruPtr = (c.cmt page).lruPtr) (hg : m.ghostMark = (c.cmt page).ghostMark) :
    SameResidence c (c.setCmt page m) := by
  refine ⟨fun p => ?_, fun p => ?_, fun p => ?_, .refl _, rfl, rfl, rfl⟩ <;>
    · rw [Cold.cmt_setCmt]
      split
      · next hp => simp [hp, hpt, hptr, hg]
      · rfl

theorem evictCnt (c : Cold) (n : Nat) : SameResidence c { c with rebalanceEvictCnt := n } :=
  ⟨fun _ => rfl, fun _ => rfl, fun _ => rfl, .refl _, rfl, rfl, rfl⟩

theorem popCount (c : Cold) (n : Nat) : SameResidence c { c with popCount := n } :=
  ⟨fun _ => rfl, fun _ => rfl, fun _ => rfl, .refl _, rfl, rfl, rfl⟩

theorem coldGrainAccess (c : Cold) (lpa : Nat) : SameResidence c (c.coldGrainAccess lpa) := by
  unfold Cold.coldGrainAccess
  dsimp only
  split
  · exact (setCmt c (dIdx lpa) (m := { c.cmt (dIdx lpa) with hasHotEntry := true })
      rfl rfl rfl).trans
      ⟨fun _ => rfl, fun _ => rfl, fun _ => rfl, .refl _, rfl, rfl, rfl⟩
  · exact refl c

/-- An access moves the page to the front and raises a count. -/
theorem touch (cfg : Settings) (c : Cold) (lpa : Nat) : SameResidence c (c.touch cfg lpa) := by
  unfold Cold.touch
  dsimp only
  split
  · split
    · exact refl c
    · exact ⟨fun _ => rfl, fun _ => rfl, fun _ => rfl, lruUpdate_perm _ _, rfl, rfl, rfl⟩
  · exact refl c

/-- The mapping of an lpa changes. -/
theorem update (c : Cold) (lpa : Nat) (pte : Pte) : SameResidence c (c.update lpa pte) := by
  unfold Cold.update
  dsimp only
  split
  · have h := setCmt c (dIdx lpa) (m := { c.cmt (dIdx lpa) with
      tPpa := if (c.cmt (dIdx lpa)).dirty then (c.cmt (dIdx lpa)).tPpa else none, dirty := true })
      rfl rfl rfl
    refine ⟨h.pt, h.lruPtr, h.ghostMark, ?_, rfl, rfl, rfl⟩
    dsimp only
    split
    · exact lruUpdate_perm _ _
    · exact .refl _
  · exact ⟨fun _ => rfl, fun _ => rfl, fun _ => rfl, .refl _, rfl, rfl, rfl⟩

theorem written (c : Cold) (page ppa : Nat) : SameResidence c (c.written page ppa) :=
  (setCmt c page (m := { c.cmt page with tPpa := some ppa, dirty := false }) rfl rfl rfl).trans
    ⟨fun _ => rfl, fun _ => rfl, fun _ => rfl, .refl _, rfl, rfl, rfl⟩

theorem relocate (c : Cold) (lpa ppa : Nat) : SameResidence c (c.relocate lpa ppa) :=
  ⟨fun _ => rfl, fun _ => rfl, fun _ => rfl, .refl _, rfl, rfl, rfl⟩

/-- A promotion clears the heat of what it copies. -/
theorem promoteHot (s : Store) (page : Nat) : SameResidence s.cold (s.promoteHot page).cold := by
  have hclear : SameResidence s.cold { s.cold with
      cntMap := fun lpa => if dIdx lpa = page then 0 else s.cold.cntMap lpa } :=
    ⟨fun _ => rfl, fun _ => rfl, fun _ => rfl, .refl _, rfl, rfl, rfl⟩
  unfold Store.promoteHot
  dsimp only
  split
  · exact hclear
  · split
    · exact refl _
    · split
      · exact hclear
      · exact hclear.trans (setCmt _ _ rfl rfl rfl)

/-- Several promotions. -/
theorem promoteAll (pages : List Nat) (s : Store) : SameResidence s.cold
    (pages.foldl (fun s page =>
      if (s.cold.cmt page).isResident then s.promoteHot page else s) s).cold := by
  induction pages generalizing s with
  | nil => exact refl _
  | cons page pages ih =>
    rw [List.foldl_cons]
    refine trans ?_ (ih _)
    split
    · exact promoteHot s page
    · exact refl _

/-- Those of the pages that the scan picks. -/
theorem promotePicked (cfg : Settings) (s : Store) :
    SameResidence s.cold (s.promotePicked cfg).cold := by
  unfold Store.promotePicked
  split
  · exact promoteAll _ s
  · exact refl _

/-- A load of a page that is resident. -/
theorem load {s s' : Store} {lpa : Nat} (h : s.load lpa = some s') :
    SameResidence s.cold s'.cold := by
  unfold Store.load at h
  dsimp only at h
  split at h
  · cases h
  · cases h
    exact setCmt _ _ rfl rfl rfl

end SameResidence

/-- The collectors leave residence alone. -/
theorem gcInvariant_sameResidence (c₀ : Cold) :
    GcInvariant (fun _ => True) fun c _ => SameResidence c₀ c where
  setTPpa _ _ h := h.trans (SameResidence.setCmt _ _ rfl rfl rfl)
  written page ppa h := h.trans (SameResidence.written _ page ppa)
  grain lpa h := h.trans (SameResidence.coldGrainAccess _ lpa)
  update lpa _ _ h := h.trans (SameResidence.update _ lpa _)
  relocate lpa ppa _ h := h.trans (SameResidence.relocate _ lpa ppa)

/-- So do the accesses of the cache. -/
theorem accessInvariant_sameResidence (cfg : Settings) (c₀ : Cold) :
    AccessInvariant cfg fun s => SameResidence c₀ s.cold where
  hot _ h := h
  grain lpa h := h.trans (SameResidence.coldGrainAccess _ lpa)
  touch lpa h := h.trans (SameResidence.touch cfg _ lpa)
  load _ h hl := h.trans (SameResidence.load hl)

/-- A victim is written back before it is dropped. -/
theorem SameResidence.writeBack {s s' : Store} {victim : Nat}
    (hw : s.writeBack cfg victim = some s') : SameResidence s.cold s'.cold := by
  unfold Store.writeBack at hw
  split at hw
  · exact (gcInvariant_sameResidence s.cold).writeTpage (.refl _) hw
  · cases hw
    exact .refl _

/-! ## Section 3: Evictions -/

/-- Dropping the least recently used page. -/
theorem Occupancy.dropLast {c : Cold} (h : Occupancy cfg c) {nd : LruNode}
    (hlast : c.lru.getLast? = some nd) {m : Cmt} (hpt : m.pt = false) (hptr : m.lruPtr = none) :
    Occupancy cfg { c.setCmt nd.page m with
      lru := c.lru.dropLast, nrCachedTpages := c.nrCachedTpages - 1 } := by
  have happ : c.lru.dropLast ++ [nd] = c.lru := List.dropLast_append_getLast? nd hlast
  have hnd : nd ∈ c.lru := by
    rw [← happ]
    simp
  have hpages := h.tracks.keys_nodup
  rw [← happ, List.map_append] at hpages
  have hne : ∀ x ∈ c.lru.dropLast, x.page ≠ nd.page := fun x hx hxy =>
    (List.nodup_append.mp hpages).2.2 x.page (List.mem_map_of_mem hx) nd.page (by simp) hxy
  have hcmt := c.cmt_setCmt nd.page m
  refine ⟨?_, fun x => ?_, fun p => ?_, ?_, fun x hx => ?_, fun p hp => ?_, fun p hp => ?_, ?_⟩
  · rw [h.counted, List.length_dropLast]
  · -- A node stays in the list exactly when it belongs to another page.
    show x ∈ c.lru.dropLast ↔ ((c.setCmt nd.page m).cmt x.page).pt = true ∧ _
    rw [hcmt]
    split
    · next hx =>
      simp only [hpt, Bool.false_eq_true, false_and, iff_false]
      exact fun hmem => hne x hmem hx
    · next hx =>
      rw [← h.node_iff x]
      refine ⟨fun hmem => List.dropLast_subset _ hmem, fun hmem => ?_⟩
      rw [← happ, List.mem_append, List.mem_singleton] at hmem
      rcases hmem with hmem | rfl
      · exact hmem
      · exact absurd rfl hx
  · show ((c.setCmt nd.page m).cmt p).lruPtr.isSome = ((c.setCmt nd.page m).cmt p).pt
    rw [hcmt]
    split
    · simp [hpt, hptr]
    · exact h.linked p
  · exact (List.dropLast_sublist _).map _ |>.nodup h.addrs
  · exact h.fresh x (List.dropLast_subset _ hx)
  · show ((c.setCmt nd.page m).cmt p).pt = false
    change ((c.setCmt nd.page m).cmt p).ghostMark = true at hp
    rw [hcmt] at hp ⊢
    split
    · exact hpt
    · next hpn =>
      rw [if_neg hpn] at hp
      exact h.ghost p hp
  · change ((c.setCmt nd.page m).cmt p).pt = true at hp
    rw [hcmt] at hp
    split at hp
    · rw [hpt] at hp
      cases hp
    · exact h.inRange p hp
  · exact h.capacity

/-- Marking a page that has just left the cache. -/
theorem Occupancy.markGhost {c : Cold} (h : Occupancy cfg c) {page : Nat}
    (hpt : (c.cmt page).pt = false) :
    Occupancy cfg (c.setCmt page { c.cmt page with ghostMark := true }) := by
  have hcmt := c.cmt_setCmt page { c.cmt page with ghostMark := true }
  have hsame : ∀ p, ((c.setCmt page { c.cmt page with ghostMark := true }).cmt p).pt =
      (c.cmt p).pt ∧ ((c.setCmt page { c.cmt page with ghostMark := true }).cmt p).lruPtr =
        (c.cmt p).lruPtr := fun p => by
    rw [hcmt]
    split
    · next hp => simp [hp]
    · simp
  refine ⟨h.counted, fun nd => ?_, fun p => ?_, h.addrs, h.fresh, fun p hp => ?_, fun p hp => ?_,
    h.capacity⟩
  · rw [(hsame nd.page).1, (hsame nd.page).2]
    exact h.node_iff nd
  · rw [(hsame p).1, (hsame p).2]
    exact h.linked p
  · rw [(hsame p).1]
    rw [hcmt] at hp
    split at hp
    · next hpp => rw [hpp, hpt]
    · exact h.ghost p hp
  · rw [(hsame p).1] at hp
    exact h.inRange p hp

/-- Any limit but 0 will do. -/
theorem Occupancy.setCapacity {c : Cold} (h : Occupancy cfg c) {n : Nat} (hn : 0 < n) :
    Occupancy cfg { c with maxCachedTpages := n } :=
  ⟨h.counted, h.node_iff, h.linked, h.addrs, h.fresh, h.ghost, h.inRange, hn⟩

/-- The limits of `max_cached_tpages` leave at least one page to the cold cache. -/
theorem Occupancy.rebalance {s : Store} (h : Occupancy cfg s.cold) (choice : Rebalance) :
    Occupancy cfg (s.rebalance cfg choice).cold := by
  have hchunk := cfg.chunkTpages_pos
  unfold Store.rebalance
  -- Each guard leaves the cold cache one page at least.
  cases choice with
  | keep => exact h
  | expandHot =>
    dsimp only
    split
    · exact h
    · next hg =>
      have hpos : 0 < s.cold.maxCachedTpages - cfg.chunkTpages := by omega
      exact h.setCapacity hpos
  | expandKey =>
    dsimp only
    split
    · exact h
    · next hg =>
      have hpos : 0 < s.cold.maxCachedTpages - cfg.keyChunkPages := by omega
      exact h.setCapacity hpos
  | shrinkHot =>
    dsimp only
    split
    · exact h
    · have hpos : 0 < s.cold.maxCachedTpages + cfg.chunkTpages := by omega
      exact h.setCapacity hpos

/-- A rebalance changes the limits only. -/
theorem rebalance_cmt (s : Store) (choice : Rebalance) :
    (s.rebalance cfg choice).cold.cmt = s.cold.cmt := by
  unfold Store.rebalance
  cases choice with
  | keep => rfl
  | expandHot | expandKey | shrinkHot =>
    dsimp only
    split <;> rfl

/-- An attempt rebalances or does nothing. -/
theorem Occupancy.tryRebalance {s : Store} (h : Occupancy cfg s.cold) (choice : Rebalance) :
    Occupancy cfg (s.tryRebalance cfg choice).cold := by
  unfold Store.tryRebalance
  split
  · exact h.rebalance choice
  · exact h

/-- And so does the attempt of one. -/
theorem tryRebalance_cmt (s : Store) (choice : Rebalance) :
    (s.tryRebalance cfg choice).cold.cmt = s.cold.cmt := by
  unfold Store.tryRebalance
  split
  · exact rebalance_cmt s choice
  · rfl

/-- What follows an eviction keeps the occupancy. -/
theorem Occupancy.afterEvict {s : Store} (h : Occupancy cfg s.cold) {victim : Nat}
    (hpt : (s.cold.cmt victim).pt = false) (choice : Rebalance) :
    Occupancy cfg (s.afterEvict cfg victim choice).cold := by
  have hm := h.markGhost hpt
  have hn := (SameResidence.evictCnt _ (s.cold.rebalanceEvictCnt + 1)).occupancy hm
  unfold Store.afterEvict
  split
  · dsimp only
    split
    · split
      · exact Occupancy.tryRebalance (s := { s with cold := _ }) hn choice
      · exact hn
    · exact hm
  · exact h

/-- No page comes in or goes out by it. -/
theorem afterEvict_pt (s : Store) (victim : Nat) (choice : Rebalance) (page : Nat) :
    ((s.afterEvict cfg victim choice).cold.cmt page).pt = (s.cold.cmt page).pt := by
  have hmark : ((s.cold.setCmt victim { s.cold.cmt victim with ghostMark := true }).cmt page).pt =
      (s.cold.cmt page).pt := by
    rw [Cold.cmt_setCmt]
    split
    · next hp => rw [hp]
    · rfl
  unfold Store.afterEvict
  split
  · dsimp only
    split
    · split
      · rw [tryRebalance_cmt]
        exact hmark
      · exact hmark
    · exact hmark
  · rfl

/-- The first node that the victim loop pops is a resident page, so it pops no other. -/
theorem popVictim_eq (cfg : Settings) {s : Store} (h : Occupancy cfg s.cold)
    (hne : s.cold.lru ≠ []) (n : Nat) :
    ∃ (c : Cold) (nd : LruNode), SameResidence s.cold c ∧ c.lru.getLast? = some nd ∧
      ∃ s', popVictim cfg s (n + 1) = some (nd.page, s') ∧
        s'.cold = { c.setCmt nd.page { c.cmt nd.page with lruPtr := none } with
          lru := c.lru.dropLast } := by
  have hsame := SameResidence.promotePicked cfg s
  have ho := hsame.occupancy h
  have hne' : (s.promotePicked cfg).cold.lru ≠ [] := fun hnil => by
    have hperm := hsame.lru
    rw [hnil] at hperm
    exact hne hperm.nil_eq.symm
  obtain ⟨nd, hlast⟩ := Option.isSome_iff_exists.mp (List.getLast?_isSome.mpr hne')
  have hmem : nd ∈ (s.promotePicked cfg).cold.lru := List.mem_of_getLast? hlast
  have hres : ((s.promotePicked cfg).cold.cmt nd.page).isResident = true := by
    rw [ho.isResident_eq]
    exact ((ho.node_iff nd).mp hmem).1
  refine ⟨(s.promotePicked cfg).cold, nd, hsame, hlast, ?_⟩
  simp only [popVictim, lruPop, hlast, Option.map_some, hres, if_true]
  exact ⟨_, rfl, rfl⟩

/-- The victim leaves the list, then the directory. -/
theorem unload_cold {s : Store} {c : Cold} {page : Nat} {lru : List LruNode}
    (h : s.cold = { c.setCmt page { c.cmt page with lruPtr := none } with lru := lru }) :
    (s.unload page).cold = { c.setCmt page { c.cmt page with pt := false, lruPtr := none } with
      lru := lru, nrCachedTpages := c.nrCachedTpages - 1 } := by
  simp [Store.unload, h, Cold.setCmt]

/-- An eviction takes one page out of the cache. -/
theorem Occupancy.evict {s s' : Store} (h : Occupancy cfg s.cold) (hfull : s.cold.isFull = true)
    {choice : Rebalance} {rc : Bool} (he : s.evict cfg choice = some (rc, s')) :
    Occupancy cfg s'.cold ∧
      ∀ page, (s.cold.cmt page).pt = false → (s'.cold.cmt page).pt = false := by
  unfold Store.evict at he
  simp only [Option.bind_eq_bind, Option.bind_eq_some_iff, Option.pure_def, Option.some.injEq,
    Prod.mk.injEq] at he
  obtain ⟨⟨victim, s₁⟩, hpop, s₂, hw, -, rfl⟩ := he
  have hcount := SameResidence.popCount s.cold (s.cold.popCount + 1)
  have h0 := hcount.occupancy h
  obtain ⟨c, nd, hsame, hlast, s₁', hpop', hcold⟩ := popVictim_eq cfg
    (s := { s with cold := { s.cold with popCount := s.cold.popCount + 1 } }) h0
    (h.lru_ne_nil hfull) (s.cold.maxCachedTpages + 63)
  rw [hpop, Option.some.injEq, Prod.mk.injEq] at hpop'
  obtain ⟨rfl, rfl⟩ := hpop'
  have hun := unload_cold hcold
  have hocc : Occupancy cfg (s₁.unload nd.page).cold := by
    rw [hun]
    exact (hsame.occupancy h0).dropLast hlast rfl rfl
  -- The victim is the only page that leaves the cache.
  have hpt : ∀ page, ((s₁.unload nd.page).cold.cmt page).pt =
      if page = nd.page then false else (s.cold.cmt page).pt := by
    intro page
    rw [hun]
    show ((c.setCmt nd.page { c.cmt nd.page with pt := false, lruPtr := none }).cmt page).pt = _
    rw [Cold.cmt_setCmt]
    split
    · rfl
    · exact (hcount.trans hsame).pt page
  have hback : SameResidence (s₁.unload nd.page).cold s₂.cold := SameResidence.writeBack hw
  have hvictim : (s₂.cold.cmt nd.page).pt = false := by
    rw [hback.pt, hpt, if_pos rfl]
  refine ⟨(hback.occupancy hocc).afterEvict hvictim choice, fun page hpage => ?_⟩
  rw [afterEvict_pt, hback.pt, hpt]
  split
  · rfl
  · exact hpage

/-- A page that is not resident gets a new LRU node and is counted. -/
theorem Occupancy.addNode {c : Cold} (h : Occupancy cfg c) {page : Nat}
    (hout : (c.cmt page).pt = false) (hr : page < cfg.nrValidTpages) {m : Cmt} (hpt : m.pt = true)
    (hptr : m.lruPtr = some c.lruNext) (hg : m.ghostMark = false) (cnt : Nat → Nat) :
    Occupancy cfg { c.setCmt page m with
      cntMap := cnt, lru := ⟨c.lruNext, page⟩ :: c.lru, lruNext := c.lruNext + 1,
      nrCachedTpages := c.nrCachedTpages + 1 } := by
  have hcmt := c.cmt_setCmt page m
  have hne : ∀ x ∈ c.lru, x.page ≠ page := fun x hx hxy => by
    have hx' := ((h.node_iff x).mp hx).1
    rw [hxy, hout] at hx'
    cases hx'
  refine ⟨?_, fun x => ?_, fun p => ?_, ?_, fun x hx => ?_, fun p hp => ?_, fun p hp => ?_, ?_⟩
  · show c.nrCachedTpages + 1 = c.lru.length + 1
    rw [h.counted]
  · show x ∈ ⟨c.lruNext, page⟩ :: c.lru ↔ ((c.setCmt page m).cmt x.page).pt = true ∧
      ((c.setCmt page m).cmt x.page).lruPtr = some x.addr
    rw [hcmt, List.mem_cons]
    split
    · next hx =>
      have hx' : x ∉ c.lru := fun hmem => hne x hmem hx
      rw [hpt, hptr]
      obtain ⟨addr, p⟩ := x
      have hp : p = page := hx
      subst hp
      simp only [hx', or_false, LruNode.mk.injEq, and_true, true_and, Option.some.injEq]
      exact eq_comm
    · next hx =>
      rw [← h.node_iff x]
      refine ⟨fun hmem => hmem.resolve_left fun he => hx (by rw [he]), Or.inr⟩
  · show ((c.setCmt page m).cmt p).lruPtr.isSome = ((c.setCmt page m).cmt p).pt
    rw [hcmt]
    split
    · rw [hpt, hptr]
      rfl
    · exact h.linked p
  · show (c.lruNext :: c.lru.map (·.addr)).Nodup
    refine List.nodup_cons.mpr ⟨fun hmem => ?_, h.addrs⟩
    obtain ⟨x, hx, he⟩ := List.mem_map.mp hmem
    have hlt := h.fresh x hx
    omega
  · show x.addr < c.lruNext + 1
    rcases List.mem_cons.mp hx with rfl | hx
    · exact Nat.lt_succ_self _
    · exact Nat.lt_succ_of_lt (h.fresh x hx)
  · change ((c.setCmt page m).cmt p).ghostMark = true at hp
    show ((c.setCmt page m).cmt p).pt = false
    rw [hcmt] at hp ⊢
    split
    · next hpp =>
      rw [if_pos hpp, hg] at hp
      cases hp
    · next hpp =>
      rw [if_neg hpp] at hp
      exact h.ghost p hp
  · change ((c.setCmt page m).cmt p).pt = true at hp
    rw [hcmt] at hp
    split at hp
    · next hpp => exact hpp ▸ hr
    · exact h.inRange p hp
  · exact h.capacity

/-- The page that was absent comes to the front. -/
theorem Occupancy.makeResident {s : Store} (h : Occupancy cfg s.cold) {page : Nat}
    (hout : (s.cold.cmt page).pt = false) (hr : page < cfg.nrValidTpages) :
    Occupancy cfg (s.makeResident page).cold := by
  have hl := h.linked page
  rw [hout, Option.isSome_eq_false_iff, Option.isNone_iff_eq_none] at hl
  unfold Store.makeResident
  simp only [hl]
  exact h.addNode hout hr rfl rfl rfl _

/-- `list_up` of a page that is not resident. -/
theorem Occupancy.listUp {s s' : Store} (h : Occupancy cfg s.cold) {lpa : Nat}
    (hout : (s.cold.cmt (dIdx lpa)).pt = false) (hr : dIdx lpa < cfg.nrValidTpages)
    {choice : Rebalance} {rc : Bool} (hl : s.listUp cfg lpa choice = some (rc, s')) :
    Occupancy cfg s'.cold := by
  unfold Store.listUp at hl
  obtain ⟨⟨rc', s₁⟩, he, hm⟩ := Option.map_eq_some_iff.mp hl
  cases hm
  split at he
  · next hfull =>
    obtain ⟨h₁, hkeep⟩ := h.evict hfull he
    exact h₁.makeResident (hkeep _ hout) hr
  · cases he
    exact h.makeResident hout hr

/-- While the cache reports full, the victim loop finds a page. -/
theorem Occupancy.popVictim_isSome {s : Store} (h : Occupancy cfg s.cold)
    (hfull : s.cold.isFull = true) :
    (popVictim cfg { s with cold := { s.cold with popCount := s.cold.popCount + 1 } }
      (s.cold.maxCachedTpages + 64)).isSome = true := by
  have h0 := (SameResidence.popCount s.cold (s.cold.popCount + 1)).occupancy h
  obtain ⟨c, nd, _, _, s₁, hpop, _⟩ := popVictim_eq cfg
    (s := { s with cold := { s.cold with popCount := s.cold.popCount + 1 } }) h0
    (h.lru_ne_nil hfull) (s.cold.maxCachedTpages + 63)
  rw [hpop]
  rfl

/-! ## Section 4: Runs -/

/-- The pages of lpas are in the directory. -/
theorem dIdx_getLpa_lt (cfg : Settings) (h : HashParams) :
    dIdx (getLpa cfg h) < cfg.nrValidTpages :=
  Nat.div_lt_of_lt_mul (by
    have hlt := getLpa_lt cfg h
    unfold Settings.nrValidTentries at hlt
    omega)

/-- The translation page with which a step resumes at `list_up`, after its load. -/
def Ftl.resumesListUp (cfg : Settings) (f : Ftl) : Label → Option Nat
  | .getPass _ =>
    match f.phase with
    | .getting r =>
      if r.params = some .list ∨ r.params = some .evict then some (dIdx (getLpa cfg r.hParams))
      else none
    | _ => none
  | .wbPass _ =>
    match f.phase with
    | .mapping m =>
      m.cur.bind fun e =>
        if e.params = some .load ∨ e.params = some .list then some (dIdx (getLpa cfg e.hParams))
        else none
    | _ => none
  | _ => none

/-- No step resumes at `list_up` with a page that is resident by now. -/
def listUpAbsent (cfg : Settings) (f : Ftl) (a : Label) : Bool :=
  (f.resumesListUp cfg a).all fun page => !(f.store.cold.cmt page).pt

/-- The stores in which the current operation gets to `dftl_cache_list_up`. -/
def ListsUp (cfg : Settings) (f : Ftl) (s : Store) : Prop :=
  (∃ r, f.phase = .getting r ∧ (r.params = some .list ∨ r.params = some .evict) ∧ s = f.store) ∨
    ∃ m e, f.phase = .mapping m ∧ m.cur = some e ∧ ReachesWbList cfg f.store e s

/-- An entry that reaches `list_up` finds its page absent: it has just looked, or the
    step resumes there. -/
theorem ReachesWbList.absent {s₀ s : Store} {e : WbEntry} (h : Occupancy cfg s.cold)
    (hsame : SameResidence s₀.cold s.cold)
    (hres : e.params = some .load ∨ e.params = some .list →
      (s₀.cold.cmt (dIdx (getLpa cfg e.hParams))).pt = false)
    (hs : ReachesWbList cfg s₀ e s) : (s.cold.cmt (dIdx (getLpa cfg e.hParams))).pt = false := by
  rcases hs with ⟨hp, _⟩ | ⟨⟨hp, _⟩ | ⟨_, _, hout⟩, _⟩
  · rw [hsame.pt]
    exact hres (Or.inr hp)
  · rw [hsame.pt]
    exact hres (Or.inl hp)
  · rwa [h.isResident_eq] at hout

/-- Accesses keep the occupancy. -/
theorem accessInvariant_occupancy : AccessInvariant cfg fun s => Occupancy cfg s.cold where
  hot _ h := h
  grain lpa h := (SameResidence.coldGrainAccess _ lpa).occupancy h
  touch lpa h := (SameResidence.touch cfg _ lpa).occupancy h
  load _ h hl := (SameResidence.load hl).occupancy h

/-- A pass over an entry keeps it, if the page it lists is absent. -/
theorem Occupancy.wbPath {realKeys : Nat → Key} {ht : DHtable} {s₀ s : Store} {e : WbEntry}
    {choice : Rebalance} {ex : WbExit} (h : Occupancy cfg s₀.cold)
    (hres : e.params = some .load ∨ e.params = some .list →
      (s₀.cold.cmt (dIdx (getLpa cfg e.hParams))).pt = false)
    (hw : WbPath cfg realKeys ht s₀ e choice s ex) : Occupancy cfg s.cold := by
  refine hw.preserves accessInvariant_occupancy (fun s₁ rc s' hs h₁ hl => ?_) h
  have hsame : SameResidence s₀.cold s₁.cold :=
    (accessInvariant_sameResidence cfg s₀.cold).reachesWbList (.refl _) hs
  exact h₁.listUp (hs.absent h₁ hsame hres) (dIdx_getLpa_lt cfg _) hl

/-- And so does a pass over a get. -/
theorem Occupancy.getPath {f : Ftl} {r : Request} {choice : Rebalance} {s : Store} {ex : GetExit}
    (h : Occupancy cfg f.store.cold)
    (hres : r.params = some .list ∨ r.params = some .evict →
      (f.store.cold.cmt (dIdx (getLpa cfg r.hParams))).pt = false)
    (hg : GetPath cfg f r choice s ex) : Occupancy cfg s.cold :=
  hg.preserves accessInvariant_occupancy
    (fun _ _ hp hl => h.listUp (hres hp) (dIdx_getLpa_lt cfg _) hl) h

theorem wbInstall_residence (s : Store) (lpa ppa : Nat) (fp : UInt32) :
    SameResidence s.cold (wbInstall cfg s lpa ppa fp).cold :=
  SameResidence.update s.cold lpa _

theorem assign_residence {f f' : Ftl} (h : Step cfg hs f .assign f') :
    SameResidence f.store.cold f'.store.cold :=
  (gcInvariant_sameResidence f.store.cold).assign (fun _ _ _ _ => trivial) (.refl _) h

/-- A step that lists absent pages only keeps it. -/
theorem Occupancy.step {f f' : Ftl} {a : Label} (h : Occupancy cfg f.store.cold)
    (hok : listUpAbsent cfg f a = true) (hstep : Step cfg hs f a f') :
    Occupancy cfg f'.store.cold := by
  have hassign : a = .assign → SameResidence f.store.cold f'.store.cold := fun ha => by
    subst ha
    exact assign_residence hstep
  -- The cache changes in the passes, and by a list_up only for a page that is not there.
  cases hstep with
  | getPass choice r s ex hp hd =>
    have hs : Occupancy cfg s.cold := h.getPath (fun hj => by
      simpa [listUpAbsent, Ftl.resumesListUp, hp, hj] using hok) (.of_pass hd)
    cases ex <;> exact hs
  | wbAgain choice m e s e' hp hc hw | wbParked choice m e s e' hp hc hw =>
    exact h.wbPath (fun hj => by
      simpa [listUpAbsent, Ftl.resumesListUp, hp, hc, hj] using hok) (WbPath.of_pass hw).2
  | wbUpdate choice m e s e' ppa hp hc hw hppa =>
    have hs : Occupancy cfg s.cold := h.wbPath (fun hj => by
      simpa [listUpAbsent, Ftl.resumesListUp, hp, hc, hj] using hok) (WbPath.of_pass hw).2
    refine (wbInstall_residence _ _ _ _).occupancy ?_
    rw [wbInvalidateOld_cold]
    exact hs
  | wbDirectUpdate choice m e s e' ppa hp hc hw hppa =>
    have hs : Occupancy cfg s.cold := h.wbPath (fun hj => by
      simpa [listUpAbsent, Ftl.resumesListUp, hp, hc, hj] using hok) (WbPath.of_pass hw).2
    exact (wbInstall_residence _ _ _ _).occupancy hs
  | endAssign m hp hdone => exact h
  | assignEntry | assignPage => exact (hassign rfl).occupancy h
  | promote page hp => exact (SameResidence.promoteHot f.store page).occupancy h
  | get | resume | setFull | setInsert | pickRetry | pickMaster | flush | rehashBegin
  | rehashTick =>
    exact h

/-- A created cache is empty. -/
theorem create_occupancy {garbage : Nat → Key} {f : Ftl} (h : Ftl.create cfg garbage = some f) :
    Occupancy cfg f.store.cold := by
  obtain ⟨s, hs, rfl⟩ := Option.map_eq_some_iff.mp h
  obtain ⟨bm, -, rfl⟩ := Option.map_eq_some_iff.mp hs
  refine ⟨rfl, fun nd => ?_, fun _ => rfl, List.nodup_nil, fun _ hnd => ?_, fun _ _ => rfl,
    fun _ hp => ?_, cfg.maxCachedTpages_pos⟩
  · simp [Cold.create, Cmt.initial]
  · cases hnd
  · cases hp

/-- It holds in every state of such a run. -/
theorem reach_occupancy {f : Ftl}
    (h : (machine cfg hs).Reach (fun f a => listUpAbsent cfg f a = true) f) :
    Occupancy cfg f.store.cold :=
  h.invariant (fun _ ⟨_, hs⟩ => create_occupancy hs)
    fun _ _ _ _ ih hok hn => ih.step hok (.of_next hn)

/-- While no step resumes at `list_up` with a resident page, the page counter is the
    number of resident pages and of LRU nodes, each resident page has one node, the one
    its `lru_ptr` points to, and no full cache has an empty LRU list. -/
theorem cache_occupancy {f : Ftl}
    (h : (machine cfg hs).Reach (fun f a => listUpAbsent cfg f a = true) f) :
    f.store.cold.nrCachedTpages =
      (List.range cfg.nrValidTpages).countP (fun page => (f.store.cold.cmt page).pt) ∧
    f.store.cold.nrCachedTpages = f.store.cold.lru.length ∧
    (f.store.cold.lru.map (·.addr)).Nodup ∧
    (∀ page, (f.store.cold.cmt page).pt = true →
      ∃ addr, (f.store.cold.cmt page).lruPtr = some addr ∧
        f.store.cold.lru.filter (fun nd => nd.page = page) = [⟨addr, page⟩]) ∧
    (∀ page, (f.store.cold.cmt page).pt = false →
      f.store.cold.lru.filter (fun nd => nd.page = page) = []) ∧
    (∀ s, ListsUp cfg f s → s.cold.isFull = true → s.cold.lru ≠ [] ∧
      (popVictim cfg { s with cold := { s.cold with popCount := s.cold.popCount + 1 } }
        (s.cold.maxCachedTpages + 64)).isSome = true) := by
  have ho := reach_occupancy h
  refine ⟨ho.counted_pages, ho.counted, ho.addrs, fun page hpt => ?_, fun page hpt => ?_,
    fun s hs hfull => ?_⟩
  · obtain ⟨nd, hnd, rfl, hptr⟩ := ho.exists_node hpt
    exact ⟨nd.addr, hptr, ho.tracks.filter_key hnd⟩
  · exact ho.tracks.filter_key_eq_nil ho.linked hpt
  · have hos : Occupancy cfg s.cold := by
      rcases hs with ⟨r, _, _, rfl⟩ | ⟨m, e, _, _, hs⟩
      · exact ho
      · exact accessInvariant_occupancy.reachesWbList ho hs
    exact ⟨hos.lru_ne_nil hfull, hos.popVictim_isSome hfull⟩

/-! ## Section 5: Concrete runs -/

/-- A cache of two pages. -/
def twoPages : Settings :=
  .scaled false false 16 60 8 1 2 sixteen_pos nos_sixty eight_pos Nat.one_pos Nat.two_pos
    grains_fit_sixty

/-- Pages 1, 2 and 3 are written through the cache, which evicts the dirty page 1. -/
def evictingSets : List Label :=
  [.set (byteKey 1) 100] ++ flushingSet 2 ++ flushingSet 3 ++
    [.set (byteKey 4) 100, .assign, .assign, .pickMaster, .wbPass .keep, .pickRetry 0,
      .wbPass .keep, .flush]

/-- A get of key 1 misses, loads page 1 in place of a dirty page and resumes at `list_up`. -/
theorem cache_occupancy_evictions :
    ∃ f : Ftl, f.phase.requestIds = [] ∧ f.store.cold.isFull = true ∧
      (f.store.cold.cmt 1).pt = true ∧ (f.store.cold.cmt 2).pt = false ∧
      f.store.cold.nrCachedTpages =
        (List.range twoPages.nrValidTpages).countP (fun page => (f.store.cold.cmt page).pt) ∧
      f.store.cold.nrCachedTpages = f.store.cold.lru.length := by
  obtain ⟨f, hf, hp⟩ := exists_reach_of_run twoPages pageHash (listUpAbsent twoPages)
    (evictingSets ++ [.get (byteKey 1), .getPass .keep, .resume 0, .getPass .keep, .resume 0,
      .getPass .keep])
    (fun f => f.phase.requestIds.isEmpty && f.store.cold.isFull && (f.store.cold.cmt 1).pt &&
      !(f.store.cold.cmt 2).pt) (by decide +kernel) (by decide +kernel)
  simp only [Bool.and_eq_true, Bool.not_eq_true', List.isEmpty_iff] at hp
  obtain ⟨⟨⟨hidle, hfull⟩, hone⟩, htwo⟩ := hp
  obtain ⟨hcount, hlen, -⟩ := cache_occupancy hf
  exact ⟨f, hidle, hfull, hone, htwo, hcount, hlen⟩

/-- Two gets of key 1 miss, load page 1 and both resume at `list_up`: the second finds the
    page resident, evicts another one and counts page 1 again. -/
theorem occupancyDrift_counterexample :
    ∃ f, (machine twoPages pageHash).Reachable f ∧ f.phase.requestIds = [] ∧
      f.store.cold.nrCachedTpages = 2 ∧ f.store.cold.lru.length = 1 ∧
      (List.range twoPages.nrValidTpages).countP (fun page => (f.store.cold.cmt page).pt) = 1 := by
  obtain ⟨f, hf, hp⟩ := exists_reachable_of_run twoPages pageHash
    (evictingSets ++ [.get (byteKey 1), .getPass .keep, .get (byteKey 1), .getPass .keep,
      .resume 0, .getPass .keep, .resume 0, .getPass .keep])
    (fun f => f.phase.requestIds.isEmpty && f.store.cold.nrCachedTpages = 2 &&
      f.store.cold.lru.length = 1 &&
      (List.range twoPages.nrValidTpages).countP (fun page => (f.store.cold.cmt page).pt) = 1)
    (by decide +kernel)
  simp only [Bool.and_eq_true, List.isEmpty_iff, decide_eq_true_eq] at hp
  exact ⟨f, hf, hp.1.1.1, hp.1.1.2, hp.1.2, hp.2⟩

end AggreKV.HashKv
