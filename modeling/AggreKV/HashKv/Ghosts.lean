import AggreKV.HashKv.KeyBudget
import AggreKV.HashKv.GhostOrder

/-! # Ghost accounting

    Ghosts are kept in place: a mark on a page that is not resident, or on
    a slot whose key has been given up. Counters beside them enforce the
    caps.

    * `Mem.Haunted`: `nr_ghost_cold` counts the marked pages.
    * `ghost_cold`: it does so in every state.
    * `GhostsAre`: no slot is marked, whatever the counters of key ghosts say.
    * `ghost_keys`: what they do count: a promotion takes the mark of a key
      ghost off as soon as it has been set. -/

namespace AggreKV.HashKv

/-! ## Section 1: Ghosts of pages -/

namespace Mem

variable {m m' : Mem}

/-- The marked pages. -/
def coldGhosts (m : Mem) : Nat :=
    ((Finset.range m.nrValidTpages).filter fun page => m.ghost page).card

/-- The counter is right, and a marked page has no table and no heat map. -/
structure Haunted (m : Mem) : Prop where
  count : m.nrGhostCold = m.coldGhosts
  absent : ∀ page, m.ghost page = true → (m.cmt page).pt = false ∧ (m.cmt page).cntMap = false

theorem coldGhosts_eq (m : Mem) : m.coldGhosts =
    weight (fun c : ColdPage => c.ghostMark.toNat) m.cmt m.nrValidTpages := (weight_toNat ..).symm

/-- One page changes. -/
theorem coldGhosts_setPage {page : Nat} (hpages : m'.nrValidTpages = m.nrValidTpages) {c : ColdPage}
    (hcmt : m'.cmt = Function.update m.cmt page c) (hpage : page < m.nrValidTpages) :
    m'.coldGhosts + (m.ghost page).toNat = m.coldGhosts + c.ghostMark.toNat := by
  have hset := weight_set (w := fun c : ColdPage => c.ghostMark.toNat) (f := m.cmt)
      (g := m'.cmt) hpage
    fun q hq => by rw [hcmt, Function.update_of_ne hq]
  rw [hcmt, Function.update_self] at hset
  rw [coldGhosts_eq, coldGhosts_eq, hpages, hcmt]
  exact hset

/-- A marked page is counted. -/
theorem ghost_le_coldGhosts {page : Nat} (hpage : page < m.nrValidTpages) :
    (m.ghost page).toNat ≤ m.coldGhosts := by
  rw [coldGhosts_eq]
  exact le_weight (w := fun c : ColdPage => c.ghostMark.toNat) (f := m.cmt) hpage

/-- The count depends on the pages and the counter. -/
theorem Haunted.congr (hh : m.Haunted) (hpages : m'.nrValidTpages = m.nrValidTpages)
    (hcmt : m'.cmt = m.cmt) (hnr : m'.nrGhostCold = m.nrGhostCold) : m'.Haunted := by
  refine ⟨?_, fun page hmark => ?_⟩
  · rw [hnr, hh.count, coldGhosts_eq, coldGhosts_eq, hpages, hcmt]
  · unfold ghost at hmark
    rw [hcmt] at hmark ⊢
    exact hh.absent page hmark

/-- A page with or without a mark is stored, and counted. -/
theorem Haunted.setPage (hh : m.Haunted) {page : Nat}
    (hpage : page < m.nrValidTpages) {c : ColdPage}
    (habsent : c.ghostMark = true → c.pt = false ∧ c.cntMap = false)
    (hpages : m'.nrValidTpages = m.nrValidTpages) (hcmt : m'.cmt = Function.update m.cmt page c)
    (hcount : m'.nrGhostCold + (m.ghost page).toNat = m.nrGhostCold + c.ghostMark.toNat) :
    m'.Haunted := by
  have hset := coldGhosts_setPage hpages hcmt hpage
  have hcold := hh.count
  refine ⟨by omega, fun q hmark => ?_⟩
  unfold ghost at hmark
  rw [hcmt] at hmark ⊢
  by_cases hq : q = page
  · rw [hq, Function.update_self] at hmark ⊢
    exact habsent hmark
  · rw [Function.update_of_ne hq] at hmark ⊢
    exact hh.absent q hmark

/-- A mark taken off is counted out. -/
theorem Haunted.ghostColdUnmark (hh : m.Haunted) {page : Nat} (hpage : page < m.nrValidTpages)
    (hmark : m.ghost page = true) : (m.ghostColdUnmark page).Haunted := by
  apply hh.setPage hpage (c := { m.cmt page with ghostMark := false, cntMap := false })
  · intro hno
    cases hno
  · rfl
  · rfl
  · have hle := ghost_le_coldGhosts hpage
    have hcount := hh.count
    rw [hmark] at hle ⊢
    show m.nrGhostCold - 1 + 1 = m.nrGhostCold + 0
    have hone : true.toNat = 1 := rfl
    omega

/-! The invariant rule of the evictions of page ghosts. -/

section Evictions

variable {I : Mem → Prop} (hfifo : ∀ m f, I m → I { m with coldFifo := f })
  (hscan : ∀ m rr, I m → I { m with coldScanRr := rr })
  (hunmark : ∀ m page, page < m.nrValidTpages → m.ghost page = true → I m →
    I (m.ghostColdUnmark page))

include hscan hunmark in
theorem ghostColdScan_rule (steps : Nat) {m : Mem} (hpos : 0 < m.nrValidTpages) (hi : I m) :
    I (m.ghostColdScan steps).2 := by
  induction steps generalizing m with
  | zero => exact hi
  | succ steps ih =>
    unfold ghostColdScan
    dsimp only
    split
    · next hmark => exact hunmark _ _ (Nat.mod_lt _ hpos) hmark (hscan _ _ hi)
    · exact ih hpos (hscan _ _ hi)

include hscan hunmark in
theorem ghostColdEvictRr_rule {m : Mem} (hi : I m) : I m.ghostColdEvictRr.2 := by
  unfold ghostColdEvictRr
  split
  · exact hi
  · next hno =>
    have hpos : 0 < m.nrValidTpages := Nat.pos_of_ne_zero fun hzero => hno (Or.inl hzero)
    exact ghostColdScan_rule hscan hunmark 512 hpos hi

include hfifo hscan hunmark in
theorem ghostColdFifoEvict_rule (tries : Nat) {m : Mem} (hi : I m) :
    I (m.ghostColdFifoEvict tries).2 := by
  induction tries generalizing m with
  | zero => exact ghostColdEvictRr_rule hscan hunmark hi
  | succ tries ih =>
    unfold ghostColdFifoEvict
    dsimp only
    split
    · exact ghostColdEvictRr_rule hscan hunmark hi
    · split
      · next hmark => exact hunmark _ _ hmark.1 hmark.2 (hfifo _ _ hi)
      · exact ih (hfifo _ _ hi)

include hfifo hscan hunmark in
theorem ghostColdEvictDownTo_rule (limit rounds : Nat) {m : Mem} (hi : I m) :
    I (m.ghostColdEvictDownTo limit rounds) := by
  induction rounds generalizing m with
  | zero => exact hi
  | succ rounds ih =>
    have hevict : I m.ghostColdFifoEvictOldest.2 := ghostColdFifoEvict_rule hfifo hscan hunmark _ hi
    unfold ghostColdEvictDownTo
    dsimp only
    split
    · split
      · exact ih hevict
      · exact hevict
    · exact hi

end Evictions

/-- Evictions keep the count right, and the other fields of the pages. -/
structure Exorcised (m m' : Mem) : Prop where
  haunted : m'.Haunted
  pages : m'.nrValidTpages = m.nrValidTpages
  pt : ∀ page, (m'.cmt page).pt = (m.cmt page).pt
  ghost : ∀ page, m'.ghost page = true → m.ghost page = true

/-- Making room keeps the count. -/
theorem Haunted.evictDownTo (hh : m.Haunted) (limit rounds : Nat) :
    Exorcised m (m.ghostColdEvictDownTo limit rounds) := by
  refine ghostColdEvictDownTo_rule ?_ ?_ ?_ limit rounds ⟨hh, rfl, fun _ => rfl, fun _ => id⟩
  · intro g f hi
    exact ⟨hi.haunted.congr rfl rfl rfl, hi.pages, hi.pt, hi.ghost⟩
  · intro g rr hi
    exact ⟨hi.haunted.congr rfl rfl rfl, hi.pages, hi.pt, hi.ghost⟩
  · intro g page hpage hmark hi
    have hcmt : (g.ghostColdUnmark page).cmt =
        Function.update g.cmt page { g.cmt page with ghostMark := false, cntMap := false } := rfl
    refine ⟨hi.haunted.ghostColdUnmark hpage hmark, hi.pages, fun q => ?_, fun q hq => ?_⟩
    · rw [hcmt, ← hi.pt]
      by_cases hqp : q = page
      · rw [hqp, Function.update_self]
      · rw [Function.update_of_ne hqp]
    · apply hi.ghost
      unfold Mem.ghost at hq ⊢
      rw [hcmt] at hq
      by_cases hqp : q = page
      · rw [hqp, Function.update_self] at hq
        cases hq
      · rwa [Function.update_of_ne hqp] at hq

/-- An evicted page is marked and counted, behind making room. -/
theorem Haunted.evict (hh : m.Haunted) {page : Nat} (hpage : page < m.nrValidTpages)
    (hfresh : m.ghost page = false) : (m.evict page).Haunted := by
  have hpt : (m.setPage page { m.cmt page with pt := false }).Haunted := by
    apply hh.setPage hpage (c := { m.cmt page with pt := false })
    · intro hmark
      exact absurd (hfresh.symm.trans hmark) Bool.false_ne_true
    · rfl
    · rfl
    · rfl
  unfold Mem.evict ghostColdMark
  split
  · exact hpt
  · split
    · exact hpt
    · next hmark =>
      have hex := hpt.evictDownTo m.hot.env.ghostColdCap m.nrGhostCold
      -- Making room does not mark the page.
      have hgone : (((m.setPage page { m.cmt page with pt := false }).ghostColdEvictDownTo
          m.hot.env.ghostColdCap m.nrGhostCold).ghost page) = false := by
        apply Bool.eq_false_iff.mpr
        intro hno
        exact hmark (hex.ghost page hno)
      have hpt' : ((((m.setPage page { m.cmt page with pt := false }).ghostColdEvictDownTo
          m.hot.env.ghostColdCap m.nrGhostCold).cmt page).pt) = false := by
        rw [hex.pt]
        show (Function.update m.cmt page _ page).pt = false
        rw [Function.update_self]
      refine hex.haunted.setPage (hex.pages.symm ▸ hpage) (c := { Mem.cmt _ page with
        ghostMark := true, cntMap := false }) (fun _ => ⟨hpt', rfl⟩) ?_ ?_ ?_
      · rfl
      · rfl
      · rw [hgone]
        rfl

/-- A loaded page is counted out if it was marked. -/
theorem Haunted.load (hh : m.Haunted) {page : Nat} (hpage : page < m.nrValidTpages) :
    (m.load page).Haunted := by
  have hclear : (m.ghostColdClear page).Haunted ∧ (m.ghostColdClear page).ghost page = false ∧
      (m.ghostColdClear page).nrValidTpages = m.nrValidTpages := by
    unfold ghostColdClear
    split
    · next hmark =>
      have hmark' : m.ghost page = true := hmark
      -- The page is one of the counted, so the counter does not wrap.
      have hle := ghost_le_coldGhosts hpage
      have hcount := hh.count
      rw [hmark'] at hle
      have hone : true.toNat = 1 := rfl
      refine ⟨?_, ?_, rfl⟩
      · apply hh.setPage hpage (c := { m.cmt page with ghostMark := false })
        · intro hno
          cases hno
        · rfl
        · rfl
        · rw [hmark']
          show dec64 m.nrGhostCold + 1 = m.nrGhostCold + 0
          unfold dec64
          rw [if_neg (by omega)]
          omega
      · show (Function.update m.cmt page _ page).ghostMark = false
        rw [Function.update_self]
    · next hmark => exact ⟨hh, Bool.eq_false_iff.mpr hmark, rfl⟩
  obtain ⟨hc, hfresh, hpages⟩ := hclear
  apply hc.setPage (hpages.symm ▸ hpage)
    (c := { (m.ghostColdClear page).cmt page with pt := true, cntMap := true })
  · intro hmark
    exact absurd (hfresh.symm.trans hmark) Bool.false_ne_true
  · rfl
  · rfl
  · rfl

/-- A trim takes marks until they fit the cap. -/
theorem Haunted.ghostTrim (hh : m.Haunted) : m.ghostTrim.Haunted := by
  have hfifo : Haunted { m with coldFifo := .alloc m.hot.env.ghostColdCap } := hh.congr rfl rfl rfl
  have hex := hfifo.evictDownTo (m.hot.env.ghostColdCap + 1) m.nrGhostCold
  exact hex.haunted.congr rfl rfl rfl

/-- Every operation keeps the count. -/
theorem Haunted.next (hh : m.Haunted) {a : MemLabel} (hn : m.next a = some m') : m'.Haunted := by
  cases a with
  | promote =>
    cases hn
    exact hh.congr rfl rfl rfl
  | hit =>
    cases hn
    exact hh.congr rfl rfl rfl
  | verify i keyFp =>
    unfold Mem.next at hn
    dsimp only at hn
    split at hn
    · cases hn
      exact hh.congr rfl rfl rfl
    · cases hn
  | cacheKey i realKey =>
    unfold Mem.next at hn
    dsimp only at hn
    split at hn
    · cases hn
      exact hh.congr rfl rfl rfl
    · cases hn
  | expandHot =>
    obtain ⟨t, _, rfl⟩ := Option.map_eq_some_iff.mp hn
    cases t with
    | none => exact hh
    | some g => exact Haunted.ghostTrim (hh.congr rfl rfl rfl)
  | shrinkHot =>
    obtain ⟨t, _, rfl⟩ := Option.map_eq_some_iff.mp hn
    cases t with
    | none => exact hh
    | some g => exact Haunted.ghostTrim (hh.congr rfl rfl rfl)
  | expandKey =>
    obtain ⟨⟨done, env⟩, _, hrest⟩ := Option.bind_eq_some_iff.mp hn
    cases done with
    | false =>
      cases hrest
      exact hh
    | true =>
      cases hrest
      exact Haunted.ghostTrim (hh.congr rfl rfl rfl)
  | reset =>
    cases hn
    exact hh.congr rfl rfl rfl
  -- All marks are cleared, and the counter is set to zero.
  | prepare =>
    cases hn
    refine ⟨?_, fun page hmark => ?_⟩
    · show 0 = m.prepareForBenchmark.coldGhosts
      rw [coldGhosts_eq]
      symm
      apply weight_eq_zero
      intro page hpage
      have hpage' : page < m.nrValidTpages := hpage
      show (if page < m.nrValidTpages then _ else _ : ColdPage).ghostMark.toNat = 0
      rw [if_pos hpage']
      rfl
    · have hmark' : (if page < m.nrValidTpages then { m.cmt page with ghostMark := false }
          else m.cmt page : ColdPage).ghostMark = true := hmark
      show (if page < m.nrValidTpages then _ else _ : ColdPage).pt = false ∧
        (if page < m.nrValidTpages then _ else _ : ColdPage).cntMap = false
      split at hmark'
      · cases hmark'
      · next hpage =>
        rw [if_neg hpage]
        exact hh.absent page hmark'
  | evict page =>
    unfold Mem.next at hn
    dsimp only at hn
    split at hn
    · next hpage =>
      cases hn
      exact hh.evict hpage.1 (Bool.eq_false_iff.mpr hpage.2.2)
    · cases hn
  | load page =>
    unfold Mem.next at hn
    dsimp only at hn
    split at hn
    · next hpage =>
      cases hn
      exact hh.load hpage
    · cases hn

end Mem

/-- In every state `nr_ghost_cold` is the number of the marked pages, and a marked page has
    neither a table nor a heat map. So the counter never wraps. -/
theorem ghost_cold {env₀ : CacheEnv} {nrValidTpages : Nat} {m : Mem}
    (hr : (memMachine env₀ nrValidTpages).Reachable m) :
    m.nrGhostCold =
        ((Finset.range m.nrValidTpages).filter fun page => (m.cmt page).ghostMark).card ∧
      ∀ page, (m.cmt page).ghostMark = true →
        (m.cmt page).pt = false ∧ (m.cmt page).cntMap = false := by
  have hh : m.Haunted := by
    apply hr.invariant
    · intro s hs
      obtain ⟨env, _, rfl⟩ := hs
      refine ⟨?_, fun page hmark => ?_⟩
      · rw [Mem.coldGhosts_eq]
        symm
        apply weight_eq_zero
        intro _ _
        rfl
      · cases hmark
    · intro s s' a _ hh _ hn
      exact hh.next hn
  exact ⟨hh.count, hh.absent⟩

/-- Two pages are evicted, one of them comes back. -/
theorem ghost_cold_loaded : ∃ m, (memMachine smallEnv₀ 4).exec (.create smallEnv 4)
      [.load 1, .load 2, .evict 1, .evict 2, .load 1] = some m ∧
    m.nrGhostCold =
      ((Finset.range m.nrValidTpages).filter fun page => (m.cmt page).ghostMark).card := by
  have hrun : ((memMachine smallEnv₀ 4).exec (.create smallEnv 4)
      [.load 1, .load 2, .evict 1, .evict 2, .load 1]).isSome = true := by decide +kernel
  obtain ⟨m, hm⟩ := Option.isSome_iff_exists.mp hrun
  exact ⟨m, hm, (ghost_cold (small_reachable hm)).1⟩

/-! ## Section 2: Ghosts of keys -/

namespace HotTable

variable {h h' : HotTable} {total recent : Nat}

/-- The slot that a promotion writes a new entry to. -/
def promoteSlot (h : HotTable) (lpa coldCnt : Nat) : Option Nat :=
  let slots := h.probes lpa 50
  match h.findLpa slots lpa with
  | some _ => none
  | none =>
    match slots.find? fun i => (h.slots i).lpa.isNone with
    | some i => some i
    | none => (h.promoteVictim slots).filter fun i => (h.slots i).state ≤ coldCnt

/-- The key in slot `i` would become a ghost. -/
def givesGhost (h : HotTable) (i : Nat) : Bool :=
  h.env.verifyCache && h.env.ghostKeyCap != 0 && (h.slots i).realKey != []

/-- No slot is marked. One counter has all the ghosts that there ever were, the other those
    since it was last set to 0. -/
structure GhostsAre (total recent : Nat) (h : HotTable) : Prop where
  unmarked : ∀ i, (h.slots i).keyGhostMark = false
  live : h.ghostStateLive = total :: .replicate 5 0
  number : h.nrGhostKey = recent

theorem GhostsAre.keep (hg : GhostsAre total recent h)
    (hlive : h'.ghostStateLive = h.ghostStateLive)
    (hnr : h'.nrGhostKey = h.nrGhostKey) (hslots : ∀ i, (h'.slots i).keyGhostMark = false) :
    GhostsAre total recent h' := ⟨hslots, hlive.trans hg.live, hnr.trans hg.number⟩

/-- A slot that is written without a mark. -/
theorem unmarked_setSlot (hno : ∀ i, (h.slots i).keyGhostMark = false) (i : Nat) {e : HotSlot}
    (he : e.keyGhostMark = false) (j : Nat) : ((h.setSlot i e).slots j).keyGhostMark = false := by
  rw [slots_setSlot]
  split
  · exact he
  · exact hno j

/-- Without marks, the search for a ghost to evict finds none. -/
theorem evictDownTo_of_unmarked (hno : ∀ i, (h.slots i).keyGhostMark = false) (limit rounds : Nat) :
    h.ghostKeyEvictDownTo limit rounds = { h with
      keyFifo := (h.ghostKeyEvictDownTo limit rounds).keyFifo
      keyScanRr := (h.ghostKeyEvictDownTo limit rounds).keyScanRr } := by
  refine ghostKeyEvictDownTo_rule (I := fun g => g = { h with
    keyFifo := g.keyFifo, keyScanRr := g.keyScanRr }) ?_ ?_ ?_ limit rounds rfl
  · intro g f hg
    rw [hg]
  · intro g rr hg
    rw [hg]
  · intro g i hmark hg
    rw [hg] at hmark
    exact absurd ((hno i).symm.trans hmark) Bool.false_ne_true

/-- Without marked slots there is nothing to evict. -/
theorem GhostsAre.evictDownTo (hg : GhostsAre total recent h) (limit rounds : Nat) :
    GhostsAre total recent (h.ghostKeyEvictDownTo limit rounds) := by
  rw [evictDownTo_of_unmarked hg.unmarked]
  exact ⟨hg.unmarked, hg.live, hg.number⟩

theorem GhostsAre.ghostTrim (hg : GhostsAre total recent h) :
    GhostsAre total recent h.ghostTrim := by
  have hfifo : GhostsAre total recent { h with keyFifo := .alloc h.env.ghostKeyCap } :=
    ⟨hg.unmarked, hg.live, hg.number⟩
  exact hfifo.evictDownTo _ _

/-- A promotion marks the key that it displaces, and takes the mark off again: the counters
    are all that is left of the ghost. -/
theorem GhostsAre.promoteWrite (hg : GhostsAre total recent h) (i lpa : Nat) (ppa : Option Nat)
    (keyFp : UInt32) (coldCnt : Nat) :
    GhostsAre (total + (h.givesGhost i).toNat) (recent + (h.givesGhost i).toNat)
      (h.promoteWrite i lpa ppa keyFp coldCnt) := by
  -- The key is dropped: only slot `i` may be marked.
  have hdrop : (h.promoteDropKey i).ghostStateLive =
        (total + (h.givesGhost i).toNat) :: .replicate 5 0 ∧
      (h.promoteDropKey i).nrGhostKey = recent + (h.givesGhost i).toNat ∧
      ∀ j, j ≠ i → ((h.promoteDropKey i).slots j).keyGhostMark = false := by
    unfold promoteDropKey givesGhost
    by_cases hv : h.env.verifyCache = true
    · rw [if_pos hv, hv, Bool.true_and]
      dsimp only
      -- Nothing is displaced from a slot without a cached key.
      by_cases hkey : (h.slots i).realKey = []
      · rw [if_neg (not_not.mpr hkey), hkey, bne_self_eq_false, Bool.and_false]
        refine ⟨hg.live, hg.number, fun j hj => ?_⟩
        rw [slots_setSlot, if_neg hj]
        exact hg.unmarked j
      · rw [if_pos hkey, bne_iff_ne.mpr hkey, Bool.and_true]
        -- With a cap of zero the displaced key is not marked.
        by_cases hcap : h.env.ghostKeyCap = 0
        · rw [ghostKeyMark_of_not (Or.inl hcap), hcap, bne_self_eq_false]
          refine ⟨hg.live, hg.number, fun j hj => ?_⟩
          rw [slots_setSlot, if_neg hj]
          exact hg.unmarked j
        · have hmark : ¬(h.slots i).keyGhostMark = true := Bool.eq_false_iff.mp (hg.unmarked i)
          rw [bne_iff_ne.mpr hcap]
          unfold ghostKeyMark
          rw [if_neg hcap, if_neg hkey, if_neg hmark]
          have hdown := hg.evictDownTo h.env.ghostKeyCap h.nrGhostKey
          generalize h.ghostKeyEvictDownTo h.env.ghostKeyCap h.nrGhostKey = g at hdown
          refine ⟨?_, ?_, fun j hj => ?_⟩
          · show g.ghostStateLive.modify 0 (· + 1) = _
            rw [hdown.live]
            rfl
          · show g.nrGhostKey + 1 = _
            rw [hdown.number]
            rfl
          · rw [slots_setSlot, if_neg hj]
            show ((g.setSlot i _).slots j).keyGhostMark = false
            rw [slots_setSlot, if_neg hj]
            exact hdown.unmarked j
    · have hoff := Bool.eq_false_iff.mpr hv
      rw [if_neg hv, hoff]
      exact ⟨hg.live, hg.number, fun j _ => hg.unmarked j⟩
  obtain ⟨hlive, hnr, hothers⟩ := hdrop
  refine ⟨fun j => ?_, hlive, hnr⟩
  show (((h.promoteDropKey i).setSlot i _).slots j).keyGhostMark = false
  rw [slots_setSlot]
  split
  · rfl
  · next hj => exact hothers j hj

/-- A promotion counts the key that it displaces, if it displaces one. -/
theorem GhostsAre.placeGrain (hg : GhostsAre total recent h) (lpa : Nat) (ppa : Option Nat)
    (keyFp : UInt32) (coldCnt : Nat) :
    GhostsAre (total + ((h.promoteSlot lpa coldCnt).any h.givesGhost).toNat)
      (recent + ((h.promoteSlot lpa coldCnt).any h.givesGhost).toNat)
      (h.placeGrain lpa ppa keyFp coldCnt) := by
  cases hfind : h.findLpa (h.probes lpa 50) lpa with
  -- A match is refreshed and displaces nothing.
  | some i =>
    have hno : h.promoteSlot lpa coldCnt = none := by
      unfold promoteSlot
      dsimp only
      rw [hfind]
    have hp := placed_placeGrain h lpa ppa keyFp coldCnt
    rw [hno]
    generalize h.placeGrain lpa ppa keyFp coldCnt = r at hp ⊢
    cases hp with
    | refused => exact hg
    | @refreshed j r _ hrest hslot hothers _ =>
      apply hg.keep
      · rw [hrest]
      · rw [hrest]
      · intro k
        by_cases hk : k = j
        · rw [hk, hslot]
          rfl
        · rw [hothers k hk]
          exact hg.unmarked k
    | written _ hmiss _ =>
      rw [hfind] at hmiss
      cases hmiss
  | none =>
    unfold HotTable.placeGrain promoteSlot
    dsimp only
    rw [hfind]
    dsimp only
    cases hempty : (h.probes lpa 50).find? fun i => (h.slots i).lpa.isNone with
    | some i =>
      -- An empty slot is taken.
      have htaken : GhostsAre total recent { h with validEntries := h.validEntries + 1 } :=
        ⟨hg.unmarked, hg.live, hg.number⟩
      exact htaken.promoteWrite i lpa ppa keyFp coldCnt
    | none =>
      dsimp only
      cases hvictim : h.promoteVictim (h.probes lpa 50) with
      | some i =>
        dsimp only
        -- The victim is displaced unless it is hotter.
        by_cases hcnt : (h.slots i).state ≤ coldCnt
        · rw [if_neg (Nat.not_lt.mpr hcnt), Option.filter_some, if_pos (decide_eq_true hcnt)]
          have htaken : GhostsAre total recent
              { h with stateLive := histDec h.stateLive (h.slots i).state } :=
            ⟨hg.unmarked, hg.live, hg.number⟩
          exact htaken.promoteWrite i lpa ppa keyFp coldCnt
        · rw [if_pos (Nat.not_le.mp hcnt), Option.filter_some,
            if_neg (fun hle => hcnt (of_decide_eq_true hle))]
          exact hg
      | none => exact hg

/-- A raise leaves the ghosts alone. -/
theorem GhostsAre.stateRaise (hg : GhostsAre total recent h) (i : Nat) :
    GhostsAre total recent (h.stateRaise i) := by
  refine stateRaise_rule h i hg fun _ _ => ?_
  exact hg.keep rfl rfl (unmarked_setSlot hg.unmarked i (hg.unmarked i))

/-- A verification finds no ghost. -/
theorem ghostKeyOnFlashVerify_of_unmarked {i : Nat} (hno : (h.slots i).keyGhostMark = false)
    (keyFp : UInt32) : h.ghostKeyOnFlashVerify i keyFp = h := by
  unfold ghostKeyOnFlashVerify
  dsimp only
  rw [if_pos (Or.inl hno), ite_self]

/-- Nor does caching a key. -/
theorem GhostsAre.cacheKey (hg : GhostsAre total recent h) (i : Nat) (realKey : List UInt8) :
    GhostsAre total recent (h.cacheKey i realKey) := by
  unfold HotTable.cacheKey
  dsimp only
  split
  · exact hg.keep rfl rfl (unmarked_setSlot hg.unmarked i rfl)
  · exact hg

theorem uncount_of_unmarked {slot : HotSlot} (hno : slot.keyGhostMark = false) :
    (h.uncount slot).ghostStateLive = h.ghostStateLive ∧
    (h.uncount slot).nrGhostKey = h.nrGhostKey := by
  unfold uncount
  rw [hno]
  exact ⟨rfl, rfl⟩

theorem foldl_uncountHot_ghosts (slots : List HotSlot)
    (hno : ∀ slot ∈ slots, slot.keyGhostMark = false) (h : HotTable) :
    (slots.foldl uncountHot h).ghostStateLive = h.ghostStateLive := by
  induction slots generalizing h with
  | nil => rfl
  | cons slot slots ih =>
    rw [List.foldl_cons, ih (fun s hs => hno s (List.mem_cons_of_mem _ hs))]
    exact (uncount_of_unmarked (hno slot (List.mem_cons_self ..))).1

theorem Resizes.ghosts {g : HotTable} (hr : Resizes h g) (hg : GhostsAre total recent h) :
    (∀ i, (g.slots i).keyGhostMark = false) ∧ g.ghostStateLive = total :: .replicate 5 0 := by
  refine ⟨fun i => ?_, ?_⟩
  · rw [hr.slots]
    split
    · rfl
    · exact hg.unmarked i
  · cases hr with
    | @cleared env lo n _ _ _ =>
      show (List.foldl uncountHot { h with env := env } _).ghostStateLive = _
      rw [foldl_uncountHot_ghosts, ← hg.live]
      intro slot hslot
      obtain ⟨i, _, rfl⟩ := List.mem_map.mp hslot
      exact hg.unmarked i

/-- A rehash forgets the ghosts that have been counted, but not their histogram. -/
theorem ghosts_rehash (hs : h.env.Sized) (hno : ∀ i, (h.slots i).keyGhostMark = false)
    (hlive : h.ghostStateLive = total :: .replicate 5 0) : GhostsAre total 0 h.rehash := by
  have hrule := complete_rule (P := fun _ _ => True)
    (C := fun g => GhostsAre total 0 g ∧ g.ghosts = 0 ∧ ∀ e ∈ g.saved, e.keyGhostMark = false)
    (D := fun g => GhostsAre total 0 g ∧ g.ghosts = 0 ∧ ∀ e ∈ g.saved, e.keyGhostMark = false) hs
    (insertsOk_true _ _) ⟨⟨hno, hlive, rfl⟩, rfl, fun e he => by cases he⟩ ?_ ?_ ?_
  · obtain ⟨g, hg, -, -, hd⟩ := hrule
    rw [hg]
    exact ⟨hd.1.unmarked, hd.1.live, hd.2.1⟩
  · intro g _ _ _ hC
    obtain ⟨hg, hghosts, hsaved⟩ := hC
    have hun := uncount_of_unmarked (h := g) (hg.unmarked g.scan)
    have hcleared := unmarked_setSlot (h := g.uncount (g.slots g.scan)) hg.unmarked g.scan
      (e := (g.slots g.scan).cleared) rfl
    -- An empty slot, a saved one and a dropped one.
    refine collectSlot_rule g ?_ ?_ ?_
    · intro _
      exact ⟨⟨hg.unmarked, hg.live, hg.number⟩, hghosts, hsaved⟩
    · intro _ _
      refine ⟨hg.keep hun.1 hun.2 hcleared, hghosts, fun e he => ?_⟩
      rcases List.mem_append.mp he with he | he
      · exact hsaved e he
      · rw [List.mem_singleton.mp he]
        exact hg.unmarked g.scan
    · intro _ _
      exact ⟨hg.keep hun.1 hun.2 hcleared, hghosts, hsaved⟩
  · intro g _ _ hC
    exact ⟨⟨hC.1.unmarked, hC.1.live, hC.1.number⟩, hC.2⟩
  · intro g e lpa i _ ht _ hD
    obtain ⟨hg, hghosts, hsaved⟩ := hD
    have he := hsaved e (List.mem_of_getElem? ht.next)
    refine ⟨hg.keep rfl rfl ?_, ?_, hsaved⟩
    · exact unmarked_setSlot hg.unmarked i he
    · show (if e.keyGhostMark then _ else _) = _
      rw [he]
      exact hghosts

end HotTable

/-! ## Section 3: Runs -/

namespace Mem

open HotTable

/-- A promotion that displaces a cached key while key ghosts are on. -/
def givesGhost (m : Mem) : MemLabel → Bool
  | .promote lpa _ _ coldCnt => (m.hot.promoteSlot lpa coldCnt).any m.hot.givesGhost
  | _ => false

/-- `nr_ghost_key` is set to 0. -/
def forgets (m : Mem) : MemLabel → Bool
  | .reset => true
  | .prepare => true
  | a => (m.rehashes a).isSome

/-- How many ghosts there have been, and how many since the counter was last set to 0. -/
def recordGhosts (m : Mem) (ghosts : Nat × Nat) (a : MemLabel) : Nat × Nat :=
  (ghosts.1 + (m.givesGhost a).toNat,
    if m.forgets a then 0 else ghosts.2 + (m.givesGhost a).toNat)

theorem recordGhosts_idle {m : Mem} {a : MemLabel} (ha : idles a = true) (hno : m.rehashes a = none)
    (ghosts : Nat × Nat) : m.recordGhosts ghosts a = ghosts := by
  cases a with
  | hit => rfl
  | expandKey => rfl
  | evict => rfl
  | load => rfl
  | expandHot =>
    have hkeeps : m.forgets .expandHot = false := Option.isSome_eq_false_iff.mpr (by rw [hno]; rfl)
    unfold recordGhosts
    rw [hkeeps]
    rfl
  | shrinkHot =>
    have hkeeps : m.forgets .shrinkHot = false := Option.isSome_eq_false_iff.mpr (by rw [hno]; rfl)
    unfold recordGhosts
    rw [hkeeps]
    rfl
  | promote => cases ha
  | verify => cases ha
  | cacheKey => cases ha
  | reset => cases ha
  | prepare => cases ha

/-- A rehash forgets the recent ones. -/
theorem recordGhosts_rehash {m : Mem} {a : MemLabel} {g : HotTable} (hg : m.rehashes a = some g)
    (ghosts : Nat × Nat) : m.recordGhosts ghosts a = (ghosts.1, 0) := by
  cases a with
  | expandHot =>
    have hforgets : m.forgets .expandHot = true := Option.isSome_iff_exists.mpr ⟨g, hg⟩
    unfold recordGhosts
    rw [hforgets]
    rfl
  | shrinkHot =>
    have hforgets : m.forgets .shrinkHot = true := Option.isSome_iff_exists.mpr ⟨g, hg⟩
    unfold recordGhosts
    rw [hforgets]
    rfl
  | promote => cases hg
  | hit => cases hg
  | verify => cases hg
  | cacheKey => cases hg
  | expandKey => cases hg
  | reset => cases hg
  | prepare => cases hg
  | evict => cases hg
  | load => cases hg

/-- A step of the hot table counts what the history says. -/
theorem ghostsAre_step {m : Mem} {a : MemLabel} {h : HotTable} {ghosts : Nat × Nat}
    (hg : GhostsAre ghosts.1 ghosts.2 m.hot) (ha : m.HotStep a h) :
    GhostsAre (m.recordGhosts ghosts a).1 (m.recordGhosts ghosts a).2 h := by
  cases ha with
  | same hidle hno =>
    rw [recordGhosts_idle hidle hno]
    exact hg
  | promote => exact hg.placeGrain ..
  | raise => exact hg.stateRaise _
  | verify =>
    rw [ghostKeyOnFlashVerify_of_unmarked (hg.unmarked _)]
    exact hg
  | cacheKey => exact hg.cacheKey ..
  -- The rehash starts with the counters of the resized table.
  | @rehash a g hre hres =>
    rw [recordGhosts_rehash hre]
    obtain ⟨hno, hlive⟩ := hres.ghosts hg
    exact (ghosts_rehash hres.sized hno hlive).ghostTrim
  | @expandKey env _ =>
    have henv : GhostsAre ghosts.1 ghosts.2 { m.hot with env := env } :=
      ⟨hg.unmarked, hg.live, hg.number⟩
    exact henv.ghostTrim
  | reset =>
    refine ⟨fun i => ?_, hg.live, rfl⟩
    show (if i < m.hot.active then _ else _ : HotSlot).keyGhostMark = false
    split
    · rfl
    · exact hg.unmarked i
  | prepare => exact ⟨hg.unmarked, hg.live, rfl⟩

theorem recent_le_total {m : Mem} {ghosts : Nat × Nat} (hle : ghosts.2 ≤ ghosts.1) (a : MemLabel) :
    (m.recordGhosts ghosts a).2 ≤ (m.recordGhosts ghosts a).1 := by
  unfold recordGhosts
  dsimp only
  split
  · exact Nat.zero_le _
  · exact Nat.add_le_add_right hle _

end Mem

namespace HotTable

/-- The marked slots of the active pages that meet `p`. -/
def keyGhosts (h : HotTable) (p : HotSlot → Bool) : Nat :=
  ((Finset.range h.active).filter fun i => (h.slots i).keyGhostMark && p (h.slots i)).card

/-- The counters of key ghosts are right. -/
def KeyGhostsCounted (h : HotTable) : Prop :=
  h.nrGhostKey = h.keyGhosts (fun _ => true) ∧
    h.ghostStateLive = (List.range 6).map fun s => h.keyGhosts fun slot => slot.keyGhostState == s

/-- The counters are right while nothing has been counted. -/
theorem keyGhostsCounted_iff {h : HotTable} {total recent : Nat} (hg : GhostsAre total recent h)
    (hle : recent ≤ total) : h.KeyGhostsCounted ↔ total = 0 := by
  have hnone : ∀ p, h.keyGhosts p = 0 := by
    intro p
    apply Finset.card_eq_zero.mpr
    apply Finset.filter_eq_empty_iff.mpr
    intro i _
    rw [hg.unmarked i, Bool.false_and]
    exact Bool.false_ne_true
  unfold KeyGhostsCounted
  rw [hnone, hg.number, hg.live]
  refine ⟨fun hcount => ?_, fun hzero => ⟨by omega, ?_⟩⟩
  · have hhead := congrArg List.head? hcount.2
    exact (Option.some.inj hhead).trans (hnone _)
  · have hzeros : (fun s => h.keyGhosts fun slot => slot.keyGhostState == s) = fun _ => 0 :=
      funext fun s => hnone _
    rw [hzero, hzeros]
    rfl

end HotTable

/-- Key ghosts are counted but never there: a promotion takes the mark of the slot off right
    after it has been set, so no slot is ever marked and no verification ever finds a ghost.
    What the counters have is the promotions that displaced a key while `ghost_key_cap` is
    not 0, and they are right as long as there has been none. -/
theorem ghost_keys {verifyCache : Bool} {cold hot key nrValidTpages : Nat} {env₀ : CacheEnv}
    {m : Mem} {ghosts : Nat × Nat} (hinit : cacheEnvInit verifyCache cold hot key = some env₀)
    (hpos : 0 < hot) (hsize : cold + hot < 2147483648)
    (hr : ((memMachine env₀ nrValidTpages).withHistory (0, 0) Mem.recordGhosts).Reachable
      (m, ghosts)) :
    (∀ i, (m.hot.slots i).keyGhostMark = false) ∧
      (∀ i keyFp, m.hot.ghostKeyOnFlashVerify i keyFp = m.hot) ∧
      m.hot.ghostStateLive = [ghosts.1, 0, 0, 0, 0, 0] ∧ m.hot.nrGhostKey = ghosts.2 ∧
      (m.hot.KeyGhostsCounted ↔ ghosts.1 = 0) := by
  have hsized : ∀ env, env₀.updateCaps = some env → env.Sized := fun env henv =>
    (CacheEnv.sized_of_init hinit henv hpos hsize).1
  -- The pair of counters is carried along with the machine.
  have hg : ∀ {x},
      ((memMachine env₀ nrValidTpages).withHistory (0, 0) Mem.recordGhosts).Reachable x →
      HotTable.GhostsAre x.2.1 x.2.2 x.1.hot ∧ x.2.2 ≤ x.2.1 := by
    intro x hr
    apply hr.invariant
    · intro s hs
      obtain ⟨⟨env, _, hcreate⟩, hzero⟩ := hs
      rw [hcreate, hzero]
      exact ⟨⟨fun _ => rfl, rfl, rfl⟩, Nat.le_refl 0⟩
    · intro s s' a hr hg _ hn
      obtain ⟨m', hm', rfl⟩ := Option.map_eq_some_iff.mp hn
      have hr' : (memMachine env₀ nrValidTpages).Reachable s.1 := Machine.withHistory_reach hr
      have hs := Mem.reach_settled hsized hr'
      exact ⟨Mem.ghostsAre_step hg.1 (Mem.hotStep hs hm'), Mem.recent_le_total hg.2 a⟩
  obtain ⟨hghosts, hle⟩ := hg hr
  refine ⟨hghosts.unmarked, fun i keyFp => ?_, hghosts.live, hghosts.number, ?_⟩
  · exact HotTable.ghostKeyOnFlashVerify_of_unmarked (hghosts.unmarked i) keyFp
  · exact HotTable.keyGhostsCounted_iff hghosts hle

/-- The slots that are probed for lpa 5 are filled, and slot 5 gets a key, before another
    lpa of the same probes displaces it. -/
def displacing : List MemLabel :=
  .promote 5 (some 5) 1 1 :: .cacheKey 5 [7, 7] ::
    (((HotTable.create smallEnv).probes 5 50).tail.map fun slot => .promote slot (some slot) 1 2) ++
      [.promote 1029 (some 9) 1 3]

/-- One key is displaced, and its ghost is counted though no slot is marked. -/
theorem ghost_keys_displaced : ∃ m, ((memMachine smallEnv₀ 4).withHistory (0, 0)
      Mem.recordGhosts).exec (.create smallEnv 4, (0, 0)) displacing = some (m, (1, 1)) ∧
    (∀ i, (m.hot.slots i).keyGhostMark = false) ∧ ¬m.hot.KeyGhostsCounted := by
  have hrun : (((memMachine smallEnv₀ 4).withHistory (0, 0) Mem.recordGhosts).exec
      (.create smallEnv 4, (0, 0)) displacing).map Prod.snd = some (1, 1) := by decide +kernel
  obtain ⟨⟨m, ghosts⟩, hm, rfl⟩ := Option.map_eq_some_iff.mp hrun
  have hinit : ((memMachine smallEnv₀ 4).withHistory (0, 0) Mem.recordGhosts).Reachable
      (.create smallEnv 4, (0, 0)) := .init ⟨⟨smallEnv, smallEnv_caps, rfl⟩, rfl⟩
  obtain ⟨hno, _, _, _, hiff⟩ := ghost_keys smallEnv₀_init (by decide) (by decide) (hinit.exec hm)
  exact ⟨m, hm, hno, fun hcounted => absurd (hiff.mp hcounted) Nat.one_ne_zero⟩

end AggreKV.HashKv
