import AggreKV.HashKv.HotCmt
import AggreKV.HashKv.LruList
import Mathlib.Algebra.BigOperators.Group.Finset.Piecewise
import Mathlib.Algebra.Order.BigOperators.Group.Finset

/-! # The heat of cold translation pages

    `HOT_CMT` and `ADAPTIVE_MEM`: the access counts of the grains of a
    resident page, their sum, and the flag that the promotion scan reads.

    * `HeatPage`: the fields of `cmt_struct` that the functions of `demand.h`
      keep.
    * `HeatCache`: the pages, the mapping table and the LRU list. Which ghosts
      the FIFO unmarks, whether the hot table is accessible and what a
      rebalance makes of the limits is up to the label.
    * `HeatPage.Kept`: the invariant, a lemma for each function.
    * `heat_bookkeeping`: all runs, and the promotion scan in them. -/

namespace AggreKV.HashKv

open Finset

/-! ## Section 1: One page -/

/-- The heat of a `cmt_struct`. `cntMap` is `none` when it is freed; `lruPtr` says whether the
    pointer is set. -/
structure HeatPage where
  pt : Bool
  cntMap : Option (Nat → Nat)
  pageHeatSum : Nat
  hasHotEntry : Bool
  ghostMark : Bool
  lruPtr : Bool

namespace HeatPage

/-- `cmt_is_resident`. -/
def isResident (c : HeatPage) : Bool := c.pt && !c.ghostMark

/-- `cmt_grain_heat_raise`, with its return value. -/
def grainHeatRaise (c : HeatPage) (i : Nat) : Nat × HeatPage :=
  match c.cntMap with
  | some cnt =>
    if c.pt ∧ i < 512 then
      let next := heatRaise (cnt i)
      (next, { c with
        cntMap := some (Function.update cnt i next)
        pageHeatSum := if cnt i < next then (c.pageHeatSum + (next - cnt i)) % 4294967296
          else c.pageHeatSum
        hasHotEntry := true })
    else (0, c)
  | none => (0, c)

/-- `cmt_grain_heat_clear`. -/
def grainHeatClear (c : HeatPage) (i : Nat) : HeatPage :=
  match c.cntMap with
  | some cnt =>
    if c.pt ∧ i < 512 then
      if cnt i = 0 then c
      else
        { c with
          cntMap := some (Function.update cnt i 0)
          pageHeatSum := if cnt i ≤ c.pageHeatSum then c.pageHeatSum - cnt i else 0 }
    else c
  | none => c

/-- `cmt_update_hot_entry_flag`, over the mappings of the page. -/
def updateHotEntryFlag (c : HeatPage) (ppa : Nat → Option Nat) : HeatPage :=
  match c.cntMap with
  | some cnt =>
    if c.pt then
      { c with hasHotEntry := (List.range 512).any fun i => (ppa i).isSome && decide (2 ≤ cnt i) }
    else c
  | none => c

/-- `cmt_page_heat_clear`. -/
def pageHeatClear (c : HeatPage) : HeatPage :=
  { c with pageHeatSum := 0, cntMap := c.cntMap.map fun _ _ => 0 }

/-- `cmt_cold_tail_evict_teardown`. -/
def coldTailEvictTeardown (c : HeatPage) : HeatPage := { c with pageHeatSum := 0 }

/-- `cmt_cold_resident_meta_init`. -/
def coldResidentMetaInit (c : HeatPage) : HeatPage :=
  { c with pageHeatSum := 0, hasHotEntry := false }

/-- What `ghost_cold_unmark` does to a page. -/
def ghostColdUnmark (c : HeatPage) : HeatPage :=
  { c with ghostMark := false, pageHeatSum := 0, cntMap := none }

/-- What `adaptive_ghost_cold_mark` does to a page. -/
def ghostColdMark (c : HeatPage) : HeatPage :=
  { c with ghostMark := true, pageHeatSum := 0, cntMap := none }

/-- How `dftl_cache_list_up` makes a page resident, its LRU pointer apart: a new map is
    zeroed, and so is an old one. -/
def load (c : HeatPage) : HeatPage :=
  { c with ghostMark := false, pt := true, cntMap := some fun _ => 0 }.coldResidentMetaInit

end HeatPage

/-! ## Section 2: The cache -/

structure HeatCache where
  cmt : Nat → HeatPage
  /-- `mem_table`: the `ppa` of an entry of a page, `none` for `UINT32_MAX`. -/
  memTable : Nat → Nat → Option Nat
  /-- The pages of the LRU list, most recent first. -/
  lru : List Nat
  nrValidTpages : Nat
  nrCachedTpages : Nat
  maxCachedTpages : Nat
  ghostColdCap : Nat
  /-- The static counter of `dftl_cache_list_up`. -/
  popCount : Nat

namespace HeatCache

def setCmt (s : HeatCache) (page : Nat) (c : HeatPage) : HeatCache :=
  { s with cmt := Function.update s.cmt page c }

/-- `dftl_cache_cold_grain_access`; the statistics are left out. -/
def coldGrainAccess (s : HeatCache) (lpa : Nat) : HeatCache :=
  if (s.cmt (lpa / 512)).isResident then
    s.setCmt (lpa / 512) ((s.cmt (lpa / 512)).grainHeatRaise (lpa % 512)).2
  else s

/-- `dftl_cache_promote_hot`, what it does to the page; `accessible` is
    `hot_cmt_accessible`. -/
def promoteHot (s : HeatCache) (accessible : Bool) (victim : Nat) : HeatCache :=
  if !accessible then s.setCmt victim (s.cmt victim).pageHeatClear
  else if (s.cmt victim).ghostMark || !(s.cmt victim).pt || (s.cmt victim).cntMap.isNone then s
  else if (List.range 512).all fun i => (s.memTable victim i).isNone then
    s.setCmt victim (s.cmt victim).pageHeatClear
  else s.setCmt victim ((s.cmt victim).pageHeatClear.updateHotEntryFlag (s.memTable victim))

/-- The loop of `lru_pick_promote_hot_pages` over the window. -/
def pickLoop (s : HeatCache) (targetK : Nat) : List Nat → List Nat → List Nat
  | [], out => out
  | current :: rest, out =>
    if targetK ≤ out.length then out
    else if (s.cmt current).hasHotEntry && !(s.cmt current).ghostMark then
      s.pickLoop targetK rest (out ++ [current])
    else s.pickLoop targetK rest out

/-- `lru_pick_promote_hot_pages`; `LRU_PROMOTE_MAX_K` is 100. -/
def pickPromoteHotPages (s : HeatCache) (targetK : Nat) : List Nat :=
  if s.lru = [] then []
  else if targetK = 0 ∨ 100 < targetK then []
  else s.pickLoop targetK (s.lru.take (Lru.topWindow s.lru.length)) []

def promoteCandidate (accessible : Nat → Bool) (s : HeatCache) (page : Nat) : HeatCache :=
  if (s.cmt page).pt && (s.cmt page).cntMap.isSome && !(s.cmt page).ghostMark then
    s.promoteHot (accessible page) page
  else s

/-- The promotions of every thousandth eviction. -/
def promotePicked (s : HeatCache) (accessible : Nat → Bool) : HeatCache :=
  if s.popCount % 1000 = 0 then (s.pickPromoteHotPages 50).foldl (promoteCandidate accessible) s
  else s

/-- The victim loop of `dftl_cache_list_up`. -/
def popVictim (s : HeatCache) (accessible : Nat → Nat → Bool) : Nat → Option (Nat × HeatCache)
  | 0 => none
  | guard + 1 =>
    let s := s.promotePicked (accessible guard)
    match s.lru.getLast? with
    | none => none
    | some victim =>
      let s := { s with lru := s.lru.dropLast }.setCmt victim
        { s.cmt victim with lruPtr := false }
      if (s.cmt victim).ghostMark || !(s.cmt victim).pt then s.popVictim accessible guard
      else some (victim, s)

/-- A ghost loses its mark. -/
def ghostColdUnmark (s : HeatCache) (page : Nat) : HeatCache :=
  if (s.cmt page).ghostMark then s.setCmt page (s.cmt page).ghostColdUnmark else s

/-- The ghosts among `pages` lose their marks. -/
def unmark (s : HeatCache) (pages : List Nat) : HeatCache := pages.foldl ghostColdUnmark s

/-- `adaptive_ghost_cold_mark`; the ghosts `unmarked` make room. -/
def ghostColdMark (s : HeatCache) (page : Nat) (unmarked : List Nat) : HeatCache :=
  if s.ghostColdCap = 0 then s
  else if (s.cmt page).ghostMark then s
  else
    let s := s.unmark unmarked
    s.setCmt page (s.cmt page).ghostColdMark

end HeatCache

/-- What else decides how `dftl_cache_list_up` goes on. -/
structure ListUpChoice where
  /-- `hot_cmt_accessible` at the promotion of a page in a round of the victim loop. -/
  accessible : Nat → Nat → Bool
  unmarked : List Nat
  /-- The new limits after a rebalance, and the ghosts that it unmarks. -/
  rebalance : Option (Nat × Nat × List Nat)

namespace HeatCache

/-- The victim leaves the cache; writing a dirty page back is left out. -/
def unload (s : HeatCache) (victim : Nat) : HeatCache :=
  { s.setCmt victim { (s.cmt victim).coldTailEvictTeardown with pt := false } with
    nrCachedTpages := s.nrCachedTpages - 1 }

/-- `adaptive_try_rebalance`, as far as it concerns the cold cache. -/
def rebalance (s : HeatCache) : Option (Nat × Nat × List Nat) → HeatCache
  | some (cold, cap, unmarked) =>
    { s with maxCachedTpages := cold, ghostColdCap := cap }.unmark unmarked
  | none => s

/-- The eviction of `dftl_cache_list_up`. -/
def evict (s : HeatCache) (choice : ListUpChoice) : Option HeatCache :=
  ({ s with popCount := s.popCount + 1 }.popVictim choice.accessible
    (s.maxCachedTpages + 64)).map fun (p : Nat × HeatCache) =>
    ((p.2.unload p.1).ghostColdMark p.1 choice.unmarked).rebalance choice.rebalance

/-- The end of `dftl_cache_list_up`. -/
def load (s : HeatCache) (page : Nat) : HeatCache :=
  { s.setCmt page { (s.cmt page).load with lruPtr := true } with
    lru := if (s.cmt page).lruPtr then page :: s.lru.erase page else page :: s.lru
    nrCachedTpages := s.nrCachedTpages + 1 }

/-- `dftl_cache_list_up`. -/
def listUp (s : HeatCache) (page : Nat) (choice : ListUpChoice) : Option HeatCache :=
  (if s.maxCachedTpages ≤ s.nrCachedTpages then s.evict choice else some s).map (·.load page)

/-- `adaptive_prepare_for_benchmark`. -/
def prepareForBenchmark (s : HeatCache) : HeatCache :=
  { s with cmt := fun page =>
      if page < s.nrValidTpages ∧ (s.cmt page).ghostMark then
        { s.cmt page with ghostMark := false, pageHeatSum := 0 }
      else s.cmt page }

end HeatCache

inductive HeatLabel where
  /-- A hit, on the page or in the hot table. -/
  | access (lpa : Nat)
  /-- `cold_cnt_record_grain`. -/
  | record (page i : Nat)
  /-- `cmt_grain_heat_clear`. -/
  | clear (page i : Nat)
  | promote (accessible : Bool) (page : Nat)
  /-- A ghost loses its mark. -/
  | unmark (page : Nat)
  | listUp (page : Nat) (choice : ListUpChoice)
  | prepare
  /-- An entry of the mapping table is written. -/
  | map (page i : Nat) (ppa : Option Nat)

def HeatCache.next (s : HeatCache) : HeatLabel → Option HeatCache
  | .access lpa => some (s.coldGrainAccess lpa)
  | .record page i => some (s.setCmt page ((s.cmt page).grainHeatRaise i).2)
  | .clear page i => some (s.setCmt page ((s.cmt page).grainHeatClear i))
  | .promote accessible page => some (s.promoteHot accessible page)
  | .unmark page => some (s.unmark [page])
  | .listUp page choice => s.listUp page choice
  | .prepare => some s.prepareForBenchmark
  | .map page i ppa => some { s with
      memTable := Function.update s.memTable page (Function.update (s.memTable page) i ppa) }

/-- The cache after `cache_member_init`. -/
def HeatCache.create (nrValidTpages maxCachedTpages ghostColdCap : Nat) : HeatCache where
  cmt := fun _ => ⟨false, none, 0, false, false, false⟩
  memTable := fun _ _ => none
  lru := []
  nrValidTpages := nrValidTpages
  nrCachedTpages := 0
  maxCachedTpages := maxCachedTpages
  ghostColdCap := ghostColdCap
  popCount := 0

def heatMachine : Machine HeatCache HeatLabel where
  init s := ∃ valid cold cap, s = .create valid cold cap
  next := HeatCache.next

/-- `cold_cnt_promotable`. -/
def coldCntPromotable (cnt : Nat) : Bool := 1 ≤ cnt

/-- A resident page with a grain that a promotion would put into the hot table. -/
def HeatCache.HasPromotable (s : HeatCache) (page : Nat) : Prop :=
  (s.cmt page).isResident = true ∧ ∃ cnt, (s.cmt page).cntMap = some cnt ∧
    ∃ i < 512, (s.memTable page i).isSome = true ∧ coldCntPromotable (cnt i) = true

/-! ## Section 3: The invariant -/

/-- Sum, counts and flag of a page that has its mapping table. -/
structure HeatPage.Heated (c : HeatPage) (cnt : Nat → Nat) : Prop where
  cntMap : c.cntMap = some cnt
  sum : c.pageHeatSum = ∑ i ∈ range 512, cnt i
  le : ∀ i < 512, cnt i ≤ 5
  flag : ∀ i < 512, cnt i ≠ 0 → c.hasHotEntry = true

structure HeatPage.Kept (c : HeatPage) : Prop where
  heated : c.pt = true → ∃ cnt, c.Heated cnt
  ghost : c.ghostMark = true → c.pt = false

/-- One count of a page changes. -/
theorem sum_update (cnt : Nat → Nat) {i : Nat} (hi : i < 512) (v : Nat) :
    ∑ j ∈ range 512, Function.update cnt i v j + cnt i = ∑ j ∈ range 512, cnt j + v := by
  have hmem : i ∈ range 512 := mem_range.mpr hi
  have hrest := Finset.sum_erase_add (range 512) cnt hmem
  rw [sum_update_of_mem hmem, Finset.sdiff_singleton_eq_erase]
  omega

/-- 512 counts of at most 5. -/
theorem HeatPage.Heated.sum_le {c : HeatPage} {cnt : Nat → Nat} (h : c.Heated cnt) :
    c.pageHeatSum ≤ 2560 := by
  rw [h.sum]
  calc ∑ i ∈ range 512, cnt i ≤ ∑ i ∈ range 512, 5 :=
    sum_le_sum fun i hi => h.le i (mem_range.mp hi)
    _ = 2560 := by rw [sum_const, card_range]; rfl

/-- A count stops at 5. -/
theorem heatRaise_le {n : Nat} (h : n ≤ 5) : heatRaise n ≤ 5 := by
  unfold heatRaise
  split <;> omega

/-- A raise keeps sum, counts and flag in step. -/
theorem HeatPage.Kept.grainHeatRaise {c : HeatPage} (h : c.Kept) (i : Nat) :
    (c.grainHeatRaise i).2.Kept := by
  unfold HeatPage.grainHeatRaise
  cases hmap : c.cntMap with
  | none => exact h
  | some cnt =>
    by_cases hpt : c.pt = true ∧ i < 512
    · simp only [if_pos hpt]
      refine ⟨fun _ => ⟨_, rfl, ?_, fun j hj => ?_, fun _ _ _ => rfl⟩, h.ghost⟩
      all_goals
        obtain ⟨cnt', hheated⟩ := h.heated hpt.1
        obtain rfl : cnt = cnt' := Option.some.inj (hmap.symm.trans hheated.cntMap)
      · have hsum := sum_update cnt hpt.2 (heatRaise (cnt i))
        have hle := hheated.sum_le
        have hold := hheated.sum
        show (if cnt i < heatRaise (cnt i) then (c.pageHeatSum + (heatRaise (cnt i) - cnt i)) %
          4294967296 else c.pageHeatSum) = _
        unfold heatRaise at hsum ⊢
        -- The sum grows with the count, which stops at 5.
        by_cases hfive : cnt i < 5
        · rw [if_pos hfive] at hsum ⊢
          rw [if_pos (Nat.lt_succ_self _), Nat.add_sub_cancel_left, Nat.mod_eq_of_lt (by omega)]
          omega
        · rw [if_neg hfive] at hsum ⊢
          rw [if_neg (Nat.lt_irrefl _)]
          omega
      · by_cases hj' : j = i
        · rw [hj', Function.update_self]
          exact heatRaise_le (hheated.le i hpt.2)
        · rw [Function.update_of_ne hj']
          exact hheated.le j hj
    · simp only [if_neg hpt]
      exact h

/-- And so does a clear of one count. -/
theorem HeatPage.Kept.grainHeatClear {c : HeatPage} (h : c.Kept) (i : Nat) :
    (c.grainHeatClear i).Kept := by
  unfold HeatPage.grainHeatClear
  cases hmap : c.cntMap with
  | none => exact h
  | some cnt =>
    by_cases hpt : c.pt = true ∧ i < 512
    · simp only [if_pos hpt]
      by_cases hzero : cnt i = 0
      · rw [if_pos hzero]
        exact h
      · rw [if_neg hzero]
        obtain ⟨cnt', hheated⟩ := h.heated hpt.1
        obtain rfl : cnt = cnt' := Option.some.inj (hmap.symm.trans hheated.cntMap)
        have hsum := sum_update cnt hpt.2 0
        have hold := hheated.sum
        refine ⟨fun _ => ⟨_, rfl, ?_, fun j hj => ?_, fun j hj hne => ?_⟩, h.ghost⟩
        · show (if cnt i ≤ c.pageHeatSum then c.pageHeatSum - cnt i else 0) = _
          rw [if_pos (by omega)]
          omega
        -- The counts that are left are as they were.
        · by_cases hj' : j = i
          · rw [hj', Function.update_self]
            omega
          · rw [Function.update_of_ne hj']
            exact hheated.le j hj
        · by_cases hj' : j = i
          · rw [hj', Function.update_self] at hne
            exact absurd rfl hne
          · rw [Function.update_of_ne hj'] at hne
            exact hheated.flag j hj hne
    · simp only [if_neg hpt]
      exact h

/-- And so does a clear of all of them. -/
theorem HeatPage.Kept.pageHeatClear {c : HeatPage} (h : c.Kept) : c.pageHeatClear.Kept := by
  refine ⟨fun hpt => ?_, h.ghost⟩
  obtain ⟨cnt, hheated⟩ := h.heated hpt
  refine ⟨fun _ => 0, ?_, ?_, fun _ _ => Nat.zero_le _, fun _ _ hne => absurd rfl hne⟩
  · show c.cntMap.map _ = _
    rw [hheated.cntMap]
    rfl
  · exact sum_const_zero.symm

/-- The flag is only rescanned when all counts are cleared, so the threshold of the scan does
    not matter. -/
theorem HeatPage.Kept.clearAndUpdate {c : HeatPage} (h : c.Kept) (ppa : Nat → Option Nat) :
    (c.pageHeatClear.updateHotEntryFlag ppa).Kept := by
  have hclear := h.pageHeatClear
  unfold HeatPage.updateHotEntryFlag
  cases hmap : c.cntMap with
  | none =>
    have hnone : c.pageHeatClear.cntMap = none := by
      show c.cntMap.map _ = none
      rw [hmap]
      rfl
    rw [hnone]
    exact hclear
  | some cnt =>
    have hsome : c.pageHeatClear.cntMap = some fun _ => 0 := by
      show c.cntMap.map _ = _
      rw [hmap]
      rfl
    rw [hsome]
    -- All counters are zero, and so is their sum.
    by_cases hpt : c.pt = true
    · show HeatPage.Kept (if c.pt = true then _ else _)
      rw [if_pos hpt]
      exact ⟨fun _ => ⟨fun _ => 0, rfl, sum_const_zero.symm, fun _ _ => Nat.zero_le _,
        fun _ _ hne => absurd rfl hne⟩, h.ghost⟩
    · show HeatPage.Kept (if c.pt = true then _ else _)
      rw [if_neg hpt]
      exact hclear

theorem HeatPage.kept_of_not_pt {c : HeatPage} (h : c.pt = false) : c.Kept :=
  ⟨fun hpt => absurd (hpt.symm.trans h) (by decide), fun _ => h⟩

/-- A loaded page has no heat. -/
theorem HeatPage.kept_load (c : HeatPage) : c.load.Kept :=
  ⟨fun _ => ⟨fun _ => 0, rfl, sum_const_zero.symm, fun _ _ => Nat.zero_le _,
    fun _ _ hne => absurd rfl hne⟩, fun hghost => absurd hghost (by decide : ¬ (false = true))⟩

theorem HeatPage.Kept.setLruPtr {c : HeatPage} (h : c.Kept) (ptr : Bool) :
    HeatPage.Kept { c with lruPtr := ptr } :=
  ⟨fun hpt => (h.heated hpt).imp fun _ hh => ⟨hh.cntMap, hh.sum, hh.le, hh.flag⟩, h.ghost⟩

/-! ## Section 4: All runs -/

/-- Every page is kept. -/
def HeatCache.Kept (s : HeatCache) : Prop := ∀ page, (s.cmt page).Kept

namespace HeatCache

/-- One page changes. -/
theorem Kept.setCmt {s : HeatCache} (h : s.Kept) {page : Nat} {c : HeatPage} (hc : c.Kept) :
    (s.setCmt page c).Kept := fun p => by
  show (Function.update s.cmt page c p).Kept
  by_cases hp : p = page
  · rw [hp, Function.update_self]
    exact hc
  · rw [Function.update_of_ne hp]
    exact h p

/-- A promotion clears the page. -/
theorem Kept.promoteHot {s : HeatCache} (h : s.Kept) (accessible : Bool) (victim : Nat) :
    (s.promoteHot accessible victim).Kept := by
  unfold HeatCache.promoteHot
  split
  · exact h.setCmt (h victim).pageHeatClear
  · split
    · exact h
    · split
      · exact h.setCmt (h victim).pageHeatClear
      · exact h.setCmt ((h victim).clearAndUpdate _)

/-- And so do those of several pages. -/
theorem Kept.promoteCandidates {s : HeatCache} (h : s.Kept) (accessible : Nat → Bool)
    (pages : List Nat) : (pages.foldl (promoteCandidate accessible) s).Kept := by
  induction pages generalizing s with
  | nil => exact h
  | cons page pages ih =>
    refine ih ?_
    unfold HeatCache.promoteCandidate
    split
    · exact h.promoteHot _ _
    · exact h

theorem Kept.promotePicked {s : HeatCache} (h : s.Kept) (accessible : Nat → Bool) :
    (s.promotePicked accessible).Kept := by
  unfold HeatCache.promotePicked
  split
  · exact h.promoteCandidates accessible _
  · exact h

/-- The search for a victim promotes on its way. -/
theorem Kept.popVictim {accessible : Nat → Nat → Bool} {fuel : Nat} {s s' : HeatCache}
    {victim : Nat} (h : s.Kept) (hpop : s.popVictim accessible fuel = some (victim, s')) :
    s'.Kept := by
  induction fuel generalizing s with
  | zero => cases hpop
  | succ fuel ih =>
    have hpicked := h.promotePicked (accessible fuel)
    unfold HeatCache.popVictim at hpop
    simp only at hpop
    generalize s.promotePicked (accessible fuel) = t at hpicked hpop
    cases hlast : t.lru.getLast? with
    | none =>
      rw [hlast] at hpop
      cases hpop
    | some v =>
      rw [hlast] at hpop
      have hdrop : HeatCache.Kept ({ t with lru := t.lru.dropLast }.setCmt v
          { t.cmt v with lruPtr := false }) :=
        Kept.setCmt (s := { t with lru := t.lru.dropLast }) hpicked ((hpicked v).setLruPtr false)
      dsimp only at hpop
      split at hpop
      · exact ih hdrop hpop
      · cases hpop
        exact hdrop

/-- Ghost marks go. -/
theorem Kept.unmark {s : HeatCache} (h : s.Kept) (pages : List Nat) : (s.unmark pages).Kept := by
  unfold HeatCache.unmark
  induction pages generalizing s with
  | nil => exact h
  | cons page pages ih =>
    refine ih ?_
    unfold HeatCache.ghostColdUnmark
    split
    · next hghost =>
      exact h.setCmt (HeatPage.kept_of_not_pt ((h page).ghost hghost))
    · exact h

theorem pt_unmark (s : HeatCache) (pages : List Nat) (page : Nat) :
    ((s.unmark pages).cmt page).pt = (s.cmt page).pt := by
  unfold HeatCache.unmark
  induction pages generalizing s with
  | nil => rfl
  | cons p pages ih =>
    rw [List.foldl_cons, ih]
    unfold HeatCache.ghostColdUnmark
    split
    · show (Function.update s.cmt p _ page).pt = _
      by_cases hp : page = p
      · rw [hp, Function.update_self]
        rfl
      · rw [Function.update_of_ne hp]
    · rfl

/-- Only an evicted page becomes a ghost. -/
theorem Kept.ghostColdMark {s : HeatCache} {page : Nat} (h : s.Kept)
    (hpt : (s.cmt page).pt = false) (unmarked : List Nat) :
    (s.ghostColdMark page unmarked).Kept := by
  unfold HeatCache.ghostColdMark
  split
  · exact h
  · split
    · exact h
    · exact (h.unmark unmarked).setCmt
        (HeatPage.kept_of_not_pt ((pt_unmark s unmarked page).trans hpt))

theorem Kept.rebalance {s : HeatCache} (h : s.Kept) (change : Option (Nat × Nat × List Nat)) :
    (s.rebalance change).Kept := by
  cases change with
  | none => exact h
  | some change =>
    obtain ⟨cold, cap, unmarked⟩ := change
    exact Kept.unmark (s := { s with maxCachedTpages := cold, ghostColdCap := cap }) h unmarked

/-- An eviction keeps the heat of the other pages. -/
theorem Kept.evict {s s' : HeatCache} {choice : ListUpChoice} (h : s.Kept)
    (hevict : s.evict choice = some s') : s'.Kept := by
  obtain ⟨⟨victim, t⟩, hpop, rfl⟩ := Option.map_eq_some_iff.mp hevict
  have ht := Kept.popVictim (s := { s with popCount := s.popCount + 1 }) h hpop
  have hdown : (t.unload victim).Kept := ht.setCmt (HeatPage.kept_of_not_pt rfl)
  have hpt : ((t.unload victim).cmt victim).pt = false := by
    show (Function.update t.cmt victim _ victim).pt = false
    rw [Function.update_self]
  exact (hdown.ghostColdMark hpt choice.unmarked).rebalance choice.rebalance

theorem Kept.load {s : HeatCache} (h : s.Kept) (page : Nat) : (s.load page).Kept :=
  h.setCmt (((s.cmt page).kept_load).setLruPtr true)

theorem Kept.prepareForBenchmark {s : HeatCache} (h : s.Kept) : s.prepareForBenchmark.Kept :=
  fun page => by
    show HeatPage.Kept (if page < s.nrValidTpages ∧ (s.cmt page).ghostMark = true then _ else _)
    split
    · next hghost => exact HeatPage.kept_of_not_pt ((h page).ghost hghost.2)
    · exact h page

/-- Every step keeps sum, counts and flag in step. -/
theorem Kept.next {s s' : HeatCache} {label : HeatLabel} (h : s.Kept)
    (hn : s.next label = some s') : s'.Kept := by
  cases label with
  | access lpa =>
    cases hn
    unfold HeatCache.coldGrainAccess
    split
    · exact h.setCmt ((h _).grainHeatRaise _)
    · exact h
  | record page i =>
    cases hn
    exact h.setCmt ((h page).grainHeatRaise i)
  | clear page i =>
    cases hn
    exact h.setCmt ((h page).grainHeatClear i)
  | promote accessible page =>
    cases hn
    exact h.promoteHot accessible page
  | unmark page =>
    cases hn
    exact h.unmark [page]
  -- A list_up evicts first when the cache is full.
  | listUp page choice =>
    obtain ⟨t, ht, rfl⟩ := Option.map_eq_some_iff.mp hn
    split at ht
    · exact (h.evict ht).load page
    · cases ht
      exact h.load page
  | prepare =>
    cases hn
    exact h.prepareForBenchmark
  | map page i ppa =>
    cases hn
    exact h

end HeatCache

theorem reach_heatKept {s : HeatCache} (h : heatMachine.Reachable s) : s.Kept := by
  refine h.invariant (I := HeatCache.Kept) ?_ ?_
  · rintro s ⟨valid, cold, cap, rfl⟩
    exact fun page => HeatPage.kept_of_not_pt rfl
  · exact fun s s' label _ hk _ hn => hk.next hn

/-! ## Section 5: The promotion scan -/

namespace HeatCache

/-- The scan only adds pages. -/
theorem subset_pickLoop (s : HeatCache) (targetK : Nat) (pages out : List Nat) :
    out ⊆ s.pickLoop targetK pages out := by
  induction pages generalizing out with
  | nil => exact List.Subset.refl out
  | cons current rest ih =>
    unfold pickLoop
    split
    · exact List.Subset.refl out
    · split
      · exact List.Subset.trans (List.subset_append_left out [current]) (ih _)
      · exact ih out

/-- It stops at the wanted number. -/
theorem pickLoop_length_le (s : HeatCache) {targetK : Nat} (pages : List Nat) {out : List Nat}
    (h : out.length ≤ targetK) : (s.pickLoop targetK pages out).length ≤ targetK := by
  induction pages generalizing out with
  | nil => exact h
  | cons current rest ih =>
    unfold pickLoop
    split
    · exact h
    · next hlt =>
      split
      · refine ih ?_
        rw [List.length_append, List.length_singleton]
        omega
      · exact ih h

/-- A flagged page is picked, unless the scan has picked enough pages in front of it. -/
theorem mem_pickLoop {s : HeatCache} {page : Nat} (hflag : (s.cmt page).hasHotEntry = true)
    (hghost : (s.cmt page).ghostMark = false) (targetK : Nat) (pre post out : List Nat) :
    page ∈ s.pickLoop targetK (pre ++ page :: post) out ∨
      (targetK ≤ (s.pickLoop targetK (pre ++ page :: post) out).length ∧
        ∀ q ∈ s.pickLoop targetK (pre ++ page :: post) out, q ∈ out ∨ q ∈ pre) := by
  induction pre generalizing out with
  | nil =>
    rw [List.nil_append]
    unfold pickLoop
    by_cases hfull : targetK ≤ out.length
    · rw [if_pos hfull]
      exact Or.inr ⟨hfull, fun q hq => Or.inl hq⟩
    · rw [if_neg hfull, hflag, hghost]
      exact Or.inl (s.subset_pickLoop targetK post _ (by simp))
  | cons current pre ih =>
    rw [List.cons_append]
    unfold pickLoop
    by_cases hfull : targetK ≤ out.length
    · rw [if_pos hfull]
      exact Or.inr ⟨hfull, fun q hq => Or.inl hq⟩
    · rw [if_neg hfull]
      -- The page in front is picked or not, the scan goes on behind it.
      split
      · rcases ih (out ++ [current]) with hmem | ⟨hlen, hin⟩
        · exact Or.inl hmem
        · refine Or.inr ⟨hlen, fun q hq => ?_⟩
          rcases hin q hq with hq | hq
          · rcases List.mem_append.mp hq with hq | hq
            · exact Or.inl hq
            · exact Or.inr (List.mem_singleton.mp hq ▸ List.mem_cons_self ..)
          · exact Or.inr (List.mem_cons_of_mem _ hq)
      · rcases ih out with hmem | ⟨hlen, hin⟩
        · exact Or.inl hmem
        · exact Or.inr ⟨hlen, fun q hq => (hin q hq).imp_right (List.mem_cons_of_mem _)⟩

/-- A page with a promotable grain has its flag set. -/
theorem Kept.flag {s : HeatCache} (h : s.Kept) {page : Nat} (hprom : s.HasPromotable page) :
    (s.cmt page).hasHotEntry = true ∧ (s.cmt page).ghostMark = false := by
  obtain ⟨hres, cnt, hmap, i, hi, -, hcnt⟩ := hprom
  obtain ⟨hpt, hghost⟩ := (Bool.and_eq_true ..).mp hres
  obtain ⟨cnt', hheated⟩ := (h page).heated hpt
  obtain rfl : cnt = cnt' := Option.some.inj (hmap.symm.trans hheated.cntMap)
  have hpos : 1 ≤ cnt i := of_decide_eq_true hcnt
  refine ⟨hheated.flag i hi (by omega), ?_⟩
  simpa using hghost

end HeatCache

/-- Sum, counts and flag of every resident page, in every run. The promotion scan takes every
    page of its window that has a promotable grain, until it has as many pages as it wants. -/
theorem heat_bookkeeping {s : HeatCache} (h : heatMachine.Reachable s) :
    (∀ page, (s.cmt page).isResident = true → ∃ cnt, (s.cmt page).cntMap = some cnt ∧
      (s.cmt page).pageHeatSum = ∑ i ∈ range 512, cnt i ∧ (∀ i < 512, cnt i ≤ 5) ∧
      ∀ i < 512, cnt i ≠ 0 → (s.cmt page).hasHotEntry = true) ∧
    ∀ targetK, 0 < targetK → targetK ≤ 100 → ∀ pre page post,
      s.lru.take (Lru.topWindow s.lru.length) = pre ++ page :: post → s.HasPromotable page →
      page ∈ s.pickPromoteHotPages targetK ∨
        ((s.pickPromoteHotPages targetK).length = targetK ∧
          ∀ q ∈ s.pickPromoteHotPages targetK, q ∈ pre) := by
  have hkept := reach_heatKept h
  refine ⟨fun page hres => ?_, fun targetK hpos hmax pre page post hwindow hprom => ?_⟩
  · have hpt := ((Bool.and_eq_true ..).mp hres).1
    obtain ⟨cnt, hheated⟩ := (hkept page).heated hpt
    exact ⟨cnt, hheated.cntMap, hheated.sum, hheated.le, hheated.flag⟩
  · obtain ⟨hflag, hghost⟩ := hkept.flag hprom
    have hne : s.lru ≠ [] := fun hnil => by
      rw [hnil, List.take_nil] at hwindow
      exact absurd hwindow (by simp)
    unfold HeatCache.pickPromoteHotPages
    rw [if_neg hne, if_neg (by omega), hwindow]
    have hle : (s.pickLoop targetK (pre ++ page :: post) []).length ≤ targetK :=
      s.pickLoop_length_le _ (Nat.zero_le targetK)
    rcases HeatCache.mem_pickLoop hflag hghost targetK pre post [] with hmem | ⟨hlen, hin⟩
    · exact Or.inl hmem
    · exact Or.inr ⟨Nat.le_antisymm hle hlen, fun q hq => (hin q hq).resolve_left (by simp)⟩

/-- A page is loaded twice and hit. -/
theorem heat_bookkeeping_hit : ∃ s, heatMachine.exec (.create 8 1 4)
    [.map 3 7 (some 40), .listUp 3 ⟨fun _ _ => true, [], none⟩,
      .listUp 3 ⟨fun _ _ => true, [], none⟩, .access 1543] = some s ∧
    3 ∈ s.pickPromoteHotPages 50 := by
  have hrun : ∃ s, heatMachine.exec (.create 8 1 4)
      [.map 3 7 (some 40), .listUp 3 ⟨fun _ _ => true, [], none⟩,
        .listUp 3 ⟨fun _ _ => true, [], none⟩, .access 1543] = some s ∧ s.lru = [3] ∧
      s.HasPromotable 3 ∧ (s.pickPromoteHotPages 50).length ≠ 50 :=
    ⟨_, rfl, rfl, ⟨rfl, _, rfl, 7, by decide, rfl, rfl⟩, by decide⟩
  obtain ⟨s, hexec, hlru, hprom, hlen⟩ := hrun
  have hs := (Machine.Reachable.init (M := heatMachine) ⟨8, 1, 4, rfl⟩).exec hexec
  have hwindow : s.lru.take (Lru.topWindow s.lru.length) = [] ++ 3 :: [] := by
    rw [hlru]
    rfl
  refine ⟨s, hexec, ?_⟩
  exact ((heat_bookkeeping hs).2 50 (by decide) (by decide) [] 3 [] hwindow hprom).resolve_right
    fun hfull => hlen hfull.1

end AggreKV.HashKv
