import AggreKV.HashKv.BlockManager
import AggreKV.HashKv.HotCmt

/-! # The mapping cache

    The cold mapping table and its page cache (`dftl_cache.c`, `lru_list.c`),
    without the two operations that allocate translation pages.

    * `cmt->pt` points into `mem_table`, so one table of entries, indexed by
      logical slot, holds both; `pt` says whether the page is resident.
    * An LRU node has an address, the value of `lru_ptr`.
    * `copyCurrent` is a history variable: it says whether the copy at `t_ppa`
      was written after the last update of the page. No function reads it. -/

namespace AggreKV.HashKv

/-! ## Section 1: Data -/

/-- `pte_t`; `ppa = none` is the initial value `UINT32_MAX`. -/
structure Pte where
  ppa : Option Nat
  keyFp : UInt32

/-- `cmt_t`. -/
structure Cmt where
  pt : Bool
  tPpa : Option Nat
  dirty : Bool
  isFlying : Bool
  lruPtr : Option Nat
  hasHotEntry : Bool
  ghostMark : Bool

structure LruNode where
  addr : Nat
  page : Nat
  deriving DecidableEq

/-- The cold half of `demand_cache`. -/
structure Cold where
  memTable : Nat → Pte
  cmt : Nat → Cmt
  /-- `cnt_map` of the page of a slot. -/
  cntMap : Nat → Nat
  /-- Most recently used first. -/
  lru : List LruNode
  /-- The address of the next LRU node. -/
  lruNext : Nat
  nrCachedTpages : Nat
  maxCachedTpages : Nat
  /-- `pop_count` and `rebalance_evict_cnt` of `dftl_cache_list_up`. -/
  popCount : Nat
  rebalanceEvictCnt : Nat
  copyCurrent : Nat → Bool

/-- The mapping tables and the device below them. -/
structure Store where
  bm : Bm
  ssd : Ssd
  dActive : Option Nat
  dReserve : Option Nat
  tActive : Option Nat
  tReserve : Option Nat
  cold : Cold
  hot : Hot

/-- `D_IDX`. -/
def dIdx (lpa : Nat) : Nat := lpa / 512

def Cold.setCmt (c : Cold) (page : Nat) (m : Cmt) : Cold :=
  { c with cmt := Function.update c.cmt page m }

def Cold.setPte (c : Cold) (lpa : Nat) (pte : Pte) : Cold :=
  { c with memTable := Function.update c.memTable lpa pte }

theorem Cold.cmt_setCmt (c : Cold) (page : Nat) (m : Cmt) (p : Nat) :
    (c.setCmt page m).cmt p = if p = page then m else c.cmt p := by
  simp [Cold.setCmt, Function.update_apply]

def Cmt.initial : Cmt :=
  { pt := false, tPpa := none, dirty := false, isFlying := false, lruPtr := none,
    hasHotEntry := false, ghostMark := false }

/-- `cache_member_init`. -/
def Cold.create (cfg : Settings) : Cold :=
  { memTable := fun _ => ⟨none, 0⟩, cmt := fun _ => .initial, cntMap := fun _ => 0, lru := [],
    lruNext := 0, nrCachedTpages := 0, maxCachedTpages := cfg.maxCachedTpages, popCount := 0,
    rebalanceEvictCnt := 0, copyCurrent := fun _ => false }

/-! ## Section 2: LRU list -/

/-- `lru_update`. -/
def lruUpdate (lru : List LruNode) (addr : Nat) : List LruNode :=
  lru.filter (fun nd => nd.addr = addr) ++ lru.filter (fun nd => nd.addr ≠ addr)

theorem lruUpdate_perm (lru : List LruNode) (addr : Nat) : (lruUpdate lru addr).Perm lru := by
  have h := List.filter_append_perm (fun nd : LruNode => decide (nd.addr = addr)) lru
  simpa [lruUpdate] using h

/-- `lru_pop`: the least recently used page. -/
def lruPop (lru : List LruNode) : Option (Nat × List LruNode) :=
  lru.getLast?.map fun nd => (nd.page, lru.dropLast)

/-- `lru_pick_promote_hot_pages` with a window of half the list and at most
    50 candidates. -/
def lruPickPromoteHotPages (c : Cold) : List Nat :=
  let window := max ((c.lru.length * 50 + 99) / 100) 1
  (((c.lru.take window).map (·.page)).filter fun page =>
    (c.cmt page).hasHotEntry && !(c.cmt page).ghostMark).take 50

/-! ## Section 3: Cache operations -/

/-- `cmt_is_resident`; without `ADAPTIVE_MEM` no page is ever a ghost. -/
def Cmt.isResident (m : Cmt) : Bool := m.pt && !m.ghostMark

/-- `dftl_cache_cold_grain_access`. -/
def Cold.coldGrainAccess (c : Cold) (lpa : Nat) : Cold :=
  let m := c.cmt (dIdx lpa)
  if m.isResident then
    { c.setCmt (dIdx lpa) { m with hasHotEntry := true } with
      cntMap := Function.update c.cntMap lpa (heatRaise (c.cntMap lpa)) }
  else c

/-- `dftl_cache_is_hit`. -/
def Cold.isHit (cfg : Settings) (c : Cold) (lpa : Nat) : Bool × Cold :=
  if (c.cmt (dIdx lpa)).isResident then
    (true, if cfg.hotCmt then c.coldGrainAccess lpa else c)
  else (false, c)

@[simp] theorem Cold.isHit_fst (cfg : Settings) (c : Cold) (lpa : Nat) :
    (c.isHit cfg lpa).1 = (c.cmt (dIdx lpa)).isResident := by
  unfold Cold.isHit
  split
  · next h => exact h.symm
  · next h => simpa using h

theorem Cold.coldGrainAccess_memTable (c : Cold) (lpa : Nat) :
    (c.coldGrainAccess lpa).memTable = c.memTable := by
  unfold Cold.coldGrainAccess
  dsimp only
  split <;> rfl

def Cold.isFull (c : Cold) : Bool := c.maxCachedTpages ≤ c.nrCachedTpages

/-- `dftl_cache_touch`. -/
def Cold.touch (cfg : Settings) (c : Cold) (lpa : Nat) : Cold :=
  let m := c.cmt (dIdx lpa)
  match m.lruPtr with
  | some addr =>
    if cfg.adaptiveMem && !m.isResident then c else { c with lru := lruUpdate c.lru addr }
  | none => c

theorem Cold.touch_memTable (cfg : Settings) (c : Cold) (lpa : Nat) :
    (c.touch cfg lpa).memTable = c.memTable := by
  unfold Cold.touch
  dsimp only
  split
  · split <;> rfl
  · rfl

def Cold.getPte (c : Cold) (lpa : Nat) : Pte := c.memTable lpa

/-- The flash copy of a page, if it was written and the page is still clean. -/
def Cold.cleanCopy (c : Cold) (page : Nat) : Option Nat :=
  if (c.cmt page).dirty then none else (c.cmt page).tPpa

/-- `dftl_cache_update` on the tables. A page that is not resident gets the entry
    but stays clean and keeps its flash copy. -/
def Cold.update (c : Cold) (lpa : Nat) (pte : Pte) : Cold :=
  let page := dIdx lpa
  let m := c.cmt page
  let c' := { c.setPte lpa pte with copyCurrent := Function.update c.copyCurrent page false }
  if m.pt then
    { c'.setCmt page { m with tPpa := if m.dirty then m.tPpa else none, dirty := true } with
      lru := match m.lruPtr with
        | some addr => lruUpdate c.lru addr
        | none => c.lru }
  else c'

theorem Cold.update_memTable (c : Cold) (lpa : Nat) (pte : Pte) :
    (c.update lpa pte).memTable = Function.update c.memTable lpa pte := by
  unfold Cold.update
  dsimp only
  split <;> rfl

/-- `dftl_cache_update`. -/
def Store.update (cfg : Settings) (s : Store) (lpa : Nat) (pte : Pte) : Store :=
  { s with
    bm := if (s.cold.cmt (dIdx lpa)).pt then
        match s.cold.cleanCopy (dIdx lpa) with
        | some p => invalidatePage cfg s.bm p
        | none => s.bm
      else s.bm
    cold := s.cold.update lpa pte }

/-- Setting `t_ppa` of a page. -/
def Cold.setTPpa (c : Cold) (page : Nat) (t : Option Nat) : Cold :=
  c.setCmt page { c.cmt page with tPpa := t }

/-- A page has been written back to `ppa`. -/
def Cold.written (c : Cold) (page ppa : Nat) : Cold :=
  { c.setCmt page { c.cmt page with tPpa := some ppa, dirty := false } with
    copyCurrent := Function.update c.copyCurrent page true }

/-- The garbage collector moves the value of `lpa`. -/
def Cold.relocate (c : Cold) (lpa ppa : Nat) : Cold :=
  { c.setPte lpa { c.getPte lpa with ppa := some ppa } with
    copyCurrent := Function.update c.copyCurrent (dIdx lpa) false }

/-- `dftl_cache_promote_hot`: the warm mapped entries of a resident page go to the
    hot table, and the heat of the page is cleared. -/
def Store.promoteHot (s : Store) (page : Nat) : Store :=
  let m := s.cold.cmt page
  let cleared := { s.cold with
    cntMap := fun lpa => if dIdx lpa = page then 0 else s.cold.cntMap lpa }
  if !s.hot.accessible then { s with cold := cleared, hot := s.hot.rehashDrain 8 }
  else if !m.isResident then s
  else if (List.range 512).all fun i => (s.cold.memTable (page * 512 + i)).ppa.isNone then
    { s with cold := cleared, hot := s.hot.rehashDrain 8 }
  else
    { s with
      cold := cleared.setCmt page { m with hasHotEntry := false }
      hot := (List.range 512).foldl (fun hot i =>
        let lpa := page * 512 + i
        let pte := s.cold.memTable lpa
        if pte.ppa.isSome ∧ 1 ≤ s.cold.cntMap lpa then
          hot.placeGrain lpa pte.ppa pte.keyFp (s.cold.cntMap lpa)
        else hot) s.hot }

/-- The outcome of `adaptive_try_rebalance`: its thresholds compare statistics that
    the model leaves out, so the choice is an input of the step. -/
inductive Rebalance where
  | keep
  | expandHot
  | expandKey
  | shrinkHot
  deriving DecidableEq

/-- `adaptive_expand_hot_from_cold`, `adaptive_expand_key_cache` and
    `adaptive_shrink_hot_to_cold`, each under its own guards. -/
def Store.rebalance (cfg : Settings) (s : Store) : Rebalance → Store
  | .keep => s
  | .expandHot =>
    let old := s.hot.maxCachedHotTpages
    let chunk := cfg.chunkTpages
    if s.cold.maxCachedTpages ≤ chunk + chunk - 1 ∨ cfg.hotTpagesCap < old + chunk then s
    else
      { s with
        cold := { s.cold with maxCachedTpages := s.cold.maxCachedTpages - chunk }
        hot := ({ s.hot with maxCachedHotTpages := old + chunk }.clearPages old
          (old + chunk)).rehashBegin.rehashDrainAll }
  | .expandKey =>
    if s.cold.maxCachedTpages ≤ cfg.chunkTpages + cfg.keyChunkPages - 1 then s
    else
      { s with cold :=
        { s.cold with maxCachedTpages := s.cold.maxCachedTpages - cfg.keyChunkPages } }
  | .shrinkHot =>
    let old := s.hot.maxCachedHotTpages
    let chunk := cfg.chunkTpages
    if old ≤ chunk + chunk - 1 ∨ cfg.totalCacheTpages < s.cold.maxCachedTpages + chunk then s
    else
      { s with
        cold := { s.cold with maxCachedTpages := s.cold.maxCachedTpages + chunk }
        hot := { s.hot.clearPages (old - chunk) old with
          maxCachedHotTpages := old - chunk }.rehashBegin.rehashDrainAll }

/-- `adaptive_try_rebalance`. -/
def Store.tryRebalance (cfg : Settings) (s : Store) (choice : Rebalance) : Store :=
  if s.hot.accessible then s.rebalance cfg choice else { s with hot := s.hot.rehashDrain 48 }

end AggreKV.HashKv
