import AggreKV.HashKv.HotCmt
import AggreKV.HashKv.Budget

/-! # The adaptive hot table

    The hot table of `HotCmt.lean` with everything that `ADAPTIVE_MEM` and
    `VERIFY_CACHE` keep in it and beside it: cached keys and their byte
    budget, ghost marks, and the counters that the rebalance reads.

    * `HotTable`: the slots, `hot_rehash_st`, the counters and `cache_env`.
    * `HotTable.toHot`: the slots and the rehash alone, as the mapping store
      sees them.
    * Slot `j` of hot page `d` is the table index `512 * d + j`. -/

namespace AggreKV.HashKv

/-! ## Section 1: Data -/

/-- `h_pte_t`; `lpa = none` is the empty slot, an empty `realKey` no cached key. -/
structure HotSlot where
  lpa : Option Nat
  ppa : Option Nat
  state : Nat
  keyFp : UInt32
  realKey : List UInt8
  keyGhostMark : Bool
  keyGhostState : Nat
  deriving DecidableEq

def HotSlot.empty : HotSlot := ⟨none, none, 0, 0, [], false, 0⟩

/-- `hot_pte_is_warm`. -/
def HotSlot.warm (slot : HotSlot) : Bool := slot.lpa.isSome && 2 ≤ slot.state

/-- The slot after `hot_rehash_clear_slot`; the state of a ghost that is not marked stays. -/
def HotSlot.cleared (slot : HotSlot) : HotSlot :=
  ⟨none, none, 0, 0, [], false, if slot.keyGhostMark then 0 else slot.keyGhostState⟩

/-- The slot without its key and its ghost. -/
def HotSlot.toPte (e : HotSlot) : HotPte := ⟨e.lpa, e.ppa, e.state, e.keyFp⟩

/-- `ghost_fifo_t`. -/
structure GhostFifo where
  ring : Nat → Nat
  cap : Nat
  head : Nat
  count : Nat

/-- `adaptive_ghost_fifo_alloc`, with the capacity that `ghost_fifo_cap` allows. -/
def GhostFifo.alloc (cap : Nat) : GhostFifo := ⟨fun _ => 0, min cap 65536, 0, 0⟩

/-- `adaptive_ghost_fifo_push`. -/
def GhostFifo.push (f : GhostFifo) (val : Nat) : GhostFifo :=
  if f.cap = 0 then f
  else
    { f with
      ring := Function.update f.ring f.head val
      head := (f.head + 1) % f.cap
      count := if f.count < f.cap then f.count + 1 else f.count }

/-- `adaptive_ghost_fifo_pop_oldest`; an empty list gives `UINT32_MAX`. -/
def GhostFifo.popOldest (f : GhostFifo) : Nat × GhostFifo :=
  if f.count = 0 then (4294967295, f)
  else (f.ring ((f.head + f.cap - f.count) % f.cap), { f with count := f.count - 1 })

/-- `x--` on a `uint64_t`. -/
def dec64 (n : Nat) : Nat := if n = 0 then 18446744073709551615 else n - 1

/-- `hot_mem_table`, `hot_rehash_st` and the counters of `cache_stat` and `cache_member`. -/
structure HotTable where
  env : CacheEnv
  slots : Nat → HotSlot
  phase : RehashPhase
  nPages : Nat
  scan : Nat
  saved : List HotSlot
  insertIdx : Nat
  placed : Nat
  ghosts : Nat
  /-- `hot_pte_state_live`, an entry for each of the six states. -/
  stateLive : List Nat
  /-- `hot_valid_entries`. -/
  validEntries : Nat
  /-- `ghost_key_state_live`. -/
  ghostStateLive : List Nat
  nrGhostKey : Nat
  keyFifo : GhostFifo
  keyScanRr : Nat

def HotTable.create (env : CacheEnv) : HotTable where
  env := env
  slots := fun _ => .empty
  phase := .idle
  nPages := 0
  scan := 0
  saved := []
  insertIdx := 0
  placed := 0
  ghosts := 0
  stateLive := .replicate 6 0
  validEntries := 0
  ghostStateLive := .replicate 6 0
  nrGhostKey := 0
  keyFifo := .alloc env.ghostKeyCap
  keyScanRr := 0

namespace HotTable

/-- The slots of the active pages. -/
def active (h : HotTable) : Nat := h.env.maxCachedHotTpages * 512

def setSlot (h : HotTable) (i : Nat) (e : HotSlot) : HotTable :=
  { h with slots := fun j => bif Nat.beq j i then e else h.slots j }

@[simp] theorem slots_setSlot (h : HotTable) (i : Nat) (e : HotSlot) (j : Nat) :
    (h.setSlot i e).slots j = if j = i then e else h.slots j := by
  show (bif Nat.beq j i then e else h.slots j) = if j = i then e else h.slots j
  by_cases hj : j = i
  · rw [if_pos hj, hj, Nat.beq_refl, cond_true]
  · have hbeq : Nat.beq j i = false := Bool.eq_false_iff.mpr fun h => hj (Nat.eq_of_beq_eq_true h)
    rw [if_neg hj, hbeq, cond_false]

def setFree (h : HotTable) (free : Nat) : HotTable :=
  { h with env := { h.env with maxCachedFullKey := free } }

/-- `hot_cmt_accessible`. -/
def accessible (h : HotTable) : Bool := h.phase = .idle

/-- The slots and the rehash of the table. -/
def toHot (h : HotTable) : Hot where
  memTable := fun i => (h.slots i).toPte
  maxCachedHotTpages := h.env.maxCachedHotTpages
  phase := h.phase
  nPages := h.nPages
  scan := h.scan
  saved := h.saved.map HotSlot.toPte
  insertIdx := h.insertIdx

/-! ## Section 2: Counters -/

/-- `hot_hist_dec` on `hot_pte_state_live`. It does not go below 0, and does nothing from
    `STATE_NUM` on. -/
def histDec (live : List Nat) (state : Nat) : List Nat := live.modify state (· - 1)

/-- `hot_hist_inc` on `hot_pte_state_live`. -/
def histInc (live : List Nat) (state : Nat) : List Nat := live.modify state (· + 1)

/-- `hot_hist_move`. -/
def histMove (h : HotTable) (i state : Nat) : HotTable :=
  let slot := h.slots i
  if slot.lpa = none ∨ 6 ≤ state then h
  else
    { h.setSlot i { slot with state := state } with
      stateLive := histInc (histDec h.stateLive slot.state) state }

/-- `hot_state_raise`. -/
def stateRaise (h : HotTable) (i : Nat) : HotTable :=
  let slot := h.slots i
  if slot.lpa = none then h
  else if slot.state < 5 then h.histMove i (slot.state + 1)
  else h

/-- A raise leaves the table alone, or counts an occupied slot one state higher. -/
@[elab_as_elim]
theorem stateRaise_rule {motive : HotTable → Prop} (h : HotTable) (i : Nat) (same : motive h)
    (raised : (h.slots i).lpa ≠ none → (h.slots i).state < 5 →
      motive { h.setSlot i { h.slots i with state := (h.slots i).state + 1 } with
        stateLive := histInc (histDec h.stateLive (h.slots i).state) ((h.slots i).state + 1) }) :
    motive (h.stateRaise i) := by
  unfold stateRaise histMove
  dsimp only
  split
  · exact same
  · next hlpa =>
    split
    · next hlt =>
      split
      · exact same
      · exact raised hlpa hlt
    · exact same

/-- `hot_promote_entry_state`. -/
def promoteEntryState (coldCnt : Nat) : Nat := min coldCnt 5

/-- Gives the bytes of a key back while the free bytes are below the budget
    (`hot_rehash_yield_key_budget_on_drop`). -/
def yieldKeyBudget (env : CacheEnv) (slot : HotSlot) : CacheEnv :=
  if slot.realKey ≠ [] ∧ env.maxCachedFullKey < env.maxCachedFullKeyBudget then
    { env with maxCachedFullKey := env.maxCachedFullKey + slot.realKey.length }
  else env

/-! ## Section 3: Ghost keys -/

/-- The index in `ghost_key_state_live` of a slot's ghost. -/
def ghostIndex (slot : HotSlot) : Nat := if slot.keyGhostState < 6 then slot.keyGhostState else 0

/-- What `ghost_key_evict_rr` and `ghost_key_fifo_evict_oldest` do to a marked slot. -/
def ghostKeyUnmark (h : HotTable) (i : Nat) : HotTable :=
  let slot := h.slots i
  { h.setSlot i { slot with keyGhostMark := false, keyGhostState := 0 } with
    ghostStateLive := h.ghostStateLive.modify (ghostIndex slot) dec64
    nrGhostKey := dec64 h.nrGhostKey }

/-- The loop of `ghost_key_evict_rr`, with its return value. -/
def ghostKeyScan (h : HotTable) : Nat → Bool × HotTable
  | 0 => (false, h)
  | steps + 1 =>
    let pos := h.keyScanRr % h.active
    let h' := { h with keyScanRr := (h.keyScanRr + 1) % 18446744073709551616 }
    if (h'.slots pos).keyGhostMark then (true, h'.ghostKeyUnmark pos)
    else h'.ghostKeyScan steps

/-- `ghost_key_evict_rr`. -/
def ghostKeyEvictRr (h : HotTable) : Bool × HotTable :=
  if h.active = 0 ∨ h.nrGhostKey = 0 then (false, h) else h.ghostKeyScan 512

/-- The loop of `ghost_key_fifo_evict_oldest`. -/
def ghostKeyFifoEvict (h : HotTable) : Nat → Bool × HotTable
  | 0 => h.ghostKeyEvictRr
  | tries + 1 =>
    if h.keyFifo.count = 0 then h.ghostKeyEvictRr
    else
      let slotId := h.keyFifo.popOldest.1
      let h' := { h with keyFifo := h.keyFifo.popOldest.2 }
      if slotId < h'.active ∧ (h'.slots slotId).keyGhostMark then (true, h'.ghostKeyUnmark slotId)
      else h'.ghostKeyFifoEvict tries

/-- `ghost_key_fifo_evict_oldest`. -/
def ghostKeyFifoEvictOldest (h : HotTable) : Bool × HotTable := h.ghostKeyFifoEvict h.keyFifo.count

/-- Evicts ghosts while there are at least `limit`. Every round but the last takes one
    off `nr_ghost_key`, so that many rounds are enough. -/
def ghostKeyEvictDownTo (h : HotTable) (limit : Nat) : Nat → HotTable
  | 0 => h
  | rounds + 1 =>
    if limit ≤ h.nrGhostKey then
      let (done, h') := h.ghostKeyFifoEvictOldest
      if done then h'.ghostKeyEvictDownTo limit rounds else h'
    else h

/-- `adaptive_ghost_key_mark`. -/
def ghostKeyMark (h : HotTable) (i : Nat) : HotTable :=
  if h.env.ghostKeyCap = 0 then h
  else if (h.slots i).realKey = [] then h
  else if (h.slots i).keyGhostMark then h
  else
    let h := h.ghostKeyEvictDownTo h.env.ghostKeyCap h.nrGhostKey
    let slot := h.slots i
    { h.setSlot i { slot with keyGhostMark := true, keyGhostState := 0, realKey := [] } with
      ghostStateLive := h.ghostStateLive.modify 0 (· + 1)
      env := yieldKeyBudget h.env slot
      nrGhostKey := h.nrGhostKey + 1
      keyFifo := h.keyFifo.push i }

/-- `adaptive_ghost_key_on_flash_verify`. -/
def ghostKeyOnFlashVerify (h : HotTable) (i : Nat) (keyFp : UInt32) : HotTable :=
  let slot := h.slots i
  if keyFp = 0 ∨ h.env.ghostKeyCap = 0 then h
  else if slot.keyGhostMark = false ∨ slot.keyFp ≠ keyFp then h
  else
    let state := if slot.keyGhostState < 5 then slot.keyGhostState + 1 else slot.keyGhostState
    { h.setSlot i { slot with keyGhostState := state } with
      ghostStateLive := (h.ghostStateLive.modify slot.keyGhostState dec64).modify state (· + 1) }

/-- The key caching of `wb_data_check`, for a slot that was hit. -/
def cacheKey (h : HotTable) (i : Nat) (realKey : List UInt8) : HotTable :=
  let slot := h.slots i
  if h.env.verifyCache ∧ slot.realKey = [] ∧ slot.keyGhostMark = false ∧ realKey.length ≤ 32 ∧
      realKey.length ≤ h.env.maxCachedFullKey then
    (h.setSlot i { slot with realKey := realKey, keyGhostMark := false }).setFree
      (h.env.maxCachedFullKey - realKey.length)
  else h

/-! ## Section 4: Promotion and hits -/

/-- The probe sequence of `lpa` over the active pages. -/
def probes (h : HotTable) (lpa n : Nat) : List Nat :=
  let newLpa := lpa % h.env.maxCachedHotEntries
  hotProbe h.env.maxCachedHotTpages n (newLpa / 512) (newLpa % 512) 1

/-- The first probed slot of `slots` that stores `lpa`. -/
def findLpa (h : HotTable) (slots : List Nat) (lpa : Nat) : Option Nat :=
  slots.find? fun i => (h.slots i).lpa = some lpa

/-- The slot `dftl_cache_hot_is_hit` returns, if it hits. -/
def hitSlot (h : HotTable) (lpa : Nat) : Option Nat :=
  if h.accessible then h.findLpa (h.probes lpa 50) lpa else none

/-- The last occupied slot of least heat, the one a promotion may displace. -/
def promoteVictim (h : HotTable) : List Nat → Option Nat :=
  List.foldl (fun victim i =>
    if (h.slots i).lpa.isNone then victim
    else match victim with
      | none => if (h.slots i).state ≤ 6 then some i else none
      | some j => if (h.slots i).state ≤ (h.slots j).state then some i else some j) none

/-- The key of a slot that a promotion takes is dropped, as a ghost if there may be
    ghosts. -/
def promoteDropKey (h : HotTable) (i : Nat) : HotTable :=
  if h.env.verifyCache then
    let h := if (h.slots i).realKey ≠ [] then
        let h := h.ghostKeyMark i
        h.setFree (h.env.maxCachedFullKey + (h.slots i).realKey.length)
      else h
    h.setSlot i { h.slots i with realKey := [] }
  else h

/-- The end of `hot_promote_place_grain`. -/
def promoteWrite (h : HotTable) (i lpa : Nat) (ppa : Option Nat) (keyFp : UInt32) (coldCnt : Nat) :
    HotTable :=
  let h := h.promoteDropKey i
  { h.setSlot i { h.slots i with
      keyGhostMark := false, lpa := some lpa, ppa := ppa, keyFp := keyFp,
      state := promoteEntryState coldCnt } with
    stateLive := histInc h.stateLive (promoteEntryState coldCnt) }

/-- `hot_promote_place_grain`. -/
def placeGrain (h : HotTable) (lpa : Nat) (ppa : Option Nat) (keyFp : UInt32) (coldCnt : Nat) :
    HotTable :=
  let slots := h.probes lpa 50
  match h.findLpa slots lpa with
  | some i =>
    let h := h.setSlot i { h.slots i with ppa := ppa, keyFp := keyFp }
    let h := if (h.slots i).state ≠ promoteEntryState coldCnt then
        h.histMove i (promoteEntryState coldCnt) else h
    h.setSlot i { h.slots i with keyGhostMark := false }
  | none =>
    match slots.find? fun i => (h.slots i).lpa.isNone with
    | some i => { h with validEntries := h.validEntries + 1 }.promoteWrite i lpa ppa keyFp coldCnt
    | none =>
      match h.promoteVictim slots with
      | some i =>
        if coldCnt < (h.slots i).state then h
        else
          { h with stateLive := histDec h.stateLive (h.slots i).state }.promoteWrite i lpa ppa keyFp
            coldCnt
      | none => h

/-! ## Section 5: Rehash -/

/-- The counters of `hot_rehash_clear_slot`. -/
def uncount (h : HotTable) (slot : HotSlot) : HotTable :=
  { h with
    stateLive := if slot.lpa ≠ none then histDec h.stateLive slot.state else h.stateLive
    ghostStateLive := if slot.keyGhostMark then h.ghostStateLive.modify (ghostIndex slot) dec64
      else h.ghostStateLive
    nrGhostKey := if slot.keyGhostMark then h.nrGhostKey - 1 else h.nrGhostKey }

/-- `hot_rehash_clear_slot`. -/
def clearSlot (h : HotTable) (i : Nat) : HotTable :=
  (h.uncount (h.slots i)).setSlot i (h.slots i).cleared

/-- One iteration of the collect loop: an occupied slot is cleared, and saved if it is
    warm. A slot that is not gives its key up. -/
def collectSlot (h : HotTable) : HotTable :=
  let slot := h.slots h.scan
  if slot.lpa = none then { h with scan := h.scan + 1 }
  else
    { h.clearSlot h.scan with
      saved := if slot.warm then h.saved ++ [slot] else h.saved
      env := if slot.warm then h.env else yieldKeyBudget h.env slot
      scan := h.scan + 1 }

/-- An empty slot is passed over, a warm entry saved with its key, another one dropped. -/
@[elab_as_elim]
theorem collectSlot_rule {motive : HotTable → Prop} (h : HotTable)
    (empty : (h.slots h.scan).lpa = none → motive { h with scan := h.scan + 1 })
    (warm : (h.slots h.scan).lpa ≠ none → (h.slots h.scan).warm = true →
      motive { h.clearSlot h.scan with saved := h.saved ++ [h.slots h.scan], scan := h.scan + 1 })
    (cold : (h.slots h.scan).lpa ≠ none → ¬(h.slots h.scan).warm = true →
      motive { h.clearSlot h.scan with
        env := yieldKeyBudget h.env (h.slots h.scan), scan := h.scan + 1 }) :
    motive h.collectSlot := by
  unfold collectSlot
  dsimp only
  split
  · next hlpa => exact empty hlpa
  · next hlpa =>
    by_cases hwarm : (h.slots h.scan).warm = true
    · rw [if_pos hwarm, if_pos hwarm]
      exact warm hlpa hwarm
    · rw [if_neg hwarm, if_neg hwarm]
      exact cold hlpa hwarm

def collectLoop (h : HotTable) : Nat → HotTable
  | 0 => h
  | n + 1 => if h.scan < h.nPages * 512 then h.collectSlot.collectLoop n else h

/-- The slot `hot_rehash_place_entry` chooses: the first empty or equal slot of a long probe
    sequence, else of a scan over all active slots. -/
def placeSlot (h : HotTable) (lpa : Nat) : Option Nat :=
  let free := fun i => (h.slots i).lpa.isNone || (h.slots i).lpa = some lpa
  (h.probes lpa 3200).find? free <|> (List.range h.active).find? free

/-- `hot_rehash_copy_pte`. -/
def copyPte (dest src : HotSlot) : HotSlot :=
  { dest with
    lpa := src.lpa, ppa := src.ppa, state := src.state, keyFp := src.keyFp,
    keyGhostMark := src.keyGhostMark, realKey := src.realKey }

/-- One iteration of the insert loop: `hot_rehash_place_entry`, and the counters of the
    rehash. -/
def insertEntry (h : HotTable) (e : HotSlot) : HotTable :=
  match e.lpa.bind h.placeSlot with
  | some i =>
    { h.setSlot i (copyPte (h.slots i) e) with
      stateLive := histInc (if (h.slots i).lpa ≠ none then histDec h.stateLive (h.slots i).state
        else h.stateLive) e.state
      placed := h.placed + 1
      ghosts := if e.keyGhostMark then h.ghosts + 1 else h.ghosts
      insertIdx := h.insertIdx + 1 }
  | none => { h with env := yieldKeyBudget h.env e, insertIdx := h.insertIdx + 1 }

def insertLoop (h : HotTable) : Nat → HotTable
  | 0 => h
  | n + 1 =>
    match h.saved[h.insertIdx]? with
    | some e => (h.insertEntry e).insertLoop n
    | none => h

/-- `hot_rehash_finish_locked`. -/
def rehashFinish (h : HotTable) : HotTable :=
  { h with
    saved := [], insertIdx := 0, scan := 0, phase := .idle,
    validEntries := h.placed, nrGhostKey := h.ghosts }

/-- `hot_rehash_tick`, with the budgets `HOT_REHASH_SCAN_BUDGET` and
    `HOT_REHASH_INSERT_BUDGET`. -/
def rehashTick (h : HotTable) : HotTable :=
  match h.phase with
  | .idle => h
  | .collect =>
    let h := h.collectLoop 32768
    if h.nPages * 512 ≤ h.scan then { h with insertIdx := 0, phase := .insert } else h
  | .insert =>
    let h := h.insertLoop 8192
    if h.saved.length ≤ h.insertIdx then h.rehashFinish else h

/-- `hot_rehash_begin`. -/
def rehashBegin (h : HotTable) : HotTable :=
  { h with
    nPages := h.env.maxCachedHotTpages, scan := 0, saved := [], insertIdx := 0, placed := 0,
    ghosts := 0, validEntries := 0, nrGhostKey := 0, stateLive := .replicate 6 0,
    phase := .collect }

/-- `hot_rehash_drain`. -/
def rehashDrain (h : HotTable) : Nat → HotTable
  | 0 => h
  | n + 1 => if h.accessible then h else h.rehashTick.rehashDrain n

/-- `hot_rehash_begin` and `hot_rehash_drain_all`, which gives up after 200000000 ticks. -/
def rehash (h : HotTable) : HotTable := h.rehashBegin.rehashDrain 200000001

/-! ## Section 6: Clearing -/

/-- The counters of `adaptive_clear_hot_page`, for one slot. -/
def uncountHot (h : HotTable) (slot : HotSlot) : HotTable :=
  { h.uncount slot with
    validEntries := if slot.lpa ≠ none then h.validEntries - 1 else h.validEntries
    env := yieldKeyBudget h.env slot }

/-- `adaptive_clear_hot_page` over the pages `lo .. lo + n - 1`. A slot is read only to
    clear it, so the counters follow the slots as they were. -/
def clearPages (h : HotTable) (lo n : Nat) : HotTable :=
  { ((List.range' (lo * 512) (n * 512)).map h.slots).foldl uncountHot h with
    slots := fun i => if lo * 512 ≤ i ∧ i < lo * 512 + n * 512 then (h.slots i).cleared
      else h.slots i }

/-- `dftl_cache_hot_reset`. -/
def reset (h : HotTable) : HotTable :=
  { h with
    slots := fun i =>
      if i < h.active then
        { h.slots i with
          keyGhostMark := false, lpa := none, ppa := none, state := 0, keyFp := 0, realKey := [] }
      else h.slots i
    stateLive := .replicate 6 0
    validEntries := 0
    nrGhostKey := 0
    env := if h.env.verifyCache then
        { h.env with maxCachedFullKey := h.env.maxCachedFullKeyBudget }
      else h.env }

/-- The hot part of `adaptive_prepare_for_benchmark`. -/
def prepareForBenchmark (h : HotTable) : HotTable :=
  { h with nrGhostKey := 0, keyFifo := { h.keyFifo with head := 0, count := 0 } }

/-- The hot part of `adaptive_ghost_update_caps_locked`, after the caps. -/
def ghostTrim (h : HotTable) : HotTable :=
  let h := { h with keyFifo := .alloc h.env.ghostKeyCap }
  h.ghostKeyEvictDownTo (h.env.ghostKeyCap + 1) h.nrGhostKey

end HotTable

/-! ## Section 7: The adaptive memory -/

/-- The fields of `cmt_struct` that ghosts are about: whether `pt` and `cnt_map` are there,
    and `ghost_mark`. -/
structure ColdPage where
  pt : Bool
  cntMap : Bool
  ghostMark : Bool
  deriving DecidableEq

/-- The hot table, and the ghosts of the cold cache. -/
structure Mem where
  hot : HotTable
  nrValidTpages : Nat
  cmt : Nat → ColdPage
  nrGhostCold : Nat
  coldFifo : GhostFifo
  coldScanRr : Nat

def Mem.create (env : CacheEnv) (nrValidTpages : Nat) : Mem where
  hot := .create env
  nrValidTpages := nrValidTpages
  cmt := fun _ => ⟨false, false, false⟩
  nrGhostCold := 0
  coldFifo := .alloc env.ghostColdCap
  coldScanRr := 0

namespace Mem

def setPage (m : Mem) (page : Nat) (c : ColdPage) : Mem :=
  { m with cmt := Function.update m.cmt page c }

/-- `ghost_cold_unmark`. -/
def ghostColdUnmark (m : Mem) (page : Nat) : Mem :=
  { m.setPage page { m.cmt page with ghostMark := false, cntMap := false } with
    nrGhostCold := m.nrGhostCold - 1 }

/-- The loop of `ghost_cold_evict_rr`, with its return value. -/
def ghostColdScan (m : Mem) : Nat → Bool × Mem
  | 0 => (false, m)
  | steps + 1 =>
    let page := m.coldScanRr % m.nrValidTpages
    let m' := { m with coldScanRr := (m.coldScanRr + 1) % 18446744073709551616 }
    if (m'.cmt page).ghostMark then (true, m'.ghostColdUnmark page) else m'.ghostColdScan steps

/-- `ghost_cold_evict_rr`. -/
def ghostColdEvictRr (m : Mem) : Bool × Mem :=
  if m.nrValidTpages = 0 ∨ m.nrGhostCold = 0 then (false, m) else m.ghostColdScan 512

/-- The loop of `ghost_cold_fifo_evict_oldest`. -/
def ghostColdFifoEvict (m : Mem) : Nat → Bool × Mem
  | 0 => m.ghostColdEvictRr
  | tries + 1 =>
    if m.coldFifo.count = 0 then m.ghostColdEvictRr
    else
      let tpn := m.coldFifo.popOldest.1
      let m' := { m with coldFifo := m.coldFifo.popOldest.2 }
      if tpn < m'.nrValidTpages ∧ (m'.cmt tpn).ghostMark then (true, m'.ghostColdUnmark tpn)
      else m'.ghostColdFifoEvict tries

/-- `ghost_cold_fifo_evict_oldest`. -/
def ghostColdFifoEvictOldest (m : Mem) : Bool × Mem := m.ghostColdFifoEvict m.coldFifo.count

/-- Evicts ghosts while there are at least `limit`. -/
def ghostColdEvictDownTo (m : Mem) (limit : Nat) : Nat → Mem
  | 0 => m
  | rounds + 1 =>
    if limit ≤ m.nrGhostCold then
      let (done, m') := m.ghostColdFifoEvictOldest
      if done then m'.ghostColdEvictDownTo limit rounds else m'
    else m

/-- `adaptive_ghost_cold_mark`. -/
def ghostColdMark (m : Mem) (page : Nat) : Mem :=
  if m.hot.env.ghostColdCap = 0 then m
  else if (m.cmt page).ghostMark then m
  else
    let m := m.ghostColdEvictDownTo m.hot.env.ghostColdCap m.nrGhostCold
    { m.setPage page { m.cmt page with ghostMark := true, cntMap := false } with
      nrGhostCold := m.nrGhostCold + 1
      coldFifo := m.coldFifo.push page }

/-- `adaptive_ghost_cold_clear`. -/
def ghostColdClear (m : Mem) (page : Nat) : Mem :=
  if (m.cmt page).ghostMark then
    { m.setPage page { m.cmt page with ghostMark := false } with
      nrGhostCold := dec64 m.nrGhostCold }
  else m

/-- The eviction of `dftl_cache_list_up`, for the page that `lru_pop` returned. -/
def evict (m : Mem) (page : Nat) : Mem :=
  (m.setPage page { m.cmt page with pt := false }).ghostColdMark page

/-- The end of `dftl_cache_list_up`. -/
def load (m : Mem) (page : Nat) : Mem :=
  let m := m.ghostColdClear page
  m.setPage page { m.cmt page with pt := true, cntMap := true }

/-- `adaptive_prepare_for_benchmark`. -/
def prepareForBenchmark (m : Mem) : Mem :=
  { m with
    hot := m.hot.prepareForBenchmark
    cmt := fun page =>
      if page < m.nrValidTpages then { m.cmt page with ghostMark := false } else m.cmt page
    nrGhostCold := 0
    coldFifo := { m.coldFifo with head := 0, count := 0 } }

/-- `adaptive_ghost_update_caps_locked`, after the caps. -/
def ghostTrim (m : Mem) : Mem :=
  let m := { m with coldFifo := .alloc m.hot.env.ghostColdCap }
  let m := m.ghostColdEvictDownTo (m.hot.env.ghostColdCap + 1) m.nrGhostCold
  { m with hot := m.hot.ghostTrim }

/-- The hot table that `adaptive_expand_hot_from_cold` rehashes, if it does not give up. -/
def expandHotTable (m : Mem) : Option (Option HotTable) := do
  let (done, env) ← m.hot.env.expandHotFromCold
  return if done then
      some ({ m.hot with env := env }.clearPages m.hot.env.maxCachedHotTpages m.hot.env.chunkTpages)
    else none

/-- The hot table that `adaptive_shrink_hot_to_cold` rehashes, if it does not give up. -/
def shrinkHotTable (m : Mem) : Option (Option HotTable) := do
  let (done, env) ← m.hot.env.shrinkHotToCold
  return if done then
      some ({ m.hot with env := env }.clearPages env.maxCachedHotTpages m.hot.env.chunkTpages)
    else none

/-- The end of a rebalance that resizes the hot table. -/
def rehashed (m : Mem) : Option HotTable → Mem
  | some h => { m with hot := h.rehash }.ghostTrim
  | none => m

/-- `adaptive_expand_key_cache`. -/
def expandKeyCache (m : Mem) : Option Mem := do
  let (done, env) ← m.hot.env.expandKeyCache m.hot.env.maxCachedFullKey
  return if done then { m with hot := { m.hot with env := env } }.ghostTrim else m

end Mem

inductive MemLabel where
  | promote (lpa : Nat) (ppa : Option Nat) (keyFp : UInt32) (coldCnt : Nat)
  | hit (lpa : Nat)
  /-- `adaptive_ghost_key_on_flash_verify` on a slot that was hit. -/
  | verify (i : Nat) (keyFp : UInt32)
  /-- The key of a slot that was hit is cached at a data check. -/
  | cacheKey (i : Nat) (realKey : List UInt8)
  | expandHot
  | shrinkHot
  | expandKey
  | reset
  | prepare
  | evict (page : Nat)
  | load (page : Nat)
  deriving DecidableEq

/-- A page is evicted while it is resident; the LRU list holds no other. A key is cached in
    an occupied slot of an active page. -/
def Mem.next (m : Mem) : MemLabel → Option Mem
  | .promote lpa ppa keyFp coldCnt =>
    some { m with hot := if m.hot.accessible then m.hot.placeGrain lpa ppa keyFp coldCnt
      else m.hot.rehashDrain 8 }
  | .hit lpa =>
    some { m with hot := match m.hot.hitSlot lpa with
      | some i => m.hot.stateRaise i
      | none => m.hot.rehashDrain 4 }
  | .verify i keyFp =>
    if i < m.hot.active ∧ (m.hot.slots i).lpa ≠ none then
      some { m with hot := m.hot.ghostKeyOnFlashVerify i keyFp }
    else none
  | .cacheKey i realKey =>
    if i < m.hot.active ∧ (m.hot.slots i).lpa ≠ none then
      some { m with hot := m.hot.cacheKey i realKey }
    else none
  | .expandHot => m.expandHotTable.map m.rehashed
  | .shrinkHot => m.shrinkHotTable.map m.rehashed
  | .expandKey => m.expandKeyCache
  | .reset => some { m with hot := m.hot.reset }
  | .prepare => some m.prepareForBenchmark
  | .evict page =>
    if page < m.nrValidTpages ∧ (m.cmt page).pt ∧ ¬(m.cmt page).ghostMark then some (m.evict page)
    else none
  | .load page => if page < m.nrValidTpages then some (m.load page) else none

/-- The memory after `adaptive_stats_bootstrap` has computed the ghost caps of `env₀`. -/
def memMachine (env₀ : CacheEnv) (nrValidTpages : Nat) : Machine Mem MemLabel where
  init m := ∃ env, env₀.updateCaps = some env ∧ m = .create env nrValidTpages
  next := Mem.next

end AggreKV.HashKv
