import AggreKV.HashKv.Settings

/-! # The hot table

    The hot mapping table of `dftl_cache.c` (`HOT_CMT`) with its background
    rehash (`ADAPTIVE_MEM`).

    * Slot `j` of hot page `d` is the table index `512 * d + j`.
    * No build defines `VERIFY_CACHE`: cached full keys and ghost keys are
      absent, `ghost_key_cap` is 0.
    * Which slots are occupied, and with what, decides every result; the
      counters the rebalance policy reads are left out. -/

namespace AggreKV.HashKv

/-! ## Section 1: Data -/

/-- `h_pte_t`; `lpa = none` is the empty slot. -/
structure HotPte where
  lpa : Option Nat
  ppa : Option Nat
  state : Nat
  keyFp : UInt32

def HotPte.empty : HotPte := ⟨none, none, 0, 0⟩

/-- `HOT_REHASH_IDLE`, `HOT_REHASH_COLLECT`, `HOT_REHASH_INSERT`. -/
inductive RehashPhase where
  | idle
  | collect
  | insert
  deriving DecidableEq

/-- The hot table and `hot_rehash_st`; `scan` is `scan_page * EPP + scan_grain`. -/
structure Hot where
  memTable : Nat → HotPte
  maxCachedHotTpages : Nat
  phase : RehashPhase
  nPages : Nat
  scan : Nat
  saved : List HotPte
  insertIdx : Nat

def Hot.setSlot (h : Hot) (i : Nat) (e : HotPte) : Hot :=
  { h with memTable := Function.update h.memTable i e }

def Hot.create (cfg : Settings) : Hot :=
  { memTable := fun _ => .empty, maxCachedHotTpages := cfg.maxCachedHotTpages, phase := .idle,
    nPages := 0, scan := 0, saved := [], insertIdx := 0 }

/-- `hot_cmt_accessible`; without `ADAPTIVE_MEM` the phase stays idle. -/
def Hot.accessible (h : Hot) : Bool := h.phase = .idle

/-! ## Section 2: Probing -/

/-- The next `n` probed slots from page `d`, offset `p`; `step` is the number of
    the next probe (`hot_probe_advance`, `hot_rehash_advance_probe`). -/
def hotProbe (tpages : Nat) : Nat → Nat → Nat → Nat → List Nat
  | 0, _, _, _ => []
  | n + 1, d, p, step =>
    (d * 512 + p) ::
      hotProbe tpages n ((d + (p + step * step) / 512) % tpages) ((p + step * step) % 512)
        (step + 1)

/-- The probe sequence of `lpa` over the active pages. -/
def Hot.probes (h : Hot) (lpa n : Nat) : List Nat :=
  let newLpa := lpa % (h.maxCachedHotTpages * 512)
  hotProbe h.maxCachedHotTpages n (newLpa / 512) (newLpa % 512) 1

/-- The first probed slot of `slots` that stores `lpa`. -/
def Hot.findLpa (h : Hot) (slots : List Nat) (lpa : Nat) : Option Nat :=
  slots.find? fun i => (h.memTable i).lpa = some lpa

/-- `grain_heat_raise`, the six heat levels `0 .. 5`. -/
def heatRaise (heat : Nat) : Nat := if heat < 5 then heat + 1 else heat

/-- The slot `dftl_cache_hot_is_hit` returns, if it hits. -/
def Hot.hitSlot (h : Hot) (lpa : Nat) : Option Nat :=
  if h.accessible then h.findLpa (h.probes lpa 50) lpa else none

/-! ## Section 3: Rehash -/

/-- One iteration of the collect loop: an occupied slot is cleared, and saved
    if it is warm. -/
def Hot.collectSlot (h : Hot) : Hot :=
  let slot := h.memTable h.scan
  if slot.lpa.isNone then { h with scan := h.scan + 1 }
  else
    { h with
      memTable := Function.update h.memTable h.scan .empty
      saved := if 2 ≤ slot.state then h.saved ++ [slot] else h.saved
      scan := h.scan + 1 }

def Hot.collectLoop (h : Hot) : Nat → Hot
  | 0 => h
  | n + 1 => if h.scan < h.nPages * 512 then h.collectSlot.collectLoop n else h

/-- `hot_rehash_place_entry`: the first empty or equal slot of a long probe
    sequence, else of a scan over all active slots. -/
def Hot.placeEntry (h : Hot) (e : HotPte) (lpa : Nat) : Hot :=
  let free := fun i => (h.memTable i).lpa.isNone || (h.memTable i).lpa = some lpa
  match (h.probes lpa 3200).find? free <|> (List.range (h.maxCachedHotTpages * 512)).find? free with
  | some i => h.setSlot i e
  | none => h

/-- One iteration of the insert loop. -/
def Hot.insertEntry (h : Hot) (e : HotPte) : Hot :=
  let h' := match e.lpa with
    | some lpa => h.placeEntry e lpa
    | none => h
  { h' with insertIdx := h.insertIdx + 1 }

def Hot.insertLoop (h : Hot) : Nat → Hot
  | 0 => h
  | n + 1 =>
    match h.saved[h.insertIdx]? with
    | some e => (h.insertEntry e).insertLoop n
    | none => h

/-- `hot_rehash_finish_locked`. -/
def Hot.rehashFinish (h : Hot) : Hot :=
  { h with saved := [], insertIdx := 0, scan := 0, phase := .idle }

/-- `hot_rehash_tick`, with the budgets `HOT_REHASH_SCAN_BUDGET` and
    `HOT_REHASH_INSERT_BUDGET`. -/
def Hot.rehashTick (h : Hot) : Hot :=
  match h.phase with
  | .idle => h
  | .collect =>
    let h' := h.collectLoop 32768
    if h'.nPages * 512 ≤ h'.scan then { h' with insertIdx := 0, phase := .insert } else h'
  | .insert =>
    let h' := h.insertLoop 8192
    if h'.saved.length ≤ h'.insertIdx then h'.rehashFinish else h'

/-- `hot_rehash_begin`. -/
def Hot.rehashBegin (h : Hot) : Hot :=
  { h with nPages := h.maxCachedHotTpages, scan := 0, saved := [], insertIdx := 0,
           phase := .collect }

/-- `hot_rehash_drain`. -/
def Hot.rehashDrain (h : Hot) : Nat → Hot
  | 0 => h
  | n + 1 => if h.accessible then h else h.rehashTick.rehashDrain n

/-- `hot_rehash_drain_all` gives up after 200000000 ticks. -/
def Hot.rehashDrainAll (h : Hot) : Hot := h.rehashDrain 200000001

/-! ## Section 4: Hits and promotion -/

/-- The effect of `dftl_cache_hot_is_hit` on the table: a hit raises the slot's
    heat, and a miss lets a pending rehash make progress. -/
def Hot.isHit (cfg : Settings) (h : Hot) (lpa : Nat) : Option Nat × Hot :=
  match h.hitSlot lpa with
  | some i => (some i, h.setSlot i { h.memTable i with state := heatRaise (h.memTable i).state })
  | none => (none, if cfg.adaptiveMem then h.rehashDrain 4 else h)

/-- The last occupied slot of least heat, the one a promotion may displace. -/
def Hot.promoteVictim (h : Hot) : List Nat → Option Nat :=
  List.foldl (fun victim i =>
    if (h.memTable i).lpa.isNone then victim
    else match victim with
      | none => if (h.memTable i).state ≤ 6 then some i else none
      | some j => if (h.memTable i).state ≤ (h.memTable j).state then some i else some j) none

/-- `hot_promote_place_grain`: refresh the slot of the same page entry, else take
    the first empty slot, else displace a slot that is not hotter. -/
def Hot.placeGrain (h : Hot) (lpa : Nat) (ppa : Option Nat) (keyFp : UInt32) (coldCnt : Nat) :
    Hot :=
  let slots := h.probes lpa 50
  let e : HotPte := ⟨some lpa, ppa, min coldCnt 5, keyFp⟩
  match h.findLpa slots lpa with
  | some i => h.setSlot i e
  | none =>
    match slots.find? fun i => (h.memTable i).lpa.isNone with
    | some i => h.setSlot i e
    | none =>
      match h.promoteVictim slots with
      | some i => if coldCnt < (h.memTable i).state then h else h.setSlot i e
      | none => h

/-- `adaptive_clear_hot_page` over the pages `lo .. hi - 1`. -/
def Hot.clearPages (h : Hot) (lo hi : Nat) : Hot :=
  { h with memTable := fun i => if lo * 512 ≤ i ∧ i < hi * 512 then .empty else h.memTable i }

end AggreKV.HashKv
