import AggreKV.BlockSsd.Cache
import Mathlib.Data.List.Sort

/-! # Allocation, collection and eviction in the block SSD

    `dftl_pg.c` of `block_ssd` and `dftl_cache_list_up`.

    * `qsort` orders the relocated items by logical address; equal
      addresses, which the source leaves in any order, keep theirs. -/

namespace AggreKV.BlockSsd

open HashKv (lruPop dIdx)

/-! ## Section 1: Translation pages -/

/-- `_do_bulk_read_valid_tpages` over the `n` pages from `ppa`: the pages are
    invalidated, their logical page numbers collected. -/
def collectTpages (cfg : Settings) (ssd : Ssd) (bm : Bm) (ppa : Nat) : Nat → Option (Bm × List Nat)
  | 0 => some (bm, [])
  | n + 1 =>
    if bm.validBitmap ppa then
      if ssd.ppaState ppa then
        (collectTpages cfg ssd (invalidatePage cfg bm ppa) (ppa + 1) n).map fun (bm', pages) =>
          (bm', (bm.oob ppa).lpa :: pages)
      else none
    else collectTpages cfg ssd bm (ppa + 1) n

/-- One page written by `_do_bulk_write_valid_tpages` into superblock `rsv`. -/
def moveTpage (cfg : Settings) (rsv : Nat) (s : Store) (page : Nat) : Store :=
  let (ppa, bm) := getPageNum cfg s.bm rsv
  { s with
    bm := (validatePage cfg bm ppa).setOob ppa ⟨true, page, 4096⟩
    cold := s.cold.setTPpa page (some ppa) }

def tpageGc (cfg : Settings) (s : Store) : Option Store := do
  let target ← getGcTarget cfg s.bm .map
  let rsv ← s.tReserve
  let (bm, pages) ← collectTpages cfg s.ssd s.bm (sblkOfft2Ppa cfg target 0) cfg.pps
  let sppa := sblkOfft2Ppa cfg rsv (bm.sblk rsv).wpOfft
  let s := pages.foldl (moveTpage cfg rsv) { s with bm := bm }
  let ssd := ssdWrite cfg s.ssd sppa pages.length
  return { s with
    bm := changeReserve (trimSegment cfg s.bm target) .map target
    ssd := ssdTrimBlock cfg ssd target
    tActive := some rsv
    tReserve := some target }

/-- `tp_alloc` before the page is taken: a missing or full active superblock is
    replaced, by a collection when free superblocks run out. -/
def tSwitch (cfg : Settings) (s : Store) : Option Store :=
  if s.tActive.all (checkFull cfg s.bm) then
    if isGcNeeded s.bm .map then tpageGc cfg s
    else (getActiveSblk cfg s.bm .map).map fun (i, bm) => { s with bm := bm, tActive := some i }
  else some s

def tpAlloc (cfg : Settings) (s : Store) : Option (Nat × Store) := do
  let s ← tSwitch cfg s
  let a ← s.tActive
  let (ppa, bm) := getPageNum cfg s.bm a
  return (ppa, { s with bm := bm })

/-- Writing a translation page back: a new page is allocated, validated and
    programmed, and becomes the flash copy of `page`. -/
def Store.writeTpage (cfg : Settings) (s : Store) (page : Nat) : Option Store :=
  (tpAlloc cfg s).map fun (ppa, s) =>
    { s with
      bm := (validatePage cfg s.bm ppa).setOob ppa ⟨true, page, 4096⟩
      ssd := ssdWrite cfg s.ssd ppa 1
      cold := s.cold.written page ppa }

/-! ## Section 2: Moving live pages -/

/-- `gc_bucket_node` before it is placed; `src` is the page it was read from. -/
structure GcItem where
  lpa : Nat
  src : Nat
  deriving DecidableEq

structure GcNode where
  lpa : Nat
  ppa : Nat
  deriving DecidableEq

/-- The reads and the first loop of `_do_bulk_write_valid_items` over the `n` pages from
    `ppa`. Only items of length 1 have a bucket. -/
def collectPages (cfg : Settings) (bm : Bm) (ppa : Nat) : Nat → Option (Bm × List GcItem)
  | 0 => some (bm, [])
  | n + 1 =>
    if bm.validBitmap ppa then
      if (bm.oob ppa).length = 1 then
        (collectPages cfg (invalidatePage cfg bm ppa) (ppa + 1) n).map fun (bm', items) =>
          (bm', ⟨(bm.oob ppa).lpa, ppa⟩ :: items)
      else none
    else collectPages cfg bm (ppa + 1) n

/-- Validates page `ppa` and labels it. -/
def placePage (cfg : Settings) (bm : Bm) (ppa lpa : Nat) : Option Bm :=
  (validateGrain cfg bm ppa).map fun bm => bm.setOob ppa ⟨false, lpa, 1⟩

/-- The write loop: each item goes to the next page of superblock `rsv`. -/
def writeItems (cfg : Settings) (rsv : Nat) (s : Store) : List GcItem → Option (Store × List GcNode)
  | [] => some (s, [])
  | it :: items => do
    let (ppa, bm) := getPageNum cfg s.bm rsv
    let bm ← placePage cfg bm ppa it.lpa
    let s := { s with bm := bm, content := Function.update s.content ppa (s.content it.src) }
    let (s, nodes) ← writeItems cfg rsv s items
    return (s, ⟨it.lpa, ppa⟩ :: nodes)

/-- `_do_bulk_write_valid_items`: the bucket is emptied from its last item; nothing
    is programmed when there is no item. -/
def bulkWriteValidItems (cfg : Settings) (s : Store) (items : List GcItem) :
    Option (Store × List GcNode) := do
  let rsv ← s.dReserve
  let sppa := sblkOfft2Ppa cfg rsv (s.bm.sblk rsv).wpOfft
  let (s, nodes) ← writeItems cfg rsv s items.reverse
  return ({ s with ssd := ssdWrite cfg s.ssd sppa items.length }, nodes.reverse)

/-! ## Section 3: Updating the mapping -/

/-- The first loop of `_do_bulk_mapping_update` on a page that is not resident: it gives
    up its flash copy. -/
def Store.dropCopy (cfg : Settings) (s : Store) (page : Nat) : Store :=
  match (s.cold.cmt page).tPpa with
  | none => s
  | some p => { s with bm := invalidatePage cfg s.bm p, cold := s.cold.setTPpa page none }

/-- The first loop: entries of resident pages are updated and skipped later. -/
def updateResident (cfg : Settings) (s : Store) : List GcNode → Store × List (GcNode × Bool)
  | [] => (s, [])
  | n :: ns =>
    let hit := s.cold.isHit n.lpa
    if hit.1 then
      let s := { s with cold := hit.2 }
      let r := updateResident cfg
        (s.update cfg n.lpa { s.cold.getPte n.lpa with ppa := some n.ppa }) ns
      (r.1, (n, true) :: r.2)
    else
      let r := updateResident cfg (s.dropCopy cfg (dIdx n.lpa)) ns
      (r.1, (n, false) :: r.2)

/-- The second loop: the entries of one page that is not resident are updated
    together (`inner` from the second on), then the page is written back. -/
def updateAbsent (cfg : Settings) (inner : Bool) (s : Store) : List (GcNode × Bool) → Option Store
  | [] => some s
  | (n, skip) :: ns =>
    if !inner && skip then updateAbsent cfg false s ns
    else
      let s := { s with cold := s.cold.relocate n.lpa n.ppa }
      if ns.head?.any fun m => dIdx m.1.lpa = dIdx n.lpa then updateAbsent cfg true s ns
      else (s.writeTpage cfg (dIdx n.lpa)).bind fun s => updateAbsent cfg false s ns

def bulkMappingUpdate (cfg : Settings) (s : Store) (nodes : List GcNode) : Option Store :=
  let (s, marked) := updateResident cfg s (nodes.mergeSort fun a b => a.lpa ≤ b.lpa)
  updateAbsent cfg false s marked

/-! ## Section 4: Data pages -/

/-- The end of `dpage_gc_dvalue`. -/
def retireVictim (cfg : Settings) (s : Store) (target : Nat) : Store :=
  { s with
    bm := changeReserve (trimSegment cfg s.bm target) .data target
    ssd := ssdTrimBlock cfg s.ssd target
    dActive := s.dReserve
    dReserve := some target }

def dpageGc (cfg : Settings) (s : Store) : Option Store := do
  let target ← getGcTarget cfg s.bm .data
  let (bm, items) ← collectPages cfg s.bm (sblkOfft2Ppa cfg target 0) cfg.pps
  let (s, nodes) ← bulkWriteValidItems cfg { s with bm := bm } items
  let s ← bulkMappingUpdate cfg s nodes
  return retireVictim cfg s target

/-- `dp_alloc` before the page is taken. -/
def dSwitch (cfg : Settings) (s : Store) : Option Store :=
  if s.dActive.all (checkFull cfg s.bm) then
    if isGcNeeded s.bm .data then dpageGc cfg s
    else (getActiveSblk cfg s.bm .data).map fun (i, bm) => { s with bm := bm, dActive := some i }
  else some s

def dpAlloc (cfg : Settings) (s : Store) : Option (Nat × Store) := do
  let s ← dSwitch cfg s
  let a ← s.dActive
  let (ppa, bm) := getPageNum cfg s.bm a
  return (ppa, { s with bm := bm })

/-- The store after `demand_create`. -/
def Store.create (cfg : Settings) : Store :=
  { bm := bmInit cfg, ssd := .blank, dActive := none,
    dReserve := some (bmInit cfg).dataPart.sblkRsv, tActive := none,
    tReserve := some (bmInit cfg).mapPart.sblkRsv, cold := .create, content := fun _ => none }

/-! ## Section 5: Evictions -/

/-- The victim of `dftl_cache_list_up`: every fiftieth eviction takes a hot page. -/
def popVictim (c : Cold) : Option (Nat × List HashKv.LruNode) :=
  if (c.popCount + 1) % 50 = 0 then lruPopHot (fun page => (c.cmt page).hitCnt) c.lru
  else lruPop c.lru

/-- The victim leaves the cache. -/
def Cold.unload (c : Cold) (victim : Nat) (lru : List HashKv.LruNode) : Cold :=
  { c.setCmt victim { c.cmt victim with pt := false, lruPtr := none, hitCnt := 0 } with
    lru := lru, popCount := c.popCount + 1, nrCachedTpages := c.nrCachedTpages - 1 }

/-- The eviction of `dftl_cache_list_up`; `true` when the victim was dirty and has
    been written. -/
def Store.evict (cfg : Settings) (s : Store) : Option (Bool × Store) := do
  let (victim, lru) ← popVictim s.cold
  let s := { s with cold := s.cold.unload victim lru }
  if (s.cold.cmt victim).dirty then
    let s ← s.writeTpage cfg victim
    return (true, s)
  else return (false, s)

/-- The end of `dftl_cache_list_up`: the page becomes resident and most recent, on a
    new LRU node, whether or not it has one already. -/
def Cold.makeResident (c : Cold) (page : Nat) : Cold :=
  { c.setCmt page { c.cmt page with
      pt := true, hitCnt := 1, lruPtr := some c.lruNext, isFlying := false } with
    lru := ⟨c.lruNext, page⟩ :: c.lru
    lruNext := c.lruNext + 1
    nrCachedTpages := c.nrCachedTpages + 1 }

/-- `dftl_cache_list_up`. -/
def Store.listUp (cfg : Settings) (s : Store) (lpa : Nat) : Option (Bool × Store) :=
  (if s.cold.isFull cfg then s.evict cfg else some (false, s)).map fun (rc, s) =>
    (rc, { s with cold := s.cold.makeResident (dIdx lpa) })

end AggreKV.BlockSsd
