import AggreKV.Lib.Packing
import AggreKV.HashKv.Cache
import Mathlib.Data.List.Sort

/-! # Page allocation and garbage collection

    `dftl_pg.c`: the allocation of translation and data pages, and the two
    collectors it triggers.

    * A failed read or program that the source ignores has no effect here
      beyond the device state; one that it checks is `none`.
    * `qsort` orders the relocated items by logical address; equal
      addresses, which the source leaves in any order, keep theirs. -/

namespace AggreKV.HashKv

/-! ## Section 1: Translation pages -/

/-- `_do_bulk_read_valid_tpages` over the `n` pages from `ppa`: the pages are
    invalidated, their logical page numbers collected. -/
def collectTpages (cfg : Settings) (ssd : Ssd) (bm : Bm) (ppa : Nat) : Nat → Option (Bm × List Nat)
  | 0 => some (bm, [])
  | n + 1 =>
    if isValidPage bm ppa then
      if ssd.ppaState ppa then
        (collectTpages cfg ssd (invalidatePage cfg bm ppa) (ppa + 1) n).map fun (bm', pages) =>
          (bm', (bm.oob (ppa * 4)).lpa :: pages)
      else none
    else collectTpages cfg ssd bm (ppa + 1) n

/-- One page written by `_do_bulk_write_valid_tpages` into superblock `rsv`. -/
def moveTpage (cfg : Settings) (rsv : Nat) (s : Store) (page : Nat) : Store :=
  let (ppa, bm) := getPageNum cfg s.bm rsv
  { s with
    bm := (validatePage cfg bm ppa).setOob (ppa * 4) ⟨true, page, 4096⟩
    cold := s.cold.setTPpa page (some ppa) }

def tpageGc (cfg : Settings) (s : Store) : Option Store := do
  let target ← getGcTarget cfg s.bm .map 0
  let rsv ← s.tReserve
  let (bm, pages) ← collectTpages cfg s.ssd s.bm (sblkOfft2Ppa cfg target 0) cfg.pps
  let sppa := sblkOfft2Ppa cfg rsv (bm.sblk rsv).wpOfft
  let s := pages.foldl (moveTpage cfg rsv) { s with bm := bm }
  let ssd := (ssdWrite cfg s.ssd sppa pages.length).1
  return { s with
    bm := changeReserve (trimSegment cfg s.bm target) .map target
    ssd := ssdTrimBlock cfg ssd target
    tActive := some rsv
    tReserve := some target }

/-- `tp_alloc` before the page is taken: a missing or full active superblock is
    replaced, by a collection when free superblocks run out. -/
def tSwitch (cfg : Settings) (s : Store) : Option Store :=
  if s.tActive.all (checkFull cfg s.bm) then
    if isGcNeeded cfg s.bm .map then tpageGc cfg s
    else (getActiveSblk cfg s.bm .map).map fun (i, bm) => { s with bm := bm, tActive := some i }
  else some s

def tpAlloc (cfg : Settings) (s : Store) : Option (Nat × Store) := do
  let s ← tSwitch cfg s
  let a ← s.tActive
  let (ppa, bm) := getPageNum cfg s.bm a
  return (ppa, { s with bm := bm })

/-- Writing a translation page back: a new page is allocated, validated and
    programmed, and becomes the flash copy of `page`. -/
def Store.writeTpage (cfg : Settings) (s : Store) (page : Nat) : Option Store :=
  (tpAlloc cfg s).map fun (ppa, s) =>
    { s with
      bm := (validatePage cfg s.bm ppa).setOob (ppa * 4) ⟨true, page, 4096⟩
      ssd := (ssdWrite cfg s.ssd ppa 1).1
      cold := s.cold.written page ppa }

/-! ## Section 2: Collecting live items -/

/-- `gc_bucket_node`. -/
structure GcItem where
  lpa : Nat
  len : Nat
  deriving DecidableEq

structure GcNode where
  lpa : Nat
  ppa : Nat
  len : Nat
  deriving DecidableEq

/-- The grains of one page, `skip` of them already taken: a valid grain starts an
    item of its `oob.length`, whose grains are invalidated. -/
def collectGrains (cfg : Settings) (bm : Bm) (pga skip : Nat) : Nat → Option (Bm × List GcItem)
  | 0 => some (bm, [])
  | n + 1 =>
    match skip with
    | skip + 1 => collectGrains cfg bm (pga + 1) skip n
    | 0 =>
      if bm.validBitmap pga then
        let o := bm.oob pga
        if o.length = 0 ∨ 4 < o.length then none
        else
          (collectGrains cfg (invalidateGrains cfg bm pga o.length) (pga + 1) (o.length - 1)
            n).map fun (bm, items) => (bm, ⟨o.lpa, o.length⟩ :: items)
      else collectGrains cfg bm (pga + 1) 0 n

/-- The first loop of `_do_bulk_write_valid_items`. -/
def collectPages (cfg : Settings) (bm : Bm) : List Nat → Option (Bm × List GcItem)
  | [] => some (bm, [])
  | ppa :: ppas =>
    (collectGrains cfg bm (ppa * 4) 0 4).bind fun (bm, items) =>
      if containsValidGrain bm ppa then none
      else (collectPages cfg bm ppas).map fun (bm, rest) => (bm, items ++ rest)

/-- `_do_bulk_read_pages_containing_valid_grain`. -/
def pagesContainingValidGrain (cfg : Settings) (bm : Bm) (i : Nat) : List Nat :=
  (List.range' (sblkOfft2Ppa cfg i 0) cfg.pps).filter (containsValidGrain bm)

/-! ## Section 3: Writing live items back -/

/-- Validates the grains of an item at `pga` and labels its first one. -/
def placeItem (cfg : Settings) (bm : Bm) (pga lpa len : Nat) : Option Bm :=
  (validateGrains cfg bm pga len).map fun bm => bm.setOob pga ⟨false, lpa, len⟩

/-- The placed items of one packed page. -/
def placeNodes (cfg : Settings) (bm : Bm) (ppa : Nat) :
    List (Placed GcItem) → Option (Bm × List GcNode)
  | [] => some (bm, [])
  | p :: ps =>
    let pga := ppaToPga ppa p.offset
    (placeItem cfg bm pga p.item.lpa p.len).bind fun bm =>
      (placeNodes cfg bm ppa ps).map fun (bm, nodes) => (bm, ⟨p.item.lpa, pga, p.len⟩ :: nodes)

/-- The write loop of the single-stream build: pages of superblock `rsv` are packed
    from the buckets until `todo` items are placed. Returns the number of pages. -/
def packPages (cfg : Settings) (rsv : Nat) (bm : Bm) (b : Buckets GcItem) (todo : Nat) :
    Nat → Option (Bm × List GcNode × Nat)
  | 0 => some (bm, [], 0)
  | fuel + 1 =>
    if todo = 0 then some (bm, [], 0)
    else
      let (ppa, bm) := getPageNum cfg bm rsv
      let (placed, b) := b.fillBin 4
      (placeNodes cfg bm ppa placed).bind fun (bm, nodes) =>
        (packPages cfg rsv bm b (todo - placed.length) fuel).map fun (bm, rest, copied) =>
          (bm, nodes ++ rest, copied + 1)

/-- The buckets after the first loop: the last collected item is on top. -/
def bucketItems (items : List GcItem) : Buckets GcItem :=
  items.foldl (fun b it => b.push it.len it) .empty

/-- `_do_bulk_write_valid_items`, single-stream build. -/
def writeItemsReserve (cfg : Settings) (s : Store) (items : List GcItem) :
    Option (Store × List GcNode) := do
  let rsv ← s.dReserve
  let sppa := sblkOfft2Ppa cfg rsv (s.bm.sblk rsv).wpOfft
  let (bm, nodes, copied) ←
    packPages cfg rsv s.bm (bucketItems items) items.length items.length
  return ({ s with bm := bm, ssd := (ssdWrite cfg s.ssd sppa copied).1 }, nodes)

/-- The variables of the write loop of the segregated build: the local `ppa`, and
    the open segment `[sppa, last_ppa]`. -/
structure GcCursor where
  ppa : Nat
  seg : Option (Nat × Nat)

/-- Opening a page of stream `idx` in the write loop. -/
def gcOpenPage (cfg : Settings) (idx : Nat) (s : Store) (cur : GcCursor) :
    Option (Store × GcCursor) := do
  let (a, bm) ← getStreamSblk cfg s.bm idx
  let (ppa, bm) := getPageNum cfg bm a
  let bm := bm.setStream idx { bm.stream idx with
    activeSblkOffset := (bm.sblk a).wpOfft, activePpa := ppa, grainRemain := 4 }
  match cur.seg with
  | none => return ({ s with bm := bm }, ⟨ppa, some (ppa, ppa)⟩)
  | some (sppa, last) =>
    if ppa = last + 1 then return ({ s with bm := bm }, ⟨ppa, some (sppa, ppa)⟩)
    else
      let (ssd, ok) := ssdWrite cfg s.ssd sppa (last - sppa + 1)
      if ok then return ({ s with bm := bm, ssd := ssd }, ⟨ppa, some (ppa, ppa)⟩) else none

/-- Placing one item in the open page: every item is written with length 1. -/
def gcPlace (cfg : Settings) (idx : Nat) (s : Store) (cur : GcCursor) (it : GcItem) :
    Option (Store × GcNode) :=
  let st := s.bm.stream idx
  let pga := ppaToPga cur.ppa (sub32 4 st.grainRemain)
  let bm := s.bm.setStream idx { st with grainRemain := sub32 st.grainRemain 1 }
  (placeItem cfg bm pga it.lpa 1).map fun bm => ({ s with bm := bm }, ⟨it.lpa, pga, 1⟩)

/-- The page of the next item. A page of the stream that is still open is continued,
    at the local `ppa`. -/
def gcPage (cfg : Settings) (idx : Nat) (s : Store) (cur : GcCursor) : Option (Store × GcCursor) :=
  if (s.bm.stream idx).grainRemain = 0 then gcOpenPage cfg idx s cur else some (s, cur)

/-- The write loop of the segregated build. -/
def gcWriteLoop (cfg : Settings) (idx : Nat) (s : Store) (cur : GcCursor) :
    List GcItem → Option (Store × GcCursor × List GcNode)
  | [] => some (s, cur, [])
  | it :: items => do
    let (s, cur) ← gcPage cfg idx s cur
    let (s, node) ← gcPlace cfg idx s cur it
    let (s, cur, nodes) ← gcWriteLoop cfg idx s cur items
    return (s, cur, node :: nodes)

/-- `_do_bulk_write_valid_items`, segregated build: the items go to the stream that
    wrote the victim. -/
def writeItemsStream (cfg : Settings) (s : Store) (target : Nat) (items : List GcItem) :
    Option (Store × List GcNode) := do
  let idx := match (s.bm.sblk target).streamIdx with
    | some i => if i < 8 then i else 0
    | none => 0
  let (s, cur, nodes) ← gcWriteLoop cfg idx s ⟨0, none⟩ items
  match cur.seg with
  | none => return (s, nodes)
  | some (sppa, last) =>
    let (ssd, ok) := ssdWrite cfg s.ssd sppa (last - sppa + 1)
    if ok then return ({ s with ssd := ssd }, nodes) else none

/-! ## Section 4: Updating the mapping -/

/-- The first loop of `_do_bulk_mapping_update`: entries of resident pages are
    updated and skipped later, other pages give up their flash copy. -/
def updateResident (cfg : Settings) (s : Store) : List GcNode → Store × List (GcNode × Bool)
  | [] => (s, [])
  | n :: ns =>
    let hit := s.cold.isHit cfg n.lpa
    let s := { s with cold := hit.2 }
    if hit.1 then
      let s := s.update cfg n.lpa { s.cold.getPte n.lpa with ppa := some n.ppa }
      let r := updateResident cfg s ns
      (r.1, (n, true) :: r.2)
    else
      let s := match (s.cold.cmt (dIdx n.lpa)).tPpa with
        | none => s
        | some p =>
          { s with
            bm := invalidatePage cfg s.bm p
            cold := s.cold.setTPpa (dIdx n.lpa) none }
      let r := updateResident cfg s ns
      (r.1, (n, false) :: r.2)

/-- The second loop: the entries of one page that is not resident are updated
    together (`inner` from the second on), then the page is written back. -/
def updateAbsent (cfg : Settings) (inner : Bool) (s : Store) : List (GcNode × Bool) → Option Store
  | [] => some s
  | (n, skip) :: ns =>
    if !inner && skip then updateAbsent cfg false s ns
    else
      let page := dIdx n.lpa
      let s := { s with cold := s.cold.relocate n.lpa n.ppa }
      if ns.head?.any fun m => dIdx m.1.lpa = page then updateAbsent cfg true s ns
      else (s.writeTpage cfg page).bind fun s => updateAbsent cfg false s ns

def bulkMappingUpdate (cfg : Settings) (s : Store) (nodes : List GcNode) : Option Store :=
  let (s, marked) := updateResident cfg s (nodes.mergeSort fun a b => a.lpa ≤ b.lpa)
  updateAbsent cfg false s marked

/-! ## Section 5: Data pages -/

/-- What `dpage_gc_dvalue` does to the victim after the mapping update. -/
def retireVictim (cfg : Settings) (s : Store) (target : Nat) : Store :=
  let bm := trimSegment cfg s.bm target
  let s := { s with ssd := ssdTrimBlock cfg s.ssd target }
  if cfg.dataSegregation then
    let b := { bm.sblk target with isOwned := false, streamIdx := none }
    let pt := bm.dataPart
    -- A pool that holds its eight superblocks gives the victim back to the free pool.
    if pt.rsvSblkCnt < 8 then
      { s with
        bm := (bm.setSblk target { b with isRsv := true }).setPart .data
          { pt with rsvSblkCnt := pt.rsvSblkCnt + 1 } }
    else
      { s with
        bm := (bm.setSblk target { b with isRsv := false }).setPart .data
          { pt with freeSblkCnt := pt.freeSblkCnt + 1 } }
  else
    { s with
      bm := changeReserve bm .data target
      dActive := s.dReserve
      dReserve := some target }

/-- `_do_bulk_write_valid_items` after the items are collected. -/
def writeItems (cfg : Settings) (s : Store) (target : Nat) (pages : List Nat)
    (items : List GcItem) : Option (Store × List GcNode) :=
  if pages = [] then some (s, [])
  else if cfg.dataSegregation then writeItemsStream cfg s target items
  else writeItemsReserve cfg s items

def dpageGc (cfg : Settings) (s : Store) (streamIdx : Nat) : Option Store := do
  let target ← getGcTarget cfg s.bm .data streamIdx
  let pages := pagesContainingValidGrain cfg s.bm target
  let (bm, items) ← collectPages cfg s.bm pages
  let (s, nodes) ← writeItems cfg { s with bm := bm } target pages items
  let s ← bulkMappingUpdate cfg s nodes
  return retireVictim cfg s target

/-- `dp_alloc` before the page is taken, single-stream build. -/
def dSwitch (cfg : Settings) (s : Store) : Option Store :=
  if s.dActive.all (checkFull cfg s.bm) then
    if isGcNeeded cfg s.bm .data then dpageGc cfg s 0
    else (getActiveSblk cfg s.bm .data).map fun (i, bm) => { s with bm := bm, dActive := some i }
  else some s

/-- The collection of `dp_alloc` before stream `idx` gets a page. -/
def streamGc (cfg : Settings) (s : Store) (idx a : Nat) : Option Store :=
  if checkFull cfg s.bm a && isGcNeeded cfg s.bm .data then dpageGc cfg s idx else some s

def dpAlloc (cfg : Settings) (s : Store) (streamIdx : Nat) : Option (Nat × Store) :=
  if cfg.dataSegregation then do
    let a ← (s.bm.stream streamIdx).activeSblk
    let s ← streamGc cfg s streamIdx a
    let (i, bm) ← getStreamSblk cfg s.bm streamIdx
    let (ppa, bm) := getPageNum cfg bm i
    return (ppa, { s with bm := bm, dActive := some i })
  else do
    let s ← dSwitch cfg s
    let a ← s.dActive
    let (ppa, bm) := getPageNum cfg s.bm a
    return (ppa, { s with bm := bm })

/-- The store after `demand_create`. -/
def Store.create (cfg : Settings) : Option Store :=
  (bmInit cfg).map fun bm =>
    { bm := bm, ssd := .blank, dActive := none,
      dReserve := if cfg.dataSegregation then none else some bm.dataPart.sblkRsv,
      tActive := none, tReserve := some bm.mapPart.sblkRsv,
      cold := .create cfg, hot := .create cfg }

end AggreKV.HashKv
