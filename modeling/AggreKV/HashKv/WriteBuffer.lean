import AggreKV.Lib.SortedInsert
import AggreKV.HashKv.ListUp

/-! # Write buffer

    The write buffer of `dftl_wb.c`: insertion, the assignment of data
    pages, one pass of the mapping update over an entry, and the flush.

    * The skiplist is the list of its entries in key order.
    * The loops over a batch are steps of the machine of `System.lean`;
      here is what one iteration does. -/

namespace AggreKV.HashKv

/-! ## Section 1: Entries -/

/-- `jump_t`. -/
inductive Jump where
  | load
  | list
  | evict
  | complete
  | read
  | write
  | update
  deriving DecidableEq

/-- `snode`; `bytes` is the length of the value. -/
structure WbEntry where
  key : Key
  bytes : Nat
  hParams : HashParams
  ppa : Option Nat
  params : Option Jump
  deriving DecidableEq

/-- The grains of an entry: value, key and two length fields. -/
def valLen (key : Key) (bytes : Nat) : Nat :=
  let n := bytes + 1 + 4 + key.len
  n / 1024 + if n % 1024 ≠ 0 then 1 else 0

def WbEntry.valLen (e : WbEntry) : Nat := HashKv.valLen e.key e.bytes

/-- `skiplist_insert`: a present key gets the new value and hash parameters. -/
def wbInsert (key : Key) (bytes : Nat) (hp : HashParams) : List WbEntry → List WbEntry
  | [] => [⟨key, bytes, hp, none, none⟩]
  | x :: xs =>
    if keycmp x.key key < 0 then x :: wbInsert key bytes hp xs
    else if x.key = key then { x with bytes := bytes, hParams := hp } :: xs
    else ⟨key, bytes, hp, none, none⟩ :: x :: xs

/-- The order of the skiplist. -/
instance : IsStrictTotalOrder Key fun a b => keycmp a b < 0 where
  trichotomous a b hab hba := by
    by_contra hne
    exact hba (keycmp_total hab hne)
  irrefl k := by
    rw [keycmp_self]
    decide
  trans _ _ _ := keycmp_trans

/-- The skiplist is a list in key order. -/
theorem wbInsert_eq (key : Key) (bytes : Nat) (hp : HashParams) (wb : List WbEntry) :
    wbInsert key bytes hp wb = sortedInsert WbEntry.key (fun a b => keycmp a b < 0) key
      (fun x => { x with bytes := bytes, hParams := hp }) ⟨key, bytes, hp, none, none⟩ wb := by
  induction wb with
  | nil => rfl
  | cons x xs ih =>
    unfold wbInsert sortedInsert
    rw [ih]

/-- `skiplist_find`. -/
def wbFind (key : Key) (wb : List WbEntry) : Bool :=
  (wb.dropWhile fun x => keycmp x.key key < 0).head?.any fun x => x.key = key

/-- Setting `wb_entry->ppa` in the skiplist. -/
def wbSetPpa (wb : List WbEntry) (key : Key) (ppa : Nat) : List WbEntry :=
  wb.map fun x => if x.key = key then { x with ppa := some ppa } else x

/-! ## Section 2: Flush lists -/

/-- `flush_node`: `length` pages from `ppa`. -/
structure FlushNode where
  ppa : Nat
  length : Nat
  deriving DecidableEq

/-- Appends a page to a flush list, extending its last segment if `joined`. -/
def flushAppend (fl : List FlushNode) (ppa : Nat) (joined : FlushNode → Bool) : List FlushNode :=
  match fl.getLast? with
  | some nd =>
    if joined nd then fl.dropLast ++ [{ nd with length := nd.length + 1 }]
    else fl ++ [⟨ppa, 1⟩]
  | none => [⟨ppa, 1⟩]

/-- `_do_wb_flush` of one list; a refused program aborts. -/
def flushSegs (cfg : Settings) (ssd : Ssd) : List FlushNode → Option Ssd
  | [] => some ssd
  | nd :: fl =>
    if nd.ppa = 0 then flushSegs cfg ssd fl
    else
      let (ssd, ok) := ssdWrite cfg ssd nd.ppa nd.length
      if ok then flushSegs cfg ssd fl else none

/-! ## Section 3: Assigning data pages -/

/-- The page of stream `idx` for the next entry, segregated build: a new page, put
    on the flush list of the stream, or the open one, which is not. -/
def assignPage (cfg : Settings) (s : Store) (fl : Nat → List FlushNode) (idx : Nat) :
    Option (Store × (Nat → List FlushNode) × Nat) :=
  if (s.bm.stream idx).grainRemain = 0 then do
    let (ppa, s) ← dpAlloc cfg s idx
    let a ← (s.bm.stream idx).activeSblk
    let bm := s.bm.setStream idx { s.bm.stream idx with
      activeSblkOffset := (s.bm.sblk a).wpOfft, activePpa := ppa, grainRemain := 4,
      flushPpa := ppa, flushPage := 1 }
    return ({ s with bm := bm },
      Function.update fl idx (flushAppend (fl idx) ppa fun nd => ppa = nd.ppa + nd.length), ppa)
  else
    let st := s.bm.stream idx
    some ({ s with bm := s.bm.setStream idx { st with flushPage := st.flushPage + 1 } },
      fl, st.activePpa)

/-- `_do_wb_assign_ppa` for one entry in the segregated build. -/
def assignEntry (cfg : Settings) (s : Store) (fl : Nat → List FlushNode) (e : WbEntry) :
    Option (Store × (Nat → List FlushNode) × Nat) := do
  let lpa := getLpa cfg e.hParams
  let idx := dIdx lpa % 8
  let (s, fl, ppa) ← assignPage cfg s fl idx
  let st := s.bm.stream idx
  let pga := ppaToPga ppa (sub32 4 st.grainRemain)
  let bm := s.bm.setStream idx { st with grainRemain := sub32 st.grainRemain e.valLen }
  let bm ← placeItem cfg bm pga lpa e.valLen
  return ({ s with bm := bm }, fl, pga)

/-- The entries packed into one page: grains are validated, the `oob` gets the
    length and the provisional address 0. -/
def placeEntries (cfg : Settings) (bm : Bm) (wb : List WbEntry) (ppa : Nat) :
    List (Placed WbEntry) → Option (Bm × List WbEntry)
  | [] => some (bm, wb)
  | p :: ps =>
    let pga := ppaToPga ppa p.offset
    (placeItem cfg bm pga 0 p.len).bind fun bm =>
      placeEntries cfg bm (wbSetPpa wb p.item.key pga) ppa ps

/-- The buckets of `_do_wb_assign_ppa`; the last entry is on top. -/
def bucketEntries (wb : List WbEntry) : Buckets WbEntry :=
  wb.foldl (fun b e => b.push e.valLen e) .empty

/-! ## Section 4: One pass of the mapping update -/

/-- `d_htable`: the logical slots inserted in each bucket. -/
abbrev DHtable := Nat → List Nat

def dHtableInsert (cfg : Settings) (ht : DHtable) (ppa lpa : Nat) : DHtable :=
  let i := ppa % (cfg.maxWriteBuf * 2)
  Function.update ht i (ht i ++ [lpa])

def dHtableFind (cfg : Settings) (ht : DHtable) (ppa lpa : Nat) : Bool :=
  (ht (ppa % (cfg.maxWriteBuf * 2))).contains lpa

/-- How a pass leaves an entry: back to `wb_retry`, into the retry queue, or on to
    `wb_update` or `wb_direct_update`. -/
inductive WbExit where
  | again (e : WbEntry)
  | parked (e : WbEntry)
  | update (e : WbEntry)
  | directUpdate (e : WbEntry)

/-- `wb_data_check`. -/
def wbDataCheck (cfg : Settings) (realKeys : Nat → Key) (ht : DHtable) (s : Store) (e : WbEntry)
    (lpa : Nat) : WbExit :=
  let pte := s.cold.getPte lpa
  match pte.ppa with
  | none => .directUpdate e
  | some ppa =>
    if e.hParams.keyFp ≠ pte.keyFp then .again { e with hParams := e.hParams.next }
    else if dHtableFind cfg ht ppa lpa then .again { e with hParams := e.hParams.next }
    else if keycmp e.key (realKeys lpa) = 0 then .parked { e with params := some .update }
    else .parked { e with hParams := e.hParams.next }

/-- `wb_cache_list_up`. -/
def wbCacheListUp (cfg : Settings) (realKeys : Nat → Key) (ht : DHtable) (s : Store) (e : WbEntry)
    (lpa : Nat) (choice : Rebalance) : Option (Store × WbExit) :=
  (s.listUp cfg lpa choice).map fun (rc, s) =>
    if rc then (s, .parked { e with params := some .complete })
    else (s, wbDataCheck cfg realKeys ht s e lpa)

/-- `wb_cache_load`. -/
def wbCacheLoad (cfg : Settings) (realKeys : Nat → Key) (ht : DHtable) (s : Store) (e : WbEntry)
    (lpa : Nat) (choice : Rebalance) : Option (Store × WbExit) :=
  match s.load lpa with
  | some s => some (s, .parked { e with params := some .list })
  | none => wbCacheListUp cfg realKeys ht s e lpa choice

/-- The hot-table lookups of a write at probe count 0: they only move heat. -/
def wbHotAccess (cfg : Settings) (s : Store) (e : WbEntry) (lpa : Nat) : Store :=
  if cfg.hotCmt ∧ e.hParams.cnt = 0 then
    let (slot, hot) := s.hot.isHit cfg lpa
    let cold := match slot with
      | some i =>
        if e.hParams.keyFp = (hot.memTable i).keyFp then s.cold.coldGrainAccess lpa else s.cold
      | none => s.cold
    { s with hot := (hot.isHit cfg lpa).2, cold := cold }
  else s

/-- One pass from `wb_retry`. -/
def wbPass (cfg : Settings) (realKeys : Nat → Key) (ht : DHtable) (s : Store) (e : WbEntry)
    (choice : Rebalance) : Option (Store × WbExit) :=
  if 1024 < e.hParams.cnt then none
  else
    let lpa := getLpa cfg e.hParams
    match e.params with
    | some jump =>
      let e := { e with params := none }
      match jump with
      | .load => wbCacheLoad cfg realKeys ht s e lpa choice
      | .list => wbCacheListUp cfg realKeys ht s e lpa choice
      | .complete => some (s, wbDataCheck cfg realKeys ht s e lpa)
      | .update => some (s, .update e)
      | _ => none
    | none =>
      let s := wbHotAccess cfg s e lpa
      let hit := s.cold.isHit cfg lpa
      if hit.1 then
        let s := { s with cold := hit.2.touch cfg lpa }
        some (s, wbDataCheck cfg realKeys ht s e lpa)
      else wbCacheLoad cfg realKeys ht s e lpa choice

/-- `wb_update`: the grains of the old value are invalidated. -/
def wbInvalidateOld (cfg : Settings) (s : Store) (lpa : Nat) : Store :=
  match (s.cold.getPte lpa).ppa with
  | some p => { s with bm := invalidateGrains cfg s.bm p (s.bm.oob p).length }
  | none => s

theorem wbInvalidateOld_hot (cfg : Settings) (s : Store) (lpa : Nat) :
    (wbInvalidateOld cfg s lpa).hot = s.hot := by
  unfold wbInvalidateOld
  split <;> rfl

theorem wbInvalidateOld_cold (cfg : Settings) (s : Store) (lpa : Nat) :
    (wbInvalidateOld cfg s lpa).cold = s.cold := by
  unfold wbInvalidateOld
  split <;> rfl

/-- `wb_direct_update` on the store: the new mapping entry, then its `oob`. -/
def wbInstall (cfg : Settings) (s : Store) (lpa ppa : Nat) (keyFp : UInt32) : Store :=
  let s := s.update cfg lpa ⟨some ppa, keyFp⟩
  { s with bm := s.bm.setOob ppa { s.bm.oob ppa with lpa := lpa } }

end AggreKV.HashKv
