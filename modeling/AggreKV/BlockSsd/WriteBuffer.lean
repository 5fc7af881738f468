import AggreKV.Lib.SortedInsert
import AggreKV.BlockSsd.Page
import AggreKV.HashKv.WriteBuffer

/-! # Write buffer of the block SSD

    `dftl_wb.c` of `block_ssd`: insertion, the assignment of data pages,
    one pass of the mapping update over an entry.

    * The skiplist is the list of its entries in key order.
    * A value is named by the set request that brought it. -/

namespace AggreKV.BlockSsd

open HashKv (Jump FlushNode dIdx flushAppend)

/-! ## Section 1: Entries -/

/-- `snode`; `value` is the set request whose value it holds. -/
structure WbEntry where
  key : Key
  value : Nat
  hParams : HashParams
  ppa : Option Nat
  params : Option Jump
  deriving DecidableEq

/-- The pages of an entry: value, key and two length fields. -/
def valLen (key : Key) (bytes : Nat) : Nat :=
  let n := bytes + 1 + 4 + key.len
  n / 4096 + if n % 4096 ≠ 0 then 1 else 0

/-- `skiplist_insert`: a present key gets the new value and hash parameters. -/
def wbInsert (key : Key) (value : Nat) (hp : HashParams) : List WbEntry → List WbEntry
  | [] => [⟨key, value, hp, none, none⟩]
  | x :: xs =>
    if keycmp x.key key < 0 then x :: wbInsert key value hp xs
    else if x.key = key then { x with value := value, hParams := hp } :: xs
    else ⟨key, value, hp, none, none⟩ :: x :: xs

/-- The order of the skiplist. -/
instance : IsStrictTotalOrder Key fun a b => keycmp a b < 0 where
  trichotomous a b hab hba := by
    by_contra hne
    exact hba (HashKv.keycmp_total hab fun he => hne (Key.wide_inj.mp he))
  irrefl k := by
    rw [keycmp_eq_zero.mpr rfl]
    decide
  trans _ _ _ := HashKv.keycmp_trans

/-- The skiplist is a list in key order. -/
theorem wbInsert_eq (key : Key) (value : Nat) (hp : HashParams) (wb : List WbEntry) :
    wbInsert key value hp wb = sortedInsert WbEntry.key (fun a b => keycmp a b < 0) key
      (fun x => { x with value := value, hParams := hp }) ⟨key, value, hp, none, none⟩ wb := by
  induction wb with
  | nil => rfl
  | cons x xs ih =>
    unfold wbInsert sortedInsert
    rw [ih]

/-- `skiplist_find`. -/
def wbFind (key : Key) (wb : List WbEntry) : Bool :=
  (wb.dropWhile fun x => keycmp x.key key < 0).head?.any fun x => x.key = key

/-- Setting `wb_entry->ppa` in the skiplist. -/
def wbSetPpa (wb : List WbEntry) (key : Key) (ppa : Nat) : List WbEntry :=
  wb.map fun x => if x.key = key then { x with ppa := some ppa } else x

/-- One page of `_do_wb_assign_ppa`: a page is allocated for entry `e`, validated and
    labelled with length 1 and the provisional address 0. -/
def assignEntry (cfg : Settings) (s : Store) (e : WbEntry) : Option (Nat × Store) := do
  let (ppa, s) ← dpAlloc cfg s
  let bm ← placePage cfg s.bm ppa 0
  return (ppa, { s with bm := bm, content := Function.update s.content ppa (some e.value) })

/-! ## Section 2: One pass of the mapping update -/

/-- `d_htable`: the logical slots inserted in each bucket. -/
abbrev DHtable := Nat → List Nat

def dHtableInsert (cfg : Settings) (ht : DHtable) (ppa lpa : Nat) : DHtable :=
  let i := ppa % (cfg.maxWriteBuf * 2)
  Function.update ht i (ht i ++ [lpa])

def dHtableFind (cfg : Settings) (ht : DHtable) (ppa lpa : Nat) : Bool :=
  (ht (ppa % (cfg.maxWriteBuf * 2))).contains lpa

/-- How a pass leaves an entry: back to `wb_retry`, into the retry queue, or on to
    `wb_update` or `wb_direct_update`. -/
inductive WbExit where
  | again (e : WbEntry)
  | parked (e : WbEntry)
  | update (e : WbEntry)
  | directUpdate (e : WbEntry)

/-- `wb_data_check`. Without `UPDATE_DATA_CHECK` an entry that passes is updated
    at once. -/
def wbDataCheck (cfg : Settings) (ht : DHtable) (s : Store) (e : WbEntry) (lpa : Nat) : WbExit :=
  let pte := s.cold.getPte lpa
  match pte.ppa with
  | none => .directUpdate e
  | some ppa =>
    if e.hParams.keyFp ≠ pte.keyFp then .again { e with hParams := e.hParams.next }
    else if dHtableFind cfg ht ppa lpa then .again { e with hParams := e.hParams.next }
    else .update e

/-- `wb_cache_list_up`. -/
def wbCacheListUp (cfg : Settings) (ht : DHtable) (s : Store) (e : WbEntry) (lpa : Nat) :
    Option (Store × WbExit) :=
  (s.listUp cfg lpa).map fun (rc, s) =>
    if rc then (s, .parked { e with params := some .complete })
    else (s, wbDataCheck cfg ht s e lpa)

/-- `wb_cache_load`. -/
def wbCacheLoad (cfg : Settings) (ht : DHtable) (s : Store) (e : WbEntry) (lpa : Nat) :
    Option (Store × WbExit) :=
  match s.load lpa with
  | some s => some (s, .parked { e with params := some .list })
  | none => wbCacheListUp cfg ht s e lpa

/-- One pass from `wb_retry`. -/
def wbPass (cfg : Settings) (ht : DHtable) (s : Store) (e : WbEntry) : Option (Store × WbExit) :=
  if 1024 < e.hParams.cnt then none
  else
    let lpa := getLpa e.key
    match e.params with
    | some jump =>
      let e := { e with params := none }
      match jump with
      | .load => wbCacheLoad cfg ht s e lpa
      | .list => wbCacheListUp cfg ht s e lpa
      | .complete => some (s, wbDataCheck cfg ht s e lpa)
      | .update => some (s, .update e)
      | _ => none
    | none =>
      let hit := s.cold.isHit lpa
      if hit.1 then
        let s := { s with cold := hit.2.touch lpa }
        some (s, wbDataCheck cfg ht s e lpa)
      else wbCacheLoad cfg ht s e lpa

/-- `wb_update`: the page of the old value is invalidated. -/
def wbInvalidateOld (cfg : Settings) (s : Store) (lpa : Nat) : Store :=
  match (s.cold.getPte lpa).ppa with
  | some p => { s with bm := invalidateGrains cfg s.bm p (s.bm.oob p).length }
  | none => s

/-- `wb_direct_update` on the store: the new mapping entry, then its `oob`. -/
def wbInstall (cfg : Settings) (s : Store) (lpa ppa : Nat) (keyFp : UInt32) : Store :=
  let s := s.update cfg lpa ⟨some ppa, keyFp⟩
  { s with bm := s.bm.setOob ppa { s.bm.oob ppa with lpa := lpa } }

/-- `_do_wb_flush` of the flush list. -/
def flushSegs (cfg : Settings) (ssd : Ssd) : List FlushNode → Ssd
  | [] => ssd
  | nd :: fl =>
    if nd.ppa = 0 then flushSegs cfg ssd fl
    else flushSegs cfg (ssdWrite cfg ssd nd.ppa nd.length) fl

end AggreKV.BlockSsd
