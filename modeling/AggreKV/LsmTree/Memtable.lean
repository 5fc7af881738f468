import AggreKV.LsmTree.Pipe
import AggreKV.LsmTree.PageManager
import AggreKV.Lib.Packing

/-! # Memtable

    The skiplist functions of `skiplist.c` that `lsm_set`, `lsm_get` and the
    flush use, and `compaction_check`.

    * A skiplist is its level 1 list; the towers above it only shorten the
      searches, whose results are positions of that list.
    * `size` and `all_length` are the length and the key bytes of the list:
      every function changes them by what it adds to or cuts from it.
    * Contents of values do not matter, their lengths do; a value set has at
      least one piece, since `inf_get_valueset` refuses length 0. -/

namespace AggreKV.LsmTree

/-! ## Section 1: The list -/

/-- `snode`; `value` is the length of the value set in pieces. -/
structure Snode where
  key : Key
  ppa : Nat
  value : Option Nat
  deriving DecidableEq

abbrev Skiplist := List Snode

/-- `all_length`. -/
def allLength (l : Skiplist) : Nat := (l.map fun n => keyLen n.key).sum

/-- `skiplist_find`: the first node not below the key, if it has the key. -/
def skiplistFind : Skiplist → Key → Option Snode
  | [], _ => none
  | n :: l, key =>
      if keyCmp n.key key = .lt then skiplistFind l key
      else if keyTest n.key key then some n else none

/-- The length of a value in pieces, as `skiplist_insert` rounds it. -/
def toPieces (bytes : Nat) : Nat := bytes / 512 + if bytes % 512 ≠ 0 then 1 else 0

/-- `skiplist_insert`: a key that is there gets the new value. -/
def skiplistInsert (key : Key) (bytes : Nat) : Skiplist → Option Skiplist
  | [] => if keyValCheck key then some [⟨key, 4294967295, some (toPieces bytes)⟩] else none
  | n :: l =>
      if keyCmp n.key key = .lt then (skiplistInsert key bytes l).map (n :: ·)
      else if keyTest key n.key then some ({ n with value := some (toPieces bytes) } :: l)
      else if keyValCheck key then
        some (⟨key, 4294967295, some (toPieces bytes)⟩ :: n :: l)
      else none

/-! ## Section 2: Cutting off headers -/

/-- `FLUSH_CHECK_NUM`. -/
def flushCheckNum : Nat := 64

/-- `size_limit` and `num_limit` of `skiplist_cutting_header`. -/
def sizeLimit : Nat := 4096 - 1024

def numLimit : Nat := 1024 / 2 - 2

/-- The key the loop looks ahead to: after the last node that is the header's, `key_max`. -/
def nextKeyLen : Skiplist → Nat
  | [] => keyLen keyMax
  | n :: _ => keyLen n.key

/-- How many nodes the loop takes, with `length` and `idx` of those before. -/
def cutCount (length idx : Nat) : Skiplist → Nat
  | [] => idx
  | n :: l =>
      let length := length + keyLen n.key
      if sizeLimit ≤ length + nextKeyLen l ∨ numLimit ≤ idx + 1 then idx + 1
      else cutCount length (idx + 1) l

/-- `skiplist_cutting_header`: the cut list and the rest, or `none` when the
    list itself is returned. -/
def skiplistCuttingHeader (l : Skiplist) : Option (Skiplist × Skiplist) :=
  if allLength l < sizeLimit ∧ l.length < numLimit then none
  else
    let idx := cutCount 0 0 l
    some (l.take idx, l.drop idx)

/-- The headers cut one after the other, and what stays. -/
def cutHeaders : Nat → Skiplist → List Skiplist × Skiplist
  | 0, l => ([], l)
  | n + 1, l =>
      match skiplistCuttingHeader l with
      | none => ([], l)
      | some (t, rest) =>
          let r := cutHeaders n rest
          (t :: r.1, r.2)

/-- `compaction_check`: the lists handed over, and the memtable after it. A cut
    takes a node, so the length of the list is enough fuel. -/
def compactionCheck (l : Skiplist) : List Skiplist × Skiplist :=
  if l.length < flushCheckNum then ([], l) else cutHeaders l.length l

/-! ## Section 3: Writing the values of a cut list -/

/-- The buckets of `skiplist_make_valueset`, by length in pieces. -/
def valueBuckets (l : Skiplist) : Buckets Key :=
  l.foldl (fun b n => match n.value with
    | none => b
    | some len => b.push len n.key) Buckets.empty

theorem valueBuckets_append_none (l : Skiplist) {n : Snode} (h : n.value = none) :
    valueBuckets (l ++ [n]) = valueBuckets l := by
  unfold valueBuckets
  rw [List.foldl_append, List.foldl_cons, List.foldl_nil, h]

theorem valueBuckets_append_some (l : Skiplist) {n : Snode} {len : Nat} (h : n.value = some len) :
    valueBuckets (l ++ [n]) = (valueBuckets l).push len n.key := by
  unfold valueBuckets
  rw [List.foldl_append, List.foldl_cons, List.foldl_nil, h]

def setPpa (l : Skiplist) (key : Key) (ppa : Nat) : Skiplist :=
  l.map fun n => if n.key = key then { n with ppa := ppa } else n

/-- Where a value lies: its page, and its length in pieces. -/
structure Home where
  page : Nat
  pieces : Nat
  deriving DecidableEq

/-- The state of the allocator the flush works on; `home` is a ghost, the
    place of the value written last for each key. -/
structure Flash where
  env : Env
  page : Page
  home : Key → Option Home

def Flash.getPage (cfg : Settings) (f : Flash) : Option (Nat × Flash) :=
  (LsmTree.getPage cfg f.env f.page .data).map fun (ppa, e, page) => (ppa, ⟨e, page, f.home⟩)

def Flash.setOob (f : Flash) (ppa : Nat) (o : Oob) : Flash := { f with env := f.env.setOob ppa o }

def Flash.note (f : Flash) (key : Key) (h : Home) : Flash :=
  { f with home := Function.update f.home key (some h) }

/-- The test `piece_oob[ppa].isvalid == -1` on a `bool`. -/
def oobIsInvalid (o : Oob) : Bool := decide ((if o.isvalid then (1 : Int) else 0) = -1)

/-- Values of a whole page, in the order of their bucket: the two statements
    meant to set their `piece_oob` are comparisons. -/
def writeFullPages (cfg : Settings) : List Key → Skiplist → Flash → Option (Skiplist × Flash)
  | [], l, f => some (l, f)
  | k :: ks, l, f =>
      (f.getPage cfg).bind fun (ppa, f) =>
        if oobIsInvalid (f.env.pieceOob ppa) then none
        else writeFullPages cfg ks
          (l.map fun n => if n.key = k then { n with ppa := ppa, value := none } else n)
          (f.note k ⟨ppa, 8⟩)

/-- The nodes placed on page `page`: `start_ppa` is shadowed by the block that
    allocates, so each gets address 0 and writes the `piece_oob` of it. -/
def placeValues (page : Nat) : List (Placed Key) → Skiplist → Flash → Option (Skiplist × Flash)
  | [], l, f => some (l, f)
  | p :: ps, l, f =>
      if oobIsInvalid (f.env.pieceOob 0) then none
      else placeValues page ps (setPpa l p.item 0)
        ((f.setOob 0 ⟨true, p.len⟩).note p.item ⟨page, p.len⟩)

/-- The longest value of the buckets below a page. -/
def maxPiece (b : Buckets Key) : Nat := b.target 7

/-- `variable_value2Page`, one page an iteration; a page takes at least one
    value, so the number of nodes is enough fuel. -/
def variableValue2Page (cfg : Settings) (maxLen : Nat) :
    Nat → Buckets Key → Skiplist → Flash → Option (Skiplist × Flash)
  | 0, _, l, f => some (l, f)
  | n + 1, b, l, f =>
      (f.getPage cfg).bind fun (ppa, f) =>
        if oobIsInvalid (f.env.pieceOob ppa) then none
        else
          let r := b.fillBin 8
          (placeValues ppa r.1 l (f.setOob ppa ⟨true, maxLen⟩)).bind fun (l, f) =>
            if (r.2.upTo 8).isEmpty then some (l, f)
            else variableValue2Page cfg maxLen n r.2 l f

/-- `skiplist_make_valueset`, as far as it changes nodes and `bm_env`. -/
def skiplistMakeValueset (cfg : Settings) (l : Skiplist) (f : Flash) :
    Option (Skiplist × Flash) :=
  if l.any fun n => n.value.any fun len => decide (8 < len) then none
  else
    let b := valueBuckets l
    (writeFullPages cfg (b 8).reverse l f).bind fun (l, f) =>
      let b : Buckets Key := Function.update b 8 []
      if (b.upTo 7).isEmpty then some (l, f)
      else variableValue2Page cfg (maxPiece b) l.length b l f

end AggreKV.LsmTree
