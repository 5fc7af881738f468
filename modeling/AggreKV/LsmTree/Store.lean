import AggreKV.LsmTree.Level
import Mathlib.Algebra.Order.Floor.Semiring

/-! # The LSM store

    `lsm_create`, `lsm_set`, `compaction_main` with `compaction_cascading`,
    and `invalidate_PPA`.

    * A step is one request with its compactions run to completion.
    * `values`, `superseded` and `invalidated` are ghosts: the place of the
      value each level has for a key, the values a merge found a newer version
      of, and the addresses given to `invalidate_PPA`.
    * Pages of the MAP partition, where runs below `LEVELCACHING` are written,
      are not allocated here: no other part of the state depends on them. -/

namespace AggreKV.LsmTree

/-! ## Section 1: State -/

/-- A superseded value: the address its level had for it, and its place. -/
structure OldValue where
  ppa : Nat
  home : Option Home

structure Store where
  mem : Skiplist
  disk : Disk
  flash : Flash
  values : Nat → Key → Option Home
  superseded : List OldValue
  invalidated : List Nat

/-- The levels of `lsm_create`. -/
def createDisk (par : TreeParams) : Disk := fun i => arrayInit ⌈par.sizeFactor ^ (i + 1)⌉₊ i

/-- `lsm_create`. -/
def lsmCreate (cfg : Settings) (par : TreeParams) : Option Store :=
  (pageInit cfg (bmInit cfg)).map fun (page, env) =>
    ⟨[], createDisk par, ⟨env, page, fun _ => none⟩, fun _ _ => none, [], []⟩

/-- `DEF_LEVEL`, `DEF_TOP_K_LEVEL` and the size factor `lsm_setup_params` finds. -/
def shippedTree : TreeParams := ⟨5, 3, 1405 / 100⟩

/-! ## Section 2: `invalidate_PPA` -/

/-- `PPA2SBLK`. -/
def ppa2Sblk (cfg : Settings) (ppa : Nat) : Nat := ppa / 8 / cfg.pps

/-- `invalidate_PPA(DATA, ppa)`: -1 becomes `true` in a `bool`. -/
def invalidatePpa (cfg : Settings) (e : Env) (ppa : Nat) : Env :=
  let b := e.sblk (ppa2Sblk cfg ppa)
  let o := e.pieceOob ppa
  ((e.touch [ppa2Sblk cfg ppa]).setSblk (ppa2Sblk cfg ppa)
    { b with invalidCnt := (b.invalidCnt + o.length) % 4294967296 }).setOob ppa
    { o with isvalid := true }

def Flash.invalidate (cfg : Settings) (f : Flash) (ppas : List Nat) : Flash :=
  { f with env := ppas.foldl (invalidatePpa cfg) f.env }

/-! ## Section 3: Compaction -/

/-- The keys of the source, whose entries replace those of the target. -/
def sourceKeys (disk : Disk) (mem : Skiplist) : Option Nat → List Key
  | none => mem.map Snode.key
  | some i => (disk i).entries.map Prod.fst

/-- The values of the source. -/
def sourceValues (s : Store) (mem : Skiplist) : Option Nat → Key → Option Home
  | none => fun k => if k ∈ mem.map Snode.key then s.flash.home k else none
  | some i => s.values i

/-- The values of the target that a leveling supersedes. -/
def supersededValues (s : Store) (src : Option Nat) (mem : Skiplist) (to_ : Nat) :
    List OldValue :=
  ((s.disk to_).entries.filter fun e => decide (e.1 ∈ sourceKeys s.disk mem src)).map
    fun e => ⟨e.2, s.values to_ e.1⟩

/-- The values of the levels after a leveling. -/
def valuesAfter (s : Store) (src : Option Nat) (mem : Skiplist) (to_ : Nat) :
    Nat → Key → Option Home :=
  let values := match src with
    | none => s.values
    | some i => Function.update s.values i fun _ => none
  Function.update values to_ fun k => (sourceValues s mem src k).or (s.values to_ k)

/-- `leveling` on the store. -/
def Store.leveling (cfg : Settings) (par : TreeParams) (s : Store) (src : Option Nat)
    (mem : Skiplist) (to_ : Nat) : Option Store :=
  (LsmTree.leveling par pipeMerger s.disk src mem to_).map fun (disk, inv) =>
    { s with
        disk := disk
        flash := s.flash.invalidate cfg inv
        values := valuesAfter s src mem to_
        superseded := s.superseded ++ supersededValues s src mem to_
        invalidated := s.invalidated ++ inv }

/-- `compaction_cascading` from level `start` on; the levels left are the fuel. -/
def compactionCascading (cfg : Settings) (par : TreeParams) : Nat → Nat → Store → Option Store
  | 0, _, s => some s
  | n + 1, start, s =>
      if defFullChk par (s.disk start) then
        if start + 1 = par.levelN then some s
        else
          (s.leveling cfg par (some start) [] (start + 1)).bind fun s =>
            compactionCascading cfg par n (start + 1) s
      else some s

/-- `compaction_main` on one cut list; one level has a `leveling` of its own,
    which is not in the model. -/
def compactionMain (cfg : Settings) (par : TreeParams) (s : Store) (t : Skiplist) : Option Store :=
  (skiplistMakeValueset cfg t s.flash).bind fun (t, flash) =>
    ({ s with flash := flash }.leveling cfg par none t 0).bind fun s =>
      compactionCascading cfg par par.levelN 0 s

/-- The requests a `compaction_check` hands over, in turn. -/
def compactionRequests (cfg : Settings) (par : TreeParams) : List Skiplist → Store → Option Store
  | [], s => some s
  | t :: ts, s =>
      (compactionMain cfg par s t).bind fun s => compactionRequests cfg par ts s

/-! ## Section 4: Requests -/

/-- `lsm_set` on the memtable: its new contents, and whether the request is
    put on `finish_q`. -/
def lsmSetMem (key : Key) (bytes : Nat) (l : Skiplist) : Option (Skiplist × Bool) :=
  (skiplistInsert key bytes (compactionCheck l).2).map fun l =>
    (l, if l.length = flushCheckNum then false else true)

/-- `lsm_set`. -/
def lsmSet (cfg : Settings) (par : TreeParams) (s : Store) (key : Key) (bytes : Nat) :
    Option Store :=
  (compactionRequests cfg par (compactionCheck s.mem).1 s).bind fun s' =>
    (lsmSetMem key bytes s.mem).map fun (mem, _) => { s' with mem := mem }

/-- A set request: its key and the length of its value in bytes. -/
structure SetRequest where
  key : Key
  bytes : Nat

/-- Sequences of set requests on a fresh store. -/
def storeMachine (cfg : Settings) (par : TreeParams) : Machine Store SetRequest where
  init s := lsmCreate cfg par = some s
  next s r := lsmSet cfg par s r.key r.bytes

/-! ## Section 5: Requests to run -/

/-- Key number `i` of 44 bytes. -/
def numberedKey (i : Nat) : Key :=
  ⟨Fin.ofNat 256 i :: List.replicate 43 97, by rw [List.length_cons, List.length_replicate]; decide⟩

/-- `n` set requests of small values, the last key first. -/
def numberedSets (n : Nat) : List SetRequest :=
  (List.range n).reverse.map fun i => ⟨numberedKey i, 100⟩

end AggreKV.LsmTree
