import AggreKV.Lib.Machine
import Mathlib.Algebra.Order.Interval.Finset.SuccPred
import Mathlib.Data.Finset.Card
import Mathlib.Order.Interval.Finset.Nat
import Mathlib.Logic.Function.Basic

/-! # Block and page manager of the LSM store

    `lsm_bm.c` and the allocating half of `lsm_pm.c`.

    * A superblock is its position in the table; `_PPS` pages each.
    * Partition tables are functions of `MAP`/`DATA`, since both branches
      of every function do the same on their own master.
    * `touched` is a ghost: every index at which the superblock table is
      read or written, so that bounds can be stated.
    * `none` is `abort`. -/

namespace AggreKV.LsmTree

/-! ## Section 1: Data -/

/-- The build constants that size the flash, and `LSM.lsp.HEADERNUM`. -/
structure Settings where
  pps : Nat
  nos : Nat
  headerNum : Nat
  pps_pos : 0 < pps

theorem pps_shipped_pos : 0 < 65536 := by decide

/-- The constants of `lsm_settings.h` with the header count of `lsm_setup_params`. -/
def shipped : Settings := ⟨65536, 1177, 593886, pps_shipped_pos⟩

/-- `bm_oob_t`: `isvalid` is a `bool`, `length` a `uint8_t`. -/
structure Oob where
  isvalid : Bool
  length : Nat
  deriving DecidableEq

/-- `bm_superblock_t`. -/
structure Superblock where
  invalidCnt : Nat
  wpOfft : Nat
  deriving DecidableEq

inductive PartType where
  | map
  | data
  deriving DecidableEq

/-- `bm_sblk_master_t`; `next_free_sblk` is written once and never read. -/
structure SblkMaster where
  minSblkIdx : Nat
  maxSblkIdx : Nat
  freeSblkCnt : UInt32
  activeSblk : Option Nat
  reserveSblk : Nat

/-- `bm_env_t`. -/
structure Env where
  sblk : Nat → Superblock
  sblkMaster : PartType → SblkMaster
  pieceOob : Nat → Oob
  touched : List Nat

/-- `page_t`: the reserve and the active superblock of each partition. -/
structure Page where
  reserve : PartType → Option Nat
  active : PartType → Option Nat

def Env.touch (e : Env) (is : List Nat) : Env := { e with touched := e.touched ++ is }

def Env.setSblk (e : Env) (i : Nat) (b : Superblock) : Env :=
  { e with sblk := Function.update e.sblk i b }

def Env.setMaster (e : Env) (type : PartType) (m : SblkMaster) : Env :=
  { e with sblkMaster := Function.update e.sblkMaster type m }

def Env.setOob (e : Env) (ppa : Nat) (o : Oob) : Env :=
  { e with pieceOob := Function.update e.pieceOob ppa o }

/-- `SBLK_OFFT2PPA`, truncated to `ppa_t`. -/
def sblkOfft2Ppa (cfg : Settings) (i offt : Nat) : Nat := (i * cfg.pps + offt) % 4294967296

/-! ## Section 2: `lsm_bm.c` -/

/-- `sblk_master[MAP].max_sblk_idx`; the first product is a `uint32_t`. -/
def mapMax (cfg : Settings) : Nat :=
  cfg.headerNum * 4096 % 4294967296 / (cfg.pps * 4096) * 2 % 4294967296

def initMaster (cfg : Settings) : PartType → SblkMaster
  | .map =>
      { minSblkIdx := 1, maxSblkIdx := mapMax cfg
        freeSblkCnt := UInt32.ofNat (mapMax cfg) - 1 + 1
        activeSblk := none, reserveSblk := 1 }
  | .data =>
      { minSblkIdx := mapMax cfg + 1, maxSblkIdx := cfg.nos
        freeSblkCnt := UInt32.ofNat cfg.nos - UInt32.ofNat (mapMax cfg + 1)
        activeSblk := none, reserveSblk := mapMax cfg + 1 }

/-- `lsm_bm_init`: the loop writes `sblk[i]` for `1 ≤ i ≤ _NOS`. -/
def bmInit (cfg : Settings) : Env where
  sblk := fun _ => ⟨0, 0⟩
  sblkMaster := initMaster cfg
  pieceOob := fun _ => ⟨false, 0⟩
  touched := List.range' 1 cfg.nos

def checkFull (cfg : Settings) (e : Env) (i : Nat) : Bool := decide (cfg.pps ≤ (e.sblk i).wpOfft)

/-- The test of both search loops. -/
def eligible (cfg : Settings) (e : Env) (m : SblkMaster) (i : Nat) : Bool :=
  decide (i ≠ m.reserveSblk) && !checkFull cfg e i

/-- The search loops of `lsm_get_active_sblk` from index `i`, `n` indices left. -/
def searchSblk (cfg : Settings) (e : Env) (m : SblkMaster) (i : Nat) : Nat → Option Nat
  | 0 => none
  | n + 1 => if eligible cfg e m i then some i else searchSblk cfg e m (i + 1) n

/-- `lsm_get_active_sblk`. The source never reads `isreserve`, so it is not
    a parameter of the embedding. -/
def getActiveSblk (cfg : Settings) (e : Env) (type : PartType) : Option (Nat × Env) :=
  let m := e.sblkMaster type
  let start := m.activeSblk.getD m.minSblkIdx
  match searchSblk cfg e m start (m.maxSblkIdx + 1 - start) with
  | none => none
  | some a =>
      let e := e.touch ((List.range' start (a + 1 - start)).filter (· ≠ m.reserveSblk))
      let free := if (e.sblk a).wpOfft = 0 then m.freeSblkCnt - 1 else m.freeSblkCnt
      some (a, e.setMaster type { m with activeSblk := some a, freeSblkCnt := free })

/-- `lsm_get_page_num`; callers pass a block that is not full. -/
def getPageNum (cfg : Settings) (e : Env) (i : Nat) : Option (Nat × Env) :=
  if checkFull cfg e i then none
  else
    let b := e.sblk i
    some (sblkOfft2Ppa cfg i b.wpOfft, (e.touch [i]).setSblk i { b with wpOfft := b.wpOfft + 1 })

/-! ## Section 3: `lsm_pm.c` -/

/-- `lsm_page_init`: both reserves are what `get_active_superblock(.., true)` returns. -/
def pageInit (cfg : Settings) (e : Env) : Option (Page × Env) :=
  (getActiveSblk cfg e .data).bind fun (d, e) =>
    (getActiveSblk cfg e .map).map fun (m, e) =>
      (⟨fun | .data => some d | .map => some m, fun _ => none⟩,
        { e with pieceOob := fun _ => ⟨false, 0⟩ })

/-- Whether `lsm_get_page` asks for a new active superblock. -/
def needsActive (cfg : Settings) (e : Env) (page : Page) (type : PartType) : Bool :=
  match page.active type with
  | none => true
  | some i => checkFull cfg e i

/-- `lsm_get_page`. -/
def getPage (cfg : Settings) (e : Env) (page : Page) (type : PartType) :
    Option (Nat × Env × Page) :=
  (if needsActive cfg e page type then
      (getActiveSblk cfg e type).map fun (i, e) =>
        (i, e, { page with active := Function.update page.active type (some i) })
    else (page.active type).map fun i => (i, e, page)).bind fun (i, e, page) =>
    (getPageNum cfg e i).map fun (ppa, e) => (ppa, e, page)

/-! ## Section 4: Runs of the allocator -/

/-- The allocator with the pages each partition has handed out, oldest first. -/
structure Alloc where
  env : Env
  page : Page
  out : PartType → List Nat

def Alloc.getPage (cfg : Settings) (s : Alloc) (type : PartType) : Option Alloc :=
  (LsmTree.getPage cfg s.env s.page type).map fun (ppa, e, page) =>
    ⟨e, page, Function.update s.out type (s.out type ++ [ppa])⟩

/-- `lsm_bm_init`, `lsm_page_init`, then any sequence of `lsm_get_page` calls. -/
def pageMachine (cfg : Settings) : Machine Alloc PartType where
  init s := ∃ page e, pageInit cfg (bmInit cfg) = some (page, e) ∧ s = ⟨e, page, fun _ => []⟩
  next s type := s.getPage cfg type

/-- The superblocks of a partition that hold at least one page. -/
def opened (e : Env) (type : PartType) : Finset Nat :=
  (Finset.Icc (e.sblkMaster type).minSblkIdx (e.sblkMaster type).maxSblkIdx).filter
    fun i => (e.sblk i).wpOfft ≠ 0

/-- What the allocator is meant to guarantee. -/
structure AllocationSafe (cfg : Settings) (s : Alloc) : Prop where
  distinct : (s.out .map ++ s.out .data).Nodup
  separate : ∀ p ∈ s.out .map, ∀ q ∈ s.out .data, p / cfg.pps ≠ q / cfg.pps
  inTable : ∀ i ∈ s.env.touched, i < cfg.nos
  reserveKept : ∀ type, ∀ p ∈ s.out type, s.page.reserve type ≠ some (p / cfg.pps)
  counted : ∀ type, (s.env.sblkMaster type).freeSblkCnt + UInt32.ofNat (opened s.env type).card =
    (initMaster cfg type).freeSblkCnt

end AggreKV.LsmTree
