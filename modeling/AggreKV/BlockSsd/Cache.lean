import AggreKV.BlockSsd.BlockManager
import AggreKV.HashKv.Cache

/-! # The mapping cache of the block SSD

    `dftl_cache.c` and `lru_list.c` of `block_ssd`.

    * `cmt->pt` points into `mem_table`, so one table of entries holds both;
      `pt` says whether the page is resident.
    * An LRU node has an address, the value of `lru_ptr`.
    * `content` is a history variable: the set request whose value a page
      holds. The source copies no values; no function reads it. -/

namespace AggreKV.BlockSsd

open HashKv (Pte LruNode lruUpdate lruPop dIdx)

/-! ## Section 1: Data -/

/-- `cmt_t`; the queues of a page in flight, its heat map and its statistics have no
    effect in this build. -/
structure Cmt where
  pt : Bool
  tPpa : Option Nat
  dirty : Bool
  isFlying : Bool
  lruPtr : Option Nat
  hitCnt : Nat

/-- `cache_member`. -/
structure Cold where
  memTable : Nat → Pte
  cmt : Nat → Cmt
  /-- Most recently used first. -/
  lru : List LruNode
  /-- The address of the next LRU node. -/
  lruNext : Nat
  nrCachedTpages : Nat
  /-- `pop_count` of `dftl_cache_list_up`. -/
  popCount : Nat

/-- The mapping tables and the device below them. -/
structure Store where
  bm : Bm
  ssd : Ssd
  dActive : Option Nat
  dReserve : Option Nat
  tActive : Option Nat
  tReserve : Option Nat
  cold : Cold
  content : Nat → Option Nat

def Cold.setCmt (c : Cold) (page : Nat) (m : Cmt) : Cold :=
  { c with cmt := Function.update c.cmt page m }

def Cold.setPte (c : Cold) (lpa : Nat) (pte : Pte) : Cold :=
  { c with memTable := Function.update c.memTable lpa pte }

theorem Cold.cmt_setCmt (c : Cold) (page : Nat) (m : Cmt) (p : Nat) :
    (c.setCmt page m).cmt p = if p = page then m else c.cmt p := by
  simp [Cold.setCmt, Function.update_apply]

/-- `cache_member_init`. -/
def Cold.create : Cold :=
  { memTable := fun _ => ⟨none, 0⟩
    cmt := fun _ => ⟨false, none, false, false, none, 0⟩
    lru := [], lruNext := 0, nrCachedTpages := 0, popCount := 0 }

/-! ## Section 2: The hottest page -/

/-- The search of `lru_pop_hot`: the first node of greatest nonzero `hit_cnt`. -/
def hottest (hitCnt : Nat → Nat) : Option LruNode → List LruNode → Option LruNode
  | best, [] => best
  | best, nd :: nds =>
    if best.elim 0 (fun b => hitCnt b.page) < hitCnt nd.page then hottest hitCnt (some nd) nds
    else hottest hitCnt best nds

/-- The nodes `lru_pop_hot` looks at: a tenth of the list, rounded up. -/
def topTenth (lru : List LruNode) : List LruNode :=
  lru.take (max ((lru.length * 10 + 99) / 100) 1)

def lruPopHot (hitCnt : Nat → Nat) (lru : List LruNode) : Option (Nat × List LruNode) :=
  (hottest hitCnt none (topTenth lru)).map fun nd => (nd.page, lru.erase nd)

/-! ## Section 3: Cache operations -/

/-- `dftl_cache_is_hit`; `hit_cnt` is a `uint32_t`. -/
def Cold.isHit (c : Cold) (lpa : Nat) : Bool × Cold :=
  let m := c.cmt (dIdx lpa)
  if m.pt then (true, c.setCmt (dIdx lpa) { m with hitCnt := (m.hitCnt + 1) % 4294967296 })
  else (false, c)

def Cold.isFull (cfg : Settings) (c : Cold) : Bool := cfg.maxCachedTpages ≤ c.nrCachedTpages

/-- `dftl_cache_touch`. -/
def Cold.touch (c : Cold) (lpa : Nat) : Cold :=
  match (c.cmt (dIdx lpa)).lruPtr with
  | some addr => { c with lru := lruUpdate c.lru addr }
  | none => c

/-- `dftl_cache_get_pte`. -/
def Cold.getPte (c : Cold) (lpa : Nat) : Pte := c.memTable lpa

/-- `dftl_cache_update` on the tables. A page that is not resident gets the entry
    but stays clean and keeps its flash copy. -/
def Cold.update (c : Cold) (lpa : Nat) (pte : Pte) : Cold :=
  let m := c.cmt (dIdx lpa)
  let c' := c.setPte lpa pte
  if m.pt then
    (c'.setCmt (dIdx lpa)
      { m with tPpa := if m.dirty then m.tPpa else none, dirty := true }).touch lpa
  else c'

/-- The flash copy that `dftl_cache_update` gives up: that of a resident, clean page. -/
def Cold.staleCopy (c : Cold) (page : Nat) : Option Nat :=
  if (c.cmt page).pt && !(c.cmt page).dirty then (c.cmt page).tPpa else none

/-- `dftl_cache_update`. -/
def Store.update (cfg : Settings) (s : Store) (lpa : Nat) (pte : Pte) : Store :=
  { s with
    bm := match s.cold.staleCopy (dIdx lpa) with
      | some p => invalidatePage cfg s.bm p
      | none => s.bm
    cold := s.cold.update lpa pte }

/-- Setting `t_ppa` of a page. -/
def Cold.setTPpa (c : Cold) (page : Nat) (t : Option Nat) : Cold :=
  c.setCmt page { c.cmt page with tPpa := t }

/-- A page has been written back to `ppa`. -/
def Cold.written (c : Cold) (page ppa : Nat) : Cold :=
  c.setCmt page { c.cmt page with tPpa := some ppa, dirty := false }

/-- The garbage collector moves the value of `lpa`. -/
def Cold.relocate (c : Cold) (lpa ppa : Nat) : Cold :=
  c.setPte lpa { c.getPte lpa with ppa := some ppa }

/-- `dftl_cache_load`: `none` is the return value 0, a page without flash copy. -/
def Store.load (s : Store) (lpa : Nat) : Option Store :=
  let m := s.cold.cmt (dIdx lpa)
  if m.tPpa.isNone then none
  else some { s with cold := s.cold.setCmt (dIdx lpa) { m with isFlying := true } }

end AggreKV.BlockSsd
