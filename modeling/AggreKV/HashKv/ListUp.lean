import AggreKV.HashKv.Page

/-! # Loading and evicting translation pages

    `dftl_cache_load` and `dftl_cache_list_up` of `dftl_cache.c`.

    * The queues of a page in flight are filled by `wait_if_flying` only,
      whose calls are commented out, so draining them is left out.
    * The FIFO of ghost marks unmarks old ghosts when it overflows. A ghost
      is never resident, so no result depends on it and marks stay. -/

namespace AggreKV.HashKv

/-- `dftl_cache_load`: `none` is the return value 0, a page without flash copy. -/
def Store.load (s : Store) (lpa : Nat) : Option Store :=
  let m := s.cold.cmt (dIdx lpa)
  if m.tPpa.isNone then none
  else some { s with cold := s.cold.setCmt (dIdx lpa) { m with isFlying := true } }

/-- The promotions of every thousandth eviction. -/
def Store.promotePicked (cfg : Settings) (s : Store) : Store :=
  if cfg.hotCmt ∧ s.cold.popCount % 1000 = 0 then
    (lruPickPromoteHotPages s.cold).foldl (fun s page =>
      if (s.cold.cmt page).isResident then s.promoteHot page else s) s
  else s

/-- The victim loop of `dftl_cache_list_up`: LRU nodes of pages that are not
    resident are dropped; an empty list aborts. -/
def popVictim (cfg : Settings) (s : Store) : Nat → Option (Nat × Store)
  | 0 => none
  | guard + 1 =>
    let s := s.promotePicked cfg
    match lruPop s.cold.lru with
    | none => none
    | some (victim, lru) =>
      let m := s.cold.cmt victim
      let s := { s with
        cold := { s.cold.setCmt victim { m with lruPtr := none } with lru := lru } }
      if m.isResident then some (victim, s) else popVictim cfg s guard

/-- The bookkeeping after an eviction: ghost mark, rehash progress and every 64th
    time the rebalance. -/
def Store.afterEvict (cfg : Settings) (s : Store) (victim : Nat) (choice : Rebalance) : Store :=
  if cfg.adaptiveMem then
    let s := { s with
      cold := s.cold.setCmt victim { s.cold.cmt victim with ghostMark := true } }
    if s.hot.accessible then
      let n := s.cold.rebalanceEvictCnt + 1
      let s := { s with cold := { s.cold with rebalanceEvictCnt := n } }
      if n % 64 = 0 then s.tryRebalance cfg choice else s
    else { s with hot := s.hot.rehashDrain 16 }
  else s

/-- The victim leaves the cache. -/
def Store.unload (s : Store) (victim : Nat) : Store :=
  { s with
    cold := { s.cold.setCmt victim { s.cold.cmt victim with pt := false } with
      nrCachedTpages := s.cold.nrCachedTpages - 1 } }

/-- A dirty victim is written to flash. -/
def Store.writeBack (cfg : Settings) (s : Store) (victim : Nat) : Option Store :=
  if (s.cold.cmt victim).dirty then s.writeTpage cfg victim else some s

/-- The eviction of `dftl_cache_list_up`; `true` when the victim was dirty and has
    been written. -/
def Store.evict (cfg : Settings) (s : Store) (choice : Rebalance) : Option (Bool × Store) := do
  let (victim, s) ← popVictim cfg
    { s with cold := { s.cold with popCount := s.cold.popCount + 1 } } (s.cold.maxCachedTpages + 64)
  let s := s.unload victim
  let s' ← s.writeBack cfg victim
  return ((s.cold.cmt victim).dirty, s'.afterEvict cfg victim choice)

/-- The end of `dftl_cache_list_up`: the page becomes resident and most recent. -/
def Store.makeResident (s : Store) (page : Nat) : Store :=
  let m := s.cold.cmt page
  let (lru, ptr, next) := match m.lruPtr with
    | some addr => (lruUpdate s.cold.lru addr, addr, s.cold.lruNext)
    | none => (⟨s.cold.lruNext, page⟩ :: s.cold.lru, s.cold.lruNext, s.cold.lruNext + 1)
  let m := { m with
    pt := true, ghostMark := false, hasHotEntry := false, isFlying := false,
    lruPtr := some ptr }
  { s with
    cold := { s.cold.setCmt page m with
      cntMap := fun lpa => if dIdx lpa = page then 0 else s.cold.cntMap lpa
      lru := lru
      lruNext := next
      nrCachedTpages := s.cold.nrCachedTpages + 1 } }

/-- `dftl_cache_list_up`. -/
def Store.listUp (cfg : Settings) (s : Store) (lpa : Nat) (choice : Rebalance) :
    Option (Bool × Store) :=
  (if s.cold.isFull then s.evict cfg choice else some (false, s)).map fun (rc, s) =>
    (rc, s.makeResident (dIdx lpa))

end AggreKV.HashKv
