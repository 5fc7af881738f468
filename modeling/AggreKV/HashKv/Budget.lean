import AggreKV.Lib.Machine
import AggreKV.HashKv.Occupancy

/-! # The memory of the three caches

    `struct cache_env` and the rebalance of `adaptive_mem.c`: pages move
    between the cold and the hot cache, and pages of the cold cache turn
    into bytes of the key cache.

    * `add64`, `sub64`, `mul64`: `uint64_t` arithmetic that does not wrap.
      An operation is `none` where an expression of the source would wrap.
    * `CacheEnv.Valid`: a configuration within its own minima and caps.
    * `budgetMachine`: the operations and `adaptive_try_rebalance`, in any
      order. -/

namespace AggreKV.HashKv

/-! ## Section 1: The cache environment -/

def add64 (a b : Nat) : Option Nat := if a + b < 18446744073709551616 then some (a + b) else none

def sub64 (a b : Nat) : Option Nat := if b ≤ a then some (a - b) else none

def mul64 (a b : Nat) : Option Nat := if a * b < 18446744073709551616 then some (a * b) else none

/-- A sum that fits does not wrap. -/
theorem add64_of_lt {a b : Nat} (h : a + b < 18446744073709551616) : add64 a b = some (a + b) :=
  if_pos h

theorem sub64_of_le {a b : Nat} (h : b ≤ a) : sub64 a b = some (a - b) := if_pos h

theorem mul64_of_lt {a b : Nat} (h : a * b < 18446744073709551616) : mul64 a b = some (a * b) :=
  if_pos h

/-- The fields of `struct cache_env` that size the caches. -/
structure CacheEnv where
  maxCachedTpages : Nat
  maxCachedHotTpages : Nat
  maxCachedHotEntries : Nat
  /-- Free bytes of the key cache. -/
  maxCachedFullKey : Nat
  maxCachedFullKeyBudget : Nat
  totalCacheTpages : Nat
  hotTpagesCap : Nat
  minCachedTpages : Nat
  minCachedHotTpages : Nat
  chunkTpages : Nat
  nHot : Nat
  keyEntriesCap : Nat
  keyChunkEntries : Nat
  ghostColdCap : Nat
  ghostKeyCap : Nat
  /-- Whether the build defines `VERIFY_CACHE`. -/
  verifyCache : Bool
  deriving DecidableEq

/-- `cache_env_init` after its three fractions of the page count, which it computes with
    floating-point numbers. `EPP` is 512, `MAXKEYSIZE` 128. -/
def cacheEnvInit (verifyCache : Bool) (maxCachedTpages maxCachedHotTpages keyBudget : Nat) :
    Option CacheEnv := do
  let hotEntries ← mul64 maxCachedHotTpages 512
  let total ← add64 maxCachedTpages maxCachedHotTpages
  let cap ← mul64 total 20
  let share ← mul64 total 1
  let chunk := if share / 100 = 0 then 1 else share / 100
  let thresh ← mul64 chunk 512
  let keyPages ← mul64 total 10
  let keyEntries ← mul64 (keyPages / 100) 512
  let keyCap ← mul64 keyEntries 128
  let stepEntries ← mul64 (share / 1000) 512
  let step ← mul64 stepEntries 128
  return {
    maxCachedTpages := maxCachedTpages
    maxCachedHotTpages := maxCachedHotTpages
    maxCachedHotEntries := hotEntries
    maxCachedFullKey := keyBudget
    maxCachedFullKeyBudget := keyBudget
    totalCacheTpages := total
    hotTpagesCap := cap / 100
    minCachedTpages := chunk
    minCachedHotTpages := chunk
    chunkTpages := chunk
    nHot := if thresh / 256 = 0 then 1 else thresh / 256
    keyEntriesCap := keyCap
    keyChunkEntries := if step = 0 then 1 else step
    ghostColdCap := 0
    ghostKeyCap := 0
    verifyCache := verifyCache }

namespace CacheEnv

/-! ## Section 2: Rebalancing -/

/-- `adaptive_ghost_compute_caps`. -/
def updateCaps (env : CacheEnv) : Option CacheEnv := do
  let hotBytes ← mul64 env.maxCachedHotTpages 4096
  let stolen ← add64 hotBytes env.maxCachedFullKeyBudget
  let keyEntries := env.maxCachedFullKeyBudget / 128
  let keyCap ← if env.verifyCache ∧ keyEntries < env.maxCachedHotEntries then
      sub64 env.maxCachedHotEntries keyEntries
    else some 0
  return { env with
    ghostColdCap := if stolen / 4 = 0 then 1 else stolen / 4
    ghostKeyCap := keyCap }

/-- The pages that `adaptive_expand_key_cache` takes, `key_chunk_pages`. -/
def keyChunkPages (env : CacheEnv) : Option Nat := do
  let bytes ← add64 env.keyChunkEntries 4096
  let bytes ← sub64 bytes 1
  return if bytes / 4096 = 0 then 1 else bytes / 4096

/-- What a partition of `min` pages may not fall to when it gives `chunk` pages away. -/
def floor (min chunk : Nat) : Option Nat := do
  let sum ← add64 min chunk
  sub64 sum 1

/-- `adaptive_expand_key_cache`, with its return value. -/
def expandKeyCache (env : CacheEnv) (keyFree : Nat) : Option (Bool × CacheEnv) :=
  if keyFree ≠ 0 then some (false, env)
  else if env.keyEntriesCap ≤ env.maxCachedFullKeyBudget then some (false, env)
  else do
    let sum ← add64 env.maxCachedFullKeyBudget env.keyChunkEntries
    let budget := if env.keyEntriesCap < sum then env.keyEntriesCap else sum
    let pages ← env.keyChunkPages
    let lim ← floor env.minCachedTpages pages
    if env.maxCachedTpages ≤ lim then return (false, env)
    else
      let cold ← sub64 env.maxCachedTpages pages
      let used ← sub64 env.maxCachedFullKeyBudget keyFree
      let free ← sub64 budget used
      let env ← updateCaps { env with
        maxCachedTpages := cold
        maxCachedFullKeyBudget := budget
        maxCachedFullKey := free }
      return (true, env)

/-- `adaptive_expand_hot_from_cold`. -/
def expandHotFromCold (env : CacheEnv) : Option (Bool × CacheEnv) := do
  let lim ← floor env.minCachedTpages env.chunkTpages
  if env.maxCachedTpages ≤ lim then return (false, env)
  else
    let hot ← add64 env.maxCachedHotTpages env.chunkTpages
    if env.hotTpagesCap < hot then return (false, env)
    else
      let cold ← sub64 env.maxCachedTpages env.chunkTpages
      let entries ← mul64 hot 512
      let env ← updateCaps { env with
        maxCachedTpages := cold
        maxCachedHotTpages := hot
        maxCachedHotEntries := entries }
      return (true, env)

/-- `adaptive_shrink_hot_to_cold`. -/
def shrinkHotToCold (env : CacheEnv) : Option (Bool × CacheEnv) := do
  let lim ← floor env.minCachedHotTpages env.chunkTpages
  if env.maxCachedHotTpages ≤ lim then return (false, env)
  else
    let cold ← add64 env.maxCachedTpages env.chunkTpages
    if env.totalCacheTpages < cold then return (false, env)
    else
      let hot ← sub64 env.maxCachedHotTpages env.chunkTpages
      let entries ← mul64 hot 512
      let env ← updateCaps { env with
        maxCachedTpages := cold
        maxCachedHotTpages := hot
        maxCachedHotEntries := entries }
      return (true, env)

/-- What `adaptive_try_rebalance` reads besides the environment. -/
structure Pressure where
  accessible : Bool
  hotEvictCount : Nat
  coldEvictCount : Nat
  /-- `hot_cmt_warm_fill_permille`. -/
  hotFill : Nat
  hotPromoteBlockedCnt : Nat
  deriving DecidableEq

/-- `total_pressure`; the counters of the period may wrap. -/
def totalPressure (env : CacheEnv) (p : Pressure) : Nat :=
  let blocked := if env.maxCachedHotEntries = 0 then 0
    else p.hotPromoteBlockedCnt * 1000 % 18446744073709551616 / env.maxCachedHotEntries
  (p.hotFill + blocked) % 18446744073709551616

/-- `shrink_wanted`. -/
def shrinkWanted (env : CacheEnv) (p : Pressure) : Bool :=
  let coldPressure := p.hotEvictCount < env.nHot ∧ p.hotEvictCount < p.coldEvictCount ∧
    env.nHot < (p.hotEvictCount + p.coldEvictCount) % 18446744073709551616
  let lowUtil := p.hotEvictCount < env.nHot ∧ p.hotFill ≤ 250
  p.hotFill < 250 ∧ (coldPressure ∨ lowUtil)

/-- The part of `adaptive_try_rebalance` after the attempt to expand the hot cache. -/
def tryKeyOrShrink (env : CacheEnv) (p : Pressure) : Option CacheEnv := do
  let (done, env) ← env.expandKeyCache env.maxCachedFullKey
  if done then return env
  else if env.shrinkWanted p then
    let (_, env) ← env.shrinkHotToCold
    return env
  else return env

/-- `adaptive_try_rebalance`. -/
def tryRebalance (env : CacheEnv) (p : Pressure) : Option CacheEnv :=
  if !p.accessible then some env
  else do
    let hot ← add64 env.maxCachedHotTpages env.chunkTpages
    if 500 < env.totalPressure p ∧ ¬env.hotTpagesCap < hot then
      let (done, env) ← env.expandHotFromCold
      if done then return env else env.tryKeyOrShrink p
    else env.tryKeyOrShrink p

end CacheEnv

/-- A rebalance, one of its three operations on its own, or a change of the free bytes by
    the key cache. -/
inductive BudgetLabel where
  | expandHot
  | shrinkHot
  | expandKey
  | rebalance (p : CacheEnv.Pressure)
  | keys (free : Nat)
  deriving DecidableEq

def CacheEnv.next (env : CacheEnv) : BudgetLabel → Option CacheEnv
  | .expandHot => env.expandHotFromCold.map Prod.snd
  | .shrinkHot => env.shrinkHotToCold.map Prod.snd
  | .expandKey => (env.expandKeyCache env.maxCachedFullKey).map Prod.snd
  | .rebalance p => env.tryRebalance p
  | .keys free => some { env with maxCachedFullKey := free }

/-- Any sequence of rebalances from the configuration `env₀`. -/
def budgetMachine (env₀ : CacheEnv) : Machine CacheEnv BudgetLabel where
  init env := env = env₀
  next := CacheEnv.next

/-! ## Section 3: What an operation keeps -/

namespace CacheEnv

/-- The bytes of the three caches. -/
def bytes (env : CacheEnv) : Nat :=
  (env.maxCachedTpages + env.maxCachedHotTpages) * 4096 + env.maxCachedFullKeyBudget

/-- A configuration within its own minima and caps. All the memory it speaks of,
    with one more key chunk, is counted in bytes by a `uint64_t`. -/
structure Valid (env : CacheEnv) : Prop where
  cold_min : env.minCachedTpages ≤ env.maxCachedTpages
  hot_min : env.minCachedHotTpages ≤ env.maxCachedHotTpages
  hot_cap : env.maxCachedHotTpages ≤ env.hotTpagesCap
  key_cap : env.maxCachedFullKeyBudget ≤ env.keyEntriesCap
  entries : env.maxCachedHotEntries = env.maxCachedHotTpages * 512
  total : env.maxCachedTpages + env.maxCachedHotTpages ≤ env.totalCacheTpages
  chunk_pos : 0 < env.chunkTpages
  chunk_le : env.chunkTpages ≤ env.totalCacheTpages
  fits : env.totalCacheTpages * 4096 + env.keyEntriesCap + env.keyChunkEntries + 4096 ≤
    18446744073709551616

/-- `env` is valid, under the minima and caps of `env₀`, and takes no more memory. -/
structure Within (env₀ env : CacheEnv) : Prop where
  valid : env.Valid
  bytes_le : env.bytes ≤ env₀.bytes
  minCold : env.minCachedTpages = env₀.minCachedTpages
  minHot : env.minCachedHotTpages = env₀.minCachedHotTpages
  hotCap : env.hotTpagesCap = env₀.hotTpagesCap
  keyCap : env.keyEntriesCap = env₀.keyEntriesCap
  total : env.totalCacheTpages = env₀.totalCacheTpages
  chunk : env.chunkTpages = env₀.chunkTpages
  keyChunk : env.keyChunkEntries = env₀.keyChunkEntries

theorem Within.refl {env : CacheEnv} (h : env.Valid) : Within env env :=
  ⟨h, Nat.le_refl _, rfl, rfl, rfl, rfl, rfl, rfl, rfl⟩

/-- Two operations within the budget. -/
theorem Within.trans {a b c : CacheEnv} (hab : Within a b) (hbc : Within b c) : Within a c where
  valid := hbc.valid
  bytes_le := Nat.le_trans hbc.bytes_le hab.bytes_le
  minCold := hbc.minCold.trans hab.minCold
  minHot := hbc.minHot.trans hab.minHot
  hotCap := hbc.hotCap.trans hab.hotCap
  keyCap := hbc.keyCap.trans hab.keyCap
  total := hbc.total.trans hab.total
  chunk := hbc.chunk.trans hab.chunk
  keyChunk := hbc.keyChunk.trans hab.keyChunk

/-- The floor of an operation that takes `chunk`. -/
theorem floor_eq {min chunk : Nat} (hpos : 0 < chunk) (hlt : min + chunk < 18446744073709551616) :
    floor min chunk = some (min + chunk - 1) := by
  have hone : 1 ≤ min + chunk := by omega
  unfold floor
  rw [add64_of_lt hlt]
  exact sub64_of_le hone

/-- Whole pages, at least one, that hold a key chunk. -/
theorem keyChunkPages_eq {env : CacheEnv} (h : env.Valid) :
    ∃ pages, env.keyChunkPages = some pages ∧ 0 < pages ∧
      env.keyChunkEntries ≤ pages * 4096 ∧ pages ≤ env.keyChunkEntries / 4096 + 1 := by
  have hpos := h.chunk_pos
  have hle := h.chunk_le
  have hfits := h.fits
  have hadd : add64 env.keyChunkEntries 4096 = some (env.keyChunkEntries + 4096) :=
    add64_of_lt (by omega)
  have hsub : sub64 (env.keyChunkEntries + 4096) 1 = some (env.keyChunkEntries + 4096 - 1) :=
    sub64_of_le (by omega)
  have hpages : env.keyChunkPages = some (if (env.keyChunkEntries + 4096 - 1) / 4096 = 0 then 1
      else (env.keyChunkEntries + 4096 - 1) / 4096) := by
    unfold keyChunkPages
    rw [hadd, Option.bind_eq_bind, Option.bind_some, hsub]
    rfl
  refine ⟨_, hpages, ?_, ?_, ?_⟩
  all_goals split <;> omega

/-- The caps of the ghost lists follow the new sizes. -/
theorem updateCaps_eq {env : CacheEnv} (h : env.Valid) :
    ∃ ghostCold ghostKey, env.updateCaps =
      some { env with ghostColdCap := ghostCold, ghostKeyCap := ghostKey } := by
  have hfits := h.fits
  have htotal := h.total
  have hkey := h.key_cap
  have hmul : mul64 env.maxCachedHotTpages 4096 = some (env.maxCachedHotTpages * 4096) :=
    mul64_of_lt (by omega)
  have hadd : add64 (env.maxCachedHotTpages * 4096) env.maxCachedFullKeyBudget =
      some (env.maxCachedHotTpages * 4096 + env.maxCachedFullKeyBudget) := add64_of_lt (by omega)
  unfold updateCaps
  simp only [hmul, hadd, Option.bind_eq_bind, Option.bind_some]
  split
  · next hlt =>
    rw [sub64_of_le (Nat.le_of_lt hlt.2)]
    exact ⟨_, _, rfl⟩
  · exact ⟨_, _, rfl⟩

/-- `Valid` and `bytes` do not mention the caps of the ghost lists. -/
theorem Within.updateCaps {env₀ env : CacheEnv} (h : Within env₀ env) :
    ∃ env', env.updateCaps = some env' ∧ Within env₀ env' ∧
      env'.maxCachedTpages = env.maxCachedTpages ∧
      env'.maxCachedHotTpages = env.maxCachedHotTpages := by
  obtain ⟨ghostCold, ghostKey, he⟩ := updateCaps_eq h.valid
  refine ⟨_, he, ⟨?_, h.bytes_le, h.minCold, h.minHot, h.hotCap, h.keyCap, h.total, h.chunk,
    h.keyChunk⟩, rfl, rfl⟩
  obtain ⟨h1, h2, h3, h4, h5, h6, h7, h8, h9⟩ := h.valid
  exact ⟨h1, h2, h3, h4, h5, h6, h7, h8, h9⟩

/-- Pages that are given up for at most their bytes. -/
theorem bytes_le {cold cold' pages key key' : Nat} (hpages : cold' + pages ≤ cold)
    (hkey : key' ≤ key + pages * 4096) : cold' * 4096 + key' ≤ cold * 4096 + key := by
  have hmul := Nat.mul_le_mul_right 4096 hpages
  rw [Nat.add_mul] at hmul
  omega

/-- Cold pages become hot pages while the cold cache keeps its minimum and the hot
    cache its cap. -/
theorem expandHotFromCold_within {env : CacheEnv} (h : env.Valid) :
    ∃ done env', env.expandHotFromCold = some (done, env') ∧ Within env env' ∧
      (done = false → env' = env) ∧
      (done = true → env.minCachedTpages + env.chunkTpages ≤ env.maxCachedTpages ∧
        env.maxCachedHotTpages + env.chunkTpages ≤ env.hotTpagesCap ∧
        env'.maxCachedTpages = env.maxCachedTpages - env.chunkTpages ∧
        env'.maxCachedHotTpages = env.maxCachedHotTpages + env.chunkTpages) := by
  have hv := h
  obtain ⟨hcold, hhot, hcap, hkey, hentries, htotal, hpos, hle, hfits⟩ := hv
  have hlim : floor env.minCachedTpages env.chunkTpages = _ := floor_eq hpos (by omega)
  have hadd : add64 env.maxCachedHotTpages env.chunkTpages =
      some (env.maxCachedHotTpages + env.chunkTpages) := add64_of_lt (by omega)
  unfold expandHotFromCold
  simp only [hlim, hadd, Option.bind_eq_bind, Option.bind_some]
  split
  · exact ⟨false, env, rfl, .refl h, fun _ => rfl, (fun hd => by cases hd)⟩
  next hroom =>
  split
  · exact ⟨false, env, rfl, .refl h, fun _ => rfl, (fun hd => by cases hd)⟩
  next hbelow =>
  -- Both guards passed: the subtraction and the product are exact.
  have hsub : sub64 env.maxCachedTpages env.chunkTpages =
      some (env.maxCachedTpages - env.chunkTpages) := sub64_of_le (by omega)
  have hmul : mul64 (env.maxCachedHotTpages + env.chunkTpages) 512 =
      some ((env.maxCachedHotTpages + env.chunkTpages) * 512) := mul64_of_lt (by omega)
  simp only [hsub, hmul, Option.bind_some]
  have hmoved : Within env { env with
      maxCachedTpages := env.maxCachedTpages - env.chunkTpages
      maxCachedHotTpages := env.maxCachedHotTpages + env.chunkTpages
      maxCachedHotEntries := (env.maxCachedHotTpages + env.chunkTpages) * 512 } := by
    refine ⟨⟨?_, ?_, ?_, hkey, rfl, ?_, hpos, hle, hfits⟩, ?_, rfl, rfl, rfl, rfl, rfl, rfl, rfl⟩
    · show env.minCachedTpages ≤ env.maxCachedTpages - env.chunkTpages
      omega
    · show env.minCachedHotTpages ≤ env.maxCachedHotTpages + env.chunkTpages
      omega
    · show env.maxCachedHotTpages + env.chunkTpages ≤ env.hotTpagesCap
      omega
    · show env.maxCachedTpages - env.chunkTpages + (env.maxCachedHotTpages + env.chunkTpages) ≤
        env.totalCacheTpages
      omega
    · have hsum : env.maxCachedTpages - env.chunkTpages +
          (env.maxCachedHotTpages + env.chunkTpages) =
          env.maxCachedTpages + env.maxCachedHotTpages := by omega
      simp only [bytes, hsum]
      exact Nat.le_refl _
  obtain ⟨env', he, hw, hcold', hhot'⟩ := hmoved.updateCaps
  rw [he]
  refine ⟨true, env', rfl, hw, (fun hd => by cases hd), fun _ => ⟨?_, ?_, hcold', hhot'⟩⟩
  all_goals omega

/-- Hot pages go back to the cold cache. -/
theorem shrinkHotToCold_within {env : CacheEnv} (h : env.Valid) :
    ∃ done env', env.shrinkHotToCold = some (done, env') ∧ Within env env' ∧
      (done = false → env' = env) ∧
      (done = true → env.minCachedHotTpages + env.chunkTpages ≤ env.maxCachedHotTpages ∧
        env.maxCachedTpages + env.chunkTpages ≤ env.totalCacheTpages ∧
        env'.maxCachedTpages = env.maxCachedTpages + env.chunkTpages ∧
        env'.maxCachedHotTpages = env.maxCachedHotTpages - env.chunkTpages) := by
  have hv := h
  obtain ⟨hcold, hhot, hcap, hkey, hentries, htotal, hpos, hle, hfits⟩ := hv
  have hlim : floor env.minCachedHotTpages env.chunkTpages = _ := floor_eq hpos (by omega)
  have hadd : add64 env.maxCachedTpages env.chunkTpages =
      some (env.maxCachedTpages + env.chunkTpages) := add64_of_lt (by omega)
  unfold shrinkHotToCold
  simp only [hlim, hadd, Option.bind_eq_bind, Option.bind_some]
  split
  · exact ⟨false, env, rfl, .refl h, fun _ => rfl, (fun hd => by cases hd)⟩
  next hroom =>
  split
  · exact ⟨false, env, rfl, .refl h, fun _ => rfl, (fun hd => by cases hd)⟩
  next hbelow =>
  -- Past the guards nothing wraps.
  have hsub : sub64 env.maxCachedHotTpages env.chunkTpages =
      some (env.maxCachedHotTpages - env.chunkTpages) := sub64_of_le (by omega)
  have hmul : mul64 (env.maxCachedHotTpages - env.chunkTpages) 512 =
      some ((env.maxCachedHotTpages - env.chunkTpages) * 512) := mul64_of_lt (by omega)
  simp only [hsub, hmul, Option.bind_some]
  have hmoved : Within env { env with
      maxCachedTpages := env.maxCachedTpages + env.chunkTpages
      maxCachedHotTpages := env.maxCachedHotTpages - env.chunkTpages
      maxCachedHotEntries := (env.maxCachedHotTpages - env.chunkTpages) * 512 } := by
    refine ⟨⟨?_, ?_, ?_, hkey, rfl, ?_, hpos, hle, hfits⟩, ?_, rfl, rfl, rfl, rfl, rfl, rfl, rfl⟩
    · show env.minCachedTpages ≤ env.maxCachedTpages + env.chunkTpages
      omega
    · show env.minCachedHotTpages ≤ env.maxCachedHotTpages - env.chunkTpages
      omega
    · show env.maxCachedHotTpages - env.chunkTpages ≤ env.hotTpagesCap
      omega
    · show env.maxCachedTpages + env.chunkTpages + (env.maxCachedHotTpages - env.chunkTpages) ≤
        env.totalCacheTpages
      omega
    · have hsum : env.maxCachedTpages + env.chunkTpages +
          (env.maxCachedHotTpages - env.chunkTpages) =
          env.maxCachedTpages + env.maxCachedHotTpages := by omega
      simp only [bytes, hsum]
      exact Nat.le_refl _
  obtain ⟨env', he, hw, hcold', hhot'⟩ := hmoved.updateCaps
  rw [he]
  refine ⟨true, env', rfl, hw, (fun hd => by cases hd), fun _ => ⟨?_, ?_, hcold', hhot'⟩⟩
  all_goals omega

/-- The key cache grows by at most a chunk, and the cold pages that it takes hold a
    chunk. -/
theorem expandKeyCache_within {env : CacheEnv} (h : env.Valid) (keyFree : Nat) :
    ∃ done env', env.expandKeyCache keyFree = some (done, env') ∧ Within env env' ∧
      (done = false → env' = env) ∧
      (done = true → ∃ pages, env.keyChunkPages = some pages ∧ 0 < pages ∧
        env.minCachedTpages + pages ≤ env.maxCachedTpages ∧
        env'.maxCachedTpages = env.maxCachedTpages - pages ∧
        env'.maxCachedHotTpages = env.maxCachedHotTpages) := by
  have hv := h
  obtain ⟨hcold, hhot, hcap, hkey, hentries, htotal, hpos, hle, hfits⟩ := hv
  obtain ⟨pages, hpages, hpagesPos, hcover, hround⟩ := keyChunkPages_eq h
  have hlim : floor env.minCachedTpages pages = _ := floor_eq hpagesPos (by omega)
  have hadd : add64 env.maxCachedFullKeyBudget env.keyChunkEntries =
      some (env.maxCachedFullKeyBudget + env.keyChunkEntries) := add64_of_lt (by omega)
  unfold expandKeyCache
  split
  · exact ⟨false, env, rfl, .refl h, fun _ => rfl, (fun hd => by cases hd)⟩
  next hfree =>
  split
  · exact ⟨false, env, rfl, .refl h, fun _ => rfl, (fun hd => by cases hd)⟩
  next hroomKey =>
  simp only [hadd, hpages, hlim, Option.bind_eq_bind, Option.bind_some]
  split
  · exact ⟨false, env, rfl, .refl h, fun _ => rfl, (fun hd => by cases hd)⟩
  next hroom =>
  generalize hb : (if env.keyEntriesCap < env.maxCachedFullKeyBudget + env.keyChunkEntries
    then env.keyEntriesCap else env.maxCachedFullKeyBudget + env.keyChunkEntries) = budget
  -- The budget is capped at `key_entries_cap`.
  have hbudget : env.maxCachedFullKeyBudget ≤ budget ∧ budget ≤ env.keyEntriesCap ∧
      budget ≤ env.maxCachedFullKeyBudget + env.keyChunkEntries := by
    split at hb <;> omega
  have hsub : sub64 env.maxCachedTpages pages = some (env.maxCachedTpages - pages) :=
    sub64_of_le (by omega)
  -- `key_free` is 0 here, so the bytes in use are the whole old budget.
  have hused : sub64 env.maxCachedFullKeyBudget keyFree =
      some (env.maxCachedFullKeyBudget - keyFree) := sub64_of_le (by omega)
  have hrest : sub64 budget (env.maxCachedFullKeyBudget - keyFree) =
      some (budget - (env.maxCachedFullKeyBudget - keyFree)) := sub64_of_le (by omega)
  simp only [hsub, hused, hrest, Option.bind_some]
  have hmoved : Within env { env with
      maxCachedTpages := env.maxCachedTpages - pages
      maxCachedFullKeyBudget := budget
      maxCachedFullKey := budget - (env.maxCachedFullKeyBudget - keyFree) } := by
    refine ⟨⟨?_, hhot, hcap, hbudget.2.1, hentries, ?_, hpos, hle, hfits⟩, ?_, rfl, rfl, rfl, rfl,
      rfl, rfl, rfl⟩
    · show env.minCachedTpages ≤ env.maxCachedTpages - pages
      omega
    · show env.maxCachedTpages - pages + env.maxCachedHotTpages ≤ env.totalCacheTpages
      omega
    · -- The bytes the key cache gains are at most those of the pages it takes.
      have hsum : env.maxCachedTpages - pages + env.maxCachedHotTpages + pages ≤
          env.maxCachedTpages + env.maxCachedHotTpages := by omega
      have hgain : budget ≤ env.maxCachedFullKeyBudget + pages * 4096 :=
        hbudget.2.2.trans (Nat.add_le_add_left hcover _)
      simp only [bytes]
      exact bytes_le hsum hgain
  obtain ⟨env', he, hw, hcold', hhot'⟩ := hmoved.updateCaps
  rw [he]
  have hmin : env.minCachedTpages + pages ≤ env.maxCachedTpages := by omega
  exact ⟨true, env', rfl, hw, (fun hd => by cases hd),
    fun _ => ⟨pages, rfl, hpagesPos, hmin, hcold', hhot'⟩⟩

/-- The second half of a rebalance. -/
theorem tryKeyOrShrink_within {env : CacheEnv} (h : env.Valid) (p : Pressure) :
    ∃ env', env.tryKeyOrShrink p = some env' ∧ Within env env' := by
  obtain ⟨done, env₁, he, hw, hsame, -⟩ := expandKeyCache_within h env.maxCachedFullKey
  unfold tryKeyOrShrink
  simp only [he, Option.bind_eq_bind, Option.bind_some]
  cases done with
  | true => exact ⟨env₁, rfl, hw⟩
  | false =>
    obtain ⟨done', env₂, he', hw', -⟩ := shrinkHotToCold_within hw.valid
    simp only [Bool.false_eq_true, if_false]
    split
    · rw [he']
      exact ⟨env₂, rfl, hw.trans hw'⟩
    · exact ⟨env₁, rfl, hw⟩

/-- `adaptive_try_rebalance` performs at most one of the three operations. -/
theorem tryRebalance_within {env : CacheEnv} (h : env.Valid) (p : Pressure) :
    ∃ env', env.tryRebalance p = some env' ∧ Within env env' := by
  have hhot : add64 env.maxCachedHotTpages env.chunkTpages =
      some (env.maxCachedHotTpages + env.chunkTpages) := by
    have htotal := h.total
    have hle := h.chunk_le
    have hfits := h.fits
    exact add64_of_lt (by omega)
  unfold tryRebalance
  split
  · exact ⟨env, rfl, .refl h⟩
  simp only [hhot, Option.bind_eq_bind, Option.bind_some]
  split
  · obtain ⟨done, env₁, he, hw, hsame, -⟩ := expandHotFromCold_within h
    rw [he, Option.bind_some]
    cases done with
    | true => exact ⟨env₁, rfl, hw⟩
    | false =>
      rw [hsame rfl]
      exact tryKeyOrShrink_within h p
  · exact tryKeyOrShrink_within h p

/-- No step wraps, whatever the operation, and each stays within the sizes before it. -/
theorem next_within {env : CacheEnv} (h : env.Valid) (l : BudgetLabel) :
    ∃ env', env.next l = some env' ∧ Within env env' := by
  cases l with
  | expandHot =>
    obtain ⟨done, env', he, hw, -⟩ := expandHotFromCold_within h
    exact ⟨env', by simp [next, he], hw⟩
  | shrinkHot =>
    obtain ⟨done, env', he, hw, -⟩ := shrinkHotToCold_within h
    exact ⟨env', by simp [next, he], hw⟩
  | expandKey =>
    obtain ⟨done, env', he, hw, -⟩ := expandKeyCache_within h env.maxCachedFullKey
    exact ⟨env', by simp [next, he], hw⟩
  | rebalance p => exact tryRebalance_within h p
  | keys free =>
    refine ⟨_, rfl, ⟨?_, Nat.le_refl _, rfl, rfl, rfl, rfl, rfl, rfl, rfl⟩⟩
    obtain ⟨h1, h2, h3, h4, h5, h6, h7, h8, h9⟩ := h
    exact ⟨h1, h2, h3, h4, h5, h6, h7, h8, h9⟩

end CacheEnv

/-! ## Section 4: The initial configuration -/

/-- `cache_env_init` is valid when it starts above its minima and below its caps. -/
theorem cacheEnvInit_valid {verifyCache : Bool} {cold hot key : Nat} {env : CacheEnv}
    (hinit : cacheEnvInit verifyCache cold hot key = some env) (hpages : cold + hot ≤ 4294967296)
    (hpos : 0 < cold + hot) (hcold : env.minCachedTpages ≤ cold)
    (hhot : env.minCachedHotTpages ≤ hot) (hcap : hot ≤ env.hotTpagesCap)
    (hkey : key ≤ env.keyEntriesCap) : env.Valid := by
  have hshare : (cold + hot) * 1 / 100 ≤ cold + hot := by omega
  unfold cacheEnvInit at hinit
  rw [mul64_of_lt (show hot * 512 < 18446744073709551616 by omega),
    add64_of_lt (show cold + hot < 18446744073709551616 by omega)] at hinit
  simp only [Option.bind_eq_bind, Option.bind_some] at hinit
  rw [mul64_of_lt (show (cold + hot) * 20 < 18446744073709551616 by omega),
    mul64_of_lt (show (cold + hot) * 1 < 18446744073709551616 by omega)] at hinit
  simp only [Option.bind_some] at hinit
  generalize hchunk : (if (cold + hot) * 1 / 100 = 0 then 1 else (cold + hot) * 1 / 100) = chunk
    at hinit
  -- One percent of the pages, but at least one page.
  have hchunkLe : 0 < chunk ∧ chunk ≤ cold + hot := by
    split at hchunk <;> omega
  rw [mul64_of_lt (show chunk * 512 < 18446744073709551616 by omega),
    mul64_of_lt (show (cold + hot) * 10 < 18446744073709551616 by omega)] at hinit
  simp only [Option.bind_some] at hinit
  rw [mul64_of_lt (show (cold + hot) * 10 / 100 * 512 < 18446744073709551616 by omega)] at hinit
  simp only [Option.bind_some] at hinit
  rw [mul64_of_lt (show (cold + hot) * 10 / 100 * 512 * 128 < 18446744073709551616 by omega),
    mul64_of_lt (show (cold + hot) * 1 / 1000 * 512 < 18446744073709551616 by omega)] at hinit
  simp only [Option.bind_some] at hinit
  rw [mul64_of_lt (show (cold + hot) * 1 / 1000 * 512 * 128 < 18446744073709551616 by omega)]
    at hinit
  cases hinit
  -- With at most 2^32 pages every product fits into 64 bits.
  refine ⟨hcold, hhot, hcap, hkey, rfl, Nat.le_refl _, hchunkLe.1, hchunkLe.2, ?_⟩
  dsimp only
  split <;> omega

/-- The environment of the shipped device: 67108864 pages, 5 % of the cache hot. -/
def shippedEnv : CacheEnv where
  maxCachedTpages := 62260
  maxCachedHotTpages := 3277
  maxCachedHotEntries := 1677824
  maxCachedFullKey := 0
  maxCachedFullKeyBudget := 0
  totalCacheTpages := 65537
  hotTpagesCap := 13107
  minCachedTpages := 655
  minCachedHotTpages := 655
  chunkTpages := 655
  nHot := 1310
  keyEntriesCap := 429457408
  keyChunkEntries := 4259840
  ghostColdCap := 0
  ghostKeyCap := 0
  verifyCache := false

/-- The configuration of the shipped sizes. -/
theorem cacheEnvInit_shipped : cacheEnvInit false 62260 3277 0 = some shippedEnv := by decide

theorem shippedEnv_valid : shippedEnv.Valid :=
  cacheEnvInit_valid cacheEnvInit_shipped (by decide) (by decide) (by decide) (by decide)
    (by decide) (by decide)

/-! ## Section 5: Runs of rebalances -/

/-- No run of rebalances leaves the budget. -/
theorem within_of_reachable {env₀ env : CacheEnv} (h₀ : env₀.Valid)
    (hr : (budgetMachine env₀).Reachable env) : CacheEnv.Within env₀ env := by
  refine Machine.Reach.invariant ?_ ?_ hr
  · intro env hinit
    rw [show env = env₀ from hinit]
    exact .refl h₀
  · intro env env' l _ hw _ hn
    obtain ⟨env'', he, hw'⟩ := CacheEnv.next_within hw.valid l
    have heq : env'' = env' := Option.some.inj (he.symm.trans hn)
    exact heq ▸ hw.trans hw'

/-- **The memory budget is conserved.** From a configuration within its own minima and
    caps, any sequence of rebalances keeps the pages of the cold and the hot cache and
    the bytes of the key cache within the memory they started with, each partition above
    its minimum and below its cap, and the number of hot entries that of the hot pages.
    No operation is ever stopped by an expression that wraps. -/
theorem dram_budget (env₀ : CacheEnv) (h₀ : env₀.Valid) (env : CacheEnv)
    (hr : (budgetMachine env₀).Reachable env) :
    (env.maxCachedTpages + env.maxCachedHotTpages) * 4096 + env.maxCachedFullKeyBudget ≤
        (env₀.maxCachedTpages + env₀.maxCachedHotTpages) * 4096 + env₀.maxCachedFullKeyBudget ∧
      env₀.minCachedTpages ≤ env.maxCachedTpages ∧
      env₀.minCachedHotTpages ≤ env.maxCachedHotTpages ∧
      env.maxCachedHotTpages ≤ env₀.hotTpagesCap ∧
      env.maxCachedFullKeyBudget ≤ env₀.keyEntriesCap ∧
      env.maxCachedHotEntries = env.maxCachedHotTpages * 512 ∧
      ∀ l, ∃ env', env.next l = some env' := by
  have hw := within_of_reachable h₀ hr
  refine ⟨hw.bytes_le, ?_, ?_, ?_, ?_, hw.valid.entries, ?_⟩
  · exact hw.minCold ▸ hw.valid.cold_min
  · exact hw.minHot ▸ hw.valid.hot_min
  · exact hw.hotCap ▸ hw.valid.hot_cap
  · exact hw.keyCap ▸ hw.valid.key_cap
  · intro l
    obtain ⟨env', he, -⟩ := CacheEnv.next_within hw.valid l
    exact ⟨env', he⟩

/-- A rebalance that expands the hot cache, one that expands the key cache, and one that
    shrinks the hot cache again. -/
theorem dram_budget_shipped : ∃ env, (budgetMachine shippedEnv).exec shippedEnv
      [.rebalance ⟨true, 0, 0, 600, 0⟩, .expandKey, .rebalance ⟨true, 0, 0, 0, 0⟩] = some env ∧
    (env.maxCachedTpages + env.maxCachedHotTpages) * 4096 + env.maxCachedFullKeyBudget ≤
      (62260 + 3277) * 4096 ∧
    env.maxCachedHotTpages ≤ 13107 ∧ env.maxCachedHotEntries = env.maxCachedHotTpages * 512 := by
  obtain ⟨env, he⟩ : ∃ env, (budgetMachine shippedEnv).exec shippedEnv
      [.rebalance ⟨true, 0, 0, 600, 0⟩, .expandKey, .rebalance ⟨true, 0, 0, 0, 0⟩] = some env :=
    Option.isSome_iff_exists.mp (by decide)
  have hr : (budgetMachine shippedEnv).Reachable env :=
    Machine.Reachable.exec (Machine.Reachable.init rfl) he
  obtain ⟨hbytes, -, -, hcap, -, hentries, -⟩ := dram_budget shippedEnv shippedEnv_valid env hr
  exact ⟨env, he, hbytes, hcap, hentries⟩

/-! ## Section 6: The rebalance of the mapping store -/

variable {cfg : Settings}

@[simp] theorem Hot.maxCachedHotTpages_collectLoop (n : Nat) (h : Hot) :
    (h.collectLoop n).maxCachedHotTpages = h.maxCachedHotTpages := by
  induction n generalizing h with
  | zero => rfl
  | succ n ih =>
    unfold Hot.collectLoop
    split
    · rw [ih]
      unfold Hot.collectSlot
      dsimp only
      split <;> rfl
    · rfl

@[simp] theorem Hot.maxCachedHotTpages_insertEntry (h : Hot) (e : HotPte) :
    (h.insertEntry e).maxCachedHotTpages = h.maxCachedHotTpages := by
  unfold Hot.insertEntry
  cases e.lpa with
  | none => rfl
  | some lpa =>
    show (h.placeEntry e lpa).maxCachedHotTpages = h.maxCachedHotTpages
    unfold Hot.placeEntry
    dsimp only
    split <;> rfl

@[simp] theorem Hot.maxCachedHotTpages_insertLoop (n : Nat) (h : Hot) :
    (h.insertLoop n).maxCachedHotTpages = h.maxCachedHotTpages := by
  induction n generalizing h with
  | zero => rfl
  | succ n ih =>
    unfold Hot.insertLoop
    split
    · rw [ih, Hot.maxCachedHotTpages_insertEntry]
    · rfl

/-- A rehash changes the slots, not the number of pages. -/
theorem Hot.maxCachedHotTpages_rehashDrain (n : Nat) (h : Hot) :
    (h.rehashDrain n).maxCachedHotTpages = h.maxCachedHotTpages := by
  induction n generalizing h with
  | zero => rfl
  | succ n ih =>
    have htick : h.rehashTick.maxCachedHotTpages = h.maxCachedHotTpages := by
      unfold Hot.rehashTick
      cases h.phase with
      | idle => rfl
      | collect =>
        dsimp only
        split <;> simp
      | insert =>
        dsimp only
        split <;> simp [Hot.rehashFinish]
    unfold Hot.rehashDrain
    split
    · rfl
    · rw [ih, htick]

theorem Hot.maxCachedHotTpages_rehashDrainAll (h : Hot) :
    h.rehashDrainAll.maxCachedHotTpages = h.maxCachedHotTpages :=
  h.maxCachedHotTpages_rehashDrain 200000001

/-- The sizes of `env` are those of the mapping store. -/
structure Sized (cfg : Settings) (s : Store) (env : CacheEnv) : Prop where
  cold : s.cold.maxCachedTpages = env.maxCachedTpages
  hot : s.hot.maxCachedHotTpages = env.maxCachedHotTpages
  total : cfg.totalCacheTpages = env.totalCacheTpages
  cap : cfg.hotTpagesCap = env.hotTpagesCap
  chunk : cfg.chunkTpages = env.chunkTpages
  minCold : env.minCachedTpages = env.chunkTpages
  minHot : env.minCachedHotTpages = env.chunkTpages
  keyPages : env.keyChunkPages = some cfg.keyChunkPages

namespace Sized

variable {s s' : Store} {env env' : CacheEnv}

/-- The constants of the environment do not change. -/
theorem resize (h : Sized cfg s env) (hw : CacheEnv.Within env env')
    (hcold : s'.cold.maxCachedTpages = env'.maxCachedTpages)
    (hhot : s'.hot.maxCachedHotTpages = env'.maxCachedHotTpages) : Sized cfg s' env' where
  cold := hcold
  hot := hhot
  total := h.total.trans hw.total.symm
  cap := h.cap.trans hw.hotCap.symm
  chunk := h.chunk.trans hw.chunk.symm
  minCold := by rw [hw.minCold, hw.chunk, h.minCold]
  minHot := by rw [hw.minHot, hw.chunk, h.minHot]
  keyPages := by
    rw [← h.keyPages]
    simp only [CacheEnv.keyChunkPages, hw.keyChunk]

/-- An operation that gives up keeps the store; one that succeeds is the choice of its
    name. -/
theorem expandHot (h : Sized cfg s env) (hv : env.Valid) :
    ∃ done env', env.expandHotFromCold = some (done, env') ∧
      Sized cfg (s.rebalance cfg (if done then .expandHot else .keep)) env' := by
  obtain ⟨done, env', he, hw, hsame, hmoved⟩ := CacheEnv.expandHotFromCold_within hv
  refine ⟨done, env', he, ?_⟩
  cases done with
  | false =>
    rw [hsame rfl]
    exact h
  | true =>
    obtain ⟨hmin, hcap, hcold', hhot'⟩ := hmoved rfl
    have hpos := hv.chunk_pos
    have hmc := h.minCold
    -- The guards of the store are those of the environment.
    have hg : ¬(s.cold.maxCachedTpages ≤ cfg.chunkTpages + cfg.chunkTpages - 1 ∨
        cfg.hotTpagesCap < s.hot.maxCachedHotTpages + cfg.chunkTpages) := by
      rw [h.cold, h.hot, h.cap, h.chunk]
      omega
    rw [if_pos rfl]
    unfold Store.rebalance
    dsimp only
    rw [if_neg hg]
    apply h.resize hw
    · show s.cold.maxCachedTpages - cfg.chunkTpages = env'.maxCachedTpages
      rw [hcold', h.cold, h.chunk]
    · rw [Hot.maxCachedHotTpages_rehashDrainAll, hhot', ← h.hot, ← h.chunk]
      rfl

/-- The same for the way back. -/
theorem shrinkHot (h : Sized cfg s env) (hv : env.Valid) :
    ∃ done env', env.shrinkHotToCold = some (done, env') ∧
      Sized cfg (s.rebalance cfg (if done then .shrinkHot else .keep)) env' := by
  obtain ⟨done, env', he, hw, hsame, hmoved⟩ := CacheEnv.shrinkHotToCold_within hv
  refine ⟨done, env', he, ?_⟩
  cases done with
  | false =>
    rw [hsame rfl]
    exact h
  | true =>
    obtain ⟨hmin, htotal, hcold', hhot'⟩ := hmoved rfl
    have hpos := hv.chunk_pos
    have hmh := h.minHot
    -- The pages that the hot table gives up are within what the cold cache may take.
    have hg : ¬(s.hot.maxCachedHotTpages ≤ cfg.chunkTpages + cfg.chunkTpages - 1 ∨
        cfg.totalCacheTpages < s.cold.maxCachedTpages + cfg.chunkTpages) := by
      rw [h.cold, h.hot, h.total, h.chunk]
      omega
    rw [if_pos rfl]
    unfold Store.rebalance
    dsimp only
    rw [if_neg hg]
    apply h.resize hw
    · show s.cold.maxCachedTpages + cfg.chunkTpages = env'.maxCachedTpages
      rw [hcold', h.cold, h.chunk]
    · rw [Hot.maxCachedHotTpages_rehashDrainAll, hhot', ← h.hot, ← h.chunk]
      rfl

/-- And for the key cache, which takes its pages from the cold cache. -/
theorem expandKey (h : Sized cfg s env) (hv : env.Valid) (keyFree : Nat) :
    ∃ done env', env.expandKeyCache keyFree = some (done, env') ∧
      Sized cfg (s.rebalance cfg (if done then .expandKey else .keep)) env' := by
  obtain ⟨done, env', he, hw, hsame, hmoved⟩ := CacheEnv.expandKeyCache_within hv keyFree
  refine ⟨done, env', he, ?_⟩
  cases done with
  | false =>
    rw [hsame rfl]
    exact h
  | true =>
    obtain ⟨pages, hpages, hpos, hmin, hcold', hhot'⟩ := hmoved rfl
    have hkey : cfg.keyChunkPages = pages := Option.some.inj (h.keyPages.symm.trans hpages)
    have hmc := h.minCold
    have hg : ¬s.cold.maxCachedTpages ≤ cfg.chunkTpages + cfg.keyChunkPages - 1 := by
      rw [h.cold, h.chunk, hkey]
      omega
    rw [if_pos rfl]
    unfold Store.rebalance
    dsimp only
    rw [if_neg hg]
    apply h.resize hw
    · show s.cold.maxCachedTpages - cfg.keyChunkPages = env'.maxCachedTpages
      rw [hcold', h.cold, hkey]
    · show s.hot.maxCachedHotTpages = env'.maxCachedHotTpages
      rw [hhot', h.hot]

/-- Every rebalance of the environment is a rebalance of the mapping store. -/
theorem tryRebalance (h : Sized cfg s env) (hv : env.Valid) (p : CacheEnv.Pressure)
    (hacc : p.accessible = s.hot.accessible) : ∃ choice env', env.tryRebalance p = some env' ∧
      Sized cfg (s.tryRebalance cfg choice) env' := by
  have hadd : add64 env.maxCachedHotTpages env.chunkTpages =
      some (env.maxCachedHotTpages + env.chunkTpages) := by
    have htotal := hv.total
    have hle := hv.chunk_le
    have hfits := hv.fits
    exact add64_of_lt (by omega)
  cases hb : s.hot.accessible with
  | false =>
    refine ⟨.keep, env, by simp [CacheEnv.tryRebalance, hacc, hb], ?_⟩
    have hskip : s.tryRebalance cfg .keep = { s with hot := s.hot.rehashDrain 48 } := by
      simp [Store.tryRebalance, hb]
    rw [hskip]
    apply h.resize (.refl hv)
    · exact h.cold
    · show (s.hot.rehashDrain 48).maxCachedHotTpages = env.maxCachedHotTpages
      rw [Hot.maxCachedHotTpages_rehashDrain, h.hot]
  | true =>
    have hgo : ∀ choice, s.tryRebalance cfg choice = s.rebalance cfg choice := fun choice => by
      simp [Store.tryRebalance, hb]
    have hrest : ∃ choice env', env.tryKeyOrShrink p = some env' ∧
        Sized cfg (s.rebalance cfg choice) env' := by
      obtain ⟨done, env₁, he, hs⟩ := h.expandKey hv env.maxCachedFullKey
      obtain ⟨done', env₁', he', -, hsame, -⟩ :=
        CacheEnv.expandKeyCache_within hv env.maxCachedFullKey
      unfold CacheEnv.tryKeyOrShrink
      simp only [he, Option.bind_eq_bind, Option.bind_some]
      rw [he] at he'
      cases done with
      | true => exact ⟨.expandKey, env₁, rfl, hs⟩
      | false =>
        cases he'
        rw [hsame rfl]
        simp only [Bool.false_eq_true, if_false]
        split
        · obtain ⟨done', env₂, he₂, hs₂⟩ := h.shrinkHot hv
          rw [he₂]
          exact ⟨_, env₂, rfl, hs₂⟩
        · exact ⟨.keep, env, rfl, h⟩
    simp only [hgo]
    unfold CacheEnv.tryRebalance
    simp only [hacc, hb, Bool.not_true, Bool.false_eq_true, if_false, hadd, Option.bind_eq_bind,
      Option.bind_some]
    split
    · obtain ⟨done, env₁, he, hs⟩ := h.expandHot hv
      obtain ⟨done', env₁', he', -, hsame, -⟩ := CacheEnv.expandHotFromCold_within hv
      rw [he] at he'
      rw [he, Option.bind_some]
      cases done with
      | true => exact ⟨.expandHot, env₁, rfl, hs⟩
      | false =>
        cases he'
        rw [hsame rfl]
        exact hrest
    · exact hrest

end Sized

end AggreKV.HashKv
