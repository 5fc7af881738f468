import AggreKV.HashKv.WarmRehash

/-! # The settled hot table

    A hot table of less than 2^31 pages is rehashed before the drain of a
    rebalance gives up, so every step leaves the table idle.

    * `CacheEnv.Sized`, `Settled`: sizes and phase between two steps.
    * `Unghosted`: what the evictions of key ghosts leave alone.
    * `DropsKey`, `Placed`: what a promotion does to the table. -/

namespace AggreKV.HashKv

/-! ## Section 1: Sizes -/

namespace CacheEnv

/-- A hot table that is not empty, and that a rehash gets through. -/
structure Sized (env : CacheEnv) : Prop where
  entries : env.maxCachedHotEntries = env.maxCachedHotTpages * 512
  hot_pos : 0 < env.maxCachedHotTpages
  min_pos : 0 < env.minCachedHotTpages
  total : env.maxCachedTpages + env.maxCachedHotTpages < 2147483648

/-- The hot table gets `pages` pages; the key cache stays as it is. -/
structure Resized (env env' : CacheEnv) : Prop where
  sized : env'.Sized
  free : env'.maxCachedFullKey = env.maxCachedFullKey
  budget : env'.maxCachedFullKeyBudget = env.maxCachedFullKeyBudget
  verifyCache : env'.verifyCache = env.verifyCache

/-- Only the caps of the ghosts change. -/
theorem updateCaps_some {env env' : CacheEnv} (h : env.updateCaps = some env') :
    ∃ ghostCold ghostKey,
    env' = { env with ghostColdCap := ghostCold, ghostKeyCap := ghostKey } := by
  obtain ⟨_, _, h⟩ := Option.bind_eq_some_iff.mp h
  obtain ⟨_, _, h⟩ := Option.bind_eq_some_iff.mp h
  dsimp only at h
  split at h
  · obtain ⟨_, _, h⟩ := Option.bind_eq_some_iff.mp h
    cases h
    exact ⟨_, _, rfl⟩
  · cases h
    exact ⟨_, _, rfl⟩

/-- A sum that did not wrap. -/
theorem add64_some {a b c : Nat} (h : add64 a b = some c) : c = a + b := by
  unfold add64 at h
  split at h
  · cases h
    rfl
  · cases h

/-- A difference that did not wrap. -/
theorem sub64_some {a b c : Nat} (h : sub64 a b = some c) : c = a - b ∧ b ≤ a := by
  unfold sub64 at h
  split at h
  · next hle =>
    cases h
    exact ⟨rfl, hle⟩
  · cases h

/-- A product that did not wrap. -/
theorem mul64_some {a b c : Nat} (h : mul64 a b = some c) : c = a * b := by
  unfold mul64 at h
  split at h
  · cases h
    rfl
  · cases h

theorem floor_some {min chunk c : Nat} (h : floor min chunk = some c) : c = min + chunk - 1 := by
  obtain ⟨sum, hsum, h⟩ := Option.bind_eq_some_iff.mp h
  rw [(sub64_some h).1, add64_some hsum]

/-- What `cache_env_init` and the ghost caps of the bootstrap give. -/
theorem sized_of_init {verifyCache : Bool} {cold hot key : Nat} {env₀ env : CacheEnv}
    (hinit : cacheEnvInit verifyCache cold hot key = some env₀) (hcaps : env₀.updateCaps = some env)
    (hpos : 0 < hot) (hsize : cold + hot < 2147483648) :
    env.Sized ∧ env.maxCachedFullKey = key ∧ env.maxCachedFullKeyBudget = key ∧
      env.verifyCache = verifyCache := by
  obtain ⟨entries, hentries, h⟩ := Option.bind_eq_some_iff.mp hinit
  obtain ⟨total, _, h⟩ := Option.bind_eq_some_iff.mp h
  obtain ⟨cap, _, h⟩ := Option.bind_eq_some_iff.mp h
  obtain ⟨share, _, h⟩ := Option.bind_eq_some_iff.mp h
  obtain ⟨thresh, _, h⟩ := Option.bind_eq_some_iff.mp h
  obtain ⟨keyPages, _, h⟩ := Option.bind_eq_some_iff.mp h
  obtain ⟨keyEntries, _, h⟩ := Option.bind_eq_some_iff.mp h
  obtain ⟨keyCap, _, h⟩ := Option.bind_eq_some_iff.mp h
  obtain ⟨stepEntries, _, h⟩ := Option.bind_eq_some_iff.mp h
  obtain ⟨step, _, h⟩ := Option.bind_eq_some_iff.mp h
  cases h
  obtain ⟨ghostCold, ghostKey, rfl⟩ := updateCaps_some hcaps
  refine ⟨⟨mul64_some hentries, hpos, ?_, hsize⟩, rfl, rfl, rfl⟩
  show 0 < if share / 100 = 0 then 1 else share / 100
  split <;> omega

/-- `adaptive_expand_hot_from_cold` that succeeds. -/
theorem expandHotFromCold_some {env env' : CacheEnv} (h : env.expandHotFromCold = some (true, env'))
    (hs : env.Sized) :
    Resized env env' ∧ env'.maxCachedHotTpages = env.maxCachedHotTpages + env.chunkTpages := by
  obtain ⟨lim, hlim, h⟩ := Option.bind_eq_some_iff.mp h
  split at h
  · cases h
  · next hroom =>
    obtain ⟨hot, hhot, h⟩ := Option.bind_eq_some_iff.mp h
    split at h
    · cases h
    · obtain ⟨cold, hcold, h⟩ := Option.bind_eq_some_iff.mp h
      obtain ⟨entries, hentries, h⟩ := Option.bind_eq_some_iff.mp h
      obtain ⟨env₁, hcaps, h⟩ := Option.bind_eq_some_iff.mp h
      cases h
      obtain ⟨ghostCold, ghostKey, rfl⟩ := updateCaps_some hcaps
      have hhot' := add64_some hhot
      obtain ⟨hcold', hle⟩ := sub64_some hcold
      have hpos := hs.hot_pos
      have htotal := hs.total
      refine ⟨⟨⟨mul64_some hentries, ?_, hs.min_pos, ?_⟩, rfl, rfl, rfl⟩, hhot'⟩
      · show 0 < hot
        omega
      · show cold + hot < 2147483648
        omega

/-- `adaptive_shrink_hot_to_cold` that succeeds. -/
theorem shrinkHotToCold_some {env env' : CacheEnv} (h : env.shrinkHotToCold = some (true, env'))
    (hs : env.Sized) :
    Resized env env' ∧ env.maxCachedHotTpages = env'.maxCachedHotTpages + env.chunkTpages := by
  obtain ⟨lim, hlim, h⟩ := Option.bind_eq_some_iff.mp h
  split at h
  · cases h
  · next hroom =>
    obtain ⟨cold, hcold, h⟩ := Option.bind_eq_some_iff.mp h
    split at h
    · cases h
    · obtain ⟨hot, hhot, h⟩ := Option.bind_eq_some_iff.mp h
      obtain ⟨entries, hentries, h⟩ := Option.bind_eq_some_iff.mp h
      obtain ⟨env₁, hcaps, h⟩ := Option.bind_eq_some_iff.mp h
      cases h
      obtain ⟨ghostCold, ghostKey, rfl⟩ := updateCaps_some hcaps
      have hcold' := add64_some hcold
      have hlim' := floor_some hlim
      obtain ⟨hhot', hle⟩ := sub64_some hhot
      have hpos := hs.min_pos
      have htotal := hs.total
      refine ⟨⟨⟨mul64_some hentries, ?_, hs.min_pos, ?_⟩, rfl, rfl, rfl⟩, ?_⟩
      · show 0 < hot
        omega
      · show cold + hot < 2147483648
        omega
      · show env.maxCachedHotTpages = hot + env.chunkTpages
        omega

/-- `adaptive_expand_key_cache` that succeeds: there were no free bytes, and the new ones
    are those of the larger budget. -/
theorem expandKeyCache_some {env env' : CacheEnv}
    (h : env.expandKeyCache env.maxCachedFullKey = some (true, env')) (hs : env.Sized) :
    env'.Sized ∧ env'.maxCachedHotTpages = env.maxCachedHotTpages ∧
      env'.maxCachedHotEntries = env.maxCachedHotEntries ∧
      env'.verifyCache = env.verifyCache ∧ env.maxCachedFullKey = 0 ∧
      env'.maxCachedFullKey + env.maxCachedFullKeyBudget = env'.maxCachedFullKeyBudget := by
  unfold expandKeyCache at h
  split at h
  · cases h
  · next hfree =>
    split at h
    · cases h
    · obtain ⟨sum, _, h⟩ := Option.bind_eq_some_iff.mp h
      obtain ⟨pages, _, h⟩ := Option.bind_eq_some_iff.mp h
      obtain ⟨lim, _, h⟩ := Option.bind_eq_some_iff.mp h
      split at h
      · cases h
      · obtain ⟨cold, hcold, h⟩ := Option.bind_eq_some_iff.mp h
        obtain ⟨used, hused, h⟩ := Option.bind_eq_some_iff.mp h
        obtain ⟨free, hfree', h⟩ := Option.bind_eq_some_iff.mp h
        obtain ⟨env₁, hcaps, h⟩ := Option.bind_eq_some_iff.mp h
        cases h
        obtain ⟨ghostCold, ghostKey, rfl⟩ := updateCaps_some hcaps
        have hzero : env.maxCachedFullKey = 0 := not_not.mp hfree
        obtain ⟨hcold', _⟩ := sub64_some hcold
        obtain ⟨hused', _⟩ := sub64_some hused
        obtain ⟨hfree'', hle⟩ := sub64_some hfree'
        have htotal := hs.total
        refine ⟨⟨hs.entries, hs.hot_pos, hs.min_pos, ?_⟩, rfl, rfl, rfl, hzero, ?_⟩
        · show cold + env.maxCachedHotTpages < 2147483648
          omega
        · show free + env.maxCachedFullKeyBudget = _
          rw [hzero, Nat.sub_zero] at hused'
          rw [hused'] at hfree'' hle
          rw [hfree'']
          exact Nat.sub_add_cancel hle

end CacheEnv

namespace HotTable

variable {h h' h'' : HotTable}

/-- The table between two steps. -/
structure Settled (h : HotTable) : Prop where
  idle : h.phase = .idle
  sized : h.env.Sized

/-- A settled table can be read. -/
theorem Settled.accessible (hs : h.Settled) : h.accessible = true := decide_eq_true hs.idle

theorem Settled.entries (hs : h.Settled) : h.env.maxCachedHotEntries = h.active := hs.sized.entries

theorem Settled.active_pos (hs : h.Settled) : 0 < h.active := by
  have hpos := hs.sized.hot_pos
  unfold active
  omega

/-- The probes are active slots. -/
theorem Settled.probes_lt (hs : h.Settled) {lpa n i : Nat} (hi : i ∈ h.probes lpa n) :
    i < h.active := HotTable.probes_lt hs.entries hs.active_pos lpa n i hi

/-- What a search finds. -/
theorem findLpa_some {slots : List Nat} {lpa i : Nat} (hf : h.findLpa slots lpa = some i) :
    i ∈ slots ∧ (h.slots i).lpa = some lpa := by
  refine ⟨List.mem_of_find?_eq_some hf, ?_⟩
  have hp := List.find?_some hf
  exact of_decide_eq_true hp

/-- And what it does not. -/
theorem findLpa_none {slots : List Nat} {lpa : Nat} (hf : h.findLpa slots lpa = none) :
    ∀ i ∈ slots, (h.slots i).lpa ≠ some lpa := by
  intro i hi
  have hp := List.find?_eq_none.mp hf i hi
  simpa using hp

/-! ## Section 2: Ghost evictions -/

/-- Evictions of key ghosts lie between the two tables. -/
structure Unghosted (h h' : HotTable) : Prop where
  rest : h' = { h with
    slots := h'.slots, ghostStateLive := h'.ghostStateLive, nrGhostKey := h'.nrGhostKey,
    keyFifo := h'.keyFifo, keyScanRr := h'.keyScanRr }
  mapping : ∀ i, (h'.slots i).toPte = (h.slots i).toPte
  realKey : ∀ i, (h'.slots i).realKey = (h.slots i).realKey

namespace Unghosted

theorem refl (h : HotTable) : Unghosted h h := ⟨rfl, fun _ => rfl, fun _ => rfl⟩

theorem trans (hu : Unghosted h h') (hu' : Unghosted h' h'') : Unghosted h h'' := by
  refine ⟨?_, fun i => (hu'.mapping i).trans (hu.mapping i),
    fun i => (hu'.realKey i).trans (hu.realKey i)⟩
  rw [hu'.rest, hu.rest]

/-- The lpas stay. -/
theorem lpa (hu : Unghosted h h') (i : Nat) : (h'.slots i).lpa = (h.slots i).lpa :=
  congrArg HotPte.lpa (hu.mapping i)

theorem state (hu : Unghosted h h') (i : Nat) : (h'.slots i).state = (h.slots i).state :=
  congrArg HotPte.state (hu.mapping i)

theorem env (hu : Unghosted h h') : h'.env = h.env := by rw [hu.rest]

theorem phase (hu : Unghosted h h') : h'.phase = h.phase := by rw [hu.rest]

theorem stateLive (hu : Unghosted h h') : h'.stateLive = h.stateLive := by rw [hu.rest]

theorem validEntries (hu : Unghosted h h') : h'.validEntries = h.validEntries := by rw [hu.rest]

/-- A slot gets another ghost mark. -/
theorem setSlot (h : HotTable) (i : Nat) {e : HotSlot} (hp : e.toPte = (h.slots i).toPte)
    (hk : e.realKey = (h.slots i).realKey) : Unghosted h (h.setSlot i e) := by
  refine ⟨rfl, fun j => ?_, fun j => ?_⟩
  · rw [slots_setSlot]
    split
    · next hj => rw [hj, hp]
    · rfl
  · rw [slots_setSlot]
    split
    · next hj => rw [hj, hk]
    · rfl

/-- Unmarking a ghost. -/
theorem ghostKeyUnmark (h : HotTable) (i : Nat) : Unghosted h (h.ghostKeyUnmark i) := by
  have hset : Unghosted h
      (h.setSlot i { h.slots i with keyGhostMark := false, keyGhostState := 0 }) :=
      setSlot h i rfl rfl
  exact ⟨rfl, hset.mapping, hset.realKey⟩

/-- Evictions of ghosts. -/
theorem ghostKeyEvictDownTo (limit rounds : Nat) (h : HotTable) :
    Unghosted h (h.ghostKeyEvictDownTo limit rounds) := by
  refine ghostKeyEvictDownTo_rule ?_ ?_ ?_ limit rounds (refl h)
  · intro g f hg
    exact hg.trans ⟨rfl, fun _ => rfl, fun _ => rfl⟩
  · intro g rr hg
    exact hg.trans ⟨rfl, fun _ => rfl, fun _ => rfl⟩
  · intro g i _ hg
    exact hg.trans (ghostKeyUnmark g i)

/-- A trim to the cap. -/
theorem ghostTrim (h : HotTable) : Unghosted h h.ghostTrim := by
  have hfifo : Unghosted h { h with keyFifo := .alloc h.env.ghostKeyCap } :=
    ⟨rfl, fun _ => rfl, fun _ => rfl⟩
  exact hfifo.trans (ghostKeyEvictDownTo (h.env.ghostKeyCap + 1) h.nrGhostKey _)

/-- A verified ghost. -/
theorem ghostKeyOnFlashVerify (h : HotTable) (i : Nat) (keyFp : UInt32) :
    Unghosted h (h.ghostKeyOnFlashVerify i keyFp) := by
  unfold HotTable.ghostKeyOnFlashVerify
  dsimp only
  split
  · exact refl h
  · split
    · exact refl h
    · have hset : Unghosted h (h.setSlot i { h.slots i with
          keyGhostState := if (h.slots i).keyGhostState < 5 then (h.slots i).keyGhostState + 1
            else (h.slots i).keyGhostState }) := setSlot h i rfl rfl
      exact ⟨rfl, hset.mapping, hset.realKey⟩

/-- Ghosts do not unsettle the table. -/
theorem settled (hu : Unghosted h h') (hs : h.Settled) : h'.Settled :=
  ⟨hu.phase.trans hs.idle, hu.env ▸ hs.sized⟩

end Unghosted

/-! ## Section 3: Promotions -/

/-- The key of slot `i` has been dropped; evictions of other ghosts may have made room for
    its own. Its bytes are free again. -/
structure DropsKey (h h' : HotTable) (i : Nat) : Prop where
  rest : h' = { h with
    slots := h'.slots, env := h'.env, ghostStateLive := h'.ghostStateLive,
    nrGhostKey := h'.nrGhostKey, keyFifo := h'.keyFifo, keyScanRr := h'.keyScanRr }
  env : h'.env = { h.env with maxCachedFullKey := h'.env.maxCachedFullKey }
  mapping : ∀ j, (h'.slots j).toPte = (h.slots j).toPte
  others : ∀ j, j ≠ i → (h'.slots j).realKey = (h.slots j).realKey
  free : (h.slots i).realKey.length + h.env.maxCachedFullKey ≤ h.env.maxCachedFullKeyBudget →
    (h'.slots i).realKey.length + h'.env.maxCachedFullKey =
      (h.slots i).realKey.length + h.env.maxCachedFullKey
  dropped : h.env.verifyCache = true → (h'.slots i).realKey = []

/-- A mark yields the bytes of the key: a budget that covers the key is not all free. -/
theorem yieldKeyBudget_free {env : CacheEnv} {slot : HotSlot}
    (hle : slot.realKey.length + env.maxCachedFullKey ≤ env.maxCachedFullKeyBudget) :
    (yieldKeyBudget env slot).maxCachedFullKey = slot.realKey.length + env.maxCachedFullKey := by
  unfold yieldKeyBudget
  split
  · exact Nat.add_comm ..
  · next hno =>
    have hnil : slot.realKey = [] := by
      by_contra hne
      have hpos := List.length_pos_iff.mpr hne
      exact hno ⟨hne, by omega⟩
    rw [hnil]
    exact (Nat.zero_add _).symm

/-- Only the free bytes change. -/
theorem yieldKeyBudget_eq (env : CacheEnv) (slot : HotSlot) : yieldKeyBudget env slot =
    { env with maxCachedFullKey := (yieldKeyBudget env slot).maxCachedFullKey } := by
  unfold yieldKeyBudget
  split <;> rfl

/-- No ghost is made without a cap, or twice. -/
theorem ghostKeyMark_of_not {i : Nat}
    (hno : h.env.ghostKeyCap = 0 ∨ (h.slots i).keyGhostMark = true) : h.ghostKeyMark i = h := by
  unfold HotTable.ghostKeyMark
  rcases hno with hcap | hmark
  · rw [if_pos hcap]
  · rw [if_pos hmark, ite_self, ite_self]

/-- A slot whose key is given up for good. -/
theorem dropsKey_clear (h : HotTable) (i : Nat) :
    DropsKey h ((h.setFree (h.env.maxCachedFullKey + (h.slots i).realKey.length)).setSlot i
      { h.slots i with realKey := [] }) i := by
  refine ⟨rfl, rfl, fun j => ?_, fun j hj => ?_, fun _ => ?_, fun _ => ?_⟩
  · rw [slots_setSlot]
    split
    · next hj => rw [hj]; rfl
    · rfl
  · rw [slots_setSlot, if_neg hj]
    rfl
  · rw [slots_setSlot, if_pos rfl]
    exact (Nat.zero_add _).trans (Nat.add_comm ..)
  · rw [slots_setSlot, if_pos rfl]

/-- A slot whose key becomes a ghost. -/
theorem dropsKey_ghostKeyMark {i : Nat} (hcap : h.env.ghostKeyCap ≠ 0)
    (hkey : (h.slots i).realKey ≠ []) (hmark : ¬(h.slots i).keyGhostMark = true) :
    DropsKey h (h.ghostKeyMark i) i := by
  unfold HotTable.ghostKeyMark
  rw [if_neg hcap, if_neg hkey, if_neg hmark]
  have hdown := Unghosted.ghostKeyEvictDownTo h.env.ghostKeyCap h.nrGhostKey h
  generalize h.ghostKeyEvictDownTo h.env.ghostKeyCap h.nrGhostKey = g at hdown
  dsimp only
  have hslot : ∀ j, (g.setSlot i { g.slots i with
      keyGhostMark := true, keyGhostState := 0, realKey := [] }).slots j =
      if j = i then { g.slots i with keyGhostMark := true, keyGhostState := 0, realKey := [] }
      else g.slots j := slots_setSlot g i _
  have hself : ((g.setSlot i { g.slots i with
      keyGhostMark := true, keyGhostState := 0, realKey := [] }).slots i).realKey = [] := by
    rw [hslot, if_pos rfl]
  refine ⟨?_, ?_, fun j => ?_, fun j hj => ?_, fun hle => ?_, fun _ => hself⟩
  · obtain ⟨slots, live, nr, fifo, rr, rfl⟩ : ∃ slots live nr fifo rr, g = { h with
        slots := slots, ghostStateLive := live, nrGhostKey := nr, keyFifo := fifo,
        keyScanRr := rr } := ⟨_, _, _, _, _, hdown.rest⟩
    rfl
  · show yieldKeyBudget g.env (g.slots i) = { h.env with
      maxCachedFullKey := (yieldKeyBudget g.env (g.slots i)).maxCachedFullKey }
    rw [← hdown.env]
    exact yieldKeyBudget_eq ..
  · show ((g.setSlot i _).slots j).toPte = _
    rw [hslot, ← hdown.mapping j]
    split
    · next hj => rw [hj]; rfl
    · rfl
  · show ((g.setSlot i _).slots j).realKey = _
    rw [hslot, if_neg hj]
    exact hdown.realKey j
  · show ((g.setSlot i _).slots i).realKey.length +
      (yieldKeyBudget g.env (g.slots i)).maxCachedFullKey = _
    rw [← hdown.realKey i, ← hdown.env] at hle ⊢
    rw [hself, yieldKeyBudget_free hle]
    exact Nat.zero_add _

theorem DropsKey.refl {i : Nat} (hk : h.env.verifyCache = true → (h.slots i).realKey = []) :
    DropsKey h h i := ⟨rfl, rfl, fun _ => rfl, fun _ _ => rfl, fun _ => rfl, hk⟩

theorem DropsKey.trans {i : Nat} (hd : DropsKey h h' i) (hd' : DropsKey h' h'' i) :
    DropsKey h h'' i := by
  refine ⟨?_, ?_, fun j => (hd'.mapping j).trans (hd.mapping j),
    fun j hj => (hd'.others j hj).trans (hd.others j hj), fun hle => ?_, fun hv => ?_⟩
  · rw [hd'.rest, hd.rest]
  · rw [hd'.env, hd.env]
  · have hfree := hd.free hle
    rw [← hfree]
    apply hd'.free
    rw [hd.env]
    show _ ≤ h.env.maxCachedFullKeyBudget
    rw [← hfree] at hle
    exact hle
  · apply hd'.dropped
    rw [hd.env]
    exact hv

/-- A promotion drops the key of the slot, which may become a ghost. -/
theorem dropsKey_promoteDropKey (h : HotTable) (i : Nat) : DropsKey h (h.promoteDropKey i) i := by
  unfold HotTable.promoteDropKey
  by_cases hv : h.env.verifyCache = true
  · rw [if_pos hv]
    dsimp only
    by_cases hkey : (h.slots i).realKey = []
    · rw [if_neg (not_not.mpr hkey)]
      refine ⟨rfl, rfl, fun j => ?_, fun j hj => ?_, fun _ => ?_, fun _ => ?_⟩
      · rw [slots_setSlot]
        split
        · next hj => rw [hj]; rfl
        · rfl
      · rw [slots_setSlot, if_neg hj]
      · rw [slots_setSlot, if_pos rfl, hkey]
        rfl
      · rw [slots_setSlot, if_pos rfl]
    · rw [if_pos hkey]
      by_cases hno : h.env.ghostKeyCap = 0 ∨ (h.slots i).keyGhostMark = true
      · rw [ghostKeyMark_of_not hno]
        exact dropsKey_clear h i
      -- The key is kept as a ghost, then the slot is cleared.
      · have hmark := dropsKey_ghostKeyMark (fun hcap => hno (.inl hcap)) hkey
          (fun hmark => hno (.inr hmark))
        exact hmark.trans (dropsKey_clear _ i)
  · rw [if_neg hv]
    exact .refl fun hv' => absurd hv' hv

/-- The table whose slot `i` a promotion takes: an empty slot is one more valid entry, the
    state of a displaced entry is no longer counted. -/
def taken (h : HotTable) (i : Nat) : HotTable :=
  if (h.slots i).lpa = none then { h with validEntries := h.validEntries + 1 }
  else { h with stateLive := histDec h.stateLive (h.slots i).state }

/-- The slot after the entry has been written to it. -/
def promotedSlot (slot : HotSlot) (lpa : Nat) (ppa : Option Nat) (keyFp : UInt32) (coldCnt : Nat) :
    HotSlot :=
  { slot with
    keyGhostMark := false, lpa := some lpa, ppa := ppa, keyFp := keyFp,
    state := promoteEntryState coldCnt }

/-- What a promotion does to the table. -/
inductive Placed (h : HotTable) (lpa : Nat) (ppa : Option Nat) (keyFp : UInt32) (coldCnt : Nat) :
    HotTable → Prop where
  | refused : Placed h lpa ppa keyFp coldCnt h
  /-- The slot that holds the lpa gets the new mapping, and its state follows. -/
  | refreshed {i h'} : h.findLpa (h.probes lpa 50) lpa = some i →
      h' = { h with slots := h'.slots, stateLive := h'.stateLive } →
      h'.slots i = promotedSlot (h.slots i) lpa ppa keyFp coldCnt →
      (∀ j, j ≠ i → h'.slots j = h.slots j) →
      h'.stateLive = (if (h.slots i).state = promoteEntryState coldCnt then h.stateLive
        else histInc (histDec h.stateLive (h.slots i).state) (promoteEntryState coldCnt)) →
      Placed h lpa ppa keyFp coldCnt h'
  /-- An empty slot is filled, or an entry displaced. -/
  | written {i g} : i ∈ h.probes lpa 50 → h.findLpa (h.probes lpa 50) lpa = none →
      g = (h.taken i).promoteDropKey i →
      Placed h lpa ppa keyFp coldCnt
        { g.setSlot i (promotedSlot (g.slots i) lpa ppa keyFp coldCnt) with
          stateLive := histInc g.stateLive (promoteEntryState coldCnt) }

/-- A promotion of an lpa that is found. -/
theorem placed_refresh {lpa i : Nat} (ppa : Option Nat) (keyFp : UInt32) (coldCnt : Nat)
    (hfind : h.findLpa (h.probes lpa 50) lpa = some i) :
    Placed h lpa ppa keyFp coldCnt (h.placeGrain lpa ppa keyFp coldCnt) := by
  have hlpa : (h.slots i).lpa = some lpa := (findLpa_some hfind).2
  have hlt := promoteEntryState_lt coldCnt
  unfold placeGrain
  dsimp only
  rw [hfind]
  dsimp only
  by_cases hs : (h.slots i).state = promoteEntryState coldCnt
  · rw [if_neg (by rw [slots_setSlot, if_pos rfl]; exact not_not.mpr hs)]
    refine .refreshed hfind rfl ?_ (fun j hj => ?_) (if_pos hs).symm
    · simp [promotedSlot, hlpa, hs]
    · simp [hj]
  · rw [if_pos (by rw [slots_setSlot, if_pos rfl]; exact hs)]
    unfold histMove
    dsimp only
    rw [if_neg (by
      rw [slots_setSlot, if_pos rfl, hlpa]
      rintro (hnone | hge)
      · cases hnone
      · exact Nat.not_le_of_lt hlt hge)]
    refine .refreshed hfind rfl ?_ (fun j hj => ?_) ?_
    · simp [promotedSlot, hlpa]
    · simp [hj]
    · rw [if_neg hs]
      show histInc (histDec h.stateLive _) _ = _
      rw [slots_setSlot, if_pos rfl]

/-- Every promotion refreshes a slot, writes one, or is refused. -/
theorem placed_placeGrain (h : HotTable) (lpa : Nat) (ppa : Option Nat) (keyFp : UInt32)
    (coldCnt : Nat) : Placed h lpa ppa keyFp coldCnt (h.placeGrain lpa ppa keyFp coldCnt) := by
  cases hfind : h.findLpa (h.probes lpa 50) lpa with
  | some i => exact placed_refresh ppa keyFp coldCnt hfind
  | none =>
    unfold placeGrain
    dsimp only
    rw [hfind]
    dsimp only
    cases hempty : (h.probes lpa 50).find? fun i => (h.slots i).lpa.isNone with
    | some i =>
      have hnone : (h.slots i).lpa = none := by
        have hp := List.find?_some hempty
        exact Option.isNone_iff_eq_none.mp hp
      have htaken : h.taken i = { h with validEntries := h.validEntries + 1 } := if_pos hnone
      dsimp only
      rw [← htaken]
      exact .written (List.mem_of_find?_eq_some hempty) hfind rfl
    | none =>
      dsimp only
      cases hvictim : h.promoteVictim (h.probes lpa 50) with
      | none => exact .refused
      | some i =>
        dsimp only
        -- All probes are taken, so the victim is one of them.
        have hocc : ∀ j ∈ h.probes lpa 50, (h.slots j).lpa ≠ none := by
          intro j hj hnone
          have hp := List.find?_eq_none.mp hempty j hj
          rw [hnone] at hp
          exact hp rfl
        have hmem := promoteVictim_mem hocc hvictim
        split
        · exact .refused
        · have htaken : h.taken i = { h with stateLive := histDec h.stateLive (h.slots i).state } :=
            if_neg (hocc i hmem)
          rw [← htaken]
          exact .written hmem hfind rfl

theorem Settled.of_env (hs : h.Settled) (hphase : h'.phase = h.phase)
    (henv : h'.env = { h.env with maxCachedFullKey := h'.env.maxCachedFullKey }) : h'.Settled := by
  refine ⟨hphase.trans hs.idle, ?_⟩
  obtain ⟨hentries, hpos, hmin, htotal⟩ := hs.sized
  rw [henv]
  exact ⟨hentries, hpos, hmin, htotal⟩

theorem taken_phase (h : HotTable) (i : Nat) : (h.taken i).phase = h.phase := by
  unfold taken
  split <;> rfl

theorem taken_env (h : HotTable) (i : Nat) : (h.taken i).env = h.env := by
  unfold taken
  split <;> rfl

theorem taken_slots (h : HotTable) (i : Nat) : (h.taken i).slots = h.slots := by
  unfold taken
  split <;> rfl

theorem Placed.settled {lpa : Nat} {ppa : Option Nat} {keyFp : UInt32} {coldCnt : Nat}
    (hp : Placed h lpa ppa keyFp coldCnt h') (hs : h.Settled) : h'.Settled := by
  cases hp with
  | refused => exact hs
  | refreshed _ hrest _ _ _ =>
    rw [hrest]
    exact ⟨hs.idle, hs.sized⟩
  | @written i g _ _ hg =>
    have hdrop := dropsKey_promoteDropKey (h.taken i) i
    rw [← hg] at hdrop
    apply hs.of_env
    · show g.phase = h.phase
      rw [hdrop.rest]
      exact taken_phase h i
    · show g.env = _
      rw [hdrop.env, taken_env]
      rfl

end HotTable

end AggreKV.HashKv
