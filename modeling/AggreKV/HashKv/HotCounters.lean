import AggreKV.HashKv.HotSteps

/-! # The counters of the hot table

    `hot_pte_state_live` and `hot_valid_entries` are maintained at every
    place that fills, displaces or heats a slot, and counted anew by a
    rehash. The heat histogram decides when the hot table grows or shrinks.

    * `stateCount`, `occupiedCount`: what the counters should be.
    * `Counted.fill`: one slot changes, and the histogram follows.
    * `heat_histogram`: the histogram is right in every state, and so is the
      fill that a rebalance goes by.
    * `valid_entries`: `hot_valid_entries` is right while the entries that a
      rehash saves are distinct. -/

namespace AggreKV.HashKv

namespace HotTable

variable {h h' : HotTable}

/-! ## Section 1: Counting -/

/-- An occupied slot of state `s`. -/
def hasState (s : Nat) (slot : HotSlot) : Bool := occupied slot && slot.state == s

/-- The occupied slots of the active pages that have state `s`. -/
def stateCount (h : HotTable) (s : Nat) : Nat :=
  ((Finset.range h.active).filter fun i => hasState s (h.slots i)).card

/-- The occupied slots of the active pages. -/
def occupiedCount (h : HotTable) : Nat :=
  ((Finset.range h.active).filter fun i => occupied (h.slots i)).card

/-- The warm entries of the active pages. -/
def warmCount (h : HotTable) : Nat :=
  ((Finset.range h.active).filter fun i => (h.slots i).warm).card

theorem stateCount_eq (h : HotTable) (s : Nat) :
    h.stateCount s = weight (fun slot => (hasState s slot).toNat) h.slots h.active :=
  (weight_toNat ..).symm

theorem occupiedCount_eq (h : HotTable) :
    h.occupiedCount = weight (fun slot => (occupied slot).toNat) h.slots h.active :=
  (weight_toNat ..).symm

theorem warmCount_eq (h : HotTable) :
    h.warmCount = weight (fun slot => slot.warm.toNat) h.slots h.active :=
  (weight_toNat ..).symm

/-- The state is part of the mapping. -/
theorem hasState_congr {e e' : HotSlot} (he : e'.toPte = e.toPte) (s : Nat) :
    hasState s e' = hasState s e := by
  have hlpa : e'.lpa = e.lpa := congrArg HotPte.lpa he
  have hstate : e'.state = e.state := congrArg HotPte.state he
  unfold hasState occupied
  rw [hlpa, hstate]

/-- Every entry has one of the six states. -/
theorem sum_stateCount (hl : h.Levels) :
    ((List.range 6).map h.stateCount).sum = h.occupiedCount := by
  have hclass := sum_weight_class (f := h.slots) (n := h.active) (k := 6) occupied HotSlot.state
    fun i _ _ => hl.slot i
  rw [occupiedCount_eq, ← hclass]
  simp only [stateCount_eq, hasState, Finset.sum_range_succ, Finset.sum_range_zero, List.range_succ,
    List.range_zero, List.map_append, List.map_cons, List.map_nil, List.sum_append, List.sum_cons,
    List.sum_nil, List.nil_append, Nat.zero_add, Nat.add_zero]

/-- An entry is warm, or it has one of the two lowest states. -/
theorem warm_or_cold (slot : HotSlot) : slot.warm.toNat +
    ((hasState 0 slot).toNat + (hasState 1 slot).toNat) = (occupied slot).toNat := by
  unfold hasState HotSlot.warm occupied
  cases slot.lpa.isSome with
  | false => rfl
  | true =>
    rcases Nat.lt_or_ge slot.state 2 with hlt | hge
    · obtain hzero | hone : slot.state = 0 ∨ slot.state = 1 := by omega
      · rw [hzero]
        rfl
      · rw [hone]
        rfl
    · have hzero : (slot.state == 0) = false := beq_false_of_ne (by omega)
      have hone : (slot.state == 1) = false := beq_false_of_ne (by omega)
      rw [hzero, hone, decide_eq_true hge]
      rfl

/-- The warm entries are those of the states from `DEFAULT_STATE` on. -/
theorem sum_stateCount_warm (hl : h.Levels) :
    (((List.range 6).map h.stateCount).drop 2).sum = h.warmCount := by
  have hall := sum_stateCount hl
  have hcold : h.warmCount + (h.stateCount 0 + h.stateCount 1) = h.occupiedCount := by
    rw [warmCount_eq, stateCount_eq, stateCount_eq, occupiedCount_eq]
    unfold weight
    rw [← Finset.sum_add_distrib, ← Finset.sum_add_distrib]
    apply Finset.sum_congr rfl
    intro i _
    exact warm_or_cold (h.slots i)
  have hcut : ((List.range 6).map h.stateCount).sum = h.stateCount 0 + (h.stateCount 1 +
      (((List.range 6).map h.stateCount).drop 2).sum) := rfl
  omega

/-! ## Section 2: The histogram -/

/-- The histogram is that of the table. -/
def Counted (h : HotTable) : Prop := h.stateLive = (List.range 6).map h.stateCount

/-- The histogram without a slot that is taken. -/
def without (live : List Nat) (slot : HotSlot) : List Nat :=
  if slot.lpa ≠ none then histDec live slot.state else live

/-- The histogram after a decrement, bucket by bucket. -/
theorem getElem?_histDec (live : List Nat) (k s : Nat) :
    (histDec live k)[s]? = live[s]?.map fun n => if k = s then n - 1 else n := by
  unfold histDec
  rw [List.getElem?_modify]
  rfl

/-- The same for an increment. -/
theorem getElem?_histInc (live : List Nat) (k s : Nat) :
    (histInc live k)[s]? = live[s]?.map fun n => if k = s then n + 1 else n := by
  unfold histInc
  rw [List.getElem?_modify]
  rfl

/-- The same for an entry that is taken off. -/
theorem getElem?_without (live : List Nat) (slot : HotSlot) (s : Nat) :
    (without live slot)[s]? = live[s]?.map fun n => n - (hasState s slot).toNat := by
  unfold without hasState occupied
  cases hlpa : slot.lpa with
  | none =>
    rw [if_neg (not_not.mpr rfl)]
    show live[s]? = live[s]?.map id
    rw [Option.map_id, id]
  | some l =>
    rw [if_pos (Option.some_ne_none l), getElem?_histDec]
    congr 1
    funext n
    show _ = n - (slot.state == s).toNat
    split
    · next hs => rw [hs, beq_self_eq_true]; rfl
    · next hs => rw [beq_false_of_ne hs]; rfl

/-- An entry is written to slot `i`; nothing else of the mapping changes. -/
theorem Counted.fill {i : Nat} (hc : h.Counted) (hactive : h'.active = h.active) (hi : i < h.active)
    (hothers : ∀ j, j ≠ i → (h'.slots j).toPte = (h.slots j).toPte)
    (hocc : (h'.slots i).lpa ≠ none) (hlive : h'.stateLive =
      histInc (without h.stateLive (h.slots i)) (h'.slots i).state) : h'.Counted := by
  unfold Counted at hc ⊢
  apply List.ext_getElem?
  intro s
  rw [hlive, getElem?_histInc, getElem?_without, hc]
  rw [List.getElem?_map, List.getElem?_map]
  rcases Nat.lt_or_ge s 6 with hs | hs
  · rw [List.getElem?_range hs]
    show some (if (h'.slots i).state = s
      then h.stateCount s - (hasState s (h.slots i)).toNat + 1
      else h.stateCount s - (hasState s (h.slots i)).toNat) = some (h'.stateCount s)
    congr 1
    -- The number of slots in state `s` differs only by what slot `i` was and is.
    have hset := weight_set (w := fun slot => (hasState s slot).toNat) (f := h.slots)
      (g := h'.slots) hi fun j hj => by rw [hasState_congr (hothers j hj)]
    have hold := le_weight (w := fun slot => (hasState s slot).toNat) (f := h.slots) hi
    have hnew : (hasState s (h'.slots i)).toNat = if (h'.slots i).state = s then 1 else 0 := by
      unfold hasState
      rw [occupied_iff.mpr hocc, Bool.true_and]
      split
      · next he => rw [he, beq_self_eq_true]; rfl
      · next he => rw [beq_false_of_ne he]; rfl
    rw [stateCount_eq, stateCount_eq, hactive]
    split
    · next he =>
      rw [if_pos he] at hnew
      omega
    · next he =>
      rw [if_neg he] at hnew
      omega
  · rw [List.getElem?_eq_none (by rw [List.length_range]; exact hs)]
    rfl

/-- The histogram stays right while the mapping does. -/
theorem Counted.quiet (hc : h.Counted) (hq : Quiet h h') : h'.Counted := by
  unfold Counted at hc ⊢
  rw [hq.stateLive, hc]
  apply List.map_congr_left
  intro s _
  rw [stateCount_eq, stateCount_eq, hq.active]
  apply weight_congr
  intro i _
  rw [hasState_congr (hq.mapping i)]

/-- An empty table. -/
theorem Counted.empty (hempty : ∀ i < h.active, (h.slots i).lpa = none)
    (hlive : h.stateLive = .replicate 6 0) : h.Counted := by
  have hzero : ∀ s, h.stateCount s = 0 := by
    intro s
    rw [stateCount_eq]
    apply weight_eq_zero
    intro i hi
    unfold hasState occupied
    rw [hempty i hi]
    rfl
  unfold Counted
  rw [hlive, funext hzero]
  rfl

/-! ## Section 3: The steps -/

/-- A hit is an entry of the active pages. -/
theorem Settled.hitSlot (hs : h.Settled) {lpa i : Nat} (hit : h.hitSlot lpa = some i) :
    i < h.active ∧ (h.slots i).lpa = some lpa := by
  unfold HotTable.hitSlot at hit
  rw [if_pos hs.accessible] at hit
  obtain ⟨hmem, hlpa⟩ := findLpa_some hit
  exact ⟨hs.probes_lt hmem, hlpa⟩

theorem Settled.findLpa (hs : h.Settled) {lpa i : Nat}
    (hf : h.findLpa (h.probes lpa 50) lpa = some i) :
    i < h.active ∧ (h.slots i).lpa = some lpa := by
  obtain ⟨hmem, hlpa⟩ := findLpa_some hf
  exact ⟨hs.probes_lt hmem, hlpa⟩

/-- The slot that a promotion takes is taken off the histogram. -/
theorem taken_stateLive (h : HotTable) (i : Nat) :
    (h.taken i).stateLive = without h.stateLive (h.slots i) := by
  unfold taken without
  by_cases hnone : (h.slots i).lpa = none
  · rw [if_pos hnone, if_neg (not_not.mpr hnone)]
  · rw [if_neg hnone, if_pos hnone]

/-- A promotion keeps the histogram right. -/
theorem Counted.placed {lpa : Nat} {ppa : Option Nat} {keyFp : UInt32} {coldCnt : Nat}
    (hc : h.Counted) (hs : h.Settled) (hp : Placed h lpa ppa keyFp coldCnt h') : h'.Counted := by
  cases hp with
  | refused => exact hc
  | @refreshed i h' hfind hrest hslot hothers hlive =>
    obtain ⟨hi, hlpa⟩ := hs.findLpa hfind
    have hactive : h'.active = h.active := by
      rw [hrest]
      rfl
    by_cases hstate : (h.slots i).state = promoteEntryState coldCnt
    · rw [if_pos hstate] at hlive
      -- The entry keeps its state, so the histogram stays.
      unfold Counted at hc ⊢
      -- Slot `i` is the only one that changes, and its state does not.
      rw [hlive, hc]
      apply List.map_congr_left
      intro s _
      rw [stateCount_eq, stateCount_eq, hactive]
      apply weight_congr
      intro j _
      by_cases hj : j = i
      · rw [hj, hslot]
        unfold hasState occupied promotedSlot
        dsimp only
        rw [hlpa, hstate]
      · rw [hothers j hj]
    · rw [if_neg hstate] at hlive
      apply hc.fill hactive hi
      · intro j hj
        rw [hothers j hj]
      · rw [hslot]
        exact Option.some_ne_none lpa
      · rw [hlive, hslot]
        unfold without
        rw [if_pos (hlpa ▸ Option.some_ne_none lpa)]
        rfl
  | @written i g hmem _ hg =>
    have hdrop := dropsKey_promoteDropKey (h.taken i) i
    rw [← hg] at hdrop
    have hmapping : ∀ j, (g.slots j).toPte = (h.slots j).toPte := by
      intro j
      rw [hdrop.mapping j, taken_slots]
    have hlive : g.stateLive = without h.stateLive (h.slots i) := by
      rw [hdrop.rest]
      exact taken_stateLive h i
    apply hc.fill (i := i)
    · show g.active = h.active
      unfold active
      rw [hdrop.env, taken_env]
    · exact hs.probes_lt hmem
    · intro j hj
      show ((g.setSlot i _).slots j).toPte = _
      rw [slots_setSlot, if_neg hj]
      exact hmapping j
    · show ((g.setSlot i _).slots i).lpa ≠ none
      rw [slots_setSlot, if_pos rfl]
      exact Option.some_ne_none lpa
    · show histInc g.stateLive _ = histInc _ ((g.setSlot i _).slots i).state
      rw [hlive, slots_setSlot, if_pos rfl]
      rfl

/-- A raised state moves from bucket to bucket. -/
theorem Counted.raise (hc : h.Counted) (hs : h.Settled) {lpa i : Nat}
    (hit : h.hitSlot lpa = some i) : (h.stateRaise i).Counted := by
  obtain ⟨hi, -⟩ := hs.hitSlot hit
  refine stateRaise_rule h i hc fun hne _ => ?_
  apply hc.fill (i := i)
  · rfl
  · exact hi
  · intro j hj
    show ((h.setSlot i _).slots j).toPte = _
    rw [slots_setSlot, if_neg hj]
  · show ((h.setSlot i _).slots i).lpa ≠ none
    rw [slots_setSlot, if_pos rfl]
    exact hne
  · show histInc (histDec _ _) _ = histInc _ ((h.setSlot i _).slots i).state
    rw [slots_setSlot, if_pos rfl]
    unfold without
    rw [if_pos hne]

/-- The rehash counts anew. -/
theorem Counted.rehash (hs : h.env.Sized) : h.rehash.Counted := by
  -- The counts start at 0 and cannot go below.
  have hzero : ∀ k, histDec (.replicate 6 0) k = .replicate 6 0 := by
    intro k
    apply List.ext_getElem?
    intro s
    rw [getElem?_histDec, List.getElem?_replicate]
    rcases Nat.lt_or_ge s 6 with hlt | hge
    · rw [if_pos hlt]
      show some (if k = s then 0 else 0) = some 0
      rw [ite_self]
    · rw [if_neg (Nat.not_lt.mpr hge)]
      rfl
  have hrule := complete_rule (P := fun _ _ => True) (C := fun g => g.stateLive = .replicate 6 0)
    (D := Counted) hs (insertsOk_true _ _) rfl ?_ ?_ ?_
  · obtain ⟨g, hg, -, -, hd⟩ := hrule
    rw [hg]
    exact hd
  · -- A slot that is scanned is taken off a count of 0.
    intro g _ _ _ hlive
    have hdec : (g.clearSlot g.scan).stateLive = .replicate 6 0 := by
      show (if _ then histDec g.stateLive _ else g.stateLive) = _
      rw [hlive, hzero, ite_self]
    exact collectSlot_rule g (fun _ => hlive) (fun _ _ => hdec) fun _ _ => hdec
  · intro g hc hscan hlive
    apply Counted.empty
    · intro i hi
      have hi' : i < h.active := by
        unfold active at hi ⊢
        rwa [show g.env.maxCachedHotTpages = h.env.maxCachedHotTpages from hc.collects.pages] at hi
      exact hc.collects.scanned i (hscan ▸ hi')
    · exact hlive
  · intro g e lpa i hi ht _ hd
    apply hd.fill (i := i)
    · rfl
    · exact hi.active.symm ▸ ht.lt
    · intro j hj
      rw [slots_placedAt, if_neg hj]
    · rw [slots_placedAt, if_pos rfl]
      show e.lpa ≠ none
      rw [ht.entry]
      exact Option.some_ne_none lpa
    · rw [slots_placedAt, if_pos rfl]
      rfl

/-- Every step keeps the histogram right. -/
theorem Counted.step {m : Mem} {a : MemLabel} (hc : m.hot.Counted) (hs : m.hot.Settled)
    (ha : m.HotStep a h) : h.Counted := by
  cases ha with
  | same _ _ => exact hc
  | promote => exact hc.placed hs (placed_placeGrain ..)
  | raise hit => exact hc.raise hs hit
  | verify => exact hc.quiet (quiet_unghosted (.ghostKeyOnFlashVerify ..))
  | cacheKey => exact hc.quiet (quiet_cacheKey ..)
  | rehash _ hres => exact (Counted.rehash hres.sized).quiet (quiet_unghosted (.ghostTrim _))
  | expandKey henv => exact hc.quiet (quiet_expandKey hs henv)
  | reset =>
    apply Counted.empty
    · intro i hi
      exact reset_empty (reset_active m.hot ▸ hi)
    · rfl
  | prepare => exact hc.quiet ⟨rfl, fun _ => rfl, rfl, rfl⟩

end HotTable

/-! ## Section 4: The fill of the hot table -/

/-- `hot_cmt_warm_fill_permille`. -/
def HotTable.warmFillPermille (h : HotTable) : Nat :=
  if h.env.maxCachedHotEntries = 0 then 0
  else (h.stateLive.drop 2).sum * 1000 / h.env.maxCachedHotEntries

/-- What `adaptive_try_rebalance` reads, with the counters of its period. -/
def HotTable.pressure (h : HotTable) (hotEvictCount coldEvictCount hotPromoteBlockedCnt : Nat) :
    CacheEnv.Pressure where
  accessible := h.accessible
  hotEvictCount := hotEvictCount
  coldEvictCount := coldEvictCount
  hotFill := h.warmFillPermille
  hotPromoteBlockedCnt := hotPromoteBlockedCnt

namespace CacheEnv

/-- A refused expansion changes nothing. -/
theorem expandHotFromCold_refused {env env' : CacheEnv}
    (h : env.expandHotFromCold = some (false, env')) : env' = env := by
  obtain ⟨lim, _, h⟩ := Option.bind_eq_some_iff.mp h
  split at h
  · cases h
    rfl
  · obtain ⟨hot, _, h⟩ := Option.bind_eq_some_iff.mp h
    split at h
    · cases h
      rfl
    · obtain ⟨cold, _, h⟩ := Option.bind_eq_some_iff.mp h
      obtain ⟨entries, _, h⟩ := Option.bind_eq_some_iff.mp h
      obtain ⟨env₁, _, h⟩ := Option.bind_eq_some_iff.mp h
      cases h

/-- Nor does a refused shrink. -/
theorem shrinkHotToCold_refused {env env' : CacheEnv}
    (h : env.shrinkHotToCold = some (false, env')) : env' = env := by
  obtain ⟨lim, _, h⟩ := Option.bind_eq_some_iff.mp h
  split at h
  · cases h
    rfl
  · obtain ⟨cold, _, h⟩ := Option.bind_eq_some_iff.mp h
    split at h
    · cases h
      rfl
    · obtain ⟨hot, _, h⟩ := Option.bind_eq_some_iff.mp h
      obtain ⟨entries, _, h⟩ := Option.bind_eq_some_iff.mp h
      obtain ⟨env₁, _, h⟩ := Option.bind_eq_some_iff.mp h
      cases h

/-- Nor does a refused growth of the key cache. -/
theorem expandKeyCache_refused {env env' : CacheEnv} {keyFree : Nat}
    (h : env.expandKeyCache keyFree = some (false, env')) : env' = env := by
  unfold expandKeyCache at h
  split at h
  · cases h
    rfl
  · split at h
    · cases h
      rfl
    · obtain ⟨sum, _, h⟩ := Option.bind_eq_some_iff.mp h
      obtain ⟨pages, _, h⟩ := Option.bind_eq_some_iff.mp h
      obtain ⟨lim, _, h⟩ := Option.bind_eq_some_iff.mp h
      split at h
      · cases h
        rfl
      · obtain ⟨cold, _, h⟩ := Option.bind_eq_some_iff.mp h
        obtain ⟨used, _, h⟩ := Option.bind_eq_some_iff.mp h
        obtain ⟨free, _, h⟩ := Option.bind_eq_some_iff.mp h
        obtain ⟨env₁, _, h⟩ := Option.bind_eq_some_iff.mp h
        cases h

/-- Behind the attempt to expand the hot cache, it only shrinks, and only if that is
    wanted. -/
theorem tryKeyOrShrink_pages {env env' : CacheEnv} {p : Pressure}
    (h : env.tryKeyOrShrink p = some env') (hs : env.Sized) :
    env'.maxCachedHotTpages ≤ env.maxCachedHotTpages ∧
      (env'.maxCachedHotTpages < env.maxCachedHotTpages → env.shrinkWanted p = true) := by
  obtain ⟨⟨done, env₁⟩, hkey, hrest⟩ := Option.bind_eq_some_iff.mp h
  dsimp only at hrest
  cases done with
  | true =>
    cases hrest
    obtain ⟨_, hpages, _⟩ := expandKeyCache_some hkey hs
    rw [hpages]
    exact ⟨Nat.le_refl _, fun hlt => absurd hlt (Nat.lt_irrefl _)⟩
  | false =>
    -- The key cache did not grow.
    obtain rfl := expandKeyCache_refused hkey
    rw [if_neg Bool.false_ne_true] at hrest
    split at hrest
    · next hwanted =>
      obtain ⟨⟨done, env₂⟩, hshrink, hrest⟩ := Option.bind_eq_some_iff.mp hrest
      cases hrest
      refine ⟨?_, fun _ => hwanted⟩
      cases done with
      | true =>
        obtain ⟨_, hpages⟩ := shrinkHotToCold_some hshrink hs
        show env₂.maxCachedHotTpages ≤ _
        omega
      | false =>
        obtain rfl := shrinkHotToCold_refused hshrink
        exact Nat.le_refl _
    · cases hrest
      exact ⟨Nat.le_refl _, fun hlt => absurd hlt (Nat.lt_irrefl _)⟩

/-- A rebalance expands the hot cache under pressure, and shrinks it if that is wanted. -/
theorem tryRebalance_pages {env env' : CacheEnv} {p : Pressure}
    (h : env.tryRebalance p = some env') (hs : env.Sized) :
    (env.maxCachedHotTpages < env'.maxCachedHotTpages → 500 < env.totalPressure p) ∧
      (env'.maxCachedHotTpages < env.maxCachedHotTpages → env.shrinkWanted p = true) := by
  -- Neither the key cache nor the shrink adds pages to the hot table.
  have hkey : ∀ {env'}, env.tryKeyOrShrink p = some env' →
      (env.maxCachedHotTpages < env'.maxCachedHotTpages → 500 < env.totalPressure p) ∧
        (env'.maxCachedHotTpages < env.maxCachedHotTpages → env.shrinkWanted p = true) := by
    intro env' h
    obtain ⟨hle, hwanted⟩ := tryKeyOrShrink_pages h hs
    exact ⟨fun hlt => absurd hlt (Nat.not_lt.mpr hle), hwanted⟩
  unfold tryRebalance at h
  split at h
  · cases h
    exact ⟨fun hlt => absurd hlt (Nat.lt_irrefl _), fun hlt => absurd hlt (Nat.lt_irrefl _)⟩
  · obtain ⟨hot, _, hrest⟩ := Option.bind_eq_some_iff.mp h
    split at hrest
    · next hpressure =>
      obtain ⟨⟨done, env₁⟩, hexpand, htail⟩ := Option.bind_eq_some_iff.mp hrest
      dsimp only at htail
      cases done with
      | true =>
        cases htail
        obtain ⟨_, hpages⟩ := expandHotFromCold_some hexpand hs
        exact ⟨fun _ => hpressure.1, fun hlt => by omega⟩
      | false =>
        obtain rfl := expandHotFromCold_refused hexpand
        exact hkey htail
    · exact hkey hrest

end CacheEnv

namespace HotTable

variable {h : HotTable}

/-- The fill that a rebalance sees is that of the warm entries. -/
theorem warmFillPermille_eq (hs : h.Settled) (hl : h.Levels) (hc : h.Counted) :
    h.warmFillPermille = h.warmCount * 1000 / h.active := by
  have hpos := hs.active_pos
  unfold warmFillPermille
  rw [hs.entries, if_neg (Nat.ne_of_gt hpos), hc, sum_stateCount_warm hl]

/-- The pressure is at most the warm and the blocked entries of each thousand slots. -/
theorem totalPressure_le (hs : h.Settled) (hl : h.Levels) (hc : h.Counted)
    (hot cold blocked : Nat) :
    h.env.totalPressure (h.pressure hot cold blocked) ≤
      (h.warmCount * 1000 / h.active + blocked * 1000 / h.active) := by
  have hpos := hs.active_pos
  unfold CacheEnv.totalPressure
  dsimp only
  apply (Nat.mod_le _ _).trans
  rw [hs.entries, if_neg (Nat.ne_of_gt hpos)]
  apply Nat.add_le_add
  · exact Nat.le_of_eq (warmFillPermille_eq hs hl hc)
  · exact Nat.div_le_div_right (Nat.mod_le _ _)

/-- A shrink is wanted only while less than a quarter of the slots are warm. -/
theorem shrinkWanted_warm (hs : h.Settled) (hl : h.Levels) (hc : h.Counted) {hot cold blocked : Nat}
    (hw : h.env.shrinkWanted (h.pressure hot cold blocked) = true) :
    4 * h.warmCount < h.active := by
  have hpos := hs.active_pos
  have hfill : h.warmFillPermille < 250 := by
    unfold CacheEnv.shrinkWanted at hw
    exact (of_decide_eq_true hw).1
  rw [warmFillPermille_eq hs hl hc, Nat.div_lt_iff_lt_mul hpos] at hfill
  omega

end HotTable

namespace Mem

open HotTable

/-- The histogram is right in every reachable state. -/
theorem reach_counted {ok : Mem → MemLabel → Prop} {env₀ : CacheEnv} {nrValidTpages : Nat} {m : Mem}
    (hsized : ∀ env, env₀.updateCaps = some env → env.Sized)
    (hr : (memMachine env₀ nrValidTpages).Reach ok m) : m.hot.Counted := by
  apply hr.invariant
  · intro s hs
    obtain ⟨env, _, rfl⟩ := hs
    exact Counted.empty (fun _ _ => rfl) rfl
  · intro s s' a hr hc _ hn
    have hs := reach_settled hsized hr
    exact hc.step hs (hotStep hs hn)

end Mem

/-- In every state the heat histogram counts the occupied slots of the active pages, and the
    fill of the hot table is that of its warm entries. So it grows only when warm entries
    and blocked promotions together come to more than half of its slots, and shrinks only
    when less than a quarter of them is warm. -/
theorem heat_histogram {verifyCache : Bool} {cold hot key nrValidTpages : Nat} {env₀ : CacheEnv}
    {m : Mem} (hinit : cacheEnvInit verifyCache cold hot key = some env₀) (hpos : 0 < hot)
    (hsize : cold + hot < 2147483648) (hr : (memMachine env₀ nrValidTpages).Reachable m) :
    m.hot.stateLive = (List.range 6).map m.hot.stateCount ∧
      m.hot.warmFillPermille = m.hot.warmCount * 1000 / m.hot.active ∧
      ∀ (hotEvicts coldEvicts blocked : Nat) (env : CacheEnv),
        m.hot.env.tryRebalance (m.hot.pressure hotEvicts coldEvicts blocked) = some env →
        (m.hot.env.maxCachedHotTpages < env.maxCachedHotTpages →
          500 < m.hot.warmCount * 1000 / m.hot.active + blocked * 1000 / m.hot.active) ∧
        (env.maxCachedHotTpages < m.hot.env.maxCachedHotTpages →
          4 * m.hot.warmCount < m.hot.active) := by
  have hsized : ∀ env, env₀.updateCaps = some env → env.Sized := fun env henv =>
    (CacheEnv.sized_of_init hinit henv hpos hsize).1
  have hs := Mem.reach_settled hsized hr
  have hl := Mem.reach_levels hr
  have hc := Mem.reach_counted hsized hr
  refine ⟨hc, HotTable.warmFillPermille_eq hs hl hc,
    fun hotEvicts coldEvicts blocked env henv => ?_⟩
  obtain ⟨hgrow, hshrink⟩ := CacheEnv.tryRebalance_pages henv hs.sized
  refine ⟨fun hlt => ?_, fun hlt => ?_⟩
  · have hpressure := hgrow hlt
    exact hpressure.trans_le (HotTable.totalPressure_le hs hl hc hotEvicts coldEvicts blocked)
  · exact HotTable.shrinkWanted_warm hs hl hc (hshrink hlt)

/-- An entry is promoted and hit before the hot table shrinks. -/
theorem heat_histogram_shrunk : ∃ m, (memMachine smallEnv₀ 4).exec (.create smallEnv 4)
      [.promote 5 (some 9) 1 3, .hit 5, .shrinkHot] = some m ∧
    m.hot.stateLive = (List.range 6).map m.hot.stateCount := by
  have hrun : ((memMachine smallEnv₀ 4).exec (.create smallEnv 4)
      [.promote 5 (some 9) 1 3, .hit 5, .shrinkHot]).isSome = true := by decide +kernel
  obtain ⟨m, hm⟩ := Option.isSome_iff_exists.mp hrun
  have hcounts := heat_histogram smallEnv₀_init (by decide) (by decide) (small_reachable hm)
  exact ⟨m, hm, hcounts.1⟩

/-! ## Section 5: The valid entries -/

namespace HotTable

variable {h h' : HotTable}

/-- The slot for an entry is the first one that suits it; it stays the first if others suit
    no longer. -/
theorem placeSlot_mono {lpa i : Nat}
    (hsize : h'.env.maxCachedHotEntries = h.env.maxCachedHotEntries)
    (hpages : h'.env.maxCachedHotTpages = h.env.maxCachedHotTpages)
    (hslot : h.placeSlot lpa = some i) (hi : (h'.slots i).lpa = some lpa)
    (hfew : ∀ j, (h'.slots j).lpa = none ∨ (h'.slots j).lpa = some lpa →
      (h.slots j).lpa = none ∨ (h.slots j).lpa = some lpa) : h'.placeSlot lpa = some i := by
  have hprobes : ∀ n, h'.probes lpa n = h.probes lpa n := by
    intro n
    unfold probes
    rw [hsize, hpages]
  have hactive : h'.active = h.active := by
    unfold active
    rw [hpages]
  have hfree : ∀ j, ((h'.slots j).lpa.isNone || decide ((h'.slots j).lpa = some lpa)) = true →
      ((h.slots j).lpa.isNone || decide ((h.slots j).lpa = some lpa)) = true := by
    intro j hj
    rw [Bool.or_eq_true, Option.isNone_iff_eq_none, decide_eq_true_iff] at hj ⊢
    exact hfew j hj
  have hself : ((h'.slots i).lpa.isNone || decide ((h'.slots i).lpa = some lpa)) = true := by
    rw [hi, decide_eq_true rfl, Bool.or_true]
  -- One search with the two predicates.
  have hfirst : ∀ {l : List Nat},
      l.find? (fun j => (h.slots j).lpa.isNone || decide ((h.slots j).lpa = some lpa)) =
        some i →
      l.find? (fun j => (h'.slots j).lpa.isNone || decide ((h'.slots j).lpa = some lpa)) =
        some i := by
    intro l hl
    obtain ⟨_, as, bs, heq, has⟩ := List.find?_eq_some_iff_append.mp hl
    refine List.find?_eq_some_iff_append.mpr ⟨hself, as, bs, heq, fun j hj => ?_⟩
    have hno := has j hj
    cases hj' : ((h'.slots j).lpa.isNone || decide ((h'.slots j).lpa = some lpa)) with
    | false => rfl
    | true =>
      rw [hfree j hj'] at hno
      exact hno
  -- If the first probes found none, they still do not.
  have hmiss : ∀ {l : List Nat},
      l.find? (fun j => (h.slots j).lpa.isNone || decide ((h.slots j).lpa = some lpa)) = none →
      l.find? (fun j => (h'.slots j).lpa.isNone || decide ((h'.slots j).lpa = some lpa)) =
        none := by
    intro l hl
    apply List.find?_eq_none.mpr
    intro j hj hj'
    exact List.find?_eq_none.mp hl j hj (hfree j hj')
  unfold placeSlot at hslot ⊢
  dsimp only at hslot ⊢
  rw [hprobes, hactive]
  cases hprobe : (h.probes lpa 3200).find? (fun i => (h.slots i).lpa.isNone ||
      decide ((h.slots i).lpa = some lpa)) with
  | some j =>
    rw [hprobe] at hslot
    cases hslot
    rw [hfirst hprobe]
    rfl
  | none =>
    rw [hprobe] at hslot
    rw [hmiss hprobe]
    exact hfirst hslot

/-- The insert loop: every entry is in the slot chosen for its lpa, so an lpa is in the
    table once, however often it was saved. -/
structure Merging (h₀ h : HotTable) : Prop where
  placed : h.placed = h.insertIdx
  bound : h.insertIdx ≤ h₀.warmSlots.length
  chosen : ∀ i < h₀.active, ∀ lpa, (h.slots i).lpa = some lpa → h.placeSlot lpa = some i
  mem : ∀ lpa, some lpa ∈ (h.saved.take h.insertIdx).map HotSlot.lpa →
    ∃ i < h₀.active, (h.slots i).lpa = some lpa
  count : weight (fun slot => (occupied slot).toNat) h.slots h₀.active =
    ((h.saved.take h.insertIdx).map HotSlot.lpa).toFinset.card

/-- No entry is placed when the insertions begin. -/
theorem Merging.begin {h₀ : HotTable} (hc : Collecting h₀ h) (hscan : h.scan = h₀.active)
    (hplaced : h.placed = 0) : Merging h₀ { h with insertIdx := 0, phase := .insert } := by
  have hempty : ∀ i < h₀.active, (h.slots i).lpa = none := by
    intro i hi
    exact hc.collects.scanned i (hscan ▸ hi)
  refine ⟨hplaced, Nat.zero_le _, fun i hi lpa hlpa => ?_, fun lpa hmem => ?_, ?_⟩
  · rw [hempty i hi] at hlpa
    cases hlpa
  · cases hmem
  · apply weight_eq_zero
    intro i hi
    show (h.slots i).lpa.isSome.toNat = 0
    rw [hempty i hi]
    rfl

/-- Only the slot of the entry gets another lpa. -/
theorem Takes.lpa_placedAt {h₀ : HotTable} {e : HotSlot} {lpa i : Nat} (ht : Takes h₀ h e lpa i)
    (j : Nat) : ((h.placedAt i e).slots j).lpa = if j = i then some lpa else (h.slots j).lpa := by
  rw [slots_placedAt]
  split
  · exact ht.entry
  · rfl

/-- The entries that are placed, with the next one. -/
theorem Takes.take_lpas {h₀ : HotTable} {e : HotSlot} {lpa i : Nat} (ht : Takes h₀ h e lpa i) :
    (h.saved.take (h.insertIdx + 1)).map HotSlot.lpa =
      (h.saved.take h.insertIdx).map HotSlot.lpa ++ [some lpa] := by
  obtain ⟨hlt, hget⟩ := List.getElem?_eq_some_iff.mp ht.next
  rw [List.take_succ_eq_append_getElem hlt, List.map_append, List.map_singleton, hget, ht.entry]

/-- Slot `i` suited its lpa before, and suits no other one now. -/
theorem Merging.placedAt_chosen {h₀ : HotTable} {e : HotSlot} {lpa i j l : Nat}
    (hm : Merging h₀ h) (ht : Takes h₀ h e lpa i) (hj : j < h₀.active)
    (hl : ((h.placedAt i e).slots j).lpa = some l) : (h.placedAt i e).placeSlot l = some j := by
  have hsize : (h.placedAt i e).env.maxCachedHotEntries = h.env.maxCachedHotEntries := rfl
  have hpages : (h.placedAt i e).env.maxCachedHotTpages = h.env.maxCachedHotTpages := rfl
  have hslot := ht.lpa_placedAt
  rw [hslot] at hl
  -- A lookup that stopped at a slot still stops there: the window before it only got fuller.
  by_cases hji : j = i
  · rw [if_pos hji] at hl
    cases hl
    subst hji
    apply placeSlot_mono hsize hpages ht.slot
    · rw [hslot, if_pos rfl]
    · intro k hk
      rw [hslot] at hk
      by_cases hkj : k = j
      · rw [hkj]
        exact ht.held
      · rwa [if_neg hkj] at hk
  · rw [if_neg hji] at hl
    have hchosen := hm.chosen j hj l hl
    have hne : l ≠ lpa := by
      rintro rfl
      rw [ht.slot, Option.some.injEq] at hchosen
      exact hji hchosen.symm
    apply placeSlot_mono hsize hpages hchosen
    · rw [hslot, if_neg hji]
      exact hl
    · intro k hk
      rw [hslot] at hk
      by_cases hki : k = i
      · rw [if_pos hki] at hk
        rcases hk with hnone | hsame
        · cases hnone
        · exact absurd (Option.some.inj hsame).symm hne
      · rwa [if_neg hki] at hk

/-- The slot was empty and the lpa is new, or neither. -/
theorem Merging.placedAt_count {h₀ : HotTable} {e : HotSlot} {lpa i : Nat} (hi : Inserting h₀ h)
    (hm : Merging h₀ h) (ht : Takes h₀ h e lpa i) :
    weight (fun slot => (occupied slot).toNat) (h.placedAt i e).slots h₀.active =
      ((h.saved.take (h.insertIdx + 1)).map HotSlot.lpa).toFinset.card := by
  have hset := weight_set (w := fun slot => (occupied slot).toNat) (f := h.slots)
    (g := (h.placedAt i e).slots) ht.lt fun j hj => by rw [slots_placedAt, if_neg hj]
  have hnew : (occupied ((h.placedAt i e).slots i)).toNat = 1 := by
    unfold occupied
    rw [ht.lpa_placedAt, if_pos rfl]
    rfl
  rw [ht.take_lpas, List.toFinset_append, List.toFinset_cons, List.toFinset_nil,
    Finset.union_comm]
  show _ = (insert (some lpa) ((h.saved.take h.insertIdx).map HotSlot.lpa).toFinset).card
  -- Either one more slot and one more lpa, or none.
  rcases ht.held with hnone | hsame
  · have hfresh : some lpa ∉ ((h.saved.take h.insertIdx).map HotSlot.lpa).toFinset := by
      intro hmem
      obtain ⟨k, hk, hkl⟩ := hm.mem lpa (List.mem_toFinset.mp hmem)
      have hki := hm.chosen k hk lpa hkl
      rw [ht.slot, Option.some.injEq] at hki
      rw [← hki, hnone] at hkl
      cases hkl
    have hold : (occupied (h.slots i)).toNat = 0 := by
      unfold occupied
      rw [hnone]
      rfl
    rw [Finset.card_insert_of_notMem hfresh, ← hm.count]
    omega
  · have hthere : some lpa ∈ ((h.saved.take h.insertIdx).map HotSlot.lpa).toFinset := by
      obtain ⟨k, hk, e', he', hlpa, _⟩ := hi.origin i ht.lt (hsame ▸ Option.some_ne_none lpa)
      apply List.mem_toFinset.mpr
      rw [← hsame, hlpa]
      apply List.mem_map_of_mem
      apply List.mem_of_getElem? (i := k)
      rw [List.getElem?_take_of_lt hk, he']
    have hold : (occupied (h.slots i)).toNat = 1 := by
      unfold occupied
      rw [hsame]
      rfl
    rw [Finset.insert_eq_of_mem hthere, ← hm.count]
    omega

/-- An insertion keeps the slots matched to the saved entries. -/
theorem Merging.placedAt {h₀ : HotTable} {e : HotSlot} {lpa i : Nat} (hi : Inserting h₀ h)
    (hm : Merging h₀ h) (ht : Takes h₀ h e lpa i) : Merging h₀ (h.placedAt i e) := by
  have hlt : h.insertIdx < h.saved.length := (List.getElem?_eq_some_iff.mp ht.next).1
  refine ⟨congrArg (· + 1) hm.placed, ?_, fun j hj l hl => hm.placedAt_chosen ht hj hl,
    fun l hl => ?_, hm.placedAt_count hi ht⟩
  · rw [hi.saved] at hlt
    exact hlt
  · show ∃ k < h₀.active, _
    rw [show ((h.placedAt i e).saved.take (h.placedAt i e).insertIdx).map HotSlot.lpa = _ from
      ht.take_lpas, List.mem_append, List.mem_singleton] at hl
    rcases hl with hl | hl
    -- An lpa that was placed before is still in a slot.
    · obtain ⟨k, hk, hkl⟩ := hm.mem l hl
      by_cases hki : k = i
      · refine ⟨i, ht.lt, ?_⟩
        rw [hki] at hkl
        rw [ht.lpa_placedAt, if_pos rfl]
        rcases ht.held with hnone | hsame
        · rw [hkl] at hnone
          cases hnone
        · rw [← hsame, hkl]
      · refine ⟨k, hk, ?_⟩
        rw [ht.lpa_placedAt, if_neg hki]
        exact hkl
    · refine ⟨i, ht.lt, ?_⟩
      rw [ht.lpa_placedAt, if_pos rfl, hl]

/-- What `hot_valid_entries` counts after a rehash, and what it should count. -/
theorem rehash_validEntries (hs : h.env.Sized) :
    h.rehash.validEntries = h.warmSlots.length ∧
      h.rehash.occupiedCount = (h.warmSlots.map HotSlot.lpa).toFinset.card := by
  have hrule := complete_rule (P := fun _ _ => True) (C := fun g => g.placed = 0)
      (D := Merging h) hs
    (insertsOk_true _ _) rfl ?_ ?_ ?_
  · obtain ⟨g, hg, hi, hlen, hm⟩ := hrule
    have hall : g.insertIdx = h.warmSlots.length := Nat.le_antisymm hm.bound hlen
    have hcount := hm.count
    rw [hall, hi.saved, List.take_length] at hcount
    rw [hg, occupiedCount_eq]
    refine ⟨hm.placed.trans hall, ?_⟩
    rw [← hcount]
    show weight _ g.slots g.active = _
    rw [hi.active]
  · intro g _ _ _ hplaced
    exact collectSlot_rule g (fun _ => hplaced) (fun _ _ => hplaced) fun _ _ => hplaced
  · intro g hc hscan hplaced
    exact .begin hc hscan hplaced
  · intro g e lpa i hi ht _ hm
    exact hm.placedAt hi ht

/-- It is right after a rehash if and only if the saved entries are distinct. -/
theorem rehash_valid_iff (hs : h.env.Sized) : h.rehash.validEntries = h.rehash.occupiedCount ↔
    (h.warmSlots.map HotSlot.lpa).Nodup := by
  obtain ⟨hvalid, hcount⟩ := rehash_validEntries hs
  rw [hvalid, hcount, List.card_toFinset, ← List.dedup_eq_self]
  refine ⟨fun hlen => ?_, fun hself => ?_⟩
  · apply (List.dedup_sublist _).eq_of_length
    rw [← hlen, List.length_map]
  · rw [hself, List.length_map]

/-- The occupied slots are part of the mapping. -/
theorem occupiedCount_quiet (hq : Quiet h h') : h'.occupiedCount = h.occupiedCount := by
  rw [occupiedCount_eq, occupiedCount_eq, hq.active]
  apply weight_congr
  intro i _
  have hlpa : (h'.slots i).lpa = (h.slots i).lpa := congrArg HotPte.lpa (hq.mapping i)
  unfold occupied
  rw [hlpa]

/-- A step that keeps the mapping keeps the counter right. -/
theorem valid_quiet (hv : h.validEntries = h.occupiedCount) (hq : Quiet h h') :
    h'.validEntries = h'.occupiedCount := by
  rw [hq.validEntries, hv, occupiedCount_quiet hq]

/-- Slot `i` gets an entry. -/
theorem occupiedCount_fill {i : Nat} (hactive : h'.active = h.active) (hi : i < h.active)
    (hothers : ∀ j, j ≠ i → (h'.slots j).lpa = (h.slots j).lpa) (hocc : (h'.slots i).lpa ≠ none) :
    h'.occupiedCount = h.occupiedCount + if (h.slots i).lpa = none then 1 else 0 := by
  have hset := weight_set (w := fun slot => (occupied slot).toNat) (f := h.slots) (g := h'.slots) hi
    fun j hj => by
      unfold occupied
      rw [hothers j hj]
  have hnew : (occupied (h'.slots i)).toNat = 1 := by
    rw [occupied_iff.mpr hocc]
    rfl
  rw [occupiedCount_eq, occupiedCount_eq, hactive]
  split
  · next hnone =>
    have hold : (occupied (h.slots i)).toNat = 0 := by
      unfold occupied
      rw [hnone]
      rfl
    omega
  · next hne =>
    have hold : (occupied (h.slots i)).toNat = 1 := by
      rw [occupied_iff.mpr hne]
      rfl
    omega

/-- A promotion counts the slot if it was empty. -/
theorem taken_validEntries (h : HotTable) (i : Nat) : (h.taken i).validEntries =
    h.validEntries + if (h.slots i).lpa = none then 1 else 0 := by
  unfold taken
  split <;> rfl

/-- A promotion keeps `hot_valid_entries` right. -/
theorem valid_placed {lpa : Nat} {ppa : Option Nat} {keyFp : UInt32} {coldCnt : Nat}
    (hv : h.validEntries = h.occupiedCount) (hs : h.Settled)
    (hp : Placed h lpa ppa keyFp coldCnt h') : h'.validEntries = h'.occupiedCount := by
  cases hp with
  | refused => exact hv
  -- The entry is there already and keeps its slot.
  | @refreshed i h' hfind hrest hslot hothers _ =>
    obtain ⟨hi, hlpa⟩ := hs.findLpa hfind
    have hactive : h'.active = h.active := by
      rw [hrest]
      rfl
    have hvalid : h'.validEntries = h.validEntries := by rw [hrest]
    rw [hvalid, hv, occupiedCount_fill hactive hi]
    · rw [if_neg (hlpa ▸ Option.some_ne_none lpa), Nat.add_zero]
    · intro j hj
      rw [hothers j hj]
    · rw [hslot]
      exact Option.some_ne_none lpa
  -- The slot is counted if it was empty, the entry that was displaced is not counted twice.
  | @written i g hmem _ hg =>
    have hdrop := dropsKey_promoteDropKey (h.taken i) i
    rw [← hg] at hdrop
    have hvalid : g.validEntries = h.validEntries + if (h.slots i).lpa = none then 1 else 0 := by
      rw [hdrop.rest]
      exact taken_validEntries h i
    show g.validEntries = _
    rw [hvalid, hv]
    symm
    apply occupiedCount_fill
    · show g.active = h.active
      unfold active
      rw [hdrop.env, taken_env]
    · exact hs.probes_lt hmem
    · intro j hj
      show ((g.setSlot i _).slots j).lpa = _
      rw [slots_setSlot, if_neg hj]
      have hpte := hdrop.mapping j
      rw [taken_slots] at hpte
      exact congrArg HotPte.lpa hpte
    · show ((g.setSlot i _).slots i).lpa ≠ none
      rw [slots_setSlot, if_pos rfl]
      exact Option.some_ne_none lpa

/-- A raised state does not touch it. -/
theorem valid_raise (hv : h.validEntries = h.occupiedCount) (i : Nat) :
    (h.stateRaise i).validEntries = (h.stateRaise i).occupiedCount := by
  refine stateRaise_rule h i hv fun _ _ => ?_
  show h.validEntries = _
  rw [hv, occupiedCount_eq, occupiedCount_eq]
  symm
  apply weight_congr
  intro j _
  show (occupied ((h.setSlot i _).slots j)).toNat = _
  rw [slots_setSlot]
  split
  · next hj => rw [hj]; rfl
  · rfl

/-- A step that does not rehash keeps `hot_valid_entries` right; a rehash does if the entries
    that it saves are distinct. -/
theorem valid_step {m : Mem} {a : MemLabel} (hv : m.hot.validEntries = m.hot.occupiedCount)
    (hs : m.hot.Settled) (ha : m.HotStep a h) : h.validEntries = h.occupiedCount ↔
      ∀ g ∈ m.rehashes a, (g.warmSlots.map HotSlot.lpa).Nodup := by
  cases ha with
  | same _ hno =>
    exact iff_of_true hv (Mem.rehashes_none hno)
  | promote => exact iff_of_true (valid_placed hv hs (placed_placeGrain ..)) (Mem.rehashes_none rfl)
  | @raise lpa i _ => exact iff_of_true (valid_raise hv i) (Mem.rehashes_none rfl)
  | verify =>
    exact iff_of_true (valid_quiet hv (quiet_unghosted (.ghostKeyOnFlashVerify ..)))
      (Mem.rehashes_none rfl)
  | cacheKey => exact iff_of_true (valid_quiet hv (quiet_cacheKey ..)) (Mem.rehashes_none rfl)
  -- The rehash counts the entries it saves, repeated or not.
  | @rehash a g hg hres =>
    rw [hg]
    have htrim := quiet_unghosted (.ghostTrim g.rehash)
    have hsame : g.rehash.ghostTrim.occupiedCount = g.rehash.occupiedCount :=
      occupiedCount_quiet htrim
    rw [htrim.validEntries, hsame, rehash_valid_iff hres.sized]
    refine ⟨fun hnodup g' hg' => ?_, fun hall => hall g rfl⟩
    cases hg'
    exact hnodup
  | expandKey henv =>
    exact iff_of_true (valid_quiet hv (quiet_expandKey hs henv))
      (Mem.rehashes_none rfl)
  | reset =>
    refine iff_of_true ?_ (Mem.rehashes_none rfl)
    rw [occupiedCount_eq, reset_active]
    symm
    apply weight_eq_zero
    intro i hi
    unfold occupied
    rw [reset_empty hi]
    rfl
  | prepare =>
    exact iff_of_true (valid_quiet hv ⟨rfl, fun _ => rfl, rfl, rfl⟩)
      (Mem.rehashes_none rfl)

end HotTable

/-- `hot_valid_entries` is the number of the occupied slots of the active pages, and the sum
    of the histogram, as long as the warm entries that each rehash saves are distinct. One
    rehash that saves an entry twice makes it too large. -/
theorem valid_entries {verifyCache : Bool} {cold hot key nrValidTpages : Nat} {env₀ : CacheEnv}
    {m : Mem} (hinit : cacheEnvInit verifyCache cold hot key = some env₀) (hpos : 0 < hot)
    (hsize : cold + hot < 2147483648)
    (hr : (memMachine env₀ nrValidTpages).Reach
      (fun m a => ∀ g ∈ m.rehashes a, (g.warmSlots.map HotSlot.lpa).Nodup) m) :
    m.hot.validEntries = m.hot.occupiedCount ∧ m.hot.validEntries = m.hot.stateLive.sum ∧
      ∀ a m', m.next a = some m' → (m'.hot.validEntries = m'.hot.occupiedCount ↔
        ∀ g ∈ m.rehashes a, (g.warmSlots.map HotSlot.lpa).Nodup) := by
  have hsized : ∀ env, env₀.updateCaps = some env → env.Sized := fun env henv =>
    (CacheEnv.sized_of_init hinit henv hpos hsize).1
  -- The count is kept while no rehash saves an entry twice.
  have hvalid : m.hot.validEntries = m.hot.occupiedCount := by
    apply hr.invariant
    · intro s hs
      obtain ⟨env, _, rfl⟩ := hs
      rw [HotTable.occupiedCount_eq]
      symm
      apply weight_eq_zero
      intro _ _
      rfl
    · intro s s' a hr hv hok hn
      have hs := Mem.reach_settled hsized hr
      exact (HotTable.valid_step hv hs (Mem.hotStep hs hn)).mpr hok
  have hs := Mem.reach_settled hsized hr
  refine ⟨hvalid, ?_, fun a m' hn => HotTable.valid_step hvalid hs (Mem.hotStep hs hn)⟩
  have hc := Mem.reach_counted hsized hr
  rw [hc, HotTable.sum_stateCount (Mem.reach_levels hr.reachable), hvalid]

/-- A rehash that saves one of two entries. -/
theorem valid_entries_shrunk : ∃ m, (memMachine smallEnv₀ 4).exec (.create smallEnv 4)
      [.promote 5 (some 9) 1 3, .promote 600 (some 9) 1 1, .hit 5, .shrinkHot] = some m ∧
    m.hot.validEntries = m.hot.occupiedCount := by
  have hrun : ((memMachine smallEnv₀ 4).exec (.create smallEnv 4)
      [.promote 5 (some 9) 1 3, .promote 600 (some 9) 1 1, .hit 5, .shrinkHot]).isSome = true := by
    decide +kernel
  obtain ⟨m, hm⟩ := Option.isSome_iff_exists.mp hrun
  have hok : (memMachine smallEnv₀ 4).check
      (fun m a => decide (∀ g ∈ m.rehashes a, (g.warmSlots.map HotSlot.lpa).Nodup))
      (.create smallEnv 4)
      [.promote 5 (some 9) 1 3, .promote 600 (some 9) 1 1, .hit 5, .shrinkHot] = true := by
    decide +kernel
  have hr := small_reach ((Machine.along_of_check hok).mono fun _ _ h => of_decide_eq_true h) hm
  have hvalid := valid_entries smallEnv₀_init (by decide) (by decide) hr
  exact ⟨m, hm, hvalid.1⟩

end AggreKV.HashKv
