import AggreKV.HashKv.HotSteps

/-! # The two models of the hot table

    `HotTable` refines `Hot`: without keys, ghosts and counters, its steps
    are those that the mapping store makes with its hot table.

    * `toHot_hitSlot`, `toHot_placeGrain`, `toHot_rehash`: lookup, promotion
      and rehash of the one are those of the other.
    * `toHot_step`: so is every step of the adaptive memory.
    * `hot_refines`: and every run. -/

namespace AggreKV.HashKv

theorem Hot.setSlot_self (h : Hot) (i : Nat) : h.setSlot i (h.memTable i) = h := by
  unfold Hot.setSlot
  rw [Function.update_eq_self]

/-- The last write to a slot stays. -/
theorem Hot.setSlot_setSlot (h : Hot) (i : Nat) (e e' : HotPte) :
    (h.setSlot i e).setSlot i e' = h.setSlot i e' := by
  unfold Hot.setSlot
  dsimp only
  rw [Function.update_idem]

namespace HotTable

variable {h h' : HotTable}

/-! ## Section 1: The abstraction -/

/-- The probes read the number of entries, which is that of the active slots. -/
def Entries (h : HotTable) : Prop := h.env.maxCachedHotEntries = h.active

/-- A slot is written in both models. -/
theorem toHot_setSlot (h : HotTable) (i : Nat) (e : HotSlot) :
    (h.setSlot i e).toHot = h.toHot.setSlot i e.toPte := by
  have htable : (fun j => ((h.setSlot i e).slots j).toPte) =
      Function.update h.toHot.memTable i e.toPte := by
    funext j
    rw [slots_setSlot]
    by_cases hj : j = i
    · rw [if_pos hj, hj, Function.update_self]
    · rw [if_neg hj, Function.update_of_ne hj]
      rfl
  unfold toHot Hot.setSlot
  rw [htable]
  rfl

/-- Ghost marks are not in the smaller model. -/
theorem toHot_unghosted (hu : Unghosted h h') : h'.toHot = h.toHot := by
  have htable : (fun i => (h'.slots i).toPte) = fun i => (h.slots i).toPte := funext hu.mapping
  unfold toHot
  rw [htable, hu.rest]

/-- Nor are keys. -/
theorem toHot_dropsKey {i : Nat} (hd : DropsKey h h' i) : h'.toHot = h.toHot := by
  have htable : (fun j => (h'.slots j).toPte) = fun j => (h.slots j).toPte := funext hd.mapping
  unfold toHot
  rw [htable, hd.env, hd.rest]

/-! ## Section 2: Lookup and promotion -/

/-- The two models probe the same slots. -/
theorem toHot_probes (he : h.Entries) (lpa n : Nat) : h.toHot.probes lpa n = h.probes lpa n := by
  unfold probes
  rw [he]
  rfl

theorem toHot_findLpa (h : HotTable) (slots : List Nat) (lpa : Nat) :
    h.toHot.findLpa slots lpa = h.findLpa slots lpa := rfl

/-- The lookups hit the same slot. -/
theorem toHot_hitSlot (he : h.Entries) (lpa : Nat) : h.toHot.hitSlot lpa = h.hitSlot lpa := by
  unfold Hot.hitSlot hitSlot
  rw [toHot_findLpa, toHot_probes he]
  rfl

/-- A hit raises the state of an occupied slot up to the last of the six. -/
theorem toHot_stateRaise {i : Nat} (hlpa : (h.slots i).lpa ≠ none) :
    (h.stateRaise i).toHot = h.toHot.setSlot i
      { h.toHot.memTable i with state := heatRaise (h.slots i).state } := by
  unfold stateRaise histMove heatRaise
  dsimp only
  rw [if_neg hlpa]
  by_cases hlt : (h.slots i).state < 5
  · have hok : ¬((h.slots i).lpa = none ∨ 6 ≤ (h.slots i).state + 1) := by
      rintro (hnone | hge)
      · exact hlpa hnone
      · omega
    rw [if_pos hlt, if_pos hlt, if_neg hok]
    exact toHot_setSlot h i { h.slots i with state := (h.slots i).state + 1 }
  · rw [if_neg hlt, if_neg hlt]
    -- The slot is written as it was.
    exact (Hot.setSlot_self h.toHot i).symm

theorem toHot_promoteVictim (h : HotTable) (slots : List Nat) :
    h.toHot.promoteVictim slots = h.promoteVictim slots := rfl

/-- A promotion writes the entry with its clamped state. -/
theorem toHot_promoteWrite (h : HotTable) (i lpa : Nat) (ppa : Option Nat) (keyFp : UInt32)
    (coldCnt : Nat) : (h.promoteWrite i lpa ppa keyFp coldCnt).toHot =
      h.toHot.setSlot i ⟨some lpa, ppa, min coldCnt 5, keyFp⟩ := by
  have hdrop := toHot_dropsKey (dropsKey_promoteDropKey h i)
  rw [← hdrop]
  exact toHot_setSlot (h.promoteDropKey i) i (promotedSlot _ lpa ppa keyFp coldCnt)

/-- The slot of the same lpa is written in three steps. -/
theorem toHot_refreshed {i lpa : Nat} (ppa : Option Nat) (keyFp : UInt32) (coldCnt : Nat)
    (hfind : h.findLpa (h.probes lpa 50) lpa = some i) :
    (h.placeGrain lpa ppa keyFp coldCnt).toHot =
      h.toHot.setSlot i ⟨some lpa, ppa, min coldCnt 5, keyFp⟩ := by
  have hlpa := (findLpa_some hfind).2
  unfold placeGrain
  dsimp only
  rw [hfind]
  dsimp only
  obtain ⟨g, hg⟩ : ∃ g, h.setSlot i { h.slots i with ppa := ppa, keyFp := keyFp } = g := ⟨_, rfl⟩
  have hslot : g.slots i = { h.slots i with ppa := ppa, keyFp := keyFp } := by
    rw [← hg, slots_setSlot, if_pos rfl]
  have hocc : (g.slots i).lpa ≠ none := by
    rw [hslot]
    show (h.slots i).lpa ≠ none
    rw [hlpa]
    exact Option.some_ne_none _
  -- The mapping, the state and the ghost mark are written in turn.
  obtain ⟨live, hsync⟩ := syncPromoted_eq hocc coldCnt
  rw [hg, hsync, toHot_setSlot]
  show ((g.setSlot i { g.slots i with state := promoteEntryState coldCnt }).toHot).setSlot i
    (HotSlot.toPte
      { (g.setSlot i { g.slots i with state := promoteEntryState coldCnt }).slots i with
        keyGhostMark := false }) = _
  rw [toHot_setSlot, ← hg, toHot_setSlot, Hot.setSlot_setSlot, Hot.setSlot_setSlot, slots_setSlot,
    if_pos rfl, slots_setSlot, if_pos rfl]
  show h.toHot.setSlot i ⟨(h.slots i).lpa, ppa, promoteEntryState coldCnt, keyFp⟩ = _
  rw [hlpa]
  rfl

/-- The promotions take the same slot for the same entry. -/
theorem toHot_placeGrain (he : h.Entries) (lpa : Nat) (ppa : Option Nat) (keyFp : UInt32)
    (coldCnt : Nat) : (h.placeGrain lpa ppa keyFp coldCnt).toHot =
      h.toHot.placeGrain lpa ppa keyFp coldCnt := by
  unfold Hot.placeGrain
  dsimp only
  rw [toHot_probes he, toHot_findLpa, toHot_promoteVictim]
  cases hfind : h.findLpa (h.probes lpa 50) lpa with
  | some i => exact toHot_refreshed ppa keyFp coldCnt hfind
  | none =>
    unfold placeGrain
    dsimp only
    rw [hfind]
    dsimp only
    have hsame : (h.probes lpa 50).find? (fun i => (h.toHot.memTable i).lpa.isNone) =
        (h.probes lpa 50).find? fun i => (h.slots i).lpa.isNone := rfl
    rw [hsame]
    cases (h.probes lpa 50).find? fun i => (h.slots i).lpa.isNone with
    | some i =>
      exact toHot_promoteWrite { h with validEntries := h.validEntries + 1 } i lpa ppa keyFp coldCnt
    | none =>
      dsimp only
      -- All probes are taken: the entry of least state, unless it is hotter.
      cases h.promoteVictim (h.probes lpa 50) with
      | none => rfl
      | some i =>
        dsimp only
        by_cases hcnt : coldCnt < (h.slots i).state
        · rw [if_pos hcnt]
          exact (if_pos hcnt).symm
        · rw [if_neg hcnt]
          refine (toHot_promoteWrite _ i lpa ppa keyFp coldCnt).trans ?_
          exact (if_neg hcnt).symm

/-! ## Section 3: Rehash -/

/-- A slot is collected in both models. -/
theorem toHot_collectSlot (h : HotTable) : h.collectSlot.toHot = h.toHot.collectSlot := by
  unfold collectSlot Hot.collectSlot
  dsimp only
  by_cases hlpa : (h.slots h.scan).lpa = none
  · have hnone : (h.toHot.memTable h.toHot.scan).lpa.isNone = true :=
      Option.isNone_iff_eq_none.mpr hlpa
    rw [if_pos hlpa, if_pos hnone]
    rfl
  · have hsome : ¬(h.toHot.memTable h.toHot.scan).lpa.isNone = true := fun hnone =>
      hlpa (Option.isNone_iff_eq_none.mp hnone)
    have hwarm : (h.slots h.scan).warm = true ↔ 2 ≤ (h.slots h.scan).state := by
      unfold HotSlot.warm
      rw [Option.isSome_iff_ne_none.mpr hlpa, Bool.true_and, decide_eq_true_iff]
    have hclear : (h.clearSlot h.scan).toHot = h.toHot.setSlot h.scan .empty :=
      toHot_setSlot (h.uncount (h.slots h.scan)) h.scan (h.slots h.scan).cleared
    have htable : (h.clearSlot h.scan).toHot.memTable =
        Function.update h.toHot.memTable h.scan .empty := congrArg Hot.memTable hclear
    rw [if_neg hlpa, if_neg hsome]
    unfold toHot at htable ⊢
    dsimp only at htable ⊢
    have hstate : (h.slots h.scan).toPte.state = (h.slots h.scan).state := rfl
    rw [htable, hstate]
    -- A warm entry is saved, another one dropped with its key.
    by_cases hhot : 2 ≤ (h.slots h.scan).state
    · rw [if_pos (hwarm.mpr hhot), if_pos (hwarm.mpr hhot), if_pos hhot, List.map_append]
      rfl
    · have hcold := fun hw => hhot (hwarm.mp hw)
      rw [if_neg hcold, if_neg hcold, if_neg hhot, yieldKeyBudget_eq]
      rfl

/-- And so are all of a tick. -/
theorem toHot_collectLoop (n : Nat) (h : HotTable) :
    (h.collectLoop n).toHot = h.toHot.collectLoop n := by
  induction n generalizing h with
  | zero => rfl
  | succ n ih =>
    unfold collectLoop Hot.collectLoop
    by_cases hlt : h.scan < h.nPages * 512
    · rw [if_pos hlt, ih, toHot_collectSlot]
      exact (if_pos hlt).symm
    · rw [if_neg hlt]
      exact (if_neg hlt).symm

/-- Both tables look at the same window, so they choose the same slot. -/
theorem toHot_placeEntry (he : h.Entries) (pte : HotPte) (lpa : Nat) :
    h.toHot.placeEntry pte lpa =
      (h.placeSlot lpa).elim h.toHot fun i => h.toHot.setSlot i pte := by
  unfold Hot.placeEntry
  rw [toHot_probes he]
  dsimp only
  split
  · next i hi =>
    rw [show h.placeSlot lpa = some i from hi]
    rfl
  · next hi =>
    rw [show h.placeSlot lpa = none from hi]
    rfl

/-- The placed entry brings its key and its ghost with it. -/
theorem toHot_insertEntry (he : h.Entries) (e : HotSlot) :
    (h.insertEntry e).toHot = h.toHot.insertEntry e.toPte := by
  unfold insertEntry Hot.insertEntry
  have hlpa : e.toPte.lpa = e.lpa := rfl
  rw [hlpa]
  cases e.lpa with
  | none =>
    show HotTable.toHot { h with env := yieldKeyBudget h.env e, insertIdx := h.insertIdx + 1 } = _
    rw [yieldKeyBudget_eq]
    rfl
  | some lpa =>
    dsimp only
    rw [Option.bind_some, toHot_placeEntry he]
    cases h.placeSlot lpa with
    | none =>
      dsimp only
      rw [yieldKeyBudget_eq]
      rfl
    | some i =>
      have hset := toHot_setSlot h i (copyPte (h.slots i) e)
      dsimp only
      rw [show e.toPte = (copyPte (h.slots i) e).toPte from rfl, Option.elim_some, ← hset]
      rfl

/-- An insertion keeps the sizes. -/
theorem entries_insertEntry (he : h.Entries) (e : HotSlot) : (h.insertEntry e).Entries := by
  unfold insertEntry
  split
  · exact he
  · unfold Entries active
    dsimp only
    rw [yieldKeyBudget_eq]
    exact he

/-- The insertions of a tick. -/
theorem toHot_insertLoop (n : Nat) {h : HotTable} (he : h.Entries) :
    (h.insertLoop n).toHot = h.toHot.insertLoop n ∧ (h.insertLoop n).Entries := by
  induction n generalizing h with
  | zero => exact ⟨rfl, he⟩
  | succ n ih =>
    unfold insertLoop Hot.insertLoop
    have hget : h.toHot.saved[h.toHot.insertIdx]? = h.saved[h.insertIdx]?.map HotSlot.toPte :=
      List.getElem?_map ..
    rw [hget]
    cases h.saved[h.insertIdx]? with
    | none => exact ⟨rfl, he⟩
    | some e =>
      obtain ⟨htoHot, hentries⟩ := ih (entries_insertEntry he e)
      dsimp only [Option.map_some]
      rw [htoHot, toHot_insertEntry he]
      exact ⟨rfl, hentries⟩

theorem entries_collectSlot (he : h.Entries) : h.collectSlot.Entries := by
  refine collectSlot_rule h (fun _ => he) (fun _ _ => he) fun _ _ => ?_
  unfold Entries active
  rw [yieldKeyBudget_eq]
  exact he

theorem entries_collectLoop (n : Nat) {h : HotTable} (he : h.Entries) :
    (h.collectLoop n).Entries := by
  induction n generalizing h with
  | zero => exact he
  | succ n ih =>
    unfold collectLoop
    split
    · exact ih (entries_collectSlot he)
    · exact he

/-- A tick does the same in both models. -/
theorem toHot_rehashTick (he : h.Entries) :
    h.rehashTick.toHot = h.toHot.rehashTick ∧ h.rehashTick.Entries := by
  unfold rehashTick Hot.rehashTick
  have hphase : h.toHot.phase = h.phase := rfl
  rw [hphase]
  cases h.phase with
  | idle => exact ⟨rfl, he⟩
  | collect =>
    have hloop := toHot_collectLoop 32768 h
    have hentries := entries_collectLoop 32768 he
    dsimp only
    rw [← hloop]
    -- The two scans stand at the same slot, so both tables change the phase together.
    generalize h.collectLoop 32768 = g at hentries
    by_cases hdone : g.nPages * 512 ≤ g.scan
    · rw [if_pos hdone]
      exact ⟨(if_pos hdone).symm, hentries⟩
    · rw [if_neg hdone]
      exact ⟨(if_neg hdone).symm, hentries⟩
  | insert =>
    obtain ⟨hloop, hentries⟩ := toHot_insertLoop 8192 he
    dsimp only
    rw [← hloop]
    generalize h.insertLoop 8192 = g at hentries
    have hlen : g.toHot.saved.length = g.saved.length := List.length_map ..
    rw [hlen]
    by_cases hdone : g.saved.length ≤ g.insertIdx
    · rw [if_pos hdone]
      exact ⟨(if_pos hdone).symm, hentries⟩
    · rw [if_neg hdone]
      exact ⟨(if_neg hdone).symm, hentries⟩

/-- And so do several. -/
theorem toHot_rehashDrain (n : Nat) {h : HotTable} (he : h.Entries) :
    (h.rehashDrain n).toHot = h.toHot.rehashDrain n := by
  induction n generalizing h with
  | zero => rfl
  | succ n ih =>
    unfold rehashDrain Hot.rehashDrain
    by_cases hidle : h.accessible = true
    · rw [if_pos hidle]
      exact (if_pos hidle).symm
    · obtain ⟨htick, hentries⟩ := toHot_rehashTick he
      rw [if_neg hidle, ih hentries, htick]
      exact (if_neg hidle).symm

/-- A complete rehash moves the same entries to the same slots. -/
theorem toHot_rehash (he : h.Entries) : h.rehash.toHot = h.toHot.rehashBegin.rehashDrainAll := by
  have hbegin : h.rehashBegin.toHot = h.toHot.rehashBegin := rfl
  unfold rehash Hot.rehashDrainAll
  rw [← hbegin]
  exact toHot_rehashDrain _ he

/-! ## Section 4: Resizing -/

theorem toHot_uncountHot (slots : List HotSlot) (h : HotTable) :
    (slots.foldl uncountHot h).toHot = h.toHot := by
  induction slots generalizing h with
  | nil => rfl
  | cons slot slots ih =>
    have hslot : (h.uncountHot slot).toHot = h.toHot := by
      show HotTable.toHot { h.uncount slot with env := yieldKeyBudget h.env slot } = _
      rw [yieldKeyBudget_eq]
      rfl
    rw [List.foldl_cons, ih, hslot]

/-- Clearing pages commutes with the abstraction. -/
theorem toHot_clearPages (h : HotTable) (lo n : Nat) :
    (h.clearPages lo n).toHot = h.toHot.clearPages lo (lo + n) := by
  have hrest := toHot_uncountHot ((List.range' (lo * 512) (n * 512)).map h.slots) h
  have htable : (fun i => ((h.clearPages lo n).slots i).toPte) =
      (h.toHot.clearPages lo (lo + n)).memTable := by
    funext i
    show HotSlot.toPte (if _ then _ else _) = if _ then _ else _
    rw [Nat.add_mul]
    split <;> rfl
  calc (h.clearPages lo n).toHot
      = { (((List.range' (lo * 512) (n * 512)).map h.slots).foldl uncountHot h).toHot with
          memTable := fun i => ((h.clearPages lo n).slots i).toPte } := rfl
    _ = h.toHot.clearPages lo (lo + n) := by
        rw [hrest, htable]
        rfl

/-- A reset clears all pages. -/
theorem toHot_reset (h : HotTable) :
    h.reset.toHot = h.toHot.clearPages 0 h.env.maxCachedHotTpages := by
  have htable : (fun i => (h.reset.slots i).toPte) =
      (h.toHot.clearPages 0 h.env.maxCachedHotTpages).memTable := by
    funext i
    show HotSlot.toPte (if i < h.active then _ else _) =
      if 0 * 512 ≤ i ∧ i < h.env.maxCachedHotTpages * 512 then _ else _
    by_cases hi : i < h.active
    · rw [if_pos hi, if_pos ⟨by omega, hi⟩]
      rfl
    · rw [if_neg hi, if_neg fun hc => hi hc.2]
      rfl
  have hpages : h.reset.env.maxCachedHotTpages = h.env.maxCachedHotTpages := by
    unfold reset
    dsimp only
    split <;> rfl
  unfold toHot at htable ⊢
  rw [htable, hpages]
  rfl

theorem toHot_cacheKey (h : HotTable) (i : Nat) (realKey : List UInt8) :
    (h.cacheKey i realKey).toHot = h.toHot := by
  unfold cacheKey
  dsimp only
  split
  · have hset := toHot_setSlot h i { h.slots i with realKey := realKey, keyGhostMark := false }
    exact hset.trans (Hot.setSlot_self h.toHot i)
  · rfl

end HotTable

/-- A rebalance to `pages` pages: those that come or go are cleared, the rest is rehashed. -/
def Hot.resized (h : Hot) (pages : Nat) : Hot :=
  ({ h with maxCachedHotTpages := pages }.clearPages (min h.maxCachedHotTpages pages)
    (max h.maxCachedHotTpages pages)).rehashBegin.rehashDrainAll

/-- It is what the rebalance of the mapping store does. -/
theorem Store.rebalance_hot (cfg : Settings) (s : Store) (choice : Rebalance) :
    (s.rebalance cfg choice).hot = s.hot ∨
      ∃ pages, (s.rebalance cfg choice).hot = s.hot.resized pages := by
  unfold Store.rebalance Hot.resized
  cases choice with
  | keep => exact Or.inl rfl
  | expandHot =>
    dsimp only
    split
    · exact Or.inl rfl
    · right
      refine ⟨s.hot.maxCachedHotTpages + cfg.chunkTpages, ?_⟩
      rw [Nat.min_eq_left (Nat.le_add_right ..), Nat.max_eq_right (Nat.le_add_right ..)]
  | expandKey =>
    dsimp only
    split <;> exact Or.inl rfl
  | shrinkHot =>
    dsimp only
    split
    · exact Or.inl rfl
    · right
      refine ⟨s.hot.maxCachedHotTpages - cfg.chunkTpages, ?_⟩
      rw [Nat.min_eq_right (Nat.sub_le ..), Nat.max_eq_left (Nat.sub_le ..)]
      rfl

namespace HotTable

/-- A resize with its rehash. -/
theorem Resizes.toHot {g : HotTable} (hr : Resizes h g) :
    g.rehash.toHot = h.toHot.resized g.env.maxCachedHotTpages := by
  have hentries : g.Entries := hr.sized.entries
  rw [toHot_rehash hentries]
  cases hr with
  | @cleared env lo n hres hlo hhi =>
    have hclear := toHot_clearPages { h with env := env } lo n
    have hpages : ({ h with env := env }.clearPages lo n).env.maxCachedHotTpages =
        env.maxCachedHotTpages := congrArg Hot.maxCachedHotTpages hclear
    rw [hclear, hpages, ← hhi, ← hlo]
    rfl

end HotTable

/-! ## Section 5: Steps and runs -/

namespace Mem

open HotTable

/-- What a step does to the hot table of the mapping store; `resize` is the size of a table
    that is rehashed. -/
def hotEffect (cfg : Settings) (h : Hot) (resize : Option Nat) : MemLabel → Hot
  | .promote lpa ppa keyFp coldCnt => h.placeGrain lpa ppa keyFp coldCnt
  | .hit lpa => (h.isHit cfg lpa).2
  | .reset => h.clearPages 0 h.maxCachedHotTpages
  | .expandHot | .shrinkHot => match resize with
    | some pages => h.resized pages
    | none => h
  | _ => h

/-- A hit raises a state, a miss drains. -/
theorem toHot_hit {m : Mem} (hs : m.hot.Settled) (cfg : Settings) (lpa : Nat) :
    (match m.hot.hitSlot lpa with
      | some i => m.hot.stateRaise i
      | none => m.hot.rehashDrain 4).toHot = (m.hot.toHot.isHit cfg lpa).2 := by
  unfold Hot.isHit
  rw [toHot_hitSlot hs.entries]
  cases hhit : m.hot.hitSlot lpa with
  | some i =>
    unfold hitSlot at hhit
    rw [if_pos hs.accessible] at hhit
    apply toHot_stateRaise
    rw [(findLpa_some hhit).2]
    exact Option.some_ne_none _
  | none =>
    -- An idle table has nothing to drain.
    have hstay : m.hot.rehashDrain 4 = m.hot := by
      rw [rehashDrain_eq]
      exact rehashTick_idle hs.idle 4
    dsimp only
    rw [← toHot_rehashDrain 4 hs.entries, hstay, ite_self]

/-- With or without a resize. -/
theorem toHot_rehashed {m : Mem} {t : Option HotTable} (hres : ∀ g ∈ t, Resizes m.hot g) :
    (m.rehashed t).hot.toHot = match t.map (·.env.maxCachedHotTpages) with
      | some pages => m.hot.toHot.resized pages
      | none => m.hot.toHot := by
  cases t with
  | none => rfl
  | some g =>
    have hhot : (m.rehashed (some g)).hot = g.rehash.ghostTrim := ghostTrim_hot _
    rw [hhot, toHot_unghosted (Unghosted.ghostTrim _), (hres g rfl).toHot]
    rfl

/-- The steps that touch keys, ghosts or the cold cache only. -/
def quiet : MemLabel → Bool
  | .verify .. | .cacheKey .. | .expandKey | .prepare | .evict _ | .load _ => true
  | _ => false

/-- The hot table of the mapping store does not see them. -/
theorem HotStep.toHot_quiet {m : Mem} {a : MemLabel} {h : HotTable} (ha : m.HotStep a h)
    (hs : m.hot.Settled) (hquiet : quiet a = true) : h.toHot = m.hot.toHot := by
  cases ha with
  | same => rfl
  | verify => exact toHot_unghosted (Unghosted.ghostKeyOnFlashVerify ..)
  | @cacheKey i realKey => exact toHot_cacheKey m.hot i realKey
  | @expandKey env henv =>
    obtain ⟨-, hpages, -⟩ := CacheEnv.expandKeyCache_some henv hs.sized
    rw [toHot_unghosted (Unghosted.ghostTrim _)]
    show toHot { m.hot with env := env } = m.hot.toHot
    unfold toHot
    dsimp only
    rw [hpages]
  | prepare => rfl
  | rehash hre =>
    -- A rehash belongs to a resize, and that is not quiet.
    cases a with
    | expandHot | shrinkHot => cases hquiet
    | _ => cases hre
  | promote | raise | reset => cases hquiet

/-- A step of the adaptive memory is, without keys, ghosts and counters, a step of the hot
    table of the mapping store. -/
theorem toHot_step {m m' : Mem} {a : MemLabel} (hs : m.hot.Settled) (hn : m.next a = some m')
    (cfg : Settings) : m'.hot.toHot =
      hotEffect cfg m.hot.toHot ((m.rehashes a).map (·.env.maxCachedHotTpages)) a := by
  cases a with
  | promote lpa ppa keyFp coldCnt =>
    cases hn
    dsimp only
    rw [if_pos hs.accessible]
    exact toHot_placeGrain hs.entries lpa ppa keyFp coldCnt
  | hit lpa =>
    cases hn
    exact toHot_hit hs cfg lpa
  | expandHot =>
    obtain ⟨t, ht, rfl⟩ := Option.map_eq_some_iff.mp hn
    have hre : m.rehashes .expandHot = t := by
      show m.expandHotTable.join = t
      rw [ht]
      rfl
    rw [hre]
    exact toHot_rehashed (expandHotTable_some ht hs)
  | shrinkHot =>
    obtain ⟨t, ht, rfl⟩ := Option.map_eq_some_iff.mp hn
    have hre : m.rehashes .shrinkHot = t := by
      show m.shrinkHotTable.join = t
      rw [ht]
      rfl
    rw [hre]
    exact toHot_rehashed (shrinkHotTable_some ht hs)
  | reset =>
    cases hn
    exact toHot_reset m.hot
  | verify | cacheKey | expandKey | prepare | evict | load =>
    exact (hotStep hs hn).toHot_quiet hs rfl

end Mem

/-- The hot table of the mapping store on its own, under the labels of the adaptive memory. -/
def hotMachine (cfg : Settings) : Machine Hot (Option Nat × MemLabel) where
  init h := ∃ pages, h = ⟨fun _ => .empty, pages, .idle, 0, 0, [], 0⟩
  next h a := some (Mem.hotEffect cfg h a.1 a.2)

/-- Every run of the adaptive memory is a run of that table: the same entries are hit, promoted,
    displaced and moved, whatever keys, ghosts and counters do. -/
theorem hot_refines {verifyCache : Bool} {cold hot key nrValidTpages : Nat} {env₀ : CacheEnv}
    (hinit : cacheEnvInit verifyCache cold hot key = some env₀) (hpos : 0 < hot)
    (hsize : cold + hot < 2147483648) (cfg : Settings) {m m' : Mem} {as : List MemLabel}
    (hm : (memMachine env₀ nrValidTpages).init m)
    (h : (memMachine env₀ nrValidTpages).exec m as = some m') :
    (hotMachine cfg).init m.hot.toHot ∧ ∃ bs, bs.map Prod.snd = as ∧
      (hotMachine cfg).exec m.hot.toHot bs = some m'.hot.toHot := by
  obtain ⟨env, henv, rfl⟩ := hm
  have hsettled : (Mem.create env nrValidTpages).hot.Settled :=
    ⟨rfl, (CacheEnv.sized_of_init hinit henv hpos hsize).1⟩
  refine ⟨⟨env.maxCachedHotTpages, rfl⟩, ?_⟩
  -- The relation of the simulation: the table is idle, and the other one its abstraction.
  obtain ⟨bs, t, hbs, hexec, -, rfl⟩ := @Machine.exec_simulates Mem MemLabel
    (memMachine env₀ nrValidTpages) Hot (Option Nat × MemLabel) (hotMachine cfg) Prod.snd
    (fun m t => m.hot.Settled ∧ m.hot.toHot = t) (by
      rintro s t a s' ⟨hs, rfl⟩ hn
      refine ⟨⟨(s.rehashes a).map (·.env.maxCachedHotTpages), a⟩, _, rfl, rfl, ?_, ?_⟩
      · exact (Mem.hotStep hs hn).settled hs
      · exact Mem.toHot_step hs hn cfg) _ _ _ _ ⟨hsettled, rfl⟩ h
  exact ⟨bs, hbs, hexec⟩

end AggreKV.HashKv
