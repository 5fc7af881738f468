import AggreKV.HashKv.HotCounters

/-! # The bytes of the key cache

    Cached keys take their bytes from `max_cached_full_key` and give them
    back when their slot is displaced, cleared or dropped. A rehash carries
    warm entries with their keys through a side buffer.

    * `keysUsed`: the bytes of the keys in the active pages.
    * `Keyed`: keys are in occupied slots of active pages, and within the
      budget with the free bytes.
    * `Shift`: a step moves bytes between keys and free bytes.
    * `key_budget`: the bytes are never more than the budget, and exactly
      the budget while no rehash puts an entry over one that has a key. -/

namespace AggreKV.HashKv

namespace HotTable

variable {h h' h'' : HotTable}

/-! ## Section 1: The invariant -/

/-- The bytes of the cached keys. -/
def keysUsed (h : HotTable) : Nat := weight keyBytes h.slots h.active

/-- Cached keys and free bytes are within the budget. -/
structure Keyed (h : HotTable) : Prop where
  fits : h.keysUsed + h.env.maxCachedFullKey ≤ h.env.maxCachedFullKeyBudget
  vacant : ∀ i, (h.slots i).lpa = none → (h.slots i).realKey = []
  beyond : ∀ i, h.active ≤ i → (h.slots i).realKey = []
  plain : h.env.verifyCache = false → ∀ i, (h.slots i).realKey = []

/-- No byte is spare or missing. -/
def Balanced (h : HotTable) : Prop :=
  h.keysUsed + h.env.maxCachedFullKey = h.env.maxCachedFullKeyBudget

/-- The bytes outside of the budget stay the same from `h` to `h'`. -/
def Shift (h h' : HotTable) : Prop :=
  h'.keysUsed + h'.env.maxCachedFullKey + h.env.maxCachedFullKeyBudget =
    h.keysUsed + h.env.maxCachedFullKey + h'.env.maxCachedFullKeyBudget

/-- Bytes that move twice. -/
theorem Shift.trans (hs : Shift h h') (hs' : Shift h' h'') : Shift h h'' := by
  unfold Shift at *
  omega

/-- Bytes that only move keep the balance. -/
theorem Shift.balanced_iff (hs : Shift h h') : h'.Balanced ↔ h.Balanced := by
  unfold Shift at hs
  unfold Balanced
  omega

/-- The keys stay in their slots. -/
theorem Keyed.keep {g : HotTable} (hk : h.Keyed) (henv : g.env = h.env)
    (hkey : ∀ i, (g.slots i).realKey = (h.slots i).realKey)
    (hlpa : ∀ i, (g.slots i).lpa = none → (h.slots i).lpa = none) : g.Keyed ∧ Shift h g := by
  have hactive : g.active = h.active := by
    unfold active
    rw [henv]
  have hused : g.keysUsed = h.keysUsed := by
    unfold keysUsed
    rw [hactive]
    apply weight_congr
    intro i _
    exact congrArg List.length (hkey i)
  refine ⟨⟨?_, fun i hi => ?_, fun i hi => ?_, fun hv i => ?_⟩, ?_⟩
  · rw [hused, henv]
    exact hk.fits
  · rw [hkey]
    exact hk.vacant i (hlpa i hi)
  · rw [hkey]
    exact hk.beyond i (hactive ▸ hi)
  · rw [hkey]
    exact hk.plain (henv ▸ hv) i
  · unfold Shift
    rw [hused, henv]

/-- Ghost marks hold no bytes. -/
theorem Keyed.unghosted (hk : h.Keyed) (hu : Unghosted h h') : h'.Keyed ∧ Shift h h' := by
  apply hk.keep hu.env hu.realKey
  intro i hi
  rwa [← hu.lpa i]

/-- The bytes of slot `i` and the free bytes change, by as much. -/
theorem keysUsed_set {g : HotTable} {i : Nat} (hactive : g.active = h.active) (hi : i < h.active)
    (hothers : ∀ j, j ≠ i → (g.slots j).realKey = (h.slots j).realKey) :
    g.keysUsed + (h.slots i).realKey.length = h.keysUsed + (g.slots i).realKey.length := by
  unfold keysUsed
  rw [hactive]
  exact weight_set (w := keyBytes) hi fun j hj => congrArg List.length (hothers j hj)

/-- A key is among the keys. -/
theorem length_le_keysUsed {i : Nat} (hi : i < h.active) :
    (h.slots i).realKey.length ≤ h.keysUsed := le_weight (w := keyBytes) hi

/-! ## Section 2: Promotions and hits -/

/-- A key that is dropped gives its bytes back. -/
theorem Keyed.dropsKey {g : HotTable} {i : Nat} (hk : h.Keyed) (hi : i < h.active)
    (hd : DropsKey h g i)
    (hplain : h.env.verifyCache = false → (g.slots i).realKey = (h.slots i).realKey) :
    g.Keyed ∧ Shift h g := by
  have hactive : g.active = h.active := by
    unfold active
    rw [hd.env]
  have hbudget : g.env.maxCachedFullKeyBudget = h.env.maxCachedFullKeyBudget := by rw [hd.env]
  have hverify : g.env.verifyCache = h.env.verifyCache := by rw [hd.env]
  -- Only slot `i` has other bytes than before.
  have hused := keysUsed_set hactive hi hd.others
  have hle := length_le_keysUsed hi
  have hfits := hk.fits
  have hfree := hd.free (by omega)
  refine ⟨⟨?_, fun j hj => ?_, fun j hj => ?_, fun hv j => ?_⟩, ?_⟩
  · omega
  · by_cases hji : j = i
    · cases hv : h.env.verifyCache with
      | false =>
        rw [hji, hplain hv]
        exact hk.plain hv i
      | true =>
        rw [hji]
        exact hd.dropped hv
    · rw [hd.others j hji]
      apply hk.vacant
      rw [← hj]
      exact (congrArg HotPte.lpa (hd.mapping j)).symm
  · have hji : j ≠ i := by
      rw [hactive] at hj
      omega
    rw [hd.others j hji]
    exact hk.beyond j (hactive ▸ hj)
  · rw [hverify] at hv
    by_cases hji : j = i
    · rw [hji, hplain hv]
      exact hk.plain hv i
    · rw [hd.others j hji]
      exact hk.plain hv j
  · unfold Shift
    omega

/-- A promotion drops the key of the slot it takes. -/
theorem Keyed.placed {lpa : Nat} {ppa : Option Nat} {keyFp : UInt32} {coldCnt : Nat} (hk : h.Keyed)
    (hs : h.Settled) (hp : Placed h lpa ppa keyFp coldCnt h') : h'.Keyed ∧ Shift h h' := by
  cases hp with
  | refused => exact ⟨hk, rfl⟩
  | @refreshed i h' hfind hrest hslot hothers _ =>
    apply hk.keep
    · rw [hrest]
    · intro j
      by_cases hj : j = i
      · rw [hj, hslot]
        rfl
      · rw [hothers j hj]
    · intro j hnone
      by_cases hj : j = i
      · rw [hj, hslot] at hnone
        cases hnone
      · rwa [hothers j hj] at hnone
  | @written i g hmem _ hg =>
    have hi := hs.probes_lt hmem
    have hdrop := dropsKey_promoteDropKey (h.taken i) i
    rw [← hg] at hdrop
    obtain ⟨hkt, hst⟩ : (h.taken i).Keyed ∧ Shift h (h.taken i) := by
      apply hk.keep (taken_env h i)
      · intro j
        rw [taken_slots]
      · intro j hj
        rwa [taken_slots] at hj
    -- The key of the displaced entry is given back before the slot is overwritten.
    obtain ⟨hkg, hsg⟩ :=
      hkt.dropsKey (g := g) (i := i) (by unfold active; rwa [taken_env]) hdrop (by
      intro hv
      rw [hg, promoteDropKey_of_verifyCache hv])
    have hkeep := hkg.keep (g := { g.setSlot i (promotedSlot (g.slots i) lpa ppa keyFp coldCnt) with
      stateLive := histInc g.stateLive (promoteEntryState coldCnt) }) rfl ?_ ?_
    · exact ⟨hkeep.1, (hst.trans hsg).trans hkeep.2⟩
    · intro j
      show ((g.setSlot i _).slots j).realKey = _
      rw [slots_setSlot]
      split
      · next hj => rw [hj]; rfl
      · rfl
    · intro j hnone
      have hslot : ((g.setSlot i (promotedSlot (g.slots i) lpa ppa keyFp coldCnt)).slots j).lpa =
        none := hnone
      rw [slots_setSlot] at hslot
      by_cases hj : j = i
      · rw [if_pos hj] at hslot
        cases hslot
      · rwa [if_neg hj] at hslot

/-- A raised state moves no bytes. -/
theorem Keyed.raise (hk : h.Keyed) (i : Nat) :
    (h.stateRaise i).Keyed ∧ Shift h (h.stateRaise i) := by
  refine stateRaise_rule h i ⟨hk, rfl⟩ fun _ _ => ?_
  apply hk.keep
  · rfl
  · intro j
    show ((h.setSlot i _).slots j).realKey = _
    rw [slots_setSlot]
    split
    · next hj => rw [hj]
    · rfl
  · intro j hnone
    have hslot : ((h.setSlot i { h.slots i with state := (h.slots i).state + 1 }).slots j).lpa =
      none := hnone
    rw [slots_setSlot] at hslot
    split at hslot
    · next hj => rwa [hj]
    · exact hslot

/-- A key of a slot that has none is cached, if there is room. -/
theorem Keyed.cacheKey {i : Nat} (hk : h.Keyed) (hi : i < h.active) (hocc : (h.slots i).lpa ≠ none)
    (realKey : List UInt8) : (h.cacheKey i realKey).Keyed ∧ Shift h (h.cacheKey i realKey) := by
  unfold HotTable.cacheKey
  dsimp only
  split
  · next hroom =>
    obtain ⟨hverify, hnil, _, _, hfree⟩ := hroom
    have hslot : ∀ j, (((h.setSlot i { h.slots i with
        realKey := realKey, keyGhostMark := false }).setFree
          (h.env.maxCachedFullKey - realKey.length)).slots j) =
        if j = i then { h.slots i with realKey := realKey, keyGhostMark := false }
        else h.slots j := slots_setSlot h i _
    have hused := keysUsed_set (h := h) (g := (h.setSlot i { h.slots i with
        realKey := realKey, keyGhostMark := false }).setFree
          (h.env.maxCachedFullKey - realKey.length)) (i := i) rfl hi
      fun j hj => by rw [hslot, if_neg hj]
    rw [hslot, if_pos rfl, hnil] at hused
    have hfits := hk.fits
    have hbytes : ∀ u : Nat, u + [].length (α := UInt8) = h.keysUsed + realKey.length →
        u + (h.env.maxCachedFullKey - realKey.length) = h.keysUsed + h.env.maxCachedFullKey := by
      intro u hu
      rw [List.length_nil] at hu
      omega
    -- The bytes of the key move from what is free to what is used.
    have hsum := hbytes _ hused
    refine ⟨⟨?_, fun j hj => ?_, fun j hj => ?_, fun hv j => ?_⟩, ?_⟩
    · exact hsum.trans_le hfits
    · rw [hslot] at hj ⊢
      by_cases hji : j = i
      · rw [if_pos hji] at hj
        exact absurd hj hocc
      · rw [if_neg hji] at hj ⊢
        exact hk.vacant j hj
    · have hle : h.active ≤ j := hj
      rw [hslot, if_neg (by omega)]
      exact hk.beyond j hle
    · exact absurd (hverify.symm.trans hv) (by decide)
    · unfold Shift
      exact congrArg (· + h.env.maxCachedFullKeyBudget) hsum
  · exact ⟨hk, rfl⟩

/-! ## Section 3: Rehashes -/

/-- An entry that is saved again later has no key. -/
def Bare (entries : List HotSlot) : Prop :=
  entries.Pairwise fun a b => a.lpa = b.lpa → a.realKey = []

instance (entries : List HotSlot) : Decidable (Bare entries) :=
  inferInstanceAs (Decidable (entries.Pairwise _))

/-- The bytes of a list of entries. -/
def entryBytes (entries : List HotSlot) : Nat := (entries.map keyBytes).sum

/-- The bytes of two lists. -/
theorem entryBytes_append (as bs : List HotSlot) :
    entryBytes (as ++ bs) = entryBytes as + entryBytes bs := by
  unfold entryBytes
  rw [List.map_append, List.sum_append]

/-- The collect loop moves the bytes of the keys to the saved entries and the free bytes. -/
structure KeysCollected (h₀ h : HotTable) : Prop where
  total : entryBytes h.saved + h.keysUsed + h.env.maxCachedFullKey =
    h₀.keysUsed + h₀.env.maxCachedFullKey
  vacant : ∀ i, (h.slots i).lpa = none → (h.slots i).realKey = []

/-- At the beginning all keys are in slots. -/
theorem KeysCollected.begin (hk : h.Keyed) : KeysCollected h h.rehashBegin := by
  refine ⟨?_, hk.vacant⟩
  show 0 + h.keysUsed + h.env.maxCachedFullKey = _
  rw [Nat.zero_add]

/-- A warm entry takes its key along, another one gives it back. -/
theorem KeysCollected.step {h₀ : HotTable} (hk : h₀.Keyed) (hc : Collecting h₀ h)
    (hc' : Collecting h₀ h.collectSlot) (hlt : h.scan < h₀.active) (hi : KeysCollected h₀ h) :
    KeysCollected h₀ h.collectSlot := by
  have hactive : h.active = h₀.active := by
    unfold active
    rw [hc.env]
  have hactive' : h.collectSlot.active = h₀.active := by
    unfold active
    rw [hc'.env]
  have hbudget : h.env.maxCachedFullKeyBudget = h₀.env.maxCachedFullKeyBudget := by rw [hc.env]
  by_cases hnone : (h.slots h.scan).lpa = none
  · have hskip : h.collectSlot = { h with scan := h.scan + 1 } := if_pos hnone
    rw [hskip]
    exact ⟨hi.total, hi.vacant⟩
  · have htake : h.collectSlot = { h.clearSlot h.scan with
        saved := if (h.slots h.scan).warm then h.saved ++ [h.slots h.scan] else h.saved
        env := if (h.slots h.scan).warm then h.env else yieldKeyBudget h.env (h.slots h.scan)
        scan := h.scan + 1 } := if_neg hnone
    have hslot : ∀ j, h.collectSlot.slots j =
        if j = h.scan then (h.slots h.scan).cleared else h.slots j := by
      intro j
      rw [htake]
      exact slots_setSlot ..
    -- The slot is cleared: its key moves to the saved entry or back to the free bytes.
    have hused := keysUsed_set (h := h) (g := h.collectSlot) (i := h.scan)
      (hactive'.trans hactive.symm) (by omega) fun j hj => by rw [hslot, if_neg hj]
    rw [hslot, if_pos rfl] at hused
    have hused' : h.collectSlot.keysUsed + (h.slots h.scan).realKey.length = h.keysUsed := hused
    have hsaved : h.collectSlot.saved =
        if (h.slots h.scan).warm then h.saved ++ [h.slots h.scan] else h.saved := by rw [htake]
    have henv : h.collectSlot.env =
        if (h.slots h.scan).warm then h.env else yieldKeyBudget h.env (h.slots h.scan) := by
      rw [htake]
    have hfits := hk.fits
    have htotal := hi.total
    refine ⟨?_, fun j hj => ?_⟩
    · rw [hsaved, henv]
      split
      · have hone : entryBytes [h.slots h.scan] = (h.slots h.scan).realKey.length := Nat.add_zero _
        rw [entryBytes_append]
        omega
      · rw [yieldKeyBudget_free (by omega)]
        omega
    · rw [hslot] at hj ⊢
      by_cases hjs : j = h.scan
      · rw [if_pos hjs]
        rfl
      · rw [if_neg hjs] at hj ⊢
        exact hi.vacant j hj

/-- The insert loop: a byte is lost where an entry is put over one that has a key. -/
structure KeysInserted (h₀ h : HotTable) : Prop where
  merging : Merging h₀ h
  vacant : ∀ i, (h.slots i).lpa = none → (h.slots i).realKey = []
  fits : entryBytes (h.saved.drop h.insertIdx) + h.keysUsed + h.env.maxCachedFullKey ≤
    h₀.keysUsed + h₀.env.maxCachedFullKey
  exact_iff : entryBytes (h.saved.drop h.insertIdx) + h.keysUsed + h.env.maxCachedFullKey =
    h₀.keysUsed + h₀.env.maxCachedFullKey ↔ Bare (h.saved.take h.insertIdx)
  latest : ∀ i < h₀.active, (h.slots i).lpa ≠ none → ∃ k < h.insertIdx, ∃ e, h.saved[k]? = some e ∧
    (h.slots i).lpa = e.lpa ∧ (h.slots i).realKey = e.realKey ∧
    ∀ k' e', k < k' → k' < h.insertIdx → h.saved[k']? = some e' → e'.lpa ≠ e.lpa

/-- At the switch all keys are in saved entries. -/
theorem KeysInserted.begin {h₀ : HotTable} (hc : Collecting h₀ h) (hscan : h.scan = h₀.active)
    (hplaced : h.placed = 0) (hi : KeysCollected h₀ h) :
    KeysInserted h₀ { h with insertIdx := 0, phase := .insert } := by
  refine ⟨.begin hc hscan hplaced, hi.vacant, hi.total.le, ?_, fun i hlt hne => ?_⟩
  · exact iff_of_true hi.total .nil
  · exact absurd (hc.collects.scanned i (hscan ▸ hlt)) hne

/-- An entry put over one with the same lpa: all the earlier ones with it are bare if and
    only if the one in the table is. -/
theorem bare_concat {l : List HotSlot} {e last : HotSlot} {k : Nat} (hk : l[k]? = some last)
    (hlpa : last.lpa = e.lpa) (hlast : ∀ k' e', k < k' → l[k']? = some e' → e'.lpa ≠ last.lpa) :
    Bare (l ++ [e]) ↔ Bare l ∧ last.realKey = [] := by
  unfold Bare
  rw [List.pairwise_append]
  refine ⟨fun hb => ?_, fun hb => ?_⟩
  · obtain ⟨hbare, _, hall⟩ := hb
    exact ⟨hbare, hall last (List.mem_of_getElem? hk) e (List.mem_singleton_self e) hlpa⟩
  · obtain ⟨hbare, hnil⟩ := hb
    refine ⟨hbare, List.pairwise_singleton _ _, fun a ha b hb hab => ?_⟩
    rw [List.mem_singleton.mp hb] at hab
    obtain ⟨k', hlt', hk'⟩ := List.getElem_of_mem ha
    have hget : l[k']? = some a := by rw [List.getElem?_eq_getElem hlt', hk']
    rcases Nat.lt_trichotomy k' k with hlt | heq | hgt
    · have hpair := List.pairwise_iff_getElem.mp hbare k' k hlt'
        (List.getElem?_eq_some_iff.mp hk).1 hlt
      rw [hk', (List.getElem?_eq_some_iff.mp hk).2] at hpair
      exact hpair (hab.trans hlpa.symm)
    · rw [heq, hk] at hget
      cases hget
      exact hnil
    · exact absurd (hab.trans hlpa.symm) (hlast k' a hgt hget)

/-- An entry whose lpa was not saved before. -/
theorem bare_concat_fresh {es : List HotSlot} {e : HotSlot} (hfresh : ∀ a ∈ es, a.lpa ≠ e.lpa) :
    Bare (es ++ [e]) ↔ Bare es := by
  unfold Bare
  rw [List.pairwise_append]
  refine ⟨fun hb => hb.1, fun hb => ⟨hb, List.pairwise_singleton _ _, fun a ha b hb hab => ?_⟩⟩
  rw [List.mem_singleton.mp hb] at hab
  exact absurd hab (hfresh a ha)

/-- An insertion loses the bytes of a key it overwrites, and no others. -/
theorem KeysInserted.placedAt {h₀ : HotTable} {e : HotSlot} {lpa i : Nat} (hi : Inserting h₀ h)
    (hk : KeysInserted h₀ h) (ht : Takes h₀ h e lpa i) : KeysInserted h₀ (h.placedAt i e) := by
  have hlt : h.insertIdx < h.saved.length := (List.getElem?_eq_some_iff.mp ht.next).1
  have hget : h.saved[h.insertIdx] = e := (List.getElem?_eq_some_iff.mp ht.next).2
  have htake : h.saved.take (h.insertIdx + 1) = h.saved.take h.insertIdx ++ [e] := by
    rw [List.take_succ_eq_append_getElem hlt, hget]
  have hdrop : entryBytes (h.saved.drop h.insertIdx) =
      e.realKey.length + entryBytes (h.saved.drop (h.insertIdx + 1)) := by
    rw [List.drop_eq_getElem_cons hlt, hget]
    rfl
  have hslot : ∀ j, (h.placedAt i e).slots j = if j = i then copyPte (h.slots i) e else h.slots j :=
    slots_placedAt h i e
  have hused := keysUsed_set (h := h) (g := h.placedAt i e) (i := i) rfl (hi.active.symm ▸ ht.lt)
    fun j hj => by rw [hslot, if_neg hj]
  rw [hslot, if_pos rfl] at hused
  have hused' : (h.placedAt i e).keysUsed + (h.slots i).realKey.length =
    h.keysUsed + e.realKey.length := hused
  have hfits := hk.fits
  -- The bytes that the entry in the slot loses.
  have hbytes : entryBytes (h.saved.drop (h.insertIdx + 1)) + (h.placedAt i e).keysUsed +
      h.env.maxCachedFullKey + (h.slots i).realKey.length =
      entryBytes (h.saved.drop h.insertIdx) + h.keysUsed + h.env.maxCachedFullKey := by omega
  refine ⟨hk.merging.placedAt hi ht, fun j hj => ?_, ?_, ?_, fun j hj hne => ?_⟩
  · rw [hslot] at hj ⊢
    by_cases hji : j = i
    · rw [if_pos hji] at hj
      have hnone : e.lpa = none := hj
      rw [ht.entry] at hnone
      cases hnone
    · rw [if_neg hji] at hj ⊢
      exact hk.vacant j hj
  · show entryBytes (h.saved.drop (h.insertIdx + 1)) + (h.placedAt i e).keysUsed +
      h.env.maxCachedFullKey ≤ _
    omega
  · show entryBytes (h.saved.drop (h.insertIdx + 1)) + (h.placedAt i e).keysUsed +
      h.env.maxCachedFullKey = _ ↔ Bare (h.saved.take (h.insertIdx + 1))
    rw [htake]
    by_cases hnone : (h.slots i).lpa = none
    · -- A slot that is free.
      have hfresh : ∀ a ∈ h.saved.take h.insertIdx, a.lpa ≠ e.lpa := by
        intro a ha hae
        have hmem : some lpa ∈ (h.saved.take h.insertIdx).map HotSlot.lpa := by
          rw [← ht.entry, ← hae]
          exact List.mem_map_of_mem ha
        obtain ⟨j, hj, hjl⟩ := hk.merging.mem lpa hmem
        have hchosen := hk.merging.chosen j hj lpa hjl
        rw [ht.slot, Option.some.injEq] at hchosen
        rw [← hchosen, hnone] at hjl
        cases hjl
      rw [hk.vacant i hnone, List.length_nil, Nat.add_zero] at hbytes
      rw [bare_concat_fresh hfresh, ← hk.exact_iff, hbytes]
    -- A slot with the same lpa: its key is the one of the last entry placed there.
    · obtain ⟨k, hklt, last, hlast, hlpa, hkey, hlater⟩ := hk.latest i ht.lt hnone
      have hsame : last.lpa = e.lpa := by
        rw [← hlpa, ht.entry]
        exact ht.held.resolve_left hnone
      have hget' : (h.saved.take h.insertIdx)[k]? = some last := by
        rw [List.getElem?_take_of_lt hklt, hlast]
      have hconcat := bare_concat (l := h.saved.take h.insertIdx) hget' hsame (by
        intro k' e' hlt' hk'
        obtain ⟨hbound, _⟩ := List.getElem?_eq_some_iff.mp hk'
        have hidx : k' < h.insertIdx := by
          rw [List.length_take] at hbound
          omega
        rw [List.getElem?_take_of_lt hidx] at hk'
        exact hlater k' e' hlt' hidx hk')
      rw [hconcat, ← hk.exact_iff, ← hkey, ← List.length_eq_zero_iff]
      omega
  · show ∃ k < h.insertIdx + 1, ∃ e', h.saved[k]? = some e' ∧ _ ∧ _ ∧
      ∀ k' e'', k < k' → k' < h.insertIdx + 1 → h.saved[k']? = some e'' → _
    rw [hslot] at hne ⊢
    by_cases hji : j = i
    · rw [if_pos hji]
      refine ⟨h.insertIdx, Nat.lt_succ_self _, e, ht.next, rfl, rfl, fun k' e' hgt hle => ?_⟩
      omega
    · rw [if_neg hji] at hne ⊢
      obtain ⟨k, hklt, e', he', hlpa, hkey, hlater⟩ := hk.latest j hj hne
      refine ⟨k, Nat.lt_succ_of_lt hklt, e', he', hlpa, hkey, fun k' e'' hgt hle hk' heq => ?_⟩
      rcases Nat.lt_succ_iff_lt_or_eq.mp hle with hlt' | rfl
      · exact hlater k' e'' hgt hlt' hk' heq
      · -- The entry in slot `j` has another lpa than the one that goes to slot `i`.
        rw [ht.next, Option.some.injEq] at hk'
        have hjl : (h.slots j).lpa = some lpa := by rw [hlpa, ← heq, ← hk', ht.entry]
        have hchosen := hk.merging.chosen j hj lpa hjl
        rw [ht.slot, Option.some.injEq] at hchosen
        exact hji hchosen.symm

/-- A rehash loses bytes only where it puts an entry over one with a key. -/
theorem Keyed.rehash (hk : h.Keyed) (hs : h.env.Sized) : h.rehash.Keyed ∧
    (h.Balanced → (h.rehash.Balanced ↔ Bare h.warmSlots)) := by
  have hrule := complete_rule (P := fun _ _ => True)
    (C := fun g => g.placed = 0 ∧ KeysCollected h g) (D := KeysInserted h) hs
    (insertsOk_true _ _) ⟨rfl, .begin hk⟩ ?_ ?_ ?_
  -- At the end every saved entry is placed.
  · obtain ⟨g, hg, hi, hlen, hd⟩ := hrule
    have hall : g.insertIdx = h.warmSlots.length := Nat.le_antisymm hd.merging.bound hlen
    have hfits := hd.fits
    have hexact := hd.exact_iff
    rw [hall, hi.saved, List.drop_length] at hfits hexact
    rw [List.take_length] at hexact
    have hzero : entryBytes [] = 0 := rfl
    rw [hzero, Nat.zero_add] at hfits hexact
    have hbudget : g.env.maxCachedFullKeyBudget = h.env.maxCachedFullKeyBudget := by rw [hi.env]
    have hverify : g.env.verifyCache = h.env.verifyCache := by rw [hi.env]
    have hbefore := hk.fits
    rw [hg]
    refine ⟨⟨?_, hd.vacant, fun i hle => ?_, fun hv i => ?_⟩, fun hbal => ?_⟩
    · show g.keysUsed + g.env.maxCachedFullKey ≤ g.env.maxCachedFullKeyBudget
      omega
    · have hle' : h.active ≤ i := hi.active ▸ hle
      show (g.slots i).realKey = []
      rw [hi.beyond i hle']
      exact hk.beyond i hle'
    · show (g.slots i).realKey = []
      have hplain := hk.plain (hverify ▸ hv)
      rcases Nat.lt_or_ge i h.active with hlt | hge
      · by_cases hnone : (g.slots i).lpa = none
        · exact hd.vacant i hnone
        · obtain ⟨k, _, e, he, _, hkey⟩ := hi.origin i hlt hnone
          rw [hkey]
          rw [hi.saved] at he
          obtain ⟨j, _, rfl⟩ := List.mem_map.mp (List.mem_of_mem_filter (List.mem_of_getElem? he))
          exact hplain j
      · rw [hi.beyond i hge]
        exact hplain i
    · unfold Balanced at hbal ⊢
      rw [← hexact]
      show g.keysUsed + g.env.maxCachedFullKey = g.env.maxCachedFullKeyBudget ↔ _
      rw [hbudget, hbal]
  · intro g hc hc' hlt hC
    obtain ⟨hplaced, hkeys⟩ := hC
    refine ⟨?_, hkeys.step hk hc hc' hlt⟩
    exact collectSlot_rule g (fun _ => hplaced) (fun _ _ => hplaced) fun _ _ => hplaced
  · intro g hc hscan hC
    exact .begin hc hscan hC.1 hC.2
  · intro g e lpa i hi ht _ hd
    exact hd.placedAt hi ht

/-! ## Section 4: Runs -/

/-- A resize gives the keys of the cleared slots back. -/
theorem Keyed.resizes {g : HotTable} (hk : h.Keyed) (hr : Resizes h g) : g.Keyed ∧ Shift h g := by
  have hfree := hr.free hk.beyond hk.fits
  have hbudget := hr.budget
  -- A resize takes pages from the end and leaves the other slots alone.
  have hcleared : ∀ i, (g.slots i).realKey = [] ∨ g.slots i = h.slots i := by
    intro i
    rw [hr.slots]
    split
    · exact Or.inl rfl
    · exact Or.inr rfl
  have hused : g.keysUsed + g.env.maxCachedFullKey = h.keysUsed + h.env.maxCachedFullKey := hfree
  refine ⟨⟨?_, fun i hi => ?_, fun i hi => ?_, fun hv i => ?_⟩, ?_⟩
  · rw [hused, hbudget]
    exact hk.fits
  · rcases hcleared i with hnil | hsame
    · exact hnil
    · rw [hsame] at hi ⊢
      exact hk.vacant i hi
  · rcases hr.slots_beyond hi with hcl | ⟨hle, hsame⟩
    · rw [hcl]
      rfl
    · rw [hsame]
      exact hk.beyond i hle
  · rcases hcleared i with hnil | hsame
    · exact hnil
    · rw [hsame]
      exact hk.plain (hr.verifyCache ▸ hv) i
  · unfold Shift
    rw [hused, hbudget]

/-- New bytes are free bytes. -/
theorem Keyed.expandKey {env : CacheEnv} (hk : h.Keyed) (hs : h.Settled)
    (henv : h.env.expandKeyCache h.env.maxCachedFullKey = some (true, env)) :
    HotTable.Keyed { h with env := env } ∧ Shift h { h with env := env } := by
  obtain ⟨_, hpages, _, hverify, hzero, hfree⟩ := CacheEnv.expandKeyCache_some henv hs.sized
  have hactive : HotTable.active { h with env := env } = h.active := by
    show env.maxCachedHotTpages * 512 = h.env.maxCachedHotTpages * 512
    rw [hpages]
  have hused : HotTable.keysUsed { h with env := env } = h.keysUsed := by
    unfold keysUsed
    rw [hactive]
  have hfits := hk.fits
  refine ⟨⟨?_, hk.vacant, fun i hi => ?_, fun hv => ?_⟩, ?_⟩
  · rw [hused]
    show h.keysUsed + env.maxCachedFullKey ≤ env.maxCachedFullKeyBudget
    omega
  · exact hk.beyond i (hactive ▸ hi)
  · exact hk.plain (hverify ▸ hv)
  · unfold Shift
    rw [hused]
    show h.keysUsed + env.maxCachedFullKey + h.env.maxCachedFullKeyBudget =
      h.keysUsed + h.env.maxCachedFullKey + env.maxCachedFullKeyBudget
    omega

/-- A reset gives all bytes back. -/
theorem Keyed.reset (hk : h.Keyed) : h.reset.Keyed ∧ (h.Balanced → h.reset.Balanced) := by
  have hslot : ∀ i, (h.reset.slots i).realKey = [] := by
    intro i
    show (if i < h.active then _ else _ : HotSlot).realKey = []
    split
    · rfl
    · next hi => exact hk.beyond i (Nat.not_lt.mp hi)
  have hused : h.reset.keysUsed = 0 := by
    apply weight_eq_zero
    intro i _
    exact congrArg List.length (hslot i)
  have hbal : h.Balanced → h.reset.Balanced := by
    intro hbal
    unfold Balanced at hbal ⊢
    rw [hused, Nat.zero_add]
    show (if h.env.verifyCache then _ else _ : CacheEnv).maxCachedFullKey =
      (if h.env.verifyCache then _ else _ : CacheEnv).maxCachedFullKeyBudget
    split
    · rfl
    · next hv =>
      -- Without `VERIFY_CACHE` there are no keys.
      have hzero : h.keysUsed = 0 := by
        apply weight_eq_zero
        intro i _
        exact congrArg List.length (hk.plain (Bool.eq_false_iff.mpr hv) i)
      rw [← hbal, hzero, Nat.zero_add]
  refine ⟨⟨?_, fun i _ => hslot i, fun i _ => hslot i, fun _ i => hslot i⟩, hbal⟩
  have hfits := hk.fits
  rw [hused, Nat.zero_add]
  show (if h.env.verifyCache then _ else _ : CacheEnv).maxCachedFullKey ≤
    (if h.env.verifyCache then _ else _ : CacheEnv).maxCachedFullKeyBudget
  split
  · exact Nat.le_refl _
  · omega

/-- A step keeps the balance if and only if its rehash is bare. -/
theorem Keyed.step {m : Mem} {a : MemLabel} (hk : m.hot.Keyed) (hs : m.hot.Settled)
    (ha : m.HotStep a h) : h.Keyed ∧
      (m.hot.Balanced → (h.Balanced ↔ ∀ g ∈ m.rehashes a, Bare g.warmSlots)) := by
  have hshift : ∀ {h : HotTable}, m.rehashes a = none → h.Keyed ∧ Shift m.hot h → h.Keyed ∧
      (m.hot.Balanced → (h.Balanced ↔ ∀ g ∈ m.rehashes a, Bare g.warmSlots)) := by
    intro h hno hkeep
    obtain ⟨hkept, hs⟩ := hkeep
    exact ⟨hkept, fun hbal => iff_of_true (hs.balanced_iff.mpr hbal) (Mem.rehashes_none hno)⟩
  cases ha with
  | same _ hno => exact hshift hno ⟨hk, rfl⟩
  | promote => exact hshift rfl (hk.placed hs (placed_placeGrain ..))
  | @raise lpa i _ => exact hshift rfl (hk.raise i)
  | verify => exact hshift rfl (hk.unghosted (.ghostKeyOnFlashVerify ..))
  | @cacheKey i realKey hi hocc => exact hshift rfl (hk.cacheKey hi hocc realKey)
  -- The only step that can lose a key: the saved entries come back without theirs.
  | @rehash a g hg hres =>
    obtain ⟨hkg, hsg⟩ := hk.resizes hres
    obtain ⟨hkr, hiff⟩ := hkg.rehash hres.sized
    obtain ⟨hkt, hst⟩ := hkr.unghosted (.ghostTrim g.rehash)
    refine ⟨hkt, fun hbal => ?_⟩
    rw [hst.balanced_iff, hiff (hsg.balanced_iff.mpr hbal), hg]
    refine ⟨fun hbare g' hg' => ?_, fun hall => hall g rfl⟩
    cases hg'
    exact hbare
  | expandKey henv =>
    obtain ⟨hke, hse⟩ := hk.expandKey hs henv
    obtain ⟨hkt, hst⟩ := hke.unghosted (.ghostTrim _)
    exact hshift rfl ⟨hkt, hse.trans hst⟩
  | reset =>
    obtain ⟨hkr, hbal⟩ := hk.reset
    exact ⟨hkr, fun hb => iff_of_true (hbal hb) (Mem.rehashes_none rfl)⟩
  | prepare => exact hshift rfl ⟨⟨hk.fits, hk.vacant, hk.beyond, hk.plain⟩, rfl⟩

theorem keyed_create (env : CacheEnv) (hfree : env.maxCachedFullKey = env.maxCachedFullKeyBudget) :
    (HotTable.create env).Keyed ∧ (HotTable.create env).Balanced := by
  have hused : (HotTable.create env).keysUsed = 0 := by
    apply weight_eq_zero
    intro _ _
    rfl
  have hbal : (HotTable.create env).Balanced := by
    unfold Balanced
    rw [hused, Nat.zero_add]
    exact hfree
  exact ⟨⟨hbal.le, fun _ _ => rfl, fun _ _ => rfl, fun _ _ => rfl⟩, hbal⟩

end HotTable

/-- In every state the cached keys and the free bytes are within the budget, so the free
    bytes never wrap. They are the whole budget as long as no rehash saves an entry with a
    key and then another one with the same lpa; one that does loses bytes. -/
theorem key_budget {verifyCache : Bool} {cold hot key nrValidTpages : Nat} {env₀ : CacheEnv}
    (hinit : cacheEnvInit verifyCache cold hot key = some env₀) (hpos : 0 < hot)
    (hsize : cold + hot < 2147483648) :
    (∀ m, (memMachine env₀ nrValidTpages).Reachable m →
      m.hot.keysUsed + m.hot.env.maxCachedFullKey ≤ m.hot.env.maxCachedFullKeyBudget) ∧
    ∀ m, (memMachine env₀ nrValidTpages).Reach
        (fun m a => ∀ g ∈ m.rehashes a, HotTable.Bare g.warmSlots) m →
      m.hot.keysUsed + m.hot.env.maxCachedFullKey = m.hot.env.maxCachedFullKeyBudget ∧
      ∀ a m', m.next a = some m' →
        (m'.hot.keysUsed + m'.hot.env.maxCachedFullKey = m'.hot.env.maxCachedFullKeyBudget ↔
          ∀ g ∈ m.rehashes a, HotTable.Bare g.warmSlots) := by
  have hsized : ∀ env, env₀.updateCaps = some env → env.Sized := fun env henv =>
    (CacheEnv.sized_of_init hinit henv hpos hsize).1
  have hfree : ∀ env, env₀.updateCaps = some env →
      env.maxCachedFullKey = env.maxCachedFullKeyBudget := by
    intro env henv
    obtain ⟨_, hkey, hbudget, _⟩ := CacheEnv.sized_of_init hinit henv hpos hsize
    rw [hkey, hbudget]
  have hkeyed : ∀ {ok : Mem → MemLabel → Prop} {m : Mem},
      (memMachine env₀ nrValidTpages).Reach ok m → m.hot.Keyed := by
    intro ok m hr
    apply hr.invariant
    · intro s hs
      obtain ⟨env, henv, rfl⟩ := hs
      exact (HotTable.keyed_create env (hfree env henv)).1
    · intro s s' a hr hk _ hn
      have hs := Mem.reach_settled hsized hr
      exact (hk.step hs (Mem.hotStep hs hn)).1
  refine ⟨fun m hr => (hkeyed hr).fits, fun m hr => ?_⟩
  -- Exact from the start, and kept by rehashes whose saved entries have no key.
  have hbal : m.hot.Balanced := by
    apply hr.invariant
    · intro s hs
      obtain ⟨env, henv, rfl⟩ := hs
      exact (HotTable.keyed_create env (hfree env henv)).2
    · intro s s' a hr hb hok hn
      have hs := Mem.reach_settled hsized hr
      exact (((hkeyed hr).step hs (Mem.hotStep hs hn)).2 hb).mpr hok
  have hs := Mem.reach_settled hsized hr
  exact ⟨hbal, fun a m' hn => ((hkeyed hr).step hs (Mem.hotStep hs hn)).2 hbal⟩

/-- A key is cached, and its entry is saved by the rehash. -/
theorem key_budget_shrunk : ∃ m, (memMachine smallEnv₀ 4).exec (.create smallEnv 4)
      [.promote 5 (some 9) 1 3, .cacheKey 5 [7, 7, 7], .shrinkHot] = some m ∧
    m.hot.keysUsed + m.hot.env.maxCachedFullKey = m.hot.env.maxCachedFullKeyBudget := by
  have hrun : ((memMachine smallEnv₀ 4).exec (.create smallEnv 4)
      [.promote 5 (some 9) 1 3, .cacheKey 5 [7, 7, 7], .shrinkHot]).isSome = true := by
    decide +kernel
  obtain ⟨m, hm⟩ := Option.isSome_iff_exists.mp hrun
  have hok : (memMachine smallEnv₀ 4).check
      (fun m a => decide (∀ g ∈ m.rehashes a, HotTable.Bare g.warmSlots)) (.create smallEnv 4)
      [.promote 5 (some 9) 1 3, .cacheKey 5 [7, 7, 7], .shrinkHot] = true := by
    decide +kernel
  have hr := small_reach ((Machine.along_of_check hok).mono fun _ _ h => of_decide_eq_true h) hm
  have hbudget := (@key_budget true 8 2 64 4 _ smallEnv₀_init (by decide) (by decide)).2 m hr
  exact ⟨m, hm, hbudget.1⟩

end AggreKV.HashKv
