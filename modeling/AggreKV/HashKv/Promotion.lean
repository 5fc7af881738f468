import AggreKV.Lib.Lists
import AggreKV.HashKv.HotTable
import Mathlib.Data.List.Induction

/-! # The promotion policy

    `hot_promote_place_grain` looks for the slot of the promoted entry, for
    an empty slot and for one to displace, in one pass over 50 probes.

    * `Choice`: the slot that the policy asks for.
    * `SameMapping`: what dropping the key of a slot leaves alone.
    * `promotion_policy`: the pass takes the slot of `Choice` and no other. -/

namespace AggreKV.HashKv

namespace HotTable

variable {h h' h'' : HotTable}

/-! ## Section 1: The mapping of the table -/

/-- The two tables hold the same entries on the same pages. -/
structure SameMapping (h h' : HotTable) : Prop where
  slot : ∀ j, (h'.slots j).toPte = (h.slots j).toPte
  pages : h'.env.maxCachedHotTpages = h.env.maxCachedHotTpages
  entries : h'.env.maxCachedHotEntries = h.env.maxCachedHotEntries
  phase : h'.phase = h.phase
  saved : h'.saved = h.saved

theorem SameMapping.refl (h : HotTable) : SameMapping h h := ⟨fun _ => rfl, rfl, rfl, rfl, rfl⟩

theorem SameMapping.trans (hs : SameMapping h h') (hs' : SameMapping h' h'') :
    SameMapping h h'' where
  slot := fun j => (hs'.slot j).trans (hs.slot j)
  pages := hs'.pages.trans hs.pages
  entries := hs'.entries.trans hs.entries
  phase := hs'.phase.trans hs.phase
  saved := hs'.saved.trans hs.saved

/-- Counters and ghosts are not part of the mapping. -/
theorem SameMapping.of_eq {g : HotTable} (hs : SameMapping g h') (hslots : g.slots = h.slots)
    (henv : g.env = h.env) (hphase : g.phase = h.phase) (hsaved : g.saved = h.saved) :
    SameMapping h h' where
  slot := fun j => (hs.slot j).trans (by rw [hslots])
  pages := hs.pages.trans (by rw [henv])
  entries := hs.entries.trans (by rw [henv])
  phase := hs.phase.trans hphase
  saved := hs.saved.trans hsaved

/-- A slot may get another ghost mark or key. -/
theorem SameMapping.setSlot (h : HotTable) (i : Nat) {e : HotSlot}
    (he : e.toPte = (h.slots i).toPte) : SameMapping h (h.setSlot i e) := by
  refine ⟨fun j => ?_, rfl, rfl, rfl, rfl⟩
  rw [slots_setSlot]
  by_cases hj : j = i
  · rw [if_pos hj, hj, he]
  · rw [if_neg hj]

section Evictions

/-! The invariant rule of the evictions of key ghosts. -/

variable {I : HotTable → Prop} (hfifo : ∀ h f, I h → I { h with keyFifo := f })
  (hscan : ∀ h rr, I h → I { h with keyScanRr := rr })
  (hunmark : ∀ h i, (h.slots i).keyGhostMark = true → I h → I (h.ghostKeyUnmark i))

include hscan hunmark in
/-- The scan for a ghost keeps what unmarking keeps. -/
theorem ghostKeyScan_rule (steps : Nat) {h : HotTable} (hi : I h) : I (h.ghostKeyScan steps).2 := by
  induction steps generalizing h with
  | zero => exact hi
  | succ steps ih =>
    unfold ghostKeyScan
    dsimp only
    split
    · next hmark => exact hunmark _ _ hmark (hscan _ _ hi)
    · exact ih (hscan _ _ hi)

include hscan hunmark in
theorem ghostKeyEvictRr_rule {h : HotTable} (hi : I h) : I h.ghostKeyEvictRr.2 := by
  unfold ghostKeyEvictRr
  split
  · exact hi
  · exact ghostKeyScan_rule hscan hunmark 512 hi

include hfifo hscan hunmark in
/-- And so does the eviction from the ring. -/
theorem ghostKeyFifoEvict_rule (tries : Nat) {h : HotTable} (hi : I h) :
    I (h.ghostKeyFifoEvict tries).2 := by
  induction tries generalizing h with
  | zero => exact ghostKeyEvictRr_rule hscan hunmark hi
  | succ tries ih =>
    unfold ghostKeyFifoEvict
    dsimp only
    split
    · exact ghostKeyEvictRr_rule hscan hunmark hi
    · split
      · next hmark => exact hunmark _ _ hmark.2 (hfifo _ _ hi)
      · exact ih (hfifo _ _ hi)

include hfifo hscan hunmark in
/-- And so do evictions down to a limit. -/
theorem ghostKeyEvictDownTo_rule (limit rounds : Nat) {h : HotTable} (hi : I h) :
    I (h.ghostKeyEvictDownTo limit rounds) := by
  induction rounds generalizing h with
  | zero => exact hi
  | succ rounds ih =>
    have hevict : I h.ghostKeyFifoEvictOldest.2 := ghostKeyFifoEvict_rule hfifo hscan hunmark _ hi
    unfold ghostKeyEvictDownTo
    dsimp only
    split
    · split
      · exact ih hevict
      · exact hevict
    · exact hi

end Evictions

/-- Unmarking a ghost keeps the mapping. -/
theorem SameMapping.ghostKeyUnmark (h : HotTable) (i : Nat) :
    SameMapping h (h.ghostKeyUnmark i) := by
  have hset : SameMapping h
      (h.setSlot i { h.slots i with keyGhostMark := false, keyGhostState := 0 }) := .setSlot h i rfl
  exact ⟨hset.slot, rfl, rfl, rfl, rfl⟩

/-- So evictions keep it, too. -/
theorem SameMapping.ghostKeyEvictDownTo (limit rounds : Nat) (h : HotTable) :
    SameMapping h (h.ghostKeyEvictDownTo limit rounds) := by
  refine ghostKeyEvictDownTo_rule ?_ ?_ ?_ limit rounds (.refl h)
  · intro g f hg
    exact hg.trans ⟨fun _ => rfl, rfl, rfl, rfl, rfl⟩
  · intro g rr hg
    exact hg.trans ⟨fun _ => rfl, rfl, rfl, rfl, rfl⟩
  · intro g i _ hg
    exact hg.trans (.ghostKeyUnmark g i)

/-- Bytes that are given back change no size. -/
theorem yieldKeyBudget_pages (env : CacheEnv) (slot : HotSlot) :
    (yieldKeyBudget env slot).maxCachedHotTpages = env.maxCachedHotTpages ∧
      (yieldKeyBudget env slot).maxCachedHotEntries = env.maxCachedHotEntries := by
  unfold yieldKeyBudget
  split <;> exact ⟨rfl, rfl⟩

/-- Marking a ghost keeps the mapping. -/
theorem SameMapping.ghostKeyMark (h : HotTable) (i : Nat) : SameMapping h (h.ghostKeyMark i) := by
  unfold HotTable.ghostKeyMark
  split
  · exact .refl h
  · split
    · exact .refl h
    · split
      · exact .refl h
      · have hdown := SameMapping.ghostKeyEvictDownTo h.env.ghostKeyCap h.nrGhostKey h
        generalize h.ghostKeyEvictDownTo h.env.ghostKeyCap h.nrGhostKey = g at hdown
        refine hdown.trans ?_
        have hset : SameMapping g (g.setSlot i
          { g.slots i with keyGhostMark := true, keyGhostState := 0, realKey := [] }) :=
          .setSlot g i rfl
        have hyield := yieldKeyBudget_pages g.env (g.slots i)
        exact ⟨hset.slot, hyield.1, hyield.2, rfl, rfl⟩

/-- And so does dropping a key. -/
theorem SameMapping.promoteDropKey (h : HotTable) (i : Nat) :
    SameMapping h (h.promoteDropKey i) := by
  unfold HotTable.promoteDropKey
  split
  · dsimp only
    split
    · have hmark := SameMapping.ghostKeyMark h i
      generalize h.ghostKeyMark i = g at hmark
      have hset : SameMapping (g.setFree (g.env.maxCachedFullKey + (g.slots i).realKey.length))
          ((g.setFree (g.env.maxCachedFullKey + (g.slots i).realKey.length)).setSlot i
            { g.slots i with realKey := [] }) := .setSlot _ i rfl
      exact hmark.trans ⟨hset.slot, hset.pages, hset.entries, hset.phase, hset.saved⟩
    · exact .setSlot h i rfl
  · exact .refl h

/-- Without `VERIFY_CACHE` there is no key to drop. -/
theorem promoteDropKey_of_verifyCache (hv : h.env.verifyCache = false) (i : Nat) :
    h.promoteDropKey i = h := by
  unfold HotTable.promoteDropKey
  rw [hv, if_neg Bool.false_ne_true]

/-! ## Section 2: The chosen slot -/

/-- The slot that a promotion takes, `none` if it is refused. -/
inductive Choice (h : HotTable) (lpa coldCnt : Nat) : Option Nat → Prop where
  /-- The first probed slot with the same lpa. -/
  | same {as i bs} : h.probes lpa 50 = as ++ i :: bs → (h.slots i).lpa = some lpa →
      (∀ j ∈ as, (h.slots j).lpa ≠ some lpa) → Choice h lpa coldCnt (some i)
  /-- Else the first empty slot. -/
  | empty {as i bs} : h.probes lpa 50 = as ++ i :: bs → (h.slots i).lpa = none →
      (∀ j ∈ h.probes lpa 50, (h.slots j).lpa ≠ some lpa) →
      (∀ j ∈ as, (h.slots j).lpa ≠ none) → Choice h lpa coldCnt (some i)
  /-- Else the last slot of least state, unless it is hotter than the promoted entry. -/
  | displace {as i bs} : h.probes lpa 50 = as ++ i :: bs →
      (∀ j ∈ h.probes lpa 50, (h.slots j).lpa ≠ some lpa ∧ (h.slots j).lpa ≠ none) →
      (∀ j ∈ h.probes lpa 50, (h.slots i).state ≤ (h.slots j).state) →
      (∀ j ∈ bs, (h.slots i).state < (h.slots j).state) →
      Choice h lpa coldCnt (if (h.slots i).state ≤ coldCnt then some i else none)

/-- The return value of `hot_promote_place_grain`. -/
def placeGrainRc (h : HotTable) (lpa coldCnt : Nat) : Bool :=
  let slots := h.probes lpa 50
  match h.findLpa slots lpa with
  | some _ => true
  | none =>
    match slots.find? fun i => (h.slots i).lpa.isNone with
    | some _ => true
    | none =>
      match h.promoteVictim slots with
      | some i => if coldCnt < (h.slots i).state then false else true
      | none => false

/-- Slot `i` has been given the mapping `e`, and the others have not changed. Only in the
    `VERIFY_CACHE` build, where a displaced key may take the place of another ghost, the
    ghost mark of another slot can go. -/
structure Stores (h h' : HotTable) (i : Nat) (e : HotPte) : Prop where
  slot : (h'.slots i).toPte = e
  others : ∀ j, j ≠ i → (h'.slots j).toPte = (h.slots j).toPte
  whole : h.env.verifyCache = false → ∀ j, j ≠ i → h'.slots j = h.slots j
  pages : h'.env.maxCachedHotTpages = h.env.maxCachedHotTpages
  entries : h'.env.maxCachedHotEntries = h.env.maxCachedHotEntries
  phase : h'.phase = h.phase
  saved : h'.saved = h.saved

theorem hotProbe_length (tpages n d p step : Nat) : (hotProbe tpages n d p step).length = n := by
  induction n generalizing d p step with
  | zero => rfl
  | succ n ih => rw [hotProbe, List.length_cons, ih]

/-- There is always a window. -/
theorem probes_ne_nil (h : HotTable) (lpa : Nat) : h.probes lpa 50 ≠ [] := by
  intro hnil
  have hlen : (h.probes lpa 50).length = 50 := hotProbe_length ..
  rw [hnil] at hlen
  cases hlen

/-- And a choice in it. -/
theorem exists_choice (h : HotTable) (lpa coldCnt : Nat) : ∃ c, Choice h lpa coldCnt c := by
  cases hsame : h.findLpa (h.probes lpa 50) lpa with
  | some i =>
    obtain ⟨hi, as, bs, heq, has⟩ := List.find?_eq_some_iff_append.mp hsame
    exact ⟨some i, .same heq (of_decide_eq_true hi) fun j hj => by simpa using has j hj⟩
  | none =>
    have hne : ∀ j ∈ h.probes lpa 50, (h.slots j).lpa ≠ some lpa := by
      intro j hj
      simpa using List.find?_eq_none.mp hsame j hj
    cases hempty : (h.probes lpa 50).find? fun i => (h.slots i).lpa.isNone with
    | some i =>
      obtain ⟨hi, as, bs, heq, has⟩ := List.find?_eq_some_iff_append.mp hempty
      refine ⟨some i, .empty heq (Option.isNone_iff_eq_none.mp hi) hne fun j hj hnone => ?_⟩
      have hj := has j hj
      rw [hnone] at hj
      cases hj
    | none =>
      have hfull : ∀ j ∈ h.probes lpa 50, (h.slots j).lpa ≠ none := by
        intro j hj
        simpa using List.find?_eq_none.mp hempty j hj
      obtain ⟨as, i, bs, heq, hle, hlt⟩ :=
        exists_last_least (fun j => (h.slots j).state) (h.probes_ne_nil lpa)
      exact ⟨_, .displace heq (fun j hj => ⟨hne j hj, hfull j hj⟩) hle hlt⟩

/-- The scan for the victim, one probe after the others. -/
theorem promoteVictim_concat (h : HotTable) (l : List Nat) {x : Nat}
    (hx : (h.slots x).lpa ≠ none) :
    h.promoteVictim (l ++ [x]) = match h.promoteVictim l with
      | none => if (h.slots x).state ≤ 6 then some x else none
      | some j => if (h.slots x).state ≤ (h.slots j).state then some x else some j := by
  have hocc : ¬(h.slots x).lpa.isNone := fun hn => hx (Option.isNone_iff_eq_none.mp hn)
  unfold promoteVictim
  rw [List.foldl_append]
  exact if_neg hocc

/-- The victim is one of the probes. -/
theorem promoteVictim_mem {j : Nat} : ∀ {l : List Nat}, (∀ x ∈ l, (h.slots x).lpa ≠ none) →
    h.promoteVictim l = some j → j ∈ l := by
  intro l
  induction l using List.reverseRecOn with
  | nil =>
    intro _ hj
    cases hj
  -- The last probe is the victim, or one before it is.
  | append_singleton l x ih =>
    intro hfull hj
    rw [promoteVictim_concat h l (hfull x (by simp))] at hj
    have hl : ∀ y ∈ l, (h.slots y).lpa ≠ none := fun y hy => hfull y (by simp [hy])
    cases hv : h.promoteVictim l with
    | none =>
      rw [hv] at hj
      dsimp only at hj
      split at hj
      · cases hj
        simp
      · cases hj
    | some v =>
      rw [hv] at hj
      dsimp only at hj
      split at hj
      · cases hj
        simp
      · cases hj
        simp [ih hl hv]

/-- Over occupied slots the pass remembers the last one of least state. -/
theorem promoteVictim_eq {as : List Nat} {i : Nat} (hfull : ∀ j ∈ as, (h.slots j).lpa ≠ none)
    (hi : (h.slots i).lpa ≠ none) (hstate : (h.slots i).state ≤ 6)
    (hle : ∀ j ∈ as, (h.slots i).state ≤ (h.slots j).state) : ∀ {bs : List Nat},
    (∀ j ∈ bs, (h.slots j).lpa ≠ none) → (∀ j ∈ bs, (h.slots i).state < (h.slots j).state) →
      h.promoteVictim (as ++ i :: bs) = some i := by
  intro bs
  induction bs using List.reverseRecOn with
  | nil =>
    intro _ _
    rw [promoteVictim_concat h as hi]
    cases hv : h.promoteVictim as with
    | none => exact if_pos hstate
    | some j => exact if_pos (hle j (promoteVictim_mem hfull hv))
  | append_singleton bs x ih =>
    intro hbs hlt
    have hx : (h.slots i).state < (h.slots x).state := hlt x (by simp)
    have hrest : h.promoteVictim (as ++ i :: bs) = some i :=
      ih (fun j hj => hbs j (by simp [hj])) fun j hj => hlt j (by simp [hj])
    have hsplit : as ++ i :: (bs ++ [x]) = as ++ i :: bs ++ [x] := by simp
    rw [hsplit, promoteVictim_concat h _ (hbs x (by simp)), hrest]
    exact if_neg (Nat.not_le_of_lt hx)

/-! ## Section 3: The policy -/

/-- The entry is written with its clamped state. -/
theorem promoteWrite_stores (h : HotTable) (i lpa : Nat) (ppa : Option Nat) (keyFp : UInt32)
    (coldCnt : Nat) :
    Stores h (h.promoteWrite i lpa ppa keyFp coldCnt) i ⟨some lpa, ppa, min coldCnt 5, keyFp⟩ := by
  have hdrop := SameMapping.promoteDropKey h i
  have hv := fun hv => promoteDropKey_of_verifyCache (h := h) hv i
  unfold promoteWrite
  generalize h.promoteDropKey i = g at hdrop hv
  dsimp only
  refine ⟨?_, fun j hj => ?_, fun hverify j hj => ?_, hdrop.pages, hdrop.entries,
    hdrop.phase, hdrop.saved⟩
  · rw [slots_setSlot, if_pos rfl]
    rfl
  · rw [slots_setSlot, if_neg hj]
    exact hdrop.slot j
  · rw [slots_setSlot, if_neg hj, hv hverify]

/-- It is one of the six states. -/
theorem promoteEntryState_lt (coldCnt : Nat) : promoteEntryState coldCnt < 6 := by
  unfold promoteEntryState
  omega

/-- What `hot_hist_sync_promoted` does to the table. -/
theorem syncPromoted_eq {i : Nat} (hi : (h.slots i).lpa ≠ none) (coldCnt : Nat) :
    ∃ live, (if (h.slots i).state ≠ promoteEntryState coldCnt then
        h.histMove i (promoteEntryState coldCnt) else h) =
      { h.setSlot i { h.slots i with state := promoteEntryState coldCnt } with
        stateLive := live } := by
  by_cases hs : (h.slots i).state = promoteEntryState coldCnt
  · refine ⟨h.stateLive, ?_⟩
    have hsame : h.setSlot i { h.slots i with state := promoteEntryState coldCnt } = h := by
      have hslots : (h.setSlot i { h.slots i with state := promoteEntryState coldCnt }).slots =
          h.slots := by
        funext j
        rw [slots_setSlot, ← hs]
        split
        · next hj => rw [hj]
        · rfl
      show { h with slots := _ } = h
      exact congrArg (fun slots => { h with slots := slots }) hslots
    rw [if_neg (not_not.mpr hs), hsame]
  · have hlt := promoteEntryState_lt coldCnt
    have hok : ¬((h.slots i).lpa = none ∨ 6 ≤ promoteEntryState coldCnt) := by
      rintro (hnone | hge)
      · exact hi hnone
      · exact Nat.not_le_of_lt hlt hge
    rw [if_pos hs, histMove, if_neg hok]
    exact ⟨_, rfl⟩

/-- The slot with the same lpa. -/
theorem refresh_stores {i lpa : Nat} (hi : (h.slots i).lpa = some lpa) (ppa : Option Nat)
    (keyFp : UInt32) (coldCnt : Nat) (hfind : h.findLpa (h.probes lpa 50) lpa = some i) :
    Stores h (h.placeGrain lpa ppa keyFp coldCnt) i ⟨some lpa, ppa, min coldCnt 5, keyFp⟩ := by
  unfold placeGrain
  dsimp only
  rw [hfind]
  dsimp only
  have hlpa : ((h.setSlot i { h.slots i with ppa := ppa, keyFp := keyFp }).slots i).lpa ≠ none := by
    rw [slots_setSlot, if_pos rfl]
    show (h.slots i).lpa ≠ none
    rw [hi]
    exact Option.some_ne_none _
  obtain ⟨live, hsync⟩ := syncPromoted_eq hlpa coldCnt
  rw [hsync]
  refine ⟨?_, fun j hj => ?_, fun _ j hj => ?_, rfl, rfl, rfl, rfl⟩
  · simp [HotSlot.toPte, promoteEntryState, hi]
  · simp [hj]
  · simp [hj]

/-- A promotion to an empty slot. -/
theorem empty_stores {i lpa : Nat} (ppa : Option Nat) (keyFp : UInt32) (coldCnt : Nat)
    (hfind : h.findLpa (h.probes lpa 50) lpa = none)
    (hempty : (h.probes lpa 50).find? (fun i => (h.slots i).lpa.isNone) = some i) :
    Stores h (h.placeGrain lpa ppa keyFp coldCnt) i ⟨some lpa, ppa, min coldCnt 5, keyFp⟩ := by
  unfold placeGrain
  dsimp only
  rw [hfind]
  dsimp only
  rw [hempty]
  have hw :=
    promoteWrite_stores { h with validEntries := h.validEntries + 1 } i lpa ppa keyFp coldCnt
  exact ⟨hw.slot, hw.others, hw.whole, hw.pages, hw.entries, hw.phase, hw.saved⟩

/-- A promotion to the slot of a colder entry. -/
theorem displace_stores {i lpa : Nat} (ppa : Option Nat) (keyFp : UInt32) {coldCnt : Nat}
    (hfind : h.findLpa (h.probes lpa 50) lpa = none)
    (hempty : (h.probes lpa 50).find? (fun i => (h.slots i).lpa.isNone) = none)
    (hvictim : h.promoteVictim (h.probes lpa 50) = some i) (hcnt : (h.slots i).state ≤ coldCnt) :
    Stores h (h.placeGrain lpa ppa keyFp coldCnt) i ⟨some lpa, ppa, min coldCnt 5, keyFp⟩ := by
  unfold placeGrain
  dsimp only
  rw [hfind]
  dsimp only
  rw [hempty]
  dsimp only
  rw [hvictim]
  dsimp only
  rw [if_neg (Nat.not_lt.mpr hcnt)]
  have hw := promoteWrite_stores { h with stateLive := histDec h.stateLive (h.slots i).state } i lpa
    ppa keyFp coldCnt
  exact ⟨hw.slot, hw.others, hw.whole, hw.pages, hw.entries, hw.phase, hw.saved⟩

/-- A promoted entry is found in the slot it was written to. -/
theorem Stores.hitSlot {i lpa : Nat} {ppa : Option Nat} {keyFp : UInt32} {state : Nat}
    (hs : Stores h h' i ⟨some lpa, ppa, state, keyFp⟩) (hmem : i ∈ h.probes lpa 50)
    (hone : h.findLpa (h.probes lpa 50) lpa = some i ∨
      ∀ j ∈ h.probes lpa 50, (h.slots j).lpa ≠ some lpa)
    (hacc : h.accessible = true) : h'.hitSlot lpa = some i := by
  have hprobes : h'.probes lpa 50 = h.probes lpa 50 := by
    unfold probes
    rw [hs.pages, hs.entries]
  have hacc' : h'.accessible = true := by
    unfold accessible at *
    rw [hs.phase]
    exact hacc
  have hi : (h'.slots i).lpa = some lpa := congrArg HotPte.lpa hs.slot
  have hother : ∀ j, j ≠ i → (h'.slots j).lpa = (h.slots j).lpa := fun j hj =>
    congrArg HotPte.lpa (hs.others j hj)
  rw [HotTable.hitSlot, if_pos hacc', hprobes]
  cases hfound : h'.findLpa (h.probes lpa 50) lpa with
  | none =>
    have hno := List.find?_eq_none.mp hfound i hmem
    exact absurd (decide_eq_true hi) hno
  -- The lookup may only have stopped at another slot with this lpa.
  | some j =>
    obtain ⟨hj, as, bs, heq, has⟩ := List.find?_eq_some_iff_append.mp hfound
    by_contra hne
    have hji : j ≠ i := fun he => hne (by rw [he])
    have hjlpa : (h.slots j).lpa = some lpa := (hother j hji).symm.trans (of_decide_eq_true hj)
    rcases hone with hfind | hnone
    · -- `i` is the first probe with this lpa, but it does not come before `j`.
      have hias : i ∉ as := fun hmem => by
        have hno := has i hmem
        rw [decide_eq_true hi] at hno
        cases hno
      rw [findLpa, heq, List.find?_append] at hfind
      have hnone : as.find? (fun i => decide ((h.slots i).lpa = some lpa)) = none := by
        refine List.find?_eq_none.mpr fun x hx => ?_
        have hxi : x ≠ i := fun he => hias (he ▸ hx)
        have hno := has x hx
        rw [hother x hxi] at hno
        simpa using hno
      rw [hnone, Option.none_or, List.find?_cons, decide_eq_true hjlpa] at hfind
      exact hji (Option.some.inj hfind)
    · exact hnone j (List.mem_of_find?_eq_some hfound) hjlpa

/-- What becomes of a promotion: the chosen slot alone is written and found again, or
    nothing changes. -/
def Promoted (h : HotTable) (lpa : Nat) (ppa : Option Nat) (keyFp : UInt32) (coldCnt : Nat) :
    Option Nat → Prop
  | some i =>
    h.placeGrainRc lpa coldCnt = true ∧
      Stores h (h.placeGrain lpa ppa keyFp coldCnt) i ⟨some lpa, ppa, min coldCnt 5, keyFp⟩ ∧
      (h.accessible = true → (h.placeGrain lpa ppa keyFp coldCnt).hitSlot lpa = some i)
  | none => h.placeGrainRc lpa coldCnt = false ∧ h.placeGrain lpa ppa keyFp coldCnt = h

/-- There is a slot to choose (or a refusal) for every promotion, and it alone is written.
    The states are the six heat levels. -/
theorem promotion_policy (h : HotTable) (hlevels : ∀ i, (h.slots i).state < 6) (lpa : Nat)
    (ppa : Option Nat) (keyFp : UInt32) (coldCnt : Nat) :
    (∃ c, Choice h lpa coldCnt c) ∧
      ∀ c, Choice h lpa coldCnt c → Promoted h lpa ppa keyFp coldCnt c := by
  refine ⟨exists_choice h lpa coldCnt, fun c hc => ?_⟩
  cases hc with
  | @same as i bs heq hi has =>
    have hmem : i ∈ h.probes lpa 50 := by simp [heq]
    have hfind : h.findLpa (h.probes lpa 50) lpa = some i :=
      List.find?_eq_some_iff_append.mpr
        ⟨decide_eq_true hi, as, bs, heq, fun j hj => by simpa using has j hj⟩
    have hs := refresh_stores hi ppa keyFp coldCnt hfind
    refine ⟨?_, hs, hs.hitSlot hmem (.inl hfind)⟩
    unfold placeGrainRc
    dsimp only
    rw [hfind]
  | @empty as i bs heq hi hne has =>
    have hmem : i ∈ h.probes lpa 50 := by simp [heq]
    have hfind : h.findLpa (h.probes lpa 50) lpa = none :=
      List.find?_eq_none.mpr fun j hj => by simpa using hne j hj
    have hempty : (h.probes lpa 50).find? (fun i => (h.slots i).lpa.isNone) = some i := by
      refine List.find?_eq_some_iff_append.mpr
        ⟨Option.isNone_iff_eq_none.mpr hi, as, bs, heq, fun j hj => ?_⟩
      cases hj' : (h.slots j).lpa with
      | none => exact absurd hj' (has j hj)
      | some _ => rfl
    have hs := empty_stores ppa keyFp coldCnt hfind hempty
    refine ⟨?_, hs, hs.hitSlot hmem (.inr hne)⟩
    unfold placeGrainRc
    dsimp only
    rw [hfind]
    dsimp only
    rw [hempty]
  -- No probe is empty: the last one of least state, if it is not hotter.
  | @displace as i bs heq hne hle hlt =>
    have hmem : i ∈ h.probes lpa 50 := by simp [heq]
    have hfind : h.findLpa (h.probes lpa 50) lpa = none :=
      List.find?_eq_none.mpr fun j hj => by simpa using (hne j hj).1
    have hempty : (h.probes lpa 50).find? (fun i => (h.slots i).lpa.isNone) = none := by
      refine List.find?_eq_none.mpr fun j hj hn => ?_
      exact (hne j hj).2 (Option.isNone_iff_eq_none.mp hn)
    -- The scan starts with a state above all levels.
    have hvictim : h.promoteVictim (h.probes lpa 50) = some i := by
      have hlevel := hlevels i
      rw [heq] at hne hle ⊢
      exact promoteVictim_eq (fun j hj => (hne j (by simp [hj])).2) (hne i (by simp)).2 (by omega)
        (fun j hj => hle j (by simp [hj])) (fun j hj => (hne j (by simp [hj])).2) hlt
    by_cases hcnt : (h.slots i).state ≤ coldCnt
    · rw [if_pos hcnt]
      have hs := displace_stores ppa keyFp hfind hempty hvictim hcnt
      refine ⟨?_, hs, hs.hitSlot hmem (.inr fun j hj => (hne j hj).1)⟩
      unfold placeGrainRc
      dsimp only
      rw [hfind]
      dsimp only
      rw [hempty]
      dsimp only
      rw [hvictim]
      exact if_neg (Nat.not_lt.mpr hcnt)
    · rw [if_neg hcnt]
      constructor
      · unfold placeGrainRc
        dsimp only
        rw [hfind]
        dsimp only
        rw [hempty]
        dsimp only
        rw [hvictim]
        exact if_pos (Nat.not_le.mp hcnt)
      · unfold placeGrain
        dsimp only
        rw [hfind]
        dsimp only
        rw [hempty]
        dsimp only
        rw [hvictim]
        exact if_pos (Nat.not_le.mp hcnt)

/-- A table without an empty slot. Of the slots that lpa 515 probes, 516 and 529 have the
    least state, and 545 holds the lpa 3356163, which probes the same slots. -/
def fullTable : HotTable :=
  { HotTable.create shippedEnv with
    slots := fun i => ⟨some (if i = 545 then 3356163 else 1677824 + i), some (8 * i),
      if i = 516 ∨ i = 529 then 2 else 4, 7, [], false, 0⟩ }

/-- In a window without an empty slot a promotion takes the last slot of least state, is
    refused if it is colder, and updates the slot of its own lpa. -/
theorem promotion_policy_window :
    ((fullTable.placeGrain 515 (some 40) 9 3).hitSlot 515 = some 529 ∧
      Stores fullTable (fullTable.placeGrain 515 (some 40) 9 3) 529 ⟨some 515, some 40, 3, 9⟩) ∧
    fullTable.placeGrain 515 (some 40) 9 1 = fullTable ∧
    (fullTable.placeGrain 3356163 (some 40) 9 1).hitSlot 3356163 = some 545 := by
  have hlevels : ∀ i, (fullTable.slots i).state < 6 := by
    intro i
    show (if i = 516 ∨ i = 529 then 2 else 4) < 6
    split
    · decide
    · decide
  -- The window has no free slot and no copy of 515, its last slot of least state is 529.
  have hprobes : fullTable.probes 515 50 = [515, 516, 520] ++ 529 ::
      (fullTable.probes 515 50).drop 4 := by decide +kernel
  have hwindow : ∀ j ∈ fullTable.probes 515 50,
      (fullTable.slots j).lpa ≠ some 515 ∧ (fullTable.slots j).lpa ≠ none := by decide +kernel
  have hleast : ∀ j ∈ fullTable.probes 515 50,
      (fullTable.slots 529).state ≤ (fullTable.slots j).state := by decide +kernel
  have hlast : ∀ j ∈ (fullTable.probes 515 50).drop 4,
      (fullTable.slots 529).state < (fullTable.slots j).state := by decide +kernel
  refine ⟨?_, ?_, ?_⟩
  · have hchoice : Choice fullTable 515 3 (some 529) := .displace hprobes hwindow hleast hlast
    have hpromoted := (promotion_policy fullTable hlevels 515 (some 40) 9 3).2 _ hchoice
    exact ⟨hpromoted.2.2 rfl, hpromoted.2.1⟩
  · have hchoice : Choice fullTable 515 1 none := .displace hprobes hwindow hleast hlast
    exact ((promotion_policy fullTable hlevels 515 (some 40) 9 1).2 _ hchoice).2
  -- 3356163 shares the window and is in its fifth slot.
  · have hsame : fullTable.probes 3356163 50 = [515, 516, 520, 529] ++ 545 ::
        (fullTable.probes 3356163 50).drop 5 := by decide +kernel
    have hbefore : ∀ j ∈ [515, 516, 520, 529], (fullTable.slots j).lpa ≠ some 3356163 := by
      decide +kernel
    have hchoice : Choice fullTable 3356163 1 (some 545) := .same hsame rfl hbefore
    exact ((promotion_policy fullTable hlevels 3356163 (some 40) 9 1).2 _ hchoice).2.2 rfl

/-! ## Section 4: The heat levels -/

/-- Every state is one of the six heat levels, that of an entry to be inserted too. -/
structure Levels (h : HotTable) : Prop where
  slot : ∀ i, (h.slots i).state < 6
  saved : ∀ e ∈ h.saved, e.state < 6

/-- The states are part of the mapping. -/
theorem Levels.of_mapping (hl : h.Levels) (hs : SameMapping h h') : h'.Levels where
  slot := fun i => by
    have hstate : (h'.slots i).state = (h.slots i).state := congrArg HotPte.state (hs.slot i)
    rw [hstate]
    exact hl.slot i
  saved := fun e he => hl.saved e (hs.saved ▸ he)

theorem Levels.congr (hl : h.Levels) (hslots : h'.slots = h.slots) (hsaved : h'.saved = h.saved) :
    h'.Levels where
  slot := fun i => hslots ▸ hl.slot i
  saved := fun e he => hl.saved e (hsaved ▸ he)

/-- A slot gets one of the six states. -/
theorem Levels.setSlot (hl : h.Levels) (i : Nat) {e : HotSlot} (he : e.state < 6) :
    (h.setSlot i e).Levels where
  slot := fun j => by
    rw [slots_setSlot]
    split
    · exact he
    · exact hl.slot j
  saved := hl.saved

/-- And so does a slot that is written. -/
theorem Levels.of_stores (hl : h.Levels) {i : Nat} {e : HotPte} (he : e.state < 6)
    (hs : Stores h h' i e) : h'.Levels where
  slot := fun j => by
    by_cases hj : j = i
    · have hstate := congrArg HotPte.state hs.slot
      rw [hj]
      show (h'.slots i).toPte.state < 6
      rw [hstate]
      exact he
    · have hstate := congrArg HotPte.state (hs.others j hj)
      show (h'.slots j).toPte.state < 6
      rw [hstate]
      exact hl.slot j
  saved := fun e he => hl.saved e (hs.saved ▸ he)

/-- A promotion keeps the levels. -/
theorem Levels.placeGrain (hl : h.Levels) (lpa : Nat) (ppa : Option Nat) (keyFp : UInt32)
    (coldCnt : Nat) : (h.placeGrain lpa ppa keyFp coldCnt).Levels := by
  have hlt := promoteEntryState_lt coldCnt
  cases hfind : h.findLpa (h.probes lpa 50) lpa with
  | some i =>
    have hlpa := List.find?_some hfind
    exact hl.of_stores hlt (refresh_stores (of_decide_eq_true hlpa) ppa keyFp coldCnt hfind)
  -- No match, so the first empty slot, then the victim.
  | none =>
    cases hempty : (h.probes lpa 50).find? fun i => (h.slots i).lpa.isNone with
    | some i => exact hl.of_stores hlt (empty_stores ppa keyFp coldCnt hfind hempty)
    | none =>
      cases hvictim : h.promoteVictim (h.probes lpa 50) with
      | some i =>
        by_cases hcnt : (h.slots i).state ≤ coldCnt
        · exact hl.of_stores hlt (displace_stores ppa keyFp hfind hempty hvictim hcnt)
        · unfold HotTable.placeGrain
          dsimp only
          rw [hfind]
          dsimp only
          rw [hempty]
          dsimp only
          rw [hvictim]
          dsimp only
          rw [if_pos (Nat.not_le.mp hcnt)]
          exact hl
      | none =>
        unfold HotTable.placeGrain
        dsimp only
        rw [hfind]
        dsimp only
        rw [hempty]
        dsimp only
        rw [hvictim]
        exact hl

/-- A raise stops at the highest one. -/
theorem Levels.stateRaise (hl : h.Levels) (i : Nat) : (h.stateRaise i).Levels := by
  refine stateRaise_rule h i hl fun _ hlt => ?_
  exact (hl.setSlot i (show (h.slots i).state + 1 < 6 by omega)).congr rfl rfl

theorem Levels.clearPages (hl : h.Levels) (lo n : Nat) : (h.clearPages lo n).Levels := by
  have hsaved : ∀ (slots : List HotSlot) (g : HotTable),
      (slots.foldl uncountHot g).saved = g.saved := by
    intro slots
    induction slots with
    | nil => exact fun _ => rfl
    | cons slot slots ih => exact fun g => ih _
  refine ⟨fun i => ?_, fun e he => hl.saved e ?_⟩
  · show (if _ then _ else _ : HotSlot).state < 6
    split
    · exact Nat.zero_lt_succ 5
    · exact hl.slot i
  · exact hsaved _ h ▸ he

/-- A saved entry keeps its level. -/
theorem Levels.collectSlot (hl : h.Levels) : h.collectSlot.Levels := by
  have hcleared := hl.setSlot h.scan (e := (h.slots h.scan).cleared) (Nat.zero_lt_succ 5)
  refine collectSlot_rule h ?_ ?_ ?_
  · intro _
    exact hl.congr rfl rfl
  · intro _ _
    refine ⟨hcleared.slot, fun e he => ?_⟩
    rcases List.mem_append.mp he with he | he
    · exact hl.saved e he
    · rw [List.mem_singleton.mp he]
      exact hl.slot h.scan
  · intro _ _
    exact ⟨hcleared.slot, hl.saved⟩

/-- And it has it when it is inserted again. -/
theorem Levels.insertEntry (hl : h.Levels) {e : HotSlot} (he : e.state < 6) :
    (h.insertEntry e).Levels := by
  unfold HotTable.insertEntry
  split
  · next i hi =>
    have hcopy : (copyPte (h.slots i) e).state < 6 := he
    exact (hl.setSlot i hcopy).congr rfl rfl
  · exact hl.congr rfl rfl

theorem Levels.collectLoop (n : Nat) (hl : h.Levels) : (h.collectLoop n).Levels := by
  induction n generalizing h with
  | zero => exact hl
  | succ n ih =>
    rw [HotTable.collectLoop]
    split
    · exact ih hl.collectSlot
    · exact hl

theorem Levels.insertLoop (n : Nat) (hl : h.Levels) : (h.insertLoop n).Levels := by
  induction n generalizing h with
  | zero => exact hl
  | succ n ih =>
    rw [HotTable.insertLoop]
    split
    · next e he => exact ih (hl.insertEntry (hl.saved e (List.mem_of_getElem? he)))
    · exact hl

/-- So a tick keeps the levels. -/
theorem Levels.rehashTick (hl : h.Levels) : h.rehashTick.Levels := by
  unfold HotTable.rehashTick
  split
  · exact hl
  · dsimp only
    split
    · exact (hl.collectLoop 32768).congr rfl rfl
    · exact hl.collectLoop 32768
  · dsimp only
    split
    · exact ⟨(hl.insertLoop 8192).slot, fun e he => by cases he⟩
    · exact hl.insertLoop 8192

theorem Levels.rehashDrain (n : Nat) (hl : h.Levels) : (h.rehashDrain n).Levels := by
  induction n generalizing h with
  | zero => exact hl
  | succ n ih =>
    rw [HotTable.rehashDrain]
    split
    · exact hl
    · exact ih hl.rehashTick

theorem Levels.rehash (hl : h.Levels) : h.rehash.Levels :=
  Levels.rehashDrain 200000001 ⟨hl.slot, fun e he => by cases he⟩

theorem Levels.ghostTrim (hl : h.Levels) : h.ghostTrim.Levels := by
  have htrim := SameMapping.ghostKeyEvictDownTo (h.env.ghostKeyCap + 1) h.nrGhostKey
    { h with keyFifo := .alloc h.env.ghostKeyCap }
  exact hl.of_mapping (htrim.of_eq rfl rfl rfl rfl)

theorem Levels.ghostKeyOnFlashVerify (hl : h.Levels) (i : Nat) (keyFp : UInt32) :
    (h.ghostKeyOnFlashVerify i keyFp).Levels := by
  unfold HotTable.ghostKeyOnFlashVerify
  dsimp only
  split
  · exact hl
  · split
    · exact hl
    · have hset : SameMapping h (h.setSlot i { h.slots i with
          keyGhostState := if (h.slots i).keyGhostState < 5 then
            (h.slots i).keyGhostState + 1 else (h.slots i).keyGhostState }) := .setSlot _ i rfl
      exact (hl.of_mapping hset).congr rfl rfl

theorem Levels.cacheKey (hl : h.Levels) (i : Nat) (realKey : List UInt8) :
    (h.cacheKey i realKey).Levels := by
  unfold HotTable.cacheKey
  dsimp only
  split
  · have hset : SameMapping h (h.setSlot i { h.slots i with
        realKey := realKey, keyGhostMark := false }) := .setSlot _ i rfl
    exact (hl.of_mapping hset).congr rfl rfl
  · exact hl

end HotTable

namespace Mem

open HotTable (SameMapping Levels)

theorem ghostColdScan_hot (steps : Nat) (m : Mem) : (m.ghostColdScan steps).2.hot = m.hot := by
  induction steps generalizing m with
  | zero => rfl
  | succ steps ih =>
    unfold ghostColdScan
    dsimp only
    split
    · rfl
    · exact ih _

theorem ghostColdFifoEvict_hot (tries : Nat) (m : Mem) :
    (m.ghostColdFifoEvict tries).2.hot = m.hot := by
  have hrr : ∀ m : Mem, m.ghostColdEvictRr.2.hot = m.hot := by
    intro m
    unfold ghostColdEvictRr
    split
    · rfl
    · exact ghostColdScan_hot 512 m
  induction tries generalizing m with
  | zero => exact hrr m
  | succ tries ih =>
    unfold ghostColdFifoEvict
    dsimp only
    split
    · exact hrr m
    · split
      · rfl
      · exact ih _

/-- Evictions of cold ghosts leave the hot table alone. -/
theorem ghostColdEvictDownTo_hot (limit rounds : Nat) (m : Mem) :
    (m.ghostColdEvictDownTo limit rounds).hot = m.hot := by
  induction rounds generalizing m with
  | zero => rfl
  | succ rounds ih =>
    have hevict : m.ghostColdFifoEvictOldest.2.hot = m.hot := ghostColdFifoEvict_hot _ m
    unfold ghostColdEvictDownTo
    dsimp only
    split
    · split
      · exact (ih _).trans hevict
      · exact hevict
    · rfl

/-- And so does a new ghost. -/
theorem ghostColdMark_hot (m : Mem) (page : Nat) : (m.ghostColdMark page).hot = m.hot := by
  unfold ghostColdMark
  split
  · rfl
  · split
    · rfl
    · exact ghostColdEvictDownTo_hot ..

theorem load_hot (m : Mem) (page : Nat) : (m.load page).hot = m.hot := by
  have hclear : (m.ghostColdClear page).hot = m.hot := by
    unfold ghostColdClear
    split <;> rfl
  exact hclear

/-- A resize keeps the levels. -/
theorem rehashed_levels {m : Mem} {t : Option HotTable} (hl : m.hot.Levels)
    (ht : ∀ h ∈ t, h.Levels) : (m.rehashed t).hot.Levels := by
  cases t with
  | none => exact hl
  | some h =>
    unfold rehashed ghostTrim
    dsimp only
    rw [ghostColdEvictDownTo_hot]
    exact (ht h rfl).rehash.ghostTrim

/-- A table whose pages grow or shrink is cleared there and rehashed. -/
theorem resized_levels {m : Mem} {t : Option HotTable} (hl : m.hot.Levels) (env : CacheEnv)
    (ht : ∀ h ∈ t, ∃ lo n, h = { m.hot with env := env }.clearPages lo n) :
    (m.rehashed t).hot.Levels := by
  apply rehashed_levels hl
  intro g hg
  obtain ⟨lo, n, rfl⟩ := ht g hg
  have hsame : Levels { m.hot with env := env } := hl.congr rfl rfl
  exact hsame.clearPages lo n

/-- The six levels are kept by every step of the memory. -/
theorem next_levels {m m' : Mem} {a : MemLabel} (hl : m.hot.Levels) (h : m.next a = some m') :
    m'.hot.Levels := by
  cases a with
  -- While a rehash is on, a promotion drains it instead.
  | promote lpa ppa keyFp coldCnt =>
    cases h
    dsimp only
    split
    · exact hl.placeGrain lpa ppa keyFp coldCnt
    · exact hl.rehashDrain 8
  | hit lpa =>
    cases h
    dsimp only
    split
    · exact hl.stateRaise _
    · exact hl.rehashDrain 4
  | verify i keyFp =>
    unfold next at h
    dsimp only at h
    split at h
    · cases h
      exact hl.ghostKeyOnFlashVerify i keyFp
    · cases h
  | cacheKey i realKey =>
    unfold next at h
    dsimp only at h
    split at h
    · cases h
      exact hl.cacheKey i realKey
    · cases h
  | expandHot =>
    obtain ⟨t, ht, rfl⟩ := Option.map_eq_some_iff.mp h
    obtain ⟨⟨done, env⟩, -, ht⟩ := Option.bind_eq_some_iff.mp ht
    apply resized_levels hl env
    intro g hg
    cases done <;> cases ht <;> cases hg
    exact ⟨_, _, rfl⟩
  | shrinkHot =>
    obtain ⟨t, ht, rfl⟩ := Option.map_eq_some_iff.mp h
    obtain ⟨⟨done, env⟩, -, ht⟩ := Option.bind_eq_some_iff.mp ht
    apply resized_levels hl env
    intro g hg
    cases done <;> cases ht <;> cases hg
    exact ⟨_, _, rfl⟩
  | expandKey =>
    obtain ⟨⟨done, env⟩, -, h⟩ := Option.bind_eq_some_iff.mp h
    cases done with
    | false =>
      cases h
      exact hl
    | true =>
      cases h
      unfold ghostTrim
      dsimp only
      rw [ghostColdEvictDownTo_hot]
      exact Levels.ghostTrim (hl.congr rfl rfl)
  | reset =>
    cases h
    refine ⟨fun i => ?_, hl.saved⟩
    show (if _ then _ else _ : HotSlot).state < 6
    split
    · exact Nat.zero_lt_succ 5
    · exact hl.slot i
  | prepare =>
    cases h
    exact hl.congr rfl rfl
  | evict page =>
    unfold next at h
    dsimp only at h
    split at h
    · cases h
      rw [Mem.evict, ghostColdMark_hot]
      exact hl
    · cases h
  | load page =>
    unfold next at h
    dsimp only at h
    split at h
    · cases h
      rw [load_hot]
      exact hl
    · cases h

/-- The states of a reachable table are those `promotion_policy` is about. -/
theorem reach_levels {env₀ : CacheEnv} {nrValidTpages : Nat} {m : Mem}
    (h : (memMachine env₀ nrValidTpages).Reachable m) : m.hot.Levels := by
  refine Machine.Reach.invariant (I := fun m => m.hot.Levels) ?_ ?_ h
  · rintro m ⟨env, -, rfl⟩
    exact ⟨fun _ => Nat.zero_lt_succ 5, fun e he => by cases he⟩
  · intro m m' a _ hl _ hnext
    exact next_levels hl hnext

end Mem

end AggreKV.HashKv
