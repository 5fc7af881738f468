import AggreKV.Lib.Counting
import AggreKV.Lib.Linked
import AggreKV.HashKv.Partition

/-! # Flash copies of translation pages

    Each valid page of the MAP partition is the flash copy of one
    translation page, which points to it with `t_ppa`. Allocation,
    write-back and translation GC keep that, also when an allocation
    collects in the middle of another operation.

    * `Copies`: the invariant of the MAP partition, for the pointers `copy`.
    * `Store.Copied`: the same for the table of a store, with the active
      and reserve superblocks.
    * `Moved`: what a translation GC does to the table. -/

namespace AggreKV.HashKv

variable {cfg : Settings} {hs : Hashing}

/-! ## Section 1: The invariant -/

structure Copies (cfg : Settings) (bm : Bm) (copy : Nat → Option Nat) : Prop where
  sSblk : bm.mapPart.sSblk = 0
  eSblk : bm.mapPart.eSblk + 1 = cfg.dataSblk
  cursor : ∀ a, bm.mapPart.activeSblk = some a → a < cfg.dataSblk
  linked : Linked copy (fun p => p < cfg.dataPage ∧ isValidPage bm p = true)
    fun p => (bm.oob (p * 4)).lpa
  whole : ∀ g < cfg.dataGrain, bm.validBitmap g = isValidPage bm (g / 4)
  labelled : ∀ p < cfg.dataPage, isValidPage bm p = true → (bm.oob (p * 4)).isTpage = true
  below : ∀ p < cfg.dataPage, isValidPage bm p = true →
    p % cfg.pps < (bm.sblk (p / cfg.pps)).wpOfft
  counted : ∀ i < cfg.dataSblk,
    (bm.sblk i).validCnt = 4 * blockCount cfg.pps (isValidPage bm) i
  bounded : ∀ i < cfg.dataSblk, (bm.sblk i).wpOfft ≤ cfg.pps

/-- A map page is in a map superblock. -/
theorem lt_dataPage_iff {p : Nat} : p < cfg.dataPage ↔ p / cfg.pps < cfg.dataSblk := by
  rw [← Nat.not_le, dataPage_le_iff, Nat.not_le]

/-- A map grain, too. -/
theorem lt_dataGrain {p : Nat} (h : p < cfg.dataPage) : p * 4 < cfg.dataGrain := by
  unfold Settings.dataGrain
  omega

/-- The superblock of a page. -/
theorem sblkOfft2Ppa_div {a offt : Nat} (h : offt < cfg.pps) :
    sblkOfft2Ppa cfg a offt / cfg.pps = a := by
  unfold sblkOfft2Ppa
  rw [Nat.mul_comm, Nat.mul_add_div cfg.pps_pos, Nat.div_eq_of_lt h, Nat.add_zero]

/-- And its place in there. -/
theorem sblkOfft2Ppa_mod {a offt : Nat} (h : offt < cfg.pps) :
    sblkOfft2Ppa cfg a offt % cfg.pps = offt := by
  unfold sblkOfft2Ppa
  rw [Nat.mul_comm, Nat.mul_add_mod, Nat.mod_eq_of_lt h]

/-- A page becomes invalid. -/
theorem isValidPage_invalidatePage (bm : Bm) (p : Nat) :
    isValidPage (invalidatePage cfg bm p) = Function.update (isValidPage bm) p false := by
  funext q
  simp [isValidPage, invalidatePage, setPageValid, Bm.setSblk, Function.update_apply]

/-- Or valid. -/
theorem isValidPage_validatePage (bm : Bm) (p : Nat) :
    isValidPage (validatePage cfg bm p) = Function.update (isValidPage bm) p true := by
  funext q
  simp [isValidPage, validatePage, setPageValid, Bm.setSblk, Function.update_apply]

/-- A map superblock may change. -/
theorem SameData.setSblk (bm : Bm) {i : Nat} (hi : i < cfg.dataSblk) (b : Superblock) :
    SameData cfg bm (bm.setSblk i b) where
  bitmap _ _ := rfl
  oob _ _ := rfl
  sblk j hj := Function.update_of_ne (by omega) ..
  part := rfl
  stream := rfl

/-- And hand out a page. -/
theorem SameData.getPageNum (bm : Bm) {a : Nat} (ha : a < cfg.dataSblk) :
    SameData cfg bm (getPageNum cfg bm a).2 :=
  .setSblk bm ha _

theorem SameData.setMapPart (bm : Bm) (pt : Part) : SameData cfg bm (bm.setPart .map pt) :=
  ⟨fun _ _ => rfl, fun _ _ => rfl, fun _ _ => rfl, rfl, rfl⟩

/-- And the label of a map grain. -/
theorem SameData.setOob (bm : Bm) {g : Nat} (hg : g < cfg.dataGrain) (o : Oob) :
    SameData cfg bm (bm.setOob g o) where
  bitmap _ _ := rfl
  oob g' hg' := Function.update_of_ne (by omega) ..
  sblk _ _ := rfl
  part := rfl
  stream := rfl

/-- And the validity of a map page. -/
theorem SameData.setPage (bm : Bm) {p : Nat} (hp : p < cfg.dataPage) (v : Bool) :
    SameData cfg bm { bm with validBitmap := setPageValid bm p v } where
  bitmap g hg := by
    refine if_neg fun he => ?_
    unfold Settings.dataGrain at hg
    omega
  oob _ _ := rfl
  sblk _ _ := rfl
  part := rfl
  stream := rfl

theorem SameData.invalidatePage (bm : Bm) {p : Nat} (hp : p < cfg.dataPage) :
    SameData cfg bm (invalidatePage cfg bm p) :=
  (SameData.setPage bm hp false).trans (.setSblk _ (lt_dataPage_iff.mp hp) _)

theorem SameData.validatePage (bm : Bm) {p : Nat} (hp : p < cfg.dataPage) :
    SameData cfg bm (validatePage cfg bm p) :=
  (SameData.setPage bm hp true).trans (.setSblk _ (lt_dataPage_iff.mp hp) _)

namespace Copies

variable {bm bm' : Bm} {copy : Nat → Option Nat}

/-- Operations on data grains do not concern the copies. -/
theorem map (h : Copies cfg bm copy) (hm : SameMap cfg bm bm') : Copies cfg bm' copy := by
  have hvalid : ∀ p < cfg.dataPage, isValidPage bm' p = isValidPage bm p :=
    fun p hp => hm.bitmap _ (lt_dataGrain hp)
  have hoob : ∀ p < cfg.dataPage, bm'.oob (p * 4) = bm.oob (p * 4) :=
    fun p hp => hm.oob _ (lt_dataGrain hp)
  refine ⟨hm.part ▸ h.sSblk, hm.part ▸ h.eSblk, hm.part ▸ h.cursor, ?_, fun g hg => ?_,
    fun p hp hv => ?_, fun p hp hv => ?_, fun i hi => ?_, fun i hi => ?_⟩
  · refine h.linked.congr (fun p => and_congr_right fun hp => ?_) fun p hp => ?_
    · rw [hvalid p hp]
    · rw [hoob p hp.1]
  · have hdiv : g / 4 < cfg.dataPage := by
      unfold Settings.dataGrain at hg
      omega
    rw [hm.bitmap g hg, hvalid _ hdiv]
    exact h.whole g hg
  · rw [hoob p hp]
    exact h.labelled p hp (hvalid p hp ▸ hv)
  · rw [hm.sblk _ (lt_dataPage_iff.mp hp)]
    exact h.below p hp (hvalid p hp ▸ hv)
  · rw [hm.sblk i hi, h.counted i hi]
    refine congrArg (4 * ·) (blockCount_congr cfg.pps_pos fun p hp => ?_).symm
    exact hvalid p (lt_dataPage_iff.mpr (hp ▸ hi))
  · rw [hm.sblk i hi]
    exact h.bounded i hi

/-- A valid map page is the copy of the page on its label. -/
theorem owner (h : Copies cfg bm copy) {p : Nat} (hp : p < cfg.dataPage)
    (hv : isValidPage bm p = true) : copy (bm.oob (p * 4)).lpa = some p :=
  h.linked.owner ⟨hp, hv⟩

/-- And a copy is such a page. -/
theorem valid (h : Copies cfg bm copy) {page p : Nat} (hc : copy page = some p) :
    p < cfg.dataPage ∧ isValidPage bm p = true ∧ (bm.oob (p * 4)).lpa = page := by
  obtain ⟨⟨hp, hv⟩, hb⟩ := (h.linked page p).mp hc
  exact ⟨hp, hv, hb⟩

/-- The valid count of a superblock fits its counter. -/
theorem validCnt_le (h : Copies cfg bm copy) {i : Nat} (hi : i < cfg.dataSblk) :
    (bm.sblk i).validCnt ≤ 4 * cfg.pps := by
  rw [h.counted i hi]
  exact Nat.mul_le_mul_left 4 (blockCount_le ..)

/-- The counter of a superblock does not overflow. -/
theorem pps_lt (cfg : Settings) : 4 * cfg.pps < 4294967296 := by
  have h1 := cfg.grains_fit
  have h2 := Nat.mul_le_mul_left cfg.pps cfg.nos_ge
  omega

/-- A copy is given up. -/
theorem invalidate (h : Copies cfg bm copy) {page p : Nat} (hc : copy page = some p) :
    Copies cfg (invalidatePage cfg bm p) (Function.update copy page none) := by
  obtain ⟨hp, hv, hback⟩ := h.valid hc
  have hi := lt_dataPage_iff.mp hp
  have hval := @isValidPage_invalidatePage cfg bm p
  have hsblk : ∀ i, (invalidatePage cfg bm p).sblk i =
      if i = p / cfg.pps then { bm.sblk i with validCnt := sub32 (bm.sblk i).validCnt 4 }
      else bm.sblk i := fun i => by
    unfold invalidatePage Bm.setSblk
    by_cases hip : i = p / cfg.pps
    · subst hip
      simp
    · simp [hip]
  have hwp : ∀ i, ((invalidatePage cfg bm p).sblk i).wpOfft = (bm.sblk i).wpOfft := fun i => by
    rw [hsblk]
    split <;> rfl
  refine ⟨h.sSblk, h.eSblk, h.cursor, ?_, fun g hg => ?_, fun q hq hqv => ?_, fun q hq hqv => ?_,
    fun i hlt => ?_, fun i hlt => ?_⟩
  · refine (h.linked.drop hc).congr (fun q => ?_) fun q _ => rfl
    rw [hval]
    by_cases hqp : q = p
    · subst hqp
      simp
    · simp [hqp]
  · rw [hval]
    show setPageValid bm p false g = _
    unfold setPageValid
    by_cases hgp : g / 4 = p
    · simp [hgp]
    · simp [hgp, h.whole g hg]
  · rw [hval] at hqv
    by_cases hqp : q = p
    · simp [hqp] at hqv
    · exact h.labelled q hq (by simpa [hqp] using hqv)
  · rw [hval] at hqv
    rw [hwp]
    by_cases hqp : q = p
    · simp [hqp] at hqv
    · exact h.below q hq (by simpa [hqp] using hqv)
  -- The superblock of the page counts four grains less.
  · have hcount := blockCount_clear cfg.pps_pos hv i
    rw [hsblk, hval]
    by_cases hip : i = p / cfg.pps
    · rw [if_pos hip]
      rw [if_pos hip.symm] at hcount
      have hold := h.counted i hlt
      have hle := h.validCnt_le hlt
      have hfit := pps_lt cfg
      show sub32 (bm.sblk i).validCnt 4 = _
      rw [sub32_of_le (by omega) (by omega)]
      omega
    · rw [if_neg hip]
      rw [if_neg (Ne.symm hip), Nat.add_zero] at hcount
      rw [hcount]
      exact h.counted i hlt
  · rw [hwp]
    exact h.bounded i hlt

/-- A free page is written. -/
theorem validate (h : Copies cfg bm copy) {page p : Nat} (hp : p < cfg.dataPage)
    (hfree : isValidPage bm p = false) (hwp : p % cfg.pps < (bm.sblk (p / cfg.pps)).wpOfft)
    (hc : copy page = none) :
    Copies cfg ((validatePage cfg bm p).setOob (p * 4) ⟨true, page, 4096⟩)
      (Function.update copy page (some p)) := by
  have hi := lt_dataPage_iff.mp hp
  have hval : isValidPage ((validatePage cfg bm p).setOob (p * 4) ⟨true, page, 4096⟩) =
      Function.update (isValidPage bm) p true := @isValidPage_validatePage cfg bm p
  have hoob : ∀ q, ((validatePage cfg bm p).setOob (p * 4) ⟨true, page, 4096⟩).oob (q * 4) =
      if q = p then ⟨true, page, 4096⟩ else bm.oob (q * 4) := fun q => by
    unfold Bm.setOob validatePage Bm.setSblk
    by_cases hqp : q = p
    · subst hqp
      simp
    · have hne : q * 4 ≠ p * 4 := by omega
      simp [hqp, hne]
  have hsblk : ∀ i, ((validatePage cfg bm p).setOob (p * 4) ⟨true, page, 4096⟩).sblk i =
      if i = p / cfg.pps then { bm.sblk i with validCnt := (bm.sblk i).validCnt + 4 }
      else bm.sblk i := fun i => by
    unfold Bm.setOob validatePage Bm.setSblk
    by_cases hip : i = p / cfg.pps
    · subst hip
      simp
    · simp [hip]
  have hwps : ∀ i, (((validatePage cfg bm p).setOob (p * 4) ⟨true, page, 4096⟩).sblk i).wpOfft =
      (bm.sblk i).wpOfft := fun i => by
    rw [hsblk]
    split <;> rfl
  refine ⟨h.sSblk, h.eSblk, h.cursor, ?_, fun g hg => ?_, fun q hq hqv => ?_, fun q hq hqv => ?_,
    fun i hlt => ?_, fun i hlt => ?_⟩
  · refine (h.linked.add hc fun hl => ?_).congr (fun q => ?_) fun q _ => ?_
    · rw [hfree] at hl
      cases hl.2
    · rw [hval]
      by_cases hqp : q = p
      · subst hqp
        simp [hp]
      · simp [hqp]
    · rw [hoob]
      by_cases hqp : q = p
      · subst hqp
        simp
      · simp [hqp]
  · rw [hval]
    show setPageValid bm p true g = _
    unfold setPageValid
    by_cases hgp : g / 4 = p
    · simp [hgp]
    · simp [hgp, h.whole g hg]
  · rw [hoob]
    split
    · rfl
    · next hqp =>
      rw [hval] at hqv
      exact h.labelled q hq (by simpa [hqp] using hqv)
  · rw [hwps]
    by_cases hqp : q = p
    · rw [hqp]
      exact hwp
    · rw [hval] at hqv
      exact h.below q hq (by simpa [hqp] using hqv)
  -- The superblock of the page counts four grains more.
  · have hcount := blockCount_set cfg.pps_pos hfree i
    have hold := h.counted i hlt
    rw [hsblk, hval]
    by_cases hip : i = p / cfg.pps
    · rw [if_pos hip]
      rw [if_pos hip.symm] at hcount
      show (bm.sblk i).validCnt + 4 = _
      omega
    · rw [if_neg hip]
      rw [if_neg (Ne.symm hip), Nat.add_zero] at hcount
      rw [hcount]
      exact hold
  · rw [hwps]
    exact h.bounded i hlt

/-- The next page of a superblock that is not full. -/
theorem takePage (h : Copies cfg bm copy) {a : Nat} (ha : a < cfg.dataSblk)
    (hopen : (bm.sblk a).wpOfft < cfg.pps) :
    Copies cfg (getPageNum cfg bm a).2 copy ∧
      (getPageNum cfg bm a).1 < cfg.dataPage ∧
      isValidPage bm (getPageNum cfg bm a).1 = false ∧
      (getPageNum cfg bm a).1 / cfg.pps = a ∧
      (getPageNum cfg bm a).1 % cfg.pps = (bm.sblk a).wpOfft ∧
      ((getPageNum cfg bm a).2.sblk a).wpOfft = (bm.sblk a).wpOfft + 1 := by
  have hdiv : (getPageNum cfg bm a).1 / cfg.pps = a := sblkOfft2Ppa_div hopen
  have hmod : (getPageNum cfg bm a).1 % cfg.pps = (bm.sblk a).wpOfft :=
    sblkOfft2Ppa_mod hopen
  have hp : (getPageNum cfg bm a).1 < cfg.dataPage := by
    rw [lt_dataPage_iff, hdiv]
    exact ha
  have hsblk : ∀ i, (getPageNum cfg bm a).2.sblk i =
      if i = a then { bm.sblk i with wpOfft := (bm.sblk i).wpOfft + 1 } else bm.sblk i := by
    intro i
    unfold getPageNum Bm.setSblk
    by_cases hia : i = a
    · subst hia
      simp
    · simp [hia]
  refine ⟨⟨h.sSblk, h.eSblk, h.cursor, h.linked, h.whole, h.labelled, fun q hq hqv => ?_,
    fun i hi => ?_, fun i hi => ?_⟩, hp, ?_, hdiv, hmod, ?_⟩
  · have hlt := h.below q hq hqv
    rw [hsblk]
    split
    · exact Nat.lt_succ_of_lt hlt
    · exact hlt
  · rw [hsblk]
    split
    · exact h.counted i hi
    · exact h.counted i hi
  · rw [hsblk]
    split
    · next hia =>
      subst hia
      exact hopen
    · exact h.bounded i hi
  · -- Valid pages lie below the write pointer.
    by_contra hv
    have hlt := h.below _ hp (by simpa using hv)
    rw [hdiv, hmod] at hlt
    exact Nat.lt_irrefl _ hlt
  · rw [hsblk, if_pos rfl]

/-- A superblock without valid pages is trimmed. -/
theorem trim (h : Copies cfg bm copy) {t : Nat}
    (hfree : ∀ p, p / cfg.pps = t → isValidPage bm p = false) :
    Copies cfg (trimSegment cfg bm t) copy := by
  have hsblk : ∀ i, (trimSegment cfg bm t).sblk i =
      if i = t then { bm.sblk i with wpOfft := 0, validCnt := 0 } else bm.sblk i := fun i => by
    unfold trimSegment Bm.setSblk
    by_cases hit : i = t
    · subst hit
      simp
    · simp [hit]
  have hne : ∀ p, isValidPage bm p = true → p / cfg.pps ≠ t := fun p hv he => by
    rw [hfree p he] at hv
    cases hv
  -- A valid page is outside the block, so its record stays.
  have hoob : ∀ p, isValidPage bm p = true →
      (trimSegment cfg bm t).oob (p * 4) = bm.oob (p * 4) := by
    intro p hv
    refine if_neg fun he => hne p hv ?_
    rwa [grainSblk, Nat.mul_div_cancel _ (by decide)] at he
  refine ⟨h.sSblk, h.eSblk, h.cursor, ?_, h.whole, fun p hp hv => ?_, fun p hp hv => ?_,
    fun i hi => ?_, fun i hi => ?_⟩
  · exact h.linked.congr (fun _ => Iff.rfl) fun p hp => congrArg Oob.lpa (hoob p hp.2)
  · rw [hoob p hv]
    exact h.labelled p hp hv
  · rw [hsblk, if_neg (hne p hv)]
    exact h.below p hp hv
  · rw [hsblk]
    split
    · next hit =>
      have hzero : blockCount cfg.pps (isValidPage bm) i = 0 :=
        (blockCount_eq_zero cfg.pps_pos).mpr fun p hp => hfree p (hp.trans hit)
      show 0 = 4 * blockCount cfg.pps (isValidPage bm) i
      rw [hzero]
    · exact h.counted i hi
  · rw [hsblk]
    split
    · exact Nat.zero_le _
    · exact h.bounded i hi

end Copies

/-! ## Section 2: Translation GC -/

/-- The pointers without those of the pages that wait to be moved. -/
def without (copy : Nat → Option Nat) (pages : List Nat) (page : Nat) : Option Nat :=
  if page ∈ pages then none else copy page

/-- One page more is without copy. -/
theorem without_update (copy : Nat → Option Nat) (a : Nat) (pages : List Nat) :
    without (Function.update copy a none) pages = without copy (a :: pages) := by
  funext page
  unfold without
  by_cases hp : page = a
  · subst hp
    simp
  · simp [hp]

/-- And has one again. -/
theorem without_written {copy : Nat → Option Nat} {a : Nat} {pages : List Nat} (h : a ∉ pages)
    (v : Option Nat) : Function.update (without copy (a :: pages)) a v =
      without (Function.update copy a v) pages := by
  funext page
  unfold without
  by_cases hp : page = a
  · subst hp
    simp [h]
  · simp [hp]

/-- The write pointers and the partition of the translation pages are the same. -/
structure SameTblocks (bm bm' : Bm) : Prop where
  wpOfft : ∀ i, (bm'.sblk i).wpOfft = (bm.sblk i).wpOfft
  part : bm'.mapPart = bm.mapPart

theorem SameTblocks.invalidatePage (bm : Bm) (p : Nat) :
    SameTblocks bm (invalidatePage cfg bm p) := by
  refine ⟨fun i => ?_, rfl⟩
  unfold HashKv.invalidatePage Bm.setSblk
  by_cases hi : i = p / cfg.pps
  · subst hi
    simp
  · simp [hi]

/-- The first half of a translation GC: the valid pages from `ppa` on lose their validity
    and wait to be moved. -/
theorem Copies.collect {t : Nat} : ∀ {n : Nat} {ssd : Ssd} {bm bm' : Bm} {ppa : Nat}
    {pages : List Nat} {copy : Nat → Option Nat}, Copies cfg bm copy →
    (∀ q, ppa ≤ q → q < ppa + n → q / cfg.pps = t) → t < cfg.dataSblk →
    collectTpages cfg ssd bm ppa n = some (bm', pages) →
      pages.Nodup ∧ (∀ a ∈ pages, copy a ≠ none) ∧ Copies cfg bm' (without copy pages) ∧
      SameData cfg bm bm' ∧ SameTblocks bm bm' ∧
      (∀ q, isValidPage bm' q = (isValidPage bm q && !decide (ppa ≤ q ∧ q < ppa + n))) ∧
      pages.length + blockCount cfg.pps (isValidPage bm') t =
        blockCount cfg.pps (isValidPage bm) t
  | 0, ssd, bm, bm', ppa, pages, copy, h, _, _, hc => by
      cases hc
      refine ⟨List.nodup_nil, (fun _ ha => by cases ha), h, .refl _, ⟨fun _ => rfl, rfl⟩,
        fun q => ?_, Nat.zero_add _⟩
      have hq : ¬(ppa ≤ q ∧ q < ppa + 0) := by omega
      rw [decide_eq_false hq]
      simp
  | n + 1, ssd, bm, bm', ppa, pages, copy, h, hr, ht, hc => by
      have hr' : ∀ q, ppa + 1 ≤ q → q < ppa + 1 + n → q / cfg.pps = t :=
        fun q hlo hhi => hr q (by omega) (by omega)
      have hsplit : ∀ q, decide (ppa ≤ q ∧ q < ppa + (n + 1)) =
          (decide (q = ppa) || decide (ppa + 1 ≤ q ∧ q < ppa + 1 + n)) := fun q => by
        rw [← Bool.decide_or]
        exact decide_eq_decide.mpr (by omega)
      unfold collectTpages at hc
      split at hc
      · next hv =>
        split at hc
        · obtain ⟨⟨bm₁, rest⟩, hrest, he⟩ := Option.map_eq_some_iff.mp hc
          cases he
          have hppa : ppa < cfg.dataPage := by
            rw [lt_dataPage_iff, hr ppa (Nat.le_refl _) (by omega)]
            exact ht
          have howner := h.owner hppa hv
          have h₁ := h.invalidate howner
          have hval := @isValidPage_invalidatePage cfg bm ppa
          obtain ⟨hnd, hne, hcop, hsame, hblk, hvalid, hcount⟩ := h₁.collect hr' ht hrest
          rw [without_update] at hcop
          -- The page on the label has lost its copy, so it does not come again.
          have hnot : (bm.oob (ppa * 4)).lpa ∉ rest := fun hmem =>
            hne _ hmem (Function.update_self ..)
          refine ⟨List.nodup_cons.mpr ⟨hnot, hnd⟩, fun a ha => ?_, hcop,
            (SameData.invalidatePage bm hppa).trans hsame,
            ⟨fun i => (hblk.wpOfft i).trans ((SameTblocks.invalidatePage bm ppa).wpOfft i),
              hblk.part⟩, fun q => ?_, ?_⟩
          · rcases List.mem_cons.mp ha with rfl | ha
            · rw [howner]
              exact Option.some_ne_none _
            · have hne' := hne a ha
              have hpage : a ≠ (bm.oob (ppa * 4)).lpa := by
                rintro rfl
                exact hnot ha
              rwa [Function.update_of_ne hpage] at hne'
          · rw [hvalid, hval, hsplit]
            by_cases hq : q = ppa
            · simp [hq]
            · simp [hq]
          · have hclear := blockCount_clear cfg.pps_pos hv t
            rw [if_pos (hr ppa (Nat.le_refl _) (by omega))] at hclear
            rw [hval] at hcount
            rw [List.length_cons]
            omega
        · cases hc
      · next hv =>
        obtain ⟨hnd, hne, hcop, hsame, hblk, hvalid, hcount⟩ := h.collect hr' ht hc
        refine ⟨hnd, hne, hcop, hsame, hblk, fun q => ?_, hcount⟩
        rw [hvalid, hsplit]
        by_cases hq : q = ppa
        · subst hq
          simp [hv]
        · simp [hq]

/-- The table differs in the addresses of the flash copies only. -/
structure Moved (c c' : Cold) : Prop where
  memTable : c'.memTable = c.memTable
  copyCurrent : c'.copyCurrent = c.copyCurrent
  cmt : ∀ page, ∃ t, c'.cmt page = { c.cmt page with tPpa := t } ∧
    (t = none ↔ (c.cmt page).tPpa = none)

theorem Moved.refl (c : Cold) : Moved c c := ⟨rfl, rfl, fun _ => ⟨_, rfl, Iff.rfl⟩⟩

theorem Moved.trans {c c' c'' : Cold} (h : Moved c c') (h' : Moved c' c'') : Moved c c'' where
  memTable := h'.memTable.trans h.memTable
  copyCurrent := h'.copyCurrent.trans h.copyCurrent
  cmt page := by
    obtain ⟨t, ht, hn⟩ := h.cmt page
    obtain ⟨u, hu, hm⟩ := h'.cmt page
    rw [ht] at hu hm
    exact ⟨u, hu, hm.trans hn⟩

/-- A page that has a copy gets another one. -/
theorem Moved.setTPpa (c : Cold) {page : Nat} (h : (c.cmt page).tPpa ≠ none) (ppa : Nat) :
    Moved c (c.setTPpa page (some ppa)) := by
  refine ⟨rfl, rfl, fun q => ?_⟩
  unfold Cold.setTPpa
  rw [Cold.cmt_setCmt]
  split
  · next hq =>
    subst hq
    exact ⟨some ppa, rfl, iff_of_false (Option.some_ne_none _) h⟩
  · exact ⟨_, rfl, Iff.rfl⟩

/-- `t_ppa` of the translation pages. -/
def Cold.copy (c : Cold) (page : Nat) : Option Nat := (c.cmt page).tPpa

/-- What that does to the copies. -/
theorem Cold.copy_setTPpa (c : Cold) (page : Nat) (t : Option Nat) :
    (c.setTPpa page t).copy = Function.update c.copy page t := by
  funext q
  unfold Cold.copy Cold.setTPpa
  rw [Cold.cmt_setCmt]
  by_cases hq : q = page
  · subst hq
    simp
  · simp [hq]

/-- What the second half of a translation GC leaves alone. -/
structure TpagesMoved (cfg : Settings) (rsv n : Nat) (s s' : Store) : Prop where
  data : SameData cfg s.bm s'.bm
  moved : Moved s.cold s'.cold
  hot : s'.hot = s.hot
  part : s'.bm.mapPart = s.bm.mapPart
  rsvOfft : (s'.bm.sblk rsv).wpOfft = (s.bm.sblk rsv).wpOfft + n
  wpOfft : ∀ i, i ≠ rsv → (s'.bm.sblk i).wpOfft = (s.bm.sblk i).wpOfft
  valid : ∀ q, q / cfg.pps ≠ rsv → isValidPage s'.bm q = isValidPage s.bm q

/-- The second half: the pages are written to the reserve, one after the other. -/
theorem Copies.moves {rsv : Nat} (hrsv : rsv < cfg.dataSblk) : ∀ {pages : List Nat} {s : Store},
    Copies cfg s.bm (without s.cold.copy pages) → pages.Nodup →
    (∀ a ∈ pages, s.cold.copy a ≠ none) →
    (s.bm.sblk rsv).wpOfft + pages.length ≤ cfg.pps →
      Copies cfg (pages.foldl (moveTpage cfg rsv) s).bm
        (pages.foldl (moveTpage cfg rsv) s).cold.copy ∧
      TpagesMoved cfg rsv pages.length s (pages.foldl (moveTpage cfg rsv) s)
  | [], s, h, _, _, _ =>
      ⟨h, .refl _, .refl _, rfl, rfl, rfl, fun _ _ => rfl, fun _ _ => rfl⟩
  | page :: pages, s, h, hnd, hne, hroom => by
      obtain ⟨hnot, hnd⟩ := List.nodup_cons.mp hnd
      rw [List.length_cons] at hroom
      obtain ⟨h₁, hp, hfree, hdiv, hmod, hwp⟩ := h.takePage hrsv (by omega)
      -- The page was taken, so it is below the write pointer.
      have hbelow : (getPageNum cfg s.bm rsv).1 % cfg.pps <
          ((getPageNum cfg s.bm rsv).2.sblk
            ((getPageNum cfg s.bm rsv).1 / cfg.pps)).wpOfft := by
        rw [hdiv, hmod, hwp]
        exact Nat.lt_succ_self _
      have h₂ := h₁.validate hp hfree hbelow (if_pos (List.mem_cons_self ..))
      rw [without_written hnot, ← Cold.copy_setTPpa] at h₂
      have hkeep : ∀ a ∈ pages, (moveTpage cfg rsv s page).cold.copy a ≠ none := fun a ha => by
        have hpage : a ≠ page := by
          rintro rfl
          exact hnot ha
        show (s.cold.setTPpa page _).copy a ≠ none
        rw [Cold.copy_setTPpa, Function.update_of_ne hpage]
        exact hne a (List.mem_cons_of_mem _ ha)
      have hwp₂ : ∀ i, ((moveTpage cfg rsv s page).bm.sblk i).wpOfft =
          ((getPageNum cfg s.bm rsv).2.sblk i).wpOfft := fun i => by
        unfold moveTpage validatePage Bm.setOob Bm.setSblk
        dsimp only
        by_cases hi : i = (getPageNum cfg s.bm rsv).1 / cfg.pps
        · subst hi
          simp
        · simp [hi]
      have hwprsv := (hwp₂ rsv).trans hwp
      obtain ⟨h₃, hmoved⟩ := Copies.moves hrsv (s := moveTpage cfg rsv s page) h₂ hnd hkeep
        (by rw [hwprsv]; omega)
      refine ⟨h₃, ?_, ?_, hmoved.hot, hmoved.part, ?_, fun i hi => ?_, fun q hq => ?_⟩
      · have hpage := (SameData.validatePage (getPageNum cfg s.bm rsv).2 hp).trans
          (.setOob _ (lt_dataGrain hp) ⟨true, page, 4096⟩)
        exact ((SameData.getPageNum s.bm hrsv).trans hpage).trans hmoved.data
      · exact (Moved.setTPpa s.cold (hne page (List.mem_cons_self ..)) _).trans hmoved.moved
      · rw [List.foldl_cons, hmoved.rsvOfft, hwprsv, List.length_cons]
        omega
      · rw [List.foldl_cons, hmoved.wpOfft i hi, hwp₂]
        exact congrArg Superblock.wpOfft (Function.update_of_ne hi ..)
      · have hqp : q ≠ (getPageNum cfg s.bm rsv).1 := by
          rintro rfl
          exact hq hdiv
        rw [List.foldl_cons, hmoved.valid q hq]
        have hval := @isValidPage_validatePage cfg (getPageNum cfg s.bm rsv).2
          (getPageNum cfg s.bm rsv).1
        exact (congrFun hval q).trans (Function.update_of_ne hqp ..)

/-! ## Section 3: Allocation -/

/-- Trimming a map superblock. -/
theorem SameData.trimSegment (bm : Bm) {t : Nat} (ht : t < cfg.dataSblk) :
    SameData cfg bm (trimSegment cfg bm t) where
  bitmap _ _ := rfl
  oob g hg := by
    refine if_neg fun he => ?_
    have hlo := dataGrain_le_iff.mp hg
    omega
  sblk i hi := Function.update_of_ne (by omega) ..
  part := rfl
  stream := rfl

/-- The cursor of the map partition moves. -/
theorem Copies.setMapPart {bm : Bm} {copy : Nat → Option Nat} (h : Copies cfg bm copy) {pt : Part}
    (hs : pt.sSblk = bm.mapPart.sSblk) (he : pt.eSblk = bm.mapPart.eSblk)
    (hc : ∀ a, pt.activeSblk = some a → a < cfg.dataSblk) :
    Copies cfg (bm.setPart .map pt) copy :=
  ⟨hs.trans h.sSblk, he ▸ h.eSblk, hc, h.linked, h.whole, h.labelled, h.below, h.counted, h.bounded⟩

/-- The copies of the pages of a store, with the active and the reserved superblock. -/
structure Store.Copied (cfg : Settings) (s : Store) : Prop
    extends Copies cfg s.bm s.cold.copy where
  reserve : s.tReserve = some s.bm.mapPart.sblkRsv
  rsvBlock : s.bm.mapPart.sblkRsv < cfg.dataSblk
  rsvEmpty : (s.bm.sblk s.bm.mapPart.sblkRsv).wpOfft = 0
  active : ∀ a, s.tActive = some a → a < cfg.dataSblk ∧ a ≠ s.bm.mapPart.sblkRsv

/-- What an allocation of translation pages changes outside the MAP partition. -/
structure TpageStep (cfg : Settings) (s s' : Store) : Prop where
  data : SameData cfg s.bm s'.bm
  moved : Moved s.cold s'.cold
  hot : s'.hot = s.hot

namespace Store.Copied

variable {s s' : Store}

/-- The victim is a map superblock with an invalid page, and not the reserve. -/
theorem target_lt (h : s.Copied cfg) {idx t : Nat} (ht : getGcTarget cfg s.bm .map idx = some t) :
    t < cfg.dataSblk ∧ t ≠ s.bm.mapPart.sblkRsv ∧
      (s.bm.sblk t).validCnt < (s.bm.sblk t).wpOfft * 4 := by
  obtain ⟨-, hhi, hcand, hv⟩ := getGcTarget_spec ht
  have he := h.eSblk
  change t ≤ s.bm.mapPart.eSblk at hhi
  have hrsv : t ≠ s.bm.mapPart.sblkRsv := by
    simp only [gcCandidate, Bm.part, reduceCtorEq, and_false, if_false, Bool.and_eq_true] at hcand
    exact of_decide_eq_true hcand.1
  exact ⟨by omega, hrsv, hv⟩

/-- A translation GC empties its victim into the reserve, where room is left, and trims it. -/
theorem tpageGc_split (h : s.Copied cfg) (hg : HashKv.tpageGc cfg s = some s') :
    ∃ target bm pages s₁, getGcTarget cfg s.bm .map 0 = some target ∧ target < cfg.dataSblk ∧
      target ≠ s.bm.mapPart.sblkRsv ∧ pages.length < cfg.pps ∧
      collectTpages cfg s.ssd s.bm (sblkOfft2Ppa cfg target 0) cfg.pps = some (bm, pages) ∧
      pages.foldl (moveTpage cfg s.bm.mapPart.sblkRsv) { s with bm := bm } = s₁ ∧
      (bm.sblk s.bm.mapPart.sblkRsv).wpOfft = 0 ∧ SameData cfg s.bm bm ∧ SameTblocks s.bm bm ∧
      (∀ p, p / cfg.pps = target → isValidPage s₁.bm p = false) ∧
      Copies cfg s₁.bm s₁.cold.copy ∧
      TpagesMoved cfg s.bm.mapPart.sblkRsv pages.length { s with bm := bm } s₁ ∧
      s' = { s₁ with
        bm := changeReserve (HashKv.trimSegment cfg s₁.bm target) .map target
        ssd := ssdTrimBlock cfg (ssdWrite cfg s₁.ssd
          (sblkOfft2Ppa cfg s.bm.mapPart.sblkRsv (bm.sblk s.bm.mapPart.sblkRsv).wpOfft)
          pages.length).1 target
        tActive := some s.bm.mapPart.sblkRsv
        tReserve := some target } := by
  unfold HashKv.tpageGc at hg
  simp only [Option.bind_eq_bind, Option.bind_eq_some_iff, Option.pure_def, Option.some.injEq] at hg
  obtain ⟨target, ht, rsv, hr, ⟨bm, pages⟩, hc, rfl⟩ := hg
  obtain ⟨hlt, hne, hvalid⟩ := h.target_lt ht
  obtain rfl : s.bm.mapPart.sblkRsv = rsv := Option.some.inj (h.reserve.symm.trans hr)
  have hrange : ∀ q, q / cfg.pps = target ↔
      sblkOfft2Ppa cfg target 0 ≤ q ∧ q < sblkOfft2Ppa cfg target 0 + cfg.pps := fun q => by
    rw [Nat.div_eq_iff cfg.pps_pos]
    unfold sblkOfft2Ppa
    have hpos := cfg.pps_pos
    omega
  obtain ⟨hnd, hcopy, hcop, hdata, hblk, hgone, hcount⟩ :=
    h.toCopies.collect (fun q hlo hhi => (hrange q).mpr ⟨hlo, hhi⟩) hlt hc
  have hfree : ∀ p, p / cfg.pps = target → isValidPage bm p = false := fun p hp => by
    rw [hgone, decide_eq_true ((hrange p).mp hp)]
    simp
  -- The victim has an invalid page, so the reserve has room behind the moved ones.
  have hlen : pages.length < cfg.pps := by
    rw [(blockCount_eq_zero cfg.pps_pos).mpr hfree, Nat.add_zero] at hcount
    have hcnt := h.counted target hlt
    have hle := h.bounded target hlt
    omega
  have hwp : (bm.sblk s.bm.mapPart.sblkRsv).wpOfft = 0 := (hblk.wpOfft _).trans h.rsvEmpty
  obtain ⟨hmoved, hm⟩ := Copies.moves h.rsvBlock (s := { s with bm := bm }) hcop hnd hcopy
    (by dsimp only; omega)
  exact ⟨target, bm, pages, _, ht, hlt, hne, hlen, hc, rfl, hwp, hdata, hblk,
    fun p hp => (hm.valid p (hp ▸ hne)).trans (hfree p hp), hmoved, hm, rfl⟩

/-- A translation GC moves the live pages of its victim into the reserve. -/
theorem tpageGc (h : s.Copied cfg) (hg : HashKv.tpageGc cfg s = some s') :
    s'.Copied cfg ∧ TpageStep cfg s s' ∧
      ∃ a, s'.tActive = some a ∧ (s'.bm.sblk a).wpOfft < cfg.pps := by
  obtain ⟨target, bm, pages, s₁, -, hlt, hne, hlen, -, -, hwp, hdata, hblk, hfree,
    hmoved, hm, rfl⟩ :=
    h.tpageGc_split hg
  have hpart : s₁.bm.mapPart = s.bm.mapPart := hm.part.trans hblk.part
  have htrim := hmoved.trim hfree
  have hsblk : ∀ i, i ≠ target →
      ((changeReserve (trimSegment cfg s₁.bm target) .map target).sblk i).wpOfft =
        (s₁.bm.sblk i).wpOfft :=
    fun i hi => congrArg Superblock.wpOfft (Function.update_of_ne hi ..)
  have hopen := hm.rsvOfft
  dsimp only at hopen
  rw [hwp, Nat.zero_add] at hopen
  refine ⟨⟨?_, rfl, hlt, ?_, fun a ha => ?_⟩, ⟨?_, hm.moved, hm.hot⟩, _, rfl, ?_⟩
  · exact htrim.setMapPart (by rfl) (by rfl) fun a ha => htrim.cursor a ha
  · show (Function.update s₁.bm.sblk target _ target).wpOfft = 0
    rw [Function.update_self]
  · cases ha
    exact ⟨h.rsvBlock, Ne.symm hne⟩
  · exact hdata.trans (hm.data.trans ((SameData.trimSegment s₁.bm hlt).trans (.setMapPart _ _)))
  · show ((changeReserve (trimSegment cfg s₁.bm target) .map target).sblk _).wpOfft < cfg.pps
    rw [hsblk _ (Ne.symm hne), hopen]
    exact hlen

/-- After a switch the active superblock has room. -/
theorem tSwitch (h : s.Copied cfg) (ha : HashKv.tSwitch cfg s = some s') :
    s'.Copied cfg ∧ TpageStep cfg s s' ∧
      ∀ a, s'.tActive = some a → (s'.bm.sblk a).wpOfft < cfg.pps := by
  unfold HashKv.tSwitch at ha
  split at ha
  · split at ha
    · obtain ⟨hc, hstep, b, hb, hopen⟩ := h.tpageGc ha
      refine ⟨hc, hstep, fun a hact => ?_⟩
      rw [hb] at hact
      cases hact
      exact hopen
    -- A free superblock.
    · obtain ⟨⟨i, bm⟩, hi, rfl⟩ := Option.map_eq_some_iff.mp ha
      have he := h.eSblk
      obtain ⟨-, hhi, hu, free, rfl⟩ := @getActiveSblk_spec cfg s.bm bm .map i
        (fun a hcur => by
          have hlt := h.cursor a hcur
          have hs := h.sSblk
          show s.bm.mapPart.sSblk ≤ a ∧ a ≤ s.bm.mapPart.eSblk
          omega)
        (fun _ => Or.inl h.sSblk) hi
      change i ≤ s.bm.mapPart.eSblk at hhi
      have hlt : i < cfg.dataSblk := by omega
      simp only [usable, Bm.part, reduceCtorEq, and_false, if_false, Bool.and_eq_true,
        Bool.not_eq_true', checkFull, decide_eq_false_iff_not, Nat.not_le] at hu
      refine ⟨⟨h.toCopies.setMapPart (by rfl) (by rfl) fun a hact => ?_, h.reserve, h.rsvBlock,
        h.rsvEmpty, fun a hact => ?_⟩, ⟨.setMapPart _ _, .refl _, rfl⟩, fun a hact => ?_⟩
      · cases hact
        exact hlt
      · cases hact
        exact ⟨hlt, of_decide_eq_true hu.1⟩
      · cases hact
        exact hu.2
  · next hall =>
    cases ha
    refine ⟨h, ⟨.refl _, .refl _, rfl⟩, fun a hact => ?_⟩
    simpa [hact, checkFull] using hall

/-- `tp_alloc` returns a free page of the MAP partition. -/
theorem tpAlloc {ppa : Nat} (h : s.Copied cfg) (ha : HashKv.tpAlloc cfg s = some (ppa, s')) :
    s'.Copied cfg ∧ TpageStep cfg s s' ∧ ppa < cfg.dataPage ∧ isValidPage s'.bm ppa = false ∧
      ppa % cfg.pps < (s'.bm.sblk (ppa / cfg.pps)).wpOfft := by
  unfold HashKv.tpAlloc at ha
  simp only [Option.bind_eq_bind, Option.bind_eq_some_iff] at ha
  obtain ⟨s₁, h₁, a, hact, he⟩ := ha
  obtain ⟨hc, hstep, hopen⟩ := h.tSwitch h₁
  obtain ⟨hlt, hne⟩ := hc.active a hact
  obtain ⟨htake, hp, hfree, hdiv, hmod, hwp⟩ := hc.toCopies.takePage hlt (hopen a hact)
  cases he
  have hrsv : ((getPageNum cfg s₁.bm a).2.sblk s₁.bm.mapPart.sblkRsv).wpOfft = 0 := by
    refine (congrArg Superblock.wpOfft (Function.update_of_ne (Ne.symm hne) ..)).trans hc.rsvEmpty
  refine ⟨⟨htake, hc.reserve, hc.rsvBlock, hrsv, hc.active⟩,
    ⟨hstep.data.trans (.getPageNum _ hlt), hstep.moved, hstep.hot⟩, hp, hfree, ?_⟩
  show (getPageNum cfg s₁.bm a).1 % cfg.pps <
    ((getPageNum cfg s₁.bm a).2.sblk ((getPageNum cfg s₁.bm a).1 / cfg.pps)).wpOfft
  rw [hdiv, hmod, hwp]
  exact Nat.lt_succ_self _

end Store.Copied

/-- Moving pages takes no copy away and makes none. -/
theorem Moved.copy_eq_none {c c' : Cold} (h : Moved c c') (page : Nat) :
    c'.copy page = none ↔ c.copy page = none := by
  obtain ⟨t, ht, hn⟩ := h.cmt page
  unfold Cold.copy
  rw [ht]
  exact hn

/-- A written page has its copy there. -/
theorem Cold.copy_written (c : Cold) (page ppa : Nat) :
    (c.written page ppa).copy = Function.update c.copy page (some ppa) := by
  funext q
  show ((c.setCmt page _).cmt q).tPpa = _
  rw [Cold.cmt_setCmt]
  by_cases hq : q = page
  · subst hq
    simp
  · simp [hq, Cold.copy]

/-- Writing back a page that has no copy. -/
theorem Store.Copied.writeTpage {s s' : Store} {page : Nat} (h : s.Copied cfg)
    (hn : s.cold.copy page = none) (hw : s.writeTpage cfg page = some s') :
    s'.Copied cfg ∧ SameData cfg s.bm s'.bm ∧ s'.hot = s.hot ∧
      ∃ c ppa, Moved s.cold c ∧ s'.cold = c.written page ppa := by
  obtain ⟨⟨ppa, s₁⟩, ha, rfl⟩ := Option.map_eq_some_iff.mp hw
  obtain ⟨hc, hstep, hp, hfree, hwp⟩ := h.tpAlloc ha
  have hwritten := hc.toCopies.validate hp hfree hwp ((hstep.moved.copy_eq_none page).mpr hn)
  rw [← Cold.copy_written] at hwritten
  have hblk : ∀ i, ((HashKv.validatePage cfg s₁.bm ppa).sblk i).wpOfft = (s₁.bm.sblk i).wpOfft :=
    fun i => by
      unfold HashKv.validatePage Bm.setSblk
      by_cases hi : i = ppa / cfg.pps
      · subst hi
        simp
      · simp [hi]
  refine ⟨⟨hwritten, hc.reserve, hc.rsvBlock, (hblk _).trans hc.rsvEmpty, hc.active⟩, ?_, hstep.hot,
    s₁.cold, ppa, hstep.moved, rfl⟩
  exact hstep.data.trans ((SameData.validatePage s₁.bm hp).trans
    (.setOob _ (lt_dataGrain hp) ⟨true, page, 4096⟩))

/-! ## Section 4: The initial state -/

/-- At first there are no copies. -/
theorem bmZero_copies (cfg : Settings) : Copies cfg (bmZero cfg) fun _ => none where
  sSblk := rfl
  eSblk := rfl
  cursor _ ha := by cases ha
  linked page p := iff_of_false (by simp) fun hl => by
    have hv := hl.1.2
    cases hv
  whole _ _ := rfl
  labelled p _ hv := by cases hv
  below p _ hv := by cases hv
  counted i _ := by
    have hzero := (blockCount_eq_zero (v := isValidPage (bmZero cfg)) (i := i) cfg.pps_pos).mpr
      fun _ _ => rfl
    rw [hzero]
    rfl
  bounded _ _ := Nat.zero_le _

/-- The set-up of the data path does not touch the map side. -/
theorem initReserve_map {bm bm' : Bm} (z : InZone cfg bm) (hs : Startable cfg bm)
    (h : initReserve cfg bm = some bm') : SameMap cfg bm bm' := by
  obtain ⟨⟨i, bm₁⟩, ha, rfl⟩ := Option.map_eq_some_iff.mp h
  obtain ⟨hi, -, -, free, rfl⟩ := z.getActiveSblk hs ha
  exact (SameMap.setDataPart bm _).trans ((SameMap.setSblk _ hi.1 _).trans (.setDataPart _ _))

theorem initStream_map {bm bm' : Bm} {idx : Nat} (z : InZone cfg bm) (hs : Startable cfg bm)
    (h : initStream cfg bm idx = some bm') : SameMap cfg bm bm' := by
  obtain ⟨⟨i, bm₁⟩, ha, rfl⟩ := Option.map_eq_some_iff.mp h
  obtain ⟨hi, -, -, free, rfl⟩ := z.getActiveSblk hs ha
  exact (SameMap.setDataPart bm _).trans ((SameMap.setSblk _ hi.1 _).trans (.setStream _ idx _))

/-- The set-up of the streams leaves the MAP partition alone. -/
theorem bmInit_map {bm : Bm} (h : bmInit cfg = some bm) : SameMap cfg (bmZero cfg) bm := by
  unfold bmInit at h
  split at h
  · simp only [Option.bind_eq_bind, Option.bind_eq_some_iff] at h
    obtain ⟨bm₁, h₁, h₂⟩ := h
    let before : Bm → Prop := fun b =>
      InZone cfg b ∧ Startable cfg b ∧ SameMap cfg (bmZero cfg) b
    let after : Bm → Prop := fun b =>
      InZone cfg b ∧ b.dataPart.activeSblk ≠ none ∧ SameMap cfg (bmZero cfg) b
    have hstart : ∀ {b : Bm}, after b → before b :=
      fun hb => ⟨hb.1, fun hn => absurd hn hb.2.1, hb.2.2⟩
    have hr : after bm₁ := by
      refine foldlM_last (P := before) (Q := after) hstart (fun hb hi => ?_) (by decide)
        ⟨bmZero_inZone cfg, bmZero_startable cfg, .refl _⟩ h₁
      obtain ⟨hz, hne, -⟩ := initReserve_inZone hb.1 hb.2.1 hi
      exact ⟨hz, hne, hb.2.2.trans (initReserve_map hb.1 hb.2.1 hi)⟩
    obtain ⟨-, -, hm⟩ : after bm := by
      refine foldlM_last (P := before) (Q := after) hstart (fun hb hi => ?_) (by decide)
        (hstart hr) h₂
      obtain ⟨hz, hne, -, -⟩ := initStream_inZone hb.1 hb.2.1 hi
      exact ⟨hz, hne, hb.2.2.trans (initStream_map hb.1 hb.2.1 hi)⟩
    exact hm
  · cases h
    exact .refl _

/-- A created store has no copies. -/
theorem create_copied {garbage : Nat → Key} {f : Ftl} (h : Ftl.create cfg garbage = some f) :
    f.store.Copied cfg := by
  obtain ⟨s, hs, rfl⟩ := Option.map_eq_some_iff.mp h
  obtain ⟨bm, hb, rfl⟩ := Option.map_eq_some_iff.mp hs
  have hm := bmInit_map hb
  have hrsv : bm.mapPart.sblkRsv = 0 := by
    rw [hm.part]
    rfl
  have hpos : 0 < cfg.dataSblk := Nat.succ_pos _
  refine ⟨(bmZero_copies cfg).map hm, rfl, ?_, ?_, fun a ha => by cases ha⟩
  · show bm.mapPart.sblkRsv < cfg.dataSblk
    rw [hrsv]
    exact hpos
  · show (bm.sblk bm.mapPart.sblkRsv).wpOfft = 0
    rw [hrsv, hm.sblk 0 hpos]
    rfl

end AggreKV.HashKv
