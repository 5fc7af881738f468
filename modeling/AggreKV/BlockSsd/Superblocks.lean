import AggreKV.Lib.Counting
import AggreKV.BlockSsd.Page
import Mathlib.Data.List.Induction

/-! # Superblocks of the block SSD

    Both partitions hand out pages the same way: from the write pointer of
    one superblock, and by a collection that moves live pages into the
    reserve.

    * `Tidy`: valid pages lie below the write pointers, `valid_cnt` counts them.
    * `Roles`: the cursor, the active superblock and the reserve of a partition.
    * `SameZone`: what an operation on the other partition does. -/

namespace AggreKV.BlockSsd

open HashKv (Oob PartNum firstSblk firstSblk_spec exists_firstSblk sub32 sub32_of_le)

variable {cfg : Settings}

/-! ## Section 1: Partitions -/

/-- The superblocks of a partition. -/
def InZone (cfg : Settings) : PartNum → Nat → Prop
  | .map, i => i ≤ cfg.nos / 20
  | .data, i => cfg.nos / 20 < i ∧ i < cfg.nos

/-- The partitions share no superblock. -/
theorem not_inZone_data {i : Nat} (h : InZone cfg .map i) : ¬InZone cfg .data i :=
  fun hd => Nat.not_lt.mpr h hd.1

theorem not_inZone_map {i : Nat} (h : InZone cfg .data i) : ¬InZone cfg .map i :=
  fun hm => not_inZone_data hm h

/-- `bm'` agrees with `bm` on a partition. -/
structure SameZone (cfg : Settings) (pn : PartNum) (bm bm' : Bm) : Prop where
  part : bm'.part pn = bm.part pn
  sblk : ∀ i, InZone cfg pn i → bm'.sblk i = bm.sblk i
  valid : ∀ p, InZone cfg pn (p / cfg.pps) → bm'.validBitmap p = bm.validBitmap p
  oob : ∀ p, InZone cfg pn (p / cfg.pps) → bm'.oob p = bm.oob p

namespace SameZone

variable {pn pn' : PartNum} {bm bm' bm'' : Bm}

theorem refl (bm : Bm) : SameZone cfg pn bm bm :=
  ⟨rfl, fun _ _ => rfl, fun _ _ => rfl, fun _ _ => rfl⟩

theorem trans (h : SameZone cfg pn bm bm') (h' : SameZone cfg pn bm' bm'') :
    SameZone cfg pn bm bm'' where
  part := h'.part.trans h.part
  sblk i hi := (h'.sblk i hi).trans (h.sblk i hi)
  valid p hp := (h'.valid p hp).trans (h.valid p hp)
  oob p hp := (h'.oob p hp).trans (h.oob p hp)

theorem setSblk {i : Nat} {b : Superblock} (hi : ¬InZone cfg pn i) :
    SameZone cfg pn bm (bm.setSblk i b) where
  part := by cases pn <;> rfl
  sblk j hj := by
    have hne : j ≠ i := fun he => hi (he ▸ hj)
    exact Function.update_of_ne hne ..
  valid _ _ := rfl
  oob _ _ := rfl

theorem setValid {p n : Nat} {v : Bool} (hp : ¬InZone cfg pn (p / cfg.pps)) :
    SameZone cfg pn bm (bm.setValid cfg p v n) where
  part := by cases pn <;> rfl
  sblk := (setSblk hp).sblk
  valid q hq := by
    have hne : q ≠ p := fun he => hp (he ▸ hq)
    exact Function.update_of_ne hne ..
  oob _ _ := rfl

theorem setOob {p : Nat} {o : Oob} (hp : ¬InZone cfg pn (p / cfg.pps)) :
    SameZone cfg pn bm (bm.setOob p o) where
  part := by cases pn <;> rfl
  sblk _ _ := rfl
  valid _ _ := rfl
  oob q hq := by
    have hne : q ≠ p := fun he => hp (he ▸ hq)
    exact Function.update_of_ne hne ..

theorem setPart {pt : Part} (hne : pn' ≠ pn) : SameZone cfg pn bm (bm.setPart pn' pt) where
  part := by
    cases pn <;> cases pn'
    · exact absurd rfl hne
    · rfl
    · rfl
    · exact absurd rfl hne
  sblk _ _ := by cases pn' <;> rfl
  valid _ _ := by cases pn' <;> rfl
  oob _ _ := by cases pn' <;> rfl

theorem invalidatePage {p : Nat} (hp : ¬InZone cfg pn (p / cfg.pps)) :
    SameZone cfg pn bm (invalidatePage cfg bm p) :=
  setValid hp

theorem trimSegment {i : Nat} (hi : ¬InZone cfg pn i) :
    SameZone cfg pn bm (trimSegment cfg bm i) where
  part := by cases pn <;> rfl
  sblk := (setSblk hi).sblk
  valid _ _ := rfl
  oob q hq := by
    have hne : q / cfg.pps ≠ i := fun he => hi (he ▸ hq)
    exact if_neg hne

end SameZone

/-! ## Section 2: Valid pages and write pointers -/

/-- The pages of a partition and the counters of its superblocks agree. -/
structure Tidy (cfg : Settings) (pn : PartNum) (bm : Bm) : Prop where
  wp_le : ∀ i, InZone cfg pn i → (bm.sblk i).wpOfft ≤ cfg.pps
  below : ∀ p, InZone cfg pn (p / cfg.pps) → bm.validBitmap p = true →
    p % cfg.pps < (bm.sblk (p / cfg.pps)).wpOfft
  counted : ∀ i, InZone cfg pn i →
    (bm.sblk i).validCnt = blockCount cfg.pps bm.validBitmap i

/-- A zone is tidy by what is in it. -/
theorem Tidy.congr {pn : PartNum} {bm bm' : Bm} (h : Tidy cfg pn bm)
    (hs : SameZone cfg pn bm bm') : Tidy cfg pn bm' where
  wp_le i hi := by
    rw [hs.sblk i hi]
    exact h.wp_le i hi
  below p hp hv := by
    rw [hs.valid p hp] at hv
    rw [hs.sblk _ hp]
    exact h.below p hp hv
  counted i hi := by
    rw [hs.sblk i hi, h.counted i hi]
    exact (blockCount_congr cfg.pps_pos fun g hg => hs.valid g (hg ▸ hi)).symm

/-- The next page of superblock `i`. -/
def Bm.nextPage (cfg : Settings) (bm : Bm) (i : Nat) : Nat :=
  sblkOfft2Ppa cfg i (bm.sblk i).wpOfft

/-- The next page is in the superblock. -/
theorem Bm.nextPage_div {bm : Bm} {i : Nat} (h : (bm.sblk i).wpOfft < cfg.pps) :
    bm.nextPage cfg i / cfg.pps = i := by
  unfold Bm.nextPage sblkOfft2Ppa
  rw [Nat.mul_comm, Nat.mul_add_div cfg.pps_pos, Nat.div_eq_of_lt h, Nat.add_zero]

/-- And it is the page of the write pointer. -/
theorem Bm.nextPage_mod {bm : Bm} {i : Nat} (h : (bm.sblk i).wpOfft < cfg.pps) :
    bm.nextPage cfg i % cfg.pps = (bm.sblk i).wpOfft := by
  unfold Bm.nextPage sblkOfft2Ppa
  rw [Nat.mul_add_mod_self_right, Nat.mod_eq_of_lt h]

/-- The page at the write pointer is not valid: valid pages are below it. -/
theorem Tidy.nextPage_free {pn : PartNum} {bm : Bm} (h : Tidy cfg pn bm) {i : Nat}
    (hi : InZone cfg pn i) (hwp : (bm.sblk i).wpOfft < cfg.pps) :
    bm.validBitmap (bm.nextPage cfg i) = false := by
  by_contra hv
  rw [Bool.not_eq_false] at hv
  have hb := h.below (bm.nextPage cfg i) (by rwa [Bm.nextPage_div hwp]) hv
  rw [Bm.nextPage_div hwp, Bm.nextPage_mod hwp] at hb
  omega

/-- The next page of superblock `i` is taken, validated and labelled. -/
def Bm.fill (cfg : Settings) (bm : Bm) (i : Nat) (o : Oob) : Bm :=
  (validatePage cfg (getPageNum cfg bm i).2 (bm.nextPage cfg i)).setOob (bm.nextPage cfg i) o

theorem placePage_eq {bm bm' : Bm} {i lpa : Nat}
    (h : placePage cfg (getPageNum cfg bm i).2 (bm.nextPage cfg i) lpa = some bm') :
    bm' = bm.fill cfg i ⟨false, lpa, 1⟩ := by
  obtain ⟨bm₁, hv, rfl⟩ := Option.map_eq_some_iff.mp h
  unfold validateGrain at hv
  dsimp only at hv
  split at hv
  · cases hv
    rfl
  · cases hv

section Fill

variable {pn : PartNum} {bm : Bm} {i : Nat} {o : Oob}

@[simp] theorem Bm.fill_part : (bm.fill cfg i o).part pn = bm.part pn := by
  cases pn <;> rfl

@[simp] theorem Bm.fill_validBitmap : (bm.fill cfg i o).validBitmap =
    Function.update bm.validBitmap (bm.nextPage cfg i) true :=
  rfl

@[simp] theorem Bm.fill_oob : (bm.fill cfg i o).oob =
    Function.update bm.oob (bm.nextPage cfg i) o :=
  rfl

theorem Bm.fill_sblk (hwp : (bm.sblk i).wpOfft < cfg.pps) : (bm.fill cfg i o).sblk =
    Function.update bm.sblk i ⟨(bm.sblk i).validCnt + 1, (bm.sblk i).wpOfft + 1⟩ := by
  have hdiv : bm.nextPage cfg i / cfg.pps = i := Bm.nextPage_div hwp
  show Function.update (Function.update bm.sblk i _) (bm.nextPage cfg i / cfg.pps) _ = _
  rw [hdiv]
  simp only [getPageNum, Bm.setSblk, Function.update_self, Function.update_idem]

theorem Bm.fill_wpOfft (hwp : (bm.sblk i).wpOfft < cfg.pps) (j : Nat) :
    ((bm.fill cfg i o).sblk j).wpOfft =
      if j = i then (bm.sblk i).wpOfft + 1 else (bm.sblk j).wpOfft := by
  rw [Bm.fill_sblk hwp, Function.update_apply]
  split
  · rfl
  · rfl

theorem SameZone.fill (hwp : (bm.sblk i).wpOfft < cfg.pps) (hi : ¬InZone cfg pn i) :
    SameZone cfg pn bm (bm.fill cfg i o) := by
  have hp : ¬InZone cfg pn (bm.nextPage cfg i / cfg.pps) := by rwa [Bm.nextPage_div hwp]
  exact ((setSblk hi).trans (setValid hp)).trans (setOob hp)

/-- A page is filled at the write pointer. -/
theorem Tidy.fill (h : Tidy cfg pn bm) (hwp : (bm.sblk i).wpOfft < cfg.pps) :
    Tidy cfg pn (bm.fill cfg i o) := by
  -- A superblock outside the partition does not matter.
  by_cases hi : InZone cfg pn i
  · have hdiv : bm.nextPage cfg i / cfg.pps = i := Bm.nextPage_div hwp
    have hmod : bm.nextPage cfg i % cfg.pps = (bm.sblk i).wpOfft := Bm.nextPage_mod hwp
    refine ⟨fun j hj => ?_, fun q hq hv => ?_, fun j hj => ?_⟩
    · rw [Bm.fill_wpOfft hwp]
      split
      · exact hwp
      · exact h.wp_le j hj
    · rw [Bm.fill_wpOfft hwp]
      rw [Bm.fill_validBitmap, Function.update_apply] at hv
      split at hv
      · next he =>
        rw [he, hdiv, if_pos rfl, hmod]
        exact Nat.lt_succ_self _
      · have hlt := h.below q hq hv
        split
        · next hqi =>
          rw [hqi] at hlt
          exact Nat.lt_succ_of_lt hlt
        · exact hlt
    · rw [Bm.fill_validBitmap, blockCount_set cfg.pps_pos (h.nextPage_free hi hwp),
        Bm.fill_sblk hwp, Function.update_apply, hdiv, ← h.counted j hj]
      by_cases hji : j = i
      · subst hji
        simp
      · simp [hji, Ne.symm hji]
  · exact h.congr (.fill hwp hi)

end Fill

/-! ## Section 3: Invalidation -/

/-- An invalidated page is counted out. -/
theorem Tidy.invalidatePage {pn : PartNum} {bm : Bm} (h : Tidy cfg pn bm) {p : Nat}
    (hv : bm.validBitmap p = true) : Tidy cfg pn (invalidatePage cfg bm p) := by
  by_cases hp : InZone cfg pn (p / cfg.pps)
  · have hcnt : (bm.sblk (p / cfg.pps)).validCnt = blockCount cfg.pps bm.validBitmap
        (p / cfg.pps) :=
      h.counted _ hp
    have hpos : 0 < (bm.sblk (p / cfg.pps)).validCnt := by
      rw [hcnt]
      exact blockCount_pos cfg.pps_pos hv
    have hle : (bm.sblk (p / cfg.pps)).validCnt ≤ cfg.pps := by
      rw [hcnt]
      exact blockCount_le ..
    have hpps : cfg.pps < 4294967296 := by
      have hfit := cfg.pages_fit
      have hmul : cfg.pps * 1 ≤ cfg.pps * cfg.nos :=
        Nat.mul_le_mul_left _ (Nat.le_trans (by decide) cfg.nos_ge)
      omega
    -- The page is counted, so the counter does not wrap.
    have hsub : sub32 (bm.sblk (p / cfg.pps)).validCnt 1 = (bm.sblk (p / cfg.pps)).validCnt - 1 :=
      sub32_of_le hpos (by omega)
    have hsblk : ∀ j, (BlockSsd.invalidatePage cfg bm p).sblk j = if j = p / cfg.pps then
        ⟨(bm.sblk (p / cfg.pps)).validCnt - 1, (bm.sblk (p / cfg.pps)).wpOfft⟩ else bm.sblk j :=
      fun j => by
        show Function.update bm.sblk (p / cfg.pps) _ j = _
        rw [Function.update_apply, hsub]
    refine ⟨fun j hj => ?_, fun q hq hq' => ?_, fun j hj => ?_⟩
    · rw [hsblk]
      split
      · next he => exact he ▸ h.wp_le j hj
      · exact h.wp_le j hj
    -- A page that is valid now was valid before, below the same write pointer.
    · have hqv : bm.validBitmap q = true := by
        have hu : Function.update bm.validBitmap p false q = true := hq'
        rw [Function.update_apply] at hu
        split at hu
        · cases hu
        · exact hu
      have hlt := h.below q hq hqv
      rw [hsblk]
      split
      · next he => exact he ▸ hlt
      · exact hlt
    · have hclear := blockCount_clear (v := bm.validBitmap) cfg.pps_pos hv j
      rw [← h.counted j hj] at hclear
      rw [hsblk]
      show _ = blockCount cfg.pps (Function.update bm.validBitmap p false) j
      split
      · next he =>
        rw [if_pos he.symm, he] at hclear
        rw [he]
        exact (Nat.eq_sub_of_add_eq hclear).symm
      · next he =>
        rw [if_neg (Ne.symm he), Nat.add_zero] at hclear
        exact hclear.symm
  · exact h.congr (.invalidatePage hp)

/-- The pages `ps` are invalidated one by one. -/
def Bm.clear (cfg : Settings) (bm : Bm) (ps : List Nat) : Bm := ps.foldl (invalidatePage cfg) bm

theorem Bm.clear_part (pn : PartNum) : ∀ (ps : List Nat) (bm : Bm),
    (bm.clear cfg ps).part pn = bm.part pn
  | [], _ => rfl
  | p :: ps, bm => (clear_part pn ps (invalidatePage cfg bm p)).trans (by cases pn <;> rfl)

theorem Bm.clear_oob : ∀ (ps : List Nat) (bm : Bm), (bm.clear cfg ps).oob = bm.oob
  | [], _ => rfl
  | p :: ps, bm => clear_oob ps (invalidatePage cfg bm p)

theorem Bm.clear_wpOfft : ∀ (ps : List Nat) (bm : Bm) (j : Nat),
    ((bm.clear cfg ps).sblk j).wpOfft = (bm.sblk j).wpOfft
  | [], _, _ => rfl
  | p :: ps, bm, j => by
      refine (clear_wpOfft ps (invalidatePage cfg bm p) j).trans ?_
      show (Function.update bm.sblk (p / cfg.pps) _ j).wpOfft = _
      rw [Function.update_apply]
      split
      · next he => rw [he]
      · rfl

/-- The cleared pages are invalid, the others keep their bit. -/
theorem Bm.clear_validBitmap : ∀ (ps : List Nat) (bm : Bm) (q : Nat),
    (bm.clear cfg ps).validBitmap q = if q ∈ ps then false else bm.validBitmap q
  | [], _, _ => by simp [Bm.clear]
  | p :: ps, bm, q => by
      refine (clear_validBitmap ps (invalidatePage cfg bm p) q).trans ?_
      show (if q ∈ ps then false else Function.update bm.validBitmap p false q) = _
      rw [Function.update_apply]
      by_cases hq : q = p
      · simp [hq]
      · simp [hq]

/-- Clearing valid pages one by one counts each of them out. -/
theorem Tidy.clear {pn : PartNum} : ∀ {ps : List Nat} {bm : Bm}, Tidy cfg pn bm → ps.Nodup →
    (∀ p ∈ ps, bm.validBitmap p = true) → Tidy cfg pn (bm.clear cfg ps)
  | [], _, h, _, _ => h
  | p :: ps, bm, h, hnd, hv => by
      obtain ⟨hp, hnd⟩ := List.nodup_cons.mp hnd
      have hfirst : Tidy cfg pn (BlockSsd.invalidatePage cfg bm p) :=
        h.invalidatePage (hv p List.mem_cons_self)
      refine hfirst.clear hnd fun q hq => ?_
      have hne : q ≠ p := fun he => hp (he ▸ hq)
      show Function.update bm.validBitmap p false q = true
      rw [Function.update_of_ne hne]
      exact hv q (List.mem_cons_of_mem _ hq)

/-- Pages of the other partition are no matter of this one. -/
theorem SameZone.clear {pn : PartNum} : ∀ {ps : List Nat} {bm : Bm},
    (∀ p ∈ ps, ¬InZone cfg pn (p / cfg.pps)) → SameZone cfg pn bm (bm.clear cfg ps)
  | [], bm, _ => refl bm
  | p :: _, _, h =>
    (invalidatePage (h p List.mem_cons_self)).trans
      (SameZone.clear fun q hq => h q (List.mem_cons_of_mem _ hq))

/-- The valid pages of superblock `i`. -/
def Bm.livePages (cfg : Settings) (bm : Bm) (i : Nat) : List Nat :=
  (List.range' (i * cfg.pps) cfg.pps).filter bm.validBitmap

/-- The live pages of a superblock are its valid ones. -/
theorem Bm.mem_livePages {bm : Bm} {i p : Nat} :
    p ∈ bm.livePages cfg i ↔ p / cfg.pps = i ∧ bm.validBitmap p = true := by
  unfold Bm.livePages
  rw [List.mem_filter, List.mem_range'_1, Nat.div_eq_iff cfg.pps_pos]
  have hpos := cfg.pps_pos
  refine and_congr_left fun _ => ?_
  omega

theorem Bm.nodup_livePages (bm : Bm) (i : Nat) : (bm.livePages cfg i).Nodup :=
  (List.nodup_range').filter _

/-- Their number is the count of the superblock. -/
theorem Bm.length_livePages (bm : Bm) (i : Nat) :
    (bm.livePages cfg i).length = blockCount cfg.pps bm.validBitmap i := by
  rw [← List.toFinset_card_of_nodup (bm.nodup_livePages i), blockCount]
  refine congrArg Finset.card (Finset.ext fun p => ?_)
  rw [List.mem_toFinset, Bm.mem_livePages, Finset.mem_filter, mem_block_iff cfg.pps_pos]

/-- The superblock whose live pages have been invalidated is trimmed. -/
theorem Tidy.trimSegment {pn : PartNum} {bm : Bm} (h : Tidy cfg pn bm) {i : Nat}
    (hdead : ∀ p, p / cfg.pps = i → bm.validBitmap p = false) :
    Tidy cfg pn (trimSegment cfg bm i) := by
  have hsblk : ∀ j, (BlockSsd.trimSegment cfg bm i).sblk j = if j = i then ⟨0, 0⟩ else bm.sblk j :=
    fun j => Function.update_apply ..
  refine ⟨fun j hj => ?_, fun p hp hv => ?_, fun j hj => ?_⟩
  · rw [hsblk]
    split
    · exact Nat.zero_le _
    · exact h.wp_le j hj
  · have hv' : bm.validBitmap p = true := hv
    have hne : p / cfg.pps ≠ i := fun he => by
      rw [hdead p he] at hv'
      cases hv'
    rw [hsblk, if_neg hne]
    exact h.below p hp hv'
  · rw [hsblk]
    split
    · next he =>
      subst he
      exact ((blockCount_eq_zero cfg.pps_pos).mpr hdead).symm
    · exact h.counted j hj

/-- The reads of the two collections clear the live pages. -/
theorem collectTpages_spec {ssd : Ssd} : ∀ {n ppa : Nat} {bm bm' : Bm} {pages : List Nat},
    collectTpages cfg ssd bm ppa n = some (bm', pages) →
      bm' = bm.clear cfg ((List.range' ppa n).filter bm.validBitmap) ∧
        pages = ((List.range' ppa n).filter bm.validBitmap).map fun p => (bm.oob p).lpa
  | 0, ppa, bm, bm', pages, h => by
      cases h
      exact ⟨rfl, rfl⟩
  | n + 1, ppa, bm, bm', pages, h => by
      unfold collectTpages at h
      rw [List.range'_succ]
      split at h
      · next hv =>
        rw [List.filter_cons_of_pos hv]
        split at h
        · obtain ⟨⟨bm₁, pages₁⟩, hrest, he⟩ := Option.map_eq_some_iff.mp h
          cases he
          obtain ⟨rfl, rfl⟩ := collectTpages_spec hrest
          -- The pages behind are untouched by the invalidation of this one.
          have hfilter : (List.range' (ppa + 1) n).filter (invalidatePage cfg bm ppa).validBitmap =
              (List.range' (ppa + 1) n).filter bm.validBitmap := List.filter_congr fun q hq => by
            have hne : q ≠ ppa := by
              have hlo := (List.mem_range'_1.mp hq).1
              omega
            exact Function.update_of_ne hne ..
          rw [hfilter]
          exact ⟨rfl, rfl⟩
        · cases h
      · next hv =>
        rw [List.filter_cons_of_neg hv]
        exact collectTpages_spec h

/-- The items of a data collection are the slots of the live pages. -/
theorem collectPages_spec : ∀ {n ppa : Nat} {bm bm' : Bm} {items : List GcItem},
    collectPages cfg bm ppa n = some (bm', items) →
      bm' = bm.clear cfg ((List.range' ppa n).filter bm.validBitmap) ∧
        items = ((List.range' ppa n).filter bm.validBitmap).map fun p => ⟨(bm.oob p).lpa, p⟩
  | 0, ppa, bm, bm', items, h => by
      cases h
      exact ⟨rfl, rfl⟩
  | n + 1, ppa, bm, bm', items, h => by
      unfold collectPages at h
      rw [List.range'_succ]
      split at h
      · next hv =>
        rw [List.filter_cons_of_pos hv]
        split at h
        · obtain ⟨⟨bm₁, items₁⟩, hrest, he⟩ := Option.map_eq_some_iff.mp h
          cases he
          obtain ⟨rfl, rfl⟩ := collectPages_spec hrest
          -- Invalidating this page does not change the pages behind it.
          have hfilter : (List.range' (ppa + 1) n).filter (invalidatePage cfg bm ppa).validBitmap =
              (List.range' (ppa + 1) n).filter bm.validBitmap := List.filter_congr fun q hq => by
            have hne : q ≠ ppa := by
              have hlo := (List.mem_range'_1.mp hq).1
              omega
            exact Function.update_of_ne hne ..
          rw [hfilter]
          exact ⟨rfl, rfl⟩
        · cases h
      · next hv =>
        rw [List.filter_cons_of_neg hv]
        exact collectPages_spec h

/-! ## Section 4: Cursors -/

/-- The cursor of a partition, its active superblock `act` and its reserve `rsv`. -/
structure Roles (cfg : Settings) (pn : PartNum) (bm : Bm) (act rsv : Option Nat) : Prop where
  bounds : ∀ i, InZone cfg pn i ↔ (bm.part pn).sSblk ≤ i ∧ i ≤ (bm.part pn).eSblk
  cursor : ∀ a, (bm.part pn).activeSblk = some a → InZone cfg pn a
  fresh : (bm.part pn).activeSblk = none → ∀ i, InZone cfg pn i → (bm.sblk i).wpOfft = 0
  reserve : ∃ r, rsv = some r ∧ (bm.part pn).sblkRsv = r ∧ InZone cfg pn r ∧
    (bm.sblk r).wpOfft = 0
  active : ∀ a, act = some a → InZone cfg pn a ∧ a ≠ (bm.part pn).sblkRsv ∧
    (bm.part pn).activeSblk ≠ none

namespace Roles

variable {pn : PartNum} {bm bm' : Bm} {act rsv : Option Nat}

/-- The write pointers outside the active superblock are left alone. -/
theorem congr (h : Roles cfg pn bm act rsv) (hpart : bm'.part pn = bm.part pn)
    (hwp : ∀ i, InZone cfg pn i → act ≠ some i → (bm'.sblk i).wpOfft = (bm.sblk i).wpOfft) :
    Roles cfg pn bm' act rsv where
  bounds i := by rw [hpart, h.bounds]
  cursor a := by
    rw [hpart]
    exact h.cursor a
  fresh hn i hi := by
    rw [hpart] at hn
    rw [hwp i hi fun ha => (h.active i ha).2.2 hn]
    exact h.fresh hn i hi
  reserve := by
    obtain ⟨r, hr, hrsv, hz, hwp0⟩ := h.reserve
    refine ⟨r, hr, by rw [hpart, hrsv], hz, ?_⟩
    rw [hwp r hz fun ha => (h.active r ha).2.1 hrsv.symm, hwp0]
  active a ha := by
    rw [hpart]
    exact h.active a ha

theorem sameZone (h : Roles cfg pn bm act rsv) (hs : SameZone cfg pn bm bm') :
    Roles cfg pn bm' act rsv :=
  h.congr hs.part fun i hi _ => by rw [hs.sblk i hi]

theorem invalidatePage (h : Roles cfg pn bm act rsv) (p : Nat) :
    Roles cfg pn (invalidatePage cfg bm p) act rsv :=
  h.congr (Bm.clear_part pn [p] bm) fun i _ _ => Bm.clear_wpOfft [p] bm i

/-- A page of the active superblock is taken. -/
theorem fill (h : Roles cfg pn bm act rsv) {a : Nat} {o : Oob} (ha : act = some a)
    (hwp : (bm.sblk a).wpOfft < cfg.pps) : Roles cfg pn (bm.fill cfg a o) act rsv :=
  h.congr Bm.fill_part fun i _ hne => by
    rw [Bm.fill_wpOfft hwp, if_neg]
    rintro rfl
    exact hne ha

/-- While the cursor is unset every superblock but the reserve is usable. -/
theorem exists_usable (h : Roles cfg pn bm act rsv) (hn : (bm.part pn).activeSblk = none) :
    ∃ i, InZone cfg pn i ∧ usable cfg bm pn i = true := by
  have hpps := cfg.pps_pos
  have hnos := cfg.nos_ge
  have husable : ∀ i, InZone cfg pn i → i ≠ (bm.part pn).sblkRsv → usable cfg bm pn i = true := by
    intro i hi hne
    simp only [usable, checkFull, h.fresh hn i hi, Bool.and_eq_true, decide_eq_true_eq,
      Bool.not_eq_true', decide_eq_false_iff_not]
    exact ⟨hne, Nat.not_le.mpr hpps⟩
  have htwo : ∃ i j, InZone cfg pn i ∧ InZone cfg pn j ∧ i ≠ j := by
    cases pn with
    | map =>
      refine ⟨0, 1, Nat.zero_le _, ?_, by decide⟩
      show 1 ≤ cfg.nos / 20
      omega
    | data =>
      refine ⟨cfg.nos - 1, cfg.nos - 2, ⟨?_, ?_⟩, ⟨?_, ?_⟩, ?_⟩ <;> omega
  obtain ⟨i, j, hi, hj, hij⟩ := htwo
  by_cases hri : i = (bm.part pn).sblkRsv
  · exact ⟨j, hj, husable j hj fun he => hij (hri.trans he.symm)⟩
  · exact ⟨i, hi, husable i hi hri⟩

/-- What the cursor search returns. -/
theorem getActiveSblk (h : Roles cfg pn bm act rsv) {i : Nat}
    (hg : getActiveSblk cfg bm pn = some (i, bm')) :
    InZone cfg pn i ∧ usable cfg bm pn i = true ∧ ∃ free, bm' = bm.setPart pn
      { bm.part pn with activeSblk := some i, freeSblkCnt := free } := by
  simp only [BlockSsd.getActiveSblk, Option.orElse_eq_orElse, Option.orElse_eq_or] at hg
  obtain ⟨j, hj, he⟩ := Option.map_eq_some_iff.mp hg
  simp only [Prod.mk.injEq] at he
  obtain ⟨rfl, rfl⟩ := he
  refine ⟨?_, ?_, _, rfl⟩
  -- The superblock is in the partition: both searches stay between its bounds.
  · rw [h.bounds]
    split at hj
    · next a hstart =>
      have ha : (bm.part pn).sSblk ≤ a ∧ a ≤ (bm.part pn).eSblk := by
        rcases Option.or_eq_some_iff.mp hstart with ha | ⟨-, ha⟩
        · exact (h.bounds a).mp (h.cursor a ha)
        · exact ⟨(firstSblk_spec ha).1, (firstSblk_spec ha).2.1⟩
      rcases Option.or_eq_some_iff.mp hj with hj | ⟨-, hj⟩
      · obtain ⟨hlo, hhi, _⟩ := firstSblk_spec hj
        omega
      · have hmem := List.mem_range'_1.mp (List.mem_of_find?_eq_some hj)
        omega
    · next hstart =>
      -- The search from 0 would leave the partition, but a usable superblock exists.
      obtain ⟨hnone, hclosed⟩ := Option.or_eq_none_iff.mp hstart
      obtain ⟨k, hk, hu⟩ := h.exists_usable hnone
      obtain ⟨hlo, hhi⟩ := (h.bounds k).mp hk
      obtain ⟨k', hk'⟩ := exists_firstSblk hlo hhi hu
      rw [hclosed] at hk'
      cases hk'
  · split at hj
    · rcases Option.or_eq_some_iff.mp hj with hj | ⟨-, hj⟩
      · exact (firstSblk_spec hj).2.2
      · exact List.find?_some hj
    · exact (firstSblk_spec hj).2.2

end Roles

/-- A usable superblock has room and is not the reserve. -/
theorem usable_wpOfft {pn : PartNum} {bm : Bm} {i : Nat} (h : usable cfg bm pn i = true) :
    i ≠ (bm.part pn).sblkRsv ∧ (bm.sblk i).wpOfft < cfg.pps := by
  simp only [usable, checkFull, Bool.and_eq_true, decide_eq_true_eq, Bool.not_eq_true',
    decide_eq_false_iff_not, Nat.not_le] at h
  exact h

/-- The victim is a candidate. -/
theorem leastValid_mem {bm : Bm} {cand : Nat → Bool} : ∀ {l : List Nat} {i : Nat},
    leastValid bm cand l = some i → i ∈ l ∧ cand i = true := by
  intro l
  induction l using List.reverseRecOn with
  | nil =>
    intro i h
    cases h
  | append_singleton l x ih =>
    intro i h
    unfold leastValid at h ih
    rw [List.foldl_append, List.foldl_cons, List.foldl_nil] at h
    have hold : ∀ {j}, List.foldl _ none l = some j → j ∈ l ++ [x] ∧ cand j = true := fun hl =>
      ⟨List.mem_append_left _ (ih hl).1, (ih hl).2⟩
    -- The last candidate is taken if it is the first or has fewer valid pages.
    split at h
    · next hx =>
      have hnew : x ∈ l ++ [x] ∧ cand x = true := ⟨by simp, hx⟩
      split at h
      · split at h
        · cases h
          exact hnew
        · cases h
      · next j hj =>
        split at h
        · cases h
          exact hnew
        · cases h
          exact hold hj
    · exact hold h

/-- The victim of a collection is full, not the reserve, and has a dead page. -/
theorem getGcTarget_spec {pn : PartNum} {bm : Bm} {act rsv : Option Nat} {target : Nat}
    (ht : Tidy cfg pn bm) (hr : Roles cfg pn bm act rsv)
    (h : getGcTarget cfg bm pn = some target) :
    InZone cfg pn target ∧ target ≠ (bm.part pn).sblkRsv ∧
      (bm.sblk target).wpOfft = cfg.pps ∧ (bm.livePages cfg target).length < cfg.pps := by
  obtain ⟨hl, hlt⟩ := Option.filter_eq_some_iff.mp h
  obtain ⟨hmem, hcand⟩ := leastValid_mem hl
  have hrange := List.mem_range'_1.mp hmem
  have hz : InZone cfg pn target := (hr.bounds target).mpr (by omega)
  simp only [gcCandidate, checkFull, Bool.and_eq_true, decide_eq_true_eq] at hcand
  have hle := ht.wp_le target hz
  have hwp : (bm.sblk target).wpOfft = cfg.pps := Nat.le_antisymm hle hcand.2
  rw [decide_eq_true_eq, hwp, ht.counted target hz] at hlt
  refine ⟨hz, hcand.1, hwp, ?_⟩
  rw [Bm.length_livePages]
  exact hlt

end AggreKV.BlockSsd
