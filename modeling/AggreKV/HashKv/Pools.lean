import AggreKV.HashKv.Device

/-! # The pools of data superblocks

    The segregated build divides the data superblocks into those owned by
    a stream, the reserve pool, the free ones and the full ones. The two
    counters of the partition follow.

    * `Pooled`: owners, pools and counters; `live` are the streams that
      have a superblock. While a stream switches it has none.
    * `Victim`: a full superblock of no pool, as a collection takes it. -/

namespace AggreKV.HashKv

variable {cfg : Settings} {hs : Hashing}

/-! ## Section 1: The invariant -/

/-- The superblocks that `free_sblk_cnt` counts. -/
def freeSblks (cfg : Settings) (bm : Bm) : Finset Nat :=
  (Finset.Ico cfg.dataSblk cfg.nos).filter fun i =>
    (bm.sblk i).isRsv = false ∧ (bm.sblk i).isOwned = false ∧ (bm.sblk i).wpOfft = 0

/-- The superblocks that `rsv_sblk_cnt` counts. -/
def rsvSblks (cfg : Settings) (bm : Bm) : Finset Nat :=
  (Finset.range cfg.nos).filter fun i => (bm.sblk i).isRsv = true

/-- The free pool, slot by slot. -/
theorem mem_freeSblks {bm : Bm} {i : Nat} : i ∈ freeSblks cfg bm ↔ cfg.IsData i ∧
    (bm.sblk i).isRsv = false ∧ (bm.sblk i).isOwned = false ∧ (bm.sblk i).wpOfft = 0 := by
  unfold freeSblks
  rw [Finset.mem_filter, Finset.mem_Ico]
  rfl

/-- The reserve. -/
theorem mem_rsvSblks {bm : Bm} {i : Nat} :
    i ∈ rsvSblks cfg bm ↔ i < cfg.nos ∧ (bm.sblk i).isRsv = true := by
  unfold rsvSblks
  rw [Finset.mem_filter, Finset.mem_range]

/-- The counters of the pools do not overflow. -/
theorem freeSblks_card_lt (cfg : Settings) (bm : Bm) : (freeSblks cfg bm).card < 4294967296 := by
  have hle : (freeSblks cfg bm).card ≤ cfg.nos := by
    refine Nat.le_trans (Finset.card_filter_le _ _) ?_
    rw [Nat.card_Ico]
    exact Nat.sub_le _ _
  have hfit := cfg.grains_fit
  have hpos := Nat.mul_le_mul_right cfg.nos cfg.pps_pos
  omega

structure Pooled (cfg : Settings) (live : Nat → Prop) (bm : Bm) : Prop where
  streams : ∀ idx, live idx → ∃ a, (bm.stream idx).activeSblk = some a ∧ cfg.IsData a ∧
    (bm.sblk a).isOwned = true ∧ (bm.sblk a).streamIdx = some idx
  owned : ∀ i, (bm.sblk i).isOwned = true → ∃ idx, live idx ∧ (bm.stream idx).activeSblk = some i
  reserved : ∀ i, (bm.sblk i).isRsv = true → cfg.IsData i ∧ (bm.sblk i).isOwned = false
  free : bm.dataPart.freeSblkCnt = (freeSblks cfg bm).card
  rsv : bm.dataPart.rsvSblkCnt = (rsvSblks cfg bm).card

/-- A superblock that a collection may take. -/
structure Victim (cfg : Settings) (bm : Bm) (t : Nat) : Prop where
  data : cfg.IsData t
  owned : (bm.sblk t).isOwned = false
  reserved : (bm.sblk t).isRsv = false
  full : cfg.pps ≤ (bm.sblk t).wpOfft

/-- The reserve depends on the flags only. -/
theorem rsvSblks_congr {bm bm' : Bm} (h : ∀ i, (bm'.sblk i).isRsv = (bm.sblk i).isRsv) :
    rsvSblks cfg bm' = rsvSblks cfg bm := by
  ext i
  rw [mem_rsvSblks, mem_rsvSblks, h]

/-- One superblock joins the reserve pool. -/
theorem rsvSblks_insert {bm bm' : Bm} {i : Nat} (hi : i < cfg.nos)
    (hr : (bm.sblk i).isRsv = false) (hr' : (bm'.sblk i).isRsv = true)
    (hothers : ∀ j, j ≠ i → (bm'.sblk j).isRsv = (bm.sblk j).isRsv) :
    (rsvSblks cfg bm').card = (rsvSblks cfg bm).card + 1 := by
  have hnot : i ∉ rsvSblks cfg bm := fun hmem => by
    rw [(mem_rsvSblks.mp hmem).2] at hr
    cases hr
  rw [← Finset.card_insert_of_notMem hnot]
  refine congrArg Finset.card (Finset.ext fun j => ?_)
  rw [Finset.mem_insert, mem_rsvSblks, mem_rsvSblks]
  by_cases hj : j = i
  · subst hj
    simp [hi, hr']
  · simp [hj, hothers j hj]

/-- A superblock is taken from the free pool. If it has pages it was not counted. -/
theorem freeSblks_take {bm bm' : Bm} {i : Nat} (hi : cfg.IsData i)
    (hr : (bm.sblk i).isRsv = false) (ho : (bm.sblk i).isOwned = false)
    (htaken : (bm'.sblk i).isRsv = true ∨ (bm'.sblk i).isOwned = true)
    (hothers : ∀ j, j ≠ i → bm'.sblk j = bm.sblk j) :
    (freeSblks cfg bm').card = if (bm.sblk i).wpOfft = 0 then sub32 (freeSblks cfg bm).card 1
      else (freeSblks cfg bm).card := by
  have herase : freeSblks cfg bm' = (freeSblks cfg bm).erase i := by
    ext j
    rw [Finset.mem_erase, mem_freeSblks, mem_freeSblks]
    by_cases hj : j = i
    · subst hj
      rcases htaken with h | h <;> simp [h]
    · rw [hothers j hj]
      simp [hj]
  rw [herase]
  split
  · next hwp =>
    have hmem : i ∈ freeSblks cfg bm := mem_freeSblks.mpr ⟨hi, hr, ho, hwp⟩
    rw [Finset.card_erase_of_mem hmem,
      sub32_of_le (Finset.card_pos.mpr ⟨i, hmem⟩) (freeSblks_card_lt cfg bm)]
  · next hwp =>
    rw [Finset.erase_eq_of_notMem fun hmem => hwp (mem_freeSblks.mp hmem).2.2.2]

namespace Pooled

variable {live live' : Nat → Prop} {bm bm' : Bm}

/-- Two streams never own the same superblock. -/
theorem active_injective (h : Pooled cfg live bm) {i j a : Nat} (hi : live i) (hj : live j)
    (hai : (bm.stream i).activeSblk = some a) (haj : (bm.stream j).activeSblk = some a) :
    i = j := by
  obtain ⟨b, hb, -, -, hbi⟩ := h.streams i hi
  obtain ⟨c, hc, -, -, hcj⟩ := h.streams j hj
  cases hai.symm.trans hb
  cases haj.symm.trans hc
  exact Option.some.inj (hbi.symm.trans hcj)

/-- The same streams under another name. -/
theorem mono (h : Pooled cfg live bm) (he : ∀ idx, live idx ↔ live' idx) :
    Pooled cfg live' bm := by
  have heq : live = live' := funext fun idx => propext (he idx)
  exact heq ▸ h

/-- Roles and cursors are the same; write pointers move in owned superblocks only. -/
theorem congr (h : Pooled cfg live bm) (hr : SameRoles bm bm')
    (hs : ∀ i, (bm.sblk i).isOwned = true → (bm'.sblk i).streamIdx = (bm.sblk i).streamIdx)
    (hw : ∀ i, cfg.IsData i → (bm.sblk i).isOwned = false →
      (bm'.sblk i).wpOfft = (bm.sblk i).wpOfft)
    (hst : ∀ j, (bm'.stream j).activeSblk = (bm.stream j).activeSblk)
    (hp : bm'.dataPart = bm.dataPart) : Pooled cfg live bm' where
  streams idx hl := by
    obtain ⟨a, ha, hd, ho, hx⟩ := h.streams idx hl
    exact ⟨a, (hst idx).trans ha, hd, (hr.owned a).trans ho, (hs a ho).trans hx⟩
  owned i ho := by
    rw [hr.owned] at ho
    obtain ⟨idx, hl, ha⟩ := h.owned i ho
    exact ⟨idx, hl, (hst idx).trans ha⟩
  reserved i hi := by
    rw [hr.reserved] at hi
    rw [hr.owned]
    exact h.reserved i hi
  free := by
    rw [hp, h.free]
    refine congrArg Finset.card (Finset.ext fun i => ?_)
    -- Write pointers move in owned superblocks, which are not free.
    rw [mem_freeSblks, mem_freeSblks, hr.reserved, hr.owned]
    refine and_congr_right fun hd => and_congr_right fun _ => and_congr_right fun ho => ?_
    rw [hw i hd ho]
  rsv := by
    rw [hp, h.rsv, rsvSblks_congr hr.reserved]

/-- Grains do not matter to the pools. -/
theorem blocks (h : Pooled cfg live bm) (hb : SameBlocks bm bm') : Pooled cfg live bm' := by
  refine h.congr (.of_blocks hb) (fun i _ => ?_) (fun i _ _ => hb.wpOfft i)
    (fun j => by rw [hb.stream]) hb.dataPart
  obtain ⟨n, hn⟩ := hb.sblk i
  rw [hn]

/-- The map side keeps the data pools. -/
theorem mapStep {s s' : Store} (h : Pooled cfg live s.bm) (hm : MapStep cfg s s') :
    Pooled cfg live s'.bm := by
  refine h.congr hm.roles (fun i ho => ?_) (fun i hd _ => by rw [hm.data.sblk i hd.1])
    (fun j => by rw [hm.data.stream]) hm.data.part
  obtain ⟨idx, hl, ha⟩ := h.owned i ho
  obtain ⟨a, ha', hd, -, -⟩ := h.streams idx hl
  cases ha.symm.trans ha'
  rw [hm.data.sblk i hd.1]

/-- A stream may move its cursor within its superblock. -/
theorem setStream (h : Pooled cfg live bm) (idx : Nat) {st : Stream}
    (hact : st.activeSblk = (bm.stream idx).activeSblk) :
    Pooled cfg live (bm.setStream idx st) := by
  refine h.congr (.of_sblk rfl) (fun _ _ => rfl) (fun _ _ _ => rfl) (fun j => ?_) rfl
  show (Function.update bm.stream idx st j).activeSblk = _
  by_cases hj : j = idx
  · rw [hj, Function.update_self, hact]
  · rw [Function.update_of_ne hj]

/-- The next page of an owned superblock. -/
theorem getPageNum (h : Pooled cfg live bm) {a : Nat} (ha : (bm.sblk a).isOwned = true) :
    Pooled cfg live (HashKv.getPageNum cfg bm a).2 := by
  refine h.congr (.getPageNum cfg bm a) (fun i _ => ?_) (fun i _ ho => ?_) (fun _ => rfl) rfl
  · show (Function.update bm.sblk a _ i : Superblock).streamIdx = _
    by_cases hi : i = a
    · rw [hi, Function.update_self]
    · rw [Function.update_of_ne hi]
  · show (Function.update bm.sblk a _ i : Superblock).wpOfft = _
    have hi : i ≠ a := by
      rintro rfl
      rw [ha] at ho
      cases ho
    rw [Function.update_of_ne hi]

end Pooled

/-! ## Section 2: Switching superblocks -/

/-- What the cursor search changes. -/
theorem getActiveSblk_eq {bm bm' : Bm} {pn : PartNum} {i : Nat}
    (h : getActiveSblk cfg bm pn = some (i, bm')) :
    bm' = bm.setPart pn { bm.part pn with
      activeSblk := some i
      freeSblkCnt := if (bm.sblk i).wpOfft = 0 then sub32 (bm.part pn).freeSblkCnt 1
        else (bm.part pn).freeSblkCnt } := by
  unfold getActiveSblk at h
  dsimp only at h
  obtain ⟨j, _, hj⟩ := Option.map_eq_some_iff.mp h
  cases hj
  rfl

/-- A usable superblock is nobody's and has room. -/
theorem usable_data {bm : Bm} {i : Nat} (hds : cfg.dataSegregation = true)
    (h : usable cfg bm .data i = true) : (bm.sblk i).isRsv = false ∧
      (bm.sblk i).isOwned = false ∧ (bm.sblk i).wpOfft < cfg.pps := by
  simp only [usable, hds, checkFull, true_and, if_true, Bool.and_eq_true, Bool.not_eq_true',
    decide_eq_false_iff_not, Nat.not_le] at h
  exact ⟨h.1.1, h.2, h.1.2⟩

/-- A superblock changes and a stream gets it as its active one. -/
def Bm.occupied (bm : Bm) (i idx : Nat) (pt : Part) (st : Stream) : Bm :=
  ((bm.setPart .data pt).setSblk i
    { bm.sblk i with isOwned := true, streamIdx := some idx }).setStream idx st

namespace Pooled

variable {live : Nat → Prop} {bm bm' : Bm}

/-- A stream gives its full superblock away. -/
theorem release (h : Pooled cfg live bm) {idx a : Nat} (hl : live idx)
    (hact : (bm.stream idx).activeSblk = some a) (hfull : cfg.pps ≤ (bm.sblk a).wpOfft) :
    Pooled cfg (fun j => live j ∧ j ≠ idx)
      (bm.setSblk a { bm.sblk a with isOwned := false }) := by
  have hpps := cfg.pps_pos
  have hother : ∀ i, i ≠ a → (bm.setSblk a { bm.sblk a with isOwned := false }).sblk i =
      bm.sblk i := fun i hi => Function.update_of_ne hi ..
  have hself : (bm.setSblk a { bm.sblk a with isOwned := false }).sblk a =
      { bm.sblk a with isOwned := false } := Function.update_self ..
  refine ⟨fun j hj => ?_, fun i hi => ?_, fun i hi => ?_, ?_, ?_⟩
  · obtain ⟨b, hb, hd, ho, hx⟩ := h.streams j hj.1
    have hba : b ≠ a := by
      rintro rfl
      exact hj.2 (h.active_injective hj.1 hl hb hact)
    have hsame := hother b hba
    exact ⟨b, hb, hd, hsame ▸ ho, hsame ▸ hx⟩
  · by_cases hia : i = a
    · rw [hia, hself] at hi
      cases hi
    · rw [hother i hia] at hi
      obtain ⟨j, hj, ha⟩ := h.owned i hi
      refine ⟨j, ⟨hj, ?_⟩, ha⟩
      rintro rfl
      exact hia (Option.some.inj (ha.symm.trans hact))
  · by_cases hia : i = a
    · subst hia
      rw [hself] at hi ⊢
      exact ⟨(h.reserved i hi).1, rfl⟩
    · rw [hother i hia] at hi ⊢
      exact h.reserved i hi
  -- A full superblock is not free, owned or not.
  · show bm.dataPart.freeSblkCnt = _
    rw [h.free]
    refine congrArg Finset.card (Finset.ext fun i => ?_)
    rw [mem_freeSblks, mem_freeSblks]
    by_cases hia : i = a
    · subst hia
      rw [hself]
      refine and_congr_right fun _ => and_congr_right fun _ => ?_
      constructor
      · intro hf
        omega
      · intro hf
        have hz := hf.2
        dsimp only at hz
        omega
    · rw [hother i hia]
  · show bm.dataPart.rsvSblkCnt = _
    rw [h.rsv]
    refine congrArg Finset.card (rsvSblks_congr fun i => ?_).symm
    by_cases hia : i = a
    · rw [hia, hself]
    · rw [hother i hia]

/-- A stream without superblock takes one from the free pool. -/
theorem occupy (h : Pooled cfg live bm) {i idx : Nat} (hds : cfg.dataSegregation = true)
    (hn : ¬live idx) (hi : cfg.IsData i) (hu : usable cfg bm .data i = true) {pt : Part}
    {st : Stream} (hact : st.activeSblk = some i)
    (hfree : pt.freeSblkCnt = if (bm.sblk i).wpOfft = 0 then sub32 bm.dataPart.freeSblkCnt 1
      else bm.dataPart.freeSblkCnt)
    (hrsv : pt.rsvSblkCnt = bm.dataPart.rsvSblkCnt) :
    Pooled cfg (fun j => live j ∨ j = idx) (bm.occupied i idx pt st) := by
  obtain ⟨hr, ho, -⟩ := usable_data hds hu
  have hother : ∀ j, j ≠ i → (bm.occupied i idx pt st).sblk j = bm.sblk j :=
    fun j hj => Function.update_of_ne hj ..
  have hself : (bm.occupied i idx pt st).sblk i =
      { bm.sblk i with isOwned := true, streamIdx := some idx } := Function.update_self ..
  have hsame : ∀ j, j ≠ idx → (bm.occupied i idx pt st).stream j = bm.stream j :=
    fun j hj => Function.update_of_ne hj ..
  have hstream : (bm.occupied i idx pt st).stream idx = st := Function.update_self ..
  refine ⟨fun j hj => ?_, fun j hj => ?_, fun j hj => ?_, ?_, ?_⟩
  · by_cases hji : j = idx
    · subst hji
      exact ⟨i, (congrArg Stream.activeSblk hstream).trans hact, hi, by rw [hself], by rw [hself]⟩
    · obtain ⟨b, hb, hd, hob, hx⟩ := h.streams j (hj.resolve_right hji)
      have hbi : b ≠ i := by
        rintro rfl
        rw [ho] at hob
        cases hob
      have hblk := hother b hbi
      rw [hsame j hji]
      exact ⟨b, hb, hd, hblk ▸ hob, hblk ▸ hx⟩
  · by_cases hji : j = i
    · subst hji
      exact ⟨idx, Or.inr rfl, (congrArg Stream.activeSblk hstream).trans hact⟩
    · rw [hother j hji] at hj
      obtain ⟨k, hk, ha⟩ := h.owned j hj
      have hki : k ≠ idx := by
        rintro rfl
        exact hn hk
      exact ⟨k, Or.inl hk, (congrArg Stream.activeSblk (hsame k hki)).trans ha⟩
  · by_cases hji : j = i
    · subst hji
      rw [hself] at hj
      rw [hr] at hj
      cases hj
    · rw [hother j hji] at hj ⊢
      exact h.reserved j hj
  -- It leaves the free pool, if it was in there.
  · show pt.freeSblkCnt = _
    rw [hfree, freeSblks_take hi hr ho (Or.inr (by rw [hself])) hother, h.free]
  · show pt.rsvSblkCnt = _
    rw [hrsv, h.rsv]
    refine congrArg Finset.card (rsvSblks_congr fun j => ?_).symm
    by_cases hji : j = i
    · rw [hji, hself]
    · rw [hother j hji]

end Pooled

/-- The streams of the running system. -/
def Live (idx : Nat) : Prop := idx < 8

/-- What `dftl_get_stream_sblk` returns: the superblock that the stream has, or one of the
    free pool in exchange for a full one. -/
structure Switched (cfg : Settings) (bm : Bm) (idx i : Nat) (bm' : Bm) : Prop where
  pooled : Pooled cfg Live bm'
  active : (bm'.stream idx).activeSblk = some i
  owned : (bm'.sblk i).isOwned = true
  origin : bm' = bm ∨ ((bm.sblk i).isOwned = false ∧ (bm.sblk i).wpOfft < cfg.pps ∧
    ∃ a, a ≠ i ∧ (bm.stream idx).activeSblk = some a ∧ cfg.pps ≤ (bm.sblk a).wpOfft ∧
      bm'.sblk = Function.update (Function.update bm.sblk a { bm.sblk a with isOwned := false }) i
        { bm.sblk i with isOwned := true, streamIdx := some idx })
  victims : ∀ t, Victim cfg bm t → Victim cfg bm' t ∧ i ≠ t

/-- A stream keeps its superblock or changes it for a free one. -/
theorem Pooled.getStreamSblk {bm bm' : Bm} {idx i : Nat} (h : Pooled cfg Live bm)
    (hds : cfg.dataSegregation = true) (z : Zoned cfg bm) (hidx : idx < 8)
    (hg : HashKv.getStreamSblk cfg bm idx = some (i, bm')) : Switched cfg bm idx i bm' := by
  obtain ⟨a, hact, hd, ho, hx⟩ := h.streams idx hidx
  have hne : ∀ t, Victim cfg bm t → t ≠ a := fun t hv => by
    rintro rfl
    rw [hv.owned] at ho
    cases ho
  unfold HashKv.getStreamSblk at hg
  dsimp only at hg
  rw [hact] at hg
  dsimp only at hg
  split at hg
  · next hswitch =>
    have hfull : cfg.pps ≤ (bm.sblk a).wpOfft := by
      simpa [ho, hx, checkFull] using hswitch
    obtain ⟨⟨j, bm₁⟩, hj, he⟩ := Option.map_eq_some_iff.mp hg
    obtain ⟨rfl, rfl⟩ := Prod.mk.inj he
    generalize hbm₀ : bm.setSblk a { bm.sblk a with isOwned := false } = bm₀ at hj
    have z₀ : Zoned cfg bm₀ := hbm₀ ▸ z.setSblk a _
    have h₀ : Pooled cfg (fun j => Live j ∧ j ≠ idx) bm₀ := hbm₀ ▸ h.release hidx hact hfull
    obtain ⟨hdj, hu, -⟩ := z₀.toInZone.getActiveSblk (fun hn => absurd hn (z₀.started hds)) hj
    obtain ⟨-, hfree, hopen⟩ := usable_data hds hu
    have hother : ∀ t, t ≠ a → bm₀.sblk t = bm.sblk t := fun t ht => by
      rw [← hbm₀]
      exact Function.update_of_ne ht ..
    -- The one that is given away is full, the new one is not.
    have hja : j ≠ a := by
      rintro rfl
      rw [← hbm₀] at hopen
      simp only [Bm.setSblk, Function.update_self] at hopen
      omega
    rw [hother j hja] at hfree hopen
    have hbm₁ := getActiveSblk_eq hj
    refine ⟨?_, ?_, ?_, Or.inr ⟨hfree, hopen, a, Ne.symm hja, hact, hfull, ?_⟩, fun t hv => ?_⟩
    · rw [hbm₁]
      exact (h₀.occupy hds (fun hl => hl.2 rfl) hdj hu rfl (by rfl) (by rfl)).mono fun k =>
        ⟨fun hk => hk.elim And.left fun hk => hk ▸ hidx, fun hk => by
          by_cases hki : k = idx
          · exact Or.inr hki
          · exact Or.inl ⟨hk, hki⟩⟩
    · simp [Bm.setStream]
    · simp [Bm.setStream, Bm.setSblk]
    · have hj : bm₁.sblk j = bm.sblk j := by
        rw [hbm₁]
        exact hother j hja
      show Function.update bm₁.sblk j
        { bm₁.sblk j with isOwned := true, streamIdx := some idx } = _
      rw [hj, hbm₁, ← hbm₀]
      rfl
    · have htj : t ≠ j := by
        rintro rfl
        have hf := hv.full
        omega
      have hsame : bm₁.sblk t = bm.sblk t := by
        rw [hbm₁]
        exact hother t (hne t hv)
      have hblk : (Function.update bm₁.sblk j
          { bm₁.sblk j with isOwned := true, streamIdx := some idx } t : Superblock) =
          bm.sblk t := by
        rw [Function.update_of_ne htj, hsame]
      exact ⟨⟨hv.data, (congrArg Superblock.isOwned hblk).trans hv.owned,
        (congrArg Superblock.isRsv hblk).trans hv.reserved,
        Nat.le_trans hv.full (congrArg Superblock.wpOfft hblk).ge⟩, Ne.symm htj⟩
  · cases hg
    exact ⟨h, hact, ho, Or.inl rfl, fun t hv => ⟨hv, (hne t hv).symm⟩⟩

/-! ## Section 3: Collections and allocations -/

/-- A victim stays one while its role does. -/
theorem Victim.blocks {bm bm' : Bm} {t : Nat} (h : Victim cfg bm t) (hb : SameBlocks bm bm') :
    Victim cfg bm' t := by
  obtain ⟨n, hn⟩ := hb.sblk t
  exact ⟨h.data, hn ▸ h.owned, hn ▸ h.reserved, hn ▸ h.full⟩

theorem Victim.sblk {bm bm' : Bm} {t : Nat} (h : Victim cfg bm t) (hb : bm'.sblk t = bm.sblk t) :
    Victim cfg bm' t :=
  ⟨h.data, hb ▸ h.owned, hb ▸ h.reserved, hb ▸ h.full⟩

theorem Victim.setStream {bm : Bm} {t : Nat} (h : Victim cfg bm t) (idx : Nat) (st : Stream) :
    Victim cfg (bm.setStream idx st) t :=
  h.sblk rfl

/-- The search for a victim finds one. -/
theorem Zoned.victim {bm : Bm} {idx t : Nat} (z : Zoned cfg bm) (hds : cfg.dataSegregation = true)
    (ht : getGcTarget cfg bm .data idx = some t) : Victim cfg bm t := by
  have hcand := (getGcTarget_spec ht).2.2.1
  simp only [gcCandidate, hds, checkFull, true_and, if_true, Bool.and_eq_true, Bool.not_eq_true',
    decide_eq_true_eq] at hcand
  exact ⟨z.target ht, hcand.1.1, hcand.1.2, hcand.2⟩

/-- The stream of a victim is one of the eight. -/
theorem victimStream_lt (bm : Bm) (t : Nat) : victimStream bm t < 8 := by
  unfold victimStream
  split
  · split
    · next hlt => exact hlt
    · decide
  · decide

theorem victimStream_blocks {bm bm' : Bm} (h : SameBlocks bm bm') (t : Nat) :
    victimStream bm' t = victimStream bm t := by
  obtain ⟨n, hn⟩ := h.sblk t
  unfold victimStream
  rw [hn]

/-- A collection that opens a new page: the stream has none open once the items are found. -/
theorem Store.gcFresh_room {s : Store} {idx target : Nat} {bm : Bm} {items : List GcItem}
    (hds : cfg.dataSegregation = true) (hfresh : s.gcFresh cfg idx = true)
    (ht : getGcTarget cfg s.bm .data idx = some target)
    (hc : collectPages cfg s.bm (pagesContainingValidGrain cfg s.bm target) = some (bm, items)) :
    items = [] ∨ (bm.stream (victimStream bm target)).grainRemain = 0 := by
  have hblocks := collectPages_blocks hc
  have hitems : s.gcItems cfg idx = items := by simp only [Store.gcItems, ht, hc]
  simp only [Store.gcFresh, hds, ht, hitems, Bool.not_true, Bool.false_or, Bool.or_eq_true,
    List.isEmpty_iff, decide_eq_true_eq] at hfresh
  rw [victimStream_blocks hblocks, hblocks.cursors.stream]
  exact hfresh

/-- Opening a page of a stream. -/
theorem Pooled.openPage {bm bm' : Bm} {idx a t : Nat} (h : Switched cfg bm idx a bm')
    (hv : Victim cfg bm t) (st : Stream)
    (hact : st.activeSblk = (bm'.stream idx).activeSblk) :
    Pooled cfg Live ((HashKv.getPageNum cfg bm' a).2.setStream idx st) ∧
      Victim cfg ((HashKv.getPageNum cfg bm' a).2.setStream idx st) t ∧ a ≠ t := by
  obtain ⟨hv', hne⟩ := h.victims t hv
  exact ⟨(h.pooled.getPageNum h.owned).setStream idx hact,
    hv'.sblk (Function.update_of_ne (Ne.symm hne) ..), hne⟩

/-- The write loop of a collection keeps the pools, and leaves the victim alone. -/
theorem Pooled.writeItems {s s' : Store} {target : Nat} {pages : List Nat} {items : List GcItem}
    {nodes : List GcNode} (hds : cfg.dataSegregation = true) (z : s.Zoned cfg)
    (h : Pooled cfg Live s.bm) (hv : Victim cfg s.bm target)
    (hw : HashKv.writeItems cfg s target pages items = some (s', nodes)) :
    Pooled cfg Live s'.bm ∧ Victim cfg s'.bm target := by
  unfold HashKv.writeItems at hw
  split at hw
  · cases hw
    exact ⟨h, hv⟩
  · obtain ⟨s₁, cur, ssd, hl, rfl⟩ := writeItemsStream_spec hw
    have hidx := victimStream_lt s.bm target
    generalize victimStream s.bm target = idx at hl hidx
    refine (gcWriteLoop_invariant
      (P := fun s _ => s.Zoned cfg ∧ Pooled cfg Live s.bm ∧ Victim cfg s.bm target)
      (Q := fun s _ => (s.Zoned cfg ∧ Pooled cfg Live s.bm ∧ Victim cfg s.bm target) ∧
        (s.bm.stream idx).grainRemain ≠ 0) (R := fun _ _ => True) ?_ ?_ ⟨z, h, hv⟩ hl).1.2
    -- A page is opened.
    · intro s cur s' cur' hP hp
      obtain ⟨hz, hne⟩ := gcPage_zoned hds hP.1 hp
      refine ⟨⟨hz, ?_⟩, hne⟩
      unfold gcPage at hp
      split at hp
      · obtain ⟨a, bm, hg, -, he⟩ := gcOpenPage_eq hp
        obtain ⟨hpool, hvic, -⟩ := Pooled.openPage (hP.2.1.getStreamSblk hds hP.1.toZoned hidx hg)
          hP.2.2 { bm.stream idx with
            activeSblkOffset := ((HashKv.getPageNum cfg bm a).2.sblk a).wpOfft,
            activePpa := cur'.ppa, grainRemain := 4 } rfl
        rw [he]
        exact ⟨hpool, hvic⟩
      · cases hp
        exact hP.2
    -- A grain is placed.
    · intro s cur it s' n hQ hp
      refine ⟨⟨gcPlace_zoned hQ.1.1 hQ.2 hp, ?_⟩, trivial⟩
      obtain ⟨bm, hb, rfl, -⟩ := gcPlace_spec hp
      have hblocks := placeItem_blocks hb
      have hpool : Pooled cfg Live (s.bm.setStream idx { s.bm.stream idx with
          grainRemain := sub32 (s.bm.stream idx).grainRemain 1 }) := hQ.1.2.1.setStream idx rfl
      exact ⟨hpool.blocks hblocks, (hQ.1.2.2.setStream idx _).blocks hblocks⟩

/-- A superblock of no pool is emptied and joins one of the pools. -/
theorem Pooled.retire {live : Nat → Prop} {bm bm' : Bm} {t : Nat} (h : Pooled cfg live bm)
    (hv : Victim cfg bm t) (hothers : ∀ i, i ≠ t → bm'.sblk i = bm.sblk i)
    (ho : (bm'.sblk t).isOwned = false) (hwp : (bm'.sblk t).wpOfft = 0)
    (hst : bm'.stream = bm.stream)
    (hpool : ((bm'.sblk t).isRsv = true ∧
        bm'.dataPart.rsvSblkCnt = bm.dataPart.rsvSblkCnt + 1 ∧
        bm'.dataPart.freeSblkCnt = bm.dataPart.freeSblkCnt) ∨
      ((bm'.sblk t).isRsv = false ∧ bm'.dataPart.rsvSblkCnt = bm.dataPart.rsvSblkCnt ∧
        bm'.dataPart.freeSblkCnt = bm.dataPart.freeSblkCnt + 1)) :
    Pooled cfg live bm' := by
  have hpps := cfg.pps_pos
  -- The victim was in no pool.
  have hnot : t ∉ freeSblks cfg bm := fun hmem => by
    have hz := (mem_freeSblks.mp hmem).2.2.2
    have hf := hv.full
    omega
  have hrole : ∀ i, i ≠ t → (i ∈ freeSblks cfg bm' ↔ i ∈ freeSblks cfg bm) := fun i hi => by
    rw [mem_freeSblks, mem_freeSblks, hothers i hi]
  have hcounts : bm'.dataPart.freeSblkCnt = (freeSblks cfg bm').card ∧
      bm'.dataPart.rsvSblkCnt = (rsvSblks cfg bm').card := by
    rcases hpool with ⟨hr, hrsv, hfree⟩ | ⟨hr, hrsv, hfree⟩
    · refine ⟨?_, ?_⟩
      · rw [hfree, h.free]
        refine congrArg Finset.card (Finset.ext fun i => ?_)
        by_cases hi : i = t
        · subst hi
          refine iff_of_false hnot fun hmem => ?_
          rw [(mem_freeSblks.mp hmem).2.1] at hr
          cases hr
        · exact (hrole i hi).symm
      · rw [hrsv, h.rsv, rsvSblks_insert hv.data.2 hv.reserved hr fun i hi => by rw [hothers i hi]]
    · refine ⟨?_, ?_⟩
      · rw [hfree, h.free, ← Finset.card_insert_of_notMem hnot]
        refine congrArg Finset.card (Finset.ext fun i => ?_)
        rw [Finset.mem_insert]
        by_cases hi : i = t
        · subst hi
          exact iff_of_true (Or.inl rfl) (mem_freeSblks.mpr ⟨hv.data, hr, ho, hwp⟩)
        · rw [hrole i hi]
          simp [hi]
      · rw [hrsv, h.rsv]
        refine congrArg Finset.card (rsvSblks_congr fun i => ?_).symm
        by_cases hi : i = t
        · rw [hi, hr, hv.reserved]
        · rw [hothers i hi]
  refine ⟨fun idx hl => ?_, fun i hi => ?_, fun i hi => ?_, hcounts.1, hcounts.2⟩
  · obtain ⟨a, ha, hd, hoa, hx⟩ := h.streams idx hl
    have hat : a ≠ t := by
      rintro rfl
      rw [hv.owned] at hoa
      cases hoa
    have hsame := hothers a hat
    rw [hst]
    exact ⟨a, ha, hd, hsame ▸ hoa, hsame ▸ hx⟩
  · have hit : i ≠ t := by
      rintro rfl
      rw [ho] at hi
      cases hi
    rw [hothers i hit] at hi
    rw [hst]
    exact h.owned i hi
  · by_cases hit : i = t
    · subst hit
      exact ⟨hv.data, ho⟩
    · rw [hothers i hit] at hi ⊢
      exact h.reserved i hi

/-- The victim joins the reserve pool, or the free pool once the reserve is complete. -/
theorem Pooled.retireVictim {s : Store} {t : Nat} (hds : cfg.dataSegregation = true)
    (h : Pooled cfg Live s.bm) (hv : Victim cfg s.bm t) :
    Pooled cfg Live (HashKv.retireVictim cfg s t).bm := by
  unfold HashKv.retireVictim
  rw [if_pos hds]
  dsimp only
  split
  · refine h.retire hv (fun i hi => ?_) ?_ ?_ rfl (Or.inl ⟨?_, rfl, rfl⟩)
    · simp [trimSegment, Bm.setSblk, Bm.setPart, hi]
    all_goals simp [trimSegment, Bm.setSblk, Bm.setPart]
  · refine h.retire hv (fun i hi => ?_) ?_ ?_ rfl (Or.inr ⟨?_, rfl, rfl⟩)
    · simp [trimSegment, Bm.setSblk, Bm.setPart, hi]
    all_goals simp [trimSegment, Bm.setSblk, Bm.setPart]

/-- The pools after a collection has written its items. -/
theorem Pooled.gcWritten {s s₁ : Store} {idx target : Nat} {nodes : List GcNode}
    (hds : cfg.dataSegregation = true) (z : s.Zoned cfg) (h : Pooled cfg Live s.bm)
    (hw : GcWritten cfg s idx target s₁ nodes) :
    Pooled cfg Live s₁.bm ∧ Victim cfg s₁.bm target := by
  obtain ⟨ht, bm, items, hc, h₁⟩ := hw
  have hblocks := collectPages_blocks hc
  have z₀ : Store.Zoned cfg { s with bm := bm } := z.congr ⟨hblocks.cursors, rfl, rfl⟩
  exact Pooled.writeItems hds z₀ (h.blocks hblocks) ((z.toZoned.victim hds ht).blocks hblocks) h₁

/-- A collection keeps the pools. -/
theorem Pooled.dpageGc {s s' : Store} {idx : Nat} (hds : cfg.dataSegregation = true)
    (t : s.Tidy cfg) (hfresh : s.gcFresh cfg idx = true) (h : Pooled cfg Live s.bm)
    (hg : HashKv.dpageGc cfg s idx = some s') : Pooled cfg Live s'.bm := by
  obtain ⟨target, s₁, nodes, s₂, hw, h₂, rfl⟩ := dpageGc_eq_some hg
  obtain ⟨h₁, hv₁⟩ := Pooled.gcWritten hds t.zoned h hw
  obtain ⟨t₁, -, hnodes, -⟩ := t.gcWritten hfresh hw
  obtain ⟨-, hm⟩ := MapStep.bulkMappingUpdate t₁ hnodes h₂
  exact (h₁.mapStep hm).retireVictim hds (hv₁.sblk (hm.data.sblk _ hv₁.data.1))

/-- What the allocation of a data page for stream `idx` does after its collection. -/
theorem dpAlloc_eq {s s' : Store} {idx ppa : Nat} (hds : cfg.dataSegregation = true)
    (ha : dpAlloc cfg s idx = some (ppa, s')) :
    ∃ s₁ i bm, ((s.gcDue cfg idx = false ∧ s₁ = s) ∨
      s.gcDue cfg idx = true ∧ HashKv.dpageGc cfg s idx = some s₁) ∧
      HashKv.getStreamSblk cfg s₁.bm idx = some (i, bm) ∧ ppa = (HashKv.getPageNum cfg bm i).1 ∧
      s' = { s₁ with bm := (HashKv.getPageNum cfg bm i).2, dActive := some i } := by
  unfold dpAlloc at ha
  rw [if_pos hds] at ha
  simp only [Option.bind_eq_bind, Option.bind_eq_some_iff] at ha
  obtain ⟨a, hact, s₁, h₁, ⟨i, bm⟩, h₂, he⟩ := ha
  cases he
  refine ⟨s₁, i, bm, ?_, h₂, rfl, rfl⟩
  have hdue : s.gcDue cfg idx = (checkFull cfg s.bm a && isGcNeeded cfg s.bm .data) := by
    simp [Store.gcDue, hds, hact, Bool.and_comm]
  rw [hdue]
  unfold streamGc at h₁
  split at h₁
  · next hgc => exact Or.inr ⟨hgc, h₁⟩
  · next hgc =>
    cases h₁
    exact Or.inl ⟨by simpa using hgc, rfl⟩

/-- And so does an assignment. -/
theorem Pooled.assignEntry {s s' : Store} {fl fl' : Nat → List FlushNode} {e : WbEntry} {pga : Nat}
    (hds : cfg.dataSegregation = true) (t : s.Tidy cfg) (h : Pooled cfg Live s.bm)
    (hfresh : (s.bm.stream (dIdx (getLpa cfg e.hParams) % 8)).grainRemain = 0 →
      s.gcDue cfg (dIdx (getLpa cfg e.hParams) % 8) = true →
      s.gcFresh cfg (dIdx (getLpa cfg e.hParams) % 8) = true)
    (ha : HashKv.assignEntry cfg s fl e = some (s', fl', pga)) : Pooled cfg Live s'.bm := by
  unfold HashKv.assignEntry at ha
  simp only [Option.bind_eq_bind, Option.bind_eq_some_iff] at ha
  obtain ⟨⟨s₁, fl₁, ppa⟩, h₁, bm, hb, he⟩ := ha
  cases he
  have hidx : dIdx (getLpa cfg e.hParams) % 8 < 8 := Nat.mod_lt _ (by decide)
  generalize dIdx (getLpa cfg e.hParams) % 8 = idx at *
  have hpool : Pooled cfg Live s₁.bm := by
    unfold assignPage at h₁
    split at h₁
    · next hrem =>
      simp only [Option.bind_eq_bind, Option.bind_eq_some_iff] at h₁
      obtain ⟨⟨p, s₂⟩, h₂, a, hact, he⟩ := h₁
      cases he
      obtain ⟨s₃, i, bm₃, h₃, hg, -, rfl⟩ := dpAlloc_eq hds h₂
      -- A collection may come first.
      have hs₃ : s₃.Tidy cfg ∧ Pooled cfg Live s₃.bm := by
        rcases h₃ with ⟨-, rfl⟩ | ⟨hdue, h₃⟩
        · exact ⟨t, h⟩
        · exact ⟨(t.dpageGc (hfresh hrem hdue) h₃).1, h.dpageGc hds t (hfresh hrem hdue) h₃⟩
      have hsw := hs₃.2.getStreamSblk hds hs₃.1.zoned.toZoned hidx hg
      exact (hsw.pooled.getPageNum hsw.owned).setStream idx rfl
    · cases h₁
      exact h.setStream idx rfl
  have hroom : Pooled cfg Live (s₁.bm.setStream idx { s₁.bm.stream idx with
      grainRemain := sub32 (s₁.bm.stream idx).grainRemain e.valLen }) := hpool.setStream idx rfl
  exact hroom.blocks (placeItem_blocks hb)

/-! ## Section 4: Runs -/

/-- A grain that is given up moves no superblock. -/
theorem wbInvalidateOld_blocks (s : Store) (lpa : Nat) :
    SameBlocks s.bm (wbInvalidateOld cfg s lpa).bm := by
  unfold wbInvalidateOld
  split
  · exact (grainInvariant_blocks cfg s.bm).invalidateGrains (fun _ _ => trivial) (.refl _)
  · exact .refl _

/-- Nor does an installation. -/
theorem Pooled.wbInstall {s : Store} (h : Pooled cfg Live s.bm) (t : s.Tidy cfg) (lpa ppa : Nat)
    (fp : UInt32) : Pooled cfg Live (wbInstall cfg s lpa ppa fp).bm :=
  (h.mapStep (.update t lpa ⟨some ppa, fp⟩)).blocks (.setOob _ _ _)

/-- Every step keeps the pools. -/
theorem Pooled.step {f f' : Ftl} {a : Label} (hds : cfg.dataSegregation = true) (t : f.Tidy cfg)
    (h : Pooled cfg Live f.store.bm) (hok : gcFresh cfg f a = true) (hstep : Step cfg hs f a f') :
    Pooled cfg Live f'.store.bm := by
  -- A pass of the mapping update moves translation pages only.
  have hpass : ∀ {e : WbEntry} {choice : Rebalance} {s : Store} {ex : WbExit},
      wbPass cfg f.realKeys f.hashTable f.store e choice = some (s, ex) →
        s.Tidy cfg ∧ Pooled cfg Live s.bm := fun hw => by
    have hr := MapStep.wbPath t.store (WbPath.of_pass hw).2
    exact ⟨hr.tidy, h.mapStep hr.step⟩
  cases hstep with
  | getPass choice r s ex hp hget =>
    have hr := MapStep.getPath t.store (GetPath.of_pass hget)
    have hs := h.mapStep hr.step
    cases ex <;> exact hs
  | assignEntry m e s fl pga hp hdone hds' he ha =>
    refine h.assignEntry hds t.store (fun hrem hgc => ?_) ha
    have hstream : f.gcStream cfg = some (dIdx (getLpa cfg e.hParams) % 8) := by
      simp [Ftl.gcStream, hp, hdone, hds, he, hrem, hgc]
    simpa [HashKv.gcFresh, hstream] using hok
  | assignPage m ppa s bm wb hp hdone hds' => simp [hds] at hds'
  | wbAgain choice m e s e' hp hc hw | wbParked choice m e s e' hp hc hw => exact (hpass hw).2
  | wbUpdate choice m e s e' ppa hp hc hw hppa =>
    obtain ⟨ts, hs⟩ := hpass hw
    exact (hs.blocks (wbInvalidateOld_blocks s _)).wbInstall (ts.wbInvalidateOld _) _ _ _
  | wbDirectUpdate choice m e s e' ppa hp hc hw hppa =>
    obtain ⟨ts, hs⟩ := hpass hw
    exact hs.wbInstall ts _ _ _
  | promote page hp => exact h.mapStep (.of_tables (.promoteHot _ page))
  | get | resume | setFull | setInsert | endAssign | pickRetry | pickMaster | flush | rehashBegin |
      rehashTick => exact h

/-- What holds along the set-up loops. -/
theorem foldlM_range {β : Type} {g : β → Nat → Option β} {P : Nat → β → Prop}
    (hg : ∀ {i b b'}, P i b → g b i = some b' → P (i + 1) b') : ∀ {n : Nat} {b b' : β},
      P 0 b → (List.range n).foldlM g b = some b' → P n b'
  | 0, b, b', hb, h => by
      cases h
      exact hb
  | n + 1, b, b', hb, h => by
      rw [List.range_succ, List.foldlM_append] at h
      obtain ⟨c, hc, h⟩ := Option.bind_eq_some_iff.mp h
      obtain ⟨d, hd, he⟩ := Option.bind_eq_some_iff.mp h
      cases he
      exact hg (foldlM_range hg hb hc) hd

/-- At first all data superblocks are free. -/
theorem bmZero_pooled (cfg : Settings) : Pooled cfg (fun _ => False) (bmZero cfg) where
  streams _ hf := hf.elim
  owned _ ho := by cases ho
  reserved _ hr := by cases hr
  free := by
    have hall : freeSblks cfg (bmZero cfg) = Finset.Ico cfg.dataSblk cfg.nos :=
      Finset.filter_true_of_mem fun _ _ => ⟨rfl, rfl, rfl⟩
    rw [hall, Nat.card_Ico]
    rfl
  rsv := by
    have hnone : rsvSblks cfg (bmZero cfg) = ∅ :=
      Finset.filter_false_of_mem fun _ _ hr => by cases hr
    rw [hnone]
    rfl

/-- The reserve is taken from the free pool. -/
theorem Pooled.initReserve {live : Nat → Prop} {bm bm' : Bm} (h : Pooled cfg live bm)
    (hds : cfg.dataSegregation = true) (z : InZone cfg bm) (hs : Startable cfg bm)
    (hi : HashKv.initReserve cfg bm = some bm') : Pooled cfg live bm' := by
  obtain ⟨⟨i, bm₁⟩, ha, rfl⟩ := Option.map_eq_some_iff.mp hi
  obtain ⟨hd, hu, -⟩ := z.getActiveSblk hs ha
  obtain ⟨hr, ho, -⟩ := usable_data hds hu
  obtain rfl := getActiveSblk_eq ha
  dsimp only
  -- The superblock found is set aside, the others stay.
  have hother : ∀ j, j ≠ i → (Function.update bm.sblk i
      { bm.sblk i with isOwned := false, streamIdx := none, isRsv := true } j : Superblock) =
        bm.sblk j := fun j hj => Function.update_of_ne hj ..
  refine ⟨fun idx hl => ?_, fun j hj => ?_, fun j hj => ?_, ?_, ?_⟩
  · obtain ⟨a, hact, hda, hoa, hx⟩ := h.streams idx hl
    have hai : a ≠ i := by
      rintro rfl
      rw [ho] at hoa
      cases hoa
    have hsame := hother a hai
    exact ⟨a, hact, hda, (congrArg Superblock.isOwned hsame).trans hoa,
      (congrArg Superblock.streamIdx hsame).trans hx⟩
  · refine h.owned j ?_
    by_cases hji : j = i
    · subst hji
      simp [Bm.setSblk, Bm.setPart] at hj
    · simpa [Bm.setSblk, Bm.setPart, hji] using hj
  · by_cases hji : j = i
    · subst hji
      exact ⟨hd, by simp [Bm.setSblk]⟩
    · have hsame := hother j hji
      obtain ⟨hdj, hoj⟩ := h.reserved j ((congrArg Superblock.isRsv hsame).symm.trans hj)
      exact ⟨hdj, (congrArg Superblock.isOwned hsame).trans hoj⟩
  · refine Eq.trans ?_ (freeSblks_take hd hr ho (Or.inl ?_) hother).symm
    · show (if (bm.sblk i).wpOfft = 0 then sub32 bm.dataPart.freeSblkCnt 1
        else bm.dataPart.freeSblkCnt) = _
      rw [h.free]
    · simp [Bm.setSblk]
  · refine (congrArg (· + 1) h.rsv).trans (rsvSblks_insert hd.2 hr ?_ fun j hj => ?_).symm
    · simp [Bm.setSblk]
    · exact congrArg Superblock.isRsv (hother j hj)

/-- And so is the superblock of a stream. -/
theorem Pooled.initStream {bm bm' : Bm} {idx : Nat} (h : Pooled cfg (· < idx) bm)
    (hds : cfg.dataSegregation = true) (z : InZone cfg bm) (hs : Startable cfg bm)
    (hi : HashKv.initStream cfg bm idx = some bm') : Pooled cfg (· < idx + 1) bm' := by
  obtain ⟨⟨i, bm₁⟩, ha, rfl⟩ := Option.map_eq_some_iff.mp hi
  obtain ⟨hd, hu, -⟩ := z.getActiveSblk hs ha
  rw [getActiveSblk_eq ha]
  exact (h.occupy hds (Nat.lt_irrefl _) hd hu rfl (by rfl) (by rfl)).mono fun j => by
    rw [Nat.lt_succ_iff_lt_or_eq]

/-- The set-up fills the reserve pool and gives each stream a superblock. -/
theorem bmInit_pooled {bm : Bm} (hds : cfg.dataSegregation = true) (h : bmInit cfg = some bm) :
    Pooled cfg Live bm := by
  unfold bmInit at h
  rw [if_pos hds] at h
  simp only [Option.bind_eq_bind, Option.bind_eq_some_iff] at h
  obtain ⟨bm₁, h₁, h₂⟩ := h
  have hr : Pooled cfg (fun _ => False) bm₁ ∧ InZone cfg bm₁ ∧ Startable cfg bm₁ := by
    refine foldlM_range (P := fun _ b => Pooled cfg (fun _ => False) b ∧ InZone cfg b ∧
      Startable cfg b) (fun hb hi => ?_)
      ⟨bmZero_pooled cfg, bmZero_inZone cfg, bmZero_startable cfg⟩ h₁
    obtain ⟨hz, hne, -⟩ := initReserve_inZone hb.2.1 hb.2.2 hi
    exact ⟨hb.1.initReserve hds hb.2.1 hb.2.2 hi, hz, fun hn => absurd hn hne⟩
  have hstart : Pooled cfg (· < 0) bm₁ := hr.1.mono fun j => by simp
  refine (foldlM_range (P := fun i b => Pooled cfg (· < i) b ∧ InZone cfg b ∧ Startable cfg b)
    (fun {i b b'} hb hi => ?_) ⟨hstart, hr.2⟩ h₂).1
  obtain ⟨hz, hne, -⟩ := initStream_inZone hb.2.1 hb.2.2 hi
  exact ⟨hb.1.initStream hds hb.2.1 hb.2.2 hi, hz, fun hn => absurd hn hne⟩

/-- The set-up leaves the pages alone. -/
theorem bmInit_pages {bm : Bm} (h : bmInit cfg = some bm) : SamePages (bmZero cfg) bm := by
  unfold bmInit at h
  split at h
  · simp only [Option.bind_eq_bind, Option.bind_eq_some_iff] at h
    obtain ⟨bm₁, h₁, h₂⟩ := h
    have hr : SamePages (bmZero cfg) bm₁ := by
      refine foldlM_range (P := fun _ b => SamePages (bmZero cfg) b) (fun hb hi => ?_) (.refl _) h₁
      obtain ⟨⟨i, bm₂⟩, ha, rfl⟩ := Option.map_eq_some_iff.mp hi
      obtain rfl := getActiveSblk_eq ha
      refine hb.trans (.trans (.setPart _ .data _) (.trans (.setSblk _ i ?_ ?_)
        (.setPart _ .data _))) <;> rfl
    refine foldlM_range (P := fun _ b => SamePages (bmZero cfg) b) (fun hb hi => ?_) hr h₂
    obtain ⟨⟨i, bm₂⟩, ha, rfl⟩ := Option.map_eq_some_iff.mp hi
    obtain rfl := getActiveSblk_eq ha
    refine hb.trans (.trans (.setPart _ .data _) (.trans (.setSblk _ i ?_ ?_)
      (.setStream _ _ _))) <;> rfl
  · cases h
    exact .refl _

/-- The pools are right in every state of such a run. -/
theorem reach_pooled {ok : Ftl → Label → Prop} (hle : ∀ f a, ok f a → gcFresh cfg f a = true)
    (hds : cfg.dataSegregation = true) {f : Ftl} (h : (machine cfg hs).Reach ok f) :
    Pooled cfg Live f.store.bm := by
  refine h.invariant (I := fun f => Pooled cfg Live f.store.bm) (fun f hinit => ?_)
    fun _ _ _ hr ih hok hn => ih.step hds (reach_tidy hle hr) (hle _ _ hok) (.of_next hn)
  obtain ⟨garbage, hi⟩ := hinit
  obtain ⟨s, hs, rfl⟩ := Option.map_eq_some_iff.mp hi
  obtain ⟨bm, hb, rfl⟩ := Option.map_eq_some_iff.mp hs
  exact bmInit_pooled hds hb

end AggreKV.HashKv
