import AggreKV.HashKv.Pools

/-! # The accounting of the block manager

    The valid counts against the bitmap, and the two counters of the data
    partition against its superblocks, over whole runs of the segregated
    build, also right after an erase.

    * `Counted`: a valid count is the number of set bits of its superblock.
    * `toggles`: a step validates clear grains and invalidates set ones.
    * `Trimmed`: the stores right after an erase in the middle of a step. -/

namespace AggreKV.HashKv

variable {cfg : Settings} {hs : Hashing}

/-! ## Section 1: Valid counts -/

def Counted (cfg : Settings) (bm : Bm) (i : Nat) : Prop :=
  (bm.sblk i).validCnt = blockCount (4 * cfg.pps) bm.validBitmap i

def DataCounted (cfg : Settings) (bm : Bm) : Prop := ∀ i, cfg.dataSblk ≤ i → Counted cfg bm i

/-- The bits of the `n` grains from `g` all equal `v`. -/
def grainsAre (v : Bool) (bm : Bm) (g n : Nat) : Bool :=
  (List.range n).all fun k => bm.validBitmap (g + k) == v

theorem grainsAre_iff {v : Bool} {bm : Bm} {g n : Nat} :
    grainsAre v bm g n = true ↔ ∀ k < n, bm.validBitmap (g + k) = v := by
  simp [grainsAre]

theorem grains_pos (cfg : Settings) : 0 < 4 * cfg.pps := Nat.mul_pos (by decide) cfg.pps_pos

theorem grainSblk_eq (cfg : Settings) (g : Nat) : grainSblk cfg g = g / (4 * cfg.pps) :=
  Nat.div_div_eq_div_mul ..

/-- The block manager of one grain, after its bit and the count of its superblock changed. -/
theorem counted_setGrain {bm bm' : Bm} {g n i : Nat} (v : Bool)
    (hb : bm'.validBitmap = Function.update bm.validBitmap g v)
    (hs : bm'.sblk = Function.update bm.sblk (grainSblk cfg g)
      { bm.sblk (grainSblk cfg g) with validCnt := n })
    (hn : blockCount (4 * cfg.pps) bm'.validBitmap (grainSblk cfg g) = n)
    (h : Counted cfg bm i) : Counted cfg bm' i := by
  unfold Counted
  rw [hs]
  by_cases hi : i = grainSblk cfg g
  · rw [hi, Function.update_self, hn]
  · rw [Function.update_of_ne hi, hb]
    refine Eq.trans h (blockCount_congr (grains_pos cfg) fun x hx => ?_).symm
    refine Function.update_of_ne ?_ ..
    rintro rfl
    exact hi (hx.symm.trans (grainSblk_eq cfg x).symm)

/-- A grain that was clear is counted in. -/
theorem Counted.validate {bm bm' : Bm} {g i : Nat} (hg : Counted cfg bm (grainSblk cfg g))
    (hclear : bm.validBitmap g = false) (he : validateGrain cfg bm g = some bm')
    (h : Counted cfg bm i) : Counted cfg bm' i := by
  obtain ⟨-, -, rfl⟩ := validateGrain_eq he
  refine counted_setGrain true rfl rfl ?_ h
  have hset := blockCount_set (grains_pos cfg) hclear (grainSblk cfg g)
  rw [if_pos (grainSblk_eq cfg g).symm] at hset
  exact hset.trans (congrArg (· + 1) hg.symm)

/-- A grain that was set is counted out. -/
theorem Counted.invalidate {bm : Bm} {g i : Nat} (hg : Counted cfg bm (grainSblk cfg g))
    (hset : bm.validBitmap g = true) (h : Counted cfg bm i) :
    Counted cfg (invalidateGrain cfg bm g) i := by
  refine counted_setGrain false rfl rfl ?_ h
  have hclear := blockCount_clear (grains_pos cfg) hset (grainSblk cfg g)
  rw [if_pos (grainSblk_eq cfg g).symm] at hclear
  have hle := blockCount_le (4 * cfg.pps) bm.validBitmap (grainSblk cfg g)
  have hfit := Copies.pps_lt cfg
  unfold Counted at hg
  rw [sub32_of_le (by omega) (by omega), hg]
  show blockCount _ (Function.update bm.validBitmap g false) _ = _
  omega

/-- Clear data grains are validated. -/
theorem DataCounted.validateGrains : ∀ {n : Nat} {bm bm' : Bm} {g : Nat}, DataCounted cfg bm →
    cfg.dataGrain ≤ g → (∀ k < n, bm.validBitmap (g + k) = false) →
    HashKv.validateGrains cfg bm g n = some bm' → DataCounted cfg bm'
  | 0, bm, bm', g, h, _, _, he => by
      cases he
      exact h
  | n + 1, bm, bm', g, h, hg, hclear, he => by
      obtain ⟨bm₁, h₁, he⟩ := Option.bind_eq_some_iff.mp he
      have hc : DataCounted cfg bm₁ := fun i hi =>
        (h _ (dataGrain_le_iff.mp hg)).validate (hclear 0 (Nat.succ_pos n)) h₁ (h i hi)
      refine hc.validateGrains (Nat.le_succ_of_le hg) (fun k hk => ?_) he
      obtain ⟨-, -, rfl⟩ := validateGrain_eq h₁
      show Function.update bm.validBitmap g true (g + 1 + k) = false
      rw [Function.update_of_ne (by omega), Nat.add_assoc, Nat.add_comm 1 k]
      exact hclear (k + 1) (by omega)

/-- Set data grains are invalidated. -/
theorem DataCounted.invalidateGrains : ∀ {n : Nat} {bm : Bm} {g : Nat}, DataCounted cfg bm →
    cfg.dataGrain ≤ g → (∀ k < n, bm.validBitmap (g + k) = true) →
    DataCounted cfg (HashKv.invalidateGrains cfg bm g n)
  | 0, bm, g, h, _, _ => h
  | n + 1, bm, g, h, hg, hset => by
      have hc : DataCounted cfg (invalidateGrain cfg bm g) := fun i hi =>
        (h _ (dataGrain_le_iff.mp hg)).invalidate (hset 0 (Nat.succ_pos n)) (h i hi)
      refine hc.invalidateGrains (Nat.le_succ_of_le hg) fun k hk => ?_
      show Function.update bm.validBitmap g false (g + 1 + k) = true
      rw [Function.update_of_ne (by omega), Nat.add_assoc, Nat.add_comm 1 k]
      exact hset (k + 1) (by omega)

/-- An item is placed on clear grains of the data partition. -/
theorem DataCounted.placeItem {bm bm' : Bm} {g lpa len : Nat} (h : DataCounted cfg bm)
    (hg : cfg.dataGrain ≤ g) (hclear : ∀ k < len, bm.validBitmap (g + k) = false)
    (hp : HashKv.placeItem cfg bm g lpa len = some bm') : DataCounted cfg bm' := by
  obtain ⟨bm₁, h₁, rfl⟩ := Option.map_eq_some_iff.mp hp
  have hc : DataCounted cfg bm₁ := h.validateGrains hg hclear h₁
  exact hc

theorem DataCounted.congr {bm bm' : Bm} (h : DataCounted cfg bm)
    (hb : bm'.validBitmap = bm.validBitmap)
    (hc : ∀ i, (bm'.sblk i).validCnt = (bm.sblk i).validCnt) : DataCounted cfg bm' := fun i hi => by
  unfold Counted
  rw [hc, hb]
  exact h i hi

/-- Operations on pages and streams leave the counts alone. -/
theorem DataCounted.pages {bm bm' : Bm} (h : DataCounted cfg bm) (hp : SamePages bm bm') :
    DataCounted cfg bm' :=
  h.congr hp.bitmap hp.validCnt

theorem DataCounted.getPageNum {bm : Bm} (h : DataCounted cfg bm) (a : Nat) :
    DataCounted cfg (HashKv.getPageNum cfg bm a).2 := by
  refine h.congr rfl fun i => ?_
  show (Function.update bm.sblk a _ i : Superblock).validCnt = _
  by_cases hi : i = a
  · rw [hi, Function.update_self]
  · rw [Function.update_of_ne hi]

/-- So do those on the map side. -/
theorem DataCounted.data {bm bm' : Bm} (h : DataCounted cfg bm) (hd : SameData cfg bm bm') :
    DataCounted cfg bm' := fun i hi => by
  unfold Counted
  rw [hd.sblk i hi]
  refine (h i hi).trans (blockCount_congr (grains_pos cfg) fun g hg => ?_).symm
  refine hd.bitmap g (dataGrain_le_iff.mpr ?_)
  rw [grainSblk_eq, hg]
  exact hi

/-- The valid counts of the MAP partition follow from the copies. -/
theorem Copies.counted_grains {bm : Bm} {copy : Nat → Option Nat} (h : Copies cfg bm copy)
    {i : Nat} (hi : i < cfg.dataSblk) : Counted cfg bm i := by
  unfold Counted
  rw [h.counted i hi, blockCount_mul (by decide) cfg.pps_pos fun g hg => h.whole g ?_]
  rw [← Nat.not_le, dataGrain_le_iff, grainSblk_eq, hg]
  omega

/-! ## Section 2: Collections -/

/-- No valid grain lies in the superblock. -/
def Emptied (cfg : Settings) (bm : Bm) (t : Nat) : Prop :=
  ∀ g, grainSblk cfg g = t → bm.validBitmap g = false

/-- `collectGrains` invalidates set grains only. -/
def collectToggles (cfg : Settings) (bm : Bm) (pga skip : Nat) : Nat → Bool
  | 0 => true
  | n + 1 =>
    match skip with
    | skip + 1 => collectToggles cfg bm (pga + 1) skip n
    | 0 =>
      if bm.validBitmap pga then
        let o := bm.oob pga
        grainsAre true bm pga o.length &&
          collectToggles cfg (invalidateGrains cfg bm pga o.length) (pga + 1) (o.length - 1) n
      else collectToggles cfg bm (pga + 1) 0 n

/-- `collectPages` invalidates set grains only. -/
def collectPagesToggles (cfg : Settings) (bm : Bm) : List Nat → Bool
  | [] => true
  | ppa :: ppas =>
    collectToggles cfg bm (ppa * 4) 0 4 &&
      (collectGrains cfg bm (ppa * 4) 0 4).all fun (bm, _) => collectPagesToggles cfg bm ppas

/-- `gcWriteLoop` validates clear grains only. -/
def gcWriteToggles (cfg : Settings) (idx : Nat) (s : Store) (cur : GcCursor) : List GcItem → Bool
  | [] => true
  | it :: items =>
    (gcPage cfg idx s cur).all fun (s, cur) =>
      !s.bm.validBitmap (ppaToPga cur.ppa (sub32 4 (s.bm.stream idx).grainRemain)) &&
        (gcPlace cfg idx s cur it).all fun (s, _) => gcWriteToggles cfg idx s cur items

/-- A collection for stream `idx` toggles each grain that it collects or writes. -/
def Store.gcToggles (cfg : Settings) (s : Store) (idx : Nat) : Bool :=
  (getGcTarget cfg s.bm .data idx).all fun target =>
    let pages := pagesContainingValidGrain cfg s.bm target
    collectPagesToggles cfg s.bm pages &&
      (collectPages cfg s.bm pages).all fun (bm, items) =>
        pages = [] || gcWriteToggles cfg (victimStream bm target) { s with bm := bm }
          ⟨0, none⟩ items

/-- Grains lose their validity only. -/
def OnlyClears (bm bm' : Bm) : Prop := ∀ g, bm'.validBitmap g = true → bm.validBitmap g = true

/-- Invalidating clears the grains of the item. -/
theorem OnlyClears.invalidateGrains : ∀ (n : Nat) (bm : Bm) (g : Nat),
    OnlyClears bm (HashKv.invalidateGrains cfg bm g n)
  | 0, _, _ => fun _ h => h
  | n + 1, bm, g => fun x hx => by
      have h₁ : Function.update bm.validBitmap g false x = true :=
        OnlyClears.invalidateGrains n (invalidateGrain cfg bm g) (g + 1) x hx
      by_cases hxg : x = g
      · rw [hxg, Function.update_self] at h₁
        cases h₁
      · rwa [Function.update_of_ne hxg] at h₁

/-- Collecting the grains of a page clears them, each counted out once. -/
theorem collectGrains_counted : ∀ {n : Nat} {bm bm' : Bm} {pga skip : Nat} {items : List GcItem},
    collectGrains cfg bm pga skip n = some (bm', items) →
      OnlyClears bm bm' ∧ (DataCounted cfg bm → cfg.dataGrain ≤ pga →
        collectToggles cfg bm pga skip n = true → DataCounted cfg bm')
  | 0, _, _, _, _, _, h => by
      cases h
      exact ⟨fun _ h => h, fun hc _ _ => hc⟩
  | n + 1, bm, bm', pga, skip + 1, items, h => by
      obtain ⟨hclear, hcount⟩ := collectGrains_counted (n := n) h
      exact ⟨hclear, fun hc hg ht => hcount hc (Nat.le_succ_of_le hg) ht⟩
  | n + 1, bm, bm', pga, 0, items, h => by
      unfold collectGrains at h
      unfold collectToggles
      dsimp only at h ⊢
      by_cases hv : bm.validBitmap pga = true
      -- The item of a valid grain: all its grains are invalidated, the next ones are skipped.
      · rw [if_pos hv] at h ⊢
        split at h
        · cases h
        · obtain ⟨⟨bm₁, rest⟩, hr, he⟩ := Option.map_eq_some_iff.mp h
          cases he
          obtain ⟨hclear, hcount⟩ := collectGrains_counted hr
          refine ⟨fun g hg => OnlyClears.invalidateGrains _ bm pga g (hclear g hg),
            fun hc hg ht => ?_⟩
          rw [Bool.and_eq_true] at ht
          exact hcount (hc.invalidateGrains hg (grainsAre_iff.mp ht.1)) (Nat.le_succ_of_le hg) ht.2
      · rw [if_neg hv] at h ⊢
        obtain ⟨hclear, hcount⟩ := collectGrains_counted h
        exact ⟨hclear, fun hc hg ht => hcount hc (Nat.le_succ_of_le hg) ht⟩

/-- A page without a valid grain. -/
theorem containsValidGrain_eq_false {bm : Bm} {p : Nat} :
    containsValidGrain bm p = false ↔ ∀ g, g / 4 = p → bm.validBitmap g = false := by
  unfold containsValidGrain
  simp only [Bool.or_eq_false_iff]
  refine ⟨fun ⟨⟨⟨h₀, h₁⟩, h₂⟩, h₃⟩ g hg => ?_, fun h => ?_⟩
  · have hcases : g = p * 4 ∨ g = p * 4 + 1 ∨ g = p * 4 + 2 ∨ g = p * 4 + 3 := by omega
    rcases hcases with rfl | rfl | rfl | rfl
    · exact h₀
    · exact h₁
    · exact h₂
    · exact h₃
  · exact ⟨⟨⟨h _ (by omega), h _ (by omega)⟩, h _ (by omega)⟩, h _ (by omega)⟩

/-- Collecting a list of pages leaves none of them with a valid grain. -/
theorem collectPages_counted : ∀ {ppas : List Nat} {bm bm' : Bm} {items : List GcItem},
    collectPages cfg bm ppas = some (bm', items) →
      OnlyClears bm bm' ∧ (∀ p ∈ ppas, containsValidGrain bm' p = false) ∧
        (DataCounted cfg bm → (∀ p ∈ ppas, cfg.dataPage ≤ p) →
          collectPagesToggles cfg bm ppas = true → DataCounted cfg bm')
  | [], bm, bm', items, h => by
      cases h
      exact ⟨fun _ h => h, (fun p hp => by cases hp), fun hc _ _ => hc⟩
  | ppa :: ppas, bm, bm', items, h => by
      obtain ⟨⟨bm₁, first⟩, hf, h⟩ := Option.bind_eq_some_iff.mp h
      dsimp only at h
      split at h
      · cases h
      · next hempty =>
        obtain ⟨⟨bm₂, rest⟩, hr, he⟩ := Option.map_eq_some_iff.mp h
        cases he
        obtain ⟨hclear₁, hcount₁⟩ := collectGrains_counted hf
        obtain ⟨hclear₂, hpages, hcount₂⟩ := collectPages_counted hr
        refine ⟨fun g hg => hclear₁ g (hclear₂ g hg), fun p hp => ?_, fun hc hd ht => ?_⟩
        -- A page that is empty stays so, since the later pages only clear.
        · rcases List.mem_cons.mp hp with rfl | hp
          · rw [Bool.not_eq_true, containsValidGrain_eq_false] at hempty
            refine containsValidGrain_eq_false.mpr fun g hg => ?_
            by_contra hv
            have hold := hclear₂ g (by simpa using hv)
            rw [hempty g hg] at hold
            cases hold
          · exact hpages p hp
        · unfold collectPagesToggles at ht
          rw [hf, Bool.and_eq_true] at ht
          have hpga : cfg.dataGrain ≤ ppa * 4 :=
            Nat.mul_le_mul_right 4 (hd ppa (List.mem_cons_self ..))
          exact hcount₂ (hcount₁ hc hpga ht.1) (fun p hp => hd p (List.mem_cons_of_mem _ hp)) ht.2

/-- After the first loop no valid grain is left in the victim. -/
theorem collectPages_emptied {bm bm' : Bm} {t : Nat} {items : List GcItem}
    (h : collectPages cfg bm (pagesContainingValidGrain cfg bm t) = some (bm', items)) :
    Emptied cfg bm' t := by
  obtain ⟨hclear, hpages, -⟩ := collectPages_counted h
  intro g hg
  have hrange : g / 4 ∈ List.range' (sblkOfft2Ppa cfg t 0) cfg.pps := by
    rw [List.mem_range'_1]
    have hdiv : g / 4 / cfg.pps = t := hg
    rw [Nat.div_eq_iff cfg.pps_pos] at hdiv
    have hpos := cfg.pps_pos
    unfold sblkOfft2Ppa
    omega
  by_contra hv
  have hv' : bm'.validBitmap g = true := by simpa using hv
  have hpage : containsValidGrain bm (g / 4) = true := by
    by_contra hno
    have hold := hclear g hv'
    rw [containsValidGrain_eq_false.mp (by simpa using hno) g rfl] at hold
    cases hold
  have hgone := hpages _ (List.mem_filter.mpr ⟨hrange, hpage⟩)
  exact hv (containsValidGrain_eq_false.mp hgone g rfl)

/-- A collection of victim `t` for stream `idx`, in the middle of its write loop. -/
structure Collecting (cfg : Settings) (idx t : Nat) (s : Store) (cur : GcCursor) : Prop where
  zoned : s.Zoned cfg
  pooled : Pooled cfg Live s.bm
  victim : Victim cfg s.bm t
  counted : DataCounted cfg s.bm
  emptied : Emptied cfg s.bm t
  cursor : (s.bm.stream idx).grainRemain = 0 ∨ ((s.bm.stream idx).grainRemain ≤ 4 ∧
    cfg.dataPage ≤ cur.ppa ∧ cur.ppa / cfg.pps ≠ t)

namespace Collecting

variable {idx t : Nat} {s s' : Store} {cur cur' : GcCursor}

/-- The write loop of a collection opens a page, never in the victim. -/
theorem page (h : Collecting cfg idx t s cur) (hds : cfg.dataSegregation = true) (hidx : idx < 8)
    (hp : gcPage cfg idx s cur = some (s', cur')) :
    Collecting cfg idx t s' cur' ∧ (s'.bm.stream idx).grainRemain ≠ 0 := by
  obtain ⟨hz, hne⟩ := gcPage_zoned hds h.zoned hp
  refine ⟨?_, hne⟩
  unfold gcPage at hp
  split at hp
  -- No room left: the stream opens the next page of its superblock or of a new one.
  · obtain ⟨a, bm, hg, hppa, he⟩ := gcOpenPage_eq hp
    have hopen := getStreamSblk_spec hds h.zoned.toZoned hg
    obtain ⟨hpool, hvic, hne⟩ := Pooled.openPage
      (h.pooled.getStreamSblk hds h.zoned.toZoned hidx hg) h.victim
      { bm.stream idx with
        activeSblkOffset := ((getPageNum cfg bm a).2.sblk a).wpOfft,
        activePpa := cur'.ppa, grainRemain := 4 } rfl
    have hdata : cfg.dataPage ≤ cur'.ppa := by
      rw [hppa]
      exact dataPage_le_getPageNum bm hopen.data
    have hdiv : cur'.ppa / cfg.pps = a := by
      rw [hppa]
      exact sblkOfft2Ppa_div hopen.hasPage
    have hbit : s'.bm.validBitmap = s.bm.validBitmap := by
      rw [he]
      exact hopen.pages.bitmap
    refine ⟨hz, ?_, ?_, ?_, fun g hg => ?_, Or.inr ⟨?_, hdata, hdiv ▸ hne⟩⟩
    · rw [he]
      exact hpool
    · rw [he]
      exact hvic
    · rw [he]
      exact ((h.counted.pages hopen.pages).getPageNum a).pages (.setStream ..)
    · rw [hbit]
      exact h.emptied g hg
    · rw [he]
      simp [Bm.setStream]
  · cases hp
    exact h

/-- It writes an item there. -/
theorem place {it : GcItem} {n : GcNode} (h : Collecting cfg idx t s cur)
    (hroom : (s.bm.stream idx).grainRemain ≠ 0)
    (hclear : s.bm.validBitmap (ppaToPga cur.ppa (sub32 4 (s.bm.stream idx).grainRemain)) = false)
    (hp : gcPlace cfg idx s cur it = some (s', n)) : Collecting cfg idx t s' cur := by
  have hz := gcPlace_zoned h.zoned hroom hp
  obtain ⟨hle, hdata, hdiv⟩ := h.cursor.resolve_left hroom
  obtain ⟨bm, hb, rfl, -⟩ := gcPlace_spec hp
  have hblocks := placeItem_blocks hb
  have hpool : Pooled cfg Live (s.bm.setStream idx { s.bm.stream idx with
      grainRemain := sub32 (s.bm.stream idx).grainRemain 1 }) := h.pooled.setStream idx rfl
  have hpga := dataGrain_le_ppaToPga hdata (sub32 4 (s.bm.stream idx).grainRemain)
  have hoff : sub32 4 (s.bm.stream idx).grainRemain = 4 - (s.bm.stream idx).grainRemain :=
    sub32_of_le hle (by decide)
  have hcount : DataCounted cfg (s.bm.setStream idx { s.bm.stream idx with
      grainRemain := sub32 (s.bm.stream idx).grainRemain 1 }) := h.counted.pages (.setStream ..)
  refine ⟨hz, hpool.blocks hblocks, (h.victim.setStream idx _).blocks hblocks, ?_, fun g hg => ?_,
    Or.inr ⟨?_, hdata, hdiv⟩⟩
  -- An item of a collection is written grain by grain.
  · refine hcount.placeItem hpga (fun k hk => ?_) hb
    rw [Nat.lt_one_iff.mp hk]
    exact hclear
  · -- The item goes to another superblock.
    obtain ⟨bm₁, h₁, rfl⟩ := Option.map_eq_some_iff.mp hb
    obtain ⟨bm₂, h₂, h₁⟩ := Option.bind_eq_some_iff.mp h₁
    cases h₁
    obtain ⟨-, -, rfl⟩ := validateGrain_eq h₂
    show Function.update s.bm.validBitmap _ true g = false
    rw [Function.update_of_ne, h.emptied g hg]
    rintro rfl
    refine hdiv ?_
    rw [← hg, grainSblk, ppaToPga, hoff]
    congr 1
    omega
  · show (bm.stream idx).grainRemain ≤ 4
    rw [hblocks.stream]
    simp only [Bm.setStream, Function.update_self]
    rw [sub32_of_le (Nat.pos_of_ne_zero hroom) (by omega)]
    omega

/-- The write loop of a collection, when it validates clear grains. -/
theorem writeLoop (hds : cfg.dataSegregation = true) (hidx : idx < 8) :
    ∀ {items : List GcItem} {s s' : Store} {cur cur' : GcCursor} {nodes : List GcNode},
      Collecting cfg idx t s cur → gcWriteToggles cfg idx s cur items = true →
      gcWriteLoop cfg idx s cur items = some (s', cur', nodes) → Collecting cfg idx t s' cur'
  | [], s, s', cur, cur', nodes, h, _, hl => by
      cases hl
      exact h
  | it :: items, s, s', cur, cur', nodes, h, ht, hl => by
      unfold gcWriteLoop at hl
      simp only [Option.bind_eq_bind, Option.bind_eq_some_iff] at hl
      obtain ⟨⟨s₁, cur₁⟩, h₁, ⟨s₂, n⟩, h₂, ⟨s₃, cur₃, ns⟩, h₃, he⟩ := hl
      cases he
      unfold gcWriteToggles at ht
      rw [h₁] at ht
      simp only [Option.all_some, Bool.and_eq_true, Bool.not_eq_true', h₂] at ht
      obtain ⟨hpage, hroom⟩ := h.page hds hidx h₁
      exact (hpage.place hroom ht.1 h₂).writeLoop hds hidx ht.2 h₃

end Collecting

/-- A collection has moved its items: the victim is empty. -/
theorem DataCounted.gcWritten {s s₁ : Store} {idx target : Nat} {nodes : List GcNode}
    (hds : cfg.dataSegregation = true) (t : s.Tidy cfg) (hfresh : s.gcFresh cfg idx = true)
    (hp : Pooled cfg Live s.bm) (h : DataCounted cfg s.bm) (ht : s.gcToggles cfg idx = true)
    (hw : GcWritten cfg s idx target s₁ nodes) :
    DataCounted cfg s₁.bm ∧ Emptied cfg s₁.bm target := by
  obtain ⟨htarget, bm, items, hc, h₁⟩ := hw
  have hv := t.zoned.toZoned.victim hds htarget
  have hblocks := collectPages_blocks hc
  simp only [Store.gcToggles, htarget, hc, Option.all_some, Bool.and_eq_true, Bool.or_eq_true,
    decide_eq_true_eq] at ht
  have hpages : ∀ p ∈ pagesContainingValidGrain cfg s.bm target, cfg.dataPage ≤ p := fun p hp =>
    Nat.le_trans (dataPage_le_sblkOfft2Ppa hv.data.1 0)
      (List.mem_range'_1.mp (List.mem_filter.mp hp).1).1
  have hcount := (collectPages_counted hc).2.2 h hpages ht.1
  have hempty := collectPages_emptied hc
  unfold writeItems at h₁
  split at h₁
  · cases h₁
    exact ⟨hcount, hempty⟩
  · next hne =>
    obtain ⟨s₂, cur, ssd, hl, rfl⟩ := writeItemsStream_spec h₁
    -- The stream starts on a new page, or there is nothing to write.
    rcases Store.gcFresh_room hds hfresh htarget hc with rfl | hroom
    · cases hl
      exact ⟨hcount, hempty⟩
    · have hstart : Collecting cfg (victimStream bm target) target { s with bm := bm } ⟨0, none⟩ :=
        ⟨t.zoned.congr ⟨hblocks.cursors, rfl, rfl⟩, hp.blocks hblocks, hv.blocks hblocks, hcount,
          hempty, Or.inl hroom⟩
      have hend := hstart.writeLoop hds (victimStream_lt bm target) (ht.2.resolve_left hne) hl
      exact ⟨hend.counted, hend.emptied⟩

/-- An empty superblock is erased. -/
theorem DataCounted.retireVictim {s : Store} {t : Nat} (hds : cfg.dataSegregation = true)
    (h : DataCounted cfg s.bm) (he : Emptied cfg s.bm t) :
    DataCounted cfg (HashKv.retireVictim cfg s t).bm := by
  have hzero : blockCount (4 * cfg.pps) s.bm.validBitmap t = 0 :=
    (blockCount_eq_zero (grains_pos cfg)).mpr fun g hg => he g ((grainSblk_eq cfg g).trans hg)
  have hbit : (HashKv.retireVictim cfg s t).bm.validBitmap = s.bm.validBitmap := by
    unfold HashKv.retireVictim
    rw [if_pos hds]
    dsimp only
    split <;> rfl
  -- The counter of the victim is reset, all others stay.
  have hcnt : ∀ i, ((HashKv.retireVictim cfg s t).bm.sblk i).validCnt =
      if i = t then 0 else (s.bm.sblk i).validCnt := fun i => by
    unfold HashKv.retireVictim
    rw [if_pos hds]
    dsimp only
    by_cases hi : i = t
    · subst hi
      split <;> simp [trimSegment, Bm.setSblk, Bm.setPart]
    · split <;> simp [trimSegment, Bm.setSblk, Bm.setPart, hi]
  intro i hi
  unfold Counted
  rw [hcnt, hbit]
  split
  · next hit => rw [hit, hzero]
  · exact h i hi

/-- A collection counts right, and erases the victim at the end. -/
theorem DataCounted.dpageGc {s s' : Store} {idx : Nat} (hds : cfg.dataSegregation = true)
    (t : s.Tidy cfg) (hfresh : s.gcFresh cfg idx = true) (hp : Pooled cfg Live s.bm)
    (h : DataCounted cfg s.bm) (ht : s.gcToggles cfg idx = true)
    (hg : HashKv.dpageGc cfg s idx = some s') : DataCounted cfg s'.bm := by
  obtain ⟨target, s₁, nodes, s₂, hw, h₂, rfl⟩ := dpageGc_eq_some hg
  obtain ⟨hc₁, he₁⟩ := DataCounted.gcWritten hds t hfresh hp h ht hw
  obtain ⟨t₁, -, hnodes, -⟩ := t.gcWritten hfresh hw
  have hvic := (Pooled.gcWritten hds t.zoned hp hw).2
  obtain ⟨-, hm⟩ := MapStep.bulkMappingUpdate t₁ hnodes h₂
  refine (hc₁.data hm.data).retireVictim hds fun g hg => ?_
  rw [hm.data.bitmap g (dataGrain_le_iff.mpr (hg ▸ hvic.data.1))]
  exact he₁ g hg

/-! ## Section 3: Runs -/

/-- The grains that the next step of the assignment gives to its entry are clear. -/
def Ftl.placesClear (cfg : Settings) (f : Ftl) : Bool :=
  match f.phase with
  | .assigning m =>
    cfg.maxWriteBuf ≤ m.done || f.wb[m.done]?.all fun e =>
      let idx := dIdx (getLpa cfg e.hParams) % 8
      (assignPage cfg f.store f.flStream idx).all fun (s, _, ppa) =>
        grainsAre false s.bm (ppaToPga ppa (sub32 4 (s.bm.stream idx).grainRemain)) e.valLen
  | _ => true

/-- The grains of the old value that the next mapping pass invalidates are set. -/
def Ftl.dropsSet (cfg : Settings) (f : Ftl) (choice : Rebalance) : Bool :=
  match f.phase with
  | .mapping m => m.cur.all fun e =>
    match wbPass cfg f.realKeys f.hashTable f.store e choice with
    | some (s, .update e) =>
      (s.cold.getPte (getLpa cfg e.hParams)).ppa.all fun p =>
        grainsAre true s.bm p (s.bm.oob p).length
    | _ => true
  | _ => true

/-- The step validates clear data grains and invalidates set ones. -/
def toggles (cfg : Settings) (f : Ftl) : Label → Bool
  | .assign => (f.gcStream cfg).all (f.store.gcToggles cfg) && f.placesClear cfg
  | .wbPass choice => f.dropsSet cfg choice
  | _ => true

/-- A value is assigned its grains, after a collection if one is due. -/
theorem DataCounted.assignEntry {s s' : Store} {fl fl' : Nat → List FlushNode} {e : WbEntry}
    {pga : Nat} (hds : cfg.dataSegregation = true) (t : s.Tidy cfg) (hp : Pooled cfg Live s.bm)
    (h : DataCounted cfg s.bm)
    (hfresh : (s.bm.stream (dIdx (getLpa cfg e.hParams) % 8)).grainRemain = 0 →
      s.gcDue cfg (dIdx (getLpa cfg e.hParams) % 8) = true →
      s.gcFresh cfg (dIdx (getLpa cfg e.hParams) % 8) = true ∧
        s.gcToggles cfg (dIdx (getLpa cfg e.hParams) % 8) = true)
    (hplace : ∀ s₁ fl₁ ppa, assignPage cfg s fl (dIdx (getLpa cfg e.hParams) % 8) =
      some (s₁, fl₁, ppa) → grainsAre false s₁.bm (ppaToPga ppa (sub32 4
        (s₁.bm.stream (dIdx (getLpa cfg e.hParams) % 8)).grainRemain)) e.valLen = true)
    (ha : HashKv.assignEntry cfg s fl e = some (s', fl', pga)) : DataCounted cfg s'.bm := by
  have hpga := (t.assignEntry hds (fun hr hd => (hfresh hr hd).1) ha).2
  unfold HashKv.assignEntry at ha
  simp only [Option.bind_eq_bind, Option.bind_eq_some_iff] at ha
  obtain ⟨⟨s₁, fl₁, ppa⟩, h₁, bm, hb, he⟩ := ha
  have hclear := grainsAre_iff.mp (hplace s₁ fl₁ ppa h₁)
  cases he
  generalize dIdx (getLpa cfg e.hParams) % 8 = idx at *
  have hcount : DataCounted cfg s₁.bm := by
    unfold assignPage at h₁
    split at h₁
    · next hrem =>
      simp only [Option.bind_eq_bind, Option.bind_eq_some_iff] at h₁
      obtain ⟨⟨p, s₂⟩, h₂, a, hact, he⟩ := h₁
      cases he
      obtain ⟨s₃, i, bm₃, h₃, hg, -, rfl⟩ := dpAlloc_eq hds h₂
      -- The page allocation collects first when the free superblocks run out.
      have hs₃ : s₃.Tidy cfg ∧ DataCounted cfg s₃.bm := by
        rcases h₃ with ⟨-, rfl⟩ | ⟨hdue, h₃⟩
        · exact ⟨t, h⟩
        · obtain ⟨hf, ht⟩ := hfresh hrem hdue
          exact ⟨(t.dpageGc hf h₃).1, h.dpageGc hds t hf hp ht h₃⟩
      have hopen := getStreamSblk_spec hds hs₃.1.zoned.toZoned hg
      exact ((hs₃.2.pages hopen.pages).getPageNum i).pages (.setStream ..)
    · cases h₁
      exact h.pages (.setStream ..)
  have hroom : DataCounted cfg (s₁.bm.setStream idx { s₁.bm.stream idx with
      grainRemain := sub32 (s₁.bm.stream idx).grainRemain e.valLen }) :=
      hcount.pages (.setStream ..)
  exact hroom.placeItem hpga hclear hb

/-- What the counters of the block manager say. -/
structure Accounted (cfg : Settings) (bm : Bm) : Prop where
  validCnt : ∀ i < cfg.nos, (bm.sblk i).validCnt = blockCount (4 * cfg.pps) bm.validBitmap i
  freeCnt : bm.dataPart.freeSblkCnt = (freeSblks cfg bm).card
  rsvCnt : bm.dataPart.rsvSblkCnt = (rsvSblks cfg bm).card
  disjoint : ∀ i, (bm.sblk i).isOwned = true → (bm.sblk i).isRsv = false
  owned : ∀ i, (bm.sblk i).isOwned = true ↔ ∃ idx < 8, (bm.stream idx).activeSblk = some i
  streams : ∀ idx < 8, ∃ a, (bm.stream idx).activeSblk = some a ∧ (bm.sblk a).streamIdx = some idx

/-- The counters of both partitions, the free lists and the streams. -/
theorem Accounted.of_pooled {s : Store} (t : s.Copied cfg) (hp : Pooled cfg Live s.bm)
    (hc : DataCounted cfg s.bm) : Accounted cfg s.bm where
  validCnt i _ := by
    by_cases hi : i < cfg.dataSblk
    · exact t.toCopies.counted_grains hi
    · exact hc i (by omega)
  freeCnt := hp.free
  rsvCnt := hp.rsv
  disjoint i ho := by
    by_contra hr
    have hno := (hp.reserved i (by simpa using hr)).2
    rw [ho] at hno
    cases hno
  owned i := by
    refine ⟨hp.owned i, fun ⟨idx, hidx, ha⟩ => ?_⟩
    obtain ⟨a, ha', -, ho, -⟩ := hp.streams idx hidx
    cases ha.symm.trans ha'
    exact ho
  streams idx hidx := by
    obtain ⟨a, ha, -, -, hx⟩ := hp.streams idx hidx
    exact ⟨a, ha, hx⟩

/-- A step that toggles what it touches keeps the counts. -/
theorem DataCounted.step {f f' : Ftl} {a : Label} (hds : cfg.dataSegregation = true)
    (t : f.Tidy cfg) (hp : Pooled cfg Live f.store.bm)
    (h : DataCounted cfg f.store.bm) (hfresh : gcFresh cfg f a = true)
    (ht : toggles cfg f a = true) (hstep : Step cfg hs f a f') : DataCounted cfg f'.store.bm := by
  have hpass : ∀ {e : WbEntry} {choice : Rebalance} {s : Store} {ex : WbExit},
      wbPass cfg f.realKeys f.hashTable f.store e choice = some (s, ex) →
        s.Tidy cfg ∧ DataCounted cfg s.bm := fun hw => by
    have hr := MapStep.wbPath t.store (WbPath.of_pass hw).2
    exact ⟨hr.tidy, h.data hr.step.data⟩
  -- Installing touches the mapping only.
  have hinstall : ∀ {s : Store} {lpa ppa : Nat} {fp : UInt32}, s.Tidy cfg →
      DataCounted cfg s.bm → DataCounted cfg (wbInstall cfg s lpa ppa fp).bm := fun ts hs =>
    (hs.data (MapStep.update ts _ _).data).congr rfl fun _ => rfl
  cases hstep with
  | getPass choice r s ex hp' hget =>
    have hr := MapStep.getPath t.store (GetPath.of_pass hget)
    have hs := h.data hr.step.data
    cases ex <;> exact hs
  | assignEntry m e s fl pga hp' hdone hds' he ha =>
    rw [toggles, Bool.and_eq_true] at ht
    refine h.assignEntry hds t.store hp (fun hrem hgc => ?_) (fun s₁ fl₁ ppa h₁ => ?_) ha
    · have hstream : f.gcStream cfg = some (dIdx (getLpa cfg e.hParams) % 8) := by
        simp [Ftl.gcStream, hp', hdone, hds, he, hrem, hgc]
      refine ⟨by simpa [HashKv.gcFresh, hstream] using hfresh, by simpa [hstream] using ht.1⟩
    · have hclear := ht.2
      simp only [Ftl.placesClear, hp', he, Option.all_some, h₁, Bool.or_eq_true,
        decide_eq_true_eq] at hclear
      exact hclear.resolve_left (by omega)
  | assignPage m ppa s bm wb hp' hdone hds' => simp [hds] at hds'
  | wbAgain choice m e s e' hp' hc hw | wbParked choice m e s e' hp' hc hw => exact (hpass hw).2
  | wbUpdate choice m e s e' ppa hp' hc hw hppa =>
    obtain ⟨ts, hcount⟩ := hpass hw
    refine hinstall (ts.wbInvalidateOld _) ?_
    unfold wbInvalidateOld
    split
    -- The old value is dropped, which the step is required to toggle.
    · next p hold =>
      simp only [toggles, Ftl.dropsSet, hp', hc, Option.all_some, hw, hold] at ht
      exact hcount.invalidateGrains (ts.mapped _ p hold) (grainsAre_iff.mp ht)
    · exact hcount
  | wbDirectUpdate choice m e s e' ppa hp' hc hw hppa =>
    obtain ⟨ts, hcount⟩ := hpass hw
    exact hinstall ts hcount
  | promote page hp' => exact h.data (MapStep.of_tables (.promoteHot _ page)).data
  | get | resume | setFull | setInsert | endAssign | pickRetry | pickMaster | flush | rehashBegin |
      rehashTick => exact h

/-- And so in every run of such steps. -/
theorem reach_counted {ok : Ftl → Label → Prop}
    (hle : ∀ f a, ok f a → gcFresh cfg f a = true ∧ toggles cfg f a = true)
    (hds : cfg.dataSegregation = true) {f : Ftl} (h : (machine cfg hs).Reach ok f) :
    DataCounted cfg f.store.bm := by
  have hfresh : ∀ f a, ok f a → gcFresh cfg f a = true := fun f a hok => (hle f a hok).1
  refine h.invariant (I := fun f => DataCounted cfg f.store.bm) (fun f hinit => ?_)
    fun _ _ _ hr ih hok hn => ih.step hds (reach_tidy hfresh hr) (reach_pooled hfresh hds hr)
      (hle _ _ hok).1 (hle _ _ hok).2 (.of_next hn)
  obtain ⟨garbage, hi⟩ := hinit
  obtain ⟨s, hs, rfl⟩ := Option.map_eq_some_iff.mp hi
  obtain ⟨bm, hb, rfl⟩ := Option.map_eq_some_iff.mp hs
  have hzero : DataCounted cfg (bmZero cfg) := fun i _ =>
    ((blockCount_eq_zero (v := (bmZero cfg).validBitmap) (grains_pos cfg)).mpr fun _ _ => rfl).symm
  exact hzero.pages (bmInit_pages hb)

/-- The store right after an erase while the step runs: at the end of the collection of
    data pages, or of a translation GC that a write-back needs. -/
inductive Trimmed (cfg : Settings) (f : Ftl) : Label → Store → Prop where
  | data (idx s) (hg : f.gcStream cfg = some idx) (hgc : dpageGc cfg f.store idx = some s) :
      Trimmed cfg f .assign s
  | map (a s page s') (hw : WritesBack cfg f a s page) (hgc : tpageGc cfg s = some s') :
      Trimmed cfg f a s'

/-- Collections that open a new page, and operations that toggle the grains they touch, keep
    all counters right, also right after an erase. -/
theorem block_accounting (hds : cfg.dataSegregation = true) {f : Ftl}
    (h : (machine cfg hs).Reach
      (fun f a => gcFresh cfg f a = true ∧ toggles cfg f a = true) f) :
    Accounted cfg f.store.bm ∧ ∀ a s, gcFresh cfg f a = true → toggles cfg f a = true →
      Trimmed cfg f a s → Accounted cfg s.bm := by
  have t := reach_tidy (fun _ _ hok => hok.1) h
  have hp := reach_pooled (fun _ _ hok => hok.1) hds h
  have hc := reach_counted (fun _ _ hok => hok) hds h
  refine ⟨.of_pooled t.store.copied hp hc, fun a s hfresh ht htrim => ?_⟩
  cases htrim with
  | data idx s hg hgc =>
    have hf : f.store.gcFresh cfg idx = true := by simpa [gcFresh, hg] using hfresh
    have htog : f.store.gcToggles cfg idx = true := by
      rw [toggles, Bool.and_eq_true] at ht
      simpa [hg] using ht.1
    exact .of_pooled (t.store.dpageGc hf hgc).1.copied (hp.dpageGc hds t.store hf hgc)
      (hc.dpageGc hds t.store hf hp htog hgc)
  | map a s₀ page s hw hgc =>
    -- The store of the write-back, as far as the data partition goes.
    have hstart : s₀.Tidy cfg ∧ Pooled cfg Live s₀.bm ∧ DataCounted cfg s₀.bm := by
      rcases (hw.reached t hfresh).2 with hr | ⟨idx, target, s₁, nodes, rfl, hg, hwrite, hr⟩
      -- Before any collection of data, or behind the one of the same step.
      · exact ⟨hr.tidy, hp.mapStep hr.step, hc.data hr.step.data⟩
      · have hf : f.store.gcFresh cfg idx = true := by simpa [gcFresh, hg] using hfresh
        have htog : f.store.gcToggles cfg idx = true := by
          rw [toggles, Bool.and_eq_true] at ht
          simpa [hg] using ht.1
        exact ⟨hr.tidy, (Pooled.gcWritten hds t.store.zoned hp hwrite).1.mapStep hr.step,
          (DataCounted.gcWritten hds t.store hf hp hc htog hwrite).1.data hr.step.data⟩
    obtain ⟨t₀, hp₀, hc₀⟩ := hstart
    have hm := MapStep.tpageGc t₀.copied hgc
    exact .of_pooled (t₀.copied.tpageGc hgc).1 (hp₀.mapStep hm) (hc₀.data hm.data)

/-! ## Section 4: Concrete runs -/

/-- Stream 2 collects superblock 14. Its key 9 moves to a fresh page of stream 1. -/
theorem block_accounting_collected : ∃ f s, Trimmed smallStreams f .assign s ∧
    (s.bm.sblk 14).wpOfft = 0 ∧ Accounted smallStreams f.store.bm ∧
    Accounted smallStreams s.bm := by
  obtain ⟨f, hf, hp⟩ := exists_reach_of_run smallStreams spreadHash
    (fun f a => gcFresh smallStreams f a && toggles smallStreams f a)
    (fillStream ++ flushRetry 1 4000 0 ++ flushRetry 2 4000 1 ++ flushRetry 2 4000 1 ++
      flushRetry 2 4000 1 ++ [.set (byteKey 2) 4000])
    (fun f => gcFresh smallStreams f .assign && toggles smallStreams f .assign &&
      (f.gcStream smallStreams).any fun idx => (dpageGc smallStreams f.store idx).any fun s =>
        (s.bm.sblk 14).wpOfft = 0) (by decide +kernel) (by decide +kernel)
  simp only [Bool.and_eq_true] at hf hp
  obtain ⟨⟨hfresh, ht⟩, hgc⟩ := hp
  obtain ⟨idx, hidx, hgc⟩ := (Option.any_eq_true ..).mp hgc
  obtain ⟨s, hs, hwp⟩ := (Option.any_eq_true ..).mp hgc
  obtain ⟨hacc, htrim⟩ := block_accounting rfl hf
  have hstep : Trimmed smallStreams f .assign s := .data idx s hidx hs
  exact ⟨f, s, hstep, of_decide_eq_true hwp, hacc, htrim .assign s hfresh ht hstep⟩

/-- As in `strayGrain_counterexample`, key 9 goes to grain 2 of page 0. Here page 0 is
    stale at that time, and the next translation GC erases its superblock. -/
theorem trimmedGrain_counterexample :
    ∃ f, (machine smallStreams spreadHash).Reach (fun f a => toggles smallStreams f a = true) f ∧
      f.phase.requestIds = [] ∧ (f.store.bm.sblk 0).validCnt = 0 ∧
      f.store.bm.validBitmap 2 = true ∧ ¬ Accounted smallStreams f.store.bm := by
  obtain ⟨f, hf, hp⟩ := exists_reach_of_run smallStreams spreadHash (toggles smallStreams)
    (fillStream ++ flushRetry 1 100 0 ++ flushRetry 193 100 1 ++ flushRetry 2 4000 0 ++
      flushRetry 10 4000 1 ++ flushRetry 3 100 0 ++ flushRetry 4 100 1 ++ flushRetry 3 100 1 ++
      flushRetry 4 100 3 ++ flushRetry 18 100 3 ++ flushRetry 3 100 2)
    (fun f => f.phase.requestIds.isEmpty && (f.store.bm.sblk 0).validCnt = 0 &&
      f.store.bm.validBitmap 2) (by decide +kernel) (by decide +kernel)
  simp only [Bool.and_eq_true, List.isEmpty_iff, decide_eq_true_eq] at hp
  refine ⟨f, hf, hp.1.1, hp.1.2, hp.2, fun hacc => ?_⟩
  have hzero := hacc.validCnt 0 (by decide)
  rw [hp.1.2] at hzero
  have hclear := (blockCount_eq_zero (grains_pos smallStreams)).mp hzero.symm 2 (by decide)
  rw [hp.2] at hclear
  cases hclear

end AggreKV.HashKv
