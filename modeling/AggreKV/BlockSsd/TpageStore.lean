import AggreKV.BlockSsd.Steps
import AggreKV.BlockSsd.Superblocks

/-! # The flash copies of the translation pages

    The map partition of the block SSD: every `t_ppa` is a valid page that
    carries the number of its translation page, whatever is written back or
    collected.

    * `MapOk`: the invariant of the map partition.
    * `Tended`: what an operation on the map partition leaves alone: data
      pages, mapping entries, residence; no page loses its flash copy.
    * `MapSide.listUp`: evictions, with `Backed` for the pages that still
      have their entries somewhere. -/

namespace AggreKV.BlockSsd

open HashKv (Oob PartNum Pte dIdx)

variable {cfg : Settings}

/-! ## Section 1: Filling a superblock -/

/-- `n` pages of superblock `r` have been taken and validated. -/
structure Filled (cfg : Settings) (r n : Nat) (bm bm' : Bm) : Prop where
  part : ∀ pn, bm'.part pn = bm.part pn
  sblk : ∀ j, j ≠ r → bm'.sblk j = bm.sblk j
  wpOfft : (bm'.sblk r).wpOfft = (bm.sblk r).wpOfft + n
  valid : ∀ p, p / cfg.pps ≠ r → bm'.validBitmap p = bm.validBitmap p
  kept : ∀ p, bm.validBitmap p = true → bm'.validBitmap p = true ∧ bm'.oob p = bm.oob p
  tidy : ∀ pn, Tidy cfg pn bm → Tidy cfg pn bm'
  zone : ∀ pn, ¬InZone cfg pn r → SameZone cfg pn bm bm'

namespace Filled

variable {r n m : Nat} {bm bm' bm'' : Bm}

/-- Nothing is filled. -/
theorem refl (r : Nat) (bm : Bm) : Filled cfg r 0 bm bm :=
  ⟨fun _ => rfl, fun _ _ => rfl, rfl, fun _ _ => rfl, fun _ hv => ⟨hv, rfl⟩, fun _ h => h,
    fun _ _ => .refl bm⟩

theorem trans (h : Filled cfg r n bm bm') (h' : Filled cfg r m bm' bm'') :
    Filled cfg r (n + m) bm bm'' where
  part pn := (h'.part pn).trans (h.part pn)
  sblk j hj := (h'.sblk j hj).trans (h.sblk j hj)
  wpOfft := by rw [h'.wpOfft, h.wpOfft, Nat.add_assoc]
  valid p hp := (h'.valid p hp).trans (h.valid p hp)
  kept p hv := by
    obtain ⟨hv₁, ho₁⟩ := h.kept p hv
    obtain ⟨hv₂, ho₂⟩ := h'.kept p hv₁
    exact ⟨hv₂, ho₂.trans ho₁⟩
  tidy pn ht := h'.tidy pn (h.tidy pn ht)
  zone pn hr := (h.zone pn hr).trans (h'.zone pn hr)

theorem fill {pn : PartNum} (ht : Tidy cfg pn bm) (hr : InZone cfg pn r)
    (hwp : (bm.sblk r).wpOfft < cfg.pps) (o : Oob) : Filled cfg r 1 bm (bm.fill cfg r o) where
  part _ := Bm.fill_part
  sblk j hj := by rw [Bm.fill_sblk hwp, Function.update_of_ne hj]
  wpOfft := by rw [Bm.fill_wpOfft hwp, if_pos rfl]
  valid p hp := by
    have hne : p ≠ bm.nextPage cfg r := by
      rintro rfl
      exact hp (Bm.nextPage_div hwp)
    rw [Bm.fill_validBitmap, Function.update_of_ne hne]
  kept p hv := by
    have hne : p ≠ bm.nextPage cfg r := by
      rintro rfl
      rw [ht.nextPage_free hr hwp] at hv
      cases hv
    rw [Bm.fill_validBitmap, Bm.fill_oob, Function.update_of_ne hne, Function.update_of_ne hne]
    exact ⟨hv, rfl⟩
  tidy _ ht' := ht'.fill hwp
  zone _ hout := .fill hwp hout

end Filled

/-- The end of a collection: the victim becomes the reserve, the old reserve active. -/
theorem Roles.retire {pn : PartNum} {bm bm' : Bm} {act rsv : Option Nat} {r target : Nat}
    (h : Roles cfg pn bm act rsv) (hr : rsv = some r) (hz : InZone cfg pn target)
    (hne : target ≠ (bm.part pn).sblkRsv) (hfull : (bm.sblk target).wpOfft = cfg.pps)
    (hpart : bm'.part pn = bm.part pn) :
    Roles cfg pn (changeReserve (trimSegment cfg bm' target) pn target) (some r) (some target) := by
  have hpart' : (changeReserve (trimSegment cfg bm' target) pn target).part pn =
      { bm.part pn with sblkRsv := target } := by
    rw [← hpart]
    cases pn <;> rfl
  -- A full superblock has been filled, so the partition has been active before.
  have hset : (bm.part pn).activeSblk ≠ none := fun hn => by
    have hpps := cfg.pps_pos
    have hzero := h.fresh hn target hz
    omega
  have hwp : ((changeReserve (trimSegment cfg bm' target) pn target).sblk target).wpOfft = 0 := by
    have hs : (changeReserve (trimSegment cfg bm' target) pn target).sblk =
        Function.update bm'.sblk target ⟨0, 0⟩ := by cases pn <;> rfl
    rw [hs, Function.update_self]
  obtain ⟨r', hr', hrsv, hrz, _⟩ := h.reserve
  rw [hr] at hr'
  cases hr'
  refine ⟨fun i => ?_, fun a ha => ?_, fun hn => ?_, ⟨target, rfl, ?_, hz, hwp⟩, fun a ha => ?_⟩
  · rw [hpart']
    exact h.bounds i
  · rw [hpart'] at ha
    exact h.cursor a ha
  · rw [hpart'] at hn
    exact absurd hn hset
  · rw [hpart']
  · cases ha
    rw [hpart']
    exact ⟨hrz, fun he => hne (he.symm.trans hrsv.symm), hset⟩

theorem SameZone.retire {pn pn' : PartNum} {bm : Bm} {target : Nat} (hne : pn' ≠ pn)
    (ht : ¬InZone cfg pn target) :
    SameZone cfg pn bm (changeReserve (BlockSsd.trimSegment cfg bm target) pn' target) :=
  (trimSegment ht).trans (setPart hne)

theorem Tidy.changeReserve {pn : PartNum} {bm : Bm} (h : Tidy cfg pn bm) (pn' : PartNum) (i : Nat) :
    Tidy cfg pn (changeReserve bm pn' i) := by
  cases pn' with
  | map => exact ⟨h.wp_le, h.below, h.counted⟩
  | data => exact ⟨h.wp_le, h.below, h.counted⟩

/-! ## Section 2: The invariant of the map partition -/

/-- Page `p` is a flash copy of translation page `page`. -/
def IsCopy (cfg : Settings) (bm : Bm) (page p : Nat) : Prop :=
  InZone cfg .map (p / cfg.pps) ∧ bm.validBitmap p = true ∧ (bm.oob p).lpa = page

structure MapOk (cfg : Settings) (s : Store) : Prop where
  tidy : Tidy cfg .map s.bm
  roles : Roles cfg .map s.bm s.tActive s.tReserve
  copies : ∀ page p, (s.cold.cmt page).tPpa = some p → IsCopy cfg s.bm page p

/-- The data pages and the mapping entries are the same. -/
structure SameData (cfg : Settings) (s s' : Store) : Prop where
  zone : SameZone cfg .data s.bm s'.bm
  dActive : s'.dActive = s.dActive
  dReserve : s'.dReserve = s.dReserve
  memTable : s'.cold.memTable = s.cold.memTable
  content : s'.content = s.content

theorem SameData.refl (s : Store) : SameData cfg s s := ⟨.refl _, rfl, rfl, rfl, rfl⟩

/-- Two steps on the map side. -/
theorem SameData.trans {s s' s'' : Store} (h : SameData cfg s s') (h' : SameData cfg s' s'') :
    SameData cfg s s'' where
  zone := h.zone.trans h'.zone
  dActive := h'.dActive.trans h.dActive
  dReserve := h'.dReserve.trans h.dReserve
  memTable := h'.memTable.trans h.memTable
  content := h'.content.trans h.content

/-- The data side, residence and dirtiness are the same, and no translation page lost its
    flash copy. -/
structure Tended (cfg : Settings) (s s' : Store) : Prop where
  data : SameData cfg s s'
  pt : ∀ q, (s'.cold.cmt q).pt = (s.cold.cmt q).pt
  dirty : ∀ q, (s'.cold.cmt q).dirty = (s.cold.cmt q).dirty
  copy : ∀ q, (s.cold.cmt q).tPpa.isSome = true → (s'.cold.cmt q).tPpa.isSome = true

theorem Tended.refl (s : Store) : Tended cfg s s :=
  ⟨.refl s, fun _ => rfl, fun _ => rfl, fun _ h => h⟩

theorem Tended.trans {s s' s'' : Store} (h : Tended cfg s s') (h' : Tended cfg s' s'') :
    Tended cfg s s'' where
  data := h.data.trans h'.data
  pt q := (h'.pt q).trans (h.pt q)
  dirty q := (h'.dirty q).trans (h.dirty q)
  copy q hq := h'.copy q (h.copy q hq)

/-! ## Section 3: Collections of translation pages -/

/-- The page `moveTpage` writes. -/
theorem moveTpage_bm (rsv : Nat) (s : Store) (page : Nat) :
    (moveTpage cfg rsv s page).bm = s.bm.fill cfg rsv ⟨true, page, 4096⟩ :=
  rfl

/-- The moved page gets the new address, the others keep theirs. -/
theorem moveTpage_cmt (rsv : Nat) (s : Store) (page q : Nat) :
    (moveTpage cfg rsv s page).cold.cmt q = if q = page then
      { s.cold.cmt page with tPpa := some (s.bm.nextPage cfg rsv) } else s.cold.cmt q :=
  Cold.cmt_setCmt ..

/-- Moving a page changes addresses only. -/
theorem Tended.moveTpage {rsv : Nat} {s : Store} (hz : InZone cfg .map rsv)
    (hwp : (s.bm.sblk rsv).wpOfft < cfg.pps) (page : Nat) :
    Tended cfg s (moveTpage cfg rsv s page) := by
  refine ⟨⟨.fill hwp (not_inZone_data hz), rfl, rfl, rfl, rfl⟩, fun q => ?_, fun q => ?_,
    fun q hq => ?_⟩
  · rw [moveTpage_cmt]
    split
    · next he => rw [he]
    · rfl
  · rw [moveTpage_cmt]
    split
    · next he => rw [he]
    · rfl
  · rw [moveTpage_cmt]
    split
    · rfl
    · exact hq

/-- The write loop of a collection. The pages still to be moved may have lost their copy. -/
theorem moveTpages_spec {rsv : Nat} (hz : InZone cfg .map rsv) : ∀ (pages : List Nat) (s : Store),
    Tidy cfg .map s.bm → (s.bm.sblk rsv).wpOfft + pages.length ≤ cfg.pps →
    (∀ page p, (s.cold.cmt page).tPpa = some p → IsCopy cfg s.bm page p ∨ page ∈ pages) →
    Filled cfg rsv pages.length s.bm (pages.foldl (moveTpage cfg rsv) s).bm ∧
      Tended cfg s (pages.foldl (moveTpage cfg rsv) s) ∧
      (∀ page p, ((pages.foldl (moveTpage cfg rsv) s).cold.cmt page).tPpa = some p →
        IsCopy cfg (pages.foldl (moveTpage cfg rsv) s).bm page p)
  | [], s, _, _, hc =>
    ⟨.refl rsv s.bm, .refl s, fun page p hp => (hc page p hp).resolve_right (by simp)⟩
  | page :: pages, s, ht, hle, hc => by
      rw [List.length_cons] at hle
      have hwp : (s.bm.sblk rsv).wpOfft < cfg.pps := by omega
      have hfill : Filled cfg rsv 1 s.bm (moveTpage cfg rsv s page).bm := Filled.fill ht hz hwp _
      have hcopies : ∀ q p, ((moveTpage cfg rsv s page).cold.cmt q).tPpa = some p →
          IsCopy cfg (moveTpage cfg rsv s page).bm q p ∨ q ∈ pages := fun q p hp => by
        rw [moveTpage_cmt] at hp
        split at hp
        -- The moved page itself: its copy is the new page.
        · next he =>
          cases hp
          refine Or.inl ⟨by rwa [Bm.nextPage_div hwp], ?_, ?_⟩
          · rw [moveTpage_bm, Bm.fill_validBitmap, Function.update_self]
          · rw [moveTpage_bm, Bm.fill_oob, Function.update_self, he]
        · next hne =>
          rcases hc q p hp with ⟨hpz, hv, ho⟩ | hmem
          · obtain ⟨hv', ho'⟩ := hfill.kept p hv
            exact Or.inl ⟨hpz, hv', by rw [ho', ho]⟩
          · exact Or.inr (List.mem_of_ne_of_mem hne hmem)
      have hroom : ((moveTpage cfg rsv s page).bm.sblk rsv).wpOfft + pages.length ≤ cfg.pps := by
        rw [hfill.wpOfft]
        omega
      obtain ⟨hf, htend, hc'⟩ :=
        moveTpages_spec hz pages (moveTpage cfg rsv s page) (hfill.tidy _ ht) hroom hcopies
      refine ⟨?_, (Tended.moveTpage hz hwp page).trans htend, hc'⟩
      rw [List.length_cons, Nat.add_comm]
      exact hfill.trans hf

/-- A collection of translation pages. The new active superblock has room. -/
theorem MapOk.tpageGc {s s' : Store} (h : MapOk cfg s) (hg : tpageGc cfg s = some s') :
    MapOk cfg s' ∧ Tended cfg s s' ∧ ∀ a, s'.tActive = some a →
    (s'.bm.sblk a).wpOfft < cfg.pps := by
  unfold BlockSsd.tpageGc at hg
  simp only [Option.bind_eq_bind, Option.bind_eq_some_iff, Option.pure_def, Option.some.injEq] at hg
  obtain ⟨target, ht, rsv, hrsv, ⟨bm, pages⟩, hcol, rfl⟩ := hg
  obtain ⟨hz, hne, hfull, hlive⟩ := getGcTarget_spec h.tidy h.roles ht
  obtain ⟨r, hr, hrpart, hrz, hwp0⟩ := h.roles.reserve
  rw [hrsv] at hr
  cases hr
  have hrt : rsv ≠ target := fun he => hne (he.symm.trans hrpart.symm)
  have hsp := collectTpages_spec hcol
  rw [show sblkOfft2Ppa cfg target 0 = target * cfg.pps from rfl] at hsp
  obtain ⟨rfl, rfl⟩ : bm = s.bm.clear cfg (s.bm.livePages cfg target) ∧
      pages = (s.bm.livePages cfg target).map fun p => (s.bm.oob p).lpa := hsp
  generalize hL : s.bm.livePages cfg target = L at *
  have hmem : ∀ p, p ∈ L ↔ p / cfg.pps = target ∧ s.bm.validBitmap p = true := fun p => by
    rw [← hL]
    exact Bm.mem_livePages
  have hnodup : L.Nodup := hL ▸ s.bm.nodup_livePages target
  have htidy : Tidy cfg .map (s.bm.clear cfg L) :=
    h.tidy.clear hnodup fun p hp => ((hmem p).mp hp).2
  have hdata : SameZone cfg .data s.bm (s.bm.clear cfg L) := .clear fun p hp => by
    rw [((hmem p).mp hp).1]
    exact not_inZone_data hz
  have hwp : ((s.bm.clear cfg L).sblk rsv).wpOfft = 0 := by rw [Bm.clear_wpOfft, hwp0]
  -- A copy outside the victim stays, a copy in it is on the list.
  have hcopies : ∀ page p, (s.cold.cmt page).tPpa = some p →
      IsCopy cfg (s.bm.clear cfg L) page p ∨ page ∈ L.map fun p => (s.bm.oob p).lpa := by
    intro page p hp
    obtain ⟨hpz, hv, ho⟩ := h.copies page p hp
    by_cases hpL : p ∈ L
    · exact Or.inr (List.mem_map.mpr ⟨p, hpL, ho⟩)
    · refine Or.inl ⟨hpz, ?_, ?_⟩
      · rw [Bm.clear_validBitmap, if_neg hpL, hv]
      · rw [Bm.clear_oob, ho]
  obtain ⟨hf, htend, hc⟩ := moveTpages_spec hrz (L.map fun p => (s.bm.oob p).lpa)
    { s with bm := s.bm.clear cfg L } htidy (by rw [hwp, List.length_map]; omega) hcopies
  generalize hs₁ : (L.map fun p => (s.bm.oob p).lpa).foldl (BlockSsd.moveTpage cfg rsv)
    { s with bm := s.bm.clear cfg L } = s₁ at *
  rw [List.length_map] at hf
  -- The reserve is another superblock, so nothing is valid in the victim any more.
  have hdead : ∀ p, p / cfg.pps = target → s₁.bm.validBitmap p = false := fun p hp => by
    rw [hf.valid p (by rw [hp]; exact hrt.symm), Bm.clear_validBitmap]
    split
    · rfl
    · next hout =>
      by_contra hv
      exact hout ((hmem p).mpr ⟨hp, by simpa using hv⟩)
  refine ⟨⟨?_, ?_, fun page p hp => ?_⟩, ⟨⟨?_, ?_, ?_, ?_, ?_⟩, htend.pt, htend.dirty, htend.copy⟩,
    fun a ha => ?_⟩
  · exact ((hf.tidy .map htidy).trimSegment hdead).changeReserve .map target
  · refine h.roles.retire hrsv hz hne hfull ?_
    rw [hf.part, Bm.clear_part]
  · obtain ⟨hpz, hv, ho⟩ := hc page p hp
    have hpt : p / cfg.pps ≠ target := fun he => by
      rw [hdead p he] at hv
      cases hv
    refine ⟨hpz, hv, ?_⟩
    show (if p / cfg.pps = target then (⟨false, 0, 0⟩ : Oob) else s₁.bm.oob p).lpa = page
    rw [if_neg hpt, ho]
  · have hne' : PartNum.map ≠ .data := by decide
    exact (hdata.trans (hf.zone .data (not_inZone_data hrz))).trans
      (.retire hne' (not_inZone_data hz))
  · exact htend.data.dActive
  · exact htend.data.dReserve
  · exact htend.data.memTable
  · exact htend.data.content
  · cases ha
    show (Function.update s₁.bm.sblk target ⟨0, 0⟩ rsv).wpOfft < cfg.pps
    rw [Function.update_of_ne hrt, hf.wpOfft, hwp]
    omega

/-! ## Section 4: Write-backs -/

/-- The block manager, the cursors of the map partition and the flash copies are those of
    `s`, or some copies have been given up without being invalidated. -/
theorem MapOk.congr {s s' : Store} (h : MapOk cfg s) (hbm : s'.bm = s.bm)
    (hact : s'.tActive = s.tActive) (hrsv : s'.tReserve = s.tReserve)
    (hc : ∀ q p, (s'.cold.cmt q).tPpa = some p → (s.cold.cmt q).tPpa = some p) : MapOk cfg s' where
  tidy := by
    rw [hbm]
    exact h.tidy
  roles := by
    rw [hbm, hact, hrsv]
    exact h.roles
  copies q p hp := by
    rw [hbm]
    exact h.copies q p (hc q p hp)

/-- The data partition has changed. -/
theorem MapOk.sameZone {s s' : Store} (h : MapOk cfg s) (hz : SameZone cfg .map s.bm s'.bm)
    (hact : s'.tActive = s.tActive) (hrsv : s'.tReserve = s.tReserve) (hcold : s'.cold = s.cold) :
    MapOk cfg s' where
  tidy := h.tidy.congr hz
  roles := by
    rw [hact, hrsv]
    exact h.roles.sameZone hz
  copies q p hp := by
    rw [hcold] at hp
    obtain ⟨hpz, hv, ho⟩ := h.copies q p hp
    exact ⟨hpz, by rw [hz.valid p hpz, hv], by rw [hz.oob p hpz, ho]⟩

/-- A page gives up its flash copy `p`, which is invalidated. -/
theorem MapOk.drop {s s' : Store} (h : MapOk cfg s) {page p : Nat}
    (hp : (s.cold.cmt page).tPpa = some p) (hbm : s'.bm = invalidatePage cfg s.bm p)
    (hact : s'.tActive = s.tActive) (hrsv : s'.tReserve = s.tReserve)
    (hout : (s'.cold.cmt page).tPpa = none)
    (hc : ∀ q, q ≠ page → (s'.cold.cmt q).tPpa = (s.cold.cmt q).tPpa) : MapOk cfg s' where
  tidy := by
    rw [hbm]
    exact h.tidy.invalidatePage (h.copies page p hp).2.1
  roles := by
    rw [hbm, hact, hrsv]
    exact h.roles.invalidatePage p
  copies q p' hp' := by
    have hq : q ≠ page := by
      rintro rfl
      rw [hout] at hp'
      cases hp'
    rw [hc q hq] at hp'
    obtain ⟨hz, hv, ho⟩ := h.copies q p' hp'
    have hne : p' ≠ p := by
      rintro rfl
      exact hq (ho.symm.trans (h.copies page p' hp).2.2)
    rw [hbm]
    refine ⟨hz, ?_, ho⟩
    show Function.update s.bm.validBitmap p false p' = true
    rw [Function.update_of_ne hne, hv]

/-- An allocation of a map page first looks for room. -/
theorem MapOk.tSwitch {s s' : Store} (h : MapOk cfg s) (hs : tSwitch cfg s = some s') :
    MapOk cfg s' ∧ Tended cfg s s' ∧ ∀ a, s'.tActive = some a →
    (s'.bm.sblk a).wpOfft < cfg.pps := by
  unfold BlockSsd.tSwitch at hs
  split at hs
  · split at hs
    · exact h.tpageGc hs
    -- Without a collection the next free superblock is opened.
    · obtain ⟨⟨i, bm⟩, hg, rfl⟩ := Option.map_eq_some_iff.mp hs
      obtain ⟨hz, hu, free, rfl⟩ := h.roles.getActiveSblk hg
      obtain ⟨hne, hwp⟩ := usable_wpOfft hu
      refine ⟨⟨⟨h.tidy.wp_le, h.tidy.below, h.tidy.counted⟩, ⟨?_, ?_, ?_, ?_, ?_⟩, h.copies⟩,
        ⟨⟨?_, rfl, rfl, rfl, rfl⟩, fun _ => rfl, fun _ => rfl, fun _ hq => hq⟩, fun a ha => ?_⟩
      · exact h.roles.bounds
      · intro a ha
        cases ha
        exact hz
      · intro hn
        cases hn
      · exact h.roles.reserve
      · intro a ha
        cases ha
        exact ⟨hz, hne, Option.some_ne_none i⟩
      · have hne' : PartNum.map ≠ .data := by decide
        exact .setPart hne'
      · cases ha
        exact hwp
  -- The active superblock has room: nothing changes.
  · next hact =>
    cases hs
    refine ⟨h, .refl s, fun a ha => ?_⟩
    simpa [ha, checkFull] using hact

/-- `page` has been written back to a new flash copy. -/
structure WrittenBack (cfg : Settings) (page : Nat) (s s' : Store) : Prop where
  data : SameData cfg s s'
  pt : ∀ q, (s'.cold.cmt q).pt = (s.cold.cmt q).pt
  dirty : ∀ q, q ≠ page → (s'.cold.cmt q).dirty = (s.cold.cmt q).dirty
  copy : ∀ q, q = page ∨ (s.cold.cmt q).tPpa.isSome = true → (s'.cold.cmt q).tPpa.isSome = true

/-- A page is written back to flash. -/
theorem MapOk.writeTpage {s s' : Store} {page : Nat} (h : MapOk cfg s)
    (hw : s.writeTpage cfg page = some s') : MapOk cfg s' ∧ WrittenBack cfg page s s' := by
  obtain ⟨⟨ppa, s₂⟩, ha, rfl⟩ := Option.map_eq_some_iff.mp hw
  unfold tpAlloc at ha
  simp only [Option.bind_eq_bind, Option.bind_eq_some_iff, Option.pure_def, Option.some.injEq] at ha
  obtain ⟨s₁, hs₁, a, hact, he⟩ := ha
  obtain ⟨h₁, htend, hroom⟩ := h.tSwitch hs₁
  have hwp := hroom a hact
  obtain ⟨hz, _⟩ := h₁.roles.active a hact
  cases he
  have hfill : Filled cfg a 1 s₁.bm (s₁.bm.fill cfg a ⟨true, page, 4096⟩) :=
    Filled.fill h₁.tidy hz hwp _
  have hcmt : ∀ q, (s₁.cold.written page (s₁.bm.nextPage cfg a)).cmt q = if q = page then
      { s₁.cold.cmt page with tPpa := some (s₁.bm.nextPage cfg a), dirty := false }
      else s₁.cold.cmt q := fun q => Cold.cmt_setCmt ..
  refine ⟨⟨hfill.tidy _ h₁.tidy, h₁.roles.fill hact hwp, fun q p hp => ?_⟩,
    ⟨⟨?_, ?_, ?_, ?_, ?_⟩, fun q => ?_, fun q hq => ?_, fun q hq => ?_⟩⟩
  -- The written page has the new copy; the others keep the copies they had after the switch.
  · have hp' := (congrArg Cmt.tPpa (hcmt q)).symm.trans hp
    split at hp'
    · next hqp =>
      cases hp'
      refine ⟨by rwa [Bm.nextPage_div hwp], ?_, ?_⟩
      · exact Function.update_self ..
      · show (Function.update s₁.bm.oob (s₁.bm.nextPage cfg a) ⟨true, page, 4096⟩
          (s₁.bm.nextPage cfg a)).lpa = q
        rw [Function.update_self, hqp]
    · obtain ⟨hpz, hv, ho⟩ := h₁.copies q p hp'
      obtain ⟨hv', ho'⟩ := hfill.kept p hv
      exact ⟨hpz, hv', (congrArg Oob.lpa ho').trans ho⟩
  · exact htend.data.zone.trans (.fill hwp (not_inZone_data hz))
  · exact htend.data.dActive
  · exact htend.data.dReserve
  · exact htend.data.memTable
  · exact htend.data.content
  · rw [← htend.pt q]
    refine (congrArg Cmt.pt (hcmt q)).trans ?_
    split
    · next he => rw [he]
    · rfl
  · rw [← htend.dirty q]
    exact congrArg Cmt.dirty ((hcmt q).trans (if_neg hq))
  · refine (congrArg (fun m : Cmt => m.tPpa.isSome) (hcmt q)).trans ?_
    split
    · rfl
    · next hne => exact htend.copy q (hq.resolve_left hne)

/-! ## Section 5: Pages with entries -/

/-- The entries of the page are somewhere: in the cache and due to be written back, or on
    flash. -/
def Cmt.backed (m : Cmt) : Bool := m.pt && m.dirty || m.tPpa.isSome

/-- Every page with a mapped entry is backed. -/
def Cold.Backed (c : Cold) : Prop :=
  ∀ lpa, (c.memTable lpa).ppa ≠ none → (c.cmt (dIdx lpa)).backed = true

structure MapSide (cfg : Settings) (s : Store) : Prop where
  map : MapOk cfg s
  backed : s.cold.Backed

/-- A flash copy backs a page. -/
theorem Cmt.backed_of_copy {m : Cmt} (h : m.tPpa.isSome = true) : m.backed = true := by
  simp [Cmt.backed, h]

/-- A backed page that is not a dirty resident one has a flash copy. -/
theorem Cmt.copy_of_backed {m : Cmt} (h : m.backed = true) (hd : (m.pt && m.dirty) = false) :
    m.tPpa.isSome = true := by
  rw [Cmt.backed, hd, Bool.false_or] at h
  exact h

namespace MapSide

variable {s s' : Store}

/-- Operations that change residence bits, hit counters and the LRU list only. -/
theorem congr (h : MapSide cfg s) (hbm : s'.bm = s.bm) (hact : s'.tActive = s.tActive)
    (hrsv : s'.tReserve = s.tReserve) (hmem : s'.cold.memTable = s.cold.memTable)
    (hc : ∀ q, (s'.cold.cmt q).tPpa = (s.cold.cmt q).tPpa)
    (hb : ∀ q, (s.cold.cmt q).backed = true → (s'.cold.cmt q).backed = true) : MapSide cfg s' where
  map := h.map.congr hbm hact hrsv fun q p hp => (hc q).symm.trans hp
  backed lpa hl := by
    rw [hmem] at hl
    exact hb _ (h.backed lpa hl)

/-- The data partition has changed. -/
theorem sameZone (h : MapSide cfg s) (hz : SameZone cfg .map s.bm s'.bm)
    (hact : s'.tActive = s.tActive) (hrsv : s'.tReserve = s.tReserve) (hcold : s'.cold = s.cold) :
    MapSide cfg s' where
  map := h.map.sameZone hz hact hrsv hcold
  backed := by
    rw [hcold]
    exact h.backed

/-- An eviction writes a dirty victim back, so no entry is lost. -/
theorem evict (h : MapSide cfg s) {rc : Bool} (he : s.evict cfg = some (rc, s')) :
    MapSide cfg s' ∧ SameData cfg s s' := by
  unfold Store.evict at he
  simp only [Option.bind_eq_bind, Option.bind_eq_some_iff, Option.pure_def] at he
  obtain ⟨⟨victim, lru⟩, _, he⟩ := he
  have hcmt : ∀ q, (s.cold.unload victim lru).cmt q = if q = victim then
      { s.cold.cmt victim with pt := false, lruPtr := none, hitCnt := 0 } else s.cold.cmt q :=
    fun q => Cold.cmt_setCmt ..
  have hvict : (s.cold.unload victim lru).cmt victim =
      { s.cold.cmt victim with pt := false, lruPtr := none, hitCnt := 0 } := by
    rw [hcmt, if_pos rfl]
  have hcopy : ∀ q, ((s.cold.unload victim lru).cmt q).tPpa = (s.cold.cmt q).tPpa := fun q => by
    rw [hcmt]
    split
    · next hq => rw [hq]
    · rfl
  have hmap : MapOk cfg { s with cold := s.cold.unload victim lru } :=
    h.map.congr rfl rfl rfl fun q p hp => (hcopy q).symm.trans hp
  split at he
  -- A dirty victim: its copy backs its entries from now on.
  · obtain ⟨s₁, hw, he⟩ := Option.bind_eq_some_iff.mp he
    cases he
    obtain ⟨hmap₁, hwb⟩ := hmap.writeTpage hw
    refine ⟨⟨hmap₁, fun lpa hl => ?_⟩, ⟨hwb.data.zone, hwb.data.dActive, hwb.data.dReserve,
      hwb.data.memTable, hwb.data.content⟩⟩
    rw [hwb.data.memTable] at hl
    have hb := h.backed lpa hl
    by_cases hq : dIdx lpa = victim
    · exact Cmt.backed_of_copy (hwb.copy _ (Or.inl hq))
    · have hsame : (s.cold.unload victim lru).cmt (dIdx lpa) = s.cold.cmt (dIdx lpa) := by
        rw [hcmt, if_neg hq]
      have hpt : (s'.cold.cmt (dIdx lpa)).pt = (s.cold.cmt (dIdx lpa)).pt := by
        rw [hwb.pt]
        exact congrArg Cmt.pt hsame
      have hdirty : (s'.cold.cmt (dIdx lpa)).dirty = (s.cold.cmt (dIdx lpa)).dirty := by
        rw [hwb.dirty _ hq]
        exact congrArg Cmt.dirty hsame
      by_cases hd : ((s.cold.cmt (dIdx lpa)).pt && (s.cold.cmt (dIdx lpa)).dirty) = true
      · simp [Cmt.backed, hpt, hdirty, hd]
      · refine Cmt.backed_of_copy (hwb.copy _ (Or.inr ?_))
        rw [hcopy]
        exact Cmt.copy_of_backed hb (by simpa using hd)
  · next hclean =>
    cases he
    refine ⟨h.congr rfl rfl rfl rfl hcopy fun q hb => ?_, .refl _, rfl, rfl, rfl, rfl⟩
    show ((s.cold.unload victim lru).cmt q).backed = true
    by_cases hq : q = victim
    · -- A clean page that is backed has a flash copy.
      subst hq
      have hd : (s.cold.cmt q).dirty = false := by
        have hnd : ¬((s.cold.unload q lru).cmt q).dirty = true := hclean
        rw [hvict] at hnd
        simpa using hnd
      refine Cmt.backed_of_copy ?_
      rw [hcopy]
      exact Cmt.copy_of_backed hb (by rw [hd, Bool.and_false])
    · rw [hcmt, if_neg hq]
      exact hb

/-- Listing a page makes room and then makes it resident. -/
theorem listUp (h : MapSide cfg s) {lpa : Nat} {rc : Bool}
    (hl : s.listUp cfg lpa = some (rc, s')) :
    MapSide cfg s' ∧ SameData cfg s s' ∧ (s'.cold.cmt (dIdx lpa)).pt = true := by
  unfold Store.listUp at hl
  obtain ⟨⟨rc', s₁⟩, he, hm⟩ := Option.map_eq_some_iff.mp hl
  cases hm
  have h₁ : MapSide cfg s₁ ∧ SameData cfg s s₁ := by
    split at he
    · exact h.evict he
    · cases he
      exact ⟨h, .refl s⟩
  -- The page becomes resident, its copy on flash is kept.
  have hcmt : ∀ q, (s₁.cold.makeResident (dIdx lpa)).cmt q = if q = dIdx lpa then
      { s₁.cold.cmt (dIdx lpa) with
        pt := true, hitCnt := 1, lruPtr := some s₁.cold.lruNext, isFlying := false }
      else s₁.cold.cmt q := fun q => Cold.cmt_setCmt ..
  refine ⟨h₁.1.congr rfl rfl rfl rfl (fun q => ?_) fun q hb => ?_, ⟨h₁.2.zone, h₁.2.dActive,
    h₁.2.dReserve, h₁.2.memTable, h₁.2.content⟩, ?_⟩
  · show ((s₁.cold.makeResident (dIdx lpa)).cmt q).tPpa = _
    rw [hcmt]
    split
    · next hq => rw [hq]
    · rfl
  · show ((s₁.cold.makeResident (dIdx lpa)).cmt q).backed = true
    rw [hcmt]
    split
    · next hq =>
      subst hq
      simp only [Cmt.backed, Bool.or_eq_true, Bool.and_eq_true, Bool.true_and] at hb ⊢
      exact hb.imp_left And.right
    · exact hb
  · show ((s₁.cold.makeResident (dIdx lpa)).cmt (dIdx lpa)).pt = true
    rw [hcmt, if_pos rfl]

theorem load (h : MapSide cfg s) {lpa : Nat} (hl : s.load lpa = some s') :
    MapSide cfg s' ∧ SameData cfg s s' := by
  unfold Store.load at hl
  dsimp only at hl
  split at hl
  · cases hl
  · cases hl
    have hcmt : ∀ q, ((s.cold.setCmt (dIdx lpa)
        { s.cold.cmt (dIdx lpa) with isFlying := true }).cmt q).tPpa = (s.cold.cmt q).tPpa ∧
        ((s.cold.setCmt (dIdx lpa) { s.cold.cmt (dIdx lpa) with isFlying := true }).cmt q).backed =
          (s.cold.cmt q).backed := fun q => by
      rw [Cold.cmt_setCmt]
      split
      · next hq =>
        subst hq
        exact ⟨rfl, rfl⟩
      · exact ⟨rfl, rfl⟩
    exact ⟨h.congr rfl rfl rfl rfl (fun q => (hcmt q).1) fun q hb => (hcmt q).2.trans hb,
      .refl _, rfl, rfl, rfl, rfl⟩

end MapSide

/-- A hit changes the hit counter and the LRU list only. -/
theorem Cold.hit_touch {c : Cold} {lpa : Nat} (hpt : (c.cmt (dIdx lpa)).pt = true) :
    (∀ q, (((c.isHit lpa).2.touch lpa).cmt q).tPpa = (c.cmt q).tPpa ∧
      (((c.isHit lpa).2.touch lpa).cmt q).pt = (c.cmt q).pt ∧
      (((c.isHit lpa).2.touch lpa).cmt q).dirty = (c.cmt q).dirty) ∧
    ((c.isHit lpa).2.touch lpa).memTable = c.memTable := by
  have htouch : ∀ c' : Cold, (c'.touch lpa).cmt = c'.cmt ∧
      (c'.touch lpa).memTable = c'.memTable := by
    intro c'
    unfold Cold.touch
    split
    · exact ⟨rfl, rfl⟩
    · exact ⟨rfl, rfl⟩
  rw [Cold.isHit_of_pt hpt, (htouch _).1, (htouch _).2]
  refine ⟨fun q => ?_, rfl⟩
  rw [Cold.cmt_setCmt]
  split
  · next hq =>
    subst hq
    exact ⟨rfl, rfl, rfl⟩
  · exact ⟨rfl, rfl, rfl⟩

theorem MapSide.hit {s : Store} (h : MapSide cfg s) {lpa : Nat}
    (hpt : (s.cold.cmt (dIdx lpa)).pt = true) :
    MapSide cfg { s with cold := (s.cold.isHit lpa).2.touch lpa } ∧
      SameData cfg s { s with cold := (s.cold.isHit lpa).2.touch lpa } := by
  obtain ⟨hcmt, hmem⟩ := Cold.hit_touch hpt
  refine ⟨h.congr rfl rfl rfl hmem (fun q => (hcmt q).1) fun q hb => ?_, .refl _, rfl,
    rfl, hmem, rfl⟩
  show Cmt.backed _ = true
  unfold Cmt.backed at hb ⊢
  rw [(hcmt q).1, (hcmt q).2.1, (hcmt q).2.2]
  exact hb

end AggreKV.BlockSsd
