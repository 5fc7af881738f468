import AggreKV.BlockSsd.Occupancy
import AggreKV.BlockSsd.Remap

/-! # Collections of data pages in the block SSD

    A collection moves the live pages of its victim. As long as no page of
    the batch in progress is among them, every slot keeps its value.

    * `DataOk B`: each slot has its own valid page, each valid page belongs
      to its slot or to the batch `B`.
    * `SameSlots`: no slot changes its value.
    * `Collection`: the stages of a collection before the trim. -/

namespace AggreKV.BlockSsd

open HashKv (Oob PartNum Pte dIdx)

variable {cfg : Settings}

/-! ## Section 1: The data partition -/

/-- The slots of the mapping table and the valid data pages belong together; the pages of
    `B` are those of the batch in progress. -/
structure DataOk (cfg : Settings) (B : Nat → Prop) (s : Store) : Prop where
  tidy : Tidy cfg .data s.bm
  roles : Roles cfg .data s.bm s.dActive s.dReserve
  mapped : ∀ l p, (s.cold.memTable l).ppa = some p →
    InZone cfg .data (p / cfg.pps) ∧ s.bm.validBitmap p = true ∧ (s.bm.oob p).lpa = l ∧
      (s.bm.oob p).length = 1 ∧ ¬B p
  live : ∀ p, InZone cfg .data (p / cfg.pps) → s.bm.validBitmap p = true → ¬B p →
    (s.cold.memTable (s.bm.oob p).lpa).ppa = some p
  batch : ∀ p, B p → InZone cfg .data (p / cfg.pps) ∧ s.bm.validBitmap p = true ∧
    (s.bm.oob p).length = 1

theorem DataOk.sameData {B : Nat → Prop} {s s' : Store} (h : DataOk cfg B s)
    (hs : SameData cfg s s') : DataOk cfg B s' where
  tidy := h.tidy.congr hs.zone
  roles := by
    rw [hs.dActive, hs.dReserve]
    exact h.roles.sameZone hs.zone
  mapped l p hp := by
    rw [hs.memTable] at hp
    obtain ⟨hz, hrest⟩ := h.mapped l p hp
    rw [hs.zone.valid p hz, hs.zone.oob p hz]
    exact ⟨hz, hrest⟩
  live p hz hv hB := by
    rw [hs.zone.valid p hz] at hv
    rw [hs.memTable, hs.zone.oob p hz]
    exact h.live p hz hv hB
  batch p hB := by
    obtain ⟨hz, hrest⟩ := h.batch p hB
    rw [hs.zone.valid p hz, hs.zone.oob p hz]
    exact ⟨hz, hrest⟩

/-- Every slot keeps its value and its fingerprint, every page of `B` its content. -/
structure SameSlots (B : Nat → Prop) (s s' : Store) : Prop where
  keyFp : ∀ l, (s'.cold.memTable l).keyFp = (s.cold.memTable l).keyFp
  mapped : ∀ l, (s'.cold.memTable l).ppa.isSome = (s.cold.memTable l).ppa.isSome
  value : ∀ l, (s'.cold.memTable l).ppa.bind s'.content = (s.cold.memTable l).ppa.bind s.content
  content : ∀ p, B p → s'.content p = s.content p

/-! ## Section 2: Moving live pages -/

/-- The items have been written to superblock `rsv`, one node each. -/
structure Rewritten (cfg : Settings) (rsv : Nat) (items : List GcItem) (nodes : List GcNode)
    (s s' : Store) : Prop where
  filled : Filled cfg rsv items.length s.bm s'.bm
  store : s'.cold = s.cold ∧ s'.dReserve = s.dReserve ∧ s'.tActive = s.tActive ∧
    s'.tReserve = s.tReserve
  lpas : nodes.map (·.lpa) = items.map (·.lpa)
  node : ∀ n ∈ nodes, ∃ it ∈ items, it.lpa = n.lpa ∧ n.ppa / cfg.pps = rsv ∧
    s.bm.validBitmap n.ppa = false ∧ s'.bm.validBitmap n.ppa = true ∧
      s'.bm.oob n.ppa = ⟨false, n.lpa, 1⟩ ∧ s'.content n.ppa = s.content it.src
  fresh : ∀ p, s'.bm.validBitmap p = true → s.bm.validBitmap p = true ∨ ∃ n ∈ nodes, n.ppa = p
  kept : ∀ p, s.bm.validBitmap p = true ∨ p / cfg.pps ≠ rsv → s'.content p = s.content p

/-- The items go to the next pages of the reserve, one after the other. -/
theorem writeItems_spec {rsv : Nat} (hz : InZone cfg .data rsv) : ∀ {items : List GcItem}
    {s s' : Store} {nodes : List GcNode}, Tidy cfg .data s.bm →
    (s.bm.sblk rsv).wpOfft + items.length ≤ cfg.pps → (∀ it ∈ items, it.src / cfg.pps ≠ rsv) →
    writeItems cfg rsv s items = some (s', nodes) → Rewritten cfg rsv items nodes s s'
  | [], s, s', nodes, _, _, _, h => by
      cases h
      exact ⟨.refl rsv _, ⟨rfl, rfl, rfl, rfl⟩, rfl, fun _ hn => (by cases hn),
        fun _ hv => Or.inl hv, fun _ _ => rfl⟩
  | it :: items, s, s', nodes, ht, hle, hsrc, h => by
      unfold writeItems at h
      simp only [Option.bind_eq_bind, Option.bind_eq_some_iff, Option.pure_def] at h
      obtain ⟨bm, hplace, ⟨s₂, ns⟩, hw, he⟩ := h
      cases he
      rw [List.length_cons] at hle
      have hwp : (s.bm.sblk rsv).wpOfft < cfg.pps := by omega
      obtain rfl : bm = s.bm.fill cfg rsv ⟨false, it.lpa, 1⟩ := placePage_eq hplace
      have hfree := ht.nextPage_free hz hwp
      have hdiv : s.bm.nextPage cfg rsv / cfg.pps = rsv := Bm.nextPage_div hwp
      have hfill : Filled cfg rsv 1 s.bm (s.bm.fill cfg rsv ⟨false, it.lpa, 1⟩) :=
        Filled.fill ht hz hwp _
      have hroom : ((s.bm.fill cfg rsv ⟨false, it.lpa, 1⟩).sblk rsv).wpOfft + items.length ≤
          cfg.pps := by
        rw [hfill.wpOfft]
        omega
      have hr := writeItems_spec hz (hfill.tidy _ ht) hroom
        (fun x hx => hsrc x (List.mem_cons_of_mem _ hx)) hw
      have hnew : (s.bm.fill cfg rsv ⟨false, it.lpa, 1⟩).validBitmap
          (s.bm.nextPage cfg rsv) = true :=
        Function.update_self ..
      -- The content of a page other than the new one is still the old one.
      have hold : ∀ p, p ≠ s.bm.nextPage cfg rsv → Function.update s.content (s.bm.nextPage cfg rsv)
          (s.content it.src) p = s.content p := fun p hp => Function.update_of_ne hp ..
      refine ⟨?_, ?_, ?_, fun n hn => ?_, fun p hv => ?_, fun p hp => ?_⟩
      · rw [List.length_cons, Nat.add_comm]
        exact hfill.trans hr.filled
      · exact hr.store
      · rw [List.map_cons, List.map_cons, hr.lpas]
      -- The node of `it`, or one of the rest, which took a later page.
      · rcases List.mem_cons.mp hn with rfl | hn
        · obtain ⟨hv, ho⟩ := hr.filled.kept _ hnew
          refine ⟨it, List.mem_cons_self, rfl, hdiv, hfree, hv, ?_, ?_⟩
          · refine ho.trans ?_
            exact Function.update_self ..
          · refine (hr.kept _ (Or.inl hnew)).trans ?_
            exact Function.update_self ..
        · obtain ⟨x, hx, hl, hd, hv, hv', ho, hc⟩ := hr.node n hn
          have hne : n.ppa ≠ s.bm.nextPage cfg rsv := fun he => by
            rw [he, hnew] at hv
            cases hv
          refine ⟨x, List.mem_cons_of_mem _ hx, hl, hd, ?_, hv', ho, hc.trans (hold _ ?_)⟩
          · exact (Function.update_of_ne hne ..).symm.trans hv
          · intro he
            exact hsrc x (List.mem_cons_of_mem _ hx) (he ▸ hdiv)
      -- A page that became valid is the new one or a page of the rest.
      · rcases hr.fresh p hv with hv | ⟨n, hn, he⟩
        · by_cases hp : p = s.bm.nextPage cfg rsv
          · exact Or.inr ⟨_, List.mem_cons_self, hp.symm⟩
          · exact Or.inl ((Function.update_of_ne hp ..).symm.trans hv)
        · exact Or.inr ⟨n, List.mem_cons_of_mem _ hn, he⟩
      · have hne : p ≠ s.bm.nextPage cfg rsv := by
          rintro rfl
          rcases hp with hp | hp
          · rw [hfree] at hp
            cases hp
          · exact hp hdiv
        refine (hr.kept p ?_).trans (hold p hne)
        exact hp.imp_left fun hv => (hfill.kept p hv).1

/-- The items were collected in the order of their pages and are written from the last
    one. -/
theorem Rewritten.reverse {rsv : Nat} {items : List GcItem} {nodes : List GcNode} {s s' : Store}
    (h : Rewritten cfg rsv items.reverse nodes s s') :
    Rewritten cfg rsv items nodes.reverse s s' where
  filled := by
    have hf := h.filled
    rwa [List.length_reverse] at hf
  store := h.store
  lpas := by rw [List.map_reverse, h.lpas, List.map_reverse, List.reverse_reverse]
  node n hn := by
    obtain ⟨it, hit, hrest⟩ := h.node n (List.mem_reverse.mp hn)
    exact ⟨it, List.mem_reverse.mp hit, hrest⟩
  fresh p hv := (h.fresh p hv).imp_right fun ⟨n, hn, he⟩ => ⟨n, List.mem_reverse.mpr hn, he⟩
  kept := h.kept

/-- A collection of superblock `target` before it is trimmed: `s₂` after the writes, `s₃`
    after the mapping update. -/
structure Collection (cfg : Settings) (s : Store) (target rsv : Nat) (nodes : List GcNode)
    (s₂ s₃ : Store) : Prop where
  victimZone : InZone cfg .data target
  notRsv : target ≠ (s.bm.part .data).sblkRsv
  full : (s.bm.sblk target).wpOfft = cfg.pps
  few : (s.bm.livePages cfg target).length < cfg.pps
  rsvZone : InZone cfg .data rsv
  reserve : s.dReserve = some rsv
  empty : (s.bm.sblk rsv).wpOfft = 0
  ne : rsv ≠ target
  written : Rewritten cfg rsv
    ((s.bm.livePages cfg target).map fun p => ⟨(s.bm.oob p).lpa, p⟩) nodes
    { s with bm := s.bm.clear cfg (s.bm.livePages cfg target) } s₂
  updated : bulkMappingUpdate cfg s₂ nodes = some s₃

/-- The victim's pages are invalidated before they are written again. -/
theorem Tidy.clearLive {pn : PartNum} {bm : Bm} (h : Tidy cfg pn bm) (i : Nat) :
    Tidy cfg pn (bm.clear cfg (bm.livePages cfg i)) :=
  h.clear (bm.nodup_livePages i) fun _ hp => (Bm.mem_livePages.mp hp).2

/-- A page is valid after the collecting if it was valid and outside the victim. -/
theorem Bm.clearLive_valid {bm : Bm} {i p : Nat} :
    (bm.clear cfg (bm.livePages cfg i)).validBitmap p = true ↔
      bm.validBitmap p = true ∧ p / cfg.pps ≠ i := by
  rw [Bm.clear_validBitmap]
  split
  · next hp => simp [(Bm.mem_livePages.mp hp).1]
  · next hp => exact ⟨fun hv => ⟨hv, fun he => hp (Bm.mem_livePages.mpr ⟨he, hv⟩)⟩, And.left⟩

/-- The collection taken apart: the victim, what was written, and the mapping update. -/
theorem dpageGc_stages {B : Nat → Prop} {s s' : Store} (hd : DataOk cfg B s)
    (hg : dpageGc cfg s = some s') :
    ∃ target ∈ getGcTarget cfg s.bm .data, ∃ rsv nodes s₂ s₃,
      Collection cfg s target rsv nodes s₂ s₃ ∧ s' = retireVictim cfg s₃ target := by
  unfold BlockSsd.dpageGc bulkWriteValidItems at hg
  simp only [Option.bind_eq_bind, Option.bind_eq_some_iff, Option.pure_def, Option.some.injEq] at hg
  obtain ⟨target, ht, ⟨bm, items⟩, hcol, ⟨s₂, nodes⟩, ⟨rsv, hrsv, ⟨s₁, ns⟩, hw, he⟩, s₃,
    hu, rfl⟩ := hg
  cases he
  obtain ⟨hz, hne, hfull, hlive⟩ := getGcTarget_spec hd.tidy hd.roles ht
  obtain ⟨r, hr, hrpart, hrz, hwp0⟩ := hd.roles.reserve
  have hrsv' : s.dReserve = some rsv := hrsv
  rw [hrsv'] at hr
  cases hr
  -- The victim is in use by the data partition, the reserve is not.
  have hrt : rsv ≠ target := fun he => hne (he.symm.trans hrpart.symm)
  have hsp := collectPages_spec hcol
  rw [show sblkOfft2Ppa cfg target 0 = target * cfg.pps from rfl] at hsp
  obtain ⟨rfl, rfl⟩ : bm = s.bm.clear cfg (s.bm.livePages cfg target) ∧
      items = (s.bm.livePages cfg target).map fun p => ⟨(s.bm.oob p).lpa, p⟩ := hsp
  -- The reserve is empty and the victim has at most `pps` live pages.
  have hroom : ((s.bm.clear cfg (s.bm.livePages cfg target)).sblk rsv).wpOfft +
      ((s.bm.livePages cfg target).map fun p => (⟨(s.bm.oob p).lpa, p⟩ : GcItem)).reverse.length ≤
        cfg.pps := by
    rw [Bm.clear_wpOfft, hwp0, List.length_reverse, List.length_map]
    omega
  have hw' := (writeItems_spec hrz (hd.tidy.clearLive target) hroom (fun it hit => by
    obtain ⟨p, hp, rfl⟩ := List.mem_map.mp (List.mem_reverse.mp hit)
    rw [(Bm.mem_livePages.mp hp).1]
    exact hrt.symm) hw).reverse
  refine ⟨target, ht, rsv, _, _, s₃,
    ⟨hz, hne, hfull, hlive, hrz, hrsv', hwp0, hrt, ⟨?_, ?_, ?_, ?_, ?_, ?_⟩, hu⟩, rfl⟩
  · exact hw'.filled
  · exact hw'.store
  · exact hw'.lpas
  · exact hw'.node
  · exact hw'.fresh
  · exact hw'.kept

/-- Outside the trimmed victim a page is as it was written. -/
theorem Remaps.retired_valid {s₂ s₃ : Store} {target p : Nat} (hrem : Remaps cfg s₂ s₃)
    (hz : InZone cfg .data (p / cfg.pps)) :
    (retireVictim cfg s₃ target).bm.validBitmap p = s₂.bm.validBitmap p :=
  hrem.zone.valid p hz

theorem Remaps.retired_oob {s₂ s₃ : Store} {target p : Nat} (hrem : Remaps cfg s₂ s₃)
    (hz : InZone cfg .data (p / cfg.pps)) (hp : p / cfg.pps ≠ target) :
    (retireVictim cfg s₃ target).bm.oob p = s₂.bm.oob p :=
  (if_neg hp).trans (hrem.zone.oob p hz)

namespace Collection

variable {B : Nat → Prop} {s s₂ s₃ : Store} {target rsv : Nat} {nodes : List GcNode}

/-- The map partition is that of `s` until the mapping update. -/
theorem mapSide (h : Collection cfg s target rsv nodes s₂ s₃) (hm : MapSide cfg s) :
    MapSide cfg s₂ := by
  have hclear : SameZone cfg .map s.bm (s.bm.clear cfg (s.bm.livePages cfg target)) :=
    .clear fun p hp => by
      rw [(Bm.mem_livePages.mp hp).1]
      exact not_inZone_map h.victimZone
  have hz : SameZone cfg .map s.bm s₂.bm :=
    hclear.trans (h.written.filled.zone .map (not_inZone_map h.rsvZone))
  obtain ⟨hcold, _, hact, hrsv⟩ := h.written.store
  exact hm.sameZone hz hact hrsv hcold

/-- Every live page of the victim is the page of its slot. -/
theorem slot (h : Collection cfg s target rsv nodes s₂ s₃) (hd : DataOk cfg B s)
    (hB : ∀ p ∈ s.bm.livePages cfg target, ¬B p) :
    ∀ p ∈ s.bm.livePages cfg target, (s.cold.memTable (s.bm.oob p).lpa).ppa = some p := by
  intro p hp
  obtain ⟨hpt, hv⟩ := Bm.mem_livePages.mp hp
  exact hd.live p (by rw [hpt]; exact h.victimZone) hv (hB p hp)

/-- No slot is moved twice. -/
theorem lpas_nodup (h : Collection cfg s target rsv nodes s₂ s₃) (hd : DataOk cfg B s)
    (hB : ∀ p ∈ s.bm.livePages cfg target, ¬B p) : (nodes.map (·.lpa)).Nodup := by
  rw [h.written.lpas, List.map_map]
  refine (s.bm.nodup_livePages target).map_on fun p hp q hq he => ?_
  have hpq := h.slot hd hB p hp
  have he' : (s.bm.oob p).lpa = (s.bm.oob q).lpa := he
  rw [he', h.slot hd hB q hq] at hpq
  exact (Option.some.inj hpq).symm

/-- The mapping update, seen from `s`. -/
theorem update (h : Collection cfg s target rsv nodes s₂ s₃) (hd : DataOk cfg B s)
    (hm : MapSide cfg s) (hB : ∀ p ∈ s.bm.livePages cfg target, ¬B p) :
    MapSide cfg s₃ ∧ Remaps cfg s₂ s₃ ∧ Moves s.cold.memTable s₃.cold.memTable nodes := by
  obtain ⟨hm₃, hrem, hmoves⟩ := (h.mapSide hm).bulkMappingUpdate (h.lpas_nodup hd hB) h.updated
  refine ⟨hm₃, hrem, ?_⟩
  rw [h.written.store.1] at hmoves
  exact hmoves

/-- Where the value of a node was, and where it is now. -/
theorem node (h : Collection cfg s target rsv nodes s₂ s₃) (hd : DataOk cfg B s)
    (hB : ∀ p ∈ s.bm.livePages cfg target, ¬B p) {n : GcNode} (hn : n ∈ nodes) :
    ∃ p, (s.cold.memTable n.lpa).ppa = some p ∧ p / cfg.pps = target ∧ n.ppa / cfg.pps = rsv ∧
      s₂.bm.validBitmap n.ppa = true ∧ s₂.bm.oob n.ppa = ⟨false, n.lpa, 1⟩ ∧
        s₂.content n.ppa = s.content p := by
  obtain ⟨it, hit, hl, hr, _, hv, ho, hc⟩ := h.written.node n hn
  obtain ⟨p, hp, rfl⟩ := List.mem_map.mp hit
  have hslot := h.slot hd hB p hp
  rw [show (s.bm.oob p).lpa = n.lpa from hl] at hslot
  exact ⟨p, hslot, (Bm.mem_livePages.mp hp).1, hr, hv, ho, hc⟩

/-- A slot without a node has its page outside the victim. -/
theorem stays (h : Collection cfg s target rsv nodes s₂ s₃) (hd : DataOk cfg B s) {l p : Nat}
    (hl : ∀ n ∈ nodes, n.lpa ≠ l) (hp : (s.cold.memTable l).ppa = some p) :
    p / cfg.pps ≠ target := by
  intro he
  obtain ⟨_, hv, ho, _⟩ := hd.mapped l p hp
  have hmem : l ∈ nodes.map (·.lpa) := by
    rw [h.written.lpas, List.map_map]
    exact List.mem_map.mpr ⟨p, Bm.mem_livePages.mpr ⟨he, hv⟩, ho⟩
  obtain ⟨n, hn, hnl⟩ := List.mem_map.mp hmem
  exact hl n hn hnl

/-- No valid page is in the reserve. -/
theorem not_rsv (h : Collection cfg s target rsv nodes s₂ s₃) (hd : DataOk cfg B s) {p : Nat}
    (hv : s.bm.validBitmap p = true) : p / cfg.pps ≠ rsv := by
  intro he
  have hlt := hd.tidy.below p (by rw [he]; exact h.rsvZone) hv
  rw [he, h.empty] at hlt
  exact absurd hlt (Nat.not_lt_zero _)

/-- A valid page outside the victim stays as it is. -/
theorem kept (h : Collection cfg s target rsv nodes s₂ s₃) {p : Nat}
    (hv : s.bm.validBitmap p = true) (hp : p / cfg.pps ≠ target) :
    s₂.bm.validBitmap p = true ∧ s₂.bm.oob p = s.bm.oob p ∧ s₂.content p = s.content p := by
  have hv' : (s.bm.clear cfg (s.bm.livePages cfg target)).validBitmap p = true :=
    Bm.clearLive_valid.mpr ⟨hv, hp⟩
  obtain ⟨hv₂, ho⟩ := h.written.filled.kept p hv'
  refine ⟨hv₂, ho.trans ?_, h.written.kept p (Or.inl hv')⟩
  exact congrFun (Bm.clear_oob _ _) p

/-- After the collection a valid page is one that stayed or that of a node. -/
theorem valid (h : Collection cfg s target rsv nodes s₂ s₃) {p : Nat}
    (hv : s₂.bm.validBitmap p = true) :
    s.bm.validBitmap p = true ∧ p / cfg.pps ≠ target ∨ ∃ n ∈ nodes, n.ppa = p :=
  (h.written.fresh p hv).imp_left Bm.clearLive_valid.mp

/-- The old reserve becomes the active superblock. -/
theorem retired_reserve (h : Collection cfg s target rsv nodes s₂ s₃) (hrem : Remaps cfg s₂ s₃) :
    s₃.dReserve = some rsv := by
  rw [hrem.dReserve, h.written.store.2.1]
  exact h.reserve

/-- The pages of the batch are valid and stay. -/
theorem batch_stays (hd : DataOk cfg B s) (hB : ∀ p ∈ s.bm.livePages cfg target, ¬B p) {p : Nat}
    (hp : B p) : s.bm.validBitmap p = true ∧ p / cfg.pps ≠ target := by
  obtain ⟨_, hv, _⟩ := hd.batch p hp
  exact ⟨hv, fun he => hB p (Bm.mem_livePages.mpr ⟨he, hv⟩) hp⟩

/-- The data pages after the trim. -/
theorem dataOk (h : Collection cfg s target rsv nodes s₂ s₃) (hd : DataOk cfg B s)
    (hB : ∀ p ∈ s.bm.livePages cfg target, ¬B p) (hrem : Remaps cfg s₂ s₃)
    (hmv : Moves s.cold.memTable s₃.cold.memTable nodes) :
    DataOk cfg B (retireVictim cfg s₃ target) := by
  obtain ⟨hmoves, hrest⟩ := hmv
  have htidy₂ : Tidy cfg .data s₂.bm := h.written.filled.tidy .data (hd.tidy.clearLive target)
  -- Nothing is valid in the victim when it is trimmed.
  have hdead : ∀ p, p / cfg.pps = target → s₃.bm.validBitmap p = false := fun p hp => by
    rw [hrem.zone.valid p (by rw [hp]; exact h.victimZone)]
    by_contra hv
    rw [Bool.not_eq_false] at hv
    rcases h.valid hv with ⟨_, hne⟩ | ⟨n, hn, rfl⟩
    · exact hne hp
    · obtain ⟨_, _, _, hnr, _⟩ := h.node hd hB hn
      exact h.ne (hnr.symm.trans hp)
  have hpart : s₃.bm.part .data = s.bm.part .data := by
    rw [hrem.zone.part, h.written.filled.part]
    exact Bm.clear_part ..
  refine ⟨?_, ?_, fun l p hp => ?_, fun p hz hv hBp => ?_, fun p hBp => ?_⟩
  · exact ((htidy₂.congr hrem.zone).trimSegment hdead).changeReserve .data target
  · have hroles := hd.roles.retire h.reserve h.victimZone h.notRsv h.full hpart
    show Roles cfg .data _ s₃.dReserve (some target)
    rw [h.retired_reserve hrem]
    exact hroles
  -- A mapped slot was moved, or its page is outside the victim.
  · by_cases hl : ∃ n ∈ nodes, n.lpa = l
    · obtain ⟨n, hn, rfl⟩ := hl
      obtain ⟨_, _, _, hnr, hv, ho, _⟩ := h.node hd hB hn
      have hpn : some n.ppa = some p := (congrArg Pte.ppa (hmoves n hn)).symm.trans hp
      cases hpn
      have hz : InZone cfg .data (n.ppa / cfg.pps) := by rw [hnr]; exact h.rsvZone
      rw [hrem.retired_valid hz, hrem.retired_oob hz (by rw [hnr]; exact h.ne), ho]
      refine ⟨hz, hv, rfl, rfl, fun hBp => ?_⟩
      exact h.not_rsv hd (batch_stays hd hB hBp).1 hnr
    · have hl' : ∀ n ∈ nodes, n.lpa ≠ l := fun n hn he => hl ⟨n, hn, he⟩
      have hp' : (s.cold.memTable l).ppa = some p :=
        (congrArg Pte.ppa (hrest l hl')).symm.trans hp
      have hpt := h.stays hd hl' hp'
      obtain ⟨hz, hv, hlen⟩ := hd.mapped l p hp'
      obtain ⟨hv₂, ho₂, _⟩ := h.kept hv hpt
      rw [hrem.retired_valid hz, hrem.retired_oob hz hpt, ho₂]
      exact ⟨hz, hv₂, hlen⟩
  -- A valid page was written by the collection, or was valid before and belongs to its slot
  -- still.
  · rw [hrem.retired_valid hz] at hv
    rcases h.valid hv with ⟨hv', hpt⟩ | ⟨n, hn, rfl⟩
    · rw [hrem.retired_oob hz hpt, (h.kept hv' hpt).2.1]
      have hslot := hd.live p hz hv' hBp
      refine (congrArg Pte.ppa (hrest _ fun n hn he => ?_)).trans hslot
      obtain ⟨q, hq, hqt, _⟩ := h.node hd hB hn
      rw [he, hslot] at hq
      cases hq
      exact hpt hqt
    · obtain ⟨_, _, _, hnr, _, ho, _⟩ := h.node hd hB hn
      rw [hrem.retired_oob hz (by rw [hnr]; exact h.ne), ho]
      exact congrArg Pte.ppa (hmoves n hn)
  · obtain ⟨hz, _, hlen⟩ := hd.batch p hBp
    obtain ⟨hv, hpt⟩ := batch_stays hd hB hBp
    obtain ⟨hv₂, ho₂, _⟩ := h.kept hv hpt
    rw [hrem.retired_valid hz, hrem.retired_oob hz hpt, ho₂]
    exact ⟨hz, hv₂, hlen⟩

/-- A moved slot has its new page, with the content of the old one. -/
theorem sameSlots (h : Collection cfg s target rsv nodes s₂ s₃) (hd : DataOk cfg B s)
    (hB : ∀ p ∈ s.bm.livePages cfg target, ¬B p) (hrem : Remaps cfg s₂ s₃)
    (hmv : Moves s.cold.memTable s₃.cold.memTable nodes) :
    SameSlots B s (retireVictim cfg s₃ target) := by
  obtain ⟨hmoves, hrest⟩ := hmv
  have hcontent : (retireVictim cfg s₃ target).content = s₂.content := hrem.content
  -- The fingerprint, whether the slot is mapped, its content, and the pages of the batch.
  refine ⟨fun l => ?_, fun l => ?_, fun l => ?_, fun p hBp => ?_⟩
  · show (s₃.cold.memTable l).keyFp = _
    by_cases hl : ∃ n ∈ nodes, n.lpa = l
    · obtain ⟨n, hn, rfl⟩ := hl
      rw [hmoves n hn]
    · rw [hrest l fun n hn he => hl ⟨n, hn, he⟩]
  · show (s₃.cold.memTable l).ppa.isSome = _
    by_cases hl : ∃ n ∈ nodes, n.lpa = l
    · obtain ⟨n, hn, rfl⟩ := hl
      obtain ⟨p, hp, _⟩ := h.node hd hB hn
      rw [hmoves n hn, hp]
      rfl
    · rw [hrest l fun n hn he => hl ⟨n, hn, he⟩]
  · rw [hcontent]
    show (s₃.cold.memTable l).ppa.bind s₂.content = _
    by_cases hl : ∃ n ∈ nodes, n.lpa = l
    · obtain ⟨n, hn, rfl⟩ := hl
      obtain ⟨p, hp, _, _, _, _, hcp⟩ := h.node hd hB hn
      rw [hmoves n hn, hp]
      exact hcp
    · have hl' : ∀ n ∈ nodes, n.lpa ≠ l := fun n hn he => hl ⟨n, hn, he⟩
      rw [hrest l hl']
      cases hp : (s.cold.memTable l).ppa with
      | none => rfl
      | some p =>
        obtain ⟨_, hv, _⟩ := hd.mapped l p hp
        exact (h.kept hv (h.stays hd hl' hp)).2.2
  · rw [hcontent]
    obtain ⟨hv, hpt⟩ := batch_stays hd hB hBp
    exact (h.kept hv hpt).2.2

/-- The old reserve has room: not every page of the victim was live. -/
theorem active_room (h : Collection cfg s target rsv nodes s₂ s₃) (hrem : Remaps cfg s₂ s₃)
    {a : Nat} (ha : (retireVictim cfg s₃ target).dActive = some a) :
    ((retireVictim cfg s₃ target).bm.sblk a).wpOfft < cfg.pps := by
  have har : s₃.dReserve = some a := ha
  rw [h.retired_reserve hrem] at har
  cases har
  show (Function.update s₃.bm.sblk target ⟨0, 0⟩ rsv).wpOfft < cfg.pps
  rw [Function.update_of_ne h.ne, hrem.zone.sblk rsv h.rsvZone, h.written.filled.wpOfft]
  have hwp : ((s.bm.clear cfg (s.bm.livePages cfg target)).sblk rsv).wpOfft = 0 := by
    rw [Bm.clear_wpOfft, h.empty]
  have hfew := h.few
  rw [List.length_map]
  show ((s.bm.clear cfg (s.bm.livePages cfg target)).sblk rsv).wpOfft + _ < cfg.pps
  omega

end Collection

/-- A collection that moves no page of the batch. -/
theorem DataOk.dpageGc {B : Nat → Prop} {s s' : Store} (hd : DataOk cfg B s) (hm : MapSide cfg s)
    (hB : ∀ target ∈ getGcTarget cfg s.bm .data, ∀ p ∈ s.bm.livePages cfg target, ¬B p)
    (hg : dpageGc cfg s = some s') :
    DataOk cfg B s' ∧ MapSide cfg s' ∧ SameSlots B s s' ∧
      ∀ a, s'.dActive = some a → (s'.bm.sblk a).wpOfft < cfg.pps := by
  obtain ⟨target, ht, rsv, nodes, s₂, s₃, hc, rfl⟩ := dpageGc_stages hd hg
  replace hB := hB target ht
  obtain ⟨hm₃, hrem, hmoves⟩ := hc.update hd hm hB
  refine ⟨hc.dataOk hd hB hrem hmoves, ?_, hc.sameSlots hd hB hrem hmoves,
    fun a ha => hc.active_room hrem ha⟩
  have hne : PartNum.data ≠ .map := by decide
  exact hm₃.sameZone (.retire hne (not_inZone_map hc.victimZone)) rfl rfl rfl

/-! ## Section 3: The batch -/

/-- `dp_alloc` before the page is taken. -/
theorem DataOk.dSwitch {B : Nat → Prop} {s s' : Store} (hd : DataOk cfg B s) (hm : MapSide cfg s)
    (hB : ∀ it ∈ s.gcItems cfg, ¬B it.src) (hs : dSwitch cfg s = some s') :
    DataOk cfg B s' ∧ MapSide cfg s' ∧ SameSlots B s s' ∧
      ∀ a, s'.dActive = some a → (s'.bm.sblk a).wpOfft < cfg.pps := by
  unfold BlockSsd.dSwitch at hs
  split at hs
  · next hact =>
    split at hs
    · next hgc =>
      refine hd.dpageGc hm (fun target ht p hp => ?_) hs
      -- The live pages of the victim are the items of the collection, which are not the
      -- batch's.
      have hcol : ∃ r, collectPages cfg s.bm (sblkOfft2Ppa cfg target 0) cfg.pps = some r := by
        unfold BlockSsd.dpageGc at hs
        simp only [Option.bind_eq_bind, Option.bind_eq_some_iff] at hs
        obtain ⟨t, ht₁, r, hr, _⟩ := hs
        rw [Option.mem_def.mp ht] at ht₁
        cases ht₁
        exact ⟨r, hr⟩
      obtain ⟨⟨bm, items⟩, hr⟩ := hcol
      have hitems : s.gcItems cfg = items := by
        unfold Store.gcItems
        rw [if_pos ⟨hact, hgc⟩, Option.mem_def.mp ht]
        dsimp only
        rw [hr]
      have hsp := (collectPages_spec hr).2
      refine hB ⟨(s.bm.oob p).lpa, p⟩ ?_
      rw [hitems, hsp]
      exact List.mem_map.mpr ⟨p, hp, rfl⟩
    -- No collection: a superblock from the free list becomes the active one.
    · obtain ⟨⟨i, bm⟩, hg, rfl⟩ := Option.map_eq_some_iff.mp hs
      obtain ⟨hz, hu, free, rfl⟩ := hd.roles.getActiveSblk hg
      obtain ⟨hne, hwp⟩ := usable_wpOfft hu
      have hne' : PartNum.data ≠ .map := by decide
      refine ⟨⟨⟨hd.tidy.wp_le, hd.tidy.below, hd.tidy.counted⟩, ⟨?_, ?_, ?_, ?_, ?_⟩, hd.mapped,
        hd.live, hd.batch⟩, hm.sameZone (.setPart hne') rfl rfl rfl,
        ⟨fun _ => rfl, fun _ => rfl, fun _ => rfl, fun _ _ => rfl⟩, fun a ha => ?_⟩
      · exact hd.roles.bounds
      · intro a ha
        cases ha
        exact hz
      · intro hn
        cases hn
      · exact hd.roles.reserve
      · intro a ha
        cases ha
        exact ⟨hz, hne, Option.some_ne_none i⟩
      · cases ha
        exact hwp
  · next hact =>
    cases hs
    refine ⟨hd, hm, ⟨fun _ => rfl, fun _ => rfl, fun _ => rfl, fun _ _ => rfl⟩, fun a ha => ?_⟩
    simpa [ha, checkFull] using hact

/-- A page is assigned to an entry of the batch. -/
theorem DataOk.assignEntry {B : Nat → Prop} {s s' : Store} {e : WbEntry} {ppa : Nat}
    (hd : DataOk cfg B s) (hm : MapSide cfg s) (hB : ∀ it ∈ s.gcItems cfg, ¬B it.src)
    (ha : assignEntry cfg s e = some (ppa, s')) :
    DataOk cfg (fun p => B p ∨ p = ppa) s' ∧ MapSide cfg s' ∧ SameSlots B s s' ∧ ¬B ppa ∧
      s'.content ppa = some e.value := by
  unfold BlockSsd.assignEntry dpAlloc at ha
  simp only [Option.bind_eq_bind, Option.bind_eq_some_iff, Option.pure_def, Option.some.injEq] at ha
  obtain ⟨⟨ppa', s₂⟩, ⟨s₁, hs₁, a, hact, he⟩, bm, hp, he'⟩ := ha
  cases he
  cases he'
  obtain ⟨hd₁, hm₁, hsame, hroom⟩ := hd.dSwitch hm hB hs₁
  have hwp := hroom a hact
  obtain ⟨hz, _⟩ := hd₁.roles.active a hact
  obtain rfl : bm = s₁.bm.fill cfg a ⟨false, 0, 1⟩ := placePage_eq hp
  -- The new page is the next one of the active superblock.
  show DataOk cfg (fun p => B p ∨ p = s₁.bm.nextPage cfg a) _ ∧ _ ∧ _ ∧
    ¬B (s₁.bm.nextPage cfg a) ∧ _
  have hfill : Filled cfg a 1 s₁.bm (s₁.bm.fill cfg a ⟨false, 0, 1⟩) :=
    Filled.fill hd₁.tidy hz hwp _
  have hfree : s₁.bm.validBitmap (s₁.bm.nextPage cfg a) = false := hd₁.tidy.nextPage_free hz hwp
  have hne : ∀ p, s₁.bm.validBitmap p = true → p ≠ s₁.bm.nextPage cfg a := fun p hv he => by
    rw [he, hfree] at hv
    cases hv
  have hnew : ∀ p, p ≠ s₁.bm.nextPage cfg a → Function.update s₁.content (s₁.bm.nextPage cfg a)
      (some e.value) p = s₁.content p := fun p hp => Function.update_of_ne hp ..
  refine ⟨⟨hfill.tidy _ hd₁.tidy, hd₁.roles.fill hact hwp, fun l p hp => ?_, fun p hpz hv hBp => ?_,
    fun p hBp => ?_⟩, hm₁.sameZone (.fill hwp (not_inZone_map hz)) rfl rfl rfl,
    ⟨hsame.keyFp, hsame.mapped, fun l => ?_, fun p hBp => ?_⟩, fun hBp => ?_, ?_⟩
  · obtain ⟨hpz, hv, ho, hlen, hBp⟩ := hd₁.mapped l p hp
    obtain ⟨hv', ho'⟩ := hfill.kept p hv
    refine ⟨hpz, hv', (congrArg Oob.lpa ho').trans ho, (congrArg Oob.length ho').trans hlen, ?_⟩
    rintro (hb | he)
    · exact hBp hb
    · exact hne p hv he
  -- The new page is valid and unmapped, and so belongs to the batch.
  · have hpn : p ≠ s₁.bm.nextPage cfg a := fun he => hBp (Or.inr he)
    have hv' : s₁.bm.validBitmap p = true := (Function.update_of_ne hpn ..).symm.trans hv
    show (s₁.cold.memTable (Function.update s₁.bm.oob (s₁.bm.nextPage cfg a) _ p).lpa).ppa = some p
    rw [Function.update_of_ne hpn]
    exact hd₁.live p hpz hv' fun hb => hBp (Or.inl hb)
  · rcases hBp with hb | rfl
    · obtain ⟨hpz, hv, hlen⟩ := hd₁.batch p hb
      obtain ⟨hv', ho'⟩ := hfill.kept p hv
      exact ⟨hpz, hv', (congrArg Oob.length ho').trans hlen⟩
    · refine ⟨by rwa [Bm.nextPage_div hwp], Function.update_self .., ?_⟩
      show (Function.update s₁.bm.oob (s₁.bm.nextPage cfg a) _ (s₁.bm.nextPage cfg a)).length = 1
      rw [Function.update_self]
  · rw [← hsame.value l]
    cases hp : (s₁.cold.memTable l).ppa with
    | none => rfl
    | some p => exact hnew p (hne p (hd₁.mapped l p hp).2.1)
  · rw [← hsame.content p hBp]
    exact hnew p (hne p (hd₁.batch p hBp).2.1)
  · have hv := (hd₁.batch _ hBp).2.1
    rw [hfree] at hv
    cases hv
  · exact Function.update_self ..

/-- The page of the old value is invalidated, nothing else changes. -/
theorem DataOk.invalidateOld {B : Nat → Prop} {s : Store} (hd : DataOk cfg B s) (lpa : Nat) :
    Tidy cfg .data (wbInvalidateOld cfg s lpa).bm ∧
      Roles cfg .data (wbInvalidateOld cfg s lpa).bm s.dActive s.dReserve ∧
      SameZone cfg .map s.bm (wbInvalidateOld cfg s lpa).bm ∧
      (wbInvalidateOld cfg s lpa).bm.oob = s.bm.oob ∧
      (∀ p, (wbInvalidateOld cfg s lpa).bm.validBitmap p = true ↔
        s.bm.validBitmap p = true ∧ (s.cold.memTable lpa).ppa ≠ some p) ∧
      wbInvalidateOld cfg s lpa = { s with bm := (wbInvalidateOld cfg s lpa).bm } := by
  unfold wbInvalidateOld Cold.getPte
  cases hq : (s.cold.memTable lpa).ppa with
  | none => exact ⟨hd.tidy, hd.roles, .refl _, rfl, fun p => by simp, rfl⟩
  | some q =>
    obtain ⟨hz, hv, _, hlen, _⟩ := hd.mapped lpa q hq
    dsimp only
    rw [hlen]
    refine ⟨hd.tidy.invalidatePage hv, hd.roles.invalidatePage q,
      .invalidatePage (not_inZone_map hz),
      rfl, fun p => ?_, rfl⟩
    show Function.update s.bm.validBitmap q false p = true ↔ _
    rw [Function.update_apply]
    split
    · next he => simp [he]
    · next he =>
      refine ⟨fun hp => ⟨hp, fun hqp => he (Option.some.inj hqp).symm⟩, And.left⟩

/-- The entry of the batch that owns page `ppa` is installed in slot `lpa`. -/
theorem DataOk.install {B : Nat → Prop} {s : Store} (hd : DataOk cfg B s) (hm : MapSide cfg s)
    {lpa ppa : Nat} (hp : B ppa) (keyFp : UInt32)
    (hb : (s.cold.cmt (dIdx lpa)).pt = true ∨ (s.cold.cmt (dIdx lpa)).tPpa.isSome = true) :
    DataOk cfg (fun p => B p ∧ p ≠ ppa) (wbInstall cfg (wbInvalidateOld cfg s lpa) lpa ppa keyFp) ∧
      MapSide cfg (wbInstall cfg (wbInvalidateOld cfg s lpa) lpa ppa keyFp) := by
  obtain ⟨htidy, hroles, hzmap, hoob, hvalid, hstore⟩ := hd.invalidateOld lpa
  generalize wbInvalidateOld cfg s lpa = s₁ at *
  have hcold : s₁.cold = s.cold := by rw [hstore]
  have hm₁ : MapSide cfg s₁ := by
    rw [hstore]
    exact hm.sameZone hzmap rfl rfl rfl
  have hb₁ : (s₁.cold.cmt (dIdx lpa)).pt = true ∨ (s₁.cold.cmt (dIdx lpa)).tPpa.isSome = true := by
    rw [hcold]
    exact hb
  have hzone := hm₁.map.update_zone lpa ⟨some ppa, keyFp⟩
  obtain ⟨hpz, hpv, hplen⟩ := hd.batch ppa hp
  have hold : (s.cold.memTable lpa).ppa ≠ some ppa := fun he =>
    (hd.mapped lpa ppa he).2.2.2.2 hp
  generalize hs₂ : s₁.update cfg lpa ⟨some ppa, keyFp⟩ = s₂ at *
  have hmem : s₂.cold.memTable = Function.update s.cold.memTable lpa ⟨some ppa, keyFp⟩ := by
    rw [← hs₂, ← hcold]
    exact Cold.update_memTable ..
  have hact : s₂.dActive = s.dActive ∧ s₂.dReserve = s.dReserve := by
    rw [← hs₂]
    show s₁.dActive = _ ∧ s₁.dReserve = _
    rw [hstore]
    exact ⟨rfl, rfl⟩
  have hinst : wbInstall cfg s₁ lpa ppa keyFp =
      { s₂ with bm := s₂.bm.setOob ppa { s₂.bm.oob ppa with lpa := lpa } } := by
    rw [← hs₂]
    rfl
  rw [hinst]
  have hoob' : ∀ p, InZone cfg .data (p / cfg.pps) →
      (s₂.bm.setOob ppa { s₂.bm.oob ppa with lpa := lpa }).oob p =
        if p = ppa then { s.bm.oob ppa with lpa := lpa } else s.bm.oob p := fun p hz => by
    show Function.update s₂.bm.oob ppa _ p = _
    rw [Function.update_apply, hzone.oob ppa hpz, hzone.oob p hz, hoob]
  have hvalid' : ∀ p, InZone cfg .data (p / cfg.pps) → (s₂.bm.validBitmap p = true ↔
      s.bm.validBitmap p = true ∧ (s.cold.memTable lpa).ppa ≠ some p) := fun p hz => by
    rw [hzone.valid p hz, hvalid]
  refine ⟨⟨?_, ?_, fun l p hl => ?_, fun p hz hv hB => ?_, fun p hB => ?_⟩, ?_⟩
  · have ht := htidy.congr hzone
    exact ⟨ht.wp_le, ht.below, ht.counted⟩
  · show Roles cfg .data _ s₂.dActive s₂.dReserve
    rw [hact.1, hact.2]
    exact (hroles.sameZone hzone).congr rfl fun _ _ _ => rfl
  · rw [hmem, Function.update_apply] at hl
    split at hl
    -- The slot of the entry: its page leaves the batch and the mapping names it.
    · next he =>
      cases hl
      rw [hoob' _ hpz, if_pos rfl]
      exact ⟨hpz, (hvalid' _ hpz).mpr ⟨hpv, hold⟩, he.symm, hplen, fun hB => hB.2 rfl⟩
    · next hne =>
      obtain ⟨hz, hv, ho, hlen, hB⟩ := hd.mapped l p hl
      -- Another slot had its own page, which is neither `ppa` nor the invalidated one.
      have hpp : p ≠ ppa := fun he => hB (he ▸ hp)
      rw [hoob' p hz, if_neg hpp]
      refine ⟨hz, (hvalid' p hz).mpr ⟨hv, fun he => hne ?_⟩, ho, hlen, fun h => hB h.1⟩
      exact ho.symm.trans (hd.mapped lpa p he).2.2.1
  · rw [hmem, hoob' p hz]
    obtain ⟨hv', hq⟩ := (hvalid' p hz).mp hv
    by_cases hpp : p = ppa
    · rw [if_pos hpp, Function.update_self, hpp]
    · have hlive := hd.live p hz hv' fun h => hB ⟨h, hpp⟩
      -- A page that is still valid was not the old page of the slot.
      have hne : (s.bm.oob p).lpa ≠ lpa := fun he => hq (he ▸ hlive)
      rw [if_neg hpp, Function.update_of_ne hne, hlive]
  · obtain ⟨hz, hv, hlen⟩ := hd.batch p hB.1
    rw [hoob' p hz, if_neg hB.2]
    refine ⟨hz, (hvalid' p hz).mpr ⟨hv, fun he => ?_⟩, hlen⟩
    exact (hd.mapped lpa p he).2.2.2.2 hB.1
  · have hm₂ : MapSide cfg s₂ := hs₂ ▸ hm₁.update ⟨some ppa, keyFp⟩ hb₁
    exact hm₂.sameZone (.setOob (not_inZone_map hpz)) rfl rfl rfl

/-- The installation writes one entry of the table. -/
theorem wbInstall_memTable (cfg : Settings) (s : Store) (lpa ppa : Nat) (keyFp : UInt32) :
    (wbInstall cfg s lpa ppa keyFp).cold.memTable =
      Function.update s.cold.memTable lpa ⟨some ppa, keyFp⟩ :=
  Cold.update_memTable ..

end AggreKV.BlockSsd
