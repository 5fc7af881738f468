import AggreKV.HashKv.Accounting
import AggreKV.HashKv.GrainPacking

/-! # Data pages of the single-stream build

    `dp_alloc` takes the next page of the active superblock, after a
    collection if one is due. The pages handed out since their superblock
    was trimmed are kept beside the state.

    * `Stacked`: all of them, and all valid grains, lie below the write
      pointer of their superblock.
    * `data_page_allocation`: the page is a fresh one exactly when the
      collection leaves room in the reserve. -/

namespace AggreKV.HashKv

open Buckets

variable {cfg : Settings} {hs : Hashing}

/-! ## Section 1: Pages handed out -/

/-- The pages of the reserve that the due collection writes. -/
def Store.gcPages (cfg : Settings) (s : Store) : List Nat :=
  match getGcTarget cfg s.bm .data 0, s.dReserve with
  | some target, some rsv =>
    match collectPages cfg s.bm (pagesContainingValidGrain cfg s.bm target) with
    | some (bm, items) =>
      match packPages cfg rsv bm (bucketItems items) items.length items.length with
      | some (_, _, copied) => List.range' (sblkOfft2Ppa cfg rsv (bm.sblk rsv).wpOfft) copied
      | none => []
    | none => []
  | _, _ => []

/-- A collection hands out the pages that it writes, then trims its victim. -/
def Store.afterGc (cfg : Settings) (s : Store) (H : Nat → Prop) : Nat → Prop := fun p =>
  (H p ∨ p ∈ s.gcPages cfg) ∧ getGcTarget cfg s.bm .data 0 ≠ some (p / cfg.pps)

/-- The pages handed out when the next step of the assignment takes its page. -/
def Ftl.handedBefore (cfg : Settings) (f : Ftl) (H : Nat → Prop) : Nat → Prop :=
  if f.gcStream cfg = some 0 then f.store.afterGc cfg H else H

/-- The call of `dp_alloc` that the next step of the assignment makes. -/
def Ftl.allocCall (cfg : Settings) (f : Ftl) : Option (Nat × Store) :=
  match f.phase with
  | .assigning m => if cfg.maxWriteBuf ≤ m.done then none else dpAlloc cfg f.store 0
  | _ => none

/-- The pages handed out after the step. -/
def Ftl.handed (cfg : Settings) (f : Ftl) (H : Nat → Prop) : Label → Nat → Prop
  | .assign => fun p => f.handedBefore cfg H p ∨ ∃ s, f.allocCall cfg = some (p, s)
  | _ => H

/-- The machine with the pages handed out since their superblock was trimmed. -/
def tracedMachine (cfg : Settings) (hs : Hashing) : Machine (Ftl × (Nat → Prop)) Label where
  init := fun x => (machine cfg hs).init x.1 ∧ x.2 = fun _ => False
  next := fun x a => ((machine cfg hs).next x.1 a).map fun f => (f, x.1.handed cfg x.2 a)

/-- The collection of the next step, if there is one, leaves room in the reserve. -/
def gcShort (cfg : Settings) (f : Ftl) : Label → Bool
  | .assign => (f.gcStream cfg).all fun idx =>
      needOf GcItem.len (f.store.gcItems cfg idx) < cfg.pps
  | _ => true

/-- The page that `dp_alloc` returns lies in the active superblock, holds no valid grain, and
    was not handed out since that superblock was trimmed. -/
def AllocSound (cfg : Settings) (f : Ftl) (H : Nat → Prop) : Prop :=
  ∀ ppa s, f.allocCall cfg = some (ppa, s) →
    (∃ a offt, s.dActive = some a ∧ ppa = sblkOfft2Ppa cfg a offt ∧ offt < cfg.pps) ∧
      containsValidGrain s.bm ppa = false ∧ ¬ f.handedBefore cfg H ppa

/-! ## Section 2: Below the write pointers -/

/-- Page `p` is below the write pointer of its superblock. -/
def Bm.Below (cfg : Settings) (bm : Bm) (p : Nat) : Prop :=
    p % cfg.pps < (bm.sblk (p / cfg.pps)).wpOfft

/-- Data pages with a valid grain and data pages handed out are below the write pointers. -/
structure Stacked (cfg : Settings) (bm : Bm) (H : Nat → Prop) : Prop where
  valid : ∀ g, cfg.dataGrain ≤ g → bm.validBitmap g = true → bm.Below cfg (g / 4)
  handed : ∀ p, cfg.dataPage ≤ p → H p → bm.Below cfg p

/-- The reserve is an empty superblock, not the active one. -/
structure Store.Stacked (cfg : Settings) (s : Store) (H : Nat → Prop) : Prop
    extends HashKv.Stacked cfg s.bm H where
  reserve : s.dReserve = some s.bm.dataPart.sblkRsv
  empty : (s.bm.sblk s.bm.dataPart.sblkRsv).wpOfft = 0
  active : s.dActive ≠ s.dReserve

/-- The page of a data grain. -/
theorem dataPage_le_div {g : Nat} (h : cfg.dataGrain ≤ g) : cfg.dataPage ≤ g / 4 := by
  unfold Settings.dataGrain at h
  omega

/-- Write pointers grow, and what is new is below them. -/
theorem Stacked.grow {bm bm' : Bm} {H H' : Nat → Prop} (h : Stacked cfg bm H)
    (hwp : ∀ i, cfg.dataSblk ≤ i → (bm.sblk i).wpOfft ≤ (bm'.sblk i).wpOfft)
    (hv : ∀ g, cfg.dataGrain ≤ g → bm'.validBitmap g = true →
      bm.validBitmap g = true ∨ bm'.Below cfg (g / 4))
    (hh : ∀ p, cfg.dataPage ≤ p → H' p → H p ∨ bm'.Below cfg p) : Stacked cfg bm' H' where
  valid g hg hset := by
    rcases hv g hg hset with hold | hnew
    · have hbelow := h.valid g hg hold
      exact Nat.lt_of_lt_of_le hbelow (hwp _ (dataPage_le_iff.mp (dataPage_le_div hg)))
    · exact hnew
  handed p hp hset := by
    rcases hh p hp hset with hold | hnew
    · exact Nat.lt_of_lt_of_le (h.handed p hp hold) (hwp _ (dataPage_le_iff.mp hp))
    · exact hnew

/-- Grains that lose their validity do not matter. -/
theorem Stacked.clears {bm bm' : Bm} {H : Nat → Prop} (h : Stacked cfg bm H)
    (hwp : ∀ i, (bm'.sblk i).wpOfft = (bm.sblk i).wpOfft) (hv : OnlyClears bm bm') :
    Stacked cfg bm' H :=
  h.grow (fun i _ => (hwp i).ge) (fun g _ hset => Or.inl (hv g hset)) fun _ _ => Or.inl

/-- Nor does the map side. -/
theorem Stacked.data {bm bm' : Bm} {H : Nat → Prop} (h : Stacked cfg bm H)
    (hd : SameData cfg bm bm') : Stacked cfg bm' H := by
  refine h.grow (fun i hi => ?_) (fun g hg hset => Or.inl ?_) fun _ _ => Or.inl
  · rw [hd.sblk i hi]
  · rwa [hd.bitmap g hg] at hset

/-- Only grains of page `ppa` become valid. -/
theorem grainInvariant_page (cfg : Settings) (bm₀ : Bm) (ppa : Nat) :
    GrainInvariant cfg (fun g => g / 4 = ppa) fun bm =>
      ∀ g, bm.validBitmap g = true → bm₀.validBitmap g = true ∨ g / 4 = ppa where
  validate {bm bm' g} hq h he := by
    obtain ⟨-, -, rfl⟩ := validateGrain_eq he
    intro g' hset
    change Function.update bm.validBitmap g true g' = true at hset
    by_cases hg : g' = g
    · exact Or.inr (hg ▸ hq)
    · rw [Function.update_of_ne hg] at hset
      exact h g' hset
  invalidate {bm g} _ h g' hset := h g' (OnlyClears.invalidateGrains 1 bm g g' hset)
  setOob _ _ h := h

/-- A placed item stays in its page. -/
theorem page_of_placed {ppa : Nat} {α : Type} {p : Placed α} (h : p.offset + p.len ≤ 4)
    (hpos : 0 < p.len) : ppaToPga ppa p.offset / 4 = ppa ∧
      ∀ i < p.len, (ppaToPga ppa p.offset + i) / 4 = ppa := by
  unfold ppaToPga
  exact ⟨by omega, fun i hi => by omega⟩

/-- A filled bin is a page. -/
theorem fillBin_fits {α : Type} {b : Buckets α} {p : Placed α} (h : p ∈ (b.fillBin 4).1) :
    p.offset + p.len ≤ 4 ∧ 0 < p.len := by
  have hwithin := fill_within h
  exact ⟨by omega, hwithin.2.2⟩

/-! ## Section 3: Collections -/

/-- The write loop moves the write pointer of the reserve only. -/
theorem packPages_wpOfft {rsv : Nat} : ∀ {fuel todo copied : Nat} {bm bm' : Bm}
    {b : Buckets GcItem} {nodes : List GcNode},
    packPages cfg rsv bm b todo fuel = some (bm', nodes, copied) → ∀ i,
      (bm'.sblk i).wpOfft = (bm.sblk i).wpOfft + if i = rsv then copied else 0 := by
  intro fuel
  induction fuel with
  | zero =>
    intro todo copied bm bm' b nodes h i
    cases h
    split <;> rfl
  | succ fuel ih =>
    intro todo copied bm bm' b nodes h i
    by_cases hzero : todo = 0
    · rw [packPages, if_pos hzero] at h
      cases h
      split <;> rfl
    · rw [packPages_succ bm b hzero] at h
      generalize b.fillBin 4 = filled at h
      obtain ⟨⟨bm₁, first⟩, hf, h⟩ := Option.bind_eq_some_iff.mp h
      obtain ⟨⟨bm₂, rest, copied'⟩, hr, he⟩ := Option.map_eq_some_iff.mp h
      cases he
      have hnext := ih hr i
      rw [(placeNodes_blocks hf).wpOfft i] at hnext
      by_cases hi : i = rsv
      -- One page more is taken from the reserve.
      · rw [if_pos hi, hi, getPageNum_wpOfft] at hnext
        rw [if_pos hi, hi]
        dsimp only
        omega
      · rw [if_neg hi] at hnext
        rw [if_neg hi, hnext]
        show (Function.update bm.sblk rsv _ i : Superblock).wpOfft + 0 = _
        rw [Function.update_of_ne hi]

/-- In a reserve with room the write loop validates grains of its pages only. -/
theorem packPages_valid {rsv : Nat} : ∀ {fuel todo copied : Nat} {bm bm' : Bm}
    {b : Buckets GcItem} {nodes : List GcNode},
    packPages cfg rsv bm b todo fuel = some (bm', nodes, copied) →
      (bm.sblk rsv).wpOfft + copied ≤ cfg.pps → ∀ g, bm'.validBitmap g = true →
      bm.validBitmap g = true ∨
        (g / 4 / cfg.pps = rsv ∧ g / 4 % cfg.pps < (bm.sblk rsv).wpOfft + copied) := by
  intro fuel
  induction fuel with
  | zero =>
    intro todo copied bm bm' b nodes h _ g hg
    cases h
    exact Or.inl hg
  | succ fuel ih =>
    intro todo copied bm bm' b nodes h hroom g hg
    by_cases hzero : todo = 0
    · rw [packPages, if_pos hzero] at h
      cases h
      exact Or.inl hg
    · rw [packPages_succ bm b hzero] at h
      have hfits : ∀ p ∈ (b.fillBin 4).1, p.offset + p.len ≤ 4 ∧ 0 < p.len := fun p => fillBin_fits
      generalize b.fillBin 4 = filled at h hfits
      obtain ⟨⟨bm₁, first⟩, hf, h⟩ := Option.bind_eq_some_iff.mp h
      obtain ⟨⟨bm₂, rest, copied'⟩, hr, he⟩ := Option.map_eq_some_iff.mp h
      cases he
      have hwp : (bm₁.sblk rsv).wpOfft = (bm.sblk rsv).wpOfft + 1 := by
        rw [(placeNodes_blocks hf).wpOfft rsv, getPageNum_wpOfft]
      dsimp only at hr hroom ⊢
      rcases ih hr (by omega) g hg with hold | ⟨hdiv, hmod⟩
      · -- The grain was validated in the page of this iteration, if at all.
        have hpage := (grainInvariant_page cfg (getPageNum cfg bm rsv).2
          (getPageNum cfg bm rsv).1).placeNodes
            (fun p hp => page_of_placed (hfits p hp).1 (hfits p hp).2) (fun _ hset => Or.inl hset)
            hf g hold
        rcases hpage with hset | hpage
        · exact Or.inl hset
        · refine Or.inr ?_
          rw [hpage]
          have hlt : (bm.sblk rsv).wpOfft < cfg.pps := by omega
          have hdiv : (getPageNum cfg bm rsv).1 / cfg.pps = rsv := sblkOfft2Ppa_div hlt
          have hmod : (getPageNum cfg bm rsv).1 % cfg.pps = (bm.sblk rsv).wpOfft :=
            sblkOfft2Ppa_mod hlt
          rw [hdiv, hmod]
          exact ⟨rfl, by omega⟩
      · exact Or.inr ⟨hdiv, by omega⟩

/-- An emptied superblock stays empty. -/
theorem Emptied.clears {bm bm' : Bm} {t : Nat} (h : Emptied cfg bm t)
    (hv : ∀ g, g / 4 / cfg.pps = t → bm'.validBitmap g = true → bm.validBitmap g = true) :
    Emptied cfg bm' t := by
  intro g hg
  by_contra hset
  have hold := hv g hg (by simpa using hset)
  rw [h g hg] at hold
  cases hold

/-- What the write loop of a collection does to the reserve. -/
structure Repacked (cfg : Settings) (s s₁ : Store) (rsv target : Nat) (items : List GcItem) :
    Prop where
  wpOfft : ∀ i, (s₁.bm.sblk i).wpOfft =
    (s.bm.sblk i).wpOfft + if i = rsv then needOf GcItem.len items else 0
  valid : (s.bm.sblk rsv).wpOfft + needOf GcItem.len items ≤ cfg.pps → ∀ g,
    s₁.bm.validBitmap g = true → s.bm.validBitmap g = true ∨
      (g / 4 / cfg.pps = rsv ∧ g / 4 % cfg.pps < (s.bm.sblk rsv).wpOfft + needOf GcItem.len items)
  emptied : (s.bm.sblk rsv).wpOfft + needOf GcItem.len items ≤ cfg.pps → target ≠ rsv →
    Emptied cfg s₁.bm target
  path : SameDataPath s s₁
  pages : s.gcPages cfg = List.range' (sblkOfft2Ppa cfg rsv (s.bm.sblk rsv).wpOfft)
    (needOf GcItem.len items)

/-- A collection up to its mapping update. -/
theorem GcWritten.repacked {s s₁ : Store} {rsv target : Nat} {nodes : List GcNode}
    (hds : cfg.dataSegregation = false) (hrsv : s.dReserve = some rsv)
    (h : GcWritten cfg s 0 target s₁ nodes) : Repacked cfg s s₁ rsv target (s.gcItems cfg 0) := by
  obtain ⟨ht, bm, items, hc, hwrite⟩ := h
  have hitems : s.gcItems cfg 0 = items := by simp only [Store.gcItems, ht, hc]
  have hlen := collectPages_len hc
  have hblocks := collectPages_blocks hc
  have hclear := (collectPages_counted hc).1
  have hwp : ∀ i, (bm.sblk i).wpOfft = (s.bm.sblk i).wpOfft := fun i => hblocks.wpOfft i
  have hneed : (packing GcItem.len items).length = needOf GcItem.len items :=
    (packing_tight hlen).count
  rw [hitems]
  unfold writeItems at hwrite
  split at hwrite
  · next hnil =>
    -- Nothing was live.
    have hempty := collectPages_emptied hc
    rw [hnil] at hc
    cases hc
    cases hwrite
    refine ⟨fun i => by split <;> rfl, fun _ g hg => Or.inl hg, fun _ _ => hempty, .refl _, ?_⟩
    simp only [Store.gcPages, ht, hrsv, hnil]
    rfl
  · rw [if_neg (by simp [hds])] at hwrite
    unfold writeItemsReserve at hwrite
    simp only [Option.bind_eq_bind, Option.bind_eq_some_iff] at hwrite
    obtain ⟨rsv', hrsv', ⟨bm', ns, copied⟩, hpack, hwrite⟩ := hwrite
    cases hwrite
    cases hrsv.symm.trans hrsv'
    have hcopied : copied = needOf GcItem.len items := (packPages_spec hpack).1.trans hneed
    subst hcopied
    -- The packed pages are the ones that the items need.
    refine ⟨fun i => ?_, fun hroom g hg => ?_, fun hroom hne => ?_, ?_, ?_⟩
    · rw [← hwp i]
      exact packPages_wpOfft hpack i
    · rw [← hwp rsv] at hroom ⊢
      rcases packPages_valid hpack hroom g hg with hold | hnew
      · exact Or.inl (hclear g hold)
      · exact Or.inr hnew
    · rw [← hwp rsv] at hroom
      refine (collectPages_emptied hc).clears fun g hg hset => ?_
      rcases packPages_valid hpack hroom g hset with hold | ⟨hdiv, -⟩
      · exact hold
      · exact absurd (hg.symm.trans hdiv) hne
    · have hcur := hblocks.cursors.trans (SameCursors.packPages hpack)
      exact ⟨hcur, rfl, rfl⟩
    · simp only [Store.gcPages, ht, hrsv, hc, hpack, hwp]

/-- A victim is not the reserve. -/
theorem victim_ne_reserve {bm : Bm} {t : Nat} (hds : cfg.dataSegregation = false)
    (h : getGcTarget cfg bm .data 0 = some t) : t ≠ bm.dataPart.sblkRsv := by
  have hcand := (getGcTarget_spec h).2.2.1
  unfold gcCandidate at hcand
  rw [if_neg (by simp [hds])] at hcand
  rw [Bool.and_eq_true] at hcand
  exact of_decide_eq_true hcand.1

/-- What the single-stream build does to the victim after the mapping update. -/
structure Retired (s s' : Store) (t : Nat) : Prop where
  wpOfft : ∀ i, (s'.bm.sblk i).wpOfft = if i = t then 0 else (s.bm.sblk i).wpOfft
  bitmap : s'.bm.validBitmap = s.bm.validBitmap
  active : s'.dActive = s.dReserve
  reserve : s'.dReserve = some t
  sblkRsv : s'.bm.dataPart.sblkRsv = t

/-- In this build the victim becomes the reserve. -/
theorem retireVictim_single (hds : cfg.dataSegregation = false) (s : Store) (t : Nat) :
    Retired s (retireVictim cfg s t) t := by
  unfold retireVictim
  rw [if_neg (by simp [hds])]
  refine ⟨fun i => ?_, rfl, rfl, rfl, rfl⟩
  show (Function.update s.bm.sblk t _ i : Superblock).wpOfft = _
  by_cases hi : i = t
  · rw [hi, Function.update_self, if_pos rfl]
  · rw [Function.update_of_ne hi, if_neg hi]

/-- A collection: the old reserve is active with the pages it was given, and below `pps` of
    them everything is below the write pointers again. -/
theorem Store.Stacked.dpageGc {s s' : Store} {H : Nat → Prop} (hds : cfg.dataSegregation = false)
    (t : s.Tidy cfg) (h : s.Stacked cfg H) (hg : HashKv.dpageGc cfg s 0 = some s') :
    s'.dActive = some s.bm.dataPart.sblkRsv ∧
      (s'.bm.sblk s.bm.dataPart.sblkRsv).wpOfft = needOf GcItem.len (s.gcItems cfg 0) ∧
      (needOf GcItem.len (s.gcItems cfg 0) < cfg.pps → s'.Stacked cfg (s.afterGc cfg H)) := by
  obtain ⟨target, s₁, nodes, s₂, hw, h₂, rfl⟩ := dpageGc_eq_some hg
  obtain ⟨t₁, -, hnodes, -⟩ := t.gcWritten (by simp [Store.gcFresh, hds]) hw
  obtain ⟨-, hm⟩ := MapStep.bulkMappingUpdate t₁ hnodes h₂
  have hpath₂ := SameDataPath.bulkMappingUpdate h₂
  have hrep := hw.repacked hds h.reserve
  have htarget := t.zoned.toZoned.target hw.1
  have hrsv := t.zoned.reserve _ h.reserve
  have hne := victim_ne_reserve hds hw.1
  have hempty := h.empty
  have hreserve := h.reserve
  have hretire := retireVictim_single hds s₂ target
  generalize s.bm.dataPart.sblkRsv = rsv at hrep hrsv hne hempty hreserve ⊢
  -- Write pointers of the data superblocks after the collection.
  have hwp : ∀ i, cfg.dataSblk ≤ i → ((HashKv.retireVictim cfg s₂ target).bm.sblk i).wpOfft =
      if i = target then 0
      else (s.bm.sblk i).wpOfft + if i = rsv then needOf GcItem.len (s.gcItems cfg 0) else 0 := by
    intro i hi
    rw [hretire.wpOfft, hm.data.sblk i hi, hrep.wpOfft]
  have hactive : (HashKv.retireVictim cfg s₂ target).dActive = some rsv := by
    rw [hretire.active, hpath₂.reserve, hrep.path.reserve, hreserve]
  refine ⟨hactive, ?_, fun hshort => ⟨⟨fun g hg hset => ?_, fun p hp hh => ?_⟩, ?_, ?_, ?_⟩⟩
  · rw [hwp rsv hrsv.1, if_neg (Ne.symm hne), if_pos rfl, hempty, Nat.zero_add]
  · rw [hretire.bitmap, hm.data.bitmap g hg] at hset
    have hroom : (s.bm.sblk rsv).wpOfft + needOf GcItem.len (s.gcItems cfg 0) ≤ cfg.pps := by omega
    have hblock : cfg.dataSblk ≤ g / 4 / cfg.pps := dataGrain_le_iff.mp hg
    have hnotin : g / 4 / cfg.pps ≠ target := fun he => by
      have hclear := hrep.emptied hroom hne g he
      rw [hset] at hclear
      cases hclear
    unfold Bm.Below
    rw [hwp _ hblock, if_neg hnotin]
    -- A valid grain was there before, or was written into the reserve.
    rcases hrep.valid hroom g hset with hold | ⟨hdiv, hmod⟩
    · have hbelow := h.valid g hg hold
      unfold Bm.Below at hbelow
      omega
    · rw [hdiv, if_pos rfl]
      exact hmod
  · obtain ⟨hh, hnotin⟩ := hh
    have hblock := dataPage_le_iff.mp hp
    have hne' : p / cfg.pps ≠ target := fun he => hnotin (he ▸ hw.1)
    unfold Bm.Below
    rw [hwp _ hblock, if_neg hne']
    rcases hh with hold | hnew
    · have hbelow := h.handed p hp hold
      unfold Bm.Below at hbelow
      omega
    · rw [hrep.pages, List.mem_range'_1, hempty] at hnew
      have hdiv : p / cfg.pps = rsv ∧ p % cfg.pps < needOf GcItem.len (s.gcItems cfg 0) := by
        obtain ⟨k, rfl⟩ := Nat.exists_eq_add_of_le hnew.1
        have hk : k < cfg.pps := by omega
        have hpage : sblkOfft2Ppa cfg rsv 0 + k = sblkOfft2Ppa cfg rsv k := rfl
        rw [hpage, sblkOfft2Ppa_div hk, sblkOfft2Ppa_mod hk]
        exact ⟨rfl, by omega⟩
      rw [hdiv.1, if_pos rfl]
      omega
  · rw [hretire.reserve, hretire.sblkRsv]
  · rw [hretire.sblkRsv, hwp target htarget.1, if_pos rfl]
  · rw [hactive, hretire.reserve]
    exact fun he => hne (Option.some.inj he).symm

/-! ## Section 4: Allocations and runs -/

/-- `dp_alloc` up to the page: a collection, a switch, or neither. -/
theorem dSwitch_cases {s s₁ : Store} (h : dSwitch cfg s = some s₁)
    (hds : cfg.dataSegregation = false) :
    (s.gcDue cfg 0 = true ∧ dpageGc cfg s 0 = some s₁) ∨
      s.gcDue cfg 0 = false ∧ ((∃ i bm, getActiveSblk cfg s.bm .data = some (i, bm) ∧
        s₁ = { s with bm := bm, dActive := some i }) ∨
        s₁ = s ∧ s.dActive.all (checkFull cfg s.bm) = false) := by
  unfold dSwitch at h
  unfold Store.gcDue
  rw [if_neg (by simp [hds])]
  split at h
  · next hfull =>
    rw [hfull, Bool.and_true]
    split at h
    · next hgc => exact Or.inl ⟨hgc, h⟩
    · next hgc =>
      obtain ⟨⟨i, bm⟩, ha, rfl⟩ := Option.map_eq_some_iff.mp h
      exact Or.inr ⟨by simpa using hgc, Or.inl ⟨i, bm, ha, rfl⟩⟩
  · next hfull =>
    have hopen : s.dActive.all (checkFull cfg s.bm) = false := by simpa using hfull
    cases h
    exact Or.inr ⟨by rw [hopen, Bool.and_false], Or.inr ⟨rfl, hopen⟩⟩

/-- What the single-stream `dp_alloc` returns, and the store before it takes the page. -/
structure Allocation (cfg : Settings) (s : Store) (H : Nat → Prop) (ppa a : Nat) (s₁ s' : Store) :
    Prop where
  switched : dSwitch cfg s = some s₁
  active : s₁.dActive = some a
  page : ppa = sblkOfft2Ppa cfg a (s₁.bm.sblk a).wpOfft
  after : s' = { s₁ with bm := (getPageNum cfg s₁.bm a).2 }
  room : (s.gcDue cfg 0 = true → needOf GcItem.len (s.gcItems cfg 0) < cfg.pps) →
    (s₁.bm.sblk a).wpOfft < cfg.pps ∧
      s₁.Stacked cfg (if s.gcDue cfg 0 = true then s.afterGc cfg H else H)
  overrun : s.gcDue cfg 0 = true → cfg.pps ≤ needOf GcItem.len (s.gcItems cfg 0) →
    cfg.pps ≤ (s₁.bm.sblk a).wpOfft

/-- What an allocation hands out, and when it overruns. -/
theorem Store.Stacked.allocation {s s' : Store} {H : Nat → Prop} {ppa : Nat}
    (hds : cfg.dataSegregation = false) (t : s.Tidy cfg) (h : s.Stacked cfg H)
    (ha : dpAlloc cfg s 0 = some (ppa, s')) : ∃ a s₁, Allocation cfg s H ppa a s₁ s' := by
  unfold dpAlloc at ha
  rw [if_neg (by simp [hds])] at ha
  simp only [Option.bind_eq_bind, Option.bind_eq_some_iff] at ha
  obtain ⟨s₁, h₁, a, hact, he⟩ := ha
  cases he
  refine ⟨a, s₁, h₁, hact, rfl, rfl, fun hshort => ?_, fun hdue hfull => ?_⟩
  · rcases dSwitch_cases h₁ hds with ⟨hdue, hgc⟩ | ⟨hdue, ⟨i, bm, hi, rfl⟩ | ⟨rfl, hopen⟩⟩
    · -- The old reserve, with room left.
      obtain ⟨hactive, hwp, hstacked⟩ := h.dpageGc hds t hgc
      cases hact.symm.trans hactive
      rw [hwp, if_pos hdue]
      exact ⟨hshort hdue, hstacked (hshort hdue)⟩
    · -- A superblock that is neither full nor the reserve.
      cases hact
      obtain ⟨hdata, husable, -, free, rfl⟩ :=
        t.zoned.toInZone.getActiveSblk t.started.startable hi
      unfold usable at husable
      rw [if_neg (by simp [hds]), Bool.and_eq_true] at husable
      have hroom : ¬ cfg.pps ≤ (s.bm.sblk a).wpOfft := by simpa [checkFull] using husable.2
      have hne : a ≠ s.bm.dataPart.sblkRsv := of_decide_eq_true husable.1
      rw [hdue, if_neg Bool.false_ne_true]
      refine ⟨Nat.lt_of_not_le hroom, ⟨⟨h.valid, h.handed⟩, h.reserve, h.empty, ?_⟩⟩
      rw [h.reserve]
      exact fun he => hne (Option.some.inj he)
    -- The active superblock still has room.
    · rw [hact] at hopen
      have hroom : ¬ cfg.pps ≤ (s₁.bm.sblk a).wpOfft := by simpa [checkFull] using hopen
      rw [hdue, if_neg Bool.false_ne_true]
      exact ⟨Nat.lt_of_not_le hroom, h⟩
  · rcases dSwitch_cases h₁ hds with ⟨-, hgc⟩ | ⟨hno, -⟩
    · obtain ⟨hactive, hwp, -⟩ := h.dpageGc hds t hgc
      cases hact.symm.trans hactive
      rw [hwp]
      exact hfull
    · rw [hdue] at hno
      cases hno

/-- After the page is taken, it is below the write pointer, too. -/
theorem Store.Stacked.take {s : Store} {H : Nat → Prop} {a : Nat} (h : s.Stacked cfg H)
    (hact : s.dActive = some a) (hroom : (s.bm.sblk a).wpOfft < cfg.pps) :
    Store.Stacked cfg { s with bm := (getPageNum cfg s.bm a).2 }
      (fun p => H p ∨ p = sblkOfft2Ppa cfg a (s.bm.sblk a).wpOfft) ∧
    Bm.Below cfg (getPageNum cfg s.bm a).2 (sblkOfft2Ppa cfg a (s.bm.sblk a).wpOfft) := by
  have hwp : ∀ i, ((getPageNum cfg s.bm a).2.sblk i).wpOfft =
      (s.bm.sblk i).wpOfft + if i = a then 1 else 0 := fun i => by
    by_cases hi : i = a
    · rw [hi, getPageNum_wpOfft, if_pos rfl]
    · rw [if_neg hi]
      show (Function.update s.bm.sblk a _ i : Superblock).wpOfft = _
      rw [Function.update_of_ne hi, Nat.add_zero]
  have hpage : Bm.Below cfg (getPageNum cfg s.bm a).2
      (sblkOfft2Ppa cfg a (s.bm.sblk a).wpOfft) := by
    unfold Bm.Below
    rw [sblkOfft2Ppa_div hroom, sblkOfft2Ppa_mod hroom, hwp, if_pos rfl]
    exact Nat.lt_succ_self _
  refine ⟨⟨h.toStacked.grow (fun i _ => ?_) (fun g _ hset => Or.inl hset) fun p _ hh => ?_,
    h.reserve, ?_, h.active⟩, hpage⟩
  · show (s.bm.sblk i).wpOfft ≤ ((getPageNum cfg s.bm a).2.sblk i).wpOfft
    rw [hwp]
    exact Nat.le_add_right ..
  · rcases hh with hh | rfl
    · exact Or.inl hh
    · exact Or.inr hpage
  · have hne : s.bm.dataPart.sblkRsv ≠ a := fun he => h.active (by rw [hact, h.reserve, he])
    show ((getPageNum cfg s.bm a).2.sblk s.bm.dataPart.sblkRsv).wpOfft = 0
    rw [hwp, if_neg hne, h.empty]

/-- Steps that leave the data path alone. -/
theorem Store.Stacked.congr {s s' : Store} {H : Nat → Prop} (h : s.Stacked cfg H)
    (hb : HashKv.Stacked cfg s'.bm H) (hp : SameDataPath s s')
    (hwp : (s'.bm.sblk s.bm.dataPart.sblkRsv).wpOfft = (s.bm.sblk s.bm.dataPart.sblkRsv).wpOfft) :
    s'.Stacked cfg H := by
  have hrsv : s'.bm.dataPart.sblkRsv = s.bm.dataPart.sblkRsv :=
    congrArg Part.sblkRsv hp.cursors.part
  refine ⟨hb, ?_, ?_, ?_⟩
  · rw [hp.reserve, hrsv]
    exact h.reserve
  · rw [hrsv, hwp]
    exact h.empty
  · rw [hp.active, hp.reserve]
    exact h.active

/-- The map side leaves the data pages alone. -/
theorem Store.Stacked.mapStep {s s' : Store} {H : Nat → Prop} (t : s.Tidy cfg)
    (h : s.Stacked cfg H) (hm : MapStep cfg s s') (hp : SameDataPath s s') : s'.Stacked cfg H := by
  refine h.congr (h.toStacked.data hm.data) hp ?_
  rw [hm.data.sblk _ (t.zoned.reserve _ h.reserve).1]

/-- The grain of an old value is given up. -/
theorem Store.Stacked.wbInvalidateOld {s : Store} {H : Nat → Prop} (h : s.Stacked cfg H)
    (lpa : Nat) : (HashKv.wbInvalidateOld cfg s lpa).Stacked cfg H := by
  have hblocks := @wbInvalidateOld_blocks cfg s lpa
  refine h.congr (h.toStacked.clears (fun i => hblocks.wpOfft i) ?_) (.wbInvalidateOld s lpa)
    (hblocks.wpOfft _)
  unfold HashKv.wbInvalidateOld
  split
  · exact OnlyClears.invalidateGrains _ s.bm _
  · exact fun _ hset => hset

/-- An installation moves no page. -/
theorem Store.Stacked.wbInstall {s : Store} {H : Nat → Prop} {lpa ppa : Nat} {fp : UInt32}
    (t : s.Tidy cfg) (h : s.Stacked cfg H) : (HashKv.wbInstall cfg s lpa ppa fp).Stacked cfg H := by
  have hupdate := h.mapStep t (.update t lpa ⟨some ppa, fp⟩) (.update s lpa ⟨some ppa, fp⟩)
  exact ⟨⟨hupdate.valid, hupdate.handed⟩, hupdate.reserve, hupdate.empty, hupdate.active⟩

/-- A step other than the assignment. -/
theorem Store.Stacked.step {f f' : Ftl} {a : Label} {H : Nat → Prop} (t : f.Tidy cfg)
    (h : f.store.Stacked cfg H) (hstep : Step cfg hs f a f') (ha : a ≠ .assign) :
    f'.store.Stacked cfg H := by
  have hpass : ∀ {e : WbEntry} {choice : Rebalance} {s : Store} {ex : WbExit},
      wbPass cfg f.realKeys f.hashTable f.store e choice = some (s, ex) →
        s.Tidy cfg ∧ s.Stacked cfg H := fun hw => by
    have hr := MapStep.wbPath t.store (WbPath.of_pass hw).2
    exact ⟨hr.tidy, h.mapStep t.store hr.step (SameDataPath.wbPath (WbPath.of_pass hw).2)⟩
  cases hstep with
  | getPass choice r s ex hp hget =>
    have hr := MapStep.getPath t.store (GetPath.of_pass hget)
    have hs := h.mapStep t.store hr.step (SameDataPath.getPath (GetPath.of_pass hget))
    cases ex <;> exact hs
  | wbAgain choice m e s e' hp hc hw | wbParked choice m e s e' hp hc hw => exact (hpass hw).2
  | wbUpdate choice m e s e' ppa hp hc hw hppa =>
    obtain ⟨ts, hs⟩ := hpass hw
    exact (hs.wbInvalidateOld _).wbInstall (ts.wbInvalidateOld _)
  | wbDirectUpdate choice m e s e' ppa hp hc hw hppa =>
    obtain ⟨ts, hs⟩ := hpass hw
    exact hs.wbInstall ts
  | promote page hp =>
    have hm : MapStep cfg f.store (f.store.promoteHot page) := .of_tables (.promoteHot _ page)
    exact h.mapStep t.store hm ((SameDataPath.evict cfg f.store).promote page (.refl _))
  | endAssign | assignEntry | assignPage => exact absurd rfl ha
  | get | resume | setFull | setInsert | pickRetry | pickMaster | flush | rehashBegin |
      rehashTick => exact ⟨⟨h.valid, h.handed⟩, h.reserve, h.empty, h.active⟩

/-- A collection is due, or none. -/
theorem gcStream_single {f : Ftl} {m : Assign} (hds : cfg.dataSegregation = false)
    (hp : f.phase = .assigning m) (hdone : m.done < cfg.maxWriteBuf) :
    f.gcStream cfg = if f.store.gcDue cfg 0 = true then some 0 else none := by
  unfold Ftl.gcStream
  rw [hp]
  dsimp only
  rw [if_neg (by omega), if_neg (by simp [hds])]

/-- The call of an assignment. -/
theorem allocCall_assigning {f : Ftl} {m : Assign} (hp : f.phase = .assigning m)
    (hdone : m.done < cfg.maxWriteBuf) : f.allocCall cfg = dpAlloc cfg f.store 0 := by
  unfold Ftl.allocCall
  rw [hp]
  exact if_neg (by omega)

/-- The pages handed out before it, of which a collection takes some back. -/
theorem handedBefore_single {f : Ftl} {m : Assign} {H : Nat → Prop}
    (hds : cfg.dataSegregation = false) (hp : f.phase = .assigning m)
    (hdone : m.done < cfg.maxWriteBuf) :
    f.handedBefore cfg H = if f.store.gcDue cfg 0 = true then f.store.afterGc cfg H else H := by
  unfold Ftl.handedBefore
  rw [gcStream_single hds hp hdone]
  by_cases hdue : f.store.gcDue cfg 0 = true
  · rw [if_pos hdue, if_pos hdue, if_pos rfl]
  · rw [if_neg hdue, if_neg hdue, if_neg (by simp)]

/-- The condition of a run, at an assignment. -/
theorem gcShort_assign {f : Ftl} {m : Assign} (hds : cfg.dataSegregation = false)
    (hp : f.phase = .assigning m) (hdone : m.done < cfg.maxWriteBuf) :
    gcShort cfg f .assign = true ↔
      (f.store.gcDue cfg 0 = true → needOf GcItem.len (f.store.gcItems cfg 0) < cfg.pps) := by
  unfold gcShort
  rw [gcStream_single hds hp hdone]
  by_cases hdue : f.store.gcDue cfg 0 = true
  · rw [if_pos hdue, Option.all_some, decide_eq_true_eq]
    exact ⟨fun h _ => h, fun h => h hdue⟩
  · rw [if_neg hdue]
    exact ⟨fun _ h => absurd h hdue, fun _ => rfl⟩

/-- A page of the assignment keeps everything below the write pointers. -/
theorem Store.Stacked.assign {f f' : Ftl} {H : Nat → Prop} (hds : cfg.dataSegregation = false)
    (t : f.Tidy cfg) (h : f.store.Stacked cfg H) (hshort : gcShort cfg f .assign = true)
    (hstep : Step cfg hs f .assign f') : f'.store.Stacked cfg (f.handed cfg H .assign) := by
  cases hstep with
  | endAssign m hp hdone =>
    have hcall : f.allocCall cfg = none := by
      unfold Ftl.allocCall
      rw [hp]
      exact if_pos hdone
    have hbefore : f.handedBefore cfg H = H := by
      refine if_neg ?_
      unfold Ftl.gcStream
      rw [hp]
      dsimp only
      rw [if_pos hdone]
      exact Option.some_ne_none 0 ∘ Eq.symm
    refine ⟨⟨h.valid, fun p hp' hh => h.handed p hp' ?_⟩, h.reserve, h.empty, h.active⟩
    rcases hh with hh | ⟨s, hs⟩
    · rwa [hbefore] at hh
    · rw [hcall] at hs
      cases hs
  | assignEntry m e s fl pga hp hdone hds' =>
    rw [hds] at hds'
    cases hds'
  | assignPage m ppa s bm wb hp hdone hds' ha hb =>
    obtain ⟨a, s₁, hal⟩ := h.allocation hds t.store ha
    obtain ⟨hroom, hstacked⟩ := hal.room ((gcShort_assign hds hp hdone).mp hshort)
    rw [← handedBefore_single hds hp hdone] at hstacked
    obtain ⟨htaken, hpage⟩ := hstacked.take hal.active hroom
    rw [← hal.page] at htaken hpage
    have hblocks := placeEntries_blocks hb
    -- Only grains of the new page become valid.
    have hbits := (grainInvariant_page cfg s.bm ppa).placeEntries
      (fun p hp => page_of_placed (fillBin_fits hp).1 (fillBin_fits hp).2)
      (fun _ hset => Or.inl hset) hb
    rw [← hal.after] at htaken
    have hbelow : Bm.Below cfg bm ppa := by
      unfold Bm.Below
      rw [hblocks.wpOfft, hal.after]
      exact hpage
    have hcall : ∀ p, (∃ s, f.allocCall cfg = some (p, s)) → p = ppa := fun p ⟨s', hs'⟩ => by
      rw [allocCall_assigning hp hdone, ha] at hs'
      cases hs'
      rfl
    refine Store.Stacked.congr (s := s) ⟨?_, htaken.reserve, htaken.empty, htaken.active⟩ ?_
      ⟨hblocks.cursors, rfl, rfl⟩ (hblocks.wpOfft _)
    · exact ⟨htaken.valid, fun p hp' hh => htaken.handed p hp' (hh.imp_right (hcall p))⟩
    · refine htaken.toStacked.grow (fun i _ => (hblocks.wpOfft i).ge) (fun g _ hset => ?_)
        fun p _ hh => Or.inl (hh.imp_right (hcall p))
      rcases hbits g hset with hold | hg
      · exact Or.inl hold
      · exact Or.inr (hg ▸ hbelow)

/-- The run without the record of the pages. -/
theorem traced_reach {ok : Ftl → Label → Prop} {x : Ftl × (Nat → Prop)}
    (h : (tracedMachine cfg hs).Reach (fun x a => ok x.1 a) x) : (machine cfg hs).Reach ok x.1 :=
  Machine.withHistory_reach h

/-- Nothing is handed out at first. -/
theorem create_stacked {garbage : Nat → Key} {f : Ftl} (hds : cfg.dataSegregation = false)
    (h : Ftl.create cfg garbage = some f) : f.store.Stacked cfg fun _ => False := by
  obtain ⟨s, hs, rfl⟩ := Option.map_eq_some_iff.mp h
  obtain ⟨bm, hb, rfl⟩ := Option.map_eq_some_iff.mp hs
  unfold bmInit at hb
  rw [if_neg (by simp [hds])] at hb
  cases hb
  refine ⟨⟨fun g _ hset => ?_, fun _ _ hh => hh.elim⟩, ?_, rfl, ?_⟩
  · cases hset
  · exact if_neg (by simp [hds])
  · show none ≠ (if cfg.dataSegregation then none else some _)
    rw [if_neg (by simp [hds])]
    exact Option.some_ne_none _ ∘ Eq.symm

/-- While collections leave room in the reserve, everything is below the write pointers. -/
theorem reach_stacked (hds : cfg.dataSegregation = false) {x : Ftl × (Nat → Prop)}
    (h : (tracedMachine cfg hs).Reach (fun x a => gcShort cfg x.1 a = true) x) :
    x.1.store.Stacked cfg x.2 := by
  refine h.invariant (I := fun x => x.1.store.Stacked cfg x.2) (fun x hinit => ?_)
    fun x x' a hr ih hok hn => ?_
  · obtain ⟨⟨garbage, hi⟩, hx⟩ := hinit
    rw [hx]
    exact create_stacked hds hi
  · have hreach : (machine cfg hs).Reach (fun f a => gcShort cfg f a = true) x.1 := traced_reach hr
    have t := reach_tidy (fun f a _ => gcFresh_single hds f a) hreach
    obtain ⟨f, hf, rfl⟩ := Option.map_eq_some_iff.mp hn
    by_cases ha : a = .assign
    · subst ha
      have hstep : Step cfg hs x.1 .assign f := .of_next hf
      exact ih.assign hds t hok hstep
    · have hsame : x.1.handed cfg x.2 a = x.2 := by
        cases a with
        | assign => exact absurd rfl ha
        | _ => rfl
      dsimp only
      rw [hsame]
      have hstep : Step cfg hs x.1 a f := .of_next hf
      exact ih.step t hstep ha

/-- In a run whose collections all leave room in the reserve, the page that `dp_alloc` returns
    is a fresh page of the active superblock if, and only if, its own collection leaves room,
    too. -/
theorem data_page_allocation (hds : cfg.dataSegregation = false) {f : Ftl} {H : Nat → Prop}
    (h : (tracedMachine cfg hs).Reach (fun x a => gcShort cfg x.1 a = true) (f, H))
    (hcall : (f.allocCall cfg).isSome = true) :
    AllocSound cfg f H ↔ gcShort cfg f .assign = true := by
  obtain ⟨⟨ppa, s⟩, hs'⟩ := Option.isSome_iff_exists.mp hcall
  have hst : f.store.Stacked cfg H := reach_stacked hds h
  have hreach : (machine cfg hs).Reach (fun f a => gcShort cfg f a = true) f :=
    @traced_reach cfg hs _ (f, H) h
  have t : f.Tidy cfg := reach_tidy (fun f a _ => gcFresh_single hds f a) hreach
  have hphase : ∃ m, f.phase = .assigning m ∧ m.done < cfg.maxWriteBuf := by
    unfold Ftl.allocCall at hs'
    split at hs'
    · next m hp =>
      split at hs'
      · cases hs'
      · exact ⟨m, hp, by omega⟩
    · cases hs'
  obtain ⟨m, hp, hdone⟩ := hphase
  have ha := (allocCall_assigning hp hdone).symm.trans hs'
  obtain ⟨a, s₁, hal⟩ := hst.allocation hds t.store ha
  have hact : s.dActive = some a := by
    rw [hal.after]
    exact hal.active
  rw [gcShort_assign hds hp hdone]
  refine ⟨fun hsound hdue => ?_, fun hshort ppa' s' hs'' => ?_⟩
  · by_contra hfull
    obtain ⟨⟨b, offt, hb, hpage, hlt⟩, -⟩ := hsound ppa s hs'
    cases hact.symm.trans hb
    have hover := hal.overrun hdue (by omega)
    have heq := hal.page.symm.trans hpage
    unfold sblkOfft2Ppa at heq
    omega
  · cases hs'.symm.trans hs''
    obtain ⟨hroom, hstacked⟩ := hal.room hshort
    rw [← handedBefore_single hds hp hdone] at hstacked
    have hdata : cfg.dataPage ≤ ppa := (t.store.dpAlloc (Or.inr rfl)
      (fun _ => by simp [Store.gcFresh, hds]) ha).2
    -- The page is the one at the write pointer.
    have hnot : ¬ s₁.bm.Below cfg ppa := by
      unfold Bm.Below
      rw [hal.page, sblkOfft2Ppa_div hroom, sblkOfft2Ppa_mod hroom]
      exact Nat.lt_irrefl _
    refine ⟨⟨a, _, hact, hal.page, hroom⟩, ?_, fun hh => hnot (hstacked.handed ppa hdata hh)⟩
    refine containsValidGrain_eq_false.mpr fun g hg => ?_
    by_contra hset
    have hvalid : s₁.bm.validBitmap g = true := by
      rw [hal.after] at hset
      simpa [getPageNum, Bm.setSblk] using hset
    refine hnot (hg ▸ hstacked.valid g ?_ hvalid)
    unfold Settings.dataGrain
    omega

/-! ## Section 5: Concrete runs -/

/-- Every run has its record. -/
theorem exists_traced {ok : Ftl → Label → Prop} {f : Ftl} (h : (machine cfg hs).Reach ok f) :
    ∃ H, (tracedMachine cfg hs).Reach (fun x a => ok x.1 a) (f, H) :=
  Machine.exists_withHistory h

/-- Superblocks of `pps` pages, a write buffer of one entry, a cache for all pages. -/
def smallSingle (pps : Nat) (h : 0 < pps) (hfit : pps * 20 * 4 < 4294967295) : Settings :=
  .scaled false false pps 20 8 1 8 h (Nat.le_refl _) eight_pos Nat.one_pos eight_pos hfit

/-- Values of three grains for the keys 1, 9, .. of page 1. -/
def fillSingle (n : Nat) : List Label :=
  .set (byteKey 1) 2500 ::
    (List.range n).flatMap fun i => flushRetry (UInt8.ofNat (9 + 8 * i)) 2500 0

/-- Key 1 is written again before all superblocks are full: its old superblock is collected
    with one live item, and the page is the second one of the reserve. -/
theorem data_page_allocation_collected : ∃ f H,
    f.gcStream (smallSingle 2 (by decide) (by decide)) = some 0 ∧
      AllocSound (smallSingle 2 (by decide) (by decide)) f H := by
  obtain ⟨f, hf, hp⟩ := exists_reach_of_run (smallSingle 2 (by decide) (by decide)) spreadHash
    (gcShort (smallSingle 2 (by decide) (by decide)))
    (fillSingle 31 ++ flushRetry 1 2500 0 ++ flushRetry 2 2500 1 ++ flushRetry 10 2500 0 ++
      [.set (byteKey 100) 2500])
    (fun f => f.gcStream (smallSingle 2 (by decide) (by decide)) = some 0 &&
      gcShort (smallSingle 2 (by decide) (by decide)) f .assign &&
      (f.allocCall (smallSingle 2 (by decide) (by decide))).isSome)
    (by decide +kernel) (by decide +kernel)
  simp only [Bool.and_eq_true, decide_eq_true_eq] at hp
  obtain ⟨⟨hgc, hshort⟩, hcall⟩ := hp
  obtain ⟨H, hr⟩ := exists_traced hf
  exact ⟨f, H, hgc, (data_page_allocation rfl hr hcall).mpr hshort⟩

/-- Superblocks of one page: the item of the victim fills the reserve, superblock 2, and page
    3, which `dp_alloc` returns next, is the page of the superblock it has just erased. -/
theorem reserveOverrun_counterexample : ∃ f H,
    (tracedMachine (smallSingle 1 (by decide) (by decide)) spreadHash).Reachable (f, H) ∧
      ¬ AllocSound (smallSingle 1 (by decide) (by decide)) f H := by
  obtain ⟨f, hf, hp⟩ := exists_reachable_of_run (smallSingle 1 (by decide) (by decide)) spreadHash
    (fillSingle 17 ++ [.set (byteKey 100) 2500])
    (fun f => (f.allocCall (smallSingle 1 (by decide) (by decide))).any fun call =>
      call.2.dActive = some 2 && call.1 = 3) (by decide +kernel)
  obtain ⟨⟨ppa, s⟩, hcall, hp⟩ := (Option.any_eq_true ..).mp hp
  rw [Bool.and_eq_true, decide_eq_true_eq, decide_eq_true_eq] at hp
  obtain ⟨H, hr⟩ := exists_traced hf
  refine ⟨f, H, hr, fun hsound => ?_⟩
  obtain ⟨⟨a, offt, hact, hpage, hlt⟩, -⟩ := hsound ppa s hcall
  cases hp.1.symm.trans hact
  have hoff : 3 = 2 * 1 + offt := hp.2.symm.trans hpage
  have hone : offt < 1 := hlt
  omega

end AggreKV.HashKv
