import AggreKV.Lib.BinPacking
import AggreKV.HashKv.Pools

/-! # Packing items into pages

    The single-stream build packs the live items of a victim, and the
    entries of a full write buffer, with one loop. Its choices do not
    depend on where the pages are: they are the bins of `packBins`.

    * `Packs`: what a packing into pages is; `Tight`: no page too many.
    * `packPages_room`: a superblock with room for the pages takes them.
    * `reach_labelled`: collected items come from inside their pages.
    * `grain_packing`: both loops pack, and tightly. -/

namespace AggreKV.HashKv

open Buckets

variable {α : Type} {cfg : Settings} {hs : Hashing}

/-! ## Section 1: Packings -/

/-- A placed item of an empty bin at the grains of page `ppa`. -/
def Placed.onPage (ppa : Nat) (p : Placed α) : Placed α := ⟨p.item, ppaToPga ppa p.offset, p.len⟩

/-- Each bin at the grains of its page. -/
def layout (ppas : List Nat) (bins : List (List (Placed α))) : List (List (Placed α)) :=
  (ppas.zip bins).map fun (ppa, bin) => bin.map (Placed.onPage ppa)

/-- The items lie on the pages `ppas`, one bin a page: each item once, on consecutive grains
    inside the page, no two of a page on a common grain. -/
structure Packs (len : α → Nat) (items : List α) (ppas : List Nat)
    (bins : List (List (Placed α))) : Prop where
  pages : bins.length = ppas.length
  once : (bins.flatten.map (·.item)).Perm items
  inPage : ∀ x ∈ ppas.zip bins, ∀ p ∈ x.2,
    p.len = len p.item ∧ p.offset / 4 = x.1 ∧ p.offset % 4 + p.len ≤ 4
  apart : ∀ bin ∈ bins, bin.Pairwise fun p q => p.offset + p.len ≤ q.offset

/-- `n` pages are as many as the lengths ask for, `n4 + n3 + ⌈(2 n2 + max 0 (n1 - n3)) / 4⌉`,
    and no packing of the items has less. -/
structure Tight (len : α → Nat) (items : List α) (n : Nat) : Prop where
  count : n = countLen len 4 items + countLen len 3 items +
    (2 * countLen len 2 items + (countLen len 1 items - countLen len 3 items) + 3) / 4
  least : ∀ bins : List (List α), bins.flatten.Perm items →
    (∀ bin ∈ bins, (bin.map len).sum ≤ 4) → n ≤ bins.length

theorem layout_cons (ppa : Nat) (ppas : List Nat) (bin : List (Placed α))
    (bins : List (List (Placed α))) :
    layout (ppa :: ppas) (bin :: bins) = bin.map (Placed.onPage ppa) :: layout ppas bins := rfl

/-- There is one page for each bin. -/
theorem length_layout {ppas : List Nat} {bins : List (List (Placed α))}
    (h : ppas.length = bins.length) : (layout ppas bins).length = bins.length := by
  unfold layout
  rw [List.length_map, List.length_zip, h, Nat.min_self]

/-- A layout holds the items of the bins. -/
theorem layout_items : ∀ {ppas : List Nat} {bins : List (List (Placed α))},
    ppas.length = bins.length →
      (layout ppas bins).flatten.map (·.item) = bins.flatten.map (·.item) := by
  intro ppas
  induction ppas with
  | nil =>
    intro bins h
    rw [List.eq_nil_of_length_eq_zero h.symm]
    rfl
  | cons ppa ppas ih =>
    intro bins h
    cases bins with
    | nil => cases h
    | cons bin bins =>
      rw [layout_cons, List.flatten_cons, List.map_append, List.map_map, ih (Nat.succ.inj h),
        List.flatten_cons, List.map_append]
      rfl

/-- What stands on a page is its bin. -/
theorem mem_zip_layout {x : Nat × List (Placed α)} : ∀ {ppas : List Nat}
    {bins : List (List (Placed α))}, x ∈ ppas.zip (layout ppas bins) →
      ∃ bin ∈ bins, x.2 = bin.map (Placed.onPage x.1) := by
  intro ppas
  induction ppas with
  | nil =>
    intro bins h
    cases h
  | cons ppa ppas ih =>
    intro bins h
    cases bins with
    | nil => cases h
    | cons bin bins =>
      rw [layout_cons] at h
      rcases List.mem_cons.mp h with rfl | h
      · exact ⟨bin, List.mem_cons_self .., rfl⟩
      · obtain ⟨bin', hbin', he⟩ := ih h
        exact ⟨bin', List.mem_cons_of_mem _ hbin', he⟩

/-- The grains of a page. -/
theorem ppaToPga_page (ppa : Nat) {offset len : Nat} (h : offset + len ≤ 4) (hlen : 0 < len) :
    ppaToPga ppa offset / 4 = ppa ∧ ppaToPga ppa offset % 4 = offset := by
  unfold ppaToPga
  omega

/-- Every bin has its page. -/
theorem exists_page {ppas : List Nat} {bins : List (List (Placed α))} {bin : List (Placed α)}
    (h : bins.length = ppas.length) (hbin : bin ∈ bins) :
    ∃ ppa ∈ ppas, (ppa, bin) ∈ ppas.zip bins := by
  obtain ⟨i, hi, rfl⟩ := List.getElem_of_mem hbin
  have hi' : i < ppas.length := h ▸ hi
  have hz : i < (ppas.zip bins).length := by
    rw [List.length_zip]
    omega
  refine ⟨ppas[i], List.getElem_mem hi', ?_⟩
  have hget : (ppas.zip bins)[i] = (ppas[i], bins[i]) := List.getElem_zip ..
  exact hget ▸ List.getElem_mem hz

/-- On different pages the items of different bins are apart, too. -/
theorem Packs.disjoint {len : α → Nat} {items : List α} {ppas : List Nat}
    {bins : List (List (Placed α))} (h : Packs len items ppas bins) (hnodup : ppas.Nodup) :
    bins.flatten.Pairwise fun p q =>
      p.offset + p.len ≤ q.offset ∨ q.offset + q.len ≤ p.offset := by
  obtain ⟨hpages, -, hin, hapart⟩ := h
  induction ppas generalizing bins with
  | nil =>
    rw [List.eq_nil_of_length_eq_zero hpages]
    exact List.Pairwise.nil
  | cons ppa ppas ih =>
    cases bins with
    | nil => cases hpages
    | cons bin bins =>
      obtain ⟨hnotin, hnodup⟩ := List.nodup_cons.mp hnodup
      have hpages' : bins.length = ppas.length := Nat.succ.inj hpages
      have hin' : ∀ x ∈ ppas.zip bins, ∀ p ∈ x.2,
          p.len = len p.item ∧ p.offset / 4 = x.1 ∧ p.offset % 4 + p.len ≤ 4 :=
        fun x hx => hin x (List.mem_cons_of_mem _ hx)
      rw [List.flatten_cons]
      refine List.pairwise_append.mpr ⟨?_, ?_, ?_⟩
      · exact (hapart bin (List.mem_cons_self ..)).imp Or.inl
      · exact ih hnodup hpages' hin' fun c hc => hapart c (List.mem_cons_of_mem _ hc)
      -- Items of different bins are on different pages.
      · intro p hp q hq
        obtain ⟨bin', hbin', hq⟩ := List.mem_flatten.mp hq
        obtain ⟨ppa', hppa', hz⟩ := exists_page hpages' hbin'
        have hp' := (hin (ppa, bin) (List.mem_cons_self ..) p hp).2
        have hq' := (hin' (ppa', bin') hz q hq).2
        have hne : ppa ≠ ppa' := fun he => hnotin (he ▸ hppa')
        omega

/-- The length buckets of the items, the last item on top of its stack. -/
def bucket (len : α → Nat) (items : List α) : Buckets α :=
  items.foldl (fun b x => b.push (len x) x) .empty

/-- The bins of the loop for the items. -/
def packing (len : α → Nat) (items : List α) : List (List (Placed α)) :=
  (bucket len items).packBins 4 items.length items.length

section Packing

variable {len : α → Nat} {items : List α}

theorem upTo_bucket (hlen : ∀ x ∈ items, 0 < len x ∧ len x ≤ 4) :
    ((bucket len items).upTo 4).Perm items := by
  have hperm := upTo_foldl_push len items .empty hlen
  rwa [upTo_empty, List.append_nil] at hperm

theorem packing_eq (hlen : ∀ x ∈ items, 0 < len x ∧ len x ≤ 4) :
    packing len items =
      (bucket len items).packBins 4 ((bucket len items).upTo 4).length items.length := by
  rw [(upTo_bucket hlen).length_eq]
  rfl

theorem packing_bin (bin : List (Placed α)) (hbin : bin ∈ packing len items) :
    (∀ p ∈ bin, p.offset + p.len ≤ 4 ∧ 0 < p.len ∧ len p.item = p.len) ∧
      bin.Pairwise fun p q => p.offset + p.len ≤ q.offset :=
  packBins_bin (Sorted.foldl_push items (Sorted.empty len)) bin hbin

/-- Each item is packed once. -/
theorem packing_once (hlen : ∀ x ∈ items, 0 < len x ∧ len x ≤ 4) :
    ((packing len items).flatten.map (·.item)).Perm items := by
  rw [packing_eq hlen]
  have hle := (upTo_bucket hlen).length_eq.le
  exact (packBins_perm hle).trans (upTo_bucket hlen)

/-- The bins of the loop on as many pages are a packing. -/
theorem packing_packs (hlen : ∀ x ∈ items, 0 < len x ∧ len x ≤ 4) {ppas : List Nat}
    (hppas : ppas.length = (packing len items).length) :
    Packs len items ppas (layout ppas (packing len items)) where
  pages := (length_layout hppas).trans hppas.symm
  once := by
    rw [layout_items hppas]
    exact packing_once hlen
  inPage := by
    intro x hx p hp
    obtain ⟨bin, hbin, he⟩ := mem_zip_layout hx
    rw [he] at hp
    obtain ⟨q, hq, rfl⟩ := List.mem_map.mp hp
    obtain ⟨hfit, hpos, hl⟩ := (packing_bin bin hbin).1 q hq
    obtain ⟨hdiv, hmod⟩ := ppaToPga_page x.1 hfit hpos
    refine ⟨hl.symm, hdiv, ?_⟩
    show ppaToPga x.1 q.offset % 4 + q.len ≤ 4
    rwa [hmod]
  apart := by
    intro bin hbin
    obtain ⟨x, hx, rfl⟩ := List.mem_map.mp hbin
    obtain ⟨-, hordered⟩ := packing_bin x.2 (List.of_mem_zip hx).2
    refine List.pairwise_map.mpr (hordered.imp fun {p q} hpq => ?_)
    show ppaToPga x.1 p.offset + p.len ≤ ppaToPga x.1 q.offset
    unfold ppaToPga
    omega

/-- No packing needs fewer pages. -/
theorem packing_tight (hlen : ∀ x ∈ items, 0 < len x ∧ len x ≤ 4) :
    Tight len items (packing len items).length := by
  have hcount : (packing len items).length = needOf len items := by
    rw [packing_eq hlen, length_packBins (upTo_bucket hlen).length_eq.le, bucket, need_foldl_push]
  refine ⟨hcount, fun bins hperm hload => ?_⟩
  rw [hcount, ← needOf_perm hperm]
  exact needOf_le hload fun bin hbin x hx =>
    hlen x (hperm.subset (List.mem_flatten_of_mem hbin hx))

end Packing

/-! ## Section 2: The write loop of a collection -/

/-- A placed item as the relocation it stands for. -/
def Placed.node (p : Placed GcItem) : GcNode := ⟨p.item.lpa, p.offset, p.len⟩

/-- One page of the write loop. -/
theorem packPages_succ {rsv fuel todo : Nat} (bm : Bm) (b : Buckets GcItem) (h : todo ≠ 0) :
    packPages cfg rsv bm b todo (fuel + 1) =
      (placeNodes cfg (getPageNum cfg bm rsv).2 (getPageNum cfg bm rsv).1 (b.fillBin 4).1).bind
        fun r => (packPages cfg rsv r.1 (b.fillBin 4).2 (todo - (b.fillBin 4).1.length) fuel).map
          fun r' => (r'.1, r.2 ++ r'.2.1, r'.2.2 + 1) := by
  rw [packPages, if_neg h]

theorem getPageNum_wpOfft (bm : Bm) (i : Nat) :
    ((getPageNum cfg bm i).2.sblk i).wpOfft = (bm.sblk i).wpOfft + 1 := by
  show (Function.update bm.sblk i _ i : Superblock).wpOfft = _
  rw [Function.update_self]

/-- The write loop fills the next pages of the reserve with the bins. -/
theorem packPages_spec {rsv : Nat} : ∀ {fuel todo copied : Nat} {bm bm' : Bm}
    {b : Buckets GcItem} {nodes : List GcNode},
    packPages cfg rsv bm b todo fuel = some (bm', nodes, copied) →
      copied = (b.packBins 4 todo fuel).length ∧
        nodes = (layout (List.range' (sblkOfft2Ppa cfg rsv (bm.sblk rsv).wpOfft) copied)
          (b.packBins 4 todo fuel)).flatten.map Placed.node := by
  intro fuel
  induction fuel with
  | zero =>
    intro todo copied bm bm' b nodes h
    cases h
    exact ⟨rfl, rfl⟩
  | succ fuel ih =>
    intro todo copied bm bm' b nodes h
    rw [packBins]
    by_cases hzero : todo = 0
    · rw [packPages, if_pos hzero] at h
      rw [if_pos hzero]
      cases h
      exact ⟨rfl, rfl⟩
    · rw [packPages_succ bm b hzero] at h
      rw [if_neg hzero]
      generalize b.fillBin 4 = filled at h ⊢
      obtain ⟨⟨bm₁, first⟩, hf, h⟩ := Option.bind_eq_some_iff.mp h
      obtain ⟨⟨bm₂, rest, copied'⟩, hr, he⟩ := Option.map_eq_some_iff.mp h
      cases he
      obtain ⟨hcopied, hrest⟩ := ih hr
      refine ⟨by rw [List.length_cons, ← hcopied], ?_⟩
      -- Placing the bin leaves the write pointer behind its page.
      have hnext : sblkOfft2Ppa cfg rsv (bm₁.sblk rsv).wpOfft =
          sblkOfft2Ppa cfg rsv (bm.sblk rsv).wpOfft + 1 := by
        rw [(placeNodes_blocks hf).wpOfft rsv, getPageNum_wpOfft]
        rfl
      rw [List.range'_succ, layout_cons, List.flatten_cons, List.map_append, List.map_map, hrest,
        placeNodes_ppas hf, hnext]
      rfl

/-- A grain is validated while its superblock has room. -/
theorem validateGrain_room (bm : Bm) {a g : Nat} (ha : a < cfg.nos) (hg : grainSblk cfg g = a)
    (hroom : (bm.sblk a).validCnt + 1 ≤ cfg.pps * 4) : ∃ bm', validateGrain cfg bm g = some bm' ∧
      (bm'.sblk a).validCnt = (bm.sblk a).validCnt + 1 := by
  unfold validateGrain
  dsimp only
  rw [hg, if_pos ⟨ha, hroom⟩]
  refine ⟨_, rfl, ?_⟩
  show (Function.update bm.sblk a _ a : Superblock).validCnt = _
  rw [Function.update_self]

/-- And so are the grains of an item. -/
theorem validateGrains_room {a : Nat} (ha : a < cfg.nos) : ∀ {n g : Nat} (bm : Bm),
    (∀ i < n, grainSblk cfg (g + i) = a) → (bm.sblk a).validCnt + n ≤ cfg.pps * 4 →
      ∃ bm', validateGrains cfg bm g n = some bm' ∧
        (bm'.sblk a).validCnt = (bm.sblk a).validCnt + n := by
  intro n
  induction n with
  | zero => exact fun _ _ _ => ⟨_, rfl, rfl⟩
  | succ n ih =>
    intro g bm hg hroom
    obtain ⟨bm₁, h₁, hc₁⟩ := validateGrain_room bm ha (hg 0 (Nat.succ_pos n)) (by omega)
    have hnext : ∀ i < n, grainSblk cfg (g + 1 + i) = a := fun i hi => by
      have hgi := hg (i + 1) (Nat.succ_lt_succ hi)
      rwa [← Nat.add_assoc, Nat.add_right_comm] at hgi
    obtain ⟨bm₂, h₂, hc₂⟩ := ih bm₁ hnext (by omega)
    refine ⟨bm₂, ?_, by omega⟩
    rw [validateGrains, show validateGrain cfg bm g = some bm₁ from h₁]
    exact h₂

/-- The items of a bin fit a page of a superblock with room. -/
theorem placeNodes_room {a ppa : Nat} (ha : a < cfg.nos) (hppa : ppa / cfg.pps = a) :
    ∀ (ps : List (Placed GcItem)) (bm : Bm), (∀ p ∈ ps, p.offset + p.len ≤ 4) →
      (bm.sblk a).validCnt + (ps.map (·.len)).sum ≤ cfg.pps * 4 →
      ∃ bm' nodes, placeNodes cfg bm ppa ps = some (bm', nodes) ∧
        (bm'.sblk a).validCnt = (bm.sblk a).validCnt + (ps.map (·.len)).sum := by
  intro ps
  induction ps with
  | nil => exact fun _ _ _ => ⟨_, _, rfl, rfl⟩
  | cons p ps ih =>
    intro bm hfit hroom
    rw [List.map_cons, List.sum_cons] at hroom ⊢
    have hp := hfit p (List.mem_cons_self ..)
    -- All grains of the item are in the superblock of the page.
    have hgrains : ∀ i < p.len, grainSblk cfg (ppaToPga ppa p.offset + i) = a := fun i hi => by
      rw [← hppa]
      unfold grainSblk ppaToPga
      rw [show (ppa * 4 + p.offset + i) / 4 = ppa by omega]
    obtain ⟨bm₁, h₁, hc₁⟩ := validateGrains_room ha bm hgrains (by omega)
    have hplace : placeItem cfg bm (ppaToPga ppa p.offset) p.item.lpa p.len =
        some (bm₁.setOob (ppaToPga ppa p.offset) ⟨false, p.item.lpa, p.len⟩) := by
      unfold placeItem
      rw [h₁]
      rfl
    generalize hbm : bm₁.setOob (ppaToPga ppa p.offset) ⟨false, p.item.lpa, p.len⟩ = bm₁' at hplace
    have hc₁' : (bm₁'.sblk a).validCnt = (bm.sblk a).validCnt + p.len := by
      rw [← hc₁, ← hbm]
      rfl
    obtain ⟨bm₂, nodes, h₂, hc₂⟩ := ih bm₁'
      (fun q hq => hfit q (List.mem_cons_of_mem _ hq)) (by omega)
    refine ⟨bm₂, ⟨p.item.lpa, ppaToPga ppa p.offset, p.len⟩ :: nodes, ?_, by omega⟩
    rw [placeNodes, hplace, Option.bind_some, h₂]
    rfl

/-- In a superblock with room for its pages the write loop does not abort. -/
theorem packPages_room {rsv : Nat} (hrsv : rsv < cfg.nos) : ∀ {fuel todo : Nat} (bm : Bm)
    {b : Buckets GcItem}, Sorted GcItem.len b → (bm.sblk rsv).validCnt ≤ 4 * (bm.sblk rsv).wpOfft →
      (bm.sblk rsv).wpOfft + (b.packBins 4 todo fuel).length ≤ cfg.pps →
        ∃ r, packPages cfg rsv bm b todo fuel = some r := by
  intro fuel
  induction fuel with
  | zero => exact fun _ _ _ _ _ => ⟨_, rfl⟩
  | succ fuel ih =>
    intro todo bm b hs hvalid hroom
    by_cases hzero : todo = 0
    · exact ⟨(bm, [], 0), by rw [packPages, if_pos hzero]⟩
    · rw [packBins, if_neg hzero, List.length_cons] at hroom
      have hfit : ∀ p ∈ (b.fillBin 4).1, p.offset + p.len ≤ 4 := fun p hp => by
        have hwithin := fill_within hp
        omega
      have hordered : (b.fillBin 4).1.Pairwise fun p q => p.offset + p.len ≤ q.offset :=
        fill_ordered
      -- A bin validates at most the four grains of its page.
      have hload := load_le hfit hordered
      have hpage : (getPageNum cfg bm rsv).1 / cfg.pps = rsv :=
        sblkOfft2Ppa_div (by omega)
      have hcnt : ((getPageNum cfg bm rsv).2.sblk rsv).validCnt = (bm.sblk rsv).validCnt := by
        show (Function.update bm.sblk rsv _ rsv : Superblock).validCnt = _
        rw [Function.update_self]
      obtain ⟨bm₁, nodes, h₁, hc₁⟩ := placeNodes_room hrsv hpage (b.fillBin 4).1
        (getPageNum cfg bm rsv).2 hfit (by omega)
      have hwp : (bm₁.sblk rsv).wpOfft = (bm.sblk rsv).wpOfft + 1 := by
        rw [(placeNodes_blocks h₁).wpOfft rsv, getPageNum_wpOfft]
      obtain ⟨r, hr⟩ := ih bm₁ (Sorted.fill hs).2 (by omega)
        (show (bm₁.sblk rsv).wpOfft + _ ≤ cfg.pps by
          rw [hwp]
          exact (Nat.succ_add _ _).trans_le hroom)
      refine ⟨(r.1, nodes ++ r.2.1, r.2.2 + 1), ?_⟩
      rw [packPages_succ bm b hzero, h₁, Option.bind_some, show packPages cfg rsv bm₁
        (b.fillBin 4).2 (todo - (b.fillBin 4).1.length) fuel = some r from hr]
      rfl

/-! ## Section 3: The loop over the write buffer -/

/-- The entries with the grains of their places. -/
def placedEntries (ps : List (Placed WbEntry)) : List WbEntry :=
  ps.map fun p => { p.item with ppa := some p.offset }

/-- Setting the grains of placed entries, one after the other. -/
def setPpas (wb : List WbEntry) (ps : List (Placed WbEntry)) : List WbEntry :=
  ps.foldl (fun wb p => wbSetPpa wb p.item.key p.offset) wb

/-- A key that is not in the buffer changes nothing. -/
theorem wbSetPpa_of_ne {wb : List WbEntry} {key : Key} (ppa : Nat)
    (h : ∀ e ∈ wb, e.key ≠ key) : wbSetPpa wb key ppa = wb := by
  refine (List.map_congr_left fun e he => ?_).trans (List.map_id' wb)
  exact if_neg (h e he)

/-- With distinct keys each entry gets the grains of its own place. -/
theorem setPpas_perm : ∀ {ps : List (Placed WbEntry)} {wb rest : List WbEntry},
    wb.Perm (ps.map (·.item) ++ rest) → (wb.map (·.key)).Nodup →
      (setPpas wb ps).Perm (placedEntries ps ++ rest) := by
  intro ps
  induction ps with
  | nil => exact fun h _ => h
  | cons p ps ih =>
    intro wb rest h hkeys
    have hnodup := (h.map (·.key)).nodup_iff.mp hkeys
    rw [List.map_cons, List.cons_append, List.map_cons] at hnodup
    obtain ⟨hnotin, hnodup⟩ := List.nodup_cons.mp hnodup
    have hne : ∀ e ∈ ps.map (·.item) ++ rest, e.key ≠ p.item.key := fun e he hk =>
      hnotin (hk ▸ List.mem_map_of_mem he)
    -- The entry of `p` moves to the ones that have their grains.
    have hset : (wbSetPpa wb p.item.key p.offset).Perm
        (ps.map (·.item) ++ ({ p.item with ppa := some p.offset } :: rest)) := by
      have hmap := h.map fun x : WbEntry =>
        if x.key = p.item.key then { x with ppa := some p.offset } else x
      rw [List.map_cons, List.cons_append, List.map_cons, if_pos rfl] at hmap
      have hrest := wbSetPpa_of_ne p.offset hne
      unfold wbSetPpa at hrest ⊢
      rw [hrest] at hmap
      exact hmap.trans List.perm_middle.symm
    -- Setting an address changes no key.
    have hkeys' : ((wbSetPpa wb p.item.key p.offset).map (·.key)).Nodup := by
      have hsame : (wbSetPpa wb p.item.key p.offset).map (·.key) = wb.map (·.key) := by
        unfold wbSetPpa
        rw [List.map_map]
        refine List.map_congr_left fun e _ => ?_
        show (if e.key = p.item.key then { e with ppa := some p.offset } else e : WbEntry).key = _
        split <;> rfl
      rwa [hsame]
    exact (ih hset hkeys').trans List.perm_middle

/-- The entries of a bin get their grains. -/
theorem placeEntries_setPpas {ps : List (Placed WbEntry)} {bm bm' : Bm} {wb wb' : List WbEntry}
    {ppa : Nat} (h : placeEntries cfg bm wb ppa ps = some (bm', wb')) :
    wb' = setPpas wb (ps.map (Placed.onPage ppa)) := by
  rw [placeEntries_wb h]
  unfold setPpas
  rw [List.foldl_map]
  rfl

/-- The pages that `dp_alloc` returns in the first steps of the assignment from `f`. -/
def Allocated (cfg : Settings) (hs : Hashing) (f : Ftl) (ppas : List Nat) : Prop :=
  ∀ i ppa, ppas[i]? = some ppa → ∃ g s,
    (machine cfg hs).exec f (List.replicate i .assign) = some g ∧
      dpAlloc cfg g.store 0 = some (ppa, s)

/-- The page of the first step, then those of the rest. -/
theorem Allocated.cons {f g : Ftl} {ppa : Nat} {ppas : List Nat} {s : Store}
    (ha : dpAlloc cfg f.store 0 = some (ppa, s)) (hn : (machine cfg hs).next f .assign = some g)
    (h : Allocated cfg hs g ppas) : Allocated cfg hs f (ppa :: ppas) := by
  intro i p hp
  cases i with
  | zero =>
    cases hp
    exact ⟨f, s, rfl, ha⟩
  | succ i =>
    obtain ⟨g', s', he, ha'⟩ := h i p hp
    refine ⟨g', s', ?_, ha'⟩
    rw [List.replicate_succ]
    show ((machine cfg hs).next f .assign).bind _ = _
    rw [hn]
    exact he

/-- After `k` steps of the assignment the first `k` bins are placed. -/
theorem assign_run (hds : cfg.dataSegregation = false) : ∀ {k fuel : Nat} {f f' : Ftl} {m : Assign},
    f.phase = .assigning m →
      k ≤ (m.buckets.packBins 4 (cfg.maxWriteBuf - m.done) fuel).length →
      (machine cfg hs).exec f (List.replicate k .assign) = some f' →
      ∃ ppas m' fuel', ppas.length = k ∧ Allocated cfg hs f ppas ∧ f'.phase = .assigning m' ∧
        m'.done = m.done +
          ((m.buckets.packBins 4 (cfg.maxWriteBuf - m.done) fuel).take k).flatten.length ∧
        m'.buckets.packBins 4 (cfg.maxWriteBuf - m'.done) fuel' =
          (m.buckets.packBins 4 (cfg.maxWriteBuf - m.done) fuel).drop k ∧
        f'.wb = setPpas f.wb (layout ppas
          ((m.buckets.packBins 4 (cfg.maxWriteBuf - m.done) fuel).take k)).flatten := by
  intro k
  induction k with
  | zero =>
    intro fuel f f' m hp _ h
    cases h
    exact ⟨[], m, fuel, rfl, (fun _ _ hp => by cases hp), hp, rfl, rfl, rfl⟩
  | succ k ih =>
    intro fuel f f' m hp hk h
    cases fuel with
    | zero => cases hk
    | succ fuel =>
      rw [packBins] at hk ⊢
      by_cases hzero : cfg.maxWriteBuf - m.done = 0
      · rw [if_pos hzero] at hk
        cases hk
      · rw [if_neg hzero] at hk ⊢
        rw [List.replicate_succ] at h
        obtain ⟨g, hn, h⟩ := Option.bind_eq_some_iff.mp h
        have hstep : Step cfg hs f .assign g := .of_next hn
        cases hstep with
        -- The assignment is not through, and the build has no streams.
        | endAssign m' hp' hdone =>
          cases hp.symm.trans hp'
          omega
        | assignEntry m' e s fl pga hp' hdone hds' =>
          rw [hds] at hds'
          cases hds'
        | assignPage m' ppa s bm wb hp' hdone hds' ha hb =>
          cases hp.symm.trans hp'
          have hrest : cfg.maxWriteBuf - (m.done + (m.buckets.fillBin 4).1.length) =
              cfg.maxWriteBuf - m.done - (m.buckets.fillBin 4).1.length := by omega
          rw [← hrest] at hk ⊢
          obtain ⟨ppas, m', fuel', hlen, halloc, hp'', hdone', hbins, hwb⟩ :=
            ih rfl (Nat.le_of_succ_le_succ hk) h
          refine ⟨ppa :: ppas, m', fuel', congrArg (· + 1) hlen, halloc.cons ha hn, hp'', ?_, hbins,
            ?_⟩
          · rw [hdone', List.take_succ_cons, List.flatten_cons, List.length_append, Nat.add_assoc]
          · rw [hwb, List.take_succ_cons, layout_cons, List.flatten_cons, placeEntries_setPpas hb]
            unfold setPpas
            rw [List.foldl_append]

/-! ## Section 4: Labels -/

/-- The label of a data grain names an item that ends in the page. -/
def Labelled (cfg : Settings) (bm : Bm) : Prop :=
  ∀ g, cfg.dataGrain ≤ g → g % 4 + (bm.oob g).length ≤ 4

/-- Validating does not touch the labels. -/
theorem validateGrains_oob : ∀ {n g : Nat} {bm bm' : Bm},
    validateGrains cfg bm g n = some bm' → bm'.oob = bm.oob := by
  intro n
  induction n with
  | zero =>
    intro g bm bm' h
    cases h
    rfl
  | succ n ih =>
    intro g bm bm' h
    obtain ⟨bm₁, h₁, h⟩ := Option.bind_eq_some_iff.mp h
    obtain ⟨-, -, rfl⟩ := validateGrain_eq h₁
    exact (ih h).trans rfl

theorem invalidateGrains_oob : ∀ (n g : Nat) (bm : Bm),
    (invalidateGrains cfg bm g n).oob = bm.oob := by
  intro n
  induction n with
  | zero => exact fun _ _ => rfl
  | succ n ih =>
    intro g bm
    rw [invalidateGrains, ih]
    rfl

theorem collectGrains_oob : ∀ {n pga skip : Nat} {bm bm' : Bm} {items : List GcItem},
    collectGrains cfg bm pga skip n = some (bm', items) → bm'.oob = bm.oob := by
  intro n
  induction n with
  | zero =>
    intro pga skip bm bm' items h
    cases h
    rfl
  | succ n ih =>
    intro pga skip bm bm' items h
    cases skip with
    | succ skip => exact @ih (pga + 1) skip _ _ _ h
    | zero =>
      unfold collectGrains at h
      dsimp only at h
      split at h
      · split at h
        · cases h
        · obtain ⟨⟨bm₁, rest⟩, hr, he⟩ := Option.map_eq_some_iff.mp h
          cases he
          rw [ih hr, invalidateGrains_oob]
      · exact ih h

/-- The items of a page take no more than its grains. -/
theorem collectGrains_load : ∀ {n pga skip : Nat} {bm bm' : Bm} {items : List GcItem},
    collectGrains cfg bm pga skip n = some (bm', items) → skip ≤ n → pga % 4 + n = 4 ∨ n = 0 →
      (∀ g, g / 4 = pga / 4 → g % 4 + (bm.oob g).length ≤ 4) →
      skip + (items.map (·.len)).sum ≤ n := by
  intro n
  induction n with
  | zero =>
    intro pga skip bm bm' items h hskip _ _
    cases h
    exact hskip
  | succ n ih =>
    intro pga skip bm bm' items h hskip hend hlabel
    have hnext : (pga + 1) % 4 + n = 4 ∨ n = 0 := by omega
    have hpage : n ≠ 0 → (pga + 1) / 4 = pga / 4 := by omega
    have hlabel' : n ≠ 0 → ∀ g, g / 4 = (pga + 1) / 4 → g % 4 + (bm.oob g).length ≤ 4 :=
      fun hn g hg => hlabel g (hg.trans (hpage hn))
    -- At the end of the page nothing is left to collect.
    have hrest : ∀ {skip' : Nat} {bm₁ : Bm} {items' : List GcItem}, bm₁.oob = bm.oob → skip' ≤ n →
        collectGrains cfg bm₁ (pga + 1) skip' n = some (bm', items') →
          skip' + (items'.map (·.len)).sum ≤ n := by
      intro skip' bm₁ items' hoob hle hr
      rcases Nat.eq_zero_or_pos n with hn | hn
      · subst hn
        cases hr
        exact hle
      · exact ih hr hle hnext fun g hg => hoob ▸ hlabel' (by omega) g hg
    cases skip with
    | succ skip =>
      have hle := hrest rfl (by omega) h
      omega
    | zero =>
      unfold collectGrains at h
      dsimp only at h
      split at h
      · split at h
        · cases h
        -- The item of a valid grain ends in its page, and its grains are skipped.
        · next hlen =>
          obtain ⟨⟨bm₁, rest⟩, hr, he⟩ := Option.map_eq_some_iff.mp h
          cases he
          have hfit := hlabel pga rfl
          have hle := hrest (invalidateGrains_oob ..) (by omega) hr
          rw [List.map_cons, List.sum_cons]
          dsimp only at hle ⊢
          omega
      · have hle := hrest rfl (Nat.zero_le _) h
        omega

/-- The items of the pages, page by page. -/
theorem collectPages_bins : ∀ {ppas : List Nat} {bm bm' : Bm} {items : List GcItem},
    (∀ p ∈ ppas, ∀ g, g / 4 = p → g % 4 + (bm.oob g).length ≤ 4) →
    collectPages cfg bm ppas = some (bm', items) → ∃ bins : List (List GcItem),
      bins.length = ppas.length ∧ bins.flatten = items ∧
        ∀ bin ∈ bins, (bin.map (·.len)).sum ≤ 4 := by
  intro ppas
  induction ppas with
  | nil =>
    intro bm bm' items _ h
    cases h
    exact ⟨[], rfl, rfl, fun _ hbin => by cases hbin⟩
  | cons ppa ppas ih =>
    intro bm bm' items hlabel h
    obtain ⟨⟨bm₁, first⟩, hf, h⟩ := Option.bind_eq_some_iff.mp h
    dsimp only at h
    split at h
    · cases h
    · obtain ⟨⟨bm₂, rest⟩, hr, he⟩ := Option.map_eq_some_iff.mp h
      cases he
      have hoob := collectGrains_oob hf
      obtain ⟨bins, hlen, hflat, hload⟩ := ih (fun p hp g hg => by
        rw [hoob]
        exact hlabel p (List.mem_cons_of_mem _ hp) g hg) hr
      -- The items of one page are a bin of at most four grains.
      have hfirst := collectGrains_load hf (Nat.zero_le 4) (Or.inl (by omega)) fun g hg =>
        hlabel ppa (List.mem_cons_self ..) g (by omega)
      refine ⟨first :: bins, congrArg (· + 1) hlen, by rw [List.flatten_cons, hflat], ?_⟩
      intro bin hbin
      rcases List.mem_cons.mp hbin with rfl | hbin
      · omega
      · exact hload bin hbin

/-- As many pages as the items were collected from are enough. -/
theorem collectPages_tight {ppas : List Nat} {bm bm' : Bm} {items : List GcItem} {n : Nat}
    (hlabel : ∀ p ∈ ppas, ∀ g, g / 4 = p → g % 4 + (bm.oob g).length ≤ 4)
    (h : collectPages cfg bm ppas = some (bm', items)) (hn : Tight GcItem.len items n) :
    n ≤ ppas.length := by
  obtain ⟨bins, hlen, rfl, hload⟩ := collectPages_bins hlabel h
  rw [← hlen]
  exact hn.least bins (.refl _) hload

/-- Nor does collecting. -/
theorem collectPages_oob : ∀ {ppas : List Nat} {bm bm' : Bm} {items : List GcItem},
    collectPages cfg bm ppas = some (bm', items) → bm'.oob = bm.oob := by
  intro ppas
  induction ppas with
  | nil =>
    intro bm bm' items h
    cases h
    rfl
  | cons ppa ppas ih =>
    intro bm bm' items h
    obtain ⟨⟨bm₁, first⟩, hf, h⟩ := Option.bind_eq_some_iff.mp h
    dsimp only at h
    split at h
    · cases h
    · obtain ⟨⟨bm₂, rest⟩, hr, he⟩ := Option.map_eq_some_iff.mp h
      cases he
      rw [ih hr, collectGrains_oob hf]

namespace Labelled

theorem of_oob {bm bm' : Bm} (h : Labelled cfg bm) (ho : bm'.oob = bm.oob) : Labelled cfg bm' :=
  fun g hg => ho ▸ h g hg

/-- Nor does anything on the map side. -/
theorem data {bm bm' : Bm} (h : Labelled cfg bm) (hd : SameData cfg bm bm') :
    Labelled cfg bm' := by
  intro g hg
  rw [hd.oob g hg]
  exact h g hg

theorem setOob {bm : Bm} {g : Nat} {o : Oob} (h : Labelled cfg bm) (ho : g % 4 + o.length ≤ 4) :
    Labelled cfg (bm.setOob g o) := by
  intro g' hg'
  show g' % 4 + (Function.update bm.oob g o g').length ≤ 4
  by_cases he : g' = g
  · rw [he, Function.update_self]
    exact ho
  · rw [Function.update_of_ne he]
    exact h g' hg'

/-- An item is labelled with its length, which fits the page. -/
theorem placeItem {bm bm' : Bm} {pga lpa len : Nat} (h : Labelled cfg bm)
    (hfit : pga % 4 + len ≤ 4) (hp : HashKv.placeItem cfg bm pga lpa len = some bm') :
    Labelled cfg bm' := by
  obtain ⟨bm₁, h₁, rfl⟩ := Option.map_eq_some_iff.mp hp
  exact (h.of_oob (validateGrains_oob h₁)).setOob hfit

theorem placeNodes {ppa : Nat} : ∀ {ps : List (Placed GcItem)} {bm bm' : Bm} {nodes : List GcNode},
    Labelled cfg bm → (∀ p ∈ ps, p.offset + p.len ≤ 4 ∧ 0 < p.len) →
      HashKv.placeNodes cfg bm ppa ps = some (bm', nodes) → Labelled cfg bm' := by
  intro ps
  induction ps with
  | nil =>
    intro bm bm' nodes h _ hp
    cases hp
    exact h
  | cons p ps ih =>
    intro bm bm' nodes h hfit hp
    obtain ⟨bm₁, h₁, hp⟩ := Option.bind_eq_some_iff.mp hp
    obtain ⟨⟨bm₂, rest⟩, hr, he⟩ := Option.map_eq_some_iff.mp hp
    cases he
    have hfirst := hfit p (List.mem_cons_self ..)
    refine ih (h.placeItem ?_ h₁) (fun q hq => hfit q (List.mem_cons_of_mem _ hq)) hr
    rw [(ppaToPga_page ppa hfirst.1 hfirst.2).2]
    exact hfirst.1

theorem placeEntries {ppa : Nat} : ∀ {ps : List (Placed WbEntry)} {bm bm' : Bm}
    {wb wb' : List WbEntry}, Labelled cfg bm → (∀ p ∈ ps, p.offset + p.len ≤ 4 ∧ 0 < p.len) →
      HashKv.placeEntries cfg bm wb ppa ps = some (bm', wb') → Labelled cfg bm' := by
  intro ps
  induction ps with
  | nil =>
    intro bm bm' wb wb' h _ hp
    cases hp
    exact h
  | cons p ps ih =>
    intro bm bm' wb wb' h hfit hp
    obtain ⟨bm₁, h₁, hp⟩ := Option.bind_eq_some_iff.mp hp
    have hfirst := hfit p (List.mem_cons_self ..)
    refine ih (h.placeItem ?_ h₁) (fun q hq => hfit q (List.mem_cons_of_mem _ hq)) hp
    rw [(ppaToPga_page ppa hfirst.1 hfirst.2).2]
    exact hfirst.1

/-- The write loop of a collection labels what it places. -/
theorem packPages {rsv : Nat} : ∀ {fuel todo copied : Nat} {bm bm' : Bm} {b : Buckets GcItem}
    {nodes : List GcNode}, Labelled cfg bm →
      HashKv.packPages cfg rsv bm b todo fuel = some (bm', nodes, copied) → Labelled cfg bm' := by
  intro fuel
  induction fuel with
  | zero =>
    intro todo copied bm bm' b nodes h hp
    cases hp
    exact h
  | succ fuel ih =>
    intro todo copied bm bm' b nodes h hp
    by_cases hzero : todo = 0
    · rw [HashKv.packPages, if_pos hzero] at hp
      cases hp
      exact h
    · rw [packPages_succ bm b hzero] at hp
      have hfit : ∀ p ∈ (b.fillBin 4).1, p.offset + p.len ≤ 4 ∧ 0 < p.len := fun p hp => by
        have hwithin := fill_within hp
        exact ⟨by omega, hwithin.2.2⟩
      generalize b.fillBin 4 = filled at hp hfit
      obtain ⟨⟨bm₁, first⟩, hf, hp⟩ := Option.bind_eq_some_iff.mp hp
      obtain ⟨⟨bm₂, rest, copied'⟩, hr, he⟩ := Option.map_eq_some_iff.mp hp
      cases he
      -- Taking the page labels nothing.
      have hnext : Labelled cfg (HashKv.getPageNum cfg bm rsv).2 := h.of_oob rfl
      exact ih (hnext.placeNodes hfit hf) hr

/-- An erased superblock has no labels. -/
theorem retireVictim {s : Store} (h : Labelled cfg s.bm) (t : Nat) :
    Labelled cfg (HashKv.retireVictim cfg s t).bm := by
  have htrim : Labelled cfg (trimSegment cfg s.bm t) := by
    intro g hg
    show g % 4 + (if grainSblk cfg g = t then (⟨false, 0, 0⟩ : Oob) else s.bm.oob g).length ≤ 4
    split
    · show g % 4 + 0 ≤ 4
      omega
    · exact h g hg
  unfold HashKv.retireVictim
  dsimp only
  split
  · split
    · exact htrim.of_oob rfl
    · exact htrim.of_oob rfl
  · exact htrim.of_oob rfl

/-- A collection of data pages keeps the labels right. -/
theorem dpageGc {s s' : Store} {idx : Nat} (hds : cfg.dataSegregation = false) (t : s.Tidy cfg)
    (h : Labelled cfg s.bm) (hg : HashKv.dpageGc cfg s idx = some s') : Labelled cfg s'.bm := by
  obtain ⟨target, s₁, nodes, s₂, hw, h₂, rfl⟩ := dpageGc_eq_some hg
  obtain ⟨t₁, -, hnodes, -⟩ := t.gcWritten (by simp [Store.gcFresh, hds]) hw
  obtain ⟨-, hm⟩ := MapStep.bulkMappingUpdate t₁ hnodes h₂
  obtain ⟨-, bm, items, hc, hwrite⟩ := hw
  have hcollect : Labelled cfg bm := h.of_oob (collectPages_oob hc)
  have hwritten : Labelled cfg s₁.bm := by
    unfold writeItems at hwrite
    split at hwrite
    · cases hwrite
      exact hcollect
    · rw [if_neg (by simp [hds])] at hwrite
      unfold writeItemsReserve at hwrite
      simp only [Option.bind_eq_bind, Option.bind_eq_some_iff] at hwrite
      obtain ⟨rsv, hrsv, ⟨bm', ns, copied⟩, hpack, hwrite⟩ := hwrite
      cases hwrite
      exact hcollect.packPages hpack
  exact (hwritten.data hm.data).retireVictim target

theorem dpAlloc {s s' : Store} {idx ppa : Nat} (hds : cfg.dataSegregation = false)
    (t : s.Tidy cfg) (h : Labelled cfg s.bm) (ha : HashKv.dpAlloc cfg s idx = some (ppa, s')) :
    Labelled cfg s'.bm := by
  unfold HashKv.dpAlloc at ha
  rw [if_neg (by simp [hds])] at ha
  simp only [Option.bind_eq_bind, Option.bind_eq_some_iff] at ha
  obtain ⟨s₁, h₁, a, hact, he⟩ := ha
  have hswitch : Labelled cfg s₁.bm := by
    unfold dSwitch at h₁
    split at h₁
    · split at h₁
      · exact h.dpageGc hds t h₁
      · obtain ⟨⟨i, bm⟩, hi, rfl⟩ := Option.map_eq_some_iff.mp h₁
        rw [getActiveSblk_eq hi]
        exact h.of_oob rfl
    · cases h₁
      exact h
  cases he
  exact hswitch.of_oob rfl

theorem wbInvalidateOld {s : Store} (h : Labelled cfg s.bm) (lpa : Nat) :
    Labelled cfg (HashKv.wbInvalidateOld cfg s lpa).bm := by
  unfold HashKv.wbInvalidateOld
  split
  · exact h.of_oob (invalidateGrains_oob ..)
  · exact h

/-- Installing an entry leaves them alone. -/
theorem wbInstall {s : Store} {lpa ppa : Nat} {fp : UInt32} (t : s.Tidy cfg)
    (h : Labelled cfg s.bm) (hppa : cfg.dataGrain ≤ ppa) :
    Labelled cfg (HashKv.wbInstall cfg s lpa ppa fp).bm := by
  have hupdate := h.data (MapStep.update t lpa ⟨some ppa, fp⟩).data
  exact hupdate.setOob (hupdate ppa hppa)

/-- A step keeps the labels right. -/
theorem step {f f' : Ftl} {a : Label} (hds : cfg.dataSegregation = false) (t : f.Tidy cfg)
    (hd : Drawn f) (h : Labelled cfg f.store.bm) (hstep : Step cfg hs f a f') :
    Labelled cfg f'.store.bm := by
  have hpass : ∀ {e : WbEntry} {choice : Rebalance} {s : Store} {ex : WbExit},
      wbPass cfg f.realKeys f.hashTable f.store e choice = some (s, ex) →
        s.Tidy cfg ∧ Labelled cfg s.bm := fun hw => by
    have hr := MapStep.wbPath t.store (WbPath.of_pass hw).2
    exact ⟨hr.tidy, h.data hr.step.data⟩
  cases hstep with
  | getPass choice r s ex hp hget =>
    have hs := h.data (MapStep.getPath t.store (GetPath.of_pass hget)).step.data
    cases ex <;> exact hs
  | assignEntry m e s fl pga hp hdone hds' =>
    rw [hds] at hds'
    cases hds'
  -- The items of a filled bin end in their page.
  | assignPage m ppa s bm wb hp hdone hds' ha hb =>
    refine (h.dpAlloc hds t.store ha).placeEntries (fun p hp => ?_) hb
    have hwithin := fill_within hp
    exact ⟨by omega, hwithin.2.2⟩
  | wbAgain choice m e s e' hp hc hw | wbParked choice m e s e' hp hc hw => exact (hpass hw).2
  | wbUpdate choice m e s e' ppa hp hc hw hppa =>
    have hv := (WbPath.of_pass hw).2.sameValue
    obtain ⟨ts, hs⟩ := hpass hw
    exact (hs.wbInvalidateOld _).wbInstall (ts.wbInvalidateOld _)
      (t.pending hd hp hc (hv.ppa ▸ hppa))
  | wbDirectUpdate choice m e s e' ppa hp hc hw hppa =>
    have hv := (WbPath.of_pass hw).2.sameValue
    obtain ⟨ts, hs⟩ := hpass hw
    exact hs.wbInstall ts (t.pending hd hp hc (hv.ppa ▸ hppa))
  | promote page hp => exact h.data (MapStep.of_tables (.promoteHot _ page)).data
  | get | resume | setFull | setInsert | endAssign | pickRetry | pickMaster | flush | rehashBegin |
      rehashTick => exact h

end Labelled

/-- Without streams no collection continues an open page. -/
theorem gcFresh_single (hds : cfg.dataSegregation = false) (f : Ftl) (a : Label) :
    HashKv.gcFresh cfg f a = true := by
  cases a with
  | assign =>
    show (f.gcStream cfg).all (f.store.gcFresh cfg) = true
    cases f.gcStream cfg with
    | none => rfl
    | some idx => simp [Store.gcFresh, hds]
  | _ => rfl

/-- The labels are right in every reachable state. -/
theorem reach_labelled (hds : cfg.dataSegregation = false) {ok : Ftl → Label → Prop} {f : Ftl}
    (h : (machine cfg hs).Reach ok f) : Labelled cfg f.store.bm := by
  have hall := h.reachable
  refine hall.invariant (I := fun f => Labelled cfg f.store.bm) (fun f hinit => ?_)
    fun _ _ _ hr ih _ hn => ih.step hds (reach_tidy (fun f a _ => gcFresh_single hds f a) hr)
      (reach_drawn hr)
      (.of_next hn)
  obtain ⟨garbage, hi⟩ := hinit
  obtain ⟨s, hs, rfl⟩ := Option.map_eq_some_iff.mp hi
  obtain ⟨bm, hb, rfl⟩ := Option.map_eq_some_iff.mp hs
  unfold bmInit at hb
  rw [if_neg (by simp [hds])] at hb
  cases hb
  intro g _
  show g % 4 + 0 ≤ 4
  omega

/-! ## Section 5: Both loops -/

/-- The write buffer when its assignment begins. -/
theorem assign_packs (hds : cfg.dataSegregation = false) {f : Ftl} {req : SetRequest}
    (h : (machine cfg hs).Reachable f)
    (hp : f.phase = .assigning ⟨req, 0, bucketEntries f.wb, none⟩) {k : Nat} {f' : Ftl}
    (hk : k ≤ (packing WbEntry.valLen f.wb).length)
    (he : (machine cfg hs).exec f (List.replicate k .assign) = some f') :
    (∃ m, f'.phase = .assigning m ∧
      (m.done < cfg.maxWriteBuf ↔ k < (packing WbEntry.valLen f.wb).length)) ∧
    (k = (packing WbEntry.valLen f.wb).length → ∃ ppas bins, Allocated cfg hs f ppas ∧
      Packs WbEntry.valLen f.wb ppas bins ∧ (placedEntries bins.flatten).Perm f'.wb) := by
  have hbuf := reach_buffered h
  have hphase := hbuf.phase
  rw [hp] at hphase
  have hlen : ∀ e ∈ f.wb, 0 < e.valLen ∧ e.valLen ≤ 4 := fun e he =>
    ⟨valLen_pos _ _, hbuf.short e he⟩
  have hbins : (bucketEntries f.wb).packBins 4 (cfg.maxWriteBuf - 0) f.wb.length =
      packing WbEntry.valLen f.wb := by
    rw [Nat.sub_zero, ← hphase.1]
    rfl
  obtain ⟨ppas, m', fuel', hppas, halloc, hp', hdone, hrest, hwb⟩ :=
    assign_run hds hp (hbins.symm ▸ hk) he
  rw [hbins] at hdone hrest hwb
  have hall : (packing WbEntry.valLen f.wb).flatten.length = cfg.maxWriteBuf := by
    have honce := (packing_once hlen).length_eq
    rw [List.length_map] at honce
    exact honce.trans hphase.1
  refine ⟨⟨m', hp', fun hlt => ?_, fun hlt => ?_⟩, fun hfull => ?_⟩
  · -- With all bins placed, all entries are.
    refine Nat.lt_of_le_of_ne hk fun hfull => ?_
    rw [hfull, List.take_length, hall] at hdone
    dsimp only at hdone
    omega
  -- Nothing is left to pack once all entries are placed.
  · by_contra hge
    have hnil : (packing WbEntry.valLen f.wb).drop k = [] := by
      rw [← hrest, show cfg.maxWriteBuf - m'.done = 0 by omega]
      cases fuel' with
      | zero => rfl
      | succ fuel' => rw [packBins, if_pos rfl]
    have hle := List.drop_eq_nil_iff.mp hnil
    omega
  · rw [hfull, List.take_length] at hwb
    have hpacks := packing_packs hlen (hppas.trans hfull)
    refine ⟨ppas, _, halloc, hpacks, ?_⟩
    have hstart : f.wb.Perm
        ((layout ppas (packing WbEntry.valLen f.wb)).flatten.map (·.item) ++ []) := by
      rw [List.append_nil]
      exact hpacks.once.symm
    have hperm := setPpas_perm hstart hbuf.sorted.keys_nodup
    rw [List.append_nil] at hperm
    rw [hwb]
    exact hperm.symm

/-- In the single-stream build the items of a collection, whatever their lengths, are packed
    tightly into the next pages of the reserve, which hold them whenever the pages fit; items
    collected from `n` pages need at most `n`. The assignment packs the write buffer in the
    same way, one page a step. -/
theorem grain_packing (hds : cfg.dataSegregation = false) :
    (∀ items : List GcItem, (∀ it ∈ items, 0 < it.len ∧ it.len ≤ 4) →
      ∃ n, Tight GcItem.len items n ∧ ∀ rsv bm,
        (∀ bm' nodes copied, packPages cfg rsv bm (bucketItems items) items.length items.length =
            some (bm', nodes, copied) → copied = n ∧ ∃ bins,
          Packs GcItem.len items (List.range' (sblkOfft2Ppa cfg rsv (bm.sblk rsv).wpOfft) n) bins ∧
          (bins.flatten.Pairwise fun p q =>
            p.offset + p.len ≤ q.offset ∨ q.offset + q.len ≤ p.offset) ∧
          nodes = bins.flatten.map Placed.node) ∧
        (rsv < cfg.nos → (bm.sblk rsv).validCnt ≤ 4 * (bm.sblk rsv).wpOfft →
          (bm.sblk rsv).wpOfft + n ≤ cfg.pps →
          ∃ r, packPages cfg rsv bm (bucketItems items) items.length items.length = some r)) ∧
    (∀ f, (machine cfg hs).Reachable f → ∀ ppas, (∀ p ∈ ppas, cfg.dataPage ≤ p) → ∀ bm items,
      collectPages cfg f.store.bm ppas = some (bm, items) →
        ∃ n ≤ ppas.length, Tight GcItem.len items n) ∧
    (∀ f req, (machine cfg hs).Reachable f →
      f.phase = .assigning ⟨req, 0, bucketEntries f.wb, none⟩ →
      ∃ n, Tight WbEntry.valLen f.wb n ∧
        (∀ k f', k ≤ n → (machine cfg hs).exec f (List.replicate k .assign) = some f' →
          ∃ m, f'.phase = .assigning m ∧ (m.done < cfg.maxWriteBuf ↔ k < n)) ∧
        ∀ f', (machine cfg hs).exec f (List.replicate n .assign) = some f' →
          ∃ ppas bins, Allocated cfg hs f ppas ∧ Packs WbEntry.valLen f.wb ppas bins ∧
            (placedEntries bins.flatten).Perm f'.wb) := by
  refine ⟨fun items hlen => ?_, fun f hf ppas hppas bm items hc => ?_, fun f req hf hp => ?_⟩
  · refine ⟨_, packing_tight hlen,
      fun rsv bm => ⟨fun bm' nodes copied h => ?_, fun hrsv hv hroom => ?_⟩⟩
    · obtain ⟨hcopied, hnodes⟩ := packPages_spec h
      have hcopied' : copied = (packing GcItem.len items).length := hcopied
      subst hcopied'
      have hlength : (List.range' (sblkOfft2Ppa cfg rsv (bm.sblk rsv).wpOfft)
          (packing GcItem.len items).length).length = (packing GcItem.len items).length :=
        List.length_range'
      have hpacks := packing_packs hlen hlength
      exact ⟨rfl, _, hpacks, hpacks.disjoint (List.nodup_range' ..), hnodes⟩
    · exact packPages_room hrsv bm (Sorted.foldl_push items (Sorted.empty GcItem.len)) hv hroom
  -- The pages are their own packing, so a tight one needs no more of them.
  · have hlabel := reach_labelled hds hf
    refine ⟨_, collectPages_tight (fun p hp g hg => hlabel g ?_) hc ?_,
      packing_tight (collectPages_len hc)⟩
    · have hpage := hppas p hp
      unfold Settings.dataGrain
      omega
    · exact packing_tight (collectPages_len hc)
  · have hbuf := reach_buffered hf
    refine ⟨_, packing_tight fun e he => ⟨valLen_pos _ _, hbuf.short e he⟩, fun k f' hk he => ?_,
      fun f' he => ?_⟩
    · exact (assign_packs hds hf hp hk he).1
    · exact (assign_packs hds hf hp (Nat.le_refl _) he).2 rfl

/-- Five items go to the first three pages of superblock 59. -/
theorem grain_packing_five : ∃ bm nodes bins,
    packPages (.shipped false false false nofun) 59 (bmZero (.shipped false false false nofun))
      (bucketItems [⟨10, 3⟩, ⟨11, 1⟩, ⟨12, 2⟩, ⟨13, 2⟩, ⟨14, 3⟩]) 5 5 = some (bm, nodes, 3) ∧
    Packs GcItem.len [⟨10, 3⟩, ⟨11, 1⟩, ⟨12, 2⟩, ⟨13, 2⟩, ⟨14, 3⟩]
      (List.range' (59 * 65536) 3) bins ∧ nodes = bins.flatten.map Placed.node := by
  obtain ⟨n, hn, hloop⟩ := (@grain_packing (.shipped false false false nofun) spreadHash rfl).1
    [⟨10, 3⟩, ⟨11, 1⟩, ⟨12, 2⟩, ⟨13, 2⟩, ⟨14, 3⟩] (by decide)
  have hthree : n = 3 := hn.count.trans (by decide)
  subst hthree
  obtain ⟨hspec, hsome⟩ := hloop 59 (bmZero (.shipped false false false nofun))
  obtain ⟨⟨bm, nodes, copied⟩, hr⟩ := hsome (by decide) (by decide) (by decide)
  obtain ⟨rfl, bins, hpacks, -, hnodes⟩ := hspec bm nodes copied hr
  exact ⟨bm, nodes, bins, hr, hpacks, hnodes⟩

end AggreKV.HashKv
