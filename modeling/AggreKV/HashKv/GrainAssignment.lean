import AggreKV.HashKv.FlushDurability
import AggreKV.HashKv.FreeSearch
import AggreKV.HashKv.SingleStream

/-! # Grains of the segregated build

    `_do_wb_assign_ppa` puts each entry behind the last one of its stream,
    in the page that the stream has open, or in a new page when
    `grain_remain` is zero. It never asks whether the entry fits. The grains
    assigned since their superblock was trimmed are kept beside the state.

    * `Spread`: they lie below the write pointers, and in an open page they
      are the first ones, up to the room that is left.
    * `grain_assignment`: an entry gets grains of its own exactly when it
      fits, or finds no page open. -/

namespace AggreKV.HashKv

variable {cfg : Settings} {hs : Hashing}

/-! ## Section 1: Open pages -/

/-- The page a stream has open is the last one of its superblock, and its grains are
    assigned up to the room that is left. -/
structure OpenPage (cfg : Settings) (bm : Bm) (H : Nat → Prop) (idx : Nat) : Prop where
  page : ∃ a offt, (bm.stream idx).activeSblk = some a ∧ (bm.sblk a).wpOfft = offt + 1 ∧
    (bm.stream idx).activePpa = sblkOfft2Ppa cfg a offt
  grains : ∀ o < 4, H (ppaToPga (bm.stream idx).activePpa o) ↔ o < 4 - (bm.stream idx).grainRemain

/-- Assigned data grains are below the write pointers; open pages are filled in order. -/
structure Spread (cfg : Settings) (bm : Bm) (H : Nat → Prop) : Prop where
  bounded : ∀ i, cfg.IsData i → (bm.sblk i).wpOfft ≤ cfg.pps
  below : ∀ g, cfg.dataGrain ≤ g → H g → bm.Below cfg (g / 4)
  room : ∀ idx < 8, (bm.stream idx).grainRemain ≤ 4
  opened : ∀ idx < 8, (bm.stream idx).grainRemain ≠ 0 → OpenPage cfg bm H idx

/-- The page of a grain. -/
theorem ppaToPga_div {ppa o : Nat} (h : o < 4) : ppaToPga ppa o / 4 = ppa := by
  unfold ppaToPga
  omega

/-- And its place in the page. -/
theorem ppaToPga_mod {ppa o : Nat} (h : o < 4) : ppaToPga ppa o % 4 = o := by
  unfold ppaToPga
  omega

/-- A page of a superblock is below the write pointer or not. -/
theorem below_sblkOfft2Ppa {bm : Bm} {a offt : Nat} (hlt : offt < cfg.pps) :
    bm.Below cfg (sblkOfft2Ppa cfg a offt) ↔ offt < (bm.sblk a).wpOfft := by
  unfold Bm.Below
  rw [sblkOfft2Ppa_div hlt, sblkOfft2Ppa_mod hlt]

namespace Spread

variable {bm bm' : Bm} {H H' : Nat → Prop} {idx : Nat}

theorem congr (h : Spread cfg bm H) (he : ∀ g, H g ↔ H' g) : Spread cfg bm H' := by
  have heq : H = H' := funext fun g => propext (he g)
  exact heq ▸ h

/-- The open page of a stream, with its superblock. -/
theorem openPage (h : Spread cfg bm H) (hp : Pooled cfg Live bm) (hidx : idx < 8)
    (hne : (bm.stream idx).grainRemain ≠ 0) :
    ∃ a offt, (bm.stream idx).activeSblk = some a ∧ cfg.IsData a ∧
      (bm.sblk a).wpOfft = offt + 1 ∧ offt < cfg.pps ∧
      (bm.stream idx).activePpa = sblkOfft2Ppa cfg a offt := by
  obtain ⟨a, offt, ha, hwp, hpage⟩ := (h.opened idx hidx hne).page
  obtain ⟨b, hb, hd, -, -⟩ := hp.streams idx hidx
  cases ha.symm.trans hb
  have hle := h.bounded a hd
  exact ⟨a, offt, ha, hd, hwp, by omega, hpage⟩

/-- Two streams never have the same page open. -/
theorem openPage_ne (h : Spread cfg bm H) (hp : Pooled cfg Live bm) {j : Nat} (hidx : idx < 8)
    (hj : j < 8) (hij : j ≠ idx) (hni : (bm.stream idx).grainRemain ≠ 0)
    (hnj : (bm.stream j).grainRemain ≠ 0) :
    (bm.stream j).activePpa ≠ (bm.stream idx).activePpa := by
  obtain ⟨a, offt, ha, -, -, hlt, hpage⟩ := h.openPage hp hidx hni
  obtain ⟨b, offt', hb, -, -, hlt', hpage'⟩ := h.openPage hp hj hnj
  intro he
  have hdiv : b = a := by
    have hb' : (bm.stream j).activePpa / cfg.pps = b := hpage' ▸ sblkOfft2Ppa_div hlt'
    rw [← hb', he, hpage, sblkOfft2Ppa_div hlt]
  exact hij (hp.active_injective hj hidx hb (hdiv ▸ ha))

/-- The data superblocks differ in their counts of valid grains only. -/
theorem kept (h : Spread cfg bm H) (hp : Pooled cfg Live bm) (hk : DataKept cfg bm bm') :
    Spread cfg bm' H := by
  have hstream := hk.cursors.stream
  refine ⟨fun i hi => ?_, fun g hg hh => ?_, fun j hj => ?_, fun j hj hne => ?_⟩
  · rw [hk.wpOfft hi]
    exact h.bounded i hi
  · have hbelow := h.below g hg hh
    obtain ⟨n, hn⟩ := hk.sblk (g / 4 / cfg.pps) (dataPage_le_iff.mp (dataPage_le_div hg))
    unfold Bm.Below at hbelow ⊢
    rw [hn]
    exact hbelow
  · rw [hstream]
    exact h.room j hj
  · rw [hstream] at hne
    obtain ⟨a, offt, ha, hd, hwp, -, hpage⟩ := h.openPage hp hj hne
    refine ⟨⟨a, offt, ?_, ?_, ?_⟩, ?_⟩
    · rw [hstream]
      exact ha
    · rw [hk.wpOfft hd]
      exact hwp
    · rw [hstream]
      exact hpage
    · rw [hstream]
      exact (h.opened j hj hne).grains

/-- The fields of a stream other than its open page. -/
theorem setStream (h : Spread cfg bm H) {st : Stream}
    (hact : st.activeSblk = (bm.stream idx).activeSblk)
    (hpage : st.activePpa = (bm.stream idx).activePpa)
    (hrem : st.grainRemain = (bm.stream idx).grainRemain) :
    Spread cfg (bm.setStream idx st) H := by
  have hsame : ∀ j, ((bm.setStream idx st).stream j).activeSblk = (bm.stream j).activeSblk ∧
      ((bm.setStream idx st).stream j).activePpa = (bm.stream j).activePpa ∧
      ((bm.setStream idx st).stream j).grainRemain = (bm.stream j).grainRemain := fun j => by
    by_cases hji : j = idx
    · subst hji
      simp [Bm.setStream, hact, hpage, hrem]
    · simp [Bm.setStream, Function.update_of_ne hji]
  refine ⟨h.bounded, h.below, fun j hj => ?_, fun j hj hne => ?_⟩
  · rw [(hsame j).2.2]
    exact h.room j hj
  · rw [(hsame j).2.2] at hne
    obtain ⟨⟨a, offt, ha, hwp, hppa⟩, hgrains⟩ := h.opened j hj hne
    refine ⟨⟨a, offt, ?_, hwp, ?_⟩, ?_⟩
    · rw [(hsame j).1]
      exact ha
    · rw [(hsame j).2.1]
      exact hppa
    · rw [(hsame j).2.1, (hsame j).2.2]
      exact hgrains

/-- A stream keeps its superblock or gets one without an open page. -/
theorem getStreamSblk {a : Nat} (hds : cfg.dataSegregation = true) (z : Zoned cfg bm)
    (h : Spread cfg bm H) (hg : HashKv.getStreamSblk cfg bm idx = some (a, bm')) :
    Spread cfg bm' H := by
  rcases Orderly.getStreamSblk_cursor hg with rfl | ⟨-, hzero⟩
  · exact h
  · have ho := getStreamSblk_spec hds z hg
    refine ⟨fun i hi => ?_, fun g hg hh => ?_, fun j hj => ?_, fun j hj hne => ?_⟩
    · rw [ho.pages.wpOfft]
      exact h.bounded i hi
    · have hbelow := h.below g hg hh
      unfold Bm.Below at hbelow ⊢
      rw [ho.pages.wpOfft]
      exact hbelow
    · by_cases hji : j = idx
      · rw [hji, hzero]
        exact Nat.zero_le 4
      · rw [ho.others j hji]
        exact h.room j hj
    -- The other streams keep their superblocks and open pages.
    · have hji : j ≠ idx := by
        rintro rfl
        exact hne hzero
      rw [ho.others j hji] at hne
      obtain ⟨⟨b, offt, hb, hwp, hpage⟩, hgrains⟩ := h.opened j hj hne
      rw [← ho.pages.wpOfft] at hwp
      rw [← ho.others j hji] at hb hpage hgrains
      exact ⟨⟨b, offt, hb, hwp, hpage⟩, hgrains⟩

/-- No grain of the page at the write pointer is assigned. -/
theorem fresh (h : Spread cfg bm H) {a : Nat} (hd : cfg.IsData a)
    (hroom : (bm.sblk a).wpOfft < cfg.pps) {o : Nat} (ho : o < 4) :
    ¬ H (ppaToPga (sblkOfft2Ppa cfg a (bm.sblk a).wpOfft) o) := by
  intro hh
  have hg : cfg.dataGrain ≤ ppaToPga (sblkOfft2Ppa cfg a (bm.sblk a).wpOfft) o :=
    dataGrain_le_ppaToPga (dataPage_le_sblkOfft2Ppa hd.1 _) o
  have hbelow := h.below _ hg hh
  rw [ppaToPga_div ho, below_sblkOfft2Ppa hroom] at hbelow
  exact Nat.lt_irrefl _ hbelow

/-- A stream opens the page at the write pointer of its superblock. -/
theorem openNext (h : Spread cfg bm H) (hp : Pooled cfg Live bm) (hidx : idx < 8) {a : Nat}
    (ha : (bm.stream idx).activeSblk = some a) (hroom : (bm.sblk a).wpOfft < cfg.pps) {st : Stream}
    (hact : st.activeSblk = some a)
    (hpage : st.activePpa = sblkOfft2Ppa cfg a (bm.sblk a).wpOfft) (hfour : st.grainRemain = 4) :
    Spread cfg ((getPageNum cfg bm a).2.setStream idx st) H := by
  obtain ⟨b, hb, hd, -, -⟩ := hp.streams idx hidx
  cases ha.symm.trans hb
  have hself : (((getPageNum cfg bm a).2.setStream idx st).sblk a).wpOfft =
      (bm.sblk a).wpOfft + 1 := @getPageNum_wpOfft cfg bm a
  have hother : ∀ i, i ≠ a → ((getPageNum cfg bm a).2.setStream idx st).sblk i = bm.sblk i :=
    fun i hi => Function.update_of_ne hi ..
  have hstream : ((getPageNum cfg bm a).2.setStream idx st).stream idx = st :=
    Function.update_self ..
  have hstreams : ∀ j, j ≠ idx →
      ((getPageNum cfg bm a).2.setStream idx st).stream j = bm.stream j :=
    fun j hj => Function.update_of_ne hj ..
  generalize (getPageNum cfg bm a).2.setStream idx st = bm' at hself hother hstream hstreams ⊢
  refine ⟨fun i hi => ?_, fun g hg hh => ?_, fun j hj => ?_, fun j hj hne => ?_⟩
  -- The write pointer of the superblock moves on by the page.
  · by_cases hia : i = a
    · rw [hia, hself]
      exact hroom
    · rw [hother i hia]
      exact h.bounded i hi
  · have hbelow := h.below g hg hh
    unfold Bm.Below at hbelow ⊢
    by_cases hga : g / 4 / cfg.pps = a
    · rw [hga] at hbelow ⊢
      omega
    · rw [hother _ hga]
      exact hbelow
  · by_cases hji : j = idx
    · rw [hji, hstream, hfour]
    · rw [hstreams j hji]
      exact h.room j hj
  · by_cases hji : j = idx
    · subst hji
      refine ⟨⟨a, (bm.sblk a).wpOfft, ?_, hself, ?_⟩, fun o ho => ?_⟩
      · rw [hstream]
        exact hact
      · rw [hstream]
        exact hpage
      · rw [hstream, hpage, hfour]
        -- Nothing of a page above the write pointer has been taken.
        exact iff_of_false (h.fresh hd hroom ho) (by omega)
    · rw [hstreams j hji] at hne
      obtain ⟨⟨c, offt, hc, hwp, hcpage⟩, hgrains⟩ := h.opened j hj hne
      have hca : c ≠ a := fun he => hji (hp.active_injective hj hidx (he ▸ hc) ha)
      rw [← hother c hca] at hwp
      rw [← hstreams j hji] at hc hcpage hgrains
      exact ⟨⟨c, offt, hc, hwp, hcpage⟩, hgrains⟩

/-- The next `len` grains of the open page of a stream. -/
theorem fill (h : Spread cfg bm H) (hp : Pooled cfg Live bm) (hidx : idx < 8) {len : Nat}
    (hlen : 0 < len) (hfit : len ≤ (bm.stream idx).grainRemain) {st : Stream}
    (hact : st.activeSblk = (bm.stream idx).activeSblk)
    (hpage : st.activePpa = (bm.stream idx).activePpa)
    (hrem : st.grainRemain = (bm.stream idx).grainRemain - len) :
    Spread cfg (bm.setStream idx st) fun g => H g ∨
      (ppaToPga (bm.stream idx).activePpa (4 - (bm.stream idx).grainRemain) ≤ g ∧
        g < ppaToPga (bm.stream idx).activePpa (4 - (bm.stream idx).grainRemain) + len) := by
  have hne : (bm.stream idx).grainRemain ≠ 0 := by omega
  have hle := h.room idx hidx
  obtain ⟨a, offt, ha, -, hwp, hlt, hppa⟩ := h.openPage hp hidx hne
  have hgrains := (h.opened idx hidx hne).grains
  have hstream : (bm.setStream idx st).stream idx = st := Function.update_self ..
  have hstreams : ∀ j, j ≠ idx → (bm.setStream idx st).stream j = bm.stream j :=
    fun j hj => Function.update_of_ne hj ..
  refine ⟨h.bounded, fun g hg hh => ?_, fun j hj => ?_, fun j hj hnej => ?_⟩
  · show bm.Below cfg (g / 4)
    rcases hh with hh | ⟨hlo, hhi⟩
    · exact h.below g hg hh
    -- The new grains are in the open page, which is below the write pointer.
    · have hdiv : g / 4 = (bm.stream idx).activePpa := by
        unfold ppaToPga at hlo hhi
        omega
      rw [hdiv, hppa, below_sblkOfft2Ppa hlt, hwp]
      exact Nat.lt_succ_self _
  · by_cases hji : j = idx
    · rw [hji, hstream, hrem]
      exact Nat.le_trans (Nat.sub_le _ _) hle
    · rw [hstreams j hji]
      exact h.room j hj
  · by_cases hji : j = idx
    · subst hji
      refine ⟨⟨a, offt, ?_, hwp, ?_⟩, fun o ho => ?_⟩
      · rw [hstream, hact]
        exact ha
      · rw [hstream, hpage]
        exact hppa
      · rw [hstream, hpage, hrem]
        have hold := hgrains o ho
        rw [hold]
        unfold ppaToPga
        omega
    · rw [hstreams j hji] at hnej
      obtain ⟨⟨b, offt', hb, hwp', hbpage⟩, hbgrains⟩ := h.opened j hj hnej
      have hother := h.openPage_ne hp hidx hj hji hne hnej
      refine ⟨⟨b, offt', ?_, hwp', ?_⟩, fun o ho => ?_⟩
      · rw [hstreams j hji]
        exact hb
      · rw [hstreams j hji]
        exact hbpage
      · rw [hstreams j hji, ← hbgrains o ho]
        -- The open page of another stream is another page.
        refine or_iff_left fun ⟨hlo, hhi⟩ => hother ?_
        have hdiv := @ppaToPga_div (bm.stream j).activePpa o ho
        unfold ppaToPga at hlo hhi hdiv
        omega

end Spread

/-! ## Section 2: Collections -/

/-- The grains that a collection for stream `idx` writes. -/
def Store.gcGrains (cfg : Settings) (s : Store) (idx : Nat) : List Nat :=
  match getGcTarget cfg s.bm .data idx with
  | some target =>
    match collectPages cfg s.bm (pagesContainingValidGrain cfg s.bm target) with
    | some (bm, items) =>
      match gcWriteLoop cfg (victimStream bm target) { s with bm := bm } ⟨0, none⟩ items with
      | some (_, _, nodes) => nodes.map GcNode.ppa
      | none => []
    | none => []
  | none => []

/-- A collection assigns the grains that it writes, then trims its victim. -/
def Store.afterStreamGc (cfg : Settings) (s : Store) (idx : Nat) (H : Nat → Prop) : Nat → Prop :=
  fun g => (H g ∨ g ∈ s.gcGrains cfg idx) ∧
    getGcTarget cfg s.bm .data idx ≠ some (grainSblk cfg g)

/-- The write loop of a collection goes on in the page that its stream has open. -/
structure Relocating (cfg : Settings) (idx t : Nat) (s : Store) (cur : GcCursor)
    (H : Nat → Prop) : Prop where
  orderly : s.Orderly cfg
  victim : Victim cfg s.bm t
  spread : Spread cfg s.bm H
  current : (s.bm.stream idx).grainRemain ≠ 0 → cur.ppa = (s.bm.stream idx).activePpa

namespace Relocating

variable {idx t : Nat} {s s' : Store} {cur cur' : GcCursor} {H : Nat → Prop}

/-- The write loop of a collection opens a page. -/
theorem page (hds : cfg.dataSegregation = true) (hidx : idx < 8)
    (h : Relocating cfg idx t s cur H) (hp : gcPage cfg idx s cur = some (s', cur')) :
    Relocating cfg idx t s' cur' H ∧ (s'.bm.stream idx).grainRemain ≠ 0 := by
  obtain ⟨ho, hv⟩ := h.orderly.gcPage hds hidx h.victim hp
  have hne := (gcPage_zoned hds h.orderly.zoned hp).2
  have hz := h.orderly.zoned.toZoned
  unfold gcPage at hp
  split at hp
  · obtain ⟨a, bm, hg, hppa, he⟩ := gcOpenPage_eq hp
    have hopened := getStreamSblk_spec hds hz hg
    have hpool := (h.orderly.blocks.getStreamSblk hds hz hidx hg).1.pooled
    have hs₁ : Spread cfg bm H := h.spread.getStreamSblk hds hz hg
    have hs₂ : Spread cfg s'.bm H := by
      rw [he]
      exact hs₁.openNext hpool hidx hopened.active hopened.hasPage hopened.active hppa rfl
    refine ⟨⟨ho, hv, hs₂, fun _ => ?_⟩, hne⟩
    rw [he]
    simp [Bm.setStream]
  · cases hp
    exact ⟨h, hne⟩

/-- It takes the next grain of the open page. -/
theorem place {it : GcItem} {n : GcNode} (hidx : idx < 8) (h : Relocating cfg idx t s cur H)
    (hne : (s.bm.stream idx).grainRemain ≠ 0) (hp : gcPlace cfg idx s cur it = some (s', n)) :
    Relocating cfg idx t s' cur fun g => H g ∨ g = n.ppa := by
  obtain ⟨ho, hv⟩ := h.orderly.gcPlace h.victim hne hp
  have hle := h.spread.room idx hidx
  have hcur := h.current hne
  obtain ⟨bm, hb, rfl, rfl⟩ := gcPlace_spec hp
  have hblocks := placeItem_blocks hb
  have hsub : sub32 (s.bm.stream idx).grainRemain 1 = (s.bm.stream idx).grainRemain - 1 :=
    sub32_of_le (Nat.pos_of_ne_zero hne) (by omega)
  have hoff : sub32 4 (s.bm.stream idx).grainRemain = 4 - (s.bm.stream idx).grainRemain :=
    sub32_of_le hle (by decide)
  have hfill : Spread cfg (s.bm.setStream idx { s.bm.stream idx with
      grainRemain := sub32 (s.bm.stream idx).grainRemain 1 }) _ :=
    h.spread.fill h.orderly.blocks.pooled hidx Nat.one_pos (Nat.pos_of_ne_zero hne) rfl rfl hsub
  have hpool : Pooled cfg Live (s.bm.setStream idx { s.bm.stream idx with
      grainRemain := sub32 (s.bm.stream idx).grainRemain 1 }) :=
    h.orderly.blocks.pooled.setStream idx rfl
  -- One grain of the open page, the one that the cursor names.
  refine ⟨ho, hv, ?_, fun _ => ?_⟩
  · refine (hfill.kept hpool (.of_blocks hblocks)).congr fun g => or_congr_right ?_
    rw [hcur, hoff]
    dsimp only
    omega
  · rw [hblocks.stream]
    simpa [Bm.setStream] using hcur

/-- The whole loop takes the grains that its nodes name. -/
theorem writeLoop (hds : cfg.dataSegregation = true) (hidx : idx < 8) :
    ∀ {items : List GcItem} {s s' : Store} {cur cur' : GcCursor} {nodes : List GcNode}
      {H : Nat → Prop}, Relocating cfg idx t s cur H →
      gcWriteLoop cfg idx s cur items = some (s', cur', nodes) →
        Relocating cfg idx t s' cur' fun g => H g ∨ g ∈ nodes.map GcNode.ppa
  | [], s, s', cur, cur', nodes, H, h, hl => by
      cases hl
      exact ⟨h.orderly, h.victim, h.spread.congr fun g => by simp, h.current⟩
  | it :: items, s, s', cur, cur', nodes, H, h, hl => by
      unfold gcWriteLoop at hl
      simp only [Option.bind_eq_bind, Option.bind_eq_some_iff] at hl
      obtain ⟨⟨s₁, cur₁⟩, h₁, ⟨s₂, n⟩, h₂, ⟨s₃, cur₃, ns⟩, h₃, he⟩ := hl
      cases he
      obtain ⟨hpage, hne⟩ := h.page hds hidx h₁
      have hrest := writeLoop hds hidx (hpage.place hidx hne h₂) h₃
      refine ⟨hrest.orderly, hrest.victim, hrest.spread.congr fun g => ?_, hrest.current⟩
      rw [List.map_cons, List.mem_cons, or_assoc]

end Relocating

/-- The write loop of a collection that opens a new page, after its items are found. -/
theorem Spread.gcWritten {s s₁ : Store} {idx target : Nat} {nodes : List GcNode} {H : Nat → Prop}
    (hds : cfg.dataSegregation = true) (ho : s.Orderly cfg) (h : Spread cfg s.bm H)
    (hfresh : s.gcFresh cfg idx = true) (hw : GcWritten cfg s idx target s₁ nodes) :
    Spread cfg s₁.bm (fun g => H g ∨ g ∈ s.gcGrains cfg idx) ∧ s₁.Orderly cfg ∧
      Victim cfg s₁.bm target := by
  obtain ⟨ht, bm, items, hc, h₁⟩ := hw
  obtain ⟨ho₀, hv₀⟩ := ho.collected hds ht hc
  have hs₀ : Spread cfg bm H := h.kept ho.blocks.pooled (.of_blocks (collectPages_blocks hc))
  -- With or without items, the loop is what is written.
  have hloop : ∃ s₂ cur ssd, gcWriteLoop cfg (victimStream bm target) { s with bm := bm } ⟨0, none⟩
      items = some (s₂, cur, nodes) ∧ s₁ = { s₂ with ssd := ssd } := by
    unfold writeItems at h₁
    split at h₁
    · next hnil =>
      rw [hnil] at hc
      cases hc
      cases h₁
      exact ⟨_, _, _, rfl, rfl⟩
    · exact writeItemsStream_spec h₁
  obtain ⟨s₂, cur, ssd, hl, rfl⟩ := hloop
  have hgrains : s.gcGrains cfg idx = nodes.map GcNode.ppa := by
    simp only [Store.gcGrains, ht, hc, hl]
  rw [hgrains]
  have hend : Spread cfg s₂.bm (fun g => H g ∨ g ∈ nodes.map GcNode.ppa) ∧ s₂.Orderly cfg ∧
      Victim cfg s₂.bm target := by
    rcases Store.gcFresh_room hds hfresh ht hc with rfl | hroom
    · cases hl
      exact ⟨hs₀.congr fun g => by simp, ho₀, hv₀⟩
    · have hstart : Relocating cfg (victimStream bm target) target { s with bm := bm }
          ⟨0, none⟩ H :=
        ⟨ho₀, hv₀, hs₀, fun hne => absurd hroom hne⟩
      have hr := hstart.writeLoop hds (victimStream_lt bm target) hl
      exact ⟨hr.spread, hr.orderly, hr.victim⟩
  exact ⟨hend.1, hend.2.1.congr (.refl _) ⟨.refl _, rfl, rfl⟩ rfl rfl, hend.2.2⟩

/-- The trimmed superblock of a collection has no open page. -/
theorem Spread.retireVictim {s : Store} {t : Nat} {H : Nat → Prop}
    (hds : cfg.dataSegregation = true) (hp : Pooled cfg Live s.bm) (h : Spread cfg s.bm H)
    (hv : Victim cfg s.bm t) :
    Spread cfg (HashKv.retireVictim cfg s t).bm fun g => H g ∧ grainSblk cfg g ≠ t := by
  obtain ⟨hother, hzero, hstream, -⟩ := retireVictim_recycled hds s t
  refine ⟨fun i hi => ?_, fun g hg hh => ?_, fun j hj => ?_, fun j hj hne => ?_⟩
  · by_cases hit : i = t
    · rw [hit, hzero]
      exact Nat.zero_le _
    · rw [hother i hit]
      exact h.bounded i hi
  · have hbelow := h.below g hg hh.1
    unfold Bm.Below at hbelow ⊢
    have hblk : g / 4 / cfg.pps ≠ t := hh.2
    rw [hother _ hblk]
    exact hbelow
  · rw [hstream]
    exact h.room j hj
  · rw [hstream] at hne
    obtain ⟨a, offt, ha, hd, hwp, hlt, hpage⟩ := h.openPage hp hj hne
    -- No stream has its page open in the victim, which has no owner.
    have hat : a ≠ t := by
      rintro rfl
      obtain ⟨b, hb, -, howned, -⟩ := hp.streams j hj
      cases ha.symm.trans hb
      rw [hv.owned] at howned
      cases howned
    refine ⟨⟨a, offt, ?_, ?_, ?_⟩, fun o ho => ?_⟩
    · rw [hstream]
      exact ha
    · rw [hother a hat]
      exact hwp
    · rw [hstream]
      exact hpage
    · rw [hstream]
      refine Iff.trans ?_ ((h.opened j hj hne).grains o ho)
      refine and_iff_left fun he => hat ?_
      unfold grainSblk at he
      rw [ppaToPga_div ho, hpage, sblkOfft2Ppa_div hlt] at he
      exact he

/-- A collection gives the victim's grains back and takes those it writes. -/
theorem Spread.dpageGc {s s' : Store} {idx : Nat} {H : Nat → Prop}
    (hds : cfg.dataSegregation = true) (ho : s.Orderly cfg) (h : Spread cfg s.bm H)
    (hfresh : s.gcFresh cfg idx = true) (hg : HashKv.dpageGc cfg s idx = some s') :
    Spread cfg s'.bm (s.afterStreamGc cfg idx H) := by
  obtain ⟨target, s₁, nodes, s₂, hw, h₂, rfl⟩ := dpageGc_eq_some hg
  obtain ⟨hs₁, ho₁, hv₁⟩ := h.gcWritten hds ho hfresh hw
  have hq := (MapQuiet.refl ho₁.map).bulkMappingUpdate h₂
  have hs₂ := hs₁.kept ho₁.blocks.pooled hq.kept
  refine (hs₂.retireVictim hds (hq.kept.pooled ho₁.blocks.pooled) (hq.kept.victim hv₁)).congr
    fun g => and_congr_right fun _ => ?_
  rw [hw.1]
  exact not_congr ⟨fun he => he ▸ rfl, fun he => (Option.some.inj he).symm⟩

/-- An allocation hands a new page to the stream. -/
theorem Spread.dpAlloc {s s' : Store} {idx ppa : Nat} {H : Nat → Prop}
    (hds : cfg.dataSegregation = true) (hidx : idx < 8) (ho : s.Orderly cfg)
    (h : Spread cfg s.bm H) (hfresh : s.gcDue cfg idx = true → s.gcFresh cfg idx = true)
    (ha : HashKv.dpAlloc cfg s idx = some (ppa, s')) :
    ∃ a offt, (s'.bm.stream idx).activeSblk = some a ∧ offt < cfg.pps ∧
      ppa = sblkOfft2Ppa cfg a offt ∧ ∀ st : Stream, st.activeSblk = some a → st.activePpa = ppa →
        st.grainRemain = 4 → Spread cfg (s'.bm.setStream idx st)
          (if s.gcDue cfg idx = true then s.afterStreamGc cfg idx H else H) := by
  obtain ⟨s₁, a, bm, h₁, hg, rfl, rfl⟩ := dpAlloc_eq hds ha
  have hstart : s₁.Orderly cfg ∧
      Spread cfg s₁.bm (if s.gcDue cfg idx = true then s.afterStreamGc cfg idx H else H) := by
    rcases h₁ with ⟨hdue, rfl⟩ | ⟨hdue, h₁⟩
    · rw [if_neg (by simp [hdue])]
      exact ⟨ho, h⟩
    · rw [if_pos hdue]
      exact ⟨ho.dpageGc hds h₁, h.dpageGc hds ho (hfresh hdue) h₁⟩
  obtain ⟨ho₁, hs₁⟩ := hstart
  have hz := ho₁.zoned.toZoned
  have hopened := getStreamSblk_spec hds hz hg
  have hpool := (ho₁.blocks.getStreamSblk hds hz hidx hg).1.pooled
  have hs₂ := hs₁.getStreamSblk hds hz hg
  refine ⟨a, (bm.sblk a).wpOfft, hopened.active, hopened.hasPage, rfl,
    fun st hact hpage hfour => ?_⟩
  exact hs₂.openNext hpool hidx hopened.active hopened.hasPage hact hpage hfour

/-! ## Section 3: One entry -/

/-- The stream of an entry. -/
def WbEntry.streamIdx (cfg : Settings) (e : WbEntry) : Nat := dIdx (getLpa cfg e.hParams) % 8

theorem WbEntry.streamIdx_lt (e : WbEntry) : e.streamIdx cfg < 8 := Nat.mod_lt _ (by decide)

/-- The grains assigned when an entry of stream `idx` gets its own. -/
def Store.assignedBefore (cfg : Settings) (s : Store) (idx : Nat) (H : Nat → Prop) : Nat → Prop :=
  if (s.bm.stream idx).grainRemain = 0 ∧ s.gcDue cfg idx = true then s.afterStreamGc cfg idx H
  else H

/-- The page in which the next entry of a stream goes. -/
structure OpenFor (cfg : Settings) (s : Store) (H : Nat → Prop) (idx ppa : Nat) : Prop where
  orderly : s.Orderly cfg
  spread : Spread cfg s.bm H
  current : (s.bm.stream idx).activePpa = ppa
  hasRoom : (s.bm.stream idx).grainRemain ≠ 0

/-- The page of an assignment is open for the stream. -/
theorem Spread.assignPage {s s' : Store} {fl fl' : Nat → List FlushNode} {idx ppa : Nat}
    {H : Nat → Prop} (hds : cfg.dataSegregation = true) (hidx : idx < 8) (ho : s.Orderly cfg)
    (h : Spread cfg s.bm H) (hfresh : (s.bm.stream idx).grainRemain = 0 →
      s.gcDue cfg idx = true → s.gcFresh cfg idx = true)
    (ha : HashKv.assignPage cfg s fl idx = some (s', fl', ppa)) :
    OpenFor cfg s' (s.assignedBefore cfg idx H) idx ppa ∧
      (((s.bm.stream idx).grainRemain = 0 ∧ (s'.bm.stream idx).grainRemain = 4) ∨
        (s'.bm.stream idx).grainRemain = (s.bm.stream idx).grainRemain) := by
  have ho' := (ho.assignPage hds hidx ha).1
  unfold HashKv.assignPage at ha
  split at ha
  -- No room: a page is allocated, behind a collection if one is due.
  · next hrem =>
    simp only [Option.bind_eq_bind, Option.bind_eq_some_iff] at ha
    obtain ⟨⟨p, s₁⟩, h₁, a, hact, he⟩ := ha
    obtain ⟨b, offt, hb, -, -, hspread⟩ := h.dpAlloc hds hidx ho (hfresh hrem) h₁
    have hH : s.assignedBefore cfg idx H =
        if s.gcDue cfg idx = true then s.afterStreamGc cfg idx H else H := by
      simp only [Store.assignedBefore, hrem, true_and]
    rw [hH]
    cases he
    refine ⟨⟨ho', hspread _ hb rfl rfl, ?_, ?_⟩, Or.inl ⟨hrem, ?_⟩⟩
    all_goals simp [Bm.setStream]
  · next hrem =>
    have hH : s.assignedBefore cfg idx H = H := if_neg fun hc => hrem hc.1
    rw [hH]
    cases ha
    have hstay : Spread cfg (s.bm.setStream idx { s.bm.stream idx with
        flushPage := (s.bm.stream idx).flushPage + 1 }) H := h.setStream rfl rfl rfl
    refine ⟨⟨ho', hstay, ?_, ?_⟩, Or.inr ?_⟩
    · simp [Bm.setStream]
    · simpa [Bm.setStream] using hrem
    · simp [Bm.setStream]

open Classical in
/-- The grains of a page that are not assigned. -/
noncomputable def unassigned (H : Nat → Prop) (ppa : Nat) : Nat :=
  ((Finset.range 4).filter fun o => ¬ H (ppaToPga ppa o)).card

theorem unassigned_of_prefix {H : Nat → Prop} {ppa r : Nat} (hr : r ≤ 4)
    (h : ∀ o < 4, H (ppaToPga ppa o) ↔ o < 4 - r) : unassigned H ppa = r := by
  classical
  have hset : ((Finset.range 4).filter fun o => ¬ H (ppaToPga ppa o)) = Finset.Ico (4 - r) 4 := by
    ext o
    rw [Finset.mem_filter, Finset.mem_range, Finset.mem_Ico]
    constructor
    · rintro ⟨ho, hn⟩
      rw [h o ho] at hn
      exact ⟨Nat.le_of_not_lt hn, ho⟩
    · rintro ⟨hlo, ho⟩
      rw [h o ho]
      exact ⟨ho, Nat.not_lt.mpr hlo⟩
  unfold unassigned
  rw [Finset.filter_congr_decidable, hset, Nat.card_Ico]
  omega

/-- The entry gets the first free grains of the open page of its stream. -/
structure EntryPlaced (cfg : Settings) (s : Store) (H : Nat → Prop) (idx len pga : Nat) : Prop where
  spread : Spread cfg s.bm fun g => H g ∨ (pga ≤ g ∧ g < pga + len)
  page : ∃ a offt, (s.bm.stream idx).activeSblk = some a ∧ offt < cfg.pps ∧
    (s.bm.stream idx).activePpa = sblkOfft2Ppa cfg a offt
  current : (s.bm.stream idx).activePpa = pga / 4
  room : (s.bm.stream idx).grainRemain ≤ 4
  inside : pga % 4 + len = 4 - (s.bm.stream idx).grainRemain
  old : ∀ o < 4, H (ppaToPga (pga / 4) o) ↔ o < pga % 4

/-- A placed entry ends in its page. -/
theorem EntryPlaced.inside_le {s : Store} {H : Nat → Prop} {idx len pga : Nat}
    (h : EntryPlaced cfg s H idx len pga) : pga % 4 + len ≤ 4 := by
  rw [h.inside]
  exact Nat.sub_le _ _

/-- The grains are new. -/
theorem EntryPlaced.fresh {s : Store} {H : Nat → Prop} {idx len pga g : Nat}
    (h : EntryPlaced cfg s H idx len pga) (hlo : pga ≤ g) (hhi : g < pga + len) : ¬ H g := by
  intro hg
  have hle := h.inside_le
  have ho : g - pga / 4 * 4 < 4 := by omega
  have heq : ppaToPga (pga / 4) (g - pga / 4 * 4) = g := by
    unfold ppaToPga
    omega
  have hlt := (h.old _ ho).mp (heq.symm ▸ hg)
  omega

/-- `grain_remain` counts what is left of the page. -/
theorem EntryPlaced.left {s : Store} {H : Nat → Prop} {idx len pga : Nat}
    (h : EntryPlaced cfg s H idx len pga) :
    (s.bm.stream idx).grainRemain =
      unassigned (fun g => H g ∨ (pga ≤ g ∧ g < pga + len)) (s.bm.stream idx).activePpa := by
  symm
  refine unassigned_of_prefix h.room fun o ho => ?_
  rw [h.current, h.old o ho, ← h.inside]
  unfold ppaToPga
  omega

/-- An entry that fits the open page takes the next grains of it. -/
theorem OpenFor.placeEntry {s : Store} {H : Nat → Prop} {idx ppa len lpa : Nat} {bm : Bm}
    (hidx : idx < 8) (h : OpenFor cfg s H idx ppa) (hlen : 0 < len)
    (hfit : len ≤ (s.bm.stream idx).grainRemain)
    (hb : placeItem cfg (s.bm.setStream idx { s.bm.stream idx with
      grainRemain := sub32 (s.bm.stream idx).grainRemain len })
        (ppaToPga ppa (sub32 4 (s.bm.stream idx).grainRemain)) lpa len = some bm) :
    EntryPlaced cfg { s with bm := bm } H idx len
      (ppaToPga ppa (sub32 4 (s.bm.stream idx).grainRemain)) := by
  have hle := h.spread.room idx hidx
  have hne := h.hasRoom
  have hblocks := placeItem_blocks hb
  have hsub : sub32 (s.bm.stream idx).grainRemain len = (s.bm.stream idx).grainRemain - len :=
    sub32_of_le hfit (by omega)
  have hoff : sub32 4 (s.bm.stream idx).grainRemain = 4 - (s.bm.stream idx).grainRemain :=
    sub32_of_le hle (by decide)
  have hpool := h.orderly.blocks.pooled
  have hfill : Spread cfg (s.bm.setStream idx { s.bm.stream idx with
      grainRemain := sub32 (s.bm.stream idx).grainRemain len }) _ :=
    h.spread.fill hpool hidx hlen hfit rfl rfl hsub
  have hkept := hfill.kept (hpool.setStream idx rfl) (.of_blocks hblocks)
  have hstream : bm.stream idx = { s.bm.stream idx with
      grainRemain := sub32 (s.bm.stream idx).grainRemain len } := by
    rw [hblocks.stream]
    simp [Bm.setStream]
  have hdiv : ppaToPga ppa (4 - (s.bm.stream idx).grainRemain) / 4 = ppa := ppaToPga_div (by omega)
  have hmod : ppaToPga ppa (4 - (s.bm.stream idx).grainRemain) % 4 =
      4 - (s.bm.stream idx).grainRemain := ppaToPga_mod (by omega)
  -- The grains below the offset are taken, those above are free.
  obtain ⟨a, offt, ha, -, -, hlt, hpage⟩ := h.spread.openPage hpool hidx hne
  have hgrains := (h.spread.opened idx hidx hne).grains
  rw [h.current] at hkept hgrains
  rw [hoff]
  refine ⟨hkept, ⟨a, offt, ?_, hlt, ?_⟩, ?_, ?_, ?_, fun o ho => ?_⟩
  · rw [hstream]
    exact ha
  · rw [hstream]
    exact hpage
  · rw [hstream, hdiv]
    exact h.current
  · rw [hstream, hsub]
    exact Nat.le_trans (Nat.sub_le _ _) hle
  · rw [hstream, hsub, hmod]
    dsimp only
    omega
  · rw [hdiv, hmod]
    exact hgrains o ho

/-- An entry that fits gets grains of its own; the remainder wraps around otherwise. -/
theorem Spread.assignEntry {s s' : Store} {fl fl' : Nat → List FlushNode} {e : WbEntry} {pga : Nat}
    {H : Nat → Prop} (hds : cfg.dataSegregation = true) (ho : s.Orderly cfg) (h : Spread cfg s.bm H)
    (hlen : e.valLen ≤ 4)
    (hfresh : (s.bm.stream (e.streamIdx cfg)).grainRemain = 0 →
      s.gcDue cfg (e.streamIdx cfg) = true → s.gcFresh cfg (e.streamIdx cfg) = true)
    (ha : HashKv.assignEntry cfg s fl e = some (s', fl', pga)) :
    ((s.bm.stream (e.streamIdx cfg)).grainRemain = 0 ∨
        e.valLen ≤ (s.bm.stream (e.streamIdx cfg)).grainRemain →
      EntryPlaced cfg s' (s.assignedBefore cfg (e.streamIdx cfg) H) (e.streamIdx cfg)
        e.valLen pga) ∧
    ((s.bm.stream (e.streamIdx cfg)).grainRemain ≠ 0 →
      (s.bm.stream (e.streamIdx cfg)).grainRemain < e.valLen →
        4 < (s'.bm.stream (e.streamIdx cfg)).grainRemain) := by
  unfold HashKv.assignEntry at ha
  simp only [Option.bind_eq_bind, Option.bind_eq_some_iff] at ha
  obtain ⟨⟨s₁, fl₁, ppa⟩, h₁, bm, hb, he⟩ := ha
  cases he
  have hidx : e.streamIdx cfg < 8 := e.streamIdx_lt
  change HashKv.assignPage cfg s fl (e.streamIdx cfg) = _ at h₁
  obtain ⟨hopen, hrem⟩ := h.assignPage hds hidx ho hfresh h₁
  have hle := hopen.spread.room _ hidx
  refine ⟨fun hfit => hopen.placeEntry hidx (valLen_pos _ _) ?_ hb, fun hne hshort => ?_⟩
  · rcases hrem with ⟨-, hfour⟩ | hsame
    · rw [hfour]
      exact hlen
    · rcases hfit with hzero | hfit
      · exact absurd (hsame.trans hzero) hopen.hasRoom
      · rw [hsame]
        exact hfit
  · have hsame : (s₁.bm.stream (e.streamIdx cfg)).grainRemain =
        (s.bm.stream (e.streamIdx cfg)).grainRemain :=
      hrem.resolve_left fun hc => hne hc.1
    have hstream : bm.stream (e.streamIdx cfg) = { s₁.bm.stream (e.streamIdx cfg) with
        grainRemain := sub32 (s₁.bm.stream (e.streamIdx cfg)).grainRemain e.valLen } := by
      rw [(placeItem_blocks hb).stream]
      exact Function.update_self ..
    show 4 < (bm.stream (e.streamIdx cfg)).grainRemain
    rw [hstream, hsame]
    rw [hsame] at hle
    show 4 < sub32 _ _
    -- The remainder of the page is smaller than the entry and wraps around.
    unfold sub32
    omega

/-! ## Section 4: Batches -/

/-- The entry that the next step of the assignment places. -/
def Ftl.nextEntry (cfg : Settings) (f : Ftl) : Option WbEntry :=
  match f.phase with
  | .assigning m => if cfg.maxWriteBuf ≤ m.done then none else f.wb[m.done]?
  | _ => none

/-- What the next step of the assignment does: its entry, the state after it, and the
    address of the grains. -/
def Ftl.assignCall (cfg : Settings) (f : Ftl) : Option (WbEntry × Store × Nat) :=
  (f.nextEntry cfg).bind fun e =>
    (assignEntry cfg f.store f.flStream e).map fun (s, _, pga) => (e, s, pga)

/-- The grains assigned when the next entry gets its own. -/
def Ftl.assignedBefore (cfg : Settings) (f : Ftl) (H : Nat → Prop) : Nat → Prop :=
  match f.nextEntry cfg with
  | some e => f.store.assignedBefore cfg (e.streamIdx cfg) H
  | none => H

/-- The grains assigned after the step. -/
def Ftl.assigned (cfg : Settings) (f : Ftl) (H : Nat → Prop) : Label → Nat → Prop
  | .assign => fun g => f.assignedBefore cfg H g ∨
      ∃ e s pga, f.assignCall cfg = some (e, s, pga) ∧ pga ≤ g ∧ g < pga + e.valLen
  | _ => H

/-- The machine with the grains assigned since their superblock was trimmed. -/
def grainMachine (cfg : Settings) (hs : Hashing) : Machine (Ftl × (Nat → Prop)) Label :=
  (machine cfg hs).withHistory (fun _ => False) fun f H a => f.assigned cfg H a

/-- The entry placed next fits in the page that its stream has open, if there is one. -/
def fitsRoom (cfg : Settings) (f : Ftl) : Label → Bool
  | .assign => (f.nextEntry cfg).all fun e =>
      (f.store.bm.stream (e.streamIdx cfg)).grainRemain = 0 ||
        e.valLen ≤ (f.store.bm.stream (e.streamIdx cfg)).grainRemain
  | _ => true

/-- The collection of the step, if there is one, takes a superblock without entries of the
    batch. -/
def gcSpares (cfg : Settings) (f : Ftl) : Label → Bool
  | .assign => (f.gcStream cfg).all fun idx => f.wb.all fun e => e.ppa.all fun p =>
      getGcTarget cfg f.store.bm .data idx ≠ some (grainSblk cfg p)
  | _ => true

/-- The entry gets free grains of one page of its stream, and `grain_remain` counts the
    free grains left in it. -/
structure EntrySound (cfg : Settings) (f : Ftl) (H : Nat → Prop) (e : WbEntry) (s : Store)
    (pga : Nat) : Prop where
  page : ∃ a offt, (s.bm.stream (e.streamIdx cfg)).activeSblk = some a ∧ offt < cfg.pps ∧
    pga / 4 = sblkOfft2Ppa cfg a offt
  inside : pga % 4 + e.valLen ≤ 4
  fresh : ∀ g, pga ≤ g → g < pga + e.valLen → ¬ f.assignedBefore cfg H g
  apart : ∀ x ∈ f.wb, ∀ p, x.ppa = some p → p + x.valLen ≤ pga ∨ pga + e.valLen ≤ p
  current : (s.bm.stream (e.streamIdx cfg)).activePpa = pga / 4
  room : (s.bm.stream (e.streamIdx cfg)).grainRemain ≤ 4
  left : (s.bm.stream (e.streamIdx cfg)).grainRemain =
    unassigned (f.assigned cfg H .assign) (pga / 4)

/-- Two entries of the batch have no grain in common. -/
def Ftl.BatchApart (f : Ftl) : Prop :=
  ∀ x ∈ f.wb, ∀ y ∈ f.wb, x.key ≠ y.key → ∀ p q, x.ppa = some p → y.ppa = some q →
    p + x.valLen ≤ q ∨ q + y.valLen ≤ p

/-- The entries of the batch hold grains of their own. -/
structure Ftl.Assigned (cfg : Settings) (f : Ftl) (H : Nat → Prop) : Prop where
  orderly : f.store.Orderly cfg
  spread : Spread cfg f.store.bm H
  held : ∀ x ∈ f.wb, ∀ p, x.ppa = some p →
    p % 4 + x.valLen ≤ 4 ∧ ∀ g, p ≤ g → g < p + x.valLen → H g
  apart : f.BatchApart

theorem nextEntry_assigning {f : Ftl} {m : Assign} (hp : f.phase = .assigning m)
    (hdone : m.done < cfg.maxWriteBuf) : f.nextEntry cfg = f.wb[m.done]? := by
  unfold Ftl.nextEntry
  rw [hp]
  exact if_neg (Nat.not_le.mpr hdone)

theorem nextEntry_phase {f : Ftl} {e : WbEntry} (h : f.nextEntry cfg = some e) :
    ∃ m, f.phase = .assigning m ∧ m.done < cfg.maxWriteBuf ∧ f.wb[m.done]? = some e := by
  unfold Ftl.nextEntry at h
  split at h
  · next m hp =>
    split at h
    · cases h
    · next hdone => exact ⟨m, hp, Nat.not_le.mp hdone, h⟩
  · cases h

/-- The next entry collects if its stream has no room and a collection is due. -/
theorem gcStream_nextEntry {f : Ftl} {e : WbEntry} (hds : cfg.dataSegregation = true)
    (h : f.nextEntry cfg = some e)
    (hrem : (f.store.bm.stream (e.streamIdx cfg)).grainRemain = 0)
    (hdue : f.store.gcDue cfg (e.streamIdx cfg) = true) :
    f.gcStream cfg = some (e.streamIdx cfg) := by
  obtain ⟨m, hp, hdone, he⟩ := nextEntry_phase h
  unfold WbEntry.streamIdx at hrem hdue ⊢
  simp [Ftl.gcStream, hp, hdone, hds, he, hrem, hdue]

/-- The call of the source that the step stands for. -/
theorem assignCall_eq {f : Ftl} {e : WbEntry} {s : Store} {pga : Nat}
    (h : f.assignCall cfg = some (e, s, pga)) : f.nextEntry cfg = some e ∧
      ∃ fl, assignEntry cfg f.store f.flStream e = some (s, fl, pga) := by
  obtain ⟨e', he, ha⟩ := Option.bind_eq_some_iff.mp h
  obtain ⟨⟨s', fl, pga'⟩, ha, heq⟩ := Option.map_eq_some_iff.mp ha
  cases heq
  exact ⟨he, fl, ha⟩

/-- An assignment takes the grains of its entry. -/
theorem assigned_assign {f : Ftl} {H : Nat → Prop} {e : WbEntry} {s : Store} {pga : Nat}
    (h : f.assignCall cfg = some (e, s, pga)) : f.assigned cfg H .assign =
      fun g => f.assignedBefore cfg H g ∨ (pga ≤ g ∧ g < pga + e.valLen) := by
  funext g
  refine propext (or_congr_right ⟨?_, fun hg => ⟨e, s, pga, h, hg⟩⟩)
  rintro ⟨e', s', pga', h', hg⟩
  cases h.symm.trans h'
  exact hg

/-- Nothing is assigned when the batch is through. -/
theorem assigned_done {f : Ftl} (H : Nat → Prop) {m : Assign} (hp : f.phase = .assigning m)
    (hdone : cfg.maxWriteBuf ≤ m.done) : f.assigned cfg H .assign = H := by
  have hnone : f.nextEntry cfg = none := by
    unfold Ftl.nextEntry
    rw [hp]
    exact if_pos hdone
  funext g
  simp [Ftl.assigned, Ftl.assignedBefore, Ftl.assignCall, hnone]

/-- No other step takes any. -/
theorem assigned_other (f : Ftl) (H : Nat → Prop) {a : Label} (ha : a ≠ .assign) :
    f.assigned cfg H a = H := by
  cases a with
  | assign => exact absurd rfl ha
  | _ => rfl

/-- Only the assignment places entries. -/
theorem Step.wb_placed {f f' : Ftl} {a : Label} (hstep : Step cfg hs f a f') (hb : Buffered cfg f')
    (ha : a ≠ .assign) : f'.wb = f.wb ∨ ∀ e ∈ f'.wb, e.ppa = none := by
  have hphase := hb.phase
  cases hstep with
  | getPass choice r s ex hp hd => cases ex <;> exact Or.inl rfl
  | setInsert | flush => exact Or.inr hphase
  | endAssign | assignEntry | assignPage => exact absurd rfl ha
  | _ => exact Or.inl rfl

namespace Ftl.Assigned

variable {f f' : Ftl} {H : Nat → Prop} {e : WbEntry} {s : Store} {pga : Nat}

/-- The grains of the batch survive the collection of the step. -/
theorem held_before (hds : cfg.dataSegregation = true) (h : f.Assigned cfg H)
    (he : f.nextEntry cfg = some e) (hspares : gcSpares cfg f .assign = true) :
    ∀ x ∈ f.wb, ∀ p, x.ppa = some p → ∀ g, p ≤ g → g < p + x.valLen →
      f.assignedBefore cfg H g := by
  intro x hx p hp g hlo hhi
  obtain ⟨hin, hh⟩ := h.held x hx p hp
  have hbefore : f.assignedBefore cfg H = f.store.assignedBefore cfg (e.streamIdx cfg) H := by
    simp only [Ftl.assignedBefore, he]
  rw [hbefore]
  unfold Store.assignedBefore
  split
  · next hc =>
    have hstream := gcStream_nextEntry hds he hc.1 hc.2
    simp only [gcSpares, hstream, Option.all_some, List.all_eq_true] at hspares
    have hspare := hspares x hx
    rw [hp] at hspare
    have hne := of_decide_eq_true hspare
    have hsame : grainSblk cfg g = grainSblk cfg p := by
      unfold grainSblk
      rw [show g / 4 = p / 4 by omega]
    exact ⟨Or.inl (hh g hlo hhi), hsame ▸ hne⟩
  · exact hh g hlo hhi

/-- The next entry, if it fits. -/
theorem placed (hds : cfg.dataSegregation = true) (h : f.Assigned cfg H) (hb : Buffered cfg f)
    (hfresh : HashKv.gcFresh cfg f .assign = true)
    (hcall : f.assignCall cfg = some (e, s, pga)) :
    (fitsRoom cfg f .assign = true → EntryPlaced cfg s (f.assignedBefore cfg H)
        (e.streamIdx cfg) e.valLen pga) ∧
      (fitsRoom cfg f .assign ≠ true → 4 < (s.bm.stream (e.streamIdx cfg)).grainRemain) := by
  obtain ⟨he, fl', ha⟩ := assignCall_eq hcall
  obtain ⟨m, hp, hdone, hmem⟩ := nextEntry_phase he
  -- A value of the buffer has at most four grains.
  have hlen : e.valLen ≤ 4 := hb.short e (List.mem_of_getElem? hmem)
  have hgc : (f.store.bm.stream (e.streamIdx cfg)).grainRemain = 0 →
      f.store.gcDue cfg (e.streamIdx cfg) = true → f.store.gcFresh cfg (e.streamIdx cfg) = true :=
    fun hrem hdue => by
      have hstream := gcStream_nextEntry hds he hrem hdue
      simpa [HashKv.gcFresh, hstream] using hfresh
  have hbefore : f.assignedBefore cfg H = f.store.assignedBefore cfg (e.streamIdx cfg) H := by
    simp only [Ftl.assignedBefore, he]
  have hfits : fitsRoom cfg f .assign = true ↔
      (f.store.bm.stream (e.streamIdx cfg)).grainRemain = 0 ∨
        e.valLen ≤ (f.store.bm.stream (e.streamIdx cfg)).grainRemain := by
    simp [fitsRoom, he]
  obtain ⟨hplaced, hwrap⟩ := h.spread.assignEntry hds h.orderly hlen hgc ha
  rw [hbefore]
  refine ⟨fun hok => hplaced (hfits.mp hok), fun hshort => ?_⟩
  have hn := mt hfits.mpr hshort
  rw [not_or, Nat.not_le] at hn
  exact hwrap hn.1 hn.2

/-- An entry that fits is placed on grains of its own, within the page. -/
theorem sound (hds : cfg.dataSegregation = true) (h : f.Assigned cfg H) (hb : Buffered cfg f)
    (hfresh : HashKv.gcFresh cfg f .assign = true) (hspares : gcSpares cfg f .assign = true)
    (hfits : fitsRoom cfg f .assign = true) (hcall : f.assignCall cfg = some (e, s, pga)) :
    EntrySound cfg f H e s pga := by
  have hp := (h.placed hds hb hfresh hcall).1 hfits
  obtain ⟨he, -⟩ := assignCall_eq hcall
  have hassigned := @assigned_assign cfg f H e s pga hcall
  obtain ⟨a, offt, hact, hlt, hpage⟩ := hp.page
  refine ⟨⟨a, offt, hact, hlt, hp.current ▸ hpage⟩, hp.inside_le, fun g => hp.fresh,
    fun x hx p hppa => ?_, hp.current, hp.room, ?_⟩
  · -- Otherwise the first common grain would be assigned and new.
    have hheld := h.held_before hds he hspares x hx p hppa
    by_contra hoverlap
    rw [not_or, Nat.not_le, Nat.not_le] at hoverlap
    have hpos : 0 < x.valLen := valLen_pos _ _
    have hpos' : 0 < e.valLen := valLen_pos _ _
    have hmax : f.assignedBefore cfg H (max p pga) :=
      hheld _ (Nat.le_max_left _ _) (max_lt (by omega) hoverlap.1)
    exact hp.fresh (Nat.le_max_right _ _) (max_lt hoverlap.2 (by omega)) hmax
  · rw [hassigned, ← hp.current]
    exact hp.left

/-- The other steps place nothing and take no data page. -/
theorem other {a : Label} (h : f.Assigned cfg H) (hb : Buffered cfg f')
    (hstep : Step cfg hs f a f') (ha : a ≠ .assign) : f'.Assigned cfg H := by
  have hq : MapQuiet cfg f.store f'.store := .of_step h.orderly.map hstep ha
  have ho : f'.store.Orderly cfg := h.orderly.quiet hq (.of_step hstep ha)
  have hs := h.spread.kept h.orderly.blocks.pooled hq.kept
  rcases hstep.wb_placed hb ha with hwb | hnone
  · refine ⟨ho, hs, ?_, ?_⟩
    · rw [hwb]
      exact h.held
    · unfold Ftl.BatchApart
      rw [hwb]
      exact h.apart
  · refine ⟨ho, hs, fun x hx p hp => ?_, fun x hx y hy _ p q hp => ?_⟩
    · rw [hnone x hx] at hp
      cases hp
    · rw [hnone x hx] at hp
      cases hp

/-- An entry that fits is placed beside the others. -/
theorem assignEntry {m : Assign} {fl : Nat → List FlushNode} (hds : cfg.dataSegregation = true)
    (h : f.Assigned cfg H) (hb : Buffered cfg f) (hfresh : HashKv.gcFresh cfg f .assign = true)
    (hspares : gcSpares cfg f .assign = true) (hfits : fitsRoom cfg f .assign = true)
    (hp : f.phase = .assigning m) (hdone : m.done < cfg.maxWriteBuf)
    (he : f.wb[m.done]? = some e)
    (ha : HashKv.assignEntry cfg f.store f.flStream e = some (s, fl, pga)) :
    Ftl.Assigned cfg { f with
      store := s
      flStream := fl
      wb := wbSetPpa f.wb e.key pga
      phase := .assigning { m with done := m.done + 1 } } (f.assigned cfg H .assign) := by
  have hnext : f.nextEntry cfg = some e := (nextEntry_assigning hp hdone).trans he
  have hcall : f.assignCall cfg = some (e, s, pga) := by
    simp only [Ftl.assignCall, hnext, Option.bind_some, ha, Option.map_some]
  have hplaced := (h.placed hds hb hfresh hcall).1 hfits
  have hsound := h.sound hds hb hfresh hspares hfits hcall
  have hheld := h.held_before hds hnext hspares
  rw [assigned_assign hcall]
  -- An entry of the new buffer is the placed one, or one with another key as it was.
  have hcases : ∀ x ∈ wbSetPpa f.wb e.key pga, (x.key = e.key ∧ x.valLen = e.valLen ∧
      x.ppa = some pga) ∨ (x.key ≠ e.key ∧ x ∈ f.wb) := by
    intro x hx
    obtain ⟨y, hy, rfl⟩ := List.mem_map.mp hx
    split
    · next hk =>
      have hye : y = e := List.inj_on_of_nodup_map hb.sorted.keys_nodup hy
        (List.mem_of_getElem? he) hk
      subst hye
      exact Or.inl ⟨rfl, rfl, rfl⟩
    · next hk => exact Or.inr ⟨hk, hy⟩
  refine ⟨h.orderly.assignEntry hds ha, hplaced.spread, fun x hx p hppa => ?_,
    fun x hx y hy hxy p q hppa hq => ?_⟩
  · rcases hcases x hx with ⟨-, hlen, hx⟩ | ⟨-, hx⟩
    · cases hx.symm.trans hppa
      rw [hlen]
      exact ⟨hsound.inside, fun g hlo hhi => Or.inr ⟨hlo, hhi⟩⟩
    · exact ⟨(h.held x hx p hppa).1, fun g hlo hhi => Or.inl (hheld x hx p hppa g hlo hhi)⟩
  · rcases hcases x hx with ⟨hkx, hlx, hx⟩ | ⟨hkx, hx⟩
    · rcases hcases y hy with ⟨hky, -, -⟩ | ⟨-, hy⟩
      -- Two entries of the buffer have different keys.
      · exact absurd (hkx.trans hky.symm) hxy
      · cases hx.symm.trans hppa
        rw [hlx]
        exact (hsound.apart y hy q hq).symm
    · rcases hcases y hy with ⟨-, hly, hy⟩ | ⟨-, hy⟩
      · cases hy.symm.trans hq
        rw [hly]
        exact hsound.apart x hx p hppa
      · exact h.apart x hx y hy hxy p q hppa hq

/-- A step keeps the grains apart. -/
theorem step {a : Label} (hds : cfg.dataSegregation = true) (h : f.Assigned cfg H)
    (hb : Buffered cfg f) (hfresh : HashKv.gcFresh cfg f a = true)
    (hspares : gcSpares cfg f a = true) (hfits : fitsRoom cfg f a = true)
    (hstep : Step cfg hs f a f') : f'.Assigned cfg (f.assigned cfg H a) := by
  by_cases ha : a = .assign
  · cases hstep with
    | endAssign m hp hdone =>
      rw [assigned_done H hp hdone]
      exact ⟨h.orderly, h.spread, h.held, h.apart⟩
    | assignEntry m e s fl pga hp hdone hds' he hae =>
      exact h.assignEntry hds hb hfresh hspares hfits hp hdone he hae
    | assignPage m ppa s bm wb hp hdone hds' => simp [hds] at hds'
    | _ => cases ha
  · rw [assigned_other f H ha]
    exact h.other (hb.step hstep) hstep ha

end Ftl.Assigned

/-- No grain is taken before the first assignment. -/
theorem create_assigned {garbage : Nat → Key} {f : Ftl} (hds : cfg.dataSegregation = true)
    (h : Ftl.create cfg garbage = some f) : f.Assigned cfg fun _ => False := by
  have ho := create_orderly hds h
  have hzero := (create_zoned h).2
  obtain ⟨s, hs, rfl⟩ := Option.map_eq_some_iff.mp h
  obtain ⟨bm, hb, rfl⟩ := Option.map_eq_some_iff.mp hs
  refine ⟨ho, ⟨fun i _ => ?_, fun _ _ hh => hh.elim, fun j _ => ?_, fun j _ hne => ?_⟩,
    (fun _ hx => by cases hx), fun _ hx => by cases hx⟩
  · rw [(bmInit_pages hb).wpOfft]
    exact Nat.zero_le _
  · exact (hzero j).trans_le (Nat.zero_le 4)
  · exact absurd (hzero j) hne

/-- Entries fit, and collections open new pages and spare the batch. -/
def placeable (cfg : Settings) (f : Ftl) (a : Label) : Bool :=
  fitsRoom cfg f a && gcFresh cfg f a && gcSpares cfg f a

/-- The run without the record of the taken grains. -/
theorem grain_reach {x : Ftl × (Nat → Prop)}
    (h : (grainMachine cfg hs).Reach (fun x a => placeable cfg x.1 a = true) x) :
    (machine cfg hs).Reach (fun f a => placeable cfg f a = true) x.1 :=
  Machine.withHistory_reach h

/-- What a run keeps while entries fit, and collections open new pages and spare the batch. -/
theorem reach_assigned (hds : cfg.dataSegregation = true) {x : Ftl × (Nat → Prop)}
    (h : (grainMachine cfg hs).Reach (fun x a => placeable cfg x.1 a = true) x) :
    x.1.Assigned cfg x.2 := by
  refine h.invariant (I := fun x => x.1.Assigned cfg x.2) (fun x hinit => ?_)
    fun x x' a hr ih hok hn => ?_
  · obtain ⟨⟨garbage, hi⟩, hx⟩ := hinit
    rw [hx]
    exact create_assigned hds hi
  · have hb : Buffered cfg x.1 := reach_buffered (grain_reach hr)
    obtain ⟨f, hf, rfl⟩ := Option.map_eq_some_iff.mp hn
    simp only [placeable, Bool.and_eq_true] at hok
    obtain ⟨⟨hfits, hfresh⟩, hspares⟩ := hok
    exact ih.step hds hb hfresh hspares hfits (.of_next hf)

/-- In a run whose entries fit in the open pages of their streams, and whose collections open
    new pages and spare the batch, entries never share a grain; the next entry gets grains of
    its own if, and only if, it fits, too. -/
theorem grain_assignment (hds : cfg.dataSegregation = true) {f : Ftl} {H : Nat → Prop}
    (h : (grainMachine cfg hs).Reach (fun x a => placeable cfg x.1 a = true) (f, H)) :
    f.BatchApart ∧ (gcFresh cfg f .assign = true → gcSpares cfg f .assign = true →
      (f.assignCall cfg).isSome = true →
        ((∀ e s pga, f.assignCall cfg = some (e, s, pga) → EntrySound cfg f H e s pga) ↔
          fitsRoom cfg f .assign = true)) := by
  have hinv : f.Assigned cfg H := reach_assigned hds h
  have hb : Buffered cfg f := reach_buffered (grain_reach h)
  refine ⟨hinv.apart, fun hfresh hspares hcall => ?_⟩
  obtain ⟨⟨e, s, pga⟩, hcall⟩ := Option.isSome_iff_exists.mp hcall
  refine ⟨fun hsound => ?_, fun hfits e' s' pga' hcall' =>
    hinv.sound hds hb hfresh hspares hfits hcall'⟩
  by_contra hshort
  have hroom := (hsound e s pga hcall).room
  have hwrap := (hinv.placed hds hb hfresh hcall).2 hshort
  omega

/-! ## Section 5: Concrete runs -/

/-- Stream 2 collects superblock 14 into page 65; its entry gets page 66. -/
theorem grain_assignment_collected : ∃ f H e s,
    f.gcStream smallStreams = some 2 ∧ f.store.gcGrains smallStreams 2 = [260] ∧
      f.BatchApart ∧ f.assignCall smallStreams = some (e, s, 264) ∧
      EntrySound smallStreams f H e s 264 := by
  obtain ⟨f, hf, hp⟩ := exists_reach_of_run smallStreams spreadHash (placeable smallStreams)
    (fillStream ++ flushRetry 1 4000 0 ++ flushRetry 2 4000 1 ++ flushRetry 2 4000 1 ++
      flushRetry 2 4000 1 ++ [.set (byteKey 2) 4000])
    (fun f => f.gcStream smallStreams = some 2 && f.store.gcGrains smallStreams 2 = [260] &&
      placeable smallStreams f .assign &&
      (f.assignCall smallStreams).any fun (_, _, pga) => pga = 264)
    (by decide +kernel) (by decide +kernel)
  simp only [Bool.and_eq_true, decide_eq_true_eq, placeable] at hp
  obtain ⟨⟨⟨hgc, hgrains⟩, ⟨hfits, hfresh⟩, hspares⟩, hcall⟩ := hp
  obtain ⟨⟨e, s, pga⟩, hcall, hpga⟩ := (Option.any_eq_true ..).mp hcall
  obtain rfl : pga = 264 := of_decide_eq_true hpga
  obtain ⟨H, hr⟩ := Machine.exists_withHistory hf
  obtain ⟨hapart, hsound⟩ := grain_assignment rfl hr
  have hsome : (f.assignCall smallStreams).isSome = true := by rw [hcall]; rfl
  exact ⟨f, H, e, s, hgc, hgrains, hapart, hcall,
    (hsound hfresh hspares hsome).mpr hfits e s 264 hcall⟩

/-- Key 1 leaves one grain of page 28. Key 9 takes three from there, the last two of them in
    page 29, and the remainder wraps around. -/
theorem wrappedRemainder_counterexample : ∃ f H e s,
    (grainMachine smallStreams spreadHash).Reachable (f, H) ∧
      f.assignCall smallStreams = some (e, s, 115) ∧ e.valLen = 3 ∧
      (s.bm.stream (e.streamIdx smallStreams)).grainRemain = 4294967294 ∧
      ¬ EntrySound smallStreams f H e s 115 := by
  obtain ⟨f, hf, hp⟩ := exists_reachable_of_run smallStreams spreadHash
    ([.set (byteKey 1) 2500] ++ flushRetry 9 2500 0 ++ [.set (byteKey 17) 2500])
    (fun f => (f.assignCall smallStreams).any fun (e, s, pga) => pga = 115 && e.valLen = 3 &&
      (s.bm.stream (e.streamIdx smallStreams)).grainRemain = 4294967294) (by decide +kernel)
  obtain ⟨⟨e, s, pga⟩, hcall, hp⟩ := (Option.any_eq_true ..).mp hp
  simp only [Bool.and_eq_true, decide_eq_true_eq] at hp
  obtain ⟨⟨rfl, hlen⟩, hrem⟩ := hp
  obtain ⟨H, hr⟩ := Machine.exists_withHistory hf
  refine ⟨f, H, e, s, hr, hcall, hlen, hrem, fun hsound => ?_⟩
  have hroom := hsound.room
  omega

end AggreKV.HashKv
