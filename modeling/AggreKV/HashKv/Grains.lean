import AggreKV.HashKv.Ownership
import Mathlib.Data.List.Induction

/-! # Operations on grains

    Validation, placement and collection change grains and the counts of
    valid grains, allocation changes write pointers and cursors.

    * `SameBlocks`, `SamePages`, `SameCursors`: what is left alone.
    * `GrainInvariant`: the rule for properties of the block manager that
      single-grain operations keep.
    * `gcWriteLoop_invariant`: the rule for the write loop of the
      segregated build. -/

namespace AggreKV.HashKv

variable {cfg : Settings} {hs : Hashing}

/-! ## Section 1: Agreement -/

/-- Only the validity of grains and the counts of valid grains differ, and the `oob`. -/
structure SameBlocks (bm bm' : Bm) : Prop where
  sblk : ∀ i, ∃ n, bm'.sblk i = { bm.sblk i with validCnt := n }
  mapPart : bm'.mapPart = bm.mapPart
  dataPart : bm'.dataPart = bm.dataPart
  stream : bm'.stream = bm.stream

/-- The cursors and streams are the same. -/
structure SameCursors (bm bm' : Bm) : Prop where
  part : bm'.dataPart = bm.dataPart
  stream : bm'.stream = bm.stream

/-- Validity, `oob`, valid counts and write pointers are the same. -/
structure SamePages (bm bm' : Bm) : Prop where
  bitmap : bm'.validBitmap = bm.validBitmap
  oob : bm'.oob = bm.oob
  validCnt : ∀ i, (bm'.sblk i).validCnt = (bm.sblk i).validCnt
  wpOfft : ∀ i, (bm'.sblk i).wpOfft = (bm.sblk i).wpOfft

theorem SameBlocks.refl (bm : Bm) : SameBlocks bm bm := ⟨fun _ => ⟨_, rfl⟩, rfl, rfl, rfl⟩

/-- Two operations on grains. -/
theorem SameBlocks.trans {bm bm' bm'' : Bm} (h : SameBlocks bm bm') (h' : SameBlocks bm' bm'') :
    SameBlocks bm bm'' where
  sblk i := by
    obtain ⟨n, hn⟩ := h.sblk i
    obtain ⟨m, hm⟩ := h'.sblk i
    exact ⟨m, by rw [hm, hn]⟩
  mapPart := h'.mapPart.trans h.mapPart
  dataPart := h'.dataPart.trans h.dataPart
  stream := h'.stream.trans h.stream

/-- Operations on grains move no write pointer. -/
theorem SameBlocks.wpOfft {bm bm' : Bm} (h : SameBlocks bm bm') (i : Nat) :
    (bm'.sblk i).wpOfft = (bm.sblk i).wpOfft := by
  obtain ⟨n, hn⟩ := h.sblk i
  rw [hn]

theorem SameCursors.refl (bm : Bm) : SameCursors bm bm := ⟨rfl, rfl⟩

theorem SameCursors.trans {bm bm' bm'' : Bm} (h : SameCursors bm bm') (h' : SameCursors bm' bm'') :
    SameCursors bm bm'' :=
  ⟨h'.part.trans h.part, h'.stream.trans h.stream⟩

theorem SameBlocks.cursors {bm bm' : Bm} (h : SameBlocks bm bm') : SameCursors bm bm' :=
  ⟨h.dataPart, h.stream⟩

theorem SamePages.refl (bm : Bm) : SamePages bm bm := ⟨rfl, rfl, fun _ => rfl, fun _ => rfl⟩

theorem SamePages.trans {bm bm' bm'' : Bm} (h : SamePages bm bm') (h' : SamePages bm' bm'') :
    SamePages bm bm'' where
  bitmap := h'.bitmap.trans h.bitmap
  oob := h'.oob.trans h.oob
  validCnt i := (h'.validCnt i).trans (h.validCnt i)
  wpOfft i := (h'.wpOfft i).trans (h.wpOfft i)

theorem SamePages.setSblk (bm : Bm) (i : Nat) {b : Superblock}
    (hv : b.validCnt = (bm.sblk i).validCnt) (hw : b.wpOfft = (bm.sblk i).wpOfft) :
    SamePages bm (bm.setSblk i b) where
  bitmap := rfl
  oob := rfl
  validCnt j := by
    by_cases hj : j = i
    · subst hj
      simp [Bm.setSblk, hv]
    · simp [Bm.setSblk, hj]
  wpOfft j := by
    by_cases hj : j = i
    · subst hj
      simp [Bm.setSblk, hw]
    · simp [Bm.setSblk, hj]

theorem SamePages.setStream (bm : Bm) (i : Nat) (st : Stream) : SamePages bm (bm.setStream i st) :=
  ⟨rfl, rfl, fun _ => rfl, fun _ => rfl⟩

theorem SamePages.setPart (bm : Bm) (pn : PartNum) (pt : Part) :
    SamePages bm (bm.setPart pn pt) := by
  cases pn <;> exact ⟨rfl, rfl, fun _ => rfl, fun _ => rfl⟩

/-! ## Section 2: Single grains -/

theorem SameBlocks.setOob (bm : Bm) (g : Nat) (o : Oob) : SameBlocks bm (bm.setOob g o) :=
  ⟨fun _ => ⟨_, rfl⟩, rfl, rfl, rfl⟩

theorem SameBlocks.setValid (bm : Bm) (v : Nat → Bool) (i n : Nat) :
    SameBlocks bm ({ bm with validBitmap := v }.setSblk i { bm.sblk i with validCnt := n }) where
  sblk j := by
    by_cases hj : j = i
    · subst hj
      exact ⟨n, Function.update_self ..⟩
    · exact ⟨_, Function.update_of_ne hj ..⟩
  mapPart := rfl
  dataPart := rfl
  stream := rfl

/-- What validating a grain does, when the bounds of the tables allow it. -/
theorem validateGrain_eq {bm bm' : Bm} {g : Nat} (h : validateGrain cfg bm g = some bm') :
    grainSblk cfg g < cfg.nos ∧ (bm.sblk (grainSblk cfg g)).validCnt + 1 ≤ cfg.pps * 4 ∧
      bm' = { bm with validBitmap := Function.update bm.validBitmap g true }.setSblk
        (grainSblk cfg g) { bm.sblk (grainSblk cfg g) with
          validCnt := (bm.sblk (grainSblk cfg g)).validCnt + 1 } := by
  unfold validateGrain at h
  dsimp only at h
  split at h
  · next hb =>
    cases h
    exact ⟨hb.1, hb.2, rfl⟩
  · cases h

/-- A property that the operations on single grains in `Q` keep. -/
structure GrainInvariant (cfg : Settings) (Q : Nat → Prop) (P : Bm → Prop) : Prop where
  validate : ∀ {bm bm' g}, Q g → P bm → validateGrain cfg bm g = some bm' → P bm'
  invalidate : ∀ {bm g}, Q g → P bm → P (invalidateGrain cfg bm g)
  setOob : ∀ {bm g} o, Q g → P bm → P (bm.setOob g o)

namespace GrainInvariant

variable {Q : Nat → Prop} {P : Bm → Prop}

/-- An invariant of single grains holds along a list of them. -/
theorem validateGrains (hP : GrainInvariant cfg Q P) : ∀ {n : Nat} {bm bm' : Bm} {g : Nat},
    (∀ i < n, Q (g + i)) → P bm → HashKv.validateGrains cfg bm g n = some bm' → P bm'
  | 0, bm, bm', g, _, h, he => by
      cases he
      exact h
  | n + 1, bm, bm', g, hq, h, he => by
      obtain ⟨bm₁, h₁, h₂⟩ := Option.bind_eq_some_iff.mp he
      refine validateGrains hP (fun i hi => ?_) (hP.validate (hq 0 (Nat.succ_pos n)) h h₁) h₂
      have hqi := hq (i + 1) (Nat.succ_lt_succ hi)
      rwa [← Nat.add_assoc, Nat.add_right_comm] at hqi

/-- The same for invalidations. -/
theorem invalidateGrains (hP : GrainInvariant cfg Q P) : ∀ {n : Nat} {bm : Bm} {g : Nat},
    (∀ i < n, Q (g + i)) → P bm → P (HashKv.invalidateGrains cfg bm g n)
  | 0, bm, g, _, h => h
  | n + 1, bm, g, hq, h => by
      refine invalidateGrains hP (n := n) (fun i hi => ?_) (hP.invalidate (hq 0 (Nat.succ_pos n)) h)
      have hqi := hq (i + 1) (Nat.succ_lt_succ hi)
      rwa [← Nat.add_assoc, Nat.add_right_comm] at hqi

/-- A placed item touches its own grains. -/
theorem placeItem (hP : GrainInvariant cfg Q P) {bm bm' : Bm} {pga lpa len : Nat} (h0 : Q pga)
    (hq : ∀ i < len, Q (pga + i)) (h : P bm) (he : HashKv.placeItem cfg bm pga lpa len = some bm') :
    P bm' := by
  obtain ⟨bm₁, h₁, rfl⟩ := Option.map_eq_some_iff.mp he
  exact hP.setOob _ h0 (hP.validateGrains hq h h₁)

/-- An item reaches at most three grains beyond its first one. -/
theorem collectGrains (hP : GrainInvariant cfg Q P) : ∀ {n : Nat} {bm bm' : Bm} {pga skip : Nat}
    {items : List GcItem}, (∀ g, pga ≤ g → g < pga + n + 3 → Q g) → P bm →
      HashKv.collectGrains cfg bm pga skip n = some (bm', items) → P bm'
  | 0, bm, bm', pga, skip, items, _, h, he => by
      cases he
      exact h
  | n + 1, bm, bm', pga, skip + 1, items, hq, h, he =>
      collectGrains hP (n := n) (fun g hlo hhi => hq g (by omega) (by omega)) h he
  | n + 1, bm, bm', pga, 0, items, hq, h, he => by
      have hrest : ∀ g, pga + 1 ≤ g → g < pga + 1 + n + 3 → Q g :=
        fun g hlo hhi => hq g (by omega) (by omega)
      unfold HashKv.collectGrains at he
      dsimp only at he
      split at he
      · split at he
        · cases he
        · next hlen =>
          obtain ⟨⟨bm₁, rest⟩, hr, he⟩ := Option.map_eq_some_iff.mp he
          cases he
          exact collectGrains hP hrest
            (hP.invalidateGrains (fun i hi => hq _ (by omega) (by omega)) h) hr
      · exact collectGrains hP hrest h he

/-- Collecting a page touches its grains, and those of an item that starts in it. -/
theorem collectPages (hP : GrainInvariant cfg Q P) : ∀ {ppas : List Nat} {bm bm' : Bm}
    {items : List GcItem}, (∀ p ∈ ppas, ∀ g, p * 4 ≤ g → g < p * 4 + 7 → Q g) → P bm →
      HashKv.collectPages cfg bm ppas = some (bm', items) → P bm'
  | [], bm, bm', items, _, h, he => by
      cases he
      exact h
  | ppa :: ppas, bm, bm', items, hq, h, he => by
      obtain ⟨⟨bm₁, first⟩, hf, he⟩ := Option.bind_eq_some_iff.mp he
      dsimp only at he
      split at he
      · cases he
      · obtain ⟨⟨bm₂, rest⟩, hr, he⟩ := Option.map_eq_some_iff.mp he
        cases he
        have h₁ := hP.collectGrains (fun g hlo hhi => hq ppa (List.mem_cons_self ..) g hlo hhi) h hf
        exact collectPages hP (fun p hp => hq p (List.mem_cons_of_mem _ hp)) h₁ hr

/-- The items of a bin touch theirs. -/
theorem placeNodes (hP : GrainInvariant cfg Q P) : ∀ {ps : List (Placed GcItem)} {bm bm' : Bm}
    {ppa : Nat} {nodes : List GcNode},
    (∀ p ∈ ps, Q (ppaToPga ppa p.offset) ∧ ∀ i < p.len, Q (ppaToPga ppa p.offset + i)) → P bm →
      HashKv.placeNodes cfg bm ppa ps = some (bm', nodes) → P bm'
  | [], bm, bm', ppa, nodes, _, h, he => by
      cases he
      exact h
  | p :: ps, bm, bm', ppa, nodes, hq, h, he => by
      obtain ⟨bm₁, h₁, he⟩ := Option.bind_eq_some_iff.mp he
      obtain ⟨⟨bm₂, rest⟩, hr, he⟩ := Option.map_eq_some_iff.mp he
      cases he
      have hp := hq p (List.mem_cons_self ..)
      exact placeNodes hP (fun q hmem => hq q (List.mem_cons_of_mem _ hmem))
        (hP.placeItem hp.1 hp.2 h h₁) hr

/-- And so do the entries. -/
theorem placeEntries (hP : GrainInvariant cfg Q P) : ∀ {ps : List (Placed WbEntry)} {bm bm' : Bm}
    {wb wb' : List WbEntry} {ppa : Nat},
    (∀ p ∈ ps, Q (ppaToPga ppa p.offset) ∧ ∀ i < p.len, Q (ppaToPga ppa p.offset + i)) → P bm →
      HashKv.placeEntries cfg bm wb ppa ps = some (bm', wb') → P bm'
  | [], bm, bm', wb, wb', ppa, _, h, he => by
      cases he
      exact h
  | p :: ps, bm, bm', wb, wb', ppa, hq, h, he => by
      obtain ⟨bm₁, h₁, he⟩ := Option.bind_eq_some_iff.mp he
      have hp := hq p (List.mem_cons_self ..)
      exact placeEntries hP (fun q hmem => hq q (List.mem_cons_of_mem _ hmem))
        (hP.placeItem hp.1 hp.2 h h₁) he

end GrainInvariant

/-- Single-grain operations leave the superblocks alone but for their valid counts. -/
theorem grainInvariant_blocks (cfg : Settings) (bm₀ : Bm) :
    GrainInvariant cfg (fun _ => True) (SameBlocks bm₀) where
  validate _ h he := by
    obtain ⟨-, -, rfl⟩ := validateGrain_eq he
    exact h.trans (.setValid _ _ _ _)
  invalidate _ h := h.trans (.setValid _ _ _ _)
  setOob o _ h := h.trans (.setOob _ _ o)

/-- Placing changes valid counts only. -/
theorem placeItem_blocks {bm bm' : Bm} {pga lpa len : Nat}
    (h : placeItem cfg bm pga lpa len = some bm') : SameBlocks bm bm' :=
  (grainInvariant_blocks cfg bm).placeItem trivial (fun _ _ => trivial) (.refl bm) h

/-- So does collecting. -/
theorem collectPages_blocks {bm bm' : Bm} {ppas : List Nat} {items : List GcItem}
    (h : collectPages cfg bm ppas = some (bm', items)) : SameBlocks bm bm' :=
  (grainInvariant_blocks cfg bm).collectPages (fun _ _ _ _ _ => trivial) (.refl bm) h

theorem placeNodes_blocks {bm bm' : Bm} {ppa : Nat} {ps : List (Placed GcItem)}
    {nodes : List GcNode} (h : placeNodes cfg bm ppa ps = some (bm', nodes)) : SameBlocks bm bm' :=
  (grainInvariant_blocks cfg bm).placeNodes (fun _ _ => ⟨trivial, fun _ _ => trivial⟩) (.refl bm) h

theorem placeEntries_blocks {bm bm' : Bm} {ppa : Nat} {ps : List (Placed WbEntry)}
    {wb wb' : List WbEntry} (h : placeEntries cfg bm wb ppa ps = some (bm', wb')) :
    SameBlocks bm bm' :=
  (grainInvariant_blocks cfg bm).placeEntries (fun _ _ => ⟨trivial, fun _ _ => trivial⟩)
    (.refl bm) h

/-- An entry of the buffer is an old one or has the new address. -/
theorem mem_wbSetPpa {wb : List WbEntry} {key : Key} {ppa : Nat} {e : WbEntry}
    (h : e ∈ wbSetPpa wb key ppa) : e ∈ wb ∨ e.ppa = some ppa := by
  obtain ⟨x, hx, rfl⟩ := List.mem_map.mp h
  split
  · exact Or.inr rfl
  · exact Or.inl hx

/-- The nodes name the grains of the items. -/
theorem placeNodes_ppas : ∀ {ps : List (Placed GcItem)} {bm bm' : Bm} {ppa : Nat}
    {nodes : List GcNode}, placeNodes cfg bm ppa ps = some (bm', nodes) →
      nodes = ps.map fun p => ⟨p.item.lpa, ppaToPga ppa p.offset, p.len⟩
  | [], bm, bm', ppa, nodes, h => by
      cases h
      rfl
  | p :: ps, bm, bm', ppa, nodes, h => by
      obtain ⟨bm₁, h₁, h⟩ := Option.bind_eq_some_iff.mp h
      obtain ⟨⟨bm₂, rest⟩, hr, he⟩ := Option.map_eq_some_iff.mp h
      cases he
      rw [List.map_cons, placeNodes_ppas hr]

/-- The entries get the grains of their items. -/
theorem placeEntries_wb : ∀ {ps : List (Placed WbEntry)} {bm bm' : Bm} {wb wb' : List WbEntry}
    {ppa : Nat}, placeEntries cfg bm wb ppa ps = some (bm', wb') →
      wb' = ps.foldl (fun wb p => wbSetPpa wb p.item.key (ppaToPga ppa p.offset)) wb
  | [], bm, bm', wb, wb', ppa, h => by
      cases h
      rfl
  | p :: ps, bm, bm', wb, wb', ppa, h => by
      obtain ⟨bm₁, h₁, h⟩ := Option.bind_eq_some_iff.mp h
      rw [List.foldl_cons]
      exact placeEntries_wb h

/-! ## Section 3: Superblock search -/

/-- What the cursor search returns: a usable superblock of the partition, which becomes
    the cursor. With an unset cursor and no open superblock it starts at superblock 0. -/
theorem getActiveSblk_spec {bm bm' : Bm} {pn : PartNum} {i : Nat}
    (hcur : ∀ a, (bm.part pn).activeSblk = some a →
      (bm.part pn).sSblk ≤ a ∧ a ≤ (bm.part pn).eSblk)
    (hset : (bm.part pn).activeSblk = none → (bm.part pn).sSblk = 0 ∨ ∃ j,
      (bm.part pn).sSblk ≤ j ∧ j ≤ (bm.part pn).eSblk ∧ j ≠ (bm.part pn).sblkRsv ∧
        checkFull cfg bm j = false)
    (h : getActiveSblk cfg bm pn = some (i, bm')) :
    (bm.part pn).sSblk ≤ i ∧ i ≤ (bm.part pn).eSblk ∧ usable cfg bm pn i = true ∧
      ∃ free, bm' = bm.setPart pn
        { bm.part pn with activeSblk := some i, freeSblkCnt := free } := by
  simp only [getActiveSblk, Option.orElse_eq_orElse, Option.orElse_eq_or] at h
  obtain ⟨j, hj, he⟩ := Option.map_eq_some_iff.mp h
  simp only [Prod.mk.injEq] at he
  obtain ⟨rfl, rfl⟩ := he
  have hfound : (bm.part pn).sSblk ≤ j ∧ j ≤ (bm.part pn).eSblk ∧ usable cfg bm pn j = true := by
    split at hj
    · next a hstart =>
      have ha : (bm.part pn).sSblk ≤ a ∧ a ≤ (bm.part pn).eSblk := by
        rcases Option.or_eq_some_iff.mp hstart with ha | ⟨-, ha⟩
        · exact hcur a ha
        · exact ⟨(firstSblk_spec ha).1, (firstSblk_spec ha).2.1⟩
      rcases Option.or_eq_some_iff.mp hj with hj | ⟨-, hj⟩
      -- Found behind the cursor, or before it after the wrap.
      · obtain ⟨hlo, hhi, hu⟩ := firstSblk_spec hj
        exact ⟨by omega, hhi, hu⟩
      · have hmem := List.mem_range'_1.mp (List.mem_of_find?_eq_some hj)
        exact ⟨hmem.1, by omega, List.find?_some hj⟩
    -- The cursor is unset and everything is closed: the search starts at superblock 0.
    · next hstart =>
      obtain ⟨hnone, hclosed⟩ := Option.or_eq_none_iff.mp hstart
      obtain ⟨hlo, hhi, hu⟩ := firstSblk_spec hj
      refine ⟨?_, hhi, hu⟩
      rcases hset hnone with h0 | ⟨k, hk, hke, hrsv, hopen⟩
      · omega
      · obtain ⟨j', hj'⟩ := exists_firstSblk (p := fun i =>
          i ≠ (bm.part pn).sblkRsv && !checkFull cfg bm i) hk hke (by simp [hrsv, hopen])
        rw [hclosed] at hj'
        cases hj'
  exact ⟨hfound.1, hfound.2.1, hfound.2.2, _, rfl⟩

/-- The victim is a candidate of the partition that is not fully valid. -/
theorem leastValid_mem {bm : Bm} {cand : Nat → Bool} : ∀ {l : List Nat} {i : Nat},
    leastValid bm cand l = some i → i ∈ l ∧ cand i = true := by
  intro l
  induction l using List.reverseRecOn with
  | nil =>
    intro i h
    cases h
  | append_singleton l x ih =>
    intro i h
    have hold : leastValid bm cand l = some i → i ∈ l ++ [x] ∧ cand i = true := fun hl =>
      ⟨List.mem_append_left _ (ih hl).1, (ih hl).2⟩
    unfold leastValid at h hold
    rw [List.foldl_append, List.foldl_cons, List.foldl_nil] at h
    split at h
    · next hx =>
      -- The last candidate wins, or the least one before it.
      have hnew : some x = some i → i ∈ l ++ [x] ∧ cand i = true := fun he => by
        cases he
        exact ⟨by simp, hx⟩
      split at h
      · split at h
        · exact hnew h
        · cases h
      · next j hj =>
        split at h
        · exact hnew h
        · exact hold (hj.trans h)
    · exact hold h

/-- The victim is in use and not fully valid. -/
theorem getGcTarget_spec {bm : Bm} {pn : PartNum} {idx i : Nat}
    (h : getGcTarget cfg bm pn idx = some i) :
    (bm.part pn).sSblk ≤ i ∧ i ≤ (bm.part pn).eSblk ∧ gcCandidate cfg bm pn i = true ∧
      (bm.sblk i).validCnt < (bm.sblk i).wpOfft * 4 := by
  unfold getGcTarget at h
  dsimp only at h
  obtain ⟨ht, hv⟩ := Option.filter_eq_some_iff.mp h
  have hcand : i ∈ partSblks (bm.part pn) ∧ gcCandidate cfg bm pn i = true := by
    split at ht
    · next hds =>
      rw [Option.orElse_eq_orElse, Option.orElse_eq_or] at ht
      rcases Option.or_eq_some_iff.mp ht with ht | ⟨-, ht⟩
      · obtain ⟨hmem, hc⟩ := leastValid_mem ht
        simp only [sameStreamCandidate, Bool.and_eq_true] at hc
        exact ⟨hmem, by simp [gcCandidate, hds, hc]⟩
      · exact leastValid_mem ht
    · exact leastValid_mem ht
  have hr := List.mem_range'_1.mp hcand.1
  exact ⟨hr.1, by omega, hcand.2, of_decide_eq_true hv⟩

/-! ## Section 4: The write loop of the segregated build -/

/-- Placing an item changes grains and the room left in the page. -/
theorem gcPlace_spec {idx : Nat} {s s' : Store} {cur : GcCursor} {it : GcItem} {n : GcNode}
    (h : gcPlace cfg idx s cur it = some (s', n)) :
    ∃ bm, placeItem cfg (s.bm.setStream idx { s.bm.stream idx with
        grainRemain := sub32 (s.bm.stream idx).grainRemain 1 })
        (ppaToPga cur.ppa (sub32 4 (s.bm.stream idx).grainRemain)) it.lpa 1 = some bm ∧
      s' = { s with bm := bm } ∧
      n = ⟨it.lpa, ppaToPga cur.ppa (sub32 4 (s.bm.stream idx).grainRemain), 1⟩ := by
  obtain ⟨bm, hp, he⟩ := Option.map_eq_some_iff.mp h
  cases he
  exact ⟨bm, hp, rfl, rfl⟩

/-- The write loop alternates `gcPage` and `gcPlace`. -/
theorem gcWriteLoop_invariant {idx : Nat} {P Q : Store → GcCursor → Prop}
    {R : GcItem → GcNode → Prop}
    (hpage : ∀ {s cur s' cur'}, P s cur → gcPage cfg idx s cur = some (s', cur') → Q s' cur')
    (hplace : ∀ {s cur it s' n}, Q s cur → gcPlace cfg idx s cur it = some (s', n) →
      P s' cur ∧ R it n) :
    ∀ {items : List GcItem} {s s' : Store} {cur cur' : GcCursor} {nodes : List GcNode},
      P s cur → gcWriteLoop cfg idx s cur items = some (s', cur', nodes) →
        P s' cur' ∧ List.Forall₂ R items nodes
  | [], s, s', cur, cur', nodes, h, hl => by
      cases hl
      exact ⟨h, .nil⟩
  | it :: items, s, s', cur, cur', nodes, h, hl => by
      unfold gcWriteLoop at hl
      simp only [Option.bind_eq_bind, Option.bind_eq_some_iff] at hl
      obtain ⟨⟨s₁, cur₁⟩, h₁, ⟨s₂, n⟩, h₂, ⟨s₃, cur₃, ns⟩, h₃, he⟩ := hl
      cases he
      obtain ⟨hP, hR⟩ := hplace (hpage h h₁) h₂
      obtain ⟨hP', hRs⟩ := gcWriteLoop_invariant hpage hplace hP h₃
      exact ⟨hP', .cons hR hRs⟩

/-- The stream that the items of a victim go to. -/
def victimStream (bm : Bm) (target : Nat) : Nat :=
  match (bm.sblk target).streamIdx with
  | some i => if i < 8 then i else 0
  | none => 0

/-- Writing the items is the write loop, and a program of the device. -/
theorem writeItemsStream_spec {s s' : Store} {target : Nat} {items : List GcItem}
    {nodes : List GcNode} (h : writeItemsStream cfg s target items = some (s', nodes)) :
    ∃ s₁ cur ssd, gcWriteLoop cfg (victimStream s.bm target) s ⟨0, none⟩ items =
      some (s₁, cur, nodes) ∧ s' = { s₁ with ssd := ssd } := by
  unfold writeItemsStream at h
  simp only [Option.bind_eq_bind, Option.bind_eq_some_iff] at h
  obtain ⟨⟨s₁, cur, ns⟩, hl, h⟩ := h
  split at h
  · cases h
    exact ⟨s₁, cur, s₁.ssd, hl, rfl⟩
  · split at h
    · cases h
      exact ⟨s₁, cur, _, hl, rfl⟩
    · cases h

end AggreKV.HashKv
