import AggreKV.HashKv.Grains

/-! # The two partitions

    Translation pages live in the first superblocks, data in the others.
    What an operation on one partition leaves alone in the other, and why
    the cursors of the data path never leave their partition.

    * `SameMap`, `SameData`: agreement on one partition.
    * `Zoned`: the cursors and addresses of the data path. -/

namespace AggreKV.HashKv

variable {cfg : Settings} {hs : Hashing}

/-! ## Section 1: Boundaries -/

/-- The first data superblock. -/
def Settings.dataSblk (cfg : Settings) : Nat := cfg.nos / 20 + 1

def Settings.dataPage (cfg : Settings) : Nat := cfg.dataSblk * cfg.pps

def Settings.dataGrain (cfg : Settings) : Nat := cfg.dataPage * 4

/-- There is at least one data superblock. -/
theorem Settings.dataSblk_lt (cfg : Settings) : cfg.dataSblk + 1 < cfg.nos := by
  have h := cfg.nos_ge
  unfold Settings.dataSblk
  omega

/-- A data page is in a data superblock. -/
theorem dataPage_le_iff {cfg : Settings} {p : Nat} :
    cfg.dataPage ≤ p ↔ cfg.dataSblk ≤ p / cfg.pps :=
  (Nat.le_div_iff_mul_le cfg.pps_pos).symm

/-- A data grain, too. -/
theorem dataGrain_le_iff {cfg : Settings} {g : Nat} :
    cfg.dataGrain ≤ g ↔ cfg.dataSblk ≤ grainSblk cfg g := by
  rw [grainSblk, ← dataPage_le_iff, Nat.le_div_iff_mul_le (by decide), Settings.dataGrain]

/-- The pages of a data superblock. -/
theorem dataPage_le_sblkOfft2Ppa {i : Nat} (h : cfg.dataSblk ≤ i) (offt : Nat) :
    cfg.dataPage ≤ sblkOfft2Ppa cfg i offt :=
  Nat.le_trans (Nat.mul_le_mul_right _ h) (Nat.le_add_right _ _)

/-- The grains of a data page. -/
theorem dataGrain_le_ppaToPga {p : Nat} (h : cfg.dataPage ≤ p) (offset : Nat) :
    cfg.dataGrain ≤ ppaToPga p offset :=
  Nat.le_trans (Nat.mul_le_mul_right _ h) (Nat.le_add_right _ _)

/-! ## Section 2: Agreement -/

/-- The translation pages and their bookkeeping are the same. -/
structure SameMap (cfg : Settings) (bm bm' : Bm) : Prop where
  bitmap : ∀ g < cfg.dataGrain, bm'.validBitmap g = bm.validBitmap g
  oob : ∀ g < cfg.dataGrain, bm'.oob g = bm.oob g
  sblk : ∀ i < cfg.dataSblk, bm'.sblk i = bm.sblk i
  part : bm'.mapPart = bm.mapPart

/-- The data grains and their bookkeeping are the same. -/
structure SameData (cfg : Settings) (bm bm' : Bm) : Prop where
  bitmap : ∀ g, cfg.dataGrain ≤ g → bm'.validBitmap g = bm.validBitmap g
  oob : ∀ g, cfg.dataGrain ≤ g → bm'.oob g = bm.oob g
  sblk : ∀ i, cfg.dataSblk ≤ i → bm'.sblk i = bm.sblk i
  part : bm'.dataPart = bm.dataPart
  stream : bm'.stream = bm.stream

theorem SameMap.refl (bm : Bm) : SameMap cfg bm bm :=
  ⟨fun _ _ => rfl, fun _ _ => rfl, fun _ _ => rfl, rfl⟩

theorem SameMap.trans {bm bm' bm'' : Bm} (h : SameMap cfg bm bm') (h' : SameMap cfg bm' bm'') :
    SameMap cfg bm bm'' where
  bitmap g hg := (h'.bitmap g hg).trans (h.bitmap g hg)
  oob g hg := (h'.oob g hg).trans (h.oob g hg)
  sblk i hi := (h'.sblk i hi).trans (h.sblk i hi)
  part := h'.part.trans h.part

theorem SameData.refl (bm : Bm) : SameData cfg bm bm :=
  ⟨fun _ _ => rfl, fun _ _ => rfl, fun _ _ => rfl, rfl, rfl⟩

theorem SameData.trans {bm bm' bm'' : Bm} (h : SameData cfg bm bm') (h' : SameData cfg bm' bm'') :
    SameData cfg bm bm'' where
  bitmap g hg := (h'.bitmap g hg).trans (h.bitmap g hg)
  oob g hg := (h'.oob g hg).trans (h.oob g hg)
  sblk i hi := (h'.sblk i hi).trans (h.sblk i hi)
  part := h'.part.trans h.part
  stream := h'.stream.trans h.stream

/-! ## Section 3: Operations on data grains -/

/-- A data superblock may change. -/
theorem SameMap.setSblk (bm : Bm) {i : Nat} (hi : cfg.dataSblk ≤ i) (b : Superblock) :
    SameMap cfg bm (bm.setSblk i b) where
  bitmap _ _ := rfl
  oob _ _ := rfl
  sblk j hj := Function.update_of_ne (by omega) ..
  part := rfl

/-- And the label of a data grain. -/
theorem SameMap.setOob (bm : Bm) {g : Nat} (hg : cfg.dataGrain ≤ g) (o : Oob) :
    SameMap cfg bm (bm.setOob g o) where
  bitmap _ _ := rfl
  oob g' hg' := Function.update_of_ne (by omega) ..
  sblk _ _ := rfl
  part := rfl

/-- And the streams. -/
theorem SameMap.setStream (bm : Bm) (i : Nat) (st : Stream) :
    SameMap cfg bm (bm.setStream i st) :=
  ⟨fun _ _ => rfl, fun _ _ => rfl, fun _ _ => rfl, rfl⟩

theorem SameMap.setDataPart (bm : Bm) (pt : Part) : SameMap cfg bm (bm.setPart .data pt) :=
  ⟨fun _ _ => rfl, fun _ _ => rfl, fun _ _ => rfl, rfl⟩

/-- And the validity of a data grain. -/
theorem SameMap.setBitmap (bm : Bm) {g : Nat} (hg : cfg.dataGrain ≤ g) (v : Bool) :
    SameMap cfg bm { bm with validBitmap := Function.update bm.validBitmap g v } where
  bitmap g' hg' := Function.update_of_ne (by omega) ..
  oob _ _ := rfl
  sblk _ _ := rfl
  part := rfl

/-- Operations on data grains leave the translation pages alone. -/
theorem grainInvariant_map (cfg : Settings) (bm₀ : Bm) :
    GrainInvariant cfg (fun g => cfg.dataGrain ≤ g) (SameMap cfg bm₀) where
  validate hg h he := by
    obtain ⟨-, -, rfl⟩ := validateGrain_eq he
    exact h.trans ((SameMap.setBitmap _ hg true).trans (.setSblk _ (dataGrain_le_iff.mp hg) _))
  invalidate hg h :=
    h.trans ((SameMap.setBitmap _ hg false).trans (.setSblk _ (dataGrain_le_iff.mp hg) _))
  setOob o hg h := h.trans (.setOob _ hg o)

/-- So placing an item leaves the map side alone. -/
theorem placeItem_map {bm bm' : Bm} {pga lpa len : Nat} (hg : cfg.dataGrain ≤ pga)
    (h : placeItem cfg bm pga lpa len = some bm') : SameMap cfg bm bm' :=
  (grainInvariant_map cfg bm).placeItem hg (fun _ _ => Nat.le_add_right_of_le hg) (.refl bm) h

theorem invalidateGrains_map (bm : Bm) {g : Nat} (hg : cfg.dataGrain ≤ g) (n : Nat) :
    SameMap cfg bm (invalidateGrains cfg bm g n) :=
  (grainInvariant_map cfg bm).invalidateGrains (fun _ _ => Nat.le_add_right_of_le hg) (.refl bm)

/-- And so does collecting data pages. -/
theorem collectPages_map {bm bm' : Bm} {ppas : List Nat} {items : List GcItem}
    (hp : ∀ p ∈ ppas, cfg.dataPage ≤ p) (h : collectPages cfg bm ppas = some (bm', items)) :
    SameMap cfg bm bm' :=
  (grainInvariant_map cfg bm).collectPages
    (fun p hmem _ hlo _ => Nat.le_trans (Nat.mul_le_mul_right 4 (hp p hmem)) hlo) (.refl bm) h

/-- And writing a page of a collection. -/
theorem placeNodes_map {bm bm' : Bm} {ppa : Nat} {ps : List (Placed GcItem)} {nodes : List GcNode}
    (hp : cfg.dataPage ≤ ppa) (h : placeNodes cfg bm ppa ps = some (bm', nodes)) :
    SameMap cfg bm bm' :=
  (grainInvariant_map cfg bm).placeNodes (fun p _ =>
    have hg := dataGrain_le_ppaToPga hp p.offset
    ⟨hg, fun _ _ => Nat.le_add_right_of_le hg⟩) (.refl bm) h

/-- And a page of the buffer. -/
theorem placeEntries_map {bm bm' : Bm} {ppa : Nat} {ps : List (Placed WbEntry)}
    {wb wb' : List WbEntry} (hp : cfg.dataPage ≤ ppa)
    (h : placeEntries cfg bm wb ppa ps = some (bm', wb')) : SameMap cfg bm bm' :=
  (grainInvariant_map cfg bm).placeEntries (fun p _ =>
    have hg := dataGrain_le_ppaToPga hp p.offset
    ⟨hg, fun _ _ => Nat.le_add_right_of_le hg⟩) (.refl bm) h

/-! ## Section 4: The cursors of the data path -/

/-- A data superblock. -/
def Settings.IsData (cfg : Settings) (i : Nat) : Prop := cfg.dataSblk ≤ i ∧ i < cfg.nos

/-- The cursors and streams of the data partition stay inside it. -/
structure InZone (cfg : Settings) (bm : Bm) : Prop where
  sSblk : bm.dataPart.sSblk = cfg.dataSblk
  eSblk : bm.dataPart.eSblk = cfg.nos - 1
  cursor : ∀ a, bm.dataPart.activeSblk = some a → cfg.IsData a
  stream : ∀ idx a, (bm.stream idx).activeSblk = some a → cfg.IsData a
  page : ∀ idx, (bm.stream idx).grainRemain ≠ 0 → cfg.dataPage ≤ (bm.stream idx).activePpa

/-- In the segregated build the set-up has moved the cursor. -/
structure Zoned (cfg : Settings) (bm : Bm) : Prop extends InZone cfg bm where
  started : cfg.dataSegregation = true → bm.dataPart.activeSblk ≠ none

/-- Where the cursor search of the data partition starts from. -/
def Startable (cfg : Settings) (bm : Bm) : Prop :=
  bm.dataPart.activeSblk = none → ∃ j, cfg.IsData j ∧ j ≠ bm.dataPart.sblkRsv ∧
    checkFull cfg bm j = false

namespace Zoned

variable {bm bm' : Bm}

/-- The cursors are all that counts. -/
theorem congr (z : Zoned cfg bm) (h : SameCursors bm bm') : Zoned cfg bm' := by
  obtain ⟨hp, hs⟩ := h
  exact ⟨⟨hp ▸ z.sSblk, hp ▸ z.eSblk, hp ▸ z.cursor, hs ▸ z.stream, hs ▸ z.page⟩, hp ▸ z.started⟩

theorem setSblk (z : Zoned cfg bm) (i : Nat) (b : Superblock) : Zoned cfg (bm.setSblk i b) :=
  z.congr ⟨rfl, rfl⟩

/-- A stream stays in data superblocks. -/
theorem setStream (z : Zoned cfg bm) (idx : Nat) {st : Stream}
    (hact : ∀ a, st.activeSblk = some a → cfg.IsData a)
    (hpage : st.grainRemain ≠ 0 → cfg.dataPage ≤ st.activePpa) :
    Zoned cfg (bm.setStream idx st) := by
  refine ⟨⟨z.sSblk, z.eSblk, z.cursor, fun i a => ?_, fun i => ?_⟩, z.started⟩
  · show (Function.update bm.stream idx st i).activeSblk = some a → _
    by_cases hi : i = idx
    · subst hi
      rw [Function.update_self]
      exact hact a
    · rw [Function.update_of_ne hi]
      exact z.stream i a
  · show (Function.update bm.stream idx st i).grainRemain ≠ 0 →
      cfg.dataPage ≤ (Function.update bm.stream idx st i).activePpa
    by_cases hi : i = idx
    · subst hi
      rw [Function.update_self]
      exact hpage
    · rw [Function.update_of_ne hi]
      exact z.page i

end Zoned

/-- The cursor search of the data partition. -/
theorem InZone.getActiveSblk {bm bm' : Bm} (z : InZone cfg bm) {i : Nat}
    (hset : Startable cfg bm) (h : HashKv.getActiveSblk cfg bm .data = some (i, bm')) :
    cfg.IsData i ∧ usable cfg bm .data i = true ∧ Zoned cfg bm' ∧
      ∃ free, bm' = bm.setPart .data
        { bm.dataPart with activeSblk := some i, freeSblkCnt := free } := by
  have hnos := cfg.nos_ge
  obtain ⟨hlo, hhi, hu, free, rfl⟩ := @getActiveSblk_spec cfg bm bm' .data i
    -- The cursor is in the partition.
    (fun a ha => by
      have hd := z.cursor a ha
      show bm.dataPart.sSblk ≤ a ∧ a ≤ bm.dataPart.eSblk
      rw [z.sSblk, z.eSblk]
      exact ⟨hd.1, by have := hd.2; omega⟩)
    (fun hnone => by
      obtain ⟨j, hj, hrsv, hopen⟩ := hset hnone
      refine Or.inr ⟨j, ?_, ?_, hrsv, hopen⟩
      · exact z.sSblk ▸ hj.1
      · show j ≤ bm.dataPart.eSblk
        rw [z.eSblk]
        have := hj.2
        omega) h
  have hi : cfg.IsData i := by
    change bm.dataPart.sSblk ≤ i at hlo
    change i ≤ bm.dataPart.eSblk at hhi
    rw [z.sSblk] at hlo
    rw [z.eSblk] at hhi
    exact ⟨hlo, by omega⟩
  refine ⟨hi, hu, ⟨⟨z.sSblk, z.eSblk, fun a ha => ?_, z.stream, z.page⟩, fun _ => ?_⟩, free, rfl⟩
  · change some i = some a at ha
    cases ha
    exact hi
  · exact Option.some_ne_none i

/-- What `dftl_get_stream_sblk` does: it leaves pages alone, and the superblock it
    returns has a page left. -/
structure StreamOpened (cfg : Settings) (bm : Bm) (idx i : Nat) (bm' : Bm) : Prop where
  zoned : Zoned cfg bm'
  map : SameMap cfg bm bm'
  pages : SamePages bm bm'
  data : cfg.IsData i
  hasPage : (bm'.sblk i).wpOfft < cfg.pps
  active : (bm'.stream idx).activeSblk = some i
  room : (bm'.stream idx).grainRemain ≤ (bm.stream idx).grainRemain
  others : ∀ j, j ≠ idx → bm'.stream j = bm.stream j

/-- Switching to a superblock of the free pool. -/
theorem StreamOpened.switch {bm bm' : Bm} {idx i : Nat} (hds : cfg.dataSegregation = true)
    (z : Zoned cfg bm)
    (h : ((getActiveSblk cfg bm .data).map fun (i, bm) =>
      let wp := (bm.sblk i).wpOfft
      (i, (bm.setSblk i { bm.sblk i with isOwned := true, streamIdx := some idx }).setStream idx
        { activeSblk := some i, activeSblkOffset := wp, activePpa := sblkOfft2Ppa cfg i wp,
          flushPpa := sblkOfft2Ppa cfg i wp, flushPage := 0, pageRemain := cfg.pps - wp,
          grainRemain := 0 })) = some (i, bm')) :
    StreamOpened cfg bm idx i bm' := by
  obtain ⟨⟨j, bm₁⟩, ha, he⟩ := Option.map_eq_some_iff.mp h
  simp only [Prod.mk.injEq] at he
  obtain ⟨rfl, hbm⟩ := he
  obtain ⟨hj, hu, z₁, free, rfl⟩ :=
    z.toInZone.getActiveSblk (fun hn => absurd hn (z.started hds)) ha
  -- The superblock found is not full.
  have hopen : (bm.sblk j).wpOfft < cfg.pps := by
    simp only [usable, hds, checkFull, true_and, if_true, Bool.and_eq_true, Bool.not_eq_true',
      decide_eq_false_iff_not, Nat.not_le] at hu
    exact hu.1.2
  have hpages : SamePages bm bm' := by
    rw [← hbm]
    refine .trans (.setPart bm .data _) (.trans (.setSblk _ j ?_ ?_) (.setStream _ idx _)) <;> rfl
  refine ⟨?_, ?_, hpages, hj, ?_, ?_, ?_, fun k hk => ?_⟩
  · rw [← hbm]
    refine (z₁.setSblk j _).setStream idx (fun a ha => ?_) fun hne => ?_
    · cases ha
      exact hj
    · exact absurd rfl hne
  · rw [← hbm]
    exact (SameMap.setDataPart bm _).trans ((SameMap.setSblk _ hj.1 _).trans (.setStream _ idx _))
  · rw [hpages.wpOfft]
    exact hopen
  · rw [← hbm]
    simp [Bm.setStream]
  · rw [← hbm]
    simp [Bm.setStream]
  · rw [← hbm]
    exact Function.update_of_ne hk ..

/-- The stream gets a data superblock with room. -/
theorem getStreamSblk_spec {bm bm' : Bm} {idx i : Nat} (hds : cfg.dataSegregation = true)
    (z : Zoned cfg bm) (h : getStreamSblk cfg bm idx = some (i, bm')) :
    StreamOpened cfg bm idx i bm' := by
  unfold getStreamSblk at h
  dsimp only at h
  split at h
  · next a hact =>
    have ha := z.stream idx a hact
    split at h
    · -- The old superblock of the stream is released first.
      have hpages := SamePages.setSblk bm a (b := { bm.sblk a with isOwned := false }) rfl rfl
      have z₁ : Zoned cfg (bm.setSblk a { bm.sblk a with isOwned := false }) := z.congr ⟨rfl, rfl⟩
      obtain ⟨hz, hm, hp, hd, ho, hac, hroom, hst⟩ := StreamOpened.switch hds z₁ h
      exact ⟨hz, (SameMap.setSblk bm ha.1 _).trans hm, hpages.trans hp, hd, ho, hac, hroom, hst⟩
    · next hkeep =>
      cases h
      simp only [Bool.or_eq_true, not_or, checkFull, decide_eq_true_eq, Nat.not_le] at hkeep
      exact ⟨z, .refl _, .refl _, ha, hkeep.1.1, hact, Nat.le_refl _, fun _ _ => rfl⟩
  · exact .switch hds z h

/-! ## Section 5: Translation pages leave the data path alone -/

/-- Only the mapping tables change. -/
def OnlyTables (s s' : Store) : Prop := ∃ cold hot, s' = { s with cold := cold, hot := hot }

/-- A promotion touches the tables only. -/
theorem OnlyTables.promoteHot (s : Store) (page : Nat) : OnlyTables s (s.promoteHot page) := by
  unfold Store.promoteHot
  dsimp only
  split
  · exact ⟨_, _, rfl⟩
  · split
    · exact ⟨s.cold, s.hot, rfl⟩
    · split <;> exact ⟨_, _, rfl⟩

/-- And so does a rebalance. -/
theorem OnlyTables.tryRebalance (s : Store) (choice : Rebalance) :
    OnlyTables s (s.tryRebalance cfg choice) := by
  unfold Store.tryRebalance Store.rebalance
  split
  · cases choice with
    | keep => exact ⟨s.cold, s.hot, rfl⟩
    | expandHot | expandKey | shrinkHot =>
      dsimp only
      split
      · exact ⟨s.cold, s.hot, rfl⟩
      · exact ⟨_, _, rfl⟩
  · exact ⟨_, _, rfl⟩

/-- And what follows an eviction. -/
theorem OnlyTables.afterEvict (s : Store) (victim : Nat) (choice : Rebalance) :
    OnlyTables s (s.afterEvict cfg victim choice) := by
  unfold Store.afterEvict
  split
  · dsimp only
    split
    · split
      · obtain ⟨cold, hot, he⟩ := @OnlyTables.tryRebalance cfg _ choice
        exact ⟨cold, hot, he⟩
      · exact ⟨_, _, rfl⟩
    · exact ⟨_, _, rfl⟩
  · exact ⟨s.cold, s.hot, rfl⟩

/-- The allocation state of the data path is the same. -/
structure SameDataPath (s s' : Store) : Prop where
  cursors : SameCursors s.bm s'.bm
  active : s'.dActive = s.dActive
  reserve : s'.dReserve = s.dReserve

namespace SameDataPath

theorem refl (s : Store) : SameDataPath s s := ⟨.refl _, rfl, rfl⟩

theorem trans {s s' s'' : Store} (h : SameDataPath s s') (h' : SameDataPath s' s'') :
    SameDataPath s s'' :=
  ⟨h.cursors.trans h'.cursors, h'.active.trans h.active, h'.reserve.trans h.reserve⟩

/-- Collecting translation pages moves no cursor of the data path. -/
theorem collectTpages : ∀ {n : Nat} {ssd : Ssd} {bm bm' : Bm} {ppa : Nat} {pages : List Nat},
    collectTpages cfg ssd bm ppa n = some (bm', pages) → SameCursors bm bm'
  | 0, ssd, bm, bm', ppa, pages, h => by
      cases h
      exact .refl _
  | n + 1, ssd, bm, bm', ppa, pages, h => by
      unfold HashKv.collectTpages at h
      split at h
      · split at h
        · obtain ⟨⟨bm₁, rest⟩, hr, he⟩ := Option.map_eq_some_iff.mp h
          cases he
          obtain ⟨hp, hs⟩ := collectTpages hr
          exact ⟨hp, hs⟩
        · cases h
      · exact collectTpages h

/-- Nor does moving them. -/
theorem moveTpages (rsv : Nat) : ∀ (pages : List Nat) (s : Store),
    SameDataPath s (pages.foldl (moveTpage cfg rsv) s)
  | [], s => .refl s
  | page :: pages, s => by
      rw [List.foldl_cons]
      have h₁ : SameDataPath s (moveTpage cfg rsv s page) := ⟨⟨rfl, rfl⟩, rfl, rfl⟩
      exact h₁.trans (moveTpages rsv pages _)

/-- Nor does a collection of them. -/
theorem tpageGc {s s' : Store} (h : HashKv.tpageGc cfg s = some s') : SameDataPath s s' := by
  unfold HashKv.tpageGc at h
  simp only [Option.bind_eq_bind, Option.bind_eq_some_iff, Option.pure_def, Option.some.injEq] at h
  obtain ⟨target, _, rsv, _, ⟨bm, pages⟩, hc, rfl⟩ := h
  obtain ⟨hp, hs⟩ := collectTpages hc
  have hm := @moveTpages cfg rsv pages { s with bm := bm }
  exact ⟨⟨hm.cursors.part.trans hp, hm.cursors.stream.trans hs⟩, hm.active, hm.reserve⟩

/-- Nor does an allocation for one. -/
theorem tpAlloc {s s' : Store} {ppa : Nat} (h : HashKv.tpAlloc cfg s = some (ppa, s')) :
    SameDataPath s s' := by
  unfold HashKv.tpAlloc at h
  simp only [Option.bind_eq_bind, Option.bind_eq_some_iff] at h
  obtain ⟨s₁, h₁, a, _, he⟩ := h
  have hs₁ : SameDataPath s s₁ := by
    unfold tSwitch at h₁
    split at h₁
    · split at h₁
      · exact tpageGc h₁
      · obtain ⟨⟨i, bm⟩, ha, rfl⟩ := Option.map_eq_some_iff.mp h₁
        unfold getActiveSblk at ha
        dsimp only at ha
        obtain ⟨j, _, hj⟩ := Option.map_eq_some_iff.mp ha
        cases hj
        exact ⟨⟨rfl, rfl⟩, rfl, rfl⟩
    · cases h₁
      exact .refl _
  cases he
  exact ⟨⟨hs₁.cursors.part, hs₁.cursors.stream⟩, hs₁.active, hs₁.reserve⟩

/-- Nor does writing one. -/
theorem writeTpage {s s' : Store} {page : Nat} (h : s.writeTpage cfg page = some s') :
    SameDataPath s s' := by
  obtain ⟨⟨ppa, s₁⟩, ha, rfl⟩ := Option.map_eq_some_iff.mp h
  obtain ⟨hc, hact, hrsv⟩ := tpAlloc ha
  exact ⟨⟨hc.part, hc.stream⟩, hact, hrsv⟩

/-- Nor does a changed mapping. -/
theorem update (s : Store) (lpa : Nat) (pte : Pte) : SameDataPath s (s.update cfg lpa pte) := by
  have hbm : SameCursors s.bm (s.update cfg lpa pte).bm := by
    unfold Store.update
    dsimp only
    split
    · split <;> exact ⟨rfl, rfl⟩
    · exact .refl _
  exact ⟨hbm, rfl, rfl⟩

/-- Nor does the first loop of a mapping update. -/
theorem updateResident : ∀ (nodes : List GcNode) (s : Store),
    SameDataPath s (HashKv.updateResident cfg s nodes).1
  | [], s => .refl s
  | n :: ns, s => by
      unfold HashKv.updateResident
      dsimp only
      split
      · have h₁ : SameDataPath s { s with cold := (s.cold.isHit cfg n.lpa).2 } :=
        ⟨⟨rfl, rfl⟩, rfl, rfl⟩
        exact (h₁.trans (update ..)).trans (updateResident ns _)
      · refine trans ?_ (updateResident ns _)
        split <;> exact ⟨⟨rfl, rfl⟩, rfl, rfl⟩

/-- Nor does the second. -/
theorem updateAbsent : ∀ {marked : List (GcNode × Bool)} {inner : Bool} {s s' : Store},
    HashKv.updateAbsent cfg inner s marked = some s' → SameDataPath s s'
  | [], _, _, _, h => by
      cases h
      exact .refl _
  | (n, skip) :: ns, inner, s, s', h => by
      unfold HashKv.updateAbsent at h
      split at h
      · exact updateAbsent h
      · have h₁ : SameDataPath s { s with cold := s.cold.relocate n.lpa n.ppa } :=
          ⟨⟨rfl, rfl⟩, rfl, rfl⟩
        dsimp only at h
        split at h
        · exact h₁.trans (updateAbsent h)
        · obtain ⟨s₂, hw, h⟩ := Option.bind_eq_some_iff.mp h
          exact (h₁.trans (writeTpage hw)).trans (updateAbsent h)

/-- Nor does the whole of it. -/
theorem bulkMappingUpdate {s s' : Store} {nodes : List GcNode}
    (h : HashKv.bulkMappingUpdate cfg s nodes = some s') : SameDataPath s s' :=
  (updateResident _ s).trans (updateAbsent h)

/-- Tables do not count. -/
theorem of_tables {s₀ s s' : Store} (h : SameDataPath s₀ s) (hs : OnlyTables s s') :
    SameDataPath s₀ s' := by
  obtain ⟨cold, hot, rfl⟩ := hs
  exact ⟨h.cursors, h.active, h.reserve⟩

theorem evict (cfg : Settings) (s₀ : Store) : ListUpInvariant cfg fun s => SameDataPath s₀ s where
  promote page h := h.of_tables (.promoteHot _ page)
  pop _ _ h := ⟨h.cursors, h.active, h.reserve⟩
  count _ h := ⟨h.cursors, h.active, h.reserve⟩
  evictPage victim h hw := by
    unfold Store.writeBack at hw
    split at hw
    · have hu : SameDataPath s₀ (Store.unload _ victim) := ⟨h.cursors, h.active, h.reserve⟩
      exact hu.trans (writeTpage hw)
    · cases hw
      exact ⟨h.cursors, h.active, h.reserve⟩
  afterEvict victim choice h := h.of_tables (.afterEvict _ victim choice)
  resident page h := ⟨h.cursors, h.active, h.reserve⟩

theorem access (cfg : Settings) (s₀ : Store) : AccessInvariant cfg fun s => SameDataPath s₀ s where
  hot _ h := ⟨h.cursors, h.active, h.reserve⟩
  grain _ h := ⟨h.cursors, h.active, h.reserve⟩
  touch _ h := ⟨h.cursors, h.active, h.reserve⟩
  load _ h hl := by
    unfold Store.load at hl
    dsimp only at hl
    split at hl
    · cases hl
    · cases hl
      exact ⟨h.cursors, h.active, h.reserve⟩

/-- Nor does a pass over an entry, up to its exit. -/
theorem wbPath {realKeys : Nat → Key} {ht : DHtable} {s₀ s : Store} {e : WbEntry}
    {choice : Rebalance} {ex : WbExit} (h : WbPath cfg realKeys ht s₀ e choice s ex) :
    SameDataPath s₀ s :=
  h.preserves (access cfg s₀) (fun _ _ _ _ h₁ hl => (evict cfg s₀).listUp h₁ hl) (.refl _)

/-- Nor does a pass over a get. -/
theorem getPath {f : Ftl} {r : Request} {choice : Rebalance} {s : Store} {ex : GetExit}
    (h : GetPath cfg f r choice s ex) : SameDataPath f.store s :=
  h.preserves (access cfg f.store)
    (fun _ _ _ hl => (evict cfg f.store).listUp (.refl _) hl) (.refl _)

/-- Nor does an installation. -/
theorem wbInstall (s : Store) (lpa ppa : Nat) (fp : UInt32) :
    SameDataPath s (HashKv.wbInstall cfg s lpa ppa fp) := by
  have h := @update cfg s lpa ⟨some ppa, fp⟩
  exact ⟨⟨h.cursors.part, h.cursors.stream⟩, rfl, rfl⟩

theorem wbInvalidateOld (s : Store) (lpa : Nat) :
    SameDataPath s (HashKv.wbInvalidateOld cfg s lpa) := by
  unfold HashKv.wbInvalidateOld
  split
  · exact ⟨((grainInvariant_blocks cfg s.bm).invalidateGrains (fun _ _ => trivial)
      (.refl _)).cursors,
      rfl, rfl⟩
  · exact .refl _

/-- Only the assignment moves the data path. -/
theorem of_step {f f' : Ftl} {a : Label} (h : Step cfg hs f a f') (ha : a ≠ .assign) :
    SameDataPath f.store f'.store := by
  cases h with
  | getPass choice r s ex hp hd =>
    have hs := getPath (GetPath.of_pass hd)
    cases ex <;> exact hs
  | wbAgain choice m e s e' hp hc hw | wbParked choice m e s e' hp hc hw =>
    exact wbPath (WbPath.of_pass hw).2
  | wbUpdate choice m e s e' ppa hp hc hw hppa =>
    exact ((wbPath (WbPath.of_pass hw).2).trans (wbInvalidateOld s _)).trans (wbInstall ..)
  | wbDirectUpdate choice m e s e' ppa hp hc hw hppa =>
    exact (wbPath (WbPath.of_pass hw).2).trans (wbInstall ..)
  | endAssign | assignEntry | assignPage => exact absurd rfl ha
  | promote page hp => exact (evict cfg f.store).promote page (.refl _)
  | flush => exact ⟨.refl _, rfl, rfl⟩
  | get | resume | setFull | setInsert | pickRetry | pickMaster | rehashBegin | rehashTick =>
    exact ⟨.refl _, rfl, rfl⟩

end SameDataPath

/-! ## Section 6: Collections keep the data path in its partition -/

/-- The data path of a store stays in its partition. -/
structure Store.Zoned (cfg : Settings) (s : Store) : Prop extends HashKv.Zoned cfg s.bm where
  active : ∀ a, s.dActive = some a → cfg.IsData a
  reserve : ∀ a, s.dReserve = some a → cfg.IsData a

/-- The data path stays in its partition if it stays where it is. -/
theorem Store.Zoned.congr {s s' : Store} (z : s.Zoned cfg) (h : SameDataPath s s') :
    s'.Zoned cfg :=
  ⟨z.toZoned.congr h.cursors, h.active ▸ z.active, h.reserve ▸ z.reserve⟩

/-- A data superblock has data pages. -/
theorem dataPage_le_getPageNum (bm : Bm) {a : Nat} (h : cfg.IsData a) :
    cfg.dataPage ≤ (getPageNum cfg bm a).1 :=
  dataPage_le_sblkOfft2Ppa h.1 _

theorem SameMap.getPageNum (bm : Bm) {a : Nat} (h : cfg.IsData a) :
    SameMap cfg bm (getPageNum cfg bm a).2 :=
  .setSblk bm h.1 _

/-- A page is taken from it. -/
theorem Zoned.getPageNum {bm : Bm} (z : Zoned cfg bm) (a : Nat) :
    Zoned cfg (getPageNum cfg bm a).2 :=
  z.setSblk a _

/-- Opening a page: the next page of the active superblock of the stream. -/
theorem gcOpenPage_eq {idx : Nat} {s s' : Store} {cur cur' : GcCursor}
    (h : gcOpenPage cfg idx s cur = some (s', cur')) :
    ∃ a bm, getStreamSblk cfg s.bm idx = some (a, bm) ∧ cur'.ppa = (getPageNum cfg bm a).1 ∧
      s' = { s with
        bm := (getPageNum cfg bm a).2.setStream idx { bm.stream idx with
          activeSblkOffset := ((getPageNum cfg bm a).2.sblk a).wpOfft, activePpa := cur'.ppa,
          grainRemain := 4 }
        ssd := s'.ssd } := by
  unfold gcOpenPage at h
  simp only [Option.bind_eq_bind, Option.bind_eq_some_iff] at h
  obtain ⟨⟨a, bm⟩, hs, h⟩ := h
  refine ⟨a, bm, hs, ?_⟩
  split at h
  · cases h
    exact ⟨rfl, rfl⟩
  · split at h
    · cases h
      exact ⟨rfl, rfl⟩
    · split at h
      · cases h
        exact ⟨rfl, rfl⟩
      · cases h

/-- A collection opens the page at the write pointer of its superblock. -/
theorem gcOpenPage_spec {idx : Nat} {s s' : Store} {cur cur' : GcCursor}
    (hds : cfg.dataSegregation = true) (z : Zoned cfg s.bm)
    (h : gcOpenPage cfg idx s cur = some (s', cur')) :
    ∃ a bm offt, StreamOpened cfg s.bm idx a bm ∧ cur'.ppa = (getPageNum cfg bm a).1 ∧
      s'.bm = (getPageNum cfg bm a).2.setStream idx { bm.stream idx with
        activeSblkOffset := offt, activePpa := cur'.ppa, grainRemain := 4 } ∧
      s'.dActive = s.dActive ∧ s'.dReserve = s.dReserve := by
  obtain ⟨a, bm, hs, hp, he⟩ := gcOpenPage_eq h
  refine ⟨a, bm, _, getStreamSblk_spec hds z hs, hp, congrArg Store.bm he, ?_, ?_⟩
  · exact (congrArg Store.dActive he).trans rfl
  · exact (congrArg Store.dReserve he).trans rfl

/-- Opening the page stays in the partition. -/
theorem StreamOpened.openPage {bm bm' : Bm} {idx a : Nat} (h : StreamOpened cfg bm idx a bm')
    (st : Stream) (hact : st.activeSblk = (bm'.stream idx).activeSblk)
    (hpage : st.activePpa = (getPageNum cfg bm' a).1) :
    Zoned cfg ((getPageNum cfg bm' a).2.setStream idx st) ∧
      SameMap cfg bm ((getPageNum cfg bm' a).2.setStream idx st) := by
  refine ⟨(h.zoned.getPageNum a).setStream idx (fun b hb => ?_) fun _ => ?_, ?_⟩
  · exact h.zoned.stream idx b (hact ▸ hb)
  · rw [hpage]
    exact dataPage_le_getPageNum bm' h.data
  · exact h.map.trans ((SameMap.getPageNum bm' h.data).trans (.setStream _ idx st))

/-- A collection has room behind it. -/
theorem gcPage_zoned {idx : Nat} {s s' : Store} {cur cur' : GcCursor}
    (hds : cfg.dataSegregation = true) (z : s.Zoned cfg)
    (h : gcPage cfg idx s cur = some (s', cur')) :
    s'.Zoned cfg ∧ (s'.bm.stream idx).grainRemain ≠ 0 := by
  unfold gcPage at h
  split at h
  · obtain ⟨a, bm, offt, ho, hp, hbm, hact, hrsv⟩ := gcOpenPage_spec hds z.toZoned h
    have hz := (ho.openPage { bm.stream idx with
      activeSblkOffset := offt, activePpa := cur'.ppa, grainRemain := 4 } rfl hp).1
    rw [← hbm] at hz
    refine ⟨⟨hz, hact ▸ z.active, hrsv ▸ z.reserve⟩, ?_⟩
    rw [hbm]
    simp [Bm.setStream]
  · next hne =>
    cases h
    exact ⟨z, hne⟩

/-- And takes a grain of that room. -/
theorem gcPlace_zoned {idx : Nat} {s s' : Store} {cur : GcCursor} {it : GcItem} {n : GcNode}
    (z : s.Zoned cfg) (hne : (s.bm.stream idx).grainRemain ≠ 0)
    (h : gcPlace cfg idx s cur it = some (s', n)) : s'.Zoned cfg := by
  obtain ⟨bm, hp, rfl, -⟩ := gcPlace_spec h
  have hz : HashKv.Zoned cfg (s.bm.setStream idx { s.bm.stream idx with
      grainRemain := sub32 (s.bm.stream idx).grainRemain 1 }) :=
    z.toZoned.setStream idx (fun a ha => z.stream idx a ha) fun _ => z.page idx hne
  exact ⟨hz.congr (placeItem_blocks hp).cursors, z.active, z.reserve⟩

/-- Packed pages move the write pointers only. -/
theorem SameCursors.packPages {rsv : Nat} : ∀ {fuel todo copied : Nat} {bm bm' : Bm}
    {b : Buckets GcItem} {nodes : List GcNode},
    packPages cfg rsv bm b todo fuel = some (bm', nodes, copied) → SameCursors bm bm'
  | 0, todo, copied, bm, bm', b, nodes, h => by
      cases h
      exact .refl _
  | fuel + 1, todo, copied, bm, bm', b, nodes, h => by
      unfold HashKv.packPages at h
      split at h
      · cases h
        exact .refl _
      · obtain ⟨⟨bm₁, first⟩, hf, h⟩ := Option.bind_eq_some_iff.mp h
        obtain ⟨⟨bm₂, rest, copied'⟩, hr, he⟩ := Option.map_eq_some_iff.mp h
        cases he
        have h₀ : SameCursors bm (HashKv.getPageNum cfg bm rsv).2 := ⟨rfl, rfl⟩
        exact h₀.trans ((placeNodes_blocks hf).cursors.trans (SameCursors.packPages hr))

/-- The writes of a collection stay in the partition. -/
theorem Store.Zoned.writeItems {s s' : Store} {target : Nat} {pages : List Nat}
    {items : List GcItem} {nodes : List GcNode} (z : s.Zoned cfg)
    (h : writeItems cfg s target pages items = some (s', nodes)) : s'.Zoned cfg := by
  unfold HashKv.writeItems at h
  split at h
  · cases h
    exact z
  · split at h
    · next hds =>
      obtain ⟨s₁, cur, ssd, hl, rfl⟩ := writeItemsStream_spec h
      generalize victimStream s.bm target = idx at hl
      have z₁ := (gcWriteLoop_invariant (P := fun s _ => s.Zoned cfg)
        (Q := fun s _ => s.Zoned cfg ∧ (s.bm.stream idx).grainRemain ≠ 0) (R := fun _ _ => True)
        (fun z hp => gcPage_zoned hds z hp) (fun hq hp => ⟨gcPlace_zoned hq.1 hq.2 hp, trivial⟩)
        z hl).1
      exact z₁.congr ⟨.refl _, rfl, rfl⟩
    · unfold writeItemsReserve at h
      simp only [Option.bind_eq_bind, Option.bind_eq_some_iff] at h
      obtain ⟨rsv, _, ⟨bm, ns, copied⟩, hpack, h⟩ := h
      cases h
      exact z.congr ⟨.packPages hpack, rfl, rfl⟩

/-- The victim of a data collection is a data superblock. -/
theorem Zoned.target {bm : Bm} (z : Zoned cfg bm) {idx i : Nat}
    (h : getGcTarget cfg bm .data idx = some i) : cfg.IsData i := by
  obtain ⟨hlo, hhi, -, -⟩ := getGcTarget_spec h
  have hnos := cfg.nos_ge
  change bm.dataPart.sSblk ≤ i at hlo
  change i ≤ bm.dataPart.eSblk at hhi
  rw [z.sSblk] at hlo
  rw [z.eSblk] at hhi
  exact ⟨hlo, by omega⟩

/-- And so is the reserve it becomes. -/
theorem Store.Zoned.retireVictim {s : Store} (z : s.Zoned cfg) {target : Nat}
    (ht : cfg.IsData target) : (retireVictim cfg s target).Zoned cfg := by
  have hz : ∀ bm', bm'.dataPart.sSblk = s.bm.dataPart.sSblk →
      bm'.dataPart.eSblk = s.bm.dataPart.eSblk →
      bm'.dataPart.activeSblk = s.bm.dataPart.activeSblk → bm'.stream = s.bm.stream →
      HashKv.Zoned cfg bm' := fun bm' h1 h2 h3 h4 =>
    ⟨⟨h1 ▸ z.sSblk, h2 ▸ z.eSblk, h3 ▸ z.cursor, h4 ▸ z.stream, h4 ▸ z.page⟩, h3 ▸ z.started⟩
  unfold HashKv.retireVictim
  dsimp only
  split
  · split
    · exact ⟨hz _ rfl rfl rfl rfl, z.active, z.reserve⟩
    · exact ⟨hz _ rfl rfl rfl rfl, z.active, z.reserve⟩
  · refine ⟨hz _ rfl rfl rfl rfl, z.reserve, fun a ha => ?_⟩
    cases ha
    exact ht

/-- A collection keeps the data path in its partition. -/
theorem Store.Zoned.dpageGc {s s' : Store} {idx : Nat} (z : s.Zoned cfg)
    (h : dpageGc cfg s idx = some s') : s'.Zoned cfg := by
  unfold HashKv.dpageGc at h
  simp only [Option.bind_eq_bind, Option.bind_eq_some_iff, Option.pure_def, Option.some.injEq] at h
  obtain ⟨target, ht, ⟨bm, items⟩, hc, ⟨s₁, nodes⟩, h₁, s₂, h₂, rfl⟩ := h
  have z₀ : Store.Zoned cfg { s with bm := bm } :=
    z.congr ⟨(collectPages_blocks hc).cursors, rfl, rfl⟩
  have z₁ := z₀.writeItems h₁
  exact (z₁.congr (.bulkMappingUpdate h₂)).retireVictim (z.target ht)

theorem Zoned.startable {bm : Bm} (z : Zoned cfg bm) (hds : cfg.dataSegregation = true) :
    Startable cfg bm :=
  fun hnone => absurd hnone (z.started hds)

/-- The page that `dp_alloc` returns is a data page. -/
theorem Store.Zoned.dpAlloc {s s' : Store} {idx ppa : Nat} (z : s.Zoned cfg)
    (hstart : Startable cfg s.bm) (h : dpAlloc cfg s idx = some (ppa, s')) :
    s'.Zoned cfg ∧ cfg.dataPage ≤ ppa := by
  unfold HashKv.dpAlloc at h
  split at h
  · next hds =>
    simp only [Option.bind_eq_bind, Option.bind_eq_some_iff] at h
    obtain ⟨a, _, s₁, h₁, ⟨i, bm⟩, h₂, he⟩ := h
    have z₁ : s₁.Zoned cfg := by
      unfold streamGc at h₁
      split at h₁
      · exact z.dpageGc h₁
      · cases h₁
        exact z
    have ho := getStreamSblk_spec hds z₁.toZoned h₂
    cases he
    refine ⟨⟨ho.zoned.getPageNum i, fun a ha => ?_, z₁.reserve⟩, dataPage_le_getPageNum bm ho.data⟩
    cases ha
    exact ho.data
  -- Without segregation there is one active superblock.
  · simp only [Option.bind_eq_bind, Option.bind_eq_some_iff] at h
    obtain ⟨s₁, h₁, a, hact, he⟩ := h
    have z₁ : s₁.Zoned cfg := by
      unfold dSwitch at h₁
      split at h₁
      · split at h₁
        · exact z.dpageGc h₁
        · obtain ⟨⟨i, bm⟩, ha, rfl⟩ := Option.map_eq_some_iff.mp h₁
          obtain ⟨hi, -, hz, -⟩ := z.toInZone.getActiveSblk hstart ha
          refine ⟨hz, fun b hb => ?_, z.reserve⟩
          cases hb
          exact hi
      · cases h₁
        exact z
    cases he
    exact ⟨⟨z₁.toZoned.getPageNum a, z₁.active, z₁.reserve⟩,
      dataPage_le_getPageNum _ (z₁.active a hact)⟩

/-! ## Section 7: The initial state -/

theorem bmZero_inZone (cfg : Settings) : InZone cfg (bmZero cfg) :=
  ⟨rfl, rfl, (fun _ ha => by cases ha), (fun _ _ ha => by cases ha), fun _ hne => absurd rfl hne⟩

/-- The superblock after the reserved one is open. -/
theorem bmZero_startable (cfg : Settings) : Startable cfg (bmZero cfg) := by
  intro _
  have hlt := cfg.dataSblk_lt
  refine ⟨cfg.dataSblk + 1, ⟨Nat.le_succ _, hlt⟩, Nat.succ_ne_self _, ?_⟩
  have hpps := cfg.pps_pos
  simp [checkFull, bmZero, Superblock.fresh]
  omega

/-- The reserve is taken from the data superblocks. -/
theorem initReserve_inZone {bm bm' : Bm} (z : InZone cfg bm) (hs : Startable cfg bm)
    (h : initReserve cfg bm = some bm') :
    InZone cfg bm' ∧ bm'.dataPart.activeSblk ≠ none ∧ bm'.stream = bm.stream := by
  obtain ⟨⟨i, bm₁⟩, ha, rfl⟩ := Option.map_eq_some_iff.mp h
  obtain ⟨-, -, z₁, free, rfl⟩ := z.getActiveSblk hs ha
  exact ⟨⟨z₁.sSblk, z₁.eSblk, z₁.cursor, z₁.stream, z₁.page⟩, Option.some_ne_none i, rfl⟩

/-- A stream starts with no room, in a superblock of its own. -/
theorem initStream_inZone {bm bm' : Bm} {idx : Nat} (z : InZone cfg bm) (hs : Startable cfg bm)
    (h : initStream cfg bm idx = some bm') :
    InZone cfg bm' ∧ bm'.dataPart.activeSblk ≠ none ∧ (bm'.stream idx).grainRemain = 0 ∧
      ∀ j, j ≠ idx → bm'.stream j = bm.stream j := by
  obtain ⟨⟨i, bm₁⟩, ha, rfl⟩ := Option.map_eq_some_iff.mp h
  obtain ⟨hi, -, z₁, free, rfl⟩ := z.getActiveSblk hs ha
  refine ⟨⟨z₁.sSblk, z₁.eSblk, z₁.cursor, fun j a => ?_, fun j => ?_⟩, Option.some_ne_none i,
    ?_, fun j hj => Function.update_of_ne hj ..⟩
  · simp only [Bm.setStream, Bm.setSblk]
    by_cases hj : j = idx
    · subst hj
      rw [Function.update_self]
      intro he
      cases he
      exact hi
    · rw [Function.update_of_ne hj]
      exact z₁.stream j a
  · simp only [Bm.setStream, Bm.setSblk]
    by_cases hj : j = idx
    · subst hj
      rw [Function.update_self]
      exact fun hne => absurd rfl hne
    · rw [Function.update_of_ne hj]
      exact z₁.page j
  · simp [Bm.setStream]

/-- After the set-up all cursors are in their partition, and no stream has room. -/
theorem bmInit_zoned {bm : Bm} (h : bmInit cfg = some bm) :
    Zoned cfg bm ∧ ∀ idx, (bm.stream idx).grainRemain = 0 := by
  unfold bmInit at h
  split at h
  · next hds =>
    simp only [Option.bind_eq_bind, Option.bind_eq_some_iff] at h
    obtain ⟨bm₁, h₁, h₂⟩ := h
    let before : Bm → Prop := fun b =>
      InZone cfg b ∧ Startable cfg b ∧ ∀ idx, (b.stream idx).grainRemain = 0
    let after : Bm → Prop := fun b =>
      InZone cfg b ∧ b.dataPart.activeSblk ≠ none ∧ ∀ idx, (b.stream idx).grainRemain = 0
    have hstart : ∀ {b : Bm}, after b → before b :=
      fun hb => ⟨hb.1, fun hn => absurd hn hb.2.1, hb.2.2⟩
    -- First the reserve, then the streams.
    have hr : after bm₁ := by
      refine foldlM_last (P := before) (Q := after) hstart (fun hb hi => ?_) (by decide)
        ⟨bmZero_inZone cfg, bmZero_startable cfg, fun _ => rfl⟩ h₁
      obtain ⟨hz, hne, hst⟩ := initReserve_inZone hb.1 hb.2.1 hi
      exact ⟨hz, hne, fun idx => hst ▸ hb.2.2 idx⟩
    obtain ⟨hz, hne, hroom⟩ : after bm := by
      refine foldlM_last (P := before) (Q := after) hstart (fun {b b' i} hb hi => ?_) (by decide)
        (hstart hr) h₂
      obtain ⟨hz, hne, hzero, hst⟩ := initStream_inZone hb.1 hb.2.1 hi
      refine ⟨hz, hne, fun idx => ?_⟩
      by_cases hidx : idx = i
      · rw [hidx, hzero]
      · rw [hst idx hidx]
        exact hb.2.2 idx
    exact ⟨⟨hz, fun _ => hne⟩, hroom⟩
  · next hds =>
    cases h
    exact ⟨⟨bmZero_inZone cfg, fun hd => absurd hd hds⟩, fun _ => rfl⟩

/-- So it is in a created store. -/
theorem create_zoned {garbage : Nat → Key} {f : Ftl} (h : Ftl.create cfg garbage = some f) :
    f.store.Zoned cfg ∧ ∀ idx, (f.store.bm.stream idx).grainRemain = 0 := by
  obtain ⟨s, hs, rfl⟩ := Option.map_eq_some_iff.mp h
  obtain ⟨bm, hb, rfl⟩ := Option.map_eq_some_iff.mp hs
  obtain ⟨hz, hroom⟩ := bmInit_zoned hb
  refine ⟨⟨hz, (fun _ ha => by cases ha), fun a ha => ?_⟩, hroom⟩
  unfold bmInit at hb
  split at hb
  · next hds =>
    dsimp only at ha
    rw [if_pos hds] at ha
    cases ha
  · next hds =>
    cases hb
    dsimp only at ha
    rw [if_neg hds] at ha
    cases ha
    exact ⟨Nat.le_refl _, Nat.lt_of_succ_lt cfg.dataSblk_lt⟩

end AggreKV.HashKv
