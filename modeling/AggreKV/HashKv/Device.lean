import AggreKV.HashKv.TpageOwnership

/-! # The device below the translation pages

    A line of the device programs its pages in order, so the programmed
    pages of a superblock are those below the write pointer of its line.

    * `Ssd.Sound`: that, kept by every program and erase.
    * `Store.Level`: the lines of the MAP partition are programmed as far
      as their pages were allocated.
    * `MapStep`: what operations on translation pages do to the roles of
      the superblocks and to the device. -/

namespace AggreKV.HashKv

variable {cfg : Settings} {hs : Hashing}

/-! ## Section 1: Lines -/

def Ssd.Sound (cfg : Settings) (ssd : Ssd) : Prop :=
  ∀ p, ssd.ppaState p = true ↔ p % cfg.pps < ssd.lineWp (p / cfg.pps)

/-- Programming one page. -/
def Ssd.program (cfg : Settings) (ssd : Ssd) (p : Nat) : Ssd where
  ppaState := Function.update ssd.ppaState p true
  lineWp := Function.update ssd.lineWp (p / cfg.pps) (ssd.lineWp (p / cfg.pps) + 1)

theorem sub_line (p : Nat) : p - p / cfg.pps * cfg.pps = p % cfg.pps := by
  have h := Nat.div_add_mod p cfg.pps
  rw [Nat.mul_comm] at h
  omega

namespace Ssd.Sound

variable {ssd : Ssd}

theorem blank (cfg : Settings) : Ssd.blank.Sound cfg :=
  fun _ => iff_of_false (by simp [Ssd.blank]) (Nat.not_lt_zero _)

/-- The page at the write pointer of its line is programmed next. -/
theorem program (h : ssd.Sound cfg) {p : Nat} (hp : ssd.lineWp (p / cfg.pps) = p % cfg.pps) :
    (ssd.program cfg p).Sound cfg := by
  intro q
  unfold Ssd.program
  dsimp only
  by_cases hq : q = p
  · subst hq
    simp [hp]
  · rw [Function.update_of_ne hq]
    by_cases hl : q / cfg.pps = p / cfg.pps
    · have hmod : q % cfg.pps ≠ p % cfg.pps := fun hm => hq (by
        rw [← Nat.div_add_mod q cfg.pps, hl, hm, Nat.div_add_mod])
      rw [hl, Function.update_self, h q, hl, hp]
      omega
    · rw [Function.update_of_ne hl]
      exact h q

theorem free (h : ssd.Sound cfg) {p : Nat} (hp : ssd.lineWp (p / cfg.pps) = p % cfg.pps) :
    ssd.ppaState p = false := by
  by_contra hs
  have hlt := (h p).mp (by simpa using hs)
  omega

end Ssd.Sound

/-- A page at the write pointer of its line is programmed. -/
theorem ssdWrite_succ {ssd : Ssd} {ppa : Nat} (n : Nat) (hfree : ssd.ppaState ppa = false)
    (hp : ssd.lineWp (ppa / cfg.pps) = ppa % cfg.pps) :
    ssdWrite cfg ssd ppa (n + 1) = ssdWrite cfg (ssd.program cfg ppa) (ppa + 1) n := by
  conv_lhs => unfold ssdWrite
  dsimp only
  rw [sub_line, if_neg (by simp [hfree, hp])]
  rfl

/-- Any other page is refused. -/
theorem ssdWrite_refused {ssd : Ssd} {ppa : Nat} (n : Nat)
    (h : ¬(ssd.ppaState ppa = false ∧ ssd.lineWp (ppa / cfg.pps) = ppa % cfg.pps)) :
    ssdWrite cfg ssd ppa (n + 1) = (ssd, false) := by
  unfold ssdWrite
  dsimp only
  rw [sub_line, if_pos]
  rw [Bool.or_eq_true, decide_eq_true_eq]
  by_cases hs : ssd.ppaState ppa = true
  · exact Or.inl hs
  · exact Or.inr fun hp => h ⟨by simpa using hs, hp⟩

/-- Whatever is written, below the write pointers all pages are programmed. -/
theorem Ssd.Sound.ssdWrite : ∀ {n : Nat} {ssd : Ssd} {ppa : Nat}, ssd.Sound cfg →
    (HashKv.ssdWrite cfg ssd ppa n).1.Sound cfg
  | 0, _, _, h => h
  | n + 1, ssd, ppa, h => by
      by_cases hok : ssd.ppaState ppa = false ∧ ssd.lineWp (ppa / cfg.pps) = ppa % cfg.pps
      · rw [ssdWrite_succ n hok.1 hok.2]
        exact (h.program hok.2).ssdWrite
      · rw [ssdWrite_refused n hok]
        exact h

/-- An erased line starts again. -/
theorem Ssd.Sound.trim {ssd : Ssd} (h : ssd.Sound cfg) (i : Nat) :
    (ssdTrimBlock cfg ssd i).Sound cfg := by
  intro p
  unfold ssdTrimBlock
  dsimp only
  by_cases hp : p / cfg.pps = i
  · rw [if_pos hp, hp, Function.update_self]
    simp
  · rw [if_neg hp, Function.update_of_ne hp]
    exact h p

/-- A program moves the lines of its pages only. -/
theorem ssdWrite_lines : ∀ {n : Nat} {ssd : Ssd} {ppa i : Nat},
    (∀ q, ppa ≤ q → q < ppa + n → q / cfg.pps ≠ i) →
      (ssdWrite cfg ssd ppa n).1.lineWp i = ssd.lineWp i
  | 0, _, _, _, _ => rfl
  | n + 1, ssd, ppa, i, h => by
      by_cases hok : ssd.ppaState ppa = false ∧ ssd.lineWp (ppa / cfg.pps) = ppa % cfg.pps
      · rw [ssdWrite_succ n hok.1 hok.2,
          ssdWrite_lines fun q hlo hhi => h q (by omega) (by omega)]
        exact Function.update_of_ne (Ne.symm (h ppa (Nat.le_refl _) (by omega))) ..
      · rw [ssdWrite_refused n hok]

/-- A program within a line that starts at its write pointer is accepted. -/
theorem ssdWrite_line : ∀ {n : Nat} {ssd : Ssd} {i offt : Nat}, ssd.Sound cfg →
    ssd.lineWp i = offt → offt + n ≤ cfg.pps →
      (ssdWrite cfg ssd (sblkOfft2Ppa cfg i offt) n).2 = true ∧
      (ssdWrite cfg ssd (sblkOfft2Ppa cfg i offt) n).1.lineWp =
        Function.update ssd.lineWp i (offt + n)
  | 0, ssd, i, offt, _, hwp, _ => by
      refine ⟨rfl, ?_⟩
      rw [Nat.add_zero, ← hwp, Function.update_eq_self]
      rfl
  | n + 1, ssd, i, offt, h, hwp, hroom => by
      have hdiv : sblkOfft2Ppa cfg i offt / cfg.pps = i := sblkOfft2Ppa_div (by omega)
      have hmod : sblkOfft2Ppa cfg i offt % cfg.pps = offt := sblkOfft2Ppa_mod (by omega)
      have hp : ssd.lineWp (sblkOfft2Ppa cfg i offt / cfg.pps) =
          sblkOfft2Ppa cfg i offt % cfg.pps := by
        rw [hdiv, hmod, hwp]
      have hlines : (ssd.program cfg (sblkOfft2Ppa cfg i offt)).lineWp =
          Function.update ssd.lineWp i (offt + 1) := by
        unfold Ssd.program
        rw [hdiv, hwp]
      have hnext : sblkOfft2Ppa cfg i offt + 1 = sblkOfft2Ppa cfg i (offt + 1) := rfl
      -- The write pointer is behind the programmed page, where the rest goes.
      have hwp' : (ssd.program cfg (sblkOfft2Ppa cfg i offt)).lineWp i = offt + 1 := by
        rw [hlines, Function.update_self]
      obtain ⟨hok, hl⟩ := ssdWrite_line (n := n) (h.program hp) hwp' (by omega)
      rw [ssdWrite_succ n (h.free hp) hp, hnext]
      refine ⟨hok, ?_⟩
      rw [hl, hlines, Function.update_idem]
      congr 1
      omega

/-! ## Section 2: Roles of the superblocks -/

/-- The superblocks keep their owners and their place in the reserve pool. -/
structure SameRoles (bm bm' : Bm) : Prop where
  owned : ∀ i, (bm'.sblk i).isOwned = (bm.sblk i).isOwned
  reserved : ∀ i, (bm'.sblk i).isRsv = (bm.sblk i).isRsv

namespace SameRoles

theorem refl (bm : Bm) : SameRoles bm bm := ⟨fun _ => rfl, fun _ => rfl⟩

theorem trans {bm bm' bm'' : Bm} (h : SameRoles bm bm') (h' : SameRoles bm' bm'') :
    SameRoles bm bm'' :=
  ⟨fun i => (h'.owned i).trans (h.owned i), fun i => (h'.reserved i).trans (h.reserved i)⟩

theorem of_sblk {bm bm' : Bm} (h : bm'.sblk = bm.sblk) : SameRoles bm bm' := by
  refine ⟨fun i => ?_, fun i => ?_⟩
  · rw [h]
  · rw [h]

/-- One superblock is changed, except for its role. -/
theorem of_update {bm bm' : Bm} {i : Nat} {b : Superblock}
    (h : bm'.sblk = Function.update bm.sblk i b) (ho : b.isOwned = (bm.sblk i).isOwned)
    (hr : b.isRsv = (bm.sblk i).isRsv) : SameRoles bm bm' := by
  refine ⟨fun j => ?_, fun j => ?_⟩
  · rw [h]
    by_cases hj : j = i
    · rw [hj, Function.update_self, ho]
    · rw [Function.update_of_ne hj]
  · rw [h]
    by_cases hj : j = i
    · rw [hj, Function.update_self, hr]
    · rw [Function.update_of_ne hj]

theorem getPageNum (cfg : Settings) (bm : Bm) (i : Nat) :
    SameRoles bm (HashKv.getPageNum cfg bm i).2 :=
  of_update rfl rfl rfl

theorem invalidatePage (cfg : Settings) (bm : Bm) (p : Nat) :
    SameRoles bm (HashKv.invalidatePage cfg bm p) :=
  of_update rfl rfl rfl

theorem validatePage (cfg : Settings) (bm : Bm) (p : Nat) :
    SameRoles bm (HashKv.validatePage cfg bm p) :=
  of_update rfl rfl rfl

theorem trimSegment (cfg : Settings) (bm : Bm) (i : Nat) :
    SameRoles bm (HashKv.trimSegment cfg bm i) :=
  of_update rfl rfl rfl

theorem of_blocks {bm bm' : Bm} (h : SameBlocks bm bm') : SameRoles bm bm' := by
  refine ⟨fun i => ?_, fun i => ?_⟩
  · obtain ⟨n, hn⟩ := h.sblk i
    rw [hn]
  · obtain ⟨n, hn⟩ := h.sblk i
    rw [hn]

theorem collectTpages : ∀ {n : Nat} {ssd : Ssd} {bm bm' : Bm} {ppa : Nat} {pages : List Nat},
    HashKv.collectTpages cfg ssd bm ppa n = some (bm', pages) → SameRoles bm bm'
  | 0, _, _, _, _, _, h => by
      cases h
      exact .refl _
  | n + 1, ssd, bm, bm', ppa, pages, h => by
      unfold HashKv.collectTpages at h
      split at h
      · split at h
        · obtain ⟨⟨bm₁, rest⟩, hr, he⟩ := Option.map_eq_some_iff.mp h
          cases he
          exact (invalidatePage cfg bm ppa).trans (collectTpages hr)
        · cases h
      · exact collectTpages h

theorem moveTpages (rsv : Nat) : ∀ (pages : List Nat) (s : Store),
    SameRoles s.bm (pages.foldl (moveTpage cfg rsv) s).bm
  | [], s => .refl _
  | page :: pages, s => by
      have hpage : SameRoles s.bm (moveTpage cfg rsv s page).bm :=
        (getPageNum cfg s.bm rsv).trans (of_update rfl rfl rfl)
      exact hpage.trans (moveTpages rsv pages _)

end SameRoles

theorem moveTpages_ssd (cfg : Settings) (rsv : Nat) : ∀ (pages : List Nat) (s : Store),
    (pages.foldl (moveTpage cfg rsv) s).ssd = s.ssd
  | [], _ => rfl
  | _ :: pages, _ => moveTpages_ssd cfg rsv pages _

/-! ## Section 3: Translation pages -/

/-- Each line of the MAP partition is programmed up to the pages allocated from it. -/
structure Store.Level (cfg : Settings) (s : Store) : Prop where
  sound : s.ssd.Sound cfg
  lines : ∀ i < cfg.dataSblk, s.ssd.lineWp i = (s.bm.sblk i).wpOfft

/-- What an operation on translation pages leaves alone. -/
structure MapStep (cfg : Settings) (s s' : Store) : Prop where
  data : SameData cfg s.bm s'.bm
  roles : SameRoles s.bm s'.bm
  lines : ∀ i, cfg.dataSblk ≤ i → s'.ssd.lineWp i = s.ssd.lineWp i
  level : s.Level cfg → s'.Level cfg

namespace MapStep

variable {s s' s'' : Store}

theorem refl (s : Store) : MapStep cfg s s := ⟨.refl _, .refl _, fun _ _ => rfl, id⟩

theorem trans (h : MapStep cfg s s') (h' : MapStep cfg s' s'') : MapStep cfg s s'' where
  data := h.data.trans h'.data
  roles := h.roles.trans h'.roles
  lines i hi := (h'.lines i hi).trans (h.lines i hi)
  level hl := h'.level (h.level hl)

theorem of_eq (hb : s'.bm = s.bm) (hd : s'.ssd = s.ssd) : MapStep cfg s s' := by
  refine ⟨hb ▸ .refl _, hb ▸ .refl _, fun i _ => by rw [hd], fun hl => ⟨hd ▸ hl.sound, ?_⟩⟩
  rw [hb, hd]
  exact hl.lines

theorem of_tables (h : OnlyTables s s') : MapStep cfg s s' := by
  obtain ⟨cold, hot, rfl⟩ := h
  exact of_eq rfl rfl

/-- A page of the MAP partition loses its validity. -/
theorem invalidatePage {p : Nat} (hp : p < cfg.dataPage)
    (hb : s'.bm = HashKv.invalidatePage cfg s.bm p) (hd : s'.ssd = s.ssd) : MapStep cfg s s' := by
  refine ⟨hb ▸ .invalidatePage _ hp, hb ▸ .invalidatePage cfg _ _, fun i _ => by rw [hd],
    fun hl => ⟨hd ▸ hl.sound, fun i hi => ?_⟩⟩
  rw [hb, hd, (SameTblocks.invalidatePage s.bm p).wpOfft]
  exact hl.lines i hi

/-- A translation GC programs its reserve from the first page on, and erases its victim. -/
theorem tpageGc (h : s.Copied cfg) (hg : HashKv.tpageGc cfg s = some s') : MapStep cfg s s' := by
  obtain ⟨target, bm, pages, s₁, -, hlt, hne, hlen, hc, hs₁, hwp, hdata, hblk, -, -, hm, rfl⟩ :=
    h.tpageGc_split hg
  have hssd : s₁.ssd = s.ssd := hs₁ ▸ moveTpages_ssd cfg _ pages { s with bm := bm }
  have hroles : SameRoles s.bm s₁.bm := by
    have hmoves := @SameRoles.moveTpages cfg s.bm.mapPart.sblkRsv pages { s with bm := bm }
    rw [hs₁] at hmoves
    exact (SameRoles.collectTpages hc).trans hmoves
  have hin : ∀ q, sblkOfft2Ppa cfg s.bm.mapPart.sblkRsv 0 ≤ q →
      q < sblkOfft2Ppa cfg s.bm.mapPart.sblkRsv 0 + pages.length →
        q / cfg.pps = s.bm.mapPart.sblkRsv := fun q hlo hhi => by
    rw [Nat.div_eq_iff cfg.pps_pos]
    unfold sblkOfft2Ppa at hlo hhi
    omega
  rw [hwp, hssd]
  refine ⟨?_, ?_, fun i hi => ?_, fun hl => ⟨(hl.sound.ssdWrite).trim target, fun i hi => ?_⟩⟩
  · exact hdata.trans (hm.data.trans ((SameData.trimSegment s₁.bm hlt).trans (.setMapPart _ _)))
  · exact hroles.trans (.of_update rfl rfl rfl)
  · show Function.update (ssdWrite cfg s.ssd _ _).1.lineWp target 0 i = _
    rw [Function.update_of_ne (by omega)]
    refine ssdWrite_lines fun q hlo hhi he => ?_
    have hrsv := h.rsvBlock
    rw [hin q hlo hhi] at he
    omega
  · have hzero : s.ssd.lineWp s.bm.mapPart.sblkRsv = 0 :=
      (hl.lines _ h.rsvBlock).trans h.rsvEmpty
    obtain ⟨-, hlines⟩ := ssdWrite_line (n := pages.length) hl.sound hzero (by omega)
    show Function.update (ssdWrite cfg s.ssd _ _).1.lineWp target 0 i =
      (Function.update s₁.bm.sblk target _ i : Superblock).wpOfft
    -- The victim is erased, the reserve has the moved pages, the other lines are untouched.
    by_cases hit : i = target
    · rw [hit, Function.update_self, Function.update_self]
    · rw [Function.update_of_ne hit, Function.update_of_ne hit, hlines]
      by_cases hir : i = s.bm.mapPart.sblkRsv
      · rw [hir, Function.update_self, hm.rsvOfft]
        dsimp only
        rw [hwp]
      · rw [Function.update_of_ne hir, hm.wpOfft i hir]
        exact (hl.lines i hi).trans (hblk.wpOfft i).symm

/-- The switch to another superblock, after a collection if one is due. -/
theorem tSwitch (h : s.Copied cfg) (ha : HashKv.tSwitch cfg s = some s') : MapStep cfg s s' := by
  have hdata := (h.tSwitch ha).2.1.data
  unfold HashKv.tSwitch at ha
  split at ha
  · split at ha
    · exact tpageGc h ha
    · obtain ⟨⟨i, bm⟩, hi, rfl⟩ := Option.map_eq_some_iff.mp ha
      unfold getActiveSblk at hi
      dsimp only at hi
      obtain ⟨j, _, hj⟩ := Option.map_eq_some_iff.mp hi
      cases hj
      exact ⟨hdata, .of_sblk rfl, fun _ _ => rfl, fun hl => ⟨hl.sound, hl.lines⟩⟩
  · cases ha
    exact .refl _

/-- A page that is written back goes to the write pointer of its line. -/
theorem writeTpage {page : Nat} (h : s.Copied cfg) (hn : s.cold.copy page = none)
    (hw : s.writeTpage cfg page = some s') : MapStep cfg s s' := by
  have hdata := (h.writeTpage hn hw).2.1
  obtain ⟨⟨ppa, s₂⟩, ha, rfl⟩ := Option.map_eq_some_iff.mp hw
  unfold tpAlloc at ha
  simp only [Option.bind_eq_bind, Option.bind_eq_some_iff] at ha
  obtain ⟨s₁, h₁, a, hact, he⟩ := ha
  cases he
  obtain ⟨hc, -, hopen⟩ := h.tSwitch h₁
  have hstep := tSwitch h h₁
  have hlt := (hc.active a hact).1
  have hroom : (s₁.bm.sblk a).wpOfft < cfg.pps := hopen a hact
  have hwp : ∀ i, ((HashKv.validatePage cfg (HashKv.getPageNum cfg s₁.bm a).2
      (HashKv.getPageNum cfg s₁.bm a).1).sblk i).wpOfft =
        if i = a then (s₁.bm.sblk a).wpOfft + 1 else (s₁.bm.sblk i).wpOfft := fun i => by
    have hdiv : (HashKv.getPageNum cfg s₁.bm a).1 / cfg.pps = a := sblkOfft2Ppa_div hroom
    unfold HashKv.validatePage Bm.setSblk
    dsimp only
    rw [hdiv]
    unfold HashKv.getPageNum Bm.setSblk
    by_cases hi : i = a
    · subst hi
      simp
    · simp [hi]
  refine ⟨hdata, ?_, fun i hi => ?_, fun hl => ⟨?_, fun i hi => ?_⟩⟩
  · exact hstep.roles.trans ((SameRoles.getPageNum cfg s₁.bm a).trans (.of_update rfl rfl rfl))
  · refine (ssdWrite_lines fun q hlo hhi he => ?_).trans (hstep.lines i hi)
    obtain rfl : q = sblkOfft2Ppa cfg a (s₁.bm.sblk a).wpOfft :=
      Nat.le_antisymm (Nat.le_of_lt_succ hhi) hlo
    rw [sblkOfft2Ppa_div hroom] at he
    omega
  · exact (hstep.level hl).sound.ssdWrite
  · obtain ⟨-, hlines⟩ := ssdWrite_line (n := 1) (hstep.level hl).sound
      ((hstep.level hl).lines a hlt) hroom
    show (ssdWrite cfg s₁.ssd (sblkOfft2Ppa cfg a (s₁.bm.sblk a).wpOfft) 1).1.lineWp i =
      ((HashKv.validatePage cfg (HashKv.getPageNum cfg s₁.bm a).2
        (HashKv.getPageNum cfg s₁.bm a).1).sblk i).wpOfft
    rw [hlines, hwp]
    -- Only the line of the active superblock moves on, by one page.
    by_cases hia : i = a
    · rw [hia, Function.update_self, if_pos rfl]
    · rw [Function.update_of_ne hia, if_neg hia]
      exact (hstep.level hl).lines i hi

end MapStep

/-! ## Section 4: Whole operations -/

/-- A tidy store that operations on translation pages have led to from `s₀`. -/
structure MapReached (cfg : Settings) (s₀ s : Store) : Prop where
  tidy : s.Tidy cfg
  step : MapStep cfg s₀ s

/-- Changes to the tables do not reach the device. -/
theorem MapReached.tables {s₀ s s' : Store} (h : MapReached cfg s₀ s) (ht : s'.Tidy cfg)
    (ho : OnlyTables s s') : MapReached cfg s₀ s' :=
  ⟨ht, h.step.trans (.of_tables ho)⟩

theorem MapReached.writeTpage {s₀ s s' : Store} {page : Nat} (h : MapReached cfg s₀ s)
    (hn : s.cold.copy page = none) (hw : s.writeTpage cfg page = some s') :
    MapReached cfg s₀ s' :=
  ⟨(h.tidy.writeTpage hn hw).1, h.step.trans (.writeTpage h.tidy.copied hn hw)⟩

/-- The copy of a page is invalidated, or the device is left alone. -/
theorem MapStep.dropCopy {s s' : Store} (page : Nat) (h : s.Tidy cfg)
    (hb : s'.bm = match s.cold.copy page with
      | none => s.bm
      | some p => HashKv.invalidatePage cfg s.bm p) (hd : s'.ssd = s.ssd) : MapStep cfg s s' := by
  split at hb
  · exact .of_eq hb hd
  · next p hp => exact .invalidatePage (h.copied.toCopies.valid hp).1 hb hd

/-- Nor does the update of an entry. -/
theorem MapStep.update {s : Store} (h : s.Tidy cfg) (lpa : Nat) (pte : Pte) :
    MapStep cfg s (s.update cfg lpa pte) := by
  by_cases hpt : (s.cold.cmt (dIdx lpa)).pt = true
  · refine .dropCopy (dIdx lpa) h ?_ rfl
    unfold Store.update
    dsimp only
    rw [if_pos hpt, h.cleanCopy_eq]
    split
    · next p hp => rw [hp]
    · next hp => rw [hp]
  · refine .of_eq ?_ rfl
    unfold Store.update
    exact if_neg hpt

theorem accessInvariant_map (cfg : Settings) (s₀ : Store) :
    AccessInvariant cfg (MapReached cfg s₀) where
  hot hot h := h.tables ((accessInvariant_tidy cfg).hot hot h.tidy) ⟨_, _, rfl⟩
  grain lpa h := h.tables ((accessInvariant_tidy cfg).grain lpa h.tidy) ⟨_, _, rfl⟩
  touch lpa h := h.tables ((accessInvariant_tidy cfg).touch lpa h.tidy) ⟨_, _, rfl⟩
  load _ h hl := by
    have ht := (accessInvariant_tidy cfg).load _ h.tidy hl
    unfold Store.load at hl
    dsimp only at hl
    split at hl
    · cases hl
    · cases hl
      exact h.tables ht ⟨_, _, rfl⟩

theorem listUpInvariant_map (cfg : Settings) (s₀ : Store) :
    ListUpInvariant cfg (MapReached cfg s₀) where
  promote page h := h.tables ((listUpInvariant_tidy cfg).promote page h.tidy) (.promoteHot _ page)
  pop victim lru h := h.tables ((listUpInvariant_tidy cfg).pop victim lru h.tidy) ⟨_, _, rfl⟩
  count n h := h.tables ((listUpInvariant_tidy cfg).count n h.tidy) ⟨_, _, rfl⟩
  evictPage {s s'} victim h hw := by
    have hu : Store.Tidy cfg (s.unload victim) := h.tidy.setTables _ (.unload s victim)
    have hr : MapReached cfg s₀ (s.unload victim) := h.tables hu ⟨_, _, rfl⟩
    unfold Store.writeBack at hw
    split at hw
    · next hd => exact hr.writeTpage (hu.clean victim hd) hw
    · cases hw
      exact hr
  afterEvict victim choice h :=
  h.tables ((listUpInvariant_tidy cfg).afterEvict victim choice h.tidy)
    (.afterEvict _ victim choice)
  resident page h := h.tables ((listUpInvariant_tidy cfg).resident page h.tidy) ⟨_, _, rfl⟩

theorem mappingInvariant_map (cfg : Settings) (s₀ : Store) :
    MappingInvariant cfg (cfg.dataGrain ≤ ·)
      fun E s => MapReached cfg s₀ s ∧ ∀ page, E page → s.cold.copy page = none where
  isHit {E s} lpa h := by
    obtain ⟨ht, hn⟩ := (mappingInvariant_tidy cfg).isHit lpa ⟨h.1.tidy, h.2⟩
    exact ⟨h.1.tables ht ⟨_, _, rfl⟩, hn⟩
  update {E s} lpa ppa hq hr h := by
    obtain ⟨ht, hn⟩ := (mappingInvariant_tidy cfg).update lpa ppa hq hr ⟨h.1.tidy, h.2⟩
    exact ⟨⟨ht, h.1.step.trans (.update h.1.tidy lpa _)⟩, hn⟩
  dropCopy {E s} page hr h := by
    obtain ⟨ht, hn⟩ := (mappingInvariant_tidy cfg).dropCopy page hr ⟨h.1.tidy, h.2⟩
    refine ⟨⟨ht, h.1.step.trans (.dropCopy page h.1.tidy ?_ ?_)⟩, hn⟩
    · unfold Store.dropCopy Cold.copy
      cases (s.cold.cmt page).tPpa with
      | none => rfl
      | some p => rfl
    · unfold Store.dropCopy
      split <;> rfl
  relocate {E s} lpa ppa hq hE h := by
    obtain ⟨ht, hn⟩ := (mappingInvariant_tidy cfg).relocate lpa ppa hq hE ⟨h.1.tidy, h.2⟩
    exact ⟨h.1.tables ht ⟨_, _, rfl⟩, hn⟩
  write {E s s'} page hE h hw := by
    have hn := ((mappingInvariant_tidy cfg).write page hE ⟨h.1.tidy, h.2⟩ hw).2
    exact ⟨h.1.writeTpage (h.2 page hE) hw, hn⟩

/-- The mapping update of a collection. -/
theorem MapStep.bulkMappingUpdate {s s' : Store} {nodes : List GcNode} (h : s.Tidy cfg)
    (hn : ∀ n ∈ nodes, cfg.dataGrain ≤ n.ppa)
    (hu : HashKv.bulkMappingUpdate cfg s nodes = some s') : s'.Tidy cfg ∧ MapStep cfg s s' := by
  have hr := ((mappingInvariant_map cfg s).bulkMappingUpdate hn
    ⟨⟨h, .refl s⟩, fun _ hf => hf.elim⟩ hu).1
  exact ⟨hr.tidy, hr.step⟩

theorem MapStep.wbPath {realKeys : Nat → Key} {ht : DHtable} {s₀ s : Store} {e : WbEntry}
    {choice : Rebalance} {ex : WbExit} (h : s₀.Tidy cfg)
    (hw : WbPath cfg realKeys ht s₀ e choice s ex) : MapReached cfg s₀ s :=
  hw.preserves (accessInvariant_map cfg s₀)
    (fun _ _ _ _ h₁ hl => (listUpInvariant_map cfg s₀).listUp h₁ hl) ⟨h, .refl s₀⟩

theorem MapStep.getPath {f : Ftl} {r : Request} {choice : Rebalance} {s : Store} {ex : GetExit}
    (h : f.store.Tidy cfg) (hg : GetPath cfg f r choice s ex) : MapReached cfg f.store s :=
  hg.preserves (accessInvariant_map cfg f.store)
    (fun _ _ _ hl => (listUpInvariant_map cfg f.store).listUp ⟨h, .refl _⟩ hl) ⟨h, .refl _⟩

/-! ## Section 5: Where pages are written back -/

/-- The write-back of an eviction: the store and the page. -/
def evictCalls (cfg : Settings) (s : Store) : List (Store × Nat) :=
  match popVictim cfg { s with cold := { s.cold with popCount := s.cold.popCount + 1 } }
      (s.cold.maxCachedTpages + 64) with
  | some (victim, s) => if (s.cold.cmt victim).dirty then [(s.unload victim, victim)] else []
  | none => []

/-- While the step runs, a page is written back from store `s`. -/
inductive WritesBack (cfg : Settings) (f : Ftl) : Label → Store → Nat → Prop where
  | get (choice) (r s page) (hp : f.phase = .getting r) (hn : r.hParams.cnt ≤ f.maxTry)
      (hj : r.params = some .list ∨ r.params = some .evict) (hfull : f.store.cold.isFull = true)
      (hc : (s, page) ∈ evictCalls cfg f.store) : WritesBack cfg f (.getPass choice) s page
  | wb (choice) (m e s₁ s page) (hp : f.phase = .mapping m) (hcur : m.cur = some e)
      (hl : ReachesWbList cfg f.store e s₁) (hfull : s₁.cold.isFull = true)
      (hc : (s, page) ∈ evictCalls cfg s₁) : WritesBack cfg f (.wbPass choice) s page
  | gc (idx target s₁ nodes s page) (hg : f.gcStream cfg = some idx)
      (hw : GcWritten cfg f.store idx target s₁ nodes)
      (hc : (s, page) ∈ mappingCalls cfg s₁ nodes) :
      WritesBack cfg f .assign s page

theorem MapReached.evictCalls {s₀ s s' : Store} {page : Nat} (h : MapReached cfg s₀ s)
    (hc : (s', page) ∈ HashKv.evictCalls cfg s) :
    MapReached cfg s₀ s' ∧ s'.cold.copy page = none := by
  unfold HashKv.evictCalls at hc
  split at hc
  · next victim s₁ hpop =>
    split at hc
    · next hd =>
      obtain ⟨rfl, rfl⟩ := Prod.mk.inj (List.mem_singleton.mp hc)
      have hP := (listUpInvariant_map cfg s₀).toPopInvariant
      have h₁ : MapReached cfg s₀ s₁ := hP.popVictim (hP.count _ h) hpop
      have hsame := SameCopies.unload s₁ page
      refine ⟨h₁.tables (h₁.tidy.setTables _ hsame) ⟨_, _, rfl⟩, ?_⟩
      rw [hsame.copy]
      exact h₁.tidy.clean page hd
    · cases hc
  · cases hc

/-- A page that is written back has no copy. In between, only translation pages were
    touched since the step began, or since a collection has written its items. -/
theorem WritesBack.reached {f : Ftl} {a : Label} {s : Store} {page : Nat} (h : f.Tidy cfg)
    (hok : gcFresh cfg f a = true) (hw : WritesBack cfg f a s page) :
    s.cold.copy page = none ∧ (MapReached cfg f.store s ∨ ∃ idx target s₁ nodes, a = .assign ∧
      f.gcStream cfg = some idx ∧ GcWritten cfg f.store idx target s₁ nodes ∧
      MapReached cfg s₁ s) := by
  have hstart : MapReached cfg f.store f.store := ⟨h.store, .refl _⟩
  cases hw with
  | get choice r s page hp hn hj hfull hc =>
    obtain ⟨hr, hn⟩ := hstart.evictCalls hc
    exact ⟨hn, Or.inl hr⟩
  | wb choice m e s₁ s page hp hcur hl hfull hc =>
    have h₁ := (accessInvariant_map cfg f.store).reachesWbList hstart hl
    obtain ⟨hr, hn⟩ := h₁.evictCalls hc
    exact ⟨hn, Or.inl hr⟩
  | gc idx target s₁ nodes s page hg hw hc =>
    have hfresh : f.store.gcFresh cfg idx = true := by simpa [HashKv.gcFresh, hg] using hok
    obtain ⟨t₁, -, hnodes, -⟩ := h.store.gcWritten hfresh hw
    obtain ⟨E, hE, hr, hn⟩ := ((mappingInvariant_map cfg s₁).mappingUpdate hnodes
      ⟨⟨t₁, .refl s₁⟩, fun _ hf => hf.elim⟩).1 _ hc
    exact ⟨hn page hE, Or.inr ⟨idx, target, s₁, nodes, rfl, hg, hw, hr⟩⟩

end AggreKV.HashKv
