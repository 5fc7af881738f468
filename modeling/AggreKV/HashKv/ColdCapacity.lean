import AggreKV.Lib.Counting
import AggreKV.HashKv.Budget

/-! # The capacity of the cold cache

    `dftl_cache_list_up` evicts one page of a full cache and then lists up
    another one. The rebalance comes between the two.

    * `SameUse`: what the other operations leave alone.
    * `evict_cases`: what an eviction and its rebalance do to residence and
      sizes.
    * `Bounded`: the invariant of all runs in which no rebalance takes pages
      from the cold cache.
    * `cold_capacity`: the cache stays within its limit in these runs, and
      the first rebalance that does take pages leaves it above the limit. -/

namespace AggreKV.HashKv

variable {cfg : Settings} {hs : Hashing}

/-! ## Section 1: Resident pages and sizes -/

/-- The pages with a `pt`. -/
def residentPages (cfg : Settings) (c : Cold) : Nat :=
  blockCount cfg.nrValidTpages (fun page => (c.cmt page).pt) 0

/-- Residence, its counter and the sizes of the two caches. -/
structure SameUse (s s' : Store) : Prop where
  pt : ∀ page, (s'.cold.cmt page).pt = (s.cold.cmt page).pt
  nrCachedTpages : s'.cold.nrCachedTpages = s.cold.nrCachedTpages
  maxCachedTpages : s'.cold.maxCachedTpages = s.cold.maxCachedTpages
  maxCachedHotTpages : s'.hot.maxCachedHotTpages = s.hot.maxCachedHotTpages

theorem SameUse.refl (s : Store) : SameUse s s := ⟨fun _ => rfl, rfl, rfl, rfl⟩

/-- Two steps that leave the use alone. -/
theorem SameUse.trans {s₁ s₂ s₃ : Store} (h : SameUse s₁ s₂) (h' : SameUse s₂ s₃) :
    SameUse s₁ s₃ where
  pt page := (h'.pt page).trans (h.pt page)
  nrCachedTpages := h'.nrCachedTpages.trans h.nrCachedTpages
  maxCachedTpages := h'.maxCachedTpages.trans h.maxCachedTpages
  maxCachedHotTpages := h'.maxCachedHotTpages.trans h.maxCachedHotTpages

theorem SameResidence.sameUse {s s' : Store} (h : SameResidence s.cold s'.cold)
    (hhot : s'.hot.maxCachedHotTpages = s.hot.maxCachedHotTpages) : SameUse s s' :=
  ⟨h.pt, h.nrCachedTpages, h.maxCachedTpages, hhot⟩

/-- The number of resident pages depends on the residence only. -/
theorem residentPages_congr {c c' : Cold} (h : ∀ page, (c'.cmt page).pt = (c.cmt page).pt) :
    residentPages cfg c' = residentPages cfg c :=
  blockCount_congr cfg.nrValidTpages_pos fun page _ => h page

/-- A page leaves the cache. -/
theorem residentPages_unload {c c' : Cold} {v : Nat} (hv : v < cfg.nrValidTpages)
    (hpt : (c.cmt v).pt = true)
    (h : ∀ page, (c'.cmt page).pt = if page = v then false else (c.cmt page).pt) :
    residentPages cfg c' + 1 = residentPages cfg c := by
  have hclear := blockCount_clear (v := fun page => (c.cmt page).pt) cfg.nrValidTpages_pos hpt 0
  rw [if_pos (Nat.div_eq_of_lt hv)] at hclear
  have hsame : (fun page => (c'.cmt page).pt) =
      Function.update (fun page => (c.cmt page).pt) v false := by
    funext page
    rw [h page, Function.update_apply]
  rw [residentPages, residentPages, hsame]
  exact hclear

/-- A page enters the cache, unless it is there. -/
theorem residentPages_load {c c' : Cold} {v : Nat}
    (h : ∀ page, (c'.cmt page).pt = if page = v then true else (c.cmt page).pt) :
    residentPages cfg c' ≤ residentPages cfg c + 1 := by
  by_cases hpt : (c.cmt v).pt = true
  · have hsame : ∀ page, (c'.cmt page).pt = (c.cmt page).pt := by
      intro page
      rw [h page]
      split
      · next hp => rw [hp, hpt]
      · rfl
    rw [residentPages_congr hsame]
    exact Nat.le_succ _
  · have hset := blockCount_set (v := fun page => (c.cmt page).pt) cfg.nrValidTpages_pos
      (Bool.eq_false_iff.mpr hpt) 0
    have hsame : (fun page => (c'.cmt page).pt) =
        Function.update (fun page => (c.cmt page).pt) v true := by
      funext page
      rw [h page, Function.update_apply]
    rw [residentPages, residentPages, hsame, hset]
    split <;> omega

/-! ## Section 2: Operations that leave the use alone -/

@[simp] theorem Hot.maxCachedHotTpages_placeGrain (h : Hot) (lpa : Nat) (ppa : Option Nat)
    (keyFp : UInt32) (cnt : Nat) :
    (h.placeGrain lpa ppa keyFp cnt).maxCachedHotTpages = h.maxCachedHotTpages := by
  unfold Hot.placeGrain
  dsimp only
  split
  · rfl
  · split
    · rfl
    · split
      · split <;> rfl
      · rfl

theorem Hot.maxCachedHotTpages_isHit (cfg : Settings) (h : Hot) (lpa : Nat) :
    (h.isHit cfg lpa).2.maxCachedHotTpages = h.maxCachedHotTpages := by
  unfold Hot.isHit
  split
  · rfl
  · dsimp only
    split
    · exact h.maxCachedHotTpages_rehashDrain 4
    · rfl

theorem Hot.maxCachedHotTpages_rehashTick (h : Hot) :
    h.rehashTick.maxCachedHotTpages = h.maxCachedHotTpages := by
  have hdrain := h.maxCachedHotTpages_rehashDrain 1
  unfold Hot.rehashDrain at hdrain
  split at hdrain
  · next hidle =>
    have hphase : h.phase = .idle := of_decide_eq_true hidle
    unfold Hot.rehashTick
    rw [hphase]
  · exact hdrain

/-- A promotion fills the hot table and leaves both sizes alone. -/
theorem SameUse.promoteHot (s : Store) (page : Nat) : SameUse s (s.promoteHot page) := by
  apply (SameResidence.promoteHot s page).sameUse
  have hplace : ∀ (is : List Nat) (h : Hot), (is.foldl (fun hot i =>
      if (s.cold.memTable (page * 512 + i)).ppa.isSome ∧ 1 ≤ s.cold.cntMap (page * 512 + i) then
        hot.placeGrain (page * 512 + i) (s.cold.memTable (page * 512 + i)).ppa
          (s.cold.memTable (page * 512 + i)).keyFp (s.cold.cntMap (page * 512 + i))
      else hot) h).maxCachedHotTpages = h.maxCachedHotTpages := by
    intro is
    induction is with
    | nil => exact fun _ => rfl
    | cons i is ih =>
      intro h
      rw [List.foldl_cons, ih]
      split
      · exact h.maxCachedHotTpages_placeGrain ..
      · rfl
  unfold Store.promoteHot
  dsimp only
  split
  -- A rehash is going on: it is drained a little, and nothing is promoted.
  · exact s.hot.maxCachedHotTpages_rehashDrain 8
  · split
    · rfl
    · split
      · exact s.hot.maxCachedHotTpages_rehashDrain 8
      · exact hplace _ _

theorem popInvariant_sameUse (s₀ : Store) : PopInvariant cfg (SameUse s₀) where
  promote page h := h.trans (.promoteHot _ page)
  pop {s} victim lru h := by
    refine h.trans ⟨fun page => ?_, rfl, rfl, rfl⟩
    show ((s.cold.setCmt victim { s.cold.cmt victim with lruPtr := none }).cmt page).pt = _
    rw [Cold.cmt_setCmt]
    split
    · next hp => rw [hp]
    · rfl
  count _ h := ⟨h.pt, h.nrCachedTpages, h.maxCachedTpages, h.maxCachedHotTpages⟩

theorem accessInvariant_sameUse (s₀ : Store) : AccessInvariant cfg (SameUse s₀) where
  hot {s} lpa h := h.trans ⟨fun _ => rfl, rfl, rfl, s.hot.maxCachedHotTpages_isHit cfg lpa⟩
  grain lpa h := h.trans ((SameResidence.coldGrainAccess _ lpa).sameUse rfl)
  touch lpa h := h.trans ((SameResidence.touch cfg _ lpa).sameUse rfl)
  load {s s'} lpa h hl := by
    refine h.trans ((SameResidence.load hl).sameUse ?_)
    unfold Store.load at hl
    dsimp only at hl
    split at hl
    · cases hl
    · cases hl
      rfl

/-- Collections change neither residence nor sizes. -/
theorem gcInvariant_sameUse (c₀ : Cold) (h₀ : Hot) :
    GcInvariant (fun _ => True) fun c h => SameResidence c₀ c ∧ h = h₀ where
  setTPpa _ _ h := ⟨h.1.trans (SameResidence.setCmt _ _ rfl rfl rfl), h.2⟩
  written page ppa h := ⟨h.1.trans (SameResidence.written _ page ppa), h.2⟩
  grain lpa h := ⟨h.1.trans (SameResidence.coldGrainAccess _ lpa), h.2⟩
  update lpa _ _ h := ⟨h.1.trans (SameResidence.update _ lpa _), h.2⟩
  relocate lpa ppa _ h := ⟨h.1.trans (SameResidence.relocate _ lpa ppa), h.2⟩

theorem SameUse.writeBack {s s' : Store} {victim : Nat} (hw : s.writeBack cfg victim = some s') :
    SameUse s s' := by
  unfold Store.writeBack at hw
  split at hw
  · obtain ⟨hcold, hhot⟩ := (gcInvariant_sameUse s.cold s.hot).writeTpage ⟨.refl _, rfl⟩ hw
    exact hcold.sameUse (by rw [hhot])
  · cases hw
    exact .refl _

/-! ## Section 3: One call of `list_up` -/

/-- The pages a rebalance would take from the cold cache. -/
def Store.pagesTaken (cfg : Settings) (s : Store) : Rebalance → Nat
  | .keep | .shrinkHot => 0
  | .expandHot =>
    if s.cold.maxCachedTpages ≤ cfg.chunkTpages + cfg.chunkTpages - 1 ∨
        cfg.hotTpagesCap < s.hot.maxCachedHotTpages + cfg.chunkTpages then 0
    else cfg.chunkTpages
  | .expandKey =>
    if s.cold.maxCachedTpages ≤ cfg.chunkTpages + cfg.keyChunkPages - 1 then 0
    else cfg.keyChunkPages

theorem SameUse.pagesTaken {s s' : Store} (h : SameUse s s') (choice : Rebalance) :
    s'.pagesTaken cfg choice = s.pagesTaken cfg choice := by
  unfold Store.pagesTaken
  rw [h.maxCachedTpages, h.maxCachedHotTpages]

/-- What happens between the eviction and the end of a call. -/
structure Rebalanced (cfg : Settings) (choice : Rebalance) (s s' : Store) : Prop where
  pt : ∀ page, (s'.cold.cmt page).pt = (s.cold.cmt page).pt
  nrCachedTpages : s'.cold.nrCachedTpages = s.cold.nrCachedTpages
  capacity : 0 < s.cold.maxCachedTpages → 0 < s'.cold.maxCachedTpages
  kept : s.pagesTaken cfg choice = 0 → s.cold.maxCachedTpages ≤ s'.cold.maxCachedTpages ∧
    s'.cold.maxCachedTpages + s'.hot.maxCachedHotTpages =
      s.cold.maxCachedTpages + s.hot.maxCachedHotTpages

/-- What leaves the use alone is a rebalance that takes nothing. -/
theorem SameUse.rebalanced {s s' : Store} (h : SameUse s s') (choice : Rebalance) :
    Rebalanced cfg choice s s' where
  pt := h.pt
  nrCachedTpages := h.nrCachedTpages
  capacity hpos := by rwa [h.maxCachedTpages]
  kept _ := by
    rw [h.maxCachedTpages, h.maxCachedHotTpages]
    exact ⟨Nat.le_refl _, rfl⟩

theorem SameUse.then {choice : Rebalance} {s₁ s₂ s₃ : Store} (h : SameUse s₁ s₂)
    (hr : Rebalanced cfg choice s₂ s₃) : Rebalanced cfg choice s₁ s₃ where
  pt page := (hr.pt page).trans (h.pt page)
  nrCachedTpages := hr.nrCachedTpages.trans h.nrCachedTpages
  capacity hpos := hr.capacity (by rwa [h.maxCachedTpages])
  kept hzero := by
    have hkept := hr.kept ((h.pagesTaken choice).trans hzero)
    rwa [h.maxCachedTpages, h.maxCachedHotTpages] at hkept

/-- A rebalance resizes the two caches only, and moves whole chunks between them. -/
theorem rebalanced_rebalance (s : Store) (choice : Rebalance) :
    Rebalanced cfg choice s (s.rebalance cfg choice) := by
  have hcmt := @rebalance_cmt cfg s choice
  refine ⟨fun page => by rw [hcmt], ?_, fun hpos => ?_, fun hzero => ?_⟩
  · unfold Store.rebalance
    cases choice with
    | keep => rfl
    | expandHot | expandKey | shrinkHot =>
      dsimp only
      split <;> rfl
  · unfold Store.rebalance
    have hchunk := cfg.chunkTpages_pos
    cases choice with
    | keep => exact hpos
    | expandHot | expandKey | shrinkHot =>
      dsimp only
      split
      · exact hpos
      · dsimp only
        omega
  -- Nothing is taken: the guard of the operation failed, or the chunk has no pages.
  · unfold Store.pagesTaken at hzero
    unfold Store.rebalance
    have hchunk := cfg.chunkTpages_pos
    cases choice with
    | keep => exact ⟨Nat.le_refl _, rfl⟩
    | expandHot =>
      dsimp only at hzero ⊢
      split at hzero
      · next hguard =>
        rw [if_pos hguard]
        exact ⟨Nat.le_refl _, rfl⟩
      · omega
    | expandKey =>
      dsimp only at hzero ⊢
      split at hzero
      · next hguard =>
        rw [if_pos hguard]
        exact ⟨Nat.le_refl _, rfl⟩
      · split
        · exact ⟨Nat.le_refl _, rfl⟩
        · dsimp only
          rw [hzero, Nat.sub_zero]
          exact ⟨Nat.le_refl _, rfl⟩
    | shrinkHot =>
      dsimp only
      split
      · exact ⟨Nat.le_refl _, rfl⟩
      · next hguard =>
        -- the hot table keeps more than the chunk it gives away
        dsimp only
        rw [Hot.maxCachedHotTpages_rehashDrainAll]
        show _ ∧ s.cold.maxCachedTpages + cfg.chunkTpages +
          (s.hot.maxCachedHotTpages - cfg.chunkTpages) = _
        omega

/-- While a rehash goes on there is no rebalance. -/
theorem rebalanced_tryRebalance (s : Store) (choice : Rebalance) :
    Rebalanced cfg choice s (s.tryRebalance cfg choice) := by
  unfold Store.tryRebalance
  split
  · exact rebalanced_rebalance s choice
  · apply SameUse.rebalanced
    exact ⟨fun _ => rfl, rfl, rfl, s.hot.maxCachedHotTpages_rehashDrain 48⟩

/-- Behind an eviction: the ghost mark, and a rebalance at every 64th. -/
theorem rebalanced_afterEvict (s : Store) (victim : Nat) (choice : Rebalance) :
    Rebalanced cfg choice s (s.afterEvict cfg victim choice) := by
  have hmark : ∀ n h, h.maxCachedHotTpages = s.hot.maxCachedHotTpages →
      SameUse s { s with
        cold := { s.cold.setCmt victim { s.cold.cmt victim with ghostMark := true } with
          rebalanceEvictCnt := n }
        hot := h } := by
    intro n h hh
    refine ⟨fun page => ?_, rfl, rfl, hh⟩
    show ((s.cold.setCmt victim { s.cold.cmt victim with ghostMark := true }).cmt page).pt = _
    rw [Cold.cmt_setCmt]
    -- Only a build with ghost keys marks the victim and counts the eviction.
    split
    · next hp => rw [hp]
    · rfl
  unfold Store.afterEvict
  split
  · dsimp only
    split
    · split
      · exact (hmark (s.cold.rebalanceEvictCnt + 1) s.hot rfl).then
          (rebalanced_tryRebalance _ choice)
      · exact (hmark (s.cold.rebalanceEvictCnt + 1) s.hot rfl).rebalanced choice
    · exact (hmark s.cold.rebalanceEvictCnt _
        (s.hot.maxCachedHotTpages_rehashDrain 16)).rebalanced choice
  · exact (SameUse.refl s).rebalanced choice

/-- The victim is resident. -/
theorem popVictim_cases {n : Nat} {s s' : Store} {victim : Nat}
    (he : popVictim cfg s n = some (victim, s')) :
    SameUse s s' ∧ (s.cold.cmt victim).pt = true := by
  have hsame := (popInvariant_sameUse s).popVictim (.refl s) he
  refine ⟨hsame, ?_⟩
  rw [← hsame.pt]
  clear hsame
  induction n generalizing s with
  | zero => cases he
  | succ n ih =>
    simp only [popVictim] at he
    split at he
    · cases he
    · next v lru _ =>
      split at he
      · next hres =>
        cases he
        show (((s.promotePicked cfg).cold.setCmt victim _).cmt victim).pt = true
        rw [Cold.cmt_setCmt, if_pos rfl]
        unfold Cmt.isResident at hres
        exact (Bool.and_eq_true_iff.mp hres).1
      · exact ih he

/-- A full cache loses one page before the rebalance. -/
theorem evict_cases {s s' : Store} {choice : Rebalance} {rc : Bool}
    (he : s.evict cfg choice = some (rc, s')) :
    ∃ victim s₁, (s.cold.cmt victim).pt = true ∧
      (∀ page, (s₁.cold.cmt page).pt = if page = victim then false else (s.cold.cmt page).pt) ∧
      s₁.cold.nrCachedTpages = s.cold.nrCachedTpages - 1 ∧
      s₁.cold.maxCachedTpages = s.cold.maxCachedTpages ∧
      s₁.hot.maxCachedHotTpages = s.hot.maxCachedHotTpages ∧
      Rebalanced cfg choice s₁ s' := by
  unfold Store.evict at he
  simp only [Option.bind_eq_bind, Option.bind_eq_some_iff, Option.pure_def, Option.some.injEq,
    Prod.mk.injEq] at he
  obtain ⟨⟨victim, s₁⟩, hpop, s₂, hw, -, rfl⟩ := he
  obtain ⟨hsame, hpt⟩ := popVictim_cases hpop
  have hback := SameUse.writeBack hw
  -- The write-back leaves the use alone; the pop unloads the victim.
  refine ⟨victim, s₂, hpt, fun page => ?_, ?_, ?_, ?_, rebalanced_afterEvict s₂ victim choice⟩
  · rw [hback.pt]
    show ((s₁.cold.setCmt victim { s₁.cold.cmt victim with pt := false }).cmt page).pt = _
    rw [Cold.cmt_setCmt]
    split
    · rfl
    · exact hsame.pt page
  · rw [hback.nrCachedTpages]
    exact congrArg (· - 1) hsame.nrCachedTpages
  · rw [hback.maxCachedTpages]
    exact hsame.maxCachedTpages
  · rw [hback.maxCachedHotTpages]
    exact hsame.maxCachedHotTpages

/-- One page becomes resident and is counted. -/
theorem makeResident_cases (s : Store) (page : Nat) :
    (∀ p, ((s.makeResident page).cold.cmt p).pt = if p = page then true else (s.cold.cmt p).pt) ∧
      (s.makeResident page).cold.nrCachedTpages = s.cold.nrCachedTpages + 1 ∧
      (s.makeResident page).cold.maxCachedTpages = s.cold.maxCachedTpages ∧
      (s.makeResident page).hot.maxCachedHotTpages = s.hot.maxCachedHotTpages := by
  refine ⟨fun p => ?_, rfl, rfl, rfl⟩
  show ((s.cold.setCmt page _).cmt p).pt = _
  rw [Cold.cmt_setCmt]
  split <;> rfl

/-! ## Section 4: The invariant -/

structure Bounded (cfg : Settings) (s : Store) : Prop where
  inRange : ∀ page, (s.cold.cmt page).pt = true → page < cfg.nrValidTpages
  counted : residentPages cfg s.cold ≤ s.cold.nrCachedTpages
  within : s.cold.nrCachedTpages ≤ s.cold.maxCachedTpages
  capacity : 0 < s.cold.maxCachedTpages
  /-- No page of the budget gets lost. -/
  budget : s.cold.maxCachedTpages + s.hot.maxCachedHotTpages =
    cfg.maxCachedTpages + cfg.maxCachedHotTpages

theorem Bounded.congr {s s' : Store} (hb : Bounded cfg s) (h : SameUse s s') : Bounded cfg s' where
  inRange page := by
    rw [h.pt]
    exact hb.inRange page
  counted := by
    rw [residentPages_congr h.pt, h.nrCachedTpages]
    exact hb.counted
  within := by
    rw [h.nrCachedTpages, h.maxCachedTpages]
    exact hb.within
  capacity := by
    rw [h.maxCachedTpages]
    exact hb.capacity
  budget := by
    rw [h.maxCachedTpages, h.maxCachedHotTpages]
    exact hb.budget

/-- A `list_up` that takes no pages from the cold cache keeps the bound. -/
theorem Bounded.listUp {s s' : Store} {lpa : Nat} {choice : Rebalance} {rc : Bool}
    (hb : Bounded cfg s) (hr : dIdx lpa < cfg.nrValidTpages)
    (hl : s.listUp cfg lpa choice = some (rc, s')) (hzero : s.pagesTaken cfg choice = 0) :
    Bounded cfg s' := by
  unfold Store.listUp at hl
  obtain ⟨⟨rc', s₁⟩, he, hm⟩ := Option.map_eq_some_iff.mp hl
  cases hm
  obtain ⟨hpt', hnr', hmax', hhot'⟩ := makeResident_cases s₁ (dIdx lpa)
  have hload := @residentPages_load cfg _ _ _ hpt'
  split at he
  -- Full: one page leaves before the new one comes.
  · next hfull =>
    obtain ⟨victim, s₀, hv, hpt, hnr, hmax, hhot, hreb⟩ := evict_cases he
    have hout := residentPages_unload (hb.inRange victim hv) hv hpt
    have hsame := @residentPages_congr cfg _ _ hreb.pt
    have htaken : s₀.pagesTaken cfg choice = 0 := by
      unfold Store.pagesTaken at hzero ⊢
      rw [hmax, hhot]
      exact hzero
    obtain ⟨hgrow, hsum⟩ := hreb.kept htaken
    have hpos := hb.capacity
    have hle : s.cold.maxCachedTpages ≤ s.cold.nrCachedTpages := of_decide_eq_true hfull
    have hwithin := hb.within
    have hcounted := hb.counted
    have hbudget := hb.budget
    have hnrb := hreb.nrCachedTpages
    refine ⟨fun page hp => ?_, by omega, by omega, by omega, by omega⟩
    rw [hpt'] at hp
    split at hp
    · next heq => exact heq ▸ hr
    · rw [hreb.pt, hpt] at hp
      split at hp
      · cases hp
      · exact hb.inRange page hp
  · next hfull =>
    cases he
    -- Not full: there is room for one more.
    have hlt : s.cold.nrCachedTpages < s.cold.maxCachedTpages :=
      Nat.lt_of_not_le fun hle => hfull (decide_eq_true hle)
    have hcounted := hb.counted
    have hpos := hb.capacity
    have hbudget := hb.budget
    refine ⟨fun page hp => ?_, by omega, by omega, by omega, by omega⟩
    rw [hpt'] at hp
    split at hp
    · next heq => exact heq ▸ hr
    · exact hb.inRange page hp

/-- The outcome of the rebalance that a step may come to. -/
def Label.rebalance : Label → Rebalance
  | .getPass choice | .wbPass choice => choice
  | _ => .keep

/-- The step calls `list_up` once, or leaves residence and sizes alone. -/
def UsedBy (cfg : Settings) (choice : Rebalance) (s₀ s : Store) : Prop :=
  SameUse s₀ s ∨ ∃ s₁ lpa rc s₂, SameUse s₀ s₁ ∧ dIdx lpa < cfg.nrValidTpages ∧
    s₁.listUp cfg lpa choice = some (rc, s₂) ∧ SameUse s₂ s

theorem UsedBy.trans {choice : Rebalance} {s₀ s s' : Store} (h : UsedBy cfg choice s₀ s)
    (hs : SameUse s s') : UsedBy cfg choice s₀ s' := by
  rcases h with h | ⟨s₁, lpa, rc, s₂, h₁, hr, hl, h₂⟩
  · exact .inl (h.trans hs)
  · exact .inr ⟨s₁, lpa, rc, s₂, h₁, hr, hl, h₂.trans hs⟩

theorem accessInvariant_usedBy (choice : Rebalance) (s₀ : Store) :
    AccessInvariant cfg (UsedBy cfg choice s₀) where
  hot lpa h := h.trans ((accessInvariant_sameUse _).hot lpa (.refl _))
  grain lpa h := h.trans ((@accessInvariant_sameUse cfg _).grain lpa (.refl _))
  touch lpa h := h.trans ((accessInvariant_sameUse _).touch lpa (.refl _))
  load lpa h hl := h.trans ((@accessInvariant_sameUse cfg _).load lpa (.refl _) hl)

theorem UsedBy.wbPath {realKeys : Nat → Key} {ht : DHtable} {s₀ s : Store} {e : WbEntry}
    {choice : Rebalance} {ex : WbExit} (hw : WbPath cfg realKeys ht s₀ e choice s ex) :
    UsedBy cfg choice s₀ s := by
  refine hw.preserves (accessInvariant_usedBy choice s₀) (fun s₁ rc s' hs _ hl => ?_)
    (.inl (.refl s₀))
  have hsame := (accessInvariant_sameUse s₀).reachesWbList (.refl s₀) hs
  exact .inr ⟨s₁, _, rc, s', hsame, dIdx_getLpa_lt cfg _, hl, .refl s'⟩

theorem UsedBy.getPath {f : Ftl} {r : Request} {choice : Rebalance} {s : Store} {ex : GetExit}
    (hg : GetPath cfg f r choice s ex) : UsedBy cfg choice f.store s :=
  hg.preserves (accessInvariant_usedBy choice f.store)
    (fun rc s' _ hl => .inr ⟨f.store, _, rc, s', .refl _, dIdx_getLpa_lt cfg _, hl, .refl s'⟩)
    (.inl (.refl _))

theorem install_sameUse {f : Ftl} {m : MapUpdate} {s : Store} {e : WbEntry} {ppa : Nat} :
    SameUse s (f.install cfg m s e ppa).store :=
  (wbInstall_residence s _ _ _).sameUse rfl

/-- A step changes the use by at most one `list_up`, with its own rebalance. -/
theorem Step.usedBy {f f' : Ftl} {a : Label} (h : Step cfg hs f a f') :
    UsedBy cfg a.rebalance f.store f'.store := by
  -- An assignment may collect, which touches neither cache.
  have hassign : a = .assign → UsedBy cfg a.rebalance f.store f'.store := fun ha => by
    subst ha
    obtain ⟨hcold, hhot⟩ := (gcInvariant_sameUse f.store.cold f.store.hot).assign
      (fun _ _ _ _ => trivial) ⟨.refl _, rfl⟩ h
    exact .inl (hcold.sameUse (by rw [hhot]))
  cases h with
  | getPass choice r s ex hp hd =>
    have hs : UsedBy cfg choice f.store s := .getPath (.of_pass hd)
    cases ex <;> exact hs
  | wbAgain choice m e s e' hp hc hw | wbParked choice m e s e' hp hc hw =>
    exact .wbPath (WbPath.of_pass hw).2
  | wbUpdate choice m e s e' ppa hp hc hw hppa =>
    have hs : UsedBy cfg choice f.store s := .wbPath (WbPath.of_pass hw).2
    apply UsedBy.trans (hs.trans ?_) install_sameUse
    have hcold := wbInvalidateOld_cold cfg s (getLpa cfg e'.hParams)
    have hhot := wbInvalidateOld_hot cfg s (getLpa cfg e'.hParams)
    exact ⟨fun page => by rw [hcold], by rw [hcold], by rw [hcold], by rw [hhot]⟩
  | wbDirectUpdate choice m e s e' ppa hp hc hw hppa =>
    exact (UsedBy.wbPath (WbPath.of_pass hw).2).trans install_sameUse
  | assignEntry | assignPage | endAssign => exact hassign rfl
  | promote page hp => exact .inl (.promoteHot f.store page)
  | rehashTick hp => exact .inl ⟨fun _ => rfl, rfl, rfl, f.store.hot.maxCachedHotTpages_rehashTick⟩
  | flush | rehashBegin => exact .inl ⟨fun _ => rfl, rfl, rfl, rfl⟩
  | get | resume | setFull | setInsert | pickRetry | pickMaster => exact .inl (.refl _)

/-- The rebalance of the step takes no page from the cold cache. -/
def sparesCold (cfg : Settings) (f : Ftl) (a : Label) : Bool :=
  f.store.pagesTaken cfg a.rebalance = 0

/-- A step that takes no cold page keeps the bound. -/
theorem Bounded.step {f f' : Ftl} {a : Label} (hb : Bounded cfg f.store)
    (hok : sparesCold cfg f a = true) (h : Step cfg hs f a f') : Bounded cfg f'.store := by
  rcases h.usedBy with hsame | ⟨s₁, lpa, rc, s₂, h₁, hr, hl, h₂⟩
  · exact hb.congr hsame
  · have hzero : s₁.pagesTaken cfg a.rebalance = 0 :=
      (h₁.pagesTaken _).trans (of_decide_eq_true hok)
    exact ((hb.congr h₁).listUp hr hl hzero).congr h₂

end AggreKV.HashKv
