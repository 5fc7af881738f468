import AggreKV.LsmTree.PageManager

/-! # Where the pages of a partition come from

    The `n`-th page of a partition is the `n`-th page counted from the
    superblock after the first one of its range, until the range ends.

    * `Cursor`: the write pointers of a partition that has handed out `n` pages.
    * `getActiveSblk_spec`: the search stops at superblock `n / _PPS`.
    * `PartOrdered`: what holds of a partition between two calls. -/

namespace AggreKV.LsmTree

variable {cfg : Settings}

/-! ## Section 1: Ranges -/

/-- First superblock of a partition, kept back as `reserve_sblk`. -/
def lo (cfg : Settings) (type : PartType) : Nat := (initMaster cfg type).minSblkIdx

def hi (cfg : Settings) (type : PartType) : Nat := (initMaster cfg type).maxSblkIdx

theorem ranges_disjoint {t t' : PartType} {i : Nat} (hne : t ≠ t') (h : lo cfg t ≤ i)
    (h' : i ≤ hi cfg t) (hl : lo cfg t' ≤ i) : ¬ i ≤ hi cfg t' := by
  intro hh
  cases t <;> cases t' <;> simp [lo, hi, initMaster] at * <;> omega

/-! ## Section 2: The write pointers -/

/-- The superblock of the next page of a partition that has handed out `n`. -/
def nextSblk (cfg : Settings) (type : PartType) (n : Nat) : Nat := lo cfg type + 1 + n / cfg.pps

/-- The write pointer of superblock `i` after `n` pages. -/
def wpAt (cfg : Settings) (type : PartType) (n i : Nat) : Nat :=
  if i = lo cfg type then 0 else min cfg.pps (n - (i - lo cfg type - 1) * cfg.pps)

/-- The table of a partition that has handed out `n` pages. -/
structure Cursor (cfg : Settings) (e : Env) (type : PartType) (n : Nat) : Prop where
  minIdx : (e.sblkMaster type).minSblkIdx = lo cfg type
  maxIdx : (e.sblkMaster type).maxSblkIdx = hi cfg type
  reserve : (e.sblkMaster type).reserveSblk = lo cfg type
  wp : ∀ i, lo cfg type ≤ i → i ≤ hi cfg type → (e.sblk i).wpOfft = wpAt cfg type n i

theorem lo_lt_nextSblk (type : PartType) (n : Nat) : lo cfg type < nextSblk cfg type n :=
  Nat.lt_of_lt_of_le (Nat.lt_succ_self _) (Nat.le_add_right _ _)

theorem wpAt_nextSblk (type : PartType) (n : Nat) :
    wpAt cfg type n (nextSblk cfg type n) = n % cfg.pps := by
  have hd := Nat.div_add_mod n cfg.pps
  have hm := Nat.mod_lt n cfg.pps_pos
  have hsub : nextSblk cfg type n - lo cfg type - 1 = n / cfg.pps := by
    unfold nextSblk
    rw [Nat.add_assoc, Nat.add_sub_cancel_left, Nat.add_sub_cancel_left]
  unfold wpAt
  rw [if_neg (lo_lt_nextSblk type n).ne', hsub, Nat.mul_comm (n / cfg.pps)]
  omega

/-- A superblock past the reserve is full exactly when it lies before the next one. -/
theorem wpAt_full {type : PartType} {n i : Nat} (hi : lo cfg type < i) :
    cfg.pps ≤ wpAt cfg type n i ↔ i < nextSblk cfg type n := by
  have hpos := cfg.pps_pos
  obtain ⟨k, rfl⟩ : ∃ k, i = lo cfg type + 1 + k := ⟨i - lo cfg type - 1, by omega⟩
  have hsub : lo cfg type + 1 + k - lo cfg type - 1 = k := by omega
  unfold wpAt nextSblk
  rw [if_neg (by omega), hsub, le_min_iff, Nat.add_lt_add_iff_left, ← Nat.succ_le_iff,
    Nat.le_div_iff_mul_le hpos, Nat.succ_mul]
  omega

/-- Handing out one more page moves only the pointer of the next superblock. -/
theorem wpAt_succ {type : PartType} {n i : Nat} (hl : lo cfg type ≤ i) :
    wpAt cfg type (n + 1) i =
      if i = nextSblk cfg type n then n % cfg.pps + 1 else wpAt cfg type n i := by
  have hd := Nat.div_add_mod n cfg.pps
  have hm := Nat.mod_lt n cfg.pps_pos
  by_cases h0 : i = lo cfg type
  · rw [if_neg (h0.trans_lt (lo_lt_nextSblk type n)).ne]
    simp [wpAt, h0]
  obtain ⟨k, rfl⟩ : ∃ k, i = lo cfg type + 1 + k := ⟨i - lo cfg type - 1, by omega⟩
  have hsub : lo cfg type + 1 + k - lo cfg type - 1 = k := by omega
  simp only [wpAt, nextSblk, if_neg h0, hsub, Nat.add_left_cancel_iff]
  split
  · next h =>
      subst h
      rw [Nat.mul_comm (n / cfg.pps)]
      omega
  · next h =>
      -- a superblock before the next one stays full, one after it stays empty
      rcases Nat.lt_or_gt_of_ne h with h | h
      · have : (k + 1) * cfg.pps ≤ n := (Nat.le_div_iff_mul_le cfg.pps_pos).mp h
        rw [Nat.succ_mul] at this
        omega
      · have : n < k * cfg.pps := (Nat.div_lt_iff_lt_mul cfg.pps_pos).mp h
        omega

theorem eligible_iff {e : Env} {type : PartType} {n i : Nat} (hc : Cursor cfg e type n)
    (hl : lo cfg type ≤ i) (hh : i ≤ hi cfg type) :
    eligible cfg e (e.sblkMaster type) i = true ↔ nextSblk cfg type n ≤ i := by
  unfold eligible checkFull
  rw [hc.wp i hl hh, hc.reserve]
  by_cases h0 : i = lo cfg type
  · have : ¬ nextSblk cfg type n ≤ lo cfg type := (lo_lt_nextSblk type n).not_ge
    simp [h0, this]
  · have hfull : cfg.pps ≤ wpAt cfg type n i ↔ _ := wpAt_full (by omega)
    simp only [ne_eq, h0, not_false_eq_true, decide_true, Bool.true_and, Bool.not_eq_true',
      decide_eq_false_iff_not]
    rw [hfull, Nat.not_lt]

/-! ## Section 3: The search -/

theorem searchSblk_some {e : Env} {m : SblkMaster} {b : Nat} : ∀ {n i : Nat},
    searchSblk cfg e m i n = some b →
      i ≤ b ∧ b < i + n ∧ eligible cfg e m b = true ∧
        ∀ j, i ≤ j → j < b → ¬ eligible cfg e m j = true
  | 0, _, h => by simp [searchSblk] at h
  | n + 1, i, h => by
      unfold searchSblk at h
      split at h
      · next he =>
          cases h
          exact ⟨by omega, by omega, he, fun j h1 h2 => absurd h1 (by omega)⟩
      · next he =>
          obtain ⟨h1, h2, h3, h4⟩ := searchSblk_some h
          refine ⟨by omega, by omega, h3, fun j hj hjb => ?_⟩
          rcases Nat.eq_or_lt_of_le hj with rfl | hj
          · exact he
          · exact h4 j hj hjb

/-- What a successful `lsm_get_active_sblk` returns and changes. -/
theorem getActiveSblk_spec {e e' : Env} {type : PartType} {n b : Nat}
    (hc : Cursor cfg e type n)
    (hstart : lo cfg type ≤ (e.sblkMaster type).activeSblk.getD (lo cfg type))
    (hle : (e.sblkMaster type).activeSblk.getD (lo cfg type) ≤ nextSblk cfg type n)
    (h : getActiveSblk cfg e type = some (b, e')) :
    b = nextSblk cfg type n ∧ b ≤ hi cfg type ∧ ∃ is, (∀ i ∈ is, i ≤ hi cfg type) ∧
      e' = (e.touch is).setMaster type { e.sblkMaster type with
        activeSblk := some b
        freeSblkCnt := if n % cfg.pps = 0 then (e.sblkMaster type).freeSblkCnt - 1
          else (e.sblkMaster type).freeSblkCnt } := by
  simp only [getActiveSblk, hc.minIdx, hc.maxIdx] at h
  split at h
  · cases h
  · next a ha =>
      obtain ⟨h1, h2, h3, h4⟩ := searchSblk_some ha
      have hhi : a ≤ hi cfg type := by omega
      have hb : nextSblk cfg type n ≤ a := (eligible_iff hc (hstart.trans h1) hhi).mp h3
      -- The search passes only what is not eligible, so it stops at the next superblock.
      have hab : a = nextSblk cfg type n := by
        by_contra hne
        have hlt : nextSblk cfg type n < a := by omega
        exact h4 _ hle hlt ((eligible_iff hc (lo_lt_nextSblk type n).le (by omega)).mpr
          (Nat.le_refl _))
      have hwp : (e.sblk a).wpOfft = n % cfg.pps := by
        rw [hc.wp a (by omega) hhi, hab, wpAt_nextSblk]
      simp only [Option.some.injEq, Prod.mk.injEq] at h
      obtain ⟨rfl, rfl⟩ := h
      refine ⟨hab, hhi, _, fun i hi => ?_, by simp only [Env.touch, hwp, hc.minIdx, hc.maxIdx]; rfl⟩
      have := (List.mem_range'_1.mp (List.mem_filter.mp hi).1).2
      omega

/-- A search changes no write pointer and no range. -/
theorem Cursor.search {e : Env} {t t' : PartType} {n : Nat} {is : List Nat} {a : Option Nat}
    {f : UInt32} (hc : Cursor cfg e t n) :
    Cursor cfg ((e.touch is).setMaster t'
      { e.sblkMaster t' with activeSblk := a, freeSblkCnt := f }) t n := by
  by_cases h : t = t'
  · subst h
    constructor
    · simpa [Env.setMaster] using hc.minIdx
    · simpa [Env.setMaster] using hc.maxIdx
    · simpa [Env.setMaster] using hc.reserve
    · exact hc.wp
  · constructor
    · simpa [Env.setMaster, Env.touch, Function.update_of_ne h] using hc.minIdx
    · simpa [Env.setMaster, Env.touch, Function.update_of_ne h] using hc.maxIdx
    · simpa [Env.setMaster, Env.touch, Function.update_of_ne h] using hc.reserve
    · exact hc.wp

/-- Taking a page moves the cursor of its own partition by one. -/
theorem Cursor.take {e : Env} {t : PartType} {n b : Nat} (hc : Cursor cfg e t n)
    (hb : b = nextSblk cfg t n) :
    Cursor cfg ((e.touch [b]).setSblk b { e.sblk b with wpOfft := n % cfg.pps + 1 }) t (n + 1) := by
  refine ⟨hc.minIdx, hc.maxIdx, hc.reserve, fun i hl hh => ?_⟩
  rw [wpAt_succ hl]
  by_cases h : i = b
  · simp [Env.setSblk, h, ← hb]
  · rw [if_neg (hb ▸ h), ← hc.wp i hl hh]
    simp [Env.setSblk, Env.touch, Function.update_of_ne h]

/-- and leaves the cursor of the other one alone. -/
theorem Cursor.take_other {e : Env} {t t' : PartType} {n b : Nat} {blk : Superblock}
    (hc : Cursor cfg e t n) (hne : t' ≠ t) (hl : lo cfg t' ≤ b) (hh : b ≤ hi cfg t') :
    Cursor cfg ((e.touch [b]).setSblk b blk) t n := by
  refine ⟨hc.minIdx, hc.maxIdx, hc.reserve, fun i hli hhi => ?_⟩
  have hib : i ≠ b := by
    rintro rfl
    exact ranges_disjoint hne hl hh hli hhi
  rw [← hc.wp i hli hhi]
  simp [Env.setSblk, Env.touch, Function.update_of_ne hib]

/-! ## Section 4: One partition between two calls -/

/-- The page of a partition's `k`-th call. -/
def nthPage (cfg : Settings) (type : PartType) (k : Nat) : Nat :=
  ((lo cfg type + 1) * cfg.pps + k) % 4294967296

/-- The superblocks a partition has opened with `n` pages. -/
def openedCnt (cfg : Settings) (n : Nat) : Nat := (n + (cfg.pps - 1)) / cfg.pps

structure PartOrdered (cfg : Settings) (s : Alloc) (type : PartType) : Prop where
  cursor : Cursor cfg s.env type (s.out type).length
  reserve : s.page.reserve type = some (lo cfg type + 1)
  master : (s.env.sblkMaster type).activeSblk =
    some (nextSblk cfg type ((s.out type).length - 1))
  active : s.page.active type = if (s.out type).length = 0 then none
    else some (nextSblk cfg type ((s.out type).length - 1))
  inRange : nextSblk cfg type ((s.out type).length - 1) ≤ hi cfg type
  out : s.out type = (List.range (s.out type).length).map (nthPage cfg type)
  free : (s.env.sblkMaster type).freeSblkCnt + 1 +
    UInt32.ofNat (openedCnt cfg (s.out type).length) = (initMaster cfg type).freeSblkCnt

theorem openedCnt_succ (n : Nat) :
    openedCnt cfg (n + 1) = if n % cfg.pps = 0 then openedCnt cfg n + 1 else openedCnt cfg n := by
  have hpos := cfg.pps_pos
  have hd := Nat.div_add_mod n cfg.pps
  have hm := Nat.mod_lt n hpos
  have hsucc : openedCnt cfg (n + 1) = n / cfg.pps + 1 := by
    unfold openedCnt
    rw [show n + 1 + (cfg.pps - 1) = n + cfg.pps by omega, Nat.add_div_right _ hpos]
  rw [hsucc]
  unfold openedCnt
  split
  · next h0 =>
      rw [h0, Nat.add_zero] at hd
      rw [← hd, Nat.mul_div_cancel_left _ hpos, Nat.mul_add_div hpos,
        Nat.div_eq_of_lt (a := cfg.pps - 1) (by omega), Nat.add_zero]
  · next h0 =>
      symm
      rw [Nat.div_eq_iff hpos, Nat.succ_mul, Nat.mul_comm]
      omega

theorem sblkOfft2Ppa_nextSblk (type : PartType) (n : Nat) :
    sblkOfft2Ppa cfg (nextSblk cfg type n) (n % cfg.pps) = nthPage cfg type n := by
  have hd := Nat.div_add_mod n cfg.pps
  have hsum : (lo cfg type + 1 + n / cfg.pps) * cfg.pps + n % cfg.pps =
      (lo cfg type + 1) * cfg.pps + n := by
    rw [Nat.add_mul, Nat.mul_comm (n / cfg.pps)]
    omega
  unfold sblkOfft2Ppa nextSblk nthPage
  rw [hsum]

theorem nextSblk_pred_le (type : PartType) (n : Nat) :
    nextSblk cfg type (n - 1) ≤ nextSblk cfg type n :=
  Nat.add_le_add_left (Nat.div_le_div_right (Nat.sub_le _ _)) _

/-! ## Section 5: One call -/

/-- The tables after partition `type` has handed out its page number `n`. -/
def taken (cfg : Settings) (e : Env) (type : PartType) (n : Nat) (is : List Nat) : Env :=
  let b := nextSblk cfg type n
  let m := e.sblkMaster type
  (((e.touch is).setMaster type { m with
      activeSblk := some b
      freeSblkCnt := if n % cfg.pps = 0 then m.freeSblkCnt - 1 else m.freeSblkCnt }).touch
    [b]).setSblk b { e.sblk b with wpOfft := n % cfg.pps + 1 }

theorem getPageNum_spec {e e' : Env} {i ppa : Nat} (h : getPageNum cfg e i = some (ppa, e')) :
    ppa = sblkOfft2Ppa cfg i (e.sblk i).wpOfft ∧
      e' = (e.touch [i]).setSblk i { e.sblk i with wpOfft := (e.sblk i).wpOfft + 1 } := by
  unfold getPageNum at h
  split at h
  · cases h
  · cases h
    exact ⟨rfl, rfl⟩

/-- With a block that is not full no search runs, and `n` is inside that block. -/
theorem PartOrdered.no_search {s : Alloc} {type : PartType} (hp : PartOrdered cfg s type)
    (h : needsActive cfg s.env s.page type = false) :
    s.page.active type = some (nextSblk cfg type (s.out type).length) ∧
      (s.env.sblkMaster type).activeSblk = some (nextSblk cfg type (s.out type).length) ∧
      (s.out type).length % cfg.pps ≠ 0 ∧
      nextSblk cfg type (s.out type).length ≤ hi cfg type := by
  obtain ⟨n, hn⟩ : ∃ n, n = (s.out type).length := ⟨_, rfl⟩
  have hact := hp.active
  have hmaster := hp.master
  have hrange := hp.inRange
  have hc := hp.cursor
  rw [← hn] at hact hmaster hrange hc ⊢
  unfold needsActive at h
  rw [hact] at h
  by_cases h0 : n = 0
  · simp [h0] at h
  rw [if_neg h0] at h hact
  have hlo : lo cfg type < nextSblk cfg type _ := lo_lt_nextSblk type (n - 1)
  have hwp := hc.wp _ hlo.le hrange
  have hnf : ¬ cfg.pps ≤ wpAt cfg type n (nextSblk cfg type (n - 1)) := by
    have : checkFull cfg s.env (nextSblk cfg type (n - 1)) = false := h
    rwa [checkFull, hwp, decide_eq_false_iff_not] at this
  rw [wpAt_full hlo, Nat.not_lt] at hnf
  -- The active superblock is not full: the next page is in it.
  have heq := Nat.le_antisymm (nextSblk_pred_le type n) hnf
  rw [← heq]
  refine ⟨hact, hmaster, ?_, hrange⟩
  have hsucc : wpAt cfg type (n - 1 + 1) _ = _ := wpAt_succ hlo.le
  rw [show n - 1 + 1 = n by omega, if_pos rfl, heq, wpAt_nextSblk] at hsucc
  omega

theorem getPage_spec {s : Alloc} {type : PartType} {ppa : Nat} {e' : Env} {page' : Page}
    (hp : PartOrdered cfg s type) (h : getPage cfg s.env s.page type = some (ppa, e', page')) :
    nextSblk cfg type (s.out type).length ≤ hi cfg type ∧
      ppa = nthPage cfg type (s.out type).length ∧
      page' = { s.page with
        active := Function.update s.page.active type
          (some (nextSblk cfg type (s.out type).length)) } ∧
      ∃ is, (∀ i ∈ is, i ≤ hi cfg type) ∧ e' = taken cfg s.env type (s.out type).length is := by
  have hlo : lo cfg type < nextSblk cfg type _ := lo_lt_nextSblk type (s.out type).length
  unfold getPage at h
  obtain ⟨⟨i, e₁, page₁⟩, hfst, hsnd⟩ := Option.bind_eq_some_iff.mp h
  obtain ⟨⟨ppa₁, e₂⟩, hnum, heq⟩ := Option.map_eq_some_iff.mp hsnd
  cases heq
  obtain ⟨rfl, rfl⟩ := getPageNum_spec hnum
  cases hneed : needsActive cfg s.env s.page type with
  | false =>
      obtain ⟨hact, hmaster, hmod, hle⟩ := hp.no_search hneed
      rw [hneed, if_neg (by simp), hact] at hfst
      cases hfst
      have hwp := hp.cursor.wp _ hlo.le hle
      rw [wpAt_nextSblk] at hwp
      refine ⟨hle, by rw [hwp, sblkOfft2Ppa_nextSblk], ?_, [], by simp, ?_⟩
      · rw [← hact, Function.update_eq_self]
      · -- the search that did not run would have left the master as it is
        simp only [taken, if_neg hmod, ← hmaster, Env.setMaster, Env.touch, List.append_nil,
          Function.update_eq_self, hwp]
  -- The search runs and finds the next superblock.
  | true =>
      rw [hneed, if_pos rfl] at hfst
      obtain ⟨⟨b, e₃⟩, hsearch, heq⟩ := Option.map_eq_some_iff.mp hfst
      cases heq
      have hstart : (s.env.sblkMaster type).activeSblk.getD (lo cfg type) =
          nextSblk cfg type ((s.out type).length - 1) := by rw [hp.master]; rfl
      obtain ⟨rfl, hle, is, his, rfl⟩ := getActiveSblk_spec hp.cursor
        (by rw [hstart]; exact (lo_lt_nextSblk type _).le)
        (by rw [hstart]; exact nextSblk_pred_le type _) hsearch
      have hwp := hp.cursor.wp _ hlo.le hle
      rw [wpAt_nextSblk] at hwp
      refine ⟨hle, ?_, rfl, is, his, ?_⟩
      · simp only [Env.setMaster, Env.touch, hwp, sblkOfft2Ppa_nextSblk]
      · simp only [taken, Env.setMaster, Env.touch, hwp]

end AggreKV.LsmTree
