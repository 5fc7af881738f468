import AggreKV.LsmTree.PageOrder

/-! # Runs of the page allocator

    * `pageMachine_ordered`: both partitions are in order in every state of
      every run, so the pages come out in sequence, each once.
    * `page_allocation`: that sequence, the two counters that go wrong from
      the first initialisation on, and the index past the superblock table. -/

namespace AggreKV.LsmTree

variable {cfg : Settings}

/-! ## Section 1: Steps -/

theorem PartOrdered.getPage_self {s s' : Alloc} {type : PartType} (hp : PartOrdered cfg s type)
    (h : s.getPage cfg type = some s') : PartOrdered cfg s' type := by
  obtain ⟨⟨ppa, e, page⟩, hget, rfl⟩ := Option.map_eq_some_iff.mp h
  obtain ⟨hle, rfl, rfl, is, his, rfl⟩ := getPage_spec hp hget
  obtain ⟨n, hn⟩ : ∃ n, n = (s.out type).length := ⟨_, rfl⟩
  have hlen : ∀ ppa, (s.out type ++ [ppa]).length = n + 1 := fun ppa => by simp [hn]
  have hc := hp.cursor
  have hout := hp.out
  have hfree := hp.free
  rw [← hn] at hle hc hout hfree
  -- One page more is handed out, and a superblock is opened where one ends.
  constructor <;> simp only [← hn, Function.update_self, hlen]
  · exact hc.search.take rfl
  · exact hp.reserve
  · simp [taken, Env.setMaster, Env.setSblk, Env.touch]
  · simp
  · exact hle
  · rw [List.range_succ, List.map_append, ← hout, List.map_singleton]
  · rw [openedCnt_succ, ← hfree]
    simp only [taken, Env.setMaster, Env.setSblk, Env.touch, Function.update_self]
    split
    · rw [UInt32.ofNat_add]
      grind
    · rfl

/-- A call for one partition leaves the other as it was. -/
theorem PartOrdered.getPage_other {s s' : Alloc} {type type' : PartType}
    (hp : PartOrdered cfg s type) (hp' : PartOrdered cfg s type') (hne : type' ≠ type)
    (h : s.getPage cfg type = some s') : PartOrdered cfg s' type' := by
  obtain ⟨⟨ppa, e, page⟩, hget, rfl⟩ := Option.map_eq_some_iff.mp h
  obtain ⟨hle, rfl, rfl, is, his, rfl⟩ := getPage_spec hp hget
  have hlo : lo cfg type < nextSblk cfg type _ := lo_lt_nextSblk type (s.out type).length
  constructor <;> simp only [Function.update_of_ne hne]
  · exact hp'.cursor.search.take_other hne.symm hlo.le hle
  · exact hp'.reserve
  · simpa [taken, Env.setMaster, Env.setSblk, Env.touch, hne] using hp'.master
  · exact hp'.active
  · exact hp'.inRange
  · exact hp'.out
  · simpa [taken, Env.setMaster, Env.setSblk, Env.touch, hne] using hp'.free

/-! ## Section 2: Runs -/

/-- The states of a run: both partitions in order, and the one index past
    the table that `lsm_bm_init` writes. -/
structure Ordered (cfg : Settings) (s : Alloc) : Prop where
  parts : ∀ type, PartOrdered cfg s type
  mapFits : mapMax cfg < cfg.nos
  top : ∀ i ∈ s.env.touched, i ≤ cfg.nos
  past : cfg.nos ∈ s.env.touched

theorem hi_le_nos (h : mapMax cfg < cfg.nos) (type : PartType) : hi cfg type ≤ cfg.nos := by
  cases type with
  | map => exact h.le
  | data => exact Nat.le_refl _

theorem bmInit_cursor (type : PartType) : Cursor cfg (bmInit cfg) type 0 := by
  refine ⟨rfl, rfl, by cases type <;> rfl, fun i _ _ => ?_⟩
  simp [wpAt, bmInit]

/-- Both searches of `lsm_page_init` return the superblock after the reserve. -/
theorem pageInit_spec {page : Page} {e : Env} (h : pageInit cfg (bmInit cfg) = some (page, e)) :
    Ordered cfg ⟨e, page, fun _ => []⟩ := by
  unfold pageInit at h
  obtain ⟨⟨d, e₁⟩, hd, h⟩ := Option.bind_eq_some_iff.mp h
  obtain ⟨⟨m, e₂⟩, hm, h⟩ := Option.map_eq_some_iff.mp h
  simp only [Prod.mk.injEq] at h
  obtain ⟨rfl, rfl⟩ := h
  have hfirst : ∀ type, nextSblk cfg type 0 = lo cfg type + 1 := fun type => by simp [nextSblk]
  obtain ⟨rfl, hdle, is, his, he₁⟩ := getActiveSblk_spec (bmInit_cursor .data) (Nat.le_refl _)
    (lo_lt_nextSblk .data 0).le hd
  -- The data partition has taken its block, the map partition not yet.
  have hcur : ∀ type, Cursor cfg e₁ type 0 := fun type => he₁ ▸ (bmInit_cursor type).search
  have hnone : (e₁.sblkMaster .map).activeSblk = none := by rw [he₁]; rfl
  obtain ⟨rfl, hmle, js, hjs, he₂⟩ := getActiveSblk_spec (hcur .map) (by rw [hnone]; rfl)
    (by rw [hnone]; exact (lo_lt_nextSblk .map 0).le) hm
  have hcur₂ : ∀ type, Cursor cfg e₂ type 0 := fun type => he₂ ▸ (hcur type).search
  have hfits : mapMax cfg < cfg.nos := by
    have : lo cfg .data + 1 ≤ cfg.nos := hfirst .data ▸ hdle
    exact Nat.lt_of_succ_le (Nat.le_of_succ_le this)
  have hzero : openedCnt cfg 0 = 0 := by
    unfold openedCnt
    rw [Nat.zero_add, Nat.div_eq_of_lt (Nat.sub_lt cfg.pps_pos Nat.one_pos)]
  refine ⟨fun type => ?_, hfits, fun i hi => ?_, ?_⟩
  · -- each partition has its active block set by its own search, and one free block less
    have hmaster : (e₂.sblkMaster type).activeSblk = some (nextSblk cfg type 0) ∧
        (e₂.sblkMaster type).freeSblkCnt = (initMaster cfg type).freeSblkCnt - 1 := by
      rw [he₂, he₁]
      cases type <;> exact ⟨rfl, rfl⟩
    obtain ⟨hmin, hmax, hres, hwp⟩ := hcur₂ type
    refine ⟨⟨hmin, hmax, hres, hwp⟩, ?_, hmaster.1, rfl, ?_, rfl, ?_⟩
    · cases type <;> simp [hfirst]
    · cases type with
      | map => exact hmle
      | data => exact hdle
    · show (e₂.sblkMaster type).freeSblkCnt + 1 + UInt32.ofNat (openedCnt cfg 0) = _
      rw [hmaster.2, hzero]
      grind
  · have hdata := hi_le_nos hfits .data
    have hmap := hi_le_nos hfits .map
    rw [he₂, he₁] at hi
    simp only [Env.setMaster, Env.touch, bmInit, List.mem_append, List.mem_range'_1] at hi
    obtain (h | h) | h := hi
    · omega
    · exact (his i h).trans hdata
    · exact (hjs i h).trans hmap
  · rw [he₂, he₁]
    simp only [Env.setMaster, Env.touch, bmInit, List.mem_append, List.mem_range'_1]
    exact .inl (.inl (by omega))

/-- One call, of either partition. -/
theorem Ordered.getPage {s s' : Alloc} {type : PartType} (ho : Ordered cfg s)
    (h : s.getPage cfg type = some s') : Ordered cfg s' := by
  have hself := (ho.parts type).getPage_self h
  have hnos := hi_le_nos ho.mapFits type
  refine ⟨fun type' => ?_, ho.mapFits, ?_, ?_⟩
  · by_cases hne : type' = type
    · exact hne ▸ hself
    · exact (ho.parts type).getPage_other (ho.parts type') hne h
  all_goals
    obtain ⟨⟨ppa, e, page⟩, hget, rfl⟩ := Option.map_eq_some_iff.mp h
    obtain ⟨hle, rfl, rfl, is, his, rfl⟩ := getPage_spec (ho.parts type) hget
    simp only [taken, Env.setSblk, Env.setMaster, Env.touch, List.mem_append, List.mem_singleton]
  · rintro i ((hi | hi) | rfl)
    · exact ho.top i hi
    · exact (his i hi).trans hnos
    · exact hle.trans hnos
  · exact .inl (.inl ho.past)

theorem pageMachine_ordered {s : Alloc} (h : (pageMachine cfg).Reachable s) : Ordered cfg s := by
  refine Machine.Reach.invariant ?_ ?_ h
  · rintro s ⟨page, e, hinit, rfl⟩
    exact pageInit_spec hinit
  · intro s s' type _ ho _ hnext
    exact ho.getPage hnext

/-! ## Section 3: What the calls return -/

theorem PartOrdered.length_le {s : Alloc} {type : PartType} (hp : PartOrdered cfg s type) :
    (s.out type).length ≤ (hi cfg type - lo cfg type) * cfg.pps := by
  have hrange := hp.inRange
  unfold nextSblk at hrange
  have hlt : ((s.out type).length - 1) / cfg.pps < hi cfg type - lo cfg type := by
    generalize ((s.out type).length - 1) / cfg.pps = q at hrange
    omega
  have := (Nat.div_lt_iff_lt_mul cfg.pps_pos).mp hlt
  omega

/-- While addresses do not wrap, the `k`-th page lies in the partition's range. -/
theorem nthPage_sblk {type : PartType} {k : Nat} (hbound : (cfg.nos + 1) * cfg.pps ≤ 4294967296)
    (hle : hi cfg type ≤ cfg.nos) (hk : k < (hi cfg type - lo cfg type) * cfg.pps) :
    nthPage cfg type k = (lo cfg type + 1) * cfg.pps + k ∧
      lo cfg type ≤ nthPage cfg type k / cfg.pps ∧ nthPage cfg type k / cfg.pps ≤ hi cfg type := by
  have hpos := cfg.pps_pos
  have hltop : (lo cfg type + 1) * cfg.pps + k < (hi cfg type + 1) * cfg.pps := by
    have hlo : lo cfg type ≤ hi cfg type := by
      by_contra hgt
      rw [Nat.sub_eq_zero_of_le (by omega), Nat.zero_mul] at hk
      omega
    have hsum : (lo cfg type + 1) * cfg.pps + (hi cfg type - lo cfg type) * cfg.pps =
        (hi cfg type + 1) * cfg.pps := by
      rw [← Nat.add_mul]
      congr 1
      omega
    omega
  -- No page number of the partition reaches 2 ^ 32.
  have htop : (hi cfg type + 1) * cfg.pps ≤ (cfg.nos + 1) * cfg.pps :=
    Nat.mul_le_mul_right _ (by omega)
  have heq : nthPage cfg type k = (lo cfg type + 1) * cfg.pps + k :=
    Nat.mod_eq_of_lt (by omega)
  refine ⟨heq, ?_, ?_⟩
  · rw [heq, Nat.le_div_iff_mul_le hpos, Nat.add_mul]
    omega
  · rw [heq, ← Nat.lt_succ_iff, Nat.div_lt_iff_lt_mul hpos]
    exact hltop

theorem PartOrdered.mem_out {s : Alloc} {type : PartType} {p : Nat} (hp : PartOrdered cfg s type)
    (h : p ∈ s.out type) : ∃ k < (hi cfg type - lo cfg type) * cfg.pps, p = nthPage cfg type k := by
  rw [hp.out] at h
  obtain ⟨k, hk, rfl⟩ := List.mem_map.mp h
  exact ⟨k, (List.mem_range.mp hk).trans_le hp.length_le, rfl⟩

/-- Pages of different partitions lie in different superblocks. -/
theorem Ordered.separate {s : Alloc} (ho : Ordered cfg s)
    (hbound : (cfg.nos + 1) * cfg.pps ≤ 4294967296) :
    ∀ p ∈ s.out .map, ∀ q ∈ s.out .data, p / cfg.pps ≠ q / cfg.pps := by
  intro p hp q hq heq
  obtain ⟨j, hj, rfl⟩ := (ho.parts .map).mem_out hp
  obtain ⟨k, hk, rfl⟩ := (ho.parts .data).mem_out hq
  obtain ⟨-, hjl, hjh⟩ := nthPage_sblk hbound (hi_le_nos ho.mapFits .map) hj
  obtain ⟨-, hkl, hkh⟩ := nthPage_sblk hbound (hi_le_nos ho.mapFits .data) hk
  rw [heq] at hjl hjh
  exact ranges_disjoint (by decide) hjl hjh hkl hkh

theorem PartOrdered.nodup {s : Alloc} {type : PartType} (hp : PartOrdered cfg s type)
    (hbound : (cfg.nos + 1) * cfg.pps ≤ 4294967296) (hle : hi cfg type ≤ cfg.nos) :
    (s.out type).Nodup := by
  rw [hp.out]
  refine List.Nodup.map_on ?_ List.nodup_range
  intro j hj k hk heq
  have hlen := hp.length_le
  rw [(nthPage_sblk hbound hle ((List.mem_range.mp hj).trans_le hlen)).1,
    (nthPage_sblk hbound hle ((List.mem_range.mp hk).trans_le hlen)).1] at heq
  omega

theorem Ordered.distinct {s : Alloc} (ho : Ordered cfg s)
    (hbound : (cfg.nos + 1) * cfg.pps ≤ 4294967296) : (s.out .map ++ s.out .data).Nodup := by
  refine List.Nodup.append ?_ ?_ ?_
  · exact (ho.parts .map).nodup hbound (hi_le_nos ho.mapFits .map)
  · exact (ho.parts .data).nodup hbound (hi_le_nos ho.mapFits .data)
  · intro p hp hq
    exact ho.separate hbound p hp p hq rfl

/-- The opened superblocks are the ones right after the reserve. -/
theorem PartOrdered.card_opened {s : Alloc} {type : PartType} (hp : PartOrdered cfg s type) :
    (opened s.env type).card = openedCnt cfg (s.out type).length := by
  obtain ⟨n, hn⟩ : ∃ n, n = (s.out type).length := ⟨_, rfl⟩
  have hpos := cfg.pps_pos
  have hlen := hp.length_le
  have hc := hp.cursor
  rw [← hn] at hlen hc ⊢
  have hcnt : openedCnt cfg n ≤ hi cfg type - lo cfg type := by
    unfold openedCnt
    rw [← Nat.lt_succ_iff, Nat.div_lt_iff_lt_mul hpos, Nat.succ_mul]
    omega
  -- The superblocks with a written page are those after the reserved one, as far as opened.
  have hset : opened s.env type = Finset.Ioc (lo cfg type) (lo cfg type + openedCnt cfg n) := by
    ext i
    simp only [opened, Finset.mem_filter, Finset.mem_Icc, Finset.mem_Ioc, hc.minIdx, hc.maxIdx]
    have hwp : lo cfg type < i →
        (wpAt cfg type n i ≠ 0 ↔ i - lo cfg type - 1 + 1 ≤ openedCnt cfg n) := by
      intro hlt
      unfold wpAt openedCnt
      rw [if_neg (by omega), Nat.le_div_iff_mul_le hpos, Nat.succ_mul]
      omega
    constructor
    · rintro ⟨⟨hl, hh⟩, hne⟩
      rw [hc.wp i hl hh] at hne
      have hlt : lo cfg type < i := by
        refine Nat.lt_of_le_of_ne hl fun heq => hne ?_
        simp [wpAt, ← heq]
      have := (hwp hlt).mp hne
      omega
    · rintro ⟨hlt, hle⟩
      have hh : i ≤ hi cfg type := by omega
      refine ⟨⟨hlt.le, hh⟩, ?_⟩
      rw [hc.wp i hlt.le hh]
      exact (hwp hlt).mpr (by omega)
  rw [hset, Nat.card_Ioc]
  omega

/-! ## Section 4: The allocation law -/

/-- The superblock named as reserve is the one the first page comes from. -/
theorem PartOrdered.reserve_used {s : Alloc} {type : PartType} (hp : PartOrdered cfg s type)
    (hbound : (cfg.nos + 1) * cfg.pps ≤ 4294967296) (hle : hi cfg type ≤ cfg.nos)
    (hne : s.out type ≠ []) : ∃ p ∈ s.out type, s.page.reserve type = some (p / cfg.pps) := by
  have hpos : 0 < (s.out type).length := List.length_pos_of_ne_nil hne
  refine ⟨nthPage cfg type 0, ?_, ?_⟩
  · rw [hp.out]
    exact List.mem_map_of_mem (List.mem_range.mpr hpos)
  · have hfirst := (nthPage_sblk hbound hle (hpos.trans_le hp.length_le)).1
    have hzero : (lo cfg type + 1) * cfg.pps + 0 = (lo cfg type + 1) * cfg.pps := rfl
    rw [hp.reserve, hfirst, hzero, Nat.mul_div_cancel _ cfg.pps_pos]

/-- Every run hands out each partition's pages in sequence; every run has also
    written past the superblock table, counted each partition's first
    superblock twice, and takes its first pages from the reserve. -/
theorem page_allocation {s : Alloc} (h : (pageMachine cfg).Reachable s) :
    ¬ AllocationSafe cfg s ∧
      (∀ i ∈ s.env.touched, i ≤ cfg.nos) ∧ cfg.nos ∈ s.env.touched ∧
      (∀ type, s.out type = (List.range (s.out type).length).map (nthPage cfg type) ∧
        s.page.reserve type = some (lo cfg type + 1) ∧
        (s.env.sblkMaster type).freeSblkCnt + 1 + UInt32.ofNat (opened s.env type).card =
          (initMaster cfg type).freeSblkCnt) ∧
      ((cfg.nos + 1) * cfg.pps ≤ 4294967296 →
        (s.out .map ++ s.out .data).Nodup ∧
        (∀ p ∈ s.out .map, ∀ q ∈ s.out .data, p / cfg.pps ≠ q / cfg.pps) ∧
        ∀ type, (∀ p ∈ s.out type, s.page.reserve type ≠ some (p / cfg.pps)) ↔
          s.out type = []) := by
  have ho := pageMachine_ordered h
  -- Index `_NOS` is written by the set-up already.
  refine ⟨fun hs => ?_, ho.top, ho.past, fun type => ⟨(ho.parts type).out,
    (ho.parts type).reserve, ?_⟩, fun hbound => ⟨ho.distinct hbound, ho.separate hbound,
    fun type => ⟨fun hkept => ?_, fun hnil p hp => ?_⟩⟩⟩
  · exact Nat.lt_irrefl _ (hs.inTable _ ho.past)
  · rw [(ho.parts type).card_opened]
    exact (ho.parts type).free
  · by_contra hne
    obtain ⟨p, hp, heq⟩ :=
      (ho.parts type).reserve_used hbound (hi_le_nos ho.mapFits type) hne
    exact hkept p hp heq
  · rw [hnil] at hp
    exact absurd hp List.not_mem_nil

/-- A run of the shipped sizes with one `DATA` page. -/
theorem shipped_firstPage : ∃ s, (pageMachine shipped).Reachable s ∧ s.out .data ≠ [] := by
  have hrun : ((pageInit shipped (bmInit shipped)).bind fun (page, e) =>
      Alloc.getPage shipped ⟨e, page, fun _ => []⟩ .data).isSome = true := by rfl
  obtain ⟨s, hs⟩ := Option.isSome_iff_exists.mp hrun
  obtain ⟨⟨page, e⟩, hinit, hget⟩ := Option.bind_eq_some_iff.mp hs
  refine ⟨s, .step .data (.init ⟨page, e, hinit, rfl⟩) trivial hget, ?_⟩
  obtain ⟨x, -, rfl⟩ := Option.map_eq_some_iff.mp hget
  simp

/-- With the shipped sizes a `DATA` page has been handed out: the property fails, and
    still no page was handed out twice. -/
theorem page_allocation_shipped : ∃ s, (pageMachine shipped).Reachable s ∧ s.out .data ≠ [] ∧
    ¬ AllocationSafe shipped s ∧ (s.out .map ++ s.out .data).Nodup := by
  obtain ⟨s, hs, hne⟩ := shipped_firstPage
  have hlaw := page_allocation hs
  exact ⟨s, hs, hne, hlaw.1, (hlaw.2.2.2.2 (by decide)).1⟩

/-- The property fails at the shipped sizes, already through the reserve alone. -/
theorem pageAllocation_counterexample :
    ¬ ∀ cfg s, mapMax cfg ≤ cfg.nos → (pageMachine cfg).Reachable s → AllocationSafe cfg s := by
  intro hall
  obtain ⟨s, hs, hne⟩ := shipped_firstPage
  have ho := pageMachine_ordered hs
  have hsafe := hall shipped s (by decide) hs
  obtain ⟨p, hp, heq⟩ :=
    (ho.parts .data).reserve_used (by decide) (hi_le_nos ho.mapFits .data) hne
  exact hsafe.reserveKept .data p hp heq

end AggreKV.LsmTree
