import AggreKV.HashKv.HotCounters

/-! # Uniqueness and reachability in the hot table

    Promotions and lookups probe 50 slots, a rehash 3200 and then all of
    them. An entry that a rehash puts further away is never hit again, and
    its lpa can be promoted a second time.

    * `Found`: every entry is hit by the lookup of its lpa.
    * `Near`: what must hold when an entry is inserted.
    * `found_rehash_iff`: a rehash leaves every entry to be found if and
      only if all its insertions are near.
    * `hot_reachable`: uniqueness and reachability over runs. -/

namespace AggreKV.HashKv

namespace HotTable

variable {h h' : HotTable}

/-! ## Section 1: Entries that are found -/

/-- Every entry of the active pages is found by the probes of a lookup. -/
def Found (h : HotTable) : Prop :=
  ∀ i < h.active, ∀ lpa, (h.slots i).lpa = some lpa → h.findLpa (h.probes lpa 50) lpa = some i

/-- Two slots with one lpa cannot both be the one that is found. -/
theorem Found.distinct (hf : h.Found) : h.Distinct := by
  intro i hi j hj hne hij
  obtain ⟨lpa, hlpa⟩ := Option.ne_none_iff_exists'.mp hne
  have hfi := hf i hi lpa hlpa
  rw [hf j hj lpa (hij ▸ hlpa)] at hfi
  exact (Option.some.inj hfi).symm

/-- Distinct entries, each on the probe sequence of its lpa. -/
theorem Found.of_probes (hs : h.Settled) (hd : h.Distinct)
    (hnear : ∀ i < h.active, ∀ lpa, (h.slots i).lpa = some lpa → i ∈ h.probes lpa 50) :
    h.Found := by
  intro i hi lpa hlpa
  cases hfind : h.findLpa (h.probes lpa 50) lpa with
  | none => exact absurd hlpa (findLpa_none hfind i (hnear i hi lpa hlpa))
  | some j =>
    obtain ⟨hmem, hj⟩ := findLpa_some hfind
    have hsame := hd j (hs.probes_lt hmem) i hi (hj ▸ Option.some_ne_none lpa) (hj.trans hlpa.symm)
    rw [hsame]

/-- An entry that is found is on its probe path. -/
theorem Found.probes (hf : h.Found) {i lpa : Nat} (hi : i < h.active)
    (hlpa : (h.slots i).lpa = some lpa) : i ∈ h.probes lpa 50 :=
  (findLpa_some (hf i hi lpa hlpa)).1

/-- In a settled table, the lookup of the source finds the same slots. -/
theorem Found.hitSlot (hf : h.Found) (hs : h.Settled) {i lpa : Nat} (hi : i < h.active)
    (hlpa : (h.slots i).lpa = some lpa) : h.hitSlot lpa = some i := by
  unfold HotTable.hitSlot
  rw [if_pos hs.accessible]
  exact hf i hi lpa hlpa

/-- The probe path depends on the sizes only. -/
theorem probes_congr (hs : h.Settled) (hs' : h'.Settled) (hactive : h'.active = h.active)
    (lpa n : Nat) : h'.probes lpa n = h.probes lpa n := by
  have hpages : h'.env.maxCachedHotTpages = h.env.maxCachedHotTpages := by
    unfold active at hactive
    omega
  unfold HotTable.probes
  rw [hs.entries, hs'.entries, hactive, hpages]

/-- A step that keeps the lpas keeps the entries found. -/
theorem Found.keep (hf : h.Found) (hs : h.Settled) (hs' : h'.Settled)
    (hactive : h'.active = h.active) (hlpa : ∀ i, (h'.slots i).lpa = (h.slots i).lpa) :
    h'.Found := by
  intro i hi lpa hl
  rw [hactive] at hi
  rw [hlpa] at hl
  rw [probes_congr hs hs' hactive]
  unfold findLpa
  rw [show (fun i => decide ((h'.slots i).lpa = some lpa)) =
    fun i => decide ((h.slots i).lpa = some lpa) from funext fun i => by rw [hlpa]]
  exact hf i hi lpa hl

/-- A step that keeps the mapping keeps all entries to be found. -/
theorem Found.quiet (hf : h.Found) (hs : h.Settled) (hs' : h'.Settled) (hq : Quiet h h') :
    h'.Found := by
  apply hf.keep hs hs' hq.active
  intro i
  exact congrArg HotPte.lpa (hq.mapping i)

/-- A promotion writes to a probed slot only an lpa that is nowhere in the table. -/
theorem Found.placed {lpa : Nat} {ppa : Option Nat} {keyFp : UInt32} {coldCnt : Nat} (hf : h.Found)
    (hs : h.Settled) (hp : Placed h lpa ppa keyFp coldCnt h') : h'.Found := by
  have hs' := hp.settled hs
  cases hp with
  | refused => exact hf
  | @refreshed i h' hfind hrest hslot hothers _ =>
    apply hf.keep hs hs'
    · rw [hrest]
      rfl
    · intro j
      by_cases hj : j = i
      · rw [hj, hslot, (findLpa_some hfind).2]
        rfl
      · rw [hothers j hj]
  | @written i g hmem hmiss hg =>
    have hdrop := dropsKey_promoteDropKey (h.taken i) i
    rw [← hg] at hdrop
    have hactive : HotTable.active
        { g.setSlot i (promotedSlot (g.slots i) lpa ppa keyFp coldCnt) with
          stateLive := histInc g.stateLive (promoteEntryState coldCnt) } = h.active := by
      show g.active = h.active
      unfold active
      rw [hdrop.env, taken_env]
    have hlpa : ∀ j, ((g.setSlot i (promotedSlot (g.slots i) lpa ppa keyFp coldCnt)).slots j).lpa =
        if j = i then some lpa else (h.slots j).lpa := by
      intro j
      rw [slots_setSlot]
      split
      · rfl
      · have hpte := hdrop.mapping j
        rw [taken_slots] at hpte
        exact congrArg HotPte.lpa hpte
    -- The lpa is not in the table: it would have been found.
    have hfresh : ∀ j < h.active, (h.slots j).lpa ≠ some lpa := by
      intro j hj hl
      rw [hf j hj lpa hl] at hmiss
      cases hmiss
    -- Distinct entries that are on their probe paths are found.
    apply Found.of_probes hs'
    · intro j hj k hk hne hjk
      rw [hactive] at hj hk
      have hjk' : (if j = i then some lpa else (h.slots j).lpa) =
          if k = i then some lpa else (h.slots k).lpa := by
        rw [← hlpa, ← hlpa]
        exact hjk
      by_cases hji : j = i
      · by_cases hki : k = i
        · rw [hji, hki]
        · rw [if_pos hji, if_neg hki] at hjk'
          exact absurd hjk'.symm (hfresh k hk)
      · by_cases hki : k = i
        · rw [if_neg hji, if_pos hki] at hjk'
          exact absurd hjk' (hfresh j hj)
        · rw [if_neg hji, if_neg hki] at hjk'
          have hne' : (h.slots j).lpa ≠ none := by
            intro hnone
            apply hne
            exact (hlpa j).trans ((if_neg hji).trans hnone)
          exact hf.distinct j hj k hk hne' hjk'
    · intro j hj l hl
      rw [hactive] at hj
      have hl' : (if j = i then some lpa else (h.slots j).lpa) = some l := by
        rw [← hlpa]
        exact hl
      rw [probes_congr hs hs' hactive]
      by_cases hji : j = i
      · rw [if_pos hji, Option.some.injEq] at hl'
        rw [hji, ← hl']
        exact hmem
      · rw [if_neg hji] at hl'
        exact hf.probes hj hl'

/-! ## Section 2: Rehashes -/

/-- Among the first 50 probes of an entry there is a slot for it. -/
def Near (h : HotTable) (e : HotSlot) : Prop :=
  ∀ lpa ∈ e.lpa, ∃ i ∈ h.probes lpa 50, (h.slots i).lpa = none ∨ (h.slots i).lpa = some lpa

instance (h : HotTable) (e : HotSlot) : Decidable (h.Near e) := by
  unfold Near
  infer_instance

instance (h : HotTable) : Decidable (h.RehashOk Near) :=
  inferInstanceAs (Decidable (h.rehashBegin.collected.InsertsOk Near _))

theorem hotProbe_prefix (tpages n k : Nat) : ∀ d p step : Nat,
    hotProbe tpages n d p step <+: hotProbe tpages (n + k) d p step := by
  induction n with
  | zero => exact fun _ _ _ => List.nil_prefix
  | succ n ih =>
    intro d p step
    rw [Nat.succ_add]
    exact List.cons_prefix_cons.mpr ⟨rfl, ih _ _ _⟩

/-- The probes of a lookup are the first ones of an insertion. -/
theorem probes_prefix (h : HotTable) (lpa : Nat) : h.probes lpa 50 <+: h.probes lpa 3200 :=
  hotProbe_prefix _ 50 3150 _ _ _

/-- The slot for an entry is near if there is a near one. -/
theorem placeSlot_near {lpa i : Nat} (hslot : h.placeSlot lpa = some i)
    (hnear : ∃ j ∈ h.probes lpa 50, (h.slots j).lpa = none ∨ (h.slots j).lpa = some lpa) :
    i ∈ h.probes lpa 50 := by
  obtain ⟨rest, hrest⟩ := h.probes_prefix lpa
  cases hfirst : (h.probes lpa 50).find? (fun i => (h.slots i).lpa.isNone ||
      decide ((h.slots i).lpa = some lpa)) with
  | none =>
    obtain ⟨j, hj, hfree⟩ := hnear
    have hno := List.find?_eq_none.mp hfirst j hj
    rw [Bool.or_eq_true, Option.isNone_iff_eq_none, decide_eq_true_iff] at hno
    exact absurd hfree hno
  | some j =>
    unfold placeSlot at hslot
    dsimp only at hslot
    rw [← hrest, List.find?_append, hfirst] at hslot
    cases hslot
    exact List.mem_of_find?_eq_some hfirst

/-- An entry that no lookup finds. -/
def Far (h : HotTable) : Prop :=
  ∃ i < h.active, ∃ lpa, (h.slots i).lpa = some lpa ∧ i ∉ h.probes lpa 50

/-- An entry that is far off its path is not found. -/
theorem Far.not_found (hfar : h.Far) : ¬h.Found := by
  intro hf
  obtain ⟨i, hi, lpa, hlpa, hno⟩ := hfar
  exact hno (hf.probes hi hlpa)

/-- An entry that finds no near slot ends far off. -/
theorem far_placedAt {h₀ : HotTable} {e : HotSlot} {lpa i : Nat} (hi : Inserting h₀ h)
    (ht : Takes h₀ h e lpa i) (hno : ¬h.Near e) : (h.placedAt i e).Far := by
  refine ⟨i, hi.active.symm ▸ ht.lt, lpa, ?_, fun hmem => hno ?_⟩
  · rw [slots_placedAt, if_pos rfl]
    exact ht.entry
  · intro l hl
    have hsame : l = lpa := by
      rw [ht.entry] at hl
      exact (Option.mem_some_iff.mp hl).symm
    rw [hsame]
    exact ⟨i, hmem, ht.held⟩

/-- Entries that come later do not bring it back. -/
theorem Far.placedAt {h₀ : HotTable} {e : HotSlot} {lpa i : Nat} (hfar : h.Far)
    (ht : Takes h₀ h e lpa i) : (h.placedAt i e).Far := by
  obtain ⟨j, hj, l, hl, hno⟩ := hfar
  refine ⟨j, hj, l, ?_, hno⟩
  rw [slots_placedAt]
  split
  · next hji =>
    rw [hji] at hl
    show e.lpa = some l
    rcases ht.held with hnone | hsame
    · rw [hnone] at hl
      cases hl
    · rw [ht.entry, ← hsame, hl]
  · exact hl

/-- The insertions begin with a collected table. -/
theorem inserting_collected (h : HotTable) : Inserting h h.rehashBegin.collected := by
  have hc : Collecting h (loop collectSlot toScan h.rehashBegin.toScan h.rehashBegin) :=
    loop_induction (fun _ hc hl => hc.step hl) _ (.begin h)
  have hdone : (loop collectSlot toScan h.rehashBegin.toScan h.rehashBegin).toScan = 0 := by
    rw [left_loop (fun _ hl => toScan_collectSlot hl), Nat.sub_self]
  apply Inserting.begin hc
  apply Nat.le_antisymm hc.collects.bound
  have hle := Nat.le_of_sub_eq_zero hdone
  rw [hc.collects.nPages] at hle
  exact hle

/-- An insertion that is not near leaves an entry that no lookup finds, to the end. -/
theorem far_of_not_ok {h₀ : HotTable} (hs : h₀.env.Sized) (n : Nat) : ∀ {h : HotTable},
    Inserting h₀ h → ¬h.InsertsOk Near n → h.toInsert ≤ n →
      (loop insertNext toInsert n h).Far := by
  -- Once an entry is far off, it stays so.
  have hkeep : ∀ (n : Nat) {h : HotTable}, Inserting h₀ h → h.Far → h.toInsert ≤ n →
      (loop insertNext toInsert n h).Far := by
    intro n h hi hfar hle
    have hrule := inserted_rule (P := fun _ _ => True) (D := fun h => Inserting h₀ h ∧ h.Far) ?_ n
      ⟨hi, hfar⟩ (insertsOk_true _ _) hle
    · exact hrule.2
    · intro h e hd he _
      obtain ⟨lpa, i, ht, heq⟩ := hd.1.takes hs he
      rw [heq]
      exact ⟨hd.1.placedAt ht, hd.2.placedAt ht⟩
  induction n with
  | zero => exact fun _ hno _ => absurd trivial hno
  | succ n ih =>
    intro h hi hno hle
    unfold InsertsOk at hno
    by_cases hl : 0 < h.toInsert
    · obtain ⟨e, he⟩ := exists_saved hl
      obtain ⟨lpa, i, ht, heq⟩ := hi.takes hs he
      have hone := toInsert_insertNext hl
      rw [loop, if_pos hl]
      rw [insertNext_eq he] at hone ⊢
      rw [he] at hno
      dsimp only at hno
      rw [heq] at hno hone ⊢
      -- Either this entry is far off, or one of the rest.
      by_cases hnear : h.Near e
      · exact ih (hi.placedAt ht) (fun hok => hno ⟨hnear, hok⟩) (by omega)
      · exact hkeep n (hi.placedAt ht) (far_placedAt hi ht hnear) (by omega)
    · have hnone : h.saved[h.insertIdx]? = none := by
        rw [List.getElem?_eq_none_iff]
        unfold toInsert at hl
        omega
      rw [hnone] at hno
      exact absurd trivial hno

/-- Whatever was in the table, after a rehash the entries are distinct. -/
theorem distinct_rehash (hs : h.env.Sized) : h.rehash.Distinct := by
  have hrule := complete_rule (P := fun _ _ => True) (C := fun g => g.placed = 0)
      (D := Merging h) hs
    (insertsOk_true _ _) rfl ?_ ?_ ?_
  · obtain ⟨g, hg, hi, -, hm⟩ := hrule
    rw [hg]
    intro i hlt j hlt' hne hij
    obtain ⟨lpa, hlpa⟩ := Option.ne_none_iff_exists'.mp hne
    have hi' := hm.chosen i (hi.active ▸ hlt) lpa hlpa
    rw [hm.chosen j (hi.active ▸ hlt') lpa (hij ▸ hlpa)] at hi'
    exact (Option.some.inj hi').symm
  · intro g _ _ _ hplaced
    exact collectSlot_rule g (fun _ => hplaced) (fun _ _ => hplaced) fun _ _ => hplaced
  · intro g hc hscan hplaced
    exact .begin hc hscan hplaced
  · intro g e lpa i hi ht _ hm
    exact hm.placedAt hi ht

/-- A rehash leaves every entry to be found if and only if its insertions are near. -/
theorem found_rehash_iff (hs : h.env.Sized) : h.rehash.Found ↔ h.RehashOk Near := by
  refine ⟨fun hf => ?_, fun hok => ?_⟩
  · by_contra hno
    have hsize : h.env.maxCachedHotTpages < 2147483648 := by
      have htotal := hs.total
      omega
    have hfar := far_of_not_ok hs h.rehashBegin.collected.saved.length (inserting_collected h) hno
      (Nat.sub_le _ _)
    rw [rehash_eq hsize] at hf
    exact hfar.not_found hf
  · obtain ⟨hset, -, -⟩ := settled_rehash hs
    -- All slots are empty before the insertions, and each of them is near.
    apply Found.of_probes hset (distinct_rehash hs)
    have hrule := complete_rule (P := Near) (C := fun _ => True)
      (D := fun g => ∀ i < h.active, ∀ lpa, (g.slots i).lpa = some lpa → i ∈ g.probes lpa 50) hs hok
      trivial (fun _ _ _ _ _ => trivial) ?_ ?_
    · obtain ⟨g, hg, hi, -, hd⟩ := hrule
      rw [hg]
      intro i hlt
      exact hd i (hi.active ▸ hlt)
    · intro g hc hscan _ i hi lpa hlpa
      have hnone : (g.slots i).lpa = none := hc.collects.scanned i (hscan ▸ hi)
      have hlpa' : (g.slots i).lpa = some lpa := hlpa
      rw [hnone] at hlpa'
      cases hlpa'
    · intro g e lpa i hi ht hnear hd j hj l hl
      show j ∈ g.probes l 50
      rw [slots_placedAt] at hl
      by_cases hji : j = i
      · rw [if_pos hji] at hl
        have hsame : some lpa = some l := ht.entry.symm.trans hl
        cases hsame
        rw [hji]
        exact placeSlot_near ht.slot (hnear lpa ht.entry)
      · rw [if_neg hji] at hl
        exact hd j hj l hl

/-! ## Section 3: Runs -/

/-- A raised state keeps the mapping. -/
theorem stateRaise_lpa (h : HotTable) (i j : Nat) :
    ((h.stateRaise i).slots j).lpa = (h.slots j).lpa := by
  refine stateRaise_rule h i rfl fun _ _ => ?_
  show ((h.setSlot i _).slots j).lpa = _
  rw [slots_setSlot]
  split
  · next hj => rw [hj]
  · rfl

theorem stateRaise_active (h : HotTable) (i : Nat) : (h.stateRaise i).active = h.active :=
  stateRaise_rule h i rfl fun _ _ => rfl

/-- A step keeps the entries to be found if and only if its rehash is near. -/
theorem Found.step {m : Mem} {a : MemLabel} (hf : m.hot.Found) (hs : m.hot.Settled)
    (ha : m.HotStep a h) : h.Found ↔ ∀ g ∈ m.rehashes a, g.RehashOk Near := by
  have hs' := ha.settled hs
  cases ha with
  | same _ hno => exact iff_of_true hf (Mem.rehashes_none hno)
  | promote => exact iff_of_true (hf.placed hs (placed_placeGrain ..)) (Mem.rehashes_none rfl)
  | raise =>
    refine iff_of_true ?_ (Mem.rehashes_none rfl)
    exact hf.keep hs hs' (stateRaise_active _ _) (stateRaise_lpa _ _)
  | @verify i keyFp =>
    have hq := quiet_unghosted (.ghostKeyOnFlashVerify m.hot i keyFp)
    exact iff_of_true (hf.quiet hs hs' hq) (Mem.rehashes_none rfl)
  | cacheKey => exact iff_of_true (hf.quiet hs hs' (quiet_cacheKey ..)) (Mem.rehashes_none rfl)
  | @rehash a g hg hres =>
    have hset := (settled_rehash hres.sized).1
    have hq := quiet_unghosted (.ghostTrim g.rehash)
    -- Trimming the ghosts keeps the mapping, in both directions.
    have htrim : g.rehash.ghostTrim.Found ↔ g.rehash.Found := by
      refine ⟨fun hf' => ?_, fun hf' => hf'.quiet hset hs' hq⟩
      apply hf'.keep hs' hset hq.active.symm
      intro i
      exact (congrArg HotPte.lpa (hq.mapping i)).symm
    rw [htrim, found_rehash_iff hres.sized, hg]
    refine ⟨fun hok g' hg' => ?_, fun hall => hall g rfl⟩
    cases hg'
    exact hok
  | expandKey henv =>
    exact iff_of_true (hf.quiet hs hs' (quiet_expandKey hs henv)) (Mem.rehashes_none rfl)
  | reset =>
    refine iff_of_true (fun i hi lpa hlpa => ?_) (Mem.rehashes_none rfl)
    rw [reset_active] at hi
    rw [reset_empty hi] at hlpa
    cases hlpa
  | prepare =>
    exact iff_of_true (hf.quiet hs hs' ⟨rfl, fun _ => rfl, rfl, rfl⟩)
      (Mem.rehashes_none rfl)

end HotTable

/-- As long as every rehash finds each saved entry a slot among the first 50 probes of its
    lpa, every entry of the active pages is hit by the lookup of its lpa, and no lpa is in
    the table twice. A rehash that finds one none makes an entry that no lookup hits. From
    any state, a rehash leaves distinct entries. -/
theorem hot_reachable {verifyCache : Bool} {cold hot key nrValidTpages : Nat} {env₀ : CacheEnv}
    (hinit : cacheEnvInit verifyCache cold hot key = some env₀) (hpos : 0 < hot)
    (hsize : cold + hot < 2147483648) :
    (∀ m, (memMachine env₀ nrValidTpages).Reach
        (fun m a => ∀ g ∈ m.rehashes a, g.RehashOk HotTable.Near) m →
      (∀ i < m.hot.active, ∀ lpa, (m.hot.slots i).lpa = some lpa → m.hot.hitSlot lpa = some i) ∧
      m.hot.Distinct ∧
      ∀ a m', m.next a = some m' →
        ((∀ i < m'.hot.active, ∀ lpa, (m'.hot.slots i).lpa = some lpa →
            m'.hot.hitSlot lpa = some i) ↔
          ∀ g ∈ m.rehashes a, g.RehashOk HotTable.Near)) ∧
    ∀ m, (memMachine env₀ nrValidTpages).Reachable m → ∀ a m', m.next a = some m' →
      m.rehashes a ≠ none → m'.hot.Distinct := by
  have hsized : ∀ env, env₀.updateCaps = some env → env.Sized := fun env henv =>
    (CacheEnv.sized_of_init hinit henv hpos hsize).1
  -- The lookup of the source, in a settled table.
  have hhit : ∀ {h : HotTable}, h.Settled →
      (h.Found ↔ ∀ i < h.active, ∀ lpa, (h.slots i).lpa = some lpa → h.hitSlot lpa = some i) := by
    intro h hs
    refine ⟨fun hf i hi lpa hlpa => hf.hitSlot hs hi hlpa, fun hall i hi lpa hlpa => ?_⟩
    have hhit := hall i hi lpa hlpa
    unfold HotTable.hitSlot at hhit
    rwa [if_pos hs.accessible] at hhit
  refine ⟨fun m hr => ?_, fun m hr a m' hn hre => ?_⟩
  · have hf : m.hot.Found := by
      apply hr.invariant
      · intro s hs i _ lpa hlpa
        obtain ⟨env, _, rfl⟩ := hs
        cases hlpa
      · intro s s' a hr hf hok hn
        have hs := Mem.reach_settled hsized hr
        exact (hf.step hs (Mem.hotStep hs hn)).mpr hok
    have hs := Mem.reach_settled hsized hr
    refine ⟨(hhit hs).mp hf, hf.distinct, fun a m' hn => ?_⟩
    have ha := Mem.hotStep hs hn
    rw [← hhit (ha.settled hs)]
    exact hf.step hs ha
  · have hs := Mem.reach_settled hsized hr
    have ha := Mem.hotStep hs hn
    obtain ⟨g, hg, hhot, hgs⟩ := ha.rehash_of hre
    rw [hhot]
    have hq := HotTable.quiet_unghosted (.ghostTrim g.rehash)
    have hd := HotTable.distinct_rehash hgs
    intro i hi j hj hne hij
    have hlpa : ∀ k, (g.rehash.ghostTrim.slots k).lpa = (g.rehash.slots k).lpa := fun k =>
      congrArg HotPte.lpa (hq.mapping k)
    rw [hq.active] at hi hj
    rw [hlpa] at hne
    rw [hlpa, hlpa] at hij
    exact hd i hi j hj hne hij

/-- A warm entry is found again in the smaller table. -/
theorem hot_reachable_shrunk : ∃ m, (memMachine smallEnv₀ 4).exec (.create smallEnv 4)
      [.promote 600 (some 9) 1 3, .shrinkHot] = some m ∧
    ∀ i < m.hot.active, ∀ lpa, (m.hot.slots i).lpa = some lpa → m.hot.hitSlot lpa = some i := by
  have hrun : ((memMachine smallEnv₀ 4).exec (.create smallEnv 4)
      [.promote 600 (some 9) 1 3, .shrinkHot]).isSome = true := by decide +kernel
  obtain ⟨m, hm⟩ := Option.isSome_iff_exists.mp hrun
  have hok : (memMachine smallEnv₀ 4).check
      (fun m a => decide (∀ g ∈ m.rehashes a, g.RehashOk HotTable.Near)) (.create smallEnv 4)
      [.promote 600 (some 9) 1 3, .shrinkHot] = true := by
    decide +kernel
  have hr := small_reach ((Machine.along_of_check hok).mono fun _ _ h => of_decide_eq_true h) hm
  have hreach := (@hot_reachable true 8 2 64 4 _ smallEnv₀_init (by decide) (by decide)).1 m hr
  exact ⟨m, hm, hreach.1⟩

end AggreKV.HashKv
