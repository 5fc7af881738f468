import AggreKV.HashKv.Steps

/-! # The paths through a pass

    `demandGetPass` and `wbPass` fold the exits of `__demand_get` and of
    `_do_wb_mapping_update`. `GetPath` and `WbPath` list the paths, with the
    store each one ends in.

    * `GetPath.preserves`, `WbPath.preserves`: a property of the store that
      the cache accesses and `list_up` keep is kept by a pass. -/

namespace AggreKV.HashKv

variable {cfg : Settings}

/-! ## Section 1: Get passes -/

/-- The pass gets to `dftl_cache_load` in store `s`. -/
def ReachesLoad (cfg : Settings) (f : Ftl) (r : Request) (s : Store) : Prop :=
  let lpa := getLpa cfg r.hParams
  (r.params = some .load ∧ s = f.store) ∨
    (r.params = none ∧ ¬(r.hParams.cnt = 0 ∧ wbFind r.key f.wb) ∧
      hotLookup cfg f.store r lpa = (none, s) ∧ (s.cold.cmt (dIdx lpa)).isResident = false)

/-- `ReachesLoad` as a test of the state before the pass. -/
def Ftl.loadsTpage (cfg : Settings) (f : Ftl) (r : Request) : Bool :=
  let lpa := getLpa cfg r.hParams
  r.hParams.cnt ≤ f.maxTry &&
    match r.params with
    | some .load => true
    | some _ => false
    | none =>
      !(r.hParams.cnt = 0 && wbFind r.key f.wb) && (hotLookup cfg f.store r lpa).1.isNone &&
        !(f.store.cold.cmt (dIdx lpa)).isResident

/-- A lookup that misses the hot table leaves the cold one alone. -/
theorem hotLookup_cold {s s' : Store} {r : Request} {lpa : Nat}
    (h : hotLookup cfg s r lpa = (none, s')) : s'.cold = s.cold := by
  unfold hotLookup at h
  split at h
  · dsimp only at h
    split at h
    · split at h
      · cases h
      · cases h; rfl
    · cases h; rfl
  · cases h; rfl

/-- A pass that comes to the load loads the page. -/
theorem ReachesLoad.loadsTpage {f : Ftl} {r : Request} {s : Store}
    (hn : r.hParams.cnt ≤ f.maxTry) (h : ReachesLoad cfg f r s) :
    f.loadsTpage cfg r = true ∧ s.cold = f.store.cold := by
  rcases h with ⟨hp, rfl⟩ | ⟨hp, hw, hh, hres⟩
  · simp [Ftl.loadsTpage, hp, hn]
  · have hc := hotLookup_cold hh
    rw [hc] at hres
    refine ⟨?_, hc⟩
    simp only [Ftl.loadsTpage, hp, hn, hh, hres, decide_true, Option.isNone_none, Bool.not_false,
      Bool.and_true, Bool.true_and, Bool.not_eq_true', Bool.and_eq_false_iff,
      decide_eq_false_iff_not]
    exact not_and_or.mp hw |>.imp_right (by simp)

/-- The pass gets to `cache_check_complete` in store `s`. -/
def ReachesCheck (cfg : Settings) (f : Ftl) (r : Request) (choice : Rebalance) (s : Store) :
    Prop :=
  let lpa := getLpa cfg r.hParams
  (r.params = some .complete ∧ s = f.store) ∨
    ((r.params = some .list ∨ r.params = some .evict) ∧
      f.store.listUp cfg lpa choice = some (false, s)) ∨
    (r.params = none ∧ ¬(r.hParams.cnt = 0 ∧ wbFind r.key f.wb) ∧
      ∃ s₀, hotLookup cfg f.store r lpa = (none, s₀) ∧
        (s₀.cold.cmt (dIdx lpa)).isResident = true ∧
        s = { s₀ with cold := (s₀.cold.isHit cfg lpa).2.touch cfg lpa })

/-- The paths of a get pass. -/
inductive GetPath (cfg : Settings) (f : Ftl) (r : Request) (choice : Rebalance) :
    Store → GetExit → Prop where
  | exhausted (h : f.maxTry < r.hParams.cnt) : GetPath cfg f r choice f.store (.ret true [] none)
  | wbHit (hn : r.hParams.cnt ≤ f.maxTry) (hp : r.params = none) (hc : r.hParams.cnt = 0)
      (hw : wbFind r.key f.wb = true) :
      GetPath cfg f r choice f.store (.ret false [.inWriteBuffer] none)
  | hotRead (s pte) (hn : r.hParams.cnt ≤ f.maxTry) (hp : r.params = none)
      (hw : ¬(r.hParams.cnt = 0 ∧ wbFind r.key f.wb))
      (hh : hotLookup cfg f.store r (getLpa cfg r.hParams) = (some pte, s)) :
      GetPath cfg f r choice s (dataRead f.realKeys r (getLpa cfg r.hParams) pte.ppa)
  | unread (hn : r.hParams.cnt ≤ f.maxTry) (hp : r.params = some .read) :
      GetPath cfg f r choice f.store (.ret true [] none)
  | loaded (s s') (hn : r.hParams.cnt ≤ f.maxTry) (hs : ReachesLoad cfg f r s)
      (hl : s.load (getLpa cfg r.hParams) = some s') :
      GetPath cfg f r choice s' (.ret false [] (some { r with params := some .list }))
  | neverWritten (s) (hn : r.hParams.cnt ≤ f.maxTry) (hs : ReachesLoad cfg f r s)
      (hl : s.load (getLpa cfg r.hParams) = none) :
      GetPath cfg f r choice s (.ret true [.notFound] (some { r with params := none }))
  | evicted (s) (hn : r.hParams.cnt ≤ f.maxTry)
      (hp : r.params = some .list ∨ r.params = some .evict)
      (hl : f.store.listUp cfg (getLpa cfg r.hParams) choice = some (true, s)) :
      GetPath cfg f r choice s (.ret false [] (some { r with params := some .complete }))
  | differ (s) (hn : r.hParams.cnt ≤ f.maxTry) (hs : ReachesCheck cfg f r choice s)
      (hfp : r.hParams.keyFp ≠ (s.cold.getPte (getLpa cfg r.hParams)).keyFp) :
      GetPath cfg f r choice s (.again { r with hParams := r.hParams.next, params := none })
  | read (s) (hn : r.hParams.cnt ≤ f.maxTry) (hs : ReachesCheck cfg f r choice s)
      (hfp : r.hParams.keyFp = (s.cold.getPte (getLpa cfg r.hParams)).keyFp) :
      GetPath cfg f r choice s (dataRead f.realKeys { r with params := none }
        (getLpa cfg r.hParams) (s.cold.getPte (getLpa cfg r.hParams)).ppa)

/-- From the check on, a pass is one of the paths. -/
theorem GetPath.check {f : Ftl} {r : Request} {choice : Rebalance} (s : Store)
    (hn : r.hParams.cnt ≤ f.maxTry) (hs : ReachesCheck cfg f r choice s) :
    GetPath cfg f r choice s
      (cacheCheckComplete f.realKeys s { r with params := none } (getLpa cfg r.hParams)) := by
  by_cases hfp : r.hParams.keyFp = (s.cold.getPte (getLpa cfg r.hParams)).keyFp
  · have := GetPath.read s hn hs hfp
    simpa [cacheCheckComplete, hfp] using this
  · have := GetPath.differ s hn hs hfp
    simpa [cacheCheckComplete, hfp] using this

/-- From the load on, too. -/
theorem GetPath.of_load {f : Ftl} {r : Request} {choice : Rebalance} {s₀ s : Store} {ex : GetExit}
    (hn : r.hParams.cnt ≤ f.maxTry) (hs : ReachesLoad cfg f r s₀)
    (h : cacheLoad s₀ { r with params := none } (getLpa cfg r.hParams) = (s, ex)) :
    GetPath cfg f r choice s ex := by
  unfold cacheLoad at h
  split at h
  · next hl => cases h; exact .loaded s₀ s hn hs hl
  · next hl => cases h; exact .neverWritten s₀ hn hs hl

/-- And from `dftl_cache_list_up` on. -/
theorem GetPath.of_listUp {f : Ftl} {r : Request} {choice : Rebalance} {s : Store} {ex : GetExit}
    (hn : r.hParams.cnt ≤ f.maxTry) (hp : r.params = some .list ∨ r.params = some .evict)
    (h : cacheListUp cfg f.realKeys f.store { r with params := none } (getLpa cfg r.hParams) choice
      = some (s, ex)) :
    GetPath cfg f r choice s ex := by
  obtain ⟨⟨rc, s'⟩, hl, h⟩ := Option.map_eq_some_iff.mp h
  cases rc with
  | true => cases h; exact .evicted s hn hp hl
  | false => cases h; exact .check s hn (Or.inr (Or.inl ⟨hp, hl⟩))

/-- Every pass of a get takes one of the paths. -/
theorem GetPath.of_pass {f : Ftl} {r : Request} {choice : Rebalance} {s : Store} {ex : GetExit}
    (h : demandGetPass cfg f r choice = some (s, ex)) : GetPath cfg f r choice s ex := by
  unfold demandGetPass at h
  simp only at h
  split at h
  · next hn => cases h; exact .exhausted hn
  next hn =>
  have hn : r.hParams.cnt ≤ f.maxTry := by omega
  split at h
  -- The pass goes on where the request was parked.
  · next jump hp =>
    split at h
    · exact .of_load hn (Or.inl ⟨hp, rfl⟩) (Option.some.inj h)
    · exact .of_listUp hn (Or.inl hp) h
    · exact .of_listUp hn (Or.inr hp) h
    · cases h; exact .check f.store hn (Or.inl ⟨hp, rfl⟩)
    · cases h; exact .unread hn hp
    · cases h
  -- The first pass: the buffer, the hot table, then the cold one.
  · next hp =>
    split at h
    · cases h
    split at h
    · next hw => cases h; exact .wbHit hn hp hw.1 hw.2
    next hw =>
    split at h
    · next pte s' hh => cases h; exact .hotRead s pte hn hp hw hh
    · next s' hh =>
      have hr : { r with params := none } = r := by cases r; simp_all
      have h := Option.some.inj h
      simp only [coldLookup, Cold.isHit_fst] at h
      split at h
      · next hres =>
        cases h
        have hc : GetPath cfg f r choice _ _ :=
          .check _ hn (Or.inr (Or.inr ⟨hp, hw, s', hh, hres, rfl⟩))
        rwa [hr] at hc
      · next hres =>
        rw [← hr] at h
        exact .of_load hn (Or.inr ⟨hp, hw, hh, by simpa using hres⟩) h

/-! ## Section 2: Write-buffer passes -/

/-- The pass gets to `dftl_cache_load` in store `s`. -/
def ReachesWbLoad (cfg : Settings) (s₀ : Store) (e : WbEntry) (s : Store) : Prop :=
  let lpa := getLpa cfg e.hParams
  (e.params = some .load ∧ s = s₀) ∨
    (e.params = none ∧ s = wbHotAccess cfg s₀ e lpa ∧ (s.cold.cmt (dIdx lpa)).isResident = false)

/-- The pass gets to `dftl_cache_list_up` in store `s`. -/
def ReachesWbList (cfg : Settings) (s₀ : Store) (e : WbEntry) (s : Store) : Prop :=
  (e.params = some .list ∧ s = s₀) ∨
    (ReachesWbLoad cfg s₀ e s ∧ s.load (getLpa cfg e.hParams) = none)

/-- The pass gets to `wb_data_check` in store `s`. -/
def ReachesWbCheck (cfg : Settings) (s₀ : Store) (e : WbEntry) (choice : Rebalance) (s : Store) :
    Prop :=
  let lpa := getLpa cfg e.hParams
  (e.params = some .complete ∧ s = s₀) ∨
    (∃ s₁, ReachesWbList cfg s₀ e s₁ ∧ s₁.listUp cfg lpa choice = some (false, s)) ∨
    (e.params = none ∧ ((wbHotAccess cfg s₀ e lpa).cold.cmt (dIdx lpa)).isResident = true ∧
      s = { wbHotAccess cfg s₀ e lpa with
        cold := ((wbHotAccess cfg s₀ e lpa).cold.isHit cfg lpa).2.touch cfg lpa })

/-- The paths of a write-buffer pass. -/
inductive WbPath (cfg : Settings) (realKeys : Nat → Key) (ht : DHtable) (s₀ : Store) (e : WbEntry)
    (choice : Rebalance) : Store → WbExit → Prop where
  | loaded (s s') (hs : ReachesWbLoad cfg s₀ e s) (hl : s.load (getLpa cfg e.hParams) = some s') :
      WbPath cfg realKeys ht s₀ e choice s' (.parked { e with params := some .list })
  | evicted (s s') (hs : ReachesWbList cfg s₀ e s)
      (hl : s.listUp cfg (getLpa cfg e.hParams) choice = some (true, s')) :
      WbPath cfg realKeys ht s₀ e choice s' (.parked { e with params := some .complete })
  | update (hp : e.params = some .update) :
      WbPath cfg realKeys ht s₀ e choice s₀ (.update { e with params := none })
  | unmapped (s) (hs : ReachesWbCheck cfg s₀ e choice s)
      (hppa : (s.cold.getPte (getLpa cfg e.hParams)).ppa = none) :
      WbPath cfg realKeys ht s₀ e choice s (.directUpdate { e with params := none })
  | differ (s ppa) (hs : ReachesWbCheck cfg s₀ e choice s)
      (hppa : (s.cold.getPte (getLpa cfg e.hParams)).ppa = some ppa)
      (hd : e.hParams.keyFp ≠ (s.cold.getPte (getLpa cfg e.hParams)).keyFp ∨
        dHtableFind cfg ht ppa (getLpa cfg e.hParams) = true) :
      WbPath cfg realKeys ht s₀ e choice s
        (.again { e with hParams := e.hParams.next, params := none })
  | sameKey (s ppa) (hs : ReachesWbCheck cfg s₀ e choice s)
      (hppa : (s.cold.getPte (getLpa cfg e.hParams)).ppa = some ppa)
      (hk : e.key = realKeys (getLpa cfg e.hParams)) :
      WbPath cfg realKeys ht s₀ e choice s (.parked { e with params := some .update })
  | otherKey (s ppa) (hs : ReachesWbCheck cfg s₀ e choice s)
      (hppa : (s.cold.getPte (getLpa cfg e.hParams)).ppa = some ppa)
      (hk : e.key ≠ realKeys (getLpa cfg e.hParams)) :
      WbPath cfg realKeys ht s₀ e choice s
        (.parked { e with hParams := e.hParams.next, params := none })

/-- From the check on, a pass over an entry is one of the paths. -/
theorem WbPath.check {realKeys : Nat → Key} {ht : DHtable} {s₀ : Store} {e : WbEntry}
    {choice : Rebalance} (s : Store) (hs : ReachesWbCheck cfg s₀ e choice s) :
    WbPath cfg realKeys ht s₀ e choice s
      (wbDataCheck cfg realKeys ht s { e with params := none } (getLpa cfg e.hParams)) := by
  unfold wbDataCheck
  dsimp only
  split
  · next hppa => exact .unmapped s hs hppa
  · next ppa hppa =>
    split
    · next hfp => exact .differ s ppa hs hppa (Or.inl hfp)
    · split
      · next hf => exact .differ s ppa hs hppa (Or.inr hf)
      · split
        · next hk => exact .sameKey s ppa hs hppa (keycmp_eq_zero.mp hk)
        · next hk => exact .otherKey s ppa hs hppa fun he => hk (keycmp_eq_zero.mpr he)

/-- From `dftl_cache_list_up` on, too. -/
theorem WbPath.of_listUp {realKeys : Nat → Key} {ht : DHtable} {s₀ s₁ s : Store} {e : WbEntry}
    {choice : Rebalance} {ex : WbExit} (hs : ReachesWbList cfg s₀ e s₁)
    (h : wbCacheListUp cfg realKeys ht s₁ { e with params := none } (getLpa cfg e.hParams) choice
      = some (s, ex)) :
    WbPath cfg realKeys ht s₀ e choice s ex := by
  obtain ⟨⟨rc, s'⟩, hl, h⟩ := Option.map_eq_some_iff.mp h
  cases rc with
  | true => cases h; exact .evicted s₁ s hs hl
  | false => cases h; exact .check s (Or.inr (Or.inl ⟨s₁, hs, hl⟩))

/-- And from the load on. -/
theorem WbPath.of_load {realKeys : Nat → Key} {ht : DHtable} {s₀ s₁ s : Store} {e : WbEntry}
    {choice : Rebalance} {ex : WbExit} (hs : ReachesWbLoad cfg s₀ e s₁)
    (h : wbCacheLoad cfg realKeys ht s₁ { e with params := none } (getLpa cfg e.hParams) choice
      = some (s, ex)) :
    WbPath cfg realKeys ht s₀ e choice s ex := by
  unfold wbCacheLoad at h
  split at h
  · next hl => cases h; exact .loaded s₁ s hs hl
  · next hl => exact .of_listUp (Or.inr ⟨hs, hl⟩) h

/-- Every pass over an entry takes one of the paths. -/
theorem WbPath.of_pass {realKeys : Nat → Key} {ht : DHtable} {s₀ s : Store} {e : WbEntry}
    {choice : Rebalance} {ex : WbExit}
    (h : wbPass cfg realKeys ht s₀ e choice = some (s, ex)) :
    e.hParams.cnt ≤ 1024 ∧ WbPath cfg realKeys ht s₀ e choice s ex := by
  unfold wbPass at h
  simp only at h
  split at h
  · cases h
  next hn =>
  refine ⟨by omega, ?_⟩
  split at h
  -- The pass goes on where the entry was parked.
  · next jump hp =>
    split at h
    · exact .of_load (Or.inl ⟨hp, rfl⟩) h
    · exact .of_listUp (Or.inl ⟨hp, rfl⟩) h
    · cases h; exact .check s₀ (Or.inl ⟨hp, rfl⟩)
    · cases h; exact .update hp
    · cases h
  · next hp =>
    have he : { e with params := none } = e := by cases e; simp_all
    simp only [Cold.isHit_fst] at h
    split at h
    · next hres =>
      cases h
      have hc : WbPath cfg realKeys ht s₀ e choice _ _ :=
        .check _ (Or.inr (Or.inr ⟨hp, hres, rfl⟩))
      rwa [he] at hc
    · next hres =>
      refine .of_load (Or.inr ⟨hp, rfl, ?_⟩) (he ▸ h)
      simpa using hres

/-! ## Section 3: Properties of the store kept by passes -/

/-- A property of the store that the accesses of the cache keep. -/
structure AccessInvariant (cfg : Settings) (P : Store → Prop) : Prop where
  hot : ∀ {s} lpa, P s → P { s with hot := (s.hot.isHit cfg lpa).2 }
  grain : ∀ {s} lpa, P s → P { s with cold := s.cold.coldGrainAccess lpa }
  touch : ∀ {s} lpa, P s → P { s with cold := s.cold.touch cfg lpa }
  load : ∀ {s s'} lpa, P s → s.load lpa = some s' → P s'

namespace AccessInvariant

variable {P : Store → Prop}

/-- A lookup of a page. -/
theorem isHit (hP : AccessInvariant cfg P) {s : Store} (lpa : Nat) (h : P s) :
    P { s with cold := (s.cold.isHit cfg lpa).2 } := by
  unfold Cold.isHit
  split
  · dsimp only
    split
    · exact hP.grain lpa h
    · exact h
  · exact h

/-- A lookup in the hot table. -/
theorem hotLookup (hP : AccessInvariant cfg P) {s : Store} (r : Request) (lpa : Nat) (h : P s) :
    P (HashKv.hotLookup cfg s r lpa).2 := by
  have h1 := hP.hot lpa h
  unfold HashKv.hotLookup
  split
  · dsimp only
    split
    · split
      · exact hP.grain lpa h1
      · split
        · exact hP.hot lpa h1
        · exact h1
    · exact h1
  · exact h

/-- The access of an entry to the hot table. -/
theorem wbHotAccess (hP : AccessInvariant cfg P) {s : Store} (e : WbEntry) (lpa : Nat) (h : P s) :
    P (HashKv.wbHotAccess cfg s e lpa) := by
  have h2 := hP.hot lpa (hP.hot lpa h)
  unfold HashKv.wbHotAccess
  split
  · dsimp only
    split
    · split
      · exact hP.grain lpa h2
      · exact h2
    · exact h2
  · exact h

/-- What is kept up to the load. -/
theorem reachesLoad (hP : AccessInvariant cfg P) {f : Ftl} {r : Request} {s : Store}
    (h : P f.store) (hs : ReachesLoad cfg f r s) : P s := by
  rcases hs with ⟨_, rfl⟩ | ⟨_, _, hh, _⟩
  · exact h
  · have := hP.hotLookup r (getLpa cfg r.hParams) h
    rwa [hh] at this

theorem reachesWbLoad (hP : AccessInvariant cfg P) {s₀ : Store} {e : WbEntry} {s : Store}
    (h : P s₀) (hs : ReachesWbLoad cfg s₀ e s) : P s := by
  rcases hs with ⟨_, rfl⟩ | ⟨_, rfl, _⟩
  · exact h
  · exact hP.wbHotAccess e _ h

theorem reachesWbList (hP : AccessInvariant cfg P) {s₀ : Store} {e : WbEntry} {s : Store}
    (h : P s₀) (hs : ReachesWbList cfg s₀ e s) : P s := by
  rcases hs with ⟨_, rfl⟩ | ⟨hs, _⟩
  · exact h
  · exact hP.reachesWbLoad h hs

end AccessInvariant

/-- What is kept up to the check, if `dftl_cache_list_up` keeps it. -/
theorem ReachesCheck.preserves {P : Store → Prop} (hP : AccessInvariant cfg P) {f : Ftl}
    {r : Request} {choice : Rebalance} {s : Store}
    (hlist : ∀ rc s', (r.params = some .list ∨ r.params = some .evict) →
      f.store.listUp cfg (getLpa cfg r.hParams) choice = some (rc, s') → P s')
    (hs : ReachesCheck cfg f r choice s) (hf : P f.store) : P s := by
  rcases hs with ⟨_, rfl⟩ | ⟨hp, hl⟩ | ⟨_, _, s₀, hh, _, rfl⟩
  · exact hf
  · exact hlist false s hp hl
  · have h0 := hP.hotLookup r (getLpa cfg r.hParams) hf
    rw [hh] at h0
    exact hP.touch _ (hP.isHit _ h0)

/-- A get pass keeps what the accesses and its `list_up` keep. -/
theorem GetPath.preserves {P : Store → Prop} (hP : AccessInvariant cfg P) {f : Ftl} {r : Request}
    {choice : Rebalance} {s : Store} {ex : GetExit}
    (hlist : ∀ rc s', (r.params = some .list ∨ r.params = some .evict) →
      f.store.listUp cfg (getLpa cfg r.hParams) choice = some (rc, s') → P s')
    (h : GetPath cfg f r choice s ex) (hf : P f.store) : P s := by
  cases h with
  | exhausted => exact hf
  | wbHit => exact hf
  | unread => exact hf
  | hotRead s pte hn hp hw hh =>
    have := hP.hotLookup r (getLpa cfg r.hParams) hf
    rwa [hh] at this
  | loaded s₀ s hn hs hl => exact hP.load _ (hP.reachesLoad hf hs) hl
  | neverWritten s hn hs hl => exact hP.reachesLoad hf hs
  | evicted s hn hp hl => exact hlist true s hp hl
  | differ s hn hs => exact hs.preserves hP hlist hf
  | read s hn hs => exact hs.preserves hP hlist hf

/-- The same for an entry of the buffer. -/
theorem ReachesWbCheck.preserves {P : Store → Prop} (hP : AccessInvariant cfg P) {s₀ : Store}
    {e : WbEntry} {choice : Rebalance} {s : Store}
    (hlist : ∀ s₁ rc s', ReachesWbList cfg s₀ e s₁ → P s₁ →
      s₁.listUp cfg (getLpa cfg e.hParams) choice = some (rc, s') → P s')
    (hs : ReachesWbCheck cfg s₀ e choice s) (hf : P s₀) : P s := by
  rcases hs with ⟨_, rfl⟩ | ⟨s₁, hs, hl⟩ | ⟨_, _, rfl⟩
  · exact hf
  · exact hlist s₁ false s hs (hP.reachesWbList hf hs) hl
  · exact hP.touch _ (hP.isHit _ (hP.wbHotAccess e _ hf))

/-- A write-buffer pass keeps what the accesses and its `list_up` keep. -/
theorem WbPath.preserves {P : Store → Prop} (hP : AccessInvariant cfg P) {realKeys : Nat → Key}
    {ht : DHtable} {s₀ : Store} {e : WbEntry} {choice : Rebalance} {s : Store} {ex : WbExit}
    (hlist : ∀ s₁ rc s', ReachesWbList cfg s₀ e s₁ → P s₁ →
      s₁.listUp cfg (getLpa cfg e.hParams) choice = some (rc, s') → P s')
    (h : WbPath cfg realKeys ht s₀ e choice s ex) (hf : P s₀) : P s := by
  cases h with
  | loaded s₁ s hs hl => exact hP.load _ (hP.reachesWbLoad hf hs) hl
  | evicted s₁ s hs hl => exact hlist s₁ true s hs (hP.reachesWbList hf hs) hl
  | update => exact hf
  | unmapped s hs => exact hs.preserves hP hlist hf
  | differ s ppa hs => exact hs.preserves hP hlist hf
  | sameKey s ppa hs => exact hs.preserves hP hlist hf
  | otherKey s ppa hs => exact hs.preserves hP hlist hf

end AggreKV.HashKv
