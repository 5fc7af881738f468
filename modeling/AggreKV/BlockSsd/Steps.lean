import AggreKV.BlockSsd.System

/-! # What a step of the block FTL does

    `Step` lists the steps of the machine with their guards, `WbPath` and
    `GetPath` the ways through one pass. Invariants are proved by cases on
    these, never by unfolding `next`. -/

namespace AggreKV.BlockSsd

open HashKv (Jump FlushNode dIdx flushAppend)

variable {cfg : Settings} {fp : Key → UInt32}

/-! ## Section 1: Passes -/

/-- A hit counts one more access of the page. -/
theorem Cold.isHit_of_pt {c : Cold} {lpa : Nat} (h : (c.cmt (dIdx lpa)).pt = true) :
    c.isHit lpa = (true, c.setCmt (dIdx lpa)
      { c.cmt (dIdx lpa) with hitCnt := ((c.cmt (dIdx lpa)).hitCnt + 1) % 4294967296 }) :=
  if_pos h

/-- A miss changes nothing. -/
theorem Cold.isHit_of_not_pt {c : Cold} {lpa : Nat} (h : (c.cmt (dIdx lpa)).pt = false) :
    c.isHit lpa = (false, c) :=
  if_neg (by simp [h])

/-- An entry of the write buffer gets to `wb_cache_list_up` in store `s`. -/
def WbLists (params : Option Jump) (lpa : Nat) (s : Store) : Prop :=
  params = some .list ∨
    (params = some .load ∨ params = none ∧ (s.cold.cmt (dIdx lpa)).pt = false) ∧ s.load lpa = none

/-- The ways through `wbPass`. -/
inductive WbPath (cfg : Settings) (ht : DHtable) (s : Store) (e : WbEntry) :
    Store → WbExit → Prop where
  | loaded (s') (hp : e.params = some .load ∨
        e.params = none ∧ (s.cold.cmt (dIdx (getLpa e.key))).pt = false)
      (hl : s.load (getLpa e.key) = some s') :
      WbPath cfg ht s e s' (.parked { e with params := some .list })
  | evicted (s') (hp : WbLists e.params (getLpa e.key) s)
      (hl : s.listUp cfg (getLpa e.key) = some (true, s')) :
      WbPath cfg ht s e s' (.parked { e with params := some .complete })
  | listed (s') (hp : WbLists e.params (getLpa e.key) s)
      (hl : s.listUp cfg (getLpa e.key) = some (false, s')) :
      WbPath cfg ht s e s' (wbDataCheck cfg ht s' { e with params := none } (getLpa e.key))
  | resumed (hp : e.params = some .complete) :
      WbPath cfg ht s e s (wbDataCheck cfg ht s { e with params := none } (getLpa e.key))
  | hit (hp : e.params = none) (hpt : (s.cold.cmt (dIdx (getLpa e.key))).pt = true) :
      WbPath cfg ht s e { s with cold := (s.cold.isHit (getLpa e.key)).2.touch (getLpa e.key) }
        (wbDataCheck cfg ht { s with cold := (s.cold.isHit (getLpa e.key)).2.touch (getLpa e.key) }
          { e with params := none } (getLpa e.key))
  | jumped (hp : e.params = some .update) : WbPath cfg ht s e s (.update { e with params := none })

theorem wbCacheListUp_path {ht : DHtable} {s s' : Store} {e : WbEntry} {ex : WbExit}
    (hp : WbLists e.params (getLpa e.key) s)
    (h : wbCacheListUp cfg ht s { e with params := none } (getLpa e.key) = some (s', ex)) :
    WbPath cfg ht s e s' ex := by
  obtain ⟨⟨rc, s₁⟩, hl, he⟩ := Option.map_eq_some_iff.mp h
  cases rc with
  | true =>
    cases he
    exact .evicted _ hp hl
  | false =>
    cases he
    exact .listed _ hp hl

theorem wbCacheLoad_path {ht : DHtable} {s s' : Store} {e : WbEntry} {ex : WbExit}
    (hp : e.params = some .load ∨ e.params = none ∧ (s.cold.cmt (dIdx (getLpa e.key))).pt = false)
    (h : wbCacheLoad cfg ht s { e with params := none } (getLpa e.key) = some (s', ex)) :
    WbPath cfg ht s e s' ex := by
  unfold wbCacheLoad at h
  split at h
  · next s₁ hl =>
    cases h
    exact .loaded _ hp hl
  · next hl => exact wbCacheListUp_path (Or.inr ⟨hp, hl⟩) h

/-- Every pass over a buffered entry takes one of the paths. -/
theorem WbPath.of_pass {ht : DHtable} {s s' : Store} {e : WbEntry} {ex : WbExit}
    (h : wbPass cfg ht s e = some (s', ex)) : e.hParams.cnt ≤ 1024 ∧ WbPath cfg ht s e s' ex := by
  unfold wbPass at h
  split at h
  · cases h
  · next hcnt =>
    refine ⟨by omega, ?_⟩
    dsimp only at h
    split at h
    -- A resumed entry goes on at its label.
    · next jump hj =>
      cases jump with
      | load => exact wbCacheLoad_path (Or.inl hj) h
      | list => exact wbCacheListUp_path (Or.inl hj) h
      | complete =>
        cases h
        exact .resumed hj
      | update =>
        cases h
        exact .jumped hj
      | evict => cases h
      | read => cases h
      | write => cases h
    · next hj =>
      have he : { e with params := none } = e := by
        cases e
        simp_all
      -- A new entry looks its page up in the cache.
      cases hpt : (s.cold.cmt (dIdx (getLpa e.key))).pt with
      | true =>
        have hhit : (s.cold.isHit (getLpa e.key)).1 = true := by rw [Cold.isHit_of_pt hpt]
        rw [if_pos hhit] at h
        cases h
        have hc : WbPath cfg ht s e _ _ := .hit hj hpt
        rwa [he] at hc
      | false =>
        have hmiss : ¬(s.cold.isHit (getLpa e.key)).1 = true := by
          rw [Cold.isHit_of_not_pt hpt]
          exact Bool.false_ne_true
        rw [if_neg hmiss] at h
        exact wbCacheLoad_path (Or.inr ⟨hj, hpt⟩) (he ▸ h)

/-- The ways through `demandGetPass`. -/
inductive GetPath (cfg : Settings) (f : Ftl) (r : Request) : Store → GetExit → Prop where
  | exhausted (hcnt : f.maxTry < r.hParams.cnt) : GetPath cfg f r f.store (.done .notFound)
  | unread (hp : r.params = some .read) : GetPath cfg f r f.store (.done .notFound)
  | wbHit (hp : r.params = none) (hw : wbFind r.key f.wb = true) :
      GetPath cfg f r f.store (.done .inWriteBuffer)
  | loaded (s) (hl : f.store.load (getLpa r.key) = some s) :
      GetPath cfg f r s (.parked { r with params := some .list })
  | neverWritten (hp : r.params = some .load ∨
        r.params = none ∧ (f.store.cold.cmt (dIdx (getLpa r.key))).pt = false)
      (hw : r.params = none → r.hParams.cnt = 0 → wbFind r.key f.wb = false)
      (hl : f.store.load (getLpa r.key) = none) :
      GetPath cfg f r f.store (.done .notFound)
  | evicted (s) (hp : r.params = some .list ∨ r.params = some .evict)
      (hl : f.store.listUp cfg (getLpa r.key) = some (true, s)) :
      GetPath cfg f r s (.parked { r with params := some .complete })
  | listed (s) (hp : r.params = some .list ∨ r.params = some .evict)
      (hl : f.store.listUp cfg (getLpa r.key) = some (false, s)) :
      GetPath cfg f r s (cacheCheckComplete f.realKeys s { r with params := none } (getLpa r.key))
  | resumed (hp : r.params = some .complete) :
      GetPath cfg f r f.store
        (cacheCheckComplete f.realKeys f.store { r with params := none } (getLpa r.key))
  | hit (hp : r.params = none) (hcnt : r.hParams.cnt ≤ f.maxTry)
      (hw : r.hParams.cnt = 0 → wbFind r.key f.wb = false)
      (hpt : (f.store.cold.cmt (dIdx (getLpa r.key))).pt = true) :
      GetPath cfg f r
        { f.store with cold := (f.store.cold.isHit (getLpa r.key)).2.touch (getLpa r.key) }
        (cacheCheckComplete f.realKeys
          { f.store with cold := (f.store.cold.isHit (getLpa r.key)).2.touch (getLpa r.key) }
          { r with params := none } (getLpa r.key))

theorem cacheListUp_path {f : Ftl} {r : Request} {s : Store} {ex : GetExit}
    (hp : r.params = some .list ∨ r.params = some .evict)
    (h : cacheListUp cfg f.realKeys f.store { r with params := none } (getLpa r.key) =
      some (s, ex)) :
    GetPath cfg f r s ex := by
  obtain ⟨⟨rc, s₁⟩, hl, he⟩ := Option.map_eq_some_iff.mp h
  cases rc with
  | true =>
    cases he
    exact .evicted _ hp hl
  | false =>
    cases he
    exact .listed _ hp hl

theorem cacheLoad_path {f : Ftl} {r : Request} {s : Store} {ex : GetExit}
    (hp : r.params = some .load ∨
      r.params = none ∧ (f.store.cold.cmt (dIdx (getLpa r.key))).pt = false)
    (hw : r.params = none → r.hParams.cnt = 0 → wbFind r.key f.wb = false)
    (h : cacheLoad f.store { r with params := none } (getLpa r.key) = (s, ex)) :
    GetPath cfg f r s ex := by
  unfold cacheLoad at h
  split at h
  · next s₁ hl =>
    cases h
    exact .loaded _ hl
  · next hl =>
    cases h
    exact .neverWritten hp hw hl

/-- Every pass of a get takes one of the paths. -/
theorem GetPath.of_pass {f : Ftl} {r : Request} {s : Store} {ex : GetExit}
    (h : demandGetPass cfg f r = some (s, ex)) : GetPath cfg f r s ex := by
  unfold demandGetPass at h
  dsimp only at h
  split at h
  · next hcnt =>
    cases h
    exact .exhausted hcnt
  · next hcnt =>
    split at h
    -- A resumed request goes on at its label.
    · next jump hj =>
      have hne : r.params ≠ none := by
        rw [hj]
        exact Option.some_ne_none jump
      cases jump with
      | load => exact cacheLoad_path (Or.inl hj) (fun hn => absurd hn hne) (Option.some.inj h)
      | list => exact cacheListUp_path (Or.inl hj) h
      | evict => exact cacheListUp_path (Or.inr hj) h
      | complete =>
        cases h
        exact .resumed hj
      | read =>
        cases h
        exact .unread hj
      | write => cases h
      | update => cases h
    · next hj =>
      have he : { r with params := none } = r := by
        cases r
        simp_all
      split at h
      · cases h
      · split at h
        · next hw =>
          cases h
          exact .wbHit hj hw.2
        · next hw =>
          -- A new request asks the write buffer first, in its first pass only.
          have hnw : r.hParams.cnt = 0 → wbFind r.key f.wb = false := fun hc => by
            have hnf : ¬wbFind r.key f.wb = true := fun hf => hw ⟨hc, hf⟩
            simpa using hnf
          cases hpt : (f.store.cold.cmt (dIdx (getLpa r.key))).pt with
          | true =>
            have hhit : (f.store.cold.isHit (getLpa r.key)).1 = true := by
              rw [Cold.isHit_of_pt hpt]
            rw [if_pos hhit] at h
            cases h
            have hc : GetPath cfg f r _ _ := .hit hj (by omega) hnw hpt
            rwa [he] at hc
          | false =>
            have hmiss : ¬(f.store.cold.isHit (getLpa r.key)).1 = true := by
              rw [Cold.isHit_of_not_pt hpt]
              exact Bool.false_ne_true
            rw [if_neg hmiss] at h
            exact cacheLoad_path (Or.inr ⟨hj, hpt⟩) (fun _ => hnw) (he ▸ Option.some.inj h)

/-- Past the last try the get is answered not-found. -/
theorem demandGetPass_exhausted {f : Ftl} {r : Request} {s : Store} {ex : GetExit}
    (h : demandGetPass cfg f r = some (s, ex)) (hx : f.maxTry < r.hParams.cnt) :
    ex = .done .notFound := by
  unfold demandGetPass at h
  dsimp only at h
  rw [if_pos hx] at h
  cases h
  rfl

/-- A pass keeps the key, the value and the page of its entry. -/
structure WbEntry.SameValue (x e : WbEntry) : Prop where
  key : x.key = e.key
  value : x.value = e.value
  ppa : x.ppa = e.ppa
  keyFp : x.hParams.keyFp = e.hParams.keyFp

def WbExit.entry : WbExit → WbEntry
  | .again e | .parked e | .update e | .directUpdate e => e

/-- The data check changes the retry state only. -/
theorem wbDataCheck_sameValue (ht : DHtable) (s : Store) (e : WbEntry) (lpa : Nat) :
    (wbDataCheck cfg ht s { e with params := none } lpa).entry.SameValue e := by
  unfold wbDataCheck
  dsimp only
  split
  · exact ⟨rfl, rfl, rfl, rfl⟩
  · split
    · exact ⟨rfl, rfl, rfl, rfl⟩
    · split
      · exact ⟨rfl, rfl, rfl, rfl⟩
      · exact ⟨rfl, rfl, rfl, rfl⟩

theorem WbPath.sameValue {ht : DHtable} {s s' : Store} {e : WbEntry} {ex : WbExit}
    (h : WbPath cfg ht s e s' ex) : ex.entry.SameValue e := by
  cases h with
  | loaded => exact ⟨rfl, rfl, rfl, rfl⟩
  | evicted => exact ⟨rfl, rfl, rfl, rfl⟩
  | listed => exact wbDataCheck_sameValue ht s' e _
  | resumed => exact wbDataCheck_sameValue ht s e _
  | hit => exact wbDataCheck_sameValue ht _ e _
  | jumped => exact ⟨rfl, rfl, rfl, rfl⟩

/-- The request a pass leaves behind. -/
def GetExit.request : GetExit → Option Request
  | .again r | .parked r => some r
  | .done _ => none

theorem cacheCheckComplete_key (realKeys : Nat → Key) (s : Store) (r r' : Request) (lpa : Nat)
    (h : (cacheCheckComplete realKeys s { r with params := none } lpa).request = some r') :
    r'.key = r.key := by
  unfold cacheCheckComplete at h
  dsimp only at h
  split at h
  · cases h
    rfl
  · unfold dataRead at h
    split at h
    · cases h
    · split at h
      · cases h
      · cases h
        rfl

/-- A get goes on with its own key. -/
theorem GetPath.key {f : Ftl} {r r' : Request} {s : Store} {ex : GetExit}
    (h : GetPath cfg f r s ex) (hr : ex.request = some r') : r'.key = r.key := by
  cases h with
  | exhausted => cases hr
  | unread => cases hr
  | wbHit => cases hr
  | loaded =>
    cases hr
    rfl
  | neverWritten => cases hr
  | evicted =>
    cases hr
    rfl
  | listed => exact cacheCheckComplete_key _ _ r r' _ hr
  | resumed => exact cacheCheckComplete_key _ _ r r' _ hr
  | hit => exact cacheCheckComplete_key _ _ r r' _ hr

/-! ## Section 2: Steps -/

/-- The steps of the machine from `f`. -/
inductive Step (cfg : Settings) (fp : Key → UInt32) (f : Ftl) : Label → Ftl → Prop where
  | get (key) (hp : f.phase = .idle) (hk : getLpa key < cfg.nrValidTentries) :
      Step cfg fp f (.get key) { f with
        nextId := f.nextId + 1
        phase := .getting ⟨f.nextId, key, makeHashParams fp key, none⟩ }
  | resume (i) (r) (hp : f.phase = .idle) (hr : f.retryQ[i]? = some r) :
      Step cfg fp f (.resume i) { f with retryQ := f.retryQ.eraseIdx i, phase := .getting r }
  | getPass (r s ex) (hp : f.phase = .getting r) (hd : GetPath cfg f r s ex)
      (hx : f.maxTry < r.hParams.cnt → ex = .done .notFound) :
      Step cfg fp f .getPass (f.afterGet r.id s ex)
  | setFull (key bytes) (hp : f.phase = .idle) (hl : getLpa key < cfg.nrValidTentries)
      (hk : key ≠ keyMax) (hfull : f.wb.length = cfg.maxWriteBuf) :
      Step cfg fp f (.set key bytes) { f with
        nextId := f.nextId + 1
        phase := .assigning ⟨⟨f.nextId, key⟩, f.wb.reverse, none⟩ }
  | setInsert (key bytes) (hp : f.phase = .idle) (hl : getLpa key < cfg.nrValidTentries)
      (hk : key ≠ keyMax) (hfull : f.wb.length ≠ cfg.maxWriteBuf) :
      Step cfg fp f (.set key bytes)
        ({ f with nextId := f.nextId + 1 }.insert fp ⟨f.nextId, key⟩)
  | endAssign (m) (hp : f.phase = .assigning m) (hb : m.bucket = []) :
      Step cfg fp f .assign (f.endAssign m.req)
  | assign (m e bucket ppa s) (hp : f.phase = .assigning m) (hb : m.bucket = e :: bucket)
      (ha : assignEntry cfg f.store e = some (ppa, s)) :
      Step cfg fp f .assign { f with
        store := s
        wb := wbSetPpa f.wb e.key ppa
        flushList := flushAppend f.flushList ppa fun _ => m.lastPpa.any fun last => ppa = last + 1
        phase := .assigning ⟨m.req, bucket, some ppa⟩ }
  | pickRetry (i) (m e) (hp : f.phase = .mapping m) (hc : m.cur = none)
      (he : m.retry[i]? = some e) (hu : m.updated < cfg.maxWriteBuf) :
      Step cfg fp f (.pickRetry i)
        { f with phase := .mapping { m with cur := some e, retry := m.retry.eraseIdx i } }
  | pickMaster (m e master) (hp : f.phase = .mapping m) (hc : m.cur = none)
      (he : m.master = e :: master) (hu : m.updated < cfg.maxWriteBuf) :
      Step cfg fp f .pickMaster
        { f with phase := .mapping { m with cur := some e, master := master } }
  | wbAgain (m e s e') (hp : f.phase = .mapping m) (hc : m.cur = some e)
      (hcnt : e.hParams.cnt ≤ 1024) (hw : WbPath cfg f.hashTable f.store e s (.again e')) :
      Step cfg fp f .wbPass { f with store := s, phase := .mapping { m with cur := some e' } }
  | wbParked (m e s e') (hp : f.phase = .mapping m) (hc : m.cur = some e)
      (hcnt : e.hParams.cnt ≤ 1024) (hw : WbPath cfg f.hashTable f.store e s (.parked e')) :
      Step cfg fp f .wbPass
        { f with store := s, phase := .mapping { m with cur := none, retry := m.retry ++ [e'] } }
  | wbUpdate (m e s e' ppa) (hp : f.phase = .mapping m) (hc : m.cur = some e)
      (hcnt : e.hParams.cnt ≤ 1024) (hw : WbPath cfg f.hashTable f.store e s (.update e'))
      (hppa : e'.ppa = some ppa) :
      Step cfg fp f .wbPass
        (f.install cfg m (wbInvalidateOld cfg s (getLpa e'.key)) e' ppa)
  | wbDirectUpdate (m e s e' ppa) (hp : f.phase = .mapping m) (hc : m.cur = some e)
      (hcnt : e.hParams.cnt ≤ 1024) (hw : WbPath cfg f.hashTable f.store e s (.directUpdate e'))
      (hppa : e'.ppa = some ppa) :
      Step cfg fp f .wbPass (f.install cfg m s e' ppa)
  | flush (m) (hp : f.phase = .mapping m) (hc : m.cur = none)
      (hu : cfg.maxWriteBuf ≤ m.updated) (hm : m.master = []) (hr : m.retry = []) :
      Step cfg fp f .flush ((f.emptied cfg).insert fp m.req)

/-- The pass of a batch, by what it comes to. -/
theorem Step.of_mapPass {f f' : Ftl} {m : MapUpdate} {e : WbEntry} (hp : f.phase = .mapping m)
    (hc : m.cur = some e) (h : f.mapPass cfg m e = some f') : Step cfg fp f .wbPass f' := by
  obtain ⟨⟨s, ex⟩, hw, h⟩ := Option.bind_eq_some_iff.mp h
  obtain ⟨hcnt, hw⟩ := WbPath.of_pass hw
  cases ex with
  | again e' =>
    cases h
    exact .wbAgain m e s e' hp hc hcnt hw
  | parked e' =>
    cases h
    exact .wbParked m e s e' hp hc hcnt hw
  | update e' =>
    obtain ⟨ppa, hppa, rfl⟩ := Option.map_eq_some_iff.mp h
    exact .wbUpdate m e s e' ppa hp hc hcnt hw hppa
  | directUpdate e' =>
    obtain ⟨ppa, hppa, rfl⟩ := Option.map_eq_some_iff.mp h
    exact .wbDirectUpdate m e s e' ppa hp hc hcnt hw hppa

theorem Step.of_set {f f' : Ftl} {key : Key} {bytes : Nat} (hp : f.phase = .idle)
    (hl : getLpa key < cfg.nrValidTentries) (h : f.set cfg fp key bytes = some f') :
    Step cfg fp f (.set key bytes) f' := by
  unfold Ftl.set at h
  split at h
  · cases h
  · next hv =>
    have hk : key ≠ keyMax := fun hk => hv (Or.inr hk)
    dsimp only at h
    split at h
    · next hfull =>
      cases h
      exact .setFull key bytes hp hl hk hfull
    · next hfull =>
      cases h
      exact .setInsert key bytes hp hl hk hfull

theorem Step.of_assign {f f' : Ftl} {m : Assign} (hp : f.phase = .assigning m)
    (h : f.assign cfg m = some f') : Step cfg fp f .assign f' := by
  unfold Ftl.assign at h
  split at h
  · next hb =>
    cases h
    exact .endAssign m hp hb
  · next e bucket hb =>
    obtain ⟨⟨ppa, s⟩, ha, rfl⟩ := Option.map_eq_some_iff.mp h
    exact .assign m e bucket ppa s hp hb ha

/-- Every transition of the machine is one of the steps. -/
theorem Step.of_next {f f' : Ftl} {a : Label} (h : Ftl.next cfg fp f a = some f') :
    Step cfg fp f a f' := by
  cases a with
  | get key =>
    simp only [Ftl.next] at h
    split at h
    · next hp =>
      split at h
      · next hk =>
        cases h
        exact .get key hp hk
      · cases h
    · cases h
  | resume i =>
    simp only [Ftl.next] at h
    split at h
    · next r hp hr =>
      cases h
      exact .resume i r hp hr
    · cases h
  | getPass =>
    simp only [Ftl.next] at h
    split at h
    · next r hp =>
      obtain ⟨⟨s, ex⟩, hd, rfl⟩ := Option.map_eq_some_iff.mp h
      exact .getPass r s ex hp (.of_pass hd) (demandGetPass_exhausted hd)
    · cases h
  | set key bytes =>
    simp only [Ftl.next] at h
    split at h
    · next hp =>
      split at h
      · next hl => exact .of_set hp hl h
      · cases h
    · cases h
  | assign =>
    simp only [Ftl.next] at h
    split at h
    · next m hp => exact .of_assign hp h
    · cases h
  | pickRetry i =>
    simp only [Ftl.next] at h
    split at h
    · next m hp =>
      split at h
      · next e hc he =>
        split at h
        · next hu =>
          cases h
          exact .pickRetry i m e hp hc he hu
        · cases h
      · cases h
    · cases h
  | pickMaster =>
    simp only [Ftl.next] at h
    split at h
    · next m hp =>
      split at h
      · next e master hc he =>
        split at h
        · next hu =>
          cases h
          exact .pickMaster m e master hp hc he hu
        · cases h
      · cases h
    · cases h
  | wbPass =>
    simp only [Ftl.next] at h
    split at h
    · next m hp =>
      split at h
      · next e hc => exact .of_mapPass hp hc h
      · cases h
    · cases h
  | flush =>
    simp only [Ftl.next] at h
    split at h
    · next m hp =>
      split at h
      · next hc =>
        simp only [Ftl.flush] at h
        split at h
        · next hq =>
          cases h
          exact .flush m hp (Option.isNone_iff_eq_none.mp hc.1) hc.2 hq.1 hq.2
        · cases h
      · cases h
    · cases h

/-! ## Section 3: Keys in flight -/

/-- The entries of a batch that are not installed yet. -/
def MapUpdate.pending (m : MapUpdate) : List WbEntry := m.cur.toList ++ m.retry ++ m.master

def Phase.Keys (P : Key → Prop) : Phase → Prop
  | .idle => True
  | .getting r => P r.key
  | .assigning m => P m.req.key ∧ ∀ e ∈ m.bucket, P e.key
  | .mapping m => P m.req.key ∧ ∀ e ∈ m.pending, P e.key

/-- Every key the FTL holds satisfies `P`. -/
structure Ftl.Keys (P : Key → Prop) (f : Ftl) : Prop where
  wb : ∀ e ∈ f.wb, P e.key
  retryQ : ∀ r ∈ f.retryQ, P r.key
  phase : f.phase.Keys P

/-- The keys of the requests the environment makes satisfy `P`. -/
def Label.Keys (P : Key → Prop) : Label → Prop
  | .get key => P key
  | .set key _ => P key
  | _ => True

theorem mem_wbInsert {key : Key} {value : Nat} {hp : HashParams} {wb : List WbEntry}
    {e : WbEntry} (h : e ∈ wbInsert key value hp wb) :
    e.key = key ∧ e.value = value ∧ e.hParams = hp ∨ e ∈ wb := by
  rw [wbInsert_eq] at h
  rcases mem_sortedInsert h with h | rfl | ⟨x, _, hk, rfl⟩
  · exact Or.inr h
  · exact Or.inl ⟨rfl, rfl, rfl⟩
  · exact Or.inl ⟨hk, rfl, rfl⟩

theorem mem_wbSetPpa {wb : List WbEntry} {key : Key} {ppa : Nat} {e : WbEntry}
    (h : e ∈ wbSetPpa wb key ppa) :
    ∃ x ∈ wb, e = if x.key = key then { x with ppa := some ppa } else x := by
  obtain ⟨x, hx, rfl⟩ := List.mem_map.mp h
  exact ⟨x, hx, rfl⟩

namespace Ftl.Keys

variable {P : Key → Prop} {f : Ftl}

theorem setPhase (h : f.Keys P) {p : Phase} (hp : p.Keys P) {f' : Ftl} (hwb : f'.wb = f.wb)
    (hq : ∀ r ∈ f'.retryQ, P r.key) (hphase : f'.phase = p) : f'.Keys P :=
  ⟨fun e he => h.wb e (hwb ▸ he), hq, hphase ▸ hp⟩

/-- The entry of a pass is replaced by one with the same key. -/
theorem pending {m m' : MapUpdate} (h : f.Keys P) (hp : f.phase = .mapping m)
    (hr : m'.req = m.req) (hsub : ∀ e ∈ m'.pending, ∃ x ∈ m.pending, e.key = x.key) :
    Phase.Keys P (.mapping m') := by
  have hk := h.phase
  rw [hp] at hk
  refine ⟨by rw [hr]; exact hk.1, fun e he => ?_⟩
  obtain ⟨x, hx, hkey⟩ := hsub e he
  rw [hkey]
  exact hk.2 x hx

theorem insert (hwb : ∀ e ∈ f.wb, P e.key) (hq : ∀ r ∈ f.retryQ, P r.key) {req : SetRequest}
    (hr : P req.key) : (f.insert fp req).Keys P := by
  refine ⟨fun e he => ?_, hq, trivial⟩
  rcases mem_wbInsert he with ⟨hk, _⟩ | he
  · rw [hk]
    exact hr
  · exact hwb e he

/-- A step keeps the keys in flight: they come from the requests. -/
theorem step {f' : Ftl} {a : Label} (h : f.Keys P) (ha : a.Keys P) (hs : Step cfg fp f a f') :
    f'.Keys P := by
  cases hs with
  | get key hp hk => exact ⟨h.wb, h.retryQ, ha⟩
  | resume i r hp hr =>
    refine ⟨h.wb, fun x hx => h.retryQ x (List.mem_of_mem_eraseIdx hx), ?_⟩
    exact h.retryQ r (List.mem_of_getElem? hr)
  | getPass r s ex hp hd hx =>
    have hkey : P r.key := by
      have hk := h.phase
      rwa [hp] at hk
    cases ex with
    | again r' =>
      refine ⟨h.wb, h.retryQ, ?_⟩
      show P r'.key
      rw [hd.key rfl]
      exact hkey
    | parked r' =>
      refine ⟨h.wb, fun x hx => ?_, trivial⟩
      rcases List.mem_append.mp hx with hx | hx
      · exact h.retryQ x hx
      · rw [List.mem_singleton.mp hx, hd.key rfl]
        exact hkey
    | done o => exact ⟨h.wb, h.retryQ, trivial⟩
  | setFull key bytes hp hl hk hfull =>
    exact ⟨h.wb, h.retryQ, ha, fun e he => h.wb e (List.mem_reverse.mp he)⟩
  | setInsert key bytes hp hl hk hfull =>
    exact insert (f := { f with nextId := f.nextId + 1 }) h.wb h.retryQ ha
  | endAssign m hp hb =>
    have hk := h.phase
    rw [hp] at hk
    refine ⟨h.wb, h.retryQ, hk.1, fun e he => ?_⟩
    have hmem : e ∈ f.wb := he
    exact h.wb e hmem
  | assign m e bucket ppa s hp hb ha' =>
    have hk := h.phase
    rw [hp] at hk
    refine ⟨fun x hx => ?_, h.retryQ, hk.1, fun x hx => hk.2 x (hb ▸ List.mem_cons_of_mem _ hx)⟩
    obtain ⟨y, hy, rfl⟩ := mem_wbSetPpa hx
    split
    · exact h.wb y hy
    · exact h.wb y hy
  -- The entry moves from the retry queue to the front of the pending ones.
  | pickRetry i m e hp hc he hu =>
    refine ⟨h.wb, h.retryQ, h.pending hp rfl fun x hx => ⟨x, ?_, rfl⟩⟩
    simp only [MapUpdate.pending, hc, Option.toList_none, Option.toList_some, List.nil_append,
      List.cons_append, List.mem_cons, List.mem_append] at hx ⊢
    rcases hx with rfl | hx | hx
    · exact Or.inl (List.mem_of_getElem? he)
    · exact Or.inl (List.mem_of_mem_eraseIdx hx)
    · exact Or.inr hx
  | pickMaster m e master hp hc he hu =>
    refine ⟨h.wb, h.retryQ, h.pending hp rfl fun x hx => ⟨x, ?_, rfl⟩⟩
    simp only [MapUpdate.pending, hc, he, Option.toList_none, Option.toList_some, List.nil_append,
      List.cons_append, List.mem_cons, List.mem_append] at hx ⊢
    tauto
  | wbAgain m e s e' hp hc hcnt hw =>
    refine ⟨h.wb, h.retryQ, h.pending hp rfl fun x hx => ?_⟩
    simp only [MapUpdate.pending, hc, Option.toList_some, List.cons_append, List.nil_append,
      List.mem_cons, List.mem_append, exists_eq_or_imp] at hx ⊢
    rcases hx with rfl | hx
    · exact Or.inl hw.sameValue.key
    · exact Or.inr ⟨x, hx, rfl⟩
  | wbParked m e s e' hp hc hcnt hw =>
    refine ⟨h.wb, h.retryQ, h.pending hp rfl fun x hx => ?_⟩
    simp only [MapUpdate.pending, hc, Option.toList_none, Option.toList_some, List.nil_append,
      List.cons_append, List.mem_cons, List.mem_append, exists_eq_or_imp, List.not_mem_nil,
      or_false] at hx ⊢
    rcases hx with (hx | rfl) | hx
    · exact Or.inr ⟨x, Or.inl hx, rfl⟩
    · exact Or.inl hw.sameValue.key
    · exact Or.inr ⟨x, Or.inr hx, rfl⟩
  -- An installed entry is not in flight any more.
  | wbUpdate m e s e' ppa hp hc hcnt hw hppa | wbDirectUpdate m e s e' ppa hp hc hcnt hw hppa =>
    refine ⟨h.wb, h.retryQ, h.pending hp rfl fun x hx => ⟨x, ?_, rfl⟩⟩
    simp only [MapUpdate.pending, Option.toList_none, List.nil_append, List.mem_append] at hx ⊢
    tauto
  | flush m hp hc hu hm hr =>
    have hk := h.phase
    rw [hp] at hk
    exact insert (f := f.emptied cfg) (fun _ he => by cases he) h.retryQ hk.1

theorem create (garbage : Nat → Key) : (Ftl.create cfg garbage).Keys P :=
  ⟨fun _ he => (by cases he), fun _ hr => (by cases hr), trivial⟩

end Ftl.Keys

end AggreKV.BlockSsd
