import AggreKV.BlockSsd.Batch

/-! # Read after write in the block SSD

    Every set that has been flushed is found by the gets of its block, in
    every run in which no entry of a batch resumes behind an eviction that
    left its page nowhere, and no collection moves a page of the batch in
    progress.

    * `GetEffect`: how a get pass ends, from the slot of its key.
    * `Durable.step`: every step of the condition keeps the invariant.
    * `blockLost_counterexample`: an entry resumes, updates the mapping of a
      page that has left the cache, and the next get is answered not-found. -/

namespace AggreKV.BlockSsd

open HashKv (Jump Pte dIdx flushAppend)

variable {cfg : Settings} {fp : Key → UInt32}

/-! ## Section 1: Gets -/

/-- How a get pass ends: a slot that has never been written is not found, any other is
    found at its page. -/
inductive GetEffect (fp : Key → UInt32) (f : Ftl) (r : Request) : GetExit → Prop where
  | again (r' : Request) (hk : r'.key = r.key) (hfp : r'.hParams.keyFp = r.hParams.keyFp)
      (hn : r'.params = none) (hu : (f.store.cold.memTable (getLpa r.key)).ppa = none) :
      GetEffect fp f r (.again r')
  | parked (r' : Request) (hk : r'.key = r.key) (hh : r'.hParams = makeHashParams fp r.key)
      (hn : Resumable r'.params) : GetEffect fp f r (.parked r')
  | inWriteBuffer (hw : wbFind r.key f.wb = true) : GetEffect fp f r (.done .inWriteBuffer)
  | notFound (hu : (f.store.cold.memTable (getLpa r.key)).ppa = none) :
      GetEffect fp f r (.done .notFound)
  | found (p : Nat) (hp : (f.store.cold.memTable (getLpa r.key)).ppa = some p) :
      GetEffect fp f r (.done (.found (getLpa r.key) p))

/-- The check of the entry, in a store with the same entries. -/
theorem GetEffect.of_check {pend : List WbEntry} {f : Ftl} {r : Request} {s : Store}
    (h : Core cfg fp pend f) (hs : SameData cfg f.store s) (hcan : Canonical r.key)
    (hfp : r.hParams.keyFp = fp r.key) :
    GetEffect fp f r
      (cacheCheckComplete f.realKeys s { r with params := none } (getLpa r.key)) := by
  unfold cacheCheckComplete Cold.getPte
  rw [hs.memTable]
  dsimp only
  cases hslot : (f.store.cold.memTable (getLpa r.key)).ppa with
  | none =>
    split
    · exact .again _ rfl rfl rfl hslot
    · exact .notFound hslot
  | some p =>
    obtain ⟨hkey, hkfp⟩ := h.slots (getLpa r.key) (by rw [hslot]; rfl)
    have hsame : f.realKeys (getLpa r.key) = r.key := hkey.inj hcan
    rw [hsame] at hkfp
    rw [if_neg fun hne => hne (hfp.trans hkfp.symm)]
    unfold dataRead
    dsimp only
    rw [hsame, if_pos (keycmp_eq_zero.mpr rfl)]
    exact .found p hslot

/-- A get answers from the buffer or from its slot, waits, or finds its slot unmapped. -/
theorem GetEffect.of_path {f : Ftl} {r : Request} {s : Store} {ex : GetExit}
    (h : Core cfg fp f.wb f) (hg : GettingOk fp f r) (hcan : Canonical r.key)
    (hx : f.maxTry < r.hParams.cnt → ex = .done .notFound) (hd : GetPath cfg f r s ex) :
    MapSide cfg s ∧ SameData cfg f.store s ∧ GetEffect fp f r ex := by
  have hres := hg.params
  have hparked : (∀ o, ex ≠ .done o) → r.hParams = makeHashParams fp r.key := fun hne => by
    have hcnt : r.hParams.cnt = 0 := by
      by_contra hpos
      refine hne _ (hx ?_)
      rw [h.maxTry]
      omega
    have hfp := hg.keyFp
    cases hh : r.hParams
    rw [hh] at hcnt hfp
    rw [makeHashParams, ← hfp, ← hcnt]
  cases hd with
  | exhausted hcnt =>
    refine ⟨h.map, .refl _, .notFound (hg.cnt.resolve_left fun h0 => ?_)⟩
    rw [h.maxTry] at hcnt
    omega
  -- No request asks for its data to be read again.
  | unread hp =>
    rcases hres with hr | hr | hr
    · rw [hr] at hp
      cases hp
    · rw [hr] at hp
      cases hp
    · rw [hr] at hp
      cases hp
  | wbHit _ hw => exact ⟨h.map, .refl _, .inWriteBuffer hw⟩
  -- The page is read or made room for: the get is parked, with its own hash parameters.
  | loaded _ hl =>
    obtain ⟨hm, hs⟩ := h.map.load hl
    exact ⟨hm, hs, .parked _ rfl (hparked fun _ ho => by cases ho) (Or.inr (Or.inl rfl))⟩
  | neverWritten hp _ hl =>
    refine ⟨h.map, .refl _, .notFound ?_⟩
    have hpt : (f.store.cold.cmt (dIdx (getLpa r.key))).pt = false := by
      rcases hp with hp | ⟨_, hpt⟩
      · rcases hres with hr | hr | hr
        · rw [hr] at hp
          cases hp
        · rw [hr] at hp
          cases hp
        · rw [hr] at hp
          cases hp
      · exact hpt
    have hnocopy : (f.store.cold.cmt (dIdx (getLpa r.key))).tPpa.isSome = false := by
      unfold Store.load at hl
      dsimp only at hl
      split at hl
      · next hn => simpa using hn
      · cases hl
    -- A mapped slot would be backed by a flash copy.
    by_contra hmapped
    have hb := Cmt.copy_of_backed (h.map.backed _ hmapped) (by rw [hpt, Bool.false_and])
    rw [hnocopy] at hb
    cases hb
  | evicted _ _ hl =>
    obtain ⟨hm, hs, _⟩ := h.map.listUp hl
    exact ⟨hm, hs, .parked _ rfl (hparked fun _ ho => by cases ho) (Or.inr (Or.inr rfl))⟩
  -- The page is resident, and the slot is checked.
  | listed _ _ hl =>
    obtain ⟨hm, hs, _⟩ := h.map.listUp hl
    exact ⟨hm, hs, .of_check h hs hcan hg.keyFp⟩
  | resumed => exact ⟨h.map, .refl _, .of_check h (.refl _) hcan hg.keyFp⟩
  | hit _ _ _ hpt =>
    obtain ⟨hm, hs⟩ := h.map.hit hpt
    exact ⟨hm, hs, .of_check h hs hcan hg.keyFp⟩

/-! ## Section 2: Runs -/

/-- All pending values are flushed: what was flushed last is what was set last. -/
theorem foldl_flushed {last : Nat → Option Nat} : ∀ {wb : List WbEntry} {fl : Nat → Option Nat},
    (∀ e ∈ wb, last (getLpa e.key) = some e.value) → (∀ l, l ∉ slotsOf wb → fl l = last l) →
    wb.foldl (fun fl e => Function.update fl (getLpa e.key) (some e.value)) fl = last
  | [], fl, _, h => funext fun l => h l (by simp [slotsOf])
  | e :: wb, fl, hv, h => by
      rw [List.foldl_cons]
      refine foldl_flushed (fun x hx => hv x (List.mem_cons_of_mem _ hx)) fun l hl => ?_
      rw [Function.update_apply]
      split
      · next he =>
        rw [he]
        exact (hv e List.mem_cons_self).symm
      · next he =>
        refine h l fun hmem => ?_
        rcases List.mem_cons.mp hmem with hmem | hmem
        · exact he hmem
        · exact hl hmem

/-- The end of a flush. -/
theorem Durable.emptied {f : Ftl} {m : MapUpdate} (h : Durable cfg fp f) (hp : f.phase = .mapping m)
    (hpend : m.pending = []) : Core cfg fp [] (f.emptied cfg) ∧ (f.emptied cfg).Unassigned := by
  have hcore := h.core
  rw [Ftl.pending, hp] at hcore
  have hcore : Core cfg fp [] f := hpend ▸ hcore
  have hfl : (f.emptied cfg).flushed = f.lastSet := foldl_flushed hcore.last hcore.settled
  have hnone : ∀ e ∈ (f.emptied cfg).wb, False := fun e he => by cases he
  refine ⟨⟨⟨⟨hcore.map.map.tidy, hcore.map.map.roles, hcore.map.map.copies⟩, hcore.map.backed⟩,
    ⟨hcore.data.tidy, hcore.data.roles, hcore.data.mapped, hcore.data.live, hcore.data.batch⟩,
    hcore.slots, hcore.value, fun e he => (hnone e he).elim, fun l _ => ?_, List.Pairwise.nil,
    fun e he => (hnone e he).elim, fun e he => (hnone e he).elim, fun e he => (hnone e he).elim,
    hcore.maxTry, hcore.retryQ⟩, fun e he => (hnone e he).elim, fun _ => rfl⟩
  rw [hfl]
  rfl

/-- The next entry is taken from one of the queues. -/
theorem Durable.pick {f : Ftl} {m m' : MapUpdate} (h : Durable cfg fp f) (hp : f.phase = .mapping m)
    (hperm : m'.pending.Perm m.pending) (hup : m'.updated = m.updated) :
    Core cfg fp m'.pending { f with phase := .mapping m' } ∧
      MappingOk cfg fp { f with phase := .mapping m' } m' := by
  have hcore := h.core
  have hphase := h.phase
  rw [Ftl.pending, hp] at hcore
  rw [Ftl.PhaseOk, hp] at hphase
  have hcore' : Core cfg fp m.pending { f with phase := .mapping m' } :=
    hcore.sameData hcore.map (.refl _) rfl rfl rfl rfl rfl hcore.retryQ
  refine ⟨hcore'.rearrange (fun x hx => ⟨x, hperm.mem_iff.mp hx, .refl x⟩) fun y hy =>
    ⟨y, hperm.mem_iff.mpr hy, .refl y⟩, hphase.rearrange (.refl _) rfl rfl rfl hup (hperm.map _)
      fun x hx => ?_⟩
  have hx' := hperm.mem_iff.mp hx
  exact ⟨x, hx', .refl x, rfl, (hphase.pend x hx').2.2⟩

/-- A parked get is taken up again with what it knew. -/
theorem Durable.resume {f f' : Ftl} {i : Nat} {r : Request} (h : Durable cfg fp f)
    (hp : f.phase = .idle) (hr : f.retryQ[i]? = some r)
    (hf : f' = { f with retryQ := f.retryQ.eraseIdx i, phase := .getting r }) :
    Core cfg fp f'.pending f' ∧ f'.PhaseOk cfg fp := by
  have hcore := h.core
  have hphase := h.phase
  rw [Ftl.pending, hp] at hcore
  rw [Ftl.PhaseOk, hp] at hphase
  subst hf
  refine ⟨hcore.sameData hcore.map (.refl _) rfl rfl rfl rfl rfl fun x hx =>
    hcore.retryQ x (List.mem_of_mem_eraseIdx hx), ?_⟩
  obtain ⟨hh, hres⟩ := hcore.retryQ r (List.mem_of_getElem? hr)
  refine ⟨⟨hphase.ppa, hphase.table⟩, ?_, hres, Or.inl ?_⟩
  · rw [hh]
    rfl
  · rw [hh]
    rfl

/-- A get goes on, is parked or ends; no entry and no page changes. -/
theorem Durable.getPass {f : Ftl} {r : Request} {s : Store} {ex : GetExit}
    (h : Durable cfg fp f) (hp : f.phase = .getting r) (hd : GetPath cfg f r s ex)
    (hx : f.maxTry < r.hParams.cnt → ex = .done .notFound) :
    Core cfg fp (f.afterGet r.id s ex).pending (f.afterGet r.id s ex) ∧
      (f.afterGet r.id s ex).PhaseOk cfg fp := by
  have hcore := h.core
  have hphase := h.phase
  have hcan := h.keys.phase
  rw [Ftl.pending, hp] at hcore
  rw [Ftl.PhaseOk, hp] at hphase
  rw [hp] at hcan
  obtain ⟨hm, hs, heff⟩ := GetEffect.of_path hcore hphase hcan hx hd
  have hun : ∀ f'' : Ftl, f''.wb = f.wb → f''.hashTable = f.hashTable → f''.Unassigned :=
    fun f'' hwb htable => ⟨hwb ▸ hphase.unassigned.ppa, htable ▸ hphase.unassigned.table⟩
  cases heff with
  -- Sent on to the next slot, which can only be because its own is unmapped.
  | again r' hk hfp hn hu =>
    refine ⟨hcore.sameData hm hs rfl rfl rfl rfl rfl hcore.retryQ, hun _ rfl rfl, ?_,
      Or.inl hn, Or.inr ?_⟩
    · rw [hfp, hphase.keyFp, hk]
    · show (s.cold.memTable (getLpa r'.key)).ppa = none
      rw [hk, hs.memTable, hu]
  | parked r' hk hh hn =>
    refine ⟨hcore.sameData hm hs rfl rfl rfl rfl rfl fun x hx => ?_, hun _ rfl rfl⟩
    rcases List.mem_append.mp hx with hx | hx
    · exact hcore.retryQ x hx
    · rw [List.mem_singleton.mp hx, hk]
      exact ⟨hh, hn⟩
  | inWriteBuffer | notFound | found =>
    exact ⟨hcore.sameData hm hs rfl rfl rfl rfl rfl hcore.retryQ, hun _ rfl rfl⟩

/-- The buffer is full: its entries, from the last one on, are the batch. -/
theorem Durable.setFull {f f' : Ftl} {key : Key} (h : Durable cfg fp f) (hp : f.phase = .idle)
    (hfull : f.wb.length = cfg.maxWriteBuf)
    (hf : f' = { f with
      nextId := f.nextId + 1
      phase := .assigning ⟨⟨f.nextId, key⟩, f.wb.reverse, none⟩ }) :
    Core cfg fp f'.pending f' ∧ f'.PhaseOk cfg fp := by
  have hcore := h.core
  have hphase := h.phase
  rw [Ftl.pending, hp] at hcore
  rw [Ftl.PhaseOk, hp] at hphase
  subst hf
  refine ⟨hcore.sameData hcore.map (.refl _) rfl rfl rfl rfl rfl hcore.retryQ,
    ⟨hfull, hphase.table, fun e he => Or.inr ?_, ?_, fun b hb => ?_⟩⟩
  · exact List.mem_map_of_mem (List.mem_reverse.mpr he)
  · rw [List.map_reverse, List.nodup_reverse]
    exact hcore.sorted.keys_nodup
  · have hb' := List.mem_reverse.mp hb
    exact ⟨b, hb', rfl, rfl, hphase.ppa b hb'⟩

/-- Every entry has its page, so the batch is mapped next. -/
theorem Durable.endAssign {f : Ftl} {m : Assign} (h : Durable cfg fp f)
    (hp : f.phase = .assigning m) (hb : m.bucket = []) :
    Core cfg fp (f.endAssign m.req).pending (f.endAssign m.req) ∧
      (f.endAssign m.req).PhaseOk cfg fp := by
  have hcore := h.core
  have hphase := h.phase
  rw [Ftl.pending, hp] at hcore
  rw [Ftl.PhaseOk, hp] at hphase
  have hassigned : ∀ e ∈ f.wb, e.ppa.isSome = true := fun e he => by
    have hor := hphase.assigned e he
    rw [hb] at hor
    exact hor.resolve_right (by simp)
  refine ⟨hcore.sameData hcore.map (.refl _) rfl rfl rfl rfl rfl hcore.retryQ,
    ⟨hphase.full, hassigned, fun x hx => ?_, hcore.sorted.keys_nodup, ?_, fun e he hout => ?_,
      fun i l hl => ?_⟩⟩
  · obtain ⟨hh, hn⟩ := hcore.fresh x hx
    exact ⟨⟨x, hx, .refl x⟩, hh, Or.inl hn⟩
  · show 0 + f.wb.length = _
    rw [Nat.zero_add, hphase.full]
  · exact absurd (List.mem_map_of_mem he) hout
  · have hl' : l ∈ f.hashTable i := hl
    rw [hphase.table i] at hl'
    cases hl'

/-- A page is assigned while the collection before it moves no page of the batch. -/
theorem Durable.assign {f f' : Ftl} {m : Assign} {e : WbEntry} {bucket : List WbEntry}
    {ppa : Nat} {s : Store} (h : Durable cfg fp f) (hok : batchSafe cfg f .assign = true)
    (hp : f.phase = .assigning m) (hb : m.bucket = e :: bucket)
    (ha : assignEntry cfg f.store e = some (ppa, s))
    (hf : f' = { f with
      store := s
      wb := wbSetPpa f.wb e.key ppa
      flushList := flushAppend f.flushList ppa fun _ => m.lastPpa.any fun last => ppa = last + 1
      phase := .assigning ⟨m.req, bucket, some ppa⟩ }) :
    Core cfg fp f'.pending f' ∧ f'.PhaseOk cfg fp := by
  have hcore := h.core
  have hphase := h.phase
  rw [Ftl.pending, hp] at hcore
  rw [Ftl.PhaseOk, hp] at hphase
  have hsafe : ∀ it ∈ f.store.gcItems cfg, ¬pagesOf f.wb it.src := by
    intro it hit hpage
    obtain ⟨x, hx, hxp⟩ := hpage
    simp only [batchSafe, hp, hb, List.isEmpty_cons, Bool.false_or, List.all_eq_true,
      decide_eq_true_eq] at hok
    exact hok it hit x hx hxp
  subst hf
  refine hcore.assign hphase hb hsafe ha ?_ ?_ ?_ ?_ ?_ ?_ ?_ ?_ m.req (some ppa) <;> rfl

/-- The direct update is the update of a slot without a page, so there is none to invalidate. -/
theorem Durable.directUpdate {f : Ftl} {m : MapUpdate} {e e' : WbEntry} {s : Store} {ppa : Nat}
    (h : Durable cfg fp f) (hok : batchSafe cfg f .wbPass = true) (hp : f.phase = .mapping m)
    (hc : m.cur = some e) (hw : WbPath cfg f.hashTable f.store e s (.directUpdate e'))
    (hppa : e'.ppa = some ppa) :
    Core cfg fp (f.install cfg m s e' ppa).pending (f.install cfg m s e' ppa) ∧
      (f.install cfg m s e' ppa).PhaseOk cfg fp := by
  obtain ⟨hm, hs, ⟨p, hex, _⟩ | ⟨hb, hex⟩⟩ := h.pass hp hc hok hw
  · cases hex
  · split at hex
    · cases hex
    · next hunmapped =>
      cases hex
      have hold : wbInvalidateOld cfg s (getLpa e.key) = s := by
        unfold wbInvalidateOld Cold.getPte
        rw [hs.memTable]
        split
        · next q hq =>
          rw [hq] at hunmapped
          exact absurd rfl hunmapped
        · rfl
      have hinst := h.install (e := e) hp hc hm hs hppa hb
      rw [hold] at hinst
      exact hinst

/-- One step keeps the invariant. -/
theorem Durable.step {f f' : Ftl} {a : Label} (h : Durable cfg fp f) (ha : a.Keys Canonical)
    (hok : batchSafe cfg f a = true) (hs : Step cfg fp f a f') : Durable cfg fp f' := by
  have hkeys : f'.Keys Canonical := h.keys.step ha hs
  suffices hpair : Core cfg fp f'.pending f' ∧ f'.PhaseOk cfg fp from ⟨hkeys, hpair.1, hpair.2⟩
  have hcore := h.core
  have hphase := h.phase
  have hcan := h.keys.phase
  cases hs with
  | get key hp hk =>
    rw [Ftl.pending, hp] at hcore
    rw [Ftl.PhaseOk, hp] at hphase
    refine ⟨hcore.sameData hcore.map (.refl _) rfl rfl rfl rfl rfl hcore.retryQ, ?_⟩
    exact ⟨⟨hphase.ppa, hphase.table⟩, rfl, Or.inl rfl, Or.inl rfl⟩
  | resume i r hp hr => exact h.resume hp hr rfl
  | getPass r s ex hp hd hx => exact h.getPass hp hd hx
  | setFull key bytes hp hl hk hfull => exact h.setFull hp hfull rfl
  | setInsert key bytes hp hl hk hfull =>
    rw [Ftl.pending, hp] at hcore
    rw [Ftl.PhaseOk, hp] at hphase
    have hcore' : Core cfg fp f.wb { f with nextId := f.nextId + 1 } :=
      hcore.sameData hcore.map (.refl _) rfl rfl rfl rfl rfl hcore.retryQ
    have hreq : Canonical (⟨f.nextId, key⟩ : SetRequest).key := ha
    exact Core.insert (f := { f with nextId := f.nextId + 1 }) hcore' ⟨hphase.ppa, hphase.table⟩
      h.keys.wb hreq
  -- The bucket of a flush: pages are assigned, then the entries are installed.
  | endAssign m hp hb => exact h.endAssign hp hb
  | assign m e bucket ppa s hp hb ha' => exact h.assign hok hp hb ha' rfl
  | pickRetry i m e hp hc he hu =>
    obtain ⟨hi, rfl⟩ := List.getElem?_eq_some_iff.mp he
    refine h.pick hp ?_ rfl
    rw [MapUpdate.pending_none hc, MapUpdate.pending_cur rfl]
    exact (List.getElem_cons_eraseIdx_perm hi).append_right m.master
  | pickMaster m e master hp hc he hu =>
    refine h.pick hp ?_ rfl
    rw [MapUpdate.pending_none hc, MapUpdate.pending_cur rfl, he]
    exact List.perm_middle.symm
  -- No entry of a safe batch is sent on to another slot.
  | wbAgain m e s e' hp hc hcnt hw =>
    obtain ⟨_, _, ⟨p, hex, _⟩ | ⟨_, hex⟩⟩ := h.pass hp hc hok hw
    · cases hex
    · split at hex
      · cases hex
      · cases hex
  | wbParked m e s e' hp hc hcnt hw =>
    obtain ⟨hm, hs, ⟨p, hex, hres, _⟩ | ⟨_, hex⟩⟩ := h.pass hp hc hok hw
    · cases hex
      exact h.parked hp hc hm hs hres rfl
    · split at hex
      · cases hex
      · cases hex
  | wbUpdate m e s e' ppa hp hc hcnt hw hppa =>
    obtain ⟨hm, hs, ⟨p, hex, _⟩ | ⟨hb, hex⟩⟩ := h.pass hp hc hok hw
    · cases hex
    · split at hex
      · cases hex
        exact h.install (e := e) hp hc hm hs hppa hb
      · cases hex
  | wbDirectUpdate m e s e' ppa hp hc hcnt hw hppa => exact h.directUpdate hok hp hc hw hppa
  -- Everything is installed, so the buffer is emptied and the waiting set goes in.
  | flush m hp hc hu hm hr =>
    rw [hp] at hcan
    have hpend : m.pending = [] := by
      rw [MapUpdate.pending_none hc, hm, hr]
      rfl
    obtain ⟨hcore', hun⟩ := h.emptied hp hpend
    exact hcore'.insert hun (fun _ he => by cases he) hcan.1

/-- The new store has no batch and no mapping. -/
theorem Durable.create (garbage : Nat → Key) : Durable cfg fp (Ftl.create cfg garbage) := by
  have hcount : ∀ i, blockCount cfg.pps (bmInit cfg).validBitmap i = 0 := fun i =>
    (blockCount_eq_zero cfg.pps_pos).mpr fun _ _ => rfl
  have htidy : ∀ pn, Tidy cfg pn (bmInit cfg) := fun pn =>
    ⟨fun _ _ => Nat.zero_le _, fun _ _ hv => (by cases hv), fun i _ => (hcount i).symm⟩
  have hnos := cfg.nos_ge
  have hmap : Roles cfg .map (bmInit cfg) none (some (bmInit cfg).mapPart.sblkRsv) :=
    ⟨fun i => ⟨fun hi => ⟨Nat.zero_le _, hi⟩, And.right⟩, fun _ ha => (by cases ha),
      fun _ _ _ => rfl, ⟨0, rfl, rfl, Nat.zero_le _, rfl⟩, fun _ ha => (by cases ha)⟩
  have hdata : Roles cfg .data (bmInit cfg) none (some (bmInit cfg).dataPart.sblkRsv) := by
    refine ⟨fun i => ?_, fun _ ha => (by cases ha), fun _ _ _ => rfl,
      ⟨cfg.nos / 20 + 1, rfl, rfl, ?_, rfl⟩, fun _ ha => (by cases ha)⟩
    · show cfg.nos / 20 < i ∧ i < cfg.nos ↔ cfg.nos / 20 + 1 ≤ i ∧ i ≤ cfg.nos - 1
      omega
    · show cfg.nos / 20 < cfg.nos / 20 + 1 ∧ cfg.nos / 20 + 1 < cfg.nos
      omega
  refine ⟨Ftl.Keys.create garbage, ⟨⟨⟨htidy .map, hmap, fun _ _ hp => (by cases hp)⟩,
    fun _ hl => absurd rfl hl⟩, ⟨htidy .data, hdata, fun _ _ hp => (by cases hp),
    fun _ _ hv => (by cases hv), fun _ ⟨_, he, _⟩ => (by cases he)⟩, fun _ hl => (by cases hl),
    fun l => ?_, fun _ he => (by cases he), fun _ _ => rfl, List.Pairwise.nil,
    fun _ he => (by cases he), fun _ he => (by cases he), fun _ he => (by cases he), rfl,
    fun _ hr => (by cases hr)⟩, fun _ he => (by cases he), fun _ => rfl⟩
  rfl

/-- The requests of the environment name their blocks by canonical keys. -/
def Label.canonical : Label → Bool
  | .get key => Canonical key
  | .set key _ => Canonical key
  | _ => true

theorem Label.keys_of_canonical {a : Label} (h : a.canonical = true) : a.Keys Canonical := by
  cases a with
  | get key => exact of_decide_eq_true (p := Canonical key) h
  | set key bytes => exact of_decide_eq_true (p := Canonical key) h
  | resume | getPass | assign | pickRetry | pickMaster | wbPass | flush => trivial

/-- The steps of the runs in which no flushed set is lost. -/
def durableStep (cfg : Settings) (f : Ftl) (a : Label) : Bool := a.canonical && batchSafe cfg f a

/-- It holds in every state of a run whose steps are safe for the batch. -/
theorem reach_durable {f : Ftl}
    (h : (machine cfg fp).Reach (fun f a => durableStep cfg f a = true) f) : Durable cfg fp f := by
  refine h.invariant (I := fun f => Durable cfg fp f) ?_ ?_
  · rintro _ ⟨garbage, rfl⟩
    exact .create garbage
  · intro s s' a _ ih hok hn
    obtain ⟨hkeys, hsafe⟩ := Bool.and_eq_true_iff.mp hok
    exact ih.step (Label.keys_of_canonical hkeys) hsafe (.of_next hn)

/-- All entries of the batch are installed, each at the slot of its own block, with the
    page that holds its value. -/
structure BatchInstalled (cfg : Settings) (fp : Key → UInt32) (f : Ftl) : Prop where
  full : f.wb.length = cfg.maxWriteBuf
  blocks : (slotsOf f.wb).Nodup
  entries : ∀ e ∈ f.wb, ∃ p, e.ppa = some p ∧
    f.store.cold.memTable (getLpa e.key) = ⟨some p, fp e.key⟩ ∧
    f.realKeys (getLpa e.key) = e.key ∧
    f.store.bm.validBitmap p = true ∧ f.store.content p = some e.value

/-- A batch that is through has installed every entry. -/
theorem Durable.installed {f : Ftl} {m : MapUpdate} (h : Durable cfg fp f)
    (hp : f.phase = .mapping m) (hc : m.cur = none) (hu : cfg.maxWriteBuf ≤ m.updated) :
    m.master = [] ∧ m.retry = [] ∧ BatchInstalled cfg fp f := by
  have hcore := h.core
  have hphase := h.phase
  rw [Ftl.pending, hp] at hcore
  rw [Ftl.PhaseOk, hp] at hphase
  have hcount := hphase.count
  -- All entries are counted as installed, so none is pending.
  have hnil : m.pending = [] := List.length_eq_zero_iff.mp (by omega)
  rw [MapUpdate.pending_none hc, List.append_eq_nil_iff] at hnil
  refine ⟨hnil.2, hnil.1, hphase.full, ?_, fun e he => ?_⟩
  · refine (hcore.sorted.keys_nodup.of_map _).map_on fun x hx y hy hxy => ?_
    exact List.inj_on_of_nodup_map hcore.sorted.keys_nodup hx hy
      ((h.keys.wb x hx).inj (h.keys.wb y hy) hxy)
  · have hout : e.key ∉ m.pending.map (·.key) := by
      rw [MapUpdate.pending_none hc, hnil.1, hnil.2]
      simp
    obtain ⟨hppa, hreal⟩ := hphase.installed e he hout
    obtain ⟨p, hep⟩ := Option.isSome_iff_exists.mp (hphase.assigned e he)
    have hslot : (f.store.cold.memTable (getLpa e.key)).ppa = some p := hppa.trans hep
    obtain ⟨_, hfp⟩ := hcore.slots (getLpa e.key) (by rw [hslot]; rfl)
    rw [hreal] at hfp
    refine ⟨p, hep, ?_, hreal, (hcore.data.mapped _ p hslot).2.1, hcore.content e he p hep⟩
    cases hpte : f.store.cold.memTable (getLpa e.key)
    rw [hpte] at hslot hfp
    cases hslot
    cases hfp
    rfl

/-- A pass over a pending entry goes on unless the listing of its page aborts. -/
theorem Durable.wbPass_isSome {f : Ftl} {m : MapUpdate} {e : WbEntry} (h : Durable cfg fp f)
    (hp : f.phase = .mapping m) (hc : m.cur = some e)
    (hn : Ftl.next cfg fp f .wbPass = none) : f.store.listUp cfg (getLpa e.key) = none := by
  have hphase := h.phase
  rw [Ftl.PhaseOk, hp] at hphase
  have hmem : e ∈ m.pending := by
    rw [MapUpdate.pending_cur hc]
    exact List.mem_cons_self
  obtain ⟨⟨w, hw, hsame⟩, hh, hres⟩ := hphase.pend e hmem
  obtain ⟨ppa, hppa⟩ := Option.isSome_iff_exists.mp (hphase.assigned w hw)
  have hcnt : ¬1024 < e.hParams.cnt := by
    rw [hh]
    exact Nat.not_lt.mpr (Nat.zero_le _)
  -- Every exit of a pass leads to a next state.
  have hnone : wbPass cfg f.hashTable f.store e = none := by
    cases hw' : wbPass cfg f.hashTable f.store e with
    | none => rfl
    | some r =>
      obtain ⟨s, ex⟩ := r
      have hval := (WbPath.of_pass hw').2.sameValue
      simp only [Ftl.next, hp, hc, Ftl.mapPass, hw', Option.bind_some] at hn
      cases ex with
      | again e' => cases hn
      | parked e' => cases hn
      | update e' =>
        have he : e'.ppa = some ppa := hval.ppa.trans (hsame.ppa.trans hppa)
        dsimp only at hn
        rw [he] at hn
        cases hn
      | directUpdate e' =>
        have he : e'.ppa = some ppa := hval.ppa.trans (hsame.ppa.trans hppa)
        dsimp only at hn
        rw [he] at hn
        cases hn
  have hlist : ∀ x, wbCacheListUp cfg f.hashTable f.store x (getLpa e.key) = none →
      f.store.listUp cfg (getLpa e.key) = none := fun x hx => Option.map_eq_none_iff.mp hx
  have hload : ∀ x, wbCacheLoad cfg f.hashTable f.store x (getLpa e.key) = none →
      f.store.listUp cfg (getLpa e.key) = none := fun x hx => by
    unfold wbCacheLoad at hx
    split at hx
    · cases hx
    · exact hlist x hx
  unfold wbPass at hnone
  rw [if_neg hcnt] at hnone
  dsimp only at hnone
  -- A new entry loads its page, one that waited lists it, one that was evicted for completes.
  rcases hres with hr | hr | hr
  · rw [hr] at hnone
    dsimp only at hnone
    split at hnone
    · cases hnone
    · exact hload e hnone
  · rw [hr] at hnone
    exact hlist _ hnone
  · rw [hr] at hnone
    cases hnone

/-- Every pass brings the batch nearer to its end. -/
theorem Durable.passesLeft_lt {f f' : Ftl} {m : MapUpdate} (h : Durable cfg fp f)
    (hp : f.phase = .mapping m) (hok : batchSafe cfg f .wbPass = true)
    (hn : Ftl.next cfg fp f .wbPass = some f') :
    ∃ m', f'.phase = .mapping m' ∧ m'.passesLeft < m.passesLeft := by
  have hsum : ∀ {e}, m.cur = some e →
      m.passesLeft = e.passesLeft + ((m.retry ++ m.master).map WbEntry.passesLeft).sum :=
    fun hc => by rw [MapUpdate.passesLeft, MapUpdate.pending_cur hc, List.map_cons, List.sum_cons]
  have hpos : ∀ e : WbEntry, 0 < e.passesLeft := fun e => by
    unfold WbEntry.passesLeft
    split
    · decide
    · decide
    · decide
  cases Step.of_next hn with
  | wbAgain m₁ e s e' hp₁ hc hcnt hw =>
    obtain ⟨_, _, ⟨p, hex, _⟩ | ⟨_, hex⟩⟩ := h.pass hp₁ hc hok hw
    · cases hex
    · split at hex
      · cases hex
      · cases hex
  -- Parked: the entry itself has fewer passes left.
  | wbParked m₁ e s e' hp₁ hc hcnt hw =>
    rw [hp] at hp₁
    cases hp₁
    obtain ⟨_, _, ⟨p, hex, _, hlt⟩ | ⟨_, hex⟩⟩ := h.pass hp hc hok hw
    · cases hex
      refine ⟨_, rfl, ?_⟩
      rw [hsum hc, MapUpdate.passesLeft, MapUpdate.pending_none rfl]
      simp only [List.map_append, List.sum_append, List.map_cons, List.map_nil, List.sum_cons,
        List.sum_nil]
      omega
    · split at hex
      · cases hex
      · cases hex
  -- Installed: the entry is not pending any more.
  | wbUpdate m₁ e s e' ppa hp₁ hc hcnt hw hppa | wbDirectUpdate m₁ e s e' ppa hp₁ hc hcnt hw hppa =>
    rw [hp] at hp₁
    cases hp₁
    refine ⟨_, rfl, ?_⟩
    have he := hpos e
    rw [hsum hc, MapUpdate.passesLeft, MapUpdate.pending_none rfl]
    dsimp only
    omega

/-- A get of a block that has been flushed. -/
theorem Durable.get {f : Ftl} {r : Request} {s : Store} {ex : GetExit} {v : Nat}
    (h : Durable cfg fp f) (hp : f.phase = .getting r) (hd : demandGetPass cfg f r = some (s, ex))
    (hv : f.flushed (getLpa r.key) = some v) :
    ex ≠ .done .notFound ∧ ∀ l p, ex = .done (.found l p) →
      l = getLpa r.key ∧ f.store.bm.validBitmap p = true ∧ f.store.content p = some v := by
  have hcore := h.core
  have hphase := h.phase
  have hcan := h.keys.phase
  rw [Ftl.pending, hp] at hcore
  rw [Ftl.PhaseOk, hp] at hphase
  rw [hp] at hcan
  replace hcore : Core cfg fp f.wb f := hcore
  obtain ⟨_, _, heff⟩ :=
    GetEffect.of_path hcore hphase hcan (demandGetPass_exhausted hd) (.of_pass hd)
  -- Between flushes every slot holds what was flushed last.
  have hval : (f.store.cold.memTable (getLpa r.key)).ppa.bind f.store.content = some v := by
    rw [hcore.value, ← hv]
    split
    · rfl
    · next hout => exact (hcore.settled _ hout).symm
  cases heff with
  | again | parked | inWriteBuffer => exact ⟨fun he => (by cases he), fun _ _ he => (by cases he)⟩
  | notFound hu =>
    rw [hu] at hval
    cases hval
  | found p hslot =>
    refine ⟨fun he => (by cases he), fun l q he => ?_⟩
    cases he
    rw [hslot] at hval
    exact ⟨rfl, (hcore.data.mapped _ p hslot).2.1, hval⟩

/-- While no entry resumes behind an eviction with a page that is neither resident nor on
    flash, and no collection moves a page of the batch in progress: no entry is sent on to
    another slot, a pass stops only where the listing of its page aborts and brings the
    batch nearer to its end, and at the end every entry is installed. A get of a flushed
    block is never answered not-found, and finds a valid page with the value flushed last;
    for a block outside the write buffer that is the last set. -/
theorem read_after_write {f : Ftl}
    (h : (machine cfg fp).Reach (fun f a => durableStep cfg f a = true) f) :
    (∀ m, f.phase = .mapping m →
      (∀ e, m.cur = some e → e.hParams.cnt = 0 ∧
        (Ftl.next cfg fp f .wbPass = none → f.store.listUp cfg (getLpa e.key) = none)) ∧
      (∀ f', batchSafe cfg f .wbPass = true → Ftl.next cfg fp f .wbPass = some f' →
        ∃ m', f'.phase = .mapping m' ∧ m'.passesLeft < m.passesLeft) ∧
      (m.cur = none → m.updated < cfg.maxWriteBuf → m.retry ≠ [] ∨ m.master ≠ []) ∧
      (m.cur = none → cfg.maxWriteBuf ≤ m.updated →
        m.master = [] ∧ m.retry = [] ∧ BatchInstalled cfg fp f)) ∧
    (∀ r s ex v, f.phase = .getting r → demandGetPass cfg f r = some (s, ex) →
      f.flushed (getLpa r.key) = some v →
        ex ≠ .done .notFound ∧ ∀ l p, ex = .done (.found l p) →
          l = getLpa r.key ∧ f.store.bm.validBitmap p = true ∧ f.store.content p = some v) ∧
    (∀ k, (∀ e ∈ f.wb, e.key ≠ k) → Canonical k → f.flushed (getLpa k) = f.lastSet (getLpa k)) := by
  have hdur := reach_durable h
  refine ⟨fun m hp => ⟨fun e hc => ⟨?_, hdur.wbPass_isSome hp hc⟩,
    fun f' hok hn => hdur.passesLeft_lt hp hok hn, fun hc hu => ?_, hdur.installed hp⟩,
    fun r s ex v hp hd hv => hdur.get hp hd hv, fun k hk hcan => ?_⟩
  · have hphase := hdur.phase
    rw [Ftl.PhaseOk, hp] at hphase
    have hmem : e ∈ m.pending := by
      rw [MapUpdate.pending_cur hc]
      exact List.mem_cons_self
    rw [(hphase.pend e hmem).2.1]
    rfl
  · have hphase := hdur.phase
    rw [Ftl.PhaseOk, hp] at hphase
    -- With nothing left, all entries are counted as updated.
    have hcount := hphase.count
    rw [MapUpdate.pending_none hc, List.length_append] at hcount
    by_contra hnone
    rw [not_or, not_not, not_not] at hnone
    rw [hnone.1, hnone.2, List.length_nil] at hcount
    omega
  · refine hdur.core.settled (getLpa k) fun hl => ?_
    obtain ⟨e, he, hlk⟩ := mem_slotsOf.mp hl
    exact hk e he ((hdur.keys.wb e he).inj hcan hlk)

/-! ## Section 3: Concrete runs -/

/-- Buffers of two entries and a cache of one page. -/
def onePage : Settings where
  pps := 16
  nos := 60
  nrValidTpages := 4
  maxWriteBuf := 2
  maxCachedTpages := 1
  pps_pos := HashKv.sixteen_pos
  nos_ge := HashKv.nos_sixty
  nrValidTpages_pos := HashKv.four_pos
  maxWriteBuf_pos := Nat.two_pos
  maxCachedTpages_pos := Nat.one_pos
  pages_fit := pages_fit_sixty
  slots_fit := slots_fit_four

/-- The key of block 1. -/
def keyOne : Key := ⟨decimal 1, by decide⟩

/-- Blocks 0 and 1 are flushed together. -/
def firstFlush : List Label :=
  [.set (pageKey 0) 100, .set keyOne 100, .set (pageKey 1) 100, .assign, .assign, .assign,
    .pickMaster, .wbPass, .pickMaster, .wbPass, .flush]

/-- The request in progress. -/
def Ftl.request (f : Ftl) : Option Request :=
  match f.phase with
  | .getting r => some r
  | _ => none

theorem Ftl.phase_of_request {f : Ftl} {r : Request} (h : f.request = some r) :
    f.phase = .getting r := by
  unfold Ftl.request at h
  split at h
  · next r' hp =>
    cases h
    exact hp
  · cases h

def GetExit.isNotFound : GetExit → Bool
  | .done o => o = .notFound
  | _ => false

theorem GetExit.eq_of_isNotFound {ex : GetExit} (h : ex.isNotFound = true) :
    ex = .done .notFound := by
  cases ex with
  | again r => cases h
  | parked r => cases h
  | done o =>
    have ho : o = .notFound := of_decide_eq_true h
    rw [ho]

/-- The get of a key that the first flush wrote does not answer "not found". -/
theorem read_after_write_firstFlush :
    ∃ f : Ftl, f.request = some ⟨3, keyOne, ⟨7, 0⟩, none⟩ ∧
      ∀ s ex, demandGetPass onePage f ⟨3, keyOne, ⟨7, 0⟩, none⟩ = some (s, ex) →
        ex ≠ .done .notFound := by
  obtain ⟨f, hf, hp⟩ := exists_reach_of_run onePage (fun _ => 7) (durableStep onePage)
    (firstFlush ++ [.get keyOne])
    (fun f => f.request = some ⟨3, keyOne, ⟨7, 0⟩, none⟩ ∧ f.flushed (getLpa keyOne) = some 1)
    (by decide +kernel) (by decide +kernel)
  obtain ⟨hr, hfl⟩ := of_decide_eq_true hp
  exact ⟨f, hr, fun s ex hd =>
    ((read_after_write hf).2.1 _ s ex 1 (Ftl.phase_of_request hr) hd hfl).1⟩

/-- Blocks 1024 and 512 are flushed together while the dirty page of blocks 0 and 1 is
    cached. Block 1024 evicts it and waits for the write; block 512 evicts the page of
    block 1024, which is clean. Block 1024 resumes, its entry is updated outside the
    cache, and the next get of it finds neither the page nor a flash copy. -/
theorem blockLost_counterexample :
    ∃ f r s, (machine onePage fun _ => 7).Reach (fun _ a => a.canonical = true) f ∧
      f.phase = .getting r ∧ getLpa r.key = 1024 ∧ (∀ e ∈ f.wb, e.key ≠ r.key) ∧
      f.lastSet 1024 = some 3 ∧ f.flushed 1024 = some 3 ∧
      demandGetPass onePage f r = some (s, .done .notFound) := by
  obtain ⟨f, hf, hp⟩ := exists_reach_of_run onePage (fun _ => 7) (fun _ a => a.canonical)
    (firstFlush ++ [.set (pageKey 2) 100, .set (pageKey 0) 100, .assign, .assign, .assign,
      .pickMaster, .wbPass, .pickMaster, .wbPass, .pickRetry 0, .wbPass, .flush,
      .get (pageKey 2)])
    (fun f => f.request = some ⟨5, pageKey 2, ⟨7, 0⟩, none⟩ ∧ (∀ e ∈ f.wb, e.key ≠ pageKey 2) ∧
      f.lastSet 1024 = some 3 ∧ f.flushed 1024 = some 3 ∧
      (demandGetPass onePage f ⟨5, pageKey 2, ⟨7, 0⟩, none⟩).any (fun x => x.2.isNotFound) = true)
    (by decide +kernel) (by decide +kernel)
  obtain ⟨hr, hwb, hlast, hfl, hget⟩ := of_decide_eq_true hp
  obtain ⟨⟨s, ex⟩, hd, hex⟩ := (Option.any_eq_true ..).mp hget
  have he : ex = .done .notFound := GetExit.eq_of_isNotFound hex
  rw [he] at hd
  exact ⟨f, _, s, hf, Ftl.phase_of_request hr, by decide +kernel, hwb, hlast, hfl, hd⟩

end AggreKV.BlockSsd
