import AggreKV.Lib.Lists
import AggreKV.HashKv.System

/-! # What a step does

    `Step` lists the steps of the machine, one constructor for each branch
    of `Ftl.next`, with its guards. Invariants are proved by cases on it,
    never by unfolding `next`. -/

namespace AggreKV.HashKv

variable {cfg : Settings} {hs : Hashing}

/-- The steps of the machine from `f`. -/
inductive Step (cfg : Settings) (hs : Hashing) (f : Ftl) : Label → Ftl → Prop where
  | get (key) (hp : f.phase = .idle) :
      Step cfg hs f (.get key) { f with
        nextId := f.nextId + 1
        phase := .getting ⟨f.nextId, key, makeHashParams hs key, none⟩ }
  | resume (i) (r) (hp : f.phase = .idle) (hr : f.retryQ[i]? = some r) :
      Step cfg hs f (.resume i) { f with retryQ := f.retryQ.eraseIdx i, phase := .getting r }
  | getPass (choice) (r s ex) (hp : f.phase = .getting r)
      (hd : demandGetPass cfg f r choice = some (s, ex)) :
      Step cfg hs f (.getPass choice) (f.afterGet r.id s ex)
  | setFull (key bytes) (hp : f.phase = .idle) (hv : valLen key bytes ≤ 4) (hk : key ≠ keyMax)
      (hfull : f.wb.length = cfg.maxWriteBuf) :
      Step cfg hs f (.set key bytes) { f with
        nextId := f.nextId + 1
        phase := .assigning ⟨⟨f.nextId, key, bytes⟩, 0, bucketEntries f.wb, none⟩ }
  | setInsert (key bytes) (hp : f.phase = .idle) (hv : valLen key bytes ≤ 4) (hk : key ≠ keyMax)
      (hfull : f.wb.length ≠ cfg.maxWriteBuf) :
      Step cfg hs f (.set key bytes)
        ({ f with nextId := f.nextId + 1 }.insert hs ⟨f.nextId, key, bytes⟩)
  | endAssign (m) (hp : f.phase = .assigning m) (hdone : cfg.maxWriteBuf ≤ m.done) :
      Step cfg hs f .assign (f.endAssign m.req)
  | assignEntry (m e s fl pga) (hp : f.phase = .assigning m) (hdone : m.done < cfg.maxWriteBuf)
      (hds : cfg.dataSegregation = true) (he : f.wb[m.done]? = some e)
      (ha : assignEntry cfg f.store f.flStream e = some (s, fl, pga)) :
      Step cfg hs f .assign { f with
        store := s
        flStream := fl
        wb := wbSetPpa f.wb e.key pga
        phase := .assigning { m with done := m.done + 1 } }
  | assignPage (m ppa s bm wb) (hp : f.phase = .assigning m) (hdone : m.done < cfg.maxWriteBuf)
      (hds : cfg.dataSegregation = false) (ha : dpAlloc cfg f.store 0 = some (ppa, s))
      (hb : placeEntries cfg s.bm f.wb ppa (m.buckets.fillBin 4).1 = some (bm, wb)) :
      Step cfg hs f .assign { f with
        store := { s with bm := bm }
        wb := wb
        flushList := flushAppend f.flushList ppa fun _ => m.lastPpa.any fun last => ppa = last + 1
        phase := .assigning ⟨m.req, m.done + (m.buckets.fillBin 4).1.length,
          (m.buckets.fillBin 4).2, some ppa⟩ }
  | pickRetry (i) (m e) (hp : f.phase = .mapping m) (hc : m.cur = none)
      (he : m.retry[i]? = some e) (hu : m.updated < cfg.maxWriteBuf) :
      Step cfg hs f (.pickRetry i)
        { f with phase := .mapping { m with cur := some e, retry := m.retry.eraseIdx i } }
  | pickMaster (m e master) (hp : f.phase = .mapping m) (hc : m.cur = none)
      (he : m.master = e :: master) (hu : m.updated < cfg.maxWriteBuf) :
      Step cfg hs f .pickMaster
        { f with phase := .mapping { m with cur := some e, master := master } }
  | wbAgain (choice) (m e s e') (hp : f.phase = .mapping m) (hc : m.cur = some e)
      (hw : wbPass cfg f.realKeys f.hashTable f.store e choice = some (s, .again e')) :
      Step cfg hs f (.wbPass choice)
        { f with store := s, phase := .mapping { m with cur := some e' } }
  | wbParked (choice) (m e s e') (hp : f.phase = .mapping m) (hc : m.cur = some e)
      (hw : wbPass cfg f.realKeys f.hashTable f.store e choice = some (s, .parked e')) :
      Step cfg hs f (.wbPass choice)
        { f with store := s, phase := .mapping { m with cur := none, retry := m.retry ++ [e'] } }
  | wbUpdate (choice) (m e s e' ppa) (hp : f.phase = .mapping m) (hc : m.cur = some e)
      (hw : wbPass cfg f.realKeys f.hashTable f.store e choice = some (s, .update e'))
      (hppa : e'.ppa = some ppa) :
      Step cfg hs f (.wbPass choice)
        (f.install cfg m (wbInvalidateOld cfg s (getLpa cfg e'.hParams)) e' ppa)
  | wbDirectUpdate (choice) (m e s e' ppa) (hp : f.phase = .mapping m) (hc : m.cur = some e)
      (hw : wbPass cfg f.realKeys f.hashTable f.store e choice = some (s, .directUpdate e'))
      (hppa : e'.ppa = some ppa) :
      Step cfg hs f (.wbPass choice) (f.install cfg m s e' ppa)
  | flush (m ssd) (hp : f.phase = .mapping m) (hc : m.cur = none)
      (hu : cfg.maxWriteBuf ≤ m.updated) (hm : m.master = []) (hr : m.retry = [])
      (hf : flushSegs cfg f.store.ssd (f.flushSegments cfg) = some ssd) :
      Step cfg hs f .flush ((f.emptied ssd).insert hs m.req)
  | promote (page) (hp : f.phase = .idle) (hhot : cfg.hotCmt = true)
      (hres : (f.store.cold.cmt page).isResident = true) :
      Step cfg hs f (.promote page) { f with store := f.store.promoteHot page }
  | rehashBegin (hp : f.phase = .idle) (had : cfg.adaptiveMem = true) :
      Step cfg hs f .rehashBegin
        { f with store := { f.store with hot := f.store.hot.rehashBegin } }
  | rehashTick (hp : f.phase = .idle) (had : cfg.adaptiveMem = true) :
      Step cfg hs f .rehashTick
        { f with store := { f.store with hot := f.store.hot.rehashTick } }

/-! ## The machine makes these steps only -/

/-- A set inserts, or begins a flush. -/
theorem Step.of_set {f f' : Ftl} {key : Key} {bytes : Nat} (hp : f.phase = .idle)
    (h : f.set cfg hs key bytes = some f') : Step cfg hs f (.set key bytes) f' := by
  simp only [Ftl.set] at h
  split at h
  · cases h
  · next hv =>
    have hv4 : valLen key bytes ≤ 4 := by omega
    have hk : key ≠ keyMax := fun hk => hv (Or.inr hk)
    split at h
    · next hfull => cases h; exact .setFull key bytes hp hv4 hk hfull
    · next hfull => cases h; exact .setInsert key bytes hp hv4 hk hfull

/-- An assignment places an entry or a page, or ends. -/
theorem Step.of_assign {f f' : Ftl} {m : Assign} (hp : f.phase = .assigning m)
    (h : f.assign cfg m = some f') : Step cfg hs f .assign f' := by
  simp only [Ftl.assign] at h
  split at h
  · next hdone => cases h; exact .endAssign m hp hdone
  · next hdone =>
    split at h
    · next hds =>
      simp only [Option.bind_eq_bind, Option.bind_eq_some_iff] at h
      obtain ⟨e, he, ⟨s, fl, pga⟩, ha, h⟩ := h
      cases h
      exact .assignEntry m e s fl pga hp (by omega) hds he ha
    · next hds =>
      simp only [Option.bind_eq_bind, Option.bind_eq_some_iff] at h
      obtain ⟨⟨ppa, s⟩, ha, ⟨bm, wb⟩, hb, h⟩ := h
      cases h
      exact .assignPage m ppa s bm wb hp (by omega) (by simpa using hds) ha hb

/-- A pass ends in one of four ways; the entry is installed in the last two. -/
theorem Step.of_mapPass {f f' : Ftl} {m : MapUpdate} {e : WbEntry} {choice : Rebalance}
    (hp : f.phase = .mapping m) (hc : m.cur = some e) (h : f.mapPass cfg m e choice = some f') :
    Step cfg hs f (.wbPass choice) f' := by
  obtain ⟨⟨s, ex⟩, hw, h⟩ := Option.bind_eq_some_iff.mp h
  cases ex with
  | again e' => cases h; exact .wbAgain choice m e s e' hp hc hw
  | parked e' => cases h; exact .wbParked choice m e s e' hp hc hw
  | update e' =>
    obtain ⟨ppa, hppa, rfl⟩ := Option.map_eq_some_iff.mp h
    exact .wbUpdate choice m e s e' ppa hp hc hw hppa
  | directUpdate e' =>
    obtain ⟨ppa, hppa, rfl⟩ := Option.map_eq_some_iff.mp h
    exact .wbDirectUpdate choice m e s e' ppa hp hc hw hppa

/-- A flush ends the batch. -/
theorem Step.of_flush {f f' : Ftl} {m : MapUpdate} (hp : f.phase = .mapping m)
    (hc : m.cur = none) (hu : cfg.maxWriteBuf ≤ m.updated) (h : f.flush cfg hs m = some f') :
    Step cfg hs f .flush f' := by
  simp only [Ftl.flush] at h
  split at h
  · next hq =>
    obtain ⟨ssd, hf, rfl⟩ := Option.map_eq_some_iff.mp h
    exact .flush m ssd hp hc hu hq.1 hq.2 hf
  · cases h

/-- What the machine does is one of the steps. -/
theorem Step.of_next {f f' : Ftl} {a : Label} (h : Ftl.next cfg hs f a = some f') :
    Step cfg hs f a f' := by
  cases a with
  | get key =>
    simp only [Ftl.next] at h
    split at h
    · next hp => cases h; exact .get key hp
    · cases h
  | resume i =>
    simp only [Ftl.next] at h
    split at h
    · next r hp hr => cases h; exact .resume i r hp hr
    · cases h
  | getPass choice =>
    simp only [Ftl.next] at h
    split at h
    · next r hp =>
      obtain ⟨⟨s, ex⟩, hd, rfl⟩ := Option.map_eq_some_iff.mp h
      exact .getPass choice r s ex hp hd
    · cases h
  | set key bytes =>
    simp only [Ftl.next] at h
    split at h
    · next hp => exact .of_set hp h
    · cases h
  | assign =>
    simp only [Ftl.next] at h
    split at h
    · next m hp => exact .of_assign hp h
    · cases h
  -- Entries that are retried come before new ones.
  | pickRetry i =>
    simp only [Ftl.next] at h
    split at h
    · next m hp =>
      split at h
      · next e hc he =>
        split at h
        · next hu => cases h; exact .pickRetry i m e hp hc he hu
        · cases h
      · cases h
    · cases h
  | pickMaster =>
    simp only [Ftl.next] at h
    split at h
    · next m hp =>
      split at h
      · next e master hc he =>
        split at h
        · next hu => cases h; exact .pickMaster m e master hp hc he hu
        · cases h
      · cases h
    · cases h
  | wbPass choice =>
    simp only [Ftl.next] at h
    split at h
    · next m hp =>
      split at h
      · next e hc => exact .of_mapPass hp hc h
      · cases h
    · cases h
  | flush =>
    simp only [Ftl.next] at h
    split at h
    · next m hp =>
      split at h
      · next hc => exact .of_flush hp (Option.isNone_iff_eq_none.mp hc.1) hc.2 h
      · cases h
    · cases h
  | promote page =>
    simp only [Ftl.next] at h
    split at h
    · next hp =>
      split at h
      · next hg => cases h; exact .promote page hp hg.1 hg.2
      · cases h
    · cases h
  | rehashBegin =>
    simp only [Ftl.next] at h
    split at h
    · next hp =>
      split at h
      · next had => cases h; exact .rehashBegin hp had
      · cases h
    · cases h
  | rehashTick =>
    simp only [Ftl.next] at h
    split at h
    · next hp =>
      split at h
      · next had => cases h; exact .rehashTick hp had
      · cases h
    · cases h

end AggreKV.HashKv
