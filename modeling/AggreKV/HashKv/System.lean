import AggreKV.Lib.Machine
import AggreKV.HashKv.WriteBuffer

/-! # The FTL as a machine

    The algorithm thread: requests taken from `req_q` or `retry_q`, the get
    path of `demand.c`, and the batch loops of the write-buffer flush.

    * One step is one iteration of a loop of the source: one pass from
      `read_retry` or `wb_retry`, one page or entry of the assignment.
    * Requests arrive in any order, and any parked request or entry may be
      resumed: the order by completion time is one of these.
    * Only `DATAR` gets and `DATAW` sets are modelled, not the prefill reads
      of the benchmark. -/

namespace AggreKV.HashKv

/-! ## Section 1: State -/

/-- A get request in flight. -/
structure Request where
  id : Nat
  key : Key
  hParams : HashParams
  params : Option Jump
  deriving DecidableEq

/-- What a request put on `finish_q` carries: for a get that read flash, the probe
    count, the logical slot and the grain address it used. -/
inductive Outcome where
  | stored
  | inWriteBuffer
  | found (cnt lpa ppa : Nat)
  | notFound
  deriving DecidableEq

/-- A set request waiting for the flush of a full write buffer. -/
structure SetRequest where
  id : Nat
  key : Key
  bytes : Nat
  deriving DecidableEq

/-- The local variables of `_do_wb_assign_ppa`. -/
structure Assign where
  req : SetRequest
  /-- `ordering_done`, or the index of the next entry. -/
  done : Nat
  buckets : Buckets WbEntry
  lastPpa : Option Nat

/-- The local variables of `_do_wb_mapping_update`. -/
structure MapUpdate where
  req : SetRequest
  master : List WbEntry
  retry : List WbEntry
  cur : Option WbEntry
  updated : Nat

inductive Phase where
  | idle
  | getting (r : Request)
  | assigning (m : Assign)
  | mapping (m : MapUpdate)

/-- The whole FTL. `finishQ` is the log of everything put on `finish_q`. -/
structure Ftl where
  store : Store
  realKeys : Nat → Key
  maxTry : Nat
  wb : List WbEntry
  flushList : List FlushNode
  flStream : Nat → List FlushNode
  hashTable : DHtable
  retryQ : List Request
  finishQ : List (Nat × Outcome)
  nextId : Nat
  phase : Phase

/-- What the environment or the schedule chooses. -/
inductive Label where
  | get (key : Key)
  | resume (i : Nat)
  | getPass (choice : Rebalance)
  | set (key : Key) (bytes : Nat)
  | assign
  | pickRetry (i : Nat)
  | pickMaster
  | wbPass (choice : Rebalance)
  | flush
  | promote (page : Nat)
  | rehashBegin
  | rehashTick
  deriving DecidableEq

/-! ## Section 2: Gets -/

/-- How a pass from `read_retry` leaves `__demand_get`: back to `read_retry`, or a
    return whose first field says that `rc` is `UINT32_MAX`, with the outcomes put on
    `finish_q` and the request put into `retry_q`. -/
inductive GetExit where
  | again (r : Request)
  | ret (rcMax : Bool) (finish : List Outcome) (retry : Option Request)

/-- `data_read`. -/
def dataRead (realKeys : Nat → Key) (r : Request) (lpa : Nat) (ppa : Option Nat) : GetExit :=
  match ppa with
  | none => .ret true [] none
  | some p =>
    if keycmp r.key (realKeys lpa) = 0 then .ret false [.found r.hParams.cnt lpa p] none
    else .ret false [] (some { r with hParams := r.hParams.next })

/-- `cache_check_complete`. -/
def cacheCheckComplete (realKeys : Nat → Key) (s : Store) (r : Request) (lpa : Nat) : GetExit :=
  let pte := s.cold.getPte lpa
  if r.hParams.keyFp ≠ pte.keyFp then .again { r with hParams := r.hParams.next }
  else dataRead realKeys r lpa pte.ppa

/-- `cache_list_up`. -/
def cacheListUp (cfg : Settings) (realKeys : Nat → Key) (s : Store) (r : Request) (lpa : Nat)
    (choice : Rebalance) : Option (Store × GetExit) :=
  (s.listUp cfg lpa choice).map fun (rc, s) =>
    if rc then (s, .ret false [] (some { r with params := some .complete }))
    else (s, cacheCheckComplete realKeys s r lpa)

/-- `cache_load`. A page without flash copy ends the request with `rc = UINT32_MAX`,
    puts it on `finish_q` and, like every other load, into `retry_q`. -/
def cacheLoad (s : Store) (r : Request) (lpa : Nat) : Store × GetExit :=
  match s.load lpa with
  | some s => (s, .ret false [] (some { r with params := some .list }))
  | none => (s, .ret true [.notFound] (some r))

/-- The lookup of the hot table at probe count 0, with the slot it read. -/
def hotLookup (cfg : Settings) (s : Store) (r : Request) (lpa : Nat) : Option HotPte × Store :=
  if cfg.hotCmt ∧ r.hParams.cnt = 0 then
    let (slot, hot) := s.hot.isHit cfg lpa
    match slot with
    | some i =>
      if r.hParams.keyFp = (hot.memTable i).keyFp then
        (some (hot.memTable i), { s with hot := hot, cold := s.cold.coldGrainAccess lpa })
      else (none, { s with hot := if cfg.adaptiveMem then (hot.isHit cfg lpa).2 else hot })
    | none => (none, { s with hot := hot })
  else (none, s)

/-- `is_hit` and what follows it. -/
def coldLookup (cfg : Settings) (realKeys : Nat → Key) (s : Store) (r : Request) (lpa : Nat) :
    Store × GetExit :=
  let hit := s.cold.isHit cfg lpa
  if hit.1 then
    let s := { s with cold := hit.2.touch cfg lpa }
    (s, cacheCheckComplete realKeys s r lpa)
  else cacheLoad s r lpa

/-- One pass of `__demand_get` from `read_retry`. -/
def demandGetPass (cfg : Settings) (f : Ftl) (r : Request) (choice : Rebalance) :
    Option (Store × GetExit) :=
  let lpa := getLpa cfg r.hParams
  let s := f.store
  if f.maxTry < r.hParams.cnt then some (s, .ret true [] none)
  else
    match r.params with
    | some jump =>
      let r := { r with params := none }
      match jump with
      | .load => some (cacheLoad s r lpa)
      | .list | .evict => cacheListUp cfg f.realKeys s r lpa choice
      | .complete => some (s, cacheCheckComplete f.realKeys s r lpa)
      -- `pte.ppa` still has its initial value.
      | .read => some (s, dataRead f.realKeys r lpa none)
      | _ => none
    | none =>
      if r.hParams.cnt = 0 ∧ r.key = keyMax ∧ f.wb ≠ [] then none
      else if r.hParams.cnt = 0 ∧ wbFind r.key f.wb then
        some (s, .ret false [.inWriteBuffer] none)
      else
        match hotLookup cfg s r lpa with
        | (some pte, s) => some (s, dataRead f.realKeys r lpa pte.ppa)
        | (none, s) => some (coldLookup cfg f.realKeys s r lpa)

/-- `demand_get` around a pass: a return of `UINT32_MAX` is put on `finish_q`. -/
def Ftl.afterGet (f : Ftl) (id : Nat) (s : Store) : GetExit → Ftl
  | .again r => { f with store := s, phase := .getting r }
  | .ret rcMax finish retry =>
    let finish := if rcMax then finish ++ [.notFound] else finish
    { f with
      store := s
      phase := .idle
      finishQ := f.finishQ ++ finish.map fun o => (id, o)
      retryQ := f.retryQ ++ retry.toList }

/-! ## Section 3: Sets and the write-buffer flush -/

/-- `wb->insert` and the completion of the set. -/
def Ftl.insert (hs : Hashing) (f : Ftl) (req : SetRequest) : Ftl :=
  { f with
    wb := wbInsert req.key req.bytes (makeHashParams hs req.key) f.wb
    finishQ := f.finishQ ++ [(req.id, .stored)]
    phase := .idle }

/-- `__demand_set`: a full write buffer is flushed first. A value takes at most the
    four grains of a page, and the greatest key is that of the skiplist header. -/
def Ftl.set (cfg : Settings) (hs : Hashing) (f : Ftl) (key : Key) (bytes : Nat) : Option Ftl :=
  if 4 < valLen key bytes ∨ key = keyMax then none
  else
    let req : SetRequest := ⟨f.nextId, key, bytes⟩
    let f := { f with nextId := f.nextId + 1 }
    if f.wb.length = cfg.maxWriteBuf then
      some { f with phase := .assigning ⟨req, 0, bucketEntries f.wb, none⟩ }
    else some (f.insert hs req)

/-- The end of `_do_wb_assign_ppa`: all entries are queued for the mapping update. -/
def Ftl.endAssign (f : Ftl) (req : SetRequest) : Ftl :=
  { f with phase := .mapping ⟨req, f.wb, [], none, 0⟩ }

/-- One iteration of `_do_wb_assign_ppa`: an entry of the segregated build, a page of
    the single-stream build. -/
def Ftl.assign (cfg : Settings) (f : Ftl) (m : Assign) : Option Ftl :=
  if cfg.maxWriteBuf ≤ m.done then some (f.endAssign m.req)
  else if cfg.dataSegregation then do
    let e ← f.wb[m.done]?
    let (s, fl, pga) ← assignEntry cfg f.store f.flStream e
    return { f with
      store := s
      flStream := fl
      wb := wbSetPpa f.wb e.key pga
      phase := .assigning { m with done := m.done + 1 } }
  else do
    let (ppa, s) ← dpAlloc cfg f.store 0
    let (placed, buckets) := m.buckets.fillBin 4
    let (bm, wb) ← placeEntries cfg s.bm f.wb ppa placed
    return { f with
      store := { s with bm := bm }
      wb := wb
      flushList := flushAppend f.flushList ppa fun _ => m.lastPpa.any fun last => ppa = last + 1
      phase := .assigning ⟨m.req, m.done + placed.length, buckets, some ppa⟩ }

/-- `wb_direct_update` of entry `e`, whose value lies at `ppa`. -/
def Ftl.install (cfg : Settings) (f : Ftl) (m : MapUpdate) (s : Store) (e : WbEntry) (ppa : Nat) :
    Ftl :=
  let lpa := getLpa cfg e.hParams
  { f with
    store := wbInstall cfg s lpa ppa e.hParams.keyFp
    realKeys := Function.update f.realKeys lpa e.key
    hashTable := dHtableInsert cfg f.hashTable ppa lpa
    maxTry := max e.hParams.cnt f.maxTry
    phase := .mapping { m with cur := none, updated := m.updated + 1 } }

/-- One pass of `_do_wb_mapping_update` over the current entry. -/
def Ftl.mapPass (cfg : Settings) (f : Ftl) (m : MapUpdate) (e : WbEntry) (choice : Rebalance) :
    Option Ftl :=
  (wbPass cfg f.realKeys f.hashTable f.store e choice).bind fun (s, ex) =>
    match ex with
    | .again e => some { f with store := s, phase := .mapping { m with cur := some e } }
    | .parked e =>
      some { f with store := s, phase := .mapping { m with cur := none, retry := m.retry ++ [e] } }
    | .update e =>
      e.ppa.map (f.install cfg m (wbInvalidateOld cfg s (getLpa cfg e.hParams)) e)
    | .directUpdate e => e.ppa.map (f.install cfg m s e)

/-- The segments `_do_wb_flush` programs, in order. -/
def Ftl.flushSegments (cfg : Settings) (f : Ftl) : List FlushNode :=
  if cfg.dataSegregation then (List.range 8).flatMap f.flStream else f.flushList

/-- The end of `_do_wb_flush`. -/
def Ftl.emptied (f : Ftl) (ssd : Ssd) : Ftl :=
  { f with
    store := { f.store with ssd := ssd }
    flushList := []
    flStream := fun _ => []
    hashTable := fun _ => []
    wb := [] }

/-- `_do_wb_flush` and the insertion of the pending set. -/
def Ftl.flush (cfg : Settings) (hs : Hashing) (f : Ftl) (m : MapUpdate) : Option Ftl :=
  if m.master = [] ∧ m.retry = [] then
    (flushSegs cfg f.store.ssd (f.flushSegments cfg)).map fun ssd =>
      (f.emptied ssd).insert hs m.req
  else none

/-! ## Section 4: The machine -/

def Ftl.next (cfg : Settings) (hs : Hashing) (f : Ftl) : Label → Option Ftl
  | .get key =>
    match f.phase with
    | .idle =>
      some { f with
        nextId := f.nextId + 1
        phase := .getting ⟨f.nextId, key, makeHashParams hs key, none⟩ }
    | _ => none
  | .resume i =>
    match f.phase, f.retryQ[i]? with
    | .idle, some r => some { f with retryQ := f.retryQ.eraseIdx i, phase := .getting r }
    | _, _ => none
  | .getPass choice =>
    match f.phase with
    | .getting r =>
      (demandGetPass cfg f r choice).map fun (s, ex) => f.afterGet r.id s ex
    | _ => none
  | .set key bytes =>
    match f.phase with
    | .idle => f.set cfg hs key bytes
    | _ => none
  | .assign =>
    match f.phase with
    | .assigning m => f.assign cfg m
    | _ => none
  | .pickRetry i =>
    match f.phase with
    | .mapping m =>
      match m.cur, m.retry[i]? with
      | none, some e =>
        if m.updated < cfg.maxWriteBuf then
          some { f with phase := .mapping { m with cur := some e, retry := m.retry.eraseIdx i } }
        else none
      | _, _ => none
    | _ => none
  | .pickMaster =>
    match f.phase with
    | .mapping m =>
      match m.cur, m.master with
      | none, e :: master =>
        if m.updated < cfg.maxWriteBuf then
          some { f with phase := .mapping { m with cur := some e, master := master } }
        else none
      | _, _ => none
    | _ => none
  | .wbPass choice =>
    match f.phase with
    | .mapping m =>
      match m.cur with
      | some e => f.mapPass cfg m e choice
      | none => none
    | _ => none
  | .flush =>
    match f.phase with
    | .mapping m =>
      if m.cur.isNone ∧ cfg.maxWriteBuf ≤ m.updated then f.flush cfg hs m else none
    | _ => none
  | .promote page =>
    match f.phase with
    | .idle =>
      if cfg.hotCmt ∧ (f.store.cold.cmt page).isResident then
        some { f with store := f.store.promoteHot page }
      else none
    | _ => none
  | .rehashBegin =>
    match f.phase with
    | .idle =>
      if cfg.adaptiveMem then
        some { f with store := { f.store with hot := f.store.hot.rehashBegin } }
      else none
    | _ => none
  | .rehashTick =>
    match f.phase with
    | .idle =>
      if cfg.adaptiveMem then
        some { f with store := { f.store with hot := f.store.hot.rehashTick } }
      else none
    | _ => none

/-- The state after `demand_create`; `real_keys` is not initialised. -/
def Ftl.create (cfg : Settings) (garbage : Nat → Key) : Option Ftl :=
  (Store.create cfg).map fun s =>
    { store := s, realKeys := garbage, maxTry := 0, wb := [], flushList := [],
      flStream := fun _ => [], hashTable := fun _ => [], retryQ := [], finishQ := [],
      nextId := 0, phase := .idle }

def machine (cfg : Settings) (hs : Hashing) : Machine Ftl Label where
  init := fun f => ∃ garbage, Ftl.create cfg garbage = some f
  next := Ftl.next cfg hs

/-- A concrete run, from an FTL whose `real_keys` happens to hold empty keys. -/
def run (cfg : Settings) (hs : Hashing) (as : List Label) : Option Ftl :=
  (Ftl.create cfg fun _ => ⟨[], Nat.zero_le _⟩).bind fun f => (machine cfg hs).exec f as

theorem reachable_of_run {cfg : Settings} {hs : Hashing} {as : List Label} {f : Ftl}
    (h : run cfg hs as = some f) : (machine cfg hs).Reachable f := by
  obtain ⟨f₀, h₀, h⟩ := Option.bind_eq_some_iff.mp h
  exact Machine.Reachable.exec (Machine.Reachable.init ⟨_, h₀⟩) h

/-- A check evaluated at the end of a concrete run. -/
theorem exists_reachable_of_run (cfg : Settings) (hs : Hashing) (as : List Label) (p : Ftl → Bool)
    (h : (run cfg hs as).any p = true) : ∃ f, (machine cfg hs).Reachable f ∧ p f = true := by
  obtain ⟨f, hf, hp⟩ := (Option.any_eq_true ..).mp h
  exact ⟨f, reachable_of_run hf, hp⟩

/-- A concrete run whose steps all pass the check `ok`. -/
def checkRun (cfg : Settings) (hs : Hashing) (ok : Ftl → Label → Bool) (as : List Label) : Bool :=
  (Ftl.create cfg fun _ => ⟨[], Nat.zero_le _⟩).all fun f => (machine cfg hs).check ok f as

theorem exists_reach_of_run (cfg : Settings) (hs : Hashing) (ok : Ftl → Label → Bool)
    (as : List Label) (p : Ftl → Bool) (hok : checkRun cfg hs ok as = true)
    (h : (run cfg hs as).any p = true) :
    ∃ f, (machine cfg hs).Reach (fun f a => ok f a = true) f ∧ p f = true := by
  obtain ⟨f, hf, hp⟩ := (Option.any_eq_true ..).mp h
  obtain ⟨f₀, h₀, he⟩ := Option.bind_eq_some_iff.mp hf
  unfold checkRun at hok
  rw [h₀] at hok
  exact ⟨f, Machine.Reach.exec (.init ⟨_, h₀⟩) (Machine.along_of_check hok) he, hp⟩

/-- A checked concrete run in three parts. -/
theorem exists_reach_split (cfg : Settings) (hs : Hashing) (ok : Ftl → Label → Bool)
    (as bs cs : List Label) (p : Ftl → Ftl → Bool)
    (hok : checkRun cfg hs ok (as ++ (bs ++ cs)) = true)
    (h : ((run cfg hs as).any fun f₀ => ((machine cfg hs).exec f₀ bs).any fun f =>
      ((machine cfg hs).exec f cs).any fun f' => p f f') = true) :
    ∃ f₀ f f', (machine cfg hs).Reach (fun f a => ok f a = true) f₀ ∧
      (machine cfg hs).Along (fun f a => ok f a = true) f₀ bs ∧
      (machine cfg hs).exec f₀ bs = some f ∧
      (machine cfg hs).Along (fun f a => ok f a = true) f cs ∧
      (machine cfg hs).exec f cs = some f' ∧ p f f' = true := by
  obtain ⟨f₀, hf₀, h⟩ := (Option.any_eq_true ..).mp h
  obtain ⟨f, hf, h⟩ := (Option.any_eq_true ..).mp h
  obtain ⟨f', hf', hp⟩ := (Option.any_eq_true ..).mp h
  obtain ⟨g, hg, he⟩ := Option.bind_eq_some_iff.mp hf₀
  unfold checkRun at hok
  rw [hg] at hok
  obtain ⟨h₁, h₂⟩ := (Machine.along_of_check hok).append he
  obtain ⟨h₂, h₃⟩ := h₂.append hf
  exact ⟨f₀, f, f', .exec (.init ⟨_, hg⟩) h₁ he, h₂, hf, h₃, hf', hp⟩

end AggreKV.HashKv
