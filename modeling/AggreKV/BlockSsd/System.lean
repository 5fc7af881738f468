import AggreKV.Lib.Machine
import AggreKV.BlockSsd.WriteBuffer

/-! # The block FTL as a machine

    The algorithm thread of `block_ssd`: requests taken from `req_q` or
    `retry_q`, the get path of `demand.c`, and the batch loops of the
    write-buffer flush.

    * One step is one iteration of a loop of the source: one pass from
      `read_retry` or `wb_retry`, one page of the assignment.
    * Requests arrive in any order, and any parked request or entry may be
      resumed: the order by completion time is one of these.
    * Keys whose block number lies outside the mapping table are not
      accepted; the source indexes its table with them. -/

namespace AggreKV.BlockSsd

open HashKv (Jump FlushNode dIdx flushAppend)

/-! ## Section 1: State -/

/-- A get request in flight. -/
structure Request where
  id : Nat
  key : Key
  hParams : HashParams
  params : Option Jump
  deriving DecidableEq

/-- What a request put on `finish_q` carries: for a get that read flash, the logical
    slot and the page it used. -/
inductive Outcome where
  | stored
  | inWriteBuffer
  | found (lpa ppa : Nat)
  | notFound
  deriving DecidableEq

/-- A set request waiting for the flush of a full write buffer. -/
structure SetRequest where
  id : Nat
  key : Key
  deriving DecidableEq

/-- The local variables of `_do_wb_assign_ppa`; `bucket` holds the entries that have no
    page yet, the next one first. -/
structure Assign where
  req : SetRequest
  bucket : List WbEntry
  lastPpa : Option Nat

/-- The local variables of `_do_wb_mapping_update`. -/
structure MapUpdate where
  req : SetRequest
  master : List WbEntry
  retry : List WbEntry
  cur : Option WbEntry
  updated : Nat

inductive Phase where
  | idle
  | getting (r : Request)
  | assigning (m : Assign)
  | mapping (m : MapUpdate)

/-- The whole FTL. `finishQ` is the log of everything put on `finish_q`. Two history
    variables: the last set of a block, and the set whose value of it was flushed last. -/
structure Ftl where
  store : Store
  realKeys : Nat → Key
  maxTry : Nat
  wb : List WbEntry
  flushList : List FlushNode
  hashTable : DHtable
  retryQ : List Request
  finishQ : List (Nat × Outcome)
  nextId : Nat
  phase : Phase
  lastSet : Nat → Option Nat
  flushed : Nat → Option Nat

/-- What the environment or the schedule chooses. -/
inductive Label where
  | get (key : Key)
  | resume (i : Nat)
  | getPass
  | set (key : Key) (bytes : Nat)
  | assign
  | pickRetry (i : Nat)
  | pickMaster
  | wbPass
  | flush
  deriving DecidableEq

/-! ## Section 2: Gets -/

/-- How a pass from `read_retry` leaves `__demand_get`: back to `read_retry`, into the
    retry queue, or completed with an outcome. -/
inductive GetExit where
  | again (r : Request)
  | parked (r : Request)
  | done (o : Outcome)

/-- `data_read`. -/
def dataRead (realKeys : Nat → Key) (r : Request) (lpa : Nat) (ppa : Option Nat) : GetExit :=
  match ppa with
  | none => .done .notFound
  | some p =>
    if keycmp r.key (realKeys lpa) = 0 then .done (.found lpa p)
    else .parked { r with hParams := r.hParams.next }

/-- `cache_check_complete`. -/
def cacheCheckComplete (realKeys : Nat → Key) (s : Store) (r : Request) (lpa : Nat) : GetExit :=
  let pte := s.cold.getPte lpa
  if r.hParams.keyFp ≠ pte.keyFp then .again { r with hParams := r.hParams.next }
  else dataRead realKeys r lpa pte.ppa

/-- `cache_list_up`. -/
def cacheListUp (cfg : Settings) (realKeys : Nat → Key) (s : Store) (r : Request) (lpa : Nat) :
    Option (Store × GetExit) :=
  (s.listUp cfg lpa).map fun (rc, s) =>
    if rc then (s, .parked { r with params := some .complete })
    else (s, cacheCheckComplete realKeys s r lpa)

/-- `cache_load`. A page without flash copy ends the request. -/
def cacheLoad (s : Store) (r : Request) (lpa : Nat) : Store × GetExit :=
  match s.load lpa with
  | some s => (s, .parked { r with params := some .list })
  | none => (s, .done .notFound)

/-- One pass of `__demand_get` from `read_retry`. -/
def demandGetPass (cfg : Settings) (f : Ftl) (r : Request) : Option (Store × GetExit) :=
  let lpa := getLpa r.key
  let s := f.store
  if f.maxTry < r.hParams.cnt then some (s, .done .notFound)
  else
    match r.params with
    | some jump =>
      let r := { r with params := none }
      match jump with
      | .load => some (cacheLoad s r lpa)
      | .list | .evict => cacheListUp cfg f.realKeys s r lpa
      | .complete => some (s, cacheCheckComplete f.realKeys s r lpa)
      -- `pte.ppa` still has its initial value.
      | .read => some (s, dataRead f.realKeys r lpa none)
      | _ => none
    | none =>
      if r.hParams.cnt = 0 ∧ r.key = keyMax ∧ f.wb ≠ [] then none
      else if r.hParams.cnt = 0 ∧ wbFind r.key f.wb then some (s, .done .inWriteBuffer)
      else
        let hit := s.cold.isHit lpa
        if hit.1 then
          let s := { s with cold := hit.2.touch lpa }
          some (s, cacheCheckComplete f.realKeys s r lpa)
        else some (cacheLoad s r lpa)

/-- `demand_get` around a pass. -/
def Ftl.afterGet (f : Ftl) (id : Nat) (s : Store) : GetExit → Ftl
  | .again r => { f with store := s, phase := .getting r }
  | .parked r => { f with store := s, phase := .idle, retryQ := f.retryQ ++ [r] }
  | .done o => { f with store := s, phase := .idle, finishQ := f.finishQ ++ [(id, o)] }

/-! ## Section 3: Sets and the write-buffer flush -/

/-- `wb->insert` and the completion of the set. -/
def Ftl.insert (fp : Key → UInt32) (f : Ftl) (req : SetRequest) : Ftl :=
  { f with
    wb := wbInsert req.key req.id (makeHashParams fp req.key) f.wb
    finishQ := f.finishQ ++ [(req.id, .stored)]
    phase := .idle
    lastSet := Function.update f.lastSet (getLpa req.key) (some req.id) }

/-- `__demand_set`: a full write buffer is flushed first. A value takes one page: longer
    ones have no bucket. The greatest key is that of the skiplist header. -/
def Ftl.set (cfg : Settings) (fp : Key → UInt32) (f : Ftl) (key : Key) (bytes : Nat) : Option Ftl :=
  if 1 < valLen key bytes ∨ key = keyMax then none
  else
    let req : SetRequest := ⟨f.nextId, key⟩
    let f := { f with nextId := f.nextId + 1 }
    if f.wb.length = cfg.maxWriteBuf then
      some { f with phase := .assigning ⟨req, f.wb.reverse, none⟩ }
    else some (f.insert fp req)

/-- The end of `_do_wb_assign_ppa`: all entries are queued for the mapping update. -/
def Ftl.endAssign (f : Ftl) (req : SetRequest) : Ftl :=
  { f with phase := .mapping ⟨req, f.wb, [], none, 0⟩ }

/-- One page of `_do_wb_assign_ppa`. -/
def Ftl.assign (cfg : Settings) (f : Ftl) (m : Assign) : Option Ftl :=
  match m.bucket with
  | [] => some (f.endAssign m.req)
  | e :: bucket =>
    (assignEntry cfg f.store e).map fun (ppa, s) =>
      { f with
        store := s
        wb := wbSetPpa f.wb e.key ppa
        flushList := flushAppend f.flushList ppa fun _ => m.lastPpa.any fun last => ppa = last + 1
        phase := .assigning ⟨m.req, bucket, some ppa⟩ }

/-- `wb_direct_update` of entry `e`, whose value lies at `ppa`. -/
def Ftl.install (cfg : Settings) (f : Ftl) (m : MapUpdate) (s : Store) (e : WbEntry) (ppa : Nat) :
    Ftl :=
  let lpa := getLpa e.key
  { f with
    store := wbInstall cfg s lpa ppa e.hParams.keyFp
    realKeys := Function.update f.realKeys lpa e.key
    hashTable := dHtableInsert cfg f.hashTable ppa lpa
    maxTry := max e.hParams.cnt f.maxTry
    phase := .mapping { m with cur := none, updated := m.updated + 1 } }

/-- One pass of `_do_wb_mapping_update` over the current entry. -/
def Ftl.mapPass (cfg : Settings) (f : Ftl) (m : MapUpdate) (e : WbEntry) : Option Ftl :=
  (wbPass cfg f.hashTable f.store e).bind fun (s, ex) =>
    match ex with
    | .again e => some { f with store := s, phase := .mapping { m with cur := some e } }
    | .parked e =>
      some { f with store := s, phase := .mapping { m with cur := none, retry := m.retry ++ [e] } }
    | .update e => e.ppa.map (f.install cfg m (wbInvalidateOld cfg s (getLpa e.key)) e)
    | .directUpdate e => e.ppa.map (f.install cfg m s e)

/-- The end of `_do_wb_flush`. -/
def Ftl.emptied (cfg : Settings) (f : Ftl) : Ftl :=
  { f with
    store := { f.store with ssd := flushSegs cfg f.store.ssd f.flushList }
    flushList := []
    hashTable := fun _ => []
    wb := []
    flushed := f.wb.foldl (fun fl e => Function.update fl (getLpa e.key) (some e.value)) f.flushed }

/-- `_do_wb_flush` and the insertion of the pending set. -/
def Ftl.flush (cfg : Settings) (fp : Key → UInt32) (f : Ftl) (m : MapUpdate) : Option Ftl :=
  if m.master = [] ∧ m.retry = [] then some ((f.emptied cfg).insert fp m.req) else none

/-! ## Section 4: The machine -/

def Ftl.next (cfg : Settings) (fp : Key → UInt32) (f : Ftl) : Label → Option Ftl
  | .get key =>
    match f.phase with
    | .idle =>
      if getLpa key < cfg.nrValidTentries then
        some { f with
          nextId := f.nextId + 1
          phase := .getting ⟨f.nextId, key, makeHashParams fp key, none⟩ }
      else none
    | _ => none
  | .resume i =>
    match f.phase, f.retryQ[i]? with
    | .idle, some r => some { f with retryQ := f.retryQ.eraseIdx i, phase := .getting r }
    | _, _ => none
  | .getPass =>
    match f.phase with
    | .getting r => (demandGetPass cfg f r).map fun (s, ex) => f.afterGet r.id s ex
    | _ => none
  | .set key bytes =>
    match f.phase with
    | .idle => if getLpa key < cfg.nrValidTentries then f.set cfg fp key bytes else none
    | _ => none
  | .assign =>
    match f.phase with
    | .assigning m => f.assign cfg m
    | _ => none
  | .pickRetry i =>
    match f.phase with
    | .mapping m =>
      match m.cur, m.retry[i]? with
      | none, some e =>
        if m.updated < cfg.maxWriteBuf then
          some { f with phase := .mapping { m with cur := some e, retry := m.retry.eraseIdx i } }
        else none
      | _, _ => none
    | _ => none
  | .pickMaster =>
    match f.phase with
    | .mapping m =>
      match m.cur, m.master with
      | none, e :: master =>
        if m.updated < cfg.maxWriteBuf then
          some { f with phase := .mapping { m with cur := some e, master := master } }
        else none
      | _, _ => none
    | _ => none
  | .wbPass =>
    match f.phase with
    | .mapping m =>
      match m.cur with
      | some e => f.mapPass cfg m e
      | none => none
    | _ => none
  | .flush =>
    match f.phase with
    | .mapping m =>
      if m.cur.isNone ∧ cfg.maxWriteBuf ≤ m.updated then f.flush cfg fp m else none
    | _ => none

/-- The state after `demand_create`; `real_keys` is not initialised. -/
def Ftl.create (cfg : Settings) (garbage : Nat → Key) : Ftl :=
  { store := Store.create cfg, realKeys := garbage, maxTry := 0, wb := [], flushList := [],
    hashTable := fun _ => [], retryQ := [], finishQ := [], nextId := 0, phase := .idle,
    lastSet := fun _ => none, flushed := fun _ => none }

def machine (cfg : Settings) (fp : Key → UInt32) : Machine Ftl Label where
  init := fun f => ∃ garbage, f = Ftl.create cfg garbage
  next := Ftl.next cfg fp

/-- A concrete run, from an FTL whose `real_keys` happens to hold empty keys. -/
def run (cfg : Settings) (fp : Key → UInt32) (as : List Label) : Option Ftl :=
  (machine cfg fp).exec (Ftl.create cfg fun _ => ⟨[], Nat.zero_le _⟩) as

theorem exists_reachable_of_run (cfg : Settings) (fp : Key → UInt32) (as : List Label)
    (p : Ftl → Bool) (h : (run cfg fp as).any p = true) :
    ∃ f, (machine cfg fp).Reachable f ∧ p f = true := by
  obtain ⟨f, hf, hp⟩ := (Option.any_eq_true ..).mp h
  exact ⟨f, Machine.Reachable.exec (Machine.Reachable.init ⟨_, rfl⟩) hf, hp⟩

/-- A concrete run whose steps all pass the check `ok`. -/
theorem exists_reach_of_run (cfg : Settings) (fp : Key → UInt32) (ok : Ftl → Label → Bool)
    (as : List Label) (p : Ftl → Bool)
    (hok : (machine cfg fp).check ok (Ftl.create cfg fun _ => ⟨[], Nat.zero_le _⟩) as = true)
    (h : (run cfg fp as).any p = true) :
    ∃ f, (machine cfg fp).Reach (fun f a => ok f a = true) f ∧ p f = true := by
  obtain ⟨f, hf, hp⟩ := (Option.any_eq_true ..).mp h
  exact ⟨f, Machine.Reach.exec (.init ⟨_, rfl⟩) (Machine.along_of_check hok) hf, hp⟩

end AggreKV.BlockSsd
