import AggreKV.LsmTree.LevelOrder

/-! # Completion of requests, and what a get finds

    `lsm_set` and `lsm_get` between the request ring and `finish_q`.

    * `requests_complete`: every request of a run is put on `finish_q` as
      often as it was received, exactly when no set leaves 64 nodes behind.
    * `lsmGet_iff`: a get finds the newest version of a key exactly when the
      memtable has it. -/

namespace AggreKV.LsmTree

/-! ## Section 1: `lsm_get` -/

/-- The `end_type`s that `lsm_get` and its search use. -/
inductive EndType where
  | skipFound
  | notFound
  deriving DecidableEq

/-- `__lsm_get_sub` on the memtable: the result, and the pages read. -/
def lsmGetSub (mem : Skiplist) (key : Key) : EndType × List Nat :=
  match skiplistFind mem key with
  | none => (.notFound, [])
  | some n =>
      match n.value with
      | some _ => (.skipFound, [])
      | none => (.skipFound, [n.ppa])

/-- What a get leaves behind: `end_type`, the returned value, the pages it
    reads, and how often it is put on `finish_q`. -/
structure GetResult where
  endType : EndType
  res : EndType
  reads : List Nat
  enqueued : Nat

/-- `lsm_get`. Both searches of the memtable run into `end_req`, which
    returns; the search of the levels below it needs `req->params`, which only
    the statements between them set. -/
def lsmGet (mem : Skiplist) (key : Key) : GetResult :=
  let r := lsmGetSub mem key
  { endType := .skipFound, res := r.1, reads := r.2, enqueued := 1 }

/-! ## Section 2: The request loop -/

inductive Request where
  | set (id : Nat) (key : Key) (bytes : Nat)
  | get (id : Nat) (key : Key)

def Request.id : Request → Nat
  | .set id _ _ => id
  | .get id _ => id

/-- The memtable with `finish_q`; `received` is a ghost, the requests handled
    so far. Compactions finish: what they do to the levels is left out. -/
structure RequestState where
  mem : Skiplist
  finishQ : List Nat
  received : List Nat

/-- `algo_thread` on one request. -/
def RequestState.next (s : RequestState) : Request → Option RequestState
  | .set id key bytes =>
      (lsmSetMem key bytes s.mem).map fun (mem, enqueued) =>
        { mem := mem
          finishQ := if enqueued then s.finishQ ++ [id] else s.finishQ
          received := s.received ++ [id] }
  | .get id key =>
      some { s with
        finishQ := s.finishQ ++ List.replicate (lsmGet s.mem key).enqueued id
        received := s.received ++ [id] }

def requestMachine : Machine RequestState Request where
  init s := s = ⟨[], [], []⟩
  next s r := s.next r

/-! ## Section 3: Which requests complete -/

/-- The memtable does not have 64 nodes when the request has been inserted. -/
def Completes (s : RequestState) : Request → Prop
  | .set _ key _ =>
      let rest := (compactionCheck s.mem).2
      ¬ ((rest.length = 64 ∧ key ∈ Skiplist.keys rest) ∨
        (rest.length = 63 ∧ key ∉ Skiplist.keys rest))
  | .get _ _ => True

instance : ∀ s r, Decidable (Completes s r)
  | _, .set _ _ _ => inferInstanceAs (Decidable (¬ _))
  | _, .get _ _ => inferInstanceAs (Decidable True)

theorem lsmSetMem_enqueued {key : Key} {bytes : Nat} {l l' : Skiplist} {b : Bool}
    (hl : MemOrdered l) (h : lsmSetMem key bytes l = some (l', b)) :
    b = true ↔ ¬ (((compactionCheck l).2.length = 64 ∧ key ∈ Skiplist.keys (compactionCheck l).2) ∨
      ((compactionCheck l).2.length = 63 ∧ key ∉ Skiplist.keys (compactionCheck l).2)) := by
  obtain ⟨m, hins, heq⟩ := Option.map_eq_some_iff.mp h
  cases heq
  have hlen := length_skiplistInsert (isCut_compactionCheck hl).2 hins
  by_cases hk : key ∈ Skiplist.keys (compactionCheck l).2
  · rw [if_pos hk] at hlen
    simp [hk, hlen, flushCheckNum]
  · rw [if_neg hk] at hlen
    simp [hk, hlen, flushCheckNum]

/-- One request. -/
theorem RequestState.next_spec {s s' : RequestState} {r : Request} (hs : MemOrdered s.mem)
    (h : s.next r = some s') : MemOrdered s'.mem ∧ s'.received = s.received ++ [r.id] ∧
      s'.finishQ = if Completes s r then s.finishQ ++ [r.id] else s.finishQ := by
  cases r with
  | set id key bytes =>
      obtain ⟨⟨mem, b⟩, hmem, rfl⟩ := Option.map_eq_some_iff.mp h
      refine ⟨lsmSetMem_ordered hs hmem, rfl, ?_⟩
      have hiff := lsmSetMem_enqueued hs hmem
      by_cases hc : Completes s (.set id key bytes)
      · rw [if_pos hc]
        exact if_pos (hiff.mpr hc)
      · rw [if_neg hc]
        exact if_neg fun hb => hc (hiff.mp hb)
  | get id key =>
      cases h
      exact ⟨hs, rfl, (if_pos trivial).symm⟩

/-- A request that was lost is never put on the queue later. -/
theorem lost_stays {as : List Request} {s s' : RequestState} (hs : MemOrdered s.mem)
    (h : requestMachine.exec s as = some s') :
    s'.finishQ.length + s.received.length ≤ s'.received.length + s.finishQ.length := by
  induction as generalizing s with
  | nil =>
      cases h
      exact (Nat.add_comm ..).le
  | cons a as ih =>
      obtain ⟨t, hstep, h⟩ := Option.bind_eq_some_iff.mp h
      obtain ⟨ht, hrec, hfin⟩ := RequestState.next_spec hs hstep
      have hrest := ih ht h
      have hlen := congrArg List.length hfin
      rw [hrec, List.length_append, List.length_singleton] at hrest
      split_ifs at hlen with hc
      · rw [List.length_append, List.length_singleton] at hlen
        omega
      · omega

/-- From a state that has completed everything so far. -/
theorem complete_iff {as : List Request} {s s' : RequestState} (hs : MemOrdered s.mem)
    (hall : s.finishQ = s.received) (h : requestMachine.exec s as = some s') :
    (∀ id, s'.finishQ.count id = s'.received.count id) ↔ requestMachine.Along Completes s as := by
  induction as generalizing s with
  | nil =>
      cases h
      exact ⟨fun _ => trivial, fun _ id => by rw [hall]⟩
  | cons a as ih =>
      obtain ⟨t, hstep, h⟩ := Option.bind_eq_some_iff.mp h
      obtain ⟨ht, hrec, hfin⟩ := RequestState.next_spec hs hstep
      by_cases hc : Completes s a
      -- This request was finished: all depends on the rest.
      · rw [if_pos hc, hall, ← hrec] at hfin
        have hrest := ih ht hfin h
        constructor
        · intro hcount
          refine ⟨hc, fun s₁ hs₁ => ?_⟩
          rw [show requestMachine.next s a = some t from hstep] at hs₁
          cases hs₁
          exact hrest.mp hcount
        · rintro ⟨-, halong⟩
          exact hrest.mpr (halong t hstep)
      · -- the request is missing from here on
        rw [if_neg hc] at hfin
        have hlost := lost_stays ht h
        rw [hfin, hrec, hall, List.length_append, List.length_singleton] at hlost
        refine iff_of_false (fun hcount => ?_) fun halong => hc halong.1
        have hperm : s'.finishQ.Perm s'.received := List.perm_iff_count.mpr hcount
        have hlen := hperm.length_eq
        omega

/-- A run puts every request on `finish_q` exactly when each of them completes. -/
theorem requests_complete {as : List Request} {s s' : RequestState}
    (hs : requestMachine.init s) (h : requestMachine.exec s as = some s') :
    (∀ id, s'.finishQ.count id = s'.received.count id) ↔
      requestMachine.Along Completes s as := by
  have hinit : s = ⟨[], [], []⟩ := hs
  subst hinit
  exact complete_iff .nil rfl h

/-- `n` set requests of different keys, the last key first. -/
def setRequests (n : Nat) : List Request :=
  (List.range n).reverse.map fun i => .set i (numberedKey i) 100

/-- 63 keys, then one of them again and a get: every request completes. -/
def overwriteRequests : List Request :=
  setRequests 63 ++ [.set 63 (numberedKey 5) 200, .get 64 (numberedKey 5)]

/-- With 64 different keys a request does not complete, and is missing on the queue. -/
theorem requests_complete_overwrite :
    (∃ s', requestMachine.exec ⟨[], [], []⟩ overwriteRequests = some s' ∧
      s'.mem.length = 63 ∧ (∀ id, s'.finishQ.count id = s'.received.count id) ∧
      requestMachine.Along Completes ⟨[], [], []⟩ overwriteRequests) ∧
    ∃ s', requestMachine.exec ⟨[], [], []⟩ (setRequests 64) = some s' ∧
      s'.finishQ.count 0 ≠ s'.received.count 0 ∧
      ¬ requestMachine.Along Completes ⟨[], [], []⟩ (setRequests 64) := by
  constructor
  · have hrun : (requestMachine.exec ⟨[], [], []⟩ overwriteRequests).any
        (fun s => decide (s.mem.length = 63 ∧ s.finishQ = s.received)) = true := by decide +kernel
    obtain ⟨s', hs', hdec⟩ := (Option.any_eq_true ..).mp hrun
    obtain ⟨hlen, heq⟩ := of_decide_eq_true hdec
    have hcount : ∀ id, s'.finishQ.count id = s'.received.count id := fun id => by rw [heq]
    exact ⟨s', hs', hlen, hcount, (requests_complete rfl hs').mp hcount⟩
  · have hrun : (requestMachine.exec ⟨[], [], []⟩ (setRequests 64)).any
        (fun s => decide (s.finishQ.count 0 ≠ s.received.count 0)) = true := by decide +kernel
    obtain ⟨s', hs', hdec⟩ := (Option.any_eq_true ..).mp hrun
    have hne := of_decide_eq_true hdec
    exact ⟨s', hs', hne, fun halong => hne ((requests_complete rfl hs').mpr halong 0)⟩

/-- The 64th of 64 keys never reaches `finish_q`. -/
theorem requests_counterexample :
    ¬ ∀ as s s', requestMachine.init s → requestMachine.exec s as = some s' →
      ∀ id, s'.finishQ.count id = s'.received.count id := by
  intro hall
  have hrun : (requestMachine.exec ⟨[], [], []⟩ (setRequests 64)).any
      (fun s => decide (s.finishQ.count 0 ≠ s.received.count 0)) = true := by decide +kernel
  obtain ⟨s', hs', hne⟩ := (Option.any_eq_true ..).mp hrun
  exact of_decide_eq_true hne (hall _ _ s' rfl hs' 0)

/-! ## Section 4: What a get finds -/

theorem skiplistFind_isSome {l : Skiplist} (hl : MemOrdered l) (key : Key) :
    (skiplistFind l key).isSome = true ↔ key ∈ Skiplist.keys l := by
  induction l with
  | nil => simp [skiplistFind, Skiplist.keys]
  | cons n l ih =>
      obtain ⟨hlt, -, hl⟩ := memOrdered_cons.mp hl
      have hcons : Skiplist.keys (n :: l) = n.key :: Skiplist.keys l := rfl
      unfold skiplistFind
      rw [hcons, List.mem_cons]
      split_ifs with hcmp htest
      · have hne : key ≠ n.key := (keyCmp_lt.mp hcmp).ne'
        rw [ih hl]
        simp [hne]
      · simp [(keyTest_iff.mp htest).symm]
      · have hle : key ≤ n.key := not_lt.mp fun hc => hcmp (keyCmp_lt.mpr hc)
        have hne : key ≠ n.key := fun hc => htest (keyTest_iff.mpr hc.symm)
        have hnot : key ∉ Skiplist.keys l := fun hm => absurd (hlt key hm) (not_lt.mpr hle)
        simp [hne, hnot]

/-- The entry of a key in the topmost level that has it. -/
def newestEntry (par : TreeParams) (disk : Disk) (key : Key) : Option Entry :=
  (List.range par.levelN).findSome? fun i => (disk i).entries.find? fun e => e.1 = key

/-- What a get of a key is meant to do. -/
structure FindsNewest (par : TreeParams) (s : Store) (key : Key) (r : GetResult) : Prop where
  memtable : r.endType = .skipFound ↔ key ∈ Skiplist.keys s.mem
  levels : key ∉ Skiplist.keys s.mem → ∀ e, newestEntry par s.disk key = some e → e.2 ∈ r.reads
  missing : r.res = .notFound →
    key ∉ Skiplist.keys s.mem ∧ newestEntry par s.disk key = none

/-- A get of a key finds its newest version exactly when the memtable has it. -/
theorem lsmGet_iff {cfg : Settings} {par : TreeParams} {s : Store}
    (h : (storeMachine cfg par).Reachable s) (key : Key) :
    FindsNewest par s key (lsmGet s.mem key) ↔ key ∈ Skiplist.keys s.mem := by
  constructor
  · intro hf
    exact hf.memtable.mp rfl
  · intro hk
    refine ⟨iff_of_true rfl hk, fun hn => absurd hk hn, fun hres => ?_⟩
    obtain ⟨n, hn⟩ := Option.isSome_iff_exists.mp
      ((skiplistFind_isSome (store_ok h).mem key).mpr hk)
    have hfound : (lsmGet s.mem key).res = .skipFound := by
      cases hv : n.value <;> simp [lsmGet, lsmGetSub, hn, hv]
    rw [hfound] at hres
    cases hres

/-- After the flush the level has the keys, and the memtable the last one. -/
theorem flushed_get : ∃ s, (storeMachine shipped shippedTree).Reachable s ∧
    numberedKey 0 ∈ Skiplist.keys s.mem ∧ numberedKey 1 ∉ Skiplist.keys s.mem ∧
    newestEntry shippedTree s.disk (numberedKey 1) ≠ none := by
  have hrun : ((lsmCreate shipped shippedTree).bind fun s =>
      (storeMachine shipped shippedTree).exec s (numberedSets 65)).any
        (fun s => decide (numberedKey 0 ∈ Skiplist.keys s.mem ∧
          numberedKey 1 ∉ Skiplist.keys s.mem ∧
          newestEntry shippedTree s.disk (numberedKey 1) ≠ none)) = true := by decide +kernel
  obtain ⟨s, hs, hkeys⟩ := (Option.any_eq_true ..).mp hrun
  obtain ⟨s₀, hinit, hexec⟩ := Option.bind_eq_some_iff.mp hs
  exact ⟨s, (Machine.Reachable.init hinit).exec hexec, of_decide_eq_true hkeys⟩

/-- Key 0 was set last and is in the memtable, so its get finds the newest value. -/
theorem lsmGet_iff_flushed : ∃ s, (storeMachine shipped shippedTree).Reachable s ∧
    FindsNewest shippedTree s (numberedKey 0) (lsmGet s.mem (numberedKey 0)) := by
  obtain ⟨s, hs, hk, -⟩ := flushed_get
  exact ⟨s, hs, (lsmGet_iff hs (numberedKey 0)).mpr hk⟩

/-- A key that was set and flushed is answered as not found. -/
theorem lsmGet_counterexample :
    ¬ ∀ (cfg : Settings) (par : TreeParams) (rs : List SetRequest) (s₀ s : Store) (key : Key),
      (storeMachine cfg par).init s₀ → (storeMachine cfg par).exec s₀ rs = some s →
      key ∈ rs.map SetRequest.key → FindsNewest par s key (lsmGet s.mem key) := by
  intro hall
  have hrun : ((lsmCreate shipped shippedTree).bind fun s =>
      (storeMachine shipped shippedTree).exec s (numberedSets 65)).any
        (fun s => decide (numberedKey 1 ∉ Skiplist.keys s.mem)) = true := by decide +kernel
  obtain ⟨s, hs, hnot⟩ := (Option.any_eq_true ..).mp hrun
  obtain ⟨s₀, hinit, hexec⟩ := Option.bind_eq_some_iff.mp hs
  have hset : numberedKey 1 ∈ (numberedSets 65).map SetRequest.key := by decide +kernel
  have hfinds := hall shipped shippedTree (numberedSets 65) s₀ s _ hinit hexec hset
  exact of_decide_eq_true hnot (hfinds.memtable.mp rfl)

end AggreKV.LsmTree
