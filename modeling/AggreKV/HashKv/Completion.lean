import AggreKV.HashKv.Passes

/-! # Completion of requests

    Every request is put on `finish_q` once and is then in no queue, in
    every run in which no get loads a translation page without flash copy.

    * `Tracked`: each issued request is finished once and nowhere in
      flight, or not finished and in flight once.
    * `variant`: a measure that every pass over a request decreases unless
      it finishes the request, so a get is resumed finitely often.
    * `doubleCompletion_counterexample`: the load of a page without flash
      copy finishes a request twice and keeps it in `retry_q`. -/

namespace AggreKV.HashKv

variable {cfg : Settings} {hs : Hashing}

/-! ## Section 1: Where a request is -/

/-- The requests the algorithm thread is working on. -/
def Phase.requestIds : Phase → List Nat
  | .idle => []
  | .getting r => [r.id]
  | .assigning m => [m.req.id]
  | .mapping m => [m.req.id]

def Ftl.inFlight (f : Ftl) : List Nat := f.phase.requestIds ++ f.retryQ.map (·.id)

def Ftl.finishedIds (f : Ftl) : List Nat := f.finishQ.map Prod.fst

/-- Each issued request is in exactly one of the two lists, exactly once. -/
def Tracked (f : Ftl) : Prop :=
  ∀ id, (id < f.nextId → f.finishedIds.count id + f.inFlight.count id = 1) ∧
    (f.nextId ≤ id → f.finishedIds.count id + f.inFlight.count id = 0)

/-- `max_try` never passes `MAX_HASH_COLLISION`. -/
def TryBounded (f : Ftl) : Prop := f.maxTry ≤ 1024

/-- No pass loads a translation page that has no flash copy. -/
def loadBacked (cfg : Settings) (f : Ftl) : Label → Bool
  | .getPass _ =>
    match f.phase with
    | .getting r =>
      !f.loadsTpage cfg r || (f.store.cold.cmt (dIdx (getLpa cfg r.hParams))).tPpa.isSome
    | _ => true
  | _ => true

/-! ## Section 2: One pass -/

/-- What a pass over a request still has to do: the probes left, and within one
    probe the load, the eviction and the check. -/
def variant (r : Request) : Nat :=
  3 * (1025 - r.hParams.cnt) +
    match r.params with
    | none | some .load => 2
    | some .list | some .evict => 1
    | some _ => 0

/-- A pass finishes the request, parks it or goes on with it, exactly one of these. -/
def GetExit.Single (r : Request) : GetExit → Prop
  | .again r' => r'.id = r.id ∧ variant r' < variant r
  | .ret rcMax finish retry =>
    finish.length + rcMax.toNat + retry.toList.length = 1 ∧
      ∀ r' ∈ retry, r'.id = r.id ∧ variant r' < variant r

/-- A further try is nearer to the end than any jump of this one. -/
theorem variant_next_lt {r : Request} (h : r.hParams.cnt ≤ 1024) (p : Option Jump) :
    variant { r with hParams := r.hParams.next, params := none } <
    variant { r with params := p } := by
  simp only [variant, HashParams.next_cnt]
  omega

theorem variant_next_lt_self {r : Request} (h : r.hParams.cnt ≤ 1024) :
    variant { r with hParams := r.hParams.next, params := none } < variant r :=
  variant_next_lt h r.params

/-- A read answers the request, or sends it on to its next slot. -/
theorem dataRead_single {realKeys : Nat → Key} {r : Request} {lpa : Nat} {ppa : Option Nat}
    (hn : r.hParams.cnt ≤ 1024) :
    (dataRead realKeys { r with params := none } lpa ppa).Single r := by
  unfold dataRead
  split
  · simp [GetExit.Single]
  · split
    · simp [GetExit.Single]
    · simpa [GetExit.Single] using variant_next_lt_self hn

/-- A pass finishes its request once, or leaves it nearer to its end. -/
theorem GetPath.single {f : Ftl} {r : Request} {choice : Rebalance} {s : Store} {ex : GetExit}
    (hb : TryBounded f)
    (hp : f.phase = .getting r) (hl : loadBacked cfg f (.getPass choice) = true)
    (h : GetPath cfg f r choice s ex) : ex.Single r := by
  unfold TryBounded at hb
  cases h with
  | exhausted => simp [GetExit.Single]
  | wbHit => simp [GetExit.Single]
  | unread => simp [GetExit.Single]
  | hotRead s pte hn hp =>
    have hr : { r with params := none } = r := by cases r; simp_all
    have hd : (dataRead f.realKeys { r with params := none } (getLpa cfg r.hParams) pte.ppa).Single
        r := dataRead_single (by omega)
    rwa [hr] at hd
  | loaded s₀ s hn hs =>
    rcases hs with ⟨hp, _⟩ | ⟨hp, _⟩ <;> simp [GetExit.Single, variant, hp]
  -- A load that is backed does not come here.
  | neverWritten s hn hs hload =>
    obtain ⟨hload', hc⟩ := hs.loadsTpage hn
    simp only [loadBacked, hp, hload', Bool.not_true, Bool.false_or] at hl
    rw [← hc] at hl
    simp [Store.load, Option.isSome_iff_ne_none.mp hl] at hload
  | evicted s hn hp =>
    rcases hp with hp | hp <;> simp [GetExit.Single, variant, hp]
  | differ s hn => exact ⟨rfl, variant_next_lt_self (by omega)⟩
  | read s hn => exact dataRead_single (by omega)

/-! ## Section 3: Runs -/

/-- The tries stay bounded. -/
theorem TryBounded.step {f f' : Ftl} {a : Label} (hb : TryBounded f) (h : Step cfg hs f a f') :
    TryBounded f' := by
  unfold TryBounded at hb ⊢
  cases h with
  | wbUpdate choice m e s e' ppa hp hc hw hppa =>
    obtain ⟨hn, hpath⟩ := WbPath.of_pass hw
    cases hpath
    exact Nat.max_le.mpr ⟨hn, hb⟩
  | wbDirectUpdate choice m e s e' ppa hp hc hw hppa =>
    obtain ⟨hn, hpath⟩ := WbPath.of_pass hw
    cases hpath
    exact Nat.max_le.mpr ⟨hn, hb⟩
  | getPass choice r s ex hp hd => cases ex <;> exact hb
  | _ => exact hb

/-- A get pass moves the request or finishes it. -/
theorem Tracked.afterGet {f : Ftl} {r : Request} {s : Store} {ex : GetExit} (ht : Tracked f)
    (hp : f.phase = .getting r) (hex : ex.Single r) : Tracked (f.afterGet r.id s ex) := by
  intro id
  have h := ht id
  simp only [Ftl.finishedIds, Ftl.inFlight, hp, Phase.requestIds, List.count_append] at h ⊢
  cases ex with
  | again r' => simpa [Ftl.afterGet, Phase.requestIds, hex.1] using h
  | ret rcMax finish retry =>
    obtain ⟨hone, hid⟩ := hex
    have hfin : ((finish.map fun o => (r.id, o)).map Prod.fst) =
        List.replicate finish.length r.id := by
      simp [Function.comp_def]
    have hretry : retry.toList.map (·.id) = List.replicate retry.toList.length r.id := by
      cases retry with
      | none => rfl
      | some r' => simp [(hid r' rfl).1]
    cases rcMax <;>
      simp only [Ftl.afterGet, Bool.false_eq_true, if_false, if_true,
        List.map_append, List.count_append, hretry, List.count_replicate, List.map_map,
        List.count_nil, List.count_cons, Bool.toNat_false, Bool.toNat_true, Function.comp_def,
        List.map_const', List.map_cons, List.map_nil, beq_iff_eq] at h hone ⊢ <;>
      by_cases hr : r.id = id <;> simp only [hr, if_true, if_false] at h ⊢ <;> omega

/-- A step finishes or keeps each request, once. -/
theorem Tracked.step {f f' : Ftl} {a : Label} (hb : TryBounded f) (ht : Tracked f)
    (hl : loadBacked cfg f a = true) (h : Step cfg hs f a f') : Tracked f' := by
  cases h with
  -- A new request takes the next number.
  | get key hp =>
    intro id
    have h := ht id
    simp only [Ftl.finishedIds, Ftl.inFlight, hp, Phase.requestIds, List.count_append,
      List.count_cons, List.count_nil] at h ⊢
    by_cases hid : f.nextId = id <;> simp only [hid, beq_iff_eq, if_true, if_false] at h ⊢ <;> omega
  | resume i r hp hr =>
    intro id
    have h := ht id
    have hperm := ((perm_of_getElem? hr).map (·.id)).count_eq id
    simp only [Ftl.finishedIds, Ftl.inFlight, hp, Phase.requestIds, List.count_append,
      List.count_cons, List.count_nil, List.map_cons] at h hperm ⊢
    omega
  | getPass choice r s ex hp hd =>
    exact ht.afterGet hp
      ((GetPath.of_pass hd).single hb hp hl)
  | setFull key bytes hp =>
    intro id
    have h := ht id
    simp only [Ftl.finishedIds, Ftl.inFlight, hp, Phase.requestIds, List.count_append,
      List.count_cons, List.count_nil] at h ⊢
    by_cases hid : f.nextId = id <;> simp only [hid, beq_iff_eq, if_true, if_false] at h ⊢ <;> omega
  -- A set is answered as soon as it is in the buffer.
  | setInsert key bytes hp =>
    intro id
    have h := ht id
    simp only [Ftl.finishedIds, Ftl.inFlight, hp, Phase.requestIds, List.count_append,
      List.count_cons, List.count_nil, Ftl.insert, List.map_append, List.map_cons,
      List.map_nil] at h ⊢
    by_cases hid : f.nextId = id <;> simp only [hid, beq_iff_eq, if_true, if_false] at h ⊢ <;> omega
  -- The set that waited for the flush is answered now.
  | flush m ssd hp =>
    intro id
    have h := ht id
    simp only [Ftl.finishedIds, Ftl.inFlight, hp, Phase.requestIds, List.count_append,
      List.count_cons, List.count_nil, Ftl.insert, Ftl.emptied, List.map_append, List.map_cons,
      List.map_nil] at h ⊢
    omega
  | endAssign m hp | assignEntry m e s fl pga hp | assignPage m ppa s bm wb hp
  | pickRetry i m e hp | pickMaster m e master hp | wbAgain choice m e s e' hp
  | wbParked choice m e s e' hp | wbUpdate choice m e s e' ppa hp
  | wbDirectUpdate choice m e s e' ppa hp =>
    intro id
    have h := ht id
    simpa [Ftl.finishedIds, Ftl.inFlight, hp, Phase.requestIds, Ftl.install, Ftl.endAssign] using h
  | promote page hp | rehashBegin hp | rehashTick hp => exact ht

/-- No request has been issued yet. -/
theorem create_tracked {garbage : Nat → Key} {f : Ftl} (h : Ftl.create cfg garbage = some f) :
    Tracked f ∧ TryBounded f := by
  obtain ⟨s, _, rfl⟩ := Option.map_eq_some_iff.mp h
  exact ⟨fun id => by simp [Ftl.finishedIds, Ftl.inFlight, Phase.requestIds], Nat.zero_le _⟩

theorem reach_tracked {f : Ftl}
    (h : (machine cfg hs).Reach (fun f a => loadBacked cfg f a = true) f) :
    Tracked f ∧ TryBounded f := by
  refine h.invariant (fun s ⟨_, hs⟩ => create_tracked hs) fun s s' a _ ih hl hn => ?_
  exact ⟨ih.1.step ih.2 hl (.of_next hn), ih.2.step (.of_next hn)⟩

/-- `finish_q` is only appended to. -/
theorem finishQ_prefix_of_step {f f' : Ftl} {a : Label} (h : Step cfg hs f a f') :
    f.finishQ <+: f'.finishQ := by
  cases h with
  | getPass choice r s ex hp hd =>
    cases ex with
    | again r' => exact List.prefix_refl _
    | ret rcMax finish retry => exact List.prefix_append _ _
  | setInsert | flush => exact List.prefix_append _ _
  | _ => exact List.prefix_refl _

/-- What is finished stays finished. -/
theorem finishQ_prefix_of_exec : ∀ {as : List Label} {f f' : Ftl},
    (machine cfg hs).exec f as = some f' → f.finishQ <+: f'.finishQ
  | [], f, f', h => by cases h; exact List.prefix_refl _
  | a :: as, f, f', h => by
      obtain ⟨g, hg, h⟩ := Option.bind_eq_some_iff.mp h
      exact (finishQ_prefix_of_step (.of_next hg)).trans (finishQ_prefix_of_exec h)

/-- An issued request is at one place. -/
theorem Tracked.mem_cases {f : Ftl} (ht : Tracked f) {id : Nat} (hid : id < f.nextId) :
    (f.finishedIds.count id = 1 ∧ id ∉ f.inFlight) ∨
      (id ∉ f.finishedIds ∧ f.inFlight.count id = 1) := by
  have h := (ht id).1 hid
  by_cases hfin : id ∈ f.finishedIds
  · have := List.count_pos_iff.mpr hfin
    exact Or.inl ⟨by omega, List.count_eq_zero.mp (by omega)⟩
  · have := List.count_eq_zero.mpr hfin
    exact Or.inr ⟨hfin, by omega⟩

/-- Only issued requests are finished. -/
theorem Tracked.lt_nextId {f : Ftl} (ht : Tracked f) {id : Nat} (h : id ∈ f.finishedIds) :
    id < f.nextId := by
  by_contra hlt
  have := (ht id).2 (by omega)
  have := List.count_pos_iff.mpr h
  omega

/-- While no load meets a page without flash copy, every issued request is either
    finished, once and for good, or in flight once; and a pass over a get that does
    not finish it brings it closer to its end. -/
theorem requests_complete_once {f : Ftl}
    (h : (machine cfg hs).Reach (fun f a => loadBacked cfg f a = true) f) :
    (∀ id < f.nextId, (f.finishedIds.count id = 1 ∧ id ∉ f.inFlight) ∨
      (id ∉ f.finishedIds ∧ f.inFlight.count id = 1)) ∧
    (∀ as f', (machine cfg hs).Along (fun f a => loadBacked cfg f a = true) f as →
      (machine cfg hs).exec f as = some f' →
      ∀ id ∈ f.finishedIds, f'.finishedIds.count id = 1 ∧ id ∉ f'.inFlight) ∧
    (∀ r choice f', f.phase = .getting r → loadBacked cfg f (.getPass choice) = true →
      Ftl.next cfg hs f (.getPass choice) = some f' →
      r.id ∈ f'.finishedIds ∨
        ∃ r', (f'.phase = .getting r' ∨ f'.phase = .idle ∧ r' ∈ f'.retryQ) ∧
          r'.id = r.id ∧ variant r' < variant r) := by
  obtain ⟨ht, hb⟩ := reach_tracked h
  refine ⟨fun id hid => ht.mem_cases hid, fun as f' hal he id hid => ?_,
    fun r choice f' hp hl hn => ?_⟩
  · have ht' := (reach_tracked (h.exec hal he)).1
    have hmem : id ∈ f'.finishedIds :=
      ((finishQ_prefix_of_exec he).map Prod.fst).subset hid
    rcases ht'.mem_cases (ht'.lt_nextId hmem) with h | h
    · exact h
    · exact absurd hmem h.1
  · obtain ⟨⟨s, ex⟩, hd, rfl⟩ : ∃ p, demandGetPass cfg f r choice = some p ∧
        f.afterGet r.id p.1 p.2 = f' := by
      simpa [Ftl.next, hp] using hn
    have hex := (GetPath.of_pass hd).single hb hp hl
    cases ex with
    -- Sent on, parked with the same number, or finished.
    | again r' => exact Or.inr ⟨r', Or.inl rfl, hex⟩
    | ret rcMax finish retry =>
      obtain ⟨hone, hid⟩ := hex
      cases retry with
      | some r' => exact Or.inr ⟨r', Or.inr ⟨rfl, by simp [Ftl.afterGet]⟩, hid r' rfl⟩
      | none =>
        refine Or.inl ?_
        cases rcMax with
        | true => simp [Ftl.afterGet, Ftl.finishedIds]
        | false =>
          cases finish with
          | nil => simp at hone
          | cons o os => simp [Ftl.afterGet, Ftl.finishedIds]

/-! ## Section 4: Concrete runs -/

/-- The default build. -/
def defaultBuild : Settings := .shipped false false false (by decide)

/-- Hash functions under which every key starts at slot 0. -/
def zeroHash : Hashing := ⟨fun _ => 0, fun _ => 0⟩

/-- The key of one byte. -/
def byteKey (b : UInt8) : Key := ⟨[b], by simp⟩

/-- Hash functions under which the key of byte `b` starts in translation page `b`. -/
def pageHash : Hashing :=
  ⟨fun k => 512 * (k.bytes.headD 0).toUInt32, fun k => (k.bytes.headD 0).toUInt32⟩

/-- A set that flushes a write buffer of one entry whose page is not cached, in a
    cache that is not full. -/
def flushingSet (b : UInt8) : List Label :=
  [.set (byteKey b) 100, .assign, .assign, .pickMaster, .wbPass .keep, .flush]

/-- A cache of one page. -/
def onePage : Settings :=
  .scaled false false 16 60 8 1 1 sixteen_pos nos_sixty eight_pos Nat.one_pos Nat.one_pos
    grains_fit_sixty

/-- Page 1 is written through the cache, which evicts it for page 2; then key 1 is read. -/
def evictedGet : List Label :=
  [.set (byteKey 1) 100] ++ flushingSet 2 ++
    [.set (byteKey 3) 100, .assign, .assign, .pickMaster, .wbPass .keep, .pickRetry 0,
      .wbPass .keep, .flush, .get (byteKey 1), .getPass .keep]

/-- The get is parked for the eviction of the dirty page 2, loads page 1 and is parked again,
    and then finds its mapping. -/
theorem requests_complete_once_loadedGet :
    ∃ f f' : Ftl, f.inFlight = [3] ∧ f.finishedIds = [0, 1, 2] ∧
      (machine onePage pageHash).exec f
        [.resume 0, .getPass .keep, .resume 0, .getPass .keep] = some f' ∧
      f'.inFlight = [] ∧ (f'.store.cold.cmt 1).pt = true ∧
      (∀ id < f'.nextId, f'.finishedIds.count id = 1) ∧
      ∀ id ∈ f.finishedIds, f'.finishedIds.count id = 1 ∧ id ∉ f'.inFlight := by
  obtain ⟨f₀, f, f', h₀, hal, hex, hal', hex', hp⟩ := exists_reach_split onePage pageHash
    (loadBacked onePage) [] evictedGet [.resume 0, .getPass .keep, .resume 0, .getPass .keep]
    (fun f f' => f.inFlight = [3] && f.finishedIds = [0, 1, 2] && f'.inFlight = [] &&
      (f'.store.cold.cmt 1).pt) (by decide +kernel) (by decide +kernel)
  simp only [Bool.and_eq_true, decide_eq_true_eq] at hp
  obtain ⟨⟨⟨hflight, hfin⟩, hnone⟩, hpt⟩ := hp
  have hf := h₀.exec hal hex
  refine ⟨f, f', hflight, hfin, hex', hnone, hpt, fun id hid => ?_,
    (requests_complete_once hf).2.1 _ f' hal' hex'⟩
  -- Nothing is in flight any more, so every request is finished.
  rcases (requests_complete_once (hf.exec hal' hex')).1 id hid with h | h
  · exact h.1
  · rw [hnone] at h
    exact absurd h.2 (by simp)

/-- The first get of an empty FTL: its translation page has no flash copy, so the
    request is finished twice and stays in the retry queue. -/
theorem doubleCompletion_counterexample :
    ∃ f, (machine defaultBuild zeroHash).Reachable f ∧ f.phase.requestIds = [] ∧
      f.finishedIds.count 0 = 2 ∧ 0 ∈ f.retryQ.map (·.id) := by
  obtain ⟨f, hf, hp⟩ := exists_reachable_of_run defaultBuild zeroHash
    [.get (byteKey 1), .getPass .keep]
    (fun f => f.phase.requestIds.isEmpty && f.finishedIds.count 0 = 2 &&
      (f.retryQ.map (·.id)).contains 0) (by decide +kernel)
  simp only [Bool.and_eq_true, List.isEmpty_iff, decide_eq_true_eq, List.contains_iff_mem] at hp
  exact ⟨f, hf, hp.1.1, hp.1.2, hp.2⟩

end AggreKV.HashKv
