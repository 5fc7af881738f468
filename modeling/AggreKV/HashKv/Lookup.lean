import AggreKV.HashKv.Ownership

/-! # Lookups find what was flushed

    A get of a flushed key, answered from the cold table, re-walks the probe
    sequence of the key and ends at its slot.

    * `coldRun`: the side condition of the runs.
    * `Request.Follows`: the walk of a get, also while it is parked.
    * `Installs`: the steps that give a slot the address of a new value. -/

namespace AggreKV.HashKv

open Probing

variable {cfg : Settings} {hs : Hashing}

/-! ## Section 1: The runs -/

/-- The hot table does not answer, collections relocate mapped slots only, and a get
    loads every page that holds a mapped entry. -/
def coldRun (cfg : Settings) (hs : Hashing) (f : Ftl) (a : Label) : Prop :=
  relocatesMapped cfg hs f a ∧
    ∀ choice r, a = .getPass choice → f.phase = .getting r →
      (r.params = none → (hotLookup cfg f.store r (getLpa cfg r.hParams)).1 = none) ∧
      (f.loadsTpage cfg r = true →
        (∃ lpa, dIdx lpa = dIdx (getLpa cfg r.hParams) ∧ (f.store.cold.memTable lpa).ppa ≠ none) →
        (f.store.cold.cmt (dIdx (getLpa cfg r.hParams))).tPpa ≠ none)

/-- The get requests in flight. -/
def Ftl.gets (f : Ftl) : List Request :=
  (match f.phase with
    | .getting r => [r]
    | _ => []) ++ f.retryQ

/-- The request a pass goes on with or parks. -/
def GetExit.request : GetExit → Option Request
  | .again r => some r
  | .ret _ _ retry => retry

/-- A read keeps the number of its request. -/
theorem dataRead_request {realKeys : Nat → Key} {r r' : Request} {lpa : Nat} {ppa : Option Nat}
    (h : (dataRead realKeys r lpa ppa).request = some r') : r'.id = r.id := by
  unfold dataRead at h
  split at h
  · cases h
  · split at h
    · cases h
    · cases h
      rfl

/-- And so does a whole pass. -/
theorem GetPath.request_id {f : Ftl} {r r' : Request} {choice : Rebalance} {s : Store}
    {ex : GetExit} (h : GetPath cfg f r choice s ex) (hr : ex.request = some r') :
    r'.id = r.id := by
  cases h with
  | exhausted | wbHit | unread => cases hr
  | hotRead => exact dataRead_request hr
  | read s => exact dataRead_request (r := { r with params := none }) hr
  | loaded | neverWritten | evicted | differ =>
    cases hr
    rfl

/-- After a pass, a request in flight is one that was already parked, or the one the
    pass left. -/
theorem mem_gets_afterGet {f : Ftl} {id : Nat} {s : Store} {ex : GetExit} {r : Request}
    (h : r ∈ (f.afterGet id s ex).gets) : r ∈ f.retryQ ∨ ex.request = some r := by
  cases ex with
  | again r' =>
    rcases List.mem_cons.mp h with rfl | h
    · exact Or.inr rfl
    · exact Or.inl h
  | ret rcMax finish retry =>
    rcases List.mem_append.mp (show r ∈ f.retryQ ++ retry.toList from h) with h | h
    · exact Or.inl h
    · exact Or.inr (Option.mem_toList.mp h)

/-- How a step changes the requests in flight. -/
theorem mem_gets_of_step {f f' : Ftl} {a : Label} (h : Step cfg hs f a f') {r : Request}
    (hr : r ∈ f'.gets) :
    r ∈ f.gets ∨ (∃ key, f'.nextId = f.nextId + 1 ∧
        r = ⟨f.nextId, key, makeHashParams hs key, none⟩) ∨
      ∃ choice r₀ s ex, a = .getPass choice ∧ f.phase = .getting r₀ ∧
        GetPath cfg f r₀ choice s ex ∧ ex.request = some r := by
  cases h with
  | get key hp =>
    rcases List.mem_cons.mp hr with rfl | hr
    · exact Or.inr (Or.inl ⟨key, rfl, rfl⟩)
    · exact Or.inl (List.mem_append_right _ hr)
  | resume i r₀ hp hq =>
    refine Or.inl (List.mem_append_right _ ?_)
    rcases List.mem_cons.mp hr with rfl | hr
    · exact List.mem_of_getElem? hq
    · exact List.mem_of_mem_eraseIdx hr
  | getPass choice r₀ s ex hp hd =>
    -- A pass keeps the request, parked or with new parameters, or finishes it.
    rcases mem_gets_afterGet hr with hr | hr
    · exact Or.inl (List.mem_append_right _ hr)
    · exact Or.inr (Or.inr ⟨choice, r₀, s, ex, rfl, hp, .of_pass hd, hr⟩)
  | setFull key bytes hp | setInsert key bytes hp | flush m ssd hp =>
    exact Or.inl (List.mem_append_right _ hr)
  | endAssign m hp | assignEntry m e s fl pga hp | assignPage m ppa s bm wb hp
  | pickRetry i m e hp | pickMaster m e master hp | wbAgain choice m e s e' hp
  | wbParked choice m e s e' hp | wbUpdate choice m e s e' ppa hp
  | wbDirectUpdate choice m e s e' ppa hp =>
    exact Or.inl (List.mem_append_right _ hr)
  | promote page hp | rehashBegin hp | rehashTick hp => exact Or.inl hr

/-- Numbers are given out in order. -/
theorem nextId_le_of_step {f f' : Ftl} {a : Label} (h : Step cfg hs f a f') :
    f.nextId ≤ f'.nextId := by
  cases h with
  | get | setFull | setInsert => exact Nat.le_succ _
  | getPass choice r s ex => cases ex <;> exact Nat.le_refl _
  | _ => exact Nat.le_refl _

def Ftl.issued (f : Ftl) : List Nat := f.inFlight ++ f.finishedIds

/-- A step works on requests that have been issued, or issues the next one. -/
theorem mem_issued_of_step {f f' : Ftl} {a : Label} (h : Step cfg hs f a f') {id : Nat}
    (hid : id ∈ f'.issued) : id ∈ f.issued ∨ id = f.nextId ∧ f'.nextId = f.nextId + 1 := by
  simp only [Ftl.issued, Ftl.inFlight, Ftl.finishedIds, List.mem_append, List.mem_map] at hid ⊢
  cases h with
  | get key hp | setFull key bytes hp | setInsert key bytes hp =>
    simp only [Ftl.insert, Phase.requestIds, List.mem_append, List.mem_cons, hp] at hid ⊢
    grind
  | resume i r hp hq =>
    have hmem : r ∈ f.retryQ := List.mem_of_getElem? hq
    have hsub : ∀ x ∈ f.retryQ.eraseIdx i, x ∈ f.retryQ := fun x hx => List.mem_of_mem_eraseIdx hx
    simp only [Phase.requestIds, List.mem_cons, hp] at hid ⊢
    grind
  -- The request goes on under its number, or its answer does.
  | getPass choice r s ex hp hd =>
    have hreq : ∀ r', ex.request = some r' → r'.id = r.id :=
      fun _ => (GetPath.of_pass hd).request_id
    cases ex with
    | again r' =>
      have hr' := hreq r' rfl
      simp only [Ftl.afterGet, Phase.requestIds, List.mem_cons, hp] at hid ⊢
      grind
    | ret rcMax finish retry =>
      have hr' : ∀ x ∈ retry.toList, x.id = r.id := fun x hx => hreq x (Option.mem_toList.mp hx)
      simp only [Ftl.afterGet, Phase.requestIds, List.mem_cons, List.mem_append, List.mem_map,
        hp] at hid ⊢
      grind
  | flush m ssd hp =>
    simp only [Ftl.insert, Ftl.emptied, Phase.requestIds, List.mem_append, List.mem_cons, hp]
      at hid ⊢
    grind
  | endAssign m hp | assignEntry m e s fl pga hp | assignPage m ppa s bm wb hp
  | pickRetry i m e hp | pickMaster m e master hp | wbAgain choice m e s e' hp
  | wbParked choice m e s e' hp | wbUpdate choice m e s e' ppa hp
  | wbDirectUpdate choice m e s e' ppa hp =>
    simp only [Ftl.endAssign, Ftl.install, Phase.requestIds, hp] at hid ⊢
    exact Or.inl hid
  | promote page hp | rehashBegin hp | rehashTick hp => exact Or.inl hid

/-- The next number is new. -/
theorem issued_lt_nextId {f : Ftl} (h : (machine cfg hs).Reachable f) :
    ∀ id ∈ f.issued, id < f.nextId := by
  refine h.invariant (I := fun f => ∀ id ∈ f.issued, id < f.nextId) (fun f hi id hid => ?_)
    fun f f' a _ ih _ hn id hid => ?_
  · obtain ⟨_, hi⟩ := hi
    obtain ⟨s, -, rfl⟩ := Option.map_eq_some_iff.mp hi
    cases hid
  · rcases mem_issued_of_step (.of_next hn) hid with hid | ⟨rfl, hnext⟩
    · exact Nat.lt_of_lt_of_le (ih id hid) (nextId_le_of_step (Step.of_next hn))
    · rw [hnext]
      exact Nat.lt_succ_self _

/-- A get in flight has been issued. -/
theorem mem_issued_of_mem_gets {f : Ftl} {r : Request} (hr : r ∈ f.gets) : r.id ∈ f.issued := by
  refine List.mem_append_left _ ?_
  rcases List.mem_append.mp hr with hr | hr
  · refine List.mem_append_left _ ?_
    split at hr
    · next r' hp =>
      rw [hp, List.mem_singleton.mp hr]
      exact List.mem_singleton_self _
    · cases hr
  · exact List.mem_append_right _ (List.mem_map_of_mem hr)

/-! ## Section 3: A pass over a get of an owned key -/

/-- The walk of a get of `k` so far. -/
structure Request.Follows (cfg : Settings) (hs : Hashing) (owners : Nat → Option Key) (k : Key)
    (r : Request) : Prop where
  key : r.key = k
  params : r.hParams.Of hs k
  walked : Walked (probeLpa cfg hs) owners k r.hParams.cnt
  notRead : r.params ≠ some .read

/-- A walk stays a walk when more slots get owners. -/
theorem Request.Follows.extends {owners owners' : Nat → Option Key} {k : Key} {r : Request}
    (h : r.Follows cfg hs owners k) (he : Extends owners owners') : r.Follows cfg hs owners' k :=
  ⟨h.key, h.params, h.walked.extends he, h.notRead⟩

/-- A pass over a get of `k`, whose slot is `lpa`: it goes on with the walk, or answers
    from the write buffer, or with the address in the slot. -/
def GetExit.Finds (cfg : Settings) (hs : Hashing) (f : Ftl) (k : Key) (lpa : Nat) (r : Request) :
    GetExit → Prop
  | .again r' => r'.Follows cfg hs f.owners k
  | .ret rcMax finish retry => rcMax = false ∧
      ((finish = [] ∧ ∃ r', retry = some r' ∧ r'.Follows cfg hs f.owners k) ∨
        (retry = none ∧ finish = [.inWriteBuffer] ∧ wbFind k f.wb = true) ∨
        (retry = none ∧ r.hParams.cnt ≤ f.maxTry ∧
          ∃ p, (f.store.cold.memTable lpa).ppa = some p ∧
            finish = [.found r.hParams.cnt lpa p]))

/-- `data_read` at a mapped slot on the walk. -/
theorem dataRead_finds {f : Ftl} {k : Key} {lpa p : Nat} {r : Request} (ho : Owned cfg hs f)
    (hk : f.owners lpa = some k) (hr : r.Follows cfg hs f.owners k) (hn : r.hParams.cnt ≤ f.maxTry)
    (hp : (f.store.cold.memTable (getLpa cfg r.hParams)).ppa = some p) :
    (dataRead f.realKeys { r with params := none } (getLpa cfg r.hParams) (some p)).Finds cfg hs f k
      lpa r := by
  have hown : f.owners (getLpa cfg r.hParams) = some (f.realKeys (getLpa cfg r.hParams)) := by
    refine owners_eq_some.mpr ⟨?_, rfl⟩
    rw [hp]
    exact Option.some_ne_none p
  unfold dataRead
  dsimp only
  split
  · next hkey =>
    have hkey := keycmp_eq_zero.mp hkey
    rw [← hkey, hr.key] at hown
    -- The page read has this key: it is the slot of the key, which has only one.
    have hl := ho.placed.unique hown hk
    refine ⟨rfl, Or.inr (Or.inr ⟨rfl, hn, p, ?_, ?_⟩)⟩
    · rw [← hl]
      exact hp
    · rw [← hl]
  · next hkey =>
    refine ⟨rfl, Or.inl ⟨rfl, _, rfl, hr.key, hr.params, ?_, fun h => by cases h⟩⟩
    -- Another key has the slot, so the search goes on to the next one.
    have hne : f.realKeys (getLpa cfg r.hParams) ≠ k := fun he => hkey (by
      rw [keycmp_eq_zero, hr.key, he])
    rw [hr.params.getLpa] at hown hne
    exact hr.walked.next hown hne

/-- A pass finds the key, moves on, or waits for a page to be loaded. -/
theorem GetPath.finds {f : Ftl} {r : Request} {choice : Rebalance} {s : Store} {ex : GetExit}
    {k : Key} {lpa : Nat} (ho : Owned cfg hs f) (hk : f.owners lpa = some k)
    (hr : r.Follows cfg hs f.owners k) (hp : f.phase = .getting r)
    (hok : coldRun cfg hs f (.getPass choice)) (h : GetPath cfg f r choice s ex) :
    ex.Finds cfg hs f k lpa r := by
  obtain ⟨hhot, hload⟩ := hok.2 choice r rfl hp
  have hm := h.memTable
  obtain ⟨hn, hcase⟩ := ho.placed.walk_cases hk hr.walked
  rw [← hr.params.getLpa] at hcase
  -- The slot under the walk is mapped, by `k` or by another key.
  have hmapped : ∃ k', f.owners (getLpa cfg r.hParams) = some k' := by
    rcases hcase with rfl | ⟨k', hk', _⟩
    · exact ⟨k, hk⟩
    · exact ⟨k', hk'⟩
  obtain ⟨k', hk'⟩ := hmapped
  cases h with
  -- The walk is no longer than `max_try`.
  | exhausted hlt => exact absurd hn (by omega)
  | wbHit hn' hp' hc hw =>
    refine ⟨rfl, Or.inr (Or.inl ⟨rfl, rfl, ?_⟩)⟩
    rw [← hr.key]
    exact hw
  | hotRead s pte hn' hp' hw hh =>
    have hnone := hhot hp'
    rw [hh] at hnone
    cases hnone
  | unread hn' hp' => exact absurd hp' hr.notRead
  | loaded s₁ s hn' hs hl =>
    exact ⟨rfl, Or.inl ⟨rfl, _, rfl, hr.key, hr.params, hr.walked, fun h => by cases h⟩⟩
  | neverWritten s hn' hs hl =>
    obtain ⟨hloads, hc⟩ := hs.loadsTpage hn
    have ht := hload hloads ⟨_, rfl, (owners_eq_some.mp hk').1⟩
    rw [← hc] at ht
    simp [Store.load, ht] at hl
  | evicted s hn' hp' hl =>
    exact ⟨rfl, Or.inl ⟨rfl, _, rfl, hr.key, hr.params, hr.walked, fun h => by cases h⟩⟩
  -- Another fingerprint, so another key: the walk goes on.
  | differ s hn' hs hfp =>
    refine ⟨hr.key, hr.params, ?_, fun h => by cases h⟩
    rw [Cold.getPte, hm] at hfp
    rw [hr.params.2, ho.fp _ _ hk'] at hfp
    rw [hr.params.getLpa] at hk'
    exact hr.walked.next hk' fun he => hfp (by rw [he])
  | read s hn' hs hfp =>
    obtain ⟨p, hpp⟩ := Option.ne_none_iff_exists'.mp (owners_eq_some.mp hk').1
    have hpp' : (s.cold.getPte (getLpa cfg r.hParams)).ppa = some p := by
      rw [Cold.getPte, hm]
      exact hpp
    rw [hpp']
    exact dataRead_finds ho hk hr hn hpp

/-! ## Section 4: Stored keys -/

/-- The key of the set that waits for the flush. -/
def Phase.pendingKey : Phase → Option Key
  | .assigning m => some m.req.key
  | .mapping m => some m.req.key
  | _ => none

/-- A key that has been set is in the buffer, waits for it, or owns a slot. -/
def Stored (f : Ftl) (k : Key) : Prop :=
  (∃ e ∈ f.wb, e.key = k) ∨ f.phase.pendingKey = some k ∨ ∃ lpa, f.owners lpa = some k

/-- The keys of the buffer stay. -/
theorem SameEntries.exists_key {wb wb' : List WbEntry} (h : SameEntries wb wb') {k : Key}
    (hk : ∃ e ∈ wb, e.key = k) : ∃ e ∈ wb', e.key = k := by
  obtain ⟨e, he, rfl⟩ := hk
  obtain ⟨x, hx, hkey, _⟩ := h.symm.exists_mem he
  exact ⟨x, hx, hkey⟩

/-- A flush takes a key out of the buffer only after it got its slot. -/
theorem Stored.step {f f' : Ftl} {a : Label} {k : Key} (h : Stored f k) (ho : Owned cfg hs f)
    (hok : relocatesMapped cfg hs f a) (hn : Ftl.next cfg hs f a = some f') : Stored f' k := by
  have hext := ho.extends hok hn
  have howned : (∃ lpa, f.owners lpa = some k) → Stored f' k := fun ⟨lpa, hl⟩ =>
    Or.inr (Or.inr ⟨lpa, hext _ _ hl⟩)
  have hb := ho.batch
  unfold Stored at h
  cases Step.of_next hn with
  | setFull key bytes hp =>
    rcases h with h | h | h
    · exact Or.inl h
    · rw [hp] at h
      cases h
    · exact howned h
  | setInsert key bytes hp =>
    rcases h with h | h | h
    · exact Or.inl (exists_mem_wbInsert _ _ _ (Or.inr h))
    · rw [hp] at h
      cases h
    · exact howned h
  | endAssign m hp =>
    rw [hp] at h
    exact h.imp_right fun h => h
  | assignEntry m e s fl pga hp =>
    rw [hp] at h
    rcases h with h | h | h
    · exact Or.inl ((SameEntries.setPpa ..).exists_key h)
    · exact Or.inr (Or.inl h)
    · exact howned h
  | assignPage m ppa s bm wb hp hdone hds ha hpl =>
    rw [hp] at h
    rcases h with h | h | h
    · exact Or.inl ((SameEntries.placeEntries hpl).exists_key h)
    · exact Or.inr (Or.inl h)
    · exact howned h
  | flush m ssd hp hc hu hm hr =>
    rw [hp] at h hb
    rcases h with ⟨e, he, hk⟩ | h | h
    -- The buffer is emptied when each of its keys has a slot.
    · rcases Batch.accounted hb e he with ⟨x, hx, _⟩ | ⟨lpa, hl⟩
      · simp [MapUpdate.pending, hc, hm, hr] at hx
      · exact howned ⟨lpa, hk ▸ hl⟩
    · refine Or.inl (exists_mem_wbInsert _ _ _ (Or.inl ?_))
      exact (Option.some.inj h).symm
    · exact howned h
  | getPass choice r s ex hp hd =>
    rcases h with h | h | h
    · cases ex <;> exact Or.inl h
    · rw [hp] at h
      cases h
    · exact howned h
  | get key hp | resume i r hp | promote page hp | rehashBegin hp | rehashTick hp =>
    rcases h with h | h | h
    · exact Or.inl h
    · rw [hp] at h
      cases h
    · exact howned h
  | pickRetry i m e hp | pickMaster m e master hp | wbAgain choice m e s e' hp
  | wbParked choice m e s e' hp | wbUpdate choice m e s e' ppa hp
  | wbDirectUpdate choice m e s e' ppa hp =>
    rw [hp] at h
    rcases h with h | h | h
    · exact Or.inl h
    · exact Or.inr (Or.inl h)
    · exact howned h

/-- It stays stored along a run. -/
theorem Stored.exec {k : Key} : ∀ {as : List Label} {f f' : Ftl}, Stored f k → Owned cfg hs f →
    (machine cfg hs).Along (coldRun cfg hs) f as → (machine cfg hs).exec f as = some f' →
    Stored f' k
  | [], f, f', h, _, _, he => by
      cases he
      exact h
  | a :: as, f, f', h, ho, hal, he => by
      obtain ⟨g, hg, he⟩ := Option.bind_eq_some_iff.mp he
      have hok := hal.1.1
      exact (h.step ho hok hg).exec (ho.step hok hg) (hal.2 g hg) he

/-- A key whose last set has been flushed owns a slot. -/
theorem Stored.owned {f : Ftl} {k : Key} (h : Stored f k) (hp : f.phase = .idle)
    (hk : ∀ e ∈ f.wb, e.key ≠ k) : ∃ lpa, f.owners lpa = some k := by
  rcases h with ⟨e, he, hek⟩ | h | h
  · exact absurd hek (hk e he)
  · rw [hp] at h
    cases h
  · exact h

/-! ## Section 5: The address in a slot -/

def Phase.setId : Phase → Option Nat
  | .assigning m => some m.req.id
  | .mapping m => some m.req.id
  | _ => none

/-- The get `id` looks for `k`, whose slot is `lpa`. -/
structure Sought (cfg : Settings) (hs : Hashing) (f : Ftl) (k : Key) (lpa id : Nat) : Prop where
  owned : f.owners lpa = some k
  issued : id < f.nextId
  noSet : f.phase.setId ≠ some id
  follows : ∀ r ∈ f.gets, r.id = id → r.Follows cfg hs f.owners k
  answers : ∀ o, (id, o) ∈ f.finishQ → o = .inWriteBuffer ∨
    ∃ c p, o = .found c lpa p ∧ c ≤ f.maxTry

/-- A get that goes on still follows its walk. -/
theorem GetExit.Finds.request {f : Ftl} {k : Key} {lpa : Nat} {r r' : Request} {ex : GetExit}
    (h : ex.Finds cfg hs f k lpa r) (hr : ex.request = some r') :
    r'.Follows cfg hs f.owners k := by
  cases ex with
  | again r₀ =>
    cases hr
    exact h
  | ret rcMax finish retry =>
    have hr' : retry = some r' := hr
    rcases h.2 with ⟨-, r₀, h₀, hf⟩ | ⟨hnone, -⟩ | ⟨hnone, -⟩
    · rw [hr', Option.some.injEq] at h₀
      rw [h₀]
      exact hf
    · rw [hnone] at hr'
      cases hr'
    · rw [hnone] at hr'
      cases hr'

/-- `max_try` only grows. -/
theorem maxTry_le_of_step {f f' : Ftl} {a : Label} (h : Step cfg hs f a f') :
    f.maxTry ≤ f'.maxTry := by
  cases h with
  | wbUpdate | wbDirectUpdate => exact Nat.le_max_right _ _
  | getPass choice r s ex => cases ex <;> exact Nat.le_refl _
  | _ => exact Nat.le_refl _

/-- What a step puts on `finish_q`. -/
theorem mem_finishQ_of_step {f f' : Ftl} {a : Label} (h : Step cfg hs f a f') {id : Nat}
    {o : Outcome} (ho : (id, o) ∈ f'.finishQ) :
    (id, o) ∈ f.finishQ ∨ id = f.nextId ∨ f.phase.setId = some id ∨
      ∃ choice r s rcMax finish retry, a = .getPass choice ∧ f.phase = .getting r ∧ r.id = id ∧
        GetPath cfg f r choice s (.ret rcMax finish retry) ∧
        (o ∈ finish ∨ rcMax = true ∧ o = .notFound) := by
  cases h with
  | setInsert key bytes hp =>
    rcases List.mem_append.mp ho with ho | ho
    · exact Or.inl ho
    · cases List.mem_singleton.mp ho
      exact Or.inr (Or.inl rfl)
  | flush m ssd hp =>
    rcases List.mem_append.mp ho with ho | ho
    · exact Or.inl ho
    · cases List.mem_singleton.mp ho
      refine Or.inr (Or.inr (Or.inl ?_))
      rw [hp]
      rfl
  | getPass choice r s ex hp hd =>
    -- A pass that parks finishes nothing.
    cases ex with
    | again r' => exact Or.inl ho
    | ret rcMax finish retry =>
      rcases List.mem_append.mp ho with ho | ho
      · exact Or.inl ho
      · obtain ⟨x, hx, he⟩ := List.mem_map.mp ho
        cases he
        refine Or.inr (Or.inr (Or.inr ⟨choice, r, s, rcMax, finish, retry, rfl, hp, rfl,
          .of_pass hd, ?_⟩))
        cases rcMax with
        | false => exact Or.inl hx
        | true =>
          refine (List.mem_append.mp hx).imp_right fun hx => ⟨rfl, ?_⟩
          exact List.mem_singleton.mp hx
  | _ => exact Or.inl ho

/-- A set in flight was there before, or is new. -/
theorem setId_of_step {f f' : Ftl} {a : Label} (h : Step cfg hs f a f') {id : Nat}
    (hid : f'.phase.setId = some id) : f.phase.setId = some id ∨ id = f.nextId := by
  cases h with
  | setFull key bytes hp =>
    cases hid
    exact Or.inr rfl
  | getPass choice r s ex => cases ex <;> cases hid
  | get | resume | setInsert | flush => cases hid
  | promote page hp | rehashBegin hp | rehashTick hp => exact Or.inl hid
  | endAssign m hp | assignEntry m e s fl pga hp | assignPage m ppa s bm wb hp
  | pickRetry i m e hp | pickMaster m e master hp | wbAgain choice m e s e' hp
  | wbParked choice m e s e' hp | wbUpdate choice m e s e' ppa hp
  | wbDirectUpdate choice m e s e' ppa hp =>
    rw [hp]
    exact Or.inl hid

/-- A get stays on its way to the slot, whatever step is taken. -/
theorem Sought.step {f f' : Ftl} {a : Label} {k : Key} {lpa id : Nat}
    (h : Sought cfg hs f k lpa id) (ho : Owned cfg hs f) (hok : coldRun cfg hs f a)
    (hn : Ftl.next cfg hs f a = some f') : Sought cfg hs f' k lpa id := by
  have hstep := Step.of_next hn
  have hext := ho.extends hok.1 hn
  have hfinds : ∀ {choice r s ex}, a = .getPass choice → f.phase = .getting r → r.id = id →
      GetPath cfg f r choice s ex → ex.Finds cfg hs f k lpa r := fun ha hp hid hg => by
    subst ha
    exact hg.finds ho h.owned (h.follows _ (by simp [Ftl.gets, hp]) hid) hp hok
  refine ⟨hext _ _ h.owned, Nat.lt_of_lt_of_le h.issued (nextId_le_of_step hstep), fun hid => ?_,
    fun r hr hid => ?_, fun o hq => ?_⟩
  · rcases setId_of_step hstep hid with hid | hid
    · exact h.noSet hid
    · exact absurd h.issued (by omega)
  -- The get is untouched, or it is the one that is passed over.
  · rcases mem_gets_of_step hstep hr with hr | ⟨key, _, rfl⟩ | ⟨choice, r₀, s, ex, ha, hp, hg, hx⟩
    · exact (h.follows r hr hid).extends hext
    · exact absurd h.issued (by rw [← hid]; exact Nat.lt_irrefl _)
    · have hid₀ : r₀.id = id := (hg.request_id hx).symm.trans hid
      exact ((hfinds ha hp hid₀ hg).request hx).extends hext
  · rcases mem_finishQ_of_step hstep hq with hq | hid | hid |
      ⟨choice, r, s, rcMax, finish, retry, ha, hp, hid, hg, ho'⟩
    · refine (h.answers o hq).imp_right fun ⟨c, p, he, hc⟩ => ⟨c, p, he, ?_⟩
      exact Nat.le_trans hc (maxTry_le_of_step hstep)
    · exact absurd h.issued (by omega)
    · exact absurd hid h.noSet
    · obtain ⟨hrc, hcase⟩ := hfinds ha hp hid hg
      have hmem : o ∈ finish := by
        rcases ho' with ho' | ⟨hrc', _⟩
        · exact ho'
        · rw [hrc] at hrc'
          cases hrc'
      rcases hcase with ⟨rfl, _⟩ | ⟨_, rfl, _⟩ | ⟨_, hle, p, _, rfl⟩
      · cases hmem
      · exact Or.inl (List.mem_singleton.mp hmem)
      · refine Or.inr ⟨r.hParams.cnt, p, List.mem_singleton.mp hmem, ?_⟩
        exact Nat.le_trans hle (maxTry_le_of_step hstep)

/-- And along a whole run. -/
theorem Sought.exec {k : Key} {lpa id : Nat} : ∀ {as : List Label} {f f' : Ftl},
    Sought cfg hs f k lpa id → Owned cfg hs f → (machine cfg hs).Along (coldRun cfg hs) f as →
    (machine cfg hs).exec f as = some f' → Sought cfg hs f' k lpa id
  | [], f, f', h, _, _, he => by
      cases he
      exact h
  | a :: as, f, f', h, ho, hal, he => by
      obtain ⟨g, hg, he⟩ := Option.bind_eq_some_iff.mp he
      exact (h.step ho hal.1 hg).exec (ho.step hal.1.1 hg) (hal.2 g hg) he

/-- A new get of an owned key. -/
theorem Sought.get {f f' : Ftl} (h : (machine cfg hs).Reachable f) {k : Key} {lpa : Nat}
    (hk : f.owners lpa = some k) (hn : Step cfg hs f (.get k) f') :
    Sought cfg hs f' k lpa f.nextId := by
  have hlt := issued_lt_nextId h
  cases hn with
  | get _ hp =>
    refine ⟨hk, Nat.lt_succ_self _, (fun hid => by cases hid),
      fun r hr hid => ?_, fun o ho => ?_⟩
    · rcases List.mem_cons.mp hr with rfl | hr
      · exact ⟨rfl, makeHashParams_of hs k, .zero _ _ _, fun h => by cases h⟩
      · have := hlt r.id (mem_issued_of_mem_gets (List.mem_append_right _ hr))
        omega
    · have hmem : f.nextId ∈ f.issued :=
        List.mem_append_right _ (List.mem_map_of_mem (f := Prod.fst) ho)
      exact absurd (hlt _ hmem) (Nat.lt_irrefl _)

/-- On the walk of an owned key no page is without flash copy. -/
theorem loadBacked_of_follows {f : Ftl} {k : Key} {lpa : Nat} {r : Request}
    {choice : Rebalance} (ho : Owned cfg hs f) (hk : f.owners lpa = some k)
    (hr : r.Follows cfg hs f.owners k) (hp : f.phase = .getting r)
    (hok : coldRun cfg hs f (.getPass choice)) : loadBacked cfg f (.getPass choice) = true := by
  obtain ⟨-, hload⟩ := hok.2 choice r rfl hp
  obtain ⟨-, hcase⟩ := ho.placed.walk_cases hk hr.walked
  rw [← hr.params.getLpa] at hcase
  have hmapped : (f.store.cold.memTable (getLpa cfg r.hParams)).ppa ≠ none := by
    rcases hcase with rfl | ⟨k', hk', _⟩
    · exact (owners_eq_some.mp hk).1
    · exact (owners_eq_some.mp hk').1
  simp only [loadBacked, hp, Bool.or_eq_true, Bool.not_eq_true']
  by_cases hl : f.loadsTpage cfg r = true
  · exact Or.inr (Option.isSome_iff_ne_none.mpr (hload hl ⟨_, rfl, hmapped⟩))
  · exact Or.inl (Bool.eq_false_iff.mpr hl)

/-- The end of a pass over the get. -/
theorem Sought.pass {f f' : Ftl} {a : Label} {k : Key} {lpa : Nat} {r : Request}
    (h : Sought cfg hs f k lpa r.id) (ho : Owned cfg hs f) (hb : TryBounded f)
    (hok : coldRun cfg hs f a) (hn : Ftl.next cfg hs f a = some f') (hp : f.phase = .getting r) :
    (f'.finishQ = f.finishQ ∧ ∃ r', (f'.phase = .getting r' ∨ f'.phase = .idle ∧ r' ∈ f'.retryQ) ∧
        r'.id = r.id ∧ variant r' < variant r) ∨
      (wbFind k f.wb = true ∧ f'.finishQ = f.finishQ ++ [(r.id, .inWriteBuffer)]) ∨
      (r.hParams.cnt ≤ f.maxTry ∧ ∃ p, (f.store.cold.memTable lpa).ppa = some p ∧
        f'.finishQ = f.finishQ ++ [(r.id, .found r.hParams.cnt lpa p)]) := by
  have hfollows := h.follows r (by simp [Ftl.gets, hp]) rfl
  cases Step.of_next hn with
  | getPass choice r' s ex hp' hd =>
    rw [hp] at hp'
    cases hp'
    have hg := GetPath.of_pass hd
    have hsingle := hg.single hb hp (loadBacked_of_follows ho h.owned hfollows hp hok)
    have hfinds := hg.finds ho h.owned hfollows hp hok
    cases ex with
    | again r' => exact Or.inl ⟨rfl, r', Or.inl rfl, hsingle⟩
    | ret rcMax finish retry =>
      obtain ⟨rfl, ⟨rfl, r', rfl, -⟩ | ⟨rfl, rfl, hw⟩ | ⟨rfl, hn', q, hq, rfl⟩⟩ := hfinds
      · refine Or.inl ⟨List.append_nil _, r', Or.inr ⟨rfl, by simp [Ftl.afterGet]⟩, ?_⟩
        exact hsingle.2 r' rfl
      -- Answered by the write buffer.
      · exact Or.inr (Or.inl ⟨hw, rfl⟩)
      · exact Or.inr (Or.inr ⟨hn', q, hq, rfl⟩)
  | get key hp' | resume i r' hp' | setFull key bytes hp' | setInsert key bytes hp'
  | endAssign m hp' | assignEntry m e s fl pga hp' | assignPage m ppa s bm wb hp'
  | pickRetry i m e hp' | pickMaster m e master hp' | wbAgain choice m e s e' hp'
  | wbParked choice m e s e' hp' | wbUpdate choice m e s e' ppa hp'
  | wbDirectUpdate choice m e s e' ppa hp' | flush m ssd hp' | promote page hp'
  | rehashBegin hp' | rehashTick hp' =>
    rw [hp] at hp'
    cases hp'

end AggreKV.HashKv
