import AggreKV.BlockSsd.Collect

/-! # The batch of a flush

    What the store, the mapping table and the write buffer agree on while a
    flush assigns pages and installs its entries one by one.

    * `Core pend`: the invariant; `pend` are the entries whose mapping is not
      updated yet.
    * `Ftl.PhaseOk`: what holds at each phase of a flush.
    * `batchSafe`: the condition under which the steps of a flush keep both. -/

namespace AggreKV.BlockSsd

open HashKv (Jump FlushNode Pte dIdx flushAppend)

variable {cfg : Settings} {fp : Key → UInt32}

/-! ## Section 1: Canonical keys -/

/-- The decimal string of the block number it is read as. -/
def Canonical (k : Key) : Prop := IsBlockKey k (getLpa k)

instance (k : Key) : Decidable (Canonical k) := inferInstanceAs (Decidable (IsBlockKey _ _))

theorem Settings.nrValidTentries_le (cfg : Settings) : cfg.nrValidTentries ≤ 2 ^ 32 := cfg.slots_fit

/-- The canonical keys of the mapping table are the strings of its block numbers. -/
theorem canonical_iff {k : Key} (hk : getLpa k < cfg.nrValidTentries) :
    Canonical k ↔ ∃ n < cfg.nrValidTentries, IsBlockKey k n := by
  constructor
  · intro h
    exact ⟨getLpa k, hk, h⟩
  · rintro ⟨n, hn, h⟩
    have hget : getLpa k = n := h.getLpa (Nat.lt_of_lt_of_le hn cfg.nrValidTentries_le)
    rw [Canonical, hget]
    exact h

/-- A block number has one key. -/
theorem IsBlockKey.inj {a b : Key} {n : Nat} (ha : IsBlockKey a n) (hb : IsBlockKey b n) :
    a = b := by
  have hbytes : a.bytes = b.bytes := Eq.trans ha hb.symm
  cases a
  cases b
  cases hbytes
  rfl

/-- Two canonical keys with the same slot are the same key. -/
theorem Canonical.inj {a b : Key} (ha : Canonical a) (hb : Canonical b)
    (h : getLpa a = getLpa b) : a = b := by
  have ha' : IsBlockKey a (getLpa b) := h ▸ ha
  exact ha'.inj hb

/-! ## Section 2: The write buffer -/

/-- The skiplist is in key order. -/
def WbSorted (wb : List WbEntry) : Prop := wb.Pairwise fun a b => keycmp a.key b.key < 0

/-- The buffer holds a key once. -/
theorem WbSorted.keys_nodup {wb : List WbEntry} (h : WbSorted wb) : (wb.map (·.key)).Nodup := by
  have hs : KeySorted WbEntry.key (fun a b => keycmp a b < 0) wb := h
  exact hs.keys_nodup

/-- An entry of the new write buffer carries the inserted set or another key. -/
theorem WbSorted.mem_insert {key : Key} {value : Nat} {hp : HashParams} {wb : List WbEntry}
    (h : WbSorted wb) {e : WbEntry} (he : e ∈ wbInsert key value hp wb) :
    (e.key = key ∧ e.value = value ∧ e.hParams = hp ∧
        ((∀ x ∈ wb, x.ppa = none ∧ x.params = none) → e.ppa = none ∧ e.params = none)) ∨
      e ∈ wb ∧ e.key ≠ key := by
  have hs : KeySorted WbEntry.key (fun a b => keycmp a b < 0) wb := h
  rw [wbInsert_eq] at he
  rcases hs.mem_sortedInsert he with hold | rfl | ⟨x, hx, hk, rfl⟩
  · exact Or.inr hold
  · exact Or.inl ⟨rfl, rfl, rfl, fun _ => ⟨rfl, rfl⟩⟩
  · exact Or.inl ⟨hk, rfl, rfl, fun hall => hall x hx⟩

theorem exists_mem_wbInsert (key : Key) (value : Nat) (hp : HashParams) {k : Key}
    {wb : List WbEntry} (h : k = key ∨ ∃ e ∈ wb, e.key = k) :
    ∃ e ∈ wbInsert key value hp wb, e.key = k := by
  rw [wbInsert_eq]
  apply exists_mem_sortedInsert
  · rfl
  · intro _
    rfl
  · exact h

/-- An insertion keeps the order of the keys. -/
theorem WbSorted.insert {key : Key} {value : Nat} {hp : HashParams} {wb : List WbEntry}
    (h : WbSorted wb) : WbSorted (wbInsert key value hp wb) := by
  have hs : KeySorted WbEntry.key (fun a b => keycmp a b < 0) wb := h
  rw [wbInsert_eq]
  exact hs.sortedInsert rfl fun _ => rfl

/-- So does the assignment of a page. -/
theorem WbSorted.setPpa {wb : List WbEntry} (h : WbSorted wb) (key : Key) (ppa : Nat) :
    WbSorted (wbSetPpa wb key ppa) := by
  refine List.pairwise_map.mpr (h.imp fun {x y} hlt => ?_)
  have hkey : ∀ z : WbEntry, (if z.key = key then { z with ppa := some ppa } else z).key = z.key :=
    fun z => by
      split
      · rfl
      · rfl
  rw [hkey, hkey]
  exact hlt

/-! ## Section 3: The invariant -/

/-- The logical slots of entries. -/
def slotsOf (es : List WbEntry) : List Nat := es.map fun e => getLpa e.key

theorem mem_slotsOf {es : List WbEntry} {l : Nat} : l ∈ slotsOf es ↔ ∃ e ∈ es, getLpa e.key = l :=
  List.mem_map

/-- The pages assigned to entries. -/
def pagesOf (es : List WbEntry) (p : Nat) : Prop := ∃ e ∈ es, e.ppa = some p

/-- What may wait in a retry queue. -/
def Resumable (params : Option Jump) : Prop :=
  params = none ∨ params = some .list ∨ params = some .complete

structure Core (cfg : Settings) (fp : Key → UInt32) (pend : List WbEntry) (f : Ftl) : Prop where
  map : MapSide cfg f.store
  data : DataOk cfg (pagesOf pend) f.store
  slots : ∀ l, (f.store.cold.memTable l).ppa.isSome = true →
    IsBlockKey (f.realKeys l) l ∧ (f.store.cold.memTable l).keyFp = fp (f.realKeys l)
  value : ∀ l, (f.store.cold.memTable l).ppa.bind f.store.content =
    if l ∈ slotsOf pend then f.flushed l else f.lastSet l
  last : ∀ e ∈ f.wb, f.lastSet (getLpa e.key) = some e.value
  settled : ∀ l, l ∉ slotsOf f.wb → f.flushed l = f.lastSet l
  sorted : WbSorted f.wb
  fresh : ∀ e ∈ f.wb, e.hParams = makeHashParams fp e.key ∧ e.params = none
  pages : ∀ a ∈ f.wb, ∀ b ∈ f.wb, ∀ p, a.ppa = some p → b.ppa = some p → a.key = b.key
  content : ∀ e ∈ f.wb, ∀ p, e.ppa = some p → f.store.content p = some e.value
  maxTry : f.maxTry = 0
  retryQ : ∀ r ∈ f.retryQ, r.hParams = makeHashParams fp r.key ∧ Resumable r.params

/-- The entries whose mapping is not updated yet. -/
def Ftl.pending (f : Ftl) : List WbEntry :=
  match f.phase with
  | .mapping m => m.pending
  | _ => f.wb

/-- No flush is in progress. -/
structure Ftl.Unassigned (f : Ftl) : Prop where
  ppa : ∀ e ∈ f.wb, e.ppa = none
  table : ∀ i, f.hashTable i = []

/-- The request that is being processed has failed only if its slot was never written. -/
structure GettingOk (fp : Key → UInt32) (f : Ftl) (r : Request) : Prop where
  unassigned : f.Unassigned
  keyFp : r.hParams.keyFp = fp r.key
  params : Resumable r.params
  cnt : r.hParams.cnt = 0 ∨ (f.store.cold.memTable (getLpa r.key)).ppa = none

structure AssigningOk (cfg : Settings) (f : Ftl) (m : Assign) : Prop where
  full : f.wb.length = cfg.maxWriteBuf
  table : ∀ i, f.hashTable i = []
  assigned : ∀ e ∈ f.wb, e.ppa.isSome = true ∨ e.key ∈ m.bucket.map (·.key)
  nodup : (m.bucket.map (·.key)).Nodup
  bucket : ∀ b ∈ m.bucket, ∃ e ∈ f.wb, e.key = b.key ∧ e.value = b.value ∧ e.ppa = none

structure MappingOk (cfg : Settings) (fp : Key → UInt32) (f : Ftl) (m : MapUpdate) : Prop where
  full : f.wb.length = cfg.maxWriteBuf
  assigned : ∀ e ∈ f.wb, e.ppa.isSome = true
  pend : ∀ x ∈ m.pending, (∃ e ∈ f.wb, x.SameValue e) ∧ x.hParams = makeHashParams fp x.key ∧
    Resumable x.params
  nodup : (m.pending.map (·.key)).Nodup
  count : m.updated + m.pending.length = cfg.maxWriteBuf
  installed : ∀ e ∈ f.wb, e.key ∉ m.pending.map (·.key) →
    (f.store.cold.memTable (getLpa e.key)).ppa = e.ppa ∧ f.realKeys (getLpa e.key) = e.key
  table : ∀ i, ∀ l ∈ f.hashTable i, l ∉ slotsOf m.pending

def Ftl.PhaseOk (cfg : Settings) (fp : Key → UInt32) (f : Ftl) : Prop :=
  match f.phase with
  | .idle => f.Unassigned
  | .getting r => GettingOk fp f r
  | .assigning m => AssigningOk cfg f m
  | .mapping m => MappingOk cfg fp f m

structure Durable (cfg : Settings) (fp : Key → UInt32) (f : Ftl) : Prop where
  keys : f.Keys Canonical
  core : Core cfg fp f.pending f
  phase : f.PhaseOk cfg fp

theorem DataOk.congr {B B' : Nat → Prop} {s : Store} (h : DataOk cfg B s) (hB : ∀ p, B' p ↔ B p) :
    DataOk cfg B' s := by
  have he : B' = B := funext fun p => propext (hB p)
  rw [he]
  exact h

/-- `Core` depends on the pending entries up to their order and their retry state. -/
theorem Core.congr_pend {pend pend' : List WbEntry} {f : Ftl} (h : Core cfg fp pend f)
    (hp : ∀ p, pagesOf pend' p ↔ pagesOf pend p) (hl : ∀ l, l ∈ slotsOf pend' ↔ l ∈ slotsOf pend) :
    Core cfg fp pend' f :=
  { h with
    data := h.data.congr hp
    value := fun l => by simp only [h.value l, hl l] }

/-- The store has changed on the map side only. -/
theorem Core.sameData {pend : List WbEntry} {f f' : Ftl} (h : Core cfg fp pend f)
    (hm : MapSide cfg f'.store) (hs : SameData cfg f.store f'.store)
    (hreal : f'.realKeys = f.realKeys)
    (hwb : f'.wb = f.wb) (hlast : f'.lastSet = f.lastSet) (hfl : f'.flushed = f.flushed)
    (hmax : f'.maxTry = f.maxTry)
    (hq : ∀ r ∈ f'.retryQ, r.hParams = makeHashParams fp r.key ∧ Resumable r.params) :
    Core cfg fp pend f' where
  map := hm
  data := h.data.sameData hs
  slots l := by
    rw [hs.memTable, hreal]
    exact h.slots l
  value l := by
    rw [hs.memTable, hs.content, hfl, hlast]
    exact h.value l
  last := by
    rw [hwb, hlast]
    exact h.last
  settled := by
    rw [hwb, hfl, hlast]
    exact h.settled
  sorted := hwb ▸ h.sorted
  fresh := hwb ▸ h.fresh
  pages := hwb ▸ h.pages
  content := by
    rw [hwb, hs.content]
    exact h.content
  maxTry := hmax.trans h.maxTry
  retryQ := hq

/-! ## Section 4: Sets -/

/-- Entries without a page own none. -/
theorem pagesOf_unassigned {es : List WbEntry} (h : ∀ e ∈ es, e.ppa = none) (p : Nat) :
    ¬pagesOf es p := by
  rintro ⟨e, he, hp⟩
  rw [h e he] at hp
  cases hp

/-- A set is inserted while no flush is in progress. -/
theorem Core.insert {f : Ftl} (h : Core cfg fp f.wb f) (hun : f.Unassigned)
    (hkeys : ∀ e ∈ f.wb, Canonical e.key) {req : SetRequest} (hreq : Canonical req.key) :
    Core cfg fp (f.insert fp req).wb (f.insert fp req) ∧ (f.insert fp req).Unassigned := by
  have hwb : (f.insert fp req).wb = wbInsert req.key req.id (makeHashParams fp req.key) f.wb := rfl
  have hnone : ∀ e ∈ (f.insert fp req).wb, e.ppa = none ∧ e.params = none := fun e he => by
    have hall : ∀ x ∈ f.wb, x.ppa = none ∧ x.params = none := fun x hx =>
      ⟨hun.ppa x hx, (h.fresh x hx).2⟩
    rcases h.sorted.mem_insert he with ⟨_, _, _, hn⟩ | ⟨hmem, _⟩
    · exact hn hall
    · exact hall e hmem
  have hppa : ∀ e ∈ (f.insert fp req).wb, e.ppa = none := fun e he => (hnone e he).1
  -- The slots of the buffer are the old ones and that of the new set.
  have hslots : ∀ l, l ∈ slotsOf (f.insert fp req).wb ↔ l = getLpa req.key ∨ l ∈ slotsOf f.wb := by
    intro l
    rw [mem_slotsOf, mem_slotsOf]
    constructor
    · rintro ⟨e, he, rfl⟩
      rcases h.sorted.mem_insert he with ⟨hk, _⟩ | ⟨hmem, _⟩
      · exact Or.inl (by rw [hk])
      · exact Or.inr ⟨e, hmem, rfl⟩
    · intro hl
      have hk : ∃ k : Key, getLpa k = l ∧ (k = req.key ∨ ∃ e ∈ f.wb, e.key = k) := by
        rcases hl with rfl | ⟨e, he, rfl⟩
        · exact ⟨req.key, rfl, Or.inl rfl⟩
        · exact ⟨e.key, rfl, Or.inr ⟨e, he, rfl⟩⟩
      obtain ⟨k, rfl, hk⟩ := hk
      obtain ⟨e, he, rfl⟩ := exists_mem_wbInsert req.key req.id (makeHashParams fp req.key) hk
      exact ⟨e, he, rfl⟩
  have hlast : ∀ l, (f.insert fp req).lastSet l =
      if l = getLpa req.key then some req.id else f.lastSet l := fun l => Function.update_apply ..
  refine ⟨⟨h.map, h.data.congr fun p => ?_, h.slots, fun l => ?_, fun e he => ?_, fun l hl => ?_,
    hwb ▸ h.sorted.insert, fun e he => ?_, fun a ha _ _ p hp _ => ?_, fun e he p hp => ?_, h.maxTry,
    h.retryQ⟩, hppa, hun.table⟩
  · exact iff_of_false (pagesOf_unassigned hppa p) (pagesOf_unassigned hun.ppa p)
  -- The slot of the new set shows the flushed value until the batch is installed.
  · refine (h.value l).trans ?_
    show _ = if l ∈ slotsOf (f.insert fp req).wb then f.flushed l else (f.insert fp req).lastSet l
    by_cases hl : l = getLpa req.key
    · rw [if_pos ((hslots l).mpr (Or.inl hl))]
      split
      · rfl
      · next hout => exact (h.settled l hout).symm
    · simp only [hslots, hl, false_or, hlast, if_false]
  · rw [hlast]
    rcases h.sorted.mem_insert he with ⟨hk, hv, _⟩ | ⟨hmem, hne⟩
    · rw [if_pos (by rw [hk]), hv]
    -- Another entry has another slot, since both keys are canonical.
    · rw [if_neg fun hl => hne ((hkeys e hmem).inj hreq hl)]
      exact h.last e hmem
  · rw [hslots, not_or] at hl
    rw [hlast, if_neg hl.1]
    exact h.settled l hl.2
  · refine ⟨?_, (hnone e he).2⟩
    rcases h.sorted.mem_insert he with ⟨hk, _, hh, _⟩ | ⟨hmem, _⟩
    · rw [hh, hk]
    · exact (h.fresh e hmem).1
  · rw [hppa a ha] at hp
    cases hp
  · rw [hppa e he] at hp
    cases hp

/-- The write buffer after a page has been assigned to the entry with key `key`. -/
theorem exists_mem_setPpa {wb : List WbEntry} {key : Key} {ppa : Nat} {e : WbEntry}
    (h : e ∈ wbSetPpa wb key ppa) : ∃ x ∈ wb, e.key = x.key ∧ e.value = x.value ∧
      e.hParams = x.hParams ∧ e.params = x.params ∧
      (e.key = key ∧ e.ppa = some ppa ∨ e.key ≠ key ∧ e = x) := by
  obtain ⟨x, hx, rfl⟩ := mem_wbSetPpa h
  refine ⟨x, hx, ?_⟩
  by_cases hk : x.key = key
  · rw [if_pos hk]
    exact ⟨rfl, rfl, rfl, rfl, Or.inl ⟨hk, rfl⟩⟩
  · rw [if_neg hk]
    exact ⟨rfl, rfl, rfl, rfl, Or.inr ⟨hk, rfl⟩⟩

theorem slotsOf_setPpa (wb : List WbEntry) (key : Key) (ppa : Nat) :
    slotsOf (wbSetPpa wb key ppa) = slotsOf wb := by
  unfold slotsOf wbSetPpa
  rw [List.map_map]
  refine List.map_congr_left fun e _ => ?_
  simp only [Function.comp_apply]
  split
  · rfl
  · rfl

theorem mem_setPpa_of_ne {wb : List WbEntry} {key : Key} {ppa : Nat} {e : WbEntry} (h : e ∈ wb)
    (hne : e.key ≠ key) : e ∈ wbSetPpa wb key ppa :=
  List.mem_map.mpr ⟨e, h, if_neg hne⟩

/-- A page is assigned to the next entry of the bucket. -/
theorem Core.assign {f f' : Ftl} {m : Assign} {e : WbEntry} {bucket : List WbEntry} {ppa : Nat}
    {s : Store} (h : Core cfg fp f.wb f) (hp : AssigningOk cfg f m) (hb : m.bucket = e :: bucket)
    (hsafe : ∀ it ∈ f.store.gcItems cfg, ¬pagesOf f.wb it.src)
    (ha : assignEntry cfg f.store e = some (ppa, s)) (hstore : f'.store = s)
    (hwb : f'.wb = wbSetPpa f.wb e.key ppa) (hreal : f'.realKeys = f.realKeys)
    (hlast : f'.lastSet = f.lastSet) (hfl : f'.flushed = f.flushed) (hmax : f'.maxTry = f.maxTry)
    (hq : f'.retryQ = f.retryQ) (htable : f'.hashTable = f.hashTable) (req : SetRequest)
    (last : Option Nat) : Core cfg fp f'.wb f' ∧ AssigningOk cfg f' ⟨req, bucket, last⟩ := by
  obtain ⟨hd, hm, hsame, hnew, hcontent⟩ := h.data.assignEntry h.map hsafe ha
  obtain ⟨x, hx, hxk, hxv, hxn⟩ := hp.bucket e (hb ▸ List.mem_cons_self)
  have hnodup := hp.nodup
  rw [hb, List.map_cons, List.nodup_cons] at hnodup
  have hslots : slotsOf f'.wb = slotsOf f.wb := by rw [hwb, slotsOf_setPpa]
  -- The assigned pages are the old ones and the new one.
  have hpages : ∀ p, pagesOf f'.wb p ↔ pagesOf f.wb p ∨ p = ppa := fun p => by
    rw [hwb]
    constructor
    · rintro ⟨y, hy, hyp⟩
      obtain ⟨z, hz, _, _, _, _, ⟨_, hzp⟩ | ⟨_, rfl⟩⟩ := exists_mem_setPpa hy
      · rw [hzp] at hyp
        exact Or.inr (Option.some.inj hyp).symm
      · exact Or.inl ⟨y, hz, hyp⟩
    · rintro (⟨y, hy, hyp⟩ | rfl)
      · refine ⟨y, mem_setPpa_of_ne hy fun hk => ?_, hyp⟩
        have hyx : y = x := List.inj_on_of_nodup_map h.sorted.keys_nodup hy hx (hk.trans hxk.symm)
        rw [hyx, hxn] at hyp
        cases hyp
      · exact ⟨{ x with ppa := some p }, List.mem_map.mpr ⟨x, hx, if_pos hxk⟩, rfl⟩
  refine ⟨⟨hstore ▸ hm, ?_, fun l => ?_, fun l => ?_, fun y hy => ?_, fun l => ?_, ?_,
      fun y hy => ?_, fun a ha' b hb' p hap hbp => ?_, fun y hy p hyp => ?_,
      hmax.trans h.maxTry, hq ▸ h.retryQ⟩,
    ⟨?_, ?_, fun y hy => ?_, hnodup.2, fun b hb' => ?_⟩⟩
  · rw [hstore]
    exact hd.congr hpages
  · rw [hstore, hsame.mapped, hsame.keyFp, hreal]
    exact h.slots l
  · rw [hstore, hsame.value, hslots, hfl, hlast]
    exact h.value l
  · rw [hwb] at hy
    obtain ⟨z, hz, hk, hv, _⟩ := exists_mem_setPpa hy
    rw [hlast, hk, hv]
    exact h.last z hz
  · rw [hslots, hfl, hlast]
    exact h.settled l
  · rw [hwb]
    exact h.sorted.setPpa e.key ppa
  · rw [hwb] at hy
    obtain ⟨z, hz, hk, _, hh, hpar, _⟩ := exists_mem_setPpa hy
    rw [hh, hpar, hk]
    exact h.fresh z hz
  · rw [hwb] at ha' hb'
    obtain ⟨y, hy, hyk, _, _, _, hya⟩ := exists_mem_setPpa ha'
    obtain ⟨z, hz, hzk, _, _, _, hzb⟩ := exists_mem_setPpa hb'
    -- The new page belongs to no entry that had a page.
    have hold : ∀ w ∈ f.wb, w.ppa ≠ some ppa := fun w hw hwp => hnew ⟨w, hw, hwp⟩
    rcases hya with ⟨hak, hap'⟩ | ⟨hak, rfl⟩
    · rw [hap] at hap'
      cases hap'
      rcases hzb with ⟨hbk, _⟩ | ⟨_, rfl⟩
      · rw [hak, hbk]
      · exact absurd hbp (hold b hz)
    · rcases hzb with ⟨_, hbp'⟩ | ⟨_, rfl⟩
      · rw [hbp] at hbp'
        cases hbp'
        exact absurd hap (hold a hy)
      · exact h.pages a hy b hz p hap hbp
  · rw [hwb] at hy
    obtain ⟨z, hz, hk, hv, _, _, ⟨hye, hyp'⟩ | ⟨_, rfl⟩⟩ := exists_mem_setPpa hy
    -- The new page holds the value of the entry it was taken for.
    · rw [hyp'] at hyp
      cases hyp
      have hzx : z = x := List.inj_on_of_nodup_map h.sorted.keys_nodup hz hx
        (hk.symm.trans (hye.trans hxk.symm))
      rw [hstore, hcontent, hv, hzx, hxv]
    · rw [hstore, hsame.content p ⟨y, hz, hyp⟩]
      exact h.content y hz p hyp
  · rw [hwb, wbSetPpa, List.length_map]
    exact hp.full
  · rw [htable]
    exact hp.table
  · rw [hwb] at hy
    obtain ⟨z, hz, hk, _, _, _, ⟨_, hyp⟩ | ⟨hne, rfl⟩⟩ := exists_mem_setPpa hy
    · exact Or.inl (by rw [hyp]; rfl)
    · refine (hp.assigned y hz).imp_right fun hmem => ?_
      rw [hb, List.map_cons, List.mem_cons] at hmem
      exact hmem.resolve_left hne
  · obtain ⟨y, hy, hyk, hyv, hyn⟩ := hp.bucket b (hb ▸ List.mem_cons_of_mem _ hb')
    refine ⟨y, ?_, hyk, hyv, hyn⟩
    rw [hwb]
    -- The rest of the bucket has other keys and stays without a page.
    refine mem_setPpa_of_ne hy fun hk => hnodup.1 ?_
    rw [← hk, hyk]
    exact List.mem_map_of_mem hb'

/-! ## Section 5: The mapping update -/

/-- A step of the mapping update that keeps the pending entries up to their order and
    their retry state. -/
theorem MappingOk.rearrange {f f' : Ftl} {m m' : MapUpdate} (h : MappingOk cfg fp f m)
    (hs : SameData cfg f.store f'.store) (hwb : f'.wb = f.wb) (hreal : f'.realKeys = f.realKeys)
    (htable : f'.hashTable = f.hashTable) (hup : m'.updated = m.updated)
    (hkeys : (m'.pending.map (·.key)).Perm (m.pending.map (·.key)))
    (hpend : ∀ x ∈ m'.pending, ∃ y ∈ m.pending, x.SameValue y ∧ x.hParams = y.hParams ∧
      Resumable x.params) : MappingOk cfg fp f' m' where
  full := hwb ▸ h.full
  assigned := hwb ▸ h.assigned
  pend x hx := by
    obtain ⟨y, hy, hsame, hh, hres⟩ := hpend x hx
    obtain ⟨⟨e, he, hye⟩, hyh, _⟩ := h.pend y hy
    refine ⟨⟨e, hwb ▸ he, ?_⟩, by rw [hh, hyh, hsame.key], hres⟩
    exact ⟨hsame.key.trans hye.key, hsame.value.trans hye.value, hsame.ppa.trans hye.ppa,
      hsame.keyFp.trans hye.keyFp⟩
  nodup := hkeys.nodup_iff.mpr h.nodup
  -- The entries only change their places in the three lists.
  count := by
    have hlen := hkeys.length_eq
    rw [List.length_map, List.length_map] at hlen
    rw [hup, hlen, h.count]
  installed e he hout := by
    rw [hs.memTable, hreal]
    exact h.installed e (hwb ▸ he) fun hk => hout (hkeys.mem_iff.mpr hk)
  table i l hl := by
    rw [htable] at hl
    intro hmem
    refine h.table i l hl ?_
    obtain ⟨x, hx, rfl⟩ := mem_slotsOf.mp hmem
    obtain ⟨y, hy, hsame, _⟩ := hpend x hx
    exact mem_slotsOf.mpr ⟨y, hy, by rw [hsame.key]⟩

/-- Pending entries that are the same up to their order and their retry state. -/
theorem Core.rearrange {pend pend' : List WbEntry} {f : Ftl} (h : Core cfg fp pend f)
    (hto : ∀ x ∈ pend', ∃ y ∈ pend, x.SameValue y)
    (hfrom : ∀ y ∈ pend, ∃ x ∈ pend', x.SameValue y) :
    Core cfg fp pend' f := by
  refine h.congr_pend (fun p => ⟨?_, ?_⟩) fun l => ⟨fun hl => ?_, fun hl => ?_⟩
  · rintro ⟨x, hx, hxp⟩
    obtain ⟨y, hy, hsame⟩ := hto x hx
    exact ⟨y, hy, hsame.ppa.symm.trans hxp⟩
  · rintro ⟨y, hy, hyp⟩
    obtain ⟨x, hx, hsame⟩ := hfrom y hy
    exact ⟨x, hx, hsame.ppa.trans hyp⟩
  · obtain ⟨x, hx, rfl⟩ := mem_slotsOf.mp hl
    obtain ⟨y, hy, hsame⟩ := hto x hx
    exact mem_slotsOf.mpr ⟨y, hy, by rw [hsame.key]⟩
  · obtain ⟨y, hy, rfl⟩ := mem_slotsOf.mp hl
    obtain ⟨x, hx, hsame⟩ := hfrom y hy
    exact mem_slotsOf.mpr ⟨x, hx, by rw [hsame.key]⟩

/-- An entry has its own value. -/
theorem WbEntry.SameValue.refl (e : WbEntry) : e.SameValue e := ⟨rfl, rfl, rfl, rfl⟩

/-- The data check of a pending entry passes: its slot is free or holds its own key, and
    it has not been installed. -/
theorem Core.wbDataCheck {pend : List WbEntry} {f : Ftl} {s : Store} {e : WbEntry}
    (h : Core cfg fp pend f) (hs : s.cold.memTable = f.store.cold.memTable) (he : e ∈ pend)
    (hcan : Canonical e.key) (hh : e.hParams = makeHashParams fp e.key)
    (htable : ∀ i, ∀ l ∈ f.hashTable i, l ∉ slotsOf pend) :
    wbDataCheck cfg f.hashTable s { e with params := none } (getLpa e.key) =
      if (f.store.cold.memTable (getLpa e.key)).ppa.isSome then .update { e with params := none }
      else .directUpdate { e with params := none } := by
  unfold BlockSsd.wbDataCheck Cold.getPte
  dsimp only
  rw [hs]
  split
  · next hnone => rw [hnone]; rfl
  · next q hq =>
    have hmapped : (f.store.cold.memTable (getLpa e.key)).ppa.isSome = true := by rw [hq]; rfl
    obtain ⟨hkey, hfp⟩ := h.slots _ hmapped
    have hsame : f.realKeys (getLpa e.key) = e.key := hkey.inj hcan
    rw [hsame] at hfp
    -- The batch table lists installed slots only, and `e` is still pending.
    have hlook : dHtableFind cfg f.hashTable q (getLpa e.key) = false := by
      unfold dHtableFind
      rw [List.contains_eq_mem, decide_eq_false_iff_not]
      intro hmem
      exact htable _ _ hmem (mem_slotsOf.mpr ⟨e, he, rfl⟩)
    rw [if_neg (by rw [hh, hfp]; exact fun hne => hne rfl), hlook, hmapped]
    rfl

/-- The current entry is parked, or checked while its page is resident or on flash. -/
def PassEffect (cfg : Settings) (f : Ftl) (e : WbEntry) (s : Store) (ex : WbExit) : Prop :=
  (∃ p, ex = .parked { e with params := some p } ∧
    (p = .list ∧ e.params = none ∨ p = .complete ∧ e.params ≠ some .complete)) ∨
  ((s.cold.cmt (dIdx (getLpa e.key))).pt = true ∨
      (s.cold.cmt (dIdx (getLpa e.key))).tPpa.isSome = true) ∧
    ex = wbDataCheck cfg f.hashTable s { e with params := none } (getLpa e.key)

/-- No entry resumes behind an eviction with a page that is neither resident nor on
    flash, and no collection moves a page of the batch in progress. -/
def batchSafe (cfg : Settings) (f : Ftl) (a : Label) : Bool :=
  match a, f.phase with
  | .wbPass, .mapping m => m.cur.all fun e => e.params ≠ some .complete ||
      (f.store.cold.cmt (dIdx (getLpa e.key))).pt ||
        (f.store.cold.cmt (dIdx (getLpa e.key))).tPpa.isSome
  | .assign, .assigning m => m.bucket.isEmpty ||
      (f.store.gcItems cfg).all fun it => f.wb.all fun e => e.ppa ≠ some it.src
  | _, _ => true

/-- In a safe batch a pass over the current entry parks it, or leaves its page resident or
    written. -/
theorem PassEffect.of_path {f : Ftl} {m : MapUpdate} {e : WbEntry} {s : Store} {ex : WbExit}
    (hm : MapSide cfg f.store) (hp : f.phase = .mapping m) (hc : m.cur = some e)
    (hres : Resumable e.params) (hok : batchSafe cfg f .wbPass = true)
    (h : WbPath cfg f.hashTable f.store e s ex) :
    MapSide cfg s ∧ SameData cfg f.store s ∧ PassEffect cfg f e s ex := by
  have hlists : ∀ {x}, WbLists e.params (getLpa e.key) x → e.params ≠ some .complete := by
    rintro x (hl | ⟨hl | ⟨hl, _⟩, _⟩) he
    · rw [hl] at he
      cases he
    · rw [hl] at he
      cases he
    · rw [hl] at he
      cases he
  -- One case for each way through the pass.
  cases h with
  | loaded _ hj hl =>
    obtain ⟨hm', hs⟩ := hm.load hl
    have hnone : e.params = none := by
      rcases hj with hj | ⟨hj, _⟩
      · rw [hj] at hres
        rcases hres with hr | hr | hr
        · cases hr
        · cases hr
        · cases hr
      · exact hj
    exact ⟨hm', hs, Or.inl ⟨.list, rfl, Or.inl ⟨rfl, hnone⟩⟩⟩
  | evicted _ hj hl =>
    obtain ⟨hm', hs, _⟩ := hm.listUp hl
    exact ⟨hm', hs, Or.inl ⟨.complete, rfl, Or.inr ⟨rfl, hlists hj⟩⟩⟩
  | listed _ hj hl =>
    obtain ⟨hm', hs, hpt⟩ := hm.listUp hl
    exact ⟨hm', hs, Or.inr ⟨Or.inl hpt, rfl⟩⟩
  -- A resumed entry finds its page evicted meanwhile; the batch is safe, so a copy exists.
  | resumed hj =>
    refine ⟨hm, .refl _, Or.inr ⟨?_, rfl⟩⟩
    simp only [batchSafe, hp, hc, Option.all_some, hj] at hok
    simpa using hok
  | hit hj hpt =>
    obtain ⟨hm', hs⟩ := hm.hit hpt
    refine ⟨hm', hs, Or.inr ⟨Or.inl ?_, rfl⟩⟩
    exact ((Cold.hit_touch hpt).1 _).2.1.trans hpt
  -- A jump to another label is not resumable.
  | jumped hj =>
    rcases hres with hr | hr | hr
    · rw [hr] at hj
      cases hj
    · rw [hr] at hj
      cases hj
    · rw [hr] at hj
      cases hj

/-- The passes an entry may still take before it is installed. -/
def WbEntry.passesLeft (e : WbEntry) : Nat :=
  match e.params with
  | none => 3
  | some .list => 2
  | some _ => 1

/-- The passes left for a batch. -/
def MapUpdate.passesLeft (m : MapUpdate) : Nat := (m.pending.map WbEntry.passesLeft).sum

theorem MapUpdate.pending_cur {m : MapUpdate} {e : WbEntry} (hc : m.cur = some e) :
    m.pending = e :: (m.retry ++ m.master) := by
  rw [MapUpdate.pending, hc]
  rfl

theorem MapUpdate.pending_none {m : MapUpdate} (hc : m.cur = none) :
    m.pending = m.retry ++ m.master := by
  rw [MapUpdate.pending, hc]
  rfl

/-- What a pass over the current entry comes to. -/
theorem Durable.pass {f : Ftl} {m : MapUpdate} {e : WbEntry} {s : Store} {ex : WbExit}
    (h : Durable cfg fp f) (hp : f.phase = .mapping m) (hc : m.cur = some e)
    (hok : batchSafe cfg f .wbPass = true) (hw : WbPath cfg f.hashTable f.store e s ex) :
    MapSide cfg s ∧ SameData cfg f.store s ∧
      ((∃ p, ex = .parked { e with params := some p } ∧ Resumable (some p) ∧
        ({ e with params := some p } : WbEntry).passesLeft < e.passesLeft) ∨
      ((s.cold.cmt (dIdx (getLpa e.key))).pt = true ∨
          (s.cold.cmt (dIdx (getLpa e.key))).tPpa.isSome = true) ∧
        ex = if (f.store.cold.memTable (getLpa e.key)).ppa.isSome then
          .update { e with params := none } else .directUpdate { e with params := none }) := by
  have hcore := h.core
  have hphase := h.phase
  have hcan := h.keys.phase
  rw [Ftl.pending, hp] at hcore
  rw [Ftl.PhaseOk, hp] at hphase
  rw [hp] at hcan
  have hmem : e ∈ m.pending := by
    rw [MapUpdate.pending_cur hc]
    exact List.mem_cons_self
  obtain ⟨_, hh, hres⟩ := hphase.pend e hmem
  obtain ⟨hm, hs, heff⟩ := PassEffect.of_path hcore.map hp hc hres hok hw
  refine ⟨hm, hs, heff.imp ?_ ?_⟩
  · rintro ⟨p, rfl, hpar⟩
    refine ⟨p, rfl, ?_, ?_⟩
    · rcases hpar with ⟨rfl, _⟩ | ⟨rfl, _⟩
      · exact Or.inr (Or.inl rfl)
      · exact Or.inr (Or.inr rfl)
    -- Each label is one pass nearer to the end than the one before.
    · rcases hpar with ⟨rfl, hn⟩ | ⟨rfl, hne⟩
      · simp only [WbEntry.passesLeft, hn]
        decide
      · rcases hres with hr | hr | hr
        · simp only [WbEntry.passesLeft, hr]
          decide
        · simp only [WbEntry.passesLeft, hr]
          decide
        · exact absurd hr hne
  · rintro ⟨hb, rfl⟩
    exact ⟨hb, hcore.wbDataCheck hs.memTable hmem (hcan.2 e hmem) hh hphase.table⟩

/-- The current entry goes to the retry queue. -/
theorem Durable.parked {f f' : Ftl} {m : MapUpdate} {e : WbEntry} {s : Store} {p : Jump}
    (h : Durable cfg fp f) (hp : f.phase = .mapping m) (hc : m.cur = some e)
    (hm : MapSide cfg s) (hs : SameData cfg f.store s) (hr : Resumable (some p))
    (hf : f' = { f with
      store := s
      phase := .mapping { m with
        cur := none, retry := m.retry ++ [{ e with params := some p }] } }) :
    Core cfg fp f'.pending f' ∧ f'.PhaseOk cfg fp := by
  have hcore := h.core
  have hphase := h.phase
  rw [Ftl.pending, hp] at hcore
  rw [Ftl.PhaseOk, hp] at hphase
  subst hf
  have hmem : ∀ x, x ∈ m.pending ↔ x = e ∨ x ∈ m.retry ∨ x ∈ m.master := fun x => by
    rw [MapUpdate.pending_cur hc, List.mem_cons, List.mem_append]
  have hmem' : ∀ x, x ∈ m.retry ++ [{ e with params := some p }] ++ m.master ↔
      (x ∈ m.retry ∨ x = { e with params := some p }) ∨ x ∈ m.master := fun x => by
    rw [List.mem_append, List.mem_append, List.mem_singleton]
  have hsame : ({ e with params := some p } : WbEntry).SameValue e := ⟨rfl, rfl, rfl, rfl⟩
  have hcore' : Core cfg fp m.pending { f with
      store := s
      phase := .mapping { m with
        cur := none, retry := m.retry ++ [{ e with params := some p }] } } :=
    hcore.sameData hm hs rfl rfl rfl rfl rfl hcore.retryQ
  -- The pending entries are the same in another order.
  refine ⟨hcore'.rearrange (fun x hx => ?_) fun y hy => ?_,
    hphase.rearrange hs rfl rfl rfl rfl ?_ fun x hx => ?_⟩
  · rcases (hmem' x).mp hx with (hx | rfl) | hx
    · exact ⟨x, (hmem x).mpr (Or.inr (Or.inl hx)), .refl x⟩
    · exact ⟨e, (hmem e).mpr (Or.inl rfl), hsame⟩
    · exact ⟨x, (hmem x).mpr (Or.inr (Or.inr hx)), .refl x⟩
  · rcases (hmem y).mp hy with rfl | hy | hy
    · exact ⟨_, (hmem' _).mpr (Or.inl (Or.inr rfl)), hsame⟩
    · exact ⟨y, (hmem' y).mpr (Or.inl (Or.inl hy)), .refl y⟩
    · exact ⟨y, (hmem' y).mpr (Or.inr hy), .refl y⟩
  · rw [MapUpdate.pending_cur hc, MapUpdate.pending_none rfl]
    simp only [List.map_append, List.map_cons, List.append_assoc, List.singleton_append]
    exact List.perm_middle
  · rcases (hmem' x).mp hx with (hx | rfl) | hx
    · have hx' := (hmem x).mpr (Or.inr (Or.inl hx))
      exact ⟨x, hx', .refl x, rfl, (hphase.pend x hx').2.2⟩
    · exact ⟨e, (hmem e).mpr (Or.inl rfl), hsame, rfl, hr⟩
    · have hx' := (hmem x).mpr (Or.inr (Or.inr hx))
      exact ⟨x, hx', .refl x, rfl, (hphase.pend x hx').2.2⟩

/-- The page of a pending entry is in its slot now. -/
theorem Core.install {f f' : Ftl} {e : WbEntry} {rest : List WbEntry} {ppa : Nat}
    (h : Core cfg fp (e :: rest) f) (hm : MapSide cfg f'.store)
    (hd : DataOk cfg (fun p => pagesOf (e :: rest) p ∧ p ≠ ppa) f'.store)
    (hmt : f'.store.cold.memTable =
      Function.update f.store.cold.memTable (getLpa e.key) ⟨some ppa, fp e.key⟩)
    (hct : f'.store.content = f.store.content)
    (hreal : f'.realKeys = Function.update f.realKeys (getLpa e.key) e.key)
    (hwb : f'.wb = f.wb) (hlast : f'.lastSet = f.lastSet) (hfl : f'.flushed = f.flushed)
    (hmax : f'.maxTry = 0) (hq : f'.retryQ = f.retryQ) (hcan : Canonical e.key)
    (hppa : e.ppa = some ppa) (hout : getLpa e.key ∉ slotsOf rest)
    (hpages : ∀ x ∈ rest, x.ppa ≠ some ppa)
    (hcontent : f.store.content ppa = f.lastSet (getLpa e.key)) : Core cfg fp rest f' where
  map := hm
  data := hd.congr fun p => by
    constructor
    · rintro ⟨x, hx, hxp⟩
      refine ⟨⟨x, List.mem_cons_of_mem _ hx, hxp⟩, ?_⟩
      rintro rfl
      exact hpages x hx hxp
    -- Without the page of `e`, the pages of all pending entries are those of the rest.
    · rintro ⟨⟨x, hx, hxp⟩, hne⟩
      rcases List.mem_cons.mp hx with rfl | hx
      · rw [hppa] at hxp
        exact absurd (Option.some.inj hxp).symm hne
      · exact ⟨x, hx, hxp⟩
  slots l := by
    rw [hmt, hreal, Function.update_apply, Function.update_apply]
    split
    · next he =>
      subst he
      exact fun _ => ⟨hcan, rfl⟩
    · exact h.slots l
  value l := by
    rw [hmt, hct, hlast, hfl, Function.update_apply]
    -- Only the slot of `e` changes, and it shows the last set from now on.
    by_cases hl : l = getLpa e.key
    · subst hl
      rw [if_pos rfl, if_neg hout]
      exact hcontent
    · rw [if_neg hl, h.value l]
      simp [slotsOf, hl]
  last := by
    rw [hwb, hlast]
    exact h.last
  settled := by
    rw [hwb, hfl, hlast]
    exact h.settled
  sorted := hwb ▸ h.sorted
  fresh := hwb ▸ h.fresh
  pages := hwb ▸ h.pages
  content := by
    rw [hwb, hct]
    exact h.content
  maxTry := hmax
  retryQ := hq ▸ h.retryQ

/-- The current entry is installed. -/
theorem Durable.install {f : Ftl} {m : MapUpdate} {e : WbEntry} {s : Store} {ppa : Nat}
    (h : Durable cfg fp f) (hp : f.phase = .mapping m) (hc : m.cur = some e)
    (hm : MapSide cfg s) (hs : SameData cfg f.store s) (hppa : e.ppa = some ppa)
    (hb : (s.cold.cmt (dIdx (getLpa e.key))).pt = true ∨
      (s.cold.cmt (dIdx (getLpa e.key))).tPpa.isSome = true) :
    Core cfg fp (m.retry ++ m.master)
      (f.install cfg m (wbInvalidateOld cfg s (getLpa e.key)) { e with params := none } ppa) ∧
    MappingOk cfg fp
      (f.install cfg m (wbInvalidateOld cfg s (getLpa e.key)) { e with params := none } ppa)
      { m with cur := none, updated := m.updated + 1 } := by
  have hcore := h.core
  have hphase := h.phase
  have hcan := h.keys.phase
  rw [Ftl.pending, hp] at hcore
  rw [Ftl.PhaseOk, hp] at hphase
  rw [hp] at hcan
  have hpend := MapUpdate.pending_cur hc
  have hmem : e ∈ m.pending := by
    rw [hpend]
    exact List.mem_cons_self
  have hrest : ∀ x ∈ m.retry ++ m.master, x ∈ m.pending := fun x hx => by
    rw [hpend]
    exact List.mem_cons_of_mem _ hx
  obtain ⟨⟨w, hw, hwsame⟩, hh, _⟩ := hphase.pend e hmem
  have hnodup := hphase.nodup
  rw [hpend, List.map_cons, List.nodup_cons] at hnodup
  -- No other pending entry has the slot or the page of `e`.
  have hkey : ∀ x ∈ m.retry ++ m.master, x.key ≠ e.key := fun x hx he =>
    hnodup.1 (List.mem_map.mpr ⟨x, hx, he⟩)
  have hout : getLpa e.key ∉ slotsOf (m.retry ++ m.master) := fun hl => by
    obtain ⟨x, hx, he⟩ := mem_slotsOf.mp hl
    exact hkey x hx ((hcan.2 x (hrest x hx)).inj (hcan.2 e hmem) he)
  have hpages : ∀ x ∈ m.retry ++ m.master, x.ppa ≠ some ppa := fun x hx he => by
    obtain ⟨⟨y, hy, hysame⟩, _⟩ := hphase.pend x (hrest x hx)
    have hyw := hcore.pages y hy w hw ppa (hysame.ppa.symm.trans he) (hwsame.ppa.symm.trans hppa)
    exact hkey x hx (hysame.key.trans (hyw.trans hwsame.key.symm))
  -- The page holds what was last set for the key.
  have hcontent : f.store.content ppa = f.lastSet (getLpa e.key) := by
    rw [hcore.content w hw ppa (hwsame.ppa.symm.trans hppa), hwsame.key]
    exact (hcore.last w hw).symm
  have hdata := hcore.data.sameData hs
  obtain ⟨hd', hm'⟩ := hdata.install hm ⟨e, hmem, hppa⟩ e.hParams.keyFp hb
  have hstore := (hdata.invalidateOld (getLpa e.key)).2.2.2.2.2
  have hmt : (wbInstall cfg (wbInvalidateOld cfg s (getLpa e.key)) (getLpa e.key) ppa
      e.hParams.keyFp).cold.memTable =
        Function.update f.store.cold.memTable (getLpa e.key) ⟨some ppa, fp e.key⟩ := by
    rw [wbInstall_memTable, hstore, ← hs.memTable, hh]
    rfl
  have hct : (wbInvalidateOld cfg s (getLpa e.key)).content = f.store.content := by
    rw [hstore]
    exact hs.content
  have hmax : max e.hParams.cnt f.maxTry = 0 := by
    rw [hcore.maxTry, hh]
    rfl
  have hcore' : Core cfg fp (e :: (m.retry ++ m.master)) f := hpend ▸ hcore
  refine ⟨hcore'.install hm' (hpend ▸ hd') hmt hct rfl rfl rfl rfl hmax rfl (hcan.2 e hmem) hppa
      hout hpages hcontent,
    ⟨hphase.full, hphase.assigned, fun x hx => hphase.pend x (hrest x hx), hnodup.2, ?_,
      fun x hx hxk => ?_, fun i l hl => ?_⟩⟩
  · have hcount := hphase.count
    rw [hpend, List.length_cons] at hcount
    show m.updated + 1 + (m.retry ++ m.master).length = _
    omega
  · show ((wbInstall cfg (wbInvalidateOld cfg s (getLpa e.key)) (getLpa e.key) ppa
        e.hParams.keyFp).cold.memTable (getLpa x.key)).ppa = x.ppa ∧
      Function.update f.realKeys (getLpa e.key) e.key (getLpa x.key) = x.key
    rw [hmt]
    -- An entry of the buffer with the same key is the entry itself.
    by_cases hxe : x.key = e.key
    · have hxw : x = w := List.inj_on_of_nodup_map hcore.sorted.keys_nodup hx hw
        (hxe.trans hwsame.key)
      rw [hxe, Function.update_self, Function.update_self, hxw, ← hwsame.ppa, hppa]
      exact ⟨rfl, rfl⟩
    · have hne : getLpa x.key ≠ getLpa e.key := fun he =>
        hxe ((h.keys.wb x hx).inj (hcan.2 e hmem) he)
      rw [Function.update_of_ne hne, Function.update_of_ne hne]
      refine hphase.installed x hx ?_
      rw [hpend, List.map_cons, List.mem_cons, not_or]
      exact ⟨hxe, hxk⟩
  · have hl' : l ∈ Function.update f.hashTable (ppa % (cfg.maxWriteBuf * 2))
        (f.hashTable (ppa % (cfg.maxWriteBuf * 2)) ++ [getLpa e.key]) i := hl
    -- The table gains the slot of `e`, which no pending entry has.
    have hold : ∀ j, l ∈ f.hashTable j → l ∉ slotsOf (m.retry ++ m.master) := fun j hj hmem' => by
      obtain ⟨x, hx, he⟩ := mem_slotsOf.mp hmem'
      exact hphase.table j l hj (mem_slotsOf.mpr ⟨x, hrest x hx, he⟩)
    rw [Function.update_apply] at hl'
    split at hl'
    · rcases List.mem_append.mp hl' with hl' | hl'
      · exact hold _ hl'
      · rw [List.mem_singleton.mp hl']
        exact hout
    · exact hold _ hl'

end AggreKV.BlockSsd
