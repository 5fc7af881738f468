import AggreKV.Lib.Probing
import AggreKV.HashKv.Collect
import AggreKV.HashKv.Completion

/-! # Slot ownership

    The mapping table is an open-addressing table: `realKeys` says who owns
    a mapped slot, `probeLpa` is the probe sequence. The batches of the
    write buffer keep it well placed.

    * `Owned`: the invariant; during a mapping update `Batch` says how far
      each pending entry has walked and what the filter `d_htable` holds.
    * `relocatesMapped`: collections move mapped slots only. -/

namespace AggreKV.HashKv

open Probing

variable {cfg : Settings} {hs : Hashing}

/-! ## Section 1: The write buffer holds distinct keys -/

def WbSorted (wb : List WbEntry) : Prop := wb.Pairwise fun x y => keycmp x.key y.key < 0

/-- An entry that no mapping update has touched. -/
def WbEntry.Fresh (hs : Hashing) (e : WbEntry) : Prop :=
  e.hParams = makeHashParams hs e.key ∧ e.params = none

/-- A sorted buffer has each key once. -/
theorem WbSorted.keys_nodup {wb : List WbEntry} (h : WbSorted wb) : (wb.map (·.key)).Nodup := by
  have hs : KeySorted WbEntry.key (fun a b => keycmp a b < 0) wb := h
  exact hs.keys_nodup

/-- An entry behind an insertion is old or has the new key. -/
theorem mem_wbInsert {key : Key} {bytes : Nat} {hp : HashParams} {wb : List WbEntry}
    {e : WbEntry} (h : e ∈ wbInsert key bytes hp wb) :
    e ∈ wb ∨ (e.key = key ∧ e.hParams = hp ∧
      (e.params = none ∨ ∃ x ∈ wb, e.params = x.params)) := by
  rw [wbInsert_eq] at h
  rcases mem_sortedInsert h with h | rfl | ⟨x, hx, hk, rfl⟩
  · exact Or.inl h
  · exact Or.inr ⟨rfl, rfl, Or.inl rfl⟩
  · exact Or.inr ⟨hk, rfl, Or.inr ⟨x, hx, rfl⟩⟩

/-- Insertion keeps the keys that are there and adds the new one. -/
theorem exists_mem_wbInsert (key : Key) (bytes : Nat) (hp : HashParams) {k : Key}
    {wb : List WbEntry} (h : k = key ∨ ∃ e ∈ wb, e.key = k) :
    ∃ e ∈ wbInsert key bytes hp wb, e.key = k := by
  rw [wbInsert_eq]
  apply exists_mem_sortedInsert
  · rfl
  · intro _
    rfl
  · exact h

/-- An insertion keeps the buffer sorted. -/
theorem WbSorted.insert {key : Key} {bytes : Nat} {hp : HashParams} {wb : List WbEntry}
    (h : WbSorted wb) : WbSorted (wbInsert key bytes hp wb) := by
  have hs : KeySorted WbEntry.key (fun a b => keycmp a b < 0) wb := h
  rw [wbInsert_eq]
  exact hs.sortedInsert rfl fun _ => rfl

/-- The two buffers differ only in the grains assigned to their entries. -/
def SameEntries (wb wb' : List WbEntry) : Prop :=
  wb'.map (fun e => { e with ppa := none }) = wb.map fun e => { e with ppa := none }

/-- An assigned address does not change the entries. -/
theorem SameEntries.setPpa (wb : List WbEntry) (key : Key) (ppa : Nat) :
    SameEntries wb (wbSetPpa wb key ppa) := by
  unfold SameEntries wbSetPpa
  rw [List.map_map]
  refine List.map_congr_left fun e _ => ?_
  simp only [Function.comp_apply]
  split <;> rfl

/-- Nor do those of a whole page. -/
theorem SameEntries.placeEntries {ppa : Nat} : ∀ {ps : List (Placed WbEntry)} {bm bm' : Bm}
    {wb wb' : List WbEntry}, placeEntries cfg bm wb ppa ps = some (bm', wb') → SameEntries wb wb'
  | [], bm, bm', wb, wb', h => by
      cases h
      rfl
  | p :: ps, bm, bm', wb, wb', h => by
      obtain ⟨bm₁, _, h⟩ := Option.bind_eq_some_iff.mp h
      exact (SameEntries.placeEntries h).trans (SameEntries.setPpa wb _ _)

theorem SameEntries.exists_mem {wb wb' : List WbEntry} (h : SameEntries wb wb') {e : WbEntry}
    (he : e ∈ wb') : ∃ x ∈ wb, x.key = e.key ∧ x.hParams = e.hParams ∧ x.params = e.params := by
  have hmem : { e with ppa := none } ∈ wb.map fun e => { e with ppa := none } := by
    rw [← h]
    exact List.mem_map_of_mem he
  obtain ⟨x, hx, hxe⟩ := List.mem_map.mp hmem
  injection hxe with h1 h2 h3 h4 h5
  exact ⟨x, hx, h1, h3, h5⟩

theorem SameEntries.symm {wb wb' : List WbEntry} (h : SameEntries wb wb') : SameEntries wb' wb :=
  Eq.symm h

theorem SameEntries.sorted {wb wb' : List WbEntry} (h : SameEntries wb wb') (hs : WbSorted wb) :
    WbSorted wb' := by
  have hm : (wb.map fun e => { e with ppa := none }).Pairwise
      fun x y : WbEntry => keycmp x.key y.key < 0 := List.pairwise_map.mpr hs
  rw [← h] at hm
  exact List.pairwise_map.mp hm

/-! ## Section 2: Who touches the mapping table -/

/-- A promotion reads the table only. -/
theorem promoteHot_memTable (s : Store) (page : Nat) :
    (s.promoteHot page).cold.memTable = s.cold.memTable := by
  unfold Store.promoteHot
  dsimp only
  split
  · rfl
  · split
    · rfl
    · split <;> rfl

/-- Moving translation pages does not touch it. -/
theorem tpageInvariant_memTable (t : Nat → Pte) : TpageInvariant fun c _ => c.memTable = t where
  setTPpa _ _ h := h
  written _ _ h := h

/-- Nor does writing a victim back. -/
theorem writeBack_memTable {s s' : Store} {victim : Nat} (h : s.writeBack cfg victim = some s') :
    s'.cold.memTable = s.cold.memTable := by
  unfold Store.writeBack at h
  split at h
  · exact (tpageInvariant_memTable s.cold.memTable).writeTpage rfl h
  · cases h
    rfl

/-- Nor does a rebalance. -/
theorem tryRebalance_memTable (s : Store) (choice : Rebalance) :
    (s.tryRebalance cfg choice).cold.memTable = s.cold.memTable := by
  unfold Store.tryRebalance Store.rebalance
  split
  · cases choice with
    | keep => rfl
    | expandHot | expandKey | shrinkHot =>
      dsimp only
      split <;> rfl
  · rfl

theorem afterEvict_memTable (s : Store) (victim : Nat) (choice : Rebalance) :
    (s.afterEvict cfg victim choice).cold.memTable = s.cold.memTable := by
  unfold Store.afterEvict
  split
  · dsimp only
    split
    · split
      · exact tryRebalance_memTable _ choice
      · rfl
    · rfl
  · rfl

/-- Nor does `dftl_cache_list_up`. -/
theorem listUpInvariant_memTable (cfg : Settings) (t : Nat → Pte) :
    ListUpInvariant cfg fun s => s.cold.memTable = t where
  promote page h := (promoteHot_memTable _ page).trans h
  pop _ _ h := h
  count _ h := h
  evictPage _ h hw := (writeBack_memTable hw).trans h
  afterEvict victim choice h := (afterEvict_memTable _ victim choice).trans h
  resident _ h := h

/-- Nor does any access to the caches. -/
theorem accessInvariant_memTable (cfg : Settings) (t : Nat → Pte) :
    AccessInvariant cfg fun s => s.cold.memTable = t where
  hot _ h := h
  grain lpa h := (Cold.coldGrainAccess_memTable _ lpa).trans h
  touch lpa h := (Cold.touch_memTable cfg _ lpa).trans h
  load lpa h hl := by
    unfold Store.load at hl
    dsimp only at hl
    split at hl
    · cases hl
    · cases hl
      exact h

/-- Nor does a pass over an entry, up to its exit. -/
theorem WbPath.memTable {realKeys : Nat → Key} {ht : DHtable} {s₀ s : Store} {e : WbEntry}
    {choice : Rebalance} {ex : WbExit} (h : WbPath cfg realKeys ht s₀ e choice s ex) :
    s.cold.memTable = s₀.cold.memTable :=
  h.preserves (accessInvariant_memTable cfg s₀.cold.memTable)
    (fun _ _ _ _ h₁ hl => (listUpInvariant_memTable cfg _).listUp h₁ hl) rfl

/-- Nor does a pass over a get. -/
theorem GetPath.memTable {f : Ftl} {r : Request} {choice : Rebalance} {s : Store} {ex : GetExit}
    (h : GetPath cfg f r choice s ex) : s.cold.memTable = f.store.cold.memTable :=
  h.preserves (accessInvariant_memTable cfg f.store.cold.memTable)
    (fun _ _ _ hl => (listUpInvariant_memTable cfg _).listUp rfl hl) rfl

/-- What a collection does to the table: fingerprints stay, mapped slots stay mapped. -/
def KeepsSlots (c c' : Cold) : Prop :=
  ∀ lpa, (c'.memTable lpa).keyFp = (c.memTable lpa).keyFp ∧
    ((c.memTable lpa).ppa.isSome → (c'.memTable lpa).ppa.isSome)

/-- A mapped slot may get another address. -/
theorem KeepsSlots.setPpa {c₀ c c' : Cold} (h : KeepsSlots c₀ c) (lpa ppa : Nat)
    (hc : c'.memTable = Function.update c.memTable lpa { c.memTable lpa with ppa := some ppa }) :
    KeepsSlots c₀ c' := by
  intro l
  rw [hc]
  by_cases hl : l = lpa
  · subst hl
    rw [Function.update_self]
    exact ⟨(h l).1, fun _ => rfl⟩
  · rw [Function.update_of_ne hl]
    exact h l

/-- That is all that a collection does. -/
theorem gcInvariant_keepsSlots (c₀ : Cold) :
    GcInvariant (fun _ => True) fun c _ => KeepsSlots c₀ c where
  setTPpa _ _ h := h
  written _ _ h := h
  grain lpa h := by
    unfold KeepsSlots
    rw [Cold.coldGrainAccess_memTable]
    exact h
  update lpa ppa _ h := h.setPpa lpa ppa (Cold.update_memTable _ lpa _)
  relocate lpa ppa _ h := h.setPpa lpa ppa rfl

/-- The assignment of pages relocates mapped slots only: no slot gets its first
    address from a collection. -/
def relocatesMapped (cfg : Settings) (hs : Hashing) (f : Ftl) (a : Label) : Prop :=
  a = .assign → ∀ f', Ftl.next cfg hs f a = some f' →
    ∀ lpa, (f.store.cold.memTable lpa).ppa = none → (f'.store.cold.memTable lpa).ppa = none

/-! ## Section 3: The invariant -/

/-- Who owns the mapped slots. -/
def Ftl.owners (f : Ftl) (lpa : Nat) : Option Key :=
  if (f.store.cold.memTable lpa).ppa.isSome then some (f.realKeys lpa) else none

/-- The entries of the batch that wait for their mapping update. -/
def MapUpdate.pending (m : MapUpdate) : List WbEntry := m.cur.toList ++ m.retry ++ m.master

/-- The mapping update of a batch with the pending entries `l`. -/
structure Batch (cfg : Settings) (hs : Hashing) (f : Ftl) (l : List WbEntry) : Prop where
  distinct : (l.map (·.key)).Nodup
  params : ∀ e ∈ l, e.hParams.Of hs e.key
  walked : ∀ e ∈ l, Walked (probeLpa cfg hs) f.owners e.key e.hParams.cnt
  /-- An entry parked at `GOTO_UPDATE` has found its own slot. -/
  atUpdate : ∀ e ∈ l, e.params = some .update → f.owners (getLpa cfg e.hParams) = some e.key
  /-- The filter holds slots of entries that are done. -/
  filter : ∀ i, ∀ lpa ∈ f.hashTable i, ∃ k, f.owners lpa = some k ∧ ∀ e ∈ l, e.key ≠ k
  accounted : ∀ e ∈ f.wb, (∃ x ∈ l, x.key = e.key) ∨ ∃ lpa, f.owners lpa = some e.key

def Phase.Batch (cfg : Settings) (hs : Hashing) (f : Ftl) : Phase → Prop
  | .mapping m => HashKv.Batch cfg hs f m.pending
  | _ => ∀ i, f.hashTable i = []

structure Owned (cfg : Settings) (hs : Hashing) (f : Ftl) : Prop where
  placed : WellPlaced (probeLpa cfg hs) f.owners f.maxTry
  fp : ∀ lpa k, f.owners lpa = some k → (f.store.cold.memTable lpa).keyFp = hs.hashingKeyFp k
  sorted : WbSorted f.wb
  fresh : ∀ e ∈ f.wb, e.Fresh hs
  batch : f.phase.Batch cfg hs f

/-- The owners depend on the table and the keys on flash. -/
theorem owners_eq_of_memTable {f f' : Ftl} (ht : f'.store.cold.memTable = f.store.cold.memTable)
    (hk : f'.realKeys = f.realKeys) : f'.owners = f.owners := by
  funext lpa
  simp only [Ftl.owners, ht, hk]

/-- A mapped slot is owned by the key at its address. -/
theorem owners_eq_some {f : Ftl} {lpa : Nat} {k : Key} : f.owners lpa = some k ↔
    (f.store.cold.memTable lpa).ppa ≠ none ∧ f.realKeys lpa = k := by
  unfold Ftl.owners
  split
  · next h => simp [Option.isSome_iff_ne_none.mp h]
  · next h => simpa using fun hne => absurd (Option.isSome_iff_ne_none.mpr hne) h

/-- An unmapped slot has no owner. -/
theorem owners_eq_none {f : Ftl} {lpa : Nat} :
    f.owners lpa = none ↔ (f.store.cold.memTable lpa).ppa = none := by
  unfold Ftl.owners
  split
  · next h => simp [Option.isSome_iff_ne_none.mp h]
  · next h => simpa using h

/-- The order of the entries does not matter. -/
theorem Batch.perm {f : Ftl} {l l' : List WbEntry} (h : Batch cfg hs f l) (hl : l'.Perm l) :
    Batch cfg hs f l' where
  distinct := (hl.map _).nodup_iff.mpr h.distinct
  params e he := h.params e (hl.mem_iff.mp he)
  walked e he := h.walked e (hl.mem_iff.mp he)
  atUpdate e he := h.atUpdate e (hl.mem_iff.mp he)
  filter i lpa hi := by
    obtain ⟨k, hk, hne⟩ := h.filter i lpa hi
    exact ⟨k, hk, fun e he => hne e (hl.mem_iff.mp he)⟩
  accounted e he := (h.accounted e he).imp_left fun ⟨x, hx, hk⟩ => ⟨x, hl.mem_iff.mpr hx, hk⟩

/-- The batch only depends on the owners, the filter and the buffer. -/
theorem Batch.congr {f f' : Ftl} {l : List WbEntry} (h : Batch cfg hs f l)
    (ho : f'.owners = f.owners) (ht : f'.hashTable = f.hashTable) (hw : f'.wb = f.wb) :
    Batch cfg hs f' l where
  distinct := h.distinct
  params := h.params
  walked := ho ▸ h.walked
  atUpdate := ho ▸ h.atUpdate
  filter := by
    rw [ht, ho]
    exact h.filter
  accounted := by
    rw [hw, ho]
    exact h.accounted

/-- An entry goes on with other parameters. -/
theorem Batch.replace {f : Ftl} {e e' : WbEntry} {l : List WbEntry} (h : Batch cfg hs f (e :: l))
    (hk : e'.key = e.key) (hp : e'.hParams.Of hs e.key)
    (hw : Walked (probeLpa cfg hs) f.owners e.key e'.hParams.cnt)
    (hu : e'.params = some .update → f.owners (getLpa cfg e'.hParams) = some e.key) :
    Batch cfg hs f (e' :: l) where
  distinct := by
    have hd := h.distinct
    rw [List.map_cons] at hd ⊢
    rwa [hk]
  params x hx := by
    rcases List.mem_cons.mp hx with rfl | hx
    · rw [hk]
      exact hp
    · exact h.params x (List.mem_cons_of_mem _ hx)
  walked x hx := by
    rcases List.mem_cons.mp hx with rfl | hx
    · rw [hk]
      exact hw
    · exact h.walked x (List.mem_cons_of_mem _ hx)
  atUpdate x hx hpar := by
    rcases List.mem_cons.mp hx with rfl | hx
    · rw [hk]
      exact hu hpar
    · exact h.atUpdate x (List.mem_cons_of_mem _ hx) hpar
  filter i lpa hi := by
    obtain ⟨k, ho, hne⟩ := h.filter i lpa hi
    refine ⟨k, ho, fun x hx => ?_⟩
    rcases List.mem_cons.mp hx with rfl | hx
    · rw [hk]
      exact hne e (List.mem_cons_self ..)
    · exact hne x (List.mem_cons_of_mem _ hx)
  accounted x hx := by
    refine (h.accounted x hx).imp_left fun ⟨y, hy, hyk⟩ => ?_
    rcases List.mem_cons.mp hy with rfl | hy
    · exact ⟨e', List.mem_cons_self .., hk.trans hyk⟩
    · exact ⟨y, List.mem_cons_of_mem _ hy, hyk⟩

/-! ## Section 4: One pass over an entry -/

/-- What a pass leaves behind: a walk that is still at other keys' slots, a slot found
    to be the entry's own, or a free one. -/
def WbExit.Ok (cfg : Settings) (hs : Hashing) (f : Ftl) (k : Key) : WbExit → Prop
  | .again e | .parked e => e.key = k ∧ e.hParams.Of hs k ∧
      Walked (probeLpa cfg hs) f.owners k e.hParams.cnt ∧
      (e.params = some .update → f.owners (getLpa cfg e.hParams) = some k)
  | .update e => e.key = k ∧ e.hParams.Of hs k ∧
      Walked (probeLpa cfg hs) f.owners k e.hParams.cnt ∧
      f.owners (getLpa cfg e.hParams) = some k
  | .directUpdate e => e.key = k ∧ e.hParams.Of hs k ∧
      Walked (probeLpa cfg hs) f.owners k e.hParams.cnt ∧
      f.owners (getLpa cfg e.hParams) = none

/-- A pass moves past a slot only when another key owns it: fingerprints are those of
    the owners, and a slot in the filter belongs to an entry that is done. -/
theorem WbPath.exit_ok {f : Ftl} {s : Store} {e : WbEntry} {l : List WbEntry} {choice : Rebalance}
    {ex : WbExit} (ho : Owned cfg hs f) (hb : Batch cfg hs f (e :: l))
    (h : WbPath cfg f.realKeys f.hashTable f.store e choice s ex) : ex.Ok cfg hs f e.key := by
  have ht := h.memTable
  have hmem : e ∈ e :: l := List.mem_cons_self ..
  have hof := hb.params e hmem
  have hwalk := hb.walked e hmem
  -- Moving on from a slot that another key owns.
  have hnext : ∀ {k}, f.owners (getLpa cfg e.hParams) = some k → k ≠ e.key →
      Walked (probeLpa cfg hs) f.owners e.key e.hParams.next.cnt := fun hk hne => by
    rw [hof.getLpa] at hk
    exact hwalk.next hk hne
  -- A mapped slot has the key at its address for its owner.
  have howner : ∀ {ppa}, (s.cold.getPte (getLpa cfg e.hParams)).ppa = some ppa →
      f.owners (getLpa cfg e.hParams) = some (f.realKeys (getLpa cfg e.hParams)) := fun hp => by
    refine owners_eq_some.mpr ⟨?_, rfl⟩
    rw [← ht]
    intro hn
    rw [Cold.getPte, hn] at hp
    cases hp
  cases h with
  | loaded s₁ s hs hl => exact ⟨rfl, hof, hwalk, fun hp => by cases hp⟩
  | evicted s₁ s hs hl => exact ⟨rfl, hof, hwalk, fun hp => by cases hp⟩
  | update hp => exact ⟨rfl, hof, hwalk, hb.atUpdate e hmem hp⟩
  | unmapped s hs hppa =>
    refine ⟨rfl, hof, hwalk, owners_eq_none.mpr ?_⟩
    rw [← ht]
    exact hppa
  | differ s ppa hs hppa hd =>
    have hk := howner hppa
    refine ⟨rfl, hof, ?_, fun hp => by cases hp⟩
    rcases hd with hfp | hin
    · refine hnext hk fun he => hfp ?_
      have hfp' := ho.fp _ _ hk
      rw [he, ← ht] at hfp'
      rw [hof.2]
      exact hfp'.symm
    · obtain ⟨k, hk', hne⟩ := hb.filter _ _ (List.contains_iff_mem.mp hin)
      exact hnext hk' (hne e hmem).symm
  | sameKey s ppa hs hppa hkey =>
    refine ⟨rfl, hof, hwalk, fun _ => ?_⟩
    rw [hkey]
    exact howner hppa
  | otherKey s ppa hs hppa hkey =>
    exact ⟨rfl, hof, hnext (howner hppa) (Ne.symm hkey), fun hp => by cases hp⟩

/-! ## Section 5: Steps -/

/-- What an installation writes. -/
theorem install_memTable (f : Ftl) (m : MapUpdate) (s : Store) (e : WbEntry) (ppa : Nat) :
    (f.install cfg m s e ppa).store.cold.memTable =
      Function.update s.cold.memTable (getLpa cfg e.hParams) ⟨some ppa, e.hParams.keyFp⟩ := by
  exact Cold.update_memTable s.cold _ _

/-- The key of the entry becomes the owner of its slot. -/
theorem install_owners (cfg : Settings) {f : Ftl} (m : MapUpdate) {s : Store}
    (e : WbEntry) (ppa : Nat)
    (ht : s.cold.memTable = f.store.cold.memTable) :
    (f.install cfg m s e ppa).owners =
      Function.update f.owners (getLpa cfg e.hParams) (some e.key) := by
  funext lpa
  unfold Ftl.owners
  rw [install_memTable, ht]
  by_cases hl : lpa = getLpa cfg e.hParams
  · simp [hl, Ftl.install]
  · simp [hl, Ftl.install]

/-- The filter gets one more lpa. -/
theorem mem_dHtableInsert {ht : DHtable} {ppa lpa i l : Nat}
    (h : l ∈ dHtableInsert cfg ht ppa lpa i) : l ∈ ht i ∨ l = lpa := by
  unfold dHtableInsert at h
  by_cases hi : i = ppa % (cfg.maxWriteBuf * 2)
  · rw [hi, Function.update_self, List.mem_append, List.mem_singleton] at h
    rw [hi]
    exact h
  · rw [Function.update_of_ne hi] at h
    exact Or.inl h

/-- The end of an entry: it owns its slot, and the slot is in the filter. -/
theorem Owned.install {f : Ftl} {m : MapUpdate} {s : Store} {e₀ e : WbEntry} {ppa : Nat}
    (ho : Owned cfg hs f) (hb : Batch cfg hs f (e₀ :: (m.retry ++ m.master)))
    (hk : e.key = e₀.key) (hof : e.hParams.Of hs e₀.key)
    (hw : Walked (probeLpa cfg hs) f.owners e₀.key e.hParams.cnt)
    (hslot : f.owners (getLpa cfg e.hParams) = none ∨
      f.owners (getLpa cfg e.hParams) = some e₀.key)
    (ht : s.cold.memTable = f.store.cold.memTable) : Owned cfg hs (f.install cfg m s e ppa) := by
  have how := install_owners cfg m e ppa ht
  rw [hk] at how
  have hext : Extends f.owners (f.install cfg m s e ppa).owners := by
    rw [how]
    exact .update hslot
  refine ⟨?_, fun lpa k hl => ?_, ho.sorted, ho.fresh, ?_⟩
  · rw [how, hof.getLpa]
    rw [hof.getLpa] at hslot
    exact ho.placed.insert hw hslot
  · rw [install_memTable, ht]
    rw [how] at hl
    by_cases hs : lpa = getLpa cfg e.hParams
    · rw [hs, Function.update_self, Option.some.injEq] at hl
      rw [hs, Function.update_self, ← hl]
      exact hof.2
    · rw [Function.update_of_ne hs] at hl ⊢
      exact ho.fp lpa k hl
  -- The entries that are left have other keys.
  · have hd := hb.distinct
    rw [List.map_cons, List.nodup_cons] at hd
    have hlater : ∀ x ∈ m.retry ++ m.master, x.key ≠ e₀.key := fun x hx he =>
      hd.1 (he ▸ List.mem_map_of_mem hx)
    have hmem : ∀ x ∈ m.retry ++ m.master, x ∈ e₀ :: (m.retry ++ m.master) :=
      fun x hx => List.mem_cons_of_mem _ hx
    exact {
      distinct := hd.2
      params := fun x hx => hb.params x (hmem x hx)
      walked := fun x hx => (hb.walked x (hmem x hx)).extends hext
      atUpdate := fun x hx hp => hext _ _ (hb.atUpdate x (hmem x hx) hp)
      filter := fun i lpa hi => by
        rcases mem_dHtableInsert hi with hi | rfl
        · obtain ⟨k, hk', hne⟩ := hb.filter i lpa hi
          exact ⟨k, hext _ _ hk', fun x hx => hne x (hmem x hx)⟩
        · refine ⟨e₀.key, ?_, hlater⟩
          rw [how, Function.update_self]
      accounted := fun x hx => by
        rcases hb.accounted x hx with ⟨y, hy, hyk⟩ | ⟨lpa, hl⟩
        · rcases List.mem_cons.mp hy with rfl | hy
          · refine Or.inr ⟨getLpa cfg e.hParams, ?_⟩
            rw [how, Function.update_self, hyk]
          · exact Or.inl ⟨y, hy, hyk⟩
        · exact Or.inr ⟨lpa, hext _ _ hl⟩ }

/-- A step that only moves the phase, outside of a mapping update. -/
theorem Owned.setPhase {f f' : Ftl} (ho : Owned cfg hs f)
    (ht : f'.store.cold.memTable = f.store.cold.memTable) (hk : f'.realKeys = f.realKeys)
    (hm : f'.maxTry = f.maxTry) (hw : f'.wb = f.wb) (hb : f'.phase.Batch cfg hs f') :
    Owned cfg hs f' where
  placed := by
    rw [owners_eq_of_memTable ht hk, hm]
    exact ho.placed
  fp lpa k := by
    rw [owners_eq_of_memTable ht hk, ht]
    exact ho.fp lpa k
  sorted := hw ▸ ho.sorted
  fresh := hw ▸ ho.fresh
  batch := hb

/-- An assignment that relocates mapped slots only keeps the owners. -/
theorem owners_eq_of_keepsSlots {f f' : Ftl} (hkeep : KeepsSlots f.store.cold f'.store.cold)
    (hnew : ∀ lpa, (f.store.cold.memTable lpa).ppa = none → (f'.store.cold.memTable lpa).ppa = none)
    (hk : f'.realKeys = f.realKeys) : f'.owners = f.owners := by
  funext lpa
  by_cases hn : (f.store.cold.memTable lpa).ppa = none
  · rw [owners_eq_none.mpr hn, owners_eq_none.mpr (hnew lpa hn)]
  · have hs := (hkeep lpa).2 (Option.isSome_iff_ne_none.mpr hn)
    rw [owners_eq_some.mpr ⟨hn, rfl⟩,
      owners_eq_some.mpr ⟨Option.isSome_iff_ne_none.mp hs, congrFun hk lpa⟩]

/-- An assignment maps no slot and unmaps none. -/
theorem Step.keepsSlots {f f' : Ftl} (h : Step cfg hs f .assign f') :
    KeepsSlots f.store.cold f'.store.cold :=
  (gcInvariant_keepsSlots f.store.cold).assign (fun _ _ _ _ => trivial) (fun _ => ⟨rfl, id⟩) h

/-- The ownership behind an assignment. -/
theorem Owned.assigned {f f' : Ftl} (ho : Owned cfg hs f)
    (hkeep : KeepsSlots f.store.cold f'.store.cold) (how : f'.owners = f.owners)
    (hm : f'.maxTry = f.maxTry) (hw : SameEntries f.wb f'.wb)
    (hb : f'.phase.Batch cfg hs f') : Owned cfg hs f' := by
  refine ⟨?_, fun lpa k hl => ?_, hw.sorted ho.sorted, fun e he => ?_, hb⟩
  · rw [how, hm]
    exact ho.placed
  · rw [(hkeep lpa).1]
    rw [how] at hl
    exact ho.fp lpa k hl
  · obtain ⟨x, hx, h1, h2, h3⟩ := hw.exists_mem he
    have hfresh := ho.fresh x hx
    exact ⟨by rw [← h2, ← h1]; exact hfresh.1, by rw [← h3]; exact hfresh.2⟩

/-- The end of a set: nothing is pending any more. -/
theorem Owned.insert {f : Ftl} (req : SetRequest)
    (hplaced : WellPlaced (probeLpa cfg hs) f.owners f.maxTry)
    (hfp : ∀ lpa k, f.owners lpa = some k →
      (f.store.cold.memTable lpa).keyFp = hs.hashingKeyFp k)
    (hsorted : WbSorted f.wb) (hfresh : ∀ e ∈ f.wb, e.Fresh hs) (ht : ∀ i, f.hashTable i = []) :
    Owned cfg hs (f.insert hs req) where
  placed := hplaced
  fp := hfp
  sorted := hsorted.insert
  fresh e he := by
    rcases mem_wbInsert he with he | ⟨hk, hh, hp⟩
    · exact hfresh e he
    · refine ⟨by rw [hh, hk], ?_⟩
      rcases hp with hp | ⟨x, hx, hp⟩
      · exact hp
      · rw [hp]
        exact (hfresh x hx).2
  batch := ht

/-- And when the batch is assigned. -/
theorem Owned.endAssign {f : Ftl} (ho : Owned cfg hs f) (req : SetRequest)
    (ht : ∀ i, f.hashTable i = []) : Owned cfg hs (f.endAssign req) where
  placed := ho.placed
  fp := ho.fp
  sorted := ho.sorted
  fresh := ho.fresh
  batch := {
    distinct := ho.sorted.keys_nodup
    params := fun e he => by
      rw [(ho.fresh e he).1]
      exact makeHashParams_of hs e.key
    walked := fun e he => by
      rw [(ho.fresh e he).1]
      exact .zero _ _ _
    atUpdate := fun e he hp => by
      rw [(ho.fresh e he).2] at hp
      cases hp
    filter := fun i lpa hi => by
      have hi' : lpa ∈ f.hashTable i := hi
      rw [ht i] at hi'
      cases hi'
    accounted := fun e he => Or.inl ⟨e, he, rfl⟩ }

/-- The current entry is the first pending one. -/
theorem Owned.current {f : Ftl} (ho : Owned cfg hs f) {m : MapUpdate} {e : WbEntry}
    (hp : f.phase = .mapping m) (hc : m.cur = some e) :
    Batch cfg hs f (e :: (m.retry ++ m.master)) := by
  have hb := ho.batch
  rw [hp] at hb
  have hl : m.pending = e :: (m.retry ++ m.master) := by simp [MapUpdate.pending, hc]
  rw [← hl]
  exact hb

/-- Every step keeps the ownership. -/
theorem Owned.step {f f' : Ftl} {a : Label} (ho : Owned cfg hs f)
    (hok : relocatesMapped cfg hs f a) (hn : Ftl.next cfg hs f a = some f') :
    Owned cfg hs f' := by
  have hb := ho.batch
  cases Step.of_next hn with
  | get key hp =>
    rw [hp] at hb
    exact ho.setPhase rfl rfl rfl rfl hb
  | resume i r hp =>
    rw [hp] at hb
    exact ho.setPhase rfl rfl rfl rfl hb
  | getPass choice r s ex hp hd =>
    rw [hp] at hb
    have ht := (GetPath.of_pass hd).memTable
    cases ex with
    | again r' => exact ho.setPhase ht rfl rfl rfl hb
    | ret rcMax finish retry => exact ho.setPhase ht rfl rfl rfl hb
  | setFull key bytes hp =>
    rw [hp] at hb
    exact ho.setPhase rfl rfl rfl rfl hb
  | setInsert key bytes hp =>
    rw [hp] at hb
    exact Owned.insert _ ho.placed ho.fp ho.sorted ho.fresh hb
  | endAssign m hp =>
    rw [hp] at hb
    exact ho.endAssign m.req hb
  | assignEntry m e s fl pga hp hdone hds he ha =>
    rw [hp] at hb
    have hkeep := (Step.of_next hn).keepsSlots
    exact ho.assigned hkeep (owners_eq_of_keepsSlots hkeep (hok rfl _ hn) rfl) rfl (.setPpa ..) hb
  | assignPage m ppa s bm wb hp hdone hds ha hpl =>
    rw [hp] at hb
    have hkeep := (Step.of_next hn).keepsSlots
    exact ho.assigned hkeep (owners_eq_of_keepsSlots hkeep (hok rfl _ hn) rfl) rfl
      (.placeEntries hpl) hb
  | pickRetry i m e hp hc he =>
    rw [hp] at hb
    refine ho.setPhase rfl rfl rfl rfl ((Batch.perm hb ?_).congr rfl rfl rfl)
    simpa [MapUpdate.pending, hc] using ((perm_of_getElem? he).append_right m.master)
  | pickMaster m e master hp hc he =>
    rw [hp] at hb
    refine ho.setPhase rfl rfl rfl rfl ((Batch.perm hb ?_).congr rfl rfl rfl)
    simpa [MapUpdate.pending, hc, he] using List.perm_middle.symm
  | wbAgain choice m e s e' hp hc hw =>
    have hb := ho.current hp hc
    obtain ⟨hk, hof, hwalk, hu⟩ := (WbPath.of_pass hw).2.exit_ok ho hb
    have ht := (WbPath.of_pass hw).2.memTable
    refine ho.setPhase ht rfl rfl rfl ?_
    exact (hb.replace hk hof hwalk hu).congr (owners_eq_of_memTable ht rfl) rfl rfl
  | wbParked choice m e s e' hp hc hw =>
    have hb := ho.current hp hc
    obtain ⟨hk, hof, hwalk, hu⟩ := (WbPath.of_pass hw).2.exit_ok ho hb
    have ht := (WbPath.of_pass hw).2.memTable
    refine ho.setPhase ht rfl rfl rfl ?_
    refine ((hb.replace hk hof hwalk hu).perm ?_).congr (owners_eq_of_memTable ht rfl) rfl rfl
    simp [MapUpdate.pending, List.perm_middle]
  -- The slot belongs to the key already.
  | wbUpdate choice m e s e' ppa hp hc hw hppa =>
    have hb := ho.current hp hc
    obtain ⟨hk, hof, hwalk, hslot⟩ := (WbPath.of_pass hw).2.exit_ok ho hb
    have ht := (WbPath.of_pass hw).2.memTable
    refine ho.install hb hk hof hwalk (Or.inr hslot) ?_
    rw [wbInvalidateOld_cold]
    exact ht
  -- The slot belongs to nobody yet.
  | wbDirectUpdate choice m e s e' ppa hp hc hw hppa =>
    have hb := ho.current hp hc
    obtain ⟨hk, hof, hwalk, hslot⟩ := (WbPath.of_pass hw).2.exit_ok ho hb
    exact ho.install hb hk hof hwalk (Or.inl hslot) (WbPath.of_pass hw).2.memTable
  | flush m ssd hp hc hu hm hr =>
    exact Owned.insert m.req ho.placed ho.fp List.Pairwise.nil
      (fun _ hx => by cases hx) fun _ => rfl
  | promote page hp =>
    rw [hp] at hb
    exact ho.setPhase (promoteHot_memTable f.store page) rfl rfl rfl (by rw [hp]; exact hb)
  | rehashBegin hp =>
    rw [hp] at hb
    exact ho.setPhase rfl rfl rfl rfl (by rw [hp]; exact hb)
  | rehashTick hp =>
    rw [hp] at hb
    exact ho.setPhase rfl rfl rfl rfl (by rw [hp]; exact hb)

/-! ## Section 6: Runs -/

/-- No step takes a slot from its owner. -/
theorem Owned.extends {f f' : Ftl} {a : Label} (ho : Owned cfg hs f)
    (hok : relocatesMapped cfg hs f a) (hn : Ftl.next cfg hs f a = some f') :
    Extends f.owners f'.owners := by
  cases Step.of_next hn with
  | getPass choice r s ex hp hd =>
    have ht := (GetPath.of_pass hd).memTable
    cases ex with
    | again r' => exact .of_eq (owners_eq_of_memTable ht rfl)
    | ret rcMax finish retry => exact .of_eq (owners_eq_of_memTable ht rfl)
  | assignEntry m e s fl pga hp hdone hds he ha =>
    exact .of_eq (owners_eq_of_keepsSlots (Step.of_next hn).keepsSlots (hok rfl _ hn) rfl)
  | assignPage m ppa s bm wb hp hdone hds ha hpl =>
    exact .of_eq (owners_eq_of_keepsSlots (Step.of_next hn).keepsSlots (hok rfl _ hn) rfl)
  | wbAgain choice m e s e' hp hc hw | wbParked choice m e s e' hp hc hw =>
    exact .of_eq (owners_eq_of_memTable (WbPath.of_pass hw).2.memTable rfl)
  -- The slot had this owner already.
  | wbUpdate choice m e s e' ppa hp hc hw hppa =>
    obtain ⟨hk, -, -, hslot⟩ := (WbPath.of_pass hw).2.exit_ok ho (ho.current hp hc)
    have ht : (wbInvalidateOld cfg s (getLpa cfg e'.hParams)).cold.memTable =
        f.store.cold.memTable := by
      rw [wbInvalidateOld_cold]
      exact (WbPath.of_pass hw).2.memTable
    rw [install_owners cfg m e' ppa ht, hk]
    exact .update (Or.inr hslot)
  -- The slot was free.
  | wbDirectUpdate choice m e s e' ppa hp hc hw hppa =>
    obtain ⟨-, -, -, hslot⟩ := (WbPath.of_pass hw).2.exit_ok ho (ho.current hp hc)
    rw [install_owners cfg m e' ppa (WbPath.of_pass hw).2.memTable]
    exact .update (Or.inl hslot)
  | promote page hp =>
    exact .of_eq (owners_eq_of_memTable (promoteHot_memTable f.store page) rfl)
  | get | resume | setFull | setInsert | endAssign | pickRetry | pickMaster | flush | rehashBegin
  | rehashTick => exact Extends.refl _

/-- A created table has no owners. -/
theorem create_owned {garbage : Nat → Key} {f : Ftl} (h : Ftl.create cfg garbage = some f) :
    Owned cfg hs f := by
  obtain ⟨s, hs, rfl⟩ := Option.map_eq_some_iff.mp h
  obtain ⟨bm, -, rfl⟩ := Option.map_eq_some_iff.mp hs
  have hnone : ∀ lpa k, ¬(if (Cold.create cfg).memTable lpa |>.ppa.isSome then
      some (garbage lpa) else none) = some k := fun lpa k hk => by cases hk
  exact ⟨fun lpa k hl => absurd hl (hnone lpa k), fun lpa k hl => absurd hl (hnone lpa k),
    List.Pairwise.nil, (fun _ hx => by cases hx), fun _ => rfl⟩

/-- The ownership holds in every state of such a run. -/
theorem reach_owned {f : Ftl} (h : (machine cfg hs).Reach (relocatesMapped cfg hs) f) :
    Owned cfg hs f :=
  h.invariant (fun _ ⟨_, hi⟩ => create_owned hi) fun _ _ _ _ ih hok hn => ih.step hok hn

/-- Along a run, owners only get more. -/
theorem Owned.exec : ∀ {as : List Label} {f f' : Ftl}, Owned cfg hs f →
    (machine cfg hs).Along (relocatesMapped cfg hs) f as →
    (machine cfg hs).exec f as = some f' → Owned cfg hs f' ∧ Extends f.owners f'.owners
  | [], f, f', ho, _, he => by
      cases he
      exact ⟨ho, Extends.refl _⟩
  | a :: as, f, f', ho, hal, he => by
      obtain ⟨g, hg, he⟩ := Option.bind_eq_some_iff.mp he
      obtain ⟨h₁, h₂⟩ := (ho.step hal.1 hg).exec (hal.2 g hg) he
      exact ⟨h₁, (ho.extends hal.1 hg).trans h₂⟩

/-- A mapped slot keeps its owner and fingerprint, no key owns two slots, the slots
    before a key's slot belong to other keys, and every key of a batch gets a slot. -/
theorem slot_ownership {f : Ftl} (h : (machine cfg hs).Reach (relocatesMapped cfg hs) f) :
    (∀ as f', (machine cfg hs).Along (relocatesMapped cfg hs) f as →
      (machine cfg hs).exec f as = some f' →
      ∀ lpa, (f.store.cold.memTable lpa).ppa ≠ none →
        (f'.store.cold.memTable lpa).ppa ≠ none ∧ f'.realKeys lpa = f.realKeys lpa ∧
          (f'.store.cold.memTable lpa).keyFp = (f.store.cold.memTable lpa).keyFp) ∧
    (∀ lpa lpa', (f.store.cold.memTable lpa).ppa ≠ none → (f.store.cold.memTable lpa').ppa ≠ none →
      f.realKeys lpa = f.realKeys lpa' → lpa = lpa') ∧
    (∀ lpa, (f.store.cold.memTable lpa).ppa ≠ none →
      ∃ c, probeLpa cfg hs (f.realKeys lpa) c = lpa ∧ ∀ c' < c,
        (f.store.cold.memTable (probeLpa cfg hs (f.realKeys lpa) c')).ppa ≠ none ∧
        f.realKeys (probeLpa cfg hs (f.realKeys lpa) c') ≠ f.realKeys lpa) ∧
    (∀ m, f.phase = .mapping m → m.pending = [] →
      ∀ e ∈ f.wb, ∃ lpa, (f.store.cold.memTable lpa).ppa ≠ none ∧ f.realKeys lpa = e.key) := by
  have ho := reach_owned h
  refine ⟨fun as f' hal he lpa hl => ?_, fun lpa lpa' hl hl' hk => ?_, fun lpa hl => ?_,
    fun m hp hnil e he => ?_⟩
  · obtain ⟨ho', hext⟩ := ho.exec hal he
    have hown : f.owners lpa = some (f.realKeys lpa) := owners_eq_some.mpr ⟨hl, rfl⟩
    have hown' := hext _ _ hown
    obtain ⟨hmapped, hkey⟩ := owners_eq_some.mp hown'
    refine ⟨hmapped, hkey, ?_⟩
    rw [ho'.fp _ _ hown', ho.fp _ _ hown]
  · exact ho.placed.unique (owners_eq_some.mpr ⟨hl, rfl⟩) (owners_eq_some.mpr ⟨hl', hk.symm⟩)
  · obtain ⟨c, -, hc, hw⟩ := ho.placed lpa _ (owners_eq_some.mpr ⟨hl, rfl⟩)
    refine ⟨c, hc, fun c' hlt => ?_⟩
    obtain ⟨k', hk', hne⟩ := hw c' hlt
    obtain ⟨hmapped, hkey⟩ := owners_eq_some.mp hk'
    exact ⟨hmapped, hkey ▸ hne⟩
  · have hb := ho.batch
    rw [hp] at hb
    -- Nothing is pending, so every key has its slot.
    rcases Batch.accounted hb e he with ⟨x, hx, _⟩ | ⟨lpa, hl⟩
    · rw [hnil] at hx
      cases hx
    · exact ⟨lpa, owners_eq_some.mp hl⟩

/-- While no collection of data pages is due, assignments relocate nothing. -/
theorem relocatesMapped_of_noGc {f : Ftl} {a : Label}
    (h : a = .assign → isGcNeeded cfg f.store.bm .data = false) : relocatesMapped cfg hs f a := by
  intro ha f' hn lpa hl
  have hgc := h ha
  subst ha
  cases Step.of_next hn with
  | endAssign => exact hl
  | assignEntry m e s fl pga hp hdone hds he ht =>
    have hc := (assignEntry_tables hgc ht).1
    show (s.cold.memTable lpa).ppa = none
    rw [hc]
    exact hl
  | assignPage m ppa s bm wb hp hdone hds ht =>
    have hc := (dpAlloc_tables hgc ht).1
    show (s.cold.memTable lpa).ppa = none
    rw [hc]
    exact hl

/-- `isGcNeeded` along a run, as a check. -/
def noDataGc (cfg : Settings) (f : Ftl) (a : Label) : Bool :=
  a ≠ .assign || !isGcNeeded cfg f.store.bm .data

/-- A write buffer of two entries. -/
def twoEntries : Settings :=
  .scaled false false 16 60 8 2 2 sixteen_pos nos_sixty eight_pos Nat.two_pos Nat.two_pos
    grains_fit_sixty

/-- Two new keys of one batch that start at the same slot with the same fingerprint: the
    filter sends the second one on. -/
theorem slot_ownership_collision :
    ∃ f : Ftl, (f.store.cold.memTable 0).ppa ≠ none ∧ f.realKeys 0 = byteKey 1 ∧
      (f.store.cold.memTable 2).ppa ≠ none ∧ f.realKeys 2 = byteKey 2 ∧
      ∀ lpa lpa', (f.store.cold.memTable lpa).ppa ≠ none →
        (f.store.cold.memTable lpa').ppa ≠ none → f.realKeys lpa = f.realKeys lpa' →
        lpa = lpa' := by
  obtain ⟨f, hf, hp⟩ := exists_reach_of_run twoEntries zeroHash (noDataGc twoEntries)
    [.set (byteKey 1) 100, .set (byteKey 2) 100, .set (byteKey 3) 100, .assign, .assign,
      .pickMaster, .wbPass .keep, .pickMaster, .wbPass .keep, .wbPass .keep, .flush]
    (fun f => (f.store.cold.memTable 0).ppa.isSome && f.realKeys 0 = byteKey 1 &&
      (f.store.cold.memTable 2).ppa.isSome && f.realKeys 2 = byteKey 2)
    (by decide +kernel) (by decide +kernel)
  simp only [Bool.and_eq_true, decide_eq_true_eq, Option.isSome_iff_ne_none] at hp
  have hr : (machine twoEntries zeroHash).Reach (relocatesMapped twoEntries zeroHash) f :=
    hf.mono fun g a hok => relocatesMapped_of_noGc fun ha => by simpa [noDataGc, ha] using hok
  exact ⟨f, hp.1.1.1, hp.1.1.2, hp.1.2, hp.2, (slot_ownership hr).2.1⟩

end AggreKV.HashKv
