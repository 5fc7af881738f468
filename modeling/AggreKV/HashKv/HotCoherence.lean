import AggreKV.HashKv.Ownership

/-! # Coherence of the hot table

    The hot table copies mapping entries. The copies agree with the cold
    table in every run in which no entry is rewritten while it is copied:
    neither the mapping update of a flush nor that of a collection looks at
    the hot table.

    * `Agrees`: a copy and the entry it copies.
    * `Coherent`: the copies in the slots, and those a rehash has saved.
    * `staleHot_counterexample`: a promoted key is overwritten and read. -/

namespace AggreKV.HashKv

variable {cfg : Settings} {hs : Hashing}

/-! ## Section 1: The invariant -/

/-- A copy of the entry of a mapped slot. -/
def Agrees (t : Nat → Pte) (e : HotPte) : Prop :=
  ∀ l, e.lpa = some l → e.ppa = (t l).ppa ∧ e.keyFp = (t l).keyFp ∧ (t l).ppa ≠ none

structure Coherent (t : Nat → Pte) (h : Hot) : Prop where
  slot : ∀ i, Agrees t (h.memTable i)
  /-- Entries that a rehash has saved and not inserted yet. -/
  pending : ∀ e ∈ h.saved.drop h.insertIdx, Agrees t e
  collecting : h.phase = .collect → h.insertIdx = 0

/-- The hot table has a copy of the entry of `l`, or a rehash is about to restore one. -/
def Hot.Stores (h : Hot) (l : Nat) : Prop :=
  (∃ i, (h.memTable i).lpa = some l) ∨ ∃ e ∈ h.saved.drop h.insertIdx, e.lpa = some l

theorem Agrees.empty (t : Nat → Pte) : Agrees t .empty := fun _ h => by cases h

namespace Coherent

variable {t : Nat → Pte} {h : Hot}

/-- A slot may be overwritten with an entry that agrees with the cold table. -/
theorem setSlot (hc : Coherent t h) {e : HotPte} (he : Agrees t e) (i : Nat) :
    Coherent t (h.setSlot i e) where
  slot j := by
    show Agrees t (Function.update h.memTable i e j)
    by_cases hj : j = i
    · rw [hj, Function.update_self]
      exact he
    · rw [Function.update_of_ne hj]
      exact hc.slot j
  pending := hc.pending
  collecting := hc.collecting

/-- Rewriting the entry of a slot that has no copy. -/
theorem setPte (hc : Coherent t h) {l : Nat} (hl : ¬h.Stores l) (pte : Pte) :
    Coherent (Function.update t l pte) h where
  slot i k hk := by
    have hne : k ≠ l := fun he => hl (Or.inl ⟨i, he ▸ hk⟩)
    rw [Function.update_of_ne hne]
    exact hc.slot i k hk
  pending e he k hk := by
    have hne : k ≠ l := fun hkl => hl (Or.inr ⟨e, he, hkl ▸ hk⟩)
    rw [Function.update_of_ne hne]
    exact hc.pending e he k hk
  collecting := hc.collecting

/-- Only mapped slots are copied. -/
theorem not_stores (hc : Coherent t h) {l : Nat} (hl : (t l).ppa = none) : ¬h.Stores l := by
  rintro (⟨i, hi⟩ | ⟨e, he, hi⟩)
  · exact (hc.slot i l hi).2.2 hl
  · exact (hc.pending e he l hi).2.2 hl

/-! ## Section 2: Rehash -/

/-- An entry that is collected agrees where it is saved. -/
theorem collectSlot (hc : Coherent t h) : Coherent t h.collectSlot := by
  unfold Hot.collectSlot
  dsimp only
  split
  · exact ⟨hc.slot, hc.pending, hc.collecting⟩
  · refine ⟨(hc.setSlot (.empty t) h.scan).slot, fun e he => ?_, hc.collecting⟩
    dsimp only at he
    split at he
    · rw [List.drop_append] at he
      rcases List.mem_append.mp he with he | he
      · exact hc.pending e he
      · rw [List.mem_singleton.mp (List.mem_of_mem_drop he)]
        exact hc.slot h.scan
    · exact hc.pending e he

theorem collectLoop (hc : Coherent t h) (n : Nat) : Coherent t (h.collectLoop n) := by
  induction n generalizing h with
  | zero => exact hc
  | succ n ih =>
    unfold Hot.collectLoop
    split
    · exact ih hc.collectSlot
    · exact hc

/-- A saved entry goes to its slot as it is, or is lost. -/
theorem placeEntry (hc : Coherent t h) {e : HotPte} (he : Agrees t e) (lpa : Nat) :
    Coherent t (h.placeEntry e lpa) := by
  unfold Hot.placeEntry
  dsimp only
  split
  · exact hc.setSlot he _
  · exact hc

theorem placeEntry_saved (h : Hot) (e : HotPte) (lpa : Nat) :
    (h.placeEntry e lpa).saved = h.saved ∧ (h.placeEntry e lpa).phase = h.phase := by
  unfold Hot.placeEntry
  dsimp only
  split <;> exact ⟨rfl, rfl⟩

theorem insertEntry (hc : Coherent t h) {e : HotPte} (hi : h.saved[h.insertIdx]? = some e)
    (hp : h.phase = .insert) : Coherent t (h.insertEntry e) := by
  have hdrop : h.saved.drop h.insertIdx = e :: h.saved.drop (h.insertIdx + 1) := by
    obtain ⟨hlt, rfl⟩ := List.getElem?_eq_some_iff.mp hi
    exact List.drop_eq_getElem_cons hlt
  have he : Agrees t e := hc.pending e (hdrop ▸ List.mem_cons_self ..)
  have hrest : ∀ x ∈ h.saved.drop (h.insertIdx + 1), Agrees t x := fun x hx =>
    hc.pending x (hdrop ▸ List.mem_cons_of_mem _ hx)
  unfold Hot.insertEntry
  dsimp only
  split
  · next lpa hl =>
    have hpl := hc.placeEntry he lpa
    obtain ⟨hs, hph⟩ := placeEntry_saved h e lpa
    refine ⟨hpl.slot, fun x hx => hrest x ?_, fun hcol => ?_⟩
    · rw [← hs]
      exact hx
    · have hcol' : (h.placeEntry e lpa).phase = .collect := hcol
      rw [hph, hp] at hcol'
      cases hcol'
  · refine ⟨hc.slot, hrest, fun hcol => ?_⟩
    have hcol' : h.phase = .collect := hcol
    rw [hp] at hcol'
    cases hcol'

theorem insertEntry_phase (h : Hot) (e : HotPte) : (h.insertEntry e).phase = h.phase := by
  unfold Hot.insertEntry
  dsimp only
  split
  · exact (placeEntry_saved h e _).2
  · rfl

/-- A tick's worth of insertions keeps the coherence. -/
theorem insertLoop (hc : Coherent t h) (hp : h.phase = .insert) (n : Nat) :
    Coherent t (h.insertLoop n) := by
  induction n generalizing h with
  | zero => exact hc
  | succ n ih =>
    unfold Hot.insertLoop
    split
    · next e he =>
      have hphase := insertEntry_phase h e
      exact ih (hc.insertEntry he hp) (hphase.trans hp)
    · exact hc

theorem rehashFinish (hc : Coherent t h) : Coherent t h.rehashFinish :=
  ⟨hc.slot, (fun e he => by cases he), fun hp => by cases hp⟩

theorem collectLoop_phase (h : Hot) (n : Nat) : (h.collectLoop n).phase = h.phase ∧
    (h.collectLoop n).insertIdx = h.insertIdx := by
  induction n generalizing h with
  | zero => exact ⟨rfl, rfl⟩
  | succ n ih =>
    unfold Hot.collectLoop
    split
    · have hslot : h.collectSlot.phase = h.phase ∧ h.collectSlot.insertIdx = h.insertIdx := by
        unfold Hot.collectSlot
        dsimp only
        split <;> exact ⟨rfl, rfl⟩
      exact ⟨(ih _).1.trans hslot.1, (ih _).2.trans hslot.2⟩
    · exact ⟨rfl, rfl⟩

/-- And so does a tick. -/
theorem rehashTick (hc : Coherent t h) : Coherent t h.rehashTick := by
  unfold Hot.rehashTick
  split
  · exact hc
  · next hp =>
    have hloop := hc.collectLoop 32768
    obtain ⟨hphase, hidx⟩ := collectLoop_phase h 32768
    dsimp only
    split
    · -- All entries collected are pending from now on: the index was 0 already.
      refine ⟨hloop.slot, fun e he => hloop.pending e ?_, fun hcol => by cases hcol⟩
      rw [hidx, hc.collecting hp]
      exact he
    · exact hloop
  · next hp =>
    have hloop := hc.insertLoop hp 8192
    dsimp only
    split
    · exact hloop.rehashFinish
    · exact hloop

theorem rehashDrain (hc : Coherent t h) (n : Nat) : Coherent t (h.rehashDrain n) := by
  induction n generalizing h with
  | zero => exact hc
  | succ n ih =>
    unfold Hot.rehashDrain
    split
    · exact hc
    · exact ih hc.rehashTick

theorem rehashBegin (hc : Coherent t h) : Coherent t h.rehashBegin :=
  ⟨hc.slot, (fun e he => by cases he), fun _ => rfl⟩

/-- Slots that are cleared store nothing. -/
theorem clearPages (hc : Coherent t h) (lo hi : Nat) : Coherent t (h.clearPages lo hi) where
  slot i := by
    show Agrees t (if lo * 512 ≤ i ∧ i < hi * 512 then .empty else h.memTable i)
    split
    · exact .empty t
    · exact hc.slot i
  pending := hc.pending
  collecting := hc.collecting

theorem setMax (hc : Coherent t h) (n : Nat) : Coherent t { h with maxCachedHotTpages := n } :=
  ⟨hc.slot, hc.pending, hc.collecting⟩

/-! ## Section 3: Hits and promotion -/

/-- A hit moves the heat of a slot only. -/
theorem isHit (hc : Coherent t h) (cfg : Settings) (lpa : Nat) :
    Coherent t (h.isHit cfg lpa).2 := by
  unfold Hot.isHit
  split
  · next i _ =>
    have he : Agrees t { h.memTable i with state := heatRaise (h.memTable i).state } := hc.slot i
    exact hc.setSlot he i
  · dsimp only
    split
    · exact hc.rehashDrain 4
    · exact hc

/-- A promoted entry is copied from the cold table. -/
theorem placeGrain (hc : Coherent t h) {lpa : Nat} (hm : (t lpa).ppa ≠ none) (cnt : Nat) :
    Coherent t (h.placeGrain lpa (t lpa).ppa (t lpa).keyFp cnt) := by
  have he : Agrees t ⟨some lpa, (t lpa).ppa, min cnt 5, (t lpa).keyFp⟩ := fun l hl => by
    cases hl
    exact ⟨rfl, rfl, hm⟩
  unfold Hot.placeGrain
  dsimp only
  split
  · exact hc.setSlot he _
  · split
    · exact hc.setSlot he _
    · split
      · split
        · exact hc
        · exact hc.setSlot he _
      · exact hc

end Coherent

/-! ## Section 4: The operations of the store -/

def Store.Coherent (s : Store) : Prop := HashKv.Coherent s.cold.memTable s.hot

/-- A promotion copies the warm mapped entries of a page. -/
theorem promoteEntries_coherent (c : Cold) (page : Nat) : ∀ (is : List Nat) {h : Hot},
    Coherent c.memTable h → Coherent c.memTable (is.foldl (fun hot i =>
      if (c.memTable (page * 512 + i)).ppa.isSome ∧ 1 ≤ c.cntMap (page * 512 + i) then
        hot.placeGrain (page * 512 + i) (c.memTable (page * 512 + i)).ppa
          (c.memTable (page * 512 + i)).keyFp (c.cntMap (page * 512 + i))
      else hot) h)
  | [], _, hc => hc
  | i :: is, h, hc => by
      rw [List.foldl_cons]
      refine promoteEntries_coherent c page is ?_
      split
      · next hw => exact hc.placeGrain (Option.isSome_iff_ne_none.mp hw.1) _
      · exact hc

/-- A promotion of a page copies its grains. -/
theorem Store.Coherent.promoteHot {s : Store} (hc : s.Coherent) (page : Nat) :
    (s.promoteHot page).Coherent := by
  have hdrain := HashKv.Coherent.rehashDrain hc 8
  unfold Store.promoteHot
  generalize List.range 512 = is
  dsimp only
  split
  · exact hdrain
  · split
    · exact hc
    · split
      · exact hdrain
      · exact promoteEntries_coherent s.cold page is hc

/-- A rebalance resizes the table or leaves it alone. -/
theorem Store.Coherent.tryRebalance {s : Store} (hc : s.Coherent) (cfg : Settings)
    (choice : Rebalance) : (s.tryRebalance cfg choice).Coherent := by
  unfold Store.Coherent at hc
  unfold Store.tryRebalance Store.rebalance
  split
  · cases choice with
    | keep => exact hc
    | expandHot =>
      dsimp only
      split
      · exact hc
      · exact ((((hc.setMax _).clearPages _ _).rehashBegin).rehashDrain _)
    | expandKey =>
      dsimp only
      split <;> exact hc
    | shrinkHot =>
      dsimp only
      split
      · exact hc
      · exact ((((hc.clearPages _ _).setMax _).rehashBegin).rehashDrain _)
  · exact hc.rehashDrain 48

/-- Behind an eviction the page is promoted and the caches are rebalanced. -/
theorem Store.Coherent.afterEvict {s : Store} (hc : s.Coherent) (cfg : Settings) (victim : Nat)
    (choice : Rebalance) : (s.afterEvict cfg victim choice).Coherent := by
  unfold Store.afterEvict
  split
  · dsimp only
    split
    · split
      · refine Store.Coherent.tryRebalance ?_ cfg choice
        exact hc
      · exact hc
    · exact HashKv.Coherent.rehashDrain hc 16
  · exact hc

/-- Translation pages that move take their mappings with them. -/
theorem tpageInvariant_coherent : TpageInvariant fun c h => Coherent c.memTable h where
  setTPpa _ _ h := h
  written _ _ h := h

/-- A victim that is written back keeps its mappings. -/
theorem Store.Coherent.writeBack {s s' : Store} (hc : s.Coherent) {victim : Nat}
    (hw : s.writeBack cfg victim = some s') : s'.Coherent := by
  unfold Store.writeBack at hw
  split at hw
  · exact tpageInvariant_coherent.writeTpage hc hw
  · cases hw
    exact hc

/-- The coherence survives `dftl_cache_list_up`. -/
theorem listUpInvariant_coherent (cfg : Settings) : ListUpInvariant cfg Store.Coherent where
  promote page h := h.promoteHot page
  pop _ _ h := h
  count _ h := h
  evictPage {s _} victim h hw := Store.Coherent.writeBack (s := s.unload victim) h hw
  afterEvict victim choice h := h.afterEvict cfg victim choice
  resident _ h := h

/-- And every access to the caches. -/
theorem accessInvariant_coherent (cfg : Settings) : AccessInvariant cfg Store.Coherent where
  hot lpa h := HashKv.Coherent.isHit h cfg lpa
  grain lpa h := by
    show HashKv.Coherent (Cold.coldGrainAccess _ lpa).memTable _
    rw [Cold.coldGrainAccess_memTable]
    exact h
  touch lpa h := by
    show HashKv.Coherent (Cold.touch cfg _ lpa).memTable _
    rw [Cold.touch_memTable]
    exact h
  load lpa h hl := by
    unfold Store.load at hl
    dsimp only at hl
    split at hl
    · cases hl
    · cases hl
      exact h

/-- Collections leave the hot table alone, and rewrite entries without a copy only. -/
theorem gcInvariant_coherent (h₀ : Hot) :
    GcInvariant (fun l => ¬h₀.Stores l) fun c h => Coherent c.memTable h ∧ h = h₀ where
  setTPpa _ _ h := h
  written _ _ h := h
  grain lpa h := by
    rw [Cold.coldGrainAccess_memTable]
    exact h
  update lpa ppa hm h := by
    obtain ⟨hc, rfl⟩ := h
    rw [Cold.update_memTable]
    exact ⟨hc.setPte hm _, rfl⟩
  relocate lpa ppa hm h := by
    obtain ⟨hc, rfl⟩ := h
    exact ⟨hc.setPte hm _, rfl⟩

/-! ## Section 5: Runs -/

/-- The step rewrites no entry that the hot table has copied: not when it resumes at
    `GOTO_UPDATE`, and not for a live item of the victim it collects. -/
def hotSpared (cfg : Settings) (f : Ftl) (a : Label) : Prop :=
  (∀ choice m e, a = .wbPass choice → f.phase = .mapping m → m.cur = some e →
    e.params = some .update → ¬f.store.hot.Stores (getLpa cfg e.hParams)) ∧
  (∀ idx, a = .assign → f.gcStream cfg = some idx →
    ∀ it ∈ f.store.gcItems cfg idx, ¬f.store.hot.Stores it.lpa)

/-- A pass of the write buffer over an entry, up to its exit. -/
theorem WbPath.coherent {realKeys : Nat → Key} {ht : DHtable} {s₀ s : Store} {e : WbEntry}
    {choice : Rebalance} {ex : WbExit} (h : WbPath cfg realKeys ht s₀ e choice s ex)
    (hc : s₀.Coherent) : s.Coherent :=
  h.preserves (accessInvariant_coherent cfg)
    (fun _ _ _ _ h₁ hl => (listUpInvariant_coherent cfg).listUp h₁ hl) hc

/-- A pass of a get, up to its exit. -/
theorem GetPath.coherent {f : Ftl} {r : Request} {choice : Rebalance} {s : Store} {ex : GetExit}
    (h : GetPath cfg f r choice s ex) (hc : f.store.Coherent) : s.Coherent :=
  h.preserves (accessInvariant_coherent cfg)
    (fun _ _ _ hl => (listUpInvariant_coherent cfg).listUp hc hl) hc

/-- The mapping of an lpa may change while the hot table does not store it. -/
theorem install_coherent {f : Ftl} {m : MapUpdate} {s : Store} {e : WbEntry} {ppa : Nat}
    (hc : s.Coherent) (hl : ¬s.hot.Stores (getLpa cfg e.hParams)) :
    (f.install cfg m s e ppa).store.Coherent := by
  unfold Store.Coherent
  rw [install_memTable]
  exact HashKv.Coherent.setPte hc hl _

/-- A step that spares the stored entries keeps the coherence. -/
theorem Store.Coherent.step {f f' : Ftl} {a : Label} (hc : f.store.Coherent)
    (hok : hotSpared cfg f a) (hstep : Step cfg hs f a f') : f'.store.Coherent := by
  have hassign : a = .assign → f'.store.Coherent := fun ha => by
    subst ha
    exact ((gcInvariant_coherent f.store.hot).assign (fun idx hidx => hok.2 idx rfl hidx)
      ⟨hc, rfl⟩ hstep).1
  cases hstep with
  | getPass choice r s ex hp hd =>
    have hs := (GetPath.of_pass hd).coherent hc
    cases ex <;> exact hs
  | wbAgain choice m e s e' hp hcur hw | wbParked choice m e s e' hp hcur hw =>
    exact (WbPath.of_pass hw).2.coherent hc
  | wbUpdate choice m e s e' ppa hp hcur hw hppa =>
    -- The entry was parked at `GOTO_UPDATE`, the pass does nothing else.
    have hpath := (WbPath.of_pass hw).2
    have hs := hpath.coherent hc
    cases hpath with
    | update hpar =>
      refine install_coherent ?_ ?_
      · unfold Store.Coherent
        rw [wbInvalidateOld_cold, wbInvalidateOld_hot]
        exact hs
      · rw [wbInvalidateOld_hot]
        exact hok.1 choice m e rfl hp hcur hpar
  | wbDirectUpdate choice m e s e' ppa hp hcur hw hppa =>
    -- The slot is unmapped, so nothing was ever copied from it.
    have hpath := (WbPath.of_pass hw).2
    have hs := hpath.coherent hc
    cases hpath with
    | unmapped s hcheck hnone => exact install_coherent hs (HashKv.Coherent.not_stores hs hnone)
  | assignEntry | assignPage | endAssign => exact hassign rfl
  | promote page hp => exact hc.promoteHot page
  | rehashBegin hp => exact HashKv.Coherent.rehashBegin hc
  | rehashTick hp => exact HashKv.Coherent.rehashTick hc
  | get | resume | setFull | setInsert | pickRetry | pickMaster | flush => exact hc

/-- A created table is empty. -/
theorem create_coherent {garbage : Nat → Key} {f : Ftl} (h : Ftl.create cfg garbage = some f) :
    f.store.Coherent := by
  obtain ⟨s, hs, rfl⟩ := Option.map_eq_some_iff.mp h
  obtain ⟨bm, -, rfl⟩ := Option.map_eq_some_iff.mp hs
  exact ⟨fun i => .empty _, (fun e he => by cases he), fun hp => by cases hp⟩

/-- The coherence holds in every state of such a run. -/
theorem reach_coherent {f : Ftl} (h : (machine cfg hs).Reach (hotSpared cfg) f) :
    f.store.Coherent :=
  h.invariant (fun _ ⟨_, hi⟩ => create_coherent hi) fun _ _ _ _ ih hok hn =>
    ih.step hok (.of_next hn)

/-- A hit finds the slot of its lpa. -/
theorem isHit_lpa {h : Hot} {lpa i : Nat} (hi : (h.isHit cfg lpa).1 = some i) :
    ((h.isHit cfg lpa).2.memTable i).lpa = some lpa := by
  unfold Hot.isHit at hi ⊢
  split
  · next j hj =>
    rw [hj] at hi
    cases hi
    have hl : (h.memTable i).lpa = some lpa := by
      unfold Hot.hitSlot at hj
      split at hj
      · simpa using List.find?_some hj
      · cases hj
    show (Function.update h.memTable i _ i).lpa = some lpa
    rw [Function.update_self]
    exact hl
  · next hj =>
    rw [hj] at hi
    cases hi

/-- The slot that answers a get holds a copy of the looked-up entry. -/
theorem hotLookup_agrees {s s' : Store} {r : Request} {lpa : Nat} {pte : HotPte}
    (hc : s.Coherent) (h : hotLookup cfg s r lpa = (some pte, s')) :
    pte.lpa = some lpa ∧ Agrees s.cold.memTable pte := by
  have hhit := HashKv.Coherent.isHit hc cfg lpa
  unfold hotLookup at h
  split at h
  · dsimp only at h
    split at h
    · next i hi =>
      split at h
      · cases h
        exact ⟨isHit_lpa hi, hhit.slot i⟩
      · cases h
    · cases h
  · cases h

/-- While no copied entry is rewritten, every occupied slot of the hot table agrees with
    the cold table, and a get answered from it reads the address of the cold entry. -/
theorem hot_coherent {f : Ftl} (h : (machine cfg hs).Reach (hotSpared cfg) f) :
    (∀ i l, (f.store.hot.memTable i).lpa = some l →
      (f.store.hot.memTable i).ppa = (f.store.cold.memTable l).ppa ∧
        (f.store.hot.memTable i).keyFp = (f.store.cold.memTable l).keyFp) ∧
    (∀ r pte s, f.phase = .getting r →
      hotLookup cfg f.store r (getLpa cfg r.hParams) = (some pte, s) →
      pte.ppa = (f.store.cold.memTable (getLpa cfg r.hParams)).ppa) := by
  have hc := reach_coherent h
  refine ⟨fun i l hl => ?_, fun r pte s _ hh => ?_⟩
  · obtain ⟨h1, h2, -⟩ := hc.slot i l hl
    exact ⟨h1, h2⟩
  · obtain ⟨hl, ha⟩ := hotLookup_agrees hc hh
    exact (ha _ hl).1

/-! ## Section 6: Concrete runs -/

/-- A build with one hot page. -/
def hotBuild : Settings :=
  .scaled false true 16 60 8 1 2 sixteen_pos nos_sixty eight_pos Nat.one_pos Nat.two_pos
    grains_fit_sixty

/-- Runs without collections in which no key is overwritten. -/
def rewritesNothing (cfg : Settings) (f : Ftl) (a : Label) : Bool :=
  noDataGc cfg f a &&
    match a, f.phase with
    | .wbPass _, .mapping m => m.cur.all fun e => e.params ≠ some .update
    | _, _ => true

theorem hotSpared_of_check {f : Ftl} {a : Label} (h : rewritesNothing cfg f a = true) :
    hotSpared cfg f a := by
  unfold rewritesNothing at h
  rw [Bool.and_eq_true] at h
  refine ⟨fun choice m e ha hp hc hpar => ?_, fun idx ha hidx => ?_⟩
  · have h2 := h.2
    rw [ha, hp] at h2
    simp [hc, hpar] at h2
  · have hdue := gcDue_of_gcStream hidx
    have h1 := h.1
    rw [Store.gcDue, Bool.and_eq_true] at hdue
    simp [noDataGc, ha, hdue.1] at h1

/-- A key is flushed, read, promoted and read again from the hot table. -/
theorem hot_coherent_promoted :
    ∃ f : Ftl, (f.store.hot.memTable 0).lpa = some 512 ∧
      (f.store.hot.memTable 0).ppa = (f.store.cold.memTable 512).ppa := by
  obtain ⟨f, hf, hp⟩ := exists_reach_of_run hotBuild pageHash (rewritesNothing hotBuild)
    ([.set (byteKey 1) 100] ++ flushingSet 2 ++
      [.get (byteKey 1), .getPass .keep, .promote 1, .get (byteKey 1), .getPass .keep])
    (fun f => (f.store.hot.memTable 0).lpa = some 512) (by decide +kernel) (by decide +kernel)
  have hl := of_decide_eq_true hp
  exact ⟨f, hl, ((hot_coherent (hf.mono fun _ _ => hotSpared_of_check)).1 0 512 hl).1⟩

/-- Key 1 is flushed, read and promoted, then overwritten and flushed again. Its slot in
    the hot table keeps the old address, and the next get reads it. -/
theorem staleHot_counterexample :
    ∃ f, (machine hotBuild pageHash).Reachable f ∧ f.phase.requestIds = [] ∧
      (f.store.hot.memTable 0).lpa = some 512 ∧
      (f.store.hot.memTable 0).ppa = some 384 ∧ (f.store.cold.memTable 512).ppa = some 392 ∧
      f.finishQ.getLast? = some (5, .found 0 512 384) := by
  obtain ⟨f, hf, hp⟩ := exists_reachable_of_run hotBuild pageHash
    ([.set (byteKey 1) 100] ++ flushingSet 2 ++
      [.get (byteKey 1), .getPass .keep, .promote 1,
        .set (byteKey 1) 100, .assign, .assign, .pickMaster, .wbPass .keep, .flush,
        .set (byteKey 2) 100, .assign, .assign, .pickMaster, .wbPass .keep, .pickRetry 0,
        .wbPass .keep, .flush, .get (byteKey 1), .getPass .keep])
    (fun f => f.phase.requestIds.isEmpty && (f.store.hot.memTable 0).lpa = some 512 &&
      (f.store.hot.memTable 0).ppa = some 384 && (f.store.cold.memTable 512).ppa = some 392 &&
      f.finishQ.getLast? = some (5, .found 0 512 384)) (by decide +kernel)
  simp only [Bool.and_eq_true, List.isEmpty_iff, decide_eq_true_eq] at hp
  obtain ⟨⟨⟨⟨hidle, hl⟩, hhot⟩, hcold⟩, hlast⟩ := hp
  exact ⟨f, hf, hidle, hl, hhot, hcold, hlast⟩

end AggreKV.HashKv
