import AggreKV.LsmTree.Leveling
import AggreKV.LsmTree.Store

/-! # The order of the levels

    Every level stays in order, whatever is flushed and however far a cascade
    goes.

    * `levelingTarget_ok`: the step, with a case for each builder of runs.
    * `Store.Ok`: the invariant of the store.
    * `levels_ordered`: what lookup and merge rely on, in every state between
      requests and between the compactions of a request. -/

namespace AggreKV.LsmTree

open SortedEntries

/-! ## Section 1: Merged pages -/

/-- Without pages there is nothing to read the first key from. -/
theorem arrayPipeMerger_nil_left (padding : Nat) (o : List Meta) :
    arrayPipeMerger padding [] o = none := by
  unfold arrayPipeMerger
  have hnone : pbodyGetNextKey (pbodyInit [] 0) = none := rfl
  simp only [List.length_nil, hnone]
  cases pbodyGetNextKey (pbodyInit o o.length) <;> simp

theorem arrayPipeMerger_nil_right (padding : Nat) (u : List Meta) :
    arrayPipeMerger padding u [] = none := by
  unfold arrayPipeMerger
  have hnone : pbodyGetNextKey (pbodyInit [] 0) = none := rfl
  simp only [List.length_nil, hnone]
  simp

theorem PageList.pages {ms : List Meta} (h : PageList ms) (hne : ms ≠ []) : Pages ms :=
  ⟨hne, h.filled, h.valid, h.increasing⟩

/-- The pages and the superseded addresses of a merge that does not abort. -/
theorem pipeMerger_some {u o pages : List Meta} {inv : List Nat} (hu : PageList u)
    (ho : PageList o) (h : pipeMerger u o = some (pages, inv)) :
    Pages u ∧ Pages o ∧ pages = metaPages (merged u o) ∧
      inv = superseded (untilEnd u.flatten) (untilEnd o.flatten) := by
  obtain ⟨⟨rp, inv'⟩, hmerge, heq⟩ := Option.map_eq_some_iff.mp h
  cases heq
  have hune : u ≠ [] := by
    rintro rfl
    rw [arrayPipeMerger_nil_left] at hmerge
    cases hmerge
  have hone : o ≠ [] := by
    rintro rfl
    rw [arrayPipeMerger_nil_right] at hmerge
    cases hmerge
  obtain ⟨hcut, hinv, -⟩ := arrayPipeMerger_pages (hu.pages hune) (ho.pages hone) hmerge
  exact ⟨hu.pages hune, ho.pages hone, hcut, hinv⟩

theorem merged_isUnion {u o : List Meta} (hu : Pages u) (ho : Pages o) :
    IsUnion (untilEnd u.flatten) (untilEnd o.flatten) (merged u o) :=
  union_isUnion (hu.increasing.sublist (untilEnd_sublist _))
    (ho.increasing.sublist (untilEnd_sublist _))

theorem merged_valid {u o : List Meta} (hu : Pages u) (ho : Pages o) : Valid (merged u o) := by
  intro e he
  rcases (merged_isUnion hu ho).mem_or he with he | he
  · exact hu.valid e ((untilEnd_sublist _).subset he)
  · exact ho.valid e ((untilEnd_sublist _).subset he)

/-- A level built from the pages of a merge. -/
theorem compactionSubprocessing_ok {par : TreeParams} {u o : List Meta} {des t : Level}
    {inv : List Nat} (hu : PageList u) (ho : PageList o) (hdes : des.runs = [])
    (h : compactionSubprocessing par pipeMerger u o des = some (t, inv)) :
    t.Ok ∧ t.entries = merged u o ∧ inv = superseded (untilEnd u.flatten) (untilEnd o.flatten) := by
  obtain ⟨⟨pages, inv'⟩, hmerge, h⟩ := Option.bind_eq_some_iff.mp h
  obtain ⟨t', ht, heq⟩ := Option.map_eq_some_iff.mp h
  cases heq
  obtain ⟨hu', ho', rfl, rfl⟩ := pipeMerger_some hu ho hmerge
  obtain ⟨runs, rfl, hpages, htight⟩ := insertPages_some ht
  have hentries : Level.entries { des with runs := des.runs ++ runs } = merged u o := by
    rw [entries_eq_flatten]
    show (List.map Run.page (des.runs ++ runs)).flatten = _
    rw [hdes, List.nil_append, hpages, metaPages_flatten]
  refine ⟨⟨⟨?_, ?_⟩, ?_⟩, hentries, rfl⟩
  · show ∀ r ∈ des.runs ++ runs, r.Tight
    rw [hdes]
    exact htight
  · rw [hentries]
    exact (merged_isUnion hu' ho').increasing
  · rw [hentries]
    exact merged_valid hu' ho'

/-! ## Section 2: One leveling -/

/-- What a leveling needs of its source: the memtable in order, or a level in order. -/
def Source.Sorted : Source → Prop
  | .mem l => MemOrdered l
  | .level upper => upper.Ok

theorem arrayInit_ok (size idx : Nat) : (arrayInit size idx).Ok :=
  ⟨⟨fun _ hr => absurd hr List.not_mem_nil, increasing_nil⟩,
    fun _ he => absurd he List.not_mem_nil⟩

/-- An empty target takes the run of the memtable, or the runs of the source. -/
theorem compactionEmptyLevel_ok {par : TreeParams} {s : Source} (hs : s.Sorted) {des t : Level}
    (hdes : des.runs = []) (h : compactionEmptyLevel par s des = some t) :
    t.Ok ∧ t.entries = s.entries := by
  cases s with
  -- The memtable becomes one run of one page.
  | mem l =>
      obtain ⟨r, hr, hins⟩ := Option.bind_eq_some_iff.mp h
      obtain ⟨hpage, htight⟩ := arrayMemCvt2table_some hr
      obtain ⟨-, rfl⟩ := arrayInsert_eq_some.mp hins
      have ho : MemOrdered l := hs
      have hentries : Level.entries { des with runs := des.runs ++ [r] } = memPage l := by
        show (des.runs ++ [r]).flatMap Run.page = _
        rw [hdes, List.nil_append, List.flatMap_singleton, hpage]
      have hsource : Source.entries (.mem l) = memPage l := List.flatten_singleton
      refine ⟨⟨⟨?_, ?_⟩, ?_⟩, hentries.trans hsource.symm⟩
      · show ∀ r' ∈ des.runs ++ [r], r'.Tight
        rw [hdes]
        exact List.forall_mem_singleton.mpr htight
      · rw [hentries]
        exact ho.increasing_memPage
      · rw [hentries]
        exact ho.valid_memPage
  -- The runs of the upper level are taken over as they are.
  | level upper =>
      unfold compactionEmptyLevel arrayLevCopy at h
      simp only at h
      split_ifs at h with hsmall
      cases h
      have ho : upper.Ok := hs
      exact ⟨⟨⟨ho.ordered.tight, ho.ordered.increasing⟩, ho.valid⟩, entries_eq_flatten upper⟩

theorem Source.Sorted.pages_mem {l : Skiplist} (h : MemOrdered l) (hne : l ≠ []) :
    PageList [memPage l] := by
  refine ⟨fun m hm => ?_, ?_, ?_⟩
  · rw [List.mem_singleton.mp hm]
    exact fun hnil => hne (List.map_eq_nil_iff.mp hnil)
  · rw [List.flatten_singleton]
    exact h.valid_memPage
  · rw [List.flatten_singleton]
    exact h.increasing_memPage

theorem arrayRangeFindCompaction_sublist (l : Level) (s : Key) :
    (arrayRangeFindCompaction l s).Sublist l.runs := List.drop_sublist _ _

theorem upperRuns_sublist (par : TreeParams) (upper : Level) :
    (upperRuns par upper).Sublist upper.runs := by
  unfold upperRuns arrayCacheCompFormatting
  split_ifs with hcached
  · exact List.Sublist.refl _
  · exact arrayRangeFindCompaction_sublist upper keyMin

/-- The new target of a leveling, and the addresses it invalidates. -/
theorem levelingTarget_ok {par : TreeParams} {s : Source} (hs : s.Sorted) {to_ t : Level}
    (ht : to_.Ok) {inv : List Nat} (hne : ∀ l, s = .mem l → l ≠ [])
    (h : levelingTarget par pipeMerger to_ s = some (t, inv)) : t.Ok := by
  unfold levelingTarget at h
  -- Both the copy into an empty target and the merge leave a level that is in order.
  split_ifs at h with hempty
  · obtain ⟨t', hcopy, heq⟩ := Option.map_eq_some_iff.mp h
    cases heq
    exact (compactionEmptyLevel_ok hs rfl hcopy).1
  · have htarget := ht.pageList.sublist
      ((arrayRangeFindCompaction_sublist to_ keyMin).map Run.page)
    cases s with
    | mem l =>
        obtain ⟨page, hpage, hsub⟩ := Option.bind_eq_some_iff.mp h
        rw [arraySkipCvt2Data_eq hs] at hpage
        cases hpage
        exact (compactionSubprocessing_ok (Source.Sorted.pages_mem hs (hne l rfl)) htarget
          rfl hsub).1
    | level upper =>
        have ho : upper.Ok := hs
        unfold partialLeveling at h
        simp only at h
        split_ifs at h with hcant
        exact (compactionSubprocessing_ok
          (ho.pageList.sublist ((upperRuns_sublist par upper).map Run.page)) htarget rfl h).1

/-! ## Section 3: The store -/

/-- The memtable and every level in order. -/
structure Store.Ok (s : Store) : Prop where
  mem : MemOrdered s.mem
  disk : ∀ i, (s.disk i).Ok

/-- The levels with the source of a leveling emptied. -/
def sourceEmptied (disk : Disk) : Option Nat → Disk
  | none => disk
  | some i => Function.update disk i (arrayInit (disk i).mNum (disk i).idx)

theorem leveling_some {par : TreeParams} {merger : Merger} {disk disk' : Disk} {src : Option Nat}
    {mem : Skiplist} {to_ : Nat} {inv : List Nat}
    (h : leveling par merger disk src mem to_ = some (disk', inv)) :
    ∃ t, levelingTarget par merger (disk to_) (levelingSource disk src mem) = some (t, inv) ∧
      disk' = Function.update (sourceEmptied disk src) to_ t := by
  obtain ⟨⟨t, inv'⟩, ht, heq⟩ := Option.map_eq_some_iff.mp h
  cases src with
  | none =>
      cases heq
      exact ⟨t, ht, rfl⟩
  | some j =>
      cases heq
      exact ⟨t, ht, rfl⟩

theorem sourceEmptied_ok {disk : Disk} (hd : ∀ i, (disk i).Ok) (src : Option Nat) (i : Nat) :
    (sourceEmptied disk src i).Ok := by
  cases src with
  | none => exact hd i
  | some j =>
      show (Function.update disk j _ i).Ok
      by_cases hij : i = j
      · subst hij
        rw [Function.update_self]
        exact arrayInit_ok _ _
      · rw [Function.update_of_ne hij]
        exact hd i

theorem leveling_ok {par : TreeParams} {disk disk' : Disk} {src : Option Nat} {mem : Skiplist}
    {to_ : Nat} {inv : List Nat} (hd : ∀ i, (disk i).Ok)
    (hm : src = none → MemOrdered mem ∧ mem ≠ [])
    (h : leveling par pipeMerger disk src mem to_ = some (disk', inv)) : ∀ i, (disk' i).Ok := by
  obtain ⟨t, ht, rfl⟩ := leveling_some h
  have htok : t.Ok := by
    cases src with
    | none =>
        have hne : ∀ l, Source.mem mem = .mem l → l ≠ [] := by
          rintro l ⟨⟩
          exact (hm rfl).2
        exact levelingTarget_ok (s := .mem mem) (hm rfl).1 (hd to_) hne ht
    | some j =>
        exact levelingTarget_ok (s := .level (disk j)) (hd j) (hd to_) (fun l hl => nomatch hl) ht
  intro i
  by_cases hi : i = to_
  · subst hi
    rwa [Function.update_self]
  · rw [Function.update_of_ne hi]
    exact sourceEmptied_ok hd src i

theorem Store.leveling_eq {cfg : Settings} {par : TreeParams} {s s' : Store} {src : Option Nat}
    {mem : Skiplist} {to_ : Nat} (h : s.leveling cfg par src mem to_ = some s') :
    ∃ disk inv, LsmTree.leveling par pipeMerger s.disk src mem to_ = some (disk, inv) ∧
      s' = { s with
        disk := disk
        flash := s.flash.invalidate cfg inv
        values := valuesAfter s src mem to_
        superseded := s.superseded ++ supersededValues s src mem to_
        invalidated := s.invalidated ++ inv } := by
  obtain ⟨⟨disk, inv⟩, hl, heq⟩ := Option.map_eq_some_iff.mp h
  exact ⟨disk, inv, hl, heq.symm⟩

/-- A property that every leveling of a compaction keeps. -/
theorem compactionCascading_rule {cfg : Settings} {par : TreeParams} {I : Store → Prop}
    (hstep : ∀ s s' i, I s → s.leveling cfg par (some i) [] (i + 1) = some s' → I s') :
    ∀ {n start : Nat} {s s' : Store}, I s → compactionCascading cfg par n start s = some s' →
      I s' := by
  intro n
  induction n with
  | zero =>
      intro start s s' hs h
      cases h
      exact hs
  | succ n ih =>
      intro start s s' hs h
      unfold compactionCascading at h
      split_ifs at h with hfull hlast
      · cases h
        exact hs
      · obtain ⟨s₁, hl, h⟩ := Option.bind_eq_some_iff.mp h
        exact ih (hstep s s₁ start hs hl) h
      · cases h
        exact hs

theorem Store.leveling_ok {cfg : Settings} {par : TreeParams} {s s' : Store} {src : Option Nat}
    {mem : Skiplist} {to_ : Nat} (hs : s.Ok) (hm : src = none → IsCut mem)
    (h : s.leveling cfg par src mem to_ = some s') : s'.Ok := by
  obtain ⟨disk, inv, hl, rfl⟩ := Store.leveling_eq h
  refine ⟨hs.mem, LsmTree.leveling_ok hs.disk (fun hn => ⟨(hm hn).ordered, ?_⟩) hl⟩
  intro hnil
  have hlen := (hm hn).two_le
  rw [hnil] at hlen
  simp at hlen

/-- What the writing of values and every leveling keep. -/
structure StoreInvariant (cfg : Settings) (par : TreeParams) (I : Store → Prop) : Prop where
  write : ∀ {s : Store} {t t' : Skiplist} {flash : Flash}, s.Ok → I s → IsCut t →
    skiplistMakeValueset cfg t s.flash = some (t', flash) → I { s with flash := flash }
  level : ∀ {s s' : Store} {src : Option Nat} {mem : Skiplist} {to_ : Nat}, s.Ok → I s →
    (src = none → IsCut mem) → s.leveling cfg par src mem to_ = some s' → I s'
  setMem : ∀ {s : Store} (mem : Skiplist), I s → I { s with mem := mem }

section Rule

variable {cfg : Settings} {par : TreeParams} {I : Store → Prop} (hI : StoreInvariant cfg par I)
include hI

theorem StoreInvariant.compactionMain {s s' : Store} {t : Skiplist} (hs : s.Ok ∧ I s)
    (ht : IsCut t) (h : compactionMain cfg par s t = some s') : s'.Ok ∧ I s' := by
  obtain ⟨⟨t', flash⟩, hwrite, h⟩ := Option.bind_eq_some_iff.mp h
  obtain ⟨s₁, hflush, h⟩ := Option.bind_eq_some_iff.mp h
  have hcut : IsCut t' := ht.of_keys (keys_skiplistMakeValueset hwrite)
  have hwritten : Store.Ok { s with flash := flash } := ⟨hs.1.mem, hs.1.disk⟩
  have hI' := hI.write hs.1 hs.2 ht hwrite
  refine compactionCascading_rule (I := fun s' => s'.Ok ∧ I s') ?_ ?_ h
  · rintro s₂ s₃ i ⟨hok, hinv⟩ hstep
    exact ⟨Store.leveling_ok hok (fun hn => by cases hn) hstep,
      hI.level hok hinv (fun hn => by cases hn) hstep⟩
  · exact ⟨Store.leveling_ok hwritten (fun _ => hcut) hflush,
      hI.level hwritten hI' (fun _ => hcut) hflush⟩

theorem StoreInvariant.compactionRequests {ts : List Skiplist} (hts : ∀ t ∈ ts, IsCut t)
    {s s' : Store} (hs : s.Ok ∧ I s) (h : compactionRequests cfg par ts s = some s') :
    s'.Ok ∧ I s' := by
  induction ts generalizing s with
  | nil =>
      cases h
      exact hs
  | cons t ts ih =>
      obtain ⟨s₁, hmain, h⟩ := Option.bind_eq_some_iff.mp h
      obtain ⟨ht, hts⟩ := List.forall_mem_cons.mp hts
      exact ih hts (hI.compactionMain hs ht hmain) h

end Rule

theorem lsmSetMem_ordered {key : Key} {bytes : Nat} {l l' : Skiplist} {b : Bool}
    (hl : MemOrdered l) (h : lsmSetMem key bytes l = some (l', b)) : MemOrdered l' := by
  obtain ⟨m, hins, heq⟩ := Option.map_eq_some_iff.mp h
  cases heq
  exact (isCut_compactionCheck hl).2.skiplistInsert hins

theorem StoreInvariant.lsmSet {cfg : Settings} {par : TreeParams} {I : Store → Prop}
    (hI : StoreInvariant cfg par I) {s s' : Store} {key : Key} {bytes : Nat} (hs : s.Ok ∧ I s)
    (h : lsmSet cfg par s key bytes = some s') : s'.Ok ∧ I s' := by
  obtain ⟨s₁, hreq, h⟩ := Option.bind_eq_some_iff.mp h
  obtain ⟨⟨mem, b⟩, hmem, rfl⟩ := Option.map_eq_some_iff.mp h
  obtain ⟨hok, hinv⟩ := hI.compactionRequests (isCut_compactionCheck hs.1.mem).1 hs hreq
  exact ⟨⟨lsmSetMem_ordered hs.1.mem hmem, hok.disk⟩, hI.setMem mem hinv⟩

theorem lsmCreate_ok {cfg : Settings} {par : TreeParams} {s : Store}
    (h : lsmCreate cfg par = some s) : s.Ok := by
  obtain ⟨⟨page, env⟩, -, rfl⟩ := Option.map_eq_some_iff.mp h
  exact ⟨.nil, fun i => arrayInit_ok _ _⟩

/-- The invariant rule for runs of the store. -/
theorem StoreInvariant.reachable {cfg : Settings} {par : TreeParams} {I : Store → Prop}
    (hI : StoreInvariant cfg par I) (hinit : ∀ s, lsmCreate cfg par = some s → I s) {s : Store}
    (h : (storeMachine cfg par).Reachable s) : s.Ok ∧ I s :=
  Machine.Reach.invariant (fun s hi => ⟨lsmCreate_ok hi, hinit s hi⟩)
    (fun s s' r _ hs _ hn =>
      hI.lsmSet hs (show LsmTree.lsmSet cfg par s r.key r.bytes = some s' from hn))
    h

theorem trivialInvariant (cfg : Settings) (par : TreeParams) :
    StoreInvariant cfg par fun _ => True :=
  ⟨fun _ _ _ _ => trivial, fun _ _ _ _ => trivial, fun _ _ => trivial⟩

theorem store_ok {cfg : Settings} {par : TreeParams} {s : Store}
    (h : (storeMachine cfg par).Reachable s) : s.Ok :=
  ((trivialInvariant cfg par).reachable (fun _ _ => trivial) h).1

/-- The runs of a level as a reader of the level relies on them: sorted and disjoint, each
    with the bounds of its page, which is increasing. -/
def Level.InOrder (l : Level) : Prop :=
  (l.runs.Pairwise fun r r' => r.endKey < r'.key) ∧
    ∀ r ∈ l.runs, r.page ≠ [] ∧ Increasing r.page ∧
      r.page.head?.map Prod.fst = some r.key ∧ r.page.getLast?.map Prod.fst = some r.endKey

theorem Level.Ordered.inOrder {l : Level} (h : l.Ordered) : l.InOrder := by
  obtain ⟨hruns, hpair⟩ := ordered_iff.mp h
  refine ⟨hpair, fun r hr => ?_⟩
  obtain ⟨htight, hincr⟩ := hruns r hr
  obtain ⟨hne, hfirst, hlast⟩ := Run.tight_iff.mp htight
  exact ⟨hne, hincr, hfirst, hlast⟩

/-- The levels are in order between requests, and within a request between one
    `compaction_main` and the next. -/
theorem levels_ordered {cfg : Settings} {par : TreeParams} {s : Store}
    (h : (storeMachine cfg par).Reachable s) (i : Nat) :
    (s.disk i).InOrder ∧
      ∀ ts s', ts <+: (compactionCheck s.mem).1 → compactionRequests cfg par ts s = some s' →
        (s'.disk i).InOrder := by
  have hok := store_ok h
  refine ⟨(hok.disk i).ordered.inOrder, fun ts s' hts hreq => ?_⟩
  have hcut : ∀ t ∈ ts, IsCut t := fun t ht =>
    (isCut_compactionCheck hok.mem).1 t (hts.subset ht)
  have hok' := (trivialInvariant cfg par).compactionRequests hcut ⟨hok, trivial⟩ hreq
  exact (hok'.1.disk i).ordered.inOrder

/-! ## Section 4: A run with a flush -/

/-- Key number `i` of 240 bytes: a page holds twelve of them. -/
def broadKey (i : Nat) : Key :=
  ⟨Fin.ofNat 256 i :: List.replicate 239 97,
    by rw [List.length_cons, List.length_replicate]; decide⟩

def broadSets (n : Nat) : List SetRequest :=
  (List.range n).reverse.map fun i => ⟨broadKey i, 100⟩

/-- The 65th request finds a memtable to be cut into five lists; two of them compacted, level
    0 has two runs, and all of them, five. -/
theorem levels_ordered_cut : ∃ s s' s'',
    (storeMachine shipped shippedTree).Reachable s ∧ (compactionCheck s.mem).1.length = 5 ∧
    compactionRequests shipped shippedTree ((compactionCheck s.mem).1.take 2) s = some s' ∧
    (s'.disk 0).runs.length = 2 ∧ (s'.disk 0).InOrder ∧
    (storeMachine shipped shippedTree).next s ⟨broadKey 0, 100⟩ = some s'' ∧
    (s''.disk 0).runs.length = 5 ∧ (s''.disk 0).InOrder := by
  have hrun : ((lsmCreate shipped shippedTree).bind fun s =>
      (storeMachine shipped shippedTree).exec s (broadSets 65).dropLast).any
        (fun s => decide ((compactionCheck s.mem).1.length = 5) &&
          (compactionRequests shipped shippedTree ((compactionCheck s.mem).1.take 2) s).any
            (fun s' => decide ((s'.disk 0).runs.length = 2)) &&
          ((storeMachine shipped shippedTree).next s ⟨broadKey 0, 100⟩).any
            (fun s'' => decide ((s''.disk 0).runs.length = 5))) = true := by decide +kernel
  obtain ⟨s, hs, hand⟩ := (Option.any_eq_true ..).mp hrun
  obtain ⟨s₀, hinit, hexec⟩ := Option.bind_eq_some_iff.mp hs
  have hreach := (Machine.Reachable.init hinit).exec hexec
  rw [Bool.and_eq_true, Bool.and_eq_true] at hand
  obtain ⟨⟨hfive, htwo⟩, hall⟩ := hand
  obtain ⟨s', hs', hlen'⟩ := (Option.any_eq_true ..).mp htwo
  obtain ⟨s'', hs'', hlen''⟩ := (Option.any_eq_true ..).mp hall
  refine ⟨s, s', s'', hreach, of_decide_eq_true hfive, hs', of_decide_eq_true hlen', ?_, hs'',
    of_decide_eq_true hlen'', ?_⟩
  · exact (levels_ordered hreach 0).2 _ _ (List.take_prefix ..) hs'
  · exact (levels_ordered (.step ⟨broadKey 0, 100⟩ hreach trivial hs'') 0).1

end AggreKV.LsmTree
