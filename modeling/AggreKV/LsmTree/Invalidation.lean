import AggreKV.LsmTree.LevelOrder

/-! # Accounting of superseded values

    What `invalidate_PPA` records about the values whose key has a newer
    version, against what happened to them.

    * `oobIsInvalid_false`: the guard against an invalidated address never
      fires, since `isvalid` is a `bool`.
    * `accounted_iff`: the accounting is right exactly as long as no merge has
      superseded a value. -/

namespace AggreKV.LsmTree

open SortedEntries

/-! ## Section 1: The property -/

/-- The pieces of the superseded values that lie in superblock `b`. -/
def supersededPieces (cfg : Settings) (vs : List OldValue) (b : Nat) : Nat :=
  ((vs.filterMap OldValue.home).filter fun h => decide (h.page / cfg.pps = b)).foldr
    (fun h n => h.pieces + n) 0

structure Accounted (cfg : Settings) (s : Store) : Prop where
  counted : ∀ b, (s.flash.env.sblk b).invalidCnt = supersededPieces cfg s.superseded b
  liveKept : ∀ i, ∀ e ∈ (s.disk i).entries, e.2 ∉ s.invalidated
  guarded : ∀ v ∈ s.superseded, oobIsInvalid (s.flash.env.pieceOob v.ppa) = true

/-- A `bool` is never -1. -/
theorem oobIsInvalid_false (o : Oob) : oobIsInvalid o = false := by
  unfold oobIsInvalid
  cases o.isvalid <;> rfl

/-! ## Section 2: The counters while values are written -/

/-- No counter has been touched. -/
def Env.Uncounted (e : Env) : Prop := ∀ b, (e.sblk b).invalidCnt = 0

theorem getActiveSblk_sblk {cfg : Settings} {e e' : Env} {type : PartType} {a : Nat}
    (h : getActiveSblk cfg e type = some (a, e')) : e'.sblk = e.sblk := by
  unfold getActiveSblk at h
  simp only at h
  split at h
  · cases h
  · cases h
    rfl

theorem Env.Uncounted.getPageNum {cfg : Settings} {e e' : Env} {i ppa : Nat} (he : e.Uncounted)
    (h : getPageNum cfg e i = some (ppa, e')) : e'.Uncounted := by
  unfold LsmTree.getPageNum at h
  split_ifs at h with hfull
  cases h
  intro b
  show (Function.update e.sblk i _ b).invalidCnt = 0
  by_cases hb : b = i
  · subst hb
    rw [Function.update_self]
    exact he b
  · rw [Function.update_of_ne hb]
    exact he b

theorem Env.Uncounted.getPage {cfg : Settings} {e e' : Env} {page page' : Page} {type : PartType}
    {ppa : Nat} (he : e.Uncounted) (h : getPage cfg e page type = some (ppa, e', page')) :
    e'.Uncounted := by
  obtain ⟨⟨i, e₁, page₁⟩, hactive, h⟩ := Option.bind_eq_some_iff.mp h
  obtain ⟨⟨ppa₁, e₂⟩, hnum, heq⟩ := Option.map_eq_some_iff.mp h
  cases heq
  have he₁ : e₁.Uncounted := by
    split_ifs at hactive with hneeds
    · obtain ⟨⟨a, e₃⟩, hget, heq⟩ := Option.map_eq_some_iff.mp hactive
      cases heq
      intro b
      rw [getActiveSblk_sblk hget]
      exact he b
    · obtain ⟨a, -, heq⟩ := Option.map_eq_some_iff.mp hactive
      cases heq
      exact he
  exact he₁.getPageNum hnum

theorem Flash.getPage_uncounted {cfg : Settings} {f f' : Flash} {ppa : Nat}
    (hf : f.env.Uncounted) (h : f.getPage cfg = some (ppa, f')) : f'.env.Uncounted := by
  obtain ⟨⟨ppa₁, e, page⟩, hget, heq⟩ := Option.map_eq_some_iff.mp h
  cases heq
  exact hf.getPage hget

theorem writeFullPages_uncounted {cfg : Settings} {ks : List Key} {l l' : Skiplist}
    {f f' : Flash} (hf : f.env.Uncounted) (h : writeFullPages cfg ks l f = some (l', f')) :
    f'.env.Uncounted := by
  induction ks generalizing l f with
  | nil =>
      cases h
      exact hf
  | cons k ks ih =>
      obtain ⟨⟨ppa, g⟩, hg, h⟩ := Option.bind_eq_some_iff.mp h
      simp only at h
      split_ifs at h with hinv
      have hgot := Flash.getPage_uncounted hf hg
      exact ih (f := g.note k ⟨ppa, 8⟩) hgot h

theorem placeValues_uncounted {page : Nat} {ps : List (Placed Key)} {l l' : Skiplist}
    {f f' : Flash} (hf : f.env.Uncounted) (h : placeValues page ps l f = some (l', f')) :
    f'.env.Uncounted := by
  induction ps generalizing l f with
  | nil =>
      cases h
      exact hf
  | cons p ps ih =>
      unfold placeValues at h
      split_ifs at h with hinv
      exact ih (f := (f.setOob 0 ⟨true, p.len⟩).note p.item ⟨page, p.len⟩) hf h

theorem variableValue2Page_uncounted {cfg : Settings} {maxLen n : Nat} {b : Buckets Key}
    {l l' : Skiplist} {f f' : Flash} (hf : f.env.Uncounted)
    (h : variableValue2Page cfg maxLen n b l f = some (l', f')) : f'.env.Uncounted := by
  induction n generalizing b l f with
  | zero =>
      cases h
      exact hf
  | succ n ih =>
      obtain ⟨⟨ppa, g⟩, hg, h⟩ := Option.bind_eq_some_iff.mp h
      have hgot := Flash.getPage_uncounted hf hg
      have hset : (g.setOob ppa ⟨true, maxLen⟩).env.Uncounted := hgot
      simp only at h
      split_ifs at h with hinv hrest
      · obtain ⟨⟨m, g'⟩, hm, h⟩ := Option.bind_eq_some_iff.mp h
        cases h
        exact placeValues_uncounted hset hm
      · obtain ⟨⟨m, g'⟩, hm, h⟩ := Option.bind_eq_some_iff.mp h
        exact ih (placeValues_uncounted hset hm) h

theorem skiplistMakeValueset_uncounted {cfg : Settings} {l l' : Skiplist} {f f' : Flash}
    (hf : f.env.Uncounted) (h : skiplistMakeValueset cfg l f = some (l', f')) :
    f'.env.Uncounted := by
  unfold skiplistMakeValueset at h
  split_ifs at h with hlong
  obtain ⟨⟨m, g⟩, hm, h⟩ := Option.bind_eq_some_iff.mp h
  have hg := writeFullPages_uncounted hf hm
  simp only at h
  split_ifs at h with hrest
  · cases h
    exact hg
  · exact variableValue2Page_uncounted hg h

/-! ## Section 3: Merges that supersede nothing -/

theorem superseded_eq_nil {u l : List Entry} (h : ∀ x ∈ l, ∀ y ∈ u, y.1 ≠ x.1) :
    superseded u l = [] := by
  unfold superseded
  rw [List.map_eq_nil_iff, List.filter_eq_nil_iff]
  intro x hx
  rw [List.any_eq_true, not_exists]
  rintro y ⟨hy, heq⟩
  exact h x hx y hy (eq_of_beq heq)

/-- Without a common key a leveling invalidates nothing. -/
theorem levelingTarget_inv {par : TreeParams} {s : Source} (hs : s.Sorted) {to_ t : Level}
    (ht : to_.Ok) {inv : List Nat} (hne : ∀ l, s = .mem l → l ≠ [])
    (hdisj : ∀ x ∈ to_.entries, ∀ y ∈ s.entries, y.1 ≠ x.1)
    (h : levelingTarget par pipeMerger to_ s = some (t, inv)) : inv = [] := by
  unfold levelingTarget at h
  -- An empty target is filled by a copy, which invalidates nothing.
  split_ifs at h with hempty
  · obtain ⟨t', -, heq⟩ := Option.map_eq_some_iff.mp h
    cases heq
    rfl
  · have hpages := (arrayRangeFindCompaction_sublist to_ keyMin).map Run.page
    have hlower : (untilEnd ((arrayRangeFindCompaction to_ keyMin).map Run.page).flatten).Sublist
        to_.entries := by
      rw [entries_eq_flatten]
      exact (untilEnd_sublist _).trans hpages.flatten
    -- The merge reports the keys of both sides, of which there are none.
    cases s with
    | mem l =>
        obtain ⟨page, hpage, hsub⟩ := Option.bind_eq_some_iff.mp h
        rw [arraySkipCvt2Data_eq hs] at hpage
        cases hpage
        rw [(compactionSubprocessing_ok (Source.Sorted.pages_mem hs (hne l rfl))
          (ht.pageList.sublist hpages) rfl hsub).2.2]
        refine superseded_eq_nil fun x hx y hy => ?_
        exact hdisj x (hlower.subset hx) y ((untilEnd_sublist _).subset hy)
    | level upper =>
        have ho : upper.Ok := hs
        have hupper := (upperRuns_sublist par upper).map Run.page
        unfold partialLeveling at h
        simp only at h
        split_ifs at h with hcant
        rw [(compactionSubprocessing_ok (ho.pageList.sublist hupper)
          (ht.pageList.sublist hpages) rfl h).2.2]
        refine superseded_eq_nil fun x hx y hy => ?_
        refine hdisj x (hlower.subset hx) y ?_
        exact hupper.flatten.subset ((untilEnd_sublist _).subset hy)

theorem map_fst_levelingSource (disk : Disk) (src : Option Nat) (mem : Skiplist) :
    (levelingSource disk src mem).entries.map Prod.fst = sourceKeys disk mem src := by
  cases src with
  | none =>
      show (Source.entries (.mem mem)).map Prod.fst = mem.map Snode.key
      rw [show Source.entries (.mem mem) = memPage mem from List.flatten_singleton,
        map_fst_memPage]
      rfl
  | some i =>
      show (Source.entries (.level (disk i))).map Prod.fst = (disk i).entries.map Prod.fst
      rw [entries_eq_flatten]
      rfl

theorem supersededValues_eq_nil {s : Store} {src : Option Nat} {mem : Skiplist} {to_ : Nat}
    (h : supersededValues s src mem to_ = []) :
    ∀ x ∈ (s.disk to_).entries, ∀ y ∈ (levelingSource s.disk src mem).entries, y.1 ≠ x.1 := by
  unfold supersededValues at h
  rw [List.map_eq_nil_iff, List.filter_eq_nil_iff] at h
  intro x hx y hy heq
  refine h x hx (decide_eq_true ?_)
  rw [← map_fst_levelingSource, ← heq]
  exact List.mem_map_of_mem hy

theorem Store.leveling_inv {cfg : Settings} {par : TreeParams} {s s' : Store} {src : Option Nat}
    {mem : Skiplist} {to_ : Nat} (hs : s.Ok) (hm : src = none → IsCut mem)
    (hnone : supersededValues s src mem to_ = [])
    (h : s.leveling cfg par src mem to_ = some s') :
    s'.flash = s.flash ∧ s'.invalidated = s.invalidated := by
  obtain ⟨disk, inv, hl, rfl⟩ := Store.leveling_eq h
  obtain ⟨t, ht, -⟩ := leveling_some hl
  have hdisj := supersededValues_eq_nil hnone
  have hsorted : (levelingSource s.disk src mem).Sorted := by
    cases src with
    | none => exact (hm rfl).ordered
    | some i => exact hs.disk i
  have hne : ∀ l, levelingSource s.disk src mem = .mem l → l ≠ [] := by
    intro l hl' hnil
    cases src with
    | none =>
        cases hl'
        have hlen := (hm rfl).two_le
        rw [hnil] at hlen
        simp at hlen
    | some i => cases hl'
  have hinv := levelingTarget_inv hsorted (hs.disk to_) hne hdisj ht
  subst hinv
  exact ⟨rfl, List.append_nil _⟩

/-! ## Section 4: The accounting of a run -/

/-- As long as nothing was superseded, nothing was invalidated. -/
def Quiet (s : Store) : Prop :=
  s.superseded = [] → s.invalidated = [] ∧ s.flash.env.Uncounted

theorem quiet_invariant (cfg : Settings) (par : TreeParams) : StoreInvariant cfg par Quiet where
  write := by
    intro s t t' flash hs hq ht hwrite hnone
    obtain ⟨hinv, hcnt⟩ := hq hnone
    exact ⟨hinv, skiplistMakeValueset_uncounted hcnt hwrite⟩
  level := by
    intro s s' src mem to_ hs hq hm hl hnone
    have hsuper : s'.superseded = s.superseded ++ supersededValues s src mem to_ := by
      obtain ⟨disk, inv, -, rfl⟩ := Store.leveling_eq hl
      rfl
    rw [hsuper] at hnone
    obtain ⟨hbefore, hstep⟩ := List.append_eq_nil_iff.mp hnone
    obtain ⟨hflash, hinv⟩ := Store.leveling_inv hs hm hstep hl
    obtain ⟨hnoinv, hcnt⟩ := hq hbefore
    rw [hflash, hinv]
    exact ⟨hnoinv, hcnt⟩
  setMem := by
    intro s mem hq hnone
    exact hq hnone

theorem lsmCreate_quiet {cfg : Settings} {par : TreeParams} {s : Store}
    (h : lsmCreate cfg par = some s) : Quiet s := by
  obtain ⟨⟨page, env⟩, hinit, rfl⟩ := Option.map_eq_some_iff.mp h
  obtain ⟨⟨d, e₁⟩, hd, h⟩ := Option.bind_eq_some_iff.mp hinit
  obtain ⟨⟨m, e₂⟩, hm, heq⟩ := Option.map_eq_some_iff.mp h
  cases heq
  intro _
  refine ⟨rfl, fun b => ?_⟩
  show (e₂.sblk b).invalidCnt = 0
  rw [getActiveSblk_sblk hm, getActiveSblk_sblk hd]
  rfl

/-- In every state between requests the accounting is right exactly when no
    merge has superseded a value yet. -/
theorem accounted_iff {cfg : Settings} {par : TreeParams} {s : Store}
    (h : (storeMachine cfg par).Reachable s) : Accounted cfg s ↔ s.superseded = [] := by
  constructor
  · intro ha
    by_contra hne
    obtain ⟨v, vs, heq⟩ := List.exists_cons_of_ne_nil hne
    have hguard := ha.guarded v (by rw [heq]; exact List.mem_cons_self)
    rw [oobIsInvalid_false] at hguard
    cases hguard
  · intro hnone
    obtain ⟨hinv, hcnt⟩ :=
      ((quiet_invariant cfg par).reachable (fun _ hi => lsmCreate_quiet hi) h).2 hnone
    refine ⟨fun b => ?_, fun i e _ => ?_, fun v hv => ?_⟩
    · rw [hcnt b, hnone]
      rfl
    · rw [hinv]
      exact List.not_mem_nil
    · rw [hnone] at hv
      exact absurd hv List.not_mem_nil

/-- After the first flush no value is superseded, and the counts are right. -/
theorem accounted_flushed : ∃ s, (storeMachine shipped shippedTree).Reachable s ∧
    (s.disk 0).runs ≠ [] ∧ Accounted shipped s := by
  have hrun : ((lsmCreate shipped shippedTree).bind fun s =>
      (storeMachine shipped shippedTree).exec s (numberedSets 65)).any
        (fun s => decide ((s.disk 0).runs ≠ []) && s.superseded.isEmpty) = true := by
    decide +kernel
  obtain ⟨s, hs, hb⟩ := (Option.any_eq_true ..).mp hrun
  rw [Bool.and_eq_true] at hb
  obtain ⟨s₀, hinit, hexec⟩ := Option.bind_eq_some_iff.mp hs
  have hreach := (Machine.Reachable.init hinit).exec hexec
  exact ⟨s, hreach, of_decide_eq_true hb.1,
    (accounted_iff hreach).mpr (List.isEmpty_iff.mp hb.2)⟩

/-- Setting the flushed keys again supersedes their values. -/
theorem accounted_counterexample :
    ¬ ∀ cfg par s, (storeMachine cfg par).Reachable s → Accounted cfg s := by
  intro hall
  have hrun : ((lsmCreate shipped shippedTree).bind fun s =>
      (storeMachine shipped shippedTree).exec s (numberedSets 65 ++ numberedSets 65)).any
        (fun s => !s.superseded.isEmpty) = true := by decide +kernel
  obtain ⟨s, hs, hne⟩ := (Option.any_eq_true ..).mp hrun
  obtain ⟨s₀, hinit, hexec⟩ := Option.bind_eq_some_iff.mp hs
  have ha := hall shipped shippedTree s ((Machine.Reachable.init hinit).exec hexec)
  cases hl : s.superseded with
  | nil =>
      rw [hl] at hne
      cases hne
  | cons v vs =>
      have hguard := ha.guarded v (by rw [hl]; exact List.mem_cons_self)
      rw [oobIsInvalid_false] at hguard
      cases hguard

end AggreKV.LsmTree
