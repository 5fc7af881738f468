import AggreKV.LsmTree.BoundSearch
import AggreKV.LsmTree.CutList
import AggreKV.LsmTree.PageMerge

/-! # What a leveling does to two levels

    `leveling` over a merger that computes unions.

    * `insertPages_some`, `insertPages_isSome`: the runs made of the pages of
      a merge.
    * `leveling_iff`: the target is the union of both sides, with every run
      read, exactly when the search for `key_min` skips no run it is used on. -/

namespace AggreKV.LsmTree

open SortedEntries

/-! ## Section 1: Runs made of pages -/

theorem arrayPipeMakeRun_some {par : TreeParams} {page : Meta} {idx : Nat} {r : Run}
    (h : arrayPipeMakeRun par page idx = some r) : r.page = page ∧ r.Tight := by
  unfold arrayPipeMakeRun at h
  split at h
  · cases h
  · rename_i e es
    cases h
    refine ⟨rfl, List.cons_ne_nil _ _, fun a ha => ?_, fun a ha => ?_⟩
    · cases ha
      rfl
    · rw [List.getLast?_eq_getLast_of_ne_nil (List.cons_ne_nil _ _)] at ha
      exact congrArg Prod.fst (Option.some.inj ha)

theorem arrayPipeMakeRun_isSome (par : TreeParams) {page : Meta} (h : page ≠ []) (idx : Nat) :
    ∃ r, arrayPipeMakeRun par page idx = some r := by
  obtain ⟨e, es, rfl⟩ := List.exists_cons_of_ne_nil h
  exact ⟨_, rfl⟩

theorem arrayInsert_eq_some {lev des : Level} {r : Run} :
    arrayInsert lev r = some des ↔
      lev.runs.length < lev.mNum ∧ des = { lev with runs := lev.runs ++ [r] } := by
  unfold arrayInsert
  split_ifs with hfull
  · simp only [false_iff, not_and]
    exact fun hlt => absurd hfull (Nat.not_le.mpr hlt)
  · simp only [Option.some.injEq]
    exact ⟨fun h => ⟨Nat.lt_of_not_le hfull, h.symm⟩, fun h => h.2.symm⟩

/-- The level after the pages of a merge have been inserted. -/
theorem insertPages_some {par : TreeParams} {pages : List Meta} {des des' : Level}
    (h : insertPages par des pages = some des') :
    ∃ runs, des' = { des with runs := des.runs ++ runs } ∧ runs.map Run.page = pages ∧
      ∀ r ∈ runs, r.Tight := by
  induction pages generalizing des with
  | nil =>
      cases h
      exact ⟨[], by rw [List.append_nil], rfl, fun r hr => absurd hr List.not_mem_nil⟩
  | cons page pages ih =>
      obtain ⟨r, hr, h⟩ := Option.bind_eq_some_iff.mp h
      obtain ⟨d, hd, h⟩ := Option.bind_eq_some_iff.mp h
      obtain ⟨hpage, htight⟩ := arrayPipeMakeRun_some hr
      obtain ⟨-, rfl⟩ := arrayInsert_eq_some.mp hd
      obtain ⟨runs, rfl, hpages, hall⟩ := ih h
      refine ⟨r :: runs, ?_, ?_, List.forall_mem_cons.mpr ⟨htight, hall⟩⟩
      · simp only [List.append_assoc, List.singleton_append]
      · rw [List.map_cons, hpage, hpages]

theorem insertPages_isSome (par : TreeParams) {pages : List Meta} (des : Level)
    (hne : ∀ p ∈ pages, p ≠ []) (hroom : des.runs.length + pages.length ≤ des.mNum) :
    ∃ des', insertPages par des pages = some des' := by
  induction pages generalizing des with
  | nil => exact ⟨des, rfl⟩
  | cons page pages ih =>
      obtain ⟨hpage, hrest⟩ := List.forall_mem_cons.mp hne
      obtain ⟨r, hr⟩ := arrayPipeMakeRun_isSome par hpage des.idx
      rw [List.length_cons] at hroom
      have hd : arrayInsert des r = some { des with runs := des.runs ++ [r] } :=
        arrayInsert_eq_some.mpr ⟨by omega, rfl⟩
      have hroom' : (des.runs ++ [r]).length + pages.length ≤ des.mNum := by
        rw [List.length_append, List.length_singleton]
        omega
      obtain ⟨des', h⟩ := ih { des with runs := des.runs ++ [r] } hrest hroom'
      refine ⟨des', ?_⟩
      unfold insertPages
      rw [hr, Option.bind_some, hd, Option.bind_some, h]

theorem entries_eq_flatten (l : Level) : l.entries = (l.runs.map Run.page).flatten :=
  List.flatMap_def

/-- A cut memtable becomes a run. -/
theorem arrayMemCvt2table_some {l : Skiplist} {iscached : Bool} {r : Run}
    (h : arrayMemCvt2table l iscached = some r) : r.page = memPage l ∧ r.Tight := by
  unfold arrayMemCvt2table at h
  split at h
  · rename_i a b rest
    cases h
    refine ⟨rfl, List.cons_ne_nil _ _, fun e he => ?_, fun e he => ?_⟩
    · cases he
      rfl
    · rw [memPage, List.getLast?_map, List.getLast?_cons_cons,
        List.getLast?_eq_getLast_of_ne_nil (List.cons_ne_nil _ _)] at he
      cases he
      rfl
  · cases h

theorem arrayMemCvt2table_isSome {l : Skiplist} (h : 2 ≤ l.length) (iscached : Bool) :
    ∃ r, arrayMemCvt2table l iscached = some r := by
  match l, h with
  | a :: b :: rest, _ => exact ⟨_, rfl⟩

theorem arraySkipCvt2Data_eq {l : Skiplist} (h : MemOrdered l) :
    arraySkipCvt2Data l = some (memPage l) := by
  unfold arraySkipCvt2Data
  rw [if_pos]
  rw [List.all_eq_true]
  exact fun n hn => h.valid n.key (List.mem_map_of_mem hn)

/-! ## Section 2: Sources -/

def Source.pages : Source → List Meta
  | .mem l => [memPage l]
  | .level upper => upper.runs.map Run.page

def Source.entries (s : Source) : List Entry := s.pages.flatten

/-- The source `leveling` builds from its arguments. -/
def levelingSource (disk : Disk) (src : Option Nat) (mem : Skiplist) : Source :=
  match src with
  | none => .mem mem
  | some i => .level (disk i)

/-- A level as lookup and merge rely on it. -/
structure Level.Ok (l : Level) : Prop where
  ordered : l.Ordered
  valid : Valid l.entries

theorem Level.ok_iff {l : Level} : l.Ok ↔ l.Ordered ∧ Valid l.entries :=
  ⟨fun ⟨h₁, h₂⟩ => ⟨h₁, h₂⟩, fun ⟨h₁, h₂⟩ => ⟨h₁, h₂⟩⟩

instance (l : Level) : Decidable l.Ok := decidable_of_iff' _ Level.ok_iff

/-- A cut memtable, or a level in order. -/
def Source.Ok : Source → Prop
  | .mem l => IsCut l
  | .level upper => upper.Ok

/-- Pages that a merger is called on. -/
structure PageList (ms : List Meta) : Prop where
  filled : ∀ m ∈ ms, m ≠ []
  valid : Valid ms.flatten
  increasing : Increasing ms.flatten

theorem PageList.sublist {ms ms' : List Meta} (h : PageList ms) (hs : ms'.Sublist ms) :
    PageList ms' := by
  have hflat : ms'.flatten.Sublist ms.flatten := hs.flatten
  exact ⟨fun m hm => h.filled m (hs.subset hm), fun e he => h.valid e (hflat.subset he),
    h.increasing.sublist hflat⟩

theorem Level.Ok.pageList {l : Level} (h : l.Ok) : PageList (l.runs.map Run.page) := by
  refine ⟨fun m hm => ?_, ?_, ?_⟩
  · obtain ⟨r, hr, rfl⟩ := List.mem_map.mp hm
    exact (h.ordered.tight r hr).ne_nil
  · rw [← entries_eq_flatten]
    exact h.valid
  · rw [← entries_eq_flatten]
    exact h.ordered.increasing

theorem Source.Ok.pageList {s : Source} (h : s.Ok) : PageList s.pages := by
  cases s with
  | mem l =>
      have ho := IsCut.ordered h
      have hne : memPage l ≠ [] := by
        have := IsCut.two_le h
        intro hnil
        rw [memPage, List.map_eq_nil_iff] at hnil
        rw [hnil] at this
        simp at this
      refine ⟨fun m hm => ?_, ?_, ?_⟩
      · rw [List.mem_singleton.mp hm]
        exact hne
      · rw [Source.pages, List.flatten_singleton]
        exact ho.valid_memPage
      · rw [Source.pages, List.flatten_singleton]
        exact ho.increasing_memPage
  | level upper => exact Level.Ok.pageList h

/-! ## Section 3: A correct merger -/

/-- A merger that computes the union, on pages that are not empty. -/
def MergerCorrect (merger : Merger) : Prop :=
  ∀ u o, PageList u → PageList o → ∃ pages inv, merger u o = some (pages, inv) ∧
    (∀ m ∈ pages, m ≠ []) ∧ IsUnion u.flatten o.flatten pages.flatten

/-- The new target takes the pages that leveling all runs puts into it. -/
def HasRoom (merger : Merger) (s : Source) (to_ : Level) : Prop :=
  if to_.runs.isEmpty then s.pages.length ≤ to_.mNum
  else ∀ pages inv, merger s.pages (to_.runs.map Run.page) = some (pages, inv) →
    pages.length ≤ to_.mNum

theorem compactionSubprocessing_correct (par : TreeParams) {merger : Merger}
    (hm : MergerCorrect merger) {u o : List Meta} (hu : PageList u) (ho : PageList o) (des : Level)
    (hdes : des.runs = [])
    (hroom : ∀ pages inv, merger u o = some (pages, inv) → pages.length ≤ des.mNum) :
    ∃ t inv, compactionSubprocessing par merger u o des = some (t, inv) ∧
      IsUnion u.flatten o.flatten t.entries := by
  obtain ⟨pages, inv, hmerge, hne, hunion⟩ := hm u o hu ho
  have hlen : des.runs.length + pages.length ≤ des.mNum := by
    rw [hdes, List.length_nil, Nat.zero_add]
    exact hroom pages inv hmerge
  obtain ⟨t, ht⟩ := insertPages_isSome par des hne hlen
  refine ⟨t, inv, ?_, ?_⟩
  · unfold compactionSubprocessing
    rw [hmerge, Option.bind_some]
    show (insertPages par des pages).map _ = _
    rw [ht]
    rfl
  -- Each page that the merger returns is one run of the target.
  · obtain ⟨runs, rfl, hpages, -⟩ := insertPages_some ht
    rw [entries_eq_flatten, hdes, List.nil_append, hpages]
    exact hunion

/-! ## Section 4: Leveling -/

/-- The runs of the old target that take part. -/
def readTarget (to_ : Level) : List Run :=
  if to_.runs.isEmpty then [] else arrayRangeFindCompaction to_ keyMin

/-- The runs of a source level that take part. -/
def readSource (par : TreeParams) (to_ upper : Level) : List Run :=
  if to_.runs.isEmpty then upper.runs else upperRuns par upper

/-- What a leveling is for. -/
structure Leveled (par : TreeParams) (merger : Merger) (disk : Disk) (src : Option Nat)
    (mem : Skiplist) (to_ : Nat) : Prop where
  targetRuns : readTarget (disk to_) = (disk to_).runs
  sourceRuns : ∀ i, src = some i → readSource par (disk to_) (disk i) = (disk i).runs
  moved : ∃ disk' inv, leveling par merger disk src mem to_ = some (disk', inv) ∧
    IsUnion (levelingSource disk src mem).entries (disk to_).entries (disk' to_).entries ∧
    (∀ i, src = some i → (disk' i).runs = []) ∧
    ∀ j, j ≠ to_ → src ≠ some j → disk' j = disk j

/-- No search for `key_min` skips a run. -/
def NoRunSkipped (par : TreeParams) (disk : Disk) (src : Option Nat) (to_ : Nat) : Prop :=
  (disk to_).runs ≠ [] → keepsRuns (disk to_).runs ∧
    ∀ i, src = some i → par.levelCaching ≤ (disk i).idx → keepsRuns (disk i).runs

theorem readTarget_iff {to_ : Level} (h : to_.Ok) :
    readTarget to_ = to_.runs ↔ (to_.runs ≠ [] → keepsRuns to_.runs) := by
  unfold readTarget
  by_cases hempty : to_.runs = []
  · simp [hempty]
  · rw [if_neg (by simpa using hempty), arrayRangeFindCompaction_eq h.ordered.runOrder]
    exact ⟨fun hk _ => hk, fun hk => hk hempty⟩

theorem readSource_iff {par : TreeParams} {to_ upper : Level} (h : upper.Ok) :
    readSource par to_ upper = upper.runs ↔
      (to_.runs ≠ [] → par.levelCaching ≤ upper.idx → keepsRuns upper.runs) := by
  unfold readSource upperRuns
  by_cases hempty : to_.runs = []
  · simp [hempty]
  · rw [if_neg (by simpa using hempty)]
    split_ifs with hcached
    · simp only [arrayCacheCompFormatting, true_iff]
      exact fun _ hle => absurd hcached (Nat.not_lt.mpr hle)
    · rw [arrayRangeFindCompaction_eq h.ordered.runOrder]
      exact ⟨fun hk _ _ => hk, fun hk => hk hempty (Nat.le_of_not_lt hcached)⟩

/-- Into an empty level: a copy. -/
theorem compactionEmptyLevel_correct (par : TreeParams) {s : Source} (hs : s.Ok) (des : Level)
    (hdes : des.runs = []) (hroom : s.pages.length ≤ des.mNum) :
    ∃ t, compactionEmptyLevel par s des = some t ∧ t.entries = s.entries := by
  cases s with
  | mem l =>
      obtain ⟨r, hr⟩ := arrayMemCvt2table_isSome (IsCut.two_le hs)
        (decide (des.idx < par.levelCaching))
      have hlt : des.runs.length < des.mNum := by
        rw [hdes]
        exact hroom
      refine ⟨{ des with runs := des.runs ++ [r] }, ?_, ?_⟩
      · show (arrayMemCvt2table l _).bind _ = _
        rw [hr, Option.bind_some]
        exact arrayInsert_eq_some.mpr ⟨hlt, rfl⟩
      · rw [entries_eq_flatten, hdes, List.nil_append, List.map_singleton,
          (arrayMemCvt2table_some hr).1]
        rfl
  -- The upper level has no more runs than the target takes.
  | level upper =>
      have hle : ¬ des.mNum < upper.runs.length := by
        rw [Source.pages, List.length_map] at hroom
        exact Nat.not_lt.mpr hroom
      refine ⟨{ des with runs := upper.runs }, if_neg hle, ?_⟩
      rw [entries_eq_flatten]
      rfl

/-- The new target, when the runs read are all there are. -/
theorem levelingTarget_correct {par : TreeParams} {merger : Merger} (hm : MergerCorrect merger)
    {s : Source} (hs : s.Ok) {to_ : Level} (ht : to_.Ok) (hroom : HasRoom merger s to_)
    (htarget : readTarget to_ = to_.runs)
    (hsource : ∀ upper, s = .level upper → readSource par to_ upper = upper.runs) :
    ∃ t inv, levelingTarget par merger to_ s = some (t, inv) ∧
      IsUnion s.entries to_.entries t.entries := by
  unfold HasRoom at hroom
  unfold levelingTarget
  unfold readTarget at htarget
  unfold readSource at hsource
  -- Into an empty level the source is copied, otherwise the merger runs.
  by_cases hempty : to_.runs.isEmpty = true
  · rw [if_pos hempty] at hroom
    simp only [hempty, if_true]
    obtain ⟨t, hcopy, hentries⟩ := compactionEmptyLevel_correct par hs
      (arrayInit to_.mNum to_.idx) rfl hroom
    refine ⟨t, [], by rw [hcopy]; rfl, ?_⟩
    have hnil : to_.entries = [] := by
      rw [Level.entries, List.isEmpty_iff.mp hempty, List.flatMap_nil]
    rw [hentries, hnil]
    exact isUnion_nil_right hs.pageList.increasing
  · rw [if_neg hempty] at hroom htarget
    simp only [hempty, Bool.false_eq_true, if_false] at hsource ⊢
    rw [entries_eq_flatten]
    cases s with
    | mem l =>
        have hpage := arraySkipCvt2Data_eq (IsCut.ordered hs)
        obtain ⟨t, inv, hsub, hunion⟩ := compactionSubprocessing_correct par hm
          hs.pageList ht.pageList (arrayInit to_.mNum to_.idx) rfl hroom
        refine ⟨t, inv, ?_, hunion⟩
        unfold partialLeveling
        simp only [hpage, Option.bind_some, htarget]
        exact hsub
    | level upper =>
        obtain ⟨t, inv, hsub, hunion⟩ := compactionSubprocessing_correct par hm
          hs.pageList ht.pageList (arrayInit to_.mNum to_.idx) rfl hroom
        refine ⟨t, inv, ?_, hunion⟩
        have hne : to_.runs ≠ [] := fun hc => hempty (List.isEmpty_iff.mpr hc)
        unfold partialLeveling
        simp only [htarget, hsource upper rfl, hne, and_false, if_false]
        exact hsub

/-- A leveling moves the source into the target exactly when no run is skipped. -/
theorem leveling_iff {par : TreeParams} {merger : Merger} (hm : MergerCorrect merger)
    {disk : Disk} {src : Option Nat} {mem : Skiplist} {to_ : Nat}
    (hsrc : (levelingSource disk src mem).Ok) (hto : (disk to_).Ok) (hne : src ≠ some to_)
    (hroom : HasRoom merger (levelingSource disk src mem) (disk to_)) :
    Leveled par merger disk src mem to_ ↔ NoRunSkipped par disk src to_ := by
  have hupper : ∀ i, src = some i → (disk i).Ok := by
    rintro i rfl
    exact hsrc
  constructor
  · rintro ⟨htarget, hsource, -⟩ hempty
    refine ⟨(readTarget_iff hto).mp htarget hempty, fun i hi => ?_⟩
    exact (readSource_iff (hupper i hi)).mp (hsource i hi) hempty
  · intro hkeep
    have htarget := (readTarget_iff hto).mpr fun h => (hkeep h).1
    have hsource : ∀ i, src = some i → readSource par (disk to_) (disk i) = (disk i).runs :=
      fun i hi => (readSource_iff (hupper i hi)).mpr fun h => (hkeep h).2 i hi
    have hlevel : ∀ upper, levelingSource disk src mem = .level upper →
        readSource par (disk to_) upper = upper.runs := by
      intro upper h
      cases src with
      | none => cases h
      -- The source level is left empty.
      | some i =>
          cases h
          exact hsource i rfl
    -- Nothing is skipped, so the merge sees all the runs of both levels.
    obtain ⟨t, inv, ht, hunion⟩ := levelingTarget_correct hm hsrc hto hroom htarget hlevel
    refine ⟨htarget, hsource, ?_⟩
    cases src with
    | none =>
        refine ⟨Function.update disk to_ t, inv, ?_, ?_, fun i hi => (nomatch hi), fun j hj _ => ?_⟩
        · show (levelingTarget par merger (disk to_) (.mem mem)).map _ = _
          rw [show levelingTarget par merger (disk to_) (.mem mem) = some (t, inv) from ht]
          rfl
        · rw [Function.update_self]
          exact hunion
        · exact Function.update_of_ne hj ..
    | some i =>
        have hi : i ≠ to_ := fun hc => hne (congrArg some hc)
        refine ⟨Function.update (Function.update disk i (arrayInit (disk i).mNum (disk i).idx))
          to_ t, inv, ?_, ?_, fun k hk => ?_, fun j hj hjs => ?_⟩
        · show (levelingTarget par merger (disk to_) (.level (disk i))).map _ = _
          rw [show levelingTarget par merger (disk to_) (.level (disk i)) = some (t, inv) from ht]
          rfl
        · rw [Function.update_self]
          exact hunion
        · cases hk
          rw [Function.update_of_ne hi, Function.update_self]
          rfl
        · rw [Function.update_of_ne hj, Function.update_of_ne fun hc => hjs (congrArg some hc.symm)]

/-! ## Section 5: An instance and a counterexample -/

/-- The union, packed by the rule of the pipe. -/
def unionMerger : Merger := fun u o => some (metaPages (union u.flatten o.flatten), [])

theorem unionMerger_correct : MergerCorrect unionMerger := by
  intro u o hu ho
  refine ⟨_, [], rfl, fun m hm => (metaPages_wellFormed _ m hm).ne_nil, ?_⟩
  rw [metaPages_flatten]
  exact union_isUnion hu.increasing ho.increasing

/-- A run of one key. -/
def oneRun (k : Key) (ppa : Nat) : Run := ⟨k, k, true, [(k, ppa)]⟩

/-- Level 0 is the source, level 1 the target. -/
def twoLevels (source target : List Run) : Disk
  | 0 => ⟨0, 15, source⟩
  | 1 => ⟨1, 198, target⟩
  | i => arrayInit 0 i

/-- Two runs over three, with two keys in both levels. -/
def letterSource : List Run :=
  [⟨letterKey 97, letterKey 99, true, [(letterKey 97, 21), (letterKey 99, 23)]⟩,
    oneRun (letterKey 101) 25]

def letterTarget : List Run :=
  [⟨letterKey 97, letterKey 98, true, [(letterKey 97, 1), (letterKey 98, 2)]⟩,
    ⟨letterKey 99, letterKey 100, true, [(letterKey 99, 3), (letterKey 100, 4)]⟩,
    oneRun (letterKey 102) 6]

/-- Neither level is cached, every run is read, and the target is the union of both. -/
theorem leveling_iff_interleaved :
    Leveled ⟨5, 0, 14⟩ unionMerger (twoLevels letterSource letterTarget) (some 0) [] 1 := by
  have hsrc : (levelingSource (twoLevels letterSource letterTarget) (some 0) []).Ok := by
    show (twoLevels letterSource letterTarget 0).Ok
    decide
  have hto : (twoLevels letterSource letterTarget 1).Ok := by decide
  have hkeep : keepsRuns letterSource ∧ keepsRuns letterTarget := by
    unfold keepsRuns
    decide
  refine (leveling_iff unionMerger_correct hsrc hto (by decide) ?_).mpr fun _ => ⟨hkeep.2, ?_⟩
  · rintro pages inv h
    cases h
    show (metaPages (union (letterSource.flatMap Run.page) (letterTarget.flatMap Run.page))).length
      ≤ 198
    decide
  · rintro i h -
    cases h
    exact hkeep.1

/-- One zero byte: below `key_min`, which has 255 of them. -/
def zeroKey : Key := repeatKey 1 0 (by decide)

/-- The key of zero bytes is a run of its own, and vanishes with the old level. -/
theorem leveling_counterexample :
    ¬ ∀ (par : TreeParams) (merger : Merger) (disk : Disk) (src : Option Nat) (mem : Skiplist)
      (to_ : Nat), MergerCorrect merger → (levelingSource disk src mem).Ok → (disk to_).Ok →
      src ≠ some to_ → HasRoom merger (levelingSource disk src mem) (disk to_) →
      Leveled par merger disk src mem to_ := by
  intro hall
  have hsrc : Level.Ok ⟨0, 15, [oneRun shortKey 2]⟩ := by decide
  have hto : Level.Ok ⟨1, 198, [oneRun zeroKey 1, oneRun shortKey 1]⟩ := by decide
  have h := hall ⟨5, 3, 14⟩ unionMerger
    (twoLevels [oneRun shortKey 2] [oneRun zeroKey 1, oneRun shortKey 1]) (some 0) [] 1
    unionMerger_correct hsrc hto (by decide) (by
      rintro pages inv h
      cases h
      show (metaPages (union [(shortKey, 2)] [(zeroKey, 1), (shortKey, 1)])).length ≤ 198
      decide)
  -- The first run of the target holds the key of one zero byte, below `key_min`.
  have hskip : ¬ keepsRuns [oneRun zeroKey 1, oneRun shortKey 1] := by
    unfold keepsRuns
    decide
  refine hskip ((readTarget_iff hto).mp h.targetRuns ?_)
  exact List.cons_ne_nil _ _

end AggreKV.LsmTree
