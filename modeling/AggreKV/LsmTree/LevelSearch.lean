import AggreKV.LsmTree.BoundSearch
import AggreKV.LsmTree.MetaReaders

/-! # Binary searches of a level

    `array_find_run` and `array_binary_search`, with the signed midpoints of
    the source, beside the searches of the merge and of a page.

    * `arrayFindRun_spec`, `arrayBinarySearch_spec`: what each search finds
      in runs that are in order.
    * `level_searches`: all four of them. -/

namespace AggreKV.LsmTree

open BinarySearch SortedEntries

/-! ## Section 1: The searches -/

/-- The loop of `array_find_run`; `mid` is set again before the test that leaves it. -/
def findRunLoop (arrs : List Run) (lpa : Key) : Nat → Int → Int → Int → Option Run
  | 0, _, _, _ => none
  | fuel + 1, start, stop, mid =>
      (runAt arrs mid).bind fun r =>
        match keyCmp r.key lpa with
        | .eq => some r
        | .gt =>
            let stop := mid - 1
            let mid := (start + stop).tdiv 2
            if stop < start then runAt arrs mid else findRunLoop arrs lpa fuel start stop mid
        | .lt =>
            let start := mid + 1
            let mid := (start + stop).tdiv 2
            if stop < start then runAt arrs mid else findRunLoop arrs lpa fuel start stop mid

/-- `array_find_run`: a run, or `NULL` for a level without runs. -/
def arrayFindRun (lev : Level) (lpa : Key) : Option (Option Run) :=
  if lev.runs.length = 0 then some none
  else
    let stop : Int := lev.runs.length - 1
    (findRunLoop lev.runs lpa (lev.runs.length + 1) 0 stop ((0 + stop).tdiv 2)).map some

/-- `array_binary_search`. -/
def arrayBinarySearch (body : List Run) (lpa : Key) : Option Int :=
  (searchLoop (cmpRun body lpa) (body.length + 1) 0 (body.length - 1) none).map fun r =>
    match r with
    | .hit mid => mid
    | .miss _ _ _ => -1

variable {runs : List Run} {lpa : Key}

/-! ## Section 2: `array_find_run` -/

/-- The start keys of the runs increase. -/
theorem RunOrder.keys (h : RunOrder runs) : runs.Pairwise fun r r' => r.key < r'.key :=
  h.lt.imp_of_mem fun hr _ hlt => (h.le _ hr).trans_lt hlt

theorem RunOrder.keysSearchable (h : RunOrder runs) (lpa : Key) :
    runs.Pairwise fun r r' => (keyCmp r'.key lpa ≠ .gt → keyCmp r.key lpa = .lt) ∧
      (keyCmp r.key lpa ≠ .lt → keyCmp r'.key lpa = .gt) := by
  refine h.keys.imp fun {r r'} hlt => ⟨fun hn => ?_, fun hn => ?_⟩
  · rw [ne_eq, keyCmp_gt, not_lt] at hn
    exact keyCmp_lt.mpr (hlt.trans_le hn)
  · rw [ne_eq, keyCmp_lt, not_lt] at hn
    exact keyCmp_gt.mpr (hn.trans_lt hlt)

def cmpStart (arrs : List Run) (lpa : Key) (i : Int) : Option Ordering :=
  (runAt arrs i).map fun r => keyCmp r.key lpa

/-- The index that `array_find_run` returns. -/
def candidate : Ending → Int
  | .hit mid => mid
  | .miss start stop _ => (start + stop).tdiv 2

/-- `(start + end) / 2` when `end` is before `start`: one back, except at -1. -/
theorem candidate_miss {start stop : Int} {last : Option (Int × Ordering)} (h0 : 0 ≤ start)
    (h : stop + 1 = start) :
    candidate (.miss start stop last) = ((start.toNat - 1 : Nat) : Int) := by
  have hstop : stop = start - 1 := by omega
  show (start + stop).tdiv 2 = _
  rw [hstop]
  rcases Int.lt_or_eq_of_le h0 with hpos | hzero
  · rw [Int.tdiv_eq_ediv_of_nonneg (by omega)]
    omega
  · rw [← hzero]
    rfl

/-- The loop is the search with its midpoint carried along. -/
theorem findRunLoop_of_search (fuel : Nat) : ∀ (start stop : Int) (last : Option (Int × Ordering))
    (r : Ending), start ≤ stop →
      searchLoop (cmpStart runs lpa) fuel start stop last = some r →
      findRunLoop runs lpa fuel start stop ((start + stop).tdiv 2) = runAt runs (candidate r) := by
  induction fuel with
  | zero =>
    intro start stop last r hle h
    cases h
  | succ fuel ih =>
    intro start stop last r hle h
    -- The step that leaves the loop, or another round.
    have hrest : ∀ (start' stop' : Int) (last' : Option (Int × Ordering)),
        searchLoop (cmpStart runs lpa) fuel start' stop' last' = some r →
        (if stop' < start' then runAt runs ((start' + stop').tdiv 2)
          else findRunLoop runs lpa fuel start' stop' ((start' + stop').tdiv 2)) =
        runAt runs (candidate r) := by
      intro start' stop' last' h'
      by_cases hend : stop' < start'
      · rw [if_pos hend]
        cases fuel with
        | zero => cases h'
        | succ fuel =>
            unfold searchLoop at h'
            rw [if_neg (not_le.mpr hend), Option.some.injEq] at h'
            rw [← h']
            rfl
      · rw [if_neg hend]
        exact ih start' stop' last' r (not_lt.mp hend) h'
    unfold searchLoop at h
    rw [if_pos hle] at h
    unfold findRunLoop
    dsimp only at h
    generalize (start + stop).tdiv 2 = mid at h ⊢
    cases hrun : runAt runs mid with
    | none =>
        unfold cmpStart at h
        rw [hrun] at h
        cases h
    | some x =>
        have hcmp : cmpStart runs lpa mid = some (keyCmp x.key lpa) := by
          unfold cmpStart
          rw [hrun]
          rfl
        rw [hcmp, Option.bind_some] at h
        rw [Option.bind_some]
        cases ho : keyCmp x.key lpa with
        | eq =>
            rw [ho, Option.some.injEq] at h
            rw [← h]
            exact hrun.symm
        | lt =>
            rw [ho] at h
            exact hrest (mid + 1) stop _ h
        | gt =>
            rw [ho] at h
            exact hrest start (mid - 1) _ h

/-- The run with the greatest start key not above `lpa`, or the first if there is none. -/
structure FoundRun (runs : List Run) (lpa : Key) (r : Run) : Prop where
  mem : r ∈ runs
  greatest : r.key ≤ lpa → ∀ r' ∈ runs, r'.key ≤ lpa → r'.key ≤ r.key
  first : lpa < r.key → runs.head? = some r ∧ ∀ r' ∈ runs, lpa < r'.key

/-- All runs before position `c` start at or below `lpa`, all others above. -/
theorem foundRun_of_split (h : RunOrder runs) {c i : Nat} (hi : i < runs.length)
    (hbelow : ∀ j (hj : j < runs.length), j < c → runs[j].key ≤ lpa)
    (habove : ∀ j (hj : j < runs.length), c ≤ j → lpa < runs[j].key)
    (hc : i + 1 = c ∨ i = 0 ∧ c = 0) : FoundRun runs lpa runs[i] := by
  have hkeys := List.pairwise_iff_getElem.mp h.keys
  refine ⟨List.getElem_mem hi, fun hle r' hr' hle' => ?_, fun hlt => ?_⟩
  · obtain ⟨j, hj, rfl⟩ := List.mem_iff_getElem.mp hr'
    have hjc : j < c := by
      by_contra hn
      exact absurd (habove j hj (not_lt.mp hn)) (not_lt.mpr hle')
    rcases Nat.lt_or_eq_of_le (show j ≤ i by omega) with hji | hji
    · exact (hkeys j i hj hi hji).le
    · subst hji
      exact le_refl _
  -- Below every run: the first one is taken.
  · have hzero : c = 0 := by
      by_contra hn
      exact absurd (hbelow i hi (by omega)) (not_le.mpr hlt)
    have hizero : i = 0 := by omega
    subst hizero
    refine ⟨List.head?_eq_getElem?.trans (List.getElem?_eq_getElem hi), fun r' hr' => ?_⟩
    obtain ⟨j, hj, rfl⟩ := List.mem_iff_getElem.mp hr'
    exact habove j hj (by omega)

theorem arrayFindRun_spec {lev : Level} (h : RunOrder lev.runs) (hne : lev.runs ≠ []) (lpa : Key) :
    ∃ r, arrayFindRun lev lpa = some (some r) ∧ FoundRun lev.runs lpa r := by
  have hpos : 0 < lev.runs.length := List.length_pos_of_ne_nil hne
  have hord := inOrder_of_pairwise (fun i => rfl) (h.keysSearchable lpa)
  obtain ⟨r, hr, hends⟩ := @searchLoop_ends (cmpStart lev.runs lpa) _ _ _ hord (Int.le_refl 0)
    (by omega) (lev.runs.length + 1) (by omega)
  have hloop := findRunLoop_of_search _ _ _ _ _ (by omega) hr
  -- Where the candidate is, and what the runs before and behind it are.
  obtain ⟨i, hi, hcand, c, hbelow, habove, hc⟩ : ∃ i, ∃ (_ : i < lev.runs.length),
      candidate r = (i : Int) ∧
      ∃ c, (∀ j (hj : j < lev.runs.length), j < c → lev.runs[j].key ≤ lpa) ∧
        (∀ j (hj : j < lev.runs.length), c ≤ j → lpa < lev.runs[j].key) ∧
        (i + 1 = c ∨ i = 0 ∧ c = 0) := by
    cases hends with
    | hit hlo hhi heq =>
        rename_i mid
        refine ⟨mid.toNat, by omega, (Int.toNat_of_nonneg hlo).symm, mid.toNat + 1,
          fun j hj hlt => ?_, fun j hj hle => ?_, Or.inl rfl⟩
        · rcases Nat.lt_or_eq_of_le (Nat.lt_succ_iff.mp hlt) with hlt | heq'
          · have ho := hord.below j mid (by omega) (by omega) hhi (by rw [heq]; decide)
            rw [orderAt_nat hj, keyCmp_lt] at ho
            exact ho.le
          · have hmid : mid = (j : Int) := by omega
            rw [hmid, orderAt_nat hj, keyCmp_eq] at heq
            exact heq.le
        · have ho := hord.above mid j hlo (by omega) (by omega) (by rw [heq]; decide)
          rw [orderAt_nat hj, keyCmp_gt] at ho
          exact ho
    | miss hempty hlo hhi hbelow habove hlast =>
        rename_i start stop last
        refine ⟨start.toNat - 1, by omega, candidate_miss hlo hempty, start.toNat,
          fun j hj hlt => ?_,
          fun j hj hle => ?_, by omega⟩
        · have ho := hbelow j (by omega) (by omega)
          rw [orderAt_nat hj, keyCmp_lt] at ho
          exact ho.le
        · have ho := habove j (by omega) (by omega)
          rw [orderAt_nat hj, keyCmp_gt] at ho
          exact ho
  refine ⟨lev.runs[i], ?_, foundRun_of_split h hi hbelow habove hc⟩
  unfold arrayFindRun
  rw [if_neg hpos.ne']
  dsimp only
  rw [hloop, hcand]
  obtain ⟨hlt, hrun⟩ := @runAt_eq lev.runs (i : Int) (by omega) (by omega)
  rw [hrun]
  rfl

/-! ## Section 3: `array_binary_search` -/

/-- What `array_binary_search` returns. -/
inductive InRange (runs : List Run) (lpa : Key) : Int → Prop where
  | found {i : Nat} (hi : i < runs.length) (hkey : runs[i].key ≤ lpa)
    (hend : lpa ≤ runs[i].endKey) :
      InRange runs lpa i
  | missing (h : ∀ r ∈ runs, ¬ (r.key ≤ lpa ∧ lpa ≤ r.endKey)) : InRange runs lpa (-1)

theorem arrayBinarySearch_spec (h : RunOrder runs) (lpa : Key) :
    ∃ i, arrayBinarySearch runs lpa = some i ∧ InRange runs lpa i := by
  obtain ⟨r, hr, hends⟩ := h.search lpa
  unfold arrayBinarySearch
  rw [hr, Option.map_some]
  cases hends with
  | hit hlo hhi heq =>
      rename_i mid
      obtain ⟨i, rfl⟩ := Int.eq_ofNat_of_zero_le hlo
      have hi : i < runs.length := by omega
      rw [orderAt_nat hi, runCmp_eq_iff] at heq
      exact ⟨_, rfl, .found hi heq.1 heq.2⟩
  -- A run around the key would stop the search, and it never did.
  | miss hempty hlo hhi hbelow habove hlast =>
      rename_i start stop last
      refine ⟨-1, rfl, .missing fun x hx hin => ?_⟩
      obtain ⟨j, hj, rfl⟩ := List.mem_iff_getElem.mp hx
      rw [← runCmp_eq_iff] at hin
      rcases Int.lt_or_le (j : Int) start with hlow | hhigh
      · have ho := hbelow j (by omega) hlow
        rw [orderAt_nat hj, hin] at ho
        exact absurd ho (by decide)
      · have ho := habove j hhigh (by omega)
        rw [orderAt_nat hj, hin] at ho
        exact absurd ho (by decide)

/-! ## Section 4: All searches -/

/-- The searches over runs in order, and over a page of at least one entry. -/
theorem level_searches {lev : Level} (h : RunOrder lev.runs) (hne : lev.runs ≠ []) {p : Buffer}
    {m : Meta} (hp : MetaPage p m) (hm : Increasing m) (hm0 : m ≠ []) (lpa : Key) :
    (∃ r, arrayFindRun lev lpa = some (some r) ∧ FoundRun lev.runs lpa r) ∧
      (∃ i, arrayBinarySearch lev.runs lpa = some i ∧ InRange lev.runs lpa i) ∧
      (∃ i, arrayBoundSearch lev.runs lpa true = some i ∧ FirstReaching lev.runs lpa i) ∧
      ∃ i, arrayFindIdxLowerBound p lpa = some (i + 1) ∧ MetaPage.FirstNotBelow m lpa i :=
  ⟨arrayFindRun_spec h hne lpa, arrayBinarySearch_spec h lpa, arrayBoundSearch_spec h hne lpa,
    hp.arrayFindIdxLowerBound_spec hm hm0 lpa⟩

/-- A page written by the merge, in a fresh buffer. -/
def pageBytes (m : Meta) : Buffer := (pbodyPageBytes (fun _ => 0) m).getD fun _ => 0

theorem metaPage_pageBytes {m : Meta} (h : Fits m) (hppa : ∀ e ∈ m, e.2 < 4294967296) :
    MetaPage (pageBytes m) m := by
  obtain ⟨p, hp, hholds⟩ := pbodyPageBytes_holds (fun _ => 0) h
  have heq : pageBytes m = p := by
    unfold pageBytes
    rw [hp]
    rfl
  rw [heq]
  exact ⟨hholds, h, hppa⟩

/-- Three runs, the keys `c` to `k` with gaps within and between them. -/
def letterRuns : List Run :=
  [⟨letterKey 99, letterKey 100, false, [(letterKey 99, 3), (letterKey 100, 4)]⟩,
    ⟨letterKey 101, letterKey 103, false, [(letterKey 101, 5), (letterKey 103, 7)]⟩,
    ⟨letterKey 105, letterKey 107, false, [(letterKey 105, 9), (letterKey 107, 11)]⟩]

/-- A key between the second and the third run, and between two entries of a page of six. -/
theorem level_searches_letters : ∃ p, MetaPage p (letterRuns.flatMap Run.page) ∧
    (∃ r, arrayFindRun ⟨1, 198, letterRuns⟩ (letterKey 104) = some (some r) ∧
      FoundRun letterRuns (letterKey 104) r) ∧
    (∃ i, arrayBinarySearch letterRuns (letterKey 104) = some i ∧
      InRange letterRuns (letterKey 104) i) ∧
    (∃ i, arrayBoundSearch letterRuns (letterKey 104) true = some i ∧
      FirstReaching letterRuns (letterKey 104) i) ∧
    ∃ i, arrayFindIdxLowerBound p (letterKey 104) = some (i + 1) ∧
      MetaPage.FirstNotBelow (letterRuns.flatMap Run.page) (letterKey 104) i := by
  have hruns : RunOrder letterRuns := ⟨by decide, by decide⟩
  have hp : MetaPage (pageBytes (letterRuns.flatMap Run.page)) (letterRuns.flatMap Run.page) :=
    metaPage_pageBytes ⟨by decide, by decide⟩ (by decide)
  exact ⟨_, hp, @level_searches ⟨1, 198, letterRuns⟩ hruns (List.cons_ne_nil _ _) _ _ hp (by decide)
    (by decide) (letterKey 104)⟩

end AggreKV.LsmTree
