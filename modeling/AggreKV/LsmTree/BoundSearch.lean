import AggreKV.LsmTree.Level
import AggreKV.Lib.SortedEntries

/-! # Run order and the bound search

    * `Level.Ordered`: the order of a level that lookup and merge rely on.
    * `ordered_iff`: the same in terms of neighbouring runs.
    * `arrayBoundSearch_spec`: what the search finds in runs that are in order.
    * `arrayRangeFindCompaction_eq`: which runs the search for `key_min` skips. -/

namespace AggreKV.LsmTree

open BinarySearch SortedEntries

/-! ## Section 1: Ordered levels -/

/-- The keys of a run are the first and the last key of its page. -/
structure Run.Tight (r : Run) : Prop where
  ne_nil : r.page ≠ []
  first : ∀ e, r.page.head? = some e → r.key = e.1
  last : ∀ e, r.page.getLast? = some e → r.endKey = e.1

/-- The bounds of a run are the keys at the ends of its page. -/
theorem Run.tight_iff {r : Run} : r.Tight ↔ r.page ≠ [] ∧
    r.page.head?.map Prod.fst = some r.key ∧ r.page.getLast?.map Prod.fst = some r.endKey := by
  constructor
  · intro h
    obtain ⟨e, es, hpage⟩ := List.exists_cons_of_ne_nil h.ne_nil
    have hhead : r.page.head? = some e := by rw [hpage]; rfl
    have hlast := List.getLast?_eq_getLast_of_ne_nil h.ne_nil
    refine ⟨h.ne_nil, ?_, ?_⟩
    · rw [hhead, h.first e hhead]
      rfl
    · rw [hlast, h.last _ hlast]
      rfl
  · rintro ⟨hne, hhead, hlast⟩
    refine ⟨hne, fun e he => ?_, fun e he => ?_⟩
    · rw [he] at hhead
      exact (Option.some.inj hhead).symm
    · rw [he] at hlast
      exact (Option.some.inj hlast).symm

instance (r : Run) : Decidable r.Tight := decidable_of_iff' _ Run.tight_iff

/-- Sorted and disjoint runs of increasing pages. -/
structure Level.Ordered (l : Level) : Prop where
  tight : ∀ r ∈ l.runs, r.Tight
  increasing : Increasing l.entries

theorem Run.Tight.key_mem {r : Run} (h : r.Tight) : ∃ e ∈ r.page, r.key = e.1 := by
  obtain ⟨e, es, he⟩ := List.exists_cons_of_ne_nil h.ne_nil
  exact ⟨e, he ▸ List.mem_cons_self, h.first e (by rw [he]; rfl)⟩

theorem Run.Tight.endKey_mem {r : Run} (h : r.Tight) : ∃ e ∈ r.page, r.endKey = e.1 :=
  ⟨_, List.getLast_mem h.ne_nil, h.last _ (List.getLast?_eq_getLast_of_ne_nil h.ne_nil)⟩

theorem Run.Tight.key_le {r : Run} (h : r.Tight) (hi : Increasing r.page) {e : Entry}
    (he : e ∈ r.page) : r.key ≤ e.1 := by
  obtain ⟨a, as, ha⟩ := List.exists_cons_of_ne_nil h.ne_nil
  rw [h.first a (by rw [ha]; rfl)]
  rw [ha] at he hi
  rcases List.mem_cons.mp he with rfl | he
  · exact le_refl _
  · exact ((increasing_cons.mp hi).1 e he).le

theorem Run.Tight.le_endKey {r : Run} (h : r.Tight) (hi : Increasing r.page) {e : Entry}
    (he : e ∈ r.page) : e.1 ≤ r.endKey := by
  obtain ⟨as, a, ha⟩ := List.eq_nil_or_concat r.page |>.resolve_left h.ne_nil
  rw [h.last a (by rw [ha]; simp)]
  rw [ha, List.concat_eq_append] at he hi
  rcases List.mem_append.mp he with he | he
  · exact ((increasing_append.mp hi).2.2 e he a (List.mem_singleton_self a)).le
  · rw [List.mem_singleton.mp he]

/-- `Increasing` for the pages one after the other. -/
theorem increasing_flatMap {rs : List Run} :
    Increasing (rs.flatMap Run.page) ↔ (∀ r ∈ rs, Increasing r.page) ∧
      rs.Pairwise fun r r' => ∀ a ∈ r.page, ∀ b ∈ r'.page, a.1 < b.1 := by
  induction rs with
  | nil => simp
  | cons r rs ih =>
      rw [List.flatMap_cons, increasing_append, ih, List.pairwise_cons, List.forall_mem_cons]
      constructor
      · rintro ⟨hr, ⟨hrs, hp⟩, hlt⟩
        exact ⟨⟨hr, hrs⟩, fun r' hr' a ha b hb =>
          hlt a ha b (List.mem_flatMap.mpr ⟨r', hr', hb⟩), hp⟩
      · rintro ⟨⟨hr, hrs⟩, hlt, hp⟩
        refine ⟨hr, ⟨hrs, hp⟩, fun a ha b hb => ?_⟩
        obtain ⟨r', hr', hb⟩ := List.mem_flatMap.mp hb
        exact hlt r' hr' a ha b hb

/-- The order of a level, run by run. -/
theorem ordered_iff {l : Level} :
    l.Ordered ↔ (∀ r ∈ l.runs, r.Tight ∧ Increasing r.page) ∧
      l.runs.Pairwise fun r r' => r.endKey < r'.key := by
  constructor
  · rintro ⟨ht, hi⟩
    obtain ⟨hpages, hpair⟩ := increasing_flatMap.mp hi
    refine ⟨fun r hr => ⟨ht r hr, hpages r hr⟩, ?_⟩
    refine hpair.imp_of_mem fun {r r'} hr hr' hlt => ?_
    obtain ⟨a, ha, hka⟩ := (ht r hr).endKey_mem
    obtain ⟨b, hb, hkb⟩ := (ht r' hr').key_mem
    rw [hka, hkb]
    exact hlt a ha b hb
  · rintro ⟨hr, hpair⟩
    refine ⟨fun r h => (hr r h).1, increasing_flatMap.mpr ⟨fun r h => (hr r h).2, ?_⟩⟩
    refine hpair.imp_of_mem fun {r r'} hr₁ hr₂ hlt a ha b hb => ?_
    exact ((hr r hr₁).1.le_endKey (hr r hr₁).2 ha).trans_lt
      (hlt.trans_le ((hr r' hr₂).1.key_le (hr r' hr₂).2 hb))

instance (l : Level) : Decidable l.Ordered := decidable_of_iff' _ ordered_iff

theorem Run.Tight.key_le_endKey {r : Run} (h : r.Tight) (hi : Increasing r.page) :
    r.key ≤ r.endKey := by
  obtain ⟨e, he, hk⟩ := h.key_mem
  exact hk ▸ h.le_endKey hi he

/-! ## Section 2: Runs in order -/

/-- The runs in order, with what the search uses of it. -/
structure RunOrder (runs : List Run) : Prop where
  le : ∀ r ∈ runs, r.key ≤ r.endKey
  lt : runs.Pairwise fun r r' => r.endKey < r'.key

theorem Level.Ordered.runOrder {l : Level} (h : l.Ordered) : RunOrder l.runs := by
  obtain ⟨hr, hpair⟩ := ordered_iff.mp h
  exact ⟨fun r hm => (hr r hm).1.key_le_endKey (hr r hm).2, hpair⟩

/-- The end keys of the runs increase. -/
theorem RunOrder.ends {runs : List Run} (h : RunOrder runs) :
    runs.Pairwise fun r r' => r.endKey < r'.endKey :=
  h.lt.imp_of_mem fun _ hr' hlt => hlt.trans_le (h.le _ hr')

variable {runs : List Run} {lpa : Key}

theorem runAt_eq {i : Int} (h0 : 0 ≤ i) (hi : i < runs.length) :
    ∃ (hlt : i.toNat < runs.length), runAt runs i = some runs[i.toNat] := by
  have hlt : i.toNat < runs.length := by omega
  refine ⟨hlt, ?_⟩
  unfold runAt
  rw [if_neg (not_lt.mpr h0), List.getElem?_eq_getElem hlt]

/-- A comparison of every run in the list, as a function of positions. -/
def orderAt (f : Run → Ordering) (runs : List Run) (i : Int) : Ordering :=
  match runs[i.toNat]? with
  | some r => f r
  | none => .gt

theorem orderAt_eq {f : Run → Ordering} {i : Int} (hlt : i.toNat < runs.length) :
    orderAt f runs i = f runs[i.toNat] := by
  unfold orderAt
  rw [List.getElem?_eq_getElem hlt]

theorem orderAt_nat {f : Run → Ordering} {j : Nat} (hj : j < runs.length) :
    orderAt f runs (j : Int) = f runs[j] := @orderAt_eq runs f (j : Int) hj

/-- A comparison that never decreases along the runs gives an interval in order. -/
theorem inOrder_of_pairwise {f : Run → Ordering} {cmp : Int → Option Ordering}
    (hcmp : ∀ i, cmp i = (runAt runs i).map f)
    (hpair : runs.Pairwise fun r r' => (f r' ≠ .gt → f r = .lt) ∧ (f r ≠ .lt → f r' = .gt)) :
    InOrder cmp (orderAt f runs) 0 (runs.length - 1) := by
  have hsteps : ∀ i j : Int, 0 ≤ i → i < j → j ≤ (runs.length : Int) - 1 →
      ∃ (hi : i.toNat < runs.length) (hj : j.toNat < runs.length),
        (f runs[j.toNat] ≠ .gt → f runs[i.toNat] = .lt) ∧
        (f runs[i.toNat] ≠ .lt → f runs[j.toNat] = .gt) := by
    intro i j h0 hij hj
    have hi' : i.toNat < runs.length := by omega
    have hj' : j.toNat < runs.length := by omega
    exact ⟨hi', hj', List.pairwise_iff_getElem.mp hpair _ _ hi' hj' (by omega)⟩
  -- The comparison is defined inside the bounds, and both verdicts spread to the neighbours.
  refine ⟨fun i h0 hi => ?_, fun i j h0 hij hj h => ?_, fun i j h0 hij hj h => ?_⟩
  · obtain ⟨hlt, hrun⟩ := runAt_eq h0 (show i < runs.length by omega)
    rw [hcmp, hrun, orderAt_eq hlt]
    rfl
  · obtain ⟨hi', hj', hbelow, -⟩ := hsteps i j h0 hij hj
    rw [orderAt_eq hj'] at h
    rw [orderAt_eq hi']
    exact hbelow h
  · obtain ⟨hi', hj', -, habove⟩ := hsteps i j h0 hij hj
    rw [orderAt_eq hi'] at h
    rw [orderAt_eq hj']
    exact habove h

theorem runCmp_eq_iff {r : Run} : runCmp r lpa = .eq ↔ r.key ≤ lpa ∧ lpa ≤ r.endKey := by
  unfold runCmp
  simp only [ne_eq, keyCmp_gt, keyCmp_lt, not_lt]
  split_ifs <;> simp_all

theorem runCmp_gt_iff {r : Run} : runCmp r lpa = .gt ↔ lpa < r.key := by
  unfold runCmp
  simp only [ne_eq, keyCmp_gt, keyCmp_lt, not_lt]
  split_ifs with hin habove
  · simpa using hin.1
  · simpa using habove
  · simpa using habove

theorem runCmp_lt_iff {r : Run} (h : r.key ≤ r.endKey) :
    runCmp r lpa = .lt ↔ r.endKey < lpa := by
  unfold runCmp
  simp only [ne_eq, keyCmp_gt, keyCmp_lt, not_lt]
  split_ifs with hin habove
  · simpa using hin.2
  · simpa using (habove.trans_le h).le
  · have hle := not_lt.mp habove
    simpa [hle] using hin

theorem RunOrder.searchable (h : RunOrder runs) (lpa : Key) :
    runs.Pairwise fun r r' =>
      (runCmp r' lpa ≠ .gt → runCmp r lpa = .lt) ∧ (runCmp r lpa ≠ .lt → runCmp r' lpa = .gt) := by
  refine h.lt.imp_of_mem fun {r r'} hr hr' hlt => ⟨fun hn => ?_, fun hn => ?_⟩
  · rw [ne_eq, runCmp_gt_iff, not_lt] at hn
    rw [runCmp_lt_iff (h.le r hr)]
    exact hlt.trans_le hn
  · rw [ne_eq, runCmp_lt_iff (h.le r hr), not_lt] at hn
    rw [runCmp_gt_iff]
    exact hn.trans_lt hlt

/-! ## Section 3: The search -/

theorem RunOrder.search (h : RunOrder runs) (lpa : Key) :
    ∃ r, searchLoop (cmpRun runs lpa) (runs.length + 1) 0 (runs.length - 1) none = some r ∧
      Ends (orderAt (fun r => runCmp r lpa) runs) 0 (runs.length - 1) r :=
  searchLoop_ends (inOrder_of_pairwise (fun _ => rfl) (h.searchable lpa)) (Int.le_refl 0) (by omega)
    (by omega)

/-- What `array_bound_search` returns for a lower bound. -/
inductive FirstReaching (runs : List Run) (lpa : Key) : Int → Prop where
  | found {i : Nat} (hi : i < runs.length) (hend : lpa ≤ runs[i].endKey)
      (hbefore : ∀ j (hj : j < runs.length), j < i → runs[j].endKey < lpa) :
      FirstReaching runs lpa i
  | missing (h : ∀ r ∈ runs, r.endKey < lpa) : FirstReaching runs lpa (-1)

theorem arrayBoundSearch_spec (h : RunOrder runs) (hne : runs ≠ []) (lpa : Key) :
    ∃ i, arrayBoundSearch runs lpa true = some i ∧ FirstReaching runs lpa i := by
  have hpos : 0 < runs.length := List.length_pos_of_ne_nil hne
  have hord := inOrder_of_pairwise (fun _ => rfl) (h.searchable lpa)
  have hends' : ∀ j (hj : j < runs.length), orderAt (fun r => runCmp r lpa) runs (j : Int) = .lt →
      runs[j].endKey < lpa := by
    intro j hj ho
    rw [orderAt_nat hj, runCmp_lt_iff (h.le _ (List.getElem_mem hj))] at ho
    exact ho
  obtain ⟨r, hr, hends⟩ := h.search lpa
  unfold arrayBoundSearch
  rw [hr, Option.map_some]
  cases hends with
  | hit hlo hhi heq =>
      rename_i mid
      obtain ⟨i, rfl⟩ := Int.eq_ofNat_of_zero_le hlo
      have hi : i < runs.length := by omega
      have hin := heq
      rw [orderAt_nat hi, runCmp_eq_iff] at hin
      refine ⟨_, rfl, .found hi hin.2 fun j hj hji => ?_⟩
      exact hends' j hj (hord.below j i (by omega) (by omega) hhi (by rw [heq]; decide))
  | miss hempty hlo hhi hbelow habove hlast =>
      rename_i start stop last
      -- The loop leaves `start` at the first run that does not end below the key.
      have hstart : ∀ (hlt : start < runs.length), FirstReaching runs lpa start := by
        intro hlt
        obtain ⟨i, rfl⟩ := Int.eq_ofNat_of_zero_le hlo
        have hi : i < runs.length := by omega
        have ho := habove i (Int.le_refl _) (by omega)
        rw [orderAt_nat hi, runCmp_gt_iff] at ho
        refine .found hi (ho.le.trans (h.le _ (List.getElem_mem hi))) fun j hj hji => ?_
        exact hends' j hj (hbelow j (by omega) (by omega))
      have hnone : runs.length ≤ start → FirstReaching runs lpa (-1) := by
        intro hge
        refine .missing fun x hx => ?_
        obtain ⟨j, hj, rfl⟩ := List.mem_iff_getElem.mp hx
        exact hends' j hj (hbelow j (by omega) (by omega))
      match last, hlast with
      | none, hlast =>
          have hzero := hlast.2
          omega
      | some (mid, .lt), hlast =>
          have hmid := hlast.1
          dsimp only
          by_cases hlt : mid < (runs.length : Int) - 1
          · rw [if_pos hlt, hmid]
            exact ⟨_, rfl, hstart (by omega)⟩
          · rw [if_neg hlt]
            exact ⟨_, rfl, hnone (by omega)⟩
      | some (mid, .gt), hlast =>
          have hmid : mid = start := hlast.1
          have hle := hlast.2
          dsimp only
          rw [hmid]
          exact ⟨_, rfl, hstart (by omega)⟩

/-- Whether a search for `key_min` finds the whole level. -/
def keepsRuns (runs : List Run) : Prop :=
  (∀ r ∈ runs, keyMin ≤ r.endKey) ∨ ∀ r ∈ runs, r.endKey < keyMin

/-- The runs found for `key_min` are all of them, or some run is left out. -/
theorem arrayRangeFindCompaction_eq {l : Level} (h : RunOrder l.runs) :
    arrayRangeFindCompaction l keyMin = l.runs ↔ keepsRuns l.runs := by
  unfold arrayRangeFindCompaction keepsRuns
  by_cases hnil : l.runs = []
  · rw [hnil, List.drop_nil]
    exact iff_of_true rfl (Or.inl fun r hr => absurd hr List.not_mem_nil)
  · obtain ⟨i, hi, hfirst⟩ := arrayBoundSearch_spec h hnil keyMin
    rw [hi, Option.getD_some]
    dsimp only
    cases hfirst with
    -- Nothing is dropped exactly if the first run that ends past the key is the first of all.
    | found hlt hend hbefore =>
        rename_i i
        rw [if_neg (by omega), Int.toNat_natCast]
        constructor
        · intro hdrop
          have hlen := congrArg List.length hdrop
          rw [List.length_drop] at hlen
          have hzero : i = 0 := by omega
          subst hzero
          left
          intro r hr
          obtain ⟨j, hj, rfl⟩ := List.mem_iff_getElem.mp hr
          rcases Nat.eq_zero_or_pos j with hj0 | hj0
          · subst hj0
            exact hend
          · exact hend.trans (List.pairwise_iff_getElem.mp h.ends 0 j hlt hj hj0).le
        · rintro (hall | hnone)
          · have hzero : i = 0 := by
              by_contra hpos
              have hlt0 : 0 < l.runs.length := List.length_pos_of_ne_nil hnil
              exact absurd (hall _ (List.getElem_mem hlt0)) (hbefore 0 hlt0 (by omega)).not_ge
            rw [hzero, List.drop_zero]
          · exact absurd (hnone _ (List.getElem_mem hlt)) hend.not_gt
    -- With no such run the search gives -1 and the whole level is yielded.
    | missing hall =>
        rw [if_pos rfl]
        exact iff_of_true rfl (Or.inr hall)

end AggreKV.LsmTree
