import AggreKV.HashKv.HotRehash
import AggreKV.HashKv.Promotion
import AggreKV.Lib.Tally

/-! # What a rehash keeps

    A rehash saves the warm entries of the active pages and inserts them
    again, in ticks that lookups and promotions drive on.

    * `RehashOp`: what may move a running rehash on.
    * `Collects`, `Inserts`: the invariants of the two loops.
    * `rehash_keeps_warm`: the rehash ends, with the warm entries exactly. -/

namespace AggreKV.HashKv

namespace HotTable

variable {h h' : HotTable}

/-! ## Section 1: Runs of a rehash -/

/-- What may happen while a rehash is running; `drain` is `hot_rehash_drain` with at least
    one round, as `list_up` and the rebalance call it. -/
inductive RehashOp where
  | tick
  | lookup (lpa : Nat)
  | promote (lpa : Nat) (ppa : Option Nat) (keyFp : UInt32) (coldCnt : Nat)
  | drain (rounds : Nat)

/-- A lookup and a promotion as in `Mem.next`. -/
def rehashOp (h : HotTable) : RehashOp → HotTable
  | .tick => h.rehashTick
  | .lookup lpa =>
    match h.hitSlot lpa with
    | some i => h.stateRaise i
    | none => h.rehashDrain 4
  | .promote lpa ppa keyFp coldCnt =>
    if h.accessible then h.placeGrain lpa ppa keyFp coldCnt else h.rehashDrain 8
  | .drain rounds => h.rehashDrain (rounds + 1)

/-- The operations up to the one that ends the rehash. -/
def untilIdle (h : HotTable) : List RehashOp → HotTable
  | [] => h
  | op :: ops => if h.accessible then h else (h.rehashOp op).untilIdle ops

/-- Every operation on a running rehash is one tick or more. -/
theorem rehashOp_eq (hbusy : h.accessible = false) (op : RehashOp) :
    ∃ t, h.rehashOp op = rehashTick^[t + 1] h := by
  cases op with
  | tick => exact ⟨0, rfl⟩
  | lookup lpa =>
    have hmiss : h.hitSlot lpa = none := by
      rw [hitSlot, hbusy]
      rfl
    refine ⟨3, ?_⟩
    rw [rehashOp, hmiss]
    exact rehashDrain_eq 4 h
  | promote lpa ppa keyFp coldCnt =>
    refine ⟨7, ?_⟩
    rw [rehashOp, hbusy, if_neg Bool.false_ne_true]
    exact rehashDrain_eq 8 h
  | drain rounds => exact ⟨rounds, rehashDrain_eq (rounds + 1) h⟩

/-- The operations tick until the rehash is over. -/
theorem untilIdle_eq (ops : List RehashOp) (h : HotTable) :
    ∃ t, h.untilIdle ops = rehashTick^[t] h ∧
      (ops.length ≤ t ∨ (h.untilIdle ops).accessible = true) := by
  induction ops generalizing h with
  | nil => exact ⟨0, rfl, .inl (Nat.le_refl 0)⟩
  | cons op ops ih =>
    rw [untilIdle]
    cases hacc : h.accessible with
    | true => exact ⟨0, rfl, .inr hacc⟩
    | false =>
      obtain ⟨u, hu⟩ := rehashOp_eq hacc op
      obtain ⟨t, ht, hend⟩ := ih (h.rehashOp op)
      rw [if_neg Bool.false_ne_true]
      refine ⟨t + (u + 1), ?_, hend.imp_left fun hle => ?_⟩
      · rw [ht, hu, ← Function.iterate_add_apply]
      · rw [List.length_cons]
        omega

/-- The ticks of a whole rehash. -/
theorem rehash_ticks (h : HotTable) :
    ∃ t ≤ h.active / 32768 + h.active / 8192 + 4,
      rehashTick^[t] h.rehashBegin = h.rehashBegin.collected.inserted.rehashFinish := by
  have hscan : h.rehashBegin.toScan = h.active := rfl
  have hsaved : h.rehashBegin.collected.toInsert ≤ h.active :=
    (Nat.sub_le _ _).trans h.length_saved_collected
  have hbatch : ∀ n b, 0 < b → n ≤ (n / b + 1) * b := fun n b hb =>
    Nat.le_of_lt (Nat.lt_mul_of_div_lt (Nat.lt_succ_self _) hb)
  obtain ⟨t, ht, hcollect⟩ := collect_ticks (h := h.rehashBegin) rfl (h.active / 32768 + 1)
    (hscan.le.trans (hbatch _ _ (by omega)))
  obtain ⟨u, hu, hinsert⟩ := insert_ticks (h := h.rehashBegin.collected) rfl (h.active / 8192 + 1)
    (hsaved.trans (hbatch _ _ (by omega)))
  refine ⟨u + t, by omega, ?_⟩
  rw [Function.iterate_add_apply, hcollect, hinsert]

/-- A run that has ended ends in the rehashed table, and long runs end. -/
theorem untilIdle_end (ops : List RehashOp) (h : HotTable)
    (hend : (h.rehashBegin.untilIdle ops).accessible = true ∨
      h.active / 32768 + h.active / 8192 + 4 ≤ ops.length) :
    h.rehashBegin.untilIdle ops = h.rehashBegin.collected.inserted.rehashFinish := by
  obtain ⟨T, hT, hfinal⟩ := h.rehash_ticks
  obtain ⟨t, ht, hlong⟩ := untilIdle_eq ops h.rehashBegin
  have hidle : h.rehashBegin.collected.inserted.rehashFinish.phase = .idle := rfl
  have hfixed : (h.rehashBegin.untilIdle ops).accessible = true →
      h.rehashBegin.untilIdle ops = h.rehashBegin.collected.inserted.rehashFinish := by
    intro hacc
    have hstay := rehashTick_idle (of_decide_eq_true hacc) T
    rw [ht, ← Function.iterate_add_apply, Nat.add_comm, Function.iterate_add_apply, hfinal,
      rehashTick_idle hidle] at hstay
    rw [ht, ← hstay]
  rcases hend with hacc | hops
  · exact hfixed hacc
  · rcases hlong with hlen | hacc
    · obtain ⟨d, rfl⟩ := Nat.exists_eq_add_of_le' (hT.trans (hops.trans hlen))
      rw [ht, Function.iterate_add_apply, hfinal]
      exact rehashTick_idle hidle d
    · exact hfixed hacc

/-! ## Section 2: The entries -/

/-- The entry of slot `i`. -/
def entry (h : HotTable) (i : Nat) : Option HotPte :=
  if (h.slots i).lpa = none then none else some (h.slots i).toPte

/-- The entries of the active pages. -/
def entries (h : HotTable) : List HotPte := tally h.entry h.active

/-- `hot_pte_is_warm` of an occupied slot. -/
def warmPte (e : HotPte) : Bool := 2 ≤ e.state

/-- No two occupied slots of the active pages hold the same lpa. -/
def Distinct (h : HotTable) : Prop :=
  ∀ i < h.active, ∀ j < h.active, (h.slots i).lpa ≠ none → (h.slots i).lpa = (h.slots j).lpa → i = j

/-- An entry is the mapping of an occupied slot. -/
theorem entry_some {i : Nat} {e : HotPte} (he : h.entry i = some e) :
    (h.slots i).lpa ≠ none ∧ e = (h.slots i).toPte := by
  unfold entry at he
  split at he
  · cases he
  · next hne =>
    cases he
    exact ⟨hne, rfl⟩

/-- One slot is written. -/
theorem entry_setSlot (h : HotTable) (i : Nat) (e : HotSlot) :
    (h.setSlot i e).entry =
      Function.update h.entry i (if e.lpa = none then none else some e.toPte) := by
  funext j
  rw [entry, slots_setSlot, Function.update_apply]
  by_cases hj : j = i
  · rw [if_pos hj, if_pos hj]
  · rw [if_neg hj, if_neg hj, entry]

/-- All lpas of the entries are distinct. -/
theorem Distinct.nodup (hd : h.Distinct) : (h.entries.map HotPte.lpa).Nodup := by
  apply nodup_tally
  intro i hi j hj a b ha hb hab
  obtain ⟨hne, rfl⟩ := entry_some ha
  obtain ⟨-, rfl⟩ := entry_some hb
  exact hd i hi j hj hne hab

/-! ## Section 3: Collecting -/

/-- The collect loop: what has been scanned is empty, and the warm entries of it are saved. -/
structure Collects (h₀ h : HotTable) : Prop where
  pages : h.env.maxCachedHotTpages = h₀.env.maxCachedHotTpages
  size : h.env.maxCachedHotEntries = h₀.env.maxCachedHotEntries
  nPages : h.nPages = h₀.env.maxCachedHotTpages
  bound : h.scan ≤ h₀.active
  scanned : ∀ i < h.scan, (h.slots i).lpa = none
  rest : ∀ i, h.scan ≤ i → h.slots i = h₀.slots i
  saved : h.saved.map HotSlot.toPte = (tally h₀.entry h.scan).filter warmPte

/-- Nothing is scanned at first. -/
theorem Collects.begin (h : HotTable) : Collects h h.rehashBegin where
  pages := rfl
  size := rfl
  nPages := rfl
  bound := Nat.zero_le _
  scanned := fun i hi => absurd hi (Nat.not_lt_zero i)
  rest := fun _ _ => rfl
  saved := rfl

/-- A warm entry is saved, any entry is cleared. -/
theorem Collects.step {h₀ : HotTable} (hc : Collects h₀ h) (hl : 0 < h.toScan) :
    Collects h₀ h.collectSlot := by
  have hmore : h.scan + 1 ≤ h₀.active := by
    unfold toScan at hl
    rw [hc.nPages] at hl
    unfold active
    omega
  have hslot : h.slots h.scan = h₀.slots h.scan := hc.rest h.scan (Nat.le_refl _)
  unfold collectSlot
  dsimp only
  by_cases hempty : (h.slots h.scan).lpa = none
  · rw [if_pos hempty]
    refine ⟨hc.pages, hc.size, hc.nPages, hmore, fun i hi => ?_,
      fun i hi => hc.rest i (Nat.le_of_succ_le hi), ?_⟩
    · rcases Nat.lt_succ_iff_lt_or_eq.mp hi with hlt | rfl
      · exact hc.scanned i hlt
      · exact hempty
    · have hnone : h₀.entry h.scan = none := by
        rw [entry, ← hslot]
        exact if_pos hempty
      show h.saved.map HotSlot.toPte = (tally h₀.entry (h.scan + 1)).filter warmPte
      rw [tally_succ, hnone, Option.toList_none, List.append_nil]
      exact hc.saved
  · rw [if_neg hempty]
    refine ⟨?_, ?_, hc.nPages, hmore, fun i hi => ?_, fun i hi => ?_, ?_⟩
    · show (if _ then _ else _ : CacheEnv).maxCachedHotTpages = _
      split
      · exact hc.pages
      · exact (yieldKeyBudget_pages _ _).1.trans hc.pages
    · show (if _ then _ else _ : CacheEnv).maxCachedHotEntries = _
      split
      · exact hc.size
      · exact (yieldKeyBudget_pages _ _).2.trans hc.size
    · show (((h.uncount _).setSlot h.scan _).slots i).lpa = none
      rw [slots_setSlot]
      split
      · rfl
      · next hne =>
        have hlt : i < h.scan := by
          have hle : i < h.scan + 1 := hi
          omega
        exact hc.scanned i hlt
    · have hgt : i ≠ h.scan := by
        have hle : h.scan + 1 ≤ i := hi
        omega
      show ((h.uncount _).setSlot h.scan _).slots i = _
      rw [slots_setSlot, if_neg hgt]
      exact hc.rest i (by
        have hle : h.scan + 1 ≤ i := hi
        omega)
    · have hsome : h₀.entry h.scan = some (h.slots h.scan).toPte := by
        rw [entry, ← hslot]
        exact if_neg hempty
      -- The test of the scan is the one of the specification.
      have hwarm : (h.slots h.scan).warm = warmPte (h.slots h.scan).toPte := by
        obtain ⟨l, hl⟩ := Option.ne_none_iff_exists'.mp hempty
        unfold HotSlot.warm warmPte
        rw [hl, Option.isSome_some, Bool.true_and]
        rfl
      show (if _ then _ else _ : List HotSlot).map HotSlot.toPte =
        (tally h₀.entry (h.scan + 1)).filter warmPte
      rw [tally_succ, hsome, Option.toList_some, List.filter_append, ← hc.saved, hwarm]
      split
      · next hw => rw [List.map_append, List.filter_cons_of_pos hw]; rfl
      · next hw => rw [List.filter_cons_of_neg hw, List.filter_nil, List.append_nil]

theorem Collects.loop (h : HotTable) (n : Nat) :
    Collects h (AggreKV.loop collectSlot toScan n h.rehashBegin) :=
  loop_induction (fun _ hc hl => Collects.step hc hl) n (Collects.begin h)

/-! ## Section 4: Inserting -/

/-- The probes stay in the active pages. -/
theorem hotProbe_lt {tpages : Nat} (hpos : 0 < tpages) (n : Nat) : ∀ {d p : Nat} (step : Nat),
    d < tpages → p < 512 → ∀ i ∈ hotProbe tpages n d p step, i < tpages * 512 := by
  induction n with
  | zero =>
    intro d p step _ _ i hi
    cases hi
  | succ n ih =>
    intro d p step hd hp i hi
    rcases List.mem_cons.mp hi with rfl | hi
    · have hrow : (d + 1) * 512 ≤ tpages * 512 := Nat.mul_le_mul_right 512 hd
      omega
    · exact ih (step + 1) (Nat.mod_lt _ hpos) (Nat.mod_lt _ (by decide)) i hi

/-- The probes lie on the active pages. -/
theorem probes_lt (hsize : h.env.maxCachedHotEntries = h.active) (hpos : 0 < h.active)
    (lpa n : Nat) : ∀ i ∈ h.probes lpa n, i < h.active := by
  have hlt : lpa % h.env.maxCachedHotEntries < h.env.maxCachedHotTpages * 512 := by
    rw [hsize]
    exact Nat.mod_lt lpa hpos
  apply hotProbe_lt
  · unfold active at hpos
    omega
  · exact Nat.div_lt_of_lt_mul (by rwa [Nat.mul_comm])
  · exact Nat.mod_lt _ (by decide)

/-- An entry whose lpa is not in the table goes to an empty slot, if there is one: the scan
    of all slots finds it when the probes do not. -/
theorem placeSlot_spec (hsize : h.env.maxCachedHotEntries = h.active) {lpa i : Nat}
    (hi : i < h.active) (hempty : (h.slots i).lpa = none)
    (hno : ∀ j < h.active, (h.slots j).lpa ≠ some lpa) :
    ∃ j < h.active, h.placeSlot lpa = some j ∧ (h.slots j).lpa = none := by
  have hpos : 0 < h.active := by omega
  have hfree : ∀ j < h.active,
      ((h.slots j).lpa.isNone || decide ((h.slots j).lpa = some lpa)) = true →
        (h.slots j).lpa = none := by
    intro j hj hf
    rcases Bool.or_eq_true_iff.mp hf with hf | hf
    · exact Option.isNone_iff_eq_none.mp hf
    · exact absurd (of_decide_eq_true hf) (hno j hj)
  unfold placeSlot
  dsimp only
  cases hprobe : (h.probes lpa 3200).find?
      (fun i => (h.slots i).lpa.isNone || decide ((h.slots i).lpa = some lpa)) with
  | some j =>
    have hj := probes_lt hsize hpos lpa 3200 j (List.mem_of_find?_eq_some hprobe)
    exact ⟨j, hj, rfl, hfree j hj (List.find?_some (p := fun i =>
      (h.slots i).lpa.isNone || decide ((h.slots i).lpa = some lpa)) hprobe)⟩
  -- No probe is free: all slots are scanned.
  | none =>
    cases hscan : (List.range h.active).find?
        (fun i => (h.slots i).lpa.isNone || decide ((h.slots i).lpa = some lpa)) with
    | some j =>
      have hj := List.mem_range.mp (List.mem_of_find?_eq_some hscan)
      exact ⟨j, hj, rfl, hfree j hj (List.find?_some (p := fun i =>
        (h.slots i).lpa.isNone || decide ((h.slots i).lpa = some lpa)) hscan)⟩
    | none =>
      have hi' := List.find?_eq_none.mp hscan i (List.mem_range.mpr hi)
      rw [hempty] at hi'
      exact absurd rfl hi'

/-- The insert loop: the saved entries up to `insertIdx` are in the table, and no others. -/
structure Inserts (h₀ h : HotTable) : Prop where
  pages : h.env.maxCachedHotTpages = h₀.env.maxCachedHotTpages
  size : h.env.maxCachedHotEntries = h₀.env.maxCachedHotEntries
  saved : h.saved.map HotSlot.toPte = h₀.entries.filter warmPte
  placed : h.entries.Perm ((h.saved.take h.insertIdx).map HotSlot.toPte)

/-- Nothing is inserted at first. -/
theorem Inserts.begin (h : HotTable) : Inserts h h.rehashBegin.collected := by
  have hc := Collects.loop h h.rehashBegin.toScan
  have hdone : (AggreKV.loop collectSlot toScan h.rehashBegin.toScan h.rehashBegin).scan =
      h.active := by
    have hzero : (AggreKV.loop collectSlot toScan h.rehashBegin.toScan h.rehashBegin).toScan =
        0 := by
      rw [left_loop (fun _ hl => toScan_collectSlot hl), Nat.sub_self]
    have hle := Nat.le_of_sub_eq_zero hzero
    rw [hc.nPages] at hle
    exact Nat.le_antisymm hc.bound hle
  refine ⟨hc.pages, hc.size, ?_, ?_⟩
  · have hsaved := hc.saved
    rw [hdone] at hsaved
    exact hsaved
  · have hempty : h.rehashBegin.collected.entries = [] := by
      apply tally_eq_nil
      intro i hi
      have hi' : i < h.active := by
        unfold active at hi ⊢
        rwa [show h.rehashBegin.collected.env.maxCachedHotTpages = h.env.maxCachedHotTpages from
          hc.pages] at hi
      exact if_pos (hc.scanned i (hdone ▸ hi'))
    rw [hempty]
    exact .refl _

/-- The next saved entry goes to an empty slot. -/
theorem Inserts.step {h₀ : HotTable} (hsize : h₀.env.maxCachedHotEntries = h₀.active)
    (hd : h₀.Distinct) (hi : Inserts h₀ h) {e : HotSlot} (he : h.saved[h.insertIdx]? = some e) :
    Inserts h₀ (h.insertEntry e) := by
  have hlt : h.insertIdx < h.saved.length := (List.getElem?_eq_some_iff.mp he).1
  have hactive : h.active = h₀.active := by
    unfold active
    rw [hi.pages]
  have hsize' : h.env.maxCachedHotEntries = h.active := by rw [hi.size, hsize, hactive]
  -- The saved entries are entries of the table at the beginning.
  have hsub : (h.saved.map HotSlot.toPte).Sublist h₀.entries := hi.saved ▸ List.filter_sublist
  have hnodup : ((h.saved.map HotSlot.toPte).map HotPte.lpa).Nodup :=
    hd.nodup.sublist (hsub.map HotPte.lpa)
  have hmem : e.toPte ∈ h₀.entries :=
    hsub.subset (List.mem_map_of_mem (List.mem_of_getElem? he))
  obtain ⟨k, -, hk⟩ := mem_tally.mp hmem
  obtain ⟨hlpa, hke⟩ := entry_some hk
  have hlpa' : e.lpa ≠ none := by
    have heq : e.lpa = (h₀.slots k).lpa := congrArg HotPte.lpa hke
    rwa [heq]
  obtain ⟨lpa, hlpa'⟩ := Option.ne_none_iff_exists'.mp hlpa'
  -- Its lpa is not yet in the table.
  have hno : ∀ j < h.active, (h.slots j).lpa ≠ some lpa := by
    intro j hj hlj
    have hentry : (h.slots j).toPte ∈ h.entries := by
      refine mem_tally.mpr ⟨j, hj, if_neg ?_⟩
      rw [hlj]
      exact Option.some_ne_none _
    obtain ⟨x, hx, hxj⟩ := List.mem_map.mp (hi.placed.subset hentry)
    have hxlpa : x.lpa = e.lpa := by
      have heq : x.lpa = (h.slots j).lpa := congrArg HotPte.lpa hxj
      rw [heq, hlj, hlpa']
    have hget : h.saved[h.insertIdx] = e := (List.getElem?_eq_some_iff.mp he).2
    rw [List.map_map, ← List.take_append_drop h.insertIdx h.saved,
      List.drop_eq_getElem_cons hlt, hget, List.map_append, List.map_cons] at hnodup
    have hapart := (List.nodup_append.mp hnodup).2.2
    exact hapart x.lpa (List.mem_map_of_mem hx) e.lpa (List.mem_cons_self ..) hxlpa
  -- There is room: no more entries are saved than there are slots.
  have hroom : ∃ i < h.active, h.entry i = none := by
    apply exists_empty
    have hlen : h.entries.length = h.insertIdx := by
      rw [hi.placed.length_eq, List.length_map, List.length_take]
      omega
    have hle : h.saved.length ≤ h₀.active := by
      have hsublen := hsub.length_le
      rw [List.length_map] at hsublen
      exact hsublen.trans (length_tally_le _ _)
    show h.entries.length < h.active
    omega
  obtain ⟨i, hilt, hiempty⟩ := hroom
  have hiempty' : (h.slots i).lpa = none := by
    by_contra hne
    rw [entry, if_neg hne] at hiempty
    cases hiempty
  obtain ⟨j, hj, hplace, hjempty⟩ := placeSlot_spec hsize' hilt hiempty' hno
  have hbind : e.lpa.bind h.placeSlot = some j := by rw [hlpa', Option.bind_some, hplace]
  unfold insertEntry
  rw [hbind]
  refine ⟨hi.pages, hi.size, hi.saved, ?_⟩
  have hcopy : (copyPte (h.slots j) e).lpa ≠ none := by
    show e.lpa ≠ none
    rw [hlpa']
    exact Option.some_ne_none _
  have hentries : (tally (h.setSlot j (copyPte (h.slots j) e)).entry h.active).Perm
      (e.toPte :: h.entries) := by
    rw [entry_setSlot, if_neg hcopy]
    exact tally_update hj (if_pos hjempty) _
  have htake : h.saved.take (h.insertIdx + 1) = h.saved.take h.insertIdx ++ [e] := by
    rw [List.take_add_one, he, Option.toList_some]
  show (tally (h.setSlot j (copyPte (h.slots j) e)).entry h.active).Perm
    ((h.saved.take (h.insertIdx + 1)).map HotSlot.toPte)
  rw [htake, List.map_append]
  exact hentries.trans ((hi.placed.cons e.toPte).trans (List.perm_append_singleton _ _).symm)

/-! ## Section 5: The result -/

/-- The loop has no condition to meet. -/
theorem insertsOk_true (n : Nat) (h : HotTable) : h.InsertsOk (fun _ _ => True) n := by
  induction n generalizing h with
  | zero => trivial
  | succ n ih =>
    unfold InsertsOk
    split
    · exact ⟨trivial, ih _⟩
    · trivial

/-- The tables hold the same warm entries, and the second one no others. -/
structure KeepsWarm (h h' : HotTable) : Prop where
  pages : h'.env.maxCachedHotTpages = h.env.maxCachedHotTpages
  /-- Each warm entry once, with its lpa, ppa, fingerprint and state. -/
  entries : h'.entries.Perm (h.entries.filter warmPte)
  distinct : h'.Distinct

/-- A rehash ends after finitely many operations, whatever they are, and then the active
    pages hold the warm entries that they held at its begin, and nothing else. -/
theorem rehash_keeps_warm (h : HotTable) (hsize : h.env.maxCachedHotEntries = h.active)
    (hd : h.Distinct) :
    (∀ ops : List RehashOp, h.active / 32768 + h.active / 8192 + 4 ≤ ops.length →
      (h.rehashBegin.untilIdle ops).accessible = true) ∧
    ∀ ops : List RehashOp, (h.rehashBegin.untilIdle ops).accessible = true →
      KeepsWarm h (h.rehashBegin.untilIdle ops) := by
  refine ⟨fun ops hops => ?_, fun ops hacc => ?_⟩
  · rw [untilIdle_end ops h (.inr hops)]
    rfl
  · rw [untilIdle_end ops h (.inl hacc)]
    have hi : Inserts h h.rehashBegin.collected.inserted := by
      refine inserted_rule (P := fun _ _ => True) (D := Inserts h)
        (fun g e hg he _ => hg.step hsize hd he) _ (.begin h) ?_ (Nat.le_refl _)
      exact insertsOk_true _ _
    -- All saved entries have been inserted.
    have hall : h.rehashBegin.collected.inserted.saved.length ≤
        h.rehashBegin.collected.inserted.insertIdx := by
      have hzero : h.rehashBegin.collected.inserted.toInsert = 0 := by
        unfold inserted
        rw [left_loop (fun _ hl => toInsert_insertNext hl), Nat.sub_self]
      exact Nat.le_of_sub_eq_zero hzero
    have hentries : h.rehashBegin.collected.inserted.entries.Perm (h.entries.filter warmPte) := by
      have hplaced := hi.placed
      rwa [List.take_of_length_le hall, hi.saved] at hplaced
    refine ⟨hi.pages, hentries, ?_⟩
    intro i hi' j hj hne hij
    have hnodup : (h.rehashBegin.collected.inserted.entries.map HotPte.lpa).Nodup := by
      refine (hentries.map HotPte.lpa).nodup_iff.mpr ?_
      exact hd.nodup.sublist (List.filter_sublist.map HotPte.lpa)
    have hne' : (h.rehashBegin.collected.inserted.slots j).lpa ≠ none := hij ▸ hne
    exact slot_unique HotPte.lpa hnodup hi' hj (if_neg hne) (if_neg hne') hij

/-- Warm and cold entries of a table of 1024 pages. Those in slots 515, 516 and 520 have
    the same home slot, 515. -/
def crowd : List (Nat × HotSlot) :=
  [(515, ⟨some 515, some 40, 3, 9, [], false, 0⟩),
    (516, ⟨some 524803, some 44, 5, 7, [], false, 0⟩),
    (520, ⟨some 1049091, some 48, 1, 7, [], false, 0⟩),
    (2000, ⟨some 2000, some 52, 2, 8, [], false, 0⟩),
    (400000, ⟨some 400000, some 56, 4, 5, [], false, 0⟩),
    (400001, ⟨some 400001, some 60, 0, 5, [], false, 0⟩)]

def crowdedTable : HotTable :=
  { HotTable.create
      { shippedEnv with maxCachedHotTpages := 1024, maxCachedHotEntries := 524288 } with
    slots := fun i => (crowd.lookup i).getD .empty }

/-- The occupied slots of the table. -/
theorem crowdedTable_slot {i : Nat} (hne : (crowdedTable.slots i).lpa ≠ none) :
    (i, crowdedTable.slots i) ∈ crowd := by
  have hslot : crowdedTable.slots i = (crowd.lookup i).getD .empty := rfl
  cases hl : crowd.lookup i with
  | none =>
    rw [hslot, hl] at hne
    exact absurd rfl hne
  | some e =>
    rw [hslot, hl, Option.getD_some]
    obtain ⟨l₁, l₂, heq, -⟩ := List.lookup_eq_some_iff.mp hl
    rw [heq]
    simp

/-- No two of them have the same lpa. -/
theorem crowdedTable_distinct : crowdedTable.Distinct := by
  intro i _ j _ hne hij
  have hi := crowdedTable_slot hne
  have hj := crowdedTable_slot (hij ▸ hne)
  have hpair : crowd.Pairwise fun x y => x.2.lpa ≠ y.2.lpa := by decide
  have hnodup : (crowd.map fun x => x.2.lpa).Nodup := List.pairwise_map.mpr hpair
  exact congrArg Prod.fst (List.inj_on_of_nodup_map hnodup hi hj hij)

/-- The rehash of the crowded table, with lookups and a promotion between its ticks: the
    four warm entries stay, also the two that share their probes, and the cold ones go. -/
theorem rehash_keeps_warm_crowded : ∃ h', h' = crowdedTable.rehashBegin.untilIdle
      ([.lookup 515, .tick, .promote 2000 (some 64) 3 4, .lookup 7] ++ .replicate 80 .tick) ∧
    h'.accessible = true ∧ h'.Distinct ∧
    ∀ e, e ∈ h'.entries ↔ e ∈ [⟨some 515, some 40, 3, 9⟩, ⟨some 524803, some 44, 5, 7⟩,
      ⟨some 2000, some 52, 2, 8⟩, ⟨some 400000, some 56, 4, 5⟩] := by
  obtain ⟨hends, hkeeps⟩ := rehash_keeps_warm crowdedTable rfl crowdedTable_distinct
  have hacc := hends ([.lookup 515, .tick, .promote 2000 (some 64) 3 4, .lookup 7] ++
    .replicate 80 .tick) (by decide)
  have hwarm := hkeeps _ hacc
  refine ⟨_, rfl, hacc, hwarm.distinct, fun e => ?_⟩
  have hcrowd : (crowd.filter fun x => warmPte x.2.toPte).map (fun x => x.2.toPte) =
      [⟨some 515, some 40, 3, 9⟩, ⟨some 524803, some 44, 5, 7⟩, ⟨some 2000, some 52, 2, 8⟩,
        ⟨some 400000, some 56, 4, 5⟩] := rfl
  -- The warm entries of the crowd are those of the table.
  rw [hwarm.entries.mem_iff, List.mem_filter, ← hcrowd, List.mem_map]
  constructor
  · rintro ⟨he, hw⟩
    obtain ⟨i, -, hi⟩ := mem_tally.mp he
    obtain ⟨hne, rfl⟩ := entry_some hi
    exact ⟨(i, crowdedTable.slots i), List.mem_filter.mpr ⟨crowdedTable_slot hne, hw⟩, rfl⟩
  · rintro ⟨x, hx, rfl⟩
    obtain ⟨hx, hw⟩ := List.mem_filter.mp hx
    have hall : ∀ x ∈ crowd, x.1 < crowdedTable.active ∧ crowdedTable.slots x.1 = x.2 ∧
        x.2.lpa ≠ none := by decide
    obtain ⟨hlt, hslot, hne⟩ := hall x hx
    refine ⟨mem_tally.mpr ⟨x.1, hlt, ?_⟩, hw⟩
    unfold entry
    rw [hslot]
    exact if_neg hne

end HotTable

end AggreKV.HashKv
