import AggreKV.Lib.Batches
import AggreKV.HashKv.HotTable

/-! # A complete rehash

    `hot_rehash_drain_all` ticks until the rehash is over, and a table of
    less than `INT_MAX` pages is rehashed before it gives up. So a rebalance
    leaves the table idle, with all warm entries collected and inserted.

    * `rehash_eq`: the ticks are one collect loop and one insert loop.
    * `InsertsOk`: a condition on every entry when its turn to be inserted comes.
    * `rehash_rule`: the invariant rule of a rehash. -/

namespace AggreKV.HashKv

namespace HotTable

variable {h : HotTable}

/-! ## Section 1: The rounds of the two loops -/

@[simp] theorem collectSlot_phase (h : HotTable) : h.collectSlot.phase = h.phase :=
  collectSlot_rule h (fun _ => rfl) (fun _ _ => rfl) fun _ _ => rfl

@[simp] theorem collectSlot_nPages (h : HotTable) : h.collectSlot.nPages = h.nPages :=
  collectSlot_rule h (fun _ => rfl) (fun _ _ => rfl) fun _ _ => rfl

@[simp] theorem collectSlot_scan (h : HotTable) : h.collectSlot.scan = h.scan + 1 :=
  collectSlot_rule h (fun _ => rfl) (fun _ _ => rfl) fun _ _ => rfl

@[simp] theorem insertEntry_phase (h : HotTable) (e : HotSlot) :
    (h.insertEntry e).phase = h.phase := by
  unfold insertEntry
  split <;> rfl

@[simp] theorem insertEntry_saved (h : HotTable) (e : HotSlot) :
    (h.insertEntry e).saved = h.saved := by
  unfold insertEntry
  split <;> rfl

@[simp] theorem insertEntry_insertIdx (h : HotTable) (e : HotSlot) :
    (h.insertEntry e).insertIdx = h.insertIdx + 1 := by
  unfold insertEntry
  split <;> rfl

/-- The slots still to be scanned. -/
def toScan (h : HotTable) : Nat := h.nPages * 512 - h.scan

/-- The saved entries still to be inserted. -/
def toInsert (h : HotTable) : Nat := h.saved.length - h.insertIdx

/-- The round of the insert loop. -/
def insertNext (h : HotTable) : HotTable :=
  match h.saved[h.insertIdx]? with
  | some e => h.insertEntry e
  | none => h

/-- While entries are left, the next one is inserted. -/
theorem insertNext_eq {e : HotSlot} (he : h.saved[h.insertIdx]? = some e) :
    h.insertNext = h.insertEntry e := by
  unfold insertNext
  rw [he]

theorem exists_saved (hl : 0 < h.toInsert) : ∃ e, h.saved[h.insertIdx]? = some e := by
  have hlt : h.insertIdx < h.saved.length := by
    unfold toInsert at hl
    omega
  exact ⟨_, List.getElem?_eq_getElem hlt⟩

/-- The scan of a tick is a bounded loop. -/
theorem collectLoop_eq (n : Nat) (h : HotTable) :
    h.collectLoop n = loop collectSlot toScan n h := by
  induction n generalizing h with
  | zero => rfl
  | succ n ih =>
    rw [collectLoop, loop]
    by_cases hlt : h.scan < h.nPages * 512
    · have hl : 0 < h.toScan := Nat.sub_pos_of_lt hlt
      rw [if_pos hlt, if_pos hl, ih]
    · have hl : ¬0 < h.toScan := by
        unfold toScan
        omega
      rw [if_neg hlt, if_neg hl]

/-- And so are its insertions. -/
theorem insertLoop_eq (n : Nat) (h : HotTable) :
    h.insertLoop n = loop insertNext toInsert n h := by
  induction n generalizing h with
  | zero => rfl
  | succ n ih =>
    rw [insertLoop, loop]
    cases he : h.saved[h.insertIdx]? with
    | some e =>
      have hlt : h.insertIdx < h.saved.length := (List.getElem?_eq_some_iff.mp he).1
      have hl : 0 < h.toInsert := Nat.sub_pos_of_lt hlt
      rw [if_pos hl, insertNext_eq he]
      exact ih _
    | none =>
      have hle : h.saved.length ≤ h.insertIdx := List.getElem?_eq_none_iff.mp he
      have hl : ¬0 < h.toInsert := by
        unfold toInsert
        omega
      rw [if_neg hl]

/-- Each round scans one slot. -/
theorem toScan_collectSlot (hl : 0 < h.toScan) : h.collectSlot.toScan + 1 = h.toScan := by
  unfold toScan at *
  rw [collectSlot_scan, collectSlot_nPages]
  omega

/-- Each round inserts one entry. -/
theorem toInsert_insertNext (hl : 0 < h.toInsert) : h.insertNext.toInsert + 1 = h.toInsert := by
  obtain ⟨e, he⟩ := exists_saved hl
  rw [insertNext_eq he]
  unfold toInsert at *
  rw [insertEntry_saved, insertEntry_insertIdx]
  omega

theorem insertNext_phase (h : HotTable) : h.insertNext.phase = h.phase := by
  unfold insertNext
  split
  · exact insertEntry_phase h _
  · rfl

/-! ## Section 2: The ticks -/

/-- The table when the last slot has been scanned. -/
def collected (h : HotTable) : HotTable :=
  { loop collectSlot toScan h.toScan h with insertIdx := 0, phase := .insert }

/-- The table when the last entry has been inserted. -/
def inserted (h : HotTable) : HotTable := loop insertNext toInsert h.toInsert h

/-- Draining is ticking again and again. -/
theorem rehashDrain_eq (n : Nat) (h : HotTable) : h.rehashDrain n = rehashTick^[n] h := by
  induction n generalizing h with
  | zero => rfl
  | succ n ih =>
    rw [rehashDrain, Function.iterate_succ_apply, ← ih]
    split
    · next hacc =>
      have hidle : h.phase = .idle := of_decide_eq_true hacc
      have htick : h.rehashTick = h := by
        unfold rehashTick
        rw [hidle]
      rw [htick, ih]
      clear ih
      induction n with
      | zero => rfl
      | succ n ih => rw [Function.iterate_succ_apply, htick, ← ih]
    · rfl

/-- A table that is idle does not tick. -/
theorem rehashTick_idle (hidle : h.phase = .idle) (n : Nat) : rehashTick^[n] h = h := by
  have htick : h.rehashTick = h := by
    unfold rehashTick
    rw [hidle]
  exact Function.iterate_fixed htick n

/-- Enough ticks scan all slots. -/
theorem collect_ticks (hc : h.phase = .collect) (k : Nat) (hk : h.toScan ≤ k * 32768) :
    ∃ t ≤ k + 1, rehashTick^[t] h = h.collected := by
  refine exists_ticks collectSlot toScan rehashTick
    (fun h => { h with insertIdx := 0, phase := .insert }) (fun h => h.phase = .collect) 32768
    (fun _ => toScan_collectSlot) (fun h hb => (collectSlot_phase h).trans hb) ?_ k hc hk
  intro h hb
  unfold rehashTick
  rw [hb]
  show (if _ then _ else _) = _
  rw [← collectLoop_eq]
  by_cases hdone : (h.collectLoop 32768).nPages * 512 ≤ (h.collectLoop 32768).scan
  · have hzero : (h.collectLoop 32768).toScan = 0 := Nat.sub_eq_zero_of_le hdone
    rw [if_pos hdone, if_pos hzero]
  · have hpos : ¬(h.collectLoop 32768).toScan = 0 := by
      unfold toScan
      omega
    rw [if_neg hdone, if_neg hpos]

/-- Enough ticks insert all entries. -/
theorem insert_ticks (hi : h.phase = .insert) (k : Nat) (hk : h.toInsert ≤ k * 8192) :
    ∃ t ≤ k + 1, rehashTick^[t] h = h.inserted.rehashFinish := by
  refine exists_ticks insertNext toInsert rehashTick rehashFinish (fun h => h.phase = .insert) 8192
    (fun _ => toInsert_insertNext) (fun h hb => (insertNext_phase h).trans hb) ?_ k hi hk
  intro h hb
  unfold rehashTick
  rw [hb]
  show (if _ then _ else _) = _
  rw [← insertLoop_eq]
  by_cases hdone : (h.insertLoop 8192).saved.length ≤ (h.insertLoop 8192).insertIdx
  · have hzero : (h.insertLoop 8192).toInsert = 0 := Nat.sub_eq_zero_of_le hdone
    rw [if_pos hdone, if_pos hzero]
  · have hpos : ¬(h.insertLoop 8192).toInsert = 0 := by
      unfold toInsert
      omega
    rw [if_neg hdone, if_neg hpos]

/-- One slot gives at most one saved entry. -/
theorem length_saved_collected (h : HotTable) :
    h.rehashBegin.collected.saved.length ≤ h.env.maxCachedHotTpages * 512 := by
  have hinv : ∀ n, (loop collectSlot toScan n h.rehashBegin).saved.length ≤
      (loop collectSlot toScan n h.rehashBegin).scan ∧
      (loop collectSlot toScan n h.rehashBegin).scan ≤ h.env.maxCachedHotTpages * 512 ∧
      (loop collectSlot toScan n h.rehashBegin).nPages = h.env.maxCachedHotTpages := by
    intro n
    refine loop_induction (I := fun s : HotTable => s.saved.length ≤ s.scan ∧
      s.scan ≤ h.env.maxCachedHotTpages * 512 ∧ s.nPages = h.env.maxCachedHotTpages) ?_ n ?_
    · intro s hs hl
      obtain ⟨hsaved, hscan, hpages⟩ := hs
      have hlt : s.scan < h.env.maxCachedHotTpages * 512 := by
        unfold toScan at hl
        rw [hpages] at hl
        omega
      rw [collectSlot_scan, collectSlot_nPages]
      refine ⟨?_, hlt, hpages⟩
      refine collectSlot_rule s (fun _ => Nat.le_succ_of_le hsaved) (fun _ _ => ?_)
        fun _ _ => Nat.le_succ_of_le hsaved
      rw [List.length_append]
      exact Nat.succ_le_succ hsaved
    · exact ⟨Nat.le_refl _, Nat.zero_le _, rfl⟩
  obtain ⟨hsaved, hscan, -⟩ := hinv h.rehashBegin.toScan
  exact hsaved.trans hscan

/-- A rehash comes to its end: `hot_rehash_drain_all` never gives up. -/
theorem rehash_eq (hsize : h.env.maxCachedHotTpages < 2147483648) :
    h.rehash = h.rehashBegin.collected.inserted.rehashFinish := by
  have hscan : h.rehashBegin.toScan = h.env.maxCachedHotTpages * 512 := rfl
  have hsaved : h.rehashBegin.collected.toInsert ≤ h.env.maxCachedHotTpages * 512 :=
    (Nat.sub_le _ _).trans h.length_saved_collected
  -- A batch more than the whole ones.
  have hbatch : ∀ n b, 0 < b → n ≤ (n / b + 1) * b := fun n b hb =>
    Nat.le_of_lt (Nat.lt_mul_of_div_lt (Nat.lt_succ_self _) hb)
  obtain ⟨t, ht, hcollect⟩ := collect_ticks (h := h.rehashBegin) rfl
    (h.env.maxCachedHotTpages * 512 / 32768 + 1) (hscan.le.trans (hbatch _ _ (by omega)))
  obtain ⟨u, hu, hinsert⟩ := insert_ticks (h := h.rehashBegin.collected) rfl
    (h.env.maxCachedHotTpages * 512 / 8192 + 1) (hsaved.trans (hbatch _ _ (by omega)))
  obtain ⟨rest, hrest⟩ : ∃ rest, 200000001 = rest + (u + t) :=
    ⟨200000001 - (u + t), by omega⟩
  rw [rehash, rehashDrain_eq, hrest, Function.iterate_add_apply, Function.iterate_add_apply,
    hcollect, hinsert]
  exact rehashTick_idle rfl rest

/-! ## Section 3: The invariant rule -/

/-- `P` holds of the table and the entry whenever the insert loop takes one. -/
def InsertsOk (P : HotTable → HotSlot → Prop) (h : HotTable) : Nat → Prop
  | 0 => True
  | n + 1 =>
    match h.saved[h.insertIdx]? with
    | some e => P h e ∧ (h.insertEntry e).InsertsOk P n
    | none => True

instance decidableInsertsOk (P : HotTable → HotSlot → Prop) [∀ h e, Decidable (P h e)] :
    ∀ (n : Nat) (h : HotTable), Decidable (h.InsertsOk P n)
  | 0, _ => inferInstanceAs (Decidable True)
  | n + 1, h => by
      unfold InsertsOk
      have := decidableInsertsOk P n
      split <;> infer_instance

/-- Every insertion of the rehash of `h` meets `P`. -/
def RehashOk (P : HotTable → HotSlot → Prop) (h : HotTable) : Prop :=
  h.rehashBegin.collected.InsertsOk P h.rehashBegin.collected.saved.length

/-- The insert loop keeps `D` while the insertions meet `P`. -/
theorem inserted_rule {P : HotTable → HotSlot → Prop} {D : HotTable → Prop}
    (hstep : ∀ h e, D h → h.saved[h.insertIdx]? = some e → P h e → D (h.insertEntry e)) :
    ∀ (n : Nat) {h : HotTable}, D h → h.InsertsOk P n → h.toInsert ≤ n →
      D (loop insertNext toInsert n h) := by
  intro n
  induction n with
  | zero => exact fun hd _ _ => hd
  | succ n ih =>
    intro h hd hok hle
    rw [loop]
    by_cases hl : 0 < h.toInsert
    · obtain ⟨e, he⟩ := exists_saved hl
      have hone := toInsert_insertNext hl
      rw [if_pos hl]
      rw [insertNext_eq he] at hone ⊢
      unfold InsertsOk at hok
      rw [he] at hok
      exact ih (hstep h e hd he hok.1) hok.2 (by omega)
    · rw [if_neg hl]
      exact hd

/-- The rule of a rehash: `C` is kept by the collect loop and `D` by the insert loop, and
    the table at the end is one of `D` with no entry left. -/
theorem rehash_rule {P : HotTable → HotSlot → Prop} {C D : HotTable → Prop}
    (hsize : h.env.maxCachedHotTpages < 2147483648) (hok : h.RehashOk P)
    (hbegin : C h.rehashBegin)
    (hcollect : ∀ h, C h → h.scan < h.nPages * 512 → C h.collectSlot)
    (hswitch : ∀ h, C h → h.nPages * 512 ≤ h.scan → D { h with insertIdx := 0, phase := .insert })
    (hinsert : ∀ h e, D h → h.saved[h.insertIdx]? = some e → P h e → D (h.insertEntry e)) :
    ∃ h', h.rehash = h'.rehashFinish ∧ D h' ∧ h'.saved.length ≤ h'.insertIdx := by
  have hC : C (loop collectSlot toScan h.rehashBegin.toScan h.rehashBegin) := by
    apply loop_induction _ _ hbegin
    intro s hs hl
    apply hcollect s hs
    unfold toScan at hl
    omega
  have hdone : (loop collectSlot toScan h.rehashBegin.toScan h.rehashBegin).toScan = 0 := by
    rw [left_loop (fun _ hl => toScan_collectSlot hl), Nat.sub_self]
  have hD : D h.rehashBegin.collected := hswitch _ hC (Nat.le_of_sub_eq_zero hdone)
  refine ⟨h.rehashBegin.collected.inserted, rehash_eq hsize, ?_, ?_⟩
  · exact inserted_rule hinsert _ hD hok (Nat.le_refl _)
  · have hzero : h.rehashBegin.collected.inserted.toInsert = 0 := by
      unfold inserted
      rw [left_loop (fun _ hl => toInsert_insertNext hl), Nat.sub_self]
    exact Nat.le_of_sub_eq_zero hzero

end HotTable

end AggreKV.HashKv
