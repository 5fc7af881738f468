import AggreKV.LsmTree.Level
import AggreKV.LsmTree.PipeSpec

/-! # Order of the memtable and of its cuts

    * `MemOrdered`: the invariant of the memtable, kept by `skiplist_insert`.
    * `cutHeaders_flatten`: cutting splits the list, in order.
    * `IsCut.two_le`: a cut has at least two nodes.
    * `keys_skiplistMakeValueset`: writing the values keeps the keys. -/

namespace AggreKV.LsmTree

open SortedEntries

/-! ## Section 1: Ordered lists -/

def Skiplist.keys (l : Skiplist) : List Key := List.map Snode.key l

/-- Increasing keys that `skiplist_insert` accepts. -/
structure MemOrdered (l : Skiplist) : Prop where
  increasing : (Skiplist.keys l).Pairwise (· < ·)
  valid : ∀ k ∈ Skiplist.keys l, keyValCheck k = true

theorem MemOrdered.nil : MemOrdered [] :=
  ⟨List.Pairwise.nil, fun _ h => absurd h List.not_mem_nil⟩

theorem MemOrdered.sublist {l m : Skiplist} (h : MemOrdered l) (hs : List.Sublist m l) :
    MemOrdered m := by
  have hkeys : (Skiplist.keys m).Sublist (Skiplist.keys l) := hs.map Snode.key
  exact ⟨h.increasing.sublist hkeys, fun k hk => h.valid k (hkeys.subset hk)⟩

theorem MemOrdered.of_keys {l m : Skiplist} (h : MemOrdered l)
    (hk : Skiplist.keys m = Skiplist.keys l) : MemOrdered m := by
  constructor
  · rw [hk]
    exact h.increasing
  · rw [hk]
    exact h.valid

theorem memOrdered_cons {n : Snode} {l : Skiplist} :
    MemOrdered (n :: l) ↔
      (∀ k ∈ Skiplist.keys l, n.key < k) ∧ keyValCheck n.key = true ∧ MemOrdered l := by
  constructor
  · rintro ⟨hi, hv⟩
    obtain ⟨hlt, hi⟩ := List.pairwise_cons.mp hi
    obtain ⟨hn, hv⟩ := List.forall_mem_cons.mp hv
    exact ⟨hlt, hn, hi, hv⟩
  · rintro ⟨hlt, hn, hi, hv⟩
    exact ⟨List.pairwise_cons.mpr ⟨hlt, hi⟩, List.forall_mem_cons.mpr ⟨hn, hv⟩⟩

/-! ## Section 2: `skiplist_insert` -/

/-- The keys after an insertion. -/
theorem mem_keys_skiplistInsert {key : Key} {bytes : Nat} {l l' : Skiplist}
    (h : skiplistInsert key bytes l = some l') (k : Key) :
    k ∈ Skiplist.keys l' ↔ k = key ∨ k ∈ Skiplist.keys l := by
  induction l generalizing l' with
  | nil =>
      unfold skiplistInsert at h
      split_ifs at h with hv
      cases h
      simp [Skiplist.keys]
  | cons n l ih =>
      unfold skiplistInsert at h
      split_ifs at h with hlt htest hv
      · obtain ⟨m, hm, rfl⟩ := Option.map_eq_some_iff.mp h
        have := ih hm
        simp only [Skiplist.keys, List.map_cons, List.mem_cons] at this ⊢
        rw [this]
        tauto
      -- The node with this key gets the new value.
      · cases h
        have heq := keyTest_iff.mp htest
        simp [Skiplist.keys, heq]
      · cases h
        simp [Skiplist.keys]

theorem MemOrdered.skiplistInsert {key : Key} {bytes : Nat} {l l' : Skiplist} (ho : MemOrdered l)
    (h : skiplistInsert key bytes l = some l') : MemOrdered l' := by
  induction l generalizing l' with
  | nil =>
      unfold LsmTree.skiplistInsert at h
      split_ifs at h with hv
      cases h
      exact memOrdered_cons.mpr ⟨fun k hk => absurd hk List.not_mem_nil, hv, .nil⟩
  | cons n l ih =>
      obtain ⟨hlt, hn, hl⟩ := memOrdered_cons.mp ho
      unfold LsmTree.skiplistInsert at h
      split_ifs at h with hcmp htest hv
      · obtain ⟨m, hm, rfl⟩ := Option.map_eq_some_iff.mp h
        refine memOrdered_cons.mpr ⟨fun k hk => ?_, hn, ih hl hm⟩
        rcases (mem_keys_skiplistInsert hm k).mp hk with rfl | hk
        · exact keyCmp_lt.mp hcmp
        · exact hlt k hk
      · cases h
        exact memOrdered_cons.mpr ⟨hlt, hn, hl⟩
      · cases h
        -- the new key lies below the node it is put before
        have hle : key ≤ n.key := not_lt.mp fun hc => hcmp (keyCmp_lt.mpr hc)
        have hne : key ≠ n.key := fun hc => htest (keyTest_iff.mpr hc)
        have hkey := lt_of_le_of_ne hle hne
        refine memOrdered_cons.mpr ⟨fun k hk => ?_, hv, ho⟩
        rcases List.mem_cons.mp hk with rfl | hk
        · exact hkey
        · exact hkey.trans (hlt k hk)

/-- The size after an insertion. -/
theorem length_skiplistInsert {key : Key} {bytes : Nat} {l l' : Skiplist} (ho : MemOrdered l)
    (h : skiplistInsert key bytes l = some l') :
    l'.length = if key ∈ Skiplist.keys l then l.length else l.length + 1 := by
  induction l generalizing l' with
  | nil =>
      unfold skiplistInsert at h
      split_ifs at h with hv
      cases h
      rfl
  | cons n l ih =>
      obtain ⟨hlt, hn, hl⟩ := memOrdered_cons.mp ho
      have hcons : Skiplist.keys (n :: l) = n.key :: Skiplist.keys l := rfl
      unfold skiplistInsert at h
      split_ifs at h with hcmp htest hv
      · obtain ⟨m, hm, rfl⟩ := Option.map_eq_some_iff.mp h
        have hne : key ≠ n.key := (keyCmp_lt.mp hcmp).ne'
        rw [List.length_cons, ih hl hm, hcons, List.length_cons]
        simp only [List.mem_cons, hne, false_or]
        split_ifs <;> rfl
      · cases h
        rw [hcons, keyTest_iff.mp htest, if_pos List.mem_cons_self, List.length_cons,
          List.length_cons]
      · cases h
        -- The key is put before a greater one: it cannot come later in an ordered list.
        have hle : key ≤ n.key := not_lt.mp fun hc => hcmp (keyCmp_lt.mpr hc)
        have hne : key ≠ n.key := fun hc => htest (keyTest_iff.mpr hc)
        have hnot : key ∉ Skiplist.keys (n :: l) := by
          rw [hcons, List.mem_cons, not_or]
          exact ⟨hne, fun hm => absurd (hlt key hm) (not_lt.mpr hle)⟩
        rw [if_neg hnot, List.length_cons]

/-! ## Section 3: Cuts -/

/-- What is taken depends on the running length and count alone. -/
theorem cutCount_ge (l : Skiplist) (length idx : Nat) : idx ≤ cutCount length idx l := by
  induction l generalizing length idx with
  | nil => exact le_refl _
  | cons n l ih =>
      unfold cutCount
      simp only
      split_ifs with hfull
      · exact Nat.le_succ idx
      · exact (Nat.le_succ idx).trans (ih _ _)

theorem nextKeyLen_le (l : Skiplist) : nextKeyLen l ≤ 259 := by
  cases l <;> exact keyLen_le _

/-- Two nodes never fill a header. -/
theorem two_le_cutCount {a b : Snode} {l : Skiplist} : 2 ≤ cutCount 0 0 (a :: b :: l) := by
  have ha := keyLen_le a.key
  have hb := nextKeyLen_le (b :: l)
  unfold cutCount sizeLimit numLimit
  simp only
  rw [if_neg (by omega)]
  unfold cutCount
  simp only
  split_ifs with hfull
  · exact le_refl _
  · exact cutCount_ge _ _ _

theorem allLength_le (l : Skiplist) : allLength l ≤ 259 * l.length := by
  unfold allLength
  induction l with
  | nil => exact le_refl _
  | cons n l ih =>
      have := keyLen_le n.key
      rw [List.map_cons, List.sum_cons, List.length_cons]
      omega

theorem skiplistCuttingHeader_append {l t rest : Skiplist}
    (h : skiplistCuttingHeader l = some (t, rest)) : t ++ rest = l := by
  unfold skiplistCuttingHeader at h
  split_ifs at h
  cases h
  exact List.take_append_drop _ _

theorem skiplistCuttingHeader_two_le {l t rest : Skiplist}
    (h : skiplistCuttingHeader l = some (t, rest)) : 2 ≤ t.length := by
  unfold skiplistCuttingHeader at h
  split_ifs at h with hsmall
  cases h
  have hall := allLength_le l
  unfold sizeLimit numLimit at hsmall
  match l, hsmall, hall with
  | [], hsmall, hall => simp [allLength] at hsmall
  | [a], hsmall, hall =>
      simp only [List.length_singleton] at hsmall hall
      omega
  | a :: b :: l, _, _ =>
      have := two_le_cutCount (a := a) (b := b) (l := l)
      rw [List.length_take, List.length_cons, List.length_cons]
      omega

theorem allLength_cons (n : Snode) (l : Skiplist) :
    allLength (n :: l) = keyLen n.key + allLength l := by
  unfold allLength
  rw [List.map_cons, List.sum_cons]

/-- What is taken stays below both limits: the node after it is looked at first. -/
theorem cutCount_le (l : Skiplist) (length idx : Nat) (hidx : idx < numLimit)
    (hroom : length + nextKeyLen l ≤ sizeLimit) :
    cutCount length idx l ≤ numLimit ∧
      length + allLength (l.take (cutCount length idx l - idx)) ≤ sizeLimit := by
  induction l generalizing length idx with
  | nil =>
      have hzero : allLength ((([] : Skiplist)).take (cutCount length idx [] - idx)) = 0 := by
        simp [allLength]
      refine ⟨hidx.le, ?_⟩
      rw [hzero]
      exact (Nat.le_add_right _ _).trans hroom
  | cons n l ih =>
      have hnode : length + keyLen n.key ≤ sizeLimit := hroom
      unfold cutCount
      simp only
      -- The loop stops after the node that fills the page, the induction is on the rest.
      split_ifs with hfull
      · refine ⟨hidx, ?_⟩
        rw [Nat.add_sub_cancel_left, List.take_succ_cons, allLength_cons]
        simpa [allLength] using hnode
      · have hge := cutCount_ge l (length + keyLen n.key) (idx + 1)
        obtain ⟨hnum, hsize⟩ := ih (length + keyLen n.key) (idx + 1) (by omega) (by omega)
        obtain ⟨k, hk⟩ := Nat.exists_eq_add_of_le hge
        rw [hk] at hnum hsize ⊢
        rw [Nat.add_sub_cancel_left] at hsize
        rw [Nat.add_assoc, Nat.add_sub_cancel_left, Nat.add_comm 1 k, List.take_succ_cons,
          allLength_cons]
        omega

theorem skiplistCuttingHeader_le {l t rest : Skiplist}
    (h : skiplistCuttingHeader l = some (t, rest)) :
    t.length ≤ numLimit ∧ allLength t ≤ sizeLimit := by
  unfold skiplistCuttingHeader at h
  split_ifs at h with hsmall
  cases h
  have hnext := nextKeyLen_le l
  obtain ⟨hnum, hsize⟩ := cutCount_le l 0 0 (by decide) (by unfold sizeLimit; omega)
  rw [Nat.zero_add, Nat.sub_zero] at hsize
  refine ⟨?_, hsize⟩
  rw [List.length_take]
  omega

/-- The cuts and the rest are the list. -/
theorem cutHeaders_flatten (n : Nat) (l : Skiplist) :
    (cutHeaders n l).1.flatten ++ (cutHeaders n l).2 = l := by
  induction n generalizing l with
  | zero => rfl
  | succ n ih =>
      unfold cutHeaders
      cases h : skiplistCuttingHeader l with
      | none => rfl
      | some r =>
          have happ := skiplistCuttingHeader_append h
          show (r.1 ++ (cutHeaders n r.2).1.flatten) ++ (cutHeaders n r.2).2 = l
          rw [List.append_assoc, ih, happ]

/-- A list cut off a memtable, whatever addresses its nodes got since. -/
def IsCut (t : Skiplist) : Prop :=
  ∃ l t₀ rest, MemOrdered l ∧ skiplistCuttingHeader l = some (t₀, rest) ∧
    Skiplist.keys t = Skiplist.keys t₀

theorem IsCut.ordered {t : Skiplist} (h : IsCut t) : MemOrdered t := by
  obtain ⟨l, t₀, rest, hl, hcut, hkeys⟩ := h
  have hsub : List.Sublist t₀ l := by
    rw [← skiplistCuttingHeader_append hcut]
    exact List.sublist_append_left t₀ rest
  exact (hl.sublist hsub).of_keys hkeys

theorem IsCut.two_le {t : Skiplist} (h : IsCut t) : 2 ≤ t.length := by
  obtain ⟨l, t₀, rest, -, hcut, hkeys⟩ := h
  have hlen := congrArg List.length hkeys
  rw [Skiplist.keys, Skiplist.keys, List.length_map, List.length_map] at hlen
  rw [hlen]
  exact skiplistCuttingHeader_two_le hcut

theorem IsCut.of_keys {t t' : Skiplist} (h : IsCut t)
    (hk : Skiplist.keys t' = Skiplist.keys t) : IsCut t' := by
  obtain ⟨l, t₀, rest, hl, hcut, hkeys⟩ := h
  exact ⟨l, t₀, rest, hl, hcut, hk.trans hkeys⟩

theorem IsCut.le {t : Skiplist} (h : IsCut t) :
    t.length ≤ numLimit ∧ allLength t ≤ sizeLimit := by
  obtain ⟨l, t₀, rest, -, hcut, hkeys⟩ := h
  have hlen := congrArg List.length hkeys
  have hall := congrArg (fun ks => (ks.map keyLen).sum) hkeys
  simp only [Skiplist.keys, List.length_map, List.map_map] at hlen hall
  have hbound := skiplistCuttingHeader_le hcut
  unfold allLength at hbound ⊢
  rw [hlen]
  exact ⟨hbound.1, hall.trans_le hbound.2⟩

theorem isCut_cutHeaders (n : Nat) {l : Skiplist} (hl : MemOrdered l) :
    (∀ t ∈ (cutHeaders n l).1, IsCut t) ∧ MemOrdered (cutHeaders n l).2 := by
  induction n generalizing l with
  | zero => exact ⟨fun t ht => absurd ht List.not_mem_nil, hl⟩
  | succ n ih =>
      unfold cutHeaders
      cases h : skiplistCuttingHeader l with
      | none => exact ⟨fun t ht => absurd ht List.not_mem_nil, hl⟩
      | some r =>
          have hrest : MemOrdered r.2 := by
            refine hl.sublist ?_
            rw [← skiplistCuttingHeader_append h]
            exact List.sublist_append_right r.1 r.2
          obtain ⟨hcuts, hlast⟩ := ih hrest
          refine ⟨fun t ht => ?_, hlast⟩
          rcases List.mem_cons.mp ht with rfl | ht
          · exact ⟨l, r.1, r.2, hl, h, rfl⟩
          · exact hcuts t ht

theorem isCut_compactionCheck {l : Skiplist} (hl : MemOrdered l) :
    (∀ t ∈ (compactionCheck l).1, IsCut t) ∧ MemOrdered (compactionCheck l).2 := by
  unfold compactionCheck
  split_ifs with hsmall
  · exact ⟨fun t ht => absurd ht List.not_mem_nil, hl⟩
  · exact isCut_cutHeaders l.length hl

/-! ## Section 4: Writing the values -/

theorem keys_writeFullPages {cfg : Settings} {ks : List Key} {l l' : Skiplist} {f f' : Flash}
    (h : writeFullPages cfg ks l f = some (l', f')) : Skiplist.keys l' = Skiplist.keys l := by
  induction ks generalizing l f with
  | nil =>
      cases h
      rfl
  | cons k ks ih =>
      obtain ⟨⟨ppa, g⟩, hg, h⟩ := Option.bind_eq_some_iff.mp h
      simp only at h
      split_ifs at h with hinv
      rw [ih h, Skiplist.keys, Skiplist.keys, List.map_map]
      refine List.map_congr_left fun n hn => ?_
      show (if n.key = k then { n with ppa := ppa, value := none } else n).key = n.key
      split_ifs <;> rfl

theorem keys_setPpa (l : Skiplist) (key : Key) (ppa : Nat) :
    Skiplist.keys (setPpa l key ppa) = Skiplist.keys l := by
  unfold setPpa
  rw [Skiplist.keys, Skiplist.keys, List.map_map]
  refine List.map_congr_left fun n hn => ?_
  show (if n.key = key then { n with ppa := ppa } else n).key = n.key
  split_ifs <;> rfl

theorem keys_placeValues {page : Nat} {ps : List (Placed Key)} {l l' : Skiplist} {f f' : Flash}
    (h : placeValues page ps l f = some (l', f')) : Skiplist.keys l' = Skiplist.keys l := by
  induction ps generalizing l f with
  | nil =>
      cases h
      rfl
  | cons p ps ih =>
      unfold placeValues at h
      split_ifs at h with hinv
      rw [ih h, keys_setPpa]

theorem keys_variableValue2Page {cfg : Settings} {maxLen n : Nat} {b : Buckets Key}
    {l l' : Skiplist} {f f' : Flash} (h : variableValue2Page cfg maxLen n b l f = some (l', f')) :
    Skiplist.keys l' = Skiplist.keys l := by
  induction n generalizing b l f with
  | zero =>
      cases h
      rfl
  | succ n ih =>
      obtain ⟨⟨ppa, g⟩, hg, h⟩ := Option.bind_eq_some_iff.mp h
      simp only at h
      split_ifs at h with hinv hrest
      · obtain ⟨⟨m, g'⟩, hm, h⟩ := Option.bind_eq_some_iff.mp h
        cases h
        exact keys_placeValues hm
      · obtain ⟨⟨m, g'⟩, hm, h⟩ := Option.bind_eq_some_iff.mp h
        rw [ih h]
        exact keys_placeValues hm

theorem keys_skiplistMakeValueset {cfg : Settings} {l l' : Skiplist} {f f' : Flash}
    (h : skiplistMakeValueset cfg l f = some (l', f')) : Skiplist.keys l' = Skiplist.keys l := by
  unfold skiplistMakeValueset at h
  split_ifs at h with hlong
  obtain ⟨⟨m, g⟩, hm, h⟩ := Option.bind_eq_some_iff.mp h
  simp only at h
  split_ifs at h with hrest
  · cases h
    exact keys_writeFullPages hm
  · rw [keys_variableValue2Page h]
    exact keys_writeFullPages hm

/-! ## Section 5: The page of a list -/

theorem map_fst_memPage (l : Skiplist) : (memPage l).map Prod.fst = Skiplist.keys l := by
  rw [memPage, List.map_map]
  rfl

theorem MemOrdered.increasing_memPage {l : Skiplist} (h : MemOrdered l) :
    Increasing (memPage l) := by
  have hi := h.increasing
  rw [← map_fst_memPage, List.pairwise_map] at hi
  exact hi

theorem MemOrdered.valid_memPage {l : Skiplist} (h : MemOrdered l) : Valid (memPage l) := by
  intro e he
  refine h.valid e.1 ?_
  rw [← map_fst_memPage]
  exact List.mem_map_of_mem he

/-! ## Section 6: A list of long keys -/

def wideKey (b : Byte) : Key :=
  ⟨b :: List.replicate 254 0, by rw [List.length_cons, List.length_replicate]⟩

theorem wideKey_lt {a b : Byte} (h : a < b) : wideKey a < wideKey b :=
  Key.lt_iff.mpr (List.Lex.rel h)

theorem keyLen_wideKey (b : Byte) : keyLen (wideKey b) = 259 := by
  unfold keyLen Key.len wideKey
  rw [List.length_cons, List.length_replicate]

/-- Nodes with keys of 255 bytes; twelve of them are more than a page takes. -/
def wideList (n : Nat) (ppa : Nat) (value : Option Nat) : Skiplist :=
  (List.range n).map fun i => ⟨wideKey (Fin.ofNat 256 i), ppa, value⟩

theorem wideList_ordered {n : Nat} (h : n ≤ 128) (ppa : Nat) (value : Option Nat) :
    MemOrdered (wideList n ppa value) := by
  constructor
  · unfold Skiplist.keys wideList
    rw [List.map_map, List.pairwise_map]
    refine List.pairwise_lt_range.imp_of_mem fun {i j} _ hj hlt => ?_
    rw [List.mem_range] at hj
    refine wideKey_lt (Fin.lt_def.mpr ?_)
    show i % 256 < j % 256
    omega
  · intro k hk
    unfold Skiplist.keys wideList at hk
    rw [List.map_map] at hk
    obtain ⟨i, hi, rfl⟩ := List.mem_map.mp hk
    rw [List.mem_range] at hi
    refine decide_eq_true ?_
    show i % 256 < 128
    omega

theorem skiplistCuttingHeader_wideList (ppa : Nat) (value : Option Nat) :
    skiplistCuttingHeader (wideList 12 ppa value) =
      some (wideList 11 ppa value, (wideList 12 ppa value).drop 11) := by
  have hall : allLength (wideList 12 ppa value) = 3108 := by
    simp [allLength, wideList, keyLen_wideKey, Function.comp_def]
  have hcount : cutCount 0 0 (wideList 12 ppa value) = 11 := by
    simp [cutCount, wideList, List.range_succ, nextKeyLen, keyLen_wideKey, sizeLimit, numLimit]
  unfold skiplistCuttingHeader
  rw [hall, if_neg (fun hc => absurd hc.1 (by decide)), hcount]
  rfl

theorem isCut_wideList (ppa : Nat) (value : Option Nat) : IsCut (wideList 11 ppa value) :=
  ⟨_, _, _, wideList_ordered (show 12 ≤ 128 by decide) ppa value,
    skiplistCuttingHeader_wideList ppa value, rfl⟩

end AggreKV.LsmTree
