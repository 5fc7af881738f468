import AggreKV.LsmTree.LevelOrder
import AggreKV.LsmTree.MetaReaders

/-! # The format of meta pages, written and read

    * `RoundTrip`: a page decodes to its entries, and is searched for them.
    * `Produced`: the pages of `array_mem_cvt2table` and of the merge.
    * `decodersAgree_iff`: when every reader sees the same entries. -/

namespace AggreKV.LsmTree

open Buffer SortedEntries

/-! ## Section 1: Round trip -/

/-- `find->ppa` for the result of `array_find_keyset`. -/
def keysetPpa (p : Buffer) (addr : Nat) : Option Nat := (read 4096 p addr 4).map leValue

/-- A page decodes to `m`, and every search in it ends at the right slot. -/
structure RoundTrip (p : Buffer) (m : Meta) : Prop where
  decode : forEachHeader p = some m
  found : ∀ e ∈ m, ∃ addr, arrayFindKeyset p e.1 = some (some addr) ∧
    keysetPpa p addr = some e.2 ∧ read 4096 p (addr + 4) e.1.len = some e.1.bytes
  missing : ∀ lpa, (∀ e ∈ m, e.1 ≠ lpa) → arrayFindKeyset p lpa = some none
  table : 2 * (m.length + 2) ≤ 1024
  offsets : ∀ i, 1 ≤ i → i ≤ m.length + 1 →
    ∃ b, bitmap p i = some b ∧ 1024 ≤ b ∧ b ≤ 4096
  inside : ∀ i e, m[i]? = some e → ∃ b, bitmap p (i + 1) = some b ∧ b + (4 + e.1.len) ≤ 4096

theorem MetaPage.found {p : Buffer} {m : Meta} (h : MetaPage p m) (hm : Increasing m) {e : Entry}
    (he : e ∈ m) : ∃ addr, arrayFindKeyset p e.1 = some (some addr) ∧
      keysetPpa p addr = some e.2 ∧ read 4096 p (addr + 4) e.1.len = some e.1.bytes := by
  obtain ⟨i, hi⟩ := List.mem_iff_getElem?.mp he
  refine ⟨slotOffset m i, h.arrayFindKeyset_mem hm hi, ?_, h.key i e hi⟩
  unfold keysetPpa
  rw [h.ppa i e hi, Option.map_some, leValue_leBytes (h.ppa32 e he)]

theorem MetaPage.roundTrip {p : Buffer} {m : Meta} (h : MetaPage p m) (hm : Increasing m) :
    RoundTrip p m := by
  have htable := h.fits.table
  refine ⟨h.forEachHeader, fun e he => h.found hm he,
    fun lpa hn => h.arrayFindKeyset_not_mem hm hn, by omega, fun i h1 hi => ?_, fun i e he => ?_⟩
  · have hslot := h.bitmap_slot (show i - 1 ≤ m.length by omega)
    rw [Nat.sub_add_cancel h1] at hslot
    exact ⟨_, hslot, slotOffset_ge m _, h.slotOffset_le (by omega)⟩
  · have hlt : i < m.length := (List.getElem?_eq_some_iff.mp he).1
    have hroom := h.fits.slot he
    exact ⟨_, h.bitmap_slot hlt.le, by omega⟩

/-- The addresses of the nodes of a list are of type `ppa_t`. -/
theorem memPage_ppa32 {t : Skiplist} (h32 : ∀ n ∈ t, n.ppa < 4294967296) :
    ∀ e ∈ memPage t, e.2 < 4294967296 := by
  intro e he
  obtain ⟨n, hn, rfl⟩ := List.mem_map.mp he
  exact h32 n hn

/-- Both pages written for a list cut off the memtable decode to the list, and the run
    gets its first and its last key. -/
theorem cut_list_round_trip {t : Skiplist} (ht : IsCut t)
    (h32 : ∀ n ∈ t, n.ppa < 4294967296) (sets res : Buffer) :
    ∃ p q, arrayMemCvt2tableBytes sets t =
        some (p, t.head?.map Snode.key, t.getLast?.map Snode.key) ∧
      arraySkipCvt2DataBytes res t = some q ∧
      RoundTrip p (memPage t) ∧ RoundTrip q (memPage t) := by
  have hinc := ht.ordered.increasing_memPage
  have hvalid : ∀ n ∈ t, keyValCheck n.key = true := fun n hn =>
    ht.ordered.valid _ (List.mem_map_of_mem hn)
  obtain ⟨p, hp, hp'⟩ := arrayMemCvt2tableBytes_holds sets ht.two_le ht.fits
  obtain ⟨q, hq, hq'⟩ := arraySkipCvt2DataBytes_holds res hvalid ht.fits
  have hpage : MetaPage p (memPage t) := ⟨hp', ht.fits, memPage_ppa32 h32⟩
  have hdata : MetaPage q (memPage t) := ⟨hq', ht.fits, memPage_ppa32 h32⟩
  exact ⟨p, q, hp, hq, hpage.roundTrip hinc, hdata.roundTrip hinc⟩

/-- The round trip of eleven keys of the longest length through both writers. -/
theorem cut_list_round_trip_wide :
    ∃ p q, arrayMemCvt2tableBytes (fun _ => 0) (wideList 11 7 none) =
        some (p, some (wideKey 0), some (wideKey 10)) ∧
      arraySkipCvt2DataBytes (fun _ => 0) (wideList 11 7 none) = some q ∧
      RoundTrip p (memPage (wideList 11 7 none)) ∧ RoundTrip q (memPage (wideList 11 7 none)) :=
  cut_list_round_trip (isCut_wideList 7 none)
    (fun n hn => by
      obtain ⟨i, -, rfl⟩ := List.mem_map.mp hn
      exact show 7 < 4294967296 by decide)
    (fun _ => 0) (fun _ => 0)

/-- The keys of a run are the first and the last key of its list. -/
theorem arrayMemCvt2table_keys {t : Skiplist} {iscached : Bool} {r : Run}
    (h : arrayMemCvt2table t iscached = some r) :
    t.head?.map Snode.key = some r.key ∧ t.getLast?.map Snode.key = some r.endKey := by
  match t, h with
  | a :: b :: rest, h =>
      unfold arrayMemCvt2table at h
      rw [Option.some.injEq] at h
      rw [← h, List.getLast?_cons_cons,
        List.getLast?_eq_getLast_of_ne_nil (List.cons_ne_nil b rest)]
      exact ⟨rfl, rfl⟩

/-- The run and the page of the model are what the bytes say. -/
theorem arrayMemCvt2tableBytes_run {t : Skiplist} (ht : IsCut t) (sets : Buffer)
    (iscached : Bool) :
    ∃ p r, arrayMemCvt2table t iscached = some r ∧
      arrayMemCvt2tableBytes sets t = some (p, some r.key, some r.endKey) ∧ Holds p r.page := by
  obtain ⟨p, hp, hholds⟩ := arrayMemCvt2tableBytes_holds sets ht.two_le ht.fits
  obtain ⟨r, hr⟩ := arrayMemCvt2table_isSome ht.two_le iscached
  obtain ⟨hfirst, hlast⟩ := arrayMemCvt2table_keys hr
  rw [hfirst, hlast] at hp
  rw [← (arrayMemCvt2table_some hr).1] at hholds
  exact ⟨p, r, hr, hp, hholds⟩

/-! ## Section 2: The readers side by side -/

/-- The pages that exist: of a list cut off the memtable, and of a merge. -/
inductive Produced : Buffer → Meta → Prop where
  | table {sets p : Buffer} {t : Skiplist} {keys : Option Key × Option Key} (ht : IsCut t)
      (h32 : ∀ n ∈ t, n.ppa < 4294967296) (h : arrayMemCvt2tableBytes sets t = some (p, keys)) :
      Produced p (memPage t)
  | merge {res p : Buffer} {u o pages : List Meta} {inv : List Nat} {m : Meta} (hu : Pages u)
      (ho : Pages o) (h32 : ∀ e ∈ u.flatten ++ o.flatten, e.2 < 4294967296)
      (hmerge : pipeMerger u o = some (pages, inv)) (hm : m ∈ pages)
      (h : pbodyPageBytes res m = some p) : Produced p m

/-- What a produced page is to its readers. -/
structure Readable (p : Buffer) (m : Meta) : Prop extends MetaPage p m where
  increasing : Increasing m
  ne_nil : m ≠ []

theorem Produced.readable {p : Buffer} {m : Meta} (h : Produced p m) : Readable p m := by
  cases h with
  -- A flushed memtable.
  | @table sets p t keys ht h32 h =>
      obtain ⟨p', hp, hholds⟩ := arrayMemCvt2tableBytes_holds sets ht.two_le ht.fits
      rw [h, Option.some.injEq, Prod.mk.injEq] at hp
      rw [← hp.1] at hholds
      refine ⟨⟨hholds, ht.fits, memPage_ppa32 h32⟩, ht.ordered.increasing_memPage, fun hnil => ?_⟩
      have htwo := ht.two_le
      have hlen := congrArg List.length hnil
      rw [memPage, List.length_map, List.length_nil] at hlen
      omega
  -- A page of a merge: its keys come from the two sides, in order.
  | @merge res p u o pages inv m hu ho h32 hmerge hm h =>
      obtain ⟨⟨rp, inv'⟩, hpipe, heq⟩ := Option.map_eq_some_iff.mp hmerge
      cases heq
      rw [(arrayPipeMerger_pages hu ho hpipe).1] at hm
      have hwf := metaPages_wellFormed _ m hm
      have hsub : m.Sublist (merged u o) := by
        rw [← metaPages_flatten (merged u o)]
        exact List.sublist_flatten_of_mem hm
      obtain ⟨p', hp, hholds⟩ := pbodyPageBytes_holds res hwf.fits
      rw [h, Option.some.injEq] at hp
      rw [← hp] at hholds
      refine ⟨⟨hholds, hwf.fits, fun e he => ?_⟩, ?_, hwf.ne_nil⟩
      · refine h32 e (List.mem_append.mpr ?_)
        rcases (merged_isUnion hu ho).mem_or (hsub.subset he) with he | he
        · exact Or.inl ((untilEnd_sublist _).subset he)
        · exact Or.inr ((untilEnd_sublist _).subset he)
      · exact (merged_isUnion hu ho).increasing.sublist hsub

/-- All readers of a page see one sequence `es` of entries, searched from `key` on. -/
def DecodersAgree (p : Buffer) (key : Key) : Prop :=
  ∃ es, forEachHeader p = some es ∧ keyIterEntries p = some es ∧
    headerIterEntries p key = some (es.filter fun e => decide (key ≤ e.1)) ∧
    ((arrayFindKeysetFirst p).bind (loadKey p) = es.head?.map Prod.fst) ∧
    ((arrayFindKeysetLast p).bind (loadKey p) = es.getLast?.map Prod.fst) ∧
    arrayGetLpaFromData p = some (es.head?.map Prod.fst)

/-- The two lengths that the swapped subtraction gets right. -/
def SwapLength (k : Key) : Prop := k.len = 124 ∨ k.len = 252

/-- The first and the last key are of such a length, and the iterator starts behind the last. -/
def DecodersCondition (m : Meta) (key : Key) : Prop :=
  ∃ a b, m.head? = some a ∧ m.getLast? = some b ∧ SwapLength a.1 ∧ SwapLength b.1 ∧ b.1 < key

namespace MetaPage

variable {p : Buffer} {m : Meta} {i : Nat} {e : Entry}

/-- The key between two neighbouring offsets, subtracted the wrong way round. -/
theorem loadKey_swapped (h : MetaPage p m) (he : m[i]? = some e) :
    loadKey p ⟨slotOffset m i + 4, refLen (slotOffset m (i + 1)) (slotOffset m i)⟩ = some e.1 ↔
      SwapLength e.1 := by
  have hlen : e.1.len ≤ 255 := e.1.len_le
  have hswap := @refLen_swapped (slotOffset m i) e.1.len hlen
  rw [slotOffset_succ he]
  constructor
  · intro hload
    exact hswap.mp (loadKey_length hload).symm
  · intro hok
    rw [hswap.mpr hok]
    exact h.loadKey_slot he

theorem findKeysetFirst_iff (h : MetaPage p m) (he : m[0]? = some e) :
    (arrayFindKeysetFirst p).bind (loadKey p) = some e.1 ↔ SwapLength e.1 := by
  have hlt : 0 < m.length := (List.getElem?_eq_some_iff.mp he).1
  unfold arrayFindKeysetFirst
  rw [h.bitmap_slot hlt.le, Option.bind_some, h.bitmap_slot (show 0 + 1 ≤ m.length from hlt),
    Option.map_some, Option.bind_some]
  exact h.loadKey_swapped he

theorem findKeysetLast_iff (h : MetaPage p m) (hi : i + 1 = m.length) (he : m[i]? = some e) :
    (arrayFindKeysetLast p).bind (loadKey p) = some e.1 ↔ SwapLength e.1 := by
  unfold arrayFindKeysetLast
  rw [h.count, Option.bind_some, ← hi, h.bitmap_slot (by omega), Option.bind_some,
    h.bitmap_slot hi.le, Option.map_some, Option.bind_some]
  exact h.loadKey_swapped he

theorem getLpaFromData (h : MetaPage p m) (he : m[0]? = some e) :
    arrayGetLpaFromData p = some (some e.1) := by
  have hlt : 0 < m.length := (List.getElem?_eq_some_iff.mp he).1
  unfold arrayGetLpaFromData
  rw [h.bitmap_slot hlt.le, Option.bind_some, h.count, Option.bind_some,
    if_pos ⟨h.offset_ne_marker hlt.le, hlt⟩, h.slotKey he]
  rfl

end MetaPage

/-- Without its last entry a page has the same entries from `key` on when that lies behind
    all of them. -/
theorem filter_dropLast_iff {m : Meta} {b : Entry}
    (hb : m.getLast? = some b) {key : Key} :
    (m.dropLast.filter fun e => decide (key ≤ e.1)) = (m.filter fun e => decide (key ≤ e.1)) ↔
      b.1 < key := by
  have hsplit : m = m.dropLast ++ [b] := by
    rw [List.dropLast_append_getLast? b hb]
  have hfilter : (m.filter fun e => decide (key ≤ e.1)) =
      (m.dropLast.filter fun e => decide (key ≤ e.1)) ++
        [b].filter fun e => decide (key ≤ e.1) := by
    rw [← List.filter_append, ← hsplit]
  rw [hfilter, List.self_eq_append_right, List.filter_eq_nil_iff]
  simp

/-- When all readers agree on a produced page. -/
theorem decodersAgree_iff {p : Buffer} {m : Meta} (h : Produced p m) (key : Key) :
    DecodersAgree p key ↔ DecodersCondition m key := by
  have hr := h.readable
  have hpage := hr.toMetaPage
  obtain ⟨a, as, hcons⟩ := List.exists_cons_of_ne_nil hr.ne_nil
  have ha : m[0]? = some a := by rw [hcons]; rfl
  have hhead : m.head? = some a := by rw [hcons]; rfl
  have hlast := List.getLast?_eq_getLast_of_ne_nil hr.ne_nil
  have hpos : 0 < m.length := List.length_pos_of_ne_nil hr.ne_nil
  have hb : m[m.length - 1]? = some (m.getLast hr.ne_nil) := by
    rw [← List.getLast?_eq_getElem?, hlast]
  -- Each reader is right under a condition of its own.
  have hfirstIff := hpage.findKeysetFirst_iff ha
  have hlastIff := hpage.findKeysetLast_iff (by omega) hb
  have hiterIff := @filter_dropLast_iff m _ hlast key
  generalize m.getLast hr.ne_nil = b at hlast hlastIff hiterIff
  constructor
  · rintro ⟨es, hes, -, hiter, hfirst, hlst, -⟩
    rw [hpage.forEachHeader, Option.some.injEq] at hes
    rw [← hes] at hiter hfirst hlst
    rw [hpage.headerIterEntries hr.increasing hr.ne_nil, Option.some.injEq] at hiter
    rw [hhead] at hfirst
    rw [hlast] at hlst
    exact ⟨a, b, hhead, hlast, hfirstIff.mp hfirst, hlastIff.mp hlst, hiterIff.mp hiter⟩
  · rintro ⟨a', b', ha', hb', hsa, hsb, hlt⟩
    rw [hhead, Option.some.injEq] at ha'
    rw [hlast, Option.some.injEq] at hb'
    rw [← ha'] at hsa
    rw [← hb'] at hsb hlt
    refine ⟨m, hpage.forEachHeader, hpage.keyIterEntries, ?_, ?_, ?_, ?_⟩
    · rw [hpage.headerIterEntries hr.increasing hr.ne_nil, hiterIff.mpr hlt]
    · rw [hhead]
      exact hfirstIff.mpr hsa
    · rw [hlast]
      exact hlastIff.mpr hsb
    · rw [hhead]
      exact hpage.getLpaFromData ha

/-- Three entries, the first and the last with a key of a length that is read rightly. -/
def swapPage : Meta :=
  [(repeatKey 124 97 (by decide), 2), (letterKey 98, 3), (repeatKey 252 99 (by decide), 5)]

theorem produced_swapPage : ∃ p, Produced p swapPage := by
  have hfits : Fits swapPage := ⟨by decide, by decide +kernel⟩
  obtain ⟨p, hp, -⟩ := pbodyPageBytes_holds (fun _ => 0) hfits
  have hmerge : pipeMerger
      [[(repeatKey 124 97 (by decide), 2), (repeatKey 252 99 (by decide), 5)]]
      [[(repeatKey 124 97 (by decide), 1), (letterKey 98, 3)]] = some ([swapPage], [1]) := by
    decide +kernel
  exact ⟨p, .merge (by decide) (by decide) (by decide) hmerge (List.mem_singleton_self _) hp⟩

/-- Its readers agree on a search for the key `d`, behind all entries, but not on one for
    `b`. -/
theorem decodersAgree_iff_merged : ∃ p, Produced p swapPage ∧
    DecodersAgree p (letterKey 100) ∧ ¬ DecodersAgree p (letterKey 98) := by
  obtain ⟨p, hp⟩ := produced_swapPage
  refine ⟨p, hp, (decodersAgree_iff hp _).mpr ?_, fun h => ?_⟩
  · exact ⟨_, _, rfl, rfl, Or.inl List.length_replicate, Or.inr List.length_replicate, by decide⟩
  · obtain ⟨a, b, -, hb, -, -, hlt⟩ := (decodersAgree_iff hp _).mp h
    cases hb
    exact absurd hlt (by decide)

theorem pipeMerger_overwrite :
    pipeMerger [[(shortKey, 2)]] [[(shortKey, 1)]] = some ([[(shortKey, 2)]], [1]) := by
  decide +kernel

/-- A single entry, merged with an older one: its first key is read with a length of 232. -/
theorem decoders_counterexample : ∃ p, Produced p [(shortKey, 2)] ∧
    (arrayFindKeysetFirst p).map KeyRef.len = some 232 ∧ ¬ DecodersAgree p shortKey := by
  obtain ⟨p, hp, hholds⟩ := @pbodyPageBytes_holds (fun _ => 0)
    [(shortKey, 2)] ⟨by decide, by decide⟩
  have hpage : Produced p [(shortKey, 2)] :=
    .merge (pages_shortKey 2) (pages_shortKey 1) (by decide) pipeMerger_overwrite
      (List.mem_singleton_self _) hp
  have hmeta := hpage.readable.toMetaPage
  refine ⟨p, hpage, ?_, ?_⟩
  -- The subtraction the wrong way round: 1024 - 1044 - 4 is 232 in a byte, the key has 16.
  · have hlen : refLen (slotOffset [(shortKey, 2)] 1) (slotOffset [(shortKey, 2)] 0) = 232 := by
      decide
    unfold arrayFindKeysetFirst
    rw [hmeta.bitmap_slot (Nat.zero_le 1), Option.bind_some, hmeta.bitmap_slot (Nat.le_refl 1),
      Option.map_some, Option.map_some, hlen]
  · rintro ⟨es, hes, -, -, hfirst, -, -⟩
    rw [hmeta.forEachHeader, Option.some.injEq] at hes
    rw [← hes] at hfirst
    rcases (@MetaPage.findKeysetFirst_iff p _ (shortKey, 2) hmeta rfl).mp hfirst with h | h
    · exact absurd h (by decide)
    · exact absurd h (by decide)

end AggreKV.LsmTree
