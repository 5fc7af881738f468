import AggreKV.HashKv.FlushDurability
import AggreKV.HashKv.Pools
import AggreKV.Lib.Lines

/-! # The order of programs

    Pages of the segregated build are allocated when entries are assigned
    and programmed when the batch is flushed; a collection programs the
    pages it allocates at once.

    * `Queued`: the pages a flush will program are, line by line, those
      between the write pointer of the line and that of the superblock.
    * `gcQuiet`: a collection that meets no queued page of its victim or
      of the superblock it appends to.
    * `Programs`: the calls of `ssd_write_ppa` of a step. -/

namespace AggreKV.HashKv

variable {cfg : Settings} {hs : Hashing}

/-! ## Section 1: Accepted programs -/

/-- The pages of a list of segments, in the order of their programs. -/
def listedPages (fl : List FlushNode) : List Nat :=
    fl.flatMap fun nd => List.range' nd.ppa nd.length

/-- The pages of a flush list, node by node. -/
theorem listedPages_cons (nd : FlushNode) (fl : List FlushNode) :
    listedPages (nd :: fl) = List.range' nd.ppa nd.length ++ listedPages fl :=
  List.flatMap_cons ..

/-- And of two lists. -/
theorem listedPages_append (a b : List FlushNode) :
    listedPages (a ++ b) = listedPages a ++ listedPages b :=
  List.flatMap_append ..

/-- A new page goes to the end of the list, whether it joins the last segment or not. -/
theorem listedPages_flushAppend (fl : List FlushNode) (ppa : Nat) :
    listedPages (flushAppend fl ppa fun nd => ppa = nd.ppa + nd.length) =
      listedPages fl ++ [ppa] := by
  unfold flushAppend
  split
  · next last hlast =>
    have hfl : fl.dropLast ++ [last] = fl := List.dropLast_append_getLast? last hlast
    split
    · next hj =>
      have hj := of_decide_eq_true hj
      conv_rhs => rw [← hfl]
      rw [listedPages_append, listedPages_append, List.append_assoc]
      congr 1
      show List.range' last.ppa (last.length + 1) ++ [] =
        (List.range' last.ppa last.length ++ []) ++ [ppa]
      rw [List.append_nil, List.append_nil, List.range'_1_concat, hj]
    · rw [listedPages_append]
      rfl
  · next hnone =>
    rw [List.getLast?_eq_none_iff] at hnone
    subst hnone
    rfl

/-- The flush appends a node per segment, whose first page is not page 0. -/
theorem flushAppend_nodes {fl : List FlushNode} {ppa : Nat} (hp : ppa ≠ 0)
    (h : ∀ nd ∈ fl, nd.ppa ≠ 0 ∧ 0 < nd.length) :
    ∀ nd ∈ flushAppend fl ppa fun nd => ppa = nd.ppa + nd.length, nd.ppa ≠ 0 ∧ 0 < nd.length := by
  intro nd hnd
  unfold flushAppend at hnd
  split at hnd
  · next last hlast =>
    have hmem : last ∈ fl := List.mem_of_getLast? hlast
    split at hnd
    · rcases List.mem_append.mp hnd with hnd | hnd
      · exact h nd (List.dropLast_subset _ hnd)
      · rw [List.mem_singleton.mp hnd]
        exact ⟨(h last hmem).1, Nat.succ_pos _⟩
    · rcases List.mem_append.mp hnd with hnd | hnd
      · exact h nd hnd
      · rw [List.mem_singleton.mp hnd]
        exact ⟨hp, Nat.one_pos⟩
  · rw [List.mem_singleton.mp hnd]
    exact ⟨hp, Nat.one_pos⟩

/-- Consecutive pages are accepted. -/
theorem ssdWrite_consecutive : ∀ {n : Nat} {ssd : Ssd} {ppa : Nat}, ssd.Sound cfg →
    Consecutive cfg.pps ssd.lineWp (List.range' ppa n) →
      (ssdWrite cfg ssd ppa n).2 = true ∧
      (ssdWrite cfg ssd ppa n).1.lineWp = advance cfg.pps ssd.lineWp (List.range' ppa n)
  | 0, _, _, _, _ => ⟨rfl, rfl⟩
  | n + 1, ssd, ppa, h, hq => by
      rw [List.range'_succ] at hq ⊢
      obtain ⟨hp, hrest⟩ := hq.cons
      obtain ⟨hok, hl⟩ := ssdWrite_consecutive (h.program hp) hrest
      rw [ssdWrite_succ n (h.free hp) hp, advance_cons]
      exact ⟨hok, hl⟩

/-- A program that starts at the write pointer of its line and covers unwritten pages. -/
structure Accepted (cfg : Settings) (ssd : Ssd) (ppa n : Nat) : Prop where
  start : ssd.lineWp (ppa / cfg.pps) = ppa % cfg.pps
  unwritten : ∀ q, ppa ≤ q → q < ppa + n → ssd.ppaState q = false
  done : (ssdWrite cfg ssd ppa n).2 = true

/-- Consecutive programs are accepted. -/
theorem Accepted.of_consecutive {ssd : Ssd} {ppa n : Nat} (h : ssd.Sound cfg) (hn : 0 < n)
    (hq : Consecutive cfg.pps ssd.lineWp (List.range' ppa n)) : Accepted cfg ssd ppa n := by
  have hok := (ssdWrite_consecutive h hq).1
  refine ⟨?_, fun q hlo hhi => ?_, hok⟩
  · obtain ⟨k, rfl⟩ := Nat.exists_eq_succ_of_ne_zero (Nat.pos_iff_ne_zero.mp hn)
    rw [List.range'_succ] at hq
    exact hq.cons.1
  · exact ((@ssdWrite_state cfg _ _ _ _ (Prod.ext rfl hok) q).1 ⟨hlo, hhi⟩).1

/-- And so is a run of pages in one line, from its write pointer on. -/
theorem Accepted.of_line {ssd : Ssd} {i offt n : Nat} (h : ssd.Sound cfg)
    (hwp : ssd.lineWp i = offt) (hlt : offt < cfg.pps) (hroom : offt + n ≤ cfg.pps) :
    Accepted cfg ssd (sblkOfft2Ppa cfg i offt) n := by
  have hok := (ssdWrite_line h hwp hroom).1
  refine ⟨?_, fun q hlo hhi => ?_, hok⟩
  · rw [sblkOfft2Ppa_div hlt, sblkOfft2Ppa_mod hlt, hwp]
  · exact ((@ssdWrite_state cfg _ _ _ _ (Prod.ext rfl hok) q).1 ⟨hlo, hhi⟩).1

/-- A flush of consecutive segments is never refused. -/
theorem flushSegs_consecutive : ∀ {fl : List FlushNode} {ssd : Ssd}, ssd.Sound cfg →
    (∀ nd ∈ fl, nd.ppa ≠ 0) → Consecutive cfg.pps ssd.lineWp (listedPages fl) →
      ∃ ssd', flushSegs cfg ssd fl = some ssd' ∧ ssd'.Sound cfg ∧
        ssd'.lineWp = advance cfg.pps ssd.lineWp (listedPages fl)
  | [], ssd, h, _, _ => ⟨ssd, rfl, h, rfl⟩
  | nd :: fl, ssd, h, hne, hq => by
      rw [listedPages_cons] at hq
      obtain ⟨hnd, hrest⟩ := hq.append
      obtain ⟨hok, hl⟩ := ssdWrite_consecutive h hnd
      obtain ⟨ssd', hf, hs, hl'⟩ := flushSegs_consecutive (h.ssdWrite (n := nd.length))
        (fun x hx => hne x (List.mem_cons_of_mem _ hx)) (hl ▸ hrest)
      refine ⟨ssd', ?_, hs, ?_⟩
      · unfold flushSegs
        rw [if_neg (hne nd (List.mem_cons_self ..))]
        dsimp only
        rw [if_pos hok]
        exact hf
      · rw [hl', hl, listedPages_cons]
        funext i
        unfold advance
        rw [onLine_append, List.length_append, Nat.add_assoc]

/-! ## Section 2: Queued pages -/

/-- The queue of each stream against the data superblocks: the pages that are allocated
    but not programmed, in order, in the queue of the stream of their superblock. -/
structure Queued (cfg : Settings) (bm : Bm) (ssd : Ssd) (queue : Nat → List Nat) : Prop where
  pending : ∀ i, cfg.dataSblk ≤ i → ∀ idx, onLine cfg.pps (queue idx) i =
    if (bm.sblk i).streamIdx = some idx then
      List.range' (sblkOfft2Ppa cfg i (ssd.lineWp i)) ((bm.sblk i).wpOfft - ssd.lineWp i)
    else []
  behind : ∀ i, cfg.dataSblk ≤ i → ssd.lineWp i ≤ (bm.sblk i).wpOfft
  idle : ∀ i, cfg.dataSblk ≤ i → (bm.sblk i).isOwned = false → (bm.sblk i).wpOfft < cfg.pps →
    (bm.sblk i).wpOfft = 0
  data : ∀ idx, ∀ p ∈ queue idx, cfg.dataPage ≤ p
  unused : ∀ idx, 8 ≤ idx → queue idx = []

namespace Queued

variable {bm bm' : Bm} {ssd ssd' : Ssd} {queue queue' : Nat → List Nat}

/-- The write pointers and owners are all that counts. -/
theorem congr (h : Queued cfg bm ssd queue)
    (hs : ∀ i, cfg.dataSblk ≤ i → (bm'.sblk i).streamIdx = (bm.sblk i).streamIdx)
    (ho : ∀ i, cfg.dataSblk ≤ i → (bm'.sblk i).isOwned = (bm.sblk i).isOwned)
    (hw : ∀ i, cfg.dataSblk ≤ i → (bm'.sblk i).wpOfft = (bm.sblk i).wpOfft)
    (hl : ∀ i, cfg.dataSblk ≤ i → ssd'.lineWp i = ssd.lineWp i) : Queued cfg bm' ssd' queue where
  pending i hi idx := by
    rw [hs i hi, hw i hi, hl i hi]
    exact h.pending i hi idx
  behind i hi := by
    rw [hw i hi, hl i hi]
    exact h.behind i hi
  idle i hi := by
    rw [ho i hi, hw i hi]
    exact h.idle i hi
  data := h.data
  unused := h.unused

theorem blocks (h : Queued cfg bm ssd queue) (hb : SameBlocks bm bm') :
    Queued cfg bm' ssd queue := by
  refine h.congr (fun i _ => ?_) (fun i _ => ?_) (fun i _ => hb.wpOfft i) fun _ _ => rfl
  · obtain ⟨n, hn⟩ := hb.sblk i
    rw [hn]
  · obtain ⟨n, hn⟩ := hb.sblk i
    rw [hn]

/-- A cursor does not count. -/
theorem setStream (h : Queued cfg bm ssd queue) (idx : Nat) (st : Stream) :
    Queued cfg (bm.setStream idx st) ssd queue :=
  h.congr (fun _ _ => rfl) (fun _ _ => rfl) (fun _ _ => rfl) fun _ _ => rfl

/-- Nor does the map side. -/
theorem mapStep {s s' : Store} (h : Queued cfg s.bm s.ssd queue) (hm : MapStep cfg s s') :
    Queued cfg s'.bm s'.ssd queue := by
  have hb : ∀ i, cfg.dataSblk ≤ i → s'.bm.sblk i = s.bm.sblk i := hm.data.sblk
  exact h.congr (fun i hi => by rw [hb i hi]) (fun i hi => by rw [hb i hi])
    (fun i hi => by rw [hb i hi]) hm.lines

/-- An empty superblock has no queued page. -/
theorem empty (h : Queued cfg bm ssd queue) {i : Nat} (hi : cfg.dataSblk ≤ i)
    (hwp : (bm.sblk i).wpOfft = 0) (idx : Nat) : onLine cfg.pps (queue idx) i = [] := by
  rw [h.pending i hi idx, hwp, Nat.zero_sub]
  split <;> rfl

/-- A stream changes its superblock. The new one is empty. -/
theorem switched {idx a : Nat} (h : Queued cfg bm ssd queue) (hd : cfg.IsData a)
    (hsw : Switched cfg bm idx a bm') :
    Queued cfg bm' ssd queue ∧ (bm' = bm ∨ (bm.sblk a).wpOfft = 0) := by
  rcases hsw.origin with rfl | ⟨hfree, hopen, b, hne, -, hfull, hsblk⟩
  · exact ⟨h, Or.inl rfl⟩
  · have hzero : (bm.sblk a).wpOfft = 0 := h.idle a hd.1 hfree hopen
    have hb : bm'.sblk b = { bm.sblk b with isOwned := false } := by
      rw [hsblk, Function.update_of_ne hne, Function.update_self]
    have ha : bm'.sblk a = { bm.sblk a with isOwned := true, streamIdx := some idx } := by
      rw [hsblk, Function.update_self]
    have hother : ∀ i, i ≠ a → i ≠ b → bm'.sblk i = bm.sblk i := fun i hia hib => by
      rw [hsblk, Function.update_of_ne hia, Function.update_of_ne hib]
    have hwp : ∀ i, (bm'.sblk i).wpOfft = (bm.sblk i).wpOfft := fun i => by
      by_cases hia : i = a
      · rw [hia, ha]
      · by_cases hib : i = b
        · rw [hib, hb]
        · rw [hother i hia hib]
    refine ⟨⟨fun i hi j => ?_, fun i hi => ?_, fun i hi ho hlt => ?_, h.data, h.unused⟩,
      Or.inr hzero⟩
    -- The new superblock has no queued pages, the old one keeps its own.
    · by_cases hia : i = a
      · subst hia
        rw [h.empty hi hzero, hwp, hzero, Nat.zero_sub]
        split <;> rfl
      · have hs : (bm'.sblk i).streamIdx = (bm.sblk i).streamIdx := by
          by_cases hib : i = b
          · rw [hib, hb]
          · rw [hother i hia hib]
        rw [hs, hwp]
        exact h.pending i hi j
    · rw [hwp]
      exact h.behind i hi
    · rw [hwp] at hlt ⊢
      by_cases hia : i = a
      · rw [hia, ha] at ho
        cases ho
      · by_cases hib : i = b
        · rw [hib] at hlt
          omega
        · rw [hother i hia hib] at ho
          exact h.idle i hi ho hlt

/-- The next page of a superblock joins the queue of its stream. -/
theorem allocate {idx a : Nat} (h : Queued cfg bm ssd queue) (hd : cfg.IsData a) (hidx : idx < 8)
    (ho : (bm.sblk a).isOwned = true) (hs : (bm.sblk a).streamIdx = some idx)
    (hlt : (bm.sblk a).wpOfft < cfg.pps) :
    Queued cfg (getPageNum cfg bm a).2 ssd
      (Function.update queue idx (queue idx ++ [(getPageNum cfg bm a).1])) := by
  have hp : (getPageNum cfg bm a).1 = sblkOfft2Ppa cfg a (bm.sblk a).wpOfft := rfl
  have hline : (getPageNum cfg bm a).1 / cfg.pps = a := sblkOfft2Ppa_div hlt
  have hself : (getPageNum cfg bm a).2.sblk a =
      { bm.sblk a with wpOfft := (bm.sblk a).wpOfft + 1 } := Function.update_self ..
  have hother : ∀ i, i ≠ a → (getPageNum cfg bm a).2.sblk i = bm.sblk i :=
    fun i hi => Function.update_of_ne hi ..
  refine ⟨fun i hi j => ?_, fun i hi => ?_, fun i hi hfree => ?_, fun j p hmem => ?_,
    fun j hj => ?_⟩
  · by_cases hia : i = a
    · subst hia
      rw [hself]
      by_cases hj : j = idx
      · subst hj
        have hbehind := h.behind i hi
        rw [Function.update_self, onLine_append, h.pending i hi j, if_pos hs, if_pos hs, hp,
          Nat.succ_sub hbehind, Nat.succ_eq_add_one, List.range'_1_concat]
        congr 1
        rw [← hp, onLine, List.filter_cons_of_pos (by simpa using hline), hp]
        unfold sblkOfft2Ppa
        rw [List.filter_nil, Nat.add_assoc, Nat.add_sub_cancel' hbehind]
      -- Other streams have no pages in this superblock.
      · have hne : (bm.sblk i).streamIdx ≠ some j := by
          rw [hs]
          exact fun he => hj (Option.some.inj he).symm
        rw [Function.update_of_ne hj, h.pending i hi j, if_neg hne, if_neg hne]
    · rw [hother i hia]
      by_cases hj : j = idx
      · subst hj
        have hout : onLine cfg.pps [(getPageNum cfg bm a).1] i = [] := by
          refine onLine_eq_nil fun p hmem => ?_
          rw [List.mem_singleton.mp hmem, hline]
          exact Ne.symm hia
        rw [Function.update_self, onLine_append, hout, List.append_nil]
        exact h.pending i hi j
      · rw [Function.update_of_ne hj]
        exact h.pending i hi j
  · by_cases hia : i = a
    · subst hia
      rw [hself]
      exact Nat.le_succ_of_le (h.behind i hi)
    · rw [hother i hia]
      exact h.behind i hi
  · by_cases hia : i = a
    · rw [hia, hself] at hfree
      rw [ho] at hfree
      cases hfree
    · rw [hother i hia] at hfree ⊢
      exact h.idle i hi hfree
  · by_cases hj : j = idx
    · subst hj
      rw [Function.update_self] at hmem
      rcases List.mem_append.mp hmem with hmem | hmem
      · exact h.data j p hmem
      · rw [List.mem_singleton.mp hmem]
        exact dataPage_le_sblkOfft2Ppa hd.1 _
    · rw [Function.update_of_ne hj] at hmem
      exact h.data j p hmem
  · rw [Function.update_of_ne (by omega)]
    exact h.unused j hj

/-- Part of a queue is programmed. No earlier page of the queue lies in one of its lines. -/
theorem program {v : Nat} (before part rest : List Nat) (h : Queued cfg bm ssd queue)
    (hv : queue v = before ++ part ++ rest)
    (hclear : ∀ p ∈ part, ∀ q ∈ before, q / cfg.pps ≠ p / cfg.pps) :
    Consecutive cfg.pps ssd.lineWp part ∧ ∀ ssd' : Ssd,
      ssd'.lineWp = advance cfg.pps ssd.lineWp part →
        Queued cfg bm ssd' (Function.update queue v (before ++ rest)) := by
  have hin : ∀ p ∈ part, p ∈ queue v := fun p hp => by
    rw [hv]
    exact List.mem_append_left _ (List.mem_append_right _ hp)
  -- A line with a page of the part holds nothing before it.
  have hline : ∀ i, onLine cfg.pps part i ≠ [] → onLine cfg.pps before i = [] ∧ cfg.dataSblk ≤ i ∧
      (bm.sblk i).streamIdx = some v ∧
      (onLine cfg.pps part i).length ≤ (bm.sblk i).wpOfft - ssd.lineWp i ∧
      onLine cfg.pps part i =
        List.range' (sblkOfft2Ppa cfg i (ssd.lineWp i)) (onLine cfg.pps part i).length ∧
      onLine cfg.pps rest i =
        List.range' (sblkOfft2Ppa cfg i (ssd.lineWp i + (onLine cfg.pps part i).length))
          ((bm.sblk i).wpOfft - (ssd.lineWp i + (onLine cfg.pps part i).length)) := fun i hne => by
    obtain ⟨p, hp⟩ := List.exists_mem_of_ne_nil _ hne
    obtain ⟨hpart, hpi⟩ := mem_onLine.mp hp
    have hdata : cfg.dataSblk ≤ i := by
      rw [← hpi, Nat.le_div_iff_mul_le cfg.pps_pos]
      exact h.data v p (hin p hpart)
    have hbefore : onLine cfg.pps before i = [] :=
      onLine_eq_nil fun q hq => hpi ▸ hclear p hpart q hq
    have hpend := h.pending i hdata v
    rw [hv, onLine_append, onLine_append, hbefore, List.nil_append] at hpend
    by_cases hs : (bm.sblk i).streamIdx = some v
    · rw [if_pos hs] at hpend
      obtain ⟨k, hk, hpk, hrk⟩ := List.range'_eq_append_iff.mp hpend.symm
      have hlen : (onLine cfg.pps part i).length = k := by rw [hpk, List.length_range']
      rw [hlen]
      refine ⟨hbefore, hdata, hs, hk, hpk, ?_⟩
      rw [hrk, Nat.mul_one, Nat.sub_sub]
      unfold sblkOfft2Ppa
      rw [Nat.add_assoc]
    · rw [if_neg hs] at hpend
      exact absurd (List.append_eq_nil_iff.mp hpend).1 hne
  refine ⟨fun i => ?_, fun ssd' hl => ⟨fun i hi j => ?_, fun i hi => ?_, h.idle, ?_, ?_⟩⟩
  · by_cases hne : onLine cfg.pps part i = []
    · rw [hne]
      rfl
    · exact (hline i hne).2.2.2.2.1
  · rw [hl]
    unfold advance
    by_cases hne : onLine cfg.pps part i = []
    · rw [hne, List.length_nil, Nat.add_zero, ← h.pending i hi j]
      by_cases hj : j = v
      · rw [hj, Function.update_self, hv, onLine_append, onLine_append, onLine_append, hne,
          List.append_nil]
      · rw [Function.update_of_ne hj]
    · obtain ⟨hbefore, -, hs, -, -, hrest⟩ := hline i hne
      by_cases hj : j = v
      · rw [hj, Function.update_self, onLine_append, hbefore, List.nil_append, hrest, if_pos hs]
      · have hsj : (bm.sblk i).streamIdx ≠ some j := by
          rw [hs]
          exact fun he => hj (Option.some.inj he).symm
        rw [Function.update_of_ne hj, h.pending i hi j, if_neg hsj, if_neg hsj]
  · have hbehind := h.behind i hi
    rw [hl]
    unfold advance
    by_cases hne : onLine cfg.pps part i = []
    · rw [hne]
      exact hbehind
    · have hle := (hline i hne).2.2.2.1
      omega
  · intro j p hmem
    by_cases hj : j = v
    · rw [hj, Function.update_self] at hmem
      refine h.data v p ?_
      rw [hv, List.append_assoc]
      rcases List.mem_append.mp hmem with hmem | hmem
      · exact List.mem_append_left _ hmem
      · exact List.mem_append_right _ (List.mem_append_right _ hmem)
    · rw [Function.update_of_ne hj] at hmem
      exact h.data j p hmem
  · intro j hj
    by_cases hjv : j = v
    · have hnil := h.unused v (hjv ▸ hj)
      rw [hv, List.append_assoc] at hnil
      obtain ⟨hb, hpr⟩ := List.append_eq_nil_iff.mp hnil
      rw [hjv, Function.update_self, hb, (List.append_eq_nil_iff.mp hpr).2]
      rfl
    · rw [Function.update_of_ne hjv]
      exact h.unused j hj

/-- The flush programs all queues, one stream after the other. -/
theorem flush (h : Queued cfg bm ssd queue) :
    Consecutive cfg.pps ssd.lineWp ((List.range 8).flatMap queue) ∧ ∀ ssd' : Ssd,
      ssd'.lineWp = advance cfg.pps ssd.lineWp ((List.range 8).flatMap queue) →
        Queued cfg bm ssd' fun _ => [] := by
  have hsplit : ∀ i, onLine cfg.pps ((List.range 8).flatMap queue) i =
      (List.range 8).flatMap fun j => onLine cfg.pps (queue j) i := fun i => List.filter_flatMap ..
  have hmap : ∀ i, ¬cfg.dataSblk ≤ i → onLine cfg.pps ((List.range 8).flatMap queue) i = [] :=
    fun i hi => onLine_eq_nil fun p hp => by
      obtain ⟨j, -, hmem⟩ := List.mem_flatMap.mp hp
      rintro rfl
      exact hi ((Nat.le_div_iff_mul_le cfg.pps_pos).mpr (h.data j p hmem))
  have hdata : ∀ i, cfg.dataSblk ≤ i → onLine cfg.pps ((List.range 8).flatMap queue) i =
      (bm.sblk i).streamIdx.elim [] fun _ =>
        List.range' (sblkOfft2Ppa cfg i (ssd.lineWp i)) ((bm.sblk i).wpOfft - ssd.lineWp i) :=
      fun i hi => by
    rw [hsplit]
    simp only [h.pending i hi]
    cases hs : (bm.sblk i).streamIdx with
    | none => simp
    | some k =>
      simp only [Option.some.injEq]
      rw [flatMap_single]
      split
      · rfl
      · next hk =>
        have hpend := h.pending i hi k
        rw [h.unused k (by omega), hs, if_pos rfl] at hpend
        exact hpend
  refine ⟨fun i => ?_,
    fun ssd' hl => ⟨fun i hi j => ?_, fun i hi => ?_, h.idle, ?_, fun _ _ => rfl⟩⟩
  · by_cases hi : cfg.dataSblk ≤ i
    · rw [hdata i hi]
      cases (bm.sblk i).streamIdx with
      | none => rfl
      | some k =>
        rw [Option.elim_some, List.length_range']
        rfl
    · rw [hmap i hi]
      rfl
  -- All allocated pages of the line are programmed now.
  · have hbehind := h.behind i hi
    show [] = _
    split
    · next hs =>
      rw [hl]
      unfold advance
      rw [hdata i hi, hs, Option.elim_some, List.length_range',
        show (bm.sblk i).wpOfft - (ssd.lineWp i + ((bm.sblk i).wpOfft - ssd.lineWp i)) = 0 by omega]
      rfl
    · rfl
  · have hbehind := h.behind i hi
    rw [hl]
    unfold advance
    rw [hdata i hi]
    cases (bm.sblk i).streamIdx with
    | none => exact hbehind
    | some k =>
      rw [Option.elim_some, List.length_range']
      omega
  · intro j p hp
    cases hp

end Queued

/-! ## Section 3: Collections -/

/-- The pages of the open segment of the write loop. -/
def GcCursor.pages (cur : GcCursor) : List Nat :=
  match cur.seg with
  | some (sppa, last) => List.range' sppa (last - sppa + 1)
  | none => []

/-- Map lines stay level while the map side stays. -/
theorem Store.Level.sameMap {s s' : Store} (h : s.Level cfg)
    (hw : ∀ i < cfg.dataSblk, (s'.bm.sblk i).wpOfft = (s.bm.sblk i).wpOfft)
    (hd : s'.ssd = s.ssd) : s'.Level cfg := by
  refine ⟨hd ▸ h.sound, fun i hi => ?_⟩
  rw [hw i hi, hd]
  exact h.lines i hi

/-- Programs of data pages leave the lines of the MAP partition alone. -/
theorem advance_map {wp : Nat → Nat} {q : List Nat} (hq : ∀ p ∈ q, cfg.dataPage ≤ p) {i : Nat}
    (hi : i < cfg.dataSblk) : advance cfg.pps wp q i = wp i := by
  unfold advance
  rw [onLine_eq_nil]
  · rfl
  · rintro p hp rfl
    have hle : cfg.dataSblk ≤ p / cfg.pps := (Nat.le_div_iff_mul_le cfg.pps_pos).mpr (hq p hp)
    omega

/-- Opening a page extends the open segment, or programs it and starts a new one. -/
theorem gcOpenPage_seg {v : Nat} {s s' : Store} {cur cur' : GcCursor}
    (hord : ∀ sppa last, cur.seg = some (sppa, last) → sppa ≤ last)
    (h : gcOpenPage cfg v s cur = some (s', cur')) :
    (∀ sppa last, cur'.seg = some (sppa, last) → sppa ≤ last) ∧
      ((s'.ssd = s.ssd ∧ cur'.pages = cur.pages ++ [cur'.ppa]) ∨
        ∃ sppa last, cur.seg = some (sppa, last) ∧
          s'.ssd = (ssdWrite cfg s.ssd sppa (last - sppa + 1)).1 ∧ cur'.pages = [cur'.ppa]) := by
  unfold gcOpenPage at h
  simp only [Option.bind_eq_bind, Option.bind_eq_some_iff] at h
  obtain ⟨⟨a, bm⟩, -, h⟩ := h
  unfold GcCursor.pages
  split at h
  · next hnone =>
    cases h
    refine ⟨fun sppa last he => ?_, Or.inl ⟨rfl, ?_⟩⟩
    · obtain ⟨rfl, rfl⟩ := Prod.mk.inj (Option.some.inj he)
      exact Nat.le_refl _
    · rw [hnone]
      simp
  · next sppa last hcur =>
    have hle := hord sppa last hcur
    split at h
    -- The next page in a row.
    · next hnext =>
      cases h
      refine ⟨fun sppa' last' he => ?_, Or.inl ⟨rfl, ?_⟩⟩
      · obtain ⟨rfl, rfl⟩ := Prod.mk.inj (Option.some.inj he)
        omega
      · rw [hcur, hnext]
        show List.range' sppa (last + 1 - sppa + 1) =
          List.range' sppa (last - sppa + 1) ++ [last + 1]
        have hend : sppa + (last - sppa + 1) = last + 1 := by omega
        rw [Nat.succ_sub hle, Nat.succ_eq_add_one, List.range'_1_concat, hend]
    · split at h
      · cases h
        refine ⟨fun sppa' last' he => ?_, Or.inr ⟨sppa, last, hcur, rfl, ?_⟩⟩
        · obtain ⟨rfl, rfl⟩ := Prod.mk.inj (Option.some.inj he)
          exact Nat.le_refl _
        · simp
      · cases h

/-- The write loop of a collection of `t` for stream `v`: the pages of its open segment
    count as queued, apart from the pages that the batch has queued. -/
structure Appending (cfg : Settings) (queue : Nat → List Nat) (v t : Nat) (s : Store)
    (cur : GcCursor) : Prop where
  zoned : s.Zoned cfg
  pooled : Pooled cfg Live s.bm
  victim : Victim cfg s.bm t
  level : s.Level cfg
  queued : Queued cfg s.bm s.ssd (Function.update queue v (queue v ++ cur.pages))
  apart : ∀ p ∈ cur.pages, ∀ q ∈ queue v, q / cfg.pps ≠ p / cfg.pps
  clear : ∀ a, (s.bm.stream v).activeSblk = some a → (s.bm.sblk a).wpOfft < cfg.pps →
    ∀ q ∈ queue v, q / cfg.pps ≠ a
  seg : ∀ sppa last, cur.seg = some (sppa, last) → sppa ≤ last

namespace Appending

variable {queue : Nat → List Nat} {v t : Nat} {s s' : Store} {cur cur' : GcCursor}

/-- The open segment can be programmed at any time. -/
theorem program (h : Appending cfg queue v t s cur) :
    Consecutive cfg.pps s.ssd.lineWp cur.pages ∧ ∀ ssd' : Ssd,
      ssd'.lineWp = advance cfg.pps s.ssd.lineWp cur.pages → Queued cfg s.bm ssd' queue := by
  obtain ⟨hcons, hprog⟩ := h.queued.program (v := v) (queue v) cur.pages []
    (by rw [Function.update_self, List.append_nil]) h.apart
  refine ⟨hcons, fun ssd' hl => ?_⟩
  have hq := hprog ssd' hl
  rw [List.append_nil, Function.update_idem, Function.update_eq_self] at hq
  exact hq

/-- The open segment can be programmed. -/
theorem accepted (h : Appending cfg queue v t s cur) {sppa last : Nat}
    (hseg : cur.seg = some (sppa, last)) : Accepted cfg s.ssd sppa (last - sppa + 1) := by
  have hcons := h.program.1
  unfold GcCursor.pages at hcons
  rw [hseg] at hcons
  exact .of_consecutive h.level.sound (Nat.succ_pos _) hcons

/-- The segment is closed: the state after its program. -/
theorem close (h : Appending cfg queue v t s cur) {sppa last : Nat}
    (hseg : cur.seg = some (sppa, last)) :
    Queued cfg s.bm (ssdWrite cfg s.ssd sppa (last - sppa + 1)).1 queue ∧
      Store.Level cfg { s with ssd := (ssdWrite cfg s.ssd sppa (last - sppa + 1)).1 } := by
  have hpages : cur.pages = List.range' sppa (last - sppa + 1) := by
    unfold GcCursor.pages
    rw [hseg]
  obtain ⟨hcons, hprog⟩ := h.program
  rw [hpages] at hcons hprog
  obtain ⟨-, hl⟩ := ssdWrite_consecutive h.level.sound hcons
  refine ⟨hprog _ hl, h.level.sound.ssdWrite, fun i hi => ?_⟩
  show (ssdWrite cfg s.ssd sppa (last - sppa + 1)).1.lineWp i = _
  rw [hl, advance_map (fun p hp => ?_) hi]
  · exact h.level.lines i hi
  · refine h.queued.data v p ?_
    rw [Function.update_self, hpages]
    exact List.mem_append_right _ hp

/-- A page is opened: it joins the open segment, or the segment is programmed first. -/
theorem page (h : Appending cfg queue v t s cur) (hds : cfg.dataSegregation = true) (hv : v < 8)
    (hp : gcPage cfg v s cur = some (s', cur')) :
    Appending cfg queue v t s' cur' ∧ (s'.bm.stream v).grainRemain ≠ 0 := by
  obtain ⟨hz, hne⟩ := gcPage_zoned hds h.zoned hp
  refine ⟨?_, hne⟩
  unfold gcPage at hp
  split at hp
  · obtain ⟨a, bm, hg, hppa, he⟩ := gcOpenPage_eq hp
    have hopen := getStreamSblk_spec hds h.zoned.toZoned hg
    have hsw := h.pooled.getStreamSblk hds h.zoned.toZoned hv hg
    obtain ⟨hpool, hvic, -⟩ := Pooled.openPage hsw h.victim
      { bm.stream v with
        activeSblkOffset := ((getPageNum cfg bm a).2.sblk a).wpOfft,
        activePpa := cur'.ppa, grainRemain := 4 } rfl
    have hmap := (hopen.openPage { bm.stream v with
      activeSblkOffset := ((getPageNum cfg bm a).2.sblk a).wpOfft,
      activePpa := cur'.ppa, grainRemain := 4 } rfl hppa).2
    have hline : cur'.ppa / cfg.pps = a := by
      rw [hppa]
      exact sblkOfft2Ppa_div hopen.hasPage
    obtain ⟨hq, horigin⟩ := h.queued.switched hopen.data hsw
    -- The batch has queued no page of the superblock that is appended to.
    have hfree : ∀ q ∈ queue v, q / cfg.pps ≠ a := by
      rcases horigin with rfl | hzero
      · exact h.clear a hsw.active hopen.hasPage
      · rintro q hmem hqa
        have hempty := h.queued.empty hopen.data.1 hzero v
        rw [Function.update_self, onLine_append] at hempty
        have hin := mem_onLine.mpr ⟨hmem, hqa⟩
        rw [(List.append_eq_nil_iff.mp hempty).1] at hin
        cases hin
    have hstream : (bm.sblk a).streamIdx = some v := by
      obtain ⟨b, hb, -, -, hx⟩ := hsw.pooled.streams v hv
      cases hb.symm.trans hsw.active
      exact hx
    have halloc := hq.allocate hopen.data hv hsw.owned hstream hopen.hasPage
    rw [Function.update_self, Function.update_idem, ← hppa] at halloc
    have hwp : ∀ i < cfg.dataSblk, (s'.bm.sblk i).wpOfft = (s.bm.sblk i).wpOfft := fun i hi => by
      rw [he]
      exact congrArg Superblock.wpOfft (hmap.sblk i hi)
    have hclear : ∀ b, (s'.bm.stream v).activeSblk = some b → (s'.bm.sblk b).wpOfft < cfg.pps →
        ∀ q ∈ queue v, q / cfg.pps ≠ b := fun b hb _ => by
      have hact : (s'.bm.stream v).activeSblk = some a := by
        rw [he]
        simpa [Bm.setStream] using hsw.active
      cases hact.symm.trans hb
      exact hfree
    have hlevel : Store.Level cfg { s' with ssd := s.ssd } := h.level.sameMap hwp rfl
    have hpool' : Pooled cfg Live s'.bm := by
      rw [he]
      exact hpool
    have hvic' : Victim cfg s'.bm t := by
      rw [he]
      exact hvic
    have hqueued : Queued cfg s'.bm s.ssd
        (Function.update queue v (queue v ++ cur.pages ++ [cur'.ppa])) := by
      rw [he]
      exact halloc.setStream v _
    obtain ⟨hseg, hpages⟩ := gcOpenPage_seg h.seg hp
    have hjoined : ∀ p ∈ cur.pages ++ [cur'.ppa], ∀ q ∈ queue v, q / cfg.pps ≠ p / cfg.pps := by
      intro p hp q hq
      rcases List.mem_append.mp hp with hp | hp
      · exact h.apart p hp q hq
      · rw [List.mem_singleton.mp hp, hline]
        exact hfree q hq
    rcases hpages with ⟨hssd, hpages⟩ | ⟨sppa, last, hcur, hssd, hpages⟩
    · refine ⟨hz, hpool', hvic', ?_, ?_, hpages ▸ hjoined, hclear, hseg⟩
      · exact h.level.sameMap hwp hssd
      · rw [hpages, hssd, ← List.append_assoc]
        exact hqueued
    · have hold : cur.pages = List.range' sppa (last - sppa + 1) := by
        unfold GcCursor.pages
        rw [hcur]
      obtain ⟨hcons, hprog⟩ := hqueued.program (v := v) (queue v) cur.pages [cur'.ppa]
        (Function.update_self ..) h.apart
      rw [hold] at hcons hprog
      obtain ⟨-, hl⟩ := ssdWrite_consecutive h.level.sound hcons
      have hq' := hprog _ hl
      rw [Function.update_idem] at hq'
      refine ⟨hz, hpool', hvic', ?_, ?_, ?_, hclear, hseg⟩
      · exact (h.close hcur).2.sameMap hwp hssd
      · rw [hpages, hssd]
        exact hq'
      · rw [hpages]
        exact fun p hp => hjoined p (List.mem_append_right _ hp)
  · cases hp
    exact h

theorem place {it : GcItem} {n : GcNode} (h : Appending cfg queue v t s cur)
    (hroom : (s.bm.stream v).grainRemain ≠ 0)
    (hp : gcPlace cfg v s cur it = some (s', n)) : Appending cfg queue v t s' cur := by
  have hz := gcPlace_zoned h.zoned hroom hp
  obtain ⟨bm, hb, rfl, -⟩ := gcPlace_spec hp
  have hblocks := placeItem_blocks hb
  have hpool : Pooled cfg Live (s.bm.setStream v { s.bm.stream v with
      grainRemain := sub32 (s.bm.stream v).grainRemain 1 }) := h.pooled.setStream v rfl
  have hqueued : Queued cfg (s.bm.setStream v { s.bm.stream v with
      grainRemain := sub32 (s.bm.stream v).grainRemain 1 }) s.ssd
        (Function.update queue v (queue v ++ cur.pages)) := h.queued.setStream v _
  refine ⟨hz, hpool.blocks hblocks, (h.victim.setStream v _).blocks hblocks,
    h.level.sameMap (fun i _ => hblocks.wpOfft i) rfl, hqueued.blocks hblocks, h.apart,
    fun a ha hlt => ?_, h.seg⟩
  have hact : (bm.stream v).activeSblk = (s.bm.stream v).activeSblk := by
    rw [hblocks.stream]
    simp [Bm.setStream]
  refine h.clear a (hact.symm.trans ha) ?_
  have hwp : (bm.sblk a).wpOfft = (s.bm.sblk a).wpOfft := hblocks.wpOfft a
  exact hwp.symm.trans_lt hlt

/-- The write loop of a collection programs in order. -/
theorem writeLoop (hds : cfg.dataSegregation = true) (hv : v < 8) {items : List GcItem}
    {nodes : List GcNode} (h : Appending cfg queue v t s cur)
    (hl : gcWriteLoop cfg v s cur items = some (s', cur', nodes)) :
    Appending cfg queue v t s' cur' :=
  (gcWriteLoop_invariant (P := fun s cur => Appending cfg queue v t s cur)
    (Q := fun s cur => Appending cfg queue v t s cur ∧ (s.bm.stream v).grainRemain ≠ 0)
    (R := fun _ _ => True) (fun h hp => h.page hds hv hp)
    (fun h hp => ⟨h.1.place h.2 hp, trivial⟩) h hl).1

end Appending

/-- The end of `_do_bulk_write_valid_items`: the last segment is programmed. -/
theorem writeItemsStream_seg {s s' : Store} {target : Nat} {items : List GcItem}
    {nodes : List GcNode} (h : writeItemsStream cfg s target items = some (s', nodes)) :
    ∃ s₁ cur, gcWriteLoop cfg (victimStream s.bm target) s ⟨0, none⟩ items =
      some (s₁, cur, nodes) ∧ ((cur.seg = none ∧ s' = s₁) ∨ ∃ sppa last,
        cur.seg = some (sppa, last) ∧
        s' = { s₁ with ssd := (ssdWrite cfg s₁.ssd sppa (last - sppa + 1)).1 }) := by
  unfold writeItemsStream at h
  simp only [Option.bind_eq_bind, Option.bind_eq_some_iff] at h
  obtain ⟨⟨s₁, cur, ns⟩, hl, h⟩ := h
  split at h
  · next hseg =>
    cases h
    exact ⟨s₁, cur, hl, Or.inl ⟨hseg, rfl⟩⟩
  · next sppa last hseg =>
    split at h
    · cases h
      exact ⟨s₁, cur, hl, Or.inr ⟨sppa, last, hseg, rfl⟩⟩
    · cases h

/-- A collection of `target` meets no queued page: neither in the victim nor in the open
    superblock that its live items go to. -/
structure Quiet (cfg : Settings) (queue : Nat → List Nat) (s : Store) (idx target : Nat) :
    Prop where
  victim : ∀ j, ∀ p ∈ queue j, p / cfg.pps ≠ target
  room : s.gcItems cfg idx = [] ∨ ∀ a,
    (s.bm.stream (victimStream s.bm target)).activeSblk = some a → (s.bm.sblk a).wpOfft < cfg.pps →
      ∀ q ∈ queue (victimStream s.bm target), q / cfg.pps ≠ a

/-- The write loop starts with no segment. -/
theorem Quiet.start {s : Store} {queue : Nat → List Nat} {idx target : Nat} {bm : Bm}
    {items : List GcItem} (hds : cfg.dataSegregation = true) (z : s.Zoned cfg)
    (hp : Pooled cfg Live s.bm) (hl : s.Level cfg) (hq : Queued cfg s.bm s.ssd queue)
    (hquiet : Quiet cfg queue s idx target) (ht : getGcTarget cfg s.bm .data idx = some target)
    (hc : collectPages cfg s.bm (pagesContainingValidGrain cfg s.bm target) = some (bm, items))
    (hne : items ≠ []) :
    Appending cfg queue (victimStream bm target) target { s with bm := bm } ⟨0, none⟩ := by
  have hblocks := collectPages_blocks hc
  have hitems : s.gcItems cfg idx = items := by simp only [Store.gcItems, ht, hc]
  have hvs : victimStream bm target = victimStream s.bm target := victimStream_blocks hblocks target
  refine ⟨z.congr ⟨hblocks.cursors, rfl, rfl⟩, hp.blocks hblocks,
    (z.toZoned.victim hds ht).blocks hblocks, hl.sameMap (fun i _ => hblocks.wpOfft i) rfl, ?_,
    (fun p hp => by cases hp), fun a ha hlt => ?_, (fun _ _ he => by cases he)⟩
  · have hpages : GcCursor.pages ⟨0, none⟩ = [] := rfl
    rw [hpages, List.append_nil, Function.update_eq_self]
    exact hq.blocks hblocks
  · rw [hvs] at ha ⊢
    have hact : (s.bm.stream (victimStream s.bm target)).activeSblk = some a := by
      rw [← ha, ← hblocks.stream]
    have hwp : (bm.sblk a).wpOfft = (s.bm.sblk a).wpOfft := hblocks.wpOfft a
    exact (hquiet.room.resolve_left (hitems ▸ hne)) a hact (hwp.symm.trans_lt hlt)

/-- So does a collection up to its mapping update. -/
theorem Queued.gcWritten {s s₁ : Store} {queue : Nat → List Nat} {idx target : Nat}
    {nodes : List GcNode} (hds : cfg.dataSegregation = true) (z : s.Zoned cfg)
    (hp : Pooled cfg Live s.bm) (hl : s.Level cfg) (hq : Queued cfg s.bm s.ssd queue)
    (hquiet : Quiet cfg queue s idx target) (hw : GcWritten cfg s idx target s₁ nodes) :
    Queued cfg s₁.bm s₁.ssd queue ∧ s₁.Level cfg := by
  obtain ⟨ht, bm, items, hc, h₁⟩ := hw
  have hblocks := collectPages_blocks hc
  have hsame : Queued cfg bm s.ssd queue ∧ Store.Level cfg { s with bm := bm } :=
    ⟨hq.blocks hblocks, hl.sameMap (fun i _ => hblocks.wpOfft i) rfl⟩
  unfold writeItems at h₁
  split at h₁
  · cases h₁
    exact hsame
  -- The loop, and the program of the last segment.
  · obtain ⟨s₂, cur, hloop, hend⟩ := writeItemsStream_seg h₁
    by_cases hne : items = []
    · subst hne
      cases hloop
      rcases hend with ⟨-, rfl⟩ | ⟨_, _, hseg, -⟩
      · exact hsame
      · cases hseg
    · have hstart := Quiet.start hds z hp hl hq hquiet ht hc hne
      have h₂ := hstart.writeLoop hds (victimStream_lt bm target) hloop
      rcases hend with ⟨hseg, rfl⟩ | ⟨sppa, last, hseg, rfl⟩
      · refine ⟨h₂.program.2 s₁.ssd ?_, h₂.level⟩
        unfold GcCursor.pages
        rw [hseg]
        rfl
      · exact h₂.close hseg

/-- The victim is erased. No queue has a page of it. -/
theorem Queued.retireVictim {s : Store} {queue : Nat → List Nat} {t : Nat}
    (hds : cfg.dataSegregation = true) (h : Queued cfg s.bm s.ssd queue)
    (hclear : ∀ j, ∀ p ∈ queue j, p / cfg.pps ≠ t) :
    Queued cfg (HashKv.retireVictim cfg s t).bm (HashKv.retireVictim cfg s t).ssd queue := by
  have hssd : (HashKv.retireVictim cfg s t).ssd = ssdTrimBlock cfg s.ssd t := by
    unfold HashKv.retireVictim
    rw [if_pos hds]
    dsimp only
    split <;> rfl
  have hself : ((HashKv.retireVictim cfg s t).bm.sblk t).streamIdx = none ∧
      ((HashKv.retireVictim cfg s t).bm.sblk t).wpOfft = 0 := by
    unfold HashKv.retireVictim
    rw [if_pos hds]
    dsimp only
    split <;> simp [trimSegment, Bm.setSblk, Bm.setPart]
  have hother : ∀ i, i ≠ t → (HashKv.retireVictim cfg s t).bm.sblk i = s.bm.sblk i := fun i hi => by
    unfold HashKv.retireVictim
    rw [if_pos hds]
    dsimp only
    split <;> simp [trimSegment, Bm.setSblk, Bm.setPart, hi]
  -- The trim sets the line of the victim back to its start.
  have hline : ∀ i, (HashKv.retireVictim cfg s t).ssd.lineWp i =
      if i = t then 0 else s.ssd.lineWp i := fun i => by
    rw [hssd]
    show Function.update s.ssd.lineWp t 0 i = _
    rw [Function.update_apply]
  refine ⟨fun i hi j => ?_, fun i hi => ?_, fun i hi ho hlt => ?_, h.data, h.unused⟩
  · rw [hline]
    by_cases hit : i = t
    · subst hit
      rw [hself.1, if_neg (by simp)]
      exact onLine_eq_nil (hclear j)
    · rw [hother i hit, if_neg hit]
      exact h.pending i hi j
  · rw [hline]
    split
    · exact Nat.zero_le _
    · next hit =>
      rw [hother i hit]
      exact h.behind i hi
  · by_cases hit : i = t
    · rw [hit]
      exact hself.2
    · rw [hother i hit] at ho hlt ⊢
      exact h.idle i hi ho hlt

/-- Erasing a data superblock does not touch the map lines. -/
theorem Store.Level.retireVictim {s : Store} {t : Nat} (hds : cfg.dataSegregation = true)
    (h : s.Level cfg) (ht : cfg.IsData t) : (HashKv.retireVictim cfg s t).Level cfg := by
  have htrim : Store.Level cfg { s with ssd := ssdTrimBlock cfg s.ssd t } := by
    refine ⟨h.sound.trim t, fun i hi => ?_⟩
    have hne : i ≠ t := by
      have hlo := ht.1
      omega
    show Function.update s.ssd.lineWp t 0 i = _
    rw [Function.update_of_ne hne]
    exact h.lines i hi
  have hblk : ∀ i < cfg.dataSblk,
      ((HashKv.retireVictim cfg s t).bm.sblk i).wpOfft = (s.bm.sblk i).wpOfft := fun i hi => by
    have hne : i ≠ t := by
      have hlo := ht.1
      omega
    unfold HashKv.retireVictim
    rw [if_pos hds]
    dsimp only
    split <;> simp [trimSegment, Bm.setSblk, Bm.setPart, hne]
  refine htrim.sameMap hblk ?_
  unfold HashKv.retireVictim
  rw [if_pos hds]
  dsimp only
  split <;> rfl

/-- A quiet collection keeps the queues. -/
theorem Queued.dpageGc {s s' : Store} {queue : Nat → List Nat} {idx : Nat}
    (hds : cfg.dataSegregation = true) (t : s.Tidy cfg) (hfresh : s.gcFresh cfg idx = true)
    (hp : Pooled cfg Live s.bm) (hl : s.Level cfg) (hq : Queued cfg s.bm s.ssd queue)
    (hquiet : ∀ target, getGcTarget cfg s.bm .data idx = some target →
      Quiet cfg queue s idx target)
    (hg : HashKv.dpageGc cfg s idx = some s') :
    Queued cfg s'.bm s'.ssd queue ∧ s'.Level cfg := by
  obtain ⟨target, s₁, nodes, s₂, hw, h₂, rfl⟩ := dpageGc_eq_some hg
  have hquiet := hquiet target hw.1
  obtain ⟨hq₁, hl₁⟩ := Queued.gcWritten hds t.zoned hp hl hq hquiet hw
  obtain ⟨t₁, -, hnodes, -⟩ := t.gcWritten hfresh hw
  obtain ⟨-, hm⟩ := MapStep.bulkMappingUpdate t₁ hnodes h₂
  exact ⟨(hq₁.mapStep hm).retireVictim hds hquiet.victim,
    (hm.level hl₁).retireVictim hds (t.zoned.toZoned.target hw.1)⟩

/-! ## Section 4: Runs -/

/-- The queue of each stream: the pages of its flush list. -/
def flushQueue (fl : Nat → List FlushNode) (idx : Nat) : List Nat := listedPages (fl idx)

/-- Some stream lists a page of the superblock. -/
def listsSblk (cfg : Settings) (fl : Nat → List FlushNode) (i : Nat) : Bool :=
  (List.range 8).any fun idx => (flushQueue fl idx).any fun p => p / cfg.pps = i

/-- A collection for stream `idx` takes a victim without listed pages, and the open
    superblock its live items go to has none either. -/
def Store.gcQuiet (cfg : Settings) (s : Store) (fl : Nat → List FlushNode) (idx : Nat) : Bool :=
  (getGcTarget cfg s.bm .data idx).all fun target =>
    !listsSblk cfg fl target && ((s.gcItems cfg idx).isEmpty ||
      (s.bm.stream (victimStream s.bm target)).activeSblk.all fun a =>
        checkFull cfg s.bm a || !listsSblk cfg fl a)

def gcQuiet (cfg : Settings) (f : Ftl) : Label → Bool
  | .assign => (f.gcStream cfg).all (f.store.gcQuiet cfg f.flStream)
  | _ => true

/-- What the check of a run says of the queues. -/
theorem not_listsSblk {fl : Nat → List FlushNode} {i : Nat} (h : listsSblk cfg fl i = false)
    (hunused : ∀ idx, 8 ≤ idx → flushQueue fl idx = []) (idx : Nat) :
    ∀ p ∈ flushQueue fl idx, p / cfg.pps ≠ i := by
  intro p hp hi
  by_cases hidx : idx < 8
  · have hlist : listsSblk cfg fl i = true :=
      List.any_eq_true.mpr ⟨idx, List.mem_range.mpr hidx,
        List.any_eq_true.mpr ⟨p, hp, decide_eq_true hi⟩⟩
    rw [h] at hlist
    cases hlist
  · rw [hunused idx (Nat.le_of_not_lt hidx)] at hp
    cases hp

/-- A victim without queued pages, by that check. -/
theorem Quiet.of_check {s : Store} {fl : Nat → List FlushNode} {idx target : Nat}
    (h : s.gcQuiet cfg fl idx = true) (hunused : ∀ idx, 8 ≤ idx → flushQueue fl idx = [])
    (ht : getGcTarget cfg s.bm .data idx = some target) :
    Quiet cfg (flushQueue fl) s idx target := by
  simp only [Store.gcQuiet, ht, Option.all_some, Bool.and_eq_true, Bool.or_eq_true,
    Bool.not_eq_true', List.isEmpty_iff] at h
  refine ⟨not_listsSblk h.1 hunused, h.2.imp_right fun hroom a ha hlt => ?_⟩
  rw [ha, Option.all_some, Bool.or_eq_true, Bool.not_eq_true'] at hroom
  refine not_listsSblk (hroom.resolve_left ?_) hunused _
  simp only [checkFull, decide_eq_true_eq]
  omega

/-- The device and the flush lists of a state. -/
structure Sequential (cfg : Settings) (s : Store) (fl : Nat → List FlushNode) : Prop where
  level : s.Level cfg
  queued : Queued cfg s.bm s.ssd (flushQueue fl)
  nodes : ∀ idx, ∀ nd ∈ fl idx, nd.ppa ≠ 0 ∧ 0 < nd.length

/-- The map side keeps its own order. -/
theorem Sequential.mapStep {s s' : Store} {fl : Nat → List FlushNode} (h : Sequential cfg s fl)
    (hm : MapStep cfg s s') : Sequential cfg s' fl :=
  ⟨hm.level h.level, h.queued.mapStep hm, h.nodes⟩

/-- Grains do not count. -/
theorem Sequential.blocks {s s' : Store} {fl : Nat → List FlushNode} (h : Sequential cfg s fl)
    (hb : SameBlocks s.bm s'.bm) (hd : s'.ssd = s.ssd) : Sequential cfg s' fl :=
  ⟨h.level.sameMap (fun i _ => hb.wpOfft i) hd, hd ▸ h.queued.blocks hb, h.nodes⟩

/-- A new page of stream `idx` goes to its flush list. -/
theorem Sequential.openPage {s : Store} {fl : Nat → List FlushNode} {idx i : Nat} {bm : Bm}
    (hds : cfg.dataSegregation = true) (z : s.Zoned cfg) (hp : Pooled cfg Live s.bm)
    (hidx : idx < 8)
    (h : Sequential cfg s fl) (hg : getStreamSblk cfg s.bm idx = some (i, bm)) (st : Stream)
    (d : Option Nat) :
    Sequential cfg { s with bm := (getPageNum cfg bm i).2.setStream idx st, dActive := d }
      (Function.update fl idx (flushAppend (fl idx) (getPageNum cfg bm i).1
        fun nd => (getPageNum cfg bm i).1 = nd.ppa + nd.length)) := by
  have hopen := getStreamSblk_spec hds z.toZoned hg
  have hsw := hp.getStreamSblk hds z.toZoned hidx hg
  have hstream : (bm.sblk i).streamIdx = some idx := by
    obtain ⟨b, hb, -, -, hx⟩ := hsw.pooled.streams idx hidx
    cases hb.symm.trans hsw.active
    exact hx
  have hmap := hopen.map.trans (SameMap.getPageNum bm hopen.data)
  have halloc := ((h.queued.switched hopen.data hsw).1.allocate hopen.data hidx hsw.owned hstream
    hopen.hasPage).setStream idx st
  have hpos : (getPageNum cfg bm i).1 ≠ 0 :=
    Nat.pos_iff_ne_zero.mp
      (Nat.lt_of_lt_of_le (dataPage_pos cfg) (dataPage_le_getPageNum bm hopen.data))
  refine ⟨h.level.sameMap (fun j hj => congrArg Superblock.wpOfft (hmap.sblk j hj)) rfl, ?_,
    fun j nd hnd => ?_⟩
  -- The page is the last of its stream now.
  · have hqueue : flushQueue (Function.update fl idx (flushAppend (fl idx) (getPageNum cfg bm i).1
        fun nd => (getPageNum cfg bm i).1 = nd.ppa + nd.length)) =
        Function.update (flushQueue fl) idx (flushQueue fl idx ++ [(getPageNum cfg bm i).1]) := by
      funext j
      unfold flushQueue
      by_cases hj : j = idx
      · rw [hj, Function.update_self, Function.update_self, listedPages_flushAppend]
      · rw [Function.update_of_ne hj, Function.update_of_ne hj]
    rw [hqueue]
    exact halloc
  · by_cases hj : j = idx
    · rw [hj, Function.update_self] at hnd
      exact flushAppend_nodes hpos (h.nodes idx) nd hnd
    · rw [Function.update_of_ne hj] at hnd
      exact h.nodes j nd hnd

/-- An entry is placed in the open page of its stream, or in a new one. -/
theorem Sequential.assignEntry {s s' : Store} {fl fl' : Nat → List FlushNode} {e : WbEntry}
    {pga : Nat} (hds : cfg.dataSegregation = true) (t : s.Tidy cfg) (hp : Pooled cfg Live s.bm)
    (h : Sequential cfg s fl)
    (hgc : (s.bm.stream (dIdx (getLpa cfg e.hParams) % 8)).grainRemain = 0 →
      s.gcDue cfg (dIdx (getLpa cfg e.hParams) % 8) = true →
      s.gcFresh cfg (dIdx (getLpa cfg e.hParams) % 8) = true ∧
        s.gcQuiet cfg fl (dIdx (getLpa cfg e.hParams) % 8) = true)
    (ha : HashKv.assignEntry cfg s fl e = some (s', fl', pga)) : Sequential cfg s' fl' := by
  unfold HashKv.assignEntry at ha
  simp only [Option.bind_eq_bind, Option.bind_eq_some_iff] at ha
  obtain ⟨⟨s₁, fl₁, ppa⟩, h₁, bm, hb, he⟩ := ha
  cases he
  have hidx : dIdx (getLpa cfg e.hParams) % 8 < 8 := Nat.mod_lt _ (by decide)
  generalize dIdx (getLpa cfg e.hParams) % 8 = idx at *
  have hseq : Sequential cfg s₁ fl₁ := by
    unfold assignPage at h₁
    split at h₁
    · next hrem =>
      simp only [Option.bind_eq_bind, Option.bind_eq_some_iff] at h₁
      obtain ⟨⟨p, s₂⟩, h₂, a, hact, he⟩ := h₁
      cases he
      obtain ⟨s₃, i, bm₃, h₃, hg, rfl, rfl⟩ := dpAlloc_eq hds h₂
      have hs₃ : s₃.Tidy cfg ∧ Pooled cfg Live s₃.bm ∧ Sequential cfg s₃ fl := by
        rcases h₃ with ⟨-, rfl⟩ | ⟨hdue, h₃⟩
        · exact ⟨t, hp, h⟩
        -- A collection comes before the page.
        · obtain ⟨hf, hquiet⟩ := hgc hrem hdue
          obtain ⟨hq, hl⟩ := h.queued.dpageGc hds t hf hp h.level
            (fun target ht => .of_check hquiet h.queued.unused ht) h₃
          exact ⟨(t.dpageGc hf h₃).1, hp.dpageGc hds t hf h₃, hl, hq, h.nodes⟩
      exact Sequential.openPage hds hs₃.1.zoned hs₃.2.1 hidx hs₃.2.2 hg _ _
    · cases h₁
      exact ⟨h.level.sameMap (fun _ _ => rfl) rfl, h.queued.setStream idx _, h.nodes⟩
  have hroom : Sequential cfg { s₁ with bm := s₁.bm.setStream idx { s₁.bm.stream idx with
      grainRemain := sub32 (s₁.bm.stream idx).grainRemain e.valLen } } fl₁ :=
    ⟨hseq.level.sameMap (fun _ _ => rfl) rfl, hseq.queued.setStream idx _, hseq.nodes⟩
  have hblocks := placeItem_blocks hb
  exact ⟨hroom.level.sameMap (fun i _ => hblocks.wpOfft i) rfl, hroom.queued.blocks hblocks,
    hroom.nodes⟩

/-- The whole flush is accepted, and nothing is queued after it. -/
theorem Sequential.flush {s : Store} {fl : Nat → List FlushNode} {ssd : Ssd}
    (h : Sequential cfg s fl)
    (hf : flushSegs cfg s.ssd ((List.range 8).flatMap fl) = some ssd) :
    Sequential cfg { s with ssd := ssd } fun _ => [] := by
  obtain ⟨hcons, hflush⟩ := h.queued.flush
  have hpages : (List.range 8).flatMap (flushQueue fl) = listedPages ((List.range 8).flatMap fl) :=
    List.flatMap_assoc.symm
  rw [hpages] at hcons hflush
  have hne : ∀ nd ∈ (List.range 8).flatMap fl, nd.ppa ≠ 0 := fun nd hnd => by
    obtain ⟨j, -, hj⟩ := List.mem_flatMap.mp hnd
    exact (h.nodes j nd hj).1
  obtain ⟨ssd', hf', hs, hl⟩ := flushSegs_consecutive h.level.sound hne hcons
  cases hf.symm.trans hf'
  refine ⟨⟨hs, fun i hi => ?_⟩, hflush ssd hl, (fun _ _ hnd => by cases hnd)⟩
  show ssd.lineWp i = _
  rw [hl, advance_map (fun p hp => ?_) hi]
  · exact h.level.lines i hi
  · rw [← hpages] at hp
    obtain ⟨j, -, hj⟩ := List.mem_flatMap.mp hp
    exact h.queued.data j p hj

/-- Every step keeps the order. -/
theorem Sequential.step {f f' : Ftl} {a : Label} (hds : cfg.dataSegregation = true)
    (t : f.Tidy cfg) (hp : Pooled cfg Live f.store.bm) (h : Sequential cfg f.store f.flStream)
    (hfresh : gcFresh cfg f a = true) (hquiet : gcQuiet cfg f a = true)
    (hstep : Step cfg hs f a f') : Sequential cfg f'.store f'.flStream := by
  have hpass : ∀ {e : WbEntry} {choice : Rebalance} {s : Store} {ex : WbExit},
      wbPass cfg f.realKeys f.hashTable f.store e choice = some (s, ex) →
        s.Tidy cfg ∧ Sequential cfg s f.flStream := fun hw => by
    have hr := MapStep.wbPath t.store (WbPath.of_pass hw).2
    exact ⟨hr.tidy, h.mapStep hr.step⟩
  -- Installing an address programs nothing.
  have hinstall : ∀ {s : Store} {lpa ppa : Nat} {fp : UInt32}, s.Tidy cfg →
      Sequential cfg s f.flStream → Sequential cfg (wbInstall cfg s lpa ppa fp) f.flStream :=
    fun ts hs => (hs.mapStep (.update ts _ _)).blocks (.setOob _ _ _) rfl
  cases hstep with
  | getPass choice r s ex hp' hget =>
    have hr := MapStep.getPath t.store (GetPath.of_pass hget)
    have hs := h.mapStep hr.step
    cases ex <;> exact hs
  | assignEntry m e s fl pga hp' hdone hds' he ha =>
    refine h.assignEntry hds t.store hp (fun hrem hgc => ?_) ha
    have hstream : f.gcStream cfg = some (dIdx (getLpa cfg e.hParams) % 8) := by
      simp [Ftl.gcStream, hp', hdone, hds, he, hrem, hgc]
    exact ⟨by simpa [HashKv.gcFresh, hstream] using hfresh,
      by simpa [HashKv.gcQuiet, hstream] using hquiet⟩
  | assignPage m ppa s bm wb hp' hdone hds' => simp [hds] at hds'
  | wbAgain choice m e s e' hp' hc hw | wbParked choice m e s e' hp' hc hw => exact (hpass hw).2
  | wbUpdate choice m e s e' ppa hp' hc hw hppa =>
    obtain ⟨ts, hs⟩ := hpass hw
    refine hinstall (ts.wbInvalidateOld _) (hs.blocks (wbInvalidateOld_blocks s _) ?_)
    unfold wbInvalidateOld
    split <;> rfl
  | wbDirectUpdate choice m e s e' ppa hp' hc hw hppa =>
    obtain ⟨ts, hs⟩ := hpass hw
    exact hinstall ts hs
  | flush m ssd hp' hc hu hm hr hf =>
    have hsegs : f.flushSegments cfg = (List.range 8).flatMap f.flStream := by
      simp [Ftl.flushSegments, hds]
    rw [hsegs] at hf
    exact h.flush hf
  | promote page hp' => exact h.mapStep (.of_tables (.promoteHot _ page))
  | rehashBegin hp' | rehashTick hp' => exact h.mapStep (.of_tables ⟨_, _, rfl⟩)
  | get | resume | setFull | setInsert | endAssign | pickRetry | pickMaster => exact h

theorem create_sequential {garbage : Nat → Key} {f : Ftl} (h : Ftl.create cfg garbage = some f) :
    Sequential cfg f.store f.flStream := by
  obtain ⟨s, hs, rfl⟩ := Option.map_eq_some_iff.mp h
  obtain ⟨bm, hb, rfl⟩ := Option.map_eq_some_iff.mp hs
  have hwp : ∀ i, (bm.sblk i).wpOfft = 0 := fun i => (bmInit_pages hb).wpOfft i
  refine ⟨⟨.blank cfg, fun i _ => (hwp i).symm⟩,
    ⟨fun i _ idx => ?_, fun i _ => Nat.zero_le _, fun i _ _ _ => hwp i,
      (fun _ _ hp => by cases hp), fun _ _ => rfl⟩,
    (fun _ _ hnd => by cases hnd)⟩
  show [] = if _ then List.range' _ ((bm.sblk i).wpOfft - _) else []
  rw [hwp, Nat.zero_sub]
  exact (ite_self _).symm

theorem reach_sequential {ok : Ftl → Label → Prop}
    (hle : ∀ f a, ok f a → gcFresh cfg f a = true ∧ gcQuiet cfg f a = true)
    (hds : cfg.dataSegregation = true) {f : Ftl} (h : (machine cfg hs).Reach ok f) :
    Sequential cfg f.store f.flStream := by
  have hfresh : ∀ f a, ok f a → gcFresh cfg f a = true := fun f a hok => (hle f a hok).1
  exact h.invariant (fun _ ⟨_, hi⟩ => create_sequential hi) fun _ _ _ hr ih hok hn =>
    ih.step hds (reach_tidy hfresh hr) (reach_pooled hfresh hds hr) (hle _ _ hok).1 (hle _ _ hok).2
      (.of_next hn)

/-! ## Section 5: The calls of a step -/

/-- While the step runs, `ssd_write_ppa` is called on device `ssd` for `n` pages from `ppa`:
    for a segment of the flush, for a segment of a collection when the next page does not
    join it or no item is left, and for the translation pages that move or are written back. -/
inductive Programs (cfg : Settings) (f : Ftl) : Label → Ssd → Nat → Nat → Prop where
  | flush (m nd before rest ssd) (hp : f.phase = .mapping m) (hc : m.cur = none)
      (hm : m.master = []) (hr : m.retry = [])
      (hsegs : f.flushSegments cfg = before ++ nd :: rest) (hne : nd.ppa ≠ 0)
      (hf : flushSegs cfg f.store.ssd before = some ssd) :
      Programs cfg f .flush ssd nd.ppa nd.length
  | segment (idx target bm it before rest s cur nodes a bm' sppa last)
      (hg : f.gcStream cfg = some idx) (ht : getGcTarget cfg f.store.bm .data idx = some target)
      (hc : collectPages cfg f.store.bm (pagesContainingValidGrain cfg f.store.bm target) =
        some (bm, before ++ it :: rest))
      (hl : gcWriteLoop cfg (victimStream bm target) { f.store with bm := bm } ⟨0, none⟩ before =
        some (s, cur, nodes))
      (hrem : (s.bm.stream (victimStream bm target)).grainRemain = 0)
      (ho : getStreamSblk cfg s.bm (victimStream bm target) = some (a, bm'))
      (hseg : cur.seg = some (sppa, last)) (hne : (getPageNum cfg bm' a).1 ≠ last + 1) :
      Programs cfg f .assign s.ssd sppa (last - sppa + 1)
  | lastSegment (idx target bm items s cur nodes sppa last)
      (hg : f.gcStream cfg = some idx) (ht : getGcTarget cfg f.store.bm .data idx = some target)
      (hc : collectPages cfg f.store.bm (pagesContainingValidGrain cfg f.store.bm target) =
        some (bm, items))
      (hl : gcWriteLoop cfg (victimStream bm target) { f.store with bm := bm } ⟨0, none⟩ items =
        some (s, cur, nodes)) (hseg : cur.seg = some (sppa, last)) :
      Programs cfg f .assign s.ssd sppa (last - sppa + 1)
  | movedTpages (a s page target rsv bm pages) (hw : WritesBack cfg f a s page)
      (hfull : s.tActive.all (checkFull cfg s.bm) = true) (hneed : isGcNeeded cfg s.bm .map = true)
      (ht : getGcTarget cfg s.bm .map 0 = some target) (hr : s.tReserve = some rsv)
      (hc : collectTpages cfg s.ssd s.bm (sblkOfft2Ppa cfg target 0) cfg.pps = some (bm, pages)) :
      Programs cfg f a s.ssd (sblkOfft2Ppa cfg rsv (bm.sblk rsv).wpOfft) pages.length
  | tpage (a s page s₁ i) (hw : WritesBack cfg f a s page) (hs : tSwitch cfg s = some s₁)
      (hact : s₁.tActive = some i) : Programs cfg f a s₁.ssd (getPageNum cfg s₁.bm i).1 1

/-- A page is written back from a tidy store whose lines are level. -/
theorem WritesBack.level {f : Ftl} {a : Label} {s : Store} {page : Nat}
    (hds : cfg.dataSegregation = true) (t : f.Tidy cfg) (hp : Pooled cfg Live f.store.bm)
    (h : Sequential cfg f.store f.flStream) (hfresh : gcFresh cfg f a = true)
    (hquiet : gcQuiet cfg f a = true) (hw : WritesBack cfg f a s page) :
    s.Tidy cfg ∧ s.Level cfg := by
  rcases (hw.reached t hfresh).2 with hr | ⟨idx, target, s₁, nodes, rfl, hg, hwrite, hr⟩
  · exact ⟨hr.tidy, hr.step.level h.level⟩
  · have hq : f.store.gcQuiet cfg f.flStream idx = true := by simpa [gcQuiet, hg] using hquiet
    have hl := (Queued.gcWritten hds t.store.zoned hp h.level h.queued
      (.of_check hq h.queued.unused hwrite.1) hwrite).2
    exact ⟨hr.tidy, hr.step.level hl⟩

/-- While no collection continues an open page or meets a queued page, every program of
    every step starts at the write pointer of its line, covers unwritten pages only, and is
    accepted. -/
theorem sequential_programs (hds : cfg.dataSegregation = true) {f : Ftl}
    (h : (machine cfg hs).Reach
      (fun f a => gcFresh cfg f a = true ∧ gcQuiet cfg f a = true) f) :
    ∀ a ssd ppa n, gcFresh cfg f a = true → gcQuiet cfg f a = true →
      Programs cfg f a ssd ppa n → Accepted cfg ssd ppa n := by
  have t := reach_tidy (fun _ _ hok => hok.1) h
  have hp := reach_pooled (fun _ _ hok => hok.1) hds h
  have hseq := reach_sequential (fun _ _ hok => hok) hds h
  have happend : ∀ {idx target bm items it}, f.gcStream cfg = some idx →
      gcQuiet cfg f .assign = true → getGcTarget cfg f.store.bm .data idx = some target →
      collectPages cfg f.store.bm (pagesContainingValidGrain cfg f.store.bm target) =
        some (bm, items) → it ∈ items → Appending cfg (flushQueue f.flStream)
          (victimStream bm target) target { f.store with bm := bm } ⟨0, none⟩ := by
    intro idx target bm items it hg hquiet ht hc hit
    have hq : f.store.gcQuiet cfg f.flStream idx = true := by simpa [gcQuiet, hg] using hquiet
    exact Quiet.start hds t.store.zoned hp hseq.level hseq.queued
      (.of_check hq hseq.queued.unused ht) ht hc (List.ne_nil_of_mem hit)
  intro a ssd ppa n hfresh hquiet hprog
  -- A program comes from a flush or from a collection.
  cases hprog with
  | flush m nd before rest ssd hphase hc hm hr hsegs hne hf =>
    have hsplit : (List.range 8).flatMap f.flStream = before ++ nd :: rest := by
      rw [← hsegs]
      simp [Ftl.flushSegments, hds]
    have hnode : ∀ x ∈ before ++ nd :: rest, x.ppa ≠ 0 ∧ 0 < x.length := fun x hx => by
      rw [← hsplit] at hx
      obtain ⟨j, -, hj⟩ := List.mem_flatMap.mp hx
      exact hseq.nodes j x hj
    have hcons := hseq.queued.flush.1
    have hpages : (List.range 8).flatMap (flushQueue f.flStream) =
        listedPages (before ++ nd :: rest) := hsplit ▸ List.flatMap_assoc.symm
    rw [hpages, listedPages_append] at hcons
    obtain ⟨hbefore, hrest⟩ := hcons.append
    obtain ⟨ssd', hf', hs, hl⟩ := flushSegs_consecutive hseq.level.sound
      (fun x hx => (hnode x (List.mem_append_left _ hx)).1) hbefore
    cases hf.symm.trans hf'
    rw [← hl, listedPages_cons] at hrest
    exact .of_consecutive hs (hnode nd (List.mem_append_right _ (List.mem_cons_self ..))).2
      hrest.append.1
  | segment idx target bm it before rest s cur nodes b bm' sppa last hg ht hc hl hrem ho hseg hne =>
    have hit : it ∈ before ++ it :: rest := List.mem_append_right _ (List.mem_cons_self ..)
    exact ((happend hg hquiet ht hc hit).writeLoop hds (victimStream_lt bm target) hl).accepted hseg
  | lastSegment idx target bm items s cur nodes sppa last hg ht hc hl hseg =>
    cases items with
    | nil =>
      cases hl
      cases hseg
    | cons it items =>
      have hit : it ∈ it :: items := List.mem_cons_self ..
      exact ((happend hg hquiet ht hc hit).writeLoop hds (victimStream_lt bm target)
        hl).accepted hseg
  | movedTpages _ s page target rsv bm pages hw hfull hneed ht hr hc =>
    obtain ⟨ts, hl⟩ := hw.level hds t hp hseq hfresh hquiet
    have hgc : ∃ s', tpageGc cfg s = some s' := by simp [tpageGc, ht, hr, hc]
    obtain ⟨s', hgc⟩ := hgc
    obtain ⟨target', bm', pages', s₁, ht', -, -, hlen, hc', -, hwp, -⟩ :=
      ts.copied.tpageGc_split hgc
    cases ht.symm.trans ht'
    cases hc.symm.trans hc'
    cases hr.symm.trans ts.copied.reserve
    rw [hwp]
    have hzero : s.ssd.lineWp s.bm.mapPart.sblkRsv = 0 :=
      (hl.lines _ ts.copied.rsvBlock).trans ts.copied.rsvEmpty
    exact .of_line hl.sound hzero cfg.pps_pos (by omega)
  | tpage _ s page s₁ i hw hs₁ hact =>
    obtain ⟨ts, hl⟩ := hw.level hds t hp hseq hfresh hquiet
    obtain ⟨hc, -, hopen⟩ := ts.copied.tSwitch hs₁
    have hl₁ := (MapStep.tSwitch ts.copied hs₁).level hl
    have hroom := hopen i hact
    exact .of_line hl₁.sound (hl₁.lines i (hc.active i hact).1) hroom hroom

/-! ## Section 6: Concrete runs -/

/-- The last segment of the collection that the next assignment step starts. -/
def Ftl.lastSegment (cfg : Settings) (f : Ftl) : Option (Ssd × Nat × Nat) := do
  let idx ← f.gcStream cfg
  let target ← getGcTarget cfg f.store.bm .data idx
  let (bm, items) ← collectPages cfg f.store.bm (pagesContainingValidGrain cfg f.store.bm target)
  let (s, cur, _) ← gcWriteLoop cfg (victimStream bm target) { f.store with bm := bm }
    ⟨0, none⟩ items
  let (sppa, last) ← cur.seg
  return (s.ssd, sppa, last - sppa + 1)

theorem Programs.of_lastSegment {f : Ftl} {ssd : Ssd} {ppa n : Nat}
    (h : f.lastSegment cfg = some (ssd, ppa, n)) : Programs cfg f .assign ssd ppa n := by
  unfold Ftl.lastSegment at h
  simp only [Option.bind_eq_bind, Option.bind_eq_some_iff] at h
  obtain ⟨idx, hg, target, ht, ⟨bm, items⟩, hc, ⟨s, cur, nodes⟩, hl, ⟨sppa, last⟩, hseg, he⟩ := h
  cases he
  exact .lastSegment idx target bm items s cur nodes sppa last hg ht hc hl hseg

/-- Superblocks of four pages, a write buffer of two entries. -/
def pairStreams : Settings :=
  .scaled true false 4 29 8 2 4 four_pos (by decide) eight_pos Nat.two_pos four_pos (by decide)

/-- A set that flushes a write buffer of two entries, one of which is parked `retries` times. -/
def flushPair (b : UInt8) (retries : Nat) : List Label :=
  [.set (byteKey b) 4000, .assign, .assign, .assign, .pickMaster, .wbPass .keep, .pickMaster,
    .wbPass .keep] ++ (List.replicate retries [.pickRetry 0, .wbPass .keep]).flatten ++ [.flush]

/-- Stream 1 has filled superblocks 13 and 20 and stream 2 superblock 14 but for one page,
    so the next switch of stream 2 collects superblock 13. -/
def fillPairs : List Label :=
  [.set (byteKey 1) 4000, .set (byteKey 9) 4000] ++ flushPair 17 0 ++ [.set (byteKey 25) 4000] ++
    flushPair 33 0 ++ [.set (byteKey 41) 4000] ++ flushPair 49 0 ++ [.set (byteKey 57) 4000] ++
    flushPair 1 0 ++ [.set (byteKey 2) 4000] ++ flushPair 10 1 ++ [.set (byteKey 18) 4000] ++
    flushPair 1 0 ++ [.set (byteKey 26) 4000]

/-- The live items of superblock 13 go to the next page of stream 1, which has no page
    queued. -/
theorem sequential_programs_collected : ∃ f ssd ppa,
    Programs pairStreams f .assign ssd ppa 1 ∧ Accepted pairStreams ssd ppa 1 := by
  obtain ⟨f, hf, hp⟩ := exists_reach_of_run pairStreams spreadHash
    (fun f a => gcFresh pairStreams f a && gcQuiet pairStreams f a)
    (fillPairs ++ flushPair 34 1 ++ [.set (byteKey 35) 4000, .set (byteKey 1) 4000])
    (fun f => gcFresh pairStreams f .assign && gcQuiet pairStreams f .assign &&
      (f.lastSegment pairStreams).any fun p => p.2.2 = 1) (by decide +kernel) (by decide +kernel)
  simp only [Bool.and_eq_true] at hf hp
  obtain ⟨⟨hfresh, hquiet⟩, hseg⟩ := hp
  obtain ⟨⟨ssd, ppa, n⟩, hlast, hn⟩ := (Option.any_eq_true ..).mp hseg
  obtain rfl : n = 1 := of_decide_eq_true hn
  have hprog := Programs.of_lastSegment hlast
  exact ⟨f, ssd, ppa, hprog, sequential_programs rfl hf .assign ssd ppa 1 hfresh hquiet hprog⟩

/-- Key 33 has a page of stream 1 that is not flushed yet when key 34 makes stream 2 collect
    superblock 13: the next page of stream 1 is programmed too early, and the step aborts. -/
theorem earlyProgram_counterexample : ∃ f ssd ppa,
    (machine pairStreams spreadHash).Reach (fun f a => gcFresh pairStreams f a = true) f ∧
      gcFresh pairStreams f .assign = true ∧ Programs pairStreams f .assign ssd ppa 1 ∧
      ssd.ppaState ppa = false ∧ (ssdWrite pairStreams ssd ppa 1).2 = false ∧
      Ftl.next pairStreams spreadHash f .assign = none := by
  obtain ⟨f, hf, hp⟩ := exists_reach_of_run pairStreams spreadHash (gcFresh pairStreams)
    (fillPairs ++ flushPair 33 1 ++ [.set (byteKey 34) 4000, .set (byteKey 1) 4000, .assign])
    (fun f => gcFresh pairStreams f .assign && ((f.lastSegment pairStreams).any fun p =>
      p.2.2 = 1 && !p.1.ppaState p.2.1 && !(ssdWrite pairStreams p.1 p.2.1 1).2) &&
      (Ftl.next pairStreams spreadHash f .assign).isNone) (by decide +kernel) (by decide +kernel)
  simp only [Bool.and_eq_true, Option.isNone_iff_eq_none] at hp
  obtain ⟨⟨hfresh, hseg⟩, hnext⟩ := hp
  obtain ⟨⟨ssd, ppa, n⟩, hlast, hn⟩ := (Option.any_eq_true ..).mp hseg
  simp only [Bool.and_eq_true, decide_eq_true_eq, Bool.not_eq_true'] at hn
  obtain ⟨⟨rfl, hfree⟩, hrefused⟩ := hn
  exact ⟨f, ssd, ppa, hf, hfresh, .of_lastSegment hlast, hfree, hrefused, hnext⟩

end AggreKV.HashKv
