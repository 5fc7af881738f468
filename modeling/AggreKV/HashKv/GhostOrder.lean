import AggreKV.Lib.RingBuffer
import AggreKV.HashKv.Promotion

/-! # The order of ghost pages

    `adaptive_mem.c` records every mark of a cold page in a ring and takes
    the mark of the oldest record when it has to make room. A record does
    not leave the ring when its page is loaded again, a capacity update
    empties the ring, and a full ring overwrites its oldest record.

    * `GhostFifo.records`: the ring as a list.
    * `Mem.Room`: what making room does to marks and records.
    * `GhostTrace`: the memory with the marked pages in the order of their
      marks.
    * `ghost_fifo_order`: which ghosts lose their marks in all runs. -/

namespace AggreKV.HashKv

/-! ## Section 1: The ring -/

/-- The recorded pages, oldest first. -/
def GhostFifo.records (f : GhostFifo) : List Nat :=
  RingBuffer.contents f.ring f.cap f.head f.count

structure GhostFifo.Wf (f : GhostFifo) : Prop where
  count_le : f.count ≤ f.cap
  head_lt : 0 < f.cap → f.head < f.cap

namespace GhostFifo

variable {f : GhostFifo}

theorem records_of_count_eq_zero (h : f.count = 0) : f.records = [] := by
  rw [records, h]
  rfl

theorem length_records (f : GhostFifo) : f.records.length = f.count :=
  RingBuffer.length_contents ..

/-- A new ring is empty. -/
theorem wf_alloc (cap : Nat) : (alloc cap).Wf := ⟨Nat.zero_le _, id⟩

theorem records_alloc (cap : Nat) : (alloc cap).records = [] := records_of_count_eq_zero rfl

theorem wf_reset (f : GhostFifo) : Wf { f with head := 0, count := 0 } :=
  ⟨Nat.zero_le _, fun hcap => hcap⟩

/-- A push does not resize the ring. -/
theorem push_cap (f : GhostFifo) (v : Nat) : (f.push v).cap = f.cap := by
  unfold push
  split <;> rfl

theorem Wf.push (h : f.Wf) (v : Nat) : (f.push v).Wf := by
  unfold GhostFifo.push
  split
  · exact h
  · next hcap =>
    refine ⟨?_, fun hpos => Nat.mod_lt _ hpos⟩
    have hcount := h.count_le
    show (if f.count < f.cap then f.count + 1 else f.count) ≤ f.cap
    split <;> omega

/-- A push appends a record while there is room. -/
theorem Wf.records_push (h : f.Wf) (hroom : f.count < f.cap) (v : Nat) :
    (f.push v).records = f.records ++ [v] := by
  have hhead := h.head_lt (by omega)
  unfold GhostFifo.push
  rw [if_neg (by omega)]
  unfold records
  simp only [if_pos hroom]
  exact RingBuffer.contents_push hhead hroom v

/-- In a full ring it overwrites the oldest record. -/
theorem Wf.records_push_full (h : f.Wf) (hcap : 0 < f.cap) (hfull : f.count = f.cap) (v : Nat) :
    (f.push v).records = f.records.tail ++ [v] := by
  unfold GhostFifo.push
  rw [if_neg (by omega)]
  unfold records
  simp only [hfull, if_neg (Nat.lt_irrefl _)]
  exact RingBuffer.contents_push_full (h.head_lt hcap) v

/-- Whatever the ring holds, a push adds at most the new record. -/
theorem Wf.records_push_sublist (h : f.Wf) (v : Nat) :
    (f.push v).records.Sublist (f.records ++ [v]) := by
  by_cases hcap : f.cap = 0
  · unfold GhostFifo.push
    rw [if_pos hcap]
    exact List.sublist_append_left ..
  · by_cases hroom : f.count < f.cap
    · rw [h.records_push hroom]
    · have hcount := h.count_le
      rw [h.records_push_full (by omega) (by omega)]
      exact (List.tail_sublist _).append (List.Sublist.refl _)

/-- A pop takes the oldest record off. -/
theorem Wf.popOldest (h : f.Wf) (hcount : f.count ≠ 0) :
    f.records = f.popOldest.1 :: f.popOldest.2.records ∧ f.popOldest.2.Wf ∧
      f.popOldest.2.cap = f.cap ∧ f.popOldest.2.count + 1 = f.count := by
  obtain ⟨n, hn⟩ := Nat.exists_eq_succ_of_ne_zero hcount
  have hle := h.count_le
  unfold GhostFifo.popOldest
  rw [if_neg hcount]
  refine ⟨?_, ⟨(Nat.sub_le ..).trans hle, h.head_lt⟩, rfl, by show f.count - 1 + 1 = _; omega⟩
  show RingBuffer.contents f.ring f.cap f.head f.count =
    f.ring ((f.head + f.cap - f.count) % f.cap) ::
      RingBuffer.contents f.ring f.cap f.head (f.count - 1)
  rw [hn] at hle ⊢
  exact RingBuffer.contents_pop hle

end GhostFifo

/-! ## Section 2: Making room -/

namespace Mem

/-- `ghost_mark` of a page. -/
def ghost (m : Mem) (page : Nat) : Bool := (m.cmt page).ghostMark

theorem ghost_setPage (m : Mem) (page : Nat) (c : ColdPage) (q : Nat) :
    (m.setPage page c).ghost q = if q = page then c.ghostMark else m.ghost q := by
  show (Function.update m.cmt page c q).ghostMark = _
  by_cases hq : q = page
  · rw [hq, Function.update_self, if_pos rfl]
  · rw [Function.update_of_ne hq, if_neg hq]
    rfl

/-- `v` loses its mark. -/
structure Unmarked (m m' : Mem) (v : Nat) : Prop where
  ghost : m.ghost v = true
  cmt : m'.cmt = Function.update m.cmt v { m.cmt v with ghostMark := false, cntMap := false }
  nrGhostCold : m'.nrGhostCold = m.nrGhostCold - 1
  nrValidTpages : m'.nrValidTpages = m.nrValidTpages

theorem Unmarked.ghost_self {m m' : Mem} {v : Nat} (h : Unmarked m m' v) : m'.ghost v = false := by
  show (m'.cmt v).ghostMark = false
  rw [h.cmt, Function.update_self]

theorem Unmarked.ghost_of_ne {m m' : Mem} {v q : Nat} (h : Unmarked m m' v) (hq : q ≠ v) :
    m'.ghost q = m.ghost q := by
  show (m'.cmt q).ghostMark = _
  rw [h.cmt, Function.update_of_ne hq]
  rfl

/-- What the round robin scan does: at most one ghost loses its mark. -/
theorem ghostColdScan_cases (steps : Nat) (m : Mem) :
    (m.ghostColdScan steps).2.coldFifo = m.coldFifo ∧
      (((m.ghostColdScan steps).1 = false ∧ (m.ghostColdScan steps).2.cmt = m.cmt ∧
        (m.ghostColdScan steps).2.nrValidTpages = m.nrValidTpages) ∨
      ((m.ghostColdScan steps).1 = true ∧ ∃ v, Unmarked m (m.ghostColdScan steps).2 v)) := by
  induction steps generalizing m with
  | zero => exact ⟨rfl, Or.inl ⟨rfl, rfl, rfl⟩⟩
  | succ steps ih =>
    unfold ghostColdScan
    dsimp only
    split
    · next hghost => exact ⟨rfl, Or.inr ⟨rfl, _, ⟨hghost, rfl, rfl, rfl⟩⟩⟩
    · obtain ⟨hfifo, hcases⟩ := ih { m with
        coldScanRr := (m.coldScanRr + 1) % 18446744073709551616 }
      rcases hcases with hnone | ⟨hdone, v, hv⟩
      · exact ⟨hfifo, Or.inl hnone⟩
      · refine ⟨hfifo, Or.inr ⟨hdone, v, ?_⟩⟩
        exact ⟨hv.ghost, hv.cmt, hv.nrGhostCold, hv.nrValidTpages⟩

/-- The round robin scan takes one mark, or finds none. -/
theorem ghostColdEvictRr_cases (m : Mem) :
    m.ghostColdEvictRr.2.coldFifo = m.coldFifo ∧
      ((m.ghostColdEvictRr.1 = false ∧ m.ghostColdEvictRr.2.cmt = m.cmt ∧
        m.ghostColdEvictRr.2.nrValidTpages = m.nrValidTpages) ∨
      (m.ghostColdEvictRr.1 = true ∧ ∃ v, Unmarked m m.ghostColdEvictRr.2 v)) := by
  unfold ghostColdEvictRr
  split
  · exact ⟨rfl, Or.inl ⟨rfl, rfl, rfl⟩⟩
  · exact ghostColdScan_cases 512 m

/-- Every marked page exists. -/
def GhostsValid (m : Mem) : Prop := ∀ q, m.ghost q = true → q < m.nrValidTpages

/-- Taking the mark of the oldest record: the records in front of it belong to pages without
    a mark. Without such a record the round robin scan goes on. -/
theorem ghostColdFifoEvict_cases {tries : Nat} {m : Mem} (hwf : m.coldFifo.Wf)
    (hvalid : m.GhostsValid) (htries : m.coldFifo.count ≤ tries) :
    (m.ghostColdFifoEvict tries).2.coldFifo.Wf ∧
    (m.ghostColdFifoEvict tries).2.coldFifo.cap = m.coldFifo.cap ∧
    ((∃ pre v, m.coldFifo.records = pre ++ v :: (m.ghostColdFifoEvict tries).2.coldFifo.records ∧
        (∀ q ∈ pre, m.ghost q = false) ∧ (m.ghostColdFifoEvict tries).1 = true ∧
        Unmarked m (m.ghostColdFifoEvict tries).2 v) ∨
      ((∀ q ∈ m.coldFifo.records, m.ghost q = false) ∧
        (m.ghostColdFifoEvict tries).2.coldFifo.records = [] ∧
        (((m.ghostColdFifoEvict tries).1 = false ∧ (m.ghostColdFifoEvict tries).2.cmt = m.cmt ∧
          (m.ghostColdFifoEvict tries).2.nrValidTpages = m.nrValidTpages) ∨
        ((m.ghostColdFifoEvict tries).1 = true ∧
          ∃ v, Unmarked m (m.ghostColdFifoEvict tries).2 v)))) := by
  -- An empty ring.
  have hempty : ∀ m : Mem, m.coldFifo.Wf → m.coldFifo.count = 0 →
      m.ghostColdEvictRr.2.coldFifo.Wf ∧ m.ghostColdEvictRr.2.coldFifo.cap = m.coldFifo.cap ∧
      (∀ q ∈ m.coldFifo.records, m.ghost q = false) ∧
      m.ghostColdEvictRr.2.coldFifo.records = [] := by
    intro m hwf hzero
    have hnil := GhostFifo.records_of_count_eq_zero hzero
    rw [(ghostColdEvictRr_cases m).1, hnil]
    exact ⟨hwf, rfl, fun q hq => (by cases hq), rfl⟩
  induction tries generalizing m with
  | zero =>
    obtain ⟨h₁, h₂, h₃, h₄⟩ := hempty m hwf (Nat.le_zero.mp htries)
    exact ⟨h₁, h₂, Or.inr ⟨h₃, h₄, (ghostColdEvictRr_cases m).2⟩⟩
  | succ tries ih =>
    unfold ghostColdFifoEvict
    dsimp only
    by_cases hzero : m.coldFifo.count = 0
    · rw [if_pos hzero]
      obtain ⟨h₁, h₂, h₃, h₄⟩ := hempty m hwf hzero
      exact ⟨h₁, h₂, Or.inr ⟨h₃, h₄, (ghostColdEvictRr_cases m).2⟩⟩
    · rw [if_neg hzero]
      obtain ⟨hrecords, hwf', hcap', hcount'⟩ := hwf.popOldest hzero
      split
      · next htpn =>
        refine ⟨hwf', hcap',
          Or.inl ⟨[], m.coldFifo.popOldest.1, hrecords, fun q hq => (by cases hq),
          rfl, ⟨htpn.2, rfl, rfl, rfl⟩⟩⟩
      · next htpn =>
        -- The record is stale: its page has no mark, and the loop goes on.
        have hnot : m.ghost m.coldFifo.popOldest.1 = false := by
          rw [← Bool.not_eq_true]
          exact fun hghost => htpn ⟨hvalid _ hghost, hghost⟩
        obtain ⟨h₁, h₂, hcases⟩ :=
          ih (m := { m with coldFifo := m.coldFifo.popOldest.2 }) hwf' hvalid
          (by show m.coldFifo.popOldest.2.count ≤ tries; omega)
        refine ⟨h₁, h₂.trans hcap', ?_⟩
        rcases hcases with ⟨pre, v, hpre, hall, hdone, hv⟩ | ⟨hall, hnil, hrest⟩
        · refine Or.inl ⟨m.coldFifo.popOldest.1 :: pre, v, ?_, fun q hq => ?_, hdone,
            ⟨hv.ghost, hv.cmt, hv.nrGhostCold, hv.nrValidTpages⟩⟩
          · rw [hrecords, List.cons_append]
            exact congrArg _ hpre
          · rcases List.mem_cons.mp hq with rfl | hq
            · exact hnot
            · exact hall q hq
        · refine Or.inr ⟨fun q hq => ?_, hnil, ?_⟩
          · rw [hrecords] at hq
            rcases List.mem_cons.mp hq with rfl | hq
            · exact hnot
            · exact hall q hq
          · rcases hrest with hnone | ⟨hdone, v, hv⟩
            · exact Or.inl hnone
            · exact Or.inr ⟨hdone, v, ⟨hv.ghost, hv.cmt, hv.nrGhostCold, hv.nrValidTpages⟩⟩

/-- Making room takes marks only. Those whose record is in the ring go in the order of the
    records, and those that stay keep their records. -/
structure Room (m m' : Mem) : Prop where
  wf : m'.coldFifo.Wf
  cap : m'.coldFifo.cap = m.coldFifo.cap
  nrValidTpages : m'.nrValidTpages = m.nrValidTpages
  ghost : ∀ q, m'.ghost q = true → m.ghost q = true
  suffix : m'.coldFifo.records <:+ m.coldFifo.records
  order : ∀ v w, m.ghost v = true → m'.ghost v = false → m'.ghost w = true →
    w ∈ m.coldFifo.records → [v, w].Sublist m.coldFifo.records
  keep : ∀ w ∈ m.coldFifo.records, m'.ghost w = true → w ∈ m'.coldFifo.records

theorem Room.of_same {m m' : Mem} (hwf : m.coldFifo.Wf) (hfifo : m'.coldFifo = m.coldFifo)
    (hghost : ∀ q, m'.ghost q = m.ghost q) (hn : m'.nrValidTpages = m.nrValidTpages) :
    Room m m' where
  wf := hfifo ▸ hwf
  cap := congrArg GhostFifo.cap hfifo
  nrValidTpages := hn
  ghost q hq := hghost q ▸ hq
  suffix := hfifo ▸ List.suffix_refl _
  order v w hv hv' := absurd (hv.symm.trans ((hghost v).symm.trans hv')) (by decide)
  keep w hmem _ := hfifo ▸ hmem

theorem Room.refl {m : Mem} (hwf : m.coldFifo.Wf) : Room m m :=
  .of_same hwf rfl (fun _ => rfl) rfl

/-- Making room twice. -/
theorem Room.trans {m₁ m₂ m₃ : Mem} (h : Room m₁ m₂) (h' : Room m₂ m₃) : Room m₁ m₃ where
  wf := h'.wf
  cap := h'.cap.trans h.cap
  nrValidTpages := h'.nrValidTpages.trans h.nrValidTpages
  ghost q hq := h.ghost q (h'.ghost q hq)
  suffix := h'.suffix.trans h.suffix
  order v w hv hv' hw hmem := by
    have hw₂ := h'.ghost w hw
    by_cases hmid : m₂.ghost v = true
    · exact (h'.order v w hmid hv' hw (h.keep w hmem hw₂)).trans h.suffix.sublist
    · exact h.order v w hv (Bool.not_eq_true _ ▸ hmid) hw₂ hmem
  keep w hmem hw := h'.keep w (h.keep w hmem (h'.ghost w hw)) hw

theorem Room.valid {m m' : Mem} (h : Room m m') (hvalid : m.GhostsValid) : m'.GhostsValid :=
  fun q hq => h.nrValidTpages ▸ hvalid q (h.ghost q hq)

theorem Unmarked.ghost_le {m m' : Mem} {v q : Nat} (h : Unmarked m m' v) (hq : m'.ghost q = true) :
    m.ghost q = true := by
  have hne : q ≠ v := fun he => by
    rw [he, h.ghost_self] at hq
    cases hq
  rwa [h.ghost_of_ne hne] at hq

theorem Unmarked.eq_of_lost {m m' : Mem} {v q : Nat} (h : Unmarked m m' v) (hq : m.ghost q = true)
    (hq' : m'.ghost q = false) : q = v := by
  by_contra hne
  rw [h.ghost_of_ne hne, hq] at hq'
  cases hq'

/-- Taking one mark makes room. -/
theorem room_fifoEvict {m : Mem} (hwf : m.coldFifo.Wf) (hvalid : m.GhostsValid) :
    Room m m.ghostColdFifoEvictOldest.2 := by
  obtain ⟨hwf', hcap, hcases⟩ := ghostColdFifoEvict_cases hwf hvalid (Nat.le_refl _)
  rcases hcases with ⟨pre, v, hrec, hpre, -, hv⟩ | ⟨hall, hnil, hrest⟩
  · have hsuf : m.ghostColdFifoEvictOldest.2.coldFifo.records <:+ m.coldFifo.records :=
      ⟨pre ++ [v], by rw [List.append_assoc]; exact hrec.symm⟩
    have hkeep : ∀ w ∈ m.coldFifo.records, m.ghostColdFifoEvictOldest.2.ghost w = true →
        w ∈ m.ghostColdFifoEvictOldest.2.coldFifo.records := by
      intro w hmem hw
      rw [hrec] at hmem
      rcases List.mem_append.mp hmem with hmem | hmem
      · exact absurd ((hv.ghost_le hw).symm.trans (hpre w hmem)) (by decide)
      · refine (List.mem_cons.mp hmem).resolve_left fun he => ?_
        rw [he] at hw
        exact absurd (hw.symm.trans hv.ghost_self) (by decide)
    refine ⟨hwf', hcap, hv.nrValidTpages, fun q => hv.ghost_le, hsuf, ?_, hkeep⟩
    intro v' w hv' hlost hw hmem
    have hin := hkeep w hmem hw
    rw [hv.eq_of_lost hv' hlost, hrec]
    exact ((List.singleton_sublist.mpr hin).cons_cons v).trans (List.sublist_append_right pre _)
  -- No record was of a marked page; the ring is empty afterwards.
  · have hmarks : ∀ q, m.ghostColdFifoEvictOldest.2.ghost q = true → m.ghost q = true := by
      intro q hq
      rcases hrest with ⟨-, hcmt, -⟩ | ⟨-, v, hv⟩
      · show (m.cmt q).ghostMark = true
        rw [← hcmt]
        exact hq
      · exact hv.ghost_le hq
    have hnone : ∀ w ∈ m.coldFifo.records, m.ghostColdFifoEvictOldest.2.ghost w ≠ true :=
      fun w hmem hw => absurd ((hmarks w hw).symm.trans (hall w hmem)) (by decide)
    refine ⟨hwf', hcap, ?_, hmarks, ⟨m.coldFifo.records, ?_⟩,
      fun v w _ _ hw hmem => absurd hw (hnone w hmem), fun w hmem hw => absurd hw (hnone w hmem)⟩
    · rcases hrest with ⟨-, -, hn⟩ | ⟨-, v, hv⟩
      · exact hn
      · exact hv.nrValidTpages
    · have hnil : m.ghostColdFifoEvictOldest.2.coldFifo.records = [] := hnil
      rw [hnil, List.append_nil]

/-- And so does taking marks down to a limit. -/
theorem room_evictDownTo (limit rounds : Nat) {m : Mem} (hwf : m.coldFifo.Wf)
    (hvalid : m.GhostsValid) : Room m (m.ghostColdEvictDownTo limit rounds) := by
  induction rounds generalizing m with
  | zero => exact Room.refl hwf
  | succ rounds ih =>
    have hroom := room_fifoEvict hwf hvalid
    unfold ghostColdEvictDownTo
    dsimp only
    split
    · split
      · exact hroom.trans (ih hroom.wf (hroom.valid hvalid))
      · exact hroom
    · exact Room.refl hwf

/-- Taking a mark uses records up. -/
theorem length_fifoEvict {m : Mem} (hwf : m.coldFifo.Wf) (hvalid : m.GhostsValid)
    (hne : m.coldFifo.records ≠ []) :
    m.ghostColdFifoEvictOldest.2.coldFifo.records.length < m.coldFifo.records.length := by
  obtain ⟨-, -, hcases⟩ := ghostColdFifoEvict_cases hwf hvalid (Nat.le_refl m.coldFifo.count)
  rcases hcases with ⟨pre, v, hrec, -⟩ | ⟨-, hnil, -⟩
  · rw [hrec, List.length_append, List.length_cons]
    show m.ghostColdFifoEvictOldest.2.coldFifo.records.length <
      pre.length + (m.ghostColdFifoEvictOldest.2.coldFifo.records.length + 1)
    omega
  · have hnil : m.ghostColdFifoEvictOldest.2.coldFifo.records = [] := hnil
    rw [hnil]
    exact List.length_pos_of_ne_nil hne

/-- Below the limit nothing is taken. -/
theorem evictDownTo_of_lt {m : Mem} {limit : Nat} (h : m.nrGhostCold < limit) (rounds : Nat) :
    m.ghostColdEvictDownTo limit rounds = m := by
  cases rounds with
  | zero => rfl
  | succ rounds => exact if_neg (Nat.not_le.mpr h)

/-- At the limit a record leaves the ring. -/
theorem length_evictDownTo {m : Mem} {limit : Nat} (hwf : m.coldFifo.Wf) (hvalid : m.GhostsValid)
    (hne : m.coldFifo.records ≠ []) (hpos : limit ≠ 0) (hle : limit ≤ m.nrGhostCold) :
    (m.ghostColdEvictDownTo limit m.nrGhostCold).coldFifo.records.length <
      m.coldFifo.records.length := by
  obtain ⟨n, hn⟩ := Nat.exists_eq_succ_of_ne_zero (show m.nrGhostCold ≠ 0 by omega)
  have hlt := length_fifoEvict hwf hvalid hne
  have hroom := room_fifoEvict hwf hvalid
  have hunfold : m.ghostColdEvictDownTo limit (n + 1) =
      if m.ghostColdFifoEvictOldest.1 then m.ghostColdFifoEvictOldest.2.ghostColdEvictDownTo limit n
      else m.ghostColdFifoEvictOldest.2 := if_pos hle
  rw [hn, hunfold]
  split
  · have hrest := room_evictDownTo limit n hroom.wf (hroom.valid hvalid)
    exact Nat.lt_of_le_of_lt hrest.suffix.length_le hlt
  · exact hlt

/-- With exactly `limit` ghosts, one at most loses its mark. -/
theorem evictDownTo_single {m : Mem} {limit : Nat} (hwf : m.coldFifo.Wf) (hvalid : m.GhostsValid)
    (hpos : limit ≠ 0) (heq : m.nrGhostCold = limit) {v v' : Nat} (hv : m.ghost v = true)
    (hv' : m.ghost v' = true)
    (hlost : (m.ghostColdEvictDownTo limit m.nrGhostCold).ghost v = false)
    (hlost' : (m.ghostColdEvictDownTo limit m.nrGhostCold).ghost v' = false) : v = v' := by
  obtain ⟨n, hn⟩ := Nat.exists_eq_succ_of_ne_zero (show m.nrGhostCold ≠ 0 by omega)
  obtain ⟨-, -, hcases⟩ := ghostColdFifoEvict_cases hwf hvalid (Nat.le_refl m.coldFifo.count)
  have hunfold : m.ghostColdEvictDownTo limit (n + 1) =
      if m.ghostColdFifoEvictOldest.1 then m.ghostColdFifoEvictOldest.2.ghostColdEvictDownTo limit n
      else m.ghostColdFifoEvictOldest.2 := if_pos (Nat.le_of_eq heq.symm)
  rw [hn, hunfold] at hlost hlost'
  -- After one mark is taken the count is below the limit.
  have hone : ∀ {u}, Unmarked m m.ghostColdFifoEvictOldest.2 u →
      m.ghostColdFifoEvictOldest.1 = true → v = v' := by
    intro u hu hdone
    have hstop : m.ghostColdFifoEvictOldest.2.ghostColdEvictDownTo limit n =
        m.ghostColdFifoEvictOldest.2 :=
      evictDownTo_of_lt (by rw [hu.nrGhostCold]; omega) n
    rw [if_pos hdone, hstop] at hlost hlost'
    exact (hu.eq_of_lost hv hlost).trans (hu.eq_of_lost hv' hlost').symm
  rcases hcases with ⟨-, u, -, -, hdone, hu⟩ | ⟨-, -, ⟨hdone, hcmt, -⟩ | ⟨hdone, u, hu⟩⟩
  · exact hone hu hdone
  · have hdone : m.ghostColdFifoEvictOldest.1 = false := hdone
    rw [hdone] at hlost
    have hsame : m.ghostColdFifoEvictOldest.2.ghost v = m.ghost v :=
      congrArg (fun cmt : Nat → ColdPage => (cmt v).ghostMark) hcmt
    exact absurd (hv.symm.trans (hsame.symm.trans hlost)) (by decide)
  · exact hone hu hdone

/-! ## Section 3: The steps of the memory -/

theorem ghost_setPage_pt (m : Mem) (page : Nat) (pt : Bool) (q : Nat) :
    (m.setPage page { m.cmt page with pt := pt }).ghost q = m.ghost q := by
  rw [ghost_setPage]
  split
  · next hq =>
    rw [hq]
    rfl
  · rfl

theorem room_setPage {m : Mem} (hwf : m.coldFifo.Wf) (page : Nat) (pt : Bool) :
    Room m (m.setPage page { m.cmt page with pt := pt }) :=
  .of_same hwf rfl (ghost_setPage_pt m page pt) rfl

/-- A page is evicted: room is made, and the page gets its mark and its record. -/
theorem evict_cases {m m' : Mem} {page : Nat} (hwf : m.coldFifo.Wf) (hvalid : m.GhostsValid)
    (h : m.next (.evict page) = some m') :
    page < m.nrValidTpages ∧ m.ghost page = false ∧
    ((m.hot.env.ghostColdCap = 0 ∧ m'.coldFifo = m.coldFifo ∧
        m'.nrValidTpages = m.nrValidTpages ∧ ∀ q, m'.ghost q = m.ghost q) ∨
      ∃ m₁, m.hot.env.ghostColdCap ≠ 0 ∧
        m₁ = (m.setPage page { m.cmt page with pt := false }).ghostColdEvictDownTo
          m.hot.env.ghostColdCap m.nrGhostCold ∧
        Room m m₁ ∧ m'.coldFifo = m₁.coldFifo.push page ∧
        m'.nrValidTpages = m₁.nrValidTpages ∧ m'.nrGhostCold = m₁.nrGhostCold + 1 ∧
        m'.ghost page = true ∧ ∀ q, q ≠ page → m'.ghost q = m₁.ghost q) := by
  have hguard : page < m.nrValidTpages ∧ (m.cmt page).pt = true ∧
      ¬(m.cmt page).ghostMark = true := by
    by_contra hno
    have hnone : m.next (.evict page) = none := if_neg hno
    rw [hnone] at h
    cases h
  have heq : m.evict page = m' := by
    have hsome : m.next (.evict page) = some (m.evict page) := if_pos hguard
    rw [hsome] at h
    exact Option.some.inj h
  obtain ⟨hlt, -, hnot⟩ := hguard
  have hnot : m.ghost page = false := Bool.not_eq_true _ ▸ hnot
  refine ⟨hlt, hnot, ?_⟩
  have hsame := ghost_setPage_pt m page false
  have hdown := room_setPage hwf page false
  subst heq
  unfold evict ghostColdMark
  -- With a cap of zero pages are evicted without a mark.
  by_cases hcap : m.hot.env.ghostColdCap = 0
  · left
    rw [if_pos (show (m.setPage page _).hot.env.ghostColdCap = 0 from hcap)]
    exact ⟨hcap, rfl, rfl, hsame⟩
  · right
    rw [if_neg (show ¬(m.setPage page _).hot.env.ghostColdCap = 0 from hcap), if_neg (by
      show ¬(m.setPage page { m.cmt page with pt := false }).ghost page = true
      rw [hsame, hnot]
      decide)]
    refine ⟨_, hcap, rfl,
      hdown.trans (room_evictDownTo _ _ hdown.wf (hdown.valid hvalid)), rfl, rfl,
      rfl, ?_, fun q hq => ?_⟩
    · exact (ghost_setPage _ page _ page).trans (if_pos rfl)
    · exact (ghost_setPage _ page _ q).trans (if_neg hq)

/-- What the other steps do to marks and records: both only get lost. -/
structure Lapse (m m' : Mem) : Prop where
  wf : m'.coldFifo.Wf
  nrValidTpages : m'.nrValidTpages = m.nrValidTpages
  ghost : ∀ q, m'.ghost q = true → m.ghost q = true
  records : m'.coldFifo.records.Sublist m.coldFifo.records

theorem Room.lapse {m m' : Mem} (h : Room m m') : Lapse m m' :=
  ⟨h.wf, h.nrValidTpages, h.ghost, h.suffix.sublist⟩

/-- A loaded page loses its mark and keeps its record. -/
theorem lapse_load {m : Mem} (hwf : m.coldFifo.Wf) (page : Nat) :
    Lapse m (m.load page) ∧ (m.load page).coldFifo = m.coldFifo := by
  have hclear : (m.ghostColdClear page).coldFifo = m.coldFifo ∧
      (m.ghostColdClear page).nrValidTpages = m.nrValidTpages ∧
      ∀ q, (m.ghostColdClear page).ghost q = true → m.ghost q = true := by
    unfold ghostColdClear
    split
    · refine ⟨rfl, rfl, fun q hq => ?_⟩
      have hq := (ghost_setPage m page _ q).symm.trans hq
      split at hq
      · cases hq
      · exact hq
    · exact ⟨rfl, rfl, fun _ => id⟩
  obtain ⟨hfifo, hn, hghost⟩ := hclear
  refine ⟨⟨?_, hn, fun q hq => hghost q ?_, ?_⟩, hfifo⟩
  · show (m.ghostColdClear page).coldFifo.Wf
    rw [hfifo]
    exact hwf
  -- Becoming resident does not set the mark again.
  · have hq := (ghost_setPage (m.ghostColdClear page) page _ q).symm.trans hq
    split at hq
    · next hqp =>
      rw [hqp]
      exact hq
    · exact hq
  · show (m.ghostColdClear page).coldFifo.records.Sublist _
    rw [hfifo]

theorem lapse_ghostTrim {m : Mem} (hvalid : m.GhostsValid) : Lapse m m.ghostTrim := by
  have hroom := room_evictDownTo (m := { m with coldFifo := .alloc m.hot.env.ghostColdCap })
    (m.hot.env.ghostColdCap + 1) m.nrGhostCold (GhostFifo.wf_alloc _) hvalid
  refine ⟨hroom.wf, hroom.nrValidTpages, hroom.ghost, ?_⟩
  have hsuffix := hroom.suffix
  rw [show ({ m with coldFifo := .alloc m.hot.env.ghostColdCap } : Mem).coldFifo.records = [] from
    GhostFifo.records_alloc _] at hsuffix
  show (ghostColdEvictDownTo _ _ _).coldFifo.records.Sublist _
  rw [List.suffix_nil.mp hsuffix]
  exact List.nil_sublist _

theorem lapse_rehashed {m : Mem} (hwf : m.coldFifo.Wf) (hvalid : m.GhostsValid)
    (t : Option HotTable) : Lapse m (m.rehashed t) := by
  cases t with
  | none => exact (Room.refl hwf).lapse
  | some h =>
    have htrim := lapse_ghostTrim (m := { m with hot := h.rehash }) hvalid
    exact ⟨htrim.wf, htrim.nrValidTpages, htrim.ghost, htrim.records⟩

/-- The preparation of a benchmark clears all marks. -/
theorem lapse_prepare {m : Mem} (hvalid : m.GhostsValid) :
    Lapse m m.prepareForBenchmark ∧ ∀ q, m.prepareForBenchmark.ghost q = false := by
  have hnone : ∀ q, m.prepareForBenchmark.ghost q = false := by
    intro q
    show (if q < m.nrValidTpages then _ else _ : ColdPage).ghostMark = false
    split
    · rfl
    · next hlt =>
      rw [← Bool.not_eq_true]
      exact fun hq => hlt (hvalid q hq)
  refine ⟨⟨GhostFifo.wf_reset _, rfl, fun q hq => absurd (hq.symm.trans (hnone q)) (by decide), ?_⟩,
    hnone⟩
  show GhostFifo.records { m.coldFifo with head := 0, count := 0 } |>.Sublist _
  rw [GhostFifo.records_of_count_eq_zero rfl]
  exact List.nil_sublist _

/-- Every operation but an eviction only takes marks and records. -/
theorem next_lapse {m m' : Mem} {a : MemLabel} (ha : ∀ page, a ≠ .evict page)
    (hwf : m.coldFifo.Wf) (hvalid : m.GhostsValid) (h : m.next a = some m') : Lapse m m' := by
  -- Operations on the hot table do not touch the pages.
  have hhot : ∀ {hot}, Lapse m { m with hot := hot } := fun {hot} =>
    (@Room.of_same m { m with hot := hot } hwf rfl (fun _ => rfl) rfl).lapse
  cases a with
  | promote lpa ppa keyFp coldCnt =>
    cases h
    exact hhot
  | hit lpa =>
    cases h
    exact hhot
  | verify i keyFp =>
    obtain ⟨-, heq⟩ := Option.ite_none_right_eq_some.mp h
    cases heq
    exact hhot
  | cacheKey i realKey =>
    obtain ⟨-, heq⟩ := Option.ite_none_right_eq_some.mp h
    cases heq
    exact hhot
  | expandHot =>
    obtain ⟨t, -, rfl⟩ := Option.map_eq_some_iff.mp h
    exact lapse_rehashed hwf hvalid t
  | shrinkHot =>
    obtain ⟨t, -, rfl⟩ := Option.map_eq_some_iff.mp h
    exact lapse_rehashed hwf hvalid t
  -- An expansion of the key cache trims both rings.
  | expandKey =>
    obtain ⟨⟨done, env⟩, -, heq⟩ := Option.bind_eq_some_iff.mp h
    cases heq
    dsimp only
    split
    · have htrim := lapse_ghostTrim (m := { m with hot := { m.hot with env := env } }) hvalid
      exact ⟨htrim.wf, htrim.nrValidTpages, htrim.ghost, htrim.records⟩
    · exact (Room.refl hwf).lapse
  | reset =>
    cases h
    exact hhot
  | prepare =>
    cases h
    exact (lapse_prepare hvalid).1
  | evict page => exact absurd rfl (ha page)
  | load page =>
    obtain ⟨-, heq⟩ := Option.ite_none_right_eq_some.mp h
    cases heq
    exact (lapse_load hwf page).1

end Mem

/-! ## Section 4: The history -/

/-- The memory, and the marked pages in the order of their marks. -/
structure GhostTrace where
  mem : Mem
  order : List Nat

/-- The page that a step marks. -/
def newMark (m : Mem) : MemLabel → List Nat
  | .evict page => if m.ghost page then [page] else []
  | _ => []

def ghostMachine (env₀ : CacheEnv) (nrValidTpages : Nat) : Machine GhostTrace MemLabel where
  init s := (memMachine env₀ nrValidTpages).init s.mem ∧ s.order = []
  next s a := (s.mem.next a).map fun m => ⟨m, s.order.filter (fun q => m.ghost q) ++ newMark m a⟩

/-- A page is not marked while the ring holds a record of an earlier mark of it. -/
def markOk (s : GhostTrace) : MemLabel → Prop
  | .evict page => page ∉ s.mem.coldFifo.records
  | _ => True

/-- No mark is set before a capacity update, and no record of a marked page is overwritten:
    the ring is not full, or its oldest page is not marked or about to make room. -/
def recordOk (s : GhostTrace) : MemLabel → Prop
  | .evict _ => s.mem.coldFifo.count < s.mem.coldFifo.cap ∨
      ∃ q rest, s.mem.coldFifo.records = q :: rest ∧
        (s.mem.ghost q = false ∨ s.mem.hot.env.ghostColdCap ≤ s.mem.nrGhostCold)
  | .expandHot | .shrinkHot | .expandKey => ∀ q, s.mem.ghost q = false
  | _ => True

structure GhostTrace.Ordered (s : GhostTrace) : Prop where
  wf : s.mem.coldFifo.Wf
  valid : s.mem.GhostsValid
  nodup : s.order.Nodup
  mem_order : ∀ q, q ∈ s.order ↔ s.mem.ghost q = true
  records : (s.mem.coldFifo.records.filter fun q => s.mem.ghost q).Sublist s.order

/-- An order of ghosts stays one when some lose their marks. -/
theorem ordered_lapse {s : GhostTrace} {m : Mem} (h : s.Ordered) (hl : Mem.Lapse s.mem m) :
    GhostTrace.Ordered ⟨m, s.order.filter fun q => m.ghost q⟩ where
  wf := hl.wf
  valid q hq := hl.nrValidTpages ▸ h.valid q (hl.ghost q hq)
  nodup := h.nodup.filter _
  mem_order q := by
    rw [List.mem_filter, h.mem_order]
    exact ⟨fun hq => hq.2, fun hq => ⟨hl.ghost q hq, hq⟩⟩
  records := filter_sublist_filter h.records hl.records hl.ghost

/-- An evicted page goes to the end of the order and of the ring. -/
theorem ordered_evict {s : GhostTrace} {m : Mem} {page : Nat} (h : s.Ordered)
    (hmark : page ∉ s.mem.coldFifo.records) (hn : s.mem.next (.evict page) = some m) :
    GhostTrace.Ordered ⟨m, s.order.filter (fun q => m.ghost q) ++ newMark m (.evict page)⟩ := by
  obtain ⟨hlt, hnot, hcases⟩ := Mem.evict_cases h.wf h.valid hn
  rcases hcases with ⟨-, hfifo, hvalid, hghost⟩ | ⟨m₁, -, -, hroom, hpush, hvalid, -, hnew, hother⟩
  · have hnone : newMark m (.evict page) = [] := if_neg (by
      rw [hghost, hnot]
      decide)
    rw [hnone, List.append_nil]
    exact ordered_lapse h (Mem.Room.of_same h.wf hfifo hghost hvalid).lapse
  · have hone : newMark m (.evict page) = [page] := if_pos hnew
    rw [hone]
    obtain ⟨hwf₁, hvalid₁, hnodup₁, hmem₁, hrec₁⟩ := ordered_lapse h hroom.lapse
    dsimp only at hwf₁ hvalid₁ hnodup₁ hmem₁ hrec₁
    -- The page is new in the order and in the ring.
    have horder : page ∉ s.order := fun hmem =>
      absurd (((h.mem_order page).mp hmem).symm.trans hnot) (by decide)
    have hfilter : s.order.filter (fun q => m.ghost q) = s.order.filter fun q => m₁.ghost q := by
      refine List.filter_congr fun q hq => ?_
      exact hother q fun he => horder (he ▸ hq)
    have hpage₁ : page ∉ s.order.filter fun q => m₁.ghost q := fun hmem =>
      horder (List.mem_filter.mp hmem).1
    rw [hfilter]
    refine ⟨hpush ▸ hwf₁.push page, fun q hq => ?_, ?_, fun q => ?_, ?_⟩
    · show q < m.nrValidTpages
      rw [hvalid]
      by_cases hqp : q = page
      · rw [hqp, hroom.nrValidTpages]
        exact hlt
      · exact hvalid₁ q (hother q hqp ▸ hq)
    · exact List.nodup_append.mpr ⟨hnodup₁, List.nodup_singleton page, fun q hq q' hq' he =>
        hpage₁ (List.mem_singleton.mp hq' ▸ he ▸ hq)⟩
    · rw [List.mem_append, List.mem_singleton, hmem₁]
      show _ ↔ m.ghost q = true
      by_cases hqp : q = page
      · rw [hqp]
        exact ⟨fun _ => hnew, fun _ => Or.inr rfl⟩
      -- The other pages keep the mark they have after the room is made.
      · rw [hother q hqp]
        exact or_iff_left hqp
    · show (m.coldFifo.records.filter fun q => m.ghost q).Sublist _
      rw [hpush]
      have hsub := (hwf₁.records_push_sublist page).filter fun q => m.ghost q
      refine hsub.trans ?_
      have hold : (m₁.coldFifo.records.filter fun q => m.ghost q) =
          m₁.coldFifo.records.filter fun q => m₁.ghost q := by
        refine List.filter_congr fun q hq => ?_
        exact hother q fun he => hmark (hroom.suffix.subset (he ▸ hq))
      rw [List.filter_append, hold]
      exact hrec₁.append (List.filter_sublist ..)

/-- So the records are in the order of the marks in every run. -/
theorem reach_ghostOrdered {env₀ : CacheEnv} {n : Nat} {ok : GhostTrace → MemLabel → Prop}
    (hok : ∀ s a, ok s a → markOk s a) {s : GhostTrace} (h : (ghostMachine env₀ n).Reach ok s) :
    s.Ordered := by
  refine h.invariant (I := GhostTrace.Ordered) ?_ ?_
  · rintro ⟨m, order⟩ ⟨⟨env, -, hm⟩, horder⟩
    dsimp only at hm horder
    subst hm horder
    refine ⟨GhostFifo.wf_alloc _, fun q hq => (by cases hq), List.nodup_nil, fun q => ?_, ?_⟩
    · exact ⟨fun hq => (by cases hq), fun hq => (by cases hq)⟩
    · exact List.Sublist.refl []
  · intro s s' a _ hs hstep hn
    obtain ⟨m, hm, rfl⟩ := Option.map_eq_some_iff.mp hn
    by_cases ha : ∃ page, a = .evict page
    · obtain ⟨page, rfl⟩ := ha
      exact ordered_evict hs (hok _ _ hstep) hm
    · have hne : ∀ page, a ≠ .evict page := fun page he => ha ⟨page, he⟩
      have hnone : newMark m a = [] := by
        cases a with
        | evict page => exact absurd rfl (hne page)
        | _ => rfl
      rw [hnone, List.append_nil]
      exact ordered_lapse hs (Mem.next_lapse hne hs.wf hs.valid hm)

/-! ## Section 5: Pages with a record -/

/-- Every marked page has its record in the ring. -/
def Mem.Recorded (m : Mem) : Prop := ∀ q, m.ghost q = true → q ∈ m.coldFifo.records

/-- With the ring full, making room takes a record off it, or the oldest record is not of a
    marked page. -/
theorem recorded_evict {s : GhostTrace} {m : Mem} {page : Nat} (h : s.Ordered)
    (hrec : s.mem.Recorded) (hok : recordOk s (.evict page))
    (hn : s.mem.next (.evict page) = some m) : m.Recorded := by
  obtain ⟨-, hnot, hcases⟩ := Mem.evict_cases h.wf h.valid hn
  rcases hcases with ⟨-, hfifo, -, hghost⟩ | ⟨m₁, hcap, hm₁, hroom, hpush, -, -, -, hother⟩
  · intro q hq
    rw [hfifo]
    exact hrec q (hghost q ▸ hq)
  · have hkeep : m₁.Recorded := fun q hq => hroom.keep q (hrec q (hroom.ghost q hq)) hq
    intro q hq
    rw [hpush]
    have hlen₁ := m₁.coldFifo.length_records
    have hlen := s.mem.coldFifo.length_records
    have hle := hroom.suffix.length_le
    have hcount := h.wf.count_le
    have hringcap := hroom.cap
    -- With room in the ring the new record overwrites none.
    by_cases hspace : m₁.coldFifo.count < m₁.coldFifo.cap
    · rw [hroom.wf.records_push hspace, List.mem_append, List.mem_singleton]
      by_cases hqp : q = page
      · exact Or.inr hqp
      · exact Or.inl (hkeep q (hother q hqp ▸ hq))
    · -- The ring is full, so no record has been taken off.
      obtain ⟨q₀, rest, hfirst, hq₀⟩ : ∃ q₀ rest, s.mem.coldFifo.records = q₀ :: rest ∧
          (s.mem.ghost q₀ = false ∨ s.mem.hot.env.ghostColdCap ≤ s.mem.nrGhostCold) := by
        refine hok.resolve_left ?_
        omega
      have hsame : m₁.coldFifo.records = s.mem.coldFifo.records :=
        hroom.suffix.eq_of_length (by omega)
      have hpos : 0 < m₁.coldFifo.cap := by
        rw [hfirst, List.length_cons] at hlen
        omega
      rw [hroom.wf.records_push_full hpos (by omega), hsame, hfirst, List.tail_cons,
        List.mem_append, List.mem_singleton]
      by_cases hqp : q = page
      · exact Or.inr hqp
      · have hq₁ : m₁.ghost q = true := hother q hqp ▸ hq
        have hin := hkeep q hq₁
        rw [hsame, hfirst] at hin
        refine Or.inl ((List.mem_cons.mp hin).resolve_left fun he => ?_)
        rw [he] at hq₁
        rcases hq₀ with hq₀ | hfull
        · exact absurd ((hroom.ghost q₀ hq₁).symm.trans hq₀) (by decide)
        · -- Room has been made, from a ring that was not empty.
          have hne : s.mem.coldFifo.records ≠ [] := by
            rw [hfirst]
            exact List.cons_ne_nil _ _
          have hdown := Mem.room_setPage h.wf page false
          have hlt := Mem.length_evictDownTo hdown.wf (hdown.valid h.valid) hne hcap hfull
          rw [hm₁] at hsame
          exact absurd (congrArg List.length hsame) (Nat.ne_of_lt hlt)

/-- Every marked page has a record. -/
theorem reach_recorded {env₀ : CacheEnv} {n : Nat} {s : GhostTrace}
    (h : (ghostMachine env₀ n).Reach (fun s a => markOk s a ∧ recordOk s a) s) :
    s.mem.Recorded := by
  refine h.invariant (I := fun s => s.mem.Recorded) ?_ ?_
  · rintro ⟨m, order⟩ ⟨⟨env, -, hm⟩, -⟩
    dsimp only at hm
    subst hm
    exact fun q hq => (by cases hq)
  · intro s s' a hr hrec hok hn
    have hs := reach_ghostOrdered (fun _ _ h => h.1) hr
    obtain ⟨m, hm, rfl⟩ := Option.map_eq_some_iff.mp hn
    -- A step that leaves the ring alone takes marks only.
    have hring : (∀ page, a ≠ .evict page) → m.coldFifo = s.mem.coldFifo → m.Recorded := by
      intro hne hfifo q hq
      rw [hfifo]
      exact hrec q ((Mem.next_lapse hne hs.wf hs.valid hm).ghost q hq)
    have hnone : (∀ page, a ≠ .evict page) → (∀ q, s.mem.ghost q = false) → m.Recorded := by
      intro hne hall q hq
      have hold := (Mem.next_lapse hne hs.wf hs.valid hm).ghost q hq
      exact absurd (hold.symm.trans (hall q)) (by decide)
    cases a with
    | promote lpa ppa keyFp coldCnt =>
      cases hm
      exact hring (fun _ he => (by cases he)) rfl
    | hit lpa =>
      cases hm
      exact hring (fun _ he => (by cases he)) rfl
    | verify i keyFp =>
      obtain ⟨-, heq⟩ := Option.ite_none_right_eq_some.mp hm
      cases heq
      exact hring (fun _ he => (by cases he)) rfl
    | cacheKey i realKey =>
      obtain ⟨-, heq⟩ := Option.ite_none_right_eq_some.mp hm
      cases heq
      exact hring (fun _ he => (by cases he)) rfl
    -- A resize empties the ring, which the run allows without ghosts only.
    | expandHot => exact hnone (fun _ he => (by cases he)) hok.2
    | shrinkHot => exact hnone (fun _ he => (by cases he)) hok.2
    | expandKey => exact hnone (fun _ he => (by cases he)) hok.2
    | reset =>
      cases hm
      exact hring (fun _ he => (by cases he)) rfl
    | prepare =>
      cases hm
      have hclear := (Mem.lapse_prepare hs.valid).2
      exact fun q hq => absurd (hq.symm.trans (hclear q)) (by decide)
    | evict page => exact recorded_evict hs hrec hok.2 hm
    | load page =>
      obtain ⟨-, heq⟩ := Option.ite_none_right_eq_some.mp hm
      cases heq
      exact hring (fun _ he => (by cases he)) (Mem.lapse_load hs.wf page).2

/-! ## Section 6: All runs -/

/-- The marks that a step takes away, and those that it leaves. -/
def GhostTrace.Loses (s s' : GhostTrace) (v : Nat) : Prop :=
  s.mem.ghost v = true ∧ s'.mem.ghost v = false

def GhostTrace.Keeps (s s' : GhostTrace) (w : Nat) : Prop :=
  s.mem.ghost w = true ∧ s'.mem.ghost w = true

/-- If a recorded ghost survives an eviction, the ghost that does not was marked before
    it. -/
theorem loses_order {env₀ : CacheEnv} {n : Nat} {s s' : GhostTrace} {page v w : Nat}
    (hs : s.Ordered) (hn : (ghostMachine env₀ n).next s (.evict page) = some s')
    (hv : s.Loses s' v) (hw : s.Keeps s' w) (hrec : w ∈ s.mem.coldFifo.records) :
    v ∈ s.mem.coldFifo.records ∧ [v, w].Sublist s.order := by
  obtain ⟨m, hm, rfl⟩ := Option.map_eq_some_iff.mp hn
  obtain ⟨-, hnot, hcases⟩ := Mem.evict_cases hs.wf hs.valid hm
  have hne : ∀ {q}, s.mem.ghost q = true → q ≠ page := fun {q} hq he =>
    absurd ((he ▸ hq : s.mem.ghost page = true).symm.trans hnot) (by decide)
  rcases hcases with ⟨-, -, -, hghost⟩ | ⟨m₁, -, -, hroom, -, -, -, -, hother⟩
  · exact absurd (hv.1.symm.trans ((hghost v).symm.trans hv.2)) (by decide)
  · have hsub := hroom.order v w hv.1 ((hother v (hne hv.1)).symm.trans hv.2)
      ((hother w (hne hw.1)).symm.trans hw.2) hrec
    refine ⟨hsub.subset (List.mem_cons_self ..), ?_⟩
    have hfilter := hsub.filter fun q => s.mem.ghost q
    rw [List.filter_cons_of_pos hv.1, List.filter_cons_of_pos hw.1, List.filter_nil] at hfilter
    exact hfilter.trans hs.records

/-- Making room is first in, first out among the ghosts with a record: none of them keeps its
    mark while a ghost that was marked later loses it. Without capacity updates while pages are
    marked and without overwritten records, every ghost has one, so that the order is that of
    all ghosts. -/
theorem ghost_fifo_order (env₀ : CacheEnv) (n : Nat) :
    (∀ s, (ghostMachine env₀ n).Reach markOk s →
      s.order.Nodup ∧ (∀ q, q ∈ s.order ↔ s.mem.ghost q = true) ∧
      ∀ page s', (ghostMachine env₀ n).next s (.evict page) = some s' →
        (∀ v w, s.Loses s' v → s.Keeps s' w → w ∈ s.mem.coldFifo.records →
          v ∈ s.mem.coldFifo.records ∧ [v, w].Sublist s.order) ∧
        (s.mem.nrGhostCold = s.mem.hot.env.ghostColdCap →
          ∀ v v', s.Loses s' v → s.Loses s' v' → v = v')) ∧
    ∀ s, (ghostMachine env₀ n).Reach (fun s a => markOk s a ∧ recordOk s a) s →
      (∀ q, s.mem.ghost q = true → q ∈ s.mem.coldFifo.records) ∧
      ∀ page s', (ghostMachine env₀ n).next s (.evict page) = some s' →
        ∀ v w, s.Loses s' v → s.Keeps s' w → [v, w].Sublist s.order := by
  constructor
  · intro s hr
    have hs := reach_ghostOrdered (fun _ _ => id) hr
    refine ⟨hs.nodup, hs.mem_order, fun page s' hn => ⟨fun v w hv hw hrec =>
      loses_order hs hn hv hw hrec, fun heq v v' hv hv' => ?_⟩⟩
    obtain ⟨m, hm, rfl⟩ := Option.map_eq_some_iff.mp hn
    obtain ⟨-, hnot, hcases⟩ := Mem.evict_cases hs.wf hs.valid hm
    have hne : ∀ {q}, s.mem.ghost q = true → q ≠ page := fun {q} hq he =>
      absurd ((he ▸ hq : s.mem.ghost page = true).symm.trans hnot) (by decide)
    rcases hcases with ⟨-, -, -, hghost⟩ | ⟨m₁, hcap, hm₁, -, -, -, -, -, hother⟩
    -- Without marks nothing loses one.
    · exact absurd (hv.1.symm.trans ((hghost v).symm.trans hv.2)) (by decide)
    · have hdown := Mem.room_setPage hs.wf page false
      have hsame := fun q => Mem.ghost_setPage_pt s.mem page false q
      refine Mem.evictDownTo_single hdown.wf (hdown.valid hs.valid) hcap heq
        ((hsame v).trans hv.1) ((hsame v').trans hv'.1) ?_ ?_
      · exact hm₁ ▸ (hother v (hne hv.1)).symm.trans hv.2
      · exact hm₁ ▸ (hother v' (hne hv'.1)).symm.trans hv'.2
  · intro s hr
    have hs := reach_ghostOrdered (fun _ _ h => h.1) hr
    have hrec := reach_recorded hr
    refine ⟨hrec, fun page s' hn v w hv hw => ?_⟩
    exact (loses_order hs hn hv hw (hrec w hw.1)).2

/-! ## Section 7: A capacity update -/

/-- A page without a mark is loaded. -/
theorem exists_loaded {env₀ : CacheEnv} {n page : Nat} {s : GhostTrace}
    (hr : (ghostMachine env₀ n).Reach markOk s) (hpage : page < s.mem.nrValidTpages)
    (horder : page ∉ s.order) :
    ∃ m, (ghostMachine env₀ n).Reach markOk ⟨m, s.order⟩ ∧ m.hot = s.mem.hot ∧
      m.nrValidTpages = s.mem.nrValidTpages ∧ m.nrGhostCold = s.mem.nrGhostCold ∧
      m.coldFifo = s.mem.coldFifo ∧ (∀ q, m.ghost q = s.mem.ghost q) ∧
      m.next (.evict page) = some (m.evict page) := by
  have hs := reach_ghostOrdered (fun _ _ => id) hr
  have hnot : s.mem.ghost page = false :=
    Bool.not_eq_true _ ▸ fun hg => horder ((hs.mem_order page).mpr hg)
  -- The page has no mark that the load would take.
  have hclear : s.mem.ghostColdClear page = s.mem := if_neg (Bool.not_eq_true _ ▸ hnot)
  have hload : s.mem.next (.load page) =
      some (s.mem.setPage page { s.mem.cmt page with pt := true, cntMap := true }) := by
    have hif : s.mem.next (.load page) = some (s.mem.load page) := if_pos hpage
    rw [hif]
    unfold Mem.load
    rw [hclear]
  generalize hm : s.mem.setPage page { s.mem.cmt page with pt := true, cntMap := true } = m at hload
  have hghost : ∀ q, m.ghost q = s.mem.ghost q := fun q => by
    rw [← hm, Mem.ghost_setPage]
    split
    · next hq =>
      rw [hq]
      rfl
    · rfl
  have hkeep : s.order.filter (fun q => m.ghost q) = s.order :=
    List.filter_eq_self.mpr fun q hq => (hghost q).trans ((hs.mem_order q).mp hq)
  have hpt : (m.cmt page).pt = true := by
    rw [← hm]
    show (Function.update s.mem.cmt page _ page).pt = true
    rw [Function.update_self]
  refine ⟨m, .step (.load page) hr trivial ?_, ?_, ?_, ?_, ?_, hghost,
    if_pos ⟨hm ▸ hpage, hpt, Bool.not_eq_true _ ▸ (hghost page).trans hnot⟩⟩
  · show (s.mem.next (.load page)).map _ = _
    rw [hload]
    show some (GhostTrace.mk m (s.order.filter (fun q => m.ghost q) ++ [])) = _
    rw [List.append_nil, hkeep]
  all_goals
    rw [← hm]
    rfl

/-- A page without mark and record is loaded and evicted while there is room for it. -/
theorem exists_marked {env₀ : CacheEnv} {n page : Nat} {s : GhostTrace}
    (hr : (ghostMachine env₀ n).Reach markOk s) (hpage : page < s.mem.nrValidTpages)
    (horder : page ∉ s.order) (hrec : page ∉ s.mem.coldFifo.records)
    (hcap : s.mem.nrGhostCold < s.mem.hot.env.ghostColdCap)
    (hring : s.mem.coldFifo.count < s.mem.coldFifo.cap) :
    ∃ s', (ghostMachine env₀ n).Reach markOk s' ∧ s'.mem.hot = s.mem.hot ∧
      s'.mem.nrValidTpages = s.mem.nrValidTpages ∧ s'.mem.nrGhostCold = s.mem.nrGhostCold + 1 ∧
      s'.mem.coldFifo.cap = s.mem.coldFifo.cap ∧
      s'.mem.coldFifo.records = s.mem.coldFifo.records ++ [page] ∧
      s'.order = s.order ++ [page] := by
  have hs := reach_ghostOrdered (fun _ _ => id) hr
  -- The page is loaded first, so that there is something to evict.
  obtain ⟨m, hr₁, hmhot, hmvalid, hmnr, hmfifo, hghost, hevict⟩ := exists_loaded hr hpage horder
  have hs₁ := reach_ghostOrdered (fun _ _ => id) hr₁
  have hmark : page ∉ m.coldFifo.records := by
    rw [hmfifo]
    exact hrec
  refine ⟨_, .step (.evict page) hr₁ hmark (Option.map_eq_some_iff.mpr ⟨_, hevict, rfl⟩), ?_⟩
  obtain ⟨-, -, hcases⟩ := Mem.evict_cases hs₁.wf hs₁.valid hevict
  dsimp only at hcases ⊢
  rw [hmhot] at hcases
  rcases hcases with ⟨hzero, -⟩ | ⟨m₁, -, hm₁, -, hpush, hvalid, hnr, hnew, hother⟩
  · omega
  · -- There is room already.
    rw [hmnr, Mem.evictDownTo_of_lt (by
      show m.nrGhostCold < _
      rw [hmnr]
      exact hcap)] at hm₁
    subst hm₁
    have hfifo : (m.evict page).coldFifo = s.mem.coldFifo.push page := by
      rw [hpush, ← hmfifo]
      rfl
    have hfilter : s.order.filter (fun q => (m.evict page).ghost q) = s.order := by
      refine List.filter_eq_self.mpr fun q hq => ?_
      rw [hother q fun he => horder (he ▸ hq), Mem.ghost_setPage_pt, hghost]
      exact (hs.mem_order q).mp hq
    have hone : newMark (m.evict page) (.evict page) = [page] := if_pos hnew
    have hhot : (m.evict page).hot = m.hot := Mem.ghostColdMark_hot ..
    refine ⟨hhot.trans hmhot, hvalid.trans hmvalid, ?_, ?_, ?_, ?_⟩
    · rw [hnr, ← hmnr]
      rfl
    · rw [hfifo]
      exact GhostFifo.push_cap ..
    · rw [hfifo]
      exact hs.wf.records_push hring page
    · rw [hfilter, hone]

/-- The pages `a .. a + k - 1` one after another. -/
theorem exists_filled {env₀ : CacheEnv} {n : Nat} (k : Nat) {a : Nat} {s : GhostTrace}
    (hr : (ghostMachine env₀ n).Reach markOk s) (hpages : a + k ≤ s.mem.nrValidTpages)
    (hfree : ∀ q, a ≤ q → q ∉ s.order ∧ q ∉ s.mem.coldFifo.records)
    (hcap : s.mem.nrGhostCold + k ≤ s.mem.hot.env.ghostColdCap)
    (hring : s.mem.coldFifo.count + k ≤ s.mem.coldFifo.cap) :
    ∃ s', (ghostMachine env₀ n).Reach markOk s' ∧ s'.mem.hot = s.mem.hot ∧
      s'.mem.nrValidTpages = s.mem.nrValidTpages ∧ s'.mem.nrGhostCold = s.mem.nrGhostCold + k ∧
      s'.mem.coldFifo.records = s.mem.coldFifo.records ++ List.range' a k ∧
      s'.order = s.order ++ List.range' a k := by
  induction k generalizing a s with
  | zero => exact ⟨s, hr, rfl, rfl, rfl, (List.append_nil _).symm, (List.append_nil _).symm⟩
  | succ k ih =>
    have ha := hfree a (Nat.le_refl a)
    obtain ⟨t, ht, hhot, hvalid, hnr, hringcap, hrec, horder⟩ :=
      exists_marked hr (by omega) ha.1 ha.2 (by omega) (by omega)
    have hlen := s.mem.coldFifo.length_records
    have hlen' := t.mem.coldFifo.length_records
    rw [hrec, List.length_append, List.length_singleton] at hlen'
    -- The pages behind `a` are still free of marks and records.
    have hfree' : ∀ q, a + 1 ≤ q → q ∉ t.order ∧ q ∉ t.mem.coldFifo.records := by
      intro q hq
      have hold := hfree q (by omega)
      rw [horder, hrec]
      simp only [List.mem_append, List.mem_singleton, not_or]
      exact ⟨⟨hold.1, by omega⟩, hold.2, by omega⟩
    obtain ⟨s', hs', hhot', hvalid', hnr', hrec', horder'⟩ := ih (a := a + 1) ht
      (by omega) hfree' (by rw [hhot]; omega) (by omega)
    refine ⟨s', hs', hhot'.trans hhot, hvalid'.trans hvalid, by omega, ?_, ?_⟩
    · rw [hrec', hrec, List.append_assoc, List.range'_succ]
      rfl
    · rw [horder', horder, List.append_assoc, List.range'_succ]
      rfl

/-- With exactly `limit` ghosts the oldest record loses its mark, if its page is marked. -/
theorem Mem.unmarked_evictDownTo {m : Mem} {v : Nat} {rest : List Nat} (hwf : m.coldFifo.Wf)
    (hvalid : m.GhostsValid) (hpos : m.nrGhostCold ≠ 0) (hrec : m.coldFifo.records = v :: rest)
    (hv : m.ghost v = true) :
    Unmarked m (m.ghostColdEvictDownTo m.nrGhostCold m.nrGhostCold) v := by
  obtain ⟨n, hn⟩ := Nat.exists_eq_succ_of_ne_zero hpos
  obtain ⟨-, -, hcases⟩ := ghostColdFifoEvict_cases hwf hvalid (Nat.le_refl m.coldFifo.count)
  have hunfold : m.ghostColdEvictDownTo m.nrGhostCold (n + 1) =
      if m.ghostColdFifoEvictOldest.1 then
        m.ghostColdFifoEvictOldest.2.ghostColdEvictDownTo m.nrGhostCold n
      else m.ghostColdFifoEvictOldest.2 := if_pos (Nat.le_refl _)
  -- The number of ghosts is more than the cap, so one step is made at least.
  have hfuel : m.ghostColdEvictDownTo m.nrGhostCold m.nrGhostCold =
      m.ghostColdEvictDownTo m.nrGhostCold (n + 1) := congrArg _ hn
  rcases hcases with ⟨pre, u, hsplit, hpre, hdone, hu⟩ | ⟨hall, -⟩
  · -- Nothing stands in front of the oldest record.
    have huv : u = v := by
      cases pre with
      | nil => exact (List.cons.inj (hrec.symm.trans hsplit)).1.symm
      | cons q pre =>
        have hq : v = q := (List.cons.inj (hrec.symm.trans hsplit)).1
        exact absurd (hv.symm.trans (hpre v (hq ▸ List.mem_cons_self ..))) (by decide)
    subst huv
    have hdone : m.ghostColdFifoEvictOldest.1 = true := hdone
    have hu : Unmarked m m.ghostColdFifoEvictOldest.2 u := hu
    rw [hfuel, hunfold, if_pos hdone, evictDownTo_of_lt (by rw [hu.nrGhostCold]; omega)]
    exact hu
  · exact absurd (hv.symm.trans (hall v (hrec ▸ List.mem_cons_self ..))) (by decide)

/-- The cache of a device with 100 cached pages, one of them hot. -/
def oneHotEnv : CacheEnv where
  maxCachedTpages := 99
  maxCachedHotTpages := 1
  maxCachedHotEntries := 512
  maxCachedFullKey := 0
  maxCachedFullKeyBudget := 0
  totalCacheTpages := 100
  hotTpagesCap := 20
  minCachedTpages := 1
  minCachedHotTpages := 1
  chunkTpages := 1
  nHot := 2
  keyEntriesCap := 655360
  keyChunkEntries := 1
  ghostColdCap := 0
  ghostKeyCap := 0
  verifyCache := true

theorem cacheEnvInit_oneHot : cacheEnvInit true 99 1 0 = some oneHotEnv := by decide

/-- The memory after its bootstrap, over 2048 pages. -/
def oneHotTrace : GhostTrace :=
  ⟨.create { oneHotEnv with ghostColdCap := 1024, ghostKeyCap := 512 } 2048, []⟩

theorem oneHotTrace_init : (ghostMachine oneHotEnv 2048).init oneHotTrace :=
  ⟨⟨{ oneHotEnv with ghostColdCap := 1024, ghostKeyCap := 512 }, by decide +kernel, rfl⟩, rfl⟩

/-- A key-cache expansion empties the ring. The page marked before it keeps its mark when the
    1024 ghosts make room. -/
theorem ghost_fifo_counterexample : ¬ ∀ (cold hot key : Nat) (env₀ : CacheEnv) (n : Nat)
    (s : GhostTrace), cacheEnvInit true cold hot key = some env₀ →
    (ghostMachine env₀ n).Reachable s → ∀ page s',
      (ghostMachine env₀ n).next s (.evict page) = some s' →
      ∀ v w, s.Loses s' v → s.Keeps s' w → [v, w].Sublist s.order := by
  intro hclaim
  have hcheck : ((ghostMachine oneHotEnv 2048).exec oneHotTrace
      [.load 0, .evict 0, .expandKey]).any (fun s => decide (s.order = [0] ∧
        s.mem.coldFifo.count = 0 ∧ s.mem.coldFifo.cap = 1024 ∧ s.mem.nrGhostCold = 1 ∧
        s.mem.hot.env.ghostColdCap = 1024 ∧ s.mem.nrValidTpages = 2048)) = true := by
    decide +kernel
  obtain ⟨s₁, hexec, hfacts⟩ := (Option.any_eq_true ..).mp hcheck
  obtain ⟨horder₁, hcount₁, hring₁, hnr₁, hcap₁, hvalid₁⟩ := of_decide_eq_true hfacts
  have hrec₁ := GhostFifo.records_of_count_eq_zero hcount₁
  have hmarks : (ghostMachine oneHotEnv 2048).check (fun s a => match a with
      | .evict page => page ∉ s.mem.coldFifo.records
      | _ => true) oneHotTrace [.load 0, .evict 0, .expandKey] = true := by decide +kernel
  have hr₁ : (ghostMachine oneHotEnv 2048).Reach markOk s₁ := by
    refine (Machine.Reach.init oneHotTrace_init).exec
      ((Machine.along_of_check hmarks).mono ?_) hexec
    intro s a hok
    cases a with
    | evict page =>
      have hnot : page ∉ s.mem.coldFifo.records := of_decide_eq_true hok
      exact hnot
    | _ => trivial
  -- Pages 1 to 1023 fill the ghosts up to the cap.
  obtain ⟨s₂, hr₂, hhot₂, hvalid₂, hnr₂, hrec₂, horder₂⟩ := exists_filled 1023 (a := 1) hr₁
    (by omega) (by
      intro q hq
      rw [horder₁, hrec₁, List.mem_singleton]
      exact ⟨by omega, by simp⟩) (by omega) (by omega)
  rw [hrec₁, List.nil_append] at hrec₂
  rw [horder₁] at horder₂
  have hfree : 1024 ∉ s₂.order := by
    rw [horder₂]
    simp
  obtain ⟨m, hr₃, hhot₃, -, hnr₃, hfifo₃, hghost₃, hevict⟩ := exists_loaded hr₂ (by omega) hfree
  have hs₂ := reach_ghostOrdered (fun _ _ => id) hr₂
  have hs₃ := reach_ghostOrdered (fun _ _ => id) hr₃
  have hnr : m.nrGhostCold = m.hot.env.ghostColdCap := by
    rw [hhot₃, hhot₂, hnr₃, hnr₂, hnr₁, hcap₁]
  have hrec₃ : m.coldFifo.records = 1 :: List.range' 2 1022 := by
    rw [hfifo₃, hrec₂, List.range'_succ]
  have hmarked : ∀ q, q ∈ s₂.order → m.ghost q = true := fun q hq =>
    (hghost₃ q).trans ((hs₂.mem_order q).mp hq)
  have hzero : 0 ∈ s₂.order := by
    rw [horder₂]
    exact List.mem_cons_self ..
  have hone : 1 ∈ s₂.order := by
    rw [horder₂]
    simp
  -- The oldest record is the one of page 1.
  have hlost : (m.evict 1024).ghost 1 = false ∧ (m.evict 1024).ghost 0 = true := by
    obtain ⟨-, -, hcases⟩ := Mem.evict_cases hs₃.wf hs₃.valid hevict
    rcases hcases with ⟨hnone, -⟩ | ⟨m₁, hpos, hm₁, -, -, -, -, -, hother⟩
    · dsimp only at hnone
      omega
    · have hdown := Mem.room_setPage hs₃.wf 1024 false
      have hsame := Mem.ghost_setPage_pt m 1024 false
      have hun := Mem.unmarked_evictDownTo hdown.wf (hdown.valid hs₃.valid) (hnr ▸ hpos) hrec₃
        ((hsame 1).trans (hmarked 1 hone))
      have hm₁ : m₁ = (m.setPage 1024 { m.cmt 1024 with pt := false }).ghostColdEvictDownTo
          m.nrGhostCold m.nrGhostCold := hnr ▸ hm₁
      rw [hother 1 (by decide), hother 0 (by decide), hm₁]
      exact ⟨hun.ghost_self,
        (hun.ghost_of_ne (by decide)).trans ((hsame 0).trans (hmarked 0 hzero))⟩
  have hsub := hclaim 99 1 0 oneHotEnv 2048 ⟨m, s₂.order⟩ cacheEnvInit_oneHot hr₃.reachable 1024 _
    (Option.map_eq_some_iff.mpr ⟨_, hevict, rfl⟩) 1 0 ⟨hmarked 1 hone, hlost.1⟩
    ⟨hmarked 0 hzero, hlost.2⟩
  rw [horder₂] at hsub
  cases hsub with
  | cons _ hsub =>
    have hmem := hsub.subset (show 0 ∈ [1, 0] by simp)
    simp at hmem

end AggreKV.HashKv
