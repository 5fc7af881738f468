import AggreKV.BlockSsd.ReadAfterWrite
import Mathlib.Data.Set.Card

/-! # Who owns the valid data pages of the block SSD

    Every valid page of the DATA partition belongs to one logical slot, or to
    an entry of the batch that is being flushed, and the counter by which a
    collection picks its victim counts them.

    * `Store.slotsIn`: the logical slots whose blocks lie in a superblock.
    * `DataOk.validCnt_eq`: slots and pages of the batch add up to `valid_cnt`.
    * `page_owners`: the pages and their owners in every reachable state. -/

namespace AggreKV.BlockSsd

open HashKv (Pte)

variable {cfg : Settings} {fp : Key → UInt32}

/-! ## Section 1: Counting by superblock -/

/-- The logical slots mapped to pages of superblock `i`. -/
def Store.slotsIn (cfg : Settings) (s : Store) (i : Nat) : Set Nat :=
  {l | ∃ p, (s.cold.memTable l).ppa = some p ∧ p / cfg.pps = i}

/-- The pages of superblock `i` that belong to the batch. -/
def batchIn (cfg : Settings) (B : Nat → Prop) (i : Nat) : Set Nat := {p | B p ∧ p / cfg.pps = i}

/-- The valid pages of superblock `i`, as a finite set. -/
theorem Bm.coe_livePages (bm : Bm) (i : Nat) :
    ↑(bm.livePages cfg i).toFinset = {p | p / cfg.pps = i ∧ bm.validBitmap p = true} := by
  ext p
  simp [Bm.mem_livePages]

namespace DataOk

variable {B : Nat → Prop} {s : Store}

/-- The valid pages of a superblock: those of its slots, and those of the batch. -/
theorem live_eq (h : DataOk cfg B s) {i : Nat} (hi : InZone cfg .data i) :
    {p | p / cfg.pps = i ∧ s.bm.validBitmap p = true} =
      {p | (∃ l, (s.cold.memTable l).ppa = some p) ∧ p / cfg.pps = i} ∪ batchIn cfg B i := by
  ext p
  constructor
  · rintro ⟨hp, hv⟩
    by_cases hB : B p
    · exact Or.inr ⟨hB, hp⟩
    · exact Or.inl ⟨⟨_, h.live p (hp.symm ▸ hi) hv hB⟩, hp⟩
  · rintro (⟨⟨l, hl⟩, hp⟩ | ⟨hB, hp⟩)
    · exact ⟨hp, (h.mapped l p hl).2.1⟩
    · exact ⟨hp, (h.batch p hB).2.1⟩

/-- The pages of the slots are as many as the slots: the label of a page names its slot. -/
theorem ncard_slotsIn (h : DataOk cfg B s) (i : Nat) :
    (s.slotsIn cfg i).ncard =
      {p | (∃ l, (s.cold.memTable l).ppa = some p) ∧ p / cfg.pps = i}.ncard := by
  have himage : s.slotsIn cfg i = (fun p => (s.bm.oob p).lpa) ''
      {p | (∃ l, (s.cold.memTable l).ppa = some p) ∧ p / cfg.pps = i} := by
    ext l
    constructor
    · rintro ⟨p, hl, hp⟩
      exact ⟨p, ⟨⟨l, hl⟩, hp⟩, (h.mapped l p hl).2.2.1⟩
    · rintro ⟨p, ⟨⟨l', hl'⟩, hp⟩, ho⟩
      have hll : l' = l := (h.mapped l' p hl').2.2.1.symm.trans ho
      exact ⟨p, hll ▸ hl', hp⟩
  rw [himage]
  apply Set.InjOn.ncard_image
  rintro p ⟨⟨l, hl⟩, -⟩ q ⟨⟨l', hl'⟩, -⟩ hpq
  have hll : l = l' := by
    rw [← (h.mapped l p hl).2.2.1, ← (h.mapped l' q hl').2.2.1]
    exact hpq
  rw [hll, hl'] at hl
  exact (Option.some.inj hl).symm

/-- `valid_cnt` counts the slots in a superblock and the pages of the batch. -/
theorem validCnt_eq (h : DataOk cfg B s) {i : Nat} (hi : InZone cfg .data i) :
    (s.bm.sblk i).validCnt = (s.slotsIn cfg i).ncard + (batchIn cfg B i).ncard := by
  have hlive := (s.bm.coe_livePages i).trans (h.live_eq hi)
  have hfin := (s.bm.livePages cfg i).toFinset.finite_toSet
  rw [hlive] at hfin
  rw [h.tidy.counted i hi, ← Bm.length_livePages,
    ← List.toFinset_card_of_nodup (s.bm.nodup_livePages i), ← Set.ncard_coe_finset, hlive,
    h.ncard_slotsIn]
  apply Set.ncard_union_eq ?_ (hfin.subset Set.subset_union_left)
    (hfin.subset Set.subset_union_right)
  rw [Set.disjoint_left]
  rintro p ⟨⟨l, hl⟩, -⟩ ⟨hB, -⟩
  exact (h.mapped l p hl).2.2.2.2 hB

end DataOk

/-! ## Section 2: Every reachable state -/

/-- The valid pages of the DATA partition and their owners. -/
structure PageOwners (cfg : Settings) (f : Ftl) : Prop where
  slot : ∀ l p, (f.store.cold.memTable l).ppa = some p →
    InZone cfg .data (p / cfg.pps) ∧ f.store.bm.validBitmap p = true ∧
      (f.store.bm.oob p).lpa = l ∧ (f.store.bm.oob p).length = 1
  entry : ∀ e ∈ f.pending, ∀ p, e.ppa = some p →
    InZone cfg .data (p / cfg.pps) ∧ f.store.bm.validBitmap p = true ∧
      ∀ l, (f.store.cold.memTable l).ppa ≠ some p
  owner : ∀ p, InZone cfg .data (p / cfg.pps) → f.store.bm.validBitmap p = true →
    (∃ e ∈ f.pending, e.ppa = some p) ∨
      (f.store.cold.memTable (f.store.bm.oob p).lpa).ppa = some p
  counter : ∀ i, InZone cfg .data i → (f.store.bm.sblk i).validCnt =
    (f.store.slotsIn cfg i).ncard + (batchIn cfg (pagesOf f.pending) i).ncard
  settled : f.phase = .idle → ∀ i, InZone cfg .data i →
    (f.store.bm.sblk i).validCnt = (f.store.slotsIn cfg i).ncard

/-- The invariant of the store says who owns which page. -/
theorem Durable.pageOwners {f : Ftl} (h : Durable cfg fp f) : PageOwners cfg f where
  slot l p hl := by
    obtain ⟨hz, hv, ho, hlen, -⟩ := h.core.data.mapped l p hl
    exact ⟨hz, hv, ho, hlen⟩
  entry e he p hp := by
    obtain ⟨hz, hv, -⟩ := h.core.data.batch p ⟨e, he, hp⟩
    exact ⟨hz, hv, fun l hl => (h.core.data.mapped l p hl).2.2.2.2 ⟨e, he, hp⟩⟩
  owner p hz hv := by
    by_cases hB : pagesOf f.pending p
    · exact Or.inl hB
    · exact Or.inr (h.core.data.live p hz hv hB)
  counter i hi := h.core.data.validCnt_eq hi
  settled hp i hi := by
    -- Between two operations no entry of the buffer has a page.
    have hphase := h.phase
    rw [Ftl.PhaseOk, hp] at hphase
    have hpend : f.pending = f.wb := by rw [Ftl.pending, hp]
    have hempty : batchIn cfg (pagesOf f.pending) i = ∅ := by
      rw [Set.eq_empty_iff_forall_notMem]
      rintro p ⟨⟨e, he, hep⟩, -⟩
      rw [hpend] at he
      rw [hphase.ppa e he] at hep
      cases hep
    rw [h.core.data.validCnt_eq hi, hempty, Set.ncard_empty, Nat.add_zero]

/-- In every run in which no flushed set is lost, each valid data page has one owner: the
    slot that its label names, or an entry whose mapping is still to be updated. -/
theorem page_owners {f : Ftl}
    (h : (machine cfg fp).Reach (fun f a => durableStep cfg f a = true) f) : PageOwners cfg f :=
  (reach_durable h).pageOwners

/-- The first flush after the mapping of one of its two entries. -/
theorem page_owners_halfway : ∃ f : Ftl,
    (f.store.cold.memTable 0).ppa.isSome = true ∧ f.pending.length = 1 ∧ PageOwners onePage f := by
  obtain ⟨f, hf, hp⟩ := exists_reach_of_run onePage (fun _ => 7) (durableStep onePage)
    (firstFlush.take 8)
    (fun f => (f.store.cold.memTable 0).ppa.isSome = true ∧ f.pending.length = 1)
    (by decide +kernel) (by decide +kernel)
  obtain ⟨hs, hl⟩ := of_decide_eq_true hp
  exact ⟨f, hs, hl, page_owners hf⟩

end AggreKV.BlockSsd
