import AggreKV.HashKv.Buffer
import AggreKV.HashKv.Completion
import AggreKV.HashKv.Partition

/-! # Which pages a flush programs

    The flush of the segregated build programs the pages on the flush
    lists of the streams. A page gets there when the assignment opens it;
    a page that a stream still has open is filled without being listed.

    * `Listed`: while the assignment only fills pages that it has opened
      itself, the pages of all placed entries are listed.
    * `skippedPage_counterexample`: a page left open by the last batch. -/

namespace AggreKV.HashKv

variable {cfg : Settings} {hs : Hashing}

/-! ## Section 1: Flush lists -/

/-- The segment holds the page. -/
def FlushNode.covers (nd : FlushNode) (ppa : Nat) : Bool := nd.ppa ≤ ppa && ppa < nd.ppa + nd.length

/-- The pages of a segment. -/
theorem FlushNode.covers_iff {nd : FlushNode} {ppa : Nat} :
    nd.covers ppa = true ↔ nd.ppa ≤ ppa ∧ ppa < nd.ppa + nd.length := by
  simp [FlushNode.covers]

/-- An appended page is listed, and what was listed stays. -/
theorem flushAppend_spec {fl : List FlushNode} {ppa : Nat} :
    (∀ nd ∈ fl, ∀ q, nd.covers q = true →
      ∃ nd' ∈ flushAppend fl ppa fun nd => ppa = nd.ppa + nd.length, nd'.covers q = true) ∧
    (∃ nd ∈ flushAppend fl ppa fun nd => ppa = nd.ppa + nd.length, nd.covers ppa = true) ∧
    ∀ nd ∈ flushAppend fl ppa fun nd => ppa = nd.ppa + nd.length,
      nd.ppa = ppa ∨ ∃ nd' ∈ fl, nd.ppa = nd'.ppa := by
  have hnew : FlushNode.covers ⟨ppa, 1⟩ ppa = true :=
    FlushNode.covers_iff.mpr ⟨Nat.le_refl _, by simp⟩
  unfold flushAppend
  split
  · next last hlast =>
    have hfl : fl.dropLast ++ [last] = fl := List.dropLast_append_getLast? last hlast
    split
    -- The page is behind the last segment, which grows.
    · next hj =>
      have hj := of_decide_eq_true hj
      refine ⟨fun nd hnd q hq => ?_, ⟨_, List.mem_append_right _ (List.mem_singleton_self _), ?_⟩,
        fun nd hnd => ?_⟩
      · rw [← hfl] at hnd
        rcases List.mem_append.mp hnd with hnd | hnd
        · exact ⟨nd, List.mem_append_left _ hnd, hq⟩
        · rw [List.mem_singleton.mp hnd] at hq
          refine ⟨_, List.mem_append_right _ (List.mem_singleton_self _), ?_⟩
          rw [FlushNode.covers_iff] at hq ⊢
          exact ⟨hq.1, by dsimp only; omega⟩
      · rw [FlushNode.covers_iff]
        exact ⟨by dsimp only; omega, by dsimp only; omega⟩
      · rcases List.mem_append.mp hnd with hnd | hnd
        · exact Or.inr ⟨nd, List.dropLast_subset _ hnd, rfl⟩
        · rw [List.mem_singleton.mp hnd]
          exact Or.inr ⟨last, hfl ▸ List.mem_append_right _ (List.mem_singleton_self _), rfl⟩
    · refine ⟨fun nd hnd q hq => ⟨nd, List.mem_append_left _ hnd, hq⟩,
        ⟨_, List.mem_append_right _ (List.mem_singleton_self _), hnew⟩, fun nd hnd => ?_⟩
      rcases List.mem_append.mp hnd with hnd | hnd
      · exact Or.inr ⟨nd, hnd, rfl⟩
      · rw [List.mem_singleton.mp hnd]
        exact Or.inl rfl
  · next hnone =>
    rw [List.getLast?_eq_none_iff] at hnone
    subst hnone
    refine ⟨(fun _ hnd => by cases hnd), ⟨_, List.mem_singleton_self _, hnew⟩, fun nd hnd => ?_⟩
    rw [List.mem_singleton.mp hnd]
    exact Or.inl rfl

/-- A program that is not refused meets unprogrammed pages only. -/
theorem ssdWrite_state : ∀ {n : Nat} {ssd ssd' : Ssd} {ppa : Nat},
    ssdWrite cfg ssd ppa n = (ssd', true) → ∀ q,
      (ppa ≤ q ∧ q < ppa + n → ssd.ppaState q = false ∧ ssd'.ppaState q = true) ∧
      (¬(ppa ≤ q ∧ q < ppa + n) → ssd'.ppaState q = ssd.ppaState q)
  | 0, ssd, ssd', ppa, h, q => by
      cases h
      exact ⟨fun hq => by omega, fun _ => rfl⟩
  | n + 1, ssd, ssd', ppa, h, q => by
      unfold ssdWrite at h
      dsimp only at h
      split at h
      · cases h
      · next hfree =>
        simp only [Bool.or_eq_true, not_or] at hfree
        obtain ⟨hin, hout⟩ := ssdWrite_state h q
        dsimp only at hin hout
        by_cases hq : q = ppa
        · subst hq
          have hsame := hout (by omega)
          rw [Function.update_self] at hsame
          exact ⟨fun _ => ⟨by simpa using hfree.1, hsame⟩,
            fun hn => absurd ⟨Nat.le_refl _, by omega⟩ hn⟩
        · rw [Function.update_of_ne hq] at hin hout
          exact ⟨fun hr => hin (by omega), fun hr => hout (by omega)⟩

/-- A flush that is not refused programs each listed page once. -/
theorem flushSegs_state : ∀ {fl : List FlushNode} {ssd ssd' : Ssd},
    (∀ nd ∈ fl, nd.ppa ≠ 0) → flushSegs cfg ssd fl = some ssd' → ∀ q,
      ((∃ nd ∈ fl, nd.covers q = true) → fl.countP (fun nd => nd.covers q) = 1 ∧
        ssd.ppaState q = false ∧ ssd'.ppaState q = true) ∧
      ((¬∃ nd ∈ fl, nd.covers q = true) → ssd'.ppaState q = ssd.ppaState q)
  | [], ssd, ssd', _, h, q => by
      cases h
      refine ⟨fun ⟨_, hnd, _⟩ => ?_, fun _ => rfl⟩
      cases hnd
  | nd :: fl, ssd, ssd', hne, h, q => by
      unfold flushSegs at h
      rw [if_neg (hne nd (List.mem_cons_self ..))] at h
      dsimp only at h
      split at h
      · next hok =>
        obtain ⟨hin, hout⟩ := flushSegs_state (fun x hx => hne x (List.mem_cons_of_mem _ hx)) h q
        obtain ⟨hwin, hwout⟩ := @ssdWrite_state cfg _ _ _ _ (Prod.ext rfl hok) q
        by_cases hq : nd.covers q = true
        · -- The rest of the list leaves the page alone, or it would be refused.
          obtain ⟨hbefore, hafter⟩ := hwin (FlushNode.covers_iff.mp hq)
          have hrest : ¬∃ x ∈ fl, x.covers q = true := fun hx => by
            have hfalse := (hin hx).2.1
            rw [hafter] at hfalse
            cases hfalse
          have hzero : fl.countP (fun x => x.covers q) = 0 :=
            List.countP_eq_zero.mpr fun x hx hc => hrest ⟨x, hx, hc⟩
          refine ⟨fun _ => ⟨?_, hbefore, (hout hrest).trans hafter⟩,
            fun hn => absurd ⟨nd, List.mem_cons_self .., hq⟩ hn⟩
          rw [List.countP_cons_of_pos (by exact hq), hzero]
        -- A page outside of this segment is left to the rest.
        · have hsame := hwout fun hc => hq (FlushNode.covers_iff.mpr hc)
          refine ⟨fun ⟨x, hx, hc⟩ => ?_, fun hn => ?_⟩
          · have hx' : x ∈ fl := by
              rcases List.mem_cons.mp hx with rfl | hx
              · exact absurd hc hq
              · exact hx
            obtain ⟨hcount, hbefore, hafter⟩ := hin ⟨x, hx', hc⟩
            rw [List.countP_cons_of_neg (by exact hq)]
            exact ⟨hcount, hsame ▸ hbefore, hafter⟩
          · exact (hout fun ⟨x, hx, hc⟩ => hn ⟨x, List.mem_cons_of_mem _ hx, hc⟩).trans hsame
      · cases h

/-! ## Section 2: The room in the open pages -/

/-- No stream has more room than a page. -/
def Roomy (bm : Bm) : Prop := ∀ idx, (bm.stream idx).grainRemain ≤ 4

/-- The room of a stream is in its cursor. -/
theorem SameCursors.roomy {bm bm' : Bm} (h : SameCursors bm bm') (hr : Roomy bm) : Roomy bm' := by
  unfold Roomy
  rw [h.stream]
  exact hr

theorem Roomy.setStream {bm : Bm} (h : Roomy bm) (idx : Nat) {st : Stream}
    (hst : st.grainRemain ≤ 4) : Roomy (bm.setStream idx st) := by
  intro i
  show (Function.update bm.stream idx st i).grainRemain ≤ 4
  by_cases hi : i = idx
  · subst hi
    rw [Function.update_self]
    exact hst
  · rw [Function.update_of_ne hi]
    exact h i

theorem StreamOpened.roomy {bm bm' : Bm} {idx i : Nat} (ho : StreamOpened cfg bm idx i bm')
    (h : Roomy bm) : Roomy bm' := by
  intro j
  by_cases hj : j = idx
  · subst hj
    exact Nat.le_trans ho.room (h j)
  · rw [ho.others j hj]
    exact h j

/-- The write loop takes one grain of a page that has room. -/
theorem Roomy.writeItems {s s' : Store} {target : Nat} {pages : List Nat} {items : List GcItem}
    {nodes : List GcNode} (hds : cfg.dataSegregation = true) (z : s.Zoned cfg) (h : Roomy s.bm)
    (hw : writeItems cfg s target pages items = some (s', nodes)) : Roomy s'.bm := by
  unfold HashKv.writeItems at hw
  split at hw
  · cases hw
    exact h
  · obtain ⟨s₁, cur, ssd, hl, rfl⟩ := writeItemsStream_spec hw
    generalize victimStream s.bm target = idx at hl
    refine (gcWriteLoop_invariant (P := fun s _ => s.Zoned cfg ∧ Roomy s.bm)
      (Q := fun s _ => (s.Zoned cfg ∧ Roomy s.bm) ∧ (s.bm.stream idx).grainRemain ≠ 0)
      (R := fun _ _ => True) ?_ ?_ ⟨z, h⟩ hl).1.2
    -- Opening a page gives it four grains of room.
    · intro s cur s' cur' hP hp
      obtain ⟨hz, hne⟩ := gcPage_zoned hds hP.1 hp
      refine ⟨⟨hz, ?_⟩, hne⟩
      unfold gcPage at hp
      split at hp
      · obtain ⟨a, bm, offt, ho, -, hbm, -⟩ := gcOpenPage_spec hds hP.1.toZoned hp
        rw [hbm]
        have hopen : Roomy (getPageNum cfg bm a).2 := ho.roomy hP.2
        exact hopen.setStream idx (Nat.le_refl 4)
      · cases hp
        exact hP.2
    · intro s cur it s' n hQ hp
      refine ⟨⟨gcPlace_zoned hQ.1.1 hQ.2 hp, ?_⟩, trivial⟩
      obtain ⟨bm, hb, rfl, -⟩ := gcPlace_spec hp
      have hle := hQ.1.2 idx
      refine (placeItem_blocks hb).cursors.roomy (hQ.1.2.setStream idx ?_)
      show sub32 (s.bm.stream idx).grainRemain 1 ≤ 4
      rw [sub32_of_le (Nat.pos_of_ne_zero hQ.2) (by omega)]
      omega

/-- A collection leaves room in the pages it opens. -/
theorem Roomy.dpageGc {s s' : Store} {idx : Nat} (hds : cfg.dataSegregation = true)
    (z : s.Zoned cfg) (h : Roomy s.bm) (hg : dpageGc cfg s idx = some s') : Roomy s'.bm := by
  unfold HashKv.dpageGc at hg
  simp only [Option.bind_eq_bind, Option.bind_eq_some_iff, Option.pure_def, Option.some.injEq] at hg
  obtain ⟨target, ht, ⟨bm, items⟩, hc, ⟨s₁, nodes⟩, h₁, s₂, h₂, rfl⟩ := hg
  have hcur := (collectPages_blocks hc).cursors
  have z₀ : Store.Zoned cfg { s with bm := bm } := z.congr ⟨hcur, rfl, rfl⟩
  have hr₁ : Roomy s₁.bm := Roomy.writeItems hds z₀ (hcur.roomy h) h₁
  have hr₂ := (SameDataPath.bulkMappingUpdate h₂).cursors.roomy hr₁
  unfold retireVictim
  rw [if_pos hds]
  dsimp only
  split
  · exact hr₂
  · exact hr₂

/-- The page an entry of stream `idx` is placed in: a page of the stream that has room,
    opened now and listed, or the one it had open. -/
structure PagePicked (cfg : Settings) (s : Store) (fl : Nat → List FlushNode)
    (idx : Nat) (s' : Store)
    (fl' : Nat → List FlushNode) (ppa : Nat) : Prop where
  zoned : s'.Zoned cfg
  roomy : Roomy s'.bm
  data : cfg.dataPage ≤ ppa
  current : (s'.bm.stream idx).activePpa = ppa
  room : (s'.bm.stream idx).grainRemain ≠ 0
  origin : ((s.bm.stream idx).grainRemain = 0 ∧ (s'.bm.stream idx).grainRemain = 4 ∧
      fl' = Function.update fl idx
        (flushAppend (fl idx) ppa fun nd => ppa = nd.ppa + nd.length)) ∨
    ((s'.bm.stream idx).grainRemain = (s.bm.stream idx).grainRemain ∧ fl' = fl ∧
      ppa = (s.bm.stream idx).activePpa)

/-- A page is opened now and listed, or the stream has one open. -/
theorem assignPage_spec {s s' : Store} {fl fl' : Nat → List FlushNode} {idx ppa : Nat}
    (hds : cfg.dataSegregation = true) (z : s.Zoned cfg) (h : Roomy s.bm)
    (ha : assignPage cfg s fl idx = some (s', fl', ppa)) : PagePicked cfg s fl idx s' fl' ppa := by
  unfold assignPage at ha
  split at ha
  -- The stream has no room left: a page is allocated and listed.
  · next hrem =>
    simp only [Option.bind_eq_bind, Option.bind_eq_some_iff] at ha
    obtain ⟨⟨p, s₁⟩, h₁, a, hact, he⟩ := ha
    obtain ⟨z₁, hp⟩ := z.dpAlloc (z.toZoned.startable hds) h₁
    have hr₁ : Roomy s₁.bm := by
      unfold dpAlloc at h₁
      rw [if_pos hds] at h₁
      simp only [Option.bind_eq_bind, Option.bind_eq_some_iff] at h₁
      obtain ⟨b, _, s₂, h₂, ⟨i, bm⟩, h₃, he₁⟩ := h₁
      have hz₂ : s₂.Zoned cfg ∧ Roomy s₂.bm := by
        unfold streamGc at h₂
        split at h₂
        · exact ⟨z.dpageGc h₂, h.dpageGc hds z h₂⟩
        · cases h₂
          exact ⟨z, h⟩
      have ho := getStreamSblk_spec hds hz₂.1.toZoned h₃
      cases he₁
      exact ho.roomy hz₂.2
    cases he
    refine ⟨⟨z₁.toZoned.setStream idx (fun b hb => z₁.stream idx b hb) fun _ => hp, z₁.active,
      z₁.reserve⟩, hr₁.setStream idx (Nat.le_refl 4), hp, ?_, ?_, Or.inl ⟨hrem, ?_, rfl⟩⟩
    all_goals simp [Bm.setStream]
  · next hrem =>
    cases ha
    have hne : (s.bm.stream idx).grainRemain ≠ 0 := hrem
    refine ⟨⟨z.toZoned.setStream idx (fun b hb => z.stream idx b hb) fun _ => z.page idx hne,
      z.active, z.reserve⟩, h.setStream idx (h idx), z.page idx hne, ?_, ?_,
      Or.inr ⟨?_, rfl, rfl⟩⟩
    · simp [Bm.setStream]
    · simpa [Bm.setStream] using hne
    · simp [Bm.setStream]

/-! ## Section 3: Listed pages -/

/-- Some stream lists the page. -/
def ListsPage (fl : Nat → List FlushNode) (ppa : Nat) : Prop :=
  ∃ idx < 8, ∃ nd ∈ fl idx, nd.covers ppa = true

/-- The grains of a placed entry lie in one page, which is listed. -/
def EntryListed (fl : Nat → List FlushNode) (e : WbEntry) : Prop :=
  ∀ p, e.ppa = some p → p % 4 + e.valLen ≤ 4 ∧ ListsPage fl (p / 4)

def Phase.Listed (f : Ftl) : Phase → Prop
  | .assigning m => (∀ e ∈ f.wb, EntryListed f.flStream e) ∧
      ∀ i < m.done, ∀ e, f.wb[i]? = some e → e.ppa ≠ none
  | .mapping _ => ∀ e ∈ f.wb, EntryListed f.flStream e ∧ e.ppa ≠ none
  | _ => True

structure Listed (cfg : Settings) (f : Ftl) : Prop where
  buffered : Buffered cfg f
  zoned : f.store.Zoned cfg
  roomy : Roomy f.store.bm
  nonzero : ∀ idx, ∀ nd ∈ f.flStream idx, nd.ppa ≠ 0
  phase : f.phase.Listed f

/-- An entry goes to a new page, or it fits a page that this batch has opened. -/
def continuesListed (cfg : Settings) (f : Ftl) (a : Label) : Bool :=
  match a, f.phase with
  | .assign, .assigning m =>
    match f.wb[m.done]? with
    | some e =>
      let idx := dIdx (getLpa cfg e.hParams) % 8
      let st := f.store.bm.stream idx
      cfg.maxWriteBuf ≤ m.done || st.grainRemain = 0 ||
        e.valLen ≤ st.grainRemain && (f.flStream idx).any fun nd => nd.covers st.activePpa
    | none => true
  | _, _ => true

/-- Page 0 belongs to the map partition. -/
theorem dataPage_pos (cfg : Settings) : 0 < cfg.dataPage :=
  Nat.mul_pos (Nat.succ_pos _) cfg.pps_pos

/-- Listing a further page keeps the others listed. -/
theorem ListsPage.append {fl : Nat → List FlushNode} {ppa : Nat} (h : ListsPage fl ppa)
    (idx q : Nat) : ListsPage (Function.update fl idx
      (flushAppend (fl idx) q fun nd => q = nd.ppa + nd.length)) ppa := by
  obtain ⟨i, hi, nd, hnd, hc⟩ := h
  by_cases hidx : i = idx
  · subst hidx
    obtain ⟨nd', hnd', hc'⟩ := flushAppend_spec.1 nd hnd ppa hc
    exact ⟨i, hi, nd', by rwa [Function.update_self], hc'⟩
  · exact ⟨i, hi, nd, by rwa [Function.update_of_ne hidx], hc⟩

/-- What the choice of a page keeps of the flush lists. -/
theorem PagePicked.lists {s s' : Store} {fl fl' : Nat → List FlushNode} {idx ppa : Nat}
    (h : PagePicked cfg s fl idx s' fl' ppa) :
    (∀ q, ListsPage fl q → ListsPage fl' q) ∧
      ((∀ i, ∀ nd ∈ fl i, nd.ppa ≠ 0) → ∀ i, ∀ nd ∈ fl' i, nd.ppa ≠ 0) := by
  rcases h.origin with ⟨-, -, rfl⟩ | ⟨-, rfl, -⟩
  · refine ⟨fun q hq => hq.append idx ppa, fun hne i nd hnd => ?_⟩
    by_cases hi : i = idx
    · subst hi
      rw [Function.update_self] at hnd
      rcases flushAppend_spec.2.2 nd hnd with he | ⟨nd', hnd', he⟩
      · rw [he]
        exact Nat.pos_iff_ne_zero.mp (Nat.lt_of_lt_of_le (dataPage_pos cfg) h.data)
      · rw [he]
        exact hne i nd' hnd'
    · rw [Function.update_of_ne hi] at hnd
      exact hne i nd hnd
  · exact ⟨fun _ hq => hq, fun hne => hne⟩

/-- Placing an entry in a page that is opened now, or listed and roomy enough. -/
theorem Listed.assignEntry {f : Ftl} {m : Assign} {e : WbEntry} {s : Store}
    {fl : Nat → List FlushNode} {pga : Nat} (hds : cfg.dataSegregation = true) (h : Listed cfg f)
    (hp : f.phase = .assigning m) (hdone : m.done < cfg.maxWriteBuf)
    (he : f.wb[m.done]? = some e) (hok : continuesListed cfg f .assign = true)
    (ha : assignEntry cfg f.store f.flStream e = some (s, fl, pga)) :
    s.Zoned cfg ∧ Roomy s.bm ∧ (∀ i, ∀ nd ∈ fl i, nd.ppa ≠ 0) ∧
      (∀ q, ListsPage f.flStream q → ListsPage fl q) ∧
      pga % 4 + e.valLen ≤ 4 ∧ ListsPage fl (pga / 4) := by
  unfold HashKv.assignEntry at ha
  simp only [Option.bind_eq_bind, Option.bind_eq_some_iff] at ha
  obtain ⟨⟨s₁, fl₁, ppa⟩, h₁, bm, hb, hret⟩ := ha
  cases hret
  have hpick := assignPage_spec hds h.zoned h.roomy h₁
  have hpos : 0 < e.valLen := valLen_pos e.key e.bytes
  have hshort := h.buffered.short e (List.mem_of_getElem? he)
  have hidx : dIdx (getLpa cfg e.hParams) % 8 < 8 := Nat.mod_lt _ (by decide)
  simp only [continuesListed, hp, he, Nat.not_le.mpr hdone, decide_false, Bool.false_or,
    Bool.or_eq_true, Bool.and_eq_true, decide_eq_true_eq, List.any_eq_true] at hok
  dsimp only at hb hpick ⊢
  generalize dIdx (getLpa cfg e.hParams) % 8 = idx at *
  have hle := hpick.roomy idx
  have hroom := hpick.room
  -- The page has room for the entry and is listed.
  have hfit : e.valLen ≤ (s₁.bm.stream idx).grainRemain ∧ ListsPage fl₁ ppa := by
    -- A page opened now has four grains; the open one meets the condition of the step.
    rcases hpick.origin with ⟨hzero, hfour, rfl⟩ | ⟨hsame, rfl, rfl⟩
    · refine ⟨by omega, idx, hidx, ?_⟩
      rw [Function.update_self]
      exact flushAppend_spec.2.1
    · have hne : (f.store.bm.stream idx).grainRemain ≠ 0 := hsame ▸ hroom
      obtain ⟨hv, hl⟩ := hok.resolve_left hne
      exact ⟨hsame ▸ hv, idx, hidx, hl⟩
  have hoff : sub32 4 (s₁.bm.stream idx).grainRemain = 4 - (s₁.bm.stream idx).grainRemain :=
    sub32_of_le hle (by decide)
  rw [hoff]
  have hdiv : ppaToPga ppa (4 - (s₁.bm.stream idx).grainRemain) / 4 = ppa := by
    unfold ppaToPga
    omega
  have hcur := (placeItem_blocks hb).cursors
  refine ⟨⟨Zoned.congr ?_ hcur, hpick.zoned.active, hpick.zoned.reserve⟩, hcur.roomy ?_,
    hpick.lists.2 h.nonzero, hpick.lists.1, ?_, by rw [hdiv]; exact hfit.2⟩
  · exact hpick.zoned.toZoned.setStream idx (fun a hact => hpick.zoned.stream idx a hact)
      fun _ => hpick.zoned.page idx hroom
  · refine hpick.roomy.setStream idx ?_
    show sub32 (s₁.bm.stream idx).grainRemain e.valLen ≤ 4
    rw [sub32_of_le hfit.1 (by omega)]
    omega
  · have := hfit.1
    unfold ppaToPga
    omega

/-- The entry that the assignment has just placed. -/
theorem EntryListed.setPpa {fl fl' : Nat → List FlushNode} {wb : List WbEntry} {e x : WbEntry}
    {pga : Nat} (hsorted : WbSorted wb) (he : e ∈ wb)
    (hmono : ∀ q, ListsPage fl q → ListsPage fl' q) (hwb : ∀ y ∈ wb, EntryListed fl y)
    (hnew : pga % 4 + e.valLen ≤ 4 ∧ ListsPage fl' (pga / 4)) (hx : x ∈ wbSetPpa wb e.key pga) :
    EntryListed fl' x := by
  obtain ⟨y, hy, rfl⟩ := List.mem_map.mp hx
  split
  · next hk =>
    have hye : y = e := List.inj_on_of_nodup_map hsorted.keys_nodup hy he hk
    subst hye
    intro p hp
    cases hp
    exact hnew
  · intro p hp
    obtain ⟨hin, hl⟩ := hwb y hy p hp
    exact ⟨hin, hmono _ hl⟩

/-- Entries of the buffer that the assignment has already placed stay placed. -/
theorem placed_setPpa {wb : List WbEntry} {e : WbEntry} {pga done : Nat}
    (he : wb[done]? = some e) (h : ∀ i < done, ∀ x, wb[i]? = some x → x.ppa ≠ none) :
    ∀ i < done + 1, ∀ x, (wbSetPpa wb e.key pga)[i]? = some x → x.ppa ≠ none := by
  intro i hi x hx
  unfold wbSetPpa at hx
  rw [List.getElem?_map] at hx
  obtain ⟨y, hy, rfl⟩ := Option.map_eq_some_iff.mp hx
  split
  · exact Option.some_ne_none _
  · next hk =>
    by_cases hlt : i < done
    · exact h i hlt y hy
    · have hid : i = done := by omega
      rw [hid, he] at hy
      cases hy
      exact absurd rfl hk

/-- A step keeps the pages of the batch listed. -/
theorem Listed.step {f f' : Ftl} {a : Label} (hds : cfg.dataSegregation = true)
    (h : Listed cfg f) (hok : continuesListed cfg f a = true) (hstep : Step cfg hs f a f') :
    Listed cfg f' := by
  have hbuf := h.buffered.step hstep
  have hphase := h.phase
  have hother : a ≠ .assign → f'.store.Zoned cfg ∧ Roomy f'.store.bm := fun ha => by
    have hp := SameDataPath.of_step hstep ha
    exact ⟨h.zoned.congr hp, hp.cursors.roomy h.roomy⟩
  cases hstep with
  | endAssign m hp hdone =>
    rw [hp] at hphase
    have hlen : f.wb.length = cfg.maxWriteBuf := by
      have hb := h.buffered.phase
      rw [hp] at hb
      exact hb.1
    refine ⟨hbuf, h.zoned, h.roomy, h.nonzero, fun e he => ⟨hphase.1 e he, ?_⟩⟩
    -- Every entry of the buffer has had its turn.
    obtain ⟨i, hi⟩ := List.mem_iff_getElem?.mp he
    have hlt : i < f.wb.length := (List.getElem?_eq_some_iff.mp hi).1
    exact hphase.2 i (by omega) e hi
  | assignEntry m e s fl pga hp hdone hds he ha =>
    rw [hp] at hphase
    obtain ⟨hz, hr, hnz, hmono, hnew⟩ := h.assignEntry hds hp hdone he hok ha
    refine ⟨hbuf, hz, hr, hnz, fun x hx => ?_, placed_setPpa he hphase.2⟩
    exact .setPpa h.buffered.sorted (List.mem_of_getElem? he) hmono hphase.1 hnew hx
  | assignPage m ppa s bm wb hp hdone hds' => exact absurd hds (by simp [hds'])
  | setFull key bytes hp hv hk hfull =>
    obtain ⟨hz, hr⟩ := hother (by simp)
    refine ⟨hbuf, hz, hr, h.nonzero, fun e he p hppa => ?_, fun i hi => ?_⟩
    · have hb := h.buffered.phase
      rw [hp] at hb
      rw [hb e he] at hppa
      cases hppa
    · cases hi
  | flush m ssd hp =>
    obtain ⟨hz, hr⟩ := hother (by simp)
    exact ⟨hbuf, hz, hr, (fun _ _ hnd => by cases hnd), trivial⟩
  | pickRetry i m e hp | pickMaster m e master hp | wbAgain choice m e s e' hp
  | wbParked choice m e s e' hp | wbUpdate choice m e s e' ppa hp
  | wbDirectUpdate choice m e s e' ppa hp =>
    obtain ⟨hz, hr⟩ := hother (by simp)
    rw [hp] at hphase
    exact ⟨hbuf, hz, hr, h.nonzero, hphase⟩
  | getPass choice r s ex hp hd =>
    obtain ⟨hz, hr⟩ := hother (by simp)
    cases ex <;> exact ⟨hbuf, hz, hr, h.nonzero, trivial⟩
  | promote page hp | rehashBegin hp | rehashTick hp =>
    obtain ⟨hz, hr⟩ := hother (by simp)
    refine ⟨hbuf, hz, hr, h.nonzero, ?_⟩
    show f.phase.Listed _
    rw [hp]
    trivial
  | get | resume | setInsert =>
    obtain ⟨hz, hr⟩ := hother (by simp)
    exact ⟨hbuf, hz, hr, h.nonzero, trivial⟩

/-- In every state of such a run the pages of the batch are listed. -/
theorem reach_listed {f : Ftl} (hds : cfg.dataSegregation = true)
    (h : (machine cfg hs).Reach (fun f a => continuesListed cfg f a = true) f) : Listed cfg f := by
  refine h.invariant (fun f ⟨_, hi⟩ => ?_) fun _ _ _ _ ih hok hn => ih.step hds hok (.of_next hn)
  obtain ⟨hz, hroom⟩ := create_zoned hi
  have hb := create_buffered hi
  obtain ⟨s, _, rfl⟩ := Option.map_eq_some_iff.mp hi
  exact ⟨hb, hz, fun idx => by rw [hroom idx]; decide, (fun _ _ hnd => by cases hnd), trivial⟩

/-- While the assignment only fills pages that this batch has opened, every page with a
    grain of the batch is in exactly one segment of the flush lists when the flush starts,
    is not programmed before it and is programmed after it. -/
theorem flush_durable {f f' : Ftl} (hds : cfg.dataSegregation = true)
    (h : (machine cfg hs).Reach (fun f a => continuesListed cfg f a = true) f)
    (hflush : (machine cfg hs).next f .flush = some f') :
    ∀ e ∈ f.wb, ∃ p, e.ppa = some p ∧ ∀ g, p ≤ g → g < p + e.valLen →
      ((List.range 8).flatMap f.flStream).countP (fun nd => nd.covers (g / 4)) = 1 ∧
      f.store.ssd.ppaState (g / 4) = false ∧ f'.store.ssd.ppaState (g / 4) = true := by
  have hl := reach_listed hds h
  have hphase := hl.phase
  have hstep : Step cfg hs f .flush f' := .of_next hflush
  cases hstep with
  | flush m ssd hp hc hu hm hr hf =>
    rw [hp] at hphase
    intro e he
    obtain ⟨hlisted, hne⟩ := hphase e he
    obtain ⟨p, hppa⟩ := Option.ne_none_iff_exists'.mp hne
    refine ⟨p, hppa, fun g hlo hhi => ?_⟩
    obtain ⟨hin, idx, hidx, nd, hnd, hcov⟩ := hlisted p hppa
    have hg : g / 4 = p / 4 := by omega
    have hsegs : f.flushSegments cfg = (List.range 8).flatMap f.flStream := by
      simp [Ftl.flushSegments, hds]
    rw [hsegs] at hf
    have hmem : nd ∈ (List.range 8).flatMap f.flStream :=
      List.mem_flatMap.mpr ⟨idx, List.mem_range.mpr hidx, hnd⟩
    -- No segment starts at page 0, where `ssd_write` would stop.
    have hnz : ∀ nd ∈ (List.range 8).flatMap f.flStream, nd.ppa ≠ 0 := fun nd hnd => by
      obtain ⟨i, _, hi⟩ := List.mem_flatMap.mp hnd
      exact hl.nonzero i nd hi
    rw [hg]
    exact (flushSegs_state hnz hf (p / 4)).1 ⟨nd, hmem, hcov⟩

/-! ## Section 4: Concrete runs -/

/-- A segregated build with a write buffer of two entries. -/
def twoStreams : Settings :=
  .scaled true false 16 60 16 2 4 sixteen_pos nos_sixty sixteen_pos Nat.two_pos four_pos
    grains_fit_sixty

/-- A set that finds the buffer full, up to the flush of two keys that are new to the
    table. -/
def flushTwo (b : UInt8) : List Label :=
  [.set (byteKey b) 100, .assign, .assign, .assign, .pickMaster, .wbPass .keep, .pickMaster,
    .wbPass .keep]

/-- The flush of two keys: every page of both values is listed once, unwritten before the
    flush and written after it. -/
theorem flush_durable_twoStreams : ∃ f f' : Ftl,
    (machine twoStreams pageHash).next f .flush = some f' ∧ f.wb.length = 2 ∧
      ∀ e ∈ f.wb, ∃ p, e.ppa = some p ∧ ∀ g, p ≤ g → g < p + e.valLen →
        ((List.range 8).flatMap f.flStream).countP (fun nd => nd.covers (g / 4)) = 1 ∧
        f.store.ssd.ppaState (g / 4) = false ∧ f'.store.ssd.ppaState (g / 4) = true := by
  obtain ⟨f, hf, hp⟩ := exists_reach_of_run twoStreams pageHash (continuesListed twoStreams)
    ([.set (byteKey 1) 100, .set (byteKey 2) 100] ++ flushTwo 3)
    (fun f => ((machine twoStreams pageHash).next f .flush).isSome && f.wb.length = 2)
    (by decide +kernel) (by decide +kernel)
  simp only [Bool.and_eq_true, decide_eq_true_eq] at hp
  obtain ⟨f', hf'⟩ := Option.isSome_iff_exists.mp hp.1
  exact ⟨f, f', hf', hp.2, flush_durable rfl hf hf'⟩

/-- Key 1 leaves the page of stream 1 open. In the next batch key 9 goes to the same page,
    which is on no list and was programmed by the flush before. -/
theorem skippedPage_counterexample : ∃ f f' : Ftl,
    (machine twoStreams pageHash).Reachable f ∧
      (machine twoStreams pageHash).next f .flush = some f' ∧
      ∃ e ∈ f.wb, e.key = byteKey 9 ∧ e.ppa = some 961 ∧
        ((List.range 8).flatMap f.flStream).countP (fun nd => nd.covers (961 / 4)) = 0 ∧
        f.store.ssd.ppaState (961 / 4) = true := by
  obtain ⟨f, hf, hp⟩ := exists_reachable_of_run twoStreams pageHash
    ([.set (byteKey 1) 100, .set (byteKey 2) 100] ++ flushTwo 3 ++
      [.flush, .set (byteKey 9) 100] ++ flushTwo 4)
    (fun f => ((machine twoStreams pageHash).next f .flush).isSome &&
      f.wb.any (fun e => e.key = byteKey 9 ∧ e.ppa = some 961) &&
      ((List.range 8).flatMap f.flStream).countP (fun nd => nd.covers (961 / 4)) = 0 &&
      f.store.ssd.ppaState (961 / 4)) (by decide +kernel)
  simp only [Bool.and_eq_true, decide_eq_true_eq, List.any_eq_true] at hp
  obtain ⟨⟨⟨hflush, e, he, hk, hppa⟩, hcount⟩, hstate⟩ := hp
  obtain ⟨f', hf'⟩ := Option.isSome_iff_exists.mp hflush
  exact ⟨f, f', hf, hf', e, he, hk, hppa, hcount, hstate⟩

end AggreKV.HashKv
