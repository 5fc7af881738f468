import AggreKV.LsmTree.Pipe
import AggreKV.Lib.Greedy
import AggreKV.Lib.SortedEntries

/-! # What the pipe and the merger compute

    * `Reads p rest`: a reader delivers the entries `rest`, page by page.
    * `Writes p w`: a writer is the greedy splitter `w` on an array of pages.
    * `mergeLoop_spec`: the merger writes the union of its two inputs, each
      read up to the first key of 255 bytes. -/

namespace AggreKV.LsmTree

open SortedEntries

/-! ## Section 1: Readers -/

/-- The reader `p` still delivers `rest`. -/
structure Reads (p : PBody) (rest : List Entry) : Prop where
  maxPage : p.maxPage = p.dataPtr.length
  filled : ∀ m ∈ p.dataPtr, m ≠ []
  at_ : (p.nowPage = none ∧ p.pidx = 0 ∧ p.dataPtr ≠ [] ∧ rest = p.dataPtr.flatten) ∨
    ∃ page, p.nowPage = some page ∧ p.maxKey = page.length ∧ 1 ≤ p.kidx ∧
      p.kidx ≤ page.length + 1 ∧ p.pidx ≤ p.maxPage ∧
      rest = page.drop (p.kidx - 1) ++ (p.dataPtr.drop p.pidx).flatten

theorem reads_init {data : List Meta} (hne : data ≠ []) (hfilled : ∀ m ∈ data, m ≠ []) :
    Reads (pbodyInit data data.length) data.flatten :=
  ⟨rfl, hfilled, .inl ⟨rfl, rfl, hne, rfl⟩⟩

/-- Opening the next page delivers the same entries. -/
theorem Reads.newPage {p : PBody} {rest : List Entry} (h : Reads p rest)
    (hlt : p.pidx < p.dataPtr.length) (hrest : rest = (p.dataPtr.drop p.pidx).flatten) :
    ∃ p', newPageSet p false = some p' ∧ Reads p' rest ∧ p'.kidx ≤ p'.maxKey ∧
      p'.nowPage.isSome = true := by
  have hmax := h.maxPage
  refine ⟨{ p with nowPage := some p.dataPtr[p.pidx], kidx := 1, length := 1024
                   maxKey := p.dataPtr[p.pidx].length, pidx := p.pidx + 1 }, ?_,
    ⟨hmax, h.filled, .inr ⟨p.dataPtr[p.pidx], rfl, rfl, Nat.le_refl _, ?_, ?_, ?_⟩⟩, ?_, rfl⟩
  · unfold newPageSet
    rw [if_pos (by omega), if_neg (by simp), List.getElem?_eq_getElem hlt]
    rfl
  · exact Nat.succ_le_succ (Nat.zero_le _)
  · show p.pidx + 1 ≤ p.maxPage
    omega
  · rw [hrest, List.drop_eq_getElem_cons hlt, List.flatten_cons]
    rfl
  · exact List.length_pos_of_ne_nil (h.filled _ (List.getElem_mem hlt))

/-- `pbody_get_next_key` delivers the entries in order, then the marker. -/
theorem Reads.next {p : PBody} {rest : List Entry} (h : Reads p rest) :
    ∃ p', pbodyGetNextKey p = some (rest.head?, p') ∧ Reads p' rest.tail := by
  -- after the page switch a key is left on the page, or nothing is left at all
  have hswitch : ∃ q, (if p.nowPage.isNone ||
        (decide (p.pidx < p.maxPage) && decide (p.maxKey < p.kidx)) then newPageSet p false
      else some p) = some q ∧ Reads q rest ∧ q.nowPage.isSome = true ∧
        (q.kidx ≤ q.maxKey ∨ q.maxPage ≤ q.pidx) := by
    rcases h.at_ with ⟨hnone, hzero, hne, hrest⟩ | ⟨page, hpage, hmk, hk1, hk2, hpm, hrest⟩
    · obtain ⟨q, hq, hr, hle, hsome⟩ := h.newPage (hzero ▸ List.length_pos_of_ne_nil hne)
        (by rw [hzero, List.drop_zero]; exact hrest)
      exact ⟨q, by simpa [hnone] using hq, hr, hsome, .inl hle⟩
    · by_cases hsw : p.pidx < p.maxPage ∧ p.maxKey < p.kidx
      · have hdrop : page.drop (p.kidx - 1) = [] := List.drop_of_length_le (by omega)
        obtain ⟨q, hq, hr, hle, hsome⟩ := h.newPage (h.maxPage ▸ hsw.1)
          (by rw [hrest, hdrop, List.nil_append])
        exact ⟨q, by simpa [hsw] using hq, hr, hsome, .inl hle⟩
      · refine ⟨p, ?_, h, by rw [hpage]; rfl, by omega⟩
        have : ¬ (p.pidx < p.maxPage) ∨ ¬ p.maxKey < p.kidx := by omega
        rcases this with hn | hn <;> simp [hpage, hn]
  obtain ⟨q, hq, hr, hsome, hplace⟩ := hswitch
  unfold pbodyGetNextKey
  rw [hq, Option.bind_some]
  rcases hr.at_ with ⟨hnone, -⟩ | ⟨page, hpage, hmk, hk1, hk2, hpm, hrest⟩
  · rw [hnone] at hsome
    cases hsome
  · by_cases hend : q.maxKey < q.kidx
    · have hall : q.maxPage ≤ q.pidx := by omega
      have hnil : rest = [] := by
        rw [hrest, List.drop_of_length_le (by omega), List.nil_append,
          List.drop_of_length_le (by have := hr.maxPage; omega), List.flatten_nil]
      subst hnil
      rw [if_pos ⟨hall, hend⟩]
      exact ⟨q, rfl, hr⟩
    · have hlt : q.kidx - 1 < page.length := by omega
      rw [if_neg (by omega), hpage, Option.bind_some, List.getElem?_eq_getElem hlt,
        Option.map_some]
      rw [List.drop_eq_getElem_cons hlt, List.cons_append] at hrest
      refine ⟨{ q with kidx := q.kidx + 1 }, by rw [hrest, hpage]; rfl, hr.maxPage, hr.filled,
        .inr ⟨page, hpage, hmk, ?_⟩⟩
      refine ⟨Nat.le_succ_of_le hk1, ?_, hpm, ?_⟩
      · show q.kidx + 1 ≤ page.length + 1
        omega
      · rw [hrest, List.tail_cons]
        show _ = page.drop (q.kidx + 1 - 1) ++ _
        rw [show q.kidx + 1 - 1 = q.kidx - 1 + 1 by omega]

/-! ## Section 2: Writers -/

/-- An open page takes no further entry: its table or its data is full. -/
def pageFull (cur : Meta) (e : Entry) : Bool :=
  decide (509 ≤ cur.length ∨ 4096 < slotOffset cur cur.length + entryLen e)

theorem slotOffset_length (m : Meta) : slotOffset m m.length = 1024 + (m.map entryLen).sum := by
  rw [slotOffset, List.take_length]

theorem slotOffset_append (m : Meta) (e : Entry) :
    slotOffset (m ++ [e]) (m ++ [e]).length = slotOffset m m.length + entryLen e := by
  rw [slotOffset_length, slotOffset_length]
  simp [Nat.add_assoc]

/-- `p` is the splitter `w` on an array of `maxPage` pages. -/
structure Writes (p : PBody) (w : Greedy.Writer Entry) : Prop where
  closed : p.dataPtr = w.closed
  now : p.nowPage = if w.cur.isEmpty then none else some w.cur
  kidx : w.cur ≠ [] → p.kidx = w.cur.length + 1
  length : w.cur ≠ [] → p.length = slotOffset w.cur w.cur.length
  pidx : p.pidx = w.close.length

theorem writes_init (cap : Nat) : Writes (pbodyInit [] cap) Greedy.empty := by
  constructor <;> simp [pbodyInit, Greedy.empty, Greedy.Writer.close]

/-- A fresh page with its first entry, behind `closed` pages. -/
theorem writes_fresh {p : PBody} {closed : List Meta} (hd : p.dataPtr = closed)
    (hp : p.pidx = closed.length) (hlt : p.pidx < p.maxPage) (e : Entry) :
    ∃ p', (newPageSet p true).map (·.put e) = some p' ∧ Writes p' ⟨closed, [e]⟩ ∧
      p'.maxPage = p.maxPage := by
  have hnew : newPageSet p true = some { p with nowPage := some [], kidx := 1, maxKey := 0
                                                length := 1024, pidx := p.pidx + 1 } := by
    unfold newPageSet
    rw [if_pos hlt]
    rfl
  rw [hnew]
  refine ⟨_, rfl, ⟨hd, rfl, fun _ => rfl, fun _ => ?_, ?_⟩, rfl⟩
  · rw [slotOffset_length]
    simp [PBody.put]
  · simp [PBody.put, Greedy.Writer.close, hp]

theorem close_length_push (w : Greedy.Writer Entry) (e : Entry) :
    w.close.length ≤ (Greedy.push pageFull w e).close.length := by
  unfold Greedy.push Greedy.Writer.close
  cases hc : w.cur with
  | nil => simp
  | cons b bs => cases pageFull (b :: bs) e <;> simp

/-- `pbody_insert_new_key` is `push`, as long as the array has room. -/
theorem Writes.insert {p : PBody} {w : Greedy.Writer Entry} (h : Writes p w) (e : Entry) :
    ((Greedy.push pageFull w e).close.length ≤ p.maxPage → w.close.length ≤ p.maxPage →
      ∃ p', pbodyInsertNewKey p e = some p' ∧ Writes p' (Greedy.push pageFull w e) ∧
        p'.maxPage = p.maxPage) ∧
    (p.maxPage < (Greedy.push pageFull w e).close.length → w.close.length ≤ p.maxPage →
      pbodyInsertNewKey p e = none) := by
  obtain ⟨hclosed, hnow, hkidx, hlength, hpidx⟩ := h
  -- The body without a page opens one, a full page is stored and followed by a new one.
  cases hc : w.cur with
  | nil =>
      have hcl : w.close = w.closed := by simp [Greedy.Writer.close, hc]
      have hpush : Greedy.push pageFull w e = ⟨w.closed, [e]⟩ := by simp [Greedy.push, hc]
      have hnone : p.nowPage = none := by simpa [hc] using hnow
      have hins : pbodyInsertNewKey p e = (newPageSet p true).map (·.put e) := by
        unfold pbodyInsertNewKey
        rw [hnone]
      rw [hcl] at hpidx ⊢
      rw [hpush, hins]
      have hclose : (Greedy.Writer.close ⟨w.closed, [e]⟩).length = w.closed.length + 1 := by
        simp [Greedy.Writer.close]
      rw [hclose]
      refine ⟨fun hroom _ => ?_, fun hroom hle => ?_⟩
      · have hlt : p.pidx < p.maxPage := by omega
        exact writes_fresh hclosed hpidx hlt e
      · have hge : ¬ p.pidx < p.maxPage := by omega
        simp [newPageSet, hge]
  | cons b bs =>
      have hne : w.cur ≠ [] := by simp [hc]
      have hsome : p.nowPage = some w.cur := by simpa [hc] using hnow
      have hcl : w.close = w.closed ++ [w.cur] := by simp [Greedy.Writer.close, hc]
      have hcond : (510 ≤ p.kidx ∨ 4096 < p.length + entryLen e) ↔ pageFull w.cur e = true := by
        rw [hkidx hne, hlength hne]
        simp [pageFull]
      cases hfull : pageFull w.cur e with
      | true =>
          have hpush : Greedy.push pageFull w e = ⟨w.closed ++ [w.cur], [e]⟩ := by
            simp only [Greedy.push, hc] at hfull ⊢
            rw [if_neg (by simp), if_pos hfull]
          have hins : pbodyInsertNewKey p e =
              (newPageSet (p.store w.cur) true).map (·.put e) := by
            unfold pbodyInsertNewKey
            rw [hsome]
            exact if_pos (hcond.mpr hfull)
          have hstore : (p.store w.cur).dataPtr = w.closed ++ [w.cur] := by
            show p.dataPtr.take (p.pidx - 1) ++ [w.cur] = _
            rw [hclosed, List.take_of_length_le]
            rw [hpidx, hcl]
            simp
          have hidx : (p.store w.cur).pidx = (w.closed ++ [w.cur]).length := by
            rw [← hcl]
            exact hpidx
          rw [hpush, hins]
          have hclose : (Greedy.Writer.close ⟨w.closed ++ [w.cur], [e]⟩).length =
              w.closed.length + 2 := by
            simp [Greedy.Writer.close]
          rw [hclose]
          refine ⟨fun hroom _ => ?_, fun hroom hle => ?_⟩
          · refine writes_fresh hstore hidx ?_ e
            rw [hidx]
            have hmax : (p.store w.cur).maxPage = p.maxPage := rfl
            rw [hmax, List.length_append, List.length_singleton]
            omega
          · have hge : ¬ (p.store w.cur).pidx < (p.store w.cur).maxPage := by
              rw [hidx]
              have hmax : (p.store w.cur).maxPage = p.maxPage := rfl
              rw [hmax, List.length_append, List.length_singleton]
              omega
            simp [newPageSet, hge]
      | false =>
          -- The entry still fits the page.
          have hpush : Greedy.push pageFull w e = ⟨w.closed, w.cur ++ [e]⟩ := by
            simp only [Greedy.push, hc] at hfull ⊢
            rw [if_neg (by simp), if_neg (by simp [hfull])]
          have hins : pbodyInsertNewKey p e = some (p.put e) := by
            unfold pbodyInsertNewKey
            rw [hsome]
            exact if_neg (fun hcontra => by simp [hcond.mp hcontra] at hfull)
          have hlen : (Greedy.push pageFull w e).close.length = w.close.length := by
            rw [hpush, hcl]
            simp [Greedy.Writer.close]
          rw [hlen, hins, hpush]
          refine ⟨fun _ _ => ⟨_, rfl, ⟨hclosed, ?_, fun _ => ?_, fun _ => ?_, ?_⟩, rfl⟩,
            fun hgt hle => by omega⟩
          · simp [PBody.put, hsome]
          · simp [PBody.put, hkidx hne]
          · rw [slotOffset_append, ← hlength hne]
            rfl
          · rw [← hpush, hlen]
            exact hpidx

/-- `pbody_insert_new_key(.., true)` stores the open page. -/
theorem Writes.flush {p : PBody} {w : Greedy.Writer Entry} (h : Writes p w) :
    ∃ p', pbodyFlush p = some p' ∧ p'.dataPtr = w.close ∧ p'.pidx = w.close.length := by
  unfold pbodyFlush
  rw [h.now]
  cases hc : w.cur with
  | nil =>
      have hcl : w.close = w.closed := by simp [Greedy.Writer.close, hc]
      refine ⟨p, rfl, ?_, h.pidx⟩
      rw [hcl]
      exact h.closed
  -- The last page is stored too.
  | cons b bs =>
      have hcl : w.close = w.closed ++ [w.cur] := by simp [Greedy.Writer.close, hc]
      have hk : 1 < p.kidx := by
        rw [h.kidx (by simp [hc]), hc]
        simp
      refine ⟨p.store w.cur, ?_, ?_, h.pidx⟩
      · rw [← hc]
        simp [hc, hk]
      · show p.dataPtr.take (p.pidx - 1) ++ [w.cur] = _
        rw [h.closed, h.pidx, hcl, List.length_append, List.length_singleton,
          Nat.add_sub_cancel, List.take_length]

/-! ## Section 3: The loop -/

/-- What is read of an input: up to the first key of 255 bytes. -/
def untilEnd (l : List Entry) : List Entry := l.takeWhile fun e => e.1.len != 255

/-- The addresses of the lower entries whose key the upper input has too. -/
def superseded (u l : List Entry) : List Nat :=
  (l.filter fun x => u.any fun y => y.1 == x.1).map Prod.snd

theorem isEnd_head (l : List Entry) : isEnd l.head? = true ↔ untilEnd l = [] := by
  cases l with
  | nil => simp [isEnd, untilEnd]
  | cons e l =>
      by_cases h : e.1.len = 255 <;> simp [isEnd, untilEnd, h]

theorem untilEnd_cons {e : Entry} {l : List Entry} (h : isEnd (e :: l).head? = false) :
    untilEnd (e :: l) = e :: untilEnd l := by
  have : e.1.len ≠ 255 := by simpa [isEnd] using h
  simp [untilEnd, this]

/-- The loop state between two iterations: `H` and `L` are still to be read,
    their first entries already are. -/
structure Merging (s : MergeState) (H L : List Entry) (w : Greedy.Writer Entry) : Prop where
  lpKey : s.lpKey = L.head?
  hpKey : s.hpKey = H.head?
  lower : Reads s.lp L.tail
  upper : Reads s.hp H.tail
  out : Writes s.rp w
  room : w.close.length ≤ s.rp.maxPage

theorem Merging.popLower {s : MergeState} {H L : List Entry} {w : Greedy.Writer Entry}
    (h : Merging s H L w) : ∃ s', s.popLower = some s' ∧ Merging s' H L.tail w ∧
      s'.rp = s.rp ∧ s'.invalidated = s.invalidated := by
  obtain ⟨lp, hlp, hreads⟩ := h.lower.next
  refine ⟨{ s with lpKey := L.tail.head?, lp := lp }, ?_,
    ⟨rfl, h.hpKey, hreads, h.upper, h.out, h.room⟩, rfl, rfl⟩
  unfold MergeState.popLower
  rw [hlp]
  rfl

theorem Merging.popUpper {s : MergeState} {H L : List Entry} {w : Greedy.Writer Entry}
    (h : Merging s H L w) : ∃ s', s.popUpper = some s' ∧ Merging s' H.tail L w ∧
      s'.rp = s.rp ∧ s'.invalidated = s.invalidated := by
  obtain ⟨hp, hhp, hreads⟩ := h.upper.next
  refine ⟨{ s with hpKey := H.tail.head?, hp := hp }, ?_,
    ⟨h.lpKey, rfl, h.lower, hreads, h.out, h.room⟩, rfl, rfl⟩
  unfold MergeState.popUpper
  rw [hhp]
  rfl

/-- What is left of each input after an iteration. -/
def Pop.upperRest : Pop → List Entry → List Entry
  | .lower, H => H
  | _, H => H.tail

def Pop.lowerRest : Pop → List Entry → List Entry
  | .upper, L => L
  | _, L => L.tail

def Pop.dropped : Pop → List Entry → List Nat
  | .both, L => (L.head?.map Prod.snd).toList
  | _, _ => []

/-- One iteration, given what it inserts and pops. -/
theorem Merging.step {s : MergeState} {H L : List Entry} {w : Greedy.Writer Entry}
    (h : Merging s H L w) {e : Entry} {pop : Pop}
    (hc : mergeChoose s.lpKey s.hpKey = some (e, pop)) :
    ((Greedy.push pageFull w e).close.length ≤ s.rp.maxPage →
      ∃ s', mergeStep s = some s' ∧
        Merging s' (pop.upperRest H) (pop.lowerRest L) (Greedy.push pageFull w e) ∧
        s'.rp.maxPage = s.rp.maxPage ∧ s'.invalidated = s.invalidated ++ pop.dropped L) ∧
    (s.rp.maxPage < (Greedy.push pageFull w e).close.length → mergeStep s = none) := by
  have hins := h.out.insert e
  unfold mergeStep
  rw [hc, Option.bind_some]
  refine ⟨fun hroom => ?_, fun hfull => by
    simp only [hins.2 hfull h.room, Option.bind_none]⟩
  -- There is room for the entry, so the inputs are advanced as the choice says.
  obtain ⟨rp, hrp, hw, hmax⟩ := hins.1 hroom h.room
  simp only [hrp, Option.bind_some]
  have hm : Merging { s with rp := rp } H L (Greedy.push pageFull w e) :=
    ⟨h.lpKey, h.hpKey, h.lower, h.upper, hw, hmax ▸ hroom⟩
  cases pop with
  | lower =>
      obtain ⟨s', hs', hm', hr, hi⟩ := hm.popLower
      exact ⟨s', hs', hm', by rw [hr]; exact hmax, by rw [hi]; exact (List.append_nil _).symm⟩
  | upper =>
      obtain ⟨s', hs', hm', hr, hi⟩ := hm.popUpper
      exact ⟨s', hs', hm', by rw [hr]; exact hmax, by rw [hi]; exact (List.append_nil _).symm⟩
  | both =>
      have hinv : Merging (MergeState.invalidate { s with rp := rp }) H L
          (Greedy.push pageFull w e) :=
        ⟨hm.lpKey, hm.hpKey, hm.lower, hm.upper, hm.out, hm.room⟩
      obtain ⟨s₁, hs₁, hm₁, hr₁, hi₁⟩ := hinv.popLower
      obtain ⟨s₂, hs₂, hm₂, hr₂, hi₂⟩ := hm₁.popUpper
      refine ⟨s₂, ?_, hm₂, by rw [hr₂, hr₁]; exact hmax, ?_⟩
      · simp only [hs₁, Option.bind_some, hs₂]
      · rw [hi₂, hi₁, Pop.dropped, ← h.lpKey]
        rfl

/-- Entries the merge loop can compare. -/
def Valid (l : List Entry) : Prop := ∀ e ∈ l, keyValCheck e.1 = true

instance (l : List Entry) : Decidable (Valid l) := inferInstanceAs (Decidable (∀ e ∈ l, _))

theorem superseded_nil (u : List Entry) : superseded u [] = [] := rfl

theorem superseded_cons (u : List Entry) (x : Entry) (l : List Entry) :
    superseded u (x :: l) =
      (if u.any fun y => y.1 == x.1 then [x.2] else []) ++ superseded u l := by
  unfold superseded
  rw [List.filter_cons]
  split <;> simp

theorem superseded_cons_upper {u : List Entry} {y : Entry} {l : List Entry}
    (h : ∀ x ∈ l, y.1 < x.1) : superseded (y :: u) l = superseded u l := by
  unfold superseded
  rw [List.filter_congr]
  intro x hx
  simp [(h x hx).ne]

theorem untilEnd_ne_nil {l : List Entry} (h : untilEnd l ≠ []) :
    ∃ e l', l = e :: l' ∧ untilEnd l = e :: untilEnd l' ∧ isEnd (some e) = false := by
  cases l with
  | nil => exact absurd rfl h
  | cons e l =>
      have hend : isEnd (e :: l).head? = false := by
        rw [← Bool.not_eq_true, isEnd_head]
        exact h
      exact ⟨e, l, rfl, untilEnd_cons hend, hend⟩

/-- What an iteration inserts and pops, in terms of the two inputs. -/
theorem mergeChoose_spec {H L : List Entry} (hH : Valid H) (hL : Valid L)
    (hne : ¬ (untilEnd H = [] ∧ untilEnd L = [])) :
    ∃ e pop, mergeChoose L.head? H.head? = some (e, pop) ∧
      union (untilEnd H) (untilEnd L) =
        e :: union (untilEnd (pop.upperRest H)) (untilEnd (pop.lowerRest L)) ∧
      (Increasing (untilEnd H) → Increasing (untilEnd L) →
        superseded (untilEnd H) (untilEnd L) = pop.dropped L ++
          superseded (untilEnd (pop.upperRest H)) (untilEnd (pop.lowerRest L))) ∧
      (pop.upperRest H).length + (pop.lowerRest L).length < H.length + L.length ∧
      (untilEnd (pop.upperRest H)).Sublist (untilEnd H) ∧
      (untilEnd (pop.lowerRest L)).Sublist (untilEnd L) := by
  by_cases hl : untilEnd L = []
  · -- the lower input is at its end: the upper entries follow
    obtain ⟨y, H', rfl, hy, hye⟩ := untilEnd_ne_nil fun hh => hne ⟨hh, hl⟩
    refine ⟨y, .upper, ?_, ?_, fun _ _ => ?_, by simp [Pop.upperRest, Pop.lowerRest],
      hy ▸ List.sublist_cons_self _ _, List.Sublist.refl _⟩
    · unfold mergeChoose
      rw [if_pos ((isEnd_head L).mpr hl)]
      rfl
    · simp only [Pop.upperRest, Pop.lowerRest, List.tail_cons, hl, hy, union_nil_right]
    · simp only [Pop.lowerRest, hl, superseded_nil]
      rfl
  obtain ⟨x, L', rfl, hx, hxe⟩ := untilEnd_ne_nil hl
  by_cases hh : untilEnd H = []
  · -- the upper input is at its end: the lower entries follow
    refine ⟨x, .lower, ?_, ?_, fun _ _ => ?_, by simp [Pop.upperRest, Pop.lowerRest],
      List.Sublist.refl _, hx ▸ List.sublist_cons_self _ _⟩
    · unfold mergeChoose
      rw [if_neg (by simp [hxe]), if_pos ((isEnd_head H).mpr hh)]
      rfl
    · simp only [Pop.upperRest, Pop.lowerRest, List.tail_cons, hh, hx, union_nil_left]
    · simp only [Pop.upperRest, hh]
      simp [superseded, Pop.dropped]
  obtain ⟨y, H', rfl, hy, hye⟩ := untilEnd_ne_nil hh
  have hcheck : (!keyValCheck x.1 || !keyValCheck y.1) = false := by
    simp [hL x List.mem_cons_self, hH y List.mem_cons_self]
  have hsubH : (untilEnd H').Sublist (y :: untilEnd H') := List.sublist_cons_self _ _
  have hsubL : (untilEnd L').Sublist (x :: untilEnd L') := List.sublist_cons_self _ _
  rw [List.head?_cons, List.head?_cons, mergeChoose_some hxe hye hcheck, hy, hx]
  -- Neither input is at its end: the smaller key goes first, the upper one of two equals.
  rcases lt_trichotomy x.1 y.1 with h | h | h
  · refine ⟨x, .lower, by rw [keyCmp_lt.mpr h], ?_, fun hu _ => ?_,
      by simp [Pop.upperRest, Pop.lowerRest], hy ▸ List.Sublist.refl _, hsubL⟩
    · rw [union_cons_lt h]
      simp only [Pop.upperRest, Pop.lowerRest, List.tail_cons, hy]
    · -- every upper key is larger than the lower one
      have hno : ((y :: untilEnd H').any fun z => z.1 == x.1) = false := by
        rw [List.any_eq_false]
        intro z hz
        rcases List.mem_cons.mp hz with rfl | hz
        · simpa using h.ne'
        · simpa using (h.trans ((increasing_cons.mp hu).1 z hz)).ne'
      rw [superseded_cons, hno]
      simp [Pop.dropped, Pop.upperRest, Pop.lowerRest, hy]
  · refine ⟨y, .both, by rw [keyCmp_eq.mpr h], ?_, fun hu hll => ?_, ?_, hsubH, hsubL⟩
    · rw [union_cons_eq h.symm]
      simp only [Pop.upperRest, Pop.lowerRest, List.tail_cons]
    · rw [superseded_cons, superseded_cons_upper fun z hz => h ▸ (increasing_cons.mp hll).1 z hz]
      simp [Pop.dropped, Pop.upperRest, Pop.lowerRest, h]
    · simp only [Pop.upperRest, Pop.lowerRest, List.tail_cons, List.length_cons]
      omega
  · refine ⟨y, .upper, by rw [keyCmp_gt.mpr h], ?_, fun _ hll => ?_, ?_, hsubH,
      hx ▸ List.Sublist.refl _⟩
    · rw [union_cons_gt h]
      simp only [Pop.upperRest, Pop.lowerRest, List.tail_cons, hx]
    · have hlt : ∀ z ∈ x :: untilEnd L', y.1 < z.1 := by
        intro z hz
        rcases List.mem_cons.mp hz with rfl | hz
        · exact h
        · exact h.trans ((increasing_cons.mp hll).1 z hz)
      rw [superseded_cons_upper hlt]
      simp only [Pop.dropped, Pop.upperRest, Pop.lowerRest, List.tail_cons, hx, List.nil_append]
    · simp only [Pop.upperRest, Pop.lowerRest, List.tail_cons, List.length_cons]
      omega

theorem foldl_close_length (l : List Entry) : ∀ w : Greedy.Writer Entry,
    w.close.length ≤ (l.foldl (Greedy.push pageFull) w).close.length := by
  induction l with
  | nil => exact fun w => Nat.le_refl _
  | cons e l ih => exact fun w => (close_length_push w e).trans (ih _)

/-- The loop writes the union of what is read of the two inputs, if the pages
    of the union fit the result array, and leaves the array otherwise. -/
theorem mergeLoop_spec : ∀ (n : Nat) {s : MergeState} {H L : List Entry}
    {w : Greedy.Writer Entry}, Merging s H L w → H.length + L.length < n → Valid H → Valid L →
    ((((union (untilEnd H) (untilEnd L)).foldl (Greedy.push pageFull) w).close.length ≤
        s.rp.maxPage →
      ∃ s', mergeLoop n s = some s' ∧
        Writes s'.rp ((union (untilEnd H) (untilEnd L)).foldl (Greedy.push pageFull) w) ∧
        (Increasing (untilEnd H) → Increasing (untilEnd L) →
          s'.invalidated = s.invalidated ++ superseded (untilEnd H) (untilEnd L))) ∧
    (s.rp.maxPage <
        ((union (untilEnd H) (untilEnd L)).foldl (Greedy.push pageFull) w).close.length →
      mergeLoop n s = none))
  | 0, _, _, _, _, _, hn, _, _ => absurd hn (Nat.not_lt_zero _)
  | n + 1, s, H, L, w, h, hn, hH, hL => by
      have hends : (isEnd s.lpKey && isEnd s.hpKey) = true ↔
          (untilEnd H = [] ∧ untilEnd L = []) := by
        rw [h.lpKey, h.hpKey, Bool.and_eq_true, isEnd_head, isEnd_head, and_comm]
      unfold mergeLoop
      by_cases hdone : untilEnd H = [] ∧ untilEnd L = []
      · rw [if_pos (hends.mpr hdone), hdone.1, hdone.2]
        refine ⟨fun _ => ⟨s, rfl, h.out, fun _ _ => ?_⟩, fun hgt => ?_⟩
        · rw [superseded_nil, List.append_nil]
        · exact absurd h.room (Nat.not_le_of_lt hgt)
      -- One step of the merge takes one entry of the union, the induction is on what is left.
      · rw [if_neg fun hc => hdone (hends.mp hc)]
        obtain ⟨e, pop, hchoose, hunion, hsup, hlen, hsubH, hsubL⟩ := mergeChoose_spec hH hL hdone
        rw [hunion, List.foldl_cons]
        have hstep := h.step (by rw [h.lpKey, h.hpKey]; exact hchoose)
        have hmono := foldl_close_length
          (union (untilEnd (pop.upperRest H)) (untilEnd (pop.lowerRest L)))
          (Greedy.push pageFull w e)
        by_cases hroom : (Greedy.push pageFull w e).close.length ≤ s.rp.maxPage
        · obtain ⟨s₁, hs₁, hm₁, hmax, hinv⟩ := hstep.1 hroom
          have hH' : Valid (pop.upperRest H) := fun f hf => hH f (by
            cases pop <;> first | exact hf | exact List.mem_of_mem_tail hf)
          have hL' : Valid (pop.lowerRest L) := fun f hf => hL f (by
            cases pop <;> first | exact hf | exact List.mem_of_mem_tail hf)
          have ih := mergeLoop_spec n hm₁ (by omega) hH' hL'
          rw [hmax] at ih
          rw [hs₁, Option.bind_some]
          refine ⟨fun hle => ?_, ih.2⟩
          obtain ⟨s', hs', hw, hi⟩ := ih.1 hle
          refine ⟨s', hs', hw, fun hu hl => ?_⟩
          rw [hi (hu.sublist hsubH) (hl.sublist hsubL), hinv, hsup hu hl, List.append_assoc]
        · rw [hstep.2 (by omega)]
          exact ⟨fun hle => absurd (hmono.trans hle) hroom, fun _ => rfl⟩

/-! ## Section 4: The merger -/

/-- The pages the greedy writer makes of a sequence of entries. -/
def metaPages (es : List Entry) : List Meta := Greedy.pages pageFull es

theorem Valid.flatten {ms : List Meta} (h : ∀ m ∈ ms, Valid m) : Valid ms.flatten := by
  intro e he
  obtain ⟨m, hm, hem⟩ := List.mem_flatten.mp he
  exact h m hm e hem

theorem Valid.keysetCheck {ms : List Meta} (h : Valid ms.flatten) :
    ms.all LsmTree.keysetCheck = true := by
  rw [List.all_eq_true]
  intro m hm
  unfold LsmTree.keysetCheck
  rw [List.all_eq_true]
  intro e he
  exact h e (List.mem_flatten.mpr ⟨m, hm, (List.dropLast_sublist m).subset he⟩)

/-- What the merger reads of its two inputs, merged. -/
def merged (u o : List Meta) : List Entry :=
  union (untilEnd u.flatten) (untilEnd o.flatten)

/-- `array_pipe_merger` leaves the pages of the merged entries in the result
    array, if they fit there. -/
theorem arrayPipeMerger_spec (padding : Nat) {u o : List Meta} (hu : u ≠ []) (ho : o ≠ [])
    (hun : ∀ m ∈ u, m ≠ []) (hon : ∀ m ∈ o, m ≠ []) (huv : Valid u.flatten)
    (hov : Valid o.flatten) :
    ((metaPages (merged u o)).length ≤ o.length + u.length + padding →
      ∃ rp inv, arrayPipeMerger padding u o = some (rp, inv) ∧
        rp.dataPtr = metaPages (merged u o) ∧ rp.pidx = rp.dataPtr.length ∧
        (Increasing (untilEnd u.flatten) → Increasing (untilEnd o.flatten) →
          inv = superseded (untilEnd u.flatten) (untilEnd o.flatten))) ∧
    (o.length + u.length + padding < (metaPages (merged u o)).length →
      arrayPipeMerger padding u o = none) := by
  obtain ⟨lp, hlp, hlr⟩ := (reads_init ho hon).next
  obtain ⟨hp, hhp, hhr⟩ := (reads_init hu hun).next
  have hm : Merging ⟨lp, hp, pbodyInit [] (o.length + u.length + padding), o.flatten.head?,
      u.flatten.head?, []⟩ u.flatten o.flatten Greedy.empty :=
    ⟨rfl, rfl, hlr, hhr, writes_init _, Nat.zero_le _⟩
  -- The loop has one iteration more than there are entries.
  have hloop := mergeLoop_spec _ hm (Nat.lt_succ_self _) huv hov
  unfold arrayPipeMerger
  rw [if_pos (by rw [huv.keysetCheck, hov.keysetCheck]; rfl)]
  simp only [hlp, hhp, Option.bind_eq_bind, Option.bind_some]
  refine ⟨fun hroom => ?_, fun hfull => ?_⟩
  · obtain ⟨s', hs', hw, hinv⟩ := hloop.1 hroom
    obtain ⟨rp, hrp, hdata, hidx⟩ := hw.flush
    rw [hs', Option.bind_some, hrp, Option.bind_some]
    exact ⟨rp, s'.invalidated, rfl, hdata, hdata ▸ hidx, hinv⟩
  · rw [hloop.2 hfull, Option.bind_none]

theorem cutterLoop_eq : ∀ (n : Nat) (p : PBody), p.maxPage = p.dataPtr.length →
    p.dataPtr.length ≤ p.pidx + n → cutterLoop n p = p.dataPtr.drop p.pidx
  | 0, p, _, hn => (List.drop_of_length_le hn).symm
  | n + 1, p, hmax, hn => by
      unfold cutterLoop pbodyGetData
      by_cases hlt : p.pidx < p.dataPtr.length
      · have ih := cutterLoop_eq n { p with pidx := p.pidx + 1 } hmax (by
          show p.dataPtr.length ≤ p.pidx + 1 + n
          omega)
        simp only [hmax] at ih
        simp only [Bool.false_eq_true, if_false, hmax, hlt, if_true,
          List.getElem?_eq_getElem hlt, ih]
        exact (List.drop_eq_getElem_cons hlt).symm
      · simp only [Bool.false_eq_true, if_false, hmax, hlt]
        exact (List.drop_of_length_le (by omega)).symm

/-- The cutter returns the stored pages in order, then `NULL`. -/
theorem arrayPipeCutter_eq {rp : PBody} (h : rp.pidx = rp.dataPtr.length) :
    arrayPipeCutter rp = rp.dataPtr := by
  unfold arrayPipeCutter pbodyGetData
  cases hd : rp.dataPtr with
  | nil => simp [h, hd]
  | cons m ms =>
      simp only [if_true, h, hd, List.length_cons, Nat.zero_lt_succ, List.getElem?_cons_zero]
      rw [cutterLoop_eq _ _ rfl (by simp)]
      rfl

end AggreKV.LsmTree
