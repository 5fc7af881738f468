import AggreKV.BlockSsd.TpageStore

/-! # The mapping update of a collection

    A collection tells the mapping table where the values went: entries of
    resident pages first, then page by page those of the others, which lose
    their flash copy in between.

    * `Moves`: the mapping table after a list of nodes.
    * `Due`: a page is backed, or a node still to be processed belongs to it. -/

namespace AggreKV.BlockSsd

open HashKv (Pte dIdx)

variable {cfg : Settings}

/-! ## Section 1: Updating an entry -/

/-- A touch moves the page in the list only. -/
theorem Cold.touch_same (c : Cold) (lpa : Nat) :
    (c.touch lpa).cmt = c.cmt ∧ (c.touch lpa).memTable = c.memTable := by
  unfold Cold.touch
  split
  · exact ⟨rfl, rfl⟩
  · exact ⟨rfl, rfl⟩

/-- An update writes one entry of the table. -/
theorem Cold.update_memTable (c : Cold) (lpa : Nat) (pte : Pte) :
    (c.update lpa pte).memTable = Function.update c.memTable lpa pte := by
  unfold Cold.update
  dsimp only
  split
  · rw [(Cold.touch_same _ lpa).2]
    rfl
  · rfl

/-- A resident page becomes dirty, any other is left alone. -/
theorem Cold.update_cmt (c : Cold) (lpa : Nat) (pte : Pte) (q : Nat) :
    (c.update lpa pte).cmt q = if q = dIdx lpa ∧ (c.cmt q).pt = true then
      { c.cmt q with tPpa := if (c.cmt q).dirty then (c.cmt q).tPpa else none, dirty := true }
      else c.cmt q := by
  unfold Cold.update
  dsimp only
  split
  · next hpt =>
    rw [(Cold.touch_same _ lpa).1, Cold.cmt_setCmt]
    by_cases hq : q = dIdx lpa
    · subst hq
      simp [hpt]
    · simp [hq, Cold.setPte]
  · next hpt =>
    rw [if_neg]
    · rfl
    · rintro ⟨rfl, h⟩
      exact hpt h

/-- The update of an entry keeps the map side: it drops at most the stale copy. -/
theorem MapOk.update {s : Store} (h : MapOk cfg s) (lpa : Nat) (pte : Pte) :
    MapOk cfg (s.update cfg lpa pte) := by
  have hcmt := s.cold.update_cmt lpa pte
  cases hst : s.cold.staleCopy (dIdx lpa) with
  -- No copy to drop: the bitmap stays, and no entry gains a copy.
  | none =>
    have hbm : (s.update cfg lpa pte).bm = s.bm := by
      unfold Store.update
      rw [hst]
    refine h.congr hbm rfl rfl fun q p hp => ?_
    rw [show (s.update cfg lpa pte).cold = s.cold.update lpa pte from rfl, hcmt] at hp
    split at hp
    · dsimp only at hp
      split at hp
      · exact hp
      · cases hp
    · exact hp
  | some p =>
    unfold Cold.staleCopy at hst
    split at hst
    · next hres =>
      rw [Bool.and_eq_true, Bool.not_eq_true'] at hres
      have hstale : s.cold.staleCopy (dIdx lpa) = some p := by
        unfold Cold.staleCopy
        rw [if_pos (by rw [hres.1, hres.2]; rfl), hst]
      have hbm : (s.update cfg lpa pte).bm = invalidatePage cfg s.bm p := by
        unfold Store.update
        rw [hstale]
      -- The page `p` leaves the bitmap together with the entry that named it.
      refine h.drop hst hbm rfl rfl ?_ fun q hq => ?_
      · rw [show (s.update cfg lpa pte).cold = s.cold.update lpa pte from rfl, hcmt,
          if_pos ⟨rfl, hres.1⟩]
        simp [hres.2]
      · rw [show (s.update cfg lpa pte).cold = s.cold.update lpa pte from rfl, hcmt,
          if_neg fun he => hq he.1]
    · cases hst

/-- An update leaves the data partition alone. -/
theorem MapOk.update_zone {s : Store} (h : MapOk cfg s) (lpa : Nat) (pte : Pte) :
    SameZone cfg .data s.bm (s.update cfg lpa pte).bm := by
  unfold Store.update
  dsimp only
  split
  · next p hst =>
    unfold Cold.staleCopy at hst
    split at hst
    · exact .invalidatePage (not_inZone_data (h.copies _ p hst).1)
    · cases hst
  · exact .refl _

/-- The update of a page that is neither resident nor on flash loses the entry. -/
theorem MapSide.update {s : Store} (h : MapSide cfg s) {lpa : Nat} (pte : Pte)
    (hb : (s.cold.cmt (dIdx lpa)).pt = true ∨ (s.cold.cmt (dIdx lpa)).tPpa.isSome = true) :
    MapSide cfg (s.update cfg lpa pte) := by
  refine ⟨h.map.update lpa pte, fun l hl => ?_⟩
  rw [show (s.update cfg lpa pte).cold = s.cold.update lpa pte from rfl] at hl ⊢
  rw [Cold.update_memTable] at hl
  rw [Cold.update_cmt]
  split
  · next hres => simp [Cmt.backed, hres.2]
  · next hres =>
    by_cases hll : l = lpa
    · subst hll
      have hpt : ¬(s.cold.cmt (dIdx l)).pt = true := fun hpt => hres ⟨rfl, hpt⟩
      exact Cmt.backed_of_copy (hb.resolve_left hpt)
    · rw [Function.update_of_ne hll] at hl
      exact h.backed l hl

/-! ## Section 2: The mapping update of a collection -/

/-- Table `t'` is `t` with the values of `ns` moved. -/
def Moves (t t' : Nat → Pte) (ns : List GcNode) : Prop :=
  (∀ n ∈ ns, t' n.lpa = { t n.lpa with ppa := some n.ppa }) ∧
    ∀ l, (∀ n ∈ ns, n.lpa ≠ l) → t' l = t l

theorem Moves.nil (t : Nat → Pte) : Moves t t [] := ⟨fun _ hn => (by cases hn), fun _ _ => rfl⟩

theorem Moves.one (t : Nat → Pte) (n : GcNode) :
    Moves t (Function.update t n.lpa { t n.lpa with ppa := some n.ppa }) [n] := by
  refine ⟨fun m hm => ?_, fun l hl => ?_⟩
  · rw [List.mem_singleton.mp hm, Function.update_self]
  · exact Function.update_of_ne (hl n (List.mem_singleton.mpr rfl)).symm ..

/-- Moves of different entries compose. -/
theorem Moves.append {t t' t'' : Nat → Pte} {ns ms : List GcNode} (h : Moves t t' ns)
    (h' : Moves t' t'' ms) (hd : ∀ n ∈ ns, ∀ m ∈ ms, m.lpa ≠ n.lpa) : Moves t t'' (ns ++ ms) := by
  refine ⟨fun n hn => ?_, fun l hl => ?_⟩
  · rcases List.mem_append.mp hn with hn | hn
    · rw [h'.2 n.lpa (hd n hn), h.1 n hn]
    · rw [h'.1 n hn, h.2 n.lpa fun m hm he => hd m hm n hn he.symm]
  · rw [h'.2 l fun n hn => hl n (List.mem_append_right _ hn),
      h.2 l fun n hn => hl n (List.mem_append_left _ hn)]

/-- The order of the nodes does not matter. -/
theorem Moves.congr {t t' : Nat → Pte} {ns ms : List GcNode} (h : Moves t t' ns)
    (hm : ∀ n, n ∈ ms ↔ n ∈ ns) : Moves t t' ms :=
  ⟨fun n hn => h.1 n ((hm n).mp hn), fun l hl => h.2 l fun n hn => hl n ((hm n).mpr hn)⟩

/-- What the mapping update of a collection leaves alone. -/
structure Remaps (cfg : Settings) (s s' : Store) : Prop where
  zone : SameZone cfg .data s.bm s'.bm
  dActive : s'.dActive = s.dActive
  dReserve : s'.dReserve = s.dReserve
  content : s'.content = s.content
  pt : ∀ q, (s'.cold.cmt q).pt = (s.cold.cmt q).pt

theorem Remaps.trans {s s' s'' : Store} (h : Remaps cfg s s') (h' : Remaps cfg s' s'') :
    Remaps cfg s s'' where
  zone := h.zone.trans h'.zone
  dActive := h'.dActive.trans h.dActive
  dReserve := h'.dReserve.trans h.dReserve
  content := h'.content.trans h.content
  pt q := (h'.pt q).trans (h.pt q)

/-- Page `q` is backed, or a node that is still to be processed belongs to it. -/
def Due (s : Store) (resident : Bool) (ns : List GcNode) (q : Nat) : Prop :=
  (s.cold.cmt q).backed = true ∨ ∃ n ∈ ns, dIdx n.lpa = q ∧ (s.cold.cmt q).pt = resident

/-- Dropping the copy of a page touches nothing else of the cache. -/
theorem MapOk.dropCopy {s : Store} (h : MapOk cfg s) (page : Nat) :
    MapOk cfg (s.dropCopy cfg page) ∧ Remaps cfg s (s.dropCopy cfg page) ∧
      (s.dropCopy cfg page).cold.memTable = s.cold.memTable ∧
      ∀ q, q ≠ page → (s.dropCopy cfg page).cold.cmt q = s.cold.cmt q := by
  unfold Store.dropCopy
  split
  · exact ⟨h, ⟨.refl _, rfl, rfl, rfl, fun _ => rfl⟩, rfl, fun _ _ => rfl⟩
  · next p hp =>
    have hcmt : ∀ q, (s.cold.setTPpa page none).cmt q =
        if q = page then { s.cold.cmt page with tPpa := none } else s.cold.cmt q :=
      fun q => Cold.cmt_setCmt ..
    refine ⟨h.drop hp rfl rfl rfl ?_ fun q hq => ?_,
      ⟨.invalidatePage (not_inZone_data (h.copies page p hp).1), rfl, rfl, rfl, fun q => ?_⟩, rfl,
      fun q hq => ?_⟩
    · show ((s.cold.setTPpa page none).cmt page).tPpa = none
      rw [hcmt, if_pos rfl]
    · show ((s.cold.setTPpa page none).cmt q).tPpa = _
      rw [hcmt, if_neg hq]
    · show ((s.cold.setTPpa page none).cmt q).pt = _
      rw [hcmt]
      split
      · next he => rw [he]
      · rfl
    · show (s.cold.setTPpa page none).cmt q = _
      rw [hcmt, if_neg hq]

/-- One resident node of the first loop: its page becomes dirty. -/
theorem MapOk.moveResident {s s₁ : Store} (h : MapOk cfg s) {n : GcNode}
    (hpt : (s.cold.cmt (dIdx n.lpa)).pt = true)
    (hs : s₁ = Store.update cfg { s with cold := (s.cold.isHit n.lpa).2 } n.lpa
      { (s.cold.isHit n.lpa).2.getPte n.lpa with ppa := some n.ppa }) :
    MapOk cfg s₁ ∧ Remaps cfg s s₁ ∧ Moves s.cold.memTable s₁.cold.memTable [n] ∧
      ∀ q, (s₁.cold.cmt q).backed = (decide (q = dIdx n.lpa) || (s.cold.cmt q).backed) := by
  rw [Cold.isHit_of_pt hpt] at hs
  dsimp only at hs
  generalize hc : s.cold.setCmt (dIdx n.lpa) { s.cold.cmt (dIdx n.lpa) with
    hitCnt := ((s.cold.cmt (dIdx n.lpa)).hitCnt + 1) % 4294967296 } = c at hs
  have hcmt : ∀ q, (c.cmt q).pt = (s.cold.cmt q).pt ∧ (c.cmt q).tPpa = (s.cold.cmt q).tPpa ∧
      (c.cmt q).backed = (s.cold.cmt q).backed := fun q => by
    rw [← hc, Cold.cmt_setCmt]
    split
    · next hq =>
      subst hq
      exact ⟨rfl, rfl, rfl⟩
    · exact ⟨rfl, rfl, rfl⟩
  have hmem : c.memTable = s.cold.memTable := by
    rw [← hc]
    rfl
  -- The hit counts only; the update that follows drops the stale copy.
  have h₁ : MapOk cfg { s with cold := c } :=
    h.congr rfl rfl rfl fun q p hp => (hcmt q).2.1.symm.trans hp
  have hcold : s₁.cold = c.update n.lpa { c.getPte n.lpa with ppa := some n.ppa } := by
    rw [hs]
    rfl
  refine ⟨hs ▸ h₁.update n.lpa _, ⟨?_, ?_, ?_, ?_, fun q => ?_⟩, ?_, fun q => ?_⟩
  · rw [hs]
    exact h₁.update_zone n.lpa _
  · rw [hs]
    rfl
  · rw [hs]
    rfl
  · rw [hs]
    rfl
  · rw [hcold, Cold.update_cmt, ← (hcmt q).1]
    split
    · rfl
    · rfl
  · rw [hcold, Cold.update_memTable, Cold.getPte, hmem]
    exact .one _ n
  -- The page of the node is resident, so it counts as backed although its copy is gone.
  · rw [hcold, Cold.update_cmt, ← (hcmt q).2.2]
    by_cases hq : q = dIdx n.lpa
    · subst hq
      rw [if_pos ⟨rfl, by rw [(hcmt _).1, hpt]⟩, decide_eq_true rfl, Bool.true_or, Cmt.backed,
        (hcmt _).1, hpt]
      rfl
    · rw [if_neg fun he => hq he.1, decide_eq_false hq, Bool.false_or]

/-- The first loop. Pages that are not resident lose their copy until the second. -/
theorem MapOk.updateResident : ∀ {ns : List GcNode} {s : Store}, MapOk cfg s →
    (ns.map (·.lpa)).Nodup →
    MapOk cfg (updateResident cfg s ns).1 ∧ Remaps cfg s (updateResident cfg s ns).1 ∧
      (updateResident cfg s ns).2 = (ns.map fun n => (n, (s.cold.cmt (dIdx n.lpa)).pt)) ∧
      Moves s.cold.memTable (updateResident cfg s ns).1.cold.memTable
        (ns.filter fun n => (s.cold.cmt (dIdx n.lpa)).pt) ∧
      ∀ q, Due s true ns q → Due (updateResident cfg s ns).1 false ns q
  | [], s, h, _ => ⟨h, ⟨.refl _, rfl, rfl, rfl, fun _ => rfl⟩, rfl, .nil _, fun q hq =>
      Or.inl (hq.resolve_right fun ⟨_, hn, _⟩ => by cases hn)⟩
  | n :: ns, s, h, hnd => by
      obtain ⟨hn, hnd⟩ := List.nodup_cons.mp hnd
      have hne : ∀ m ∈ ns, m.lpa ≠ n.lpa := fun m hm he =>
        hn (List.mem_map.mpr ⟨m, hm, he⟩)
      unfold BlockSsd.updateResident
      dsimp only
      cases hpt : (s.cold.cmt (dIdx n.lpa)).pt with
      -- A resident page is updated in place, and the marks of the rest do not change.
      | true =>
        rw [if_pos (by rw [Cold.isHit_of_pt hpt])]
        generalize hs₁ : Store.update cfg { s with cold := (s.cold.isHit n.lpa).2 } n.lpa
          { (s.cold.isHit n.lpa).2.getPte n.lpa with ppa := some n.ppa } = s₁
        obtain ⟨h₁, hrem, hone, hback⟩ := h.moveResident hpt hs₁.symm
        obtain ⟨h₂, hrem', hmarks, hmoves, hdue⟩ := MapOk.updateResident h₁ hnd
        simp only [hrem.pt] at hmarks hmoves
        refine ⟨h₂, hrem.trans hrem', ?_, ?_, fun q hq => ?_⟩
        · rw [hmarks, List.map_cons, hpt]
        · have hfilter : ((n :: ns).filter fun n => (s.cold.cmt (dIdx n.lpa)).pt) =
              [n] ++ ns.filter fun n => (s.cold.cmt (dIdx n.lpa)).pt := List.filter_cons_of_pos hpt
          rw [hfilter]
          refine hone.append hmoves fun n' hn' m hm => ?_
          rw [List.mem_singleton.mp hn']
          exact hne m (List.mem_filter.mp hm).1
        -- The page of `n` is backed now; what was due for `ns` stays due.
        · have hq₁ : Due s₁ true ns q := by
            rcases hq with hb | ⟨m, hm, hmq, hres⟩
            · exact Or.inl (by rw [hback, hb, Bool.or_true])
            · rcases List.mem_cons.mp hm with rfl | hm
              · exact Or.inl (by rw [hback, decide_eq_true hmq.symm, Bool.true_or])
              · exact Or.inr ⟨m, hm, hmq, by rw [hrem.pt, hres]⟩
          exact (hdue q hq₁).imp_right fun ⟨m, hm, hres⟩ => ⟨m, List.mem_cons_of_mem _ hm, hres⟩
      -- A page that is not resident loses its copy and waits for the second loop.
      | false =>
        rw [if_neg (by rw [Cold.isHit_of_not_pt hpt]; exact Bool.false_ne_true)]
        obtain ⟨h₁, hrem, hmem, hcmt⟩ := h.dropCopy (dIdx n.lpa)
        generalize s.dropCopy cfg (dIdx n.lpa) = s₁ at *
        obtain ⟨h₂, hrem', hmarks, hmoves, hdue⟩ := MapOk.updateResident h₁ hnd
        simp only [hrem.pt] at hmarks hmoves
        refine ⟨h₂, hrem.trans hrem', ?_, ?_, fun q hq => ?_⟩
        · rw [hmarks, List.map_cons, hpt]
        · have hfilter : ((n :: ns).filter fun n => (s.cold.cmt (dIdx n.lpa)).pt) =
              ns.filter fun n => (s.cold.cmt (dIdx n.lpa)).pt :=
            List.filter_cons_of_neg (by simp [hpt])
          rw [hfilter, ← hmem]
          exact hmoves
        · by_cases hqn : q = dIdx n.lpa
          · refine Or.inr ⟨n, List.mem_cons_self, hqn.symm, ?_⟩
            rw [hrem'.pt, hrem.pt, hqn, hpt]
          · have hq₁ : Due s₁ true ns q := by
              rcases hq with hb | ⟨m, hm, hmq, hres⟩
              · exact Or.inl (by rw [hcmt q hqn, hb])
              · rcases List.mem_cons.mp hm with rfl | hm
                · exact absurd hmq.symm hqn
                · exact Or.inr ⟨m, hm, hmq, by rw [hrem.pt, hres]⟩
            exact (hdue q hq₁).imp_right fun ⟨m, hm, hres⟩ => ⟨m, List.mem_cons_of_mem _ hm, hres⟩

/-- A page that is not resident is written back: it has a copy, others keep theirs. -/
theorem WrittenBack.backed {s s' : Store} {page : Nat} (h : WrittenBack cfg page s s') {q : Nat}
    (hq : q = page ∨ (s.cold.cmt q).backed = true) : (s'.cold.cmt q).backed = true := by
  by_cases hqp : q = page
  · exact Cmt.backed_of_copy (h.copy q (Or.inl hqp))
  · have hb := hq.resolve_left hqp
    by_cases hd : ((s.cold.cmt q).pt && (s.cold.cmt q).dirty) = true
    · rw [Cmt.backed, h.pt, h.dirty q hqp, hd, Bool.true_or]
    · exact Cmt.backed_of_copy (h.copy q (Or.inr (Cmt.copy_of_backed hb (by simpa using hd))))

/-- The second loop writes every page that lost its copy. -/
theorem MapOk.updateAbsent : ∀ {ns : List GcNode} {inner : Bool} {s s' : Store}, MapOk cfg s →
    (ns.map (·.lpa)).Nodup →
    (inner = true → ∀ n ∈ ns.head?, (s.cold.cmt (dIdx n.lpa)).pt = false) →
    updateAbsent cfg inner s (ns.map fun n => (n, (s.cold.cmt (dIdx n.lpa)).pt)) = some s' →
    MapOk cfg s' ∧ Remaps cfg s s' ∧
      Moves s.cold.memTable s'.cold.memTable
        (ns.filter fun n => !(s.cold.cmt (dIdx n.lpa)).pt) ∧
      ∀ q, Due s false ns q → (s'.cold.cmt q).backed = true
  | [], inner, s, s', h, _, _, hu => by
      cases hu
      exact ⟨h, ⟨.refl _, rfl, rfl, rfl, fun _ => rfl⟩, .nil _, fun q hq =>
        hq.resolve_right fun ⟨_, hn, _⟩ => by cases hn⟩
  | n :: ns, inner, s, s', h, hnd, hin, hu => by
      obtain ⟨hn, hnd⟩ := List.nodup_cons.mp hnd
      have hne : ∀ m ∈ ns, m.lpa ≠ n.lpa := fun m hm he => hn (List.mem_map.mpr ⟨m, hm, he⟩)
      rw [List.map_cons] at hu
      unfold BlockSsd.updateAbsent at hu
      cases hpt : (s.cold.cmt (dIdx n.lpa)).pt with
      -- The first loop has done this node. It cannot follow a node of the same page.
      | true =>
        have hinner : inner = false := by
          cases inner with
          | false => rfl
          | true =>
            have hf := hin rfl n rfl
            rw [hpt] at hf
            cases hf
        rw [if_pos (by rw [hpt, hinner]; rfl)] at hu
        have hnot : false = true → ∀ n ∈ ns.head?, (s.cold.cmt (dIdx n.lpa)).pt = false :=
          fun hf => by cases hf
        obtain ⟨h₁, hrem, hmoves, hdue⟩ := MapOk.updateAbsent h hnd hnot hu
        refine ⟨h₁, hrem, ?_, fun q hq => hdue q (hq.imp_right fun ⟨m, hm, hmq, hres⟩ => ?_)⟩
        · have hfilter : ((n :: ns).filter fun n => !(s.cold.cmt (dIdx n.lpa)).pt) =
              ns.filter fun n => !(s.cold.cmt (dIdx n.lpa)).pt :=
            List.filter_cons_of_neg (by simp [hpt])
          rw [hfilter]
          exact hmoves
        · rcases List.mem_cons.mp hm with rfl | hm
          · rw [hmq, hres] at hpt
            cases hpt
          · exact ⟨m, hm, hmq, hres⟩
      | false =>
        rw [if_neg (by rw [hpt]; simp)] at hu
        dsimp only at hu
        have hfilter : ((n :: ns).filter fun n => !(s.cold.cmt (dIdx n.lpa)).pt) =
            [n] ++ ns.filter fun n => !(s.cold.cmt (dIdx n.lpa)).pt :=
          List.filter_cons_of_pos (by simp [hpt])
        have hone : Moves s.cold.memTable (s.cold.relocate n.lpa n.ppa).memTable [n] := .one _ n
        have hmap : MapOk cfg { s with cold := s.cold.relocate n.lpa n.ppa } :=
          h.congr rfl rfl rfl fun _ _ hp => hp
        have hdisj : ∀ k ∈ [n], ∀ m ∈ ns.filter fun n => !(s.cold.cmt (dIdx n.lpa)).pt,
            m.lpa ≠ k.lpa := fun k hk m hm => by
          rw [List.mem_singleton.mp hk]
          exact hne m (List.mem_filter.mp hm).1
        split at hu
        · next hnext =>
          -- The next entry belongs to the same page, which is written later.
          have hhead : ∃ m ∈ ns, ns.head? = some m ∧ dIdx m.lpa = dIdx n.lpa := by
            cases ns with
            | nil => cases hnext
            | cons m ns => exact ⟨m, List.mem_cons_self, rfl, of_decide_eq_true hnext⟩
          obtain ⟨m, hm, hmhead, hmpage⟩ := hhead
          have hgo : true = true → ∀ k ∈ ns.head?,
              ((s.cold.relocate n.lpa n.ppa).cmt (dIdx k.lpa)).pt = false := fun _ k hk => by
            rw [hmhead] at hk
            cases hk
            rw [hmpage]
            exact hpt
          obtain ⟨h₁, hrem, hmoves, hdue⟩ := MapOk.updateAbsent hmap hnd hgo hu
          refine ⟨h₁, ⟨hrem.zone, hrem.dActive, hrem.dReserve, hrem.content, hrem.pt⟩, ?_,
            fun q hq => hdue q (hq.imp_right fun ⟨k, hk, hkq, hres⟩ => ?_)⟩
          · rw [hfilter]
            exact hone.append hmoves hdisj
          · rcases List.mem_cons.mp hk with rfl | hk
            · exact ⟨m, hm, hmpage.trans hkq, hres⟩
            · exact ⟨k, hk, hkq, hres⟩
        -- The last entry of its page: the page is written, which backs it.
        · obtain ⟨s₁, hw, hu⟩ := Option.bind_eq_some_iff.mp hu
          obtain ⟨h₁, hwb⟩ := hmap.writeTpage hw
          have hpt₁ : ∀ q, (s₁.cold.cmt q).pt = (s.cold.cmt q).pt := hwb.pt
          have hmarks : (ns.map fun n => (n, (s.cold.cmt (dIdx n.lpa)).pt)) =
              ns.map fun n => (n, (s₁.cold.cmt (dIdx n.lpa)).pt) := by simp only [hpt₁]
          rw [hmarks] at hu
          have hnot : false = true → ∀ n ∈ ns.head?, (s₁.cold.cmt (dIdx n.lpa)).pt = false :=
            fun hf => by cases hf
          obtain ⟨h₂, hrem, hmoves, hdue⟩ := MapOk.updateAbsent h₁ hnd hnot hu
          simp only [hpt₁] at hmoves
          rw [hwb.data.memTable] at hmoves
          have hrem₁ : Remaps cfg s s₁ := ⟨hwb.data.zone, hwb.data.dActive, hwb.data.dReserve,
            hwb.data.content, hpt₁⟩
          refine ⟨h₂, hrem₁.trans hrem, ?_, fun q hq => hdue q ?_⟩
          · rw [hfilter]
            exact hone.append hmoves hdisj
          · rcases hq with hb | ⟨k, hk, hkq, hres⟩
            · exact Or.inl (hwb.backed (Or.inr hb))
            · rcases List.mem_cons.mp hk with rfl | hk
              · exact Or.inl (hwb.backed (Or.inl hkq.symm))
              · exact Or.inr ⟨k, hk, hkq, by rw [hpt₁, hres]⟩

/-- The mapping update of a collection moves exactly the values of its nodes. -/
theorem MapSide.bulkMappingUpdate {s s' : Store} (h : MapSide cfg s) {ns : List GcNode}
    (hnd : (ns.map (·.lpa)).Nodup) (hu : bulkMappingUpdate cfg s ns = some s') :
    MapSide cfg s' ∧ Remaps cfg s s' ∧ Moves s.cold.memTable s'.cold.memTable ns := by
  unfold BlockSsd.bulkMappingUpdate at hu
  have hperm : (ns.mergeSort fun a b => a.lpa ≤ b.lpa).Perm ns := List.mergeSort_perm _ _
  generalize (ns.mergeSort fun a b => a.lpa ≤ b.lpa) = ms at *
  have hnd' : (ms.map (·.lpa)).Nodup := (hperm.map _).nodup_iff.mpr hnd
  obtain ⟨h₁, hrem, hmarks, hmoves, hdue⟩ := h.map.updateResident hnd'
  dsimp only at hu
  have hpt : ∀ q, ((updateResident cfg s ms).1.cold.cmt q).pt = (s.cold.cmt q).pt := hrem.pt
  -- The first pass leaves residency alone, so the marks tell it for both.
  have hmarks' : (updateResident cfg s ms).2 =
      ms.map fun n => (n, ((updateResident cfg s ms).1.cold.cmt (dIdx n.lpa)).pt) := by
    rw [hmarks]
    simp only [hpt]
  rw [hmarks'] at hu
  have hnot : false = true → ∀ n ∈ ms.head?,
      ((updateResident cfg s ms).1.cold.cmt (dIdx n.lpa)).pt = false := fun hf => by cases hf
  obtain ⟨h₂, hrem', hmoves', hbacked⟩ := h₁.updateAbsent hnd' hnot hu
  simp only [hpt] at hmoves'
  have hall : Moves s.cold.memTable s'.cold.memTable ns := by
    refine (hmoves.append hmoves' fun n hn m hm => ?_).congr fun n => ?_
    · intro he
      have hnm : m = n := List.inj_on_of_nodup_map hnd' (List.mem_filter.mp hm).1
        (List.mem_filter.mp hn).1 he
      have hres := (List.mem_filter.mp hn).2
      have hout := (List.mem_filter.mp hm).2
      rw [hnm] at hout
      simp_all
    · rw [← hperm.mem_iff, List.mem_append, List.mem_filter, List.mem_filter]
      cases (s.cold.cmt (dIdx n.lpa)).pt <;> simp
  refine ⟨⟨h₂, fun l hl => ?_⟩, hrem.trans hrem', hall⟩
  -- A page that was moved is marked, another one was backed before.
  by_cases hmem : ∃ n ∈ ns, n.lpa = l
  · obtain ⟨n, hn, rfl⟩ := hmem
    have hn' : n ∈ ms := hperm.mem_iff.mpr hn
    cases hp : (s.cold.cmt (dIdx n.lpa)).pt with
    | true => exact hbacked _ (hdue _ (Or.inr ⟨n, hn', rfl, hp⟩))
    | false => exact hbacked _ (Or.inr ⟨n, hn', rfl, by rw [hpt, hp]⟩)
  · have hsame : s'.cold.memTable l = s.cold.memTable l :=
      hall.2 l fun n hn he => hmem ⟨n, hn, he⟩
    rw [hsame] at hl
    exact hbacked _ (hdue _ (Or.inl (h.backed l hl)))

end AggreKV.BlockSsd
