import AggreKV.HashKv.Occupancy

/-! # The mapping update of a collection

    `_do_bulk_mapping_update` takes the flash copies of the absent pages
    away first and writes the pages back one after the other. In between a
    page has neither a copy nor a place in the cache, and each write-back
    may itself collect.

    * `MappingInvariant`: a property of the store in which a set of pages
      is excepted; the first loop adds to the set, the second removes from
      it.
    * `MappingInvariant.bulkMappingUpdate`: at the end no page is excepted.
      The nodes are sorted, so no page is written back twice. -/

namespace AggreKV.HashKv

variable {cfg : Settings}

/-- The first loop on a page that is not resident: it gives up its flash copy. -/
def Store.dropCopy (cfg : Settings) (s : Store) (page : Nat) : Store :=
  match (s.cold.cmt page).tPpa with
  | none => s
  | some p =>
    { s with
      bm := invalidatePage cfg s.bm p
      cold := s.cold.setTPpa page none }

/-- The write-backs of the second loop: the store and the page of each. -/
def absentCalls (cfg : Settings) (inner : Bool) (s : Store) :
    List (GcNode × Bool) → List (Store × Nat)
  | [] => []
  | (n, skip) :: ns =>
    if !inner && skip then absentCalls cfg false s ns
    else
      let page := dIdx n.lpa
      let s := { s with cold := s.cold.relocate n.lpa n.ppa }
      if ns.head?.any fun m => dIdx m.1.lpa = page then absentCalls cfg true s ns
      else
        (s, page) :: match s.writeTpage cfg page with
          | some s => absentCalls cfg false s ns
          | none => []

/-- The write-backs of `_do_bulk_mapping_update`. -/
def mappingCalls (cfg : Settings) (s : Store) (nodes : List GcNode) : List (Store × Nat) :=
  let (s, marked) := updateResident cfg s (nodes.mergeSort fun a b => a.lpa ≤ b.lpa)
  absentCalls cfg false s marked

/-- `Q` holds of the new addresses; `P E` excepts the pages `E`. -/
structure MappingInvariant (cfg : Settings) (Q : Nat → Prop) (P : (Nat → Prop) → Store → Prop) :
    Prop where
  isHit : ∀ {E s} lpa, P E s → P E { s with cold := (s.cold.isHit cfg lpa).2 }
  update : ∀ {E s} lpa ppa, Q ppa → (s.cold.cmt (dIdx lpa)).isResident = true → P E s →
    P E (s.update cfg lpa { s.cold.getPte lpa with ppa := some ppa })
  dropCopy : ∀ {E s} page, (s.cold.cmt page).isResident = false → P E s →
    P (fun q => E q ∨ q = page) (s.dropCopy cfg page)
  relocate : ∀ {E s} lpa ppa, Q ppa → E (dIdx lpa) → P E s →
    P E { s with cold := s.cold.relocate lpa ppa }
  write : ∀ {E s s'} page, E page → P E s → s.writeTpage cfg page = some s' →
    P (fun q => E q ∧ q ≠ page) s'

/-- The same pages are resident. -/
theorem SameResidence.isResident {c c' : Cold} (h : SameResidence c c') (page : Nat) :
    (c'.cmt page).isResident = (c.cmt page).isResident := by
  unfold Cmt.isResident
  rw [h.pt, h.ghostMark]

/-- A lookup leaves the residence alone. -/
theorem SameResidence.isHit (cfg : Settings) (c : Cold) (lpa : Nat) :
    SameResidence c (c.isHit cfg lpa).2 := by
  unfold Cold.isHit
  split
  · dsimp only
    split
    · exact coldGrainAccess c lpa
    · exact refl c
  · exact refl c

/-- And so does giving a copy up. -/
theorem SameResidence.dropCopy (cfg : Settings) (s : Store) (page : Nat) :
    SameResidence s.cold (s.dropCopy cfg page).cold := by
  unfold Store.dropCopy
  split
  · exact refl _
  · exact setCmt _ _ rfl rfl rfl

/-- The pages that wait to be written back. -/
def Absent (marked : List (GcNode × Bool)) (page : Nat) : Prop :=
  ∃ m ∈ marked, m.2 = false ∧ dIdx m.1.lpa = page

/-- The pages to be written back, node by node. -/
theorem absent_cons (n : GcNode) (skip : Bool) (ns : List (GcNode × Bool)) (page : Nat) :
    Absent ((n, skip) :: ns) page ↔ (skip = false ∧ dIdx n.lpa = page) ∨ Absent ns page := by
  unfold Absent
  rw [List.exists_mem_cons_iff]

/-- What the second loop relies on: the nodes are sorted, and those of one page are
    marked alike. -/
structure Grouped (marked : List (GcNode × Bool)) : Prop where
  sorted : marked.Pairwise fun m m' => m.1.lpa ≤ m'.1.lpa
  alike : ∀ m ∈ marked, ∀ m' ∈ marked, dIdx m.1.lpa = dIdx m'.1.lpa → m.2 = m'.2

/-- The rest of a sorted list of marked nodes. -/
theorem Grouped.tail {m : GcNode × Bool} {ns : List (GcNode × Bool)} (h : Grouped (m :: ns)) :
    Grouped ns :=
  ⟨(List.pairwise_cons.mp h.sorted).2, fun a ha b hb =>
    h.alike a (List.mem_cons_of_mem _ ha) b (List.mem_cons_of_mem _ hb)⟩

/-- A page whose run of nodes ends here does not come back. -/
theorem Grouped.not_absent {n : GcNode} {skip : Bool} {ns : List (GcNode × Bool)}
    (h : Grouped ((n, skip) :: ns))
    (hend : ¬ns.head?.any (fun m => dIdx m.1.lpa = dIdx n.lpa) = true) :
    ¬Absent ns (dIdx n.lpa) := by
  rintro ⟨m, hm, -, hpage⟩
  cases ns with
  | nil => cases hm
  | cons x xs =>
    simp only [List.head?_cons, Option.any_some, decide_eq_true_eq] at hend
    have hn : n.lpa ≤ x.1.lpa := (List.pairwise_cons.mp h.sorted).1 x (List.mem_cons_self ..)
    have hx : x.1.lpa ≤ m.1.lpa := by
      rcases List.mem_cons.mp hm with rfl | hm
      · exact Nat.le_refl _
      · exact (List.pairwise_cons.mp h.tail.sorted).1 m hm
    unfold dIdx at hpage hend
    omega

namespace MappingInvariant

variable {Q : Nat → Prop} {P : (Nat → Prop) → Store → Prop}

theorem congr {E E' : Nat → Prop} {s : Store} (he : ∀ page, E page ↔ E' page) (h : P E s) :
    P E' s := by
  have heq : E = E' := funext fun page => propext (he page)
  exact heq ▸ h

/-- The first loop marks a node when its page is resident; the other pages are excepted
    from now on. -/
theorem updateResident (hP : MappingInvariant cfg Q P) : ∀ (nodes : List GcNode) {s : Store}
    {E : Nat → Prop}, (∀ n ∈ nodes, Q n.ppa) → P E s →
      (HashKv.updateResident cfg s nodes).2 =
        nodes.map (fun n => (n, (s.cold.cmt (dIdx n.lpa)).isResident)) ∧
      P (fun page => E page ∨ Absent (HashKv.updateResident cfg s nodes).2 page)
        (HashKv.updateResident cfg s nodes).1
  | [], s, E, _, h => by
      refine ⟨rfl, congr (fun page => ?_) h⟩
      exact ⟨Or.inl, fun hp => hp.resolve_right fun ⟨m, hm, _⟩ => by cases hm⟩
  | n :: ns, s, E, hq, h => by
      have hqs : ∀ m ∈ ns, Q m.ppa := fun m hm => hq m (List.mem_cons_of_mem _ hm)
      have hhit := hP.isHit n.lpa h
      have hres := SameResidence.isHit cfg s.cold n.lpa
      have hmarks : ∀ {s' : Store}, SameResidence s.cold s'.cold →
          ns.map (fun m => (m, (s'.cold.cmt (dIdx m.lpa)).isResident)) =
            ns.map (fun m => (m, (s.cold.cmt (dIdx m.lpa)).isResident)) := fun hsame => by
        refine List.map_congr_left fun m _ => ?_
        rw [hsame.isResident]
      unfold HashKv.updateResident
      simp only [Cold.isHit_fst]
      -- Is the page of the node resident?
      split
      · next hr =>
        have h₁ := hP.update n.lpa n.ppa (hq n (List.mem_cons_self ..))
          (by rw [hres.isResident]; exact hr) hhit
        obtain ⟨hm, hrest⟩ := updateResident hP ns hqs h₁
        have hsame := hres.trans (SameResidence.update (s.cold.isHit cfg n.lpa).2 n.lpa
          { Cold.getPte (s.cold.isHit cfg n.lpa).2 n.lpa with ppa := some n.ppa })
        refine ⟨?_, congr (fun page => ?_) hrest⟩
        · rw [List.map_cons, hr, hm, hmarks hsame]
        · rw [absent_cons]
          simp
      · next hr =>
        rw [Bool.not_eq_true] at hr
        have h₁ := hP.dropCopy (dIdx n.lpa) (by rw [hres.isResident]; exact hr) hhit
        obtain ⟨hm, hrest⟩ := updateResident hP ns hqs h₁
        have hsame := hres.trans (SameResidence.dropCopy cfg
          { s with cold := (s.cold.isHit cfg n.lpa).2 } (dIdx n.lpa))
        refine ⟨?_, congr (fun page => ?_) hrest⟩
        · show (n, false) :: (HashKv.updateResident cfg _ ns).2 = _
          rw [List.map_cons, hr, ← hmarks hsame, ← hm]
          rfl
        · show _ ↔ E page ∨ Absent ((n, false) :: (HashKv.updateResident cfg _ ns).2) page
          rw [absent_cons, or_assoc]
          refine or_congr_right (or_congr_left ?_)
          exact ⟨fun he => ⟨rfl, he.symm⟩, fun he => he.2.symm⟩

/-- The second loop writes the excepted pages back, each of them while it is excepted. -/
theorem updateAbsent (hP : MappingInvariant cfg Q P) : ∀ {marked : List (GcNode × Bool)}
    {inner : Bool} {s : Store}, Grouped marked → (∀ m ∈ marked, Q m.1.ppa) →
      (inner = true → ∀ m ∈ marked.head?, m.2 = false) → P (Absent marked) s →
      (∀ c ∈ absentCalls cfg inner s marked, ∃ E : Nat → Prop, E c.2 ∧ P E c.1) ∧
      ∀ s', HashKv.updateAbsent cfg inner s marked = some s' → P (fun _ => False) s'
  | [], inner, s, _, _, _, h => by
      refine ⟨(fun c hc => by cases hc), fun s' hu => ?_⟩
      cases hu
      refine congr (fun page => iff_of_false (fun hp => ?_) id) h
      obtain ⟨m, hm, -⟩ := hp
      cases hm
  | (n, skip) :: ns, inner, s, hg, hq, hin, h => by
      have hqs : ∀ m ∈ ns, Q m.1.ppa := fun m hm => hq m (List.mem_cons_of_mem _ hm)
      unfold HashKv.updateAbsent absentCalls
      -- A node that was handled by the first loop is passed over.
      by_cases hskip : (!inner && skip) = true
      · rw [if_pos hskip, if_pos hskip]
        simp only [Bool.and_eq_true, Bool.not_eq_true'] at hskip
        refine updateAbsent hP hg.tail hqs (fun hf => by cases hf) (congr (fun page => ?_) h)
        rw [absent_cons, hskip.2]
        simp
      · rw [if_neg hskip, if_neg hskip]
        have hfalse : skip = false := by
          cases inner with
          | true => exact hin rfl (n, skip) rfl
          | false => simpa using hskip
        have hpage : Absent ((n, skip) :: ns) (dIdx n.lpa) :=
          (absent_cons ..).mpr (Or.inl ⟨hfalse, rfl⟩)
        have h₁ := hP.relocate n.lpa n.ppa (hq _ (List.mem_cons_self ..)) hpage h
        dsimp only
        by_cases hnext : ns.head?.any (fun m => dIdx m.1.lpa = dIdx n.lpa) = true
        · rw [if_pos hnext, if_pos hnext]
          -- The next node belongs to the same page and is marked like this one.
          obtain ⟨m, hhead, hm⟩ := (Option.any_eq_true ..).mp hnext
          rw [decide_eq_true_eq] at hm
          have hmem := List.mem_of_mem_head? hhead
          have hflag : m.2 = false := (hg.alike m (List.mem_cons_of_mem _ hmem) (n, skip)
            (List.mem_cons_self ..) hm).trans hfalse
          refine updateAbsent hP hg.tail hqs (fun _ x hx => ?_) (congr (fun page => ?_) h₁)
          · rw [Option.mem_def, hhead, Option.some.injEq] at hx
            exact hx ▸ hflag
          · rw [absent_cons]
            refine ⟨fun hp => hp.elim (fun hp => ?_) id, Or.inr⟩
            exact ⟨m, hmem, hflag, hm.trans hp.2⟩
        · rw [if_neg hnext, if_neg hnext]
          have hnot := hg.not_absent hnext
          have hrest : ∀ s₁, Store.writeTpage cfg
              { s with cold := s.cold.relocate n.lpa n.ppa } (dIdx n.lpa) = some s₁ →
                P (Absent ns) s₁ := fun s₁ hw => by
            refine congr (fun page => ?_) (hP.write _ hpage h₁ hw)
            rw [absent_cons]
            refine ⟨fun hp => hp.1.elim (fun he => absurd he.2.symm hp.2) id,
              fun hp => ⟨Or.inr hp, ?_⟩⟩
            rintro rfl
            exact hnot hp
          refine ⟨fun c hc => ?_, fun s' hu => ?_⟩
          · rcases List.mem_cons.mp hc with rfl | hc
            · exact ⟨_, hpage, h₁⟩
            · split at hc
              · next s₁ hw =>
                exact (updateAbsent hP hg.tail hqs (fun hf => by cases hf) (hrest s₁ hw)).1 c hc
              · cases hc
          · obtain ⟨s₁, hw, hu⟩ := Option.bind_eq_some_iff.mp hu
            exact (updateAbsent hP hg.tail hqs (fun hf => by cases hf) (hrest s₁ hw)).2 s' hu

/-- A mapping update writes excepted pages back and leaves no page excepted. -/
theorem mappingUpdate (hP : MappingInvariant cfg Q P) {s : Store} {nodes : List GcNode}
    (hq : ∀ n ∈ nodes, Q n.ppa) (h : P (fun _ => False) s) :
    (∀ c ∈ mappingCalls cfg s nodes, ∃ E : Nat → Prop, E c.2 ∧ P E c.1) ∧
      ∀ s', HashKv.bulkMappingUpdate cfg s nodes = some s' → P (fun _ => False) s' := by
  have hsorted := @List.pairwise_mergeSort GcNode (fun a b => decide (a.lpa ≤ b.lpa))
    (fun a b c hab hbc => by
      rw [decide_eq_true_eq] at hab hbc ⊢
      exact Nat.le_trans hab hbc)
    (fun a b => by
      rw [Bool.or_eq_true, decide_eq_true_eq, decide_eq_true_eq]
      exact Nat.le_total ..) nodes
  have hq' : ∀ n ∈ nodes.mergeSort fun a b => a.lpa ≤ b.lpa, Q n.ppa :=
    fun n hn => hq n (List.mem_mergeSort.mp hn)
  -- Resident pages first, then the absent ones in the order of the sort.
  obtain ⟨hm, h₁⟩ := hP.updateResident _ hq' h
  refine hP.updateAbsent ⟨?_, ?_⟩ (fun m hmem => ?_) (fun hf => by cases hf)
    (congr (fun page => by simp) h₁)
  · rw [hm, List.pairwise_map]
    exact hsorted.imp of_decide_eq_true
  · rw [hm]
    intro a ha b hb hab
    obtain ⟨x, _, rfl⟩ := List.mem_map.mp ha
    obtain ⟨y, _, rfl⟩ := List.mem_map.mp hb
    dsimp only at hab ⊢
    rw [hab]
  · rw [hm] at hmem
    obtain ⟨x, hx, rfl⟩ := List.mem_map.mp hmem
    exact hq' x hx

theorem bulkMappingUpdate (hP : MappingInvariant cfg Q P) {s s' : Store} {nodes : List GcNode}
    (hq : ∀ n ∈ nodes, Q n.ppa) (h : P (fun _ => False) s)
    (hu : HashKv.bulkMappingUpdate cfg s nodes = some s') : P (fun _ => False) s' :=
  (hP.mappingUpdate hq h).2 s' hu

end MappingInvariant

end AggreKV.HashKv
