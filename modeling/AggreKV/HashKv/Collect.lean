import AggreKV.HashKv.Passes

/-! # What allocation and eviction do to the mapping tables

    Page allocation and garbage collection touch the mapping tables only
    through a handful of operations. A property of the tables that these
    keep is kept by the whole collectors.

    * `TpageInvariant`: kept by the allocation of translation pages.
    * `Store.gcItems`: what a collection of data pages would move now.
    * `GcInvariant`: kept by collections that move items of some slots only.
    * `ListUpInvariant`: kept by the parts of `list_up`. -/

namespace AggreKV.HashKv

variable {cfg : Settings}

/-! ## Section 1: Translation pages -/

/-- A property of the tables that the two ways to set `t_ppa` keep. -/
structure TpageInvariant (P : Cold → Hot → Prop) : Prop where
  setTPpa : ∀ {c h} page t, P c h → P (c.setTPpa page t) h
  written : ∀ {c h} page ppa, P c h → P (c.written page ppa) h

namespace TpageInvariant

variable {P : Cold → Hot → Prop}

/-- A collection of mapping pages sets their flash addresses. -/
theorem moveTpages (hP : TpageInvariant P) (rsv : Nat) : ∀ (pages : List Nat) (s : Store),
    P s.cold s.hot → P (pages.foldl (moveTpage cfg rsv) s).cold
      (pages.foldl (moveTpage cfg rsv) s).hot
  | [], _, h => h
  | page :: pages, _, h => moveTpages hP rsv pages _ (hP.setTPpa page _ h)

/-- So does the whole collection. -/
theorem tpageGc (hP : TpageInvariant P) {s s' : Store} (h : P s.cold s.hot)
    (hg : HashKv.tpageGc cfg s = some s') : P s'.cold s'.hot := by
  unfold HashKv.tpageGc at hg
  simp only [Option.bind_eq_bind, Option.bind_eq_some_iff, Option.pure_def, Option.some.injEq] at hg
  obtain ⟨target, _, rsv, _, ⟨bm, pages⟩, _, rfl⟩ := hg
  exact hP.moveTpages rsv pages { s with bm := bm } h

/-- And the switch to another superblock. -/
theorem tSwitch (hP : TpageInvariant P) {s s' : Store} (h : P s.cold s.hot)
    (ha : HashKv.tSwitch cfg s = some s') : P s'.cold s'.hot := by
  unfold HashKv.tSwitch at ha
  split at ha
  · split at ha
    · exact hP.tpageGc h ha
    · obtain ⟨⟨i, bm⟩, _, rfl⟩ := Option.map_eq_some_iff.mp ha
      exact h
  · cases ha
    exact h

theorem tpAlloc (hP : TpageInvariant P) {s s' : Store} {ppa : Nat} (h : P s.cold s.hot)
    (ha : HashKv.tpAlloc cfg s = some (ppa, s')) : P s'.cold s'.hot := by
  unfold HashKv.tpAlloc at ha
  simp only [Option.bind_eq_bind, Option.bind_eq_some_iff] at ha
  obtain ⟨s₁, hs₁, a, _, he⟩ := ha
  cases he
  have hP₁ := hP.tSwitch h hs₁
  exact hP₁

/-- A write-back sets the address of the page. -/
theorem writeTpage (hP : TpageInvariant P) {s s' : Store} {page : Nat} (h : P s.cold s.hot)
    (hw : s.writeTpage cfg page = some s') : P s'.cold s'.hot := by
  obtain ⟨⟨ppa, s₁⟩, ha, rfl⟩ := Option.map_eq_some_iff.mp hw
  exact hP.written page ppa (hP.tpAlloc h ha)

end TpageInvariant

/-! ## Section 2: Writing the live items back -/

/-- The tables and the hot table are left alone. -/
def SameTables (s s' : Store) : Prop := s'.cold = s.cold ∧ s'.hot = s.hot

theorem gcOpenPage_tables {idx : Nat} {s s' : Store} {cur cur' : GcCursor}
    (h : gcOpenPage cfg idx s cur = some (s', cur')) : SameTables s s' := by
  unfold gcOpenPage at h
  simp only [Option.bind_eq_bind, Option.bind_eq_some_iff] at h
  obtain ⟨⟨a, bm⟩, _, h⟩ := h
  split at h
  · cases h
    exact ⟨rfl, rfl⟩
  · split at h
    · cases h
      exact ⟨rfl, rfl⟩
    · split at h
      · cases h
        exact ⟨rfl, rfl⟩
      · cases h

theorem gcPlace_tables {idx : Nat} {s s' : Store} {cur : GcCursor} {it : GcItem} {n : GcNode}
    (h : gcPlace cfg idx s cur it = some (s', n)) : SameTables s s' := by
  obtain ⟨bm, _, he⟩ := Option.map_eq_some_iff.mp h
  cases he
  exact ⟨rfl, rfl⟩

theorem gcPage_tables {idx : Nat} {s s' : Store} {cur cur' : GcCursor}
    (h : gcPage cfg idx s cur = some (s', cur')) : SameTables s s' := by
  unfold gcPage at h
  split at h
  · exact gcOpenPage_tables h
  · cases h
    exact ⟨rfl, rfl⟩

/-- The write loop of a collection leaves the tables alone. -/
theorem gcWriteLoop_tables {idx : Nat} : ∀ {items : List GcItem} {s s' : Store}
    {cur cur' : GcCursor} {nodes : List GcNode},
    gcWriteLoop cfg idx s cur items = some (s', cur', nodes) → SameTables s s'
  | [], s, s', cur, cur', nodes, h => by
      cases h
      exact ⟨rfl, rfl⟩
  | it :: items, s, s', cur, cur', nodes, h => by
      unfold gcWriteLoop at h
      simp only [Option.bind_eq_bind, Option.bind_eq_some_iff] at h
      obtain ⟨⟨s₁, cur₁⟩, h₁, ⟨s₂, n⟩, h₂, ⟨s₃, cur₃, ns⟩, h₃, he⟩ := h
      cases he
      have t₁ := gcPage_tables h₁
      have t₂ := gcPlace_tables h₂
      have t₃ := gcWriteLoop_tables h₃
      exact ⟨t₃.1.trans (t₂.1.trans t₁.1), t₃.2.trans (t₂.2.trans t₁.2)⟩

theorem writeItemsStream_tables {s s' : Store} {target : Nat} {items : List GcItem}
    {nodes : List GcNode} (h : writeItemsStream cfg s target items = some (s', nodes)) :
    SameTables s s' := by
  unfold writeItemsStream at h
  simp only [Option.bind_eq_bind, Option.bind_eq_some_iff] at h
  obtain ⟨⟨s₁, cur, ns⟩, hl, h⟩ := h
  have t := gcWriteLoop_tables hl
  split at h
  · cases h
    exact t
  · split at h
    · cases h
      exact t
    · cases h

theorem writeItemsReserve_tables {s s' : Store} {items : List GcItem} {nodes : List GcNode}
    (h : writeItemsReserve cfg s items = some (s', nodes)) : SameTables s s' := by
  unfold writeItemsReserve at h
  simp only [Option.bind_eq_bind, Option.bind_eq_some_iff] at h
  obtain ⟨rsv, _, ⟨bm, ns, copied⟩, _, h⟩ := h
  cases h
  exact ⟨rfl, rfl⟩

/-- So does writing the items by either way. -/
theorem writeItems_tables {s s' : Store} {target : Nat} {pages : List Nat} {items : List GcItem}
    {nodes : List GcNode} (h : writeItems cfg s target pages items = some (s', nodes)) :
    SameTables s s' := by
  unfold writeItems at h
  split at h
  · cases h
    exact ⟨rfl, rfl⟩
  · split at h
    · exact writeItemsStream_tables h
    · exact writeItemsReserve_tables h

theorem retireVictim_tables (cfg : Settings) (s : Store) (target : Nat) :
    SameTables s (retireVictim cfg s target) := by
  unfold retireVictim
  dsimp only
  split
  · split <;> exact ⟨rfl, rfl⟩
  · exact ⟨rfl, rfl⟩

/-- The items of a superblock that is collected have a length that fits a page. -/
theorem collectGrains_len : ∀ {n : Nat} {bm bm' : Bm} {pga skip : Nat} {items : List GcItem},
    collectGrains cfg bm pga skip n = some (bm', items) → ∀ it ∈ items, 0 < it.len ∧ it.len ≤ 4
  | 0, bm, bm', pga, skip, items, h => by
      cases h
      exact fun _ hit => by cases hit
  | n + 1, bm, bm', pga, skip + 1, items, h => collectGrains_len (n := n) h
  | n + 1, bm, bm', pga, 0, items, h => by
      unfold collectGrains at h
      dsimp only at h
      split at h
      · split at h
        · cases h
        · obtain ⟨⟨bm₁, rest⟩, hr, he⟩ := Option.map_eq_some_iff.mp h
          cases he
          intro it hit
          rcases List.mem_cons.mp hit with rfl | hit
          · dsimp only
            omega
          · exact collectGrains_len hr it hit
      · exact collectGrains_len h

/-- A collected item has one to four grains. -/
theorem collectPages_len : ∀ {ppas : List Nat} {bm bm' : Bm} {items : List GcItem},
    collectPages cfg bm ppas = some (bm', items) → ∀ it ∈ items, 0 < it.len ∧ it.len ≤ 4
  | [], bm, bm', items, h => by
      cases h
      exact fun _ hit => by cases hit
  | ppa :: ppas, bm, bm', items, h => by
      obtain ⟨⟨bm₁, first⟩, hf, h⟩ := Option.bind_eq_some_iff.mp h
      dsimp only at h
      split at h
      · cases h
      · obtain ⟨⟨bm₂, rest⟩, hr, he⟩ := Option.map_eq_some_iff.mp h
        cases he
        intro it hit
        rcases List.mem_append.mp hit with hit | hit
        · exact collectGrains_len hf it hit
        · exact collectPages_len hr it hit

/-- The buckets hold all items. -/
theorem bucketItems_perm {items : List GcItem} (h : ∀ it ∈ items, 0 < it.len ∧ it.len ≤ 4) :
    ((bucketItems items).upTo 4).Perm items := by
  have hp := Buckets.upTo_foldl_push (fun it : GcItem => it.len) items .empty h
  rwa [Buckets.upTo_empty, List.append_nil] at hp

/-- The nodes name the slots of the placed items. -/
theorem placeNodes_lpas : ∀ {ps : List (Placed GcItem)} {bm bm' : Bm} {ppa : Nat}
    {nodes : List GcNode}, placeNodes cfg bm ppa ps = some (bm', nodes) →
      nodes.map (·.lpa) = ps.map (·.item.lpa)
  | [], bm, bm', ppa, nodes, h => by
      cases h
      rfl
  | p :: ps, bm, bm', ppa, nodes, h => by
      obtain ⟨bm₁, _, h⟩ := Option.bind_eq_some_iff.mp h
      obtain ⟨⟨bm₂, rest⟩, hr, he⟩ := Option.map_eq_some_iff.mp h
      cases he
      rw [List.map_cons, List.map_cons, placeNodes_lpas hr]

/-- The packed pages take items out of the buckets. -/
theorem packPages_lpas : ∀ {fuel todo rsv copied : Nat} {bm bm' : Bm} {b : Buckets GcItem}
    {nodes : List GcNode}, packPages cfg rsv bm b todo fuel = some (bm', nodes, copied) →
      ∀ n ∈ nodes, ∃ it ∈ b.upTo 4, it.lpa = n.lpa
  | 0, todo, rsv, copied, bm, bm', b, nodes, h => by
      cases h
      exact fun _ hn => by cases hn
  | fuel + 1, todo, rsv, copied, bm, bm', b, nodes, h => by
      unfold packPages at h
      split at h
      · cases h
        exact fun _ hn => by cases hn
      · obtain ⟨⟨bm₁, first⟩, hf, h⟩ := Option.bind_eq_some_iff.mp h
        obtain ⟨⟨bm₂, rest, copied'⟩, hr, he⟩ := Option.map_eq_some_iff.mp h
        cases he
        have hperm := @Buckets.fill_perm GcItem 4 0 4 4 b (Nat.le_refl _)
        intro n hn
        rcases List.mem_append.mp hn with hn | hn
        · have hmem := List.mem_map_of_mem (f := GcNode.lpa) hn
          rw [placeNodes_lpas hf] at hmem
          obtain ⟨p, hp, hl⟩ := List.mem_map.mp hmem
          exact ⟨p.item, hperm.subset (List.mem_append_left _ (List.mem_map_of_mem hp)), hl⟩
        · obtain ⟨it, hit, hl⟩ := packPages_lpas hr n hn
          exact ⟨it, hperm.subset (List.mem_append_right _ hit), hl⟩

/-- The nodes name the slots of the items. -/
theorem gcWriteLoop_lpas {idx : Nat} : ∀ {items : List GcItem} {s s' : Store}
    {cur cur' : GcCursor} {nodes : List GcNode},
    gcWriteLoop cfg idx s cur items = some (s', cur', nodes) →
      nodes.map (·.lpa) = items.map (·.lpa)
  | [], s, s', cur, cur', nodes, h => by
      cases h
      rfl
  | it :: items, s, s', cur, cur', nodes, h => by
      unfold gcWriteLoop at h
      simp only [Option.bind_eq_bind, Option.bind_eq_some_iff] at h
      obtain ⟨⟨s₁, cur₁⟩, h₁, ⟨s₂, n⟩, h₂, ⟨s₃, cur₃, ns⟩, h₃, he⟩ := h
      obtain ⟨bm, _, hn⟩ := Option.map_eq_some_iff.mp h₂
      cases hn
      cases he
      rw [List.map_cons, List.map_cons, gcWriteLoop_lpas h₃]

/-- Each relocated item is one of the live items. -/
theorem writeItems_lpas {s s' : Store} {target : Nat} {pages : List Nat} {items : List GcItem}
    {nodes : List GcNode} (hlen : ∀ it ∈ items, 0 < it.len ∧ it.len ≤ 4)
    (h : writeItems cfg s target pages items = some (s', nodes)) :
    ∀ n ∈ nodes, ∃ it ∈ items, it.lpa = n.lpa := by
  unfold writeItems at h
  split at h
  · cases h
    exact fun _ hn => by cases hn
  · split at h
    -- In a segregated build the items are written through the stream of the victim.
    · unfold writeItemsStream at h
      simp only [Option.bind_eq_bind, Option.bind_eq_some_iff] at h
      obtain ⟨⟨s₁, cur, ns⟩, hl, h⟩ := h
      have hns : ns = nodes := by
        split at h
        · cases h
          rfl
        · split at h
          · cases h
            rfl
          · cases h
      subst hns
      intro n hn
      have hmem := List.mem_map_of_mem (f := GcNode.lpa) hn
      rw [gcWriteLoop_lpas hl] at hmem
      exact List.mem_map.mp hmem
    -- Otherwise they are packed into the reserve.
    · unfold writeItemsReserve at h
      simp only [Option.bind_eq_bind, Option.bind_eq_some_iff] at h
      obtain ⟨rsv, _, ⟨bm, ns, copied⟩, hpack, h⟩ := h
      cases h
      intro n hn
      obtain ⟨it, hit, hl⟩ := packPages_lpas hpack n hn
      exact ⟨it, (bucketItems_perm hlen).subset hit, hl⟩

/-! ## Section 3: Collections -/

/-- Whether `dp_alloc` for stream `idx` starts with a collection. -/
def Store.gcDue (cfg : Settings) (s : Store) (idx : Nat) : Bool :=
  isGcNeeded cfg s.bm .data &&
    if cfg.dataSegregation then (s.bm.stream idx).activeSblk.any (checkFull cfg s.bm)
    else s.dActive.all (checkFull cfg s.bm)

/-- The live items of the victim that a collection for stream `idx` would take now. -/
def Store.gcItems (cfg : Settings) (s : Store) (idx : Nat) : List GcItem :=
  match getGcTarget cfg s.bm .data idx with
  | some target =>
    match collectPages cfg s.bm (pagesContainingValidGrain cfg s.bm target) with
    | some (_, items) => items
    | none => []
  | none => []

/-- The stream for which the next step of the assignment collects, if it does. -/
def Ftl.gcStream (cfg : Settings) (f : Ftl) : Option Nat :=
  match f.phase with
  | .assigning m =>
    if cfg.maxWriteBuf ≤ m.done then none
    else if cfg.dataSegregation then
      (f.wb[m.done]?.map fun e => dIdx (getLpa cfg e.hParams) % 8).filter fun idx =>
        (f.store.bm.stream idx).grainRemain = 0 && f.store.gcDue cfg idx
    else if f.store.gcDue cfg 0 then some 0 else none
  | _ => none

/-- An assignment that collects is due to. -/
theorem gcDue_of_gcStream {f : Ftl} {idx : Nat} (h : f.gcStream cfg = some idx) :
    f.store.gcDue cfg idx = true := by
  unfold Ftl.gcStream at h
  split at h
  · split at h
    · cases h
    · split at h
      · exact (Bool.and_eq_true _ _ ▸ (Option.filter_eq_some_iff.mp h).2).2
      · split at h
        · next hgc =>
          cases h
          exact hgc
        · cases h
  · cases h

/-- A property of the tables that is kept when the garbage collector moves the values
    of `movable` slots. -/
structure GcInvariant (movable : Nat → Prop) (P : Cold → Hot → Prop) : Prop
    extends TpageInvariant P where
  grain : ∀ {c h} lpa, P c h → P (c.coldGrainAccess lpa) h
  update : ∀ {c h} lpa ppa, movable lpa → P c h →
    P (c.update lpa { c.getPte lpa with ppa := some ppa }) h
  relocate : ∀ {c h} lpa ppa, movable lpa → P c h → P (c.relocate lpa ppa) h

namespace GcInvariant

variable {movable : Nat → Prop} {P : Cold → Hot → Prop}

theorem isHit (hP : GcInvariant movable P) (cfg : Settings) {c : Cold} {h : Hot} (lpa : Nat)
    (hc : P c h) :
    P (c.isHit cfg lpa).2 h := by
  unfold Cold.isHit
  split
  · dsimp only
    split
    · exact hP.grain lpa hc
    · exact hc
  · exact hc

/-- The first loop of the mapping update. -/
theorem updateResident (hP : GcInvariant movable P) : ∀ (nodes : List GcNode) (s : Store),
    (∀ n ∈ nodes, movable n.lpa) → P s.cold s.hot →
      P (HashKv.updateResident cfg s nodes).1.cold (HashKv.updateResident cfg s nodes).1.hot
  | [], _, _, h => h
  | n :: ns, s, hm, h => by
      have hns : ∀ m ∈ ns, movable m.lpa := fun m hmem => hm m (List.mem_cons_of_mem _ hmem)
      have h₁ := hP.isHit cfg n.lpa h
      unfold HashKv.updateResident
      dsimp only
      split
      · exact updateResident hP ns _ hns (hP.update n.lpa n.ppa (hm n (List.mem_cons_self ..)) h₁)
      · refine updateResident hP ns _ hns ?_
        split
        · exact h₁
        · exact hP.setTPpa _ _ h₁

/-- And the second. -/
theorem updateAbsent (hP : GcInvariant movable P) : ∀ {marked : List (GcNode × Bool)} {inner : Bool}
    (s : Store) {s' : Store}, (∀ m ∈ marked, movable m.1.lpa) → P s.cold s.hot →
      HashKv.updateAbsent cfg inner s marked = some s' → P s'.cold s'.hot
  | [], _, _, _, _, h, he => by
      cases he
      exact h
  | (n, skip) :: ns, inner, s, s', hm, h, he => by
      have hns : ∀ m ∈ ns, movable m.1.lpa := fun m hmem => hm m (List.mem_cons_of_mem _ hmem)
      unfold HashKv.updateAbsent at he
      split at he
      · exact updateAbsent hP s hns h he
      · have h₁ := hP.relocate n.lpa n.ppa (hm _ (List.mem_cons_self ..)) h
        dsimp only at he
        split at he
        · exact updateAbsent hP _ hns h₁ he
        · obtain ⟨s₂, hw, he⟩ := Option.bind_eq_some_iff.mp he
          exact updateAbsent hP s₂ hns (hP.writeTpage h₁ hw) he

/-- The first loop marks the nodes, in order. -/
theorem updateResident_nodes : ∀ (nodes : List GcNode) (s : Store),
    (HashKv.updateResident cfg s nodes).2.map Prod.fst = nodes
  | [], _ => rfl
  | n :: ns, s => by
      unfold HashKv.updateResident
      dsimp only
      split
      · rw [List.map_cons, updateResident_nodes ns]
      · rw [List.map_cons, updateResident_nodes ns]

/-- Both loops over the sorted nodes. -/
theorem bulkMappingUpdate (hP : GcInvariant movable P) {s s' : Store} {nodes : List GcNode}
    (hm : ∀ n ∈ nodes, movable n.lpa) (h : P s.cold s.hot)
    (he : HashKv.bulkMappingUpdate cfg s nodes = some s') : P s'.cold s'.hot := by
  have hm' : ∀ n ∈ nodes.mergeSort fun a b => a.lpa ≤ b.lpa, movable n.lpa :=
    fun n hn => hm n (List.mem_mergeSort.mp hn)
  refine hP.updateAbsent _ (fun m hmem => ?_) (hP.updateResident _ s hm' h) he
  have hfst := List.mem_map_of_mem (f := Prod.fst) hmem
  rw [updateResident_nodes] at hfst
  exact hm' _ hfst

/-- A whole collection of data pages. -/
theorem dpageGc (hP : GcInvariant movable P) {s s' : Store} {idx : Nat}
    (hm : ∀ it ∈ s.gcItems cfg idx, movable it.lpa) (h : P s.cold s.hot)
    (hg : HashKv.dpageGc cfg s idx = some s') : P s'.cold s'.hot := by
  unfold HashKv.dpageGc at hg
  simp only [Option.bind_eq_bind, Option.bind_eq_some_iff, Option.pure_def, Option.some.injEq] at hg
  obtain ⟨target, ht, ⟨bm, items⟩, hc, ⟨s₁, nodes⟩, h₁, s₂, h₂, rfl⟩ := hg
  have hitems : s.gcItems cfg idx = items := by simp only [Store.gcItems, ht, hc]
  rw [hitems] at hm
  have hnodes : ∀ n ∈ nodes, movable n.lpa := fun n hn => by
    obtain ⟨it, hit, hl⟩ := writeItems_lpas (collectPages_len hc) h₁ n hn
    exact hl ▸ hm it hit
  have t₁ := writeItems_tables h₁
  have hP₁ : P s₁.cold s₁.hot := by
    rw [t₁.1, t₁.2]
    exact h
  have hP₂ := hP.bulkMappingUpdate hnodes hP₁ h₂
  have t₂ := retireVictim_tables cfg s₂ target
  rw [t₂.1, t₂.2]
  exact hP₂

theorem dSwitch (hP : GcInvariant movable P) {s s' : Store} (hds : cfg.dataSegregation = false)
    (hm : s.gcDue cfg 0 = true → ∀ it ∈ s.gcItems cfg 0, movable it.lpa) (h : P s.cold s.hot)
    (ha : HashKv.dSwitch cfg s = some s') : P s'.cold s'.hot := by
  unfold HashKv.dSwitch at ha
  split at ha
  · next hfull =>
    split at ha
    · next hgc => exact hP.dpageGc (hm (by simp [Store.gcDue, hgc, hds, hfull])) h ha
    · obtain ⟨⟨i, bm⟩, _, rfl⟩ := Option.map_eq_some_iff.mp ha
      exact h
  · cases ha
    exact h

theorem streamGc (hP : GcInvariant movable P) {s s' : Store} {idx a : Nat}
    (hds : cfg.dataSegregation = true) (hact : (s.bm.stream idx).activeSblk = some a)
    (hm : s.gcDue cfg idx = true → ∀ it ∈ s.gcItems cfg idx, movable it.lpa) (h : P s.cold s.hot)
    (ha : HashKv.streamGc cfg s idx a = some s') : P s'.cold s'.hot := by
  unfold HashKv.streamGc at ha
  split at ha
  · next hgc =>
    rw [Bool.and_eq_true] at hgc
    exact hP.dpageGc (hm (by simp [Store.gcDue, hgc, hds, hact])) h ha
  · cases ha
    exact h

/-- The single-stream build has the one stream 0. -/
theorem dpAlloc (hP : GcInvariant movable P) {s s' : Store} {idx ppa : Nat}
    (hidx : cfg.dataSegregation = true ∨ idx = 0)
    (hm : s.gcDue cfg idx = true → ∀ it ∈ s.gcItems cfg idx, movable it.lpa) (h : P s.cold s.hot)
    (ha : HashKv.dpAlloc cfg s idx = some (ppa, s')) : P s'.cold s'.hot := by
  unfold HashKv.dpAlloc at ha
  split at ha
  · next hds =>
    simp only [Option.bind_eq_bind, Option.bind_eq_some_iff] at ha
    obtain ⟨a, hact, s₁, h₁, ⟨i, bm⟩, _, he⟩ := ha
    cases he
    have hP₁ := hP.streamGc hds hact hm h h₁
    exact hP₁
  · next hds =>
    obtain rfl := hidx.resolve_left hds
    simp only [Option.bind_eq_bind, Option.bind_eq_some_iff] at ha
    obtain ⟨s₁, h₁, a, _, he⟩ := ha
    cases he
    have hP₁ := hP.dSwitch (by simpa using hds) hm h h₁
    exact hP₁

/-- The page of an assignment, behind a collection if one is due. -/
theorem assignPage (hP : GcInvariant movable P) {s s' : Store} {fl fl' : Nat → List FlushNode}
    {idx ppa : Nat} (hds : cfg.dataSegregation = true)
    (hm : (s.bm.stream idx).grainRemain = 0 → s.gcDue cfg idx = true →
      ∀ it ∈ s.gcItems cfg idx, movable it.lpa) (h : P s.cold s.hot)
    (ha : HashKv.assignPage cfg s fl idx = some (s', fl', ppa)) : P s'.cold s'.hot := by
  unfold HashKv.assignPage at ha
  split at ha
  · next hrem =>
    simp only [Option.bind_eq_bind, Option.bind_eq_some_iff] at ha
    obtain ⟨⟨p, s₁⟩, h₁, a, _, he⟩ := ha
    cases he
    have hP₁ := hP.dpAlloc (Or.inl hds) (hm hrem) h h₁
    exact hP₁
  · cases ha
    exact h

theorem assignEntry (hP : GcInvariant movable P) {s s' : Store} {fl fl' : Nat → List FlushNode}
    {e : WbEntry} {pga : Nat} (hds : cfg.dataSegregation = true)
    (hm : (s.bm.stream (dIdx (getLpa cfg e.hParams) % 8)).grainRemain = 0 →
      s.gcDue cfg (dIdx (getLpa cfg e.hParams) % 8) = true →
      ∀ it ∈ s.gcItems cfg (dIdx (getLpa cfg e.hParams) % 8), movable it.lpa) (h : P s.cold s.hot)
    (ha : HashKv.assignEntry cfg s fl e = some (s', fl', pga)) : P s'.cold s'.hot := by
  unfold HashKv.assignEntry at ha
  simp only [Option.bind_eq_bind, Option.bind_eq_some_iff] at ha
  obtain ⟨⟨s₁, fl₁, p⟩, h₁, bm, _, he⟩ := ha
  cases he
  have hP₁ := hP.assignPage hds hm h h₁
  exact hP₁

/-- A step of the assignment keeps the property. -/
theorem assign (hP : GcInvariant movable P) {hs : Hashing} {f f' : Ftl}
    (hm : ∀ idx, f.gcStream cfg = some idx → ∀ it ∈ f.store.gcItems cfg idx, movable it.lpa)
    (h : P f.store.cold f.store.hot) (hstep : Step cfg hs f .assign f') :
    P f'.store.cold f'.store.hot := by
  cases hstep with
  | endAssign => exact h
  | assignEntry m e s fl pga hp hdone hds he ha =>
    refine hP.assignEntry hds (fun hrem hgc => hm _ ?_) h ha
    simp [Ftl.gcStream, hp, hdone, hds, he, hrem, hgc]
  | assignPage m ppa s bm wb hp hdone hds ha hb =>
    have hP₁ := hP.dpAlloc (Or.inr rfl) (fun hgc => hm 0 (by
      simp [Ftl.gcStream, hp, hdone, hds, hgc])) h ha
    exact hP₁

end GcInvariant

/-! ## Section 4: What an assignment does to the tables -/

/-- An allocation changes the cold cache by its collection only. -/
theorem dpAlloc_cold {s s' : Store} {idx ppa : Nat} (hidx : cfg.dataSegregation = true ∨ idx = 0)
    (ha : dpAlloc cfg s idx = some (ppa, s')) : s'.cold = s.cold ∨
      (s.gcDue cfg idx = true ∧ ∃ s₁, dpageGc cfg s idx = some s₁ ∧ s'.cold = s₁.cold) := by
  unfold dpAlloc at ha
  split at ha
  -- Streams: the active superblock of the stream is full.
  · next hds =>
    simp only [Option.bind_eq_bind, Option.bind_eq_some_iff] at ha
    obtain ⟨a, hact, s₁, h₁, ⟨i, bm⟩, _, he⟩ := ha
    cases he
    unfold streamGc at h₁
    split at h₁
    · next hgc =>
      rw [Bool.and_eq_true] at hgc
      exact Or.inr ⟨by simp [Store.gcDue, hgc, hds, hact], s₁, h₁, rfl⟩
    · cases h₁
      exact Or.inl rfl
  · next hds =>
    obtain rfl := hidx.resolve_left hds
    simp only [Option.bind_eq_bind, Option.bind_eq_some_iff] at ha
    obtain ⟨s₁, h₁, a, _, he⟩ := ha
    cases he
    unfold dSwitch at h₁
    split at h₁
    · next hfull =>
      split at h₁
      · next hgc => exact Or.inr ⟨by simp [Store.gcDue, hgc, hds, hfull], s₁, h₁, rfl⟩
      · obtain ⟨⟨i, bm⟩, _, rfl⟩ := Option.map_eq_some_iff.mp h₁
        exact Or.inl rfl
    · cases h₁
      exact Or.inl rfl

/-- A step of the assignment leaves the cold tables alone, or collects first. -/
theorem Step.assign_cold {hs : Hashing} {f f' : Ftl} (hstep : Step cfg hs f .assign f') :
    f'.store.cold = f.store.cold ∨ ∃ idx s₁, f.gcStream cfg = some idx ∧
      dpageGc cfg f.store idx = some s₁ ∧ f'.store.cold = s₁.cold := by
  cases hstep with
  | endAssign => exact Or.inl rfl
  | assignEntry m e s fl pga hp hdone hds he ha =>
    unfold HashKv.assignEntry at ha
    simp only [Option.bind_eq_bind, Option.bind_eq_some_iff] at ha
    obtain ⟨⟨s₁, fl₁, p⟩, h₁, bm, _, hx⟩ := ha
    cases hx
    unfold HashKv.assignPage at h₁
    split at h₁
    · next hrem =>
      simp only [Option.bind_eq_bind, Option.bind_eq_some_iff] at h₁
      obtain ⟨⟨q, s₂⟩, h₂, a, _, hx⟩ := h₁
      cases hx
      refine (dpAlloc_cold (Or.inl hds) h₂).imp_right fun ⟨hgc, s₃, h₃, hc⟩ => ⟨_, s₃, ?_, h₃, hc⟩
      simp [Ftl.gcStream, hp, hdone, hds, he, hrem, hgc]
    · cases h₁
      exact Or.inl rfl
  | assignPage m ppa s bm wb hp hdone hds ha hb =>
    refine (dpAlloc_cold (Or.inr rfl) ha).imp_right fun ⟨hgc, s₁, h₁, hc⟩ => ⟨0, s₁, ?_, h₁, hc⟩
    simp [Ftl.gcStream, hp, hdone, hds, hgc]

/-- While no collection is due, the allocation of a page leaves the tables alone. -/
theorem dpAlloc_tables {s s' : Store} {idx ppa : Nat} (hgc : isGcNeeded cfg s.bm .data = false)
    (ha : dpAlloc cfg s idx = some (ppa, s')) : SameTables s s' := by
  unfold dpAlloc at ha
  split at ha
  · simp only [Option.bind_eq_bind, Option.bind_eq_some_iff] at ha
    obtain ⟨a, _, s₁, h₁, ⟨i, bm⟩, _, he⟩ := ha
    have hs : s = s₁ := by simpa [streamGc, hgc] using h₁
    cases he
    subst hs
    exact ⟨rfl, rfl⟩
  · simp only [Option.bind_eq_bind, Option.bind_eq_some_iff] at ha
    obtain ⟨s₁, h₁, a, _, he⟩ := ha
    have hs : SameTables s s₁ := by
      unfold dSwitch at h₁
      split at h₁
      · rw [if_neg (by simp [hgc])] at h₁
        obtain ⟨⟨i, bm⟩, _, rfl⟩ := Option.map_eq_some_iff.mp h₁
        exact ⟨rfl, rfl⟩
      · cases h₁
        exact ⟨rfl, rfl⟩
    cases he
    exact hs

theorem assignEntry_tables {s s' : Store} {fl fl' : Nat → List FlushNode} {e : WbEntry} {pga : Nat}
    (hgc : isGcNeeded cfg s.bm .data = false)
    (ha : assignEntry cfg s fl e = some (s', fl', pga)) : SameTables s s' := by
  unfold assignEntry at ha
  simp only [Option.bind_eq_bind, Option.bind_eq_some_iff] at ha
  obtain ⟨⟨s₁, fl₁, p⟩, h₁, bm, _, he⟩ := ha
  have hs : SameTables s s₁ := by
    unfold assignPage at h₁
    split at h₁
    · simp only [Option.bind_eq_bind, Option.bind_eq_some_iff] at h₁
      obtain ⟨⟨q, s₂⟩, h₂, a, _, he⟩ := h₁
      have t := dpAlloc_tables hgc h₂
      cases he
      exact t
    · cases h₁
      exact ⟨rfl, rfl⟩
  cases he
  exact hs

/-! ## Section 5: Listing a page up -/

/-- A property of the store that the search for a victim keeps. -/
structure PopInvariant (cfg : Settings) (P : Store → Prop) : Prop where
  promote : ∀ {s} page, P s → P (s.promoteHot page)
  pop : ∀ {s} victim lru, P s → P { s with
    cold := { s.cold.setCmt victim { s.cold.cmt victim with lruPtr := none } with lru := lru } }
  count : ∀ {s} n, P s → P { s with cold := { s.cold with popCount := n } }

/-- A property of the store that the parts of `dftl_cache_list_up` keep. -/
structure ListUpInvariant (cfg : Settings) (P : Store → Prop) : Prop
    extends PopInvariant cfg P where
  evictPage : ∀ {s s'} victim, P s → (s.unload victim).writeBack cfg victim = some s' → P s'
  afterEvict : ∀ {s} victim choice, P s → P (s.afterEvict cfg victim choice)
  resident : ∀ {s} page, P s → P (s.makeResident page)

namespace PopInvariant

variable {P : Store → Prop}

/-- Each picked page is promoted if it is resident. -/
theorem promoteAll (hP : PopInvariant cfg P) : ∀ (pages : List Nat) {s : Store}, P s →
    P (pages.foldl (fun s page =>
      if (s.cold.cmt page).isResident then s.promoteHot page else s) s)
  | [], _, h => h
  | page :: pages, s, h => by
      rw [List.foldl_cons]
      refine promoteAll hP pages ?_
      split
      · exact hP.promote page h
      · exact h

theorem promotePicked (hP : PopInvariant cfg P) {s : Store} (h : P s) :
    P (s.promotePicked cfg) := by
  unfold Store.promotePicked
  split
  · exact hP.promoteAll _ h
  · exact h

/-- The victim loop promotes before it pops. -/
theorem popVictim (hP : PopInvariant cfg P) : ∀ {n : Nat} {s s' : Store} {victim : Nat}, P s →
    HashKv.popVictim cfg s n = some (victim, s') → P s'
  | 0, _, _, _, _, he => by cases he
  | n + 1, s, s', victim, h, he => by
      have hp := hP.promotePicked h
      simp only [HashKv.popVictim] at he
      split at he
      · cases he
      · next v lru _ =>
        have hpop := hP.pop v lru hp
        split at he
        · cases he
          exact hpop
        · exact popVictim hP hpop he

end PopInvariant

namespace ListUpInvariant

variable {P : Store → Prop}

theorem evict (hP : ListUpInvariant cfg P) {s s' : Store} {choice : Rebalance} {rc : Bool}
    (h : P s) (he : s.evict cfg choice = some (rc, s')) : P s' := by
  unfold Store.evict at he
  simp only [Option.bind_eq_bind, Option.bind_eq_some_iff, Option.pure_def, Option.some.injEq,
    Prod.mk.injEq] at he
  obtain ⟨⟨victim, s₁⟩, hpop, s₂, hw, -, rfl⟩ := he
  have h₁ := hP.toPopInvariant.popVictim (hP.count _ h) hpop
  exact hP.afterEvict victim choice (hP.evictPage victim h₁ hw)

theorem listUp (hP : ListUpInvariant cfg P) {s s' : Store} {lpa : Nat} {choice : Rebalance}
    {rc : Bool} (h : P s) (hl : s.listUp cfg lpa choice = some (rc, s')) : P s' := by
  obtain ⟨⟨rc', s₁⟩, he, hm⟩ := Option.map_eq_some_iff.mp hl
  cases hm
  refine hP.resident _ ?_
  split at he
  · exact hP.evict h he
  · cases he
    exact h

end ListUpInvariant

end AggreKV.HashKv
