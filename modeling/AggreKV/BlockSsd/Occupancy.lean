import AggreKV.Lib.Handles
import AggreKV.BlockSsd.Steps

/-! # Occupancy of the translation cache in the block SSD

    The page counter, the `pt` pointers and the LRU list agree, in every run
    in which no `list_up` meets a resident page and no hit counter wraps.

    * `Occupancy`: the invariant, stated up to the order of the LRU list.
    * `SameResidence n`: what every operation but an eviction and the end of
      `list_up` does; `n page` counts the hits it may add to a page.
    * `blockCacheDrift_counterexample`: two gets that miss on one page both
      resume at `list_up`, and the second one counts the page again. -/

namespace AggreKV.BlockSsd

open HashKv (LruNode lruUpdate lruUpdate_perm lruPop dIdx Pte)

variable {cfg : Settings} {fp : Key → UInt32}

/-! ## Section 1: The invariant -/

structure Occupancy (cfg : Settings) (c : Cold) : Prop where
  counted : c.nrCachedTpages = c.lru.length
  tracks : Tracks LruNode.addr LruNode.page c.lru fun page => (c.cmt page).lruPtr
  linked : ∀ page, (c.cmt page).lruPtr.isSome = (c.cmt page).pt
  fresh : ∀ nd ∈ c.lru, nd.addr < c.lruNext
  inRange : ∀ page, (c.cmt page).pt = true → page < cfg.nrValidTpages
  warm : ∀ page, (c.cmt page).pt = true →
    0 < (c.cmt page).hitCnt ∧ (c.cmt page).hitCnt < 4294967296

namespace Occupancy

variable {c : Cold}

/-- A resident page has its node in the list. -/
theorem exists_node (h : Occupancy cfg c) {page : Nat} (hpt : (c.cmt page).pt = true) :
    ∃ nd ∈ c.lru, nd.page = page ∧ (c.cmt page).lruPtr = some nd.addr :=
  h.tracks.exists_mem_of_resident h.linked hpt

/-- A node of the list is that of a resident page. -/
theorem pt_of_mem (h : Occupancy cfg c) {nd : LruNode} (hnd : nd ∈ c.lru) :
    (c.cmt nd.page).pt = true := h.tracks.resident_of_mem h.linked hnd

/-- A full cache has a node to evict. -/
theorem lru_ne_nil (h : Occupancy cfg c) (hfull : c.isFull cfg = true) : c.lru ≠ [] := by
  have hcap := cfg.maxCachedTpages_pos
  have hle : cfg.maxCachedTpages ≤ c.lru.length := by
    rw [← h.counted]
    simpa [Cold.isFull] using hfull
  intro hnil
  rw [hnil, List.length_nil] at hle
  omega

/-- The pages of the LRU list are the resident pages of the table. -/
theorem counted_pages (h : Occupancy cfg c) : c.nrCachedTpages =
    (List.range cfg.nrValidTpages).countP fun page => (c.cmt page).pt := by
  rw [h.counted]
  exact h.tracks.length_eq_countP h.linked List.nodup_range
    fun page hpt => List.mem_range.mpr (h.inRange page hpt)

end Occupancy

/-! ## Section 2: Operations that leave residence alone -/

/-- `c'` agrees with `c` on residence, up to the order of the LRU list, and adds at most
    `n page` hits to a resident page. -/
structure SameResidence (n : Nat → Nat) (c c' : Cold) : Prop where
  pt : ∀ page, (c'.cmt page).pt = (c.cmt page).pt
  lruPtr : ∀ page, (c'.cmt page).lruPtr = (c.cmt page).lruPtr
  lru : c'.lru.Perm c.lru
  lruNext : c'.lruNext = c.lruNext
  nrCachedTpages : c'.nrCachedTpages = c.nrCachedTpages
  popCount : c'.popCount = c.popCount
  hits : ∀ page, (c.cmt page).pt = true → (c.cmt page).hitCnt + n page < 4294967296 →
    (c.cmt page).hitCnt ≤ (c'.cmt page).hitCnt ∧
      (c'.cmt page).hitCnt ≤ (c.cmt page).hitCnt + n page

/-- No hits. -/
def noHits : Nat → Nat := fun _ => 0

namespace SameResidence

variable {n n' : Nat → Nat} {c c' c'' : Cold}

theorem refl (c : Cold) : SameResidence noHits c c :=
  ⟨fun _ => rfl, fun _ => rfl, .refl _, rfl, rfl, rfl, fun _ _ _ => ⟨le_refl _, le_refl _⟩⟩

/-- The hits of two steps add up. -/
theorem trans (h : SameResidence n c c') (h' : SameResidence n' c' c'') :
    SameResidence (fun page => n page + n' page) c c'' where
  pt page := (h'.pt page).trans (h.pt page)
  lruPtr page := (h'.lruPtr page).trans (h.lruPtr page)
  lru := h'.lru.trans h.lru
  lruNext := h'.lruNext.trans h.lruNext
  nrCachedTpages := h'.nrCachedTpages.trans h.nrCachedTpages
  popCount := h'.popCount.trans h.popCount
  hits page hpt hfit := by
    obtain ⟨hlo, hhi⟩ := h.hits page hpt (by omega)
    have hpt' : (c'.cmt page).pt = true := by rw [h.pt, hpt]
    obtain ⟨hlo', hhi'⟩ := h'.hits page hpt' (by omega)
    omega

/-- Hits of pages that are not resident do not matter. -/
theorem mono (h : SameResidence n c c') (hle : ∀ page, (c.cmt page).pt = true → n page ≤ n' page) :
    SameResidence n' c c' :=
  { h with
    hits := fun page hpt hfit => by
      have hn := hle page hpt
      obtain ⟨hlo, hhi⟩ := h.hits page hpt (by omega)
      omega }

theorem trans_noHits (h : SameResidence n c c') (h' : SameResidence noHits c' c'') :
    SameResidence n c c'' :=
  (h.trans h').mono fun page _ => le_of_eq (Nat.add_zero (n page))

/-- The counter of a resident page must not wrap. -/
theorem occupancy (h : SameResidence n c c') (ho : Occupancy cfg c)
    (hfit : ∀ page, (c.cmt page).pt = true → (c.cmt page).hitCnt + n page < 4294967296) :
    Occupancy cfg c' where
  counted := by rw [h.nrCachedTpages, ho.counted, h.lru.length_eq]
  tracks := by
    have ht := ho.tracks.perm h.lru
    rwa [show (fun page => (c'.cmt page).lruPtr) = fun page => (c.cmt page).lruPtr from
      funext h.lruPtr]
  linked page := by rw [h.lruPtr, h.pt, ho.linked]
  fresh nd hnd := by
    rw [h.lruNext]
    exact ho.fresh nd (h.lru.mem_iff.mp hnd)
  inRange page := by
    rw [h.pt]
    exact ho.inRange page
  warm page hpt := by
    rw [h.pt] at hpt
    have hw := ho.warm page hpt
    have hn := hfit page hpt
    obtain ⟨hlo, hhi⟩ := h.hits page hpt hn
    omega

theorem occupancy_noHits (h : SameResidence noHits c c') (ho : Occupancy cfg c) :
    Occupancy cfg c' :=
  h.occupancy ho fun page hpt => (ho.warm page hpt).2

/-- Writing the other fields of a page. -/
theorem setCmt (c : Cold) (page : Nat) {m : Cmt} (hpt : m.pt = (c.cmt page).pt)
    (hptr : m.lruPtr = (c.cmt page).lruPtr) (hh : m.hitCnt = (c.cmt page).hitCnt) :
    SameResidence noHits c (c.setCmt page m) := by
  refine ⟨fun p => ?_, fun p => ?_, .refl _, rfl, rfl, rfl, fun p _ _ => ?_⟩
  · rw [Cold.cmt_setCmt]
    split
    · next hp => rw [hp, hpt]
    · rfl
  · rw [Cold.cmt_setCmt]
    split
    · next hp => rw [hp, hptr]
    · rfl
  · rw [Cold.cmt_setCmt]
    split
    · next hp =>
      rw [hp, hh]
      exact ⟨le_refl _, le_refl _⟩
    · exact ⟨le_refl _, le_refl _⟩

theorem setPte (c : Cold) (lpa : Nat) (pte : Pte) : SameResidence noHits c (c.setPte lpa pte) :=
  ⟨fun _ => rfl, fun _ => rfl, .refl _, rfl, rfl, rfl, fun _ _ _ => ⟨le_refl _, le_refl _⟩⟩

theorem setTPpa (c : Cold) (page : Nat) (t : Option Nat) :
    SameResidence noHits c (c.setTPpa page t) :=
  setCmt c page rfl rfl rfl

theorem written (c : Cold) (page ppa : Nat) : SameResidence noHits c (c.written page ppa) :=
  setCmt c page rfl rfl rfl

theorem relocate (c : Cold) (lpa ppa : Nat) : SameResidence noHits c (c.relocate lpa ppa) :=
  setPte c lpa _

theorem touch (c : Cold) (lpa : Nat) : SameResidence noHits c (c.touch lpa) := by
  unfold Cold.touch
  split
  · exact ⟨fun _ => rfl, fun _ => rfl, lruUpdate_perm _ _, rfl, rfl, rfl,
      fun _ _ _ => ⟨le_refl _, le_refl _⟩⟩
  · exact refl c

theorem update (c : Cold) (lpa : Nat) (pte : Pte) : SameResidence noHits c (c.update lpa pte) := by
  unfold Cold.update
  dsimp only
  split
  · have hpte := setPte c lpa pte
    have hcmt := setCmt (c.setPte lpa pte) (dIdx lpa) (m := { c.cmt (dIdx lpa) with
      tPpa := if (c.cmt (dIdx lpa)).dirty then (c.cmt (dIdx lpa)).tPpa else none, dirty := true })
      rfl rfl rfl
    exact (hpte.trans_noHits hcmt).trans_noHits (touch _ lpa)
  · exact setPte c lpa pte

/-- A load marks its page as in flight. -/
theorem load {s s' : Store} {lpa : Nat} (h : s.load lpa = some s') :
    SameResidence noHits s.cold s'.cold := by
  unfold Store.load at h
  dsimp only at h
  split at h
  · cases h
  · cases h
    exact setCmt _ _ rfl rfl rfl

/-- A hit is counted on its own page. -/
theorem isHit (c : Cold) (lpa : Nat) :
    SameResidence (fun page => if page = dIdx lpa then 1 else 0) c (c.isHit lpa).2 := by
  unfold Cold.isHit
  dsimp only
  split
  · refine ⟨fun p => ?_, fun p => ?_, .refl _, rfl, rfl, rfl, fun p _ hfit => ?_⟩
    · rw [Cold.cmt_setCmt]
      split
      · next hp => rw [hp]
      · rfl
    · rw [Cold.cmt_setCmt]
      split
      · next hp => rw [hp]
      · rfl
    · rw [Cold.cmt_setCmt]
      split
      · next hp =>
        subst hp
        rw [if_pos rfl] at hfit
        dsimp only
        rw [Nat.mod_eq_of_lt hfit]
        omega
      · exact ⟨le_refl _, Nat.le_add_right _ _⟩
  · exact (refl c).mono fun _ _ => Nat.zero_le _

end SameResidence

/-! ## Section 3: Collections -/

/-- A property of the tables that the two ways to set `t_ppa` keep. -/
structure TpageInvariant (P : Cold → Prop) : Prop where
  setTPpa : ∀ {c} page t, P c → P (c.setTPpa page t)
  written : ∀ {c} page ppa, P c → P (c.written page ppa)

namespace TpageInvariant

variable {P : Cold → Prop}

/-- The collection of mapping pages sets their flash addresses only. -/
theorem moveTpages (hP : TpageInvariant P) (rsv : Nat) : ∀ (pages : List Nat) (s : Store),
    P s.cold → P (pages.foldl (moveTpage cfg rsv) s).cold
  | [], _, h => h
  | page :: pages, _, h => moveTpages hP rsv pages _ (hP.setTPpa page _ h)

theorem tpageGc (hP : TpageInvariant P) {s s' : Store} (h : P s.cold)
    (hg : BlockSsd.tpageGc cfg s = some s') : P s'.cold := by
  unfold BlockSsd.tpageGc at hg
  simp only [Option.bind_eq_bind, Option.bind_eq_some_iff, Option.pure_def, Option.some.injEq] at hg
  obtain ⟨target, _, rsv, _, ⟨bm, pages⟩, _, rfl⟩ := hg
  exact hP.moveTpages rsv pages { s with bm := bm } h

theorem tSwitch (hP : TpageInvariant P) {s s' : Store} (h : P s.cold)
    (ha : BlockSsd.tSwitch cfg s = some s') : P s'.cold := by
  unfold BlockSsd.tSwitch at ha
  split at ha
  · split at ha
    · exact hP.tpageGc h ha
    · obtain ⟨⟨i, bm⟩, _, rfl⟩ := Option.map_eq_some_iff.mp ha
      exact h
  · cases ha
    exact h

theorem tpAlloc (hP : TpageInvariant P) {s s' : Store} {ppa : Nat} (h : P s.cold)
    (ha : BlockSsd.tpAlloc cfg s = some (ppa, s')) : P s'.cold := by
  unfold BlockSsd.tpAlloc at ha
  simp only [Option.bind_eq_bind, Option.bind_eq_some_iff] at ha
  obtain ⟨s₁, hs₁, a, _, he⟩ := ha
  cases he
  have hP₁ : P s₁.cold := hP.tSwitch h hs₁
  exact hP₁

theorem writeTpage (hP : TpageInvariant P) {s s' : Store} {page : Nat} (h : P s.cold)
    (hw : s.writeTpage cfg page = some s') : P s'.cold := by
  obtain ⟨⟨ppa, s₁⟩, ha, rfl⟩ := Option.map_eq_some_iff.mp hw
  exact hP.written page ppa (hP.tpAlloc h ha)

end TpageInvariant

theorem tpageInvariant_sameResidence (n : Nat → Nat) (c₀ : Cold) :
    TpageInvariant fun c => SameResidence n c₀ c where
  setTPpa page t h := h.trans_noHits (.setTPpa _ page t)
  written page ppa h := h.trans_noHits (.written _ page ppa)

theorem SameResidence.writeTpage {s s' : Store} {page : Nat}
    (h : s.writeTpage cfg page = some s') : SameResidence noHits s.cold s'.cold :=
  (tpageInvariant_sameResidence noHits s.cold).writeTpage (.refl _) h

/-- How many entries of `lpas` belong to each page. -/
def pageHits (lpas : List Nat) : Nat → Nat := fun page => lpas.countP fun lpa => dIdx lpa = page

theorem pageHits_cons (lpa : Nat) (lpas : List Nat) (page : Nat) :
    pageHits (lpa :: lpas) page = (if page = dIdx lpa then 1 else 0) + pageHits lpas page := by
  unfold pageHits
  rw [List.countP_cons, Nat.add_comm]
  simp [eq_comm]

/-- The order of the nodes does not matter. -/
theorem pageHits_perm {lpas lpas' : List Nat} (h : lpas.Perm lpas') :
    pageHits lpas = pageHits lpas' :=
  funext fun page => h.countP_eq fun lpa => decide (dIdx lpa = page)

/-- The first loop hits the page of each resident node once. -/
theorem SameResidence.updateResident (cfg : Settings) : ∀ (nodes : List GcNode) (s : Store),
    SameResidence (pageHits (nodes.map (·.lpa))) s.cold (updateResident cfg s nodes).1.cold
  | [], s => .refl s.cold
  | n :: ns, s => by
      unfold BlockSsd.updateResident
      dsimp only
      split
      · next hhit =>
        -- A hit, counted once, and the update of the entry.
        have hrest := SameResidence.updateResident cfg ns
          (Store.update cfg { s with cold := (s.cold.isHit n.lpa).2 } n.lpa
            { (s.cold.isHit n.lpa).2.getPte n.lpa with ppa := some n.ppa })
        have hone := (isHit s.cold n.lpa).trans_noHits (update (s.cold.isHit n.lpa).2 n.lpa
          { (s.cold.isHit n.lpa).2.getPte n.lpa with ppa := some n.ppa })
        refine (hone.trans hrest).mono fun page _ => le_of_eq ?_
        rw [List.map_cons, pageHits_cons]
      · next hhit =>
        -- Not resident: the copy is dropped, and no hit is counted.
        have hout : (s.cold.cmt (dIdx n.lpa)).pt = false := by
          rw [Cold.isHit] at hhit
          by_contra hpt
          rw [Bool.not_eq_false] at hpt
          simp [hpt] at hhit
        have hdrop : SameResidence noHits s.cold (s.dropCopy cfg (dIdx n.lpa)).cold := by
          unfold Store.dropCopy
          split
          · exact refl _
          · exact setTPpa _ _ _
        refine (hdrop.trans (SameResidence.updateResident cfg ns _)).mono fun page hpt => ?_
        rw [List.map_cons, pageHits_cons]
        simp only [noHits]
        omega

/-- The second loop hits nothing. -/
theorem SameResidence.updateAbsent : ∀ {marked : List (GcNode × Bool)} {inner : Bool}
    {s s' : Store}, BlockSsd.updateAbsent cfg inner s marked = some s' →
      SameResidence noHits s.cold s'.cold
  | [], inner, s, s', h => by
      cases h
      exact refl _
  | (n, skip) :: ns, inner, s, s', h => by
      unfold BlockSsd.updateAbsent at h
      split at h
      · exact SameResidence.updateAbsent h
      · dsimp only at h
        have hmove : SameResidence noHits s.cold (s.cold.relocate n.lpa n.ppa) := relocate _ _ _
        split at h
        · exact hmove.trans_noHits (SameResidence.updateAbsent h)
        · obtain ⟨s₁, hw, h⟩ := Option.bind_eq_some_iff.mp h
          exact (hmove.trans_noHits (writeTpage hw)).trans_noHits (SameResidence.updateAbsent h)

theorem SameResidence.bulkMappingUpdate {s s' : Store} {nodes : List GcNode}
    (h : BlockSsd.bulkMappingUpdate cfg s nodes = some s') :
    SameResidence (pageHits (nodes.map (·.lpa))) s.cold s'.cold := by
  have hperm : (nodes.mergeSort fun a b => a.lpa ≤ b.lpa).Perm nodes := List.mergeSort_perm _ _
  have hres := SameResidence.updateResident cfg
    (nodes.mergeSort fun a b => a.lpa ≤ b.lpa) s
  rw [pageHits_perm (hperm.map _)] at hres
  exact hres.trans_noHits (SameResidence.updateAbsent h)

theorem writeItems_cold {rsv : Nat} : ∀ {items : List GcItem} {s s' : Store} {nodes : List GcNode},
    writeItems cfg rsv s items = some (s', nodes) →
      s'.cold = s.cold ∧ nodes.map (·.lpa) = items.map (·.lpa)
  | [], s, s', nodes, h => by
      cases h
      exact ⟨rfl, rfl⟩
  | it :: items, s, s', nodes, h => by
      unfold writeItems at h
      simp only [Option.bind_eq_bind, Option.bind_eq_some_iff] at h
      obtain ⟨bm, _, ⟨s₁, ns⟩, hw, he⟩ := h
      cases he
      obtain ⟨hcold, hlpas⟩ := writeItems_cold hw
      exact ⟨hcold, by rw [List.map_cons, List.map_cons, hlpas]⟩

theorem bulkWriteValidItems_cold {s s' : Store} {items : List GcItem} {nodes : List GcNode}
    (h : bulkWriteValidItems cfg s items = some (s', nodes)) :
    s'.cold = s.cold ∧ nodes.map (·.lpa) = items.map (·.lpa) := by
  unfold bulkWriteValidItems at h
  simp only [Option.bind_eq_bind, Option.bind_eq_some_iff] at h
  obtain ⟨rsv, _, ⟨s₁, ns⟩, hw, he⟩ := h
  cases he
  obtain ⟨hcold, hlpas⟩ := writeItems_cold hw
  refine ⟨hcold, ?_⟩
  rw [List.map_reverse, hlpas, List.map_reverse, List.reverse_reverse]

/-- The live pages that the next `dp_alloc` moves; none if it does not collect. -/
def Store.gcItems (cfg : Settings) (s : Store) : List GcItem :=
  if s.dActive.all (checkFull cfg s.bm) ∧ isGcNeeded s.bm .data then
    match getGcTarget cfg s.bm .data with
    | some target =>
      match collectPages cfg s.bm (sblkOfft2Ppa cfg target 0) cfg.pps with
      | some (_, items) => items
      | none => []
    | none => []
  else []

/-- An allocation hits the pages of the items that its collection moves. -/
theorem SameResidence.dpAlloc {s s' : Store} {ppa : Nat}
    (h : BlockSsd.dpAlloc cfg s = some (ppa, s')) :
    SameResidence (pageHits ((s.gcItems cfg).map (·.lpa))) s.cold s'.cold := by
  unfold BlockSsd.dpAlloc at h
  simp only [Option.bind_eq_bind, Option.bind_eq_some_iff] at h
  obtain ⟨s₁, hsw, a, _, he⟩ := h
  cases he
  show SameResidence _ s.cold s₁.cold
  unfold dSwitch at hsw
  split at hsw
  · next hfull =>
    split at hsw
    · next hgc =>
      unfold dpageGc at hsw
      simp only [Option.bind_eq_bind, Option.bind_eq_some_iff, Option.pure_def,
        Option.some.injEq] at hsw
      obtain ⟨target, ht, ⟨bm, items⟩, hc, ⟨s₂, nodes⟩, hw, s₃, hb, rfl⟩ := hsw
      obtain ⟨hcold, hlpas⟩ := bulkWriteValidItems_cold hw
      have hitems : s.gcItems cfg = items := by
        unfold Store.gcItems
        rw [if_pos ⟨hfull, hgc⟩, ht]
        dsimp only
        rw [hc]
      -- Writing the items leaves the cache alone; the mapping update hits their pages.
      have hmap := SameResidence.bulkMappingUpdate hb
      rw [hlpas, hcold] at hmap
      rw [hitems]
      exact hmap
    · obtain ⟨⟨i, bm⟩, _, rfl⟩ := Option.map_eq_some_iff.mp hsw
      exact (refl _).mono fun _ _ => Nat.zero_le _
  · cases hsw
    exact (refl _).mono fun _ _ => Nat.zero_le _

theorem SameResidence.assignEntry {s s' : Store} {e : WbEntry} {ppa : Nat}
    (h : BlockSsd.assignEntry cfg s e = some (ppa, s')) :
    SameResidence (pageHits ((s.gcItems cfg).map (·.lpa))) s.cold s'.cold := by
  unfold BlockSsd.assignEntry at h
  simp only [Option.bind_eq_bind, Option.bind_eq_some_iff] at h
  obtain ⟨⟨p, s₁⟩, hd, bm, _, he⟩ := h
  cases he
  show SameResidence _ s.cold s₁.cold
  exact SameResidence.dpAlloc hd

/-! ## Section 4: Evictions -/

/-- The search for the hottest page returns a node of the list. -/
theorem hottest_mem (hitCnt : Nat → Nat) : ∀ {nds : List LruNode} {best : Option LruNode}
    {nd : LruNode}, hottest hitCnt best nds = some nd → best = some nd ∨ nd ∈ nds
  | [], best, nd, h => Or.inl h
  | x :: nds, best, nd, h => by
      unfold hottest at h
      split at h
      · rcases hottest_mem hitCnt h with he | hmem
        · cases he
          exact Or.inr List.mem_cons_self
        · exact Or.inr (List.mem_cons_of_mem _ hmem)
      · rcases hottest_mem hitCnt h with he | hmem
        · exact Or.inl he
        · exact Or.inr (List.mem_cons_of_mem _ hmem)

/-- Once a node is found, the search returns one. -/
theorem hottest_isSome (hitCnt : Nat → Nat) : ∀ (nds : List LruNode) (nd : LruNode),
    (hottest hitCnt (some nd) nds).isSome = true
  | [], nd => rfl
  | x :: nds, nd => by
      unfold hottest
      split
      · exact hottest_isSome hitCnt nds x
      · exact hottest_isSome hitCnt nds nd

theorem hottest_cons (hitCnt : Nat → Nat) {nd : LruNode} (nds : List LruNode)
    (h : 0 < hitCnt nd.page) : (hottest hitCnt none (nd :: nds)).isSome = true := by
  unfold hottest
  split
  · exact hottest_isSome hitCnt nds nd
  · next hn => exact absurd h hn

/-- The victim has a node, which is taken out of the list. -/
theorem popVictim_spec {c : Cold} {victim : Nat} {lru : List LruNode}
    (h : popVictim c = some (victim, lru)) :
    ∃ nd ∈ c.lru, nd.page = victim ∧ lru.Perm (c.lru.erase nd) := by
  unfold popVictim at h
  split at h
  · obtain ⟨nd, hhot, he⟩ := Option.map_eq_some_iff.mp h
    cases he
    have hmem : nd ∈ topTenth c.lru := (hottest_mem _ hhot).resolve_left (by simp)
    exact ⟨nd, List.take_subset _ _ hmem, rfl, .refl _⟩
  · obtain ⟨nd, hlast, he⟩ := Option.map_eq_some_iff.mp h
    cases he
    have happ : c.lru.dropLast ++ [nd] = c.lru := List.dropLast_append_getLast? nd hlast
    have hperm : c.lru.Perm (nd :: c.lru.dropLast) := by
      conv_lhs => rw [← happ]
      exact List.perm_append_singleton nd _
    refine ⟨nd, hperm.mem_iff.mpr List.mem_cons_self, rfl, ?_⟩
    have herase := hperm.erase nd
    rw [List.erase_cons_head] at herase
    exact herase.symm

/-- While the cache reports full, an eviction finds its victim. -/
theorem Occupancy.popVictim_isSome {c : Cold} (h : Occupancy cfg c) (hfull : c.isFull cfg = true) :
    (popVictim c).isSome = true := by
  have hne := h.lru_ne_nil hfull
  obtain ⟨nd, lru, hlru⟩ := List.exists_cons_of_ne_nil hne
  unfold popVictim
  split
  · have hwarm : 0 < (c.cmt nd.page).hitCnt :=
      (h.warm nd.page (h.pt_of_mem (by rw [hlru]; exact List.mem_cons_self))).1
    have htop : ∃ rest, topTenth c.lru = nd :: rest := by
      unfold topTenth
      rw [hlru]
      obtain ⟨k, hk⟩ : ∃ k, max (((nd :: lru).length * 10 + 99) / 100) 1 = k + 1 :=
        ⟨max (((nd :: lru).length * 10 + 99) / 100) 1 - 1, by omega⟩
      rw [hk, List.take_succ_cons]
      exact ⟨_, rfl⟩
    obtain ⟨rest, htop⟩ := htop
    unfold lruPopHot
    rw [htop, Option.isSome_map]
    exact hottest_cons _ rest hwarm
  · unfold lruPop
    rw [Option.isSome_map, List.getLast?_isSome]
    exact hne

/-- The victim is unloaded. -/
theorem Occupancy.unload {c : Cold} (h : Occupancy cfg c) {nd : LruNode} (hnd : nd ∈ c.lru)
    {lru : List LruNode} (hlru : lru.Perm (c.lru.erase nd)) :
    Occupancy cfg (c.unload nd.page lru) := by
  have hcmt : ∀ p, (c.unload nd.page lru).cmt p =
      if p = nd.page then { c.cmt nd.page with pt := false, lruPtr := none, hitCnt := 0 }
      else c.cmt p := c.cmt_setCmt nd.page _
  have hmem : ∀ x ∈ lru, x ∈ c.lru := fun x hx => List.mem_of_mem_erase (hlru.mem_iff.mp hx)
  refine ⟨?_, ?_, fun p => ?_, fun x hx => h.fresh x (hmem x hx), fun p hp => ?_, fun p hp => ?_⟩
  · show c.nrCachedTpages - 1 = lru.length
    rw [h.counted, hlru.length_eq, List.length_erase_of_mem hnd]
  -- The pointers are the old ones without that of the victim.
  · have ht := (h.tracks.erase hnd).perm hlru
    have hptr : (fun p => ((c.unload nd.page lru).cmt p).lruPtr) =
        Function.update (fun p => (c.cmt p).lruPtr) nd.page none := by
      funext p
      rw [hcmt, Function.update_apply]
      split
      · rfl
      · rfl
    rw [hptr]
    exact ht
  · rw [hcmt]
    split
    · rfl
    · exact h.linked p
  · rw [hcmt] at hp
    split at hp
    · cases hp
    · exact h.inRange p hp
  · rw [hcmt] at hp ⊢
    split
    · next hpp =>
      rw [if_pos hpp] at hp
      cases hp
    · next hpp =>
      rw [if_neg hpp] at hp
      exact h.warm p hp

/-- A page that is not resident gets an LRU node and is counted. -/
theorem Occupancy.makeResident {c : Cold} (h : Occupancy cfg c) {page : Nat}
    (hout : (c.cmt page).pt = false) (hr : page < cfg.nrValidTpages) :
    Occupancy cfg (c.makeResident page) := by
  have hcmt : ∀ p, (c.makeResident page).cmt p = if p = page then
      { c.cmt page with pt := true, hitCnt := 1, lruPtr := some c.lruNext, isFlying := false }
      else c.cmt p := c.cmt_setCmt page _
  have hnone : (c.cmt page).lruPtr = none := by
    have hl := h.linked page
    rwa [hout, Option.isSome_eq_false_iff, Option.isNone_iff_eq_none] at hl
  -- The address of the new node is above all that are in the list.
  have hnew : c.lruNext ∉ c.lru.map LruNode.addr := fun hmem => by
    obtain ⟨x, hx, he⟩ := List.mem_map.mp hmem
    have hlt := h.fresh x hx
    omega
  refine ⟨?_, ?_, fun p => ?_, fun x hx => ?_, fun p hp => ?_, fun p hp => ?_⟩
  · show c.nrCachedTpages + 1 = c.lru.length + 1
    rw [h.counted]
  · have hinj : ∀ x : LruNode, x.page = page → x.addr = c.lruNext → x = ⟨c.lruNext, page⟩ := by
      rintro ⟨addr, lpa⟩ rfl rfl
      rfl
    have ht : Tracks LruNode.addr LruNode.page (⟨c.lruNext, page⟩ :: c.lru)
        (Function.update (fun p => (c.cmt p).lruPtr) page (some c.lruNext)) :=
      h.tracks.cons hnone hnew hinj
    have hptr : (fun p => ((c.makeResident page).cmt p).lruPtr) =
        Function.update (fun p => (c.cmt p).lruPtr) page (some c.lruNext) := by
      funext p
      rw [hcmt, Function.update_apply]
      split
      · rfl
      · rfl
    rw [hptr]
    exact ht
  · rw [hcmt]
    split
    · rfl
    · exact h.linked p
  · show x.addr < c.lruNext + 1
    rcases List.mem_cons.mp hx with rfl | hx
    · exact Nat.lt_succ_self _
    · exact Nat.lt_succ_of_lt (h.fresh x hx)
  · rw [hcmt] at hp
    split at hp
    · next hpp => exact hpp ▸ hr
    · exact h.inRange p hp
  · rw [hcmt] at hp ⊢
    split
    · have hone : (1 : Nat) < 4294967296 := by decide
      exact ⟨Nat.one_pos, hone⟩
    · next hpp =>
      rw [if_neg hpp] at hp
      exact h.warm p hp

/-- An eviction keeps the agreement and makes no page resident. -/
theorem Occupancy.evict {s s' : Store} (h : Occupancy cfg s.cold) {rc : Bool}
    (he : s.evict cfg = some (rc, s')) : Occupancy cfg s'.cold ∧
      ∀ page, (s.cold.cmt page).pt = false → (s'.cold.cmt page).pt = false := by
  unfold Store.evict at he
  simp only [Option.bind_eq_bind, Option.bind_eq_some_iff] at he
  obtain ⟨⟨victim, lru⟩, hpop, he⟩ := he
  obtain ⟨nd, hnd, rfl, hlru⟩ := popVictim_spec hpop
  have hun : Occupancy cfg (s.cold.unload nd.page lru) := h.unload hnd hlru
  have hkeep : ∀ page, (s.cold.cmt page).pt = false →
      ((s.cold.unload nd.page lru).cmt page).pt = false := fun page hpage => by
    show ((s.cold.setCmt nd.page _).cmt page).pt = false
    rw [Cold.cmt_setCmt]
    split
    · rfl
    · exact hpage
  split at he
  · obtain ⟨s₁, hw, he⟩ := Option.bind_eq_some_iff.mp he
    cases he
    have hsame := SameResidence.writeTpage hw
    refine ⟨hsame.occupancy_noHits hun, fun page hpage => ?_⟩
    rw [hsame.pt]
    exact hkeep page hpage
  · cases he
    exact ⟨hun, hkeep⟩

/-- `list_up` of a page that is not resident. -/
theorem Occupancy.listUp {s s' : Store} (h : Occupancy cfg s.cold) {lpa : Nat}
    (hout : (s.cold.cmt (dIdx lpa)).pt = false) (hr : dIdx lpa < cfg.nrValidTpages) {rc : Bool}
    (hl : s.listUp cfg lpa = some (rc, s')) : Occupancy cfg s'.cold := by
  unfold Store.listUp at hl
  obtain ⟨⟨rc', s₁⟩, he, hm⟩ := Option.map_eq_some_iff.mp hl
  cases hm
  split at he
  · obtain ⟨h₁, hkeep⟩ := h.evict he
    exact h₁.makeResident (hkeep _ hout) hr
  · cases he
    exact h.makeResident hout hr

/-! ## Section 5: Runs -/

/-- The page with which a step resumes at `list_up`, after its load. -/
def Ftl.resumesListUp (f : Ftl) : Label → Option Nat
  | .getPass =>
    match f.phase with
    | .getting r =>
      if r.params = some .list ∨ r.params = some .evict then some (dIdx (getLpa r.key)) else none
    | _ => none
  | .wbPass =>
    match f.phase with
    | .mapping m =>
      m.cur.bind fun e =>
        if e.params = some .load ∨ e.params = some .list then some (dIdx (getLpa e.key)) else none
    | _ => none
  | _ => none

/-- The pages whose hit counters a step raises, if they are resident. -/
def Ftl.hitLpas (cfg : Settings) (f : Ftl) : Label → List Nat
  | .getPass =>
    match f.phase with
    | .getting r =>
      if r.params = none ∧ r.hParams.cnt ≤ f.maxTry ∧
        ¬(r.hParams.cnt = 0 ∧ wbFind r.key f.wb = true) then [getLpa r.key] else []
    | _ => []
  | .wbPass =>
    match f.phase with
    | .mapping m => m.cur.elim [] fun e => if e.params = none then [getLpa e.key] else []
    | _ => []
  | .assign =>
    match f.phase with
    | .assigning m => if m.bucket = [] then [] else (f.store.gcItems cfg).map (·.lpa)
    | _ => []
  | _ => []

/-- No step resumes at `list_up` with a page that is resident by now, and none raises
    the `uint32_t` hit counter of a resident page past its end. -/
def cacheSafe (cfg : Settings) (f : Ftl) (a : Label) : Bool :=
  ((f.resumesListUp a).all fun page => !(f.store.cold.cmt page).pt) &&
    (f.hitLpas cfg a).all fun lpa => !(f.store.cold.cmt (dIdx lpa)).pt ||
      (f.store.cold.cmt (dIdx lpa)).hitCnt + pageHits (f.hitLpas cfg a) (dIdx lpa) < 4294967296

theorem dIdx_lt {lpa : Nat} (h : lpa < cfg.nrValidTentries) : dIdx lpa < cfg.nrValidTpages :=
  Nat.div_lt_of_lt_mul (by
    unfold Settings.nrValidTentries at h
    omega)

/-- What `cacheSafe` says about a step whose only hit is on `lpa`. -/
theorem hits_fit {f : Ftl} {a : Label} {lpa : Nat} (hok : cacheSafe cfg f a = true)
    (hl : f.hitLpas cfg a = [lpa]) : ∀ page, (f.store.cold.cmt page).pt = true →
      (f.store.cold.cmt page).hitCnt < 4294967296 →
        (f.store.cold.cmt page).hitCnt + (if page = dIdx lpa then 1 else 0) < 4294967296 := by
  intro page hpt hlt
  split
  · next hp =>
    subst hp
    simp only [cacheSafe, hl, Bool.and_eq_true] at hok
    simpa [hpt, pageHits] using hok.2
  · exact hlt

/-- The page of the entry was found resident. -/
theorem Occupancy.hit {f : Ftl} {a : Label} {lpa : Nat} (h : Occupancy cfg f.store.cold)
    (hok : cacheSafe cfg f a = true) (hl : f.hitLpas cfg a = [lpa]) :
    Occupancy cfg ((f.store.cold.isHit lpa).2.touch lpa) := by
  have hsame := (SameResidence.isHit f.store.cold lpa).trans_noHits (.touch _ lpa)
  exact hsame.occupancy h fun page hpt => hits_fit hok hl page hpt (h.warm page hpt).2

theorem Occupancy.getPath {f : Ftl} {r : Request} {s : Store} {ex : GetExit}
    (h : Occupancy cfg f.store.cold) (hp : f.phase = .getting r)
    (hk : getLpa r.key < cfg.nrValidTentries) (hok : cacheSafe cfg f .getPass = true)
    (hg : GetPath cfg f r s ex) : Occupancy cfg s.cold := by
  have hout : r.params = some .list ∨ r.params = some .evict →
      (f.store.cold.cmt (dIdx (getLpa r.key))).pt = false := fun hj => by
    simp only [cacheSafe, Ftl.resumesListUp, hp, if_pos hj, Bool.and_eq_true] at hok
    simpa using hok.1
  cases hg with
  | exhausted => exact h
  | unread => exact h
  | wbHit => exact h
  | loaded s hl => exact (SameResidence.load hl).occupancy_noHits h
  | neverWritten => exact h
  | evicted s hj hl => exact h.listUp (hout hj) (dIdx_lt hk) hl
  | listed s hj hl => exact h.listUp (hout hj) (dIdx_lt hk) hl
  | resumed => exact h
  | hit hj hcnt hw hpt =>
    refine h.hit hok ?_
    simp only [Ftl.hitLpas, hp]
    rw [if_pos ⟨hj, hcnt, fun hc => by simp [hw hc.1] at hc⟩]

/-- An entry that gets to `list_up` finds its page absent: it has just looked, or the
    step resumes there. -/
theorem WbLists.absent {f : Ftl} {m : MapUpdate} {e : WbEntry} (hp : f.phase = .mapping m)
    (hc : m.cur = some e) (hok : cacheSafe cfg f .wbPass = true)
    (hw : WbLists e.params (getLpa e.key) f.store) :
    (f.store.cold.cmt (dIdx (getLpa e.key))).pt = false := by
  have hres : e.params = some .load ∨ e.params = some .list →
      (f.store.cold.cmt (dIdx (getLpa e.key))).pt = false := fun hj => by
    simp only [cacheSafe, Ftl.resumesListUp, hp, hc, Option.bind_some, if_pos hj,
      Bool.and_eq_true] at hok
    simpa using hok.1
  rcases hw with hj | ⟨hj | ⟨_, hpt⟩, _⟩
  · exact hres (Or.inr hj)
  · exact hres (Or.inl hj)
  · exact hpt

theorem Occupancy.wbPath {f : Ftl} {m : MapUpdate} {e : WbEntry} {s : Store} {ex : WbExit}
    (h : Occupancy cfg f.store.cold) (hp : f.phase = .mapping m) (hc : m.cur = some e)
    (hk : getLpa e.key < cfg.nrValidTentries) (hok : cacheSafe cfg f .wbPass = true)
    (hw : WbPath cfg f.hashTable f.store e s ex) : Occupancy cfg s.cold := by
  cases hw with
  | loaded s hj hl => exact (SameResidence.load hl).occupancy_noHits h
  | evicted s hj hl => exact h.listUp (hj.absent hp hc hok) (dIdx_lt hk) hl
  | listed s hj hl => exact h.listUp (hj.absent hp hc hok) (dIdx_lt hk) hl
  | resumed => exact h
  | hit hj hpt =>
    refine h.hit hok ?_
    simp only [Ftl.hitLpas, hp, hc, Option.elim_some, if_pos hj]
  | jumped => exact h

theorem wbInvalidateOld_cold (cfg : Settings) (s : Store) (lpa : Nat) :
    (wbInvalidateOld cfg s lpa).cold = s.cold := by
  unfold wbInvalidateOld
  split
  · rfl
  · rfl

/-- The hits of a collection fit the counters. -/
theorem gcHits_fit {f : Ftl} {m : Assign} {e : WbEntry} {bucket : List WbEntry}
    (h : Occupancy cfg f.store.cold) (hp : f.phase = .assigning m) (hb : m.bucket = e :: bucket)
    (hok : cacheSafe cfg f .assign = true) (page : Nat) (hpt : (f.store.cold.cmt page).pt = true) :
    (f.store.cold.cmt page).hitCnt + pageHits ((f.store.gcItems cfg).map (·.lpa)) page <
      4294967296 := by
  have hlpas : f.hitLpas cfg .assign = (f.store.gcItems cfg).map (·.lpa) := by
    simp [Ftl.hitLpas, hp, hb]
  simp only [cacheSafe, hlpas, Bool.and_eq_true] at hok
  by_cases hmem : ∃ lpa ∈ (f.store.gcItems cfg).map (·.lpa), dIdx lpa = page
  · obtain ⟨lpa, hl, rfl⟩ := hmem
    have hall := List.all_eq_true.mp hok.2 lpa hl
    simpa [hpt] using hall
  · have hzero : pageHits ((f.store.gcItems cfg).map (·.lpa)) page = 0 :=
      List.countP_eq_zero.mpr fun lpa hl hd => hmem ⟨lpa, hl, of_decide_eq_true hd⟩
    rw [hzero]
    exact (h.warm page hpt).2

/-- One step keeps the cache occupied as counted. -/
theorem Occupancy.step {f f' : Ftl} {a : Label} (h : Occupancy cfg f.store.cold)
    (hkeys : f.Keys fun k => getLpa k < cfg.nrValidTentries) (hok : cacheSafe cfg f a = true)
    (hs : Step cfg fp f a f') : Occupancy cfg f'.store.cold := by
  cases hs with
  | getPass r s ex hp hd hx =>
    have hk := hkeys.phase
    rw [hp] at hk
    have hocc : Occupancy cfg s.cold := h.getPath hp hk hok hd
    cases ex with
    | again => exact hocc
    | parked => exact hocc
    | done => exact hocc
  | assign m e bucket ppa s hp hb ha =>
    exact (SameResidence.assignEntry ha).occupancy h (gcHits_fit h hp hb hok)
  | wbAgain m e s e' hp hc hcnt hw | wbParked m e s e' hp hc hcnt hw =>
    have hk := hkeys.phase
    rw [hp] at hk
    have hke : getLpa e.key < cfg.nrValidTentries := hk.2 e (by simp [MapUpdate.pending, hc])
    exact h.wbPath hp hc hke hok hw
  -- The update that follows the pass hits nothing.
  | wbUpdate m e s e' ppa hp hc hcnt hw hppa =>
    have hk := hkeys.phase
    rw [hp] at hk
    have hke : getLpa e.key < cfg.nrValidTentries := hk.2 e (by simp [MapUpdate.pending, hc])
    have hocc : Occupancy cfg s.cold := h.wbPath hp hc hke hok hw
    refine (SameResidence.update _ _ _).occupancy_noHits ?_
    rw [wbInvalidateOld_cold]
    exact hocc
  | wbDirectUpdate m e s e' ppa hp hc hcnt hw hppa =>
    have hk := hkeys.phase
    rw [hp] at hk
    have hke : getLpa e.key < cfg.nrValidTentries := hk.2 e (by simp [MapUpdate.pending, hc])
    have hocc : Occupancy cfg s.cold := h.wbPath hp hc hke hok hw
    exact (SameResidence.update _ _ _).occupancy_noHits hocc
  | get | resume | setFull | setInsert | endAssign | pickRetry | pickMaster | flush => exact h

theorem create_occupancy (cfg : Settings) : Occupancy cfg Cold.create where
  counted := rfl
  tracks := Tracks.nil
  linked _ := rfl
  fresh _ hnd := by cases hnd
  inRange _ hpt := by cases hpt
  warm _ hpt := by cases hpt

/-- The machine accepts requests for blocks of the mapping table only. -/
theorem Step.label_inTable {f f' : Ftl} {a : Label} (h : Step cfg fp f a f') :
    a.Keys fun k => getLpa k < cfg.nrValidTentries := by
  cases h with
  | get key hp hk => exact hk
  | setFull key bytes hp hl => exact hl
  | setInsert key bytes hp hl => exact hl
  | resume | getPass | endAssign | assign | pickRetry | pickMaster | wbAgain | wbParked |
    wbUpdate | wbDirectUpdate | flush => trivial

theorem reach_inTable {ok : Ftl → Label → Prop} {f : Ftl} (h : (machine cfg fp).Reach ok f) :
    f.Keys fun k => getLpa k < cfg.nrValidTentries :=
  h.invariant (fun _ ⟨_, hs⟩ => hs ▸ .create _) fun _ _ _ _ ih _ hn =>
    ih.step (Step.of_next hn).label_inTable (.of_next hn)

theorem reach_occupancy {f : Ftl}
    (h : (machine cfg fp).Reach (fun f a => cacheSafe cfg f a = true) f) :
    Occupancy cfg f.store.cold := by
  refine h.invariant (I := fun f => Occupancy cfg f.store.cold) ?_ ?_
  · rintro _ ⟨garbage, rfl⟩
    exact create_occupancy cfg
  · intro s s' a hr ih hok hn
    exact ih.step (reach_inTable hr) hok (.of_next hn)

/-- While no step resumes at `list_up` with a resident page and no hit counter wraps,
    the page counter is the number of resident pages and of LRU nodes, each resident page
    has one node, the one its `lru_ptr` points to, other pages have none, and a full
    cache always has a victim, also for the evictions of hot pages. -/
theorem tpage_cache_occupancy {f : Ftl}
    (h : (machine cfg fp).Reach (fun f a => cacheSafe cfg f a = true) f) :
    f.store.cold.nrCachedTpages =
      (List.range cfg.nrValidTpages).countP (fun page => (f.store.cold.cmt page).pt) ∧
    f.store.cold.nrCachedTpages = f.store.cold.lru.length ∧
    (f.store.cold.lru.map (·.addr)).Nodup ∧
    (∀ page, (f.store.cold.cmt page).pt = true →
      ∃ addr, (f.store.cold.cmt page).lruPtr = some addr ∧
        f.store.cold.lru.filter (fun nd => nd.page = page) = [⟨addr, page⟩]) ∧
    (∀ page, (f.store.cold.cmt page).pt = false →
      f.store.cold.lru.filter (fun nd => nd.page = page) = []) ∧
    (f.store.cold.isFull cfg = true → (popVictim f.store.cold).isSome = true) := by
  have ho := reach_occupancy h
  refine ⟨ho.counted_pages, ho.counted, ho.tracks.addrs, fun page hpt => ?_, fun page hpt => ?_,
    ho.popVictim_isSome⟩
  · obtain ⟨nd, hnd, rfl, hptr⟩ := ho.exists_node hpt
    exact ⟨nd.addr, hptr, ho.tracks.filter_key hnd⟩
  · exact ho.tracks.filter_key_eq_nil ho.linked hpt

/-! ## Section 6: Concrete runs -/

/-- A device of 60 superblocks of 16 pages, buffers of one entry and a cache of two
    pages. -/
def twoPages : Settings where
  pps := 16
  nos := 60
  nrValidTpages := 4
  maxWriteBuf := 1
  maxCachedTpages := 2
  pps_pos := HashKv.sixteen_pos
  nos_ge := HashKv.nos_sixty
  nrValidTpages_pos := HashKv.four_pos
  maxWriteBuf_pos := Nat.one_pos
  maxCachedTpages_pos := Nat.two_pos
  pages_fit := pages_fit_sixty
  slots_fit := slots_fit_four

/-- The keys of blocks 0, 512, 1024 and 1536, one on each translation page. -/
def pageKey : Nat → Key
  | 0 => ⟨decimal 0, by decide⟩
  | 1 => ⟨decimal 512, by decide⟩
  | 2 => ⟨decimal 1024, by decide⟩
  | _ => ⟨decimal 1536, by decide⟩

/-- A set of a buffer of one entry, and the flush of the entry before it, whose page is
    not cached and has no flash copy; `evicts` when that takes the eviction of a dirty page. -/
def flushingSet (page : Nat) (evicts : Bool) : List Label :=
  [.set (pageKey page) 100, .assign, .assign, .pickMaster, .wbPass] ++
    (if evicts then [.pickRetry 0, .wbPass] else []) ++ [.flush]

/-- No operation is in progress. -/
def Ftl.quiet (f : Ftl) : Bool :=
  f.retryQ.isEmpty && match f.phase with
    | .idle => true
    | _ => false

/-- Pages 0, 1 and 2 are written through a cache of two pages, which evicts the dirty page 0. -/
def evictingSets : List Label :=
  [.set (pageKey 0) 100] ++ flushingSet 1 false ++ flushingSet 2 false ++ flushingSet 3 true

/-- A get of block 0 misses, loads page 0 in place of a dirty page and resumes at `list_up`;
    the cache is full, and has a victim. -/
theorem tpage_cache_occupancy_evictions :
    ∃ f : Ftl, f.quiet = true ∧ f.store.cold.isFull twoPages = true ∧
      (f.store.cold.cmt 0).pt = true ∧ (f.store.cold.cmt 1).pt = false ∧
      f.store.cold.nrCachedTpages =
        (List.range twoPages.nrValidTpages).countP (fun page => (f.store.cold.cmt page).pt) ∧
      (popVictim f.store.cold).isSome = true := by
  obtain ⟨f, hf, hp⟩ := exists_reach_of_run twoPages (fun _ => 7) (cacheSafe twoPages)
    (evictingSets ++ [.get (pageKey 0), .getPass, .resume 0, .getPass, .resume 0, .getPass])
    (fun f => f.quiet && f.store.cold.isFull twoPages && (f.store.cold.cmt 0).pt &&
      !(f.store.cold.cmt 1).pt) (by decide +kernel) (by decide +kernel)
  simp only [Bool.and_eq_true, Bool.not_eq_true'] at hp
  obtain ⟨⟨⟨hquiet, hfull⟩, hzero⟩, hone⟩ := hp
  obtain ⟨hcount, -, -, -, -, hvictim⟩ := tpage_cache_occupancy hf
  exact ⟨f, hquiet, hfull, hzero, hone, hcount, hvictim hfull⟩

/-- Two gets of block 0 miss, load page 0 and both resume at `list_up`: the second finds the
    page resident, evicts another one and counts page 0 again. -/
theorem blockCacheDrift_counterexample :
    ∃ f, (machine twoPages fun _ => 7).Reachable f ∧ f.quiet = true ∧
      f.store.cold.nrCachedTpages = 2 ∧ f.store.cold.lru.map (·.page) = [0, 0] ∧
      (List.range twoPages.nrValidTpages).countP (fun page => (f.store.cold.cmt page).pt) = 1 := by
  obtain ⟨f, hf, hp⟩ := exists_reachable_of_run twoPages (fun _ => 7)
    (evictingSets ++
      [.get (pageKey 0), .getPass, .get (pageKey 0), .getPass,
        .resume 0, .getPass, .resume 0, .getPass, .resume 0, .getPass, .resume 0, .getPass])
    (fun f => f.quiet && f.store.cold.nrCachedTpages = 2 &&
      f.store.cold.lru.map (·.page) = [0, 0] &&
      (List.range twoPages.nrValidTpages).countP (fun page => (f.store.cold.cmt page).pt) = 1)
    (by decide +kernel)
  simp only [Bool.and_eq_true, decide_eq_true_eq] at hp
  exact ⟨f, hf, hp.1.1.1, hp.1.1.2, hp.1.2, hp.2⟩

end AggreKV.BlockSsd
