import AggreKV.Lib.Weights
import AggreKV.HashKv.Settled

/-! # Steps of the adaptive memory

    A rebalance resizes the hot table, clears the pages that come or go and
    rehashes the rest at once. What any step does to an idle table is one
    of a few things.

    * `Collecting`, `Inserting`: what the two loops of a rehash keep.
    * `complete_rule`: the invariant rule of a rehash.
    * `Resizes`: the table that a rebalance rehashes.
    * `HotStep`, `hotStep`: what a step does to the hot table. -/

namespace AggreKV.HashKv

namespace HotTable

variable {h h' : HotTable}

/-! ## Section 1: Rehashes -/

/-- The entries that a rehash saves. -/
def warmSlots (h : HotTable) : List HotSlot :=
  ((List.range h.active).map h.slots).filter HotSlot.warm

/-- The collect loop: what `Collects` says, and the saved slots with their keys. -/
structure Collecting (h₀ h : HotTable) : Prop where
  collects : Collects h₀ h
  env : h.env = { h₀.env with maxCachedFullKey := h.env.maxCachedFullKey }
  saved : h.saved = ((List.range h.scan).map h₀.slots).filter HotSlot.warm

/-- A rehash begins with no slot scanned. -/
theorem Collecting.begin (h : HotTable) : Collecting h h.rehashBegin := ⟨.begin h, rfl, rfl⟩

/-- It scans one slot after the other. -/
theorem Collecting.step {h₀ : HotTable} (hc : Collecting h₀ h) (hl : 0 < h.toScan) :
    Collecting h₀ h.collectSlot := by
  refine ⟨hc.collects.step hl, ?_, ?_⟩
  · refine collectSlot_rule h (fun _ => hc.env) (fun _ _ => hc.env) fun _ _ => ?_
    show yieldKeyBudget h.env (h.slots h.scan) =
      { h₀.env with
        maxCachedFullKey := (yieldKeyBudget h.env (h.slots h.scan)).maxCachedFullKey }
    rw [yieldKeyBudget_eq, hc.env]
  · have hslot : h.slots h.scan = h₀.slots h.scan := hc.collects.rest h.scan (Nat.le_refl _)
    rw [collectSlot_scan, List.range_succ, List.map_append, List.filter_append, ← hc.saved,
      List.map_singleton, ← hslot]
    refine collectSlot_rule h (fun hnone => ?_) (fun _ hwarm => ?_) fun _ hcold => ?_
    · have hcold : ¬(h.slots h.scan).warm = true := by
        unfold HotSlot.warm
        rw [hnone]
        exact Bool.false_ne_true
      rw [List.filter_cons_of_neg hcold]
      exact (List.append_nil _).symm
    · rw [List.filter_cons_of_pos hwarm, List.filter_nil]
    · rw [List.filter_cons_of_neg hcold]
      exact (List.append_nil _).symm

/-- A slot that holds an entry. -/
def occupied (slot : HotSlot) : Bool := slot.lpa.isSome

theorem occupied_iff {slot : HotSlot} : occupied slot = true ↔ slot.lpa ≠ none := by
  unfold occupied
  rw [Option.isSome_iff_ne_none]

/-- No more entries are saved than there are slots. -/
theorem length_warmSlots_le (h : HotTable) : h.warmSlots.length ≤ h.active := by
  have hle := List.length_filter_le HotSlot.warm ((List.range h.active).map h.slots)
  rwa [List.length_map, List.length_range] at hle

/-- Only entries are saved. -/
theorem warmSlots_lpa {e : HotSlot} (he : e ∈ h.warmSlots) : e.lpa ≠ none := by
  have hwarm := (List.mem_filter.mp he).2
  exact occupied_iff.mp ((Bool.and_eq_true ..).mp hwarm).1

/-- The insert loop: every entry of the active pages is a saved one whose turn has come. -/
structure Inserting (h₀ h : HotTable) : Prop where
  env : h.env = { h₀.env with maxCachedFullKey := h.env.maxCachedFullKey }
  saved : h.saved = h₀.warmSlots
  beyond : ∀ i, h₀.active ≤ i → h.slots i = h₀.slots i
  origin : ∀ i < h₀.active, (h.slots i).lpa ≠ none → ∃ k < h.insertIdx, ∃ e, h.saved[k]? = some e ∧
    (h.slots i).lpa = e.lpa ∧ (h.slots i).realKey = e.realKey
  room : weight (fun slot => (occupied slot).toNat) h.slots h₀.active ≤ h.insertIdx

theorem Inserting.active {h₀ : HotTable} (hi : Inserting h₀ h) : h.active = h₀.active := by
  unfold HotTable.active
  rw [hi.env]

/-- The sizes stay as they are during a rehash. -/
theorem Inserting.sized {h₀ : HotTable} (hi : Inserting h₀ h) (hs : h₀.env.Sized) :
    h.env.Sized := by
  obtain ⟨hentries, hpos, hmin, htotal⟩ := hs
  rw [hi.env]
  exact ⟨hentries, hpos, hmin, htotal⟩

/-- When all slots are scanned, the insertions begin. -/
theorem Inserting.begin {h₀ : HotTable} (hc : Collecting h₀ h) (hscan : h.scan = h₀.active) :
    Inserting h₀ { h with insertIdx := 0, phase := .insert } := by
  have hempty : ∀ i < h₀.active, (h.slots i).lpa = none := by
    intro i hi
    exact hc.collects.scanned i (hscan ▸ hi)
  refine ⟨hc.env, ?_, fun i hi => hc.collects.rest i (hscan ▸ hi), fun i hi hne => ?_, ?_⟩
  · show h.saved = _
    rw [hc.saved, hscan]
    rfl
  · exact absurd (hempty i hi) hne
  · apply Nat.le_of_eq
    apply weight_eq_zero
    intro i hi
    show (h.slots i).lpa.isSome.toNat = 0
    rw [hempty i hi]
    rfl

/-- What the slot for an entry holds: nothing, or the same lpa. -/
theorem placeSlot_some {lpa i : Nat} (hs : h.env.Sized) (hp : h.placeSlot lpa = some i) :
    i < h.active ∧ ((h.slots i).lpa = none ∨ (h.slots i).lpa = some lpa) := by
  have hpos : 0 < h.active := Nat.mul_pos hs.hot_pos (Nat.zero_lt_succ 511)
  -- What either of the two searches finds.
  have hfree : ∀ {l : List Nat}, l.find? (fun i => (h.slots i).lpa.isNone ||
      decide ((h.slots i).lpa = some lpa)) = some i →
      i ∈ l ∧ ((h.slots i).lpa = none ∨ (h.slots i).lpa = some lpa) := by
    intro l hl
    have hp := List.find?_some hl
    refine ⟨List.mem_of_find?_eq_some hl, ?_⟩
    rcases (Bool.or_eq_true ..).mp hp with hnone | hsame
    · exact Or.inl (Option.isNone_iff_eq_none.mp hnone)
    · exact Or.inr (of_decide_eq_true hsame)
  unfold placeSlot at hp
  dsimp only at hp
  cases hprobe : (h.probes lpa 3200).find? (fun i => (h.slots i).lpa.isNone ||
      decide ((h.slots i).lpa = some lpa)) with
  | some j =>
    rw [hprobe] at hp
    cases hp
    obtain ⟨hmem, hlpa⟩ := hfree hprobe
    exact ⟨HotTable.probes_lt hs.entries hpos lpa 3200 i hmem, hlpa⟩
  | none =>
    rw [hprobe] at hp
    obtain ⟨hmem, hlpa⟩ := hfree hp
    exact ⟨List.mem_range.mp hmem, hlpa⟩

/-- While a slot is empty, every entry gets one. -/
theorem exists_placeSlot {i : Nat} (hi : i < h.active) (hempty : (h.slots i).lpa = none)
    (lpa : Nat) :
    ∃ j, h.placeSlot lpa = some j := by
  unfold placeSlot
  dsimp only
  cases hprobe : (h.probes lpa 3200).find? (fun i => (h.slots i).lpa.isNone ||
      decide ((h.slots i).lpa = some lpa)) with
  | some j => exact ⟨j, rfl⟩
  | none =>
    cases hscan : (List.range h.active).find? (fun i => (h.slots i).lpa.isNone ||
        decide ((h.slots i).lpa = some lpa)) with
    | some j => exact ⟨j, rfl⟩
    | none =>
      have hi' := List.find?_eq_none.mp hscan i (List.mem_range.mpr hi)
      rw [hempty] at hi'
      exact absurd rfl hi'

/-- The table with the next saved entry in slot `i`. -/
def placedAt (h : HotTable) (i : Nat) (e : HotSlot) : HotTable :=
  { h.setSlot i (copyPte (h.slots i) e) with
    stateLive := histInc (if (h.slots i).lpa ≠ none then histDec h.stateLive (h.slots i).state
      else h.stateLive) e.state
    placed := h.placed + 1
    ghosts := if e.keyGhostMark then h.ghosts + 1 else h.ghosts
    insertIdx := h.insertIdx + 1 }

/-- The slot for the next entry. -/
structure Takes (h₀ h : HotTable) (e : HotSlot) (lpa i : Nat) : Prop where
  next : h.saved[h.insertIdx]? = some e
  entry : e.lpa = some lpa
  slot : h.placeSlot lpa = some i
  lt : i < h₀.active
  held : (h.slots i).lpa = none ∨ (h.slots i).lpa = some lpa

/-- No entry is ever dropped for want of a slot. -/
theorem Inserting.takes {h₀ : HotTable} {e : HotSlot} (hi : Inserting h₀ h) (hs : h₀.env.Sized)
    (he : h.saved[h.insertIdx]? = some e) :
    ∃ lpa i, Takes h₀ h e lpa i ∧ h.insertEntry e = h.placedAt i e := by
  have hlt : h.insertIdx < h₀.active := by
    have hlen := (List.getElem?_eq_some_iff.mp he).1
    rw [hi.saved] at hlen
    exact hlen.trans_le h₀.length_warmSlots_le
  obtain ⟨lpa, hlpa⟩ : ∃ lpa, e.lpa = some lpa := by
    apply Option.ne_none_iff_exists'.mp
    apply warmSlots_lpa (h := h₀)
    rw [← hi.saved]
    exact List.mem_of_getElem? he
  -- Less slots are occupied than there are.
  obtain ⟨k, hk, hempty⟩ : ∃ k < h₀.active, (h.slots k).lpa = none := by
    by_contra hfull
    push Not at hfull
    have hall : weight (fun slot => (occupied slot).toNat) h.slots h₀.active = h₀.active := by
      rw [weight_toNat, Finset.filter_true_of_mem, Finset.card_range]
      intro j hj
      exact occupied_iff.mpr (hfull j (Finset.mem_range.mp hj))
    have hroom := hi.room
    omega
  -- So the second search ends at an empty slot at the latest.
  obtain ⟨i, hslot⟩ := exists_placeSlot (hi.active.symm ▸ hk) hempty lpa
  obtain ⟨hiact, hheld⟩ := placeSlot_some (hi.sized hs) hslot
  refine ⟨lpa, i, ⟨he, hlpa, hslot, hi.active ▸ hiact, hheld⟩, ?_⟩
  have hbind : e.lpa.bind h.placeSlot = some i := by
    rw [hlpa]
    exact hslot
  unfold insertEntry
  rw [hbind]
  rfl

theorem slots_placedAt (h : HotTable) (i : Nat) (e : HotSlot) (j : Nat) :
    (h.placedAt i e).slots j = if j = i then copyPte (h.slots i) e else h.slots j :=
  slots_setSlot ..

/-- An entry goes to its slot. -/
theorem Inserting.placedAt {h₀ : HotTable} {e : HotSlot} {lpa i : Nat} (hi : Inserting h₀ h)
    (ht : Takes h₀ h e lpa i) : Inserting h₀ (h.placedAt i e) := by
  refine ⟨hi.env, hi.saved, fun j hj => ?_, fun j hj hne => ?_, ?_⟩
  · have hji : j ≠ i := by
      have hlt := ht.lt
      omega
    rw [slots_placedAt, if_neg hji]
    exact hi.beyond j hj
  · show ∃ k < h.insertIdx + 1, ∃ e', h.saved[k]? = some e' ∧ _
    rw [slots_placedAt] at hne ⊢
    by_cases hji : j = i
    · rw [if_pos hji]
      exact ⟨h.insertIdx, Nat.lt_succ_self _, e, ht.next, rfl, rfl⟩
    · rw [if_neg hji] at hne ⊢
      obtain ⟨k, hk, e', he'⟩ := hi.origin j hj hne
      exact ⟨k, Nat.lt_succ_of_lt hk, e', he'⟩
  · have hset := weight_set (w := fun slot => (occupied slot).toNat) (f := h.slots)
      (g := (h.placedAt i e).slots) ht.lt (fun j hj => by rw [slots_placedAt, if_neg hj])
    have hone : (occupied ((h.placedAt i e).slots i)).toNat ≤ 1 := Bool.toNat_le _
    have hroom := hi.room
    show _ ≤ h.insertIdx + 1
    omega

/-- The rule of a complete rehash: `C` is kept while the slots are collected, `D` while the
    entries that meet `P` are put into their slots. -/
theorem complete_rule {P : HotTable → HotSlot → Prop} {C D : HotTable → Prop} (hs : h.env.Sized)
    (hok : h.RehashOk P) (hbegin : C h.rehashBegin)
    (hcollect : ∀ g, Collecting h g → Collecting h g.collectSlot → g.scan < h.active → C g →
      C g.collectSlot)
    (hswitch : ∀ g, Collecting h g → g.scan = h.active → C g →
      D { g with insertIdx := 0, phase := .insert })
    (hinsert : ∀ g e lpa i, Inserting h g → Takes h g e lpa i → P g e → D g → D (g.placedAt i e)) :
    ∃ g, h.rehash = g.rehashFinish ∧ Inserting h g ∧ h.warmSlots.length ≤ g.insertIdx ∧ D g := by
  have hsize : h.env.maxCachedHotTpages < 2147483648 := by
    have htotal := hs.total
    omega
  have hscan : ∀ {g : HotTable}, Collecting h g → g.nPages * 512 = h.active := by
    intro g hc
    rw [hc.collects.nPages]
    rfl
  have hrule := rehash_rule (C := fun g => Collecting h g ∧ C g) (D := fun g => Inserting h g ∧ D g)
    hsize hok ⟨.begin h, hbegin⟩ ?_ ?_ ?_
  · obtain ⟨g, hg, ⟨hi, hd⟩, hlen⟩ := hrule
    rw [hi.saved] at hlen
    exact ⟨g, hg, hi, hlen, hd⟩
  -- A round of the scan.
  · intro g hg hlt
    obtain ⟨hc, hC⟩ := hg
    have hc' := hc.step (Nat.sub_pos_of_lt hlt)
    refine ⟨hc', hcollect g hc hc' ?_ hC⟩
    rwa [← hscan hc]
  -- The switch from the scan to the insertions.
  · intro g hg hle
    obtain ⟨hc, hC⟩ := hg
    rw [hscan hc] at hle
    have hdone := Nat.le_antisymm hc.collects.bound hle
    exact ⟨.begin hc hdone, hswitch g hc hdone hC⟩
  -- A round of the insertions.
  · intro g e hg he hP
    obtain ⟨hi, hD⟩ := hg
    obtain ⟨lpa, i, ht, heq⟩ := hi.takes hs he
    rw [heq]
    exact ⟨hi.placedAt ht, hinsert g e lpa i hi ht hP hD⟩

/-- A rehash leaves the table idle, and touches no slot beyond the active pages. -/
theorem settled_rehash (hs : h.env.Sized) : h.rehash.Settled ∧
    h.rehash.env = { h.env with maxCachedFullKey := h.rehash.env.maxCachedFullKey } ∧
    ∀ i, h.active ≤ i → h.rehash.slots i = h.slots i := by
  obtain ⟨g, hg, hi, -, -⟩ := complete_rule (P := fun _ _ => True) (C := fun _ => True)
    (D := fun _ => True) hs (insertsOk_true _ _) trivial (fun _ _ _ _ _ => trivial)
    (fun _ _ _ _ => trivial) (fun _ _ _ _ _ _ _ _ => trivial)
  rw [hg]
  exact ⟨⟨rfl, hi.sized hs⟩, hi.env, hi.beyond⟩

/-! ## Section 2: Resizing -/

/-- Only free key bytes are gained. -/
theorem foldl_uncountHot_env (slots : List HotSlot) (h : HotTable) :
    (slots.foldl uncountHot h).env =
      { h.env with maxCachedFullKey := (slots.foldl uncountHot h).env.maxCachedFullKey } := by
  induction slots generalizing h with
  | nil => rfl
  | cons slot slots ih =>
    have hslot : (h.uncountHot slot).env =
        { h.env with maxCachedFullKey := (h.uncountHot slot).env.maxCachedFullKey } :=
      yieldKeyBudget_eq ..
    rw [List.foldl_cons, ih (h.uncountHot slot), hslot]

/-- A budget that covers the keys gets all their bytes back. -/
theorem foldl_uncountHot_free (slots : List HotSlot) (h : HotTable)
    (hle : (slots.map fun slot => slot.realKey.length).sum + h.env.maxCachedFullKey ≤
      h.env.maxCachedFullKeyBudget) :
    (slots.foldl uncountHot h).env.maxCachedFullKey =
      (slots.map fun slot => slot.realKey.length).sum + h.env.maxCachedFullKey := by
  induction slots generalizing h with
  | nil => exact (Nat.zero_add _).symm
  | cons slot slots ih =>
    rw [List.map_cons, List.sum_cons] at hle ⊢
    have hfree : (h.uncountHot slot).env.maxCachedFullKey =
        slot.realKey.length + h.env.maxCachedFullKey := yieldKeyBudget_free (by omega)
    have hbudget : (h.uncountHot slot).env.maxCachedFullKeyBudget =
        h.env.maxCachedFullKeyBudget := by
      show (yieldKeyBudget h.env slot).maxCachedFullKeyBudget = _
      rw [yieldKeyBudget_eq]
    rw [List.foldl_cons, ih (h.uncountHot slot) (by omega), hfree]
    omega

/-- Clearing pages does not change the size. -/
theorem clearPages_active (h : HotTable) (lo n : Nat) : (h.clearPages lo n).active = h.active := by
  show (List.foldl uncountHot _ _).env.maxCachedHotTpages * 512 = _
  rw [foldl_uncountHot_env]
  rfl

/-- The pages between the old and the new size have been cleared. -/
inductive Resizes (h : HotTable) : HotTable → Prop where
  | cleared {env lo n} : CacheEnv.Resized h.env env →
      min h.env.maxCachedHotTpages env.maxCachedHotTpages = lo →
      max h.env.maxCachedHotTpages env.maxCachedHotTpages = lo + n →
      Resizes h ({ h with env := env }.clearPages lo n)

/-- The key bytes of a slot. -/
def keyBytes (slot : HotSlot) : Nat := slot.realKey.length

namespace Resizes

variable {g : HotTable}

/-- A resize moves pages between the two caches. -/
theorem env (hr : Resizes h g) : CacheEnv.Resized h.env { g.env with
    maxCachedFullKey := h.env.maxCachedFullKey } := by
  cases hr with
  | @cleared env lo n hres _ _ =>
    show CacheEnv.Resized h.env { (List.foldl uncountHot _ _).env with maxCachedFullKey := _ }
    rw [foldl_uncountHot_env]
    exact ⟨⟨hres.sized.entries, hres.sized.hot_pos, hres.sized.min_pos, hres.sized.total⟩, rfl,
      hres.budget, hres.verifyCache⟩

/-- The new sizes are sized again. -/
theorem sized (hr : Resizes h g) : g.env.Sized := by
  have hs := hr.env.sized
  exact ⟨hs.entries, hs.hot_pos, hs.min_pos, hs.total⟩

theorem budget (hr : Resizes h g) : g.env.maxCachedFullKeyBudget = h.env.maxCachedFullKeyBudget :=
  hr.env.budget

theorem verifyCache (hr : Resizes h g) : g.env.verifyCache = h.env.verifyCache := hr.env.verifyCache

/-- The slots between the two sizes are cleared. -/
theorem slots (hr : Resizes h g) (i : Nat) : g.slots i =
    if min h.active g.active ≤ i ∧ i < max h.active g.active then (h.slots i).cleared
    else h.slots i := by
  cases hr with
  | @cleared env lo n hres hlo hhi =>
    have hactive : HotTable.active (({ h with env := env } : HotTable).clearPages lo n) =
        env.maxCachedHotTpages * 512 := clearPages_active ..
    have hmin : min h.active (env.maxCachedHotTpages * 512) = lo * 512 := by
      rw [← hlo]
      exact Nat.mul_min_mul_right ..
    have hmax : max h.active (env.maxCachedHotTpages * 512) = lo * 512 + n * 512 := by
      rw [← Nat.add_mul, ← hhi]
      exact Nat.mul_max_mul_right ..
    rw [hactive, hmin, hmax]
    rfl

theorem slots_lt (hr : Resizes h g) {i : Nat} (hlt : i < h.active) (hlt' : i < g.active) :
    g.slots i = h.slots i := by
  rw [hr.slots, if_neg]
  rintro ⟨hle, _⟩
  exact absurd (Nat.lt_min.mpr ⟨hlt, hlt'⟩) (Nat.not_lt.mpr hle)

/-- A slot beyond the new size is cleared or was beyond the old one. -/
theorem slots_beyond (hr : Resizes h g) {i : Nat} (hle : g.active ≤ i) :
    g.slots i = (h.slots i).cleared ∨ h.active ≤ i ∧ g.slots i = h.slots i := by
  rw [hr.slots]
  by_cases hlt : i < h.active
  · rw [if_pos ⟨(Nat.min_le_right ..).trans hle, hlt.trans_le (Nat.le_max_left ..)⟩]
    exact Or.inl rfl
  · rw [if_neg]
    · exact Or.inr ⟨Nat.not_lt.mp hlt, rfl⟩
    · rintro ⟨_, hmax⟩
      rcases lt_max_iff.mp hmax with hh | hg
      · exact hlt hh
      · exact absurd hg (Nat.not_lt.mpr hle)

/-- The keys of cleared slots are free again, while those of all slots are in the budget. -/
theorem free (hr : Resizes h g) (hbeyond : ∀ i, h.active ≤ i → (h.slots i).realKey = [])
    (hle : weight keyBytes h.slots h.active + h.env.maxCachedFullKey ≤
      h.env.maxCachedFullKeyBudget) :
    weight keyBytes g.slots g.active + g.env.maxCachedFullKey =
      weight keyBytes h.slots h.active + h.env.maxCachedFullKey := by
  obtain ⟨k, hk⟩ := Nat.exists_eq_add_of_le (min_le_max (a := h.active) (b := g.active))
  -- The keys beyond the smaller size are those of the slots that are cleared.
  have hold : weight keyBytes h.slots h.active = weight keyBytes h.slots (min h.active g.active) +
      (((List.range' (min h.active g.active) k).map h.slots).map keyBytes).sum := by
    rw [← weight_add, ← hk]
    symm
    apply weight_extend (Nat.le_max_left ..)
    intro i hi _
    exact List.length_eq_zero_iff.mpr (hbeyond i hi)
  -- Beyond it, the new table has no keys.
  have hnew : weight keyBytes g.slots g.active = weight keyBytes h.slots
      (min h.active g.active) := by
    rw [weight_extend (Nat.min_le_right h.active g.active)]
    · apply weight_congr
      intro i hi
      obtain ⟨hlt, hlt'⟩ := Nat.lt_min.mp hi
      rw [hr.slots_lt hlt hlt']
    · intro i hi hlt
      rw [hr.slots, if_pos ⟨hi, hlt.trans_le (Nat.le_max_right ..)⟩]
      rfl
  have hfree : g.env.maxCachedFullKey =
      (((List.range' (min h.active g.active) k).map h.slots).map keyBytes).sum +
        h.env.maxCachedFullKey := by
    have hsum : (((List.range' (min h.active g.active) k).map h.slots).map keyBytes).sum +
        h.env.maxCachedFullKey ≤ h.env.maxCachedFullKeyBudget := by omega
    clear hold hnew hle
    obtain @⟨env, lo, n, hres, hlo, hhi⟩ := hr
    have hactive : HotTable.active (({ h with env := env } : HotTable).clearPages lo n) =
        env.maxCachedHotTpages * 512 := clearPages_active ..
    have hmin : min h.active (env.maxCachedHotTpages * 512) = lo * 512 := by
      rw [← hlo]
      exact Nat.mul_min_mul_right ..
    have hmax : max h.active (env.maxCachedHotTpages * 512) = (lo + n) * 512 := by
      rw [← hhi]
      exact Nat.mul_max_mul_right ..
    rw [hactive, hmin, hmax, Nat.add_mul] at hk
    obtain rfl := Nat.add_left_cancel hk
    rw [hactive, hmin] at hsum ⊢
    rw [← hres.free] at hsum ⊢
    rw [← hres.budget] at hsum
    exact foldl_uncountHot_free _ { h with env := env } hsum
  omega

end Resizes

/-- A step that leaves the entries alone, with their counters. -/
structure Quiet (h h' : HotTable) : Prop where
  active : h'.active = h.active
  mapping : ∀ i, (h'.slots i).toPte = (h.slots i).toPte
  stateLive : h'.stateLive = h.stateLive
  validEntries : h'.validEntries = h.validEntries

/-- Ghost marks are no part of the mapping. -/
theorem quiet_unghosted (hu : Unghosted h h') : Quiet h h' := by
  refine ⟨?_, hu.mapping, hu.stateLive, hu.validEntries⟩
  unfold active
  rw [hu.env]

/-- Neither is a cached key. -/
theorem quiet_cacheKey (h : HotTable) (i : Nat) (realKey : List UInt8) :
    Quiet h (h.cacheKey i realKey) := by
  unfold cacheKey
  dsimp only
  split
  · refine ⟨rfl, fun j => ?_, rfl, rfl⟩
    show ((h.setSlot i _).slots j).toPte = _
    rw [slots_setSlot]
    split
    · next hj => rw [hj]; rfl
    · rfl
  · exact ⟨rfl, fun _ => rfl, rfl, rfl⟩

theorem quiet_expandKey {env : CacheEnv} (hs : h.Settled)
    (henv : h.env.expandKeyCache h.env.maxCachedFullKey = some (true, env)) :
    Quiet h { h with env := env }.ghostTrim := by
  obtain ⟨_, hpages, _⟩ := CacheEnv.expandKeyCache_some henv hs.sized
  have hu := Unghosted.ghostTrim { h with env := env }
  refine ⟨?_, hu.mapping, hu.stateLive, hu.validEntries⟩
  unfold active
  rw [hu.env]
  show env.maxCachedHotTpages * 512 = _
  rw [hpages]

theorem reset_active (h : HotTable) : h.reset.active = h.active := by
  unfold active reset
  dsimp only
  split <;> rfl

/-- A reset empties the active slots. -/
theorem reset_empty {i : Nat} (hi : i < h.active) : (h.reset.slots i).lpa = none := by
  show (if i < h.active then _ else _ : HotSlot).lpa = none
  rw [if_pos hi]

end HotTable

/-! ## Section 3: The steps of the memory -/

namespace Mem

open HotTable

/-- The table that a step rehashes. -/
def rehashes (m : Mem) : MemLabel → Option HotTable
  | .expandHot => m.expandHotTable.join
  | .shrinkHot => m.shrinkHotTable.join
  | _ => none

theorem rehashes_none {m : Mem} {a : MemLabel} {P : HotTable → Prop} (hno : m.rehashes a = none) :
    ∀ g ∈ m.rehashes a, P g := by
  intro g hg
  rw [hno] at hg
  cases hg

/-- A step that may leave the hot table alone. -/
def idles : MemLabel → Bool
  | .hit _ => true
  | .expandHot => true
  | .shrinkHot => true
  | .expandKey => true
  | .evict _ => true
  | .load _ => true
  | _ => false

/-- What a step does to the hot table. -/
inductive HotStep (m : Mem) : MemLabel → HotTable → Prop where
  | same {a} : idles a = true → m.rehashes a = none → HotStep m a m.hot
  | promote {lpa ppa keyFp coldCnt} :
      HotStep m (.promote lpa ppa keyFp coldCnt) (m.hot.placeGrain lpa ppa keyFp coldCnt)
  | raise {lpa i} : m.hot.hitSlot lpa = some i → HotStep m (.hit lpa) (m.hot.stateRaise i)
  | verify {i keyFp} : HotStep m (.verify i keyFp) (m.hot.ghostKeyOnFlashVerify i keyFp)
  | cacheKey {i realKey} : i < m.hot.active → (m.hot.slots i).lpa ≠ none →
      HotStep m (.cacheKey i realKey) (m.hot.cacheKey i realKey)
  | rehash {a g} : m.rehashes a = some g → Resizes m.hot g → HotStep m a g.rehash.ghostTrim
  | expandKey {env} : m.hot.env.expandKeyCache m.hot.env.maxCachedFullKey = some (true, env) →
      HotStep m .expandKey { m.hot with env := env }.ghostTrim
  | reset : HotStep m .reset m.hot.reset
  | prepare : HotStep m .prepare m.hot.prepareForBenchmark

/-- An expansion of the hot cache resizes the table. -/
theorem expandHotTable_some {m : Mem} {t : Option HotTable} (ht : m.expandHotTable = some t)
    (hs : m.hot.Settled) : ∀ g ∈ t, Resizes m.hot g := by
  obtain ⟨⟨done, env⟩, henv, ht⟩ := Option.bind_eq_some_iff.mp ht
  intro g hg
  cases done with
  | false =>
    cases ht
    cases hg
  | true =>
    cases ht
    cases hg
    obtain ⟨hres, hpages⟩ := CacheEnv.expandHotFromCold_some henv hs.sized
    exact .cleared hres (by omega) (by omega)

/-- And so does a shrink. -/
theorem shrinkHotTable_some {m : Mem} {t : Option HotTable} (ht : m.shrinkHotTable = some t)
    (hs : m.hot.Settled) : ∀ g ∈ t, Resizes m.hot g := by
  obtain ⟨⟨done, env⟩, henv, ht⟩ := Option.bind_eq_some_iff.mp ht
  intro g hg
  cases done with
  | false =>
    cases ht
    cases hg
  | true =>
    cases ht
    cases hg
    obtain ⟨hres, hpages⟩ := CacheEnv.shrinkHotToCold_some henv hs.sized
    exact .cleared hres (by omega) (by omega)

theorem ghostTrim_hot (m : Mem) : m.ghostTrim.hot = m.hot.ghostTrim := by
  unfold ghostTrim
  dsimp only
  rw [ghostColdEvictDownTo_hot]

/-- A resize is followed by a rehash, which ends in the same step. -/
theorem hotStep_rehashed {m : Mem} {a : MemLabel} {t : Option HotTable} (ha : idles a = true)
    (ht : m.rehashes a = t) (hres : ∀ g ∈ t, Resizes m.hot g) : HotStep m a (m.rehashed t).hot := by
  cases t with
  | none => exact .same ha ht
  | some g =>
    have hhot : (m.rehashed (some g)).hot = g.rehash.ghostTrim := ghostTrim_hot _
    rw [hhot]
    exact .rehash ht (hres g rfl)

/-- While the table is idle, a step does one of these things to it. -/
theorem hotStep {m m' : Mem} {a : MemLabel} (hs : m.hot.Settled) (h : m.next a = some m') :
    HotStep m a m'.hot := by
  have hidle := hs.accessible
  cases a with
  | promote lpa ppa keyFp coldCnt =>
    cases h
    dsimp only
    rw [if_pos hidle]
    exact .promote
  | hit lpa =>
    cases h
    dsimp only
    split
    · next i hi => exact .raise hi
    -- Outside a rehash the drain of a missed lookup does nothing.
    · have hstay : m.hot.rehashDrain 4 = m.hot := by
        rw [rehashDrain_eq]
        exact rehashTick_idle hs.idle 4
      rw [hstay]
      exact .same rfl rfl
  | verify i keyFp =>
    unfold next at h
    dsimp only at h
    split at h
    · cases h
      exact .verify
    · cases h
  | cacheKey i realKey =>
    unfold next at h
    dsimp only at h
    split at h
    · next hi =>
      cases h
      exact .cacheKey hi.1 hi.2
    · cases h
  -- A resized table is the old one rehashed to the end.
  | expandHot =>
    obtain ⟨t, ht, rfl⟩ := Option.map_eq_some_iff.mp h
    apply hotStep_rehashed rfl
    · show m.expandHotTable.join = t
      rw [ht]
      rfl
    · exact expandHotTable_some ht hs
  | shrinkHot =>
    obtain ⟨t, ht, rfl⟩ := Option.map_eq_some_iff.mp h
    apply hotStep_rehashed rfl
    · show m.shrinkHotTable.join = t
      rw [ht]
      rfl
    · exact shrinkHotTable_some ht hs
  | expandKey =>
    obtain ⟨⟨done, env⟩, henv, h⟩ := Option.bind_eq_some_iff.mp h
    cases done with
    | false =>
      cases h
      exact .same rfl rfl
    | true =>
      cases h
      rw [if_pos rfl, ghostTrim_hot]
      exact .expandKey henv
  | reset =>
    cases h
    exact .reset
  | prepare =>
    cases h
    exact .prepare
  | evict page =>
    unfold next at h
    dsimp only at h
    split at h
    · cases h
      show HotStep m _ ((m.setPage page _).ghostColdMark page).hot
      rw [ghostColdMark_hot]
      exact .same rfl rfl
    · cases h
  | load page =>
    unfold next at h
    dsimp only at h
    split at h
    · cases h
      rw [load_hot]
      exact .same rfl rfl
    · cases h

/-- No step leaves the table in a rehash. -/
theorem HotStep.settled {m : Mem} {a : MemLabel} {h : HotTable} (ha : HotStep m a h)
    (hs : m.hot.Settled) : h.Settled := by
  cases ha with
  | same _ _ => exact hs
  | promote => exact (placed_placeGrain ..).settled hs
  | @raise lpa i _ => exact stateRaise_rule _ _ hs fun _ _ => ⟨hs.idle, hs.sized⟩
  | verify => exact (Unghosted.ghostKeyOnFlashVerify ..).settled hs
  | cacheKey =>
    unfold HotTable.cacheKey
    dsimp only
    split
    · exact hs.of_env rfl rfl
    · exact hs
  | rehash _ hres => exact (Unghosted.ghostTrim _).settled (settled_rehash hres.sized).1
  | expandKey henv =>
    obtain ⟨hsized, _⟩ := CacheEnv.expandKeyCache_some henv hs.sized
    exact (Unghosted.ghostTrim _).settled ⟨hs.idle, hsized⟩
  | reset =>
    apply hs.of_env
    · rfl
    · unfold HotTable.reset
      dsimp only
      split <;> rfl
  | prepare => exact ⟨hs.idle, hs.sized⟩

/-- A step with a rehash leaves what the rehash leaves, without surplus ghosts. -/
theorem HotStep.rehash_of {m : Mem} {a : MemLabel} {h : HotTable} (ha : HotStep m a h)
    (hre : m.rehashes a ≠ none) :
    ∃ g, m.rehashes a = some g ∧ h = g.rehash.ghostTrim ∧ g.env.Sized := by
  cases ha with
  | same _ hno => exact absurd hno hre
  | rehash hg hres => exact ⟨_, hg, rfl, hres.sized⟩
  | promote => exact absurd rfl hre
  | raise => exact absurd rfl hre
  | verify => exact absurd rfl hre
  | cacheKey => exact absurd rfl hre
  | expandKey => exact absurd rfl hre
  | reset => exact absurd rfl hre
  | prepare => exact absurd rfl hre

/-- Every run leaves the table idle between two steps, with sizes that fit. -/
theorem reach_settled {ok : Mem → MemLabel → Prop} {env₀ : CacheEnv} {nrValidTpages : Nat} {m : Mem}
    (hsized : ∀ env, env₀.updateCaps = some env → env.Sized)
    (hr : (memMachine env₀ nrValidTpages).Reach ok m) : m.hot.Settled := by
  apply hr.invariant
  · intro s hs
    obtain ⟨env, henv, rfl⟩ := hs
    exact ⟨rfl, hsized env henv⟩
  · intro s s' a _ hs _ hn
    exact (hotStep hs hn).settled hs

end Mem

/-! ## Section 4: A small memory -/

/-- Eight cold pages, two hot ones and 64 bytes of keys. -/
def smallEnv₀ : CacheEnv := (cacheEnvInit true 8 2 64).getD shippedEnv

/-- The small configuration with its ghost caps. -/
def smallEnv : CacheEnv := smallEnv₀.updateCaps.getD shippedEnv

theorem smallEnv₀_init : cacheEnvInit true 8 2 64 = some smallEnv₀ := by decide +kernel

theorem smallEnv_caps : smallEnv₀.updateCaps = some smallEnv := by decide +kernel

/-- A run of the small memory reaches its end. -/
theorem small_reach {ok : Mem → MemLabel → Prop} {as : List MemLabel} {m : Mem}
    (hok : (memMachine smallEnv₀ 4).Along ok (.create smallEnv 4) as)
    (he : (memMachine smallEnv₀ 4).exec (.create smallEnv 4) as = some m) :
    (memMachine smallEnv₀ 4).Reach ok m := by
  have hinit : (memMachine smallEnv₀ 4).Reach ok (.create smallEnv 4) :=
    .init ⟨smallEnv, smallEnv_caps, rfl⟩
  exact hinit.exec hok he

theorem small_reachable {as : List MemLabel} {m : Mem}
    (he : (memMachine smallEnv₀ 4).exec (.create smallEnv 4) as = some m) :
    (memMachine smallEnv₀ 4).Reachable m := by
  have hinit : (memMachine smallEnv₀ 4).Reachable (.create smallEnv 4) :=
    .init ⟨smallEnv, smallEnv_caps, rfl⟩
  exact hinit.exec he

end AggreKV.HashKv
