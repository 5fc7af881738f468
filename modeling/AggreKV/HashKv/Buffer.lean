import AggreKV.HashKv.Ownership

/-! # The write buffer between and during flushes

    What every run keeps about the entries of the write buffer: distinct
    keys in order, values that fit a page, no grains before the
    assignment starts. -/

namespace AggreKV.HashKv

variable {cfg : Settings} {hs : Hashing}

theorem valLen_pos (key : Key) (bytes : Nat) : 0 < valLen key bytes := by
  unfold valLen
  dsimp only
  split <;> omega

theorem mem_wbInsert_value {key : Key} {bytes : Nat} {hp : HashParams} {wb : List WbEntry}
    {e : WbEntry} (h : e ∈ wbInsert key bytes hp wb) :
    e ∈ wb ∨ (e.key = key ∧ e.bytes = bytes ∧ (e.ppa = none ∨ ∃ x ∈ wb, e.ppa = x.ppa)) := by
  rw [wbInsert_eq] at h
  rcases mem_sortedInsert h with h | rfl | ⟨x, hx, hk, rfl⟩
  · exact Or.inl h
  · exact Or.inr ⟨rfl, rfl, Or.inl rfl⟩
  · exact Or.inr ⟨hk, rfl, Or.inr ⟨x, hx, rfl⟩⟩

theorem SameEntries.length_eq {wb wb' : List WbEntry} (h : SameEntries wb wb') :
    wb'.length = wb.length := by
  have hl := congrArg List.length h
  rwa [List.length_map, List.length_map] at hl

theorem SameEntries.exists_value {wb wb' : List WbEntry} (h : SameEntries wb wb') {e : WbEntry}
    (he : e ∈ wb') : ∃ x ∈ wb, x.key = e.key ∧ x.bytes = e.bytes := by
  have hmem : { e with ppa := none } ∈ wb.map fun e => { e with ppa := none } := by
    rw [← h]
    exact List.mem_map_of_mem he
  obtain ⟨x, hx, hxe⟩ := List.mem_map.mp hmem
  injection hxe with h1 h2 h3 h4 h5
  exact ⟨x, hx, h1, h2⟩

/-- Only an assignment or a mapping update has placed entries. -/
def Phase.Buffered (cfg : Settings) (wb : List WbEntry) : Phase → Prop
  | .idle => ∀ e ∈ wb, e.ppa = none
  | .getting _ => ∀ e ∈ wb, e.ppa = none
  | .assigning m => wb.length = cfg.maxWriteBuf ∧ valLen m.req.key m.req.bytes ≤ 4
  | .mapping m => valLen m.req.key m.req.bytes ≤ 4

structure Buffered (cfg : Settings) (f : Ftl) : Prop where
  sorted : WbSorted f.wb
  short : ∀ e ∈ f.wb, e.valLen ≤ 4
  phase : f.phase.Buffered cfg f.wb

namespace Buffered

variable {f f' : Ftl}

/-- The assignment only sets the grains of entries. -/
theorem sameEntries (h : Buffered cfg f) (hwb : SameEntries f.wb f'.wb)
    (hp : f'.phase.Buffered cfg f'.wb) : Buffered cfg f' := by
  refine ⟨hwb.sorted h.sorted, fun e he => ?_, hp⟩
  obtain ⟨x, hx, hk, hb⟩ := hwb.exists_value he
  have hlen := h.short x hx
  unfold WbEntry.valLen at hlen ⊢
  rwa [← hk, ← hb]

theorem insert {req : SetRequest} (hsorted : WbSorted f.wb) (hshort : ∀ e ∈ f.wb, e.valLen ≤ 4)
    (hunplaced : ∀ e ∈ f.wb, e.ppa = none) (hv : valLen req.key req.bytes ≤ 4) :
    Buffered cfg (f.insert hs req) := by
  refine ⟨hsorted.insert, fun e he => ?_, fun e he => ?_⟩
  · rcases mem_wbInsert_value he with he | ⟨hk, hb, -⟩
    · exact hshort e he
    · unfold WbEntry.valLen
      rwa [hk, hb]
  · rcases mem_wbInsert_value he with he | ⟨-, -, hnone | ⟨x, hx, hppa⟩⟩
    · exact hunplaced e he
    · exact hnone
    · rw [hppa]
      exact hunplaced x hx

theorem step {a : Label} (h : Buffered cfg f) (hstep : Step cfg hs f a f') : Buffered cfg f' := by
  have hphase := h.phase
  cases hstep with
  | getPass choice r s ex hp hd =>
    rw [hp] at hphase
    cases ex <;> exact ⟨h.sorted, h.short, hphase⟩
  | get key hp | resume i r hp hr =>
    rw [hp] at hphase
    exact ⟨h.sorted, h.short, hphase⟩
  | setFull key bytes hp hv hk hfull => exact ⟨h.sorted, h.short, hfull, hv⟩
  -- The one step that adds an entry, and only to a buffer that is not full.
  | setInsert key bytes hp hv hk hfull =>
    rw [hp] at hphase
    exact insert (f := { f with nextId := f.nextId + 1 }) h.sorted h.short hphase hv
  | endAssign m hp hdone =>
    rw [hp] at hphase
    exact ⟨h.sorted, h.short, hphase.2⟩
  | assignEntry m e s fl pga hp hdone hds he ha =>
    rw [hp] at hphase
    have hwb := SameEntries.setPpa f.wb e.key pga
    exact h.sameEntries hwb ⟨hwb.length_eq.trans hphase.1, hphase.2⟩
  | assignPage m ppa s bm wb hp hdone hds ha hb =>
    rw [hp] at hphase
    have hwb := SameEntries.placeEntries hb
    exact h.sameEntries hwb ⟨hwb.length_eq.trans hphase.1, hphase.2⟩
  | pickRetry i m e hp | pickMaster m e master hp | wbAgain choice m e s e' hp
  | wbParked choice m e s e' hp | wbUpdate choice m e s e' ppa hp
  | wbDirectUpdate choice m e s e' ppa hp =>
    rw [hp] at hphase
    exact ⟨h.sorted, h.short, hphase⟩
  | flush m ssd hp =>
    rw [hp] at hphase
    exact insert (f := f.emptied ssd) List.Pairwise.nil (fun _ he => by cases he)
      (fun _ he => by cases he) hphase
  | promote | rehashBegin | rehashTick => exact ⟨h.sorted, h.short, hphase⟩

end Buffered

theorem create_buffered {garbage : Nat → Key} {f : Ftl} (h : Ftl.create cfg garbage = some f) :
    Buffered cfg f := by
  obtain ⟨s, _, rfl⟩ := Option.map_eq_some_iff.mp h
  exact ⟨List.Pairwise.nil, (fun _ he => by cases he), fun _ he => by cases he⟩

/-- Every run keeps the write buffer in order. -/
theorem reach_buffered {ok : Ftl → Label → Prop} {f : Ftl} (h : (machine cfg hs).Reach ok f) :
    Buffered cfg f :=
  h.invariant (fun _ ⟨_, hi⟩ => create_buffered hi) fun _ _ _ _ ih _ hn => ih.step (.of_next hn)

/-- The entry has the value of `x` at the same grains. -/
structure WbEntry.SameValue (x e : WbEntry) : Prop where
  key : e.key = x.key
  bytes : e.bytes = x.bytes
  ppa : e.ppa = x.ppa

theorem WbEntry.SameValue.refl (e : WbEntry) : e.SameValue e := ⟨rfl, rfl, rfl⟩

def WbExit.entry : WbExit → WbEntry
  | .again e => e
  | .parked e => e
  | .update e => e
  | .directUpdate e => e

/-- A pass changes the hash parameters and the jump of an entry only. -/
theorem WbPath.sameValue {realKeys : Nat → Key} {ht : DHtable} {s₀ s : Store} {e : WbEntry}
    {choice : Rebalance} {ex : WbExit} (h : WbPath cfg realKeys ht s₀ e choice s ex) :
    e.SameValue ex.entry := by
  cases h <;> exact ⟨rfl, rfl, rfl⟩

/-- The entries of a mapping update are those of the write buffer. -/
def Drawn (f : Ftl) : Prop :=
  ∀ m, f.phase = .mapping m → ∀ e ∈ m.pending, ∃ x ∈ f.wb, x.SameValue e

theorem Drawn.of_not_mapping {f : Ftl} (h : ∀ m, f.phase ≠ .mapping m) : Drawn f :=
  fun m hp => absurd hp (h m)

theorem Drawn.mapping {f f' : Ftl} {m m' : MapUpdate} (h : Drawn f) (hp : f.phase = .mapping m)
    (hwb : f'.wb = f.wb) (hp' : f'.phase = .mapping m')
    (hsub : ∀ e ∈ m'.pending, ∃ x ∈ m.pending, x.SameValue e) : Drawn f' := by
  intro m'' hm e he
  rw [hp', Phase.mapping.injEq] at hm
  subst hm
  obtain ⟨x, hx, hxe⟩ := hsub e he
  obtain ⟨y, hy, hyx⟩ := h m hp x hx
  exact ⟨y, hwb ▸ hy, ⟨hxe.key.trans hyx.key, hxe.bytes.trans hyx.bytes, hxe.ppa.trans hyx.ppa⟩⟩

theorem Drawn.step {f f' : Ftl} {a : Label} (h : Drawn f) (hstep : Step cfg hs f a f') :
    Drawn f' := by
  have hid : ∀ {m m' : MapUpdate}, (∀ e ∈ m'.pending, e ∈ m.pending) →
      ∀ e ∈ m'.pending, ∃ x ∈ m.pending, x.SameValue e :=
    fun hsub e he => ⟨e, hsub e he, .refl e⟩
  cases hstep with
  -- The update starts with the entries of the buffer.
  | endAssign m hp hdone =>
    intro m' hm e he
    cases hm
    have hmem : e ∈ f.wb := by simpa [MapUpdate.pending] using he
    exact ⟨e, hmem, .refl e⟩
  | pickRetry i m e hp hc hr hu =>
    refine h.mapping hp rfl rfl (hid fun x hx => ?_)
    simp only [MapUpdate.pending, hc, Option.toList_some, Option.toList_none, List.nil_append,
      List.cons_append, List.mem_cons, List.mem_append] at hx ⊢
    rcases hx with rfl | hx | hx
    · exact Or.inl (List.mem_of_getElem? hr)
    · exact Or.inl (List.mem_of_mem_eraseIdx hx)
    · exact Or.inr hx
  | pickMaster m e master hp hc hm hu =>
    refine h.mapping hp rfl rfl (hid fun x hx => ?_)
    simp only [MapUpdate.pending, hc, hm, Option.toList_some, Option.toList_none, List.nil_append,
      List.cons_append, List.mem_cons, List.mem_append] at hx ⊢
    rcases hx with rfl | hx | hx
    · exact Or.inr (Or.inl rfl)
    · exact Or.inl hx
    · exact Or.inr (Or.inr hx)
  -- The entry is put back with another address, its value stays.
  | wbAgain choice m e s e' hp hc hw | wbParked choice m e s e' hp hc hw =>
    have hv := (WbPath.of_pass hw).2.sameValue
    refine h.mapping hp rfl rfl fun x hx => ?_
    simp only [MapUpdate.pending, hc, Option.toList_some, Option.toList_none, List.nil_append,
      List.cons_append, List.mem_cons, List.mem_append, List.append_assoc] at hx ⊢
    rcases hx with hx | hx | hx
    all_goals first
      | exact ⟨e, Or.inl rfl, hx ▸ hv⟩
      | exact ⟨x, Or.inr (Or.inl hx), .refl x⟩
      | exact ⟨x, Or.inr (Or.inr hx), .refl x⟩
  | wbUpdate choice m e s e' ppa hp hc | wbDirectUpdate choice m e s e' ppa hp hc =>
    refine h.mapping hp rfl rfl (hid fun x hx => ?_)
    simp only [MapUpdate.pending, hc, Option.toList_some, Option.toList_none, List.nil_append,
      List.cons_append, List.mem_cons, List.mem_append] at hx ⊢
    exact Or.inr hx
  | getPass choice r s ex hp hd =>
    refine .of_not_mapping fun m => ?_
    cases ex <;> simp [Ftl.afterGet]
  | promote page hp | rehashBegin hp | rehashTick hp =>
    refine .of_not_mapping fun m hm => ?_
    rw [hp] at hm
    cases hm
  | get | resume | setFull | setInsert | assignEntry | assignPage | flush =>
    exact .of_not_mapping fun m hm => by cases hm

theorem reach_drawn {ok : Ftl → Label → Prop} {f : Ftl} (h : (machine cfg hs).Reach ok f) :
    Drawn f := by
  refine h.invariant (fun f ⟨_, hi⟩ => ?_) fun _ _ _ _ ih _ hn => ih.step (.of_next hn)
  obtain ⟨s, _, rfl⟩ := Option.map_eq_some_iff.mp hi
  exact .of_not_mapping fun m hm => by cases hm

end AggreKV.HashKv
