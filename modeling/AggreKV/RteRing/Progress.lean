import AggreKV.RteRing.Fifo
import Mathlib.Logic.Relation

/-! # Slots, progress and counting

    * `slots_exclusive`: no slot is accessed by two threads, and no slot of
      an element in the queue is written.
    * `drain_reservations`: the threads that hold reservations can always finish on their
      own.
    * `counted_taken`: elements that a lone consumer has counted are still
      there when it dequeues. -/

namespace AggreKV.RteRing

variable {α : Type*} {s s' : Sys α} {g g' : Ghost α} {t u : Nat}

/-! ## Section 1: Exclusive slots -/

/-- The slots of a copying thread. -/
theorem Sound.mem_copyPtrs (hs : Sound s g) {op : Op α} {old n : Nat} {moved : List α}
    (hpc : s.pc t = .copy op old n moved) {i : Nat} :
    i ∈ copyPtrs s.ring old n ↔ ∃ j, j < n ∧ (g.saw t + j) % s.ring.size = i := by
  have hcopy : Copying s g t op old n moved := hs.local_at hpc
  have hle := hs.stretch_le (held_at (g := g) hpc rfl)
  have hcap := hs.form.capacity_lt
  rw [hcopy.old_eq, copyPtrs_eq hs.form (by omega)]
  simp only [List.mem_map, List.mem_range]

/-- The positions of two threads are distinct. -/
theorem Sound.positions_ne (hs : Sound s g) (hne : t ≠ u) {d e : Side} {a n b m i j : Nat}
    (ht : held s g d t = some (a, n)) (hu : held s g e u = some (b, m)) (hi : i < n) (hj : j < m) :
    a + i ≠ b + j := by
  intro heq
  have hwt := (hs.tiles d).within t a n ht
  have hwu := (hs.tiles e).within u b m hu
  have hahead := hs.ahead
  by_cases hde : d = e
  · rw [← hde] at hu
    exact hne ((hs.tiles d).unique ht hu (Nat.le_add_right a i) (by omega) (by omega) (by omega))
  · -- consumers are behind the producers
    cases d with
    | prod =>
      cases e with
      | prod => exact hde rfl
      | cons => omega
    | cons =>
      cases e with
      | prod => omega
      | cons => exact hde rfl

/-- No two threads access the same slot, the elements in the queue are in
    their slots, and nobody touches these. -/
theorem slots_exclusive {x : Sys α × Ghost α} (h : (traced α).Reach Fair x) :
    (∀ t u op op' old old' n n' moved moved', t ≠ u → x.1.pc t = .copy op old n moved →
      x.1.pc u = .copy op' old' n' moved' →
      List.Disjoint (copyPtrs x.1.ring old n) (copyPtrs x.1.ring old' n')) ∧
    ∀ i v, x.2.queue[i]? = some v →
      x.1.slots ((x.2.head .cons + i) % x.1.ring.size) = v ∧
      ∀ t op old n moved, x.1.pc t = .copy op old n moved →
        (x.2.head .cons + i) % x.1.ring.size ∉ copyPtrs x.1.ring old n := by
  obtain ⟨s, g⟩ := x
  have hs : Sound s g := reach_sound h
  constructor
  · intro t u op op' old old' n n' moved moved' hne ht hu i hi hi'
    have ht : s.pc t = .copy op old n moved := ht
    have hu : s.pc u = .copy op' old' n' moved' := hu
    obtain ⟨j, hj, hij⟩ := (hs.mem_copyPtrs ht).mp hi
    obtain ⟨k, hk, hik⟩ := (hs.mem_copyPtrs hu).mp hi'
    have hheldt : held s g op.side t = some (g.saw t, n) := held_at ht rfl
    have hheldu : held s g op'.side u = some (g.saw u, n') := held_at hu rfl
    have huset := hs.held_in_use hheldt
    have huseu := hs.held_in_use hheldu
    apply hs.slot_ne (p := g.saw t + j) (q := g.saw u + k) (by omega) (by omega)
      (by omega) (by omega)
    · exact hs.positions_ne hne hheldt hheldu hj hk
    · exact hij.trans hik.symm
  · intro i v hv
    have hlt : i < g.queue.length := (List.getElem?_eq_some_iff.mp hv).1
    have hlen := hs.queue_length
    have hcons := (hs.tiles .cons).le
    have hprod := (hs.tiles .prod).le
    constructor
    · obtain ⟨v', hv', hlog⟩ := hs.queue_get hlt
      have hslot := hs.filled (g.head .cons + i) (by omega) (by omega)
      rw [hlog, ← hv'] at hslot
      have hv : g.queue[i]? = some v := hv
      rw [hv] at hslot
      exact (Option.some.inj hslot).symm
    · intro t op old n moved hpc hmem
      have hpc : s.pc t = .copy op old n moved := hpc
      obtain ⟨j, hj, hij⟩ := (hs.mem_copyPtrs hpc).mp hmem
      have hheld : held s g op.side t = some (g.saw t, n) := held_at hpc rfl
      have hw := (hs.tiles op.side).within t _ n hheld
      have huse := hs.held_in_use hheld
      -- producers write behind the queue, consumers read before it
      have hout : g.saw t + j ≠ g.head .cons + i := by
        cases hd : op.side with
        | prod =>
          rw [hd] at hw
          omega
        | cons =>
          rw [hd] at hw
          omega
      exact hs.slot_ne (by omega) (by omega) (by omega) (by omega) hout hij

/-- Two producers and a consumer in the middle of copying. -/
def copying : List (Act Nat) :=
  [.call 0 (ringEnqueue [5])] ++ List.replicate 7 (.run 0) ++
    [.call 1 (ringEnqueue [7]), .run 1, .run 1, .run 1, .call 2 (ringEnqueue [9]), .run 2, .run 2,
      .run 2, .call 3 (ringDequeue 1), .run 3, .run 3, .run 3]

/-- A producer and a consumer copy at the same time, to and from different slots. -/
theorem slots_exclusive_copying : ∃ x, (traced Nat).exec (smallStart .mpMc) copying = some x ∧
    x.1.pc 1 = .copy (ringEnqueue [7]) 1 1 [] ∧ x.1.pc 3 = .copy (ringDequeue 1) 0 1 [] ∧
    (∀ t u op op' old old' n n' moved moved', t ≠ u → x.1.pc t = .copy op old n moved →
      x.1.pc u = .copy op' old' n' moved' →
      List.Disjoint (copyPtrs x.1.ring old n) (copyPtrs x.1.ring old' n')) ∧
    ∀ i v, x.2.queue[i]? = some v →
      x.1.slots ((x.2.head .cons + i) % x.1.ring.size) = v ∧
      ∀ t op old n moved, x.1.pc t = .copy op old n moved →
        (x.2.head .cons + i) % x.1.ring.size ∉ copyPtrs x.1.ring old n := by
  have hrun : ((traced Nat).exec (smallStart .mpMc) copying).map (fun x => (x.1.pc 1, x.1.pc 3)) =
      some (.copy (ringEnqueue [7]) 1 1 [], .copy (ringDequeue 1) 0 1 []) := by decide +kernel
  obtain ⟨x, hx, hpcs⟩ := Option.map_eq_some_iff.mp hrun
  have hreach : (traced Nat).Reach Fair x := small_reach (by decide +kernel) hx
  exact ⟨x, hx, congrArg Prod.fst hpcs, congrArg Prod.snd hpcs, slots_exclusive hreach⟩

/-! ## Section 2: Finishing -/

/-- One step of a thread that is in a call. -/
def RunStep (x y : Sys α × Ghost α) : Prop :=
  ∃ t, Fair x (.run t) ∧ (traced α).next x (.run t) = some y

/-- Steps of threads that are in a call. -/
abbrev Runs (x y : Sys α × Ghost α) : Prop := Relation.ReflTransGen RunStep x y

theorem Runs.reach {x y : Sys α × Ghost α} (hxy : Runs x y) (h : (traced α).Reach Fair x) :
    (traced α).Reach Fair y := by
  induction hxy with
  | refl => exact h
  | tail _ hstep ih =>
    obtain ⟨t, hfair, hnext⟩ := hstep
    exact .step _ ih hfair hnext

theorem runStep_of {x : Sys α × Ghost α} (hfair : Fair x (.run t)) (hrun : x.1.run t = some s') :
    RunStep x (s', record x.1 x.2 (.run t)) := by
  refine ⟨t, hfair, ?_⟩
  show (x.1.run t).map _ = _
  rw [hrun]
  rfl

/-- A copying thread can always copy the next pointer. -/
theorem copy_one (hs : Sound s g) {op : Op α} {old n : Nat} {moved : List α}
    (hpc : s.pc t = .copy op old n moved) (hlt : moved.length < n) :
    ∃ s' v, s'.pc t = .copy op old n (moved ++ [v]) ∧ RunStep (s, g) (s', g) := by
  have hcopy : Copying s g t op old n moved := hs.local_at hpc
  have hslot := hs.next_slot hpc
  rw [if_pos hlt] at hslot
  have hfair : Fair (s, g) (.run t) := by simp [Fair, hpc]
  have hrecord : record s g (.run t) = g := by simp only [record, hpc]
  cases op with
  | enqueue objs b =>
    obtain ⟨v, hv, -⟩ := hcopy.carry moved.length hlt
    have hv : objs[moved.length]? = some v := hv
    have hrun : s.run t = some { s.goto t (.copy (.enqueue objs b) old n (moved ++ [v])) with
        slots := Function.update s.slots ((g.saw t + moved.length) % s.ring.size) v } := by
      simp only [Sys.run, hpc, hslot, hv, Option.map_some]
    have hstep := runStep_of (x := (s, g)) hfair hrun
    rw [hrecord] at hstep
    refine ⟨_, v, ?_, hstep⟩
    exact Function.update_self ..
  | dequeue count b =>
    have hrun : s.run t = some (s.goto t (.copy (.dequeue count b) old n
        (moved ++ [s.slots ((g.saw t + moved.length) % s.ring.size)]))) := by
      simp only [Sys.run, hpc, hslot]
    have hstep := runStep_of (x := (s, g)) hfair hrun
    rw [hrecord] at hstep
    exact ⟨_, _, goto_pc .., hstep⟩

/-- It comes to the wait for its turn. -/
theorem copy_all {k : Nat} : ∀ {s : Sys α} {moved : List α} {op : Op α} {old n : Nat},
    (traced α).Reach Fair (s, g) → s.pc t = .copy op old n moved → moved.length + k = n →
    ∃ s' moved', s'.pc t = .wait op old n moved' ∧ Runs (s, g) (s', g) := by
  induction k with
  | zero =>
    intro s moved op old n h hpc hk
    -- Nothing is left to copy: the thread goes on to wait for its turn.
    have hslot := (reach_sound h).next_slot hpc
    rw [if_neg (by omega)] at hslot
    have hfair : Fair (s, g) (.run t) := by simp [Fair, hpc]
    have hrecord : record s g (.run t) = g := by simp only [record, hpc]
    have hrun : s.run t = some (s.goto t (.wait op old n moved)) := by
      simp only [Sys.run, hpc, hslot]
    have hstep := runStep_of (x := (s, g)) hfair hrun
    rw [hrecord] at hstep
    exact ⟨_, moved, goto_pc .., .single hstep⟩
  | succ k ih =>
    intro s moved op old n h hpc hk
    obtain ⟨s₁, v, hpc₁, hstep⟩ := copy_one (reach_sound h) hpc (by omega)
    have hreach₁ := Runs.reach (.single hstep) h
    obtain ⟨s', moved', hpc', hruns⟩ := ih hreach₁ hpc₁ (by
      rw [List.length_append, List.length_singleton]
      omega)
    exact ⟨s', moved', hpc', .head hstep hruns⟩

/-- The holder of the tail stores it. -/
theorem publish_turn {x : Sys α × Ghost α} {op : Op α} {old n : Nat} {moved : List α}
    (hpc : x.1.pc t = .publish op old n moved) :
    ∃ y, Runs x y ∧ y.2.head = x.2.head ∧
      ∀ d, y.2.tail d = if d = op.side then x.2.tail d + n else x.2.tail d := by
  obtain ⟨s, g⟩ := x
  have hpc : s.pc t = .publish op old n moved := hpc
  have hfair : Fair (s, g) (.run t) := by simp [Fair, hpc]
  have hrecord : record s g (.run t) = g.publish n moved op := by simp only [record, hpc]
  have hrun : s.run t = some { s.goto t (op.result n moved) with
      ring := s.ring.setTail (u32 (old + n)) op.side } := by
    simp only [Sys.run, hpc]
  have hstep := runStep_of (x := (s, g)) hfair hrun
  rw [hrecord] at hstep
  exact ⟨_, .single hstep, publish_head .., fun d => publish_tail ..⟩

/-- Its wait is over at once. -/
theorem wait_turn (hs : Sound s g) {op : Op α} {old n : Nat} {moved : List α}
    (hpc : s.pc t = .wait op old n moved) (hturn : g.saw t = g.tail op.side) :
    ∃ y, Runs (s, g) y ∧ y.2.head = g.head ∧
      ∀ d, y.2.tail d = if d = op.side then g.tail d + n else g.tail d := by
  obtain ⟨hcopy, -⟩ : Copying s g t op old n moved ∧ moved.length = n := hs.local_at hpc
  have hfair : Fair (s, g) (.run t) := by simp [Fair, hpc]
  have hrecord : record s g (.run t) = g := by simp only [record, hpc]
  have htail : (s.ring.ht op.side).tail = old := by
    rw [hs.tail_eq, hcopy.old_eq, hturn]
  have hrun : s.run t = some (s.goto t (.publish op old n moved)) := by
    simp only [Sys.run, hpc, htail, beq_self_eq_true, Bool.or_true, if_true]
  have hstep := runStep_of (x := (s, g)) hfair hrun
  rw [hrecord] at hstep
  obtain ⟨y, hruns, hhead, htail'⟩ := publish_turn (x := (s.goto t (.publish op old n moved), g))
    (t := t) (goto_pc ..)
  exact ⟨y, .head hstep hruns, hhead, htail'⟩

/-- The thread that holds the tail can finish on its own. -/
theorem finish_turn {x : Sys α × Ghost α} (h : (traced α).Reach Fair x) {d : Side} {n : Nat}
    (hheld : held x.1 x.2 d t = some (x.2.tail d, n)) :
    ∃ y, Runs x y ∧ y.2.head = x.2.head ∧
      ∀ e, y.2.tail e = if e = d then x.2.tail e + n else x.2.tail e := by
  obtain ⟨s, g⟩ := x
  have hs : Sound s g := reach_sound h
  have hheld : held s g d t = some (g.tail d, n) := hheld
  unfold held Pc.held at hheld
  -- A thread that holds the stretch at the tail has reserved and not published.
  cases hpc : s.pc t with
  | copy op old m moved =>
    simp only [hpc, Pc.stretch] at hheld
    split at hheld
    · rename_i hd
      obtain ⟨hsaw, rfl⟩ := Prod.mk.inj (Option.some.inj hheld)
      have hcopy : Copying s g t op old m moved := hs.local_at hpc
      have hlen := hcopy.len
      obtain ⟨s₁, moved', hpc₁, hruns₁⟩ := copy_all (k := m - moved.length) h hpc (by omega)
      -- First the elements, then the wait, which ends as it is this thread's turn.
      have hs₁ : Sound s₁ g := reach_sound (hruns₁.reach h)
      rw [← hd] at hsaw ⊢
      obtain ⟨y, hruns, hhead, htail⟩ := wait_turn hs₁ hpc₁ hsaw
      exact ⟨y, hruns₁.trans hruns, hhead, htail⟩
    · exact absurd hheld (by simp)
  | wait op old m moved =>
    simp only [hpc, Pc.stretch] at hheld
    split at hheld
    · rename_i hd
      obtain ⟨hsaw, rfl⟩ := Prod.mk.inj (Option.some.inj hheld)
      rw [← hd] at hsaw ⊢
      exact wait_turn hs hpc hsaw
    · exact absurd hheld (by simp)
  | publish op old m moved =>
    simp only [hpc, Pc.stretch] at hheld
    split at hheld
    · rename_i hd
      obtain ⟨-, rfl⟩ := Prod.mk.inj (Option.some.inj hheld)
      rw [← hd]
      exact publish_turn (x := (s, g)) hpc
    · exact absurd hheld (by simp)
  | _ => simp [hpc, Pc.stretch] at hheld

/-- From every state, the threads in the middle of a call can run until
    every reservation is published, with no new call and no head moved: no
    thread waits for ever for its turn. -/
theorem drain_reservations {x : Sys α × Ghost α} (h : (traced α).Reach Fair x) :
    ∃ y, Runs x y ∧ y.2.head = x.2.head ∧ y.2.tail = y.2.head ∧
      ∀ t, (y.1.pc t).stretch = none := by
  -- by induction on the number of reserved positions
  generalize hm : (x.2.head .prod - x.2.tail .prod) + (x.2.head .cons - x.2.tail .cons) = m
  induction m using Nat.strong_induction_on generalizing x with
  | _ m ih =>
    have hs := reach_sound h
    by_cases hall : ∀ d, x.2.tail d = x.2.head d
    · refine ⟨x, .refl, rfl, funext hall, ?_⟩
      intro t
      cases hpc : (x.1.pc t).stretch with
      | none => rfl
      | some p =>
        have hheld : held x.1 x.2 p.1 t = some (x.2.saw t, p.2) := held_at rfl hpc
        have hw := (hs.tiles p.1).within t _ _ hheld
        have heq := hall p.1
        omega
    · obtain ⟨d, hd⟩ := not_forall.mp hall
      have hle := (hs.tiles d).le
      obtain ⟨t, n, hheld⟩ := (hs.tiles d).first (by omega)
      have hw := (hs.tiles d).within t _ n hheld
      obtain ⟨y, hruns, hhead, htail⟩ := finish_turn h hheld
      have hprod := htail .prod
      have hcons := htail .cons
      have hless : (y.2.head .prod - y.2.tail .prod) + (y.2.head .cons - y.2.tail .cons) < m := by
        rw [hprod, hcons, hhead]
        cases d with
        | prod =>
          simp only [if_true, reduceCtorEq, if_false]
          omega
        | cons =>
          simp only [if_true, reduceCtorEq, if_false]
          omega
      obtain ⟨z, hruns', hhead', hdone⟩ := ih _ hless (hruns.reach h) rfl
      exact ⟨z, hruns.trans hruns', hhead'.trans hhead, hdone⟩

/-- From the middle of copying, the threads can finish without moving a head. -/
theorem drain_reservations_copying : ∃ x, (traced Nat).exec (smallStart .mpMc) copying = some x ∧
    x.1.pc 1 = .copy (ringEnqueue [7]) 1 1 [] ∧
    ∃ y, Runs x y ∧ y.2.head = x.2.head ∧ y.2.tail = y.2.head ∧
      ∀ t, (y.1.pc t).stretch = none := by
  have hrun : ((traced Nat).exec (smallStart .mpMc) copying).map (fun x => x.1.pc 1) =
      some (.copy (ringEnqueue [7]) 1 1 []) := by decide +kernel
  obtain ⟨x, hx, hpc⟩ := Option.map_eq_some_iff.mp hrun
  have hreach : (traced Nat).Reach Fair x := small_reach (by decide +kernel) hx
  exact ⟨x, hx, hpc, drain_reservations hreach⟩

/-! ## Section 3: Counting -/

/-- Any step of the threads. -/
def FairStep (x y : Sys α × Ghost α) : Prop :=
  ∃ a, Fair x a ∧ (traced α).next x a = some y

/-- Steps of any threads. -/
abbrev Steps (x y : Sys α × Ghost α) : Prop := Relation.ReflTransGen FairStep x y

theorem Steps.reach {x y : Sys α × Ghost α} (hxy : Steps x y) (h : (traced α).Reach Fair x) :
    (traced α).Reach Fair y := by
  induction hxy with
  | refl => exact h
  | tail _ hstep ih =>
    obtain ⟨a, hfair, hnext⟩ := hstep
    exact .step _ ih hfair hnext

/-- Tails only grow. -/
theorem record_tail_le (s : Sys α) (g : Ghost α) (a : Act α) (d : Side) :
    g.tail d ≤ (record s g a).tail d := by
  cases a with
  | call t op => exact Nat.le_refl _
  | count t => exact Nat.le_refl _
  | run t =>
    cases hpc : s.pc t with
    | tail op old =>
      simp only [record, hpc]
      split <;> exact Nat.le_refl _
    | move op old n =>
      simp only [record, hpc]
      split
      · rw [reserve_tail]
      · exact Nat.le_refl _
    -- Only a publication moves a tail, and forward.
    | publish op old n moved =>
      simp only [record, hpc]
      rw [publish_tail]
      split <;> omega
    | head op =>
      simp only [record, hpc]
      exact Nat.le_refl _
    | countProd =>
      simp only [record, hpc]
      exact Nat.le_refl _
    | _ => simp only [record, hpc, Nat.le_refl]

theorem Steps.tail_le {x y : Sys α × Ghost α} (hxy : Steps x y) (d : Side) :
    x.2.tail d ≤ y.2.tail d := by
  induction hxy with
  | refl => exact Nat.le_refl _
  | @tail y z _ hstep ih =>
    obtain ⟨a, -, hnext⟩ := hstep
    obtain ⟨s', -, rfl⟩ := Option.map_eq_some_iff.mp hnext
    exact Nat.le_trans ih (record_tail_le y.1 y.2 a d)

theorem Steps.shape {x y : Sys α × Ghost α} (hxy : Steps x y) :
    y.1.ring.capacity = x.1.ring.capacity ∧ y.1.ring.size = x.1.ring.size ∧
      ∀ d, (y.1.ring.ht d).single = (x.1.ring.ht d).single := by
  induction hxy with
  | refl => exact ⟨rfl, rfl, fun _ => rfl⟩
  | tail _ hstep ih =>
    obtain ⟨a, -, hnext⟩ := hstep
    obtain ⟨s', hs', rfl⟩ := Option.map_eq_some_iff.mp hnext
    obtain ⟨hcap, hsize, hsingle⟩ := next_shape hs'
    exact ⟨hcap.trans ih.1, hsize.trans ih.2.1, fun d => (hsingle d).trans (ih.2.2 d)⟩

/-- A lone consumer that counts finds what was in the queue when it loaded
    the producers' tail. -/
theorem Sound.count_eq (hs : Sound s g) {prodTail : Nat} (hpc : s.pc t = .countCons prodTail)
    (hsingle : s.ring.cons.single = true) :
    s.ring.count prodTail s.ring.cons.tail = g.saw t - g.head .cons := by
  have hcount : Counting s g t prodTail := hs.local_at hpc
  have hbusy : s.Busy t .cons := by
    unfold Sys.Busy
    rw [hpc]
    rfl
  -- nobody else is on this side, and `t` holds nothing
  have hnone : ∀ u, held s g .cons u = none := by
    intro u
    cases hu : held s g .cons u with
    | none => rfl
    | some p =>
      have hut := hs.sole .cons hsingle u t (busy_of_held hu) hbusy
      rw [hut, held_of_stretch (by rw [hpc]; rfl)] at hu
      exact absurd hu (by simp)
  have hempty := (hs.tiles .cons).eq_of_none hnone
  have hlow := hcount.sole hsingle
  have hhigh := hcount.le_tail
  have hprod := (hs.tiles .prod).le
  have hfits := hs.fits
  have hcap := hs.form.capacity_lt
  have hsize := hs.form.size_le
  have htail : s.ring.cons.tail = u32 (g.tail .cons) := hs.tail_eq .cons
  obtain ⟨k, -, hpow⟩ := hs.form.size_pow
  unfold Ring.count
  simp only []
  rw [hcount.tail_eq, htail, sub32_u32 hlow (by omega), hs.form.mask_eq, hpow,
    Nat.and_two_pow_sub_one_eq_mod, ← hpow, Nat.mod_eq_of_lt (by omega), if_neg (by omega), hempty]

/-- When the only consumer has counted `n > 0` elements and has taken none
    since, its next dequeue gets as many of them as it asks for, whatever
    the producers have done in between. -/
theorem counted_taken {x y : Sys α × Ghost α} (h : (traced α).Reach Fair x) {c prodTail : Nat}
    (hpc : x.1.pc c = .countCons prodTail) (hsingle : x.1.ring.cons.single = true)
    (hcount : 0 < x.1.ring.count prodTail x.1.ring.cons.tail) (hxy : Steps x y)
    (hkeep : y.2.head .cons = x.2.head .cons) {k old : Nat} (hk : 0 < u32 k)
    (hdeq : y.1.pc c = .tail (ringDequeue k) old) (hfair : Fair y (.run c)) :
    ∃ m, min (x.1.ring.count prodTail x.1.ring.cons.tail) (u32 k) ≤ m ∧ 0 < m ∧
      y.1.run c = some (y.1.goto c (.move (ringDequeue k) old m)) := by
  obtain ⟨s, g⟩ := x
  obtain ⟨s', g'⟩ := y
  have hs : Sound s g := reach_sound h
  have hs' : Sound s' g' := reach_sound (hxy.reach h)
  have hdeq : s'.pc c = .tail (ringDequeue k) old := hdeq
  have hrun : ∀ n, n = burst .queueVariable (u32 k) (s'.ring.room .cons s'.ring.prod.tail old) →
      n ≠ 0 → s'.run c = some (s'.goto c (.move (ringDequeue k) old n)) := by
    intro n hn hne
    have hn : n = burst (ringDequeue (α := α) k).behavior (ringDequeue (α := α) k).max
        (s'.ring.room (ringDequeue (α := α) k).side
          (s'.ring.ht (ringDequeue (α := α) k).side.other).tail old) := hn
    simp only [Sys.run, hdeq]
    rw [← hn, if_neg hne]
  simp only [Fair, hdeq] at hfair
  have hseen : Seen s' g' c .cons old := hs'.local_at hdeq
  have hsingle' : (s'.ring.ht .cons).single = true := by
    rw [(hxy.shape).2.2 .cons]
    exact hsingle
  have hsaw : g'.saw c = g'.head .cons := hseen.sole hsingle'
  -- What the tail of the producers shows now is no less than when it was counted.
  have hroom : s'.ring.room .cons s'.ring.prod.tail old = g'.tail .prod - g'.saw c :=
    hs'.room_eq hseen hfair
  have hmono : g.tail .prod ≤ g'.tail .prod := hxy.tail_le .prod
  have hkeep : g'.head .cons = g.head .cons := hkeep
  have hle := (hs.local_at hpc : Counting s g c prodTail).le_tail
  have heq : s.ring.count prodTail s.ring.cons.tail = g.saw c - g.head .cons :=
    hs.count_eq hpc hsingle
  show ∃ m, min (s.ring.count prodTail s.ring.cons.tail) (u32 k) ≤ m ∧ 0 < m ∧ _
  have hcount : 0 < s.ring.count prodTail s.ring.cons.tail := hcount
  rw [heq] at hcount ⊢
  have hburst : burst .queueVariable (u32 k) (s'.ring.room .cons s'.ring.prod.tail old) =
      min (g'.tail .prod - g'.saw c) (u32 k) := by
    rw [hroom]
    unfold burst
    split
    · show g'.tail .prod - g'.saw c = _
      exact (Nat.min_eq_left (by omega)).symm
    · exact (Nat.min_eq_right (by omega)).symm
  refine ⟨min (g'.tail .prod - g'.saw c) (u32 k), by omega, by omega, ?_⟩
  apply hrun _ hburst.symm
  omega

/-- The consumer counts two elements; another one arrives before it
    dequeues five. -/
def polled : List (Act Nat) :=
  [.call 1 (ringEnqueue [7, 8])] ++ List.replicate 8 (.run 1) ++ [.count 2, .run 2]

/-- What follows. -/
def arriving : List (Act Nat) :=
  [.call 1 (ringEnqueue [9]), .run 2] ++ List.replicate 7 (.run 1) ++
    [.call 2 (ringDequeue 5), .run 2]

theorem steps_of_exec {as : List (Act α)} : ∀ {x y : Sys α × Ghost α},
    (traced α).Along Fair x as → (traced α).exec x as = some y → Steps x y := by
  induction as with
  | nil =>
    intro x y _ he
    rw [← Option.some.inj he]
  | cons a as ih =>
    intro x y hal he
    obtain ⟨z, hz, he⟩ := Option.bind_eq_some_iff.mp he
    exact .head ⟨a, hal.1, hz⟩ (ih (hal.2 z hz) he)

/-- Two elements are counted, another producer publishes more, and the consumer still
    takes what it counted. -/
theorem counted_taken_arriving : ∃ x y, (traced Nat).exec (smallStart .mpSc) polled = some x ∧
    (traced Nat).exec x arriving = some y ∧
    x.1.ring.count 2 x.1.ring.cons.tail = 2 ∧
    ∃ m, min (x.1.ring.count 2 x.1.ring.cons.tail) (u32 5) ≤ m ∧ 0 < m ∧
      y.1.run 2 = some (y.1.goto 2 (.move (ringDequeue 5) 0 m)) := by
  have hrun : (((traced Nat).exec (smallStart .mpSc) polled).bind fun x =>
      ((traced Nat).exec x arriving).map fun y =>
        ((x.1.pc 2, x.1.ring.cons.single, x.1.ring.count 2 x.1.ring.cons.tail),
          (y.1.pc 2, y.2.head .cons == x.2.head .cons,
            decide (y.2.head .cons + y.1.ring.capacity < y.2.saw 2 + 2 ^ 32)))) =
      some ((.countCons 2, true, 2), (.tail (ringDequeue 5) 0, true, true)) := by decide +kernel
  obtain ⟨x, hx, hmap⟩ := Option.bind_eq_some_iff.mp hrun
  obtain ⟨y, hy, hsome⟩ := Option.map_eq_some_iff.mp hmap
  obtain ⟨hfirst, hsecond⟩ := Prod.mk.inj hsome
  obtain ⟨hpc, hrest⟩ := Prod.mk.inj hfirst
  obtain ⟨hsingle, hcount⟩ := Prod.mk.inj hrest
  obtain ⟨hdeq, hrest'⟩ := Prod.mk.inj hsecond
  obtain ⟨hkeep, htime⟩ := Prod.mk.inj hrest'
  have hal : (traced Nat).Along Fair (smallStart .mpSc) (polled ++ arriving) :=
    small_along (by decide +kernel)
  obtain ⟨hal₁, hal₂⟩ := hal.append hx
  have hreach : (traced Nat).Reach Fair x :=
    Machine.Reach.exec (.init (smallStart_init .mpSc)) hal₁ hx
  have hpos : 0 < x.1.ring.count 2 x.1.ring.cons.tail := by
    rw [hcount]
    decide
  have hfair : Fair y (.run 2) := by
    have htime : y.2.head .cons + y.1.ring.capacity < y.2.saw 2 + 2 ^ 32 := of_decide_eq_true htime
    simp only [Fair, hdeq]
    exact htime
  exact ⟨x, y, hx, hy, hcount, counted_taken hreach hpc hsingle hpos (steps_of_exec hal₂ hy)
    (eq_of_beq hkeep) (by decide) hdeq hfair⟩

end AggreKV.RteRing
