import AggreKV.RteRing.Reservations

/-! # The ring is a queue

    Whatever the threads do, the ring behaves as a queue of bounded length
    to which elements are added in one step and from which they are taken in
    one step.

    * `fifoMachine`: the bounded queue.
    * `reach_sound`: the invariant holds in every state reached.
    * `refines_fifo`: every run of the threads is a run of the queue, and
      every dequeue returns what it took from the queue. -/

namespace AggreKV.RteRing

variable {α : Type*} {s s' : Sys α} {g g' : Ghost α} {t u : Nat}

/-! ## Section 1: Runs of the threads -/

theorem sound_init (h : (ringMachine α).init s) : Sound s .start := by
  obtain ⟨⟨ringNum, pid, type, count, hcount, hmade⟩, hidle⟩ := h
  obtain ⟨hform, hempty⟩ := ringCreate_wellFormed hcount hmade
  -- Nothing is reserved yet, all counters are zero.
  have hnone : ∀ d t, held s .start d t = none := by
    intro d t
    exact held_of_stretch (by rw [hidle]; rfl)
  constructor
  · exact hform
  · intro d
    cases d with
    | prod => exact hempty.1
    | cons => exact hempty.2.2.1
  · intro d
    cases d with
    | prod => exact hempty.2.1
    | cons => exact hempty.2.2.2
  · intro d
    exact Tiling.empty (hnone d) 0
  · exact Nat.le_refl 0
  · exact Nat.zero_le _
  · intro d _ t u ht
    unfold Sys.Busy at ht
    rw [hidle] at ht
    exact absurd ht (by simp [Pc.uses])
  · rfl
  · rfl
  · intro p _ hp
    exact absurd hp (Nat.not_lt_zero p)
  · intro t
    rw [hidle]
    trivial

/-- The step of a thread that copies. -/
theorem Sound.step_copy (hs : Sound s g) {op : Op α} {old n : Nat} {moved : List α}
    (hpc : s.pc t = .copy op old n moved) (hn : s.run t = some s') : Sound s' g := by
  have hcopy : Copying s g t op old n moved := hs.local_at hpc
  have hslot := hs.next_slot hpc
  simp only [Sys.run, hpc] at hn
  rw [hslot] at hn
  by_cases hlt : moved.length < n
  · rw [if_pos hlt] at hn
    cases op with
    | enqueue objs b =>
      obtain ⟨v, hv, rfl⟩ := Option.map_eq_some_iff.mp hn
      exact hs.write hpc hlt hv
    | dequeue count b =>
      rw [← Option.some.inj hn]
      exact hs.read hpc hlt
  · rw [if_neg hlt] at hn
    rw [← Option.some.inj hn]
    have hlen := hcopy.len
    exact hs.copied hpc (by omega)

theorem Sound.step_run (hs : Sound s g) (hfair : Fair (s, g) (.run t)) (hn : s.run t = some s') :
    Sound s' (record s g (.run t)) := by
  -- One case for each place where a thread can be.
  cases hpc : s.pc t with
  | idle => simp [Sys.run, hpc] at hn
  | head op =>
    simp only [Sys.run, hpc, Option.some.injEq] at hn
    simp only [record, hpc]
    rw [← hn]
    exact hs.load hpc
  | tail op old =>
    simp only [Fair, hpc] at hfair
    simp only [Sys.run, hpc, Option.some.injEq] at hn
    simp only [record, hpc]
    rw [← hn]
    split
    · exact hs.refuse hpc
    · rename_i hpos
      exact hs.choose hpc hfair rfl hpos
  | move op old n =>
    simp only [Fair, hpc] at hfair
    simp only [Sys.run, hpc] at hn
    simp only [record, hpc]
    by_cases hwin : s.wins op old = true
    · rw [if_pos hwin, Option.some.injEq] at hn
      rw [if_pos hwin, ← hn]
      exact hs.reserve hpc hfair hwin
    · rw [if_neg hwin, Option.some.injEq] at hn
      rw [if_neg hwin, ← hn]
      exact hs.retry hpc
  | copy op old n moved =>
    simp only [record, hpc]
    exact hs.step_copy hpc hn
  | wait op old n moved =>
    simp only [Sys.run, hpc] at hn
    simp only [record, hpc]
    by_cases hturn : ((s.ring.ht op.side).single || (s.ring.ht op.side).tail == old) = true
    · rw [if_pos hturn, Option.some.injEq] at hn
      rw [← hn]
      simp only [Bool.or_eq_true, beq_iff_eq] at hturn
      exact hs.arrive hpc hturn
    · rw [if_neg hturn, Option.some.injEq] at hn
      rw [← hn]
      exact hs
  | publish op old n moved =>
    simp only [Sys.run, hpc, Option.some.injEq] at hn
    simp only [record, hpc]
    rw [← hn]
    exact hs.publish hpc
  | enqueued n => simp [Sys.run, hpc] at hn
  | dequeued objs => simp [Sys.run, hpc] at hn
  | countProd =>
    simp only [Sys.run, hpc, Option.some.injEq] at hn
    simp only [record, hpc]
    rw [← hn]
    exact hs.count_prod hpc
  | countCons prodTail =>
    simp only [Sys.run, hpc, Option.some.injEq] at hn
    simp only [record, hpc]
    rw [← hn]
    exact hs.count_cons hpc _
  | counted n => simp [Sys.run, hpc] at hn

/-- Every step keeps the invariant. -/
theorem Sound.step (hs : Sound s g) {a : Act α} (hfair : Fair (s, g) a) (hn : s.next a = some s') :
    Sound s' (record s g a) := by
  cases a with
  | call t op =>
    simp only [Sys.next] at hn
    by_cases hrest : (s.pc t).resting = true
    · rw [if_pos hrest, Option.some.injEq] at hn
      rw [← hn]
      exact hs.enter hrest rfl rfl hfair (fun _ => trivial)
    · rw [if_neg hrest] at hn
      exact absurd hn (by simp)
  | count t =>
    simp only [Sys.next] at hn
    by_cases hrest : (s.pc t).resting = true
    · rw [if_pos hrest, Option.some.injEq] at hn
      rw [← hn]
      exact hs.enter hrest rfl rfl hfair (fun _ => trivial)
    · rw [if_neg hrest] at hn
      exact absurd hn (by simp)
  | run t => exact hs.step_run hfair hn

/-- The invariant holds in every state reached. -/
theorem reach_sound {x : Sys α × Ghost α} (h : (traced α).Reach Fair x) : Sound x.1 x.2 := by
  apply h.invariant
  · rintro ⟨s, g⟩ ⟨hinit, hg⟩
    have hg : g = .start := hg
    rw [hg]
    exact sound_init hinit
  · rintro ⟨s, g⟩ y a - hs hfair hn
    obtain ⟨s', hs', rfl⟩ := Option.map_eq_some_iff.mp hn
    exact hs.step hfair hs'

/-! ## Section 2: The bounded queue -/

/-- The elements, and what each thread got last. -/
structure Fifo (α : Type*) where
  items : List α
  got : Nat → List α

inductive FifoAct (α : Type*) where
  /-- adds elements at the end -/
  | put (objs : List α)
  /-- takes the first `n` elements -/
  | take (t n : Nat)

/-- A queue of at most `capacity` elements. -/
def fifoMachine (α : Type*) (capacity : Nat) : Machine (Fifo α) (FifoAct α) where
  init := fun q => q.items = [] ∧ ∀ t, q.got t = []
  next := fun q a =>
    match a with
    | .put objs =>
      if q.items.length + objs.length ≤ capacity then some { q with items := q.items ++ objs }
      else none
    | .take t n =>
      if n ≤ q.items.length then
        some { items := q.items.drop n, got := Function.update q.got t (q.items.take n) }
      else none

/-- The queue of the history. -/
def Ghost.fifo (g : Ghost α) : Fifo α := ⟨g.queue, g.owed⟩

/-- The queue does not move, or makes a step. -/
def FifoStep (capacity : Nat) (q q' : Fifo α) : Prop :=
  q' = q ∨ ∃ b, (fifoMachine α capacity).next q b = some q'

theorem fifo_take {capacity n : Nat} {q : Fifo α} (h : n ≤ q.items.length) :
    FifoStep capacity q ⟨q.items.drop n, Function.update q.got t (q.items.take n)⟩ := by
  right
  exact ⟨.take t n, if_pos h⟩

theorem fifo_put {capacity : Nat} {q : Fifo α} {objs : List α}
    (h : q.items.length + objs.length ≤ capacity) :
    FifoStep capacity q { q with items := q.items ++ objs } := by
  right
  exact ⟨.put objs, if_pos h⟩

/-- Moving the consumers' head takes from the queue. -/
theorem Sound.fifo_reserve (hs : Sound s g) {op : Op α} {old n : Nat}
    (hpc : s.pc t = .move op old n) (htime : InTime (s, g) t op.side)
    (hwin : s.wins op old = true) :
    FifoStep s.ring.capacity g.fifo (g.reserve t n op).fifo := by
  obtain ⟨hseen, -, -, hlimit, -⟩ :
    Seen s g t op.side old ∧ 0 < n ∧ n ≤ op.max ∧ g.saw t + n ≤ limit s.ring g op.side ∧
      (op.behavior = .queueFixed → n = op.max) := hs.local_at hpc
  have hhead := hs.wins_head hseen htime hwin
  cases op with
  | enqueue objs b =>
    left
    rfl
  | dequeue count b =>
    have hlimit : g.saw t + n ≤ g.tail .prod := hlimit
    have hhead : g.head .cons = g.saw t := hhead
    have hlen := hs.queue_length
    apply fifo_take (q := g.fifo)
    show n ≤ g.queue.length
    omega

/-- Storing the producers' tail adds to the queue. -/
theorem Sound.fifo_publish (hs : Sound s g) {op : Op α} {old n : Nat} {moved : List α}
    (hpc : s.pc t = .publish op old n moved) :
    FifoStep s.ring.capacity g.fifo (g.publish n moved op).fifo := by
  obtain ⟨-, hall, hturn⟩ : Copying s g t op old n moved ∧ moved.length = n ∧
    g.saw t = g.tail op.side := hs.local_at hpc
  cases op with
  | enqueue objs b =>
    have hturn : g.saw t = g.tail .prod := hturn
    have hheld : held s g .prod t = some (g.saw t, n) := held_at hpc rfl
    have hw := (hs.tiles .prod).within t _ n hheld
    have hfits := hs.fits
    have hcons := (hs.tiles .cons).le
    have hlen := hs.queue_length
    have hahead := hs.ahead
    apply fifo_put (q := g.fifo)
    show g.queue.length + moved.length ≤ s.ring.capacity
    omega
  | dequeue count b =>
    left
    rfl

/-- Every step of the threads is a step of the queue, or none. -/
theorem Sound.fifo_step (hs : Sound s g) {a : Act α} (hfair : Fair (s, g) a)
    (hn : s.next a = some s') : FifoStep s.ring.capacity g.fifo (record s g a).fifo := by
  cases a with
  | call t op => exact .inl rfl
  | count t => exact .inl rfl
  | run t =>
    cases hpc : s.pc t with
    | tail op old =>
      simp only [record, hpc]
      split
      · -- a refused call takes nothing
        exact fifo_take (q := g.fifo) (Nat.zero_le _)
      · exact .inl rfl
    | move op old n =>
      simp only [Fair, hpc] at hfair
      simp only [record, hpc]
      split
      · rename_i hwin
        exact hs.fifo_reserve hpc hfair hwin
      · exact .inl rfl
    | publish op old n moved =>
      simp only [record, hpc]
      exact hs.fifo_publish hpc
    | idle => exact .inl (by simp only [record, hpc])
    | head op => exact .inl (by simp only [record, hpc]; rfl)
    | copy op old n moved => exact .inl (by simp only [record, hpc])
    | wait op old n moved => exact .inl (by simp only [record, hpc])
    | enqueued n => exact .inl (by simp only [record, hpc])
    | dequeued objs => exact .inl (by simp only [record, hpc])
    | countProd => exact .inl (by simp only [record, hpc]; rfl)
    | countCons prodTail => exact .inl (by simp only [record, hpc])
    | counted n => exact .inl (by simp only [record, hpc])

/-! ## Section 3: Refinement -/

/-- No step changes the sizes of the ring. -/
theorem next_shape {a : Act α} (hn : s.next a = some s') :
    s'.ring.capacity = s.ring.capacity ∧ s'.ring.size = s.ring.size ∧
      ∀ d, (s'.ring.ht d).single = (s.ring.ht d).single := by
  have hstay : ∀ r : Ring, r.capacity = r.capacity ∧ r.size = r.size ∧
      ∀ d, (r.ht d).single = (r.ht d).single := by
    intro r
    exact ⟨rfl, rfl, fun _ => rfl⟩
  have hgoto : ∀ {t : Nat} {pc : Pc α}, some (s.goto t pc) = some s' →
      s'.ring.capacity = s.ring.capacity ∧ s'.ring.size = s.ring.size ∧
        ∀ d, (s'.ring.ht d).single = (s.ring.ht d).single := by
    intro t pc h
    rw [← Option.some.inj h]
    exact hstay s.ring
  cases a with
  | call t op =>
    simp only [Sys.next] at hn
    split at hn
    · exact hgoto hn
    · exact absurd hn (by simp)
  | count t =>
    simp only [Sys.next] at hn
    split at hn
    · exact hgoto hn
    · exact absurd hn (by simp)
  | run t =>
    simp only [Sys.next] at hn
    cases hpc : s.pc t with
    | idle => simp [Sys.run, hpc] at hn
    | head op =>
      simp only [Sys.run, hpc] at hn
      exact hgoto hn
    | tail op old =>
      simp only [Sys.run, hpc] at hn
      exact hgoto hn
    | move op old n =>
      simp only [Sys.run, hpc] at hn
      split at hn
      · rw [← Option.some.inj hn]
        exact ⟨setHead_capacity .., setHead_size .., fun _ => setHead_single ..⟩
      · exact hgoto hn
    | copy op old n moved =>
      simp only [Sys.run, hpc] at hn
      split at hn
      · exact hgoto hn
      · cases op with
        | enqueue objs b =>
          obtain ⟨v, -, rfl⟩ := Option.map_eq_some_iff.mp hn
          exact hstay s.ring
        | dequeue count b => exact hgoto hn
    | wait op old n moved =>
      simp only [Sys.run, hpc] at hn
      split at hn
      · exact hgoto hn
      · rw [← Option.some.inj hn]
        exact hstay s.ring
    | publish op old n moved =>
      simp only [Sys.run, hpc, Option.some.injEq] at hn
      rw [← hn]
      exact ⟨setTail_capacity .., setTail_size .., fun _ => setTail_single ..⟩
    | enqueued n => simp [Sys.run, hpc] at hn
    | dequeued objs => simp [Sys.run, hpc] at hn
    | countProd =>
      simp only [Sys.run, hpc] at hn
      exact hgoto hn
    | countCons prodTail =>
      simp only [Sys.run, hpc] at hn
      exact hgoto hn
    | counted n => simp [Sys.run, hpc] at hn

/-- The queue of the history is reached by the queue on its own. -/
theorem reach_fifo {x : Sys α × Ghost α} (h : (traced α).Reach Fair x) :
    (fifoMachine α x.1.ring.capacity).Reachable x.2.fifo := by
  apply h.invariant
  · rintro ⟨s, g⟩ ⟨-, hg⟩
    have hg : g = .start := hg
    rw [hg]
    exact .init ⟨rfl, fun _ => rfl⟩
  · rintro ⟨s, g⟩ y a hreach hq hfair hn
    obtain ⟨s', hs', rfl⟩ := Option.map_eq_some_iff.mp hn
    have hstep := (reach_sound hreach).fifo_step hfair hs'
    show (fifoMachine α s'.ring.capacity).Reachable (record s g a).fifo
    rw [(next_shape hs').1]
    rcases hstep with hsame | ⟨b, hb⟩
    · rw [hsame]
      exact hq
    · exact .step b hq trivial hb

/-- The threads implement a bounded queue: every run of theirs is a run of
    the queue, in which a producer adds its elements in one step, when it
    stores the tail, and a consumer takes its own in one step, when it moves
    the head. A dequeue returns what it has taken there, and a fixed enqueue
    adds its whole table. -/
theorem refines_fifo {x : Sys α × Ghost α} (h : (traced α).Reach Fair x) :
    (fifoMachine α x.1.ring.capacity).Reachable x.2.fifo ∧
    (∀ t objs, x.1.pc t = .dequeued objs → objs = x.2.fifo.got t) ∧
    ∀ t objs b old n moved, x.1.pc t = .publish (.enqueue objs b) old n moved →
      moved = objs.take n ∧ n ≤ objs.length ∧ (b = .queueFixed → n = u32 objs.length) := by
  have hs := reach_sound h
  constructor
  · exact reach_fifo h
  constructor
  · intro t objs hpc
    exact hs.local_at hpc
  · intro t objs b old n moved hpc
    obtain ⟨hcopy, hall, -⟩ : Copying x.1 x.2 t (.enqueue objs b) old n moved ∧
      moved.length = n ∧ x.2.saw t = x.2.tail .prod := hs.local_at hpc
    have hmoved : moved = objs.take moved.length := hcopy.moved_eq
    rw [hall] at hmoved
    refine ⟨hmoved, ?_, hcopy.amount⟩
    have hlen := congrArg List.length hmoved
    rw [List.length_take] at hlen
    omega

/-- Two producers race for the head, the later one has to wait for the
    tail. A consumer then gets all three elements. -/
def race : List (Act Nat) :=
  [.call 1 (ringEnqueue [7, 8]), .call 2 (ringEnqueue [9]), .run 1, .run 2, .run 1, .run 2] ++
    -- 1 wins, 2 tries again and has copied first
    [.run 1, .run 2, .run 2, .run 2, .run 2, .run 2, .run 2, .run 2] ++
    [.run 1, .run 1, .run 1, .run 1, .run 1, .run 2, .run 2] ++
    [.call 3 (ringDequeue 5), .run 3, .run 3, .run 3, .run 3, .run 3, .run 3, .run 3, .run 3,
      .run 3]

/-- The race of the two producers is a run of the bounded queue, and the consumer gets the
    elements in the order of the heads. -/
theorem refines_fifo_race : ∃ x, (traced Nat).exec (smallStart .mpMc) race = some x ∧
    x.1.pc 3 = .dequeued [7, 8, 9] ∧
    (fifoMachine Nat x.1.ring.capacity).Reachable x.2.fifo ∧
    (∀ t objs, x.1.pc t = .dequeued objs → objs = x.2.fifo.got t) ∧
    ∀ t objs b old n moved, x.1.pc t = .publish (.enqueue objs b) old n moved →
      moved = objs.take n ∧ n ≤ objs.length ∧ (b = .queueFixed → n = u32 objs.length) := by
  have hrun : ((traced Nat).exec (smallStart .mpMc) race).map (fun x => x.1.pc 3) =
      some (.dequeued [7, 8, 9]) := by decide +kernel
  obtain ⟨x, hx, hpc⟩ := Option.map_eq_some_iff.mp hrun
  have hreach : (traced Nat).Reach Fair x := small_reach (by decide +kernel) hx
  exact ⟨x, hx, hpc, refines_fifo hreach⟩

/-! ## Section 4: Full and empty -/

/-- A call is refused only by a ring that is too full, or not full enough,
    at the moment it loads the tail of the other side. Reserved slots count
    as filled until their consumer has stored its tail. -/
theorem refused_only {x : Sys α × Ghost α} (h : (traced α).Reach Fair x) {t : Nat} {op : Op α}
    {old : Nat} (hpc : x.1.pc t = .tail op old) (hfair : Fair x (.run t)) (hmax : 0 < op.max)
    (hrefused : x.1.run t = some (x.1.goto t (op.result 0 []))) :
    match op with
    | .enqueue objs _ =>
      x.2.tail .cons + x.1.ring.capacity < x.2.head .prod + u32 objs.length
    | .dequeue count b =>
      x.2.queue.length < u32 count ∧ (b = .queueVariable → x.2.queue = []) := by
  obtain ⟨s, g⟩ := x
  have hs : Sound s g := reach_sound h
  have hpc : s.pc t = .tail op old := hpc
  have hrefused : s.run t = some (s.goto t (op.result 0 [])) := hrefused
  have hseen : Seen s g t op.side old := hs.local_at hpc
  simp only [Fair, hpc] at hfair
  have hroom := hs.room_eq hseen hfair
  -- the burst is 0: otherwise the thread would go on
  have hzero : burst op.behavior op.max
      (s.ring.room op.side (s.ring.ht op.side.other).tail old) = 0 := by
    by_contra hne
    simp only [Sys.run, hpc] at hrefused
    rw [if_neg hne] at hrefused
    have hsame := congrArg (fun s : Sys α => s.pc t) (Option.some.inj hrefused)
    simp only [goto_pc] at hsame
    cases op with
    | enqueue objs b => exact absurd hsame (by simp [Op.result])
    | dequeue count b => exact absurd hsame (by simp [Op.result])
  rw [hroom] at hzero
  have hle := hseen.le_head
  have hlen := hs.queue_length
  cases op with
  | enqueue objs b =>
    have hle : g.saw t ≤ g.head .prod := hle
    have hmax : 0 < u32 objs.length := hmax
    show g.tail .cons + s.ring.capacity < g.head .prod + u32 objs.length
    unfold burst at hzero
    split at hzero
    · rename_i hless
      have hless : g.tail .cons + s.ring.capacity - g.saw t < u32 objs.length := hless
      omega
    · exact absurd hzero (Nat.ne_of_gt hmax)
  | dequeue count b =>
    have hle : g.saw t ≤ g.head .cons := hle
    have hmax : 0 < u32 count := hmax
    show g.queue.length < u32 count ∧ (b = .queueVariable → g.queue = [])
    unfold burst at hzero
    split at hzero
    · rename_i hless
      have hless : g.tail .prod - g.saw t < u32 count := hless
      constructor
      · omega
      · intro hb
        simp only [Op.behavior, hb] at hzero
        have hzero : g.tail .prod - g.saw t = 0 := hzero
        apply List.length_eq_zero_iff.mp
        omega
    · exact absurd hzero (Nat.ne_of_gt hmax)

/-- The fourth element. -/
def another : Op Nat := ringEnqueue [4]

/-- Three elements reserved: no room for another one. -/
def overfull : List (Act Nat) :=
  [.call 1 (ringEnqueue [7, 8, 9]), .run 1, .run 1, .run 1, .call 2 another, .run 2]

/-- The refused enqueue comes to a ring whose three places are reserved. -/
theorem refused_only_overfull : ∃ x, (traced Nat).exec (smallStart .mpMc) overfull = some x ∧
    x.2.tail .cons + x.1.ring.capacity < x.2.head .prod + u32 [4].length := by
  have hrun : ((traced Nat).exec (smallStart .mpMc) overfull).map
      (fun x => (x.1.pc 2, burst another.behavior another.max
          (x.1.ring.room another.side (x.1.ring.ht another.side.other).tail 3),
        decide (x.2.head .prod + x.1.ring.capacity < x.2.saw 2 + 2 ^ 32))) =
      some (.tail another 3, 0, true) := by decide +kernel
  obtain ⟨x, hx, hsome⟩ := Option.map_eq_some_iff.mp hrun
  obtain ⟨hpc, hrest⟩ := Prod.mk.inj hsome
  obtain ⟨hburst, htime⟩ := Prod.mk.inj hrest
  have hreach : (traced Nat).Reach Fair x := small_reach (by decide +kernel) hx
  refine ⟨x, hx, refused_only hreach hpc ?_ (by decide) ?_⟩
  · simp only [Fair, hpc]
    have htime : x.2.head .prod + x.1.ring.capacity < x.2.saw 2 + 2 ^ 32 := of_decide_eq_true htime
    exact htime
  · simp only [Sys.run, hpc]
    rw [if_pos hburst]

end AggreKV.RteRing
