import AggreKV.Lib.Machine
import AggreKV.Lib.Tiling
import AggreKV.RteRing.Ring

/-! # Threads at a ring

    `__rte_ring_do_enqueue`, `__rte_ring_do_dequeue` and `rte_ring_count`, run
    by any number of threads. One step of a thread is one access to the
    shared memory: a load or a store of an index, the compare-and-set of a
    head, the copying of one pointer. The two functions that move a head
    differ only in the entries they may take (`Ring.room`).

    Beside the state, a history: the four counters without the wrap, the
    counter that each thread has loaded, and a queue that is changed in one
    step, when a producer publishes its tail and when a consumer moves the
    head. -/

namespace AggreKV.RteRing

variable {α : Type*}

/-! ## Section 1: Functions -/

/-- The producers' and the consumers' part of the ring. -/
inductive Side where
  | prod
  | cons
deriving DecidableEq, Repr

def Side.other : Side → Side
  | .prod => .cons
  | .cons => .prod

/-- `enum rte_ring_queue_behavior`. -/
inductive Behavior where
  | queueFixed
  | queueVariable
deriving DecidableEq, Repr

/-- The head and tail that a call moves. -/
def Ring.ht (r : Ring) : Side → HeadTail
  | .prod => r.prod
  | .cons => r.cons

def Ring.setHead (r : Ring) (v : Nat) : Side → Ring
  | .prod => { r with prod := { r.prod with head := v } }
  | .cons => { r with cons := { r.cons with head := v } }

def Ring.setTail (r : Ring) (v : Nat) : Side → Ring
  | .prod => { r with prod := { r.prod with tail := v } }
  | .cons => { r with cons := { r.cons with tail := v } }

/-- The `*free_entries` of `__rte_ring_move_prod_head`. -/
def Ring.freeEntries (r : Ring) (consTail oldHead : Nat) : Nat :=
  sub32 (r.capacity + consTail) oldHead

/-- The `*entries` of `__rte_ring_move_cons_head`. -/
def Ring.entries (_ : Ring) (prodTail oldHead : Nat) : Nat := sub32 prodTail oldHead

/-- What the head may be moved by, from the tail of the other side. -/
def Ring.room (r : Ring) : Side → Nat → Nat → Nat
  | .prod => r.freeEntries
  | .cons => r.entries

/-- The number of elements to move. -/
def burst (behavior : Behavior) (max entries : Nat) : Nat :=
  if entries < max then
    match behavior with
    | .queueFixed => 0
    | .queueVariable => entries
  else max

/-- `rte_ring_count`, from the two tails it loads. -/
def Ring.count (r : Ring) (prodTail consTail : Nat) : Nat :=
  let count := sub32 prodTail consTail &&& r.mask
  if r.capacity < count then r.capacity else count

/-! ## Section 2: Threads -/

/-- A call with its arguments. The number of elements arrives as an
    `unsigned int`. -/
inductive Op (α : Type*) where
  | enqueue (objs : List α) (behavior : Behavior)
  | dequeue (count : Nat) (behavior : Behavior)
deriving DecidableEq

def Op.side : Op α → Side
  | .enqueue _ _ => .prod
  | .dequeue _ _ => .cons

def Op.behavior : Op α → Behavior
  | .enqueue _ b => b
  | .dequeue _ b => b

/-- The `max` of the loop that moves the head. -/
def Op.max : Op α → Nat
  | .enqueue objs _ => u32 objs.length
  | .dequeue count _ => u32 count

/-- `ring_enqueue`: all or nothing. -/
def ringEnqueue (objs : List α) : Op α := .enqueue objs .queueFixed

/-- `ring_dequeue`: what there is. -/
def ringDequeue (count : Nat) : Op α := .dequeue count .queueVariable

/-- Where a thread is, with its local variables. `n` is the number of
    elements to move, `moved` the elements copied so far. -/
inductive Pc (α : Type*) where
  | idle
  /-- loads the own head -/
  | head (op : Op α)
  /-- loads the other tail -/
  | tail (op : Op α) (oldHead : Nat)
  /-- stores the own head, by compare-and-set unless the side is single -/
  | move (op : Op α) (oldHead n : Nat)
  /-- copies the next pointer -/
  | copy (op : Op α) (oldHead n : Nat) (moved : List α)
  /-- waits for the own tail -/
  | wait (op : Op α) (oldHead n : Nat) (moved : List α)
  /-- stores the own tail -/
  | publish (op : Op α) (oldHead n : Nat) (moved : List α)
  /-- has returned the number of elements -/
  | enqueued (n : Nat)
  /-- has filled `obj_table` -/
  | dequeued (objs : List α)
  /-- counts: loads the producers' tail -/
  | countProd
  /-- counts: loads the consumers' tail -/
  | countCons (prodTail : Nat)
  | counted (n : Nat)
deriving DecidableEq

/-- What a call returns. -/
def Op.result (op : Op α) (n : Nat) (moved : List α) : Pc α :=
  match op with
  | .enqueue _ _ => .enqueued n
  | .dequeue _ _ => .dequeued moved

/-- The thread is in no call. -/
def Pc.resting : Pc α → Bool
  | .idle | .enqueued _ | .dequeued _ | .counted _ => true
  | _ => false

/-- The ring, its table and the threads. -/
structure Sys (α : Type*) where
  ring : Ring
  slots : Nat → α
  pc : Nat → Pc α

def Sys.goto (s : Sys α) (t : Nat) (pc : Pc α) : Sys α :=
  { s with pc := Function.update s.pc t pc }

/-- The head is moved: a single side stores it, the others compare first. -/
def Sys.wins (s : Sys α) (op : Op α) (oldHead : Nat) : Bool :=
  (s.ring.ht op.side).single || (s.ring.ht op.side).head == oldHead

/-- The next access of thread `t`. -/
def Sys.run (s : Sys α) (t : Nat) : Option (Sys α) :=
  match s.pc t with
  | .head op => some (s.goto t (.tail op (s.ring.ht op.side).head))
  | .tail op oldHead =>
    let n := burst op.behavior op.max
      (s.ring.room op.side (s.ring.ht op.side.other).tail oldHead)
    some (s.goto t (if n = 0 then op.result 0 [] else .move op oldHead n))
  | .move op oldHead n =>
    if s.wins op oldHead then
      some { s.goto t (.copy op oldHead n []) with
        ring := s.ring.setHead (u32 (oldHead + n)) op.side }
    else some (s.goto t (.head op))
  | .copy op oldHead n moved =>
    match (copyPtrs s.ring oldHead n)[moved.length]? with
    | none => some (s.goto t (.wait op oldHead n moved))
    | some idx =>
      match op with
      | .enqueue objs _ =>
        (objs[moved.length]?).map fun v =>
          { s.goto t (.copy op oldHead n (moved ++ [v])) with
            slots := Function.update s.slots idx v }
      | .dequeue _ _ => some (s.goto t (.copy op oldHead n (moved ++ [s.slots idx])))
  | .wait op oldHead n moved =>
    if (s.ring.ht op.side).single || (s.ring.ht op.side).tail == oldHead then
      some (s.goto t (.publish op oldHead n moved))
    else some s
  | .publish op oldHead n moved =>
    some { s.goto t (op.result n moved) with
      ring := s.ring.setTail (u32 (oldHead + n)) op.side }
  | .countProd => some (s.goto t (.countCons s.ring.prod.tail))
  | .countCons prodTail => some (s.goto t (.counted (s.ring.count prodTail s.ring.cons.tail)))
  | .idle | .enqueued _ | .dequeued _ | .counted _ => none

inductive Act (α : Type*) where
  | call (t : Nat) (op : Op α)
  | count (t : Nat)
  | run (t : Nat)

def Sys.next (s : Sys α) : Act α → Option (Sys α)
  | .call t op => if (s.pc t).resting then some (s.goto t (.head op)) else none
  | .count t => if (s.pc t).resting then some (s.goto t .countProd) else none
  | .run t => s.run t

/-- The threads start at a ring that `ring_create` has made of a count
    other than 0. -/
def ringMachine (α : Type*) : Machine (Sys α) (Act α) where
  init := fun s =>
    (∃ ringNum pid type count, u32 count ≠ 0 ∧ ringCreate ringNum pid type count = some s.ring) ∧
      ∀ t, s.pc t = .idle
  next := Sys.next

/-! ## Section 3: The history -/

/-- The counters as numbers, the counter each thread has loaded, the values in
    the order in which room was reserved for them, and the queue. -/
structure Ghost (α : Type*) where
  head : Side → Nat
  tail : Side → Nat
  saw : Nat → Nat
  log : List α
  queue : List α
  owed : Nat → List α

def Ghost.start : Ghost α where
  head := fun _ => 0
  tail := fun _ => 0
  saw := fun _ => 0
  log := []
  queue := []
  owed := fun _ => []

/-- Thread `t` has loaded a counter. -/
def Ghost.see (g : Ghost α) (t value : Nat) : Ghost α :=
  { g with saw := Function.update g.saw t value }

/-- Thread `t` is to get `objs`. -/
def Ghost.owe (g : Ghost α) (t : Nat) (objs : List α) : Ghost α :=
  { g with owed := Function.update g.owed t objs }

/-- A head is moved: a consumer takes its elements from the queue. -/
def Ghost.reserve (g : Ghost α) (t n : Nat) : Op α → Ghost α
  | .enqueue objs _ =>
    { g with
      head := Function.update g.head .prod (g.head .prod + n)
      log := g.log ++ objs.take n }
  | .dequeue _ _ =>
    { g with
      head := Function.update g.head .cons (g.head .cons + n)
      queue := g.queue.drop n
      owed := Function.update g.owed t (g.queue.take n) }

/-- A tail is stored: a producer's elements join the queue. -/
def Ghost.publish (g : Ghost α) (n : Nat) (moved : List α) : Op α → Ghost α
  | .enqueue _ _ =>
    { g with
      tail := Function.update g.tail .prod (g.tail .prod + n)
      queue := g.queue ++ moved }
  | .dequeue _ _ => { g with tail := Function.update g.tail .cons (g.tail .cons + n) }

def record (s : Sys α) (g : Ghost α) : Act α → Ghost α
  | .call _ _ => g
  | .count _ => g
  | .run t =>
    match s.pc t with
    | .head op => g.see t (g.head op.side)
    | .tail op oldHead =>
      -- a refused call gets nothing
      if burst op.behavior op.max
          (s.ring.room op.side (s.ring.ht op.side.other).tail oldHead) = 0
      then g.owe t [] else g
    | .move op oldHead n => if s.wins op oldHead then g.reserve t n op else g
    | .publish op _ n moved => g.publish n moved op
    | .countProd => g.see t (g.tail .prod)
    | _ => g

/-- The threads with their history. -/
def traced (α : Type*) : Machine (Sys α × Ghost α) (Act α) :=
  (ringMachine α).withHistory .start record

/-- The side that a thread is using. Counting is done by consumers. -/
def Pc.uses : Pc α → Option Side
  | .head op => some op.side
  | .tail op _ => some op.side
  | .move op _ _ => some op.side
  | .copy op _ _ _ => some op.side
  | .wait op _ _ _ => some op.side
  | .publish op _ _ _ => some op.side
  | .countProd => some .cons
  | .countCons _ => some .cons
  | _ => none

def Sys.Busy (s : Sys α) (t : Nat) (d : Side) : Prop := (s.pc t).uses = some d

/-- A thread that has loaded a head goes on before the counter comes round
    again. -/
def InTime (x : Sys α × Ghost α) (t : Nat) (d : Side) : Prop :=
  x.2.head d + x.1.ring.capacity < x.2.saw t + 2 ^ 32

/-- What the threads are trusted with: a single side is used by one thread
    at a time, and no thread sleeps while a head runs through all of its
    2^32 values. -/
def Fair (x : Sys α × Ghost α) : Act α → Prop
  | .call t op => (x.1.ring.ht op.side).single = true → ∀ u, u ≠ t → ¬ x.1.Busy u op.side
  | .count t => x.1.ring.cons.single = true → ∀ u, u ≠ t → ¬ x.1.Busy u .cons
  | .run t =>
    match x.1.pc t with
    | .tail op _ => InTime x t op.side
    | .move op _ _ => InTime x t op.side
    | _ => True

/-! ## Section 4: Other threads -/

/-- The thread that acts. -/
def Act.thread : Act α → Nat
  | .call t _ => t
  | .count t => t
  | .run t => t

/-- A step moves one thread. -/
theorem next_pc {s s' : Sys α} {a : Act α} (hn : s.next a = some s') {u : Nat}
    (hu : u ≠ a.thread) : s'.pc u = s.pc u := by
  have hgoto : ∀ pc : Pc α, (s.goto a.thread pc).pc u = s.pc u := by
    intro pc
    exact Function.update_of_ne hu ..
  cases a with
  | call t op =>
    simp only [Sys.next] at hn
    split at hn
    · rw [← Option.some.inj hn]
      exact hgoto _
    · exact absurd hn (by simp)
  | count t =>
    simp only [Sys.next] at hn
    split at hn
    · rw [← Option.some.inj hn]
      exact hgoto _
    · exact absurd hn (by simp)
  | run t =>
    simp only [Sys.next] at hn
    cases hpc : s.pc t with
    | copy op old n moved =>
      simp only [Sys.run, hpc] at hn
      split at hn
      · rw [← Option.some.inj hn]
        exact hgoto _
      · cases op with
        | enqueue objs b =>
          obtain ⟨v, -, rfl⟩ := Option.map_eq_some_iff.mp hn
          exact hgoto _
        | dequeue count b =>
          rw [← Option.some.inj hn]
          exact hgoto _
    | move op old n =>
      simp only [Sys.run, hpc] at hn
      split at hn
      · rw [← Option.some.inj hn]
        exact hgoto _
      · rw [← Option.some.inj hn]
        exact hgoto _
    | wait op old n moved =>
      simp only [Sys.run, hpc] at hn
      split at hn
      · rw [← Option.some.inj hn]
        exact hgoto _
      · rw [← Option.some.inj hn]
    | idle => simp [Sys.run, hpc] at hn
    | enqueued n => simp [Sys.run, hpc] at hn
    | dequeued objs => simp [Sys.run, hpc] at hn
    | counted n => simp [Sys.run, hpc] at hn
    | _ =>
      simp only [Sys.run, hpc] at hn
      rw [← Option.some.inj hn]
      exact hgoto _

/-! ## Section 5: A small ring -/

/-- A ring of four slots. -/
def smallRing (type : RingType) : Ring where
  flags := type.flags
  size := 4
  mask := 3
  capacity := 3
  prod := ⟨0, 0, type == .spSc⟩
  cons := ⟨0, 0, type != .mpMc⟩

theorem ringCreate_small (type : RingType) : ringCreate 0 0 type 4 = some (smallRing type) := by
  have hmem : ¬ rteRingGetMemsize (tableSize (u32 4) type.flags) < 0 := by
    cases type with
    | spSc => decide
    | mpSc => decide
    | mpMc => decide
  show rteRingCreate (ringName 0 0) (u32 4) _ = _
  rw [rteRingCreate_eq (ringName_short 0 0) hmem]
  cases type with
  | spSc => decide
  | mpSc => decide
  | mpMc => decide

/-- The threads have not begun. -/
def smallStart (type : RingType) : Sys Nat × Ghost Nat :=
  (⟨smallRing type, fun _ => 0, fun _ => .idle⟩, .start)

theorem smallStart_init (type : RingType) : (traced Nat).init (smallStart type) :=
  ⟨⟨⟨0, 0, type, 4, by decide, ringCreate_small type⟩, fun _ => rfl⟩, rfl⟩

/-- The first four threads leave the side to `t`. -/
def leftTo (x : Sys Nat × Ghost Nat) (t : Nat) (d : Side) : Bool :=
  (List.range 4).all fun u => u == t || (x.1.pc u).uses != some d

/-- `Fair`, and only the first four threads act. -/
def fairSmall (x : Sys Nat × Ghost Nat) (a : Act Nat) : Bool :=
  decide (a.thread < 4) &&
    match a with
    | .call t op => !(x.1.ring.ht op.side).single || leftTo x t op.side
    | .count t => !x.1.ring.cons.single || leftTo x t .cons
    | .run t =>
      match x.1.pc t with
      | .tail op _ => decide (x.2.head op.side + x.1.ring.capacity < x.2.saw t + 2 ^ 32)
      | .move op _ _ => decide (x.2.head op.side + x.1.ring.capacity < x.2.saw t + 2 ^ 32)
      | _ => true

theorem not_busy_of_leftTo {x : Sys Nat × Ghost Nat} {t : Nat} {d : Side}
    (hidle : ∀ u, 4 ≤ u → x.1.pc u = .idle) (h : leftTo x t d = true) {u : Nat} (hne : u ≠ t) :
    ¬ x.1.Busy u d := by
  unfold Sys.Busy
  by_cases hu : u < 4
  · have hall := List.all_eq_true.mp h u (List.mem_range.mpr hu)
    simp only [Bool.or_eq_true, beq_iff_eq, bne_iff_ne, hne, false_or] at hall
    exact hall
  · rw [hidle u (Nat.le_of_not_lt hu)]
    simp [Pc.uses]

theorem fair_of_fairSmall {x : Sys Nat × Ghost Nat} {a : Act Nat}
    (hidle : ∀ u, 4 ≤ u → x.1.pc u = .idle) (h : fairSmall x a = true) : Fair x a := by
  obtain ⟨-, h⟩ := Bool.and_eq_true_iff.mp h
  cases a with
  | call t op =>
    intro hsingle u hne
    simp only [hsingle, Bool.not_true, Bool.false_or] at h
    exact not_busy_of_leftTo hidle h hne
  | count t =>
    intro hsingle u hne
    simp only [hsingle, Bool.not_true, Bool.false_or] at h
    exact not_busy_of_leftTo hidle h hne
  | run t =>
    unfold Fair
    simp only [] at h ⊢
    cases hpc : x.1.pc t with
    | tail op old =>
      simp only [hpc, decide_eq_true_eq] at h
      exact h
    | move op old n =>
      simp only [hpc, decide_eq_true_eq] at h
      exact h
    | _ => trivial

theorem along_of_small {as : List (Act Nat)} : ∀ {x : Sys Nat × Ghost Nat},
    (∀ u, 4 ≤ u → x.1.pc u = .idle) →
    (traced Nat).Along (fun x a => fairSmall x a = true) x as → (traced Nat).Along Fair x as := by
  induction as with
  | nil =>
    intro x _ _
    trivial
  | cons a as ih =>
    intro x hidle hal
    refine ⟨fair_of_fairSmall hidle hal.1, ?_⟩
    intro y hy
    apply ih _ (hal.2 y hy)
    intro u hu
    obtain ⟨s', hs', rfl⟩ := Option.map_eq_some_iff.mp hy
    have hthread : a.thread < 4 := of_decide_eq_true (Bool.and_eq_true_iff.mp hal.1).1
    show s'.pc u = .idle
    rw [next_pc hs' (by omega)]
    exact hidle u hu

theorem small_along {type : RingType} {as : List (Act Nat)}
    (hcheck : (traced Nat).check fairSmall (smallStart type) as = true) :
    (traced Nat).Along Fair (smallStart type) as :=
  along_of_small (fun _ _ => rfl) (Machine.along_of_check hcheck)

theorem small_reach {type : RingType} {as : List (Act Nat)} {x : Sys Nat × Ghost Nat}
    (hcheck : (traced Nat).check fairSmall (smallStart type) as = true)
    (h : (traced Nat).exec (smallStart type) as = some x) : (traced Nat).Reach Fair x :=
  Machine.Reach.exec (.init (smallStart_init type)) (small_along hcheck) h

end AggreKV.RteRing
