import AggreKV.Lib.DoublyLinked
import AggreKV.Lib.Machine
import Mathlib.Algebra.GroupWithZero.Nat

/-! # The retry queue

    `algo_queue.c`: requests, or write buffer entries, in a doubly linked
    list by completion time. An insertion scans from the last node back and
    stops at the first one that is not later by more than a microsecond.

    * `AlgoQ`: the queue of the source, with the heap of its nodes; `malloc`
      may return any address that is not allocated.
    * `AlgoQ.Holds`: the heap represents a list.
    * `WithinSlack`, `insert_withinSlack_iff`: the order that insertions
      keep, and exactly when they do.
    * `Retry`: the queue with what has been inserted and what has left it.
    * `retry_queue_order`: what holds in all runs. -/

namespace AggreKV.HashKv

open DoublyLinked

/-! ## Section 1: The source -/

/-- `algo_q`, over payloads `α`. -/
structure AlgoQ (α : Type) where
  heap : Heap α
  head : Option Nat
  last : Option Nat
  size : Nat

namespace AlgoQ

variable {α : Type}

/-- `algo_q_create`. -/
def create : AlgoQ α := ⟨fun _ => none, none, none, 0⟩

/-- Where the scan for the position of a payload with time `etime` stops. The sum wraps. -/
def stops (etime : UInt64) (curr : UInt64) : Bool :=
  curr ≤ etime || curr ≤ etime + 1000

/-- The scan from `curr` back, over at most `fuel` nodes. -/
def scan (heap : Heap α) (stop : α → Bool) : Nat → Option Nat → Option (Option Nat)
  | _, none => some none
  | 0, some _ => none
  | fuel + 1, some curr =>
    (heap curr).bind fun nd =>
    if stop nd.data then some (some curr) else scan heap stop fuel nd.prev

/-- `algo_q_insert_sorted`, where `malloc` returns the address `entry`. -/
def insertSorted (q : AlgoQ α) (etime : α → UInt64) (entry : Nat) (payload : α) :
    Option (AlgoQ α) :=
  if (q.heap entry).isSome then none
  else
    let heap : Heap α := Function.update q.heap entry (some ⟨payload, none, none⟩)
    if q.head = none then
      if q.last = none then some ⟨heap, some entry, some entry, q.size + 1⟩ else none
    else do
      match ← scan heap (fun p => stops (etime payload) (etime p)) q.size q.last with
      | none => -- Head inserted
        let heap ← heap.setPrev (some entry) none
        let heap ← heap.setPrev q.head (some entry)
        let heap ← heap.setNext (some entry) q.head
        return ⟨heap, some entry, q.last, q.size + 1⟩
      | some curr =>
        let nd ← heap curr
        if nd.next = none then -- Tail
          let heap ← heap.setPrev (some entry) (some curr)
          let heap ← heap.setNext (some entry) nd.next
          let heap ← heap.setNext (some curr) (some entry)
          return ⟨heap, q.head, some entry, q.size + 1⟩
        else -- In between
          let heap ← heap.setPrev (some entry) (some curr)
          let heap ← heap.setNext (some entry) nd.next
          let heap ← heap.setPrev nd.next (some entry)
          let heap ← heap.setNext (some curr) (some entry)
          return ⟨heap, q.head, q.last, q.size + 1⟩

/-- `algo_q_dequeue`. -/
def dequeue (q : AlgoQ α) : Option (Option α × AlgoQ α) :=
  match q.head with
  | none => some (none, q)
  | some entry => do
    let nd ← q.heap entry
    match nd.next with
    | some n =>
      let heap ← q.heap.setPrev (some n) none
      return (some nd.data, ⟨Function.update heap entry none, some n, q.last, q.size - 1⟩)
    | none => return (some nd.data, ⟨Function.update q.heap entry none, none, none, q.size - 1⟩)

/-- The payloads from head to last. -/
def queued (q : AlgoQ α) : List α := (followNext q.heap q.size q.head).map (·.2)

end AlgoQ

variable {α : Type} {etime : α → UInt64}

/-! ## Section 2: The representation -/

/-- The heap holds the list, and nothing else; `size` is its length. -/
structure AlgoQ.Holds (q : AlgoQ α) (l : List (Nat × α)) : Prop
    extends Rep q.heap q.head q.last l where
  size : q.size = l.length

theorem AlgoQ.create_holds : (AlgoQ.create : AlgoQ α).Holds [] := ⟨Rep.nil, rfl⟩

theorem AlgoQ.Holds.queued {q : AlgoQ α} {l : List (Nat × α)} (h : q.Holds l) :
    q.queued = l.map (·.2) := by
  unfold AlgoQ.queued
  rw [h.followNext (Nat.le_of_eq h.size.symm)]

/-- The scan cuts the list behind the last node where it stops. -/
theorem scan_eq {heap : Heap α} {stop : α → Bool} {fuel : Nat} {l : List (Nat × α)}
    {n : Option Nat} (hs : Seg heap none l n) (hfuel : l.length ≤ fuel) :
    ∃ l₁ l₂, l = l₁ ++ l₂ ∧ AlgoQ.scan heap stop fuel (final none l) = some (final none l₁) ∧
      (∀ e ∈ l₂, stop e.2 = false) ∧ ∀ l₀ e, l₁ = l₀ ++ [e] → stop e.2 = true := by
  induction l using List.reverseRecOn generalizing n fuel with
  | nil =>
    refine ⟨[], [], rfl, ?_, fun e he => (by cases he), fun l₀ e he => ?_⟩
    · cases fuel with
      | zero => rfl
      | succ fuel => rfl
    · exact absurd he (by simp)
  | append_singleton l e ih =>
    rw [List.length_append] at hfuel
    cases fuel with
    | zero => cases hfuel
    | succ fuel =>
      rw [final_concat]
      have hscan : AlgoQ.scan heap stop (fuel + 1) (some e.1) =
          if stop e.2 then some (some e.1) else AlgoQ.scan heap stop fuel (final none l) := by
        show (heap e.1).bind _ = _
        rw [hs.node]
        rfl
      rw [hscan]
      -- The scan comes from the last node: it stops at `e`, or goes on in front of it.
      by_cases hstop : stop e.2 = true
      · rw [if_pos hstop]
        refine ⟨l ++ [e], [], (List.append_nil _).symm, (by rw [final_concat]),
          fun e' he' => (by cases he'), fun l₀ e' he' => ?_⟩
        obtain ⟨-, heq⟩ := List.append_inj' he' rfl
        rw [← List.singleton_inj.mp heq]
        exact hstop
      · rw [if_neg hstop]
        obtain ⟨l₁, l₂, rfl, hres, hnot, hlast⟩ := ih (Seg.append_iff.mp hs).1
          (Nat.le_of_succ_le_succ hfuel)
        refine ⟨l₁, l₂ ++ [e], List.append_assoc .., hres, fun e' he' => ?_, hlast⟩
        rcases List.mem_append.mp he' with he' | he'
        · exact hnot e' he'
        · rw [List.mem_singleton.mp he']
          exact Bool.not_eq_true _ ▸ hstop

/-- An insertion puts the payload behind the last one where the scan stops. -/
theorem AlgoQ.Holds.insertSorted {q : AlgoQ α} {l : List (Nat × α)} {entry : Nat}
    (h : q.Holds l) (hnew : q.heap entry = none) (etime : α → UInt64) (x : α) :
    ∃ q' l₁ l₂, q.insertSorted etime entry x = some q' ∧ l = l₁ ++ l₂ ∧
      q'.Holds (l₁ ++ (entry, x) :: l₂) ∧
      (∀ e ∈ l₂, AlgoQ.stops (etime x) (etime e.2) = false) ∧
      ∀ l₀ e, l₁ = l₀ ++ [e] → AlgoQ.stops (etime x) (etime e.2) = true := by
  have hfresh := h.toRep.fresh hnew x
  generalize hheap : (Function.update q.heap entry (some ⟨x, none, none⟩) : Heap α) = heap at hfresh
  have hsize : ∀ l₁ l₂, l = l₁ ++ l₂ → q.size + 1 = (l₁ ++ (entry, x) :: l₂).length := by
    intro l₁ l₂ hl
    rw [h.size, hl]
    simp only [List.length_append, List.length_cons]
    omega
  unfold AlgoQ.insertSorted
  rw [hnew, if_neg (by simp), hheap]
  cases l with
  -- Into an empty queue, the node becomes head and last.
  | nil =>
    have hhead : q.head = none := h.head
    have hlast : q.last = none := h.last
    rw [if_pos hhead, if_pos hlast]
    have hone : Wrote heap heap [] := ⟨fun _ _ => rfl, fun _ => rfl⟩
    have hrep := @Fresh.rep _ _ _ [] [] _ _ hfresh hone hfresh.node
    exact ⟨_, [], [], rfl, rfl, ⟨hrep, hsize [] [] rfl⟩, fun e he => (by cases he),
      fun l₀ e he => absurd he (by simp)⟩
  | cons c l =>
    have hhead : q.head = some c.1 := h.head
    have hstop := @scan_eq _ heap (fun p => AlgoQ.stops (etime x) (etime p)) q.size _ _ hfresh.seg
      (Nat.le_of_eq h.size.symm)
    rw [← h.last] at hstop
    obtain ⟨l₁, l₂, hl, hscan, hbehind, hlast⟩ := hstop
    rw [if_neg (by rw [hhead]; exact Option.some_ne_none _)]
    simp only [Option.bind_eq_bind, hscan, Option.bind_some]
    rcases List.eq_nil_or_concat' l₁ with rfl | ⟨l₀, b, rfl⟩
    · -- In front of the head.
      cases hl
      obtain ⟨h₁, h₂, h', hp₁, hp₂, hn₂, hrep⟩ := hfresh.front
      rw [← h.last] at hrep
      refine ⟨⟨h', some entry, q.last, q.size + 1⟩, [], c :: l, ?_, rfl,
        ⟨hrep, hsize [] _ rfl⟩, hbehind, hlast⟩
      simp only [final, hp₁, hhead, Option.bind_some, hp₂, hn₂]
      rfl
    · -- Behind `b`; the links of the new node first.
      rw [final_concat]
      have hfirst := h.head
      have hfinal := h.last
      rw [hl] at hfresh hfirst hfinal
      have hnode := (Seg.append_iff.mp hfresh.seg).1.node
      cases l₂ with
      | nil =>
        rw [List.append_nil] at hfresh hfirst
        obtain ⟨h₁, h₂, h', hp₁, hn₂, hn₃, hrep⟩ := hfresh.back
        rw [← hfirst] at hrep
        refine ⟨⟨h', q.head, some entry, q.size + 1⟩, l₀ ++ [b], [], ?_, hl,
          ⟨hrep, hsize _ _ hl⟩, hbehind, hlast⟩
        simp only [hnode, first, if_pos, hp₁, hn₂, hn₃, Option.bind_some]
        rfl
      | cons d l₂ =>
        obtain ⟨h₁, h₂, h₃, h', hp₁, hn₂, hp₃, hn₄, hrep⟩ := hfresh.between
        rw [← hfirst, ← hfinal] at hrep
        refine ⟨⟨h', q.head, q.last, q.size + 1⟩, l₀ ++ [b], d :: l₂, ?_, hl,
          ⟨hrep, hsize _ _ hl⟩, hbehind, hlast⟩
        simp only [hnode, first, Option.bind_some]
        rw [if_neg (Option.some_ne_none _)]
        simp only [hp₁, hn₂, hp₃, hn₄, Option.bind_some]
        rfl

theorem AlgoQ.Holds.dequeue_nil {q : AlgoQ α} (h : q.Holds []) : q.dequeue = some (none, q) := by
  have hhead : q.head = none := h.head
  unfold AlgoQ.dequeue
  rw [hhead]

/-- A dequeue takes the head. -/
theorem AlgoQ.Holds.dequeue {q : AlgoQ α} {e : Nat × α} {l : List (Nat × α)}
    (h : q.Holds (e :: l)) : ∃ q', q.dequeue = some (some e.2, q') ∧ q'.Holds l := by
  have hhead : q.head = some e.1 := h.head
  have hnode := h.seg.1
  obtain ⟨hnot, hnodup⟩ := List.nodup_cons.mp h.nodup
  have hsize : q.size - 1 = l.length := by
    rw [h.size, List.length_cons]
    rfl
  -- Freeing the head, whatever has been written to the other nodes.
  have halloc : ∀ {heap : Heap α}, (∀ a, (heap a).isSome = (q.heap a).isSome) →
      ∀ a, ((Function.update heap e.1 none) a).isSome = true ↔ a ∈ l.map (·.1) := by
    intro heap hsame a
    by_cases ha : a = e.1
    · rw [ha, Function.update_self]
      exact ⟨fun hs => (by cases hs), fun hmem => absurd hmem hnot⟩
    · rw [Function.update_of_ne ha, hsame, h.alloc, List.map_cons, List.mem_cons]
      exact or_iff_right ha
  unfold AlgoQ.dequeue
  simp only [hhead, Option.bind_eq_bind, hnode, Option.bind_some]
  cases l with
  | nil =>
    exact ⟨⟨Function.update q.heap e.1 none, none, none, q.size - 1⟩, rfl,
      ⟨⟨rfl, rfl, trivial, hnodup, halloc fun _ => rfl⟩, hsize⟩⟩
  | cons c l =>
    -- The next node becomes the head, and its link to the old head is cleared first.
    obtain ⟨heap, hprev, hw, hs⟩ := @Seg.setPrev _ _ _ _ none _ _ h.seg.2
      (List.nodup_cons.mp hnodup).1
    refine ⟨⟨Function.update heap e.1 none, some c.1, q.last, q.size - 1⟩, ?_,
      ⟨⟨rfl, h.last, hs.free hnot, hnodup, halloc hw.alloc⟩, hsize⟩⟩
    simp only [first, hprev, Option.bind_some]
    rfl

/-! ## Section 3: The slack -/

/-- No payload stands in front of one that is earlier by more than a microsecond. -/
def WithinSlack (etime : α → UInt64) (xs : List α) : Prop :=
  xs.Pairwise fun y z => (etime y).toNat ≤ (etime z).toNat + 1000

/-- No payload that is later than `x` by more than a microsecond stands in front of one that
    is not. -/
def SlackOk (etime : α → UInt64) (xs : List α) (x : α) : Prop :=
  xs.Pairwise fun y z => (etime y).toNat ≤ (etime x).toNat + 1000 ∨
    (etime x).toNat + 1000 < (etime z).toNat

instance (xs : List α) (x : α) : Decidable (SlackOk etime xs x) :=
  inferInstanceAs (Decidable (List.Pairwise _ _))

theorem le_of_stops {t curr : UInt64} (h : AlgoQ.stops t curr = true) :
    curr.toNat ≤ t.toNat + 1000 := by
  rcases (Bool.or_eq_true ..).mp h with hle | hle
  · have hnat := UInt64.le_iff_toNat_le.mp (of_decide_eq_true hle)
    omega
  · have hnat := UInt64.le_iff_toNat_le.mp (of_decide_eq_true hle)
    rw [UInt64.toNat_add] at hnat
    exact Nat.le_trans hnat (Nat.mod_le ..)

/-- Where the scan goes on the time is later than the slack allows, unless the sum wraps:
    then no time is. -/
theorem lt_of_not_stops {t curr : UInt64} (h : AlgoQ.stops t curr = false) :
    t.toNat < curr.toNat ∧ (t.toNat + 1000 < curr.toNat ∨ 2 ^ 64 ≤ t.toNat + 1000) := by
  obtain ⟨h₁, h₂⟩ := (Bool.or_eq_false_iff ..).mp h
  have hlt := fun hle => of_decide_eq_false h₁ (UInt64.le_iff_toNat_le.mpr hle)
  have hlt' := fun hle => of_decide_eq_false h₂ (UInt64.le_iff_toNat_le.mpr hle)
  rw [UInt64.toNat_add] at hlt'
  refine ⟨Nat.not_le.mp hlt, ?_⟩
  by_cases hwrap : 2 ^ 64 ≤ t.toNat + 1000
  · exact Or.inr hwrap
  · refine Or.inl (Nat.not_le.mp fun hle => hlt' ?_)
    show curr.toNat ≤ (t.toNat + 1000) % 2 ^ 64
    rwa [Nat.mod_eq_of_lt (Nat.not_le.mp hwrap)]

/-- An insertion keeps the slack exactly if `SlackOk` holds before it. -/
theorem insert_withinSlack_iff {xs ys : List α} {x : α} (h : WithinSlack etime (xs ++ ys))
    (hys : ∀ y ∈ ys, AlgoQ.stops (etime x) (etime y) = false)
    (hxs : ∀ xs₀ y, xs = xs₀ ++ [y] → AlgoQ.stops (etime x) (etime y) = true) :
    WithinSlack etime (xs ++ x :: ys) ↔ SlackOk etime (xs ++ ys) x := by
  obtain ⟨hxs', hys', hcross⟩ := List.pairwise_append.mp h
  constructor
  · intro hnew
    have hfront := (List.pairwise_append.mp hnew).2.2
    refine List.pairwise_append.mpr ⟨?_, ?_, fun y hy z _ => ?_⟩
    · exact hxs'.imp_of_mem fun hy _ _ => Or.inl (hfront _ hy x (List.mem_cons_self ..))
    -- The scan ran past those behind: their times are later, unless the sum wraps.
    · refine hys'.imp_of_mem fun {y z} hy hz _ => ?_
      have hlt := (UInt64.toNat_lt (etime y))
      rcases (lt_of_not_stops (hys z hz)).2 with hz | hwrap
      · exact Or.inr hz
      · exact Or.inl (by omega)
    · exact Or.inl (hfront _ hy x (List.mem_cons_self ..))
  · intro hok
    have hback : ∀ y ∈ ys, (etime x).toNat ≤ (etime y).toNat + 1000 := fun y hy => by
      have hlt := (lt_of_not_stops (hys y hy)).1
      omega
    refine List.pairwise_append.mpr ⟨hxs', List.pairwise_cons.mpr ⟨hback, hys'⟩, ?_⟩
    intro y hy z hz
    rcases List.mem_cons.mp hz with rfl | hz
    · -- The last payload in front is within the slack, and those before it if it is.
      obtain ⟨xs₀, w, rfl⟩ := (List.eq_nil_or_concat' xs).resolve_left (List.ne_nil_of_mem hy)
      have hw := le_of_stops (hxs xs₀ w rfl)
      rcases List.mem_append.mp hy with hy | hy
      · have hpair := (List.pairwise_append.mp (List.pairwise_append.mp hok).1).2.2 y hy w
          (List.mem_singleton_self _)
        omega
      · rw [List.mem_singleton.mp hy]
        exact hw
    · exact hcross y hy z hz

/-! ## Section 4: All runs -/

inductive AlgoCall (α : Type) where
  | insert (entry : Nat) (payload : α)
  | dequeue

/-- The queue beside its history. -/
structure Retry (α : Type) where
  q : AlgoQ α
  inserted : List α
  left : List α

def retryMachine (etime : α → UInt64) : Machine (Retry α) (AlgoCall α) where
  init s := s = ⟨AlgoQ.create, [], []⟩
  next s
    | .insert entry payload => (s.q.insertSorted etime entry payload).map fun q =>
        { s with q := q, inserted := s.inserted ++ [payload] }
    | .dequeue => s.q.dequeue.map fun (payload, q) =>
        { s with q := q, left := s.left ++ payload.toList }

/-- The insertions of a run that keep the slack. -/
def insertOk (etime : α → UInt64) (s : Retry α) : AlgoCall α → Prop
  | .insert _ payload => SlackOk etime s.q.queued payload
  | .dequeue => True

/-- The payloads with one time, in order of insertion: first those that have left, then those
    in the queue. -/
def Retry.Ordered (etime : α → UInt64) (s : Retry α) : Prop :=
  ∀ t, (s.left ++ s.q.queued).filter (fun x => etime x = t) =
    s.inserted.filter fun x => etime x = t

/-- An insertion, by where the payload goes. -/
theorem next_insert {s s' : Retry α} {l : List (Nat × α)} {entry : Nat} {x : α}
    (h : s.q.Holds l) (hn : (retryMachine etime).next s (.insert entry x) = some s') :
    ∃ l₁ l₂, l = l₁ ++ l₂ ∧ s'.q.Holds (l₁ ++ (entry, x) :: l₂) ∧ s'.left = s.left ∧
      s'.inserted = s.inserted ++ [x] ∧
      (∀ e ∈ l₂, AlgoQ.stops (etime x) (etime e.2) = false) ∧
      ∀ l₀ e, l₁ = l₀ ++ [e] → AlgoQ.stops (etime x) (etime e.2) = true := by
  obtain ⟨q, hq, rfl⟩ := Option.map_eq_some_iff.mp hn
  have hnew : s.q.heap entry = none := by
    unfold AlgoQ.insertSorted at hq
    rw [← Option.not_isSome_iff_eq_none]
    intro hs
    rw [if_pos hs] at hq
    cases hq
  obtain ⟨q', l₁, l₂, hq', hl, hholds, hbehind, hlast⟩ := h.insertSorted hnew etime x
  rw [hq', Option.some.injEq] at hq
  subst hq
  exact ⟨l₁, l₂, hl, hholds, rfl, rfl, hbehind, hlast⟩

/-- A dequeue of a queue with a head. -/
theorem next_dequeue (etime : α → UInt64) {s : Retry α} {e : Nat × α} {l : List (Nat × α)}
    (h : s.q.Holds (e :: l)) : ∃ s', (retryMachine etime).next s .dequeue = some s' ∧ s'.q.Holds l ∧
      s'.left = s.left ++ [e.2] ∧ s'.inserted = s.inserted := by
  obtain ⟨q, hq, hl⟩ := h.dequeue
  refine ⟨{ s with q := q, left := s.left ++ [e.2] }, ?_, hl, rfl, rfl⟩
  show s.q.dequeue.map _ = _
  rw [hq]
  rfl

/-- A dequeue of an empty queue does nothing. -/
theorem next_dequeue_nil {s : Retry α} (h : s.q.Holds []) :
    (retryMachine etime).next s .dequeue = some s := by
  show s.q.dequeue.map _ = _
  rw [h.dequeue_nil]
  show some { s with left := s.left ++ [] } = some s
  rw [List.append_nil]

/-- The queue is a list, and payloads with one time keep their order. -/
theorem reach_ordered {ok : Retry α → AlgoCall α → Prop} {s : Retry α}
    (h : (retryMachine etime).Reach ok s) : (∃ l, s.q.Holds l) ∧ s.Ordered etime := by
  refine h.invariant (I := fun s => (∃ l, s.q.Holds l) ∧ s.Ordered etime) ?_ ?_
  · intro s hs
    subst hs
    exact ⟨⟨[], AlgoQ.create_holds⟩, fun t => rfl⟩
  · intro s s' c _ hI _ hn
    obtain ⟨⟨l, hl⟩, hord⟩ := hI
    cases c with
    | insert entry x =>
      obtain ⟨l₁, l₂, rfl, hl', hleft, hins, hbehind, -⟩ := next_insert hl hn
      refine ⟨⟨_, hl'⟩, fun t => ?_⟩
      have hold := hord t
      rw [hl.queued] at hold
      have hnew : (s.inserted ++ [x]).filter (fun y => etime y = t) =
          s.inserted.filter (fun y => etime y = t) ++ [x].filter fun y => etime y = t :=
        List.filter_append ..
      rw [hl'.queued, hleft, hins, hnew, ← hold]
      simp only [List.map_append, List.map_cons, List.filter_append, List.filter_cons,
        List.filter_nil, List.append_assoc]
      by_cases ht : etime x = t
      · -- Nothing behind has the time of the new payload.
        have hnone : (l₂.map (·.2)).filter (fun y => etime y = t) = [] := by
          refine List.filter_eq_nil_iff.mpr fun y hy => ?_
          obtain ⟨e, he, rfl⟩ := List.mem_map.mp hy
          have hlt := (lt_of_not_stops (hbehind e he)).1
          rw [ht] at hlt
          simp only [decide_eq_true_eq]
          intro heq
          rw [heq] at hlt
          exact absurd hlt (Nat.lt_irrefl _)
        rw [hnone, List.nil_append]
      · simp [ht]
    | dequeue =>
      cases l with
      | nil =>
        rw [next_dequeue_nil hl, Option.some.injEq] at hn
        subst hn
        exact ⟨⟨[], hl⟩, hord⟩
      | cons e l =>
        -- The payload moves from the queue to what has left.
        obtain ⟨s₁, hs₁, hl₁, hleft, hins⟩ := next_dequeue etime hl
        rw [hs₁, Option.some.injEq] at hn
        subst hn
        refine ⟨⟨l, hl₁⟩, fun t => ?_⟩
        have hold := hord t
        rw [hl.queued] at hold
        rw [hl₁.queued, hleft, hins, ← hold, List.append_assoc]
        rfl

/-- The slack survives an insertion under `SlackOk` only. -/
theorem next_insert_withinSlack_iff {s s' : Retry α} {l : List (Nat × α)} {entry : Nat} {x : α}
    (h : s.q.Holds l) (hslack : WithinSlack etime s.q.queued)
    (hn : (retryMachine etime).next s (.insert entry x) = some s') :
    WithinSlack etime s'.q.queued ↔ SlackOk etime s.q.queued x := by
  obtain ⟨l₁, l₂, rfl, hl', -, -, hbehind, hlast⟩ := next_insert h hn
  rw [h.queued, List.map_append] at hslack ⊢
  rw [hl'.queued, List.map_append, List.map_cons]
  refine insert_withinSlack_iff hslack (fun y hy => ?_) fun xs₀ y hxs => ?_
  · obtain ⟨e, he, rfl⟩ := List.mem_map.mp hy
    exact hbehind e he
  · rcases List.eq_nil_or_concat' l₁ with rfl | ⟨l₀, e, rfl⟩
    · exact absurd hxs (by simp)
    · rw [List.map_append] at hxs
      obtain ⟨-, heq⟩ := List.append_inj' hxs rfl
      rw [← List.singleton_inj.mp heq]
      exact hlast l₀ e rfl

/-- The slack of the queue, in runs whose insertions keep it. -/
theorem reach_withinSlack {s : Retry α} (h : (retryMachine etime).Reach (insertOk etime) s) :
    WithinSlack etime s.q.queued := by
  refine h.invariant (I := fun s => WithinSlack etime s.q.queued) ?_ ?_
  · intro s hs
    subst hs
    exact List.Pairwise.nil
  · intro s s' c hr hI hok hn
    obtain ⟨l, hl⟩ := (reach_ordered hr).1
    cases c with
    | insert entry x => exact (next_insert_withinSlack_iff hl hI hn).mpr hok
    | dequeue =>
      rw [hl.queued] at hI
      cases l with
      | nil =>
        rw [next_dequeue_nil hl, Option.some.injEq] at hn
        subst hn
        rwa [hl.queued]
      | cons e l =>
        obtain ⟨s₁, hs₁, hl₁, -, -⟩ := next_dequeue etime hl
        rw [hs₁, Option.some.injEq] at hn
        subst hn
        rw [hl₁.queued]
        exact (List.pairwise_cons.mp hI).2

/-- Dequeues until the front of the queue has left. -/
theorem exec_dequeue (etime : α → UInt64) {s : Retry α} {l₁ l₂ : List (Nat × α)}
    (h : s.q.Holds (l₁ ++ l₂)) :
    ∃ t, (retryMachine etime).exec s (List.replicate l₁.length .dequeue) = some t ∧
      t.q.Holds l₂ := by
  induction l₁ generalizing s with
  | nil => exact ⟨s, rfl, h⟩
  | cons e l₁ ih =>
    obtain ⟨s₁, hs₁, hl₁, -, -⟩ := next_dequeue etime h
    obtain ⟨t, ht, hl₂⟩ := ih hl₁
    refine ⟨t, ?_, hl₂⟩
    show ((retryMachine etime).next s .dequeue).bind _ = _
    rw [hs₁]
    exact ht

/-- A list that is not pairwise related has a pair that is not. -/
theorem exists_not_of_not_pairwise {R : α → α → Prop} {xs : List α} (h : ¬ xs.Pairwise R) :
    ∃ xs₁ y xs₂ z, xs = xs₁ ++ y :: xs₂ ∧ z ∈ xs₂ ∧ ¬ R y z := by
  induction xs with
  | nil => exact absurd List.Pairwise.nil h
  | cons y xs ih =>
    by_cases htail : xs.Pairwise R
    · rw [List.pairwise_cons, not_and_or] at h
      obtain ⟨z, hz⟩ := not_forall.mp (h.resolve_right (not_not_intro htail))
      obtain ⟨hmem, hR⟩ := Classical.not_imp.mp hz
      exact ⟨[], y, xs, z, rfl, hmem, hR⟩
    · obtain ⟨xs₁, w, xs₂, z, rfl, hmem, hR⟩ := ih htail
      exact ⟨y :: xs₁, w, xs₂, z, rfl, hmem, hR⟩

/-- Two lists with the same payloads of each time are permutations of each other. -/
theorem perm_of_filter_eq {xs ys : List α}
    (h : ∀ t, xs.filter (fun x => etime x = t) = ys.filter fun x => etime x = t) :
    xs.Perm ys := by
  classical
  refine List.perm_iff_count.mpr fun x => ?_
  have hxs : (xs.filter fun y => etime y = etime x).count x = xs.count x :=
    List.count_filter (by simp)
  have hys : (ys.filter fun y => etime y = etime x).count x = ys.count x :=
    List.count_filter (by simp)
  rw [← hxs, ← hys, h]

/-- The queue in every run: its links, its size, and no request lost, duplicated or overtaken
    by one of the same time. A dequeue keeps the slack in the runs whose insertions meet
    `SlackOk`; once an insertion does not, some dequeue of the queue breaks it. -/
theorem retry_queue_order (etime : α → UInt64) :
    (∀ s, (retryMachine etime).Reachable s →
      (∃ l, followNext s.q.heap s.q.size s.q.head = l ∧
        followPrev s.q.heap s.q.size s.q.last = l.reverse ∧ s.q.size = l.length ∧
        (l.map (·.1)).Nodup ∧ ∀ a, (s.q.heap a).isSome = true ↔ a ∈ l.map (·.1)) ∧
      (s.left ++ s.q.queued).Perm s.inserted ∧ s.Ordered etime ∧
      ∀ c, (retryMachine etime).next s c = none ↔
        ∃ entry x, c = .insert entry x ∧ (s.q.heap entry).isSome = true) ∧
    (∀ s, (retryMachine etime).Reach (insertOk etime) s → ∀ s' x,
      (retryMachine etime).next s .dequeue = some s' → s'.left = s.left ++ [x] →
      ∀ y ∈ s'.q.queued, (etime x).toNat ≤ (etime y).toNat + 1000) ∧
    ∀ s, (retryMachine etime).Reach (insertOk etime) s → ∀ entry x s',
      (retryMachine etime).next s (.insert entry x) = some s' →
      ¬ insertOk etime s (.insert entry x) →
      ∃ n t t' y, (retryMachine etime).exec s' (List.replicate n .dequeue) = some t ∧
        (retryMachine etime).next t .dequeue = some t' ∧ t'.left = t.left ++ [y] ∧
        ∃ z ∈ t'.q.queued, (etime z).toNat + 1000 < (etime y).toNat := by
  refine ⟨fun s hs => ?_, fun s hs s' x hn hleft => ?_, fun s hs entry x s' hn hok => ?_⟩
  · obtain ⟨⟨l, hl⟩, hord⟩ := reach_ordered hs
    have hfuel := Nat.le_of_eq hl.size.symm
    refine ⟨⟨l, hl.followNext hfuel, hl.followPrev hfuel, hl.size, hl.nodup, hl.alloc⟩,
      perm_of_filter_eq hord, hord, fun c => ?_⟩
    cases c with
    | insert entry x =>
      -- An insertion is refused for a node that is in the queue already, and for no other.
      constructor
      · intro hnone
        refine ⟨entry, x, rfl, ?_⟩
        by_contra hfree
        obtain ⟨q', -, -, hq', -⟩ :=
          hl.insertSorted (Option.not_isSome_iff_eq_none.mp hfree) etime x
        have hnone : (s.q.insertSorted etime entry x).map _ = none := hnone
        rw [hq'] at hnone
        cases hnone
      · rintro ⟨entry', x', heq, hsome⟩
        cases heq
        show (s.q.insertSorted etime entry x).map _ = none
        unfold AlgoQ.insertSorted
        rw [if_pos hsome]
        rfl
    | dequeue =>
      refine ⟨fun hnone => ?_, fun ⟨_, _, heq, _⟩ => (by cases heq)⟩
      cases l with
      | nil =>
        rw [next_dequeue_nil hl] at hnone
        cases hnone
      | cons e l =>
        obtain ⟨s₁, hs₁, -⟩ := next_dequeue etime hl
        rw [hs₁] at hnone
        cases hnone
  · have hslack := reach_withinSlack hs
    obtain ⟨l, hl⟩ := (reach_ordered hs).1
    rw [hl.queued] at hslack
    cases l with
    | nil =>
      rw [next_dequeue_nil hl, Option.some.injEq] at hn
      subst hn
      exact absurd hleft (by simp)
    | cons e l =>
      obtain ⟨s₁, hs₁, hl₁, hleft₁, -⟩ := next_dequeue etime hl
      rw [hs₁, Option.some.injEq] at hn
      subst hn
      rw [hleft₁] at hleft
      obtain ⟨-, heq⟩ := List.append_inj' hleft rfl
      rw [hl₁.queued, ← List.singleton_inj.mp heq]
      exact (List.pairwise_cons.mp hslack).1
  · have hslack := reach_withinSlack hs
    obtain ⟨l, hl⟩ := (reach_ordered hs).1
    have hbroken : ¬ WithinSlack etime s'.q.queued := fun hw =>
      hok ((next_insert_withinSlack_iff hl hslack hn).mp hw)
    obtain ⟨l₁, l₂, rfl, hl', -⟩ := next_insert hl hn
    -- Dequeue everything in front of the pair that breaks the slack.
    rw [hl'.queued] at hbroken
    obtain ⟨xs₁, y, xs₂, z, hxs, hz, hyz⟩ := exists_not_of_not_pairwise hbroken
    obtain ⟨k₁, k₂, hk, hk₁, hk₂⟩ := List.map_eq_append_iff.mp hxs
    obtain ⟨e, k₃, rfl, rfl, rfl⟩ := List.map_eq_cons_iff.mp hk₂
    rw [hk] at hl'
    obtain ⟨t, ht, hkt⟩ := exec_dequeue etime hl'
    obtain ⟨t', ht', hk', hleft, -⟩ := next_dequeue etime hkt
    refine ⟨k₁.length, t, t', e.2, ht, ht', hleft, z, ?_, Nat.not_le.mp hyz⟩
    rwa [hk'.queued]

/-- The slack adds up: 1000 goes behind 2000, and 0 behind 1000. -/
theorem retry_slack_counterexample : ¬ ∀ (s s' : Retry UInt64) (x : UInt64),
    (retryMachine id).Reachable s → (retryMachine id).next s .dequeue = some s' →
    s'.left = s.left ++ [x] → ∀ y ∈ s'.q.queued, x.toNat ≤ y.toNat + 1000 := by
  intro hclaim
  have hrun : ∃ s s', (@retryMachine UInt64 id).exec ⟨AlgoQ.create, [], []⟩
      [.insert 0 2000, .insert 1 1000, .insert 2 0] = some s ∧
      (retryMachine id).next s .dequeue = some s' ∧ s'.left = s.left ++ [2000] ∧
      0 ∈ s'.q.queued := ⟨_, _, rfl, rfl, rfl, by decide⟩
  obtain ⟨s, s', hexec, hn, hleft, hmem⟩ := hrun
  have hs := (Machine.Reachable.init (M := @retryMachine UInt64 id) rfl).exec hexec
  have hle := hclaim s s' 2000 hs hn hleft 0 hmem
  exact absurd hle (by decide)

end AggreKV.HashKv
