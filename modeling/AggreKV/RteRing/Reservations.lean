import AggreKV.RteRing.Threads

/-! # Reservations

    Moving a head reserves a stretch of the counter, storing the tail gives
    it back. The reservations of either side tile what lies between its tail
    and its head, so no two threads access one slot, and the tails advance
    in the order of the heads.

    * `Local`: what a thread knows at each point of its call.
    * `Sound`: the invariant.
    * `Frame`: what a thread relies on while others step.
    * `Sound.goto`, `Sound.reserve`, `Sound.write`, `Sound.read`, `Sound.publish`: the steps. -/

namespace AggreKV.RteRing

variable {α : Type*}

/-! ## Section 1: The invariant -/

/-- The number up to which a head may move. -/
def limit (r : Ring) (g : Ghost α) : Side → Nat
  | .prod => g.tail .cons + r.capacity
  | .cons => g.tail .prod

/-- The elements of the call: given by the caller, or taken from the queue. -/
def Op.values (owed : List α) : Op α → List α
  | .enqueue objs _ => objs
  | .dequeue _ _ => owed

/-- The length of the reservation of a thread, and its side. -/
def Pc.stretch : Pc α → Option (Side × Nat)
  | .copy op _ n _ => some (op.side, n)
  | .wait op _ n _ => some (op.side, n)
  | .publish op _ n _ => some (op.side, n)
  | _ => none

/-- The reservation on one side, when the thread has seen `saw`. -/
def Pc.held (pc : Pc α) (saw : Nat) (d : Side) : Option (Nat × Nat) :=
  match pc.stretch with
  | some (e, n) => if e = d then some (saw, n) else none
  | none => none

/-- Who holds what. -/
def held (s : Sys α) (g : Ghost α) (d : Side) (t : Nat) : Option (Nat × Nat) :=
  (s.pc t).held (g.saw t) d

/-- The thread has loaded the head `old`. -/
structure Seen (s : Sys α) (g : Ghost α) (t : Nat) (d : Side) (old : Nat) : Prop where
  old_eq : old = u32 (g.saw t)
  le_head : g.saw t ≤ g.head d
  le_limit : g.saw t ≤ limit s.ring g d
  sole : (s.ring.ht d).single = true → g.saw t = g.head d

/-- A counting thread has loaded the producers' tail. -/
structure Counting (s : Sys α) (g : Ghost α) (t prodTail : Nat) : Prop where
  tail_eq : prodTail = u32 (g.saw t)
  le_tail : g.saw t ≤ g.tail .prod
  sole : s.ring.cons.single = true → g.tail .cons ≤ g.saw t

/-- The thread copies its `n` elements. -/
structure Copying (s : Sys α) (g : Ghost α) (t : Nat) (op : Op α) (old n : Nat)
    (moved : List α) : Prop where
  old_eq : old = u32 (g.saw t)
  len : moved.length ≤ n
  moved_eq : moved = (op.values (g.owed t)).take moved.length
  amount : op.behavior = .queueFixed → n = op.max
  carry : ∀ i, i < n → ∃ v, (op.values (g.owed t))[i]? = some v ∧ g.log[g.saw t + i]? = some v
  whole : op.side = .cons → (g.owed t).length = n
  filled : op.side = .prod → ∀ i, i < moved.length →
    g.log[g.saw t + i]? = some (s.slots ((g.saw t + i) % s.ring.size))

/-- What thread `t` knows at `pc`. -/
def Local (s : Sys α) (g : Ghost α) (t : Nat) : Pc α → Prop
  | .tail op old => Seen s g t op.side old
  | .move op old n => Seen s g t op.side old ∧ 0 < n ∧ n ≤ op.max ∧
      g.saw t + n ≤ limit s.ring g op.side ∧ (op.behavior = .queueFixed → n = op.max)
  | .copy op old n moved => Copying s g t op old n moved
  | .wait op old n moved => Copying s g t op old n moved ∧ moved.length = n
  | .publish op old n moved => Copying s g t op old n moved ∧ moved.length = n ∧
      g.saw t = g.tail op.side
  | .dequeued objs => objs = g.owed t
  | .countCons prodTail => Counting s g t prodTail
  | _ => True

/-- The invariant of the threads. -/
structure Sound (s : Sys α) (g : Ghost α) : Prop where
  form : s.ring.WellFormed
  head_eq : ∀ d, (s.ring.ht d).head = u32 (g.head d)
  tail_eq : ∀ d, (s.ring.ht d).tail = u32 (g.tail d)
  tiles : ∀ d, Tiling (held s g d) (g.tail d) (g.head d)
  ahead : g.head .cons ≤ g.tail .prod
  fits : g.head .prod ≤ g.tail .cons + s.ring.capacity
  sole : ∀ d, (s.ring.ht d).single = true → ∀ t u, s.Busy t d → s.Busy u d → t = u
  log_length : g.log.length = g.head .prod
  queue_eq : g.queue = (g.log.take (g.tail .prod)).drop (g.head .cons)
  filled : ∀ p, g.tail .cons ≤ p → p < g.tail .prod →
    g.log[p]? = some (s.slots (p % s.ring.size))
  threads : ∀ t, Local s g t (s.pc t)

/-! ## Section 2: Simple facts -/

@[simp] theorem goto_ring (s : Sys α) (t : Nat) (pc : Pc α) : (s.goto t pc).ring = s.ring := rfl

@[simp] theorem goto_slots (s : Sys α) (t : Nat) (pc : Pc α) : (s.goto t pc).slots = s.slots := rfl

@[simp] theorem goto_pc (s : Sys α) (t : Nat) (pc : Pc α) : (s.goto t pc).pc t = pc :=
  Function.update_self ..

@[simp] theorem goto_pc_ne (s : Sys α) {t u : Nat} (pc : Pc α) (h : u ≠ t) :
    (s.goto t pc).pc u = s.pc u := Function.update_of_ne h ..

@[simp] theorem setHead_size (r : Ring) (v : Nat) (d : Side) : (r.setHead v d).size = r.size := by
  cases d <;> rfl

@[simp] theorem setHead_mask (r : Ring) (v : Nat) (d : Side) : (r.setHead v d).mask = r.mask := by
  cases d <;> rfl

@[simp] theorem setHead_capacity (r : Ring) (v : Nat) (d : Side) :
    (r.setHead v d).capacity = r.capacity := by
  cases d <;> rfl

@[simp] theorem setTail_size (r : Ring) (v : Nat) (d : Side) : (r.setTail v d).size = r.size := by
  cases d <;> rfl

@[simp] theorem setTail_mask (r : Ring) (v : Nat) (d : Side) : (r.setTail v d).mask = r.mask := by
  cases d <;> rfl

@[simp] theorem setTail_capacity (r : Ring) (v : Nat) (d : Side) :
    (r.setTail v d).capacity = r.capacity := by
  cases d <;> rfl

theorem setHead_ht (r : Ring) (v : Nat) (d e : Side) :
    (r.setHead v d).ht e = if e = d then { r.ht e with head := v } else r.ht e := by
  cases d <;> cases e <;> rfl

theorem setTail_ht (r : Ring) (v : Nat) (d e : Side) :
    (r.setTail v d).ht e = if e = d then { r.ht e with tail := v } else r.ht e := by
  cases d <;> cases e <;> rfl

@[simp] theorem setHead_single (r : Ring) (v : Nat) (d e : Side) :
    ((r.setHead v d).ht e).single = (r.ht e).single := by
  cases d <;> cases e <;> rfl

@[simp] theorem setTail_single (r : Ring) (v : Nat) (d e : Side) :
    ((r.setTail v d).ht e).single = (r.ht e).single := by
  cases d <;> cases e <;> rfl

theorem WellFormed.setHead {r : Ring} (h : r.WellFormed) (v : Nat) (d : Side) :
    (r.setHead v d).WellFormed := by
  constructor
  · simpa using h.size_pow
  · simpa using h.mask_eq
  · simpa using h.capacity_lt

theorem WellFormed.setTail {r : Ring} (h : r.WellFormed) (v : Nat) (d : Side) :
    (r.setTail v d).WellFormed := by
  constructor
  · simpa using h.size_pow
  · simpa using h.mask_eq
  · simpa using h.capacity_lt

/-- Whoever holds something is in a call on that side. -/
theorem busy_of_held {s : Sys α} {g : Ghost α} {d : Side} {t : Nat} {x : Nat × Nat}
    (h : held s g d t = some x) : s.Busy t d := by
  unfold held Pc.held Pc.stretch at h
  unfold Sys.Busy Pc.uses
  cases hpc : s.pc t <;> simp [hpc] at h ⊢
  all_goals exact h.1

/-! ## Section 3: Steps of other threads -/

/-- What thread `u` relies on. -/
structure Frame (s : Sys α) (g : Ghost α) (s' : Sys α) (g' : Ghost α) (u : Nat) : Prop where
  size : s'.ring.size = s.ring.size
  capacity : s'.ring.capacity = s.ring.capacity
  single : ∀ d, (s'.ring.ht d).single = (s.ring.ht d).single
  head_le : ∀ d, g.head d ≤ g'.head d
  tail_le : ∀ d, g.tail d ≤ g'.tail d
  log : g.log <+: g'.log
  saw : g'.saw u = g.saw u
  owed : g'.owed u = g.owed u
  sole : ∀ d, (s.ring.ht d).single = true → s.Busy u d →
    g'.head d = g.head d ∧ g'.tail d = g.tail d
  turn : ∀ d n, held s g d u = some (g.tail d, n) → g'.tail d = g.tail d
  slots : ∀ n, held s g .prod u = some (g.saw u, n) → ∀ i, i < n →
    s'.slots ((g.saw u + i) % s.ring.size) = s.slots ((g.saw u + i) % s.ring.size)

variable {s s' : Sys α} {g g' : Ghost α} {t u : Nat}

theorem Frame.limit_le (h : Frame s g s' g' u) (d : Side) :
    limit s.ring g d ≤ limit s'.ring g' d := by
  cases d with
  | prod =>
    have htail := h.tail_le .cons
    have hcap := h.capacity
    unfold limit
    simp only []
    omega
  | cons => exact h.tail_le .prod

theorem Frame.log_some (h : Frame s g s' g' u) {i : Nat} {v : α} (hi : g.log[i]? = some v) :
    g'.log[i]? = some v := by
  obtain ⟨rest, hrest⟩ := h.log
  rw [← hrest, List.getElem?_append_left]
  · exact hi
  · exact (List.getElem?_eq_some_iff.mp hi).1

theorem Frame.seen (h : Frame s g s' g' u) {d : Side} {old : Nat} (hbusy : s.Busy u d)
    (hs : Seen s g u d old) : Seen s' g' u d old where
  old_eq := by
    rw [h.saw]
    exact hs.old_eq
  le_head := by
    rw [h.saw]
    exact Nat.le_trans hs.le_head (h.head_le d)
  le_limit := by
    rw [h.saw]
    exact Nat.le_trans hs.le_limit (h.limit_le d)
  sole := by
    intro hsingle
    rw [h.single] at hsingle
    rw [h.saw, (h.sole d hsingle hbusy).1]
    exact hs.sole hsingle

theorem Frame.copying (h : Frame s g s' g' u) {op : Op α} {old n : Nat} {moved : List α}
    (hheld : held s g op.side u = some (g.saw u, n)) (hs : Copying s g u op old n moved) :
    Copying s' g' u op old n moved where
  old_eq := by
    rw [h.saw]
    exact hs.old_eq
  len := hs.len
  moved_eq := by
    rw [h.owed]
    exact hs.moved_eq
  amount := hs.amount
  carry := by
    intro i hi
    obtain ⟨v, hv, hlog⟩ := hs.carry i hi
    rw [h.owed, h.saw]
    exact ⟨v, hv, h.log_some hlog⟩
  whole := by
    intro hside
    rw [h.owed]
    exact hs.whole hside
  -- The slots that a producer has filled are its own: the other thread left them alone.
  filled := by
    intro hside i hi
    have hlen := hs.len
    rw [hside] at hheld
    rw [h.saw, h.size, h.slots n hheld i (by omega)]
    exact h.log_some (hs.filled hside i hi)

theorem Frame.counting (h : Frame s g s' g' u) {prodTail : Nat} (hbusy : s.Busy u .cons)
    (hs : Counting s g u prodTail) : Counting s' g' u prodTail where
  tail_eq := by
    rw [h.saw]
    exact hs.tail_eq
  le_tail := by
    rw [h.saw]
    exact Nat.le_trans hs.le_tail (h.tail_le .prod)
  sole := by
    intro hsingle
    have hsingle : (s.ring.ht .cons).single = true := by
      rw [← h.single]
      exact hsingle
    rw [h.saw, (h.sole .cons hsingle hbusy).2]
    exact hs.sole hsingle

/-- A thread keeps what it knows. -/
theorem Frame.keeps (h : Frame s g s' g' u) (hl : Local s g u (s.pc u)) :
    Local s' g' u (s.pc u) := by
  have hbusy : ∀ d, (s.pc u).uses = some d → s.Busy u d := by
    intro d hd
    exact hd
  cases hpc : s.pc u with
  | idle => trivial
  | head op => trivial
  | tail op old =>
    rw [hpc] at hl
    exact h.seen (hbusy op.side (by rw [hpc]; rfl)) hl
  | move op old n =>
    rw [hpc] at hl
    obtain ⟨hseen, hpos, hmax, hlimit, hamount⟩ := hl
    refine ⟨h.seen (hbusy op.side (by rw [hpc]; rfl)) hseen, hpos, hmax, ?_, hamount⟩
    rw [h.saw]
    exact Nat.le_trans hlimit (h.limit_le op.side)
  | copy op old n moved =>
    rw [hpc] at hl
    apply h.copying _ hl
    simp [held, Pc.held, Pc.stretch, hpc]
  | wait op old n moved =>
    rw [hpc] at hl
    refine ⟨h.copying ?_ hl.1, hl.2⟩
    simp [held, Pc.held, Pc.stretch, hpc]
  -- It stays this thread's turn as long as it does not publish.
  | publish op old n moved =>
    rw [hpc] at hl
    obtain ⟨hcopy, hlen, hturn⟩ := hl
    have hheld : held s g op.side u = some (g.saw u, n) := by
      simp [held, Pc.held, Pc.stretch, hpc]
    refine ⟨h.copying hheld hcopy, hlen, ?_⟩
    rw [hturn] at hheld
    rw [h.saw, h.turn op.side n hheld]
    exact hturn
  | enqueued n => trivial
  | dequeued objs =>
    rw [hpc] at hl
    show objs = g'.owed u
    rw [h.owed]
    exact hl
  | countProd => trivial
  | countCons prodTail =>
    rw [hpc] at hl
    exact h.counting (hbusy .cons (by rw [hpc]; rfl)) hl
  | counted n => trivial

/-! ## Section 4: One thread moves on -/

theorem held_others {pc : Pc α} (hpc : s'.pc = Function.update s.pc t pc) (hne : u ≠ t)
    (hsaw : g'.saw u = g.saw u) (d : Side) : held s' g' d u = held s g d u := by
  unfold held
  rw [hpc, Function.update_of_ne hne, hsaw]

theorem held_self {pc : Pc α} (hpc : s'.pc = Function.update s.pc t pc) (d : Side) :
    held s' g' d t = pc.held (g'.saw t) d := by
  unfold held
  rw [hpc, Function.update_self]

theorem busy_others {pc : Pc α} (hpc : s'.pc = Function.update s.pc t pc) (hne : u ≠ t) (d : Side) :
    s'.Busy u d ↔ s.Busy u d := by
  unfold Sys.Busy
  rw [hpc, Function.update_of_ne hne]

/-- A single side has one user, also after thread `t` has moved to `pc`. -/
theorem Sound.sole_next (hs : Sound s g) {pc : Pc α} (hpc : s'.pc = Function.update s.pc t pc)
    (hsingle : ∀ d, (s'.ring.ht d).single = (s.ring.ht d).single)
    (hbusy : ∀ d, (s.ring.ht d).single = true → s'.Busy t d →
      s.Busy t d ∨ ∀ u, u ≠ t → ¬ s.Busy u d) :
    ∀ d, (s'.ring.ht d).single = true → ∀ a b, s'.Busy a d → s'.Busy b d → a = b := by
  intro d hd a b ha hb
  rw [hsingle] at hd
  -- Two users of a single side: the one that moved was there already, or found it free.
  by_cases hat : a = t
  · by_cases hbt : b = t
    · exact hat.trans hbt.symm
    · rw [busy_others hpc hbt] at hb
      rw [hat] at ha ⊢
      rcases hbusy d hd ha with hold | hnone
      · exact hs.sole d hd t b hold hb
      · exact absurd hb (hnone b hbt)
  · rw [busy_others hpc hat] at ha
    by_cases hbt : b = t
    · rw [hbt] at hb ⊢
      rcases hbusy d hd hb with hold | hnone
      · exact hs.sole d hd a t ha hold
      · exact absurd ha (hnone a hat)
    · rw [busy_others hpc hbt] at hb
      exact hs.sole d hd a b ha hb

/-- The moving thread knows what its new point asks for, the others what they knew. -/
theorem Sound.threads_next (hs : Sound s g) {pc : Pc α} (hpc : s'.pc = Function.update s.pc t pc)
    (hlocal : Local s' g' t pc) (hframe : ∀ u, u ≠ t → Frame s g s' g' u) :
    ∀ u, Local s' g' u (s'.pc u) := by
  intro u
  rw [hpc]
  by_cases hut : u = t
  · rw [hut, Function.update_self]
    exact hlocal
  · rw [Function.update_of_ne hut]
    exact (hframe u hut).keeps (hs.threads u)

/-- The history of thread `t` alone changes. -/
structure SameFor (g g' : Ghost α) (t : Nat) : Prop where
  head : g'.head = g.head
  tail : g'.tail = g.tail
  log : g'.log = g.log
  queue : g'.queue = g.queue
  saw : ∀ u, u ≠ t → g'.saw u = g.saw u
  owed : ∀ u, u ≠ t → g'.owed u = g.owed u

theorem SameFor.refl (g : Ghost α) (t : Nat) : SameFor g g t :=
  ⟨rfl, rfl, rfl, rfl, fun _ _ => rfl, fun _ _ => rfl⟩

theorem SameFor.see (g : Ghost α) (t head : Nat) : SameFor g (g.see t head) t :=
  ⟨rfl, rfl, rfl, rfl, fun _ hne => Function.update_of_ne hne .., fun _ _ => rfl⟩

theorem SameFor.owe (g : Ghost α) (t : Nat) (objs : List α) : SameFor g (g.owe t objs) t :=
  ⟨rfl, rfl, rfl, rfl, fun _ _ => rfl, fun _ hne => Function.update_of_ne hne ..⟩

/-- Steps that leave the ring and the reservations alone. -/
theorem Sound.goto (hs : Sound s g) {pc : Pc α} (hg : SameFor g g' t)
    (hheld : ∀ d, pc.held (g'.saw t) d = held s g d t)
    (hbusy : ∀ d, (s.ring.ht d).single = true → (s.goto t pc).Busy t d →
      s.Busy t d ∨ ∀ u, u ≠ t → ¬ s.Busy u d)
    (hlocal : Local (s.goto t pc) g' t pc) : Sound (s.goto t pc) g' where
  form := hs.form
  head_eq := by
    rw [hg.head]
    exact hs.head_eq
  tail_eq := by
    rw [hg.tail]
    exact hs.tail_eq
  tiles := by
    intro d
    rw [hg.head, hg.tail]
    apply (hs.tiles d).congr
    intro u
    by_cases hut : u = t
    · rw [hut, held_self rfl, hheld]
    · exact held_others rfl hut (hg.saw u hut) d
  ahead := by
    rw [hg.head, hg.tail]
    exact hs.ahead
  fits := by
    rw [hg.head, hg.tail]
    exact hs.fits
  sole := hs.sole_next rfl (fun _ => rfl) hbusy
  log_length := by
    rw [hg.log, hg.head]
    exact hs.log_length
  queue_eq := by
    rw [hg.queue, hg.log, hg.head, hg.tail]
    exact hs.queue_eq
  filled := by
    rw [hg.tail, hg.log]
    exact hs.filled
  -- The ring does not change, so the other threads see nothing of the step.
  threads := by
    apply hs.threads_next rfl hlocal
    intro u hut
    constructor
    · rfl
    · rfl
    · intro d
      rfl
    · intro d
      rw [hg.head]
    · intro d
      rw [hg.tail]
    · exact hg.log.symm ▸ List.prefix_rfl
    · exact hg.saw u hut
    · exact hg.owed u hut
    · intro d _ _
      rw [hg.head, hg.tail]
      exact ⟨rfl, rfl⟩
    · intro d n _
      rw [hg.tail]
    · intro n _ i _
      rfl

/-! ## Section 5: The bounds -/

theorem Sound.head_le_prod (hs : Sound s g) (d : Side) : g.head d ≤ g.head .prod := by
  cases d with
  | prod => exact Nat.le_refl _
  | cons => exact Nat.le_trans hs.ahead (hs.tiles .prod).le

theorem Sound.cons_le_tail (hs : Sound s g) (d : Side) : g.tail .cons ≤ g.tail d := by
  cases d with
  | prod => exact Nat.le_trans (hs.tiles .cons).le hs.ahead
  | cons => exact Nat.le_refl _

theorem Sound.limit_le_head (hs : Sound s g) (d : Side) :
    limit s.ring g d ≤ g.head d + s.ring.capacity := by
  have hprod := (hs.tiles .prod).le
  have hcons := (hs.tiles .cons).le
  have hahead := hs.ahead
  have hfits := hs.fits
  cases d <;> unfold limit <;> simp only [] <;> omega

theorem Sound.head_le_limit (hs : Sound s g) (d : Side) : g.head d ≤ limit s.ring g d := by
  cases d with
  | prod => exact hs.fits
  | cons => exact hs.ahead

/-- The entries that a thread computes are the ones there are. -/
theorem Sound.room_eq (hs : Sound s g) {d : Side} {old : Nat} (hseen : Seen s g t d old)
    (htime : g.head d + s.ring.capacity < g.saw t + 2 ^ 32) :
    s.ring.room d (s.ring.ht d.other).tail old = limit s.ring g d - g.saw t := by
  have hlimit := hs.limit_le_head d
  have hle := hseen.le_limit
  rw [hseen.old_eq, hs.tail_eq]
  -- The 32-bit difference is the exact one while the head is not a turn of the counter behind.
  cases d with
  | prod =>
    show sub32 (s.ring.capacity + u32 (g.tail .cons)) (u32 (g.saw t)) =
      g.tail .cons + s.ring.capacity - g.saw t
    have hlimit : g.tail .cons + s.ring.capacity ≤ g.head .prod + s.ring.capacity := hlimit
    have hle : g.saw t ≤ g.tail .cons + s.ring.capacity := hle
    have hsize := hs.form.size_le
    have hcap := hs.form.capacity_lt
    unfold sub32 u32
    omega
  | cons =>
    show sub32 (u32 (g.tail .prod)) (u32 (g.saw t)) = g.tail .prod - g.saw t
    have hlimit : g.tail .prod ≤ g.head .cons + s.ring.capacity := hlimit
    apply sub32_u32 hle
    omega

/-- Distinct positions in use have distinct slots. -/
theorem Sound.slot_ne (hs : Sound s g) {p q : Nat} (hp : g.tail .cons ≤ p) (hp' : p < g.head .prod)
    (hq : g.tail .cons ≤ q) (hq' : q < g.head .prod) (hne : p ≠ q) :
    p % s.ring.size ≠ q % s.ring.size := by
  intro heq
  have hfits := hs.fits
  have hcap := hs.form.capacity_lt
  apply hne
  apply Nat.ModEq.eq_of_abs_lt heq
  rw [abs_lt]
  constructor <;> omega

/-- What a thread holds is in use. -/
theorem Sound.held_in_use (hs : Sound s g) {d : Side} {a n : Nat} (h : held s g d t = some (a, n)) :
    g.tail .cons ≤ a ∧ a + n ≤ g.head .prod := by
  have hw := (hs.tiles d).within t a n h
  have htail := hs.cons_le_tail d
  have hhead := hs.head_le_prod d
  omega

/-! ## Section 6: Steps that reserve nothing -/

theorem burst_le (b : Behavior) (max entries : Nat) :
    burst b max entries ≤ max ∧ burst b max entries ≤ entries := by
  unfold burst
  split
  · cases b with
    | queueFixed => simp
    | queueVariable =>
      simp only []
      omega
  · omega

theorem held_of_stretch {d : Side} (h : (s.pc t).stretch = none) : held s g d t = none := by
  unfold held Pc.held
  rw [h]

theorem Op.result_stretch (op : Op α) (n : Nat) (moved : List α) :
    (op.result n moved).stretch = none := by
  cases op <;> rfl

theorem Op.result_uses (op : Op α) (n : Nat) (moved : List α) :
    (op.result n moved).uses = none := by
  cases op <;> rfl

theorem Pc.held_none {pc : Pc α} (h : pc.stretch = none) (saw : Nat) (d : Side) :
    pc.held saw d = none := by
  unfold Pc.held
  rw [h]

/-- A thread stays on its side. -/
theorem busy_same {pc pc' : Pc α} {d : Side} (hpc : s.pc t = pc) (h : s'.Busy t d)
    (hpc' : s'.pc = Function.update s.pc t pc') (huses : pc'.uses = pc.uses) : s.Busy t d := by
  unfold Sys.Busy at h ⊢
  rw [hpc', Function.update_self, huses] at h
  rw [hpc]
  exact h

theorem not_busy_of_uses {pc : Pc α} (hpc : pc.uses = none) (d : Side) :
    ¬ (s.goto t pc).Busy t d := by
  unfold Sys.Busy
  rw [goto_pc, hpc]
  simp

theorem stretch_of_resting (h : (s.pc t).resting = true) : (s.pc t).stretch = none := by
  cases hpc : s.pc t <;> simp [Pc.resting, Pc.stretch, hpc] at h ⊢

/-- A call begins. -/
theorem Sound.enter (hs : Sound s g) {pc : Pc α} {d : Side} (hrest : (s.pc t).resting = true)
    (hstretch : pc.stretch = none) (huses : pc.uses = some d)
    (hfair : (s.ring.ht d).single = true → ∀ u, u ≠ t → ¬ s.Busy u d)
    (hlocal : ∀ s : Sys α, Local s g t pc) : Sound (s.goto t pc) g := by
  apply hs.goto (.refl g t)
  · intro d
    rw [held_of_stretch (stretch_of_resting hrest), Pc.held_none hstretch]
  · intro e he hbusy
    right
    unfold Sys.Busy at hbusy
    rw [goto_pc, huses, Option.some.injEq] at hbusy
    rw [← hbusy] at he ⊢
    exact hfair he
  · exact hlocal _

/-- Its own head is loaded. -/
theorem Sound.load (hs : Sound s g) {op : Op α} (hpc : s.pc t = .head op) :
    Sound (s.goto t (.tail op (s.ring.ht op.side).head)) (g.see t (g.head op.side)) := by
  have hsaw : (g.see t (g.head op.side)).saw t = g.head op.side := Function.update_self ..
  apply hs.goto (.see g t _)
  · intro d
    rw [held_of_stretch (by rw [hpc]; rfl)]
    rfl
  · intro d _ hbusy
    left
    exact busy_same hpc hbusy rfl rfl
  · show Seen _ _ t op.side _
    constructor
    · rw [hsaw]
      exact hs.head_eq op.side
    · rw [hsaw]
      exact Nat.le_refl _
    · rw [hsaw]
      exact hs.head_le_limit op.side
    · intro _
      exact hsaw

theorem Sound.local_at (hs : Sound s g) {pc : Pc α} (hpc : s.pc t = pc) : Local s g t pc := by
  rw [← hpc]
  exact hs.threads t

/-- There is room for `n > 0` elements. -/
theorem Sound.choose (hs : Sound s g) {op : Op α} {old n : Nat} (hpc : s.pc t = .tail op old)
    (htime : InTime (s, g) t op.side)
    (hn : n = burst op.behavior op.max (s.ring.room op.side (s.ring.ht op.side.other).tail old))
    (hpos : n ≠ 0) : Sound (s.goto t (.move op old n)) g := by
  have hseen : Seen s g t op.side old := hs.local_at hpc
  have hburst := burst_le op.behavior op.max
    (s.ring.room op.side (s.ring.ht op.side.other).tail old)
  rw [← hn, hs.room_eq hseen htime] at hburst
  have hle := hseen.le_limit
  apply hs.goto (.refl g t)
  · intro d
    rw [held_of_stretch (by rw [hpc]; rfl)]
    rfl
  · intro d _ hbusy
    left
    exact busy_same hpc hbusy rfl rfl
  -- The amount chosen is within the free part that was seen.
  · refine ⟨⟨hseen.old_eq, hseen.le_head, hseen.le_limit, hseen.sole⟩, by omega, hburst.1, ?_, ?_⟩
    · show g.saw t + n ≤ limit s.ring g op.side
      omega
    · intro hfixed
      rw [hfixed] at hn
      unfold burst at hn
      split at hn
      · exact absurd hn hpos
      · exact hn

/-- The call returns with nothing. -/
theorem Sound.refuse (hs : Sound s g) {op : Op α} {old : Nat} (hpc : s.pc t = .tail op old) :
    Sound (s.goto t (op.result 0 [])) (g.owe t []) := by
  apply hs.goto (.owe g t [])
  · intro d
    rw [held_of_stretch (by rw [hpc]; rfl), Pc.held_none (op.result_stretch 0 [])]
  · intro d _ hbusy
    exact absurd hbusy (not_busy_of_uses (op.result_uses 0 []) d)
  · cases op with
    | enqueue objs b => trivial
    | dequeue count b =>
      show [] = Function.update g.owed t [] t
      exact (Function.update_self t [] g.owed).symm

/-- Another thread has moved the head: from the start. -/
theorem Sound.retry (hs : Sound s g) {op : Op α} {old n : Nat} (hpc : s.pc t = .move op old n) :
    Sound (s.goto t (.head op)) g := by
  apply hs.goto (.refl g t)
  · intro d
    rw [held_of_stretch (by rw [hpc]; rfl)]
    rfl
  · intro d _ hbusy
    left
    exact busy_same hpc hbusy rfl rfl
  · trivial

theorem held_at {pc : Pc α} {d : Side} {n : Nat} (hpc : s.pc t = pc)
    (hstretch : pc.stretch = some (d, n)) : held s g d t = some (g.saw t, n) := by
  unfold held Pc.held
  rw [hpc, hstretch]
  simp

theorem held_same {pc pc' : Pc α} (hpc : s.pc t = pc) (hstretch : pc'.stretch = pc.stretch)
    (d : Side) : pc'.held (g.saw t) d = held s g d t := by
  unfold held Pc.held
  rw [hpc, hstretch]

/-- All pointers are copied. -/
theorem Sound.copied (hs : Sound s g) {op : Op α} {old n : Nat} {moved : List α}
    (hpc : s.pc t = .copy op old n moved) (hall : moved.length = n) :
    Sound (s.goto t (.wait op old n moved)) g := by
  have hcopy : Copying s g t op old n moved := hs.local_at hpc
  apply hs.goto (.refl g t)
  · intro d
    exact held_same hpc rfl d
  · intro d _ hbusy
    left
    exact busy_same hpc hbusy rfl rfl
  · exact ⟨⟨hcopy.old_eq, hcopy.len, hcopy.moved_eq, hcopy.amount, hcopy.carry, hcopy.whole,
      hcopy.filled⟩, hall⟩

/-- The holder of a stretch has its turn when the tail shows its head. -/
theorem Sound.turn (hs : Sound s g) {d : Side} {old n : Nat}
    (hheld : held s g d t = some (g.saw t, n)) (hold : old = u32 (g.saw t))
    (htail : (s.ring.ht d).tail = old) : g.saw t = g.tail d := by
  have hw := (hs.tiles d).within t _ n hheld
  have huse := hs.held_in_use hheld
  have hfits := hs.fits
  have hlow := hs.cons_le_tail d
  have hcap := hs.form.capacity_lt
  have hsize := hs.form.size_le
  rw [hs.tail_eq, hold] at htail
  apply eq_of_u32 htail.symm hw.1
  omega

/-- On a single side it always has. -/
theorem Sound.turn_single (hs : Sound s g) {d : Side} {n : Nat}
    (hheld : held s g d t = some (g.saw t, n)) (hsingle : (s.ring.ht d).single = true) :
    g.saw t = g.tail d := by
  apply ((hs.tiles d).eq_of_sole hheld ?_).1
  intro u hut
  cases hu : held s g d u with
  | none => rfl
  | some x => exact absurd (hs.sole d hsingle u t (busy_of_held hu) (busy_of_held hheld)) hut

/-- The wait is over. -/
theorem Sound.arrive (hs : Sound s g) {op : Op α} {old n : Nat} {moved : List α}
    (hpc : s.pc t = .wait op old n moved)
    (h : (s.ring.ht op.side).single = true ∨ (s.ring.ht op.side).tail = old) :
    Sound (s.goto t (.publish op old n moved)) g := by
  obtain ⟨hcopy, hall⟩ : Copying s g t op old n moved ∧ moved.length = n := hs.local_at hpc
  have hheld : held s g op.side t = some (g.saw t, n) := held_at hpc rfl
  have hturn : g.saw t = g.tail op.side := by
    rcases h with hsingle | htail
    · exact hs.turn_single hheld hsingle
    · exact hs.turn hheld hcopy.old_eq htail
  apply hs.goto (.refl g t)
  · intro d
    exact held_same hpc rfl d
  · intro d _ hbusy
    left
    exact busy_same hpc hbusy rfl rfl
  · exact ⟨⟨hcopy.old_eq, hcopy.len, hcopy.moved_eq, hcopy.amount, hcopy.carry, hcopy.whole,
      hcopy.filled⟩, hall,
      hturn⟩

/-- A counting thread loads the producers' tail. -/
theorem Sound.count_prod (hs : Sound s g) (hpc : s.pc t = .countProd) :
    Sound (s.goto t (.countCons s.ring.prod.tail)) (g.see t (g.tail .prod)) := by
  have hsaw : (g.see t (g.tail .prod)).saw t = g.tail .prod := Function.update_self ..
  apply hs.goto (.see g t _)
  · intro d
    rw [held_of_stretch (by rw [hpc]; rfl)]
    rfl
  · intro d _ hbusy
    left
    exact busy_same hpc hbusy rfl rfl
  · show Counting _ _ t _
    constructor
    · rw [hsaw]
      exact hs.tail_eq .prod
    · rw [hsaw]
      exact Nat.le_refl _
    · intro _
      rw [hsaw]
      exact hs.cons_le_tail .prod

/-- It returns. -/
theorem Sound.count_cons (hs : Sound s g) {prodTail : Nat} (hpc : s.pc t = .countCons prodTail)
    (n : Nat) : Sound (s.goto t (.counted n)) g := by
  apply hs.goto (.refl g t)
  · intro d
    rw [held_of_stretch (by rw [hpc]; rfl)]
    rfl
  · intro d _ hbusy
    exact absurd hbusy (not_busy_of_uses rfl d)
  · trivial

/-! ## Section 7: Moving a head -/

theorem reserve_head (g : Ghost α) (t n : Nat) (op : Op α) (d : Side) :
    (g.reserve t n op).head d = if d = op.side then g.head d + n else g.head d := by
  cases op <;> cases d <;> rfl

theorem reserve_tail (g : Ghost α) (t n : Nat) (op : Op α) : (g.reserve t n op).tail = g.tail := by
  cases op <;> rfl

theorem reserve_saw (g : Ghost α) (t n : Nat) (op : Op α) : (g.reserve t n op).saw = g.saw := by
  cases op <;> rfl

theorem reserve_owed (g : Ghost α) (n : Nat) (op : Op α) (hne : u ≠ t) :
    (g.reserve t n op).owed u = g.owed u := by
  cases op with
  | enqueue objs b => rfl
  | dequeue count b => exact Function.update_of_ne hne ..

theorem reserve_log (g : Ghost α) (t n : Nat) (op : Op α) : g.log <+: (g.reserve t n op).log := by
  cases op with
  | enqueue objs b => exact List.prefix_append ..
  | dequeue count b => exact List.prefix_rfl

theorem getElem?_of_prefix {l l' : List α} (h : l <+: l') {i : Nat} {v : α} (hi : l[i]? = some v) :
    l'[i]? = some v := by
  obtain ⟨rest, rfl⟩ := h
  rw [List.getElem?_append_left (List.getElem?_eq_some_iff.mp hi).1]
  exact hi

theorem Sound.queue_length (hs : Sound s g) : g.queue.length = g.tail .prod - g.head .cons := by
  have hle := (hs.tiles .prod).le
  have hlen := hs.log_length
  rw [hs.queue_eq, List.length_drop, List.length_take]
  omega

theorem Sound.queue_get (hs : Sound s g) {i : Nat} (hi : i < g.queue.length) :
    ∃ v, g.queue[i]? = some v ∧ g.log[g.head .cons + i]? = some v := by
  refine ⟨g.queue[i], List.getElem?_eq_getElem hi, ?_⟩
  have hget : g.queue[i]? = g.log[g.head .cons + i]? := by
    rw [hs.queue_length] at hi
    rw [hs.queue_eq, List.getElem?_drop, List.getElem?_take_of_lt (by omega)]
  rw [← hget]
  exact List.getElem?_eq_getElem hi

/-- A successful store or compare-and-set has found the head that the
    thread has loaded. -/
theorem Sound.wins_head (hs : Sound s g) {op : Op α} {old : Nat} (hseen : Seen s g t op.side old)
    (htime : InTime (s, g) t op.side) (hwin : s.wins op old = true) :
    g.head op.side = g.saw t := by
  have htime : g.head op.side + s.ring.capacity < g.saw t + 2 ^ 32 := htime
  unfold Sys.wins at hwin
  rcases Bool.or_eq_true _ _ ▸ hwin with hsingle | hsame
  · exact (hseen.sole hsingle).symm
  · have heq : u32 (g.head op.side) = u32 (g.saw t) := by
      rw [← hs.head_eq, ← hseen.old_eq]
      exact eq_of_beq hsame
    apply eq_of_u32 heq hseen.le_head
    omega

/-- The elements of a new reservation are in the log. -/
theorem Sound.reserve_carry (hs : Sound s g) {op : Op α} {n : Nat}
    (hhead : g.head op.side = g.saw t) (hmax : n ≤ op.max)
    (hlimit : g.saw t + n ≤ limit s.ring g op.side) {i : Nat} (hi : i < n) :
    ∃ v, (op.values ((g.reserve t n op).owed t))[i]? = some v ∧
      (g.reserve t n op).log[g.saw t + i]? = some v := by
  cases op with
  -- The objects join the log at the old head.
  | enqueue objs b =>
    have hobjs : n ≤ objs.length := Nat.le_trans hmax (Nat.mod_le _ _)
    have hget : objs[i]? = some objs[i] := List.getElem?_eq_getElem (by omega)
    have hstart : g.saw t = g.log.length := by
      rw [hs.log_length]
      exact hhead.symm
    refine ⟨objs[i], hget, ?_⟩
    show (g.log ++ objs.take n)[g.saw t + i]? = _
    rw [hstart, List.getElem?_append_right (by omega), Nat.add_sub_cancel_left,
      List.getElem?_take_of_lt hi]
    exact hget
  -- The elements leave the front of the queue, at the old head of the consumers.
  | dequeue count b =>
    have hlimit : g.saw t + n ≤ g.tail .prod := hlimit
    have hhead : g.head .cons = g.saw t := hhead
    have hlen := hs.queue_length
    obtain ⟨v, hv, hlog⟩ := hs.queue_get (i := i) (by omega)
    refine ⟨v, ?_, ?_⟩
    · show (Function.update g.owed t (g.queue.take n) t)[i]? = _
      rw [Function.update_self, List.getElem?_take_of_lt hi]
      exact hv
    · rw [hhead] at hlog
      exact hlog

theorem Sound.reserve_queue (hs : Sound s g) (n : Nat) (op : Op α) :
    (g.reserve t n op).queue =
      ((g.reserve t n op).log.take (g.tail .prod)).drop ((g.reserve t n op).head .cons) := by
  cases op with
  | enqueue objs b =>
    have hle := (hs.tiles .prod).le
    have hlen := hs.log_length
    show g.queue = ((g.log ++ objs.take n).take (g.tail .prod)).drop (g.head .cons)
    rw [List.take_append_of_le_length (by omega)]
    exact hs.queue_eq
  | dequeue count b =>
    show g.queue.drop n = (g.log.take (g.tail .prod)).drop (g.head .cons + n)
    rw [hs.queue_eq, List.drop_drop]

theorem Sound.reserve_log_length (hs : Sound s g) {n : Nat} {op : Op α} (hmax : n ≤ op.max) :
    (g.reserve t n op).log.length = (g.reserve t n op).head .prod := by
  cases op with
  | enqueue objs b =>
    have hobjs : n ≤ objs.length := Nat.le_trans hmax (Nat.mod_le _ _)
    show (g.log ++ objs.take n).length = g.head .prod + n
    rw [List.length_append, List.length_take, hs.log_length]
    omega
  | dequeue count b => exact hs.log_length

/-- The new stretch lies at the old head. -/
theorem Sound.reserve_tiles (hs : Sound s g) {op : Op α} {old n : Nat}
    (hpc : s.pc t = .move op old n) (hpos : 0 < n) (hhead : g.head op.side = g.saw t)
    (hnext : s'.pc = Function.update s.pc t (.copy op old n [])) (d : Side) :
    Tiling (held s' (g.reserve t n op) d) ((g.reserve t n op).tail d)
      ((g.reserve t n op).head d) := by
  have hothers : ∀ u, u ≠ t → held s' (g.reserve t n op) d u = held s g d u := fun u hut =>
    held_others hnext hut (by rw [reserve_saw]) d
  have hnone : held s g d t = none := held_of_stretch (by rw [hpc]; rfl)
  rw [reserve_tail, reserve_head]
  -- The new stretch starts where the last one ended, the other side has none.
  by_cases hd : d = op.side
  · rw [if_pos hd]
    apply (hs.tiles d).reserve (t := t) hnone hothers
    · rw [held_self hnext, reserve_saw, hd, hhead]
      simp [Pc.held, Pc.stretch]
    · exact hpos
  · rw [if_neg hd]
    apply (hs.tiles d).congr
    intro u
    by_cases hut : u = t
    · rw [hut, held_self hnext, hnone]
      simp [Pc.held, Pc.stretch, Ne.symm hd]
    · exact hothers u hut

/-- A thread with a new reservation has copied nothing. -/
theorem Sound.reserve_copying (hs : Sound s g) {op : Op α} {old n : Nat}
    (hseen : Seen s g t op.side old) (hmax : n ≤ op.max)
    (hlimit : g.saw t + n ≤ limit s.ring g op.side)
    (hamount : op.behavior = .queueFixed → n = op.max) (hhead : g.head op.side = g.saw t) :
    Copying s' (g.reserve t n op) t op old n [] where
  old_eq := by
    rw [reserve_saw]
    exact hseen.old_eq
  len := Nat.zero_le n
  moved_eq := rfl
  amount := hamount
  carry := by
    intro i hi
    rw [reserve_saw]
    exact hs.reserve_carry hhead hmax hlimit hi
  whole := by
    intro hside
    cases op with
    | enqueue objs b => simp [Op.side] at hside
    | dequeue count b =>
      have hlimit : g.saw t + n ≤ g.tail .prod := hlimit
      have hhead : g.head .cons = g.saw t := hhead
      have hlen := hs.queue_length
      show (Function.update g.owed t (g.queue.take n) t).length = n
      rw [Function.update_self, List.length_take]
      omega
  filled := by
    intro _ i hi
    simp at hi

/-- The other threads rely on nothing that a reservation changes. -/
theorem Sound.reserve_frame (hs : Sound s g) {op : Op α} {pc : Pc α} {head n : Nat}
    (hbusy : s.Busy t op.side) (hut : u ≠ t) :
    Frame s g { s.goto t pc with ring := s.ring.setHead head op.side } (g.reserve t n op) u where
  size := setHead_size ..
  capacity := setHead_capacity ..
  single _ := setHead_single ..
  head_le d := by
    rw [reserve_head]
    split <;> omega
  tail_le d := by
    rw [reserve_tail]
  log := reserve_log g t n op
  saw := by
    rw [reserve_saw]
  owed := reserve_owed g n op hut
  sole := by
    intro d hsingle hb
    rw [reserve_head, reserve_tail, if_neg]
    · exact ⟨rfl, rfl⟩
    · -- the only user of a single side is `t`
      intro hd
      rw [hd] at hsingle hb
      exact hut (hs.sole op.side hsingle u t hb hbusy)
  turn d m _ := by
    rw [reserve_tail]
  slots m _ i _ := rfl

/-- A thread reserves its stretch. -/
theorem Sound.reserve (hs : Sound s g) {op : Op α} {old n : Nat} (hpc : s.pc t = .move op old n)
    (htime : InTime (s, g) t op.side) (hwin : s.wins op old = true) :
    Sound { s.goto t (.copy op old n []) with ring := s.ring.setHead (u32 (old + n)) op.side }
      (g.reserve t n op) := by
  obtain ⟨hseen, hpos, hmax, hlimit, hamount⟩ :
    Seen s g t op.side old ∧ 0 < n ∧ n ≤ op.max ∧ g.saw t + n ≤ limit s.ring g op.side ∧
      (op.behavior = .queueFixed → n = op.max) := hs.local_at hpc
  have hhead := hs.wins_head hseen htime hwin
  have hbusy : s.Busy t op.side := by
    unfold Sys.Busy
    rw [hpc]
    rfl
  constructor
  · exact WellFormed.setHead hs.form ..
  · intro d
    show ((s.ring.setHead (u32 (old + n)) op.side).ht d).head = _
    rw [setHead_ht, reserve_head]
    by_cases hd : d = op.side
    · rw [if_pos hd, if_pos hd, hd, hhead, hseen.old_eq]
      exact u32_add (g.saw t) n
    · rw [if_neg hd, if_neg hd]
      exact hs.head_eq d
  · intro d
    show ((s.ring.setHead (u32 (old + n)) op.side).ht d).tail = _
    rw [setHead_ht, reserve_tail, ← hs.tail_eq]
    split <;> rfl
  -- The counters have moved, the stretches still tile what lies between them.
  · exact hs.reserve_tiles hpc hpos hhead rfl
  · rw [reserve_tail, reserve_head]
    have hahead := hs.ahead
    split
    · rename_i hd
      rw [← hd] at hhead hlimit
      have hlimit : g.saw t + n ≤ g.tail .prod := hlimit
      omega
    · exact hahead
  · rw [reserve_tail, reserve_head]
    show _ ≤ _ + (s.ring.setHead (u32 (old + n)) op.side).capacity
    rw [setHead_capacity]
    have hfits := hs.fits
    split
    · rename_i hd
      rw [← hd] at hhead hlimit
      have hlimit : g.saw t + n ≤ g.tail .cons + s.ring.capacity := hlimit
      omega
    · exact hfits
  · apply hs.sole_next rfl
    · intro d
      exact setHead_single ..
    · intro d _ hnew
      left
      exact busy_same hpc hnew rfl rfl
  · exact hs.reserve_log_length hmax
  · rw [reserve_tail]
    exact hs.reserve_queue n op
  · intro p hlow hhigh
    rw [reserve_tail] at hlow hhigh
    show _ = some (s.slots (p % (s.ring.setHead (u32 (old + n)) op.side).size))
    rw [setHead_size]
    exact getElem?_of_prefix (reserve_log g t n op) (hs.filled p hlow hhigh)
  · apply hs.threads_next rfl
    -- The thread itself copies from here on, for the others nothing moved.
    · exact hs.reserve_copying hseen hmax hlimit hamount hhead
    · intro u hut
      exact hs.reserve_frame hbusy hut

/-! ## Section 8: Copying -/

/-- No reservation is longer than the ring's capacity. -/
theorem Sound.stretch_le (hs : Sound s g) {d : Side} {a n : Nat} (h : held s g d t = some (a, n)) :
    n ≤ s.ring.capacity := by
  have huse := hs.held_in_use h
  have hfits := hs.fits
  omega

/-- The slot of the next pointer. -/
theorem Sound.next_slot (hs : Sound s g) {op : Op α} {old n : Nat} {moved : List α}
    (hpc : s.pc t = .copy op old n moved) :
    (copyPtrs s.ring old n)[moved.length]? =
      if moved.length < n then some ((g.saw t + moved.length) % s.ring.size) else none := by
  have hcopy : Copying s g t op old n moved := hs.local_at hpc
  have hle := hs.stretch_le (held_at (g := g) hpc rfl)
  have hcap := hs.form.capacity_lt
  rw [hcopy.old_eq, copyPtrs_eq hs.form (by omega), List.getElem?_map]
  by_cases hlt : moved.length < n
  · rw [List.getElem?_range hlt, if_pos hlt]
    rfl
  · rw [List.getElem?_eq_none (by simpa using hlt), if_neg hlt]
    rfl

theorem take_snoc {l : List α} {i : Nat} {v : α} (h : l[i]? = some v) :
    l.take i ++ [v] = l.take (i + 1) := by
  rw [List.take_add_one, h]
  rfl

/-- What a copying thread knows after one more element. -/
theorem Copying.snoc {op : Op α} {old n : Nat} {moved : List α} {v : α}
    (h : Copying s g t op old n moved) (hlt : moved.length < n)
    (hv : (op.values (g.owed t))[moved.length]? = some v) (hsize : s'.ring.size = s.ring.size)
    (hfilled : op.side = .prod → ∀ i, i < moved.length + 1 →
      g.log[g.saw t + i]? = some (s'.slots ((g.saw t + i) % s.ring.size))) :
    Copying s' g t op old n (moved ++ [v]) where
  old_eq := h.old_eq
  len := by
    rw [List.length_append]
    exact hlt
  moved_eq := by
    rw [List.length_append, List.length_singleton, ← take_snoc hv, ← h.moved_eq]
  amount := h.amount
  carry := h.carry
  whole := h.whole
  filled := by
    intro hside i hi
    rw [List.length_append, List.length_singleton] at hi
    rw [hsize]
    exact hfilled hside i hi

/-- A producer writes a slot. -/
theorem Sound.write (hs : Sound s g) {objs : List α} {b : Behavior} {old n : Nat} {moved : List α}
    {v : α} (hpc : s.pc t = .copy (.enqueue objs b) old n moved) (hlt : moved.length < n)
    (hv : objs[moved.length]? = some v) :
    Sound { s.goto t (.copy (.enqueue objs b) old n (moved ++ [v])) with
      slots := Function.update s.slots ((g.saw t + moved.length) % s.ring.size) v } g := by
  have hcopy : Copying s g t (.enqueue objs b) old n moved := hs.local_at hpc
  have hheld : held s g .prod t = some (g.saw t, n) := held_at hpc rfl
  have hw := (hs.tiles .prod).within t _ n hheld
  have huse := hs.held_in_use hheld
  -- the other positions in use keep their slots
  have hkeep : ∀ p, g.tail .cons ≤ p → p < g.head .prod → p ≠ g.saw t + moved.length →
      Function.update s.slots ((g.saw t + moved.length) % s.ring.size) v (p % s.ring.size) =
        s.slots (p % s.ring.size) := by
    intro p hp hp' hne
    apply Function.update_of_ne
    exact hs.slot_ne hp hp' (by omega) (by omega) hne
  have hheld' : ∀ d u, held { s.goto t (.copy (.enqueue objs b) old n (moved ++ [v])) with
      slots := Function.update s.slots ((g.saw t + moved.length) % s.ring.size) v } g d u =
      held s g d u := by
    intro d u
    by_cases hut : u = t
    · rw [hut, held_self rfl]
      exact held_same hpc rfl d
    · exact held_others rfl hut rfl d
  constructor
  · exact hs.form
  · exact hs.head_eq
  · exact hs.tail_eq
  · intro d
    exact (hs.tiles d).congr (hheld' d)
  · exact hs.ahead
  · exact hs.fits
  · apply hs.sole_next rfl
    · intro d
      rfl
    · intro d _ hnew
      left
      exact busy_same hpc hnew rfl rfl
  · exact hs.log_length
  · exact hs.queue_eq
  · intro p hlow hhigh
    have hle := (hs.tiles .prod).le
    have hout : g.tail .prod ≤ g.saw t := hw.1
    rw [hs.filled p hlow hhigh]
    exact congrArg some (hkeep p hlow (by omega) (by omega)).symm
  · apply hs.threads_next rfl
    · show Copying _ g t _ old n _
      apply hcopy.snoc hlt hv
      · rfl
      intro _ i hi
      by_cases hlast : i = moved.length
      · obtain ⟨v', hv', hlog⟩ := hcopy.carry moved.length hlt
        have heq : v = v' := Option.some.inj (hv.symm.trans hv')
        rw [hlast, hlog, ← heq]
        show some v = some (Function.update s.slots _ v _)
        rw [Function.update_self]
      · rw [hcopy.filled rfl i (by omega)]
        exact congrArg some (hkeep _ (by omega) (by omega) (by omega)).symm
    · intro u hut
      constructor
      · rfl
      · rfl
      · intro d
        rfl
      · intro d
        exact Nat.le_refl _
      · intro d
        exact Nat.le_refl _
      · exact List.prefix_rfl
      · rfl
      · rfl
      · intro d _ _
        exact ⟨rfl, rfl⟩
      · intro d m _
        rfl
      · intro m hm i hi
        have huse' := hs.held_in_use hm
        apply hkeep _ (by omega) (by omega)
        intro heq
        exact hut ((hs.tiles .prod).unique hm hheld (Nat.le_add_right _ i) (by omega)
          (by omega) (by omega))

/-- A consumer reads a slot: it holds the element that was taken from the
    queue. -/
theorem Sound.read (hs : Sound s g) {count : Nat} {b : Behavior} {old n : Nat} {moved : List α}
    (hpc : s.pc t = .copy (.dequeue count b) old n moved) (hlt : moved.length < n) :
    Sound (s.goto t (.copy (.dequeue count b) old n
      (moved ++ [s.slots ((g.saw t + moved.length) % s.ring.size)]))) g := by
  have hcopy : Copying s g t (.dequeue count b) old n moved := hs.local_at hpc
  have hheld : held s g .cons t = some (g.saw t, n) := held_at hpc rfl
  have hw := (hs.tiles .cons).within t _ n hheld
  have hahead := hs.ahead
  have hslot := hs.filled (g.saw t + moved.length) (by omega) (by omega)
  -- The slot holds the element that the log has at this position.
  obtain ⟨v, hv, hlog⟩ := hcopy.carry moved.length hlt
  rw [hlog, Option.some.injEq] at hslot
  rw [← hslot]
  apply hs.goto (.refl g t)
  · intro d
    exact held_same hpc rfl d
  · intro d _ hbusy
    left
    exact busy_same hpc hbusy rfl rfl
  · show Copying _ g t _ old n _
    apply hcopy.snoc hlt hv
    · rfl
    intro hside
    simp [Op.side] at hside

/-! ## Section 9: Storing a tail -/

theorem publish_tail (g : Ghost α) (n : Nat) (moved : List α) (op : Op α) (d : Side) :
    (g.publish n moved op).tail d = if d = op.side then g.tail d + n else g.tail d := by
  cases op <;> cases d <;> rfl

theorem publish_head (g : Ghost α) (n : Nat) (moved : List α) (op : Op α) :
    (g.publish n moved op).head = g.head := by
  cases op <;> rfl

theorem publish_saw (g : Ghost α) (n : Nat) (moved : List α) (op : Op α) :
    (g.publish n moved op).saw = g.saw := by
  cases op <;> rfl

theorem publish_owed (g : Ghost α) (n : Nat) (moved : List α) (op : Op α) :
    (g.publish n moved op).owed = g.owed := by
  cases op <;> rfl

theorem publish_log (g : Ghost α) (n : Nat) (moved : List α) (op : Op α) :
    (g.publish n moved op).log = g.log := by
  cases op <;> rfl

/-- All elements are copied: they are the ones in the log. -/
theorem Copying.moved_log {op : Op α} {old n : Nat} {moved : List α}
    (h : Copying s g t op old n moved) (hall : moved.length = n) :
    moved = (g.log.drop (g.saw t)).take n := by
  apply List.ext_getElem?
  intro i
  by_cases hi : i < n
  · obtain ⟨v, hv, hlog⟩ := h.carry i hi
    rw [h.moved_eq, hall, List.getElem?_take_of_lt hi, hv, List.getElem?_take_of_lt hi,
      List.getElem?_drop, hlog]
  · rw [List.getElem?_eq_none (by omega), List.getElem?_eq_none]
    rw [List.length_take]
    omega

theorem Sound.publish_queue (hs : Sound s g) {op : Op α} {old n : Nat} {moved : List α}
    (hcopy : Copying s g t op old n moved) (hall : moved.length = n)
    (hturn : g.saw t = g.tail op.side) :
    (g.publish n moved op).queue =
      (g.log.take ((g.publish n moved op).tail .prod)).drop (g.head .cons) := by
  cases op with
  | enqueue objs b =>
    have hturn : g.saw t = g.tail .prod := hturn
    have hle := (hs.tiles .prod).le
    have hlen := hs.log_length
    have hahead := hs.ahead
    show g.queue ++ moved = (g.log.take (g.tail .prod + n)).drop (g.head .cons)
    rw [List.take_add, List.drop_append_of_le_length, ← hs.queue_eq, ← hturn,
      ← hcopy.moved_log hall]
    rw [List.length_take]
    omega
  | dequeue count b => exact hs.queue_eq

/-- The stretch at the tail is no longer held. -/
theorem Sound.publish_tiles (hs : Sound s g) {op : Op α} {old n : Nat} {moved : List α}
    (hpc : s.pc t = .publish op old n moved)
    (hheld : held s g op.side t = some (g.tail op.side, n))
    (hnext : s'.pc = Function.update s.pc t (op.result n moved)) (d : Side) :
    Tiling (held s' (g.publish n moved op) d) ((g.publish n moved op).tail d)
      ((g.publish n moved op).head d) := by
  have hothers : ∀ u, u ≠ t → held s' (g.publish n moved op) d u = held s g d u := fun u hut =>
    held_others hnext hut (by rw [publish_saw]) d
  have hnone : held s' (g.publish n moved op) d t = none := by
    rw [held_self hnext, Pc.held_none (op.result_stretch n moved)]
  rw [publish_tail, publish_head]
  by_cases hd : d = op.side
  -- The first stretch is given up.
  · rw [if_pos hd, hd]
    rw [hd] at hothers hnone
    exact (hs.tiles op.side).release hheld hothers hnone
  · rw [if_neg hd]
    apply (hs.tiles d).congr
    intro u
    by_cases hut : u = t
    · rw [hut, hnone]
      simp [held, Pc.held, Pc.stretch, hpc, Ne.symm hd]
    · exact hothers u hut

/-- The slots between the tails hold the log; those of the stretch have just been published. -/
theorem Sound.publish_filled (hs : Sound s g) {op : Op α} {old n p : Nat} {moved : List α}
    (hcopy : Copying s g t op old n moved) (hall : moved.length = n)
    (hturn : g.saw t = g.tail op.side) (hlow : (g.publish n moved op).tail .cons ≤ p)
    (hhigh : p < (g.publish n moved op).tail .prod) :
    g.log[p]? = some (s.slots (p % s.ring.size)) := by
  rw [publish_tail] at hlow hhigh
  have hcons : g.tail .cons ≤ p := by
    revert hlow
    split <;> omega
  by_cases hnew : p < g.tail .prod
  · exact hs.filled p hcons hnew
  · split at hhigh
    · rename_i hd
      rw [← hd] at hturn
      have hi := hcopy.filled hd.symm (p - g.saw t) (by omega)
      rw [show g.saw t + (p - g.saw t) = p by omega] at hi
      exact hi
    · omega

/-- The other threads rely on nothing that a stored tail changes. -/
theorem Sound.publish_frame (hs : Sound s g) {op : Op α} {pc : Pc α} {tail n : Nat}
    {moved : List α} (hheld : held s g op.side t = some (g.tail op.side, n)) (hpos : 0 < n)
    (hut : u ≠ t) :
    Frame s g { s.goto t pc with ring := s.ring.setTail tail op.side }
      (g.publish n moved op) u where
  size := setTail_size ..
  capacity := setTail_capacity ..
  single _ := setTail_single ..
  head_le d := by
    rw [publish_head]
  tail_le d := by
    rw [publish_tail]
    split <;> omega
  log := (publish_log g n moved op).symm ▸ List.prefix_rfl
  saw := by
    rw [publish_saw]
  owed := by
    rw [publish_owed]
  sole := by
    intro d hsingle hb
    rw [publish_head, publish_tail, if_neg]
    · exact ⟨rfl, rfl⟩
    · intro hd
      rw [hd] at hsingle hb
      exact hut (hs.sole op.side hsingle u t hb (busy_of_held hheld))
  turn := by
    intro d m hm
    rw [publish_tail, if_neg]
    intro hd
    -- only one thread holds the tail
    rw [hd] at hm
    have hwm := (hs.tiles op.side).within u _ m hm
    exact hut ((hs.tiles op.side).unique hm hheld (Nat.le_refl _) (by omega)
      (Nat.le_refl _) (by omega))
  slots m _ i _ := rfl

/-- A thread whose turn it is stores the tail. -/
theorem Sound.publish (hs : Sound s g) {op : Op α} {old n : Nat} {moved : List α}
    (hpc : s.pc t = .publish op old n moved) :
    Sound { s.goto t (op.result n moved) with ring := s.ring.setTail (u32 (old + n)) op.side }
      (g.publish n moved op) := by
  -- All is copied and all before it is published.
  obtain ⟨hcopy, hall, hturn⟩ : Copying s g t op old n moved ∧ moved.length = n ∧
    g.saw t = g.tail op.side := hs.local_at hpc
  have hheld : held s g op.side t = some (g.tail op.side, n) := by
    rw [← hturn]
    exact held_at hpc rfl
  have hwithin := (hs.tiles op.side).within t _ n hheld
  constructor
  · exact WellFormed.setTail hs.form ..
  · intro d
    show ((s.ring.setTail (u32 (old + n)) op.side).ht d).head = _
    rw [setTail_ht, publish_head, ← hs.head_eq]
    split <;> rfl
  · intro d
    show ((s.ring.setTail (u32 (old + n)) op.side).ht d).tail = _
    rw [setTail_ht, publish_tail]
    by_cases hd : d = op.side
    · rw [if_pos hd, if_pos hd, hd, ← hturn, hcopy.old_eq]
      exact u32_add (g.saw t) n
    · rw [if_neg hd, if_neg hd]
      exact hs.tail_eq d
  · exact hs.publish_tiles hpc hheld rfl
  · rw [publish_tail, publish_head]
    have hahead := hs.ahead
    split <;> omega
  · rw [publish_tail, publish_head]
    show _ ≤ _ + (s.ring.setTail (u32 (old + n)) op.side).capacity
    rw [setTail_capacity]
    have hfits := hs.fits
    split <;> omega
  · apply hs.sole_next rfl
    · intro d
      exact setTail_single ..
    · intro d _ hnew
      exact absurd hnew (not_busy_of_uses (s := s) (t := t) (op.result_uses n moved) d)
  · rw [publish_log, publish_head]
    exact hs.log_length
  · rw [publish_log, publish_head]
    exact hs.publish_queue hcopy hall hturn
  · intro p hlow hhigh
    rw [publish_log]
    show _ = some (s.slots (p % (s.ring.setTail (u32 (old + n)) op.side).size))
    rw [setTail_size]
    exact hs.publish_filled hcopy hall hturn hlow hhigh
  · apply hs.threads_next rfl
    · cases op with
      | enqueue objs b => trivial
      | dequeue count b =>
        show moved = g.owed t
        -- What is returned are all the elements that were reserved.
        have hwhole : (g.owed t).length = n := hcopy.whole rfl
        have hmoved : moved = (g.owed t).take moved.length := hcopy.moved_eq
        rw [hmoved, hall, ← hwhole, List.take_length]
    · intro u hut
      exact hs.publish_frame hheld hwithin.2.1 hut

end AggreKV.RteRing
