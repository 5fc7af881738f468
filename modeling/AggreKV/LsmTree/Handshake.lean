import AggreKV.Lib.Machine
import Mathlib.Logic.Function.Basic
import Mathlib.Data.List.Nodup

/-! # Handshake between `lsm_set` and the compaction thread

    `lsm_set` and `compaction_check` (`lsmtree.c`, `compaction_assistant.c`)
    against the loop of `compaction_main`, one shared access per step.

    * Sets run one after the other, `cur` is the current one; how many
      headers `compaction_check` cuts is chosen by the environment.
    * `is_compacting` belongs to the request of the set, so it is a table.
    * `spawned` and `applied` are ghosts.
    * `HandshakeSafe`: no starving poll, and no set leaves its poll loop early.
    * `ClearOk`: when the thread may take the flag down. -/

namespace AggreKV.LsmTree

/-! ## Section 1: Model -/

/-- `compR`: the parent request, and its number among all of them. -/
structure CompR where
  parent : Nat
  id : Nat
  deriving DecidableEq

/-- Where `lsm_set` stands. -/
inductive SetPc where
  /-- before `compaction_check` -/
  | check
  /-- top of the `do` loop, this many more to hand over after the next one -/
  | mark (left : Nat)
  /-- before `compaction_assign` -/
  | assign (left : Nat)
  /-- before `req->is_compacting=true` in `lsm_set` -/
  | raise
  | poll
  /-- before `skiplist_insert` -/
  | insert
  deriving DecidableEq

/-- Where the compaction thread stands. -/
inductive CompPc where
  | pick
  | apply
  | clear
  | dequeue
  deriving DecidableEq

structure Handshake where
  cur : Nat
  set : SetPc
  comp : CompPc
  queue : List CompR
  isCompacting : Nat → Bool
  spawned : List CompR
  applied : List CompR

/-- `CQSIZE`. -/
def cqSize : Nat := 128

/-- One step of a thread; the setter's number is how many headers a check cuts. -/
inductive Thread where
  | setter (cut : Nat)
  | compaction

def Handshake.raiseFlag (s : Handshake) : Handshake :=
  { s with isCompacting := Function.update s.isCompacting s.cur true }

/-- `lsm_set`; a full queue makes `compaction_assign` spin. -/
def Handshake.setStep (s : Handshake) (cut : Nat) : Handshake :=
  match s.set with
  | .check =>
      match cut with
      | 0 => { s with set := .insert }
      | n + 1 => { s with set := .mark n }
  | .mark left => { s.raiseFlag with set := .assign left }
  | .assign left =>
      if s.queue.length = cqSize then s
      else
        { s with
          queue := s.queue ++ [⟨s.cur, s.spawned.length⟩]
          spawned := s.spawned ++ [⟨s.cur, s.spawned.length⟩]
          set := match left with
            | 0 => .raise
            | n + 1 => .mark n }
  | .raise => { s.raiseFlag with set := .poll }
  | .poll => if s.isCompacting s.cur then s else { s with set := .insert }
  | .insert => { s with set := .check, cur := s.cur + 1 }

/-- `compaction_main`: `q_pick` leaves the request in the queue, and blocks
    on an empty one. -/
def Handshake.compStep (s : Handshake) : Option Handshake :=
  match s.comp, s.queue with
  | .pick, [] => none
  | .pick, _ :: _ => some { s with comp := .apply }
  | .apply, [] => none
  | .apply, c :: _ => some { s with comp := .clear, applied := s.applied ++ [c] }
  | .clear, [] => none
  | .clear, c :: _ => some { s with
      comp := .dequeue
      isCompacting := Function.update s.isCompacting c.parent false }
  | .dequeue, [] => none
  | .dequeue, _ :: q => some { s with comp := .pick, queue := q }

def handshakeInit : Handshake :=
  ⟨0, .check, .pick, [], fun _ => false, [], []⟩

def handshake : Machine Handshake Thread where
  init s := s = handshakeInit
  next s
    | .setter cut => some (s.setStep cut)
    | .compaction => s.compStep

/-! ## Section 2: The two promises -/

/-- Queued or being applied: up to the moment its flag write is made. -/
def CompPc.pending : CompPc → List CompR → List CompR
  | .pick, q | .apply, q | .clear, q => q
  | .dequeue, q => q.tail

def Handshake.pending (s : Handshake) : List CompR := s.comp.pending s.queue

/-- The set of request `r` is past its poll loop. -/
def Handshake.Left (s : Handshake) (r : Nat) : Prop := r < s.cur ∨ (r = s.cur ∧ s.set = .insert)

structure HandshakeSafe (s : Handshake) : Prop where
  noStarving : s.set = .poll → s.isCompacting s.cur = true →
    ∃ c ∈ s.pending, c.parent = s.cur
  leavesLast : ∀ c ∈ s.spawned, s.Left c.parent → c ∈ s.applied

/-- When `is_compacting` may be taken down: after the last request of a set
    not before the set polls, after an earlier one not any more then. -/
def ClearOk (s : Handshake) : Prop :=
  (s.set = .poll → s.queue.tail = []) ∧ (s.set = .raise → s.queue.tail ≠ [])

/-- The runs whose flag is only taken down at such moments. -/
def clearsInTime (s : Handshake) : Thread → Prop
  | .compaction => s.comp = .clear → ClearOk s
  | .setter _ => True

instance (s : Handshake) : Decidable (ClearOk s) :=
  inferInstanceAs (Decidable (_ ∧ _))

instance (s : Handshake) : ∀ a, Decidable (clearsInTime s a)
  | .compaction => inferInstanceAs (Decidable (_ → _))
  | .setter _ => isTrue trivial

/-! ## Section 3: Steps -/

/-- Not yet applied. -/
def CompPc.unapplied : CompPc → List CompR → List CompR
  | .pick, q | .apply, q => q
  | .clear, q | .dequeue, q => q.tail

def Handshake.unapplied (s : Handshake) : List CompR := s.comp.unapplied s.queue

theorem CompPc.pending_append {pc : CompPc} {q : List CompR} (h : pc ≠ .pick → q ≠ [])
    (r : List CompR) : pc.pending (q ++ r) = pc.pending q ++ r := by
  cases pc with
  | dequeue => exact List.tail_append_of_ne_nil (h (by decide))
  | _ => rfl

theorem CompPc.unapplied_append {pc : CompPc} {q : List CompR} (h : pc ≠ .pick → q ≠ [])
    (r : List CompR) : pc.unapplied (q ++ r) = pc.unapplied q ++ r := by
  cases pc with
  | clear | dequeue => exact List.tail_append_of_ne_nil (h (by decide))
  | _ => rfl

theorem CompPc.unapplied_subset {pc : CompPc} {q : List CompR} :
    ∀ c ∈ pc.unapplied q, c ∈ pc.pending q := by
  intro c hc
  cases pc with
  | clear => exact List.mem_of_mem_tail hc
  | _ => exact hc

/-- What such runs keep. -/
structure InStep (s : Handshake) : Prop where
  order : s.spawned = s.applied ++ s.unapplied
  ids : s.spawned.map CompR.id = List.range s.spawned.length
  upTo : ∀ c ∈ s.spawned, c.parent ≤ s.cur
  current : ∀ c ∈ s.pending, c.parent = s.cur
  idle : s.set = .check ∨ s.set = .insert → s.pending = []
  raising : s.set = .raise → s.pending ≠ []
  polling : s.set = .poll → (s.isCompacting s.cur = true ↔ s.pending ≠ [])
  busy : s.comp ≠ .pick → s.queue ≠ []

theorem inStep_init : InStep handshakeInit := by
  constructor <;>
    simp [handshakeInit, Handshake.unapplied, Handshake.pending, CompPc.unapplied, CompPc.pending]

theorem InStep.safe {s : Handshake} (h : InStep s) : HandshakeSafe s := by
  refine ⟨fun hp hf => ?_, fun c hc hleft => ?_⟩
  · obtain ⟨c, hc⟩ := List.exists_mem_of_ne_nil _ ((h.polling hp).mp hf)
    exact ⟨c, hc, h.current c hc⟩
  · rw [h.order, List.mem_append] at hc
    rcases hc with hc | hc
    · exact hc
    · -- an unapplied request is pending, so it belongs to the current set, which has not left
      have hpend : c ∈ s.pending := CompPc.unapplied_subset c hc
      have hcur := h.current c hpend
      rcases hleft with hlt | ⟨-, hins⟩
      · omega
      · rw [h.idle (.inr hins)] at hpend
        exact absurd hpend List.not_mem_nil

/-- Steps of the setter that leave the queue as it is. -/
theorem InStep.local {s s' : Handshake} (h : InStep s)
    (hq : s'.queue = s.queue ∧ s'.comp = s.comp ∧ s'.spawned = s.spawned ∧ s'.applied = s.applied)
    (hcur : s'.cur = s.cur)
    (hidle : s'.set = .check ∨ s'.set = .insert → s.pending = [])
    (hraising : s'.set = .raise → s.pending ≠ [])
    (hpolling : s'.set = .poll → (s'.isCompacting s.cur = true ↔ s.pending ≠ [])) : InStep s' := by
  obtain ⟨hqueue, hcomp, hsp, hap⟩ := hq
  have hpend : s'.pending = s.pending := by simp [Handshake.pending, hqueue, hcomp]
  have hun : s'.unapplied = s.unapplied := by simp [Handshake.unapplied, hqueue, hcomp]
  constructor
  · rw [hsp, hap, hun]
    exact h.order
  · rw [hsp]
    exact h.ids
  · rw [hsp, hcur]
    exact h.upTo
  · rw [hpend, hcur]
    exact h.current
  · rw [hpend]
    exact hidle
  · rw [hpend]
    exact hraising
  · rw [hpend, hcur]
    exact hpolling
  · rw [hqueue, hcomp]
    exact h.busy

theorem InStep.enqueue {s : Handshake} (h : InStep s) {left cut : Nat}
    (hset : s.set = .assign left) : InStep (s.setStep cut) := by
  simp only [Handshake.setStep, hset]
  split
  · exact h
  have hpend := CompPc.pending_append h.busy [⟨s.cur, s.spawned.length⟩]
  have hun := CompPc.unapplied_append h.busy [⟨s.cur, s.spawned.length⟩]
  -- The new request is the last one of the queue, whatever the compaction thread does.
  constructor <;> simp only [Handshake.pending, Handshake.unapplied, hpend, hun]
  · rw [← List.append_assoc]
    exact congrArg (· ++ _) h.order
  · rw [List.map_append, h.ids, List.length_append, List.length_singleton]
    exact List.range_succ.symm
  · intro c hc
    rcases List.mem_append.mp hc with hc | hc
    · exact h.upTo c hc
    · have heq := List.mem_singleton.mp hc
      subst heq
      exact Nat.le_refl s.cur
  · intro c hc
    rcases List.mem_append.mp hc with hc | hc
    · exact h.current c hc
    · rw [List.mem_singleton.mp hc]
  · intro hidle
    cases left <;> simp at hidle
  · intro _
    simp
  · intro hpoll
    cases left <;> simp at hpoll
  · intro _
    simp

theorem InStep.setter {s : Handshake} (h : InStep s) (cut : Nat) : InStep (s.setStep cut) := by
  cases hset : s.set with
  | check =>
      have hnil := h.idle (.inl hset)
      cases cut with
      | zero =>
          simp only [Handshake.setStep, hset]
          exact h.local ⟨rfl, rfl, rfl, rfl⟩ rfl (fun _ => hnil) (by simp) (by simp)
      | succ n =>
          simp only [Handshake.setStep, hset]
          exact h.local ⟨rfl, rfl, rfl, rfl⟩ rfl (fun _ => hnil) (by simp) (by simp)
  | mark left =>
      simp only [Handshake.setStep, hset]
      exact h.local ⟨rfl, rfl, rfl, rfl⟩ rfl (by simp) (by simp) (by simp)
  | assign left =>
      exact h.enqueue hset
  | raise =>
      have hne := h.raising hset
      simp only [Handshake.setStep, hset]
      refine h.local ⟨rfl, rfl, rfl, rfl⟩ rfl (by simp) (by simp) fun _ => ?_
      simp [Handshake.raiseFlag, hne]
  | poll =>
      simp only [Handshake.setStep, hset]
      split
      · exact h
      · next hflag =>
          have hnil : s.pending = [] := by
            -- A flag that is down while polling says that nothing is pending.
            by_contra hne
            exact hflag ((h.polling hset).mpr hne)
          exact h.local ⟨rfl, rfl, rfl, rfl⟩ rfl (fun _ => hnil) (by simp) (by simp)
  | insert =>
      have hnil := h.idle (.inr hset)
      simp only [Handshake.setStep, hset]
      constructor
      · exact h.order
      · exact h.ids
      · exact fun c hc => Nat.le_succ_of_le (h.upTo c hc)
      · intro c hc
        have : c ∈ s.pending := hc
        rw [hnil] at this
        exact absurd this List.not_mem_nil
      · exact fun _ => hnil
      · simp
      · simp
      · exact h.busy

theorem InStep.compaction {s s' : Handshake} (h : InStep s) (hok : s.comp = .clear → ClearOk s)
    (hstep : s.compStep = some s') : InStep s' := by
  obtain ⟨cur, set, comp, queue, flag, spawned, applied⟩ := s
  cases queue with
  | nil => cases comp <;> simp [Handshake.compStep] at hstep
  | cons c q =>
      cases comp <;> simp only [Handshake.compStep, Option.some.injEq] at hstep <;> subst hstep
      case pick => exact { h with busy := by simp }
      case apply =>
        refine { h with order := ?_, busy := by simp }
        have := h.order
        simpa [Handshake.unapplied, CompPc.unapplied] using this
      case dequeue => exact { h with busy := by simp }
      -- Only the clear can go wrong: it lowers the flag of the set that is still waiting.
      case clear =>
        have hcur : c.parent = cur := h.current c List.mem_cons_self
        refine { order := h.order, ids := h.ids, upTo := h.upTo, current := ?_, idle := ?_,
                 raising := ?_, polling := ?_, busy := by simp }
        · exact fun d hd => h.current d (List.mem_cons_of_mem _ hd)
        · intro hidle
          have := h.idle hidle
          simp [Handshake.pending, CompPc.pending] at this
        · intro hraise
          exact (hok rfl).2 hraise
        · intro hpoll
          have hlast : q = [] := (hok rfl).1 hpoll
          simp [hcur, Handshake.pending, CompPc.pending, hlast]

theorem handshake_inStep {s : Handshake} (h : handshake.Reach clearsInTime s) : InStep s := by
  refine h.invariant ?_ ?_
  · rintro s rfl
    exact inStep_init
  · intro s s' a _ hin hok hnext
    cases a with
    | setter cut =>
        cases hnext
        exact hin.setter cut
    | compaction => exact hin.compaction hok hnext

/-! ## Section 4: A flag taken down at the wrong moment -/

theorem InStep.unapplied_notMem {s : Handshake} (h : InStep s) {c : CompR}
    (hc : c ∈ s.unapplied) : c ∉ s.applied := by
  intro hap
  have hnd : s.spawned.Nodup := List.Nodup.of_map CompR.id (h.ids ▸ List.nodup_range)
  rw [h.order] at hnd
  exact (List.nodup_append.mp hnd).2.2 c hap c hc rfl

/-- After it, two more steps of the setter at most break a promise. -/
theorem InStep.clear_breaks {s : Handshake} (h : InStep s) (hclear : s.comp = .clear)
    (hbad : ¬ ClearOk s) :
    ∃ s', handshake.exec s [.compaction, .setter 0] = some s' ∧ ¬ HandshakeSafe s' := by
  obtain ⟨cur, set, comp, queue, flag, spawned, applied⟩ := s
  simp only at hclear
  subst hclear
  obtain ⟨c, q, rfl⟩ := List.exists_cons_of_ne_nil (h.busy (by simp))
  have hcur : c.parent = cur := h.current c List.mem_cons_self
  cases set with
  | poll =>
      -- Polling with more requests queued: the set leaves before the last one is applied.
      have hne : q ≠ [] := by
        intro hnil
        exact hbad ⟨fun _ => hnil, by simp⟩
      obtain ⟨d, hd⟩ := List.exists_mem_of_ne_nil _ hne
      refine ⟨_, rfl, fun hsafe => ?_⟩
      have hspawned : d ∈ spawned := by
        have horder := h.order
        simp only [Handshake.unapplied, CompPc.unapplied, List.tail_cons] at horder
        rw [horder]
        exact List.mem_append_right _ hd
      have hdcur : d.parent = cur := h.current d (List.mem_cons_of_mem _ hd)
      have hleft := hsafe.leavesLast d
      simp only [Handshake.setStep, hcur, Function.update_self, Bool.false_eq_true, if_false,
        Handshake.Left, hdcur] at hleft
      exact h.unapplied_notMem hd (hleft hspawned (.inr ⟨trivial, trivial⟩))
  | raise =>
      -- Before the flag is raised with nothing queued: nobody will clear it any more.
      have hnil : q = [] := by
        by_contra hne
        exact hbad ⟨by simp, fun _ => hne⟩
      subst hnil
      refine ⟨_, rfl, fun hsafe => ?_⟩
      obtain ⟨d, hd, -⟩ := hsafe.noStarving rfl (Function.update_self ..)
      exact absurd hd List.not_mem_nil
  | check | mark | assign | insert =>
      exact absurd ⟨by simp, by simp⟩ hbad

/-! ## Section 5: The handshake -/

/-- Both promises hold in every run that takes the flag down in time, and no
    other moment is harmless: a flag write at any other moment can be continued
    to a broken promise. -/
theorem handshake_safe {s : Handshake} (h : handshake.Reach clearsInTime s) :
    HandshakeSafe s ∧
      (s.comp = .clear → ¬ ClearOk s →
        ∃ s', handshake.exec s [.compaction, .setter 0] = some s' ∧ ¬ HandshakeSafe s') :=
  ⟨(handshake_inStep h).safe, (handshake_inStep h).clear_breaks⟩

/-- A set that hands over two headers: the first clear comes while it is still
    handing over, the second while it polls. -/
def twoHeaders : List Thread :=
  [.setter 2, .setter 0, .setter 0, .compaction, .compaction, .compaction, .compaction,
   .setter 0, .setter 0, .setter 0, .compaction, .compaction, .compaction, .setter 0]

/-- Both headers are inserted, and the promises hold while the setter inserts. -/
theorem handshake_safe_twoHeaders :
    ∃ s, handshake.exec handshakeInit twoHeaders = some s ∧ s.set = .insert ∧
      HandshakeSafe s := by
  have hok : handshake.check (fun s a => decide (clearsInTime s a)) handshakeInit twoHeaders =
      true := by rfl
  have halong := (Machine.along_of_check hok).mono fun _ _ => of_decide_eq_true
  exact ⟨_, rfl, rfl, (handshake_safe (Machine.Reach.exec (.init rfl) halong rfl)).1⟩

/-- One header, applied before the setter raises the flag again. -/
def earlyClear : List Thread :=
  [.setter 1, .setter 0, .setter 0, .compaction, .compaction, .compaction, .compaction, .setter 0]

/-- Two headers, and the clear after the first one while the setter polls. -/
def firstClear : List Thread :=
  [.setter 2, .setter 0, .setter 0, .setter 0, .setter 0, .setter 0, .compaction, .compaction,
   .compaction, .setter 0]

/-- After `earlyClear` the set polls for ever; after `firstClear` it has left early. -/
theorem handshake_counterexample :
    (¬ ∀ s, handshake.Reachable s → s.set = .poll → s.isCompacting s.cur = true →
      ∃ c ∈ s.pending, c.parent = s.cur) ∧
    ¬ ∀ s, handshake.Reachable s → ∀ c ∈ s.spawned, s.Left c.parent → c ∈ s.applied := by
  constructor
  · intro hall
    have hexec : handshake.exec handshakeInit earlyClear = some _ := rfl
    have hrun := Machine.Reachable.exec (Machine.Reachable.init rfl) hexec
    obtain ⟨c, hc, -⟩ := hall _ hrun rfl rfl
    exact absurd hc List.not_mem_nil
  · intro hall
    have hexec : handshake.exec handshakeInit firstClear = some _ := rfl
    have hrun := Machine.Reachable.exec (Machine.Reachable.init rfl) hexec
    have hlost := hall _ hrun ⟨0, 1⟩ (by decide) (.inr ⟨rfl, rfl⟩)
    revert hlost
    decide

end AggreKV.LsmTree
