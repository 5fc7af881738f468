import Mathlib.Algebra.Order.BigOperators.Group.List
import Mathlib.Algebra.Order.Ring.Nat
import Mathlib.Logic.Function.Basic
import Mathlib.Order.Bounds.Basic
import Mathlib.Tactic.Common

/-! # Servers that take their jobs in order

    Each job names its server, the time it arrives and how long it takes. A
    server begins a job when it has arrived and the jobs before it are over.

    * `schedule_ordered`: one job at a time.
    * `schedule_prompt`: no server waits while it has a job.
    * `serveAll_le_iff`: when a server is free, as the maximum over the jobs
      of the arrival and the work from there on.
    * `schedule_start`: jobs of distinct servers do not wait for each other.
    * `lastFinish`: the end of the last job, as a loop finds it. -/

namespace AggreKV

variable {σ : Type*}

structure Job (σ : Type*) where
  server : σ
  arrival : Nat
  work : Nat

/-- A job with the time it is begun. -/
structure Served (σ : Type*) extends Job σ where
  start : Nat

def Served.finish (v : Served σ) : Nat := v.start + v.work

/-- The work of one server. -/
def workOf [DecidableEq σ] (x : σ) (js : List (Job σ)) : Nat :=
  ((js.filter fun j => decide (j.server = x)).map Job.work).sum

section Serving

variable [DecidableEq σ]

/-- When each server is free after one more job. -/
def serve (free : σ → Nat) (j : Job σ) : σ → Nat :=
  Function.update free j.server (max (free j.server) j.arrival + j.work)

def serveAll (free : σ → Nat) (js : List (Job σ)) : σ → Nat := js.foldl serve free

/-- The jobs in order, each with the time its server begins it. -/
def schedule (free : σ → Nat) : List (Job σ) → List (Served σ)
  | [] => []
  | j :: js => ⟨j, max (free j.server) j.arrival⟩ :: schedule (serve free j) js

variable {free : σ → Nat} {js ks : List (Job σ)} {x : σ}

/-! ## Section 1: When a server is free -/

@[simp] theorem serve_self (free : σ → Nat) (j : Job σ) :
    serve free j j.server = max (free j.server) j.arrival + j.work := Function.update_self ..

/-- The other servers are as free as before. -/
theorem serve_of_ne {j : Job σ} (h : x ≠ j.server) : serve free j x = free x :=
  Function.update_of_ne h ..

@[simp] theorem serveAll_nil (free : σ → Nat) : serveAll free [] = free := rfl

@[simp] theorem serveAll_cons (free : σ → Nat) (j : Job σ) (js : List (Job σ)) :
    serveAll free (j :: js) = serveAll (serve free j) js := rfl

theorem serveAll_append (free : σ → Nat) (js ks : List (Job σ)) :
    serveAll free (js ++ ks) = serveAll (serveAll free js) ks := List.foldl_append

/-- No server gets free earlier. -/
theorem le_serve (free : σ → Nat) (j : Job σ) (x : σ) : free x ≤ serve free j x := by
  by_cases hx : x = j.server
  · subst hx
    rw [serve_self]
    omega
  · rw [serve_of_ne hx]

theorem le_serveAll (js : List (Job σ)) :
    ∀ (free : σ → Nat) (x : σ), free x ≤ serveAll free js x := by
  induction js with
  | nil =>
    intro free x
    exact Nat.le_refl _
  | cons j js ih =>
    intro free x
    exact (le_serve free j x).trans (ih (serve free j) x)

/-! ## Section 2: The work of a server -/

@[simp] theorem workOf_nil (x : σ) : workOf x ([] : List (Job σ)) = 0 := rfl

/-- A job is work for its server. -/
theorem workOf_cons (x : σ) (j : Job σ) (js : List (Job σ)) :
    workOf x (j :: js) = (if j.server = x then j.work else 0) + workOf x js := by
  unfold workOf
  by_cases hj : j.server = x
  · simp [hj]
  · simp [hj]

theorem workOf_append (x : σ) (js ks : List (Job σ)) :
    workOf x (js ++ ks) = workOf x js + workOf x ks := by
  unfold workOf
  rw [List.filter_append, List.map_append, List.sum_append]

/-- A server is free by `t` when it can do by then what is left from the start and from each
    arrival on. -/
theorem serveAll_le_iff (js : List (Job σ)) : ∀ (free : σ → Nat) (x : σ) (t : Nat),
    serveAll free js x ≤ t ↔ free x + workOf x js ≤ t ∧
      ∀ before j after, js = before ++ j :: after → j.server = x →
        j.arrival + workOf x (j :: after) ≤ t := by
  induction js with
  | nil =>
    intro free x t
    simp
  | cons k js ih =>
    intro free x t
    rw [serveAll_cons, ih, workOf_cons]
    -- the job in front is one more arrival, and puts off the others when it is of this server
    have hsplit : (∀ before j after, k :: js = before ++ j :: after → j.server = x →
        j.arrival + workOf x (j :: after) ≤ t) ↔
        (k.server = x → k.arrival + workOf x (k :: js) ≤ t) ∧
          ∀ before j after, js = before ++ j :: after → j.server = x →
            j.arrival + workOf x (j :: after) ≤ t := by
      constructor
      · intro h
        refine ⟨h [] k js rfl, fun before j after heq => ?_⟩
        apply h (k :: before) j after
        rw [heq, List.cons_append]
      · rintro ⟨hk, h⟩ before j after heq
        cases before with
        | nil =>
            rw [List.nil_append, List.cons.injEq] at heq
            rw [← heq.1, ← heq.2]
            exact hk
        | cons b before =>
            rw [List.cons_append, List.cons.injEq] at heq
            exact h before j after heq.2
    rw [hsplit, workOf_cons]
    by_cases hk : k.server = x
    · subst hk
      rw [serve_self]
      simp only [if_true, true_implies]
      constructor
      · rintro ⟨h₁, h₂⟩
        exact ⟨by omega, by omega, h₂⟩
      · rintro ⟨h₁, h₂, h₃⟩
        exact ⟨by omega, h₃⟩
    · rw [serve_of_ne (Ne.symm hk), if_neg hk, Nat.zero_add]
      simp [hk]

/-- No server is done before its work is. -/
theorem workOf_le_serveAll (free : σ → Nat) (js : List (Job σ)) (x : σ) :
    free x + workOf x js ≤ serveAll free js x :=
  ((serveAll_le_iff js free x _).mp (Nat.le_refl _)).1

/-- After the last arrival, a server is at most its work behind. -/
theorem serveAll_le_of_arrival {t : Nat} (hfree : free x ≤ t)
    (h : ∀ j ∈ js, j.server = x → j.arrival ≤ t) : serveAll free js x ≤ t + workOf x js := by
  rw [serveAll_le_iff]
  refine ⟨by omega, fun before j after heq hj => ?_⟩
  have harrival : j.arrival ≤ t := h j (by simp [heq]) hj
  rw [heq, workOf_append]
  omega

/-! ## Section 3: The schedule -/

@[simp] theorem schedule_nil (free : σ → Nat) : schedule free [] = [] := rfl

@[simp] theorem schedule_cons (free : σ → Nat) (j : Job σ) (js : List (Job σ)) :
    schedule free (j :: js) =
      ⟨j, max (free j.server) j.arrival⟩ :: schedule (serve free j) js := rfl

/-- Later jobs are scheduled behind. -/
theorem schedule_append (js : List (Job σ)) : ∀ free : σ → Nat,
    schedule free (js ++ ks) = schedule free js ++ schedule (serveAll free js) ks := by
  induction js with
  | nil =>
    intro free
    rfl
  | cons j js ih =>
    intro free
    rw [List.cons_append, schedule_cons, schedule_cons, ih, serveAll_cons, List.cons_append]

/-- The jobs are scheduled in order. -/
theorem map_schedule (js : List (Job σ)) : ∀ free : σ → Nat,
    (schedule free js).map Served.toJob = js := by
  induction js with
  | nil =>
    intro free
    rfl
  | cons j js ih =>
    intro free
    rw [schedule_cons, List.map_cons, ih]

/-- No job begins before its server is free. -/
theorem free_le_start (js : List (Job σ)) : ∀ free : σ → Nat,
    ∀ v ∈ schedule free js, free v.server ≤ v.start := by
  induction js with
  | nil =>
    intro free v hv
    exact absurd hv List.not_mem_nil
  | cons j js ih =>
    intro free v hv
    rw [schedule_cons, List.mem_cons] at hv
    rcases hv with rfl | hv
    · exact le_max_left _ _
    · exact (le_serve free j v.server).trans (ih _ v hv)

/-- No job begins before it arrives. -/
theorem arrival_le_start (js : List (Job σ)) : ∀ free : σ → Nat,
    ∀ v ∈ schedule free js, v.arrival ≤ v.start := by
  induction js with
  | nil =>
    intro free v hv
    exact absurd hv List.not_mem_nil
  | cons j js ih =>
    intro free v hv
    rw [schedule_cons, List.mem_cons] at hv
    rcases hv with rfl | hv
    · exact le_max_right _ _
    · exact ih _ v hv

/-- The jobs of a server are served one after the other, in order. -/
theorem schedule_ordered (js : List (Job σ)) : ∀ free : σ → Nat,
    (schedule free js).Pairwise fun v w => v.server = w.server → v.finish ≤ w.start := by
  induction js with
  | nil =>
    intro free
    exact List.Pairwise.nil
  | cons j js ih =>
    intro free
    rw [schedule_cons, List.pairwise_cons]
    refine ⟨fun w hw heq => ?_, ih _⟩
    have hstart := free_le_start js _ w hw
    rw [← heq] at hstart
    exact (serve_self free j).symm.le.trans hstart

/-- A server is done when the last of its jobs is. -/
theorem finish_le_serveAll (js : List (Job σ)) : ∀ free : σ → Nat,
    ∀ v ∈ schedule free js, v.finish ≤ serveAll free js v.server := by
  induction js with
  | nil =>
    intro free v hv
    exact absurd hv List.not_mem_nil
  | cons j js ih =>
    intro free v hv
    rw [schedule_cons, List.mem_cons] at hv
    rcases hv with rfl | hv
    · exact (serve_self free j).symm.le.trans (le_serveAll js _ _)
    · exact ih _ v hv

/-- When a server is free: from the start on, or since a job of its own. -/
theorem serveAll_eq_finish (js : List (Job σ)) : ∀ (free : σ → Nat) (x : σ),
    serveAll free js x = free x ∨
      ∃ v ∈ schedule free js, v.server = x ∧ v.finish = serveAll free js x := by
  induction js with
  | nil =>
    intro free x
    exact Or.inl rfl
  | cons j js ih =>
    intro free x
    rw [serveAll_cons, schedule_cons]
    rcases ih (serve free j) x with heq | ⟨v, hv, hx, hfin⟩
    · by_cases hx : x = j.server
      · subst hx
        refine Or.inr ⟨⟨j, max (free j.server) j.arrival⟩, List.mem_cons_self, rfl, ?_⟩
        rw [heq, serve_self]
        rfl
      · left
        rw [heq, serve_of_ne hx]
    · exact Or.inr ⟨v, List.mem_cons_of_mem _ hv, hx, hfin⟩

/-- A job that does not begin when it arrives begins when its server is free. -/
theorem schedule_prompt {before after : List (Served σ)} {v : Served σ}
    (h : schedule free js = before ++ v :: after) :
    v.start = v.arrival ∨ v.start = free v.server ∨
      ∃ u ∈ before, u.server = v.server ∧ u.finish = v.start := by
  have hjobs : js = before.map Served.toJob ++ v.toJob :: after.map Served.toJob := by
    rw [← map_schedule js free, h, List.map_append, List.map_cons]
  have happend := @schedule_append _ _ (v.toJob :: after.map Served.toJob)
    (before.map Served.toJob) free
  rw [← hjobs, h, schedule_cons] at happend
  have hlen : before.length = (schedule free (before.map Served.toJob)).length := by
    have hmap := congrArg List.length (map_schedule (before.map Served.toJob) free)
    rw [List.length_map, List.length_map] at hmap
    exact hmap.symm
  obtain ⟨hbefore, hrest⟩ := List.append_inj happend hlen
  rw [List.cons.injEq] at hrest
  have hstart : v.start = max (serveAll free (before.map Served.toJob) v.server) v.arrival :=
    congrArg Served.start hrest.1
  rcases max_choice (serveAll free (before.map Served.toJob) v.server) v.arrival with hm | hm
  · right
    rw [hm] at hstart
    rcases serveAll_eq_finish (before.map Served.toJob) free v.server with heq | ⟨u, hu, hx, hfin⟩
    · exact Or.inl (hstart.trans heq)
    · rw [← hbefore] at hu
      exact Or.inr ⟨u, hu, hx, hfin.trans hstart.symm⟩
  · exact Or.inl (hstart.trans hm)

/-- Jobs of distinct servers begin as if each were alone. -/
theorem schedule_start (js : List (Job σ)) : ∀ free : σ → Nat, (js.map Job.server).Nodup →
    ∀ v ∈ schedule free js, v.start = max (free v.server) v.arrival := by
  induction js with
  | nil =>
    intro free hdist v hv
    exact absurd hv List.not_mem_nil
  | cons j js ih =>
    intro free hdist v hv
    rw [List.map_cons, List.nodup_cons] at hdist
    rw [schedule_cons, List.mem_cons] at hv
    rcases hv with rfl | hv
    · rfl
    · rw [ih _ hdist.2 v hv, serve_of_ne]
      rintro heq
      apply hdist.1
      rw [← heq, ← map_schedule js (serve free j), List.map_map]
      exact List.mem_map_of_mem hv

theorem schedule_ne_nil (h : js ≠ []) : schedule free js ≠ [] := by
  intro hnil
  apply h
  rw [← map_schedule js free, hnil, List.map_nil]

end Serving

/-! ## Section 4: The end of the last job -/

/-- The latest of `t` and the ends of the jobs. -/
def lastFinish (t : Nat) (vs : List (Served σ)) : Nat := vs.foldl (fun t v => max t v.finish) t

@[simp] theorem lastFinish_nil (t : Nat) : lastFinish t ([] : List (Served σ)) = t := rfl

@[simp] theorem lastFinish_cons (t : Nat) (v : Served σ) (vs : List (Served σ)) :
    lastFinish t (v :: vs) = lastFinish (max t v.finish) vs := rfl

/-- The end of the last job is the latest one. -/
theorem lastFinish_le_iff (vs : List (Served σ)) : ∀ t u : Nat,
    lastFinish t vs ≤ u ↔ t ≤ u ∧ ∀ v ∈ vs, v.finish ≤ u := by
  induction vs with
  | nil =>
    intro t u
    simp
  | cons v vs ih =>
    intro t u
    rw [lastFinish_cons, ih, max_le_iff, List.forall_mem_cons, and_assoc]

/-- And one of them. -/
theorem lastFinish_eq (vs : List (Served σ)) : ∀ t : Nat,
    lastFinish t vs = t ∨ ∃ v ∈ vs, v.finish = lastFinish t vs := by
  induction vs with
  | nil =>
    intro t
    exact Or.inl rfl
  | cons v vs ih =>
    intro t
    rw [lastFinish_cons]
    rcases ih (max t v.finish) with heq | ⟨w, hw, hfin⟩
    · rcases max_choice t v.finish with hm | hm
      · exact Or.inl (heq.trans hm)
      · exact Or.inr ⟨v, List.mem_cons_self, (heq.trans hm).symm⟩
    · exact Or.inr ⟨w, List.mem_cons_of_mem _ hw, hfin⟩

/-- When no job ends before `t`, the last end is one of them. -/
theorem lastFinish_isGreatest {t : Nat} {vs : List (Served σ)} (hne : vs ≠ [])
    (ht : ∀ v ∈ vs, t ≤ v.finish) :
    IsGreatest {u | ∃ v ∈ vs, v.finish = u} (lastFinish t vs) := by
  have hle := ((lastFinish_le_iff vs t _).mp (Nat.le_refl _)).2
  constructor
  · rcases lastFinish_eq vs t with heq | hmem
    · obtain ⟨v, hv⟩ := List.exists_mem_of_ne_nil vs hne
      refine ⟨v, hv, Nat.le_antisymm (hle v hv) ?_⟩
      rw [heq]
      exact ht v hv
    · exact hmem
  · rintro u ⟨v, hv, rfl⟩
    exact hle v hv

end AggreKV
