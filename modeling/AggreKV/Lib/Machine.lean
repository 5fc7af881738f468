import Mathlib.Tactic.Common

/-! # Deterministic labelled machines

    A machine is a partial step function: `next s a = none` when the
    action `a` is not enabled in `s`, or when the step aborts.

    * `Reach ok`: the states reached by runs whose steps all meet the
      side condition `ok`; `Reachable` is the unconditional case.
    * `Reach.invariant`: the induction rule for invariants of such runs.
    * `exec`: running a list of actions, to name concrete runs.
    * `withHistory`: a history kept beside the state.
    * `exec_simulates`: the rule for runs of one machine that are runs of another.
    * `runCalls`: an object that answers calls, and `runCalls_refines`, the
      rule for one object that answers as another does. -/

namespace AggreKV

/-- A deterministic machine over states `σ` and actions `α`. -/
structure Machine (σ : Type*) (α : Type*) where
  init : σ → Prop
  next : σ → α → Option σ

namespace Machine

variable {σ α : Type*} (M : Machine σ α)

/-- The states reached by the runs whose steps all satisfy `ok`. -/
inductive Reach (ok : σ → α → Prop) : σ → Prop where
  | init : ∀ {s}, M.init s → Reach ok s
  | step : ∀ {s s'} a, Reach ok s → ok s a → M.next s a = some s' → Reach ok s'

/-- Reachability by any run. -/
def Reachable (s : σ) : Prop := M.Reach (fun _ _ => True) s

/-- Running a list of actions from `s`. -/
def exec (s : σ) : List α → Option σ
  | [] => some s
  | a :: as => (M.next s a).bind fun s' => exec s' as

/-- Every step of the run meets `ok`. -/
def Along (ok : σ → α → Prop) (s : σ) : List α → Prop
  | [] => True
  | a :: as => ok s a ∧ ∀ s', M.next s a = some s' → Along ok s' as

/-- Evaluates a decidable side condition along a run. -/
def check (ok : σ → α → Bool) (s : σ) : List α → Bool
  | [] => true
  | a :: as => ok s a && ((M.next s a).all fun s' => check ok s' as)

variable {M}

/-- What holds along a run can be checked step by step. -/
theorem along_of_check {ok : σ → α → Bool} : ∀ {as : List α} {s : σ},
    M.check ok s as = true → M.Along (fun s a => ok s a = true) s as
  | [], _, _ => trivial
  | a :: as, s, h => by
      simp only [check, Bool.and_eq_true] at h
      refine ⟨h.1, fun s' hs' => along_of_check ?_⟩
      have h2 := h.2
      rw [hs'] at h2
      exact h2

/-- What is weaker holds along it, too. -/
theorem Along.mono {ok ok' : σ → α → Prop} (hle : ∀ s a, ok s a → ok' s a) :
    ∀ {as : List α} {s : σ}, M.Along ok s as → M.Along ok' s as
  | [], _, _ => trivial
  | _ :: _, _, h => ⟨hle _ _ h.1, fun s' hs' => (h.2 s' hs').mono hle⟩

/-- A run falls into two. -/
theorem Along.append {ok : σ → α → Prop} {bs : List α} : ∀ {as : List α} {s t : σ},
    M.Along ok s (as ++ bs) → M.exec s as = some t → M.Along ok s as ∧ M.Along ok t bs
  | [], s, t, h, he => by
      cases he
      exact ⟨trivial, h⟩
  | a :: as, s, t, h, he => by
      obtain ⟨u, hu, he⟩ := Option.bind_eq_some_iff.mp he
      refine ⟨⟨h.1, fun s' hs' => ?_⟩, ((h.2 u hu).append he).2⟩
      rw [hu, Option.some.injEq] at hs'
      subst hs'
      exact ((h.2 u hu).append he).1

/-- The invariant rule for conditional runs: the step case may use that
    the state before the step is itself reached by such a run. -/
theorem Reach.invariant {ok : σ → α → Prop} {I : σ → Prop}
    (hinit : ∀ s, M.init s → I s)
    (hstep : ∀ s s' a, M.Reach ok s → I s → ok s a → M.next s a = some s' → I s')
    {s : σ} (h : M.Reach ok s) : I s := by
  induction h with
  | init hs => exact hinit _ hs
  | step a hr hok hn ih => exact hstep _ _ a hr ih hok hn

theorem Reach.mono {ok ok' : σ → α → Prop} (hle : ∀ s a, ok s a → ok' s a)
    {s : σ} (h : M.Reach ok s) : M.Reach ok' s := by
  induction h with
  | init hs => exact .init hs
  | step a _ hok hn ih => exact .step a ih (hle _ _ hok) hn

/-- A state that is reached under a condition is reachable. -/
theorem Reach.reachable {ok : σ → α → Prop} {s : σ} (h : M.Reach ok s) : M.Reachable s :=
  h.mono fun _ _ _ => trivial

/-- A run from a reached state reaches its end. -/
theorem Reach.exec {ok : σ → α → Prop} {s s' : σ} (hs : M.Reach ok s) :
    ∀ {as : List α}, M.Along ok s as → M.exec s as = some s' → M.Reach ok s' := by
  intro as
  induction as generalizing s with
  | nil =>
    intro _ he
    cases he
    exact hs
  | cons a as ih =>
    intro hal he
    obtain ⟨hok, hrest⟩ := hal
    obtain ⟨t, ht, he⟩ := Option.bind_eq_some_iff.mp he
    exact ih (.step a hs hok ht) (hrest t ht) he

theorem Reachable.init {s : σ} (h : M.init s) : M.Reachable s := Reach.init h

/-- The same without a condition. -/
theorem Reachable.exec {s s' : σ} (hs : M.Reachable s) {as : List α}
    (he : M.exec s as = some s') : M.Reachable s' := by
  refine Reach.exec hs ?_ he
  clear hs he
  induction as generalizing s with
  | nil => trivial
  | cons a as ih => exact ⟨trivial, fun t _ => ih⟩

/-- The machine with a history beside its state, which no step reads. -/
def withHistory {τ : Type*} (M : Machine σ α) (h₀ : τ) (record : σ → τ → α → τ) :
    Machine (σ × τ) α where
  init := fun x => M.init x.1 ∧ x.2 = h₀
  next := fun x a => (M.next x.1 a).map fun s => (s, record x.1 x.2 a)

section History

variable {τ : Type*} {h₀ : τ} {record : σ → τ → α → τ} {ok : σ → α → Prop}

/-- The history may be left out. -/
theorem withHistory_reach {x : σ × τ}
    (h : (M.withHistory h₀ record).Reach (fun x a => ok x.1 a) x) : M.Reach ok x.1 := by
  induction h with
  | init hi => exact .init hi.1
  | step a _ hok hn ih =>
    obtain ⟨s, hs, rfl⟩ := Option.map_eq_some_iff.mp hn
    exact .step a ih hok hs

/-- Every run has a history. -/
theorem exists_withHistory {s : σ} (h : M.Reach ok s) :
    ∃ t, (M.withHistory h₀ record).Reach (fun x a => ok x.1 a) (s, t) := by
  induction h with
  | init hi => exact ⟨h₀, .init ⟨hi, rfl⟩⟩
  | @step s s' a _ hok hn ih =>
    obtain ⟨t, ht⟩ := ih
    have hnext : (M.withHistory h₀ record).next (s, t) a = some (s', record s t a) := by
      show (M.next s a).map _ = _
      rw [hn]
      rfl
    exact ⟨_, .step a ht hok hnext⟩

end History

/-- Forward simulation, for machines whose actions match along `f`: each run of `M` is one of
    `N`. -/
theorem exec_simulates {τ β : Type*} {N : Machine τ β} {f : β → α} {R : σ → τ → Prop}
    (hstep : ∀ s t a s', R s t → M.next s a = some s' →
      ∃ b t', f b = a ∧ N.next t b = some t' ∧ R s' t')
    {as : List α} {s s' : σ} {t : τ} (hR : R s t) (h : M.exec s as = some s') :
    ∃ bs t', bs.map f = as ∧ N.exec t bs = some t' ∧ R s' t' := by
  induction as generalizing s t with
  | nil =>
    cases h
    exact ⟨[], t, rfl, rfl, hR⟩
  | cons a as ih =>
    obtain ⟨s₁, hs₁, hrest⟩ := Option.bind_eq_some_iff.mp h
    obtain ⟨b, t₁, rfl, ht₁, hR₁⟩ := hstep s t a s₁ hR hs₁
    obtain ⟨bs, t', rfl, ht', hR'⟩ := ih hR₁ hrest
    exact ⟨b :: bs, t', rfl, Option.bind_eq_some_iff.mpr ⟨t₁, ht₁, ht'⟩, hR'⟩

end Machine

/-! ## Objects that answer calls -/

section Calls

variable {σ τ κ ρ : Type*}

/-- The replies to a list of calls, and the object after them. -/
def runCalls (call : σ → κ → Option (ρ × σ)) : σ → List κ → Option (List ρ × σ)
  | s, [] => some ([], s)
  | s, c :: cs => (call s c).bind fun p => (runCalls call p.2 cs).map fun q => (p.1 :: q.1, q.2)

/-- The first call and the rest. -/
theorem runCalls_cons {call : σ → κ → Option (ρ × σ)} {s s' : σ} {c : κ} {cs : List κ}
    {rs : List ρ} (h : runCalls call s (c :: cs) = some (rs, s')) : ∃ r s₁ rs₁,
      call s c = some (r, s₁) ∧ runCalls call s₁ cs = some (rs₁, s') ∧ rs = r :: rs₁ := by
  obtain ⟨⟨r, s₁⟩, hc, h⟩ := Option.bind_eq_some_iff.mp h
  obtain ⟨⟨rs₁, s₂⟩, hcs, heq⟩ := Option.map_eq_some_iff.mp h
  cases heq
  exact ⟨r, s₁, rs₁, hc, hcs, rfl⟩

/-- Calls after calls. -/
theorem runCalls_append {call : σ → κ → Option (ρ × σ)} {s s' : σ} {cs ds : List κ}
    {rs : List ρ} (h : runCalls call s (cs ++ ds) = some (rs, s')) : ∃ s₁ rs₁ rs₂,
      runCalls call s cs = some (rs₁, s₁) ∧ runCalls call s₁ ds = some (rs₂, s') := by
  induction cs generalizing s rs with
  | nil => exact ⟨s, [], rs, rfl, h⟩
  | cons c cs ih =>
    obtain ⟨r, s₁, rs₁, hc, hcs, -⟩ := runCalls_cons h
    obtain ⟨s₂, rs₂, rs₃, hcs, hds⟩ := ih hcs
    refine ⟨s₂, r :: rs₂, rs₃, ?_, hds⟩
    rw [runCalls, hc, Option.bind_some, hcs]
    rfl

/-- The invariant rule for calls. -/
theorem runCalls_invariant {call : σ → κ → Option (ρ × σ)} {I : σ → Prop} {P : κ → Prop}
    (hstep : ∀ s c r s', I s → P c → call s c = some (r, s') → I s') {s s' : σ} {cs : List κ}
    {rs : List ρ} (hs : I s) (hcs : ∀ c ∈ cs, P c) (h : runCalls call s cs = some (rs, s')) :
    I s' := by
  induction cs generalizing s rs with
  | nil =>
    cases h
    exact hs
  | cons c cs ih =>
    obtain ⟨r, s₁, rs₁, hc, h, -⟩ := runCalls_cons h
    have hs₁ := hstep s c r s₁ hs (hcs c (List.mem_cons_self ..)) hc
    exact ih hs₁ (fun c' hc' => hcs c' (List.mem_cons_of_mem _ hc')) h

/-- An object that can answer each call as an abstract one does answers every list of calls
    so. -/
theorem runCalls_refines {call : σ → κ → Option (ρ × σ)} {spec : τ → κ → Option (ρ × τ)}
    {R : σ → τ → Prop} (hstep : ∀ s t c r t', R s t → spec t c = some (r, t') →
      ∃ s', call s c = some (r, s') ∧ R s' t')
    {s : σ} {t t' : τ} {cs : List κ} {rs : List ρ} (hR : R s t)
    (h : runCalls spec t cs = some (rs, t')) :
    ∃ s', runCalls call s cs = some (rs, s') ∧ R s' t' := by
  induction cs generalizing s t rs with
  | nil =>
    cases h
    exact ⟨s, rfl, hR⟩
  | cons c cs ih =>
    obtain ⟨r, t₁, rs₁, hc, hrest, rfl⟩ := runCalls_cons h
    obtain ⟨s₁, hs₁, hR₁⟩ := hstep s t c r t₁ hR hc
    obtain ⟨s', hs', hR'⟩ := ih hR₁ hrest
    refine ⟨s', ?_, hR'⟩
    rw [runCalls, hs₁, Option.bind_some, hs']
    rfl

end Calls

end AggreKV
