import Mathlib.Data.List.Basic

/-! # Loops that collect results

    * `collect`: the results of a partial function over a list, one after the
      other; it fails as soon as one of them does.
    * `collect_some`: what a loop that does not fail has collected.
    * `blocks_flatten`: the blocks of a list, one after the other. -/

namespace AggreKV

variable {α β : Type*}

/-- The results for all elements, one after the other. -/
def collect (f : α → Option (List β)) : List α → Option (List β)
  | [] => some []
  | a :: as => (f a).bind fun bs => (collect f as).map (bs ++ ·)

theorem collect_eq {f : α → Option (List β)} {g : α → List β} {l : List α}
    (h : ∀ a ∈ l, f a = some (g a)) : collect f l = some (l.flatMap g) := by
  induction l with
  | nil => rfl
  | cons a as ih =>
    have hrest := ih fun x hx => h x (List.mem_cons_of_mem _ hx)
    unfold collect
    rw [h a (List.mem_cons_self ..), Option.bind_some, hrest, Option.map_some, List.flatMap_cons]

/-- A loop that does not fail has not failed for any element. -/
theorem collect_some {f : α → Option (List β)} {l : List α} {bs : List β}
    (h : collect f l = some bs) :
    (∀ a ∈ l, f a = some ((f a).getD [])) ∧ bs = l.flatMap fun a => (f a).getD [] := by
  induction l generalizing bs with
  | nil =>
    cases h
    exact ⟨fun a ha => absurd ha List.not_mem_nil, rfl⟩
  | cons a as ih =>
    obtain ⟨b, hb, h⟩ := Option.bind_eq_some_iff.mp h
    obtain ⟨rest, hrest, rfl⟩ := Option.map_eq_some_iff.mp h
    obtain ⟨hall, hflat⟩ := ih hrest
    have ha : f a = some ((f a).getD []) := by rw [hb, Option.getD_some]
    refine ⟨fun x hx => ?_, ?_⟩
    · rcases List.mem_cons.mp hx with rfl | hx
      · exact ha
      · exact hall x hx
    · rw [List.flatMap_cons, hb, Option.getD_some, hflat]

theorem collect_map {γ : Type*} (f : α → Option (List β)) (g : γ → α) (l : List γ) :
    collect f (l.map g) = collect (fun a => f (g a)) l := by
  induction l with
  | nil => rfl
  | cons a as ih =>
    rw [List.map_cons, collect, ih]
    rfl

/-- A loop over the positions of a list. -/
theorem collect_positions (f : α → Option (List β)) (l : List α) :
    collect (fun i => (l[i]?).bind f) (List.range l.length) = collect f l := by
  have hmap : (List.range l.length).map (fun i => l[i]?) = l.map some := by
    apply List.ext_getElem
    · simp
    · intro i h₁ h₂
      simp
  rw [← collect_map (fun o : Option α => o.bind f) (fun i => l[i]?), hmap, collect_map]
  rfl

/-- The elements behind position `c`, read one by one. -/
theorem block_flatMap (l : List α) (c w : Nat) :
    ((List.range w).flatMap fun i => (l[c + i]?).toList) = (l.drop c).take w := by
  induction w with
  | zero => simp
  | succ w ih =>
    rw [List.range_succ, List.flatMap_append, ih, List.flatMap_singleton, List.take_add_one,
      List.getElem?_drop]

/-- The first `n` blocks of size `w`. -/
theorem blocks_flatten (l : List α) (w n : Nat) :
    ((List.range n).flatMap fun i => (l.drop (i * w)).take w) = l.take (n * w) := by
  induction n with
  | zero => simp
  | succ n ih =>
    rw [List.range_succ, List.flatMap_append, ih, List.flatMap_singleton, Nat.succ_mul,
      List.take_add]

end AggreKV
