import Mathlib.Algebra.Order.Ring.Nat
import Mathlib.Data.List.Perm.Basic
import Mathlib.Tactic.Common

/-! # Lists

    Facts about lists and loops over them that Mathlib does not have.

    * `exists_last_least`: the element that a search for the last minimum finds.
    * `exists_cut`: where a search in a sorted list stops.
    * `sum_filter_le`: what is summed over one value of an injective key.
    * `foldlM_last`: a loop ends with what each of its iterations establishes. -/

namespace AggreKV

variable {α β : Type*}

/-! ## Section 1: Elements -/

/-- Taking an element out of a queue. -/
theorem perm_of_getElem? {l : List α} {i : Nat} {x : α} (h : l[i]? = some x) :
    (x :: l.eraseIdx i).Perm l := by
  obtain ⟨hi, rfl⟩ := List.getElem?_eq_some_iff.mp h
  exact List.getElem_cons_eraseIdx_perm hi

/-- The last least element of a list. -/
theorem exists_last_least (f : α → Nat) : ∀ {l : List α}, l ≠ [] →
    ∃ as i bs, l = as ++ i :: bs ∧ (∀ j ∈ l, f i ≤ f j) ∧ ∀ j ∈ bs, f i < f j
  | [], hne => absurd rfl hne
  | [a], _ => ⟨[], a, [], rfl, by simp, by simp⟩
  | a :: b :: l, _ => by
      obtain ⟨as, i, bs, hl, hle, hlt⟩ := exists_last_least f (List.cons_ne_nil b l)
      -- the element in front wins only if it is less than the last least one of the rest
      by_cases ha : f a < f i
      · refine ⟨[], a, b :: l, rfl, ?_, fun j hj => Nat.lt_of_lt_of_le ha (hle j hj)⟩
        intro j hj
        rcases List.mem_cons.mp hj with rfl | hj
        · exact Nat.le_refl _
        · exact Nat.le_of_lt (Nat.lt_of_lt_of_le ha (hle j hj))
      · refine ⟨a :: as, i, bs, by rw [hl, List.cons_append], ?_, hlt⟩
        intro j hj
        rcases List.mem_cons.mp hj with rfl | hj
        · exact Nat.not_lt.mp ha
        · exact hle j hj

/-- A list is cut where a property ends that holds of everything before it. -/
theorem exists_cut {p : α → Prop} {l : List α} (h : l.Pairwise fun a b => p b → p a) :
    ∃ L R, l = L ++ R ∧ (∀ x ∈ L, p x) ∧ ∀ x ∈ R, ¬p x := by
  induction l with
  | nil =>
      refine ⟨[], [], rfl, ?_, ?_⟩
      · exact fun x hx => absurd hx List.not_mem_nil
      · exact fun x hx => absurd hx List.not_mem_nil
  | cons a l ih =>
      obtain ⟨ha, hl⟩ := List.pairwise_cons.mp h
      by_cases hp : p a
      · obtain ⟨L, R, rfl, hL, hR⟩ := ih hl
        exact ⟨a :: L, R, rfl, List.forall_mem_cons.mpr ⟨hp, hL⟩, hR⟩
      · refine ⟨[], a :: l, rfl, ?_, List.forall_mem_cons.mpr ⟨hp, fun x hx hx' => ?_⟩⟩
        · exact fun x hx => absurd hx List.not_mem_nil
        · exact hp (ha x hx hx')

/-- Repetitions of a greatest element are not below a list that is no longer. -/
theorem not_replicate_lt [LT α] {a : α} (ha : ∀ b, ¬a < b) : ∀ {bs : List α} {n : Nat},
    bs.length ≤ n → ¬List.replicate n a < bs
  | [], _, _ => List.not_lt_nil _
  | b :: bs, n, hn => by
      intro hlt
      obtain ⟨n, rfl⟩ := Nat.exists_eq_succ_of_ne_zero (Nat.ne_of_gt (Nat.zero_lt_of_lt hn))
      rw [List.replicate_succ, List.cons_lt_cons_iff] at hlt
      rcases hlt with hb | ⟨-, hlt⟩
      · exact ha b hb
      · exact not_replicate_lt ha (Nat.le_of_succ_le_succ hn) hlt

/-! ## Section 2: Filters -/

/-- What is summed over one value of an injective key is one summand. -/
theorem sum_filter_le [DecidableEq β] {xs : List α} {g : α → β} {w : α → Nat}
    {c : Nat} (h : (xs.map g).Nodup) (hw : ∀ x ∈ xs, w x ≤ c) (p : β) :
    ((xs.filter fun x => g x = p).map w).sum ≤ c := by
  induction xs with
  | nil => exact Nat.zero_le c
  | cons x xs ih =>
      rw [List.map_cons, List.nodup_cons] at h
      by_cases hx : g x = p
      · have hrest : (xs.filter fun y => g y = p) = [] := by
          refine List.filter_eq_nil_iff.mpr fun y hy hyp => h.1 ?_
          rw [hx, ← of_decide_eq_true hyp]
          exact List.mem_map_of_mem hy
        rw [List.filter_cons_of_pos (by rwa [decide_eq_true_eq]), hrest]
        show w x + 0 ≤ c
        exact hw x (List.mem_cons_self ..)
      · rw [List.filter_cons_of_neg (by rwa [decide_eq_true_eq])]
        exact ih h.2 fun y hy => hw y (List.mem_cons_of_mem _ hy)

/-- A stricter filter on a part of the list, below the filtered order. -/
theorem filter_sublist_filter {p p' : α → Bool} {rs rs' order : List α}
    (h : (rs.filter p).Sublist order) (hrs : rs'.Sublist rs) (hp : ∀ q, p' q = true → p q = true) :
    (rs'.filter p').Sublist (order.filter p') := by
  have hsub := (hrs.filter p').trans (List.Sublist.refl (rs.filter p'))
  have htwice : rs.filter p' = (rs.filter p).filter p' := by
    rw [List.filter_filter]
    refine List.filter_congr fun q _ => ?_
    cases hq : p' q with
    | false => rfl
    | true => rw [hp q hq]; rfl
  rw [htwice] at hsub
  exact hsub.trans (h.filter p')

/-! ## Section 3: Loops -/

/-- The list of one index of a range. -/
theorem flatMap_single (k : Nat) (l : List α) : ∀ n : Nat,
    (List.range n).flatMap (fun j => if k = j then l else []) = if k < n then l else []
  | 0 => rfl
  | n + 1 => by
      rw [List.range_succ, List.flatMap_append, flatMap_single k l n, List.flatMap_singleton]
      by_cases hk : k = n
      · subst hk
        simp
      · have hiff : k < n + 1 ↔ k < n := by omega
        simp [hk, hiff]

/-- A property that every iteration establishes from a weaker one. -/
theorem foldlM_last {α β : Type} {g : β → α → Option β} {P Q : β → Prop} (hPQ : ∀ {b}, Q b → P b)
    (hg : ∀ {b b' a}, P b → g b a = some b' → Q b') : ∀ {l : List α} {b b' : β}, l ≠ [] → P b →
      l.foldlM g b = some b' → Q b'
  | [], _, _, hl, _, _ => absurd rfl hl
  | [a], b, b', _, hb, h => by
      obtain ⟨c, hc, he⟩ := Option.bind_eq_some_iff.mp h
      cases he
      exact hg hb hc
  | a :: x :: l, b, b', _, hb, h => by
      obtain ⟨c, hc, h⟩ := Option.bind_eq_some_iff.mp h
      exact foldlM_last hPQ hg (List.cons_ne_nil x l) (hPQ (hg hb hc)) h

end AggreKV
