import Mathlib.Data.List.Basic
import Mathlib.Order.Defs.Unbundled
import Mathlib.Tactic.Common

/-! # Insertion into a list in key order

    Elements in the strict order of their keys. An insertion changes the
    element that has the key, or puts a new one in its place.

    * `sortedInsert`: the insertion.
    * `mem_sortedInsert`, `exists_mem_sortedInsert`: what the new list holds.
    * `KeySorted.sortedInsert`: it is in order; `KeySorted.mem_sortedInsert`:
      its only element with the inserted key is the changed or the new one. -/

namespace AggreKV

variable {ε κ : Type*} {key : ε → κ} {lt : κ → κ → Prop}

/-- Strictly ordered keys. -/
def KeySorted (key : ε → κ) (lt : κ → κ → Prop) (l : List ε) : Prop :=
  l.Pairwise fun x y => lt (key x) (key y)

theorem KeySorted.keys_nodup [Std.Irrefl lt] {l : List ε} (h : KeySorted key lt l) :
    (l.map key).Nodup := by
  refine List.pairwise_map.mpr (h.imp fun {x y} hlt he => ?_)
  rw [he] at hlt
  exact irrefl (key y) hlt

theorem lt_of_not_lt_of_ne [Std.Trichotomous lt] {a b : κ} (h : ¬lt a b) (hne : a ≠ b) :
    lt b a := by
  by_contra hba
  exact hne (Std.Trichotomous.trichotomous a b h hba)

section

variable [DecidableRel lt] [DecidableEq κ]

/-- `change` is applied to an element with key `k`; `new` is put in if there is none. -/
def sortedInsert (key : ε → κ) (lt : κ → κ → Prop) [DecidableRel lt] (k : κ) (change : ε → ε)
    (new : ε) : List ε → List ε
  | [] => [new]
  | x :: xs =>
    if lt (key x) k then x :: sortedInsert key lt k change new xs
    else if key x = k then change x :: xs
    else new :: x :: xs

variable {k : κ} {change : ε → ε} {new : ε}

theorem mem_sortedInsert {l : List ε} {e : ε} (h : e ∈ sortedInsert key lt k change new l) :
    e ∈ l ∨ e = new ∨ ∃ x ∈ l, key x = k ∧ e = change x := by
  induction l with
  | nil => exact Or.inr (Or.inl (List.mem_singleton.mp h))
  | cons x xs ih =>
    unfold sortedInsert at h
    split at h
    · rcases List.mem_cons.mp h with rfl | h
      · exact Or.inl List.mem_cons_self
      · rcases ih h with h | h | ⟨y, hy, hk, he⟩
        · exact Or.inl (List.mem_cons_of_mem _ h)
        · exact Or.inr (Or.inl h)
        · exact Or.inr (Or.inr ⟨y, List.mem_cons_of_mem _ hy, hk, he⟩)
    · split at h
      · next hk =>
        rcases List.mem_cons.mp h with rfl | h
        · exact Or.inr (Or.inr ⟨x, List.mem_cons_self, hk, rfl⟩)
        · exact Or.inl (List.mem_cons_of_mem _ h)
      · rcases List.mem_cons.mp h with rfl | h
        · exact Or.inr (Or.inl rfl)
        · exact Or.inl h

/-- The keys that were there stay, and the inserted one is there. -/
theorem exists_mem_sortedInsert (hnew : key new = k) (hchange : ∀ x, key (change x) = key x)
    {l : List ε} {k' : κ} (h : k' = k ∨ ∃ e ∈ l, key e = k') :
    ∃ e ∈ sortedInsert key lt k change new l, key e = k' := by
  induction l with
  | nil =>
    rcases h with rfl | ⟨e, he, _⟩
    · exact ⟨new, List.mem_singleton_self _, hnew⟩
    · cases he
  | cons x xs ih =>
    unfold sortedInsert
    simp only [List.mem_cons, exists_eq_or_imp] at h
    split
    · simp only [List.mem_cons, exists_eq_or_imp]
      rcases h with rfl | h | h
      · exact Or.inr (ih (Or.inl rfl))
      · exact Or.inl h
      · exact Or.inr (ih (Or.inr h))
    · split
      · next hx =>
        simp only [List.mem_cons, exists_eq_or_imp, hchange]
        rcases h with rfl | h | h
        · exact Or.inl hx
        · exact Or.inl h
        · exact Or.inr h
      · simp only [List.mem_cons, exists_eq_or_imp]
        rcases h with rfl | h
        · exact Or.inl hnew
        · exact Or.inr h

variable [IsStrictTotalOrder κ lt]

theorem KeySorted.sortedInsert {l : List ε} (h : KeySorted key lt l) (hnew : key new = k)
    (hchange : ∀ x, key (change x) = key x) :
    KeySorted key lt (sortedInsert key lt k change new l) := by
  induction l with
  | nil => exact List.pairwise_singleton _ _
  | cons x xs ih =>
    obtain ⟨hx, hxs⟩ := List.pairwise_cons.mp h
    unfold AggreKV.sortedInsert
    split
    · next hlt =>
      refine List.pairwise_cons.mpr ⟨fun y hy => ?_, ih hxs⟩
      rcases mem_sortedInsert hy with hy | rfl | ⟨z, hz, -, rfl⟩
      · exact hx y hy
      · rwa [hnew]
      · rw [hchange]
        exact hx z hz
    · next hge =>
      split
      · refine List.pairwise_cons.mpr ⟨fun y hy => ?_, hxs⟩
        rw [hchange]
        exact hx y hy
      · next hne =>
        -- The new key lies below `x`, so below everything after it.
        have hlt : lt k (key x) := lt_of_not_lt_of_ne hge hne
        refine List.pairwise_cons.mpr ⟨fun y hy => ?_, h⟩
        rw [hnew]
        rcases List.mem_cons.mp hy with rfl | hy
        · exact hlt
        · exact IsTrans.trans _ _ _ hlt (hx y hy)

/-- In an ordered list nothing else has the inserted key. -/
theorem KeySorted.mem_sortedInsert {l : List ε} (h : KeySorted key lt l) {e : ε}
    (he : e ∈ AggreKV.sortedInsert key lt k change new l) :
    e ∈ l ∧ key e ≠ k ∨ e = new ∨ ∃ x ∈ l, key x = k ∧ e = change x := by
  induction l with
  | nil => exact Or.inr (Or.inl (List.mem_singleton.mp he))
  | cons x xs ih =>
    obtain ⟨hx, hxs⟩ := List.pairwise_cons.mp h
    unfold AggreKV.sortedInsert at he
    split at he
    · next hlt =>
      rcases List.mem_cons.mp he with rfl | he
      · refine Or.inl ⟨List.mem_cons_self, fun hk => ?_⟩
        rw [hk] at hlt
        exact irrefl k hlt
      · rcases ih hxs he with ⟨hmem, hne⟩ | hnew | ⟨y, hy, hk, heq⟩
        · exact Or.inl ⟨List.mem_cons_of_mem _ hmem, hne⟩
        · exact Or.inr (Or.inl hnew)
        · exact Or.inr (Or.inr ⟨y, List.mem_cons_of_mem _ hy, hk, heq⟩)
    · next hge =>
      split at he
      · next hk =>
        rcases List.mem_cons.mp he with rfl | he
        · exact Or.inr (Or.inr ⟨x, List.mem_cons_self, hk, rfl⟩)
        · refine Or.inl ⟨List.mem_cons_of_mem _ he, fun hek => ?_⟩
          have hlt := hx e he
          rw [hek, hk] at hlt
          exact irrefl k hlt
      · next hk =>
        rcases List.mem_cons.mp he with rfl | he
        · exact Or.inr (Or.inl rfl)
        · refine Or.inl ⟨he, fun hek => ?_⟩
          rcases List.mem_cons.mp he with rfl | he
          · exact hk hek
          · have hlt : lt k (key e) := IsTrans.trans _ _ _ (lt_of_not_lt_of_ne hge hk) (hx e he)
            rw [hek] at hlt
            exact irrefl k hlt

end

end AggreKV
