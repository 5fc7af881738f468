import Mathlib.Algebra.BigOperators.Group.Finset.Piecewise
import Mathlib.Algebra.Order.Ring.Nat
import Mathlib.Algebra.Order.BigOperators.Group.Finset
import Mathlib.Tactic.Common

/-! # The weight of a table of slots

    Every slot of a table has a weight that depends on its contents: 1 for
    the slots to be counted, a length, a number of bytes. A counter kept
    beside the table is right as long as it follows the single-slot updates.

    * `weight w f n`: the weight of the first `n` slots.
    * `weight_set`: one slot changes.
    * `weight_toNat`: counting is the weight of an indicator. -/

namespace AggreKV

variable {α : Type*}

/-- The weight of the slots below `n`. -/
def weight (w : α → Nat) (f : Nat → α) (n : Nat) : Nat := ∑ i ∈ Finset.range n, w (f i)

variable {w : α → Nat} {f g : Nat → α} {m n i : Nat}

theorem weight_congr (h : ∀ i < n, w (g i) = w (f i)) : weight w g n = weight w f n := by
  apply Finset.sum_congr rfl
  intro i hi
  exact h i (Finset.mem_range.mp hi)

theorem weight_eq_zero (h : ∀ i < n, w (f i) = 0) : weight w f n = 0 := by
  apply Finset.sum_eq_zero
  intro i hi
  exact h i (Finset.mem_range.mp hi)

theorem weight_succ (w : α → Nat) (f : Nat → α) (n : Nat) :
    weight w f (n + 1) = weight w f n + w (f n) := Finset.sum_range_succ ..

theorem le_weight (hi : i < n) : w (f i) ≤ weight w f n := by
  apply Finset.single_le_sum (f := fun i => w (f i))
  · intro j _
    exact Nat.zero_le _
  · exact Finset.mem_range.mpr hi

/-- Slot `i` changes. -/
theorem weight_set (hi : i < n) (h : ∀ j, j ≠ i → w (g j) = w (f j)) :
    weight w g n + w (f i) = weight w f n + w (g i) := by
  have hmem : i ∈ Finset.range n := Finset.mem_range.mpr hi
  have hrest : ∑ j ∈ (Finset.range n).erase i, w (g j) = ∑ j ∈ (Finset.range n).erase i,
      w (f j) := by
    apply Finset.sum_congr rfl
    intro j hj
    exact h j (Finset.ne_of_mem_erase hj)
  have hg := Finset.add_sum_erase (Finset.range n) (fun j => w (g j)) hmem
  have hf := Finset.add_sum_erase (Finset.range n) (fun j => w (f j)) hmem
  unfold weight
  omega

/-- The table is cut behind its first `m` slots. -/
theorem weight_add (w : α → Nat) (f : Nat → α) (m k : Nat) :
    weight w f (m + k) = weight w f m + (((List.range' m k).map f).map w).sum := by
  induction k with
  | zero => rfl
  | succ k ih =>
    rw [← Nat.add_assoc, weight_succ, ih, List.range'_concat, List.map_append, List.map_append,
      List.sum_append, Nat.one_mul, Nat.add_assoc]
    rfl

/-- Slots of no weight are added. -/
theorem weight_extend (hle : m ≤ n) (h : ∀ i, m ≤ i → i < n → w (f i) = 0) :
    weight w f n = weight w f m := by
  induction n, hle using Nat.le_induction with
  | base => rfl
  | succ n hle ih =>
    rw [weight_succ, h n hle (Nat.lt_succ_self n), Nat.add_zero]
    apply ih
    intro i hi hlt
    exact h i hi (Nat.lt_succ_of_lt hlt)

/-- The number of the slots that meet `p`. -/
theorem weight_toNat (p : α → Bool) (f : Nat → α) (n : Nat) :
    weight (fun a => (p a).toNat) f n = ((Finset.range n).filter fun i => p (f i)).card := by
  rw [Finset.card_filter]
  apply Finset.sum_congr rfl
  intro i _
  show (p (f i)).toNat = if p (f i) = true then 1 else 0
  cases p (f i) with
  | true => rfl
  | false => rfl

/-- The classes of a partition are counted one by one. -/
theorem sum_weight_class {k : Nat} (p : α → Bool) (cls : α → Nat)
    (h : ∀ i < n, p (f i) = true → cls (f i) < k) :
    ∑ s ∈ Finset.range k, weight (fun a => (p a && cls a == s).toNat) f n =
      weight (fun a => (p a).toNat) f n := by
  simp only [weight_toNat]
  rw [Finset.card_eq_sum_card_fiberwise (f := fun i => cls (f i)) (t := Finset.range k)]
  · apply Finset.sum_congr rfl
    intro s _
    congr 1
    ext i
    simp [and_assoc]
  · intro i hi
    obtain ⟨hlt, hp⟩ := Finset.mem_filter.mp hi
    exact Finset.mem_coe.mpr (Finset.mem_range.mpr (h i (Finset.mem_range.mp hlt) hp))

end AggreKV
