import Mathlib.Algebra.BigOperators.Group.Finset.Basic
import Mathlib.Order.Interval.Finset.Nat
import Mathlib.Tactic.Common

/-! # Counting the set bits of a block

    A bit table is cut into blocks of `n` bits. A counter kept next to a
    block is right as long as it follows the single-bit updates.

    * `blockCount n v i`: the set bits of block `i` of the table `v`.
    * `blockCount_set`, `blockCount_clear`: one bit changes. -/

namespace AggreKV

/-- The set bits of block `i`. -/
def blockCount (n : Nat) (v : Nat → Bool) (i : Nat) : Nat :=
  ((Finset.Ico (i * n) (i * n + n)).filter fun g => v g = true).card

/-- The bits of a block. -/
theorem mem_block_iff {n g i : Nat} (hn : 0 < n) :
    g ∈ Finset.Ico (i * n) (i * n + n) ↔ g / n = i := by
  rw [Finset.mem_Ico, Nat.div_eq_iff hn]
  omega

/-- The bits of other blocks do not matter. -/
theorem blockCount_congr {n i : Nat} {v v' : Nat → Bool} (hn : 0 < n)
    (h : ∀ g, g / n = i → v' g = v g) : blockCount n v' i = blockCount n v i := by
  unfold blockCount
  refine congrArg Finset.card (Finset.filter_congr fun g hg => ?_)
  rw [h g ((mem_block_iff hn).mp hg)]

theorem blockCount_le (n : Nat) (v : Nat → Bool) (i : Nat) : blockCount n v i ≤ n := by
  refine Nat.le_trans (Finset.card_filter_le _ _) ?_
  rw [Nat.card_Ico]
  omega

/-- A block counts 0 if all its bits are clear. -/
theorem blockCount_eq_zero {n i : Nat} {v : Nat → Bool} (hn : 0 < n) :
    blockCount n v i = 0 ↔ ∀ g, g / n = i → v g = false := by
  unfold blockCount
  rw [Finset.card_eq_zero, Finset.filter_eq_empty_iff]
  refine forall_congr' fun g => ?_
  rw [mem_block_iff hn, Bool.not_eq_true]

/-- A bit is set. -/
theorem blockCount_set {n g : Nat} {v : Nat → Bool} (hn : 0 < n) (hg : v g = false) (i : Nat) :
    blockCount n (Function.update v g true) i =
      blockCount n v i + if g / n = i then 1 else 0 := by
  split
  · next hi =>
    unfold blockCount
    rw [← Finset.card_insert_of_notMem (a := g) (by simp [hg])]
    refine congrArg Finset.card (Finset.ext fun x => ?_)
    rw [Finset.mem_filter, Finset.mem_insert, Finset.mem_filter]
    by_cases hx : x = g
    · subst hx
      simp [(mem_block_iff hn).mpr hi]
    · simp [hx]
  · next hi =>
    refine blockCount_congr hn fun x hx => Function.update_of_ne ?_ ..
    rintro rfl
    exact hi hx

/-- A bit is cleared. -/
theorem blockCount_clear {n g : Nat} {v : Nat → Bool} (hn : 0 < n) (hg : v g = true) (i : Nat) :
    blockCount n (Function.update v g false) i + (if g / n = i then 1 else 0) =
      blockCount n v i := by
  have h := blockCount_set (v := Function.update v g false) hn (Function.update_self ..) i
  rw [Function.update_idem, ← hg, Function.update_eq_self] at h
  exact h.symm

/-- A block with a set bit. -/
theorem blockCount_pos {n g : Nat} {v : Nat → Bool} (hn : 0 < n) (hg : v g = true) :
    0 < blockCount n v (g / n) := by
  refine Nat.pos_of_ne_zero fun h => ?_
  rw [(blockCount_eq_zero hn).mp h g rfl] at hg
  cases hg

/-- The blocks of a table that is cut into pieces of `k` equal bits. -/
theorem blockCount_mul {k n i : Nat} {v w : Nat → Bool} (hk : 0 < k) (hn : 0 < n)
    (h : ∀ g, g / (k * n) = i → v g = w (g / k)) :
    blockCount (k * n) v i = k * blockCount n w i := by
  have hpos : 0 < k * n := Nat.mul_pos hk hn
  have hdiv : ∀ g, g / (k * n) = g / k / n := fun g => (Nat.div_div_eq_div_mul g k n).symm
  unfold blockCount
  rw [Finset.card_eq_sum_card_fiberwise (f := (· / k))
    (t := (Finset.Ico (i * n) (i * n + n)).filter fun g => w g = true) (fun g hg => ?_)]
  · rw [Finset.sum_const_nat (m := k) fun p hp => ?_, Nat.mul_comm]
    -- The bits of one piece.
    obtain ⟨hblock, hw⟩ := Finset.mem_filter.mp hp
    have hfiber : (((Finset.Ico (i * (k * n)) (i * (k * n) + k * n)).filter fun g =>
        v g = true).filter fun g => g / k = p) = Finset.Ico (p * k) (p * k + k) := by
      ext g
      rw [Finset.mem_filter, Finset.mem_filter, mem_block_iff hpos, mem_block_iff hk]
      refine ⟨fun hg => hg.2, fun hg => ?_⟩
      have hgi : g / (k * n) = i := by
        rw [hdiv, hg]
        exact (mem_block_iff hn).mp hblock
      exact ⟨⟨hgi, by rw [h g hgi, hg, hw]⟩, hg⟩
    rw [hfiber, Nat.card_Ico]
    omega
  · obtain ⟨hblock, hv⟩ := Finset.mem_filter.mp hg
    have hgi := (mem_block_iff hpos).mp hblock
    refine Finset.mem_filter.mpr ⟨(mem_block_iff hn).mpr (by rw [← hdiv, hgi]), ?_⟩
    rw [← h g hgi, hv]

end AggreKV
