import Mathlib.Tactic.Common

/-! # Intervals that tile a range

    Workers reserve stretches of a counter: each holds at most one stretch,
    a start and a length. What is reserved and not yet given back tiles the
    range from `lo` to `hi`. A reservation is made at the upper end and
    given back at the lower end.

    * `Tiling.reserve`, `Tiling.release`: the two operations.
    * `Tiling.first`: whose turn it is to give back.
    * `Tiling.unique`: no position has two holders. -/

namespace AggreKV

variable {T : Type*}

/-- The stretches held by the workers tile `[lo, hi)`. -/
structure Tiling (hold : T → Option (Nat × Nat)) (lo hi : Nat) : Prop where
  le : lo ≤ hi
  within : ∀ t a n, hold t = some (a, n) → lo ≤ a ∧ 0 < n ∧ a + n ≤ hi
  disjoint : ∀ t u a n b m, hold t = some (a, n) → hold u = some (b, m) → t ≠ u →
    a + n ≤ b ∨ b + m ≤ a
  cover : ∀ p, lo ≤ p → p < hi → ∃ t a n, hold t = some (a, n) ∧ a ≤ p ∧ p < a + n

namespace Tiling

variable {hold hold' : T → Option (Nat × Nat)} {lo hi : Nat}

theorem empty (h : ∀ t, hold t = none) (lo : Nat) : Tiling hold lo lo where
  le := Nat.le_refl lo
  within := by
    intro t a n ht
    simp [h t] at ht
  disjoint := by
    intro t u a n b m ht
    simp [h t] at ht
  cover := by
    intro p hlo hhi
    omega

theorem congr (hT : Tiling hold lo hi) (h : ∀ t, hold' t = hold t) : Tiling hold' lo hi := by
  have heq : hold' = hold := funext h
  rw [heq]
  exact hT

/-- No position is held twice. -/
theorem unique (hT : Tiling hold lo hi) {t u : T} {a n b m p : Nat}
    (ht : hold t = some (a, n)) (hu : hold u = some (b, m))
    (hat : a ≤ p) (hpt : p < a + n) (hbu : b ≤ p) (hpu : p < b + m) : t = u := by
  by_contra hne
  have h := hT.disjoint t u a n b m ht hu hne
  omega

/-- The lower end has a holder, as long as anything is held. -/
theorem first (hT : Tiling hold lo hi) (h : lo < hi) : ∃ t n, hold t = some (lo, n) := by
  obtain ⟨t, a, n, ht, hap, hpa⟩ := hT.cover lo (Nat.le_refl lo) h
  have hw := hT.within t a n ht
  have ha : a = lo := by omega
  rw [ha] at ht
  exact ⟨t, n, ht⟩

/-- A worker without a stretch reserves `n` positions at the upper end. -/
theorem reserve (hT : Tiling hold lo hi) {t : T} {n : Nat} (ht : hold t = none)
    (hrest : ∀ u, u ≠ t → hold' u = hold u) (ht' : hold' t = some (hi, n)) (hn : 0 < n) :
    Tiling hold' lo (hi + n) where
  le := by
    have h := hT.le
    omega
  within := by
    intro u a m hu
    by_cases hut : u = t
    · simp [hut, ht'] at hu
      have h := hT.le
      omega
    · rw [hrest u hut] at hu
      have h := hT.within u a m hu
      omega
  disjoint := by
    intro u v a m b k hu hv hne
    by_cases hut : u = t
    · -- the new stretch lies behind all others
      have hvt : v ≠ t := fun hvt => hne (hut.trans hvt.symm)
      rw [hrest v hvt] at hv
      simp [hut, ht'] at hu
      have h := hT.within v b k hv
      omega
    · rw [hrest u hut] at hu
      by_cases hvt : v = t
      · simp [hvt, ht'] at hv
        have h := hT.within u a m hu
        omega
      · rw [hrest v hvt] at hv
        exact hT.disjoint u v a m b k hu hv hne
  cover := by
    intro p hlo hhi
    by_cases hp : p < hi
    · obtain ⟨u, a, m, hu, hap, hpa⟩ := hT.cover p hlo hp
      have hut : u ≠ t := by
        intro hut
        simp [hut, ht] at hu
      exact ⟨u, a, m, (hrest u hut).trans hu, hap, hpa⟩
    · exact ⟨t, hi, n, ht', by omega, hhi⟩

/-- The holder of the lower end gives its stretch back. -/
theorem release (hT : Tiling hold lo hi) {t : T} {n : Nat} (ht : hold t = some (lo, n))
    (hrest : ∀ u, u ≠ t → hold' u = hold u) (ht' : hold' t = none) :
    Tiling hold' (lo + n) hi where
  le := (hT.within t lo n ht).2.2
  within := by
    intro u a m hu
    have hut : u ≠ t := by
      intro hut
      simp [hut, ht'] at hu
    rw [hrest u hut] at hu
    have hw := hT.within u a m hu
    have hd := hT.disjoint u t a m lo n hu ht hut
    omega
  disjoint := by
    intro u v a m b k hu hv hne
    have hut : u ≠ t := by
      intro hut
      simp [hut, ht'] at hu
    have hvt : v ≠ t := by
      intro hvt
      simp [hvt, ht'] at hv
    rw [hrest u hut] at hu
    rw [hrest v hvt] at hv
    exact hT.disjoint u v a m b k hu hv hne
  cover := by
    intro p hlo hhi
    obtain ⟨u, a, m, hu, hap, hpa⟩ := hT.cover p (by omega) hhi
    have hut : u ≠ t := by
      intro hut
      simp [hut, ht] at hu
      omega
    exact ⟨u, a, m, (hrest u hut).trans hu, hap, hpa⟩

/-- A lone holder has the whole range. -/
theorem eq_of_sole (hT : Tiling hold lo hi) {t : T} {a n : Nat} (ht : hold t = some (a, n))
    (hsole : ∀ u, u ≠ t → hold u = none) : a = lo ∧ a + n = hi := by
  have hw := hT.within t a n ht
  have hlow : a = lo := by
    by_contra hne
    obtain ⟨u, b, m, hu, hbp, hpb⟩ := hT.cover lo (Nat.le_refl lo) (by omega)
    by_cases hut : u = t
    · simp [hut, ht] at hu
      omega
    · simp [hsole u hut] at hu
  refine ⟨hlow, ?_⟩
  by_contra hne
  obtain ⟨u, b, m, hu, hbp, hpb⟩ := hT.cover (a + n) (by omega) (by omega)
  by_cases hut : u = t
  · simp [hut, ht] at hu
    omega
  · simp [hsole u hut] at hu

/-- Nobody holds anything: the range is empty. -/
theorem eq_of_none (hT : Tiling hold lo hi) (h : ∀ t, hold t = none) : lo = hi := by
  by_contra hne
  have hle := hT.le
  obtain ⟨t, n, ht⟩ := hT.first (by omega)
  simp [h t] at ht

end Tiling

end AggreKV
