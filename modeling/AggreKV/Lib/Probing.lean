import Mathlib.Logic.Function.Basic
import Mathlib.Tactic.Common

/-! # Open addressing

    A table of slots in which each key is looked for along its own probe
    sequence. The state is who owns which slot; nothing is ever removed.

    * `WellPlaced`: every key lies behind slots owned by other keys, within
      the first probes of its sequence.
    * `WellPlaced.insert`: a key may take the first free slot of its walk.
    * `WellPlaced.walk_cases`: a walk that has found only other keys is
      either at the key's slot or before it. -/

namespace AggreKV.Probing

variable {κ σ : Type*}

/-- The first `n` probes of `k` met slots of other keys. -/
def Walked (probe : κ → Nat → σ) (owner : σ → Option κ) (k : κ) (n : Nat) : Prop :=
  ∀ c < n, ∃ k', owner (probe k c) = some k' ∧ k' ≠ k

/-- Every owned slot is the first one of its owner's walk that is not another key's, and
    at most `tries` probes away. -/
def WellPlaced (probe : κ → Nat → σ) (owner : σ → Option κ) (tries : Nat) : Prop :=
  ∀ s k, owner s = some k → ∃ c ≤ tries, probe k c = s ∧ Walked probe owner k c

/-- Slots keep their owners. -/
def Extends (owner owner' : σ → Option κ) : Prop :=
  ∀ s k, owner s = some k → owner' s = some k

variable {probe : κ → Nat → σ} {owner owner' owner'' : σ → Option κ} {k : κ} {n tries : Nat}

theorem Extends.refl (owner : σ → Option κ) : Extends owner owner := fun _ _ h => h

/-- The same owners. -/
theorem Extends.of_eq (h : owner' = owner) : Extends owner owner' := h ▸ Extends.refl _

theorem Extends.trans (h : Extends owner owner') (h' : Extends owner' owner'') :
    Extends owner owner'' := fun s k hs => h' s k (h s k hs)

/-- A slot gets an owner, or keeps it. -/
theorem Extends.update [DecidableEq σ] {s : σ} (h : owner s = none ∨ owner s = some k) :
    Extends owner (Function.update owner s (some k)) := by
  intro s' k' hs'
  by_cases he : s' = s
  · subst he
    rcases h with h | h
    · rw [h] at hs'
      cases hs'
    · rw [Function.update_self, ← h, hs']
  · rw [Function.update_of_ne he, hs']

/-- A walk begins. -/
theorem Walked.zero (probe : κ → Nat → σ) (owner : σ → Option κ) (k : κ) :
    Walked probe owner k 0 := fun _ hc => absurd hc (Nat.not_lt_zero _)

/-- It goes on past a slot of another key. -/
theorem Walked.next (h : Walked probe owner k n) {k' : κ} (hs : owner (probe k n) = some k')
    (hne : k' ≠ k) : Walked probe owner k (n + 1) := by
  intro c hc
  rcases Nat.lt_succ_iff_lt_or_eq.mp hc with hlt | rfl
  · exact h c hlt
  · exact ⟨k', hs, hne⟩

/-- New owners do not undo it. -/
theorem Walked.extends (h : Walked probe owner k n) (he : Extends owner owner') :
    Walked probe owner' k n := fun c hc => by
  obtain ⟨k', hs, hne⟩ := h c hc
  exact ⟨k', he _ _ hs, hne⟩

/-- The slot of a key is not among those its walk has passed. -/
theorem Walked.le (h : Walked probe owner k n) {c : Nat} (hc : owner (probe k c) = some k) :
    n ≤ c := by
  by_contra hlt
  obtain ⟨k', hs, hne⟩ := h c (by omega)
  rw [hc, Option.some.injEq] at hs
  exact hne hs.symm

/-- More tries are allowed. -/
theorem WellPlaced.mono (h : WellPlaced probe owner tries) {tries' : Nat} (hle : tries ≤ tries') :
    WellPlaced probe owner tries' := fun s k hs => by
  obtain ⟨c, hc, hp⟩ := h s k hs
  exact ⟨c, Nat.le_trans hc hle, hp⟩

/-- No key owns two slots. -/
theorem WellPlaced.unique (h : WellPlaced probe owner tries) {s s' : σ} (hs : owner s = some k)
    (hs' : owner s' = some k) : s = s' := by
  obtain ⟨c, -, rfl, hw⟩ := h s k hs
  obtain ⟨c', -, rfl, hw'⟩ := h s' k hs'
  have hle : c ≤ c' := hw.le hs'
  have hle' : c' ≤ c := hw'.le hs
  rw [Nat.le_antisymm hle hle']

/-- A key is put where its walk has come to. -/
theorem WellPlaced.insert [DecidableEq σ] (h : WellPlaced probe owner tries)
    (hw : Walked probe owner k n) (hs : owner (probe k n) = none ∨ owner (probe k n) = some k) :
    WellPlaced probe (Function.update owner (probe k n) (some k)) (max n tries) := by
  have hext : Extends owner (Function.update owner (probe k n) (some k)) := .update hs
  intro s' k' hs'
  by_cases he : s' = probe k n
  · rw [he, Function.update_self, Option.some.injEq] at hs'
    subst hs'
    exact ⟨n, Nat.le_max_left _ _, he.symm, hw.extends hext⟩
  · rw [Function.update_of_ne he] at hs'
    obtain ⟨c, hc, hp, hwc⟩ := h s' k' hs'
    exact ⟨c, Nat.le_trans hc (Nat.le_max_right _ _), hp, hwc.extends hext⟩

/-- Where the walk of a present key is: at its slot, or before it at another key's. -/
theorem WellPlaced.walk_cases (h : WellPlaced probe owner tries) {s : σ} (hs : owner s = some k)
    (hw : Walked probe owner k n) :
    n ≤ tries ∧ (probe k n = s ∨ ∃ k', owner (probe k n) = some k' ∧ k' ≠ k) := by
  obtain ⟨c, hc, rfl, hwc⟩ := h s k hs
  have hle : n ≤ c := hw.le hs
  refine ⟨Nat.le_trans hle hc, ?_⟩
  rcases Nat.eq_or_lt_of_le hle with rfl | hlt
  · exact Or.inl rfl
  · exact Or.inr (hwc n hlt)

end AggreKV.Probing
