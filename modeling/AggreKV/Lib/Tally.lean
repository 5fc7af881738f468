import Mathlib.Logic.Function.Basic
import Mathlib.Data.List.Nodup
import Mathlib.Tactic.Common

/-! # The contents of a table of slots

    A table gives each of its first `n` slots at most one entry. Its
    contents are the list of these entries.

    * `tally_update`: an empty slot is filled.
    * `exists_empty`: a table with less entries than slots has an empty one.
    * `nodup_tally`, `slot_unique`: distinct keys, over slots and over entries. -/

namespace AggreKV

variable {α β : Type*}

/-- The entries of the slots below `n`. -/
def tally (f : Nat → Option α) (n : Nat) : List α := (List.range n).filterMap f

variable {f g : Nat → Option α} {n : Nat}

theorem tally_succ (f : Nat → Option α) (n : Nat) :
    tally f (n + 1) = tally f n ++ (f n).toList := by
  rw [tally, List.range_succ, List.filterMap_append, tally]
  rfl

theorem tally_congr (h : ∀ i < n, f i = g i) : tally f n = tally g n :=
  List.filterMap_congr fun i hi => h i (List.mem_range.mp hi)

theorem mem_tally {a : α} : a ∈ tally f n ↔ ∃ i < n, f i = some a := by
  simp [tally]

theorem tally_eq_nil (h : ∀ i < n, f i = none) : tally f n = [] := by
  rw [tally, List.filterMap_eq_nil_iff]
  intro i hi
  exact h i (List.mem_range.mp hi)

/-- Filling an empty slot. -/
theorem tally_update {i : Nat} (hi : i < n) (hf : f i = none) (a : α) :
    (tally (Function.update f i (some a)) n).Perm (a :: tally f n) := by
  induction n with
  | zero => exact absurd hi (Nat.not_lt_zero i)
  | succ n ih =>
    rw [tally_succ, tally_succ]
    by_cases hin : i = n
    · subst hin
      have hbelow : tally (Function.update f i (some a)) i = tally f i :=
        tally_congr fun j hj => Function.update_of_ne (Nat.ne_of_lt hj) ..
      rw [Function.update_self, hbelow, hf, Option.toList_none, List.append_nil, Option.toList_some]
      exact List.perm_append_singleton a _
    · rw [Function.update_of_ne (Ne.symm hin), ← List.cons_append]
      exact (ih (by omega)).append_right _

theorem length_tally_le (f : Nat → Option α) (n : Nat) : (tally f n).length ≤ n := by
  have hle := List.length_filterMap_le f (List.range n)
  rwa [List.length_range] at hle

/-- A table with less entries than slots has an empty slot. -/
theorem exists_empty (h : (tally f n).length < n) : ∃ i < n, f i = none := by
  induction n with
  | zero => exact absurd h (Nat.not_lt_zero _)
  | succ n ih =>
    by_cases hn : f n = none
    · exact ⟨n, Nat.lt_succ_self n, hn⟩
    · obtain ⟨a, ha⟩ := Option.ne_none_iff_exists'.mp hn
      rw [tally_succ, ha, List.length_append, Option.toList_some, List.length_singleton] at h
      obtain ⟨i, hi, hf⟩ := ih (Nat.lt_of_succ_lt_succ h)
      exact ⟨i, Nat.lt_succ_of_lt hi, hf⟩

/-- The keys of the entries are distinct if no two slots share one. -/
theorem nodup_tally (key : α → β) (h : ∀ i < n, ∀ j < n, ∀ a b, f i = some a → f j = some b →
    key a = key b → i = j) : ((tally f n).map key).Nodup := by
  induction n with
  | zero => exact List.nodup_nil
  | succ n ih =>
    have hbelow := ih fun i hi j hj =>
      h i (Nat.lt_succ_of_lt hi) j (Nat.lt_succ_of_lt hj)
    rw [tally_succ, List.map_append]
    cases hn : f n with
    | none => simpa using hbelow
    | some a =>
      refine List.nodup_append.mpr ⟨hbelow, by simp, ?_⟩
      intro k hk k' hk' he
      obtain ⟨b, hb, rfl⟩ := List.mem_map.mp hk
      obtain ⟨i, hi, hfi⟩ := mem_tally.mp hb
      have hk'a : k' = key a := by simpa using hk'
      have hin := h i (Nat.lt_succ_of_lt hi) n (Nat.lt_succ_self n) b a hfi hn (he.trans hk'a)
      exact absurd hin (Nat.ne_of_lt hi)

/-- If the keys of the entries are distinct, no two slots share one. -/
theorem slot_unique (key : α → β) (h : ((tally f n).map key).Nodup) {i j : Nat} (hi : i < n)
    (hj : j < n) {a b : α} (ha : f i = some a) (hb : f j = some b) (hab : key a = key b) :
    i = j := by
  induction n with
  | zero => exact absurd hi (Nat.not_lt_zero i)
  | succ n ih =>
    rw [tally_succ, List.map_append] at h
    obtain ⟨hbelow, -, hapart⟩ := List.nodup_append.mp h
    -- An entry below `n` has not the key of slot `n`.
    have hlast : ∀ {k : Nat} {c d : α}, k < n → f k = some c → f n = some d → key c ≠ key d := by
      intro k c d hk hc hd
      apply hapart (key c) (List.mem_map_of_mem (mem_tally.mpr ⟨k, hk, hc⟩))
      rw [hd]
      exact List.mem_map_of_mem (List.mem_singleton_self d)
    rcases Nat.lt_succ_iff_lt_or_eq.mp hi with hin | rfl
    · rcases Nat.lt_succ_iff_lt_or_eq.mp hj with hjn | rfl
      · exact ih hbelow hin hjn
      · exact absurd hab (hlast hin ha hb)
    · rcases Nat.lt_succ_iff_lt_or_eq.mp hj with hjn | rfl
      · exact absurd hab.symm (hlast hjn hb ha)
      · rfl

end AggreKV
