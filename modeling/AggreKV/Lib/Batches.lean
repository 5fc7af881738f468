import Mathlib.Logic.Function.Iterate
import Mathlib.Tactic.Common

/-! # Work done in batches

    A loop takes one unit of work off a state at a time. A worker that
    runs at most `b` rounds of the loop at each tick finishes the same
    work, in as many ticks as it takes.

    * `loop step left n`: at most `n` rounds, while work is left.
    * `loop_induction`: the invariant rule of the loop.
    * `exists_ticks`: the ticks finish the loop. -/

namespace AggreKV

section Batches

variable {σ : Type*} (step : σ → σ) (left : σ → Nat)

/-- At most `n` rounds of `step`, while work is left. -/
def loop : Nat → σ → σ
  | 0, s => s
  | n + 1, s => if 0 < left s then loop n (step s) else s

variable {step left}

theorem loop_of_done {s : σ} (h : left s = 0) (n : Nat) : loop step left n s = s := by
  cases n with
  | zero => rfl
  | succ n => rw [loop, if_neg (by omega)]

theorem loop_add (m n : Nat) (s : σ) :
    loop step left (m + n) s = loop step left n (loop step left m s) := by
  induction m generalizing s with
  | zero => rw [Nat.zero_add, loop]
  | succ m ih =>
    rw [Nat.add_right_comm, loop, loop]
    by_cases h : 0 < left s
    · rw [if_pos h, if_pos h, ih]
    · rw [if_neg h, if_neg h, loop_of_done (by omega)]

/-- The invariant rule of the loop. -/
theorem loop_induction {I : σ → Prop} (hstep : ∀ s, I s → 0 < left s → I (step s)) (n : Nat)
    {s : σ} (h : I s) : I (loop step left n s) := by
  induction n generalizing s with
  | zero => exact h
  | succ n ih =>
    rw [loop]
    split
    · next hl => exact ih (hstep s h hl)
    · exact h

/-- Every round takes one unit off. -/
theorem left_loop (hstep : ∀ s, 0 < left s → left (step s) + 1 = left s) (n : Nat) (s : σ) :
    left (loop step left n s) = left s - n := by
  induction n generalizing s with
  | zero => rfl
  | succ n ih =>
    rw [loop]
    split
    · next hl =>
      have hone := hstep s hl
      rw [ih]
      omega
    · omega

/-- A tick runs `b` rounds, and finishes when no work is left: the ticks finish the whole
    loop, after at most one tick more than `k` if the work is that of `k` batches. -/
theorem exists_ticks (step : σ → σ) (left : σ → Nat) (tick finish : σ → σ) (busy : σ → Prop)
    (b : Nat) (hleft : ∀ s, 0 < left s → left (step s) + 1 = left s)
    (hbusy : ∀ s, busy s → busy (step s))
    (htick : ∀ s, busy s → tick s =
      if left (loop step left b s) = 0 then finish (loop step left b s) else loop step left b s)
    (k : Nat) {s : σ} (hs : busy s) (hk : left s ≤ k * b) :
    ∃ t ≤ k + 1, tick^[t] s = finish (loop step left (left s) s) := by
  induction k generalizing s with
  | zero =>
    have hdone : left s = 0 := by omega
    refine ⟨1, Nat.le_refl _, ?_⟩
    rw [Function.iterate_one, htick s hs, loop_of_done hdone, if_pos hdone, loop_of_done hdone]
  | succ k ih =>
    by_cases hlast : left s ≤ b
    · refine ⟨1, Nat.le_add_left _ _, ?_⟩
      have hzero : left (loop step left b s) = 0 := by
        rw [left_loop hleft]
        omega
      -- What is left fits one batch, so this tick finishes.
      have hall : loop step left b s = loop step left (left s) s := by
        have hsplit : b = left s + (b - left s) := by omega
        rw [hsplit, loop_add]
        apply loop_of_done
        rw [left_loop hleft]
        omega
      rw [Function.iterate_one, htick s hs, if_pos hzero, hall]
    · have hrest : left (loop step left b s) = left s - b := left_loop hleft b s
      have hbusy' : busy (loop step left b s) := loop_induction (fun s h _ => hbusy s h) b hs
      have hk' : left (loop step left b s) ≤ k * b := by
        rw [hrest]
        rw [Nat.succ_mul] at hk
        omega
      obtain ⟨t, ht, heq⟩ := ih hbusy' hk'
      refine ⟨t + 1, Nat.succ_le_succ ht, ?_⟩
      rw [Function.iterate_succ_apply, htick s hs, if_neg (by omega), heq, ← loop_add, hrest]
      congr 2
      omega

end Batches

end AggreKV
