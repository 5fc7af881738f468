import Mathlib.Tactic.Common

/-! # Binary search over an interval of integers

    The loop of a binary search as C programs write it: both ends are
    inclusive and signed, the midpoint is rounded towards zero, and what is
    left behind when the interval is empty decides the answer.

    * `searchLoop`: the loop, for any three-way comparison that may fail.
    * `Ends`: what its result says about a sorted interval.
    * `searchLoop_ends`: the loop ends so, with enough fuel. -/

namespace AggreKV

namespace BinarySearch

/-! ## Section 1: The loop -/

/-- How the loop ends: at an equal element, or with the ends of the empty interval and the
    last position looked at, with its comparison. -/
inductive Ending where
  | hit (mid : Int)
  | miss (start stop : Int) (last : Option (Int × Ordering))
  deriving DecidableEq

/-- `while (start <= end)`; `cmp` compares an element with the one searched for. -/
def searchLoop (cmp : Int → Option Ordering) :
    Nat → Int → Int → Option (Int × Ordering) → Option Ending
  | 0, _, _, _ => none
  | fuel + 1, start, stop, last =>
      if start ≤ stop then
        let mid := (start + stop).tdiv 2
        (cmp mid).bind fun r =>
          match r with
          | .eq => some (.hit mid)
          | .lt => searchLoop cmp fuel (mid + 1) stop (some (mid, .lt))
          | .gt => searchLoop cmp fuel start (mid - 1) (some (mid, .gt))
      else some (.miss start stop last)

/-- The elements of `[lo, hi]` in order, seen from the one searched for. -/
structure InOrder (cmp : Int → Option Ordering) (f : Int → Ordering) (lo hi : Int) : Prop where
  read : ∀ i, lo ≤ i → i ≤ hi → cmp i = some (f i)
  below : ∀ i j, lo ≤ i → i < j → j ≤ hi → f j ≠ .gt → f i = .lt
  above : ∀ i j, lo ≤ i → i < j → j ≤ hi → f i ≠ .lt → f j = .gt

/-- The position looked at last is next to where the interval became empty. -/
def LastAt (lo hi start : Int) : Option (Int × Ordering) → Prop
  | none => start = lo ∧ hi + 1 = lo
  | some (mid, .lt) => mid + 1 = start ∧ lo ≤ mid
  | some (mid, .gt) => mid = start ∧ mid ≤ hi
  | some (_, .eq) => False

/-- What the end of the loop says. -/
inductive Ends (f : Int → Ordering) (lo hi : Int) : Ending → Prop where
  | hit {mid : Int} (hlo : lo ≤ mid) (hhi : mid ≤ hi) (heq : f mid = .eq) : Ends f lo hi (.hit mid)
  | miss {start stop : Int} {last : Option (Int × Ordering)} (hempty : stop + 1 = start)
      (hlo : lo ≤ start) (hhi : start ≤ hi + 1) (hbelow : ∀ i, lo ≤ i → i < start → f i = .lt)
      (habove : ∀ i, start ≤ i → i ≤ hi → f i = .gt) (hlast : LastAt lo hi start last) :
      Ends f lo hi (.miss start stop last)

/-! ## Section 2: Its result -/

/-- The middle is between the ends. -/
theorem tdiv_two_bounds {start stop : Int} (h0 : 0 ≤ start) (h : start ≤ stop) :
    start ≤ (start + stop).tdiv 2 ∧ (start + stop).tdiv 2 ≤ stop := by
  rw [Int.tdiv_eq_ediv_of_nonneg (by omega)]
  omega

/-- What the last comparison says while the loop runs. -/
def LastNear (lo hi start stop : Int) : Option (Int × Ordering) → Prop
  | none => start = lo ∧ stop = hi
  | some (mid, .lt) => mid + 1 = start ∧ lo ≤ mid
  | some (mid, .gt) => mid = stop + 1 ∧ mid ≤ hi
  | some (_, .eq) => False

variable {cmp : Int → Option Ordering} {f : Int → Ordering} {lo hi : Int}

/-- The loop invariant: everything before `start` is below, everything after `stop` above. -/
theorem searchLoop_inv (h : InOrder cmp f lo hi) (h0 : 0 ≤ lo) (fuel : Nat) :
    ∀ (start stop : Int) (last : Option (Int × Ordering)), stop + 1 - start < fuel →
      start ≤ stop + 1 → lo ≤ start → stop ≤ hi →
      (∀ i, lo ≤ i → i < start → f i = .lt) → (∀ i, stop < i → i ≤ hi → f i = .gt) →
      LastNear lo hi start stop last →
      ∃ r, searchLoop cmp fuel start stop last = some r ∧ Ends f lo hi r := by
  induction fuel with
  | zero =>
    intro start stop last hf hle
    omega
  | succ fuel ih =>
    intro start stop last hf hle hlo hhi hbelow habove hlast
    unfold searchLoop
    by_cases hne : start ≤ stop
    · obtain ⟨hm₁, hm₂⟩ := tdiv_two_bounds (by omega) hne
      rw [if_pos hne]
      dsimp only
      generalize (start + stop).tdiv 2 = mid at hm₁ hm₂ ⊢
      have hread := h.read mid (by omega) (by omega)
      rw [hread, Option.bind_some]
      cases hf' : f mid with
      | eq => exact ⟨_, rfl, .hit (by omega) (by omega) hf'⟩
      -- All before the middle are below, too.
      | lt =>
        apply ih (mid + 1) stop (some (mid, .lt)) (by omega) (by omega) (by omega) hhi
        · intro i hi₁ hi₂
          rcases Int.lt_or_eq_of_le (Int.lt_add_one_iff.mp hi₂) with hlt | rfl
          · exact h.below i mid hi₁ hlt (by omega) (by simp [hf'])
          · exact hf'
        · exact habove
        · exact ⟨rfl, by omega⟩
      -- All behind it are above.
      | gt =>
        apply ih start (mid - 1) (some (mid, .gt)) (by omega) (by omega) hlo (by omega) hbelow
        · intro i hi₁ hi₂
          rcases Int.lt_or_eq_of_le (show mid ≤ i by omega) with hlt | rfl
          · exact h.above mid i (by omega) hlt hi₂ (by simp [hf'])
          · exact hf'
        · exact ⟨by omega, by omega⟩
    · rw [if_neg hne]
      refine ⟨_, rfl, .miss (by omega) hlo (by omega) hbelow (fun i hi₁ hi₂ => ?_) ?_⟩
      · exact habove i (by omega) hi₂
      · match last, hlast with
        | none, hlast => exact ⟨hlast.1, by have := hlast.1; have := hlast.2; omega⟩
        | some (mid, .lt), hlast => exact hlast
        | some (mid, .gt), hlast => exact ⟨by have := hlast.1; omega, hlast.2⟩

/-- With a step for each element and one more, the loop ends and its result is right. -/
theorem searchLoop_ends (h : InOrder cmp f lo hi) (h0 : 0 ≤ lo) (hle : lo ≤ hi + 1) {fuel : Nat}
    (hfuel : hi + 1 - lo < fuel) :
    ∃ r, searchLoop cmp fuel lo hi none = some r ∧ Ends f lo hi r :=
  searchLoop_inv h h0 fuel lo hi none hfuel hle (Int.le_refl _) (Int.le_refl _)
    (fun i h₁ h₂ => by omega) (fun i h₁ h₂ => by omega) ⟨rfl, rfl⟩

end BinarySearch

end AggreKV
