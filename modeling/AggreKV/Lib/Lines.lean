import Mathlib.Data.List.Basic
import Mathlib.Logic.Function.Basic

/-! # Append-only lines

    Pages are numbered through, `len` of them form a line, and each line
    takes its pages in order, from a write pointer on.

    * `Consecutive`: a queue of pages, of any lines, that the lines take.
    * `advance`: the write pointers after the queue. -/

namespace AggreKV

variable {len : Nat} {wp : Nat → Nat}

/-- The pages of the queue that lie in line `i`. -/
def onLine (len : Nat) (q : List Nat) (i : Nat) : List Nat := q.filter fun p => p / len = i

/-- The places of a queue on one line. -/
theorem mem_onLine {q : List Nat} {i p : Nat} : p ∈ onLine len q i ↔ p ∈ q ∧ p / len = i := by
  simp [onLine]

/-- Those of two queues in a row. -/
theorem onLine_append (a b : List Nat) (i : Nat) :
    onLine len (a ++ b) i = onLine len a i ++ onLine len b i :=
  List.filter_append ..

/-- A place on its line. -/
theorem onLine_cons_self (p : Nat) (q : List Nat) :
    onLine len (p :: q) (p / len) = p :: onLine len q (p / len) :=
  List.filter_cons_of_pos (by simp)

/-- And on another one. -/
theorem onLine_cons_of_ne {p i : Nat} (q : List Nat) (h : p / len ≠ i) :
    onLine len (p :: q) i = onLine len q i :=
  List.filter_cons_of_neg (by simpa using h)

/-- A line that the queue does not touch. -/
theorem onLine_eq_nil {q : List Nat} {i : Nat} (h : ∀ p ∈ q, p / len ≠ i) : onLine len q i = [] :=
  List.filter_eq_nil_iff.mpr fun p hp => by simpa using h p hp

/-- The queue meets each line at its write pointer and leaves no gap. -/
def Consecutive (len : Nat) (wp : Nat → Nat) (q : List Nat) : Prop :=
  ∀ i, onLine len q i = List.range' (i * len + wp i) (onLine len q i).length

/-- The write pointers after the pages of the queue. -/
def advance (len : Nat) (wp : Nat → Nat) (q : List Nat) (i : Nat) : Nat :=
  wp i + (onLine len q i).length

/-- The write pointers move place by place. -/
theorem advance_cons (p : Nat) (q : List Nat) :
    advance len wp (p :: q) = advance len (Function.update wp (p / len) (wp (p / len) + 1)) q := by
  funext i
  unfold advance
  by_cases hi : p / len = i
  · subst hi
    rw [onLine_cons_self, Function.update_self, List.length_cons]
    omega
  · rw [onLine_cons_of_ne q hi, Function.update_of_ne (Ne.symm hi)]

namespace Consecutive

/-- The first page is taken, and the rest of the queue follows it. -/
theorem cons {p : Nat} {q : List Nat} (h : Consecutive len wp (p :: q)) :
    wp (p / len) = p % len ∧
      Consecutive len (Function.update wp (p / len) (wp (p / len) + 1)) q := by
  have hp := h (p / len)
  rw [onLine_cons_self, List.length_cons, List.range'_succ] at hp
  obtain ⟨hhead, htail⟩ := List.cons.inj hp
  have hdiv := Nat.div_add_mod p len
  rw [Nat.mul_comm] at hdiv
  refine ⟨by omega, fun i => ?_⟩
  by_cases hi : p / len = i
  · subst hi
    rw [Function.update_self, ← Nat.add_assoc]
    exact htail
  · have hi' := h i
    rw [onLine_cons_of_ne q hi] at hi'
    rw [Function.update_of_ne (Ne.symm hi)]
    exact hi'

/-- Two queues in a row. -/
theorem append {a b : List Nat} (h : Consecutive len wp (a ++ b)) :
    Consecutive len wp a ∧ Consecutive len (advance len wp a) b := by
  have hsplit : ∀ i, onLine len a i = List.range' (i * len + wp i) (onLine len a i).length ∧
      onLine len b i = List.range' (i * len + wp i + (onLine len a i).length)
        (onLine len b i).length := fun i => by
    have hi := h i
    rw [onLine_append, List.length_append, ← List.range'_append_1] at hi
    exact List.append_inj hi (by rw [List.length_range'])
  refine ⟨fun i => (hsplit i).1, fun i => ?_⟩
  unfold advance
  rw [← Nat.add_assoc]
  exact (hsplit i).2

end Consecutive

end AggreKV
