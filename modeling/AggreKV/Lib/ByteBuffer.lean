import Mathlib.Algebra.GroupWithZero.Nat
import Mathlib.Tactic.Common

/-! # Byte buffers

    A buffer of a fixed size that is read and written by address, and
    unsigned numbers in little-endian order.

    * An access outside the buffer fails.
    * `read_write_self`, `read_write_other`: what a read finds after a write.
    * `leValue_leBytes`: a number that fits its width is read back. -/

namespace AggreKV

/-- The cells of a buffer. -/
abbrev Buffer := Nat → Fin 256

namespace Buffer

variable {size : Nat}

/-! ## Section 1: Reading and writing -/

/-- `memcpy` from the buffer. -/
def read (size : Nat) (p : Buffer) (addr n : Nat) : Option (List (Fin 256)) :=
  if addr + n ≤ size then some ((List.range' addr n).map p) else none

/-- `memcpy` to the buffer. -/
def write (size : Nat) (p : Buffer) (addr : Nat) (bs : List (Fin 256)) : Option Buffer :=
  if addr + bs.length ≤ size then
    some fun a => if addr ≤ a then (bs[a - addr]?).getD (p a) else p a
  else none

/-- A write within the buffer succeeds. -/
theorem write_isSome {p : Buffer} {addr : Nat} {bs : List (Fin 256)} (h : addr + bs.length ≤ size) :
    ∃ q, write size p addr bs = some q := ⟨_, if_pos h⟩

/-- What is written is read. -/
theorem read_write_self {p q : Buffer} {addr : Nat} {bs : List (Fin 256)}
    (h : write size p addr bs = some q) : read size q addr bs.length = some bs := by
  unfold write at h
  split at h
  · next hle =>
    cases h
    unfold read
    rw [if_pos hle]
    congr 1
    apply List.ext_getElem?
    intro i
    rw [List.getElem?_map]
    by_cases hi : i < bs.length
    · rw [List.getElem?_range' hi, List.getElem?_eq_getElem hi]
      simp [hi]
    · rw [List.getElem?_eq_none (by simp; omega), List.getElem?_eq_none (by omega)]
      rfl
  · cases h

/-- The other bytes stay. -/
theorem read_write_other {p q : Buffer} {addr addr' n : Nat} {bs : List (Fin 256)}
    (h : write size p addr bs = some q) (hd : addr' + n ≤ addr ∨ addr + bs.length ≤ addr') :
    read size q addr' n = read size p addr' n := by
  unfold write at h
  split at h
  · cases h
    unfold read
    split
    · congr 1
      apply List.map_congr_left
      intro a ha
      rw [List.mem_range'_1] at ha
      split
      · rw [List.getElem?_eq_none (by omega)]
        rfl
      · rfl
    · rfl
  · cases h

/-- As many bytes are read as asked for. -/
theorem length_read {p : Buffer} {addr n : Nat} {bs : List (Fin 256)}
    (h : read size p addr n = some bs) : bs.length = n := by
  unfold read at h
  split at h
  · cases h
    simp
  · cases h

/-! ## Section 2: Numbers -/

instance neZero_byte : NeZero 256 := ⟨by decide⟩

/-- The `n` lowest bytes of a number, lowest first. -/
def leBytes : Nat → Nat → List (Fin 256)
  | 0, _ => []
  | n + 1, v => Fin.ofNat 256 v :: leBytes n (v / 256)

def leValue : List (Fin 256) → Nat
  | [] => 0
  | b :: bs => b.val + 256 * leValue bs

@[simp] theorem length_leBytes (n v : Nat) : (leBytes n v).length = n := by
  induction n generalizing v with
  | zero => rfl
  | succ n ih => rw [leBytes, List.length_cons, ih]

/-- A number that fits is read back. -/
theorem leValue_leBytes {n v : Nat} (h : v < 256 ^ n) : leValue (leBytes n v) = v := by
  induction n generalizing v with
  | zero =>
    rw [Nat.pow_zero, Nat.lt_one_iff] at h
    rw [h]
    rfl
  | succ n ih =>
    have hdiv : v / 256 < 256 ^ n := by
      rw [Nat.div_lt_iff_lt_mul (by decide), ← Nat.pow_succ]
      exact h
    have hmod : (Fin.ofNat 256 v).val = v % 256 := rfl
    rw [leBytes, leValue, ih hdiv, hmod]
    exact Nat.mod_add_div v 256

end Buffer

end AggreKV
