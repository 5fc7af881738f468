import Mathlib.Data.List.Basic
import Mathlib.Logic.Function.Basic

/-! # Ring buffers

    The newest `count` values of a ring of `cap` slots, where `head` is the
    next slot to write. A push into a full ring overwrites the oldest value.

    * `contents`: the values, oldest first.
    * `contents_push`, `contents_push_full`, `contents_pop`: the operations
      on the contents. -/

namespace AggreKV.RingBuffer

variable {α : Type*}

/-- The slot of the `k`-th oldest value. -/
def slot (cap head count k : Nat) : Nat := (head + cap - count + k) % cap

/-- The values in a ring, oldest first. -/
def contents (ring : Nat → α) (cap head count : Nat) : List α :=
  (List.range count).map fun k => ring (slot cap head count k)

theorem length_contents (ring : Nat → α) (cap head count : Nat) :
    (contents ring cap head count).length = count := by
  rw [contents, List.length_map, List.length_range]

/-- The place before the oldest one is the head. -/
theorem slot_self {cap head count : Nat} (hhead : head < cap) (hcount : count ≤ cap) :
    slot cap head count count = head := by
  unfold slot
  rw [show head + cap - count + count = head + cap by omega, Nat.add_mod_right,
    Nat.mod_eq_of_lt hhead]

/-- The others are not. -/
theorem slot_ne {cap head count k : Nat} (hhead : head < cap) (hcount : count ≤ cap)
    (hk : k < count) (hpos : count < cap + k) : slot cap head count k ≠ head := by
  unfold slot
  by_cases hwrap : head + cap - count + k < cap
  · rw [Nat.mod_eq_of_lt hwrap]
    omega
  · rw [Nat.mod_eq_sub_mod (by omega), Nat.mod_eq_of_lt (by omega)]
    omega

/-- After a push the older values keep their slots. -/
theorem slot_succ {cap head count k : Nat} (hhead : head < cap) (hcount : count < cap) :
    slot cap ((head + 1) % cap) (count + 1) k = slot cap head count k := by
  unfold slot
  by_cases hlast : head + 1 = cap
  · rw [hlast, Nat.mod_self, show head + cap - count + k = 0 + cap - (count + 1) + k + cap by omega,
      Nat.add_mod_right]
  · rw [Nat.mod_eq_of_lt (by omega : head + 1 < cap)]
    congr 1
    omega

/-- In a full ring they move up by one. -/
theorem slot_succ_full {cap head k : Nat} (hhead : head < cap) :
    slot cap ((head + 1) % cap) cap k = slot cap head cap (k + 1) := by
  unfold slot
  by_cases hlast : head + 1 = cap
  · rw [hlast, Nat.mod_self, show head + cap - cap + (k + 1) = 0 + cap - cap + k + cap by omega,
      Nat.add_mod_right]
  · rw [Nat.mod_eq_of_lt (by omega : head + 1 < cap)]
    congr 1
    omega

/-- An element comes to a ring with room. -/
theorem contents_push {ring : Nat → α} {cap head count : Nat} (hhead : head < cap)
    (hcount : count < cap) (v : α) :
    contents (Function.update ring head v) cap ((head + 1) % cap) (count + 1) =
      contents ring cap head count ++ [v] := by
  unfold contents
  rw [List.range_succ, List.map_append]
  congr 1
  · refine List.map_congr_left fun k hk => ?_
    have hk := List.mem_range.mp hk
    rw [slot_succ hhead hcount, Function.update_of_ne (slot_ne hhead (by omega) hk (by omega))]
  · rw [List.map_singleton, slot_succ hhead hcount, slot_self hhead (by omega),
      Function.update_self]

/-- In a full ring it takes the place of the oldest one. -/
theorem contents_push_full {ring : Nat → α} {cap head : Nat} (hhead : head < cap) (v : α) :
    contents (Function.update ring head v) cap ((head + 1) % cap) cap =
      (contents ring cap head cap).tail ++ [v] := by
  obtain ⟨n, hn⟩ := Nat.exists_eq_succ_of_ne_zero (Nat.ne_of_gt (Nat.zero_lt_of_lt hhead))
  have hnew : List.range cap = List.range n ++ [n] := by rw [hn, List.range_succ]
  have hold : List.range cap = 0 :: (List.range n).map Nat.succ := by
    rw [hn, List.range_succ_eq_map]
  have htail : (contents ring cap head cap).tail =
      (List.range n).map fun k => ring (slot cap head cap (k + 1)) := by
    unfold contents
    rw [hold, List.map_cons, List.tail_cons, List.map_map]
    rfl
  rw [htail]
  unfold contents
  rw [hnew, List.map_append]
  congr 1
  · refine List.map_congr_left fun k hk => ?_
    have hk := List.mem_range.mp hk
    rw [slot_succ_full hhead, Function.update_of_ne
      (slot_ne hhead (Nat.le_refl cap) (by omega) (by omega))]
  · rw [List.map_singleton, slot_succ_full hhead, ← Nat.succ_eq_add_one, ← hn,
      slot_self hhead (Nat.le_refl cap), Function.update_self]

/-- The oldest element goes. -/
theorem contents_pop {ring : Nat → α} {cap head count : Nat} (hcount : count + 1 ≤ cap) :
    contents ring cap head (count + 1) =
      ring (slot cap head (count + 1) 0) :: contents ring cap head count := by
  unfold contents
  rw [List.range_succ_eq_map, List.map_cons, List.map_map]
  congr 1
  refine List.map_congr_left fun k _ => ?_
  show ring (slot cap head (count + 1) (k + 1)) = ring (slot cap head count k)
  unfold slot
  congr 2
  omega

end AggreKV.RingBuffer
