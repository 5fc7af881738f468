import AggreKV.Lib.ByteBuffer
import Mathlib.Data.List.Lex
import Mathlib.Order.Fin.Basic
import Mathlib.Order.Compare

/-! # Keys of the LSM store

    `KEYT` and its comparisons (`lsm_settings.h`).

    * A key is at most 255 bytes, since `len` is a `uint8_t`.
    * `KEYCMP` compares by `memcmp`, then the shorter key first; that is the
      lexicographic order, which `Key` carries as its order instance. -/

namespace AggreKV.LsmTree

/-! ## Section 1: Keys -/

abbrev Byte := Fin 256

/-- `KEYT`. -/
structure Key where
  bytes : List Byte
  len_le : bytes.length ≤ 255
  deriving DecidableEq

namespace Key

def len (k : Key) : Nat := k.bytes.length

theorem bytes_injective : Function.Injective Key.bytes := by
  rintro ⟨bs, hb⟩ ⟨cs, hc⟩ (rfl : bs = cs)
  rfl

instance : LinearOrder Key := LinearOrder.lift' Key.bytes bytes_injective

theorem lt_iff {a b : Key} : a < b ↔ a.bytes < b.bytes := Iff.rfl

end Key

/-! ## Section 2: Comparisons -/

/-- `memcmp` on the first `n` bytes. -/
def memcmp : Nat → List Byte → List Byte → Ordering
  | n + 1, a :: as, b :: bs => if a < b then .lt else if b < a then .gt else memcmp n as bs
  | _, _, _ => .eq

/-- `KEYCMP`. -/
def keyCmp (a b : Key) : Ordering :=
  if a.len = 0 ∧ b.len = 0 then .eq
  else if a.len = 0 then .lt
  else if b.len = 0 then .gt
  else
    let r := memcmp (if a.len > b.len then b.len else a.len) a.bytes b.bytes
    if r ≠ .eq ∨ a.len = b.len then r else if a.len < b.len then .lt else .gt

/-- `KEYTEST`. -/
def keyTest (a b : Key) : Bool :=
  if a.len ≠ b.len then false else memcmp a.len a.bytes b.bytes == .eq

/-- `KEYVALCHECK`: not empty, and the first byte is no negative `char`. -/
def keyValCheck (k : Key) : Bool :=
  match k.bytes with
  | [] => false
  | b :: _ => decide (b.val < 128)

/-- `KEYLEN`: the key with its `ppa_t`. -/
def keyLen (k : Key) : Nat := k.len + 4

/-- `key_max` and `key_min` of `lsm_create`. -/
def keyMax : Key := ⟨List.replicate 255 255, by rw [List.length_replicate]⟩

def keyMin : Key := ⟨List.replicate 255 0, by rw [List.length_replicate]⟩

theorem keyLen_le (k : Key) : keyLen k ≤ 259 := Nat.add_le_add_right k.len_le 4

/-! ## Section 3: `KEYCMP` is the order -/

/-- Comparing the common prefix and then the lengths is the lexicographic order. -/
theorem memcmp_lt : ∀ (as bs : List Byte) (n : Nat), n = min as.length bs.length →
    (as < bs ↔ memcmp n as bs = .lt ∨ memcmp n as bs = .eq ∧ as.length < bs.length)
  | [], [], _, h => by
      subst h
      simp [memcmp]
  | [], _ :: _, _, h => by
      subst h
      simp [memcmp]
  | _ :: _, [], _, h => by
      subst h
      simp [memcmp]
  | a :: as, b :: bs, n, h => by
      subst h
      have ih := memcmp_lt as bs _ rfl
      rw [List.cons_lt_cons_iff, List.length_cons, List.length_cons, Nat.succ_min_succ]
      unfold memcmp
      rcases lt_trichotomy a b with hab | rfl | hab
      · simp [hab]
      · rw [if_neg (lt_irrefl a), if_neg (lt_irrefl a), ih]
        simp
      · simp [hab, hab.not_gt, hab.ne']

theorem memcmp_swap : ∀ (n : Nat) (as bs : List Byte), memcmp n bs as = (memcmp n as bs).swap
  | 0, as, bs => by cases as <;> cases bs <;> rfl
  | _ + 1, [], bs => by cases bs <;> rfl
  | _ + 1, _ :: _, [] => rfl
  | n + 1, a :: as, b :: bs => by
      have ih := memcmp_swap n as bs
      unfold memcmp
      rcases lt_trichotomy a b with hab | rfl | hab
      · simp [hab, hab.not_gt]
      · simp [ih]
      · simp [hab, hab.not_gt]

theorem cmpLen_eq_min (m n : Nat) : (if m > n then n else m) = min m n := by
  split <;> omega

theorem keyCmp_lt {a b : Key} : keyCmp a b = .lt ↔ a < b := by
  rw [Key.lt_iff, memcmp_lt a.bytes b.bytes _ rfl]
  unfold keyCmp Key.len
  rcases Nat.eq_zero_or_pos a.bytes.length with ha | ha
  · rcases Nat.eq_zero_or_pos b.bytes.length with hb | hb
    · simp [List.eq_nil_of_length_eq_zero ha, List.eq_nil_of_length_eq_zero hb, memcmp]
    · simp [List.eq_nil_of_length_eq_zero ha, hb.ne', memcmp, hb]
  · rcases Nat.eq_zero_or_pos b.bytes.length with hb | hb
    · simp [List.eq_nil_of_length_eq_zero hb, ha.ne', memcmp]
    · simp only [ha.ne', hb.ne', false_and, if_false, cmpLen_eq_min]
      generalize memcmp _ a.bytes b.bytes = r
      cases r with
      | lt => simp
      | gt => simp
      | eq =>
          rcases Nat.lt_trichotomy a.bytes.length b.bytes.length with hl | hl | hl
          · simp [hl, hl.ne]
          · simp [hl]
          · simp [hl.ne', hl.not_gt]

theorem keyCmp_swap (a b : Key) : keyCmp b a = (keyCmp a b).swap := by
  unfold keyCmp
  rw [cmpLen_eq_min, cmpLen_eq_min, Nat.min_comm b.len, memcmp_swap _ a.bytes b.bytes]
  generalize memcmp _ a.bytes b.bytes = r
  -- only equal prefixes leave the answer to the lengths
  cases r with
  | eq =>
      rcases lt_trichotomy a.len b.len with h | h | h
      · simp [h.ne, h.ne', h, h.not_gt]
        split_ifs <;> first | rfl | omega
      · by_cases h0 : b.len = 0 <;> simp [h, h0]
      · simp [h.ne, h.ne', h, h.not_gt]
        split_ifs <;> first | rfl | omega
  | lt | gt => split_ifs <;> first | rfl | omega

theorem keyCmp_gt {a b : Key} : keyCmp a b = .gt ↔ b < a := by
  rw [← keyCmp_lt, keyCmp_swap a b]
  cases keyCmp a b <;> simp

theorem keyCmp_eq {a b : Key} : keyCmp a b = .eq ↔ a = b := by
  constructor
  · intro h
    refine le_antisymm (not_lt.mp fun hba => ?_) (not_lt.mp fun hab => ?_)
    · rw [keyCmp_gt.mpr hba] at h
      cases h
    · rw [keyCmp_lt.mpr hab] at h
      cases h
  · rintro rfl
    cases h : keyCmp a a with
    | lt => exact absurd (keyCmp_lt.mp h) (lt_irrefl a)
    | eq => rfl
    | gt => exact absurd (keyCmp_gt.mp h) (lt_irrefl a)

theorem keyTest_iff {a b : Key} : keyTest a b = true ↔ a = b := by
  rw [← keyCmp_eq]
  unfold keyTest keyCmp
  by_cases hlen : a.len = b.len
  · rcases Nat.eq_zero_or_pos b.len with hb | hb
    · simp [hlen, hb, memcmp]
    · simp [hlen, hb.ne']
  · rcases Nat.eq_zero_or_pos a.len with ha | ha
    · have hb : b.len ≠ 0 := fun h => hlen (ha.trans h.symm)
      simp [ha, hb, hb.symm]
    · rcases Nat.eq_zero_or_pos b.len with hb | hb
      · simp [hb, ha.ne']
      · simp only [hlen, ne_eq, not_false_eq_true, if_true, Bool.false_eq_true, false_iff,
          ha.ne', hb.ne', false_and, if_false, or_false]
        split_ifs with hr <;> simp_all

end AggreKV.LsmTree
