import AggreKV.Lib.BitFill
import Mathlib.Data.List.Range
import Mathlib.Data.Nat.ModEq

/-! # The ring between the threads

    Requests and completions pass between the threads through rings of
    pointers (`rte_ring.h`, `rte_ring.c`): a table whose size is a power of
    two, and for either side a head and a tail. The four indices are 32-bit
    counters that are masked when the table is accessed.

    * `rteAlign32pow2`, `rteRingInit`, `rteRingCreate`, `ringCreate`: how a
      ring is made.
    * `WellFormed`: what the other functions rely on, and
      `rteRingCreate_usable`: for which arguments a made ring meets it.
    * `copyPtrs`: the slots that the copying macros visit. -/

namespace AggreKV.RteRing

/-! ## Section 1: 32-bit counters -/

/-- The value of a `uint32_t`. -/
def u32 (x : Nat) : Nat := x % 2 ^ 32

/-- `x - y` on `uint32_t`. -/
def sub32 (x y : Nat) : Nat := u32 (x + (2 ^ 32 - y))

theorem u32_lt (x : Nat) : u32 x < 2 ^ 32 := Nat.mod_lt _ (by decide)

theorem u32_of_lt {x : Nat} (h : x < 2 ^ 32) : u32 x = x := Nat.mod_eq_of_lt h

theorem u32_add (x y : Nat) : u32 (u32 x + y) = u32 (x + y) := Nat.mod_add_mod x (2 ^ 32) y

theorem sub32_of_le {x y : Nat} (hle : y ≤ x) (hx : x < 2 ^ 32) : sub32 x y = x - y := by
  unfold sub32 u32
  omega

/-- Two counters that are less than 2^32 apart have their distance. -/
theorem sub32_u32 {x y : Nat} (hle : y ≤ x) (hlt : x < y + 2 ^ 32) :
    sub32 (u32 x) (u32 y) = x - y := by
  unfold sub32 u32
  omega

/-- Equal 32-bit counters that are less than 2^32 apart are equal. -/
theorem eq_of_u32 {x y : Nat} (h : u32 x = u32 y) (hle : y ≤ x) (hlt : x < y + 2 ^ 32) : x = y := by
  unfold u32 at h
  omega

/-! ## Section 2: The record -/

/-- `struct rte_ring_headtail`. -/
structure HeadTail where
  head : Nat
  tail : Nat
  single : Bool
deriving DecidableEq, Repr

/-- `struct rte_ring`, without its name. -/
structure Ring where
  flags : Nat
  size : Nat
  mask : Nat
  capacity : Nat
  prod : HeadTail
  cons : HeadTail
deriving DecidableEq, Repr

/-- The bytes of `"RG_"`. -/
def RTE_RING_MZ_PREFIX : List UInt8 := [0x52, 0x47, 0x5f]

def RTE_NAMESIZE : Nat := 256
def RING_F_SP_ENQ : Nat := 0x0001
def RING_F_SC_DEQ : Nat := 0x0002
def RING_F_EXACT_SZ : Nat := 0x0004
def RTE_RING_SZ_MASK : Nat := 0x0fffffff
def EINVAL : Int := 22
def ENAMETOOLONG : Int := 36

/-- `sizeof(struct rte_ring)`. -/
def sizeofRing : Nat := RTE_NAMESIZE + 4 + 3 * 4 + 2 * 12

/-- `rte_align32pow2`. -/
def rteAlign32pow2 (x : Nat) : Nat :=
  let x := sub32 x 1
  let x := fill 1 x
  let x := fill 2 x
  let x := fill 4 x
  let x := fill 8 x
  let x := fill 16 x
  u32 (x + 1)

/-- `POWEROF2`: holds of 0 as well. -/
def POWEROF2 (x : Nat) : Bool := sub32 x 1 &&& x == 0

/-- `rte_ring_get_memsize`. -/
def rteRingGetMemsize (count : Nat) : Int :=
  if POWEROF2 count = false ∨ RTE_RING_SZ_MASK < count then -EINVAL
  else sizeofRing + count * 8

/-- The record after `memset`. -/
def zeroed : Ring where
  flags := 0
  size := 0
  mask := 0
  capacity := 0
  prod := ⟨0, 0, false⟩
  cons := ⟨0, 0, false⟩

/-- `rte_ring_init`: the record and the return value. -/
def rteRingInit (name : List UInt8) (count flags : Nat) : Ring × Int :=
  let r := zeroed
  if RTE_NAMESIZE ≤ name.length then (r, -ENAMETOOLONG)
  else
    let r := { r with
      flags := flags
      prod := { r.prod with single := flags &&& RING_F_SP_ENQ != 0 }
      cons := { r.cons with single := flags &&& RING_F_SC_DEQ != 0 } }
    if flags &&& RING_F_EXACT_SZ ≠ 0 then
      let size := rteAlign32pow2 (u32 (count + 1))
      ({ r with size := size, mask := sub32 size 1, capacity := count }, 0)
    else if POWEROF2 count = false ∨ RTE_RING_SZ_MASK < count then (r, -EINVAL)
    else ({ r with size := count, mask := sub32 count 1, capacity := sub32 count 1 }, 0)

/-- `rte_ring_create`: what `rte_ring_init` returns is not looked at. -/
def rteRingCreate (name : List UInt8) (count flags : Nat) : Option Ring :=
  let requestedCount := count
  let count := if flags &&& RING_F_EXACT_SZ ≠ 0 then rteAlign32pow2 (u32 (count + 1)) else count
  if rteRingGetMemsize count < 0 then none
  else if RTE_NAMESIZE ≤ (RTE_RING_MZ_PREFIX ++ name).length then none
  else some (rteRingInit name requestedCount flags).1

/-- `enum ring_type`. -/
inductive RingType where
  | spSc
  | mpSc
  | mpMc
deriving DecidableEq, Repr

/-- The flags that `ring_create` chooses. -/
def RingType.flags : RingType → Nat
  | .spSc => RING_F_SP_ENQ ||| RING_F_SC_DEQ
  | .mpSc => RING_F_SC_DEQ
  | .mpMc => 0

/-- The `ring_name` of `ring_create`: made of a running number and the
    process id, and cut to the 64 bytes of its buffer. -/
def ringName (ringNum : Nat) (pid : Int) : List UInt8 :=
  (s!"ring_{ringNum}_{pid}".toUTF8.toList).take 63

/-- `ring_create`. -/
def ringCreate (ringNum : Nat) (pid : Int) (type : RingType) (count : Nat) : Option Ring :=
  rteRingCreate (ringName ringNum pid) (u32 count) type.flags

theorem ringName_short (ringNum : Nat) (pid : Int) :
    (ringName ringNum pid).length + 3 < RTE_NAMESIZE := by
  have hlen : (ringName ringNum pid).length ≤ 63 := List.length_take_le ..
  show _ < 256
  omega

/-! ## Section 3: Well formed rings -/

/-- What enqueueing and dequeueing rely on. -/
structure Ring.WellFormed (r : Ring) : Prop where
  size_pow : ∃ k, k ≤ 27 ∧ r.size = 2 ^ k
  mask_eq : r.mask = r.size - 1
  capacity_lt : r.capacity < r.size

/-- No slot is in use. -/
def Ring.Empty (r : Ring) : Prop :=
  r.prod.head = 0 ∧ r.prod.tail = 0 ∧ r.cons.head = 0 ∧ r.cons.tail = 0

theorem Ring.WellFormed.size_pos {r : Ring} (h : r.WellFormed) : 0 < r.size := by
  have hlt := h.capacity_lt
  omega

theorem Ring.WellFormed.size_le {r : Ring} (h : r.WellFormed) : r.size ≤ 2 ^ 27 := by
  obtain ⟨k, hk, hsize⟩ := h.size_pow
  rw [hsize]
  exact Nat.pow_le_pow_right (by decide) hk

/-- All bits below the leading one of `x - 1` get set. -/
theorem rteAlign32pow2_fills {x : Nat} (hx : 0 < x) (hlt : x < 2 ^ 32) :
    rteAlign32pow2 x = u32 (2 ^ (x - 1).size) := by
  have hsize : (x - 1).size ≤ 32 := Nat.size_le.mpr (by omega)
  have hspread : Spread 32 (x - 1) (fill 16 (fill 8 (fill 4 (fill 2 (fill 1 (x - 1)))))) :=
    (Spread.refl (x - 1)).fill.fill.fill.fill.fill
  have hones := hspread.eq_two_pow_sub_one hsize
  have hpos : 0 < 2 ^ (x - 1).size := Nat.two_pow_pos _
  show u32 (fill 16 (fill 8 (fill 4 (fill 2 (fill 1 (sub32 x 1))))) + 1) = _
  rw [sub32_of_le hx hlt, hones, Nat.sub_add_cancel hpos]

/-- The least power of two that is not below `x`. -/
theorem rteAlign32pow2_eq {x : Nat} (hx : 0 < x) (hle : x ≤ 2 ^ 31) :
    rteAlign32pow2 x = 2 ^ (x - 1).size := by
  have hsize : (x - 1).size ≤ 31 := Nat.size_le.mpr (by omega)
  have hpow : 2 ^ (x - 1).size ≤ 2 ^ 31 := Nat.pow_le_pow_right (by decide) hsize
  rw [rteAlign32pow2_fills hx (by omega)]
  apply u32_of_lt
  omega

theorem POWEROF2_iff {x : Nat} (hx : 0 < x) (hlt : x < 2 ^ 32) :
    POWEROF2 x = true ↔ ∃ k, x = 2 ^ k := by
  unfold POWEROF2
  rw [sub32_of_le hx hlt, beq_iff_eq, powerOfTwo_iff hx]

/-- A size that passes the test of `rte_ring_get_memsize`, 0 included. -/
theorem rteRingGetMemsize_neg_iff {count : Nat} (hlt : count < 2 ^ 32) :
    ¬ rteRingGetMemsize count < 0 ↔ count = 0 ∨ ∃ k, k ≤ 27 ∧ count = 2 ^ k := by
  unfold rteRingGetMemsize
  have hmask : RTE_RING_SZ_MASK = 2 ^ 28 - 1 := rfl
  constructor
  · intro h
    by_cases hzero : count = 0
    · exact Or.inl hzero
    · right
      split at h
      · exact absurd (by decide) h
      · rename_i hok
        obtain ⟨hpow, hle⟩ := not_or.mp hok
        rw [Bool.not_eq_false, POWEROF2_iff (Nat.pos_of_ne_zero hzero) hlt] at hpow
        -- `RTE_RING_SZ_MASK` is one below 2 ^ 28.
        obtain ⟨k, rfl⟩ := hpow
        refine ⟨k, ?_, rfl⟩
        by_contra hk
        have hbig : 2 ^ 28 ≤ 2 ^ k := Nat.pow_le_pow_right (by decide) (by omega)
        omega
  · intro h
    have hok : ¬ (POWEROF2 count = false ∨ RTE_RING_SZ_MASK < count) := by
      rcases h with rfl | ⟨k, hk, rfl⟩
      · decide
      · have hpow := (POWEROF2_iff (Nat.two_pow_pos k) hlt).mpr ⟨k, rfl⟩
        have hsmall : 2 ^ k ≤ 2 ^ 27 := Nat.pow_le_pow_right (by decide) hk
        rw [hpow]
        simp
        omega
    rw [if_neg hok]
    omega

/-- The sizes of which `rte_ring_create` makes a ring that can be used:
    with `RING_F_EXACT_SZ` every count below 2^27, else the powers of two
    up to 2^27. -/
def Usable (count flags : Nat) : Prop :=
  if flags &&& RING_F_EXACT_SZ ≠ 0 then count < 2 ^ 27 else ∃ k, k ≤ 27 ∧ count = 2 ^ k

/-- The slots that can be filled. -/
def usableSpace (count flags : Nat) : Nat :=
  if flags &&& RING_F_EXACT_SZ ≠ 0 then count else count - 1

/-- The size of the table: with `RING_F_EXACT_SZ` the count is rounded up. -/
def tableSize (count flags : Nat) : Nat :=
  if flags &&& RING_F_EXACT_SZ ≠ 0 then rteAlign32pow2 (u32 (count + 1)) else count

theorem tableSize_lt {count flags : Nat} (h : count < 2 ^ 32) : tableSize count flags < 2 ^ 32 := by
  unfold tableSize
  split
  · exact u32_lt _
  · exact h

/-- What `rte_ring_init` leaves, when the size test has been passed. -/
theorem rteRingInit_made {name : List UInt8} {count flags : Nat}
    (hname : name.length < RTE_NAMESIZE)
    (hsize : ¬ rteRingGetMemsize (tableSize count flags) < 0) :
    (rteRingInit name count flags).1 =
      { flags := flags
        size := tableSize count flags
        mask := sub32 (tableSize count flags) 1
        capacity := if flags &&& RING_F_EXACT_SZ ≠ 0 then count else sub32 count 1
        prod := ⟨0, 0, flags &&& RING_F_SP_ENQ != 0⟩
        cons := ⟨0, 0, flags &&& RING_F_SC_DEQ != 0⟩ } := by
  unfold rteRingInit
  simp only []
  rw [if_neg (Nat.not_le.mpr hname)]
  unfold tableSize at hsize ⊢
  by_cases hexact : flags &&& RING_F_EXACT_SZ ≠ 0
  · rw [if_pos hexact, if_pos hexact, if_pos hexact]
    rfl
  · rw [if_neg hexact] at hsize
    rw [if_neg hexact, if_neg hexact, if_neg hexact]
    -- A count that was refused would have given a negative size.
    have hok : ¬ (POWEROF2 count = false ∨ RTE_RING_SZ_MASK < count) := by
      intro hbad
      apply hsize
      unfold rteRingGetMemsize
      rw [if_pos hbad]
      decide
    rw [if_neg hok]
    rfl

theorem rteRingCreate_eq {name : List UInt8} {count flags : Nat}
    (hname : name.length + 3 < RTE_NAMESIZE)
    (hsize : ¬ rteRingGetMemsize (tableSize count flags) < 0) :
    rteRingCreate name count flags =
      some { flags := flags
             size := tableSize count flags
             mask := sub32 (tableSize count flags) 1
             capacity := if flags &&& RING_F_EXACT_SZ ≠ 0 then count else sub32 count 1
             prod := ⟨0, 0, flags &&& RING_F_SP_ENQ != 0⟩
             cons := ⟨0, 0, flags &&& RING_F_SC_DEQ != 0⟩ } := by
  have hprefix : (RTE_RING_MZ_PREFIX ++ name).length = 3 + name.length := List.length_append
  rw [← @rteRingInit_made name count flags (by omega) hsize]
  unfold rteRingCreate
  unfold tableSize at hsize
  simp only []
  rw [if_neg hsize, hprefix, if_neg (by omega)]

/-- The rings that can be used: with the wanted space, in the smallest
    table that has it and one slot more. -/
theorem rteRingCreate_usable {name : List UInt8} {count flags : Nat}
    (hname : name.length + 3 < RTE_NAMESIZE) (h : Usable count flags) :
    ∃ r, rteRingCreate name count flags = some r ∧ r.WellFormed ∧ r.Empty ∧
      r.capacity = usableSpace count flags ∧ (∀ k, r.capacity < 2 ^ k → r.size ≤ 2 ^ k) ∧
      r.prod.single = (flags &&& RING_F_SP_ENQ != 0) ∧
      r.cons.single = (flags &&& RING_F_SC_DEQ != 0) := by
  unfold Usable at h
  unfold usableSpace
  by_cases hexact : flags &&& RING_F_EXACT_SZ ≠ 0
  · rw [if_pos hexact] at h
    have hplus : u32 (count + 1) = count + 1 := u32_of_lt (by omega)
    have hround : tableSize count flags = 2 ^ count.size := by
      unfold tableSize
      rw [if_pos hexact, hplus, rteAlign32pow2_eq (by omega) (by omega), Nat.add_sub_cancel]
    have hk : count.size ≤ 27 := Nat.size_le.mpr h
    -- The table is rounded up to a power of two above the count.
    have hbelow : count < 2 ^ count.size := Nat.lt_size_self count
    have hsmall : 2 ^ count.size ≤ 2 ^ 27 := Nat.pow_le_pow_right (by decide) hk
    have hmem := (rteRingGetMemsize_neg_iff (tableSize_lt (by omega : count < 2 ^ 32))).mpr
      (Or.inr ⟨count.size, hk, hround⟩)
    refine ⟨_, rteRingCreate_eq hname hmem, ⟨⟨count.size, hk, hround⟩, ?_, ?_⟩,
      ⟨rfl, rfl, rfl, rfl⟩, ?_, ?_, rfl, rfl⟩
    · show sub32 _ 1 = _
      rw [hround, sub32_of_le (by omega) (by omega)]
    · show (if _ then _ else _) < tableSize count flags
      rw [if_pos hexact, hround]
      exact hbelow
    · show (if _ then _ else _) = _
      rw [if_pos hexact, if_pos hexact]
    · intro k hk
      rw [if_pos hexact] at hk
      show tableSize count flags ≤ 2 ^ k
      rw [hround]
      exact Nat.pow_le_pow_right (by decide) (Nat.size_le.mpr hk)
  · rw [if_neg hexact] at h
    -- Without the flag the table is the count itself and one place stays empty.
    obtain ⟨k, hk, rfl⟩ := h
    have hsmall : 2 ^ k ≤ 2 ^ 27 := Nat.pow_le_pow_right (by decide) hk
    have hpos : 0 < 2 ^ k := Nat.two_pow_pos k
    have hround : tableSize (2 ^ k) flags = 2 ^ k := if_neg hexact
    have hmem := (rteRingGetMemsize_neg_iff (tableSize_lt (by omega : 2 ^ k < 2 ^ 32))).mpr
      (Or.inr ⟨k, hk, hround⟩)
    have hless : sub32 (2 ^ k) 1 = 2 ^ k - 1 := sub32_of_le (by omega) (by omega)
    refine ⟨_, rteRingCreate_eq hname hmem, ⟨⟨k, hk, hround⟩, ?_, ?_⟩,
      ⟨rfl, rfl, rfl, rfl⟩, ?_, ?_, rfl, rfl⟩
    · show sub32 _ 1 = _
      rw [hround, hless]
    · show (if _ then _ else _) < tableSize (2 ^ k) flags
      rw [if_neg hexact, hround, hless]
      omega
    · show (if _ then _ else _) = _
      rw [if_neg hexact, if_neg hexact, hless]
    · intro l hl
      have hl : (if flags &&& RING_F_EXACT_SZ ≠ 0 then 2 ^ k else sub32 (2 ^ k) 1) < 2 ^ l := hl
      rw [if_neg hexact, hless] at hl
      show tableSize (2 ^ k) flags ≤ 2 ^ l
      rw [hround]
      omega

/-- What is made of an unusable size has no slot for every count. -/
theorem rteRingCreate_inv {name : List UInt8} {count flags : Nat} {r : Ring}
    (hname : name.length + 3 < RTE_NAMESIZE) (h : rteRingCreate name count flags = some r)
    (hr : r.WellFormed) : Usable count flags := by
  have hmem : ¬ rteRingGetMemsize (tableSize count flags) < 0 := by
    intro hneg
    unfold tableSize at hneg
    unfold rteRingCreate at h
    simp only [] at h
    rw [if_pos hneg] at h
    exact absurd h (by simp)
  rw [rteRingCreate_eq hname hmem, Option.some.injEq] at h
  obtain ⟨k, hk, hsize⟩ := hr.size_pow
  have hcap := hr.capacity_lt
  have hle := hr.size_le
  -- A well-formed ring has a table of a power of two, and with it the count.
  subst h
  unfold Usable
  simp only [] at hle
  by_cases hexact : flags &&& RING_F_EXACT_SZ ≠ 0
  · rw [if_pos hexact]
    simp only [if_pos hexact] at hcap
    omega
  · rw [if_neg hexact]
    refine ⟨k, hk, ?_⟩
    simp only [tableSize, if_neg hexact] at hsize
    exact hsize

/-- `rte_ring_create` gives a well formed ring exactly for the usable
    sizes. The ring is empty, has the wanted space and the smallest table
    with one slot more. -/
theorem ring_creation (name : List UInt8) (count flags : Nat)
    (hname : name.length + 3 < RTE_NAMESIZE) :
    ((∃ r, rteRingCreate name count flags = some r ∧ r.WellFormed) ↔ Usable count flags) ∧
    ∀ r, rteRingCreate name count flags = some r → r.WellFormed →
      r.Empty ∧ r.capacity = usableSpace count flags ∧
      (∀ k, r.capacity < 2 ^ k → r.size ≤ 2 ^ k) ∧
      r.prod.single = (flags &&& RING_F_SP_ENQ != 0) ∧
      r.cons.single = (flags &&& RING_F_SC_DEQ != 0) := by
  constructor
  · constructor
    · rintro ⟨r, hmade, hr⟩
      exact rteRingCreate_inv hname hmade hr
    · intro h
      obtain ⟨r, hmade, hr, -⟩ := rteRingCreate_usable hname h
      exact ⟨r, hmade, hr⟩
  · intro r hmade hr
    obtain ⟨r', hmade', -, hrest⟩ := rteRingCreate_usable hname (rteRingCreate_inv hname hmade hr)
    rw [hmade, Option.some.injEq] at hmade'
    rw [hmade']
    exact hrest

/-- A ring for five exactly: eight slots. -/
theorem ring_creation_five :
    ((∃ r, rteRingCreate [] 5 RING_F_EXACT_SZ = some r ∧ r.WellFormed) ↔
      Usable 5 RING_F_EXACT_SZ) ∧
    ∀ r, rteRingCreate [] 5 RING_F_EXACT_SZ = some r → r.WellFormed →
      r.Empty ∧ r.capacity = usableSpace 5 RING_F_EXACT_SZ ∧
      (∀ k, r.capacity < 2 ^ k → r.size ≤ 2 ^ k) ∧
      r.prod.single = (RING_F_EXACT_SZ &&& RING_F_SP_ENQ != 0) ∧
      r.cons.single = (RING_F_EXACT_SZ &&& RING_F_SC_DEQ != 0) :=
  ring_creation [] 5 RING_F_EXACT_SZ (by decide)

example : (rteRingCreate [] 5 RING_F_EXACT_SZ).map (fun r => (r.size, r.capacity)) =
    some (8, 5) := by
  decide

/-- The rings of this program: a count that is a power of two. -/
theorem ringCreate_usable {ringNum : Nat} {pid : Int} {type : RingType} {count k : Nat}
    (hk : k ≤ 27) (hcount : u32 count = 2 ^ k) :
    ∃ r, ringCreate ringNum pid type count = some r ∧ r.WellFormed ∧ r.Empty ∧
      r.capacity = 2 ^ k - 1 := by
  have hexact : ¬ (type.flags &&& RING_F_EXACT_SZ ≠ 0) := by
    cases type with
    | spSc => decide
    | mpSc => decide
    | mpMc => decide
  have husable : Usable (u32 count) type.flags := by
    unfold Usable
    rw [if_neg hexact]
    exact ⟨k, hk, hcount⟩
  obtain ⟨r, hmade, hr, hempty, hcap, -⟩ :=
    rteRingCreate_usable (ringName_short ringNum pid) husable
  refine ⟨r, hmade, hr, hempty, ?_⟩
  unfold usableSpace at hcap
  rw [if_neg hexact, hcount] at hcap
  exact hcap

/-- Whatever `ring_create` gives for a count other than 0 is well formed. -/
theorem ringCreate_wellFormed {ringNum : Nat} {pid : Int} {type : RingType} {count : Nat} {r : Ring}
    (hcount : u32 count ≠ 0) (h : ringCreate ringNum pid type count = some r) :
    r.WellFormed ∧ r.Empty := by
  have hpow : ∃ k, k ≤ 27 ∧ u32 count = 2 ^ k := by
    -- None of the three types asks for the exact size.
    have hexact : ¬ (type.flags &&& RING_F_EXACT_SZ ≠ 0) := by
      cases type with
      | spSc => decide
      | mpSc => decide
      | mpMc => decide
    have hmem : ¬ rteRingGetMemsize (u32 count) < 0 := by
      intro hneg
      unfold ringCreate rteRingCreate at h
      simp only [] at h
      rw [if_neg hexact, if_pos hneg] at h
      exact absurd h (by simp)
    rcases (rteRingGetMemsize_neg_iff (u32_lt count)).mp hmem with hzero | hpow
    · exact absurd hzero hcount
    · exact hpow
  obtain ⟨k, hk, hk'⟩ := hpow
  obtain ⟨r', hmade, hr, hempty, -⟩ := @ringCreate_usable ringNum pid type count k hk hk'
  rw [h, Option.some.injEq] at hmade
  rw [hmade]
  exact ⟨hr, hempty⟩

/-! ## Section 4: The copied slots -/

/-- The rounds of the unrolled loop. -/
def unrolled (idx : Nat) : Nat → List Nat
  | 0 => []
  | rounds + 1 => idx :: (idx + 1) :: (idx + 2) :: (idx + 3) :: unrolled (idx + 4) rounds

/-- The slots that `ENQUEUE_PTRS` writes and `DEQUEUE_PTRS` reads, in this
    order, the `i`-th one for `obj_table[i]`. -/
def copyPtrs (r : Ring) (head n : Nat) : List Nat :=
  let idx := head &&& r.mask
  if u32 (idx + n) < r.size then
    -- the loop goes to `n & ~3`, the switch copies the `n & 3` others
    unrolled idx (n / 4) ++ List.range' (idx + 4 * (n / 4)) (n &&& 3)
  else
    List.range' idx (r.size - idx) ++ List.range (n - (r.size - idx))

theorem unrolled_eq (rounds : Nat) : ∀ idx, unrolled idx rounds = List.range' idx (4 * rounds) := by
  induction rounds with
  | zero =>
    intro idx
    rfl
  | succ rounds ih =>
    intro idx
    rw [Nat.mul_succ, unrolled, ih (idx + 4)]
    simp [List.range'_succ]

theorem add_mod_fits {a i m : Nat} (h : a % m + i < m) : (a + i) % m = a % m + i := by
  rw [← Nat.mod_add_mod, Nat.mod_eq_of_lt h]

theorem add_mod_wraps {a i m : Nat} (hle : m ≤ a % m + i) (hlt : a % m + i < m + m) :
    (a + i) % m = a % m + i - m := by
  rw [← Nat.mod_add_mod, Nat.mod_eq_sub_mod hle, Nat.mod_eq_of_lt (by omega)]

/-- From the masked head on, around the end of the table. -/
theorem copyPtrs_eq {r : Ring} (h : r.WellFormed) {start n : Nat} (hn : n < r.size) :
    copyPtrs r (u32 start) n = (List.range n).map fun i => (start + i) % r.size := by
  obtain ⟨k, hk, hsize⟩ := h.size_pow
  have hsmall := h.size_le
  have hidx : u32 start &&& r.mask = start % r.size := by
    rw [h.mask_eq, hsize, Nat.and_two_pow_sub_one_eq_mod]
    exact Nat.mod_mod_of_dvd start (Nat.pow_dvd_pow 2 (by omega))
  have hlt : start % r.size < r.size := Nat.mod_lt _ h.size_pos
  have hthree : n &&& 3 = n % 4 := Nat.and_two_pow_sub_one_eq_mod n 2
  unfold copyPtrs
  simp only []
  rw [hidx, u32_of_lt (by omega)]
  by_cases hfits : start % r.size + n < r.size
  · -- no wrap: one stretch
    rw [if_pos hfits, unrolled_eq, hthree, List.range'_append_1, Nat.div_add_mod]
    apply List.ext_getElem
    · simp
    · intro i hi hi'
      have hin : i < n := by simpa using hi
      rw [List.getElem_range', List.getElem_map, List.getElem_range, Nat.one_mul,
        add_mod_fits (by omega)]
  · rw [if_neg hfits]
    apply List.ext_getElem
    · simp
      omega
    · intro i hi hi'
      have hin : i < n := by simpa using hi'
      rw [List.getElem_map, List.getElem_range]
      by_cases hfirst : i < r.size - start % r.size
      · rw [List.getElem_append_left (by simpa using hfirst), List.getElem_range',
          Nat.one_mul, add_mod_fits (by omega)]
      · -- behind the end of the table
        rw [List.getElem_append_right (by simpa using hfirst), List.getElem_range,
          List.length_range', add_mod_wraps (by omega) (by omega)]
        omega

end AggreKV.RteRing
