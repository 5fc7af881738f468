import Mathlib.Algebra.GroupWithZero.Nat
import Mathlib.Logic.Function.Basic
import Mathlib.Data.List.Perm.Basic
import Mathlib.Tactic.Common

/-! # Greedy packing of one bin from length buckets

    Items are kept in one stack for each length. A bin of a given capacity
    is filled by taking, as often as possible, the top of the longest
    non-empty stack that still fits.

    * `fill_perm`: filling moves items, it neither drops nor copies one.
    * `fill_within`: what is placed lies inside the bin.
    * `fill_ordered`: placed items do not overlap.
    * `fill_ne_nil`: as long as an item fits, one is placed. -/

namespace AggreKV

variable {α : Type*}

/-- A stack of items for each length. -/
abbrev Buckets (α : Type*) := Nat → List α

/-- An item with its place in the bin. -/
structure Placed (α : Type*) where
  item : α
  offset : Nat
  len : Nat

namespace Buckets

def empty : Buckets α := fun _ => []

def push (b : Buckets α) (len : Nat) (x : α) : Buckets α :=
  Function.update b len (x :: b len)

/-- The longest non-empty stack of length at most `n`, or 0. -/
def target (b : Buckets α) : Nat → Nat
  | 0 => 0
  | n + 1 => if (b (n + 1)).isEmpty then target b n else n + 1

/-- Fills the rest of a bin, taking at most `fuel` items. -/
def fill (b : Buckets α) : Nat → Nat → Nat → List (Placed α) × Buckets α
  | 0, _, _ => ([], b)
  | fuel + 1, offset, remain =>
    let len := b.target remain
    match b len with
    | [] => ([], b)
    | x :: xs =>
      if len = 0 then ([], b)
      else
        let r := fill (Function.update b len xs) fuel (offset + len) (remain - len)
        (⟨x, offset, len⟩ :: r.1, r.2)

/-- Fills an empty bin of capacity `cap`. -/
def fillBin (b : Buckets α) (cap : Nat) : List (Placed α) × Buckets α := b.fill cap 0 cap

/-- The items of length at most `n`. -/
def upTo (b : Buckets α) : Nat → List α
  | 0 => []
  | n + 1 => b (n + 1) ++ upTo b n

/-! ## Section 2: The stacks -/

/-- Longer items do not matter. -/
theorem upTo_congr {b b' : Buckets α} : ∀ {n : Nat}, (∀ k, 0 < k → k ≤ n → b k = b' k) →
    b.upTo n = b'.upTo n
  | 0, _ => rfl
  | n + 1, h => by
      rw [upTo, upTo, h (n + 1) (Nat.succ_pos n) (Nat.le_refl _),
        upTo_congr fun k hk hkn => h k hk (Nat.le_succ_of_le hkn)]

/-- Nor does a stack of longer ones. -/
theorem upTo_update_of_lt (b : Buckets α) {len n : Nat} (h : n < len) (xs : List α) :
    upTo (Function.update b len xs) n = b.upTo n :=
  upTo_congr fun k _ hkn => Function.update_of_ne (by omega) ..

/-- Taking the top of a stack. -/
theorem upTo_pop {b : Buckets α} {len : Nat} {x : α} {xs : List α} (hb : b len = x :: xs)
    (hpos : 0 < len) : ∀ {n : Nat}, len ≤ n →
      (x :: upTo (Function.update b len xs) n).Perm (b.upTo n)
  | 0, h => absurd hpos (by omega)
  | n + 1, h => by
      rw [upTo, upTo]
      by_cases hl : len = n + 1
      · subst hl
        rw [Function.update_self, upTo_update_of_lt b (Nat.lt_succ_self n), hb]
        rfl
      · rw [Function.update_of_ne (Ne.symm hl)]
        have ih := upTo_pop hb hpos (show len ≤ n by omega)
        exact List.perm_middle.symm.trans (ih.append_left (b (n + 1)))

/-- An item is among those of its length. -/
theorem upTo_push (b : Buckets α) {len n : Nat} (x : α) (hpos : 0 < len) (hn : len ≤ n) :
    ((b.push len x).upTo n).Perm (x :: b.upTo n) := by
  have hb : b.push len x len = x :: b len := by rw [push, Function.update_self]
  have h := upTo_pop hb hpos hn
  rw [push, Function.update_idem, Function.update_eq_self] at h
  exact h.symm

theorem upTo_empty : ∀ n, upTo (empty : Buckets α) n = []
  | 0 => rfl
  | n + 1 => by
      rw [upTo, upTo_empty n]
      rfl

/-- Distributing items whose lengths are at most `n`. -/
theorem upTo_foldl_push (len : α → Nat) {n : Nat} : ∀ (xs : List α) (b : Buckets α),
    (∀ x ∈ xs, 0 < len x ∧ len x ≤ n) →
      ((xs.foldl (fun b x => b.push (len x) x) b).upTo n).Perm (xs ++ b.upTo n)
  | [], _, _ => .refl _
  | x :: xs, b, h => by
      have hx := h x (List.mem_cons_self ..)
      have ih := upTo_foldl_push len xs (b.push (len x) x)
        fun y hy => h y (List.mem_cons_of_mem _ hy)
      have hpush := (upTo_push b x hx.1 hx.2).append_left xs
      exact ih.trans (hpush.trans List.perm_middle)

/-- Every item lies in the stack of its length. -/
def Sorted (len : α → Nat) (b : Buckets α) : Prop := ∀ n, ∀ x ∈ b n, len x = n

theorem Sorted.empty (len : α → Nat) : Sorted len (empty : Buckets α) := fun _ _ h => by cases h

/-- Every item goes to the stack of its length. -/
theorem Sorted.push {len : α → Nat} {b : Buckets α} (h : Sorted len b) (x : α) :
    Sorted len (b.push (len x) x) := by
  intro n y hy
  unfold Buckets.push at hy
  by_cases hn : n = len x
  · subst hn
    rw [Function.update_self] at hy
    rcases List.mem_cons.mp hy with rfl | hy
    · rfl
    · exact h _ y hy
  · rw [Function.update_of_ne hn] at hy
    exact h n y hy

/-- And so do several. -/
theorem Sorted.foldl_push {len : α → Nat} : ∀ (xs : List α) {b : Buckets α}, Sorted len b →
    Sorted len (xs.foldl (fun b x => b.push (len x) x) b)
  | [], _, h => h
  | x :: xs, _, h => Sorted.foldl_push xs (h.push x)

/-- An item of a stack that counts. -/
theorem mem_upTo {b : Buckets α} {k n : Nat} {x : α} (hk : 0 < k) (hkn : k ≤ n) (hx : x ∈ b k) :
    x ∈ b.upTo n := by
  induction n with
  | zero => omega
  | succ n ih =>
      rw [upTo, List.mem_append]
      by_cases heq : k = n + 1
      · exact .inl (heq ▸ hx)
      · exact .inr (ih (by omega))

/-! ## Section 3: Filling a bin -/

/-- The target fits. -/
theorem target_le (b : Buckets α) : ∀ n, b.target n ≤ n
  | 0 => Nat.le_refl _
  | n + 1 => by
      unfold target
      split
      · exact Nat.le_succ_of_le (target_le b n)
      · exact Nat.le_refl _

/-- The target is the longest stack that fits. -/
theorem target_spec (b : Buckets α) : ∀ {n k : Nat}, 0 < k → k ≤ n → b k ≠ [] →
    k ≤ b.target n ∧ b (b.target n) ≠ []
  | 0, k, hk, hkn, _ => absurd hk (by omega)
  | n + 1, k, hk, hkn, hb => by
      unfold target
      split
      · next he =>
        have hne : k ≠ n + 1 := fun hkn' => hb (by rw [hkn']; exact List.isEmpty_iff.mp he)
        exact target_spec b hk (by omega) hb
      · next he => exact ⟨hkn, fun hnil => he (List.isEmpty_iff.mpr hnil)⟩

/-- No item is lost or made up. -/
theorem fill_perm : ∀ {fuel offset remain n : Nat} {b : Buckets α}, remain ≤ n →
    ((b.fill fuel offset remain).1.map (·.item) ++ (b.fill fuel offset remain).2.upTo n).Perm
      (b.upTo n)
  | 0, _, _, _, _, _ => .refl _
  | fuel + 1, offset, remain, n, b, h => by
      unfold fill
      dsimp only
      split
      · exact .refl _
      · next x xs hb =>
        split
        · exact .refl _
        · next hlen =>
          have hle := b.target_le remain
          have ih := @fill_perm fuel (offset + b.target remain) (remain - b.target remain) n
            (Function.update b (b.target remain) xs) (by omega)
          rw [List.map_cons, List.cons_append]
          exact (ih.cons x).trans (upTo_pop hb (by omega) (by omega))

/-- Every placed item is within the bin. -/
theorem fill_within : ∀ {fuel offset remain : Nat} {b : Buckets α} {p : Placed α},
    p ∈ (b.fill fuel offset remain).1 →
      offset ≤ p.offset ∧ p.offset + p.len ≤ offset + remain ∧ 0 < p.len
  | 0, _, _, _, _, h => by cases h
  | fuel + 1, offset, remain, b, p, h => by
      unfold fill at h
      dsimp only at h
      split at h
      · cases h
      · split at h
        · cases h
        · next x xs hb hlen =>
          have hle := b.target_le remain
          rcases List.mem_cons.mp h with rfl | h
          · exact ⟨Nat.le_refl _, by dsimp only; omega, by dsimp only; omega⟩
          · obtain ⟨h1, h2, h3⟩ := fill_within h
            omega

/-- Placed items do not overlap. -/
theorem fill_ordered : ∀ {fuel offset remain : Nat} {b : Buckets α},
    (b.fill fuel offset remain).1.Pairwise fun p q => p.offset + p.len ≤ q.offset
  | 0, _, _, _ => List.Pairwise.nil
  | fuel + 1, offset, remain, b => by
      unfold fill
      dsimp only
      split
      · exact List.Pairwise.nil
      · split
        · exact List.Pairwise.nil
        · exact List.pairwise_cons.mpr ⟨fun q hq => (fill_within hq).1, fill_ordered⟩

/-- Items are placed with their length, and the stacks stay sorted. -/
theorem Sorted.fill {len : α → Nat} : ∀ {fuel offset remain : Nat} {b : Buckets α},
    Sorted len b → (∀ p ∈ (b.fill fuel offset remain).1, len p.item = p.len) ∧
      Sorted len (b.fill fuel offset remain).2
  | 0, _, _, _, h => ⟨(fun _ hp => by cases hp), h⟩
  | fuel + 1, offset, remain, b, h => by
      unfold Buckets.fill
      dsimp only
      split
      · exact ⟨(fun _ hp => by cases hp), h⟩
      · next x xs hb =>
        split
        · exact ⟨(fun _ hp => by cases hp), h⟩
        · have hpop : Sorted len (Function.update b (b.target remain) xs) := by
            intro n y hy
            by_cases hn : n = b.target remain
            · subst hn
              rw [Function.update_self] at hy
              exact h _ y (hb ▸ List.mem_cons_of_mem _ hy)
            · rw [Function.update_of_ne hn] at hy
              exact h n y hy
          obtain ⟨h1, h2⟩ := @Sorted.fill len fuel (offset + b.target remain)
            (remain - b.target remain) _ hpop
          refine ⟨fun p hp => ?_, h2⟩
          rcases List.mem_cons.mp hp with rfl | hp
          · exact h _ x (hb ▸ List.mem_cons_self ..)
          · exact h1 p hp

/-- A bin takes something if anything fits. -/
theorem fill_ne_nil {fuel offset remain k : Nat} {b : Buckets α} (hk : 0 < k) (hkr : k ≤ remain)
    (hb : b k ≠ []) : (b.fill (fuel + 1) offset remain).1 ≠ [] := by
  obtain ⟨hle, hne⟩ := b.target_spec hk hkr hb
  unfold fill
  dsimp only
  split
  · next hnil => exact absurd hnil hne
  · rw [if_neg (by omega)]
    exact List.cons_ne_nil _ _

/-- If there are items, a stack has some. -/
theorem exists_stack_of_upTo {b : Buckets α} : ∀ {n : Nat}, b.upTo n ≠ [] →
    ∃ k, 0 < k ∧ k ≤ n ∧ b k ≠ []
  | 0, h => absurd rfl h
  | n + 1, h => by
      by_cases hn : b (n + 1) = []
      · rw [upTo, hn, List.nil_append] at h
        obtain ⟨k, hk, hkn, hb⟩ := exists_stack_of_upTo h
        exact ⟨k, hk, Nat.le_succ_of_le hkn, hb⟩
      · exact ⟨n + 1, Nat.succ_pos n, Nat.le_refl _, hn⟩

end Buckets

end AggreKV
