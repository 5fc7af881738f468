import AggreKV.Lib.Packing
import Mathlib.Data.List.Count

/-! # Greedy packing into bins of four

    Bins are filled one after the other from the length buckets until all
    items are placed. With bins of capacity 4 this is optimal.

    * `packBins_perm`, `packBins_bin`: every item is placed once, inside its
      bin and apart from the others.
    * `length_packBins`: the number of bins from the four counts.
    * `needOf_le`: no packing into bins of capacity 4 has fewer. -/

namespace AggreKV

variable {α : Type*}

namespace Buckets

/-! ## Section 1: Packing all items -/

/-- Fills bins of capacity `cap` until `todo` items are placed, at most `fuel` bins. -/
def packBins (b : Buckets α) (cap : Nat) : Nat → Nat → List (List (Placed α))
  | _, 0 => []
  | todo, fuel + 1 =>
    if todo = 0 then []
    else (b.fillBin cap).1 :: (b.fillBin cap).2.packBins cap (todo - (b.fillBin cap).1.length) fuel

/-- Items left and items placed add up. -/
theorem length_fillBin (b : Buckets α) (cap : Nat) :
    (b.fillBin cap).1.length + ((b.fillBin cap).2.upTo cap).length = (b.upTo cap).length := by
  have hperm := @fill_perm α cap 0 cap cap b (Nat.le_refl cap)
  have hlen := hperm.length_eq
  rwa [List.length_append, List.length_map] at hlen

/-- A bin takes an item as long as there is one. -/
theorem fillBin_pos {b : Buckets α} {cap : Nat} (h : b.upTo cap ≠ []) :
    0 < (b.fillBin cap).1.length := by
  obtain ⟨k, hk, hkcap, hb⟩ := exists_stack_of_upTo h
  obtain ⟨cap', rfl⟩ := Nat.exists_eq_add_of_lt (Nat.lt_of_lt_of_le hk hkcap)
  rw [Nat.zero_add] at hkcap ⊢
  exact List.length_pos_iff.mpr (fill_ne_nil hk hkcap hb)

/-- Enough bins place every item, each once. -/
theorem packBins_perm {cap : Nat} : ∀ {fuel : Nat} {b : Buckets α}, (b.upTo cap).length ≤ fuel →
    ((b.packBins cap (b.upTo cap).length fuel).flatten.map (·.item)).Perm (b.upTo cap) := by
  intro fuel
  induction fuel with
  | zero =>
    intro b h
    rw [List.eq_nil_of_length_eq_zero (Nat.le_zero.mp h)]
    exact .refl _
  | succ fuel ih =>
    intro b h
    rw [packBins]
    by_cases hzero : (b.upTo cap).length = 0
    · rw [if_pos hzero, List.eq_nil_of_length_eq_zero hzero]
      exact .refl _
    · have hsum := length_fillBin b cap
      have hpos := fillBin_pos (fun hnil => hzero (by rw [hnil]; rfl) : b.upTo cap ≠ [])
      have hrest : (b.upTo cap).length - (b.fillBin cap).1.length =
          ((b.fillBin cap).2.upTo cap).length := by omega
      rw [if_neg hzero, hrest, List.flatten_cons, List.map_append]
      have hih := ih (show ((b.fillBin cap).2.upTo cap).length ≤ fuel by omega)
      exact (hih.append_left _).trans (fill_perm (Nat.le_refl cap))

/-- The bins of a packing: filled from buckets that stay sorted. -/
theorem packBins_bin {len : α → Nat} {cap : Nat} : ∀ {fuel todo : Nat} {b : Buckets α},
    Sorted len b → ∀ bin ∈ b.packBins cap todo fuel,
      (∀ p ∈ bin, p.offset + p.len ≤ cap ∧ 0 < p.len ∧ len p.item = p.len) ∧
        bin.Pairwise fun p q => p.offset + p.len ≤ q.offset := by
  intro fuel
  induction fuel with
  | zero =>
    intro todo b _ bin hbin
    rw [packBins] at hbin
    cases hbin
  | succ fuel ih =>
    intro todo b hs bin hbin
    rw [packBins] at hbin
    split at hbin
    · cases hbin
    · rcases List.mem_cons.mp hbin with rfl | hbin
      · refine ⟨fun p hp => ?_, fill_ordered⟩
        have hwithin := fill_within hp
        exact ⟨by omega, hwithin.2.2, (Sorted.fill hs).1 p hp⟩
      · exact ih (Sorted.fill hs).2 bin hbin

/-- Items in order within the bin take no more than its capacity. -/
theorem load_le {cap : Nat} {bin : List (Placed α)} (hfit : ∀ p ∈ bin, p.offset + p.len ≤ cap)
    (hordered : bin.Pairwise fun p q => p.offset + p.len ≤ q.offset) :
    (bin.map (·.len)).sum ≤ cap := by
  have hfrom : ∀ lo ≤ cap, (∀ p ∈ bin, lo ≤ p.offset) → lo + (bin.map (·.len)).sum ≤ cap := by
    induction bin with
    | nil => exact fun lo hlo _ => hlo
    | cons p ps ih =>
      intro lo hlo hle
      obtain ⟨hp, hps⟩ := List.pairwise_cons.mp hordered
      have hend := hfit p (List.mem_cons_self ..)
      have hstart := hle p (List.mem_cons_self ..)
      have hrest := ih (fun q hq => hfit q (List.mem_cons_of_mem _ hq)) hps (p.offset + p.len) hend
        hp
      rw [List.map_cons, List.sum_cons]
      omega
  have hall := hfrom 0 (Nat.zero_le _) fun _ _ => Nat.zero_le _
  omega

/-! ## Section 2: Counting the bins -/

/-- The bins of capacity 4 that items of lengths 1 to 4 need. -/
def binsFor (n₁ n₂ n₃ n₄ : Nat) : Nat := n₄ + n₃ + (2 * n₂ + (n₁ - n₃) + 3) / 4

/-- `binsFor` of the heights of the four stacks. -/
def need (b : Buckets α) : Nat := binsFor (b 1).length (b 2).length (b 3).length (b 4).length

/-- An empty stack is passed over. -/
theorem target_nil {b : Buckets α} {n : Nat} (h : b (n + 1) = []) :
    b.target (n + 1) = b.target n := by
  rw [target, h]
  rfl

/-- The longest item that fits is the target. -/
theorem target_cons {b : Buckets α} {n : Nat} {x : α} {xs : List α} (h : b (n + 1) = x :: xs) :
    b.target (n + 1) = n + 1 := by
  rw [target, h]
  rfl

/-- Without a target the bin is done. -/
theorem fill_done {b : Buckets α} {remain : Nat} (h : b.target remain = 0) (fuel offset : Nat) :
    (b.fill fuel offset remain).2 = b := by
  cases fuel with
  | zero => rfl
  | succ fuel =>
    rw [fill, h]
    dsimp only
    split
    · rfl
    · rfl

/-- The target is taken. -/
theorem fill_take {b : Buckets α} {remain len : Nat} {x : α} {xs : List α}
    (h : b.target remain = len + 1) (hb : b (len + 1) = x :: xs) (fuel offset : Nat) :
    (b.fill (fuel + 1) offset remain).2 =
      (fill (Function.update b (len + 1) xs) fuel (offset + (len + 1)) (remain - (len + 1))).2 := by
  rw [fill, h]
  dsimp only
  rw [hb]
  rfl

/-- What is left when a bin has room for items of length 1 only. -/
theorem fill_ones : ∀ {fuel remain : Nat} (b : Buckets α) (offset : Nat), remain ≤ fuel →
    (∀ k, 1 < k → k ≤ remain → b k = []) →
      (b.fill fuel offset remain).2 = Function.update b 1 ((b 1).drop remain) := by
  intro fuel
  induction fuel with
  | zero =>
    intro remain b offset hle _
    rw [Nat.le_zero.mp hle, List.drop_zero, Function.update_eq_self]
    rfl
  | succ fuel ih =>
    intro remain b offset hle hb
    -- Only the stack of length 1 can be the target.
    have htarget : ∀ n ≤ remain, b.target n = if n = 0 ∨ b 1 = [] then 0 else 1 := by
      intro n
      induction n with
      | zero => exact fun _ => rfl
      | succ n ihn =>
        intro hn
        cases n with
        | zero =>
          cases h1 : b 1 with
          | nil => rw [target_nil h1, if_pos (.inr rfl)]; rfl
          | cons x xs => rw [target_cons h1, if_neg (by simp)]
        | succ n =>
          rw [target_nil (hb (n + 2) (by omega) hn), ihn (by omega)]
          simp
    cases h1 : b 1 with
    | nil =>
      have hzero : b.target remain = 0 := by rw [htarget remain (Nat.le_refl _), if_pos (.inr h1)]
      rw [fill_done hzero, List.drop_nil, ← h1, Function.update_eq_self]
    | cons x xs =>
      cases remain with
      | zero => rw [fill_done rfl, List.drop_zero, ← h1, Function.update_eq_self]
      | succ remain =>
        have hone : b.target (remain + 1) = 0 + 1 := by
          rw [htarget _ (Nat.le_refl _), if_neg (by simp [h1])]
        rw [fill_take hone h1, ih _ _ (by omega), Function.update_self, Function.update_idem]
        · rfl
        · intro k hk hkr
          rw [Function.update_of_ne (by omega)]
          exact hb k hk (by omega)

/-- Every bin lowers the need by one. -/
theorem need_fillBin {b : Buckets α} (h : b.upTo 4 ≠ []) : need (b.fillBin 4).2 + 1 = need b := by
  unfold fillBin
  cases h4 : b 4 with
  | cons x xs =>
    rw [fill_take (target_cons h4) h4, fill_done rfl]
    simp [need, binsFor, h4]
    omega
  | nil =>
    cases h3 : b 3 with
    | cons x xs =>
      have ht : b.target 4 = 2 + 1 := by rw [target_nil h4, target_cons h3]
      rw [fill_take ht h3, fill_ones _ _ (by omega) (by omega)]
      simp [need, binsFor, h3, h4]
      omega
    | nil =>
      cases h2 : b 2 with
      | cons x xs =>
        have ht : b.target 4 = 1 + 1 := by rw [target_nil h4, target_nil h3, target_cons h2]
        rw [fill_take ht h2]
        cases xs with
        -- Two items of length 2.
        | cons y ys =>
          have hb2 : Function.update b 2 (y :: ys) 2 = y :: ys := Function.update_self ..
          rw [fill_take (target_cons hb2) hb2, fill_done rfl]
          simp [need, binsFor, h2, h3, h4]
          omega
        | nil =>
          rw [fill_ones _ _ (by omega)]
          · simp [need, binsFor, h2, h3, h4]
            omega
          · intro k hk hkr
            obtain rfl : k = 2 := by omega
            exact Function.update_self ..
      | nil =>
        have hne : b 1 ≠ [] := by
          intro h1
          apply h
          simp [upTo, h1, h2, h3, h4]
        have hpos := List.length_pos_iff.mpr hne
        rw [fill_ones _ _ (by omega)]
        · simp [need, binsFor, h2, h3, h4]
          omega
        · intro k hk hkr
          obtain rfl | rfl | rfl : k = 2 ∨ k = 3 ∨ k = 4 := by omega
          · exact h2
          · exact h3
          · exact h4

/-- No bin is needed for no items. -/
theorem need_eq_zero {b : Buckets α} (h : b.upTo 4 = []) : need b = 0 := by
  simp only [upTo, List.append_eq_nil_iff] at h
  obtain ⟨h4, h3, h2, h1, -⟩ := h
  simp [need, binsFor, h1, h2, h3, h4]

/-- The greedy packing takes as many bins as its items need. -/
theorem length_packBins : ∀ {fuel : Nat} {b : Buckets α}, (b.upTo 4).length ≤ fuel →
    (b.packBins 4 (b.upTo 4).length fuel).length = need b := by
  intro fuel
  induction fuel with
  | zero =>
    intro b h
    rw [need_eq_zero (List.eq_nil_of_length_eq_zero (Nat.le_zero.mp h))]
    rfl
  | succ fuel ih =>
    intro b h
    rw [packBins]
    by_cases hzero : (b.upTo 4).length = 0
    · rw [if_pos hzero, need_eq_zero (List.eq_nil_of_length_eq_zero hzero)]
      rfl
    · have hne : b.upTo 4 ≠ [] := fun hnil => hzero (by rw [hnil]; rfl)
      have hsum := length_fillBin b 4
      have hpos := fillBin_pos hne
      have hrest : (b.upTo 4).length - (b.fillBin 4).1.length =
          ((b.fillBin 4).2.upTo 4).length := by omega
      rw [if_neg hzero, hrest, List.length_cons,
        ih (show ((b.fillBin 4).2.upTo 4).length ≤ fuel by omega), need_fillBin hne]

/-! ## Section 3: No packing is shorter -/

/-- The items of length `k`. -/
def countLen (len : α → Nat) (k : Nat) (l : List α) : Nat := l.countP fun x => len x = k

/-- The bins that the items of `l` need. -/
def needOf (len : α → Nat) (l : List α) : Nat :=
  binsFor (countLen len 1 l) (countLen len 2 l) (countLen len 3 l) (countLen len 4 l)

/-- The order does not matter for the counts. -/
theorem countLen_perm {len : α → Nat} {k : Nat} {l l' : List α} (h : l.Perm l') :
    countLen len k l = countLen len k l' := h.countP_eq _

/-- Nor for the need. -/
theorem needOf_perm {len : α → Nat} {l l' : List α} (h : l.Perm l') :
    needOf len l = needOf len l' := by
  unfold needOf
  rw [countLen_perm h, countLen_perm h, countLen_perm h, countLen_perm h]

/-- The load of a list of items, by lengths. -/
theorem sum_len {len : α → Nat} {l : List α} (h : ∀ x ∈ l, 0 < len x ∧ len x ≤ 4) :
    (l.map len).sum = countLen len 1 l + 2 * countLen len 2 l + 3 * countLen len 3 l +
      4 * countLen len 4 l := by
  induction l with
  | nil => rfl
  | cons x xs ih =>
    have hx := h x (List.mem_cons_self ..)
    have hxs := ih fun y hy => h y (List.mem_cons_of_mem _ hy)
    unfold countLen at hxs ⊢
    rw [List.map_cons, List.sum_cons, hxs]
    simp only [List.countP_cons, decide_eq_true_eq]
    obtain hl | hl | hl | hl : len x = 1 ∨ len x = 2 ∨ len x = 3 ∨ len x = 4 := by omega
    all_goals
      simp [hl]
      omega

/-- Two weights of the items, neither of which is more than 4 in a bin. -/
theorem weights_le {len : α → Nat} : ∀ {bins : List (List α)},
    (∀ bin ∈ bins, (bin.map len).sum ≤ 4) → (∀ bin ∈ bins, ∀ x ∈ bin, 0 < len x ∧ len x ≤ 4) →
      4 * countLen len 4 bins.flatten + 4 * countLen len 3 bins.flatten +
          2 * countLen len 2 bins.flatten ≤ 4 * bins.length ∧
        4 * countLen len 4 bins.flatten + 3 * countLen len 3 bins.flatten +
          2 * countLen len 2 bins.flatten + countLen len 1 bins.flatten ≤ 4 * bins.length := by
  intro bins
  induction bins with
  | nil => exact fun _ _ => ⟨Nat.le_refl 0, Nat.le_refl 0⟩
  | cons bin bins ih =>
    intro hload hlen
    obtain ⟨h1, h2⟩ := ih (fun c hc => hload c (List.mem_cons_of_mem _ hc))
      fun c hc => hlen c (List.mem_cons_of_mem _ hc)
    have hbin := hload bin (List.mem_cons_self ..)
    rw [sum_len (hlen bin (List.mem_cons_self ..))] at hbin
    have happ : ∀ k, countLen len k (bin :: bins).flatten =
        countLen len k bin + countLen len k bins.flatten := by
      intro k
      rw [List.flatten_cons, countLen, List.countP_append]
      rfl
    rw [happ, happ, happ, happ, List.length_cons]
    omega

/-- No packing into bins of capacity 4 has fewer bins. -/
theorem needOf_le {len : α → Nat} {bins : List (List α)}
    (hload : ∀ bin ∈ bins, (bin.map len).sum ≤ 4)
    (hlen : ∀ bin ∈ bins, ∀ x ∈ bin, 0 < len x ∧ len x ≤ 4) :
    needOf len bins.flatten ≤ bins.length := by
  obtain ⟨h1, h2⟩ := weights_le hload hlen
  unfold needOf binsFor
  omega

/-- The heights of the stacks are the counts of the items. -/
theorem length_foldl_push (len : α → Nat) (k : Nat) : ∀ (xs : List α) (b : Buckets α),
    (xs.foldl (fun b x => b.push (len x) x) b k).length = (b k).length + countLen len k xs := by
  intro xs
  induction xs with
  | nil => exact fun _ => rfl
  | cons x xs ih =>
    intro b
    rw [List.foldl_cons, ih, push, Function.update_apply]
    unfold countLen
    rw [List.countP_cons]
    by_cases hk : k = len x
    · rw [if_pos hk, List.length_cons, if_pos (decide_eq_true hk.symm), ← hk]
      omega
    · rw [if_neg hk, if_neg (by simpa using fun h => hk h.symm)]
      omega

/-- The need of the stacks is that of the items. -/
theorem need_foldl_push (len : α → Nat) (xs : List α) :
    need (xs.foldl (fun b x => b.push (len x) x) (.empty : Buckets α)) = needOf len xs := by
  unfold need needOf
  rw [length_foldl_push, length_foldl_push, length_foldl_push, length_foldl_push]
  simp only [Buckets.empty, List.length_nil, Nat.zero_add]

end Buckets

end AggreKV
