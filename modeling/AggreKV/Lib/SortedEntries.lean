import Mathlib.Data.List.Sort
import Mathlib.Order.Basic

/-! # Sorted association lists

    Finite maps as lists of entries with strictly increasing keys.

    * `Increasing`: the representation invariant.
    * `IsUnion u l r`: `r` is the union of the maps `u` and `l`, where `u`
      answers for the keys of both.
    * `union`: the two-finger merge, which computes it.
    * `IsUnion.unique`: an increasing list is determined by its members. -/

namespace AggreKV.SortedEntries

variable {K V : Type*} [LinearOrder K]

/-! ## Section 1: Representation -/

/-- Strictly increasing keys. -/
def Increasing (l : List (K × V)) : Prop := l.Pairwise fun a b => a.1 < b.1

instance (l : List (K × V)) : Decidable (Increasing l) :=
  inferInstanceAs (Decidable (l.Pairwise _))

@[simp] theorem increasing_nil : Increasing ([] : List (K × V)) := List.Pairwise.nil

@[simp] theorem increasing_cons {e : K × V} {l : List (K × V)} :
    Increasing (e :: l) ↔ (∀ f ∈ l, e.1 < f.1) ∧ Increasing l := List.pairwise_cons

theorem increasing_append {l m : List (K × V)} :
    Increasing (l ++ m) ↔ Increasing l ∧ Increasing m ∧ ∀ a ∈ l, ∀ b ∈ m, a.1 < b.1 :=
  List.pairwise_append

theorem Increasing.sublist {l m : List (K × V)} (h : Increasing m) (hs : l.Sublist m) :
    Increasing l := List.Pairwise.sublist hs h

theorem Increasing.inj {l : List (K × V)} (h : Increasing l) {a b : K × V} (ha : a ∈ l)
    (hb : b ∈ l) (hk : a.1 = b.1) : a = b := by
  induction l with
  | nil => exact absurd ha List.not_mem_nil
  | cons c l ih =>
      obtain ⟨hc, hl⟩ := increasing_cons.mp h
      rcases List.mem_cons.mp ha with rfl | ha'
      · rcases List.mem_cons.mp hb with rfl | hb'
        · rfl
        · exact absurd hk (hc b hb').ne
      · rcases List.mem_cons.mp hb with rfl | hb'
        · exact absurd hk (hc a ha').ne'
        · exact ih hl ha' hb'

/-- An increasing list is determined by its members. -/
theorem Increasing.ext {l m : List (K × V)} (hl : Increasing l) (hm : Increasing m)
    (h : ∀ e, e ∈ l ↔ e ∈ m) : l = m := by
  have hnd : ∀ {n : List (K × V)}, Increasing n → n.Nodup := fun hn =>
    List.Pairwise.imp (fun hlt heq => hlt.ne (congrArg Prod.fst heq)) hn
  have hperm : l.Perm m := (List.perm_ext_iff_of_nodup (hnd hl) (hnd hm)).mpr h
  exact hperm.eq_of_pairwise (fun a b _ _ hab hba => absurd hba hab.not_gt) hl hm

/-! ## Section 2: Union -/

/-- `r` holds the entries of `u`, and those of `l` whose key `u` does not have. -/
structure IsUnion (u l r : List (K × V)) : Prop where
  increasing : Increasing r
  mem : ∀ e, e ∈ r ↔ e ∈ u ∨ (e ∈ l ∧ ∀ f ∈ u, f.1 ≠ e.1)

theorem IsUnion.unique {u l r r' : List (K × V)} (h : IsUnion u l r) (h' : IsUnion u l r') :
    r = r' :=
  h.increasing.ext h'.increasing fun e => (h.mem e).trans (h'.mem e).symm

/-- Merging one upper entry: `k` merges the upper entries after it. -/
def weave (u : K × V) (k : List (K × V) → List (K × V)) : List (K × V) → List (K × V)
  | [] => u :: k []
  | x :: xs =>
      if x.1 < u.1 then x :: weave u k xs
      else if u.1 < x.1 then u :: k (x :: xs)
      else u :: k xs

/-- The merge of two increasing lists; the first one wins. -/
def union : List (K × V) → List (K × V) → List (K × V)
  | [] => id
  | u :: us => weave u (union us)

@[simp] theorem union_nil_left (l : List (K × V)) : union [] l = l := rfl

@[simp] theorem union_nil_right : ∀ u : List (K × V), union u [] = u
  | [] => rfl
  | u :: us => congrArg (u :: ·) (union_nil_right us)

theorem union_cons_lt {u x : K × V} {us xs : List (K × V)} (h : x.1 < u.1) :
    union (u :: us) (x :: xs) = x :: union (u :: us) xs := if_pos h

theorem union_cons_gt {u x : K × V} {us xs : List (K × V)} (h : u.1 < x.1) :
    union (u :: us) (x :: xs) = u :: union us (x :: xs) := by
  show weave u (union us) (x :: xs) = _
  rw [weave, if_neg h.not_gt, if_pos h]

theorem union_cons_eq {u x : K × V} {us xs : List (K × V)} (h : u.1 = x.1) :
    union (u :: us) (x :: xs) = u :: union us xs := by
  show weave u (union us) (x :: xs) = _
  rw [weave, if_neg h.symm.not_lt, if_neg h.not_lt]

/-! ## Section 3: The merge computes the union -/

theorem IsUnion.mem_or {u l r : List (K × V)} (h : IsUnion u l r) {e : K × V} (he : e ∈ r) :
    e ∈ u ∨ e ∈ l := ((h.mem e).mp he).imp_right And.left

/-- A lower entry below everything else goes first. -/
theorem IsUnion.cons_lower {u l r : List (K × V)} {x : K × V} (h : IsUnion u l r)
    (hu : ∀ f ∈ u, x.1 < f.1) (hl : ∀ f ∈ l, x.1 < f.1) : IsUnion u (x :: l) (x :: r) := by
  constructor
  · rw [increasing_cons]
    exact ⟨fun f hf => (h.mem_or hf).elim (hu f) (hl f), h.increasing⟩
  · intro e
    rw [List.mem_cons, List.mem_cons, h.mem e]
    constructor
    · rintro (rfl | hm | hm)
      · exact .inr ⟨.inl rfl, fun f hf => (hu f hf).ne'⟩
      · exact .inl hm
      · exact .inr ⟨.inr hm.1, hm.2⟩
    · rintro (hm | ⟨rfl | hm, hne⟩)
      · exact .inr (.inl hm)
      · exact .inl rfl
      · exact .inr (.inr ⟨hm, hne⟩)

/-- An upper entry below everything else goes first. -/
theorem IsUnion.cons_upper {u l r : List (K × V)} {x : K × V} (h : IsUnion u l r)
    (hu : ∀ f ∈ u, x.1 < f.1) (hl : ∀ f ∈ l, x.1 < f.1) : IsUnion (x :: u) l (x :: r) := by
  constructor
  · rw [increasing_cons]
    exact ⟨fun f hf => (h.mem_or hf).elim (hu f) (hl f), h.increasing⟩
  · intro e
    rw [List.mem_cons, List.mem_cons, h.mem e]
    constructor
    · rintro (rfl | hm | ⟨hm, hne⟩)
      · exact .inl (.inl rfl)
      · exact .inl (.inr hm)
      · refine .inr ⟨hm, fun f hf => ?_⟩
        rcases List.mem_cons.mp hf with rfl | hf
        · exact (hl e hm).ne
        · exact hne f hf
    · rintro ((rfl | hm) | ⟨hm, hne⟩)
      · exact .inl rfl
      · exact .inr (.inl hm)
      · exact .inr (.inr ⟨hm, fun f hf => hne f (List.mem_cons_of_mem _ hf)⟩)

/-- Of two entries with one key the upper one stays. -/
theorem IsUnion.cons_both {u l r : List (K × V)} {x y : K × V} (h : IsUnion u l r)
    (hxy : x.1 = y.1) (hu : ∀ f ∈ u, x.1 < f.1) (hl : ∀ f ∈ l, x.1 < f.1) :
    IsUnion (x :: u) (y :: l) (x :: r) := by
  refine ⟨(h.cons_upper hu hl).increasing, fun e => ?_⟩
  rw [(h.cons_upper hu hl).mem e, List.mem_cons (b := y)]
  constructor
  · rintro (hm | hm)
    · exact .inl hm
    · exact .inr ⟨.inr hm.1, hm.2⟩
  · rintro (hm | ⟨rfl | hm, hne⟩)
    · exact .inl hm
    · exact absurd hxy (hne x List.mem_cons_self)
    · exact .inr ⟨hm, hne⟩

theorem isUnion_nil_left {l : List (K × V)} (h : Increasing l) : IsUnion [] l l :=
  ⟨h, fun e => by simp⟩

theorem isUnion_nil_right {u : List (K × V)} (h : Increasing u) : IsUnion u [] u :=
  ⟨h, fun e => by simp⟩

theorem union_isUnion : ∀ {u l : List (K × V)}, Increasing u → Increasing l →
    IsUnion u l (union u l)
  | [], _, _, hl => isUnion_nil_left hl
  | u :: us, l, hu, hl => by
      obtain ⟨hlt, hus⟩ := increasing_cons.mp hu
      induction l with
      | nil =>
          rw [union_nil_right]
          exact isUnion_nil_right hu
      | cons x xs ih =>
          obtain ⟨hx, hxs⟩ := increasing_cons.mp hl
          rcases lt_trichotomy x.1 u.1 with h | h | h
          · rw [union_cons_lt h]
            refine (ih hxs).cons_lower (fun f hf => ?_) hx
            rcases List.mem_cons.mp hf with rfl | hf
            · exact h
            · exact h.trans (hlt f hf)
          · rw [union_cons_eq h.symm]
            exact (union_isUnion hus hxs).cons_both h.symm hlt (h ▸ hx)
          · rw [union_cons_gt h]
            refine (union_isUnion hus hl).cons_upper hlt fun f hf => ?_
            rcases List.mem_cons.mp hf with rfl | hf
            · exact h
            · exact h.trans (hx f hf)

end AggreKV.SortedEntries
