import Mathlib.Data.List.Basic
import Mathlib.Tactic.Common

/-! # Greedy splitting of a sequence into pages

    Items are appended to the current page; an item that the page cannot
    take closes it and opens the next one.

    * `pages_flatten`: pages only group the items.
    * `pages_forall`: what a fresh page has and an admitted item keeps, every
      page has. -/

namespace AggreKV.Greedy

variable {α : Type*} (full : List α → α → Bool)

/-- The closed pages and the open one. -/
structure Writer (α : Type*) where
  closed : List (List α)
  cur : List α

def empty : Writer α := ⟨[], []⟩

def push (w : Writer α) (a : α) : Writer α :=
  if w.cur.isEmpty then ⟨w.closed, [a]⟩
  else if full w.cur a then ⟨w.closed ++ [w.cur], [a]⟩
  else ⟨w.closed, w.cur ++ [a]⟩

def Writer.close (w : Writer α) : List (List α) :=
  if w.cur.isEmpty then w.closed else w.closed ++ [w.cur]

/-- The pages of a sequence. -/
def pages (l : List α) : List (List α) := (l.foldl (push full) empty).close

variable {full}

/-- An item comes to the end. -/
theorem push_flatten (w : Writer α) (a : α) :
    (push full w a).close.flatten = w.close.flatten ++ [a] := by
  unfold push Writer.close
  cases h : w.cur with
  | nil => simp
  | cons b bs =>
      cases hf : full (b :: bs) a <;> simp

/-- And so do several. -/
theorem foldl_flatten (l : List α) : ∀ w : Writer α,
    (l.foldl (push full) w).close.flatten = w.close.flatten ++ l := by
  induction l with
  | nil => simp
  | cons a l ih =>
      intro w
      rw [List.foldl_cons, ih, push_flatten, List.append_assoc, List.singleton_append]

/-- The pages hold the items in order. -/
theorem pages_flatten (l : List α) : (pages full l).flatten = l := by
  unfold pages
  rw [foldl_flatten]
  rfl

/-- Every page so far, the open one included, has `P`. -/
def Writer.All (P : List α → Prop) (w : Writer α) : Prop :=
  (∀ p ∈ w.closed, p ≠ [] ∧ P p) ∧ (w.cur ≠ [] → P w.cur)

/-- What holds of all pages, when an item comes. -/
theorem Writer.All.push {P : List α → Prop} {w : Writer α} {a : α} (h : w.All P) (hone : P [a])
    (hadd : w.cur ≠ [] → P w.cur → full w.cur a = false → P (w.cur ++ [a])) :
    (push full w a).All P := by
  obtain ⟨hclosed, hcur⟩ := h
  unfold Greedy.push
  cases hc : w.cur with
  | nil => exact ⟨hclosed, fun _ => hone⟩
  | cons b bs =>
      have hne : w.cur ≠ [] := by simp [hc]
      cases hf : full (b :: bs) a with
      | true =>
          refine ⟨fun p hp => ?_, fun _ => hone⟩
          rcases List.mem_append.mp hp with hp | hp
          · exact hclosed p hp
          · rw [List.mem_singleton.mp hp, ← hc]
            exact ⟨hne, hcur hne⟩
      | false =>
          refine ⟨hclosed, fun _ => ?_⟩
          have := hadd hne (hcur hne) (hc ▸ hf)
          rwa [hc] at this

/-- And when the last page is closed. -/
theorem Writer.All.close {P : List α → Prop} {w : Writer α} (h : w.All P) :
    ∀ p ∈ w.close, p ≠ [] ∧ P p := by
  intro p hp
  unfold Writer.close at hp
  cases hc : w.cur with
  | nil =>
      rw [hc] at hp
      exact h.1 p hp
  | cons b bs =>
      rw [hc] at hp
      have hne : w.cur ≠ [] := by simp [hc]
      rcases List.mem_append.mp hp with hp | hp
      · exact h.1 p hp
      · rw [List.mem_singleton.mp hp, ← hc]
        exact ⟨hne, h.2 hne⟩

/-- What one item and each further one keep holds of every page. -/
theorem foldl_all {P : List α → Prop} (l : List α) (hone : ∀ a ∈ l, P [a])
    (hadd : ∀ p a, a ∈ l → p ≠ [] → P p → full p a = false → P (p ++ [a])) :
    ∀ w : Writer α, w.All P → (l.foldl (push full) w).All P := by
  induction l with
  | nil => exact fun w h => h
  | cons a l ih =>
      intro w h
      have hstep := h.push (hone a List.mem_cons_self) (hadd w.cur a List.mem_cons_self)
      exact ih (fun b hb => hone b (List.mem_cons_of_mem _ hb))
        (fun p b hb => hadd p b (List.mem_cons_of_mem _ hb)) _ hstep

/-- The induction rule for single pages. -/
theorem pages_forall {P : List α → Prop} {l : List α} (hone : ∀ a ∈ l, P [a])
    (hadd : ∀ p a, a ∈ l → p ≠ [] → P p → full p a = false → P (p ++ [a])) :
    ∀ p ∈ pages full l, p ≠ [] ∧ P p :=
  (foldl_all l hone hadd empty ⟨by simp [empty], by simp [empty]⟩).close

end AggreKV.Greedy
