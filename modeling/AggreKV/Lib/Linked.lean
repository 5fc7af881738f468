import Mathlib.Logic.Function.Basic
import Mathlib.Tactic.Common

/-! # Pointers and back pointers

    A table of pointers to places, and for each place the owner written
    into it. The two are linked when the live places are the ones that
    their owner points to.

    * `Linked.drop`, `Linked.add`: a place dies, a dead place is taken. -/

namespace AggreKV

variable {α β : Type*}

/-- `fwd` and `back` are inverse to each other on the live places. -/
def Linked (fwd : α → Option β) (live : β → Prop) (back : β → α) : Prop :=
  ∀ a b, fwd a = some b ↔ live b ∧ back b = a

namespace Linked

variable {fwd : α → Option β} {live : β → Prop} {back : β → α}

/-- No two pointers lead to one object. -/
theorem injective (h : Linked fwd live back) {a a' : α} {b : β} (ha : fwd a = some b)
    (ha' : fwd a' = some b) : a = a' :=
  ((h a b).mp ha).2.symm.trans ((h a' b).mp ha').2

/-- A live object is pointed to by what it points back to. -/
theorem owner (h : Linked fwd live back) {b : β} (hb : live b) : fwd (back b) = some b :=
  (h _ _).mpr ⟨hb, rfl⟩

/-- Dead objects do not matter. -/
theorem congr {live' : β → Prop} {back' : β → α} (h : Linked fwd live back)
    (hlive : ∀ b, live' b ↔ live b) (hback : ∀ b, live b → back' b = back b) :
    Linked fwd live' back' := by
  intro a b
  rw [h a b, hlive]
  refine and_congr_right fun hb => ?_
  rw [hback b hb]

/-- A pointer is taken away. -/
theorem drop [DecidableEq α] (h : Linked fwd live back) {a : α} {b : β} (ha : fwd a = some b) :
    Linked (Function.update fwd a none) (fun x => live x ∧ x ≠ b) back := by
  intro x y
  by_cases hx : x = a
  · subst hx
    rw [Function.update_self]
    refine iff_of_false (by simp) fun ⟨⟨hl, hne⟩, hb⟩ => hne ?_
    have hy := (h x y).mpr ⟨hl, hb⟩
    rw [ha] at hy
    exact (Option.some.inj hy).symm
  · rw [Function.update_of_ne hx, h x y]
    refine ⟨fun ⟨hl, hb⟩ => ⟨⟨hl, ?_⟩, hb⟩, fun ⟨⟨hl, _⟩, hb⟩ => ⟨hl, hb⟩⟩
    rintro rfl
    exact hx (hb.symm.trans ((h a y).mp ha).2)

/-- A pointer to an object that was dead. -/
theorem add [DecidableEq α] [DecidableEq β] (h : Linked fwd live back) {a : α} {b : β}
    (ha : fwd a = none) (hb : ¬live b) :
    Linked (Function.update fwd a (some b)) (fun x => live x ∨ x = b)
      (Function.update back b a) := by
  intro x y
  by_cases hx : x = a
  · subst hx
    rw [Function.update_self]
    by_cases hy : y = b
    · subst hy
      simp
    · rw [Function.update_of_ne hy]
      refine iff_of_false (fun he => hy (Option.some.inj he).symm) fun ⟨hl, hbk⟩ => ?_
      have hxy := (h x y).mpr ⟨hl.resolve_right hy, hbk⟩
      rw [ha] at hxy
      cases hxy
  · rw [Function.update_of_ne hx]
    by_cases hy : y = b
    · subst hy
      rw [Function.update_self]
      refine iff_of_false (fun he => hb ((h x y).mp he).1) fun ⟨_, he⟩ => hx he.symm
    · rw [Function.update_of_ne hy, h x y]
      simp [hy]

end Linked

end AggreKV
