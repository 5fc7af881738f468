import Mathlib.Data.List.Induction
import Mathlib.Data.List.Nodup
import Mathlib.Logic.Function.Basic
import Mathlib.Tactic.Common

/-! # Doubly linked lists in a heap

    Nodes with a next and a prev pointer. A null pointer is `none`, and an
    access through a null or dangling pointer makes the operation `none`.

    * `Seg`: the nodes of a list, linked in both directions, between two
      pointers to the outside.
    * `Seg.append_iff`, `Seg.setNext`, `Seg.setPrev`: a segment is cut
      anywhere, and rewired at either end.
    * `Rep`: the heap holds one whole list and nothing else.
    * `Fresh`: it also holds a node that is not linked yet, which goes in
      front (`Fresh.front`), to the end (`Fresh.back`) or between two nodes
      (`Fresh.between`).
    * `Rep.followNext`, `Rep.followPrev`: what walking the list finds.
    * `Rep.reachable_iff`: the pointers lead to the nodes of the list only. -/

namespace AggreKV.DoublyLinked

variable {α : Type*}

/-! ## Section 1: Nodes and segments -/

structure Node (α : Type*) where
  data : α
  next : Option Nat
  prev : Option Nat

/-- Allocated nodes by address. -/
abbrev Heap (α : Type*) := Nat → Option (Node α)

/-- `p->next = v`. -/
def Heap.setNext (h : Heap α) (p v : Option Nat) : Option (Heap α) :=
  p.bind fun a => (h a).map fun nd => Function.update h a (some { nd with next := v })

/-- `p->prev = v`. -/
def Heap.setPrev (h : Heap α) (p v : Option Nat) : Option (Heap α) :=
  p.bind fun a => (h a).map fun nd => Function.update h a (some { nd with prev := v })

/-- The first node of a list that `n` follows. -/
def first : List (Nat × α) → Option Nat → Option Nat
  | [], n => n
  | e :: _, _ => some e.1

/-- The last node of a list that comes after `p`. -/
def final : Option Nat → List (Nat × α) → Option Nat
  | p, [] => p
  | _, e :: l => final (some e.1) l

/-- The nodes of `l` are linked in order, between `p` and `n`. -/
def Seg (h : Heap α) : Option Nat → List (Nat × α) → Option Nat → Prop
  | _, [], _ => True
  | p, e :: l, n => h e.1 = some ⟨e.2, first l n, p⟩ ∧ Seg h (some e.1) l n

/-- The first node of two lists in a row. -/
theorem first_append (l l' : List (Nat × α)) (n : Option Nat) :
    first (l ++ l') n = first l (first l' n) := by
  cases l with
  | nil => rfl
  | cons e l => rfl

/-- And the last one. -/
theorem final_append (p : Option Nat) (l l' : List (Nat × α)) :
    final p (l ++ l') = final (final p l) l' := by
  induction l generalizing p with
  | nil => rfl
  | cons e l ih => exact ih (some e.1)

theorem final_concat (p : Option Nat) (l : List (Nat × α)) (e : Nat × α) :
    final p (l ++ [e]) = some e.1 := by
  rw [final_append]
  rfl

/-- A segment falls into two. -/
theorem Seg.append_iff {h : Heap α} {p n : Option Nat} {l l' : List (Nat × α)} :
    Seg h p (l ++ l') n ↔ Seg h p l (first l' n) ∧ Seg h (final p l) l' n := by
  induction l generalizing p with
  | nil => exact ⟨fun h => ⟨trivial, h⟩, fun h => h.2⟩
  | cons e l ih =>
    show h e.1 = some ⟨e.2, first (l ++ l') n, p⟩ ∧ Seg h (some e.1) (l ++ l') n ↔ _
    rw [ih, first_append]
    exact and_assoc.symm

/-- A list that is not empty has a first node. -/
theorem exists_first {l : List (Nat × α)} (h : l ≠ []) (n : Option Nat) :
    ∃ e ∈ l, first l n = some e.1 := by
  cases l with
  | nil => exact absurd rfl h
  | cons e l => exact ⟨e, List.mem_cons_self .., rfl⟩

/-- And a last one. -/
theorem exists_final {l : List (Nat × α)} (h : l ≠ []) (p : Option Nat) :
    ∃ e ∈ l, final p l = some e.1 := by
  obtain ⟨l₀, e, rfl⟩ := List.eq_nil_or_concat'  l |>.resolve_left h
  exact ⟨e, List.mem_append_right _ (List.mem_singleton_self _), final_concat ..⟩

/-- A segment depends on its own nodes only. -/
theorem Seg.frame {h h' : Heap α} {p n : Option Nat} {l : List (Nat × α)} (hs : Seg h p l n)
    (hsame : ∀ e ∈ l, h' e.1 = h e.1) : Seg h' p l n := by
  induction l generalizing p with
  | nil => trivial
  | cons e l ih =>
    refine ⟨?_, ih hs.2 fun e' he => hsame e' (List.mem_cons_of_mem _ he)⟩
    rw [hsame e (List.mem_cons_self ..)]
    exact hs.1

/-- What stands at a node of a segment. -/
theorem Seg.node {h : Heap α} {p n : Option Nat} {l l' : List (Nat × α)} {e : Nat × α}
    (hs : Seg h p (l ++ e :: l') n) : h e.1 = some ⟨e.2, first l' n, final p l⟩ :=
  (append_iff.mp hs).2.1

theorem Seg.isSome {h : Heap α} {p n : Option Nat} {l : List (Nat × α)} (hs : Seg h p l n)
    {e : Nat × α} (he : e ∈ l) : (h e.1).isSome = true := by
  obtain ⟨l₁, l₂, rfl⟩ := List.append_of_mem he
  rw [hs.node]
  rfl

/-! ## Section 2: Rewiring -/

/-- Only the nodes at `as` are written. -/
structure Wrote (h h' : Heap α) (as : List Nat) : Prop where
  other : ∀ b, b ∉ as → h' b = h b
  alloc : ∀ b, (h' b).isSome = (h b).isSome

/-- One node was written. -/
theorem Wrote.update {h : Heap α} {a : Nat} {nd nd' : Node α} (ha : h a = some nd) :
    Wrote h (Function.update h a (some nd')) [a] where
  other b hb := Function.update_of_ne (List.ne_of_not_mem_cons hb) ..
  alloc b := by
    by_cases hb : b = a
    · rw [hb, Function.update_self, ha]
      rfl
    · rw [Function.update_of_ne hb]

/-- Writes after writes. -/
theorem Wrote.trans {h h' h'' : Heap α} {as bs : List Nat} (hw : Wrote h h' as)
    (hw' : Wrote h' h'' bs) : Wrote h h'' (as ++ bs) where
  other b hb := by
    rw [List.mem_append, not_or] at hb
    rw [hw'.other b hb.2, hw.other b hb.1]
  alloc b := (hw'.alloc b).trans (hw.alloc b)

/-- Writing nodes outside a segment. -/
theorem Seg.wrote {h h' : Heap α} {p n : Option Nat} {l : List (Nat × α)} {as : List Nat}
    (hs : Seg h p l n) (hw : Wrote h h' as) (has : ∀ a ∈ as, a ∉ l.map (·.1)) : Seg h' p l n :=
  hs.frame fun _ he => hw.other _ fun ha => has _ ha (List.mem_map_of_mem he)

/-- Freeing a node outside a segment. -/
theorem Seg.free {h : Heap α} {p n : Option Nat} {l : List (Nat × α)} {a : Nat}
    (hs : Seg h p l n) (ha : a ∉ l.map (·.1)) : Seg (Function.update h a none) p l n :=
  hs.frame fun e he => Function.update_of_ne (fun hea : e.1 = a =>
    ha (hea ▸ List.mem_map_of_mem he)) ..

/-- A non-empty segment gets a new successor. -/
theorem Seg.setNext {h : Heap α} {p n v : Option Nat} {l : List (Nat × α)} {e : Nat × α}
    (hs : Seg h p (l ++ [e]) n) (he : e.1 ∉ l.map (·.1)) :
    ∃ h', h.setNext (some e.1) v = some h' ∧ Wrote h h' [e.1] ∧ Seg h' p (l ++ [e]) v := by
  have hnode := hs.node
  refine ⟨Function.update h e.1 (some ⟨e.2, v, final p l⟩), ?_, .update hnode, ?_⟩
  · show (h e.1).map _ = _
    rw [hnode]
    rfl
  · have hl := (append_iff.mp hs).1
    refine append_iff.mpr ⟨hl.wrote (.update hnode) ?_, ?_, trivial⟩
    · intro a ha
      rwa [List.mem_singleton.mp ha]
    · exact Function.update_self ..

/-- A non-empty segment gets a new predecessor. -/
theorem Seg.setPrev {h : Heap α} {p n v : Option Nat} {l : List (Nat × α)} {e : Nat × α}
    (hs : Seg h p (e :: l) n) (he : e.1 ∉ l.map (·.1)) :
    ∃ h', h.setPrev (some e.1) v = some h' ∧ Wrote h h' [e.1] ∧ Seg h' v (e :: l) n := by
  have hnode := hs.1
  refine ⟨Function.update h e.1 (some ⟨e.2, first l n, v⟩), ?_, .update hnode,
    Function.update_self .., hs.2.wrote (.update hnode) fun a ha => ?_⟩
  · show (h e.1).map _ = _
    rw [hnode]
    rfl
  · rwa [List.mem_singleton.mp ha]

/-- Two segments are joined, the pointer forward first. -/
theorem Seg.join {h : Heap α} {p n x y : Option Nat} {l l' : List (Nat × α)} {e e' : Nat × α}
    (hs : Seg h p (l ++ [e]) x) (hs' : Seg h y (e' :: l') n)
    (hnodup : (((l ++ [e]) ++ e' :: l').map (·.1)).Nodup) :
    ∃ h₁ h₂, h.setNext (some e.1) (some e'.1) = some h₁ ∧
      h₁.setPrev (some e'.1) (some e.1) = some h₂ ∧ Wrote h h₂ [e.1, e'.1] ∧
      Seg h₂ p ((l ++ [e]) ++ e' :: l') n := by
  rw [List.map_append] at hnodup
  obtain ⟨hl, hl', hdisj⟩ := List.nodup_append.mp hnodup
  have he : e.1 ∉ l.map (·.1) := by
    rw [List.map_append] at hl
    exact fun hmem => (List.nodup_append.mp hl).2.2 _ hmem _ (List.mem_singleton_self _) rfl
  have he' : e'.1 ∉ l'.map (·.1) := (List.nodup_cons.mp hl').1
  obtain ⟨h₁, hnext, hw₁, hs₁⟩ := hs.setNext he
  have hs₁' : Seg h₁ y (e' :: l') n := hs'.wrote hw₁ fun a ha hmem => by
    rw [List.mem_singleton.mp ha] at hmem
    exact hdisj _ (List.mem_map_of_mem (List.mem_append_right _ (List.mem_singleton_self _))) _
      hmem rfl
  obtain ⟨h₂, hprev, hw₂, hs₂⟩ := hs₁'.setPrev he'
  refine ⟨h₁, h₂, hnext, hprev, hw₁.trans hw₂,
    append_iff.mpr ⟨hs₁.wrote hw₂ fun a ha hmem => ?_, ?_⟩⟩
  · rw [List.mem_singleton.mp ha] at hmem
    exact hdisj _ hmem _ (List.mem_cons_self ..) rfl
  · rw [final_concat]
    exact hs₂

/-- Two segments are joined, the pointer back first. -/
theorem Seg.join' {h : Heap α} {p n x y : Option Nat} {l l' : List (Nat × α)} {e e' : Nat × α}
    (hs : Seg h p (l ++ [e]) x) (hs' : Seg h y (e' :: l') n)
    (hnodup : (((l ++ [e]) ++ e' :: l').map (·.1)).Nodup) :
    ∃ h₁ h₂, h.setPrev (some e'.1) (some e.1) = some h₁ ∧
      h₁.setNext (some e.1) (some e'.1) = some h₂ ∧ Wrote h h₂ [e'.1, e.1] ∧
      Seg h₂ p ((l ++ [e]) ++ e' :: l') n := by
  rw [List.map_append] at hnodup
  obtain ⟨hl, hl', hdisj⟩ := List.nodup_append.mp hnodup
  have he : e.1 ∉ l.map (·.1) := by
    rw [List.map_append] at hl
    exact fun hmem => (List.nodup_append.mp hl).2.2 _ hmem _ (List.mem_singleton_self _) rfl
  have he' : e'.1 ∉ l'.map (·.1) := (List.nodup_cons.mp hl').1
  obtain ⟨h₁, hprev, hw₁, hs₁⟩ := hs'.setPrev he'
  have hs₁' : Seg h₁ p (l ++ [e]) x := hs.wrote hw₁ fun a ha hmem => by
    rw [List.mem_singleton.mp ha] at hmem
    exact hdisj _ hmem _ (List.mem_cons_self ..) rfl
  obtain ⟨h₂, hnext, hw₂, hs₂⟩ := hs₁'.setNext he
  refine ⟨h₁, h₂, hprev, hnext, hw₁.trans hw₂, append_iff.mpr ⟨hs₂, ?_⟩⟩
  rw [final_concat]
  refine hs₁.wrote hw₂ fun a ha hmem => ?_
  rw [List.mem_singleton.mp ha] at hmem
  exact hdisj _ (List.mem_map_of_mem (List.mem_append_right _ (List.mem_singleton_self _))) _
    hmem rfl

/-! ## Section 3: Whole lists -/

/-- The heap holds the list `l` between `head` and `last`, and no other node. -/
structure Rep (h : Heap α) (head last : Option Nat) (l : List (Nat × α)) : Prop where
  head : head = first l none
  last : last = final none l
  seg : Seg h none l none
  nodup : (l.map (·.1)).Nodup
  alloc : ∀ a, (h a).isSome = true ↔ a ∈ l.map (·.1)

theorem Rep.nil : Rep (fun _ => none : Heap α) none none [] :=
  ⟨rfl, rfl, trivial, List.nodup_nil, fun _ => ⟨fun h => (by cases h), fun h => (by cases h)⟩⟩

/-- At most `fuel` nodes from `p` on, along the next pointers. -/
def followNext (h : Heap α) : Nat → Option Nat → List (Nat × α)
  | 0, _ => []
  | _ + 1, none => []
  | fuel + 1, some a =>
    match h a with
    | some nd => (a, nd.data) :: followNext h fuel nd.next
    | none => []

/-- At most `fuel` nodes from `p` on, along the prev pointers. -/
def followPrev (h : Heap α) : Nat → Option Nat → List (Nat × α)
  | 0, _ => []
  | _ + 1, none => []
  | fuel + 1, some a =>
    match h a with
    | some nd => (a, nd.data) :: followPrev h fuel nd.prev
    | none => []

theorem followNext_none (h : Heap α) (fuel : Nat) : followNext h fuel none = [] := by
  cases fuel with
  | zero => rfl
  | succ fuel => rfl

theorem followPrev_none (h : Heap α) (fuel : Nat) : followPrev h fuel none = [] := by
  cases fuel with
  | zero => rfl
  | succ fuel => rfl

/-- The next pointers lead through the list. -/
theorem Seg.followNext {h : Heap α} {p : Option Nat} {l : List (Nat × α)} {fuel : Nat}
    (hs : Seg h p l none) (hfuel : l.length ≤ fuel) :
    DoublyLinked.followNext h fuel (first l none) = l := by
  induction l generalizing p fuel with
  | nil => exact followNext_none h fuel
  | cons e l ih =>
    cases fuel with
    | zero => cases hfuel
    | succ fuel =>
      show (match h e.1 with
        | some nd => (e.1, nd.data) :: DoublyLinked.followNext h fuel nd.next
        | none => []) = _
      rw [hs.1]
      exact congrArg (e :: ·) (ih hs.2 (Nat.le_of_succ_le_succ hfuel))

/-- The others lead back. -/
theorem Seg.followPrev {h : Heap α} {n : Option Nat} {l : List (Nat × α)} {fuel : Nat}
    (hs : Seg h none l n) (hfuel : l.length ≤ fuel) :
    DoublyLinked.followPrev h fuel (final none l) = l.reverse := by
  induction l using List.reverseRecOn generalizing n fuel with
  | nil => exact followPrev_none h fuel
  | append_singleton l e ih =>
    rw [List.length_append] at hfuel
    cases fuel with
    | zero => cases hfuel
    | succ fuel =>
      rw [final_concat, List.reverse_concat]
      show (match h e.1 with
        | some nd => (e.1, nd.data) :: DoublyLinked.followPrev h fuel nd.prev
        | none => []) = _
      rw [hs.node]
      exact congrArg (e :: ·) (ih (Seg.append_iff.mp hs).1 (Nat.le_of_succ_le_succ hfuel))

/-- Walking the list from its head. -/
theorem Rep.followNext {h : Heap α} {head last : Option Nat} {l : List (Nat × α)} {fuel : Nat}
    (hr : Rep h head last l) (hfuel : l.length ≤ fuel) :
    DoublyLinked.followNext h fuel head = l := by
  rw [hr.head]
  exact hr.seg.followNext hfuel

/-- Walking the list back from its last node. -/
theorem Rep.followPrev {h : Heap α} {head last : Option Nat} {l : List (Nat × α)} {fuel : Nat}
    (hr : Rep h head last l) (hfuel : l.length ≤ fuel) :
    DoublyLinked.followPrev h fuel last = l.reverse := by
  rw [hr.last]
  exact hr.seg.followPrev hfuel

/-- Some pointers lead from `head` or `last` to the node. -/
inductive Reachable (h : Heap α) (head last : Option Nat) : Nat → Prop where
  | head {a : Nat} : head = some a → Reachable h head last a
  | last {a : Nat} : last = some a → Reachable h head last a
  | next {a b : Nat} {nd : Node α} :
      Reachable h head last a → h a = some nd → nd.next = some b → Reachable h head last b
  | prev {a b : Nat} {nd : Node α} :
      Reachable h head last a → h a = some nd → nd.prev = some b → Reachable h head last b

theorem mem_of_first {l : List (Nat × α)} {a : Nat} (h : first l none = some a) :
    a ∈ l.map (·.1) := by
  cases l with
  | nil => cases h
  | cons e l =>
    cases h
    exact List.mem_cons_self ..

theorem mem_of_final {l : List (Nat × α)} {a : Nat} (h : final none l = some a) :
    a ∈ l.map (·.1) := by
  rcases List.eq_nil_or_concat' l with rfl | ⟨l, e, rfl⟩
  · cases h
  · rw [final_concat] at h
    cases h
    simp

/-- The nodes of the list are those that can be reached. -/
theorem Rep.reachable_iff {h : Heap α} {head last : Option Nat} {l : List (Nat × α)} {a : Nat}
    (hr : Rep h head last l) : Reachable h head last a ↔ a ∈ l.map (·.1) := by
  constructor
  · intro ha
    -- l₂ ∧ :: A node of the list points to its neighbours.
    have hsplit : ∀ {b nd}, b ∈ l.map (·.1) → h b = some nd → ∃ l₁ l₂ d, l = l₁ ++ (b, d) :: l₂ ∧
        nd.next = first l₂ none ∧ nd.prev = final none l₁ := fun {b nd} hb hnd => by
      obtain ⟨⟨b, d⟩, hmem, rfl⟩ := List.mem_map.mp hb
      obtain ⟨l₁, l₂, rfl⟩ := List.append_of_mem hmem
      rw [hr.seg.node] at hnd
      cases hnd
      exact ⟨l₁, l₂, d, rfl, rfl, rfl⟩
    induction ha with
    | head ha => exact mem_of_first (hr.head ▸ ha)
    | last ha => exact mem_of_final (hr.last ▸ ha)
    | next _ hnd hb ih =>
      obtain ⟨l₁, l₂, d, rfl, hnext, -⟩ := hsplit ih hnd
      have hmem := mem_of_first (hnext ▸ hb)
      rw [List.map_append, List.map_cons]
      exact List.mem_append_right _ (List.mem_cons_of_mem _ hmem)
    | prev _ hnd hb ih =>
      obtain ⟨l₁, l₂, d, rfl, -, hprev⟩ := hsplit ih hnd
      rw [List.map_append]
      exact List.mem_append_left _ (mem_of_final (hprev ▸ hb))
  · intro ha
    obtain ⟨e, hmem, rfl⟩ := List.mem_map.mp ha
    obtain ⟨l₁, l₂, rfl⟩ := List.append_of_mem hmem
    -- Along the next pointers, from the head.
    induction l₁ using List.reverseRecOn generalizing e l₂ with
    | nil => exact .head hr.head
    | append_singleton l₀ b ih =>
      rw [List.append_assoc] at hr ha hmem
      exact .next (ih b _ hr (by simp) (by simp)) hr.seg.node rfl

/-! ## Section 4: Insertion -/

/-- The heap links the list, and holds the node `e` beside it. -/
structure Fresh (h : Heap α) (l : List (Nat × α)) (e : Nat × α) : Prop where
  seg : Seg h none l none
  node : Seg h none [e] none
  nodup : (e.1 :: l.map (·.1)).Nodup
  alloc : ∀ a, (h a).isSome = true ↔ a = e.1 ∨ a ∈ l.map (·.1)

/-- A free address is taken. -/
theorem Rep.fresh {h : Heap α} {head last : Option Nat} {l : List (Nat × α)} {a : Nat}
    (hr : Rep h head last l) (ha : h a = none) (x : α) :
    Fresh (Function.update h a (some ⟨x, none, none⟩)) l (a, x) := by
  have hnot : a ∉ l.map (·.1) := fun hmem => by
    rw [← hr.alloc, ha] at hmem
    cases hmem
  refine ⟨hr.seg.frame fun e he => ?_, ⟨Function.update_self .., trivial⟩,
    List.nodup_cons.mpr ⟨hnot, hr.nodup⟩, fun b => ?_⟩
  · exact Function.update_of_ne (fun hea : e.1 = a => hnot (hea ▸ List.mem_map_of_mem he)) ..
  · by_cases hb : b = a
    · rw [hb, Function.update_self]
      exact ⟨fun _ => Or.inl rfl, fun _ => rfl⟩
    · rw [Function.update_of_ne hb, hr.alloc]
      exact (or_iff_right hb).symm

/-- Once the new node is linked, the heap holds the longer list. -/
theorem Fresh.rep {h h' : Heap α} {l₁ l₂ : List (Nat × α)} {e : Nat × α} {as : List Nat}
    (hf : Fresh h (l₁ ++ l₂) e) (hw : Wrote h h' as) (hs : Seg h' none (l₁ ++ e :: l₂) none) :
    Rep h' (first (l₁ ++ e :: l₂) none) (final none (l₁ ++ e :: l₂)) (l₁ ++ e :: l₂) := by
  have hperm : ((l₁ ++ e :: l₂).map (·.1)).Perm (e.1 :: (l₁ ++ l₂).map (·.1)) :=
    List.perm_middle.map _
  refine ⟨rfl, rfl, hs, hperm.nodup_iff.mpr hf.nodup, fun a => ?_⟩
  rw [hw.alloc, hf.alloc, hperm.mem_iff, List.mem_cons]

/-- The new node becomes the head. -/
theorem Fresh.front {h : Heap α} {c e : Nat × α} {l : List (Nat × α)} (hf : Fresh h (c :: l) e) :
    ∃ h₁ h₂ h', h.setPrev (some e.1) none = some h₁ ∧
      h₁.setPrev (some c.1) (some e.1) = some h₂ ∧ h₂.setNext (some e.1) (some c.1) = some h' ∧
      Rep h' (some e.1) (final none (c :: l)) (e :: c :: l) := by
  have hnot := (List.nodup_cons.mp hf.nodup).1
  obtain ⟨h₁, hp₁, hw₁, hs₁⟩ := @Seg.setPrev _ _ _ _ none [] _ hf.node (by simp)
  have hold : Seg h₁ none (c :: l) none := hf.seg.wrote hw₁ fun a ha => by
    rw [List.mem_singleton.mp ha]
    exact hnot
  obtain ⟨h₂, h₃, hp₂, hn₂, hw₂, hs₂⟩ := @Seg.join' _ _ _ _ _ _ [] _ _ _ hs₁ hold hf.nodup
  exact ⟨h₁, h₂, h₃, hp₁, hp₂, hn₂, @Fresh.rep _ _ _ [] _ _ _ hf (hw₁.trans hw₂) hs₂⟩

/-- The links of the new node are written before those of its neighbours. -/
theorem Fresh.links {h : Heap α} {l₁ l₂ : List (Nat × α)} {e : Nat × α}
    (hf : Fresh h (l₁ ++ l₂) e) (p n : Option Nat) :
    ∃ h₁ h₂, h.setPrev (some e.1) p = some h₁ ∧ h₁.setNext (some e.1) n = some h₂ ∧
      Wrote h h₂ [e.1, e.1] ∧ Seg h₂ p [e] n ∧ Seg h₂ none l₁ (first l₂ none) ∧
      Seg h₂ (final none l₁) l₂ none := by
  have hnot := (List.nodup_cons.mp hf.nodup).1
  rw [List.map_append, List.mem_append, not_or] at hnot
  obtain ⟨hs₁, hs₂⟩ := Seg.append_iff.mp hf.seg
  obtain ⟨h₁, hp₁, hw₁, hnode₁⟩ := @Seg.setPrev _ _ _ _ p [] _ hf.node (by simp)
  obtain ⟨h₂, hn₂, hw₂, hnode₂⟩ := @Seg.setNext _ _ _ _ n [] _ hnode₁ (by simp)
  have hw : Wrote h h₂ [e.1, e.1] := hw₁.trans hw₂
  have honly : ∀ a ∈ [e.1, e.1], a = e.1 := by simp
  refine ⟨h₁, h₂, hp₁, hn₂, hw, hnode₂, hs₁.wrote hw fun a ha => ?_, hs₂.wrote hw fun a ha => ?_⟩
  · rw [honly a ha]
    exact hnot.1
  · rw [honly a ha]
    exact hnot.2

/-- The new node goes behind the last one. -/
theorem Fresh.back {h : Heap α} {b e : Nat × α} {l : List (Nat × α)} (hf : Fresh h (l ++ [b]) e) :
    ∃ h₁ h₂ h', h.setPrev (some e.1) (some b.1) = some h₁ ∧ h₁.setNext (some e.1) none = some h₂ ∧
      h₂.setNext (some b.1) (some e.1) = some h' ∧
      Rep h' (first (l ++ [b]) none) (some e.1) ((l ++ [b]) ++ [e]) := by
  have hf' : Fresh h ((l ++ [b]) ++ []) e := by rwa [List.append_nil]
  obtain ⟨h₁, h₂, hp₁, hn₂, hw, hnode, hs, -⟩ := hf'.links (some b.1) none
  obtain ⟨hnot, hnodup⟩ := List.nodup_cons.mp hf.nodup
  have hb : b.1 ∉ l.map (·.1) := by
    rw [List.map_append] at hnodup
    exact fun hmem =>
      (List.nodup_append.mp hnodup).2.2 _ hmem _ (List.mem_singleton_self _) rfl
  have hbe : b.1 ≠ e.1 := fun he => hnot (he ▸ by simp)
  obtain ⟨h₃, hn₃, hw₃, hs₃⟩ := @Seg.setNext _ _ _ _ (some e.1) _ _ hs hb
  have hseg : Seg h₃ none ((l ++ [b]) ++ [e]) none := by
    refine Seg.append_iff.mpr ⟨hs₃, ?_⟩
    rw [final_concat]
    exact hnode.wrote hw₃ (by simpa using hbe)
  have hrep := hf'.rep (hw.trans hw₃) hseg
  rw [first_append (l ++ [b]), first_append l, final_concat] at hrep
  refine ⟨h₁, h₂, h₃, hp₁, hn₂, hn₃, ?_⟩
  rw [first_append]
  exact hrep

/-- The new node goes between two others. -/
theorem Fresh.between {h : Heap α} {b d e : Nat × α} {l l' : List (Nat × α)}
    (hf : Fresh h ((l ++ [b]) ++ d :: l') e) :
    ∃ h₁ h₂ h₃ h', h.setPrev (some e.1) (some b.1) = some h₁ ∧
      h₁.setNext (some e.1) (some d.1) = some h₂ ∧ h₂.setPrev (some d.1) (some e.1) = some h₃ ∧
      h₃.setNext (some b.1) (some e.1) = some h' ∧
      Rep h' (first ((l ++ [b]) ++ d :: l') none) (final none ((l ++ [b]) ++ d :: l'))
        ((l ++ [b]) ++ e :: d :: l') := by
  obtain ⟨h₁, h₂, hp₁, hn₂, hw, hnode, hs, hs'⟩ := hf.links (some b.1) (some d.1)
  obtain ⟨hnot, hnodup⟩ := List.nodup_cons.mp hf.nodup
  rw [List.map_append] at hnodup
  obtain ⟨hfront, hback, hdisj⟩ := List.nodup_append.mp hnodup
  have hb : b.1 ∉ l.map (·.1) := by
    rw [List.map_append] at hfront
    exact fun hmem =>
      (List.nodup_append.mp hfront).2.2 _ hmem _ (List.mem_singleton_self _) rfl
  have hbmem : b.1 ∈ (l ++ [b]).map (·.1) := by simp
  have hbe : b.1 ≠ e.1 := fun he => hnot (he ▸ by simp)
  have hde : d.1 ≠ e.1 := fun he => hnot (he ▸ by simp)
  -- The two neighbours are joined to the new node, one after the other.
  obtain ⟨h₃, hp₃, hw₃, hs₃⟩ := @Seg.setPrev _ _ _ _ (some e.1) _ _ hs'
    (List.nodup_cons.mp hback).1
  have hfront₃ : Seg h₃ none (l ++ [b]) (some d.1) := hs.wrote hw₃ fun a ha hmem => by
    rw [List.mem_singleton.mp ha] at hmem
    exact hdisj _ hmem _ (List.mem_cons_self ..) rfl
  obtain ⟨h₄, hn₄, hw₄, hs₄⟩ := @Seg.setNext _ _ _ _ (some e.1) _ _ hfront₃ hb
  have hnode₄ : Seg h₄ (some b.1) [e] (some d.1) :=
    hnode.wrote (hw₃.trans hw₄) (by simpa using ⟨hde, hbe⟩)
  have hback₄ : Seg h₄ (some e.1) (d :: l') none := hs₃.wrote hw₄ fun a ha => by
    rw [List.mem_singleton.mp ha]
    exact fun hmem => hdisj _ hbmem _ hmem rfl
  have hseg : Seg h₄ none ((l ++ [b]) ++ e :: d :: l') none := by
    refine Seg.append_iff.mpr ⟨hs₄, ?_⟩
    rw [final_concat]
    exact ⟨hnode₄.1, hback₄⟩
  have hrep := hf.rep ((hw.trans hw₃).trans hw₄) hseg
  refine ⟨h₁, h₂, h₃, h₄, hp₁, hn₂, hp₃, hn₄, ?_⟩
  rw [first_append (l ++ [b]), first_append l, final_append] at hrep
  rw [first_append (l ++ [b]), first_append l, final_append]
  exact hrep

end AggreKV.DoublyLinked
