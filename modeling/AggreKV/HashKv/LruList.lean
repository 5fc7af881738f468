import AggreKV.Lib.DoublyLinked
import AggreKV.Lib.Machine
import Mathlib.Data.List.MinMax

/-! # The LRU list of cold translation pages

    `tools/lru_list.c`: a doubly linked list, most recent page first. The
    caller keeps the node that `lru_push` returns.

    * `Lru`: the list of the source, with the heap of its nodes; `malloc`
      may return any address that is not allocated.
    * `Nodes.call`: the same calls on a list of nodes.
    * `Lru.Holds`: the heap represents the list; each operation keeps it.
    * `lru_refines`: the two agree on all runs. -/

namespace AggreKV.HashKv

open DoublyLinked

/-! ## Section 1: The source -/

/-- `LRU`; `DATA` is a pointer to a `cmt_struct` or null. -/
structure Lru (γ : Type) where
  heap : Heap (Option γ)
  head : Option Nat
  tail : Option Nat
  size : Int

/-- What the scans read of a `cmt_struct`. -/
structure CmtHeat where
  hasCntMap : Bool
  pageHeatSum : Nat

/-- `page_heat` of a node, 0 without data. -/
def pageHeat {γ : Type} (cmt : γ → CmtHeat) (d : Option γ) : Nat :=
  match d with
  | some c => if (cmt c).hasCntMap then (cmt c).pageHeatSum else 0
  | none => 0

namespace Lru

variable {γ : Type}

/-- `lru_init`. -/
def init : Lru γ := ⟨fun _ => none, none, none, 0⟩

/-- `lru_push`, where `malloc` returns the address `now`. -/
def push (s : Lru γ) (now : Nat) (tablePtr : Option γ) : Option (Lru γ) :=
  if (s.heap now).isSome then none
  else
    let heap : Heap (Option γ) := Function.update s.heap now (some ⟨tablePtr, none, none⟩)
    if s.size = 0 then some ⟨heap, some now, some now, s.size + 1⟩
    else do
      let heap ← heap.setPrev s.head (some now)
      let heap ← heap.setNext (some now) s.head
      return ⟨heap, some now, s.tail, s.size + 1⟩

/-- `free` of a node that has left the list. -/
def drop (s : Lru γ) (now : Nat) : Lru γ :=
  { s with heap := Function.update s.heap now none, size := s.size - 1 }

/-- `lru_pop`. -/
def pop (s : Lru γ) : Option (Option γ × Lru γ) :=
  if s.head = none ∨ s.size = 0 then some (none, s)
  else do
    let now ← s.tail
    let nd ← s.heap now
    match nd.prev with
    | some p =>
      let heap ← s.heap.setNext (some p) none
      return (nd.data, Lru.drop { s with heap := heap, tail := some p } now)
    | none => return (nd.data, Lru.drop { s with head := none, tail := none } now)

/-- How `lru_delete` and `lru_pop_hot` take a node out of the links; only the latter checks
    the new tail for null. -/
def unlink (s : Lru γ) (now : Nat) (checked : Bool) : Option (Lru γ) := do
  let nd ← s.heap now
  if s.head = some now then
    match nd.next with
    | some n =>
      let heap ← s.heap.setPrev (some n) none
      return { s with heap := heap, head := some n }
    | none => return { s with head := none, tail := none }
  else if s.tail = some now then
    match nd.prev with
    | some p =>
      let heap ← s.heap.setNext (some p) none
      return { s with heap := heap, tail := some p }
    | none => if checked then return { s with tail := none } else none
  else
    let heap ← s.heap.setNext nd.prev nd.next
    let heap ← heap.setPrev nd.next nd.prev
    return { s with heap := heap }

/-- `lru_delete`. -/
def delete (s : Lru γ) : Option Nat → Option (Lru γ)
  | none => some s
  | some now => (s.unlink now false).map fun s => s.drop now

/-- `lru_update`: a node that is not the head already is unlinked as in `lru_delete` and
    becomes the head. -/
def update (s : Lru γ) : Option Nat → Option (Lru γ)
  | none => some s
  | some now =>
    if s.head = some now then some s
    else do
      let s ← s.unlink now false
      let heap ← s.heap.setPrev (some now) none
      let heap ← heap.setPrev s.head (some now)
      let heap ← heap.setNext (some now) s.head
      return { s with heap := heap, head := some now }

/-- `lru_top_pct_window` for `COLD_LRU_PROMOTE_TOP_PCT`. -/
def topWindow (size : Int) : Nat :=
  let window := (size * 50 + 99).tdiv 100
  (if 0 < window then window else 1).toNat

/-- The scan of `lru_pop_hot`: the first node of greatest heat among `fuel` nodes. -/
def hotScan (heap : Heap (Option γ)) (cmt : γ → CmtHeat) :
    Nat → Option Nat → Option Nat × Nat → Option (Option Nat)
  | 0, _, (target, _) => some target
  | _ + 1, none, (target, _) => some target
  | fuel + 1, some current, (target, maxPageHeat) =>
    (heap current).bind fun nd =>
      hotScan heap cmt fuel nd.next
        (if maxPageHeat < pageHeat cmt nd.data then (some current, pageHeat cmt nd.data)
          else (target, maxPageHeat))

/-- `lru_pop_hot`. -/
def popHot (s : Lru γ) (cmt : γ → CmtHeat) : Option (Option γ × Lru γ) :=
  if s.size = 0 then some (none, s)
  else do
    match ← hotScan s.heap cmt (topWindow s.size) s.head (none, 0) with
    | none => return (none, s)
    | some target =>
      let nd ← s.heap target
      let s ← s.unlink target true
      return (nd.data, s.drop target)

end Lru

/-- A call of one of the five operations. -/
inductive LruCall (γ : Type) where
  | push (now : Nat) (tablePtr : Option γ)
  | pop
  | update (now : Option Nat)
  | delete (now : Option Nat)
  | popHot (cmt : γ → CmtHeat)

/-- What a call returns: a node, a `DATA` pointer, or nothing. -/
inductive LruReply (γ : Type) where
  | node (now : Nat)
  | data (d : Option γ)
  | done

variable {γ : Type}

def Lru.call (s : Lru γ) : LruCall γ → Option (LruReply γ × Lru γ)
  | .push now tablePtr => (s.push now tablePtr).map fun s => (.node now, s)
  | .pop => s.pop.map fun (d, s) => (.data d, s)
  | .update now => (s.update now).map fun s => (.done, s)
  | .delete now => (s.delete now).map fun s => (.done, s)
  | .popHot cmt => (s.popHot cmt).map fun (d, s) => (.data d, s)

/-! ## Section 2: The list -/

/-- The nodes in order, with their data. -/
abbrev Nodes (γ : Type) := List (Nat × Option γ)

namespace Nodes

def addrs (l : Nodes γ) : List Nat := l.map (·.1)

def remove (l : Nodes γ) (now : Nat) : Nodes γ := l.filter fun e => e.1 ≠ now

def moveToFront (l : Nodes γ) (now : Nat) : Nodes γ :=
  (l.filter fun e => e.1 = now) ++ l.remove now

/-- Half of the list, rounded up, and at least one node. -/
def window (l : Nodes γ) : Nat := max 1 ((l.length * 50 + 99) / 100)

/-- The first node of greatest heat in the window, unless all are cold. -/
def hottest (l : Nodes γ) (cmt : γ → CmtHeat) : Option (Nat × Option γ) :=
  ((l.take l.window).argmax fun e => pageHeat cmt e.2).filter fun e => 0 < pageHeat cmt e.2

/-- The calls on a list of nodes. A new node is not in the list, a node to update or delete
    is. -/
def call (l : Nodes γ) : LruCall γ → Option (LruReply γ × Nodes γ)
  | .push now tablePtr => if now ∈ l.addrs then none else some (.node now, (now, tablePtr) :: l)
  | .pop => some (.data (l.getLast?.bind (·.2)), l.dropLast)
  | .update none => some (.done, l)
  | .update (some now) => if now ∈ l.addrs then some (.done, l.moveToFront now) else none
  | .delete none => some (.done, l)
  | .delete (some now) => if now ∈ l.addrs then some (.done, l.remove now) else none
  | .popHot cmt =>
    some (.data ((l.hottest cmt).bind (·.2)), (l.hottest cmt).elim l fun e => l.remove e.1)

end Nodes

/-! ## Section 3: The representation -/

/-- The heap holds the list, and nothing else; `size` is its length. -/
structure Lru.Holds (s : Lru γ) (l : Nodes γ) : Prop extends Rep s.heap s.head s.tail l where
  size : s.size = l.length

theorem Lru.init_holds : (Lru.init : Lru γ).Holds [] := ⟨Rep.nil, rfl⟩

/-- Removing a node leaves those around it. -/
theorem Nodes.remove_eq {l₁ l₂ : Nodes γ} {e : Nat × Option γ}
    (h : (l₁ ++ e :: l₂).addrs.Nodup) : (l₁ ++ e :: l₂).remove e.1 = l₁ ++ l₂ ∧
      (l₁ ++ e :: l₂).filter (fun x => x.1 = e.1) = [e] := by
  unfold Nodes.addrs at h
  rw [List.map_append, List.map_cons] at h
  obtain ⟨-, hcons, hdisj⟩ := List.nodup_append.mp h
  have h₁ : ∀ x ∈ l₁, x.1 ≠ e.1 := fun x hx =>
    hdisj _ (List.mem_map_of_mem hx) _ (List.mem_cons_self ..)
  have h₂ : ∀ x ∈ l₂, x.1 ≠ e.1 := fun x hx hxe =>
    (List.nodup_cons.mp hcons).1 (hxe ▸ List.mem_map_of_mem hx)
  constructor
  · unfold Nodes.remove
    rw [List.filter_append, List.filter_cons_of_neg (by simp),
      List.filter_eq_self.mpr fun x hx => by simpa using h₁ x hx,
      List.filter_eq_self.mpr fun x hx => by simpa using h₂ x hx]
  · rw [List.filter_append, List.filter_cons_of_pos (by simp),
      List.filter_eq_nil_iff.mpr fun x hx => by simpa using h₁ x hx,
      List.filter_eq_nil_iff.mpr fun x hx => by simpa using h₂ x hx, List.nil_append]

/-- A list with `e` taken out of the links: `e` itself is still allocated. -/
structure Lru.Unlinked (s s' : Lru γ) (e : Nat × Option γ) (l : Nodes γ) : Prop where
  head : s'.head = first l none
  tail : s'.tail = final none l
  seg : Seg s'.heap none l none
  node : s'.heap e.1 = s.heap e.1
  alloc : ∀ a, (s'.heap a).isSome = (s.heap a).isSome
  size : s'.size = s.size

/-- Each of the four positions of a node. -/
theorem Lru.Holds.unlink {s : Lru γ} {l₁ l₂ : Nodes γ} {e : Nat × Option γ}
    (h : s.Holds (l₁ ++ e :: l₂)) (checked : Bool) :
    ∃ s', s.unlink e.1 checked = some s' ∧ Lru.Unlinked s s' e (l₁ ++ l₂) := by
  obtain ⟨hrep, hsize⟩ := h
  have hnode := hrep.seg.node
  have hnodup := hrep.nodup
  have hseg := Seg.append_iff.mp hrep.seg
  rw [List.map_append, List.map_cons] at hnodup
  obtain ⟨hn₁, hn₂, hdisj⟩ := List.nodup_append.mp hnodup
  have hnot₁ : e.1 ∉ l₁.map (·.1) := fun hmem => hdisj _ hmem _ (List.mem_cons_self ..) rfl
  have hnot₂ : e.1 ∉ l₂.map (·.1) := (List.nodup_cons.mp hn₂).1
  unfold Lru.unlink
  rw [hnode]
  rcases List.eq_nil_or_concat' l₁ with rfl | ⟨l₀, b, rfl⟩
  · -- The head.
    have hhead : s.head = some e.1 := hrep.head
    cases l₂ with
    | nil =>
      refine ⟨{ s with head := none, tail := none }, ?_, rfl, rfl, trivial, rfl, fun _ => rfl, rfl⟩
      simp [hhead, first]
    | cons c l₂ =>
      obtain ⟨heap, hprev, hw, hs⟩ := @Seg.setPrev _ _ _ _ none _ _ hseg.2.2
        (List.nodup_cons.mp (List.nodup_cons.mp hn₂).2).1
      have hne : e.1 ≠ c.1 := fun he => hnot₂ (he ▸ List.mem_cons_self ..)
      refine ⟨{ s with heap := heap, head := some c.1 }, ?_, rfl, ?_, hs, hw.other _ ?_, hw.alloc,
        rfl⟩
      · simp [hhead, first, hprev]
      · exact hrep.last
      · simpa using hne
  · have hhead : s.head ≠ some e.1 := by
      obtain ⟨x, hx, hfirst⟩ := exists_first (l := l₀ ++ [b]) (by simp) (first (e :: l₂) none)
      rw [hrep.head, first_append, hfirst]
      exact fun he => hnot₁ (Option.some.inj he ▸ List.mem_map_of_mem hx)
    have hb : b.1 ∉ l₀.map (·.1) := by
      rw [List.map_append] at hn₁
      exact fun hmem => (List.nodup_append.mp hn₁).2.2 _ hmem _ (List.mem_singleton_self _) rfl
    have hbe : e.1 ≠ b.1 := fun he => hnot₁ (he ▸ by simp)
    cases l₂ with
    | nil =>
      -- The tail.
      have htail : s.tail = some e.1 := by
        rw [hrep.last, final_append]
        rfl
      obtain ⟨heap, hnext, hw, hs⟩ := @Seg.setNext _ _ _ _ none _ _ hseg.1 hb
      refine ⟨{ s with heap := heap, tail := some b.1 }, ?_, ?_, ?_, ?_, hw.other _ ?_, hw.alloc,
        rfl⟩
      · simp [hhead, htail, final_concat, hnext]
      · rw [hrep.head, List.append_nil, first_append, first_append]
        cases l₀ <;> rfl
      · rw [List.append_nil, final_concat]
      · rw [List.append_nil]
        exact hs
      · simpa using hbe
    | cons c l₂ =>
      have htail : s.tail ≠ some e.1 := by
        obtain ⟨x, hx, hfinal⟩ := exists_final (l := c :: l₂) (by simp) (some e.1)
        rw [hrep.last, final_append]
        show final (some e.1) (c :: l₂) ≠ _
        rw [hfinal]
        exact fun he => hnot₂ (Option.some.inj he ▸ List.mem_map_of_mem hx)
      have hne : e.1 ≠ c.1 := fun he => hnot₂ (he ▸ List.mem_cons_self ..)
      have hboth : (((l₀ ++ [b]) ++ c :: l₂).map (·.1)).Nodup := by
        rw [List.map_append]
        refine List.nodup_append.mpr ⟨hn₁, (List.nodup_cons.mp hn₂).2, fun a ha a' ha' => ?_⟩
        exact hdisj a ha a' (List.mem_cons_of_mem _ ha')
      obtain ⟨h₁, h₂, hnext, hprev, hw, hs⟩ := Seg.join hseg.1 hseg.2.2 hboth
      refine ⟨{ s with heap := h₂ }, ?_, ?_, ?_, hs, hw.other _ ?_, hw.alloc, rfl⟩
      · simp [hhead, htail, final_concat, first, hnext, hprev]
      · rw [hrep.head, first_append, first_append, first_append, first_append]
        cases l₀ <;> rfl
      · rw [hrep.last]
        exact (final_append ..).trans (final_append none (l₀ ++ [b]) (c :: l₂)).symm
      · simpa using ⟨hbe, hne⟩

/-- Freeing the unlinked node. -/
theorem Lru.Unlinked.drop {s s' : Lru γ} {l₁ l₂ : Nodes γ} {e : Nat × Option γ}
    (hu : Lru.Unlinked s s' e (l₁ ++ l₂)) (h : s.Holds (l₁ ++ e :: l₂)) :
    (s'.drop e.1).Holds (l₁ ++ l₂) := by
  have hperm : ((l₁ ++ e :: l₂).map (·.1)).Perm (e.1 :: (l₁ ++ l₂).map (·.1)) :=
    List.perm_middle.map _
  obtain ⟨hnot, hnodup⟩ := List.nodup_cons.mp (hperm.nodup_iff.mp h.nodup)
  refine ⟨⟨hu.head, hu.tail, hu.seg.free hnot, hnodup, fun a => ?_⟩, ?_⟩
  · show (Function.update s'.heap e.1 none a).isSome = true ↔ _
    by_cases ha : a = e.1
    · rw [ha, Function.update_self]
      exact ⟨fun hs => (by cases hs), fun hmem => absurd hmem hnot⟩
    · rw [Function.update_of_ne ha, hu.alloc, h.alloc, hperm.mem_iff, List.mem_cons]
      exact or_iff_right ha
  · have hsize := h.size
    rw [List.length_append, List.length_cons] at hsize
    show s'.size - 1 = _
    rw [hu.size, hsize, List.length_append]
    omega

/-- A new node comes to the front. -/
theorem Lru.Holds.push {s : Lru γ} {l : Nodes γ} {now : Nat} (h : s.Holds l)
    (hnew : now ∉ l.addrs) (d : Option γ) :
    ∃ s', s.push now d = some s' ∧ s'.Holds ((now, d) :: l) := by
  have hfree : s.heap now = none := by
    have hiff := h.alloc now
    rw [← Option.not_isSome_iff_eq_none]
    exact fun hs => hnew (hiff.mp hs)
  have hnodup : (((now, d) :: l).map (·.1)).Nodup := List.nodup_cons.mpr ⟨hnew, h.nodup⟩
  generalize hheap : (Function.update s.heap now (some ⟨d, none, none⟩) : Heap (Option γ)) = heap
  -- The new node is outside the list, which stays as it is.
  have hold : Seg heap none l none := h.seg.frame fun e he => by
    rw [← hheap]
    exact Function.update_of_ne (fun hea : e.1 = now => hnew (hea ▸ List.mem_map_of_mem he)) ..
  have hone : Seg heap none ([] ++ [(now, d)]) none := by
    refine ⟨?_, trivial⟩
    rw [← hheap]
    exact Function.update_self ..
  have halloc : ∀ a, (heap a).isSome = true ↔ a ∈ ((now, d) :: l).map (·.1) := fun a => by
    rw [← hheap, List.map_cons, List.mem_cons]
    by_cases ha : a = now
    · rw [ha, Function.update_self]
      exact ⟨fun _ => Or.inl rfl, fun _ => rfl⟩
    · rw [Function.update_of_ne ha, h.alloc]
      exact (or_iff_right ha).symm
  have hsize : s.size + 1 = (((now, d) :: l).length : Int) := by
    rw [h.size, List.length_cons]
    rfl
  unfold Lru.push
  rw [hfree, if_neg (by simp), hheap]
  cases l with
  | nil =>
    have hzero : s.size = 0 := h.size
    rw [if_pos hzero]
    exact ⟨_, rfl, ⟨⟨rfl, rfl, hone, hnodup, halloc⟩, hsize⟩⟩
  | cons c l =>
    have hpos : s.size ≠ 0 := by
      rw [h.size, List.length_cons]
      omega
    have hhead : s.head = some c.1 := h.head
    -- The two links between the new node and the old head.
    obtain ⟨h₁, h₂, hprev, hnext, hw, hs⟩ := Seg.join' hone hold hnodup
    refine ⟨⟨h₂, some now, s.tail, s.size + 1⟩, ?_, ⟨⟨rfl, h.last, hs, hnodup, fun a => ?_⟩, hsize⟩⟩
    · rw [if_neg hpos, hhead]
      simp only [Option.bind_eq_bind, hprev, Option.bind_some, hnext]
      rfl
    · show (h₂ a).isSome = true ↔ _
      rw [hw.alloc, halloc]

/-- The last node is taken off. -/
theorem Lru.Holds.pop {s : Lru γ} {l : Nodes γ} (h : s.Holds l) :
    ∃ s', s.pop = some (l.getLast?.bind (·.2), s') ∧ s'.Holds l.dropLast := by
  rcases List.eq_nil_or_concat' l with rfl | ⟨l₀, e, rfl⟩
  · have hhead : s.head = none := h.head
    refine ⟨s, ?_, h⟩
    unfold Lru.pop
    rw [if_pos (Or.inl hhead)]
    rfl
  · have htail : s.tail = some e.1 := by
      rw [h.last, final_concat]
    have hhead : s.head ≠ none := by
      rw [h.head, first_append]
      cases l₀ <;> exact Option.some_ne_none _
    have hpos : s.size ≠ 0 := by
      rw [h.size, List.length_append, List.length_singleton]
      omega
    have hnode := h.seg.node
    have hseg := (Seg.append_iff.mp h.seg).1
    rw [List.getLast?_concat, List.dropLast_concat]
    -- Popping is unlinking the tail.
    have hdrop : ∀ {s'}, Lru.Unlinked s s' e l₀ → (s'.drop e.1).Holds l₀ := fun {s'} hu => by
      rw [← List.append_nil l₀] at hu ⊢
      exact hu.drop h
    unfold Lru.pop
    rw [if_neg (not_or.mpr ⟨hhead, hpos⟩), htail]
    have hne : e.1 ∉ l₀.map (·.1) := by
      have hnodup := h.nodup
      rw [List.map_append] at hnodup
      exact fun hmem => (List.nodup_append.mp hnodup).2.2 _ hmem _ (List.mem_singleton_self _) rfl
    rcases List.eq_nil_or_concat' l₀ with rfl | ⟨l₁, b, rfl⟩
    · refine ⟨Lru.drop { s with head := none, tail := none } e.1, ?_,
        hdrop ⟨rfl, rfl, trivial, rfl, fun _ => rfl, rfl⟩⟩
      simp [hnode, final]
    · have hb : b.1 ∉ l₁.map (·.1) := by
        have hnodup := h.nodup
        rw [List.append_assoc, List.map_append] at hnodup
        exact fun hmem => (List.nodup_append.mp hnodup).2.2 _ hmem _ (List.mem_cons_self ..) rfl
      obtain ⟨heap, hnext, hw, hs⟩ := @Seg.setNext _ _ _ _ none _ _ hseg hb
      refine ⟨Lru.drop { s with heap := heap, tail := some b.1 } e.1, ?_,
        hdrop ⟨?_, ?_, hs, hw.other _ ?_, hw.alloc, rfl⟩⟩
      · simp [hnode, final_concat, hnext]
      · rw [h.head, first_append, first_append, first_append]
        cases l₁ <;> rfl
      · exact (final_concat ..).symm
      · have hbe : e.1 ≠ b.1 := fun he => hne (he ▸ by simp)
        simpa using hbe

/-- A node in the list has neighbours. -/
theorem exists_node {l : Nodes γ} {now : Nat} (h : now ∈ l.addrs) :
    ∃ l₁ d l₂, l = l₁ ++ (now, d) :: l₂ := by
  obtain ⟨⟨a, d⟩, hmem, rfl⟩ := List.mem_map.mp h
  obtain ⟨l₁, l₂, rfl⟩ := List.append_of_mem hmem
  exact ⟨l₁, d, l₂, rfl⟩

/-- A node is taken off, wherever it is. -/
theorem Lru.Holds.delete {s : Lru γ} {l : Nodes γ} {now : Nat} (h : s.Holds l)
    (hmem : now ∈ l.addrs) : ∃ s', s.delete (some now) = some s' ∧ s'.Holds (l.remove now) := by
  obtain ⟨l₁, d, l₂, rfl⟩ := exists_node hmem
  obtain ⟨s', hs', hu⟩ := h.unlink false
  rw [(Nodes.remove_eq (e := (now, d)) h.nodup).1]
  refine ⟨s'.drop now, ?_, hu.drop h⟩
  show (s.unlink now false).map _ = _
  rw [show s.unlink now false = some s' from hs']
  rfl

/-- A node is moved to the front. -/
theorem Lru.Holds.update {s : Lru γ} {l : Nodes γ} {now : Nat} (h : s.Holds l)
    (hmem : now ∈ l.addrs) :
    ∃ s', s.update (some now) = some s' ∧ s'.Holds (l.moveToFront now) := by
  obtain ⟨l₁, d, l₂, rfl⟩ := exists_node hmem
  have hparts := Nodes.remove_eq (e := (now, d)) h.nodup
  have hmove : Nodes.moveToFront (l₁ ++ (now, d) :: l₂) now = (now, d) :: (l₁ ++ l₂) := by
    unfold Nodes.moveToFront
    rw [hparts.1, hparts.2]
    rfl
  rw [hmove]
  unfold Lru.update
  cases l₁ with
  | nil =>
    have hhead : s.head = some now := h.head
    exact ⟨s, if_pos hhead, h⟩
  | cons b l₁ =>
    obtain ⟨s', hs', hu⟩ := h.unlink false
    have hperm : ((b :: l₁ ++ (now, d) :: l₂).map (·.1)).Perm
        (((now, d) :: (b :: l₁ ++ l₂)).map (·.1)) := List.perm_middle.map _
    have hnodup := hperm.nodup_iff.mp h.nodup
    have hnot := (List.nodup_cons.mp hnodup).1
    have hhead : s.head ≠ some now := by
      rw [h.head]
      exact fun he => hnot (Option.some.inj he ▸ List.mem_cons_self ..)
    have hhead' : s'.head = some b.1 := hu.head
    have hnode : Seg s'.heap (final none (b :: l₁)) ((now, d) :: []) (first l₂ none) := by
      refine ⟨?_, trivial⟩
      rw [hu.node]
      exact h.seg.node
    -- The node leaves its old neighbours, then goes before the head.
    obtain ⟨h₀, hprev₀, hw₀, hs₀⟩ := @Seg.setPrev _ _ _ _ none _ _ hnode (by simp)
    have hrest : Seg h₀ none (b :: l₁ ++ l₂) none := hu.seg.wrote hw₀ fun a ha => by
      rwa [List.mem_singleton.mp ha]
    obtain ⟨h₁, h₂, hprev, hnext, hw, hs⟩ := @Seg.join' _ _ _ _ _ _ [] _ _ _ hs₀ hrest hnodup
    refine ⟨{ s' with heap := h₂, head := some now }, ?_, ⟨⟨rfl, ?_, hs, hnodup, fun a => ?_⟩, ?_⟩⟩
    · show (if s.head = some now then some s else _) = _
      rw [if_neg hhead]
      simp only [Option.bind_eq_bind, show s.unlink now false = some s' from hs', Option.bind_some,
        hprev₀, hhead', hprev, hnext]
      rfl
    · exact hu.tail
    · show (h₂ a).isSome = true ↔ _
      rw [hw.alloc, hw₀.alloc, hu.alloc, h.alloc, hperm.mem_iff]
    · show s'.size = _
      rw [hu.size, h.size]
      simp only [List.length_append, List.length_cons]
      omega

/-! ## Section 4: The hottest page -/

/-- The scan of a segment is a fold over its nodes; `o` is the hottest node so far. -/
theorem hotScan_eq {heap : Heap (Option γ)} (cmt : γ → CmtHeat) {fuel : Nat} {p : Option Nat}
    {l : Nodes γ} (o : Option (Nat × Option γ)) (hs : Seg heap p l none) :
    Lru.hotScan heap cmt fuel (first l none)
      ((o.filter fun e => 0 < pageHeat cmt e.2).map (·.1), o.elim 0 fun e => pageHeat cmt e.2) =
      some ((((l.take fuel).foldl
        (List.argAux fun b c => pageHeat cmt c.2 < pageHeat cmt b.2) o).filter
          fun e => 0 < pageHeat cmt e.2).map (·.1)) := by
  induction l generalizing p fuel o with
  | nil =>
    rw [List.take_nil]
    cases fuel with
    | zero => rfl
    | succ fuel => rfl
  -- The scan keeps the hottest node of those passed, as the fold does.
  | cons e l ih =>
    cases fuel with
    | zero => rfl
    | succ fuel =>
      rw [List.take_succ_cons, List.foldl_cons, ← ih _ hs.2]
      show (heap e.1).bind _ = _
      rw [hs.1]
      show Lru.hotScan heap cmt fuel (first l none) _ = _
      congr 1
      cases o with
      | none =>
        by_cases hpos : 0 < pageHeat cmt e.2
        · simp [List.argAux, Option.filter, hpos]
        · simp [List.argAux, Option.filter, Nat.eq_zero_of_not_pos hpos]
      | some b =>
        by_cases hlt : pageHeat cmt b.2 < pageHeat cmt e.2
        · have hpos : 0 < pageHeat cmt e.2 := Nat.zero_lt_of_lt hlt
          simp [List.argAux, Option.filter, hlt, hpos]
        · simp [List.argAux, hlt]

/-- The window of the scan has its length. -/
theorem topWindow_eq (l : Nodes γ) : Lru.topWindow l.length = l.window := by
  have hdiv : ((l.length : Int) * 50 + 99).tdiv 100 = ((l.length * 50 + 99) / 100 : Nat) := by
    rw [Int.tdiv_eq_ediv_of_nonneg (by omega)]
    omega
  show (if (0 : Int) < ((l.length : Int) * 50 + 99).tdiv 100
    then ((l.length : Int) * 50 + 99).tdiv 100 else 1).toNat = max 1 ((l.length * 50 + 99) / 100)
  rw [hdiv]
  split <;> omega

theorem Nodes.hottest_nil (cmt : γ → CmtHeat) : Nodes.hottest [] cmt = none := by
  rw [hottest, List.take_nil, List.argmax_nil]
  rfl

/-- The hottest node of the window has some heat. -/
theorem Nodes.hottest_mem {l : Nodes γ} {cmt : γ → CmtHeat} {e : Nat × Option γ}
    (h : l.hottest cmt = some e) : e ∈ l.take l.window ∧ 0 < pageHeat cmt e.2 ∧
      ∀ e' ∈ l.take l.window, pageHeat cmt e'.2 ≤ pageHeat cmt e.2 := by
  obtain ⟨hmax, hpos⟩ := Option.filter_eq_some_iff.mp h
  refine ⟨List.argmax_mem hmax, of_decide_eq_true hpos, fun e' he' => ?_⟩
  exact List.le_of_mem_argmax (f := fun e => pageHeat cmt e.2) he' hmax

/-- The hottest node of the window is taken off, if there is one. -/
theorem Lru.Holds.popHot {s : Lru γ} {l : Nodes γ} (h : s.Holds l) (cmt : γ → CmtHeat) :
    ∃ s', s.popHot cmt = some ((l.hottest cmt).bind (·.2), s') ∧
      s'.Holds ((l.hottest cmt).elim l fun e => l.remove e.1) := by
  by_cases hzero : s.size = 0
  · have hnil : l = [] := List.length_eq_zero_iff.mp (by
      have hsize := h.size
      omega)
    subst hnil
    rw [Nodes.hottest_nil]
    exact ⟨s, if_pos hzero, h⟩
  -- The window is half of the list, at least one node.
  · have hscan : hotScan s.heap cmt (topWindow s.size) s.head (none, 0) =
        some ((l.hottest cmt).map (·.1)) := by
      rw [h.size, topWindow_eq, h.head]
      exact hotScan_eq cmt none h.seg
    unfold Lru.popHot
    rw [if_neg hzero]
    simp only [Option.bind_eq_bind, hscan, Option.bind_some]
    cases hhot : l.hottest cmt with
    | none => exact ⟨s, rfl, h⟩
    | some e =>
      have hmem : e ∈ l := List.mem_of_mem_take (Nodes.hottest_mem hhot).1
      obtain ⟨l₁, l₂, rfl⟩ := List.append_of_mem hmem
      obtain ⟨s', hs', hu⟩ := h.unlink true
      refine ⟨s'.drop e.1, ?_, ?_⟩
      · simp only [Option.map_some, h.seg.node, Option.bind_some, hs']
        rfl
      · show (s'.drop e.1).Holds (Nodes.remove _ e.1)
        rw [(Nodes.remove_eq h.nodup).1]
        exact hu.drop h

/-! ## Section 5: All runs -/

/-- The calls agree one by one. -/
theorem Lru.Holds.call {s : Lru γ} {l l' : Nodes γ} {c : LruCall γ} {r : LruReply γ}
    (h : s.Holds l) (hc : l.call c = some (r, l')) :
    ∃ s', s.call c = some (r, s') ∧ s'.Holds l' := by
  cases c with
  | push now d =>
    obtain ⟨hnew, heq⟩ := Option.ite_none_left_eq_some.mp hc
    cases heq
    obtain ⟨s', hs', hl⟩ := h.push hnew d
    exact ⟨s', by rw [Lru.call, hs']; rfl, hl⟩
  | pop =>
    cases hc
    obtain ⟨s', hs', hl⟩ := h.pop
    exact ⟨s', by rw [Lru.call, hs']; rfl, hl⟩
  | update now =>
    cases now with
    | none =>
      cases hc
      exact ⟨s, rfl, h⟩
    | some now =>
      obtain ⟨hmem, heq⟩ := Option.ite_none_right_eq_some.mp hc
      cases heq
      obtain ⟨s', hs', hl⟩ := h.update hmem
      exact ⟨s', by rw [Lru.call, hs']; rfl, hl⟩
  | delete now =>
    cases now with
    | none =>
      cases hc
      exact ⟨s, rfl, h⟩
    | some now =>
      obtain ⟨hmem, heq⟩ := Option.ite_none_right_eq_some.mp hc
      cases heq
      obtain ⟨s', hs', hl⟩ := h.delete hmem
      exact ⟨s', by rw [Lru.call, hs']; rfl, hl⟩
  | popHot cmt =>
    cases hc
    obtain ⟨s', hs', hl⟩ := h.popHot cmt
    exact ⟨s', by rw [Lru.call, hs']; rfl, hl⟩

/-- Only a push puts a node into the list. -/
theorem Nodes.call_not_mem {l l' : Nodes γ} {c : LruCall γ} {r : LruReply γ} {a : Nat}
    (ha : a ∉ l.addrs) (hpush : ∀ d, c ≠ .push a d) (hc : l.call c = some (r, l')) :
    a ∉ l'.addrs := by
  have hsub : ∀ {k : Nodes γ}, k ⊆ l → a ∉ k.addrs := fun hk hmem => by
    obtain ⟨e, he, hea⟩ := List.mem_map.mp hmem
    exact ha (List.mem_map.mpr ⟨e, hk he, hea⟩)
  -- Only a push adds an address, and not this one.
  cases c with
  | push now d =>
    obtain ⟨-, heq⟩ := Option.ite_none_left_eq_some.mp hc
    cases heq
    have hne : a ≠ now := fun he => hpush d (he ▸ rfl)
    exact fun hmem => (List.mem_cons.mp hmem).elim hne ha
  | pop =>
    cases hc
    exact hsub (List.dropLast_subset l)
  | update now =>
    cases now with
    | none =>
      cases hc
      exact ha
    | some now =>
      obtain ⟨-, heq⟩ := Option.ite_none_right_eq_some.mp hc
      cases heq
      exact hsub fun e he => (List.mem_append.mp he).elim (fun he => (List.mem_filter.mp he).1)
        fun he => (List.mem_filter.mp he).1
  | delete now =>
    cases now with
    | none =>
      cases hc
      exact ha
    | some now =>
      obtain ⟨-, heq⟩ := Option.ite_none_right_eq_some.mp hc
      cases heq
      exact hsub (List.filter_subset_self l)
  | popHot cmt =>
    cases hc
    cases l.hottest cmt with
    | none => exact ha
    | some e => exact hsub (List.filter_subset_self l)

/-- Every run of the list operations is answered by the pointer structure, which then links
    the nodes of the list in both directions. A node that has left the list is free, and no
    pointer leads to it, until an allocation returns its address again. -/
theorem lru_refines {cs : List (LruCall γ)} {rs : List (LruReply γ)} {l : Nodes γ}
    (h : runCalls Nodes.call [] cs = some (rs, l)) :
    ∃ s, runCalls Lru.call Lru.init cs = some (rs, s) ∧
      (∀ fuel, l.length ≤ fuel → followNext s.heap fuel s.head = l ∧
        followPrev s.heap fuel s.tail = l.reverse) ∧
      s.size = l.length ∧
      (∀ a, Reachable s.heap s.head s.tail a ↔ a ∈ l.addrs) ∧
      ∀ cs₁ cs₂ rs₁ l₁ a, cs = cs₁ ++ cs₂ → runCalls Nodes.call [] cs₁ = some (rs₁, l₁) →
        a ∉ l₁.addrs → (∀ d, LruCall.push a d ∉ cs₂) →
        s.heap a = none ∧ ¬ Reachable s.heap s.head s.tail a := by
  obtain ⟨s, hs, hl⟩ := runCalls_refines (fun _ _ _ _ _ hR hc => hR.call hc) Lru.init_holds h
  refine ⟨s, hs, fun fuel hfuel => ⟨hl.followNext hfuel, hl.followPrev hfuel⟩, hl.size,
    fun a => hl.reachable_iff, fun cs₁ cs₂ rs₁ l₁ a hcs h₁ ha hpush => ?_⟩
  subst hcs
  obtain ⟨l₂, rs₂, rs₃, h₂, h₃⟩ := runCalls_append h
  rw [h₁] at h₂
  cases h₂
  have hnot : a ∉ l.addrs := runCalls_invariant (I := fun l => a ∉ Nodes.addrs l)
    (P := fun c => ∀ d, c ≠ .push a d) (fun _ _ _ _ ha hp hc => Nodes.call_not_mem ha hp hc) ha
    (fun c hc d hd => by rw [hd] at hc; exact hpush d hc) h₃
  refine ⟨?_, fun hreach => hnot (hl.reachable_iff.mp hreach)⟩
  rw [← Option.not_isSome_iff_eq_none, hl.alloc]
  exact hnot

/-- The update brings the oldest of three pages into the window, where it is the hottest. -/
def threePages : List (LruCall Nat) :=
  [.push 1 (some 9), .push 2 (some 4), .push 3 none, .update (some 1),
    .popHot fun c => ⟨true, c⟩, .delete (some 3), .push 1 none, .pop]

/-- The heap of nodes answers the eight calls as the list does, and one page is left. -/
theorem lru_refines_three : ∃ s, runCalls Lru.call Lru.init threePages =
      some ([.node 1, .node 2, .node 3, .done, .data (some 9), .done, .node 1, .data (some 4)], s) ∧
    ∀ fuel, 1 ≤ fuel → followNext s.heap fuel s.head = [(1, none)] := by
  have hrun : runCalls Nodes.call [] threePages =
      some ([.node 1, .node 2, .node 3, .done, .data (some 9), .done, .node 1, .data (some 4)],
        [(1, none)]) := rfl
  obtain ⟨s, hs, hfollow, -⟩ := lru_refines hrun
  exact ⟨s, hs, fun fuel hfuel => (hfollow fuel hfuel).1⟩

end AggreKV.HashKv
