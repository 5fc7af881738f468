import Mathlib.Data.List.Induction
import Mathlib.Data.List.Nodup
import Mathlib.Logic.Function.Basic
import Mathlib.Tactic.Common

/-! # Skip lists in a heap

    Nodes with an array of forward pointers, one for each level, and a header
    that closes the chain of every level. A read of a node or an element that
    does not exist makes the operation `none`.

    * `Path`: the chain of one level between two nodes.
    * `Rep`: a header and its nodes hold a list, on every level the nodes that
      are high enough.
    * `Rep.descend`: a search ends at the last node it passes on each level,
      whatever the levels of the nodes are.
    * `Rep.insertNode`: what linking a new node behind these does. -/

namespace AggreKV.SkipList

variable {α : Type*}

/-! ## Section 1: The heap -/

/-- `list` has an element for each level up to `level`, which may hold nothing yet. -/
structure Node (α : Type*) where
  data : α
  level : Nat
  list : Nat → Option Nat
  back : Nat

/-- Allocated nodes by address. -/
abbrev Heap (α : Type*) := Nat → Option (Node α)

/-- `a->list[i]`. -/
def Heap.next (h : Heap α) (a i : Nat) : Option Nat := (h a).bind fun nd => nd.list i

/-- What linking never changes in a node. -/
def Heap.info (h : Heap α) (a : Nat) : Option (α × Nat) := (h a).map fun nd => (nd.data, nd.level)

/-- `a->list[i] = v`. -/
def Heap.setNext (h : Heap α) (a i v : Nat) : Option (Heap α) :=
  (h a).bind fun nd =>
    if i ≤ nd.level then
      some (Function.update h a (some { nd with list := Function.update nd.list i (some v) }))
    else none

/-- `a->back = v`. -/
def Heap.setBack (h : Heap α) (a v : Nat) : Option (Heap α) :=
  (h a).map fun nd => Function.update h a (some { nd with back := v })

def Heap.setData (h : Heap α) (a : Nat) (d : α) : Option (Heap α) :=
  (h a).map fun nd => Function.update h a (some { nd with data := d })

/-- A heap with the next address that `malloc` returns. -/
structure Mem (α : Type*) where
  heap : Heap α
  brk : Nat

/-- No address from `brk` on is in use. -/
def Mem.Free (m : Mem α) : Prop := ∀ b, m.brk ≤ b → m.heap b = none

/-- A free cell has no data. -/
theorem Heap.info_none {h : Heap α} {a : Nat} : h.info a = none ↔ h a = none :=
  Option.map_eq_none_iff

theorem Heap.info_some {h : Heap α} {a : Nat} {d : α} {lev : Nat} (hi : h.info a = some (d, lev)) :
    ∃ nd, h a = some nd ∧ nd.data = d ∧ nd.level = lev := by
  obtain ⟨nd, hnd, heq⟩ := Option.map_eq_some_iff.mp hi
  exact ⟨nd, hnd, congrArg Prod.fst heq, congrArg Prod.snd heq⟩

/-- One pointer is set. -/
theorem Heap.setNext_spec {h : Heap α} {a i v : Nat} {d : α} {lev : Nat}
    (hi : h.info a = some (d, lev)) (hle : i ≤ lev) :
    ∃ h', h.setNext a i v = some h' ∧ h'.info = h.info ∧
      ∀ b j, h'.next b j = if b = a ∧ j = i then some v else h.next b j := by
  obtain ⟨nd, hnd, rfl, rfl⟩ := Heap.info_some hi
  refine ⟨Function.update h a (some { nd with list := Function.update nd.list i (some v) }),
    ?_, ?_, ?_⟩
  · rw [Heap.setNext, hnd, Option.bind_some, if_pos hle]
  · funext b
    by_cases hb : b = a
    · subst hb
      rw [Heap.info, Heap.info, Function.update_self, hnd]
      rfl
    · rw [Heap.info, Heap.info, Function.update_of_ne hb]
  · intro b j
    by_cases hb : b = a
    · subst hb
      rw [Heap.next, Function.update_self, Option.bind_some, Heap.next, hnd, Option.bind_some]
      show Function.update nd.list i (some v) j = _
      by_cases hj : j = i
      · rw [if_pos ⟨rfl, hj⟩, hj, Function.update_self]
      · rw [if_neg fun hc => hj hc.2, Function.update_of_ne hj]
    · rw [if_neg fun hc => hb hc.1, Heap.next, Heap.next, Function.update_of_ne hb]

/-- Back pointers are not seen. -/
theorem Heap.setBack_spec {h : Heap α} {a v : Nat} {x : α × Nat} (hi : h.info a = some x) :
    ∃ h', h.setBack a v = some h' ∧ h'.info = h.info ∧ h'.next = h.next := by
  obtain ⟨nd, hnd, hx⟩ := Option.map_eq_some_iff.mp hi
  refine ⟨Function.update h a (some { nd with back := v }), ?_, ?_, ?_⟩
  · rw [Heap.setBack, hnd]
    rfl
  · funext b
    by_cases hb : b = a
    · subst hb
      rw [Heap.info, Heap.info, Function.update_self, hnd]
      rfl
    · rw [Heap.info, Heap.info, Function.update_of_ne hb]
  · funext b j
    by_cases hb : b = a
    · subst hb
      rw [Heap.next, Heap.next, Function.update_self, hnd]
      rfl
    · rw [Heap.next, Heap.next, Function.update_of_ne hb]

/-- The data of one node is set. -/
theorem Heap.setData_spec {h : Heap α} {a : Nat} {d : α} {lev : Nat}
    (hi : h.info a = some (d, lev)) (d' : α) :
    ∃ h', h.setData a d' = some h' ∧ h'.next = h.next ∧
      ∀ b, h'.info b = if b = a then some (d', lev) else h.info b := by
  obtain ⟨nd, hnd, rfl, rfl⟩ := Heap.info_some hi
  refine ⟨Function.update h a (some { nd with data := d' }), ?_, ?_, ?_⟩
  · rw [Heap.setData, hnd]
    rfl
  · funext b j
    by_cases hb : b = a
    · subst hb
      rw [Heap.next, Heap.next, Function.update_self, hnd]
      rfl
    · rw [Heap.next, Heap.next, Function.update_of_ne hb]
  · intro b
    by_cases hb : b = a
    · subst hb
      rw [if_pos rfl, Heap.info, Function.update_self]
      rfl
    · rw [if_neg hb, Heap.info, Heap.info, Function.update_of_ne hb]

/-! ## Section 2: Chains -/

/-- A node of the list that the heap holds. -/
structure Elt (α : Type*) where
  addr : Nat
  level : Nat
  data : α

/-- The nodes of a list that are at least `i` high. -/
def chain (i : Nat) (l : List (Elt α)) : List (Elt α) := l.filter fun e => i ≤ e.level

/-- The first node of a list that `z` follows. -/
def first : List (Elt α) → Nat → Nat
  | [], z => z
  | e :: _, _ => e.addr

/-- The last node of a list that comes after `a`. -/
def final : Nat → List (Elt α) → Nat
  | a, [] => a
  | _, e :: l => final e.addr l

/-- The pointers of level `i` lead from `a` over the nodes of `l` to `z`. -/
def Path (h : Heap α) (i : Nat) : Nat → List (Elt α) → Nat → Prop
  | a, [], z => h.next a i = some z
  | a, e :: l, z => h.next a i = some e.addr ∧ Path h i e.addr l z

/-- The first node of two lists in a row. -/
theorem first_append (l l' : List (Elt α)) (z : Nat) :
    first (l ++ l') z = first l (first l' z) := by
  cases l with
  | nil => rfl
  | cons e l => rfl

/-- And the last one. -/
theorem final_append (a : Nat) (l l' : List (Elt α)) :
    final a (l ++ l') = final (final a l) l' := by
  induction l generalizing a with
  | nil => rfl
  | cons e l ih => exact ih e.addr

theorem final_concat (a : Nat) (l : List (Elt α)) (e : Elt α) : final a (l ++ [e]) = e.addr := by
  rw [final_append]
  rfl

/-- It is the header or a node. -/
theorem final_mem (a : Nat) (l : List (Elt α)) : final a l ∈ a :: l.map Elt.addr := by
  induction l generalizing a with
  | nil => exact List.mem_singleton.mpr rfl
  | cons e l ih => exact List.mem_cons_of_mem _ (ih e.addr)

/-- The first one, too. -/
theorem first_mem (l : List (Elt α)) (z : Nat) : first l z ∈ z :: l.map Elt.addr := by
  cases l with
  | nil => exact List.mem_singleton.mpr rfl
  | cons e l => exact List.mem_cons_of_mem _ (List.mem_cons_self ..)

theorem exists_final {l : List (Elt α)} (h : l ≠ []) (a : Nat) : ∃ e ∈ l, final a l = e.addr := by
  obtain ⟨l₀, e, rfl⟩ := (List.eq_nil_or_concat' l).resolve_left h
  exact ⟨e, List.mem_append_right _ (List.mem_singleton_self _), final_concat ..⟩

/-- The nodes of a level, of two lists in a row. -/
theorem chain_append (i : Nat) (l l' : List (Elt α)) :
    chain i (l ++ l') = chain i l ++ chain i l' := List.filter_append ..

/-- What holds of all nodes holds with another one among them. -/
theorem forall_middle {p : Elt α → Prop} {L R : List (Elt α)} {n : Elt α} :
    (∀ e ∈ L ++ n :: R, p e) ↔ (∀ e ∈ L, p e) ∧ p n ∧ ∀ e ∈ R, p e := by
  rw [List.forall_mem_append, List.forall_mem_cons]

theorem mem_chain {i : Nat} {l : List (Elt α)} {e : Elt α} : e ∈ chain i l ↔ e ∈ l ∧
    i ≤ e.level := by
  rw [chain, List.mem_filter, decide_eq_true_eq]

theorem chain_subset {i : Nat} {l : List (Elt α)} {a : Nat} (h : a ∈ (chain i l).map Elt.addr) :
    a ∈ l.map Elt.addr :=
  (List.filter_sublist.map Elt.addr).subset h

theorem chain_nodup {i : Nat} {l : List (Elt α)} (h : (l.map Elt.addr).Nodup) :
    ((chain i l).map Elt.addr).Nodup := h.sublist (List.filter_sublist.map Elt.addr)

/-- All nodes are that high. -/
theorem chain_eq_self {i : Nat} {l : List (Elt α)} (h : ∀ e ∈ l, i ≤ e.level) : chain i l = l :=
  List.filter_eq_self.mpr fun e he => decide_eq_true (h e he)

/-- Or none. -/
theorem chain_eq_nil {i : Nat} {l : List (Elt α)} : chain i l = [] ↔ ∀ e ∈ l, e.level < i := by
  rw [chain, List.filter_eq_nil_iff]
  refine forall₂_congr fun e _ => ?_
  rw [decide_eq_true_eq, Nat.not_le]

/-- A higher chain ends inside the lower one. -/
theorem chain_prefix {i j : Nat} (hij : i ≤ j) (a : Nat) (l : List (Elt α)) :
    ∃ A B, chain i l = A ++ B ∧ final a A = final a (chain j l) := by
  induction l using List.reverseRecOn with
  | nil => exact ⟨[], [], rfl, rfl⟩
  | append_singleton l e ih =>
      rw [chain_append, chain_append]
      by_cases hj : j ≤ e.level
      · have hi : chain i [e] = [e] := chain_eq_self (by simpa using Nat.le_trans hij hj)
        have hj' : chain j [e] = [e] := chain_eq_self (by simpa using hj)
        rw [hi, hj']
        refine ⟨chain i l ++ [e], [], (List.append_nil _).symm, ?_⟩
        rw [final_concat, final_concat]
      · obtain ⟨A, B, hAB, hfin⟩ := ih
        have hj' : chain j [e] = [] := chain_eq_nil.mpr (by simpa using hj)
        refine ⟨A, B ++ chain i [e], ?_, ?_⟩
        · rw [hAB, List.append_assoc]
        · rw [hfin, hj', List.append_nil]

/-! ## Section 3: Paths -/

theorem Path.first {h : Heap α} {i a z : Nat} {l : List (Elt α)} (hp : Path h i a l z) :
    h.next a i = some (first l z) := by
  cases l with
  | nil => exact hp
  | cons e l => exact hp.1

/-- A path falls into two. -/
theorem Path.append_iff {h : Heap α} {i a z : Nat} {l l' : List (Elt α)} :
    Path h i a (l ++ l') z ↔
      Path h i a l (SkipList.first l' z) ∧ Path h i (final a l) l' z := by
  induction l generalizing a with
  | nil => exact ⟨fun hp => ⟨hp.first, hp⟩, fun hp => hp.2⟩
  | cons e l ih =>
      show h.next a i = some e.addr ∧ Path h i e.addr (l ++ l') z ↔ _
      rw [ih]
      exact and_assoc.symm

/-- The same nodes with another start and another end. -/
theorem Path.rewire {h h' : Heap α} {i x y z z' : Nat} {l : List (Elt α)} (hp : Path h i x l z)
    (hstart : h'.next y i = some (SkipList.first l z'))
    (hend : l ≠ [] → h'.next (final y l) i = some z')
    (hsame : ∀ b ∈ l.map Elt.addr, b ≠ final y l → h'.next b i = h.next b i)
    (hnodup : (l.map Elt.addr).Nodup) : Path h' i y l z' := by
  induction l generalizing x y with
  | nil => exact hstart
  | cons e l ih =>
      rw [List.map_cons, List.nodup_cons] at hnodup
      refine ⟨hstart, ih hp.2 ?_ ?_ ?_ hnodup.2⟩
      · cases l with
        | nil => exact hend (List.cons_ne_nil _ _)
        | cons e' l =>
            have hne : e.addr ≠ final e.addr (e' :: l) := by
              intro heq
              obtain ⟨d, hd, hfin⟩ := exists_final (List.cons_ne_nil e' l) e.addr
              exact hnodup.1 (heq.trans hfin ▸ List.mem_map_of_mem hd)
            rw [hsame e.addr (List.mem_cons_self ..) hne]
            exact hp.2.1
      · exact fun _ => hend (List.cons_ne_nil _ _)
      · exact fun b hb hne => hsame b (List.mem_cons_of_mem _ hb) hne

theorem Path.last {h : Heap α} {i a z : Nat} {l : List (Elt α)} (hp : Path h i a l z) :
    h.next (final a l) i = some z := by
  induction l generalizing a with
  | nil => exact hp
  | cons e l ih => exact ih hp.2

/-- The same nodes and the same end behind another node. -/
theorem Path.restart {h h' : Heap α} {i x y z : Nat} {l : List (Elt α)} (hp : Path h i x l z)
    (hstart : h'.next y i = some (SkipList.first l z))
    (hsame : ∀ b ∈ l.map Elt.addr, h'.next b i = h.next b i)
    (hnodup : (l.map Elt.addr).Nodup) : Path h' i y l z := by
  refine hp.rewire hstart (fun hne => ?_) (fun b hb _ => hsame b hb) hnodup
  have hlast := hp.last
  cases l with
  | nil => exact absurd rfl hne
  | cons e l =>
      have hmem : final e.addr l ∈ (e :: l).map Elt.addr := final_mem e.addr l
      exact (hsame _ hmem).trans hlast

/-- A path depends on the pointers of its own nodes. -/
theorem Path.frame {h h' : Heap α} {i a z : Nat} {l : List (Elt α)} (hp : Path h i a l z)
    (hsame : ∀ b ∈ a :: l.map Elt.addr, h'.next b i = h.next b i) : Path h' i a l z := by
  induction l generalizing a with
  | nil => exact (hsame a (List.mem_cons_self ..)).trans hp
  | cons e l ih =>
      refine ⟨(hsame a (List.mem_cons_self ..)).trans hp.1, ih hp.2 fun b hb => ?_⟩
      exact hsame b (List.mem_cons_of_mem _ hb)

/-! ## Section 4: A list in the heap -/

/-- A header of `maxL` levels and the nodes of `l` behind it: on every level the
    nodes that are high enough are linked in order, closed at the header. -/
structure Rep (h : Heap α) (maxL hd : Nat) (top : α) (level : Nat) (l : List (Elt α)) : Prop where
  header : h.info hd = some (top, maxL)
  node : ∀ e ∈ l, h.info e.addr = some (e.data, e.level)
  distinct : (hd :: l.map Elt.addr).Nodup
  levels : ∀ e ∈ l, 0 < e.level ∧ e.level ≤ level
  positive : 0 < level
  bounded : level < maxL
  path : ∀ i, 0 < i → i < maxL → Path h i hd (chain i l) hd

namespace Rep

variable {h h' : Heap α} {maxL hd level : Nat} {top : α} {l : List (Elt α)}

theorem nodup (hr : Rep h maxL hd top level l) : (l.map Elt.addr).Nodup :=
  (List.nodup_cons.mp hr.distinct).2

theorem ne_header (hr : Rep h maxL hd top level l) {e : Elt α} (he : e ∈ l) : e.addr ≠ hd :=
  fun heq => (List.nodup_cons.mp hr.distinct).1 (heq ▸ List.mem_map_of_mem he)

/-- Every pointer of a chain leads to a node of the list or to the header. -/
theorem info_mem (hr : Rep h maxL hd top level l) {a : Nat} (ha : a ∈ hd :: l.map Elt.addr) :
    ∃ d lev, h.info a = some (d, lev) := by
  rcases List.mem_cons.mp ha with rfl | ha
  · exact ⟨_, _, hr.header⟩
  · obtain ⟨e, he, rfl⟩ := List.mem_map.mp ha
    exact ⟨_, _, hr.node e he⟩

/-- All nodes are on the lowest level. -/
theorem chain_one (hr : Rep h maxL hd top level l) : chain 1 l = l :=
  chain_eq_self fun e he => (hr.levels e he).1

/-- No node is above the level of the list. -/
theorem chain_high (hr : Rep h maxL hd top level l) {i : Nat} (hi : level < i) : chain i l = [] :=
  chain_eq_nil.mpr fun e he => Nat.lt_of_le_of_lt (hr.levels e he).2 hi

/-- What happens to other nodes does not concern a list. -/
theorem frame (hr : Rep h maxL hd top level l)
    (hinfo : ∀ b ∈ hd :: l.map Elt.addr, h'.info b = h.info b)
    (hnext : ∀ b ∈ hd :: l.map Elt.addr, ∀ i, h'.next b i = h.next b i) :
    Rep h' maxL hd top level l where
  header := (hinfo hd (List.mem_cons_self ..)).trans hr.header
  node e he := (hinfo _ (List.mem_cons_of_mem _ (List.mem_map_of_mem he))).trans (hr.node e he)
  distinct := hr.distinct
  levels := hr.levels
  positive := hr.positive
  bounded := hr.bounded
  path i hi hm := by
    refine (hr.path i hi hm).frame fun b hb => ?_
    rcases List.mem_cons.mp hb with rfl | hb
    · exact hnext _ (List.mem_cons_self ..) i
    · exact hnext b (List.mem_cons_of_mem _ (chain_subset hb)) i

end Rep

/-! ## Section 5: Searches -/

/-- `while (before(x->list[i])) x = x->list[i]`. -/
def walk (h : Heap α) (before : α → Bool) (i : Nat) : Nat → Nat → Option Nat
  | 0, _ => none
  | n + 1, x =>
      (h.next x i).bind fun y => (h y).bind fun nd =>
        if before nd.data then walk h before i n y else some x

/-- The walks of the levels `i`, …, 1; `update` keeps where each of them ends. -/
def descend (h : Heap α) (before : α → Bool) (fuel : Nat) :
    Nat → Nat → (Nat → Nat) → Option (Nat × (Nat → Nat))
  | 0, x, update => some (x, update)
  | i + 1, x, update =>
      (walk h before (i + 1) fuel x).bind fun x =>
        descend h before fuel i x (Function.update update (i + 1) x)

/-- A walk ends before the first node that it does not pass. -/
theorem walk_spec {h : Heap α} {before : α → Bool} {i a z n : Nat} {l l' : List (Elt α)}
    (hp : Path h i a (l ++ l') z) (hnode : ∀ e ∈ l, ∃ lev, h.info e.addr = some (e.data, lev))
    (hl : ∀ e ∈ l, before e.data = true)
    (hstop : ∃ d lev, h.info (first l' z) = some (d, lev) ∧ before d = false)
    (hn : l.length < n) : walk h before i n a = some (final a l) := by
  induction l generalizing a n with
  | nil =>
      obtain ⟨n, rfl⟩ := Nat.exists_eq_succ_of_ne_zero (Nat.ne_of_gt hn)
      obtain ⟨d, lev, hinfo, hd⟩ := hstop
      obtain ⟨nd, hnd, rfl, -⟩ := Heap.info_some hinfo
      have hfirst : h.next a i = some (first l' z) := Path.first hp
      rw [walk, hfirst, Option.bind_some, hnd, Option.bind_some, hd]
      rfl
  | cons e l ih =>
      obtain ⟨n, rfl⟩ := Nat.exists_eq_succ_of_ne_zero (Nat.ne_of_gt (Nat.zero_lt_of_lt hn))
      obtain ⟨lev, hinfo⟩ := hnode e (List.mem_cons_self ..)
      obtain ⟨nd, hnd, hdata, -⟩ := Heap.info_some hinfo
      have hnext : h.next a i = some e.addr := hp.1
      rw [walk, hnext, Option.bind_some, hnd, Option.bind_some, hdata,
        hl e (List.mem_cons_self ..), if_pos rfl]
      exact ih hp.2 (fun e' he => hnode e' (List.mem_cons_of_mem _ he))
        (fun e' he => hl e' (List.mem_cons_of_mem _ he)) (Nat.lt_of_succ_lt_succ hn)

/-- One level of a search that is already at a node of the left part. -/
theorem walk_chain {h : Heap α} {hd : Nat} {top : α} {L R A B : List (Elt α)} {before : α → Bool}
    {i n : Nat} (hpath : Path h i hd (chain i L ++ chain i R) hd)
    (hhd : ∃ lev, h.info hd = some (top, lev))
    (hnode : ∀ e ∈ L ++ R, h.info e.addr = some (e.data, e.level))
    (hL : ∀ e ∈ L, before e.data = true) (hR : ∀ e ∈ R, before e.data = false)
    (htop : before top = false) (hn : L.length < n) (hAB : chain i L = A ++ B) :
    walk h before i n (final hd A) = some (final hd (chain i L)) := by
  rw [hAB, List.append_assoc, Path.append_iff] at hpath
  have hsub : ∀ e ∈ B, e ∈ L := by
    intro e he
    have hmem : e ∈ chain i L := hAB ▸ List.mem_append_right A he
    exact (mem_chain.mp hmem).1
  have hlen : B.length < n := by
    have hle : (chain i L).length ≤ L.length := List.length_filter_le ..
    rw [hAB, List.length_append] at hle
    omega
  rw [hAB, final_append]
  refine walk_spec hpath.2 ?_ ?_ ?_ hlen
  · exact fun e he => ⟨_, hnode e (List.mem_append_left _ (hsub e he))⟩
  · exact fun e he => hL e (hsub e he)
  · -- the chain goes on with a node of the right part, or closes
    obtain ⟨lev, hhd⟩ := hhd
    cases hc : chain i R with
    | nil => exact ⟨_, _, hhd, htop⟩
    | cons e C =>
        have he : e ∈ R := (mem_chain.mp (hc ▸ List.mem_cons_self ..)).1
        exact ⟨_, _, hnode e (List.mem_append_right _ he), hR e he⟩

/-- A search ends at the last node before the key, on every level. -/
theorem Rep.descend {h : Heap α} {maxL hd level : Nat} {top : α} {L R : List (Elt α)}
    {before : α → Bool} {n : Nat} (hr : Rep h maxL hd top level (L ++ R))
    (hL : ∀ e ∈ L, before e.data = true) (hR : ∀ e ∈ R, before e.data = false)
    (htop : before top = false) (hn : L.length < n) (u : Nat → Nat) :
    ∃ u', descend h before n level hd u = some (final hd L, u') ∧
      ∀ j, 0 < j → j ≤ level → u' j = final hd (chain j L) := by
  have hgen : ∀ i, i ≤ level → ∀ x u, (i = 0 → x = final hd L) →
      (0 < i → ∃ A B, chain i L = A ++ B ∧ x = final hd A) →
      (∀ j, i < j → j ≤ level → u j = final hd (chain j L)) →
      ∃ u', SkipList.descend h before n i x u = some (final hd L, u') ∧
        ∀ j, 0 < j → j ≤ level → u' j = final hd (chain j L) := by
    intro i
    induction i with
    | zero =>
        intro _ x u hx _ hu
        exact ⟨u, by rw [SkipList.descend, hx rfl], hu⟩
    | succ i ih =>
        intro hi x u _ hx hu
        obtain ⟨A, B, hAB, rfl⟩ := hx (Nat.succ_pos i)
        have hbound := hr.bounded
        have hpath := hr.path (i + 1) (Nat.succ_pos i) (by omega)
        rw [chain_append] at hpath
        have hw := walk_chain hpath ⟨_, hr.header⟩ hr.node hL hR htop hn hAB
        rw [SkipList.descend, hw, Option.bind_some]
        apply ih (by omega)
        · rintro rfl
          rw [chain_eq_self fun e he => (hr.levels e (List.mem_append_left _ he)).1]
        · intro _
          obtain ⟨A', B', hAB', hfin⟩ := chain_prefix (Nat.le_succ i) hd L
          exact ⟨A', B', hAB', hfin.symm⟩
        -- The level that was just searched, or one above it.
        · intro j hj hjl
          by_cases hji : j = i + 1
          · rw [hji, Function.update_self]
          · rw [Function.update_of_ne hji]
            exact hu j (by omega) hjl
  have hpos := hr.positive
  exact hgen level (Nat.le_refl _) hd u (by omega) (fun _ => ⟨[], chain level L, rfl, rfl⟩)
    (fun j hj hjl => by omega)

/-! ## Section 6: A new node -/

/-- `x->list[i] = update[i]->list[i]; update[i]->list[i] = x` for `n` levels from `i` on. -/
def link (h : Heap α) (update : Nat → Nat) (x i : Nat) : Nat → Option (Heap α)
  | 0 => some h
  | n + 1 =>
      (h.next (update i) i).bind fun y => (h.setNext x i y).bind fun h =>
        (h.setNext (update i) i x).bind fun h => link h update x (i + 1) n

/-- Allocates `x` and puts it behind the nodes of `update`. -/
def insertNode (h : Heap α) (update : Nat → Nat) (x level : Nat) (d : α) : Option (Heap α) :=
  (link (Function.update h x (some ⟨d, level, fun _ => none, 0⟩)) update x 1 level).bind fun h =>
    (h.next x 1).bind fun y => (h y).bind fun nd =>
      (h.setBack x nd.back).bind fun h => h.setBack y x

/-- The loop over the levels, pointer by pointer. -/
theorem link_spec {h : Heap α} {u : Nat → Nat} {x i n : Nat} {d : α} {lev : Nat}
    (hx : h.info x = some (d, lev)) (hlev : i + n ≤ lev + 1)
    (hu : ∀ j, i ≤ j → j < i + n → u j ≠ x ∧ (∃ d lev, h.info (u j) = some (d, lev) ∧ j ≤ lev) ∧
      ∃ y, h.next (u j) j = some y) :
    ∃ h', link h u x i n = some h' ∧ h'.info = h.info ∧
      ∀ b j, h'.next b j = if i ≤ j ∧ j < i + n then
        (if b = x then h.next (u j) j else if b = u j then some x else h.next b j)
      else h.next b j := by
  induction n generalizing h i with
  | zero =>
      refine ⟨h, rfl, rfl, fun b j => ?_⟩
      rw [if_neg (by omega)]
  | succ n ih =>
      obtain ⟨hne, ⟨d', lev', hinfo, hle⟩, y, hy⟩ := hu i (Nat.le_refl i) (by omega)
      obtain ⟨h₁, hset₁, hinfo₁, hnext₁⟩ := Heap.setNext_spec (v := y) hx (show i ≤ lev by omega)
      obtain ⟨h₂, hset₂, hinfo₂, hnext₂⟩ :=
        Heap.setNext_spec (v := x) ((congrFun hinfo₁ _).trans hinfo) hle
      have hsame : h₂.info = h.info := hinfo₂.trans hinfo₁
      -- only pointers of level `i` are changed so far
      have hother : ∀ b j, j ≠ i → h₂.next b j = h.next b j := by
        intro b j hj
        rw [hnext₂, if_neg fun hc => hj hc.2, hnext₁, if_neg fun hc => hj hc.2]
      obtain ⟨h', hlink, hinfo', hnext'⟩ := ih (h := h₂) (i := i + 1)
        ((congrFun hsame _).trans hx) (by omega) (by
          intro j hij hjn
          obtain ⟨hnej, ⟨dj, levj, hinfoj, hlej⟩, yj, hyj⟩ := hu j (by omega) (by omega)
          refine ⟨hnej, ⟨dj, levj, (congrFun hsame _).trans hinfoj, hlej⟩, yj, ?_⟩
          rw [hother _ _ (by omega), hyj])
      refine ⟨h', ?_, hinfo'.trans hsame, ?_⟩
      · rw [link, hy, Option.bind_some, hset₁, Option.bind_some, hset₂, Option.bind_some, hlink]
      · intro b j
        rw [hnext']
        by_cases hj : j = i
        · subst hj
          rw [if_neg (by omega), if_pos (by omega), hnext₂, hnext₁]
          by_cases hbx : b = x
          · rw [if_neg fun hc => hne (hc.1.symm.trans hbx), if_pos ⟨hbx, rfl⟩, if_pos hbx, hy]
          · rw [if_neg hbx]
            by_cases hbu : b = u j
            · rw [if_pos ⟨hbu, rfl⟩, if_pos hbu]
            · rw [if_neg fun hc => hbu hc.1, if_neg fun hc => hbx hc.1, if_neg hbu]
        · rw [hother b j hj, hother _ j hj]
          exact if_congr (by omega) rfl rfl

namespace Rep

variable {h : Heap α} {maxL hd level : Nat} {top : α} {L R : List (Elt α)}

/-- The last node of a chain has an element for its level. -/
theorem final_info (hr : Rep h maxL hd top level (L ++ R)) {i : Nat} (hi : i < maxL) :
    ∃ d lev, h.info (final hd (chain i L)) = some (d, lev) ∧ i ≤ lev := by
  by_cases hnil : chain i L = []
  · rw [hnil]
    exact ⟨_, _, hr.header, Nat.le_of_lt hi⟩
  · obtain ⟨e, he, hfin⟩ := exists_final hnil hd
    rw [hfin]
    obtain ⟨heL, hle⟩ := mem_chain.mp he
    exact ⟨_, _, hr.node e (List.mem_append_left _ heL), hle⟩

/-- A new node in the chain of one level. -/
theorem path_insert {h' : Heap α} {i x k : Nat} {d : α} (hr : Rep h maxL hd top level (L ++ R))
    (hi : 0 < i) (him : i < maxL) (hik : i ≤ k) (hx : x ∉ hd :: (L ++ R).map Elt.addr)
    (hnext : ∀ b, h'.next b i = if b = x then h.next (final hd (chain i L)) i
      else if b = final hd (chain i L) then some x else h.next b i) :
    Path h' i hd (chain i (L ++ ⟨x, k, d⟩ :: R)) hd := by
  have hpath := hr.path i hi him
  rw [chain_append, Path.append_iff] at hpath
  have hnodup := chain_nodup (i := i) hr.nodup
  rw [chain_append, List.map_append, List.nodup_append] at hnodup
  obtain ⟨hnodL, hnodR, hdisj⟩ := hnodup
  rw [List.mem_cons, not_or] at hx
  have hxL : ∀ b ∈ (chain i L).map Elt.addr, b ≠ x := by
    rintro b hb rfl
    exact hx.2 (chain_subset (i := i) (by
      rw [chain_append, List.map_append]
      exact List.mem_append_left _ hb))
  have hxR : ∀ b ∈ (chain i R).map Elt.addr, b ≠ x := by
    rintro b hb rfl
    exact hx.2 (chain_subset (i := i) (by
      rw [chain_append, List.map_append]
      exact List.mem_append_right _ hb))
  -- where the left part ends, the new node comes
  have hfinx : final hd (chain i L) ≠ x := by
    rcases List.mem_cons.mp (final_mem hd (chain i L)) with heq | hmem
    · rw [heq]
      exact fun heq => hx.1 heq.symm
    · exact hxL _ hmem
  have hlink : h'.next (final hd (chain i L)) i = some x := by
    rw [hnext, if_neg hfinx, if_pos rfl]
  have hnew : chain i (L ++ ⟨x, k, d⟩ :: R) = chain i L ++ ⟨x, k, d⟩ :: chain i R := by
    rw [chain_append]
    exact congrArg _ (List.filter_cons_of_pos (decide_eq_true hik))
  rw [hnew, Path.append_iff]
  refine ⟨hpath.1.rewire ?_ (fun _ => hlink) ?_ hnodL, hlink, hpath.2.restart ?_ ?_ hnodR⟩
  · cases hc : chain i L with
    | nil =>
        rw [hc] at hlink
        exact hlink
    | cons e C =>
        obtain ⟨e', he', hfin⟩ := exists_final (hc ▸ List.cons_ne_nil e C) hd
        have hne : hd ≠ final hd (chain i L) := by
          rw [hfin]
          exact (hr.ne_header (List.mem_append_left _ (mem_chain.mp he').1)).symm
        have hstart := hpath.1.first
        rw [hc] at hstart
        rw [hnext, if_neg fun heq => hx.1 heq.symm, if_neg hne, hstart]
        rfl
  · intro b hb hne
    rw [hnext, if_neg (hxL b hb), if_neg hne]
  · rw [hnext, if_pos rfl]
    exact hpath.2.first
  · intro b hb
    have hne : b ≠ final hd (chain i L) := by
      rcases List.mem_cons.mp (final_mem hd (chain i L)) with heq | hmem
      · rw [heq]
        rintro rfl
        obtain ⟨e, he, haddr⟩ := List.mem_map.mp hb
        exact hr.ne_header (List.mem_append_right _ (mem_chain.mp he).1) haddr
      · exact fun heq => hdisj _ hmem _ hb heq.symm
    rw [hnext, if_neg (hxR b hb), if_neg hne]

/-- Memory that is not in use is none of the list's. -/
theorem not_mem (hr : Rep h maxL hd top level (L ++ R)) {x : Nat} (hx : h x = none) :
    x ∉ hd :: (L ++ R).map Elt.addr := by
  intro hmem
  obtain ⟨d, lev, hinfo⟩ := hr.info_mem hmem
  rw [Heap.info, hx] at hinfo
  exact (nomatch hinfo)

theorem final_mem_append (hd j : Nat) (L R : List (Elt α)) :
    final hd (chain j L) ∈ hd :: (L ++ R).map Elt.addr := by
  rw [List.map_append]
  rcases List.mem_cons.mp (final_mem hd (chain j L)) with heq | hin
  · rw [heq]
    exact List.mem_cons_self ..
  · exact List.mem_cons_of_mem _ (List.mem_append_left _ (chain_subset hin))

theorem first_mem_append (hd : Nat) (L R : List (Elt α)) :
    first R hd ∈ hd :: (L ++ R).map Elt.addr := by
  rw [List.map_append]
  rcases List.mem_cons.mp (first_mem R hd) with heq | hin
  · rw [heq]
    exact List.mem_cons_self ..
  · exact List.mem_cons_of_mem _ (List.mem_append_right _ hin)

/-- The loop over the levels puts a node into every chain up to its own level. -/
theorem link (hr : Rep h maxL hd top level (L ++ R)) {u : Nat → Nat} {x k : Nat} {d : α}
    (hx : h.info x = some (d, k)) (hxout : x ∉ hd :: (L ++ R).map Elt.addr) (hk : 0 < k)
    (hkm : k < maxL) (hu : ∀ j, 0 < j → j ≤ k → u j = final hd (chain j L)) :
    ∃ h', link h u x 1 k = some h' ∧ h'.info = h.info ∧
      Rep h' maxL hd top (max level k) (L ++ ⟨x, k, d⟩ :: R) ∧
      ∀ b, b ∉ x :: hd :: (L ++ R).map Elt.addr → ∀ i, h'.next b i = h.next b i := by
  have hne : ∀ j, final hd (chain j L) ≠ x := by
    intro j heq
    exact hxout (heq ▸ final_mem_append hd j L R)
  obtain ⟨h', hlink, hinfo, hnext⟩ := link_spec (u := u) (i := 1) (n := k) hx (by omega) (by
    intro j hj hjk
    rw [hu j hj (by omega)]
    have hpath := hr.path j hj (by omega)
    rw [chain_append, Path.append_iff] at hpath
    exact ⟨hne j, hr.final_info (by omega), _, hpath.1.last⟩)
  have hlow : ∀ i, 0 < i → i ≤ k → ∀ b, h'.next b i =
      if b = x then h.next (final hd (chain i L)) i
      else if b = final hd (chain i L) then some x else h.next b i := by
    intro i hi hik b
    rw [hnext, if_pos ⟨hi, by omega⟩, hu i hi hik]
  have hhigh : ∀ i, k < i → ∀ b, h'.next b i = h.next b i := by
    intro i hik b
    rw [hnext, if_neg (by omega)]
  have hperm : (hd :: (L ++ ⟨x, k, d⟩ :: R).map Elt.addr).Perm
      (x :: hd :: (L ++ R).map Elt.addr) := by
    rw [List.map_append, List.map_cons, List.map_append]
    exact (List.perm_middle.cons hd).trans (List.Perm.swap ..)
  have hcases : ∀ e ∈ L ++ ⟨x, k, d⟩ :: R, e = ⟨x, k, d⟩ ∨ e ∈ L ++ R := by
    intro e he
    rcases List.mem_append.mp he with he | he
    · exact .inr (List.mem_append_left _ he)
    · rcases List.mem_cons.mp he with he | he
      · exact .inl he
      · exact .inr (List.mem_append_right _ he)
  refine ⟨h', hlink, hinfo, ⟨?_, ?_, ?_, ?_, ?_, ?_, ?_⟩, ?_⟩
  · rw [hinfo]
    exact hr.header
  · intro e he
    rw [hinfo]
    rcases hcases e he with rfl | he
    · exact hx
    · exact hr.node e he
  · exact hperm.nodup_iff.mpr (List.nodup_cons.mpr ⟨hxout, hr.distinct⟩)
  · intro e he
    rcases hcases e he with rfl | he
    · exact ⟨hk, Nat.le_max_right ..⟩
    · have hlev := hr.levels e he
      exact ⟨hlev.1, Nat.le_trans hlev.2 (Nat.le_max_left ..)⟩
  · exact Nat.lt_of_lt_of_le hk (Nat.le_max_right ..)
  · exact Nat.max_lt.mpr ⟨hr.bounded, hkm⟩
  · intro i hi him
    by_cases hik : i ≤ k
    · exact hr.path_insert hi him hik hxout (hlow i hi hik)
    · have hchain : chain i (L ++ ⟨x, k, d⟩ :: R) = chain i (L ++ R) := by
        rw [chain_append, chain_append]
        exact congrArg _ (List.filter_cons_of_neg (by simpa using hik))
      rw [hchain]
      exact (hr.path i hi him).frame fun b _ => hhigh i (Nat.lt_of_not_le hik) b
  · intro b hb i
    rw [List.mem_cons, not_or] at hb
    rw [hnext]
    split_ifs with hi hbx hbu
    · exact absurd hbx hb.1
    · refine absurd ?_ hb.2
      rw [hbu, hu i hi.1 (by omega)]
      exact final_mem_append hd i L R
    · rfl
    · rfl

/-- Linking a new node where a search ended puts it there, on each of its levels. -/
theorem insertNode (hr : Rep h maxL hd top level (L ++ R)) {u : Nat → Nat} {x k : Nat} (d : α)
    (hx : h x = none) (hk : 0 < k) (hkm : k < maxL)
    (hu : ∀ j, 0 < j → j ≤ k → u j = final hd (chain j L)) :
    ∃ h', insertNode h u x k d = some h' ∧
      Rep h' maxL hd top (max level k) (L ++ ⟨x, k, d⟩ :: R) ∧
      ∀ b, b ∉ x :: hd :: (L ++ R).map Elt.addr →
        h'.info b = h.info b ∧ ∀ i, h'.next b i = h.next b i := by
  obtain ⟨h₀, hh₀⟩ : ∃ h₀ : Heap α, h₀ = Function.update h x (some ⟨d, k, fun _ => none, 0⟩) :=
    ⟨_, rfl⟩
  have hxout := hr.not_mem hx
  have hinfo₀ : ∀ b, b ≠ x → h₀.info b = h.info b := by
    intro b hb
    rw [hh₀, Heap.info, Heap.info, Function.update_of_ne hb]
  have hnext₀ : ∀ b, b ≠ x → ∀ i, h₀.next b i = h.next b i := by
    intro b hb i
    rw [hh₀, Heap.next, Heap.next, Function.update_of_ne hb]
  have hself : h₀.info x = some (d, k) := by
    rw [hh₀, Heap.info, Function.update_self]
    rfl
  have hr₀ : Rep h₀ maxL hd top level (L ++ R) :=
    hr.frame (fun b hb => hinfo₀ b fun heq => hxout (heq ▸ hb))
      (fun b hb => hnext₀ b fun heq => hxout (heq ▸ hb))
  obtain ⟨h₁, hlink, hinfo₁, hrep, hframe⟩ := hr₀.link hself hxout hk hkm hu
  -- the back pointers
  have hy : h₁.next x 1 = some (first R hd) := by
    have hpath := hrep.path 1 Nat.one_pos (by omega)
    rw [hrep.chain_one, Path.append_iff] at hpath
    exact hpath.2.2.first
  obtain ⟨d', lev', hz⟩ := hr₀.info_mem (first_mem_append hd L R)
  obtain ⟨nd, hnd, -⟩ := Heap.info_some ((congrFun hinfo₁ _).trans hz)
  obtain ⟨h₂, hback₂, hinfo₂, hnext₂⟩ :=
    Heap.setBack_spec (v := nd.back) ((congrFun hinfo₁ x).trans hself)
  obtain ⟨h₃, hback₃, hinfo₃, hnext₃⟩ :=
    Heap.setBack_spec (v := x) ((congrFun (hinfo₂.trans hinfo₁) _).trans hz)
  refine ⟨h₃, ?_, ?_, ?_⟩
  · rw [SkipList.insertNode, ← hh₀, hlink, Option.bind_some, hy, Option.bind_some, hnd,
      Option.bind_some, hback₂, Option.bind_some, hback₃]
  · exact hrep.frame (fun b _ => by rw [hinfo₃, hinfo₂]) (fun b _ i => by rw [hnext₃, hnext₂])
  · intro b hb
    have hbx : b ≠ x := fun heq => hb (heq ▸ List.mem_cons_self ..)
    refine ⟨by rw [hinfo₃, hinfo₂, hinfo₁, hinfo₀ b hbx], fun i => ?_⟩
    rw [hnext₃, hnext₂, hframe b hb i, hnext₀ b hbx i]

end Rep

/-- The level of a new node: one more for each outcome of `rand` that is 1 modulo `prob`. -/
def drawLevel (prob maxL : Nat) (rand : Nat → Nat) : Nat → Nat → Nat
  | 0, level => level
  | n + 1, level =>
      if rand level % prob = 1 then
        if maxL ≤ level + 1 + 1 then level + 1 else drawLevel prob maxL rand n (level + 1)
      else level

theorem drawLevel_bounds {prob maxL : Nat} {rand : Nat → Nat} {n level : Nat} (hpos : 0 < level)
    (hlevel : level + 1 < maxL) :
    0 < drawLevel prob maxL rand n level ∧ drawLevel prob maxL rand n level < maxL := by
  induction n generalizing level with
  | zero => exact ⟨hpos, Nat.lt_of_succ_lt hlevel⟩
  | succ n ih =>
      unfold drawLevel
      split_ifs with hdraw htop
      · exact ⟨Nat.succ_pos level, hlevel⟩
      · exact ih (Nat.succ_pos level) (Nat.lt_of_not_le htop)
      · exact ⟨hpos, Nat.lt_of_succ_lt hlevel⟩

/-! ## Section 7: A new list, other data, the nodes in order -/

/-- A header whose chains are empty. -/
def newHeader (h : Heap α) (maxL hd : Nat) (top : α) : Heap α :=
  Function.update h hd (some ⟨top, maxL, fun i => if i < maxL then some hd else none, hd⟩)

theorem newHeader_of_ne {h : Heap α} {maxL hd b : Nat} {top : α} (hb : b ≠ hd) :
    newHeader h maxL hd top b = h b := Function.update_of_ne hb ..

namespace Rep

variable {h : Heap α} {maxL hd level : Nat} {top : α} {L R : List (Elt α)}

theorem newHeader (h : Heap α) (hd : Nat) (top : α) (hm : 1 < maxL) :
    Rep (newHeader h maxL hd top) maxL hd top 1 [] := by
  refine ⟨?_, ?_, List.nodup_singleton hd, ?_, Nat.one_pos, hm, fun i hi him => ?_⟩
  · rw [Heap.info, SkipList.newHeader, Function.update_self]
    rfl
  · exact fun e he => absurd he List.not_mem_nil
  · exact fun e he => absurd he List.not_mem_nil
  · show Heap.next _ hd i = some hd
    rw [Heap.next, SkipList.newHeader, Function.update_self]
    exact if_pos him

/-- A header elsewhere. -/
theorem newHeader_other {l : List (Elt α)} {hd' : Nat} (top' : α)
    (hr : Rep h maxL hd top level l) (hne : hd' ∉ hd :: l.map Elt.addr) :
    Rep (SkipList.newHeader h maxL hd' top') maxL hd top level l := by
  have hsame : ∀ b ∈ hd :: l.map Elt.addr, SkipList.newHeader h maxL hd' top' b = h b := by
    intro b hb
    exact newHeader_of_ne fun heq => hne (heq ▸ hb)
  refine hr.frame (fun b hb => ?_) (fun b hb i => ?_)
  · rw [Heap.info, Heap.info, hsame b hb]
  · rw [Heap.next, Heap.next, hsame b hb]

/-- The data of a node is replaced. -/
theorem setData (hr : Rep h maxL hd top level (L ++ R)) {e : Elt α} {S : List (Elt α)}
    (hR : R = e :: S) (d : α) :
    ∃ h', h.setData e.addr d = some h' ∧
      Rep h' maxL hd top level (L ++ { e with data := d } :: S) ∧
      ∀ b, b ≠ e.addr → h'.info b = h.info b := by
  subst hR
  have he : e ∈ L ++ e :: S := List.mem_append_right _ (List.mem_cons_self ..)
  obtain ⟨h', hset, hnext, hinfo⟩ := Heap.setData_spec (hr.node e he) d
  have haddr : (L ++ { e with data := d } :: S).map Elt.addr = (L ++ e :: S).map Elt.addr := by
    rw [List.map_append, List.map_append]
    rfl
  have hnodup := hr.nodup
  rw [List.map_append, List.map_cons, List.nodup_middle, List.nodup_cons, List.mem_append,
    not_or] at hnodup
  have hcases : ∀ x ∈ L ++ { e with data := d } :: S,
      x = { e with data := d } ∨ x ∈ L ++ e :: S ∧ x.addr ≠ e.addr := by
    intro x hx
    rcases List.mem_append.mp hx with hx | hx
    · exact .inr ⟨List.mem_append_left _ hx, fun heq => hnodup.1.1 (heq ▸ List.mem_map_of_mem hx)⟩
    · rcases List.mem_cons.mp hx with hx | hx
      · exact .inl hx
      · exact .inr ⟨List.mem_append_right _ (List.mem_cons_of_mem _ hx),
          fun heq => hnodup.1.2 (heq ▸ List.mem_map_of_mem hx)⟩
  refine ⟨h', hset, ⟨?_, ?_, ?_, ?_, hr.positive, hr.bounded, fun i hi him => ?_⟩,
    fun b hb => by rw [hinfo, if_neg hb]⟩
  · rw [hinfo, if_neg fun heq => hr.ne_header he heq.symm]
    exact hr.header
  · intro x hx
    rw [hinfo]
    rcases hcases x hx with rfl | ⟨hx, hne⟩
    · exact if_pos rfl
    · rw [if_neg hne]
      exact hr.node x hx
  · rw [haddr]
    exact hr.distinct
  · intro x hx
    rcases hcases x hx with rfl | ⟨hx, -⟩
    · exact hr.levels e he
    · exact hr.levels x hx
  · -- the chain has the same addresses
    have hpath := hr.path i hi him
    rw [chain_append, Path.append_iff] at hpath ⊢
    by_cases hie : i ≤ e.level
    · have hc : chain i (e :: S) = e :: chain i S := List.filter_cons_of_pos (decide_eq_true hie)
      have hc' : chain i ({ e with data := d } :: S) = { e with data := d } :: chain i S :=
        List.filter_cons_of_pos (decide_eq_true hie)
      rw [hc] at hpath
      rw [hc']
      refine ⟨hpath.1.frame fun b _ => by rw [hnext], ?_, ?_⟩
      · rw [hnext]
        exact hpath.2.1
      · exact hpath.2.2.frame fun b _ => by rw [hnext]
    · have hc : chain i (e :: S) = chain i S := List.filter_cons_of_neg (by simpa using hie)
      have hc' : chain i ({ e with data := d } :: S) = chain i S :=
        List.filter_cons_of_neg (by simpa using hie)
      rw [hc] at hpath
      rw [hc']
      exact ⟨hpath.1.frame fun b _ => by rw [hnext], hpath.2.frame fun b _ => by rw [hnext]⟩

/-- Memory outside the list that an operation did not touch stays free. -/
theorem free {m : Mem α} {h' : Heap α} {l : List (Elt α)} (hr : Rep m.heap maxL hd top level l)
    (hfree : m.Free) {brk : Nat} (hbrk : m.brk ≤ brk)
    (hsame : ∀ b, brk ≤ b → b ∉ hd :: l.map Elt.addr → h'.info b = m.heap.info b) :
    (⟨h', brk⟩ : Mem α).Free := by
  intro b hb
  have hnone : m.heap b = none := hfree b (Nat.le_trans hbrk hb)
  have hout : b ∉ hd :: l.map Elt.addr := by
    intro hmem
    obtain ⟨d, lev, hinfo⟩ := hr.info_mem hmem
    rw [Heap.info, hnone] at hinfo
    exact (nomatch hinfo)
  rw [← Heap.info_none, hsame b hb hout, Heap.info_none]
  exact hnone

/-- Other data at a node, with the free memory. -/
theorem overwrite {m : Mem α} {e : Elt α} {S : List (Elt α)}
    (hr : Rep m.heap maxL hd top level (L ++ e :: S)) (hfree : m.Free) (d : α) :
    ∃ h', m.heap.setData e.addr d = some h' ∧
      Rep h' maxL hd top level (L ++ { e with data := d } :: S) ∧ (⟨h', m.brk⟩ : Mem α).Free := by
  obtain ⟨h', hset, hrep, hinfo⟩ := hr.setData rfl d
  refine ⟨h', hset, hrep, hr.free hfree (Nat.le_refl _) fun b _ hb => hinfo b fun heq => hb ?_⟩
  rw [heq]
  exact List.mem_cons_of_mem _
    (List.mem_map_of_mem (List.mem_append_right _ (List.mem_cons_self ..)))

/-- A node of `malloc` behind the nodes where a search ended; on the levels that the list does
    not have yet it comes behind the header. -/
theorem insertNew {m : Mem α} (hr : Rep m.heap maxL hd top level (L ++ R)) (hfree : m.Free)
    {u : Nat → Nat} {k : Nat} (d : α) (hk : 0 < k) (hkm : k < maxL)
    (hu : ∀ j, 0 < j → j ≤ level → u j = final hd (chain j L)) :
    ∃ h', SkipList.insertNode m.heap (fun i => if level < i ∧ i ≤ k then hd else u i) m.brk k d =
        some h' ∧
      Rep h' maxL hd top (max level k) (L ++ ⟨m.brk, k, d⟩ :: R) ∧
      (⟨h', m.brk + 1⟩ : Mem α).Free := by
  have hu' : ∀ j, 0 < j → j ≤ k →
      (if level < j ∧ j ≤ k then hd else u j) = final hd (chain j L) := by
    intro j hj hjk
    by_cases hlow : level < j
    · have hnil := hr.chain_high hlow
      rw [chain_append, List.append_eq_nil_iff] at hnil
      rw [if_pos ⟨hlow, hjk⟩, hnil.1]
      rfl
    · rw [if_neg fun h => hlow h.1]
      exact hu j hj (Nat.le_of_not_lt hlow)
  obtain ⟨h', hins, hrep, hframe⟩ :=
    hr.insertNode d (hfree m.brk (Nat.le_refl _)) hk hkm hu'
  refine ⟨h', hins, hrep, hr.free hfree (Nat.le_succ _) fun b hb hout => (hframe b ?_).1⟩
  intro hmem
  rcases List.mem_cons.mp hmem with heq | hmem
  · omega
  · exact hout hmem

/-- The lowest level leads from node to node. -/
theorem next_final (hr : Rep h maxL hd top level (L ++ R)) :
    h.next (final hd L) 1 = some (first R hd) := by
  have hone := hr.bounded
  have hpos := hr.positive
  have hpath := hr.path 1 Nat.one_pos (by omega)
  rw [hr.chain_one, Path.append_iff] at hpath
  exact hpath.2.first

theorem first_eq_header (hr : Rep h maxL hd top level (L ++ R)) : first R hd = hd ↔ R = [] := by
  cases R with
  | nil => exact iff_of_true rfl rfl
  | cons e S =>
      refine iff_of_false (fun heq => ?_) (List.cons_ne_nil e S)
      exact hr.ne_header (List.mem_append_right _ (List.mem_cons_self ..)) heq

end Rep

/-! ## Section 8: Cutting a chain in two -/

/-- One level of a division: `A` goes to the header `hd'`, `B` stays. -/
theorem Path.divide {h h' : Heap α} {i hd hd' : Nat} {A B : List (Elt α)}
    (hp : Path h i hd (A ++ B) hd) (hnodup : (hd' :: hd :: (A ++ B).map Elt.addr).Nodup)
    (hA : A ≠ [])
    (hnext : ∀ b, h'.next b i = if b = final hd A then some hd'
      else if b = hd' then some (SkipList.first A hd')
      else if b = hd then some (SkipList.first B hd)
      else h.next b i) :
    Path h' i hd B hd ∧ Path h' i hd' A hd' := by
  rw [Path.append_iff] at hp
  simp only [List.map_append, List.nodup_cons, List.mem_cons, List.mem_append, not_or,
    List.nodup_append] at hnodup
  obtain ⟨⟨hne, hA', hB'⟩, ⟨hAh, hBh⟩, hnodA, hnodB, hdisj⟩ := hnodup
  obtain ⟨e, he, hfin⟩ := exists_final hA hd
  have hmem : final hd A ∈ A.map Elt.addr := hfin ▸ List.mem_map_of_mem he
  have hfin' : final hd' A = final hd A := by
    cases A with
    | nil => exact absurd rfl hA
    | cons a A => rfl
  have hout : ∀ {b : Nat} {C : List (Elt α)}, hd' ∉ C.map Elt.addr → hd ∉ C.map Elt.addr →
      b ∈ C.map Elt.addr → b ≠ hd' ∧ b ≠ hd :=
    fun h' h hb => ⟨fun heq => h' (heq ▸ hb), fun heq => h (heq ▸ hb)⟩
  obtain ⟨hfd', hfd⟩ := hout hA' hAh hmem
  constructor
  · refine hp.2.restart ?_ ?_ hnodB
    · rw [hnext, if_neg (Ne.symm hfd), if_neg (Ne.symm hne), if_pos rfl]
    · intro b hb
      obtain ⟨hbd', hbd⟩ := hout hB' hBh hb
      have hbf : b ≠ final hd A := fun heq => hdisj _ hmem _ hb heq.symm
      rw [hnext, if_neg hbf, if_neg hbd', if_neg hbd]
  · refine hp.1.rewire ?_ ?_ ?_ hnodA
    · rw [hnext, if_neg (Ne.symm hfd'), if_pos rfl]
    · intro _
      rw [hfin', hnext, if_pos rfl]
    · intro b hb hbf
      rw [hfin'] at hbf
      obtain ⟨hbd', hbd⟩ := hout hA' hAh hb
      rw [hnext, if_neg hbf, if_neg hbd', if_neg hbd]

/-- `in->header->list[i] = v; res->header->list[i] = w; last->list[i] = res->header`. -/
def cutLevel (h : Heap α) (hd hd' last i v w : Nat) : Option (Heap α) :=
  (h.setNext hd i v).bind fun h => (h.setNext hd' i w).bind fun h => h.setNext last i hd'

/-- The levels above `i` are cut between `L`, now behind `hd'`, and `R`, still behind `hd`. -/
structure Divided (h : Heap α) (maxL hd hd' : Nat) (top : α) (L R : List (Elt α)) (i : Nat) :
    Prop where
  header : h.info hd = some (top, maxL)
  header' : h.info hd' = some (top, maxL)
  node : ∀ e ∈ L ++ R, h.info e.addr = some (e.data, e.level)
  distinct : (hd' :: hd :: (L ++ R).map Elt.addr).Nodup
  cut : ∀ j, i < j → j < maxL →
    Path h j hd (chain j R) hd ∧ Path h j hd' (chain j L) hd'
  whole : ∀ j, 0 < j → j ≤ i →
    Path h j hd (chain j L ++ chain j R) hd ∧ Path h j hd' [] hd'

namespace Divided

variable {h : Heap α} {maxL hd hd' i : Nat} {top : α} {L R : List (Elt α)}

theorem ne_header (hv : Divided h maxL hd hd' top L R i) {e : Elt α} (he : e ∈ L ++ R) :
    e.addr ≠ hd := by
  have hdist := (List.nodup_cons.mp hv.distinct).2
  exact fun heq => (List.nodup_cons.mp hdist).1 (heq ▸ List.mem_map_of_mem he)

/-- A chain of `R` starts at the header only if there is none. -/
theorem first_right (hv : Divided h maxL hd hd' top L R i) (j : Nat) :
    first (chain j R) hd = hd ↔ ∀ e ∈ R, e.level < j := by
  rw [← chain_eq_nil]
  cases hc : chain j R with
  | nil => exact iff_of_true rfl rfl
  | cons e C =>
      refine iff_of_false (fun heq => ?_) (List.cons_ne_nil e C)
      have he : e ∈ R := (mem_chain.mp (hc ▸ List.mem_cons_self ..)).1
      exact hv.ne_header (List.mem_append_right _ he) heq

/-- Before the first level is cut. -/
theorem start {level level' : Nat} (hr : Rep h maxL hd top level (L ++ R))
    (hr' : Rep h maxL hd' top level' []) (hne : hd' ∉ hd :: (L ++ R).map Elt.addr) :
    Divided h maxL hd hd' top L R level where
  header := hr.header
  header' := hr'.header
  node := hr.node
  distinct := List.nodup_cons.mpr ⟨hne, hr.distinct⟩
  cut j hj hm := by
    have hpath := hr.path j (by omega) hm
    have hhigh := hr.chain_high hj
    rw [hhigh] at hpath
    rw [chain_append, List.append_eq_nil_iff] at hhigh
    rw [hhigh.1, hhigh.2]
    exact ⟨hpath, hr'.path j (by omega) hm⟩
  whole j hj hji := by
    have hbound := hr.bounded
    have hpath := hr.path j hj (by omega)
    rw [chain_append] at hpath
    exact ⟨hpath, hr'.path j hj (by omega)⟩

/-- A level without nodes of `L` is cut as it is. -/
theorem skip (hv : Divided h maxL hd hd' top L R (i + 1)) (hnil : chain (i + 1) L = []) :
    Divided h maxL hd hd' top L R i where
  header := hv.header
  header' := hv.header'
  node := hv.node
  distinct := hv.distinct
  cut j hj hm := by
    by_cases hji : j = i + 1
    · have hw := hv.whole (i + 1) (Nat.succ_pos i) (Nat.le_refl _)
      rw [hji, hnil]
      rw [hnil] at hw
      exact hw
    · exact hv.cut j (by omega) hm
  whole j hj hji := hv.whole j hj (Nat.le_succ_of_le hji)

/-- The three pointers of a level that are written. -/
theorem cutLevel (hv : Divided h maxL hd hd' top L R (i + 1)) (hm : i + 1 < maxL)
    (hne : chain (i + 1) L ≠ []) :
    ∃ h', cutLevel h hd hd' (final hd (chain (i + 1) L)) (i + 1) (first (chain (i + 1) R) hd)
        (first (chain (i + 1) L) hd') = some h' ∧ h'.info = h.info ∧
      Divided h' maxL hd hd' top L R i := by
  obtain ⟨e, he, hfin⟩ := exists_final hne hd
  obtain ⟨heL, hle⟩ := mem_chain.mp he
  obtain ⟨h₁, hset₁, hinfo₁, hnext₁⟩ := Heap.setNext_spec (i := i + 1)
    (v := first (chain (i + 1) R) hd) hv.header (Nat.le_of_lt hm)
  obtain ⟨h₂, hset₂, hinfo₂, hnext₂⟩ := Heap.setNext_spec (i := i + 1)
    (v := first (chain (i + 1) L) hd') ((congrFun hinfo₁ _).trans hv.header') (Nat.le_of_lt hm)
  have hinfo : h₂.info = h.info := hinfo₂.trans hinfo₁
  obtain ⟨h₃, hset₃, hinfo₃, hnext₃⟩ := Heap.setNext_spec (i := i + 1) (v := hd')
    ((congrFun hinfo _).trans (hv.node e (List.mem_append_left _ heL))) hle
  have hsame : h₃.info = h.info := hinfo₃.trans hinfo
  have hother : ∀ b j, j ≠ i + 1 → h₃.next b j = h.next b j := by
    intro b j hj
    rw [hnext₃, if_neg fun hc => hj hc.2, hnext₂, if_neg fun hc => hj hc.2, hnext₁,
      if_neg fun hc => hj hc.2]
  refine ⟨h₃, ?_, hsame, ⟨?_, ?_, ?_, hv.distinct, fun j hj hjm => ?_, fun j hj hji => ?_⟩⟩
  · rw [SkipList.cutLevel, hset₁, Option.bind_some, hset₂, Option.bind_some, hfin, hset₃]
  · rw [hsame]
    exact hv.header
  · rw [hsame]
    exact hv.header'
  · intro x hx
    rw [hsame]
    exact hv.node x hx
  · by_cases hji : j = i + 1
    · subst hji
      have hsub : (hd' :: hd :: (chain (i + 1) L ++ chain (i + 1) R).map Elt.addr).Nodup := by
        rw [← chain_append]
        refine hv.distinct.sublist ?_
        exact ((List.filter_sublist.map Elt.addr).cons_cons hd).cons_cons hd'
      refine (hv.whole (i + 1) (Nat.succ_pos i) (Nat.le_refl _)).1.divide hsub hne fun b => ?_
      rw [hnext₃, hnext₂, hnext₁, hfin]
      simp only [and_true]
    · obtain ⟨hin, hres⟩ := hv.cut j (by omega) hjm
      exact ⟨hin.frame fun b _ => hother b j hji, hres.frame fun b _ => hother b j hji⟩
  · obtain ⟨hin, hres⟩ := hv.whole j hj (Nat.le_succ_of_le hji)
    have hne : j ≠ i + 1 := by omega
    exact ⟨hin.frame fun b _ => hother b j hne, hres.frame fun b _ => hother b j hne⟩

/-- All levels are cut: two lists. -/
theorem rep {level level' : Nat} (hv : Divided h maxL hd hd' top L R 0)
    (hR : ∀ e ∈ R, 0 < e.level ∧ e.level ≤ level) (hL : ∀ e ∈ L, 0 < e.level ∧ e.level ≤ level')
    (hpos : 0 < level) (hpos' : 0 < level') (hm : level < maxL) (hm' : level' < maxL) :
    Rep h maxL hd top level R ∧ Rep h maxL hd' top level' L := by
  have hdist := hv.distinct
  rw [List.map_append] at hdist
  constructor
  · refine ⟨hv.header, fun e he => hv.node e (List.mem_append_right _ he), ?_, hR, hpos, hm, ?_⟩
    · refine (List.nodup_cons.mp hdist).2.sublist ?_
      exact (List.sublist_append_right ..).cons_cons hd
    · exact fun i hi him => (hv.cut i hi him).1
  · refine ⟨hv.header', fun e he => hv.node e (List.mem_append_left _ he), ?_, hL, hpos', hm', ?_⟩
    · refine hdist.sublist ?_
      exact ((List.sublist_append_left ..).trans (List.sublist_cons_self hd _)).cons_cons hd'
    · exact fun i hi him => (hv.cut i hi him).2

end Divided

end AggreKV.SkipList
