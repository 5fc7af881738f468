import AggreKV.LsmTree.CutList
import AggreKV.Lib.Lists
import AggreKV.Lib.SkipList

/-! # The memtable skiplist in memory

    `skiplist.c` on nodes with arrays of forward pointers, which `Memtable`
    takes as the list they hold on level 1.

    * `Chained`: a record and the memory hold a list of nodes with values.
    * `Chained.skiplistFind`, `Chained.skiplistInsert`: both functions do on
      the nodes what `Memtable` says they do on the list.
    * `Chained.skiplistDivide`: the split behind a node.
    * `memtable_split`: the split, the searches after it, and the counts that
      `skiplist_cutting_header` writes. -/

namespace AggreKV.LsmTree

open SkipList

/-! ## Section 1: The functions -/

/-- `MAX_L` and `PROB`. -/
def maxL : Nat := 30

def prob : Nat := 4

/-- `skiplist`; `data_size` is never read. -/
structure SkiplistRec where
  level : Nat
  size : Nat
  allLength : Nat
  header : Nat
  deriving DecidableEq

/-- The header's node; what `skiplist_init` leaves unset is never read. -/
def headerNode : Snode := ⟨keyMax, 0, none⟩

/-- `getLevel`, with the outcomes of `rand`. -/
def getLevel (rand : Nat → Nat) : Nat := drawLevel prob maxL rand maxL 1

def SkiplistRec.skiplistInit (m : Mem Snode) : Mem Snode × SkiplistRec :=
  (⟨newHeader m.heap maxL m.brk headerNode, m.brk + 1⟩, ⟨1, 0, 0, m.brk⟩)

/-- `skiplist_find`; the result `none` is `NULL`. -/
def SkiplistRec.skiplistFind (fuel : Nat) (m : Mem Snode) (list : SkiplistRec) (key : Key) :
    Option (Option Nat) :=
  if list.size = 0 then some none
  else
    (descend m.heap (fun n => decide (keyCmp n.key key = .lt)) fuel list.level list.header
        fun _ => 0).bind fun (x, _) =>
      (m.heap.next x 1).bind fun y => (m.heap y).bind fun nd =>
        if keyTest nd.data.key key then some (some y) else some none

/-- `skiplist_insert` of a value of `bytes` bytes: the memory, the list and the node. -/
def SkiplistRec.skiplistInsert (fuel : Nat) (m : Mem Snode) (list : SkiplistRec) (key : Key)
    (bytes : Nat) (rand : Nat → Nat) : Option (Mem Snode × SkiplistRec × Nat) :=
  (descend m.heap (fun n => decide (keyCmp n.key key = .lt)) fuel list.level list.header
      fun _ => 0).bind fun (x, update) =>
    (m.heap.next x 1).bind fun x => (m.heap x).bind fun nd =>
      if keyTest key nd.data.key then
        -- the old value is read
        nd.data.value.bind fun _ =>
          (m.heap.setData x { nd.data with value := some (toPieces bytes) }).map fun h =>
            (⟨h, m.brk⟩, list, x)
      else if keyValCheck key then
        let level := getLevel rand
        let update := fun i => if list.level < i ∧ i ≤ level then list.header else update i
        (insertNode m.heap update m.brk level ⟨key, 4294967295, some (toPieces bytes)⟩).map fun h =>
          (⟨h, m.brk + 1⟩, { list with
            level := max list.level level
            size := list.size + 1
            allLength := list.allLength + keyLen key }, m.brk)
      else none

/-- The variables of the two loops of `skiplist_divide`. -/
structure Dividing where
  heap : Heap Snode
  x : Nat
  inLevel : Nat
  resLevel : Nat

/-- The loop over the levels above the target, `tLevel + n`, …, `tLevel + 1`. -/
def divideAbove (fuel inHd resHd tLevel : Nat) (key : Key) : Nat → Dividing → Option Dividing
  | 0, s => some s
  | n + 1, s =>
      (walk s.heap (fun d => decide (keyCmp d.key key = .lt)) (tLevel + n + 1) fuel s.x).bind
      fun x =>
        (s.heap x).bind fun nd =>
          if keyCmp nd.data.key key = .gt then
            (s.heap.next inHd (tLevel + n)).bind fun y =>
              divideAbove fuel inHd resHd tLevel key n
                { s with x := y, resLevel := s.resLevel - 1 }
          else
            (s.heap.next x (tLevel + n + 1)).bind fun y =>
              (s.heap.next inHd (tLevel + n + 1)).bind fun temp =>
                (cutLevel s.heap inHd resHd x (tLevel + n + 1) y temp).bind fun h =>
                  divideAbove fuel inHd resHd tLevel key n
                    { s with
                      heap := h, x := x,
                      inLevel := if y = inHd then s.inLevel - 1 else s.inLevel }

/-- The loop over the levels of the target, from `n` down to 1. -/
def divideAt (inHd resHd target : Nat) : Nat → Heap Snode × Nat → Option (Heap Snode × Nat)
  | 0, s => some s
  | n + 1, (h, inLevel) =>
      (h.next target (n + 1)).bind fun y => (h.next inHd (n + 1)).bind fun temp =>
        (cutLevel h inHd resHd target (n + 1) y temp).bind fun h =>
          divideAt inHd resHd target n (h, if y = inHd then inLevel - 1 else inLevel)

/-- `skiplist_divide`: the memory, `in` and the result. -/
def SkiplistRec.skiplistDivide (fuel : Nat) (m : Mem Snode) (list : SkiplistRec) (target : Nat) :
    Option (Mem Snode × SkiplistRec × SkiplistRec) :=
  let (m, res) := SkiplistRec.skiplistInit m
  if target = list.header then some (m, res, list)
  else
    (m.heap target).bind fun t => (m.heap.next list.header list.level).bind fun x =>
      (divideAbove fuel list.header res.header t.level t.data.key (list.level - t.level)
          ⟨m.heap, x, list.level, list.level⟩).bind fun s =>
        (divideAt list.header res.header target t.level (s.heap, s.inLevel)).map fun (h, inLevel) =>
          (⟨h, m.brk⟩, { list with level := if inLevel = 0 then 1 else inLevel },
            { res with level := s.resLevel })

/-- The loop of `skiplist_cutting_header`: the last node it takes, `length` and `idx`. -/
def cutNode (m : Mem Snode) (header : Nat) : Nat → Nat → Nat → Nat → Option (Nat × Nat × Nat)
  | 0, _, _, _ => none
  | n + 1, temp, length, idx =>
      (m.heap temp).bind fun nd => (m.heap.next temp 1).bind fun y => (m.heap y).bind fun nd' =>
        let length := length + keyLen nd.data.key
        if sizeLimit ≤ length + keyLen nd'.data.key ∨ numLimit ≤ idx + 1 then
          some (temp, length, idx + 1)
        else if y = header then some (y, length, idx + 1)
        else cutNode m header n y length (idx + 1)

/-- `skiplist_cutting_header`; `none` in place of a result is `in` itself. -/
def SkiplistRec.skiplistCuttingHeader (fuel : Nat) (m : Mem Snode) (list : SkiplistRec) :
    Option (Mem Snode × SkiplistRec × Option SkiplistRec) :=
  if list.allLength < sizeLimit ∧ list.size < numLimit then some (m, list, none)
  else
    (m.heap.next list.header 1).bind fun first =>
      (if first = list.header then some (first, 0, 0)
        else cutNode m list.header fuel first 0 0).bind fun (temp, length, idx) =>
        (SkiplistRec.skiplistDivide fuel m list temp).map fun (m, list, res) =>
          (m, { list with size := list.size - idx, allLength := list.allLength - length },
            some { res with size := idx, allLength := length })

/-! ## Section 2: A memtable in memory -/

/-- The nodes of `l`, in order and with values, are linked behind the header on every level. -/
structure Chained (m : Mem Snode) (list : SkiplistRec) (l : List (Elt Snode)) : Prop where
  rep : Rep m.heap maxL list.header headerNode list.level l
  free : m.Free
  ordered : MemOrdered (l.map Elt.data)
  valued : ∀ e ∈ l, e.data.value ≠ none

/-- `size` and `all_length` are those of the list. -/
structure Counted (list : SkiplistRec) (l : List (Elt Snode)) : Prop where
  size : list.size = l.length
  allLength : list.allLength = allLength (l.map Elt.data)

/-- The node at an address. -/
def nodeAt (m : Mem Snode) (a : Nat) : Option Snode := (m.heap a).map Node.data

theorem lt_keyMax {key : Key} (h : keyValCheck key = true) : key < keyMax := by
  rw [Key.lt_iff]
  unfold keyValCheck at h
  split at h
  · exact absurd h Bool.false_ne_true
  · next b bs heq =>
    have hb : b.val < 128 := of_decide_eq_true h
    rw [heq]
    exact List.Lex.rel (Fin.lt_def.mpr (show b.val < 255 by omega))

theorem not_keyMax_lt (key : Key) : ¬ keyMax < key := by
  rw [Key.lt_iff]
  refine not_replicate_lt (fun b hb => ?_) key.len_le
  have hle : b.val ≤ 255 := Nat.le_of_lt_succ b.isLt
  exact absurd (Fin.lt_def.mp hb) (Nat.not_lt.mpr hle)

/-- The nodes before a key, and the others. -/
theorem exists_split {l : List (Elt Snode)} (ho : MemOrdered (l.map Elt.data)) (key : Key) :
    ∃ L R, l = L ++ R ∧ (∀ e ∈ L, e.data.key < key) ∧ ∀ e ∈ R, key ≤ e.data.key := by
  have hlt : l.Pairwise fun a b => a.data.key < b.data.key := by
    have hi := ho.increasing
    unfold Skiplist.keys at hi
    rwa [List.pairwise_map, List.pairwise_map] at hi
  obtain ⟨L, R, hl, hL, hR⟩ := exists_cut (p := fun e : Elt Snode => e.data.key < key)
    (hlt.imp fun hab hb => hab.trans hb)
  exact ⟨L, R, hl, hL, fun e he => not_lt.mp (hR e he)⟩

theorem skiplistFind_append {L : List (Elt Snode)} {key : Key}
    (hL : ∀ e ∈ L, e.data.key < key) (R : Skiplist) :
    skiplistFind (L.map Elt.data ++ R) key = skiplistFind R key := by
  induction L with
  | nil => rfl
  | cons e L ih =>
      obtain ⟨he, hL⟩ := List.forall_mem_cons.mp hL
      rw [List.map_cons, List.cons_append, skiplistFind, if_pos (keyCmp_lt.mpr he)]
      exact ih hL

theorem skiplistInsert_append {L : List (Elt Snode)} {key : Key} (bytes : Nat)
    (hL : ∀ e ∈ L, e.data.key < key) (R : Skiplist) :
    skiplistInsert key bytes (L.map Elt.data ++ R) =
      (skiplistInsert key bytes R).map (L.map Elt.data ++ ·) := by
  induction L with
  | nil => exact Option.map_id'.symm
  | cons e L ih =>
      obtain ⟨he, hL⟩ := List.forall_mem_cons.mp hL
      rw [List.map_cons, List.cons_append, skiplistInsert, if_pos (keyCmp_lt.mpr he), ih hL,
        Option.map_map]
      rfl

/-- A search stops behind the nodes before the key. -/
theorem Chained.descend {m : Mem Snode} {list : SkiplistRec} {L R : List (Elt Snode)} {key : Key}
    {fuel : Nat} (hc : Chained m list (L ++ R)) (hL : ∀ e ∈ L, e.data.key < key)
    (hR : ∀ e ∈ R, key ≤ e.data.key) (hfuel : L.length < fuel) :
    ∃ u, SkipList.descend m.heap (fun n => decide (keyCmp n.key key = .lt)) fuel list.level
        list.header (fun _ => 0) = some (final list.header L, u) ∧
      ∀ j, 0 < j → j ≤ list.level → u j = final list.header (chain j L) := by
  refine hc.rep.descend ?_ ?_ ?_ hfuel _
  · exact fun e he => decide_eq_true (keyCmp_lt.mpr (hL e he))
  · exact fun e he => decide_eq_false fun h => absurd (keyCmp_lt.mp h) (not_lt.mpr (hR e he))
  · exact decide_eq_false fun h => not_keyMax_lt key (keyCmp_lt.mp h)

/-- The node a search ends before. -/
theorem Chained.next_descend {m : Mem Snode} {list : SkiplistRec} {L R : List (Elt Snode)}
    (hc : Chained m list (L ++ R)) :
    ∃ nd, m.heap.next (final list.header L) 1 = some (first R list.header) ∧
      m.heap (first R list.header) = some nd ∧
      nd.data = (R.head?.map Elt.data).getD headerNode := by
  have hnext := hc.rep.next_final
  cases R with
  | nil =>
      obtain ⟨nd, hnd, hdata, -⟩ := Heap.info_some hc.rep.header
      exact ⟨nd, hnext, hnd, hdata⟩
  | cons e R =>
      obtain ⟨nd, hnd, hdata, -⟩ :=
        Heap.info_some (hc.rep.node e (List.mem_append_right _ (List.mem_cons_self ..)))
      exact ⟨nd, hnext, hnd, hdata⟩

theorem Chained.skiplistFind {m : Mem Snode} {list : SkiplistRec} {l : List (Elt Snode)}
    {key : Key} {fuel : Nat} (hc : Chained m list l) (hkey : key ≠ keyMax)
    (hfuel : l.length < fuel) (hsize : list.size = 0 → l = []) :
    ∃ r, SkiplistRec.skiplistFind fuel m list key = some r ∧
      r.map (nodeAt m) = (skiplistFind (l.map Elt.data) key).map some := by
  unfold SkiplistRec.skiplistFind
  by_cases h0 : list.size = 0
  · rw [if_pos h0, hsize h0]
    exact ⟨none, rfl, rfl⟩
  -- The descent ends at the last node before the key, so its successor decides.
  · obtain ⟨L, R, rfl, hL, hR⟩ := exists_split hc.ordered key
    have hlen : L.length < fuel := by
      rw [List.length_append] at hfuel
      omega
    obtain ⟨u, hdesc, -⟩ := hc.descend hL hR hlen
    obtain ⟨nd, hnext, hnd, hdata⟩ := hc.next_descend
    rw [if_neg h0, hdesc, Option.bind_some]
    dsimp only
    rw [hnext, Option.bind_some, hnd, Option.bind_some, hdata, List.map_append,
      skiplistFind_append hL]
    cases R with
    -- The successor is the header, whose key no search asks for.
    | nil =>
        have htest : ¬ keyTest headerNode.key key = true := fun h => hkey (keyTest_iff.mp h).symm
        refine ⟨none, if_neg htest, rfl⟩
    | cons e R =>
        have hge : ¬ keyCmp e.data.key key = .lt := by
          intro h
          exact absurd (keyCmp_lt.mp h) (not_lt.mpr (hR e (List.mem_cons_self ..)))
        rw [List.map_cons, LsmTree.skiplistFind, if_neg hge]
        show ∃ r, (if keyTest e.data.key key then _ else _) = some r ∧ _
        by_cases htest : keyTest e.data.key key
        · rw [if_pos htest, if_pos htest]
          refine ⟨_, rfl, ?_⟩
          show some (nodeAt m e.addr) = some (some e.data)
          rw [nodeAt, show m.heap e.addr = some nd from hnd, Option.map_some, hdata]
          rfl
        · rw [if_neg htest, if_neg htest]
          exact ⟨none, rfl, rfl⟩

theorem getLevel_bounds (rand : Nat → Nat) : 0 < getLevel rand ∧ getLevel rand < maxL :=
  drawLevel_bounds Nat.one_pos (by decide)

/-- A node gets another value. -/
theorem Chained.overwrite {m : Mem Snode} {list : SkiplistRec} {L S : List (Elt Snode)}
    {e : Elt Snode} (hc : Chained m list (L ++ e :: S)) (v : Nat) :
    ∃ h', m.heap.setData e.addr { e.data with value := some v } = some h' ∧
      Chained ⟨h', m.brk⟩ list (L ++ { e with data := { e.data with value := some v } } :: S) := by
  obtain ⟨h', hset, hrep, hfree⟩ := hc.rep.overwrite hc.free { e.data with value := some v }
  refine ⟨h', hset, hrep, hfree, ?_, ?_⟩
  · refine hc.ordered.of_keys ?_
    rw [List.map_append, List.map_append, Skiplist.keys, Skiplist.keys, List.map_append,
      List.map_append]
    rfl
  · obtain ⟨hvL, -, hvS⟩ := forall_middle.mp hc.valued
    exact forall_middle.mpr ⟨hvL, Option.some_ne_none v, hvS⟩

/-- A new node is linked where a search ended. -/
theorem Chained.insertNew {m : Mem Snode} {list : SkiplistRec} {L R : List (Elt Snode)} {n : Snode}
    {u : Nat → Nat} {level : Nat} (hc : Chained m list (L ++ R))
    (hn : n.value ≠ none) (ho : MemOrdered (L.map Elt.data ++ n :: R.map Elt.data))
    (hpos : 0 < level) (hmax : level < maxL)
    (hu : ∀ j, 0 < j → j ≤ list.level → u j = final list.header (chain j L)) (size len : Nat) :
    ∃ h', insertNode m.heap (fun i => if list.level < i ∧ i ≤ level then list.header else u i)
        m.brk level n = some h' ∧
      Chained ⟨h', m.brk + 1⟩ ⟨max list.level level, size, len, list.header⟩
        (L ++ ⟨m.brk, level, n⟩ :: R) := by
  obtain ⟨h', hins, hrep, hfree⟩ := hc.rep.insertNew hc.free n hpos hmax hu
  refine ⟨h', hins, hrep, hfree, ?_, ?_⟩
  · rw [List.map_append, List.map_cons]
    exact ho
  · obtain ⟨hvL, hvR⟩ := List.forall_mem_append.mp hc.valued
    exact forall_middle.mpr ⟨hvL, hn, hvR⟩

theorem allLength_append (l l' : Skiplist) : allLength (l ++ l') = allLength l + allLength l' := by
  rw [allLength, allLength, allLength, List.map_append, List.sum_append]

theorem Chained.skiplistInsert {m : Mem Snode} {list : SkiplistRec} {l : List (Elt Snode)}
    {key : Key} {fuel : Nat} (hc : Chained m list l) (hkey : keyValCheck key = true)
    (hfuel : l.length < fuel) (bytes : Nat) (rand : Nat → Nat) :
    ∃ m' list' x l', SkiplistRec.skiplistInsert fuel m list key bytes rand = some (m', list', x) ∧
      Chained m' list' l' ∧
      skiplistInsert key bytes (l.map Elt.data) = some (l'.map Elt.data) ∧
      list'.size + l.length = list.size + l'.length ∧
      list'.allLength + allLength (l.map Elt.data) =
        list.allLength + allLength (l'.map Elt.data) := by
  obtain ⟨L, R, rfl, hL, hR⟩ := exists_split hc.ordered key
  have hlen : L.length < fuel := by
    rw [List.length_append] at hfuel
    omega
  obtain ⟨u, hdesc, hu⟩ := hc.descend hL hR hlen
  obtain ⟨nd, hnext, hnd, hdata⟩ := hc.next_descend
  have hmax := (lt_keyMax hkey).ne
  unfold SkiplistRec.skiplistInsert
  rw [hdesc, Option.bind_some]
  dsimp only
  rw [hnext, Option.bind_some, hnd, Option.bind_some, hdata, List.map_append,
    skiplistInsert_append bytes hL]
  by_cases htest : keyTest key ((R.head?.map Elt.data).getD headerNode).key
  · -- the key is there: its node is the first one not before it
    rw [if_pos htest]
    cases R with
    | nil => exact absurd (keyTest_iff.mp htest) hmax
    | cons e S =>
        have heq : key = e.data.key := keyTest_iff.mp htest
        have hge : ¬ keyCmp e.data.key key = .lt := by
          rw [← heq]
          intro h
          exact absurd (keyCmp_lt.mp h) (lt_irrefl key)
        have hins : LsmTree.skiplistInsert key bytes (e.data :: S.map Elt.data) =
            some ({ e.data with value := some (toPieces bytes) } :: S.map Elt.data) := by
          rw [LsmTree.skiplistInsert, if_neg hge, if_pos (show keyTest key e.data.key from htest)]
        obtain ⟨v, hv⟩ := Option.ne_none_iff_exists'.mp
          (hc.valued e (List.mem_append_right _ (List.mem_cons_self ..)))
        obtain ⟨h', hset, hc'⟩ := hc.overwrite (toPieces bytes)
        refine ⟨_, list, e.addr, _, ?_, hc', ?_, ?_, ?_⟩
        · show (e.data.value.bind fun _ => (m.heap.setData e.addr _).map _) = _
          rw [hv, Option.bind_some]
          exact congrArg (Option.map _) hset
        · rw [List.map_cons, hins, List.map_append]
          rfl
        · rw [List.length_append, List.length_append]
          rfl
        · rw [List.map_append, allLength_append, allLength_append]
          rfl
  · -- a new node behind the ones before the key
    rw [if_neg htest, if_pos hkey]
    have hins : LsmTree.skiplistInsert key bytes (R.map Elt.data) =
        some (⟨key, 4294967295, some (toPieces bytes)⟩ :: R.map Elt.data) := by
      cases R with
      | nil => exact if_pos hkey
      | cons e S =>
          have hge : ¬ keyCmp e.data.key key = .lt := by
            intro h
            exact absurd (keyCmp_lt.mp h) (not_lt.mpr (hR e (List.mem_cons_self ..)))
          rw [List.map_cons, LsmTree.skiplistInsert, if_neg hge,
            if_neg (show ¬ keyTest key e.data.key from htest), if_pos hkey]
    have ho : MemOrdered (L.map Elt.data ++
        ⟨key, 4294967295, some (toPieces bytes)⟩ :: R.map Elt.data) := by
      have hold := hc.ordered
      rw [List.map_append] at hold
      refine @MemOrdered.skiplistInsert key bytes _ _ hold ?_
      rw [skiplistInsert_append bytes hL, hins]
      rfl
    obtain ⟨hpos, hbound⟩ := getLevel_bounds rand
    obtain ⟨h', hnew, hc'⟩ := hc.insertNew (Option.some_ne_none _) ho hpos hbound hu
      (list.size + 1) (list.allLength + keyLen key)
    refine ⟨_, _, m.brk, _, ?_, hc', ?_, ?_, ?_⟩
    · exact congrArg (Option.map _) hnew
    · rw [hins, List.map_append]
      rfl
    · simp only [List.length_append, List.length_cons]
      omega
    · simp only [List.map_append, List.map_cons, allLength_append, allLength_cons]
      omega

/-! ## Section 3: Dividing -/

/-- Where the loop over the upper levels stands before level `i`: at the first node of
    that level, as long as none of `L` was seen, or at a node of `L`. -/
def At (s : Dividing) (hd : Nat) (L R : List (Elt Snode)) (i : Nat) : Prop :=
  s.x = first (chain i L ++ chain i R) hd ∧ s.resLevel = i ∨
    ∃ A B, A ≠ [] ∧ chain i L = A ++ B ∧ s.x = final hd A

/-- The levels of both records cover the nodes that they will get. -/
structure Covers (s : Dividing) (L R : List (Elt Snode)) (top i : Nat) : Prop where
  right : ∀ e ∈ R, e.level ≤ s.inLevel
  left : ∀ e ∈ L, e.level ≤ s.resLevel
  low : i ≤ s.inLevel ∧ i ≤ s.resLevel
  high : s.inLevel ≤ top ∧ s.resLevel ≤ top

theorem At.next {s : Dividing} {hd i : Nat} {L R : List (Elt Snode)}
    (hne : ∀ e ∈ L, e.addr ≠ hd) (hL : chain (i + 1) L ≠ [])
    (hx : s.x = final hd (chain (i + 1) L)) : At s hd L R i := by
  obtain ⟨A, B, hAB, hfin⟩ := chain_prefix (Nat.le_succ i) hd L
  refine .inr ⟨A, B, ?_, hAB, hx.trans hfin.symm⟩
  rintro rfl
  obtain ⟨e, he, heq⟩ := exists_final hL hd
  exact hne e (mem_chain.mp he).1 (heq.symm.trans hfin.symm)

/-- On a level that stays whole no step is taken, and the node found is behind the key. -/
theorem walk_stays {h : Heap Snode} {hd i fuel : Nat} {R : List (Elt Snode)} {key : Key}
    (hpath : Path h i hd (chain i R) hd) (hhd : h.info hd = some (headerNode, maxL))
    (hnode : ∀ e ∈ R, h.info e.addr = some (e.data, e.level)) (hR : ∀ e ∈ R, key < e.data.key)
    (hmax : key < keyMax) (hfuel : 0 < fuel) :
    walk h (fun d => decide (keyCmp d.key key = .lt)) i fuel (first (chain i R) hd) =
        some (first (chain i R) hd) ∧
      ∃ nd, h (first (chain i R) hd) = some nd ∧ key < nd.data.key := by
  have hsub : ∀ e ∈ chain i R, e ∈ R := fun e he => (mem_chain.mp he).1
  -- The walk never passes the first node: its key, or the header's, is greater.
  have hstop : ∀ C : List (Elt Snode), (∀ e ∈ C, e ∈ R) → ∃ d lev,
      h.info (first C hd) = some (d, lev) ∧ decide (keyCmp d.key key = .lt) = false := by
    intro C hC
    cases C with
    | nil =>
        exact ⟨_, _, hhd, decide_eq_false fun h => absurd (keyCmp_lt.mp h) hmax.not_gt⟩
    | cons e C =>
        have he := hC e (List.mem_cons_self ..)
        exact ⟨_, _, hnode e he, decide_eq_false fun h => absurd (keyCmp_lt.mp h) (hR e he).not_gt⟩
  cases hc : chain i R with
  | nil =>
      rw [hc] at hpath
      obtain ⟨nd, hnd, hdata, -⟩ := Heap.info_some hhd
      refine ⟨?_, nd, hnd, ?_⟩
      · exact @walk_spec _ h _ i hd hd fuel [] [] hpath (fun e he => absurd he List.not_mem_nil)
          (fun e he => absurd he List.not_mem_nil) (hstop [] fun e he => absurd he List.not_mem_nil)
          hfuel
      · rw [hdata]
        exact hmax
  | cons e C =>
      rw [hc] at hpath hsub
      have he := hsub e (List.mem_cons_self ..)
      obtain ⟨nd, hnd, hdata, -⟩ := Heap.info_some (hnode e he)
      refine ⟨?_, nd, hnd, ?_⟩
      · exact @walk_spec _ h _ i e.addr hd fuel [] C hpath.2
          (fun e he => absurd he List.not_mem_nil)
          (fun e he => absurd he List.not_mem_nil)
          (hstop C fun e he => hsub e (List.mem_cons_of_mem _ he)) hfuel
      · rw [hdata]
        exact hR e he

/-- One level above the target where some nodes lie before it. -/
theorem At.seen {s : Dividing} {hd i : Nat} {L R : List (Elt Snode)} (hat : At s hd L R i)
    (hL : chain i L ≠ []) : ∃ A B, A ≠ [] ∧ chain i L = A ++ B ∧ s.x = final hd A := by
  rcases hat with ⟨hx, -⟩ | h
  · cases hc : chain i L with
    | nil => exact absurd hc hL
    | cons e A =>
        rw [hc] at hx
        exact ⟨[e], A, List.cons_ne_nil e [], rfl, hx⟩
  · exact h

/-- A level without nodes of the left record is not one of its levels. -/
theorem Covers.skip {s : Dividing} {L R : List (Elt Snode)} {top i : Nat}
    (hc : Covers s L R top (i + 1)) (hres : s.resLevel = i + 1) (hleft : ∀ e ∈ L, e.level < i + 1)
    (x : Nat) : Covers { s with x := x, resLevel := s.resLevel - 1 } L R top i := by
  obtain ⟨hcr, -, ⟨hlow, hlow'⟩, hhigh, hhigh'⟩ := hc
  refine ⟨hcr, fun e he => ?_, ?_, ?_⟩
  · have hlt := hleft e he
    show e.level ≤ s.resLevel - 1
    omega
  · show i ≤ s.inLevel ∧ i ≤ s.resLevel - 1
    omega
  · show s.inLevel ≤ top ∧ s.resLevel - 1 ≤ top
    omega

/-- A level is cut; without nodes of the right record it is not one of its levels. -/
theorem Covers.cut {s : Dividing} {L R : List (Elt Snode)} {top i : Nat} {p : Prop} [Decidable p]
    (hc : Covers s L R top (i + 1)) (hright : p → ∀ e ∈ R, e.level < i + 1) (h : Heap Snode)
    (x : Nat) : Covers ⟨h, x, if p then s.inLevel - 1 else s.inLevel, s.resLevel⟩ L R top i := by
  obtain ⟨hcr, hcl, ⟨hlow, hlow'⟩, hhigh, hhigh'⟩ := hc
  have hin : ∀ k, k = (if p then s.inLevel - 1 else s.inLevel) →
      (∀ e ∈ R, e.level ≤ k) ∧ i ≤ k ∧ k ≤ top := by
    intro k hk
    split_ifs at hk with hy
    · refine ⟨fun e he => ?_, by omega, by omega⟩
      have hlt := hright hy e he
      omega
    · exact ⟨hk ▸ hcr, by omega, by omega⟩
  obtain ⟨hr, hlo, hhi⟩ := hin _ rfl
  exact ⟨hr, hcl, ⟨hlo, Nat.le_of_succ_le hlow'⟩, hhi, hhigh'⟩

/-- The loop over the levels above the target cuts each of them. -/
theorem divideAbove_spec {hd hd' tLevel fuel top n : Nat} {L R : List (Elt Snode)} {t : Elt Snode}
    {s : Dividing} (hv : Divided s.heap maxL hd hd' headerNode (L ++ [t]) R (tLevel + n))
    (ht : t.level = tLevel) (hpos : 0 < tLevel) (hbound : tLevel + n < maxL)
    (hL : ∀ e ∈ L, e.data.key < t.data.key) (hR : ∀ e ∈ R, t.data.key < e.data.key)
    (hmax : t.data.key < keyMax) (hfuel : L.length < fuel)
    (hat : 0 < n → At s hd L R (tLevel + n)) (hcov : Covers s (L ++ [t]) R top (tLevel + n)) :
    ∃ s', divideAbove fuel hd hd' tLevel t.data.key n s = some s' ∧
      s'.heap.info = s.heap.info ∧ Divided s'.heap maxL hd hd' headerNode (L ++ [t]) R tLevel ∧
      Covers s' (L ++ [t]) R top tLevel := by
  induction n generalizing s with
  | zero => exact ⟨s, rfl, rfl, hv, hcov⟩
  | succ n ih =>
      -- the target is below this level
      have hchain : ∀ i, tLevel < i → chain i (L ++ [t]) = chain i L := by
        intro i hi
        have htop : chain i [t] = [] := by
          refine chain_eq_nil.mpr fun e he => ?_
          rw [List.mem_singleton.mp he, ht]
          exact hi
        rw [chain_append, htop, List.append_nil]
      have hi := hchain (tLevel + n + 1) (by omega)
      have hpath := (hv.whole (tLevel + n + 1) (Nat.succ_pos _) (Nat.le_refl _)).1
      rw [hi] at hpath
      have hat := hat (Nat.succ_pos n)
      unfold divideAbove
      by_cases hnil : chain (tLevel + n + 1) L = []
      · -- the whole level stays
        obtain ⟨hx, hres⟩ : s.x = first (chain (tLevel + n + 1) R) hd ∧
            s.resLevel = tLevel + n + 1 := by
          rcases hat with ⟨hx, hres⟩ | ⟨A, B, hA, hAB, -⟩
          · exact ⟨hx.trans (congrArg (fun C => first (C ++ _) hd) hnil), hres⟩
          · exact absurd (List.append_eq_nil_iff.mp (hAB.symm.trans hnil)).1 hA
        rw [hnil, List.nil_append] at hpath
        obtain ⟨hwalk, nd, hnd, hgt⟩ := walk_stays hpath hv.header
          (fun e he => hv.node e (List.mem_append_right _ he)) hR hmax (Nat.zero_lt_of_lt hfuel)
        have hnext := (hv.whole (tLevel + n) (by omega) (Nat.le_succ _)).1.first
        rw [hx, hwalk, Option.bind_some, hnd, Option.bind_some, if_pos (keyCmp_gt.mpr hgt), hnext,
          Option.bind_some]
        refine ih (hv.skip (hi.trans hnil)) (by omega) (fun hn => .inl ⟨?_, ?_⟩)
          (hcov.skip (i := tLevel + n) hres (fun e he => ?_) _)
        · show first _ hd = first _ hd
          rw [hchain _ (by omega)]
        · show s.resLevel - 1 = tLevel + n
          omega
        · rcases List.mem_append.mp he with he | he
          · exact chain_eq_nil.mp hnil e he
          · rw [List.mem_singleton.mp he, ht]
            omega
      · -- the level is cut behind the last node before the target
        obtain ⟨A, B, hA, hAB, hx⟩ := hat.seen hnil
        have hwalk : walk s.heap (fun d => decide (keyCmp d.key t.data.key = .lt))
            (tLevel + n + 1) fuel (final hd A) = some (final hd (chain (tLevel + n + 1) L)) := by
          refine walk_chain hpath ⟨_, hv.header⟩ ?_ ?_ ?_ ?_ hfuel hAB
          · intro e he
            refine hv.node e ?_
            rw [List.append_assoc]
            rcases List.mem_append.mp he with he | he
            · exact List.mem_append_left _ he
            · exact List.mem_append_right _ (List.mem_append_right _ he)
          · exact fun e he => decide_eq_true (keyCmp_lt.mpr (hL e he))
          · exact fun e he => decide_eq_false fun h => absurd (keyCmp_lt.mp h) (hR e he).not_gt
          · exact decide_eq_false fun h => absurd (keyCmp_lt.mp h) hmax.not_gt
        obtain ⟨e, he, hfin⟩ := exists_final hnil hd
        have heL : e ∈ L := (mem_chain.mp he).1
        have heLt : e ∈ (L ++ [t]) ++ R := List.mem_append_left _ (List.mem_append_left _ heL)
        obtain ⟨nd, hnd, hdata, -⟩ := Heap.info_some (hv.node e heLt)
        have hlt : ¬ keyCmp nd.data.key t.data.key = .gt := by
          rw [hdata]
          exact fun h => absurd (keyCmp_gt.mp h) (hL e heL).not_gt
        have hlast := (Path.append_iff.mp hpath).2.first
        have hfirst := hpath.first
        rw [first_append] at hfirst
        have hsame : ∀ z, first (chain (tLevel + n + 1) L) z =
            first (chain (tLevel + n + 1) L) hd' := by
          intro z
          cases hc : chain (tLevel + n + 1) L with
          | nil => exact absurd hc hnil
          | cons e C => rfl
        obtain ⟨h', hcut, hinfo, hv'⟩ := hv.cutLevel hbound (hi ▸ hnil)
        have hcut' : cutLevel s.heap hd hd' (final hd (chain (tLevel + n + 1) L))
            (tLevel + n + 1) (first (chain (tLevel + n + 1) R) hd)
            (first (chain (tLevel + n + 1) L) hd') = some h' := by
          rw [← hi]
          exact hcut
        rw [hx, hwalk, Option.bind_some, hfin, hnd, Option.bind_some, if_neg hlt, ← hfin, hlast,
          Option.bind_some, hfirst, Option.bind_some, hsame, hcut', Option.bind_some]
        have hmem : ∀ e ∈ L, e.addr ≠ hd :=
          fun e he => hv.ne_header (List.mem_append_left _ (List.mem_append_left _ he))
        obtain ⟨s', hrun, hinfo', hdiv, hcov⟩ := ih (s := ⟨h', _, _, s.resLevel⟩) hv' (by omega)
          (fun hn => At.next hmem hnil rfl) (hcov.cut (fun hy => (hv.first_right _).mp hy) h' _)
        exact ⟨s', hrun, hinfo'.trans hinfo, hdiv, hcov⟩

/-- The loop over the target's own levels cuts each of them behind the target. -/
theorem divideAt_spec {hd hd' top n inLevel : Nat} {L R : List (Elt Snode)} {t : Elt Snode}
    {h : Heap Snode} (hv : Divided h maxL hd hd' headerNode (L ++ [t]) R n) (ht : n ≤ t.level)
    (hbound : n < maxL) (hcr : ∀ e ∈ R, e.level ≤ inLevel) (hlow : n ≤ inLevel)
    (hhigh : inLevel ≤ top) :
    ∃ h' inLevel', divideAt hd hd' t.addr n (h, inLevel) = some (h', inLevel') ∧
      h'.info = h.info ∧ Divided h' maxL hd hd' headerNode (L ++ [t]) R 0 ∧
      (∀ e ∈ R, e.level ≤ inLevel') ∧ inLevel' ≤ top := by
  induction n generalizing h inLevel with
  | zero => exact ⟨h, inLevel, rfl, rfl, hv, hcr, hhigh⟩
  | succ n ih =>
      have hpath := (hv.whole (n + 1) (Nat.succ_pos n) (Nat.le_refl _)).1
      have hchain : chain (n + 1) (L ++ [t]) = chain (n + 1) L ++ [t] := by
        rw [chain_append]
        exact congrArg _ (chain_eq_self fun e he => List.mem_singleton.mp he ▸ ht)
      have hfin : final hd (chain (n + 1) (L ++ [t])) = t.addr := by
        rw [hchain, final_concat]
      have hne : chain (n + 1) (L ++ [t]) ≠ [] := by
        rw [hchain]
        exact List.append_ne_nil_of_right_ne_nil _ (List.cons_ne_nil t [])
      have hlast := (Path.append_iff.mp hpath).2.first
      have hfirst := hpath.first
      rw [first_append] at hfirst
      have hsame : ∀ z, first (chain (n + 1) (L ++ [t])) z =
          first (chain (n + 1) (L ++ [t])) hd' := by
        intro z
        cases hc : chain (n + 1) (L ++ [t]) with
        | nil => exact absurd hc hne
        | cons e C => rfl
      -- On each level the link behind the last node of the left part is cut.
      obtain ⟨h₁, hcut, hinfo, hv₁⟩ := hv.cutLevel hbound hne
      rw [hfin] at hlast hcut
      -- The levels that the right part leaves empty are dropped from its count.
      have hin : ∀ k, k = (if first (chain (n + 1) R) hd = hd then inLevel - 1 else inLevel) →
          (∀ e ∈ R, e.level ≤ k) ∧ n ≤ k ∧ k ≤ top := by
        intro k hk
        split_ifs at hk with hy
        · have hlt := (hv.first_right _).mp hy
          refine ⟨fun e he => ?_, by omega, by omega⟩
          have := hlt e he
          omega
        · exact ⟨hk ▸ hcr, by omega, by omega⟩
      obtain ⟨hr, hlo, hhi⟩ := hin _ rfl
      obtain ⟨h', inLevel', hrun, hinfo', hdiv, hcov⟩ :=
        ih hv₁ (Nat.le_of_succ_le ht) (by omega) hr hlo hhi
      refine ⟨h', inLevel', ?_, hinfo'.trans hinfo, hdiv, hcov⟩
      rw [divideAt, hlast, Option.bind_some, hfirst, Option.bind_some, hsame, hcut,
        Option.bind_some, hrun]

/-- `skiplist_divide` at a node: the nodes up to it in a new list, the others in `in`. -/
theorem Chained.skiplistDivide {m : Mem Snode} {list : SkiplistRec} {L R : List (Elt Snode)}
    {t : Elt Snode} {fuel : Nat} (hc : Chained m list (L ++ t :: R)) (hfuel : L.length < fuel) :
    ∃ m' level level' res, SkiplistRec.skiplistDivide fuel m list t.addr =
        some (m', { list with level := level }, ⟨level', 0, 0, res⟩) ∧
      Chained m' { list with level := level } R ∧
      Chained m' ⟨level', 0, 0, res⟩ (L ++ [t]) := by
  have hlist : L ++ t :: R = (L ++ [t]) ++ R := by rw [List.append_assoc, List.singleton_append]
  have hout : m.brk ∉ list.header :: ((L ++ [t]) ++ R).map Elt.addr :=
    (hlist ▸ hc.rep).not_mem (hc.free m.brk (Nat.le_refl _))
  have hr : Rep (newHeader m.heap maxL m.brk headerNode) maxL list.header headerNode list.level
      ((L ++ [t]) ++ R) := (hlist ▸ hc.rep).newHeader_other headerNode hout
  have hr' : Rep (newHeader m.heap maxL m.brk headerNode) maxL m.brk headerNode 1 [] :=
    Rep.newHeader m.heap m.brk headerNode (by decide)
  have ht : t ∈ (L ++ [t]) ++ R := List.mem_append_left _ (List.mem_append_right _ (by simp))
  obtain ⟨hpos, hlev⟩ := hr.levels t ht
  obtain ⟨n, hn⟩ := Nat.exists_eq_add_of_le hlev
  have hv := Divided.start hr hr' hout
  -- the order of the list around the target
  have hord := hc.ordered.increasing
  rw [Skiplist.keys, List.map_map, List.map_append, List.map_cons, List.pairwise_append] at hord
  have hL : ∀ e ∈ L, e.data.key < t.data.key := fun e he =>
    hord.2.2 _ (List.mem_map_of_mem he) _ (List.mem_cons_self ..)
  have hR : ∀ e ∈ R, t.data.key < e.data.key := fun e he =>
    (List.pairwise_cons.mp hord.2.1).1 _ (List.mem_map_of_mem he)
  have hmax : t.data.key < keyMax := by
    refine lt_keyMax (hc.ordered.valid _ ?_)
    exact List.mem_map_of_mem (List.mem_map_of_mem (hlist ▸ ht))
  obtain ⟨x, hx⟩ : ∃ x, x = first (chain list.level ((L ++ [t]) ++ R)) list.header := ⟨_, rfl⟩
  have hnext := (hr.path list.level hr.positive hr.bounded).first
  rw [← hx] at hnext
  rw [hn] at hv
  have hat : 0 < n → At ⟨newHeader m.heap maxL m.brk headerNode, x, list.level, list.level⟩
      list.header L R (t.level + n) := by
    intro hn0
    refine .inl ⟨?_, hn⟩
    have htop : chain list.level [t] = [] := by
      refine chain_eq_nil.mpr fun e he => ?_
      rw [List.mem_singleton.mp he]
      omega
    show x = _
    rw [hx, ← hn, chain_append, chain_append, htop, List.append_nil]
  have hcov : Covers ⟨newHeader m.heap maxL m.brk headerNode, x, list.level, list.level⟩
      (L ++ [t]) R list.level (t.level + n) := by
    rw [← hn]
    constructor
    · exact fun e he => (hr.levels e (List.mem_append_right _ he)).2
    · exact fun e he => (hr.levels e (List.mem_append_left _ he)).2
    · exact ⟨Nat.le_refl _, Nat.le_refl _⟩
    · exact ⟨Nat.le_refl _, Nat.le_refl _⟩
  obtain ⟨s, hrun, hinfo, hdiv, hcov⟩ := divideAbove_spec
    (s := ⟨newHeader m.heap maxL m.brk headerNode, x, list.level, list.level⟩) hv rfl hpos
    (hn ▸ hr.bounded) hL hR hmax hfuel hat hcov
  obtain ⟨h', inLevel, hrun', hinfo', hdiv', hcr, hhigh⟩ := divideAt_spec hdiv (Nat.le_refl _)
    (Nat.lt_of_le_of_lt hlev hr.bounded) hcov.right hcov.low.1 hcov.high.1
  have hbound := hr.bounded
  obtain ⟨level, hlevel⟩ : ∃ level, level = if inLevel = 0 then 1 else inLevel := ⟨_, rfl⟩
  have hin : 0 < level ∧ level < maxL ∧ inLevel ≤ level := by
    have htwo : 1 < maxL := by decide
    split_ifs at hlevel <;> omega
  have hlevR : ∀ e ∈ R, 0 < e.level ∧ e.level ≤ level := fun e he =>
    ⟨(hr.levels e (List.mem_append_right _ he)).1, (hcr e he).trans hin.2.2⟩
  have hlevL : ∀ e ∈ L ++ [t], 0 < e.level ∧ e.level ≤ s.resLevel := fun e he =>
    ⟨(hr.levels e (List.mem_append_left _ he)).1, hcov.left e he⟩
  obtain ⟨hrepR, hrepL⟩ := hdiv'.rep hlevR hlevL hin.1 (hpos.trans_le hcov.low.2) hin.2.1
    (hcov.high.2.trans_lt hbound)
  have hfree : (⟨h', m.brk + 1⟩ : Mem Snode).Free := by
    refine hc.rep.free hc.free (Nat.le_succ _) fun b hb _ => ?_
    rw [hinfo', hinfo]
    exact congrArg (Option.map _) (newHeader_of_ne (Nat.ne_of_gt hb))
  have hsubL : List.Sublist (L ++ [t]) (L ++ t :: R) := by
    rw [hlist]
    exact List.sublist_append_left ..
  have hsubR : List.Sublist R (L ++ t :: R) := by
    rw [hlist]
    exact List.sublist_append_right ..
  refine ⟨⟨h', m.brk + 1⟩, level, s.resLevel, m.brk, ?_, ⟨hrepR, hfree, ?_, ?_⟩,
    ⟨hrepL, hfree, ?_, ?_⟩⟩
  · have hne : t.addr ≠ list.header := hr.ne_header ht
    obtain ⟨nd, hnd, hdata, hndlev⟩ := Heap.info_some (hr.node t ht)
    have hcount : list.level - t.level = n := by omega
    unfold SkiplistRec.skiplistDivide SkiplistRec.skiplistInit
    dsimp only
    rw [if_neg hne, hnd, Option.bind_some, hnext, Option.bind_some, hdata, hndlev, hcount, hrun,
      Option.bind_some, hrun', hlevel]
    rfl
  · exact hc.ordered.sublist (hsubR.map Elt.data)
  · exact fun e he => hc.valued e (hsubR.subset he)
  · exact hc.ordered.sublist (hsubL.map Elt.data)
  · exact fun e he => hc.valued e (hsubL.subset he)

/-! ## Section 4: Cutting off a header -/

/-- A node of the list and the one after it, which at the end is the header. -/
theorem Chained.step {m : Mem Snode} {list : SkiplistRec} {L R : List (Elt Snode)} {e : Elt Snode}
    (hc : Chained m list (L ++ e :: R)) :
    ∃ nd nd', m.heap e.addr = some nd ∧ nd.data = e.data ∧
      m.heap.next e.addr 1 = some (first R list.header) ∧
      m.heap (first R list.header) = some nd' ∧
      keyLen nd'.data.key = nextKeyLen (R.map Elt.data) := by
  obtain ⟨nd, hnd, hdata, -⟩ :=
    Heap.info_some (hc.rep.node e (List.mem_append_right _ (List.mem_cons_self ..)))
  have hlist : L ++ e :: R = (L ++ [e]) ++ R := by rw [List.append_assoc, List.singleton_append]
  obtain ⟨nd', hnext, hnd', hdata'⟩ := (hlist ▸ hc).next_descend
  rw [final_concat] at hnext
  refine ⟨nd, nd', hnd, hdata, hnext, hnd', ?_⟩
  rw [hdata']
  cases R with
  | nil => rfl
  | cons e' R => rfl

theorem cutNode_succ {m : Mem Snode} {list : SkiplistRec} {L R : List (Elt Snode)} {e : Elt Snode}
    (hc : Chained m list (L ++ e :: R)) (fuel length idx : Nat) :
    cutNode m list.header (fuel + 1) e.addr length idx =
      if sizeLimit ≤ length + keyLen e.data.key + nextKeyLen (R.map Elt.data) ∨ numLimit ≤ idx + 1
      then some (e.addr, length + keyLen e.data.key, idx + 1)
      else if first R list.header = list.header then
        some (first R list.header, length + keyLen e.data.key, idx + 1)
      else
        cutNode m list.header fuel (first R list.header) (length + keyLen e.data.key)
          (idx + 1) := by
  obtain ⟨nd, nd', hnd, hdata, hnext, hnd', hkey⟩ := hc.step
  rw [cutNode, hnd, Option.bind_some, hnext, Option.bind_some, hnd', Option.bind_some, hdata, hkey]

theorem cutCount_cons (length idx : Nat) (n : Snode) (l : Skiplist) :
    cutCount length idx (n :: l) =
      if sizeLimit ≤ length + keyLen n.key + nextKeyLen l ∨ numLimit ≤ idx + 1 then idx + 1
      else cutCount (length + keyLen n.key) (idx + 1) l := rfl

/-- The loop of `skiplist_cutting_header` stops at a node, before the list ends. -/
theorem cutNode_spec {m : Mem Snode} {list : SkiplistRec} {l R : List (Elt Snode)}
    (hc : Chained m list l)
    (hbig : sizeLimit ≤ allLength (l.map Elt.data) ∨ numLimit ≤ l.length) :
    ∀ {L : List (Elt Snode)} {e : Elt Snode} {fuel : Nat}, l = L ++ e :: R → R.length < fuel →
      ∃ L' t R', l = L' ++ t :: R' ∧
        cutNode m list.header fuel e.addr (allLength (L.map Elt.data)) L.length =
          some (t.addr, allLength ((L' ++ [t]).map Elt.data), L'.length + 1) ∧
        cutCount (allLength (L.map Elt.data)) L.length ((e :: R).map Elt.data) = L'.length + 1 := by
  induction R with
  | nil =>
      intro L e fuel hl hfuel
      obtain ⟨fuel, rfl⟩ := Nat.exists_eq_succ_of_ne_zero (Nat.ne_of_gt hfuel)
      have hlen : allLength ((L ++ [e]).map Elt.data) =
          allLength (L.map Elt.data) + keyLen e.data.key := by
        rw [List.map_append, allLength_append]
        rfl
      -- the last node passes a limit, since the whole list does
      have hstop : sizeLimit ≤ allLength (L.map Elt.data) + keyLen e.data.key +
          nextKeyLen (([] : List (Elt Snode)).map Elt.data) ∨ numLimit ≤ L.length + 1 := by
        rw [hl, hlen, List.length_append] at hbig
        rcases hbig with h | h
        · exact .inl (Nat.le_trans h (Nat.le_add_right ..))
        · exact .inr h
      refine ⟨L, e, [], hl, ?_, ?_⟩
      · rw [cutNode_succ (hl ▸ hc), if_pos hstop, hlen]
      · rw [List.map_cons, cutCount_cons, if_pos hstop]
  | cons e' R ih =>
      intro L e fuel hl hfuel
      obtain ⟨fuel, rfl⟩ := Nat.exists_eq_succ_of_ne_zero (Nat.ne_of_gt (Nat.zero_lt_of_lt hfuel))
      have hlen : allLength ((L ++ [e]).map Elt.data) =
          allLength (L.map Elt.data) + keyLen e.data.key := by
        rw [List.map_append, allLength_append]
        rfl
      rw [cutNode_succ (hl ▸ hc), show (e :: e' :: R).map Elt.data =
        e.data :: (e' :: R).map Elt.data from rfl, cutCount_cons]
      by_cases hstop : sizeLimit ≤ allLength (L.map Elt.data) + keyLen e.data.key +
          nextKeyLen ((e' :: R).map Elt.data) ∨ numLimit ≤ L.length + 1
      · rw [if_pos hstop, if_pos hstop]
        exact ⟨L, e, e' :: R, hl, by rw [hlen], rfl⟩
      · have hl' : l = (L ++ [e]) ++ e' :: R := by
          rw [hl, List.append_assoc, List.singleton_append]
        have he' : e' ∈ l := hl' ▸ List.mem_append_right _ (List.mem_cons_self ..)
        obtain ⟨L', t, R', hsplit, hrun, hcount⟩ := ih hl' (Nat.lt_of_succ_lt_succ hfuel)
        rw [hlen, List.length_append, List.length_singleton] at hrun hcount
        rw [if_neg hstop, if_neg hstop, if_neg (show first (e' :: R) list.header ≠ list.header from
          hc.rep.ne_header he')]
        exact ⟨L', t, R', hsplit, hrun, hcount⟩

/-- `skiplist_cutting_header` on a memtable: nothing, or the list that `Memtable` cuts off,
    with the counts of both lists. -/
theorem Chained.skiplistCuttingHeader {m : Mem Snode} {list : SkiplistRec} {l : List (Elt Snode)}
    {fuel : Nat} (hc : Chained m list l) (hn : Counted list l) (hfuel : l.length < fuel) :
    (skiplistCuttingHeader (l.map Elt.data) = none ∧
      SkiplistRec.skiplistCuttingHeader fuel m list = some (m, list, none)) ∨
    ∃ L t R m' list' res, l = L ++ t :: R ∧
      skiplistCuttingHeader (l.map Elt.data) =
        some ((L ++ [t]).map Elt.data, R.map Elt.data) ∧
      SkiplistRec.skiplistCuttingHeader fuel m list = some (m', list', some res) ∧
      Chained m' list' R ∧ Counted list' R ∧
      Chained m' res (L ++ [t]) ∧ Counted res (L ++ [t]) := by
  unfold LsmTree.skiplistCuttingHeader SkiplistRec.skiplistCuttingHeader
  rw [hn.size, hn.allLength, List.length_map]
  by_cases hsmall : allLength (l.map Elt.data) < sizeLimit ∧ l.length < numLimit
  · rw [if_pos hsmall, if_pos hsmall]
    exact .inl ⟨rfl, rfl⟩
  · rw [if_neg hsmall, if_neg hsmall]
    have hbig : sizeLimit ≤ allLength (l.map Elt.data) ∨ numLimit ≤ l.length := by
      rw [not_and_or, not_lt, not_lt] at hsmall
      exact hsmall
    cases hl : l with
    | nil =>
        rw [hl] at hbig
        exact absurd hbig (by decide)
    | cons e S =>
        rw [hl] at hc hbig hfuel hn
        obtain ⟨L, t, R, hsplit, hcut, hcount⟩ := cutNode_spec hc hbig (L := []) rfl
          (Nat.lt_of_succ_lt hfuel)
        have hfirst : m.heap.next list.header 1 = some e.addr := hc.rep.next_final (L := [])
        have hne : e.addr ≠ list.header := hc.rep.ne_header (List.mem_cons_self ..)
        have hlenL : L.length < fuel := by
          rw [hsplit, List.length_append] at hfuel
          omega
        rw [hsplit] at hc hn
        obtain ⟨m', level, level', res, hdiv, hcR, hcL⟩ := hc.skiplistDivide hlenL
        -- What is cut off is subtracted from both counters of the list.
        have hsum : allLength ((e :: S).map Elt.data) =
            allLength ((L ++ [t]).map Elt.data) + allLength (R.map Elt.data) := by
          rw [hsplit, ← allLength_append, ← List.map_append, List.append_assoc,
            List.singleton_append]
        have hsize : (e :: S).length = L.length + 1 + R.length := by
          rw [hsplit, List.length_append, List.length_cons]
          omega
        rw [← hsplit] at hn
        right
        refine ⟨L, t, R, m', ⟨level, list.size - (L.length + 1), list.allLength -
            allLength ((L ++ [t]).map Elt.data), list.header⟩,
          ⟨level', L.length + 1, allLength ((L ++ [t]).map Elt.data), res⟩, hsplit, ?_, ?_,
          ⟨hcR.rep, hcR.free, hcR.ordered, hcR.valued⟩, ⟨?_, ?_⟩,
          ⟨hcL.rep, hcL.free, hcL.ordered, hcL.valued⟩, ⟨?_, rfl⟩⟩
        · have hc0 : cutCount 0 0 ((e :: S).map Elt.data) = L.length + 1 := hcount
          rw [hc0, hsplit, List.map_append, List.map_cons, List.map_append]
          have hlenm : (L.map Elt.data).length + 1 = L.length + 1 := by rw [List.length_map]
          show some (List.take (L.length + 1) _, List.drop (L.length + 1) _) = _
          rw [← hlenm, List.take_length_add_append, List.drop_length_add_append]
          rfl
        · rw [hfirst, Option.bind_some, if_neg hne]
          show Option.bind (cutNode m list.header fuel e.addr 0 0) _ = _
          rw [show cutNode m list.header fuel e.addr 0 0 = _ from hcut, Option.bind_some]
          show Option.map _ (SkiplistRec.skiplistDivide fuel m list t.addr) = _
          rw [hdiv, Option.map_some, hn.size, hn.allLength]
        · show list.size - (L.length + 1) = R.length
          rw [hn.size, hsize]
          omega
        · show list.allLength - allLength ((L ++ [t]).map Elt.data) = allLength (R.map Elt.data)
          rw [hn.allLength, hsum]
          omega
        · show L.length + 1 = (L ++ [t]).length
          rw [List.length_append, List.length_singleton]

/-! ## Section 5: The split of a memtable -/

/-- A new list is well formed, and each insertion keeps it so. -/
theorem chained_skiplistInit {m : Mem Snode} (hm : m.Free) :
    Chained (SkiplistRec.skiplistInit m).1 (SkiplistRec.skiplistInit m).2 [] ∧
      Counted (SkiplistRec.skiplistInit m).2 [] := by
  refine ⟨⟨Rep.newHeader m.heap m.brk headerNode (by decide), fun b hb => ?_, MemOrdered.nil, ?_⟩,
    rfl, rfl⟩
  · have hbrk : m.brk < b := hb
    exact (newHeader_of_ne hbrk.ne').trans (hm b hbrk.le)
  · exact fun e he => absurd he List.not_mem_nil

/-- `skiplist_find` and `skiplist_insert` do what they should. The result of
    `skiplist_divide` has `size` 0 until `skiplist_cutting_header` sets it, and
    `skiplist_find` asks only whether `size` is 0. -/
structure Works (m : Mem Snode) (list : SkiplistRec) (l : List (Elt Snode)) : Prop where
  find : ∀ key fuel size, key ≠ keyMax → l.length < fuel → (size = 0 → l = []) →
    ∃ r, SkiplistRec.skiplistFind fuel m { list with size := size } key = some r ∧
      r.map (nodeAt m) = (skiplistFind (l.map Elt.data) key).map some
  insert : ∀ key fuel bytes rand, keyValCheck key = true → l.length < fuel →
    ∃ m' list' x l', SkiplistRec.skiplistInsert fuel m list key bytes rand = some (m', list', x) ∧
      Chained m' list' l' ∧
      skiplistInsert key bytes (l.map Elt.data) = some (l'.map Elt.data)

theorem Chained.works {m : Mem Snode} {list : SkiplistRec} {l : List (Elt Snode)}
    (hc : Chained m list l) : Works m list l where
  find key fuel size hkey hfuel hsize := by
    have hc' : Chained m { list with size := size } l := ⟨hc.rep, hc.free, hc.ordered, hc.valued⟩
    exact hc'.skiplistFind hkey hfuel hsize
  insert key fuel bytes rand hkey hfuel := by
    obtain ⟨m', list', x, l', hrun, hc', hins, -⟩ := hc.skiplistInsert hkey hfuel bytes rand
    exact ⟨m', list', x, l', hrun, hc', hins⟩

/-- A memtable divided at any of its nodes is two memtables, of the nodes up to it and of the
    others; `skiplist_cutting_header` divides it so and sets both counts. -/
theorem memtable_split {m : Mem Snode} {list : SkiplistRec} {l : List (Elt Snode)} {fuel : Nat}
    (hc : Chained m list l) (hfuel : l.length < fuel) :
    (∀ L t R, l = L ++ t :: R → ∃ m' list' res,
      SkiplistRec.skiplistDivide fuel m list t.addr = some (m', list', res) ∧
      Chained m' list' R ∧ Chained m' res (L ++ [t]) ∧ Works m' list' R ∧ Works m' res (L ++ [t])) ∧
    (Counted list l →
      (allLength (l.map Elt.data) < sizeLimit ∧ l.length < numLimit ∧
        SkiplistRec.skiplistCuttingHeader fuel m list = some (m, list, none)) ∨
      ∃ L t R m' list' res, l = L ++ t :: R ∧
        SkiplistRec.skiplistCuttingHeader fuel m list = some (m', list', some res) ∧
        Chained m' list' R ∧ Chained m' res (L ++ [t]) ∧ Works m' list' R ∧
        Works m' res (L ++ [t]) ∧ Counted list' R ∧ Counted res (L ++ [t])) := by
  constructor
  · rintro L t R rfl
    have hlen : L.length < fuel := by
      rw [List.length_append] at hfuel
      omega
    obtain ⟨m', level, level', res, hrun, hcR, hcL⟩ := hc.skiplistDivide hlen
    exact ⟨m', _, _, hrun, hcR, hcL, hcR.works, hcL.works⟩
  · intro hn
    rcases hc.skiplistCuttingHeader hn hfuel with ⟨hnone, hrun⟩ |
      ⟨L, t, R, m', list', res, hsplit, -, hrun, hcR, hnR, hcL, hnL⟩
    -- The memtable is below both limits: nothing is cut.
    · left
      unfold LsmTree.skiplistCuttingHeader at hnone
      split_ifs at hnone with hsmall
      rw [List.length_map] at hsmall
      exact ⟨hsmall.1, hsmall.2, hrun⟩
    · exact .inr ⟨L, t, R, m', list', res, hsplit, hrun, hcR, hcL, hcR.works, hcL.works, hnR, hnL⟩

/-- A memtable of two nodes, divided at the first. -/
theorem memtable_split_two : ∃ m list a b, Chained m list [a, b] ∧
    ∃ m' list' res, SkiplistRec.skiplistDivide 3 m list a.addr = some (m', list', res) ∧
      Chained m' list' [b] ∧ Chained m' res [a] := by
  obtain ⟨hc₀, -⟩ := chained_skiplistInit (m := ⟨fun _ => none, 0⟩) fun _ _ => rfl
  obtain ⟨m₁, list₁, -, l₁, -, hc₁, hins₁, -⟩ := hc₀.skiplistInsert
    (show keyValCheck (wideKey 1) = true by decide) Nat.one_pos 512 fun _ => 0
  have h₁ : l₁.map Elt.data = [⟨wideKey 1, 4294967295, some 1⟩] :=
    (Option.some.inj hins₁).symm
  obtain ⟨m₂, list₂, -, l₂, -, hc₂, hins₂, -⟩ := hc₁.skiplistInsert
    (show keyValCheck (wideKey 2) = true by decide) (Nat.lt_succ_self _) 512 fun _ => 1
  rw [h₁] at hins₂
  have hrun : skiplistInsert (wideKey 2) 512 [⟨wideKey 1, 4294967295, some 1⟩] =
      some [⟨wideKey 1, 4294967295, some 1⟩, ⟨wideKey 2, 4294967295, some 1⟩] := by
    have hlt : keyCmp (wideKey 1) (wideKey 2) = .lt := keyCmp_lt.mpr (wideKey_lt (by decide))
    rw [skiplistInsert, if_pos hlt]
    rfl
  have hlen : l₂.length = 2 := by
    have h₂ := Option.some.inj (hins₂.symm.trans hrun)
    have hmap : (l₂.map Elt.data).length = l₂.length := List.length_map _
    rw [← hmap, h₂]
    rfl
  obtain ⟨a, b, rfl⟩ := List.length_eq_two.mp hlen
  obtain ⟨m', list', res, hdiv, hcR, hcL, -⟩ :=
    (memtable_split hc₂ (Nat.lt_succ_self _)).1 [] a [b] rfl
  exact ⟨m₂, list₂, a, b, hc₂, m', list', res, hdiv, hcR, hcL⟩

end AggreKV.LsmTree
