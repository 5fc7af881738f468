import AggreKV.Lib.Lists
import AggreKV.HashKv.Settings
import AggreKV.Lib.SkipList
import Mathlib.Data.List.Dedup

/-! # The write buffer's skiplist in memory

    `skiplist.c` of the hash store on nodes with arrays of forward pointers,
    which `WriteBuffer` takes as the list of its entries.

    * `Holds`: a record and the memory hold nodes in the order of `KEYCMP`.
    * `Holds.skiplistFind`, `Holds.skiplistInsert`: what the two functions do
      with a key other than `key_max`, whatever levels `getLevel` draws.
    * `skiplist_lastWriter_iff`: every sequence of insertions gives the map of
      the last values exactly if `key_max`, the key of the header, is neither
      inserted nor searched for. -/

namespace AggreKV.HashKv

open SkipList

/-! ## Section 1: The functions -/

/-- `MAX_L` and `PROB`. -/
def maxL : Nat := 30

def prob : Nat := 4

/-- `value_set`. -/
structure ValueSet where
  value : List UInt8
  length : Nat
  deriving DecidableEq

/-- `skiplist_insert` counts the length in pieces. -/
def ValueSet.inPieces (v : ValueSet) : ValueSet :=
  { v with length := v.length / 1024 + if v.length % 1024 ≠ 0 then 1 else 0 }

structure Snode where
  key : Key
  ppa : Nat
  value : Option ValueSet
  isvalid : Bool
  deriving DecidableEq

/-- The heap of the nodes. -/
abbrev SnodeMem := SkipList.Mem Snode

/-- The header's node; what `skiplist_init` leaves unset is never read. -/
def headerNode : Snode := ⟨keyMax, 0, none, false⟩

/-- `skiplist`; `all_length` and `data_size` are never read. -/
structure Skiplist where
  level : Nat
  size : Nat
  header : Nat
  deriving DecidableEq

/-- `KEYTEST`. -/
def keytest (a b : Key) : Bool :=
  if a.len ≠ b.len then false else decide (memcmp a.bytes b.bytes = 0)

/-- `getLevel`, with the outcomes of `rand`. -/
def getLevel (rand : Nat → Nat) : Nat := drawLevel prob maxL rand maxL 1

def skiplistInit (m : SnodeMem) : SnodeMem × Skiplist :=
  (⟨newHeader m.heap maxL m.brk headerNode, m.brk + 1⟩, ⟨1, 0, m.brk⟩)

/-- `skiplist_find`; the result `none` is `NULL`. -/
def skiplistFind (fuel : Nat) (m : SnodeMem) (list : Skiplist) (key : Key) : Option (Option Nat) :=
  if list.size = 0 then some none
  else
    (descend m.heap (fun n => decide (keycmp n.key key < 0)) fuel list.level list.header
        fun _ => 0).bind fun (x, _) =>
      (m.heap.next x 1).bind fun y => (m.heap y).bind fun nd =>
        if keytest nd.data.key key then some (some y) else some none

/-- `skiplist_insert`: the memory, the list and the node. -/
def skiplistInsert (fuel : Nat) (m : SnodeMem) (list : Skiplist) (key : Key) (value : ValueSet)
    (deletef : Bool) (rand : Nat → Nat) : Option (SnodeMem × Skiplist × Nat) :=
  (descend m.heap (fun n => decide (keycmp n.key key < 0)) fuel list.level list.header
      fun _ => 0).bind fun (x, update) =>
    (m.heap.next x 1).bind fun x => (m.heap x).bind fun nd =>
      if keytest key nd.data.key then
        -- `data_size` loses the length of the old value, which must not be `NULL`
        nd.data.value.bind fun _ =>
          (m.heap.setData x { nd.data with
            value := some value.inPieces, isvalid := deletef }).map fun h => (⟨h, m.brk⟩, list, x)
      else
        let level := getLevel rand
        let update := fun i => if list.level < i ∧ i ≤ level then list.header else update i
        (insertNode m.heap update m.brk level
            ⟨key, 4294967295, some value.inPieces, deletef⟩).map fun h =>
          (⟨h, m.brk + 1⟩, { list with level := max list.level level, size := list.size + 1 },
            m.brk)

/-- `skiplist_get_next` of an iterator at `now`. -/
def skiplistGetNext (m : SnodeMem) (list : Skiplist) (now : Nat) : Option (Option Nat) :=
  (m.heap.next now 1).map fun y => if y = list.header then none else some y

/-- The nodes an iterator returns until `NULL`. -/
def skiplistNodes (m : SnodeMem) (list : Skiplist) : Nat → Nat → Option (List Nat)
  | 0, _ => none
  | n + 1, now =>
      (skiplistGetNext m list now).bind fun
        | none => some []
        | some y => (skiplistNodes m list n y).map (y :: ·)

/-! ## Section 2: Sequences of insertions -/

/-- The arguments of a call, and what `rand` returns in it. -/
structure Insertion where
  key : Key
  value : ValueSet
  deletef : Bool
  rand : Nat → Nat

def runInsertions (fuel : Nat) (ins : List Insertion) (s : SnodeMem × Skiplist) :
    Option (SnodeMem × Skiplist) :=
  ins.foldlM (fun s i =>
    (skiplistInsert fuel s.1 s.2 i.key i.value i.deletef i.rand).map fun r => (r.1, r.2.1)) s

/-- A key with its value. -/
abbrev Entry := Key × Option ValueSet

def look (m : SnodeMem) (a : Nat) : Option Entry :=
  (m.heap a).map fun nd => (nd.data.key, nd.data.value)

structure Observation where
  found : Option Entry
  entries : List Entry
  size : Nat
  deriving DecidableEq

/-- What a search for `k`, an iteration and `size` show after a sequence of insertions. -/
def observe (fuel : Nat) (ins : List Insertion) (k : Key) : Option Observation :=
  (runInsertions fuel ins (skiplistInit ⟨fun _ => none, 0⟩)).bind fun (m, list) =>
    (skiplistFind fuel m list k).bind fun r =>
      (skiplistNodes m list fuel list.header).bind fun as =>
        (as.mapM (look m)).bind fun entries =>
          (r.mapM (look m)).map fun found => ⟨found, entries, list.size⟩

/-- The value of the last insertion of each key. -/
def lastWrite (ins : List Insertion) : Key → Option ValueSet :=
  ins.foldl (fun f i => Function.update f i.key (some i.value.inPieces)) fun _ => none

/-- Whatever is drawn, what is seen is the ordered map of the last values. -/
def LastWriterWins (fuel : Nat) (ins : List Insertion) (k : Key) : Prop :=
  ∃ entries : List Entry,
    (entries.Pairwise fun a b => keycmp a.1 b.1 < 0) ∧
    (∀ e ∈ entries, e.2 = lastWrite ins e.1) ∧
    (entries.map Prod.fst).Perm (ins.map Insertion.key).dedup ∧
    ∀ ins' : List Insertion,
      (ins'.map fun i => (i.key, i.value)) = (ins.map fun i => (i.key, i.value)) →
      observe fuel ins' k = some ⟨(lastWrite ins k).map fun v => (k, some v), entries,
        (ins.map Insertion.key).dedup.length⟩

/-! ## Section 3: A list in memory -/

/-- The test for equal keys. -/
theorem keytest_iff {a b : Key} : keytest a b = true ↔ a = b := by
  unfold keytest
  by_cases hlen : a.len = b.len
  · rw [if_neg (not_not.mpr hlen), decide_eq_true_eq]
    constructor
    · intro h
      have hbytes := eq_of_memcmp hlen h
      cases a
      cases b
      simp_all
    · rintro rfl
      exact memcmp_self _
  · rw [if_pos hlen]
    refine iff_of_false Bool.false_ne_true fun heq => hlen ?_
    rw [heq]

/-- The header's key is above every other. -/
theorem not_keyMax_lt (key : Key) : ¬ keycmp keyMax key < 0 := by
  rw [keycmp_lt_iff]
  refine not_replicate_lt (fun b hb => ?_) key.len_le
  have hle : b.toNat ≤ 255 := Nat.le_of_lt_succ b.toNat_lt
  exact absurd (UInt8.lt_iff_toNat_lt.mp hb) (Nat.not_lt.mpr hle)

/-- The nodes of `l` are linked in the order of their keys; none has the header's. -/
structure Holds (m : SnodeMem) (list : Skiplist) (l : List (Elt Snode)) : Prop where
  rep : Rep m.heap maxL list.header headerNode list.level l
  free : m.Free
  ordered : l.Pairwise fun a b => keycmp a.data.key b.data.key < 0
  below : ∀ e ∈ l, e.data.key ≠ keyMax
  valued : ∀ e ∈ l, e.data.value ≠ none
  size : list.size = l.length

def entries (l : List (Elt Snode)) : List Entry := l.map fun e => (e.data.key, e.data.value)

/-- A new list is empty. -/
theorem holds_skiplistInit {m : SnodeMem} (hm : m.Free) :
    Holds (skiplistInit m).1 (skiplistInit m).2 [] := by
  refine ⟨Rep.newHeader m.heap m.brk headerNode (by decide), fun b hb => ?_, List.Pairwise.nil,
    ?_, ?_, rfl⟩
  · have hbrk : m.brk < b := hb
    exact (newHeader_of_ne (Nat.ne_of_gt hbrk)).trans (hm b (Nat.le_of_lt hbrk))
  · exact fun e he => absurd he List.not_mem_nil
  · exact fun e he => absurd he List.not_mem_nil

/-- The nodes before a key, and the others. -/
theorem exists_split {l : List (Elt Snode)}
    (ho : l.Pairwise fun a b => keycmp a.data.key b.data.key < 0) (key : Key) :
    ∃ L R, l = L ++ R ∧ (∀ e ∈ L, keycmp e.data.key key < 0) ∧
      ∀ e ∈ R, ¬ keycmp e.data.key key < 0 :=
  exists_cut (ho.imp keycmp_trans)

/-- A search stops behind the nodes before the key. -/
theorem Holds.descend {m : SnodeMem} {list : Skiplist} {L R : List (Elt Snode)} {key : Key}
    {fuel : Nat} (hh : Holds m list (L ++ R)) (hL : ∀ e ∈ L, keycmp e.data.key key < 0)
    (hR : ∀ e ∈ R, ¬ keycmp e.data.key key < 0) (hfuel : L.length < fuel) :
    ∃ u, SkipList.descend m.heap (fun n => decide (keycmp n.key key < 0)) fuel list.level
        list.header (fun _ => 0) = some (final list.header L, u) ∧
      ∀ j, 0 < j → j ≤ list.level → u j = final list.header (chain j L) := by
  refine hh.rep.descend ?_ ?_ ?_ hfuel _
  · exact fun e he => decide_eq_true (hL e he)
  · exact fun e he => decide_eq_false (hR e he)
  · exact decide_eq_false (not_keyMax_lt key)

/-- The node a search ends before. -/
theorem Holds.next_descend {m : SnodeMem} {list : Skiplist} {L R : List (Elt Snode)}
    (hh : Holds m list (L ++ R)) :
    ∃ nd, m.heap.next (final list.header L) 1 = some (first R list.header) ∧
      m.heap (first R list.header) = some nd ∧
      nd.data = (R.head?.map Elt.data).getD headerNode := by
  have hnext := hh.rep.next_final
  cases R with
  | nil =>
      obtain ⟨nd, hnd, hdata, -⟩ := Heap.info_some hh.rep.header
      exact ⟨nd, hnext, hnd, hdata⟩
  | cons e R =>
      obtain ⟨nd, hnd, hdata, -⟩ :=
        Heap.info_some (hh.rep.node e (List.mem_append_right _ (List.mem_cons_self ..)))
      exact ⟨nd, hnext, hnd, hdata⟩

/-- What stands at a node. -/
theorem Holds.look {m : SnodeMem} {list : Skiplist} {l : List (Elt Snode)} (hh : Holds m list l)
    {e : Elt Snode} (he : e ∈ l) : look m e.addr = some (e.data.key, e.data.value) := by
  obtain ⟨nd, hnd, hdata, -⟩ := Heap.info_some (hh.rep.node e he)
  rw [HashKv.look, hnd, ← hdata]
  rfl

/-! ## Section 4: Searches and iteration -/

/-- With a key other than the header's, a search finds its node or nothing; in an empty list
    it finds nothing. -/
theorem Holds.skiplistFind {m : SnodeMem} {list : Skiplist} {l : List (Elt Snode)} {key : Key}
    {fuel : Nat} (hh : Holds m list l) (hkey : key = keyMax → l = []) (hfuel : l.length < fuel) :
    (∃ e ∈ l, e.data.key = key ∧ skiplistFind fuel m list key = some (some e.addr)) ∨
      (∀ e ∈ l, e.data.key ≠ key) ∧ skiplistFind fuel m list key = some none := by
  unfold HashKv.skiplistFind
  rw [hh.size]
  by_cases h0 : l.length = 0
  · right
    rw [if_pos h0, List.length_eq_zero_iff.mp h0]
    exact ⟨fun e he => absurd he List.not_mem_nil, rfl⟩
  · obtain ⟨L, R, rfl, hL, hR⟩ := exists_split hh.ordered key
    have hlen : L.length < fuel := by
      rw [List.length_append] at hfuel
      omega
    obtain ⟨u, hdesc, -⟩ := hh.descend hL hR hlen
    obtain ⟨nd, hnext, hnd, hdata⟩ := hh.next_descend
    -- The nodes before are below the key.
    have hneL : ∀ e ∈ L, e.data.key ≠ key := by
      intro e he heq
      have hlt := hL e he
      rw [heq, keycmp_self] at hlt
      exact absurd hlt (by decide)
    rw [if_neg h0, hdesc, Option.bind_some]
    dsimp only
    rw [hnext, Option.bind_some, hnd, Option.bind_some, hdata]
    cases R with
    | nil =>
        right
        rw [List.append_nil]
        refine ⟨hneL, if_neg fun h => h0 ?_⟩
        exact congrArg List.length (hkey (keytest_iff.mp h).symm)
    | cons e S =>
        show (∃ e' ∈ L ++ e :: S, _ ∧ (if keytest e.data.key key = true then _ else _) = _) ∨
          _ ∧ (if keytest e.data.key key = true then _ else _) = _
        by_cases htest : keytest e.data.key key = true
        · left
          exact ⟨e, List.mem_append_right _ (List.mem_cons_self ..), keytest_iff.mp htest,
            if_pos htest⟩
        · right
          refine ⟨fun x hx heq => ?_, if_neg htest⟩
          rcases List.mem_append.mp hx with hx | hx
          · exact hneL x hx heq
          · -- the nodes behind the first one are above the key
            have hne : e.data.key ≠ key := fun h => htest (keytest_iff.mpr h)
            have hgt := keycmp_total (hR e (List.mem_cons_self ..)) hne
            rcases List.mem_cons.mp hx with rfl | hx
            · exact hne heq
            · have hord := (List.pairwise_append.mp hh.ordered).2.1
              have hxe := (List.pairwise_cons.mp hord).1 x hx
              have hlt := keycmp_trans hgt hxe
              rw [heq, keycmp_self] at hlt
              exact absurd hlt (by decide)

/-- Every node comes before the header's key. -/
theorem Holds.split_keyMax {m : SnodeMem} {list : Skiplist} {l : List (Elt Snode)}
    (hh : Holds m list l) : ∀ e ∈ l, keycmp e.data.key keyMax < 0 := by
  intro e he
  by_contra hlt
  exact not_keyMax_lt _ (keycmp_total hlt (hh.below e he))

/-- The header's key finds the header. -/
theorem Holds.find_keyMax {m : SnodeMem} {list : Skiplist} {l : List (Elt Snode)} {fuel : Nat}
    (hh : Holds m list l) (hne : l ≠ []) (hfuel : l.length < fuel) :
    HashKv.skiplistFind fuel m list keyMax = some (some list.header) := by
  have hlist : Holds m list (l ++ []) := (List.append_nil l).symm ▸ hh
  obtain ⟨u, hdesc, -⟩ := hlist.descend hh.split_keyMax
    (fun e he => absurd he List.not_mem_nil) hfuel
  obtain ⟨nd, hnext, hnd, hdata⟩ := hlist.next_descend
  unfold HashKv.skiplistFind
  rw [hh.size, if_neg fun h0 => hne (List.length_eq_zero_iff.mp h0), hdesc, Option.bind_some]
  dsimp only
  rw [hnext, Option.bind_some, hnd, Option.bind_some, hdata]
  exact if_pos (keytest_iff.mpr rfl)

/-- An iterator returns the nodes in order. -/
theorem Holds.skiplistNodes {m : SnodeMem} {list : Skiplist} {L R : List (Elt Snode)} {fuel : Nat}
    (hh : Holds m list (L ++ R)) (hfuel : R.length < fuel) :
    skiplistNodes m list fuel (final list.header L) = some (R.map Elt.addr) := by
  induction R generalizing L fuel with
  | nil =>
      obtain ⟨fuel, rfl⟩ := Nat.exists_eq_succ_of_ne_zero (Nat.ne_of_gt hfuel)
      rw [HashKv.skiplistNodes, skiplistGetNext, hh.rep.next_final, Option.map_some,
        if_pos (hh.rep.first_eq_header.mpr rfl)]
      rfl
  | cons e R ih =>
      obtain ⟨fuel, rfl⟩ := Nat.exists_eq_succ_of_ne_zero (Nat.ne_of_gt (Nat.zero_lt_of_lt hfuel))
      have hlist : L ++ e :: R = (L ++ [e]) ++ R := by rw [List.append_assoc, List.singleton_append]
      have hne : first (e :: R) list.header ≠ list.header :=
        fun h => List.cons_ne_nil e R (hh.rep.first_eq_header.mp h)
      have hrest := ih (hlist ▸ hh) (Nat.lt_of_succ_lt_succ hfuel)
      rw [final_concat] at hrest
      rw [HashKv.skiplistNodes, skiplistGetNext, hh.rep.next_final, Option.map_some, if_neg hne]
      show Option.map _ (HashKv.skiplistNodes m list fuel e.addr) = _
      rw [hrest]
      rfl

/-! ## Section 5: Insertions -/

/-- The level of a node is within the header's. -/
theorem getLevel_bounds (rand : Nat → Nat) : 0 < getLevel rand ∧ getLevel rand < maxL :=
  drawLevel_bounds Nat.one_pos (by decide)

/-- The header has no value whose length could be read. -/
theorem Holds.insert_keyMax {m : SnodeMem} {list : Skiplist} {l : List (Elt Snode)} {fuel : Nat}
    (hh : Holds m list l) (hfuel : l.length < fuel) (value : ValueSet) (deletef : Bool)
    (rand : Nat → Nat) : skiplistInsert fuel m list keyMax value deletef rand = none := by
  have hlist : Holds m list (l ++ []) := (List.append_nil l).symm ▸ hh
  obtain ⟨u, hdesc, -⟩ := hlist.descend hh.split_keyMax
    (fun e he => absurd he List.not_mem_nil) hfuel
  obtain ⟨nd, hnext, hnd, hdata⟩ := hlist.next_descend
  unfold skiplistInsert
  rw [hdesc, Option.bind_some]
  dsimp only
  rw [hnext, Option.bind_some, hnd, Option.bind_some, hdata]
  exact if_pos (keytest_iff.mpr rfl)

/-- What the entries say about each key. -/
def Describes (es : List Entry) (f : Key → Option ValueSet) : Prop :=
  ∀ k v, (k, some v) ∈ es ↔ f k = some v

/-- A key gets a value. -/
theorem Describes.insert {es es' mid : List Entry} {f : Key → Option ValueSet} {key : Key}
    (hd : Describes (es ++ (mid ++ es')) f) (hmid : ∀ e ∈ mid, e.1 = key)
    (hout : ∀ e ∈ es ++ es', e.1 ≠ key) (v : ValueSet) :
    Describes (es ++ (key, some v) :: es') (Function.update f key (some v)) := by
  intro k w
  by_cases hk : k = key
  · subst hk
    rw [Function.update_self, Option.some.injEq]
    constructor
    · intro hmem
      rcases List.mem_append.mp hmem with hmem | hmem
      · exact absurd rfl (hout _ (List.mem_append_left _ hmem))
      · rcases List.mem_cons.mp hmem with heq | hmem
        · exact (Option.some.inj (Prod.mk.inj heq).2).symm
        · exact absurd rfl (hout _ (List.mem_append_right _ hmem))
    · rintro rfl
      exact List.mem_append_right _ (List.mem_cons_self ..)
  · rw [Function.update_of_ne hk, ← hd k w, List.mem_append, List.mem_append, List.mem_append,
      List.mem_cons]
    have hnew : (k, some w) ≠ (key, some v) := fun h => hk (Prod.mk.inj h).1
    have hold : (k, some w) ∉ mid := fun h => hk (hmid _ h)
    simp only [hnew, hold, false_or]

/-- The nodes from the key on: the key's own first, or all above it. -/
theorem split_right {R : List (Elt Snode)} {key : Key}
    (ho : R.Pairwise fun a b => keycmp a.data.key b.data.key < 0)
    (hR : ∀ e ∈ R, ¬ keycmp e.data.key key < 0) :
    (∃ e S, R = e :: S ∧ e.data.key = key) ∨ ∀ e ∈ R, keycmp key e.data.key < 0 := by
  cases R with
  | nil => exact .inr fun e he => absurd he List.not_mem_nil
  | cons e S =>
      by_cases hne : e.data.key = key
      · exact .inl ⟨e, S, rfl, hne⟩
      · have hgt := keycmp_total (hR e (List.mem_cons_self ..)) hne
        refine .inr (List.forall_mem_cons.mpr ⟨hgt, fun x hx => ?_⟩)
        exact keycmp_trans hgt ((List.pairwise_cons.mp ho).1 x hx)

/-- Ordered keys differ. -/
theorem keycmp_ne {a b : Key} (h : keycmp a b < 0) : a ≠ b := by
  rintro rfl
  rw [keycmp_self] at h
  exact absurd h (by decide)

/-- A node gets another value. -/
theorem Holds.overwrite {m : SnodeMem} {list : Skiplist} {L S : List (Elt Snode)} {e : Elt Snode}
    (hh : Holds m list (L ++ e :: S)) (v : ValueSet) (deletef : Bool) :
    ∃ h', m.heap.setData e.addr { e.data with value := some v, isvalid := deletef } = some h' ∧
      Holds ⟨h', m.brk⟩ list
        (L ++ { e with data := { e.data with value := some v, isvalid := deletef } } :: S) := by
  obtain ⟨h', hset, hrep, hfree⟩ := hh.rep.overwrite hh.free
    { e.data with value := some v, isvalid := deletef }
  obtain ⟨hordL, hordR, hcross⟩ := List.pairwise_append.mp hh.ordered
  obtain ⟨hlt, hordS⟩ := List.pairwise_cons.mp hordR
  obtain ⟨hvL, -, hvS⟩ := forall_middle.mp hh.valued
  refine ⟨h', hset, hrep, hfree, ?_, ?_, ?_, ?_⟩
  · refine List.pairwise_append.mpr ⟨hordL, List.pairwise_cons.mpr ⟨hlt, hordS⟩, fun a ha => ?_⟩
    obtain ⟨hae, haS⟩ := List.forall_mem_cons.mp (hcross a ha)
    exact List.forall_mem_cons.mpr ⟨hae, haS⟩
  · obtain ⟨hbL, hbe, hbS⟩ := forall_middle.mp hh.below
    exact forall_middle.mpr ⟨hbL, hbe, hbS⟩
  · exact forall_middle.mpr ⟨hvL, Option.some_ne_none v, hvS⟩
  · rw [hh.size, List.length_append, List.length_append]
    rfl

/-- A new node is linked between the nodes before its key and those above it. -/
theorem Holds.insertNew {m : SnodeMem} {list : Skiplist} {L R : List (Elt Snode)} {n : Snode}
    {u : Nat → Nat} {level : Nat} (hh : Holds m list (L ++ R))
    (hL : ∀ e ∈ L, keycmp e.data.key n.key < 0) (hR : ∀ e ∈ R, keycmp n.key e.data.key < 0)
    (hkey : n.key ≠ keyMax) (hval : n.value ≠ none) (hpos : 0 < level) (hbound : level < maxL)
    (hu : ∀ j, 0 < j → j ≤ list.level → u j = final list.header (chain j L)) :
    ∃ h', insertNode m.heap (fun i => if list.level < i ∧ i ≤ level then list.header else u i)
        m.brk level n = some h' ∧
      Holds ⟨h', m.brk + 1⟩ { list with level := max list.level level, size := list.size + 1 }
        (L ++ ⟨m.brk, level, n⟩ :: R) := by
  obtain ⟨h', hins, hrep, hfree⟩ := hh.rep.insertNew hh.free n hpos hbound hu
  obtain ⟨hordL, hordR, hcross⟩ := List.pairwise_append.mp hh.ordered
  obtain ⟨hbL, hbR⟩ := List.forall_mem_append.mp hh.below
  obtain ⟨hvL, hvR⟩ := List.forall_mem_append.mp hh.valued
  refine ⟨h', hins, hrep, hfree, ?_, ?_, ?_, ?_⟩
  · refine List.pairwise_append.mpr ⟨hordL, List.pairwise_cons.mpr ⟨hR, hordR⟩, fun a ha => ?_⟩
    exact List.forall_mem_cons.mpr ⟨hL a ha, hcross a ha⟩
  · exact forall_middle.mpr ⟨hbL, hkey, hbR⟩
  · exact forall_middle.mpr ⟨hvL, hval, hvR⟩
  · show list.size + 1 = _
    rw [hh.size, List.length_append, List.length_append, List.length_cons]
    omega

/-- With a key other than the header's, an insertion puts the key at its place. -/
theorem Holds.skiplistInsert {m : SnodeMem} {list : Skiplist} {l : List (Elt Snode)} {key : Key}
    {fuel : Nat} {f : Key → Option ValueSet} (hh : Holds m list l) (hd : Describes (entries l) f)
    (hkey : key ≠ keyMax) (hfuel : l.length < fuel) (value : ValueSet) (deletef : Bool)
    (rand : Nat → Nat) :
    ∃ m' list' x l', skiplistInsert fuel m list key value deletef rand = some (m', list', x) ∧
      Holds m' list' l' ∧ l'.length ≤ l.length + 1 ∧
      Describes (entries l') (Function.update f key (some value.inPieces)) := by
  obtain ⟨L, R, rfl, hL, hR⟩ := exists_split hh.ordered key
  have hlen : L.length < fuel := by
    rw [List.length_append] at hfuel
    omega
  obtain ⟨u, hdesc, hu⟩ := hh.descend hL hR hlen
  obtain ⟨nd, hnext, hnd, hdata⟩ := hh.next_descend
  have hordR := (List.pairwise_append.mp hh.ordered).2.1
  have houtL : ∀ x ∈ entries L, x.1 ≠ key := by
    intro x hx
    obtain ⟨e, he, rfl⟩ := List.mem_map.mp hx
    exact keycmp_ne (hL e he)
  have houtR : ∀ S : List (Elt Snode), (∀ e ∈ S, keycmp key e.data.key < 0) →
      ∀ x ∈ entries L ++ entries S, x.1 ≠ key := by
    intro S hS x hx
    rcases List.mem_append.mp hx with hx | hx
    · exact houtL x hx
    · obtain ⟨e, he, rfl⟩ := List.mem_map.mp hx
      exact (keycmp_ne (hS e he)).symm
  unfold HashKv.skiplistInsert
  rw [hdesc, Option.bind_some]
  dsimp only
  rw [hnext, Option.bind_some, hnd, Option.bind_some, hdata]
  -- The first node that is not below the key decides.
  rcases split_right hordR hR with ⟨e, S, rfl, heq⟩ | habove
  · -- the key is there
    have htest : keytest key e.data.key = true := keytest_iff.mpr heq.symm
    obtain ⟨v, hv⟩ := Option.ne_none_iff_exists'.mp (forall_middle.mp hh.valued).2.1
    obtain ⟨h', hset, hh'⟩ := hh.overwrite value.inPieces deletef
    refine ⟨⟨h', m.brk⟩, list, e.addr, _, ?_, hh', ?_, ?_⟩
    · refine (if_pos htest).trans ?_
      show (e.data.value.bind fun _ => Option.map _ (m.heap.setData e.addr _)) = _
      rw [hv, Option.bind_some]
      exact congrArg (Option.map _) hset
    · rw [List.length_append, List.length_append]
      exact Nat.le_succ _
    · have hmid : entries (L ++ e :: S) = entries L ++
          ([(e.data.key, e.data.value)] ++ entries S) :=
        List.map_append
      have hentries : entries (L ++ { e with
          data := { e.data with value := some value.inPieces, isvalid := deletef } } :: S) =
          entries L ++ (e.data.key, some value.inPieces) :: entries S := List.map_append
      rw [hmid] at hd
      rw [hentries, heq]
      refine hd.insert (fun x hx => ?_) (houtR S ?_) value.inPieces
      · rw [List.mem_singleton.mp hx]
        exact heq
      · exact fun x hx => heq ▸ (List.pairwise_cons.mp hordR).1 x hx
  · -- a new node before the nodes above the key
    have htest : ¬ keytest key ((R.head?.map Elt.data).getD headerNode).key = true := by
      intro h
      rw [keytest_iff] at h
      cases R with
      | nil => exact hkey h
      | cons e S => exact keycmp_ne (habove e (List.mem_cons_self ..)) h
    obtain ⟨hpos, hbound⟩ := getLevel_bounds rand
    obtain ⟨h', hins, hh'⟩ := hh.insertNew (n := ⟨key, 4294967295, some value.inPieces, deletef⟩)
      hL habove hkey (Option.some_ne_none _) hpos hbound hu
    refine ⟨_, _, m.brk, _, ?_, hh', ?_, ?_⟩
    · refine (if_neg htest).trans ?_
      exact congrArg (Option.map _) hins
    · rw [List.length_append, List.length_append, List.length_cons]
      omega
    · have hmid : entries (L ++ R) = entries L ++ ([] ++ entries R) := List.map_append
      have hentries : entries (L ++ ⟨m.brk, getLevel rand,
          ⟨key, 4294967295, some value.inPieces, deletef⟩⟩ :: R) =
          entries L ++ (key, some value.inPieces) :: entries R := List.map_append
      rw [hmid] at hd
      rw [hentries]
      exact hd.insert (fun x hx => absurd hx List.not_mem_nil) (houtR R habove) value.inPieces

/-! ## Section 6: Runs -/

theorem runInsertions_cons (fuel : Nat) (i : Insertion) (ins : List Insertion)
    (s : SnodeMem × Skiplist) :
    runInsertions fuel (i :: ins) s =
      (skiplistInsert fuel s.1 s.2 i.key i.value i.deletef i.rand).bind fun r =>
        runInsertions fuel ins (r.1, r.2.1) := by
  rw [runInsertions, List.foldlM_cons]
  cases skiplistInsert fuel s.1 s.2 i.key i.value i.deletef i.rand <;> rfl

/-- The values after more insertions. -/
def writeAll (ins : List Insertion) (f : Key → Option ValueSet) : Key → Option ValueSet :=
  ins.foldl (fun f i => Function.update f i.key (some i.value.inPieces)) f

/-- A key without value was not written. -/
theorem writeAll_eq_none {ins : List Insertion} {f : Key → Option ValueSet} {k : Key} :
    writeAll ins f k = none ↔ f k = none ∧ k ∉ ins.map Insertion.key := by
  induction ins generalizing f with
  | nil => exact ⟨fun h => ⟨h, List.not_mem_nil⟩, fun h => h.1⟩
  | cons i ins ih =>
      show writeAll ins (Function.update f i.key (some i.value.inPieces)) k = none ↔ _
      rw [ih, List.map_cons, List.mem_cons, not_or]
      by_cases hk : k = i.key
      · subst hk
        rw [Function.update_self]
        exact iff_of_false (fun h => nomatch h.1) (fun h => h.2.1 rfl)
      · rw [Function.update_of_ne hk]
        exact ⟨fun h => ⟨h.1, hk, h.2⟩, fun h => ⟨h.1, h.2.2⟩⟩

/-- And has no last write. -/
theorem lastWrite_eq_none {ins : List Insertion} {k : Key} :
    lastWrite ins k = none ↔ k ∉ ins.map Insertion.key := by
  have h := @writeAll_eq_none ins (fun _ => none) k
  exact h.trans ⟨fun h => h.2, fun h => ⟨rfl, h⟩⟩

/-- The last values depend on the keys and values only. -/
theorem lastWrite_congr {ins ins' : List Insertion}
    (h : (ins'.map fun i => (i.key, i.value)) = ins.map fun i => (i.key, i.value)) :
    lastWrite ins' = lastWrite ins := by
  have hmap : ∀ ins : List Insertion, lastWrite ins =
      (ins.map fun i => (i.key, i.value)).foldl
        (fun (f : Key → Option ValueSet) w => Function.update f w.1 (some w.2.inPieces))
        fun _ => none := by
    intro ins
    rw [List.foldl_map]
    rfl
  rw [hmap, hmap, h]

/-- Without the header's key every insertion succeeds, and the nodes describe the last values. -/
theorem Holds.runInsertions {ins : List Insertion} {m : SnodeMem} {list : Skiplist}
    {l : List (Elt Snode)} {f : Key → Option ValueSet} {fuel : Nat} (hh : Holds m list l)
    (hd : Describes (entries l) f) (hfuel : l.length + ins.length < fuel)
    (hkeys : ∀ i ∈ ins, i.key ≠ keyMax) :
    ∃ m' list' l', runInsertions fuel ins (m, list) = some (m', list') ∧ Holds m' list' l' ∧
      l'.length ≤ l.length + ins.length ∧ Describes (entries l') (writeAll ins f) := by
  induction ins generalizing m list l f with
  | nil => exact ⟨m, list, l, rfl, hh, Nat.le_refl _, hd⟩
  | cons i ins ih =>
      obtain ⟨hi, hkeys⟩ := List.forall_mem_cons.mp hkeys
      rw [List.length_cons] at hfuel ⊢
      obtain ⟨m₁, list₁, x, l₁, hins, hh₁, hlen, hd₁⟩ :=
        hh.skiplistInsert hd hi (show l.length < fuel by omega) i.value i.deletef i.rand
      obtain ⟨m', list', l', hrun, hh', hlen', hd'⟩ := ih hh₁ hd₁ (by omega) hkeys
      refine ⟨m', list', l', ?_, hh', by omega, hd'⟩
      rw [runInsertions_cons, hins, Option.bind_some]
      exact hrun

/-- The first insertion of the header's key reads a value that does not exist. -/
theorem Holds.run_keyMax {ins : List Insertion} {m : SnodeMem} {list : Skiplist}
    {l : List (Elt Snode)} {f : Key → Option ValueSet} {fuel : Nat} (hh : Holds m list l)
    (hd : Describes (entries l) f) (hfuel : l.length + ins.length < fuel)
    (hmax : ∃ i ∈ ins, i.key = keyMax) : HashKv.runInsertions fuel ins (m, list) = none := by
  induction ins generalizing m list l f with
  | nil =>
      obtain ⟨i, hi, -⟩ := hmax
      exact absurd hi List.not_mem_nil
  | cons i ins ih =>
      rw [List.length_cons] at hfuel
      rw [runInsertions_cons]
      by_cases hi : i.key = keyMax
      · rw [hi, hh.insert_keyMax (by omega)]
        rfl
      · obtain ⟨m₁, list₁, x, l₁, hins, hh₁, hlen, hd₁⟩ :=
          hh.skiplistInsert hd hi (show l.length < fuel by omega) i.value i.deletef i.rand
        rw [hins, Option.bind_some]
        refine ih hh₁ hd₁ (by omega) ?_
        obtain ⟨j, hj, hjmax⟩ := hmax
        rcases List.mem_cons.mp hj with rfl | hj
        · exact absurd hjmax hi
        · exact ⟨j, hj, hjmax⟩

/-! ## Section 7: The ordered map -/

/-- The keys are in order. -/
theorem Holds.increasing {m : SnodeMem} {list : Skiplist} {l : List (Elt Snode)}
    (hh : Holds m list l) : (entries l).Pairwise fun a b => keycmp a.1 b.1 < 0 :=
  List.pairwise_map.mpr hh.ordered

/-- An entry holds the value that its key is described with. -/
theorem Holds.entry {m : SnodeMem} {list : Skiplist} {l : List (Elt Snode)}
    {f : Key → Option ValueSet} (hh : Holds m list l) (hd : Describes (entries l) f) {e : Elt Snode}
    (he : e ∈ l) : e.data.value = f e.data.key ∧ f e.data.key ≠ none := by
  obtain ⟨v, hv⟩ := Option.ne_none_iff_exists'.mp (hh.valued e he)
  have hmem : (e.data.key, some v) ∈ entries l := by
    rw [← hv]
    exact List.mem_map_of_mem he
  have hf := (hd _ _).mp hmem
  rw [hv, hf]
  exact ⟨rfl, Option.some_ne_none v⟩

/-- A key with a value has its node. -/
theorem Describes.mem_keys {l : List (Elt Snode)} {f : Key → Option ValueSet} {k : Key}
    (hd : Describes (entries l) f) (hk : f k ≠ none) : ∃ e ∈ l, e.data.key = k := by
  obtain ⟨v, hv⟩ := Option.ne_none_iff_exists'.mp hk
  obtain ⟨e, he, heq⟩ := List.mem_map.mp ((hd k v).mpr hv)
  exact ⟨e, he, congrArg Prod.fst heq⟩

/-- Two lists that describe the same values have the same entries. -/
theorem entries_unique {m m' : SnodeMem} {list list' : Skiplist} {l l' : List (Elt Snode)}
    {f : Key → Option ValueSet} (hh : Holds m list l) (hh' : Holds m' list' l')
    (hd : Describes (entries l) f) (hd' : Describes (entries l') f) : entries l = entries l' := by
  have hsub : ∀ {m m' : SnodeMem} {list list' : Skiplist} {l l' : List (Elt Snode)},
      Holds m list l → Holds m' list' l' → Describes (entries l) f → Describes (entries l') f →
      ∀ e ∈ entries l, e ∈ entries l' := by
    intro m m' list list' l l' hh hh' hd hd' e he
    obtain ⟨x, hx, rfl⟩ := List.mem_map.mp he
    obtain ⟨v, hv⟩ := Option.ne_none_iff_exists'.mp (hh.valued x hx)
    show (x.data.key, x.data.value) ∈ entries l'
    rw [hv]
    refine (hd' _ _).mpr ?_
    rw [← (hh.entry hd hx).1, hv]
  have hnodup : ∀ {es : List Entry}, (es.Pairwise fun a b => keycmp a.1 b.1 < 0) → es.Nodup :=
    fun h => h.imp fun hlt heq => keycmp_ne hlt (congrArg Prod.fst heq)
  have hperm : (entries l).Perm (entries l') :=
    (List.perm_ext_iff_of_nodup (hnodup hh.increasing) (hnodup hh'.increasing)).mpr
      fun e => ⟨hsub hh hh' hd hd' e, hsub hh' hh hd' hd e⟩
  refine hperm.eq_of_pairwise (fun a b _ _ hab hba => ?_) hh.increasing hh'.increasing
  exact absurd rfl (keycmp_ne (keycmp_trans hab hba))

/-- Each inserted key once. -/
theorem Holds.keys_perm {m : SnodeMem} {list : Skiplist} {l : List (Elt Snode)}
    {ins : List Insertion} (hh : Holds m list l) (hd : Describes (entries l) (lastWrite ins)) :
    ((entries l).map Prod.fst).Perm (ins.map Insertion.key).dedup := by
  have hnodup : ((entries l).map Prod.fst).Nodup :=
    List.pairwise_map.mpr (hh.increasing.imp fun hlt => keycmp_ne hlt)
  refine (List.perm_ext_iff_of_nodup hnodup (List.nodup_dedup _)).mpr fun k => ?_
  rw [List.mem_dedup]
  constructor
  · intro hk
    rw [entries, List.map_map] at hk
    obtain ⟨e, he, rfl⟩ := List.mem_map.mp hk
    by_contra hnot
    exact (hh.entry hd he).2 (lastWrite_eq_none.mpr hnot)
  · intro hk
    obtain ⟨e, he, rfl⟩ := hd.mem_keys fun h => lastWrite_eq_none.mp h hk
    rw [entries, List.map_map]
    exact List.mem_map_of_mem he

/-- The iteration reads all entries. -/
theorem Holds.mapM_look {m : SnodeMem} {list : Skiplist} {l : List (Elt Snode)}
    (hh : Holds m list l) : (l.map Elt.addr).mapM (HashKv.look m) = some (entries l) := by
  have hgen : ∀ l' : List (Elt Snode), (∀ e ∈ l', e ∈ l) →
      (l'.map Elt.addr).mapM (HashKv.look m) = some (entries l') := by
    intro l'
    induction l' with
    | nil => exact fun _ => rfl
    | cons e l' ih =>
        intro hsub
        obtain ⟨he, hsub⟩ := List.forall_mem_cons.mp hsub
        rw [List.map_cons, List.mapM_cons, hh.look he, ih hsub]
        rfl
  exact hgen l fun _ he => he

/-- A list in memory is seen as its entries. -/
theorem Holds.observe {m : SnodeMem} {list : Skiplist} {l : List (Elt Snode)}
    {ins : List Insertion} {fuel : Nat} {r : Option Nat} {k : Key} {found : Option Entry}
    (hh : Holds m list l)
    (hrun : HashKv.runInsertions fuel ins (skiplistInit ⟨fun _ => none, 0⟩) = some (m, list))
    (hfuel : l.length < fuel) (hfind : HashKv.skiplistFind fuel m list k = some r)
    (hr : r.mapM (HashKv.look m) = some found) :
    observe fuel ins k = some ⟨found, entries l, l.length⟩ := by
  have hnodes : HashKv.skiplistNodes m list fuel list.header = some (l.map Elt.addr) :=
    hh.skiplistNodes (L := []) hfuel
  rw [HashKv.observe, hrun, Option.bind_some]
  dsimp only
  rw [hfind, Option.bind_some, hnodes, Option.bind_some, hh.mapM_look, Option.bind_some, hr,
    Option.map_some, hh.size]

/-- Every sequence of insertions shows the map of the last values, whatever levels are drawn,
    exactly if the header's key is not inserted, and searched for in the empty list only. -/
theorem skiplist_lastWriter_iff {ins : List Insertion} {k : Key} {fuel : Nat}
    (hfuel : ins.length < fuel) :
    LastWriterWins fuel ins k ↔ (∀ i ∈ ins, i.key ≠ keyMax) ∧ (k = keyMax → ins = []) := by
  have hinit : Holds (skiplistInit ⟨fun _ => none, 0⟩).1 (skiplistInit ⟨fun _ => none, 0⟩).2 [] :=
    holds_skiplistInit fun _ _ => rfl
  have hdesc : Describes (entries []) fun _ => none :=
    fun k v => iff_of_false List.not_mem_nil (nomatch ·)
  constructor
  · rintro ⟨es, hinc, hval, hperm, hobs⟩
    have hob := hobs ins rfl
    by_cases hmax : ∃ i ∈ ins, i.key = keyMax
    · have hrun := hinit.run_keyMax hdesc (by rwa [List.length_nil, Nat.zero_add]) hmax
      rw [observe, hrun] at hob
      exact (nomatch hob)
    · have hkeys : ∀ i ∈ ins, i.key ≠ keyMax := fun i hi heq => hmax ⟨i, hi, heq⟩
      refine ⟨hkeys, ?_⟩
      rintro rfl
      by_contra hne
      -- a search of a list with a node finds the header
      obtain ⟨m, list, l, hrun, hh, hlen, hd⟩ :=
        hinit.runInsertions hdesc (by rwa [List.length_nil, Nat.zero_add]) hkeys
      rw [List.length_nil, Nat.zero_add] at hlen
      obtain ⟨i, ins, rfl⟩ := List.exists_cons_of_ne_nil hne
      have hi : lastWrite (i :: ins) i.key ≠ none :=
        fun h => lastWrite_eq_none.mp h (List.mem_cons_self ..)
      obtain ⟨e, he, -⟩ := hd.mem_keys hi
      have hfind := hh.find_keyMax (List.ne_nil_of_mem he) (Nat.lt_of_le_of_lt hlen hfuel)
      obtain ⟨nd, hnd, hdata, -⟩ := Heap.info_some hh.rep.header
      have hlook : look m list.header = some (keyMax, none) := by
        rw [look, hnd, Option.map_some, hdata]
        rfl
      have hfound : (some list.header).mapM (look m) = some (some (keyMax, none)) := by
        show (look m list.header).map some = _
        rw [hlook]
        rfl
      have hsee := hh.observe hrun (Nat.lt_of_le_of_lt hlen hfuel) hfind hfound
      have hnone : lastWrite (i :: ins) keyMax = none := by
        refine lastWrite_eq_none.mpr fun hmem => ?_
        obtain ⟨j, hj, hjmax⟩ := List.mem_map.mp hmem
        exact hkeys j hj hjmax
      rw [hsee, hnone] at hob
      exact (nomatch hob)
  · rintro ⟨hkeys, hk⟩
    obtain ⟨m, list, l, hrun, hh, hlen, hd⟩ :=
      hinit.runInsertions hdesc (by rwa [List.length_nil, Nat.zero_add]) hkeys
    refine ⟨entries l, hh.increasing, ?_, hh.keys_perm hd, fun ins' hsame => ?_⟩
    · intro x hx
      obtain ⟨e, he, rfl⟩ := List.mem_map.mp hx
      exact (hh.entry hd he).1
    · have hlen' : ins'.length = ins.length := by
        have h := congrArg List.length hsame
        rwa [List.length_map, List.length_map] at h
      have hkeys' : ∀ i ∈ ins', i.key ≠ keyMax := by
        intro i hi
        have hmem : (i.key, i.value) ∈ ins.map fun i => (i.key, i.value) :=
          hsame ▸ List.mem_map_of_mem hi
        obtain ⟨j, hj, heq⟩ := List.mem_map.mp hmem
        exact (Prod.mk.inj heq).1 ▸ hkeys j hj
      obtain ⟨m', list', l', hrun', hh', hl', hd'⟩ :=
        hinit.runInsertions hdesc (by rwa [List.length_nil, Nat.zero_add, hlen']) hkeys'
      rw [List.length_nil, Nat.zero_add, hlen'] at hl'
      have hd' : Describes (entries l') (lastWrite ins) := lastWrite_congr hsame ▸ hd'
      have hentries := entries_unique hh hh' hd hd'
      have hsize : l'.length = (ins.map Insertion.key).dedup.length := by
        have hcount := (hh'.keys_perm hd').length_eq
        rwa [entries, List.length_map, List.length_map] at hcount
      have hkl : k = keyMax → l' = [] := by
        intro hmax
        have h0 : ins.length = 0 := congrArg List.length (hk hmax)
        exact List.length_eq_zero_iff.mp (by omega)
      rw [hentries, ← hsize]
      rcases hh'.skiplistFind hkl (Nat.lt_of_le_of_lt hl' hfuel) with
        ⟨e, he, rfl, hfind⟩ | ⟨hnone, hfind⟩
      · refine hh'.observe hrun' (Nat.lt_of_le_of_lt hl' hfuel) hfind ?_
        obtain ⟨v, hv⟩ := Option.ne_none_iff_exists'.mp (hh'.valued e he)
        show (look m' e.addr).map some = _
        rw [hh'.look he, ← (hh'.entry hd' he).1, hv]
        rfl
      · have hlast : lastWrite ins k = none := by
          by_contra hne
          obtain ⟨e, he, heq⟩ := hd'.mem_keys hne
          exact hnone e he heq
        rw [hlast]
        exact hh'.observe hrun' (Nat.lt_of_le_of_lt hl' hfuel) hfind rfl

/-- A key, a key that it is a prefix of, and the first key again. -/
def prefixInsertions : List Insertion :=
  [⟨⟨[1], by decide⟩, ⟨[10], 512⟩, true, fun _ => 1⟩, ⟨⟨[1, 2], by decide⟩, ⟨[20], 512⟩, true, id⟩,
    ⟨⟨[1], by decide⟩, ⟨[30], 2048⟩, true, fun _ => 0⟩]

/-- The second value of the first key is found, although a longer key came in between. -/
theorem skiplist_lastWriter_prefix : LastWriterWins 4 prefixInsertions ⟨[1], by decide⟩ :=
  (skiplist_lastWriter_iff (show prefixInsertions.length < 4 by decide)).mpr
    ⟨by decide, fun h => absurd h (by decide)⟩

/-- Inserting the key of 128 bytes 255 reads the length of the header's value. -/
theorem skiplist_lastWriter_counterexample :
    ¬ ∀ (ins : List Insertion) (k : Key) (fuel : Nat), (∀ i ∈ ins, 0 < i.key.len) →
      ins.length < fuel → LastWriterWins fuel ins k := by
  intro hall
  have hlen : keyMax.len = 128 := List.length_replicate
  obtain ⟨es, -, -, -, hobs⟩ := hall [⟨keyMax, ⟨[10], 512⟩, true, fun _ => 0⟩] keyMax 2
    (fun i hi => by rw [List.mem_singleton.mp hi, hlen]; decide) (by decide)
  have hinit : Holds (skiplistInit ⟨fun _ => none, 0⟩).1 (skiplistInit ⟨fun _ => none, 0⟩).2 [] :=
    holds_skiplistInit fun _ _ => rfl
  have hob := hobs _ rfl
  rw [observe, runInsertions_cons, hinit.insert_keyMax (by decide)] at hob
  exact (nomatch hob)

end AggreKV.HashKv
