import AggreKV.LsmTree.MetaBytes

/-! # The cutting loop of a flush

    `compaction_check`, with the list it carries over to the next round.

    * `cutLoop`: the loop; a list is handed over once the next one is known.
    * `checkCuts_eq`: it hands over what `compactionCheck` cuts, marked.
    * `flush_cutting`: sizes, order and marks of the lists handed over. -/

namespace AggreKV.LsmTree

/-! ## Section 1: The loop -/

/-- What `compaction_assign` gets: `temptable` and `last`. -/
structure Handed where
  list : Skiplist
  last : Bool

/-- The `do` loop of `compaction_check`: `t2` is the list cut in the round before, `out` is
    what was handed over. -/
def cutLoop : Nat → Option Skiplist → Skiplist → List Handed → Option (List Handed × Skiplist)
  | 0, _, _, _ => none
  | fuel + 1, t2, mem, out =>
      let first := match t2 with
        | some t => some (t, mem)
        | none => skiplistCuttingHeader mem
      match first with
      | none => some (out, mem)
      | some (t, mem) =>
          match skiplistCuttingHeader mem with
          | none => some (out ++ [⟨t, true⟩], mem)
          | some (t2, mem) => cutLoop fuel (some t2) mem (out ++ [⟨t, false⟩])

/-- `compaction_check`: its result, what it hands over, and the memtable after it. -/
def checkCuts (mem : Skiplist) : Option (Bool × List Handed × Skiplist) :=
  if mem.length < flushCheckNum then some (false, [], mem)
  else (cutLoop (mem.length + 1) none mem []).map fun (out, mem) => (!out.isEmpty, out, mem)

/-! ## Section 2: What it hands over -/

/-- The lists in order, the last one marked. -/
def marked : List Skiplist → List Handed
  | [] => []
  | [t] => [⟨t, true⟩]
  | t :: t' :: ts => ⟨t, false⟩ :: marked (t' :: ts)

theorem map_list_marked : ∀ ts : List Skiplist, (marked ts).map Handed.list = ts
  | [] => rfl
  | [_] => rfl
  | t :: t' :: ts => congrArg (t :: ·) (map_list_marked (t' :: ts))

/-- The mark is on the final list and on no other. -/
theorem marked_last : ∀ (ts : List Skiplist) (i : Nat) (h : Handed),
    (marked ts)[i]? = some h → (h.last = true ↔ i + 1 = ts.length)
  | [], i, h, hi => by
      have hnone : (marked [])[i]? = none := rfl
      rw [hnone] at hi
      cases hi
  | [t], i, h, hi => by
      cases i with
      | zero =>
          cases hi
          exact iff_of_true rfl rfl
      | succ i => cases hi
  | t :: t' :: ts, i, h, hi => by
      cases i with
      | zero =>
          cases hi
          rw [List.length_cons, List.length_cons]
          exact iff_of_false Bool.false_ne_true (by omega)
      | succ i =>
          have hrest := marked_last (t' :: ts) i h hi
          rw [List.length_cons, hrest]
          omega

/-- Every round takes a list off, so the loop ends; the list carried over comes first. -/
theorem cutLoop_eq (n : Nat) : ∀ (fuel : Nat) (t mem : Skiplist) (out : List Handed),
    mem.length ≤ n → n < fuel →
      cutLoop fuel (some t) mem out =
        some (out ++ marked (t :: (cutHeaders n mem).1), (cutHeaders n mem).2) := by
  induction n with
  | zero =>
    intro fuel t mem out hlen hfuel
    obtain ⟨fuel, rfl⟩ := Nat.exists_eq_add_of_lt hfuel
    have hnil : mem = [] := List.eq_nil_of_length_eq_zero (by omega)
    rw [hnil]
    rfl
  | succ n ih =>
    intro fuel t mem out hlen hfuel
    obtain ⟨fuel, rfl⟩ : ∃ k, fuel = k + 1 := ⟨fuel - 1, by omega⟩
    unfold cutLoop cutHeaders
    dsimp only
    cases hcut : skiplistCuttingHeader mem with
    | none => rfl
    | some r =>
        -- Every cut takes two nodes at least, so the rest fits the smaller bound.
        have htwo := skiplistCuttingHeader_two_le hcut
        have happ := congrArg List.length (skiplistCuttingHeader_append hcut)
        rw [List.length_append] at happ
        dsimp only
        rw [ih fuel r.1 r.2 _ (by omega) (by omega), List.append_assoc]
        rfl

/-- The first round has no list carried over. -/
theorem cutLoop_none {n : Nat} (mem : Skiplist) (hlen : mem.length ≤ n) :
    cutLoop (n + 1) none mem [] = some (marked (cutHeaders n mem).1, (cutHeaders n mem).2) := by
  unfold cutLoop
  dsimp only
  cases hcut : skiplistCuttingHeader mem with
  | none =>
      have hstop : cutHeaders n mem = ([], mem) := by
        cases n with
        | zero => rfl
        | succ n => rw [cutHeaders, hcut]
      rw [hstop]
      rfl
  | some r =>
      have htwo := skiplistCuttingHeader_two_le hcut
      have happ := congrArg List.length (skiplistCuttingHeader_append hcut)
      rw [List.length_append] at happ
      -- What follows is a round that carries this list over.
      obtain ⟨n, rfl⟩ : ∃ k, n = k + 1 := ⟨n - 1, by omega⟩
      have hround := cutLoop_eq n (n + 1 + 1) r.1 r.2 [] (by omega) (by omega)
      rw [cutLoop] at hround
      rw [cutHeaders, hcut]
      exact hround

theorem marked_isEmpty : ∀ ts : List Skiplist, (marked ts).isEmpty = ts.isEmpty
  | [] => rfl
  | [_] => rfl
  | _ :: _ :: _ => rfl

theorem checkCuts_eq (mem : Skiplist) :
    checkCuts mem = some (!(compactionCheck mem).1.isEmpty, marked (compactionCheck mem).1,
      (compactionCheck mem).2) := by
  unfold checkCuts compactionCheck
  by_cases hsmall : mem.length < flushCheckNum
  · rw [if_pos hsmall, if_pos hsmall]
    rfl
  · rw [if_neg hsmall, if_neg hsmall, cutLoop_none mem (Nat.le_refl _), Option.map_some]
    dsimp only
    rw [marked_isEmpty]

/-! ## Section 3: The flush -/

/-- A list that fits one page, and a run with two different ends. -/
structure PageSized (t : Skiplist) : Prop where
  two_le : 2 ≤ t.length
  le : t.length ≤ 510
  bytes : 1024 + (t.map fun n => n.key.len + 4).sum ≤ 4096

theorem IsCut.pageSized {t : Skiplist} (h : IsCut t) : PageSized t := by
  obtain ⟨hlen, hall⟩ := h.le
  refine ⟨h.two_le, hlen, ?_⟩
  have hsum : (t.map fun n => n.key.len + 4).sum = allLength t := rfl
  rw [hsum]
  unfold sizeLimit at hall
  omega

/-- The loop ends; every list handed over is of the size of a page, only the final one is
    marked, and the lists and the rest are the memtable, in order. -/
theorem flush_cutting {mem : Skiplist} (h : MemOrdered mem) :
    ∃ res out rest, checkCuts mem = some (res, out, rest) ∧
      (∀ x ∈ out, PageSized x.list ∧
        ∃ p, arrayMemCvt2tableBytes (fun _ => 0) x.list =
          some (p, x.list.head?.map Snode.key, x.list.getLast?.map Snode.key)) ∧
      (∀ i x, out[i]? = some x → (x.last = true ↔ i + 1 = out.length)) ∧
      out.flatMap Handed.list ++ rest = mem ∧
      (Skiplist.keys (out.flatMap Handed.list ++ rest)).Pairwise (· < ·) := by
  have hcuts := (isCut_compactionCheck h).1
  have hlists := map_list_marked (compactionCheck mem).1
  have hlen : (marked (compactionCheck mem).1).length = (compactionCheck mem).1.length := by
    rw [← List.length_map, hlists]
  -- What is handed over and what stays is the memtable, whether it was cut or not.
  have happ : (marked (compactionCheck mem).1).flatMap Handed.list ++ (compactionCheck mem).2 =
      mem := by
    rw [List.flatMap_def, hlists]
    unfold compactionCheck
    split_ifs with hsmall
    · rfl
    · exact cutHeaders_flatten _ _
  refine ⟨_, _, _, checkCuts_eq mem, fun x hx => ?_, fun i x hi => ?_, happ, ?_⟩
  · have hcut : IsCut x.list := by
      refine hcuts x.list ?_
      rw [← hlists]
      exact List.mem_map_of_mem hx
    obtain ⟨p, hp, -⟩ := arrayMemCvt2tableBytes_holds (fun _ => 0) hcut.two_le hcut.fits
    exact ⟨hcut.pageSized, p, hp⟩
  · rw [hlen]
    exact marked_last _ i x hi
  · rw [happ]
    exact h.increasing

/-- A memtable of 128 keys, each of the longest length. -/
theorem flush_cutting_wide :
    ∃ res out rest, checkCuts (wideList 128 0 none) = some (res, out, rest) ∧
    (∀ x ∈ out, PageSized x.list ∧
      ∃ p, arrayMemCvt2tableBytes (fun _ => 0) x.list =
        some (p, x.list.head?.map Snode.key, x.list.getLast?.map Snode.key)) ∧
    (∀ i x, out[i]? = some x → (x.last = true ↔ i + 1 = out.length)) ∧
    out.flatMap Handed.list ++ rest = wideList 128 0 none ∧
    (Skiplist.keys (out.flatMap Handed.list ++ rest)).Pairwise (· < ·) :=
  flush_cutting (wideList_ordered (Nat.le_refl 128) 0 none)

end AggreKV.LsmTree
