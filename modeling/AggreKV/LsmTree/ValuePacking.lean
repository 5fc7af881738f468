import AggreKV.Lib.Lists
import AggreKV.LsmTree.PageAllocation
import AggreKV.LsmTree.CutList

/-! # The result array of a flush

    `skiplist_make_valueset` and `variable_value2Page` with the array they
    return, and `compaction_data_write`, which programs what the array lists.

    * `forget_skiplistMakeValueset`: without the array these are the functions
      of `Memtable`.
    * `Valueset.variableValue2Page_terminates`: a page takes a value, so the
      loop ends.
    * `value_packing_iff`: every page is listed and every node has its page
      exactly if all values fill a page. A page shared by smaller values is
      allocated, but `v_idx` stays where it is and the terminator overwrites
      the entry. -/

namespace AggreKV.LsmTree

variable {cfg : Settings}

/-! ## Section 1: The array -/

/-- How a call ends without a result: `abort`, or a loop that is not done. -/
inductive Stop where
  | abort
  | fuel
  deriving DecidableEq

/-- `res` is the array of `value_set` pointers, by their address; `pages` is a
    ghost, what `lsm_get_page` returned so far. -/
structure Valueset where
  nodes : Skiplist
  res : List (Option Nat)
  pages : List Nat
  flash : Flash

/-- The loop over `bucket[PAGESIZE / PIECE]`, with `res_idx`. -/
def Valueset.writeFullPages (cfg : Settings) : List Key → Nat → Valueset → Option (Nat × Valueset)
  | [], idx, v => some (idx, v)
  | k :: ks, idx, v =>
      (v.flash.getPage cfg).bind fun (ppa, f) =>
        if oobIsInvalid (f.env.pieceOob ppa) then none
        else Valueset.writeFullPages cfg ks (idx + 1)
          { nodes := v.nodes.map fun n =>
              if n.key = k then { n with ppa := ppa, value := none } else n
            res := v.res.set idx (some ppa)
            pages := v.pages ++ [ppa]
            flash := f.note k ⟨ppa, 8⟩ }

/-- `variable_value2Page`: every page goes to `v_des[v_idx]`, and the loop
    leaves `v_idx` as it is. -/
def Valueset.variableValue2Page (cfg : Settings) (maxLen vIdx : Nat) :
    Nat → Buckets Key → Valueset → Except Stop Valueset
  | 0, _, _ => .error .fuel
  | n + 1, b, v =>
      match v.flash.getPage cfg with
      | none => .error .abort
      | some (ppa, f) =>
          if oobIsInvalid (f.env.pieceOob ppa) then .error .abort
          else
            let r := b.fillBin 8
            match placeValues ppa r.1 v.nodes (f.setOob ppa ⟨true, maxLen⟩) with
            | none => .error .abort
            | some (l, f) =>
                let v : Valueset := ⟨l, v.res.set vIdx (some ppa), v.pages ++ [ppa], f⟩
                if (r.2.upTo 8).isEmpty then .ok v
                else Valueset.variableValue2Page cfg maxLen vIdx n r.2 v

/-- `skiplist_make_valueset`; the array has a place more than the list has
    nodes, all `NULL` at first. -/
def Valueset.skiplistMakeValueset (cfg : Settings) (fuel : Nat) (l : Skiplist) (f : Flash) :
    Except Stop Valueset :=
  if l.any fun n => n.value.any fun len => decide (8 < len) then .error .abort
  else
    let b := valueBuckets l
    match Valueset.writeFullPages cfg (b 8).reverse 0
        ⟨l, List.replicate (l.length + 1) none, [], f⟩ with
    | none => .error .abort
    | some (resIdx, v) =>
        let b : Buckets Key := Function.update b 8 []
        if (b.upTo 7).isEmpty then .ok v
        else
          (Valueset.variableValue2Page cfg (maxPiece b) resIdx fuel b v).map fun v =>
            { v with res := v.res.set resIdx none }

/-- The pages `compaction_data_write` programs: the array up to its `NULL`. -/
def Valueset.compactionDataWrite (v : Valueset) : List Nat :=
  (v.res.takeWhile Option.isSome).filterMap id

/-! ## Section 2: What the packing is for -/

/-- The pieces of the values of `l` whose nodes got address `ppa`. -/
def piecesAt (l nodes : Skiplist) (ppa : Nat) : Nat :=
  (((l.zip nodes).filter fun x => x.2.ppa = ppa).map fun x => x.1.value.getD 0).sum

/-- Each node has the address of one allocated page, a page holds at most
    eight pieces, and each allocated page is programmed once. -/
structure Packed (l : Skiplist) (v : Valueset) : Prop where
  placed : ∀ n ∈ v.nodes, v.pages.count n.ppa = 1
  fits : ∀ ppa, piecesAt l v.nodes ppa ≤ 8
  terminated : none ∈ v.res
  listed : v.compactionDataWrite.Perm v.pages
  once : v.pages.Nodup

/-- A value of one to eight pieces at every node. -/
def Valued (l : Skiplist) : Prop := ∀ n ∈ l, ∃ len, n.value = some len ∧ 0 < len ∧ len ≤ 8

/-- The flash after any calls of the allocator, whatever `piece_oob` holds. -/
def Flash.Reached (cfg : Settings) (f : Flash) : Prop :=
  ∃ s oob, (pageMachine cfg).Reachable s ∧ f.env = { s.env with pieceOob := oob } ∧
    f.page = s.page

/-! ## Section 3: Consecutive pages -/

/-- The `DATA` partition has handed out `n` pages. -/
def Flash.DataOut (cfg : Settings) (f : Flash) (n : Nat) : Prop :=
  ∃ out, (out .data).length = n ∧ PartOrdered cfg ⟨f.env, f.page, out⟩ .data

/-- `piece_oob` is no part of the order. -/
theorem PartOrdered.of_oob {e : Env} {page : Page} {out : PartType → List Nat} {type : PartType}
    (h : PartOrdered cfg ⟨e, page, out⟩ type) (oob : Nat → Oob) :
    PartOrdered cfg ⟨{ e with pieceOob := oob }, page, out⟩ type where
  cursor := ⟨h.cursor.minIdx, h.cursor.maxIdx, h.cursor.reserve, h.cursor.wp⟩
  reserve := h.reserve
  master := h.master
  active := h.active
  inRange := h.inRange
  out := h.out
  free := h.free

theorem Flash.Reached.dataOut {f : Flash} (h : f.Reached cfg) : ∃ n, f.DataOut cfg n := by
  obtain ⟨s, oob, hs, henv, hpage⟩ := h
  have hp := (pageMachine_ordered hs).parts .data
  refine ⟨_, s.out, rfl, ?_⟩
  rw [henv, hpage]
  exact hp.of_oob oob

theorem Flash.DataOut.setOob {f : Flash} {n : Nat} (h : f.DataOut cfg n) (ppa : Nat) (o : Oob) :
    (f.setOob ppa o).DataOut cfg n := by
  obtain ⟨out, hlen, hp⟩ := h
  exact ⟨out, hlen, hp.of_oob _⟩

theorem Flash.DataOut.note {f : Flash} {n : Nat} (h : f.DataOut cfg n) (key : Key) (home : Home) :
    (f.note key home).DataOut cfg n := h

theorem Flash.DataOut.getPage {f f' : Flash} {n ppa : Nat} (h : f.DataOut cfg n)
    (hget : f.getPage cfg = some (ppa, f')) :
    ppa = nthPage cfg .data n ∧ f'.DataOut cfg (n + 1) := by
  obtain ⟨out, hlen, hp⟩ := h
  obtain ⟨⟨p, e, page⟩, hg, heq⟩ := Option.map_eq_some_iff.mp hget
  cases heq
  have hppa := (getPage_spec hp hg).2.1
  have hstep : Alloc.getPage cfg ⟨f.env, f.page, out⟩ .data =
      some ⟨e, page, Function.update out .data (out .data ++ [ppa])⟩ := by
    unfold Alloc.getPage
    rw [hg]
    rfl
  refine ⟨by rw [hppa, ← hlen], _, ?_, hp.getPage_self hstep⟩
  rw [Function.update_self, List.length_append, hlen]
  rfl

/-- The `k` pages after the first `n`. -/
def pagesFrom (cfg : Settings) (n k : Nat) : List Nat :=
  (List.range' n k).map (nthPage cfg .data)

theorem pagesFrom_succ (n k : Nat) :
    pagesFrom cfg n (k + 1) = nthPage cfg .data n :: pagesFrom cfg (n + 1) k := rfl

/-- Addresses are 32 bits wide; fewer consecutive pages than that are distinct. -/
theorem pagesFrom_nodup (n : Nat) {k : Nat} (hk : k ≤ 4294967296) :
    (pagesFrom cfg n k).Nodup := by
  refine List.Nodup.map_on ?_ List.nodup_range'
  intro i hi j hj heq
  rw [List.mem_range'_1] at hi hj
  unfold nthPage at heq
  omega

/-! ## Section 4: Full pages -/

/-- The loop hands the next pages to its keys and lists each of them. -/
theorem Valueset.writeFullPages_spec {ks : List Key} {idx idx' n k : Nat} {v v' : Valueset}
    {listed : List Nat} (hd : v.flash.DataOut cfg n)
    (hres : v.res = listed.map some ++ List.replicate (ks.length + k) none)
    (hidx : listed.length = idx)
    (h : Valueset.writeFullPages cfg ks idx v = some (idx', v')) :
    idx' = idx + ks.length ∧ v'.flash.DataOut cfg (n + ks.length) ∧
      v'.pages = v.pages ++ pagesFrom cfg n ks.length ∧
      v'.res = (listed ++ pagesFrom cfg n ks.length).map some ++ List.replicate k none := by
  induction ks generalizing idx n v listed with
  | nil =>
      cases h
      refine ⟨rfl, hd, (List.append_nil _).symm, ?_⟩
      rw [hres, List.length_nil, Nat.zero_add]
      show _ = (listed ++ []).map some ++ _
      rw [List.append_nil]
  | cons key ks ih =>
      obtain ⟨⟨ppa, f⟩, hget, h⟩ := Option.bind_eq_some_iff.mp h
      simp only at h
      split_ifs at h with hinv
      obtain ⟨rfl, hd'⟩ := hd.getPage hget
      -- The page goes to the first free place of the result array.
      have hset : v.res.set idx (some (nthPage cfg .data n)) =
          (listed ++ [nthPage cfg .data n]).map some ++ List.replicate (ks.length + k) none := by
        rw [hres, List.length_cons, Nat.succ_add, List.replicate_succ]
        simp [← hidx]
      have hlen : (listed ++ [nthPage cfg .data n]).length = idx + 1 := by
        rw [List.length_append, hidx, List.length_singleton]
      obtain ⟨hi, hdo, hp, hr⟩ := ih (v := ⟨_, _, _, _⟩) (hd'.note key _) hset hlen h
      rw [List.length_cons, pagesFrom_succ]
      refine ⟨by omega, ?_, ?_, ?_⟩
      · rw [show n + (ks.length + 1) = n + 1 + ks.length by omega]
        exact hdo
      · rw [hp, List.append_assoc, List.singleton_append]
      · rw [hr, List.append_assoc, List.singleton_append]

/-- The nodes of `l` with the pages from the `n`-th on, one each. -/
def addressed (cfg : Settings) : Nat → Skiplist → Skiplist
  | _, [] => []
  | n, x :: l =>
      { x with ppa := nthPage cfg .data n, value := none } :: addressed cfg (n + 1) l

theorem map_ppa_addressed (n : Nat) (l : Skiplist) :
    (addressed cfg n l).map Snode.ppa = pagesFrom cfg n l.length := by
  induction l generalizing n with
  | nil => rfl
  | cons x l ih =>
      rw [List.length_cons, pagesFrom_succ, ← ih]
      rfl

theorem map_of_key_notMem {l : Skiplist} {key : Key} {g : Snode → Snode}
    (h : key ∉ Skiplist.keys l) : (l.map fun n => if n.key = key then g n else n) = l := by
  conv_rhs => rw [← List.map_id l]
  refine List.map_congr_left fun n hn => if_neg ?_
  intro heq
  exact h (heq ▸ List.mem_map_of_mem hn)

/-- A loop over the keys of the last nodes changes these, in order. -/
theorem Valueset.writeFullPages_nodes {l₁ l₂ : Skiplist} {idx idx' n : Nat} {v v' : Valueset}
    (hd : v.flash.DataOut cfg n) (hnodes : v.nodes = l₁ ++ l₂)
    (hkeys : (Skiplist.keys (l₁ ++ l₂)).Nodup)
    (h : Valueset.writeFullPages cfg (Skiplist.keys l₂) idx v = some (idx', v')) :
    v'.nodes = l₁ ++ addressed cfg n l₂ := by
  induction l₂ generalizing l₁ idx n v with
  | nil =>
      cases h
      exact hnodes
  | cons x l₂ ih =>
      obtain ⟨⟨ppa, f⟩, hget, h⟩ := Option.bind_eq_some_iff.mp h
      simp only at h
      split_ifs at h with hinv
      obtain ⟨rfl, hd'⟩ := hd.getPage hget
      obtain ⟨y, hy⟩ : ∃ y : Snode, y = { x with ppa := nthPage cfg .data n, value := none } :=
        ⟨_, rfl⟩
      have hsplit : Skiplist.keys (l₁ ++ x :: l₂) =
          Skiplist.keys l₁ ++ x.key :: Skiplist.keys l₂ := List.map_append
      rw [hsplit, List.nodup_middle, List.nodup_cons, List.mem_append, not_or] at hkeys
      -- Only the node with this key gets the address, the keys being distinct.
      have hmap : (v.nodes.map fun m =>
          if m.key = x.key then { m with ppa := nthPage cfg .data n, value := none } else m) =
          (l₁ ++ [y]) ++ l₂ := by
        rw [hnodes, List.map_append, map_of_key_notMem hkeys.1.1, List.map_cons, if_pos rfl,
          map_of_key_notMem hkeys.1.2, ← hy, List.append_assoc, List.singleton_append]
      have hnodup : (Skiplist.keys ((l₁ ++ [y]) ++ l₂)).Nodup := by
        have hk : Skiplist.keys ((l₁ ++ [y]) ++ l₂) =
            Skiplist.keys l₁ ++ x.key :: Skiplist.keys l₂ := by
          rw [List.append_assoc, hy]
          exact List.map_append
        rw [hk, List.nodup_middle, List.nodup_cons, List.mem_append, not_or]
        exact hkeys
      have hrest := ih (v := ⟨_, _, _, _⟩) (hd'.note x.key _) hmap hnodup h
      rw [hrest, hy, List.append_assoc, List.singleton_append]
      rfl

/-! ## Section 5: Shared pages -/

/-- A page takes a value, so the buckets get shorter. -/
theorem fillBin_shorter {b : Buckets Key} (h : b.upTo 8 ≠ []) :
    ((b.fillBin 8).2.upTo 8).length < (b.upTo 8).length := by
  obtain ⟨k, hk, hk8, hbk⟩ := Buckets.exists_stack_of_upTo h
  have hplaced : (b.fillBin 8).1 ≠ [] := Buckets.fill_ne_nil hk hk8 hbk
  have hperm := (@Buckets.fill_perm _ 8 0 8 8 b (Nat.le_refl 8)).length_eq
  rw [List.length_append, List.length_map] at hperm
  have hpos := List.length_pos_of_ne_nil hplaced
  unfold Buckets.fillBin at hpos ⊢
  omega

theorem Valueset.variableValue2Page_terminates {maxLen vIdx fuel : Nat} {b : Buckets Key}
    (v : Valueset) (hne : b.upTo 8 ≠ []) (hfuel : (b.upTo 8).length ≤ fuel) :
    Valueset.variableValue2Page cfg maxLen vIdx fuel b v ≠ .error .fuel := by
  induction fuel generalizing b v with
  | zero => exact absurd (List.length_eq_zero_iff.mp (Nat.le_zero.mp hfuel)) hne
  | succ fuel ih =>
      unfold Valueset.variableValue2Page
      split
      · exact (nomatch ·)
      · split_ifs with hinv
        · exact (nomatch ·)
        · dsimp only
          split
          · exact (nomatch ·)
          · split_ifs with hrest
            · exact (nomatch ·)
            -- Each page takes one value at least.
            · have hlt := fillBin_shorter hne
              apply ih
              · exact fun hnil => hrest (List.isEmpty_iff.mpr hnil)
              · omega

/-- Every page of the loop is one more of `pages`, but all go to one entry. -/
theorem Valueset.variableValue2Page_spec {maxLen vIdx fuel : Nat} {b : Buckets Key}
    {v v' : Valueset} (h : Valueset.variableValue2Page cfg maxLen vIdx fuel b v = .ok v') :
    v.pages.length < v'.pages.length ∧ ∃ x, v'.res = v.res.set vIdx x := by
  induction fuel generalizing b v with
  | zero => exact (nomatch h)
  | succ fuel ih =>
      unfold Valueset.variableValue2Page at h
      split at h
      · exact (nomatch h)
      · split_ifs at h with hinv
        dsimp only at h
        split at h
        · exact (nomatch h)
        · split_ifs at h with hrest
          · cases h
            refine ⟨?_, _, rfl⟩
            rw [List.length_append]
            exact Nat.lt_succ_self _
          -- The next page is noted at the same index again.
          · obtain ⟨hlen, x, hx⟩ := ih h
            rw [List.length_append] at hlen
            refine ⟨Nat.lt_of_succ_lt hlen, x, ?_⟩
            rw [hx, List.set_set]

/-! ## Section 6: The buckets -/

theorem valueBuckets_apply (l : Skiplist) (k : Nat) :
    valueBuckets l k = (Skiplist.keys (l.filter fun n => n.value = some k)).reverse := by
  induction l using List.reverseRecOn with
  | nil => rfl
  | append_singleton l n ih =>
      rw [List.filter_append]
      cases hval : n.value with
      | none =>
          rw [valueBuckets_append_none l hval, List.filter_cons_of_neg (by simp [hval]), ih]
          simp
      | some len =>
          rw [valueBuckets_append_some l hval]
          unfold Buckets.push
          by_cases hk : len = k
          · subst hk
            rw [List.filter_cons_of_pos (by simp [hval]), Function.update_self, ih]
            simp [Skiplist.keys]
          · rw [List.filter_cons_of_neg (by simp [hval, hk]),
              Function.update_of_ne (Ne.symm hk), ih]
            simp

/-- The buckets that `variable_value2Page` gets. -/
def smallBuckets (l : Skiplist) : Buckets Key := Function.update (valueBuckets l) 8 []

theorem upTo_smallBuckets (l : Skiplist) : (smallBuckets l).upTo 8 = (smallBuckets l).upTo 7 := by
  rw [Buckets.upTo, smallBuckets, Function.update_self, List.nil_append]

theorem upTo_smallBuckets_eq_nil {l : Skiplist} (hv : Valued l) :
    (smallBuckets l).upTo 7 = [] ↔ ∀ n ∈ l, n.value = some 8 := by
  have hstack : ∀ k, k ≤ 7 → smallBuckets l k = valueBuckets l k :=
    fun k hk => Function.update_of_ne (show k ≠ 8 by omega) ..
  constructor
  · intro hnil n hn
    obtain ⟨len, hval, hpos, hlen⟩ := hv n hn
    by_contra hne
    have hlt : len ≤ 7 := by
      refine Nat.le_of_lt_succ (Nat.lt_of_le_of_ne hlen fun heq => hne ?_)
      rw [hval, heq]
    -- A shorter value is in its stack, and that stack would not be empty.
    have hmem : n.key ∈ smallBuckets l len := by
      rw [hstack len hlt, valueBuckets_apply, List.mem_reverse]
      exact List.mem_map_of_mem (List.mem_filter.mpr ⟨hn, by simp [hval]⟩)
    have hup := Buckets.mem_upTo hpos hlt hmem
    rw [hnil] at hup
    exact List.not_mem_nil hup
  · intro hall
    by_contra hne
    obtain ⟨k, hpos, hk, hb⟩ := Buckets.exists_stack_of_upTo hne
    rw [hstack k hk, valueBuckets_apply] at hb
    apply hb
    rw [List.filter_eq_nil_iff.mpr]
    · rfl
    · intro n hn
      rw [hall n hn, decide_eq_true_eq, Option.some.injEq]
      omega

theorem length_upTo_smallBuckets {l : Skiplist} (hv : Valued l) :
    ((smallBuckets l).upTo 7).length ≤ l.length := by
  have hupto : (smallBuckets l).upTo 7 = (valueBuckets l).upTo 7 :=
    Buckets.upTo_update_of_lt _ (by decide) _
  rw [hupto]
  clear hupto
  induction l using List.reverseRecOn with
  | nil => exact Nat.le_refl _
  | append_singleton l n ih =>
      obtain ⟨len, hval, hpos, hlen⟩ := hv n (List.mem_append_right _ (List.mem_singleton_self n))
      have hrest := ih fun m hm => hv m (List.mem_append_left _ hm)
      have hpush : (((valueBuckets l).push len n.key).upTo 7).length ≤
          ((valueBuckets l).upTo 7).length + 1 := by
        by_cases h7 : len ≤ 7
        · exact (Buckets.upTo_push (valueBuckets l) n.key hpos h7).length_eq.le
        · rw [Buckets.push, Buckets.upTo_update_of_lt _ (by omega)]
          exact Nat.le_succ _
      rw [valueBuckets_append_some l hval, List.length_append, List.length_singleton]
      omega

/-! ## Section 7: Without the array -/

def Valueset.forget (v : Valueset) : Skiplist × Flash := (v.nodes, v.flash)

theorem forget_writeFullPages (ks : List Key) (idx : Nat) (v : Valueset) :
    (Valueset.writeFullPages cfg ks idx v).map (fun r => r.2.forget) =
      writeFullPages cfg ks v.nodes v.flash := by
  induction ks generalizing idx v with
  | nil => rfl
  | cons k ks ih =>
      unfold Valueset.writeFullPages writeFullPages
      rw [Option.map_bind]
      congr 1
      funext ⟨ppa, f⟩
      show Option.map _ (if _ then _ else _) = if _ then _ else _
      split_ifs with hinv
      · rfl
      · exact ih (idx + 1) ⟨_, _, _, _⟩

theorem forget_variableValue2Page {maxLen vIdx fuel : Nat} {b : Buckets Key} (v : Valueset)
    (hne : b.upTo 8 ≠ []) (hfuel : (b.upTo 8).length ≤ fuel) :
    (Valueset.variableValue2Page cfg maxLen vIdx fuel b v).toOption.map Valueset.forget =
      variableValue2Page cfg maxLen fuel b v.nodes v.flash := by
  induction fuel generalizing b v with
  | zero => exact absurd (List.length_eq_zero_iff.mp (Nat.le_zero.mp hfuel)) hne
  | succ fuel ih =>
      unfold Valueset.variableValue2Page variableValue2Page
      cases v.flash.getPage cfg with
      | none => rfl
      | some r =>
          dsimp only [Option.bind_some]
          by_cases hinv : oobIsInvalid (r.2.env.pieceOob r.1)
          · rw [if_pos hinv, if_pos hinv]
            rfl
          · rw [if_neg hinv, if_neg hinv]
            cases placeValues r.1 (b.fillBin 8).1 v.nodes (r.2.setOob r.1 ⟨true, maxLen⟩) with
            | none => rfl
            | some q =>
                dsimp only [Option.bind_some]
                by_cases hrest : ((b.fillBin 8).2.upTo 8).isEmpty
                · rw [if_pos hrest, if_pos hrest]
                  rfl
                · rw [if_neg hrest, if_neg hrest]
                  have hlt := fillBin_shorter hne
                  apply ih ⟨_, _, _, _⟩
                  · exact fun hnil => hrest (List.isEmpty_iff.mpr hnil)
                  · omega

theorem Valued.not_long {l : Skiplist} (hv : Valued l) :
    ¬ (l.any fun n => n.value.any fun len => decide (8 < len)) = true := by
  rw [List.any_eq_true]
  rintro ⟨n, hn, hlong⟩
  obtain ⟨len, hval, -, hlen⟩ := hv n hn
  rw [hval, Option.any_some, decide_eq_true_eq] at hlong
  omega

/-- The model of `Memtable` is this one without the array. -/
theorem forget_skiplistMakeValueset {l : Skiplist} (hv : Valued l) (f : Flash) :
    (Valueset.skiplistMakeValueset cfg l.length l f).toOption.map Valueset.forget =
      skiplistMakeValueset cfg l f := by
  unfold Valueset.skiplistMakeValueset skiplistMakeValueset
  rw [if_neg hv.not_long, if_neg hv.not_long]
  dsimp only
  have hfull := @forget_writeFullPages cfg (valueBuckets l 8).reverse 0
    ⟨l, List.replicate (l.length + 1) none, [], f⟩
  rw [← hfull]
  cases hw : Valueset.writeFullPages cfg (valueBuckets l 8).reverse 0
      ⟨l, List.replicate (l.length + 1) none, [], f⟩ with
  | none => rfl
  | some r =>
      have hnodes : r.2.nodes.length = l.length := by
        rw [hw] at hfull
        have hkeys := congrArg List.length (keys_writeFullPages hfull.symm)
        rwa [Skiplist.keys, Skiplist.keys, List.length_map, List.length_map] at hkeys
      show Option.map _ (Except.toOption (if _ then _ else _)) = if _ then _ else _
      have hb : Function.update (valueBuckets l) 8 [] = smallBuckets l := rfl
      rw [hb]
      by_cases hrest : ((smallBuckets l).upTo 7).isEmpty
      · rw [if_pos hrest, if_pos hrest]
        rfl
      · rw [if_neg hrest, if_neg hrest]
        rw [List.isEmpty_iff, ← upTo_smallBuckets] at hrest
        have hlen := length_upTo_smallBuckets hv
        rw [← upTo_smallBuckets] at hlen
        show _ = variableValue2Page cfg _ r.2.nodes.length _ r.2.nodes r.2.flash
        rw [hnodes, ← forget_variableValue2Page r.2 hrest hlen]
        cases Valueset.variableValue2Page cfg (maxPiece (smallBuckets l)) r.1 l.length
            (smallBuckets l) r.2 <;> rfl

/-! ## Section 8: The packing law -/

theorem Valueset.compactionDataWrite_eq {v : Valueset} {listed : List Nat} {k : Nat}
    (h : v.res = listed.map some ++ List.replicate k none) : v.compactionDataWrite = listed := by
  have htake : v.res.takeWhile Option.isSome = listed.map some := by
    rw [h, List.takeWhile_append_of_pos]
    · cases k with
      | zero => exact List.append_nil _
      | succ k => exact List.append_nil _
    · intro x hx
      obtain ⟨p, -, rfl⟩ := List.mem_map.mp hx
      rfl
  rw [Valueset.compactionDataWrite, htake, List.filterMap_map]
  exact List.filterMap_some

/-- Only full pages: one node a page, and the array lists them all. -/
theorem packed_addressed {l : Skiplist} {n : Nat} {v : Valueset} (hv : Valued l)
    (hlen : l.length ≤ 4294967296) (hnodes : v.nodes = addressed cfg n l)
    (hpages : v.pages = pagesFrom cfg n l.length)
    (hres : v.res = (pagesFrom cfg n l.length).map some ++ [none]) : Packed l v := by
  have hnodup : (pagesFrom cfg n l.length).Nodup := pagesFrom_nodup n hlen
  have hppa : v.nodes.map Snode.ppa = v.pages := by rw [hnodes, hpages, map_ppa_addressed]
  have hsame : v.nodes.length ≤ l.length := by
    have hcount := congrArg List.length hppa
    rw [List.length_map, hpages, pagesFrom, List.length_map, List.length_range'] at hcount
    exact hcount.le
  constructor
  · intro m hm
    rw [hpages]
    refine List.count_eq_one_of_mem hnodup ?_
    rw [← hpages, ← hppa]
    exact List.mem_map_of_mem hm
  -- Every page has a single value, of 8 pieces at most.
  · intro ppa
    refine sum_filter_le (g := fun x : Snode × Snode => x.2.ppa)
      (w := fun x : Snode × Snode => x.1.value.getD 0) ?_ ?_ ppa
    · have hzip : (l.zip v.nodes).map (fun x => x.2.ppa) = v.nodes.map Snode.ppa := by
        conv_rhs => rw [← List.map_snd_zip hsame, List.map_map]
        rfl
      rw [hzip, hppa, hpages]
      exact hnodup
    · intro x hx
      obtain ⟨len, hval, -, hle⟩ := hv x.1 (List.of_mem_zip hx).1
      rw [hval]
      exact hle
  · rw [hres]
    exact List.mem_append_right _ (List.mem_singleton.mpr rfl)
  · rw [Valueset.compactionDataWrite_eq (k := 1) hres, hpages]
  · rw [hpages]
    exact hnodup

/-- A shared page is allocated and not listed. -/
theorem not_packed_of_shared {l : Skiplist} {b : Buckets Key} {listed : List Nat}
    {maxLen fuel k : Nat} {v v' : Valueset} (hpages : v.pages = listed)
    (hres : v.res = listed.map some ++ List.replicate k none)
    (h : Valueset.variableValue2Page cfg maxLen listed.length fuel b v = .ok v') :
    ¬ Packed l { v' with res := v'.res.set listed.length none } := by
  intro hp
  obtain ⟨hlen, x, hx⟩ := Valueset.variableValue2Page_spec h
  have hset : v'.res.set listed.length none = listed.map some ++ List.replicate k none := by
    rw [hx, List.set_set, hres]
    cases k with
    | zero => exact List.set_eq_of_length_le (by simp)
    | succ k => simp [List.replicate_succ]
  have hcount := hp.listed.length_eq
  rw [Valueset.compactionDataWrite_eq hset, ← hpages] at hcount
  exact absurd hcount hlen.ne

/-- The call always ends, and packs exactly the lists whose values all fill a page. -/
theorem value_packing_iff {l : Skiplist} {f : Flash} {fuel : Nat} (hl : IsCut l) (hv : Valued l)
    (hf : f.Reached cfg) (hfuel : l.length ≤ fuel) :
    Valueset.skiplistMakeValueset cfg fuel l f ≠ .error .fuel ∧
      ∀ v, Valueset.skiplistMakeValueset cfg fuel l f = .ok v →
        (Packed l v ↔ ∀ n ∈ l, n.value = some 8) := by
  obtain ⟨n, hd⟩ := hf.dataOut
  have hsmall := upTo_smallBuckets_eq_nil hv
  obtain ⟨ks, hks⟩ : ∃ ks, ks = (valueBuckets l 8).reverse := ⟨_, rfl⟩
  have hkeys : ks = Skiplist.keys (l.filter fun n => n.value = some 8) := by
    rw [hks, valueBuckets_apply, List.reverse_reverse]
  have hcount : ks.length ≤ l.length := by
    rw [hkeys, Skiplist.keys, List.length_map]
    exact List.length_filter_le ..
  have hb : Function.update (valueBuckets l) 8 [] = smallBuckets l := rfl
  unfold Valueset.skiplistMakeValueset
  rw [if_neg hv.not_long]
  dsimp only
  rw [hb, ← hks]
  cases hw : Valueset.writeFullPages cfg ks 0 ⟨l, List.replicate (l.length + 1) none, [], f⟩ with
  | none =>
      constructor
      · intro h
        cases h
      · intro v h
        cases h
  | some r =>
      obtain ⟨resIdx, v₁⟩ := r
      have hres₀ : List.replicate (l.length + 1) (none : Option Nat) =
          ([] : List Nat).map some ++
          List.replicate (ks.length + (l.length + 1 - ks.length)) none := by
        rw [List.map_nil, List.nil_append]
        congr 1
        omega
      obtain ⟨hidx, hd₁, hpages, hres⟩ :=
        Valueset.writeFullPages_spec (v := ⟨_, _, _, _⟩) hd hres₀ rfl hw
      rw [List.nil_append] at hpages hres
      dsimp only
      by_cases hrest : ((smallBuckets l).upTo 7).isEmpty
      · -- no value is smaller than a page
        have hall := hsmall.mp (List.isEmpty_iff.mp hrest)
        rw [if_pos hrest]
        refine ⟨fun h => (by cases h), fun v h => ⟨fun _ => hall, fun _ => ?_⟩⟩
        cases h
        have hfilter : (l.filter fun n => n.value = some 8) = l :=
          List.filter_eq_self.mpr fun n hn => decide_eq_true (hall n hn)
        rw [hfilter] at hkeys
        have hlen : ks.length = l.length := by rw [hkeys, Skiplist.keys, List.length_map]
        have hnodup : (Skiplist.keys ([] ++ l)).Nodup :=
          hl.ordered.increasing.imp fun h => ne_of_lt h
        have hbound := hl.le.1
        rw [hkeys] at hw
        rw [hlen] at hpages hres
        have hnodes := @Valueset.writeFullPages_nodes cfg [] l _ _ _ ⟨_, _, _, _⟩ _ hd rfl hnodup hw
        refine packed_addressed (n := n) hv (hbound.trans (by decide)) hnodes hpages ?_
        rw [hres, Nat.add_sub_cancel_left]
        rfl
      · -- at least one page is shared
        rw [if_neg hrest]
        have hne : (smallBuckets l).upTo 7 ≠ [] := fun hnil => hrest (List.isEmpty_iff.mpr hnil)
        have hlen := length_upTo_smallBuckets hv
        rw [← upTo_smallBuckets] at hne hlen
        have hends := @Valueset.variableValue2Page_terminates cfg (maxPiece (smallBuckets l))
          resIdx fuel _ v₁ hne (hlen.trans hfuel)
        cases hvar : Valueset.variableValue2Page cfg (maxPiece (smallBuckets l)) resIdx fuel
            (smallBuckets l) v₁ with
        | error e =>
            refine ⟨fun h => hends ?_, fun v h => by cases h⟩
            cases h
            exact hvar
        | ok v₂ =>
            refine ⟨fun h => (by cases h), fun v h => ⟨fun hp => absurd hp ?_, fun hall => ?_⟩⟩
            · cases h
              have hlisted : (pagesFrom cfg n ks.length).length = resIdx := by
                rw [pagesFrom, List.length_map, List.length_range', hidx]
                exact (Nat.zero_add _).symm
              rw [← hlisted] at hvar ⊢
              exact not_packed_of_shared hpages hres hvar
            · exact absurd (hsmall.mpr hall) (upTo_smallBuckets l ▸ hne)

/-- The flash of the shipped sizes before the first flush. -/
def freshFlash : Option Flash :=
  (pageInit shipped (bmInit shipped)).map fun (page, e) => ⟨e, page, fun _ => none⟩

theorem freshFlash_reached {f : Flash} (h : freshFlash = some f) : f.Reached shipped := by
  obtain ⟨⟨page, e⟩, hinit, rfl⟩ := Option.map_eq_some_iff.mp h
  exact ⟨_, e.pieceOob, .init ⟨page, e, hinit, rfl⟩, rfl, rfl⟩

theorem valued_wideList {n ppa len : Nat} (hpos : 0 < len) (hlen : len ≤ 8) :
    Valued (wideList n ppa (some len)) := by
  intro m hm
  obtain ⟨i, -, rfl⟩ := List.mem_map.mp hm
  exact ⟨len, rfl, hpos, hlen⟩

/-- Eleven full pages are programmed. -/
theorem value_packing_full : ∃ f v, f.Reached shipped ∧
    Valueset.skiplistMakeValueset shipped 11 (wideList 11 0 (some 8)) f = .ok v ∧
      Packed (wideList 11 0 (some 8)) v := by
  have hrun : (freshFlash.bind fun f => (Valueset.skiplistMakeValueset shipped 11
      (wideList 11 0 (some 8)) f).toOption).isSome = true := by rfl
  obtain ⟨v, hv⟩ := Option.isSome_iff_exists.mp hrun
  obtain ⟨f, hf, hok⟩ := Option.bind_eq_some_iff.mp hv
  have hr := freshFlash_reached hf
  cases h : Valueset.skiplistMakeValueset shipped 11 (wideList 11 0 (some 8)) f with
  | error e =>
      rw [h] at hok
      exact (nomatch hok)
  | ok w =>
      have hlaw := (value_packing_iff (isCut_wideList 0 (some 8))
        (valued_wideList (by decide) (by decide)) hr (Nat.le_refl 11)).2 w h
      refine ⟨f, w, hr, h, hlaw.mpr fun n hn => ?_⟩
      obtain ⟨i, -, rfl⟩ := List.mem_map.mp hn
      rfl

/-- Eleven values of one piece take two pages, and none is programmed. -/
theorem value_packing_counterexample :
    ¬ ∀ cfg l f v, IsCut l → Valued l → f.Reached cfg →
      Valueset.skiplistMakeValueset cfg l.length l f = .ok v → Packed l v := by
  intro hall
  have hrun : (freshFlash.bind fun f => ((Valueset.skiplistMakeValueset shipped 11
      (wideList 11 0 (some 1)) f).toOption.map fun v =>
        (v.compactionDataWrite.length, v.pages.length))) = some (0, 2) := by decide +kernel
  obtain ⟨f, hf, hrun⟩ := Option.bind_eq_some_iff.mp hrun
  obtain ⟨v, hok, hlen⟩ := Option.map_eq_some_iff.mp hrun
  cases h : Valueset.skiplistMakeValueset shipped 11 (wideList 11 0 (some 1)) f with
  | error e =>
      rw [h] at hok
      exact (nomatch hok)
  | ok w =>
      rw [h] at hok
      cases hok
      have hp := hall shipped _ f _ (isCut_wideList 0 (some 1))
        (valued_wideList (by decide) (by decide)) (freshFlash_reached hf) h
      have hcount := hp.listed.length_eq
      rw [(Prod.mk.inj hlen).1, (Prod.mk.inj hlen).2] at hcount
      exact absurd hcount (by decide)

end AggreKV.LsmTree
