import AggreKV.Lib.BinarySearch
import AggreKV.LsmTree.MetaBytes

/-! # Readers of meta pages

    The hand-written readers of the format, on a page of bytes.

    * Keys are pointers into the page; `loadKey` is what a comparison reads.
    * `none` is an access outside the page.
    * `Holds.slotEntry`: on a page of the format, an index finds its slot. -/

namespace AggreKV.LsmTree

open Buffer BinarySearch SortedEntries

/-! ## Section 1: Slots -/

/-- A `KEYT` that points into a page; `len` is a `uint8_t`. -/
structure KeyRef where
  addr : Nat
  len : Nat
  deriving DecidableEq

/-- `key.len = b' - b - sizeof(ppa_t)` for the offsets `b` and `b'`. -/
def refLen (b b' : Nat) : Nat := (((b' : Int) - b - 4) % 256).toNat

/-- The key of slot `idx`, up to the next offset. -/
def slotRef (p : Buffer) (idx : Nat) : Option KeyRef :=
  (bitmap p idx).bind fun b => (bitmap p (idx + 1)).map fun b' => ⟨b + 4, refLen b b'⟩

/-- The bytes that a comparison reads. -/
def loadKey (p : Buffer) (r : KeyRef) : Option Key :=
  (read 4096 p r.addr r.len).bind fun bs => if h : bs.length ≤ 255 then some ⟨bs, h⟩ else none

def slotKey (p : Buffer) (idx : Nat) : Option Key := (slotRef p idx).bind (loadKey p)

/-- `*ppa_ptr`. -/
def slotPpa (p : Buffer) (idx : Nat) : Option Nat :=
  (bitmap p idx).bind fun b => (read 4096 p b 4).map leValue

def slotEntry (p : Buffer) (idx : Nat) : Option Entry :=
  (slotPpa p idx).bind fun ppa => (slotKey p idx).map fun k => (k, ppa)

/-! ## Section 2: Readers -/

/-- The loop of `for_each_header_start`, from index `idx` on. -/
def forEachFrom (p : Buffer) : Nat → Nat → Option (List Entry)
  | 0, _ => none
  | fuel + 1, idx =>
      (bitmap p idx).bind fun b => (bitmap p 0).bind fun n =>
        if b ≠ 65535 ∧ idx ≤ n then
          (slotEntry p idx).bind fun e => (forEachFrom p fuel (idx + 1)).map (e :: ·)
        else some []

/-- `for_each_header_start`: the entries its body sees. -/
def forEachHeader (p : Buffer) : Option (List Entry) :=
  (bitmap p 0).bind fun n => forEachFrom p (n + 1) 1

/-- `array_key_iter_nxt`: the entry and the next index, or `NULL`. -/
def arrayKeyIterNxt (p : Buffer) (idx : Nat) : Option (Option (Entry × Nat)) :=
  (bitmap p idx).bind fun b => (bitmap p 0).bind fun n =>
    if b = 65535 ∨ n < idx then some none
    else (slotEntry p idx).map fun e => some (e, idx + 1)

/-- `array_header_next_key`: the test is `GETNUMKEY > idx`. -/
def arrayHeaderNextKey (p : Buffer) (idx : Nat) : Option (Option (Entry × Nat)) :=
  (bitmap p 0).bind fun n =>
    if idx < n then (slotEntry p idx).map fun e => some (e, idx + 1) else some none

/-- Calls of an iterator until it returns `NULL`. -/
def drain (next : Nat → Option (Option (Entry × Nat))) : Nat → Nat → Option (List Entry)
  | 0, _ => none
  | fuel + 1, idx =>
      (next idx).bind fun r =>
        match r with
        | some (e, idx) => (drain next fuel idx).map (e :: ·)
        | none => some []

/-- `array_key_iter_init(page, 1)` and its calls. -/
def keyIterEntries (p : Buffer) : Option (List Entry) :=
  (bitmap p 0).bind fun n => drain (arrayKeyIterNxt p) (n + 1) 1

/-- What the binary searches of a page compare. -/
def cmpSlot (p : Buffer) (lpa : Key) (idx : Int) : Option Ordering :=
  (slotKey p idx.toNat).map fun target => keyCmp target lpa

/-- `array_find_keyset`: the address of the slot, or `NULL`. -/
def arrayFindKeyset (p : Buffer) (lpa : Key) : Option (Option Nat) :=
  (bitmap p 0).bind fun n => (searchLoop (cmpSlot p lpa) (n + 1) 1 n none).bind fun r =>
    match r with
    | .hit mid => (bitmap p mid.toNat).map some
    | .miss _ _ _ => some none

/-- `array_find_idx_lower_bound`; `mid` and `res` start as 0. -/
def arrayFindIdxLowerBound (p : Buffer) (lpa : Key) : Option Nat :=
  (bitmap p 0).bind fun n => (searchLoop (cmpSlot p lpa) (n + 1) 1 n none).map fun r =>
    match r with
    | .hit mid => mid.toNat
    | .miss _ _ (some (mid, .lt)) => (mid + 1).toNat
    | .miss _ _ (some (mid, _)) => mid.toNat
    | .miss _ _ none => 0

/-- `array_header_get_keyiter(key)` on a page, and the calls of `array_header_next_key`. -/
def headerIterEntries (p : Buffer) (key : Key) : Option (List Entry) :=
  (bitmap p 0).bind fun n => (arrayFindIdxLowerBound p key).bind fun idx =>
    drain (arrayHeaderNextKey p) (n + 1) idx

/-- `array_find_keyset_first`: the two offsets are subtracted the wrong way round. -/
def arrayFindKeysetFirst (p : Buffer) : Option KeyRef :=
  (bitmap p 1).bind fun b => (bitmap p 2).map fun b' => ⟨b + 4, refLen b' b⟩

/-- `array_find_keyset_last`, likewise. -/
def arrayFindKeysetLast (p : Buffer) : Option KeyRef :=
  (bitmap p 0).bind fun e =>
    (bitmap p e).bind fun b => (bitmap p (e + 1)).map fun b' => ⟨b + 4, refLen b' b⟩

/-- `array_get_lpa_from_data(data, ppa, true)`: the loop returns from its first iteration. -/
def arrayGetLpaFromData (p : Buffer) : Option (Option Key) :=
  (bitmap p 1).bind fun b => (bitmap p 0).bind fun n =>
    if b ≠ 65535 ∧ 1 ≤ n then (slotKey p 1).map some else some none

/-! ## Section 3: Pages of the format -/

/-- What a page of the format holds: it fits, and addresses are of type `ppa_t`. -/
structure MetaPage (p : Buffer) (m : Meta) : Prop extends Holds p m where
  fits : Fits m
  ppa32 : ∀ e ∈ m, e.2 < 4294967296

theorem refLen_slot {b len : Nat} (h : len ≤ 255) : refLen b (b + (len + 4)) = len := by
  unfold refLen
  omega

/-- Subtracted the wrong way round, the length is right for two lengths only. -/
theorem refLen_swapped {b len : Nat} (h : len ≤ 255) :
    refLen (b + (len + 4)) b = len ↔ len = 124 ∨ len = 252 := by
  unfold refLen
  omega

theorem loadKey_length {p : Buffer} {r : KeyRef} {k : Key} (h : loadKey p r = some k) :
    k.len = r.len := by
  obtain ⟨bs, hbs, h⟩ := Option.bind_eq_some_iff.mp h
  split at h
  · cases h
    exact length_read hbs
  · cases h

namespace MetaPage

variable {p : Buffer} {m : Meta} {i : Nat} {e : Entry}

/-- Every offset lies behind the table and inside the page. -/
theorem bitmap_slot (h : MetaPage p m) (hi : i ≤ m.length) :
    bitmap p (i + 1) = some (slotOffset m i) := by
  rcases Nat.lt_or_eq_of_le hi with hlt | rfl
  · exact h.offset i hlt
  · exact h.last

theorem slotOffset_le (h : MetaPage p m) (hi : i ≤ m.length) : slotOffset m i ≤ 4096 :=
  (slotOffset_mono m hi).trans h.fits.data

theorem loadKey_slot (h : MetaPage p m) (he : m[i]? = some e) :
    loadKey p ⟨slotOffset m i + 4, e.1.len⟩ = some e.1 := by
  unfold loadKey
  rw [h.key i e he, Option.bind_some, dif_pos e.1.len_le]

theorem slotKey (h : MetaPage p m) (he : m[i]? = some e) : slotKey p (i + 1) = some e.1 := by
  have hlt : i < m.length := (List.getElem?_eq_some_iff.mp he).1
  have hnext := h.bitmap_slot (show i + 1 ≤ m.length from hlt)
  rw [slotOffset_succ he] at hnext
  have hlen : e.1.len ≤ 255 := e.1.len_le
  unfold LsmTree.slotKey slotRef
  rw [h.bitmap_slot hlt.le, Option.bind_some, hnext, Option.map_some, Option.bind_some,
    refLen_slot hlen]
  exact h.loadKey_slot he

theorem slotPpa (h : MetaPage p m) (he : m[i]? = some e) : slotPpa p (i + 1) = some e.2 := by
  have hlt : i < m.length := (List.getElem?_eq_some_iff.mp he).1
  have hsmall := h.ppa32 e (List.mem_of_getElem? he)
  unfold LsmTree.slotPpa
  rw [h.bitmap_slot hlt.le, Option.bind_some, h.ppa i e he, Option.map_some,
    leValue_leBytes hsmall]

theorem slotEntry (h : MetaPage p m) (he : m[i]? = some e) : slotEntry p (i + 1) = some e := by
  unfold LsmTree.slotEntry
  rw [h.slotPpa he, Option.bind_some, h.slotKey he]
  rfl

/-- The marker that ends the loops early is no offset. -/
theorem offset_ne_marker (h : MetaPage p m) (hi : i ≤ m.length) : slotOffset m i ≠ 65535 := by
  have hle := h.slotOffset_le hi
  omega

theorem forEachFrom (h : MetaPage p m) (fuel : Nat) : ∀ i, i ≤ m.length → m.length < i + fuel →
    forEachFrom p fuel (i + 1) = some (m.drop i) := by
  induction fuel with
  | zero =>
    intro i hi hf
    omega
  | succ fuel ih =>
    intro i hi hf
    unfold LsmTree.forEachFrom
    rw [h.bitmap_slot hi, Option.bind_some, h.count, Option.bind_some]
    by_cases hlt : i < m.length
    · have he : m[i]? = some m[i] := List.getElem?_eq_getElem hlt
      rw [if_pos ⟨h.offset_ne_marker hi, hlt⟩, h.slotEntry he, Option.bind_some,
        ih (i + 1) hlt (by omega), Option.map_some, List.drop_eq_getElem_cons hlt]
    · have heq : i = m.length := by omega
      rw [if_neg (fun hc => hlt hc.2), heq, List.drop_length]

theorem forEachHeader (h : MetaPage p m) : forEachHeader p = some m := by
  unfold LsmTree.forEachHeader
  rw [h.count, Option.bind_some]
  exact h.forEachFrom (m.length + 1) 0 (Nat.zero_le _) (by omega)

/-- An iterator that stops behind slot `stop`. -/
theorem drain {next : Nat → Option (Option (Entry × Nat))} {stop : Nat} (hstop : stop ≤ m.length)
    (hnext : ∀ i e, i < stop → m[i]? = some e → next (i + 1) = some (some (e, i + 2)))
    (hend : ∀ i, stop ≤ i → i ≤ m.length → next (i + 1) = some none) (fuel : Nat) :
    ∀ i, i ≤ m.length → m.length < i + fuel →
      drain next fuel (i + 1) = some ((m.take stop).drop i) := by
  induction fuel with
  | zero =>
    intro i hi hf
    omega
  | succ fuel ih =>
    intro i hi hf
    unfold LsmTree.drain
    by_cases hlt : i < stop
    · have hlen : i < m.length := Nat.lt_of_lt_of_le hlt hstop
      have htake : i < (m.take stop).length := by
        rw [List.length_take]
        omega
      rw [hnext i m[i] hlt (List.getElem?_eq_getElem hlen), Option.bind_some]
      dsimp only
      rw [ih (i + 1) hlen (by omega), Option.map_some, List.drop_eq_getElem_cons htake,
        List.getElem_take]
    · rw [hend i (by omega) hi, Option.bind_some]
      dsimp only
      rw [List.drop_eq_nil_of_le (by rw [List.length_take]; omega)]

theorem keyIterEntries (h : MetaPage p m) : keyIterEntries p = some m := by
  have hdrain := @drain m (arrayKeyIterNxt p) m.length (Nat.le_refl _)
    (fun i e hi he => ?_) (fun i hi hi' => ?_) (m.length + 1) 0 (Nat.zero_le _) (by omega)
  · unfold LsmTree.keyIterEntries
    rw [h.count, Option.bind_some, hdrain, List.take_length, List.drop_zero]
  · unfold arrayKeyIterNxt
    rw [h.bitmap_slot hi.le, Option.bind_some, h.count, Option.bind_some,
      if_neg (fun hc => hc.elim (h.offset_ne_marker hi.le) (by omega)), h.slotEntry he]
    rfl
  · unfold arrayKeyIterNxt
    rw [h.bitmap_slot hi', Option.bind_some, h.count, Option.bind_some, if_pos (Or.inr (by omega))]

/-! ## Section 4: The searches of a page -/

theorem cmpSlot (h : MetaPage p m) (lpa : Key) (he : m[i]? = some e) :
    cmpSlot p lpa ((i : Int) + 1) = some (keyCmp e.1 lpa) := by
  have hnat : ((i : Int) + 1).toNat = i + 1 := by omega
  unfold LsmTree.cmpSlot
  rw [hnat, h.slotKey he, Option.map_some]

/-- The comparison with slot `j`, for positions counted from 1. -/
def order (m : Meta) (lpa : Key) (j : Int) : Ordering :=
  match m[(j - 1).toNat]? with
  | some e => keyCmp e.1 lpa
  | none => .gt

theorem order_eq {lpa : Key} {j : Int} (hj : 1 ≤ j) (he : m[i]? = some e) (hi : j = (i : Int) + 1) :
    order m lpa j = keyCmp e.1 lpa := by
  have hnat : (j - 1).toNat = i := by omega
  unfold order
  rw [hnat, he]

theorem inOrder (h : MetaPage p m) (hm : Increasing m) (lpa : Key) :
    InOrder (LsmTree.cmpSlot p lpa) (order m lpa) 1 m.length := by
  have hslot : ∀ j : Int, 1 ≤ j → j ≤ m.length → ∃ i, ∃ (hi : i < m.length), j = (i : Int) + 1 ∧
      order m lpa j = keyCmp m[i].1 lpa := by
    intro j h₁ h₂
    refine ⟨(j - 1).toNat, by omega, by omega, ?_⟩
    exact order_eq h₁ (List.getElem?_eq_getElem (by omega)) (by omega)
  have hlt : ∀ i j, i < j → ∀ (hi : i < m.length) (hj : j < m.length), m[i].1 < m[j].1 :=
    fun i j hij hi hj => List.pairwise_iff_getElem.mp hm i j hi hj hij
  -- Slots count from 1, and the comparison follows the order of the keys.
  refine ⟨fun j h₁ h₂ => ?_, fun j k h₁ hjk h₂ hk => ?_, fun j k h₁ hjk h₂ hj => ?_⟩
  · obtain ⟨i, hi, rfl, ho⟩ := hslot j h₁ h₂
    rw [ho]
    exact h.cmpSlot lpa (List.getElem?_eq_getElem hi)
  · obtain ⟨i, hi, hij, ho⟩ := hslot j h₁ (by omega)
    obtain ⟨i', hi', hij', ho'⟩ := hslot k (by omega) h₂
    rw [ho', ne_eq, keyCmp_gt, not_lt] at hk
    rw [ho, keyCmp_lt]
    exact (hlt i i' (by omega) hi hi').trans_le hk
  · obtain ⟨i, hi, hij, ho⟩ := hslot j h₁ (by omega)
    obtain ⟨i', hi', hij', ho'⟩ := hslot k (by omega) h₂
    rw [ho, ne_eq, keyCmp_lt, not_lt] at hj
    rw [ho', keyCmp_gt]
    exact hj.trans_lt (hlt i i' (by omega) hi hi')

theorem search (h : MetaPage p m) (hm : Increasing m) (lpa : Key) :
    ∃ r, searchLoop (LsmTree.cmpSlot p lpa) (m.length + 1) 1 m.length none = some r ∧
      Ends (order m lpa) 1 m.length r :=
  searchLoop_ends (h.inOrder hm lpa) (by decide) (by omega) (by omega)

/-- Position `i` is the first one, counted from 0, whose key is not below `lpa`. -/
structure FirstNotBelow (m : Meta) (lpa : Key) (i : Nat) : Prop where
  le : i ≤ m.length
  below : ∀ j e, j < i → m[j]? = some e → e.1 < lpa
  notBelow : ∀ j e, i ≤ j → m[j]? = some e → lpa ≤ e.1

/-- Every comparison behind a position tells on which side of `lpa` it is. -/
theorem firstNotBelow_of_order {lpa : Key} {i : Nat} (hi : i ≤ m.length)
    (hbelow : ∀ j, j < i → order m lpa ((j : Int) + 1) = .lt)
    (habove : ∀ j, i ≤ j → j < m.length → order m lpa ((j : Int) + 1) ≠ .lt) :
    FirstNotBelow m lpa i := by
  refine ⟨hi, fun j e hj he => ?_, fun j e hj he => ?_⟩
  · have ho := hbelow j hj
    rw [order_eq (by omega) he rfl, keyCmp_lt] at ho
    exact ho
  · have hlt : j < m.length := (List.getElem?_eq_some_iff.mp he).1
    have ho := habove j hj hlt
    rw [order_eq (by omega) he rfl, ne_eq, keyCmp_lt, not_lt] at ho
    exact ho

/-- The lower bound of a page with at least one entry. -/
theorem arrayFindIdxLowerBound_spec (h : MetaPage p m) (hm : Increasing m) (hne : m ≠ [])
    (lpa : Key) :
    ∃ i, arrayFindIdxLowerBound p lpa = some (i + 1) ∧ FirstNotBelow m lpa i := by
  have hpos : 0 < m.length := List.length_pos_of_ne_nil hne
  have hord := h.inOrder hm lpa
  obtain ⟨r, hr, hends⟩ := h.search hm lpa
  unfold arrayFindIdxLowerBound
  rw [h.count, Option.bind_some, hr, Option.map_some]
  cases hends with
  -- The key is there.
  | hit hlo hhi heq =>
      rename_i mid
      refine ⟨(mid - 1).toNat, congrArg some (by dsimp only; omega), ?_⟩
      apply firstNotBelow_of_order (by omega)
      · intro j hj
        exact hord.below _ mid (by omega) (by omega) hhi (by rw [heq]; decide)
      · intro j hj hlt
        rcases Int.lt_or_eq_of_le (show mid ≤ (j : Int) + 1 by omega) with hgt | heq'
        · rw [hord.above mid _ hlo hgt (by omega) (by rw [heq]; decide)]
          decide
        · rw [← heq', heq]
          decide
  | miss hempty hlo hhi hbelow habove hlast =>
      rename_i start stop last
      have hfirst : FirstNotBelow m lpa (start - 1).toNat := by
        apply firstNotBelow_of_order (by omega)
        · intro j hj
          exact hbelow _ (by omega) (by omega)
        · intro j hj hlt
          rw [habove _ (by omega) (by omega)]
          decide
      refine ⟨(start - 1).toNat, congrArg some ?_, hfirst⟩
      -- The last comparison says on which side of the bounds the answer is.
      match last, hlast with
      | none, hlast =>
          have hzero := hlast.2
          omega
      | some (mid, .lt), hlast =>
          have hmid := hlast.1
          dsimp only
          omega
      | some (mid, .gt), hlast =>
          have hmid : mid = start := hlast.1
          dsimp only
          omega

/-- `array_find_keyset` finds the slot of every key of the page. -/
theorem arrayFindKeyset_mem (h : MetaPage p m) (hm : Increasing m) (he : m[i]? = some e) :
    arrayFindKeyset p e.1 = some (some (slotOffset m i)) := by
  have hlt : i < m.length := (List.getElem?_eq_some_iff.mp he).1
  have hself : order m e.1 ((i : Int) + 1) = .eq := by
    rw [order_eq (by omega) he rfl, keyCmp_eq]
  have hord := h.inOrder hm e.1
  obtain ⟨r, hr, hends⟩ := h.search hm e.1
  unfold arrayFindKeyset
  rw [h.count, Option.bind_some, hr, Option.bind_some]
  cases hends with
  | hit hlo hhi heq =>
      rename_i mid
      have hmid : mid = (i : Int) + 1 := by
        rcases Int.lt_trichotomy mid ((i : Int) + 1) with hlow | hmid | hhigh
        · have hlow' := hord.below mid _ hlo hlow (by omega) (by rw [hself]; decide)
          rw [heq] at hlow'
          exact absurd hlow' (by decide)
        · exact hmid
        · have hhigh' := hord.above _ mid (by omega) hhigh hhi (by rw [hself]; decide)
          rw [heq] at hhigh'
          exact absurd hhigh' (by decide)
      have hnat : mid.toNat = i + 1 := by omega
      dsimp only
      rw [hnat, h.bitmap_slot hlt.le, Option.map_some]
  -- The search cannot miss: the slot itself would be on one side.
  | miss hempty hlo hhi hbelow habove hlast =>
      rename_i start stop last
      rcases Int.lt_or_le ((i : Int) + 1) start with hlow | hhigh
      · have hc := hbelow _ (by omega) hlow
        rw [hself] at hc
        exact absurd hc (by decide)
      · have hc := habove _ hhigh (by omega)
        rw [hself] at hc
        exact absurd hc (by decide)

/-- And `NULL` for every other key. -/
theorem arrayFindKeyset_not_mem (h : MetaPage p m) (hm : Increasing m) {lpa : Key}
    (hn : ∀ e ∈ m, e.1 ≠ lpa) : arrayFindKeyset p lpa = some none := by
  obtain ⟨r, hr, hends⟩ := h.search hm lpa
  unfold arrayFindKeyset
  rw [h.count, Option.bind_some, hr, Option.bind_some]
  cases hends with
  | hit hlo hhi heq =>
      rename_i mid
      have hlt : (mid - 1).toNat < m.length := by omega
      have he : m[(mid - 1).toNat]? = some m[(mid - 1).toNat] := List.getElem?_eq_getElem hlt
      rw [order_eq hlo he (by omega), keyCmp_eq] at heq
      exact absurd heq (hn _ (List.getElem_mem hlt))
  | miss hempty hlo hhi hbelow habove hlast => rfl

/-! ## Section 5: The iterator from a key -/

/-- The entries from the first one not below the key on are those not below it. -/
theorem FirstNotBelow.drop_eq {lpa : Key} (h : FirstNotBelow m lpa i) :
    m.drop i = m.filter fun e => decide (lpa ≤ e.1) := by
  have htake : (m.take i).filter (fun e => decide (lpa ≤ e.1)) = [] := by
    rw [List.filter_eq_nil_iff]
    intro e he
    obtain ⟨j, hj⟩ := List.mem_iff_getElem?.mp he
    have hji : j < i := by
      have hlen := (List.getElem?_eq_some_iff.mp hj).1
      rw [List.length_take] at hlen
      omega
    rw [List.getElem?_take_of_lt hji] at hj
    rw [decide_eq_true_iff, not_le]
    exact h.below j e hji hj
  -- The filter removes all of the first part and nothing of the second.
  have hdrop : (m.drop i).filter (fun e => decide (lpa ≤ e.1)) = m.drop i := by
    rw [List.filter_eq_self]
    intro e he
    obtain ⟨j, hj⟩ := List.mem_iff_getElem?.mp he
    rw [List.getElem?_drop] at hj
    rw [decide_eq_true_iff]
    exact h.notBelow (i + j) e (by omega) hj
  have happend : m.filter (fun e => decide (lpa ≤ e.1)) =
      ((m.take i) ++ (m.drop i)).filter (fun e => decide (lpa ≤ e.1)) := by
    rw [List.take_append_drop]
  rw [happend, List.filter_append, htake, hdrop, List.nil_append]

/-- `array_header_next_key` leaves out the last entry of the page. -/
theorem headerIterEntries (h : MetaPage p m) (hm : Increasing m) (hne : m ≠ []) (key : Key) :
    headerIterEntries p key = some (m.dropLast.filter fun e => decide (key ≤ e.1)) := by
  have hpos : 0 < m.length := List.length_pos_of_ne_nil hne
  obtain ⟨i, hi, hfirst⟩ := h.arrayFindIdxLowerBound_spec hm hne key
  have hdrain := @drain m (arrayHeaderNextKey p) (m.length - 1) (Nat.sub_le _ _)
    (fun i e hi he => ?_) (fun i hi hi' => ?_) (m.length + 1) i hfirst.le (by omega)
  · unfold LsmTree.headerIterEntries
    rw [h.count, Option.bind_some, hi, Option.bind_some, hdrain, ← List.dropLast_eq_take]
    -- the bound of the shorter list
    have hshort : FirstNotBelow m.dropLast key (min i (m.length - 1)) := by
      refine ⟨by rw [List.length_dropLast]; omega, fun j e hj he => ?_, fun j e hj he => ?_⟩
      · have hlt : j < m.length - 1 := by omega
        rw [List.dropLast_eq_take, List.getElem?_take_of_lt hlt] at he
        exact hfirst.below j e (by omega) he
      · have hlt := (List.getElem?_eq_some_iff.mp he).1
        rw [List.length_dropLast] at hlt
        rw [List.dropLast_eq_take, List.getElem?_take_of_lt hlt] at he
        exact hfirst.notBelow j e (by omega) he
    rw [← hshort.drop_eq]
    rcases Nat.le_total i (m.length - 1) with hle | hge
    · rw [Nat.min_eq_left hle]
    · rw [Nat.min_eq_right hge, List.drop_eq_nil_of_le (by rw [List.length_dropLast]; omega),
        List.drop_eq_nil_of_le (by rw [List.length_dropLast])]
  · unfold arrayHeaderNextKey
    rw [h.count, Option.bind_some, if_pos (by omega), h.slotEntry he]
    rfl
  · unfold arrayHeaderNextKey
    rw [h.count, Option.bind_some, if_neg (by omega)]

end MetaPage

end AggreKV.LsmTree
