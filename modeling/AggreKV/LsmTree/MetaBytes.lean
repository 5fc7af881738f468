import AggreKV.Lib.ByteBuffer
import AggreKV.LsmTree.CutList
import AggreKV.LsmTree.PageMerge

/-! # Meta pages in bytes

    The three writers of the format: `array_mem_cvt2table`,
    `array_skip_cvt2_data`, and `pbody_insert_new_key` of the merge.

    * A page is `PAGESIZE` bytes. `bitmap[0]` is the number of entries,
      `bitmap[i]` the offset of slot `i`, and one more offset ends the last.
    * `none` is an access outside the page, or an abort.
    * `Holds`: the bytes are those of a list of slots. Every writer leaves a
      page that holds what it was given, if that fits. -/

namespace AggreKV.LsmTree

open Buffer

/-! ## Section 1: Writers -/

/-- `bitmap[i]`. -/
def bitmap (p : Buffer) (i : Nat) : Option Nat := (read 4096 p (2 * i) 2).map leValue

/-- An assignment to `bitmap[i]`, truncated to `uint16_t`. -/
def setBitmap (p : Buffer) (i v : Nat) : Option Buffer := write 4096 p (2 * i) (leBytes 2 v)

/-- A page half written: the next index and the next offset. -/
structure PageWriter where
  page : Buffer
  idx : Nat
  dataStart : Nat

/-- The statements all writers share: the address, the key, the offset. -/
def putSlot (modulus : Nat) (w : PageWriter) (e : Entry) : Option PageWriter :=
  (write 4096 w.page w.dataStart (leBytes 4 e.2)).bind fun p =>
    (write 4096 p (w.dataStart + 4) e.1.bytes).bind fun p =>
      (setBitmap p w.idx w.dataStart).map fun p =>
        ⟨p, w.idx + 1, (w.dataStart + (e.1.len + 4)) % modulus⟩

/-- `array_mem_cvt2table` inside its loop. -/
structure TableWriter extends PageWriter where
  key : Option Key
  endKey : Option Key

/-- The body of the loop of `array_mem_cvt2table`; `data_start` is a `uint16_t`. -/
def cvtNode (size : Nat) (w : TableWriter) (n : Snode) : Option TableWriter :=
  let w := if w.idx = 1 then { w with key := some n.key }
    else if w.idx = size then { w with endKey := some n.key } else w
  (putSlot 65536 w.toPageWriter (n.key, n.ppa)).map fun p => { w with toPageWriter := p }

/-- `array_mem_cvt2table`, on a run whose keys are not set: the page, `key` and `end`. The
    `memset` covers half of the table. -/
def arrayMemCvt2tableBytes (sets : Buffer) (mem : Skiplist) :
    Option (Buffer × Option Key × Option Key) :=
  (write 4096 sets 0 (List.replicate 512 255)).bind fun p =>
    (setBitmap p 0 mem.length).bind fun p =>
      (mem.foldlM (cvtNode mem.length) ⟨⟨p, 1, 1024⟩, none, none⟩).bind fun w =>
        (setBitmap w.page w.idx w.dataStart).map fun p => (p, w.key, w.endKey)

/-- The body of the loop of `array_skip_cvt2_data`. -/
def skipNode (w : PageWriter) (n : Snode) : Option PageWriter :=
  if keyValCheck n.key then putSlot 65536 w (n.key, n.ppa) else none

/-- `array_skip_cvt2_data`, into `res` as `malloc` returns it. -/
def arraySkipCvt2DataBytes (res : Buffer) (mem : Skiplist) : Option Buffer :=
  (mem.foldlM skipNode ⟨res, 1, 1024⟩).bind fun w =>
    (setBitmap w.page 0 (w.idx - 1)).bind fun p => setBitmap p w.idx w.dataStart

/-- The bytes of a page of the merge: `new_page_set`, the entries that
    `pbody_insert_new_key` puts there, and the statements that close it. `length` is a
    `uint32_t`. -/
def pbodyPageBytes (res : Buffer) (m : Meta) : Option Buffer :=
  (m.foldlM (putSlot 4294967296) ⟨res, 1, 1024⟩).bind fun w =>
    (setBitmap w.page 0 (w.idx - 1)).bind fun p => setBitmap p w.idx w.dataStart

/-! ## Section 2: What a page holds -/

/-- The table and the data of the slots end inside the page. -/
structure Fits (m : Meta) : Prop where
  table : m.length ≤ 510
  data : slotOffset m m.length ≤ 4096

/-- The slots as far as they are written. -/
structure Slots (p : Buffer) (m : Meta) : Prop where
  offset : ∀ i < m.length, bitmap p (i + 1) = some (slotOffset m i)
  ppa : ∀ i e, m[i]? = some e → read 4096 p (slotOffset m i) 4 = some (leBytes 4 e.2)
  key : ∀ i e, m[i]? = some e → read 4096 p (slotOffset m i + 4) e.1.len = some e.1.bytes

/-- A page of the format. -/
structure Holds (p : Buffer) (m : Meta) : Prop extends Slots p m where
  count : bitmap p 0 = some m.length
  last : bitmap p (m.length + 1) = some (slotOffset m m.length)

theorem WellFormed.fits {m : Meta} (h : WellFormed m) : Fits m := by
  have ht := h.table
  exact ⟨by omega, h.data⟩

theorem slotOffset_ge (m : Meta) (i : Nat) : 1024 ≤ slotOffset m i := Nat.le_add_right _ _

theorem slotOffset_succ {m : Meta} {i : Nat} {e : Entry} (h : m[i]? = some e) :
    slotOffset m (i + 1) = slotOffset m i + (e.1.len + 4) := by
  unfold slotOffset
  rw [List.take_add_one, h, List.map_append, List.sum_append]
  simp [entryLen, keyLen, Nat.add_assoc]

theorem slotOffset_mono (m : Meta) {i j : Nat} (h : i ≤ j) : slotOffset m i ≤ slotOffset m j := by
  obtain ⟨k, rfl⟩ := Nat.exists_eq_add_of_le h
  unfold slotOffset
  rw [List.take_add, List.map_append, List.sum_append]
  omega

/-- The slots before the last one start where they did. -/
theorem slotOffset_concat (m : Meta) (e : Entry) {i : Nat} (h : i ≤ m.length) :
    slotOffset (m ++ [e]) i = slotOffset m i := by
  unfold slotOffset
  rw [List.take_append_of_le_length h]

theorem Fits.of_append {m l : Meta} (h : Fits (m ++ l)) : Fits m := by
  have hlen := h.table
  have hdata := h.data
  rw [List.length_append] at hlen
  refine ⟨by omega, ?_⟩
  have hsame : slotOffset (m ++ l) m.length = slotOffset m m.length := by
    unfold slotOffset
    rw [List.take_append_of_le_length (Nat.le_refl _)]
  have hmono : slotOffset (m ++ l) m.length ≤ slotOffset (m ++ l) (m ++ l).length :=
    slotOffset_mono _ (by simp)
  omega

theorem Fits.slot {m : Meta} (h : Fits m) {i : Nat} {e : Entry} (he : m[i]? = some e) :
    slotOffset m i + 4 + e.1.len ≤ 4096 := by
  have hlt : i < m.length := (List.getElem?_eq_some_iff.mp he).1
  have hnext := slotOffset_succ he
  have hmono := slotOffset_mono m (show i + 1 ≤ m.length from hlt)
  have hdata := h.data
  omega

/-! ## Section 3: The loops -/

/-- The writer has written the slots of `m`. -/
structure Written (w : PageWriter) (m : Meta) : Prop extends Slots w.page m where
  idx : w.idx = m.length + 1
  dataStart : w.dataStart = slotOffset m m.length

theorem bitmap_setBitmap_self {p q : Buffer} {i v : Nat} (h : setBitmap p i v = some q)
    (hv : v < 65536) : bitmap q i = some v := by
  have hr := read_write_self h
  rw [length_leBytes] at hr
  unfold bitmap
  rw [hr, Option.map_some, leValue_leBytes hv]

theorem bitmap_setBitmap_other {p q : Buffer} {i j v : Nat} (h : setBitmap p i v = some q)
    (hne : j ≠ i) : bitmap q j = bitmap p j := by
  unfold bitmap
  rw [read_write_other h (by rw [length_leBytes]; omega)]

/-- The table ends where the data starts. -/
theorem read_setBitmap {p q : Buffer} {i v addr n : Nat} (h : setBitmap p i v = some q)
    (hi : i < 512) (ha : 1024 ≤ addr) : read 4096 q addr n = read 4096 p addr n :=
  read_write_other h (Or.inr (by rw [length_leBytes]; omega))

theorem bitmap_write {p q : Buffer} {addr j : Nat} {bs : List Byte}
    (h : write 4096 p addr bs = some q) (hj : j < 512) (ha : 1024 ≤ addr) :
    bitmap q j = bitmap p j := by
  unfold bitmap
  rw [read_write_other h (Or.inl (by omega))]

theorem Slots.setBitmap {p q : Buffer} {m : Meta} {i v : Nat} (h : Slots p m) (hi : i < 512)
    (hnew : i = 0 ∨ m.length < i) (hs : setBitmap p i v = some q) : Slots q m := by
  refine ⟨fun j hj => ?_, fun j e he => ?_, fun j e he => ?_⟩
  · rw [bitmap_setBitmap_other hs (by omega)]
    exact h.offset j hj
  · rw [read_setBitmap hs hi (slotOffset_ge m j)]
    exact h.ppa j e he
  · rw [read_setBitmap hs hi (by have := slotOffset_ge m j; omega)]
    exact h.key j e he

/-- One slot more: nothing written before is touched. -/
theorem putSlot_written {modulus : Nat} (hmod : 4096 < modulus) {w : PageWriter} {m : Meta}
    {e : Entry} (h : Written w m) (hfit : Fits (m ++ [e])) :
    ∃ w', putSlot modulus w e = some w' ∧ Written w' (m ++ [e]) ∧
      bitmap w'.page 0 = bitmap w.page 0 := by
  have hge := slotOffset_ge m m.length
  have hnew : (m ++ [e])[m.length]? = some e := by simp
  have hroom := hfit.slot hnew
  rw [slotOffset_concat m e (Nat.le_refl _)] at hroom
  have hlen : m.length + 1 ≤ 510 := by
    have ht := hfit.table
    rwa [List.length_append, List.length_singleton] at ht
  have hkey : e.1.bytes.length = e.1.len := rfl
  -- Three writes: the address, the key and the table entry of the slot after it.
  obtain ⟨p₁, h₁⟩ := @write_isSome 4096 w.page (slotOffset m m.length) (leBytes 4 e.2)
    (by rw [length_leBytes]; omega)
  obtain ⟨p₂, h₂⟩ := @write_isSome 4096 p₁ (slotOffset m m.length + 4) e.1.bytes (by omega)
  obtain ⟨p₃, h₃⟩ : ∃ p₃, setBitmap p₂ (m.length + 1) (slotOffset m m.length) = some p₃ :=
    write_isSome (by rw [length_leBytes]; omega)
  -- None of them touches the slots before, nor the other table entries.
  have hdata : ∀ addr n, 1024 ≤ addr → addr + n ≤ slotOffset m m.length →
      read 4096 p₃ addr n = read 4096 w.page addr n := fun addr n ha hn => by
    rw [read_setBitmap h₃ (by omega) ha, read_write_other h₂ (Or.inl (by omega)),
      read_write_other h₁ (Or.inl hn)]
  have htable : ∀ j < 512, j ≠ m.length + 1 → bitmap p₃ j = bitmap w.page j := fun j hj hne => by
    rw [bitmap_setBitmap_other h₃ hne, bitmap_write h₂ hj (by omega), bitmap_write h₁ hj hge]
  have hnext : slotOffset (m ++ [e]) (m ++ [e]).length = slotOffset m m.length + (e.1.len + 4) := by
    rw [List.length_append, List.length_singleton, slotOffset_succ hnew,
      slotOffset_concat m e (Nat.le_refl _)]
  refine ⟨⟨p₃, m.length + 2, slotOffset m m.length + (e.1.len + 4)⟩, ?_, ?_, ?_⟩
  · unfold putSlot
    rw [h.dataStart, h.idx, h₁, Option.bind_some, h₂, Option.bind_some, h₃, Option.map_some,
      Nat.mod_eq_of_lt (by omega)]
  · refine ⟨⟨fun i hi => ?_, fun i x hx => ?_, fun i x hx => ?_⟩, ?_, hnext.symm⟩
    -- Each part is either what was just written or what was there before.
    · rw [List.length_append, List.length_singleton] at hi
      rw [slotOffset_concat m e (by omega)]
      by_cases hlast : i = m.length
      · rw [hlast]
        exact bitmap_setBitmap_self h₃ (by omega)
      · rw [htable (i + 1) (by omega) (by omega)]
        exact h.offset i (by omega)
    · have hi : i < m.length + 1 := by
        have hlt := (List.getElem?_eq_some_iff.mp hx).1
        simpa using hlt
      rw [slotOffset_concat m e (by omega)]
      by_cases hlast : i = m.length
      · rw [hlast, hnew, Option.some.injEq] at hx
        rw [hlast, ← hx, read_setBitmap h₃ (by omega) hge,
          read_write_other h₂ (Or.inl (Nat.le_refl _))]
        have hself := read_write_self h₁
        rwa [length_leBytes] at hself
      · rw [List.getElem?_append_left (by omega)] at hx
        have hend := slotOffset_mono m (show i + 1 ≤ m.length by omega)
        rw [slotOffset_succ hx] at hend
        rw [hdata _ _ (slotOffset_ge m i) (by omega)]
        exact h.ppa i x hx
    · have hi : i < m.length + 1 := by
        have hlt := (List.getElem?_eq_some_iff.mp hx).1
        simpa using hlt
      rw [slotOffset_concat m e (by omega)]
      by_cases hlast : i = m.length
      · rw [hlast, hnew, Option.some.injEq] at hx
        rw [hlast, ← hx, read_setBitmap h₃ (by omega) (by omega)]
        exact read_write_self h₂
      · rw [List.getElem?_append_left (by omega)] at hx
        have hend := slotOffset_mono m (show i + 1 ≤ m.length by omega)
        rw [slotOffset_succ hx] at hend
        have hi' := slotOffset_ge m i
        rw [hdata _ _ (by omega) (by omega)]
        exact h.key i x hx
    · rw [List.length_append, List.length_singleton]
  · exact htable 0 (by omega) (by omega)

theorem putSlots_written {modulus : Nat} (hmod : 4096 < modulus) (es : List Entry) {w : PageWriter}
    {m : Meta} (h : Written w m) (hfit : Fits (m ++ es)) :
    ∃ w', es.foldlM (putSlot modulus) w = some w' ∧ Written w' (m ++ es) ∧
      bitmap w'.page 0 = bitmap w.page 0 := by
  induction es generalizing w m with
  | nil =>
    rw [List.append_nil]
    exact ⟨w, rfl, h, rfl⟩
  | cons e es ih =>
    rw [List.append_cons] at hfit ⊢
    obtain ⟨w₁, h₁, hw₁, hc₁⟩ := putSlot_written hmod h hfit.of_append
    obtain ⟨w₂, h₂, hw₂, hc₂⟩ := ih hw₁ hfit
    refine ⟨w₂, ?_, hw₂, hc₂.trans hc₁⟩
    rw [List.foldlM_cons, h₁]
    exact h₂

theorem written_nil (p : Buffer) : Written ⟨p, 1, 1024⟩ [] :=
  ⟨⟨fun i hi => absurd hi (Nat.not_lt_zero i), fun i e he => by simp at he,
    fun i e he => by simp at he⟩, rfl, rfl⟩

/-- The offset behind the last slot. -/
theorem Written.endOffset {w : PageWriter} {m : Meta} (h : Written w m) (hfit : Fits m)
    (hc : bitmap w.page 0 = some m.length) :
    ∃ p, setBitmap w.page w.idx w.dataStart = some p ∧ Holds p m := by
  have hlen := hfit.table
  have hdata := hfit.data
  obtain ⟨p, hp⟩ : ∃ p, setBitmap w.page (m.length + 1) (slotOffset m m.length) = some p :=
    write_isSome (by rw [length_leBytes]; omega)
  rw [h.idx, h.dataStart]
  refine ⟨p, hp, h.toSlots.setBitmap (by omega) (Or.inr (Nat.lt_succ_self _)) hp, ?_, ?_⟩
  · rw [bitmap_setBitmap_other hp (by omega)]
    exact hc
  · exact bitmap_setBitmap_self hp (by omega)

/-- The number of entries and the offset behind the last slot. -/
theorem Written.close {w : PageWriter} {m : Meta} (h : Written w m) (hfit : Fits m) :
    ∃ p, ((setBitmap w.page 0 (w.idx - 1)).bind fun p => setBitmap p w.idx w.dataStart) = some p ∧
      Holds p m := by
  have hlen := hfit.table
  have hidx := h.idx
  obtain ⟨p, hp⟩ : ∃ p, setBitmap w.page 0 (w.idx - 1) = some p :=
    write_isSome (by rw [length_leBytes]; omega)
  have hcount : bitmap p 0 = some m.length := by
    rw [bitmap_setBitmap_self hp (by omega), hidx, Nat.add_sub_cancel]
  have hw : Written ⟨p, w.idx, w.dataStart⟩ m :=
    ⟨h.toSlots.setBitmap (by decide) (Or.inl rfl) hp, h.idx, h.dataStart⟩
  obtain ⟨q, hq, hholds⟩ := hw.endOffset hfit hcount
  refine ⟨q, ?_, hholds⟩
  rw [hp, Option.bind_some]
  exact hq

/-! ## Section 4: What the writers produce -/

theorem pbodyPageBytes_holds (res : Buffer) {m : Meta} (h : Fits m) :
    ∃ p, pbodyPageBytes res m = some p ∧ Holds p m := by
  have hfit : Fits ([] ++ m) := h
  obtain ⟨w, hw, hwritten, -⟩ := @putSlots_written 4294967296 (by decide) m _ _
    (written_nil res) hfit
  obtain ⟨p, hp, hholds⟩ := hwritten.close hfit
  refine ⟨p, ?_, hholds⟩
  unfold pbodyPageBytes
  rw [hw, Option.bind_some]
  exact hp

theorem foldlM_skipNode {mem : Skiplist} (h : ∀ n ∈ mem, keyValCheck n.key = true)
    (w : PageWriter) : mem.foldlM skipNode w = (memPage mem).foldlM (putSlot 65536) w := by
  induction mem generalizing w with
  | nil => rfl
  | cons n mem ih =>
    have hn : skipNode w n = putSlot 65536 w (n.key, n.ppa) :=
      if_pos (h n (List.mem_cons_self ..))
    have hrest := ih fun x hx => h x (List.mem_cons_of_mem _ hx)
    show (skipNode w n).bind _ = (putSlot 65536 w (n.key, n.ppa)).bind _
    rw [hn]
    congr 1
    funext w'
    exact hrest w'

theorem arraySkipCvt2DataBytes_holds (res : Buffer) {mem : Skiplist}
    (hv : ∀ n ∈ mem, keyValCheck n.key = true) (h : Fits (memPage mem)) :
    ∃ p, arraySkipCvt2DataBytes res mem = some p ∧ Holds p (memPage mem) := by
  have hfit : Fits ([] ++ memPage mem) := h
  obtain ⟨w, hw, hwritten, -⟩ := @putSlots_written 65536 (by decide) (memPage mem) _ _
    (written_nil res) hfit
  obtain ⟨p, hp, hholds⟩ := hwritten.close hfit
  refine ⟨p, ?_, hholds⟩
  unfold arraySkipCvt2DataBytes
  rw [foldlM_skipNode hv, hw, Option.bind_some]
  exact hp

/-- `key` and `end` after the nodes `done` of a list of `size`. -/
structure RunKeys (size : Nat) (w : TableWriter) (done : Skiplist) : Prop where
  key : w.key = done.head?.map Snode.key
  endKey : w.endKey = if done.length = size ∧ 2 ≤ size then done.getLast?.map Snode.key else none

theorem cvtNodes_written {size : Nat} (mem : Skiplist) {w : TableWriter} {done : Skiplist}
    (h : Written w.toPageWriter (memPage done)) (hk : RunKeys size w done)
    (hsize : (done ++ mem).length = size) (hfit : Fits (memPage (done ++ mem))) :
    ∃ w', mem.foldlM (cvtNode size) w = some w' ∧
      Written w'.toPageWriter (memPage (done ++ mem)) ∧ RunKeys size w' (done ++ mem) ∧
      bitmap w'.page 0 = bitmap w.page 0 := by
  induction mem generalizing w done with
  | nil =>
    rw [List.append_nil]
    exact ⟨w, rfl, h, hk, rfl⟩
  | cons n mem ih =>
    rw [List.append_cons] at hsize hfit ⊢
    have hpages : memPage (done ++ [n] ++ mem) = memPage done ++ [(n.key, n.ppa)] ++
        memPage mem := by
      simp [memPage]
    have hpage : memPage (done ++ [n]) = memPage done ++ [(n.key, n.ppa)] := by simp [memPage]
    have hidx : w.idx = done.length + 1 := by
      rw [h.idx]
      simp [memPage]
    obtain ⟨w₁, h₁, hw₁, hc₁⟩ := @putSlot_written 65536 (by decide) _ _ _ h
      (hpages ▸ hfit).of_append
    -- Which of the two keys the node sets.
    obtain ⟨k, ek, hnode, hkeys⟩ : ∃ k ek, cvtNode size w n = some ⟨w₁, k, ek⟩ ∧
        RunKeys size ⟨w₁, k, ek⟩ (done ++ [n]) := by
      have hlen : (done ++ [n]).length = done.length + 1 := by simp
      rw [List.length_append, hlen] at hsize
      unfold cvtNode
      by_cases hfirst : w.idx = 1
      · have hnil : done = [] := List.eq_nil_of_length_eq_zero (by omega)
        rw [if_pos hfirst]
        refine ⟨some n.key, w.endKey, ?_, ?_, ?_⟩
        · show (putSlot 65536 w.toPageWriter (n.key, n.ppa)).map _ = _
          rw [h₁]
          rfl
        · rw [hnil]
          rfl
        · have hold := hk.endKey
          rw [hnil, List.length_nil] at hold
          rw [hnil, List.nil_append, List.length_singleton, if_neg (by omega)]
          exact hold.trans (if_neg (by omega))
      · rw [if_neg hfirst]
        have hne : done ≠ [] := fun hc => hfirst (by rw [hidx, hc]; rfl)
        have hhead : (done ++ [n]).head? = done.head? := List.head?_append_of_ne_nil _ hne
        by_cases hlast : w.idx = size
        · rw [if_pos hlast]
          refine ⟨w.key, some n.key, ?_, ?_, ?_⟩
          · show (putSlot 65536 w.toPageWriter (n.key, n.ppa)).map _ = _
            rw [h₁]
            rfl
          · rw [hhead]
            exact hk.key
          · rw [if_pos (by omega), List.getLast?_concat]
            rfl
        · rw [if_neg hlast]
          refine ⟨w.key, w.endKey, ?_, ?_, ?_⟩
          · show (putSlot 65536 w.toPageWriter (n.key, n.ppa)).map _ = _
            rw [h₁]
            rfl
          · rw [hhead]
            exact hk.key
          · have hold := hk.endKey
            rw [if_neg (by omega)] at hold ⊢
            exact hold
    obtain ⟨w₂, h₂, hw₂, hk₂, hc₂⟩ := @ih ⟨w₁, k, ek⟩ (done ++ [n]) (hpage ▸ hw₁) hkeys hsize hfit
    refine ⟨w₂, ?_, hw₂, hk₂, hc₂.trans hc₁⟩
    rw [List.foldlM_cons, hnode]
    exact h₂

/-- The run gets the first and the last key of the list, which has two of them. -/
theorem arrayMemCvt2tableBytes_holds (sets : Buffer) {mem : Skiplist} (htwo : 2 ≤ mem.length)
    (h : Fits (memPage mem)) :
    ∃ p, arrayMemCvt2tableBytes sets mem =
        some (p, mem.head?.map Snode.key, mem.getLast?.map Snode.key) ∧ Holds p (memPage mem) := by
  have hlen : mem.length ≤ 510 := by
    have ht := h.table
    rwa [memPage, List.length_map] at ht
  obtain ⟨p₁, h₁⟩ := @write_isSome 4096 sets 0 (List.replicate 512 255)
    (by rw [List.length_replicate]; decide)
  obtain ⟨p₂, h₂⟩ : ∃ p₂, setBitmap p₁ 0 mem.length = some p₂ :=
    write_isSome (by rw [length_leBytes]; decide)
  have hkeys : RunKeys mem.length ⟨⟨p₂, 1, 1024⟩, none, none⟩ [] :=
    ⟨rfl, (if_neg (fun hc => by have := hc.1; simp at this; omega)).symm⟩
  obtain ⟨w, hw, hwritten, hk, hc⟩ := cvtNodes_written mem (written_nil p₂) hkeys rfl h
  rw [List.nil_append] at hwritten hk
  -- The nodes leave slot 0 alone: it holds the number of keys.
  have hcount : bitmap w.page 0 = some (memPage mem).length := by
    rw [hc, bitmap_setBitmap_self h₂ (by omega), memPage, List.length_map]
  obtain ⟨p, hp, hholds⟩ := hwritten.endOffset h hcount
  have hend := hk.endKey
  rw [if_pos ⟨rfl, htwo⟩] at hend
  refine ⟨p, ?_, hholds⟩
  unfold arrayMemCvt2tableBytes
  rw [h₁, Option.bind_some, h₂, Option.bind_some, hw, Option.bind_some, hp, Option.map_some,
    hk.key, hend]

/-- A cut fits a page. -/
theorem IsCut.fits {t : Skiplist} (h : IsCut t) : Fits (memPage t) := by
  obtain ⟨hlen, hall⟩ := h.le
  refine ⟨?_, ?_⟩
  · rw [memPage, List.length_map]
    exact hlen
  · have hsum : ((memPage t).map entryLen).sum = allLength t := by
      rw [memPage, List.map_map]
      rfl
    rw [slotOffset_length, hsum]
    unfold sizeLimit at hall
    omega

end AggreKV.LsmTree
