import AggreKV.HashKv.BlockManager
import AggreKV.Lib.Machine

/-! # The emulated flash

    `ssd.c`: reads, writes and trims of the emulated device, with their
    counters and the time each LUN is busy.

    * `pageLoop`: the loop that `ssd_write_ppa` and `ssd_read_ppa` share; it
      stops at the first page that is refused.
    * `Nand.Ordered`: the pages of a line are written up to its pointer.
    * `nand_state_machine`: which pages are marked after any run of calls, and
      what an error leaves behind. -/

namespace AggreKV.HashKv

/-! ## Section 1: The device -/

/-- The fields of `struct ssdparams` that addresses and latencies depend on; `tt_pgs` is an
    `int`. -/
structure SsdParams where
  pgsPerBlk : Nat
  blksPerPl : Nat
  plsPerLun : Nat
  lunsPerCh : Nat
  nchs : Nat
  pgRdLat : Nat
  pgWrLat : Nat
  blkErLat : Nat
  pos : 0 < pgsPerBlk ∧ 0 < lunsPerCh ∧ 0 < nchs
  ttPgs_lt : pgsPerBlk * blksPerPl * plsPerLun * lunsPerCh * nchs < 2147483648

namespace SsdParams

variable (sp : SsdParams)

def ttLuns : Nat := sp.lunsPerCh * sp.nchs

def pgsPerLine : Nat := sp.ttLuns * sp.pgsPerBlk

def ttPgs : Nat := sp.pgsPerBlk * sp.blksPerPl * sp.plsPerLun * sp.lunsPerCh * sp.nchs

/-- `LINE_IDX`. -/
def lineIdx (pgidx : Nat) : Nat := pgidx / sp.pgsPerLine

/-- `g.ch` of `pgidx2ppa`, a field of 7 bits. -/
def ppaCh (pgidx : Nat) : Nat := pgidx % sp.nchs % 128

/-- `g.lun`, a field of 8 bits. -/
def ppaLun (pgidx : Nat) : Nat := pgidx / sp.nchs % sp.lunsPerCh % 256

/-- The index of the counters per LUN. -/
def lunIdx (pgidx : Nat) : Nat := sp.ppaCh pgidx * sp.lunsPerCh + sp.ppaLun pgidx

theorem pgsPerLine_pos : 0 < sp.pgsPerLine :=
  Nat.mul_pos (Nat.mul_pos sp.pos.2.1 sp.pos.2.2) sp.pos.1

end SsdParams

/-- `ssd_init_params`. -/
def SsdParams.shipped : SsdParams where
  pgsPerBlk := 2048
  blksPerPl := 1178
  plsPerLun := 1
  lunsPerCh := 8
  nchs := 4
  pgRdLat := 50000
  pgWrLat := 500000
  blkErLat := 5000000
  pos := by decide
  ttPgs_lt := by decide

/-- `ssd_lower` and `ssd_stats`. -/
structure Nand where
  ppaState : Nat → Bool
  lineWp : Nat → Nat
  nextLunAvailTime : Nat → Nat → Nat
  nrNandWrite : Nat
  nrNandRead : Nat
  nrNandErase : Nat
  nrNandRdLun : Nat → Nat
  nrNandWrLun : Nat → Nat
  nrNandErLun : Nat → Nat

/-- `ssd_init`. -/
def ssdInit : Nand :=
  ⟨fun _ => false, fun _ => 0, fun _ _ => 0, 0, 0, 0, fun _ => 0, fun _ => 0, fun _ => 0⟩

def bump (f : Nat → Nat) (i : Nat) : Nat → Nat := Function.update f i (f i + 1)

/-! ## Section 2: The calls -/

section Calls

variable (sp : SsdParams) (now : Nat)

/-- `ssd_advance_status` of page `pgidx` with the latency of its command; `now` is what
    `clock_get_ns` returns. -/
def ssdAdvanceStatus (s : Nand) (pgidx cmdLat stime : Nat) : Nand × Nat :=
  let ch := sp.ppaCh pgidx
  let lun := sp.ppaLun pgidx
  let cmdStime := if stime = 0 then now else stime
  let avail := s.nextLunAvailTime ch lun
  let nandStime := if avail < cmdStime then cmdStime else avail
  ({ s with
      nextLunAvailTime := Function.update s.nextLunAvailTime ch
        (Function.update (s.nextLunAvailTime ch) lun (nandStime + cmdLat)) },
    nandStime + cmdLat - cmdStime)

/-- The loop over the pages of a request; `max_etime` is carried along, and `none` is a
    failed `check_addr`. -/
def pageLoop (page : Nand → Nat → Except Int (Nand × Nat)) :
    Nat → Nat → Nat → Nand → Option (Nand × Except Int Nat)
  | 0, _, maxEtime, s => some (s, .ok maxEtime)
  | n + 1, pgidx, maxEtime, s =>
      if pgidx < sp.ttPgs then
        match page s pgidx with
        | .error code => some (s, .error code)
        | .ok (s, etime) =>
            pageLoop page n (pgidx + 1) (if maxEtime < etime then etime else maxEtime) s
      else none

/-- The body of the loop of `ssd_write_ppa`. -/
def writePage (stime : Nat) (s : Nand) (pgidx : Nat) : Except Int (Nand × Nat) :=
  if s.ppaState pgidx then .error (-1)
  else
    let line := sp.lineIdx pgidx
    if s.lineWp line ≠ pgidx - line * sp.pgsPerLine then .error (-2)
    else
      let s := { s with
        ppaState := Function.update s.ppaState pgidx true,
        lineWp := bump s.lineWp line,
        nrNandWrLun := bump s.nrNandWrLun (sp.lunIdx pgidx) }
      let r := ssdAdvanceStatus sp now s pgidx sp.pgWrLat stime
      .ok (r.1, stime + r.2)

/-- The body of the loop of `ssd_read_ppa`. -/
def readPage (stime : Nat) (s : Nand) (pgidx : Nat) : Except Int (Nand × Nat) :=
  if s.ppaState pgidx then
    let s := { s with nrNandRdLun := bump s.nrNandRdLun (sp.lunIdx pgidx) }
    let r := ssdAdvanceStatus sp now s pgidx sp.pgRdLat stime
    .ok (r.1, stime + r.2)
  else .error (-1)

/-- `stime` as the calls use it. -/
def startTime (stime : Nat) : Nat := if now < stime then stime else now

/-- `ssd_write_ppa`: the latency, or the code of an error. -/
def ssdWritePpa (s : Nand) (pgidx size stime : Nat) : Option (Nand × Except Int Nat) :=
  let stime := startTime now stime
  if size < 4096 then none
  else
    (pageLoop sp (writePage sp now stime) (size / 4096) pgidx 0 s).bind fun (s, r) =>
      match r with
      | .error code => some (s, .error code)
      | .ok maxEtime =>
          if maxEtime < stime then none
          else some ({ s with nrNandWrite := s.nrNandWrite + size / 4096 }, .ok (maxEtime - stime))

/-- `ssd_read_ppa`. -/
def ssdReadPpa (s : Nand) (pgidx size stime : Nat) : Option (Nand × Except Int Nat) :=
  let stime := startTime now stime
  if size < 4096 then none
  else
    (pageLoop sp (readPage sp now stime) (size / 4096) pgidx 0 s).bind fun (s, r) =>
      match r with
      | .error code => some (s, .error code)
      | .ok maxEtime =>
          if maxEtime < stime then none
          else some ({ s with nrNandRead := s.nrNandRead + size / 4096 }, .ok (maxEtime - stime))

/-- The loop of `ssd_trim_block` over the LUNs, from `i` on; `maxlat` has 32 bits. -/
def eraseLoop (pgidx : Nat) : Nat → Nat → Nat → Nand → Nand × Nat
  | 0, _, maxlat, s => (s, maxlat)
  | n + 1, i, maxlat, s =>
      let s := { s with nrNandErLun := bump s.nrNandErLun (sp.lunIdx (pgidx + i)) }
      let r := ssdAdvanceStatus sp now s (pgidx + i) sp.blkErLat now
      eraseLoop pgidx n (i + 1) (if maxlat < r.2 then r.2 % 4294967296 else maxlat) r.1

/-- `ssd_trim_block`. -/
def ssdTrim (s : Nand) (pgidx : Nat) : Option (Nand × Except Int Nat) :=
  if pgidx < sp.ttPgs ∧ pgidx % sp.pgsPerLine = 0 then
    let r := eraseLoop sp now pgidx sp.ttLuns 0 0 s
    some ({ r.1 with
      ppaState := fun q => if pgidx ≤ q ∧ q < pgidx + sp.pgsPerLine then false else r.1.ppaState q,
      lineWp := Function.update r.1.lineWp (sp.lineIdx pgidx) 0,
      nrNandErase := r.1.nrNandErase + sp.pgsPerLine }, .ok r.2)
  else none

end Calls

/-- A call, with the time of the clock. -/
inductive NandCall where
  | write (pgidx size stime now : Nat)
  | read (pgidx size stime now : Nat)
  | trim (pgidx now : Nat)

def nandCall (sp : SsdParams) (s : Nand) : NandCall → Option (Nand × Except Int Nat)
  | .write pgidx size stime now => ssdWritePpa sp now s pgidx size stime
  | .read pgidx size stime now => ssdReadPpa sp now s pgidx size stime
  | .trim pgidx now => ssdTrim sp now s pgidx

/-- The device under any sequence of calls on addresses in range. -/
def nandMachine (sp : SsdParams) : Machine Nand NandCall where
  init := fun s => s = ssdInit
  next := fun s c => (nandCall sp s c).map Prod.fst

/-! ## Section 3: What a request does -/

variable {sp : SsdParams} {now stime : Nat}

/-- `k` pages in a row are done. -/
inductive PagesDone (page : Nand → Nat → Except Int (Nand × Nat)) :
    Nand → Nat → Nat → Nand → Prop where
  | nil {s : Nand} {p : Nat} : PagesDone page s p 0 s
  | cons {s s₁ s' : Nand} {p k etime : Nat} (h : page s p = .ok (s₁, etime))
      (hrest : PagesDone page s₁ (p + 1) k s') : PagesDone page s p (k + 1) s'

/-- The loop does all pages, or those before the first that is refused. -/
theorem pageLoop_cases {page : Nand → Nat → Except Int (Nand × Nat)} (n : Nat) :
    ∀ {p maxEtime : Nat} {s s' : Nand} {r : Except Int Nat},
      pageLoop sp page n p maxEtime s = some (s', r) →
      (∃ m, r = .ok m ∧ maxEtime ≤ m ∧ PagesDone page s p n s') ∨
        ∃ code k, r = .error code ∧ k < n ∧ PagesDone page s p k s' ∧
          page s' (p + k) = .error code := by
  induction n with
  | zero =>
    intro p maxEtime s s' r h
    cases h
    exact Or.inl ⟨maxEtime, rfl, Nat.le_refl _, .nil⟩
  | succ n ih =>
    intro p maxEtime s s' r h
    unfold pageLoop at h
    split_ifs at h with hp
    cases hpage : page s p with
    | error code =>
        rw [hpage] at h
        cases h
        exact Or.inr ⟨code, 0, rfl, Nat.succ_pos n, .nil, hpage⟩
    | ok x =>
        obtain ⟨s₁, etime⟩ := x
        rw [hpage] at h
        rcases ih h with ⟨m, hr, hm, hpages⟩ | ⟨code, k, hr, hk, hpages, hrefused⟩
        -- The latency of a request is that of its last page.
        · refine Or.inl ⟨m, hr, ?_, .cons hpage hpages⟩
          split_ifs at hm
          · omega
          · exact hm
        · refine Or.inr ⟨code, k + 1, hr, by omega, .cons hpage hpages, ?_⟩
          rwa [Nat.add_right_comm, Nat.add_assoc] at hrefused

/-- In range, no `check_addr` fails. -/
theorem pageLoop_isSome {page : Nand → Nat → Except Int (Nand × Nat)} (n : Nat) :
    ∀ (p maxEtime : Nat) (s : Nand), p + n ≤ sp.ttPgs →
      ∃ s' r, pageLoop sp page n p maxEtime s = some (s', r) := by
  induction n with
  | zero =>
    intro p maxEtime s hp
    exact ⟨s, _, rfl⟩
  | succ n ih =>
    intro p maxEtime s hp
    unfold pageLoop
    rw [if_pos (by omega)]
    cases page s p with
    | error code => exact ⟨s, _, rfl⟩
    | ok x => exact ih (p + 1) _ x.1 (by omega)

/-- The result of the loop, when at least one page is done, is not before `stime`. -/
theorem pageLoop_etime {page : Nand → Nat → Except Int (Nand × Nat)}
    (hpage : ∀ s p s' etime, page s p = .ok (s', etime) → stime ≤ etime) {n : Nat} (hn : 0 < n)
    {p maxEtime m : Nat} {s s' : Nand}
    (h : pageLoop sp page n p maxEtime s = some (s', .ok m)) : stime ≤ m := by
  obtain ⟨n, rfl⟩ : ∃ k, n = k + 1 := ⟨n - 1, by omega⟩
  unfold pageLoop at h
  split_ifs at h with hp
  cases hs : page s p with
  | error code =>
      rw [hs] at h
      cases h
  | ok x =>
      rw [hs] at h
      dsimp only at h
      have hx := hpage s p x.1 x.2 hs
      rcases pageLoop_cases n h with ⟨m', hr, hm, -⟩ | ⟨code, k, hr, -⟩
      · rw [Except.ok.injEq] at hr
        rw [← hr] at hm
        split_ifs at hm
        · omega
        · omega
      · cases hr

/-- The counters of the pages `[p, p + k)`, by `index`. -/
def countIn (index : Nat → Nat) (p k i : Nat) : Nat :=
  (List.range' p k).countP fun q => decide (index q = i)

theorem countIn_succ (index : Nat → Nat) (p k i : Nat) :
    countIn index p (k + 1) i = countIn index (p + 1) k i + if index p = i then 1 else 0 := by
  unfold countIn
  rw [List.range'_succ, List.countP_cons]
  simp

theorem bump_apply (f : Nat → Nat) (i j : Nat) : bump f i j = f j + if i = j then 1 else 0 := by
  unfold bump
  by_cases h : i = j
  · rw [h, Function.update_self, if_pos rfl]
  · rw [Function.update_of_ne (Ne.symm h), if_neg h, Nat.add_zero]

/-- What a write of `[p, p + k)` without its total does: nothing else of the state but the time
    the LUNs are busy. -/
structure Programmed (sp : SsdParams) (s : Nand) (p k : Nat) (s' : Nand) : Prop where
  ppaState : ∀ q, s'.ppaState q = (s.ppaState q || decide (p ≤ q ∧ q < p + k))
  lineWp : ∀ l, s'.lineWp l = s.lineWp l + countIn sp.lineIdx p k l
  wrLun : ∀ l, s'.nrNandWrLun l = s.nrNandWrLun l + countIn sp.lunIdx p k l
  rdLun : s'.nrNandRdLun = s.nrNandRdLun
  erLun : s'.nrNandErLun = s.nrNandErLun
  totals : s'.nrNandWrite = s.nrNandWrite ∧ s'.nrNandRead = s.nrNandRead ∧
    s'.nrNandErase = s.nrNandErase

/-- What a read of `[p, p + k)` without its total does. -/
structure ReadOut (sp : SsdParams) (s : Nand) (p k : Nat) (s' : Nand) : Prop where
  ppaState : s'.ppaState = s.ppaState
  lineWp : s'.lineWp = s.lineWp
  wrLun : s'.nrNandWrLun = s.nrNandWrLun
  rdLun : ∀ l, s'.nrNandRdLun l = s.nrNandRdLun l + countIn sp.lunIdx p k l
  erLun : s'.nrNandErLun = s.nrNandErLun
  totals : s'.nrNandWrite = s.nrNandWrite ∧ s'.nrNandRead = s.nrNandRead ∧
    s'.nrNandErase = s.nrNandErase

/-- When a page of a write is accepted, and what the step does. -/
theorem writePage_ok {s s' : Nand} {p etime : Nat}
    (h : writePage sp now stime s p = .ok (s', etime)) :
    s.ppaState p = false ∧ s.lineWp (sp.lineIdx p) = p % sp.pgsPerLine ∧ stime ≤ etime ∧
      s'.ppaState = Function.update s.ppaState p true ∧
      s'.lineWp = bump s.lineWp (sp.lineIdx p) ∧
      s'.nrNandWrLun = bump s.nrNandWrLun (sp.lunIdx p) ∧
      s'.nrNandRdLun = s.nrNandRdLun ∧ s'.nrNandErLun = s.nrNandErLun ∧
      s'.nrNandWrite = s.nrNandWrite ∧ s'.nrNandRead = s.nrNandRead ∧
      s'.nrNandErase = s.nrNandErase := by
  unfold writePage at h
  dsimp only at h
  split_ifs at h with hstate hwp
  rw [not_not] at hwp
  have hmod : p - sp.lineIdx p * sp.pgsPerLine = p % sp.pgsPerLine := by
    have hdiv := Nat.div_add_mod' p sp.pgsPerLine
    unfold SsdParams.lineIdx
    omega
  cases h
  exact ⟨by simpa using hstate, hwp.trans hmod, Nat.le_add_right _ _, rfl, rfl, rfl, rfl, rfl, rfl,
    rfl, rfl⟩

/-- A write is refused for a programmed page or one away from the write pointer. -/
theorem writePage_error {s : Nand} {p : Nat} {code : Int}
    (h : writePage sp now stime s p = .error code) :
    s.ppaState p = true ∨ s.lineWp (sp.lineIdx p) ≠ p % sp.pgsPerLine := by
  have hmod : p - sp.lineIdx p * sp.pgsPerLine = p % sp.pgsPerLine := by
    have hdiv := Nat.div_add_mod' p sp.pgsPerLine
    unfold SsdParams.lineIdx
    omega
  unfold writePage at h
  dsimp only at h
  split_ifs at h with hstate hwp
  · exact Or.inl hstate
  · exact Or.inr (hmod ▸ hwp)

/-- A read counts itself and changes no page. -/
theorem readPage_ok {s s' : Nand} {p etime : Nat}
    (h : readPage sp now stime s p = .ok (s', etime)) :
    s.ppaState p = true ∧ stime ≤ etime ∧ s'.ppaState = s.ppaState ∧ s'.lineWp = s.lineWp ∧
      s'.nrNandWrLun = s.nrNandWrLun ∧ s'.nrNandRdLun = bump s.nrNandRdLun (sp.lunIdx p) ∧
      s'.nrNandErLun = s.nrNandErLun ∧ s'.nrNandWrite = s.nrNandWrite ∧
      s'.nrNandRead = s.nrNandRead ∧ s'.nrNandErase = s.nrNandErase := by
  unfold readPage at h
  split_ifs at h with hstate
  cases h
  exact ⟨hstate, Nat.le_add_right _ _, rfl, rfl, rfl, rfl, rfl, rfl, rfl, rfl⟩

/-- A read is refused for a page that is not programmed. -/
theorem readPage_error {s : Nand} {p : Nat} {code : Int}
    (h : readPage sp now stime s p = .error code) : s.ppaState p = false := by
  unfold readPage at h
  split_ifs at h with hstate
  simpa using hstate

/-- The pages done by writes are programmed. -/
theorem PagesDone.programmed {s s' : Nand} {p k : Nat}
    (h : PagesDone (writePage sp now stime) s p k s') : Programmed sp s p k s' := by
  induction h with
  | nil =>
    refine ⟨fun q => ?_, fun l => rfl, fun l => rfl, rfl, rfl, rfl, rfl, rfl⟩
    rw [decide_eq_false (by omega), Bool.or_false]
  | @cons s s₁ s' p k etime h hrest ih =>
    obtain ⟨-, -, -, hs, hl, hw, hr, he, htw, htr, hte⟩ := writePage_ok h
    refine ⟨fun q => ?_, fun l => ?_, fun l => ?_, ih.rdLun.trans hr, ih.erLun.trans he,
      ih.totals.1.trans htw, ih.totals.2.1.trans htr, ih.totals.2.2.trans hte⟩
    · rw [ih.ppaState, hs]
      by_cases hq : q = p
      · rw [hq, Function.update_self, Bool.true_or, decide_eq_true (by omega), Bool.or_true]
      · rw [Function.update_of_ne hq]
        congr 1
        rw [decide_eq_decide]
        omega
    · rw [ih.lineWp, hl, bump_apply, countIn_succ]
      omega
    · rw [ih.wrLun, hw, bump_apply, countIn_succ]
      omega

/-- The pages done by reads were programmed before. -/
theorem PagesDone.readOut {s s' : Nand} {p k : Nat}
    (h : PagesDone (readPage sp now stime) s p k s') : ReadOut sp s p k s' := by
  induction h with
  | nil => exact ⟨rfl, rfl, rfl, fun l => rfl, rfl, rfl, rfl, rfl⟩
  | @cons s s₁ s' p k etime h hrest ih =>
    obtain ⟨-, -, hs, hl, hw, hr, he, htw, htr, hte⟩ := readPage_ok h
    refine ⟨ih.ppaState.trans hs, ih.lineWp.trans hl, ih.wrLun.trans hw, fun l => ?_,
      ih.erLun.trans he, ih.totals.1.trans htw, ih.totals.2.1.trans htr, ih.totals.2.2.trans hte⟩
    rw [ih.rdLun, hr, bump_apply, countIn_succ]
    omega

/-! ## Section 4: The order of a line -/

/-- The pages of a line are written up to its pointer, which is at most its length. -/
structure Nand.Ordered (sp : SsdParams) (s : Nand) : Prop where
  marks : ∀ q, s.ppaState q = true ↔ q % sp.pgsPerLine < s.lineWp (sp.lineIdx q)
  wp_le : ∀ l, s.lineWp l ≤ sp.pgsPerLine

/-- The new device is in order. -/
theorem ssdInit_ordered : ssdInit.Ordered sp :=
  ⟨fun _ => ⟨fun h => absurd h Bool.false_ne_true, fun h => absurd h (Nat.not_lt_zero _)⟩,
    fun _ => Nat.zero_le _⟩

/-- Two pages of a line at the same offset are one page. -/
theorem page_ext {p q : Nat} (hline : sp.lineIdx q = sp.lineIdx p)
    (hoff : q % sp.pgsPerLine = p % sp.pgsPerLine) : q = p := by
  have hp := Nat.div_add_mod p sp.pgsPerLine
  have hq := Nat.div_add_mod q sp.pgsPerLine
  unfold SsdParams.lineIdx at hline
  rw [hline, hoff] at hq
  omega

theorem Nand.Ordered.writePage {s s' : Nand} {p etime : Nat} (hs : s.Ordered sp)
    (h : writePage sp now stime s p = .ok (s', etime)) : s'.Ordered sp := by
  obtain ⟨hfree, hwp, -, hstate, hline, -⟩ := writePage_ok h
  have hlt : p % sp.pgsPerLine < sp.pgsPerLine := Nat.mod_lt _ sp.pgsPerLine_pos
  refine ⟨fun q => ?_, fun l => ?_⟩
  · rw [hstate, hline, bump_apply]
    by_cases hq : q = p
    · rw [hq, Function.update_self, if_pos rfl, hwp]
      exact iff_of_true rfl (Nat.lt_succ_self _)
    · rw [Function.update_of_ne hq, hs.marks q]
      by_cases hl : sp.lineIdx p = sp.lineIdx q
      · have hne : q % sp.pgsPerLine ≠ p % sp.pgsPerLine := fun hoff => hq (page_ext hl.symm hoff)
        rw [if_pos hl, ← hl, hwp]
        omega
      · rw [if_neg hl, Nat.add_zero]
  · rw [hline, bump_apply]
    have hle := hs.wp_le l
    split_ifs with hl
    · rw [← hl, hwp]
      exact hlt
    · exact hle

/-- Writes keep the lines in order. -/
theorem PagesDone.ordered {s s' : Nand} {p k : Nat}
    (h : PagesDone (writePage sp now stime) s p k s') (hs : s.Ordered sp) : s'.Ordered sp := by
  induction h with
  | nil => exact hs
  | cons h hrest ih => exact ih (hs.writePage h)

/-- Only the order and the counters of erased blocks matter to a trim. -/
theorem eraseLoop_frame (pgidx n : Nat) : ∀ (i maxlat : Nat) (s : Nand),
    (eraseLoop sp now pgidx n i maxlat s).1.ppaState = s.ppaState ∧
      (eraseLoop sp now pgidx n i maxlat s).1.lineWp = s.lineWp := by
  induction n with
  | zero =>
    intro i maxlat s
    exact ⟨rfl, rfl⟩
  | succ n ih =>
    intro i maxlat s
    unfold eraseLoop
    exact ih _ _ _

/-- A trim clears exactly its line. -/
theorem ssdTrim_some {s s' : Nand} {pgidx : Nat} {r : Except Int Nat}
    (h : ssdTrim sp now s pgidx = some (s', r)) :
    pgidx % sp.pgsPerLine = 0 ∧
      (∀ q, s'.ppaState q = if sp.lineIdx q = sp.lineIdx pgidx then false else s.ppaState q) ∧
      s'.lineWp = Function.update s.lineWp (sp.lineIdx pgidx) 0 := by
  unfold ssdTrim at h
  split_ifs at h with hok
  obtain ⟨hstate, hline⟩ := @eraseLoop_frame sp now pgidx sp.ttLuns 0 0 s
  have hpos := sp.pgsPerLine_pos
  dsimp only at h
  cases h
  refine ⟨hok.2, fun q => ?_, ?_⟩
  · show (if pgidx ≤ q ∧ q < pgidx + sp.pgsPerLine then false else _) = _
    rw [hstate]
    congr 1
    -- The pages of the line are those between its first page and the next line.
    have hdiv := Nat.div_add_mod pgidx sp.pgsPerLine
    rw [hok.2, Nat.add_zero] at hdiv
    have hq := Nat.div_add_mod q sp.pgsPerLine
    have hlt := Nat.mod_lt q hpos
    unfold SsdParams.lineIdx
    rw [eq_iff_iff]
    -- Both ways through the quotients by the size of a line.
    constructor
    · rintro ⟨hle, hlt'⟩
      rw [← hdiv] at hle hlt'
      rw [← Nat.mul_succ] at hlt'
      have h₁ : pgidx / sp.pgsPerLine ≤ q / sp.pgsPerLine := by
        rw [Nat.le_div_iff_mul_le hpos, Nat.mul_comm]
        exact hle
      have h₂ : q / sp.pgsPerLine < pgidx / sp.pgsPerLine + 1 := by
        rw [Nat.div_lt_iff_lt_mul hpos, Nat.mul_comm]
        exact hlt'
      omega
    · intro heq
      rw [heq] at hq
      omega
  · show Function.update (eraseLoop sp now pgidx sp.ttLuns 0 0 s).1.lineWp _ _ = _
    rw [hline]

/-- A trimmed line starts again. -/
theorem Nand.Ordered.trim {s s' : Nand} {pgidx : Nat} {r : Except Int Nat} (hs : s.Ordered sp)
    (h : ssdTrim sp now s pgidx = some (s', r)) : s'.Ordered sp := by
  obtain ⟨-, hstate, hline⟩ := ssdTrim_some h
  refine ⟨fun q => ?_, fun l => ?_⟩
  · rw [hstate, hline]
    by_cases hl : sp.lineIdx q = sp.lineIdx pgidx
    · rw [if_pos hl, hl, Function.update_self]
      exact iff_of_false Bool.false_ne_true (Nat.not_lt_zero _)
    · rw [if_neg hl, Function.update_of_ne hl]
      exact hs.marks q
  · rw [hline]
    by_cases hl : l = sp.lineIdx pgidx
    · rw [hl, Function.update_self]
      exact Nat.zero_le _
    · rw [Function.update_of_ne hl]
      exact hs.wp_le l

/-! ## Section 5: The calls -/

/-- What a call does: all its pages, or those before the one it refuses. -/
theorem ssdWritePpa_cases {s s' : Nand} {p size now stime : Nat} {r : Except Int Nat}
    (h : ssdWritePpa sp now s p size stime = some (s', r)) :
    ∃ s₁ k, PagesDone (writePage sp now (startTime now stime)) s p k s₁ ∧
      ((∃ lat, r = .ok lat ∧ k = size / 4096 ∧
          s' = { s₁ with nrNandWrite := s₁.nrNandWrite + size / 4096 }) ∨
        ∃ code, r = .error code ∧ k < size / 4096 ∧ s' = s₁ ∧
          writePage sp now (startTime now stime) s₁ (p + k) = .error code) := by
  unfold ssdWritePpa at h
  dsimp only at h
  split_ifs at h with hsize
  obtain ⟨⟨s₁, r₁⟩, hloop, h⟩ := Option.bind_eq_some_iff.mp h
  rcases pageLoop_cases _ hloop with ⟨m, rfl, -, hpages⟩ | ⟨code, k, rfl, hk, hpages, hrefused⟩
  · dsimp only at h
    split_ifs at h with hm
    cases h
    exact ⟨s₁, _, hpages, Or.inl ⟨_, rfl, rfl, rfl⟩⟩
  · cases h
    exact ⟨s₁, k, hpages, Or.inr ⟨code, rfl, hk, rfl, hrefused⟩⟩

/-- A read answers, or stops at the first page it is refused. -/
theorem ssdReadPpa_cases {s s' : Nand} {p size now stime : Nat} {r : Except Int Nat}
    (h : ssdReadPpa sp now s p size stime = some (s', r)) :
    ∃ s₁ k, PagesDone (readPage sp now (startTime now stime)) s p k s₁ ∧
      ((∃ lat, r = .ok lat ∧ k = size / 4096 ∧
          s' = { s₁ with nrNandRead := s₁.nrNandRead + size / 4096 }) ∨
        ∃ code, r = .error code ∧ k < size / 4096 ∧ s' = s₁ ∧
          readPage sp now (startTime now stime) s₁ (p + k) = .error code) := by
  unfold ssdReadPpa at h
  dsimp only at h
  split_ifs at h with hsize
  obtain ⟨⟨s₁, r₁⟩, hloop, h⟩ := Option.bind_eq_some_iff.mp h
  rcases pageLoop_cases _ hloop with ⟨m, rfl, -, hpages⟩ | ⟨code, k, rfl, hk, hpages, hrefused⟩
  · dsimp only at h
    split_ifs at h with hm
    cases h
    exact ⟨s₁, _, hpages, Or.inl ⟨_, rfl, rfl, rfl⟩⟩
  · cases h
    exact ⟨s₁, k, hpages, Or.inr ⟨code, rfl, hk, rfl, hrefused⟩⟩

/-- On addresses in range a call returns. -/
theorem ssdWritePpa_isSome (s : Nand) {p size : Nat} (hsize : 4096 ≤ size)
    (hp : p + size / 4096 ≤ sp.ttPgs) (now stime : Nat) :
    ∃ s' r, ssdWritePpa sp now s p size stime = some (s', r) := by
  obtain ⟨s₁, r, hloop⟩ := @pageLoop_isSome sp (writePage sp now (startTime now stime)) _ p 0 s hp
  unfold ssdWritePpa
  dsimp only
  rw [if_neg (Nat.not_lt.mpr hsize), hloop, Option.bind_some]
  cases r with
  | error code => exact ⟨_, _, rfl⟩
  | ok m =>
      have hm : startTime now stime ≤ m :=
        pageLoop_etime (fun s p s' etime h => (writePage_ok h).2.2.1)
          (Nat.div_pos hsize (by decide)) hloop
      dsimp only
      rw [if_neg (Nat.not_lt.mpr hm)]
      exact ⟨_, _, rfl⟩

theorem ssdReadPpa_isSome (s : Nand) {p size : Nat} (hsize : 4096 ≤ size)
    (hp : p + size / 4096 ≤ sp.ttPgs) (now stime : Nat) :
    ∃ s' r, ssdReadPpa sp now s p size stime = some (s', r) := by
  obtain ⟨s₁, r, hloop⟩ := @pageLoop_isSome sp (readPage sp now (startTime now stime)) _ p 0 s hp
  unfold ssdReadPpa
  dsimp only
  rw [if_neg (Nat.not_lt.mpr hsize), hloop, Option.bind_some]
  cases r with
  | error code => exact ⟨_, _, rfl⟩
  | ok m =>
      have hm : startTime now stime ≤ m :=
        pageLoop_etime (fun s p s' etime h => (readPage_ok h).2.1)
          (Nat.div_pos hsize (by decide)) hloop
      dsimp only
      rw [if_neg (Nat.not_lt.mpr hm)]
      exact ⟨_, _, rfl⟩

/-- All pages of a read that gets through were written. -/
theorem PagesDone.read_written {s s' : Nand} {p k : Nat}
    (h : PagesDone (readPage sp now stime) s p k s') :
    ∀ q, p ≤ q → q < p + k → s.ppaState q = true := by
  induction h with
  | nil =>
    intro q h₁ h₂
    omega
  | @cons s s₁ s' p k etime h hrest ih =>
    intro q h₁ h₂
    obtain ⟨hstate, -, hsame, -⟩ := readPage_ok h
    rcases Nat.lt_or_eq_of_le h₁ with hlt | rfl
    · rw [← hsame]
      exact ih q hlt (by omega)
    · exact hstate

/-! ## Section 6: Runs -/

/-- What happens to pages: one is programmed, or all of a line are erased. -/
inductive NandEvent where
  | programmed (p : Nat)
  | trimmed (line : Nat)

/-- The pages a write programs before it ends. -/
def programmedPages (sp : SsdParams) (now stime : Nat) : Nat → Nat → Nand → List Nat
  | 0, _, _ => []
  | n + 1, p, s =>
      match writePage sp now stime s p with
      | .ok (s, _) => p :: programmedPages sp now stime n (p + 1) s
      | .error _ => []

/-- The events of a call. -/
def recordEvents (sp : SsdParams) (s : Nand) (es : List NandEvent) : NandCall → List NandEvent
  | .write p size stime now =>
      es ++ (programmedPages sp now (startTime now stime) (size / 4096) p s).map .programmed
  | .read _ _ _ _ => es
  | .trim p _ => es ++ [.trimmed (sp.lineIdx p)]

/-- The page was programmed after the last trim of its line. -/
def WrittenSince (sp : SsdParams) (es : List NandEvent) (p : Nat) : Prop :=
  ∃ before after, es = before ++ .programmed p :: after ∧ .trimmed (sp.lineIdx p) ∉ after

/-- What the last event says about a page. -/
theorem writtenSince_concat {es : List NandEvent} {e : NandEvent} {p : Nat} :
    WrittenSince sp (es ++ [e]) p ↔
      e = .programmed p ∨ WrittenSince sp es p ∧ e ≠ .trimmed (sp.lineIdx p) := by
  constructor
  · rintro ⟨before, after, heq, hnot⟩
    rcases List.eq_nil_or_concat after with rfl | ⟨init, last, rfl⟩
    · rw [List.append_singleton_inj] at heq
      exact Or.inl heq.2
    · rw [List.concat_eq_append, ← List.cons_append, ← List.append_assoc,
        List.append_singleton_inj] at heq
      rw [List.concat_eq_append, List.mem_append, not_or, List.mem_singleton] at hnot
      refine Or.inr ⟨⟨before, init, heq.1, hnot.1⟩, ?_⟩
      rw [heq.2]
      exact Ne.symm hnot.2
  · rintro (rfl | ⟨⟨before, after, rfl, hnot⟩, hne⟩)
    · exact ⟨es, [], rfl, List.not_mem_nil⟩
    · refine ⟨before, after ++ [e], by rw [List.append_assoc, List.cons_append], ?_⟩
      rw [List.mem_append, List.mem_singleton, not_or]
      exact ⟨hnot, Ne.symm hne⟩

theorem writtenSince_programmed (ps : List Nat) {es : List NandEvent} {p : Nat} :
    WrittenSince sp (es ++ ps.map .programmed) p ↔ WrittenSince sp es p ∨ p ∈ ps := by
  induction ps generalizing es with
  | nil => simp
  | cons q ps ih =>
    rw [List.map_cons, List.append_cons, ih, writtenSince_concat, List.mem_cons]
    simp only [NandEvent.programmed.injEq, ne_eq, reduceCtorEq, not_false_eq_true, and_true]
    tauto

/-- A write programs the pages it gets done. -/
theorem PagesDone.programmedPages {s s' : Nand} {p k : Nat}
    (h : PagesDone (HashKv.writePage sp now stime) s p k s') {n : Nat}
    (hend : k = n ∨ k < n ∧ ∃ code, HashKv.writePage sp now stime s' (p + k) = .error code) :
    HashKv.programmedPages sp now stime n p s = List.range' p k := by
  induction h generalizing n with
  | nil =>
    rcases hend with rfl | ⟨hn, code, hcode⟩
    · rfl
    · obtain ⟨n, rfl⟩ : ∃ m, n = m + 1 := ⟨n - 1, by omega⟩
      unfold HashKv.programmedPages
      rw [Nat.add_zero] at hcode
      rw [hcode]
      rfl
  | @cons s s₁ s' p k etime h hrest ih =>
    obtain ⟨n, rfl⟩ : ∃ m, n = m + 1 := ⟨n - 1, by omega⟩
    unfold HashKv.programmedPages
    rw [h]
    dsimp only
    rw [List.range'_succ, @ih n ?_]
    rcases hend with heq | ⟨hn, code, hcode⟩
    · exact Or.inl (by omega)
    · refine Or.inr ⟨by omega, code, ?_⟩
      rwa [Nat.add_right_comm, Nat.add_assoc]

/-- The device after a run, with the events of the run. -/
structure NandOk (sp : SsdParams) (s : Nand) (es : List NandEvent) : Prop where
  ordered : s.Ordered sp
  written : ∀ q, s.ppaState q = true ↔ WrittenSince sp es q

/-- Totals and times do not matter. -/
theorem NandOk.of_same {s s' : Nand} {es : List NandEvent} (h : NandOk sp s es)
    (hstate : s'.ppaState = s.ppaState) (hline : s'.lineWp = s.lineWp) : NandOk sp s' es := by
  refine ⟨⟨fun q => ?_, fun l => ?_⟩, fun q => ?_⟩
  · rw [hstate, hline]
    exact h.ordered.marks q
  · rw [hline]
    exact h.ordered.wp_le l
  · rw [hstate]
    exact h.written q

/-- The programmed pages are recorded one by one. -/
theorem NandOk.pagesDone {s s' : Nand} {es : List NandEvent} {p k : Nat} (h : NandOk sp s es)
    (hpages : PagesDone (writePage sp now stime) s p k s') :
    NandOk sp s' (es ++ (List.range' p k).map .programmed) := by
  refine ⟨hpages.ordered h.ordered, fun q => ?_⟩
  rw [hpages.programmed.ppaState, writtenSince_programmed, ← h.written, Bool.or_eq_true,
    decide_eq_true_iff, List.mem_range'_1]

/-- A call records what it does to the pages. -/
theorem NandOk.step {s s' : Nand} {es : List NandEvent} {c : NandCall} (h : NandOk sp s es)
    (hn : (nandMachine sp).next s c = some s') : NandOk sp s' (recordEvents sp s es c) := by
  obtain ⟨⟨s₂, r⟩, hcall, rfl⟩ := Option.map_eq_some_iff.mp hn
  cases c with
  | write p size stime now =>
      obtain ⟨s₁, k, hpages, hend⟩ := ssdWritePpa_cases hcall
      have hok := h.pagesDone hpages
      show NandOk sp s₂ (es ++ (programmedPages sp now (startTime now stime) _ p s).map .programmed)
      rcases hend with ⟨lat, -, hk, heq⟩ | ⟨code, -, hk, heq, hrefused⟩
      · rw [hpages.programmedPages (Or.inl hk)]
        exact hok.of_same (by rw [heq]) (by rw [heq])
      · rw [hpages.programmedPages (Or.inr ⟨hk, code, hrefused⟩), heq]
        exact hok
  | read p size stime now =>
      obtain ⟨s₁, k, hpages, hend⟩ := ssdReadPpa_cases hcall
      have hout := hpages.readOut
      have hok := h.of_same hout.ppaState hout.lineWp
      rcases hend with ⟨lat, -, hk, heq⟩ | ⟨code, -, hk, heq, -⟩
      · exact hok.of_same (by rw [heq]) (by rw [heq])
      · rw [heq]
        exact hok
  -- A trim forgets the pages of its line.
  | trim p now =>
      refine ⟨h.ordered.trim hcall, fun q => ?_⟩
      obtain ⟨-, hstate, -⟩ := ssdTrim_some hcall
      show _ ↔ WrittenSince sp (es ++ [_]) q
      rw [hstate, writtenSince_concat, ← h.written]
      by_cases hl : sp.lineIdx q = sp.lineIdx p
      · simp [hl]
      · simp [hl, Ne.symm hl]

/-- The device with the events of its run. -/
def nandRuns (sp : SsdParams) : Machine (Nand × List NandEvent) NandCall :=
  (nandMachine sp).withHistory [] (recordEvents sp)

theorem nandRuns_ok {s : Nand} {es : List NandEvent} (h : (nandRuns sp).Reachable (s, es)) :
    NandOk sp s es := by
  have hall : NandOk sp (s, es).1 (s, es).2 := by
    refine Machine.Reach.invariant (I := fun x => NandOk sp x.1 x.2) ?_ ?_ h
    · rintro ⟨s, es⟩ ⟨rfl, rfl⟩
      refine ⟨ssdInit_ordered, fun q => ⟨fun hc => absurd hc Bool.false_ne_true, ?_⟩⟩
      rintro ⟨before, after, heq, -⟩
      exact absurd heq (by simp)
    · rintro ⟨s, es⟩ x c - hok - hn
      obtain ⟨s', hs', rfl⟩ := Option.map_eq_some_iff.mp hn
      exact hok.step hs'
  exact hall

/-! ## Section 7: What holds after any run -/

/-- An error leaves the totals as they were and changes nothing but what the accepted pages
    before the refused one change. -/
structure NandCorrect (sp : SsdParams) (s : Nand) (es : List NandEvent) : Prop where
  marks : ∀ q, s.ppaState q = true ↔ q % sp.pgsPerLine < s.lineWp (sp.lineIdx q)
  wp_le : ∀ l, s.lineWp l ≤ sp.pgsPerLine
  read : ∀ p size stime now, 4096 ≤ size → p + size / 4096 ≤ sp.ttPgs →
    ∃ s' r, ssdReadPpa sp now s p size stime = some (s', r) ∧
      ((∃ lat, r = .ok lat) ↔ ∀ q, p ≤ q → q < p + size / 4096 → WrittenSince sp es q) ∧
      ∀ code, r = .error code →
        ∃ k < size / 4096, ReadOut sp s p k s' ∧ ¬ WrittenSince sp es (p + k)
  write : ∀ p size stime now, 4096 ≤ size → p + size / 4096 ≤ sp.ttPgs →
    ∃ s' r, ssdWritePpa sp now s p size stime = some (s', r) ∧
      ∀ code, r = .error code →
        ∃ k < size / 4096, Programmed sp s p k s' ∧ (s'.ppaState (p + k) = true ∨
          s'.lineWp (sp.lineIdx (p + k)) ≠ (p + k) % sp.pgsPerLine)

/-- After any run of writes, reads and trims. -/
theorem nand_state_machine {s : Nand} {es : List NandEvent}
    (h : (nandRuns sp).Reachable (s, es)) : NandCorrect sp s es := by
  have hok := nandRuns_ok h
  refine ⟨hok.ordered.marks, hok.ordered.wp_le, fun p size stime now hsize hp => ?_,
    fun p size stime now hsize hp => ?_⟩
  · obtain ⟨s', r, hcall⟩ := ssdReadPpa_isSome s hsize hp now stime
    obtain ⟨s₁, k, hpages, hend⟩ := ssdReadPpa_cases hcall
    refine ⟨s', r, hcall, ?_, fun code hr => ?_⟩
    · rcases hend with ⟨lat, rfl, hk, -⟩ | ⟨code, rfl, hk, -, hrefused⟩
      · refine iff_of_true ⟨lat, rfl⟩ fun q h₁ h₂ => ?_
        exact (hok.written q).mp (hpages.read_written q h₁ (by omega))
      -- The page that was refused has not been written since its line was trimmed.
      · refine iff_of_false (fun hc => ?_) fun hall => ?_
        · obtain ⟨lat, hlat⟩ := hc
          cases hlat
        · have hfree := readPage_error hrefused
          rw [hpages.readOut.ppaState] at hfree
          have hmark := (hok.written (p + k)).mpr (hall (p + k) (by omega) (by omega))
          rw [hfree] at hmark
          exact Bool.false_ne_true hmark
    · rcases hend with ⟨lat, rfl, -⟩ | ⟨code', -, hk, rfl, hrefused⟩
      · cases hr
      · refine ⟨k, hk, hpages.readOut, fun hw => ?_⟩
        have hfree := readPage_error hrefused
        rw [hpages.readOut.ppaState, (hok.written (p + k)).mpr hw] at hfree
        exact Bool.false_ne_true hfree.symm
  · obtain ⟨s', r, hcall⟩ := ssdWritePpa_isSome s hsize hp now stime
    obtain ⟨s₁, k, hpages, hend⟩ := ssdWritePpa_cases hcall
    refine ⟨s', r, hcall, fun code hr => ?_⟩
    rcases hend with ⟨lat, rfl, -⟩ | ⟨code', -, hk, rfl, hrefused⟩
    · cases hr
    · exact ⟨k, hk, hpages.programmed, writePage_error hrefused⟩

/-- A write of one page and a read of it. -/
theorem nand_state_machine_single : ∃ s es,
    (nandMachine .shipped).exec ssdInit [.write 0 4096 0 1, .read 0 4096 0 1] = some s ∧
      NandCorrect .shipped s es := by
  obtain ⟨s, hs⟩ : ∃ s, (nandMachine .shipped).exec ssdInit
      [.write 0 4096 0 1, .read 0 4096 0 1] = some s := ⟨_, rfl⟩
  obtain ⟨es, hes⟩ := @Machine.exists_withHistory _ _ (nandMachine .shipped) _ []
    (recordEvents .shipped) _ s (Machine.Reachable.exec (Machine.Reachable.init rfl) hs)
  exact ⟨s, es, hs, nand_state_machine hes⟩

/-- A read of two pages of which the first is written: the error leaves it counted. -/
theorem nand_error_counterexample : ∃ s s',
    (nandMachine .shipped).exec ssdInit [.write 0 4096 0 1] = some s ∧
      ssdReadPpa .shipped 1 s 0 8192 0 = some (s', .error (-1)) ∧
      s'.nrNandRdLun 0 ≠ s.nrNandRdLun 0 :=
  ⟨_, _, rfl, rfl, by decide⟩

/-! ## Section 8: The device of the block manager -/

/-- `ppa_state` and `line_wp` alone. -/
def Nand.ssd (s : Nand) : Ssd := ⟨s.ppaState, s.lineWp⟩

def okReply : Except Int Nat → Bool
  | .ok _ => true
  | .error _ => false

/-- The page loop does what the device of the block manager does. -/
theorem pageLoop_ssd {cfg : Settings} (hpps : cfg.pps = sp.pgsPerLine) (n : Nat) :
    ∀ {p maxEtime : Nat} {s s' : Nand} {r : Except Int Nat},
      pageLoop sp (writePage sp now stime) n p maxEtime s = some (s', r) →
      ssdWrite cfg s.ssd p n = (s'.ssd, okReply r) := by
  induction n with
  | zero =>
    intro p maxEtime s s' r h
    cases h
    rfl
  | succ n ih =>
    intro p maxEtime s s' r h
    unfold pageLoop at h
    split_ifs at h with hp
    have hline : p / cfg.pps = sp.lineIdx p := by rw [hpps]; rfl
    unfold ssdWrite
    dsimp only
    rw [hline, hpps]
    cases hpage : writePage sp now stime s p with
    | error code =>
        rw [hpage] at h
        cases h
        -- The two tests of the loop, in the order of the source.
        have hrefused : (s.ssd.ppaState p || decide (s.ssd.lineWp (sp.lineIdx p) ≠
            p - sp.lineIdx p * sp.pgsPerLine)) = true := by
          unfold writePage at hpage
          dsimp only at hpage
          split_ifs at hpage with hstate hwp
          · exact Bool.or_eq_true_iff.mpr (Or.inl hstate)
          · exact Bool.or_eq_true_iff.mpr (Or.inr (decide_eq_true hwp))
        rw [if_pos hrefused]
        rfl
    | ok x =>
        obtain ⟨s₁, etime⟩ := x
        rw [hpage] at h
        have haccepted : (s.ssd.ppaState p || decide (s.ssd.lineWp (sp.lineIdx p) ≠
            p - sp.lineIdx p * sp.pgsPerLine)) ≠ true := by
          unfold writePage at hpage
          dsimp only at hpage
          split_ifs at hpage with hstate hwp
          rw [Ne, Bool.or_eq_true, decide_eq_true_iff, not_or]
          exact ⟨hstate, hwp⟩
        obtain ⟨-, -, -, hstate, hlineWp, -⟩ := writePage_ok hpage
        -- The page is programmed and the write pointer moves on.
        have hnext : s₁.ssd = ⟨Function.update s.ppaState p true,
            Function.update s.lineWp (sp.lineIdx p) (s.lineWp (sp.lineIdx p) + 1)⟩ := by
          unfold Nand.ssd
          rw [hstate, hlineWp]
          rfl
        rw [if_neg haccepted, ← ih h, hnext]
        rfl

/-- The write of the block manager's model is this one. -/
theorem ssdWritePpa_ssd {cfg : Settings} (hpps : cfg.pps = sp.pgsPerLine) {s s' : Nand}
    {p size : Nat} {r : Except Int Nat} (h : ssdWritePpa sp now s p size stime = some (s', r)) :
    ssdWrite cfg s.ssd p (size / 4096) = (s'.ssd, okReply r) := by
  unfold ssdWritePpa at h
  dsimp only at h
  split_ifs at h with hsize
  obtain ⟨⟨s₁, r₁⟩, hloop, h⟩ := Option.bind_eq_some_iff.mp h
  rw [pageLoop_ssd hpps _ hloop]
  cases r₁ with
  | error code =>
      cases h
      rfl
  | ok m =>
      dsimp only at h
      split_ifs at h with hm
      cases h
      rfl

/-- And so is the trim. -/
theorem ssdTrim_ssd {cfg : Settings} (hpps : cfg.pps = sp.pgsPerLine) {s s' : Nand} {p : Nat}
    {r : Except Int Nat} (h : ssdTrim sp now s p = some (s', r)) :
    s'.ssd = ssdTrimBlock cfg s.ssd (sp.lineIdx p) := by
  obtain ⟨-, hstate, hline⟩ := ssdTrim_some h
  have hfun : s'.ppaState = fun q =>
      if q / cfg.pps = sp.lineIdx p then false else s.ppaState q := by
    funext q
    rw [hstate, hpps]
    rfl
  unfold Nand.ssd ssdTrimBlock
  rw [hfun, hline]

end AggreKV.HashKv
