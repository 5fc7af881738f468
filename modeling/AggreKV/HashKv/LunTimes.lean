import AggreKV.HashKv.FlashState
import AggreKV.Lib.Servers
import Mathlib.Data.List.Nodup
import Mathlib.Tactic.Ring

/-! # The time the LUNs are busy

    `ssd_advance_status` keeps one time for each LUN, `next_lun_avail_time`.
    Here the LUNs are servers: every page that is read or written and every
    block that is erased is a command to one of them.

    * `commands`: the commands of a call, also of one that ends in an error.
    * `lun_times`: over any run, a LUN does its commands one at a time, in
      order, and never waits while it has one; the counters per LUN say how
      long it was at work.
    * `reply_latency`: what a call answers is the time until the last of its
      commands is over. -/

namespace AggreKV.HashKv

variable {sp : SsdParams} {now stime : Nat}

/-! ## Section 1: The LUN of a page -/

/-- `get_lun` of page `pgidx`: its channel, and its place there. -/
def SsdParams.lun (sp : SsdParams) (pgidx : Nat) : Nat × Nat := (sp.ppaCh pgidx, sp.ppaLun pgidx)

/-- The index of the counters of a LUN. -/
def SsdParams.lunCounter (sp : SsdParams) (x : Nat × Nat) : Nat := x.1 * sp.lunsPerCh + x.2

/-- A page is on one of the LUNs of its channel. -/
theorem SsdParams.ppaLun_lt (sp : SsdParams) (pgidx : Nat) : sp.ppaLun pgidx < sp.lunsPerCh :=
  Nat.lt_of_le_of_lt (Nat.mod_le _ _) (Nat.mod_lt _ sp.pos.2.1)

/-- Two LUNs of the device have different counters. -/
theorem SsdParams.lunIdx_eq_iff {x : Nat × Nat} (hx : x.2 < sp.lunsPerCh) (pgidx : Nat) :
    sp.lunIdx pgidx = sp.lunCounter x ↔ sp.lun pgidx = x := by
  have hlt := sp.ppaLun_lt pgidx
  constructor
  · intro h
    have hdiv := congrArg (· / sp.lunsPerCh) h
    have hmod := congrArg (· % sp.lunsPerCh) h
    simp only [lunIdx, lunCounter, Nat.mul_add_mod_self_right, Nat.mod_eq_of_lt hlt,
      Nat.mod_eq_of_lt hx] at hmod
    simp only [lunIdx, lunCounter, Nat.add_comm (_ * _), Nat.add_mul_div_right _ _ sp.pos.2.1,
      Nat.div_eq_of_lt hlt, Nat.div_eq_of_lt hx, Nat.zero_add] at hdiv
    exact Prod.ext hdiv hmod
  · intro h
    rw [← h]
    rfl

/-- Pages in a row, at most as many as there are LUNs, are on distinct LUNs. -/
theorem SsdParams.nodup_lun (hch : sp.nchs ≤ 128) (hlun : sp.lunsPerCh ≤ 256) {p k : Nat}
    (hk : k ≤ sp.ttLuns) : ((List.range' p k).map sp.lun).Nodup := by
  apply List.Nodup.map_on
  · intro a ha b hb heq
    rw [List.mem_range'_1] at ha hb
    have hpos := sp.pos
    -- The channel has seven bits and the LUN eight, so neither is cut off.
    have hc : a % sp.nchs = b % sp.nchs := by
      have h := congrArg Prod.fst heq
      simp only [lun, ppaCh] at h
      rwa [Nat.mod_eq_of_lt (Nat.lt_of_lt_of_le (Nat.mod_lt _ hpos.2.2) hch),
        Nat.mod_eq_of_lt (Nat.lt_of_lt_of_le (Nat.mod_lt _ hpos.2.2) hch)] at h
    have hl : a / sp.nchs % sp.lunsPerCh = b / sp.nchs % sp.lunsPerCh := by
      have h := congrArg Prod.snd heq
      simp only [lun, ppaLun] at h
      rwa [Nat.mod_eq_of_lt (Nat.lt_of_lt_of_le (Nat.mod_lt _ hpos.2.1) hlun),
        Nat.mod_eq_of_lt (Nat.lt_of_lt_of_le (Nat.mod_lt _ hpos.2.1) hlun)] at h
    -- the pages agree modulo the number of LUNs, and are less than that apart
    have hmod : a % sp.ttLuns = b % sp.ttLuns := by
      unfold ttLuns
      rw [Nat.mul_comm, Nat.mod_mul, Nat.mod_mul, hc, hl]
    have hda := Nat.div_add_mod a sp.ttLuns
    have hdb := Nat.div_add_mod b sp.ttLuns
    rw [hmod] at hda
    have hq : a / sp.ttLuns = b / sp.ttLuns := by
      by_contra hne
      rcases Nat.lt_or_gt_of_ne hne with hlt | hlt
      · have hm := Nat.mul_le_mul_left sp.ttLuns (Nat.succ_le_of_lt hlt)
        rw [Nat.mul_succ] at hm
        omega
      · have hm := Nat.mul_le_mul_left sp.ttLuns (Nat.succ_le_of_lt hlt)
        rw [Nat.mul_succ] at hm
        omega
    rw [hq] at hda
    omega
  · exact List.nodup_range'

/-- Each LUN has one of the first pages of a line. -/
theorem SsdParams.exists_lun (hch : sp.nchs ≤ 128) (hlun : sp.lunsPerCh ≤ 256) {p ch lun : Nat}
    (hp : p % sp.pgsPerLine = 0) (hc : ch < sp.nchs) (hl : lun < sp.lunsPerCh) :
    ∃ q ∈ List.range' p sp.ttLuns, sp.lun q = (ch, lun) := by
  obtain ⟨c, rfl⟩ := Nat.dvd_of_mod_eq_zero hp
  have hq : sp.pgsPerLine * c + (lun * sp.nchs + ch) =
      (sp.lunsPerCh * (sp.pgsPerBlk * c) + lun) * sp.nchs + ch := by
    unfold pgsPerLine ttLuns
    ring
  refine ⟨sp.pgsPerLine * c + (lun * sp.nchs + ch), ?_, ?_⟩
  · rw [List.mem_range'_1]
    have hle := Nat.mul_le_mul_right sp.nchs (Nat.succ_le_of_lt hl)
    rw [Nat.succ_mul] at hle
    unfold ttLuns
    omega
  · rw [hq]
    unfold SsdParams.lun ppaCh ppaLun
    rw [Nat.mul_add_mod_self_right, Nat.mod_eq_of_lt hc, Nat.mod_eq_of_lt (by omega),
      Nat.add_comm (_ * _) ch, Nat.add_mul_div_right _ _ (Nat.lt_of_le_of_lt (Nat.zero_le _) hc),
      Nat.div_eq_of_lt hc, Nat.zero_add, Nat.mul_add_mod, Nat.mod_eq_of_lt hl,
      Nat.mod_eq_of_lt (by omega)]

/-! ## Section 2: Commands -/

/-- `next_lun_avail_time`. -/
def Nand.avail (s : Nand) : Nat × Nat → Nat := fun x => s.nextLunAvailTime x.1 x.2

/-- A command on page `pgidx`. -/
def command (sp : SsdParams) (arrival lat pgidx : Nat) : Job (Nat × Nat) :=
  ⟨sp.lun pgidx, arrival, lat⟩

/-- The pages a request gets done before it ends. -/
def donePages (page : Nand → Nat → Except Int (Nand × Nat)) : Nat → Nat → Nand → List Nat
  | 0, _, _ => []
  | n + 1, p, s =>
      match page s p with
      | .ok (s, _) => p :: donePages page n (p + 1) s
      | .error _ => []

/-- The commands of a call. -/
def commands (sp : SsdParams) (s : Nand) : NandCall → List (Job (Nat × Nat))
  | .write p size stime now =>
      (donePages (writePage sp now (startTime now stime)) (size / 4096) p s).map
        (command sp (startTime now stime) sp.pgWrLat)
  | .read p size stime now =>
      (donePages (readPage sp now (startTime now stime)) (size / 4096) p s).map
        (command sp (startTime now stime) sp.pgRdLat)
  | .trim p now => (List.range' p sp.ttLuns).map (command sp now sp.blkErLat)

/-- A command is served by its LUN, after those before it. -/
theorem ssdAdvanceStatus_serve (hnow : now ≤ stime) (s : Nand) (p lat : Nat) :
    (ssdAdvanceStatus sp now s p lat stime).1.avail = serve s.avail (command sp stime lat p) ∧
      stime + (ssdAdvanceStatus sp now s p lat stime).2 =
        max (s.avail (sp.lun p)) stime + lat := by
  -- A start time of 0 stands for the current time.
  have hstime : (if stime = 0 then now else stime) = stime := by
    split_ifs
    · omega
    · rfl
  have hmax : (if s.avail (sp.lun p) < stime then stime else s.avail (sp.lun p)) =
      max (s.avail (sp.lun p)) stime := by
    split_ifs
    · omega
    · omega
  unfold ssdAdvanceStatus
  dsimp only
  rw [hstime]
  change _ ∧ stime + ((if s.avail (sp.lun p) < stime then stime else s.avail (sp.lun p)) + lat
    - stime) = _
  rw [hmax]
  constructor
  -- Only the LUN of the page is busy for longer.
  · funext x
    by_cases hx : x = sp.lun p
    · subst hx
      refine Eq.trans ?_ (serve_self s.avail (command sp stime lat p)).symm
      unfold Nand.avail
      dsimp only
      rw [show (sp.lun p).1 = sp.ppaCh p from rfl, show (sp.lun p).2 = sp.ppaLun p from rfl,
        Function.update_self, Function.update_self]
      exact congrArg (· + lat) hmax
    · rw [serve_of_ne (j := command sp stime lat p) hx]
      unfold Nand.avail
      dsimp only
      by_cases hc : x.1 = sp.ppaCh p
      · rw [hc, Function.update_self, Function.update_of_ne]
        intro hl
        exact hx (Prod.ext hc hl)
      · rw [Function.update_of_ne hc]
  · omega

/-! ## Section 3: What a call does to the LUNs -/

/-- A page that is done is served by its LUN. -/
def Serves (sp : SsdParams) (page : Nand → Nat → Except Int (Nand × Nat)) (arrival lat : Nat) :
    Prop :=
  ∀ s p s' etime, page s p = .ok (s', etime) →
    s'.avail = serve s.avail (command sp arrival lat p) ∧
      etime = max (s.avail (sp.lun p)) arrival + lat

/-- A page write is a command of `pg_wr_lat`. -/
theorem writePage_serves (hnow : now ≤ stime) :
    Serves sp (writePage sp now stime) stime sp.pgWrLat := by
  intro s p s' etime h
  unfold writePage at h
  dsimp only at h
  split_ifs at h
  cases h
  exact ssdAdvanceStatus_serve hnow _ p sp.pgWrLat

/-- A page read is a command of `pg_rd_lat`. -/
theorem readPage_serves (hnow : now ≤ stime) :
    Serves sp (readPage sp now stime) stime sp.pgRdLat := by
  intro s p s' etime h
  unfold readPage at h
  split_ifs at h
  cases h
  exact ssdAdvanceStatus_serve hnow _ p sp.pgRdLat

/-- The loop over the pages of a request, also when a page is refused. -/
theorem pageLoop_served {page : Nand → Nat → Except Int (Nand × Nat)} {arrival lat : Nat}
    (hpage : Serves sp page arrival lat) (n : Nat) :
    ∀ {p maxEtime : Nat} {s s' : Nand} {r : Except Int Nat},
      pageLoop sp page n p maxEtime s = some (s', r) →
      ∃ k, donePages page n p s = List.range' p k ∧ PagesDone page s p k s' ∧
        s'.avail = serveAll s.avail ((List.range' p k).map (command sp arrival lat)) ∧
        ∀ m, r = .ok m → k = n ∧ m = lastFinish maxEtime
          (schedule s.avail ((List.range' p k).map (command sp arrival lat))) := by
  induction n with
  | zero =>
    intro p maxEtime s s' r h
    cases h
    refine ⟨0, rfl, .nil, rfl, fun m hm => ⟨rfl, ?_⟩⟩
    cases hm
    rfl
  | succ n ih =>
    intro p maxEtime s s' r h
    unfold pageLoop at h
    split_ifs at h with hp
    unfold donePages
    cases hs : page s p with
    -- The pages before the refused one have been served.
    | error code =>
        rw [hs] at h
        cases h
        refine ⟨0, rfl, .nil, rfl, fun m hm => ?_⟩
        cases hm
    | ok x =>
        obtain ⟨s₁, etime⟩ := x
        rw [hs] at h
        obtain ⟨havail, hetime⟩ := hpage s p s₁ etime hs
        obtain ⟨k, hdone, hpages, hall, hres⟩ := ih h
        refine ⟨k + 1, ?_, .cons hs hpages, ?_, fun m hm => ?_⟩
        · rw [List.range'_succ, ← hdone]
        · rw [hall, havail, List.range'_succ, List.map_cons, serveAll_cons]
        · obtain ⟨hk, hm⟩ := hres m hm
          have hmax : (if maxEtime < etime then etime else maxEtime) = max maxEtime etime := by
            split_ifs
            · omega
            · omega
          refine ⟨by omega, ?_⟩
          rw [hm, hmax, List.range'_succ, List.map_cons, schedule_cons, lastFinish_cons, havail,
            hetime]
          rfl

/-- What a request of `n` pages does to the LUNs. -/
def RequestServed (sp : SsdParams) (page : Nand → Nat → Except Int (Nand × Nat)) (arrival lat : Nat)
    (s s' : Nand) (p n : Nat) (r : Except Int Nat) : Prop :=
  ∃ k s₁, donePages page n p s = List.range' p k ∧ PagesDone page s p k s₁ ∧
    s'.avail = serveAll s.avail ((List.range' p k).map (command sp arrival lat)) ∧
    (s'.nrNandRdLun = s₁.nrNandRdLun ∧ s'.nrNandWrLun = s₁.nrNandWrLun ∧
      s'.nrNandErLun = s₁.nrNandErLun) ∧
    ∀ reply, r = .ok reply → k = n ∧ 0 < n ∧ arrival + reply = lastFinish 0
      (schedule s.avail ((List.range' p k).map (command sp arrival lat)))

/-- A request does not start in the past. -/
theorem le_startTime (now stime : Nat) : now ≤ startTime now stime := by
  unfold startTime
  split_ifs
  · omega
  · omega

/-- A write sends one command for each page it gets to. -/
theorem ssdWritePpa_served {s s' : Nand} {p size : Nat} {r : Except Int Nat}
    (h : ssdWritePpa sp now s p size stime = some (s', r)) :
    RequestServed sp (writePage sp now (startTime now stime)) (startTime now stime) sp.pgWrLat
      s s' p (size / 4096) r := by
  unfold ssdWritePpa at h
  dsimp only at h
  split_ifs at h with hsize
  obtain ⟨⟨s₁, r₁⟩, hloop, h⟩ := Option.bind_eq_some_iff.mp h
  obtain ⟨k, hdone, hpages, hall, hres⟩ :=
    pageLoop_served (writePage_serves (le_startTime now stime)) _ hloop
  cases r₁ with
  | error code =>
      cases h
      refine ⟨k, s₁, hdone, hpages, hall, ⟨rfl, rfl, rfl⟩, fun reply hr => ?_⟩
      cases hr
  | ok m =>
      dsimp only at h
      split_ifs at h with hm
      cases h
      refine ⟨k, s₁, hdone, hpages, hall, ⟨rfl, rfl, rfl⟩, fun reply hr => ?_⟩
      cases hr
      obtain ⟨hk, heq⟩ := hres m rfl
      exact ⟨hk, Nat.div_pos (Nat.not_lt.mp hsize) (by decide), by omega⟩

/-- And so does a read. -/
theorem ssdReadPpa_served {s s' : Nand} {p size : Nat} {r : Except Int Nat}
    (h : ssdReadPpa sp now s p size stime = some (s', r)) :
    RequestServed sp (readPage sp now (startTime now stime)) (startTime now stime) sp.pgRdLat
      s s' p (size / 4096) r := by
  unfold ssdReadPpa at h
  dsimp only at h
  split_ifs at h with hsize
  obtain ⟨⟨s₁, r₁⟩, hloop, h⟩ := Option.bind_eq_some_iff.mp h
  obtain ⟨k, hdone, hpages, hall, hres⟩ :=
    pageLoop_served (readPage_serves (le_startTime now stime)) _ hloop
  cases r₁ with
  | error code =>
      cases h
      refine ⟨k, s₁, hdone, hpages, hall, ⟨rfl, rfl, rfl⟩, fun reply hr => ?_⟩
      cases hr
  | ok m =>
      dsimp only at h
      split_ifs at h with hm
      cases h
      refine ⟨k, s₁, hdone, hpages, hall, ⟨rfl, rfl, rfl⟩, fun reply hr => ?_⟩
      cases hr
      obtain ⟨hk, heq⟩ := hres m rfl
      exact ⟨hk, Nat.div_pos (Nat.not_lt.mp hsize) (by decide), by omega⟩

/-- What the loop of a trim does to the LUNs and their counters. The latencies it compares have 64
    bits and the largest so far 32: the result is the largest only when all of them fit. -/
theorem eraseLoop_served (p n : Nat) : ∀ (i maxlat : Nat) (s : Nand),
    (eraseLoop sp now p n i maxlat s).1.avail =
        serveAll s.avail ((List.range' (p + i) n).map (command sp now sp.blkErLat)) ∧
      (eraseLoop sp now p n i maxlat s).1.nrNandRdLun = s.nrNandRdLun ∧
      (eraseLoop sp now p n i maxlat s).1.nrNandWrLun = s.nrNandWrLun ∧
      (∀ l, (eraseLoop sp now p n i maxlat s).1.nrNandErLun l =
        s.nrNandErLun l + countIn sp.lunIdx (p + i) n l) ∧
      (maxlat < 4294967296 → (eraseLoop sp now p n i maxlat s).2 < 4294967296) ∧
      ((∀ v ∈ schedule s.avail ((List.range' (p + i) n).map (command sp now sp.blkErLat)),
          v.finish < now + 4294967296) →
        now + (eraseLoop sp now p n i maxlat s).2 = lastFinish (now + maxlat)
          (schedule s.avail ((List.range' (p + i) n).map (command sp now sp.blkErLat)))) := by
  induction n with
  | zero =>
    intro i maxlat s
    exact ⟨rfl, rfl, rfl, fun l => rfl, fun h => h, fun h => rfl⟩
  | succ n ih =>
    intro i maxlat s
    unfold eraseLoop
    dsimp only
    set s₁ : Nand := { s with nrNandErLun := bump s.nrNandErLun (sp.lunIdx (p + i)) } with hs₁
    obtain ⟨havail, hlat⟩ :=
      @ssdAdvanceStatus_serve sp now now (Nat.le_refl now) s₁ (p + i) sp.blkErLat
    set r := ssdAdvanceStatus sp now s₁ (p + i) sp.blkErLat now with hr
    have hsame : s₁.avail = s.avail := rfl
    rw [hsame] at havail hlat
    -- One LUN is erased, then the rest.
    obtain ⟨hall, hrd, hwr, her, hlt, hlast⟩ :=
      ih (i + 1) (if maxlat < r.2 then r.2 % 4294967296 else maxlat) r.1
    rw [← Nat.add_assoc] at hall her hlast
    rw [havail] at hall hlast
    rw [List.range'_succ, List.map_cons, schedule_cons, serveAll_cons, lastFinish_cons]
    refine ⟨hall, hrd, hwr, fun l => ?_, fun hm => hlt ?_, fun hfin => ?_⟩
    · rw [her, countIn_succ]
      change bump s.nrNandErLun (sp.lunIdx (p + i)) l + _ = _
      rw [bump_apply]
      omega
    · split_ifs
      · exact Nat.mod_lt _ (by decide)
      · exact hm
    · rw [List.forall_mem_cons] at hfin
      rw [hlast hfin.2]
      have hfirst : Served.finish ⟨command sp now sp.blkErLat (p + i),
          max (s.avail (command sp now sp.blkErLat (p + i)).server)
            (command sp now sp.blkErLat (p + i)).arrival⟩ = now + r.2 := hlat.symm
      have hfits := hfin.1
      rw [hfirst] at hfits ⊢
      congr 1
      split_ifs
      · rw [Nat.mod_eq_of_lt (by omega)]
        omega
      · omega

/-! ## Section 4: Runs -/

/-- How long a LUN was at work, by its counters. -/
def busyTime (sp : SsdParams) (s : Nand) (x : Nat × Nat) : Nat :=
  s.nrNandRdLun (sp.lunCounter x) * sp.pgRdLat + s.nrNandWrLun (sp.lunCounter x) * sp.pgWrLat +
    s.nrNandErLun (sp.lunCounter x) * sp.blkErLat

/-- The commands of a LUN on pages in a row, as its counter has them. -/
theorem workOf_commands {x : Nat × Nat} (hx : x.2 < sp.lunsPerCh) (arrival lat k : Nat) :
    ∀ p, workOf x ((List.range' p k).map (command sp arrival lat)) =
      countIn sp.lunIdx p k (sp.lunCounter x) * lat := by
  induction k with
  | zero =>
    intro p
    exact (Nat.zero_mul lat).symm
  | succ k ih =>
    intro p
    rw [List.range'_succ, List.map_cons, workOf_cons, ih, countIn_succ, Nat.add_mul, Nat.add_comm]
    congr 1
    have hiff := SsdParams.lunIdx_eq_iff hx p
    change (if sp.lun p = x then lat else 0) = _
    by_cases hl : sp.lun p = x
    · rw [if_pos hl, if_pos (hiff.mpr hl), Nat.one_mul]
    · rw [if_neg hl, if_neg (fun hc => hl (hiff.mp hc)), Nat.zero_mul]

/-- A call is served by the LUNs, and counted. -/
theorem nandCall_served {s s' : Nand} {c : NandCall} {r : Except Int Nat}
    (h : nandCall sp s c = some (s', r)) :
    s'.avail = serveAll s.avail (commands sp s c) ∧
      ∀ x : Nat × Nat, x.2 < sp.lunsPerCh →
        busyTime sp s' x = busyTime sp s x + workOf x (commands sp s c) := by
  cases c with
  | write p size stime now =>
      obtain ⟨k, s₁, hdone, hpages, hall, hsame, -⟩ := ssdWritePpa_served h
      have hprog := hpages.programmed
      show s'.avail = serveAll s.avail (List.map _ (donePages _ _ p s)) ∧ ∀ x : Nat × Nat, _ →
        busyTime sp s' x = busyTime sp s x + workOf x (List.map _ (donePages _ _ p s))
      rw [hdone]
      refine ⟨hall, fun x hx => ?_⟩
      rw [workOf_commands hx]
      unfold busyTime
      rw [hsame.1, hsame.2.1, hsame.2.2, hprog.rdLun, hprog.erLun, hprog.wrLun, Nat.add_mul]
      omega
  | read p size stime now =>
      obtain ⟨k, s₁, hdone, hpages, hall, hsame, -⟩ := ssdReadPpa_served h
      have hout := hpages.readOut
      show s'.avail = serveAll s.avail (List.map _ (donePages _ _ p s)) ∧ ∀ x : Nat × Nat, _ →
        busyTime sp s' x = busyTime sp s x + workOf x (List.map _ (donePages _ _ p s))
      rw [hdone]
      refine ⟨hall, fun x hx => ?_⟩
      rw [workOf_commands hx]
      unfold busyTime
      rw [hsame.1, hsame.2.1, hsame.2.2, hout.rdLun, hout.erLun, hout.wrLun, Nat.add_mul]
      omega
  -- One erase on each LUN of the line.
  | trim p now =>
      obtain ⟨hall, hrd, hwr, her, -⟩ := @eraseLoop_served sp now p sp.ttLuns 0 0 s
      unfold nandCall ssdTrim at h
      dsimp only at h
      split_ifs at h with hok
      cases h
      refine ⟨hall, fun x hx => ?_⟩
      show _ = _ + workOf x ((List.range' p sp.ttLuns).map _)
      rw [workOf_commands hx]
      unfold busyTime
      dsimp only
      rw [hrd, hwr, her, Nat.add_mul, Nat.add_zero]
      exact (Nat.add_assoc _ _ _).symm

/-- The device with the commands of its run. -/
def lunRuns (sp : SsdParams) : Machine (Nand × List (Job (Nat × Nat))) NandCall :=
  (nandMachine sp).withHistory [] fun s js c => js ++ commands sp s c

/-- In every run the LUNs have served the commands of all calls. -/
theorem lunRuns_served {s : Nand} {js : List (Job (Nat × Nat))}
    (h : (lunRuns sp).Reachable (s, js)) :
    s.avail = serveAll (fun _ => 0) js ∧
      ∀ x : Nat × Nat, x.2 < sp.lunsPerCh → busyTime sp s x = workOf x js := by
  have hall : (s, js).1.avail = serveAll (fun _ => 0) (s, js).2 ∧
      ∀ x : Nat × Nat, x.2 < sp.lunsPerCh → busyTime sp (s, js).1 x = workOf x (s, js).2 := by
    refine Machine.Reach.invariant (I := fun y => y.1.avail = serveAll (fun _ => 0) y.2 ∧
      ∀ x : Nat × Nat, x.2 < sp.lunsPerCh → busyTime sp y.1 x = workOf x y.2) ?_ ?_ h
    · rintro ⟨s, js⟩ ⟨rfl, rfl⟩
      refine ⟨rfl, fun x hx => ?_⟩
      simp [busyTime, ssdInit]
    · rintro ⟨s, js⟩ y c - ⟨havail, hbusy⟩ - hn
      obtain ⟨s', hs', rfl⟩ := Option.map_eq_some_iff.mp hn
      obtain ⟨⟨s₂, r⟩, hcall, rfl⟩ := Option.map_eq_some_iff.mp hs'
      obtain ⟨hserved, hcounted⟩ := nandCall_served hcall
      dsimp only at havail hbusy ⊢
      refine ⟨?_, fun x hx => ?_⟩
      · rw [hserved, havail, serveAll_append]
      · rw [hcounted x hx, hbusy x hx, workOf_append]
  exact hall

/-! ## Section 5: What holds of the times -/

/-- The LUNs after a run with the commands `js`, each begun at the time the schedule says. -/
structure LunTimes (sp : SsdParams) (s : Nand) (js : List (Job (Nat × Nat))) : Prop where
  ordered : (schedule (fun _ => 0) js).Pairwise fun v w => v.server = w.server → v.finish ≤ w.start
  prompt : ∀ before v after, schedule (fun _ => 0) js = before ++ v :: after →
    v.arrival ≤ v.start ∧
      (v.start = v.arrival ∨ ∃ u ∈ before, u.server = v.server ∧ u.finish = v.start)
  avail : ∀ v ∈ schedule (fun _ => 0) js, v.finish ≤ s.avail v.server
  last : ∀ x, s.avail x = 0 ∨ ∃ v ∈ schedule (fun _ => 0) js, v.server = x ∧ v.finish = s.avail x
  busy : ∀ x : Nat × Nat, x.2 < sp.lunsPerCh → busyTime sp s x ≤ s.avail x
  behind : ∀ (x : Nat × Nat) (t : Nat), x.2 < sp.lunsPerCh →
    (∀ j ∈ js, j.server = x → j.arrival ≤ t) → s.avail x ≤ t + busyTime sp s x

/-- After any run of writes, reads and trims, with any times. -/
theorem lun_times {s : Nand} {js : List (Job (Nat × Nat))} (h : (lunRuns sp).Reachable (s, js)) :
    LunTimes sp s js := by
  obtain ⟨havail, hbusy⟩ := lunRuns_served h
  refine ⟨schedule_ordered js _, fun before v after heq => ?_, ?_, ?_, ?_, ?_⟩
  · have hle := arrival_le_start js (fun _ => 0) v (by simp [heq])
    refine ⟨hle, ?_⟩
    rcases schedule_prompt heq with hv | hv | hv
    · exact Or.inl hv
    · left
      omega
    · exact Or.inr hv
  · rw [havail]
    exact finish_le_serveAll js _
  · rw [havail]
    exact serveAll_eq_finish js _
  · intro x hx
    rw [havail, hbusy x hx]
    have hle := workOf_le_serveAll (fun _ => 0) js x
    omega
  · intro x t hx harrival
    rw [havail, hbusy x hx]
    exact serveAll_le_of_arrival (Nat.zero_le t) harrival

/-- A write of two pages, a read behind it and a trim. -/
theorem lun_times_three : ∃ s js,
    (nandMachine .shipped).exec ssdInit [.write 0 8192 0 1, .read 0 4096 0 2, .trim 0 3] = some s ∧
      LunTimes .shipped s js := by
  obtain ⟨s, hs⟩ : ∃ s, (nandMachine .shipped).exec ssdInit
      [.write 0 8192 0 1, .read 0 4096 0 2, .trim 0 3] = some s := ⟨_, rfl⟩
  obtain ⟨js, hjs⟩ := @Machine.exists_withHistory _ _ (nandMachine .shipped) _ []
    (fun s js c => js ++ commands .shipped s c) _ s
    (Machine.Reachable.exec (Machine.Reachable.init rfl) hs)
  exact ⟨s, js, hs, lun_times hjs⟩

/-- When a call is answered, and when its commands begin. -/
structure Replied (sp : SsdParams) (s s' : Nand) (c : NandCall) (lat : Nat) : Prop where
  last : ∃ t, IsGreatest {u | ∃ v ∈ schedule s.avail (commands sp s c), v.finish = u} t ∧
    match c with
    | .write _ _ stime now | .read _ _ stime now => startTime now stime + lat = t
    | .trim _ now => lat < 4294967296 ∧ (now + lat = t ↔ t < now + 4294967296)
  parallel : (commands sp s c).length ≤ sp.ttLuns →
    ∀ v ∈ schedule s.avail (commands sp s c), v.start = max (s.avail v.server) v.arrival
  trim : ∀ p now, c = .trim p now → ∀ ch < sp.nchs, ∀ lun < sp.lunsPerCh,
    now + sp.blkErLat ≤ s'.avail (ch, lun)

/-- Commands for consecutive pages go to distinct LUNs. -/
theorem nodup_commands (hch : sp.nchs ≤ 128) (hlun : sp.lunsPerCh ≤ 256) {p k arrival lat : Nat}
    (hk : k ≤ sp.ttLuns) :
    (((List.range' p k).map (command sp arrival lat)).map Job.server).Nodup := by
  rw [List.map_map]
  exact SsdParams.nodup_lun hch hlun hk

/-- A read or a write that gets through. -/
theorem RequestServed.replied {page : Nand → Nat → Except Int (Nand × Nat)} {arrival lat : Nat}
    {s s' : Nand} {p n reply : Nat} (h : RequestServed sp page arrival lat s s' p n (.ok reply)) :
    ∃ k, donePages page n p s = List.range' p k ∧
      IsGreatest {u | ∃ v ∈ schedule s.avail ((List.range' p k).map (command sp arrival lat)),
        v.finish = u} (arrival + reply) := by
  obtain ⟨k, s₁, hdone, -, -, -, hreply⟩ := h
  obtain ⟨hk, hn, hlast⟩ := hreply reply rfl
  refine ⟨k, hdone, ?_⟩
  rw [hlast]
  apply lastFinish_isGreatest
  · apply schedule_ne_nil
    intro hnil
    have hlen := congrArg List.length hnil
    rw [List.length_map, List.length_range', List.length_nil] at hlen
    omega
  · intro v hv
    exact Nat.zero_le _

/-- What a call answers is the time until its last command is over; an erase of 2^32 ns or more is
    answered with less. A call with at most one command for each LUN waits for none of its own. -/
theorem reply_latency (hch : sp.nchs ≤ 128) (hlun : sp.lunsPerCh ≤ 256) {s s' : Nand} {c : NandCall}
    {lat : Nat} (h : nandCall sp s c = some (s', .ok lat)) : Replied sp s s' c lat := by
  cases c with
  | write p size stime now =>
      obtain ⟨k, hdone, hgreatest⟩ := (ssdWritePpa_served h).replied
      have hcommands : commands sp s (.write p size stime now) =
          (List.range' p k).map (command sp (startTime now stime) sp.pgWrLat) := by
        rw [← hdone]
        rfl
      refine ⟨⟨_, ?_, rfl⟩, fun hlen => ?_, fun p now hc => ?_⟩
      · rw [hcommands]
        exact hgreatest
      · rw [hcommands] at hlen ⊢
        rw [List.length_map, List.length_range'] at hlen
        exact schedule_start _ _ (nodup_commands hch hlun hlen)
      · cases hc
  | read p size stime now =>
      obtain ⟨k, hdone, hgreatest⟩ := (ssdReadPpa_served h).replied
      have hcommands : commands sp s (.read p size stime now) =
          (List.range' p k).map (command sp (startTime now stime) sp.pgRdLat) := by
        rw [← hdone]
        rfl
      refine ⟨⟨_, ?_, rfl⟩, fun hlen => ?_, fun p now hc => ?_⟩
      · rw [hcommands]
        exact hgreatest
      · rw [hcommands] at hlen ⊢
        rw [List.length_map, List.length_range'] at hlen
        exact schedule_start _ _ (nodup_commands hch hlun hlen)
      · cases hc
  | trim p now =>
      obtain ⟨havail, -⟩ := nandCall_served h
      obtain ⟨-, -, -, -, hlt, hlast⟩ := @eraseLoop_served sp now p sp.ttLuns 0 0 s
      unfold nandCall ssdTrim at h
      dsimp only at h
      split_ifs at h with hok
      cases h
      set js := (List.range' p sp.ttLuns).map (command sp now sp.blkErLat) with hjs
      have hpos : 0 < sp.ttLuns := Nat.mul_pos sp.pos.2.1 sp.pos.2.2
      have hne : js ≠ [] := by
        intro hnil
        have hlen := congrArg List.length hnil
        rw [hjs, List.length_map, List.length_range', List.length_nil] at hlen
        omega
      have harrival : ∀ v ∈ schedule s.avail js, v.arrival = now ∧ v.work = sp.blkErLat := by
        intro v hv
        have hmem : v.toJob ∈ js := by
          rw [← map_schedule js s.avail]
          exact List.mem_map_of_mem hv
        rw [hjs, List.mem_map] at hmem
        obtain ⟨q, -, hq⟩ := hmem
        rw [← hq]
        exact ⟨rfl, rfl⟩
      -- No erase is over before its own time has passed.
      have hafter : ∀ v ∈ schedule s.avail js, now + sp.blkErLat ≤ v.finish := by
        intro v hv
        have hle := arrival_le_start js s.avail v hv
        obtain ⟨ha, hw⟩ := harrival v hv
        unfold Served.finish
        omega
      have hgreatest := @lastFinish_isGreatest _ (now + 0) _ (@schedule_ne_nil _ _ s.avail _ hne)
        fun v hv => Nat.le_trans (Nat.le_add_right now sp.blkErLat) (hafter v hv)
      refine ⟨⟨_, hgreatest, hlt (by decide), ?_⟩, fun hlen => ?_, fun q now' hc => ?_⟩
      · constructor
        · intro heq
          have hfit := hlt (by decide)
          omega
        · intro hfit
          apply hlast
          intro v hv
          exact Nat.lt_of_le_of_lt (hgreatest.2 ⟨v, hv, rfl⟩) hfit
      · exact schedule_start _ _ (nodup_commands hch hlun (Nat.le_refl _))
      · cases hc
        intro ch hc lun hl
        obtain ⟨q, hq, hlunq⟩ := SsdParams.exists_lun hch hlun hok.2 hc hl
        rw [← hlunq, havail]
        have hmem : command sp now sp.blkErLat q ∈ (schedule s.avail js).map Served.toJob := by
          rw [map_schedule]
          exact List.mem_map_of_mem hq
        obtain ⟨v, hv, hjob⟩ := List.mem_map.mp hmem
        have hle := finish_le_serveAll js s.avail v hv
        rw [show v.server = sp.lun q from congrArg Job.server hjob] at hle
        exact (hafter v hv).trans hle

/-- A write of two pages to idle LUNs takes as long as one. -/
theorem reply_latency_two : ∃ s', nandCall .shipped ssdInit (.write 0 8192 0 1) =
      some (s', .ok 500000) ∧ Replied .shipped ssdInit s' (.write 0 8192 0 1) 500000 :=
  ⟨_, rfl, reply_latency (by decide) (by decide) rfl⟩

end AggreKV.HashKv
