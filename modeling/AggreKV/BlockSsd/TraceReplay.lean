import AggreKV.Lib.Collect
import Mathlib.Algebra.GroupWithZero.Nat

/-! # Replay of a block trace

    `extract_blocktrace_for_worker` and `test_blktrace_tr`, and the function
    that counts what they will submit.

    * `toInt`, `int`: a conversion to `int` wraps, an `int` operation out of
      range is undefined; `none` is that, or a read behind the records.
    * `Covers`: every page of every record is requested once, and counted.
    * `trace_covers_iff`: the traces that are replayed in full. -/

namespace AggreKV.BlockSsd

/-! ## Section 1: The trace and its replay -/

/-- `blktrace_record` without its time stamp, as `parse_blktrace_file` reads it. -/
structure BlktraceRecord where
  ioType : Int
  offsetSecs : Nat
  lengthSecs : Nat
  offset_lt : offsetSecs < 18446744073709551616
  length_lt : lengthSecs < 18446744073709551616

/-- A conversion to `int`. -/
def toInt (x : Nat) : Int := (x : Int).bmod 4294967296

/-- The result of an operation on `int`. -/
def int (x : Int) : Option Int := if -2147483648 ≤ x ∧ x < 2147483648 then some x else none

/-- What is submitted: the type, and the page that the key spells out, if it is set. -/
structure IoRequest where
  type : Nat
  page : Option Nat
  deriving DecidableEq

def ioTypeRead : Int := 0

def ioTypeWrite : Int := 1

def dataR : Nat := 5

def dataW : Nat := 6

/-- The body of the inner loop of `test_blktrace_tr`; `data_key` is a `uint64_t`, and an
    unknown type leaves the request zeroed. -/
def makeRequest (ioType lpa : Int) : IoRequest :=
  let dataKey := (lpa % 18446744073709551616).toNat
  if ioType = ioTypeRead then ⟨dataR, some dataKey⟩
  else if ioType = ioTypeWrite then ⟨dataW, some dataKey⟩
  else ⟨0, none⟩

/-- The loop `for (lpa = start_lpa; lpa <= end_lpa; ++lpa)`. -/
def lpas (startLpa endLpa : Int) : List Int :=
  (List.range (endLpa + 1 - startLpa).toNat).map fun i : Nat => startLpa + i

/-- The requests for one record. -/
def replayRecord (isRamp : Bool) (r : BlktraceRecord) : Option (List IoRequest) :=
  let ioType := if isRamp ∧ r.ioType = ioTypeRead then ioTypeWrite else r.ioType
  let offset := toInt r.offsetSecs
  let length := toInt r.lengthSecs
  (int (offset + length)).bind fun stop => (int (stop - 1)).map fun stop =>
    (lpas (offset.tdiv 8) (stop.tdiv 8)).map (makeRequest ioType)

/-- `test_blktrace_tr`; `rampIndices` is what `blktrace_create_shuffled_indices` returns for the
    ramp. -/
def testBlktraceTr (records : List BlktraceRecord) (rampIndices : Option (List Nat)) :
    Option (List IoRequest) :=
  collect (fun i =>
    let idx := match rampIndices with
      | some indices => indices[i]?
      | none => some i
    idx.bind fun idx => (records[idx]?).bind (replayRecord rampIndices.isSome))
    (List.range records.length)

/-- `extract_blocktrace_for_worker`. -/
def extractBlocktraceForWorker (records : List BlktraceRecord) (nrWorkers workerId : Nat) :
    Option (List BlktraceRecord) :=
  let workerNumRecords := toInt (records.length / nrWorkers)
  (int (workerId * workerNumRecords)).bind fun workerOffsetRecords =>
    collect (fun i : Nat => (int (workerOffsetRecords + i)).bind fun idx =>
        if idx < 0 then none else (records[idx.toNat]?).map fun r => [r])
      (List.range workerNumRecords.toNat)

/-- `test_blktrace` without the ramp: what all workers submit, in the order of the workers. -/
def testBlktrace (records : List BlktraceRecord) (nrWorkers : Nat) : Option (List IoRequest) :=
  collect (fun workerId =>
      (extractBlocktraceForWorker records nrWorkers workerId).bind (testBlktraceTr · none))
    (List.range nrWorkers)

/-- The pages of a record as `count_blktrace_replay_requests` counts them, on `uint64_t`. -/
def countRecord (r : BlktraceRecord) : Nat :=
  let startLpa := r.offsetSecs / 8
  let endLpa := (r.offsetSecs + r.lengthSecs + 18446744073709551615) % 18446744073709551616 / 8
  (endLpa + 18446744073709551616 - startLpa + 1) % 18446744073709551616

/-- `count_blktrace_replay_requests`. -/
def countBlktraceReplayRequests (records : List BlktraceRecord) (nrWorkers : Nat) : Option Nat :=
  let workerNumRecords := records.length / nrWorkers
  (List.range nrWorkers).foldlM (fun total workerId =>
    (List.range workerNumRecords).foldlM (fun total i =>
      (records[workerId * workerNumRecords + i]?).map fun r =>
        (total + countRecord r) % 18446744073709551616) total) 0

/-! ## Section 2: What a replay is meant to submit -/

/-- A read or a write of positive length. -/
structure BlktraceRecord.Plain (r : BlktraceRecord) : Prop where
  type : r.ioType = ioTypeRead ∨ r.ioType = ioTypeWrite
  pos : 0 < r.lengthSecs

/-- The pages of 8 sectors that a record touches. -/
def touchedPages (r : BlktraceRecord) : List Nat :=
  List.range' (r.offsetSecs / 8)
    ((r.offsetSecs + r.lengthSecs - 1) / 8 + 1 - r.offsetSecs / 8)

/-- One request for each page. -/
def recordRequests (r : BlktraceRecord) : List IoRequest :=
  (touchedPages r).map fun page =>
    ⟨if r.ioType = ioTypeRead then dataR else dataW, some page⟩

/-- The workers together submit one request for each page of each record, and the counting
    function says how many. -/
def Covers (records : List BlktraceRecord) (nrWorkers : Nat) : Prop :=
  ∃ reqs, testBlktrace records nrWorkers = some reqs ∧
    reqs.Perm (records.flatMap recordRequests) ∧
    countBlktraceReplayRequests records nrWorkers = some reqs.length

/-- The records are split evenly and indexed by `int`, and each ends below sector 2^31. -/
structure ReplayCondition (records : List BlktraceRecord) (nrWorkers : Nat) : Prop where
  split : nrWorkers ∣ records.length
  share : records.length / nrWorkers < 2147483648
  count : records.length ≤ 2147483648
  small : ∀ r ∈ records, r.offsetSecs + r.lengthSecs < 2147483648

/-! ## Section 3: One record -/

/-- Below 2^31 the conversion to `int` changes nothing. -/
theorem toInt_of_lt {x : Nat} (h : x < 2147483648) : toInt x = x := by
  unfold toInt
  rw [Int.bmod_def]
  omega

/-- It never goes above the number. -/
theorem toInt_bounds (x : Nat) : -2147483648 ≤ toInt x ∧ toInt x < 2147483648 ∧ toInt x ≤ x := by
  unfold toInt
  rw [Int.bmod_def]
  omega

theorem int_of_range {x : Int} (h₁ : -2147483648 ≤ x) (h₂ : x < 2147483648) : int x = some x :=
  if_pos ⟨h₁, h₂⟩

/-- A computation in `int` that is defined is exact. -/
theorem int_some {x y : Int} (h : int x = some y) :
    y = x ∧ -2147483648 ≤ x ∧ x < 2147483648 := by
  unfold int at h
  split_ifs at h with hx
  cases h
  exact ⟨rfl, hx⟩

/-- Sectors of type `int` lie in pages below 2^28. -/
theorem tdiv_bounds {x : Int} (h₁ : -2147483648 ≤ x) (h₂ : x < 2147483648) :
    -268435456 ≤ x.tdiv 8 ∧ x.tdiv 8 < 268435456 := by
  have hsign : Int.sign 8 = 1 := rfl
  rw [Int.tdiv_eq_ediv, hsign]
  split_ifs with h
  · omega
  · omega

theorem mem_lpas {a b lpa : Int} : lpa ∈ lpas a b ↔ a ≤ lpa ∧ lpa ≤ b := by
  unfold lpas
  rw [List.mem_map]
  constructor
  · rintro ⟨i, hi, rfl⟩
    rw [List.mem_range] at hi
    omega
  · rintro ⟨h₁, h₂⟩
    exact ⟨(lpa - a).toNat, List.mem_range.mpr (by omega), by omega⟩

/-- A record below sector 2^31 is replayed in full. -/
theorem replayRecord_eq {r : BlktraceRecord} (hr : r.Plain)
    (hsmall : r.offsetSecs + r.lengthSecs < 2147483648) :
    replayRecord false r = some (recordRequests r) := by
  have hpos := hr.pos
  have hdiv : ((r.offsetSecs : Int) + r.lengthSecs - 1).tdiv 8 =
      ((r.offsetSecs + r.lengthSecs - 1) / 8 : Nat) := by
    rw [Int.tdiv_eq_ediv_of_nonneg (by omega)]
    omega
  have hstart : (r.offsetSecs : Int).tdiv 8 = (r.offsetSecs / 8 : Nat) := by
    rw [Int.tdiv_eq_ediv_of_nonneg (by omega)]
    omega
  unfold replayRecord
  dsimp only
  rw [if_neg (by simp), toInt_of_lt (by omega), toInt_of_lt (by omega),
    int_of_range (by omega) (by omega), Option.bind_some, int_of_range (by omega) (by omega),
    Option.map_some, hdiv, hstart]
  unfold recordRequests touchedPages lpas
  rw [List.range'_eq_map_range, List.map_map, List.map_map]
  have hcount : ((((r.offsetSecs + r.lengthSecs - 1) / 8 : Nat) : Int) + 1 -
      (r.offsetSecs / 8 : Nat)).toNat =
      (r.offsetSecs + r.lengthSecs - 1) / 8 + 1 - r.offsetSecs / 8 := by omega
  rw [hcount]
  congr 1
  -- Request by request: the page of the loop is the page of the record.
  refine List.map_congr_left fun i hi => ?_
  rw [List.mem_range] at hi
  have hkey : ((((r.offsetSecs / 8 : Nat) : Int) + (i : Int)) % 18446744073709551616).toNat =
      r.offsetSecs / 8 + i := by omega
  show makeRequest r.ioType _ = _
  unfold makeRequest
  dsimp only
  rw [hkey]
  rcases hr.type with ht | ht
  · rw [if_pos ht]
    show _ = IoRequest.mk (if _ then _ else _) _
    rw [if_pos ht]
  · have hne : ¬ r.ioType = ioTypeRead := by rw [ht]; decide
    rw [if_neg hne, if_pos ht]
    show _ = IoRequest.mk (if _ then _ else _) _
    rw [if_neg hne]

theorem makeRequest_page {ioType lpa : Int} {page : Nat}
    (h : (makeRequest ioType lpa).page = some page) :
    page = (lpa % 18446744073709551616).toNat := by
  unfold makeRequest at h
  dsimp only at h
  split_ifs at h
  · exact (Option.some.inj h).symm
  · exact (Option.some.inj h).symm

/-- No page in between is ever requested: pages come from an `int`, sign extended. -/
theorem replayRecord_page {r : BlktraceRecord} {reqs : List IoRequest}
    (h : replayRecord false r = some reqs) {req : IoRequest} (hreq : req ∈ reqs) {page : Nat}
    (hpage : req.page = some page) : page < 268435456 ∨ 9223372036854775808 ≤ page := by
  unfold replayRecord at h
  dsimp only at h
  obtain ⟨stop, hstop, h⟩ := Option.bind_eq_some_iff.mp h
  obtain ⟨stop', hstop', rfl⟩ := Option.map_eq_some_iff.mp h
  obtain ⟨rfl, hs₁, hs₂⟩ := int_some hstop'
  obtain ⟨lpa, hlpa, rfl⟩ := List.mem_map.mp hreq
  obtain ⟨hlow, hhigh⟩ := mem_lpas.mp hlpa
  have hoff := toInt_bounds r.offsetSecs
  have hle := (tdiv_bounds hs₁ hs₂).2
  have hge := (tdiv_bounds hoff.1 hoff.2.1).1
  rw [makeRequest_page hpage]
  omega

/-- The last page of a record that ends behind sector 2^31 lies in between. -/
theorem last_page_mem {r : BlktraceRecord} (hr : r.Plain)
    (hbig : 2147483648 < r.offsetSecs + r.lengthSecs) :
    ∃ req ∈ recordRequests r, ∃ page, req.page = some page ∧ 268435456 ≤ page ∧
      page < 9223372036854775808 := by
  have ho := r.offset_lt
  have hl := r.length_lt
  have hpos := hr.pos
  refine ⟨_, List.mem_map_of_mem (a := (r.offsetSecs + r.lengthSecs - 1) / 8) ?_, _, rfl, by omega,
    by omega⟩
  unfold touchedPages
  rw [List.mem_range'_1]
  omega

/-- A record that ends at sector 2^31 overflows the sum. -/
theorem replayRecord_limit {r : BlktraceRecord}
    (hlim : r.offsetSecs + r.lengthSecs = 2147483648) : replayRecord false r = none := by
  have hsum : int (toInt r.offsetSecs + toInt r.lengthSecs) = none ∨
      toInt r.offsetSecs + toInt r.lengthSecs = -2147483648 := by
    by_cases hzero : r.offsetSecs = 0 ∨ r.lengthSecs = 0
    · refine Or.inr ?_
      unfold toInt
      rw [Int.bmod_def, Int.bmod_def]
      omega
    · rw [toInt_of_lt (by omega), toInt_of_lt (by omega)]
      exact Or.inl (if_neg (by omega))
  unfold replayRecord
  dsimp only
  rcases hsum with hnone | hmin
  · rw [hnone]
    rfl
  · rw [hmin]
    rfl

/-- A plain record touches at least one page. -/
theorem recordRequests_pos {r : BlktraceRecord} (hr : r.Plain) :
    0 < (recordRequests r).length := by
  have hpos := hr.pos
  unfold recordRequests touchedPages
  rw [List.length_map, List.length_range']
  omega

/-! ## Section 4: The share of a worker -/

variable {records : List BlktraceRecord} {nrWorkers : Nat}

/-- A worker that gets its records gets one block of them, within the range of `int`. -/
theorem extract_some {workerId : Nat} {part : List BlktraceRecord}
    (h : extractBlocktraceForWorker records nrWorkers workerId = some part) :
    part = (records.drop (workerId * (toInt (records.length / nrWorkers)).toNat)).take
        (toInt (records.length / nrWorkers)).toNat ∧
      (0 < (toInt (records.length / nrWorkers)).toNat →
        workerId * (toInt (records.length / nrWorkers)).toNat +
          (toInt (records.length / nrWorkers)).toNat ≤ 2147483648) := by
  unfold extractBlocktraceForWorker at h
  dsimp only at h
  generalize toInt (records.length / nrWorkers) = share at h ⊢
  obtain ⟨offset, hoffset, h⟩ := Option.bind_eq_some_iff.mp h
  obtain ⟨rfl, -, -⟩ := int_some hoffset
  obtain ⟨hall, rfl⟩ := collect_some h
  by_cases hzero : share.toNat = 0
  -- A share of zero reads nothing.
  · rw [hzero]
    exact ⟨by simp, fun hpos => absurd hpos (Nat.lt_irrefl 0)⟩
  · obtain ⟨w, rfl⟩ : ∃ w : Nat, share = w := ⟨share.toNat, by omega⟩
    rw [Int.toNat_natCast] at hall hzero ⊢
    have hcast : ∀ i : Nat, ((workerId : Int) * (w : Int) + (i : Int)) =
        ((workerId * w + i : Nat) : Int) := fun i => by push_cast; rfl
    -- Every index is one of `int`.
    have hread : ∀ i < w, ((int ((workerId : Int) * (w : Int) + (i : Int))).bind fun idx =>
        if idx < 0 then none else (records[idx.toNat]?).map fun r => [r]) =
          (records[workerId * w + i]?).map (fun r => [r]) ∧ workerId * w + i < 2147483648 := by
      intro i hi
      have hsome := hall i (List.mem_range.mpr hi)
      obtain ⟨idx, hidx, -⟩ := Option.bind_eq_some_iff.mp hsome
      obtain ⟨rfl, -, hlt⟩ := int_some hidx
      rw [hcast] at hlt hidx ⊢
      rw [hidx, Option.bind_some, if_neg (by omega), Int.toNat_natCast]
      exact ⟨rfl, by omega⟩
    refine ⟨?_, fun hpos => ?_⟩
    · rw [← block_flatMap]
      refine List.flatMap_congr fun i hi => ?_
      rw [(hread i (List.mem_range.mp hi)).1]
      cases records[workerId * w + i]? with
      | none => rfl
      | some r => rfl
    · have hlast := (hread (w - 1) (by omega)).2
      omega

/-- Under the condition a worker gets its block of the records. -/
theorem extract_eq (h : ReplayCondition records nrWorkers) {workerId : Nat}
    (hid : workerId < nrWorkers) :
    extractBlocktraceForWorker records nrWorkers workerId =
      some ((records.drop (workerId * (records.length / nrWorkers))).take
        (records.length / nrWorkers)) := by
  have hshare := h.share
  have hcount := h.count
  have hsplit := Nat.div_mul_cancel h.split
  have hmul : (workerId + 1) * (records.length / nrWorkers) ≤ records.length := by
    calc (workerId + 1) * (records.length / nrWorkers)
        ≤ nrWorkers * (records.length / nrWorkers) := Nat.mul_le_mul_right _ hid
      _ = records.length := by rw [Nat.mul_comm, hsplit]
  unfold extractBlocktraceForWorker
  dsimp only
  rw [toInt_of_lt hshare]
  generalize records.length / nrWorkers = w at hshare hmul ⊢
  rw [Nat.succ_mul] at hmul
  have hcast : ((workerId : Int) * (w : Int)) = ((workerId * w : Nat) : Int) := by push_cast; rfl
  have hint : int ((workerId : Int) * (w : Int)) = some ((workerId * w : Nat) : Int) := by
    rw [hcast]
    -- The offset of an empty share is zero, however many workers there are.
    rcases Nat.eq_zero_or_pos w with hw | hw
    · rw [hw, Nat.mul_zero]
      rfl
    · exact int_of_range (by omega) (by omega)
  rw [hint, Option.bind_some, Int.toNat_natCast, ← block_flatMap]
  refine collect_eq fun i hi => ?_
  rw [List.mem_range] at hi
  have hidx : int (((workerId * w : Nat) : Int) + (i : Int)) = some
      ((workerId * w + i : Nat) : Int) := by
    rw [int_of_range (by omega) (by omega)]
    push_cast
    rfl
  have hlt : workerId * w + i < records.length := by omega
  rw [hidx, Option.bind_some, if_neg (by omega), Int.toNat_natCast, List.getElem?_eq_getElem hlt]
  rfl

/-- Without the ramp a worker replays its records in order. -/
theorem testBlktraceTr_eq (part : List BlktraceRecord) :
    testBlktraceTr part none = collect (replayRecord false) part :=
  collect_positions (replayRecord false) part

/-! ## Section 5: Counting -/

def pageCount (records : List BlktraceRecord) : Nat := (records.map countRecord).sum

/-- What the inner loop adds up, on `uint64_t`. -/
theorem countLoop_eq (c w t : Nat) (hw : c + w ≤ records.length) (ht : t < 18446744073709551616) :
    (List.range w).foldlM (fun total i => (records[c + i]?).map fun r =>
        (total + countRecord r) % 18446744073709551616) t =
      some ((t + pageCount ((records.drop c).take w)) % 18446744073709551616) := by
  induction w with
  | zero =>
    have hzero : pageCount ((records.drop c).take 0) = 0 := by
      rw [List.take_zero]
      rfl
    rw [hzero, Nat.add_zero, Nat.mod_eq_of_lt ht, List.range_zero, List.foldlM_nil]
    rfl
  | succ w ih =>
    have hlt : c + w < records.length := by omega
    have hnext : (records.drop c)[w]? = some records[c + w] := by
      rw [List.getElem?_drop, List.getElem?_eq_getElem hlt]
    rw [List.range_succ, List.foldlM_append, ih (by omega), Option.bind_eq_bind, Option.bind_some,
      List.foldlM_cons, List.getElem?_eq_getElem hlt, List.take_add_one, hnext, Option.map_some,
      Option.bind_eq_bind, Option.bind_some, List.foldlM_nil, Nat.mod_add_mod, Option.toList_some,
      Nat.add_assoc]
    unfold pageCount
    rw [List.map_append, List.sum_append, List.map_singleton, List.sum_singleton]
    rfl

/-- The counting function counts the pages of the blocks of all workers. -/
theorem countBlktraceReplayRequests_eq :
    countBlktraceReplayRequests records nrWorkers =
      some (pageCount (records.take (nrWorkers * (records.length / nrWorkers))) %
        18446744073709551616) := by
  have hfit : nrWorkers * (records.length / nrWorkers) ≤ records.length := Nat.mul_div_le _ _
  unfold countBlktraceReplayRequests
  dsimp only
  generalize records.length / nrWorkers = w at hfit ⊢
  induction nrWorkers with
  | zero =>
    rw [Nat.zero_mul, List.take_zero]
    rfl
  | succ n ih =>
    rw [Nat.succ_mul] at hfit ⊢
    rw [List.range_succ, List.foldlM_append, ih (by omega), Option.bind_eq_bind, Option.bind_some,
      List.foldlM_cons, countLoop_eq _ _ _ hfit (Nat.mod_lt _ (by decide)), List.take_add,
      Option.bind_eq_bind, Option.bind_some, List.foldlM_nil, Nat.mod_add_mod]
    unfold pageCount
    rw [List.map_append, List.sum_append]
    rfl

/-- The pages of a record are counted right, and there are at most 2^28. -/
theorem countRecord_eq {r : BlktraceRecord} (hr : r.Plain)
    (hsmall : r.offsetSecs + r.lengthSecs < 2147483648) :
    countRecord r = (recordRequests r).length ∧ countRecord r ≤ 268435456 := by
  have hpos := hr.pos
  unfold countRecord recordRequests touchedPages
  dsimp only
  rw [List.length_map, List.length_range']
  omega

/-- The total is the number of requests. -/
theorem pageCount_eq (hplain : ∀ r ∈ records, r.Plain)
    (hsmall : ∀ r ∈ records, r.offsetSecs + r.lengthSecs < 2147483648) :
    pageCount records = (records.flatMap recordRequests).length ∧
      pageCount records ≤ records.length * 268435456 := by
  induction records with
  | nil => exact ⟨rfl, Nat.le_refl _⟩
  | cons r rs ih =>
    obtain ⟨heq, hle⟩ := ih (fun x hx => hplain x (List.mem_cons_of_mem _ hx))
      (fun x hx => hsmall x (List.mem_cons_of_mem _ hx))
    obtain ⟨hr, hbound⟩ := countRecord_eq (hplain r (List.mem_cons_self ..))
      (hsmall r (List.mem_cons_self ..))
    have hcons : pageCount (r :: rs) = countRecord r + pageCount rs := rfl
    rw [hcons, List.flatMap_cons, List.length_append, List.length_cons, Nat.succ_mul]
    omega

/-! ## Section 6: Which traces are covered -/

/-- The condition is enough. -/
theorem covers_of_condition (hplain : ∀ r ∈ records, r.Plain)
    (h : ReplayCondition records nrWorkers) : Covers records nrWorkers := by
  have hall : nrWorkers * (records.length / nrWorkers) = records.length :=
    Nat.mul_div_cancel' h.split
  have hreplay : ∀ r ∈ records, replayRecord false r = some (recordRequests r) := fun r hr =>
    replayRecord_eq (hplain r hr) (h.small r hr)
  have hworker : ∀ id ∈ List.range nrWorkers,
      ((extractBlocktraceForWorker records nrWorkers id).bind (testBlktraceTr · none)) =
        some (((records.drop (id * (records.length / nrWorkers))).take
          (records.length / nrWorkers)).flatMap recordRequests) := by
    intro id hid
    rw [extract_eq h (List.mem_range.mp hid), Option.bind_some, testBlktraceTr_eq]
    exact collect_eq fun r hr => hreplay r (List.mem_of_mem_drop (List.mem_of_mem_take hr))
  obtain ⟨hcount, hbound⟩ := pageCount_eq hplain h.small
  have hlen := h.count
  refine ⟨records.flatMap recordRequests, ?_, List.Perm.refl _, ?_⟩
  · unfold testBlktrace
    rw [collect_eq hworker, ← List.flatMap_assoc, blocks_flatten, hall, List.take_length]
  · rw [countBlktraceReplayRequests_eq, hall, List.take_length, ← hcount,
      Nat.mod_eq_of_lt (by omega)]

/-- The requests of a replay are those of the first blocks, whatever the records are. -/
theorem testBlktrace_some {reqs : List IoRequest}
    (h : testBlktrace records nrWorkers = some reqs) :
    (∀ r ∈ records.take (nrWorkers * (toInt (records.length / nrWorkers)).toNat),
        replayRecord false r = some ((replayRecord false r).getD [])) ∧
      reqs = (records.take (nrWorkers * (toInt (records.length / nrWorkers)).toNat)).flatMap
        (fun r => (replayRecord false r).getD []) ∧
      (0 < nrWorkers → 0 < (toInt (records.length / nrWorkers)).toNat →
        nrWorkers * (toInt (records.length / nrWorkers)).toNat ≤ 2147483648) := by
  obtain ⟨hall, rfl⟩ := collect_some h
  -- Every worker is done, with its own part.
  have hpart : ∀ id < nrWorkers, ∃ part,
      extractBlocktraceForWorker records nrWorkers id = some part ∧
        (∀ r ∈ part, replayRecord false r = some ((replayRecord false r).getD [])) ∧
        (((extractBlocktraceForWorker records nrWorkers id).bind (testBlktraceTr · none)).getD []) =
          part.flatMap fun r => (replayRecord false r).getD [] := by
    intro id hid
    have hsome := hall id (List.mem_range.mpr hid)
    obtain ⟨part, hextract, hreqs⟩ := Option.bind_eq_some_iff.mp hsome
    rw [testBlktraceTr_eq] at hreqs
    obtain ⟨hrecords, hflat⟩ := collect_some hreqs
    exact ⟨part, hextract, hrecords, hflat⟩
  rw [← blocks_flatten]
  refine ⟨fun r hr => ?_, ?_, fun hn hpos => ?_⟩
  · obtain ⟨id, hid, hr⟩ := List.mem_flatMap.mp hr
    obtain ⟨part, hextract, hrecords, -⟩ := hpart id (List.mem_range.mp hid)
    rw [← (extract_some hextract).1] at hr
    exact hrecords r hr
  · rw [List.flatMap_assoc]
    refine List.flatMap_congr fun id hid => ?_
    obtain ⟨part, hextract, -, hflat⟩ := hpart id (List.mem_range.mp hid)
    rw [hflat, ← (extract_some hextract).1]
  · obtain ⟨part, hextract, -, -⟩ := hpart (nrWorkers - 1) (by omega)
    have hlast := (extract_some hextract).2 hpos
    have hsucc : nrWorkers - 1 + 1 = nrWorkers := by omega
    rwa [← Nat.succ_mul, Nat.succ_eq_add_one, hsucc] at hlast

/-- A longer list of records has more requests. -/
theorem eq_nil_of_requests {rs : List BlktraceRecord} (hplain : ∀ r ∈ rs, r.Plain)
    (h : (rs.flatMap recordRequests).length = 0) : rs = [] := by
  cases rs with
  | nil => rfl
  | cons r rs =>
      have hpos := recordRequests_pos (hplain r (List.mem_cons_self ..))
      rw [List.flatMap_cons, List.length_append] at h
      omega

/-- And it is needed. -/
theorem condition_of_covers (hn : 0 < nrWorkers) (hplain : ∀ r ∈ records, r.Plain)
    (h : Covers records nrWorkers) : ReplayCondition records nrWorkers := by
  obtain ⟨reqs, hreqs, hperm, -⟩ := h
  obtain ⟨hdone, hflat, hrange⟩ := testBlktrace_some hreqs
  have hbounds := toInt_bounds (records.length / nrWorkers)
  generalize hw : (toInt (records.length / nrWorkers)).toNat = w at hdone hflat hrange
  have hwle : w ≤ records.length / nrWorkers := by
    have hself := hbounds.2.2
    generalize records.length / nrWorkers = share at hself hw ⊢
    omega
  have hle : nrWorkers * w ≤ records.length :=
    Nat.le_trans (Nat.mul_le_mul_left _ hwle) (Nat.mul_div_le _ _)
  -- No record ends behind sector 2^31: its last page is never requested.
  have hlimit : ∀ r ∈ records, r.offsetSecs + r.lengthSecs ≤ 2147483648 := by
    intro r hr
    by_contra hbig
    obtain ⟨req, hreq, page, hpage, hlow, hhigh⟩ :=
      last_page_mem (hplain r hr) (Nat.lt_of_not_le hbig)
    have hmem := hperm.mem_iff.mpr (List.mem_flatMap.mpr ⟨r, hr, hreq⟩)
    rw [hflat] at hmem
    obtain ⟨r', hr', hreq'⟩ := List.mem_flatMap.mp hmem
    have hcase := replayRecord_page (hdone r' hr') hreq' hpage
    omega
  -- A record of the blocks does not end there either.
  have hblocks : ∀ r ∈ records.take (nrWorkers * w), r.offsetSecs + r.lengthSecs < 2147483648 := by
    intro r hr
    refine Nat.lt_of_le_of_ne (hlimit r (List.mem_of_mem_take hr)) fun heq => ?_
    have hnone := hdone r hr
    rw [replayRecord_limit heq] at hnone
    cases hnone
  -- So each record of the blocks is replayed in full.
  have hexact : reqs = (records.take (nrWorkers * w)).flatMap recordRequests := by
    rw [hflat]
    refine List.flatMap_congr fun r hr => ?_
    rw [replayRecord_eq (hplain r (List.mem_of_mem_take hr)) (hblocks r hr), Option.getD_some]
  -- So no record is left over.
  have hrest : records.drop (nrWorkers * w) = [] := by
    refine eq_nil_of_requests (fun r hr => hplain r (List.mem_of_mem_drop hr)) ?_
    have hlen := hperm.length_eq
    have hsplit : records.flatMap recordRequests = (records.take (nrWorkers * w)).flatMap
        recordRequests ++ (records.drop (nrWorkers * w)).flatMap recordRequests := by
      rw [← List.flatMap_append, List.take_append_drop]
    rw [hexact, hsplit, List.length_append] at hlen
    omega
  have hall : nrWorkers * w = records.length := by
    rw [List.drop_eq_nil_iff] at hrest
    omega
  have htake : records.take (nrWorkers * w) = records := by rw [hall, List.take_length]
  have hdiv : records.length / nrWorkers = w := by rw [← hall, Nat.mul_div_cancel_left _ hn]
  refine ⟨⟨w, hall.symm⟩, by omega, ?_, fun r hr => hblocks r (htake.symm ▸ hr)⟩
  rcases Nat.eq_zero_or_pos w with hzero | hpos
  · rw [← hall, hzero, Nat.mul_zero]
    exact Nat.zero_le _
  · rw [← hall]
    exact hrange hn hpos

/-- The traces that are replayed in full, and counted right. -/
theorem trace_covers_iff (hn : 0 < nrWorkers) (hplain : ∀ r ∈ records, r.Plain) :
    Covers records nrWorkers ↔ ReplayCondition records nrWorkers :=
  ⟨condition_of_covers hn hplain, covers_of_condition hplain⟩

/-- A read of one page from sector `offset` on. -/
def pageRead (offset : Nat) (h : offset < 18446744073709551616) : BlktraceRecord :=
  ⟨ioTypeRead, offset, 8, h, by decide⟩

theorem pageRead_plain {offset : Nat} (h : offset < 18446744073709551616) :
    (pageRead offset h).Plain := ⟨Or.inl rfl, show 0 < 8 by decide⟩

/-- Reads and writes, two of them over several pages that they touch in part. -/
def mixedRecords : List BlktraceRecord :=
  [pageRead 0 (by decide), ⟨ioTypeWrite, 12, 20, by decide, by decide⟩,
    ⟨ioTypeRead, 100, 8, by decide, by decide⟩, ⟨ioTypeWrite, 64, 8, by decide, by decide⟩]

/-- The mixed records are plain. -/
theorem mixedRecords_plain : ∀ r ∈ mixedRecords, r.Plain := by
  have hall : ∀ r ∈ mixedRecords, (r.ioType = ioTypeRead ∨ r.ioType = ioTypeWrite) ∧
      0 < r.lengthSecs := by decide
  exact fun r hr => ⟨(hall r hr).1, (hall r hr).2⟩

/-- Two workers replay the four records in full, three workers do not. -/
theorem trace_covers_iff_mixed : Covers mixedRecords 2 ∧ ¬ Covers mixedRecords 3 := by
  constructor
  · exact (trace_covers_iff (by decide) mixedRecords_plain).mpr
      ⟨by decide, by decide, by decide, by decide⟩
  · intro h
    have hsplit := ((trace_covers_iff (by decide) mixedRecords_plain).mp h).split
    exact absurd hsplit (by decide)

/-- A page at sector 2^31 is replayed as two pages far behind the device. -/
theorem trace_covers_counterexample :
    testBlktrace [pageRead 2147483648 (by decide)] 1 =
      some [⟨dataR, some 18446744073441116160⟩, ⟨dataR, some 18446744073441116161⟩] ∧
    recordRequests (pageRead 2147483648 (by decide)) = [⟨dataR, some 268435456⟩] ∧
    ¬ Covers [pageRead 2147483648 (by decide)] 1 := by
  refine ⟨by decide +kernel, by decide +kernel, fun h => ?_⟩
  have hplain : ∀ r ∈ [pageRead 2147483648 (by decide)], r.Plain := fun r hr => by
    rw [List.mem_singleton.mp hr]
    exact pageRead_plain _
  have hsmall := (condition_of_covers (by decide) hplain h).small _ (List.mem_singleton_self _)
  exact absurd hsmall (by decide)

end AggreKV.BlockSsd
