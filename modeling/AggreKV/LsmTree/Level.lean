import AggreKV.Lib.BinarySearch
import AggreKV.LsmTree.Memtable
import Mathlib.Data.Rat.Floor

/-! # Levels and compaction

    `array.c`, `array_level.c`, `compaction.c` and the compaction half of
    `compaction_assistant.c`, as far as they decide which entries a level has.

    * `level_caching_data` is set for every run of every level, so a run
      carries its page; where a page lies on flash only costs time.
    * `pt_leveling` and the merge of pages are parameters of the functions
      above them, instantiated by the source's own at the end.
    * `none` is an abort, or a read of memory that was never set. -/

namespace AggreKV.LsmTree

open BinarySearch (searchLoop)

/-! ## Section 1: Data -/

/-- `run_t`. -/
structure Run where
  key : Key
  endKey : Key
  iscached : Bool
  page : Meta

/-- `level`: `n_num` is the number of runs. -/
structure Level where
  idx : Nat
  mNum : Nat
  runs : List Run

/-- The shape of the tree: `LEVELN`, `LEVELCACHING` and the size factor. -/
structure TreeParams where
  levelN : Nat
  levelCaching : Nat
  sizeFactor : ℚ

/-- `LSM.disk`. -/
abbrev Disk := Nat → Level

def Level.entries (l : Level) : List Entry := l.runs.flatMap Run.page

/-- The merge of an upper and a lower list of pages: the result pages and
    the superseded addresses. -/
abbrev Merger := List Meta → List Meta → Option (List Meta × List Nat)

/-! ## Section 2: `array.c` -/

/-- `array_init`. -/
def arrayInit (size idx : Nat) : Level := ⟨idx, size, []⟩

/-- `array_insert`. -/
def arrayInsert (lev : Level) (r : Run) : Option Level :=
  if lev.mNum ≤ lev.runs.length then none else some { lev with runs := lev.runs ++ [r] }

/-- `arrs[i]`, for the `n_num` runs that are there. -/
def runAt (arrs : List Run) (i : Int) : Option Run := if i < 0 then none else arrs[i.toNat]?

/-- Where a run lies: `.eq` when its range contains the key. -/
def runCmp (r : Run) (lpa : Key) : Ordering :=
  if keyCmp r.key lpa ≠ .gt ∧ keyCmp r.endKey lpa ≠ .lt then .eq
  else if keyCmp r.key lpa = .gt then .gt else .lt

def cmpRun (body : List Run) (lpa : Key) (i : Int) : Option Ordering :=
  (runAt body i).map fun r => runCmp r lpa

/-- `array_bound_search`; `res1` and `res2` start as 0. -/
def arrayBoundSearch (body : List Run) (lpa : Key) (islower : Bool) : Option Int :=
  (searchLoop (cmpRun body lpa) (body.length + 1) 0 (body.length - 1) none).map fun r =>
    match r with
    | .hit mid => if islower then mid else mid + 1
    | .miss _ _ (some (mid, .gt)) => mid
    | .miss _ _ (some (mid, .lt)) => if mid < body.length - 1 then mid + 1 else -1
    | .miss _ _ _ => -1

/-- `array_range_find_compaction`: everything from the bound on. -/
def arrayRangeFindCompaction (lev : Level) (s : Key) : List Run :=
  let targetIdx := (arrayBoundSearch lev.runs s true).getD (-1)
  let targetIdx := if targetIdx = -1 then 0 else targetIdx
  lev.runs.drop targetIdx.toNat

/-- `array_cache_comp_formatting`. -/
def arrayCacheCompFormatting (lev : Level) : List Run := lev.runs

/-- `array_lev_copy`, into an array of `m_num` runs. -/
def arrayLevCopy (des src : Level) : Option Level :=
  if des.mNum < src.runs.length then none else some { des with runs := src.runs }

/-- `def_full_chk`. -/
def defFullChk (par : TreeParams) (lev : Level) : Bool :=
  let t : ℚ := lev.mNum / par.sizeFactor * (par.sizeFactor - 1)
  if lev.idx < par.levelCaching then
    decide ((if lev.idx = 0 then (lev.mNum : ℤ) - 2 else ⌊t⌋) ≤ (lev.runs.length : ℤ))
  else
    decide (t ≤ lev.runs.length) ||
      decide (100 ≤ lev.mNum ∧ t * 95 / 100 ≤ lev.runs.length)

/-! ## Section 3: Runs -/

/-- The page of a memtable: `array_mem_cvt2table` and `array_skip_cvt2_data`
    write the same slots. -/
def memPage (l : Skiplist) : Meta := l.map fun n => (n.key, n.ppa)

/-- `array_mem_cvt2table` on a run whose keys have been freed: the end key is
    set by the last of at least two nodes. -/
def arrayMemCvt2table (l : Skiplist) (iscached : Bool) : Option Run :=
  match l with
  | a :: b :: rest => some ⟨a.key, ((b :: rest).getLast (by simp)).key, iscached, memPage l⟩
  | _ => none

/-- `array_skip_cvt2_data`. -/
def arraySkipCvt2Data (l : Skiplist) : Option Meta :=
  if l.all fun n => keyValCheck n.key then some (memPage l) else none

/-- `array_pipe_make_run`. -/
def arrayPipeMakeRun (par : TreeParams) (page : Meta) (levelIdx : Nat) : Option Run :=
  match page with
  | [] => none
  | e :: es =>
    some ⟨e.1, ((e :: es).getLast (by simp)).1, decide (levelIdx < par.levelCaching), page⟩

/-! ## Section 4: Compaction -/

/-- The loop of `compaction_subprocessing` over the pages of the cutter. -/
def insertPages (par : TreeParams) (des : Level) : List Meta → Option Level
  | [] => some des
  | page :: pages =>
      (arrayPipeMakeRun par page des.idx).bind fun r =>
        (arrayInsert des r).bind fun des => insertPages par des pages

/-- `compaction_subprocessing`. -/
def compactionSubprocessing (par : TreeParams) (merger : Merger) (u o : List Meta) (des : Level) :
    Option (Level × List Nat) :=
  (merger u o).bind fun (pages, inv) => (insertPages par des pages).map fun des => (des, inv)

/-- The source of a compaction: a cut memtable or a level. -/
inductive Source where
  | mem (l : Skiplist)
  | level (from_ : Level)

/-- `compaction_empty_level`. -/
def compactionEmptyLevel (par : TreeParams) (src : Source) (des : Level) : Option Level :=
  match src with
  | .mem l =>
      (arrayMemCvt2table l (decide (des.idx < par.levelCaching))).bind fun r => arrayInsert des r
  | .level upper => arrayLevCopy des upper

/-- The runs of the source level that `partial_leveling` puts into `data`. -/
def upperRuns (par : TreeParams) (upper : Level) : List Run :=
  if upper.idx < par.levelCaching then arrayCacheCompFormatting upper
  else arrayRangeFindCompaction upper keyMin

/-- `partial_leveling`: `t` is the new target, `origin` the old one. -/
def partialLeveling (par : TreeParams) (merger : Merger) (t origin : Level) (src : Source) :
    Option (Level × List Nat) :=
  let target := arrayRangeFindCompaction origin keyMin
  match src with
  | .mem l =>
      (arraySkipCvt2Data l).bind fun page =>
        compactionSubprocessing par merger [page] (target.map Run.page) t
  | .level upper =>
      let data := upperRuns par upper
      if data ≠ [] ∧ target = [] then none
      else compactionSubprocessing par merger (data.map Run.page) (target.map Run.page) t

/-- `leveling` before `level_change`: the new target level. -/
def levelingTarget (par : TreeParams) (merger : Merger) (to_ : Level) (src : Source) :
    Option (Level × List Nat) :=
  let target := arrayInit to_.mNum to_.idx
  if to_.runs.isEmpty then (compactionEmptyLevel par src target).map fun t => (t, [])
  else partialLeveling par merger target to_ src

/-- `leveling` with `level_change`; `from_` is the index of the source level. -/
def leveling (par : TreeParams) (merger : Merger) (disk : Disk) (src : Option Nat)
    (mem : Skiplist) (to_ : Nat) : Option (Disk × List Nat) :=
  let source := match src with
    | none => .mem mem
    | some i => .level (disk i)
  (levelingTarget par merger (disk to_) source).map fun (target, inv) =>
    let disk := match src with
      | none => disk
      | some i => Function.update disk i (arrayInit (disk i).mNum (disk i).idx)
    (Function.update disk to_ target, inv)

/-- `LSM.result_padding`, set by `compaction_main`. -/
def resultPadding : Nat := 500

/-- The merge the compaction uses. -/
def pipeMerger : Merger := fun u o =>
  (arrayPipeMerger resultPadding u o).map fun (rp, inv) => (arrayPipeCutter rp, inv)

end AggreKV.LsmTree
