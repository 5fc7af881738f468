import AggreKV.LsmTree.Key

/-! # Meta pages and the page merger

    `pipe.c`, and `array_pipe_merger`/`array_pipe_cutter` of `pipe_merger.c`.

    * A meta page is its entries in slot order; where slot `i` starts is
      `slotOffset`, the running sum that both builders write to the table.
    * `p_body` is one record for its two uses, reading a list of pages and
      writing the result pages.
    * The merger reads the pages it is given and returns the writer, with the
      addresses it hands to `invalidate_PPA`.
    * `none` is an abort, or an access outside an array. -/

namespace AggreKV.LsmTree

/-! ## Section 1: Meta pages -/

/-- A key with the address of its value. -/
abbrev Entry := Key × Nat

/-- The entries of a meta page in slot order; `bitmap[0]` is their number. -/
abbrev Meta := List Entry

def entryLen (e : Entry) : Nat := keyLen e.1

/-- `KEYBITMAP` plus the slots before slot `i`, counted from 0. -/
def slotOffset (m : Meta) (i : Nat) : Nat := 1024 + ((m.take i).map entryLen).sum

/-- The table `bitmap[0 .. n + 1]` ends before the data, the data inside the page. -/
structure WellFormed (m : Meta) : Prop where
  ne_nil : m ≠ []
  table : 2 * (m.length + 2) ≤ 1024
  data : slotOffset m m.length ≤ 4096

/-- `keyset_check`: the loop ends before the last slot. -/
def keysetCheck (m : Meta) : Bool := m.dropLast.all fun e => keyValCheck e.1

/-! ## Section 2: `p_body` -/

structure PBody where
  maxPage : Nat
  pidx : Nat
  dataPtr : List Meta
  nowPage : Option Meta
  length : Nat
  maxKey : Nat
  kidx : Nat

/-- `pbody_init`. -/
def pbodyInit (data : List Meta) (size : Nat) : PBody := ⟨size, 0, data, none, 0, 0, 0⟩

/-- `new_page_set`: a page to read, or a fresh one to write. -/
def newPageSet (p : PBody) (iswrite : Bool) : Option PBody :=
  if p.pidx < p.maxPage then
    (if iswrite then some [] else p.dataPtr[p.pidx]?).map fun page =>
      { p with nowPage := some page, kidx := 1, maxKey := page.length, length := 1024
               pidx := p.pidx + 1 }
  else none

/-- `pbody_get_next_key`; `none` inside is the marker of length `UINT8_MAX`. -/
def pbodyGetNextKey (p : PBody) : Option (Option Entry × PBody) :=
  (if p.nowPage.isNone || (decide (p.pidx < p.maxPage) && decide (p.maxKey < p.kidx)) then
      newPageSet p false
    else some p).bind fun p =>
    if p.maxPage ≤ p.pidx ∧ p.maxKey < p.kidx then some (none, p)
    else (p.nowPage.bind fun page => page[p.kidx - 1]?).map fun e =>
      (some e, { p with kidx := p.kidx + 1 })

/-- `data_ptr[pidx - 1] = now_page`. -/
def PBody.store (p : PBody) (page : Meta) : PBody :=
  { p with dataPtr := p.dataPtr.take (p.pidx - 1) ++ [page] }

/-- The copy of one entry behind the last one. -/
def PBody.put (p : PBody) (e : Entry) : PBody :=
  { p with nowPage := p.nowPage.map (· ++ [e]), kidx := p.kidx + 1
           length := p.length + entryLen e }

/-- `pbody_insert_new_key` with `flush = false`. -/
def pbodyInsertNewKey (p : PBody) (e : Entry) : Option PBody :=
  match p.nowPage with
  | none => (newPageSet p true).map fun p => p.put e
  | some page =>
      if 510 ≤ p.kidx ∨ 4096 < p.length + entryLen e then
        (newPageSet (p.store page) true).map fun p => p.put e
      else some (p.put e)

/-- `pbody_insert_new_key` with `flush = true`: its key is not read, since a
    page that is open has a key. -/
def pbodyFlush (p : PBody) : Option PBody :=
  match p.nowPage with
  | none => some p
  | some page => if 1 < p.kidx then some (p.store page) else none

/-- `pbody_get_data`. -/
def pbodyGetData (p : PBody) (init : Bool) : Option Meta × PBody :=
  let p := if init then { p with maxPage := p.pidx, pidx := 0 } else p
  if p.pidx < p.maxPage then (p.dataPtr[p.pidx]?, { p with pidx := p.pidx + 1 }) else (none, p)

/-! ## Section 3: The merger -/

/-- `key.len == UINT8_MAX`, which the loop takes for the end of an input. -/
def isEnd : Option Entry → Bool
  | none => true
  | some e => e.1.len == 255

/-- The sign of `next_pop`. -/
inductive Pop where
  | lower
  | upper
  | both
  deriving DecidableEq

structure MergeState where
  lp : PBody
  hp : PBody
  rp : PBody
  lpKey : Option Entry
  hpKey : Option Entry
  invalidated : List Nat

/-- What the loop body inserts, and which input it pops. -/
def mergeChoose (l h : Option Entry) : Option (Entry × Pop) :=
  if isEnd l then h.map fun y => (y, .upper)
  else if isEnd h then l.map fun x => (x, .lower)
  else l.bind fun x => h.bind fun y =>
    if !keyValCheck x.1 || !keyValCheck y.1 then none
    else
      match keyCmp x.1 y.1 with
      | .lt => some (x, .lower)
      | .gt => some (y, .upper)
      | .eq => some (y, .both)

theorem mergeChoose_some {x y : Entry} (hx : isEnd (some x) = false) (hy : isEnd (some y) = false)
    (hcheck : (!keyValCheck x.1 || !keyValCheck y.1) = false) :
    mergeChoose (some x) (some y) = match keyCmp x.1 y.1 with
      | .lt => some (x, .lower)
      | .gt => some (y, .upper)
      | .eq => some (y, .both) := by
  unfold mergeChoose
  rw [if_neg (by rw [hx]; decide), if_neg (by rw [hy]; decide)]
  show (if (!keyValCheck x.1 || !keyValCheck y.1) = true then none else _) = _
  exact if_neg (by rw [hcheck]; decide)

def MergeState.popLower (s : MergeState) : Option MergeState :=
  (pbodyGetNextKey s.lp).map fun (k, lp) => { s with lpKey := k, lp := lp }

def MergeState.popUpper (s : MergeState) : Option MergeState :=
  (pbodyGetNextKey s.hp).map fun (k, hp) => { s with hpKey := k, hp := hp }

/-- `invalidate_PPA(DATA, lppa)`. -/
def MergeState.invalidate (s : MergeState) : MergeState :=
  { s with invalidated := s.invalidated ++ (s.lpKey.map Prod.snd).toList }

/-- The body of the loop of `array_pipe_merger`. -/
def mergeStep (s : MergeState) : Option MergeState :=
  (mergeChoose s.lpKey s.hpKey).bind fun (e, pop) =>
    (pbodyInsertNewKey s.rp e).bind fun rp =>
      let s := { s with rp := rp }
      match pop with
      | .lower => s.popLower
      | .upper => s.popUpper
      | .both => s.invalidate.popLower.bind MergeState.popUpper

/-- The loop, while one of the inputs is not at its end. -/
def mergeLoop : Nat → MergeState → Option MergeState
  | 0, _ => none
  | n + 1, s =>
      if isEnd s.lpKey && isEnd s.hpKey then some s else (mergeStep s).bind (mergeLoop n)

/-- `array_pipe_merger` on the pages `u` of the upper and `o` of the lower
    input; one iteration consumes an entry, so the fuel suffices. -/
def arrayPipeMerger (padding : Nat) (u o : List Meta) : Option (PBody × List Nat) :=
  if u.all keysetCheck && o.all keysetCheck then do
    let (l, lp) ← pbodyGetNextKey (pbodyInit o o.length)
    let (h, hp) ← pbodyGetNextKey (pbodyInit u u.length)
    let s ← mergeLoop (u.flatten.length + o.flatten.length + 1)
      ⟨lp, hp, pbodyInit [] (o.length + u.length + padding), l, h, []⟩
    let rp ← pbodyFlush s.rp
    some (rp, s.invalidated)
  else none

/-- The pages `array_pipe_cutter` returns before `NULL`. -/
def cutterLoop : Nat → PBody → List Meta
  | 0, _ => []
  | n + 1, p =>
      match pbodyGetData p false with
      | (none, _) => []
      | (some page, p) => page :: cutterLoop n p

/-- Calls of `array_pipe_cutter` after a merge: the first one rewinds. -/
def arrayPipeCutter (rp : PBody) : List Meta :=
  match pbodyGetData rp true with
  | (none, _) => []
  | (some page, p) => page :: cutterLoop p.maxPage p

end AggreKV.LsmTree
