import AggreKV.HashKv.Settings

/-! # Block manager and flash device

    The superblock and grain bookkeeping of `dftl_bm.c` and the part of
    the simulated device in `lower/ssd.c` that decides what a program or
    an erase does.

    * A page address is a `Nat`, page `p` has the grains `4 * p .. 4 * p + 3`
      and lies in superblock `p / _PPS`.
    * Tables indexed by addresses are functions; a write outside the
      superblock table aborts.
    * `none` is an abort or a dereferenced `NULL`. -/

namespace AggreKV.HashKv

/-! ## Section 1: Data -/

/-- `bm_oob_t`. -/
structure Oob where
  isTpage : Bool
  lpa : Nat
  length : Nat
  deriving DecidableEq

/-- `bm_superblock_t`; its index is its position, `gc_cnt` is a statistic. -/
structure Superblock where
  validCnt : Nat
  wpOfft : Nat
  isOwned : Bool
  streamIdx : Option Nat
  isRsv : Bool

/-- `MAP_S` and `DATA_S`. -/
inductive PartNum where
  | map
  | data
  deriving DecidableEq

/-- `bm_part_ext_t`. -/
structure Part where
  sSblk : Nat
  eSblk : Nat
  sblkRsv : Nat
  freeSblkCnt : Nat
  activeSblk : Option Nat
  rsvSblkCnt : Nat

/-- `bm_stream_manager_t`. -/
structure Stream where
  activeSblk : Option Nat
  activeSblkOffset : Nat
  activePpa : Nat
  flushPpa : Nat
  flushPage : Nat
  pageRemain : Nat
  grainRemain : Nat

/-- `bm_env_t`. -/
structure Bm where
  validBitmap : Nat → Bool
  oob : Nat → Oob
  sblk : Nat → Superblock
  mapPart : Part
  dataPart : Part
  stream : Nat → Stream

def Bm.part (bm : Bm) : PartNum → Part
  | .map => bm.mapPart
  | .data => bm.dataPart

def Bm.setPart (bm : Bm) : PartNum → Part → Bm
  | .map, p => { bm with mapPart := p }
  | .data, p => { bm with dataPart := p }

def Bm.setSblk (bm : Bm) (i : Nat) (b : Superblock) : Bm :=
  { bm with sblk := Function.update bm.sblk i b }

def Bm.setStream (bm : Bm) (i : Nat) (st : Stream) : Bm :=
  { bm with stream := Function.update bm.stream i st }

/-- `set_oob`. -/
def Bm.setOob (bm : Bm) (g : Nat) (o : Oob) : Bm :=
  { bm with oob := Function.update bm.oob g o }

/-- `SBLK_IDX` of the page of grain `g`. -/
def grainSblk (cfg : Settings) (g : Nat) : Nat := g / 4 / cfg.pps

/-- `SBLK_OFFT2PPA`. -/
def sblkOfft2Ppa (cfg : Settings) (i offt : Nat) : Nat := i * cfg.pps + offt

/-- `PPA_TO_PGA`. -/
def ppaToPga (ppa offset : Nat) : Nat := ppa * 4 + offset

/-- `n - k` on `uint32_t`. -/
def sub32 (n k : Nat) : Nat := (n + 4294967296 - k) % 4294967296

theorem sub32_of_le {n k : Nat} (h : k ≤ n) (hn : n < 4294967296) : sub32 n k = n - k := by
  unfold sub32
  rw [show n + 4294967296 - k = (n - k) + 4294967296 by omega, Nat.add_mod_right,
    Nat.mod_eq_of_lt (by omega)]

/-! ## Section 2: Validity of grains and pages -/

def validateGrain (cfg : Settings) (bm : Bm) (g : Nat) : Option Bm :=
  let i := grainSblk cfg g
  let b := { bm.sblk i with validCnt := (bm.sblk i).validCnt + 1 }
  if i < cfg.nos ∧ b.validCnt ≤ cfg.pps * 4 then
    some ({ bm with validBitmap := Function.update bm.validBitmap g true }.setSblk i b)
  else none

/-- The loops `validate_grain(g + i)`, `i < n`. -/
def validateGrains (cfg : Settings) (bm : Bm) (g : Nat) : Nat → Option Bm
  | 0 => some bm
  | n + 1 => (validateGrain cfg bm g).bind fun bm => validateGrains cfg bm (g + 1) n

def invalidateGrain (cfg : Settings) (bm : Bm) (g : Nat) : Bm :=
  let i := grainSblk cfg g
  { bm with validBitmap := Function.update bm.validBitmap g false }.setSblk i
    { bm.sblk i with validCnt := sub32 (bm.sblk i).validCnt 1 }

/-- The loops `invalidate_grain(g + i)`, `i < n`. -/
def invalidateGrains (cfg : Settings) (bm : Bm) (g : Nat) : Nat → Bm
  | 0 => bm
  | n + 1 => invalidateGrains cfg (invalidateGrain cfg bm g) (g + 1) n

/-- `dftl_isvalid_page` reads the first grain. -/
def isValidPage (bm : Bm) (ppa : Nat) : Bool := bm.validBitmap (ppa * 4)

def setPageValid (bm : Bm) (ppa : Nat) (v : Bool) : Nat → Bool :=
  fun g => if g / 4 = ppa then v else bm.validBitmap g

def validatePage (cfg : Settings) (bm : Bm) (ppa : Nat) : Bm :=
  let i := ppa / cfg.pps
  { bm with validBitmap := setPageValid bm ppa true }.setSblk i
    { bm.sblk i with validCnt := (bm.sblk i).validCnt + 4 }

def invalidatePage (cfg : Settings) (bm : Bm) (ppa : Nat) : Bm :=
  let i := ppa / cfg.pps
  { bm with validBitmap := setPageValid bm ppa false }.setSblk i
    { bm.sblk i with validCnt := sub32 (bm.sblk i).validCnt 4 }

def containsValidGrain (bm : Bm) (ppa : Nat) : Bool :=
  bm.validBitmap (ppa * 4) || bm.validBitmap (ppa * 4 + 1) ||
    bm.validBitmap (ppa * 4 + 2) || bm.validBitmap (ppa * 4 + 3)

/-! ## Section 3: Superblocks -/

def checkFull (cfg : Settings) (bm : Bm) (i : Nat) : Bool := cfg.pps ≤ (bm.sblk i).wpOfft

/-- `dftl_get_page_num`: the next page of the superblock, full or not. -/
def getPageNum (cfg : Settings) (bm : Bm) (i : Nat) : Nat × Bm :=
  (sblkOfft2Ppa cfg i (bm.sblk i).wpOfft,
    bm.setSblk i { bm.sblk i with wpOfft := (bm.sblk i).wpOfft + 1 })

/-- The first superblock of `[lo, hi]` that satisfies `p`. -/
def firstSblk (p : Nat → Bool) (lo hi : Nat) : Option Nat :=
  (List.range' lo (hi + 1 - lo)).find? p

theorem firstSblk_spec {p : Nat → Bool} {lo hi i : Nat} (h : firstSblk p lo hi = some i) :
    lo ≤ i ∧ i ≤ hi ∧ p i = true := by
  have hp := List.find?_some h
  have hmem := List.mem_range'_1.mp (List.mem_of_find?_eq_some h)
  exact ⟨hmem.1, by omega, hp⟩

theorem exists_firstSblk {p : Nat → Bool} {lo hi i : Nat} (hlo : lo ≤ i) (hhi : i ≤ hi)
    (hp : p i = true) : ∃ j, firstSblk p lo hi = some j := by
  refine Option.isSome_iff_exists.mp (List.find?_isSome.mpr ⟨i, ?_, hp⟩)
  exact List.mem_range'_1.mpr ⟨hlo, by omega⟩

/-- What the cursor search of `dftl_get_active_sblk` may return. -/
def usable (cfg : Settings) (bm : Bm) (pn : PartNum) (i : Nat) : Bool :=
  if cfg.dataSegregation ∧ pn = .data then
    !(bm.sblk i).isRsv && !checkFull cfg bm i && !(bm.sblk i).isOwned
  else
    i ≠ (bm.part pn).sblkRsv && !checkFull cfg bm i

/-- `dftl_get_active_sblk(pt_num, false)`: the next usable superblock after the
    cursor, cyclically. The cursor itself is skipped; while it is unset the
    first open superblock plays its part. -/
def getActiveSblk (cfg : Settings) (bm : Bm) (pn : PartNum) : Option (Nat × Bm) :=
  let pt := bm.part pn
  let start := pt.activeSblk <|>
    firstSblk (fun i => i ≠ pt.sblkRsv && !checkFull cfg bm i) pt.sSblk pt.eSblk
  let next := match start with
    | some a =>
      firstSblk (usable cfg bm pn) (a + 1) pt.eSblk <|>
        (List.range' pt.sSblk (a - pt.sSblk)).find? (usable cfg bm pn)
    | none => firstSblk (usable cfg bm pn) 0 pt.eSblk
  next.map fun i =>
    let free := if (bm.sblk i).wpOfft = 0 then sub32 pt.freeSblkCnt 1 else pt.freeSblkCnt
    (i, bm.setPart pn { pt with activeSblk := some i, freeSblkCnt := free })

def isGcNeeded (cfg : Settings) (bm : Bm) (pn : PartNum) : Bool :=
  if cfg.dataSegregation ∧ pn = .data then (bm.part pn).freeSblkCnt ≤ 9
  else (bm.part pn).freeSblkCnt ≤ 1

/-- The first superblock of least `valid_cnt` among the candidates. -/
def leastValid (bm : Bm) (cand : Nat → Bool) : List Nat → Option Nat :=
  List.foldl (fun target i =>
    if cand i then
      match target with
      | none => if (bm.sblk i).validCnt < 4294967295 then some i else none
      | some j => if (bm.sblk i).validCnt < (bm.sblk j).validCnt then some i else some j
    else target) none

def partSblks (pt : Part) : List Nat := List.range' pt.sSblk (pt.eSblk + 1 - pt.sSblk)

/-- A victim candidate of the first search of `dftl_get_gc_target`. -/
def sameStreamCandidate (cfg : Settings) (bm : Bm) (streamIdx i : Nat) : Bool :=
  !(bm.sblk i).isOwned && !(bm.sblk i).isRsv &&
    (bm.sblk i).streamIdx = some streamIdx && checkFull cfg bm i

/-- A victim candidate of any stream. -/
def gcCandidate (cfg : Settings) (bm : Bm) (pn : PartNum) (i : Nat) : Bool :=
  if cfg.dataSegregation ∧ pn = .data then
    !(bm.sblk i).isOwned && !(bm.sblk i).isRsv && checkFull cfg bm i
  else
    i ≠ (bm.part pn).sblkRsv && checkFull cfg bm i

def getGcTarget (cfg : Settings) (bm : Bm) (pn : PartNum) (streamIdx : Nat) : Option Nat :=
  let all := partSblks (bm.part pn)
  let target :=
    if cfg.dataSegregation ∧ pn = .data then
      leastValid bm (sameStreamCandidate cfg bm streamIdx) all <|>
        leastValid bm (gcCandidate cfg bm pn) all
    else leastValid bm (gcCandidate cfg bm pn) all
  target.filter fun i => (bm.sblk i).validCnt < (bm.sblk i).wpOfft * 4

/-- `dftl_trim_segment` without the erase: the bitmap is left alone. -/
def trimSegment (cfg : Settings) (bm : Bm) (i : Nat) : Bm :=
  { bm with
    oob := fun g => if grainSblk cfg g = i then ⟨false, 0, 0⟩ else bm.oob g }.setSblk i
    { bm.sblk i with wpOfft := 0, validCnt := 0 }

/-- `dftl_change_reserve`. -/
def changeReserve (bm : Bm) (pn : PartNum) (i : Nat) : Bm :=
  bm.setPart pn { bm.part pn with sblkRsv := i }

/-! ## Section 4: Streams -/

/-- `dftl_get_stream_sblk`: keep the active superblock of the stream, or switch
    to one of the free pool. -/
def getStreamSblk (cfg : Settings) (bm : Bm) (idx : Nat) : Option (Nat × Bm) :=
  let st := bm.stream idx
  let switch : Option (Nat × Bm) :=
    let bm := match st.activeSblk with
      | some old => bm.setSblk old { bm.sblk old with isOwned := false }
      | none => bm
    (getActiveSblk cfg bm .data).map fun (i, bm) =>
      let wp := (bm.sblk i).wpOfft
      (i, (bm.setSblk i { bm.sblk i with isOwned := true, streamIdx := some idx }).setStream idx
        { activeSblk := some i, activeSblkOffset := wp, activePpa := sblkOfft2Ppa cfg i wp,
          flushPpa := sblkOfft2Ppa cfg i wp, flushPage := 0, pageRemain := cfg.pps - wp,
          grainRemain := 0 })
  match st.activeSblk with
  | some a =>
    if checkFull cfg bm a || !(bm.sblk a).isOwned || (bm.sblk a).streamIdx ≠ some idx then switch
    else some (a, bm)
  | none => switch

/-! ## Section 5: Initial state -/

def Superblock.fresh : Superblock :=
  { validCnt := 0, wpOfft := 0, isOwned := false, streamIdx := none, isRsv := false }

/-- Phase 1 of the stream set-up: a superblock into the reserve pool. -/
def initReserve (cfg : Settings) (bm : Bm) : Option Bm :=
  (getActiveSblk cfg bm .data).map fun (i, bm) =>
    { bm.setSblk i { bm.sblk i with isOwned := false, streamIdx := none, isRsv := true } with
      dataPart := { bm.dataPart with rsvSblkCnt := bm.dataPart.rsvSblkCnt + 1 } }

/-- Phase 2 of the stream set-up: an active superblock for stream `idx`. -/
def initStream (cfg : Settings) (bm : Bm) (idx : Nat) : Option Bm :=
  (getActiveSblk cfg bm .data).map fun (i, bm) =>
    let wp := (bm.sblk i).wpOfft
    (bm.setSblk i { bm.sblk i with isOwned := true, streamIdx := some idx }).setStream idx
      { activeSblk := some i, activeSblkOffset := wp, activePpa := sblkOfft2Ppa cfg i wp,
        flushPpa := sblkOfft2Ppa cfg i wp, flushPage := 0, pageRemain := cfg.pps - wp,
        grainRemain := 0 }

def bmZero (cfg : Settings) : Bm where
  validBitmap := fun _ => false
  oob := fun _ => ⟨false, 0, 0⟩
  sblk := fun _ => .fresh
  mapPart :=
    { sSblk := 0, eSblk := cfg.nos / 20, sblkRsv := 0, freeSblkCnt := cfg.nos / 20 + 1,
      activeSblk := none, rsvSblkCnt := 0 }
  dataPart :=
    { sSblk := cfg.nos / 20 + 1, eSblk := cfg.nos - 1, sblkRsv := cfg.nos / 20 + 1,
      freeSblkCnt := cfg.nos - (cfg.nos / 20 + 1), activeSblk := none, rsvSblkCnt := 0 }
  stream := fun _ =>
    { activeSblk := none, activeSblkOffset := 0, activePpa := 0, flushPpa := 0, flushPage := 0,
      pageRemain := 0, grainRemain := 0 }

/-- `dftl_bm_init`. -/
def bmInit (cfg : Settings) : Option Bm :=
  if cfg.dataSegregation then do
    let bm ← (List.range 8).foldlM (fun bm _ => initReserve cfg bm) (bmZero cfg)
    (List.range 8).foldlM (fun bm i => initStream cfg bm i) bm
  else some (bmZero cfg)

/-! ## Section 6: The device -/

/-- `ppa_state` and `line_wp` of the simulated device; a line is a superblock. -/
structure Ssd where
  ppaState : Nat → Bool
  lineWp : Nat → Nat

/-- `ssd_write_ppa`: programs `n` pages from `ppa`. It stops with `false` at the first
    page that is already programmed or out of order in its line. -/
def ssdWrite (cfg : Settings) (ssd : Ssd) (ppa : Nat) : Nat → Ssd × Bool
  | 0 => (ssd, true)
  | n + 1 =>
    let line := ppa / cfg.pps
    if ssd.ppaState ppa || ssd.lineWp line ≠ ppa - line * cfg.pps then (ssd, false)
    else ssdWrite cfg
      { ppaState := Function.update ssd.ppaState ppa true,
        lineWp := Function.update ssd.lineWp line (ssd.lineWp line + 1) } (ppa + 1) n

/-- `ssd_trim_block` of superblock `i`. -/
def ssdTrimBlock (cfg : Settings) (ssd : Ssd) (i : Nat) : Ssd where
  ppaState := fun p => if p / cfg.pps = i then false else ssd.ppaState p
  lineWp := Function.update ssd.lineWp i 0

def Ssd.blank : Ssd := ⟨fun _ => false, fun _ => 0⟩

end AggreKV.HashKv
