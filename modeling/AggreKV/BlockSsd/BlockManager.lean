import AggreKV.BlockSsd.Settings
import AggreKV.HashKv.BlockManager

/-! # Block manager of the block SSD

    `dftl_bm.c` of `block_ssd`, for pages of one grain.

    * A page address is a `Nat` and lies in superblock `p / _PPS`.
    * The simulated device refuses programs as in the hash build; no caller
      here looks at the result, so only its state is kept.
    * `none` is an abort, a dereferenced `NULL` or an index outside its
      table. -/

namespace AggreKV.BlockSsd

open HashKv (Oob PartNum firstSblk sub32)

/-! ## Section 1: Data -/

/-- `bm_superblock_t`; its index is its position. -/
structure Superblock where
  validCnt : Nat
  wpOfft : Nat

/-- `bm_part_ext_t`. -/
structure Part where
  sSblk : Nat
  eSblk : Nat
  sblkRsv : Nat
  freeSblkCnt : Nat
  activeSblk : Option Nat

/-- `bm_env_t`. -/
structure Bm where
  validBitmap : Nat → Bool
  oob : Nat → Oob
  sblk : Nat → Superblock
  mapPart : Part
  dataPart : Part

def Bm.part (bm : Bm) : PartNum → Part
  | .map => bm.mapPart
  | .data => bm.dataPart

def Bm.setPart (bm : Bm) : PartNum → Part → Bm
  | .map, p => { bm with mapPart := p }
  | .data, p => { bm with dataPart := p }

def Bm.setSblk (bm : Bm) (i : Nat) (b : Superblock) : Bm :=
  { bm with sblk := Function.update bm.sblk i b }

/-- `set_oob`. -/
def Bm.setOob (bm : Bm) (p : Nat) (o : Oob) : Bm :=
  { bm with oob := Function.update bm.oob p o }

/-- `SBLK_OFFT2PPA`. -/
def sblkOfft2Ppa (cfg : Settings) (i offt : Nat) : Nat := i * cfg.pps + offt

/-! ## Section 2: Validity of pages -/

/-- The bit of page `p` and the counter of its superblock. -/
def Bm.setValid (cfg : Settings) (bm : Bm) (p : Nat) (v : Bool) (n : Nat) : Bm :=
  { bm with validBitmap := Function.update bm.validBitmap p v }.setSblk (p / cfg.pps)
    { bm.sblk (p / cfg.pps) with validCnt := n }

/-- `dftl_validate_grain`. -/
def validateGrain (cfg : Settings) (bm : Bm) (p : Nat) : Option Bm :=
  let n := (bm.sblk (p / cfg.pps)).validCnt + 1
  if p / cfg.pps < cfg.nos ∧ n ≤ 131072 then some (bm.setValid cfg p true n) else none

/-- `dftl_invalidate_grain` and `dftl_invalidate_page`. -/
def invalidatePage (cfg : Settings) (bm : Bm) (p : Nat) : Bm :=
  bm.setValid cfg p false (sub32 (bm.sblk (p / cfg.pps)).validCnt 1)

/-- The loops `invalidate_grain(p + i)`, `i < n`. -/
def invalidateGrains (cfg : Settings) (bm : Bm) (p : Nat) : Nat → Bm
  | 0 => bm
  | n + 1 => invalidateGrains cfg (invalidatePage cfg bm p) (p + 1) n

/-- `dftl_validate_page`. -/
def validatePage (cfg : Settings) (bm : Bm) (p : Nat) : Bm :=
  bm.setValid cfg p true ((bm.sblk (p / cfg.pps)).validCnt + 1)

/-! ## Section 3: Superblocks -/

def checkFull (cfg : Settings) (bm : Bm) (i : Nat) : Bool := cfg.pps ≤ (bm.sblk i).wpOfft

/-- `dftl_get_page_num`: the next page of the superblock, full or not. -/
def getPageNum (cfg : Settings) (bm : Bm) (i : Nat) : Nat × Bm :=
  (sblkOfft2Ppa cfg i (bm.sblk i).wpOfft,
    bm.setSblk i { bm.sblk i with wpOfft := (bm.sblk i).wpOfft + 1 })

/-- What the searches of `dftl_get_active_sblk` may return. -/
def usable (cfg : Settings) (bm : Bm) (pn : PartNum) (i : Nat) : Bool :=
  i ≠ (bm.part pn).sblkRsv && !checkFull cfg bm i

/-- `dftl_get_active_sblk(pt_num, false)`: the next usable superblock after the
    cursor, cyclically. The cursor itself is skipped; while it is unset the
    first usable superblock plays its part. -/
def getActiveSblk (cfg : Settings) (bm : Bm) (pn : PartNum) : Option (Nat × Bm) :=
  let pt := bm.part pn
  let start := pt.activeSblk <|> firstSblk (usable cfg bm pn) pt.sSblk pt.eSblk
  let next := match start with
    | some a =>
      firstSblk (usable cfg bm pn) (a + 1) pt.eSblk <|>
        (List.range' pt.sSblk (a - pt.sSblk)).find? (usable cfg bm pn)
    | none => firstSblk (usable cfg bm pn) 0 pt.eSblk
  next.map fun i =>
    let free := if (bm.sblk i).wpOfft = 0 then sub32 pt.freeSblkCnt 1 else pt.freeSblkCnt
    (i, bm.setPart pn { pt with activeSblk := some i, freeSblkCnt := free })

def isGcNeeded (bm : Bm) (pn : PartNum) : Bool := (bm.part pn).freeSblkCnt ≤ 1

/-- The first superblock of least `valid_cnt` among the candidates. -/
def leastValid (bm : Bm) (cand : Nat → Bool) : List Nat → Option Nat :=
  List.foldl (fun target i =>
    if cand i then
      match target with
      | none => if (bm.sblk i).validCnt < 4294967295 then some i else none
      | some j => if (bm.sblk i).validCnt < (bm.sblk j).validCnt then some i else some j
    else target) none

/-- A victim candidate. -/
def gcCandidate (cfg : Settings) (bm : Bm) (pn : PartNum) (i : Nat) : Bool :=
  i ≠ (bm.part pn).sblkRsv && checkFull cfg bm i

/-- `dftl_get_gc_target`. -/
def getGcTarget (cfg : Settings) (bm : Bm) (pn : PartNum) : Option Nat :=
  let pt := bm.part pn
  (leastValid bm (gcCandidate cfg bm pn) (List.range' pt.sSblk (pt.eSblk + 1 - pt.sSblk))).filter
    fun i => (bm.sblk i).validCnt < (bm.sblk i).wpOfft

/-- `dftl_trim_segment` without the erase: the bitmap is left alone. -/
def trimSegment (cfg : Settings) (bm : Bm) (i : Nat) : Bm :=
  { bm with
    oob := fun p => if p / cfg.pps = i then ⟨false, 0, 0⟩ else bm.oob p }.setSblk i ⟨0, 0⟩

/-- `dftl_change_reserve`. -/
def changeReserve (bm : Bm) (pn : PartNum) (i : Nat) : Bm :=
  bm.setPart pn { bm.part pn with sblkRsv := i }

/-- `dftl_bm_init`. -/
def bmInit (cfg : Settings) : Bm where
  validBitmap := fun _ => false
  oob := fun _ => ⟨false, 0, 0⟩
  sblk := fun _ => ⟨0, 0⟩
  mapPart :=
    { sSblk := 0, eSblk := cfg.nos / 20, sblkRsv := 0, freeSblkCnt := cfg.nos / 20 + 1,
      activeSblk := none }
  dataPart :=
    { sSblk := cfg.nos / 20 + 1, eSblk := cfg.nos - 1, sblkRsv := cfg.nos / 20 + 1,
      freeSblkCnt := cfg.nos - (cfg.nos / 20 + 1), activeSblk := none }

/-! ## Section 4: The device -/

/-- `ppa_state` and `line_wp` of the simulated device; a line is a superblock. -/
structure Ssd where
  ppaState : Nat → Bool
  lineWp : Nat → Nat

/-- `ssd_write_ppa`: programs `n` pages from `ppa`, up to the first page that is already
    programmed or out of order in its line. -/
def ssdWrite (cfg : Settings) (ssd : Ssd) (ppa : Nat) : Nat → Ssd
  | 0 => ssd
  | n + 1 =>
    let line := ppa / cfg.pps
    if ssd.ppaState ppa || ssd.lineWp line ≠ ppa - line * cfg.pps then ssd
    else ssdWrite cfg
      { ppaState := Function.update ssd.ppaState ppa true,
        lineWp := Function.update ssd.lineWp line (ssd.lineWp line + 1) } (ppa + 1) n

/-- `ssd_trim_block` of superblock `i`. -/
def ssdTrimBlock (cfg : Settings) (ssd : Ssd) (i : Nat) : Ssd where
  ppaState := fun p => if p / cfg.pps = i then false else ssd.ppaState p
  lineWp := Function.update ssd.lineWp i 0

def Ssd.blank : Ssd := ⟨fun _ => false, fun _ => 0⟩

end AggreKV.BlockSsd
