import Mathlib.Algebra.GroupWithZero.Nat
import Mathlib.Logic.Function.Basic
import Mathlib.Tactic.Common

/-! # Settings, keys and the probe sequence

    The build settings of `hash_hot_cmt`, the keys and the logical slot
    of a key (`dftl_settings.h`, `dftl_types.h`, `request.c`, `get_lpa`).

    * A `Settings` value is one build: the device geometry, the cache
      sizes that `cache_env_init` computes and the build flags.
    * The macros no build changes are written as numbers:
      `GRAIN_PER_PAGE` = 4, `EPP` = 512, `MAX_HASH_COLLISION` = 1024,
      `MAX_GC_STREAM` = 8, `GRAINED_UNIT` = 1024.
    * The two hash functions are parameters: nothing below depends on
      `murmurhash`. -/

namespace AggreKV.HashKv

/-! ## Section 1: Settings -/

structure Settings where
  /-- `_PPS`, pages of a superblock. -/
  pps : Nat
  /-- `_NOS`, superblocks of the device. -/
  nos : Nat
  nrValidTpages : Nat
  maxWriteBuf : Nat
  /-- The initial value of `max_cached_tpages`. -/
  maxCachedTpages : Nat
  /-- The initial value of `max_cached_hot_tpages`. -/
  maxCachedHotTpages : Nat
  totalCacheTpages : Nat
  hotTpagesCap : Nat
  chunkTpages : Nat
  /-- `key_chunk_entries` in pages, as `adaptive_expand_key_cache` takes them
      from the cold cache. -/
  keyChunkPages : Nat
  dataSegregation : Bool
  hotCmt : Bool
  adaptiveMem : Bool
  pps_pos : 0 < pps
  nos_ge : 20 ≤ nos
  nrValidTpages_pos : 0 < nrValidTpages
  maxWriteBuf_pos : 0 < maxWriteBuf
  maxCachedTpages_pos : 0 < maxCachedTpages
  maxCachedHotTpages_pos : 0 < maxCachedHotTpages
  chunkTpages_pos : 0 < chunkTpages
  /-- Grain addresses fit `ppa_t`, below the initial value `UINT32_MAX`. -/
  grains_fit : pps * nos * 4 < 4294967295
  /-- `#error ADAPTIVE_MEM requires HOT_CMT`. -/
  adaptive_hot : adaptiveMem = true → hotCmt = true

theorem pps_shipped_pos : 0 < 65536 := by decide

theorem maxWriteBuf_shipped_pos : 0 < 256 := by decide

/-- The values of `dftl_settings.h` and `cache_env_init`; the three flags come
    from the make command line. -/
def Settings.shipped (dataSegregation hotCmt adaptiveMem : Bool)
    (h : adaptiveMem = true → hotCmt = true) : Settings where
  pps := 65536
  nos := 1177
  nrValidTpages := 699050
  maxWriteBuf := 256
  maxCachedTpages := if hotCmt then 62260 else 65536
  maxCachedHotTpages := 3277
  totalCacheTpages := 65537
  hotTpagesCap := 13107
  chunkTpages := 655
  keyChunkPages := 1040
  dataSegregation := dataSegregation
  hotCmt := hotCmt
  adaptiveMem := adaptiveMem
  pps_pos := pps_shipped_pos
  nos_ge := by decide
  nrValidTpages_pos := by decide
  maxWriteBuf_pos := maxWriteBuf_shipped_pos
  maxCachedTpages_pos := by cases hotCmt <;> decide
  maxCachedHotTpages_pos := by decide
  chunkTpages_pos := by decide
  grains_fit := by decide
  adaptive_hot := h

/-- A build with its sizes scaled down to make runs short. -/
def Settings.scaled (dataSegregation hotCmt : Bool) (pps nos nrValidTpages maxWriteBuf
    maxCachedTpages : Nat) (hpps : 0 < pps) (hnos : 20 ≤ nos) (hpages : 0 < nrValidTpages)
    (hwb : 0 < maxWriteBuf) (hcap : 0 < maxCachedTpages) (hfit : pps * nos * 4 < 4294967295) :
    Settings where
  pps := pps
  nos := nos
  nrValidTpages := nrValidTpages
  maxWriteBuf := maxWriteBuf
  maxCachedTpages := maxCachedTpages
  maxCachedHotTpages := 1
  totalCacheTpages := maxCachedTpages
  hotTpagesCap := 1
  chunkTpages := 1
  keyChunkPages := 1
  dataSegregation := dataSegregation
  hotCmt := hotCmt
  adaptiveMem := false
  pps_pos := hpps
  nos_ge := hnos
  nrValidTpages_pos := hpages
  maxWriteBuf_pos := hwb
  maxCachedTpages_pos := hcap
  maxCachedHotTpages_pos := Nat.one_pos
  chunkTpages_pos := Nat.one_pos
  grains_fit := hfit
  adaptive_hot := fun h => by cases h

/-! The sizes that the scaled builds share. -/

theorem four_pos : 0 < 4 := by decide

theorem eight_pos : 0 < 8 := by decide

theorem sixteen_pos : 0 < 16 := by decide

theorem nos_sixty : 20 ≤ 60 := by decide

theorem grains_fit_sixty : 16 * 60 * 4 < 4294967295 := by decide

/-- The number of logical slots. -/
def Settings.nrValidTentries (cfg : Settings) : Nat := cfg.nrValidTpages * 512

theorem Settings.nrValidTentries_pos (cfg : Settings) : 0 < cfg.nrValidTentries :=
  Nat.mul_pos cfg.nrValidTpages_pos (by decide)

/-! ## Section 2: Keys -/

/-- `KEYT`: a length and at most `MAXKEYSIZE` bytes. -/
structure Key where
  bytes : List UInt8
  len_le : bytes.length ≤ 128
  deriving DecidableEq

def Key.len (k : Key) : Nat := k.bytes.length

/-- `key_max`, the key of the skiplist header. -/
def keyMax : Key := ⟨List.replicate 128 255, by simp⟩

/-- `memcmp` over the common length. -/
def memcmp : List UInt8 → List UInt8 → Int
  | x :: xs, y :: ys => if x = y then memcmp xs ys else if x < y then -1 else 1
  | _, _ => 0

def keycmp (a b : Key) : Int :=
  if a.len = 0 ∧ b.len = 0 then 0
  else if a.len = 0 then -1
  else if b.len = 0 then 1
  else
    let r := memcmp a.bytes b.bytes
    if r ≠ 0 ∨ a.len = b.len then r
    else if a.len < b.len then -1 else 1

/-- Equal bytes. -/
theorem memcmp_self : ∀ xs : List UInt8, memcmp xs xs = 0
  | [] => rfl
  | x :: xs => by simp [memcmp, memcmp_self xs]

/-- And only those. -/
theorem eq_of_memcmp : ∀ {xs ys : List UInt8},
    xs.length = ys.length → memcmp xs ys = 0 → xs = ys
  | [], [], _, _ => rfl
  | x :: xs, y :: ys, hl, h => by
      by_cases hxy : x = y
      · subst hxy
        simp only [memcmp, if_true] at h
        rw [eq_of_memcmp (by simpa using hl) h]
      · simp only [memcmp, hxy, if_false] at h
        split at h <;> omega

theorem keycmp_self (a : Key) : keycmp a a = 0 := by
  by_cases ha : a.len = 0
  · simp [keycmp, ha]
  · simp [keycmp, ha, memcmp_self]

/-- The full-key check compares keys exactly. -/
theorem keycmp_eq_zero {a b : Key} : keycmp a b = 0 ↔ a = b := by
  refine ⟨fun h => ?_, fun h => h ▸ keycmp_self a⟩
  obtain ⟨xs, hx⟩ := a
  obtain ⟨ys, hy⟩ := b
  simp only [keycmp, Key.len] at h
  have hxy : xs = ys := by
    by_cases hx0 : xs.length = 0
    · by_cases hy0 : ys.length = 0
      · rw [List.eq_nil_of_length_eq_zero hx0, List.eq_nil_of_length_eq_zero hy0]
      · simp [hx0, hy0] at h
    · by_cases hy0 : ys.length = 0
      · simp [hx0, hy0] at h
      · by_cases hl : xs.length = ys.length
        · exact eq_of_memcmp hl (by simpa [hx0, hy0, hl] using h)
        · by_cases hr : memcmp xs ys = 0
          · by_cases hlt : xs.length < ys.length <;>
              simp [hx0, hy0, hl, hr, hlt] at h
          · simp [hx0, hy0, hr] at h
  subst hxy
  rfl

/-- The order of `memcmp`, and of the lengths where it ends, is that of the lists. -/
theorem memcmp_lt_iff : ∀ {xs ys : List UInt8},
    (memcmp xs ys < 0 ∨ memcmp xs ys = 0 ∧ xs.length < ys.length) ↔ xs < ys
  | [], [] => by simp [memcmp]
  | [], y :: ys => by simp [memcmp]
  | x :: xs, [] => by simp [memcmp]
  | x :: xs, y :: ys => by
      have ih : (memcmp xs ys < 0 ∨ memcmp xs ys = 0 ∧ xs.length < ys.length) ↔ xs < ys :=
        memcmp_lt_iff
      rw [List.cons_lt_cons_iff]
      by_cases hxy : x = y
      · subst hxy
        simpa [memcmp] using ih
      · by_cases hlt : x < y <;> simp [memcmp, hxy, hlt]

/-- The order of the skiplist is the lexicographic order. -/
theorem keycmp_lt_iff {a b : Key} : keycmp a b < 0 ↔ a.bytes < b.bytes := by
  rw [← memcmp_lt_iff]
  obtain ⟨xs, hx⟩ := a
  obtain ⟨ys, hy⟩ := b
  simp only [keycmp, Key.len]
  cases xs with
  | nil => cases ys <;> simp [memcmp]
  | cons x xs =>
    cases ys with
    | nil => simp [memcmp]
    | cons y ys =>
      simp only [List.length_cons, Nat.add_one_ne_zero, false_and, if_false]
      by_cases hr : memcmp (x :: xs) (y :: ys) = 0
      · by_cases hl : xs.length = ys.length
        · simp [hr, hl]
        · by_cases hlt : xs.length < ys.length <;> simp [hr, hl, hlt]
      · simp [hr]

/-- The order of keys is transitive. -/
theorem keycmp_trans {a b c : Key} (h : keycmp a b < 0) (h' : keycmp b c < 0) : keycmp a c < 0 :=
  keycmp_lt_iff.mpr (List.lt_trans (keycmp_lt_iff.mp h) (keycmp_lt_iff.mp h'))

/-- And total. -/
theorem keycmp_total {a b : Key} (h : ¬keycmp a b < 0) (hne : a ≠ b) : keycmp b a < 0 := by
  rw [keycmp_lt_iff] at h ⊢
  have hb : b.bytes ≠ a.bytes := fun he => hne (by cases a; cases b; simp_all)
  exact (List.le_iff_lt_or_eq.mp (List.not_lt.mp h)).resolve_right hb

/-! ## Section 3: Hash parameters and logical slots -/

/-- `hashing_key` and `hashing_key_fp`. -/
structure Hashing where
  hashingKey : Key → UInt32
  hashingKeyFp : Key → UInt32

/-- `hash_params`; its field `find` is never read. -/
structure HashParams where
  hash : UInt32
  keyFp : UInt32
  cnt : Nat
  deriving DecidableEq

def makeHashParams (hs : Hashing) (k : Key) : HashParams :=
  ⟨hs.hashingKey k, hs.hashingKeyFp k, 0⟩

/-- `h_params->cnt++`. -/
def HashParams.next (h : HashParams) : HashParams := { h with cnt := h.cnt + 1 }

/-- `QUADRATIC_PROBING`, in `uint32_t` arithmetic. -/
def quadraticProbing (h : UInt32) (c : Nat) : UInt32 :=
  h + .ofNat c + .ofNat c * .ofNat c

def getLpa (cfg : Settings) (h : HashParams) : Nat :=
  (quadraticProbing h.hash h.cnt).toNat % cfg.nrValidTentries

/-- The `c`-th slot of the probe sequence of `k`. -/
def probeLpa (cfg : Settings) (hs : Hashing) (k : Key) (c : Nat) : Nat :=
  getLpa cfg ⟨hs.hashingKey k, hs.hashingKeyFp k, c⟩

/-- An lpa is one of the translation entries. -/
theorem getLpa_lt (cfg : Settings) (h : HashParams) : getLpa cfg h < cfg.nrValidTentries :=
  Nat.mod_lt _ cfg.nrValidTentries_pos

/-- The parameters carry the hashes of `k`, at any probe count. -/
def HashParams.Of (hs : Hashing) (k : Key) (h : HashParams) : Prop :=
  h.hash = hs.hashingKey k ∧ h.keyFp = hs.hashingKeyFp k

/-- A hashed key has its parameters. -/
theorem makeHashParams_of (hs : Hashing) (k : Key) : (makeHashParams hs k).Of hs k :=
  ⟨rfl, rfl⟩

@[simp] theorem HashParams.next_cnt (h : HashParams) : h.next.cnt = h.cnt + 1 := rfl

theorem HashParams.Of.next {hs : Hashing} {k : Key} {h : HashParams} (hk : h.Of hs k) :
    h.next.Of hs k := hk

/-- The lpa of a walk is where the walk has come to. -/
theorem HashParams.Of.getLpa {cfg : Settings} {hs : Hashing} {k : Key} {h : HashParams}
    (hk : h.Of hs k) : getLpa cfg h = probeLpa cfg hs k h.cnt := by
  simp only [HashKv.getLpa, probeLpa, hk.1]

end AggreKV.HashKv
