import AggreKV.HashKv.Settings

/-! # Settings, keys and block numbers of the block SSD

    The build of `block_ssd`: `BLOCK_SSD` and `STORE_KEY_FP` are defined,
    `DATA_SEGREGATION`, `HOT_CMT` and `UPDATE_DATA_CHECK` are not.

    * A page is one grain: `GRAIN_PER_PAGE` = 1, `GRAINED_UNIT` = 4096.
      `EPP` = 512 and `MAX_HASH_COLLISION` = 1024 are written as numbers.
    * A key is read as a decimal block number, so the logical slot of a key
      does not depend on its hash or its probe count.
    * Bytes, their comparison and the fingerprint function are those of the
      hash build. -/

namespace AggreKV.BlockSsd

/-! ## Section 1: Settings -/

structure Settings where
  /-- `_PPS`, pages of a superblock. -/
  pps : Nat
  /-- `_NOS`, superblocks of the device. -/
  nos : Nat
  nrValidTpages : Nat
  maxWriteBuf : Nat
  maxCachedTpages : Nat
  pps_pos : 0 < pps
  nos_ge : 20 ≤ nos
  nrValidTpages_pos : 0 < nrValidTpages
  maxWriteBuf_pos : 0 < maxWriteBuf
  maxCachedTpages_pos : 0 < maxCachedTpages
  /-- Page addresses fit `ppa_t`, below the initial value `UINT32_MAX`. -/
  pages_fit : pps * nos < 4294967295
  /-- Logical slots fit `lpa_t`. -/
  slots_fit : nrValidTpages * 512 ≤ 4294967296

/-- The values of `dftl_settings.h` and `cache_env_init`. -/
def Settings.shipped : Settings where
  pps := 65536
  nos := 2356
  nrValidTpages := 177493
  maxWriteBuf := 256
  maxCachedTpages := 133120
  pps_pos := HashKv.pps_shipped_pos
  nos_ge := by decide
  nrValidTpages_pos := by decide
  maxWriteBuf_pos := HashKv.maxWriteBuf_shipped_pos
  maxCachedTpages_pos := by decide
  pages_fit := by decide
  slots_fit := by decide

/-! The bounds that the builds of the test runs share. -/

theorem pages_fit_sixty : 16 * 60 < 4294967295 := by decide

theorem slots_fit_four : 4 * 512 ≤ 4294967296 := by decide

/-- The number of logical slots. -/
def Settings.nrValidTentries (cfg : Settings) : Nat := cfg.nrValidTpages * 512

/-! ## Section 2: Keys -/

/-- `KEYT` with `MAXKEYSIZE` = 32. -/
structure Key where
  bytes : List UInt8
  len_le : bytes.length ≤ 32
  deriving DecidableEq

/-- The key of a record of the hash build with the same bytes. -/
def Key.wide (k : Key) : HashKv.Key := ⟨k.bytes, Nat.le_trans k.len_le (by decide)⟩

def Key.len (k : Key) : Nat := k.bytes.length

def keycmp (a b : Key) : Int := HashKv.keycmp a.wide b.wide

theorem Key.wide_inj {a b : Key} : a.wide = b.wide ↔ a = b := by
  constructor
  · intro h
    have hb : a.bytes = b.bytes := congrArg HashKv.Key.bytes h
    cases a
    cases b
    simp_all
  · intro h
    rw [h]

theorem keycmp_eq_zero {a b : Key} : keycmp a b = 0 ↔ a = b := by
  unfold keycmp
  rw [HashKv.keycmp_eq_zero, Key.wide_inj]

/-- `key_max`, the key of the skiplist header. -/
def keyMax : Key := ⟨List.replicate 32 255, by simp⟩

/-! ## Section 3: Block numbers -/

def isSpace (b : UInt8) : Bool := b = 32 || (9 ≤ b && b ≤ 13)

def isDigit (b : UInt8) : Bool := 48 ≤ b && b ≤ 57

/-- The digits at the start of `bs`, read after a number `acc`. -/
def readDigits (acc : Nat) : List UInt8 → Nat
  | [] => acc
  | b :: bs => if isDigit b then readDigits (acc * 10 + (b.toNat - 48)) bs else acc

/-- `strtoul` in base 10: blanks, a sign, digits. `none` is `ERANGE`; a minus sign
    negates the value in `unsigned long`. -/
def strtoul (bs : List UInt8) : Option Nat :=
  match bs.dropWhile isSpace with
  | 45 :: ds =>
    if readDigits 0 ds < 2 ^ 64 then some ((2 ^ 64 - readDigits 0 ds) % 2 ^ 64) else none
  | 43 :: ds => if readDigits 0 ds < 2 ^ 64 then some (readDigits 0 ds) else none
  | ds => if readDigits 0 ds < 2 ^ 64 then some (readDigits 0 ds) else none

/-- `get_lpa`: a key that is no number of 32 bits stands for block 0. -/
def getLpa (k : Key) : Nat :=
  match strtoul k.bytes with
  | some v => if v < 2 ^ 32 then v else 0
  | none => 0

/-- The `%lu` format. -/
def decimal (n : Nat) : List UInt8 := (Nat.toDigits 10 n).map fun c => .ofNat c.toNat

/-- The key a trace uses for block `n`. -/
def IsBlockKey (k : Key) (n : Nat) : Prop := k.bytes = decimal n

instance (k : Key) (n : Nat) : Decidable (IsBlockKey k n) := inferInstanceAs (Decidable (_ = _))

/-- The digits are read from left to right. -/
theorem readDigits_append (ds : List UInt8) : ∀ {cs : List UInt8} {acc : Nat},
    (∀ b ∈ cs, isDigit b = true) → readDigits acc (cs ++ ds) = readDigits (readDigits acc cs) ds
  | [], _, _ => rfl
  | b :: cs, acc, h => by
      have hb : isDigit b = true := h b List.mem_cons_self
      have hcs : readDigits (acc * 10 + (b.toNat - 48)) (cs ++ ds) =
          readDigits (readDigits (acc * 10 + (b.toNat - 48)) cs) ds :=
        readDigits_append ds fun x hx => h x (List.mem_cons_of_mem _ hx)
      simpa only [List.cons_append, readDigits, hb, if_true] using hcs

theorem decimal_of_lt {d : Nat} (h : d < 10) : decimal d = [.ofNat (48 + d)] := by
  revert d
  decide

/-- The last digit of a number. -/
theorem decimal_append {n : Nat} (h : 10 ≤ n) :
    decimal n = decimal (n / 10) ++ [.ofNat (48 + n % 10)] := by
  have hn : n = 10 * (n / 10) + n % 10 := (Nat.div_add_mod n 10).symm
  have hlt : n % 10 < 10 := Nat.mod_lt _ (by decide)
  have hdig : Nat.toDigits 10 n = Nat.toDigits 10 (n / 10) ++ Nat.toDigits 10 (n % 10) := by
    conv_lhs => rw [hn]
    exact (Nat.toDigits_append_toDigits (by decide) (by omega) hlt).symm
  have hlast : decimal (n % 10) = [.ofNat (48 + n % 10)] := decimal_of_lt hlt
  unfold decimal at hlast ⊢
  rw [hdig, List.map_append, hlast]

theorem isDigit_ofNat {d : Nat} (h : d < 10) : isDigit (.ofNat (48 + d)) = true := by
  revert d
  decide

/-- A digit is read back. -/
theorem toNat_digit {d : Nat} (h : d < 10) : (UInt8.ofNat (48 + d)).toNat - 48 = d := by
  revert d
  decide

/-- A decimal string is read back. -/
theorem decimal_digits (n : Nat) :
    (∀ b ∈ decimal n, isDigit b = true) ∧ readDigits 0 (decimal n) = n := by
  induction n using Nat.strongRecOn with
  | _ n ih =>
    by_cases hn : n < 10
    · rw [decimal_of_lt hn]
      refine ⟨fun b hb => ?_, ?_⟩
      · rw [List.mem_singleton.mp hb]
        exact isDigit_ofNat hn
      · simp only [readDigits, isDigit_ofNat hn, toNat_digit hn, if_true]
        omega
    · obtain ⟨hall, hread⟩ := ih (n / 10) (by omega)
      have hlt : n % 10 < 10 := Nat.mod_lt _ (by decide)
      rw [decimal_append (by omega)]
      refine ⟨fun b hb => ?_, ?_⟩
      · rcases List.mem_append.mp hb with hb | hb
        · exact hall b hb
        · rw [List.mem_singleton.mp hb]
          exact isDigit_ofNat hlt
      · rw [readDigits_append _ hall, hread]
        simp only [readDigits, isDigit_ofNat hlt, toNat_digit hlt, if_true]
        omega

/-- The key of block `n` leads to slot `n`. -/
theorem IsBlockKey.getLpa {k : Key} {n : Nat} (h : IsBlockKey k n) (hn : n < 2 ^ 32) :
    getLpa k = n := by
  obtain ⟨hall, hread⟩ := decimal_digits n
  -- No digit is white space.
  have hdrop : (decimal n).dropWhile isSpace = decimal n := by
    cases hd : decimal n with
    | nil => rfl
    | cons b bs =>
      have hb : isDigit b = true := hall b (by rw [hd]; exact List.mem_cons_self)
      have hns : isSpace b = false := by
        simp only [isDigit, isSpace, Bool.and_eq_true, decide_eq_true_eq,
          UInt8.le_iff_toNat_le] at hb ⊢
        simp only [Bool.or_eq_false_iff, decide_eq_false_iff_not, Bool.and_eq_false_iff,
          ← UInt8.toNat_inj]
        have h48 : (48 : UInt8).toNat = 48 := rfl
        have h32 : (32 : UInt8).toNat = 32 := rfl
        have h13 : (13 : UInt8).toNat = 13 := rfl
        omega
      rw [List.dropWhile_cons_of_neg (by simp [hns])]
  have h32 : n < 4294967296 := hn
  have h64 : n < 18446744073709551616 := Nat.lt_trans hn (by decide)
  unfold BlockSsd.getLpa strtoul
  rw [show k.bytes = decimal n from h, hdrop]
  cases hd : decimal n with
  | nil =>
    rw [hd] at hread
    simp only [readDigits] at hread
    subst hread
    rfl
  | cons b bs =>
    have hb : isDigit b = true := hall b (by rw [hd]; exact List.mem_cons_self)
    rw [hd] at hread
    -- Nor is the first one a sign.
    have h45 : b ≠ 45 := by
      rintro rfl
      exact absurd hb (by decide)
    have h43 : b ≠ 43 := by
      rintro rfl
      exact absurd hb (by decide)
    simp [h45, h43, hread, h64, h32]

/-! ## Section 4: Hash parameters -/

/-- `hash_params`; the hash itself has no effect. -/
structure HashParams where
  keyFp : UInt32
  cnt : Nat
  deriving DecidableEq

/-- `make_hash_params`, for the fingerprint function `fp`. -/
def makeHashParams (fp : Key → UInt32) (k : Key) : HashParams := ⟨fp k, 0⟩

/-- `h_params->cnt++`. -/
def HashParams.next (h : HashParams) : HashParams := { h with cnt := h.cnt + 1 }

end AggreKV.BlockSsd
