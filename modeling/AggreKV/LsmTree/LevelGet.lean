import AggreKV.LsmTree.LevelSearch
import AggreKV.LsmTree.MetaFormat

/-! # Search through the levels

    `lsm_find_run` and the part of `lsm_get` from the `retry` label on.

    * `lsmGetSearch`: the search as the source runs it, on pages of bytes.
    * `searchEnd`: what it comes to, level by level.
    * `lsmGetSearch_iff`: when it ends at the entry of the topmost level that
      has the key, or at `NOTFOUND` if none has. -/

namespace AggreKV.LsmTree

open Buffer SortedEntries

/-! ## Section 1: `lsm_find_run` and `lsm_get` -/

/-- What `lsm_find_run` returns. -/
inductive FindCode where
  | caching
  | found
  | notFound

/-- The variables that `lsm_get` shares with `lsm_find_run`; `found` points into a page. -/
structure FindState where
  entry : Option Run
  found : Option (Buffer × Nat)
  level : Nat
  run : Nat

/-- How the search ends: with a read at an address, with `NOTFOUND`, or with a read through
    the `NULL` of `find_keyset`. -/
inductive GetEnd where
  | value (ppa : Nat)
  | notFound
  | nullEntry
  deriving DecidableEq

section Search

variable (par : TreeParams) (disk : Disk) (data : Run → Buffer) (key : Key)

/-- The loop of `lsm_find_run` from level `i` on, with `n` levels to go; `data` is
    `level_caching_data`. -/
def findRunLevels : Nat → Nat → FindState → Option (FindCode × FindState)
  | 0, _, c => some (.notFound, c)
  | n + 1, i, c =>
      (arrayFindRun (disk i) key).bind fun entries =>
        match entries with
        | none => findRunLevels n (i + 1) c
        | some entries =>
            if i < par.levelCaching then
              (arrayFindKeyset (data entries) key).bind fun find =>
                match find with
                | some addr =>
                    some (.caching, { c with found := some (data entries, addr), level := i })
                | none => findRunLevels n (i + 1) { c with run := 0 }
            else some (.found, { c with level := i, run := 0, entry := some entries })

/-- `lsm_find_run`. -/
def lsmFindRun (c : FindState) : Option (FindCode × FindState) :=
  let c := if c.run ≠ 0 then { c with level := c.level + 1 } else c
  findRunLevels par disk data key (par.levelN - c.level) c.level c

/-- `lsm_get` from `retry` on; each retry starts one level further down. -/
def lsmGetRetry : Nat → FindState → Option GetEnd
  | 0, _ => none
  | fuel + 1, c =>
      (lsmFindRun par disk data key c).bind fun (code, c) =>
        match code with
        | .caching =>
            match c.found with
            | some (page, addr) => (keysetPpa page addr).map .value
            | none => lsmGetRetry fuel { c with level := c.level + 1 }
        | .found =>
            c.entry.bind fun entry =>
              (arrayFindKeyset (data entry) key).bind fun find =>
                match find with
                | some addr => (keysetPpa (data entry) addr).map .value
                | none => some .nullEntry
        | .notFound => some .notFound

/-- The search with `level = run = 0`. -/
def lsmGetSearch : Option GetEnd :=
  lsmGetRetry par disk data key (par.levelN + 1) ⟨none, none, 0, 0⟩

end Search

/-! ## Section 2: One level -/

/-- The address stored for a key. -/
def entryOf (es : List Entry) (key : Key) : Option Nat :=
  (es.find? fun e => decide (e.1 = key)).map Prod.snd

theorem entryOf_eq_some {es : List Entry} (h : Increasing es) {key : Key} {ppa : Nat} :
    entryOf es key = some ppa ↔ (key, ppa) ∈ es := by
  unfold entryOf
  rw [Option.map_eq_some_iff]
  constructor
  · rintro ⟨e, he, rfl⟩
    have hkey : e.1 = key := by simpa using List.find?_some he
    rw [← hkey]
    exact List.mem_of_find?_eq_some he
  · intro hmem
    obtain ⟨e, he⟩ : ∃ e, es.find? (fun e => decide (e.1 = key)) = some e := by
      rw [← Option.isSome_iff_exists, List.find?_isSome]
      exact ⟨_, hmem, decide_eq_true rfl⟩
    have hkey : e.1 = key := by simpa using List.find?_some he
    exact ⟨e, he, congrArg Prod.snd (h.inj (List.mem_of_find?_eq_some he) hmem hkey)⟩

theorem entryOf_eq_none {es : List Entry} {key : Key} :
    entryOf es key = none ↔ ∀ e ∈ es, e.1 ≠ key := by
  unfold entryOf
  rw [Option.map_eq_none_iff, List.find?_eq_none]
  simp

/-- Runs sorted and disjoint, and each run's page in the bytes of the run. -/
structure LevelOk (data : Run → Buffer) (l : Level) : Prop where
  ordered : l.Ordered
  pages : ∀ r ∈ l.runs, MetaPage (data r) r.page

/-- The candidate run has the key if any run of the level has. -/
theorem FoundRun.entryOf {l : Level} (h : l.Ordered) {key : Key} {r : Run}
    (hf : FoundRun l.runs key r) : entryOf l.entries key = LsmTree.entryOf r.page key := by
  obtain ⟨hrun, hpair⟩ := ordered_iff.mp h
  have hr := hrun r hf.mem
  have hsub : ∀ e ∈ r.page, e ∈ l.entries := fun e he =>
    List.mem_flatMap.mpr ⟨r, hf.mem, he⟩
  -- An entry with the key lies in the candidate.
  have hback : ∀ e ∈ l.entries, e.1 = key → e ∈ r.page := by
    intro e he hek
    obtain ⟨r', hr', he'⟩ := List.mem_flatMap.mp he
    obtain ⟨ht', hi'⟩ := hrun r' hr'
    have hlow : r'.key ≤ key := hek ▸ ht'.key_le hi' he'
    have hhigh : key ≤ r'.endKey := hek ▸ ht'.le_endKey hi' he'
    have hle : r.key ≤ key := by
      by_contra hn
      exact absurd ((hf.first (not_le.mp hn)).2 r' hr') (not_lt.mpr hlow)
    have hmax := hf.greatest hle r' hr' hlow
    obtain ⟨i, hi, hir⟩ := List.mem_iff_getElem.mp hf.mem
    obtain ⟨j, hj, hjr⟩ := List.mem_iff_getElem.mp hr'
    have hdisjoint := List.pairwise_iff_getElem.mp hpair
    rcases Nat.lt_trichotomy i j with hij | hij | hij
    · have hlt := hdisjoint i j hi hj hij
      rw [hir, hjr] at hlt
      exact absurd ((hr.1.key_le_endKey hr.2).trans_lt hlt) (not_lt.mpr hmax)
    · have heq : r = r' := by
        rw [← hir, ← hjr]
        simp only [hij]
      rw [heq]
      exact he'
    · have hlt := hdisjoint j i hj hi hij
      rw [hir, hjr] at hlt
      exact absurd (hhigh.trans_lt hlt) (not_lt.mpr hle)
  cases hpage : LsmTree.entryOf r.page key with
  | none =>
      rw [entryOf_eq_none] at hpage ⊢
      intro e he hek
      exact hpage e (hback e he hek) hek
  | some ppa =>
      rw [entryOf_eq_some hr.2] at hpage
      rw [entryOf_eq_some h.increasing]
      exact hsub _ hpage

/-- `find_keyset` on the page of a run, and the address read through its result. -/
theorem arrayFindKeyset_run {data : Run → Buffer} {r : Run} (hp : MetaPage (data r) r.page)
    (hi : Increasing r.page) (key : Key) :
    (∃ addr ppa, arrayFindKeyset (data r) key = some (some addr) ∧
      keysetPpa (data r) addr = some ppa ∧ entryOf r.page key = some ppa) ∨
    arrayFindKeyset (data r) key = some none ∧ entryOf r.page key = none := by
  cases h : entryOf r.page key with
  | none =>
      exact Or.inr ⟨hp.arrayFindKeyset_not_mem hi (entryOf_eq_none.mp h), rfl⟩
  | some ppa =>
      obtain ⟨addr, hfind, hppa, -⟩ := hp.found hi ((entryOf_eq_some hi).mp h)
      exact Or.inl ⟨addr, ppa, hfind, hppa, rfl⟩

/-! ## Section 3: The whole search -/

section Levels

variable (par : TreeParams) (disk : Disk) (key : Key)

/-- What the search comes to, from level `i` on. -/
def searchEnd : Nat → Nat → GetEnd
  | 0, _ => .notFound
  | n + 1, i =>
      match entryOf (disk i).entries key with
      | some ppa => .value ppa
      | none =>
          if (disk i).runs = [] ∨ i < par.levelCaching then searchEnd n (i + 1) else .nullEntry

/-- The address in the topmost level that has the key. -/
def topmost : Nat → Nat → Option Nat
  | 0, _ => none
  | n + 1, i =>
      match entryOf (disk i).entries key with
      | some ppa => some ppa
      | none => topmost n (i + 1)

end Levels

variable {par : TreeParams} {disk : Disk} {data : Run → Buffer} {key : Key}

/-- What `lsm_get` makes of the result of `lsm_find_run`. -/
inductive Leads (data : Run → Buffer) (key : Key) : FindCode → FindState → GetEnd → Prop where
  | caching {c : FindState} {page : Buffer} {addr ppa : Nat} (hf : c.found = some (page, addr))
      (hp : keysetPpa page addr = some ppa) : Leads data key .caching c (.value ppa)
  | found {c : FindState} {r : Run} {addr ppa : Nat} (he : c.entry = some r)
      (hf : arrayFindKeyset (data r) key = some (some addr))
      (hp : keysetPpa (data r) addr = some ppa) : Leads data key .found c (.value ppa)
  | null {c : FindState} {r : Run} (he : c.entry = some r)
      (hf : arrayFindKeyset (data r) key = some none) : Leads data key .found c .nullEntry
  | notFound {c : FindState} : Leads data key .notFound c .notFound

theorem entryOf_empty {l : Level} (h : l.runs = []) (key : Key) : entryOf l.entries key = none := by
  unfold Level.entries
  rw [h]
  rfl

theorem findRunLevels_spec (n : Nat) : ∀ (i : Nat) (c : FindState),
    (∀ j, i ≤ j → j < i + n → LevelOk data (disk j)) →
      ∃ code c', findRunLevels par disk data key n i c = some (code, c') ∧
        Leads data key code c' (searchEnd par disk key n i) := by
  induction n with
  | zero =>
    intro i c hok
    exact ⟨.notFound, c, rfl, .notFound⟩
  | succ n ih =>
    intro i c hok
    have hrest : ∀ c, ∃ code c', findRunLevels par disk data key n (i + 1) c = some (code, c') ∧
        Leads data key code c' (searchEnd par disk key n (i + 1)) := fun c =>
      ih (i + 1) c fun j h₁ h₂ => hok j (by omega) (by omega)
    have hlev := hok i (Nat.le_refl i) (by omega)
    unfold findRunLevels searchEnd
    -- An empty level is passed over.
    by_cases hempty : (disk i).runs = []
    · have hnull : arrayFindRun (disk i) key = some none := by
        unfold arrayFindRun
        rw [hempty]
        rfl
      rw [hnull, Option.bind_some, entryOf_empty hempty]
      dsimp only
      rw [if_pos (Or.inl hempty)]
      exact hrest c
    -- Of a level with runs the search picks the one run that may hold the key.
    · obtain ⟨r, hr, hfound⟩ := arrayFindRun_spec hlev.ordered.runOrder hempty key
      have hpage := hlev.pages r hfound.mem
      have hinc := ((ordered_iff.mp hlev.ordered).1 r hfound.mem).2
      rw [hr, Option.bind_some, hfound.entryOf hlev.ordered]
      dsimp only
      rcases arrayFindKeyset_run hpage hinc key with ⟨addr, ppa, hfind, hppa, he⟩ | ⟨hfind, he⟩
      · rw [he, hfind]
        by_cases hc : i < par.levelCaching
        · rw [if_pos hc]
          exact ⟨_, _, rfl, .caching rfl hppa⟩
        · rw [if_neg hc]
          exact ⟨_, _, rfl, .found rfl hfind hppa⟩
      · rw [he, hfind]
        by_cases hc : i < par.levelCaching
        · rw [if_pos hc, if_pos (Or.inr hc)]
          exact hrest { c with run := 0 }
        · -- Not cached: the candidate is taken, whether it has the key or not.
          rw [if_neg hc, if_neg (not_or.mpr ⟨hempty, hc⟩)]
          exact ⟨_, _, rfl, .null rfl hfind⟩

/-- The search over bytes comes to what the levels say; it never retries. -/
theorem lsmGetSearch_eq (hok : ∀ i < par.levelN, LevelOk data (disk i)) :
    lsmGetSearch par disk data key = some (searchEnd par disk key par.levelN 0) := by
  obtain ⟨code, c, hfind, hleads⟩ := @findRunLevels_spec par disk data key par.levelN 0
    ⟨none, none, 0, 0⟩ (fun j _ hj => hok j (by omega))
  have hrun : lsmFindRun par disk data key ⟨none, none, 0, 0⟩ = some (code, c) := hfind
  unfold lsmGetSearch lsmGetRetry
  rw [hrun, Option.bind_some]
  generalize searchEnd par disk key par.levelN 0 = final at hleads ⊢
  -- The second part of the search reads only what the first one left in the parameters.
  cases hleads with
  | caching hf hp =>
      dsimp only
      rw [hf]
      dsimp only
      rw [hp, Option.map_some]
  | found he hf hp =>
      dsimp only
      rw [he, Option.bind_some, hf, Option.bind_some]
      dsimp only
      rw [hp, Option.map_some]
  | null he hf =>
      dsimp only
      rw [he, Option.bind_some, hf, Option.bind_some]
  | notFound => rfl

/-! ## Section 4: When it is right -/

/-- The address of the topmost level that has the key, or `NOTFOUND`. -/
def topmostEnd : Option Nat → GetEnd
  | some ppa => .value ppa
  | none => .notFound

/-- The search ends as it is meant to. -/
def SearchRight (par : TreeParams) (disk : Disk) (data : Run → Buffer) (key : Key) : Prop :=
  lsmGetSearch par disk data key = some (topmostEnd (topmost disk key par.levelN 0))

def HasKey (l : Level) (key : Key) : Prop := ∃ e ∈ l.entries, e.1 = key

/-- From level `i` on: the first level with runs that is not cached has the key, or a cached
    level has it. -/
def SearchFrom (par : TreeParams) (disk : Disk) (key : Key) (i stop : Nat) : Prop :=
  ∀ k, i ≤ k → k < stop → par.levelCaching ≤ k → (disk k).runs ≠ [] →
    (∀ j, i ≤ j → j < k → par.levelCaching ≤ j → (disk j).runs = []) →
    HasKey (disk k) key ∨ ∃ j, i ≤ j ∧ j < stop ∧ j < par.levelCaching ∧ HasKey (disk j) key

/-- The condition for all levels. -/
def SearchCondition (par : TreeParams) (disk : Disk) (key : Key) : Prop :=
  SearchFrom par disk key 0 par.levelN

theorem entryOf_none_iff {l : Level} : entryOf l.entries key = none ↔ ¬ HasKey l key := by
  rw [entryOf_eq_none]
  exact ⟨fun h hc => hc.elim fun e he => h e he.1 he.2, fun h e he hek => h ⟨e, he, hek⟩⟩

theorem not_hasKey_of_empty {l : Level} (h : l.runs = []) : ¬ HasKey l key :=
  entryOf_none_iff.mp (entryOf_empty h key)

/-- A level the search falls through does not matter for the condition. -/
theorem searchFrom_succ {i stop : Nat} (hn : ¬ HasKey (disk i) key)
    (hthrough : (disk i).runs = [] ∨ i < par.levelCaching) :
    SearchFrom par disk key i stop ↔ SearchFrom par disk key (i + 1) stop := by
  constructor
  · intro h k hk hks hck hruns hbefore
    have hall : ∀ j, i ≤ j → j < k → par.levelCaching ≤ j → (disk j).runs = [] := by
      intro j hij hjk hcj
      rcases Nat.lt_or_eq_of_le hij with hlt | rfl
      · exact hbefore j hlt hjk hcj
      · exact hthrough.resolve_right (not_lt.mpr hcj)
    rcases h k (by omega) hks hck hruns hall with hkey | ⟨j, hij, hjs, hjc, hkey⟩
    · exact Or.inl hkey
    · rcases Nat.lt_or_eq_of_le hij with hlt | rfl
      · exact Or.inr ⟨j, hlt, hjs, hjc, hkey⟩
      · exact absurd hkey hn
  · intro h k hk hks hck hruns hbefore
    rcases Nat.lt_or_eq_of_le hk with hlt | rfl
    · rcases h k hlt hks hck hruns (fun j hij => hbefore j (by omega)) with hkey | ⟨j, hij, hrest⟩
      · exact Or.inl hkey
      · exact Or.inr ⟨j, by omega, hrest⟩
    · exact absurd hruns (not_not.mpr (hthrough.resolve_right (not_lt.mpr hck)))

theorem searchEnd_iff (n : Nat) : ∀ i,
    searchEnd par disk key n i = topmostEnd (topmost disk key n i) ↔
      SearchFrom par disk key i (i + n) := by
  induction n with
  | zero =>
    intro i
    constructor
    · intro _ k hk hks
      omega
    · intro _
      rfl
  | succ n ih =>
    intro i
    unfold searchEnd topmost
    have hstop : i + (n + 1) = i + 1 + n := by omega
    cases he : entryOf (disk i).entries key with
    | some ppa =>
        have hkey : HasKey (disk i) key := by
          by_contra hn
          rw [entryOf_none_iff.mpr hn] at he
          cases he
        have hne : (disk i).runs ≠ [] := fun hnil => not_hasKey_of_empty hnil hkey
        dsimp only
        refine ⟨fun _ k hk hks hck hruns hbefore => ?_, fun _ => rfl⟩
        -- The key is here: the right answer either way.
        by_cases hc : i < par.levelCaching
        · exact Or.inr ⟨i, Nat.le_refl i, by omega, hc, hkey⟩
        · rcases Nat.lt_or_eq_of_le hk with hlt | rfl
          · exact absurd (hbefore i (Nat.le_refl i) hlt (not_lt.mp hc)) hne
          · exact Or.inl hkey
    | none =>
        have hn := entryOf_none_iff.mp he
        dsimp only
        -- The key is not here: an uncached level with runs ends the search all the same.
        by_cases hthrough : (disk i).runs = [] ∨ i < par.levelCaching
        · rw [if_pos hthrough, ih (i + 1), searchFrom_succ hn hthrough, hstop]
        · rw [if_neg hthrough]
          obtain ⟨hruns, hc⟩ := not_or.mp hthrough
          constructor
          · intro heq
            cases htop : topmost disk key n (i + 1) with
            | none =>
                rw [htop] at heq
                cases heq
            | some ppa =>
                rw [htop] at heq
                cases heq
          · intro h
            rcases h i (Nat.le_refl i) (by omega) (not_lt.mp hc) hruns (fun j h₁ h₂ => by omega)
              with hkey | ⟨j, hij, -, hjc, -⟩
            · exact absurd hkey hn
            · exact absurd (Nat.lt_of_le_of_lt hij hjc) hc

/-- When the search ends at the topmost entry of the key. -/
theorem lsmGetSearch_iff (hok : ∀ i < par.levelN, LevelOk data (disk i)) (key : Key) :
    SearchRight par disk data key ↔ SearchCondition par disk key := by
  unfold SearchRight SearchCondition
  rw [lsmGetSearch_eq hok, Option.some.injEq, searchEnd_iff, Nat.zero_add]

/-! ## Section 5: A level that is not cached -/

/-- Level 0 is cached; level 1 has the keys `c` to `k` in three runs, level 2 an older `d` and
    an `f`. -/
def letterTree : TreeParams := ⟨3, 1, 14⟩

def letterLevels : Disk
  | 0 => ⟨0, 15, [⟨letterKey 97, letterKey 100, true, [(letterKey 97, 21), (letterKey 100, 24)]⟩,
      ⟨letterKey 104, letterKey 106, true, [(letterKey 104, 28), (letterKey 106, 30)]⟩]⟩
  | 1 => ⟨1, 198, letterRuns⟩
  | 2 => ⟨2, 2745, [⟨letterKey 98, letterKey 100, false, [(letterKey 98, 42), (letterKey 100, 44)]⟩,
      ⟨letterKey 102, letterKey 109, false, [(letterKey 102, 46), (letterKey 109, 53)]⟩]⟩
  | i => arrayInit 0 i

def letterPages (r : Run) : Buffer := pageBytes r.page

theorem letterLevels_ok : ∀ i < letterTree.levelN, LevelOk letterPages (letterLevels i) := by
  have hordered : ∀ i < 3, (letterLevels i).Ordered := by decide
  have hfits : ∀ i < 3, ∀ r ∈ (letterLevels i).runs, r.page.length ≤ 510 ∧
      slotOffset r.page r.page.length ≤ 4096 ∧ ∀ e ∈ r.page, e.2 < 4294967296 := by decide
  intro i hi
  refine ⟨hordered i hi, fun r hr => ?_⟩
  obtain ⟨htable, hdata, hppa⟩ := hfits i hi r hr
  exact metaPage_pageBytes ⟨htable, hdata⟩ hppa

/-- `d` is found in the cached level and `g` in the one below it, while the search for the `f`
    of the last level reads through `NULL`. -/
theorem lsmGetSearch_iff_letters :
    (∀ i < letterTree.levelN, LevelOk letterPages (letterLevels i)) ∧
    SearchRight letterTree letterLevels letterPages (letterKey 100) ∧
    SearchRight letterTree letterLevels letterPages (letterKey 103) ∧
    ¬ SearchRight letterTree letterLevels letterPages (letterKey 102) := by
  refine ⟨letterLevels_ok, ?_, ?_, ?_⟩
  · refine (lsmGetSearch_iff letterLevels_ok _).mpr fun k _ _ _ _ _ => Or.inr ⟨0, ?_⟩
    unfold HasKey
    decide
  · refine (lsmGetSearch_iff letterLevels_ok _).mpr fun k _ hk hc _ hbefore => ?_
    -- Level 1 is the first that is not cached, and has runs.
    rcases Nat.lt_or_eq_of_le hc with hlt | rfl
    · exact absurd (hbefore 1 (Nat.zero_le _) hlt (Nat.le_refl _)) (List.cons_ne_nil _ _)
    · left
      unfold HasKey
      decide
  · intro h
    have hcond := (lsmGetSearch_iff letterLevels_ok _).mp h 1 (Nat.zero_le _) (by decide)
      (Nat.le_refl _) (List.cons_ne_nil _ _) fun j _ hj hc => absurd hj (not_lt.mpr hc)
    have hno : ∀ i < 2, ¬ HasKey (letterLevels i) (letterKey 102) := by
      unfold HasKey
      decide
    rcases hcond with hkey | ⟨j, -, -, hj, hkey⟩
    · exact hno 1 (by decide) hkey
    · exact hno j (Nat.lt_trans hj (by decide)) hkey

/-- A level with one run of one entry. -/
def singleLevel (k : Key) (ppa : Nat) : Level := ⟨0, 1, [⟨k, k, false, [(k, ppa)]⟩]⟩

def otherKey : Key := repeatKey 16 98 shortKey_len_le

/-- A key above the only entry: the entry's run is the candidate, and `find->ppa` is read
    through `NULL`. -/
theorem lsmGetSearch_counterexample : ∃ p,
    (∀ i < 1, LevelOk (fun _ => p) (singleLevel shortKey 2)) ∧
    lsmGetSearch ⟨1, 0, 10⟩ (fun _ => singleLevel shortKey 2) (fun _ => p) otherKey =
      some .nullEntry ∧
    ¬ SearchRight ⟨1, 0, 10⟩ (fun _ => singleLevel shortKey 2) (fun _ => p) otherKey := by
  have hp : MetaPage (pageBytes [(shortKey, 2)]) [(shortKey, 2)] :=
    metaPage_pageBytes ⟨by decide, by decide⟩ (by decide)
  have hok : LevelOk (fun _ => pageBytes [(shortKey, 2)]) (singleLevel shortKey 2) := by
    refine ⟨by decide, fun r hr => ?_⟩
    rw [List.mem_singleton.mp hr]
    exact hp
  have hend : lsmGetSearch ⟨1, 0, 10⟩ (fun _ => singleLevel shortKey 2)
      (fun _ => pageBytes [(shortKey, 2)]) otherKey = some .nullEntry := by
    rw [lsmGetSearch_eq fun _ _ => hok]
    exact congrArg some (by decide)
  refine ⟨_, fun _ _ => hok, hend, ?_⟩
  unfold SearchRight
  rw [hend, Option.some.injEq]
  decide

end AggreKV.LsmTree
