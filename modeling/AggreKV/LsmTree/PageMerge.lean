import AggreKV.LsmTree.PipeSpec
import Mathlib.Data.List.TakeWhile

/-! # The page merger as a union of sorted maps

    * `metaPages_wellFormed`: every result page fits its table and its data.
    * `pageMerge_iff`: the pages of `array_pipe_cutter` are the union of the
      two inputs exactly when no key has 255 bytes and the result array is
      large enough. -/

namespace AggreKV.LsmTree

open SortedEntries

/-! ## Section 1: Result pages -/

theorem metaPages_flatten (es : List Entry) : (metaPages es).flatten = es :=
  Greedy.pages_flatten es

theorem metaPages_wellFormed (es : List Entry) : ∀ m ∈ metaPages es, WellFormed m := by
  intro m hm
  have hpage : ∀ p ∈ metaPages es, p ≠ [] ∧
      (p.length ≤ 509 ∧ slotOffset p p.length ≤ 4096) := by
    refine Greedy.pages_forall (fun e _ => ⟨?_, ?_⟩) fun p e _ _ hp hroom => ?_
    · simp
    · have := keyLen_le e.1
      rw [slotOffset_length]
      simp [entryLen]
      omega
    · unfold pageFull at hroom
      rw [decide_eq_false_iff_not] at hroom
      rw [slotOffset_append, List.length_append, List.length_singleton]
      omega
  obtain ⟨hne, hlen, hdata⟩ := hpage m hm
  exact ⟨hne, by omega, hdata⟩

/-! ## Section 2: Merge correctness -/

/-- The pages of two inputs: not empty, valid keys, sorted and disjoint. -/
structure Pages (ms : List Meta) : Prop where
  ne_nil : ms ≠ []
  filled : ∀ m ∈ ms, m ≠ []
  valid : Valid ms.flatten
  increasing : Increasing ms.flatten

theorem pages_iff {ms : List Meta} :
    Pages ms ↔ ms ≠ [] ∧ (∀ m ∈ ms, m ≠ []) ∧ Valid ms.flatten ∧ Increasing ms.flatten :=
  ⟨fun ⟨h₁, h₂, h₃, h₄⟩ => ⟨h₁, h₂, h₃, h₄⟩, fun ⟨h₁, h₂, h₃, h₄⟩ => ⟨h₁, h₂, h₃, h₄⟩⟩

instance (ms : List Meta) : Decidable (Pages ms) := decidable_of_iff' _ pages_iff

/-- What merger and cutter are meant to produce: the union, on pages in format. -/
def MergesTo (padding : Nat) (u o : List Meta) : Prop :=
  ∃ rp inv, arrayPipeMerger padding u o = some (rp, inv) ∧
    IsUnion u.flatten o.flatten (arrayPipeCutter rp).flatten ∧
    ∀ m ∈ arrayPipeCutter rp, WellFormed m

theorem untilEnd_eq_self {l : List Entry} (h : ∀ e ∈ l, e.1.len ≠ 255) : untilEnd l = l := by
  unfold untilEnd
  rw [List.takeWhile_eq_self_iff]
  intro e he
  simpa using h e he

theorem len_of_mem_untilEnd {l : List Entry} {e : Entry} (h : e ∈ untilEnd l) :
    e.1.len ≠ 255 := by
  have := List.mem_takeWhile_imp h
  simpa using this

theorem untilEnd_sublist (l : List Entry) : (untilEnd l).Sublist l := List.takeWhile_sublist _

theorem merged_short {u o : List Meta} (hu : Pages u) (ho : Pages o) :
    ∀ e ∈ merged u o, e.1.len ≠ 255 := by
  intro e he
  rcases (union_isUnion (hu.increasing.sublist (untilEnd_sublist _))
    (ho.increasing.sublist (untilEnd_sublist _))).mem_or he with he | he
  · exact len_of_mem_untilEnd he
  · exact len_of_mem_untilEnd he

/-- What a merge produces in any case. -/
theorem arrayPipeMerger_pages {padding : Nat} {u o : List Meta} (hu : Pages u) (ho : Pages o)
    {rp : PBody} {inv : List Nat} (h : arrayPipeMerger padding u o = some (rp, inv)) :
    arrayPipeCutter rp = metaPages (merged u o) ∧
      inv = superseded (untilEnd u.flatten) (untilEnd o.flatten) ∧
      (metaPages (merged u o)).length ≤ o.length + u.length + padding := by
  have hspec := arrayPipeMerger_spec padding hu.ne_nil ho.ne_nil hu.filled ho.filled
    hu.valid ho.valid
  by_cases hroom : (metaPages (merged u o)).length ≤ o.length + u.length + padding
  · obtain ⟨rp', inv', heq, hdata, hidx, hinv⟩ := hspec.1 hroom
    rw [h] at heq
    cases heq
    refine ⟨(arrayPipeCutter_eq hidx).trans hdata, ?_, hroom⟩
    exact hinv (hu.increasing.sublist (untilEnd_sublist _))
      (ho.increasing.sublist (untilEnd_sublist _))
  · rw [hspec.2 (by omega)] at h
    cases h

/-- Merger and cutter compute the union exactly when no key is 255 bytes long
    and its pages fit the result array. -/
theorem pageMerge_iff {padding : Nat} {u o : List Meta} (hu : Pages u) (ho : Pages o) :
    MergesTo padding u o ↔
      (∀ e ∈ u.flatten ++ o.flatten, e.1.len ≠ 255) ∧
      (metaPages (union u.flatten o.flatten)).length ≤ o.length + u.length + padding := by
  constructor
  · rintro ⟨rp, inv, h, hunion, -⟩
    obtain ⟨hcut, -, hroom⟩ := arrayPipeMerger_pages hu ho h
    rw [hcut, metaPages_flatten] at hunion
    have hshort := merged_short hu ho
    -- the key of every entry of either input is in the result
    have hkeys : ∀ e ∈ u.flatten ++ o.flatten, e.1.len ≠ 255 := by
      intro e he
      rcases List.mem_append.mp he with he | he
      · exact hshort e ((hunion.mem e).mpr (.inl he))
      · by_cases hex : ∃ f ∈ u.flatten, f.1 = e.1
        · obtain ⟨f, hf, hfe⟩ := hex
          rw [← hfe]
          exact hshort f ((hunion.mem f).mpr (.inl hf))
        · refine hshort e ((hunion.mem e).mpr (.inr ⟨he, fun f hf heq => hex ⟨f, hf, heq⟩⟩))
    refine ⟨hkeys, ?_⟩
    have hu' := untilEnd_eq_self fun e he => hkeys e (List.mem_append_left _ he)
    have ho' := untilEnd_eq_self fun e he => hkeys e (List.mem_append_right _ he)
    rwa [merged, hu', ho'] at hroom
  · rintro ⟨hkeys, hroom⟩
    have hu' := untilEnd_eq_self fun e he => hkeys e (List.mem_append_left _ he)
    have ho' := untilEnd_eq_self fun e he => hkeys e (List.mem_append_right _ he)
    have hmerged : merged u o = union u.flatten o.flatten := by rw [merged, hu', ho']
    rw [← hmerged] at hroom
    obtain ⟨rp, inv, heq, hdata, hidx, -⟩ := (arrayPipeMerger_spec padding hu.ne_nil ho.ne_nil
      hu.filled ho.filled hu.valid ho.valid).1 hroom
    have hcut : arrayPipeCutter rp = metaPages (merged u o) := (arrayPipeCutter_eq hidx).trans hdata
    refine ⟨rp, inv, heq, ?_, ?_⟩
    · rw [hcut, metaPages_flatten, hmerged]
      exact union_isUnion hu.increasing ho.increasing
    · rw [hcut]
      exact metaPages_wellFormed _

/-! ## Section 3: An instance and a counterexample -/

/-- A key of `n` bytes `b`. -/
def repeatKey (n : Nat) (b : Byte) (h : n ≤ 255) : Key :=
  ⟨List.replicate n b, by rw [List.length_replicate]; exact h⟩

theorem keyValCheck_repeatKey {n : Nat} {b : Byte} (h : n + 1 ≤ 255) :
    keyValCheck (repeatKey (n + 1) b h) = decide (b.val < 128) := rfl

theorem pages_singleton {k : Key} {ppa : Nat} (h : keyValCheck k = true) :
    Pages [[(k, ppa)]] := by
  constructor <;> simp [Valid, h]

theorem shortKey_len_le : 16 ≤ 255 := by decide

/-- A key of 16 bytes, as the load generator makes them. -/
def shortKey : Key := repeatKey 16 97 shortKey_len_le

def longKey : Key := repeatKey 255 97 (Nat.le_refl _)

theorem pages_shortKey (ppa : Nat) : Pages [[(shortKey, ppa)]] :=
  pages_singleton (keyValCheck_repeatKey _)

theorem pages_longKey (ppa : Nat) : Pages [[(longKey, ppa)]] :=
  pages_singleton (keyValCheck_repeatKey _)

/-- Sixteen times the byte `b`. -/
def letterKey (b : Byte) : Key := repeatKey 16 b shortKey_len_le

/-- Pages of an upper and of a lower level, with two keys in both. -/
def upperPages : List Meta :=
  [[(letterKey 97, 21), (letterKey 99, 23)], [(letterKey 101, 25)]]

def lowerPages : List Meta :=
  [[(letterKey 97, 1), (letterKey 98, 2)],
    [(letterKey 99, 3), (letterKey 100, 4), (letterKey 102, 6)]]

/-- They are merged to their union. -/
theorem pageMerge_iff_interleaved : MergesTo 500 upperPages lowerPages :=
  (pageMerge_iff (by decide) (by decide)).mpr ⟨by decide, by decide⟩

/-- A key of 255 bytes ends its input: here the upper one, before its only entry. -/
theorem pageMerge_counterexample :
    ¬ ∀ u o, Pages u → Pages o → MergesTo 500 u o := by
  intro hall
  have hu := pages_longKey 2
  have ho := pages_shortKey 1
  obtain ⟨rp, inv, h, hunion, -⟩ := hall _ _ hu ho
  have hmem := (hunion.mem (longKey, 2)).mpr (.inl (by simp))
  rw [(arrayPipeMerger_pages hu ho h).1, metaPages_flatten] at hmem
  exact merged_short hu ho _ hmem List.length_replicate

end AggreKV.LsmTree
