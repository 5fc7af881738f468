import Mathlib.Data.List.Count
import Mathlib.Data.List.Nodup
import Mathlib.Data.List.Perm.Lattice
import Mathlib.Logic.Function.Basic

/-! # Lists of nodes with handles

    A table of keys and a list of nodes: a key that is in the list has a
    handle, the address of its only node.

    * `Tracks`: the handles are exactly the nodes of the list.
    * `Tracks.perm`, `Tracks.erase`, `Tracks.cons`: reordering the list,
      removing a node, adding one.
    * `Tracks.keys_perm`, `Tracks.length_eq_countP`: in a table of resident
      keys, the list holds and counts the resident ones. -/

namespace AggreKV

variable {ν κ α : Type*} {addr : ν → α} {key : ν → κ}

/-! ## Section 1: Handles -/

/-- The handles of the keys are the addresses of their nodes. -/
structure Tracks (addr : ν → α) (key : ν → κ) (nodes : List ν) (handle : κ → Option α) : Prop where
  node_iff : ∀ nd, nd ∈ nodes ↔ handle (key nd) = some (addr nd)
  exists_node : ∀ k a, handle k = some a → ∃ nd, key nd = k ∧ addr nd = a
  addrs : (nodes.map addr).Nodup

namespace Tracks

variable {nodes : List ν} {handle : κ → Option α}

/-- A handle leads to a node. -/
theorem mem (h : Tracks addr key nodes handle) {k : κ} {a : α} (hk : handle k = some a) :
    ∃ nd ∈ nodes, key nd = k ∧ addr nd = a := by
  obtain ⟨nd, rfl, rfl⟩ := h.exists_node k a hk
  exact ⟨nd, (h.node_iff nd).mpr hk, rfl, rfl⟩

theorem nodup (h : Tracks addr key nodes handle) : nodes.Nodup := List.Nodup.of_map _ h.addrs

/-- A node is determined by its key. -/
theorem key_inj (h : Tracks addr key nodes handle) {x y : ν} (hx : x ∈ nodes) (hy : y ∈ nodes)
    (hk : key x = key y) : x = y := by
  have hx' := (h.node_iff x).mp hx
  have hy' := (h.node_iff y).mp hy
  rw [hk, hy', Option.some.injEq] at hx'
  exact List.inj_on_of_nodup_map h.addrs hx hy hx'.symm

/-- Each key has one node. -/
theorem keys_nodup (h : Tracks addr key nodes handle) : (nodes.map key).Nodup :=
  List.Nodup.map_on (fun _ hx _ hy hk => h.key_inj hx hy hk) h.nodup

theorem nil : Tracks addr key [] fun _ => none where
  node_iff nd := by simp
  exists_node k a h := by cases h
  addrs := List.nodup_nil

/-- The order of the nodes does not matter. -/
theorem perm {nodes' : List ν} (h : Tracks addr key nodes handle) (hp : nodes'.Perm nodes) :
    Tracks addr key nodes' handle where
  node_iff nd := by rw [hp.mem_iff, h.node_iff]
  exists_node := h.exists_node
  addrs := (hp.map addr).nodup_iff.mpr h.addrs

/-! ## Section 2: Resident keys -/

section

variable {resident : κ → Bool}

/-- The key of a node is resident. -/
theorem resident_of_mem (h : Tracks addr key nodes handle)
    (hres : ∀ k, (handle k).isSome = resident k) {nd : ν} (hnd : nd ∈ nodes) :
    resident (key nd) = true := by
  rw [← hres, (h.node_iff nd).mp hnd]
  rfl

/-- And a resident key has its node. -/
theorem exists_mem_of_resident (h : Tracks addr key nodes handle)
    (hres : ∀ k, (handle k).isSome = resident k) {k : κ} (hk : resident k = true) :
    ∃ nd ∈ nodes, key nd = k ∧ handle k = some (addr nd) := by
  rw [← hres] at hk
  obtain ⟨a, ha⟩ := Option.isSome_iff_exists.mp hk
  obtain ⟨nd, hnd, hkey, haddr⟩ := h.mem ha
  exact ⟨nd, hnd, hkey, by rw [ha, haddr]⟩

/-- The keys of the list are the resident ones, wherever these are. -/
theorem keys_perm (h : Tracks addr key nodes handle) (hres : ∀ k, (handle k).isSome = resident k)
    {dom : List κ} (hdom : dom.Nodup) (hin : ∀ k, resident k = true → k ∈ dom) :
    (nodes.map key).Perm (dom.filter resident) := by
  refine (List.perm_ext_iff_of_nodup h.keys_nodup (hdom.filter _)).mpr fun k => ?_
  rw [List.mem_map, List.mem_filter]
  constructor
  · rintro ⟨nd, hnd, rfl⟩
    have hk := h.resident_of_mem hres hnd
    exact ⟨hin _ hk, hk⟩
  · rintro ⟨-, hk⟩
    obtain ⟨nd, hnd, hkey, -⟩ := h.exists_mem_of_resident hres hk
    exact ⟨nd, hnd, hkey⟩

/-- There are as many nodes as resident keys. -/
theorem length_eq_countP (h : Tracks addr key nodes handle)
    (hres : ∀ k, (handle k).isSome = resident k) {dom : List κ} (hdom : dom.Nodup)
    (hin : ∀ k, resident k = true → k ∈ dom) : nodes.length = dom.countP resident := by
  rw [List.countP_eq_length_filter, ← (h.keys_perm hres hdom hin).length_eq, List.length_map]

end

variable [DecidableEq κ]

/-- A key that is there has one node. -/
theorem filter_key (h : Tracks addr key nodes handle) {nd : ν} (hnd : nd ∈ nodes) :
    nodes.filter (fun x => key x = key nd) = [nd] := by
  refine List.perm_singleton.mp
    ((List.perm_ext_iff_of_nodup (h.nodup.filter _) (List.nodup_singleton _)).mpr fun x => ?_)
  rw [List.mem_filter, List.mem_singleton, decide_eq_true_eq]
  constructor
  · rintro ⟨hx, hk⟩
    exact h.key_inj hx hnd hk
  · rintro rfl
    exact ⟨hnd, rfl⟩

/-- A key that is not resident has no node. -/
theorem filter_key_eq_nil (h : Tracks addr key nodes handle) {resident : κ → Bool}
    (hres : ∀ k, (handle k).isSome = resident k) {k : κ} (hk : resident k = false) :
    nodes.filter (fun x => key x = k) = [] := by
  refine List.filter_eq_nil_iff.mpr fun nd hnd hkey => ?_
  have hr := h.resident_of_mem hres hnd
  rw [of_decide_eq_true hkey, hk] at hr
  cases hr

/-! ## Section 3: Adding and removing nodes -/

/-- Removing the node of a key with its handle. -/
theorem erase [DecidableEq ν] (h : Tracks addr key nodes handle) {nd : ν} (hnd : nd ∈ nodes) :
    Tracks addr key (nodes.erase nd) (Function.update handle (key nd) none) where
  node_iff x := by
    rw [h.nodup.mem_erase_iff, h.node_iff x]
    by_cases hk : key x = key nd
    · rw [hk, Function.update_self]
      refine iff_of_false (fun ⟨hne, hx⟩ => hne ?_) (by simp)
      rw [← hk] at hx
      exact h.key_inj ((h.node_iff x).mpr hx) hnd hk
    · rw [Function.update_of_ne hk]
      exact and_iff_right fun hx => hk (by rw [hx])
  exists_node k a hk := by
    by_cases hkn : k = key nd
    · rw [hkn, Function.update_self] at hk
      cases hk
    · rw [Function.update_of_ne hkn] at hk
      exact h.exists_node k a hk
  addrs := (List.erase_sublist.map addr).nodup h.addrs

/-- Adding a node with a new address for a key without handle. -/
theorem cons (h : Tracks addr key nodes handle) {nd : ν} (hk : handle (key nd) = none)
    (ha : addr nd ∉ nodes.map addr) (hinj : ∀ x, key x = key nd → addr x = addr nd → x = nd) :
    Tracks addr key (nd :: nodes) (Function.update handle (key nd) (some (addr nd))) where
  node_iff x := by
    rw [List.mem_cons]
    by_cases hx : key x = key nd
    · rw [hx, Function.update_self, Option.some.injEq]
      have hout : x ∉ nodes := fun hmem => by
        have hs := (h.node_iff x).mp hmem
        rw [hx, hk] at hs
        cases hs
      rw [or_iff_left hout]
      exact ⟨fun he => by rw [he], fun he => hinj x hx he.symm⟩
    · rw [Function.update_of_ne hx, ← h.node_iff x]
      exact or_iff_right fun he => hx (by rw [he])
  exists_node k a hka := by
    by_cases hkn : k = key nd
    · rw [hkn, Function.update_self, Option.some.injEq] at hka
      exact ⟨nd, hkn.symm, hka⟩
    · rw [Function.update_of_ne hkn] at hka
      exact h.exists_node k a hka
  addrs := List.nodup_cons.mpr ⟨ha, h.addrs⟩

end Tracks

end AggreKV
