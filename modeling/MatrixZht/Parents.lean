import Mathlib.Data.List.Sort
import MatrixZht.Dag

namespace MatrixZht
open Lib

/-- `push_back` on what `find` gives; `none` is the end of the map. -/
def pushParent (dagParentList : AdjList) (child index : Int) : Option AdjList :=
  dagParentList[child]?.map fun parents => dagParentList.insert child (parents ++ [index])

def genDagParents (dagAdjList : AdjList) : Option AdjList :=
  let dagParentList := insertAll ((List.range dagAdjList.size).map fun i : Nat => ((i : Int), []))
  dagAdjList.foldlM
    (fun m index existList => existList.foldlM (fun m child => pushParent m child index) m)
    dagParentList

section Push

variable {m : AdjList} {index : Int}

theorem pushParent_spec {child : Int} (h : child ∈ m) : ∃ m', pushParent m child index = some m' ∧
    ∀ k : Int,
      m'[k]? = m[k]?.map fun parents => if child = k then parents ++ [index] else parents := by
  obtain ⟨parents, hp⟩ := Option.isSome_iff_exists.1 (Std.TreeMap.isSome_getElem?_iff_mem.2 h)
  refine ⟨_, by rw [pushParent, hp, Option.map_some], fun k => ?_⟩
  rw [Std.TreeMap.getElem?_insert]
  by_cases hk : child = k
  · subst hk
    simp [hp]
  · simp [hk]

theorem mem_of_getElem?_eq_map {m' : AdjList} {f : Int → List Int → List Int}
    (hget : ∀ k : Int, m'[k]? = m[k]?.map (f k)) {k : Int} (hk : k ∈ m) : k ∈ m' := by
  rw [← Std.TreeMap.isSome_getElem?_iff_mem, hget, Option.isSome_map]
  exact Std.TreeMap.isSome_getElem?_iff_mem.2 hk

theorem pushParents_spec {existList : List Int} (h : ∀ child ∈ existList, child ∈ m) :
    ∃ m', existList.foldlM (fun m child => pushParent m child index) m = some m' ∧
      ∀ k : Int, m'[k]? =
        m[k]?.map fun parents => parents ++ List.replicate (existList.count k) index := by
  induction existList generalizing m with
  | nil => exact ⟨m, rfl, by simp⟩
  | cons child existList ih =>
    obtain ⟨hchild, hrest⟩ := List.forall_mem_cons.1 h
    obtain ⟨m₁, hpush, hget₁⟩ := @pushParent_spec m index child hchild
    have hmem : ∀ child' ∈ existList, child' ∈ m₁ := fun child' hc =>
      mem_of_getElem?_eq_map hget₁ (hrest child' hc)
    obtain ⟨m', hfold, hget⟩ := ih hmem
    refine ⟨m', by rw [List.foldlM_cons, hpush]; exact hfold, fun k => ?_⟩
    rw [hget, hget₁, Option.map_map]
    congr 1
    funext parents
    by_cases hk : child = k
    · subst hk
      simp [List.replicate_succ]
    · simp [hk]

theorem pushAll_spec {entries : List (Int × List Int)}
    (h : ∀ p ∈ entries, ∀ child ∈ p.2, child ∈ m) :
    ∃ m', entries.foldlM (fun m p => p.2.foldlM (fun m child => pushParent m child p.1) m) m =
        some m' ∧
      ∀ k : Int, m'[k]? = m[k]?.map fun parents =>
        parents ++ entries.flatMap fun p => List.replicate (p.2.count k) p.1 := by
  induction entries generalizing m with
  | nil => exact ⟨m, rfl, by simp⟩
  | cons p entries ih =>
    obtain ⟨hp, hrest⟩ := List.forall_mem_cons.1 h
    obtain ⟨m₁, hpush, hget₁⟩ := @pushParents_spec m p.1 p.2 hp
    have hmem : ∀ p' ∈ entries, ∀ child ∈ p'.2, child ∈ m₁ := fun p' hp' child hc =>
      mem_of_getElem?_eq_map hget₁ (hrest p' hp' child hc)
    obtain ⟨m', hfold, hget⟩ := ih hmem
    refine ⟨m', by rw [List.foldlM_cons, hpush]; exact hfold, fun k => ?_⟩
    rw [hget, hget₁, Option.map_map]
    congr 1
    funext parents
    simp

end Push

section Indegree

variable {k : Int} {m : InDegree}

theorem mem_foldl_incr (existList : List Int) (m : InDegree) :
    k ∈ existList.foldl (fun m next => m.insert next (m.getD next 0 + 1)) m ↔
      k ∈ m ∨ k ∈ existList := by
  induction existList generalizing m with
  | nil => simp
  | cons next existList ih =>
    rw [List.foldl_cons, ih, Std.TreeMap.mem_insert, List.mem_cons, compare_eq_iff_eq]
    grind

theorem mem_foldl_lists (entries : List (Int × List Int)) (m : InDegree) :
    k ∈ entries.foldl (fun m p =>
        p.2.foldl (fun m next => m.insert next (m.getD next 0 + 1)) m) m ↔
      k ∈ m ∨ ∃ p ∈ entries, k ∈ p.2 := by
  induction entries generalizing m with
  | nil => simp
  | cons p entries ih =>
    rw [List.foldl_cons, ih, mem_foldl_incr, List.exists_mem_cons_iff, or_assoc]

theorem mem_foldl_zero (is : List Nat) (m : InDegree) :
    k ∈ is.foldl (fun m (i : Nat) => m.insert (i : Int) 0) m ↔ k ∈ m ∨ ∃ i ∈ is, k = (i : Nat) := by
  induction is generalizing m with
  | nil => simp
  | cons i is ih =>
    rw [List.foldl_cons, ih, Std.TreeMap.mem_insert, List.exists_mem_cons_iff, compare_eq_iff_eq]
    grind

end Indegree

section Numbered

variable {β : Type} {n : Nat}

theorem keys_eq_range {m : Std.TreeMap Int β} (h : ∀ k, k ∈ m ↔ ∃ i < n, k = (i : Nat)) :
    m.keys = (List.range n).map fun i : Nat => (i : Int) := by
  have hkeys : m.keys.Pairwise (· < ·) :=
    Std.TreeMap.ordered_keys.imp Std.compare_eq_lt.1
  have hrange : ((List.range n).map fun i : Nat => (i : Int)).Pairwise (· < ·) := by
    rw [List.pairwise_map]
    exact List.pairwise_lt_range.imp fun hlt => by omega
  have hperm : m.keys.Perm ((List.range n).map fun i : Nat => (i : Int)) := by
    refine (List.perm_ext_iff_of_nodup (hkeys.imp ne_of_lt) (hrange.imp ne_of_lt)).2 fun k => ?_
    rw [Std.TreeMap.mem_keys, h, List.mem_map]
    constructor
    · rintro ⟨i, hi, rfl⟩
      exact ⟨i, List.mem_range.2 hi, rfl⟩
    · rintro ⟨i, hi, rfl⟩
      exact ⟨i, List.mem_range.1 hi, rfl⟩
  exact hperm.eq_of_pairwise (fun a b _ _ hab hba => absurd hba (not_lt.2 hab.le)) hkeys hrange

variable {adj : AdjList}

theorem size_eq (h : ∀ k, k ∈ adj ↔ ∃ i < n, k = (i : Nat)) : adj.size = n := by
  rw [← Std.TreeMap.length_keys, keys_eq_range h, List.length_map, List.length_range]

theorem parents_eq (h : ∀ k, k ∈ adj ↔ ∃ i < n, k = (i : Nat)) (k : Int) : adj.parents k =
    ((List.range n).filter fun i : Nat => k ∈ adj.children i).map fun i : Nat => (i : Int) := by
  rw [AdjList.parents, keys_eq_range h, List.filter_map]
  rfl

theorem flatMap_replicate_count (hok : adj.Ok) (k : Int) {entries : List (Int × List Int)}
    (h : ∀ p ∈ entries, p ∈ adj.toList) :
    (entries.flatMap fun p => List.replicate (p.2.count k) p.1) =
      (entries.map (·.1)).filter fun p => k ∈ adj.children p := by
  induction entries with
  | nil => rfl
  | cons p entries ih =>
    obtain ⟨hp, hrest⟩ := List.forall_mem_cons.1 h
    rw [List.flatMap_cons, ih hrest, List.map_cons, List.filter_cons,
      ← AdjList.children_of_mem_toList hp, hok.count_children]
    by_cases hk : k ∈ adj.children p.1
    · simp [hk]
    · simp [hk]

/-- Every task of the graph gets the list of its parents. -/
theorem genDagParents_spec (hok : adj.Ok) (h : ∀ k, k ∈ adj ↔ ∃ i < n, k = (i : Nat)) :
    ∃ par, genDagParents adj = some par ∧
      ∀ k, par[k]? = if k ∈ adj then some (adj.parents k) else none := by
  set pairs := (List.range adj.size).map fun i : Nat => ((i : Int), ([] : List Int)) with hpairs
  have hmem (k : Int) : k ∈ insertAll pairs ↔ k ∈ adj := by
    rw [mem_insertAll, h, hpairs, size_eq h]
    simp [eq_comm]
  have hget (k : Int) : (insertAll pairs)[k]? = if k ∈ adj then some [] else none := by
    split
    · next hk =>
      obtain ⟨l, hl⟩ := Option.isSome_iff_exists.1
        (Std.TreeMap.isSome_getElem?_iff_mem.2 ((hmem k).2 hk))
      have hin := mem_of_lookup_eq_some (getElem?_insertAll.symm.trans hl)
      obtain ⟨i, _, hi⟩ := List.mem_map.1 hin
      rw [hl, ← (Prod.mk.inj hi).2]
    · next hk => exact Std.TreeMap.getElem?_eq_none (mt (hmem k).1 hk)
  have hchild : ∀ p ∈ adj.toList, ∀ child ∈ p.2, child ∈ insertAll pairs := by
    intro p hp child hc
    rw [← AdjList.children_of_mem_toList hp] at hc
    exact (hmem child).2 (hok.mem _ _ hc)
  obtain ⟨par, hpar, hspec⟩ := pushAll_spec hchild
  refine ⟨par, ?_, fun k => ?_⟩
  · rw [genDagParents, Std.TreeMap.foldlM_eq_foldlM_toList]
    exact hpar
  · rw [hspec, hget, flatMap_replicate_count hok k fun p hp => hp,
      Std.TreeMap.map_fst_toList_eq_keys]
    split
    · rfl
    · rfl

theorem mem_genDagIndegree (hok : adj.Ok) (h : ∀ k, k ∈ adj ↔ ∃ i < n, k = (i : Nat)) (k : Int) :
    k ∈ genDagIndegree adj ↔ k ∈ adj := by
  rw [genDagIndegree, Std.TreeMap.foldl_eq_foldl_toList, mem_foldl_lists, mem_foldl_zero, size_eq h]
  have hempty : ¬ k ∈ (∅ : InDegree) := by simp
  simp only [hempty, false_or, List.mem_range]
  rw [← h]
  constructor
  · rintro (hk | ⟨p, hp, hk⟩)
    · exact hk
    · rw [← AdjList.children_of_mem_toList hp] at hk
      exact hok.mem _ _ hk
  · exact .inl

theorem getElem?_genDagIndegree (hok : adj.Ok) (h : ∀ k, k ∈ adj ↔ ∃ i < n, k = (i : Nat)) {k : Int}
    (hk : k ∈ adj) : (genDagIndegree adj)[k]? = some ((adj.parents k).length : Int) := by
  obtain ⟨v, hv⟩ := Option.isSome_iff_exists.1
    (Std.TreeMap.isSome_getElem?_iff_mem.2 ((mem_genDagIndegree hok h k).2 hk))
  have hget := getD_genDagIndegree hok k
  rw [Std.TreeMap.getD_eq_getD_getElem?, hv, Option.getD_some] at hget
  rw [hv, hget]

end Numbered

theorem exists_genDagAdjlist (dagType : DagType) {dagArg n : Nat} (hd : 1 ≤ dagArg)
    (hfit : (n + 1) * dagArg < 2 ^ 63) : ∃ adj, genDagAdjlist dagType dagArg n = some adj := by
  have hfits : fanoutFits dagArg n = true := by
    have hle : (n - 1) * dagArg ≤ n * dagArg := Nat.mul_le_mul_right _ (Nat.sub_le n 1)
    rw [Nat.succ_mul] at hfit
    simp only [fanoutFits, decide_eq_true_eq]
    omega
  cases dagType with
  | bot => exact ⟨_, rfl⟩
  | fanOut => exact ⟨_, if_pos hfits⟩
  | fanIn => exact ⟨_, if_pos hfits⟩
  | pipeline => exact ⟨_, if_neg (by omega)⟩

/-- The numbers from zero on, as the keys of a map. -/
def taskKeys (n : Nat) : List Int := (List.range n).map fun i : Nat => (i : Int)

/-- The tasks that have `j` as a child. -/
def parentIds (adj : AdjList) (n : Nat) (j : Int) : List Nat :=
  (List.range n).filter fun i : Nat => j ∈ adj.children i

/-- A generated graph is well formed, with its in-degrees and its parents. -/
theorem genDagAdjlist_wellFormed (dagType : DagType) (n dagArg : Nat) (hn : 1 ≤ n)
    (hd : 1 ≤ dagArg) (hfit : (n + 1) * dagArg < 2 ^ 63) :
    ∃ adj, genDagAdjlist dagType dagArg n = some adj ∧ adj.keys = taskKeys n ∧
      (∀ i < n, (adj.children (i : Nat)).Nodup ∧
        ∀ next ∈ adj.children (i : Nat), ∃ j < n, next = (j : Nat) ∧ i < j) ∧
      (genDagIndegree adj).keys = taskKeys n ∧
      (∀ j < n, (genDagIndegree adj)[(j : Int)]? = some ((parentIds adj n j).length : Int)) ∧
      ∃ par, genDagParents adj = some par ∧ par.keys = taskKeys n ∧
        ∀ j < n, par[(j : Int)]? = some ((parentIds adj n j).map fun i : Nat => (i : Int)) := by
  obtain ⟨adj, hadj⟩ := exists_genDagAdjlist dagType hd hfit
  have hok := genDagAdjlist_ok hadj
  have hmem (k : Int) : k ∈ adj ↔ ∃ i < n, k = (i : Nat) := mem_genDagAdjlist hadj hd hn
  have hkey {j : Nat} (hj : j < n) : (j : Int) ∈ adj := (hmem j).2 ⟨j, hj, rfl⟩
  have hparents (j : Nat) : adj.parents j = (parentIds adj n j).map fun i : Nat => (i : Int) :=
    parents_eq hmem j
  refine ⟨adj, hadj, keys_eq_range hmem, fun i hi => ⟨hok.nodup i, fun next hnext => ?_⟩,
    keys_eq_range fun k => (mem_genDagIndegree hok hmem k).trans (hmem k), fun j hj => ?_, ?_⟩
  · obtain ⟨j, hj, rfl⟩ := (hmem next).1 (hok.mem i next hnext)
    have hlt := hok.lt i j hnext
    exact ⟨j, hj, rfl, by omega⟩
  · rw [getElem?_genDagIndegree hok hmem (hkey hj), hparents, List.length_map]
  · obtain ⟨par, hpar, hget⟩ := genDagParents_spec hok hmem
    refine ⟨par, hpar, keys_eq_range fun k => ?_, fun j hj => ?_⟩
    · rw [← hmem, ← Std.TreeMap.isSome_getElem?_iff_mem, hget]
      split
      · next hk => simp [hk]
      · next hk => simp [hk]
    · rw [hget, if_pos (hkey hj), hparents]

theorem genDagAdjlist_wellFormed_fanIn :
    ∃ adj, genDagAdjlist .fanIn 2 5 = some adj ∧ adj.keys = taskKeys 5 ∧
      (∀ i < (5 : Nat), (adj.children (i : Nat)).Nodup ∧
        ∀ next ∈ adj.children (i : Nat), ∃ j < (5 : Nat), next = (j : Nat) ∧ i < j) ∧
      (genDagIndegree adj).keys = taskKeys 5 ∧
      (∀ j < (5 : Nat),
        (genDagIndegree adj)[(j : Int)]? = some ((parentIds adj 5 j).length : Int)) ∧
      ∃ par, genDagParents adj = some par ∧ par.keys = taskKeys 5 ∧
        ∀ j < (5 : Nat),
          par[(j : Int)]? = some ((parentIds adj 5 j).map fun i : Nat => (i : Int)) :=
  genDagAdjlist_wellFormed .fanIn 5 2 (by decide) (by decide) (by decide)

end MatrixZht
