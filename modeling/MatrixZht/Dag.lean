import Mathlib.Data.List.Count
import Mathlib.Data.List.Nodup
import Mathlib.Data.List.Perm.Subperm
import Mathlib.Tactic.Linarith
import MatrixZht.Lib.FirstInsert

namespace MatrixZht
open Lib

inductive DagType where
  | bot
  | fanOut
  | fanIn
  | pipeline
deriving DecidableEq

abbrev AdjList := Std.TreeMap Int (List Int)

abbrev InDegree := Std.TreeMap Int Int

/-- The pairs a loop gives to `map::insert`, which keeps the entry a key already has. -/
def insertAll (pairs : List (Int × List Int)) : AdjList :=
  pairs.foldl (fun dagAdjList p => dagAdjList.insertIfNew p.1 p.2) ∅

def botPairs (numTask : Nat) : List (Int × List Int) :=
  (List.range numTask).map fun i : Nat => ((i : Int), [])

def genBotAdjlist (numTask : Nat) : AdjList := insertAll (botPairs numTask)

/-- The inner loop, which breaks at the first index that is too large. -/
def fanoutList (dagArg numTask i : Nat) : List Nat :=
  ((List.range dagArg).map fun j => i * dagArg + (j + 1)).takeWhile (· < numTask)

def fanoutPairs (dagArg numTask : Nat) : List (Int × List Int) :=
  (List.range numTask).map fun i : Nat => ((i : Int), (fanoutList dagArg numTask i).map Int.ofNat)

def genFanoutAdjlist (dagArg numTask : Nat) : AdjList := insertAll (fanoutPairs dagArg numTask)

/-- The fan out lists, flipped over. -/
def faninPairs (dagArg numTask : Nat) : List (Int × List Int) :=
  let tmpAdjList := genFanoutAdjlist dagArg numTask
  (List.range numTask).flatMap (fun i : Nat =>
    (tmpAdjList.getD i []).reverse.map fun next =>
      ((numTask : Int) - 1 - next, [(numTask : Int) - 1 - i])) ++
    [((numTask : Int) - 1, [])]

def genFaninAdjlist (dagArg numTask : Nat) : AdjList := insertAll (faninPairs dagArg numTask)

def pipelineList (dagArg numTask index : Nat) : List Int :=
  let next := index + 1
  if next % dagArg ≠ 0 ∧ next < numTask then [(next : Int)] else []

def pipelinePairs (dagArg numTask : Nat) : List (Int × List Int) :=
  let numPipe := numTask / dagArg
  let indices := (List.range numPipe).flatMap (fun i => (List.range dagArg).map (i * dagArg + ·)) ++
    (List.range (numTask - numPipe * dagArg)).map (numPipe * dagArg + ·)
  indices.map fun index : Nat => ((index : Int), pipelineList dagArg numTask index)

def genPipelineAdjlist (dagArg numTask : Nat) : AdjList :=
  insertAll (pipelinePairs dagArg numTask)

/-- The multiplication `i * dagArg + 1` of the fan out loop stays within `long`. -/
def fanoutFits (dagArg numTask : Nat) : Bool := (numTask - 1) * dagArg + 1 < 2 ^ 63

/-- `none` is an overflow of `long` or the division by a zero argument. -/
def genDagAdjlist (dagType : DagType) (dagArg numTask : Nat) : Option AdjList :=
  match dagType with
  | .bot => some (genBotAdjlist numTask)
  | .fanOut =>
    if fanoutFits dagArg numTask then some (genFanoutAdjlist dagArg numTask) else none
  | .fanIn => if fanoutFits dagArg numTask then some (genFaninAdjlist dagArg numTask) else none
  | .pipeline => if dagArg = 0 then none else some (genPipelineAdjlist dagArg numTask)

def genDagIndegree (dagAdjList : AdjList) : InDegree :=
  let dagInDegree := (List.range dagAdjList.size).foldl (fun m (i : Nat) => m.insert (i : Int) 0) ∅
  dagAdjList.foldl
    (fun m _ existList => existList.foldl (fun m next => m.insert next (m.getD next 0 + 1)) m)
    dagInDegree

/-- The children and the parents of a task in a generated graph. -/
def AdjList.children (adj : AdjList) (k : Int) : List Int := adj.getD k []

def AdjList.parents (adj : AdjList) (k : Int) : List Int :=
  adj.keys.filter (k ∈ adj.children ·)

/-- Edges lead from a task to tasks with a larger index, and no edge is doubled. -/
structure AdjList.Ok (adj : AdjList) : Prop where
  lt : ∀ k, ∀ next ∈ adj.children k, k < next
  mem : ∀ k, ∀ next ∈ adj.children k, next ∈ adj
  nodup : ∀ k, (adj.children k).Nodup

section Pairs

variable {pairs : List (Int × List Int)} {k : Int}

theorem getElem?_insertAll : (insertAll pairs)[k]? = pairs.lookup k := by
  have hall : insertAll pairs = insertPairs pairs ∅ := rfl
  rw [hall, getElem?_insertPairs]
  simp

theorem mem_insertAll : k ∈ insertAll pairs ↔ ∃ l, (k, l) ∈ pairs := by
  rw [← Std.TreeMap.isSome_getElem?_iff_mem, getElem?_insertAll]
  constructor
  · intro h
    obtain ⟨l, hl⟩ := Option.isSome_iff_exists.1 h
    exact ⟨l, mem_of_lookup_eq_some hl⟩
  · rintro ⟨l, hl⟩
    rw [Option.isSome_iff_ne_none]
    intro h
    simpa using List.lookup_eq_none_iff.1 h (k, l) hl

theorem children_insertAll (pairs : List (Int × List Int)) (k : Int) :
    (insertAll pairs).children k = [] ∨ (k, (insertAll pairs).children k) ∈ pairs := by
  rw [AdjList.children, Std.TreeMap.getD_eq_getD_getElem?, getElem?_insertAll]
  cases h : pairs.lookup k with
  | none => exact .inl rfl
  | some l => exact .inr (mem_of_lookup_eq_some h)

theorem children_insertAll_eq {l : List Int} (h : (k, l) ∈ pairs)
    (hu : ∀ l', (k, l') ∈ pairs → l' = l) : (insertAll pairs).children k = l := by
  have hk : k ∈ insertAll pairs := mem_insertAll.2 ⟨l, h⟩
  obtain ⟨l', hl⟩ := Option.isSome_iff_exists.1 (Std.TreeMap.isSome_getElem?_iff_mem.2 hk)
  rw [AdjList.children, Std.TreeMap.getD_eq_getD_getElem?, hl]
  rw [getElem?_insertAll] at hl
  exact hu l' (mem_of_lookup_eq_some hl)

theorem insertAll_ok
    (h : ∀ k l, (k, l) ∈ pairs → l.Nodup ∧ ∀ next ∈ l, k < next ∧ ∃ l', (next, l') ∈ pairs) :
    (insertAll pairs).Ok where
  lt := by
    intro k next hn
    rcases children_insertAll pairs k with he | hm
    · simp [he] at hn
    · exact ((h _ _ hm).2 next hn).1
  mem := by
    intro k next hn
    rcases children_insertAll pairs k with he | hm
    · simp [he] at hn
    · exact mem_insertAll.2 ((h _ _ hm).2 next hn).2
  nodup := by
    intro k
    rcases children_insertAll pairs k with he | hm
    · simp [he]
    · exact (h _ _ hm).1

end Pairs

section Generated

variable {dagArg numTask : Nat}

theorem takeWhile_lt_eq_filter {l : List Nat} (h : l.Pairwise (· < ·)) (n : Nat) :
    l.takeWhile (· < n) = l.filter (· < n) := by
  induction l with
  | nil => rfl
  | cons x l ih =>
    obtain ⟨hlt, hl⟩ := List.pairwise_cons.1 h
    have ih := ih hl
    by_cases hx : x < n
    · simp [hx, ih]
    · have hrest : l.filter (· < n) = [] := by
        rw [List.filter_eq_nil_iff]
        intro y hy
        have hxy := hlt y hy
        simp only [decide_eq_true_eq]
        omega
      simp [hx, hrest]

theorem fanoutList_eq (i : Nat) : fanoutList dagArg numTask i =
    ((List.range dagArg).map fun j => i * dagArg + (j + 1)).filter (· < numTask) := by
  apply takeWhile_lt_eq_filter
  rw [List.pairwise_map]
  exact List.pairwise_lt_range.imp fun h => by omega

theorem mem_fanoutList {i next : Nat} : next ∈ fanoutList dagArg numTask i ↔
    i * dagArg < next ∧ next ≤ i * dagArg + dagArg ∧ next < numTask := by
  simp only [fanoutList_eq, List.mem_filter, List.mem_map, List.mem_range, decide_eq_true_eq]
  constructor
  · rintro ⟨⟨j, hj, rfl⟩, hn⟩
    omega
  · rintro ⟨hlo, hhi, hn⟩
    exact ⟨⟨next - i * dagArg - 1, by omega, by omega⟩, hn⟩

theorem nodup_fanoutList (i : Nat) : (fanoutList dagArg numTask i).Nodup := by
  rw [fanoutList_eq]
  apply List.Nodup.filter
  exact List.nodup_range.map fun a b h => by omega

theorem lt_of_mem_fanoutList {i next : Nat} (h : next ∈ fanoutList dagArg numTask i) :
    i < next := by
  obtain ⟨hlo, hhi, _⟩ := mem_fanoutList.1 h
  have hd : 1 ≤ dagArg := by omega
  have hi : i ≤ i * dagArg := Nat.le_mul_of_pos_right i hd
  omega

theorem mem_fanoutList_pred (hd : 1 ≤ dagArg) {i : Nat} (hi : 0 < i) (hn : i < numTask) :
    i ∈ fanoutList dagArg numTask ((i - 1) / dagArg) := by
  have hdiv := Nat.div_add_mod (i - 1) dagArg
  have hmod := Nat.mod_lt (i - 1) hd
  rw [Nat.mul_comm] at hdiv
  apply mem_fanoutList.2
  omega

theorem mem_indexPairs {f : Nat → List Int} {k : Int} {l : List Int} :
    (k, l) ∈ (List.range numTask).map (fun i : Nat => ((i : Int), f i)) ↔
      ∃ i < numTask, k = i ∧ l = f i := by
  simp only [List.mem_map, List.mem_range, Prod.mk.injEq]
  constructor
  · rintro ⟨i, hi, rfl, rfl⟩
    exact ⟨i, hi, rfl, rfl⟩
  · rintro ⟨i, hi, rfl, rfl⟩
    exact ⟨i, hi, rfl, rfl⟩

theorem mem_fanoutPairs {k : Int} {l : List Int} : (k, l) ∈ fanoutPairs dagArg numTask ↔
    ∃ i < numTask, k = i ∧ l = (fanoutList dagArg numTask i).map Int.ofNat :=
  mem_indexPairs

theorem genFanoutAdjlist_ok : (genFanoutAdjlist dagArg numTask).Ok := by
  apply insertAll_ok
  intro k l h
  obtain ⟨i, hi, rfl, rfl⟩ := mem_fanoutPairs.1 h
  refine ⟨(nodup_fanoutList i).map Int.ofNat_injective, ?_⟩
  intro next hnext
  obtain ⟨j, hj, rfl⟩ := List.mem_map.1 hnext
  have hlt := lt_of_mem_fanoutList hj
  refine ⟨by simp only [Int.ofNat_eq_natCast]; omega, ?_⟩
  exact ⟨_, mem_fanoutPairs.2 ⟨j, (mem_fanoutList.1 hj).2.2, rfl, rfl⟩⟩

theorem children_genFanoutAdjlist {i : Nat} (hi : i < numTask) :
    (genFanoutAdjlist dagArg numTask).children i =
      (fanoutList dagArg numTask i).map Int.ofNat := by
  refine children_insertAll_eq (mem_fanoutPairs.2 ⟨i, hi, rfl, rfl⟩) fun l' hl' => ?_
  obtain ⟨j, _, hij, rfl⟩ := mem_fanoutPairs.1 hl'
  rw [Int.ofNat_inj.1 hij]

theorem mem_faninPairs {k : Int} {l : List Int} : (k, l) ∈ faninPairs dagArg numTask ↔
    (∃ i < numTask, ∃ next ∈ fanoutList dagArg numTask i,
      k = numTask - 1 - next ∧ l = [(numTask : Int) - 1 - i]) ∨ k = numTask - 1 ∧ l = [] := by
  have hchild {i : Nat} (hi : i < numTask) : (genFanoutAdjlist dagArg numTask).getD (i : Int) [] =
      (fanoutList dagArg numTask i).map Int.ofNat := children_genFanoutAdjlist hi
  simp only [faninPairs, List.mem_append, List.mem_flatMap, List.mem_range, List.mem_map,
    List.mem_reverse, List.mem_singleton, Prod.mk.injEq]
  constructor
  · rintro (⟨i, hi, next, hn, rfl, rfl⟩ | h)
    · rw [hchild hi] at hn
      obtain ⟨j, hj, rfl⟩ := List.mem_map.1 hn
      exact .inl ⟨i, hi, j, hj, rfl, rfl⟩
    · exact .inr h
  · rintro (⟨i, hi, j, hj, rfl, rfl⟩ | h)
    · refine .inl ⟨i, hi, j, ?_, rfl, rfl⟩
      rw [hchild hi]
      exact List.mem_map.2 ⟨j, hj, rfl⟩
    · exact .inr h

theorem mem_faninPairs_of_lt (hd : 1 ≤ dagArg) {i : Nat} (hi : i < numTask) :
    ∃ l, ((numTask : Int) - 1 - i, l) ∈ faninPairs dagArg numTask := by
  cases i with
  | zero => exact ⟨[], mem_faninPairs.2 (.inr ⟨by omega, rfl⟩)⟩
  | succ i =>
    have hmem := mem_fanoutList_pred hd (Nat.succ_pos i) hi
    have hp : (i + 1 - 1) / dagArg < numTask := (lt_of_mem_fanoutList hmem).trans hi
    exact ⟨_, mem_faninPairs.2 (.inl ⟨_, hp, _, hmem, rfl, rfl⟩)⟩

theorem genFaninAdjlist_ok : (genFaninAdjlist dagArg numTask).Ok := by
  apply insertAll_ok
  intro k l h
  rcases mem_faninPairs.1 h with ⟨i, hi, next, hn, rfl, rfl⟩ | ⟨rfl, rfl⟩
  · have hlt := lt_of_mem_fanoutList hn
    have hd : 1 ≤ dagArg := by
      have := mem_fanoutList.1 hn
      omega
    refine ⟨List.nodup_singleton _, ?_⟩
    intro c hc
    rw [List.mem_singleton.1 hc]
    exact ⟨by omega, mem_faninPairs_of_lt hd hi⟩
  · simp

theorem mem_pipelinePairs (hd : 1 ≤ dagArg) {k : Int} {l : List Int} :
    (k, l) ∈ pipelinePairs dagArg numTask ↔
      ∃ i < numTask, k = i ∧ l = pipelineList dagArg numTask i := by
  have hdiv := Nat.div_add_mod numTask dagArg
  rw [Nat.mul_comm] at hdiv
  simp only [pipelinePairs, List.mem_map, List.mem_append, List.mem_flatMap, List.mem_range,
    Prod.mk.injEq]
  constructor
  · rintro ⟨i, hi, rfl, rfl⟩
    refine ⟨i, ?_, rfl, rfl⟩
    rcases hi with ⟨p, hp, j, hj, rfl⟩ | ⟨j, hj, rfl⟩
    · have hle : (p + 1) * dagArg ≤ numTask / dagArg * dagArg := Nat.mul_le_mul_right _ hp
      rw [Nat.succ_mul] at hle
      omega
    · omega
  · rintro ⟨i, hi, rfl, rfl⟩
    refine ⟨i, ?_, rfl, rfl⟩
    have hi' := Nat.div_add_mod i dagArg
    have hmod := Nat.mod_lt i hd
    rw [Nat.mul_comm] at hi'
    by_cases hp : i / dagArg < numTask / dagArg
    · exact .inl ⟨_, hp, _, hmod, hi'⟩
    · have hle : numTask / dagArg * dagArg ≤ i / dagArg * dagArg :=
        Nat.mul_le_mul_right _ (by omega)
      exact .inr ⟨i - numTask / dagArg * dagArg, by omega, by omega⟩

theorem genPipelineAdjlist_ok (hd : 1 ≤ dagArg) : (genPipelineAdjlist dagArg numTask).Ok := by
  apply insertAll_ok
  intro k l h
  obtain ⟨i, hi, rfl, rfl⟩ := (mem_pipelinePairs hd).1 h
  simp only [pipelineList]
  split
  · next hnext =>
    refine ⟨List.nodup_singleton _, ?_⟩
    intro c hc
    rw [List.mem_singleton.1 hc]
    exact ⟨by omega, _, (mem_pipelinePairs hd).2 ⟨i + 1, hnext.2, rfl, rfl⟩⟩
  · simp

theorem mem_botPairs {k : Int} {l : List Int} :
    (k, l) ∈ botPairs numTask ↔ ∃ i < numTask, k = i ∧ l = [] :=
  mem_indexPairs

theorem genBotAdjlist_ok : (genBotAdjlist numTask).Ok := by
  apply insertAll_ok
  intro k l h
  obtain ⟨i, hi, rfl, rfl⟩ := mem_botPairs.1 h
  simp

end Generated

/-- Every generated graph is acyclic, since its edges lead upwards. -/
theorem genDagAdjlist_ok {dagType : DagType} {dagArg numTask : Nat} {adj : AdjList}
    (h : genDagAdjlist dagType dagArg numTask = some adj) : adj.Ok := by
  cases dagType with
  | bot =>
    cases h
    exact genBotAdjlist_ok
  | fanOut =>
    rw [genDagAdjlist, Option.ite_none_right_eq_some] at h
    cases h.2
    exact genFanoutAdjlist_ok
  | fanIn =>
    rw [genDagAdjlist, Option.ite_none_right_eq_some] at h
    cases h.2
    exact genFaninAdjlist_ok
  | pipeline =>
    rw [genDagAdjlist, Option.ite_none_left_eq_some] at h
    cases h.2
    exact genPipelineAdjlist_ok (Nat.pos_of_ne_zero h.1)

theorem mem_genDagAdjlist {dagType : DagType} {dagArg numTask : Nat} {adj : AdjList}
    (h : genDagAdjlist dagType dagArg numTask = some adj) (hd : 1 ≤ dagArg) (hn : 1 ≤ numTask)
    {k : Int} : k ∈ adj ↔ ∃ i < numTask, k = (i : Nat) := by
  cases dagType with
  | bot =>
    cases h
    simp [genBotAdjlist, mem_insertAll, mem_botPairs]
  | fanOut =>
    rw [genDagAdjlist, Option.ite_none_right_eq_some] at h
    cases h.2
    simp [genFanoutAdjlist, mem_insertAll, mem_fanoutPairs]
  | fanIn =>
    rw [genDagAdjlist, Option.ite_none_right_eq_some] at h
    cases h.2
    rw [genFaninAdjlist, mem_insertAll]
    constructor
    · rintro ⟨l, hl⟩
      rcases mem_faninPairs.1 hl with ⟨i, hi, next, hnext, rfl, _⟩ | ⟨rfl, _⟩
      · have hlt := (mem_fanoutList.1 hnext).2.2
        exact ⟨numTask - 1 - next, by omega, by omega⟩
      · exact ⟨numTask - 1, by omega, by omega⟩
    · rintro ⟨i, hi, rfl⟩
      have hrev : (numTask - 1 - i : Nat) < numTask := by omega
      obtain ⟨l, hl⟩ := mem_faninPairs_of_lt hd hrev
      have hk : (numTask : Int) - 1 - (numTask - 1 - i : Nat) = i := by omega
      exact ⟨l, hk ▸ hl⟩
  | pipeline =>
    rw [genDagAdjlist, Option.ite_none_left_eq_some] at h
    cases h.2
    simp [genPipelineAdjlist, mem_insertAll, mem_pipelinePairs hd]

section Indegree

theorem getD_foldl_incr (existList : List Int) (m : InDegree) (k : Int) :
    (existList.foldl (fun m next => m.insert next (m.getD next 0 + 1)) m).getD k 0 =
      m.getD k 0 + existList.count k := by
  induction existList generalizing m with
  | nil => simp
  | cons next existList ih =>
    rw [List.foldl_cons, ih, Std.TreeMap.getD_insert]
    by_cases hk : next = k
    · simp [hk]
      omega
    · simp [hk]

theorem getD_foldl_zero (is : List Nat) (m : InDegree) (k : Int) (hm : m.getD k 0 = 0) :
    (is.foldl (fun m (i : Nat) => m.insert (i : Int) 0) m).getD k 0 = 0 := by
  induction is generalizing m with
  | nil => exact hm
  | cons i is ih =>
    apply ih
    rw [Std.TreeMap.getD_insert]
    split
    · rfl
    · exact hm

theorem getD_foldl_lists (entries : List (Int × List Int)) (m : InDegree) (k : Int) :
    (entries.foldl (fun m p =>
      p.2.foldl (fun m next => m.insert next (m.getD next 0 + 1)) m) m).getD k 0 =
      m.getD k 0 + (entries.map fun p => p.2.count k).sum := by
  induction entries generalizing m with
  | nil => simp
  | cons p entries ih =>
    rw [List.foldl_cons, ih, getD_foldl_incr]
    simp
    omega

theorem sum_map_ite_eq_countP (l : List Int) (p : Int → Prop) [DecidablePred p] :
    (l.map fun x => if p x then 1 else 0).sum = l.countP p := by
  induction l with
  | nil => rfl
  | cons x l ih =>
    rw [List.map_cons, List.sum_cons, ih, List.countP_cons]
    simp only [decide_eq_true_eq]
    omega

theorem AdjList.Ok.count_children {adj : AdjList} (h : adj.Ok) (p k : Int) :
    (adj.children p).count k = if k ∈ adj.children p then 1 else 0 := by
  split
  · next hk => exact List.count_eq_one_of_mem (h.nodup p) hk
  · next hk => exact List.count_eq_zero_of_not_mem hk

theorem AdjList.children_of_mem_toList {adj : AdjList} {p : Int × List Int} (h : p ∈ adj.toList) :
    adj.children p.1 = p.2 := by
  rw [AdjList.children, Std.TreeMap.getD_eq_getD_getElem?,
    Std.TreeMap.mem_toList_iff_getElem?_eq_some.1 h]
  rfl

theorem getD_genDagIndegree {adj : AdjList} (h : adj.Ok) (k : Int) :
    (genDagIndegree adj).getD k 0 = (adj.parents k).length := by
  have hsum : (adj.toList.map fun p => p.2.count k).sum = (adj.parents k).length := by
    have hmap : adj.toList.map (fun p => p.2.count k) =
        adj.keys.map fun p => if k ∈ adj.children p then 1 else 0 := by
      rw [← Std.TreeMap.map_fst_toList_eq_keys, List.map_map]
      apply List.map_congr_left
      intro p hp
      simp only [Function.comp_apply, ← h.count_children, AdjList.children_of_mem_toList hp]
    rw [hmap, AdjList.parents, ← List.countP_eq_length_filter, sum_map_ite_eq_countP]
  rw [genDagIndegree, Std.TreeMap.foldl_eq_foldl_toList, getD_foldl_lists, hsum,
    getD_foldl_zero _ _ _ (by simp)]
  simp

end Indegree

section Bounds

variable {adj : AdjList} {k p : Int}

theorem AdjList.mem_parents : p ∈ adj.parents k ↔ p ∈ adj ∧ k ∈ adj.children p := by
  simp [AdjList.parents, Std.TreeMap.mem_keys]

theorem AdjList.nodup_parents (adj : AdjList) (k : Int) : (adj.parents k).Nodup := by
  apply List.Nodup.filter
  exact Std.TreeMap.distinct_keys.imp fun h he => h (by simp [he])

theorem AdjList.Ok.lt_of_mem_parents (h : adj.Ok) (hp : p ∈ adj.parents k) : p < k :=
  h.lt p k (AdjList.mem_parents.1 hp).2

theorem bounds_of_mem {dagType : DagType} {dagArg numTask : Nat}
    (h : genDagAdjlist dagType dagArg numTask = some adj) (hk : k ∈ adj) :
    -1 ≤ k ∧ k < numTask := by
  cases dagType with
  | bot =>
    cases h
    obtain ⟨l, hl⟩ := mem_insertAll.1 hk
    obtain ⟨i, hi, rfl, _⟩ := mem_botPairs.1 hl
    omega
  | fanOut =>
    rw [genDagAdjlist, Option.ite_none_right_eq_some] at h
    cases h.2
    obtain ⟨l, hl⟩ := mem_insertAll.1 hk
    obtain ⟨i, hi, rfl, _⟩ := mem_fanoutPairs.1 hl
    omega
  | fanIn =>
    rw [genDagAdjlist, Option.ite_none_right_eq_some] at h
    cases h.2
    obtain ⟨l, hl⟩ := mem_insertAll.1 hk
    rcases mem_faninPairs.1 hl with ⟨i, hi, next, hn, rfl, _⟩ | ⟨rfl, _⟩
    · have hlt := (mem_fanoutList.1 hn).2.2
      omega
    · omega
  | pipeline =>
    rw [genDagAdjlist, Option.ite_none_left_eq_some] at h
    cases h.2
    obtain ⟨l, hl⟩ := mem_insertAll.1 hk
    obtain ⟨i, hi, rfl, _⟩ := (mem_pipelinePairs (Nat.pos_of_ne_zero h.1)).1 hl
    omega

theorem length_parents_le {dagType : DagType} {dagArg numTask : Nat}
    (h : genDagAdjlist dagType dagArg numTask = some adj) (k : Int) :
    (adj.parents k).length ≤ numTask := by
  have hok := genDagAdjlist_ok h
  have hsub : (adj.parents k) ⊆ (List.range numTask).map fun i : Nat => (i : Int) - 1 := by
    intro p hp
    obtain ⟨hmem, hchild⟩ := AdjList.mem_parents.1 hp
    have hlt := hok.lt p k hchild
    have hlo := (bounds_of_mem h hmem).1
    have hhi := (bounds_of_mem h (hok.mem p k hchild)).2
    exact List.mem_map.2 ⟨(p + 1).toNat, List.mem_range.2 (by omega), by omega⟩
  have hle := (List.subperm_of_subset (adj.nodup_parents k) hsub).length_le
  simpa using hle

end Bounds

end MatrixZht
