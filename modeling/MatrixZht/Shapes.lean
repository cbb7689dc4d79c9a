import MatrixZht.Dag
import MatrixZht.Lib.Run

namespace MatrixZht
open Lib

def AdjList.Edge (adj : AdjList) (a b : Int) : Prop := b ∈ adj.children a

/-- A tree: every task but the first has one parent, and the first one reaches all of them. -/
structure FanOutShape (dagArg numTask : Nat) (adj : AdjList) : Prop where
  parent : ∀ c : Int, 1 ≤ c → c < numTask → ∀ p, adj.Edge p c ↔ p = (c - 1) / dagArg
  reaches : ∀ c : Int, 0 ≤ c → c < numTask → Relation.ReflTransGen adj.Edge 0 c

/-- The fan out graph with the edges and the numbering reversed. -/
structure FanInShape (numTask : Nat) (fanOut fanIn : AdjList) : Prop where
  mirror : ∀ a b : Int, fanIn.Edge a b ↔ fanOut.Edge (numTask - 1 - b) (numTask - 1 - a)
  child : ∀ k : Int, 0 ≤ k → k < numTask - 1 → ∃ next, fanIn.children k = [next]
  last : fanIn.children (numTask - 1) = []

/-- Chains of `dagArg` tasks. -/
def PipelineShape (dagArg numTask : Nat) (adj : AdjList) : Prop :=
  ∀ a b : Int, adj.Edge a b ↔ 0 ≤ a ∧ b = a + 1 ∧ b < numTask ∧ b % dagArg ≠ 0

section Edges

variable {dagArg numTask : Nat}

theorem mem_fanoutList_iff {i next : Nat} :
    next ∈ fanoutList dagArg numTask i ↔
      1 ≤ dagArg ∧ 1 ≤ next ∧ next < numTask ∧ i = (next - 1) / dagArg := by
  rw [mem_fanoutList]
  constructor
  · rintro ⟨hlo, hhi, hn⟩
    refine ⟨by omega, by omega, hn, ?_⟩
    exact (Nat.div_eq_of_lt_le (by omega) (by rw [Nat.succ_mul]; omega)).symm
  · rintro ⟨hd, hpos, hn, rfl⟩
    have hdiv := Nat.div_add_mod (next - 1) dagArg
    have hmod := Nat.mod_lt (next - 1) hd
    rw [Nat.mul_comm] at hdiv
    omega

theorem edge_genFanoutAdjlist_natCast {a b : Int} :
    (genFanoutAdjlist dagArg numTask).Edge a b ↔
      ∃ i next : Nat, a = i ∧ b = next ∧ next ∈ fanoutList dagArg numTask i := by
  constructor
  · intro h
    rcases children_insertAll (fanoutPairs dagArg numTask) a with hnil | hmem
    · rw [AdjList.Edge, genFanoutAdjlist, hnil] at h
      cases h
    · obtain ⟨i, _, rfl, hl⟩ := mem_fanoutPairs.1 hmem
      rw [AdjList.Edge, genFanoutAdjlist, hl] at h
      obtain ⟨next, hnext, rfl⟩ := List.mem_map.1 h
      exact ⟨i, next, rfl, rfl, hnext⟩
  · rintro ⟨i, next, rfl, rfl, hnext⟩
    have hi := (lt_of_mem_fanoutList hnext).trans (mem_fanoutList.1 hnext).2.2
    rw [AdjList.Edge, children_genFanoutAdjlist hi]
    exact List.mem_map.2 ⟨next, hnext, rfl⟩

theorem edge_genFanoutAdjlist (hd : 1 ≤ dagArg) {a b : Int} :
    (genFanoutAdjlist dagArg numTask).Edge a b ↔ 1 ≤ b ∧ b < numTask ∧ a = (b - 1) / dagArg := by
  rw [edge_genFanoutAdjlist_natCast]
  constructor
  · rintro ⟨i, next, rfl, rfl, hnext⟩
    obtain ⟨_, hpos, hn, rfl⟩ := mem_fanoutList_iff.1 hnext
    refine ⟨by omega, by omega, ?_⟩
    rw [Int.natCast_div, Int.natCast_sub hpos]
    rfl
  · rintro ⟨hpos, hn, rfl⟩
    obtain ⟨next, rfl⟩ := Int.eq_ofNat_of_zero_le (show 0 ≤ b by omega)
    have hnext : 1 ≤ next := by omega
    refine ⟨(next - 1) / dagArg, next, ?_, rfl, mem_fanoutList_iff.2 ⟨hd, hnext, by omega, rfl⟩⟩
    rw [Int.natCast_div, Int.natCast_sub hnext]
    rfl

theorem genFanoutAdjlist_shape (hd : 1 ≤ dagArg) :
    FanOutShape dagArg numTask (genFanoutAdjlist dagArg numTask) where
  parent := by
    intro c hpos hn p
    rw [edge_genFanoutAdjlist hd]
    exact ⟨fun h => h.2.2, fun h => ⟨hpos, hn, h⟩⟩
  reaches := by
    intro c hc hn
    obtain ⟨c, rfl⟩ := Int.eq_ofNat_of_zero_le hc
    -- the parent of a task has a smaller number
    have hpred : ∀ x : Nat, x < numTask → x ≠ 0 → ∃ y < x, y < numTask ∧
        (genFanoutAdjlist dagArg numTask).Edge (y : Int) (x : Int) := by
      intro x hx hne
      have hle : (x - 1) / dagArg ≤ x - 1 := Nat.div_le_self _ _
      refine ⟨(x - 1) / dagArg, by omega, by omega, ?_⟩
      exact edge_genFanoutAdjlist_natCast.2 ⟨_, x, rfl, rfl,
        mem_fanoutList_iff.2 ⟨hd, by omega, hx, rfl⟩⟩
    have hreach := reflTransGen_of_pred (S := (· < numTask)) hpred (Int.ofNat_lt.1 hn)
    exact hreach.lift Nat.cast fun _ _ h => h

/-- The only entry for the key of a task is the one that its parent in the fan out graph makes. -/
theorem children_genFaninAdjlist {i next : Nat} (hnext : next ∈ fanoutList dagArg numTask i) :
    (genFaninAdjlist dagArg numTask).children (numTask - 1 - next) = [(numTask : Int) - 1 - i] := by
  have hi := (lt_of_mem_fanoutList hnext).trans (mem_fanoutList.1 hnext).2.2
  refine children_insertAll_eq (mem_faninPairs.2 (.inl ⟨i, hi, next, hnext, rfl, rfl⟩)) ?_
  intro l' hl'
  rcases mem_faninPairs.1 hl' with ⟨i', _, next', hnext', hk, rfl⟩ | ⟨hk, _⟩
  · obtain rfl : next' = next := by omega
    obtain ⟨_, _, _, hp⟩ := mem_fanoutList_iff.1 hnext
    obtain ⟨_, _, _, hp'⟩ := mem_fanoutList_iff.1 hnext'
    rw [hp, hp']
  · have hlt := lt_of_mem_fanoutList hnext
    omega

theorem children_genFaninAdjlist_last :
    (genFaninAdjlist dagArg numTask).children (numTask - 1) = [] := by
  refine children_insertAll_eq (mem_faninPairs.2 (.inr ⟨rfl, rfl⟩)) ?_
  intro l' hl'
  rcases mem_faninPairs.1 hl' with ⟨i, _, next, hnext, hk, _⟩ | ⟨_, hl⟩
  · have hlt := lt_of_mem_fanoutList hnext
    omega
  · exact hl

theorem edge_genFaninAdjlist {a b : Int} : (genFaninAdjlist dagArg numTask).Edge a b ↔
    (genFanoutAdjlist dagArg numTask).Edge (numTask - 1 - b) (numTask - 1 - a) := by
  rw [edge_genFanoutAdjlist_natCast]
  constructor
  · intro h
    rcases children_insertAll (faninPairs dagArg numTask) a with hnil | hmem
    · rw [AdjList.Edge, genFaninAdjlist, hnil] at h
      cases h
    · rw [AdjList.Edge, genFaninAdjlist] at h
      rcases mem_faninPairs.1 hmem with ⟨i, _, next, hnext, rfl, hl⟩ | ⟨_, hl⟩
      · rw [hl] at h
        obtain rfl := List.mem_singleton.1 h
        exact ⟨i, next, by omega, by omega, hnext⟩
      · rw [hl] at h
        cases h
  · rintro ⟨i, next, hb, ha, hnext⟩
    obtain rfl : a = numTask - 1 - next := by omega
    obtain rfl : b = numTask - 1 - i := by omega
    rw [AdjList.Edge, children_genFaninAdjlist hnext]
    exact List.mem_singleton_self _

theorem genFaninAdjlist_shape (hd : 1 ≤ dagArg) :
    FanInShape numTask (genFanoutAdjlist dagArg numTask) (genFaninAdjlist dagArg numTask) where
  mirror := fun _ _ => edge_genFaninAdjlist
  child := by
    intro k hk hn
    obtain ⟨next, hnext⟩ := Int.eq_ofNat_of_zero_le (show 0 ≤ (numTask : Int) - 1 - k by omega)
    obtain rfl : k = numTask - 1 - next := by omega
    exact ⟨_, children_genFaninAdjlist (mem_fanoutList_iff.2 ⟨hd, by omega, by omega, rfl⟩)⟩
  last := children_genFaninAdjlist_last

theorem children_genPipelineAdjlist (hd : 1 ≤ dagArg) {i : Nat} (hi : i < numTask) :
    (genPipelineAdjlist dagArg numTask).children i = pipelineList dagArg numTask i := by
  refine children_insertAll_eq ((mem_pipelinePairs hd).2 ⟨i, hi, rfl, rfl⟩) fun l' hl' => ?_
  obtain ⟨j, _, hij, rfl⟩ := (mem_pipelinePairs hd).1 hl'
  rw [Int.ofNat_inj.1 hij]

theorem mem_pipelineList {i : Nat} {b : Int} : b ∈ pipelineList dagArg numTask i ↔
    b = i + 1 ∧ b < numTask ∧ b % dagArg ≠ 0 := by
  rw [pipelineList]
  split
  · next h =>
    rw [List.mem_singleton]
    constructor
    · rintro rfl
      refine ⟨by omega, by omega, ?_⟩
      rw [← Int.natCast_mod]
      exact Int.ofNat_ne_zero.2 h.1
    · rintro ⟨rfl, _, _⟩
      rfl
  · next h =>
    simp only [List.not_mem_nil, false_iff]
    rintro ⟨rfl, hn, hmod⟩
    refine h ⟨fun he => hmod ?_, by omega⟩
    rw [← Int.natCast_succ, ← Int.natCast_mod, he]
    rfl

theorem genPipelineAdjlist_shape (hd : 1 ≤ dagArg) :
    PipelineShape dagArg numTask (genPipelineAdjlist dagArg numTask) := by
  intro a b
  constructor
  · intro h
    rcases children_insertAll (pipelinePairs dagArg numTask) a with hnil | hmem
    · rw [AdjList.Edge, genPipelineAdjlist, hnil] at h
      cases h
    · obtain ⟨i, _, rfl, hl⟩ := (mem_pipelinePairs hd).1 hmem
      rw [AdjList.Edge, genPipelineAdjlist, hl] at h
      exact ⟨by omega, mem_pipelineList.1 h⟩
  · rintro ⟨ha, rfl, hn, hmod⟩
    obtain ⟨i, rfl⟩ := Int.eq_ofNat_of_zero_le ha
    rw [AdjList.Edge, children_genPipelineAdjlist hd (by omega)]
    exact mem_pipelineList.2 ⟨rfl, hn, hmod⟩

end Edges

/-- As long as no multiplication overflows, the generated graphs have exactly the edges of their
kind. -/
theorem genDagAdjlist_shapes (dagArg numTask : Nat) (hd : 1 ≤ dagArg) :
    (fanoutFits dagArg numTask = true → ∃ fanOut fanIn,
      genDagAdjlist .fanOut dagArg numTask = some fanOut ∧
        genDagAdjlist .fanIn dagArg numTask = some fanIn ∧
        FanOutShape dagArg numTask fanOut ∧ FanInShape numTask fanOut fanIn) ∧
      ∃ pipeline, genDagAdjlist .pipeline dagArg numTask = some pipeline ∧
        PipelineShape dagArg numTask pipeline := by
  refine ⟨fun hfit => ?_, _, if_neg (by omega), genPipelineAdjlist_shape hd⟩
  exact ⟨_, _, if_pos hfit, if_pos hfit, genFanoutAdjlist_shape hd, genFaninAdjlist_shape hd⟩

/-- Six tasks of degree four, so that the last level and the last chain are not full. -/
theorem genDagAdjlist_shapes_truncated :
    (∃ fanOut fanIn, genDagAdjlist .fanOut 4 6 = some fanOut ∧
      genDagAdjlist .fanIn 4 6 = some fanIn ∧ FanOutShape 4 6 fanOut ∧
        FanInShape 6 fanOut fanIn) ∧
      ∃ pipeline, genDagAdjlist .pipeline 4 6 = some pipeline ∧ PipelineShape 4 6 pipeline := by
  obtain ⟨hfan, hpipeline⟩ := genDagAdjlist_shapes 4 6 (by decide)
  exact ⟨hfan (by decide), hpipeline⟩

end MatrixZht
