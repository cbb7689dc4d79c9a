import MatrixZht.Cluster.Ledger

namespace MatrixZht
open Lib

namespace State

variable {n m : Nat} {sys : System n m} {st st' : State n m} {c : Fin m} {k : Int} {adj : AdjList}

theorem Ledger.parent_of_landedOn (h : st.Ledger sys) (hd : sys.Distinct)
    (hadj : (sys.client c).adjList = some adj) (hk : k ∈ adj) {l : Landing}
    (hl : l ∈ landedOn st.landed (sys.taskId c k)) :
    ∃ p ∈ adj.parents k, l.cqItem.taskId = sys.taskId c p := by
  obtain ⟨hl, hchild⟩ := List.mem_filter.1 hl
  obtain ⟨e, _, _, hid, hkid⟩ := h.mem_landed hl
  obtain ⟨c', p, adj', htask, hadj', hp, k', hk', he⟩ := System.mem_kids hkid
  have hrec : sys.HasRecord c' k' := ⟨adj', hadj', (genDagAdjlist_ok hadj').mem p k' hk'⟩
  obtain ⟨rfl, rfl⟩ := hd.eq (.inr ⟨adj, hadj, hk⟩) hrec.hasTask
    ((of_decide_eq_true hchild).symm.trans he)
  rw [hadj] at hadj'
  cases hadj'
  exact ⟨p, AdjList.mem_parents.2 ⟨hp, hk'⟩, hid.trans htask⟩

theorem Ledger.perm_parents (h : st.Ledger sys) (hd : sys.Distinct)
    (hexec : (st.executed.map fun p => p.2.taskid).Nodup)
    (hadj : (sys.client c).adjList = some adj) (hk : k ∈ adj) {L : List Landing}
    (hL : L.Sublist (landedOn st.landed (sys.taskId c k)))
    (hlen : (adj.parents k).length ≤ L.length) :
    (L.map (·.cqItem.taskId)).Perm ((adj.parents k).map (sys.taskId c)) := by
  have hnodup : (L.map (·.cqItem.taskId)).Nodup :=
    (h.nodup_landedOn hexec _).sublist (hL.map _)
  have hsub : L.map (·.cqItem.taskId) ⊆ (adj.parents k).map (sys.taskId c) := by
    intro t ht
    obtain ⟨l, hl, rfl⟩ := List.mem_map.1 ht
    obtain ⟨p, hp, he⟩ := h.parent_of_landedOn hd hadj hk (hL.subset hl)
    exact List.mem_map.2 ⟨p, hp, he.symm⟩
  exact (hnodup.subperm hsub).perm_of_length_le (by simpa using hlen)

theorem Conserved.exists_task (h : st.Conserved sys) {i : Fin n} {tm : TaskMsg}
    (htm : tm ∈ (st.sched i).held) :
    ∃ c, ∃ j < (sys.client c).numTask, tm.taskid = sys.taskId c (j : Nat) := by
  obtain ⟨c, hc⟩ := h.mem_tasks (h.mem_submitted htm)
  obtain ⟨t, ht, he⟩ := mem_cores.1 hc
  obtain ⟨j, hj, hid⟩ := MatrixZht.mem_tasks ht
  exact ⟨c, j, hj, (congrArg TaskMsg.taskid he).symm.trans hid⟩

end State

theorem three_lt_bound : 3 < 2 ^ 63 := by decide

end MatrixZht
