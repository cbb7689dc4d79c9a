import MatrixZht.Cluster.Exact

namespace MatrixZht
open Lib

/-- A scheduler that has at most tasks whose records do not show them ready. -/
structure Sched.Idle (store : Store) (s : Sched) : Prop where
  inbox : s.inbox = []
  serving : s.serving.tasks = []
  localQueue : s.localQueue = []
  wsQueue : s.wsQueue = []
  thief : s.thief.tasks = []
  migrated : s.migrated = []
  exec : s.exec = []
  completeQueue : s.completeQueue = []
  notify : s.notify = .idle
  waiting : ∀ tm ∈ s.waitQueue ++ s.check.tasks, ∀ value,
    strToValue (store.lookup tm.taskid) = some value → value.indegree.getD 0 ≠ 0

instance (store : Store) (s : Sched) : Decidable (s.Idle store) :=
  decidable_of_iff (s.inbox = [] ∧ s.serving.tasks = [] ∧ s.localQueue = [] ∧ s.wsQueue = [] ∧
    s.thief.tasks = [] ∧ s.migrated = [] ∧ s.exec = [] ∧ s.completeQueue = [] ∧ s.notify = .idle ∧
    ∀ tm ∈ s.waitQueue ++ s.check.tasks, ∀ value ∈ strToValue (store.lookup tm.taskid),
      value.indegree.getD 0 ≠ 0)
    ⟨fun ⟨h₁, h₂, h₃, h₄, h₅, h₆, h₇, h₈, h₉, h⟩ => ⟨h₁, h₂, h₃, h₄, h₅, h₆, h₇, h₈, h₉, h⟩,
      fun ⟨h₁, h₂, h₃, h₄, h₅, h₆, h₇, h₈, h₉, h⟩ => ⟨h₁, h₂, h₃, h₄, h₅, h₆, h₇, h₈, h₉, h⟩⟩

/-- The schedulers are idle and no client is in the middle of its submissions. -/
structure State.Quiescent {n m : Nat} (st : State n m) : Prop where
  idle : ∀ i, (st.sched i).Idle st.store
  sent : ∀ c p todo, st.client c ≠ .sending (p :: todo)

/-- In every run without faults, once nothing goes on any more, every task that has been handed
over has been run. -/
def System.NeverStuck {n m : Nat} (sys : System n m) : Prop :=
  ∀ (acts : List (Act n m)) (st : State n m),
    (∀ a ∈ acts, a.connected = true ∧ a.accepted = true) →
    runActs (State.step sys) (State.start n m) acts = some st → st.Quiescent →
    (∀ c, st.client c = .sending [] → ∀ k : Nat, k < (sys.client c).numTask →
      ∃ e ∈ st.executed, e.2.taskid = sys.taskId c k) ∧
    ∀ i, (st.sched i).waitQueue = []

namespace State

variable {n m : Nat} {sys : System n m} {st : State n m} {c : Fin m} {k : Int} {adj : AdjList}

theorem Quiescent.held (h : st.Quiescent) (i : Fin n) :
    (st.sched i).held = (st.sched i).waitQueue ++ (st.sched i).check.tasks := by
  have hi := h.idle i
  simp [Sched.held, hi.inbox, hi.serving, hi.localQueue, hi.wsQueue, hi.thief, hi.migrated, hi.exec]

theorem Quiescent.owed (h : st.Quiescent) (i : Fin n) : (st.sched i).owed sys (sys.id i) = 0 := by
  simp [Sched.owed, (h.idle i).completeQueue, (h.idle i).notify, Notify.edges]

theorem Quiescent.landed (h : st.Quiescent) (hled : st.Ledger sys) {e : Fin n × TaskMsg}
    (he : e ∈ st.executed) {child : Str} (hchild : child ∈ sys.kids e.2.taskid) :
    e.2.taskid ∈ (landedOn st.landed child).map (·.cqItem.taskId) := by
  have hmem : (⟨sys.id e.1, e.2.taskid, child⟩ : Edge) ∈
      (st.landed.map Landing.edge : Multiset Edge) := by
    have hbal := hled.balance
    rw [Finset.sum_eq_zero fun i _ => h.owed i, add_zero] at hbal
    rw [hbal, Multiset.mem_bind]
    exact ⟨e, Multiset.mem_coe.2 he, Multiset.mem_coe.2 (List.mem_map_of_mem hchild)⟩
  obtain ⟨l, hl, hedge⟩ := List.mem_map.1 (Multiset.mem_coe.1 hmem)
  refine List.mem_map.2 ⟨l, List.mem_filter.2 ⟨hl, ?_⟩, congrArg Edge.parent hedge⟩
  exact decide_eq_true (congrArg Edge.child hedge)

theorem Quiescent.indegree_eq_zero (h : st.Quiescent) (hst : st.Sound sys) (hd : sys.Distinct)
    (hadj : (sys.client c).adjList = some adj) (hk : k ∈ adj)
    {todo : List (Fin n × List TaskMsg)} (hc : st.client c = .sending todo)
    (hparents : ∀ p ∈ adj.parents k, ∃ e ∈ st.executed, e.2.taskid = sys.taskId c p) :
    ∃ value, strToValue (st.store.lookup (sys.taskId c k)) = some value ∧
      value.indegree.getD 0 = 0 := by
  have hins := hst.exact.inserted c k ⟨adj, hadj, hk⟩
  rw [hc] at hins
  obtain ⟨text, htext⟩ := Option.isSome_iff_exists.1 hins
  obtain ⟨adj', time, hadj', _, hval⟩ :=
    (hst.exact.record c k todo text hc ⟨adj, hadj, hk⟩ htext).strToValue_eq
  rw [hadj] at hadj'
  cases hadj'
  refine ⟨_, by rw [Store.lookup_eq htext, hval], ?_⟩
  have hsub : (adj.parents k).map (sys.taskId c) ⊆
      (landedOn st.landed (sys.taskId c k)).map (·.cqItem.taskId) := by
    intro t ht
    obtain ⟨p, hp, rfl⟩ := List.mem_map.1 ht
    obtain ⟨e, he, hte⟩ := hparents p hp
    obtain ⟨hpadj, hkp⟩ := AdjList.mem_parents.1 hp
    rw [← hte]
    refine h.landed hst.ledger he ?_
    rw [hte, System.kids_taskId hd hadj hpadj]
    exact List.mem_map_of_mem hkp
  have hnodup : ((adj.parents k).map (sys.taskId c)).Nodup :=
    (adj.nodup_parents k).map (taskId_injective _)
  have hle : (adj.parents k).length ≤ (landedOn st.landed (sys.taskId c k)).length := by
    simpa using (hnodup.subperm hsub).length_le
  have hperm := hst.ledger.perm_parents hd (hst.conserved.nodup_executed hd) hadj hk
    (List.Sublist.refl _) hle
  have hlen := hperm.length_eq
  simp only [List.length_map] at hlen
  simp [recordOf, hlen]

theorem Quiescent.executed_or_waiting (h : st.Quiescent) (hcons : st.Conserved sys)
    (hlost : st.lost = []) {t : TaskMsg} (ht : t ∈ cores st.submitted) :
    (∃ e ∈ st.executed, e.2.taskid = t.taskid) ∨
      ∃ i, ∃ tm ∈ (st.sched i).waitQueue ++ (st.sched i).check.tasks, tm.taskid = t.taskid := by
  have hplaced := hcons.placed
  rw [hlost, cores_nil, add_zero] at hplaced
  rw [← hplaced, places, Multiset.mem_add] at ht
  rcases ht with ht | ht
  · obtain ⟨i, _, ht⟩ := Multiset.mem_sum.1 ht
    obtain ⟨tm, htm, rfl⟩ := mem_cores.1 ht
    exact .inr ⟨i, tm, h.held i ▸ htm, rfl⟩
  · obtain ⟨tm, htm, rfl⟩ := mem_cores.1 ht
    obtain ⟨e, he, rfl⟩ := List.mem_map.1 htm
    exact .inl ⟨e, he, rfl⟩

theorem Quiescent.mem_submitted (h : st.Quiescent) (hcons : st.Conserved sys) (hd : sys.Distinct)
    (hrefused : st.refused = []) (hc : st.client c = .sending []) {tm : TaskMsg}
    (htm : tm ∈ (sys.client c).tasks) : tm.core ∈ cores st.submitted := by
  have hall : tm.core ∈ ∑ d, cores (sys.client d).tasks :=
    Multiset.mem_sum.2 ⟨c, Finset.mem_univ c, mem_cores.2 ⟨tm, htm, rfl⟩⟩
  rw [← hcons.sent, hrefused, cores_nil, add_zero, Multiset.mem_add] at hall
  refine hall.resolve_right fun hun => ?_
  obtain ⟨d, _, hun⟩ := Multiset.mem_sum.1 hun
  -- what is unsent belongs to a client that has not begun
  have hphase : (sys.client d).unsent (st.client d) = 0 ∨
      (sys.client d).unsent (st.client d) = cores (sys.client d).tasks ∧ d ≠ c := by
    cases hph : st.client d with
    | sending todo =>
      cases todo with
      | nil => exact .inl rfl
      | cons p todo => exact absurd hph (h.sent d p todo)
    | _ =>
      refine .inr ⟨rfl, ?_⟩
      rintro rfl
      rw [hc] at hph
      cases hph
  rcases hphase with hzero | ⟨heq, hne⟩
  · rw [hzero] at hun
    exact Multiset.notMem_zero _ hun
  · rw [heq] at hun
    obtain ⟨tm', htm', he⟩ := mem_cores.1 hun
    have hid : tm'.core.taskid = tm.core.taskid := congrArg TaskMsg.taskid he
    exact hne (hd.client_eq htm' htm hid)

theorem Quiescent.not_waiting (h : st.Quiescent) (hst : st.Sound sys) (hd : sys.Distinct)
    (hdag : 1 ≤ (sys.client c).dagArg) {todo : List (Fin n × List TaskMsg)}
    (hc : st.client c = .sending todo) {k : Nat} (hk : k < (sys.client c).numTask)
    (hpred : ∀ j < k, ∃ e ∈ st.executed, e.2.taskid = sys.taskId c (j : Nat)) {i : Fin n}
    {tm : TaskMsg} (htm : tm ∈ (st.sched i).waitQueue ++ (st.sched i).check.tasks) :
    tm.taskid ≠ sys.taskId c k := by
  intro hid
  obtain ⟨adj, hadj⟩ := Option.isSome_iff_exists.1 (hst.exact.begun c (by rw [hc]; nofun))
  have hmem {p : Int} : p ∈ adj ↔ ∃ j < (sys.client c).numTask, p = (j : Nat) :=
    mem_genDagAdjlist hadj hdag (by omega)
  have hparents : ∀ p ∈ adj.parents k, ∃ e ∈ st.executed, e.2.taskid = sys.taskId c p := by
    intro p hp
    have hlt := (genDagAdjlist_ok hadj).lt_of_mem_parents hp
    obtain ⟨j, _, rfl⟩ := hmem.1 (AdjList.mem_parents.1 hp).1
    exact hpred j (by omega)
  obtain ⟨value, hval, hzero⟩ := h.indegree_eq_zero hst hd hadj (hmem.2 ⟨k, hk, rfl⟩) hc hparents
  exact (h.idle i).waiting tm htm value (hid ▸ hval) hzero

/-- All tasks of a client that is done have been run, by induction on their numbers. -/
theorem Quiescent.executed (h : st.Quiescent) (hst : st.Sound sys) (hd : sys.Distinct)
    (hdag : 1 ≤ (sys.client c).dagArg) (hlost : st.lost = []) (hrefused : st.refused = [])
    (hc : st.client c = .sending []) {k : Nat} (hk : k < (sys.client c).numTask) :
    ∃ e ∈ st.executed, e.2.taskid = sys.taskId c k := by
  induction k using Nat.strong_induction_on with
  | _ k ih =>
    obtain ⟨tasks, htasks⟩ := Option.isSome_iff_exists.1 (hst.exact.initTask c [] hc)
    have hmem : sys.taskId c k ∈ tasks.map TaskMsg.taskid := by
      rw [map_taskid_initTask htasks]
      exact List.mem_map.2 ⟨k, List.mem_range.2 hk, rfl⟩
    obtain ⟨tm, htm, hid⟩ := List.mem_map.1 hmem
    have htask : tm ∈ (sys.client c).tasks := by rwa [ClientConf.tasks, htasks, Option.getD_some]
    rcases h.executed_or_waiting hst.conserved hlost
      (h.mem_submitted hst.conserved hd hrefused hc htask) with ⟨e, he, hte⟩ | ⟨i, tm', htm', hid'⟩
    · exact ⟨e, he, hte.trans hid⟩
    · exact absurd (hid'.trans hid)
        (h.not_waiting hst hd hdag hc hk (fun j hj => ih j hj (by omega)) htm')

end State

/-- No run gets stuck with tasks that have not been run. -/
theorem neverStuck {n m : Nat} (sys : System n m) (hclean : sys.Clean) (hd : sys.Distinct)
    (hdag : ∀ c, 1 ≤ (sys.client c).dagArg) (hid : ∀ i, IsItem (sys.id i))
    (hf : ∀ i, sys.Foreign (sys.id i)) : sys.NeverStuck := by
  intro acts st hacts hrun hq
  have hst := State.sound_run hclean hd hid (fun a _ => a.apart_of_foreign hf) hrun
  have hlost := State.lost_run (fun a ha => (hacts a ha).1) hrun
  have hrefused := State.refused_run (fun a ha => (hacts a ha).2) hrun
  have hexec {c : Fin m} (hc : st.client c = .sending []) (k : Nat)
      (hk : k < (sys.client c).numTask) : ∃ e ∈ st.executed, e.2.taskid = sys.taskId c k :=
    hq.executed hst hd (hdag c) hlost hrefused hc hk
  refine ⟨fun c hc => hexec hc, fun i => ?_⟩
  rw [List.eq_nil_iff_forall_not_mem]
  intro tm htm
  have hwait : tm ∈ (st.sched i).waitQueue ++ (st.sched i).check.tasks := List.mem_append_left _ htm
  have hheld : tm ∈ (st.sched i).held := hq.held i ▸ hwait
  obtain ⟨c, j, hj, hidj⟩ := hst.conserved.exists_task hheld
  obtain ⟨todo, hc⟩ := hst.conserved.sending hd (hst.conserved.mem_submitted hheld)
    (.inl ⟨j, hj, rfl⟩) hidj
  cases todo with
  | nil => exact hq.not_waiting hst hd (hdag c) hc hj (fun k hk => hexec hc k (by omega)) hwait hidj
  | cons p todo => exact hq.sent c p todo hc

/-- After the run nothing goes on any more, and `P` holds. -/
def restsAfter (sys : System 1 1) (acts : List (Act 1 1)) (P : State 1 1 → Bool) : Bool :=
  (runActs (State.step sys) (State.start 1 1) acts).any fun st =>
    (st.sched 0).Idle st.store ∧ st.client 0 = .sending [] ∧ P st

theorem exists_of_restsAfter {sys : System 1 1} {acts : List (Act 1 1)} {P : State 1 1 → Bool}
    (h : restsAfter sys acts P = true) :
    ∃ st, runActs (State.step sys) (State.start 1 1) acts = some st ∧ st.Quiescent ∧
      st.client 0 = .sending [] ∧ P st = true := by
  obtain ⟨st, hrun, h⟩ := (Option.any_eq_true _ _).1 h
  obtain ⟨hidle, hc, hP⟩ := of_decide_eq_true h
  refine ⟨st, hrun, ⟨fun i => ?_, fun c p todo hp => ?_⟩, hc, hP⟩
  · rw [Subsingleton.elim i 0]
    exact hidle
  · rw [Subsingleton.elim c 0, hc] at hp
    cases hp

theorem neverStuck_chain :
    ∃ st, runActs (State.step chainSystem) (State.start 1 1)
        (chainRun ++ (checkRun ++ execRun 1 0)) = some st ∧
      st.Quiescent ∧ (∃ e ∈ st.executed, e.2.taskid = chainSystem.taskId 0 (1 : Nat)) ∧
      (st.sched 0).waitQueue = [] := by
  have hrest : restsAfter chainSystem (chainRun ++ (checkRun ++ execRun 1 0))
      (fun _ => true) = true := by
    decide +kernel
  obtain ⟨st, hrun, hq, hc, _⟩ := exists_of_restsAfter hrest
  obtain ⟨hexec, hwait⟩ := neverStuck chainSystem (by decide +kernel)
    (distinct_of_single chainSystem) (by decide) (by decide) foreign_chainSystem _ st
    (by decide +kernel) hrun hq
  exact ⟨st, hrun, hq, hexec 0 hc 1 (by decide), hwait 0⟩

theorem not_neverStuck {id : Str} {conf : ClientConf} (acts : List (Act 1 1)) (k : Nat)
    (hk : k < conf.numTask) (hacts : ∀ a ∈ acts, a.connected = true ∧ a.accepted = true)
    (hrest : restsAfter (soloSystem id conf) acts (fun st =>
      ∀ e ∈ st.executed, e.2.taskid ≠ taskId conf.index k) = true) :
    ¬ (soloSystem id conf).NeverStuck := by
  intro h
  obtain ⟨st, hrun, hq, hc, hnot⟩ := exists_of_restsAfter hrest
  obtain ⟨e, he, hid⟩ := (h acts st hacts hrun hq).1 0 hc k hk
  exact of_decide_eq_true hnot e he hid

/-- A client with three tasks in a row. -/
def rowConf : ClientConf where
  index := 0
  dagType := .fanOut
  dagArg := 1
  numTask := 3
  numTask_lt := three_lt_bound
  taskVec := ["u d a".toList, "u d b".toList, "u d c".toList]
  submitMode := .worstcase

/-- The doubled task takes the place of the second one, the status of a scheduler replaces the
record of the task whose id it has, and an id with field separators hides the children. -/
theorem not_neverStuck_of_names :
    (let sys := soloSystem "s".toList doubledConf; sys.Distinct ∧ ¬ sys.NeverStuck) ∧
      (let sys := soloSystem "00".toList chainConf; sys.Distinct ∧ ¬ sys.NeverStuck) ∧
      (let sys := soloSystem "a~nochildren~x~0~0".toList rowConf;
        sys.Distinct ∧ ¬ sys.NeverStuck) := by
  refine ⟨⟨distinct_of_single _, ?_⟩, ⟨distinct_of_single _, ?_⟩, ⟨distinct_of_single _, ?_⟩⟩
  · exact not_neverStuck (loadRun (soloSystem "s".toList doubledConf) ++
      (checkRun ++ execRun 0 0) ++ (checkRun ++ execRun 0 0)) 1 (by decide) (by decide +kernel)
      (by decide +kernel)
  · exact not_neverStuck (loadRun (soloSystem "00".toList chainConf) ++
      [.sched 0 (.recordStat ⟨0, 0, 0, 0⟩)] ++ (checkRun ++ execRun 0 0)) 1 (by decide)
      (by decide +kernel) (by decide +kernel)
  · exact not_neverStuck (loadRun (soloSystem "a~nochildren~x~0~0".toList rowConf) ++
      (checkRun ++ execRun 0 1) ++ (checkRun ++ execRun 1 0)) 2 (by decide) (by decide +kernel)
      (by decide +kernel)

end MatrixZht
