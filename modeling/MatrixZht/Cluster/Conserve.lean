import Mathlib.Algebra.BigOperators.Fin
import MatrixZht.Cluster.Steps

namespace MatrixZht
open Lib

/-- The tasks of a client. -/
def ClientConf.tasks (conf : ClientConf) : List TaskMsg := conf.initTask.getD []

/-- The tasks that a client has not sent yet. -/
def ClientConf.unsent {n : Nat} (conf : ClientConf) : ClientPhase n → Multiset TaskMsg
  | .sending todo => cores (todo.flatMap Prod.snd)
  | _ => cores conf.tasks

section Tasks

variable {conf : ClientConf}

theorem taskId_injective (index : Int) : Function.Injective (taskId index) :=
  fun _ _ h => decimal_injective (List.append_cancel_left h)

theorem map_taskid_initTask {tasks : List TaskMsg} (h : conf.initTask = some tasks) :
    tasks.map TaskMsg.taskid =
      (List.range conf.numTask).map fun i : Nat => taskId conf.index i := by
  rw [ClientConf.initTask] at h
  generalize List.range conf.numTask = is at h ⊢
  induction is generalizing tasks with
  | nil =>
    cases h
    rfl
  | cons i is ih =>
    rw [List.mapM_cons] at h
    simp only [Option.bind_eq_bind, Option.bind_eq_some_iff, Option.pure_def,
      Option.some.injEq] at h
    obtain ⟨tm, ⟨line, _, htm⟩, rest, hrest, rfl⟩ := h
    rw [List.map_cons, List.map_cons, ih hrest, taskid_of_readTask htm]

theorem nodup_taskid_tasks : (conf.tasks.map TaskMsg.taskid).Nodup := by
  rw [ClientConf.tasks]
  cases h : conf.initTask with
  | none => exact List.nodup_nil
  | some tasks =>
    rw [Option.getD_some, map_taskid_initTask h]
    exact List.nodup_range.map fun a b hab => by
      have := taskId_injective conf.index hab
      omega

theorem mem_tasks {tm : TaskMsg} (h : tm ∈ conf.tasks) :
    ∃ i < conf.numTask, tm.taskid = taskId conf.index (i : Nat) := by
  rw [ClientConf.tasks] at h
  cases hinit : conf.initTask with
  | none => simp [hinit] at h
  | some tasks =>
    rw [hinit, Option.getD_some] at h
    have hmem := List.mem_map_of_mem (f := TaskMsg.taskid) h
    rw [map_taskid_initTask hinit] at hmem
    obtain ⟨i, hi, he⟩ := List.mem_map.1 hmem
    exact ⟨i, List.mem_range.1 hi, he.symm⟩

end Tasks

section Submissions

variable {n : Nat} {conf : ClientConf}

theorem sum_cores_interleaved (hn : 0 < n) (l : List (TaskMsg × Nat)) :
    ∑ j : Fin n, cores ((l.filter fun p => p.2 % n = j).map Prod.fst) = cores (l.map Prod.fst) := by
  induction l with
  | nil => simp
  | cons p l ih =>
    have hcons (j : Fin n) : cores (((p :: l).filter fun p => p.2 % n = j).map Prod.fst) =
        (if (⟨p.2 % n, Nat.mod_lt _ hn⟩ : Fin n) = j then {p.1.core} else 0) +
          cores ((l.filter fun p => p.2 % n = j).map Prod.fst) := by
      by_cases hj : p.2 % n = j
      · simp [hj]
      · have hne : (⟨p.2 % n, Nat.mod_lt _ hn⟩ : Fin n) ≠ j := fun h => hj (congrArg Fin.val h)
        simp [hj, hne]
    simp only [hcons, Finset.sum_add_distrib, ih, Finset.sum_ite_eq, Finset.mem_univ, if_true,
      List.map_cons, cores_cons]

theorem cores_flatMap {α : Type} (l : List α) (f : α → List TaskMsg) :
    cores (l.flatMap f) = (l.map fun x => cores (f x)).sum := by
  induction l with
  | nil => rfl
  | cons x l ih => simp [ih]

theorem cores_submissions {scheIdx : Fin n} {tasks : List TaskMsg}
    {todo : List (Fin n × List TaskMsg)} (h : conf.submissions scheIdx tasks = some todo) :
    cores (todo.flatMap Prod.snd) = cores tasks := by
  unfold ClientConf.submissions at h
  split at h
  · rw [Option.ite_none_right_eq_some] at h
    cases h.2
    have hsum := sum_cores_interleaved (Fin.pos scheIdx) tasks.zipIdx
    rw [List.zipIdx_map_fst, Fin.sum_univ_def] at hsum
    rw [cores_flatMap, List.map_map]
    exact hsum
  · cases h
    simp

end Submissions

namespace State

variable {n m : Nat} {sys : System n m} {st st' : State n m} {i j : Fin n} {s : Sched}

/-- The disjoint union of all places where a task can be, the tasks already run included. -/
def places (st : State n m) : Multiset TaskMsg :=
  ∑ i, cores (st.sched i).held + cores (st.executed.map Prod.snd)

/-- Tasks are neither created nor forgotten, apart from those lost with a connection. -/
structure Conserved (sys : System n m) (st : State n m) : Prop where
  placed : st.places + cores st.lost = cores st.submitted
  sent : cores st.submitted + cores st.refused +
    ∑ c, (sys.client c).unsent (st.client c) = ∑ c, cores (sys.client c).tasks

theorem sum_held_update {x y : Multiset TaskMsg}
    (h : cores s.held + x = cores (st.sched i).held + y) :
    ∑ j, cores (Function.update st.sched i s j).held + x = ∑ j, cores (st.sched j).held + y := by
  refine sum_add_eq_sum_add i (fun j hj => ?_) ?_
  · rw [Function.update_of_ne hj]
  · rwa [Function.update_self]

theorem sum_unsent_update {c : Fin m} {phase : ClientPhase n} {x y : Multiset TaskMsg}
    (h : (sys.client c).unsent phase + x = (sys.client c).unsent (st.client c) + y) :
    ∑ d, (sys.client d).unsent (Function.update st.client c phase d) + x =
      ∑ d, (sys.client d).unsent (st.client d) + y := by
  refine sum_add_eq_sum_add c (fun d hd => ?_) ?_
  · rw [Function.update_of_ne hd]
  · rwa [Function.update_self]

theorem mem_places {tm : TaskMsg} (h : tm ∈ (st.sched i).held) : tm.core ∈ st.places := by
  rw [places, Multiset.mem_add, Multiset.mem_sum]
  exact .inl ⟨i, Finset.mem_univ i, mem_cores.2 ⟨tm, h, rfl⟩⟩

theorem Conserved.mem_tasks (h : st.Conserved sys) {t : TaskMsg} (ht : t ∈ cores st.submitted) :
    ∃ c, t ∈ cores (sys.client c).tasks := by
  have hall : t ∈ ∑ c, cores (sys.client c).tasks := by
    rw [← h.sent, Multiset.mem_add, Multiset.mem_add]
    exact .inl (.inl ht)
  obtain ⟨c, _, hc⟩ := Multiset.mem_sum.1 hall
  exact ⟨c, hc⟩

theorem Conserved.mem_submitted (h : st.Conserved sys) {tm : TaskMsg}
    (ht : tm ∈ (st.sched i).held) : tm.core ∈ cores st.submitted := by
  rw [← h.placed, Multiset.mem_add]
  exact .inl (mem_places ht)

theorem Conserved.clean (h : st.Conserved sys)
    (hclean : ∀ c, ∀ tm ∈ (sys.client c).tasks, tm.Clean) (i : Fin n) :
    ∀ tm ∈ (st.sched i).held, tm.Clean := by
  intro tm ht
  obtain ⟨c, hc⟩ := h.mem_tasks (h.mem_submitted ht)
  obtain ⟨t, htask, he⟩ := mem_cores.1 hc
  rw [← clean_core, ← he]
  exact hclean c t htask

theorem sum_held_setSched {x y : Multiset TaskMsg}
    (h : cores s.held + x = cores (st.sched i).held + y) :
    ∑ j, cores ((st.setSched i s).sched j).held + x = ∑ j, cores (st.sched j).held + y :=
  sum_held_update h

/-- A step by which schedulers move tasks and lose some of them. -/
theorem Conserved.of_lost (h : st.Conserved sys) (tasks : List TaskMsg)
    (hheld : ∑ i, cores (st'.sched i).held + cores tasks = ∑ i, cores (st.sched i).held)
    (hlost : st'.lost = st.lost ++ tasks) (hexec : st'.executed = st.executed)
    (hsub : st'.submitted = st.submitted) (href : st'.refused = st.refused)
    (hclient : st'.client = st.client) : st'.Conserved sys where
  placed := by
    have hp := h.placed
    unfold places at hp ⊢
    rw [hlost, hexec, hsub, ← hp, ← hheld, cores_append]
    abel
  sent := by
    rw [hsub, href, hclient]
    exact h.sent

theorem Conserved.setSched (h : st.Conserved sys)
    (hs : cores s.held = cores (st.sched i).held) : (st.setSched i s).Conserved sys :=
  h.of_lost [] ((sum_held_setSched (congrArg (· + 0) hs)).trans (add_zero _))
    (List.append_nil _).symm rfl rfl rfl rfl

theorem Conserved.apply (h : st.Conserved sys) {eff : Effect}
    (hs : cores eff.sched.held + cores eff.executed = cores (st.sched i).held) :
    (st.apply i eff).Conserved sys where
  placed := by
    have hsum := sum_held_update (y := 0) (hs.trans (add_zero _).symm)
    rw [add_zero] at hsum
    have hexec : (eff.executed.map (i, ·)).map Prod.snd = eff.executed := by simp
    have hp := h.placed
    unfold places at hp ⊢
    rw [← hsum] at hp
    simp only [State.apply, List.map_append, cores_append, hexec]
    rw [← hp]
    abel
  sent := h.sent

theorem Conserved.setClient (h : st.Conserved sys) {c : Fin m} {phase : ClientPhase n}
    {store : Store} (hc : (sys.client c).unsent phase = (sys.client c).unsent (st.client c)) :
    ({ st.setClient c phase with store } : State n m).Conserved sys where
  placed := h.placed
  sent := by
    have hsum := sum_unsent_update (x := 0) (y := 0) (congrArg (· + 0) hc)
    rw [add_zero, add_zero] at hsum
    have hp := h.sent
    rwa [← hsum] at hp

theorem unsent_next {conf : ClientConf} {store store' : Store} {phase phase' : ClientPhase n}
    (h : ClientNext conf store phase store' phase') : conf.unsent phase' = conf.unsent phase := by
  cases h with
  | send htasks htodo =>
    simp only [ClientConf.unsent, cores_submissions htodo, ClientConf.tasks, htasks,
      Option.getD_some]
  | _ => rfl

theorem held_giveHalf {config : Config} {s s' : Sched} {ks : List Nat} {taskVec : List TaskMsg}
    (h : s.giveHalf config ks = some (taskVec, s')) :
    cores s'.held + cores taskVec = cores s.held := by
  obtain ⟨wsQueue, hperm, rfl⟩ := Sched.giveHalf_spec h
  have hcores := cores_perm hperm
  rw [cores_append] at hcores
  simp only [Sched.cores_held, hcores]
  abel

theorem held_setThief (hi : (st.sched i).thief.tasks = []) (thief : Thief) :
    ∑ k, cores ((st.setThief i thief).sched k).held =
      ∑ k, cores (st.sched k).held + cores thief.tasks := by
  have hown : cores ({ st.sched i with thief } : Sched).held + 0 =
      cores (st.sched i).held + cores thief.tasks := by
    simp only [Sched.cores_held, hi, cores_nil]
    abel
  have hsum := sum_held_setSched hown
  rwa [add_zero] at hsum

theorem sum_held_steal {ks : List Nat} {taskVec : List TaskMsg}
    (h : st.takeFrom sys i j ks = some (taskVec, st')) (thief : Thief) :
    ∑ k, cores ((st'.setThief i thief).sched k).held + cores taskVec =
      ∑ k, cores (st.sched k).held + cores thief.tasks := by
  obtain ⟨hthief, hne, s, hgive, rfl⟩ := takeFrom_spec h
  have hi : ((st.setSched j s).sched i).thief.tasks = [] := by
    rw [setSched_of_ne hne, hthief]
    rfl
  have hvictim : ∑ k, cores ((st.setSched j s).sched k).held + cores taskVec =
      ∑ k, cores (st.sched k).held + 0 :=
    sum_held_setSched ((held_giveHalf hgive).trans (add_zero _).symm)
  rw [add_zero] at hvictim
  rw [held_setThief hi, ← hvictim]
  abel

theorem held_setCheck {tm : TaskMsg} (hi : (st.sched i).check.tasks = [tm]) :
    ∑ k, cores ((st.setCheck i .idle).sched k).held + cores [tm] =
      ∑ k, cores (st.sched k).held := by
  have hown : cores ({ st.sched i with check := .idle } : Sched).held + cores [tm] =
      cores (st.sched i).held + 0 := by
    rw [Sched.cores_held, Sched.cores_held, hi]
    simp only [Check.tasks, cores_nil]
    abel
  have hsum := sum_held_setSched hown
  rwa [add_zero] at hsum

theorem sum_unsent_sending {c : Fin m} {tasks : List TaskMsg}
    {todo : List (Fin n × List TaskMsg)} (hc : st.client c = .sending ((j, tasks) :: todo)) :
    ∑ d, (sys.client d).unsent (Function.update st.client c (.sending todo) d) + cores tasks =
      ∑ d, (sys.client d).unsent (st.client d) := by
  have hphase : (sys.client c).unsent (.sending todo) + cores tasks =
      (sys.client c).unsent (st.client c) + 0 := by
    rw [hc]
    simp only [ClientConf.unsent, List.flatMap_cons, cores_append]
    abel
  have hsum := sum_unsent_update hphase
  rwa [add_zero] at hsum

theorem Conserved.submit (h : st.Conserved sys) {c : Fin m} {tasks : List TaskMsg}
    {todo : List (Fin n × List TaskMsg)} (hc : st.client c = .sending ((j, tasks) :: todo)) :
    (st.deliver c j tasks todo).Conserved sys where
  placed := by
    have hinbox : cores ({ st.sched j with inbox := (st.sched j).inbox ++ [tasks] } : Sched).held +
        0 = cores (st.sched j).held + cores tasks := by
      simp only [Sched.cores_held, List.flatten_append, cores_append, List.flatten_cons,
        List.flatten_nil, cores_nil]
      abel
    have hsum := sum_held_update hinbox
    rw [add_zero] at hsum
    have hp := h.placed
    unfold places at hp ⊢
    simp only [deliver, State.setSched, State.setClient, cores_append]
    rw [hsum, ← hp]
    abel
  sent := by
    have hp := h.sent
    rw [← sum_unsent_sending hc] at hp
    simp only [deliver, State.setSched, State.setClient, cores_append]
    rw [← hp]
    abel

theorem Conserved.refuse (h : st.Conserved sys) {c : Fin m} {tasks : List TaskMsg}
    {todo : List (Fin n × List TaskMsg)} (hc : st.client c = .sending ((j, tasks) :: todo)) :
    ({ st.setClient c (.sending todo) with refused := st.refused ++ tasks } :
      State n m).Conserved sys where
  placed := h.placed
  sent := by
    have hp := h.sent
    rw [← sum_unsent_sending hc] at hp
    simp only [State.setClient, cores_append]
    rw [← hp]
    abel

theorem Conserved.step (h : st.Conserved sys)
    (hclean : ∀ c, ∀ tm ∈ (sys.client c).tasks, tm.Clean) {a : Act n m}
    (hs : st.step sys a = some st') : st'.Conserved sys := by
  cases a with
  | sched i a =>
    obtain ⟨eff, heff, rfl⟩ := Option.map_eq_some_iff.1 hs
    rw [Sched.step, Option.ite_none_right_eq_some] at heff
    exact h.apply (Sched.held_act (h.clean hclean i) heff.2)
  | client c scheIdx time =>
    obtain ⟨⟨store, phase⟩, hphase, rfl⟩ := Option.map_eq_some_iff.1 hs
    exact h.setClient (unsent_next (ClientPhase.next hphase))
  | submit c =>
    obtain ⟨⟨j, tasks, todo⟩, hnext, hs⟩ := Option.bind_eq_some_iff.1 hs
    rw [Option.ite_none_right_eq_some] at hs
    cases hs.2
    exact h.submit (nextSubmission_spec hnext)
  | refuse c =>
    obtain ⟨⟨j, tasks, todo⟩, hnext, rfl⟩ := Option.map_eq_some_iff.1 hs
    exact h.refuse (nextSubmission_spec hnext)
  | ask i j =>
    simp only [State.step, stepAsk, Option.ite_none_right_eq_some] at hs
    obtain ⟨⟨_, hthief, _⟩, hs⟩ := hs
    cases hs
    exact h.setSched (by simp [Sched.cores_held, hthief, Thief.tasks])
  | steal i j ks =>
    obtain ⟨⟨taskVec, st₁⟩, htake, rfl⟩ := Option.map_eq_some_iff.1 hs
    have hsum := add_right_cancel (sum_held_steal htake (.batch taskVec))
    obtain ⟨_, _, s, _, rfl⟩ := takeFrom_spec htake
    exact h.of_lost [] ((add_zero _).trans hsum) (List.append_nil _).symm rfl rfl rfl
      rfl
  | stealFail i j ks =>
    obtain ⟨⟨taskVec, st₁⟩, htake, rfl⟩ := Option.map_eq_some_iff.1 hs
    have hsum := sum_held_steal htake .idle
    obtain ⟨_, _, s, _, rfl⟩ := takeFrom_spec htake
    exact h.of_lost taskVec (hsum.trans (add_zero _)) rfl rfl rfl rfl rfl
  | push i j =>
    obtain ⟨⟨tm, peer⟩, hpush, hs⟩ := Option.bind_eq_some_iff.1 hs
    have hcheck := pushing_spec hpush
    rw [Option.ite_none_right_eq_some] at hs
    obtain ⟨s, hrecv, rfl⟩ := Option.map_eq_some_iff.1 hs.2
    have htm : tm.Clean := h.clean hclean i tm (by simp [Sched.held, hcheck, Check.tasks])
    have hsend := held_setCheck (by rw [hcheck]; rfl : (st.sched i).check.tasks = [tm])
    have hrecv : cores s.held + 0 = cores ((st.setCheck i .idle).sched j).held + cores [tm] := by
      rw [Sched.recvPush_spec htm hrecv]
      simp only [Sched.cores_held, cores_append, cores_cons, core_reread]
      abel
    have hsum := sum_held_setSched hrecv
    rw [hsend] at hsum
    exact h.of_lost [] hsum (List.append_nil _).symm rfl rfl rfl rfl
  | pushFail i =>
    obtain ⟨⟨tm, peer⟩, hpush, rfl⟩ := Option.map_eq_some_iff.1 hs
    have hcheck := pushing_spec hpush
    have hsend := held_setCheck (by rw [hcheck]; rfl : (st.sched i).check.tasks = [tm])
    exact h.of_lost [tm] hsend rfl rfl rfl rfl rfl
  | fetch i e j reads =>
    obtain ⟨s, hfetch, rfl⟩ := Option.map_eq_some_iff.1 hs
    have hmoved : Moved (.any (sys.id i) st.store sys.config.cache) (st.sched i) s :=
      Sched.moved_fetchRemote rfl trivial hfetch
    exact h.setSched hmoved.held

theorem conserved_start (sys : System n m) : (start n m).Conserved sys where
  placed := by
    have hsum : ∑ i, cores ((start n m).sched i).held = 0 := Finset.sum_eq_zero fun _ _ => rfl
    rw [places, hsum]
    simp [start]
  sent := by
    simp [start, ClientConf.unsent]

end State

/-- The numbers of the tasks of a client and of the records it inserts. -/
def ClientConf.HasTask (conf : ClientConf) (k : Int) : Prop :=
  (∃ i < conf.numTask, k = (i : Nat)) ∨ ∃ adj, conf.adjList = some adj ∧ k ∈ adj

namespace System

variable {n m : Nat}

/-- Task ids are distinct, also those of different clients. -/
def Distinct (sys : System n m) : Prop :=
  ∀ c c' k k', (sys.client c).HasTask k → (sys.client c').HasTask k' →
    taskId (sys.client c).index k = taskId (sys.client c').index k' → c = c' ∧ k = k'

/-- The fields of the tasks hold no byte that the text formats reserve. -/
def Clean (sys : System n m) : Prop := ∀ c, ∀ tm ∈ (sys.client c).tasks, tm.Clean

instance (sys : System n m) : Decidable sys.Clean :=
  inferInstanceAs (Decidable (∀ c, ∀ tm ∈ (sys.client c).tasks, tm.Clean))

variable {sys : System n m}

theorem Distinct.client_eq (h : sys.Distinct) {c c' : Fin m} {tm tm' : TaskMsg}
    (ht : tm ∈ (sys.client c).tasks) (ht' : tm' ∈ (sys.client c').tasks)
    (he : tm.taskid = tm'.taskid) : c = c' := by
  obtain ⟨i, hi, hid⟩ := mem_tasks ht
  obtain ⟨i', hi', hid'⟩ := mem_tasks ht'
  exact (h c c' i i' (.inl ⟨i, hi, rfl⟩) (.inl ⟨i', hi', rfl⟩) (by rw [← hid, ← hid', he])).1

theorem Distinct.nodup (h : sys.Distinct) :
    ((∑ c, cores (sys.client c).tasks).map TaskMsg.taskid).Nodup := by
  have hmap : (∑ c, cores (sys.client c).tasks).map TaskMsg.taskid =
      ∑ c, (cores (sys.client c).tasks).map TaskMsg.taskid :=
    map_sum (Multiset.mapAddMonoidHom TaskMsg.taskid) _ _
  have hid (c : Fin m) : (cores (sys.client c).tasks).map TaskMsg.taskid =
      ((sys.client c).tasks.map TaskMsg.taskid : List Str) := by
    rw [cores, Multiset.map_coe, List.map_map]
    rfl
  rw [hmap, Multiset.nodup_iff_count_le_one]
  intro t
  rw [Multiset.count_sum']
  by_cases ht : ∃ c, t ∈ (cores (sys.client c).tasks).map TaskMsg.taskid
  · -- only one client has this id, and it has it once
    obtain ⟨c, hc⟩ := ht
    rw [Finset.sum_eq_single c]
    · rw [hid]
      exact Multiset.nodup_iff_count_le_one.1 (Multiset.coe_nodup.2 nodup_taskid_tasks) t
    · intro d _ hd
      rw [Multiset.count_eq_zero]
      intro hmem
      rw [hid, Multiset.mem_coe, List.mem_map] at hc hmem
      obtain ⟨tm, htm, rfl⟩ := hc
      obtain ⟨tm', htm', he⟩ := hmem
      exact hd (h.client_eq htm' htm he)
    · simp
  · rw [Finset.sum_eq_zero]
    · exact Nat.zero_le 1
    · intro c _
      exact Multiset.count_eq_zero.2 fun hc => ht ⟨c, hc⟩

end System

/-- The step is no failure of a connection between schedulers. -/
def Act.connected {n m : Nat} : Act n m → Bool
  | stealFail _ _ _ => false
  | pushFail _ => false
  | _ => true

/-- The step is no failure of a connection between a client and a scheduler. -/
def Act.accepted {n m : Nat} : Act n m → Bool
  | refuse _ => false
  | _ => true

namespace State

variable {n m : Nat} {sys : System n m} {st st' : State n m}

theorem faults_step {a : Act n m} (hs : st.step sys a = some st') :
    (a.connected = true → st'.lost = st.lost) ∧
      (a.accepted = true → st'.refused = st.refused) := by
  cases a with
  | sched i a =>
    obtain ⟨eff, _, rfl⟩ := Option.map_eq_some_iff.1 hs
    exact ⟨fun _ => rfl, fun _ => rfl⟩
  | client c scheIdx time =>
    obtain ⟨p, _, rfl⟩ := Option.map_eq_some_iff.1 hs
    exact ⟨fun _ => rfl, fun _ => rfl⟩
  | submit c =>
    obtain ⟨p, _, hs⟩ := Option.bind_eq_some_iff.1 hs
    rw [Option.ite_none_right_eq_some] at hs
    cases hs.2
    exact ⟨fun _ => rfl, fun _ => rfl⟩
  | refuse c =>
    obtain ⟨p, _, rfl⟩ := Option.map_eq_some_iff.1 hs
    exact ⟨fun _ => rfl, fun ha => absurd ha Bool.false_ne_true⟩
  | ask i j =>
    simp only [step, stepAsk, Option.ite_none_right_eq_some] at hs
    cases hs.2
    exact ⟨fun _ => rfl, fun _ => rfl⟩
  | steal i j ks =>
    obtain ⟨⟨taskVec, st₁⟩, htake, rfl⟩ := Option.map_eq_some_iff.1 hs
    obtain ⟨_, _, s, _, rfl⟩ := takeFrom_spec htake
    exact ⟨fun _ => rfl, fun _ => rfl⟩
  | stealFail i j ks =>
    obtain ⟨⟨taskVec, st₁⟩, htake, rfl⟩ := Option.map_eq_some_iff.1 hs
    obtain ⟨_, _, s, _, rfl⟩ := takeFrom_spec htake
    exact ⟨fun ha => absurd ha Bool.false_ne_true, fun _ => rfl⟩
  | push i j =>
    obtain ⟨p, _, hs⟩ := Option.bind_eq_some_iff.1 hs
    rw [Option.ite_none_right_eq_some] at hs
    obtain ⟨s, _, rfl⟩ := Option.map_eq_some_iff.1 hs.2
    exact ⟨fun _ => rfl, fun _ => rfl⟩
  | pushFail i =>
    obtain ⟨p, _, rfl⟩ := Option.map_eq_some_iff.1 hs
    exact ⟨fun ha => absurd ha Bool.false_ne_true, fun _ => rfl⟩
  | fetch i e j reads =>
    obtain ⟨s, _, rfl⟩ := Option.map_eq_some_iff.1 hs
    exact ⟨fun _ => rfl, fun _ => rfl⟩

theorem conserved_run {acts : List (Act n m)} (hclean : sys.Clean)
    (hrun : runActs (step sys) (start n m) acts = some st) : st.Conserved sys :=
  runActs_invariant (fun _ _ _ hs h => Conserved.step h hclean hs) hrun (conserved_start sys)

theorem lost_run {acts : List (Act n m)} (hacts : ∀ a ∈ acts, a.connected = true)
    (hrun : runActs (step sys) (start n m) acts = some st) : st.lost = [] :=
  runActs_preserves (P := fun st => st.lost = [])
    (fun _ _ _ ha hs h => ((faults_step hs).1 ha).trans h) hacts hrun rfl

theorem refused_run {acts : List (Act n m)} (hacts : ∀ a ∈ acts, a.accepted = true)
    (hrun : runActs (step sys) (start n m) acts = some st) : st.refused = [] :=
  runActs_preserves (P := fun st => st.refused = [])
    (fun _ _ _ ha hs h => ((faults_step hs).2 ha).trans h) hacts hrun rfl

theorem Conserved.nodup_submitted (h : st.Conserved sys) (hd : sys.Distinct) :
    ((cores st.submitted).map TaskMsg.taskid).Nodup := by
  refine Multiset.nodup_of_le (Multiset.map_le_map ?_) hd.nodup
  rw [← h.sent, add_assoc]
  exact Multiset.le_add_right _ _

theorem Conserved.sending (h : st.Conserved sys) (hd : sys.Distinct) {t : TaskMsg}
    (ht : t ∈ cores st.submitted) {c : Fin m} {k : Int} (hk : (sys.client c).HasTask k)
    (hid : t.taskid = taskId (sys.client c).index k) : ∃ todo, st.client c = .sending todo := by
  by_contra hphase
  have hunsent : (sys.client c).unsent (st.client c) = cores (sys.client c).tasks := by
    cases hc : st.client c with
    | sending todo => exact absurd ⟨todo, hc⟩ hphase
    | _ => rfl
  obtain ⟨d, htd⟩ := h.mem_tasks ht
  obtain ⟨tm, htm, he⟩ := mem_cores.1 htd
  obtain ⟨j, hj, hidj⟩ := MatrixZht.mem_tasks htm
  have hsame : tm.core.taskid = t.taskid := congrArg TaskMsg.taskid he
  obtain ⟨rfl, _⟩ := hd d c j k (.inl ⟨j, hj, rfl⟩) hk (hidj.symm.trans (hsame.trans hid))
  -- the task would be both sent and unsent
  have hnodup := hd.nodup
  rw [← h.sent, Multiset.map_add, Multiset.nodup_add] at hnodup
  have hleft : t.taskid ∈ (cores st.submitted + cores st.refused).map TaskMsg.taskid :=
    Multiset.mem_map_of_mem _ (Multiset.mem_add.2 (.inl ht))
  have hright : t.taskid ∈
      (∑ c, (sys.client c).unsent (st.client c)).map TaskMsg.taskid := by
    refine Multiset.mem_map_of_mem _ (Multiset.mem_sum.2 ⟨d, Finset.mem_univ d, ?_⟩)
    rwa [hunsent]
  exact Multiset.disjoint_left.1 hnodup.2.2 hleft hright

/-- No task is run twice. -/
theorem Conserved.nodup_executed (h : st.Conserved sys) (hd : sys.Distinct) :
    (st.executed.map fun p => p.2.taskid).Nodup := by
  have hle : (cores (st.executed.map Prod.snd)).map TaskMsg.taskid ≤
      (cores st.submitted).map TaskMsg.taskid := by
    refine Multiset.map_le_map ?_
    rw [← h.placed, places, add_assoc, add_left_comm]
    exact Multiset.le_add_right _ _
  have hexec : (cores (st.executed.map Prod.snd)).map TaskMsg.taskid =
      ((st.executed.map fun p => p.2.taskid : List Str) : Multiset Str) := by
    rw [cores, Multiset.map_coe, List.map_map, List.map_map]
    rfl
  rw [hexec] at hle
  exact Multiset.coe_nodup.1 (Multiset.nodup_of_le hle (h.nodup_submitted hd))

end State

/-- In every state of every run in which the connections between schedulers succeed, the places
together hold the submitted tasks, each of them once. -/
theorem run_places_eq_submitted {n m : Nat} (sys : System n m) (hclean : sys.Clean)
    (acts : List (Act n m)) (hacts : ∀ a ∈ acts, a.connected = true) (st : State n m)
    (hrun : runActs (State.step sys) (State.start n m) acts = some st) :
    st.places = cores st.submitted ∧
      (sys.Distinct → (st.places.map TaskMsg.taskid).Nodup ∧
        (st.executed.map fun p => p.2.taskid).Nodup) := by
  have h := State.conserved_run hclean hrun
  have heq : st.places = cores st.submitted := by
    have hp := h.placed
    rwa [State.lost_run hacts hrun, cores_nil, add_zero] at hp
  refine ⟨heq, fun hd => ?_⟩
  have hnodup : (st.places.map TaskMsg.taskid).Nodup := by
    rw [heq]
    exact h.nodup_submitted hd
  exact ⟨hnodup, h.nodup_executed hd⟩

theorem two_lt_bound : 2 < 2 ^ 63 := by decide

/-- Two schedulers and a client with two independent tasks. -/
def stealSystem : System 2 1 where
  config :=
    { numAllTask := 2
      maxTaskPerPkg := 1
      dataSizeThreshold := 0
      numCorePerExecutor := 1
      cache := false }
  id := fun i => if i = 0 then "s0".toList else "s1".toList
  client := fun _ =>
    { index := 0
      dagType := .bot
      dagArg := 1
      numTask := 2
      numTask_lt := two_lt_bound
      taskVec := ["u d a".toList, "u d b".toList]
      submitMode := .worstcase }

def stealTask (k : Nat) : TaskMsg :=
  ⟨taskId 0 k, "u".toList, "d".toList, if k = 0 then "a".toList else "b".toList, 0⟩

/-- The first scheduler gets both tasks, the second one steals the first of them and runs it. -/
def stealRun : List (Act 2 1) :=
  List.replicate 4 (.sched 0 .boot) ++ List.replicate 3 (.sched 1 .boot) ++ [.sched 0 .boot] ++
  List.replicate 9 (.client 0 0 7) ++
  [.submit 0,
    .sched 0 (.move (.accept
      [(batchStream stealSystem.config [stealTask 0, stealTask 1] "client".toList).getD []])),
    .sched 0 (.move .enqueue), .sched 0 (.move .enqueue), .sched 0 (.move .enqueue),
    .sched 0 .countReceived, .sched 0 .countReceived, .sched 0 .boot, .sched 1 .boot] ++
  (List.replicate 2 [.sched 0 (.move .popWaiting), .sched 0 (.move .lookupReady),
    .sched 0 (.move .processReady), .sched 0 (.move .putChecked)]).flatten ++
  [.ask 1 0, .steal 1 0 [0],
    .sched 1 (.move (.recvStolen
      [(batchStream stealSystem.config [stealTask 0] "scheduler".toList).getD []])),
    .sched 1 (.move .putStolen), .sched 1 (.move .putStolen), .sched 1 (.move (.popReady false 0)),
    .sched 1 (.move (.lookupExec 0)), .sched 1 (.move (.storeResult 0 "done".toList)),
    .sched 1 (.finish 0)]

theorem run_places_eq_submitted_steal :
    ∃ st, runActs (State.step stealSystem) (State.start 2 1) stealRun = some st ∧
      st.submitted = [stealTask 0, stealTask 1] ∧ st.executed = [(1, stealTask 0)] ∧
      (st.sched 0).wsQueue = [stealTask 1] ∧ st.places = cores st.submitted := by
  have hsome : (runActs (State.step stealSystem) (State.start 2 1) stealRun).any (fun st =>
      st.submitted = [stealTask 0, stealTask 1] ∧ st.executed = [(1, stealTask 0)] ∧
        (st.sched 0).wsQueue = [stealTask 1]) = true := by
    decide +kernel
  obtain ⟨st, hrun, hst⟩ := (Option.any_eq_true _ _).1 hsome
  obtain ⟨hsub, hexec, hws⟩ := of_decide_eq_true hst
  exact ⟨st, hrun, hsub, hexec, hws,
    (run_places_eq_submitted stealSystem (by decide +kernel) stealRun (by decide +kernel) st
      hrun).1⟩

end MatrixZht
