import MatrixZht.Cluster.Counters
import MatrixZht.Cluster.LocalQueue
import MatrixZht.Cluster.Quiescent

namespace MatrixZht
open Lib

/-- The connection that the step uses, if any, does not fail. -/
def Act.Faultless {n m : Nat} (a : Act n m) : Prop := a.connected = true ∧ a.accepted = true

/-- What the configuration and the workload files have to provide: schedulers and cores, packages
with tasks in them, a task and a line for each number, fewer tasks than an `int` can count, and
names for the schedulers that are used for nothing else. -/
structure System.Complete {n m : Nat} (sys : System n m) : Prop where
  clean : sys.Clean
  distinct : sys.Distinct
  id : ∀ i, IsItem (sys.id i)
  foreign : ∀ i, sys.Foreign (sys.id i)
  keys : ∀ i, sys.id i ∉ counterKeys
  pos : 0 < n
  bound : n < 2 ^ 31
  threshold : 0 ≤ sys.config.dataSizeThreshold
  cores : 0 < sys.config.numCorePerExecutor
  pkg : 1 ≤ sys.config.maxTaskPerPkg
  all : sys.config.numAllTask = ∑ c, ((sys.client c).tasks.length : Int)
  few : ∑ c, (sys.client c).tasks.length < 2 ^ 31 - 1
  graph : ∀ c, (sys.client c).adjList.isSome
  arg : ∀ c, 1 ≤ (sys.client c).dagArg
  workload : ∀ c, (sys.client c).initTask.isSome

theorem System.Complete.hasRecord {n m : Nat} {sys : System n m} (hsys : sys.Complete)
    {c : Fin m} {k : Nat} (hk : k < (sys.client c).numTask) : sys.HasRecord c k := by
  obtain ⟨adj, hadj⟩ := Option.isSome_iff_exists.1 (hsys.graph c)
  exact ⟨adj, hadj, (mem_genDagAdjlist hadj (hsys.arg c) (by omega)).2 ⟨k, hk, rfl⟩⟩

theorem System.Complete.numTask_lt {n m : Nat} {sys : System n m} (hsys : sys.Complete)
    (c : Fin m) : (sys.client c).numTask < 2 ^ 31 - 1 := by
  obtain ⟨tasks, htasks⟩ := Option.isSome_iff_exists.1 (hsys.workload c)
  have hlen := congrArg List.length (map_taskid_initTask htasks)
  rw [List.length_map, List.length_map, List.length_range] at hlen
  have hone := Finset.single_le_sum (f := fun d => (sys.client d).tasks.length)
    (fun _ _ => Nat.zero_le _) (Finset.mem_univ c)
  rw [ClientConf.tasks, htasks, Option.getD_some, hlen] at hone
  exact Nat.lt_of_le_of_lt hone hsys.few

namespace State

variable {n m : Nat}

/-- The state is reached by a run without faults. -/
def Reached (sys : System n m) (st : State n m) : Prop :=
  Leads (State.step sys) Act.Faultless (start n m) st

/-- The cluster can go on to `st'` by steps of scheduler `i` alone. -/
structure Advance (sys : System n m) (i : Fin n) (st st' : State n m) : Prop where
  leads : Leads (State.step sys) Act.Faultless st st'
  client : st'.client = st.client
  off : ∀ j, j ≠ i → st'.sched j = st.sched j

variable {sys : System n m} {st st' st'' : State n m} {i : Fin n}

namespace Reached

theorem sound (h : st.Reached sys) (hsys : sys.Complete) : st.Sound sys := by
  obtain ⟨acts, _, hrun⟩ := h
  exact sound_run hsys.clean hsys.distinct hsys.id (fun a _ => a.apart_of_foreign hsys.foreign) hrun

theorem dataless (h : st.Reached sys) (hsys : sys.Complete) : st.Dataless := by
  obtain ⟨acts, _, hrun⟩ := h
  exact dataless_run hsys.clean hsys.distinct hsys.id
    (fun a _ => a.apart_of_foreign hsys.foreign) hsys.threshold hrun

theorem live (h : st.Reached sys) (hsys : sys.Complete) : st.Live := by
  obtain ⟨acts, _, hrun⟩ := h
  have hfew := hsys.few
  exact live_run hsys.clean hsys.distinct hsys.id hsys.keys (by omega)
    (fun a _ => a.apart_of_foreign hsys.foreign) hrun

theorem lost (h : st.Reached sys) : st.lost = [] := by
  obtain ⟨acts, hacts, hrun⟩ := h
  exact lost_run (fun a ha => (hacts a ha).1) hrun

theorem refused (h : st.Reached sys) : st.refused = [] := by
  obtain ⟨acts, hacts, hrun⟩ := h
  exact refused_run (fun a ha => (hacts a ha).2) hrun

theorem advance (h : st.Reached sys) (ha : Advance sys i st st') : st'.Reached sys :=
  h.trans ha.leads

theorem exists_sending (h : st.Reached sys) (hsys : sys.Complete) {t : TaskMsg}
    (ht : t ∈ cores st.submitted) : ∃ c todo, ∃ k < (sys.client c).numTask,
      st.client c = .sending todo ∧ t.taskid = sys.taskId c (k : Nat) := by
  have hcons := (h.sound hsys).conserved
  obtain ⟨c, hc⟩ := hcons.mem_tasks ht
  obtain ⟨tm, htm, he⟩ := mem_cores.1 hc
  obtain ⟨k, hk, hid⟩ := MatrixZht.mem_tasks htm
  have hid' : t.taskid = sys.taskId c (k : Nat) := (congrArg TaskMsg.taskid he).symm.trans hid
  obtain ⟨todo, hsend⟩ := hcons.sending hsys.distinct ht (.inl ⟨k, hk, rfl⟩) hid'
  exact ⟨c, todo, k, hk, hsend, hid'⟩

end Reached

theorem Reached.exists_record (h : st.Reached sys) (hsys : sys.Complete) {c : Fin m} {k : Int}
    (hk : sys.HasRecord c k) {todo : List (Fin n × List TaskMsg)}
    (hc : st.client c = .sending todo) : ∃ text adj time, (sys.client c).adjList = some adj ∧
      k ∈ adj ∧ st.store (sys.taskId c k) = some text ∧
      strToValue text = some (recordOf (sys.client c).index adj k
        (landedOn st.landed (sys.taskId c k)) time) := by
  have hexact := (h.sound hsys).exact
  have hins := hexact.inserted c k hk
  rw [hc] at hins
  obtain ⟨text, htext⟩ := Option.isSome_iff_exists.1 hins
  obtain ⟨adj, time, hadj, hmem, hval⟩ := (hexact.record c k todo text hc hk htext).strToValue_eq
  exact ⟨text, adj, time, hadj, hmem, htext, hval⟩

theorem Reached.exists_value (h : st.Reached sys) (hsys : sys.Complete) {t : TaskMsg}
    (ht : t ∈ cores st.submitted) : ∃ value, strToValue (st.store.lookup t.taskid) = some value ∧
      value.Dataless ∧ value.Level := by
  obtain ⟨c, todo, k, hk, hc, hid⟩ := h.exists_sending hsys ht
  obtain ⟨text, adj, time, _, _, htext, hval⟩ :=
    h.exists_record hsys (hsys.hasRecord hk) hc
  refine ⟨_, by rw [hid, Store.lookup_eq htext, hval], ?_, by simp [Value.Level, recordOf]⟩
  exact recordOf_dataless fun l hl =>
    (h.dataless hsys).landed l (List.mem_of_mem_filter hl)

theorem Reached.exists_value_of_held (h : st.Reached sys) (hsys : sys.Complete) {tm : TaskMsg}
    (htm : tm ∈ (st.sched i).held) :
    ∃ value, strToValue (st.store.lookup tm.taskid) = some value := by
  obtain ⟨value, hvalue, _⟩ := h.exists_value hsys ((h.sound hsys).conserved.mem_submitted htm)
  exact ⟨value, hvalue⟩

theorem Reached.exists_value_of_completed (h : st.Reached sys) (hsys : sys.Complete)
    {item : CmpQueueItem} (hitem : item ∈ (st.sched i).completed) :
    ∃ value, strToValue (st.store.lookup item.taskId) = some value := by
  obtain ⟨e, he, hid⟩ := (h.live hsys).ran i item hitem
  have hsub : e.2.core ∈ cores st.submitted := by
    rw [← (h.sound hsys).conserved.placed, places, Multiset.mem_add, Multiset.mem_add]
    exact .inl (.inr (mem_cores.2 ⟨e.2, List.mem_map_of_mem he, rfl⟩))
  obtain ⟨value, hvalue, _⟩ := h.exists_value hsys hsub
  exact ⟨value, hid ▸ hvalue⟩

namespace Advance

theorem refl (sys : System n m) (i : Fin n) (st : State n m) : Advance sys i st st :=
  ⟨.refl st, rfl, fun _ _ => rfl⟩

theorem trans (h : Advance sys i st st') (h' : Advance sys i st' st'') :
    Advance sys i st st'' where
  leads := h.leads.trans h'.leads
  client := h'.client.trans h.client
  off := fun j hj => (h'.off j hj).trans (h.off j hj)

end Advance

theorem exists_act {b : SchedAct} {store : Store} {s : Sched} {executed : List TaskMsg}
    {landed : List Landing} {counted : List Int}
    (hrunning : b.needsRunning → (st.sched i).boot = .running)
    (heff : (st.sched i).act sys.config n (sys.id i) st.store b =
      some ⟨store, s, executed, landed, counted⟩) :
    ∃ st', Advance sys i st st' ∧ st'.store = store ∧ st'.sched i = s := by
  refine ⟨st.apply i ⟨store, s, executed, landed, counted⟩,
    ⟨.single (a := .sched i b) ⟨rfl, rfl⟩ ?_, rfl, fun _ hj => apply_of_ne hj⟩, rfl, apply_self⟩
  rw [State.step, Sched.step, if_pos hrunning, heff]
  rfl

theorem exists_move {a : Move} {s : Sched}
    (hrunning : a.serves = false → (st.sched i).boot = .running)
    (hs : (st.sched i).move sys.config (sys.id i) st.store a = some s) :
    ∃ st', Advance sys i st st' ∧ st'.store = st.store ∧ st'.sched i = s := by
  refine exists_act (b := .move a) (fun hneeds => hrunning ?_) (by rw [Sched.act, hs]; rfl)
  cases a with
  | accept reads => cases hneeds
  | enqueue => cases hneeds
  | _ => rfl

theorem exists_boot {store : Store} {boot : Boot}
    (hs : (st.sched i).boot.step n sys.config.numAllTask st.store = some (store, boot)) :
    ∃ st', Advance sys i st st' ∧ st'.store = store ∧ st'.sched i = { st.sched i with boot } :=
  exists_act (b := .boot) nofun (by rw [Sched.act, hs]; rfl)

section Loops

variable {attempt : Str → Option Str} {key old new : Str}

theorem retry_swap {store : Store} (hold : store key = some old) :
    (Retry.swap old new).step attempt key store = some (store.insert key new, none) := by
  simp only [Retry.step, Store.compareSwap, if_pos hold]

theorem retry_bound {store : Store} (hold : store key = some old) (hne : old ≠ [])
    (hnew : attempt old = some new) (r : Retry) :
    (∃ new', r.step attempt key store = some (store.insert key new', none)) ∨
      r.step attempt key store = some (store, some (.swap old new)) := by
  have hl : store.lookup key = old := Store.lookup_eq hold
  cases r with
  | look => exact .inr (by rw [Retry.step, hl, hnew]; rfl)
  | swap seenVal newVal =>
    by_cases hs : seenVal = old
    · subst hs
      exact .inl ⟨newVal, retry_swap hold⟩
    · have hmiss : ¬ store key = some seenVal := by
        rw [hold]
        exact fun he => hs (Option.some.inj he).symm
      have hempty : old.isEmpty = false := by simpa using hne
      exact .inr (by simp [Retry.step, Store.compareSwap, if_neg hmiss, hl, hempty, hnew])

theorem exists_retry_done (Phase : Retry → State n m → Prop) {Done : State n m → Prop} {r : Retry}
    (hgo : ∀ r next st, Phase r st → r.step attempt key st.store = some (st.store, some next) →
      ∃ st', Advance sys i st st' ∧ st'.store = st.store ∧ Phase next st')
    (hdone : ∀ r store st, Phase r st → r.step attempt key st.store = some (store, none) →
      ∃ st', Advance sys i st st' ∧ Done st')
    (hold : st.store key = some old) (hne : old ≠ []) (hnew : attempt old = some new)
    (hphase : Phase r st) : ∃ st', Advance sys i st st' ∧ Done st' := by
  rcases retry_bound hold hne hnew r with ⟨_, hstep⟩ | hstep
  · exact hdone r _ st hphase hstep
  · obtain ⟨st₁, hadv, hstore, hphase₁⟩ := hgo r _ st hphase hstep
    obtain ⟨st', hadv', hend⟩ := hdone _ _ st₁ hphase₁ (retry_swap (hstore ▸ hold))
    exact ⟨st', hadv.trans hadv', hend⟩

end Loops

theorem Reached.register (h : st.Reached sys) (hsys : sys.Complete)
    (hbound : (st.store numSchedulerRegistered).isSome)
    (hboot : (st.sched i).boot = .look ∨ ∃ r, (st.sched i).boot = .swap r) :
    ∃ st', Advance sys i st st' ∧ st'.sched i = { st.sched i with boot := .waitScheduler } := by
  obtain ⟨old, hold⟩ := Option.isSome_iff_exists.1 hbound
  have hne : old ≠ [] := by
    obtain ⟨hnone, _⟩ | ⟨hsome, _⟩ := (h.live hsys).booting.reg
    · rw [hnone] at hold
      cases hold
    · rw [← Option.some.inj (hsome.symm.trans hold)]
      exact numToStr_ne_nil _
  have hswap (st₁ : State n m) (r : Retry) (hold : st₁.store numSchedulerRegistered = some old)
      (hphase : st₁.sched i = { st.sched i with boot := .swap r }) :
      ∃ st', Advance sys i st₁ st' ∧ st'.sched i = { st.sched i with boot := .waitScheduler } := by
    have hnew : registMore old = some (numToStr (toInt32 (strToInt old + 1))) := rfl
    refine exists_retry_done (fun r st₁ => st₁.sched i = { st.sched i with boot := .swap r })
      (fun r next st₂ hphase hstep => ?_) (fun r store st₂ hphase hstep => ?_) hold hne hnew hphase
    · obtain ⟨st', hadv, hstore, hst'⟩ := exists_boot (by rw [hphase, Boot.step, hstep]; rfl)
      exact ⟨st', hadv, hstore, hst'.trans (by rw [hphase])⟩
    · obtain ⟨st', hadv, hstore, hst'⟩ := exists_boot (by rw [hphase, Boot.step, hstep]; rfl)
      exact ⟨st', hadv, hst'.trans (by rw [hphase])⟩
  rcases hboot with hlook | ⟨r, hr⟩
  · have hl : st.store.lookup numSchedulerRegistered = old := Store.lookup_eq hold
    have hempty : old.isEmpty = false := by simpa using hne
    have hstep : (st.sched i).boot.step n sys.config.numAllTask st.store =
        some (st.store, .swap (.swap old (numToStr (toInt32 (strToInt old + 1))))) := by
      simp [hlook, Boot.step, hl, hempty, registMore]
    obtain ⟨st₁, hadv, hstore, hst₁⟩ := exists_boot hstep
    obtain ⟨st', hadv', hst'⟩ := hswap st₁ _ (by rw [hstore, hold]) hst₁
    exact ⟨st', hadv.trans hadv', hst'⟩
  · exact hswap st r hold (by rw [← hr])

theorem countReceived_eq {s : Sched} {store store' : Store} {batch : Batch} {r : Retry}
    {next : Option Retry} (hserve : s.serving = .count batch r)
    (hstep : r.step (numTaskRecvMore batch.numTask) numTasksRecv store = some (store', next)) :
    s.countReceived store = some (store', { s with serving := next.elim .idle (.count batch) },
      next.elim [batch.numTask] fun _ => []) := by
  simp only [Sched.countReceived, hserve, hstep]
  cases next <;> rfl

theorem exists_count {store : Store} {s : Sched} {counted : List Int}
    (hs : (st.sched i).countReceived st.store = some (store, s, counted)) :
    ∃ st', Advance sys i st st' ∧ st'.store = store ∧ st'.sched i = s :=
  exists_act (b := .countReceived) nofun (by rw [Sched.act, hs]; rfl)

theorem Reached.count (h : st.Reached sys) (hsys : sys.Complete)
    (hbound : (st.store numTasksRecv).isSome) {batch : Batch} {r : Retry}
    (hserve : (st.sched i).serving = .count batch r) :
    ∃ st', Advance sys i st st' ∧ st'.sched i = { st.sched i with serving := .idle } := by
  obtain ⟨old, hold⟩ := Option.isSome_iff_exists.1 hbound
  have hne : old ≠ [] := by
    obtain ⟨hnone, _⟩ | ⟨hsome, _⟩ := (h.live hsys).booting.recv
    · rw [hnone] at hold
      cases hold
    · rw [← Option.some.inj (hsome.symm.trans hold)]
      exact numToStr_ne_nil _
  have hnew : numTaskRecvMore batch.numTask old =
    some (numToStr (toInt64 (strToLong old + batch.numTask))) := rfl
  refine exists_retry_done
    (fun r st₁ => st₁.sched i = { st.sched i with serving := .count batch r })
    (fun r next st₂ hphase hstep => ?_) (fun r store st₂ hphase hstep => ?_) hold hne hnew
    (r := r) (by rw [← hserve])
  · obtain ⟨st', hadv, hstore, hst'⟩ :=
      exists_count (countReceived_eq (congrArg Sched.serving hphase) hstep)
    exact ⟨st', hadv, hstore, hst'.trans (by rw [hphase]; rfl)⟩
  · obtain ⟨st', hadv, _, hst'⟩ :=
      exists_count (countReceived_eq (congrArg Sched.serving hphase) hstep)
    exact ⟨st', hadv, hst'.trans (by rw [hphase]; rfl)⟩

theorem Reached.enqueue (h : st.Reached sys) (hsys : sys.Complete) {batch : Batch}
    {todo : List (List TaskMsg)} (hserve : (st.sched i).serving = .enqueue batch todo) :
    ∃ st', Advance sys i st st' ∧ st'.sched i =
      { st.sched i with
        waitQueue := (st.sched i).waitQueue ++ todo.flatten
        serving := .count batch .look } := by
  induction todo generalizing st with
  | nil =>
    have hmove : (st.sched i).move sys.config (sys.id i) st.store .enqueue =
        some { st.sched i with serving := .count batch .look } := by
      rw [Sched.move, Sched.enqueue, hserve]
    obtain ⟨st', hadv, _, hst'⟩ := exists_move (a := .enqueue) nofun hmove
    exact ⟨st', hadv, by rw [hst', List.flatten_nil, List.append_nil]⟩
  | cons pkg todo ih =>
    have hpkg : pkg.all (fun tm => (strToValue (st.store.lookup tm.taskid)).isSome) = true := by
      refine List.all_eq_true.2 fun tm htm => ?_
      have hheld : tm ∈ (st.sched i).held := by
        simp [Sched.held, hserve, Serving.tasks, htm]
      obtain ⟨value, hvalue⟩ := h.exists_value_of_held hsys hheld
      rw [hvalue]
      rfl
    have hmove : (st.sched i).move sys.config (sys.id i) st.store .enqueue =
        some
          { st.sched i with
            waitQueue := (st.sched i).waitQueue ++ pkg
            serving := .enqueue batch todo } := by
      rw [Sched.move, Sched.enqueue, hserve]
      exact if_pos hpkg
    obtain ⟨st₁, hadv, _, hst₁⟩ := exists_move (a := .enqueue) nofun hmove
    obtain ⟨st', hadv', hst'⟩ := ih (h.advance hadv) (by rw [hst₁])
    refine ⟨st', hadv.trans hadv', ?_⟩
    rw [hst', hst₁, List.flatten_cons, List.append_assoc]

section Transfer

variable {config : Config} {tasks : List TaskMsg} {s : Sched}

theorem cut_cons {stream : Str} {reads : List Str} (hne : stream ≠ [])
    (hcut : Cut (stream.drop (bufSize - 1)) reads) :
    Cut stream (stream.take (bufSize - 1) :: reads) where
  pos := by simpa [bufSize, hne] using hcut.pos
  room := by simpa using hcut.room
  flatten := by rw [List.flatten_cons, hcut.flatten, List.take_append_drop]

theorem exists_cut (stream : Str) : ∃ reads, Cut stream reads := by
  induction hlen : stream.length using Nat.strong_induction_on generalizing stream with
  | _ len ih =>
    by_cases hnil : stream = []
    · exact ⟨[], by simp, by simp, hnil.symm⟩
    · have hpos : 0 < stream.length := List.length_pos_of_ne_nil hnil
      obtain ⟨reads, hcut⟩ := ih (stream.drop (bufSize - 1)).length
        (by rw [List.length_drop, ← hlen, bufSize]; omega) _ rfl
      exact ⟨_, cut_cons hnil hcut⟩

theorem exists_batchStream (hpkg : 1 ≤ config.maxTaskPerPkg) (hlen : tasks.length < 2 ^ 31)
    (peer : Str) : ∃ stream, batchStream config tasks peer = some stream := by
  obtain ⟨_, _, _, _, hsend⟩ := sendBatchTasks_eq hpkg tasks peer
  have hmin : min (tasks.length : Int) config.maxTaskPerPkg < 2 ^ 31 := by omega
  exact ⟨_, by rw [batchStream, if_pos hmin, hsend]⟩

theorem prefix_batchStream {stream : Str}
    (hs : batchStream config tasks "client".toList = some stream) : clientSendTasks <+: stream := by
  rw [batchStream, Option.ite_none_right_eq_some] at hs
  obtain ⟨pkgs, _, _, _, rfl⟩ := exists_pkgs hs.2
  exact (batchText_client tasks pkgs).trans (List.prefix_append _ _)

theorem exists_accept {inbox : List (List TaskMsg)} (hpkg : 1 ≤ config.maxTaskPerPkg)
    (hclean : ∀ tm ∈ s.held, tm.Clean) (hfew : s.held.length < 2 ^ 31)
    (hinbox : s.inbox = tasks :: inbox) (hserve : s.serving = .idle) :
    ∃ reads, (s.accept config reads).isSome := by
  have hsub : ∀ t ∈ tasks, t.Clean := fun t ht => hclean t (by simp [Sched.held, hinbox, ht])
  have hlen : tasks.length < 2 ^ 31 := by
    refine Nat.lt_of_le_of_lt ?_ hfew
    simp only [Sched.held, hinbox, List.flatten_cons, List.length_append]
    omega
  obtain ⟨stream, hstream⟩ := exists_batchStream hpkg hlen "client".toList
  obtain ⟨hdec, body, hbody, hd, hz⟩ := decodeBatch_batchStream (by decide) hsub hstream
  have hne : stream ≠ [] := by simp [hbody]
  obtain ⟨rest, hcut⟩ := exists_cut (stream.drop (bufSize - 1))
  have hcut := cut_cons hne hcut
  -- the first read holds the name of the request
  have hreq : readRequest (stream.take (bufSize - 1)) =
      some (.submit (stream.take (bufSize - 1))) := by
    refine readRequest_submit (fun hmem => ?_) ?_
    · have hall := List.mem_of_mem_take hmem
      simp [hbody, hz] at hall
    · rw [List.take_take, Nat.min_eq_left (by decide)]
      exact (List.prefix_iff_eq_take.1 (prefix_batchStream hstream)).symm
  have hrecv := recvMul_rest (hbody ▸ hcut) hd hz
  obtain ⟨batch, hbatch⟩ : ∃ batch, decodeBatch stream = some batch := by
    obtain ⟨_, hdec⟩ | ⟨_, _, _, hdec⟩ := hdec <;> exact ⟨_, hdec⟩
  refine ⟨stream.take (bufSize - 1) :: rest, ?_⟩
  simp only [Sched.accept, hinbox, hserve, hstream, Option.bind_some, if_pos hcut, hreq]
  rw [hbody, hrecv, ← hbody, hbatch]
  rfl

theorem exists_recvStolen (hpkg : 1 ≤ config.maxTaskPerPkg) (hclean : ∀ tm ∈ s.held, tm.Clean)
    (hfew : s.held.length < 2 ^ 31) (hthief : s.thief = .batch tasks) :
    ∃ reads s', s.recvStolen config reads = some s' ∧ (s' = { s with thief := .idle } ∨
      ∃ pkgs : List (List TaskMsg), pkgs.flatten.length = tasks.length ∧
        s' = { s with thief := .stolen pkgs }) := by
  have hsub : ∀ t ∈ tasks, t.Clean := fun t ht =>
    hclean t (by simp [Sched.held, hthief, Thief.tasks, ht])
  have hlen : tasks.length < 2 ^ 31 := by
    refine Nat.lt_of_le_of_lt ?_ hfew
    simp only [Sched.held, hthief, Thief.tasks, List.length_append]
    omega
  obtain ⟨stream, hstream⟩ := exists_batchStream hpkg hlen "scheduler".toList
  obtain ⟨hdec, body, hbody, hd, hz⟩ := decodeBatch_batchStream (by decide) hsub hstream
  obtain ⟨reads, hcut⟩ := exists_cut stream
  have hrecv : (recvMul reads []).1 = stream := by
    rw [recvMul_of_flatten hcut.pos (hcut.flatten.trans hbody) hd hz, hbody]
    rfl
  refine ⟨reads, ?_⟩
  simp only [Sched.recvStolen, hthief, hstream, Option.bind_some, if_pos hcut, hrecv]
  rcases hdec with ⟨_, hdec⟩ | ⟨pkgs, hflat, _, hdec⟩
  · rw [hdec]
    exact ⟨_, rfl, .inl rfl⟩
  · rw [hdec]
    exact ⟨_, rfl, .inr ⟨pkgs, by rw [hflat, List.length_map], rfl⟩⟩

end Transfer

theorem Reached.clean (h : st.Reached sys) (hsys : sys.Complete) :
    ∀ tm ∈ (st.sched i).held, tm.Clean :=
  (h.sound hsys).conserved.clean hsys.clean i

theorem Reached.held_lt (h : st.Reached sys) (hsys : sys.Complete) :
    (st.sched i).held.length < 2 ^ 31 := by
  have hlen := (h.sound hsys).conserved.length_held_le i
  have hfew := hsys.few
  omega

theorem Reached.accept (h : st.Reached sys) (hsys : sys.Complete) {tasks : List TaskMsg}
    {inbox : List (List TaskMsg)} (hinbox : (st.sched i).inbox = tasks :: inbox)
    (hserve : (st.sched i).serving = .idle) : ∃ st', Advance sys i st st' ∧
      (st'.sched i = { st.sched i with inbox } ∨ ∃ batch : Batch,
        batch.pkgs.flatten.length = tasks.length ∧
          st'.sched i = { st.sched i with inbox, serving := .enqueue batch batch.pkgs }) := by
  obtain ⟨reads, hsome⟩ := exists_accept hsys.pkg (h.clean hsys) (h.held_lt hsys) hinbox hserve
  obtain ⟨s, hs⟩ := Option.isSome_iff_exists.1 hsome
  obtain ⟨st', hadv, _, hst'⟩ := exists_move (a := .accept reads) nofun hs
  refine ⟨st', hadv, ?_⟩
  obtain ⟨_, _, hinbox', _, hs'⟩ := Sched.accept_decoded (h.clean hsys) hs
  cases hinbox.symm.trans hinbox'
  rcases hs' with ⟨_, rfl⟩ | ⟨pkgs, hflat, rfl⟩
  · exact .inl hst'
  · exact .inr ⟨⟨_, pkgs⟩, by rw [hflat, List.length_map], hst'⟩

theorem exists_putStolen (hrunning : (st.sched i).boot = .running) {pkgs : List (List TaskMsg)}
    (hthief : (st.sched i).thief = .stolen pkgs) : ∃ st', Advance sys i st st' ∧ st'.sched i =
      { st.sched i with
        wsQueue := (st.sched i).wsQueue ++ pkgs.flatten
        thief := .idle } := by
  induction pkgs generalizing st with
  | nil =>
    have hmove : (st.sched i).move sys.config (sys.id i) st.store .putStolen =
        some { st.sched i with thief := .idle } := by
      rw [Sched.move, Sched.putStolen, hthief]
    obtain ⟨st', hadv, _, hst'⟩ := exists_move (a := .putStolen) (fun _ => hrunning) hmove
    exact ⟨st', hadv, by rw [hst', List.flatten_nil, List.append_nil]⟩
  | cons pkg pkgs ih =>
    have hmove : (st.sched i).move sys.config (sys.id i) st.store .putStolen =
        some
          { st.sched i with
            wsQueue := (st.sched i).wsQueue ++ pkg
            thief := .stolen pkgs } := by
      rw [Sched.move, Sched.putStolen, hthief]
    obtain ⟨st₁, hadv, _, hst₁⟩ := exists_move (a := .putStolen) (fun _ => hrunning) hmove
    obtain ⟨st', hadv', hst'⟩ := ih (by rw [hst₁, hrunning]) (by rw [hst₁])
    refine ⟨st', hadv.trans hadv', ?_⟩
    rw [hst', hst₁, List.flatten_cons, List.append_assoc]

theorem Reached.put_ready (h : st.Reached sys) (hsys : sys.Complete)
    (hrunning : (st.sched i).boot = .running) {tm : TaskMsg} {value : Value}
    (hcheck : (st.sched i).check = .ready tm value) :
    ∃ st' tm', Advance sys i st st' ∧ st'.sched i =
      { st.sched i with
        wsQueue := (st.sched i).wsQueue ++ [tm']
        check := .idle } := by
  have hdataless := ((h.dataless hsys).unrouted i).check
  rw [hcheck] at hdataless
  have hle : value.alldatasize.getD 0 ≤ sys.config.dataSizeThreshold := by
    rw [hdataless.alldatasize]
    exact hsys.threshold
  have hready : (st.sched i).move sys.config (sys.id i) st.store .processReady =
      some
        { st.sched i with check := .toWs { tm with datalength := value.alldatasize.getD 0 } } := by
    rw [Sched.move, Sched.processReady, hcheck]
    simp only [taskReadyProcess, if_pos hle]
    rfl
  obtain ⟨st₁, hadv, _, hst₁⟩ := exists_move (a := .processReady) (fun _ => hrunning) hready
  have hput : (st₁.sched i).move sys.config (sys.id i) st₁.store .putChecked =
      some
        { st.sched i with
          wsQueue := (st.sched i).wsQueue ++ [{ tm with datalength := value.alldatasize.getD 0 }]
          check := .idle } := by
    rw [hst₁]
    rfl
  obtain ⟨st', hadv', _, hst'⟩ := exists_move (a := .putChecked)
    (fun _ => by rw [hst₁, hrunning]) hput
  exact ⟨st', _, hadv.trans hadv', hst'⟩

theorem Reached.look (h : st.Reached sys) (hsys : sys.Complete)
    (hrunning : (st.sched i).boot = .running) {tm : TaskMsg}
    (hcheck : (st.sched i).check = .popped tm) : ∃ st' value, Advance sys i st st' ∧
      st'.store = st.store ∧ strToValue (st.store.lookup tm.taskid) = some value ∧
      (value.indegree.getD 0 = 0 ∧ st'.sched i = { st.sched i with check := .ready tm value } ∨
        value.indegree.getD 0 ≠ 0 ∧ st'.sched i = { st.sched i with check := .notReady tm }) := by
  have hheld : tm ∈ (st.sched i).held := by simp [Sched.held, hcheck, Check.tasks]
  obtain ⟨value, hvalue⟩ := h.exists_value_of_held hsys hheld
  have hmove : (st.sched i).move sys.config (sys.id i) st.store .lookupReady =
      some (if value.indegree.getD 0 = 0 then { st.sched i with check := .ready tm value }
        else { st.sched i with check := .notReady tm }) := by
    simp only [Sched.move, Sched.lookupReady, hcheck, hvalue, Option.map_some]
  obtain ⟨st', hadv, hstore, hst'⟩ := exists_move (a := .lookupReady) (fun _ => hrunning) hmove
  refine ⟨st', value, hadv, hstore, hvalue, ?_⟩
  by_cases hready : value.indegree.getD 0 = 0
  · exact .inl ⟨hready, by rw [hst', if_pos hready]⟩
  · exact .inr ⟨hready, by rw [hst', if_neg hready]⟩

theorem exists_putBack (hrunning : (st.sched i).boot = .running) {tm : TaskMsg}
    (hcheck : (st.sched i).check = .notReady tm) : ∃ st', Advance sys i st st' ∧
      st'.store = st.store ∧ st'.sched i =
        { st.sched i with waitQueue := (st.sched i).waitQueue ++ [tm], check := .idle } := by
  refine exists_move (a := .putChecked) (fun _ => hrunning) ?_
  rw [Sched.move, Sched.putChecked, hcheck]

theorem Reached.check_first (h : st.Reached sys) (hsys : sys.Complete)
    (hrunning : (st.sched i).boot = .running) (hidle : (st.sched i).check = .idle) {tm : TaskMsg}
    {rest : List TaskMsg} (hwait : (st.sched i).waitQueue = tm :: rest) :
    ∃ st', Advance sys i st st' ∧
      ((∃ tm', st'.sched i =
          { st.sched i with
            waitQueue := rest, wsQueue := (st.sched i).wsQueue ++ [tm'], check := .idle }) ∨
        (∃ value, strToValue (st.store.lookup tm.taskid) = some value ∧
            value.indegree.getD 0 ≠ 0) ∧ st'.store = st.store ∧
          st'.sched i = { st.sched i with waitQueue := rest ++ [tm], check := .idle }) := by
  have hpop : (st.sched i).move sys.config (sys.id i) st.store .popWaiting =
      some { st.sched i with waitQueue := rest, check := .popped tm } := by
    rw [Sched.move, Sched.popWaiting, hidle, hwait]
  obtain ⟨st₁, hadv, hstore, hst₁⟩ := exists_move (a := .popWaiting) (fun _ => hrunning) hpop
  have h₁ := h.advance hadv
  have hrunning₁ : (st₁.sched i).boot = .running := by rw [hst₁, hrunning]
  obtain ⟨st₂, value, hadv₂, hstore₂, hvalue, ⟨_, hst₂⟩ | ⟨hnot, hst₂⟩⟩ :=
    h₁.look hsys hrunning₁ (congrArg Sched.check hst₁)
  · obtain ⟨st', tm', hadv', hst'⟩ := (h₁.advance hadv₂).put_ready hsys
      (by rw [hst₂, hrunning₁]) (by rw [hst₂])
    exact ⟨st', (hadv.trans hadv₂).trans hadv', .inl ⟨tm', by rw [hst', hst₂, hst₁]⟩⟩
  · have hrunning₂ : (st₂.sched i).boot = .running := by rw [hst₂, hrunning₁]
    obtain ⟨st', hadv', hstore', hst'⟩ : ∃ st', Advance sys i st₂ st' ∧
        st'.store = st₂.store ∧ st'.sched i = _ :=
      exists_putBack hrunning₂ (congrArg Sched.check hst₂)
    refine ⟨st', (hadv.trans hadv₂).trans hadv', .inr ⟨⟨value, hstore ▸ hvalue, hnot⟩, ?_, ?_⟩⟩
    · rw [hstore', hstore₂, hstore]
    · rw [hst', hst₂, hst₁]

/-- The queue of waiting tasks is turned until one of them is ready. -/
theorem Reached.turn (h : st.Reached sys) (hsys : sys.Complete)
    (hrunning : (st.sched i).boot = .running) (hidle : (st.sched i).check = .idle) {k : Nat}
    {tm : TaskMsg} {value : Value} (hk : (st.sched i).waitQueue[k]? = some tm)
    (hvalue : strToValue (st.store.lookup tm.taskid) = some value)
    (hready : value.indegree.getD 0 = 0) :
    ∃ st' waitQueue tm', Advance sys i st st' ∧
      waitQueue.length + 1 = (st.sched i).waitQueue.length ∧ st'.sched i =
        { st.sched i with
          waitQueue, wsQueue := (st.sched i).wsQueue ++ [tm'], check := .idle } := by
  induction k generalizing st with
  | zero =>
    obtain ⟨rest, hwait⟩ : ∃ rest, (st.sched i).waitQueue = tm :: rest := by
      cases hwait : (st.sched i).waitQueue with
      | nil => simp [hwait] at hk
      | cons tm₀ rest =>
        rw [hwait] at hk
        cases hk
        exact ⟨rest, rfl⟩
    obtain ⟨st', hadv, ⟨tm', hst'⟩ | ⟨⟨value', hvalue', hnot⟩, _⟩⟩ :=
      h.check_first hsys hrunning hidle hwait
    · exact ⟨st', rest, tm', hadv, by rw [hwait, List.length_cons], hst'⟩
    · cases hvalue.symm.trans hvalue'
      exact absurd hready hnot
  | succ k ih =>
    obtain ⟨tm₀, rest, hwait⟩ : ∃ tm₀ rest, (st.sched i).waitQueue = tm₀ :: rest := by
      cases hwait : (st.sched i).waitQueue with
      | nil => simp [hwait] at hk
      | cons tm₀ rest => exact ⟨tm₀, rest, rfl⟩
    rw [hwait, List.getElem?_cons_succ] at hk
    have hlen : k < rest.length := (List.getElem?_eq_some_iff.1 hk).1
    obtain ⟨st₁, hadv, ⟨tm', hst₁⟩ | ⟨_, hstore, hst₁⟩⟩ := h.check_first hsys hrunning hidle hwait
    · exact ⟨st₁, rest, tm', hadv, by rw [hwait, List.length_cons], hst₁⟩
    · obtain ⟨st', waitQueue, tm', hadv', hlen', hst'⟩ := ih (h.advance hadv)
        (by rw [hst₁, hrunning]) (by rw [hst₁])
        (by rw [hst₁, List.getElem?_append_left hlen, hk]) (hstore ▸ hvalue)
      refine ⟨st', waitQueue, tm', hadv.trans hadv', ?_, by rw [hst', hst₁]⟩
      rw [hlen', hst₁, hwait]
      simp

section Exec

variable {rest : List Exec} {tm : TaskMsg} {value : Value}

theorem exists_finish (hrunning : (st.sched i).boot = .running) {key : Str}
    (hexec : (st.sched i).exec = .stored tm value key :: rest) :
    ∃ st' item, Advance sys i st st' ∧ st'.sched i =
      { st.sched i with
        exec := rest
        completeQueue := (st.sched i).completeQueue ++ [item] } := by
  have hfinish : (st.sched i).finish 0 = some
      ({ st.sched i with
          exec := rest
          completeQueue :=
            (st.sched i).completeQueue ++ [⟨tm.taskid, key, value.outputsize.getD 0⟩] }, tm) := by
    simp [Sched.finish, hexec]
  obtain ⟨st', hadv, _, hst'⟩ := exists_act (b := .finish 0) (fun _ => hrunning)
    (by rw [Sched.act, hfinish]; rfl)
  exact ⟨st', _, hadv, hst'⟩

theorem Reached.run_fetching (h : st.Reached sys) (hsys : sys.Complete)
    (hrunning : (st.sched i).boot = .running) {k : Nat} {data : Str}
    (hexec : (st.sched i).exec = .fetching tm value k data :: rest) :
    ∃ st' localData item, Advance sys i st st' ∧ st'.sched i =
      { st.sched i with
        localData
        exec := rest
        completeQueue := (st.sched i).completeQueue ++ [item] } := by
  obtain ⟨hlevel, hle⟩ := (h.live hsys).level i (.fetching tm value k data) (by simp [hexec])
  have hdataless := ((h.dataless hsys).sched i).exec (.fetching tm value k data) (by simp [hexec])
  induction hleft : value.parents.length - k generalizing st k data with
  | zero =>
    have hstore : (st.sched i).move sys.config (sys.id i) st.store (.storeResult 0 []) =
        some
          { st.sched i with
            localData := insertNew (st.sched i).localData (sys.id i ++ tm.taskid) []
            exec := .stored tm value (sys.id i ++ tm.taskid) :: rest } := by
      have hk : k = value.parents.length := by omega
      simp [Sched.move, Sched.storeResult, hexec, hk]
    obtain ⟨st₁, hadv, _, hst₁⟩ := exists_move (a := .storeResult 0 []) (fun _ => hrunning) hstore
    obtain ⟨st', item, hadv', hst'⟩ := exists_finish (by rw [hst₁, hrunning]) (by rw [hst₁])
    exact ⟨st', _, item, hadv.trans hadv', by rw [hst', hst₁]⟩
  | succ left ih =>
    have hk : k < value.parents.length := by omega
    have hsize : k < value.datasize.length := hlevel ▸ hk
    have hzero : value.datasize[k] ≤ 0 := by
      rw [hdataless.1.datasize _ (List.getElem_mem hsize)]
    have hfetch : (st.sched i).move sys.config (sys.id i) st.store (.fetchLocal 0) =
        some { st.sched i with exec := .fetching tm value (k + 1) data :: rest } := by
      simp [Sched.move, Sched.fetchLocal, hexec, hk, hsize, hzero]
    obtain ⟨st₁, hadv, _, hst₁⟩ := exists_move (a := .fetchLocal 0) (fun _ => hrunning) hfetch
    obtain ⟨st', localData, item, hadv', hst'⟩ := ih (h.advance hadv) (by rw [hst₁, hrunning])
      (by rw [hst₁]) hk hdataless (by omega)
    exact ⟨st', localData, item, hadv.trans hadv', by rw [hst', hst₁]⟩

theorem Reached.run (h : st.Reached sys) (hsys : sys.Complete)
    (hrunning : (st.sched i).boot = .running) {x : Exec} (hexec : (st.sched i).exec = x :: rest) :
    ∃ st' localData item, Advance sys i st st' ∧ st'.sched i =
      { st.sched i with
        localData
        exec := rest
        completeQueue := (st.sched i).completeQueue ++ [item] } := by
  cases x with
  | popped tm =>
    have hheld : tm ∈ (st.sched i).held := by simp [Sched.held, hexec, Exec.task]
    obtain ⟨value, hvalue⟩ := h.exists_value_of_held hsys hheld
    have hlookup : (st.sched i).move sys.config (sys.id i) st.store (.lookupExec 0) =
        some { st.sched i with exec := .fetching tm value 0 [] :: rest } := by
      simp [Sched.move, Sched.lookupExec, hexec, hvalue]
    obtain ⟨st₁, hadv, _, hst₁⟩ := exists_move (a := .lookupExec 0) (fun _ => hrunning) hlookup
    obtain ⟨st', localData, item, hadv', hst'⟩ := (h.advance hadv).run_fetching hsys
      (by rw [hst₁, hrunning]) (by rw [hst₁])
    exact ⟨st', localData, item, hadv.trans hadv', by rw [hst', hst₁]⟩
  | fetching tm value k data => exact h.run_fetching hsys hrunning hexec
  | requiring tm value k data =>
    exact (((h.dataless hsys).sched i).exec (.requiring tm value k data) (by simp [hexec])).elim
  | stored tm value key =>
    obtain ⟨st', item, hadv, hst'⟩ := exists_finish hrunning hexec
    exact ⟨st', _, item, hadv, hst'⟩

end Exec

theorem exists_popReady (hsys : sys.Complete) (hrunning : (st.sched i).boot = .running)
    (hexec : (st.sched i).exec = []) (hne : (st.sched i).wsQueue ≠ []) :
    ∃ st' wsQueue tm, Advance sys i st st' ∧
      wsQueue.length + 1 = (st.sched i).wsQueue.length ∧
        st'.sched i = { st.sched i with wsQueue, exec := [.popped tm] } := by
  obtain ⟨k, tm, wsQueue, hpop⟩ := PriorityQueue.exists_pop highPriorityByDataSize hne
  have hlen := (PriorityQueue.perm_of_pop hpop).length_eq
  have hcore : (st.sched i).exec.length < sys.config.numCorePerExecutor := by
    rw [hexec]
    exact hsys.cores
  have hmove : (st.sched i).move sys.config (sys.id i) st.store (.popReady false k) =
      some { st.sched i with wsQueue, exec := [.popped tm] } := by
    rw [Sched.move, Sched.popReady, if_pos hcore, popTop_eq_pop k (st.sched i).wsQueue, hpop]
    simp [hexec]
  obtain ⟨st', hadv, _, hst'⟩ := exists_move (a := .popReady false k) (fun _ => hrunning) hmove
  exact ⟨st', wsQueue, tm, hadv, hlen.symm, hst'⟩

section Notify

variable {item : CmpQueueItem}

theorem Reached.length_landedOn_lt (h : st.Reached sys) (hsys : sys.Complete) {c : Fin m} {k : Int}
    (hk : sys.HasRecord c k) : (landedOn st.landed (sys.taskId c k)).length < 2 ^ 31 - 1 := by
  have hsound := h.sound hsys
  have hexec := hsound.conserved.nodup_executed hsys.distinct
  obtain ⟨adj, hadj, hmem⟩ := hk
  have hsub : (landedOn st.landed (sys.taskId c k)).map (·.cqItem.taskId) ⊆
      (adj.parents k).map (sys.taskId c) := by
    intro t ht
    obtain ⟨l, hl, rfl⟩ := List.mem_map.1 ht
    obtain ⟨p, hp, he⟩ := hsound.ledger.parent_of_landedOn hsys.distinct hadj hmem hl
    exact List.mem_map.2 ⟨p, hp, he.symm⟩
  have hle := ((hsound.ledger.nodup_landedOn hexec _).subperm hsub).length_le
  rw [List.length_map, List.length_map] at hle
  exact (hle.trans (length_parents_le hadj k)).trans_lt (hsys.numTask_lt c)

theorem notifyChild_eq {s : Sched} {id child : Str} {store store' : Store} {todo : List Str}
    {r : Retry} {next : Option Retry} (hnotify : s.notify = .notifying item (child :: todo) r)
    (hstep : r.step (notifyAttempt id item) child store = some (store', next)) :
    s.notifyChild id store = some (store',
      { s with
        notify := next.elim (.notifying item todo .look) (.notifying item (child :: todo)) },
      next.elim [⟨child, id, item⟩] fun _ => []) := by
  simp only [Sched.notifyChild, hnotify, hstep]
  cases next <;> rfl

theorem exists_notifyChild (hrunning : (st.sched i).boot = .running) {store : Store} {s : Sched}
    {landed : List Landing}
    (hs : (st.sched i).notifyChild (sys.id i) st.store = some (store, s, landed)) :
    ∃ st', Advance sys i st st' ∧ st'.store = store ∧ st'.sched i = s :=
  exists_act (b := .notifyChild) (fun _ => hrunning) (by rw [Sched.act, hs]; rfl)

theorem Reached.notify_children (h : st.Reached sys) (hsys : sys.Complete)
    (hrunning : (st.sched i).boot = .running) (hsent : ∀ c, ∃ todo, st.client c = .sending todo)
    {todo : List Str} {r : Retry} (hnotify : (st.sched i).notify = .notifying item todo r) :
    ∃ st', Advance sys i st st' ∧ st'.sched i = { st.sched i with notify := .idle } := by
  induction todo generalizing st r with
  | nil =>
    have hdone : (st.sched i).notifyChild (sys.id i) st.store =
        some (st.store, { st.sched i with notify := .idle }, []) := by
      rw [Sched.notifyChild, hnotify]
    obtain ⟨st', hadv, _, hst'⟩ := exists_notifyChild hrunning hdone
    exact ⟨st', hadv, hst'⟩
  | cons child todo ih =>
    have hworker := ((h.sound hsys).records.worker i).notify
    rw [hnotify] at hworker
    obtain ⟨c, k, hk, hchild⟩ := hworker.2.1 child List.mem_cons_self
    obtain ⟨sent, hc⟩ := hsent c
    obtain ⟨old, adj, time, _, _, hold, hval⟩ := h.exists_record hsys hk hc
    rw [← hchild] at hold
    have hne : old ≠ [] := by
      rintro rfl
      have hnone : strToValue [] = none := by decide
      rw [hnone] at hval
      cases hval
    have hroom : (recordOf (sys.client c).index adj k (landedOn st.landed (sys.taskId c k))
        time).parents.length < 2 ^ 31 - 1 := by
      simpa only [recordOf, List.length_map] using h.length_landedOn_lt hsys hk
    obtain ⟨new, hnew⟩ : ∃ new, notifyAttempt (sys.id i) item old = some new :=
      ⟨_, by rw [notifyAttempt, hval, Option.bind_some, if_pos hroom]⟩
    obtain ⟨st₁, hadv, hst₁⟩ : ∃ st₁, Advance sys i st st₁ ∧
        st₁.sched i = { st.sched i with notify := .notifying item todo .look } := by
      refine exists_retry_done
        (fun r st₁ => st₁.sched i = { st.sched i with notify := .notifying item (child :: todo) r })
        (fun r next st₂ hphase hstep => ?_) (fun r store st₂ hphase hstep => ?_) hold hne hnew
        (r := r) (by rw [← hnotify])
      · have hrunning₂ : (st₂.sched i).boot = .running := by rw [hphase, hrunning]
        obtain ⟨st', hadv, hstore, hst'⟩ := exists_notifyChild hrunning₂
          (notifyChild_eq (congrArg Sched.notify hphase) hstep)
        exact ⟨st', hadv, hstore, hst'.trans (by rw [hphase]; rfl)⟩
      · have hrunning₂ : (st₂.sched i).boot = .running := by rw [hphase, hrunning]
        obtain ⟨st', hadv, _, hst'⟩ := exists_notifyChild hrunning₂
          (notifyChild_eq (congrArg Sched.notify hphase) hstep)
        exact ⟨st', hadv, hst'.trans (by rw [hphase]; rfl)⟩
    obtain ⟨st', hadv', hst'⟩ := ih (h.advance hadv) (by rw [hst₁, hrunning])
      (by rw [hadv.client]; exact hsent) (by rw [hst₁])
    exact ⟨st', hadv.trans hadv', by rw [hst', hst₁]⟩

theorem Reached.notify_popped (h : st.Reached sys) (hsys : sys.Complete)
    (hrunning : (st.sched i).boot = .running) (hsent : ∀ c, ∃ todo, st.client c = .sending todo)
    (hnotify : (st.sched i).notify = .popped item) :
    ∃ st', Advance sys i st st' ∧ st'.sched i = { st.sched i with notify := .idle } := by
  have hitem : item ∈ (st.sched i).completed := by simp [Sched.completed, hnotify]
  obtain ⟨value, hvalue⟩ := h.exists_value_of_completed hsys hitem
  have hlookup : (st.sched i).lookupChildren st.store =
      some { st.sched i with notify := .notifying item value.children .look } := by
    rw [Sched.lookupChildren, hnotify]
    simp only [hvalue, Option.map_some]
  obtain ⟨st₁, hadv, _, hst₁⟩ := exists_act (b := .lookupChildren) (fun _ => hrunning)
    (by rw [Sched.act, hlookup]; rfl)
  obtain ⟨st', hadv', hst'⟩ := (h.advance hadv).notify_children hsys (by rw [hst₁, hrunning])
    (by rw [hadv.client]; exact hsent) (by rw [hst₁])
  exact ⟨st', hadv.trans hadv', by rw [hst', hst₁]⟩

theorem Reached.notify_queue (h : st.Reached sys) (hsys : sys.Complete)
    (hrunning : (st.sched i).boot = .running) (hsent : ∀ c, ∃ todo, st.client c = .sending todo)
    (hidle : (st.sched i).notify = .idle) : ∃ st', Advance sys i st st' ∧
      st'.sched i = { st.sched i with completeQueue := [], notify := .idle } := by
  induction hqueue : (st.sched i).completeQueue generalizing st with
  | nil => exact ⟨st, .refl sys i st, by rw [← hqueue, ← hidle]⟩
  | cons item rest ih =>
    have hpop : (st.sched i).popComplete =
        some { st.sched i with completeQueue := rest, notify := .popped item } := by
      rw [Sched.popComplete, hidle, hqueue]
    obtain ⟨st₁, hadv, _, hst₁⟩ := exists_act (b := .popComplete) (fun _ => hrunning)
      (by rw [Sched.act, hpop]; rfl)
    have h₁ := h.advance hadv
    have hsent₁ : ∀ c, ∃ todo, st₁.client c = .sending todo := by
      rw [hadv.client]
      exact hsent
    obtain ⟨st₂, hadv₂, hst₂⟩ := h₁.notify_popped hsys (by rw [hst₁, hrunning]) hsent₁
      (congrArg Sched.notify hst₁)
    obtain ⟨st', hadv', hst'⟩ := ih (h₁.advance hadv₂) (by rw [hst₂, hst₁, hrunning])
      (by rw [hadv₂.client]; exact hsent₁) (by rw [hst₂]) (by rw [hst₂, hst₁])
    exact ⟨st', (hadv.trans hadv₂).trans hadv', by rw [hst', hst₂, hst₁]⟩

/-- All completed tasks are looked up, and their children are notified. -/
theorem Reached.notify_all (h : st.Reached sys) (hsys : sys.Complete)
    (hrunning : (st.sched i).boot = .running)
    (hsent : ∀ c, ∃ todo, st.client c = .sending todo) : ∃ st', Advance sys i st st' ∧
      st'.sched i = { st.sched i with completeQueue := [], notify := .idle } := by
  obtain ⟨st₁, hadv, hst₁⟩ : ∃ st₁, Advance sys i st st₁ ∧
      st₁.sched i = { st.sched i with notify := .idle } := by
    cases hnotify : (st.sched i).notify with
    | idle => exact ⟨st, .refl sys i st, by rw [← hnotify]⟩
    | popped item => exact h.notify_popped hsys hrunning hsent hnotify
    | notifying item todo r => exact h.notify_children hsys hrunning hsent hnotify
  obtain ⟨st', hadv', hst'⟩ := (h.advance hadv).notify_queue hsys (by rw [hst₁, hrunning])
    (by rw [hadv.client]; exact hsent) (by rw [hst₁])
  exact ⟨st', hadv.trans hadv', by rw [hst', hst₁]⟩

end Notify

end State

end MatrixZht
