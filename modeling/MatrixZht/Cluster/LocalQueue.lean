import MatrixZht.Cluster.Push
import MatrixZht.Cluster.Steps

namespace MatrixZht
open Lib

/-- What is done to `localQueue`: `check_a_ready_task` and `recv_pushing_task` push a task,
`executing_task` takes one, and `localQueue_monitor` moves some to `wsQueue`. -/
inductive LocalAct where
  | push (tm : TaskMsg)
  | take (k : Nat)
  | migrate (maxSize : Nat) (ks ks' : List Nat)
deriving DecidableEq

/-- The queue after a step, the task that is executed and the tasks that `wsQueue` gets. -/
structure LocalStep where
  queue : List TaskMsg
  taken : Option TaskMsg := none
  migrated : List TaskMsg := []
deriving DecidableEq

namespace LocalQueue

def numTaskToMove (maxSize : Nat) (queue : List TaskMsg) : Nat :=
  (toInt32 (queue.length - maxSize)).toNat

def step (queue : List TaskMsg) : LocalAct → Option LocalStep
  | .push tm => some { queue := queue ++ [tm] }
  | .take k => (popTop k queue).map fun (tm, queue) => { queue, taken := some tm }
  | .migrate maxSize ks ks' =>
    if 0 < maxSize ∧ maxSize < queue.length ∧ ks.length = maxSize ∧
        ks'.length = numTaskToMove maxSize queue then
      (popMany ks queue).bind fun (vecRemain, queue) =>
        (popMany ks' queue).map fun (vecMigrated, queue) =>
          { queue := queue ++ vecRemain, migrated := vecMigrated }
    else none

def next (queue : List TaskMsg) (a : LocalAct) : Option (List TaskMsg) :=
  (step queue a).map LocalStep.queue

/-- The steps of a run from the empty queue have the property `P`. -/
def EveryStep (P : List TaskMsg → LocalAct → LocalStep → Prop) (as : List LocalAct) : Prop :=
  ∀ pre a, pre ++ [a] <+: as → ∀ queue r, runActs next [] pre = some queue →
    step queue a = some r → P queue a r

end LocalQueue

/-- The task that is executed has at least the data of those left, and none that moves has more
data than one that is kept. -/
structure LocalStep.LargestFirst (r : LocalStep) : Prop where
  taken : ∀ tm ∈ r.taken, ∀ left ∈ r.queue, left.datalength ≤ tm.datalength
  migrated : ∀ tm ∈ r.migrated, ∀ kept ∈ r.queue, tm.datalength ≤ kept.datalength

/-- The `n` tasks that leave a queue first have data of one length. -/
def LeastAlike (n : Nat) (queue : List TaskMsg) : Prop :=
  ∃ d, (∀ tm ∈ queue, d ≤ tm.datalength) ∧ n ≤ queue.countP (·.datalength = d)

/-- The order of the queue makes no difference to the step. -/
def LocalAct.Indifferent (queue : List TaskMsg) : LocalAct → Prop
  | push _ => True
  | take _ => LeastAlike queue.length queue
  | migrate maxSize _ _ => 0 < LocalQueue.numTaskToMove maxSize queue →
      LeastAlike (maxSize + LocalQueue.numTaskToMove maxSize queue) queue

section Order

variable {k : Nat} {ks : List Nat} {queue queue' first rest tms : List TaskMsg} {tm : TaskMsg}

theorem least_of_popTop (h : popTop k queue = some (tm, queue')) :
    ∀ left ∈ queue, tm.datalength ≤ left.datalength := by
  rw [popTop_eq_pop] at h
  intro left hleft
  simpa [highPriorityByDataSize] using PriorityQueue.top_of_pop h left hleft

theorem least_of_popMany (h : popMany ks queue = some (tms, queue')) :
    ∀ tm ∈ tms, ∀ left ∈ queue', tm.datalength ≤ left.datalength := by
  rw [popMany_eq_popMany] at h
  intro tm htm left hleft
  simpa [highPriorityByDataSize] using PriorityQueue.top_of_popMany h tm htm left hleft

theorem length_of_popMany (h : popMany ks queue = some (tms, queue')) :
    tms.length = ks.length := by
  rw [popMany_eq_popMany] at h
  exact PriorityQueue.length_of_popMany h

instance : IsStrictOrder TaskMsg (highPriorityByDataSize · ·) where
  irrefl := by simp [highPriorityByDataSize]
  trans := by
    intro tm₁ tm₂ tm₃ h₁ h₂
    simp only [highPriorityByDataSize, decide_eq_true_eq] at h₁ h₂ ⊢
    exact h₂.trans h₁

theorem exists_le_datalength (queue : List TaskMsg) : ∃ d, ∀ tm ∈ queue, d ≤ tm.datalength := by
  by_cases hq : queue = []
  · exact ⟨0, by simp [hq]⟩
  · obtain ⟨tm, _, htop⟩ := PriorityQueue.exists_top highPriorityByDataSize hq
    exact ⟨tm.datalength, by simpa [highPriorityByDataSize] using htop⟩

theorem leastAlike_iff (hperm : queue.Perm (first ++ rest))
    (hle : ∀ x ∈ first, ∀ y ∈ rest, x.datalength ≤ y.datalength) :
    LeastAlike first.length queue ↔
      ∀ x ∈ first, ∀ y ∈ first, x.datalength = y.datalength := by
  constructor
  · rintro ⟨d, hd, hn⟩
    have hall : ∀ x ∈ first, x.datalength = d := by
      intro x hx
      by_contra hne
      have hlt : d < x.datalength :=
        lt_of_le_of_ne (hd x (hperm.mem_iff.2 (List.mem_append_left _ hx))) (Ne.symm hne)
      have hrest : rest.countP (·.datalength = d) = 0 := by
        refine List.countP_eq_zero.2 fun y hy => ?_
        have := hle x hx y hy
        simp only [decide_eq_true_eq]
        omega
      rw [hperm.countP_eq, List.countP_append, hrest, add_zero] at hn
      have hfirst := List.countP_eq_length.1 (le_antisymm List.countP_le_length hn) x hx
      exact hne (of_decide_eq_true hfirst)
    exact fun x hx y hy => (hall x hx).trans (hall y hy).symm
  · intro hall
    cases first with
    | nil =>
      obtain ⟨d, hd⟩ := exists_le_datalength queue
      exact ⟨d, hd, Nat.zero_le _⟩
    | cons x first =>
      refine ⟨x.datalength, fun y hy => ?_, ?_⟩
      · rcases List.mem_append.1 (hperm.mem_iff.1 hy) with hy | hy
        · exact (hall x List.mem_cons_self y hy).le
        · exact hle x List.mem_cons_self y hy
      · have hfirst : (x :: first).countP (·.datalength = x.datalength) = (x :: first).length :=
          List.countP_eq_length.2 fun y hy => decide_eq_true (hall y hy x List.mem_cons_self)
        rw [hperm.countP_eq, List.countP_append, hfirst]
        exact Nat.le_add_right _ _

theorem popTop_cases (h : popTop k queue = some (tm, queue')) :
    (∀ left ∈ queue', left.datalength ≤ tm.datalength) ↔ LeastAlike queue.length queue := by
  have hperm := perm_of_popTop h
  have hle := least_of_popTop h
  rw [@leastAlike_iff queue queue [] (by simp) (by simp)]
  constructor
  · intro hleft
    have heq : ∀ x ∈ queue, x.datalength = tm.datalength := by
      intro x hx
      refine le_antisymm ?_ (hle x hx)
      rcases List.mem_cons.1 (hperm.mem_iff.1 hx) with rfl | hx
      · exact le_refl _
      · exact hleft x hx
    exact fun x hx y hy => (heq x hx).trans (heq y hy).symm
  · intro hall left hleft
    exact (hall left (hperm.mem_iff.2 (List.mem_cons_of_mem _ hleft)) tm
      (hperm.mem_iff.2 List.mem_cons_self)).le

end Order

namespace LocalQueue

variable {queue : List TaskMsg} {a : LocalAct} {r : LocalStep} {maxSize : Nat} {ks ks' : List Nat}

theorem migrate_spec (h : step queue (.migrate maxSize ks ks') = some r) :
    ∃ vecRemain rest, queue.Perm (vecRemain ++ r.migrated ++ rest) ∧
      r.queue = rest ++ vecRemain ∧ r.taken = none ∧ 0 < maxSize ∧ vecRemain.length = maxSize ∧
      r.migrated.length = numTaskToMove maxSize queue ∧
      (∀ x ∈ vecRemain, ∀ y ∈ r.migrated ++ rest, x.datalength ≤ y.datalength) ∧
      ∀ x ∈ r.migrated, ∀ y ∈ rest, x.datalength ≤ y.datalength := by
  rw [step, Option.ite_none_right_eq_some] at h
  obtain ⟨⟨hpos, _, hks, hks'⟩, h⟩ := h
  obtain ⟨⟨vecRemain, queue₁⟩, hremain, h⟩ := Option.bind_eq_some_iff.1 h
  obtain ⟨⟨vecMigrated, rest⟩, hmigrated, rfl⟩ := Option.map_eq_some_iff.1 h
  have hperm := perm_of_popMany hmigrated
  refine ⟨vecRemain, rest, ?_, rfl, rfl, hpos, (length_of_popMany hremain).trans hks,
    (length_of_popMany hmigrated).trans hks', fun x hx y hy => ?_, least_of_popMany hmigrated⟩
  · rw [List.append_assoc]
    exact (perm_of_popMany hremain).trans (hperm.append_left vecRemain)
  · exact least_of_popMany hremain x hx y (hperm.mem_iff.2 hy)

theorem largestFirst_step (h : step queue a = some r) : r.LargestFirst ↔ a.Indifferent queue := by
  cases a with
  | push tm =>
    cases h
    exact ⟨fun _ => trivial, fun _ => ⟨nofun, nofun⟩⟩
  | take k =>
    obtain ⟨⟨tm, queue'⟩, hpop, rfl⟩ := Option.map_eq_some_iff.1 h
    rw [LocalAct.Indifferent, ← popTop_cases hpop]
    exact ⟨fun hr => hr.taken tm rfl, fun hle => ⟨by simpa using hle, nofun⟩⟩
  | migrate maxSize ks ks' =>
    obtain ⟨vecRemain, rest, hperm, hqueue, htaken, hpos, hlen, hlen', hle, hle'⟩ := migrate_spec h
    have hfirst : maxSize + numTaskToMove maxSize queue = (vecRemain ++ r.migrated).length := by
      rw [List.length_append, hlen, hlen']
    have hbefore : ∀ x ∈ vecRemain ++ r.migrated, ∀ y ∈ rest, x.datalength ≤ y.datalength := by
      intro x hx y hy
      rcases List.mem_append.1 hx with hx | hx
      · exact hle x hx y (List.mem_append_right _ hy)
      · exact hle' x hx y hy
    rw [LocalAct.Indifferent, hfirst, leastAlike_iff hperm hbefore, ← hlen']
    constructor
    · intro hr hmoved
      obtain ⟨m, hm⟩ := List.exists_mem_of_length_pos hmoved
      obtain ⟨x₀, hx₀⟩ := List.exists_mem_of_length_pos (hlen.symm ▸ hpos)
      have hkept : ∀ x ∈ vecRemain, ∀ y ∈ r.migrated, x.datalength = y.datalength := by
        intro x hx y hy
        refine le_antisymm (hle x hx y (List.mem_append_left _ hy)) (hr.migrated y hy x ?_)
        exact hqueue ▸ List.mem_append_right _ hx
      have heq : ∀ x ∈ vecRemain ++ r.migrated, x.datalength = m.datalength := by
        intro x hx
        rcases List.mem_append.1 hx with hx | hx
        · exact hkept x hx m hm
        · exact (hkept x₀ hx₀ x hx).symm.trans (hkept x₀ hx₀ m hm)
      exact fun x hx y hy => (heq x hx).trans (heq y hy).symm
    · intro hall
      refine ⟨by simp [htaken], fun tm htm kept hkept => ?_⟩
      rw [hqueue] at hkept
      rcases List.mem_append.1 hkept with hkept | hkept
      · exact hle' tm htm kept hkept
      · exact (hall (List.length_pos_of_mem htm) tm (List.mem_append_right _ htm) kept
          (List.mem_append_left _ hkept)).le

end LocalQueue

namespace Sched

variable {config : Config} {id peerId : Str} {store store' : Store} {s s' peer : Sched} {e : Nat}
  {reads : List Str}

/-- The local queue is left alone, or one of its steps is made. -/
def LocalNext (s s' : Sched) : Prop :=
  s'.localQueue = s.localQueue ∨ ∃ a, LocalQueue.next s.localQueue a = some s'.localQueue

theorem localQueue_accept (h : s.accept config reads = some s') :
    s'.localQueue = s.localQueue := by
  obtain ⟨_, _, _, _, _, _, _, _, _, _, _, _, _, _, rfl⟩ := accept_spec h
  rfl

theorem localQueue_enqueue (h : s.enqueue store = some s') : s'.localQueue = s.localQueue := by
  obtain ⟨_, _, rfl⟩ | ⟨_, _, _, _, rfl⟩ := enqueue_spec h
  · rfl
  · rfl

theorem localQueue_recvStolen (h : s.recvStolen config reads = some s') :
    s'.localQueue = s.localQueue := by
  obtain ⟨_, _, _, _, _, _, _, rfl⟩ := recvStolen_spec h
  rfl

theorem localQueue_putStolen (h : s.putStolen = some s') : s'.localQueue = s.localQueue := by
  obtain ⟨_, rfl⟩ | ⟨_, _, _, rfl⟩ := putStolen_spec h
  · rfl
  · rfl

theorem localQueue_popWaiting (h : s.popWaiting = some s') : s'.localQueue = s.localQueue := by
  obtain ⟨_, _, _, _, rfl⟩ := popWaiting_spec h
  rfl

theorem localQueue_lookupReady (h : s.lookupReady store = some s') :
    s'.localQueue = s.localQueue := by
  obtain ⟨_, _, _, _, ⟨_, rfl⟩ | rfl⟩ := lookupReady_spec h
  · rfl
  · rfl

theorem localQueue_processReady (h : s.processReady config id = some s') :
    s'.localQueue = s.localQueue := by
  obtain ⟨_, _, _, _, _, _, _, _, rfl⟩ := processReady_spec h
  rfl

theorem localNext_putChecked (h : s.putChecked = some s') : LocalNext s s' := by
  obtain ⟨tm, ⟨_, rfl⟩ | ⟨_, rfl⟩ | ⟨_, rfl⟩⟩ := putChecked_spec h
  · exact .inl rfl
  · exact .inl rfl
  · exact .inr ⟨.push tm, rfl⟩

theorem migrateOut_step {maxSize : Nat} {ks ks' : List Nat}
    (h : s.migrateOut maxSize ks ks' = some s') : ∃ r,
      LocalQueue.step s.localQueue (.migrate maxSize ks ks') = some r ∧
        s'.localQueue = r.queue ∧ s'.migrated = r.migrated := by
  obtain ⟨vecRemain, localQueue, vecMigrated, rest, _, hmove, hremain, htaken, rfl⟩ :=
    migrateOut_spec h
  refine ⟨⟨rest ++ vecRemain, none, vecMigrated⟩, ?_, rfl, rfl⟩
  rw [LocalQueue.step, LocalQueue.numTaskToMove, if_pos hmove, hremain, Option.bind_some]
  simp only [htaken, Option.map_some]

theorem popReady_step {k : Nat} (h : s.popReady config true k = some s') : ∃ r tm,
    LocalQueue.step s.localQueue (.take k) = some r ∧ r.taken = some tm ∧
      s'.localQueue = r.queue ∧ s'.exec = s.exec ++ [.popped tm] := by
  obtain ⟨tm, queue, _, ⟨_, hpop, rfl⟩ | ⟨he, _⟩⟩ := popReady_spec h
  · exact ⟨⟨queue, some tm, []⟩, tm, by rw [LocalQueue.step, hpop]; rfl, rfl, rfl, rfl⟩
  · cases he

theorem localNext_popReady {fromLocal : Bool} {k : Nat}
    (h : s.popReady config fromLocal k = some s') : LocalNext s s' := by
  cases fromLocal with
  | true =>
    obtain ⟨r, tm, hstep, _, hqueue, _⟩ := popReady_step h
    exact .inr ⟨.take k, by rw [LocalQueue.next, hstep, hqueue]; rfl⟩
  | false =>
    obtain ⟨tm, queue, _, ⟨he, _⟩ | ⟨_, _, rfl⟩⟩ := popReady_spec h
    · cases he
    · exact .inl rfl

theorem localQueue_lookupExec (h : s.lookupExec store e = some s') :
    s'.localQueue = s.localQueue := by
  obtain ⟨_, _, _, _, rfl⟩ := lookupExec_spec h
  rfl

theorem localQueue_fetchLocal (h : s.fetchLocal config id e = some s') :
    s'.localQueue = s.localQueue := by
  obtain ⟨_, _, _, _, _, _, _, _, _, _, _, rfl⟩ := fetchLocal_spec h
  rfl

theorem localQueue_requireData (h : s.requireData config id e = some s') :
    s'.localQueue = s.localQueue := by
  obtain ⟨_, _, _, _, _, _, _, _, rfl⟩ := requireData_spec h
  rfl

theorem localQueue_fetchRemote (h : s.fetchRemote config peerId e reads peer = some s') :
    s'.localQueue = s.localQueue := by
  obtain ⟨_, _, _, _, _, _, _, _, _, _, _, _, _, _, _, rfl⟩ := fetchRemote_spec h
  rfl

theorem localQueue_storeResult {result : Str} (h : s.storeResult id e result = some s') :
    s'.localQueue = s.localQueue := by
  obtain ⟨_, _, _, _, rfl⟩ := storeResult_spec h
  rfl

theorem localNext_recvPush {tm : TaskMsg} (h : s.recvPush tm = some s') : LocalNext s s' := by
  rw [LocalNext, localQueue_recvPush h]
  cases pushedTask (pushText tm) with
  | none => exact .inl (List.append_nil _)
  | some tm' => exact .inr ⟨.push tm', rfl⟩

theorem localQueue_popComplete (h : s.popComplete = some s') : s'.localQueue = s.localQueue := by
  obtain ⟨_, _, _, _, rfl⟩ := popComplete_spec h
  rfl

theorem localQueue_lookupChildren (h : s.lookupChildren store = some s') :
    s'.localQueue = s.localQueue := by
  obtain ⟨_, _, _, _, rfl⟩ := lookupChildren_spec h
  rfl

theorem localQueue_notifyChild {landed : List Landing}
    (h : s.notifyChild id store = some (store', s', landed)) : s'.localQueue = s.localQueue := by
  obtain ⟨_, _, _, _, rfl, _⟩ | ⟨_, _, _, _, _, _, _, ⟨_, rfl, _⟩ | ⟨_, _, _, rfl⟩⟩ :=
    notifyChild_spec h
  all_goals rfl

theorem localQueue_countReceived {counted : List Int}
    (h : s.countReceived store = some (store', s', counted)) :
    s'.localQueue = s.localQueue := by
  obtain ⟨_, _, _, _, _, ⟨_, rfl, _⟩ | ⟨_, _, rfl, _⟩⟩ := countReceived_spec h
  · rfl
  · rfl

theorem localNext_move {a : Move} (h : s.move config id store a = some s') : LocalNext s s' := by
  cases a with
  | accept reads => exact .inl (localQueue_accept h)
  | enqueue => exact .inl (localQueue_enqueue h)
  | recvStolen reads => exact .inl (localQueue_recvStolen h)
  | putStolen => exact .inl (localQueue_putStolen h)
  | popWaiting => exact .inl (localQueue_popWaiting h)
  | lookupReady => exact .inl (localQueue_lookupReady h)
  | processReady => exact .inl (localQueue_processReady h)
  | putChecked => exact localNext_putChecked h
  | migrateOut maxSize ks ks' =>
    obtain ⟨r, hstep, hqueue, _⟩ := migrateOut_step h
    exact .inr ⟨.migrate maxSize ks ks', by rw [LocalQueue.next, hstep, hqueue]; rfl⟩
  | migrateIn =>
    cases h
    exact .inl rfl
  | popReady fromLocal k => exact localNext_popReady h
  | lookupExec e => exact .inl (localQueue_lookupExec h)
  | fetchLocal e => exact .inl (localQueue_fetchLocal h)
  | requireData e => exact .inl (localQueue_requireData h)
  | storeResult e result => exact .inl (localQueue_storeResult h)

theorem localNext_act {a : SchedAct} {numScheduler : Nat} {eff : Effect}
    (h : s.act config numScheduler id store a = some eff) : LocalNext s eff.sched := by
  cases a with
  | boot =>
    obtain ⟨_, _, rfl⟩ := Option.map_eq_some_iff.1 h
    exact .inl rfl
  | countReceived =>
    obtain ⟨⟨store', s', counted⟩, hs, rfl⟩ := Option.map_eq_some_iff.1 h
    exact .inl (localQueue_countReceived hs)
  | move a =>
    obtain ⟨s', hs, rfl⟩ := Option.map_eq_some_iff.1 h
    exact localNext_move hs
  | finish e =>
    obtain ⟨⟨s', tm⟩, hs, rfl⟩ := Option.map_eq_some_iff.1 h
    obtain ⟨_, _, _, rfl⟩ := finish_spec hs
    exact .inl rfl
  | popComplete =>
    obtain ⟨s', hs, rfl⟩ := Option.map_eq_some_iff.1 h
    exact .inl (localQueue_popComplete hs)
  | lookupChildren =>
    obtain ⟨s', hs, rfl⟩ := Option.map_eq_some_iff.1 h
    exact .inl (localQueue_lookupChildren hs)
  | notifyChild =>
    obtain ⟨⟨store', s', landed⟩, hs, rfl⟩ := Option.map_eq_some_iff.1 h
    exact .inl (localQueue_notifyChild hs)
  | recordStat counters =>
    cases h
    exact .inl rfl

end Sched

namespace State

variable {n m : Nat} {sys : System n m} {st st' : State n m} {i j : Fin n} {s : Sched}

theorem localNext_setSched (hs : Sched.LocalNext (st.sched i) s) (k : Fin n) :
    Sched.LocalNext (st.sched k) ((st.setSched i s).sched k) :=
  (Function.forall_update_iff st.sched fun k => Sched.LocalNext (st.sched k)).2
    ⟨hs, fun _ _ => .inl rfl⟩ k

theorem localQueue_setSched (hs : s.localQueue = (st.sched i).localQueue) (k : Fin n) :
    ((st.setSched i s).sched k).localQueue = (st.sched k).localQueue :=
  (Function.forall_update_iff st.sched fun k s => s.localQueue = (st.sched k).localQueue).2
    ⟨hs, fun _ _ => rfl⟩ k

theorem localQueue_setThief (thief : Thief) (k : Fin n) :
    ((st.setThief i thief).sched k).localQueue = (st.sched k).localQueue :=
  localQueue_setSched (by rfl) k

theorem localQueue_setCheck (check : Check) (k : Fin n) :
    ((st.setCheck i check).sched k).localQueue = (st.sched k).localQueue :=
  localQueue_setSched (by rfl) k

theorem localQueue_takeFrom {ks : List Nat} {taskVec : List TaskMsg}
    (h : st.takeFrom sys i j ks = some (taskVec, st')) (k : Fin n) :
    (st'.sched k).localQueue = (st.sched k).localQueue := by
  obtain ⟨_, _, s, hgive, rfl⟩ := takeFrom_spec h
  obtain ⟨wsQueue, _, rfl⟩ := Sched.giveHalf_spec hgive
  exact localQueue_setSched (by rfl) k

/-- A step of the cluster is at most one step of each local queue. -/
theorem localNext_step {a : Act n m} (h : st.step sys a = some st') (k : Fin n) :
    Sched.LocalNext (st.sched k) (st'.sched k) := by
  cases a with
  | sched i b =>
    obtain ⟨eff, heff, rfl⟩ := Option.map_eq_some_iff.1 h
    rw [Sched.step, Option.ite_none_right_eq_some] at heff
    exact localNext_setSched (Sched.localNext_act heff.2) k
  | client c scheIdx time =>
    obtain ⟨_, _, rfl⟩ := Option.map_eq_some_iff.1 h
    exact .inl rfl
  | submit c =>
    obtain ⟨⟨j, tasks, todo⟩, _, h⟩ := Option.bind_eq_some_iff.1 h
    rw [Option.ite_none_right_eq_some] at h
    cases h.2
    exact .inl (@localQueue_setSched _ _ st _ _ (by rfl) k)
  | refuse c =>
    obtain ⟨_, _, rfl⟩ := Option.map_eq_some_iff.1 h
    exact .inl rfl
  | ask i j =>
    simp only [State.step, stepAsk, Option.ite_none_right_eq_some] at h
    cases h.2
    exact .inl (localQueue_setThief _ k)
  | steal i j ks =>
    obtain ⟨⟨taskVec, st₁⟩, htake, rfl⟩ := Option.map_eq_some_iff.1 h
    exact .inl ((localQueue_setThief _ k).trans (localQueue_takeFrom htake k))
  | stealFail i j ks =>
    obtain ⟨⟨taskVec, st₁⟩, htake, rfl⟩ := Option.map_eq_some_iff.1 h
    exact .inl ((localQueue_setThief _ k).trans (localQueue_takeFrom htake k))
  | push i j =>
    obtain ⟨⟨tm, peer⟩, _, h⟩ := Option.bind_eq_some_iff.1 h
    rw [Option.ite_none_right_eq_some] at h
    obtain ⟨s, hrecv, rfl⟩ := Option.map_eq_some_iff.1 h.2
    have hnext := localNext_setSched (Sched.localNext_recvPush hrecv) k
    rwa [Sched.LocalNext, localQueue_setCheck] at hnext
  | pushFail i =>
    obtain ⟨⟨tm, peer⟩, _, rfl⟩ := Option.map_eq_some_iff.1 h
    exact .inl (localQueue_setCheck _ k)
  | fetch i e j reads =>
    obtain ⟨s, hfetch, rfl⟩ := Option.map_eq_some_iff.1 h
    exact .inl (localQueue_setSched (Sched.localQueue_fetchRemote hfetch) k)

/-- What a run of the cluster does to a local queue is a run of that queue. -/
theorem exists_localRun {as : List (Act n m)} (h : runActs (step sys) (start n m) as = some st)
    (k : Fin n) :
    ∃ bs, runActs LocalQueue.next [] bs = some (st.sched k).localQueue := by
  refine runActs_invariant (P := fun st : State n m =>
    ∃ bs, runActs LocalQueue.next [] bs = some (st.sched k).localQueue) ?_ h ⟨[], rfl⟩
  rintro st a st' hstep ⟨bs, hbs⟩
  rcases localNext_step hstep k with he | ⟨b, hb⟩
  · exact ⟨bs, he ▸ hbs⟩
  · exact ⟨bs ++ [b], (runActs_concat hbs b).trans hb⟩

end State

section LargestFirst

/-- The task executed has the most data, and none that moves has more than one kept, exactly in
the runs where this makes no difference. -/
theorem localQueue_largestFirst (as : List LocalAct) :
    LocalQueue.EveryStep (fun _ _ r => r.LargestFirst) as ↔
      LocalQueue.EveryStep (fun queue a _ => a.Indifferent queue) as := by
  constructor
  · intro hall pre a hpre queue r hrun hstep
    exact (LocalQueue.largestFirst_step hstep).1 (hall pre a hpre queue r hrun hstep)
  · intro hall pre a hpre queue r hrun hstep
    exact (LocalQueue.largestFirst_step hstep).2 (hall pre a hpre queue r hrun hstep)

def smallTask : TaskMsg := ⟨"1".toList, "u".toList, "d".toList, "sleep 0".toList, 1⟩

def largeTask : TaskMsg := ⟨"2".toList, "u".toList, "d".toList, "sleep 0".toList, 2⟩

/-- The task of one byte is executed before the one of two bytes, which moves to `wsQueue`. -/
theorem smallest_first :
    ¬ LocalQueue.EveryStep (fun _ _ r => r.LargestFirst)
        [.push smallTask, .push largeTask, .take 0] ∧
      ¬ LocalQueue.EveryStep (fun _ _ r => r.LargestFirst)
        [.push smallTask, .push largeTask, .migrate 1 [0] [0]] := by
  constructor
  · intro hall
    have hlarge := hall [.push smallTask, .push largeTask] (.take 0) (List.prefix_refl _)
      [smallTask, largeTask] ⟨[largeTask], some smallTask, []⟩ rfl (by decide)
    exact absurd (hlarge.taken smallTask rfl largeTask List.mem_cons_self) (by decide)
  · intro hall
    have hlarge := hall [.push smallTask, .push largeTask] (.migrate 1 [0] [0])
      (List.prefix_refl _) [smallTask, largeTask] ⟨[smallTask], none, [largeTask]⟩ rfl (by decide)
    exact absurd (hlarge.migrated largeTask List.mem_cons_self smallTask List.mem_cons_self)
      (by decide)

end LargestFirst

end MatrixZht
