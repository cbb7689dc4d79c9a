import MatrixZht.Cluster.Safety

namespace MatrixZht
open Lib

/-- A record of which no data are known. -/
structure Value.Dataless (value : Value) : Prop where
  outputsize : value.outputsize.getD 0 = 0
  datasize : ∀ size ∈ value.datasize, size = 0
  alldatasize : value.alldatasize.getD 0 = 0

def Check.Dataless : Check → Prop
  | .ready _ value => value.Dataless
  | .toLocal _ => False
  | .pushing _ _ => False
  | _ => True

def Exec.Dataless : Exec → Prop
  | .popped _ => True
  | .fetching _ value _ data => value.Dataless ∧ data = []
  | .requiring _ _ _ _ => False
  | .stored _ value _ => value.Dataless

def Notify.Dataless : Notify → Prop
  | .idle => True
  | .popped cqItem => cqItem.dataSize = 0
  | .notifying cqItem _ _ => cqItem.dataSize = 0

/-- Nothing is in the local queue or on its way to it or out of it. -/
structure Sched.Unrouted (s : Sched) : Prop where
  localQueue : s.localQueue = []
  migrated : s.migrated = []
  check : s.check.Dataless

/-- No core has data or asks for some, and no notification has any. -/
structure Sched.Dataless (s : Sched) : Prop where
  exec : ∀ x ∈ s.exec, x.Dataless
  complete : ∀ item ∈ s.completeQueue, item.dataSize = 0
  notify : s.notify.Dataless

structure State.Dataless {n m : Nat} (st : State n m) : Prop where
  unrouted : ∀ i, (st.sched i).Unrouted
  sched : ∀ i, (st.sched i).Dataless
  landed : ∀ l ∈ st.landed, l.cqItem.dataSize = 0

/-- The tasks of a scheduler have records without data. -/
def Sched.Looks (store : Store) (s : Sched) : Prop :=
  ∀ tm ∈ s.held, ∀ value, strToValue (store.lookup tm.taskid) = some value → value.Dataless

theorem recordOf_dataless {index : Int} {adj : AdjList} {k : Int} {landed : List Landing}
    {time : Option Int} (h : ∀ l ∈ landed, l.cqItem.dataSize = 0) :
    (recordOf index adj k landed time).Dataless := by
  have hsize : ∀ size ∈ landed.map (·.cqItem.dataSize), size = 0 := by
    intro size hsize
    obtain ⟨l, hl, rfl⟩ := List.mem_map.1 hsize
    exact h l hl
  refine ⟨rfl, hsize, ?_⟩
  by_cases hnil : landed = []
  · simp [recordOf, hnil]
  · have hsum := List.sum_eq_zero hsize
    simp only [recordOf, if_neg hnil, Option.getD_some, hsum]
    rfl

namespace Sched

variable {config : Config} {id : Str} {store : Store} {s s' : Sched}

theorem Unrouted.processReady (h : s.Unrouted) (hthreshold : 0 ≤ config.dataSizeThreshold)
    (hs : s.processReady config id = some s') : s'.Unrouted := by
  unfold Sched.processReady at hs
  split at hs
  · next tm value hcheck =>
    have hvalue : value.Dataless := by
      have hready := h.check
      rwa [hcheck] at hready
    rw [taskReadyProcess, hvalue.alldatasize, if_pos hthreshold] at hs
    cases hs
    exact { h with check := trivial }
  · cases hs

theorem Unrouted.putChecked (h : s.Unrouted) (hs : s.putChecked = some s') : s'.Unrouted := by
  obtain ⟨tm, ⟨_, rfl⟩ | ⟨_, rfl⟩ | ⟨hlocal, rfl⟩⟩ := putChecked_spec hs
  · exact { h with check := trivial }
  · exact { h with check := trivial }
  · have hcheck := h.check
    rw [hlocal] at hcheck
    exact hcheck.elim

theorem Unrouted.move {a : Move} (h : s.Unrouted) (hthreshold : 0 ≤ config.dataSizeThreshold)
    (hlooks : s.Looks store) (hs : s.move config id store a = some s') : s'.Unrouted := by
  cases a with
  | accept reads =>
    obtain ⟨_, _, _, _, _, _, _, _, _, _, _, _, _, _, rfl⟩ := accept_spec hs
    exact ⟨h.localQueue, h.migrated, h.check⟩
  | enqueue =>
    obtain ⟨_, _, rfl⟩ | ⟨_, _, _, _, rfl⟩ := enqueue_spec hs
    · exact ⟨h.localQueue, h.migrated, h.check⟩
    · exact ⟨h.localQueue, h.migrated, h.check⟩
  | recvStolen reads =>
    obtain ⟨_, _, _, _, _, _, _, rfl⟩ := recvStolen_spec hs
    exact ⟨h.localQueue, h.migrated, h.check⟩
  | putStolen =>
    obtain ⟨_, rfl⟩ | ⟨_, _, _, rfl⟩ := putStolen_spec hs
    · exact ⟨h.localQueue, h.migrated, h.check⟩
    · exact ⟨h.localQueue, h.migrated, h.check⟩
  | popWaiting =>
    obtain ⟨_, _, _, _, rfl⟩ := popWaiting_spec hs
    exact ⟨h.localQueue, h.migrated, trivial⟩
  | lookupReady =>
    obtain ⟨tm, value, hcheck, hvalue, ⟨_, rfl⟩ | rfl⟩ := lookupReady_spec hs
    · have hheld : tm ∈ s.held := by simp [held, hcheck, Check.tasks]
      exact ⟨h.localQueue, h.migrated, hlooks tm hheld value hvalue⟩
    · exact ⟨h.localQueue, h.migrated, trivial⟩
  | processReady => exact h.processReady hthreshold hs
  | putChecked => exact h.putChecked hs
  | migrateOut maxSize ks ks' =>
    obtain ⟨_, _, _, _, _, ⟨_, hlt, _, _⟩, _⟩ := migrateOut_spec hs
    rw [h.localQueue] at hlt
    cases hlt
  | migrateIn =>
    cases hs
    exact ⟨h.localQueue, rfl, h.check⟩
  | popReady fromLocal k =>
    obtain ⟨_, _, _, ⟨_, hpop, _⟩ | ⟨_, _, rfl⟩⟩ := popReady_spec hs
    · rw [h.localQueue] at hpop
      cases k <;> cases hpop
    · exact ⟨h.localQueue, h.migrated, h.check⟩
  | lookupExec e =>
    obtain ⟨_, _, _, _, rfl⟩ := lookupExec_spec hs
    exact ⟨h.localQueue, h.migrated, h.check⟩
  | fetchLocal e =>
    obtain ⟨_, _, _, _, _, _, _, _, _, _, _, rfl⟩ := fetchLocal_spec hs
    exact ⟨h.localQueue, h.migrated, h.check⟩
  | requireData e =>
    obtain ⟨_, _, _, _, _, _, _, _, rfl⟩ := requireData_spec hs
    exact ⟨h.localQueue, h.migrated, h.check⟩
  | storeResult e result =>
    obtain ⟨_, _, _, _, rfl⟩ := storeResult_spec hs
    exact ⟨h.localQueue, h.migrated, h.check⟩

theorem Unrouted.progress {Writes : Store → Store → Prop} {eff : Effect} (h : s.Unrouted)
    (hp : Progress Writes id store s eff) : eff.sched.Unrouted := by
  cases hp <;> exact ⟨h.localQueue, h.migrated, h.check⟩

theorem dataless_next {env : Env} {localData localData' : Str → Option Str} {x y : Exec}
    (h : x.Dataless) (hlook : ∀ value, strToValue (env.store.lookup x.task.taskid) = some value →
      value.Dataless) (hxy : ExecNext env localData x y localData') : y.Dataless := by
  have hsize {value : Value} {i : Nat} {size : Int} (hvalue : value.Dataless)
      (hget : value.datasize[i]? = some size) (hpos : 0 < size) : False := by
    rw [hvalue.datasize size (List.mem_of_getElem? hget)] at hpos
    exact lt_irrefl 0 hpos
  cases hxy with
  | lookup hvalue => exact ⟨hlook _ hvalue, rfl⟩
  | skip _ _ => exact h
  | fetch hget hpos => exact (hsize h.1 hget hpos).elim
  | require hget hpos => exact (hsize h.1 hget hpos).elim
  | receive => exact h.elim
  | run _ => exact h.1

theorem exec_kept {env : Env} {P : Exec → Prop} (h : ∀ x ∈ s.exec, P x)
    (hpop : ∀ tm, P (.popped tm))
    (hnext : ∀ x y localData', x.task ∈ s.held → P x → ExecNext env s.localData x y localData' →
      P y) (hk : Kept env s s') : ∀ x ∈ s'.exec, P x := by
  have hstep := hk.exec
  generalize s'.exec = l' at hstep ⊢
  generalize s'.localData = localData' at hstep
  cases hstep with
  | same => exact h
  | pop tm =>
    intro x hx
    rcases List.mem_append.1 hx with hx | hx
    · exact h x hx
    · rw [List.mem_singleton.1 hx]
      exact hpop tm
  | @next e x y _ hx hxy =>
    have hmem := List.mem_of_getElem? hx
    have hheld : x.task ∈ s.held := List.mem_append_right _ (List.mem_map_of_mem hmem)
    intro z hz
    rcases List.mem_or_eq_of_mem_set hz with hz | rfl
    · exact h z hz
    · exact hnext x z _ hheld (h x hmem) hxy

theorem Dataless.kept {env : Env} (h : s.Dataless) (hlooks : s.Looks env.store)
    (hk : Kept env s s') : s'.Dataless where
  complete := hk.completeQueue ▸ h.complete
  notify := hk.notify ▸ h.notify
  exec := exec_kept h.exec (fun _ => trivial)
    (fun x _ _ hheld hx hxy => dataless_next hx (hlooks x.task hheld) hxy) hk

theorem Dataless.progress {Writes : Store → Store → Prop} {eff : Effect} (h : s.Dataless)
    (hp : Progress Writes id store s eff) :
    eff.sched.Dataless ∧ ∀ l ∈ eff.landed, l.cqItem.dataSize = 0 := by
  have hnotify := h.notify
  cases hp with
  | other _ _ _ => exact ⟨⟨h.exec, h.complete, h.notify⟩, by simp⟩
  | finish hexec =>
    refine ⟨⟨fun x hx => h.exec x (List.mem_of_mem_eraseIdx hx), ?_, h.notify⟩, by simp⟩
    intro item hitem
    rcases List.mem_append.1 hitem with hitem | hitem
    · exact h.complete item hitem
    · rw [List.mem_singleton.1 hitem]
      exact (h.exec _ (List.mem_of_getElem? hexec)).outputsize
  | popComplete _ hqueue =>
    have hcomplete := h.complete
    rw [hqueue] at hcomplete
    obtain ⟨hitem, hrest⟩ := List.forall_mem_cons.1 hcomplete
    exact ⟨⟨h.exec, hrest, hitem⟩, by simp⟩
  | lookupChildren hpopped _ =>
    rw [hpopped] at hnotify
    exact ⟨⟨h.exec, h.complete, hnotify⟩, by simp⟩
  | leave _ => exact ⟨⟨h.exec, h.complete, trivial⟩, by simp⟩
  | retry hn _ =>
    rw [hn] at hnotify
    exact ⟨⟨h.exec, h.complete, hnotify⟩, by simp⟩
  | land hn _ _ =>
    rw [hn] at hnotify
    refine ⟨⟨h.exec, h.complete, hnotify⟩, ?_⟩
    intro l hl
    rw [List.mem_singleton.1 hl]
    exact hnotify

end Sched

namespace State

variable {n m : Nat} {sys : System n m} {st st' : State n m}

theorem Conserved.value_eq (hcons : st.Conserved sys) (hrec : st.Records sys) {i : Fin n}
    {tm : TaskMsg} (htm : tm ∈ (st.sched i).held) {value : Value}
    (hvalue : strToValue (st.store.lookup tm.taskid) = some value) :
    ∃ c k adj L time, L.Sublist (landedOn st.landed (sys.taskId c k)) ∧
      value = recordOf (sys.client c).index adj k L time := by
  obtain ⟨c, j, hj, hid⟩ := hcons.exists_task htm
  obtain ⟨text, htext, hval⟩ := eq_some_of_strToValue hvalue
  rw [hid] at htext
  obtain ⟨L, hL, hisrec⟩ := hrec.store.record c j text
    (hrec.store.hasRecord (.inl ⟨j, hj, rfl⟩) htext) htext
  obtain ⟨adj, time, _, _, hrecord⟩ := hisrec.strToValue_eq
  rw [hval] at hrecord
  cases hrecord
  exact ⟨c, j, adj, L, time, hL, rfl⟩

/-- The records of the tasks of the schedulers have no data, since no notification has any. -/
theorem Dataless.looks (h : st.Dataless) (hcons : st.Conserved sys) (hrec : st.Records sys)
    (i : Fin n) : (st.sched i).Looks st.store := by
  intro tm htm value hvalue
  obtain ⟨c, k, adj, L, time, hL, rfl⟩ := hcons.value_eq hrec htm hvalue
  exact recordOf_dataless fun l hl => h.landed l (List.mem_of_mem_filter (hL.subset hl))

theorem Dataless.apply (h : st.Dataless) {i : Fin n} {eff : Effect}
    (hunrouted : eff.sched.Unrouted) (hsched : eff.sched.Dataless)
    (hlanded : ∀ l ∈ eff.landed, l.cqItem.dataSize = 0) : (st.apply i eff).Dataless where
  unrouted := by
    intro k
    by_cases hk : k = i
    · rwa [hk, apply_self]
    · rw [apply_of_ne hk]
      exact h.unrouted k
  sched := by
    intro k
    by_cases hk : k = i
    · rwa [hk, apply_self]
    · rw [apply_of_ne hk]
      exact h.sched k
  landed := fun l hl => (List.mem_append.1 hl).elim (h.landed l) (hlanded l)

theorem unrouted_setSched {i : Fin n} {s : Sched} (h : ∀ k, (st.sched k).Unrouted)
    (hs : s.Unrouted) (k : Fin n) : ((st.setSched i s).sched k).Unrouted := by
  by_cases hk : k = i
  · rwa [hk, setSched_self]
  · rw [setSched_of_ne hk]
    exact h k

theorem unrouted_takeFrom {i j : Fin n} {ks : List Nat} {taskVec : List TaskMsg}
    (h : ∀ k, (st.sched k).Unrouted) (htake : st.takeFrom sys i j ks = some (taskVec, st'))
    (k : Fin n) : (st'.sched k).Unrouted := by
  obtain ⟨_, _, s, hgive, rfl⟩ := takeFrom_spec htake
  obtain ⟨wsQueue, _, rfl⟩ := Sched.giveHalf_spec hgive
  refine unrouted_setSched h ?_ k
  exact ⟨(h j).localQueue, (h j).migrated, (h j).check⟩

/-- Between schedulers only stolen tasks travel. -/
theorem Dataless.unrouted_step (h : st.Dataless) (hthreshold : 0 ≤ sys.config.dataSizeThreshold)
    (hlooks : ∀ i, (st.sched i).Looks st.store) (hrec : st.Records sys) {a : Act n m}
    (hs : st.step sys a = some st') (k : Fin n) : (st'.sched k).Unrouted := by
  have hpushing (i : Fin n) : st.pushing i = none := by
    cases hp : st.pushing i with
    | none => rfl
    | some p =>
      have hcheck := (h.unrouted i).check
      rw [pushing_spec hp] at hcheck
      exact hcheck.elim
  have hself (i : Fin n) (thief : Thief) {st : State n m} (h : ∀ k, (st.sched k).Unrouted) :
      ((st.setThief i thief).sched k).Unrouted := by
    refine unrouted_setSched h ?_ k
    exact ⟨(h i).localQueue, (h i).migrated, (h i).check⟩
  cases a with
  | sched i b =>
    obtain ⟨eff, heff, rfl⟩ := Option.map_eq_some_iff.1 hs
    rw [Sched.step, Option.ite_none_right_eq_some] at heff
    suffices heff : eff.sched.Unrouted by
      by_cases hk : k = i
      · rwa [hk, apply_self]
      · rw [apply_of_ne hk]
        exact h.unrouted k
    by_cases hb : b.isMove = true
    · cases b with
      | move b =>
        obtain ⟨s', hmove, rfl⟩ := Option.map_eq_some_iff.1 heff.2
        exact (h.unrouted i).move hthreshold (hlooks i) hmove
      | _ => cases hb
    · have hprog : Progress (fun _ _ => True) (sys.id i) st.store (st.sched i) eff :=
        progress_of_act (hrec.worker i).loops trivial (fun _ _ _ => trivial) (fun _ _ => trivial)
          (by simpa using hb) heff.2
      exact (h.unrouted i).progress hprog
  | client c scheIdx time =>
    obtain ⟨_, _, rfl⟩ := Option.map_eq_some_iff.1 hs
    exact h.unrouted k
  | submit c =>
    obtain ⟨⟨j, tasks, todo⟩, _, hs⟩ := Option.bind_eq_some_iff.1 hs
    rw [Option.ite_none_right_eq_some] at hs
    cases hs.2
    obtain ⟨hlocal, hmigrated, hcheck⟩ := h.unrouted j
    refine @unrouted_setSched _ _ st j _ h.unrouted ?_ k
    exact ⟨hlocal, hmigrated, hcheck⟩
  | refuse c =>
    obtain ⟨_, _, rfl⟩ := Option.map_eq_some_iff.1 hs
    exact h.unrouted k
  | ask i j =>
    simp only [State.step, stepAsk, Option.ite_none_right_eq_some] at hs
    cases hs.2
    exact hself i _ h.unrouted
  | steal i j ks =>
    obtain ⟨⟨taskVec, st₁⟩, htake, rfl⟩ := Option.map_eq_some_iff.1 hs
    exact hself i _ (unrouted_takeFrom h.unrouted htake)
  | stealFail i j ks =>
    obtain ⟨⟨taskVec, st₁⟩, htake, rfl⟩ := Option.map_eq_some_iff.1 hs
    exact hself i _ (unrouted_takeFrom h.unrouted htake)
  | push i j =>
    simp only [State.step, hpushing, Option.bind_none] at hs
    cases hs
  | pushFail i =>
    simp only [State.step, hpushing, Option.map_none] at hs
    cases hs
  | fetch i e j reads =>
    obtain ⟨s, hfetch, rfl⟩ := Option.map_eq_some_iff.1 hs
    obtain ⟨_, _, _, _, _, _, _, _, hexec, _⟩ := Sched.fetchRemote_spec hfetch
    exact ((h.sched i).exec _ (List.mem_of_getElem? hexec)).elim

theorem Dataless.step (h : st.Dataless) (hthreshold : 0 ≤ sys.config.dataSizeThreshold)
    (hcons : st.Conserved sys) (hrec : st.Records sys) {a : Act n m}
    (hs : st.step sys a = some st') : st'.Dataless := by
  have hlooks := h.looks hcons hrec
  have hunrouted := h.unrouted_step hthreshold hlooks hrec hs
  rcases step_cases hs with hq | ⟨i, b, eff, rfl, hb, heff, rfl⟩ | ⟨c, store, phase, _, rfl⟩
  · exact ⟨hunrouted, fun i => (h.sched i).kept (hlooks i) (hq.sched i), hq.landed ▸ h.landed⟩
  · have hprog : Progress (fun _ _ => True) (sys.id i) st.store (st.sched i) eff :=
      progress_of_act (hrec.worker i).loops trivial (fun _ _ _ => trivial) (fun _ _ => trivial)
        hb heff
    obtain ⟨hsched, hlanded⟩ := (h.sched i).progress hprog
    have heff := hunrouted i
    rw [apply_self] at heff
    exact h.apply heff hsched hlanded
  · exact ⟨hunrouted, h.sched, h.landed⟩

theorem dataless_start (n m : Nat) : (start n m).Dataless where
  unrouted := fun _ => ⟨rfl, rfl, trivial⟩
  sched := fun _ => ⟨by simp [start], by simp [start], trivial⟩
  landed := by simp [start]

theorem dataless_run {acts : List (Act n m)} (hclean : sys.Clean) (hd : sys.Distinct)
    (hid : ∀ i, IsItem (sys.id i)) (hacts : ∀ a ∈ acts, a.apart sys)
    (hthreshold : 0 ≤ sys.config.dataSizeThreshold)
    (hrun : runActs (State.step sys) (start n m) acts = some st) : st.Dataless := by
  have hstart : (start n m).Conserved sys ∧ (start n m).Records sys ∧ (start n m).Dataless :=
    ⟨conserved_start sys, records_start sys, dataless_start n m⟩
  exact (runActs_preserves
    (P := fun st => st.Conserved sys ∧ st.Records sys ∧ st.Dataless)
    (fun _ _ _ ha hs h => ⟨h.1.step hclean hs, h.2.1.step hd hid ha hs,
      h.2.2.step hthreshold h.1 h.2.1 hs⟩) hacts hrun hstart).2.2

end State

end MatrixZht
