import MatrixZht.Cluster.Held

namespace MatrixZht
open Lib

/-- A task that is run: where, its id and its output. -/
structure Output (n : Nat) where
  sched : Fin n
  taskid : Str
  result : Str
deriving DecidableEq

/-- The task that an action runs. -/
def State.output {n m : Nat} (st : State n m) : Act n m → Option (Output n)
  | .sched i (.move (.storeResult e result)) =>
    (st.sched i).exec[e]?.map fun x => ⟨i, x.task.taskid, result⟩
  | _ => none

def State.env {n m : Nat} (sys : System n m) (st : State n m) (out : Option (Output n))
    (i : Fin n) : Env where
  id := sys.id i
  store := st.store
  cache := sys.config.cache
  peer := fun peerId localData => ∃ j, sys.id j = peerId ∧ (st.sched j).localData = localData
  ran := fun taskid result => out = some ⟨i, taskid, result⟩

/-- The store, the records of what has happened and the completed tasks stay as they are. -/
structure Quiet {n m : Nat} (sys : System n m) (out : Option (Output n)) (st st' : State n m) :
    Prop where
  store : st'.store = st.store
  executed : st'.executed = st.executed
  landed : st'.landed = st.landed
  counted : st'.counted = st.counted
  sched : ∀ i, Kept (st.env sys out i) (st.sched i) (st'.sched i)
  client : ∀ c, st'.client c = st.client c ∨
    ∃ todo todo', st.client c = .sending todo ∧ st'.client c = .sending todo'

def SchedAct.isMove : SchedAct → Bool
  | move _ => true
  | _ => false

namespace State

variable {n m : Nat} {sys : System n m} {out : Option (Output n)} {st st' : State n m}
  {i j : Fin n} {s : Sched}

@[simp] theorem setSched_self : (st.setSched i s).sched i = s := Function.update_self ..

theorem setSched_of_ne (h : j ≠ i) : (st.setSched i s).sched j = st.sched j :=
  Function.update_of_ne h ..

@[simp] theorem apply_self {eff : Effect} : (st.apply i eff).sched i = eff.sched :=
  Function.update_self ..

theorem apply_of_ne {eff : Effect} (h : j ≠ i) : (st.apply i eff).sched j = st.sched j :=
  Function.update_of_ne h ..

theorem nextSubmission_spec {c : Fin m} {tasks : List TaskMsg}
    {todo : List (Fin n × List TaskMsg)} (h : st.nextSubmission c = some (j, tasks, todo)) :
    st.client c = .sending ((j, tasks) :: todo) := by
  unfold nextSubmission at h
  split at h
  · next hphase =>
    cases h
    exact hphase
  · cases h

theorem pushing_spec {tm : TaskMsg} {peer : Str} (h : st.pushing i = some (tm, peer)) :
    (st.sched i).check = .pushing tm peer := by
  unfold pushing at h
  split at h
  · next hcheck =>
    cases h
    exact hcheck
  · cases h

theorem takeFrom_spec {ks : List Nat} {taskVec : List TaskMsg}
    (h : st.takeFrom sys i j ks = some (taskVec, st')) :
    (st.sched i).thief = .asked j ∧ i ≠ j ∧
      ∃ s, (st.sched j).giveHalf sys.config ks = some (taskVec, s) ∧ st' = st.setSched j s := by
  rw [takeFrom, Option.ite_none_right_eq_some] at h
  obtain ⟨⟨hthief, hne⟩, h⟩ := h
  obtain ⟨⟨taskVec', s⟩, hgive, he⟩ := Option.map_eq_some_iff.1 h
  cases he
  exact ⟨hthief, hne, s, hgive, rfl⟩

theorem kept_update (hs : Kept (st.env sys out i) (st.sched i) s) (k : Fin n) :
    Kept (st.env sys out k) (st.sched k) (Function.update st.sched i s k) :=
  (Function.forall_update_iff st.sched fun k => Kept (st.env sys out k) (st.sched k)).2
    ⟨hs, fun _ _ => ⟨rfl, rfl, rfl, .inl rfl, .same⟩⟩ k

theorem quiet_setSched (hs : Kept (st.env sys out i) (st.sched i) s) :
    Quiet sys out st (st.setSched i s) where
  store := rfl
  executed := rfl
  landed := rfl
  counted := rfl
  sched := kept_update hs
  client := fun _ => .inl rfl

end State

namespace Quiet

variable {n m : Nat} {sys : System n m} {out : Option (Output n)} {st : State n m} {i : Fin n}
  {s : Sched}

theorem refl (sys : System n m) (out : Option (Output n)) (st : State n m) :
    Quiet sys out st st where
  store := rfl
  executed := rfl
  landed := rfl
  counted := rfl
  sched := fun _ => ⟨rfl, rfl, rfl, .inl rfl, .same⟩
  client := fun _ => .inl rfl

theorem setSched {st₁ : State n m} (h : Quiet sys out st st₁)
    (hc : s.completeQueue = (st₁.sched i).completeQueue) (hn : s.notify = (st₁.sched i).notify)
    (hb : s.boot = (st₁.sched i).boot) (hv : s.serving = (st₁.sched i).serving)
    (he : s.exec = (st₁.sched i).exec) (hl : s.localData = (st₁.sched i).localData) :
    Quiet sys out st (st₁.setSched i s) where
  store := h.store
  executed := h.executed
  landed := h.landed
  counted := h.counted
  sched := by
    refine (Function.forall_update_iff st₁.sched
      fun k => Kept (st.env sys out k) (st.sched k)).2 ⟨?_, fun k _ => h.sched k⟩
    obtain ⟨hc', hn', hb', hv', he'⟩ := h.sched i
    exact ⟨hc.trans hc', hn.trans hn', hb.trans hb', hv ▸ hv', he ▸ hl ▸ he'⟩
  client := h.client

theorem lose {st₁ : State n m} (h : Quiet sys out st st₁) (tasks : List TaskMsg) :
    Quiet sys out st (st₁.lose tasks) :=
  ⟨h.store, h.executed, h.landed, h.counted, h.sched, h.client⟩

end Quiet

namespace State

variable {n m : Nat} {sys : System n m} {out : Option (Output n)} {st st' : State n m}
  {i j : Fin n}

theorem recvPush_spec' {tm : TaskMsg} {s s' : Sched} (h : s.recvPush tm = some s') :
    ∃ localQueue, s' = { s with localQueue } := by
  rw [Sched.recvPush, Option.ite_none_right_eq_some] at h
  obtain ⟨_, h⟩ := h
  split at h
  · obtain ⟨r, _, rfl⟩ := Option.map_eq_some_iff.1 h
    exact ⟨r.1, rfl⟩
  · cases h

theorem quiet_takeFrom {ks : List Nat} {taskVec : List TaskMsg}
    (h : st.takeFrom sys i j ks = some (taskVec, st')) : Quiet sys out st st' := by
  obtain ⟨_, _, s, hgive, rfl⟩ := takeFrom_spec h
  obtain ⟨wsQueue, _, rfl⟩ := Sched.giveHalf_spec hgive
  exact (Quiet.refl sys _ st).setSched rfl rfl rfl rfl rfl rfl

theorem quiet_setClient {c : Fin m} {todo todo' : List (Fin n × List TaskMsg)}
    (hc : st.client c = .sending todo) (d : Fin m) :
    Function.update st.client c (.sending todo') d = st.client d ∨
      ∃ t t', st.client d = .sending t ∧
        Function.update st.client c (.sending todo') d = .sending t' := by
  by_cases hd : d = c
  · subst hd
    exact .inr ⟨todo, todo', hc, Function.update_self ..⟩
  · exact .inl (Function.update_of_ne hd ..)

/-- The kinds of steps: a quiet one, a step of a single scheduler, or a request of a client. -/
theorem step_cases {a : Act n m} (h : st.step sys a = some st') :
    Quiet sys (st.output a) st st' ∨
      (∃ i b eff, a = .sched i b ∧ b.isMove = false ∧
        (st.sched i).act sys.config n (sys.id i) st.store b = some eff ∧ st' = st.apply i eff) ∨
      ∃ c store phase, ClientNext (sys.client c) st.store (st.client c) store phase ∧
        st' = { st.setClient c phase with store } := by
  cases a with
  | sched i b =>
    obtain ⟨eff, heff, rfl⟩ := Option.map_eq_some_iff.1 h
    rw [Sched.step, Option.ite_none_right_eq_some] at heff
    by_cases hb : b.isMove = true
    · cases b with
      | move b =>
        obtain ⟨s', hs, rfl⟩ := Option.map_eq_some_iff.1 heff.2
        have hran (e : Nat) (result : Str) (x : Exec) (hb : b = .storeResult e result)
            (hx : (st.sched i).exec[e]? = some x) :
            (st.env sys (st.output (.sched i (.move b))) i).ran x.task.taskid result := by
          subst hb
          simp [env, output, hx]
        refine .inl ⟨rfl, ?_, ?_, ?_, kept_update (Sched.kept_move rfl hran hs), fun _ => .inl rfl⟩
        · exact List.append_nil _
        · exact List.append_nil _
        · exact List.append_nil _
      | _ => cases hb
    · exact .inr (.inl ⟨i, b, eff, rfl, by simpa using hb, heff.2, rfl⟩)
  | client c scheIdx time =>
    obtain ⟨⟨store, phase⟩, hphase, rfl⟩ := Option.map_eq_some_iff.1 h
    exact .inr (.inr ⟨c, store, phase, ClientPhase.next hphase, rfl⟩)
  | submit c =>
    obtain ⟨⟨j, tasks, todo⟩, hnext, h⟩ := Option.bind_eq_some_iff.1 h
    rw [Option.ite_none_right_eq_some] at h
    cases h.2
    have hsched : Quiet sys none st (st.setSched j
        { st.sched j with inbox := (st.sched j).inbox ++ [tasks] }) :=
      (Quiet.refl sys _ st).setSched rfl rfl rfl rfl rfl rfl
    exact .inl ⟨rfl, rfl, rfl, rfl, hsched.sched, quiet_setClient (nextSubmission_spec hnext)⟩
  | refuse c =>
    obtain ⟨⟨j, tasks, todo⟩, hnext, rfl⟩ := Option.map_eq_some_iff.1 h
    exact .inl ⟨rfl, rfl, rfl, rfl, (Quiet.refl sys _ st).sched,
      quiet_setClient (nextSubmission_spec hnext)⟩
  | ask i j =>
    simp only [State.step, stepAsk, Option.ite_none_right_eq_some] at h
    cases h.2
    exact .inl ((Quiet.refl sys _ st).setSched rfl rfl rfl rfl rfl rfl)
  | steal i j ks =>
    obtain ⟨⟨taskVec, st₁⟩, htake, rfl⟩ := Option.map_eq_some_iff.1 h
    exact .inl ((quiet_takeFrom htake).setSched rfl rfl rfl rfl rfl rfl)
  | stealFail i j ks =>
    obtain ⟨⟨taskVec, st₁⟩, htake, rfl⟩ := Option.map_eq_some_iff.1 h
    have hthief : Quiet sys none st (st₁.setThief i .idle) :=
      (quiet_takeFrom htake).setSched rfl rfl rfl rfl rfl rfl
    exact .inl (hthief.lose taskVec)
  | push i j =>
    obtain ⟨⟨tm, peer⟩, _, h⟩ := Option.bind_eq_some_iff.1 h
    rw [Option.ite_none_right_eq_some] at h
    obtain ⟨s, hrecv, rfl⟩ := Option.map_eq_some_iff.1 h.2
    obtain ⟨localQueue, rfl⟩ := recvPush_spec' hrecv
    have hsend : Quiet sys none st (st.setCheck i .idle) :=
      (Quiet.refl sys _ st).setSched rfl rfl rfl rfl rfl rfl
    exact .inl (hsend.setSched rfl rfl rfl rfl rfl rfl)
  | pushFail i =>
    obtain ⟨⟨tm, peer⟩, _, rfl⟩ := Option.map_eq_some_iff.1 h
    have hsend : Quiet sys none st (st.setCheck i .idle) :=
      (Quiet.refl sys _ st).setSched rfl rfl rfl rfl rfl rfl
    exact .inl (hsend.lose [tm])
  | fetch i e j reads =>
    obtain ⟨s, hfetch, rfl⟩ := Option.map_eq_some_iff.1 h
    have hmoved : Moved (st.env sys none i) (st.sched i) s :=
      Sched.moved_fetchRemote rfl ⟨j, rfl, rfl⟩ hfetch
    exact .inl (quiet_setSched hmoved.toKept)

end State

end MatrixZht
