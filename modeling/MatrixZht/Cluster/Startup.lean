import MatrixZht.Cluster.Workers

namespace MatrixZht
open Lib

/-- The steps of the start-up: registration, the barriers, and the way of the tasks from the
clients into the wait queues. -/
def Act.starting {n m : Nat} : Act n m → Bool
  | sched _ .boot => true
  | sched _ .countReceived => true
  | sched _ (.move (.accept _)) => true
  | sched _ (.move .enqueue) => true
  | client _ _ _ => true
  | submit _ => true
  | refuse _ => true
  | _ => false

/-- The tasks of a submission that have not been added to the counter yet. -/
def Serving.uncounted : Serving → Nat
  | idle => 0
  | enqueue batch _ => batch.pkgs.flatten.length
  | count batch _ => batch.pkgs.flatten.length

/-- The number announced is the number of tasks, as an `int`. -/
def Serving.Fits : Serving → Prop
  | idle => True
  | enqueue batch todo =>
    todo <:+ batch.pkgs ∧ batch.numTask = toInt32 batch.pkgs.flatten.length
  | count batch _ => batch.numTask = toInt32 batch.pkgs.flatten.length

def Sched.uncounted (s : Sched) : Nat := s.inbox.flatten.length + s.serving.uncounted

/-- The threads that are forked after the barriers have not done anything. -/
structure Sched.Fresh (s : Sched) : Prop where
  check : s.check = .idle
  localQueue : s.localQueue = []
  wsQueue : s.wsQueue = []
  thief : s.thief = .idle
  migrated : s.migrated = []
  exec : s.exec = []

/-- The keys that a client is going to write. -/
def ClientPhase.keys {n : Nat} : ClientPhase n → List Str
  | inserting todo => todo.map Prod.fst
  | updating todo => todo.map TaskMsg.taskid
  | looked tm _ todo => tm.taskid :: todo.map TaskMsg.taskid
  | _ => []

section Defs

variable {n m : Nat}

def State.numRegistered (st : State n m) : Nat := ∑ i, (st.sched i).boot.registered.toNat

/-- The counter of schedulers is unbound, or it is the number of schedulers that have registered
and is not going to be created again. -/
def State.RegOk (st : State n m) : Prop :=
  (st.store numSchedulerRegistered = none ∧ ∀ i, (st.sched i).boot.registered = false) ∨
    (st.store numSchedulerRegistered = some (numToStr (toInt32 st.numRegistered)) ∧
      ∀ i, (st.sched i).boot ≠ .insert registInserts)

/-- The counter of received tasks is unbound and nothing has been added to it, or it is the sum of
what has been added and is not going to be created again. -/
def State.RecvOk (st : State n m) : Prop :=
  (st.store numTasksRecv = none ∧ st.counted = []) ∨
    (st.store numTasksRecv = some (numToStr (toInt64 st.counted.sum)) ∧
      ∀ i todo, (st.sched i).boot = .insert todo → todo = [])

/-- Every task that has been sent is counted once at most. -/
def State.AmountOk (st : State n m) : Prop :=
  (st.counted.map Int.natAbs).sum + ∑ i, (st.sched i).uncounted ≤ st.submitted.length

/-- How far the schedulers have come, and what the counters show of it. -/
structure State.Booting (st : State n m) : Prop where
  boot : ∀ i, BootOk (st.sched i).boot
  first : ∀ i todo, (st.sched i).boot = .insert todo → i.val = 0
  reg : st.RegOk
  recv : st.RecvOk

structure State.Startup (sys : System n m) (st : State n m) : Prop where
  boot : ∀ i, BootOk (st.sched i).boot
  first : ∀ i todo, (st.sched i).boot = .insert todo → i.val = 0
  serving : ∀ i, ServingOk (st.sched i).serving ∧ (st.sched i).serving.Fits
  fresh : ∀ i, (st.sched i).Fresh
  executed : st.executed = []
  client : ∀ c, ∀ key ∈ (st.client c).keys, ∃ k, key = taskId (sys.client c).index k
  reg : st.RegOk
  recv : st.RecvOk
  amount : st.AmountOk

end Defs

theorem Sched.Fresh.congr {s s' : Sched} (h : s.Fresh) (hc : s'.check = s.check)
    (hl : s'.localQueue = s.localQueue) (hw : s'.wsQueue = s.wsQueue) (ht : s'.thief = s.thief)
    (hm : s'.migrated = s.migrated) (he : s'.exec = s.exec) : s'.Fresh :=
  ⟨hc.trans h.check, hl.trans h.localQueue, hw.trans h.wsQueue, ht.trans h.thief,
    hm.trans h.migrated, he.trans h.exec⟩

section Client

variable {n : Nat} {conf : ClientConf} {store store' : Store} {phase phase' : ClientPhase n}

theorem ClientNext.keys (h : ClientNext conf store phase store' phase')
    (hk : ∀ key ∈ phase.keys, ∃ k, key = taskId conf.index k) :
    ∀ key ∈ phase'.keys, ∃ k, key = taskId conf.index k := by
  cases h with
  | begin _ _ =>
    intro key hkey
    simp only [ClientPhase.keys, ClientConf.insertTaskinfo, List.map_map, List.mem_map] at hkey
    obtain ⟨p, _, rfl⟩ := hkey
    exact ⟨p.1, rfl⟩
  | insert p todo => exact fun key hkey => hk key (List.mem_cons_of_mem _ hkey)
  | inserted htasks =>
    intro key hkey
    rw [ClientPhase.keys, map_taskid_initTask htasks] at hkey
    obtain ⟨i, _, rfl⟩ := List.mem_map.1 hkey
    exact ⟨i, rfl⟩
  | look _ _ => exact hk
  | update tm value todo => exact fun key hkey => hk key (List.mem_cons_of_mem _ hkey)
  | send _ _ => exact fun key hkey => nomatch hkey

theorem ClientNext.frame (h : ClientNext conf store phase store' phase')
    (hk : ∀ key ∈ phase.keys, ∃ k, key = taskId conf.index k) {key : Str}
    (hkey : ∀ k, key ≠ taskId conf.index k) : store' key = store key := by
  cases h with
  | insert p todo =>
    obtain ⟨k, hp⟩ := hk p.1 List.mem_cons_self
    exact Store.insert_of_ne (hp ▸ hkey k)
  | update tm value todo =>
    obtain ⟨k, hp⟩ := hk tm.taskid List.mem_cons_self
    exact Store.insert_of_ne (hp ▸ hkey k)
  | _ => rfl

end Client

section Boot

variable {p : Str × Str} {todo : List (Str × Str)}

theorem suffix_registInserts (h : p :: todo <:+ registInserts) :
    (p = (numSchedulerRegistered, numToStr 1) ∧ p :: todo = registInserts) ∨
      (p.1 = numTasksDone ∧ todo.length = 1) ∨
      (p = (numTasksRecv, numToStr 0) ∧ todo = []) := by
  simp only [registInserts, List.suffix_cons_iff, List.suffix_nil, List.cons.injEq,
    reduceCtorEq, or_false] at h
  rcases h with ⟨rfl, rfl⟩ | ⟨rfl, rfl⟩ | ⟨rfl, rfl⟩
  · exact .inl ⟨rfl, rfl⟩
  · exact .inr (.inl ⟨rfl, rfl⟩)
  · exact .inr (.inr ⟨rfl, rfl⟩)

theorem toInt32_add_left (a b : Int) : toInt32 (toInt32 a + b) = toInt32 (a + b) :=
  Int.bmod_add_bmod

theorem natAbs_toInt32_le (n : Nat) : (toInt32 n).natAbs ≤ n := by
  unfold toInt32
  rw [Int.bmod_def]
  split <;> omega

theorem natAbs_numTask_le {batch : Batch} (h : batch.numTask = toInt32 batch.pkgs.flatten.length) :
    batch.numTask.natAbs ≤ batch.pkgs.flatten.length := by
  rw [h]
  exact natAbs_toInt32_le _

end Boot

namespace State

variable {n m : Nat} {sys : System n m} {st st' : State n m} {i : Fin n}

theorem numRegistered_update (hoff : ∀ j, j ≠ i → (st'.sched j).boot = (st.sched j).boot) :
    st'.numRegistered + (st.sched i).boot.registered.toNat =
      st.numRegistered + (st'.sched i).boot.registered.toNat := by
  have hreg : ∀ j, j ≠ i → (st'.sched j).boot.registered.toNat =
      (st.sched j).boot.registered.toNat := by
    intro j hj
    rw [hoff j hj]
  exact sum_add_eq_of_off i hreg

theorem RegOk.congr (h : st.RegOk)
    (hs : st'.store numSchedulerRegistered = st.store numSchedulerRegistered)
    (hreg : ∀ i, (st'.sched i).boot.registered = (st.sched i).boot.registered)
    (hins : ∀ i, (st'.sched i).boot = .insert registInserts →
      (st.sched i).boot = .insert registInserts) : st'.RegOk := by
  have hnum : st'.numRegistered = st.numRegistered := by simp only [numRegistered, hreg]
  rcases h with ⟨hnone, hzero⟩ | ⟨hsome, hnot⟩
  · exact .inl ⟨hs.trans hnone, fun i => (hreg i).trans (hzero i)⟩
  · refine .inr ⟨?_, fun i hi => hnot i (hins i hi)⟩
    rw [hs, hsome, hnum]

theorem RecvOk.congr (h : st.RecvOk) (hs : st'.store numTasksRecv = st.store numTasksRecv)
    (hins : ∀ i todo, (st'.sched i).boot = .insert todo → (st.sched i).boot = .insert todo)
    (hc : st'.counted = st.counted) : st'.RecvOk := by
  rcases h with ⟨hnone, hnil⟩ | ⟨hsome, hnot⟩
  · exact .inl ⟨hs.trans hnone, hc.trans hnil⟩
  · refine .inr ⟨?_, fun i todo he => hnot i todo (hins i todo he)⟩
    rw [hs, hsome, hc]

theorem Startup.booting (h : st.Startup sys) : st.Booting := ⟨h.boot, h.first, h.reg, h.recv⟩

theorem Booting.insert_unique (h : st.Booting) {j : Fin n} {todo todo' : List (Str × Str)}
    (hi : (st.sched i).boot = .insert todo) (hj : (st.sched j).boot = .insert todo') : j = i :=
  Fin.ext ((h.first j todo' hj).trans (h.first i todo hi).symm)

theorem RegOk.create (h : st.Booting) {todo : List (Str × Str)}
    (hboot : (st.sched i).boot = .insert registInserts) (hself : (st'.sched i).boot = .insert todo)
    (hlen : todo.length < registInserts.length)
    (hoff : ∀ j, j ≠ i → (st'.sched j).boot = (st.sched j).boot)
    (hstore : st'.store numSchedulerRegistered = some (numToStr 1)) : st'.RegOk := by
  rcases h.reg with ⟨_, hzero⟩ | ⟨_, hnot⟩
  · have hsum : st.numRegistered = 0 := by simp [numRegistered, hzero]
    have hone : st'.numRegistered = 1 := by
      have hnum := numRegistered_update hoff
      rw [hsum, hzero i, hself, Boot.registered, decide_eq_true hlen] at hnum
      exact hnum
    refine .inr ⟨?_, fun j => ?_⟩
    · rw [hstore, hone]
      rfl
    · by_cases hj : j = i
      · rw [hj, hself]
        intro he
        cases he
        exact absurd hlen (lt_irrefl _)
      · rw [hoff j hj]
        exact fun hj' => hj (h.insert_unique hboot hj')
  · exact absurd hboot (hnot i)

theorem RegOk.register (h : st.RegOk) {old : Str}
    (hold : st.store numSchedulerRegistered = some old)
    (hboot : (st.sched i).boot.registered = false) (hself : (st'.sched i).boot = .waitScheduler)
    (hoff : ∀ j, j ≠ i → (st'.sched j).boot = (st.sched j).boot)
    (hstore : st'.store numSchedulerRegistered =
      some (numToStr (toInt32 (strToInt old + 1)))) : st'.RegOk := by
  rcases h with ⟨hnone, _⟩ | ⟨hsome, hnot⟩
  · rw [hnone] at hold
    cases hold
  · rw [hsome] at hold
    obtain rfl := Option.some.inj hold
    have hone : st'.numRegistered = st.numRegistered + 1 := by
      have hnum := numRegistered_update hoff
      rw [hboot, hself] at hnum
      exact hnum
    refine .inr ⟨?_, fun j => ?_⟩
    · rw [hstore, strToInt_numToStr (isInt_toInt32 _), toInt32_add_left, hone]
      rfl
    · by_cases hj : j = i
      · rw [hj, hself]
        nofun
      · rw [hoff j hj]
        exact hnot j

theorem RegOk.boot (h : st.Booting) {numAllTask : Int} {store : Store} {boot : Boot}
    (hs : (st.sched i).boot.step n numAllTask st.store = some (store, boot))
    (hstore : st'.store = store) (hself : (st'.sched i).boot = boot)
    (hoff : ∀ j, j ≠ i → (st'.sched j).boot = (st.sched j).boot) : st'.RegOk := by
  subst hstore hself
  -- nobody registers when the boot sequence of `i` does not
  have hframe (hkey : st'.store numSchedulerRegistered = st.store numSchedulerRegistered)
      (hreg : (st'.sched i).boot.registered = (st.sched i).boot.registered)
      (hne : (st'.sched i).boot ≠ .insert registInserts) : st'.RegOk := by
    refine h.reg.congr hkey (fun j => ?_) (fun j hj => ?_)
    · by_cases hj : j = i
      · rw [hj, hreg]
      · rw [hoff j hj]
    · by_cases hji : j = i
      · rw [hji] at hj
        exact absurd hj hne
      · rwa [← hoff j hji]
  rcases Boot.step_cases (h.boot i) hs with
    ⟨p, todo, hboot, hst, hself⟩ | ⟨r, old, hboot, hold, hst, hself⟩ | ⟨hst, hreg, _, hno⟩
  · have hok := h.boot i
    rw [hboot] at hok
    have hlen : (p :: todo).length ≤ 3 := hok.length_le
    have htodo : todo.length < registInserts.length := Nat.lt_of_succ_le hlen
    have hne : (st'.sched i).boot ≠ .insert registInserts := by
      rw [hself]
      intro he
      cases he
      exact absurd htodo (lt_irrefl _)
    rcases suffix_registInserts hok with ⟨rfl, hall⟩ | ⟨hp, hlen⟩ | ⟨rfl, rfl⟩
    · refine RegOk.create h (hboot.trans (congrArg Boot.insert hall)) hself htodo hoff ?_
      rw [hst, Store.insert_self]
    · refine hframe ?_ ?_ hne
      · rw [hst, Store.insert_of_ne (by rw [hp]; decide)]
      · simp [hself, hboot, Boot.registered, hlen, registInserts]
    · refine hframe ?_ ?_ hne
      · rw [hst, Store.insert_of_ne (by decide)]
      · rw [hself, hboot]
        rfl
  · refine h.reg.register hold ?_ hself hoff ?_
    · rw [hboot]
      rfl
    · rw [hst, Store.insert_self]
  · exact hframe (by rw [hst]) hreg (hno _)

theorem RecvOk.boot (h : st.Booting) {numAllTask : Int} {store : Store} {boot : Boot}
    (hs : (st.sched i).boot.step n numAllTask st.store = some (store, boot))
    (hstore : st'.store = store) (hself : (st'.sched i).boot = boot)
    (hoff : ∀ j, j ≠ i → (st'.sched j).boot = (st.sched j).boot)
    (hcounted : st'.counted = st.counted) : st'.RecvOk := by
  subst hstore hself
  rcases Boot.step_cases (h.boot i) hs with
    ⟨p, todo, hboot, hst, hself⟩ | ⟨r, old, hboot, hold, hst, hself⟩ | ⟨hst, hreg, _, hno⟩
  · have hok := h.boot i
    rw [hboot] at hok
    -- the counter has not been created yet
    have hnone : st.store numTasksRecv = none ∧ st.counted = [] := by
      refine h.recv.resolve_right fun hcreated => ?_
      cases hcreated.2 i _ hboot
    have hother (hp : p.1 ≠ numTasksRecv) : st'.RecvOk := by
      refine .inl ⟨?_, hcounted.trans hnone.2⟩
      rw [hst, Store.insert_of_ne hp.symm]
      exact hnone.1
    rcases suffix_registInserts hok with ⟨rfl, _⟩ | ⟨hp, _⟩ | ⟨rfl, rfl⟩
    · exact hother (by decide)
    · exact hother (by rw [hp]; decide)
    · refine .inr ⟨?_, fun j todo hj => ?_⟩
      · rw [hst, Store.insert_self, hcounted, hnone.2]
        rfl
      · by_cases hji : j = i
        · rw [hji, hself] at hj
          cases hj
          rfl
        · rw [hoff j hji] at hj
          exact absurd (h.insert_unique hboot hj) hji
  · refine h.recv.congr ?_ ?_ hcounted
    · rw [hst, Store.insert_of_ne (by decide)]
    · intro j todo hj
      by_cases hji : j = i
      · rw [hji, hself] at hj
        cases hj
      · rwa [← hoff j hji]
  · refine h.recv.congr (by rw [hst]) ?_ hcounted
    intro j todo hj
    by_cases hji : j = i
    · rw [hji] at hj
      exact absurd hj (hno todo)
    · rwa [← hoff j hji]

theorem sum_uncounted_update (st : State n m) (i : Fin n) (s : Sched) :
    ∑ j, (Function.update st.sched i s j).uncounted + (st.sched i).uncounted =
      ∑ j, (st.sched j).uncounted + s.uncounted := by
  have hoff : ∀ j, j ≠ i → (Function.update st.sched i s j).uncounted =
      (st.sched j).uncounted := by
    intro j hj
    rw [Function.update_of_ne hj]
  have hsum := sum_add_eq_of_off i hoff
  rwa [Function.update_self] at hsum

/-- The parts that a step of scheduler `i` by which it gets to `s` has to care for. -/
theorem Startup.of_sched (h : st.Startup sys) {s : Sched} (hsched : st'.sched =
      Function.update st.sched i s) (hboot : BootOk s.boot)
    (hfirst : ∀ todo, s.boot = .insert todo → i.val = 0)
    (hserving : ServingOk s.serving ∧ s.serving.Fits) (hfresh : s.Fresh)
    (hexec : st'.executed = st.executed)
    (hclient : ∀ c, ∀ key ∈ (st'.client c).keys, ∃ k, key = taskId (sys.client c).index k)
    (hreg : st'.RegOk) (hrecv : st'.RecvOk) (hamount : st'.AmountOk) : st'.Startup sys where
  boot := by
    rw [hsched]
    exact (Function.forall_update_iff _ fun _ (s : Sched) => BootOk s.boot).2
      ⟨hboot, fun j _ => h.boot j⟩
  first := by
    rw [hsched]
    exact (Function.forall_update_iff _ fun j (s : Sched) =>
      ∀ todo, s.boot = Boot.insert todo → j.val = 0).2 ⟨hfirst, fun j _ => h.first j⟩
  serving := by
    rw [hsched]
    exact (Function.forall_update_iff _ fun _ (s : Sched) =>
      ServingOk s.serving ∧ s.serving.Fits).2 ⟨hserving, fun j _ => h.serving j⟩
  fresh := by
    rw [hsched]
    exact (Function.forall_update_iff _ fun _ (s : Sched) => s.Fresh).2
      ⟨hfresh, fun j _ => h.fresh j⟩
  executed := hexec.trans h.executed
  client := hclient
  reg := hreg
  recv := hrecv
  amount := hamount

theorem AmountOk.update (h : st.AmountOk) {s : Sched} {counted : List Int} {sent : Nat}
    (hsched : st'.sched = Function.update st.sched i s)
    (hcounted : st'.counted = st.counted ++ counted)
    (hsent : st'.submitted.length = st.submitted.length + sent)
    (hle : (counted.map Int.natAbs).sum + s.uncounted ≤ (st.sched i).uncounted + sent) :
    st'.AmountOk := by
  have hsum := sum_uncounted_update st i s
  unfold AmountOk at h ⊢
  rw [hsched, hcounted, hsent, List.map_append, List.sum_append]
  omega

theorem boot_update {s : Sched} (hsched : st'.sched = Function.update st.sched i s)
    (hs : s.boot = (st.sched i).boot) (j : Fin n) :
    (st'.sched j).boot = (st.sched j).boot := by
  rw [hsched]
  by_cases hj : j = i
  · rw [hj, Function.update_self, hs]
  · rw [Function.update_of_ne hj]

theorem Startup.serve (h : st.Startup sys) {s : Sched} (hboot : s.boot = (st.sched i).boot)
    (hserving : ServingOk s.serving ∧ s.serving.Fits) (hfresh : s.Fresh)
    (hle : s.uncounted ≤ (st.sched i).uncounted) :
    (st.apply i { store := st.store, sched := s }).Startup sys := by
  have hb (j : Fin n) : ((st.apply i { store := st.store, sched := s }).sched j).boot =
      (st.sched j).boot := boot_update rfl hboot j
  refine h.of_sched rfl (hboot ▸ h.boot i) (fun todo he => h.first i todo (hboot ▸ he)) hserving
    hfresh (List.append_nil _) h.client ?_ ?_ ?_
  · exact h.reg.congr rfl (fun j => by rw [hb j]) (fun j hj => hb j ▸ hj)
  · exact h.recv.congr rfl (fun j todo hj => hb j ▸ hj) (List.append_nil _)
  · refine h.amount.update rfl rfl (Nat.add_zero _).symm ?_
    simpa using hle

theorem Startup.boot_step (h : st.Startup sys) {store : Store} {boot : Boot}
    (hs : (st.sched i).boot.step n sys.config.numAllTask st.store = some (store, boot)) :
    (st.apply i { store, sched := { st.sched i with boot } }).Startup sys := by
  have hself : ((st.apply i { store, sched := { st.sched i with boot } }).sched i).boot = boot := by
    simp only [State.apply, Function.update_self]
  have hoff : ∀ j, j ≠ i →
      ((st.apply i { store, sched := { st.sched i with boot } }).sched j).boot =
        (st.sched j).boot := by
    intro j hj
    simp only [State.apply, Function.update_of_ne hj]
  refine h.of_sched rfl ?_ ?_ (h.serving i) ((h.fresh i).congr rfl rfl rfl rfl rfl rfl)
    (List.append_nil _) h.client (RegOk.boot h.booting hs rfl hself hoff)
    (RecvOk.boot h.booting hs rfl hself hoff (List.append_nil _)) ?_
  · rcases Boot.step_cases (h.boot i) hs with
      ⟨p, todo, hboot, _, rfl⟩ | ⟨r, old, _, _, _, rfl⟩ | ⟨_, _, hok, _⟩
    · have hok := h.boot i
      rw [hboot] at hok
      exact (List.suffix_cons p todo).trans hok
    · trivial
    · exact hok
  · intro todo' he
    rcases Boot.step_cases (h.boot i) hs with
      ⟨p, todo, hboot, _, _⟩ | ⟨r, old, _, _, _, rfl⟩ | ⟨_, _, _, hno⟩
    · exact h.first i _ hboot
    · cases he
    · exact absurd he (hno todo')
  · refine h.amount.update rfl rfl (Nat.add_zero _).symm ?_
    simp [Sched.uncounted]

theorem RecvOk.count (h : st.RecvOk) {old : Str} {k : Int}
    (hold : st.store numTasksRecv = some old)
    (hstore : st'.store numTasksRecv = some (numToStr (toInt64 (strToLong old + k))))
    (hins : ∀ i todo, (st'.sched i).boot = .insert todo → (st.sched i).boot = .insert todo)
    (hc : st'.counted = st.counted ++ [k]) : st'.RecvOk := by
  rcases h with ⟨hnone, _⟩ | ⟨hsome, hnot⟩
  · rw [hnone] at hold
    cases hold
  · rw [hsome] at hold
    obtain rfl := Option.some.inj hold
    refine .inr ⟨?_, fun i todo he => hnot i todo (hins i todo he)⟩
    rw [hstore, strToLong_numToStr (isLong_toInt64 _), toInt64_add_left, hc, List.sum_append,
      List.sum_singleton]

theorem Startup.count (h : st.Startup sys) {batch : Batch} {r : Retry} {old : Str}
    (hcount : (st.sched i).serving = .count batch r) (hold : st.store numTasksRecv = some old)
    (hstore : st'.store = st.store.insert numTasksRecv
      (numToStr (toInt64 (strToLong old + batch.numTask))))
    (hsched : st'.sched = Function.update st.sched i { st.sched i with serving := .idle })
    (hcounted : st'.counted = st.counted ++ [batch.numTask]) (hexec : st'.executed = st.executed)
    (hclient : st'.client = st.client) (hsub : st'.submitted = st.submitted) :
    st'.Startup sys := by
  have hb := boot_update hsched rfl
  refine h.of_sched hsched (h.boot i) (h.first i) ⟨trivial, trivial⟩
    ((h.fresh i).congr rfl rfl rfl rfl rfl rfl) hexec (hclient ▸ h.client) ?_ ?_ ?_
  · refine h.reg.congr ?_ (fun j => by rw [hb j]) (fun j hj => hb j ▸ hj)
    rw [hstore, Store.insert_of_ne (by decide)]
  · refine h.recv.count hold ?_ (fun j todo hj => hb j ▸ hj) hcounted
    rw [hstore, Store.insert_self]
  · have hserve := (h.serving i).2
    rw [hcount] at hserve
    refine h.amount.update hsched hcounted 
      ((congrArg List.length hsub).trans (Nat.add_zero _).symm) ?_
    have hle := natAbs_numTask_le hserve
    simp only [List.map_cons, List.map_nil, List.sum_cons, List.sum_nil, Sched.uncounted, hcount,
      Serving.uncounted]
    omega

theorem Startup.count_step (h : st.Startup sys) {store : Store} {s : Sched} {counted : List Int}
    (hs : (st.sched i).countReceived st.store = some (store, s, counted)) :
    (st.apply i { store, sched := s, counted }).Startup sys := by
  obtain ⟨batch, r, hcount, ⟨old, hold, rfl, rfl, rfl⟩ | ⟨next, rfl, rfl, rfl, hnext⟩⟩ :=
    countReceived_cases (h.serving i).1 hs
  · exact h.count hcount hold rfl rfl rfl (List.append_nil _) rfl rfl
  · have hserve := (h.serving i).2
    rw [hcount] at hserve
    refine h.serve rfl ⟨hnext, hserve⟩ ((h.fresh i).congr rfl rfl rfl rfl rfl rfl) ?_
    simp [Sched.uncounted, hcount, Serving.uncounted]

theorem Startup.accept_step (h : st.Startup sys) {reads : List Str} {s : Sched}
    (hclean : ∀ tm ∈ (st.sched i).held, tm.Clean)
    (hs : (st.sched i).accept sys.config reads = some s) :
    (st.apply i { store := st.store, sched := s }).Startup sys := by
  obtain ⟨tasks, inbox, hinbox, hserve, ⟨rfl, rfl⟩ | ⟨pkgs, hflat, rfl⟩⟩ :=
    Sched.accept_decoded hclean hs
  · refine h.serve rfl (h.serving i) ((h.fresh i).congr rfl rfl rfl rfl rfl rfl) ?_
    simp [Sched.uncounted, hinbox]
  · have hlen : pkgs.flatten.length = tasks.length := by rw [hflat, List.length_map]
    refine h.serve rfl ⟨trivial, List.suffix_refl _, ?_⟩
      ((h.fresh i).congr rfl rfl rfl rfl rfl rfl) ?_
    · rw [hlen]
    · simp only [Sched.uncounted, hinbox, hserve, Serving.uncounted, List.flatten_cons,
        List.length_append, hlen]
      omega

theorem Startup.enqueue_step (h : st.Startup sys) {s : Sched}
    (hs : (st.sched i).enqueue st.store = some s) :
    (st.apply i { store := st.store, sched := s }).Startup sys := by
  have hserve := (h.serving i).2
  rcases Sched.enqueue_spec hs with ⟨batch, henq, rfl⟩ | ⟨batch, pkg, todo, henq, rfl⟩
  · rw [henq] at hserve
    refine h.serve rfl ⟨trivial, hserve.2⟩ ((h.fresh i).congr rfl rfl rfl rfl rfl rfl) ?_
    simp [Sched.uncounted, henq, Serving.uncounted]
  · rw [henq] at hserve
    refine h.serve rfl ⟨trivial, (List.suffix_cons pkg todo).trans hserve.1, hserve.2⟩
      ((h.fresh i).congr rfl rfl rfl rfl rfl rfl) ?_
    simp [Sched.uncounted, henq, Serving.uncounted]

theorem Startup.client_step (h : st.Startup sys) {c : Fin m} {store : Store}
    {phase : ClientPhase n} (hs : ClientNext (sys.client c) st.store (st.client c) store phase) :
    ({ st.setClient c phase with store } : State n m).Startup sys where
  boot := h.boot
  first := h.first
  serving := h.serving
  fresh := h.fresh
  executed := h.executed
  client := (Function.forall_update_iff _ fun c (phase : ClientPhase n) =>
    ∀ key ∈ phase.keys, ∃ k, key = taskId (sys.client c).index k).2
      ⟨hs.keys (h.client c), fun d _ => h.client d⟩
  reg := h.reg.congr (hs.frame (h.client c) fun k => ne_taskId (d := 'n') (by decide) (by decide)
    (by decide)) (fun _ => rfl) (fun _ hj => hj)
  recv := h.recv.congr (hs.frame (h.client c) fun k => ne_taskId (d := 'n') (by decide)
    (by decide) (by decide)) (fun _ _ hj => hj) rfl
  amount := h.amount

theorem forall_keys_sending (h : st.Startup sys) {c : Fin m} {todo : List (Fin n × List TaskMsg)}
    (d : Fin m) : ∀ key ∈ (Function.update st.client c (.sending todo) d).keys,
      ∃ k, key = taskId (sys.client d).index k := by
  refine (Function.forall_update_iff _ fun d (phase : ClientPhase n) =>
    ∀ key ∈ phase.keys, ∃ k, key = taskId (sys.client d).index k).2 ⟨?_, fun d _ => h.client d⟩ d
  exact fun key hkey => nomatch hkey

theorem Startup.deliver (h : st.Startup sys) {c : Fin m} {tasks : List TaskMsg}
    {todo : List (Fin n × List TaskMsg)} : (st.deliver c i tasks todo).Startup sys := by
  have hb (j : Fin n) : ((st.deliver c i tasks todo).sched j).boot = (st.sched j).boot :=
    boot_update (s := { st.sched i with inbox := (st.sched i).inbox ++ [tasks] }) rfl rfl j
  refine h.of_sched rfl (h.boot i) (h.first i) (h.serving i)
    ((h.fresh i).congr rfl rfl rfl rfl rfl rfl) rfl (forall_keys_sending h) ?_ ?_ ?_
  · exact h.reg.congr rfl (fun j => by rw [hb j]) (fun j hj => hb j ▸ hj)
  · exact h.recv.congr rfl (fun j todo hj => hb j ▸ hj) rfl
  · refine h.amount.update rfl (List.append_nil _).symm List.length_append ?_
    simp [Sched.uncounted]
    omega

theorem Startup.step (h : st.Startup sys) (hcons : st.Conserved sys) (hclean : sys.Clean)
    {a : Act n m} (ha : a.starting = true) (hs : st.step sys a = some st') : st'.Startup sys := by
  cases a with
  | sched i b =>
    obtain ⟨eff, heff, rfl⟩ := Option.map_eq_some_iff.1 hs
    rw [Sched.step, Option.ite_none_right_eq_some] at heff
    obtain ⟨_, heff⟩ := heff
    cases b with
    | boot =>
      obtain ⟨⟨store, boot⟩, hboot, rfl⟩ := Option.map_eq_some_iff.1 heff
      exact h.boot_step hboot
    | countReceived =>
      obtain ⟨⟨store, s, counted⟩, hcount, rfl⟩ := Option.map_eq_some_iff.1 heff
      exact h.count_step hcount
    | move b =>
      obtain ⟨s, hmove, rfl⟩ := Option.map_eq_some_iff.1 heff
      cases b with
      | accept reads => exact h.accept_step (hcons.clean hclean i) hmove
      | enqueue => exact h.enqueue_step hmove
      | _ => cases ha
    | _ => cases ha
  | client c scheIdx time =>
    obtain ⟨⟨store, phase⟩, hphase, rfl⟩ := Option.map_eq_some_iff.1 hs
    exact h.client_step (ClientPhase.next hphase)
  | submit c =>
    obtain ⟨⟨j, tasks, todo⟩, _, hs⟩ := Option.bind_eq_some_iff.1 hs
    rw [Option.ite_none_right_eq_some] at hs
    cases hs.2
    exact h.deliver
  | refuse c =>
    obtain ⟨⟨j, tasks, todo⟩, _, rfl⟩ := Option.map_eq_some_iff.1 hs
    exact ⟨h.boot, h.first, h.serving, h.fresh, h.executed, forall_keys_sending h, h.reg, h.recv,
      h.amount⟩
  | _ => cases ha

theorem startup_start (sys : System n m) : (start n m).Startup sys where
  boot := fun i => bootOk_start i
  first := by
    intro i todo hi
    simp only [start, Boot.start] at hi
    split at hi
    · assumption
    · cases hi
  serving := fun _ => ⟨trivial, trivial⟩
  fresh := fun _ => ⟨rfl, rfl, rfl, rfl, rfl, rfl⟩
  executed := rfl
  client := fun _ _ hkey => nomatch hkey
  reg := by
    refine .inl ⟨rfl, fun i => ?_⟩
    simp only [start, Boot.start]
    split <;> rfl
  recv := .inl ⟨rfl, rfl⟩
  amount := by
    simp [AmountOk, start, Sched.uncounted, Serving.uncounted]

theorem startup_run {acts : List (Act n m)} (hclean : sys.Clean)
    (hacts : ∀ a ∈ acts, a.starting = true)
    (hrun : runActs (State.step sys) (start n m) acts = some st) :
    st.Conserved sys ∧ st.Startup sys :=
  runActs_preserves (P := fun st => st.Conserved sys ∧ st.Startup sys)
    (fun _ _ _ ha hs h => ⟨h.1.step hclean hs, h.2.step h.1 hclean ha hs⟩) hacts hrun
    ⟨conserved_start sys, startup_start sys⟩

/-- When the counter shows as many schedulers as there are, all of them have registered. -/
theorem Startup.registered (h : st.Startup sys)
    (hn : strToInt (st.store.lookup numSchedulerRegistered) = n) (j : Fin n) :
    (st.sched j).boot.registered = true := by
  by_contra hj
  rw [Bool.not_eq_true] at hj
  -- one scheduler is missing, so that the counter is below `n`
  have hlt : st.numRegistered < n := by
    have hsum : st.numRegistered < ∑ _i : Fin n, 1 := by
      refine Finset.sum_lt_sum (fun i _ => Bool.toNat_le _) ⟨j, Finset.mem_univ j, ?_⟩
      rw [hj]
      exact Nat.zero_lt_one
    simpa using hsum
  rcases h.reg with ⟨hnone, _⟩ | ⟨hsome, _⟩
  · rw [Store.lookup_of_none hnone] at hn
    have hzero : strToInt [] = 0 := by decide
    omega
  · rw [Store.lookup_eq hsome, strToInt_numToStr (isInt_toInt32 _)] at hn
    have hint := isInt_toInt32 st.numRegistered
    rw [hn] at hint
    have heq : toInt32 (st.numRegistered : Int) = st.numRegistered := by
      refine toInt32_eq ?_
      unfold IsInt at hint ⊢
      omega
    omega

theorem sum_le_sum_natAbs (l : List Int) : l.sum ≤ ((l.map Int.natAbs).sum : Nat) ∧
    -((l.map Int.natAbs).sum : Nat) ≤ l.sum := by
  induction l with
  | nil => simp
  | cons a l ih =>
    simp only [List.sum_cons, List.map_cons, Nat.cast_add]
    omega

theorem card_cores (l : List TaskMsg) : (cores l).card = l.length := by simp [cores]

theorem Conserved.card_submitted (h : st.Conserved sys) :
    st.submitted.length + st.refused.length +
      (∑ c, (sys.client c).unsent (st.client c)).card = ∑ c, (sys.client c).tasks.length := by
  have hcard := congrArg Multiset.card h.sent
  simpa only [Multiset.card_add, Multiset.card_sum, card_cores] using hcard

theorem Startup.counted_eq (h : st.Startup sys) (hcons : st.Conserved sys)
    (hall : sys.config.numAllTask = ∑ c, ((sys.client c).tasks.length : Int))
    (hn : strToLong (st.store.lookup numTasksRecv) = sys.config.numAllTask) :
    st.counted.sum = (∑ c, (sys.client c).tasks.length : Nat) := by
  have hsent := hcons.card_submitted
  have hamount := h.amount
  have hbound := sum_le_sum_natAbs st.counted
  unfold AmountOk at hamount
  rw [hall, ← Nat.cast_sum] at hn
  rcases h.recv with ⟨hnone, hnil⟩ | ⟨hsome, _⟩
  · rw [Store.lookup_of_none hnone] at hn
    rw [hnil, ← hn]
    decide
  · rw [Store.lookup_eq hsome, strToLong_numToStr (isLong_toInt64 _)] at hn
    have hlong := isLong_toInt64 st.counted.sum
    rw [hn] at hlong
    rw [← hn]
    refine (toInt64_eq ?_).symm
    unfold IsLong at hlong ⊢
    omega

/-- When the counter shows all tasks, none is on its way any more. -/
theorem Startup.received (h : st.Startup sys) (hcons : st.Conserved sys)
    (hall : sys.config.numAllTask = ∑ c, ((sys.client c).tasks.length : Int))
    (hn : strToLong (st.store.lookup numTasksRecv) = sys.config.numAllTask) :
    ∑ i, (st.sched i).uncounted = 0 ∧
      cores st.submitted = ∑ c, cores (sys.client c).tasks := by
  have hsum := h.counted_eq hcons hall hn
  have hsent := hcons.card_submitted
  have hamount := h.amount
  have hbound := sum_le_sum_natAbs st.counted
  unfold AmountOk at hamount
  have hrefused : st.refused = [] := List.eq_nil_of_length_eq_zero (by omega)
  have hunsent : ∑ c, (sys.client c).unsent (st.client c) = 0 := Multiset.card_eq_zero.1 (by omega)
  refine ⟨by omega, ?_⟩
  rw [← hcons.sent, hrefused, hunsent, cores_nil, add_zero, add_zero]

theorem Startup.held (h : st.Startup sys) (hi : (st.sched i).uncounted = 0) :
    (st.sched i).held = (st.sched i).waitQueue := by
  have hf := h.fresh i
  obtain ⟨hinbox, hun⟩ := Nat.add_eq_zero_iff.1 hi
  have hserve : (st.sched i).serving.tasks = [] := by
    have hfits := (h.serving i).2
    cases hs : (st.sched i).serving with
    | enqueue batch todo =>
      rw [hs] at hfits hun
      have hsub : todo.flatten.Sublist batch.pkgs.flatten := hfits.1.sublist.flatten
      rw [List.eq_nil_of_length_eq_zero hun] at hsub
      exact List.sublist_nil.1 hsub
    | idle => rfl
    | count batch r => rfl
  simp [Sched.held, List.eq_nil_of_length_eq_zero hinbox, hserve, hf.check, hf.localQueue,
    hf.wsQueue, hf.thief, hf.migrated, hf.exec, Check.tasks, Thief.tasks]

end State

theorem Act.connected_of_starting {n m : Nat} {a : Act n m} (h : a.starting = true) :
    a.connected = true := by
  cases a with
  | stealFail i j ks => cases h
  | pushFail i => cases h
  | _ => rfl

/-- In every run of the start-up, nobody passes a barrier too early, and no count is lost. -/
def System.StartupSafe {n m : Nat} (sys : System n m) : Prop :=
  ∀ (acts : List (Act n m)) (st st' : State n m), (∀ a ∈ acts, a.starting = true) →
    runActs (State.step sys) (State.start n m) acts = some st →
    (∀ i, (st.sched i).boot = .waitScheduler → st.step sys (.sched i .boot) = some st' →
      ∀ j, (st.sched j).boot.registered = true) ∧
    (∀ c scheIdx time, st.client c = .waiting →
      st.step sys (.client c scheIdx time) = some st' →
      ∀ j, (st.sched j).boot.registered = true) ∧
    (∀ i, (st.sched i).boot = .waitTask → st.step sys (.sched i .boot) = some st' →
      ∑ j, cores (st.sched j).waitQueue = ∑ c, cores (sys.client c).tasks) ∧
    st.RegOk ∧ st.RecvOk

theorem State.boot_of_step {n m : Nat} {sys : System n m} {st st' : State n m} {i : Fin n}
    (hs : st.step sys (.sched i .boot) = some st') :
    ((st.sched i).boot.step n sys.config.numAllTask st.store).isSome = true := by
  obtain ⟨eff, heff, _⟩ := Option.map_eq_some_iff.1 hs
  rw [Sched.step, Option.ite_none_right_eq_some] at heff
  obtain ⟨p, hp, _⟩ := Option.map_eq_some_iff.1 heff.2
  rw [hp]
  rfl

/-- The barriers of the start-up hold. -/
theorem startupSafe {n m : Nat} (sys : System n m) (hclean : sys.Clean)
    (hall : sys.config.numAllTask = ∑ c, ((sys.client c).tasks.length : Int)) :
    sys.StartupSafe := by
  intro acts st st' hacts hrun
  obtain ⟨hcons, h⟩ := State.startup_run hclean hacts hrun
  refine ⟨fun i hboot hs => ?_, fun c scheIdx time hc hs => ?_, fun i hboot hs => ?_, h.reg, h.recv⟩
  · have hstep := State.boot_of_step hs
    rw [hboot, Boot.step, Option.isSome_ite] at hstep
    exact h.registered hstep
  · obtain ⟨⟨store, phase⟩, hphase, _⟩ := Option.map_eq_some_iff.1 hs
    rw [hc, ClientPhase.step, Option.ite_none_right_eq_some] at hphase
    exact h.registered hphase.1
  · have hstep := State.boot_of_step hs
    rw [hboot, Boot.step, Option.isSome_ite] at hstep
    obtain ⟨hzero, hsub⟩ := h.received hcons hall hstep
    have hheld (j : Fin n) : (st.sched j).held = (st.sched j).waitQueue :=
      h.held (Finset.sum_eq_zero_iff.1 hzero j (Finset.mem_univ j))
    have hplaced := hcons.placed
    have hlost := State.lost_run (fun a ha => (hacts a ha) |> Act.connected_of_starting) hrun
    rw [hlost, State.places, h.executed, List.map_nil, cores_nil, add_zero, add_zero, hsub]
      at hplaced
    simpa only [hheld] using hplaced

theorem one_lt_bound : 1 < 2 ^ 63 := by decide

/-- Three schedulers, and two clients with one task each. -/
def raceSystem : System 3 2 where
  config :=
    { numAllTask := 2
      maxTaskPerPkg := 1
      dataSizeThreshold := 0
      numCorePerExecutor := 1
      cache := false }
  id := fun i => 's' :: numToStr i
  client := fun c =>
    { index := c
      dagType := .bot
      dagArg := 1
      numTask := 1
      numTask_lt := one_lt_bound
      taskVec := ["u d a".toList]
      submitMode := .worstcase }

/-- Scheduler `i` receives the submission of client `c`, up to its first look at the counter. -/
def receiveRun (i : Fin 3) (c : Fin 2) : List (Act 3 2) :=
  [.submit c,
    .sched i (.move (.accept
      [(batchStream raceSystem.config (raceSystem.client c).tasks "client".toList).getD []])),
    .sched i (.move .enqueue), .sched i (.move .enqueue), .sched i .countReceived]

/-- Two schedulers race to register, and later to count what they have received. Both times the
swap of one of them is refused and tried again. -/
def raceRun : List (Act 3 2) :=
  [1, 0, 1, 2, 0, 0, 0, 1, 2, 2].map (.sched · .boot) ++ [0, 1, 2].map (.sched · .boot) ++
  List.replicate 6 (.client 0 1 7) ++ List.replicate 6 (.client 1 2 7) ++
  receiveRun 1 0 ++ receiveRun 2 1 ++
  [.sched 1 .countReceived, .sched 2 .countReceived, .sched 2 .countReceived, .sched 2 .boot]

theorem startupSafe_race :
    ∃ st, runActs (State.step raceSystem) (State.start 3 2) raceRun = some st ∧
      st.counted = [1, 1] ∧ (st.sched 0).boot = .waitTask ∧
      (st.step raceSystem (.sched 0 .boot)).isSome = true ∧ st.RegOk ∧ st.RecvOk ∧
      ∑ j, cores (st.sched j).waitQueue = ∑ c, cores (raceSystem.client c).tasks := by
  have hsome : (runActs (State.step raceSystem) (State.start 3 2) raceRun).any (fun st =>
      st.counted = [1, 1] ∧ (st.sched 0).boot = .waitTask ∧
        (st.step raceSystem (.sched 0 .boot)).isSome = true) = true := by
    decide +kernel
  obtain ⟨st, hrun, hst⟩ := (Option.any_eq_true _ _).1 hsome
  obtain ⟨hcounted, hboot, hstep⟩ := of_decide_eq_true hst
  obtain ⟨st', hst'⟩ := Option.isSome_iff_exists.1 hstep
  obtain ⟨-, -, htasks, hreg, hrecv⟩ := startupSafe raceSystem (by decide +kernel)
    (by decide +kernel) _ st st' (by decide +kernel) hrun
  exact ⟨st, hrun, hcounted, hboot, hstep, hreg, hrecv, htasks 0 hboot hst'⟩

/-- The command that splits the message doubles its task, and the barrier is passed although the
second task is in no wait queue. -/
theorem not_startupSafe_doubled :
    let sys := soloSystem "s".toList doubledConf
    sys.config.numAllTask = ∑ c, ((sys.client c).tasks.length : Int) ∧ ¬ sys.StartupSafe := by
  refine ⟨by decide +kernel, fun h => ?_⟩
  have hsome : (runActs (State.step (soloSystem "s".toList doubledConf)) (State.start 1 1)
      (loadRun (soloSystem "s".toList doubledConf)).dropLast).any (fun st =>
        (st.sched 0).boot = .waitTask ∧
        (st.step (soloSystem "s".toList doubledConf) (.sched 0 .boot)).isSome = true ∧
        ∑ j, cores (st.sched j).waitQueue ≠
          ∑ c, cores ((soloSystem "s".toList doubledConf).client c).tasks) = true := by
    decide +kernel
  obtain ⟨st, hrun, hst⟩ := (Option.any_eq_true _ _).1 hsome
  obtain ⟨hboot, hstep, hne⟩ := of_decide_eq_true hst
  obtain ⟨st', hst'⟩ := Option.isSome_iff_exists.1 hstep
  exact hne ((h _ st st' (by decide +kernel) hrun).2.2.1 0 hboot hst')

end MatrixZht
