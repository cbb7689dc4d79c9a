import MatrixZht.Cluster.Client

namespace MatrixZht
open Lib

/-- `n` schedulers and `m` clients. -/
structure System (n m : Nat) where
  config : Config
  id : Fin n → Str
  client : Fin m → ClientConf

/-- The lists record what has happened: the tasks sent, those a client found no connection for,
those lost between schedulers, those run and where, the notifications stored, and the numbers
added to the counter of received tasks. -/
structure State (n m : Nat) where
  store : Store
  sched : Fin n → Sched
  client : Fin m → ClientPhase n
  submitted : List TaskMsg := []
  refused : List TaskMsg := []
  lost : List TaskMsg := []
  executed : List (Fin n × TaskMsg) := []
  landed : List Landing := []
  counted : List Int := []

/-- The steps. `refuse`, `stealFail` and `pushFail` are connections that fail. -/
inductive Act (n m : Nat) where
  | sched (i : Fin n) (a : SchedAct)
  | client (c : Fin m) (scheIdx : Fin n) (time : Int)
  | submit (c : Fin m)
  | refuse (c : Fin m)
  | ask (i j : Fin n)
  | steal (i j : Fin n) (ks : List Nat)
  | stealFail (i j : Fin n) (ks : List Nat)
  | push (i j : Fin n)
  | pushFail (i : Fin n)
  | fetch (i : Fin n) (e : Nat) (j : Fin n) (reads : List Str)

namespace State

variable {n m : Nat}

def setSched (st : State n m) (i : Fin n) (s : Sched) : State n m :=
  { st with sched := Function.update st.sched i s }

def setClient (st : State n m) (c : Fin m) (phase : ClientPhase n) : State n m :=
  { st with client := Function.update st.client c phase }

def setThief (st : State n m) (i : Fin n) (thief : Thief) : State n m :=
  st.setSched i { st.sched i with thief }

def setCheck (st : State n m) (i : Fin n) (check : Check) : State n m :=
  st.setSched i { st.sched i with check }

/-- The tasks go down with a connection. -/
def lose (st : State n m) (tasks : List TaskMsg) : State n m :=
  { st with lost := st.lost ++ tasks }

/-- What a step of scheduler `i` does to the whole. -/
def apply (st : State n m) (i : Fin n) (e : Effect) : State n m where
  store := e.store
  sched := Function.update st.sched i e.sched
  client := st.client
  submitted := st.submitted
  refused := st.refused
  lost := st.lost
  executed := st.executed ++ e.executed.map (i, ·)
  landed := st.landed ++ e.landed
  counted := st.counted ++ e.counted

/-- The first submission of a client that is left. -/
def nextSubmission (st : State n m) (c : Fin m) :
    Option (Fin n × List TaskMsg × List (Fin n × List TaskMsg)) :=
  match st.client c with
  | .sending ((j, tasks) :: todo) => some (j, tasks, todo)
  | _ => none

/-- The tasks are on their way to scheduler `j`. -/
def deliver (st : State n m) (c : Fin m) (j : Fin n) (tasks : List TaskMsg)
    (todo : List (Fin n × List TaskMsg)) : State n m :=
  { (st.setClient c (.sending todo)).setSched j
      { st.sched j with inbox := (st.sched j).inbox ++ [tasks] } with
    submitted := st.submitted ++ tasks }

/-- The victim of scheduler `i` takes half of its queue out. -/
def takeFrom (sys : System n m) (st : State n m) (i j : Fin n) (ks : List Nat) :
    Option (List TaskMsg × State n m) :=
  if (st.sched i).thief = .asked j ∧ i ≠ j then
    ((st.sched j).giveHalf sys.config ks).map fun (taskVec, s) => (taskVec, st.setSched j s)
  else none

/-- The task that scheduler `i` is about to push, and the scheduler it goes to. -/
def pushing (st : State n m) (i : Fin n) : Option (TaskMsg × Str) :=
  match (st.sched i).check with
  | .pushing tm maxDataScheduler => some (tm, maxDataScheduler)
  | _ => none

def stepAsk (st : State n m) (i j : Fin n) : Option (State n m) :=
  let s := st.sched i
  let load := toInt32 (st.sched j).wsQueue.length
  if s.boot = .running ∧ s.thief = .idle ∧ i ≠ j ∧ s.localQueue.length + s.wsQueue.length = 0 ∧
      (st.sched j).boot.listening ∧ (st.sched j).serving = .idle ∧ 0 < load then
    some (st.setThief i (.asked j))
  else none

def step (sys : System n m) (st : State n m) : Act n m → Option (State n m)
  | .sched i a => ((st.sched i).step sys.config n (sys.id i) st.store a).map (st.apply i)
  | .client c scheIdx time =>
    ((st.client c).step (sys.client c) scheIdx time st.store).map fun (store, phase) =>
      { st.setClient c phase with store }
  | .submit c =>
    (st.nextSubmission c).bind fun (j, tasks, todo) =>
      if (st.sched j).boot.listening ∧ (batchStream sys.config tasks "client".toList).isSome then
        some (st.deliver c j tasks todo)
      else none
  | .refuse c =>
    (st.nextSubmission c).map fun (_, tasks, todo) =>
      { st.setClient c (.sending todo) with refused := st.refused ++ tasks }
  | .ask i j => st.stepAsk i j
  | .steal i j ks =>
    (st.takeFrom sys i j ks).map fun (taskVec, st) => st.setThief i (.batch taskVec)
  | .stealFail i j ks =>
    (st.takeFrom sys i j ks).map fun (taskVec, st) => (st.setThief i .idle).lose taskVec
  | .push i j =>
    (st.pushing i).bind fun (tm, maxDataScheduler) =>
      if maxDataScheduler = sys.id j then
        (((st.setCheck i .idle).sched j).recvPush tm).map ((st.setCheck i .idle).setSched j)
      else none
  | .pushFail i =>
    (st.pushing i).map fun (tm, _) => (st.setCheck i .idle).lose [tm]
  | .fetch i e j reads =>
    ((st.sched i).fetchRemote sys.config (sys.id j) e reads (st.sched j)).map (st.setSched i)

/-- Nothing is stored and everybody is at the beginning. -/
def start (n m : Nat) : State n m where
  store := fun _ => none
  sched := fun i => { boot := Boot.start i }
  client := fun _ => .waiting

end State

end MatrixZht
