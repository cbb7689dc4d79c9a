import MatrixZht.Dag
import MatrixZht.Cluster.Scheduler

namespace MatrixZht
open Lib

inductive SubmitMode where
  | bestcase
  | worstcase
deriving DecidableEq

/-- What a client reads from its configuration file and its workload file. -/
structure ClientConf where
  index : Int
  dagType : DagType
  dagArg : Nat
  numTask : Nat
  numTask_lt : numTask < 2 ^ 63
  taskVec : List Str
  submitMode : SubmitMode

/-- The index of the client, directly followed by the number of the task. -/
def taskId (index k : Int) : Str := numToStr index ++ numToStr k

/-- The record of a task before any of its parents is done. -/
def taskInfo (index : Int) (dagInDegree : InDegree) (k : Int) (existList : List Int) : Value where
  id := taskId index k
  indegree := some (dagInDegree.getD k 0)
  children := existList.map (taskId index)

namespace ClientConf

def adjList (conf : ClientConf) : Option AdjList :=
  genDagAdjlist conf.dagType conf.dagArg conf.numTask

/-- The inserts of `insert_taskinfo_to_zht`. -/
def insertTaskinfo (conf : ClientConf) (dagAdjList : AdjList) : List (Str × Str) :=
  dagAdjList.toList.map fun (k, existList) =>
    (taskId conf.index k,
      valueToStr (taskInfo conf.index (genDagIndegree dagAdjList) k existList))

/-- The task on a line of the workload file. -/
def readTask (taskId line : Str) : Option TaskMsg :=
  match tokenize (taskId ++ ' ' :: line) [' '] with
  | taskid :: user :: dir :: cmd :: _ => some { taskid, user, dir, cmd, datalength := 0 }
  | _ => none

/-- `none` is the exception thrown when a line or a field of it is missing. -/
def initTask (conf : ClientConf) : Option (List TaskMsg) :=
  (List.range conf.numTask).mapM fun i : Nat =>
    conf.taskVec[i]?.bind (readTask (taskId conf.index i))

/-- The tasks that `submit_task_bc` gives to a scheduler. -/
def interleaved (numSche toScheIdx : Nat) (tasks : List TaskMsg) : List TaskMsg :=
  (tasks.zipIdx.filter fun p => p.2 % numSche = toScheIdx).map Prod.fst

/-- The submissions in their order. In the best case the tasks are counted by an `int`. -/
def submissions {n : Nat} (conf : ClientConf) (scheIdx : Fin n) (tasks : List TaskMsg) :
    Option (List (Fin n × List TaskMsg)) :=
  match conf.submitMode with
  | .bestcase =>
    if conf.numTask < 2 ^ 31 then some ((List.finRange n).map fun j => (j, interleaved n j tasks))
    else none
  | .worstcase => some [(scheIdx, tasks)]

end ClientConf

section ReadTask

variable {index k : Int} {line : Str} {tm : TaskMsg}

theorem isWord_taskId (index k : Int) : IsWord ([' '].contains ·) (taskId index k) := by
  refine ⟨by simp [taskId], fun c hc => ?_⟩
  have hne : c ≠ ' ' := by
    rcases List.mem_append.1 hc with hc | hc
    · exact ne_of_mem_decimal (by decide) (by decide) hc
    · exact ne_of_mem_decimal (by decide) (by decide) hc
  simp [hne]

theorem tokenize_taskId (index k : Int) (line : Str) :
    tokenize (taskId index k ++ ' ' :: line) [' '] =
      taskId index k :: tokens ([' '].contains ·) line := by
  rw [tokenize_eq_tokens, tokens_append_cons (by simp), (isWord_taskId index k).tokens_eq]
  rfl

theorem readTask_eq {user dir cmd : Str} {rest : List Str}
    (h : tokens ([' '].contains ·) line = user :: dir :: cmd :: rest) :
    ClientConf.readTask (taskId index k) line =
      some { taskid := taskId index k, user, dir, cmd, datalength := 0 } := by
  rw [ClientConf.readTask, tokenize_taskId, h]

theorem taskid_of_readTask (h : ClientConf.readTask (taskId index k) line = some tm) :
    tm.taskid = taskId index k := by
  rw [ClientConf.readTask, tokenize_taskId] at h
  split at h
  · next heq =>
    cases h
    exact (List.cons.inj heq).1.symm
  · cases h

end ReadTask

/-- A client waits for the schedulers, inserts its records, sets their submission times one after
another and sends its tasks. -/
inductive ClientPhase (n : Nat) where
  | waiting
  | inserting (todo : List (Str × Str))
  | updating (todo : List TaskMsg)
  | looked (tm : TaskMsg) (value : Value) (todo : List TaskMsg)
  | sending (todo : List (Fin n × List TaskMsg))
deriving DecidableEq

/-- One request of a client. -/
def ClientPhase.step {n : Nat} (conf : ClientConf) (scheIdx : Fin n) (time : Int) (store : Store) :
    ClientPhase n → Option (Store × ClientPhase n)
  | waiting =>
    if strToInt (store.lookup numSchedulerRegistered) = n then
      conf.adjList.map fun dagAdjList => (store, inserting (conf.insertTaskinfo dagAdjList))
    else none
  | inserting ((key, val) :: todo) => some (store.insert key val, inserting todo)
  | inserting [] => conf.initTask.map fun tasks => (store, updating tasks)
  | updating (tm :: todo) =>
    (strToValue (store.lookup tm.taskid)).map fun value =>
      (store, looked tm { value with submittime := some (toInt64 time) } todo)
  | looked tm value todo => some (store.insert tm.taskid (valueToStr value), updating todo)
  | updating [] =>
    conf.initTask.bind fun tasks =>
      (conf.submissions scheIdx tasks).map fun todo => (store, sending todo)
  | sending _ => none

/-- What a request of a client can do. -/
inductive ClientNext {n : Nat} (conf : ClientConf) (store : Store) :
    ClientPhase n → Store → ClientPhase n → Prop where
  | begin {adj : AdjList} (hreg : strToInt (store.lookup numSchedulerRegistered) = n)
      (hadj : conf.adjList = some adj) :
      ClientNext conf store .waiting store (.inserting (conf.insertTaskinfo adj))
  | insert (p : Str × Str) (todo : List (Str × Str)) :
      ClientNext conf store (.inserting (p :: todo)) (store.insert p.1 p.2) (.inserting todo)
  | inserted {tasks : List TaskMsg} (htasks : conf.initTask = some tasks) :
      ClientNext conf store (.inserting []) store (.updating tasks)
  | look {tm : TaskMsg} {value : Value} {todo : List TaskMsg} (time : Int)
      (hvalue : strToValue (store.lookup tm.taskid) = some value) :
      ClientNext conf store (.updating (tm :: todo)) store
        (.looked tm { value with submittime := some (toInt64 time) } todo)
  | update (tm : TaskMsg) (value : Value) (todo : List TaskMsg) :
      ClientNext conf store (.looked tm value todo) (store.insert tm.taskid (valueToStr value))
        (.updating todo)
  | send {tasks : List TaskMsg} {scheIdx : Fin n} {todo : List (Fin n × List TaskMsg)}
      (htasks : conf.initTask = some tasks) (htodo : conf.submissions scheIdx tasks = some todo) :
      ClientNext conf store (.updating []) store (.sending todo)

theorem ClientPhase.next {n : Nat} {conf : ClientConf} {scheIdx : Fin n} {time : Int}
    {store store' : Store} {phase phase' : ClientPhase n}
    (h : phase.step conf scheIdx time store = some (store', phase')) :
    ClientNext conf store phase store' phase' := by
  cases phase with
  | waiting =>
    rw [step, Option.ite_none_right_eq_some] at h
    obtain ⟨hreg, h⟩ := h
    obtain ⟨adj, hadj, he⟩ := Option.map_eq_some_iff.1 h
    cases he
    exact .begin hreg hadj
  | inserting todo =>
    cases todo with
    | nil =>
      obtain ⟨tasks, htasks, he⟩ := Option.map_eq_some_iff.1 h
      cases he
      exact .inserted htasks
    | cons p todo =>
      cases h
      exact .insert p todo
  | updating todo =>
    cases todo with
    | nil =>
      obtain ⟨tasks, htasks, he⟩ := Option.bind_eq_some_iff.1 h
      obtain ⟨todo, htodo, he⟩ := Option.map_eq_some_iff.1 he
      cases he
      exact .send htasks htodo
    | cons tm todo =>
      obtain ⟨value, hvalue, he⟩ := Option.map_eq_some_iff.1 h
      cases he
      exact .look time hvalue
  | looked tm value todo =>
    cases h
    exact .update tm value todo
  | sending todo => cases h

end MatrixZht
