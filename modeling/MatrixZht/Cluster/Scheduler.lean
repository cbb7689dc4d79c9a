import MatrixZht.Stat
import MatrixZht.Submit

namespace MatrixZht
open Lib

/-- What the schedulers read from their configuration file. -/
structure Config where
  numAllTask : Int
  maxTaskPerPkg : Int
  dataSizeThreshold : Int
  numCorePerExecutor : Nat
  cache : Bool

structure CmpQueueItem where
  taskId : Str
  key : Str
  dataSize : Int
deriving DecidableEq

def numSchedulerRegistered : Str := "number of scheduler registered".toList

/-- How far a scheduler has come in `regist` and the two barriers after it. -/
inductive Boot where
  | insert (todo : List (Str × Str))
  | look
  | swap (r : Retry)
  | waitScheduler
  | waitTask
  | running
deriving DecidableEq

/-- The records that the first scheduler creates. -/
def registInserts : List (Str × Str) :=
  [(numSchedulerRegistered, "1".toList), (numTasksDone, "0".toList), (numTasksRecv, "0".toList)]

def registMore (value : Str) : Option Str := some (numToStr (toInt32 (strToInt value + 1)))

namespace Boot

def start (index : Nat) : Boot := if index = 0 then insert registInserts else look

/-- One request of `regist`, `wait_all_scheduler` or `wait_all_task_recv`. -/
def step (numScheduler : Nat) (numAllTask : Int) (store : Store) : Boot → Option (Store × Boot)
  | insert [] => some (store, waitScheduler)
  | insert ((key, val) :: todo) => some (store.insert key val, insert todo)
  | look =>
    let value := store.lookup numSchedulerRegistered
    if value.isEmpty then some (store, look)
    else (registMore value).map fun newVal => (store, swap (.swap value newVal))
  | swap r =>
    (r.step registMore numSchedulerRegistered store).map fun
      | (store, none) => (store, waitScheduler)
      | (store, some r) => (store, swap r)
  | waitScheduler =>
    if strToInt (store.lookup numSchedulerRegistered) = numScheduler then some (store, waitTask)
    else none
  | waitTask =>
    if strToLong (store.lookup numTasksRecv) = numAllTask then some (store, running) else none
  | running => none

/-- The server thread is forked between the two barriers. -/
def listening : Boot → Bool
  | waitTask => true
  | running => true
  | _ => false

end Boot

/-- The thread that serves requests, inside `recv_task_from_client`. -/
inductive Serving where
  | idle
  | enqueue (batch : Batch) (todo : List (List TaskMsg))
  | count (batch : Batch) (r : Retry)
deriving DecidableEq

/-- `checking_ready_task` and the task it holds. -/
inductive Check where
  | idle
  | popped (tm : TaskMsg)
  | notReady (tm : TaskMsg)
  | ready (tm : TaskMsg) (value : Value)
  | toWs (tm : TaskMsg)
  | toLocal (tm : TaskMsg)
  | pushing (tm : TaskMsg) (maxDataScheduler : Str)
deriving DecidableEq

/-- `workstealing`: the tasks of `batch` are on their way, those of `stolen` have been decoded. -/
inductive Thief where
  | idle
  | asked (maxLoadedIdx : Nat)
  | batch (tasks : List TaskMsg)
  | stolen (pkgs : List (List TaskMsg))
deriving DecidableEq

/-- One `executing_task` thread inside `exec_a_task`. `data` is what the first `i` parents gave;
while `requiring`, the next piece is asked from another scheduler. -/
inductive Exec where
  | popped (tm : TaskMsg)
  | fetching (tm : TaskMsg) (value : Value) (i : Nat) (data : Str)
  | requiring (tm : TaskMsg) (value : Value) (i : Nat) (data : Str)
  | stored (tm : TaskMsg) (value : Value) (key : Str)
deriving DecidableEq

/-- `checking_complete_task`, inside `notify_children` after it has read the children. -/
inductive Notify where
  | idle
  | popped (cqItem : CmpQueueItem)
  | notifying (cqItem : CmpQueueItem) (todo : List Str) (r : Retry)
deriving DecidableEq

/-- A scheduler. `inbox` are the submissions sent to it, `migrated` the tasks `localQueue_monitor`
has taken out of the local queue and not put into the work stealing queue yet. -/
structure Sched extends Node where
  boot : Boot
  inbox : List (List TaskMsg) := []
  serving : Serving := .idle
  check : Check := .idle
  thief : Thief := .idle
  migrated : List TaskMsg := []
  exec : List Exec := []
  completeQueue : List CmpQueueItem := []
  notify : Notify := .idle

/-- A notification of `child` that `compare_swap` has stored. -/
structure Landing where
  child : Str
  id : Str
  cqItem : CmpQueueItem
deriving DecidableEq

inductive Flag where
  | ws
  | loc
  | push (maxDataScheduler : Str)
deriving DecidableEq

/-- The loop that looks for the largest piece of data. `none` is an index out of range. -/
def maxData : List Int → List Str → List Str → Int × Str × Str → Option (Int × Str × Str)
  | [], _, _, best => some best
  | datasize :: sizes, parents, names, best =>
    if datasize > best.1 then
      match parents, names with
      | parent :: parents, key :: names => maxData sizes parents names (datasize, parent, key)
      | _, _ => none
    else maxData sizes parents.tail names.tail best

def taskReadyProcess (config : Config) (id : Str) (localData : Str → Option Str)
    (valuePkg : Value) (tm : TaskMsg) : Option (TaskMsg × Flag) :=
  let alldatasize := valuePkg.alldatasize.getD 0
  if alldatasize ≤ config.dataSizeThreshold then
    some ({ tm with datalength := alldatasize }, .ws)
  else
    (maxData valuePkg.datasize valuePkg.parents valuePkg.datanamelist (-1000000, [], [])).map
      fun (maxDataSize, maxDataScheduler, key) =>
        let tm := { tm with datalength := maxDataSize }
        if maxDataScheduler = id then (tm, .loc)
        else if config.cache ∧ (localData key).isSome then (tm, .loc)
        else (tm, .push maxDataScheduler)

/-- The change of a child's record when one of its parents is done. -/
def addParent (id : Str) (cqItem : CmpQueueItem) (childVal : Value) : Value :=
  { childVal with
    indegree := some (toInt64 (childVal.indegree.getD 0 - 1))
    parents := childVal.parents ++ [id]
    datanamelist := childVal.datanamelist ++ [cqItem.key]
    datasize := childVal.datasize ++ [cqItem.dataSize]
    alldatasize := some (toInt64 (childVal.alldatasize.getD 0 + cqItem.dataSize)) }

/-- The new text of a child's record. A repeated field has at most `INT_MAX` elements. -/
def notifyAttempt (id : Str) (cqItem : CmpQueueItem) (childTaskDetail : Str) : Option Str :=
  (strToValue childTaskDetail).bind fun childVal =>
    if childVal.parents.length < 2 ^ 31 - 1 then some (valueToStr (addParent id cqItem childVal))
    else none

/-- The message of `task_ready_process` to the scheduler with the largest piece of data. -/
def pushText (tm : TaskMsg) : Str :=
  mmToStr
    { msgtype := "scheduler push task".toList, count := some 1, tasks := [taskmsgToStr tm] }

/-- The request of `exec_a_task` for a piece of data. -/
def requireText (dataname : Str) : Str :=
  mmToStr { msgtype := "scheduler require data".toList, extrainfo := some dataname }

/-- `map::insert` -/
def insertNew (localData : Str → Option Str) (key data : Str) : Str → Option Str :=
  if (localData key).isSome then localData else Function.update localData key (some data)

instance (stream : Str) (reads : List Str) : Decidable (Cut stream reads) :=
  decidable_of_iff ((∀ r ∈ reads, r ≠ []) ∧ (∀ r ∈ reads, r.length ≤ bufSize - 1) ∧
    reads.flatten = stream) ⟨fun h => ⟨h.1, h.2.1, h.2.2⟩, fun h => ⟨h.1, h.2, h.3⟩⟩

/-- The stream of a batch. The tasks of a package are counted by an `int`. -/
def batchStream (config : Config) (tasks : List TaskMsg) (peer : Str) : Option Str :=
  if min (tasks.length : Int) config.maxTaskPerPkg < 2 ^ 31 then
    sendBatchTasks config.maxTaskPerPkg tasks peer
  else none

namespace Sched

/-- The next submission is read and decoded. No step for a first read that ends before the request
name does: there `str_to_mm` throws, and the process of the scheduler is gone. -/
def accept (config : Config) (reads : List Str) (s : Sched) : Option Sched :=
  match s.inbox, s.serving, reads with
  | tasks :: inbox, .idle, first :: rest =>
    (batchStream config tasks "client".toList).bind fun stream =>
      if Cut stream (first :: rest) then
        match readRequest first with
        | some (.submit str) =>
          (decodeBatch (recvMul rest str).1).map fun
            | none => { s with inbox }
            | some batch => { s with inbox, serving := .enqueue batch batch.pkgs }
        | _ => none
      else none
  | _, _, _ => none

/-- The records of a package are looked up and its tasks are queued. -/
def enqueue (store : Store) (s : Sched) : Option Sched :=
  match s.serving with
  | .enqueue batch [] => some { s with serving := .count batch .look }
  | .enqueue batch (pkg :: todo) =>
    if pkg.all fun tm => (strToValue (store.lookup tm.taskid)).isSome then
      some { s with waitQueue := s.waitQueue ++ pkg, serving := .enqueue batch todo }
    else none
  | _ => none

def recvPush (tm : TaskMsg) (s : Sched) : Option Sched :=
  if s.boot.listening ∧ s.serving = .idle ∧ (pushText tm).length < bufSize then
    match readRequest (pushText tm) with
    | some (.pushTask mm) =>
      (recvPushingTask mm s.localQueue).map fun r => { s with localQueue := r.1 }
    | _ => none
  else none

/-- The victim of a steal gives half of its work stealing queue away. -/
def giveHalf (config : Config) (ks : List Nat) (s : Sched) : Option (List TaskMsg × Sched) :=
  if s.boot.listening ∧ s.serving = .idle then
    (takeHalf ks s.wsQueue).bind fun (taskVec, wsQueue) =>
      if (batchStream config taskVec "scheduler".toList).isSome then
        some (taskVec, { s with wsQueue })
      else none
  else none

def recvStolen (config : Config) (reads : List Str) (s : Sched) : Option Sched :=
  match s.thief with
  | .batch tasks =>
    (batchStream config tasks "scheduler".toList).bind fun stream =>
      if Cut stream reads then
        (decodeBatch (recvMul reads []).1).map fun
          | none => { s with thief := .idle }
          | some batch => { s with thief := .stolen batch.pkgs }
      else none
  | _ => none

def putStolen (s : Sched) : Option Sched :=
  match s.thief with
  | .stolen [] => some { s with thief := .idle }
  | .stolen (pkg :: pkgs) => some { s with wsQueue := s.wsQueue ++ pkg, thief := .stolen pkgs }
  | _ => none

def popWaiting (s : Sched) : Option Sched :=
  match s.check, s.waitQueue with
  | .idle, tm :: waitQueue => some { s with waitQueue, check := .popped tm }
  | _, _ => none

/-- The lookup of `check_a_ready_task`. -/
def lookupReady (store : Store) (s : Sched) : Option Sched :=
  match s.check with
  | .popped tm =>
    (strToValue (store.lookup tm.taskid)).map fun value =>
      if value.indegree.getD 0 = 0 then { s with check := .ready tm value }
      else { s with check := .notReady tm }
  | _ => none

def processReady (config : Config) (id : Str) (s : Sched) : Option Sched :=
  match s.check with
  | .ready tm value =>
    (taskReadyProcess config id s.localData value tm).map fun
      | (tm, .ws) => { s with check := .toWs tm }
      | (tm, .loc) => { s with check := .toLocal tm }
      | (tm, .push maxDataScheduler) => { s with check := .pushing tm maxDataScheduler }
  | _ => none

/-- The task is put into the queue that was chosen for it. -/
def putChecked (s : Sched) : Option Sched :=
  match s.check with
  | .notReady tm => some { s with waitQueue := s.waitQueue ++ [tm], check := .idle }
  | .toWs tm => some { s with wsQueue := s.wsQueue ++ [tm], check := .idle }
  | .toLocal tm => some { s with localQueue := s.localQueue ++ [tm], check := .idle }
  | _ => none

/-- The first half of `localQueue_monitor`: all but `maxSize` tasks leave the local queue. -/
def migrateOut (maxSize : Nat) (ks ks' : List Nat) (s : Sched) : Option Sched :=
  let numTaskToMove := toInt32 (s.localQueue.length - maxSize)
  if s.migrated = [] ∧ 0 < maxSize ∧ maxSize < s.localQueue.length ∧ ks.length = maxSize ∧
      ks'.length = numTaskToMove.toNat then
    (popMany ks s.localQueue).bind fun (vecRemain, localQueue) =>
      (popMany ks' localQueue).map fun (vecMigrated, localQueue) =>
        { s with localQueue := localQueue ++ vecRemain, migrated := vecMigrated }
  else none

def migrateIn (s : Sched) : Option Sched :=
  some { s with wsQueue := s.wsQueue ++ s.migrated, migrated := [] }

/-- An idle core takes a task. The sizes are read before the lock is taken, so that the task may
come from either queue. -/
def popReady (config : Config) (fromLocal : Bool) (k : Nat) (s : Sched) : Option Sched :=
  if s.exec.length < config.numCorePerExecutor then
    if fromLocal then
      (popTop k s.localQueue).map fun (tm, localQueue) =>
        { s with localQueue, exec := s.exec ++ [.popped tm] }
    else
      (popTop k s.wsQueue).map fun (tm, wsQueue) =>
        { s with wsQueue, exec := s.exec ++ [.popped tm] }
  else none

def lookupExec (store : Store) (e : Nat) (s : Sched) : Option Sched :=
  match s.exec[e]? with
  | some (.popped tm) =>
    (strToValue (store.lookup tm.taskid)).map fun value =>
      { s with exec := s.exec.set e (.fetching tm value 0 []) }
  | _ => none

/-- The next piece of data, unless it has to be asked for: nothing for an empty one, else one of
this scheduler or in the cache. A key of this scheduler is looked up without a check. -/
def fetchLocal (config : Config) (id : Str) (e : Nat) (s : Sched) : Option Sched :=
  match s.exec[e]? with
  | some (.fetching tm value i data) =>
    match value.parents[i]?, value.datasize[i]? with
    | some parent, some datasize =>
      if datasize ≤ 0 then some { s with exec := s.exec.set e (.fetching tm value (i + 1) data) }
      else if parent = id ∨ config.cache then
        (value.datanamelist[i]?.bind s.localData).map fun dataPiece =>
          { s with exec := s.exec.set e (.fetching tm value (i + 1) (data ++ dataPiece)) }
      else none
    | _, _ => none
  | _ => none

/-- The next piece of data is neither here nor in the cache. -/
def requireData (config : Config) (id : Str) (e : Nat) (s : Sched) : Option Sched :=
  match s.exec[e]? with
  | some (.fetching tm value i data) =>
    match value.parents[i]?, value.datasize[i]?, value.datanamelist[i]? with
    | some parent, some datasize, some dataname =>
      if datasize > 0 ∧ parent ≠ id ∧ ¬ (config.cache ∧ (s.localData dataname).isSome) then
        some { s with exec := s.exec.set e (.requiring tm value i data) }
      else none
    | _, _, _ => none
  | _ => none

/-- The reply of the scheduler `peer` to the request is received. -/
def fetchRemote (config : Config) (peerId : Str) (e : Nat) (reads : List Str) (s peer : Sched) :
    Option Sched :=
  match s.exec[e]? with
  | some (.requiring tm value i data) =>
    match value.parents[i]?, value.datanamelist[i]? with
    | some parent, some dataname =>
      if parent = peerId ∧ peer.boot.listening ∧ peer.serving = .idle ∧
          (requireText dataname).length < bufSize then
        match readRequest (requireText dataname) with
        | some (.requireData mm) =>
          (sendData mm peer.localData).bind fun reply =>
            if Cut reply reads then
              (strToMm (recvBig reads)).map fun mmData =>
                { s with
                  exec :=
                    s.exec.set e (.fetching tm value (i + 1) (data ++ mmData.extrainfo.getD []))
                  localData :=
                    if config.cache then insertNew s.localData dataname (mmData.extrainfo.getD [])
                    else s.localData }
            else none
        | _ => none
      else none
    | _, _ => none
  | _ => none

/-- The command has been run and its output is kept. -/
def storeResult (id : Str) (e : Nat) (result : Str) (s : Sched) : Option Sched :=
  match s.exec[e]? with
  | some (.fetching tm value i _) =>
    if i = value.parents.length then
      let key := id ++ tm.taskid
      some
        { s with
          localData := insertNew s.localData key result
          exec := s.exec.set e (.stored tm value key) }
    else none
  | _ => none

/-- The task goes to the complete queue. -/
def finish (e : Nat) (s : Sched) : Option (Sched × TaskMsg) :=
  match s.exec[e]? with
  | some (.stored tm value key) =>
    let cqItem : CmpQueueItem := ⟨tm.taskid, key, value.outputsize.getD 0⟩
    some ({ s with completeQueue := s.completeQueue ++ [cqItem], exec := s.exec.eraseIdx e }, tm)
  | _ => none

def popComplete (s : Sched) : Option Sched :=
  match s.notify, s.completeQueue with
  | .idle, cqItem :: completeQueue => some { s with completeQueue, notify := .popped cqItem }
  | _, _ => none

/-- The children of the completed task are read. -/
def lookupChildren (store : Store) (s : Sched) : Option Sched :=
  match s.notify with
  | .popped cqItem =>
    (strToValue (store.lookup cqItem.taskId)).map fun value =>
      { s with notify := .notifying cqItem value.children .look }
  | _ => none

/-- One request of the loop over the children. -/
def notifyChild (id : Str) (store : Store) (s : Sched) : Option (Store × Sched × List Landing) :=
  match s.notify with
  | .notifying _ [] _ => some (store, { s with notify := .idle }, [])
  | .notifying cqItem (child :: todo) r =>
    (r.step (notifyAttempt id cqItem) child store).map fun
      | (store, none) =>
        (store, { s with notify := .notifying cqItem todo .look }, [⟨child, id, cqItem⟩])
      | (store, some r) => (store, { s with notify := .notifying cqItem (child :: todo) r }, [])
  | _ => none

/-- One request of the loop over the counter of received tasks. -/
def countReceived (store : Store) (s : Sched) : Option (Store × Sched × List Int) :=
  match s.serving with
  | .count batch r =>
    (r.step (numTaskRecvMore batch.numTask) numTasksRecv store).map fun
      | (store, none) => (store, { s with serving := .idle }, [batch.numTask])
      | (store, some r) => (store, { s with serving := .count batch r }, [])
  | _ => none

/-- The counters of a scheduler that only its status record shows. -/
structure Counters where
  numTaskFin : Int
  numIdleCore : Int
  numWS : Int
  numWSFail : Int
deriving DecidableEq

/-- The record that `recording_stat` dumps. -/
def recordVal (config : Config) (id : Str) (counters : Counters) (s : Sched) : Value :=
  { id
    numtaskfin := some (toInt64 counters.numTaskFin)
    numtaskwait := some (toInt32 s.waitQueue.length)
    numtaskready := some (toInt32 (s.localQueue.length + s.wsQueue.length))
    numcoreavilable := some (toInt32 counters.numIdleCore)
    numallcore := some (toInt32 config.numCorePerExecutor)
    numworksteal := some (toInt64 counters.numWS)
    numworkstealfail := some (toInt64 counters.numWSFail) }

end Sched

/-- The steps of a scheduler by which tasks change their place. -/
inductive Move where
  | accept (reads : List Str)
  | enqueue
  | recvStolen (reads : List Str)
  | putStolen
  | popWaiting
  | lookupReady
  | processReady
  | putChecked
  | migrateOut (maxSize : Nat) (ks ks' : List Nat)
  | migrateIn
  | popReady (fromLocal : Bool) (k : Nat)
  | lookupExec (e : Nat)
  | fetchLocal (e : Nat)
  | requireData (e : Nat)
  | storeResult (e : Nat) (result : Str)
deriving DecidableEq

def Sched.move (config : Config) (id : Str) (store : Store) (s : Sched) : Move → Option Sched
  | .accept reads => s.accept config reads
  | .enqueue => s.enqueue store
  | .recvStolen reads => s.recvStolen config reads
  | .putStolen => s.putStolen
  | .popWaiting => s.popWaiting
  | .lookupReady => s.lookupReady store
  | .processReady => s.processReady config id
  | .putChecked => s.putChecked
  | .migrateOut maxSize ks ks' => s.migrateOut maxSize ks ks'
  | .migrateIn => s.migrateIn
  | .popReady fromLocal k => s.popReady config fromLocal k
  | .lookupExec e => s.lookupExec store e
  | .fetchLocal e => s.fetchLocal config id e
  | .requireData e => s.requireData config id e
  | .storeResult e result => s.storeResult id e result

/-- The steps of a scheduler that involve no other one. -/
inductive SchedAct where
  | boot
  | countReceived
  | move (a : Move)
  | finish (e : Nat)
  | popComplete
  | lookupChildren
  | notifyChild
  | recordStat (counters : Sched.Counters)
deriving DecidableEq

/-- What a step of a scheduler leaves behind: the tasks it has run, the notifications stored and
the numbers added to the counter of received tasks are kept apart. -/
structure Effect where
  store : Store
  sched : Sched
  executed : List TaskMsg := []
  landed : List Landing := []
  counted : List Int := []

/-- The threads that are forked after the second barrier. -/
def SchedAct.needsRunning : SchedAct → Bool
  | boot => false
  | countReceived => false
  | move (.accept _) => false
  | move .enqueue => false
  | _ => true

def Sched.act (config : Config) (numScheduler : Nat) (id : Str) (store : Store) (s : Sched) :
    SchedAct → Option Effect
  | .boot =>
    (s.boot.step numScheduler config.numAllTask store).map fun (store, boot) =>
      { store, sched := { s with boot } }
  | .countReceived =>
    (s.countReceived store).map fun (store, sched, counted) => { store, sched, counted }
  | .move a => (s.move config id store a).map fun sched => { store, sched }
  | .finish e => (s.finish e).map fun (sched, tm) => { store, sched, executed := [tm] }
  | .popComplete => s.popComplete.map fun sched => { store, sched }
  | .lookupChildren => (s.lookupChildren store).map fun sched => { store, sched }
  | .notifyChild =>
    (s.notifyChild id store).map fun (store, sched, landed) => { store, sched, landed }
  | .recordStat counters =>
    some
      { store := store.insert id (valueToStr (s.recordVal config id counters))
        sched := s }

/-- One step of a scheduler, once the thread that makes it is running. -/
def Sched.step (config : Config) (numScheduler : Nat) (id : Str) (store : Store) (s : Sched)
    (a : SchedAct) : Option Effect :=
  if a.needsRunning → s.boot = .running then s.act config numScheduler id store a else none

end MatrixZht
