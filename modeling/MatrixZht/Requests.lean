import MatrixZht.Lib.PriorityQueue
import MatrixZht.Record
import MatrixZht.Store
import MatrixZht.Transfer

namespace MatrixZht
open Lib

/-- The queues and the data of a scheduler that its requests read and change. -/
structure Node where
  waitQueue : List TaskMsg := []
  localQueue : List TaskMsg := []
  wsQueue : List TaskMsg := []
  localData : Str → Option Str := fun _ => none

/-- The order of the local queue and of the work stealing queue. A `priority_queue` takes it to say
that the first of the tasks comes after the second one. -/
def highPriorityByDataSize (hpTaskMsg lpTaskMsg : TaskMsg) : Bool :=
  lpTaskMsg.datalength < hpTaskMsg.datalength

/-- `top` and `pop` of a queue ordered by `HighPriorityByDataSize`: a task of least data length.
The position `k` is the choice the heap makes among several of them. -/
def popTop (k : Nat) (queue : List TaskMsg) : Option (TaskMsg × List TaskMsg) :=
  queue[k]?.bind fun tm =>
    if queue.all (tm.datalength ≤ ·.datalength) then some (tm, queue.eraseIdx k) else none

/-- One `top` and `pop` for each of the positions. -/
def popMany : List Nat → List TaskMsg → Option (List TaskMsg × List TaskMsg)
  | [], queue => some ([], queue)
  | k :: ks, queue => do
    let (tm, queue) ← popTop k queue
    let (tms, queue) ← popMany ks queue
    return (tm :: tms, queue)

theorem popTop_eq_pop (k : Nat) (queue : List TaskMsg) :
    popTop k queue = PriorityQueue.pop highPriorityByDataSize k queue := by
  have hcomp (tm tm' : TaskMsg) :
      decide (tm.datalength ≤ tm'.datalength) = !highPriorityByDataSize tm tm' := by
    rw [highPriorityByDataSize, ← decide_not, decide_eq_decide, Int.not_lt]
  simp only [popTop, PriorityQueue.pop, hcomp]

theorem popMany_eq_popMany (ks : List Nat) (queue : List TaskMsg) :
    popMany ks queue = PriorityQueue.popMany highPriorityByDataSize ks queue := by
  induction ks generalizing queue with
  | nil => rfl
  | cons k ks ih =>
    rw [popMany, PriorityQueue.popMany, popTop_eq_pop]
    simp only [ih]
    cases PriorityQueue.pop highPriorityByDataSize k queue with
    | none => rfl
    | some r => cases h : PriorityQueue.popMany highPriorityByDataSize ks r.2 <;> simp [h]

/-- The first half of `send_task`: half of the work stealing queue is taken out. -/
def takeHalf (ks : List Nat) (wsQueue : List TaskMsg) : Option (List TaskMsg × List TaskMsg) :=
  let numTaskToSend := toInt32 (wsQueue.length / 2 : Nat)
  if ks.length = numTaskToSend.toNat then popMany ks wsQueue else none

/-- `send_task`: what is left of the work stealing queue and the bytes that are written. -/
def sendTask (maxTaskPerPkg : Int) (ks : List Nat) (wsQueue : List TaskMsg) :
    Option (List TaskMsg × Str) := do
  let (taskVec, wsQueue) ← takeHalf ks wsQueue
  let stream ← sendBatchTasks maxTaskPerPkg taskVec "scheduler".toList
  return (wsQueue, stream)

/-- `recv_pushing_task` -/
def recvPushingTask (mm : MatrixMsg) (localQueue : List TaskMsg) : Option (List TaskMsg × Str) := do
  let task ← mm.tasks.head?
  let tm ← strToTaskmsg task
  return (localQueue ++ [tm], mmToStr { msgtype := "success receiving pushing task".toList })

def sendLoad (wsQueue : List TaskMsg) : Str :=
  mmToStr { msgtype := "send load".toList, count := some (toInt32 wsQueue.length) }

/-- `string::substr`. A negative `int` becomes a position past the end of any string, and `none` is
the exception. -/
def substr (str : Str) (pos : Int) (len : Nat) : Option Str :=
  if 0 ≤ pos ∧ pos ≤ str.length then some ((str.drop pos.toNat).take len) else none

/-- The loop of `send_big`. The remaining length is an `int` that is compared as a `uint`. -/
def sendBigLoop (buf : Str) : Nat → Int → Int → Option Str
  | 0, _, _ => none
  | fuel + 1, length, numSent =>
    if bufSize ≤ length % 2 ^ 32 then do
      let str ← substr buf numSent bufSize
      let rest ← sendBigLoop buf fuel (toInt32 (length - bufSize)) (toInt32 (numSent + bufSize))
      return str ++ rest
    else if length > 0 then (substr buf numSent length.toNat).map (· ++ ['$'])
    else some ['$']

/-- The bytes `send_big` writes. -/
def sendBig (buf : Str) : Option Str := sendBigLoop buf (buf.length + 1) (toInt32 buf.length) 0

def recvBig (reads : List Str) : Str := (recvMul reads []).1.dropLast

/-- The message with a piece of data. -/
def dataText (dataPiece : Str) : Str :=
  mmToStr { msgtype := "scheduler send data".toList, extrainfo := some dataPiece }

/-- The reply to a scheduler that requires a piece of data. -/
def sendData (mm : MatrixMsg) (localData : Str → Option Str) : Option Str :=
  sendBig (dataText ((localData (mm.extrainfo.getD [])).getD "shit, that is wrong!".toList))

/-- The packages of a submission go to the wait queue one after another. The record of every task
is decoded for its submission time, which exits on a record that is not one. -/
def enqueuePkgs (s : Store) : List (List TaskMsg) → List TaskMsg → Option (List TaskMsg)
  | [], waitQueue => some waitQueue
  | pkg :: pkgs, waitQueue =>
    if pkg.all fun tm => (strToValue (s.lookup tm.taskid)).isSome then
      enqueuePkgs s pkgs (waitQueue ++ pkg)
    else none

def numTasksRecv : Str := "num tasks recv".toList

/-- The new value of the counter of received tasks. -/
def numTaskRecvMore (numTask : Int) (numTaskRecvStr : Str) : Option Str :=
  some (numToStr (toInt64 (strToLong numTaskRecvStr + numTask)))

/-- `recv_task_from_client`, where `fuel` bounds the turns of the counter loop. -/
def recvTaskFromClient (fuel : Nat) (s : Store) (waitQueue : List TaskMsg) (str : Str)
    (reads : List Str) : Option (List TaskMsg × Store) := do
  match ← decodeBatch (recvMul reads str).1 with
  | none => return (waitQueue, s)
  | some batch =>
    let waitQueue ← enqueuePkgs s batch.pkgs waitQueue
    let s ← Retry.loop (numTaskRecvMore batch.numTask) numTasksRecv fuel s .look
    return (waitQueue, s)

/-- The requests a scheduler serves. -/
inductive Request where
  | submit (str : Str)
  | queryLoad
  | stealTask
  | pushTask (mm : MatrixMsg)
  | requireData (mm : MatrixMsg)
  | other (msg : Str)
deriving DecidableEq

def clientSendTasks : Str := "client send tasks".toList

/-- How `proc_req` recognises a request from the bytes of the first read. -/
def readRequest (buf : Str) : Option Request :=
  let bufStr := cstr buf
  if bufStr.take clientSendTasks.length = clientSendTasks then some (.submit bufStr)
  else (strToMm bufStr).map fun mm =>
    if mm.msgtype = "query load".toList then .queryLoad
    else if mm.msgtype = "steal task".toList then .stealTask
    else if mm.msgtype = "scheduler push task".toList then .pushTask mm
    else if mm.msgtype = "scheduler require data".toList then .requireData mm
    else .other mm.msgtype

theorem take_ne_clientSendTasks {buf : Str} (h : buf.head? = some 's') :
    buf.take clientSendTasks.length ≠ clientSendTasks := by
  intro he
  have hc : clientSendTasks.head? = some 'c' := by decide
  rw [← he, List.head?_take, if_neg (by decide), h] at hc
  exact absurd hc (by decide)

/-- What a request leaves behind. -/
structure Served where
  node : Node
  store : Store
  reply : Str := []

/-- `proc_req` on the first read, made by the server loop, and the reads that follow. `none` is an
exception or an exit. -/
def procReq (maxTaskPerPkg : Int) (fuel : Nat) (ks : List Nat) (s : Store) (node : Node)
    (buf : Str) (reads : List Str) : Option Served := do
  match ← readRequest buf with
  | .submit str =>
    let (waitQueue, store) ← recvTaskFromClient fuel s node.waitQueue str reads
    return { node := { node with waitQueue }, store }
  | .queryLoad => return { node, store := s, reply := sendLoad node.wsQueue }
  | .stealTask =>
    let (wsQueue, reply) ← sendTask maxTaskPerPkg ks node.wsQueue
    return { node := { node with wsQueue }, store := s, reply }
  | .pushTask mm =>
    let (localQueue, reply) ← recvPushingTask mm node.localQueue
    return { node := { node with localQueue }, store := s, reply }
  | .requireData mm =>
    (sendData mm node.localData).map fun reply => { node, store := s, reply }
  | .other _ => return { node, store := s }

end MatrixZht
