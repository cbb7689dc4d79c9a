import MatrixZht.Cluster.Held
import MatrixZht.Lib.FirstMax

namespace MatrixZht
open Lib

/-- The push exchange of `task_ready_process`: no connection, or one on which the first read of the
other scheduler returns `n` bytes of the request, closed or acknowledged afterwards. -/
inductive Exchange where
  | refused
  | closed (n : Nat)
  | acked (n : Nat)
deriving DecidableEq

/-- The bytes of the request that the other scheduler reads. -/
def Exchange.read (text : Str) : Exchange → Str
  | refused => []
  | closed n => text.take n
  | acked n => text.take n

/-- The task that a scheduler puts into its local queue for the bytes it has read. -/
def pushedTask (buf : Str) : Option TaskMsg :=
  match readRequest buf with
  | some (.pushTask mm) => mm.tasks.head?.bind strToTaskmsg
  | _ => none

/-- `check_a_ready_task` with the queues of this scheduler and the local queue of the one that the
task may be pushed to. The acknowledgement is received and not looked at. -/
def checkAReadyTask (config : Config) (id : Str) (store : Store) (ex : Exchange) (node : Node)
    (target : List TaskMsg) (tm : TaskMsg) : Option (Bool × Node × List TaskMsg) :=
  (strToValue (store.lookup tm.taskid)).bind fun value =>
    if value.indegree.getD 0 = 0 then
      (taskReadyProcess config id node.localData value tm).map fun
        | (tm, .ws) => (true, { node with wsQueue := node.wsQueue ++ [tm] }, target)
        | (tm, .loc) => (true, { node with localQueue := node.localQueue ++ [tm] }, target)
        | (tm, .push _) =>
          (true, node, target ++ (pushedTask (ex.read (pushText tm))).toList)
    else some (false, node, target)

/-- One of the three queues has got the task, with some data length. -/
def Queued (tm : TaskMsg) (node node' : Node) (target target' : List TaskMsg) : Prop :=
  ∃ datalength, node'.localQueue = node.localQueue ++ [{ tm with datalength }] ∨
    node'.wsQueue = node.wsQueue ++ [{ tm with datalength }] ∨
    target' = target ++ [{ tm with datalength }]

/-- The largest piece of data of a record, its scheduler and its key. -/
def Value.largest (value : Value) : Option (Int × Str × Str) :=
  maxData value.datasize value.parents value.datanamelist (-1000000, [], [])

/-- There is one name and one parent for every piece of data. -/
structure Value.Aligned (value : Value) : Prop where
  parents : value.parents.length = value.datasize.length
  datanamelist : value.datanamelist.length = value.datasize.length

/-- The task is not worth a push: there is little data, or the largest piece is here. -/
def Stays (config : Config) (id : Str) (localData : Str → Option Str) (value : Value) : Prop :=
  value.alldatasize.getD 0 ≤ config.dataSizeThreshold ∨
    ∃ size maxDataScheduler key, value.largest = some (size, maxDataScheduler, key) ∧
      (maxDataScheduler = id ∨ config.cache ∧ (localData key).isSome)

/-- What the other scheduler reads is enough for the task. -/
def Reaches (ex : Exchange) (value : Value) (tm : TaskMsg) : Prop :=
  ∃ size maxDataScheduler key datalength, value.largest = some (size, maxDataScheduler, key) ∧
    pushedTask (ex.read (pushText { tm with datalength := size })) = some { tm with datalength }

theorem recvPushingTask_spec {mm : MatrixMsg} {localQueue localQueue' : List TaskMsg} {reply : Str}
    (h : recvPushingTask mm localQueue = some (localQueue', reply)) :
    ∃ tm, mm.tasks.head?.bind strToTaskmsg = some tm ∧ localQueue' = localQueue ++ [tm] := by
  obtain ⟨task, htask, h⟩ := Option.bind_eq_some_iff.1 h
  obtain ⟨tm, htm, h⟩ := Option.bind_eq_some_iff.1 h
  cases h
  exact ⟨tm, by rw [htask, Option.bind_some, htm], rfl⟩

/-- The step of the running system is the case of a request that is read whole. -/
theorem localQueue_recvPush {tm : TaskMsg} {s s' : Sched} (h : s.recvPush tm = some s') :
    s'.localQueue = s.localQueue ++ (pushedTask (pushText tm)).toList := by
  rw [Sched.recvPush, Option.ite_none_right_eq_some] at h
  split at h
  · next mm hreq =>
    have htask : pushedTask (pushText tm) = mm.tasks.head?.bind strToTaskmsg := by
      rw [pushedTask, hreq]
    obtain ⟨⟨localQueue, reply⟩, hrecv, rfl⟩ := Option.map_eq_some_iff.1 h.2
    obtain ⟨tm', htm, rfl⟩ := recvPushingTask_spec hrecv
    rw [htask, htm, Option.toList_some]
  · cases h.2

theorem maxData_eq_scanMax {sizes : List Int} {parents names : List Str}
    (hp : parents.length = sizes.length) (hn : names.length = sizes.length)
    (best : Int × Str × Str) : maxData sizes parents names best =
      some (scanMax Prod.fst best (sizes.zip (parents.zip names))) := by
  induction sizes generalizing parents names best with
  | nil => rfl
  | cons size sizes ih =>
    obtain ⟨parent, parents, rfl⟩ := List.exists_cons_of_length_eq_add_one hp
    obtain ⟨name, names, rfl⟩ := List.exists_cons_of_length_eq_add_one hn
    simp only [List.length_cons, Nat.add_right_cancel_iff] at hp hn
    rw [maxData, List.zip_cons_cons, List.zip_cons_cons]
    by_cases hlt : best.1 < size
    · rw [if_pos hlt, scanMax_cons_of_lt hlt]
      exact ih hp hn _
    · rw [if_neg hlt, scanMax_cons_of_le (not_lt.1 hlt)]
      exact ih hp hn _

theorem Value.Aligned.largest {value : Value} (h : value.Aligned) :
    ∃ size maxDataScheduler key, value.largest = some (size, maxDataScheduler, key) :=
  ⟨_, _, _, maxData_eq_scanMax h.parents h.datanamelist (-1000000, [], [])⟩

section Ready

variable {config : Config} {id : Str} {localData : Str → Option Str} {value : Value} {tm : TaskMsg}

theorem taskReadyProcess_stays (h : Stays config id localData value) :
    ∃ datalength, taskReadyProcess config id localData value tm =
        some ({ tm with datalength }, .ws) ∨
      taskReadyProcess config id localData value tm = some ({ tm with datalength }, .loc) := by
  by_cases hsmall : value.alldatasize.getD 0 ≤ config.dataSizeThreshold
  · exact ⟨_, .inl (by rw [taskReadyProcess]; exact if_pos hsmall)⟩
  · obtain ⟨size, maxDataScheduler, key, hl, hhere⟩ := h.resolve_left hsmall
    rw [Value.largest] at hl
    refine ⟨size, .inr ?_⟩
    rw [taskReadyProcess, if_neg hsmall, hl]
    by_cases hself : maxDataScheduler = id
    · simp [hself]
    · simp [hself, hhere.resolve_left hself]

theorem taskReadyProcess_push (h : ¬ Stays config id localData value) {size : Int}
    {maxDataScheduler key : Str} (hl : value.largest = some (size, maxDataScheduler, key)) :
    taskReadyProcess config id localData value tm =
      some ({ tm with datalength := size }, .push maxDataScheduler) := by
  have hlarge : ¬ value.alldatasize.getD 0 ≤ config.dataSizeThreshold := fun hs => h (.inl hs)
  have hself : maxDataScheduler ≠ id := fun he => h (.inr ⟨_, _, _, hl, .inl he⟩)
  have hcache : ¬ (config.cache ∧ (localData key).isSome) :=
    fun hc => h (.inr ⟨_, _, _, hl, .inr hc⟩)
  rw [Value.largest] at hl
  rw [taskReadyProcess, if_neg hlarge, hl]
  simp only [Option.map_some, if_neg hself, if_neg hcache]

end Ready

theorem queued_push {tm : TaskMsg} {node : Node} {target : List TaskMsg} {pushed : Option TaskMsg} :
    Queued tm node node target (target ++ pushed.toList) ↔
      ∃ datalength, pushed = some { tm with datalength } := by
  constructor
  · rintro ⟨datalength, h | h | h⟩
    · simp at h
    · simp at h
    · refine ⟨datalength, ?_⟩
      cases pushed with
      | none => simp at h
      | some tm' => simpa using h
  · rintro ⟨datalength, rfl⟩
    exact ⟨datalength, .inr (.inr rfl)⟩

/-- A ready task is in one of the queues afterwards exactly when it is not pushed, or what the other
scheduler reads of the request decodes to it. -/
theorem checkAReadyTask_queued_iff (config : Config) (id : Str) (store : Store) (node : Node)
    (target : List TaskMsg) (tm : TaskMsg) (value : Value)
    (hvalue : strToValue (store.lookup tm.taskid) = some value)
    (hready : value.indegree.getD 0 = 0) (haligned : value.Aligned) (ex : Exchange) :
    ∃ node' target',
      checkAReadyTask config id store ex node target tm = some (true, node', target') ∧
        (Queued tm node node' target target' ↔
          Stays config id node.localData value ∨ Reaches ex value tm) := by
  by_cases hstays : Stays config id node.localData value
  · obtain ⟨datalength, h | h⟩ := @taskReadyProcess_stays config id node.localData value tm hstays
    · refine ⟨{ node with wsQueue := node.wsQueue ++ [{ tm with datalength }] }, target, ?_, ?_⟩
      · rw [checkAReadyTask, hvalue, Option.bind_some, if_pos hready, h]
        rfl
      · exact ⟨fun _ => .inl hstays, fun _ => ⟨datalength, .inr (.inl rfl)⟩⟩
    · refine ⟨{ node with localQueue := node.localQueue ++ [{ tm with datalength }] }, target,
        ?_, ?_⟩
      · rw [checkAReadyTask, hvalue, Option.bind_some, if_pos hready, h]
        rfl
      · exact ⟨fun _ => .inl hstays, fun _ => ⟨datalength, .inl rfl⟩⟩
  · obtain ⟨size, maxDataScheduler, key, hl⟩ := haligned.largest
    have hcheck : checkAReadyTask config id store ex node target tm = some (true, node,
        target ++ (pushedTask (ex.read (pushText { tm with datalength := size }))).toList) := by
      rw [checkAReadyTask, hvalue, Option.bind_some, if_pos hready, taskReadyProcess_push hstays hl]
      rfl
    refine ⟨node, _, hcheck, queued_push.trans ⟨?_, ?_⟩⟩
    · rintro ⟨datalength, h⟩
      exact .inr ⟨size, maxDataScheduler, key, datalength, hl, h⟩
    · rintro (h | ⟨size', _, _, datalength, hl', h⟩)
      · exact absurd h hstays
      · rw [hl] at hl'
        obtain ⟨rfl, _⟩ := Prod.mk.inj (Option.some.inj hl')
        exact ⟨datalength, h⟩

/-- A task with one parent, whose data is on another scheduler. -/
def childTask : TaskMsg := ⟨"01".toList, "u".toList, "d".toList, "sleep 0".toList, 0⟩

def childValue : Value :=
  { id := "01".toList
    indegree := some 0
    parents := ["host1".toList]
    datanamelist := ["00key".toList]
    datasize := [9]
    alldatasize := some 9 }

def childStore : Store := Store.insert (fun _ => none) "01".toList (valueToStr childValue)

def pushConfig : Config := ⟨1, 1, 0, 1, true⟩

theorem checkAReadyTask_queued_iff_acked :
    ∃ node' target', checkAReadyTask pushConfig "host0".toList childStore (.acked 8191) {} []
        childTask = some (true, node', target') ∧
      (Queued childTask {} node' [] target' ↔
        Stays pushConfig "host0".toList (fun _ => none) childValue ∨
          Reaches (.acked 8191) childValue childTask) :=
  checkAReadyTask_queued_iff pushConfig "host0".toList childStore {} [] childTask childValue
    (by decide +kernel) (by decide) ⟨by decide, by decide⟩ (.acked 8191)

/-- When the connection is refused the task is in no queue. -/
theorem not_queued_refused :
    strToValue (childStore.lookup childTask.taskid) = some childValue ∧ childValue.Aligned ∧
      checkAReadyTask pushConfig "host0".toList childStore .refused {} [] childTask =
        some (true, {}, []) ∧ ¬ Queued childTask {} {} [] [] := by
  have hvalue : strToValue (childStore.lookup childTask.taskid) = some childValue := by
    decide +kernel
  refine ⟨hvalue, ⟨by decide, by decide⟩, ?_, ?_⟩
  · rw [checkAReadyTask, hvalue]
    rfl
  · simp [Queued]

end MatrixZht
