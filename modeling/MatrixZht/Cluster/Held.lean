import Mathlib.Tactic.Abel
import MatrixZht.Cluster.Moves
import MatrixZht.Cluster.System

namespace MatrixZht
open Lib

/-- A task without the length of its data, which schedulers set anew. -/
def TaskMsg.core (tm : TaskMsg) : TaskMsg := { tm with datalength := 0 }

/-- The tasks of a list, in no order. -/
def cores (l : List TaskMsg) : Multiset TaskMsg := (l.map TaskMsg.core : List TaskMsg)

section Cores

variable {l l' : List TaskMsg} {tm : TaskMsg}

@[simp] theorem cores_nil : cores [] = 0 := rfl

@[simp] theorem cores_append (l l' : List TaskMsg) : cores (l ++ l') = cores l + cores l' := by
  rw [cores, List.map_append, ← Multiset.coe_add]
  rfl

@[simp] theorem cores_cons (tm : TaskMsg) (l : List TaskMsg) :
    cores (tm :: l) = {tm.core} + cores l := by
  rw [← List.singleton_append, cores_append]
  rfl

theorem cores_perm (h : l.Perm l') : cores l = cores l' :=
  Multiset.coe_eq_coe.2 (h.map _)

@[simp] theorem core_reread (tm : TaskMsg) : tm.reread.core = tm.core := rfl

@[simp] theorem cores_reread (l : List TaskMsg) : cores (l.map TaskMsg.reread) = cores l := by
  rw [cores, List.map_map]
  rfl

@[simp] theorem clean_core : tm.core.Clean ↔ tm.Clean := Iff.rfl

theorem mem_cores {l : List TaskMsg} {t : TaskMsg} : t ∈ cores l ↔ ∃ tm ∈ l, tm.core = t := by
  simp [cores]

end Cores

section Pop

variable {k : Nat} {ks : List Nat} {queue queue' tms : List TaskMsg} {tm : TaskMsg}

theorem perm_of_popTop (h : popTop k queue = some (tm, queue')) : queue.Perm (tm :: queue') := by
  rw [popTop_eq_pop] at h
  exact PriorityQueue.perm_of_pop h

theorem perm_of_popMany (h : popMany ks queue = some (tms, queue')) :
    queue.Perm (tms ++ queue') := by
  rw [popMany_eq_popMany] at h
  exact PriorityQueue.perm_of_popMany h

end Pop

/-- A batch of clean tasks arrives however its stream is cut. -/
theorem decodeBatch_batchStream {config : Config} {tasks : List TaskMsg} {peer stream : Str}
    (hp : CleanField peer) (hclean : ∀ t ∈ tasks, t.Clean)
    (hs : batchStream config tasks peer = some stream) :
    (tasks = [] ∧ decodeBatch stream = some none ∨
      ∃ pkgs : List (List TaskMsg), pkgs.flatten = tasks.map TaskMsg.reread ∧ tasks ≠ [] ∧
        decodeBatch stream = some (some { numTask := toInt32 tasks.length, pkgs })) ∧
      ∃ body, stream = body ++ ['$'] ∧ '$' ∉ body ∧ '\x00' ∉ body := by
  rw [batchStream, Option.ite_none_right_eq_some] at hs
  obtain ⟨hmin, hs⟩ := hs
  obtain ⟨pkgs, hnil, hflat, hle, rfl⟩ := exists_pkgs hs
  obtain ⟨hd, hz⟩ := not_mem_batchText hp (fun t ht => (hclean t ht).delimFree) hflat
  refine ⟨?_, _, rfl, hd, hz⟩
  by_cases hempty : tasks = []
  · rw [hnil.2 hempty, hempty]
    exact .inl ⟨rfl, decodeBatch_header hp⟩
  · refine .inr ⟨pkgs.map (·.map TaskMsg.reread), ?_, hempty, ?_⟩
    · rw [← hflat, List.map_flatten]
    · exact decodeBatch_batchText hp hclean (length_lt_of_le hflat hle hmin) hflat
        fun h => hempty (hnil.1 h)

section Held

def Serving.tasks : Serving → List TaskMsg
  | idle => []
  | enqueue _ todo => todo.flatten
  | count _ _ => []

def Check.tasks : Check → List TaskMsg
  | idle => []
  | popped tm => [tm]
  | notReady tm => [tm]
  | ready tm _ => [tm]
  | toWs tm => [tm]
  | toLocal tm => [tm]
  | pushing tm _ => [tm]

def Thief.tasks : Thief → List TaskMsg
  | idle => []
  | asked _ => []
  | batch tasks => tasks
  | stolen pkgs => pkgs.flatten

def Exec.task : Exec → TaskMsg
  | popped tm => tm
  | fetching tm _ _ _ => tm
  | requiring tm _ _ _ => tm
  | stored tm _ _ => tm

/-- The tasks a scheduler has: those sent to it, those in its queues, those its threads hold. -/
def Sched.held (s : Sched) : List TaskMsg :=
  s.inbox.flatten ++ s.serving.tasks ++ s.waitQueue ++ s.check.tasks ++ s.localQueue ++
    s.wsQueue ++ s.thief.tasks ++ s.migrated ++ s.exec.map Exec.task

theorem Sched.cores_held (s : Sched) : cores s.held =
    cores s.inbox.flatten + cores s.serving.tasks + cores s.waitQueue + cores s.check.tasks +
      cores s.localQueue + cores s.wsQueue + cores s.thief.tasks + cores s.migrated +
      cores (s.exec.map Exec.task) := by
  simp only [held, cores_append]

/-- What a scheduler sees in a step: its id, the contents of the ZHT, whether data is cached, the
data of the schedulers, and the output of the task that is run. -/
structure Env where
  id : Str
  store : Store
  cache : Bool
  peer : Str → (Str → Option Str) → Prop
  ran : Str → Str → Prop

/-- Where only the tasks matter. -/
def Env.any (id : Str) (store : Store) (cache : Bool) : Env where
  id := id
  store := store
  cache := cache
  peer := fun _ _ => True
  ran := fun _ _ => True

/-- The scheduler `peerId` answers the request for `dataname`. -/
def Env.Replies (env : Env) (peerId dataname dataPiece : Str) : Prop :=
  ∃ localData mm reply reads mmData, env.peer peerId localData ∧
    readRequest (requireText dataname) = some (.requireData mm) ∧
    sendData mm localData = some reply ∧ Cut reply reads ∧
    strToMm (recvBig reads) = some mmData ∧ dataPiece = mmData.extrainfo.getD []

/-- What a core does next with its task, and to the data. -/
inductive ExecNext (env : Env) (localData : Str → Option Str) :
    Exec → Exec → (Str → Option Str) → Prop where
  | lookup {tm : TaskMsg} {value : Value}
    (h : strToValue (env.store.lookup tm.taskid) = some value) :
    ExecNext env localData (.popped tm) (.fetching tm value 0 []) localData
  | skip {tm : TaskMsg} {value : Value} {i : Nat} {data : Str} {datasize : Int}
    (hsize : value.datasize[i]? = some datasize) (hle : datasize ≤ 0) :
    ExecNext env localData (.fetching tm value i data) (.fetching tm value (i + 1) data) localData
  | fetch {tm : TaskMsg} {value : Value} {i : Nat} {data dataname dataPiece : Str} {datasize : Int}
    (hsize : value.datasize[i]? = some datasize) (hpos : 0 < datasize)
    (hname : value.datanamelist[i]? = some dataname)
    (hown : value.parents[i]? = some env.id ∨ env.cache = true)
    (hdata : localData dataname = some dataPiece) :
    ExecNext env localData (.fetching tm value i data)
      (.fetching tm value (i + 1) (data ++ dataPiece)) localData
  | require {tm : TaskMsg} {value : Value} {i : Nat} {data : Str} {datasize : Int}
    (hsize : value.datasize[i]? = some datasize) (hpos : 0 < datasize) :
    ExecNext env localData (.fetching tm value i data) (.requiring tm value i data) localData
  | receive {tm : TaskMsg} {value : Value} {i : Nat} {data peerId dataname dataPiece : Str}
    (hparent : value.parents[i]? = some peerId) (hname : value.datanamelist[i]? = some dataname)
    (hreply : env.Replies peerId dataname dataPiece) :
    ExecNext env localData (.requiring tm value i data)
      (.fetching tm value (i + 1) (data ++ dataPiece))
      (if env.cache then insertNew localData dataname dataPiece else localData)
  | run {tm : TaskMsg} {value : Value} {i : Nat} {data result : Str}
    (hran : env.ran tm.taskid result) :
    ExecNext env localData (.fetching tm value i data) (.stored tm value (env.id ++ tm.taskid))
      (insertNew localData (env.id ++ tm.taskid) result)

/-- What happens to the cores and the data in a step by which no task is completed. -/
inductive ExecStep (env : Env) (l : List Exec) (localData : Str → Option Str) :
    List Exec → (Str → Option Str) → Prop where
  | same : ExecStep env l localData l localData
  | pop (tm : TaskMsg) : ExecStep env l localData (l ++ [.popped tm]) localData
  | next {e : Nat} {x y : Exec} {localData' : Str → Option Str} (hx : l[e]? = some x)
    (h : ExecNext env localData x y localData') : ExecStep env l localData (l.set e y) localData'

theorem ExecStep.forall_mem {P : Exec → Prop} {env : Env} {l l' : List Exec}
    {localData localData' : Str → Option Str} (h : ExecStep env l localData l' localData')
    (hpop : ∀ tm, P (.popped tm))
    (hnext : ∀ x y data, P x → ExecNext env localData x y data → P y) (hl : ∀ x ∈ l, P x) :
    ∀ x ∈ l', P x := by
  cases h with
  | same => exact hl
  | pop tm =>
    intro x hx
    rcases List.mem_append.1 hx with hx | hx
    · exact hl x hx
    · rw [List.mem_singleton.1 hx]
      exact hpop tm
  | next hx hxy =>
    intro x hmem
    rcases List.mem_or_eq_of_mem_set hmem with hmem | rfl
    · exact hl x hmem
    · exact hnext _ _ _ (hl _ (List.mem_of_getElem? hx)) hxy

/-- Nothing is completed or notified. -/
structure Kept (env : Env) (s s' : Sched) : Prop where
  completeQueue : s'.completeQueue = s.completeQueue
  notify : s'.notify = s.notify
  boot : s'.boot = s.boot
  serving : s'.serving = s.serving ∨ ∀ batch r, s'.serving = .count batch r → r = .look
  exec : ExecStep env s.exec s.localData s'.exec s'.localData

/-- Tasks change their place only. -/
structure Moved (env : Env) (s s' : Sched) : Prop extends Kept env s s' where
  held : cores s'.held = cores s.held

namespace Sched

variable {config : Config} {env : Env} {id peerId : Str} {store : Store} {s s' peer : Sched}
  {e k : Nat} {reads : List Str}

theorem map_task_set {l : List Exec} {x y : Exec} (h : l[e]? = some x) (hxy : x.task = y.task) :
    (l.set e y).map Exec.task = l.map Exec.task := by
  obtain ⟨he, rfl⟩ := List.getElem?_eq_some_iff.1 h
  rw [List.map_set, ← hxy, ← List.getElem_map Exec.task (h := by simpa using he),
    List.set_getElem_self]

theorem held_setExec {l : List Exec} {localData : Str → Option Str}
    (h : l.map Exec.task = s.exec.map Exec.task) :
    cores { s with exec := l, localData }.held = cores s.held := by
  simp only [cores_held, h]

theorem moved_enqueue (h : s.enqueue env.store = some s') : Moved env s s' := by
  rcases enqueue_spec h with ⟨batch, hserve, rfl⟩ | ⟨batch, pkg, todo, hserve, rfl⟩
  · exact ⟨⟨rfl, rfl, rfl, .inr (by simp), .same⟩, by simp [cores_held, hserve, Serving.tasks]⟩
  · refine ⟨⟨rfl, rfl, rfl, .inr (by simp), .same⟩, ?_⟩
    simp only [cores_held, hserve, Serving.tasks, List.flatten_cons, cores_append]
    abel

theorem moved_putStolen (h : s.putStolen = some s') : Moved env s s' := by
  rcases putStolen_spec h with ⟨hthief, rfl⟩ | ⟨pkg, pkgs, hthief, rfl⟩
  · exact ⟨⟨rfl, rfl, rfl, .inl rfl, .same⟩, by simp [cores_held, hthief, Thief.tasks]⟩
  · refine ⟨⟨rfl, rfl, rfl, .inl rfl, .same⟩, ?_⟩
    simp only [cores_held, hthief, Thief.tasks, List.flatten_cons, cores_append]
    abel

theorem moved_popWaiting (h : s.popWaiting = some s') : Moved env s s' := by
  obtain ⟨tm, waitQueue, hcheck, hwait, rfl⟩ := popWaiting_spec h
  refine ⟨⟨rfl, rfl, rfl, .inl rfl, .same⟩, ?_⟩
  simp only [cores_held, hcheck, hwait, Check.tasks, cores_cons, cores_nil]
  abel

theorem moved_lookupReady (h : s.lookupReady env.store = some s') : Moved env s s' := by
  obtain ⟨tm, value, hcheck, _, ⟨_, rfl⟩ | rfl⟩ := lookupReady_spec h
  · exact ⟨⟨rfl, rfl, rfl, .inl rfl, .same⟩, by simp [cores_held, hcheck, Check.tasks]⟩
  · exact ⟨⟨rfl, rfl, rfl, .inl rfl, .same⟩, by simp [cores_held, hcheck, Check.tasks]⟩

theorem tasks_processReady {tm tm' : TaskMsg} {value : Value} {localData : Str → Option Str}
    {flag : Flag} (h : taskReadyProcess config id localData value tm = some (tm', flag)) :
    tm'.core = tm.core := by
  unfold taskReadyProcess at h
  simp only at h
  split at h
  · cases h
    rfl
  · obtain ⟨⟨_, _, _⟩, _, h⟩ := Option.map_eq_some_iff.1 h
    simp only at h
    split at h
    · cases h
      rfl
    · split at h
      · cases h
        rfl
      · cases h
        rfl

theorem moved_processReady (h : s.processReady config env.id = some s') : Moved env s s' := by
  obtain ⟨tm, value, tm', flag, check, hcheck, hready, hkept, rfl⟩ := processReady_spec h
  have hcore := tasks_processReady hready
  have htasks : s.check.tasks = [tm] := by rw [hcheck, Check.tasks]
  have htasks' : check.tasks = [tm'] := by
    rcases hkept with rfl | rfl | ⟨target, rfl⟩ <;> rfl
  exact ⟨⟨rfl, rfl, rfl, .inl rfl, .same⟩, by simp [cores_held, htasks, htasks', hcore]⟩

theorem moved_putChecked (h : s.putChecked = some s') : Moved env s s' := by
  obtain ⟨tm, ⟨hcheck, rfl⟩ | ⟨hcheck, rfl⟩ | ⟨hcheck, rfl⟩⟩ := putChecked_spec h
  all_goals
    refine ⟨⟨rfl, rfl, rfl, .inl rfl, .same⟩, ?_⟩
    simp only [cores_held, hcheck, Check.tasks, cores_append, cores_nil]
    abel

theorem moved_migrateOut {maxSize : Nat} {ks ks' : List Nat}
    (h : s.migrateOut maxSize ks ks' = some s') : Moved env s s' := by
  obtain ⟨vecRemain, localQueue, vecMigrated, rest, hm, _, hremain, htaken, rfl⟩ :=
    migrateOut_spec h
  have h₁ := cores_perm (perm_of_popMany hremain)
  have h₂ := cores_perm (perm_of_popMany htaken)
  rw [cores_append] at h₁ h₂
  refine ⟨⟨rfl, rfl, rfl, .inl rfl, .same⟩, ?_⟩
  simp only [cores_held, hm, cores_append, cores_nil, h₁, h₂]
  abel

theorem moved_migrateIn (h : s.migrateIn = some s') : Moved env s s' := by
  cases h
  refine ⟨⟨rfl, rfl, rfl, .inl rfl, .same⟩, ?_⟩
  simp only [cores_held, cores_append, cores_nil]
  abel

theorem moved_popReady {fromLocal : Bool} (h : s.popReady config fromLocal k = some s') :
    Moved env s s' := by
  obtain ⟨tm, queue, _, ⟨_, hpop, rfl⟩ | ⟨_, hpop, rfl⟩⟩ := popReady_spec h
  all_goals
    have hperm := cores_perm (perm_of_popTop hpop)
    refine ⟨⟨rfl, rfl, rfl, .inl rfl, .pop tm⟩, ?_⟩
    simp only [cores_held, hperm, List.map_append, List.map_cons, List.map_nil, Exec.task,
      cores_append, cores_cons, cores_nil]
    abel

theorem moved_lookupExec (h : s.lookupExec env.store e = some s') : Moved env s s' := by
  obtain ⟨tm, value, hexec, hvalue, rfl⟩ := lookupExec_spec h
  exact ⟨⟨rfl, rfl, rfl, .inl rfl, .next hexec (.lookup hvalue)⟩,
    held_setExec (map_task_set hexec rfl)⟩

theorem moved_fetchLocal (hcache : env.cache = config.cache)
    (h : s.fetchLocal config env.id e = some s') : Moved env s s' := by
  obtain ⟨tm, value, i, data, parent, datasize, data', hexec, hparent, hsize, hdata, rfl⟩ :=
    fetchLocal_spec h
  refine ⟨⟨rfl, rfl, rfl, .inl rfl, .next hexec ?_⟩, held_setExec (map_task_set hexec rfl)⟩
  rcases hdata with ⟨hle, rfl⟩ | ⟨dataname, dataPiece, hpos, hhere, hname, hpiece, rfl⟩
  · exact .skip hsize hle
  · have hown := hhere.imp (fun he => he ▸ hparent) fun hc => hcache.trans hc
    exact .fetch hsize hpos hname hown hpiece

theorem moved_requireData (h : s.requireData config env.id e = some s') : Moved env s s' := by
  obtain ⟨tm, value, i, data, datasize, hexec, hsize, hpos, rfl⟩ := requireData_spec h
  exact ⟨⟨rfl, rfl, rfl, .inl rfl, .next hexec (.require hsize hpos)⟩,
    held_setExec (map_task_set hexec rfl)⟩

theorem moved_fetchRemote (hcache : env.cache = config.cache)
    (hpeer : env.peer peerId peer.localData)
    (h : s.fetchRemote config peerId e reads peer = some s') : Moved env s s' := by
  obtain ⟨tm, value, i, data, dataname, mm, reply, mmData, hexec, hparent, hname, hreq, hreply,
    hcut, hmm, rfl⟩ := fetchRemote_spec h
  have hreplies : env.Replies peerId dataname (mmData.extrainfo.getD []) :=
    ⟨peer.localData, mm, reply, reads, mmData, hpeer, hreq, hreply, hcut, hmm, rfl⟩
  have hnext : ExecNext env s.localData (.requiring tm value i data) _ _ :=
    .receive hparent hname hreplies
  rw [hcache] at hnext
  exact ⟨⟨rfl, rfl, rfl, .inl rfl, .next hexec hnext⟩, held_setExec (map_task_set hexec rfl)⟩

theorem moved_storeResult {result : Str}
    (hran : ∀ x, s.exec[e]? = some x → env.ran x.task.taskid result)
    (h : s.storeResult env.id e result = some s') : Moved env s s' := by
  obtain ⟨tm, value, data, hexec, rfl⟩ := storeResult_spec h
  exact ⟨⟨rfl, rfl, rfl, .inl rfl, .next hexec (.run (hran _ hexec))⟩,
    held_setExec (map_task_set hexec rfl)⟩

theorem submit_of_readRequest {first str : Str} (h : readRequest first = some (.submit str)) :
    str = cstr first := by
  simp only [readRequest] at h
  split at h
  · cases h
    rfl
  · obtain ⟨mm, _, h⟩ := Option.map_eq_some_iff.1 h
    split at h
    · cases h
    · split at h
      · cases h
      · split at h
        · cases h
        · split at h <;> cases h

theorem decodeBatch_accept {tasks : List TaskMsg} {stream first str : Str} {rest : List Str}
    (hclean : ∀ t ∈ tasks, t.Clean) (hs : batchStream config tasks "client".toList = some stream)
    (hcut : Cut stream (first :: rest)) (hreq : readRequest first = some (.submit str)) :
    (recvMul rest str).1 = stream := by
  obtain ⟨_, body, rfl, hd, hz⟩ := decodeBatch_batchStream (by decide) hclean hs
  have hzf : '\x00' ∉ first := by
    intro hmem
    have hall : '\x00' ∈ (first :: rest).flatten := by simp [hmem]
    rw [hcut.flatten] at hall
    simp [hz] at hall
  rw [submit_of_readRequest hreq, cstr_eq hzf]
  exact recvMul_rest hcut hd hz

theorem kept_accept (h : s.accept config reads = some s') : Kept env s s' := by
  obtain ⟨_, _, _, _, _, _, batch, _, hserve, _, _, _, _, _, rfl⟩ := accept_spec h
  cases batch with
  | none => exact ⟨rfl, rfl, rfl, .inl hserve.symm, .same⟩
  | some batch => exact ⟨rfl, rfl, rfl, .inr (by simp), .same⟩

theorem kept_recvStolen (h : s.recvStolen config reads = some s') : Kept env s s' := by
  obtain ⟨_, _, batch, _, _, _, _, rfl⟩ := recvStolen_spec h
  exact ⟨rfl, rfl, rfl, .inl rfl, .same⟩

theorem accept_decoded (hclean : ∀ tm ∈ s.held, tm.Clean)
    (h : s.accept config reads = some s') :
    ∃ tasks inbox, s.inbox = tasks :: inbox ∧ s.serving = .idle ∧
      (tasks = [] ∧ s' = { s with inbox } ∨
        ∃ pkgs : List (List TaskMsg), pkgs.flatten = tasks.map TaskMsg.reread ∧
          s' = { s with inbox, serving := .enqueue ⟨toInt32 tasks.length, pkgs⟩ pkgs }) := by
  obtain ⟨tasks, inbox, first, rest, stream, str, batch, hinbox, hserve, _, hstream, hcut, hreq,
    hbatch, rfl⟩ := accept_spec h
  have ht : ∀ t ∈ tasks, t.Clean := fun t hmem => hclean t (by simp [held, hinbox, hmem])
  rw [decodeBatch_accept ht hstream hcut hreq] at hbatch
  obtain ⟨hdec, _⟩ := decodeBatch_batchStream (by decide) ht hstream
  refine ⟨tasks, inbox, hinbox, hserve, ?_⟩
  rcases hdec with ⟨hnil, hdec⟩ | ⟨pkgs, hflat, _, hdec⟩
  · cases hbatch.symm.trans hdec
    exact .inl ⟨hnil, by rw [Option.elim_none, ← hserve]⟩
  · cases hbatch.symm.trans hdec
    exact .inr ⟨pkgs, hflat, rfl⟩

theorem moved_accept (hclean : ∀ tm ∈ s.held, tm.Clean) (h : s.accept config reads = some s') :
    Moved env s s' := by
  refine ⟨kept_accept h, ?_⟩
  obtain ⟨tasks, inbox, hinbox, hserve, ⟨hnil, rfl⟩ | ⟨pkgs, hflat, rfl⟩⟩ :=
    accept_decoded hclean h
  · simp [cores_held, hinbox, hnil]
  · simp only [cores_held, hinbox, hserve, Serving.tasks, hflat, List.flatten_cons,
      cores_append, cores_reread, cores_nil]
    abel

theorem moved_recvStolen (hclean : ∀ tm ∈ s.held, tm.Clean)
    (h : s.recvStolen config reads = some s') : Moved env s s' := by
  refine ⟨kept_recvStolen h, ?_⟩
  obtain ⟨tasks, stream, batch, hthief, hstream, hcut, hbatch, rfl⟩ := recvStolen_spec h
  have ht : ∀ t ∈ tasks, t.Clean := fun t hmem =>
    hclean t (by simp [held, hthief, Thief.tasks, hmem])
  obtain ⟨hdec, body, rfl, hd, hz⟩ := decodeBatch_batchStream (by decide) ht hstream
  rw [recvMul_of_flatten hcut.pos hcut.flatten hd hz, List.nil_append] at hbatch
  rcases hdec with ⟨hnil, hdec⟩ | ⟨pkgs, hflat, _, hdec⟩
  · cases hbatch.symm.trans hdec
    simp [cores_held, hthief, Thief.tasks, hnil]
  · cases hbatch.symm.trans hdec
    simp only [cores_held, hthief, Option.elim_some, Thief.tasks, hflat, cores_reread]

theorem nul_not_mem_pushText {tm : TaskMsg} (h : tm.Clean) : '\x00' ∉ pushText tm := by
  refine not_mem_terminate (by decide) fun w hw => ?_
  simp only [List.mem_cons, List.not_mem_nil, or_false] at hw
  rcases hw with rfl | rfl | rfl | rfl
  · decide
  · decide
  · exact not_mem_numToStr _ (by decide) (by decide)
  · rw [if_pos (by simp)]
    refine not_mem_terminate (by decide) fun t ht => ?_
    rw [List.mem_singleton.1 ht]
    exact h.not_mem_str (by decide) (by decide)

theorem readRequest_pushText {tm : TaskMsg} (h : tm.Clean) : readRequest (pushText tm) = some
    (.pushTask
      { msgtype := "scheduler push task".toList
        count := some 1
        tasks := [taskmsgToStr tm] }) := by
  have hclean : MatrixMsg.Clean
      { msgtype := "scheduler push task".toList, count := some 1, tasks := [taskmsgToStr tm] } :=
    { msgtype := isField_word (by decide)
      extrainfo := by simp
      count := by
        intro n hn
        cases hn
        decide
      tasks := by
        intro t ht
        rw [List.mem_singleton.1 ht]
        exact ⟨isField_iff.2 ⟨taskmsgToStr_ne_nil tm, h.not_mem_str (by decide) (by decide)⟩,
          h.not_mem_str (by decide) (by decide)⟩ }
  have hhead : (pushText tm).head? = some 's' := by
    rw [pushText, mmToStr, terminate_cons, List.head?_append]
    rfl
  simp only [readRequest, cstr_eq (nul_not_mem_pushText h), if_neg (take_ne_clientSendTasks hhead)]
  rw [pushText, strToMm_mmToStr hclean]
  rfl

theorem recvPush_spec {tm : TaskMsg} (hclean : tm.Clean) (h : s.recvPush tm = some s') :
    s' = { s with localQueue := s.localQueue ++ [tm.reread] } := by
  rw [recvPush, Option.ite_none_right_eq_some, readRequest_pushText hclean] at h
  obtain ⟨⟨localQueue, reply⟩, hrecv, rfl⟩ := Option.map_eq_some_iff.1 h.2
  simp only [recvPushingTask, List.head?_cons, Option.bind_eq_bind, Option.bind_some,
    strToTaskmsg_fields hclean, Option.pure_def, Option.some.injEq, Prod.mk.injEq] at hrecv
  rw [← hrecv.1]
  rfl

theorem giveHalf_spec {ks : List Nat} {taskVec : List TaskMsg}
    (h : s.giveHalf config ks = some (taskVec, s')) :
    ∃ wsQueue, s.wsQueue.Perm (taskVec ++ wsQueue) ∧ s' = { s with wsQueue } := by
  rw [giveHalf, Option.ite_none_right_eq_some] at h
  obtain ⟨⟨taskVec', wsQueue⟩, htake, h⟩ := Option.bind_eq_some_iff.1 h.2
  rw [takeHalf, Option.ite_none_right_eq_some] at htake
  simp only [Option.ite_none_right_eq_some, Option.some.injEq, Prod.mk.injEq] at h
  obtain ⟨_, rfl, rfl⟩ := h
  exact ⟨wsQueue, perm_of_popMany htake.2, rfl⟩

theorem held_finish {tm : TaskMsg} (h : s.finish e = some (s', tm)) :
    cores s'.held + {tm.core} = cores s.held := by
  obtain ⟨value, key, hexec, rfl⟩ := finish_spec h
  obtain ⟨he, hget⟩ := List.getElem?_eq_some_iff.1 hexec
  have hperm := (List.getElem_cons_eraseIdx_perm he).map Exec.task
  rw [hget] at hperm
  have hcores := cores_perm hperm
  simp only [List.map_cons, Exec.task, cores_cons] at hcores
  simp only [cores_held, ← hcores]
  abel

theorem held_popComplete (h : s.popComplete = some s') : s'.held = s.held := by
  obtain ⟨_, _, _, _, rfl⟩ := popComplete_spec h
  rfl

theorem held_lookupChildren (h : s.lookupChildren store = some s') : s'.held = s.held := by
  obtain ⟨_, _, _, _, rfl⟩ := lookupChildren_spec h
  rfl

theorem held_notifyChild {landed : List Landing} {store' : Store}
    (h : s.notifyChild id store = some (store', s', landed)) : s'.held = s.held := by
  obtain ⟨_, _, _, _, rfl, _⟩ | ⟨_, _, _, _, _, _, _, ⟨_, rfl, _⟩ | ⟨_, _, _, rfl⟩⟩ :=
    notifyChild_spec h
  all_goals rfl

theorem held_countReceived {counted : List Int} {store' : Store}
    (h : s.countReceived store = some (store', s', counted)) : cores s'.held = cores s.held := by
  obtain ⟨batch, r, r', hserve, _, ⟨_, rfl, _⟩ | ⟨next, _, rfl, _⟩⟩ := countReceived_spec h
  · simp [cores_held, hserve, Serving.tasks]
  · simp [cores_held, hserve, Serving.tasks]

theorem kept_move {a : Move} (hcache : env.cache = config.cache)
    (hran : ∀ e result x, a = .storeResult e result → s.exec[e]? = some x →
      env.ran x.task.taskid result)
    (h : s.move config env.id env.store a = some s') : Kept env s s' := by
  cases a with
  | accept reads => exact kept_accept h
  | enqueue => exact (moved_enqueue h).toKept
  | recvStolen reads => exact kept_recvStolen h
  | putStolen => exact (moved_putStolen h).toKept
  | popWaiting => exact (moved_popWaiting h).toKept
  | lookupReady => exact (moved_lookupReady h).toKept
  | processReady => exact (moved_processReady h).toKept
  | putChecked => exact (moved_putChecked h).toKept
  | migrateOut maxSize ks ks' => exact (moved_migrateOut h).toKept
  | migrateIn => exact (moved_migrateIn h).toKept
  | popReady fromLocal k => exact (moved_popReady h).toKept
  | lookupExec e => exact (moved_lookupExec h).toKept
  | fetchLocal e => exact (moved_fetchLocal hcache h).toKept
  | requireData e => exact (moved_requireData h).toKept
  | storeResult e result => exact (moved_storeResult (hran e result · rfl) h).toKept

theorem moved_move {a : Move} (hclean : ∀ tm ∈ s.held, tm.Clean)
    (hcache : env.cache = config.cache)
    (hran : ∀ e result x, a = .storeResult e result → s.exec[e]? = some x →
      env.ran x.task.taskid result)
    (h : s.move config env.id env.store a = some s') : Moved env s s' := by
  cases a with
  | accept reads => exact moved_accept hclean h
  | enqueue => exact moved_enqueue h
  | recvStolen reads => exact moved_recvStolen hclean h
  | putStolen => exact moved_putStolen h
  | popWaiting => exact moved_popWaiting h
  | lookupReady => exact moved_lookupReady h
  | processReady => exact moved_processReady h
  | putChecked => exact moved_putChecked h
  | migrateOut maxSize ks ks' => exact moved_migrateOut h
  | migrateIn => exact moved_migrateIn h
  | popReady fromLocal k => exact moved_popReady h
  | lookupExec e => exact moved_lookupExec h
  | fetchLocal e => exact moved_fetchLocal hcache h
  | requireData e => exact moved_requireData h
  | storeResult e result => exact moved_storeResult (hran e result · rfl) h

theorem held_act {a : SchedAct} {numScheduler : Nat} {eff : Effect}
    (hclean : ∀ tm ∈ s.held, tm.Clean) (h : s.act config numScheduler id store a = some eff) :
    cores eff.sched.held + cores eff.executed = cores s.held := by
  cases a with
  | boot =>
    obtain ⟨⟨store', boot⟩, _, rfl⟩ := Option.map_eq_some_iff.1 h
    exact add_zero _
  | countReceived =>
    obtain ⟨⟨store', s', counted⟩, hs, rfl⟩ := Option.map_eq_some_iff.1 h
    simp [held_countReceived hs]
  | move a =>
    obtain ⟨s', hs, rfl⟩ := Option.map_eq_some_iff.1 h
    have hmoved : Moved (.any id store config.cache) s s' :=
      moved_move hclean rfl (fun _ _ _ _ _ => trivial) hs
    simp [hmoved.held]
  | finish e =>
    obtain ⟨⟨s', tm⟩, hs, rfl⟩ := Option.map_eq_some_iff.1 h
    exact held_finish hs
  | popComplete =>
    obtain ⟨s', hs, rfl⟩ := Option.map_eq_some_iff.1 h
    simp [held_popComplete hs]
  | lookupChildren =>
    obtain ⟨s', hs, rfl⟩ := Option.map_eq_some_iff.1 h
    simp [held_lookupChildren hs]
  | notifyChild =>
    obtain ⟨⟨store', s', landed⟩, hs, rfl⟩ := Option.map_eq_some_iff.1 h
    simp [held_notifyChild hs]
  | recordStat counters =>
    cases h
    exact add_zero _

end Sched

end Held

end MatrixZht
