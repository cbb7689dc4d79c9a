import MatrixZht.Requests

namespace MatrixZht
open Lib

/-- The bytes of `submit_task_wc`. -/
def submitTaskWc (maxTaskPerPkg : Int) (tmVec : List TaskMsg) : Option Str :=
  sendBatchTasks maxTaskPerPkg tmVec "client".toList

/-- A submission has arrived: the tasks are at the end of the wait queue and their number has been
added to the counter. -/
def Submitted (s : Store) (node : Node) (c : Int) (tasks : List TaskMsg) (r : Option Served) :
    Prop :=
  r = some
    { node := { node with waitQueue := node.waitQueue ++ tasks }
      store := s.insert numTasksRecv (numToStr (c + tasks.length)) }

theorem enqueuePkgs_eq {s : Store} {pkgs : List (List TaskMsg)}
    (h : ∀ t ∈ pkgs.flatten, (strToValue (s.lookup t.taskid)).isSome) (waitQueue : List TaskMsg) :
    enqueuePkgs s pkgs waitQueue = some (waitQueue ++ pkgs.flatten) := by
  induction pkgs generalizing waitQueue with
  | nil => simp [enqueuePkgs]
  | cons pkg pkgs ih =>
    rw [List.flatten_cons] at h
    have hpkg : pkg.all (fun tm => (strToValue (s.lookup tm.taskid)).isSome) = true :=
      List.all_eq_true.2 fun t ht => h t (List.mem_append_left _ ht)
    rw [enqueuePkgs, if_pos hpkg, ih fun t ht => h t (List.mem_append_right _ ht)]
    rw [List.append_assoc, List.flatten_cons]

theorem readRequest_short {first : Str} (hpre : first <+: clientSendTasks)
    (hlen : first.length < clientSendTasks.length) : readRequest first = none := by
  have hclean : ∀ c ∈ first, c ≠ '\x00' ∧ c ≠ '&' := by
    have hall : ∀ c ∈ clientSendTasks, c ≠ '\x00' ∧ c ≠ '&' := by decide
    exact fun c hc => hall c (hpre.subset hc)
  have hcstr : cstr first = first := cstr_eq fun h => (hclean _ h).1 rfl
  have hne : first.take clientSendTasks.length ≠ clientSendTasks := by
    intro he
    have hl := congrArg List.length he
    rw [List.length_take] at hl
    omega
  have htok : tokenize first ['&', '&'] = if first.isEmpty then [] else [first] := by
    rw [tokenize_eq_tokens]
    refine tokens_of_clean fun c hc => ?_
    simp [(hclean c hc).2]
  have hmm : strToMm first = none := by
    rw [strToMm, htok]
    cases first <;> rfl
  simp only [readRequest, hcstr, hmm, Option.map_none]
  exact if_neg hne

theorem readRequest_submit {first : Str} (hz : '\x00' ∉ first)
    (hpre : first.take clientSendTasks.length = clientSendTasks) :
    readRequest first = some (.submit first) := by
  simp only [readRequest, cstr_eq hz]
  exact if_pos hpre

theorem recvMul_rest {first : Str} {rest : List Str} {body : Str}
    (hcut : Cut (body ++ ['$']) (first :: rest)) (hd : '$' ∉ body) (hz : '\x00' ∉ body) :
    (recvMul rest first).1 = body ++ ['$'] := by
  have hflat : first ++ rest.flatten = body ++ ['$'] := by
    have h := hcut.flatten
    rwa [List.flatten_cons] at h
  have hpos : ∀ r ∈ rest, r ≠ [] := fun r hr => hcut.pos r (List.mem_cons_of_mem _ hr)
  rcases append_eq_concat_cases hflat with ⟨t, rfl, hrest⟩ | ⟨hfirst, hrest⟩
  · rw [recvMul_of_flatten hpos hrest (fun h => hd (List.mem_append_right _ h))
      (fun h => hz (List.mem_append_right _ h))]
    simp only [List.append_assoc]
  · rw [eq_nil_of_flatten hpos hrest, recvMul, hfirst]

theorem batchText_client (tasks : List TaskMsg) (pkgs : List (List TaskMsg)) :
    clientSendTasks <+: batchText "client".toList tasks pkgs := by
  rw [batchText, terminate_cons, mmToStr, terminate_cons, List.append_assoc]
  exact List.prefix_append _ _

theorem loop_numTaskRecvMore {s : Store} {c : Int} (hc : IsLong c)
    (hcount : s numTasksRecv = some (numToStr c)) (numTask : Int) (fuel : Nat) :
    Retry.loop (numTaskRecvMore numTask) numTasksRecv (fuel + 2) s .look =
      some (s.insert numTasksRecv (numToStr (toInt64 (c + numTask)))) := by
  refine Retry.loop_look hcount ?_ fuel
  rw [numTaskRecvMore, strToLong_numToStr hc]

section Cut

variable {tasks : List TaskMsg} {pkgs : List (List TaskMsg)} {first : Str} {rest : List Str}
  {m : Int} {s : Store} {node : Node} {fuel : Nat} {ks : List Nat}

theorem procReq_short (hcut : Cut (batchText "client".toList tasks pkgs ++ ['$']) (first :: rest))
    (hlen : first.length < clientSendTasks.length) :
    procReq m fuel ks s node first rest = none := by
  have hfirst : first <+: batchText "client".toList tasks pkgs ++ ['$'] :=
    ⟨rest.flatten, by rw [← hcut.flatten, List.flatten_cons]⟩
  have hpre : clientSendTasks <+: batchText "client".toList tasks pkgs ++ ['$'] :=
    (batchText_client tasks pkgs).trans (List.prefix_append _ _)
  have hle : first <+: clientSendTasks :=
    List.prefix_of_prefix_length_le hfirst hpre (Nat.le_of_lt hlen)
  rw [procReq, readRequest_short hle hlen]
  rfl

/-- Once the first read holds the whole request name, the rest of the stream is read. -/
theorem procReq_long (hclean : ∀ t ∈ tasks, t.Clean) (hflat : pkgs.flatten = tasks)
    (hcut : Cut (batchText "client".toList tasks pkgs ++ ['$']) (first :: rest))
    (hlen : clientSendTasks.length ≤ first.length) :
    procReq m fuel ks s node first rest =
      (recvTaskFromClient fuel s node.waitQueue (batchText "client".toList tasks pkgs ++ ['$'])
        []).map fun r => { node := { node with waitQueue := r.1 }, store := r.2 } := by
  have hpeer : CleanField "client".toList := by decide
  obtain ⟨hd, hz⟩ := not_mem_batchText hpeer (fun t ht => (hclean t ht).delimFree) hflat
  have hfirst : first <+: batchText "client".toList tasks pkgs ++ ['$'] :=
    ⟨rest.flatten, by rw [← hcut.flatten, List.flatten_cons]⟩
  have hpre : clientSendTasks <+: batchText "client".toList tasks pkgs ++ ['$'] :=
    (batchText_client tasks pkgs).trans (List.prefix_append _ _)
  have hzf : '\x00' ∉ first := by
    intro h
    rcases List.mem_append.1 (hfirst.subset h) with h | h
    · exact hz h
    · exact absurd h (by decide)
  have htake : first.take clientSendTasks.length = clientSendTasks :=
    (List.prefix_iff_eq_take.1 (List.prefix_of_prefix_length_le hpre hfirst hlen)).symm
  have hrecv : (recvMul rest first).1 =
      (recvMul [] (batchText "client".toList tasks pkgs ++ ['$'])).1 := recvMul_rest hcut hd hz
  rw [procReq, readRequest_submit hzf htake]
  simp only [recvTaskFromClient, hrecv, Option.bind_eq_bind, Option.bind_some, Option.pure_def]
  rw [Option.map_eq_bind]
  rfl

end Cut

section Counter

variable {tasks : List TaskMsg} {pkgs : List (List TaskMsg)} {s : Store} {c : Int}

theorem recvTaskFromClient_eq (hclean : ∀ t ∈ tasks, t.Clean)
    (hlong : ∀ t ∈ tasks, IsLong t.datalength) (hnil : pkgs = [] ↔ tasks = [])
    (hflat : pkgs.flatten = tasks) (hlen : tasks.length < 2 ^ 31) (hc : 0 ≤ c)
    (hsum : c + tasks.length < 2 ^ 63) (hcount : s numTasksRecv = some (numToStr c))
    (hrec : ∀ t ∈ tasks, (strToValue (s.lookup t.taskid)).isSome) (fuel : Nat)
    (waitQueue : List TaskMsg) :
    recvTaskFromClient (fuel + 2) s waitQueue (batchText "client".toList tasks pkgs ++ ['$']) [] =
      some (waitQueue ++ tasks, s.insert numTasksRecv (numToStr (c + tasks.length))) := by
  have hpeer : CleanField "client".toList := by decide
  rw [recvTaskFromClient, recvMul]
  by_cases hempty : tasks = []
  · obtain rfl := hnil.2 hempty
    subst hempty
    have hid : s.insert numTasksRecv (numToStr c) = s := by
      rw [Store.insert, ← hcount, Function.update_eq_self]
    rw [decodeBatch_header hpeer]
    simp [hid]
  · have hcl : IsLong c := by
      unfold IsLong
      omega
    have hsl : IsLong (c + tasks.length) := by
      unfold IsLong
      omega
    have hn : IsInt tasks.length := by
      unfold IsInt
      omega
    rw [decodeBatch_batchText hpeer hclean (length_lt_of_flatten hflat hlen) hflat
      fun h => hempty (hnil.1 h), map_reread hflat hlong, toInt32_eq hn]
    simp only [Option.bind_eq_bind, Option.bind_some, Option.pure_def]
    rw [enqueuePkgs_eq (hflat ▸ hrec), loop_numTaskRecvMore hcl hcount, toInt64_eq hsl, hflat]
    rfl

theorem recvTaskFromClient_count (hclean : ∀ t ∈ tasks, t.Clean) (hflat : pkgs.flatten = tasks)
    (hne : pkgs ≠ []) (hc : IsLong c) (hcount : s numTasksRecv = some (numToStr c)) {fuel : Nat}
    {waitQueue : List TaskMsg} {r : List TaskMsg × Store}
    (h : recvTaskFromClient (fuel + 2) s waitQueue
      (batchText "client".toList tasks pkgs ++ ['$']) [] = some r) :
    r.2 numTasksRecv = some (numToStr (toInt64 (c + toInt32 tasks.length))) := by
  have hpeer : CleanField "client".toList := by decide
  rw [recvTaskFromClient, recvMul,
    decodeBatch_pkgs hpeer (fun t ht => (hclean t ht).delimFree) hflat hne] at h
  simp only [Option.bind_eq_bind, Option.pure_def, Option.bind_eq_some_iff,
    Option.map_eq_some_iff] at h
  obtain ⟨_, ⟨ps, _, rfl⟩, h⟩ := h
  simp only [Option.bind_eq_some_iff, loop_numTaskRecvMore hc hcount, Option.some.injEq] at h
  obtain ⟨_, _, _, rfl, rfl⟩ := h
  simp only [Store.insert_self]

end Counter

/-- A submission arrives exactly when the first read holds the whole request name and the number of
tasks fits the `int` it is announced in. -/
theorem procReq_submitTaskWc (tasks : List TaskMsg) (maxTaskPerPkg : Int)
    (hm : 1 ≤ maxTaskPerPkg) (hclean : ∀ t ∈ tasks, t.Clean)
    (hlong : ∀ t ∈ tasks, IsLong t.datalength) (s : Store) (node : Node) (c : Int) (hc : 0 ≤ c)
    (hsum : c + tasks.length < 2 ^ 63) (hcount : s numTasksRecv = some (numToStr c))
    (hrec : ∀ t ∈ tasks, (strToValue (s.lookup t.taskid)).isSome) :
    ∃ stream, submitTaskWc maxTaskPerPkg tasks = some stream ∧
      ∀ first rest, Cut stream (first :: rest) → ∀ fuel ks,
        (Submitted s node c tasks
            (procReq maxTaskPerPkg (fuel + 2) ks s node first rest) ↔
          clientSendTasks.length ≤ first.length ∧ tasks.length < 2 ^ 31) := by
  obtain ⟨pkgs, hnil, hflat, _, hsend⟩ := sendBatchTasks_eq hm tasks "client".toList
  refine ⟨_, hsend, fun first rest hcut fuel ks => ?_⟩
  by_cases hshort : first.length < clientSendTasks.length
  · rw [procReq_short hcut hshort, Submitted]
    constructor
    · intro h
      cases h
    · intro h
      omega
  · have hlen : clientSendTasks.length ≤ first.length := by omega
    rw [procReq_long hclean hflat hcut hlen, Submitted]
    constructor
    · intro h
      refine ⟨hlen, ?_⟩
      by_contra hbig
      have hne : pkgs ≠ [] := by
        intro he
        rw [hnil.1 he] at hbig
        simp at hbig
      have hcl : IsLong c := by
        unfold IsLong
        omega
      obtain ⟨r, hr, hserved⟩ := Option.map_eq_some_iff.1 h
      have hstore := recvTaskFromClient_count hclean hflat hne hcl hcount hr
      rw [(Served.mk.inj hserved).2.1, Store.insert_self] at hstore
      have heq : c + tasks.length = toInt64 (c + toInt32 tasks.length) :=
        decimal_injective (Option.some.inj hstore)
      have hint : IsInt (toInt32 tasks.length) := isInt_toInt32 _
      unfold IsInt at hint
      rw [toInt64_eq (by unfold IsLong; omega)] at heq
      omega
    · rintro ⟨_, hn⟩
      rw [recvTaskFromClient_eq hclean hlong hnil hflat hn hc hsum hcount hrec]
      rfl

/-- A task whose record is in the store, with no task received so far. -/
def sleepTask : TaskMsg := ⟨"00".toList, "u".toList, "d".toList, "sleep 0".toList, 0⟩

def sleepStore : Store :=
  Store.insert (Store.insert (fun _ => none) numTasksRecv "0".toList) "00".toList
    (valueToStr { id := "00".toList, indegree := some 0 })

def sleepStream : Str :=
  ("client send tasks&&noextrainfo&&1&&notask&&##" ++
    "client send tasks&&noextrainfo&&1&&00@@u@@d@@sleep 0@@0@@!!&&##$").toList

theorem procReq_submitTaskWc_sleepTask :
    ∃ stream, submitTaskWc 1 [sleepTask] = some stream ∧
      ∀ first rest, Cut stream (first :: rest) → ∀ fuel ks,
        (Submitted sleepStore {} 0 [sleepTask] (procReq 1 (fuel + 2) ks sleepStore {} first rest) ↔
          17 ≤ first.length ∧ 1 < 2 ^ 31) :=
  procReq_submitTaskWc [sleepTask] 1 (by decide) (by decide) (by decide) sleepStore {} 0 (by decide)
    (by decide) (by decide) (by decide +kernel)

/-- The same submission is lost when the first read is cut after six bytes. -/
theorem submitTaskWc_lost_of_short_read :
    submitTaskWc 1 [sleepTask] = some sleepStream ∧
      Cut sleepStream ["client".toList, sleepStream.drop 6] ∧
      ∀ fuel ks, ¬ Submitted sleepStore {} 0 [sleepTask]
        (procReq 1 fuel ks sleepStore {} "client".toList [sleepStream.drop 6]) := by
  refine ⟨by decide, ⟨by decide, by decide, by decide⟩, fun fuel ks h => ?_⟩
  have hnone : readRequest "client".toList = none := by decide
  rw [procReq, hnone] at h
  cases h

end MatrixZht
